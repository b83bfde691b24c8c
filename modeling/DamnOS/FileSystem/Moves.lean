import DamnOS.FileSystem.Ownership

/-!
# Operations as sequences of changes

Every operation of `damnfs.c`, from a sane state, is a sequence of the changes in `Step`, whether
it returns, fails or panics; unless it followed an inode number beyond the table.
-/

namespace DamnOS.FileSystem

open DamnOS.Framework

/-- What the runs of one group of results may change, and what they keep besides sanity. -/
structure Setting where
  N : Nat
  scope : Scope
  extra : World → Prop
  kept : ∀ {w v}, Sane N w → Step scope N w v → extra w → extra v

namespace Setting

def Lasting (E : Setting) (F : World → Prop) : Prop :=
  ∀ {w v}, Sane E.N w → Step E.scope E.N w v → F w → F v

theorem run_lasting (E : Setting) {F : World → Prop} (hF : E.Lasting F) {w v : World}
    (hr : Relation.ReflTransGen (Step E.scope E.N) w v) (hw : Sane E.N w) (h : F w) :
    Sane E.N v ∧ F v := by
  induction hr with
  | refl => exact ⟨hw, h⟩
  | tail _ hs ih => exact ⟨hs.sane ih.1, hF ih.1 hs ih.2⟩

abbrev contract (E : Setting) : Contract World where
  Grows := Grows
  Lost w := ∃ k ∈ w.followed, E.N ≤ k
  Moves := Relation.ReflTransGen (Step E.scope E.N)
  Inv w := Sane E.N w ∧ E.extra w
  lost_grows h hl := by
    obtain ⟨k, hk, hn⟩ := hl
    exact ⟨k, h.followed.subset hk, hn⟩
  moves_refl _ := .refl
  moves_trans := .trans
  moves_inv h hi := E.run_lasting E.kept h hi.1 hi.2

end Setting

/-- The address of a directory entry in some data block. -/
def EntryAddr (e : Nat) : Prop :=
  ∃ b j, 2 ≤ b ∧ j < BLKFILES ∧ e = blockVa b + DIRESIZE * j

theorem EntryAddr.bounds {e : Nat} (h : EntryAddr e) :
    ∃ b, 2 ≤ b ∧ blockVa b ≤ e ∧ e + DIRESIZE ≤ blockVa b + BLKSIZE := by
  obtain ⟨b, j, hb, hj, rfl⟩ := h
  refine ⟨b, hb, by omega, ?_⟩
  simp only [BLKFILES, DIRESIZE, BLKSIZE] at *
  omega

def Calm (P : World → Prop) : Prop := ∀ w v, Quiet w v → P w → P v

/-- Every byte of the range was recorded as being stored to. -/
def Recorded (a n : Nat) (w : World) : Prop :=
  ∀ x, a ≤ x → x < a + n → ∃ c ∈ w.accesses, c.Stores x

theorem calm_recorded (a n : Nat) : Calm (Recorded a n) := by
  intro w v h hr x hlo hhi
  obtain ⟨c, hc, hx⟩ := hr x hlo hhi
  exact ⟨c, h.grows.accesses.subset hc, hx⟩

namespace Setting

variable (E : Setting)

private theorem spec_touchPage (p : Nat) :
    Spec E.contract (fun _ => True) (touchPage p) (fun _ w => w.present p = true) := by
  intro w _ _
  refine Or.inr ?_
  rcases touchPage_cases w p with ⟨e, hr⟩ | ⟨hp, hr⟩ | ⟨hp, hlo, hr | ⟨e, hr⟩⟩
  · rw [final_error hr, hr]
    exact ⟨.refl, fun _ _ he => by cases he⟩
  · rw [final_ok hr, hr]
    refine ⟨.refl, fun _ _ he => ?_⟩
    cases he
    exact hp
  · rw [final_ok hr, hr]
    refine ⟨.single (.load p hlo hp), fun _ _ he => ?_⟩
    cases he
    simp [World.load]
  · rw [final_error hr, hr]
    exact ⟨.single (.load p hlo hp), fun _ _ he => by cases he⟩

private theorem lasting_present (p : Nat) : E.Lasting fun w => w.present p = true :=
  fun _ hs => hs.present_mono p

theorem spec_frame {α : Type} {m : M α} {P F : World → Prop} {Q : α → World → Prop}
    (hF : E.Lasting F) (h : Spec E.contract P m Q) :
    Spec E.contract (fun w => P w ∧ F w) m (fun a w => Q a w ∧ F w) :=
  h.frame fun _ _ hi hm hf => (E.run_lasting hF hm hi.1 hf).2

private theorem spec_touchPages (l : List Nat) :
    Spec E.contract (fun _ => True) (l.forM touchPage) (fun _ w => ∀ p ∈ l, w.present p = true) := by
  induction l with
  | nil => exact Spec.ret _ fun _ _ _ => by simp
  | cons p l ih =>
    refine (E.spec_touchPage p).bind fun _ => ?_
    refine (E.spec_frame (E.lasting_present p) ih).conseq (fun w _ h => ⟨trivial, h⟩) ?_
    intro _ w _ h q hq
    rcases List.mem_cons.mp hq with rfl | hq
    · exact h.2
    · exact h.1 q hq

theorem spec_touch (a n : Nat) : Spec E.contract (fun _ => True) (touch a n)
    (fun _ w => ∀ p ∈ pagesOf a n, w.present p = true) :=
  E.spec_touchPages _

theorem spec_load16 (a : Nat) :
    Spec E.contract (fun _ => True) (load16 a) (fun v w => v = w.cell a) := by
  refine (E.spec_touch a 2).bind fun _ => Spec.look.bind fun v => Spec.ret _ ?_
  rintro w _ ⟨rfl, -⟩
  rfl

theorem spec_flushBlock (a : Nat) :
    Spec E.contract (fun _ => True) (flushBlock a) (fun _ _ => True) := by
  refine Spec.ite (fun _ => Spec.stop _) fun h => Spec.change fun w _ _ => Or.inr ⟨.single ?_, trivial⟩
  refine .flush _ ?_
  simp only [DISKMAP, superPg, PGSIZE] at *
  omega

theorem spec_diskaddr (b : Nat) :
    Spec E.contract (fun _ => True) (diskaddr b) (fun a _ => a = blockVa b) :=
  Spec.look.bind fun _ => Spec.ite (fun _ => Spec.stop _) fun _ => Spec.ret _ fun _ _ _ => rfl

theorem spec_store {b a n : Nat} (f : Nat → UInt8) (hb : 2 ≤ b) (hlo : blockVa b ≤ a)
    (hhi : a + n ≤ blockVa b + BLKSIZE) {P : World → Prop} (hP : Calm P)
    (hown : ∀ w, Sane E.N w → P w → ∀ i j, i < E.N → w.cached.slot i j = b → E.scope.inode i)
    (hrec : ∀ w, P w → Recorded a n w) :
    Spec E.contract P (store a n f) (fun _ _ => True) := by
  have ht := ((E.spec_touch a n).keep hP).pre fun w _ h => ⟨trivial, h⟩
  refine ht.bind fun _ => Spec.change fun w hi h => Or.inr ⟨.single ?_, trivial⟩
  exact .data b a n f hb hlo hhi h.1 (hown w hi.1 h.2) (hrec w h.2)

/-- The inode that `f` names may be changed. -/
def InScope (f : Nat) : Prop := ∀ w, Sane E.N w → E.extra w →
  w.cell (f + offInInd) < E.N → E.scope.inode (w.cell (f + offInInd))

theorem spec_inodeOf {f : Nat} (hf : E.InScope f) : Spec E.contract (fun _ => True) (inodeOf f)
    (fun a _ => ∃ k, (a = inodeVa k ∧ k < E.N ∧ E.scope.inode k) ∧ True) := by
  refine (E.spec_load16 _).bind fun k => ?_
  have hfollow : Spec E.contract (fun w => k = w.cell (f + offInInd))
      (modify fun w => w.follow k : M Unit) (fun _ _ => k < E.N ∧ E.scope.inode k) := by
    refine Spec.change fun w hi hk => ?_
    rcases Nat.lt_or_ge k E.N with hlt | hge
    · exact Or.inr ⟨.single (.follow k), hlt, hk ▸ hf w hi.1 hi.2 (hk ▸ hlt)⟩
    · exact Or.inl ⟨k, List.mem_cons_self, hge⟩
  exact hfollow.bind fun _ => Spec.ret _ fun _ _ h => ⟨k, ⟨rfl, h⟩, trivial⟩

theorem spec_inodeOf_bind {α : Type} {f : Nat} (hf : E.InScope f) {g : Nat → M α}
    [∀ a, Keeps Grows (g a)] {Q : α → World → Prop}
    (h : ∀ k, k < E.N → E.scope.inode k → Spec E.contract (fun _ => True) (g (inodeVa k)) Q) :
    Spec E.contract (fun _ => True) (inodeOf f >>= g) Q := by
  refine (E.spec_inodeOf hf).bind fun a => Spec.unpack fun k => Spec.assume ?_
  rintro ⟨rfl, hk, hs⟩
  exact h k hk hs

section Inode

variable {i : Nat} (hi : i < E.N) (hs : E.scope.inode i)
include hi hs

theorem spec_storeType (v : Nat) : Spec E.contract (fun _ => True)
    (store16 (inodeVa i + offType) v) (fun _ _ => True) :=
  Spec.exact fun _ h _ =>
    ⟨store16_field h.1.ready (h.1.lt hi) (by decide) v, .single (.type i v hs hi), trivial⟩

theorem spec_storeSize (v : Nat) : Spec E.contract (fun _ => True)
    (store16 (inodeVa i + offSize) v) (fun _ _ => True) :=
  Spec.exact fun _ h _ =>
    ⟨store16_field h.1.ready (h.1.lt hi) (by decide) v, .single (.size i v hs hi), trivial⟩

private theorem spec_storeUsed (v : Nat) : Spec E.contract (fun _ => True)
    (store16 (inodeVa i + offBlkUsed) v) (fun _ _ => True) :=
  Spec.exact fun _ h _ =>
    ⟨store16_field h.1.ready (h.1.lt hi) (by decide) v, .single (.used i v hs hi), trivial⟩

theorem spec_fileGetBlock (j : Nat) : Spec E.contract (fun _ => True) (fileGetBlock (inodeVa i) j)
    (fun blk w => ∃ b, (blk = blockVa b ∧ 2 ≤ b) ∧ w.cached.slot i j = b) := by
  intro w hw _
  have hsane := hw.1
  refine Or.inr ?_
  rcases Nat.lt_or_ge j NDIRECT with hj | hj
  · by_cases hz : w.cached.slot i j = 0
    · cases hf : w.firstFree with
      | none =>
        have hr := fileGetBlock_full hsane.ready (hsane.lt hi) hj hz hf
        rw [final_error hr, hr]
        exact ⟨.refl, fun _ _ he => by cases he⟩
      | some b =>
        have hb := hsane.firstFree hf
        have hr := fileGetBlock_empty hsane.ready (hsane.lt hi) hj hz hf hb.1 hb.2.1
        rw [final_ok hr, hr]
        refine ⟨.tail (.single (.acquire i j b hs hi hj hz hf)) (.flush _ (by decide)), ?_⟩
        intro blk v he
        cases he
        refine ⟨b, ⟨rfl, hb.2.2.2⟩, ?_⟩
        rw [cached_flush _ (by decide), cached_acquire hsane.ready (hsane.lt hi) hj hb.1,
          slot_setBlkUsed, slot_setSlot, if_pos ⟨rfl, rfl⟩]
    · have hv := hsane.slot_valid hi hz
      have hr := fileGetBlock_filled hsane.ready (hsane.lt hi) hj hz hv.2.1
      rw [final_ok hr, hr]
      refine ⟨.single (.flush _ (by decide)), fun blk v he => ?_⟩
      cases he
      exact ⟨_, ⟨rfl, hv.1⟩, by rw [cached_flush _ (by decide)]⟩
  · have hr := fileGetBlock_inval (w := w) (inodeVa i) hj
    rw [final_error hr, hr]
    exact ⟨.refl, fun _ _ he => by cases he⟩

private theorem spec_dirScan (test : World → Nat → Bool) (j n : Nat) :
    Spec E.contract (fun _ => True) (dirScan (inodeVa i) test j n)
      (fun r _ => ∀ e, r = some e → EntryAddr e) := by
  induction n generalizing j with
  | zero => exact Spec.ret _ fun _ _ _ e he => by cases he
  | succ n ih =>
    have hblk : Spec E.contract (fun _ => True) (fileGetBlock (inodeVa i) j)
        (fun blk _ => ∃ b, (blk = blockVa b ∧ 2 ≤ b) ∧ True) :=
      (E.spec_fileGetBlock hi hs j).post fun _ _ _ h => by
        obtain ⟨b, hb, -⟩ := h
        exact ⟨b, hb, trivial⟩
    unfold dirScan
    refine hblk.seq (fun blk => ?_) fun blk => Spec.unpack fun b => Spec.assume ?_
    · refine Keeps.andThen fun _ => Keeps.andThen fun w => ?_
      split <;> infer_instance
    rintro ⟨rfl, hb⟩
    refine (E.spec_touch _ _).seq (fun _ => ?_) fun _ => Spec.look.seq (fun w => ?_) fun w => ?_
    · refine Keeps.andThen fun w => ?_
      split <;> infer_instance
    · split <;> infer_instance
    cases hfind : (List.range BLKFILES).find? (fun j => test w (blockVa b + DIRESIZE * j)) with
    | none => exact (ih (j + 1)).pre fun _ _ _ => trivial
    | some k =>
      refine Spec.ret _ fun _ _ _ e he => ?_
      cases he
      exact ⟨b, k, hb, List.mem_range.mp (List.mem_of_find?_eq_some hfind), rfl⟩

private theorem spec_dirLookup (name : List UInt8) : Spec E.contract (fun _ => True)
    (dirLookup (inodeVa i) name) (fun r _ => ∀ e, r = some e → EntryAddr e) :=
  ((E.spec_load16 _).post fun _ _ _ _ => trivial).bind fun _ => E.spec_dirScan hi hs _ _ _

private theorem spec_bumpSize :
    Spec E.contract (fun _ => True) (bumpSize (inodeVa i)) (fun _ _ => True) :=
  ((E.spec_load16 _).post fun _ _ _ _ => trivial).bind fun _ => E.spec_storeSize hi hs _

theorem spec_dirAllocEntry : Spec E.contract (fun _ => True) (dirAllocEntry (inodeVa i))
    (fun e _ => EntryAddr e) := by
  have hload (a : Nat) : Spec E.contract (fun _ => True) (load16 a) (fun _ _ => True) :=
    (E.spec_load16 a).post fun _ _ _ _ => trivial
  unfold dirAllocEntry
  refine (hload _).seq (fun nblock => ?_) fun nblock =>
    (E.spec_dirScan hi hs _ _ _).seq (fun found => ?_) fun found => ?_
  · refine Keeps.andThen fun found => ?_
    split <;> infer_instance
  · split <;> infer_instance
  cases found with
  | some e =>
    have hbump : Spec E.contract (fun _ => ∀ e', some e = some e' → EntryAddr e')
        (bumpSize (inodeVa i)) (fun _ _ => EntryAddr e) :=
      fun w hw h => (E.spec_bumpSize hi hs w hw trivial).imp_right fun hm =>
        ⟨hm.1, fun _ _ _ => h e rfl⟩
    exact hbump.bind fun _ => Spec.ret _ fun _ _ h => h
  | none =>
    refine ((hload _).pre fun _ _ _ => trivial).bind fun used =>
      (E.spec_storeUsed hi hs _).bind fun _ => (E.spec_bumpSize hi hs).bind fun _ => ?_
    refine (E.spec_fileGetBlock hi hs nblock).post fun blk w _ h => ?_
    obtain ⟨b, ⟨rfl, hb⟩, -⟩ := h
    exact ⟨b, 0, hb, by decide, by simp⟩

end Inode

def WalkGood (E : Setting) : Walk → Prop
  | .found dir e => dir = 0 ∧ e = 0 ∨ (∃ i, i < E.N ∧ dir = inodeVa i) ∧ EntryAddr e
  | .missing dir name => (∃ i, i < E.N ∧ dir = inodeVa i) ∧ name.length < MAXNAMELEN

section Walk

variable (hall : ∀ k, k < E.N → E.scope.inode k)
include hall

theorem inScope_all (f : Nat) : E.InScope f := fun _ _ _ hk => hall _ hk

theorem spec_walkLoop (fuel : Nat) (path : List UInt8) {i : Nat} (hi : i < E.N) (dir entry : Nat)
    (hd : dir = 0 ∧ entry = 0 ∨ (∃ i, i < E.N ∧ dir = inodeVa i) ∧ EntryAddr entry) :
    Spec E.contract (fun _ => True) (walkLoop fuel path (inodeVa i) dir entry)
      (fun r _ => E.WalkGood r) := by
  induction fuel generalizing path i dir entry with
  | zero => exact Spec.stop _
  | succ fuel ih =>
    unfold walkLoop
    refine Spec.ite (fun _ => Spec.ret _ fun _ _ _ => hd) fun _ => Spec.ite (fun _ => Spec.stop _)
      fun hlen => ?_
    refine Spec.seq (fun _ => ?_) ((E.spec_load16 _).post fun _ _ _ _ => trivial) fun _ =>
      Spec.ite (fun _ => Spec.stop _) fun _ => ?_
    · split
      · infer_instance
      · refine Keeps.andThen fun found => ?_
        split <;> infer_instance
    refine (E.spec_dirLookup hi (hall i hi) _).seq (fun found => ?_) fun found => ?_
    · split <;> infer_instance
    cases found with
    | none =>
      exact Spec.ite (fun _ => Spec.ret _ fun _ _ _ => ⟨⟨i, hi, rfl⟩, not_le.mp hlen⟩)
        fun _ => Spec.stop _
    | some e =>
      intro w hw he
      refine E.spec_inodeOf_bind (E.inScope_all hall e) (fun k hk _ => ?_) w hw trivial
      exact ih _ hk _ _ (Or.inr ⟨⟨i, hi, rfl⟩, he e rfl⟩)

theorem spec_walkPath (hN : 0 < E.N) (path : List UInt8) : Spec E.contract (fun _ => True)
    (walkPath path) (fun r _ => E.WalkGood r) :=
  Spec.ite (fun _ => E.spec_walkLoop hall _ _ hN 0 0 (Or.inl ⟨rfl, rfl⟩)) fun _ => Spec.stop _

theorem spec_fileOpen (hN : 0 < E.N) (path : List UInt8) :
    Spec E.contract (fun _ => True) (fileOpen path) (fun _ _ => True) := by
  refine Spec.seq (fun r => by cases r <;> infer_instance) (E.spec_walkPath hall hN path) fun r => ?_
  cases r with
  | found dir entry => exact Spec.ret _ fun _ _ _ => trivial
  | missing dir name => exact Spec.stop _

end Walk

end Setting

end DamnOS.FileSystem
