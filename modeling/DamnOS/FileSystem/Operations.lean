import DamnOS.FileSystem.Moves

/-!
# Whole operations

Truncation, flushing, creation, removal, reading and writing, each as a sequence of changes.
Truncation frees blocks; where freeing is out of scope, it has to find nothing to free.
-/

namespace DamnOS.FileSystem

open DamnOS.Framework

/-- The inode number in a directory entry. -/
def World.inInd (w : World) (f : Nat) : Nat := w.cell (f + offInInd)

/-- `file_set_size(f, newsize)` finds no block to free. -/
def Idle (f : Nat) (newsize : Int) (w : World) : Prop :=
  newsize < ((w.cached.inode (w.inInd f)).size : Int) →
    ∀ j, nblocks newsize ≤ j → j < nblocks (w.cached.inode (w.inInd f)).size →
      w.cached.slot (w.inInd f) j = 0

instance (f : Nat) (newsize : Int) (w : World) : Decidable (Idle f newsize w) :=
  decidable_of_iff (newsize < ((w.cached.inode (w.inInd f)).size : Int) →
    ∀ j < nblocks (w.cached.inode (w.inInd f)).size, nblocks newsize ≤ j →
      w.cached.slot (w.inInd f) j = 0)
    ⟨fun h hlt j hlo hhi => h hlt j hhi hlo, fun h hlt j hhi hlo => h hlt j hlo hhi⟩

theorem calm_idle (f : Nat) (newsize : Int) : Calm (Idle f newsize) := by
  intro w v h hi
  have hk : v.inInd f = w.inInd f := h.cell _
  unfold Idle
  rw [hk, h.cached]
  exact hi

def Apart (buf n : Nat) : Prop := buf + n ≤ DISKMAP ∨ DISKMAP + DISKSIZE ≤ buf

instance (buf n : Nat) : Decidable (Apart buf n) := inferInstanceAs (Decidable (_ ∨ _))

theorem toU32_sub {x : Int} {n : Nat} (h : n ≤ toU32 x) : toU32 (x - n) = toU32 x - n := by
  unfold toU32 at *
  omega

theorem toU32_natCast {n : Nat} (h : n < 4294967296) : toU32 n = n := by
  unfold toU32
  omega

theorem toU32_lt (x : Int) : toU32 x < 4294967296 := by
  unfold toU32
  omega

theorem chunk_le_rest (pos : Int) (stop : Nat) : chunk pos stop ≤ toU32 (stop - pos) :=
  Nat.min_le_right _ _

theorem inBlock_nonneg (blk : Nat) {pos : Int} (h : 0 ≤ pos) :
    inBlock blk pos = blk + pos.toNat % BLKSIZE := by
  simp only [inBlock, BLKSIZE]
  rw [Int.tmod_eq_emod_of_nonneg h]
  omega

theorem chunk_le_block {pos : Int} (h : 0 ≤ pos) (stop : Nat) :
    chunk pos stop + pos.toNat % BLKSIZE ≤ BLKSIZE := by
  have hle : chunk pos stop ≤ toU32 (BLKSIZE - pos.tmod BLKSIZE) := Nat.min_le_left _ _
  simp only [BLKSIZE, toU32] at *
  rw [Int.tmod_eq_emod_of_nonneg h] at hle
  omega

/-- `file_free_block` after the walk to the slot. -/
def freeSlot (slot : Nat) : M Unit := do
  let b ← load16 slot
  if b = 0 then pure () else do
    freeBlock b
    store16 slot 0

theorem freeSlot_empty {w : World} (h : Ready w) {i j : Nat} (hi : i < MAXINODENUM)
    (hj : j < NDIRECT) (hz : w.cached.slot i j = 0) :
    freeSlot (inodeVa i + offBlkInd + 2 * j) w = .ok () w := by
  rw [freeSlot, bind_ok (load16_slot h hi hj), if_pos hz]
  rfl

theorem freeSlot_filled {w : World} (h : Ready w) {i j : Nat} (hi : i < MAXINODENUM)
    (hj : j < NDIRECT) (hz : w.cached.slot i j ≠ 0) (hlt : w.cached.slot i j < MAXBLKNUM) :
    freeSlot (inodeVa i + offBlkInd + 2 * j) w = .ok () (w.release i j) := by
  rw [freeSlot, bind_ok (load16_slot h hi hj), if_neg hz, bind_ok (freeBlock_run h hz hlt)]
  exact store16_slot (h.of_present (by simp)) hi hj 0

theorem fileFreeBlock_slot (f : Nat) {j : Nat} (hj : j < NDIRECT) :
    fileFreeBlock f j = inodeOf f >>= fun inode => freeSlot (inode + offBlkInd + 2 * j) := by
  simp only [fileFreeBlock, fileBlockWalk, if_pos hj]
  rfl

theorem fileFreeBlock_beyond (f : Nat) {j : Nat} (hj : NDIRECT ≤ j) :
    fileFreeBlock f j = inodeOf f >>= fun _ => throw (.err .inval) := by
  simp only [fileFreeBlock, fileBlockWalk, if_neg (not_lt.mpr hj)]
  rfl

instance keeps_freeSlot (slot : Nat) : Keeps Grows (freeSlot slot) := by
  unfold freeSlot
  infer_instance

namespace Setting

variable (E : Setting)

private theorem lasting_recorded (a n : Nat) : E.Lasting (Recorded a n) := by
  intro w v _ hs hr x hlo hhi
  obtain ⟨c, hc, hx⟩ := hr x hlo hhi
  exact ⟨c, hs.grows.accesses.subset hc, hx⟩

theorem spec_attempt {α : Type} {m : M α} {P : World → Prop} {Q : α → World → Prop}
    (h : Spec E.contract P m Q) :
    Spec E.contract P (attempt m) (fun r w => ∀ a, r = .ok a → Q a w) := by
  intro w hw hp
  rw [final_attempt]
  refine (h w hw hp).imp_right fun hm => ⟨hm.1, fun r t hr a hra => ?_⟩
  subst hra
  exact hm.2 a t (attempt_eq_ok hr)

private theorem spec_inodeOf_named {f : Nat} (hf : E.InScope f) {P : World → Prop} (hP : Calm P) :
    Spec E.contract P (inodeOf f) (fun a w => ∃ k, (a = inodeVa k ∧ k < E.N ∧ E.scope.inode k) ∧
      w.inInd f = k ∧ P w) := by
  have hload := ((E.spec_load16 (f + offInInd)).keep hP).pre fun w _ h => ⟨trivial, h⟩
  refine hload.bind fun k => ?_
  have hfollow : Spec E.contract (fun w => k = w.cell (f + offInInd) ∧ P w)
      (modify fun w => w.follow k : M Unit)
      (fun _ w => (k < E.N ∧ E.scope.inode k) ∧ w.inInd f = k ∧ P w) := by
    refine Spec.change fun w hi hk => ?_
    rcases Nat.lt_or_ge k E.N with hlt | hge
    · refine Or.inr ⟨.single (.follow k), ⟨hlt, hk.1 ▸ hf w hi.1 hi.2 (hk.1 ▸ hlt)⟩, hk.1.symm, ?_⟩
      exact hP w _ (quiet_follow w k) hk.2
    · exact Or.inl ⟨k, List.mem_cons_self, hge⟩
  exact hfollow.bind fun _ => Spec.ret _ fun _ _ h => ⟨k, ⟨rfl, h.1⟩, h.2⟩

private theorem spec_fileFreeBlock_free (hfree : E.scope.free) {f : Nat} (hf : E.InScope f) (j : Nat) :
    Spec E.contract (fun _ => True) (fileFreeBlock f j) (fun _ _ => True) := by
  rcases Nat.lt_or_ge j NDIRECT with hj | hj
  · rw [fileFreeBlock_slot f hj]
    refine E.spec_inodeOf_bind hf fun k hk hs w hw _ => Or.inr ?_
    by_cases hz : w.cached.slot k j = 0
    · rw [final_ok (freeSlot_empty hw.1.ready (hw.1.lt hk) hj hz)]
      exact ⟨.refl, fun _ _ _ => trivial⟩
    · rw [final_ok (freeSlot_filled hw.1.ready (hw.1.lt hk) hj hz (hw.1.slot_lt hk hz))]
      exact ⟨.single (.release k j hs hfree hk hj hz), fun _ _ _ => trivial⟩
  · rw [fileFreeBlock_beyond f hj]
    exact E.spec_inodeOf_bind hf fun k hk hs => Spec.stop _

private theorem spec_fileFreeBlock_idle {f : Nat} (hf : E.InScope f) (j : Nat) {P : World → Prop}
    (hP : Calm P) (hz : ∀ w, P w → w.cached.slot (w.inInd f) j = 0) :
    Spec E.contract P (attempt (fileFreeBlock f j)) (fun _ => P) := by
  obtain ⟨g, hg, hgrow, hslot, hbeyond⟩ : ∃ g : Nat → M Unit,
      fileFreeBlock f j = inodeOf f >>= g ∧ (∀ a, Keeps Grows (g a)) ∧
        (j < NDIRECT → ∀ a, g a = freeSlot (a + offBlkInd + 2 * j)) ∧
          (NDIRECT ≤ j → ∀ a, g a = throw (.err .inval)) := by
    rcases Nat.lt_or_ge j NDIRECT with hj | hj
    · exact ⟨_, fileFreeBlock_slot f hj, fun _ => inferInstance, fun _ _ => rfl, by omega⟩
    · exact ⟨_, fileFreeBlock_beyond f hj, fun _ => inferInstance, by omega, fun _ _ => rfl⟩
  intro w hw hp
  have hin := E.spec_inodeOf_named hf hP w hw hp
  rw [hg]
  cases hr : inodeOf f w with
  | error e t =>
    have hq := hP w t (by simpa only [final_error hr] using (quiet_inodeOf f).final w) hp
    rw [final_error hr] at hin
    have hrun : (inodeOf f >>= g) w = .error e t := bind_error hr
    rw [final_attempt, final_error hrun]
    refine hin.imp_right fun hm => ⟨hm.1, fun r v he => ?_⟩
    cases e with
    | panic p =>
      rw [attempt_panic hrun] at he
      cases he
    | err e =>
      rw [attempt_err hrun] at he
      cases he
      exact hq
  | ok a t =>
    rw [final_ok hr] at hin
    have hrest : final (inodeOf f >>= g) w = final (g a) t := by simp only [final, bind_ok hr]
    rcases hin with hl | ⟨hm, hpost⟩
    · rw [final_attempt, hrest]
      exact Or.inl (E.contract.lost_grows ((hgrow a).final t) hl)
    · obtain ⟨k, ⟨rfl, hk, -⟩, hin, hp'⟩ := hpost a t hr
      have hsane := (E.contract.moves_inv hm hw).1
      have hrun : ∃ r, attempt (inodeOf f >>= g) w = .ok r t := by
        rcases Nat.lt_or_ge j NDIRECT with hj | hj
        · have hz' := hz t hp'
          rw [hin] at hz'
          refine ⟨.ok (), attempt_ok ((bind_ok hr).trans ?_)⟩
          rw [hslot hj]
          exact freeSlot_empty hsane.ready (hsane.lt hk) hj hz'
        · refine ⟨.error .inval, attempt_err ((bind_ok hr).trans ?_)⟩
          rw [hbeyond hj]
          rfl
      obtain ⟨r, hrun⟩ := hrun
      rw [final_ok hrun, hrun]
      refine Or.inr ⟨hm, fun b v he => ?_⟩
      cases he
      exact hp'

private theorem spec_fileTruncateBlocks_free (hfree : E.scope.free) {f : Nat} (hf : E.InScope f)
    (newsize : Int) :
    Spec E.contract (fun _ => True) (fileTruncateBlocks f newsize) (fun _ _ => True) := by
  refine E.spec_inodeOf_bind hf fun k _ _ => ?_
  refine ((E.spec_load16 _).post fun _ _ _ _ => trivial).bind fun size => Spec.forM _ _ fun j _ => ?_
  exact (E.spec_attempt (E.spec_fileFreeBlock_free hfree hf j)).bind fun _ =>
    Spec.ret _ fun _ _ _ => trivial

private theorem spec_fileTruncateBlocks_idle {f : Nat} (hf : E.InScope f) (newsize : Int) :
    Spec E.contract (fun w => newsize < ((w.cached.inode (w.inInd f)).size : Int) ∧
      Idle f newsize w) (fileTruncateBlocks f newsize) (fun _ _ => True) := by
  have hcalm : Calm fun w => newsize < ((w.cached.inode (w.inInd f)).size : Int) ∧
      Idle f newsize w := by
    intro w v h hp
    have hk : v.inInd f = w.inInd f := h.cell _
    refine ⟨?_, calm_idle f newsize w v h hp.2⟩
    rw [hk, h.cached]
    exact hp.1
  refine (E.spec_inodeOf_named hf hcalm).bind fun a => Spec.unpack fun k => Spec.assume ?_
  rintro ⟨rfl, hk, -⟩
  -- the inode, its size and the empty range are named, so that the loop can carry them
  have hsize : Spec E.contract (fun w => w.inInd f = k ∧
      newsize < ((w.cached.inode (w.inInd f)).size : Int) ∧ Idle f newsize w)
      (load16 (inodeVa k + offSize)) (fun size w => w.inInd f = k ∧
        ∀ j, nblocks newsize ≤ j → j < nblocks size → w.cached.slot k j = 0) := by
    refine Spec.exact fun w hw h => ⟨load16_size hw.1.ready (hw.1.lt hk), .refl, h.1, ?_⟩
    have hempty := h.2.2 h.2.1
    rwa [h.1] at hempty
  refine hsize.bind fun size => ?_
  have hrange : Calm fun w => w.inInd f = k ∧
      ∀ j, nblocks newsize ≤ j → j < nblocks size → w.cached.slot k j = 0 := by
    intro w v h hp
    refine ⟨(h.cell _).trans hp.1, ?_⟩
    rw [h.cached]
    exact hp.2
  refine Spec.post (Spec.forM _ _ fun j hj => ?_) fun _ _ _ _ => trivial
  rw [List.mem_range'_1] at hj
  refine (E.spec_fileFreeBlock_idle hf j hrange fun w h => ?_).bind fun _ =>
    Spec.ret _ fun _ _ h => h
  rw [h.1]
  exact h.2 j hj.1 (by omega)

/-- Setting the size frees blocks only where that is in scope or nothing is there to free; and it
returns only for an entry in the disk map. -/
theorem spec_fileSetSize {f : Nat} (hf : E.InScope f) (newsize : Int) :
    Spec E.contract (fun w => E.scope.free ∨ Idle f newsize w) (fileSetSize f newsize)
      (fun _ _ => DISKMAP ≤ f) := by
  have hcalm : Calm fun w => E.scope.free ∨ Idle f newsize w :=
    fun w v h hp => hp.imp_right (calm_idle f newsize w v h)
  refine (E.spec_inodeOf_named hf hcalm).bind fun a => Spec.unpack fun k => Spec.assume ?_
  rintro ⟨rfl, hk, hs⟩
  have hsize : Spec E.contract (fun w => w.inInd f = k ∧ (E.scope.free ∨ Idle f newsize w))
      (load16 (inodeVa k + offSize)) (fun size w => size = (w.cached.inode (w.inInd f)).size ∧
        (E.scope.free ∨ Idle f newsize w)) :=
    Spec.exact fun w hw h => ⟨load16_size hw.1.ready (hw.1.lt hk), .refl, by rw [h.1], h.2⟩
  refine hsize.bind fun size => ?_
  have hcut : Spec E.contract (fun w => size = (w.cached.inode (w.inInd f)).size ∧
      (E.scope.free ∨ Idle f newsize w))
      (onlyIf (newsize < (size : Int)) (fileTruncateBlocks f newsize)) (fun _ _ => True) := by
    refine Spec.ite (fun hlt => ?_) fun _ => Spec.ret _ fun _ _ _ => trivial
    by_cases hfree : E.scope.free
    · exact (E.spec_fileTruncateBlocks_free hfree hf newsize).pre fun _ _ _ => trivial
    · refine (E.spec_fileTruncateBlocks_idle hf newsize).pre fun w _ h => ?_
      exact ⟨h.1 ▸ hlt, h.2.resolve_left hfree⟩
  refine hcut.bind fun _ => (E.spec_storeSize hk hs _).bind fun _ => ?_
  refine Spec.ite (fun _ => Spec.stop _) fun h => ?_
  refine Spec.change fun w _ _ => Or.inr ⟨.single (.flush _ ?_), by omega⟩
  simp only [DISKMAP, superPg, PGSIZE] at *
  omega

private theorem spec_load16_any (a : Nat) :
    Spec E.contract (fun _ => True) (load16 a) (fun _ _ => True) :=
  (E.spec_load16 a).post fun _ _ _ _ => trivial

private theorem spec_flushSlot (inode i : Nat) :
    Spec E.contract (fun _ => True) (flushSlot inode i) (fun _ _ => True) := by
  refine Spec.ite (fun _ => ?_) fun _ => Spec.ret _ fun _ _ _ => trivial
  refine (E.spec_load16_any _).bind fun b => ?_
  refine Spec.ite (fun _ => Spec.ret _ fun _ _ _ => trivial) fun _ => ?_
  exact ((E.spec_diskaddr b).post fun _ _ _ _ => trivial).bind fun blk => E.spec_flushBlock blk

theorem spec_fileFlush {f : Nat} (hf : E.InScope f) :
    Spec E.contract (fun _ => True) (fileFlush f) (fun _ _ => True) := by
  refine E.spec_inodeOf_bind hf fun k _ _ => (E.spec_load16_any _).bind fun size => ?_
  refine (Spec.forM _ _ fun i _ => E.spec_flushSlot _ i).bind fun _ => ?_
  exact (E.spec_flushBlock _).bind fun _ => E.spec_flushBlock f

theorem spec_fsSync : Spec E.contract (fun _ => True) fsSync (fun _ _ => True) := by
  refine Spec.look.bind fun w => ?_
  refine Spec.pre (Spec.forM (C := E.contract) (P := fun _ => True) _ _ fun i _ => ?_)
    fun _ _ _ => trivial
  exact ((E.spec_diskaddr i).post fun _ _ _ _ => trivial).bind fun a => E.spec_flushBlock a

theorem spec_recordEntry (dir a n : Nat) :
    Spec E.contract (fun _ => True) (recordEntry dir a n) (fun _ => Recorded a n) := by
  refine Spec.change fun w _ _ => Or.inr ⟨.single (.log _), fun x hlo hhi => ?_⟩
  exact ⟨_, List.mem_cons_self, hlo, hhi⟩

private theorem spec_allocInode : Spec E.contract (fun _ => True) allocInode (fun k _ => k < E.N) := by
  intro w hw _
  refine Or.inr ?_
  cases hf : (List.range w.inNum).find? w.inodeIsFree with
  | none =>
    have hr : allocInode w = .error (.err .noInode) w := by
      rw [allocInode, bind_ok (get_run w), hf]
      rfl
    rw [final_error hr, hr]
    exact ⟨.refl, fun _ _ he => by cases he⟩
  | some k =>
    have hm := List.mem_of_find?_eq_some hf
    have ht := List.find?_some hf
    rw [List.mem_range, inNum_cached] at hm
    have hk : k < E.N := lt_of_lt_of_le hm hw.1.inNum
    have hr := allocInode_some hw.1.ready hf (hw.1.lt hk)
    rw [final_ok hr, hr]
    refine ⟨.single (.markInode k hk ((inodeIsFree_iff w (hw.1.lt hk)).mp ht).2), ?_⟩
    intro a t he
    cases he
    exact hk

private theorem spec_freeInode {k : Nat} (hk : k < E.N) :
    Spec E.contract (fun _ => True) (freeInode k) (fun _ _ => True) := by
  by_cases h0 : k = 0
  · rw [freeInode, if_pos h0]
    exact Spec.stop _
  · exact Spec.exact fun w hw _ =>
      ⟨freeInode_run hw.1.ready h0 (hw.1.lt hk), .single (.unmarkInode k hk), trivial⟩

section All

variable (hall : ∀ k, k < E.N → E.scope.inode k)
include hall

private theorem spec_storeEntry {e a n r : Nat} (f : Nat → UInt8) {b : Nat} (hb : 2 ≤ b)
    (hlo : blockVa b ≤ e) (hhi : e + r ≤ blockVa b + BLKSIZE) (ha : e ≤ a) (hn : a + n ≤ e + r) :
    Spec E.contract (Recorded e r) (store a n f) (fun _ => Recorded e r) := by
  refine Spec.conseq (E.spec_frame (E.lasting_recorded e r) (E.spec_store f hb (hlo.trans ha)
    (hn.trans hhi) (calm_recorded e r) (fun _ _ _ i _ hi _ => hall i hi) ?_))
    (fun _ _ h => ⟨h, h⟩) fun _ _ _ h => h.2
  intro w hr x hx hx'
  exact hr x (ha.trans hx) (by omega)

theorem spec_initDir {k : Nat} (hk : k < E.N) :
    Spec E.contract (fun _ => True) (initDir k) (fun _ _ => True) := by
  refine Spec.seq (fun r => by cases r <;> infer_instance)
    (E.spec_attempt (E.spec_fileGetBlock hk (hall k hk) 0)) fun r => ?_
  cases r with
  | error e =>
    exact ((E.spec_freeInode hk).pre fun _ _ _ => trivial).bind fun _ => Spec.stop _
  | ok blk =>
    intro w hw h
    obtain ⟨b, ⟨rfl, hb⟩, -⟩ := h blk rfl
    have hfit : blockVa b + 2 * DIRESIZE ≤ blockVa b + BLKSIZE :=
      Nat.add_le_add_left (by decide) _
    have hst (o n : Nat) (f : Nat → UInt8) (hn : o + n ≤ 2 * DIRESIZE) :=
      E.spec_storeEntry hall f hb le_rfl hfit (Nat.le_add_right (blockVa b) o)
        (by omega : blockVa b + o + n ≤ blockVa b + 2 * DIRESIZE)
    refine ((E.spec_recordEntry _ _ _).bind fun _ => (hst 0 3 _ (by decide)).bind fun _ =>
      (hst DIRESIZE 2 _ (by decide)).bind fun _ =>
      (hst (DIRESIZE + offInInd) 2 _ (by decide)).bind fun _ =>
      (hst offInInd 2 _ (by decide)).bind fun _ => ?_) w hw trivial
    exact (E.spec_storeSize hk (hall k hk) _).pre fun _ _ _ => trivial

private theorem spec_fillEntry {e k : Nat} (he : EntryAddr e) (hk : k < E.N) (dir : Nat)
    {name : List UInt8} (hlen : name.length < MAXNAMELEN) (type : Nat) :
    Spec E.contract (fun _ => True) (do
      recordEntry dir e DIRESIZE
      strcpy e name
      store16 (e + offInInd) k
      store16 (inodeVa k + offType) type
      fileFlush e
      pure e) (fun _ _ => True) := by
  obtain ⟨b, hb, hlo, hhi⟩ := he.bounds
  have hst (o n : Nat) (f : Nat → UInt8) (hn : o + n ≤ DIRESIZE) :=
    E.spec_storeEntry hall f hb hlo hhi (Nat.le_add_right e o)
      (by omega : e + o + n ≤ e + DIRESIZE)
  have hname : 0 + (name.length + 1) ≤ DIRESIZE := by
    simp only [MAXNAMELEN, DIRESIZE] at *
    omega
  refine (E.spec_recordEntry _ _ _).bind fun _ => (hst 0 _ _ hname).bind fun _ =>
    (hst offInInd 2 _ (by decide)).bind fun _ => ?_
  refine ((E.spec_storeType hk (hall k hk) _).pre fun _ _ _ => trivial).bind fun _ => ?_
  exact (E.spec_fileFlush (E.inScope_all hall e)).bind fun _ => Spec.ret _ fun _ _ _ => trivial

set_option synthInstance.maxSize 512 in
theorem spec_fileCreate (hN : 0 < E.N) (path : List UInt8) (type : Nat) :
    Spec E.contract (fun _ => True) (fileCreate path type) (fun _ _ => True) := by
  refine Spec.seq (fun r => ?_) (E.spec_walkPath hall hN path) fun r => Spec.given fun hr => ?_
  · cases r <;> (dsimp only; infer_instance)
  cases r with
  | found dir entry => exact Spec.stop _
  | missing dir name =>
    obtain ⟨⟨i, hi, rfl⟩, hlen⟩ := hr
    refine Spec.ite (fun _ => Spec.stop _) fun _ => ?_
    refine (E.spec_dirAllocEntry hi (hall i hi)).bind fun e => Spec.given fun he => ?_
    refine E.spec_allocInode.bind fun k => Spec.given fun hk => ?_
    have hinit : Spec E.contract (fun _ => True) (onlyIf (type = FTYPE_DIR) (initDir k))
        (fun _ _ => True) :=
      Spec.ite (fun _ => E.spec_initDir hall hk) fun _ => Spec.ret _ fun _ _ _ => trivial
    exact hinit.bind fun _ => E.spec_fillEntry hall he hk _ hlen type

set_option synthInstance.maxSize 512 in
/-- Removal; `file_set_size` never returns for the root, which has no entry. -/
theorem spec_fileRemove (hN : 0 < E.N) (path : List UInt8) :
    Spec E.contract (fun w => E.scope.free ∨ ∀ dir f v,
      walkPath path w = .ok (.found dir f) v → Idle f 0 v) (fileRemove path) (fun _ _ => True) := by
  have hwalk : Spec E.contract (fun w => E.scope.free ∨ ∀ dir f v,
      walkPath path w = .ok (.found dir f) v → Idle f 0 v) (walkPath path)
      (fun r v => E.WalkGood r ∧ (E.scope.free ∨ ∀ dir f, r = .found dir f → Idle f 0 v)) := by
    intro w hw hp
    refine (E.spec_walkPath hall hN path w hw trivial).imp_right fun hm => ⟨hm.1, fun r v hr => ?_⟩
    exact ⟨hm.2 r v hr, hp.imp_right fun h dir f he => h dir f v (he ▸ hr)⟩
  refine Spec.seq (fun r => ?_) hwalk fun r => Spec.assume fun hr => ?_
  · cases r <;> (dsimp only; infer_instance)
  cases r with
  | missing dir name => exact Spec.stop _
  | found dir f =>
    have hf := E.inScope_all hall f
    refine Spec.look.bind fun before => ?_
    have hset : Spec E.contract (fun s => before = s ∧ (E.scope.free ∨
        ∀ dir' f', Walk.found dir f = .found dir' f' → Idle f' 0 s)) (fileSetSize f 0)
        (fun _ _ => DISKMAP ≤ f) :=
      (E.spec_fileSetSize hf 0).pre fun w _ h => h.2.imp_right fun h => h dir f rfl
    refine hset.bind fun _ => Spec.given fun hmap => ?_
    obtain ⟨b, hb, hlo, hhi⟩ : ∃ b, 2 ≤ b ∧ blockVa b ≤ f ∧ f + DIRESIZE ≤ blockVa b + BLKSIZE := by
      rcases hr with ⟨-, rfl⟩ | ⟨-, he⟩
      · exact absurd hmap (by decide)
      · exact he.bounds
    have hrec : Spec E.contract (fun _ => True)
        (modify fun w => w.log (.entry (before.slotsOf dir) f 1) : M Unit)
        (fun _ => Recorded f 1) :=
      Spec.change fun w _ _ => Or.inr ⟨.single (.log _), fun x hlo hhi =>
        ⟨_, List.mem_cons_self, hlo, hhi⟩⟩
    have hfit : f + 1 ≤ blockVa b + BLKSIZE := le_trans (Nat.add_le_add_left (by decide) f) hhi
    refine hrec.bind fun _ => (E.spec_storeEntry hall _ hb hlo hfit le_rfl le_rfl).bind fun _ => ?_
    refine Spec.pre ?_ fun _ _ _ => trivial
    refine E.spec_inodeOf_bind hf fun k hk hs => (E.spec_storeSize hk hs _).bind fun _ => ?_
    exact (E.spec_flushBlock _).bind fun _ => E.spec_flushBlock _

end All

section Transfer

variable {i : Nat} (hi : i < E.N) (hs : E.scope.inode i)
include hi hs

theorem spec_readLoop (stop fuel : Nat) (pos : Int) (buf : Nat)
    (hbuf : Apart buf (toU32 (stop - pos))) :
    Spec E.contract (fun _ => True) (readLoop (inodeVa i) stop fuel pos buf) (fun _ _ => True) := by
  induction fuel generalizing pos buf with
  | zero => exact Spec.ret _ fun _ _ _ => trivial
  | succ fuel ih =>
    unfold readLoop
    refine Spec.ite (fun _ => ?_) fun _ => Spec.ret _ fun _ _ _ => trivial
    refine ((E.spec_fileGetBlock hi hs _).post fun _ _ _ _ => trivial).bind fun blk => ?_
    have hlog : Spec E.contract (fun _ => True) (modify fun w => w.log
        (.read (w.slotsOf (inodeVa i)) (inBlock blk pos) buf (chunk pos stop)) : M Unit)
        (fun _ _ => True) :=
      Spec.change fun w _ _ => Or.inr ⟨.single (.log _), trivial⟩
    have hle := chunk_le_rest pos stop
    have hmove : Spec E.contract (fun _ => True) (memmove buf (inBlock blk pos) (chunk pos stop))
        (fun _ _ => True) := by
      refine ((E.spec_touch _ _).post fun _ _ _ _ => trivial).bind fun _ =>
        (E.spec_touch _ _).bind fun _ => Spec.change fun w _ hp => Or.inr ⟨.single ?_, trivial⟩
      rw [← fill_present hp]
      refine .outside _ _ _ ?_
      unfold Apart at hbuf
      omega
    refine hlog.bind fun _ => hmove.bind fun _ => ih _ _ ?_
    have hrest : toU32 (stop - (pos + chunk pos stop)) = toU32 (stop - pos) - chunk pos stop := by
      rw [← toU32_sub hle]
      congr 1
      omega
    rw [hrest]
    unfold Apart at *
    omega

private theorem spec_memmove {j b dst n : Nat} (src : Nat) (hb : 2 ≤ b) (hlo : blockVa b ≤ dst)
    (hhi : dst + n ≤ blockVa b + BLKSIZE) :
    Spec E.contract (fun w => w.cached.slot i j = b ∧ Recorded dst n w) (memmove dst src n)
      (fun _ _ => True) := by
  have hcalm : Calm fun w => w.cached.slot i j = b ∧ Recorded dst n w := by
    intro w v h hp
    rw [h.cached]
    exact ⟨hp.1, calm_recorded dst n w v h hp.2⟩
  have htouch (a : Nat) := ((E.spec_touch a n).keep hcalm).pre fun w _ h => ⟨trivial, h⟩
  refine ((htouch src).post fun _ _ _ h => h.2).bind fun _ => (htouch dst).bind fun _ => ?_
  refine Spec.change fun w hw h => Or.inr ⟨.single ?_, trivial⟩
  refine .data b dst n _ hb hlo hhi h.1 (fun i' j' hi' he => ?_) h.2.2
  have hz : w.cached.slot i' j' ≠ 0 := by omega
  exact (hw.1.slot_inj hi' hi hz (he.trans h.2.1.symm)).1 ▸ hs

theorem spec_writeLoop (stop fuel : Nat) {pos : Int} (hpos : 0 ≤ pos) (buf : Nat) :
    Spec E.contract (fun _ => True) (writeLoop (inodeVa i) stop fuel pos buf) (fun _ _ => True) := by
  induction fuel generalizing pos buf with
  | zero => exact Spec.ret _ fun _ _ _ => trivial
  | succ fuel ih =>
    unfold writeLoop
    refine Spec.ite (fun _ => ?_) fun _ => Spec.ret _ fun _ _ _ => trivial
    refine (E.spec_fileGetBlock hi hs _).bind fun blk => Spec.unpack fun b => Spec.assume ?_
    rintro ⟨rfl, hb⟩
    have hlog : Spec E.contract (fun w => w.cached.slot i (toU16 (pos.tdiv BLKSIZE)) = b)
        (modify fun w => w.log (.write (w.slotsOf (inodeVa i)) (inBlock (blockVa b) pos) buf
          (chunk pos stop)) : M Unit)
        (fun _ w => w.cached.slot i (toU16 (pos.tdiv BLKSIZE)) = b ∧
          Recorded (inBlock (blockVa b) pos) (chunk pos stop) w) :=
      Spec.change fun w _ h => Or.inr ⟨.single (.log _), h, fun x hlo hhi =>
        ⟨_, List.mem_cons_self, hlo, hhi⟩⟩
    have hlo : blockVa b ≤ inBlock (blockVa b) pos := by
      rw [inBlock_nonneg _ hpos]
      exact Nat.le_add_right _ _
    have hhi : inBlock (blockVa b) pos + chunk pos stop ≤ blockVa b + BLKSIZE := by
      have hle := chunk_le_block hpos stop
      rw [inBlock_nonneg _ hpos]
      omega
    exact hlog.bind fun _ => (E.spec_memmove hi hs buf hb hlo hhi).bind fun _ =>
      ih (by omega) _

end Transfer

theorem spec_fileRead {f : Nat} (hf : E.InScope f) (buf count : Nat) (offset : Int)
    (hbuf : Apart buf count) :
    Spec E.contract (fun _ => True) (fileRead f buf count offset) (fun _ _ => True) := by
  refine E.spec_inodeOf_bind hf fun k hk hs => (E.spec_load16_any _).bind fun size => ?_
  refine Spec.ite (fun _ => Spec.ret _ fun _ _ _ => trivial) fun _ => ?_
  refine (E.spec_readLoop hk hs _ _ _ _ ?_).bind fun _ => Spec.ret _ fun _ _ _ => trivial
  have hc : min count (toU32 (size - offset)) < 4294967296 :=
    lt_of_le_of_lt (Nat.min_le_right _ _) (toU32_lt _)
  have hrest : toU32 (toU32 (offset + min count (toU32 (size - offset))) - offset) =
      min count (toU32 (size - offset)) := by
    generalize min count (toU32 (size - offset)) = c at *
    unfold toU32
    omega
  have hle : min count (toU32 (size - offset)) ≤ count := Nat.min_le_left _ _
  rw [hrest]
  unfold Apart at *
  omega

theorem spec_fileWrite {f : Nat} (hf : E.InScope f) (buf count : Nat) {offset : Int}
    (hpos : 0 ≤ offset) :
    Spec E.contract (fun w => E.scope.free ∨ Idle f (toS32 (toU32 (offset + count))) w)
      (fileWrite f buf count offset) (fun _ _ => True) := by
  have hcalm : Calm fun w => E.scope.free ∨ Idle f (toS32 (toU32 (offset + count))) w :=
    fun w v h hp => hp.imp_right (calm_idle _ _ w v h)
  refine (E.spec_inodeOf_named hf hcalm).bind fun a => Spec.unpack fun k => Spec.assume ?_
  rintro ⟨rfl, hk, hs⟩
  refine (((E.spec_load16 _).keep hcalm).pre fun _ _ h => ⟨trivial, h.2⟩).bind fun size => ?_
  have hext : Spec E.contract (fun w => size = w.cell (inodeVa k + offSize) ∧
      (E.scope.free ∨ Idle f (toS32 (toU32 (offset + count))) w))
      (onlyIf (size < toU32 (offset + count)) (fileSetSize f (toS32 (toU32 (offset + count)))))
      (fun _ _ => True) := by
    refine Spec.ite (fun _ => ?_) fun _ => Spec.ret _ fun _ _ _ => trivial
    exact (E.spec_fileSetSize hf _).conseq (fun _ _ h => h.2) fun _ _ _ _ => trivial
  refine hext.bind fun _ => (E.spec_writeLoop hk hs _ _ hpos buf).bind fun _ => ?_
  exact (E.spec_fileFlush hf).bind fun _ => Spec.ret _ fun _ _ _ => trivial

end Setting

end DamnOS.FileSystem
