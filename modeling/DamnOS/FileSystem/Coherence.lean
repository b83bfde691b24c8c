import DamnOS.FileSystem.Runs

/-!
# Clean pages

A page that is mapped and clean holds what its block holds on the disk.  The super block is clean
between any two calls, because each change of a bitmap is flushed on the spot; so `fs_sync` may
start at block 1.
-/

namespace DamnOS.FileSystem

open DamnOS.Framework

def endPg : Nat := 135170

/-- A mapped clean page of the disk map equals its block. -/
def Coherent (w : World) : Prop := ∀ p, superPg ≤ p → p < endPg → w.present p = true →
  w.dirty p = false → ∀ o < BLKSIZE, w.mem (p * PGSIZE + o) = w.disk (p - superPg) o

/-- Between any two stores: clean pages are as on the disk, and the super block is clean. -/
structure Durable (w : World) : Prop where
  coherent : Coherent w
  mapped : w.present superPg = true
  super_clean : w.dirty superPg = false

private theorem page_of {p o : Nat} (ho : o < BLKSIZE) : (p * PGSIZE + o) / PGSIZE = p := by
  simp only [PGSIZE, BLKSIZE] at *
  omega

theorem coherent_load {w : World} (h : Coherent w) (p : Nat) : Coherent (w.load p) := by
  intro q hlo hhi hp hd o ho
  by_cases hq : q = p
  · subst hq
    have hmod : (q * PGSIZE + o) % PGSIZE = o := by
      simp only [PGSIZE, BLKSIZE] at *
      omega
    simp only [World.load, page_of ho, hmod, if_true]
  · have hp' : w.present q = true := by simpa [World.load, hq] using hp
    have hd' : w.dirty q = false := by simpa [World.load, hq] using hd
    simp only [World.load, page_of ho, if_neg hq]
    exact h q hlo hhi hp' hd' o ho

private theorem coherent_flush {w : World} (h : Coherent w) {p : Nat} (hp : superPg ≤ p) :
    Coherent (w.flush p) := by
  intro q hlo hhi hpq hd o ho
  unfold World.flush at hpq hd ⊢
  split_ifs at hpq hd ⊢ with hc
  · by_cases hq : q = p
    · subst hq
      simp
    · have hne : q - superPg ≠ p - superPg := by omega
      simp only [Function.update_of_ne hq] at hd
      simp only [Function.update_of_ne hne]
      exact h q hlo hhi hpq hd o ho
  · exact h q hlo hhi hpq hd o ho

private theorem dirty_write_off (w : World) {a n p : Nat} (f : Nat → UInt8)
    (h : a + n ≤ p * PGSIZE ∨ (p + 1) * PGSIZE ≤ a) : (w.write a n f).dirty p = w.dirty p := by
  have hc : ¬(0 < n ∧ a / PGSIZE ≤ p ∧ p ≤ (a + n - 1) / PGSIZE) := by
    simp only [PGSIZE] at *
    omega
  simp [World.write, hc]

private theorem coherent_write {w : World} (h : Coherent w) (a n : Nat) (f : Nat → UInt8) :
    Coherent (w.write a n f) := by
  intro p hlo hhi hp hd o ho
  have hc : ¬(0 < n ∧ a / PGSIZE ≤ p ∧ p ≤ (a + n - 1) / PGSIZE) := by
    intro hc
    simp [World.write, hc] at hd
  have hd' : w.dirty p = false := (Bool.or_eq_false_iff.mp hd).2
  have hout : splice w.mem a n f (p * PGSIZE + o) = w.mem (p * PGSIZE + o) := by
    refine splice_outside _ _ ?_
    simp only [PGSIZE, BLKSIZE] at *
    omega
  exact hout.trans (h p hlo hhi hp hd' o ho)

private theorem coherent_fill {w : World} (h : Coherent w) {a n : Nat} (f : Nat → UInt8)
    (ha : Apart a n) : Coherent (w.fill a n f) := by
  intro p hlo hhi hp hd o ho
  have hc : ¬(0 < n ∧ a / PGSIZE ≤ p ∧ p ≤ (a + n - 1) / PGSIZE) := by
    simp only [Apart, PGSIZE, DISKMAP, DISKSIZE, superPg, endPg] at *
    omega
  have hp' : w.present p = true := by simpa [World.fill, hc] using hp
  have hd' : w.dirty p = false := (Bool.or_eq_false_iff.mp hd).2
  have hout : splice w.mem a n f (p * PGSIZE + o) = w.mem (p * PGSIZE + o) := by
    refine splice_outside _ _ ?_
    simp only [PGSIZE, BLKSIZE] at *
    omega
  exact hout.trans (h p hlo hhi hp' hd' o ho)

@[simp] theorem dirty_flush_self (w : World) {p : Nat} (h : w.present p = true ∨ w.dirty p = false) :
    (w.flush p).dirty p = false := by
  unfold World.flush
  split_ifs with hc
  · simp
  · simp only [Bool.and_eq_true] at hc
    cases hd : w.dirty p with
    | false => rfl
    | true =>
      rcases h with h | h
      · exact absurd ⟨h, hd⟩ hc
      · rw [hd] at h
        cases h

theorem dirty_flush_le (w : World) (p : Nat) {q : Nat} (h : w.dirty q = false) :
    (w.flush p).dirty q = false := by
  unfold World.flush
  split_ifs
  · by_cases hq : q = p
    · simp [hq]
    · simpa [hq] using h
  · exact h

namespace Durable

variable {w : World}

theorem load (h : Durable w) (p : Nat) : Durable (w.load p) := by
  refine ⟨coherent_load h.coherent p, present_load w p _ h.mapped, ?_⟩
  by_cases hp : superPg = p
  · simp [World.load, hp]
  · simpa [World.load, hp] using h.super_clean

theorem flush (h : Durable w) {p : Nat} (hp : superPg ≤ p) : Durable (w.flush p) :=
  ⟨coherent_flush h.coherent hp, by rw [present_flush]; exact h.mapped,
    dirty_flush_le w p h.super_clean⟩

theorem write (h : Durable w) {a n : Nat} (f : Nat → UInt8) (ha : a + n ≤ DISKMAP ∨ blockVa 1 ≤ a) :
    Durable (w.write a n f) := by
  refine ⟨coherent_write h.coherent a n f, h.mapped, ?_⟩
  rw [dirty_write_off]
  · exact h.super_clean
  · simp only [superPg, PGSIZE, DISKMAP, blockVa, BLKSIZE] at *
    omega

theorem fill (h : Durable w) {a n : Nat} (f : Nat → UInt8) (ha : Apart a n) :
    Durable (w.fill a n f) := by
  refine ⟨coherent_fill h.coherent f ha, present_fill w a n f _ h.mapped, ?_⟩
  have hd := dirty_write_off w f (a := a) (n := n) (p := superPg) (by
    simp only [Apart, superPg, PGSIZE, DISKMAP, DISKSIZE] at *
    omega)
  exact hd.trans h.super_clean

theorem bitmap (h : Durable w) (a n : Nat) (f : Nat → UInt8) :
    Durable ((w.write a n f).flush superPg) :=
  ⟨coherent_flush (coherent_write h.coherent a n f) le_rfl, by rw [present_flush]; exact h.mapped,
    dirty_flush_self _ (Or.inl h.mapped)⟩

end Durable

/-- The two ends of a run that keeps the super block clean. -/
def StaysDurable (w v : World) : Prop := Durable w → Durable v

instance : IsPreorder World StaysDurable where
  refl _ h := h
  trans _ _ _ h k hw := k (h hw)

instance durable_touchPage (p : Nat) : Keeps StaysDurable (touchPage p) where
  final w hw := by
    rcases touchPage_cases w p with ⟨e, hr⟩ | ⟨hp, hr⟩ | ⟨hp, hlo, hr | ⟨e, hr⟩⟩
    · rwa [final_error hr]
    · rwa [final_ok hr]
    · rw [final_ok hr]
      exact hw.load p
    · rw [final_error hr]
      exact hw.load p

instance durable_touch (a n : Nat) : Keeps StaysDurable (touch a n) := by
  unfold touch
  infer_instance

instance durable_load16 (a : Nat) : Keeps StaysDurable (load16 a) := by
  unfold load16
  infer_instance

instance durable_flushBlock (a : Nat) : Keeps StaysDurable (flushBlock a) where
  final w hw := by
    unfold flushBlock
    split_ifs with h
    · exact hw
    · refine hw.flush ?_
      simp only [DISKMAP, superPg, PGSIZE] at *
      omega

instance durable_diskaddr (b : Nat) : Keeps StaysDurable (diskaddr b) := by
  unfold diskaddr
  infer_instance

instance durable_following (k : Nat) : Keeps StaysDurable (modify fun w => w.follow k : M Unit) :=
  Keeps.change fun _ h => ⟨h.coherent, h.mapped, h.super_clean⟩

instance durable_inodeOf (f : Nat) : Keeps StaysDurable (inodeOf f) := by
  unfold inodeOf
  infer_instance

instance durable_flushSlot (inode i : Nat) : Keeps StaysDurable (flushSlot inode i) := by
  unfold flushSlot
  infer_instance

instance durable_fileFlush (f : Nat) : Keeps StaysDurable (fileFlush f) := by
  unfold fileFlush
  infer_instance

instance durable_fsSync : Keeps StaysDurable fsSync := by
  unfold fsSync
  infer_instance

/-- Storing a word of a bitmap and flushing the super block. -/
private instance durable_bitmap (a v : Nat) :
    Keeps StaysDurable (store32 a v >>= fun _ => flushBlock super : M Unit) where
  final w hw := by
    have ht := (durable_touch a 4).final w hw
    cases hr : touch a 4 w with
    | error e t =>
      rw [final_error hr] at ht
      have hs : store32 a v w = .error e t := bind_error hr
      rwa [final_error (bind_error hs)]
    | ok u t =>
      rw [final_ok hr] at ht
      have hs : store32 a v w = .ok () (t.write a 4 (leByte v)) := bind_ok hr
      rw [final_ok ((bind_ok hs).trans (flushBlock_super _))]
      exact ht.bitmap a 4 (leByte v)

instance durable_freeBlock (b : Nat) : Keeps StaysDurable (freeBlock b) := by
  unfold freeBlock
  infer_instance

instance durable_freeInode (k : Nat) : Keeps StaysDurable (freeInode k) := by
  unfold freeInode
  infer_instance

private theorem bitmap_assoc (a v b : Nat) :
    (store32 a v >>= fun _ => flushBlock super >>= fun _ => pure b : M Nat) =
      (store32 a v >>= fun _ => flushBlock super) >>= fun _ => pure b := by
  rw [bind_assoc]

instance durable_allocBlock : Keeps StaysDurable allocBlock := by
  refine Keeps.andThen fun w => ?_
  cases (List.range w.blkNum).find? w.blockIsFree with
  | none => exact Keeps.stop _
  | some b =>
    dsimp only
    rw [bitmap_assoc]
    infer_instance

instance durable_allocInode : Keeps StaysDurable allocInode := by
  refine Keeps.andThen fun w => ?_
  cases (List.range w.inNum).find? w.inodeIsFree with
  | none => exact Keeps.stop _
  | some k =>
    dsimp only
    rw [bitmap_assoc]
    infer_instance

instance durable_onlyIf {c : Prop} [Decidable c] {m : M Unit} [Keeps StaysDurable m] :
    Keeps StaysDurable (onlyIf c m) := by
  unfold onlyIf
  infer_instance

instance inodeVa_behind (k : Nat) : Fact (blockVa 1 ≤ inodeVa k) := ⟨Nat.le_add_right _ _⟩

instance offset_behind {a o : Nat} [h : Fact (blockVa 1 ≤ a)] : Fact (blockVa 1 ≤ a + o) :=
  ⟨h.out.trans (Nat.le_add_right _ _)⟩

instance durable_store {a n : Nat} {f : Nat → UInt8} [ha : Fact (blockVa 1 ≤ a)] :
    Keeps StaysDurable (store a n f) where
  final w hw := by
    have ht := (durable_touch a n).final w hw
    cases hr : touch a n w with
    | error e t =>
      rw [final_error hr] at ht
      have hs : store a n f w = .error e t := bind_error hr
      rwa [final_error hs]
    | ok u t =>
      rw [final_ok hr] at ht
      have hs : store a n f w = .ok () (t.write a n f) := bind_ok hr
      rw [final_ok hs]
      exact ht.write f (Or.inr ha.out)

instance durable_store16 {a v : Nat} [Fact (blockVa 1 ≤ a)] : Keeps StaysDurable (store16 a v) := by
  unfold store16
  infer_instance

section Inode

variable {inode : Nat} [Fact (blockVa 1 ≤ inode)]

instance durable_fillSlot (slot : Nat) [Fact (blockVa 1 ≤ slot)] :
    Keeps StaysDurable (fillSlot inode slot) := by
  unfold fillSlot
  infer_instance

instance durable_fileGetBlock (j : Nat) : Keeps StaysDurable (fileGetBlock inode j) := by
  unfold fileGetBlock fileBlockWalk
  split_ifs
  · exact inferInstanceAs (Keeps StaysDurable (do
      let b ← load16 (inode + offBlkInd + 2 * j)
      onlyIf (b = 0) (fillSlot inode (inode + offBlkInd + 2 * j))
      let b ← load16 (inode + offBlkInd + 2 * j)
      let blk ← diskaddr b
      flushBlock inode
      pure blk))
  · exact Keeps.stop _

instance durable_dirScan (test : World → Nat → Bool) (i n : Nat) :
    Keeps StaysDurable (dirScan inode test i n) := by
  induction n generalizing i with
  | zero => exact Keeps.ret _
  | succ n ih =>
    unfold dirScan
    refine Keeps.andThen fun blk => Keeps.andThen fun _ => Keeps.andThen fun w => ?_
    cases (List.range BLKFILES).find? (fun j => test w (blk + DIRESIZE * j)) with
    | none => exact ih (i + 1)
    | some j => exact Keeps.ret _

instance durable_dirLookup (name : List UInt8) : Keeps StaysDurable (dirLookup inode name) := by
  unfold dirLookup
  infer_instance

instance durable_bumpSize : Keeps StaysDurable (bumpSize inode) := by
  unfold bumpSize
  infer_instance

instance durable_dirAllocEntry : Keeps StaysDurable (dirAllocEntry inode) := by
  refine Keeps.andThen fun nblock => Keeps.andThen fun found => ?_
  cases found with
  | some e => infer_instance
  | none => infer_instance

end Inode

/-- `n` bytes at `addr` lie in one of the listed blocks. -/
def InOwn (slots : List Nat) (addr n : Nat) : Prop :=
  ∃ b ∈ slots, b ≠ 0 ∧ blockVa b ≤ addr ∧ addr + n ≤ blockVa b + BLKSIZE

/-- The access stays inside the blocks of its file, and its buffer outside the disk map. -/
def Access.Inside : Access → Prop
  | .read slots addr buf len => InOwn slots addr len ∧ Apart buf len
  | .write slots addr _ len => InOwn slots addr len
  | .entry slots addr len => InOwn slots addr len

instance (slots : List Nat) (addr n : Nat) : Decidable (InOwn slots addr n) :=
  inferInstanceAs (Decidable (∃ b ∈ slots, _))

instance (x : Access) : Decidable x.Inside :=
  match x with
  | .read _ _ _ _ => inferInstanceAs (Decidable (_ ∧ _))
  | .write slots addr _ len => inferInstanceAs (Decidable (InOwn slots addr len))
  | .entry slots addr len => inferInstanceAs (Decidable (InOwn slots addr len))

theorem InOwn.behind {slots : List Nat} {addr n : Nat} (h : InOwn slots addr n) :
    blockVa 1 ≤ addr := by
  obtain ⟨b, -, hb, hlo, -⟩ := h
  exact (blockVa_mono (Nat.one_le_iff_ne_zero.mpr hb)).trans hlo

/-- Runs keep the super block clean as long as all recorded accesses stay inside. -/
abbrev durability : Contract World where
  Grows := Grows
  Lost w := ∃ x ∈ w.accesses, ¬x.Inside
  Moves := StaysDurable
  Inv := Durable
  lost_grows h hl := by
    obtain ⟨x, hx, hn⟩ := hl
    exact ⟨x, h.accesses.subset hx, hn⟩
  moves_refl _ h := h
  moves_trans h k hw := k (h hw)
  moves_inv h hi := h hi

namespace Durable

theorem spec {α : Type} {m : M α} [h : Keeps StaysDurable m] {P : World → Prop} :
    Spec durability P m (fun _ _ => True) :=
  fun w _ _ => Or.inr ⟨h.final w, fun _ _ _ => trivial⟩

theorem spec_inodeOf (f : Nat) :
    Spec durability (fun _ => True) (inodeOf f) (fun a _ => ∃ k, a = inodeVa k) :=
  Durable.spec.bind fun k => Durable.spec.bind fun _ => Spec.ret _ fun _ _ _ => ⟨k, rfl⟩

theorem spec_inodeOf_bind {α : Type} {f : Nat} {g : Nat → M α} [∀ a, Keeps Grows (g a)]
    {P : World → Prop} {Q : α → World → Prop}
    (h : ∀ k, Spec durability (fun _ => True) (g (inodeVa k)) Q) :
    Spec durability P (inodeOf f >>= g) Q := by
  refine ((spec_inodeOf f).pre fun _ _ _ => trivial).bind fun a => Spec.given ?_
  rintro ⟨k, rfl⟩
  exact h k

theorem spec_store {slots : List Nat} {addr len : Nat} {a n : Nat} (f : Nat → UInt8)
    (ha : addr ≤ a) :
    Spec durability (fun w => .entry slots addr len ∈ w.accesses) (store a n f)
      (fun _ w => .entry slots addr len ∈ w.accesses) := by
  intro w hw hmem
  have hgrow := (keeps_store a n f).final w
  have hmem' := hgrow.accesses.subset hmem
  by_cases hin : InOwn slots addr len
  · have : Fact (blockVa 1 ≤ a) := ⟨hin.behind.trans ha⟩
    refine Or.inr ⟨durable_store.final w, fun u t hr => ?_⟩
    rwa [final_ok hr] at hmem'
  · exact Or.inl ⟨_, hmem', hin⟩

end Durable

end DamnOS.FileSystem
