import DamnOS.FileSystem.Blocks

/-!
# Block ownership

Every block number in an inode slot is a marked data block, and no block sits in two slots.  The
file system changes its state in a few ways only; each of them keeps the ownership of blocks.
-/

namespace DamnOS.FileSystem

open DamnOS.Framework

/-- Ownership of blocks by the first `N` inodes, on decoded metadata. -/
structure Meta.Owned (N : Nat) (m : Meta) : Prop where
  blkNum_le : m.blkNum ≤ MAXBLKNUM
  zero : m.blkOcp 0 = true
  one : m.blkOcp 1 = true
  valid : ∀ i j, i < N → m.slot i j ≠ 0 →
    2 ≤ m.slot i j ∧ m.slot i j < m.blkNum ∧ m.blkOcp (m.slot i j) = true
  inj : ∀ i j i' j', i < N → i' < N → m.slot i j ≠ 0 →
    m.slot i j = m.slot i' j' → i = i' ∧ j = j'

section MetaChanges

variable {N : Nat} {m : Meta}

theorem slot_setSlot (m : Meta) (i j v i' j' : Nat) :
    (m.setSlot i j v).slot i' j' = if i' = i ∧ j' = j then v else m.slot i' j' := by
  by_cases hi : i' = i
  · subst hi
    by_cases hj : j' = j
    · subst hj
      simp [Meta.slot, Meta.setSlot, Meta.setInode]
    · simp [Meta.slot, Meta.setSlot, Meta.setInode, hj]
  · simp [Meta.slot, Meta.setSlot, Meta.setInode, hi]

@[simp] theorem slot_setInOcp (m : Meta) (k : Nat) (v : Bool) : (m.setInOcp k v).slot = m.slot := rfl

private theorem slot_setInode {m : Meta} {i : Nat} {x : Inode} (h : x.blkInd = (m.inode i).blkInd) :
    (m.setInode i x).slot = m.slot := by
  funext i' j'
  by_cases hi : i' = i
  · subst hi
    simp [Meta.slot, Meta.setInode, h]
  · simp [Meta.slot, Meta.setInode, hi]

@[simp] theorem slot_setType (m : Meta) (i v : Nat) : (m.setType i v).slot = m.slot :=
  slot_setInode rfl

@[simp] theorem slot_setSize (m : Meta) (i v : Nat) : (m.setSize i v).slot = m.slot :=
  slot_setInode rfl

@[simp] theorem slot_setBlkUsed (m : Meta) (i v : Nat) : (m.setBlkUsed i v).slot = m.slot :=
  slot_setInode rfl

/-- Ownership reads the slots, the block bitmap and the number of blocks. -/
theorem Meta.Owned.congr {n : Meta} (h : m.Owned N) (hb : n.blkNum = m.blkNum)
    (ho : n.blkOcp = m.blkOcp) (hs : n.slot = m.slot) : n.Owned N where
  blkNum_le := hb ▸ h.blkNum_le
  zero := ho ▸ h.zero
  one := ho ▸ h.one
  valid i j := by
    rw [hb, ho, hs]
    exact h.valid i j
  inj i j i' j' := by
    rw [hs]
    exact h.inj i j i' j'

theorem Meta.Owned.two_le (h : m.Owned N) {b : Nat} (hfree : m.blkOcp b = false) : 2 ≤ b := by
  rcases Nat.lt_or_ge b 2 with hlt | hge
  · have hb01 : b = 0 ∨ b = 1 := by omega
    rcases hb01 with rfl | rfl
    · rw [h.zero] at hfree
      cases hfree
    · rw [h.one] at hfree
      cases hfree
  · exact hge

theorem Meta.Owned.acquire (h : m.Owned N) {i j b : Nat} (hfree : m.blkOcp b = false)
    (hb : b < m.blkNum) : ((m.setBlkOcp b true).setSlot i j b).Owned N := by
  have hfresh : ∀ i' j', i' < N → m.slot i' j' ≠ b := by
    intro i' j' hi' he
    by_cases hz : m.slot i' j' = 0
    · rw [← he, hz, h.zero] at hfree
      cases hfree
    · have hv := (h.valid i' j' hi' hz).2.2
      rw [he, hfree] at hv
      cases hv
  have h2 := h.two_le hfree
  constructor
  · exact h.blkNum_le
  · simpa [Meta.setSlot, Meta.setInode, Meta.setBlkOcp, Function.update_apply] using
      Or.inr h.zero
  · simpa [Meta.setSlot, Meta.setInode, Meta.setBlkOcp, Function.update_apply] using
      Or.inr h.one
  · intro i' j' hi' hz
    rw [slot_setSlot] at hz ⊢
    split_ifs at hz ⊢ with hc
    · exact ⟨h2, hb, by simp [Meta.setSlot, Meta.setInode, Meta.setBlkOcp]⟩
    · have hv := h.valid i' j' hi' hz
      refine ⟨hv.1, hv.2.1, ?_⟩
      change Function.update m.blkOcp b true (m.slot i' j') = true
      rw [Function.update_apply]
      split_ifs
      · rfl
      · exact hv.2.2
  · intro i1 j1 i2 j2 h1 h2' hz he
    rw [slot_setSlot] at hz
    rw [slot_setSlot, slot_setSlot] at he
    split_ifs at hz he with hc hd hd
    · exact ⟨hc.1.trans hd.1.symm, hc.2.trans hd.2.symm⟩
    · exact absurd he.symm (hfresh i2 j2 h2')
    · exact absurd he (hfresh i1 j1 h1)
    · exact h.inj i1 j1 i2 j2 h1 h2' hz he

theorem Meta.Owned.release (h : m.Owned N) {i j : Nat} (hi : i < N) (hz : m.slot i j ≠ 0) :
    ((m.setBlkOcp (m.slot i j) false).setSlot i j 0).Owned N := by
  have h2 := (h.valid i j hi hz).1
  have hother : ∀ i' j', i' < N → m.slot i' j' = m.slot i j → i' = i ∧ j' = j := by
    intro i' j' hi' he
    exact h.inj i' j' i j hi' hi (he ▸ hz) he
  constructor
  · exact h.blkNum_le
  · have : (0 : Nat) ≠ m.slot i j := by omega
    simpa [Meta.setSlot, Meta.setInode, Meta.setBlkOcp, Function.update_of_ne this] using h.zero
  · have : (1 : Nat) ≠ m.slot i j := by omega
    simpa [Meta.setSlot, Meta.setInode, Meta.setBlkOcp, Function.update_of_ne this] using h.one
  · intro i' j' hi' hz'
    rw [slot_setSlot] at hz' ⊢
    split_ifs at hz' ⊢ with hc
    · exact absurd rfl hz'
    · have hv := h.valid i' j' hi' hz'
      refine ⟨hv.1, hv.2.1, ?_⟩
      have hne : m.slot i' j' ≠ m.slot i j := fun he => hc (hother i' j' hi' he)
      change Function.update m.blkOcp (m.slot i j) false (m.slot i' j') = true
      rw [Function.update_of_ne hne]
      exact hv.2.2
  · intro i1 j1 i2 j2 h1 h2' hz' he
    rw [slot_setSlot] at hz'
    rw [slot_setSlot, slot_setSlot] at he
    split_ifs at hz' he with hc hd hd
    · exact absurd rfl hz'
    · exact absurd rfl hz'
    · exact absurd he hz'
    · exact h.inj i1 j1 i2 j2 h1 h2' hz' he

end MetaChanges

/-- A state the operations run in: the metadata pages are mapped, the inode table fits its block,
and the blocks of its first `N` inodes, which include those in use, are owned properly. -/
structure Sane (N : Nat) (w : World) : Prop where
  ready : Ready w
  inNum : w.cached.inNum ≤ N
  small : N ≤ MAXINODENUM
  pos : 0 < N
  owned : w.cached.Owned N

namespace Sane

variable {N : Nat} {w : World}

theorem lt (h : Sane N w) {i : Nat} (hi : i < N) : i < MAXINODENUM := lt_of_lt_of_le hi h.small

theorem of_cached (h : Sane N w) {v : World} (hr : Ready v) (hc : v.cached = w.cached) : Sane N v :=
  ⟨hr, hc ▸ h.inNum, h.small, h.pos, hc ▸ h.owned⟩

theorem slot_valid (h : Sane N w) {i j : Nat} (hi : i < N) (hz : w.cached.slot i j ≠ 0) :
    2 ≤ w.cached.slot i j ∧ w.cached.slot i j < w.cached.blkNum ∧
      w.cached.blkOcp (w.cached.slot i j) = true :=
  h.owned.valid i j hi hz

theorem slot_inj (h : Sane N w) {i j i' j' : Nat} (hi : i < N) (hi' : i' < N)
    (hz : w.cached.slot i j ≠ 0) (he : w.cached.slot i j = w.cached.slot i' j') :
    i = i' ∧ j = j' :=
  h.owned.inj i j i' j' hi hi' hz he

/-- The block the allocator finds is a data block that nobody owns. -/
theorem firstFree (h : Sane N w) {b : Nat} (hf : w.firstFree = some b) :
    b < MAXBLKNUM ∧ b < w.cached.blkNum ∧ w.cached.blkOcp b = false ∧ 2 ≤ b := by
  have hm := List.mem_of_find?_eq_some hf
  have ht := List.find?_some hf
  rw [List.mem_range, blkNum_cached] at hm
  have hb : b < MAXBLKNUM := lt_of_lt_of_le hm h.owned.blkNum_le
  obtain ⟨hlt, ho⟩ := (blockIsFree_iff w hb).mp ht
  exact ⟨hb, hlt, ho, h.owned.two_le ho⟩

theorem slot_lt (h : Sane N w) {i j : Nat} (hi : i < N) (hz : w.cached.slot i j ≠ 0) :
    w.cached.slot i j < MAXBLKNUM :=
  lt_of_lt_of_le (h.slot_valid hi hz).2.1 h.owned.blkNum_le

end Sane

/-- What a run is allowed to change: the inodes it may write, and whether it may free blocks. -/
structure Scope where
  inode : Nat → Prop
  free : Prop

def Scope.all : Scope := ⟨fun _ => True, True⟩

inductive Step (S : Scope) (N : Nat) : World → World → Prop
  | load {w} (p : Nat) : superPg ≤ p → w.present p = false → Step S N w (w.load p)
  | flush {w} (p : Nat) : superPg ≤ p → Step S N w (w.flush p)
  | follow {w} (k : Nat) : Step S N w (w.follow k)
  | log {w} (x : Access) : Step S N w (w.log x)
  | acquire {w} (i j b : Nat) : S.inode i → i < N → j < NDIRECT → w.cached.slot i j = 0 →
      w.firstFree = some b → Step S N w (w.acquire i j b)
  | release {w} (i j : Nat) : S.inode i → S.free → i < N → j < NDIRECT →
      w.cached.slot i j ≠ 0 → Step S N w (w.release i j)
  | type {w} (i v : Nat) : S.inode i → i < N → Step S N w (w.setCell (inodeVa i + offType) v)
  | size {w} (i v : Nat) : S.inode i → i < N → Step S N w (w.setCell (inodeVa i + offSize) v)
  | used {w} (i v : Nat) : S.inode i → i < N → Step S N w (w.setCell (inodeVa i + offBlkUsed) v)
  | markInode {w} (k : Nat) : k < N → w.cached.inOcp k = false → Step S N w (w.markInode k)
  | unmarkInode {w} (k : Nat) : k < N → Step S N w (w.unmarkInode k)
  /-- A recorded store inside one data block, none of whose owners is out of scope. -/
  | data {w} (b a n : Nat) (f : Nat → UInt8) : 2 ≤ b → blockVa b ≤ a → a + n ≤ blockVa b + BLKSIZE →
      (∀ p ∈ pagesOf a n, w.present p = true) →
      (∀ i j, i < N → w.cached.slot i j = b → S.inode i) →
      (∀ x, a ≤ x → x < a + n → ∃ c ∈ w.accesses, c.Stores x) → Step S N w (w.write a n f)
  /-- A store into the caller's memory. -/
  | outside {w} (a n : Nat) (f : Nat → UInt8) : a + n ≤ DISKMAP ∨ DISKMAP + DISKSIZE ≤ a →
      Step S N w (w.fill a n f)

private theorem Step.cached_cases {S : Scope} {N : Nat} {w v : World} (hs : Step S N w v)
    (h : Sane N w) : v.cached = w.cached ∨
      (∃ i j b, S.inode i ∧ i < N ∧ j < NDIRECT ∧ w.cached.slot i j = 0 ∧ w.firstFree = some b ∧
        v.cached = ((w.cached.setBlkOcp b true).setSlot i j b).setBlkUsed i
          (((w.cached.inode i).blkUsed + 1) % 65536)) ∨
      (∃ i j, S.inode i ∧ S.free ∧ i < N ∧ j < NDIRECT ∧ w.cached.slot i j ≠ 0 ∧
        v.cached = (w.cached.setBlkOcp (w.cached.slot i j) false).setSlot i j 0) ∨
      (∃ i x, S.inode i ∧ i < N ∧ x.blkInd = (w.cached.inode i).blkInd ∧
        v.cached = w.cached.setInode i x) ∨
      (∃ k bit, k < N ∧ (bit = true → w.cached.inOcp k = false) ∧
        v.cached = w.cached.setInOcp k bit) := by
  cases hs with
  | load p hp hn => exact Or.inl (cached_load w hp hn)
  | flush p hp => exact Or.inl (cached_flush w hp)
  | follow k => exact Or.inl (cached_of_byte rfl)
  | log x => exact Or.inl (cached_of_byte rfl)
  | acquire i j b ha hi hj hz hf =>
    exact Or.inr (Or.inl ⟨i, j, b, ha, hi, hj, hz, hf,
      cached_acquire h.ready (h.lt hi) hj (h.firstFree hf).1⟩)
  | release i j ha hfr hi hj hz =>
    exact Or.inr (Or.inr (Or.inl ⟨i, j, ha, hfr, hi, hj, hz,
      cached_release h.ready (h.lt hi) hj (h.slot_lt hi hz)⟩))
  | type i v ha hi =>
    exact Or.inr (Or.inr (Or.inr (Or.inl ⟨i, { w.cached.inode i with type := v % 65536 }, ha, hi, rfl,
      cached_setType h.ready (h.lt hi) v⟩)))
  | size i v ha hi =>
    exact Or.inr (Or.inr (Or.inr (Or.inl ⟨i, { w.cached.inode i with size := v % 65536 }, ha, hi, rfl,
      cached_setSize h.ready (h.lt hi) v⟩)))
  | used i v ha hi =>
    exact Or.inr (Or.inr (Or.inr (Or.inl ⟨i, { w.cached.inode i with blkUsed := v % 65536 }, ha, hi,
      rfl, cached_setBlkUsed h.ready (h.lt hi) v⟩)))
  | markInode k hk ho =>
    exact Or.inr (Or.inr (Or.inr (Or.inr ⟨k, true, hk, fun _ => ho,
      cached_markInode h.ready (h.lt hk)⟩)))
  | unmarkInode k hk =>
    exact Or.inr (Or.inr (Or.inr (Or.inr ⟨k, false, hk, (fun he => by cases he),
      cached_unmarkInode h.ready (h.lt hk)⟩)))
  | data b a n f hb hlo hhi hp _ _ =>
    exact Or.inl (cached_write_data (present_bytes hp) (Or.inr ((blockVa_mono hb).trans hlo)))
  | outside a n f ha => exact Or.inl (cached_fill ha)

theorem Step.present_mono {S : Scope} {N : Nat} {w v : World} (hs : Step S N w v) (p : Nat)
    (hp : w.present p = true) : v.present p = true := by
  cases hs with
  | load q _ _ => exact present_load w q p hp
  | outside a n f _ => exact present_fill w a n f p hp
  | _ => simpa using hp

theorem Step.grows {S : Scope} {N : Nat} {w v : World} (hs : Step S N w v) : Grows w v := by
  cases hs with
  | load p _ _ => exact grows_load w p
  | flush p _ => exact grows_flush w p
  | follow k => exact grows_follow w k
  | log x => exact grows_log w x
  | acquire i j b _ _ _ _ _ =>
    exact ((grows_write w _ _ _).trans (grows_flush _ _)).trans
      ((grows_write _ _ _ _).trans (grows_write _ _ _ _))
  | release i j _ _ _ _ _ =>
    exact ((grows_write w _ _ _).trans (grows_flush _ _)).trans (grows_write _ _ _ _)
  | type i v _ _ => exact grows_write w _ _ _
  | size i v _ _ => exact grows_write w _ _ _
  | used i v _ _ => exact grows_write w _ _ _
  | markInode k _ _ => exact (grows_write w _ _ _).trans (grows_flush _ _)
  | unmarkInode k _ => exact (grows_write w _ _ _).trans (grows_flush _ _)
  | data b a n f _ _ _ _ _ _ => exact grows_write w a n f
  | outside a n f _ => exact ⟨List.suffix_rfl, List.suffix_rfl, List.suffix_rfl⟩

theorem Step.sane {S : Scope} {N : Nat} {w v : World} (hs : Step S N w v) (h : Sane N w) :
    Sane N v := by
  have hr : Ready v := ⟨hs.present_mono _ h.ready.super, hs.present_mono _ h.ready.inode⟩
  rcases hs.cached_cases h with hc | ⟨i, j, b, -, hi, -, -, hf, hc⟩ | ⟨i, j, -, -, hi, -, hz, hc⟩ |
    ⟨i, x, -, -, hx, hc⟩ | ⟨k, bit, -, -, hc⟩
  · exact h.of_cached hr hc
  · have hb := h.firstFree hf
    have ho := h.owned.acquire (i := i) (j := j) hb.2.2.1 hb.2.1
    refine ⟨hr, ?_, h.small, h.pos, ?_⟩
    · rw [hc]
      exact h.inNum
    · rw [hc]
      exact ho.congr rfl rfl (by simp)
  · refine ⟨hr, ?_, h.small, h.pos, ?_⟩
    · rw [hc]
      exact h.inNum
    · rw [hc]
      exact h.owned.release hi hz
  · refine ⟨hr, ?_, h.small, h.pos, ?_⟩
    · rw [hc]
      exact h.inNum
    · rw [hc]
      exact h.owned.congr rfl rfl (slot_setInode hx)
  · refine ⟨hr, ?_, h.small, h.pos, ?_⟩
    · rw [hc]
      exact h.inNum
    · rw [hc]
      exact h.owned.congr rfl rfl rfl

end DamnOS.FileSystem
