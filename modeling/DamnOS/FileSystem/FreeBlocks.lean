import DamnOS.FileSystem.Obtain

/-!
# Counting free blocks

How many blocks are left, and which block of a file is the first that cannot be had when its blocks
are asked for one after the other.
-/

namespace DamnOS.FileSystem

open DamnOS.Framework

namespace Meta

def freeBlocks (m : Meta) : Nat := ((Finset.range m.blkNum).filter fun b => m.blkOcp b = false).card

/-- The number of empty slots from `a` up to `j`. -/
def gaps (m : Meta) (k a j : Nat) : Nat := ((Finset.Ico a j).filter fun i => m.slot k i = 0).card

/-- Block `j` of inode `k` cannot be had by a call that has asked for the blocks from `a` on. -/
def Lacks (m : Meta) (k a j : Nat) : Prop :=
  NDIRECT ≤ j ∨ m.slot k j = 0 ∧ m.freeBlocks ≤ m.gaps k a j

instance (m : Meta) (k a j : Nat) : Decidable (m.Lacks k a j) := inferInstanceAs (Decidable (_ ∨ _))

theorem freeBlocks_pos {m : Meta} : 0 < m.freeBlocks ↔ ∃ b < m.blkNum, m.blkOcp b = false := by
  rw [freeBlocks, Finset.card_pos]
  constructor
  · rintro ⟨b, hb⟩
    rw [Finset.mem_filter, Finset.mem_range] at hb
    exact ⟨b, hb⟩
  · rintro ⟨b, hb⟩
    exact ⟨b, Finset.mem_filter.mpr ⟨Finset.mem_range.mpr hb.1, hb.2⟩⟩

theorem gaps_self (m : Meta) (k a : Nat) : m.gaps k a a = 0 := by
  simp [gaps]

private theorem gaps_succ (m : Meta) (k : Nat) {a j : Nat} (h : a < j) :
    m.gaps k a j = m.gaps k (a + 1) j + if m.slot k a = 0 then 1 else 0 := by
  rw [gaps, gaps, ← Finset.insert_Ico_succ_left_eq_Ico h, Finset.filter_insert]
  split_ifs with hz
  · rw [Finset.card_insert_of_notMem (by simp)]
    rfl
  · rfl

private theorem gaps_congr {m n : Meta} {k a j : Nat} (h : ∀ i, a ≤ i → i < j → m.slot k i = n.slot k i) :
    m.gaps k a j = n.gaps k a j := by
  rw [gaps, gaps]
  congr 1
  refine Finset.filter_congr fun i hi => ?_
  rw [Finset.mem_Ico] at hi
  rw [h i hi.1 hi.2]

end Meta

section Count

variable {N : Nat} {w v : World} (h : Sane N w) {k j b : Nat}
include h

theorem obtain_eq_none_iff : w.obtain k j = none ↔ w.cached.Lacks k j j := by
  rw [← Option.not_isSome_iff_eq_none, obtain_isSome_iff h, ← Meta.freeBlocks_pos, Meta.Lacks,
    Meta.gaps_self]
  omega

theorem Obtains.freeBlocks (hk : k < N) (ho : Obtains N w k j b v) :
    v.cached.freeBlocks + (if w.cached.slot k j = 0 then 1 else 0) = w.cached.freeBlocks := by
  have hbits : ((Finset.range v.cached.blkNum).filter fun c => v.cached.blkOcp c = false) =
      ((Finset.range w.cached.blkNum).filter fun c => w.cached.blkOcp c = false).erase b := by
    ext c
    rw [Finset.mem_filter, Finset.mem_erase, Finset.mem_filter, ho.blkNum, ho.blkOcp]
    by_cases hc : c = b <;> simp [hc]
  rw [Meta.freeBlocks, Meta.freeBlocks, hbits]
  rcases ho.owned with he | ⟨hz, hf⟩
  · have hz : w.cached.slot k j ≠ 0 := by
      have hb2 := ho.two_le
      omega
    rw [if_neg hz, Finset.erase_eq_of_notMem, Nat.add_zero]
    rw [Finset.mem_filter, ← he, (h.slot_valid hk hz).2.2]
    simp
  · have hmem : b ∈ (Finset.range w.cached.blkNum).filter fun c => w.cached.blkOcp c = false :=
      Finset.mem_filter.mpr ⟨Finset.mem_range.mpr ho.lt_blkNum, hf⟩
    rw [if_pos hz, Finset.card_erase_of_mem hmem]
    have hpos := Finset.card_pos.mpr ⟨b, hmem⟩
    omega

/-- What can be had later is the same after the first block was taken. -/
theorem Obtains.lacks (hk : k < N) (ho : Obtains N w k j b v) {i : Nat} (hi : j < i) :
    v.cached.Lacks k (j + 1) i ↔ w.cached.Lacks k j i := by
  have hslot (i : Nat) (hi : j < i) : v.cached.slot k i = w.cached.slot k i := by
    rw [ho.slot, if_neg (by omega)]
  have hfree := ho.freeBlocks h hk
  have hgaps : v.cached.gaps k (j + 1) i = w.cached.gaps k (j + 1) i :=
    Meta.gaps_congr fun i hlo _ => hslot i (by omega)
  rw [Meta.Lacks, Meta.Lacks, hslot i hi, hgaps, w.cached.gaps_succ k hi]
  split_ifs at hfree ⊢ <;> omega

end Count

end DamnOS.FileSystem
