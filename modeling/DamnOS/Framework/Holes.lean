import Mathlib.Data.Multiset.Range

/-!
# Removal from an array by moving an element into the hole

An array of `m + 1` elements loses the one at `p`: its place takes `x`, and the array ends one element earlier.
-/

namespace DamnOS.Framework

variable {α : Type*} {f g : Nat → α} {m p : Nat} {x : α}

/-- What is in the place of `p` and what was there make the difference between the two arrays. -/
theorem hole_filled (hp : p < m) (hg : ∀ k < m, g k = if k = p then x else f k) :
    f p ::ₘ (Multiset.range m).map g = x ::ₘ (Multiset.range m).map f := by
  have hmem : p ∈ Multiset.range m := Multiset.mem_range.mpr hp
  have hrest : ((Multiset.range m).erase p).map g = ((Multiset.range m).erase p).map f := by
    apply Multiset.map_congr rfl
    intro k hk
    have hne : k ≠ p := ne_of_mem_of_not_mem hk (Multiset.nodup_range m).notMem_erase
    rw [hg k (Multiset.mem_range.mp (Multiset.mem_of_mem_erase hk)), if_neg hne]
  rw [← Multiset.cons_erase hmem, Multiset.map_cons, Multiset.map_cons, hrest, hg p hp, if_pos rfl]
  exact Multiset.cons_swap _ _ _

/-- Nothing else is lost exactly when the removed element was the last one or the last one has moved. -/
theorem removed_iff (hp : p ≤ m) (hg : ∀ k < m, g k = if k = p then x else f k) :
    (Multiset.range (m + 1)).map f = f p ::ₘ (Multiset.range m).map g ↔ p = m ∨ x = f m := by
  rw [Multiset.range_succ, Multiset.map_cons]
  rcases hp.eq_or_lt with rfl | hlt
  · have hsame : (Multiset.range p).map g = (Multiset.range p).map f := by
      apply Multiset.map_congr rfl
      intro k hk
      have hkp := Multiset.mem_range.mp hk
      rw [hg k hkp, if_neg hkp.ne]
    exact iff_of_true (by rw [hsame]) (.inl rfl)
  · rw [hole_filled hlt hg, Multiset.cons_inj_left]
    constructor
    · exact fun hx => .inr hx.symm
    · rintro (heq | hx)
      · exact absurd heq hlt.ne
      · exact hx.symm

end DamnOS.Framework
