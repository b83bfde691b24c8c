import Mathlib

/-!
# Ring buffers without a count

A ring of `N` places with a reading and a writing position.  Equal positions mean that nothing is waiting, so that a
ring which gets its `N`th element loses all of them.
-/

namespace DamnOS.Framework

variable {α : Type} {N r w i j : Nat} {buf : Nat → α} {c : α}

def ringNext (N i : Nat) : Nat := if i + 1 = N then 0 else i + 1

/-- The place that is `i` positions after `r`. -/
def ringPlace (N r i : Nat) : Nat := if r + i < N then r + i else r + i - N

/-- The number of elements that are waiting. -/
def ringLength (N r w : Nat) : Nat := if r ≤ w then w - r else w + N - r

/-- The elements that are waiting, the next one to be read first. -/
def ringContents (N : Nat) (buf : Nat → α) (r w : Nat) : List α :=
  (List.range (ringLength N r w)).map fun i => buf (ringPlace N r i)

@[simp] theorem length_ringContents (N : Nat) (buf : Nat → α) (r w : Nat) :
    (ringContents N buf r w).length = ringLength N r w := by
  rw [ringContents, List.length_map, List.length_range]

theorem ringNext_lt (hi : i < N) : ringNext N i < N := by
  rw [ringNext]
  split <;> omega

private theorem ringLength_lt (hr : r < N) (hw : w < N) : ringLength N r w < N := by
  rw [ringLength]
  split <;> omega

theorem ringContents_eq_nil (hr : r < N) : ringContents N buf r w = [] ↔ r = w := by
  rw [← List.length_eq_zero_iff, length_ringContents, ringLength]
  split <;> omega

private theorem ringPlace_zero (hr : r < N) : ringPlace N r 0 = r := by
  rw [ringPlace]
  split <;> omega

private theorem ringPlace_next (hi : i + 1 < N) : ringPlace N (ringNext N r) i = ringPlace N r (i + 1) := by
  rw [ringNext, ringPlace, ringPlace]
  split <;> split <;> split <;> omega

private theorem ringPlace_length (hr : r < N) (hw : w < N) : ringPlace N r (ringLength N r w) = w := by
  rw [ringLength, ringPlace]
  split <;> split <;> omega

private theorem ringPlace_ne (hr : r < N) (hi : i < ringLength N r w) : ringPlace N r i ≠ w := by
  rw [ringLength] at hi
  rw [ringPlace]
  split at hi <;> split <;> omega

private theorem ringLength_push (hr : r < N) (hw : w < N) :
    ringLength N r (ringNext N w) = if ringLength N r w + 1 = N then 0 else ringLength N r w + 1 := by
  rw [ringNext]
  unfold ringLength
  split <;> split <;> split <;> split <;> omega

private theorem ringLength_pop (hr : r < N) (hw : w < N) (hne : r ≠ w) :
    ringLength N r w = ringLength N (ringNext N r) w + 1 := by
  rw [ringNext]
  unfold ringLength
  split <;> split <;> split <;> omega

/-- An element is put behind the others; it is the last straw when there is one place left. -/
theorem ringContents_push (hr : r < N) (hw : w < N) :
    ringContents N (Function.update buf w c) r (ringNext N w) =
      if (ringContents N buf r w).length + 1 = N then [] else ringContents N buf r w ++ [c] := by
  rw [length_ringContents, ringContents, ringLength_push hr hw]
  split
  · rfl
  · have hold : (List.range (ringLength N r w)).map (fun i => Function.update buf w c (ringPlace N r i)) =
        ringContents N buf r w := by
      apply List.map_congr_left
      intro i hi
      exact Function.update_of_ne (ringPlace_ne hr (List.mem_range.mp hi)) _ _
    rw [List.range_succ, List.map_append, hold, List.map_singleton, ringPlace_length hr hw, Function.update_self]

theorem ringContents_pop (hr : r < N) (hw : w < N) (hne : r ≠ w) :
    ringContents N buf r w = buf r :: ringContents N buf (ringNext N r) w := by
  rw [ringContents, ringLength_pop hr hw hne, List.range_succ_eq_map, List.map_cons, List.map_map, ringPlace_zero hr,
    List.cons_inj_right]
  apply List.map_congr_left
  intro i hi
  have hlt := ringLength_lt hr hw
  rw [ringLength_pop hr hw hne] at hlt
  have hi' := List.mem_range.mp hi
  rw [ringPlace_next (by omega)]
  rfl

end DamnOS.Framework
