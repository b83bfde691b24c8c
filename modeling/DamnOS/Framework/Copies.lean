import DamnOS.Framework.Bytes

/-!
# Overlapping copies

A run of bytes at another place, as it was before.  A copy can be made in pieces if no piece overwrites what later ones
read.
-/

namespace DamnOS.Framework

variable {g f f' : Nat → UInt8} {d s a b n x : Nat}

/-- The memory `g` with `n` bytes of it, from `s` on, also at `d`. -/
def moved (g : Nat → UInt8) (d s n : Nat) : Nat → UInt8 := splice g d n fun i => g (s + i)

private theorem splice_congr (h : ∀ i < n, f i = f' i) : splice g d n f = splice g d n f' := by
  funext x
  by_cases hx : d ≤ x ∧ x < d + n
  · rw [splice_inside _ _ hx, splice_inside _ _ hx]
    exact h _ (by omega)
  · rw [splice_outside _ _ (by omega), splice_outside _ _ (by omega)]

theorem moved_inside (g : Nat → UInt8) (s : Nat) (h : d ≤ x ∧ x < d + n) : moved g d s n x = g (s + (x - d)) :=
  splice_inside _ _ h

theorem moved_outside (g : Nat → UInt8) (s : Nat) (h : x < d ∨ d + n ≤ x) : moved g d s n x = g x :=
  splice_outside _ _ h

theorem moved_get (g : Nat → UInt8) (d s : Nat) {i : Nat} (h : i < n) : moved g d s n (d + i) = g (s + i) := by
  rw [moved_inside g s (by omega), Nat.add_sub_cancel_left]

@[simp] theorem moved_zero (g : Nat → UInt8) (d s : Nat) : moved g d s 0 = g := splice_zero _ _ _

theorem moved_up (h : d ≤ s ∨ s + (a + b) ≤ d) :
    moved (moved g d s a) (d + a) (s + a) b = moved g d s (a + b) := by
  have hread : ∀ i < b, moved g d s a (s + a + i) = g (s + (a + i)) := by
    intro i hi
    rw [moved_outside g s (by omega), Nat.add_assoc]
  rw [moved, splice_congr hread]
  exact splice_append g (fun i => g (s + i)) d a b

theorem moved_down (h : s ≤ d ∨ d + (a + b) ≤ s) :
    moved (moved g (d + a) (s + a) b) d s a = moved g d s (a + b) := by
  funext x
  by_cases hlow : d ≤ x ∧ x < d + a
  · rw [moved_inside _ s hlow, moved_inside g s (by omega), moved_outside g (s + a) (by omega)]
  · rw [moved_outside _ s (by omega)]
    by_cases hhigh : d + a ≤ x ∧ x < d + a + b
    · rw [moved_inside g (s + a) hhigh, moved_inside g s (by omega)]
      congr 1
      omega
    · rw [moved_outside g (s + a) (by omega), moved_outside g s (by omega)]

end DamnOS.Framework
