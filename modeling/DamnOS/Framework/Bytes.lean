import Mathlib

/-!
# Little-endian cells

A memory is a function from addresses to bytes.  Sixteen- and thirty-two-bit cells are read from
consecutive bytes, and every store splices a short run of bytes into the memory.
-/

namespace DamnOS.Framework

def u16 (g : Nat → UInt8) (a : Nat) : Nat := (g a).toNat + 256 * (g (a + 1)).toNat

def u32 (g : Nat → UInt8) (a : Nat) : Nat := u16 g a + 65536 * u16 g (a + 2)

/-- Byte `i` of the little-endian spelling of `v`. -/
def leByte (v i : Nat) : UInt8 := UInt8.ofNat (v / 256 ^ i)

/-- The memory `g` with the `n` bytes from `a` on replaced. -/
def splice (g : Nat → UInt8) (a n : Nat) (f : Nat → UInt8) : Nat → UInt8 :=
  fun x => if a ≤ x ∧ x < a + n then f (x - a) else g x

theorem splice_inside (g f : Nat → UInt8) {a n x : Nat} (h : a ≤ x ∧ x < a + n) :
    splice g a n f x = f (x - a) := by
  rw [splice, if_pos h]

theorem splice_outside (g f : Nat → UInt8) {a n x : Nat} (h : x < a ∨ a + n ≤ x) :
    splice g a n f x = g x := by
  rw [splice, if_neg (by omega)]

theorem splice_append (g f : Nat → UInt8) (a n m : Nat) :
    splice (splice g a n f) (a + n) m (fun k => f (n + k)) = splice g a (n + m) f := by
  funext x
  by_cases hlo : a ≤ x ∧ x < a + n
  · rw [splice_outside _ _ (by omega), splice_inside _ _ hlo, splice_inside _ _ (by omega)]
  · by_cases hhi : a + n ≤ x ∧ x < a + n + m
    · rw [splice_inside _ _ hhi, splice_inside _ _ (by omega)]
      congr 1
      omega
    · rw [splice_outside _ _ (by omega), splice_outside _ _ (by omega), splice_outside _ _ (by omega)]

@[simp] theorem splice_zero (g f : Nat → UInt8) (a : Nat) : splice g a 0 f = g :=
  funext fun _ => splice_outside g f (by omega)

theorem u16_lt (g : Nat → UInt8) (a : Nat) : u16 g a < 65536 := by
  have h0 := (g a).toNat_lt
  have h1 := (g (a + 1)).toNat_lt
  unfold u16
  omega

theorem u32_lt (g : Nat → UInt8) (a : Nat) : u32 g a < 2 ^ 32 := by
  have h0 := u16_lt g a
  have h1 := u16_lt g (a + 2)
  unfold u32
  omega

theorem u16_congr {g h : Nat → UInt8} {a b : Nat} (h0 : g a = h b) (h1 : g (a + 1) = h (b + 1)) :
    u16 g a = u16 h b := by
  rw [u16, u16, h0, h1]

theorem u32_congr {g h : Nat → UInt8} {a b : Nat} (he : ∀ i < 4, g (a + i) = h (b + i)) :
    u32 g a = u32 h b := by
  have h0 : u16 g a = u16 h b := u16_congr (he 0 (by omega)) (he 1 (by omega))
  have h2 : u16 g (a + 2) = u16 h (b + 2) := u16_congr (he 2 (by omega)) (he 3 (by omega))
  rw [u32, u32, h0, h2]

@[simp] theorem leByte_toNat (v i : Nat) : (leByte v i).toNat = v / 256 ^ i % 256 := by
  simp [leByte]

theorem u16_splice_same (g : Nat → UInt8) (a v : Nat) :
    u16 (splice g a 2 (leByte v)) a = v % 65536 := by
  rw [u16, splice_inside g _ (by omega), splice_inside g _ (by omega)]
  simp only [leByte_toNat, Nat.sub_self, Nat.add_sub_cancel_left]
  omega

theorem splice_same_cell (g : Nat → UInt8) {a v : Nat} (h : v % 65536 = u16 g a) :
    splice g a 2 (leByte v) = g := by
  funext x
  by_cases hx : a ≤ x ∧ x < a + 2
  · have h0 := (g a).toNat_lt
    have h1 := (g (a + 1)).toNat_lt
    unfold u16 at h
    rw [splice_inside _ _ hx]
    apply UInt8.toNat_inj.mp
    rw [leByte_toNat]
    obtain rfl | rfl : x = a ∨ x = a + 1 := by omega
    · simp only [Nat.sub_self]
      omega
    · simp only [Nat.add_sub_cancel_left]
      omega
  · exact splice_outside _ _ (by omega)

theorem u16_splice_disjoint (g f : Nat → UInt8) {a n b : Nat} (h : b + 2 ≤ a ∨ a + n ≤ b) :
    u16 (splice g a n f) b = u16 g b :=
  u16_congr (splice_outside g f (by omega)) (splice_outside g f (by omega))

theorem u32_splice_same (g : Nat → UInt8) (a v : Nat) :
    u32 (splice g a 4 (leByte v)) a = v % 2 ^ 32 := by
  have h (i : Nat) (hi : i < 4) : (splice g a 4 (leByte v) (a + i)).toNat = v / 256 ^ i % 256 := by
    rw [splice_inside g _ (by omega), leByte_toNat, Nat.add_sub_cancel_left]
  have h0 := h 0 (by omega)
  have h1 := h 1 (by omega)
  have h2 := h 2 (by omega)
  have h3 := h 3 (by omega)
  simp only [u32, u16, Nat.add_assoc, Nat.add_zero, Nat.reduceAdd] at *
  rw [h0, h1, h2, h3]
  omega

theorem u32_splice_disjoint (g f : Nat → UInt8) {a n b : Nat} (h : b + 4 ≤ a ∨ a + n ≤ b) :
    u32 (splice g a n f) b = u32 g b :=
  u32_congr fun i hi => splice_outside g f (by omega)

theorem and_shift_eq_zero (w k : Nat) : (w &&& (1 <<< k)) = 0 ↔ w.testBit k = false := by
  rw [Nat.one_shiftLeft, Nat.and_two_pow]
  cases w.testBit k <;> simp

theorem testBit_or_shift (w k i : Nat) :
    (w ||| (1 <<< k)).testBit i = if i = k then true else w.testBit i := by
  rw [Nat.testBit_or, Nat.one_shiftLeft, Nat.testBit_two_pow]
  by_cases h : i = k
  · simp [h]
  · simp [h, Ne.symm h]

/-- Clearing bit `k` of a thirty-two-bit word with the complement mask. -/
theorem testBit_and_mask (w k i : Nat) (hw : w < 2 ^ 32) :
    (w &&& (0xFFFFFFFF ^^^ (1 <<< k))).testBit i = if i = k then false else w.testBit i := by
  have hm : (0xFFFFFFFF : Nat) = 2 ^ 32 - 1 := rfl
  rw [Nat.testBit_and, Nat.testBit_xor, Nat.one_shiftLeft, Nat.testBit_two_pow, hm,
    Nat.testBit_two_pow_sub_one]
  by_cases hi : i < 32
  · by_cases hik : i = k
    · simp [hi, ← hik]
    · simp [hi, hik, Ne.symm hik]
  · have hz : w.testBit i = false :=
      Nat.testBit_lt_two_pow (lt_of_lt_of_le hw (Nat.pow_le_pow_right (by decide) (by omega)))
    simp [hz]

theorem or_shift_lt (w k : Nat) (hk : k < 32) (hw : w < 2 ^ 32) : w ||| (1 <<< k) < 2 ^ 32 := by
  apply Nat.or_lt_two_pow hw
  rw [Nat.one_shiftLeft]
  exact Nat.pow_lt_pow_right (by decide) hk

theorem and_mask_lt (w m : Nat) (hw : w < 2 ^ 32) : w &&& m < 2 ^ 32 :=
  lt_of_le_of_lt Nat.and_le_left hw

end DamnOS.Framework
