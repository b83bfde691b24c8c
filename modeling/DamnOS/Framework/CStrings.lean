import Mathlib

/-!
# Strings in memory

A memory is a function from addresses to bytes, and a string in it ends at the first zero.
-/

namespace DamnOS.Framework

/-- The string `l` stands at `a`, with its terminator. -/
def StringAt (m : Nat → UInt8) : Nat → List UInt8 → Prop
  | a, [] => m a = 0
  | a, c :: l => m a = c ∧ c ≠ 0 ∧ StringAt m (a + 1) l

/-- The bytes `l` stand at `a`; nothing is said of what follows. -/
def BytesAt (m : Nat → UInt8) (a : Nat) (l : List UInt8) : Prop :=
  ∀ i (h : i < l.length), m (a + i) = l.get ⟨i, h⟩

/-- A list of bytes as a memory, with zeros behind it. -/
def memoryOf (l : List UInt8) : Nat → UInt8 := fun i => l.getD i 0

section Strings

variable {m m' : Nat → UInt8} {a x : Nat} {c : UInt8} {l l' : List UInt8}

@[simp] theorem stringAt_nil : StringAt m a [] ↔ m a = 0 := Iff.rfl

@[simp] theorem stringAt_cons : StringAt m a (c :: l) ↔ m a = c ∧ c ≠ 0 ∧ StringAt m (a + 1) l := Iff.rfl

theorem StringAt.zero_not_mem (h : StringAt m a l) : (0 : UInt8) ∉ l := by
  induction l generalizing a with
  | nil => simp
  | cons c l ih =>
    obtain ⟨-, hc, h⟩ := h
    simp only [List.mem_cons, not_or]
    exact ⟨Ne.symm hc, ih h⟩

theorem StringAt.congr (h : StringAt m a l) (hm : ∀ x, a ≤ x → x ≤ a + l.length → m' x = m x) :
    StringAt m' a l := by
  induction l generalizing a with
  | nil => exact (hm a le_rfl (by simp)).trans h
  | cons c l ih =>
    obtain ⟨hc, hne, h⟩ := h
    refine ⟨(hm a le_rfl (by simp)).trans hc, hne, ih h fun x hx hle => ?_⟩
    apply hm x (by omega)
    simp only [List.length_cons]
    omega

theorem StringAt.update_lt (h : StringAt m a l) (hx : x < a) : StringAt (Function.update m x c) a l := by
  apply h.congr
  intro y hy _
  exact Function.update_of_ne (by omega) _ _

theorem StringAt.append (h : StringAt m a (l ++ l')) : StringAt m (a + l.length) l' := by
  induction l generalizing a with
  | nil => exact h
  | cons c l ih =>
    have hrest := ih h.2.2
    rwa [Nat.add_right_comm, Nat.add_assoc] at hrest

theorem StringAt.unique (h : StringAt m a l) (h' : StringAt m a l') : l = l' := by
  induction l generalizing a l' with
  | nil =>
    cases l' with
    | nil => rfl
    | cons c l' => exact absurd (h'.1.symm.trans h) h'.2.1
  | cons c l ih =>
    cases l' with
    | nil => exact absurd (h.1.symm.trans h') h.2.1
    | cons c' l' =>
      have hc : c = c' := h.1.symm.trans h'.1
      rw [hc, ih h.2.2 h'.2.2]

theorem StringAt.head (h : StringAt m a l) : m a = l.headD 0 := by
  cases l with
  | nil => exact h
  | cons c l => exact h.1

theorem StringAt.bytesAt (h : StringAt m a l) : BytesAt m a l := by
  induction l generalizing a with
  | nil =>
    intro i hi
    cases hi
  | cons c l ih =>
    intro i hi
    cases i with
    | zero => exact h.1
    | succ i =>
      have hrest := ih h.2.2 i (by simpa using hi)
      rwa [Nat.add_right_comm, Nat.add_assoc] at hrest

/-- Bytes without a zero make a string when a zero is written behind them. -/
theorem BytesAt.stringAt (h : BytesAt m a l) (h0 : (0 : UInt8) ∉ l) (hend : m (a + l.length) = 0) :
    StringAt m a l := by
  induction l generalizing a with
  | nil => exact hend
  | cons c l ih =>
    simp only [List.mem_cons, not_or] at h0
    refine ⟨h 0 (by simp), Ne.symm h0.1, ih (fun i hi => ?_) h0.2 ?_⟩
    · have hi' := h (i + 1) (by simpa using hi)
      rwa [← Nat.add_assoc, Nat.add_right_comm] at hi'
    · rwa [List.length_cons, ← Nat.add_assoc, Nat.add_right_comm] at hend

theorem BytesAt.congr (h : BytesAt m a l) (hm : ∀ x, a ≤ x → x < a + l.length → m' x = m x) : BytesAt m' a l :=
  fun i hi => (hm (a + i) (by omega) (by omega)).trans (h i hi)

theorem BytesAt.left (h : BytesAt m a (l ++ l')) : BytesAt m a l := by
  intro i hi
  have hi' := h i (by simp only [List.length_append]; omega)
  rwa [List.get_eq_getElem, List.getElem_append_left hi] at hi'

theorem StringAt.moved (h : StringAt m a l) (d : Nat) : StringAt (fun x => m (x - d)) (a + d) l := by
  induction l generalizing a with
  | nil =>
    change m (a + d - d) = 0
    rwa [Nat.add_sub_cancel]
  | cons c l ih =>
    refine ⟨?_, h.2.1, ?_⟩
    · change m (a + d - d) = c
      rw [Nat.add_sub_cancel]
      exact h.1
    · rw [Nat.add_right_comm]
      exact ih h.2.2

theorem stringAt_memoryOf (h : (0 : UInt8) ∉ l) : StringAt (memoryOf l) 0 l := by
  apply BytesAt.stringAt _ h
  · simp [memoryOf]
  · intro i hi
    simp [memoryOf, hi]

end Strings

end DamnOS.Framework
