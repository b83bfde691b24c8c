import DamnOS.Framework.CStrings

/-!
# Scans over strings

Two loops that step over the bytes at the front of a string that satisfy a test, and the fields that they cut it into.
-/

namespace DamnOS.Framework

def clearWhile (p : UInt8 → Bool) : Nat → (Nat → UInt8) → Nat → Option ((Nat → UInt8) × Nat)
  | 0, _, _ => none
  | fuel + 1, m, s => if p (m s) then clearWhile p fuel (Function.update m s 0) (s + 1) else some (m, s)

def skipWhile (p : UInt8 → Bool) : Nat → (Nat → UInt8) → Nat → Option Nat
  | 0, _, _ => none
  | fuel + 1, m, s => if p (m s) then skipWhile p fuel m (s + 1) else some s

/-- What is between separators, without what is empty. -/
def fields (sep : UInt8 → Bool) (l : List UInt8) : List (List UInt8) := (l.splitOnP sep).filter fun w => !w.isEmpty

section Scans

variable {p sep : UInt8 → Bool} {fuel s : Nat} {m : Nat → UInt8} {l : List UInt8} {c : UInt8}

theorem skipWhile_spec (h0 : p 0 = false) (h : StringAt m s l) (hf : l.length < fuel) :
    skipWhile p fuel m s = some (s + (l.takeWhile p).length) := by
  induction l generalizing s fuel with
  | nil =>
    obtain ⟨fuel, rfl⟩ := Nat.exists_eq_add_one_of_ne_zero (Nat.ne_of_gt hf)
    have hend : m s = 0 := h
    rw [skipWhile, hend, h0]
    rfl
  | cons c l ih =>
    obtain ⟨fuel, rfl⟩ := Nat.exists_eq_add_one_of_ne_zero (Nat.ne_of_gt (Nat.zero_lt_of_lt hf))
    obtain ⟨hc, -, hrest⟩ := h
    rw [skipWhile, hc]
    by_cases hp : p c = true
    · rw [if_pos hp, ih hrest (by simpa using hf), List.takeWhile_cons_of_pos hp, List.length_cons, Nat.add_right_comm,
        Nat.add_assoc]
    · rw [if_neg hp, List.takeWhile_cons_of_neg hp]
      rfl

/-- What is cleared is the front of the string, and nothing else changes. -/
theorem clearWhile_spec (h0 : p 0 = false) (h : StringAt m s l) (hf : l.length < fuel) :
    ∃ m', clearWhile p fuel m s = some (m', s + (l.takeWhile p).length) ∧
      StringAt m' (s + (l.takeWhile p).length) (l.dropWhile p) ∧
      (∀ x, x < s ∨ s + (l.takeWhile p).length ≤ x → m' x = m x) ∧ (p (m s) = true → m' s = 0) := by
  induction l generalizing m s fuel with
  | nil =>
    obtain ⟨fuel, rfl⟩ := Nat.exists_eq_add_one_of_ne_zero (Nat.ne_of_gt hf)
    have hend : m s = 0 := h
    rw [clearWhile, hend, h0]
    exact ⟨m, rfl, h, fun _ _ => rfl, fun hp => absurd hp Bool.false_ne_true⟩
  | cons c l ih =>
    obtain ⟨fuel, rfl⟩ := Nat.exists_eq_add_one_of_ne_zero (Nat.ne_of_gt (Nat.zero_lt_of_lt hf))
    obtain ⟨hc, hne, hrest⟩ := h
    rw [clearWhile, hc]
    by_cases hp : p c = true
    · have hcleared : StringAt (Function.update m s 0) (s + 1) l := hrest.update_lt (by omega)
      obtain ⟨m', hrun, hat, hframe, -⟩ := ih hcleared (by simpa using hf)
      rw [if_pos hp, hrun, List.takeWhile_cons_of_pos hp, List.dropWhile_cons_of_pos hp, List.length_cons]
      refine ⟨m', ?_, ?_, ?_, ?_⟩
      · rw [Nat.add_right_comm, Nat.add_assoc]
      · rwa [Nat.add_right_comm, Nat.add_assoc] at hat
      · intro x hx
        rw [hframe x (by omega), Function.update_of_ne (by omega)]
      · intro _
        rw [hframe s (by omega), Function.update_self]
    · rw [if_neg hp, List.takeWhile_cons_of_neg hp, List.dropWhile_cons_of_neg hp]
      exact ⟨m, rfl, ⟨hc, hne, hrest⟩, fun _ _ => rfl, fun h => absurd h hp⟩

@[simp] theorem fields_nil (sep : UInt8 → Bool) : fields sep [] = [] := rfl

private theorem fields_sep (h : sep c = true) (l : List UInt8) : fields sep (c :: l) = fields sep l := by
  rw [fields, List.splitOnP_cons_eq_if_modifyHead, if_pos h]
  rfl

theorem fields_front (sep : UInt8 → Bool) (l : List UInt8) : fields sep l = fields sep (l.dropWhile sep) := by
  induction l with
  | nil => rfl
  | cons c l ih =>
    by_cases h : sep c = true
    · rw [fields_sep h, ih, List.dropWhile_cons_of_pos h]
    · rw [List.dropWhile_cons_of_neg h]

theorem fields_cons (h : sep c = false) (l : List UInt8) : fields sep (c :: l) =
    (c :: l).takeWhile (fun x => !sep x) :: fields sep ((c :: l).dropWhile fun x => !sep x) := by
  have hword : ∀ x ∈ (c :: l).takeWhile (fun x => !sep x), sep x = false := by
    intro x hx
    simpa using List.mem_takeWhile_imp hx
  have hne : (!((c :: l).takeWhile fun x => !sep x).isEmpty) = true := by
    rw [List.takeWhile_cons_of_pos (by rw [h]; rfl)]
    rfl
  have hall : (c :: l).takeWhile (fun x => !sep x) ++ (c :: l).dropWhile (fun x => !sep x) = c :: l :=
    List.takeWhile_append_dropWhile
  have hhead := List.head?_dropWhile_not (fun x => !sep x) (c :: l)
  generalize (c :: l).takeWhile (fun x => !sep x) = w at *
  generalize (c :: l).dropWhile (fun x => !sep x) = rest at *
  have hcut (ws : List (List UInt8)) : (w :: ws).filter (fun w => !w.isEmpty) = w :: ws.filter fun w => !w.isEmpty := by
    rw [List.filter_cons, if_pos hne]
  rw [← hall]
  cases rest with
  | nil => rw [fields, List.append_nil, List.splitOnP_eq_singleton hword, hcut, List.filter_nil, fields_nil]
  | cons d rest =>
    have hd : sep d = true := by simpa using hhead
    rw [fields_sep hd, fields, List.splitOnP_append_cons_of_forall_mem hword d hd, hcut]
    rfl

end Scans

end DamnOS.Framework
