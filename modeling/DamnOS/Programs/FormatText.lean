import DamnOS.Programs.Vprintfmt

/-!
# The text of a format

A reference for what `vprintfmt` makes of a format: literal text, escapes, and unknown escapes, whose characters
are text from the `%` on.  Every format is read to its terminator and no further.
-/

namespace DamnOS.Programs

open DamnOS.Framework

def isModifier (c : UInt8) : Bool := c == 45 || isDigit c || c == 42 || c == 46 || c == 35 || c == 108

inductive Item where
  | text (c : UInt8)
  /-- The `%` of an unknown escape; what follows is text again. -/
  | unknown (mods : List UInt8)
  | conversion (mods : List UInt8) (c : UInt8)
  deriving DecidableEq

private theorem tail_dropWhile_length (f : UInt8 → Bool) (l : List UInt8) :
    (l.dropWhile f).tail.length < l.length + 1 := by
  have hle := (List.dropWhile_sublist f (l := l)).length_le
  rw [List.length_tail]
  omega

def items : List UInt8 → List Item
  | [] => []
  | c :: l =>
    if c ≠ PERCENT then .text c :: items l
    else if isConversion ((l.dropWhile isModifier).headD 0) then
      .conversion (l.takeWhile isModifier) ((l.dropWhile isModifier).headD 0) :: items (l.dropWhile isModifier).tail
    else .unknown (l.takeWhile isModifier) :: items l
termination_by l => l.length
decreasing_by
  · simp
  · exact tail_dropWhile_length isModifier l
  · simp

/-- The bytes of the format that an item stands for. -/
def Item.source : Item → List UInt8
  | .text c => [c]
  | .unknown _ => [PERCENT]
  | .conversion mods c => PERCENT :: mods ++ [c]

/-- The argument word after the characters between `%` and a conversion, and what they set. -/
def modifiers (ap : Nat → BitVec 32) : List UInt8 → Nat → Escape → Nat × Escape
  | [], k, s => (k, s)
  | c :: l, k, s =>
    if c = 45 then modifiers ap l k { s with padc := 45 }
    else if c = 48 then modifiers ap l k { s with padc := 48 }
    else if isDigit c then
      modifiers ap (l.dropWhile isDigit) k (s.number ((c :: l.takeWhile isDigit).foldl addDigit 0))
    else if c = 42 then modifiers ap l (k + 1) (s.number (ap k))
    else if c = 46 then modifiers ap l k s.dot
    else if c = 35 then modifiers ap l k { s with altflag := true }
    else modifiers ap l k { s with lflag := s.lflag + 1 }
termination_by l => l.length
decreasing_by
  all_goals simp only [List.length_cons, Nat.lt_add_one]
  exact Nat.lt_succ_of_le (List.dropWhile_sublist _).length_le

/-- With enough fuel the conversion prints `out` and takes `n` words. -/
def Converts (m : Nat → UInt8) (ap : Nat → BitVec 32) (k : Nat) (s : Escape) (c : UInt8) (out : List Int)
    (n : Nat) : Prop :=
  ∃ F, ∀ fuel ≥ F, convert (fun l m ap => vprintfmt fuel (formatBytes l) m ap 0 0) fuel m ap k s c = some (out, n)

/-- What is printed for the items, from argument word `k` on: text as it stands, and conversions in between. -/
inductive Emits (m : Nat → UInt8) (ap : Nat → BitVec 32) : List Item → Nat → List Int → Prop
  | done (k : Nat) : Emits m ap [] k []
  | text {c : UInt8} {is : List Item} {k : Nat} {out : List Int} (h : Emits m ap is k out) :
      Emits m ap (.text c :: is) k ((c.toNat : Int) :: out)
  | unknown {mods : List UInt8} {is : List Item} {k : Nat} {out : List Int}
      (h : Emits m ap is (modifiers ap mods k .start).1 out) : Emits m ap (.unknown mods :: is) k (37 :: out)
  | conversion {mods : List UInt8} {c : UInt8} {is : List Item} {k n : Nat} {piece out : List Int}
      (hc : Converts m ap (modifiers ap mods k .start).1 (modifiers ap mods k .start).2 c piece n)
      (h : Emits m ap is ((modifiers ap mods k .start).1 + n) out) :
      Emits m ap (.conversion mods c :: is) k (piece ++ out)

def argWords (lflag : Nat) (c : UInt8) : Nat :=
  if c = PERCENT then 0 else if [100, 117, 111, 120].contains c ∧ 2 ≤ lflag then 2 else 1

/-- Every argument for `%s` is a null pointer or points to a string. -/
def StringsValid (m : Nat → UInt8) (ap : Nat → BitVec 32) : List Item → Nat → Prop
  | [], _ => True
  | .text _ :: is, k => StringsValid m ap is k
  | .unknown mods :: is, k => StringsValid m ap is (modifiers ap mods k .start).1
  | .conversion mods c :: is, k =>
    (c = 115 → ap (modifiers ap mods k .start).1 = 0 ∨
      ∃ l, StringAt m (ap (modifiers ap mods k .start).1).toNat l) ∧
    StringsValid m ap is ((modifiers ap mods k .start).1 + argWords (modifiers ap mods k .start).2.lflag c)

theorem toInt_ofNat {n : Nat} (h : n < 2 ^ 31) : (BitVec.ofNat 32 n).toInt = n := by
  rw [BitVec.toInt_ofNat', Int.bmod_eq_of_le] <;> omega

section Parse

variable {l : List UInt8} {c : UInt8}

theorem items_text (h : c ≠ PERCENT) : items (c :: l) = .text c :: items l := by
  rw [items, if_pos h]

theorem items_conversion (h : isConversion ((l.dropWhile isModifier).headD 0) = true) :
    items (PERCENT :: l) = .conversion (l.takeWhile isModifier) ((l.dropWhile isModifier).headD 0) ::
      items (l.dropWhile isModifier).tail := by
  rw [items, if_neg (by simp), if_pos h]

theorem items_unknown (h : ¬ isConversion ((l.dropWhile isModifier).headD 0) = true) :
    items (PERCENT :: l) = .unknown (l.takeWhile isModifier) :: items l := by
  rw [items, if_neg (by simp), if_neg h]

theorem dropWhile_conversion (h : isConversion ((l.dropWhile isModifier).headD 0) = true) :
    ∃ d r, l.dropWhile isModifier = d :: r := by
  cases hd : l.dropWhile isModifier with
  | nil =>
    rw [hd] at h
    cases h
  | cons d r => exact ⟨d, r, rfl⟩

private theorem items_source (l : List UInt8) : (items l).flatMap Item.source = l := by
  fun_induction items l with
  | case1 => rfl
  | case2 c l hc ih => rw [List.flatMap_cons, ih]; rfl
  | case3 c l hc hconv ih =>
    obtain ⟨d, r, hd⟩ := dropWhile_conversion hconv
    rw [List.flatMap_cons, ih, hd, not_not.mp hc]
    change PERCENT :: (l.takeWhile isModifier ++ [d]) ++ r = _
    rw [List.cons_append, List.append_assoc, List.singleton_append, ← hd, List.takeWhile_append_dropWhile]
  | case4 c l hc hconv ih =>
    rw [List.flatMap_cons, ih, not_not.mp hc]
    rfl

end Parse

/-- `r` is what is left of the format at place `p`. -/
def Rest (l : List UInt8) (p : Nat) (r : List UInt8) : Prop := ∃ pre, l = pre ++ r ∧ pre.length = p

section Reading

variable {l r mods : List UInt8} {c : UInt8} {p q k fuel : Nat} {n : BitVec 32} {s : Escape}
  {ap : Nat → BitVec 32}

theorem Rest.nil (h : Rest l p []) : formatBytes l p = some 0 := by
  obtain ⟨pre, rfl, rfl⟩ := h
  simp [formatBytes]

theorem Rest.cons (h : Rest l p (c :: r)) : formatBytes l p = some c ∧ Rest l (p + 1) r := by
  obtain ⟨pre, rfl, rfl⟩ := h
  refine ⟨?_, pre ++ [c], by simp, by simp⟩
  simp [formatBytes]

theorem Rest.head (h : Rest l p r) : formatBytes l p = some (r.headD 0) := by
  cases r with
  | nil => exact h.nil
  | cons c r => exact h.cons.1

theorem Rest.append (h : Rest l p (mods ++ r)) : Rest l (p + mods.length) r := by
  obtain ⟨pre, rfl, rfl⟩ := h
  exact ⟨pre ++ mods, by simp, by simp⟩

theorem Rest.behind (h : Rest l p r) (hr : r.dropWhile isModifier = c :: mods) :
    Rest l (p + (r.takeWhile isModifier).length + 1) mods ∧ mods ⊆ r := by
  have hsplit : r = (r.takeWhile isModifier ++ [c]) ++ mods := by
    rw [List.append_assoc, List.singleton_append, ← hr, List.takeWhile_append_dropWhile]
  constructor
  · rw [hsplit] at h
    have happ := h.append
    rwa [List.length_append, List.length_singleton, ← Nat.add_assoc] at happ
  · intro d hd
    rw [hsplit]
    exact List.mem_append_right _ hd

theorem Rest.turn (h : Rest l p (c :: mods ++ r)) (hf : (c :: mods ++ r).length < fuel) :
    ∃ n, fuel = n + 1 ∧ formatBytes l p = some c ∧ Rest l (p + 1) (mods ++ r) ∧ (mods ++ r).length < n := by
  obtain ⟨n, rfl⟩ := Nat.exists_eq_add_one_of_ne_zero (Nat.ne_of_gt (Nat.zero_lt_of_lt hf))
  exact ⟨n, rfl, h.cons.1, h.cons.2, Nat.lt_of_succ_lt_succ hf⟩

/-- What is taken of two lists, when the second starts with a byte that is not taken. -/
theorem while_append (f : UInt8 → Bool) (h : f (r.headD 0) = false) (mods : List UInt8) :
    (mods ++ r).takeWhile f = mods.takeWhile f ∧ (mods ++ r).dropWhile f = mods.dropWhile f ++ r := by
  induction mods with
  | nil =>
    cases r with
    | nil => exact ⟨rfl, rfl⟩
    | cons c r =>
      have hc : ¬ f c = true := by simpa using h
      exact ⟨List.takeWhile_cons_of_neg hc, List.dropWhile_cons_of_neg hc⟩
  | cons c mods ih =>
    by_cases hc : f c = true
    · simp [hc, ih.1, ih.2]
    · simp [hc]

private theorem readNumber_spec (h : Rest l p r) (hf : r.length < fuel) :
    readNumber (formatBytes l) fuel c p n =
      some ((c :: r.takeWhile isDigit).foldl addDigit n, p + (r.takeWhile isDigit).length) := by
  induction r generalizing fuel c p n with
  | nil =>
    obtain ⟨fuel, rfl⟩ := Nat.exists_eq_add_one_of_ne_zero (Nat.ne_of_gt hf)
    rw [readNumber, h.nil]
    rfl
  | cons d r ih =>
    obtain ⟨fuel, rfl⟩ := Nat.exists_eq_add_one_of_ne_zero (Nat.ne_of_gt (Nat.zero_lt_of_lt hf))
    obtain ⟨hd, hrest⟩ := h.cons
    rw [readNumber, hd]
    dsimp only [Option.bind_eq_bind, Option.bind_some]
    by_cases hdigit : isDigit d = true
    · rw [if_pos hdigit, ih hrest (by simpa using hf), List.takeWhile_cons_of_pos hdigit]
      simp only [List.foldl_cons, List.length_cons]
      congr 2
      omega
    · rw [if_neg hdigit, List.takeWhile_cons_of_neg hdigit]
      rfl

private theorem reswitch_end (h : Rest l p r) (hr : isModifier (r.headD 0) = false) (hf : 0 < fuel) :
    reswitch (formatBytes l) ap fuel p k s = some (r.headD 0, p + 1, k, s) := by
  obtain ⟨fuel, rfl⟩ := Nat.exists_eq_add_one_of_ne_zero (Nat.ne_of_gt hf)
  simp only [isModifier, Bool.or_eq_false_iff, beq_eq_false_iff_ne, ne_eq] at hr
  obtain ⟨⟨⟨⟨⟨hdash, hdigit⟩, hstar⟩, hdot⟩, halt⟩, hlong⟩ := hr
  have hzero : r.headD 0 ≠ 48 := by
    intro h0
    rw [h0] at hdigit
    cases hdigit
  rw [reswitch, h.head]
  dsimp only [Option.bind_eq_bind, Option.bind_some]
  rw [if_neg hdash, if_neg hzero, if_neg (by rw [hdigit]; simp), if_neg hstar, if_neg hdot, if_neg halt, if_neg hlong]

private theorem place_cons (p : Nat) (c : UInt8) (mods : List UInt8) :
    p + (c :: mods).length + 1 = p + 1 + mods.length + 1 := by
  rw [List.length_cons]
  omega

/-- The loop over the modifiers does what the reference does with them. -/
theorem reswitch_spec (h : Rest l p (mods ++ r)) (hmods : ∀ c ∈ mods, isModifier c = true)
    (hr : isModifier (r.headD 0) = false) (hf : (mods ++ r).length < fuel) :
    reswitch (formatBytes l) ap fuel p k s =
      some (r.headD 0, p + mods.length + 1, (modifiers ap mods k s).1, (modifiers ap mods k s).2) := by
  have hend : isDigit (r.headD 0) = false := by
    simp only [isModifier, Bool.or_eq_false_iff] at hr
    exact hr.1.1.1.1.2
  fun_induction modifiers ap mods k s generalizing p fuel with
  | case1 k s => exact reswitch_end h hr (Nat.zero_lt_of_lt hf)
  | case2 l' k s ih =>
    obtain ⟨fuel, rfl, hc, hrest, hlt⟩ := h.turn hf
    rw [reswitch, hc, place_cons]
    exact ih hrest (List.forall_mem_cons.mp hmods).2 hlt
  | case3 l' k s _ ih =>
    obtain ⟨fuel, rfl, hc, hrest, hlt⟩ := h.turn hf
    rw [reswitch, hc, place_cons]
    exact ih hrest (List.forall_mem_cons.mp hmods).2 hlt
  | case4 c l' k s hdash hzero hdigit ih =>
    obtain ⟨fuel, rfl, hc, hrest, hf'⟩ := h.turn hf
    rw [reswitch, hc]
    dsimp only [Option.bind_eq_bind, Option.bind_some]
    rw [if_neg hdash, if_neg hzero, if_pos hdigit, readNumber_spec hrest hf', (while_append isDigit hend l').1]
    dsimp only [Option.bind_some]
    have hsplit : l' ++ r = l'.takeWhile isDigit ++ (l'.dropWhile isDigit ++ r) := by
      rw [← List.append_assoc, List.takeWhile_append_dropWhile]
    rw [hsplit] at hrest hf'
    have hlen : (l'.takeWhile isDigit).length + (l'.dropWhile isDigit).length = l'.length := by
      rw [← List.length_append, List.takeWhile_append_dropWhile]
    rw [ih hrest.append (fun c hc => hmods c (List.mem_cons_of_mem _ ((List.dropWhile_sublist _).subset hc)))
      (by rw [List.length_append] at hf'; omega), List.length_cons]
    congr 3
    omega
  | case5 l' k s _ _ _ ih =>
    obtain ⟨fuel, rfl, hc, hrest, hlt⟩ := h.turn hf
    rw [reswitch, hc, place_cons]
    exact ih hrest (List.forall_mem_cons.mp hmods).2 hlt
  | case6 l' k s _ _ _ _ ih =>
    obtain ⟨fuel, rfl, hc, hrest, hlt⟩ := h.turn hf
    rw [reswitch, hc, place_cons]
    exact ih hrest (List.forall_mem_cons.mp hmods).2 hlt
  | case7 l' k s _ _ _ _ _ ih =>
    obtain ⟨fuel, rfl, hc, hrest, hlt⟩ := h.turn hf
    rw [reswitch, hc, place_cons]
    exact ih hrest (List.forall_mem_cons.mp hmods).2 hlt
  | case8 c l' k s hdash hzero hdigit hstar hdot halt ih =>
    obtain ⟨fuel, rfl, hc, hrest, hlt⟩ := h.turn hf
    have hlong : c = 108 := by
      have hmod := hmods c List.mem_cons_self
      simpa [isModifier, hdash, hdigit, hstar, hdot, halt] using hmod
    rw [reswitch, hc, place_cons]
    dsimp only [Option.bind_eq_bind, Option.bind_some]
    rw [if_neg hdash, if_neg hzero, if_neg hdigit, if_neg hstar, if_neg hdot, if_neg halt, if_pos hlong]
    exact ih hrest (List.forall_mem_cons.mp hmods).2 hlt

theorem backUp_spec (h : Rest l p (PERCENT :: mods ++ r)) (hmods : PERCENT ∉ mods) {j : Nat} (hj : j ≤ mods.length)
    (hf : j < fuel) : backUp (formatBytes l) fuel (p + 1 + j) = some (p + 1) := by
  induction j generalizing fuel with
  | zero =>
    obtain ⟨fuel, rfl⟩ := Nat.exists_eq_add_one_of_ne_zero (Nat.ne_of_gt hf)
    rw [backUp, if_neg (by omega)]
    change (formatBytes l p >>= _) = _
    rw [h.cons.1]
    rfl
  | succ j ih =>
    obtain ⟨fuel, rfl⟩ := Nat.exists_eq_add_one_of_ne_zero (Nat.ne_of_gt (Nat.zero_lt_of_lt hf))
    have hlt : j < mods.length := by omega
    have hsplit : mods = mods.take j ++ mods[j] :: mods.drop (j + 1) := by
      rw [List.getElem_cons_drop, List.take_append_drop]
    have hrest : Rest l (p + 1) (mods ++ r) := h.cons.2
    rw [hsplit, List.append_assoc] at hrest
    have hbyte : formatBytes l (p + 1 + j) = some mods[j] := by
      have hthere := hrest.append.cons.1
      rwa [List.length_take, Nat.min_eq_left hlt.le] at hthere
    have hne : mods[j] ≠ PERCENT := fun he => hmods (he ▸ List.getElem_mem hlt)
    rw [backUp, if_neg (by omega)]
    change (formatBytes l (p + 1 + j) >>= _) = _
    rw [hbyte]
    dsimp only [Option.bind_eq_bind, Option.bind_some]
    rw [if_pos hne]
    exact ih (by omega) (by omega)

end Reading

section Runs

variable {l r : List UInt8} {m : Nat → UInt8} {ap : Nat → BitVec 32} {p k : Nat} {out : List Int}

private theorem modifier_not_conversion : ∀ c : UInt8, isModifier c = true → isConversion c = false := by
  decide +kernel

theorem conversion_not_modifier {c : UInt8} (h : isConversion c = true) : isModifier c = false := by
  by_contra hm
  rw [modifier_not_conversion c (by simpa using hm)] at h
  cases h

private theorem head_dropWhile_modifier (l : List UInt8) : isModifier ((l.dropWhile isModifier).headD 0) = false := by
  have hhead := List.head?_dropWhile_not isModifier l
  rw [List.headD_eq_head?_getD]
  cases hd : (l.dropWhile isModifier).head? with
  | none => rfl
  | some c =>
    rw [hd] at hhead
    simpa using hhead

theorem reswitch_escape {fuel : Nat} {s : Escape} (h : Rest l p r) (hf : r.length < fuel) :
    reswitch (formatBytes l) ap fuel p k s =
      some ((r.dropWhile isModifier).headD 0, p + (r.takeWhile isModifier).length + 1,
        (modifiers ap (r.takeWhile isModifier) k s).1, (modifiers ap (r.takeWhile isModifier) k s).2) := by
  have hsplit : r.takeWhile isModifier ++ r.dropWhile isModifier = r := List.takeWhile_append_dropWhile
  apply reswitch_spec
  · rwa [hsplit]
  · exact fun c hc => List.mem_takeWhile_imp hc
  · exact head_dropWhile_modifier r
  · rwa [hsplit]

/-- What is emitted for the rest of a format is what `vprintfmt` prints from there on. -/
theorem vprintfmt_rest (h : Rest l p r) (h0 : (0 : UInt8) ∉ r) (he : Emits m ap (items r) k out) :
    ∃ F, ∀ fuel ≥ F, vprintfmt fuel (formatBytes l) m ap p k = some out := by
  fun_induction items r generalizing p k out with
  | case1 =>
    cases he
    refine ⟨1, fun fuel hf => ?_⟩
    obtain ⟨fuel, rfl⟩ := Nat.exists_eq_add_one_of_ne_zero (Nat.ne_of_gt hf)
    rw [vprintfmt, h.nil]
    rfl
  | case2 c r hc ih =>
    obtain ⟨hbyte, hrest⟩ := h.cons
    simp only [List.mem_cons, not_or] at h0
    cases he with
    | text he =>
    obtain ⟨F, hF⟩ := ih hrest h0.2 he
    refine ⟨F + 1, fun fuel hf => ?_⟩
    obtain ⟨fuel, rfl⟩ := Nat.exists_eq_add_one_of_ne_zero (Nat.ne_of_gt (Nat.zero_lt_of_lt hf))
    rw [vprintfmt, hbyte]
    dsimp only [Option.bind_eq_bind, Option.bind_some]
    rw [if_neg (Ne.symm h0.1), if_pos hc, hF fuel (by omega)]
    rfl
  | case3 c r hc hconv ih =>
    obtain ⟨hbyte, hrest⟩ := h.cons
    simp only [List.mem_cons, not_or] at h0
    obtain ⟨d, r', hd⟩ := dropWhile_conversion hconv
    cases he with
    | conversion hpiece he =>
    obtain ⟨hbehind, hsub⟩ := hrest.behind hd
    rw [hd, List.tail_cons] at ih he
    obtain ⟨F, hF⟩ := ih hbehind (fun hm => h0.2 (hsub hm)) he
    obtain ⟨G, hG⟩ := hpiece
    refine ⟨F + G + r.length + 2, fun fuel hf => ?_⟩
    obtain ⟨fuel, rfl⟩ := Nat.exists_eq_add_one_of_ne_zero (Nat.ne_of_gt (Nat.zero_lt_of_lt hf))
    rw [vprintfmt, hbyte]
    dsimp only [Option.bind_eq_bind, Option.bind_some]
    rw [if_neg (Ne.symm h0.1), if_neg hc, reswitch_escape hrest (by omega)]
    dsimp only [Option.bind_some]
    rw [if_pos hconv, hG fuel (by omega)]
    dsimp only [Option.bind_some]
    rw [hF fuel (by omega)]
    rfl
  | case4 c r hc hconv ih =>
    obtain ⟨hbyte, hrest⟩ := h.cons
    simp only [List.mem_cons, not_or] at h0
    cases he with
    | unknown he =>
    obtain ⟨F, hF⟩ := ih hrest h0.2 he
    refine ⟨F + r.length + 2, fun fuel hf => ?_⟩
    obtain ⟨fuel, rfl⟩ := Nat.exists_eq_add_one_of_ne_zero (Nat.ne_of_gt (Nat.zero_lt_of_lt hf))
    have hlen : (r.takeWhile isModifier).length ≤ r.length := (List.takeWhile_sublist _).length_le
    have hback : backUp (formatBytes l) fuel (p + 1 + (r.takeWhile isModifier).length) = some (p + 1) := by
      refine @backUp_spec l (r.dropWhile isModifier) (r.takeWhile isModifier) p fuel ?_ ?_ _ ?_ ?_
      · rw [List.cons_append, List.takeWhile_append_dropWhile, ← not_not.mp hc]
        exact h
      · intro hm
        have hmod := List.mem_takeWhile_imp hm
        revert hmod
        decide
      · exact le_rfl
      · omega
    rw [vprintfmt, hbyte]
    dsimp only [Option.bind_eq_bind, Option.bind_some]
    rw [if_neg (Ne.symm h0.1), if_neg hc, reswitch_escape hrest (by omega)]
    dsimp only [Option.bind_some]
    rw [if_neg hconv, Nat.add_sub_cancel, hback]
    dsimp only [Option.bind_some]
    rw [hF fuel (by omega)]
    rfl

end Runs

section Conversions

variable {l r t : List UInt8} {m : Nat → UInt8} {ap : Nat → BitVec 32} {p k : Nat} {s : Escape} {c : UInt8}

private theorem strnlen_ends (h : StringAt m p t) (size : Nat) :
    ∃ n, ∀ fuel, t.length < fuel → strnlen m fuel p size = some n := by
  induction t generalizing p size with
  | nil =>
    refine ⟨0, fun fuel hf => ?_⟩
    obtain ⟨fuel, rfl⟩ := Nat.exists_eq_add_one_of_ne_zero (Nat.ne_of_gt hf)
    exact if_neg fun hc => hc.2 h
  | cons c t ih =>
    obtain ⟨n, hn⟩ := ih h.2.2 (size - 1)
    by_cases hc : 0 < size ∧ m p ≠ 0
    · refine ⟨n + 1, fun fuel hf => ?_⟩
      obtain ⟨fuel, rfl⟩ := Nat.exists_eq_add_one_of_ne_zero (Nat.ne_of_gt (Nat.zero_lt_of_lt hf))
      rw [strnlen, if_pos hc, hn fuel (Nat.lt_of_succ_lt_succ hf)]
      rfl
    · refine ⟨0, fun fuel hf => ?_⟩
      obtain ⟨fuel, rfl⟩ := Nat.exists_eq_add_one_of_ne_zero (Nat.ne_of_gt (Nat.zero_lt_of_lt hf))
      exact if_neg hc

private theorem putString_ends (h : StringAt m p t) (altflag : Bool) (precision width : BitVec 32) :
    ∃ x, ∀ fuel, t.length < fuel → putString m altflag fuel p precision width = some x := by
  induction t generalizing p precision width with
  | nil =>
    refine ⟨([], width), fun fuel hf => ?_⟩
    obtain ⟨fuel, rfl⟩ := Nat.exists_eq_add_one_of_ne_zero (Nat.ne_of_gt hf)
    exact if_neg fun hc => hc.1 h
  | cons c t ih =>
    obtain ⟨x, hx⟩ := ih h.2.2 (if precision.toInt < 0 then precision else precision - 1) (width - 1)
    by_cases hc : m p ≠ 0 ∧ (precision.toInt < 0 ∨ 0 ≤ (precision - 1).toInt)
    · refine ⟨(shown altflag (m p) :: x.1, x.2), fun fuel hf => ?_⟩
      obtain ⟨fuel, rfl⟩ := Nat.exists_eq_add_one_of_ne_zero (Nat.ne_of_gt (Nat.zero_lt_of_lt hf))
      rw [putString, if_pos hc, hx fuel (Nat.lt_of_succ_lt_succ hf)]
      rfl
    · refine ⟨([], width), fun fuel hf => ?_⟩
      obtain ⟨fuel, rfl⟩ := Nat.exists_eq_add_one_of_ne_zero (Nat.ne_of_gt (Nat.zero_lt_of_lt hf))
      exact if_neg hc

private theorem convertString_ends (h : StringAt m p t) (s : Escape) :
    ∃ out, ∀ fuel, t.length < fuel → convertString fuel m p s = some out := by
  obtain ⟨n, hn⟩ := strnlen_ends h s.precision.toNat
  by_cases hc : 0 < s.width.toInt ∧ s.padc ≠ 45
  · obtain ⟨x, hx⟩ := putString_ends h s.altflag s.precision
      (if 0 < (s.width - BitVec.ofNat 32 n).toInt then 0 else s.width - BitVec.ofNat 32 n)
    refine ⟨List.replicate (s.width - BitVec.ofNat 32 n).toInt.toNat s.padc ++ x.1 ++
      List.replicate x.2.toInt.toNat 32, fun fuel hf => ?_⟩
    rw [convertString, if_pos hc, hn fuel hf]
    dsimp only [Option.bind_eq_bind, Option.bind_some]
    rw [hx fuel hf]
    rfl
  · obtain ⟨x, hx⟩ := putString_ends h s.altflag s.precision s.width
    refine ⟨[] ++ x.1 ++ List.replicate x.2.toInt.toNat 32, fun fuel hf => ?_⟩
    rw [convertString, if_neg hc]
    dsimp only [Option.bind_eq_bind, Option.bind_some]
    rw [hx fuel hf]
    rfl

private theorem stringArg_valid (h : ap k = 0 ∨ ∃ l, StringAt m (ap k).toNat l) :
    ∃ t, StringAt (stringArg m (ap k)).1 (stringArg m (ap k)).2 t := by
  rw [stringArg]
  split
  · exact ⟨nullText, stringAt_memoryOf (by decide)⟩
  · next hne => exact h.resolve_left hne

theorem argWords_int (hc : c ∈ [100, 117, 111, 120]) (ap : Nat → BitVec 32) (k lflag : Nat) :
    (getint ap k lflag).2 = argWords lflag c ∧ (getuint ap k lflag).2 = argWords lflag c := by
  have hwords : argWords lflag c = if 2 ≤ lflag then 2 else 1 := by
    have hne : c ≠ PERCENT := by
      rintro rfl
      revert hc
      decide
    simp [argWords, hne, hc]
  rw [hwords, getint, getuint]
  constructor
  · split <;> rfl
  · split <;> rfl

private theorem converts_int (hc : c ∈ [100, 117, 111, 120]) : ∃ out, Converts m ap k s c out (argWords s.lflag c) := by
  obtain ⟨hint, huint⟩ := argWords_int hc ap k s.lflag
  simp only [List.mem_cons, List.not_mem_nil, or_false] at hc
  rcases hc with rfl | rfl | rfl | rfl
  · by_cases hneg : (getint ap k s.lflag).1.toInt < 0
    · refine ⟨45 :: printnum (printnumArg (-(getint ap k s.lflag).1)) 10 s.width s.padc, 0, fun fuel _ => ?_⟩
      rw [← hint]
      exact if_pos hneg
    · refine ⟨printnum (printnumArg (getint ap k s.lflag).1) 10 s.width s.padc, 0, fun fuel _ => ?_⟩
      rw [← hint]
      exact if_neg hneg
  · rw [← huint]
    exact ⟨_, 0, fun fuel _ => rfl⟩
  · rw [← huint]
    exact ⟨_, 0, fun fuel _ => rfl⟩
  · rw [← huint]
    exact ⟨_, 0, fun fuel _ => rfl⟩

private theorem converts_simple (hc : isConversion c = true) (he : c ≠ 101)
    (hs : c = 115 → ap k = 0 ∨ ∃ l, StringAt m (ap k).toNat l) : ∃ out, Converts m ap k s c out (argWords s.lflag c) := by
  by_cases hint : c ∈ [100, 117, 111, 120]
  · exact converts_int hint
  simp only [isConversion, List.contains_iff_mem, List.mem_cons, List.not_mem_nil, or_false, not_or] at hc hint
  obtain ⟨hd, hu, ho, hx⟩ := hint
  rcases hc with rfl | rfl | rfl | rfl | rfl | rfl | rfl | rfl | rfl
  · exact ⟨_, 0, fun fuel _ => rfl⟩
  · exact absurd rfl he
  · obtain ⟨t, ht⟩ := stringArg_valid (hs rfl)
    obtain ⟨out, hout⟩ := convertString_ends ht s
    refine ⟨out, t.length + 1, fun fuel hf => ?_⟩
    change (convertString fuel _ _ s).map _ = _
    rw [hout fuel hf]
    rfl
  · exact absurd rfl hd
  · exact absurd rfl hu
  · exact absurd rfl ho
  · exact ⟨_, 0, fun fuel _ => rfl⟩
  · exact absurd rfl hx
  · exact ⟨_, 0, fun fuel _ => rfl⟩

theorem exists_emits (P : UInt8 → Prop) (hP : ∀ c k s, P c → isConversion c = true →
      (c = 115 → ap k = 0 ∨ ∃ l, StringAt m (ap k).toNat l) → ∃ out, Converts m ap k s c out (argWords s.lflag c))
    (r : List UInt8) (hr : ∀ mods c, Item.conversion mods c ∈ items r → P c) (k : Nat)
    (hv : StringsValid m ap (items r) k) : ∃ out, Emits m ap (items r) k out := by
  fun_induction items r generalizing k with
  | case1 => exact ⟨[], .done k⟩
  | case2 c r hc ih =>
    obtain ⟨out, he⟩ := ih (fun mods d hd => hr mods d (List.mem_cons_of_mem _ hd)) k hv
    exact ⟨_, .text he⟩
  | case3 c r hc hconv ih =>
    obtain ⟨hstring, hv⟩ := hv
    obtain ⟨piece, hpiece⟩ := hP _ _ _ (hr _ _ List.mem_cons_self) hconv hstring
    obtain ⟨out, he⟩ := ih (fun mods d hd => hr mods d (List.mem_cons_of_mem _ hd)) _ hv
    exact ⟨_, .conversion hpiece he⟩
  | case4 c r hc hconv ih =>
    obtain ⟨out, he⟩ := ih (fun mods d hd => hr mods d (List.mem_cons_of_mem _ hd)) _ hv
    exact ⟨_, .unknown he⟩

private theorem vprintfmt_simple (h0 : (0 : UInt8) ∉ r) (he : ∀ mods c, Item.conversion mods c ∈ items r → c ≠ 101)
    (hv : StringsValid m ap (items r) 0) :
    ∃ out F, ∀ fuel ≥ F, vprintfmt fuel (formatBytes r) m ap 0 0 = some out := by
  obtain ⟨out, hout⟩ := exists_emits (· ≠ 101) (fun c k s hc hconv hs => converts_simple hconv hc hs) r he 0 hv
  obtain ⟨F, hF⟩ := vprintfmt_rest ⟨[], rfl, rfl⟩ h0 hout
  exact ⟨out, F, hF⟩

theorem items_errorFormat : items "error %d".toUTF8.toList =
    [.text 101, .text 114, .text 114, .text 111, .text 114, .text 32, .conversion [] 100] := by
  have hbytes : "error %d".toUTF8.toList = [101, 114, 114, 111, 114, 32, PERCENT, 100] := by decide +kernel
  rw [hbytes]
  simp only [items_text (show (101 : UInt8) ≠ PERCENT by decide), items_text (show (114 : UInt8) ≠ PERCENT by decide),
    items_text (show (111 : UInt8) ≠ PERCENT by decide), items_text (show (32 : UInt8) ≠ PERCENT by decide)]
  rw [items_conversion (by decide)]
  simp [items, isModifier, isDigit]

theorem items_stringFormat : items "%s".toUTF8.toList = [.conversion [] 115] := by
  have hbytes : "%s".toUTF8.toList = [PERCENT, 115] := by decide +kernel
  rw [hbytes, items_conversion (by decide)]
  simp [items, isModifier, isDigit]

private theorem errorTexts_zero : ∀ s ∈ errorTexts, (0 : UInt8) ∉ s.toUTF8.toList := by decide +kernel

theorem errorString_zero {err : BitVec 32} (h : errorString err = some t) : (0 : UInt8) ∉ t := by
  rw [errorString] at h
  split at h
  · cases h
  · obtain ⟨s, hs, rfl⟩ := Option.map_eq_some_iff.mp h
    exact errorTexts_zero s (List.mem_of_getElem? hs)

private theorem converts_error (m : Nat → UInt8) (ap : Nat → BitVec 32) (k : Nat) (s : Escape) :
    ∃ out, Converts m ap k s 101 out 1 := by
  -- both formats that `%e` uses are simple
  have hone (m : Nat → UInt8) (err : BitVec 32) : ∃ out F, ∀ fuel ≥ F,
      vprintfmt fuel (formatBytes "error %d".toUTF8.toList) m (fun _ => err) 0 0 = some out := by
    apply vprintfmt_simple
    · decide +kernel
    · rw [items_errorFormat]
      intro mods c hc
      simp only [List.mem_cons, reduceCtorEq, false_or, Item.conversion.injEq, List.not_mem_nil, or_false] at hc
      rw [hc.2]
      decide
    · rw [items_errorFormat]
      exact ⟨fun h => absurd h (by decide), trivial⟩
  have htwo (t : List UInt8) (ht : (0 : UInt8) ∉ t) : ∃ out F, ∀ fuel ≥ F,
      vprintfmt fuel (formatBytes "%s".toUTF8.toList) (fun x => memoryOf t (x - 1)) (fun _ => 1) 0 0 = some out := by
    apply vprintfmt_simple
    · decide +kernel
    · rw [items_stringFormat]
      intro mods c hc
      simp only [List.mem_cons, Item.conversion.injEq, List.not_mem_nil, or_false] at hc
      rw [hc.2]
      decide
    · rw [items_stringFormat]
      exact ⟨fun _ => .inr ⟨t, (stringAt_memoryOf ht).moved 1⟩, trivial⟩
  generalize hp : (fun fuel (l : List UInt8) m ap => vprintfmt fuel (formatBytes l) m ap 0 0) = printfmt
  have hends : ∃ out F, ∀ fuel ≥ F, convertError (printfmt fuel) m (ap k) = some out := by
    subst hp
    simp only [convertError]
    generalize (if (ap k).toInt < 0 then -ap k else ap k) = err
    by_cases hlarge : (errorStrings : Int) ≤ err.toInt
    · rw [if_pos hlarge]
      exact hone m err
    · rw [if_neg hlarge]
      cases htext : errorString err with
      | none => exact hone m err
      | some t => exact htwo t (errorString_zero htext)
  obtain ⟨out, F, hF⟩ := hends
  subst hp
  refine ⟨out, F, fun fuel hf => ?_⟩
  change (convertError _ m (ap k)).map _ = _
  rw [hF fuel hf]
  rfl

theorem converts_ends (hc : isConversion c = true) (hs : c = 115 → ap k = 0 ∨ ∃ l, StringAt m (ap k).toNat l) :
    ∃ out, Converts m ap k s c out (argWords s.lflag c) := by
  by_cases he : c = 101
  · subst he
    exact converts_error m ap k s
  · exact converts_simple hc he hs

end Conversions

/-- `vprintfmt` comes to an end for every format, without a byte of it beyond the terminator, and prints the text of
the format in order with the conversions in between. -/
theorem vprintfmt_text (m : Nat → UInt8) (ap : Nat → BitVec 32) (l : List UInt8) (h0 : (0 : UInt8) ∉ l)
    (hv : StringsValid m ap (items l) 0) : (items l).flatMap Item.source = l ∧
      ∃ out, Emits m ap (items l) 0 out ∧ ∃ F, ∀ fuel ≥ F, vprintfmt fuel (formatBytes l) m ap 0 0 = some out := by
  obtain ⟨out, hout⟩ := exists_emits (fun _ => True) (fun c k s _ hconv hs => converts_ends hconv hs) l
    (fun _ _ _ => trivial) 0 hv
  exact ⟨items_source l, out, hout, vprintfmt_rest ⟨[], rfl, rfl⟩ h0 hout⟩

/-- The format `a%y%`, with an unknown escape and one that is cut off. -/
theorem vprintfmt_text_sample : (items [97, 37, 121, 37]).flatMap Item.source = [97, 37, 121, 37] ∧
    ∃ out, Emits (fun _ => 0) (fun _ => 0) (items [97, 37, 121, 37]) 0 out ∧ ∃ F, ∀ fuel ≥ F,
      vprintfmt fuel (formatBytes [97, 37, 121, 37]) (fun _ => 0) (fun _ => 0) 0 0 = some out :=
  vprintfmt_text (fun _ => 0) (fun _ => 0) [97, 37, 121, 37] (by decide) (by
    simp [items, PERCENT, isModifier, isDigit, isConversion, StringsValid])

end DamnOS.Programs
