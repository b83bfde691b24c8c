import DamnOS.Programs.Numerals

/-!
# String fields

`%s` with flags, a width and a precision.  The width is counted down by `strnlen` and again by the characters, so that
the count leaves the range of an `int` when the string is very long.
-/

namespace DamnOS.Programs

open DamnOS.Framework

/-- A width or a precision: a numeral of the format, or an argument for `*`. -/
inductive Amount where
  | absent
  | numeral (n : Nat)
  | argument (n : Nat)
  deriving DecidableEq

namespace Amount

def value : Amount → Option Nat
  | absent => none
  | numeral n => some n
  | argument n => some n

/-- The decimal numeral of `n` as bytes of a format. -/
def decimal (n : Nat) : List UInt8 := (Nat.digits 10 n).reverse.map fun d => UInt8.ofNat (48 + d)

def source : Amount → List UInt8
  | absent => []
  | numeral n => decimal n
  | argument _ => [42]

def words : Amount → Nat
  | argument _ => 1
  | _ => 0

/-- A numeral does not start with 0, numbers fit an `int`, and the one for `*` is at argument word `k`. -/
def Passed (ap : Nat → BitVec 32) (k : Nat) : Amount → Prop
  | absent => True
  | numeral n => 0 < n ∧ n < 2 ^ 31
  | argument n => n < 2 ^ 31 ∧ ap k = BitVec.ofNat 32 n

/-- The characters of a precision, with its dot. -/
def dotted (a : Amount) : List UInt8 := if a = absent then [] else 46 :: a.source

end Amount

def fieldModifiers (flags : List UInt8) (width precision : Amount) : List UInt8 :=
  flags ++ (width.source ++ precision.dotted)

/-- `%s` with its flags, width and precision. -/
def stringEscape (flags : List UInt8) (width precision : Amount) : List UInt8 :=
  PERCENT :: fieldModifiers flags width precision ++ [115]

def padOf (flags : List UInt8) : Int := (flags.getLastD 32).toNat

/-- The first characters of the string, as many as the precision allows. -/
def fieldText (precision : Amount) (t : List UInt8) : List UInt8 :=
  match precision.value with
  | none => t
  | some n => t.take n

def stringField (flags : List UInt8) (width precision : Amount) (t : List UInt8) : List Int :=
  let text := (fieldText precision t).map charInt
  let pads := width.value.getD 0 - text.length
  if padOf flags = 45 then text ++ List.replicate pads 32 else List.replicate pads (padOf flags) ++ text

def widthVariable (width precision : Amount) : Int :=
  match width.value with
  | none => if precision = .absent then -1 else 0
  | some n => n

/-- The width stays in the range of an `int` while it is counted down, or comes back to where nothing is printed. -/
def CountFits (flags : List UInt8) (width : Int) (count : Nat) : Prop :=
  if 0 < width ∧ padOf flags ≠ 45 then
    2 * (count : Int) ≤ width + 2 ^ 31 ∨ 2 ^ 32 + width ≤ 2 * (count : Int) ∧ (count : Int) ≤ width + 2 ^ 31
  else (count : Int) ≤ width + 2 ^ 31

section Decimal

variable {n : Nat} {c : UInt8}

private theorem isDigit_ofNat {d : Nat} (hd : d < 10) : isDigit (UInt8.ofNat (48 + d)) = true := by
  revert d
  decide

private theorem decimal_isDigit (n : Nat) : ∀ c ∈ Amount.decimal n, isDigit c = true := by
  intro c hc
  obtain ⟨d, hd, rfl⟩ := List.mem_map.mp hc
  exact isDigit_ofNat (Nat.digits_lt_base (by decide) (List.mem_reverse.mp hd))

private theorem addDigit_ofNat (x : Nat) {d : Nat} (hd : d < 10) :
    addDigit (BitVec.ofNat 32 x) (UInt8.ofNat (48 + d)) = BitVec.ofNat 32 (d + 10 * x) := by
  have hchar : (UInt8.ofNat (48 + d)).toNat = 48 + d := by
    rw [UInt8.toNat_ofNat']
    exact Nat.mod_eq_of_lt (by omega)
  have hten : (10 : BitVec 32).toNat = 10 := rfl
  have hzero : (48 : BitVec 32).toNat = 48 := rfl
  apply BitVec.eq_of_toNat_eq
  rw [addDigit, hchar]
  simp only [BitVec.toNat_sub, BitVec.toNat_add, BitVec.toNat_mul, BitVec.toNat_ofNat, hten, hzero]
  omega

private theorem foldl_decimal (n : Nat) : (Amount.decimal n).foldl addDigit 0 = BitVec.ofNat 32 n := by
  have hdigits : ∀ ds : List Nat, (∀ d ∈ ds, d < 10) →
      (ds.reverse.map fun d => UInt8.ofNat (48 + d)).foldl addDigit 0 = BitVec.ofNat 32 (Nat.ofDigits 10 ds) := by
    intro ds hds
    induction ds with
    | nil => rfl
    | cons d ds ih =>
      rw [List.reverse_cons, List.map_append, List.foldl_append, ih fun e he => hds e (List.mem_cons_of_mem _ he)]
      exact addDigit_ofNat _ (hds d List.mem_cons_self)
  have hread := hdigits (Nat.digits 10 n) fun d hd => Nat.digits_lt_base (by decide) hd
  rwa [Nat.ofDigits_digits] at hread

private theorem decimal_cons (hn : 0 < n) : ∃ c l, Amount.decimal n = c :: l ∧ c ≠ 48 := by
  have hdigits : Nat.digits 10 n ≠ [] := Nat.digits_ne_nil_iff_ne_zero.mpr hn.ne'
  have hne := Nat.getLast_digit_ne_zero 10 hn.ne'
  have hlt := Nat.digits_lt_base (by decide : 1 < 10) (List.getLast_mem hdigits)
  have hchar : ∀ d < 10, d ≠ 0 → UInt8.ofNat (48 + d) ≠ 48 := by decide
  refine ⟨UInt8.ofNat (48 + (Nat.digits 10 n).getLast hdigits),
    ((Nat.digits 10 n).dropLast.reverse.map fun d => UInt8.ofNat (48 + d)), ?_, hchar _ hlt hne⟩
  rw [Amount.decimal]
  conv_lhs => rw [← List.dropLast_concat_getLast hdigits]
  rw [List.reverse_concat, List.map_cons]

end Decimal

section Modifiers

variable {ap : Nat → BitVec 32} {k : Nat} {l flags : List UInt8} {width precision : Amount} {s : Escape}

private theorem modifiers_flags (hflags : ∀ c ∈ flags, c = 45 ∨ c = 48) (c : UInt8) (hs : s.padc = c.toNat) :
    modifiers ap (flags ++ l) k s = modifiers ap l k { s with padc := (flags.getLastD c).toNat } := by
  induction flags generalizing c s with
  | nil =>
    rw [List.nil_append, List.getLastD_nil, ← hs]
  | cons d flags ih =>
    have hrest := fun s' => @ih s' fun e he => hflags e (List.mem_cons_of_mem _ he)
    have hpad : (d :: flags).getLastD c = flags.getLastD d := by
      rw [List.getLastD_cons]
    rw [List.cons_append, hpad]
    rcases hflags d List.mem_cons_self with rfl | rfl
    · rw [modifiers, if_pos rfl, hrest { s with padc := 45 } 45 rfl]
    · rw [modifiers, if_neg (by decide), if_pos rfl, hrest { s with padc := 48 } 48 rfl]

private theorem modifiers_decimal {n : Nat} (hn : 0 < n) (hl : isDigit (l.headD 0) = false) :
    modifiers ap (Amount.decimal n ++ l) k s = modifiers ap l k (s.number (BitVec.ofNat 32 n)) := by
  obtain ⟨c, cs, hc, hne⟩ := decimal_cons hn
  have hall := decimal_isDigit n
  have hread := foldl_decimal n
  rw [hc] at hall hread ⊢
  have hdigit : isDigit c = true := hall c List.mem_cons_self
  have hcs : ∀ d ∈ cs, isDigit d = true := fun d hd => hall d (List.mem_cons_of_mem _ hd)
  have hwhile := while_append isDigit hl cs
  rw [List.takeWhile_eq_self_iff.mpr hcs, List.dropWhile_eq_nil_iff.mpr hcs, List.nil_append] at hwhile
  have hdash : c ≠ 45 := by
    rintro rfl
    cases hdigit
  rw [List.cons_append, modifiers, if_neg hdash, if_neg hne, if_pos hdigit, hwhile.1, hwhile.2, hread]

private theorem modifiers_amount {a : Amount} (ha : a.Passed ap k) (hl : isDigit (l.headD 0) = false) :
    modifiers ap (a.source ++ l) k s =
      modifiers ap l (k + a.words) (a.value.elim s fun n => s.number (BitVec.ofNat 32 n)) := by
  cases a with
  | absent => rfl
  | numeral n => exact modifiers_decimal ha.1 hl
  | argument n =>
    change modifiers ap (42 :: l) k s = modifiers ap l (k + 1) (s.number (BitVec.ofNat 32 n))
    rw [modifiers, if_neg (by decide), if_neg (by decide), if_neg (by decide), if_pos rfl, ha.2]

private theorem Amount.Passed.value_lt {a : Amount} (h : a.Passed ap k) {n : Nat} (hn : a.value = some n) :
    n < 2 ^ 31 := by
  cases a with
  | absent => cases hn
  | numeral n' =>
    cases hn
    exact h.2
  | argument n' =>
    cases hn
    exact h.1

def fieldEscape (flags : List UInt8) (width precision : Amount) : Escape where
  padc := padOf flags
  width := BitVec.ofInt 32 (widthVariable width precision)
  precision := precision.value.elim (-1) (BitVec.ofNat 32)
  lflag := 0
  altflag := false

private theorem number_width {n : BitVec 32} (hs : s.width = -1) :
    s.number n = { s with width := n, precision := -1 } := by
  rw [Escape.number, Escape.processPrecision]
  apply if_pos
  change s.width.toInt < 0
  rw [hs]
  decide

private theorem number_precision {n : BitVec 32} (hs : 0 ≤ s.width.toInt) : s.number n = { s with precision := n } :=
  if_neg (not_lt.mpr hs)

private theorem dot_width (hs : 0 ≤ s.width.toInt) : s.dot = s := if_neg (not_lt.mpr hs)

private theorem dotted_head (precision : Amount) : isDigit (precision.dotted.headD 0) = false := by
  rw [Amount.dotted]
  split <;> rfl

private theorem modifiers_dotted (hs : 0 ≤ s.dot.width.toInt) (hp : precision.Passed ap k) (hne : precision ≠ .absent) :
    modifiers ap precision.dotted k s =
      (k + precision.words, { s.dot with precision := precision.value.elim s.dot.precision (BitVec.ofNat 32) }) := by
  have hsource := modifiers_amount (l := []) (s := s.dot) hp rfl
  rw [List.append_nil] at hsource
  rw [Amount.dotted, if_neg hne, modifiers, if_neg (by decide), if_neg (by decide), if_neg (by decide), if_neg (by decide),
    if_pos rfl, hsource]
  cases hvalue : precision.value with
  | none => simp [modifiers]
  | some n =>
    rw [Option.elim_some, number_precision hs, modifiers]
    rfl

private theorem modifiers_field (hflags : ∀ c ∈ flags, c = 45 ∨ c = 48) (hw : width.Passed ap k)
    (hp : precision.Passed ap (k + width.words)) :
    modifiers ap (fieldModifiers flags width precision) k .start =
      (k + width.words + precision.words, fieldEscape flags width precision) := by
  rw [fieldModifiers, modifiers_flags hflags 32 rfl, modifiers_amount hw (dotted_head precision)]
  change modifiers ap precision.dotted (k + width.words)
    (width.value.elim ⟨padOf flags, -1, -1, 0, false⟩ fun n => Escape.number ⟨padOf flags, -1, -1, 0, false⟩ _) = _
  have hwidth : (width.value.elim ⟨padOf flags, -1, -1, 0, false⟩ fun n =>
      Escape.number ⟨padOf flags, -1, -1, 0, false⟩ (BitVec.ofNat 32 n)) =
        ⟨padOf flags, width.value.elim (-1) (BitVec.ofNat 32), -1, 0, false⟩ := by
    cases width.value with
    | none => rfl
    | some n => exact number_width rfl
  rw [hwidth, fieldEscape, widthVariable]
  by_cases hne : precision = .absent
  · rw [hne, if_pos rfl]
    change modifiers ap [] _ _ = _
    rw [modifiers]
    cases width.value with
    | none => rfl
    | some n => rfl
  · rw [if_neg hne]
    cases hvalue : width.value with
    | none =>
      have hzero : 0 ≤ (Escape.dot ⟨padOf flags, -1, -1, 0, false⟩).width.toInt :=
        show (0 : Int) ≤ (0 : BitVec 32).toInt by decide
      exact modifiers_dotted hzero hp hne
    | some n =>
      have hn : 0 ≤ (BitVec.ofNat 32 n).toInt := by
        rw [toInt_ofNat (hw.value_lt hvalue)]
        omega
      rw [modifiers_dotted (by rw [dot_width hn]; exact hn) hp hne, dot_width hn]
      rfl

end Modifiers

section Characters

variable {m : Nat → UInt8} {t : List UInt8} {p fuel size : Nat} {precision width : BitVec 32} {s : Escape}

private theorem strnlen_spec (h : StringAt m p t) (size : Nat) (hf : t.length < fuel) :
    strnlen m fuel p size = some (min t.length size) := by
  induction t generalizing p size fuel with
  | nil =>
    obtain ⟨fuel, rfl⟩ := Nat.exists_eq_add_one_of_ne_zero (Nat.ne_of_gt hf)
    rw [strnlen, if_neg (fun hc => hc.2 h), List.length_nil, Nat.zero_min]
  | cons c t ih =>
    obtain ⟨fuel, rfl⟩ := Nat.exists_eq_add_one_of_ne_zero (Nat.ne_of_gt (Nat.zero_lt_of_lt hf))
    obtain ⟨hc, hne, hrest⟩ := h
    rw [strnlen]
    cases size with
    | zero => rw [if_neg (fun hpos => Nat.lt_irrefl 0 hpos.1), Nat.min_zero]
    | succ size =>
      rw [if_pos ⟨Nat.succ_pos size, hc ▸ hne⟩, Nat.add_sub_cancel, ih hrest size (Nat.lt_of_succ_lt_succ hf),
        Option.map_some, List.length_cons, Nat.add_min_add_right]

/-- The number of characters that a precision leaves; a negative one leaves all. -/
def shownLength (precision : BitVec 32) (len : Nat) : Nat :=
  if precision.toInt < 0 then len else min len precision.toInt.toNat

private theorem shownLength_cons (hp : precision.toInt < 0 ∨ 0 ≤ (precision - 1).toInt) (len : Nat) :
    shownLength precision (len + 1) =
      shownLength (if precision.toInt < 0 then precision else precision - 1) len + 1 := by
  by_cases hneg : precision.toInt < 0
  · rw [if_pos hneg, shownLength, shownLength, if_pos hneg, if_pos hneg]
  · have hpred := toInt_pred (w := precision) (by omega)
    have hpos := hp.resolve_left hneg
    rw [if_neg hneg, shownLength, shownLength, if_neg hneg, if_neg (by omega), hpred]
    omega

private theorem putString_spec (h : StringAt m p t) (hf : t.length < fuel) :
    putString m false fuel p precision width =
      some ((t.take (shownLength precision t.length)).map charInt,
        width - BitVec.ofNat 32 (shownLength precision t.length)) := by
  induction t generalizing p precision width fuel with
  | nil =>
    obtain ⟨fuel, rfl⟩ := Nat.exists_eq_add_one_of_ne_zero (Nat.ne_of_gt hf)
    have hlen : shownLength precision ([] : List UInt8).length = 0 := by
      rw [shownLength, List.length_nil, Nat.zero_min, ite_self]
    rw [putString, if_neg (fun hc => hc.1 h), hlen]
    simp
  | cons c t ih =>
    obtain ⟨fuel, rfl⟩ := Nat.exists_eq_add_one_of_ne_zero (Nat.ne_of_gt (Nat.zero_lt_of_lt hf))
    obtain ⟨hc, hne, hrest⟩ := h
    rw [putString]
    by_cases hp : precision.toInt < 0 ∨ 0 ≤ (precision - 1).toInt
    · rw [if_pos ⟨hc ▸ hne, hp⟩, ih hrest (Nat.lt_of_succ_lt_succ hf), List.length_cons, shownLength_cons hp,
        List.take_succ_cons, List.map_cons, Option.map_some, hc, BitVec.ofNat_add, BitVec.add_comm,
        ← BitVec.sub_sub]
      rfl
    · have hzero : precision.toInt = 0 := by
        have hpred := toInt_pred (w := precision) (by omega)
        omega
      have hlen : shownLength precision (c :: t).length = 0 := by
        rw [shownLength, if_neg (by omega), hzero, Int.toNat_zero, Nat.min_zero]
      rw [if_neg (fun hboth => hp hboth.2), hlen]
      simp

/-- The pads in front, with the width that is left. -/
def frontPads (s : Escape) (count : Nat) : List Int × BitVec 32 :=
  if 0 < s.width.toInt ∧ s.padc ≠ 45 then
    (List.replicate (s.width - BitVec.ofNat 32 count).toInt.toNat s.padc,
      if 0 < (s.width - BitVec.ofNat 32 count).toInt then 0 else s.width - BitVec.ofNat 32 count)
  else ([], s.width)

private theorem strnlen_shown (h : StringAt m p t) (hlen : t.length < 2 ^ 32) (hp : -1 ≤ precision.toInt)
    (hf : t.length < fuel) : strnlen m fuel p precision.toNat = some (shownLength precision t.length) := by
  have hlt := precision.isLt
  rw [strnlen_spec h _ hf, shownLength]
  rw [BitVec.toInt_eq_toNat_cond] at hp ⊢
  split_ifs at hp ⊢ <;> simp only [Option.some.injEq] <;> omega

private theorem convertString_spec (h : StringAt m p t) (hlen : t.length < 2 ^ 32) (hp : -1 ≤ s.precision.toInt)
    (halt : s.altflag = false) (hf : t.length < fuel) :
    convertString fuel m p s = some ((frontPads s (shownLength s.precision t.length)).1 ++
      (t.take (shownLength s.precision t.length)).map charInt ++
      List.replicate ((frontPads s (shownLength s.precision t.length)).2 -
        BitVec.ofNat 32 (shownLength s.precision t.length)).toInt.toNat 32) := by
  rw [convertString, frontPads]
  by_cases hc : 0 < s.width.toInt ∧ s.padc ≠ 45
  · rw [if_pos hc, if_pos hc, strnlen_shown h hlen hp hf]
    dsimp only [Option.bind_eq_bind, Option.bind_some]
    rw [halt, putString_spec h hf]
    rfl
  · rw [if_neg hc, if_neg hc]
    dsimp only [Option.bind_eq_bind, Option.bind_some]
    rw [halt, putString_spec h hf]
    rfl

end Characters

section Counting

variable {flags t : List UInt8} {width precision : Amount} {s : Escape} {ap : Nat → BitVec 32} {k count : Nat}
  {text : List Int}

theorem toInt_sub_ofNat (w : BitVec 32) (hcount : count < 2 ^ 32) :
    (w - BitVec.ofNat 32 count).toInt =
      if -(2 ^ 31) ≤ w.toInt - count then w.toInt - count else w.toInt - count + 2 ^ 32 := by
  have hlow := w.le_toInt
  have hhigh := w.toInt_lt
  rw [BitVec.toInt_sub, BitVec.toInt_ofNat', Int.sub_bmod_bmod]
  simp only [Int.bmod]
  split_ifs <;> omega

private theorem widthVariable_value (width precision : Amount) :
    widthVariable width precision = (width.value.getD 0 : Nat) ∨
      widthVariable width precision = -1 ∧ width.value.getD 0 = 0 := by
  rw [widthVariable]
  cases width.value with
  | none =>
    change (if precision = .absent then (-1 : Int) else 0) = _ ∨ _
    split
    · exact Or.inr ⟨rfl, rfl⟩
    · exact Or.inl rfl
  | some n => exact Or.inl rfl

private theorem fieldEscape_width (hw : width.Passed ap k) :
    (fieldEscape flags width precision).width.toInt = widthVariable width precision := by
  have hvalue : width.value.getD 0 < 2 ^ 31 := by
    cases h : width.value with
    | none => decide
    | some n => exact hw.value_lt h
  change (BitVec.ofInt 32 (widthVariable width precision)).toInt = _
  rw [BitVec.toInt_ofInt, Int.bmod_eq_of_le] <;> rcases widthVariable_value width precision with h | h <;> omega

private theorem fieldEscape_precision (hp : precision.Passed ap k) (len : Nat) :
    shownLength (fieldEscape flags width precision).precision len = (precision.value.elim len fun n => min len n) := by
  change shownLength (precision.value.elim (-1) (BitVec.ofNat 32)) len = _
  cases h : precision.value with
  | none => exact if_pos (by decide)
  | some n =>
    have hn := toInt_ofNat (hp.value_lt h)
    change shownLength (BitVec.ofNat 32 n) len = _
    rw [shownLength, hn, if_neg (by omega), Int.toNat_natCast]
    rfl

private theorem length_fieldText (precision : Amount) (t : List UInt8) :
    (fieldText precision t).length = precision.value.elim t.length fun n => min t.length n := by
  rw [fieldText]
  cases precision.value with
  | none => rfl
  | some n => exact List.length_take.trans (Nat.min_comm n t.length)

private theorem take_fieldText (precision : Amount) (t : List UInt8) :
    t.take (precision.value.elim t.length fun n => min t.length n) = fieldText precision t := by
  rw [fieldText]
  cases precision.value with
  | none => exact List.take_length
  | some n =>
    change t.take (min t.length n) = t.take n
    rw [Nat.min_comm, ← List.take_take, List.take_length]

/-- What the conversion prints around its text. -/
def printedField (s : Escape) (text : List Int) : List Int :=
  (frontPads s text.length).1 ++ text ++
    List.replicate ((frontPads s text.length).2 - BitVec.ofNat 32 text.length).toInt.toNat 32

/-- The count for pads in front, where `a` is left of the width `w` behind `strnlen` and `b` behind the characters. -/
theorem countedTwice {w a b : Int} (hw : 0 < w) (hhigh : w < 2 ^ 31) (hcount : count < 2 ^ 32)
    (ha : a = if -(2 ^ 31) ≤ w - count then w - count else w - count + 2 ^ 32)
    (hb : b = if -(2 ^ 31) ≤ (if 0 < a then 0 else a) - count then (if 0 < a then 0 else a) - count
      else (if 0 < a then 0 else a) - count + 2 ^ 32) :
    ((2 * (count : Int) ≤ w + 2 ^ 31 ∨ 2 ^ 32 + w ≤ 2 * (count : Int) ∧ (count : Int) ≤ w + 2 ^ 31) →
      a.toNat = w.toNat - count ∧ b.toNat = 0) ∧
    (a.toNat + b.toNat = w.toNat - count →
      2 * (count : Int) ≤ w + 2 ^ 31 ∨ 2 ^ 32 + w ≤ 2 * (count : Int) ∧ (count : Int) ≤ w + 2 ^ 31) := by
  split_ifs at ha hb <;> omega

private theorem countedOnce {w a : Int} {n : Nat} (hw : w = n ∨ w = -1 ∧ n = 0) (hcount : count < 2 ^ 32 - 1)
    (ha : a = if -(2 ^ 31) ≤ w - count then w - count else w - count + 2 ^ 32) :
    a.toNat = n - count ↔ (count : Int) ≤ w + 2 ^ 31 := by
  split_ifs at ha <;> omega

private theorem printedField_front (hs : 0 < s.width.toInt ∧ s.padc ≠ 45) (hcount : text.length < 2 ^ 32) :
    printedField s text = List.replicate (s.width.toInt.toNat - text.length) s.padc ++ text ↔
      2 * (text.length : Int) ≤ s.width.toInt + 2 ^ 31 ∨
        2 ^ 32 + s.width.toInt ≤ 2 * (text.length : Int) ∧ (text.length : Int) ≤ s.width.toInt + 2 ^ 31 := by
  have hzero : (0 : BitVec 32).toInt = 0 := rfl
  have htwo := toInt_sub_ofNat (if 0 < (s.width - BitVec.ofNat 32 text.length).toInt then 0
    else s.width - BitVec.ofNat 32 text.length) hcount
  rw [apply_ite BitVec.toInt, hzero] at htwo
  obtain ⟨hright, hwrong⟩ := countedTwice hs.1 s.width.toInt_lt hcount (toInt_sub_ofNat s.width hcount) htwo
  rw [printedField, frontPads, if_pos hs]
  constructor
  · intro h
    have hlen := congrArg List.length h
    simp only [List.length_append, List.length_replicate] at hlen
    apply hwrong
    omega
  · intro h
    obtain ⟨hfront, hback⟩ := hright h
    dsimp only
    rw [hfront, hback, List.replicate_zero, List.append_nil]

private theorem printedField_back {n : Nat} (hs : ¬(0 < s.width.toInt ∧ s.padc ≠ 45))
    (hn : s.width.toInt = n ∨ s.width.toInt = -1 ∧ n = 0) (hcount : text.length < 2 ^ 32 - 1) :
    printedField s text = text ++ List.replicate (n - text.length) 32 ↔
      (text.length : Int) ≤ s.width.toInt + 2 ^ 31 := by
  have honce := countedOnce hn hcount (toInt_sub_ofNat s.width (by omega))
  rw [printedField, frontPads, if_neg hs, List.nil_append, List.append_cancel_left_eq, ← honce]
  constructor
  · intro h
    simpa only [List.length_replicate] using congrArg List.length h
  · intro h
    rw [h]

private theorem printedField_iff (hw : width.Passed ap k) (hcount : (fieldText precision t).length < 2 ^ 32 - 1) :
    printedField (fieldEscape flags width precision) ((fieldText precision t).map charInt) =
        stringField flags width precision t ↔
      CountFits flags (widthVariable width precision) (fieldText precision t).length := by
  have hwidth := @fieldEscape_width flags width precision ap k hw
  have hvalue := widthVariable_value width precision
  have hlen : ((fieldText precision t).map charInt).length = (fieldText precision t).length := List.length_map _
  rw [CountFits, stringField]
  by_cases hfront : 0 < widthVariable width precision ∧ padOf flags ≠ 45
  · have hn : (widthVariable width precision).toNat = width.value.getD 0 := by omega
    have h := @printedField_front (fieldEscape flags width precision) ((fieldText precision t).map charInt)
      (by rw [hwidth]; exact hfront) (by rw [hlen]; omega)
    rw [hwidth, hn, hlen] at h
    rw [if_pos hfront, if_neg hfront.2, hlen, ← h]
    rfl
  · have h := @printedField_back (fieldEscape flags width precision) ((fieldText precision t).map charInt) (width.value.getD 0)
      (by rw [hwidth]; exact hfront) (by rw [hwidth]; exact hvalue) (by rw [hlen]; exact hcount)
    rw [hwidth, hlen] at h
    rw [if_neg hfront, ← h]
    by_cases hpad : padOf flags = 45
    · rw [if_pos hpad, hlen]
    · have hzero : width.value.getD 0 = 0 := by omega
      rw [if_neg hpad, hzero, Nat.zero_sub, Nat.zero_sub, List.replicate_zero, List.nil_append, List.replicate_zero,
        List.append_nil]

end Counting

section Conversion

variable {m : Nat → UInt8} {ap : Nat → BitVec 32} {front back flags t : List UInt8} {width precision : Amount}
  {k a fuel : Nat} {rest : List Int}

private theorem fieldModifiers_isModifier (hflags : ∀ c ∈ flags, c = 45 ∨ c = 48) :
    ∀ c ∈ fieldModifiers flags width precision, isModifier c = true := by
  have hdigit : ∀ c, isDigit c = true → isModifier c = true := by decide +kernel
  have hsource (a : Amount) : ∀ c ∈ a.source, isModifier c = true := by
    cases a with
    | absent =>
      intro c hc
      cases hc
    | numeral n => exact fun c hc => hdigit c (decimal_isDigit n c hc)
    | argument n =>
      intro c hc
      rw [List.mem_singleton.mp hc]
      decide
  intro c hc
  rcases List.mem_append.mp hc with hc | hc
  · rcases hflags c hc with rfl | rfl <;> decide
  rcases List.mem_append.mp hc with hc | hc
  · exact hsource width c hc
  rw [Amount.dotted] at hc
  split at hc
  · cases hc
  rcases List.mem_cons.mp hc with rfl | hc
  · decide
  · exact hsource precision c hc

private theorem convertString_field (h : StringAt m a t) (hend : a + t.length < 2 ^ 32)
    (hp : precision.Passed ap k) (hf : t.length < fuel) :
    convertString fuel m a (fieldEscape flags width precision) =
      some (printedField (fieldEscape flags width precision) ((fieldText precision t).map charInt)) := by
  have hlow : -1 ≤ (fieldEscape flags width precision).precision.toInt := by
    change -1 ≤ (precision.value.elim (-1) (BitVec.ofNat 32)).toInt
    cases hvalue : precision.value with
    | none => decide
    | some n =>
      rw [Option.elim_some, toInt_ofNat (hp.value_lt hvalue)]
      omega
  rw [convertString_spec h (by omega) hlow rfl hf, fieldEscape_precision hp, take_fieldText, ← length_fieldText,
    printedField, List.length_map]

theorem vprintfmt_conversion (hflags : ∀ c ∈ flags, c = 45 ∨ c = 48) (hw : width.Passed ap k)
    (hp : precision.Passed ap (k + width.words)) (hne : ap (k + width.words + precision.words) ≠ 0)
    (hf : (stringEscape flags width precision ++ back).length < fuel) :
    vprintfmt (fuel + 1) (formatBytes (front ++ (stringEscape flags width precision ++ back))) m ap front.length k =
      (convertString fuel m (ap (k + width.words + precision.words)).toNat (fieldEscape flags width precision)).bind
        fun out => (vprintfmt fuel (formatBytes (front ++ (stringEscape flags width precision ++ back))) m ap
          (front.length + (stringEscape flags width precision).length)
            (k + width.words + precision.words + 1)).map fun rest => out ++ rest := by
  have hplace : Rest (front ++ (stringEscape flags width precision ++ back)) front.length
      (PERCENT :: (fieldModifiers flags width precision ++ 115 :: back)) :=
    ⟨front, by simp [stringEscape], rfl⟩
  obtain ⟨hbyte, hrest⟩ := hplace.cons
  have hlen : (stringEscape flags width precision).length = (fieldModifiers flags width precision).length + 2 := by
    simp [stringEscape]
  rw [List.length_append] at hf
  have hread := @reswitch_spec _ (115 :: back) (fieldModifiers flags width precision) _ k fuel .start ap hrest
    (fieldModifiers_isModifier hflags) rfl (by simp only [List.length_append, List.length_cons]; omega)
  rw [modifiers_field hflags hw hp] at hread
  have harg : stringArg m (ap (k + width.words + precision.words)) =
      (m, (ap (k + width.words + precision.words)).toNat) := if_neg hne
  have hbehind : front.length + ((fieldModifiers flags width precision).length + 2) =
      front.length + 1 + (fieldModifiers flags width precision).length + 1 := by omega
  rw [vprintfmt, hbyte]
  dsimp only [Option.bind_eq_bind, Option.bind_some]
  rw [if_neg (by decide), if_neg (by decide), hread]
  dsimp only [Option.bind_some, List.headD_cons]
  rw [if_pos (by decide)]
  change ((convertString fuel (stringArg m (ap (k + width.words + precision.words))).1
    (stringArg m (ap (k + width.words + precision.words))).2 (fieldEscape flags width precision)).map _).bind _ = _
  rw [harg, hlen, hbehind]
  cases convertString fuel m (ap (k + width.words + precision.words)).toNat (fieldEscape flags width precision) with
  | none => rfl
  | some out => rfl

private theorem vprintfmt_stringEscape (hflags : ∀ c ∈ flags, c = 45 ∨ c = 48) (hw : width.Passed ap k)
    (hp : precision.Passed ap (k + width.words)) (hne : ap (k + width.words + precision.words) ≠ 0)
    (h : StringAt m (ap (k + width.words + precision.words)).toNat t)
    (hend : (ap (k + width.words + precision.words)).toNat + t.length < 2 ^ 32)
    (hf : (stringEscape flags width precision ++ back).length + t.length < fuel) :
    vprintfmt (fuel + 1) (formatBytes (front ++ (stringEscape flags width precision ++ back))) m ap front.length k =
      (vprintfmt fuel (formatBytes (front ++ (stringEscape flags width precision ++ back))) m ap
        (front.length + (stringEscape flags width precision).length) (k + width.words + precision.words + 1)).map fun rest =>
          printedField (fieldEscape flags width precision) ((fieldText precision t).map charInt) ++ rest := by
  rw [vprintfmt_conversion hflags hw hp hne (by omega), convertString_field h hend hp (by omega)]
  rfl

private theorem prints_field_iff (hflags : ∀ c ∈ flags, c = 45 ∨ c = 48) (hw : width.Passed ap k)
    (hp : precision.Passed ap (k + width.words)) (hne : ap (k + width.words + precision.words) ≠ 0)
    (h : StringAt m (ap (k + width.words + precision.words)).toNat t)
    (hend : (ap (k + width.words + precision.words)).toNat + t.length < 2 ^ 32)
    (hrest : ∃ F, ∀ fuel ≥ F, vprintfmt fuel (formatBytes (front ++ (stringEscape flags width precision ++ back))) m ap
      (front.length + (stringEscape flags width precision).length) (k + width.words + precision.words + 1) =
        some rest) :
    (∃ F, ∀ fuel ≥ F, vprintfmt fuel (formatBytes (front ++ (stringEscape flags width precision ++ back))) m ap
      front.length k = some (stringField flags width precision t ++ rest)) ↔
        CountFits flags (widthVariable width precision) (fieldText precision t).length := by
  have hcount : (fieldText precision t).length < 2 ^ 32 - 1 := by
    have hle : (fieldText precision t).length ≤ t.length := by
      rw [← take_fieldText]
      exact List.length_take_le' _ _
    have hpos : 0 < (ap (k + width.words + precision.words)).toNat := by
      apply Nat.pos_of_ne_zero
      intro hzero
      exact hne (BitVec.eq_of_toNat_eq hzero)
    omega
  obtain ⟨G, hG⟩ := hrest
  have hprints (fuel : Nat) (hf : (stringEscape flags width precision ++ back).length + t.length + G < fuel) :
      vprintfmt (fuel + 1) (formatBytes (front ++ (stringEscape flags width precision ++ back))) m ap front.length k =
        some (printedField (fieldEscape flags width precision) ((fieldText precision t).map charInt) ++ rest) := by
    rw [vprintfmt_stringEscape hflags hw hp hne h hend (by omega), hG fuel (by omega)]
    rfl
  rw [← printedField_iff hw hcount]
  constructor
  · rintro ⟨F, hF⟩
    have hboth := hprints ((stringEscape flags width precision ++ back).length + t.length + G + 1 + F) (by omega)
    rw [hF _ (by omega)] at hboth
    exact (List.append_cancel_right (Option.some.inj hboth)).symm
  · intro hsame
    refine ⟨(stringEscape flags width precision ++ back).length + t.length + G + 2, fun fuel hf => ?_⟩
    obtain ⟨fuel, rfl⟩ := Nat.exists_eq_add_one_of_ne_zero (Nat.ne_of_gt (Nat.zero_lt_of_lt hf))
    rw [hprints fuel (by omega), hsame]

private theorem length_stringField (flags : List UInt8) (width precision : Amount) (t : List UInt8) :
    (stringField flags width precision t).length = max (width.value.getD 0) (fieldText precision t).length := by
  rw [stringField]
  split <;> simp only [List.length_append, List.length_replicate, List.length_map] <;> omega

theorem prints_nothing (m : Nat → UInt8) (ap : Nat → BitVec 32) (flags : List UInt8) (width precision : Amount)
    (k : Nat) (hf : 1 ≤ fuel) : vprintfmt fuel (formatBytes ([] ++ (stringEscape flags width precision ++ []))) m ap
      (([] : List UInt8).length + (stringEscape flags width precision).length) k = some [] := by
  obtain ⟨fuel, rfl⟩ := Nat.exists_eq_add_one_of_ne_zero (Nat.ne_of_gt hf)
  have hplace : Rest ([] ++ (stringEscape flags width precision ++ []))
      (([] : List UInt8).length + (stringEscape flags width precision).length) [] :=
    ⟨stringEscape flags width precision, rfl, (Nat.zero_add _).symm⟩
  rw [vprintfmt, hplace.nil]
  rfl

end Conversion

/-- A field has the larger of the width and the number of characters, and it is printed, in whatever format it stands,
exactly if the width can be counted down. -/
theorem string_field_iff (m : Nat → UInt8) (ap : Nat → BitVec 32) (front back flags t : List UInt8)
    (width precision : Amount) (k : Nat) (rest : List Int) (hflags : ∀ c ∈ flags, c = 45 ∨ c = 48)
    (hw : width.Passed ap k) (hp : precision.Passed ap (k + width.words))
    (hne : ap (k + width.words + precision.words) ≠ 0)
    (h : StringAt m (ap (k + width.words + precision.words)).toNat t)
    (hend : (ap (k + width.words + precision.words)).toNat + t.length < 2 ^ 32)
    (hrest : ∃ F, ∀ fuel ≥ F, vprintfmt fuel (formatBytes (front ++ (stringEscape flags width precision ++ back))) m ap
      (front.length + (stringEscape flags width precision).length) (k + width.words + precision.words + 1) =
        some rest) :
    (stringField flags width precision t).length = max (width.value.getD 0) (fieldText precision t).length ∧
    ((∃ F, ∀ fuel ≥ F, vprintfmt fuel (formatBytes (front ++ (stringEscape flags width precision ++ back))) m ap
      front.length k = some (stringField flags width precision t ++ rest)) ↔
        CountFits flags (widthVariable width precision) (fieldText precision t).length) :=
  ⟨length_stringField flags width precision t, prints_field_iff hflags hw hp hne h hend hrest⟩

/-- `%-*.2s` with 3 and `abc`. -/
theorem string_field_sample :
    (stringField [45] (.argument 3) (.numeral 2) [97, 98, 99]).length = max 3 2 ∧
    ((∃ F, ∀ fuel ≥ F, vprintfmt fuel (formatBytes ([] ++ (stringEscape [45] (.argument 3) (.numeral 2) ++ [])))
      (fun x => memoryOf [97, 98, 99] (x - 1)) (fun k => if k = 0 then 3 else 1) ([] : List UInt8).length 0 =
        some (stringField [45] (.argument 3) (.numeral 2) [97, 98, 99] ++ [])) ↔ CountFits [45] 3 2) := by
  exact string_field_iff (fun x => memoryOf [97, 98, 99] (x - 1)) (fun k => if k = 0 then 3 else 1) [] [] [45]
    [97, 98, 99] (.argument 3) (.numeral 2) 0 [] (by simp) (by simp [Amount.Passed]) (by simp [Amount.Passed])
    (by decide) ((stringAt_memoryOf (by decide)).moved 1) (by decide)
    ⟨1, fun _ hf => prints_nothing _ _ [45] (.argument 3) (.numeral 2) 2 hf⟩

/-- `%1s` with a string of 2^30 + 1 characters is followed by spaces. -/
theorem string_field_overflows : ¬ ∀ (m : Nat → UInt8) (ap : Nat → BitVec 32) (front back flags t : List UInt8)
    (width precision : Amount) (k : Nat) (rest : List Int), (∀ c ∈ flags, c = 45 ∨ c = 48) → width.Passed ap k →
    precision.Passed ap (k + width.words) → ap (k + width.words + precision.words) ≠ 0 →
    StringAt m (ap (k + width.words + precision.words)).toNat t →
    (ap (k + width.words + precision.words)).toNat + t.length < 2 ^ 32 →
    (∃ F, ∀ fuel ≥ F, vprintfmt fuel (formatBytes (front ++ (stringEscape flags width precision ++ back))) m ap
      (front.length + (stringEscape flags width precision).length) (k + width.words + precision.words + 1) =
        some rest) →
    ∃ F, ∀ fuel ≥ F, vprintfmt fuel (formatBytes (front ++ (stringEscape flags width precision ++ back))) m ap
      front.length k = some (stringField flags width precision t ++ rest) := by
  intro hall
  have hno : (0 : UInt8) ∉ List.replicate (2 ^ 30 + 1) (97 : UInt8) := by
    intro h
    exact absurd (List.eq_of_mem_replicate h) (by decide)
  have hflags : ∀ c ∈ ([] : List UInt8), c = 45 ∨ c = 48 := by simp
  have hw : (Amount.numeral 1).Passed (fun _ => 1) 0 := by simp [Amount.Passed]
  have hp : Amount.absent.Passed (fun _ => 1) (0 + (Amount.numeral 1).words) := trivial
  have hstring := (stringAt_memoryOf hno).moved 1
  have hend : (1 : BitVec 32).toNat + (List.replicate (2 ^ 30 + 1) (97 : UInt8)).length < 2 ^ 32 := by
    rw [List.length_replicate]
    decide
  have hfits := (prints_field_iff hflags hw hp (by decide) hstring hend
    ⟨1, fun _ hf => prints_nothing _ _ [] (.numeral 1) .absent 1 hf⟩).mp
    (hall _ _ [] [] [] _ (.numeral 1) .absent 0 [] hflags hw hp (by decide) hstring hend
      ⟨1, fun _ hf => prints_nothing _ _ [] (.numeral 1) .absent 1 hf⟩)
  have hlen : (fieldText .absent (List.replicate (2 ^ 30 + 1) (97 : UInt8))).length = 2 ^ 30 + 1 := List.length_replicate
  rw [hlen, CountFits, if_pos ⟨by decide, by decide⟩] at hfits
  change 2 * ((2 ^ 30 + 1 : Nat) : Int) ≤ 1 + 2 ^ 31 ∨ 2 ^ 32 + 1 ≤ 2 * ((2 ^ 30 + 1 : Nat) : Int) ∧ _ at hfits
  omega

end DamnOS.Programs
