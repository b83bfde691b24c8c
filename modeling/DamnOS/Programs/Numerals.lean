import DamnOS.Programs.FormatText

/-!
# Integers in formatted output

`%d`, `%u`, `%o` and `%x`, with up to two `l`.  A value of `long long` is cut to 32 bits on its way to `printnum`.
-/

namespace DamnOS.Programs

open DamnOS.Framework

/-- The numeral of `n`, most significant digit first. -/
def numeral (base n : Nat) : List Int := if n = 0 then [48] else (Nat.digits base n).reverse.map digit

def signedNumeral (base : Nat) (v : Int) : List Int :=
  if v < 0 then 45 :: numeral base v.natAbs else numeral base v.natAbs

def integerConversions : List UInt8 := [100, 117, 111, 120]

def conversionBase (c : UInt8) : Nat := if c = 111 then 8 else if c = 120 then 16 else 10

/-- The value of the argument at word 0, for `j` times `l`. -/
def argumentValue (ap : Nat → BitVec 32) (j : Nat) (c : UInt8) : Int :=
  if c = 100 then if j < 2 then (ap 0).toInt else (ap 1 ++ ap 0).toInt
  else if j < 2 then (ap 0).toNat else (ap 1 ++ ap 0).toNat

/-- `%`, `j` times `l`, and the conversion. -/
def integerFormat (j : Nat) (c : UInt8) : List UInt8 := PERCENT :: (List.replicate j 108 ++ [c])

section Digits

variable {base n : Nat}

def undigit (i : Int) : Nat := if i < 58 then (i - 48).toNat else (i - 87).toNat

private theorem undigit_digit (d : Nat) : undigit (digit d) = d := by
  rw [undigit, digit]
  split <;> split <;> omega

private theorem ofDigits_numeral (base n : Nat) : Nat.ofDigits base ((numeral base n).reverse.map undigit) = n := by
  rw [numeral]
  split
  · next h =>
    rw [h]
    rfl
  · have hid : undigit ∘ digit = id := funext undigit_digit
    rw [List.map_reverse, List.map_map, hid, List.map_id, List.reverse_reverse, Nat.ofDigits_digits]

private theorem numeral_inj {a b : Nat} (h : numeral base a = numeral base b) : a = b := by
  rw [← ofDigits_numeral base a, h, ofDigits_numeral]

theorem numeral_lt (hn : n < base) : numeral base n = [digit n] := by
  rw [numeral]
  split
  · next h => rw [h]; rfl
  · next h => rw [Nat.digits_of_lt base n h hn]; rfl

theorem numeral_le (hbase : 2 ≤ base) (hn : base ≤ n) : numeral base n = numeral base (n / base) ++ [digit (n % base)] := by
  have hquot : n / base ≠ 0 := (Nat.div_pos hn (by omega)).ne'
  rw [numeral, numeral, if_neg (by omega), if_neg hquot, Nat.digits_def' (by omega) (by omega)]
  simp

theorem toInt_pred {w : BitVec 32} (h : -(2 ^ 31) < w.toInt) : (w - 1).toInt = w.toInt - 1 := by
  have hlt := w.toInt_lt
  rw [BitVec.toInt_sub]
  change Int.bmod (w.toInt - 1) (2 ^ 32) = _
  simp only [Int.bmod]
  omega

private theorem printnum_last {width : BitVec 32} (hn : n < base) (hw : -(2 ^ 31) < width.toInt) (padc : Int) :
    printnum n base width padc =
      List.replicate (width.toInt - (numeral base n).length).toNat padc ++ numeral base n := by
  rw [printnum, if_neg (by omega), toInt_pred hw, numeral_lt hn, Nat.mod_eq_of_lt hn]
  rfl

/-- The width goes down by one for each digit, so that the padding is what the numeral leaves of it. -/
theorem printnum_pads {width : BitVec 32} {t : Nat} (hbase : 2 ≤ base) (hn : n < 2 ^ t)
    (hlow : -(2 ^ 31) + (t : Int) < width.toInt) (padc : Int) :
    printnum n base width padc =
      List.replicate (width.toInt - (numeral base n).length).toNat padc ++ numeral base n := by
  induction t generalizing n width with
  | zero => exact printnum_last (by omega) (by omega) padc
  | succ t ih =>
    push_cast at hlow
    have hpred := toInt_pred (w := width) (by omega)
    by_cases hle : base ≤ n
    · have hquot : n / base < 2 ^ t := by
        apply Nat.div_lt_of_lt_mul
        calc n < 2 ^ (t + 1) := hn
          _ = 2 * 2 ^ t := by ring
          _ ≤ base * 2 ^ t := Nat.mul_le_mul_right _ hbase
      have hpads : (width.toInt - 1 - (numeral base (n / base)).length).toNat =
          (width.toInt - (numeral base n).length).toNat := by
        rw [numeral_le hbase hle, List.length_append, List.length_singleton]
        omega
      rw [printnum, if_pos ⟨hle, hbase⟩, ih hquot (by omega), hpred, hpads, numeral_le hbase hle, List.append_assoc]
    · exact printnum_last (by omega) (by omega) padc

private theorem printnum_numeral {width : BitVec 32} {t : Nat} (hbase : 2 ≤ base) (hn : n < 2 ^ t)
    (hw : width.toInt ≤ 0) (hlow : -(2 ^ 31) + (t : Int) < width.toInt) (padc : Int) :
    printnum n base width padc = numeral base n := by
  have hpads : (width.toInt - (numeral base n).length).toNat = 0 := by omega
  rw [printnum_pads hbase hn hlow padc, hpads]
  rfl

theorem numeral_digits (hbase : 2 ≤ base) : ∀ c ∈ numeral base n, ∃ d < base, c = digit d := by
  intro c hc
  rw [numeral] at hc
  split at hc
  · exact ⟨0, by omega, List.mem_singleton.mp hc⟩
  · obtain ⟨d, hd, rfl⟩ := List.mem_map.mp hc
    exact ⟨d, Nat.digits_lt_base (by omega) (List.mem_reverse.mp hd), rfl⟩

theorem numeral_head (hn : n ≠ 0) : (numeral base n).head? ≠ some 48 := by
  have hdigits : Nat.digits base n ≠ [] := Nat.digits_ne_nil_iff_ne_zero.mpr hn
  have hlast := Nat.getLast_digit_ne_zero base hn
  rw [numeral, if_neg hn, List.head?_map, List.head?_reverse, List.getLast?_eq_some_getLast hdigits]
  intro h
  apply hlast
  rw [← undigit_digit ((Nat.digits base n).getLast hdigits), Option.some.inj h]
  rfl

/-- `printnum` prints the padding and the numeral, which reads back as the number. -/
theorem printnum_field {num base : Nat} {width : BitVec 32} (hnum : num < 2 ^ 32) (hbase : 2 ≤ base)
    (hbase' : base ≤ 16) (hwidth : -(2 ^ 30) ≤ width.toInt) (padc : Int) :
    printnum num base width padc =
        List.replicate (width.toInt - (numeral base num).length).toNat padc ++ numeral base num ∧
      (∀ c ∈ numeral base num, ∃ d < base, d < 16 ∧ c = digit d) ∧ (num ≠ 0 → (numeral base num).head? ≠ some 48) ∧
      Nat.ofDigits base ((numeral base num).reverse.map undigit) = num := by
  refine ⟨printnum_pads hbase hnum (by norm_num; omega) padc, ?_, numeral_head, ofDigits_numeral base num⟩
  intro c hc
  obtain ⟨d, hd, h⟩ := numeral_digits hbase c hc
  exact ⟨d, hd, by omega, h⟩

/-- `255` in base 16, in a field of five characters. -/
theorem printnum_field_sample : printnum 255 16 5 48 =
      List.replicate ((5 : BitVec 32).toInt - (numeral 16 255).length).toNat 48 ++ numeral 16 255 ∧
    (∀ c ∈ numeral 16 255, ∃ d < 16, d < 16 ∧ c = digit d) ∧ ((255 : Nat) ≠ 0 → (numeral 16 255).head? ≠ some 48) ∧
    Nat.ofDigits 16 ((numeral 16 255).reverse.map undigit) = 255 :=
  printnum_field (by decide) (by decide) le_rfl (by decide) 48

private theorem printnum_start {s : Escape} (hs : s.width = -1) (hbase : 2 ≤ base) (num : BitVec 64) :
    printnum (printnumArg num) base s.width s.padc = numeral base (num.toNat % 2 ^ 32) := by
  rw [hs]
  apply printnum_numeral hbase (t := 32)
  · exact Nat.mod_lt _ (by decide)
  · decide
  · decide

end Digits

section Conversions

variable {m : Nat → UInt8} {ap : Nat → BitVec 32} {j : Nat} {c : UInt8} {s : Escape}

def printed (ap : Nat → BitVec 32) (j : Nat) (c : UInt8) : List Int :=
  let v := argumentValue ap j c
  if v < 0 then 45 :: numeral (conversionBase c) (v.natAbs % 2 ^ 32) else numeral (conversionBase c) (v.natAbs % 2 ^ 32)

private theorem natAbs_of_neg {x : BitVec 64} (h : x.toInt < 0) : (-x).toNat = x.toInt.natAbs := by
  have hlt := x.isLt
  rw [BitVec.toInt_eq_toNat_cond] at h ⊢
  rw [BitVec.toNat_neg]
  split_ifs at h ⊢ <;> omega

theorem natAbs_of_nonneg {x : BitVec 64} (h : ¬ x.toInt < 0) : x.toNat = x.toInt.natAbs := by
  have hlt := x.isLt
  rw [BitVec.toInt_eq_toNat_cond] at h ⊢
  split_ifs at h ⊢ <;> omega

private theorem getint_value (ap : Nat → BitVec 32) (j : Nat) : (getint ap 0 j).1.toInt = argumentValue ap j 100 := by
  rw [getint, argumentValue, if_pos rfl]
  by_cases hj : j < 2
  · rw [if_neg (by omega), if_pos hj]
    exact BitVec.toInt_signExtend_of_le (by decide)
  · rw [if_pos (by omega), if_neg hj]

private theorem getuint_value (hc : c ≠ 100) (ap : Nat → BitVec 32) (j : Nat) :
    ((getuint ap 0 j).1.toNat : Int) = argumentValue ap j c := by
  rw [getuint, argumentValue, if_neg hc]
  by_cases hj : j < 2
  · rw [if_neg (by omega), if_pos hj, BitVec.toNat_setWidth_of_le (by decide)]
  · rw [if_pos (by omega), if_neg hj]

theorem printed_of_neg (h : argumentValue ap j c < 0) :
    printed ap j c = 45 :: numeral (conversionBase c) ((argumentValue ap j c).natAbs % 2 ^ 32) := if_pos h

theorem printed_of_nonneg (h : ¬ argumentValue ap j c < 0) :
    printed ap j c = numeral (conversionBase c) ((argumentValue ap j c).natAbs % 2 ^ 32) := if_neg h

private theorem printed_unsigned (hc : c ≠ 100) (hs : s.width = -1) (hl : s.lflag = j) (hbase : 2 ≤ conversionBase c) :
    printnum (printnumArg (getuint ap 0 s.lflag).1) (conversionBase c) s.width s.padc = printed ap j c := by
  have hvalue := getuint_value hc ap j
  rw [printnum_start hs hbase, hl, printed_of_nonneg (by omega), ← hvalue, Int.natAbs_natCast]

private theorem converts_integer (hc : c ∈ integerConversions) (hs : s.width = -1) (hl : s.lflag = j) :
    ∃ n, Converts m ap 0 s c (printed ap j c) n := by
  simp only [integerConversions, List.mem_cons, List.not_mem_nil, or_false] at hc
  rcases hc with rfl | rfl | rfl | rfl
  · have hvalue := getint_value ap j
    rw [← hl] at hvalue
    refine ⟨(getint ap 0 s.lflag).2, 0, fun fuel _ => ?_⟩
    by_cases hneg : (getint ap 0 s.lflag).1.toInt < 0
    · rw [printed_of_neg (by rw [← hl, ← hvalue]; exact hneg), ← hl, ← hvalue, ← natAbs_of_neg hneg]
      change (if (getint ap 0 s.lflag).1.toInt < 0 then _ else _) = _
      rw [if_pos hneg, printnum_start hs (by decide)]
      rfl
    · rw [printed_of_nonneg (by rw [← hl, ← hvalue]; exact hneg), ← hl, ← hvalue, ← natAbs_of_nonneg hneg]
      change (if (getint ap 0 s.lflag).1.toInt < 0 then _ else _) = _
      rw [if_neg hneg, printnum_start hs (by decide)]
      rfl
  · rw [← printed_unsigned (by decide) hs hl (by decide)]
    exact ⟨(getuint ap 0 s.lflag).2, 0, fun fuel _ => rfl⟩
  · rw [← printed_unsigned (by decide) hs hl (by decide)]
    exact ⟨(getuint ap 0 s.lflag).2, 0, fun fuel _ => rfl⟩
  · rw [← printed_unsigned (by decide) hs hl (by decide)]
    exact ⟨(getuint ap 0 s.lflag).2, 0, fun fuel _ => rfl⟩

theorem items_integer (hc : c ∈ integerConversions) (j : Nat) :
    items (integerFormat j c) = [.conversion (List.replicate j 108) c] := by
  have hconv : isConversion c = true := by
    revert hc c
    decide +kernel
  have hwhile := @while_append [c] isModifier (conversion_not_modifier hconv) (List.replicate j 108)
  have hall : ∀ d ∈ List.replicate j (108 : UInt8), isModifier d = true := by
    intro d hd
    rw [List.eq_of_mem_replicate hd]
    decide
  rw [List.takeWhile_eq_self_iff.mpr hall, List.dropWhile_eq_nil_iff.mpr hall, List.nil_append] at hwhile
  rw [integerFormat, items_conversion (by rw [hwhile.2]; exact hconv), hwhile.1, hwhile.2]
  simp [items]

private theorem modifiers_long (ap : Nat → BitVec 32) (j k : Nat) (s : Escape) :
    modifiers ap (List.replicate j 108) k s = (k, { s with lflag := s.lflag + j }) := by
  induction j generalizing s with
  | zero => simp [modifiers]
  | succ j ih =>
    rw [List.replicate_succ, modifiers, if_neg (by decide), if_neg (by decide), if_neg (by decide), if_neg (by decide),
      if_neg (by decide), if_neg (by decide), ih]
    simp only [Prod.mk.injEq, Escape.mk.injEq, true_and, and_true]
    omega

theorem vprintfmt_integer (m : Nat → UInt8) (ap : Nat → BitVec 32) (j : Nat) (hc : c ∈ integerConversions) :
    ∃ F, ∀ fuel ≥ F, vprintfmt fuel (formatBytes (integerFormat j c)) m ap 0 0 = some (printed ap j c) := by
  have hmods := modifiers_long ap j 0 .start
  obtain ⟨n, hn⟩ := @converts_integer m ap j c (modifiers ap (List.replicate j 108) 0 .start).2 hc
    (by rw [hmods]; rfl) (by rw [hmods]; exact Nat.zero_add j)
  have hfirst : (modifiers ap (List.replicate j 108) 0 .start).1 = 0 := by rw [hmods]
  have hemits : Emits m ap (items (integerFormat j c)) 0 (printed ap j c ++ []) := by
    rw [items_integer hc]
    exact .conversion (by rw [hfirst]; exact hn) (.done _)
  rw [List.append_nil] at hemits
  apply vprintfmt_rest ⟨[], rfl, rfl⟩ _ hemits
  have hne : (0 : UInt8) ≠ c := by
    rintro rfl
    revert hc
    decide
  simp [integerFormat, PERCENT, hne]

end Conversions

/-- An integer is printed as its numeral exactly if its magnitude has at most 32 bits. -/
theorem vprintfmt_numeral_iff (m : Nat → UInt8) (ap : Nat → BitVec 32) (j : Nat) (c : UInt8)
    (hc : c ∈ integerConversions) :
    (∃ F, ∀ fuel ≥ F, vprintfmt fuel (formatBytes (integerFormat j c)) m ap 0 0 =
        some (signedNumeral (conversionBase c) (argumentValue ap j c))) ↔
      (argumentValue ap j c).natAbs < 2 ^ 32 := by
  obtain ⟨F, hF⟩ := vprintfmt_integer m ap j hc
  have hprinted : printed ap j c = signedNumeral (conversionBase c) (argumentValue ap j c) ↔
      (argumentValue ap j c).natAbs < 2 ^ 32 := by
    rw [← Nat.mod_eq_iff_lt (by decide)]
    by_cases hneg : argumentValue ap j c < 0
    · rw [printed_of_neg hneg, signedNumeral, if_pos hneg, List.cons_inj_right]
      exact ⟨numeral_inj, fun h => by rw [h]⟩
    · rw [printed_of_nonneg hneg, signedNumeral, if_neg hneg]
      exact ⟨numeral_inj, fun h => by rw [h]⟩
  rw [← hprinted]
  constructor
  · rintro ⟨G, hG⟩
    have hboth := hF (max F G) (le_max_left F G)
    rw [hG (max F G) (le_max_right F G)] at hboth
    exact (Option.some.inj hboth).symm
  · intro h
    rw [← h]
    exact ⟨F, hF⟩

/-- The words of `-1` for `%d`. -/
theorem vprintfmt_numeral_sample : 100 ∈ integerConversions ∧ ∃ F, ∀ fuel ≥ F,
    vprintfmt fuel (formatBytes (integerFormat 0 100)) (fun _ => 0) (fun _ => -1) 0 0 = some [45, 49] := by
  have hiff := vprintfmt_numeral_iff (fun _ => 0) (fun _ => -1) 0 100 (by decide)
  obtain ⟨F, hF⟩ := hiff.mpr (by decide)
  refine ⟨by decide, F, fun fuel hf => (hF fuel hf).trans ?_⟩
  have hvalue : argumentValue (fun _ => -1) 0 100 = -1 := by decide
  rw [hvalue]
  decide

/-- `%lld` of the smallest `long long` is `-0`. -/
theorem vprintfmt_cuts_long_long : ¬ ∀ (m : Nat → UInt8) (ap : Nat → BitVec 32) (j : Nat) (c : UInt8),
    j ≤ 2 → c ∈ integerConversions → ∃ F, ∀ fuel ≥ F,
      vprintfmt fuel (formatBytes (integerFormat j c)) m ap 0 0 =
        some (signedNumeral (conversionBase c) (argumentValue ap j c)) := by
  intro hall
  obtain ⟨G, hG⟩ := hall (fun _ => 0) (fun k => if k = 1 then 0x80000000 else 0) 2 100 le_rfl (by decide)
  obtain ⟨F, hF⟩ := @vprintfmt_integer 100 (fun _ => 0) (fun k => if k = 1 then 0x80000000 else 0) 2 (by decide)
  have hboth := hF (max F G) (le_max_left F G)
  rw [hG (max F G) (le_max_right F G)] at hboth
  have hvalue : argumentValue (fun k => if k = 1 then 0x80000000 else 0) 2 100 = -(2 ^ 63) := by decide
  rw [printed_of_neg (by rw [hvalue]; decide), hvalue] at hboth
  have hsame : numeral 10 (2 ^ 63) = numeral 10 0 := List.tail_eq_of_cons_eq (Option.some.inj hboth)
  exact absurd (numeral_inj hsame) (by decide)

end DamnOS.Programs
