import DamnOS.Framework.Scans
import DamnOS.Programs.Numerals
import DamnOS.Programs.Vsnprintf

/-!
# Reading integers

`strtol` of `string.c`, and the integers that formatted output has written.
-/

namespace DamnOS.Programs

open DamnOS.Framework

def isGap (c : UInt8) : Bool := c == 32 || c == 9

/-- `dig`, or nothing where the digits end.  A character of 128 or more is negative and no digit. -/
def digitValue (c : UInt8) : Option Nat :=
  if 48 ≤ c ∧ c ≤ 57 then some (c.toNat - 48)
  else if 97 ≤ c ∧ c ≤ 122 then some (c.toNat - 97 + 10)
  else if 65 ≤ c ∧ c ≤ 90 then some (c.toNat - 65 + 10)
  else none

def readSign (m : Nat → UInt8) (s : Nat) : Nat × Bool :=
  if m s = 43 then (s + 1, false) else if m s = 45 then (s + 1, true) else (s, false)

/-- The place behind the prefix, and the base it gives. -/
def readBase (m : Nat → UInt8) (s : Nat) (base : Int) : Nat × Int :=
  if (base = 0 ∨ base = 16) ∧ m s = 48 ∧ m (s + 1) = 120 then (s + 2, 16)
  else if base = 0 ∧ m s = 48 then (s + 1, 8)
  else if base = 0 then (s, 10)
  else (s, base)

/-- The loop over the digits.  `val` wraps around. -/
def readDigits (m : Nat → UInt8) (base : Int) : Nat → Nat → BitVec 32 → Option (BitVec 32 × Nat)
  | 0, _, _ => none
  | fuel + 1, s, val =>
    (digitValue (m s)).elim (some (val, s)) fun dig =>
      if base ≤ dig then some (val, s) else readDigits m base fuel (s + 1) (val * BitVec.ofInt 32 base + BitVec.ofNat 32 dig)

/-- `strtol`, with what it returns and what it leaves in `*endptr`. -/
def strtol (fuel : Nat) (m : Nat → UInt8) (s : Nat) (base : Int) : Option (BitVec 32 × Nat) := do
  let s ← skipWhile isGap fuel m s
  let sign := readSign m s
  let start := readBase m sign.1 base
  let r ← readDigits m start.2 fuel start.1 0
  some (if sign.2 then -r.1 else r.1, r.2)

/-- Nothing at the front of `l` goes on with a number in the base: no digit of it, and no `x`. -/
def Ends (base : Nat) (l : List UInt8) : Prop :=
  l.headD 0 ≠ 120 ∧ ∀ d ∈ digitValue (l.headD 0), base ≤ d

/-- The bytes that are stored for a numeral. -/
def numeralBytes (base n : Nat) : List UInt8 := (numeral base n).map UInt8.ofInt

section Digits

variable {m : Nat → UInt8} {s fuel base n : Nat} {l rest : List UInt8} {val : BitVec 32}

private theorem digit_byte :
    ∀ d < 36, digitValue (UInt8.ofInt (digit d)) = some d ∧ isGap (UInt8.ofInt (digit d)) = false ∧
    UInt8.ofInt (digit d) ≠ 0 ∧ UInt8.ofInt (digit d) ≠ 43 ∧ UInt8.ofInt (digit d) ≠ 45 ∧
    (UInt8.ofInt (digit d) = 48 → d = 0) := by
  decide

private theorem numeralBytes_lt (hn : n < base) : numeralBytes base n = [UInt8.ofInt (digit n)] := by
  rw [numeralBytes, numeral_lt hn]
  rfl

private theorem numeralBytes_le (hbase : 2 ≤ base) (hn : base ≤ n) :
    numeralBytes base n = numeralBytes base (n / base) ++ [UInt8.ofInt (digit (n % base))] := by
  rw [numeralBytes, numeral_le hbase hn, List.map_append]
  rfl

private theorem readDigits_digit {d : Nat} (hm : m s = UInt8.ofInt (digit d)) (hd : d < base) (hd' : d < 36) :
    readDigits m base (fuel + 1) s val =
      readDigits m base fuel (s + 1) (val * BitVec.ofNat 32 base + BitVec.ofNat 32 d) := by
  rw [readDigits, hm, (digit_byte d hd').1, Option.elim_some, if_neg (by omega), BitVec.ofInt_natCast]

private theorem readDigits_ends (h : StringAt m s l) (hl : Ends base l) :
    readDigits m base (fuel + 1) s val = some (val, s) := by
  rw [readDigits, h.head]
  cases hd : digitValue (l.headD 0) with
  | none => rfl
  | some d =>
    have hle := hl.2 d hd
    rw [Option.elim_some, if_pos (by exact_mod_cast hle)]

private theorem readDigits_numeral (hbase : 2 ≤ base) (hbase' : base ≤ 36) (n : Nat)
    (h : StringAt m s (numeralBytes base n ++ rest)) (fuel : Nat) :
    readDigits m base (fuel + (numeralBytes base n).length) s 0 =
      readDigits m base fuel (s + (numeralBytes base n).length) (BitVec.ofNat 32 n) := by
  induction n using Nat.strongRecOn generalizing rest fuel with
  | ind n ih =>
    by_cases hn : n < base
    · rw [numeralBytes_lt hn] at h ⊢
      have hstart : (0 : BitVec 32) * BitVec.ofNat 32 base + BitVec.ofNat 32 n = BitVec.ofNat 32 n := by simp
      have hstep := @readDigits_digit m s fuel base 0 n h.1 hn (by omega)
      rw [hstart] at hstep
      exact hstep
    · have hle : base ≤ n := not_lt.mp hn
      have hmod : n % base < base := Nat.mod_lt _ (by omega)
      rw [numeralBytes_le hbase hle] at h ⊢
      rw [List.append_assoc] at h
      have hfront := ih (n / base) (Nat.div_lt_self (by omega) (by omega)) h (fuel + 1)
      rw [List.length_append, List.length_singleton, ← Nat.add_assoc, Nat.add_right_comm, hfront,
        readDigits_digit h.append.1 hmod (by omega), ← BitVec.ofNat_mul, ← BitVec.ofNat_add, Nat.div_add_mod',
        Nat.add_assoc]

theorem Ends.mono {base' : Nat} (h : Ends base l) (hle : base' ≤ base) : Ends base' l :=
  ⟨h.1, fun d hd => hle.trans (h.2 d hd)⟩

private theorem numeralBytes_zero (base : Nat) : numeralBytes base 0 = [48] := rfl

private theorem numeralBytes_cons (hbase : 2 ≤ base) (n : Nat) : ∃ d w, d < base ∧
    numeralBytes base n = UInt8.ofInt (digit d) :: w ∧ (d = 0 → n = 0) := by
  have hdigits := @numeral_digits base n hbase
  have hhead := @numeral_head base n
  have hne : numeral base n ≠ [] := by
    rw [numeral]
    split
    · exact List.cons_ne_nil _ _
    · next hn =>
      rw [ne_eq, List.map_eq_nil_iff, List.reverse_eq_nil_iff]
      exact Nat.digits_ne_nil_iff_ne_zero.mpr hn
  rw [numeralBytes]
  cases hnum : numeral base n with
  | nil => exact absurd hnum hne
  | cons c w =>
    rw [hnum] at hdigits hhead
    obtain ⟨d, hd, rfl⟩ := hdigits c List.mem_cons_self
    refine ⟨d, w.map UInt8.ofInt, hd, rfl, ?_⟩
    intro hd0
    by_contra hn
    apply hhead hn
    rw [hd0]
    rfl

private theorem readDigits_all (hbase : 2 ≤ base) (hbase' : base ≤ 36) (h : StringAt m s (numeralBytes base n ++ rest))
    (hrest : Ends base rest) (hf : (numeralBytes base n).length < fuel) :
    readDigits m base fuel s 0 = some (BitVec.ofNat 32 n, s + (numeralBytes base n).length) := by
  obtain ⟨k, rfl⟩ := Nat.exists_eq_add_of_lt hf
  have hloop := readDigits_numeral hbase hbase' n h (k + 1)
  rw [Nat.add_comm (k + 1), ← Nat.add_assoc] at hloop
  rw [hloop]
  exact readDigits_ends h.append hrest

private theorem readBase_digits {b : Int} (hbase : 2 ≤ base) (hbase' : base ≤ 36) (hb : b = base ∨ b = 0 ∧ base = 10)
    (h : StringAt m s (numeralBytes base n ++ rest)) (hrest : Ends base rest)
    (hf : (numeralBytes base n).length < fuel) :
    readDigits m (readBase m s b).2 fuel (readBase m s b).1 0 =
      some (BitVec.ofNat 32 n, s + (numeralBytes base n).length) := by
  obtain ⟨d, w, hd, hnum, hzero⟩ := numeralBytes_cons hbase n
  obtain ⟨-, -, -, -, -, hdigit⟩ := digit_byte d (by omega)
  have hfirst : m s = UInt8.ofInt (digit d) := by
    rw [hnum] at h
    exact h.1
  have hall := readDigits_all hbase hbase' h hrest hf
  by_cases h48 : m s = 48
  · -- a lone zero, which no `x` follows
    have hn := hzero (hdigit (hfirst.symm.trans h48))
    rw [hn, numeralBytes_zero] at h hall hf ⊢
    have hbehind : StringAt m (s + 1) rest := h.append
    have hx : m (s + 1) ≠ 120 := by
      rw [hbehind.head]
      exact hrest.1
    rw [readBase, if_neg (fun hc => hx hc.2.2)]
    rcases hb with rfl | ⟨rfl, rfl⟩
    · rw [if_neg (by omega), if_neg (by omega)]
      exact hall
    · obtain ⟨fuel, rfl⟩ := Nat.exists_eq_add_one_of_ne_zero (Nat.ne_of_gt (Nat.zero_lt_of_lt hf))
      rw [if_pos ⟨rfl, h48⟩]
      exact readDigits_ends hbehind (hrest.mono (by decide))
  · rw [readBase, if_neg (fun hc => h48 hc.2.1), if_neg (fun hc => h48 hc.2)]
    rcases hb with rfl | ⟨rfl, rfl⟩
    · rw [if_neg (by omega)]
      exact hall
    · rw [if_pos rfl]
      exact hall

end Digits

section Numerals

variable {m : Nat → UInt8} {s fuel base n : Nat} {blanks sign rest : List UInt8} {b : Int}

private theorem strtol_numeral (hbase : 2 ≤ base) (hbase' : base ≤ 36) (hb : b = base ∨ b = 0 ∧ base = 10)
    (hblanks : ∀ c ∈ blanks, isGap c = true) (hsign : sign = [] ∨ sign = [45])
    (h : StringAt m s (blanks ++ (sign ++ (numeralBytes base n ++ rest)))) (hrest : Ends base rest)
    (hf : (blanks ++ (sign ++ (numeralBytes base n ++ rest))).length < fuel) :
    strtol fuel m s b = some (if sign = [] then BitVec.ofNat 32 n else -BitVec.ofNat 32 n,
      s + blanks.length + sign.length + (numeralBytes base n).length) := by
  obtain ⟨d, w, hd, hnum, -⟩ := numeralBytes_cons hbase n
  obtain ⟨-, hgap, -, hplus, hminus, -⟩ := digit_byte d (by omega)
  have hscan := skipWhile_spec (show isGap 0 = false from rfl) h hf
  have hstop : (sign ++ (numeralBytes base n ++ rest)).takeWhile isGap = [] := by
    rcases hsign with rfl | rfl
    · rw [List.nil_append, hnum, List.cons_append, List.takeWhile_cons_of_neg (by rw [hgap]; exact Bool.false_ne_true)]
    · exact List.takeWhile_cons_of_neg (by decide)
  rw [List.takeWhile_append_of_pos hblanks, hstop, List.append_nil] at hscan
  have htext := h.append
  have hlen : (numeralBytes base n).length < fuel := by
    simp only [List.length_append] at hf
    omega
  rw [strtol, hscan]
  dsimp only [Option.bind_eq_bind, Option.bind_some]
  rcases hsign with rfl | rfl
  · have hfirst : m (s + blanks.length) = UInt8.ofInt (digit d) := by
      rw [List.nil_append, hnum] at htext
      exact htext.1
    have hnone : readSign m (s + blanks.length) = (s + blanks.length, false) := by
      rw [readSign, hfirst, if_neg hplus, if_neg hminus]
    rw [hnone, readBase_digits hbase hbase' hb htext hrest hlen]
    rfl
  · have hneg : readSign m (s + blanks.length) = (s + blanks.length + 1, true) := by
      rw [readSign, htext.1, if_neg (by decide), if_pos rfl]
    rw [hneg, readBase_digits hbase hbase' hb htext.2.2 hrest hlen]
    rfl

end Numerals

section Printed

variable {ap : Nat → BitVec 32} {j : Nat} {c : UInt8} {v : Int}

private theorem conversionBase_cases (c : UInt8) : 2 ≤ conversionBase c ∧ conversionBase c ≤ 36 := by
  rw [conversionBase]
  split
  · exact ⟨by decide, by decide⟩
  · split
    · exact ⟨by decide, by decide⟩
    · exact ⟨by decide, by decide⟩

private theorem ofInt_printed (v : Int) : BitVec.ofInt 32 v =
    if v < 0 then -BitVec.ofNat 32 (v.natAbs % 2 ^ 32) else BitVec.ofNat 32 (v.natAbs % 2 ^ 32) := by
  have hmod : BitVec.ofNat 32 (v.natAbs % 2 ^ 32) = BitVec.ofInt 32 v.natAbs := by
    rw [BitVec.ofInt_natCast]
    apply BitVec.eq_of_toNat_eq
    simp
  rw [hmod, ← BitVec.ofInt_neg]
  split
  · next hneg => rw [Int.ofNat_natAbs_of_nonpos hneg.le, neg_neg]
  · next hpos => rw [Int.natAbs_of_nonneg (not_lt.mp hpos)]

private theorem printed_bytes (ap : Nat → BitVec 32) (j : Nat) (c : UInt8) : ∃ sign, (sign = [] ∨ sign = [45]) ∧
    (printed ap j c).map UInt8.ofInt =
      sign ++ numeralBytes (conversionBase c) ((argumentValue ap j c).natAbs % 2 ^ 32) ∧
    BitVec.ofInt 32 (argumentValue ap j c) =
      if sign = [] then BitVec.ofNat 32 ((argumentValue ap j c).natAbs % 2 ^ 32)
      else -BitVec.ofNat 32 ((argumentValue ap j c).natAbs % 2 ^ 32) := by
  have hlow := ofInt_printed (argumentValue ap j c)
  by_cases hneg : argumentValue ap j c < 0
  · rw [if_pos hneg] at hlow
    rw [printed_of_neg hneg]
    exact ⟨[45], .inr rfl, rfl, hlow⟩
  · rw [if_neg hneg] at hlow
    rw [printed_of_nonneg hneg]
    exact ⟨[], .inl rfl, rfl, hlow⟩

private theorem zero_not_mem_printed (ap : Nat → BitVec 32) (j : Nat) (c : UInt8) :
    (0 : UInt8) ∉ (printed ap j c).map UInt8.ofInt := by
  obtain ⟨hbase, hbase'⟩ := conversionBase_cases c
  obtain ⟨sign, hsign, hbytes, -⟩ := printed_bytes ap j c
  rw [hbytes, List.mem_append]
  rintro (hmem | hmem)
  · rcases hsign with rfl | rfl
    · cases hmem
    · exact absurd hmem (by decide)
  · obtain ⟨i, hi, hzero⟩ := List.mem_map.mp hmem
    obtain ⟨d, hd, rfl⟩ := numeral_digits hbase i hi
    exact (digit_byte d (by omega)).2.2.1 hzero

private theorem zero_not_mem_integerFormat (hc : c ∈ integerConversions) (j : Nat) :
    (0 : UInt8) ∉ integerFormat j c := by
  have hne : (0 : UInt8) ≠ c := by
    rintro rfl
    exact absurd hc (by decide)
  simp [integerFormat, PERCENT, hne]

private theorem ends_nil (base : Nat) : Ends base [] := by
  refine ⟨by decide, ?_⟩
  intro d hd
  cases hd

end Printed

/-- Every integer that formatted output writes is read back by `strtol` in the base of the conversion, as far as 32 bits
go: from any place where the text stands, and from the buffer that `snprintf` has filled. -/
theorem strtol_reads_printed (m : Nat → UInt8) (ap : Nat → BitVec 32) (j : Nat) (c : UInt8) (b : Int)
    (hc : c ∈ integerConversions) (hb : b = conversionBase c ∨ b = 0 ∧ conversionBase c = 10) :
    (∃ F, ∀ fuel ≥ F, vprintfmt fuel (formatBytes (integerFormat j c)) m ap 0 0 = some (printed ap j c)) ∧
      (∀ (m' : Nat → UInt8) (s : Nat) (blanks rest : List UInt8), (∀ x ∈ blanks, isGap x = true) →
        Ends (conversionBase c) rest → StringAt m' s (blanks ++ ((printed ap j c).map UInt8.ofInt ++ rest)) →
          ∃ F, ∀ fuel ≥ F, strtol fuel m' s b =
            some (BitVec.ofInt 32 (argumentValue ap j c), s + blanks.length + (printed ap j c).length)) ∧
      ∀ buf n : BitVec 32, buf ≠ 0 → 1 ≤ n.toInt → buf.toNat + n.toNat ≤ 2 ^ 32 → (printed ap j c).length < n.toNat →
        ∃ m', ∃ F, ∀ fuel ≥ F, vsnprintf fuel m buf n (formatBytes (integerFormat j c)) ap =
            some (((printed ap j c).length : Int), m') ∧
          strtol fuel m' buf.toNat b =
            some (BitVec.ofInt 32 (argumentValue ap j c), buf.toNat + (printed ap j c).length) := by
  obtain ⟨hbase, hbase'⟩ := conversionBase_cases c
  obtain ⟨sign, hsign, hbytes, hvalue⟩ := printed_bytes ap j c
  have hprints := vprintfmt_integer m ap j hc
  have hread (m' : Nat → UInt8) (s : Nat) (blanks rest : List UInt8) (hblanks : ∀ x ∈ blanks, isGap x = true)
      (hrest : Ends (conversionBase c) rest)
      (h : StringAt m' s (blanks ++ ((printed ap j c).map UInt8.ofInt ++ rest))) : ∃ F, ∀ fuel ≥ F, strtol fuel m' s b =
        some (BitVec.ofInt 32 (argumentValue ap j c), s + blanks.length + (printed ap j c).length) := by
    have hlen := congrArg List.length hbytes
    rw [List.length_map, List.length_append] at hlen
    rw [hbytes, List.append_assoc] at h
    rw [hvalue, hlen, ← Nat.add_assoc]
    exact ⟨_, fun fuel hf => strtol_numeral hbase hbase' hb hblanks hsign h hrest (Nat.lt_of_succ_le hf)⟩
  refine ⟨hprints, hread, ?_⟩
  intro buf n hbuf hn hfit hlen
  have hclear : StringsClear (bufferBytes buf n) m ap (items (integerFormat j c)) 0 := by
    rw [items_integer hc]
    refine ⟨?_, trivial⟩
    rintro rfl
    exact absurd hc (by decide)
  have hlarge : (printed ap j c).length < 2 ^ 31 := by
    have hn' := BitVec.toInt_eq_toNat_cond n
    split_ifs at hn' <;> omega
  obtain ⟨m', ⟨F, hF⟩, hmem, -⟩ :=
    vsnprintf_run (zero_not_mem_integerFormat hc j) hprints hbuf hn hfit hclear hlarge
  rw [stored, List.take_of_length_le (by omega)] at hmem
  have htext : StringAt m' buf.toNat ((printed ap j c).map UInt8.ofInt) := by
    apply hmem.left.stringAt (zero_not_mem_printed ap j c)
    have hzero := hmem ((printed ap j c).map UInt8.ofInt).length (by rw [List.length_append]; exact Nat.lt_succ_self _)
    rw [hzero]
    simp
  obtain ⟨G, hG⟩ := hread m' buf.toNat [] [] (fun x hx => absurd hx List.not_mem_nil) (ends_nil _)
    (by rw [List.append_nil]; exact htext)
  exact ⟨m', max F G, fun fuel hf => ⟨hF fuel (le_of_max_le_left hf), hG fuel (le_of_max_le_right hf)⟩⟩

/-- `%d` of -17, in a buffer of 16 bytes. -/
theorem strtol_reads_printed_sample : ∃ m', ∃ F, ∀ fuel ≥ F,
    vsnprintf fuel (fun _ => 0) 4096 16 (formatBytes (integerFormat 0 100)) (fun _ => -17) = some (3, m') ∧
      strtol fuel m' 4096 0 = some (-17, 4099) := by
  have hprinted : printed (fun _ => -17) 0 100 = [45, 49, 55] := by
    rw [printed, argumentValue]
    simp [conversionBase, numeral, digit]
  have hvalue : BitVec.ofInt 32 (argumentValue (fun _ => -17) 0 100) = -17 := by decide
  have hround := (strtol_reads_printed (fun _ => 0) (fun _ => -17) 0 100 0 (by decide) (.inr ⟨rfl, rfl⟩)).2.2 4096 16
    (by decide) (by decide) (by decide) (by rw [hprinted]; decide)
  rw [hprinted, hvalue] at hround
  exact hround

end DamnOS.Programs
