import DamnOS.Programs.FormatText

/-!
# Formatted output into a sink

`vprintfmt` calls `putch` for each character, and strings are read while it does.  What a sink gets does not depend on
the sink, as long as it leaves the strings alone.
-/

namespace DamnOS.Programs

open DamnOS.Framework

variable {σ : Type}

/-- `putch` and `putdat`, with the memory that strings are read from. -/
structure Sink (σ : Type) where
  putch : Int → σ → σ
  mem : σ → Nat → UInt8

namespace Sink

def puts (S : Sink σ) (out : List Int) (s : σ) : σ := out.foldl (fun s c => S.putch c s) s

/-- The same `putch`, while strings are read elsewhere. -/
def reading (S : Sink σ) (m : Nat → UInt8) : Sink σ := { S with mem := fun _ => m }

def printnum (S : Sink σ) (num base : Nat) (width : BitVec 32) (padc : Int) (s : σ) : σ :=
  if base ≤ num ∧ 2 ≤ base then S.putch (digit (num % base)) (S.printnum (num / base) base (width - 1) padc s)
  else S.putch (digit (num % base)) ((S.putch padc)^[((width - 1).toInt).toNat] s)
termination_by num
decreasing_by exact Nat.div_lt_self (by omega) (by omega)

/-- The loop over the bytes of a string, with the width that is left. -/
def putString (S : Sink σ) (altflag : Bool) : Nat → Nat → BitVec 32 → BitVec 32 → σ → Option (σ × BitVec 32)
  | 0, _, _, _, _ => none
  | fuel + 1, p, precision, width, s =>
    if S.mem s p ≠ 0 ∧ (precision.toInt < 0 ∨ 0 ≤ (precision - 1).toInt) then
      S.putString altflag fuel (p + 1) (if precision.toInt < 0 then precision else precision - 1) (width - 1)
        (S.putch (shown altflag (S.mem s p)) s)
    else some (s, width)

def convertString (S : Sink σ) (fuel p : Nat) (e : Escape) (s : σ) : Option σ := do
  let (s, width) ←
    if 0 < e.width.toInt ∧ e.padc ≠ 45 then do
      let n ← strnlen (S.mem s) fuel p e.precision.toNat
      let width := e.width - BitVec.ofNat 32 n
      some ((S.putch e.padc)^[width.toInt.toNat] s, if 0 < width.toInt then 0 else width)
    else some (s, e.width)
  let (s, width) ← S.putString e.altflag fuel p e.precision width s
  some ((S.putch 32)^[width.toInt.toNat] s)

def convertError (S : Sink σ) (printfmt : Sink σ → List UInt8 → (Nat → BitVec 32) → σ → Option σ) (a : BitVec 32)
    (s : σ) : Option σ :=
  let err := if a.toInt < 0 then -a else a
  let text := if (errorStrings : Int) ≤ err.toInt then none else errorString err
  match text with
  | none => printfmt S "error %d".toUTF8.toList (fun _ => err) s
  | some t => printfmt (S.reading fun x => memoryOf t (x - 1)) "%s".toUTF8.toList (fun _ => 1) s

/-- `%s` with its argument; `"(null)"` for a null pointer. -/
def convertStringArg (S : Sink σ) (fuel : Nat) (a : BitVec 32) (e : Escape) (s : σ) : Option σ :=
  if a = 0 then (S.reading (memoryOf nullText)).convertString fuel 0 e s else S.convertString fuel a.toNat e s

/-- The conversions, with the number of words they take. -/
def convert (S : Sink σ) (printfmt : Sink σ → List UInt8 → (Nat → BitVec 32) → σ → Option σ) (fuel : Nat)
    (ap : Nat → BitVec 32) (k : Nat) (e : Escape) (ch : UInt8) (s : σ) : Option (σ × Nat) :=
  if ch = 99 then some (S.putch (ap k).toInt s, 1)
  else if ch = 101 then (S.convertError printfmt (ap k) s).map fun s => (s, 1)
  else if ch = 115 then (S.convertStringArg fuel (ap k) e s).map fun s => (s, 1)
  else if ch = 100 then
    let (num, n) := getint ap k e.lflag
    if num.toInt < 0 then some (S.printnum (printnumArg (-num)) 10 e.width e.padc (S.putch 45 s), n)
    else some (S.printnum (printnumArg num) 10 e.width e.padc s, n)
  else if ch = 117 then
    some (S.printnum (printnumArg (getuint ap k e.lflag).1) 10 e.width e.padc s, (getuint ap k e.lflag).2)
  else if ch = 111 then
    some (S.printnum (printnumArg (getuint ap k e.lflag).1) 8 e.width e.padc s, (getuint ap k e.lflag).2)
  else if ch = 112 then
    some (S.printnum (ap k).toNat 16 e.width e.padc (S.putch 120 (S.putch 48 s)), 1)
  else if ch = 120 then
    some (S.printnum (printnumArg (getuint ap k e.lflag).1) 16 e.width e.padc s, (getuint ap k e.lflag).2)
  else some (S.putch 37 s, 0)

def vprintfmt : Nat → Sink σ → (Nat → Option UInt8) → (Nat → BitVec 32) → Nat → Nat → σ → Option σ
  | 0, _, _, _, _, _, _ => none
  | fuel + 1, S, fmt, ap, p, k, s => do
    let ch ← fmt p
    if ch = 0 then some s
    else if ch ≠ PERCENT then vprintfmt fuel S fmt ap (p + 1) k (S.putch (ch.toNat : Int) s)
    else do
      let (ch, p, k, e) ← reswitch fmt ap fuel (p + 1) k Escape.start
      if isConversion ch then do
        let (s, n) ← S.convert (fun S l ap => vprintfmt fuel S (formatBytes l) ap 0 0) fuel ap k e ch s
        vprintfmt fuel S fmt ap p (k + n) s
      else do
        let p ← backUp fmt fuel (p - 1)
        vprintfmt fuel S fmt ap p k (S.putch 37 s)

/-- Outside `B` the memory is `m`, now and whatever is put into the sink. -/
def Keeps (S : Sink σ) (B : Set Nat) (m : Nat → UInt8) (s : σ) : Prop :=
  ∀ out x, x ∉ B → S.mem (S.puts out s) x = m x

end Sink

/-- A string, with its terminator, that has no byte in `B`. -/
def ClearOf (B : Set Nat) (m : Nat → UInt8) (a : Nat) : Prop :=
  ∃ l, StringAt m a l ∧ ∀ x, a ≤ x → x ≤ a + l.length → x ∉ B

/-- Every argument for `%s` is a null pointer or points to a string that has no byte in `B`. -/
def StringsClear (B : Set Nat) (m : Nat → UInt8) (ap : Nat → BitVec 32) : List Item → Nat → Prop
  | [], _ => True
  | .text _ :: is, k => StringsClear B m ap is k
  | .unknown mods :: is, k => StringsClear B m ap is (modifiers ap mods k .start).1
  | .conversion mods c :: is, k =>
    (c = 115 → ap (modifiers ap mods k .start).1 = 0 ∨ ClearOf B m (ap (modifiers ap mods k .start).1).toNat) ∧
    StringsClear B m ap is ((modifiers ap mods k .start).1 + argWords (modifiers ap mods k .start).2.lflag c)

section Conversion

variable {S : Sink σ} {B : Set Nat} {m m' : Nat → UInt8} {s : σ} {l : List UInt8} {p fuel : Nat}

@[simp] theorem Sink.puts_nil (S : Sink σ) (s : σ) : S.puts [] s = s := rfl

@[simp] theorem Sink.puts_cons (S : Sink σ) (c : Int) (out : List Int) (s : σ) :
    S.puts (c :: out) s = S.puts out (S.putch c s) := rfl

theorem Sink.puts_append (S : Sink σ) (out rest : List Int) (s : σ) :
    S.puts (out ++ rest) s = S.puts rest (S.puts out s) := List.foldl_append

private theorem Sink.puts_replicate (S : Sink σ) (c : Int) (n : Nat) (s : σ) :
    S.puts (List.replicate n c) s = (S.putch c)^[n] s := by
  induction n generalizing s with
  | zero => rfl
  | succ n ih => exact ih (S.putch c s)

theorem Sink.Keeps.now (h : S.Keeps B m s) {x : Nat} (hx : x ∉ B) : S.mem s x = m x := h [] x hx

theorem Sink.Keeps.putch (h : S.Keeps B m s) (c : Int) : S.Keeps B m (S.putch c s) :=
  fun out x hx => h (c :: out) x hx

theorem Sink.Keeps.puts (h : S.Keeps B m s) (out : List Int) : S.Keeps B m (S.puts out s) := by
  induction out generalizing s with
  | nil => exact h
  | cons c out ih => exact ih (h.putch c)

private theorem Sink.keeps_reading (S : Sink σ) (m : Nat → UInt8) (s : σ) : (S.reading m).Keeps ∅ m s :=
  fun _ _ _ => rfl

private theorem Sink.printnum_eq (S : Sink σ) (num base : Nat) (width : BitVec 32) (padc : Int) (s : σ) :
    S.printnum num base width padc s = S.puts (DamnOS.Programs.printnum num base width padc) s := by
  fun_induction DamnOS.Programs.printnum num base width padc with
  | case1 num width h ih =>
    rw [Sink.printnum, if_pos h, ih, Sink.puts_append]
    rfl
  | case2 num width h =>
    rw [Sink.printnum, if_neg h, Sink.puts_append, Sink.puts_replicate]
    rfl

private theorem strnlen_congr (h : StringAt m p l) (hm : ∀ x, p ≤ x → x ≤ p + l.length → m' x = m x) (fuel size : Nat) :
    strnlen m' fuel p size = strnlen m fuel p size := by
  induction l generalizing p fuel size with
  | nil =>
    cases fuel with
    | zero => rfl
    | succ fuel =>
      have hp := hm p le_rfl le_self_add
      rw [strnlen, strnlen, hp, if_neg (fun hc => hc.2 h), if_neg (fun hc => hc.2 h)]
  | cons c l ih =>
    cases fuel with
    | zero => rfl
    | succ fuel =>
      have hp := hm p le_rfl le_self_add
      have hrest := ih h.2.2 fun x hx hle => hm x (by omega) (by rw [List.length_cons]; omega)
      rw [strnlen, strnlen, hp, hrest]

private theorem Sink.putString_eq (hk : S.Keeps B m s) (h : StringAt m p l) (hB : ∀ x, p ≤ x → x ≤ p + l.length → x ∉ B)
    (altflag : Bool) (fuel : Nat) (precision width : BitVec 32) :
    S.putString altflag fuel p precision width s =
      (DamnOS.Programs.putString m altflag fuel p precision width).map fun r => (S.puts r.1 s, r.2) := by
  induction l generalizing p fuel precision width s with
  | nil =>
    cases fuel with
    | zero => rfl
    | succ fuel =>
      have hp : S.mem s p = m p := hk.now (hB p le_rfl le_self_add)
      rw [Sink.putString, DamnOS.Programs.putString, hp, if_neg (fun hc => hc.1 h), if_neg (fun hc => hc.1 h)]
      rfl
  | cons c l ih =>
    cases fuel with
    | zero => rfl
    | succ fuel =>
      have hp : S.mem s p = m p := hk.now (hB p le_rfl le_self_add)
      rw [Sink.putString, DamnOS.Programs.putString, hp]
      by_cases hc : m p ≠ 0 ∧ (precision.toInt < 0 ∨ 0 ≤ (precision - 1).toInt)
      · rw [if_pos hc, if_pos hc, ih (hk.putch (shown altflag (m p))) h.2.2
          (fun x hx hle => hB x (by omega) (by rw [List.length_cons]; omega)), Option.map_map]
        rfl
      · rw [if_neg hc, if_neg hc]
        rfl

private theorem Sink.convertString_eq (hk : S.Keeps B m s) (h : StringAt m p l)
    (hB : ∀ x, p ≤ x → x ≤ p + l.length → x ∉ B) (fuel : Nat) (e : Escape) :
    S.convertString fuel p e s = (DamnOS.Programs.convertString fuel m p e).map fun out => S.puts out s := by
  have hread := strnlen_congr h (fun x hx hle => hk.now (hB x hx hle)) fuel e.precision.toNat
  rw [Sink.convertString, DamnOS.Programs.convertString]
  by_cases hc : 0 < e.width.toInt ∧ e.padc ≠ 45
  · rw [if_pos hc, if_pos hc, hread]
    cases hn : strnlen m fuel p e.precision.toNat with
    | none => rfl
    | some n =>
      dsimp only [Option.bind_eq_bind, Option.bind_some]
      rw [← Sink.puts_replicate, Sink.putString_eq (hk.puts _) h hB]
      cases DamnOS.Programs.putString m e.altflag fuel p e.precision
          (if 0 < (e.width - BitVec.ofNat 32 n).toInt then 0 else e.width - BitVec.ofNat 32 n) with
      | none => rfl
      | some r =>
        dsimp only [Option.map_some, Option.bind_some]
        rw [← Sink.puts_replicate, Sink.puts_append, Sink.puts_append]
  · rw [if_neg hc, if_neg hc]
    dsimp only [Option.bind_eq_bind, Option.bind_some]
    rw [Sink.putString_eq hk h hB]
    cases DamnOS.Programs.putString m e.altflag fuel p e.precision e.width with
    | none => rfl
    | some r =>
      dsimp only [Option.map_some, Option.bind_some]
      rw [← Sink.puts_replicate, List.nil_append, Sink.puts_append]

private theorem Sink.convertStringArg_eq {a : BitVec 32} (hk : S.Keeps B m s) (ha : a = 0 ∨ ClearOf B m a.toNat)
    (fuel : Nat) (e : Escape) :
    S.convertStringArg fuel a e s =
      (DamnOS.Programs.convertString fuel (stringArg m a).1 (stringArg m a).2 e).map fun out => S.puts out s := by
  rw [Sink.convertStringArg, stringArg]
  by_cases hnull : a = 0
  · rw [if_pos hnull, if_pos hnull]
    exact Sink.convertString_eq (S.keeps_reading _ s) (stringAt_memoryOf (l := nullText) (by decide))
      (fun x _ _ => Set.notMem_empty x) fuel e
  · obtain ⟨l, h, hB⟩ := ha.resolve_left hnull
    rw [if_neg hnull, if_neg hnull]
    exact Sink.convertString_eq hk h hB fuel e

end Conversion

section Fuel

variable {fmt : Nat → Option UInt8} {ap : Nat → BitVec 32} {fuel fuel' p k q : Nat} {s : Escape} {c : UInt8}
  {n : BitVec 32}

private theorem readNumber_mono {x : BitVec 32 × Nat} (h : readNumber fmt fuel c p n = some x) (hle : fuel ≤ fuel') :
    readNumber fmt fuel' c p n = some x := by
  induction fuel generalizing fuel' c p n with
  | zero => cases h
  | succ fuel ih =>
    obtain ⟨fuel', rfl⟩ := Nat.exists_eq_add_one_of_ne_zero (Nat.ne_of_gt (Nat.zero_lt_of_lt hle))
    rw [readNumber] at h ⊢
    obtain ⟨d, hd, h⟩ := Option.bind_eq_some_iff.mp h
    rw [hd]
    dsimp only [Option.bind_eq_bind, Option.bind_some]
    split at h
    · next hdigit =>
      rw [if_pos hdigit]
      exact ih h (Nat.le_of_succ_le_succ hle)
    · next hdigit =>
      rw [if_neg hdigit]
      exact h

private theorem reswitch_mono {x : UInt8 × Nat × Nat × Escape} (h : reswitch fmt ap fuel p k s = some x)
    (hle : fuel ≤ fuel') : reswitch fmt ap fuel' p k s = some x := by
  induction fuel generalizing fuel' p k s with
  | zero => cases h
  | succ fuel ih =>
    obtain ⟨fuel', rfl⟩ := Nat.exists_eq_add_one_of_ne_zero (Nat.ne_of_gt (Nat.zero_lt_of_lt hle))
    have hle' : fuel ≤ fuel' := Nat.le_of_succ_le_succ hle
    rw [reswitch] at h ⊢
    obtain ⟨ch, hch, h⟩ := Option.bind_eq_some_iff.mp h
    rw [hch]
    dsimp only [Option.bind_eq_bind, Option.bind_some] at h ⊢
    split_ifs at h ⊢
    · exact ih h hle'
    · exact ih h hle'
    · obtain ⟨y, hy, h⟩ := Option.bind_eq_some_iff.mp h
      rw [readNumber_mono hy hle']
      exact ih h hle'
    · exact ih h hle'
    · exact ih h hle'
    · exact ih h hle'
    · exact ih h hle'
    · exact h

private theorem backUp_mono (h : backUp fmt fuel p = some q) (hle : fuel ≤ fuel') : backUp fmt fuel' p = some q := by
  induction fuel generalizing fuel' p with
  | zero => cases h
  | succ fuel ih =>
    obtain ⟨fuel', rfl⟩ := Nat.exists_eq_add_one_of_ne_zero (Nat.ne_of_gt (Nat.zero_lt_of_lt hle))
    rw [backUp] at h ⊢
    split_ifs at h ⊢
    obtain ⟨ch, hch, h⟩ := Option.bind_eq_some_iff.mp h
    rw [hch]
    dsimp only [Option.bind_eq_bind, Option.bind_some]
    split at h
    · next hne =>
      rw [if_pos hne]
      exact ih h (Nat.le_of_succ_le_succ hle)
    · next heq =>
      rw [if_neg heq]
      exact h

private theorem reswitch_eq {l r : List UInt8} (h : Rest l p r) {x : UInt8 × Nat × Nat × Escape}
    (hx : reswitch (formatBytes l) ap fuel p k s = some x) :
    x = ((r.dropWhile isModifier).headD 0, p + (r.takeWhile isModifier).length + 1,
      (modifiers ap (r.takeWhile isModifier) k s).1, (modifiers ap (r.takeWhile isModifier) k s).2) := by
  have henough := reswitch_mono hx (le_max_left fuel (r.length + 1))
  rw [reswitch_escape h (Nat.lt_of_succ_le (le_max_right fuel (r.length + 1)))] at henough
  exact (Option.some.inj henough).symm

private theorem backUp_eq {l r : List UInt8} (h : Rest l p (PERCENT :: r))
    (hq : backUp (formatBytes l) fuel (p + 1 + (r.takeWhile isModifier).length) = some q) : q = p + 1 := by
  have hback : ∀ fuel > r.length,
      backUp (formatBytes l) fuel (p + 1 + (r.takeWhile isModifier).length) = some (p + 1) := by
    intro fuel hf
    have hlen : (r.takeWhile isModifier).length ≤ r.length := (List.takeWhile_sublist _).length_le
    refine @backUp_spec l (r.dropWhile isModifier) (r.takeWhile isModifier) p fuel ?_ ?_ _ le_rfl (by omega)
    · rwa [List.cons_append, List.takeWhile_append_dropWhile]
    · intro hm
      have hmod := List.mem_takeWhile_imp hm
      revert hmod
      decide
  have henough := backUp_mono hq (le_max_left fuel (r.length + 1))
  rw [hback _ (Nat.lt_of_succ_le (le_max_right fuel (r.length + 1)))] at henough
  exact (Option.some.inj henough).symm

private theorem convert_words {printfmt : List UInt8 → (Nat → UInt8) → (Nat → BitVec 32) → Option (List Int)}
    {m : Nat → UInt8} (hc : isConversion c = true) {x : List Int × Nat}
    (h : convert printfmt fuel m ap k s c = some x) : x.2 = argWords s.lflag c := by
  simp only [isConversion, List.contains_iff_mem, List.mem_cons, List.not_mem_nil, or_false] at hc
  rcases hc with rfl | rfl | rfl | rfl | rfl | rfl | rfl | rfl | rfl
  · cases h
    rfl
  · obtain ⟨out, -, rfl⟩ := Option.map_eq_some_iff.mp h
    rfl
  · obtain ⟨out, -, rfl⟩ := Option.map_eq_some_iff.mp h
    rfl
  · change (if (getint ap k s.lflag).1.toInt < 0 then _ else _) = _ at h
    have hx : x.2 = (getint ap k s.lflag).2 := by
      split at h
      · cases h
        rfl
      · cases h
        rfl
    exact hx.trans (argWords_int (by decide) ap k s.lflag).1
  · cases h
    exact (argWords_int (by decide) ap k s.lflag).2
  · cases h
    exact (argWords_int (by decide) ap k s.lflag).2
  · cases h
    rfl
  · cases h
    exact (argWords_int (by decide) ap k s.lflag).2
  · cases h
    rfl

end Fuel

section Formats

variable {S : Sink σ} {B : Set Nat} {m : Nat → UInt8} {s : σ} {l r : List UInt8} {ap : Nat → BitVec 32} {p k fuel : Nat}

private theorem Sink.convertError_eq (hk : S.Keeps B m s)
    (printfmtTo : Sink σ → List UInt8 → (Nat → BitVec 32) → σ → Option σ)
    (printfmt : List UInt8 → (Nat → UInt8) → (Nat → BitVec 32) → Option (List Int))
    (hprint : ∀ (S : Sink σ) (B : Set Nat) (m : Nat → UInt8) (s : σ) (l : List UInt8) (ap : Nat → BitVec 32),
      S.Keeps B m s → (0 : UInt8) ∉ l → StringsClear B m ap (items l) 0 →
        printfmtTo S l ap s = (printfmt l m ap).map fun out => S.puts out s) (a : BitVec 32) :
    S.convertError printfmtTo a s = (DamnOS.Programs.convertError printfmt m a).map fun out => S.puts out s := by
  have hone (err : BitVec 32) : printfmtTo S "error %d".toUTF8.toList (fun _ => err) s =
      (printfmt "error %d".toUTF8.toList m fun _ => err).map fun out => S.puts out s := by
    apply hprint S B m s _ _ hk
    · decide +kernel
    · rw [items_errorFormat]
      exact ⟨fun h => absurd h (by decide), trivial⟩
  have htwo (t : List UInt8) (ht : (0 : UInt8) ∉ t) :
      printfmtTo (S.reading fun x => memoryOf t (x - 1)) "%s".toUTF8.toList (fun _ => 1) s =
        (printfmt "%s".toUTF8.toList (fun x => memoryOf t (x - 1)) fun _ => 1).map fun out => S.puts out s := by
    apply hprint _ ∅ _ s _ _ (S.keeps_reading _ s)
    · decide +kernel
    · rw [items_stringFormat]
      exact ⟨fun _ => .inr ⟨t, (stringAt_memoryOf ht).moved 1, fun x _ _ => Set.notMem_empty x⟩, trivial⟩
  simp only [Sink.convertError, DamnOS.Programs.convertError]
  generalize (if a.toInt < 0 then -a else a) = err
  by_cases hlarge : (errorStrings : Int) ≤ err.toInt
  · rw [if_pos hlarge]
    exact hone err
  · rw [if_neg hlarge]
    cases htext : errorString err with
    | none => exact hone err
    | some t => exact htwo t (errorString_zero htext)

private theorem Sink.convert_eq (hk : S.Keeps B m s) {c : UInt8} (e : Escape)
    (hc : c = 115 → ap k = 0 ∨ ClearOf B m (ap k).toNat)
    (printfmtTo : Sink σ → List UInt8 → (Nat → BitVec 32) → σ → Option σ)
    (printfmt : List UInt8 → (Nat → UInt8) → (Nat → BitVec 32) → Option (List Int))
    (hprint : ∀ (S : Sink σ) (B : Set Nat) (m : Nat → UInt8) (s : σ) (l : List UInt8) (ap : Nat → BitVec 32),
      S.Keeps B m s → (0 : UInt8) ∉ l → StringsClear B m ap (items l) 0 →
        printfmtTo S l ap s = (printfmt l m ap).map fun out => S.puts out s) (fuel : Nat) :
    S.convert printfmtTo fuel ap k e c s =
      (DamnOS.Programs.convert printfmt fuel m ap k e c).map fun r => (S.puts r.1 s, r.2) := by
  rw [Sink.convert, DamnOS.Programs.convert]
  by_cases h99 : c = 99
  · rw [if_pos h99, if_pos h99]
    rfl
  rw [if_neg h99, if_neg h99]
  by_cases h101 : c = 101
  · rw [if_pos h101, if_pos h101, Sink.convertError_eq hk printfmtTo printfmt hprint, Option.map_map, Option.map_map]
    rfl
  rw [if_neg h101, if_neg h101]
  by_cases h115 : c = 115
  · rw [if_pos h115, if_pos h115, Sink.convertStringArg_eq hk (hc h115), Option.map_map, Option.map_map]
    rfl
  rw [if_neg h115, if_neg h115]
  by_cases h100 : c = 100
  · rw [if_pos h100, if_pos h100]
    dsimp only
    rw [Sink.printnum_eq, Sink.printnum_eq, ← Sink.puts_cons, apply_ite (Option.map _)]
    rfl
  rw [if_neg h100, if_neg h100]
  by_cases h117 : c = 117
  · rw [if_pos h117, if_pos h117, Sink.printnum_eq]
    rfl
  rw [if_neg h117, if_neg h117]
  by_cases h111 : c = 111
  · rw [if_pos h111, if_pos h111, Sink.printnum_eq]
    rfl
  rw [if_neg h111, if_neg h111]
  by_cases h112 : c = 112
  · rw [if_pos h112, if_pos h112, Sink.printnum_eq]
    rfl
  rw [if_neg h112, if_neg h112]
  by_cases h120 : c = 120
  · rw [if_pos h120, if_pos h120, Sink.printnum_eq]
    rfl
  rw [if_neg h120, if_neg h120]
  rfl

/-- A sink gets the characters that `vprintfmt` makes of the format, whatever it does with them. -/
theorem Sink.vprintfmt_eq (hk : S.Keeps B m s) (h : Rest l p r) (h0 : (0 : UInt8) ∉ r)
    (hv : StringsClear B m ap (items r) k) :
    Sink.vprintfmt fuel S (formatBytes l) ap p k s =
      (DamnOS.Programs.vprintfmt fuel (formatBytes l) m ap p k).map fun out => S.puts out s := by
  induction fuel generalizing S B m s l r ap p k with
  | zero => rfl
  | succ fuel ih =>
    rw [Sink.vprintfmt, DamnOS.Programs.vprintfmt]
    cases r with
    | nil =>
      rw [h.nil]
      rfl
    | cons c r =>
      obtain ⟨hbyte, hrest⟩ := h.cons
      simp only [List.mem_cons, not_or] at h0
      rw [hbyte]
      dsimp only [Option.bind_eq_bind, Option.bind_some]
      rw [if_neg (Ne.symm h0.1), if_neg (Ne.symm h0.1)]
      by_cases hc : c = PERCENT
      · subst hc
        rw [if_neg (fun hne => hne rfl), if_neg (fun hne => hne rfl)]
        cases hx : reswitch (formatBytes l) ap fuel (p + 1) k .start with
        | none => rfl
        | some x =>
          obtain rfl := reswitch_eq hrest hx
          dsimp only [Option.bind_some]
          by_cases hconv : isConversion ((r.dropWhile isModifier).headD 0) = true
          · rw [if_pos hconv, if_pos hconv]
            rw [items_conversion hconv] at hv
            obtain ⟨d, r', hd⟩ := dropWhile_conversion hconv
            rw [hd, List.headD_cons] at hconv hv
            obtain ⟨hstring, hv⟩ := hv
            rw [hd, List.headD_cons]
            obtain ⟨hbehind, hsub⟩ := hrest.behind hd
            have hzero : (0 : UInt8) ∉ r' := fun hm => h0.2 (hsub hm)
            rw [Sink.convert_eq hk (modifiers ap (r.takeWhile isModifier) k .start).2 hstring _
              (fun l m ap => DamnOS.Programs.vprintfmt fuel (formatBytes l) m ap 0 0)
              (fun S B m s l ap hk h0 hv => ih hk ⟨[], rfl, rfl⟩ h0 hv) fuel]
            cases hpiece : DamnOS.Programs.convert
                (fun l m ap => DamnOS.Programs.vprintfmt fuel (formatBytes l) m ap 0 0) fuel m ap
                (modifiers ap (r.takeWhile isModifier) k .start).1
                (modifiers ap (r.takeWhile isModifier) k .start).2 d with
            | none => rfl
            | some x =>
              have hwords := convert_words hconv hpiece
              rw [← hwords] at hv
              dsimp only [Option.map_some, Option.bind_some]
              rw [ih (hk.puts x.1) hbehind hzero hv, Option.map_map]
              simp only [Function.comp_def, Sink.puts_append]
          · rw [if_neg hconv, if_neg hconv, Nat.add_sub_cancel]
            rw [items_unknown hconv] at hv
            cases hq : backUp (formatBytes l) fuel (p + 1 + (r.takeWhile isModifier).length) with
            | none => rfl
            | some q =>
              obtain rfl := backUp_eq h hq
              dsimp only [Option.bind_some]
              rw [ih (hk.putch 37) hrest h0.2 hv, Option.map_map]
              rfl
      · rw [if_pos hc, if_pos hc]
        rw [items_text hc] at hv
        rw [ih (hk.putch c.toNat) hrest h0.2 hv, Option.map_map]
        rfl

theorem Sink.vprintfmt_run {out : List Int} (hk : S.Keeps B m s) (h0 : (0 : UInt8) ∉ l)
    (hv : StringsClear B m ap (items l) 0) (hout : DamnOS.Programs.vprintfmt fuel (formatBytes l) m ap 0 0 = some out) :
    Sink.vprintfmt fuel S (formatBytes l) ap 0 0 s = some (S.puts out s) := by
  have hwhole : Rest l 0 l := ⟨[], rfl, rfl⟩
  rw [Sink.vprintfmt_eq hk hwhole h0 hv, hout]
  rfl

end Formats

end DamnOS.Programs
