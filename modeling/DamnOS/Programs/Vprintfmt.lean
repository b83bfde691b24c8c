import DamnOS.Framework.CStrings

/-!
# Formatted output

`vprintfmt` of `stdio.c`.  The format is read byte by byte and has no bytes outside the string and its terminator;
arguments are words of the stack.  The result is what is handed to `putch`, in order.
-/

namespace DamnOS.Programs

open DamnOS.Framework

def PERCENT : UInt8 := 37

def charInt (c : UInt8) : Int := c.toInt8.toInt

/-- The strings of `error_string`, from `E_UNSPECIFIED` on. -/
def errorTexts : List String :=
  ["unspecified error", "bad environment", "invalid parameter", "out of memory", "out of environments",
    "segmentation fault", "env is not recving", "unexpected end of file", "no free space on disk",
    "no free inode on disk", "too many files are open", "file or block not found", "invalid path", "bad file name",
    "file already exists", "file is not a valid executable", "operation not supported"]

/-- `MAXERROR`, the size of `error_string`. -/
def errorStrings : Nat := 18

/-- `error_string[err]`; the place in memory wraps around. -/
def errorString (err : BitVec 32) : Option (List UInt8) :=
  match err.toNat * 4 % 2 ^ 32 / 4 with
  | 0 => none
  | i + 1 => errorTexts[i]?.map fun s => s.toUTF8.toList

def digit (d : Nat) : Int := if d < 10 then 48 + d else 87 + d

/-- `printnum`.  The digits before the last one are printed first, the padding before all of them. -/
def printnum (num base : Nat) (width : BitVec 32) (padc : Int) : List Int :=
  if base ≤ num ∧ 2 ≤ base then printnum (num / base) base (width - 1) padc ++ [digit (num % base)]
  else List.replicate ((width - 1).toInt).toNat padc ++ [digit (num % base)]
termination_by num
decreasing_by exact Nat.div_lt_self (by omega) (by omega)

def printnumArg (num : BitVec 64) : Nat := num.toNat % 2 ^ 32

/-- `getuint`: the value, and the number of words it takes. -/
def getuint (ap : Nat → BitVec 32) (k lflag : Nat) : BitVec 64 × Nat :=
  if 2 ≤ lflag then (ap (k + 1) ++ ap k, 2) else ((ap k).setWidth 64, 1)

def getint (ap : Nat → BitVec 32) (k lflag : Nat) : BitVec 64 × Nat :=
  if 2 ≤ lflag then (ap (k + 1) ++ ap k, 2) else ((ap k).signExtend 64, 1)

def strnlen (m : Nat → UInt8) : Nat → Nat → Nat → Option Nat
  | 0, _, _ => none
  | fuel + 1, s, size => if 0 < size ∧ m s ≠ 0 then (strnlen m fuel (s + 1) (size - 1)).map (· + 1) else some 0

/-- What `putch` gets for a byte of a string. -/
def shown (altflag : Bool) (c : UInt8) : Int :=
  if altflag = true ∧ (charInt c < 32 ∨ 126 < charInt c) then 63 else charInt c

/-- The loop over the bytes of a string, with the width that is left. -/
def putString (m : Nat → UInt8) (altflag : Bool) :
    Nat → Nat → BitVec 32 → BitVec 32 → Option (List Int × BitVec 32)
  | 0, _, _, _ => none
  | fuel + 1, p, precision, width =>
    if m p ≠ 0 ∧ (precision.toInt < 0 ∨ 0 ≤ (precision - 1).toInt) then
      (putString m altflag fuel (p + 1) (if precision.toInt < 0 then precision else precision - 1) (width - 1)).map
        fun r => (shown altflag (m p) :: r.1, r.2)
    else some ([], width)

/-- The format string `l` and its terminator, by the distance from its start. -/
def formatBytes (l : List UInt8) (p : Nat) : Option UInt8 := (l ++ [0])[p]?

/-- The variables that the characters between `%` and the conversion set. -/
structure Escape where
  padc : Int
  width : BitVec 32
  precision : BitVec 32
  lflag : Nat
  altflag : Bool

namespace Escape

def start : Escape := ⟨32, -1, -1, 0, false⟩

def processPrecision (s : Escape) : Escape :=
  if s.width.toInt < 0 then { s with width := s.precision, precision := -1 } else s

def number (s : Escape) (n : BitVec 32) : Escape := processPrecision { s with precision := n }

def dot (s : Escape) : Escape := if s.width.toInt < 0 then { s with width := 0 } else s

end Escape

def isDigit (c : UInt8) : Bool := 48 ≤ c && c ≤ 57

def addDigit (n : BitVec 32) (c : UInt8) : BitVec 32 := n * 10 + BitVec.ofNat 32 c.toNat - 48

/-- The loop of the width field, from digit `ch` on; `p` is behind it. -/
def readNumber (fmt : Nat → Option UInt8) : Nat → UInt8 → Nat → BitVec 32 → Option (BitVec 32 × Nat)
  | 0, _, _, _ => none
  | fuel + 1, ch, p, n => do
    let c ← fmt p
    if isDigit c then readNumber fmt fuel c (p + 1) (addDigit n ch) else some (addDigit n ch, p)

/-- `reswitch`, up to a character that is neither flag nor number; `p` is the place behind it. -/
def reswitch (fmt : Nat → Option UInt8) (ap : Nat → BitVec 32) :
    Nat → Nat → Nat → Escape → Option (UInt8 × Nat × Nat × Escape)
  | 0, _, _, _ => none
  | fuel + 1, p, k, s => do
    let ch ← fmt p
    if ch = 45 then reswitch fmt ap fuel (p + 1) k { s with padc := 45 }
    else if ch = 48 then reswitch fmt ap fuel (p + 1) k { s with padc := 48 }
    else if isDigit ch then do
      let (n, p) ← readNumber fmt fuel ch (p + 1) 0
      reswitch fmt ap fuel p k (s.number n)
    else if ch = 42 then reswitch fmt ap fuel (p + 1) (k + 1) (s.number (ap k))
    else if ch = 46 then reswitch fmt ap fuel (p + 1) k s.dot
    else if ch = 35 then reswitch fmt ap fuel (p + 1) k { s with altflag := true }
    else if ch = 108 then reswitch fmt ap fuel (p + 1) k { s with lflag := s.lflag + 1 }
    else some (ch, p + 1, k, s)

def backUp (fmt : Nat → Option UInt8) : Nat → Nat → Option Nat
  | 0, _ => none
  | fuel + 1, q =>
    if q = 0 then none
    else do
      let c ← fmt (q - 1)
      if c ≠ PERCENT then backUp fmt fuel (q - 1) else some q

/-- The characters that end an escape: `c`, `e`, `s`, `d`, `u`, `o`, `p`, `x` and `%`. -/
def isConversion (c : UInt8) : Bool := [99, 101, 115, 100, 117, 111, 112, 120, PERCENT].contains c

def nullText : List UInt8 := [40, 110, 117, 108, 108, 41]

def stringArg (m : Nat → UInt8) (a : BitVec 32) : (Nat → UInt8) × Nat :=
  if a = 0 then (memoryOf nullText, 0) else (m, a.toNat)

def convertString (fuel : Nat) (m : Nat → UInt8) (p : Nat) (s : Escape) : Option (List Int) := do
  let (pads, width) ←
    if 0 < s.width.toInt ∧ s.padc ≠ 45 then do
      let n ← strnlen m fuel p s.precision.toNat
      let width := s.width - BitVec.ofNat 32 n
      some (List.replicate width.toInt.toNat s.padc, if 0 < width.toInt then 0 else width)
    else some ([], s.width)
  let (text, width) ← putString m s.altflag fuel p s.precision width
  some (pads ++ text ++ List.replicate width.toInt.toNat 32)

/-- `%e`; `printfmt` is `vprintfmt` with a format and arguments of its own. -/
def convertError (printfmt : List UInt8 → (Nat → UInt8) → (Nat → BitVec 32) → Option (List Int))
    (m : Nat → UInt8) (a : BitVec 32) : Option (List Int) :=
  let err := if a.toInt < 0 then -a else a
  let text := if (errorStrings : Int) ≤ err.toInt then none else errorString err
  match text with
  | none => printfmt "error %d".toUTF8.toList m fun _ => err
  | some t => printfmt "%s".toUTF8.toList (fun x => memoryOf t (x - 1)) fun _ => 1

/-- The conversions, with what they print and the number of words they take. -/
def convert (printfmt : List UInt8 → (Nat → UInt8) → (Nat → BitVec 32) → Option (List Int)) (fuel : Nat)
    (m : Nat → UInt8) (ap : Nat → BitVec 32) (k : Nat) (s : Escape) (ch : UInt8) : Option (List Int × Nat) :=
  if ch = 99 then some ([(ap k).toInt], 1)
  else if ch = 101 then (convertError printfmt m (ap k)).map fun out => (out, 1)
  else if ch = 115 then
    (convertString fuel (stringArg m (ap k)).1 (stringArg m (ap k)).2 s).map fun out => (out, 1)
  else if ch = 100 then
    let (num, n) := getint ap k s.lflag
    if num.toInt < 0 then some (45 :: printnum (printnumArg (-num)) 10 s.width s.padc, n)
    else some (printnum (printnumArg num) 10 s.width s.padc, n)
  else if ch = 117 then some (printnum (printnumArg (getuint ap k s.lflag).1) 10 s.width s.padc, (getuint ap k s.lflag).2)
  else if ch = 111 then some (printnum (printnumArg (getuint ap k s.lflag).1) 8 s.width s.padc, (getuint ap k s.lflag).2)
  else if ch = 112 then some (48 :: 120 :: printnum (ap k).toNat 16 s.width s.padc, 1)
  else if ch = 120 then some (printnum (printnumArg (getuint ap k s.lflag).1) 16 s.width s.padc, (getuint ap k s.lflag).2)
  else some ([37], 0)

/-- `vprintfmt` from place `p` of the format and argument word `k` on.  A round prints one character, or treats one
escape. -/
def vprintfmt : Nat → (Nat → Option UInt8) → (Nat → UInt8) → (Nat → BitVec 32) → Nat → Nat → Option (List Int)
  | 0, _, _, _, _, _ => none
  | fuel + 1, fmt, m, ap, p, k => do
    let ch ← fmt p
    if ch = 0 then some []
    else if ch ≠ PERCENT then (vprintfmt fuel fmt m ap (p + 1) k).map fun out => (ch.toNat : Int) :: out
    else do
      let (ch, p, k, s) ← reswitch fmt ap fuel (p + 1) k Escape.start
      if isConversion ch then do
        let (out, n) ← convert (fun l m ap => vprintfmt fuel (formatBytes l) m ap 0 0) fuel m ap k s ch
        (vprintfmt fuel fmt m ap p (k + n)).map fun rest => out ++ rest
      else do
        let p ← backUp fmt fuel (p - 1)
        (vprintfmt fuel fmt m ap p k).map fun rest => 37 :: rest

end DamnOS.Programs
