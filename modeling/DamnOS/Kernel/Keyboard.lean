import Mathlib

/-!
# The keyboard

`kbd_proc_data` of `console.c`: what the controller delivers of the keys that are pressed and released, and the
modifiers that are kept between its calls.
-/

namespace DamnOS.Kernel

def SHIFT : UInt8 := 1
def CTL : UInt8 := 2
def ALT : UInt8 := 4
def CAPSLOCK : UInt8 := 8
def NUMLOCK : UInt8 := 16
def SCROLLLOCK : UInt8 := 32
def E0ESC : UInt8 := 64

def KEY_HOME : UInt8 := 0xE0
def KEY_END : UInt8 := 0xE1
def KEY_UP : UInt8 := 0xE2
def KEY_DN : UInt8 := 0xE3
def KEY_LF : UInt8 := 0xE4
def KEY_RT : UInt8 := 0xE5
def KEY_PGUP : UInt8 := 0xE6
def KEY_PGDN : UInt8 := 0xE7
def KEY_INS : UInt8 := 0xE8
def KEY_DEL : UInt8 := 0xE9

/-- A table that begins with some characters and goes on with elements at given places. -/
def table (row : List Char) (designated : List (UInt8 × UInt8)) (data : UInt8) : UInt8 :=
  (designated.lookup data).getD (UInt8.ofNat (row.getD data.toNat '\x00').toNat)

def shiftcode : UInt8 → UInt8 :=
  table [] [(0x1D, CTL), (0x2A, SHIFT), (0x36, SHIFT), (0x38, ALT), (0x9D, CTL), (0xB8, ALT)]

def togglecode : UInt8 → UInt8 := table [] [(0x3A, CAPSLOCK), (0x45, NUMLOCK), (0x46, SCROLLLOCK)]

def normalmap : UInt8 → UInt8 := table
  ['\x00', '\x1b', '1', '2', '3', '4', '5', '6',
    '7', '8', '9', '0', '-', '=', '\x08', '\t',
    'q', 'w', 'e', 'r', 't', 'y', 'u', 'i',
    'o', 'p', '[', ']', '\n', '\x00', 'a', 's',
    'd', 'f', 'g', 'h', 'j', 'k', 'l', ';',
    '\'', '`', '\x00', '\\', 'z', 'x', 'c', 'v',
    'b', 'n', 'm', ',', '.', '/', '\x00', '*',
    '\x00', ' ', '\x00', '\x00', '\x00', '\x00', '\x00', '\x00',
    '\x00', '\x00', '\x00', '\x00', '\x00', '\x00', '\x00', '7',
    '8', '9', '-', '4', '5', '6', '+', '1',
    '2', '3', '0', '.', '\x00', '\x00', '\x00', '\x00']
  [(0xC7, KEY_HOME), (0x9C, 10), (0xB5, 47), (0xC8, KEY_UP), (0xC9, KEY_PGUP), (0xCB, KEY_LF), (0xCD, KEY_RT),
    (0xCF, KEY_END), (0xD0, KEY_DN), (0xD1, KEY_PGDN), (0xD2, KEY_INS), (0xD3, KEY_DEL)]

def shiftmap : UInt8 → UInt8 := table
  ['\x00', '\x1b', '!', '@', '#', '$', '%', '^',
    '&', '*', '(', ')', '_', '+', '\x08', '\t',
    'Q', 'W', 'E', 'R', 'T', 'Y', 'U', 'I',
    'O', 'P', '{', '}', '\n', '\x00', 'A', 'S',
    'D', 'F', 'G', 'H', 'J', 'K', 'L', ':',
    '"', '~', '\x00', '|', 'Z', 'X', 'C', 'V',
    'B', 'N', 'M', '<', '>', '?', '\x00', '*',
    '\x00', ' ', '\x00', '\x00', '\x00', '\x00', '\x00', '\x00',
    '\x00', '\x00', '\x00', '\x00', '\x00', '\x00', '\x00', '7',
    '8', '9', '-', '4', '5', '6', '+', '1',
    '2', '3', '0', '.', '\x00', '\x00', '\x00', '\x00']
  [(0xC7, KEY_HOME), (0x9C, 10), (0xB5, 47), (0xC8, KEY_UP), (0xC9, KEY_PGUP), (0xCB, KEY_LF), (0xCD, KEY_RT),
    (0xCF, KEY_END), (0xD0, KEY_DN), (0xD1, KEY_PGDN), (0xD2, KEY_INS), (0xD3, KEY_DEL)]

def C (x : Char) : UInt8 := UInt8.ofNat x.toNat - 64

def ctlmap : UInt8 → UInt8 := table []
  [(0x10, C 'Q'), (0x11, C 'W'), (0x12, C 'E'), (0x13, C 'R'), (0x14, C 'T'), (0x15, C 'Y'), (0x16, C 'U'),
    (0x17, C 'I'), (0x18, C 'O'), (0x19, C 'P'), (0x1C, 13), (0x1E, C 'A'), (0x1F, C 'S'),
    (0x20, C 'D'), (0x21, C 'F'), (0x22, C 'G'), (0x23, C 'H'), (0x24, C 'J'), (0x25, C 'K'), (0x26, C 'L'),
    (0x2B, C '\\'), (0x2C, C 'Z'), (0x2D, C 'X'), (0x2E, C 'C'), (0x2F, C 'V'),
    (0x30, C 'B'), (0x31, C 'N'), (0x32, C 'M'), (0x35, C '/'),
    (0x97, KEY_HOME), (0xB5, C '/'), (0xC8, KEY_UP), (0xC9, KEY_PGUP), (0xCB, KEY_LF), (0xCD, KEY_RT),
    (0xCF, KEY_END), (0xD0, KEY_DN), (0xD1, KEY_PGDN), (0xD2, KEY_INS), (0xD3, KEY_DEL)]

def charcode (shift : UInt8) : UInt8 → UInt8 :=
  if shift &&& (CTL ||| SHIFT) = 0 then normalmap
  else if shift &&& (CTL ||| SHIFT) = SHIFT then shiftmap
  else ctlmap

/-- What `kbd_proc_data` returns, what it leaves in `shift`, and whether it tells the machine to start again. -/
structure Keyed where
  c : Int
  shift : UInt8
  reboot : Bool
  deriving DecidableEq

def swapCase (c : Int) : Int := if 97 ≤ c ∧ c ≤ 122 then c - 32 else if 65 ≤ c ∧ c ≤ 90 then c + 32 else c

/-- The end of `kbd_proc_data`, for a key that is pressed. -/
def keyPressed (shift data : UInt8) : Keyed :=
  let shift := (shift ||| shiftcode data) ^^^ togglecode data
  let c : Int := (charcode shift data).toNat
  let c := if shift &&& CAPSLOCK ≠ 0 then swapCase c else c
  ⟨c, shift, ~~~shift &&& (CTL ||| ALT) = 0 && c = KEY_DEL.toNat⟩

/-- `kbd_proc_data`, with the byte that the controller has, if any.  All bits of `shift` fit in a byte. -/
def kbdProcData (shift : UInt8) : Option UInt8 → Keyed
  | none => ⟨-1, shift, false⟩
  | some data =>
    if data = 0xE0 then ⟨0, shift ||| E0ESC, false⟩
    else if data &&& 0x80 ≠ 0 then
      let data := if shift &&& E0ESC ≠ 0 then data else data &&& 0x7F
      ⟨0, shift &&& ~~~(shiftcode data ||| E0ESC), false⟩
    else if shift &&& E0ESC ≠ 0 then keyPressed (shift &&& ~~~E0ESC) (data ||| 0x80)
    else keyPressed shift data

def shiftAfter (shift : UInt8) (bytes : List UInt8) : UInt8 :=
  bytes.foldl (fun shift data => (kbdProcData shift (some data)).shift) shift

/-- A key is pressed or released; the keys behind 0xE0 have the upper half of the numbers. -/
structure KeyEvent where
  key : UInt8
  pressed : Bool

/-- The event that a byte stands for, after 0xE0 or not. -/
def keyEvent (e0 : Bool) (data : UInt8) : KeyEvent :=
  ⟨if e0 then data ||| 0x80 else data &&& 0x7F, data &&& 0x80 = 0⟩

def keyEvents : Bool → List UInt8 → List KeyEvent
  | _, [] => []
  | e0, data :: bytes =>
    if data = 0xE0 then keyEvents true bytes else keyEvent e0 data :: keyEvents false bytes

/-- The last that has happened to the keys is that one was pressed. -/
def held (keys : List UInt8) (es : List KeyEvent) : Bool :=
  ((es.filter fun e => e.key ∈ keys).getLast?.map KeyEvent.pressed).getD false

/-- The keys have been pressed an odd number of times. -/
def locked (keys : List UInt8) (es : List KeyEvent) : Bool := (es.filter fun e => e.pressed && e.key ∈ keys).length % 2 = 1

/-- The keys of the modifiers and of the locks, by the bit that stands for them. -/
def modifierKeys : Nat → List UInt8
  | 0 => [0x2A, 0x36]
  | 1 => [0x1D, 0x9D]
  | 2 => [0x38, 0xB8]
  | _ => []

def lockKeys : Nat → List UInt8
  | 3 => [0x3A]
  | 4 => [0x45]
  | 5 => [0x46]
  | _ => []

/-- The character of a key, and 0 if it has none. -/
def keyChar (ctl shift caps : Bool) (key : UInt8) : Int :=
  let c : Int := ((if ctl then ctlmap key else if shift then shiftmap key else normalmap key).toNat : Nat)
  if caps then swapCase c else c

def flag (x : UInt8) (i : Nat) : Bool := x.toBitVec.getLsbD i

/-- The bits of `shift` tell of the events `es`, and whether 0xE0 was last. -/
structure Tracks (shift : UInt8) (es : List KeyEvent) (e0 : Bool) : Prop where
  bits : ∀ i < 8, i ≠ 6 → flag shift i = (held (modifierKeys i) es ^^ locked (lockKeys i) es)
  e0 : flag shift 6 = e0

section Events

variable {es : List KeyEvent} {e : KeyEvent} {keys : List UInt8} {i : Nat} {shift data : UInt8} {e0 : Bool}

private theorem held_append (keys : List UInt8) (es : List KeyEvent) (e : KeyEvent) :
    held keys (es ++ [e]) = if e.key ∈ keys then e.pressed else held keys es := by
  rw [held, held, List.filter_append]
  by_cases h : e.key ∈ keys
  · rw [if_pos h, List.filter_cons_of_pos (by simpa using h)]
    simp
  · rw [if_neg h, List.filter_cons_of_neg (by simpa using h), List.filter_nil, List.append_nil]

private theorem locked_append (keys : List UInt8) (es : List KeyEvent) (e : KeyEvent) :
    locked keys (es ++ [e]) = (locked keys es ^^ (e.pressed && e.key ∈ keys)) := by
  rw [locked, locked, List.filter_append, List.length_append, List.filter_singleton]
  cases e.pressed && decide (e.key ∈ keys) with
  | false => rw [Bool.xor_false, cond_false, List.length_nil, Nat.add_zero]
  | true =>
    rw [Bool.xor_true, cond_true, List.length_singleton, ← decide_not, decide_eq_decide]
    omega

@[simp] theorem held_nil (es : List KeyEvent) : held [] es = false := by
  simp [held]

@[simp] theorem locked_nil (es : List KeyEvent) : locked [] es = false := by
  simp [locked]

private theorem lockKeys_modifier (h : i < 3) : lockKeys i = [] := by
  obtain rfl | rfl | rfl : i = 0 ∨ i = 1 ∨ i = 2 := by omega
  all_goals rfl

private theorem modifierKeys_lock (h : 3 ≤ i) : modifierKeys i = [] := by
  obtain ⟨k, rfl⟩ := Nat.exists_eq_add_of_le' h
  rfl

private theorem flag_codes : ∀ k : UInt8, ∀ i < 8, flag (shiftcode k) i = decide (k ∈ modifierKeys i) ∧
    flag (togglecode k) i = decide (k ∈ lockKeys i) := by
  decide +kernel

private theorem flag_e0 : ∀ i < 8, flag E0ESC i = decide (i = 6) := by
  decide

private theorem flag_or (x y : UInt8) (i : Nat) : flag (x ||| y) i = (flag x i || flag y i) := by
  rw [flag, UInt8.toBitVec_or, BitVec.getLsbD_or]
  rfl

private theorem flag_xor (x y : UInt8) (i : Nat) : flag (x ^^^ y) i = (flag x i ^^ flag y i) := by
  rw [flag, UInt8.toBitVec_xor, BitVec.getLsbD_xor]
  rfl

private theorem flag_mask (x y : UInt8) (h : i < 8) : flag (x &&& ~~~y) i = (flag x i && !flag y i) := by
  rw [flag, UInt8.toBitVec_and, BitVec.getLsbD_and, UInt8.toBitVec_not, BitVec.getLsbD_not, decide_eq_true h,
    Bool.true_and]
  rfl

private theorem byte_masks : ∀ x : UInt8, (x &&& E0ESC ≠ 0 ↔ flag x 6 = true) ∧ (x &&& 0x80 = 0 → x &&& 0x7F = x) ∧
    (x &&& 0x80 ≠ 0 → x ||| 0x80 = x) ∧ (x &&& (CTL ||| SHIFT) = 0 ↔ flag x 1 = false ∧ flag x 0 = false) ∧
    (x &&& (CTL ||| SHIFT) = SHIFT ↔ flag x 1 = false ∧ flag x 0 = true) ∧
    (x &&& CAPSLOCK ≠ 0 ↔ flag x 3 = true) ∧
    (~~~x &&& (CTL ||| ALT) = 0 ↔ flag x 1 = true ∧ flag x 2 = true) := by
  decide +kernel

private theorem Tracks.press (h : Tracks shift es false) (key : UInt8) :
    Tracks (keyPressed shift key).shift (es ++ [⟨key, true⟩]) false := by
  have hbits (i : Nat) (hi : i < 8) : flag (keyPressed shift key).shift i =
      ((flag shift i || decide (key ∈ modifierKeys i)) ^^ decide (key ∈ lockKeys i)) := by
    rw [keyPressed, flag_xor, flag_or, (flag_codes key i hi).1, (flag_codes key i hi).2]
  constructor
  · intro i hi hne
    rw [hbits i hi, h.bits i hi hne, held_append, locked_append, Bool.true_and]
    rcases Nat.lt_or_ge i 3 with hlt | hge
    · rw [lockKeys_modifier hlt, locked_nil, Bool.xor_false]
      by_cases hk : key ∈ modifierKeys i
      · simp [hk]
      · simp [hk]
    · rw [modifierKeys_lock hge, held_nil, Bool.false_xor]
      simp
  · rw [hbits 6 (by decide), h.e0]
    rfl

theorem Tracks.release (h : Tracks shift es e0) (key : UInt8) :
    Tracks (shift &&& ~~~(shiftcode key ||| E0ESC)) (es ++ [⟨key, false⟩]) false := by
  have hbits (i : Nat) (hi : i < 8) : flag (shift &&& ~~~(shiftcode key ||| E0ESC)) i =
      (flag shift i && !(decide (key ∈ modifierKeys i) || decide (i = 6))) := by
    rw [flag_mask _ _ hi, flag_or, (flag_codes key i hi).1, flag_e0 i hi]
  constructor
  · intro i hi hne
    rw [hbits i hi, h.bits i hi hne, held_append, locked_append, Bool.false_and, Bool.xor_false, decide_eq_false hne,
      Bool.or_false]
    rcases Nat.lt_or_ge i 3 with hlt | hge
    · rw [lockKeys_modifier hlt, locked_nil, Bool.xor_false, Bool.xor_false]
      by_cases hk : key ∈ modifierKeys i
      · simp [hk]
      · simp [hk]
    · rw [modifierKeys_lock hge]
      simp
  · rw [hbits 6 (by decide)]
    simp

private theorem Tracks.prefixed (h : Tracks shift es e0) : Tracks (shift ||| E0ESC) es true := by
  constructor
  · intro i hi hne
    rw [flag_or, flag_e0 i hi, decide_eq_false hne, Bool.or_false]
    exact h.bits i hi hne
  · rw [flag_or, flag_e0 6 (by decide)]
    simp

private theorem Tracks.consumed (h : Tracks shift es e0) : Tracks (shift &&& ~~~E0ESC) es false := by
  constructor
  · intro i hi hne
    rw [flag_mask _ _ hi, flag_e0 i hi, decide_eq_false hne, Bool.not_false, Bool.and_true]
    exact h.bits i hi hne
  · rw [flag_mask _ _ (by decide), flag_e0 6 (by decide)]
    simp

theorem Tracks.step (h : Tracks shift es e0) (data : UInt8) :
    (data = 0xE0 → kbdProcData shift (some data) = ⟨0, shift ||| E0ESC, false⟩) ∧
      (data ≠ 0xE0 → (keyEvent e0 data).pressed = false → kbdProcData shift (some data) =
        ⟨0, shift &&& ~~~(shiftcode (keyEvent e0 data).key ||| E0ESC), false⟩) ∧
      (data ≠ 0xE0 → (keyEvent e0 data).pressed = true → ∃ clear, Tracks clear es false ∧
        kbdProcData shift (some data) = keyPressed clear (keyEvent e0 data).key) := by
  have he0 := h.e0
  have hescape := (byte_masks shift).1
  obtain ⟨-, hmaskLow, hmaskHigh, -⟩ := byte_masks data
  refine ⟨?_, ?_, ?_⟩
  · intro hdata
    rw [kbdProcData, if_pos hdata]
  · intro hdata hrelease
    have hhigh : data &&& 0x80 ≠ 0 := of_decide_eq_false hrelease
    rw [kbdProcData, if_neg hdata, if_pos hhigh, keyEvent]
    cases e0 with
    | false =>
      rw [if_neg (by rw [hescape, he0]; decide)]
      rfl
    | true =>
      rw [if_pos (hescape.mpr he0), if_pos rfl, hmaskHigh hhigh]
  · intro hdata hpress
    have hlow : data &&& 0x80 = 0 := of_decide_eq_true hpress
    rw [kbdProcData, if_neg hdata, if_neg (not_not.mpr hlow), keyEvent]
    cases e0 with
    | false =>
      rw [if_neg (by rw [hescape, he0]; decide), if_neg Bool.false_ne_true, hmaskLow hlow]
      exact ⟨shift, h, rfl⟩
    | true =>
      rw [if_pos (hescape.mpr he0), if_pos rfl]
      exact ⟨_, h.consumed, rfl⟩

theorem Tracks.next (h : Tracks shift es e0) (data : UInt8) : Tracks (kbdProcData shift (some data)).shift
    (if data = 0xE0 then es else es ++ [keyEvent e0 data]) (decide (data = 0xE0)) := by
  obtain ⟨hescape, hrelease, hpress⟩ := h.step data
  by_cases hdata : data = 0xE0
  · rw [hescape hdata, if_pos hdata, decide_eq_true hdata]
    exact h.prefixed
  · rw [if_neg hdata, decide_eq_false hdata]
    cases hp : (keyEvent e0 data).pressed with
    | false =>
      have he : keyEvent e0 data = ⟨(keyEvent e0 data).key, false⟩ := by rw [← hp]
      rw [hrelease hdata hp, he]
      exact h.release _
    | true =>
      have he : keyEvent e0 data = ⟨(keyEvent e0 data).key, true⟩ := by rw [← hp]
      obtain ⟨clear, hclear, hkey⟩ := hpress hdata hp
      rw [hkey, he]
      exact hclear.press _

private theorem tracks_start : Tracks 0 [] false := ⟨by decide, by decide⟩

private theorem keyEvents_append (e0 : Bool) (bytes : List UInt8) (data : UInt8) : keyEvents e0 (bytes ++ [data]) =
    keyEvents e0 bytes ++
      if data = 0xE0 then [] else [keyEvent ((bytes.getLast?.map fun b => decide (b = 0xE0)).getD e0) data] := by
  induction bytes generalizing e0 with
  | nil =>
    by_cases hdata : data = 0xE0
    · simp [keyEvents, hdata]
    · simp [keyEvents, hdata]
  | cons b bytes ih =>
    have hlast (x : Bool) : (((b :: bytes).getLast?.map fun b => decide (b = 0xE0)).getD x) =
        (bytes.getLast?.map fun b => decide (b = 0xE0)).getD (decide (b = 0xE0)) := by
      rw [List.getLast?_cons]
      cases bytes.getLast? <;> rfl
    rw [List.cons_append, keyEvents, keyEvents, hlast]
    by_cases hb : b = 0xE0
    · rw [if_pos hb, if_pos hb, ih, decide_eq_true hb]
    · rw [if_neg hb, if_neg hb, ih, decide_eq_false hb, List.cons_append]

def e0Last (bytes : List UInt8) : Bool := (bytes.getLast?.map fun b => decide (b = 0xE0)).getD false

private theorem tracks_run (bytes : List UInt8) : Tracks (shiftAfter 0 bytes) (keyEvents false bytes)
    (e0Last bytes) := by
  induction bytes using List.reverseRecOn with
  | nil => exact tracks_start
  | append_singleton bytes data ih =>
    have hnext := ih.next data
    have hlast : e0Last (bytes ++ [data]) = decide (data = 0xE0) := by
      rw [e0Last, List.getLast?_append]
      rfl
    rw [shiftAfter, List.foldl_append, keyEvents_append, hlast]
    by_cases hdata : data = 0xE0
    · rw [if_pos hdata] at hnext
      rw [if_pos hdata, List.append_nil]
      exact hnext
    · rw [if_neg hdata] at hnext
      rw [if_neg hdata]
      exact hnext

private theorem charcode_flags (s key : UInt8) :
    charcode s key = if flag s 1 then ctlmap key else if flag s 0 then shiftmap key else normalmap key := by
  rw [charcode]
  obtain ⟨-, -, -, hnormal, hshift, -⟩ := byte_masks s
  cases hctl : flag s 1 with
  | true => rw [if_neg (by simp [hnormal, hctl]), if_neg (by simp [hshift, hctl]), if_pos rfl]
  | false =>
    cases hsh : flag s 0 with
    | true => rw [if_neg (by simp [hnormal, hsh]), if_pos (hshift.mpr ⟨hctl, hsh⟩), if_neg Bool.false_ne_true, if_pos rfl]
    | false => rw [if_pos (hnormal.mpr ⟨hctl, hsh⟩), if_neg Bool.false_ne_true, if_neg Bool.false_ne_true]

private theorem keyPressed_c (clear key : UInt8) : (keyPressed clear key).c =
    keyChar (flag (keyPressed clear key).shift 1) (flag (keyPressed clear key).shift 0)
      (flag (keyPressed clear key).shift 3) key := by
  have hcaps := (byte_masks (keyPressed clear key).shift).2.2.2.2.2.1
  rw [keyChar, ← charcode_flags]
  change (if (keyPressed clear key).shift &&& CAPSLOCK ≠ 0 then _ else _) = _
  exact if_congr hcaps rfl rfl

private theorem keyPressed_reboot (clear key : UInt8) : (keyPressed clear key).reboot =
    (flag (keyPressed clear key).shift 1 && flag (keyPressed clear key).shift 2 &&
      decide ((keyPressed clear key).c = KEY_DEL.toNat)) := by
  have hboth := (byte_masks (keyPressed clear key).shift).2.2.2.2.2.2
  have hflags : decide (~~~(keyPressed clear key).shift &&& (CTL ||| ALT) = 0) =
      (flag (keyPressed clear key).shift 1 && flag (keyPressed clear key).shift 2) := by
    rw [Bool.eq_iff_iff, decide_eq_true_iff, hboth, Bool.and_eq_true]
  rw [← hflags]
  rfl

end Events

/-- What `kbd_proc_data` returns for an event that is the last of those of `es`. -/
def eventChar (es : List KeyEvent) (e : KeyEvent) : Int :=
  if e.pressed then keyChar (held (modifierKeys 1) es) (held (modifierKeys 0) es) (locked (lockKeys 3) es) e.key else 0

/-- Ctrl and Alt are held and the key is the one that deletes. -/
def restarts (es : List KeyEvent) (e : KeyEvent) : Bool :=
  e.pressed && held (modifierKeys 1) es && held (modifierKeys 2) es && decide (eventChar es e = KEY_DEL.toNat)

private theorem kbdProcData_event {shift data : UInt8} {es : List KeyEvent} {e0 : Bool} (h : Tracks shift es e0)
    (hdata : data ≠ 0xE0) :
    (kbdProcData shift (some data)).c = eventChar (es ++ [keyEvent e0 data]) (keyEvent e0 data) ∧
      (kbdProcData shift (some data)).reboot = restarts (es ++ [keyEvent e0 data]) (keyEvent e0 data) := by
  obtain ⟨-, hrelease, hpress⟩ := h.step data
  cases hp : (keyEvent e0 data).pressed with
  | false =>
    rw [hrelease hdata hp, eventChar, restarts, hp]
    exact ⟨rfl, rfl⟩
  | true =>
    obtain ⟨clear, hclear, hkey⟩ := hpress hdata hp
    have he : keyEvent e0 data = ⟨(keyEvent e0 data).key, true⟩ := by rw [← hp]
    have hafter := hclear.press (keyEvent e0 data).key
    rw [← he] at hafter
    have hctl := hafter.bits 1 (by decide) (by decide)
    have hshift := hafter.bits 0 (by decide) (by decide)
    have halt := hafter.bits 2 (by decide) (by decide)
    have hcaps := hafter.bits 3 (by decide) (by decide)
    rw [lockKeys_modifier (by decide), locked_nil, Bool.xor_false] at hctl hshift halt
    rw [modifierKeys_lock (by decide), held_nil, Bool.false_xor] at hcaps
    have hc : (keyPressed clear (keyEvent e0 data).key).c =
        eventChar (es ++ [keyEvent e0 data]) (keyEvent e0 data) := by
      rw [keyPressed_c, hctl, hshift, hcaps, eventChar, hp, if_pos rfl]
    refine ⟨by rw [hkey]; exact hc, ?_⟩
    rw [hkey, keyPressed_reboot, hc, hctl, halt, restarts, hp, Bool.true_and]

/-- Whatever bytes have come, `shift` tells which modifiers are held and which locks are on, and each byte gives the
character that its key has under them. -/
theorem keyboard_follows_keys (bytes : List UInt8) :
    (∀ i < 3, flag (shiftAfter 0 bytes) i = held (modifierKeys i) (keyEvents false bytes)) ∧
      (∀ i, 3 ≤ i → i < 6 → flag (shiftAfter 0 bytes) i = locked (lockKeys i) (keyEvents false bytes)) ∧
      (flag (shiftAfter 0 bytes) 6 = true ↔ bytes.getLast? = some 0xE0) ∧ flag (shiftAfter 0 bytes) 7 = false ∧
      (kbdProcData (shiftAfter 0 bytes) (some 0xE0)).c = 0 ∧
      ∀ data ≠ 0xE0, ∃ e, keyEvents false (bytes ++ [data]) = keyEvents false bytes ++ [e] ∧
        (kbdProcData (shiftAfter 0 bytes) (some data)).c = eventChar (keyEvents false bytes ++ [e]) e ∧
        (kbdProcData (shiftAfter 0 bytes) (some data)).reboot = restarts (keyEvents false bytes ++ [e]) e := by
  have h := tracks_run bytes
  refine ⟨?_, ?_, ?_, ?_, rfl, ?_⟩
  · intro i hi
    rw [h.bits i (by omega) (by omega), lockKeys_modifier hi, locked_nil, Bool.xor_false]
  · intro i hge hi
    rw [h.bits i (by omega) (by omega), modifierKeys_lock hge, held_nil, Bool.false_xor]
  · rw [h.e0, e0Last]
    cases bytes.getLast? <;> simp
  · rw [h.bits 7 (by decide) (by decide), modifierKeys_lock (by decide), held_nil,
      Bool.false_xor]
    exact locked_nil _
  · intro data hdata
    refine ⟨keyEvent (e0Last bytes) data, ?_, kbdProcData_event h hdata⟩
    rw [keyEvents_append, if_neg hdata]
    rfl

private theorem keyChar_letter : ∀ key : UInt8, 97 ≤ normalmap key → normalmap key ≤ 122 → ∀ ctl shift caps : Bool,
    keyChar ctl shift caps key =
      if ctl then (normalmap key).toNat - 96 else if shift ^^ caps then (normalmap key).toNat - 32
      else (normalmap key).toNat := by
  decide +kernel

/-- Whatever has been pressed before, a letter comes with its control code under Ctrl, and else as a capital when just
one of Shift and Caps Lock is on. -/
theorem letter_keys (bytes : List UInt8) (data : UInt8) (e : KeyEvent)
    (he : keyEvents false (bytes ++ [data]) = keyEvents false bytes ++ [e]) (hpress : e.pressed = true)
    (hlow : 97 ≤ normalmap e.key) (hhigh : normalmap e.key ≤ 122) :
    (kbdProcData (shiftAfter 0 bytes) (some data)).c =
      if held (modifierKeys 1) (keyEvents false bytes ++ [e]) then (normalmap e.key).toNat - 96
      else if held (modifierKeys 0) (keyEvents false bytes ++ [e]) ^^ locked (lockKeys 3) (keyEvents false bytes ++ [e])
      then (normalmap e.key).toNat - 32
      else (normalmap e.key).toNat := by
  have hdata : data ≠ 0xE0 := by
    rintro rfl
    rw [keyEvents_append, if_pos rfl, List.append_nil] at he
    have hlen := congrArg List.length he
    rw [List.length_append, List.length_singleton] at hlen
    omega
  have hevent : keyEvent (e0Last bytes) data = e := by
    rw [keyEvents_append, if_neg hdata] at he
    exact (List.cons_eq_cons.mp (List.append_cancel_left he)).1
  have hc := (kbdProcData_event (tracks_run bytes) hdata).1
  rw [hevent, eventChar, if_pos hpress] at hc
  rw [hc]
  exact keyChar_letter e.key hlow hhigh _ _ _

/-- Shift is pressed, and then A. -/
theorem letter_keys_sample : (kbdProcData (shiftAfter 0 [0x2A]) (some 0x1E)).c = 65 :=
  (letter_keys [0x2A] 0x1E ⟨0x1E, true⟩ rfl rfl (by decide) (by decide)).trans (by decide)

end DamnOS.Kernel
