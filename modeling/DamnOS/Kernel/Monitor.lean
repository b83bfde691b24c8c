import DamnOS.Framework.Scans
import DamnOS.Programs.Readline

/-!
# The kernel monitor

`runcmd` of `monitor.c` cuts a line into arguments in place, and `monitor` runs one line after the other.
-/

namespace DamnOS.Kernel.Monitor

open DamnOS.Framework
open DamnOS.Programs

def WHITESPACE : List UInt8 := [9, 13, 10, 32]
def MAXARGS : Nat := 16

/-- `strchr(WHITESPACE, c)`, for a byte that does not end the string. -/
def isBlank (c : UInt8) : Bool := c != 0 && WHITESPACE.contains c

def isPlain (c : UInt8) : Bool := c != 0 && !WHITESPACE.contains c

/-- The loop of `runcmd` that collects `argv`, with the memory it leaves; there is no `argv` if it gives up.  A store
behind `argv[MAXARGS - 1]` has no meaning. -/
def parse (fuel : Nat) : Nat → (Nat → UInt8) → Nat → List Nat → Option ((Nat → UInt8) × Option (List Nat))
  | 0, _, _, _ => none
  | n + 1, m, buf, argv => do
    let (m, buf) ← clearWhile isBlank fuel m buf
    if m buf = 0 then
      if argv.length < MAXARGS then some (m, some argv) else none
    else if argv.length = MAXARGS - 1 then some (m, none)
    else if argv.length < MAXARGS then do
      let e ← skipWhile isPlain fuel m buf
      parse fuel n m e (argv ++ [buf])
    else none

/-- `strcmp(p, name) == 0`, for a name that is a constant. -/
def strcmpZero (m : Nat → UInt8) : Nat → List UInt8 → Bool
  | p, [] => m p = 0
  | p, c :: name => m p = c && strcmpZero m (p + 1) name

inductive Command where
  | help
  | kerninfo
  deriving DecidableEq

def commands : List (List UInt8 × Command) := [("help".toUTF8.toList, .help), ("kerninfo".toUTF8.toList, .kerninfo)]

/-- What `runcmd` does: nothing, one of its complaints, or a command with the number of its arguments. -/
inductive Response (ν : Type) where
  | nothing
  | tooMany
  | unknown (name : ν)
  | run (c : Command) (argc : Nat)
  deriving DecidableEq

def invoke (m : Nat → UInt8) : List Nat → Response Nat
  | [] => .nothing
  | a :: argv =>
    match commands.find? fun c => strcmpZero m a c.1 with
    | some c => .run c.2 (argv.length + 1)
    | none => .unknown a

def runcmd (fuel : Nat) (m : Nat → UInt8) (buf : Nat) : Option ((Nat → UInt8) × Response Nat) := do
  let (m, argv) ← parse fuel fuel m buf []
  match argv with
  | none => some (m, .tooMany)
  | some argv => some (m, invoke m argv)

/-- What `runcmd` returns.  Neither `mon_help` nor `mon_kerninfo` returns anything else. -/
def Response.value {ν : Type} : Response ν → Int
  | _ => 0

/-- `%s`, for a string that ends in front of `n` more bytes. -/
def text (m : Nat → UInt8) : Nat → Nat → List UInt8
  | 0, _ => []
  | n + 1, p => if m p = 0 then [] else m p :: text m n (p + 1)

def Response.shown (m : Nat → UInt8) : Response Nat → Response (List UInt8)
  | .nothing => .nothing
  | .tooMany => .tooMany
  | .unknown a => .unknown (text m BUFLEN a)
  | .run c argc => .run c argc

/-- `monitor`, on what `getchar` returns; for at most `n` turns, or until it waits for input.  It comes with the memory
it leaves. -/
def monitor (fuel : Nat) : Nat → (Nat → UInt8) → List Int →
    Option (List (Response (List UInt8)) × (Nat → UInt8))
  | 0, buf, _ => some ([], buf)
  | n + 1, buf, cs =>
    match readline true cs ⟨buf, 0, []⟩ with
    | .inl s => some ([], s.buf)
    | .inr (.null _ s, rest) => monitor fuel n s.buf rest
    | .inr (.line s, rest) => do
      let (m, r) ← runcmd fuel s.buf 0
      if r.value < 0 then some ([r.shown m], m)
      else do
        let (rs, last) ← monitor fuel n m rest
        some (r.shown m :: rs, last)

def words (line : List UInt8) : List (List UInt8) := fields isBlank line

def respond (line : List UInt8) : Response (List UInt8) :=
  if MAXARGS - 1 < (words line).length then .tooMany
  else
    match words line with
    | [] => .nothing
    | w :: ws =>
      match commands.find? fun c => c.1 = w with
      | some c => .run c.2 (ws.length + 1)
      | none => .unknown w

/-- The pointers lead to the words, each ended by a zero. -/
def ArgsAt (m : Nat → UInt8) (argv : List Nat) (ws : List (List UInt8)) : Prop := List.Forall₂ (StringAt m) argv ws

section Parsing

variable {m m' : Nat → UInt8} {s fuel n : Nat} {l w : List UInt8} {argv : List Nat} {ws : List (List UInt8)}

private theorem isPlain_eq {c : UInt8} (hc : c ≠ 0) : isPlain c = !isBlank c := by
  have hb : (c != 0) = true := bne_iff_ne.mpr hc
  rw [isPlain, isBlank, hb, Bool.true_and, Bool.true_and]

private theorem takeWhile_plain (h0 : (0 : UInt8) ∉ l) :
    l.takeWhile isPlain = l.takeWhile fun c => !isBlank c := by
  induction l with
  | nil => rfl
  | cons c l ih =>
    simp only [List.mem_cons, not_or] at h0
    rw [List.takeWhile_cons, List.takeWhile_cons, isPlain_eq (Ne.symm h0.1), ih h0.2]

/-- The pointers lead to the words unless the memory between is written. -/
theorem StringAt.cut {v : List UInt8} (h : StringAt m s (w ++ v)) (hm : ∀ x, s ≤ x → x < s + w.length → m' x = m x)
    (h0 : m' (s + w.length) = 0) : StringAt m' s w := by
  have hzero := h.zero_not_mem
  rw [List.mem_append, not_or] at hzero
  exact (h.bytesAt.left.congr hm).stringAt hzero.1 h0

/-- The loop collects all words of the string, or gives up when there are too many; only the string is written. -/
theorem parse_spec (h : StringAt m s l) (hn : l.length < n) (hf : l.length < fuel) (hargv : argv.length < MAXARGS) :
    ∃ m' r, parse fuel n m s argv = some (m', r) ∧ (∀ x, x < s ∨ s + l.length ≤ x → m' x = m x) ∧
      (isBlank (m s) = true → m' s = 0) ∧
      (argv.length + (words l).length < MAXARGS → ∃ as, r = some (argv ++ as) ∧ ArgsAt m' as (words l)) ∧
      (MAXARGS ≤ argv.length + (words l).length → r = none) := by
  induction n generalizing m s l argv with
  | zero => omega
  | succ n ih =>
    obtain ⟨m₁, hclear, hat, hframe, hfirst⟩ := clearWhile_spec (show isBlank 0 = false from rfl) h hf
    have hwords : words l = words (l.dropWhile isBlank) := fields_front isBlank l
    have hlen := congrArg List.length (@List.takeWhile_append_dropWhile _ isBlank l)
    rw [List.length_append] at hlen
    have hhead := List.head?_dropWhile_not isBlank l
    rw [parse, hclear, hwords]
    generalize l.dropWhile isBlank = rest at hat hlen hhead ⊢
    generalize (l.takeWhile isBlank).length = k at hclear hat hframe hlen ⊢
    dsimp only [Option.bind_eq_bind, Option.bind_some]
    cases rest with
    | nil =>
      have hend : m₁ (s + k) = 0 := hat
      rw [if_pos hend, if_pos hargv]
      refine ⟨m₁, _, rfl, fun x hx => hframe x (by rw [List.length_nil] at hlen; omega), hfirst, ?_, ?_⟩
      · intro _
        exact ⟨[], by rw [List.append_nil], .nil⟩
      · intro hmany
        change MAXARGS ≤ argv.length + 0 at hmany
        omega
    | cons c rest =>
      have hc : isBlank c = false := hhead
      have hword : words (c :: rest) = _ :: words _ := fields_cons hc rest
      have hne : m₁ (s + k) ≠ 0 := by
        rw [hat.1]
        exact hat.2.1
      rw [if_neg hne, hword]
      by_cases hfull : argv.length = MAXARGS - 1
      · rw [if_pos hfull]
        refine ⟨m₁, none, rfl, fun x hx => hframe x (by omega), hfirst, ?_, fun _ => rfl⟩
        intro hroom
        rw [List.length_cons] at hroom
        omega
      · have hscan : skipWhile isPlain fuel m₁ (s + k) = _ := skipWhile_spec rfl hat (by omega)
        rw [takeWhile_plain hat.zero_not_mem] at hscan
        rw [if_neg hfull, if_pos hargv, hscan]
        dsimp only [Option.bind_some]
        have hsplit := @List.takeWhile_append_dropWhile _ (fun x => !isBlank x) (c :: rest)
        have hsep := List.head?_dropWhile_not (fun x => !isBlank x) (c :: rest)
        have hpos : 0 < ((c :: rest).takeWhile fun x => !isBlank x).length := by
          rw [List.takeWhile_cons_of_pos (by rw [hc]; rfl)]
          exact Nat.succ_pos _
        generalize (c :: rest).takeWhile (fun x => !isBlank x) = w at *
        generalize (c :: rest).dropWhile (fun x => !isBlank x) = v at *
        rw [← hsplit] at hat hlen
        rw [List.length_append] at hlen
        obtain ⟨m', r, hrun, hframe', hfirst', hfits, hmany⟩ := @ih m₁ (s + k + w.length) v (argv ++ [s + k]) hat.append
          (by omega) (by omega) (by rw [List.length_append, List.length_singleton]; omega)
        rw [List.length_append, List.length_singleton, Nat.add_right_comm] at hfits hmany
        refine ⟨m', r, hrun, ?_, ?_, ?_, hmany⟩
        · intro x hx
          rw [hframe' x (by omega), hframe x (by omega)]
        · intro hblank
          rw [hframe' s (by omega)]
          exact hfirst hblank
        · intro hroom
          obtain ⟨as, rfl, has⟩ := hfits hroom
          refine ⟨(s + k) :: as, by rw [List.append_assoc]; rfl, .cons ?_ has⟩
          apply StringAt.cut hat
          · intro x _ hx
            exact hframe' x (.inl hx)
          · cases v with
            | nil => exact (hframe' _ (.inr le_rfl)).trans hat.append
            | cons d v =>
              apply hfirst'
              rw [hat.append.1]
              simpa using hsep

private theorem strcmpZero_iff (h : StringAt m s w) {name : List UInt8} (h0 : (0 : UInt8) ∉ name) :
    strcmpZero m s name = true ↔ w = name := by
  have hat : strcmpZero m s name = true ↔ StringAt m s name := by
    clear h
    induction name generalizing s with
    | nil => exact decide_eq_true_iff
    | cons c name ih =>
      simp only [List.mem_cons, not_or] at h0
      rw [strcmpZero, Bool.and_eq_true, decide_eq_true_iff, ih h0.2]
      exact ⟨fun hc => ⟨hc.1, Ne.symm h0.1, hc.2⟩, fun hc => ⟨hc.1, hc.2.2⟩⟩
  rw [hat]
  constructor
  · exact h.unique
  · rintro rfl
    exact h

private theorem zero_not_mem_commands : ∀ c ∈ commands, (0 : UInt8) ∉ c.1 := by
  decide +kernel

private theorem find_command (h : StringAt m s w) :
    (commands.find? fun c => strcmpZero m s c.1) = commands.find? fun c => c.1 = w := by
  apply List.find?_congr
  intro c hc
  rw [Bool.eq_iff_iff, strcmpZero_iff h (zero_not_mem_commands c hc), decide_eq_true_iff]
  exact eq_comm

private theorem text_string (h : StringAt m s w) (hn : w.length < n) : text m n s = w := by
  induction w generalizing s n with
  | nil =>
    obtain ⟨n, rfl⟩ := Nat.exists_eq_add_one_of_ne_zero (Nat.ne_of_gt hn)
    exact if_pos h
  | cons c w ih =>
    obtain ⟨n, rfl⟩ := Nat.exists_eq_add_one_of_ne_zero (Nat.ne_of_gt (Nat.zero_lt_of_lt hn))
    obtain ⟨hc, hne, hrest⟩ := h
    rw [text, hc, if_neg hne, ih hrest (by simpa using hn)]

private theorem length_words {l w : List UInt8} (h : w ∈ words l) : w.length ≤ l.length := by
  induction hn : l.length using Nat.strongRecOn generalizing l with
  | ind n ih =>
    have hfront : words l = words (l.dropWhile isBlank) := fields_front isBlank l
    have hle := List.length_dropWhile_le isBlank l
    have hhead := List.head?_dropWhile_not isBlank l
    rw [hfront] at h
    generalize l.dropWhile isBlank = rest at h hle hhead
    cases rest with
    | nil => cases h
    | cons c rest =>
      have hc : isBlank c = false := hhead
      have hword : words (c :: rest) = _ :: words _ := fields_cons hc rest
      have hcut := congrArg List.length (@List.takeWhile_append_dropWhile _ (fun x => !isBlank x) (c :: rest))
      rw [List.length_append] at hcut
      rw [hword, List.mem_cons] at h
      rcases h with rfl | h
      · omega
      · have hpos : 0 < ((c :: rest).takeWhile fun x => !isBlank x).length := by
          rw [List.takeWhile_cons_of_pos (by rw [hc]; rfl)]
          exact Nat.succ_pos _
        have hrec := ih _ (by omega) h rfl
        omega

private theorem runcmd_spec (h : StringAt m s l) (hf : l.length < fuel) (hl : l.length < BUFLEN) :
    ∃ m' r, runcmd fuel m s = some (m', r) ∧ r.shown m' = respond l ∧
      ∀ x, x < s ∨ s + l.length ≤ x → m' x = m x := by
  obtain ⟨m', argv, hparse, hframe, -, hfits, hmany⟩ := @parse_spec m s fuel fuel l [] h hf hf (by decide)
  rw [List.length_nil, Nat.zero_add] at hfits hmany
  rw [runcmd, hparse]
  dsimp only [Option.bind_eq_bind, Option.bind_some]
  by_cases hroom : (words l).length < MAXARGS
  · obtain ⟨as, rfl, has⟩ := hfits hroom
    refine ⟨m', invoke m' as, rfl, ?_, hframe⟩
    rw [respond, if_neg (Nat.not_lt.mpr (Nat.le_sub_one_of_lt hroom))]
    cases hwords : words l with
    | nil =>
      rw [hwords] at has
      cases has
      rfl
    | cons w ws =>
      have hlen : w.length ≤ l.length := length_words (by rw [hwords]; exact List.mem_cons_self)
      rw [hwords] at has
      cases has with
      | cons hw hrest =>
        dsimp only [invoke]
        rw [find_command hw, hrest.length_eq]
        cases commands.find? fun c => c.1 = w with
        | none => exact congrArg Response.unknown (text_string hw (by omega))
        | some c => rfl
  · rw [hmany (Nat.le_of_not_lt hroom)]
    refine ⟨m', .tooMany, rfl, ?_, hframe⟩
    rw [respond, if_pos (Nat.lt_of_lt_of_le (by decide) (Nat.le_of_not_lt hroom))]
    rfl

end Parsing

/-- What is typed up to the end of a line. -/
structure TypedLine where
  chars : List Int
  stop : Int

def TypedLine.all (l : TypedLine) : List Int := l.chars ++ [l.stop]

def TypedLine.line (l : TypedLine) : List UInt8 := l.chars.foldl edit []

structure TypedLine.Valid (l : TypedLine) : Prop where
  chars : ∀ c ∈ l.chars, InLine c
  stop : l.stop = 10 ∨ l.stop = 13

/-- Whatever lines are typed, the monitor answers each of them by its words, goes on to wait for the next one, and
writes nothing behind the buffer of `readline`. -/
theorem monitor_session (fuel n : Nat) (buf : Nat → UInt8) (lines : List TypedLine) (rest : List Int)
    (hfuel : BUFLEN ≤ fuel) (hn : lines.length < n) (hlines : ∀ l ∈ lines, l.Valid) (hrest : ∀ c ∈ rest, InLine c) :
    ∃ m, monitor fuel n buf (lines.flatMap TypedLine.all ++ rest) = some (lines.map fun l => respond l.line, m) ∧
      ∀ x, BUFLEN ≤ x → m x = buf x := by
  induction lines generalizing buf n with
  | nil =>
    obtain ⟨n, rfl⟩ := Nat.exists_eq_add_one_of_ne_zero (Nat.ne_of_gt hn)
    obtain ⟨s, hs, h⟩ := readline_waits buf true hrest
    rw [List.flatMap_nil, List.nil_append, monitor, hs]
    exact ⟨s.buf, rfl, h.frame⟩
  | cons l lines ih =>
    obtain ⟨n, rfl⟩ := Nat.exists_eq_add_one_of_ne_zero (Nat.ne_of_gt (Nat.zero_lt_of_lt hn))
    have hl := hlines l List.mem_cons_self
    obtain ⟨s, hs, hstring, -, hframe⟩ :=
      readline_returns buf true hl.chars hl.stop (lines.flatMap TypedLine.all ++ rest)
    obtain ⟨_, -, hcollected⟩ := readline_waits buf true hl.chars
    have hlen := hcollected.room
    obtain ⟨m, r, hrun, hshown, hkept⟩ := runcmd_spec hstring (Nat.lt_of_lt_of_le hlen hfuel) hlen
    obtain ⟨last, hnext, hlast⟩ := ih n m (by simpa using hn) fun x hx => hlines x (List.mem_cons_of_mem l hx)
    have hinput : (l :: lines).flatMap TypedLine.all ++ rest =
        l.chars ++ l.stop :: (lines.flatMap TypedLine.all ++ rest) := by
      rw [List.flatMap_cons, TypedLine.all, List.append_assoc, List.append_assoc]
      rfl
    refine ⟨last, ?_, ?_⟩
    · rw [hinput, monitor, hs]
      dsimp only
      rw [hrun, Option.bind_eq_bind, Option.bind_some]
      dsimp only
      rw [if_neg (show ¬r.value < 0 from lt_irrefl (0 : Int)), hnext, hshown]
      rfl
    · intro x hx
      rw [hlast x hx, hkept x (.inr (by omega)), hframe x hx]

/-- `help`, with blanks around it, and half a line. -/
theorem monitor_session_sample :
    ∃ m, monitor BUFLEN 2 (fun _ => 0) [32, 104, 101, 108, 112, 32, 10, 120] = some ([.run .help 1], m) ∧
      ∀ x, BUFLEN ≤ x → m x = 0 := by
  obtain ⟨m, hm, hframe⟩ := monitor_session BUFLEN 2 (fun _ => 0) [⟨[32, 104, 101, 108, 112, 32], 10⟩] [120] le_rfl
    (by decide) (by simpa using ⟨by decide, by decide⟩) (by decide)
  exact ⟨m, hm.trans (congrArg (fun rs => some (rs, m)) (by decide +kernel)), hframe⟩

end DamnOS.Kernel.Monitor
