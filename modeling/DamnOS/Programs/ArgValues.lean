import DamnOS.Programs.Args

/-!
# The values of flags

`argvalue` and `argnextvalue` of `args.c`.  A program calls them and `argnext` in any order; what it gets is what a
cursor over the texts of the arguments gives.
-/

namespace DamnOS.Programs

open DamnOS.Framework

namespace Argstate

/-- `argnextvalue`; `empty` is the address of `""`. -/
def argnextvalue (empty : Nat) (m : Nat → UInt8) (s : Argstate) : Option Nat × Argstate :=
  match s.curarg with
  | none => (none, s)
  | some p =>
    if m p ≠ 0 then (some p, { s with argvalue := some p, curarg := some empty })
    else if 1 < s.argc then
      (s.argv 1, { s with argvalue := s.argv 1, argv := memmove s.argv 1 2 (s.argc - 1), argc := s.argc - 1 })
    else (none, { s with argvalue := none, curarg := none })

def argvalueCall (empty : Nat) (m : Nat → UInt8) (s : Argstate) : Option Nat × Argstate :=
  match s.argvalue with
  | some p => (some p, s)
  | none => s.argnextvalue empty m

end Argstate

/-- The calls of a program. -/
inductive ArgCall where
  | argnext
  | argvalue
  | argnextvalue
  deriving DecidableEq

/-- What a call returns: a flag or -1, or a text, which is a pointer or the characters there. -/
inductive ArgAnswer (ν : Type) where
  | flag (r : Int)
  | value (t : Option ν)
  deriving DecidableEq

def Argstate.call (empty : Nat) (m : Nat → UInt8) (s : Argstate) : ArgCall → Option (ArgAnswer Nat × Argstate)
  | .argnext => (s.argnext m).map fun r => (.flag r.1, r.2)
  | .argvalue => some (.value (s.argvalueCall empty m).1, (s.argvalueCall empty m).2)
  | .argnextvalue => some (.value (s.argnextvalue empty m).1, (s.argnextvalue empty m).2)

def Argstate.calls (empty : Nat) (m : Nat → UInt8) : List ArgCall → Argstate → Option (List (ArgAnswer Nat) × Argstate)
  | [], s => some ([], s)
  | k :: ks, s => do
    let r ← s.call empty m k
    let rs ← Argstate.calls empty m ks r.2
    some (r.1 :: rs.1, rs.2)

/-- The flags that are left of an argument, or nothing after the end; the value that has been returned for the last
flag; and the arguments that are left. -/
structure ArgCursor where
  letters : Option (List UInt8)
  value : Option (List UInt8)
  rest : List (List UInt8)

namespace ArgCursor

def start (texts : List (List UInt8)) : ArgCursor := ⟨if texts = [] then none else some [], none, texts⟩

def next (c : ArgCursor) : Int × ArgCursor :=
  match c.letters, c.rest with
  | none, rest => (-1, ⟨none, none, rest⟩)
  | some (b :: w), rest => (b.toNat, ⟨some w, none, rest⟩)
  | some [], [] => (-1, ⟨none, none, []⟩)
  | some [], x :: rest =>
    if isFlags x then ((x.getD 1 0).toNat, ⟨some (x.drop 2), none, rest⟩)
    else if x = [DASH, DASH] then (-1, ⟨none, none, rest⟩)
    else (-1, ⟨none, none, x :: rest⟩)

def nextvalue (c : ArgCursor) : Option (List UInt8) × ArgCursor :=
  match c.letters, c.rest with
  | none, _ => (none, c)
  | some (b :: w), rest => (some (b :: w), ⟨some [], some (b :: w), rest⟩)
  | some [], x :: rest => (some x, ⟨some [], some x, rest⟩)
  | some [], [] => (none, ⟨none, none, []⟩)

/-- The value of a flag stays the same until the next flag. -/
def valueAgain (c : ArgCursor) : Option (List UInt8) × ArgCursor :=
  match c.value with
  | some t => (some t, c)
  | none => c.nextvalue

def call (c : ArgCursor) : ArgCall → ArgAnswer (List UInt8) × ArgCursor
  | .argnext => (.flag c.next.1, c.next.2)
  | .argvalue => (.value c.valueAgain.1, c.valueAgain.2)
  | .argnextvalue => (.value c.nextvalue.1, c.nextvalue.2)

def calls : List ArgCall → ArgCursor → List (ArgAnswer (List UInt8)) × ArgCursor
  | [], c => ([], c)
  | k :: ks, c => ((c.call k).1 :: (calls ks (c.call k).2).1, (calls ks (c.call k).2).2)

end ArgCursor

/-- A pointer and the text that it stands for. -/
abbrev Points (m : Nat → UInt8) : Option Nat → Option (List UInt8) → Prop := Option.Rel (StringAt m)

/-- Two answers that say the same. -/
inductive SameAnswer (m : Nat → UInt8) : ArgAnswer Nat → ArgAnswer (List UInt8) → Prop
  | flag (r : Int) : SameAnswer m (.flag r) (.flag r)
  | value {p t} (h : Points m p t) : SameAnswer m (.value p) (.value t)

/-- The state is that of the cursor, with what is left of `args` behind the name of the program. -/
structure Argstate.Follows (m : Nat → UInt8) (a : Argument) (args : List Argument) (s : Argstate) (c : ArgCursor) :
    Prop where
  left : ∃ left, s.Has m (a :: left) ∧ left <:+ args ∧ left.map Prod.snd = c.rest
  letters : Points m s.curarg c.letters
  value : Points m s.argvalue c.value

section Calls

variable {m : Nat → UInt8} {a : Argument} {args : List Argument} {s : Argstate} {c : ArgCursor} {empty : Nat}

private theorem argnext_ended (h : s.curarg = none) : s.argnext m = some (-1, { s with argvalue := none }) := by
  rw [Argstate.argnext]
  dsimp only
  rw [h]

private theorem argnext_argvalue {r : Int} {t : Argstate} (h : s.argnext m = some (r, t)) : t.argvalue = none := by
  rw [Argstate.argnext] at h
  dsimp only at h
  cases hcur : s.curarg with
  | none =>
    rw [hcur] at h
    cases h
    rfl
  | some p =>
    rw [hcur] at h
    dsimp only at h
    by_cases hp : m p = 0
    · rw [if_pos hp] at h
      by_cases hargc : s.argc = 1
      · rw [if_pos hargc] at h
        cases h
        rfl
      · rw [if_neg hargc] at h
        obtain ⟨q, -, h⟩ := Option.bind_eq_some_iff.mp h
        split_ifs at h
        all_goals
          cases h
          rfl
    · rw [if_neg hp] at h
      cases h
      rfl

private theorem follows_next (h : s.Follows m a args c) :
    ∃ t, s.argnext m = some (c.next.1, t) ∧ t.Follows m a args c.next.2 := by
  obtain ⟨⟨left, hhas, hsuffix, hrest⟩, hletters, -⟩ := h
  have hnone {r : Int} {t : Argstate} (hrun : s.argnext m = some (r, t)) : Points m t.argvalue none := by
    rw [argnext_argvalue hrun]
    exact .none
  obtain ⟨letters, value, rest⟩ := c
  cases hrest
  cases hcur : s.curarg with
  | none =>
    rw [hcur] at hletters
    cases hletters
    have hrun := @argnext_ended m s hcur
    refine ⟨_, hrun, ⟨left, ⟨hhas.argc, hhas.argv, hhas.strings⟩, hsuffix, rfl⟩, ?_, hnone hrun⟩
    change Points m s.curarg none
    rw [hcur]
    exact .none
  | some p =>
    rw [hcur] at hletters
    cases hletters with | @some _ w hp
    cases w with
    | cons b w =>
      obtain ⟨t, hrun, ht, hplace⟩ := argnext_cons hhas hcur hp
      refine ⟨t, hrun, ⟨left, ht, hsuffix, rfl⟩, ?_, hnone hrun⟩
      rw [hplace]
      exact .some hp.2.2
    | nil =>
      cases left with
      | nil =>
        obtain ⟨t, hrun, ht, hplace, -⟩ := argnext_last hhas hcur hp
        refine ⟨t, hrun, ⟨[], ht, hsuffix, rfl⟩, ?_, hnone hrun⟩
        rw [hplace]
        exact .none
      | cons x left =>
        have hsmaller : left <:+ args := (List.suffix_cons x left).trans hsuffix
        rw [List.map_cons, ArgCursor.next]
        dsimp only
        by_cases hx : isFlags x.2 = true
        · obtain ⟨b, w, hw, hne⟩ := isFlags_iff.mp hx
          obtain ⟨t, hrun, ht, hplace, hstring⟩ := argnext_flag hhas hcur hp hw hne
          rw [if_pos hx, hw]
          refine ⟨t, hrun, ⟨left, ht, hsmaller, rfl⟩, ?_, hnone hrun⟩
          rw [hplace]
          exact .some hstring
        · rw [if_neg hx]
          rw [Bool.not_eq_true] at hx
          by_cases hdashes : x.2 = [DASH, DASH]
          · obtain ⟨t, hrun, ht, hplace, -⟩ := argnext_dashes hhas hcur hp hdashes
            rw [if_pos hdashes]
            refine ⟨t, hrun, ⟨left, ht, hsmaller, rfl⟩, ?_, hnone hrun⟩
            rw [hplace]
            exact .none
          · obtain ⟨t, hrun, ht, hplace, -⟩ := argnext_other hhas hcur hp hx hdashes
            rw [if_neg hdashes]
            refine ⟨t, hrun, ⟨x :: left, ht, hsuffix, rfl⟩, ?_, hnone hrun⟩
            rw [hplace]
            exact .none

private theorem follows_nextvalue (hempty : m empty = 0) (h : s.Follows m a args c) :
    Points m (s.argnextvalue empty m).1 c.nextvalue.1 ∧ (s.argnextvalue empty m).2.Follows m a args c.nextvalue.2 := by
  obtain ⟨⟨left, hhas, hsuffix, hrest⟩, hletters, hvalue⟩ := h
  obtain ⟨letters, value, rest⟩ := c
  cases hrest
  rw [Argstate.argnextvalue]
  cases hcur : s.curarg with
  | none =>
    rw [hcur] at hletters
    cases hletters
    refine ⟨.none, ⟨left, hhas, hsuffix, rfl⟩, ?_, hvalue⟩
    rw [hcur]
    exact .none
  | some p =>
    rw [hcur] at hletters
    cases hletters with | @some _ w hp
    dsimp only
    cases w with
    | cons b w =>
      have hne : m p ≠ 0 := hp.1 ▸ hp.2.1
      rw [if_pos hne]
      exact ⟨.some hp, ⟨left, ⟨hhas.argc, hhas.argv, hhas.strings⟩, hsuffix, rfl⟩, .some hempty, .some hp⟩
    | nil =>
      have hend : m p = 0 := hp
      have hargc := hhas.argc
      rw [if_neg (not_not.mpr hend)]
      cases left with
      | nil =>
        rw [if_neg (by simp [hargc])]
        exact ⟨.none, ⟨[], ⟨hhas.argc, hhas.argv, hhas.strings⟩, hsuffix, rfl⟩, .none, .none⟩
      | cons x left =>
        have hsecond : s.argv 1 = some x.1 := hhas.argv.2.1
        have hstring := hhas.strings x (by simp)
        have hshift := hhas.shift p
        rw [if_pos (by simp [hargc]), hsecond]
        refine ⟨.some hstring, ⟨left, ⟨hshift.argc, hshift.argv, hshift.strings⟩,
          (List.suffix_cons x left).trans hsuffix, rfl⟩, ?_, .some hstring⟩
        exact .some hp

private theorem follows_valueAgain (hempty : m empty = 0) (h : s.Follows m a args c) :
    Points m (s.argvalueCall empty m).1 c.valueAgain.1 ∧
      (s.argvalueCall empty m).2.Follows m a args c.valueAgain.2 := by
  have hvalue := h.value
  rw [Argstate.argvalueCall, ArgCursor.valueAgain]
  cases hs : s.argvalue with
  | none =>
    rw [hs] at hvalue
    cases hc : c.value with
    | none => exact follows_nextvalue hempty h
    | some t =>
      rw [hc] at hvalue
      cases hvalue
  | some p =>
    rw [hs] at hvalue
    cases hc : c.value with
    | none =>
      rw [hc] at hvalue
      cases hvalue
    | some t =>
      rw [hc] at hvalue
      exact ⟨hvalue, h⟩

private theorem follows_call (hempty : m empty = 0) (h : s.Follows m a args c) (k : ArgCall) :
    ∃ x t, s.call empty m k = some (x, t) ∧ SameAnswer m x (c.call k).1 ∧ t.Follows m a args (c.call k).2 := by
  cases k with
  | argnext =>
    obtain ⟨t, hrun, ht⟩ := follows_next h
    exact ⟨.flag c.next.1, t, by rw [Argstate.call, hrun]; rfl, .flag _, ht⟩
  | argvalue =>
    obtain ⟨hpoints, ht⟩ := follows_valueAgain hempty h
    exact ⟨_, _, rfl, .value hpoints, ht⟩
  | argnextvalue =>
    obtain ⟨hpoints, ht⟩ := follows_nextvalue hempty h
    exact ⟨_, _, rfl, .value hpoints, ht⟩

private theorem follows_calls (hempty : m empty = 0) (h : s.Follows m a args c) (ks : List ArgCall) :
    ∃ xs t, s.calls empty m ks = some (xs, t) ∧ List.Forall₂ (SameAnswer m) xs (c.calls ks).1 ∧
      t.Follows m a args (c.calls ks).2 := by
  induction ks generalizing s c with
  | nil => exact ⟨[], s, rfl, .nil, h⟩
  | cons k ks ih =>
    obtain ⟨x, t, hcall, hx, ht⟩ := follows_call hempty h k
    obtain ⟨xs, u, hrun, hxs, hu⟩ := ih ht
    refine ⟨x :: xs, u, ?_, .cons hx hxs, hu⟩
    rw [Argstate.calls, hcall]
    dsimp only [Option.bind_eq_bind, Option.bind_some]
    rw [hrun]
    rfl

end Calls

/-- A program that calls `argnext`, `argvalue` and `argnextvalue` in any order gets what the cursor over the texts of
its arguments gives, and `argv` keeps the arguments that are left. -/
theorem argvalues_follow_cursor (m : Nat → UInt8) (empty argc : Nat) (argv : Nat → Option Nat) (a : Argument)
    (args : List Argument) (hempty : m empty = 0) (h : (argstart empty argc argv).Has m (a :: args))
    (ks : List ArgCall) : ∃ xs t left, (argstart empty argc argv).calls empty m ks = some (xs, t) ∧
      List.Forall₂ (SameAnswer m) xs ((ArgCursor.start (args.map Prod.snd)).calls ks).1 ∧
      t.Has m (a :: left) ∧ left <:+ args ∧
      left.map Prod.snd = ((ArgCursor.start (args.map Prod.snd)).calls ks).2.rest := by
  have hargc : argc = args.length + 1 := h.argc
  have hstart : (argstart empty argc argv).Follows m a args (ArgCursor.start (args.map Prod.snd)) := by
    refine ⟨⟨args, h, List.suffix_rfl, rfl⟩, ?_, .none⟩
    change Points m (if 1 < argc then some empty else none) (if args.map Prod.snd = [] then none else some [])
    cases args with
    | nil =>
      rw [if_neg (by simp [hargc]), if_pos List.map_nil]
      exact .none
    | cons x args =>
      rw [if_pos (by simp [hargc]), if_neg (by simp)]
      exact .some hempty
  obtain ⟨xs, t, hrun, hxs, ⟨left, hleft, hsuffix, hrest⟩, -, -⟩ := follows_calls hempty hstart ks
  exact ⟨xs, t, left, hrun, hxs, hleft, hsuffix, hrest⟩

/-- The arguments `-fval1`, `val2` and `val3` of the documentation. -/
example : ((ArgCursor.start [[45, 102, 49], [50], [51]]).calls
    [.argnext, .argvalue, .argvalue, .argnextvalue, .argnextvalue, .argnextvalue]).1 =
      [.flag 102, .value (some [49]), .value (some [49]), .value (some [50]), .value (some [51]), .value none] := by
  decide

/-- The arguments `sh -fx a`, each at its own place of the memory. -/
theorem argvalues_follow_cursor_sample : ∃ xs t left,
    (argstart 2 3 fun i => [0, 3, 7][i]?).calls 2 (memoryOf [115, 104, 0, 45, 102, 120, 0, 97])
        [.argnext, .argvalue, .argnextvalue] = some (xs, t) ∧
      List.Forall₂ (SameAnswer (memoryOf [115, 104, 0, 45, 102, 120, 0, 97])) xs
        [.flag 102, .value (some [120]), .value (some [97])] ∧
      t.Has (memoryOf [115, 104, 0, 45, 102, 120, 0, 97]) ((0, [115, 104]) :: left) ∧
      left <:+ [(3, [45, 102, 120]), (7, [97])] ∧ left.map Prod.snd = [] := by
  have hargs : (argstart 2 3 fun i => [0, 3, 7][i]?).Has (memoryOf [115, 104, 0, 45, 102, 120, 0, 97])
      [(0, [115, 104]), (3, [45, 102, 120]), (7, [97])] := by
    refine ⟨rfl, ⟨rfl, rfl, rfl, rfl⟩, ?_⟩
    simp [memoryOf]
  exact argvalues_follow_cursor (memoryOf [115, 104, 0, 45, 102, 120, 0, 97]) 2 3 (fun i => [0, 3, 7][i]?)
    (0, [115, 104]) [(3, [45, 102, 120]), (7, [97])] rfl hargs [.argnext, .argvalue, .argnextvalue]

end DamnOS.Programs
