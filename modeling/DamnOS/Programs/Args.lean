import DamnOS.Framework.CStrings

/-!
# The flags of a program

`argstart` and `argnext` of `args.c`.  They take the flags out of the argument vector, which is shifted in place;
`curarg` points into the argument whose flags are being returned.
-/

namespace DamnOS.Programs

open DamnOS.Framework

def DASH : UInt8 := 45

def memmove {α : Type} (v : Nat → α) (dst src n : Nat) : Nat → α :=
  fun i => if dst ≤ i ∧ i < dst + n then v (i - dst + src) else v i

/-- `struct Argstate`, with what `argc` and `argv` point to.  A null pointer is `none`. -/
structure Argstate where
  argc : Nat
  argv : Nat → Option Nat
  curarg : Option Nat
  argvalue : Option Nat

/-- `argstart`, for an `argv` that is not null; `empty` is the address of `""`. -/
def argstart (empty argc : Nat) (argv : Nat → Option Nat) : Argstate where
  argc := argc
  argv := argv
  curarg := if 1 < argc then some empty else none
  argvalue := none

namespace Argstate

def endofargs (s : Argstate) : Option (Int × Argstate) := some (-1, { s with curarg := none })

/-- "Shift arguments down one", with `curarg` behind the dash of the argument at `p`. -/
def shift (s : Argstate) (p : Nat) : Argstate :=
  { s with curarg := some (p + 1), argv := memmove s.argv 1 2 (s.argc - 1), argc := s.argc - 1 }

def flag (m : Nat → UInt8) (s : Argstate) (p : Nat) : Option (Int × Argstate) :=
  some ((m p).toNat, { s with curarg := some (p + 1) })

/-- `argnext`.  There is no value where a null pointer is followed. -/
def argnext (m : Nat → UInt8) (s : Argstate) : Option (Int × Argstate) :=
  let s := { s with argvalue := none }
  match s.curarg with
  | none => some (-1, s)
  | some p =>
    if m p = 0 then
      if s.argc = 1 then s.endofargs
      else
        (s.argv 1).bind fun q =>
          if m q ≠ DASH ∨ m (q + 1) = 0 then s.endofargs
          else
            let s := s.shift q
            if m (q + 1) = DASH ∧ m (q + 2) = 0 then s.endofargs else s.flag m (q + 1)
    else s.flag m p

def argnexts (m : Nat → UInt8) : Nat → Argstate → Option (List Int × Argstate)
  | 0, s => some ([], s)
  | n + 1, s => do
    let (r, s) ← s.argnext m
    let (rs, s) ← argnexts m n s
    some (r :: rs, s)

end Argstate

def isFlags (w : List UInt8) : Bool := w.head? == some DASH && 2 ≤ w.length && w != [DASH, DASH]

/-- An argument is a pointer and the string there. -/
abbrev Argument : Type := Nat × List UInt8

/-- The flags in front of the other arguments. -/
def flags (args : List Argument) : List UInt8 := (args.takeWhile fun x => isFlags x.2).flatMap fun x => x.2.tail

/-- The arguments behind the flags; a `--` that ends them is dropped. -/
def remaining (args : List Argument) : List Argument :=
  match args.dropWhile fun x => isFlags x.2 with
  | [] => []
  | x :: rest => if x.2 = [DASH, DASH] then rest else x :: rest

section Documentation

variable {x : Argument} {rest : List Argument}

private theorem flags_cons (h : isFlags x.2 = true) : flags (x :: rest) = x.2.tail ++ flags rest := by
  simp [flags, h]

private theorem flags_end (h : isFlags x.2 = false) : flags (x :: rest) = [] := by
  simp [flags, h]

private theorem remaining_cons (h : isFlags x.2 = true) : remaining (x :: rest) = remaining rest := by
  simp [remaining, h]

private theorem remaining_end (h : isFlags x.2 = false) :
    remaining (x :: rest) = if x.2 = [DASH, DASH] then rest else x :: rest := by
  simp [remaining, h]

end Documentation

/-- The pointers stand in the cells from `i` on, with a null pointer behind them. -/
def PointersAt (v : Nat → Option Nat) : Nat → List Argument → Prop
  | i, [] => v i = none
  | i, x :: args => v i = some x.1 ∧ PointersAt v (i + 1) args

/-- `argc` and `argv` are those of the arguments. -/
structure Argstate.Has (m : Nat → UInt8) (s : Argstate) (args : List Argument) : Prop where
  argc : s.argc = args.length
  argv : PointersAt s.argv 0 args
  strings : ∀ x ∈ args, StringAt m x.1 x.2

section Calls

variable {m : Nat → UInt8} {s t u : Argstate} {a x : Argument} {args rest : List Argument} {c : UInt8}
  {w : List UInt8} {p i j n k : Nat} {v : Nat → Option Nat} {l₁ l₂ : List Int}

theorem PointersAt.move (h : PointersAt v (j + k) args) (hn : k + args.length < n) :
    PointersAt (memmove v i j n) (i + k) args := by
  have hcell (b : Nat) (hb : b < n) : memmove v i j n (i + b) = v (j + b) := by
    rw [memmove, if_pos (by omega)]
    congr 1
    omega
  induction args generalizing k with
  | nil => exact (hcell k (by simpa using hn)).trans h
  | cons x args ih =>
    rw [List.length_cons] at hn
    exact ⟨(hcell k (by omega)).trans h.1, ih (k := k + 1) h.2 (by omega)⟩

theorem Argstate.Has.shift (h : s.Has m (a :: x :: rest)) (q : Nat) : (s.shift q).Has m (a :: rest) := by
  obtain ⟨hargc, ⟨hfirst, -, hrest⟩, hstrings⟩ := h
  rw [List.length_cons, List.length_cons] at hargc
  have hzero : (s.shift q).argv 0 = s.argv 0 := by
    change memmove s.argv 1 2 (s.argc - 1) 0 = _
    rw [memmove, if_neg (by omega)]
  refine ⟨?_, ⟨hzero.trans hfirst, ?_⟩, fun y hy => hstrings y ?_⟩
  · change s.argc - 1 = _
    rw [hargc, List.length_cons]
    omega
  · exact PointersAt.move (k := 0) hrest (by omega)
  · rcases List.mem_cons.mp hy with rfl | hy
    · exact List.mem_cons_self
    · exact List.mem_cons_of_mem _ (List.mem_cons_of_mem _ hy)

private theorem argnext_none (h : s.curarg = none) (hv : s.argvalue = none) : s.argnext m = some (-1, s) := by
  obtain ⟨argc, argv, curarg, argvalue⟩ := s
  cases h
  cases hv
  rfl

theorem argnext_cons (h : s.Has m args) (hcur : s.curarg = some p) (hp : StringAt m p (c :: w)) :
    ∃ t, s.argnext m = some ((c.toNat : Int), t) ∧ t.Has m args ∧ t.curarg = some (p + 1) := by
  have hne : m p ≠ 0 := hp.1 ▸ hp.2.1
  refine ⟨{ s with curarg := some (p + 1), argvalue := none }, ?_, ⟨h.argc, h.argv, h.strings⟩, rfl⟩
  rw [Argstate.argnext, hcur]
  dsimp only
  rw [if_neg hne, Argstate.flag, hp.1]

theorem argnext_last (h : s.Has m [a]) (hcur : s.curarg = some p) (hp : m p = 0) :
    ∃ t, s.argnext m = some (-1, t) ∧ t.Has m [a] ∧ t.curarg = none ∧ t.argvalue = none := by
  refine ⟨{ s with curarg := none, argvalue := none }, ?_, ⟨h.argc, h.argv, h.strings⟩, rfl, rfl⟩
  rw [Argstate.argnext, hcur]
  dsimp only
  have hargc : s.argc = 1 := h.argc
  rw [if_pos hp, if_pos hargc]
  rfl

private theorem argnext_argument (h : s.Has m (a :: x :: rest)) (hcur : s.curarg = some p) (hp : m p = 0) :
    s.argnext m =
      if m x.1 ≠ DASH ∨ m (x.1 + 1) = 0 then Argstate.endofargs { s with argvalue := none }
      else if m (x.1 + 1) = DASH ∧ m (x.1 + 2) = 0 then
        Argstate.endofargs (Argstate.shift { s with argvalue := none } x.1)
      else Argstate.flag m (Argstate.shift { s with argvalue := none } x.1) (x.1 + 1) := by
  have hargc : s.argc ≠ 1 := by
    rw [h.argc]
    simp
  have hsecond : s.argv 1 = some x.1 := h.argv.2.1
  rw [Argstate.argnext, hcur]
  dsimp only
  rw [if_pos hp, if_neg hargc, hsecond, Option.bind_some]

theorem isFlags_iff : isFlags w = true ↔ ∃ c u, w = DASH :: c :: u ∧ ¬ (c = DASH ∧ u = []) := by
  rcases w with _ | ⟨b, _ | ⟨c, u⟩⟩
  · simp [isFlags]
  · simp [isFlags]
  · simp only [isFlags, List.head?_cons, Option.some_beq_some, List.length_cons, Bool.and_eq_true, beq_iff_eq,
      decide_eq_true_eq, bne_iff_ne, ne_eq, List.cons.injEq, not_and]
    constructor
    · rintro ⟨⟨rfl, -⟩, hne⟩
      exact ⟨c, u, ⟨rfl, rfl, rfl⟩, fun hc => hne rfl hc⟩
    · rintro ⟨c', u', ⟨rfl, rfl, rfl⟩, hne⟩
      exact ⟨⟨rfl, by omega⟩, fun _ hc => hne hc⟩

/-- An argument that is neither flags nor `--` ends the scan and stays. -/
theorem argnext_other (h : s.Has m (a :: x :: rest)) (hcur : s.curarg = some p) (hp : m p = 0)
    (hx : isFlags x.2 = false) (hdashes : x.2 ≠ [DASH, DASH]) :
    ∃ t, s.argnext m = some (-1, t) ∧ t.Has m (a :: x :: rest) ∧ t.curarg = none ∧ t.argvalue = none := by
  have hstring := h.strings x (by simp)
  have hstop : m x.1 ≠ DASH ∨ m (x.1 + 1) = 0 := by
    rcases hw : x.2 with _ | ⟨b, _ | ⟨c, u⟩⟩
    · rw [hw] at hstring
      rw [hstring]
      exact .inl (by decide)
    · rw [hw] at hstring
      exact .inr hstring.2.2
    · rw [hw] at hstring hx hdashes
      apply Or.inl
      rw [hstring.1]
      rintro rfl
      have hflags : isFlags (DASH :: c :: u) = true :=
        isFlags_iff.mpr ⟨c, u, rfl, fun hc => hdashes (by rw [hc.1, hc.2])⟩
      rw [hx] at hflags
      cases hflags
  refine ⟨{ s with curarg := none, argvalue := none }, ?_, ⟨h.argc, h.argv, h.strings⟩, rfl, rfl⟩
  rw [argnext_argument h hcur hp, if_pos hstop]
  rfl

theorem argnext_dashes (h : s.Has m (a :: x :: rest)) (hcur : s.curarg = some p) (hp : m p = 0)
    (hx : x.2 = [DASH, DASH]) :
    ∃ t, s.argnext m = some (-1, t) ∧ t.Has m (a :: rest) ∧ t.curarg = none ∧ t.argvalue = none := by
  have hstring := h.strings x (by simp)
  rw [hx] at hstring
  obtain ⟨hfirst, -, hsecond, hne, hend⟩ := hstring
  have hno : ¬ (m x.1 ≠ DASH ∨ m (x.1 + 1) = 0) := by
    rw [hfirst, hsecond]
    simp [DASH]
  have hshift := h.shift x.1
  refine ⟨{ s.shift x.1 with curarg := none, argvalue := none }, ?_, ⟨hshift.argc, hshift.argv, hshift.strings⟩,
    rfl, rfl⟩
  rw [argnext_argument h hcur hp, if_neg hno, if_pos ⟨hsecond, hend⟩]
  rfl

theorem argnext_flag (h : s.Has m (a :: x :: rest)) (hcur : s.curarg = some p) (hp : m p = 0)
    (hx : x.2 = DASH :: c :: w) (hne : ¬ (c = DASH ∧ w = [])) :
    ∃ t, s.argnext m = some ((c.toNat : Int), t) ∧ t.Has m (a :: rest) ∧ t.curarg = some (x.1 + 2) ∧
      StringAt m (x.1 + 2) w := by
  have hstring := h.strings x (by simp)
  rw [hx] at hstring
  obtain ⟨hfirst, -, hsecond, hc, hw⟩ := hstring
  have hno : ¬ (m x.1 ≠ DASH ∨ m (x.1 + 1) = 0) := by
    rw [hfirst, hsecond]
    simp [hc]
  have hno' : ¬ (m (x.1 + 1) = DASH ∧ m (x.1 + 2) = 0) := by
    rw [hsecond]
    rintro ⟨hcd, hend⟩
    have hhead := hw.head
    rw [hend] at hhead
    cases w with
    | nil => exact hne ⟨hcd, rfl⟩
    | cons b w => exact hw.2.1 hhead.symm
  have hshift := h.shift x.1
  refine ⟨{ s.shift x.1 with curarg := some (x.1 + 2), argvalue := none }, ?_,
    ⟨hshift.argc, hshift.argv, hshift.strings⟩, rfl, hw⟩
  rw [argnext_argument h hcur hp, if_neg hno, if_neg hno', Argstate.flag, hsecond]
  rfl

end Calls

section Scan

variable {m : Nat → UInt8} {s t u : Argstate} {a : Argument} {args rest : List Argument} {w : List UInt8}
  {p i j : Nat} {l₁ l₂ : List Int}

def returned (w : List UInt8) : List Int := w.map fun c => (c.toNat : Int)

private theorem argnexts_append (h : s.argnexts m i = some (l₁, t)) (h' : t.argnexts m j = some (l₂, u)) :
    s.argnexts m (i + j) = some (l₁ ++ l₂, u) := by
  induction i generalizing s l₁ with
  | zero =>
    cases h
    rw [Nat.zero_add]
    exact h'
  | succ i ih =>
    obtain ⟨⟨r, v⟩, hone, h⟩ := Option.bind_eq_some_iff.mp h
    obtain ⟨⟨rs, v'⟩, hrest, h⟩ := Option.bind_eq_some_iff.mp h
    cases h
    rw [Nat.add_right_comm, Argstate.argnexts, hone]
    dsimp only [Option.bind_eq_bind, Option.bind_some]
    rw [ih hrest]
    rfl

private theorem argnexts_cons {r : Int} (h : s.argnext m = some (r, t)) (h' : t.argnexts m i = some (l₁, u)) :
    s.argnexts m (i + 1) = some (r :: l₁, u) := by
  rw [Argstate.argnexts, h]
  dsimp only [Option.bind_eq_bind, Option.bind_some]
  rw [h']
  rfl

private theorem argnexts_word (h : s.Has m args) (hcur : s.curarg = some p) (hp : StringAt m p w) :
    ∃ t q, s.argnexts m w.length = some (returned w, t) ∧ t.Has m args ∧ t.curarg = some q ∧ m q = 0 := by
  induction w generalizing s p with
  | nil => exact ⟨s, p, rfl, h, hcur, hp⟩
  | cons c w ih =>
    obtain ⟨s', hone, hs', hcur'⟩ := argnext_cons h hcur hp
    obtain ⟨t, q, hrun, ht, hq, hzero⟩ := ih hs' hcur' hp.2.2
    exact ⟨t, q, argnexts_cons hone hrun, ht, hq, hzero⟩

private theorem argnexts_rest (h : s.Has m (a :: rest)) (hcur : s.curarg = some p) (hp : m p = 0) :
    ∃ t u, s.argnexts m (flags rest).length = some (returned (flags rest), t) ∧ t.argnext m = some (-1, u) ∧
      u.Has m (a :: remaining rest) ∧ u.curarg = none ∧ u.argvalue = none := by
  induction rest generalizing s p with
  | nil =>
    obtain ⟨u, hrun, hu⟩ := argnext_last h hcur hp
    exact ⟨s, u, rfl, hrun, hu⟩
  | cons x rest ih =>
    by_cases hx : isFlags x.2 = true
    · obtain ⟨c, w, hw, hne⟩ := isFlags_iff.mp hx
      obtain ⟨s₁, hone, hs₁, hcur₁, hstring⟩ := argnext_flag h hcur hp hw hne
      obtain ⟨s₂, q, hword, hs₂, hcur₂, hzero⟩ := argnexts_word hs₁ hcur₁ hstring
      obtain ⟨t, u, hrun, hlast, hu⟩ := ih hs₂ hcur₂ hzero
      rw [flags_cons hx, remaining_cons hx, hw, List.tail_cons]
      refine ⟨t, u, ?_, hlast, hu⟩
      have hboth := argnexts_append (argnexts_cons hone hword) hrun
      rw [List.length_append, List.length_cons, hboth]
      simp [returned]
    · rw [Bool.not_eq_true] at hx
      rw [flags_end hx, remaining_end hx]
      by_cases hdashes : x.2 = [DASH, DASH]
      · rw [if_pos hdashes]
        obtain ⟨u, hrun, hu⟩ := argnext_dashes h hcur hp hdashes
        exact ⟨s, u, rfl, hrun, hu⟩
      · rw [if_neg hdashes]
        obtain ⟨u, hrun, hu⟩ := argnext_other h hcur hp hx hdashes
        exact ⟨s, u, rfl, hrun, hu⟩

private theorem argnexts_done (hcur : s.curarg = none) (hv : s.argvalue = none) (n : Nat) :
    s.argnexts m n = some (List.replicate n (-1), s) := by
  induction n with
  | zero => rfl
  | succ n ih => exact argnexts_cons (argnext_none hcur hv) ih

end Scan

/-- `argstart`, and `argnext` until it returns -1: the flags in order, and then the other arguments are left. -/
theorem argnext_flags (m : Nat → UInt8) (empty argc : Nat) (argv : Nat → Option Nat) (a : Argument)
    (rest : List Argument) (hempty : m empty = 0) (h : (argstart empty argc argv).Has m (a :: rest)) :
    ∃ t u, (argstart empty argc argv).argnexts m (flags rest).length = some (returned (flags rest), t) ∧
      t.argnext m = some (-1, u) ∧ u.Has m (a :: remaining rest) ∧
      ∀ n, u.argnexts m n = some (List.replicate n (-1), u) := by
  have hargc : argc = rest.length + 1 := h.argc
  cases rest with
  | nil =>
    have hcur : (argstart empty argc argv).curarg = none := if_neg (by simp [hargc])
    exact ⟨_, _, rfl, argnext_none hcur rfl, h, argnexts_done hcur rfl⟩
  | cons x rest =>
    have hcur : (argstart empty argc argv).curarg = some empty := if_pos (by simp [hargc])
    obtain ⟨t, u, hrun, hlast, hu, hnone, hv⟩ := argnexts_rest h hcur hempty
    exact ⟨t, u, hrun, hlast, hu, argnexts_done hnone hv⟩

/-- The arguments `sh -x a`, each at its own place of the memory. -/
theorem argnext_flags_sample : ∃ t u,
    (argstart 2 3 fun i => [0, 3, 6][i]?).argnexts (memoryOf [115, 104, 0, 45, 120, 0, 97]) 1 = some ([120], t) ∧
      t.argnext (memoryOf [115, 104, 0, 45, 120, 0, 97]) = some (-1, u) ∧
      u.Has (memoryOf [115, 104, 0, 45, 120, 0, 97]) [(0, [115, 104]), (6, [97])] ∧
      ∀ n, u.argnexts (memoryOf [115, 104, 0, 45, 120, 0, 97]) n = some (List.replicate n (-1), u) := by
  have hargs : (argstart 2 3 fun i => [0, 3, 6][i]?).Has (memoryOf [115, 104, 0, 45, 120, 0, 97])
      [(0, [115, 104]), (3, [45, 120]), (6, [97])] := by
    refine ⟨rfl, ⟨rfl, rfl, rfl, rfl⟩, ?_⟩
    simp [memoryOf]
  exact argnext_flags (memoryOf [115, 104, 0, 45, 120, 0, 97]) 2 3 (fun i => [0, 3, 6][i]?) (0, [115, 104])
    [(3, [45, 120]), (6, [97])] rfl hargs

end DamnOS.Programs
