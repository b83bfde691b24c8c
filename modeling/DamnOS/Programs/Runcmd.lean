import DamnOS.Programs.Cd
import DamnOS.Programs.Gettoken

/-!
# Command lines

`runcmd` collects the words of a command in `argv` and redirects input and output on the way.  At a `|` it forks: the
child starts over with the rest of the line.  The words are left to a builtin or to `spawn`.
-/

namespace DamnOS.Programs.Shell

open DamnOS.Framework
open DamnOS.FileSystem

/-- What the calls of one process come to. -/
structure Answers where
  /-- Whether `open` finds the file of a redirection, and whether `dup` gets through then. -/
  opens : Nat → Bool
  dups : Nat → Bool
  pipe : Bool
  fork : Bool
  look : Nat → List UInt8 → List UInt8 → Look
  /-- Whether `save_curpath` can open its file. -/
  saves : Bool
  /-- Whether `cat` comes back from a file; it panics when it cannot read or write. -/
  shows : Nat → Bool
  /-- The names that `lsdir` reads where there is a directory at the path. -/
  lists : List UInt8 → List (List UInt8)

/-- An open file: one of the shell before the line, or one that the line has brought. -/
inductive File where
  | before (f : Nat)
  | opened (n : Nat)
  | reader
  | writer
  deriving DecidableEq

/-- A process in the loop of `runcmd`.  Of its descriptors 0 and 1 are kept. -/
structure Proc where
  argv : List (List UInt8)
  input : Option File
  output : Option File
  opened : Nat
  stores : List Store
  deriving DecidableEq

inductive Ending where
  | returned
  | exited
  | panicked
  deriving DecidableEq

/-- A process that is through with `runcmd`. -/
structure Result where
  curpath : List UInt8
  input : Option File
  output : Option File
  ending : Ending
  stores : List Store
  deriving DecidableEq

namespace Proc

/-- What `fd_alloc` gives: the lowest descriptor that is free, 2 for any from there on. -/
def lowest (p : Proc) : Nat := if p.input = none then 0 else if p.output = none then 1 else 2

def set (p : Proc) (fd : Nat) (f : Option File) : Proc :=
  if fd = 0 then { p with input := f } else if fd = 1 then { p with output := f } else p

/-- `if (fd != std) { dup(fd, std); close(fd); }`; what was at `std` is closed even if `dup` fails. -/
def move (p : Proc) (ok : Bool) (fd std : Nat) (f : File) : Proc :=
  if fd ≠ std then (p.set std (if ok then some f else none)).set fd none else p

/-- A file is opened and becomes descriptor `std`. -/
def redirect (p : Proc) (a : Answers) (std : Nat) : Proc :=
  { (p.set p.lowest (some (.opened p.opened))).move (a.dups p.opened) p.lowest std (.opened p.opened) with
    opened := p.opened + 1 }

/-- `pipe(p)`: the two descriptors, and the process with both. -/
def pipe (p : Proc) : Nat × Nat × Proc :=
  let q := p.set p.lowest (some .reader)
  let w := max q.lowest (p.lowest + 1)
  (p.lowest, w, q.set w (some .writer))

def parent (p : Proc) (a : Answers) : Proc :=
  let (p₀, p₁, q) := p.pipe
  (q.move (a.dups p.opened) p₁ 1 .writer).set p₀ none

/-- The right-hand side of a pipe, which goes to `again`. -/
def child (p : Proc) (a : Answers) : Proc :=
  let (p₀, p₁, q) := p.pipe
  { (q.move (a.dups p.opened) p₀ 0 .reader).set p₁ none with argv := [], opened := p.opened + 1, stores := [] }

def leave (p : Proc) (curpath : List UInt8) (ending : Ending) : Result :=
  ⟨curpath, p.input, p.output, ending, p.stores⟩

def store (p : Proc) (stores : List Store) : Proc := { p with stores := p.stores ++ stores }

end Proc

def CD : List UInt8 := [99, 100]
def PWD : List UInt8 := [112, 119, 100]
def RM : List UInt8 := [114, 109]
def MKDIR : List UInt8 := [109, 107, 100, 105, 114]
def ECHO : List UInt8 := [101, 99, 104, 111]
def PINGPONG : List UInt8 := [112, 105, 110, 103, 112, 111, 110, 103]
def CAT : List UInt8 := [99, 97, 116]
def LS : List UInt8 := [108, 115]

def builtins : List (List UInt8) := [CD, PWD, RM, MKDIR, ECHO, PINGPONG, CAT, LS]

/-- `rm` and `mkdir` want one argument.  `fullpath` starts with the slash of `curpath`, and is left as it is. -/
def oneStores (curpath : List UInt8) : List (List UInt8) → List Store
  | [arg] => updateFullpathStores curpath arg
  | _ => []

def catStores (a : Answers) (curpath : List UInt8) : Nat → List (List UInt8) → List Store
  | _, [] => []
  | i, arg :: args =>
    updateFullpathStores curpath arg ++ if a.shows i then catStores a curpath (i + 1) args else []

/-- `ls` spells a path that begins with a dot, and the names of a directory. -/
def lsStores (a : Answers) (curpath path : List UInt8) : List Store :=
  if path.head? = some 46 then
    updateFullpathStores curpath path ++
      (a.lists (updateFullpath curpath path)).flatMap (updateFullpathStores curpath)
  else (a.lists path).flatMap (updateFullpathStores curpath)

def runit (a : Answers) (curpath : List UInt8) (p : Proc) : Result :=
  match p.argv with
  | [] => p.leave curpath .returned
  | cmd :: args =>
    if cmd = CD then
      let r := runCd a.look curpath args
      -- only after a walk is the working directory saved
      (p.store r.stores).leave r.curpath (if args.length = 1 ∧ a.saves = false then .panicked else .returned)
    else if cmd = PWD then p.leave curpath .exited
    else if cmd = RM then (p.store (oneStores curpath args)).leave curpath .exited
    else if cmd = MKDIR then (p.store (oneStores curpath args)).leave curpath .exited
    else if cmd = ECHO then p.leave curpath .exited
    else if cmd = PINGPONG then p.leave curpath .exited
    else if cmd = CAT then (p.store (catStores a curpath 0 args)).leave curpath .exited
    else if cmd = LS then (p.store (lsStores a curpath (args.headD curpath))).leave curpath .exited
    else
      (p.store ((if cmd.head? ≠ some slash then [⟨.argv, 0⟩] else []) ++ [⟨.argv, p.argv.length⟩])).leave curpath
        .exited

/-- The loop of `runcmd`, in process `d` of the line: how this process ends, and those to the right of it. -/
def again (answers : Nat → Answers) (curpath : List UInt8) : List Token → Nat → Proc → Result × List Result
  | [], d, p => (runit (answers d) curpath p, [])
  | .word t :: rest, d, p =>
    if p.argv.length = MAXARGS then (p.leave curpath .exited, [])
    else again answers curpath rest d { p.store [⟨.argv, p.argv.length⟩] with argv := p.argv ++ [t] }
  | .symbol c :: rest, d, p =>
    -- `<` and `>`
    if c = 60 ∨ c = 62 then
      match rest with
      | .word t :: rest =>
        let p := p.store (updateFullpathStores curpath t)
        if (answers d).opens p.opened then
          again answers curpath rest d (p.redirect (answers d) (if c = 60 then 0 else 1))
        else (p.leave curpath .exited, [])
      | _ => (p.leave curpath .exited, [])
    -- `|`
    else if c = 124 then
      if (answers d).pipe = false ∨ (answers d).fork = false then (p.leave curpath .exited, [])
      else
        let right := again answers curpath rest (d + 1) (p.child (answers (d + 1)))
        (runit (answers d) curpath (p.parent (answers d)), right.1 :: right.2)
    else (p.leave curpath .panicked, [])

/-- `runcmd`: the process that calls it, whose descriptors 0 and 1 are open, and those it forks. -/
def runcmd (answers : Nat → Answers) (curpath : List UInt8) (input output : Nat) (line : List UInt8) :
    Result × List Result :=
  again answers curpath (tokens line) 0 ⟨[], some (.before input), some (.before output), 0, []⟩

/-- Where the loop stands: the process, its words, and the number of files it has opened. -/
structure Parse where
  process : Nat
  argv : List (List UInt8)
  opened : Nat
  deriving DecidableEq

/-- The tokens are accepted one after the other, up to where the loop stands then. -/
def pass (answers : Nat → Answers) : List Token → Parse → Option Parse
  | [], s => some s
  | .word t :: rest, s =>
    if s.argv.length = MAXARGS then none else pass answers rest { s with argv := s.argv ++ [t] }
  | .symbol c :: rest, s =>
    if c = 60 ∨ c = 62 then
      match rest with
      | .word _ :: rest =>
        if (answers s.process).opens s.opened then pass answers rest { s with opened := s.opened + 1 } else none
      | _ => none
    else if c = 124 then
      if (answers s.process).pipe = false ∨ (answers s.process).fork = false then none
      else pass answers rest ⟨s.process + 1, [], s.opened + 1⟩
    else none

/-- A command comes to its end where the line ends, or at a `|` that can be set up. -/
def Ends (answers : Nat → Answers) (s : Parse) (post : List Token) : Prop :=
  post = [] ∨ post.head? = some (.symbol 124) ∧ (answers s.process).pipe = true ∧ (answers s.process).fork = true

def runStores (a : Answers) (curpath : List UInt8) : List (List UInt8) → List Store
  | [] => []
  | cmd :: args =>
    if cmd = CD then (runCd a.look curpath args).stores
    else if cmd = RM ∨ cmd = MKDIR then oneStores curpath args
    else if cmd = CAT then catStores a curpath 0 args
    else if cmd = LS then lsStores a curpath (args.headD curpath)
    else if cmd ∈ builtins then []
    else (if cmd.head? ≠ some slash then [⟨.argv, 0⟩] else []) ++ [⟨.argv, args.length + 1⟩]

/-- Files are found, pipes are made, directories are empty. -/
def fine : Answers :=
  ⟨fun _ => true, fun _ => true, true, true, fun _ _ _ => .unlisted, true, fun _ => true, fun _ => []⟩

namespace Proc

@[simp] theorem set_argv (p : Proc) (fd : Nat) (f : Option File) : (p.set fd f).argv = p.argv := by
  unfold set
  split_ifs <;> rfl

@[simp] theorem set_stores (p : Proc) (fd : Nat) (f : Option File) : (p.set fd f).stores = p.stores := by
  unfold set
  split_ifs <;> rfl

@[simp] theorem move_argv (p : Proc) (ok : Bool) (fd std : Nat) (f : File) : (p.move ok fd std f).argv = p.argv := by
  unfold move
  split_ifs <;> simp

@[simp] theorem move_stores (p : Proc) (ok : Bool) (fd std : Nat) (f : File) :
    (p.move ok fd std f).stores = p.stores := by
  unfold move
  split_ifs <;> simp

@[simp] theorem redirect_argv (p : Proc) (a : Answers) (std : Nat) : (p.redirect a std).argv = p.argv := by
  simp [redirect]

@[simp] theorem redirect_stores (p : Proc) (a : Answers) (std : Nat) : (p.redirect a std).stores = p.stores := by
  simp [redirect]

@[simp] theorem redirect_opened (p : Proc) (a : Answers) (std : Nat) :
    (p.redirect a std).opened = p.opened + 1 := rfl

@[simp] theorem parent_argv (p : Proc) (a : Answers) : (p.parent a).argv = p.argv := by
  simp [parent, pipe]

@[simp] theorem parent_stores (p : Proc) (a : Answers) : (p.parent a).stores = p.stores := by
  simp [parent, pipe]

@[simp] theorem child_argv (p : Proc) (a : Answers) : (p.child a).argv = [] := rfl

@[simp] theorem child_stores (p : Proc) (a : Answers) : (p.child a).stores = [] := rfl

@[simp] theorem child_opened (p : Proc) (a : Answers) : (p.child a).opened = p.opened + 1 := rfl

end Proc

theorem runit_stores (a : Answers) (curpath : List UInt8) (p : Proc) :
    (runit a curpath p).stores = p.stores ++ runStores a curpath p.argv := by
  obtain ⟨argv, input, output, opened, stores⟩ := p
  cases argv with
  | nil => simp [runit, runStores, Proc.leave]
  | cons cmd args =>
    simp only [runit, runStores]
    by_cases h : cmd ∈ builtins
    · simp only [builtins, List.mem_cons, List.not_mem_nil, or_false] at h
      rcases h with rfl | rfl | rfl | rfl | rfl | rfl | rfl | rfl <;>
        simp [CD, PWD, RM, MKDIR, ECHO, PINGPONG, CAT, LS, builtins, Proc.leave, Proc.store]
    · have hother := h
      simp only [builtins, List.mem_cons, List.not_mem_nil, or_false, not_or] at hother
      obtain ⟨hcd, hpwd, hrm, hmkdir, hecho, hping, hcat, hls⟩ := hother
      simp [hcd, hpwd, hrm, hmkdir, hecho, hping, hcat, hls, h, Proc.leave, Proc.store]

section Line

variable {answers : Nat → Answers} {curpath : List UInt8} {P : Store → Prop}

/-- The redirections that the loop comes to. -/
def Redirects (answers : Nat → Answers) (curpath : List UInt8) (P : Store → Prop) (toks : List Token)
    (s : Parse) : Prop :=
  ∀ pre c t post s', toks = pre ++ .symbol c :: .word t :: post → (c = 60 ∨ c = 62) → pass answers pre s = some s' →
    ∀ x ∈ updateFullpathStores curpath t, P x

def Commands (answers : Nat → Answers) (curpath : List UInt8) (P : Store → Prop) (toks : List Token)
    (s : Parse) : Prop :=
  ∀ pre post s', toks = pre ++ post → pass answers pre s = some s' → Ends answers s' post →
    ∀ x ∈ runStores (answers s'.process) curpath s'.argv, P x

private theorem redirects_nil (s : Parse) : Redirects answers curpath P [] s := by
  intro pre c t post s' he
  simp at he

private theorem commands_nil (s : Parse) : Commands answers curpath P [] s ↔
    ∀ x ∈ runStores (answers s.process) curpath s.argv, P x := by
  constructor
  · intro h
    exact h [] [] s rfl rfl (Or.inl rfl)
  · intro h pre post s' he hp _
    obtain ⟨rfl, rfl⟩ := List.append_eq_nil_iff.mp he.symm
    cases hp
    exact h

private theorem redirects_word (t : List UInt8) (rest : List Token) (s : Parse) :
    Redirects answers curpath P (.word t :: rest) s ↔
      (s.argv.length ≠ MAXARGS → Redirects answers curpath P rest { s with argv := s.argv ++ [t] }) := by
  constructor
  · intro h hroom pre c t' post s' he hc hp
    refine h (.word t :: pre) c t' post s' (by rw [he, List.cons_append]) hc ?_
    rw [pass, if_neg hroom, hp]
  · intro h pre c t' post s' he hc hp
    cases pre with
    | nil => cases he
    | cons x pre =>
      cases he
      rw [pass] at hp
      split_ifs at hp with hroom
      exact h hroom pre c t' post s' rfl hc hp

private theorem commands_word (t : List UInt8) (rest : List Token) (s : Parse) :
    Commands answers curpath P (.word t :: rest) s ↔
      (s.argv.length ≠ MAXARGS → Commands answers curpath P rest { s with argv := s.argv ++ [t] }) := by
  constructor
  · intro h hroom pre post s' he hp hend
    refine h (.word t :: pre) post s' (by rw [he, List.cons_append]) ?_ hend
    rw [pass, if_neg hroom, hp]
  · intro h pre post s' he hp hend
    cases pre with
    | nil =>
      -- a word does not end a command
      obtain rfl : post = .word t :: rest := he.symm
      rcases hend with hend | ⟨hend, -⟩
      · cases hend
      · cases hend
    | cons x pre =>
      cases he
      rw [pass] at hp
      split_ifs at hp with hroom
      exact h hroom pre post s' rfl hp hend

theorem pass_rejected {c : UInt8} {rest : List Token} (hpipe : c ≠ 124)
    (hword : (c = 60 ∨ c = 62) → ∀ t back, rest ≠ .word t :: back) {pre post : List Token}
    (he : rest = pre ++ post) (s : Parse) : pass answers (.symbol c :: pre) s = none := by
  unfold pass
  by_cases hc : c = 60 ∨ c = 62
  · rw [if_pos hc]
    cases pre with
    | nil => rfl
    | cons x pre =>
      cases x with
      | symbol c => rfl
      | word t => exact absurd he (hword hc t (pre ++ post))
  · rw [if_neg hc, if_neg hpipe]

private theorem redirects_rejected {c : UInt8} {rest : List Token} (hpipe : c ≠ 124)
    (hword : (c = 60 ∨ c = 62) → ∀ t back, rest ≠ .word t :: back) (s : Parse) :
    Redirects answers curpath P (.symbol c :: rest) s := by
  intro pre c' t post s' he hc hp
  cases pre with
  | nil =>
    cases he
    exact absurd rfl (hword hc t post)
  | cons x pre =>
    cases he
    rw [pass_rejected hpipe hword rfl] at hp
    cases hp

private theorem commands_rejected {c : UInt8} {rest : List Token} (hpipe : c ≠ 124)
    (hword : (c = 60 ∨ c = 62) → ∀ t back, rest ≠ .word t :: back) (s : Parse) :
    Commands answers curpath P (.symbol c :: rest) s := by
  intro pre post s' he hp hend
  cases pre with
  | nil =>
    obtain rfl : post = .symbol c :: rest := he.symm
    rcases hend with hend | ⟨hend, -⟩
    · cases hend
    · cases hend
      exact absurd rfl hpipe
  | cons x pre =>
    cases he
    rw [pass_rejected hpipe hword rfl] at hp
    cases hp

theorem pass_redirect {c : UInt8} (hc : c = 60 ∨ c = 62) (t : List UInt8) (pre : List Token) (s : Parse) :
    pass answers (.symbol c :: .word t :: pre) s =
      if (answers s.process).opens s.opened then pass answers pre { s with opened := s.opened + 1 } else none := by
  rw [pass, if_pos hc]

theorem pass_pipe (pre : List Token) (s : Parse) : pass answers (.symbol 124 :: pre) s =
    if (answers s.process).pipe = false ∨ (answers s.process).fork = false then none
    else pass answers pre ⟨s.process + 1, [], s.opened + 1⟩ := by
  conv_lhs => unfold pass
  rw [if_neg (by decide), if_pos rfl]

private theorem redirects_redirect {c : UInt8} (hc : c = 60 ∨ c = 62) (t : List UInt8) (rest : List Token) (s : Parse) :
    Redirects answers curpath P (.symbol c :: .word t :: rest) s ↔
      (∀ x ∈ updateFullpathStores curpath t, P x) ∧ ((answers s.process).opens s.opened = true →
        Redirects answers curpath P rest { s with opened := s.opened + 1 }) := by
  constructor
  · intro h
    refine ⟨h [] c t rest s rfl hc rfl, fun ho pre c' t' post s' he hc' hp => ?_⟩
    refine h (.symbol c :: .word t :: pre) c' t' post s' (by rw [he]; rfl) hc' ?_
    rw [pass_redirect hc, if_pos ho, hp]
  · rintro ⟨hfirst, h⟩ pre c' t' post s' he hc' hp
    cases pre with
    | nil =>
      cases he
      exact hfirst
    | cons x pre =>
      cases pre with
      | nil => cases he
      | cons y pre =>
        cases he
        rw [pass_redirect hc] at hp
        split_ifs at hp with ho
        exact h ho pre c' t' post s' rfl hc' hp

private theorem commands_redirect {c : UInt8} (hc : c = 60 ∨ c = 62) (t : List UInt8) (rest : List Token) (s : Parse) :
    Commands answers curpath P (.symbol c :: .word t :: rest) s ↔ ((answers s.process).opens s.opened = true →
      Commands answers curpath P rest { s with opened := s.opened + 1 }) := by
  constructor
  · intro h ho pre post s' he hp hend
    refine h (.symbol c :: .word t :: pre) post s' (by rw [he]; rfl) ?_ hend
    rw [pass_redirect hc, if_pos ho, hp]
  · intro h pre post s' he hp hend
    cases pre with
    | nil =>
      obtain rfl : post = .symbol c :: .word t :: rest := he.symm
      rcases hend with hend | ⟨hend, -⟩
      · cases hend
      · cases hend
        exact absurd hc (by decide)
    | cons x pre =>
      cases pre with
      | nil =>
        -- a redirection is accepted as a whole
        cases he
        unfold pass at hp
        rw [if_pos hc] at hp
        cases hp
      | cons y pre =>
        cases he
        rw [pass_redirect hc] at hp
        split_ifs at hp with ho
        exact h ho pre post s' rfl hp hend

private theorem redirects_pipe (rest : List Token) (s : Parse) :
    Redirects answers curpath P (.symbol 124 :: rest) s ↔
      (¬((answers s.process).pipe = false ∨ (answers s.process).fork = false) →
        Redirects answers curpath P rest ⟨s.process + 1, [], s.opened + 1⟩) := by
  constructor
  · intro h hok pre c t post s' he hc hp
    refine h (.symbol 124 :: pre) c t post s' (by rw [he]; rfl) hc ?_
    rw [pass_pipe, if_neg hok, hp]
  · intro h pre c t post s' he hc hp
    cases pre with
    | nil =>
      cases he
      exact absurd hc (by decide)
    | cons x pre =>
      cases he
      rw [pass_pipe] at hp
      split_ifs at hp with hok
      exact h hok pre c t post s' rfl hc hp

private theorem commands_pipe (rest : List Token) (s : Parse) :
    Commands answers curpath P (.symbol 124 :: rest) s ↔
      (¬((answers s.process).pipe = false ∨ (answers s.process).fork = false) →
        (∀ x ∈ runStores (answers s.process) curpath s.argv, P x) ∧
          Commands answers curpath P rest ⟨s.process + 1, [], s.opened + 1⟩) := by
  constructor
  · intro h hok
    constructor
    · have hends : Ends answers s (.symbol 124 :: rest) := by
        simp only [not_or, Bool.not_eq_false] at hok
        exact Or.inr ⟨rfl, hok⟩
      exact h [] (.symbol 124 :: rest) s rfl rfl hends
    · intro pre post s' he hp hend
      refine h (.symbol 124 :: pre) post s' (by rw [he]; rfl) ?_ hend
      rw [pass_pipe, if_neg hok, hp]
  · intro h pre post s' he hp hend
    cases pre with
    | nil =>
      obtain rfl : post = .symbol 124 :: rest := he.symm
      cases hp
      rcases hend with hend | ⟨-, hpipe, hfork⟩
      · cases hend
      · refine (h ?_).1
        simp [hpipe, hfork]
    | cons x pre =>
      cases he
      rw [pass_pipe] at hp
      split_ifs at hp with hok
      exact (h hok).2 pre post s' rfl hp hend

theorem again_redirect {c : UInt8} (hc : c = 60 ∨ c = 62) (t : List UInt8) (rest : List Token) (d : Nat) (p : Proc) :
    again answers curpath (.symbol c :: .word t :: rest) d p =
      if (answers d).opens p.opened then again answers curpath rest d
        ((p.store (updateFullpathStores curpath t)).redirect (answers d) (if c = 60 then 0 else 1))
      else ((p.store (updateFullpathStores curpath t)).leave curpath .exited, []) := by
  rw [again, if_pos hc]
  rfl

theorem again_pipe (rest : List Token) (d : Nat) (p : Proc) : again answers curpath (.symbol 124 :: rest) d p =
    if (answers d).pipe = false ∨ (answers d).fork = false then (p.leave curpath .exited, [])
    else (runit (answers d) curpath (p.parent (answers d)),
      (again answers curpath rest (d + 1) (p.child (answers (d + 1)))).1 ::
        (again answers curpath rest (d + 1) (p.child (answers (d + 1)))).2) := by
  conv_lhs => unfold again
  rw [if_neg (by decide), if_pos rfl]

theorem again_rejected {c : UInt8} {rest : List Token} (hpipe : c ≠ 124)
    (hword : (c = 60 ∨ c = 62) → ∀ t back, rest ≠ .word t :: back) (d : Nat) (p : Proc) :
    ∃ e, e ≠ .returned ∧ again answers curpath (.symbol c :: rest) d p = (p.leave curpath e, []) := by
  unfold again
  by_cases hc : c = 60 ∨ c = 62
  · refine ⟨.exited, by decide, ?_⟩
    rw [if_pos hc]
    cases rest with
    | nil => rfl
    | cons x rest =>
      cases x with
      | symbol c => rfl
      | word t => exact absurd rfl (hword hc t rest)
  · exact ⟨.panicked, by decide, by rw [if_neg hc, if_neg hpipe]⟩

/-- The loop takes a line apart word by word, redirection by redirection and pipe by pipe, up to a symbol that it
rejects. -/
@[elab_as_elim]
theorem line_induction {motive : List Token → Prop} (toks : List Token) (nil : motive [])
    (word : ∀ t rest, motive rest → motive (.word t :: rest))
    (redirect : ∀ c t rest, c = 60 ∨ c = 62 → motive rest → motive (.symbol c :: .word t :: rest))
    (pipe : ∀ rest, motive rest → motive (.symbol 124 :: rest))
    (rejected : ∀ c rest, c ≠ 124 → ((c = 60 ∨ c = 62) → ∀ t back, rest ≠ .word t :: back) →
      motive (.symbol c :: rest)) : motive toks := by
  induction hn : toks.length using Nat.strong_induction_on generalizing toks with
  | _ n ih =>
  cases toks with
  | nil => exact nil
  | cons tok rest =>
    cases tok with
    | word t => exact word t rest (ih rest.length (by simp [← hn]) rest rfl)
    | symbol c =>
      by_cases hredirect : (c = 60 ∨ c = 62) ∧ ∃ t back, rest = .word t :: back
      · obtain ⟨hc, t, back, rfl⟩ := hredirect
        exact redirect c t back hc (ih back.length (by simp [← hn]) back rfl)
      by_cases hpipe : c = 124
      · subst hpipe
        exact pipe rest (ih rest.length (by simp [← hn]) rest rfl)
      · exact rejected c rest hpipe fun hc t back he => hredirect ⟨hc, t, back, he⟩

/-- What all processes of a line store: the redirections and the commands that the loop comes to. -/
theorem again_stores (hargv : ∀ i < MAXARGS, P ⟨.argv, i⟩) {toks : List Token} {d : Nat} {p : Proc}
    (hlen : p.argv.length ≤ MAXARGS) :
    (∀ r ∈ (again answers curpath toks d p).1 :: (again answers curpath toks d p).2, ∀ x ∈ r.stores, P x) ↔
      (∀ x ∈ p.stores, P x) ∧ Redirects answers curpath P toks ⟨d, p.argv, p.opened⟩ ∧
        Commands answers curpath P toks ⟨d, p.argv, p.opened⟩ := by
  have hone (q : Proc) (e : Ending) : (∀ r ∈ [q.leave curpath e], ∀ x ∈ r.stores, P x) ↔ ∀ x ∈ q.stores, P x := by
    rw [List.forall_mem_singleton]
    rfl
  induction toks using line_induction generalizing d p with
  | nil =>
    rw [again, commands_nil]
    simp only [List.forall_mem_singleton, runit_stores, forall_mem_append]
    exact and_congr_right fun _ => (and_iff_right (redirects_nil _)).symm
  | word t rest ih =>
    rw [again, redirects_word, commands_word]
    by_cases hfull : p.argv.length = MAXARGS
    · rw [if_pos hfull, hone]
      simp [hfull]
    · have hrest : _ ↔ _ := @ih d { p.store [⟨.argv, p.argv.length⟩] with argv := p.argv ++ [t] } (by simp; omega)
      rw [if_neg hfull, hrest]
      have hroom : P ⟨.argv, p.argv.length⟩ := hargv _ (lt_of_le_of_ne hlen hfull)
      simp [Proc.store, hfull, or_imp, forall_and, hroom]
  | redirect c t rest hc ih =>
    rw [again_redirect hc, redirects_redirect hc, commands_redirect hc]
    have hstored : (∀ x ∈ (p.store (updateFullpathStores curpath t)).stores, P x) ↔
        (∀ x ∈ p.stores, P x) ∧ ∀ x ∈ updateFullpathStores curpath t, P x := forall_mem_append
    by_cases ho : (answers d).opens p.opened = true
    · have hrest : _ ↔ _ := @ih d ((p.store (updateFullpathStores curpath t)).redirect (answers d) (if c = 60 then 0 else 1))
        (by simpa [Proc.store] using hlen)
      rw [if_pos ho, hrest]
      rw [Proc.redirect_stores, Proc.redirect_argv, Proc.redirect_opened, hstored]
      simp only [ho, true_implies, Proc.store]
      tauto
    · rw [if_neg ho, hone, hstored]
      simp [ho]
  | pipe rest ih =>
    rw [again_pipe, redirects_pipe, commands_pipe]
    by_cases hok : (answers d).pipe = false ∨ (answers d).fork = false
    · rw [if_pos hok, hone]
      simp [hok]
    · have hrest : _ ↔ _ := @ih (d + 1) (p.child (answers (d + 1))) (by simp)
      rw [if_neg hok, List.forall_mem_cons, hrest, runit_stores, forall_mem_append]
      simp only [Proc.parent_stores, Proc.parent_argv, Proc.child_stores, Proc.child_argv, Proc.child_opened,
        List.not_mem_nil, false_implies, implies_true, true_and, hok, not_false_eq_true, true_implies]
      tauto
  | rejected c rest hpipe hword =>
    obtain ⟨e, -, hleave⟩ := @again_rejected answers curpath c rest hpipe hword d p
    rw [hleave, hone]
    exact (and_iff_left ⟨redirects_rejected hpipe hword _, commands_rejected hpipe hword _⟩).symm

end Line

end DamnOS.Programs.Shell
