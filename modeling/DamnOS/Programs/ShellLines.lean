import DamnOS.Programs.ArgumentVector
import DamnOS.Programs.PathBuffers

/-!
# Lines that the shell runs itself

`umain` does not fork for a line that begins with `cd`, and `runcmd` does with it what it does in a child: it moves
descriptors 0 and 1, and it ends the process behind every command but `cd`.
-/

namespace DamnOS.Programs.Shell

open DamnOS.Framework
open DamnOS.FileSystem

/-- The process returns from `runcmd`, with all its stores inside their arrays, and descriptors 0 and 1 are as they
were. -/
structure Harmless (input output : Nat) (r : Result) : Prop where
  stores : ∀ s ∈ r.stores, s.Inside
  returned : r.ending = .returned
  input : r.input = some (.before input)
  output : r.output = some (.before output)

namespace Proc

private theorem set_input (p : Proc) (fd : Nat) (f : Option File) :
    (p.set fd f).input = if fd = 0 then f else p.input := by
  unfold set
  split_ifs <;> rfl

private theorem set_output (p : Proc) (fd : Nat) (f : Option File) :
    (p.set fd f).output = if fd = 1 then f else p.output := by
  unfold set
  by_cases h0 : fd = 0
  · subst h0
    rfl
  · rw [if_neg h0]
    split_ifs <;> rfl

private theorem move_input (p : Proc) (ok : Bool) (fd : Nat) (f : File) (h : fd = 0 → p.input = some f) :
    (p.move ok fd 0 f).input = some f ∨ (p.move ok fd 0 f).input = none := by
  unfold move
  by_cases hfd : fd = 0
  · rw [if_neg (not_not.mpr hfd)]
    exact Or.inl (h hfd)
  · rw [if_pos hfd, set_input, if_neg hfd, set_input, if_pos rfl]
    cases ok
    · exact Or.inr rfl
    · exact Or.inl rfl

private theorem move_output (p : Proc) (ok : Bool) (fd : Nat) (f : File) (h : fd = 1 → p.output = some f) :
    (p.move ok fd 1 f).output = some f ∨ (p.move ok fd 1 f).output = none := by
  unfold move
  by_cases hfd : fd = 1
  · rw [if_neg (not_not.mpr hfd)]
    exact Or.inl (h hfd)
  · rw [if_pos hfd, set_output, if_neg hfd, set_output, if_pos rfl]
    cases ok
    · exact Or.inr rfl
    · exact Or.inl rfl

private theorem redirect_input (p : Proc) (a : Answers) (f : Nat) : (p.redirect a 0).input ≠ some (.before f) := by
  have hset : p.lowest = 0 → (p.set p.lowest (some (.opened p.opened))).input = some (.opened p.opened) := by
    intro h
    rw [set_input, if_pos h]
  intro he
  rcases move_input _ (a.dups p.opened) p.lowest (.opened p.opened) hset with h | h
  · cases h.symm.trans he
  · cases h.symm.trans he

private theorem redirect_output (p : Proc) (a : Answers) (f : Nat) : (p.redirect a 1).output ≠ some (.before f) := by
  have hset : p.lowest = 1 → (p.set p.lowest (some (.opened p.opened))).output = some (.opened p.opened) := by
    intro h
    rw [set_output, if_pos h]
  intro he
  rcases move_output _ (a.dups p.opened) p.lowest (.opened p.opened) hset with h | h
  · cases h.symm.trans he
  · cases h.symm.trans he

private theorem parent_output (p : Proc) (a : Answers) (f : Nat) : (p.parent a).output ≠ some (.before f) := by
  obtain ⟨q, hq⟩ : ∃ q, q = p.set p.lowest (some .reader) := ⟨_, rfl⟩
  obtain ⟨w, hw⟩ : ∃ w, w = max q.lowest (p.lowest + 1) := ⟨_, rfl⟩
  have hparent : (p.parent a).output = if p.lowest = 1 then none else
      ((q.set w (some .writer)).move (a.dups p.opened) w 1 .writer).output := by
    rw [hw, hq, ← set_output]
    rfl
  have hset : w = 1 → (q.set w (some .writer)).output = some .writer := by
    intro h
    rw [set_output, if_pos h]
  rw [hparent]
  intro he
  split_ifs at he
  rcases move_output _ (a.dups p.opened) w .writer hset with h | h
  · cases h.symm.trans he
  · cases h.symm.trans he

end Proc

private theorem runit_descriptors (a : Answers) (curpath : List UInt8) (p : Proc) :
    (runit a curpath p).input = p.input ∧ (runit a curpath p).output = p.output := by
  unfold runit
  cases p.argv with
  | nil => exact ⟨rfl, rfl⟩
  | cons cmd args =>
    dsimp only
    split_ifs <;> exact ⟨rfl, rfl⟩

section Lines

variable {answers : Nat → Answers} {curpath : List UInt8} {input output : Nat}

/-- A line that comes back has not moved anything, has words only, and `argv` has room for them. -/
theorem harmless_words {toks : List Token} {d : Nat} {p : Proc} (hlen : p.argv.length ≤ MAXARGS)
    (h : Harmless input output (again answers curpath toks d p).1) :
    (p.input = some (.before input) ∧ p.output = some (.before output)) ∧
      ∃ ws : List (List UInt8), toks = ws.map Token.word ∧ p.argv.length + ws.length ≤ MAXARGS := by
  induction toks using line_induction generalizing d p with
  | nil =>
    rw [again] at h
    obtain ⟨hin, hout⟩ := runit_descriptors (answers d) curpath p
    exact ⟨⟨hin.symm.trans h.input, hout.symm.trans h.output⟩, [], rfl, hlen⟩
  | word t rest ih =>
    rw [again] at h
    split_ifs at h with hfull
    · cases h.returned
    · have hroom : p.argv.length + 1 ≤ MAXARGS := by omega
      obtain ⟨hkept, ws, hws, hle⟩ := ih (by simpa using hroom) h
      refine ⟨hkept, t :: ws, by rw [hws, List.map_cons], ?_⟩
      simp only [List.length_append, List.length_cons] at hle ⊢
      omega
  | redirect c t rest hc ih =>
    rw [again_redirect hc] at h
    by_cases ho : (answers d).opens p.opened = true
    · rw [if_pos ho] at h
      -- what was moved does not come back
      obtain ⟨⟨hin, hout⟩, -⟩ := ih (by simpa [Proc.store] using hlen) h
      rcases hc with rfl | rfl
      · exact absurd hin (Proc.redirect_input _ _ _)
      · exact absurd hout (Proc.redirect_output _ _ _)
    · rw [if_neg ho] at h
      cases h.returned
  | pipe rest ih =>
    rw [again_pipe] at h
    split_ifs at h
    · cases h.returned
    · have hout := h.output
      dsimp only at hout
      rw [(runit_descriptors (answers d) curpath (p.parent (answers d))).2] at hout
      exact absurd hout (Proc.parent_output _ _ _)
  | rejected c rest hpipe hword =>
    obtain ⟨e, hne, hleave⟩ := @again_rejected answers curpath c rest hpipe hword d p
    rw [hleave] at h
    exact absurd h.returned hne

private theorem again_words (ws : List (List UInt8)) (d : Nat) {p : Proc} (hlen : p.argv.length + ws.length ≤ MAXARGS)
    (hp : ∀ s ∈ p.stores, s.Inside) : ∃ q : Proc, q.argv = p.argv ++ ws ∧ q.input = p.input ∧
      q.output = p.output ∧ (∀ s ∈ q.stores, s.Inside) ∧
      again answers curpath (ws.map Token.word) d p = (runit (answers d) curpath q, []) := by
  induction ws generalizing p with
  | nil => exact ⟨p, (List.append_nil _).symm, rfl, rfl, hp, rfl⟩
  | cons t ws ih =>
    rw [List.length_cons] at hlen
    have hstored : ∀ s ∈ (p.store [⟨.argv, p.argv.length⟩]).stores, s.Inside := by
      refine forall_mem_append.mpr ⟨hp, fun s hs => ?_⟩
      rw [List.mem_singleton.mp hs]
      have hsize : Buffer.size .argv = MAXARGS := rfl
      simp only [Store.Inside]
      omega
    obtain ⟨q, hargv, hin, hout, hstores, hrun⟩ :=
      @ih { p.store [⟨.argv, p.argv.length⟩] with argv := p.argv ++ [t] } (by simp; omega) hstored
    refine ⟨q, ?_, hin, hout, hstores, ?_⟩
    · rw [hargv, ← List.append_cons]
    · rw [List.map_cons, again, if_neg (by omega), hrun]

private theorem inside_iff {s : Store} : s.Inside ↔ InArgv s ∧ InPaths s := by
  have hsize (hb : s.buffer = .argv) : s.Inside ↔ s.index < MAXARGS := by
    rw [Store.Inside, hb]
    rfl
  constructor
  · intro h
    exact ⟨fun hb => (hsize hb).mp h, fun _ => h⟩
  · rintro ⟨hargv, hpaths⟩
    by_cases hb : s.buffer = .argv
    · exact (hsize hb).mpr (hargv hb)
    · exact hpaths hb

private theorem runit_cd (hc : Cwd curpath) (a : Answers) {p : Proc} {w : List UInt8} {args : List (List UInt8)}
    (hargv : p.argv = (99 :: 100 :: w) :: args) (hin : p.input = some (.before input))
    (hout : p.output = some (.before output)) (hp : ∀ s ∈ p.stores, s.Inside) :
    Harmless input output (runit a curpath p) ↔ w = [] ∧
      ∀ arg, args = [arg] → a.saves = true ∧ WalkFits a.look 0 curpath (argPieces arg) := by
  by_cases hw : w = []
  · subst hw
    have hrun : runit a curpath p = (p.store (runCd a.look curpath args).stores).leave
        (runCd a.look curpath args).curpath (if args.length = 1 ∧ a.saves = false then .panicked else .returned) := by
      unfold runit
      rw [hargv]
      exact if_pos rfl
    have hinside : (∀ s ∈ (runCd a.look curpath args).stores, s.Inside) ↔
        ∀ arg, args = [arg] → WalkFits a.look 0 curpath (argPieces arg) := by
      rw [← runCd_inPaths hc]
      constructor
      · exact fun h s hs => (inside_iff.mp (h s hs)).2
      · exact fun h s hs => inside_iff.mpr ⟨runCd_inArgv a.look curpath args s hs, h s hs⟩
    rw [hrun, and_iff_right rfl]
    constructor
    · intro h arg he
      have hfits := hinside.mp (forall_mem_append.mp h.stores).2
      refine ⟨?_, hfits arg he⟩
      have hret := h.returned
      by_contra hsave
      rw [Bool.not_eq_true] at hsave
      simp only [Proc.leave, if_pos (show args.length = 1 ∧ a.saves = false from ⟨by rw [he]; rfl, hsave⟩)] at hret
      cases hret
    · intro h
      refine ⟨forall_mem_append.mpr ⟨hp, hinside.mpr fun arg he => (h arg he).2⟩, if_neg ?_, hin, hout⟩
      rintro ⟨hone, hsave⟩
      obtain ⟨arg, harg⟩ := List.length_eq_one_iff.mp hone
      rw [(h arg harg).1] at hsave
      cases hsave
  · refine iff_of_false (fun h => ?_) fun h => hw h.1
    -- every other command ends in `exit`
    have hret := h.returned
    unfold runit at hret
    rw [hargv] at hret
    simp [CD, PWD, RM, MKDIR, ECHO, PINGPONG, CAT, LS, hw, Proc.leave] at hret

private theorem line_harmless_iff (hc : Cwd curpath) (rest : List UInt8) :
    Harmless input output (runcmd answers curpath input output (99 :: 100 :: rest)).1 ↔
      ∃ args, tokens (99 :: 100 :: rest) = (CD :: args).map Token.word ∧ args.length < MAXARGS ∧
        ∀ arg, args = [arg] → (answers 0).saves = true ∧ WalkFits (answers 0).look 0 curpath (argPieces arg) := by
  obtain ⟨w, toks, htoks⟩ : ∃ w toks, tokens (99 :: 100 :: rest) = .word (99 :: 100 :: w) :: toks :=
    ⟨_, _, tokens_word (by decide)⟩
  unfold runcmd
  constructor
  · intro h
    obtain ⟨-, ws, hws, hlen⟩ := harmless_words (Nat.zero_le _) h
    obtain ⟨q, hargv, hin, hout, hstores, hrun⟩ := @again_words answers curpath ws 0
      ⟨[], some (.before input), some (.before output), 0, []⟩ hlen (fun s hs => by cases hs)
    rw [hws, hrun] at h
    rw [htoks] at hws
    cases ws with
    | nil => cases hws
    | cons cmd args =>
      rw [List.map_cons, List.cons_eq_cons, Token.word.injEq] at hws
      obtain ⟨rfl, rfl⟩ := hws
      obtain ⟨rfl, hone⟩ := (runit_cd hc (answers 0) hargv hin hout hstores).mp h
      refine ⟨args, htoks, ?_, hone⟩
      simp only [List.length_nil, List.length_cons] at hlen
      omega
  · rintro ⟨args, hws, hlen, hone⟩
    obtain ⟨q, hargv, hin, hout, hstores, hrun⟩ := @again_words answers curpath (CD :: args) 0
      ⟨[], some (.before input), some (.before output), 0, []⟩ (by simp; omega) (fun s hs => by cases hs)
    rw [hws, hrun]
    exact (runit_cd hc (answers 0) hargv hin hout hstores).mpr ⟨rfl, hone⟩

end Lines

/-- What the shell runs itself is harmless. -/
def HarmlessLine (curpath : List UInt8) (l : InputLine) : Prop :=
  l.text.take 2 = CD → Harmless l.input l.output (runcmd l.answers curpath l.input l.output l.text).1

/-- It is the command `cd`, with words only and fewer than `MAXARGS` of them behind it; with a single argument there
is room for every name that is come to, and the working directory can be saved. -/
def PlainCd (curpath : List UInt8) (l : InputLine) : Prop :=
  l.text.take 2 = CD → ∃ args, tokens l.text = (CD :: args).map Token.word ∧ args.length < MAXARGS ∧
    ∀ arg, args = [arg] → (l.answers 0).saves = true ∧ WalkFits (l.answers 0).look 0 curpath (argPieces arg)

private theorem harmlessLine_iff {curpath : List UInt8} (hc : Cwd curpath) (l : InputLine) :
    HarmlessLine curpath l ↔ PlainCd curpath l := by
  refine forall_congr' fun hcd => ?_
  obtain ⟨rest, hrest⟩ : ∃ rest, l.text = 99 :: 100 :: rest :=
    ⟨l.text.drop 2, by rw [← List.take_append_drop 2 l.text, hcd]; rfl⟩
  rw [hrest]
  exact line_harmless_iff hc rest

theorem HarmlessLine.after {curpath : List UInt8} (hc : Cwd curpath) {l : InputLine} (h : HarmlessLine curpath l) :
    Cwd (l.after curpath) := by
  unfold InputLine.after
  split_ifs with hcd
  · rcases again_endsAt (tokens l.text) 0 _ _ List.mem_cons_self with hkeep | ⟨a, args, hmove, hsub⟩
    · unfold runcmd
      rw [hkeep]
      exact hc
    · unfold runcmd
      rw [hmove]
      refine runCd_cwd hc a.look ((runCd_inPaths hc a.look args).mp fun s hs => ?_)
      exact (inside_iff.mp ((h hcd).stores s (hsub s hs))).2
  · exact hc

/-- In every run of the shell, the lines that it runs itself are harmless if and only if they are plain `cd`
commands. -/
theorem shell_lines_iff (lines : List InputLine) :
    Along HarmlessLine lines [slash] ↔ Along PlainCd lines [slash] := by
  have hrun {curpath : List UInt8} (hc : Cwd curpath) :
      Along HarmlessLine lines curpath ↔ Along PlainCd lines curpath := by
    induction lines generalizing curpath with
    | nil => exact Iff.rfl
    | cons l lines ih =>
      constructor
      · rintro ⟨h, hrest⟩
        exact ⟨(harmlessLine_iff hc l).mp h, (ih (h.after hc)).mp hrest⟩
      · rintro ⟨h, hrest⟩
        have hh := (harmlessLine_iff hc l).mpr h
        exact ⟨hh, (ih (hh.after hc)).mpr hrest⟩
  exact hrun cwd_root

/-- The line `cd>a` leaves another file at descriptor 1, and `cdx` ends the shell. -/
theorem shell_lines_harmful :
    (runcmd (fun _ => fine) [slash] 0 1 [99, 100, 62, 97]).1.output ≠ some (.before 1) ∧
      (runcmd (fun _ => fine) [slash] 0 1 [99, 100, 120]).1.ending = .exited := by
  decide

end DamnOS.Programs.Shell
