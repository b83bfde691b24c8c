import DamnOS.Programs.Runcmd

/-!
# The argument vector

The loop of `runcmd` tests for room before it adds a word, so that `argv` can be full when the words are handed over;
`spawn` wants a null pointer behind the last one.
-/

namespace DamnOS.Programs.Shell

open DamnOS.Framework
open DamnOS.FileSystem

/-- A store into `argv` hits one of its elements. -/
def InArgv (s : Store) : Prop := s.buffer = .argv → s.index < MAXARGS

private theorem inArgv_of_buffer {l : List Store} {b : Buffer} (hb : b ≠ .argv) (h : ∀ s ∈ l, s.buffer = b) :
    ∀ s ∈ l, InArgv s := by
  intro s hs he
  rw [h s hs] at he
  exact absurd he hb

private theorem updateFullpathStores_inArgv (curpath post : List UInt8) :
    ∀ s ∈ updateFullpathStores curpath post, InArgv s :=
  inArgv_of_buffer (by decide) (updateFullpathStores_buffer curpath post)

theorem runCd_inArgv (look : Nat → List UInt8 → List UInt8 → Look) (curpath : List UInt8)
    (args : List (List UInt8)) : ∀ s ∈ (runCd look curpath args).stores, InArgv s := by
  have hcur (n : Nat) : ∀ s ∈ storesAt .curpath 0 n, InArgv s := inArgv_of_buffer (by decide) storesAt_buffer
  cases args with
  | nil => exact hcur 2
  | cons arg args =>
    cases args with
    | cons arg' args =>
      intro s hs
      cases hs
    | nil =>
      unfold runCd
      dsimp only
      rw [cd_eq_walk _ _ _ (Nat.lt_succ_self _)]
      have hwalk := walk_buffer look 0 (if arg.head? = some slash then curpath.set 0 slash else curpath)
        (pieces (if arg.head? = some slash then arg.tail else arg))
      generalize walk look 0 _ _ = r at hwalk ⊢
      rw [forall_mem_append, forall_mem_append]
      refine ⟨⟨?_, fun s hs => ?_⟩, ?_⟩
      · split_ifs
        · -- an absolute argument is replaced by its tail
          intro s hs
          rcases List.mem_cons.mp hs with rfl | hs
          · intro he
            cases he
          · rw [List.mem_singleton.mp hs]
            exact fun _ => by decide
        · intro s hs
          cases hs
      · exact fun he => absurd he (hwalk s hs)
      · split_ifs
        · exact hcur _
        · intro s hs
          cases hs

private theorem catStores_inArgv (a : Answers) (curpath : List UInt8) (i : Nat) (args : List (List UInt8)) :
    ∀ s ∈ catStores a curpath i args, InArgv s := by
  induction args generalizing i with
  | nil =>
    intro s hs
    cases hs
  | cons arg args ih =>
    rw [catStores, forall_mem_append]
    refine ⟨updateFullpathStores_inArgv curpath arg, ?_⟩
    split_ifs
    · exact ih (i + 1)
    · intro s hs
      cases hs

private theorem lsStores_inArgv (a : Answers) (curpath path : List UInt8) :
    ∀ s ∈ lsStores a curpath path, InArgv s := by
  have hnames (names : List (List UInt8)) :
      ∀ s ∈ names.flatMap (updateFullpathStores curpath), InArgv s := by
    intro s hs
    obtain ⟨name, -, hs⟩ := List.mem_flatMap.mp hs
    exact updateFullpathStores_inArgv curpath name s hs
  unfold lsStores
  split_ifs
  · exact forall_mem_append.mpr ⟨updateFullpathStores_inArgv curpath path, hnames _⟩
  · exact hnames _

private theorem runStores_inArgv (a : Answers) (curpath cmd : List UInt8) (args : List (List UInt8)) :
    (∀ s ∈ runStores a curpath (cmd :: args), InArgv s) ↔ cmd ∈ builtins ∨ args.length + 1 < MAXARGS := by
  rw [runStores]
  by_cases h : cmd ∈ builtins
  · refine iff_of_true ?_ (Or.inl h)
    split_ifs
    · exact runCd_inArgv a.look curpath args
    · unfold oneStores
      split
      · exact updateFullpathStores_inArgv curpath _
      · intro s hs
        cases hs
    · exact catStores_inArgv a curpath 0 args
    · exact lsStores_inArgv a curpath _
    · intro s hs
      cases hs
  · have hother := h
    simp only [builtins, List.mem_cons, List.not_mem_nil, or_false, not_or] at hother
    obtain ⟨hcd, -, hrm, hmkdir, -, -, hcat, hls⟩ := hother
    rw [if_neg hcd, if_neg (not_or.mpr ⟨hrm, hmkdir⟩), if_neg hcat, if_neg hls, if_neg h, or_iff_right h,
      forall_mem_append]
    have hlast : (∀ s ∈ [(⟨.argv, args.length + 1⟩ : Store)], InArgv s) ↔ args.length + 1 < MAXARGS := by
      rw [List.forall_mem_singleton]
      exact ⟨fun hs => hs rfl, fun hs _ => hs⟩
    rw [hlast]
    refine and_iff_right fun s hs => ?_
    split_ifs at hs
    · rw [List.mem_singleton.mp hs]
      exact fun _ => by decide
    · cases hs

private theorem pass_length {answers : Nat → Answers} {toks : List Token} {s s' : Parse}
    (h : pass answers toks s = some s') (hs : s.argv.length ≤ MAXARGS) : s'.argv.length ≤ MAXARGS := by
  induction toks using line_induction generalizing s with
  | nil =>
    cases h
    exact hs
  | word t rest ih =>
    rw [pass] at h
    split_ifs at h with hfull
    refine ih h ?_
    rw [List.length_append, List.length_singleton]
    omega
  | redirect c t rest hc ih =>
    rw [pass_redirect hc] at h
    split_ifs at h
    exact ih h hs
  | pipe rest ih =>
    rw [pass_pipe] at h
    split_ifs at h
    exact ih h (Nat.zero_le _)
  | rejected c rest hpipe hword =>
    rw [@pass_rejected answers c rest hpipe hword rest [] (List.append_nil _).symm] at h
    cases h

/-- Every store into `argv` hits one of its elements if and only if no command with `MAXARGS` words is left to
`spawn`. -/
theorem argv_inside_iff (answers : Nat → Answers) (curpath : List UInt8) (input output : Nat) (line : List UInt8) :
    (∀ r ∈ (runcmd answers curpath input output line).1 :: (runcmd answers curpath input output line).2,
      ∀ s ∈ r.stores, s.buffer = .argv → s.index < MAXARGS) ↔
    ∀ pre post s cmd args, tokens line = pre ++ post → pass answers pre ⟨0, [], 0⟩ = some s →
      Ends answers s post → s.argv = cmd :: args → s.argv.length = MAXARGS → cmd ∈ builtins := by
  have hall := @again_stores answers curpath InArgv (fun i hi _ => hi) (tokens line) 0
    ⟨[], some (.before input), some (.before output), 0, []⟩ (Nat.zero_le _)
  refine hall.trans ?_
  have hredirects : Redirects answers curpath InArgv (tokens line) ⟨0, [], 0⟩ :=
    fun pre c t post s' _ _ _ => updateFullpathStores_inArgv curpath t
  rw [and_iff_right (by simp), and_iff_right hredirects]
  constructor
  · intro h pre post s cmd args he hp hend hargv hlen
    have hrun := h pre post s he hp hend
    rw [hargv, runStores_inArgv] at hrun
    rw [hargv, List.length_cons] at hlen
    exact hrun.resolve_right (by omega)
  · intro h pre post s he hp hend
    have hle := pass_length hp (Nat.zero_le _)
    cases hargv : s.argv with
    | nil =>
      intro x hx
      cases hx
    | cons cmd args =>
      rw [runStores_inArgv]
      rw [hargv, List.length_cons] at hle
      rcases Nat.eq_or_lt_of_le hle with hfull | hroom
      · left
        exact h pre post s cmd args he hp hend hargv (by rw [hargv, List.length_cons, hfull])
      · exact Or.inr hroom

/-- Sixteen words `a`. -/
theorem argv_overrun : ∃ s ∈ (runcmd (fun _ => fine) [slash] 0 1
    [97, 32, 97, 32, 97, 32, 97, 32, 97, 32, 97, 32, 97, 32, 97, 32, 97, 32, 97, 32, 97, 32, 97, 32, 97, 32, 97, 32,
      97, 32, 97]).1.stores, s.buffer = .argv ∧ ¬s.index < MAXARGS := by
  decide

end DamnOS.Programs.Shell
