import DamnOS.Server.OpenDiscipline

/-!
# File ids as results

`openfile_alloc` returns the new file id of a row as an `int`.  The id is an unsigned number that grows
by `MAXOPEN` with every allocation of the row, so it does not stay positive.
-/

namespace DamnOS.Server

open DamnOS.Framework
open DamnOS.FileSystem

/-- The `int` that `openfile_alloc` returns, unless it runs out of rows. -/
def State.newId (s : State) : Option Int :=
  match openfileAlloc s with
  | .ok i t => some (toS32 (t.opentab i).fileid)
  | .error _ _ => none

/-- Whenever there is a row without clients, `openfile_alloc` returns no negative number. -/
def State.AllocSucceeds (s : State) : Prop :=
  (∃ i < MAXOPEN, s.pageref i ≤ 1) → ∃ r, s.newId = some r ∧ 0 ≤ r

private theorem take_fileid (s : State) (i : Nat) :
    ((s.take i).opentab i).fileid = ((s.opentab i).fileid + MAXOPEN) % 4294967296 := by
  simp only [State.take, Function.update_self]

private theorem State.newId_some {s : State} {i : Nat} (h : s.freeRow = some i) :
    s.newId = some (toS32 ((s.take i).opentab i).fileid) := by
  unfold State.newId
  rw [openfileAlloc_row h]

private theorem State.allocSucceeds_iff {s : State} : s.AllocSucceeds ↔
    ∀ i, s.freeRow = some i → ((s.opentab i).fileid + MAXOPEN) % 4294967296 < 2147483648 := by
  constructor
  · intro h i hf
    obtain ⟨hi, hle⟩ := State.freeRow_some hf
    obtain ⟨r, hr, hpos⟩ := h ⟨i, hi, hle⟩
    rw [State.newId_some hf, take_fileid] at hr
    rw [← Option.some.inj hr] at hpos
    unfold toS32 at hpos
    split at hpos
    · omega
    · omega
  · rintro h ⟨i, hi, hle⟩
    cases hf : s.freeRow with
    | none => exact absurd hle (State.freeRow_none hf hi)
    | some j =>
      refine ⟨_, State.newId_some hf, ?_⟩
      have hlt := h j hf
      rw [take_fileid]
      unfold toS32
      split
      · omega
      · omega

section Numbered

variable {π : Type} [DecidableEq π]

/-- The file id of a row tells how often it was allocated. -/
def Numbered (s : System π) : Prop :=
  ∀ i < MAXOPEN, (s.server.opentab i).fileid = (i + MAXOPEN * s.allocs i) % 4294967296

/-- The file ids of `t` are those of `s`, but for one row at most, which was allocated. -/
def Renumbered (s t : State) : Prop :=
  ∀ j, (t.opentab j).fileid = (s.opentab j).fileid ∨
    (t.opentab j).fileid = ((s.opentab j).fileid + MAXOPEN) % 4294967296

private theorem renumbered_take (s : State) (i : Nat) : Renumbered s (s.take i) := by
  intro j
  by_cases hj : j = i
  · subst hj
    exact .inr (by simp [State.take])
  · exact .inl (by simp [State.take, hj])

theorem Renumbered.congr {s t u : State} (h : Renumbered s t)
    (hu : ∀ j, (u.opentab j).fileid = (t.opentab j).fileid) : Renumbered s u := by
  intro j
  rw [hu j]
  exact h j

private theorem give_fileid (t : State) (i f mode j : Nat) :
    ((t.give i f mode).opentab j).fileid = (t.opentab j).fileid := by
  by_cases hj : j = i
  · subst hj
    simp [State.give]
  · simp [State.give, hj]

private theorem renumbered_serveOpen (rt : Nat) (s : State) : Renumbered s (final (serveOpen rt) s) := by
  rcases serveOpen_opened rt s with ⟨hsame, -⟩ | ⟨i, t, -, ht, hopen⟩
  · exact fun j => .inl (hsame.fileid j)
  · have htake := (renumbered_take s i).congr (sameRows_take ht i).fileid
    cases hr : serveOpen rt s with
    | error e u =>
      rw [hr] at hopen
      rw [final_error hr]
      cases hopen with
      | refused hu => exact htake.congr hu.fileid
    | ok r u =>
      rw [hr] at hopen
      rw [final_ok hr]
      cases hopen with
      | failed _ hu => exact htake.congr hu.fileid
      | handed f mode hu => exact htake.congr fun j => (give_fileid _ i f mode j).trans (hu.fileid j)

omit [DecidableEq π] in
theorem Numbered.allocated {s : System π} (h : Numbered s) {t : State} (ht : Renumbered s.server t) :
    ∀ i < MAXOPEN, (t.opentab i).fileid = (i + MAXOPEN * s.allocated t i) % 4294967296 := by
  intro i hi
  have hid := h i hi
  unfold System.allocated
  split
  · next hsame => rw [hsame, hid]
  · next hne =>
    rw [(ht i).resolve_left hne, hid]
    simp only [MAXOPEN]
    omega

private theorem numbered_step (rt : Nat) (e : Event π) (s : System π) (h : Numbered s) :
    Numbered (System.step rt e s) := by
  cases e with
  | «open» x page =>
    have ht : Renumbered s.server (final (serveOpen rt) (s.server.receive page)) :=
      renumbered_serveOpen rt (s.server.receive page)
    intro i hi
    have hid := h.allocated ht i hi
    simp only [System.step]
    split
    · simpa only [System.hand, unref_opentab] using hid
    · exact hid
  | request r hr page =>
    have hk := (sameRows_handler rt hr).final (s.server.receive page)
    intro i hi
    exact (hk.fileid i).trans (h i hi)
  | map x y =>
    intro i hi
    simp only [System.step]
    split
    · exact h i hi
    · rw [unref_opentab]
      exact h i hi
  | unmap x =>
    intro i hi
    simp only [System.step, unref_opentab]
    exact h i hi

private theorem numbered_run (w : World) (rt : Nat) (events : List (Event π)) :
    Numbered ((clients π rt).run events (System.init w)) := by
  refine Machine.run_always (I := Numbered) (fun e s h => numbered_step rt e s h) events ?_
  intro i hi
  simp only [System.init, State.init, MAXOPEN] at *
  omega

/-- In every state that opens and closes lead to, `openfile_alloc` succeeds as long as the row that is
next was not allocated 2^21 - 1 times, counted modulo 2^22. -/
theorem file_ids_iff (w : World) (rt : Nat) (events : List (Event π)) :
    ((clients π rt).run events (System.init w)).server.AllocSucceeds ↔
      ∀ i, ((clients π rt).run events (System.init w)).server.freeRow = some i →
        (((clients π rt).run events (System.init w)).allocs i + 1) % 2 ^ 22 < 2 ^ 21 := by
  have hnum := numbered_run w rt events
  generalize (clients π rt).run events (System.init w) = s at hnum ⊢
  rw [State.allocSucceeds_iff]
  refine forall_congr' fun i => forall_congr' fun hf => ?_
  have hi := (State.freeRow_some hf).1
  rw [hnum i hi]
  simp only [MAXOPEN] at hi ⊢
  omega

end Numbered

/-- A client opens `"/"` and closes it, `n` times. -/
def openClose (n : Nat) : List (Event Place) :=
  (List.replicate n [Event.open (1, fdPage 0) rootPage, .unmap (1, fdPage 0)]).flatten

/-- The client has nothing open, and row 0 was allocated `n` times. -/
def Idle (n : Nat) (s : System Place) : Prop :=
  s.fds (1, fdPage 0) = none ∧ s.server.pageref 0 ≤ 1 ∧ (s.server.opentab 0).fileid = MAXOPEN * n

private theorem idle_cycle {n : Nat} {s : System Place} (h : Idle n s) (hn : n + 1 < 2 ^ 21)
    (rest : List (Event Place)) : ∃ t, Idle (n + 1) t ∧
      (clients Place 0).run (.open (1, fdPage 0) rootPage :: .unmap (1, fdPage 0) :: rest) s =
        (clients Place 0).run rest t := by
  obtain ⟨hnone, hpage, hid⟩ := h
  have hf : s.server.freeRow = some 0 := State.freeRow_zero hpage
  have hsmall : ((s.server.opentab 0).fileid + MAXOPEN) % 4294967296 < 2147483648 := by
    rw [hid]
    simp only [MAXOPEN]
    omega
  have hstep := step_open_root 0 hf hsmall ((1, fdPage 0) : Place)
  have hhalts : (clients Place 0).halts (.open (1, fdPage 0) rootPage) s = false := by
    change System.halts 0 (.open (1, fdPage 0) rootPage) s = false
    simp only [System.halts, serveOpen_root 0 hf hsmall]
  refine ⟨System.step 0 (.unmap (1, fdPage 0)) (System.step 0 (.open (1, fdPage 0) rootPage) s), ?_, ?_⟩
  · rw [hstep]
    refine ⟨?_, ?_, ?_⟩
    · simp [System.step]
    · simp [System.step, System.hand, hnone, State.unref, State.give, State.take, State.receive]
    · simp only [System.step, unref_opentab, System.hand, give_fileid, State.take, State.receive,
        Function.update_self, hid, MAXOPEN]
      omega
  · rw [Machine.run, hhalts]
    rfl

private theorem idle_openClose {n k : Nat} {s : System Place} (h : Idle k s) (hk : k + n < 2 ^ 21) :
    Idle (k + n) ((clients Place 0).run (openClose n) s) := by
  induction n generalizing k s with
  | zero => exact h
  | succ n ih =>
    obtain ⟨t, ht, hrun⟩ := idle_cycle h (by omega) (openClose n)
    have hlist : openClose (n + 1) =
        .open (1, fdPage 0) rootPage :: .unmap (1, fdPage 0) :: openClose n := rfl
    rw [hlist, hrun, show k + (n + 1) = k + 1 + n by omega]
    exact ih ht (by omega)

private theorem openClose_fails {n : Nat} (hn : n = 2097151) (w : World) :
    ¬((clients Place 0).run (openClose n) (System.init w)).server.AllocSucceeds := by
  have hidle : Idle 0 (System.init w : System Place) := ⟨rfl, Nat.zero_le _, rfl⟩
  have hrun := idle_openClose (n := n) hidle (by omega)
  generalize (clients Place 0).run (openClose n) (System.init w) = s at hrun ⊢
  obtain ⟨-, hpage, hid⟩ := hrun
  rw [State.allocSucceeds_iff]
  intro h
  have hlt := h 0 (State.freeRow_zero hpage)
  rw [hid] at hlt
  simp only [MAXOPEN] at hlt
  omega

theorem file_id_negative : ¬∀ (w : World) (rt : Nat) (events : List (Event Place)),
    ((clients Place rt).run events (System.init w)).server.AllocSucceeds :=
  fun h => openClose_fails (n := 2097151) rfl (mount (freshDisk 4 1)) (h _ 0 _)

end DamnOS.Server
