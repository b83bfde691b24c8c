import DamnOS.Kernel.Messages

/-!
# Pages in messages

`env_ipc_perm` tells a receiver whether a page came with the message.  `sys_ipc_try_send` writes it
when it maps a page, and when it cannot map one; a message without a page leaves the old value.
-/

namespace DamnOS.Kernel

open DamnOS.Framework

/-- The sender offers a page and the receiver wants one: a send that succeeds has mapped it. -/
def System.Carries (s : System) (r : Fin NENV) (srcva : BitVec 32) : Prop :=
  srcva.toNat < UTOP ∧ (s.envs r).ipcDstva < UTOP

instance (s : System) (r : Fin NENV) (srcva : BitVec 32) : Decidable (s.Carries r srcva) :=
  inferInstanceAs (Decidable (_ ∧ _))

/-- The event is a send by the current environment to `r` that succeeds. -/
def Event.Delivers (i : Event) (s : System) (r : Fin NENV) (srcva perm : BitVec 32) : Prop :=
  ∃ c envid value t, i = .call (.ipcTrySend envid value srcva perm) ∧ s.curenv = some c ∧ s.Active c ∧
    s.envid2env c envid false = some r ∧ s.sysIpcTrySend c envid value srcva perm = .returns 0 t

/-- The test of `serve` for a request without an argument page. -/
def noArgumentPage (perm : Nat) : Prop := perm &&& PTE_P = 0

/-- What a successful send leaves in `env_ipc_perm` tells whether it mapped a page, and so does the
test of the file server. -/
def Event.Truthful (i : Event) (s : System) : Prop :=
  ∀ r srcva perm, i.Delivers s r srcva perm →
    ((kernelMachine.step i s).envs r).ipcPerm = (if s.Carries r srcva then perm.toNat else 0) ∧
      (noArgumentPage ((kernelMachine.step i s).envs r).ipcPerm ↔ ¬ s.Carries r srcva)

/-- A send without a page finds no permissions of an earlier message. -/
def Event.Fresh (i : Event) (s : System) : Prop :=
  ∀ r srcva perm, i.Delivers s r srcva perm → s.Carries r srcva ∨ (s.envs r).ipcPerm = 0

section Send

variable {s t : System} {c r : Fin NENV} {envid value srcva perm : BitVec 32}

private theorem deliver_ipcPerm (s : System) (c r : Fin NENV) (value : BitVec 32) :
    ((s.deliver c r value).envs r).ipcPerm = (s.envs r).ipcPerm := by
  simp [System.deliver, System.setEnv]

private theorem sendPage_ipcPerm (h : s.sendPage c r value srcva perm = .returns 0 t) :
    permValid perm.toNat = true ∧
      (t.envs r).ipcPerm = if (s.envs r).ipcDstva < UTOP then perm.toNat else (s.envs r).ipcPerm := by
  have hinval : -E_INVAL ≠ 0 := by decide
  unfold System.sendPage at h
  split at h
  · exact absurd (Outcome.returns.inj h).1 hinval
  split at h
  · exact absurd (Outcome.returns.inj h).1 hinval
  next hperm =>
  have hvalid : permValid perm.toNat = true := by simpa using hperm
  refine ⟨hvalid, ?_⟩
  split at h
  · exact absurd (Outcome.returns.inj h).1 hinval
  split at h
  · exact absurd (Outcome.returns.inj h).1 hinval
  split at h
  · next hlow =>
    rw [if_pos hlow]
    split at h
    · cases h
    · exact absurd (Outcome.returns.inj h).1 (by decide)
    · obtain ⟨-, rfl⟩ := Outcome.returns.inj h
      rw [deliver_ipcPerm]
      simp [System.setEnv]
  · next hhigh =>
    rw [if_neg hhigh]
    obtain ⟨-, rfl⟩ := Outcome.returns.inj h
    exact deliver_ipcPerm s c r value

private theorem sysIpcTrySend_ipcPerm (hr : s.envid2env c envid false = some r)
    (h : s.sysIpcTrySend c envid value srcva perm = .returns 0 t) :
    (t.envs r).ipcPerm = (if s.Carries r srcva then perm.toNat else (s.envs r).ipcPerm) ∧
      (s.Carries r srcva → permValid perm.toNat = true) := by
  have hrecv : (s.envs r).ipcRecving = true := by
    by_contra hclosed
    have hclosed : (s.envs r).ipcRecving = false := by simpa using hclosed
    simp only [System.sysIpcTrySend, hr, hclosed] at h
    exact absurd (Outcome.returns.inj h).1 (by decide)
  rw [sysIpcTrySend_open hr hrecv] at h
  split at h
  · next hlow =>
    obtain ⟨hvalid, hval⟩ := sendPage_ipcPerm h
    simp only [System.setEnv_envs_self] at hval
    refine ⟨?_, fun _ => hvalid⟩
    rw [hval]
    exact if_congr ⟨fun hd => ⟨hlow, hd⟩, And.right⟩ rfl rfl
  · next hhigh =>
    have hno : ¬ s.Carries r srcva := fun hcarry => hhigh hcarry.1
    obtain ⟨-, rfl⟩ := Outcome.returns.inj h
    rw [deliver_ipcPerm, if_neg hno]
    exact ⟨by simp, fun hcarry => absurd hcarry hno⟩

end Send

private theorem ipcPerm_resume {o : Outcome} {c : Fin NENV} {t : System} (h : o.resume c = some t) :
    ∃ u, o.state? = some u ∧ ∀ r, (t.envs r).ipcPerm = (u.envs r).ipcPerm := by
  obtain ⟨u, hu, hsame | ⟨x, hsame⟩⟩ := rescheduled_resume h
  · refine ⟨u, hu, fun r => ?_⟩
    obtain ⟨st, n, he, -⟩ := hsame.env r
    rw [he]
  · refine ⟨u, hu, fun r => ?_⟩
    obtain ⟨st, n, he, -⟩ := hsame.env r
    rw [he]
    by_cases hrc : r = c
    · subst hrc
      simp [System.setEnv, Env.setEax]
    · rw [u.setEnv_envs_of_ne hrc]

theorem Event.Delivers.ipcPerm {i : Event} {s : System} {r : Fin NENV} {srcva perm : BitVec 32}
    (h : i.Delivers s r srcva perm) :
    ((kernelMachine.step i s).envs r).ipcPerm =
        (if s.Carries r srcva then perm.toNat else (s.envs r).ipcPerm) ∧
      (s.Carries r srcva → permValid perm.toNat = true) := by
  obtain ⟨c, envid, value, t, rfl, hc, hact, hr, hret⟩ := h
  have hexec : (Event.call (.ipcTrySend envid value srcva perm)).exec s =
      (Outcome.returns 0 t).resume c := by
    simp only [Event.exec, hc, hact, if_true, Call.exec, hret]
  obtain ⟨v, hv⟩ : ∃ v, (Outcome.returns 0 t).resume c = some v := ⟨_, rfl⟩
  have hstep : kernelMachine.step (.call (.ipcTrySend envid value srcva perm)) s = v := by
    simp [kernelMachine, hexec, hv]
  obtain ⟨u, hu, hsame⟩ := ipcPerm_resume hv
  obtain rfl : t = u := Option.some.inj hu
  rw [hstep, hsame]
  exact sysIpcTrySend_ipcPerm hr hret

private theorem truthful_iff_fresh (i : Event) (s : System) : i.Truthful s ↔ i.Fresh s := by
  constructor
  · intro htrue r srcva perm h
    by_cases hcarry : s.Carries r srcva
    · exact .inl hcarry
    · have hperm := (htrue r srcva perm h).1
      rw [h.ipcPerm.1, if_neg hcarry, if_neg hcarry] at hperm
      exact .inr hperm
  · intro hfresh r srcva perm h
    obtain ⟨hval, hvalid⟩ := h.ipcPerm
    rw [hval]
    by_cases hcarry : s.Carries r srcva
    · rw [if_pos hcarry, if_pos hcarry]
      have hP : perm.toNat &&& PTE_P ≠ 0 := by
        have := hvalid hcarry
        simp only [permValid, Bool.and_eq_true, decide_eq_true_eq] at this
        exact this.1.2
      exact ⟨rfl, iff_of_false hP (not_not.mpr hcarry)⟩
    · rw [if_neg hcarry, if_neg hcarry, (hfresh r srcva perm h).resolve_left hcarry]
      exact ⟨rfl, iff_of_true (by simp [noArgumentPage]) hcarry⟩

/-- In every run, all messages are truthful about their pages if and only if no message without a page
reaches an environment that still has the permissions of an earlier one. -/
theorem received_perm_iff (events : List Event) (s : System) :
    kernelMachine.Along Event.Truthful events s ↔ kernelMachine.Along Event.Fresh events s :=
  ⟨Machine.Along.mono fun i s => (truthful_iff_fresh i s).mp,
    Machine.Along.mono fun i s => (truthful_iff_fresh i s).mpr⟩

/-- The program sends a page to the server, and after it a message without one. -/
theorem received_perm_stale : ¬ ∀ (events : List Event) (s : System),
    (∀ e, (s.envs e).ipcPerm = 0) → kernelMachine.Along Event.Truthful events s := by
  intro hall
  have hrun := hall
    [.call (.ipcTrySend (nextEnvId 0 0) 1 0x800000 7), .run 0, .call (.ipcRecv 0x900000),
      .call (.ipcTrySend (nextEnvId 0 0) 1 (BitVec.ofNat 32 UTOP) 0)] sampleSystem ?_
  · obtain ⟨-, hrun⟩ := hrun
    obtain ⟨-, hrun⟩ := hrun (by decide +kernel)
    obtain ⟨-, hrun⟩ := hrun (by decide +kernel)
    obtain ⟨hlast, -⟩ := hrun (by decide +kernel)
    have hperm := (hlast 0 (BitVec.ofNat 32 UTOP) 0
      ⟨1, nextEnvId 0 0, 1, _, rfl, by decide +kernel, by decide +kernel, by decide +kernel,
        (sysIpcTrySend_open (e := 0) (by decide +kernel) (by decide +kernel)).trans (if_neg (by decide))⟩).1
    revert hperm
    decide +kernel
  · intro e
    simp only [sampleSystem]
    split
    · rfl
    · split
      · rfl
      · rfl

end DamnOS.Kernel
