import DamnOS.Kernel.Boot
import DamnOS.Kernel.EnvTable
import DamnOS.Kernel.Privilege

/-!
# Scheduling

`sched_yield` searches `envs` in circular order.  The search starts with the slot of the current
environment, so what it finds depends on the status that the system calls have left there.
-/

namespace DamnOS.Kernel

open DamnOS.Framework

namespace System

/-- What `sched_halt` tests: no environment is left to run, and the kernel stays in the monitor. -/
def InMonitor (s : System) : Prop :=
  ∀ i, (s.envs i).status ≠ .runnable ∧ (s.envs i).status ≠ .running ∧ (s.envs i).status ≠ .dying

instance (s : System) : Decidable s.InMonitor := inferInstanceAs (Decidable (∀ _, _))

/-- The kernel has returned to user mode in `e`. -/
def Executes (s : System) (e : Fin NENV) : Prop := s.curenv = some e ∧ ¬ s.InMonitor

/-- The number of slots between the current one and `k`, going upward. -/
def distance (s : System) (k : Fin NENV) : Fin NENV :=
  match s.curenv with
  | none => k
  | some c => k - c - 1

/-- If an environment other than the current one is runnable, `sched_yield` runs the first of these
after the current slot. -/
def RoundRobin (s : System) : Prop :=
  ∀ e, s.curenv ≠ some e → (s.envs e).status = .runnable →
    ∃ k, s.curenv ≠ some k ∧ (s.envs k).status = .runnable ∧
      (∀ j, (s.envs j).status = .runnable → s.distance k ≤ s.distance j) ∧
      s.schedYield = s.envRun k ∧ s.schedYield.curenv = some k

end System

/-- A trap with the frame that the processor pushed, or for a halted processor an interrupt.  `buf`
and `ch` are as for `trap`.  The gate of system calls leaves interrupts on: with `nested`, the timer
interrupts the kernel once more, when `env_run` has stored `curenv` and not yet the new status. -/
structure Interrupt where
  tf : Trapframe
  faultVa : BitVec 32
  buf : Trapframe
  ch : Int
  nested : Bool

namespace System

/-- `env_run` up to the store to `curenv`. -/
def switching (s : System) (e : Fin NENV) : System := { s.preempt with curenv := some e }

/-- `sched_yield` with a timer interrupt in the `env_run` that it calls; the trap from kernel mode
gives up the interrupted one and calls `sched_yield` itself. -/
def interruptedYield (s : System) : System :=
  match s.schedYield.curenv with
  | none => s.schedYield
  | some e => if s.curenv = some e then s.schedYield else (s.switching e).schedYield

/-- The state in which the end of `trap` calls `sched_yield`, if it does. -/
def returnYields (s : System) : Option System :=
  match s.curenv with
  | none => some s
  | some c => if (s.envs c).status = .running then none else some s

/-- The state in which `env_destroy`, or `trap` after it, calls `sched_yield`. -/
def destroyYields (s : System) (e : Fin NENV) : Option System :=
  match s.envDestroy e with
  | none => none
  | some (true, s) => s.returnYields
  | some (false, _) => (s.envFree e).map fun s => { s with curenv := none }

end System

/-- The state in which a call that does not come back calls `sched_yield`. -/
def Call.leavesFrom (s : System) (c : Fin NENV) : Call → Option System
  | .envDestroy envid => (s.envid2env c envid true).bind s.destroyYields
  | .yield => some s
  | .ipcRecv dstva => some (s.setEnv c ((s.envs c).waiting dstva.toNat))
  | _ => none

/-- The state in which a system call, or the way back from it, calls `sched_yield`; `back` stores
the result. -/
def Call.yields (s : System) (c : Fin NENV) (back : Int → System → System) (a : Call) : Option System :=
  match a.exec s c with
  | .panics => none
  | .leaves _ => a.leavesFrom s c
  | .returns r t => (back r t).returnYields

/-- The result of a call goes to the saved `eax`. -/
def System.storeEax (c : Fin NENV) (r : Int) (s : System) : System :=
  s.setEnv c ((s.envs c).setEax (BitVec.ofInt 32 r))

/-- The caller does not make itself runnable, with `sys_env_set_status` or by a message to itself. -/
structure Call.Modest (s : System) (c : Fin NENV) (a : Call) : Prop where
  status : ∀ envid, a = .envSetStatus envid 2 → s.envid2env c envid true ≠ some c
  message : ∀ envid value srcva perm, a = .ipcTrySend envid value srcva perm →
    s.envid2env c envid false = some c → (s.envs c).ipcRecving = false

/-- The environment's frame is saved on entry. -/
def System.saved (s : System) (c : Fin NENV) (tf : Trapframe) : System :=
  s.setEnv c { s.envs c with tf := tf }

namespace Interrupt

def call (i : Interrupt) : Call :=
  Call.decode i.tf.regs.eax i.tf.regs.edx i.tf.regs.ecx i.tf.regs.ebx i.tf.regs.edi i.tf.regs.esi
    i.buf i.ch

/-- The state in which a trap in kernel mode calls `sched_yield`. -/
def kernelYields (i : Interrupt) (s : System) (c : Fin NENV) : Option System :=
  match i.tf.trapno.toNat with
  | 48 => i.call.yields s c fun _ s => s
  | 32 => some s
  | 3 | 39 | 33 | 36 => s.returnYields
  | _ => none

def userYields (i : Interrupt) (s : System) (c : Fin NENV) : Option System :=
  match i.tf.trapno.toNat with
  | 14 => if (s.envs c).pgfaultUpcall ≠ 0 then none else (s.saved c i.tf).destroyYields c
  | 48 => i.call.yields (s.saved c i.tf) c (System.storeEax c)
  | 32 => some (s.saved c i.tf)
  | 3 | 39 | 33 | 36 => (s.saved c i.tf).returnYields
  | _ => (s.saved c i.tf).destroyYields c

/-- The state in which a trap of `c` calls `sched_yield`. -/
def trapYields (i : Interrupt) (s : System) (c : Fin NENV) : Option System :=
  if i.tf.cs &&& 3 = 3 then
    if (s.envs c).status = .dying then (s.envFree c).map fun s => { s with curenv := none }
    else i.userYields s c
  else i.kernelYields s c

def yields (i : Interrupt) (s : System) : Option System :=
  if s.InMonitor then none
  else
    match s.curenv with
    | none => some s
    | some c => i.trapYields s c

def exec (i : Interrupt) (s : System) : Option System :=
  if s.InMonitor then some s
  else
    match s.curenv with
    | none => some s.schedYield
    | some c =>
      if i.nested = true ∧ i.tf.trapno.toNat = 48 ∧ (i.trapYields s c).isSome then
        (i.trapYields s c).map System.interruptedYield
      else s.trap c i.tf i.faultVa i.buf i.ch

/-- The environment that traps does not make itself runnable, and no interrupt comes in while the
kernel works on its call. -/
structure Careful (i : Interrupt) (s : System) : Prop where
  modest : ∀ c, s.curenv = some c → i.tf.trapno.toNat = 48 → i.call.Modest s c
  whole : i.nested = false

end Interrupt

def processor : Machine Interrupt System where
  step i s := (i.exec s).getD s
  halts i s := (i.exec s).isNone

/-- What the statuses are like whenever `sched_yield` is called: only the current environment may be
running, and it is not runnable. -/
structure Orderly (s : System) : Prop where
  table : ∃ xs, EnvTable s xs
  alive : ∀ c, s.curenv = some c → s.Live c
  running : ∀ i, (s.envs i).status = .running → s.curenv = some i
  dying : ∀ i, (s.envs i).status ≠ .dying
  current : ∀ c, s.curenv = some c → (s.envs c).status ≠ .runnable

private theorem find_runnable {s : System} {start i : Fin NENV}
    (h : (List.finRange NENV).find? (fun i => (s.envs (start + i)).status = .runnable) = some i) :
    (s.envs (start + i)).status = .runnable ∧
      ∀ j, (s.envs (start + j)).status = .runnable → i ≤ j := by
  obtain ⟨hp, n, hn, hi, hbefore⟩ := List.find?_eq_some_iff_getElem.mp h
  refine ⟨by simpa using hp, fun j hj => ?_⟩
  by_contra hlt
  have hval : i.val = n := by
    rw [← hi]
    simp
  have hjn : j.val < n := by
    rw [← hval]
    exact Fin.lt_def.mp (not_le.mp hlt)
  have hno := hbefore j.val hjn
  simp [hj] at hno

namespace Orderly

variable {s t : System}

private theorem schedStart_eq (h : Orderly s) {c : Fin NENV} (hc : s.curenv = some c) : s.schedStart = c := by
  obtain ⟨xs, htable⟩ := h.table
  rw [System.schedStart, hc]
  exact htable.slot c (h.alive c hc)

private theorem roundRobin (h : Orderly s) : s.RoundRobin := by
  intro e hcur he
  cases hf : (List.finRange NENV).find? (fun i => (s.envs (s.schedStart + i)).status = .runnable) with
  | none =>
    have hmem : e - s.schedStart ∈ List.finRange NENV := List.mem_finRange (e - s.schedStart)
    have hno := List.find?_eq_none.mp hf _ hmem
    rw [add_sub_cancel] at hno
    simp [he] at hno
  | some i =>
    obtain ⟨hrun, hfirst⟩ := find_runnable hf
    have hne : s.curenv ≠ some (s.schedStart + i) := fun hk => h.current _ hk hrun
    have hyield : s.schedYield = s.envRun (s.schedStart + i) := by
      unfold System.schedYield
      rw [hf]
    refine ⟨s.schedStart + i, hne, hrun, fun j hj => ?_, hyield, ?_⟩
    · have hle := hfirst (j - s.schedStart) (by rwa [add_sub_cancel])
      cases hc : s.curenv with
      | none =>
        have hstart : s.schedStart = 0 := by simp [System.schedStart, hc]
        simp only [System.distance, hc]
        rw [hstart] at hle ⊢
        simpa using hle
      | some c =>
        simp only [System.distance, hc]
        rw [h.schedStart_eq hc] at hle hne hrun ⊢
        have hi : i ≠ 0 := by
          rintro rfl
          rw [add_zero] at hrun
          exact h.current c hc hrun
        have hj : j - c ≠ 0 := by
          intro hj
          rw [hj] at hle
          exact hi (nonpos_iff_eq_zero.mp hle)
        rw [add_sub_cancel_left, Fin.le_def, Fin.val_sub_one_of_ne_zero hi, Fin.val_sub_one_of_ne_zero hj]
        exact Nat.sub_le_sub_right hle 1
    · rw [hyield, System.envRun, if_neg hne]

theorem congr (h : Orderly s) (ht : SameTable s t) (hc : t.curenv = s.curenv)
    (hst : ∀ i, (t.envs i).status = (s.envs i).status) : Orderly t where
  table := by
    obtain ⟨xs, hxs⟩ := h.table
    exact ⟨xs, ht.envTable hxs⟩
  alive c hcur := (ht.live c).mpr (h.alive c (hc ▸ hcur))
  running i hi := by
    rw [hst] at hi
    rw [hc]
    exact h.running i hi
  dying i := by
    rw [hst]
    exact h.dying i
  current c hcur := by
    rw [hst]
    exact h.current c (hc ▸ hcur)

/-- One environment changes, but neither its place in the table nor its status. -/
theorem update (h : Orderly s) {e : Fin NENV} {v : Env} {m : Pmap} (hl : v.link = (s.envs e).link)
    (hi : v.id = (s.envs e).id) (hst : v.status = (s.envs e).status) :
    Orderly ⟨m, Function.update s.envs e v, s.envFreeList, s.curenv⟩ := by
  refine h.congr (.update hl hi (by rw [hst]; exact Iff.rfl)) rfl fun i => ?_
  by_cases hie : i = e
  · subst hie
    simpa using hst
  · simp [hie]

theorem place (h : Orderly s) (ht : ∃ xs, EnvTable t xs) (hcur : t.curenv = s.curenv) {e : Fin NENV}
    (hother : ∀ i, i ≠ e → (t.envs i).status = (s.envs i).status)
    (hv : (t.envs e).status = .notRunnable ∨ (t.envs e).status = .runnable ∧ s.curenv ≠ some e) :
    Orderly t := by
  have hself : (t.envs e).status ≠ .free ∧ (t.envs e).status ≠ .running ∧
      (t.envs e).status ≠ .dying := by
    rcases hv with hv | ⟨hv, -⟩
    · simp [hv]
    · simp [hv]
  refine ⟨ht, fun c hc => ?_, fun i hi => ?_, fun i => ?_, fun c hc => ?_⟩
  · rw [hcur] at hc
    by_cases hce : c = e
    · rw [hce]
      exact hself.1
    · rw [System.Live, hother c hce]
      exact h.alive c hc
  · have hie : i ≠ e := by
      rintro rfl
      exact hself.2.1 hi
    rw [hother i hie] at hi
    rw [hcur]
    exact h.running i hi
  · by_cases hie : i = e
    · rw [hie]
      exact hself.2.2
    · rw [hother i hie]
      exact h.dying i
  · rw [hcur] at hc
    by_cases hce : c = e
    · subst hce
      rcases hv with hv | ⟨-, hne⟩
      · simp [hv]
      · exact absurd hc hne
    · rw [hother c hce]
      exact h.current c hc

theorem setStatus (h : Orderly s) {e : Fin NENV} {v : Env} {m : Pmap} (he : s.Live e)
    (hl : v.link = (s.envs e).link) (hi : v.id = (s.envs e).id)
    (hv : v.status = .notRunnable ∨ v.status = .runnable ∧ s.curenv ≠ some e) :
    Orderly ⟨m, Function.update s.envs e v, s.envFreeList, s.curenv⟩ := by
  have hfree : v.status ≠ .free := by
    rcases hv with hv | ⟨hv, -⟩
    · simp [hv]
    · simp [hv]
  obtain ⟨xs, hxs⟩ := h.table
  have hsame : SameTable s ⟨m, Function.update s.envs e v, s.envFreeList, s.curenv⟩ :=
    .update hl hi ⟨fun _ => he, fun _ => hfree⟩
  refine h.place ⟨xs, hsame.envTable hxs⟩ rfl (e := e) (fun i hie => ?_) ?_
  · simp [hie]
  · simpa using hv

/-- A slot is freed; if it was the current one, no environment is current. -/
theorem envFree (h : Orderly s) {e : Fin NENV} (he : s.Live e) (ht : s.envFree e = some t)
    {o : Option (Fin NENV)}
    (ho : s.curenv = some e ∧ o = none ∨ s.curenv ≠ some e ∧ o = s.curenv) :
    Orderly { t with curenv := o } := by
  obtain ⟨xs, hxs⟩ := h.table
  have htable := (SameTable.curenv t o).envTable (hxs.envFree he ht)
  unfold System.envFree at ht
  obtain ⟨m, -, rfl⟩ := Option.map_eq_some_iff.mp ht
  have hcur {c : Fin NENV} (hc : o = some c) : s.curenv = some c ∧ c ≠ e := by
    rcases ho with ⟨-, rfl⟩ | ⟨hne, rfl⟩
    · cases hc
    · refine ⟨hc, ?_⟩
      rintro rfl
      exact hne hc
  refine ⟨⟨_, htable⟩, fun c hc => ?_, fun i hi => ?_, fun i => ?_, fun c hc => ?_⟩
  · obtain ⟨hc, hce⟩ := hcur hc
    simpa [System.Live, System.setEnv, hce] using h.alive c hc
  · have hie : i ≠ e := by
      rintro rfl
      simp [System.setEnv] at hi
    simp only [System.setEnv, Function.update_of_ne hie] at hi
    have hi := h.running i hi
    rcases ho with ⟨hcur, -⟩ | ⟨-, rfl⟩
    · exact absurd (Option.some.inj (hi.symm.trans hcur)) hie
    · exact hi
  · by_cases hie : i = e
    · subst hie
      simp [System.setEnv]
    · simp only [System.setEnv, Function.update_of_ne hie]
      exact h.dying i
  · obtain ⟨hc, hce⟩ := hcur hc
    simp only [System.setEnv, Function.update_of_ne hce]
    exact h.current c hc

end Orderly

/-- Between traps, the environment that executes is running. -/
structure Settled (s : System) : Prop extends Orderly s where
  executing : ∀ c, s.Executes c → (s.envs c).status = .running

namespace Orderly

variable {s t : System}

theorem envRun (h : Orderly s) {k : Fin NENV} (hk : (s.envs k).status = .runnable) :
    Settled (s.envRun k) := by
  have hne : s.curenv ≠ some k := fun hc => h.current k hc hk
  have hlive : s.Live k := by simp [System.Live, hk]
  have hself : ((s.envRun k).envs k).status = .running := by
    simp [System.envRun, hne, System.setEnv]
  have hcur : (s.envRun k).curenv = some k := by
    rw [System.envRun, if_neg hne]
  -- a running environment was the current one, and goes back to runnable
  have hother {i : Fin NENV} (hi : i ≠ k) : ((s.envRun k).envs i).status ≠ .running ∧
      ((s.envRun k).envs i).status ≠ .dying := by
    have henv : (s.envRun k).envs i = s.preempt.envs i := by
      simp [System.envRun, hne, System.setEnv, hi]
    rw [henv]
    unfold System.preempt
    split
    · next hnone =>
      refine ⟨fun hr => ?_, h.dying i⟩
      rw [h.running i hr] at hnone
      cases hnone
    · next c hc =>
      by_cases hic : i = c
      · subst hic
        split
        · simp [System.setEnv]
        · next hnot => exact ⟨hnot, h.dying i⟩
      · have hr : (s.envs i).status ≠ .running := fun hr =>
          hic (Option.some.inj ((h.running i hr).symm.trans hc))
        split
        · simpa [System.setEnv, hic] using ⟨hr, h.dying i⟩
        · exact ⟨hr, h.dying i⟩
  obtain ⟨xs, hxs⟩ := h.table
  have hsame := (Rescheduled.envRun hlive).sameTable
  refine ⟨⟨⟨xs, hsame.envTable hxs⟩, fun c hc => ?_, fun i hi => ?_, fun i => ?_, fun c hc => ?_⟩,
    fun c hc => ?_⟩
  · obtain rfl : k = c := Option.some.inj (hcur.symm.trans hc)
    exact (hsame.live k).mpr hlive
  · by_cases hik : i = k
    · rw [hcur, hik]
    · exact absurd hi (hother hik).1
  · by_cases hik : i = k
    · subst hik
      simp [hself]
    · exact (hother hik).2
  · obtain rfl : k = c := Option.some.inj (hcur.symm.trans hc)
    simp [hself]
  · obtain rfl : k = c := Option.some.inj (hcur.symm.trans hc.1)
    exact hself

theorem schedYield (h : Orderly s) : Settled s.schedYield := by
  unfold System.schedYield
  split
  · next i hi => exact h.envRun (find_runnable hi).1
  · next hnone =>
    have hidle (i : Fin NENV) : (s.envs i).status ≠ .runnable := by
      intro hi
      have hmem : i - s.schedStart ∈ List.finRange NENV := List.mem_finRange (i - s.schedStart)
      have hno := List.find?_eq_none.mp hnone _ hmem
      rw [add_sub_cancel] at hno
      simp [hi] at hno
    have hhalt (hrun : ∀ i, (s.envs i).status ≠ .running) : Settled s.schedHalt := by
      have hmon : s.InMonitor := fun i => ⟨hidle i, hrun i, h.dying i⟩
      have hstay : s.schedHalt = s := by
        unfold System.schedHalt
        exact if_pos hmon
      rw [hstay]
      exact ⟨h, fun c hc => absurd hmon hc.2⟩
    split
    · next hc =>
      refine hhalt fun i hi => ?_
      rw [h.running i hi] at hc
      cases hc
    · next c hc =>
      split
      · next hr =>
        rw [System.envRun, if_pos hc]
        refine ⟨h, fun d hd => ?_⟩
        obtain rfl : c = d := Option.some.inj (hc.symm.trans hd.1)
        exact hr
      · next hr =>
        refine hhalt fun i hi => hr ?_
        obtain rfl : i = c := Option.some.inj ((h.running i hi).symm.trans hc)
        exact hi

end Orderly

/-- How a trap of `c` ends: with `sched_yield` in an orderly state, or back in `c`. -/
inductive Ends (c : Fin NENV) : Option System → System → Prop
  | yielded {u : System} (hu : Orderly u) : Ends c (some u) u.schedYield
  | resumed {t : System} (ht : Orderly t) (hc : t.curenv = some c) (hr : (t.envs c).status = .running) :
      Ends c none t

private theorem Ends.settled {c : Fin NENV} {y : Option System} {t : System} (h : Ends c y t) : Settled t := by
  cases h with
  | yielded hu => exact hu.schedYield
  | resumed ht hc hr =>
    refine ⟨ht, fun d hd => ?_⟩
    obtain rfl : c = d := Option.some.inj (hc.symm.trans hd.1)
    exact hr

section Trap

variable {s t : System} {c e : Fin NENV}

theorem Orderly.trapReturn (h : Orderly s) (hc : s.curenv = some c) :
    Ends c s.returnYields s.trapReturn := by
  unfold System.returnYields System.trapReturn
  rw [hc]
  dsimp only
  split
  · next hr =>
    rw [System.envRun, if_pos hc]
    exact .resumed h hc hr
  · exact .yielded h

/-- Only the current environment is running, so `env_destroy` frees its target. -/
theorem Orderly.envDestroy (h : Orderly s) (he : s.Live e) {b : Bool} (hd : s.envDestroy e = some (b, t)) :
    (s.curenv = some e ∧ b = false ∧
        ∃ u, s.envFree e = some u ∧ Orderly { u with curenv := none } ∧
          t = ({ u with curenv := none } : System).schedYield) ∨
      (s.curenv ≠ some e ∧ b = true ∧ Orderly t ∧ t.curenv = s.curenv) := by
  have hcond : ¬ ((s.envs e).status = .running ∧ s.curenv ≠ some e) := fun hx => hx.2 (h.running e hx.1)
  unfold System.envDestroy at hd
  rw [if_neg hcond] at hd
  obtain ⟨u, hu, hbt⟩ := Option.map_eq_some_iff.mp hd
  have hcur : u.curenv = s.curenv := by
    unfold System.envFree at hu
    obtain ⟨m, -, rfl⟩ := Option.map_eq_some_iff.mp hu
    rfl
  split at hbt
  · next hself =>
    obtain ⟨rfl, rfl⟩ := Prod.mk.inj hbt
    rw [hcur] at hself
    exact .inl ⟨hself, rfl, u, hu, h.envFree he hu (.inl ⟨hself, rfl⟩), rfl⟩
  · next hself =>
    obtain ⟨rfl, rfl⟩ := Prod.mk.inj hbt
    rw [hcur] at hself
    have hu' := h.envFree he hu (.inr ⟨hself, rfl⟩)
    rw [← hcur] at hu'
    exact .inr ⟨hself, rfl, hu', hcur⟩

theorem Orderly.destroyed (h : Orderly s) (hc : s.curenv = some c) {b : Bool}
    (hd : s.envDestroy c = some (b, t)) : b = false ∧ Ends c (s.destroyYields c) t := by
  obtain ⟨-, hb, u, hu, hord, ht⟩ | ⟨hne, -⟩ := h.envDestroy (h.alive c hc) hd
  · refine ⟨hb, ?_⟩
    rw [hb] at hd
    have hy : s.destroyYields c = some { u with curenv := none } := by
      simp only [System.destroyYields, hd, hu, Option.map_some]
    rw [hy, ht]
    exact .yielded hord
  · exact absurd hc hne

theorem Orderly.sysEnvSetStatus (h : Orderly s) (hc : s.curenv = some c) {envid status : BitVec 32}
    (hm : (Call.envSetStatus envid status).Modest s c) {r : Int}
    (ho : s.sysEnvSetStatus c envid status = .returns r t) : Orderly t ∧ t.curenv = some c := by
  unfold System.sysEnvSetStatus at ho
  split at ho
  · obtain ⟨-, rfl⟩ := Outcome.returns.inj ho
    exact ⟨h, hc⟩
  split at ho
  · obtain ⟨-, rfl⟩ := Outcome.returns.inj ho
    exact ⟨h, hc⟩
  · next e he =>
    obtain ⟨-, rfl⟩ := Outcome.returns.inj ho
    refine ⟨h.setStatus (live_of_envid2env he (h.alive c hc)) rfl rfl ?_, hc⟩
    by_cases h2 : status = 2
    · subst h2
      refine .inr ⟨rfl, fun hself => hm.status envid rfl ?_⟩
      obtain rfl : c = e := Option.some.inj (hc.symm.trans hself)
      exact he
    · exact .inl (if_neg h2)

private theorem Orderly.exec_returns (h : Orderly s) (hc : s.curenv = some c) {a : Call} (hm : a.Modest s c)
    {r : Int} (ho : a.exec s c = .returns r t) : Orderly t ∧ t.curenv = some c := by
  have hlive := h.alive c hc
  have heff := a.effect s c
  rw [ho] at heff
  generalize hres : Outcome.returns r t = o at heff
  cases heff with
  | panic => cases hres
  | quiet ha r' m =>
    obtain ⟨-, rfl⟩ := Outcome.returns.inj hres
    exact ⟨h.congr (.pmap s m) rfl fun _ => rfl, hc⟩
  | @destroy envid e u b he hd =>
    obtain ⟨-, rfl, -⟩ | ⟨-, rfl, hord, hcur⟩ := h.envDestroy (live_of_envid2env he hlive) hd
    · cases hres
    · obtain ⟨-, rfl⟩ := Outcome.returns.inj hres
      exact ⟨hord, hcur.trans hc⟩
  | noChild r' hchild =>
    obtain ⟨-, rfl⟩ := Outcome.returns.inj hres
    rw [envAlloc_error hchild]
    exact ⟨h, hc⟩
  | @child e u hchild =>
    obtain ⟨-, rfl⟩ := Outcome.returns.inj hres
    obtain ⟨xs, hxs⟩ := h.table
    have htable := (Call.effect s c .exofork).envTable hxs hlive (by rw [ho]; rfl)
    obtain ⟨-, q, -, rfl⟩ := envAlloc_cases hchild
    refine ⟨h.place htable rfl (e := e) (fun i hie => ?_) (.inl ?_), hc⟩
    · simp [System.setEnv, hie]
    · simp [System.setEnv, Env.child]
  | @setStatus envid status e st he hst =>
    exact h.sysEnvSetStatus hc hm ho
  | setTrapframe he =>
    obtain ⟨-, rfl⟩ := Outcome.returns.inj hres
    exact ⟨h.update rfl rfl rfl, hc⟩
  | setUpcall he =>
    obtain ⟨-, rfl⟩ := Outcome.returns.inj hres
    exact ⟨h.update rfl rfl rfl, hc⟩
  | yield => cases hres
  | unsent r' hr =>
    obtain ⟨-, rfl⟩ := Outcome.returns.inj hres
    exact ⟨h, hc⟩
  | refused r' m p he hrecv hr =>
    obtain ⟨-, rfl⟩ := Outcome.returns.inj hres
    exact ⟨h.update rfl rfl rfl, hc⟩
  | @deliver envid value srcva perm e m p he hrecv =>
    obtain ⟨-, rfl⟩ := Outcome.returns.inj hres
    refine ⟨h.setStatus (live_of_envid2env he hlive) rfl rfl (.inr ⟨rfl, fun hself => ?_⟩), hc⟩
    obtain rfl : c = e := Option.some.inj (hc.symm.trans hself)
    rw [hm.message envid value srcva perm rfl he] at hrecv
    cases hrecv
  | receive => cases hres

private theorem Orderly.exec_leaves (h : Orderly s) (hc : s.curenv = some c) {a : Call}
    (ho : a.exec s c = .leaves t) :
    ∃ u, a.leavesFrom s c = some u ∧ Orderly u ∧ t = u.schedYield := by
  have hlive := h.alive c hc
  have heff := a.effect s c
  rw [ho] at heff
  generalize hres : Outcome.leaves t = o at heff
  cases heff with
  | @destroy envid e u b he hd =>
    obtain ⟨-, rfl, v, hv, hord, ht⟩ | ⟨-, rfl, -⟩ := h.envDestroy (live_of_envid2env he hlive) hd
    · refine ⟨{ v with curenv := none }, ?_, hord, (Outcome.leaves.inj hres).trans ht⟩
      simp only [Call.leavesFrom, he, Option.bind_some, System.destroyYields, hd, hv, Option.map_some]
    · cases hres
  | yield => exact ⟨s, rfl, h, Outcome.leaves.inj hres⟩
  | receive => exact ⟨_, rfl, h.setStatus hlive rfl rfl (.inl rfl), Outcome.leaves.inj hres⟩
  | panic => cases hres
  | quiet ha r' m => cases hres
  | noChild r' hchild => cases hres
  | child hchild => cases hres
  | setStatus st he hst => cases hres
  | setTrapframe he => cases hres
  | setUpcall he => cases hres
  | unsent r' hr => cases hres
  | refused r' m p he hrecv hr => cases hres
  | deliver m p he hrecv => cases hres

theorem Orderly.call (h : Orderly s) (hc : s.curenv = some c) {a : Call} (hm : a.Modest s c)
    {back : Int → System → System} (hback : ∀ r v, Orderly v → v.curenv = some c →
      Orderly (back r v) ∧ (back r v).curenv = some c)
    (hleaves : ∀ v, a.exec s c = .leaves v → v = t) (hpanics : a.exec s c ≠ .panics)
    (hreturns : ∀ r v, a.exec s c = .returns r v → (back r v).trapReturn = t) :
    Ends c (a.yields s c back) t := by
  unfold Call.yields
  cases ho : a.exec s c with
  | panics => exact absurd ho hpanics
  | leaves v =>
    obtain ⟨u, hu, hord, hv⟩ := h.exec_leaves hc ho
    dsimp only
    rw [hu, ← hleaves v ho, hv]
    exact .yielded hord
  | returns r v =>
    obtain ⟨hord, hcur⟩ := h.exec_returns hc hm ho
    obtain ⟨hset, hcur⟩ := hback r v hord hcur
    rw [← hreturns r v ho]
    exact hset.trapReturn hcur

private theorem Orderly.callUser (h : Orderly s) (hc : s.curenv = some c) {a : Call} (hm : a.Modest s c)
    (ht : (a.exec s c).resume c = some t) : Ends c (a.yields s c (System.storeEax c)) t := by
  apply h.call hc hm
  · intro r v hv hcur
    exact ⟨hv.update rfl rfl rfl, hcur⟩
  · intro v ho
    rw [ho] at ht
    exact Option.some.inj ht
  · intro ho
    rw [ho] at ht
    cases ht
  · intro r v ho
    rw [ho] at ht
    exact Option.some.inj ht

private theorem Orderly.trapKernel (h : Orderly s) (hc : s.curenv = some c) {i : Interrupt}
    (hm : i.tf.trapno.toNat = 48 → i.call.Modest s c)
    (ht : s.trapKernel c i.tf i.buf i.ch = some t) : Ends c (i.kernelYields s c) t := by
  generalize hy : i.kernelYields s c = o
  unfold Interrupt.kernelYields at hy
  unfold System.trapKernel at ht
  have hback : some s.trapReturn = some t → Ends c s.returnYields t := by
    intro hr
    rw [← Option.some.inj hr]
    exact h.trapReturn hc
  split at ht
  · next hno =>
    rw [hno] at hy
    subst hy
    apply h.call hc (hm hno)
    · intro r v hv hcur
      exact ⟨hv, hcur⟩
    · intro v ho
      rw [Interrupt.call] at ho
      rw [ho] at ht
      exact Option.some.inj ht
    · intro ho
      rw [Interrupt.call] at ho
      rw [ho] at ht
      cases ht
    · intro r v ho
      rw [Interrupt.call] at ho
      rw [ho] at ht
      exact Option.some.inj ht
  · next hno =>
    rw [hno] at hy
    subst hy
    rw [← Option.some.inj ht]
    exact .yielded h
  · next hno =>
    rw [hno] at hy
    subst hy
    exact hback ht
  · next hno =>
    rw [hno] at hy
    subst hy
    exact hback ht
  · next hno =>
    rw [hno] at hy
    subst hy
    exact hback ht
  · next hno =>
    rw [hno] at hy
    subst hy
    exact hback ht
  · cases ht

private theorem envid2env_saved (s : System) (c d : Fin NENV) (tf : Trapframe) (envid : BitVec 32)
    (checkperm : Bool) : (s.saved c tf).envid2env d envid checkperm = s.envid2env d envid checkperm := by
  have hsame (e : Fin NENV) : ((s.saved c tf).envs e).status = (s.envs e).status ∧
      ((s.saved c tf).envs e).id = (s.envs e).id ∧
      ((s.saved c tf).envs e).parentId = (s.envs e).parentId := by
    by_cases he : e = c
    · subst he
      simp [System.saved]
    · rw [System.saved, s.setEnv_envs_of_ne he]
      exact ⟨rfl, rfl, rfl⟩
  simp only [System.envid2env, (hsame _).1, (hsame _).2.1, (hsame _).2.2]

theorem Call.Modest.saved {a : Call} (h : a.Modest s c) (tf : Trapframe) : a.Modest (s.saved c tf) c where
  status envid ha := by
    rw [envid2env_saved]
    exact h.status envid ha
  message envid value srcva perm ha hself := by
    rw [envid2env_saved] at hself
    simpa [System.saved] using h.message envid value srcva perm ha hself

private theorem Orderly.pageFault (h : Orderly s) (hc : s.curenv = some c) (hr : (s.envs c).status = .running)
    {va : BitVec 32} (ht : s.pageFaultHandler c va = some t) :
    Ends c (if (s.envs c).pgfaultUpcall ≠ 0 then none else s.destroyYields c) t := by
  unfold System.pageFaultHandler at ht
  dsimp only at ht
  split at ht
  · cases ht
  · split at ht
    · next hup =>
      rw [if_pos hup]
      obtain ⟨m, -, rfl⟩ := Option.map_eq_some_iff.mp ht
      refine .resumed (h.update rfl rfl rfl) hc ?_
      simpa [System.setEnv] using hr
    · next hup =>
      rw [if_neg hup]
      obtain ⟨⟨b, u⟩, hd, rfl⟩ := Option.map_eq_some_iff.mp ht
      exact (h.destroyed hc hd).2

theorem Settled.trap (h : Settled s) (hc : s.Executes c) {i : Interrupt} (hi : i.Careful s)
    (ht : s.trap c i.tf i.faultVa i.buf i.ch = some t) : Ends c (i.trapYields s c) t := by
  have hrun := h.executing c hc
  have hnot : ¬ (s.envs c).status = .dying := h.dying c
  have hord : Orderly (s.saved c i.tf) := h.toOrderly.update rfl rfl rfl
  have hcur : (s.saved c i.tf).curenv = some c := hc.1
  have hframe : ((s.saved c i.tf).envs c).tf = i.tf := by simp [System.saved]
  have hupcall : ((s.saved c i.tf).envs c).pgfaultUpcall = (s.envs c).pgfaultUpcall := by
    simp [System.saved]
  have hrunning : ((s.saved c i.tf).envs c).status = .running := by
    simpa [System.saved] using hrun
  unfold System.trap at ht
  unfold Interrupt.trapYields
  by_cases hmode : i.tf.cs &&& 3 = 3
  rotate_left
  · rw [if_neg hmode] at ht ⊢
    exact h.toOrderly.trapKernel hc.1 (hi.modest c hc.1) ht
  rw [if_pos hmode, if_neg hnot] at ht
  rw [if_pos hmode, if_neg hnot]
  change (s.saved c i.tf).trapDispatch c i.faultVa i.buf i.ch = some t at ht
  unfold System.trapDispatch at ht
  rw [hframe] at ht
  generalize hy : i.userYields s c = o
  unfold Interrupt.userYields at hy
  have hback : (s.saved c i.tf).trapReturn = t → Ends c (s.saved c i.tf).returnYields t := by
    rintro rfl
    exact hord.trapReturn hcur
  split at ht
  · next hno =>
    rw [hno] at hy
    subst hy
    rw [← hupcall]
    exact hord.pageFault hcur hrunning ht
  · next hno =>
    rw [hno] at hy
    subst hy
    have hm : i.call.Modest (s.saved c i.tf) c := (hi.modest c hc.1 hno).saved i.tf
    refine hord.callUser hcur hm ?_
    simpa [System.trapSyscall, hframe, Interrupt.call] using ht
  · next hno =>
    rw [hno] at hy
    subst hy
    obtain rfl := Option.some.inj ht
    exact .yielded hord
  · next hno =>
    rw [hno] at hy
    subst hy
    exact hback (Option.some.inj ht)
  · next hno =>
    rw [hno] at hy
    subst hy
    exact hback (Option.some.inj ht)
  · next hno =>
    rw [hno] at hy
    subst hy
    exact hback (Option.some.inj ht)
  · next hno =>
    rw [hno] at hy
    subst hy
    exact hback (Option.some.inj ht)
  · next h14 h48 h32 h3 h39 h33 h36 =>
    have hend : Ends c ((s.saved c i.tf).destroyYields c) t := by
      split at ht
      · cases ht
      · next u hd => exact absurd (hord.destroyed hcur hd).1 (by simp)
      · next u hd =>
        obtain rfl := Option.some.inj ht
        exact (hord.destroyed hcur hd).2
    subst hy
    split
    · next hno => exact absurd hno h14
    · next hno => exact absurd hno h48
    · next hno => exact absurd hno h32
    · next hno => exact absurd hno h3
    · next hno => exact absurd hno h39
    · next hno => exact absurd hno h33
    · next hno => exact absurd hno h36
    · exact hend

end Trap

section Runs

variable {s t : System}

/-- Every trap ends settled.  It calls `sched_yield` in an orderly state, or goes back to the
environment that trapped. -/
theorem Settled.interrupt (h : Settled s) {i : Interrupt} (hi : i.Careful s) (ht : i.exec s = some t) :
    Settled t ∧ (∀ u, i.yields s = some u → Orderly u ∧ t = u.schedYield) ∧
      (i.yields s = none → t.curenv = s.curenv) := by
  unfold Interrupt.exec at ht
  unfold Interrupt.yields
  split at ht
  · next hmon =>
    rw [if_pos hmon]
    obtain rfl := Option.some.inj ht
    exact ⟨h, (fun u hu => by cases hu), fun _ => rfl⟩
  · next hmon =>
    rw [if_neg hmon]
    split at ht
    · next hnone =>
      obtain rfl := Option.some.inj ht
      refine ⟨h.toOrderly.schedYield, fun u hu => ?_, fun hu => by cases hu⟩
      obtain rfl := Option.some.inj hu
      exact ⟨h.toOrderly, rfl⟩
    · next c hc =>
      rw [if_neg (fun hcut => Bool.noConfusion (hi.whole.symm.trans hcut.1))] at ht
      have hend := h.trap ⟨hc, hmon⟩ hi ht
      refine ⟨hend.settled, fun u hu => ?_, fun hu => ?_⟩
      · rw [hu] at hend
        cases hend with
        | yielded hord => exact ⟨hord, rfl⟩
      · rw [hu] at hend
        cases hend with
        | resumed ht hcur hr => exact hcur.trans hc.symm

theorem Settled.run (h : Settled s) {is : List Interrupt} (hi : processor.Along Interrupt.Careful is s) :
    Settled (processor.run is s) := by
  refine Machine.run_invariant (I := Settled) ?_ h hi
  intro i s h hi
  cases hx : i.exec s with
  | none => simpa [processor, hx] using h
  | some t =>
    simp only [processor, hx, Option.getD_some]
    exact (h.interrupt hi hx).1

/-- What boot leaves: no environment is current, and those in use are runnable. -/
structure Booted (s : System) : Prop where
  table : ∃ xs, EnvTable s xs
  current : s.curenv = none
  status : ∀ i, (s.envs i).status = .free ∨ (s.envs i).status = .runnable

private theorem Booted.settled (h : Booted s) : Settled s where
  table := h.table
  alive c hc := by
    rw [h.current] at hc
    cases hc
  running i hi := by
    rcases h.status i with hs | hs
    · rw [hs] at hi
      cases hi
    · rw [hs] at hi
      cases hi
  dying i := by
    rcases h.status i with hs | hs
    · simp [hs]
    · simp [hs]
  current c hc := by
    rw [h.current] at hc
    cases hc
  executing c hc := by
    have := hc.1
    rw [h.current] at this
    cases this

theorem Booted.envCreate (h : Booted s) {segments : List Segment} {entryPoint : BitVec 32} {type : EnvType}
    (ht : s.envCreate segments entryPoint type = some t) : Booted t := by
  unfold System.envCreate at ht
  split at ht
  · cases ht
  · next e u hu =>
    obtain ⟨xs, hxs⟩ := h.table
    have htable := (hxs.envAlloc_ok hu).1
    obtain ⟨-, q, -, rfl⟩ := envAlloc_cases hu
    obtain ⟨m, -, rfl⟩ := Option.map_eq_some_iff.mp ht
    refine ⟨⟨_, SameTable.envTable (.update rfl rfl Iff.rfl) htable⟩, h.current, fun i => ?_⟩
    by_cases hie : i = e
    · subst hie
      right
      simp [System.setEnv, Env.fresh]
    · simpa [System.setEnv, hie] using h.status i

private theorem envInit_curenv (s : System) : s.envInit.curenv = s.curenv := by
  unfold System.envInit
  induction List.finRange NENV with
  | nil => rfl
  | cons i l ih => exact ih

private theorem booted_start {programs : List (List Segment × BitVec 32 × EnvType)} (hcur : s.curenv = none)
    (h : s.start programs = some t) : Booted t := by
  have htable := envInit_envTable s
  have hinit : Booted s.envInit := by
    refine ⟨⟨_, htable⟩, (envInit_curenv s).trans hcur, fun i => .inl ?_⟩
    by_contra hi
    exact (htable.free i).mp (List.mem_finRange i) hi
  exact foldlM_invariant (I := Booted) (fun p _ b b' hb hb' => hb.envCreate hb') hinit h

/-- In every run from boot in which no environment makes itself runnable, `sched_yield` runs the
first runnable environment after the current one, wherever it is called, and an environment that
executes is the one and only that is running. -/
theorem round_robin {programs : List (List Segment × BitVec 32 × EnvType)} (hcur : s.curenv = none)
    (h : s.start programs = some t) (is : List Interrupt)
    (hi : processor.Along Interrupt.Careful is t) :
    let u := processor.run is t
    u.RoundRobin ∧
      (∀ (i : Interrupt) v w, i.Careful u → i.exec u = some w → i.yields u = some v →
        v.RoundRobin ∧ w = v.schedYield) ∧
      ∀ e, u.Executes e → (u.envs e).status = .running ∧ ∀ j, j ≠ e → (u.envs j).status ≠ .running := by
  intro u
  have hu : Settled u := (booted_start hcur h).settled.run hi
  refine ⟨hu.toOrderly.roundRobin, fun i v w hc hw hv => ?_, fun e he => ⟨hu.executing e he, fun j hj hr => ?_⟩⟩
  · obtain ⟨hord, hyield⟩ := (hu.interrupt hc hw).2.1 v hv
    exact ⟨hord.roundRobin, hyield⟩
  · exact hj (Option.some.inj ((hu.running j hr).symm.trans he.1))

end Runs

def tick : Interrupt := ⟨{ newTrapframe with trapno := 32 }, 0, newTrapframe, 0, false⟩

/-- The program that executes asks for `ENV_RUNNABLE`, for itself. -/
def wakeSelf : Interrupt :=
  ⟨{ newTrapframe with regs := ⟨0, 0, 0, 0, 0, 0, 2, 8⟩, trapno := 48 }, 0, newTrapframe, 0, false⟩

theorem round_robin_ticks :
    ∃ t, bareSystem.start [([], 0, .fs), ([], 0, .user)] = some t ∧
      let u := processor.run [tick, tick] t
      u.RoundRobin ∧
        (∀ (i : Interrupt) v w, i.Careful u → i.exec u = some w → i.yields u = some v →
          v.RoundRobin ∧ w = v.schedYield) ∧
        ∀ e, u.Executes e → (u.envs e).status = .running ∧ ∀ j, j ≠ e → (u.envs j).status ≠ .running := by
  have hstart : bareSystem.start [([], 0, .fs), ([], 0, .user)]
      = some ((bareSystem.start [([], 0, .fs), ([], 0, .user)]).get (by decide +kernel)) := by simp
  have hcareful (s : System) : tick.Careful s := ⟨fun c _ hno => absurd hno (by decide), rfl⟩
  exact ⟨_, hstart, round_robin rfl hstart [tick, tick] ⟨hcareful _, fun _ => ⟨hcareful _, fun _ => trivial⟩⟩⟩

/-- `sys_yield`, with a timer interrupt while the kernel goes to the next environment. -/
def yieldInterrupted : Interrupt :=
  ⟨{ newTrapframe with regs := ⟨0, 0, 0, 0, 0, 0, 0, 11⟩, trapno := 48 }, 0, newTrapframe, 0, true⟩

/-- The first program sets its own status to `ENV_RUNNABLE`.  It goes on with that status, and
`sched_yield` finds it before the second program.  And a timer interrupt inside `env_run` lets the
next program execute as `ENV_RUNNABLE`. -/
theorem round_robin_stuck : (¬ ∀ (s t : System) (programs : List (List Segment × BitVec 32 × EnvType)),
    s.curenv = none → s.start programs = some t → ∀ is : List Interrupt, (∀ i ∈ is, i.nested = false) →
      (processor.run is t).RoundRobin ∧
        ∀ e, (processor.run is t).Executes e → ((processor.run is t).envs e).status = .running) ∧
    ∃ t, bareSystem.start [([], 0, .fs), ([], 0, .user)] = some t ∧
      let u := processor.run [tick, yieldInterrupted] t
      u.Executes 1 ∧ (u.envs 1).status = .runnable := by
  have hstart : bareSystem.start [([], 0, .fs), ([], 0, .user)]
      = some ((bareSystem.start [([], 0, .fs), ([], 0, .user)]).get (by decide +kernel)) := by simp
  refine ⟨fun hall => ?_, _, hstart, ?_⟩
  · obtain ⟨hrobin, -⟩ := hall _ _ _ rfl hstart [tick, wakeSelf] (by decide)
    obtain ⟨k, hne, -, -, -, hk⟩ := hrobin 1 (by decide +kernel) (by decide +kernel)
    refine hne ?_
    rw [← hk]
    decide +kernel
  · refine ⟨⟨?_, ?_⟩, ?_⟩
    all_goals decide +kernel

end DamnOS.Kernel
