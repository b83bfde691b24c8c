import DamnOS.Kernel.Boot
import DamnOS.Kernel.EnvTable

/-!
# Privilege of user environments

The kernel resumes an environment with the selectors and flags of its saved trapframe.  Every
function that makes a trapframe uses the user selectors, except that `sys_env_set_trapframe` takes
over the caller's frame as it is.
-/

namespace DamnOS.Kernel

open DamnOS.Framework

/-- A frame that is resumed at CPL 3, and without access to the ports unless that is granted. -/
structure Trapframe.Confined (tf : Trapframe) (ports : Prop) : Prop where
  cs : tf.cs &&& 3 = 3
  ss : tf.ss &&& 3 = 3
  iopl : ¬ ports → tf.eflags &&& FL_IOPL_MASK = 0

/-- The kernel, and a record of the environments that the file server or its offspring forked. -/
structure Tracked where
  sys : System
  forked : Fin NENV → Bool

/-- The environment may use the ports: it is the file server, or was forked by such a one. -/
def Tracked.Ports (k : Tracked) (i : Fin NENV) : Prop :=
  (k.sys.envs i).type = .fs ∨ k.forked i = true

instance (k : Tracked) (i : Fin NENV) : Decidable (k.Ports i) := inferInstanceAs (Decidable (_ ∨ _))

/-- Every environment that is not free is resumed at CPL 3. -/
def Tracked.Confined (k : Tracked) : Prop :=
  ∀ i, (k.sys.envs i).status ≠ .free → (k.sys.envs i).tf.Confined (k.Ports i)

/-- What the processor can push for an environment that it resumed with `old`: user code changes
neither its privilege level nor IOPL. -/
def Trapframe.FollowsUser (tf old : Trapframe) : Prop :=
  tf.cs &&& 3 = old.cs &&& 3 ∧ tf.ss &&& 3 = old.ss &&& 3 ∧
    tf.eflags &&& FL_IOPL_MASK = old.eflags &&& FL_IOPL_MASK

instance (tf old : Trapframe) : Decidable (tf.FollowsUser old) :=
  inferInstanceAs (Decidable (_ ∧ _ ∧ _))

/-- The processor goes to a runnable environment, or the current one traps.  `buf` is the frame in
the caller's buffer, `ch` what the console holds. -/
inductive TrapEvent where
  | run (e : Fin NENV)
  | trap (tf : Trapframe) (faultVa : BitVec 32) (buf : Trapframe) (ch : Int)

/-- The call that a trapped environment makes, if it trapped for one. -/
def Trapframe.call? (tf : Trapframe) (buf : Trapframe) (ch : Int) : Option Call :=
  if tf.trapno.toNat = 48 then
    some (Call.decode tf.regs.eax tf.regs.edx tf.regs.ecx tf.regs.ebx tf.regs.edi tf.regs.esi buf ch)
  else none

/-- The record after a trap: the child of `sys_exofork` inherits its parent's standing. -/
def Tracked.record (k : Tracked) (c : Fin NENV) (a : Option Call) : Fin NENV → Bool :=
  match a, (k.sys.envAlloc (k.sys.envs c).id).1 with
  | some .exofork, .ok e => Function.update k.forked e (decide (k.Ports c))
  | _, _ => k.forked

/-- The trap copies the frame into the environment. -/
def Tracked.save (k : Tracked) (c : Fin NENV) (tf : Trapframe) : Tracked :=
  { k with sys := k.sys.setEnv c { k.sys.envs c with tf := tf } }

def TrapEvent.exec : TrapEvent → Tracked → Option Tracked
  | .run e, k =>
    if (k.sys.envs e).status = .runnable then some { k with sys := k.sys.envRun e } else some k
  | .trap tf faultVa buf ch, k =>
    match k.sys.curenv with
    | none => some k
    | some c =>
      if k.sys.Active c ∧ tf.FollowsUser (k.sys.envs c).tf then
        (k.sys.trap c tf faultVa buf ch).map fun s => ⟨s, (k.save c tf).record c (tf.call? buf ch)⟩
      else some k

def trapMachine : Machine TrapEvent Tracked where
  step i k := (i.exec k).getD k
  halts i k := (i.exec k).isNone

def Tracked.ofSystem (s : System) : Tracked := ⟨s, fun _ => false⟩

/-- A frame given to `sys_env_set_trapframe` is already confined for its target. -/
def TrapEvent.Sanitised (i : TrapEvent) (k : Tracked) : Prop :=
  ∀ tf faultVa buf ch c envid frame e, i = .trap tf faultVa buf ch → k.sys.curenv = some c →
    tf.call? buf ch = some (.envSetTrapframe envid frame) →
    k.sys.envid2env c envid true = some e → frame.Confined (k.Ports e)

/-- What decides about confinement is the same for two environments. -/
structure SameStanding (v w : Env) : Prop where
  cs : w.tf.cs = v.tf.cs
  ss : w.tf.ss = v.tf.ss
  eflags : w.tf.eflags = v.tf.eflags
  type : w.type = v.type

theorem SameStanding.refl (v : Env) : SameStanding v v := ⟨rfl, rfl, rfl, rfl⟩

theorem SameStanding.trans {u v w : Env} (h : SameStanding u v) (h' : SameStanding v w) :
    SameStanding u w :=
  ⟨h'.cs.trans h.cs, h'.ss.trans h.ss, h'.eflags.trans h.eflags, h'.type.trans h.type⟩

/-- No environment is new, and none has other selectors or flags. -/
def KeepsStanding (s t : System) : Prop :=
  ∀ i, t.Live i → s.Live i ∧ SameStanding (s.envs i) (t.envs i)

namespace KeepsStanding

variable {s t u : System}

theorem refl (s : System) : KeepsStanding s s := fun _ hi => ⟨hi, .refl _⟩

theorem trans (h : KeepsStanding s t) (h' : KeepsStanding t u) : KeepsStanding s u := by
  intro i hi
  obtain ⟨ht, hst⟩ := h' i hi
  obtain ⟨hs, hss⟩ := h i ht
  exact ⟨hs, hss.trans hst⟩

private theorem envs_eq (h : t.envs = s.envs) : KeepsStanding s t := by
  intro i hi
  rw [System.Live, h] at hi
  exact ⟨hi, h ▸ .refl _⟩

theorem update {e : Fin NENV} {v : Env} {m : Pmap} {l o : Option (Fin NENV)}
    (hv : SameStanding (s.envs e) v) (hl : v.status ≠ .free → s.Live e) :
    KeepsStanding s ⟨m, Function.update s.envs e v, l, o⟩ := by
  intro i hi
  by_cases h : i = e
  · subst h
    simp only [System.Live, Function.update_self] at hi ⊢
    exact ⟨hl hi, hv⟩
  · simp only [System.Live, Function.update_of_ne h] at hi ⊢
    exact ⟨hi, .refl _⟩

private theorem confined {k : Tracked} (h : KeepsStanding k.sys t) (hk : k.Confined) :
    Tracked.Confined ⟨t, k.forked⟩ := by
  intro i hi
  obtain ⟨hlive, hst⟩ := h i hi
  have hold := hk i hlive
  refine ⟨hst.cs ▸ hold.cs, hst.ss ▸ hold.ss, fun hp => hst.eflags ▸ hold.iopl fun hports => hp ?_⟩
  rcases hports with hfs | hforked
  · exact .inl (hst.type.trans hfs)
  · exact .inr hforked

end KeepsStanding

private theorem Rescheduled.keepsStanding {s t : System} (h : Rescheduled s t) : KeepsStanding s t := by
  intro i hi
  obtain ⟨st, n, he, -⟩ := h.env i
  refine ⟨(h.live i).mp hi, ?_⟩
  rw [he]
  exact ⟨rfl, rfl, rfl, rfl⟩

private theorem keepsStanding_envFree {s t : System} {e : Fin NENV} (h : s.envFree e = some t) :
    KeepsStanding s t := by
  obtain ⟨m, -, rfl⟩ := Option.map_eq_some_iff.mp h
  exact .update ⟨rfl, rfl, rfl, rfl⟩ fun h => absurd rfl h

private theorem keepsStanding_envDestroy {s t : System} {e : Fin NENV} {b : Bool}
    (h : s.envDestroy e = some (b, t)) : KeepsStanding s t := by
  unfold System.envDestroy at h
  split at h
  · next hrun =>
    obtain ⟨-, rfl⟩ := Prod.mk.inj (Option.some.inj h)
    exact .update ⟨rfl, rfl, rfl, rfl⟩ fun _ => by simp [System.Live, hrun.1]
  · obtain ⟨u, hu, hbt⟩ := Option.map_eq_some_iff.mp h
    have hfree := keepsStanding_envFree hu
    split at hbt
    · obtain ⟨-, rfl⟩ := Prod.mk.inj hbt
      exact hfree.trans ((Rescheduled.curenv u none).trans (.schedYield _)).keepsStanding
    · obtain ⟨-, rfl⟩ := Prod.mk.inj hbt
      exact hfree

private theorem keepsStanding_resume {o : Outcome} {c : Fin NENV} {t : System} (h : o.resume c = some t) :
    ∃ u, o.state? = some u ∧ KeepsStanding u t := by
  obtain ⟨u, hu, hsame | ⟨x, hsame⟩⟩ := rescheduled_resume h
  · exact ⟨u, hu, hsame.keepsStanding⟩
  · have hset : KeepsStanding u (u.setEnv c ((u.envs c).setEax x)) :=
      .update ⟨rfl, rfl, rfl, rfl⟩ fun h => h
    exact ⟨u, hu, hset.trans hsame.keepsStanding⟩

private theorem newTrapframe_confined (ports : Prop) : newTrapframe.Confined ports :=
  ⟨by decide, by decide, fun _ => by decide⟩

private theorem envAlloc_standing {s t : System} {parent : BitVec 32} {e : Fin NENV}
    (h : s.envAlloc parent = (.ok e, t)) :
    (t.envs e).tf = newTrapframe ∧ (t.envs e).type = .user ∧ ∀ i ≠ e, t.envs i = s.envs i := by
  unfold System.envAlloc at h
  split at h
  · simp at h
  · next e' he =>
    split at h
    · simp at h
    · next u heq =>
      obtain ⟨hok, rfl⟩ := Prod.mk.inj h
      obtain rfl : e' = e := Except.ok.inj hok
      refine ⟨by simp [System.setEnv], by simp [System.setEnv], fun i hi => ?_⟩
      unfold System.envSetupVm at heq
      split at heq
      · simp at heq
      · obtain ⟨-, rfl⟩ := Prod.mk.inj heq
        simp [System.setEnv, hi]

private theorem Tracked.record_of_ne {k : Tracked} {c : Fin NENV} {a : Call} (h : a ≠ .exofork) :
    k.record c (some a) = k.forked := by
  unfold Tracked.record
  split
  · next hx _ => exact absurd (Option.some.inj hx) h
  · rfl

private theorem Trapframe.Confined.setIf {tf : Trapframe} {ports : Prop} (h : tf.Confined ports) :
    ({ tf with eflags := tf.eflags ||| FL_IF } : Trapframe).Confined ports := by
  refine ⟨h.cs, h.ss, fun hp => ?_⟩
  have hif : FL_IF &&& FL_IOPL_MASK = 0 := by decide
  simp only [BitVec.and_or_distrib_right, h.iopl hp, hif]
  rfl

private theorem Tracked.ports_save (k : Tracked) (e i : Fin NENV) (tf : Trapframe) :
    (k.save e tf).Ports i ↔ k.Ports i := by
  by_cases h : i = e
  · subst h
    simp [Tracked.Ports, Tracked.save]
  · simp [Tracked.Ports, Tracked.save, k.sys.setEnv_envs_of_ne h]

private theorem Tracked.Confined.setFrame {k : Tracked} (hk : k.Confined) {e : Fin NENV} {tf : Trapframe}
    (htf : tf.Confined (k.Ports e)) :
    (k.save e tf).Confined := by
  intro i hi
  rw [propext (k.ports_save e i tf)]
  by_cases h : i = e
  · subst h
    simpa [Tracked.save] using htf
  · simp only [Tracked.save, k.sys.setEnv_envs_of_ne h] at hi ⊢
    exact hk i hi

private theorem CallEffect.confined {k : Tracked} {t : System} {c : Fin NENV} {a : Call} {o : Outcome}
    (h : CallEffect k.sys c a o) (hk : k.Confined) (hc : k.sys.Live c)
    (hsan : ∀ envid frame e, a = .envSetTrapframe envid frame →
      k.sys.envid2env c envid true = some e → frame.Confined (k.Ports e))
    (ho : o.state? = some t) : Tracked.Confined ⟨t, k.record c (some a)⟩ := by
  have quiet (h : KeepsStanding k.sys t) (ha : a ≠ .exofork) :
      Tracked.Confined ⟨t, k.record c (some a)⟩ := by
    rw [Tracked.record_of_ne ha]
    exact h.confined hk
  cases h with
  | panic => simp [Outcome.state?] at ho
  | quiet ha _ m =>
    obtain rfl : _ = t := Option.some.inj ho
    exact quiet (.envs_eq rfl) (by rintro rfl; simp [Call.isSpecial] at ha)
  | destroy b he ht =>
    obtain rfl : _ = t := by cases b <;> exact Option.some.inj ho
    exact quiet (keepsStanding_envDestroy ht) (by simp)
  | noChild _ ht =>
    obtain rfl : _ = t := Option.some.inj ho
    rw [envAlloc_error ht]
    have hrec : k.record c (some .exofork) = k.forked := by
      unfold Tracked.record
      rw [ht]
    rw [hrec]
    exact hk
  | @child e u ht =>
    obtain rfl : _ = t := Option.some.inj ho
    obtain ⟨htf, htype, hother⟩ := envAlloc_standing ht
    have hrec : k.record c (some .exofork) = Function.update k.forked e (decide (k.Ports c)) := by
      unfold Tracked.record
      rw [ht]
    rw [hrec]
    intro i hi
    by_cases hie : i = e
    · subst hie
      -- the child has the frame of its parent, and its parent's standing
      have hparent : (u.envs c).tf.Confined (k.Ports c) := by
        by_cases hci : c = i
        · rw [hci, htf]
          exact newTrapframe_confined _
        · rw [hother c hci]
          exact hk c hc
      refine ⟨by simpa [System.setEnv, Env.child] using hparent.cs,
        by simpa [System.setEnv, Env.child] using hparent.ss, fun hp => ?_⟩
      have hnot : ¬ k.Ports c := fun hpc => hp (.inr (by simpa using hpc))
      simpa [System.setEnv, Env.child] using hparent.iopl hnot
    · have heq : (u.setEnv e ((u.envs e).child (u.envs c))).envs i = k.sys.envs i := by
        rw [u.setEnv_envs_of_ne hie, hother i hie]
      have hports : Tracked.Ports ⟨u.setEnv e ((u.envs e).child (u.envs c)),
          Function.update k.forked e (decide (k.Ports c))⟩ i ↔ k.Ports i := by
        simp only [Tracked.Ports, heq, Function.update_of_ne hie]
      simp only [heq] at hi ⊢
      have hold := hk i hi
      exact ⟨hold.cs, hold.ss, fun hp => hold.iopl fun hq => hp (hports.mpr hq)⟩
  | setStatus st he hst =>
    obtain rfl : _ = t := Option.some.inj ho
    have hlive := live_of_envid2env he hc
    exact quiet (.update ⟨rfl, rfl, rfl, rfl⟩ fun _ => hlive) (by simp)
  | @setTrapframe envid tf e he =>
    obtain rfl : _ = t := Option.some.inj ho
    have hframe := hsan envid tf e rfl he
    rw [Tracked.record_of_ne (by simp)]
    exact hk.setFrame hframe.setIf
  | setUpcall he =>
    obtain rfl : _ = t := Option.some.inj ho
    exact quiet (.update ⟨rfl, rfl, rfl, rfl⟩ fun h => h) (by simp)
  | yield =>
    obtain rfl : _ = t := Option.some.inj ho
    exact quiet ((Rescheduled.schedYield _).keepsStanding) (by simp)
  | unsent _ _ =>
    obtain rfl : _ = t := Option.some.inj ho
    exact quiet (.refl _) (by simp)
  | refused _ m p he hrecv _ =>
    obtain rfl : _ = t := Option.some.inj ho
    exact quiet (.update ⟨rfl, rfl, rfl, rfl⟩ fun h => h) (by simp)
  | deliver m p he hrecv =>
    obtain rfl : _ = t := Option.some.inj ho
    have hlive := live_of_envid2env he hc
    exact quiet (.update ⟨rfl, rfl, rfl, rfl⟩ fun _ => hlive) (by simp)
  | @receive dstva =>
    obtain rfl : _ = t := Option.some.inj ho
    have hset : KeepsStanding k.sys (k.sys.setEnv c ((k.sys.envs c).waiting dstva.toNat)) :=
      .update ⟨rfl, rfl, rfl, rfl⟩ fun _ => hc
    exact quiet (hset.trans ((Rescheduled.schedYield _).keepsStanding)) (by simp)

private theorem Tracked.envid2env_save (k : Tracked) (c : Fin NENV) (tf : Trapframe) (envid : BitVec 32)
    (checkperm : Bool) :
    (k.save c tf).sys.envid2env c envid checkperm = k.sys.envid2env c envid checkperm := by
  have hid (i : Fin NENV) : ((k.save c tf).sys.envs i).id = (k.sys.envs i).id ∧
      ((k.save c tf).sys.envs i).status = (k.sys.envs i).status ∧
      ((k.save c tf).sys.envs i).parentId = (k.sys.envs i).parentId := by
    by_cases h : i = c
    · subst h
      simp [Tracked.save]
    · simp [Tracked.save, k.sys.setEnv_envs_of_ne h]
  simp only [System.envid2env, (hid _).1, (hid _).2.1, (hid _).2.2]

theorem Trapframe.Confined.follows {tf old : Trapframe} {ports : Prop} (h : old.Confined ports)
    (hf : tf.FollowsUser old) : tf.Confined ports :=
  ⟨hf.1.trans h.cs, hf.2.1.trans h.ss, fun hp => hf.2.2.trans (h.iopl hp)⟩

private theorem keepsStanding_pageFault {s t : System} {c : Fin NENV} {faultVa : BitVec 32}
    (h : s.pageFaultHandler c faultVa = some t) : KeepsStanding s t := by
  simp only [System.pageFaultHandler] at h
  split_ifs at h
  · obtain ⟨m, -, rfl⟩ := Option.map_eq_some_iff.mp h
    exact .update ⟨rfl, rfl, rfl, rfl⟩ fun h => h
  · obtain ⟨⟨b, u⟩, hd, rfl⟩ := Option.map_eq_some_iff.mp h
    exact keepsStanding_envDestroy hd

private theorem keepsStanding_trapDispatch {s t : System} {c : Fin NENV} {faultVa : BitVec 32}
    {buf : Trapframe} {ch : Int} (h : s.trapDispatch c faultVa buf ch = some t)
    (hno : (s.envs c).tf.trapno.toNat ≠ 48) : KeepsStanding s t := by
  unfold System.trapDispatch at h
  split at h
  · exact keepsStanding_pageFault h
  · next h48 => exact absurd h48 hno
  · obtain rfl : _ = t := Option.some.inj h
    exact (Rescheduled.schedYield s).keepsStanding
  · obtain rfl : _ = t := Option.some.inj h
    exact (Rescheduled.trapReturn s).keepsStanding
  · obtain rfl : _ = t := Option.some.inj h
    exact (Rescheduled.trapReturn s).keepsStanding
  · obtain rfl : _ = t := Option.some.inj h
    exact (Rescheduled.trapReturn s).keepsStanding
  · obtain rfl : _ = t := Option.some.inj h
    exact (Rescheduled.trapReturn s).keepsStanding
  · split at h
    · simp at h
    · next u hd =>
      obtain rfl : _ = t := Option.some.inj h
      exact (keepsStanding_envDestroy hd).trans (Rescheduled.trapReturn u).keepsStanding
    · next u hd =>
      obtain rfl : _ = t := Option.some.inj h
      exact keepsStanding_envDestroy hd

private theorem System.trapDispatch_syscall (s : System) (c : Fin NENV) (faultVa : BitVec 32)
    (buf : Trapframe) (ch : Int) (h : (s.envs c).tf.trapno.toNat = 48) :
    let r := (s.envs c).tf.regs
    s.trapDispatch c faultVa buf ch
      = ((Call.decode r.eax r.edx r.ecx r.ebx r.edi r.esi buf ch).exec s c).resume c := by
  simp [System.trapDispatch, h, System.trapSyscall]

private theorem Tracked.record_none (k : Tracked) (c : Fin NENV) : k.record c none = k.forked := rfl

theorem Tracked.Confined.trap {k : Tracked} {t : System} {c : Fin NENV} {tf buf : Trapframe}
    {faultVa : BitVec 32} {ch : Int} (hk : k.Confined) (hc : k.sys.Active c)
    (hf : tf.FollowsUser (k.sys.envs c).tf)
    (hsan : ∀ envid frame e, tf.call? buf ch = some (.envSetTrapframe envid frame) →
      k.sys.envid2env c envid true = some e → frame.Confined (k.Ports e))
    (h : k.sys.trap c tf faultVa buf ch = some t) :
    Tracked.Confined ⟨t, (k.save c tf).record c (tf.call? buf ch)⟩ := by
  have hsave : (k.save c tf).Confined := hk.setFrame ((hk c hc.live).follows hf)
  have hframe : ((k.save c tf).sys.envs c).tf = tf := by simp [Tracked.save]
  have hlive : (k.save c tf).sys.Live c := by
    simpa [System.Live, Tracked.save] using hc.live
  have hdying : (k.sys.envs c).status ≠ .dying := by
    rcases hc with h | h <;> simp [h]
  have hcs : tf.cs &&& 3 = 3 := ((hk c hc.live).follows hf).cs
  rw [System.trap, if_pos hcs, if_neg hdying] at h
  by_cases hno : tf.trapno.toNat = 48
  · have hcall : tf.call? buf ch = some (Call.decode tf.regs.eax tf.regs.edx tf.regs.ecx tf.regs.ebx
        tf.regs.edi tf.regs.esi buf ch) := if_pos hno
    have hx : ((Call.decode tf.regs.eax tf.regs.edx tf.regs.ecx tf.regs.ebx tf.regs.edi tf.regs.esi
        buf ch).exec (k.save c tf).sys c).resume c = some t := by
      have hd := System.trapDispatch_syscall (k.save c tf).sys c faultVa buf ch (by rw [hframe, hno])
      rw [hframe] at hd
      exact hd ▸ h
    rw [hcall] at hsan ⊢
    generalize Call.decode tf.regs.eax tf.regs.edx tf.regs.ecx tf.regs.ebx tf.regs.edi tf.regs.esi
      buf ch = a at hsan hcall hx ⊢
    obtain ⟨u, hu, hkeep⟩ := keepsStanding_resume hx
    have hstep := (a.effect (k.save c tf).sys c).confined hsave hlive ?_ hu
    · exact hkeep.confined hstep
    · intro envid frame e ha he
      rw [Tracked.envid2env_save] at he
      rw [propext (k.ports_save c e tf)]
      exact hsan envid frame e (by rw [ha]) he
  · have hcall : tf.call? buf ch = none := if_neg hno
    rw [hcall, Tracked.record_none]
    exact (keepsStanding_trapDispatch h (by rwa [← hframe] at hno)).confined hsave

private theorem envCreate_confined {s t : System} {segments : List Segment} {entryPoint : BitVec 32}
    {type : EnvType} (hs : (Tracked.ofSystem s).Confined)
    (h : s.envCreate segments entryPoint type = some t) : (Tracked.ofSystem t).Confined := by
  unfold System.envCreate at h
  split at h
  · simp at h
  · next e u hu =>
    obtain ⟨htf, -, hother⟩ := envAlloc_standing hu
    obtain ⟨m, -, rfl⟩ := Option.map_eq_some_iff.mp h
    intro i hi
    by_cases hie : i = e
    · subst hie
      cases type with
      | user =>
        refine ⟨?_, ?_, fun _ => ?_⟩
        all_goals simp [Tracked.ofSystem, System.setEnv, htf]; decide
      | fs =>
        refine ⟨?_, ?_, fun hp => absurd ?_ hp⟩
        · simp [Tracked.ofSystem, System.setEnv, htf]; decide
        · simp [Tracked.ofSystem, System.setEnv, htf]; decide
        · exact .inl (by simp [Tracked.ofSystem, System.setEnv])
    · simp only [Tracked.ofSystem, Tracked.Ports, System.setEnv, Function.update_of_ne hie,
        hother i hie] at hi ⊢
      exact hs i hi

private theorem start_confined {s t : System} {programs : List (List Segment × BitVec 32 × EnvType)}
    (h : s.start programs = some t) : (Tracked.ofSystem t).Confined := by
  have hfree : ∀ i, ¬ s.envInit.Live i := fun i =>
    ((envInit_envTable s).free i).mp (List.mem_finRange i)
  unfold System.start at h
  generalize s.envInit = u at h hfree
  have hinit : (Tracked.ofSystem u).Confined := fun i hi => absurd hi (hfree i)
  clear hfree
  induction programs generalizing u with
  | nil =>
    obtain rfl : u = t := Option.some.inj h
    exact hinit
  | cons p programs ih =>
    obtain ⟨v, hv, hrest⟩ := Option.bind_eq_some_iff.mp h
    exact ih v hrest (envCreate_confined hinit hv)

/-- After boot, and as long as every frame given to `sys_env_set_trapframe` is fit for user mode,
every environment is resumed at CPL 3, and only the file server and its offspring hold IOPL. -/
theorem user_privilege {s₀ s : System} {programs : List (List Segment × BitVec 32 × EnvType)}
    (hstart : s₀.start programs = some s) (events : List TrapEvent)
    (h : trapMachine.Along TrapEvent.Sanitised events (.ofSystem s)) :
    (trapMachine.run events (.ofSystem s)).Confined := by
  refine Machine.run_invariant (I := Tracked.Confined) ?_ (start_confined hstart) h
  intro i k hk hsan
  cases hx : i.exec k with
  | none => simpa [trapMachine, hx] using hk
  | some k' =>
    simp only [trapMachine, hx, Option.getD_some]
    cases i with
    | run e =>
      simp only [TrapEvent.exec] at hx
      split at hx
      · next hrun =>
        obtain rfl : _ = k' := Option.some.inj hx
        exact (Rescheduled.envRun (by simp [System.Live, hrun])).keepsStanding.confined hk
      · obtain rfl : _ = k' := Option.some.inj hx
        exact hk
    | trap tf faultVa buf ch =>
      simp only [TrapEvent.exec] at hx
      split at hx
      · obtain rfl : _ = k' := Option.some.inj hx
        exact hk
      · next c hc =>
        split at hx
        · next hact =>
          obtain ⟨t, ht, rfl⟩ := Option.map_eq_some_iff.mp hx
          exact hk.trap hact.1 hact.2
            (fun envid frame e => hsan tf faultVa buf ch c envid frame e rfl hc) ht
        · obtain rfl : _ = k' := Option.some.inj hx
          exact hk

/-- A program asks, with the number of `sys_env_set_trapframe` in `eax`, for a frame of its own. -/
def askForFrame : Trapframe :=
  { newTrapframe with regs := ⟨0, 0, 0, 0, 0, 0, 0, 9⟩, trapno := 48, eflags := 0 }

theorem user_privilege_own_frame :
    ∃ s, bareSystem.start [([], 0, .user)] = some s ∧
      (trapMachine.run [.run 0, .trap askForFrame 0 newTrapframe 0] (.ofSystem s)).Confined := by
  have hstart : bareSystem.start [([], 0, .user)]
      = some ((bareSystem.start [([], 0, .user)]).get (by decide +kernel)) := by simp
  refine ⟨_, hstart, user_privilege hstart _ ⟨?_, fun _ => ⟨?_, fun _ => trivial⟩⟩⟩
  · intro tf faultVa buf ch c envid frame e h
    cases h
  · intro tf faultVa buf ch c envid frame e h _ hcall _
    cases h
    have hframe : askForFrame.call? newTrapframe 0 = some (.envSetTrapframe 0 newTrapframe) := rfl
    rw [hframe] at hcall
    cases hcall
    exact newTrapframe_confined _

/-- With the kernel's code segment in the frame, the program is resumed in ring 0. -/
theorem forged_frame_ring0 :
    ∃ s, bareSystem.start [([], 0, .user)] = some s ∧
      ¬ (trapMachine.run [.run 0, .trap askForFrame 0 { newTrapframe with cs := 0x08 } 0]
        (.ofSystem s)).Confined := by
  refine ⟨(bareSystem.start [([], 0, .user)]).get (by decide +kernel), by simp, fun h => ?_⟩
  have hcs := (h 0 (by decide +kernel)).cs
  revert hcs
  decide +kernel

end DamnOS.Kernel
