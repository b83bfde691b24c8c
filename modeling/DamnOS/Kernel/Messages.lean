import DamnOS.Kernel.Boot
import DamnOS.Kernel.EnvTable

/-!
# Messages between environments

`env_ipc_recving` guards a receiver: a send that succeeds closes it, and only the receiver itself
opens it again.  A send that fails after the guard was closed leaves it closed.
-/

namespace DamnOS.Kernel

open DamnOS.Framework

/-- Two states agree on an environment: its fields, and the entries of its page tables. -/
def SameEnv (s t : System) (e : Fin NENV) : Prop :=
  t.envs e = s.envs e ∧
    ∀ va < UTOP, t.pmap.pageLookup (t.envs e).pgdir va = s.pmap.pageLookup (s.envs e).pgdir va ∧
      ∀ p pt i, s.pmap.pageLookup (s.envs e).pgdir va = some (p, pt, i) →
        t.pmap.mem pt i = s.pmap.mem pt i

/-- A send that returns a negative value leaves its target as it was. -/
def FailsInvisibly (s : System) (c : Fin NENV) (envid value srcva perm : BitVec 32) : Prop :=
  ∀ r t e, s.sysIpcTrySend c envid value srcva perm = .returns r t → r < 0 →
    s.envid2env c envid false = some e → SameEnv s t e

/-- The arguments of a send pass all checks, and the page table for the receiver's address exists
or can be allocated. -/
def SendAccepted (s : System) (c e : Fin NENV) (srcva perm : BitVec 32) : Prop :=
  UTOP ≤ srcva.toNat ∨
    srcva.toNat % PGSIZE = 0 ∧ permValid perm.toNat = true ∧
      ∃ p pt i, s.pmap.pageLookup (s.envs c).pgdir srcva.toNat = some (p, pt, i) ∧
        (perm.toNat &&& PTE_W ≠ 0 → s.pmap.mem pt i &&& PTE_W ≠ 0) ∧
        ((s.envs e).ipcDstva < UTOP →
          s.pmap.mem (s.envs e).pgdir (PDX (s.envs e).ipcDstva) ≠ 0 ∨ s.pmap.pageFreeList ≠ none)

theorem SameEnv.refl (s : System) (e : Fin NENV) : SameEnv s s e :=
  ⟨rfl, fun _ _ => ⟨rfl, fun _ _ _ _ => rfl⟩⟩

section Send

variable {s : System} {c e : Fin NENV} {envid value srcva perm : BitVec 32}

private theorem pgdir_marked (s : System) (e i : Fin NENV) :
    ((s.setEnv e { s.envs e with ipcRecving := false }).envs i).pgdir = (s.envs i).pgdir := by
  by_cases h : i = e
  · subst h
    simp
  · rw [s.setEnv_envs_of_ne h]

theorem sysIpcTrySend_open (he : s.envid2env c envid false = some e)
    (hrecv : (s.envs e).ipcRecving = true) :
    s.sysIpcTrySend c envid value srcva perm =
      if srcva.toNat < UTOP then
        (s.setEnv e { s.envs e with ipcRecving := false }).sendPage c e value srcva perm
      else .returns 0 ((s.setEnv e { s.envs e with ipcRecving := false }).deliver c e value) := by
  simp [System.sysIpcTrySend, he, hrecv]

private theorem sysIpcTrySend_accepted (he : s.envid2env c envid false = some e)
    (hrecv : (s.envs e).ipcRecving = true) (ha : SendAccepted s c e srcva perm) {r : Int}
    {t : System} (h : s.sysIpcTrySend c envid value srcva perm = .returns r t) : r = 0 := by
  rw [sysIpcTrySend_open he hrecv] at h
  rcases ha with hhigh | ⟨halign, hperm, p, pt, i, hlook, hw, hroom⟩
  · rw [if_neg (by omega)] at h
    exact (Outcome.returns.inj h).1.symm
  · split at h
    · have hlook' : (s.setEnv e { s.envs e with ipcRecving := false }).pmap.pageLookup
          ((s.setEnv e { s.envs e with ipcRecving := false }).envs c).pgdir srcva.toNat
            = some (p, pt, i) := by
        rw [pgdir_marked]
        exact hlook
      have hmem : (s.setEnv e { s.envs e with ipcRecving := false }).pmap.mem = s.pmap.mem := rfl
      have hwrite : ¬ (perm.toNat &&& PTE_W ≠ 0 ∧ s.pmap.mem pt i &&& PTE_W = 0) :=
        fun hc => hw hc.1 hc.2
      simp only [System.sendPage, hlook', halign, hperm, hmem] at h
      rw [if_neg (by simp), if_neg (by simp), if_neg hwrite] at h
      split at h
      · next hlow =>
        split at h
        · simp at h
        · next m hins =>
          obtain ⟨-, -, h0, hl⟩ | ⟨hb, -⟩ := Pmap.pageInsert_cases hins
          · simp only [System.setEnv_envs_self] at hlow h0
            exact absurd (hroom hlow) (by simpa [System.setEnv] using ⟨h0, hl⟩)
          · simp at hb
        · exact (Outcome.returns.inj h).1.symm
      · exact (Outcome.returns.inj h).1.symm
    · exact (Outcome.returns.inj h).1.symm

private theorem sysIpcTrySend_rejected (value : BitVec 32) (he : s.envid2env c envid false = some e)
    (hrecv : (s.envs e).ipcRecving = true) (ha : ¬ SendAccepted s c e srcva perm) :
    ∃ r t, s.sysIpcTrySend c envid value srcva perm = .returns r t ∧ r < 0 ∧
      (t.envs e).ipcRecving = false := by
  have hlow : srcva.toNat < UTOP := by
    by_contra hhigh
    exact ha (.inl (by omega))
  have hinval : -E_INVAL < 0 := by decide
  rw [sysIpcTrySend_open he hrecv, if_pos hlow, System.sendPage]
  split
  · exact ⟨_, _, rfl, hinval, by simp⟩
  · next halign =>
    split
    · exact ⟨_, _, rfl, hinval, by simp⟩
    · next hperm =>
      rw [pgdir_marked]
      split
      · exact ⟨_, _, rfl, hinval, by simp⟩
      · next p pt i hlook =>
        split
        · exact ⟨_, _, rfl, hinval, by simp⟩
        · next hw =>
          -- every check has passed, so it is the page table that is missing
          have hroom : ¬ ((s.envs e).ipcDstva < UTOP →
              s.pmap.mem (s.envs e).pgdir (PDX (s.envs e).ipcDstva) ≠ 0 ∨
                s.pmap.pageFreeList ≠ none) := by
            intro hroom
            refine ha (.inr ⟨by simpa using halign, by simpa using hperm, p, pt, i, hlook, ?_, hroom⟩)
            intro hp hz
            exact hw ⟨hp, hz⟩
          push Not at hroom
          obtain ⟨hdst, h0, hl⟩ := hroom
          have hins : s.pmap.pageInsert (s.envs e).pgdir p (s.envs e).ipcDstva perm.toNat
              = some (false, s.pmap) := Pmap.pageInsert_full h0 hl
          rw [if_pos (by simpa using hdst)]
          simp only [System.setEnv_envs_self]
          have hpm : (s.setEnv e { s.envs e with ipcRecving := false }).pmap = s.pmap := rfl
          rw [hpm, hins]
          exact ⟨_, _, rfl, by decide, by simp [System.setEnv]⟩

/-- Failed sends are invisible exactly when no send that a waiting receiver could take is turned
down by a later check. -/
theorem failsInvisibly_iff (s : System) (c : Fin NENV) (envid value srcva perm : BitVec 32) :
    FailsInvisibly s c envid value srcva perm ↔
      ∀ e, s.envid2env c envid false = some e → (s.envs e).ipcRecving = true →
        SendAccepted s c e srcva perm := by
  constructor
  · intro h e he hrecv
    by_contra ha
    obtain ⟨r, t, hret, hr, hclosed⟩ := sysIpcTrySend_rejected value he hrecv ha
    have hsame := (h r t e hret hr he).1
    rw [hsame, hrecv] at hclosed
    simp at hclosed
  · intro h r t e hret hr he
    cases hrecv : (s.envs e).ipcRecving with
    | true =>
      have := sysIpcTrySend_accepted he hrecv (h e he hrecv) hret
      omega
    | false =>
      obtain rfl : s = t := by
        simp only [System.sysIpcTrySend, he, hrecv] at hret
        exact (Outcome.returns.inj hret).2
      exact .refl s e

/-- The program sends an unaligned address: the send fails, and the server stays blocked with its
guard closed. -/
theorem unaligned_send_visible : ¬ FailsInvisibly sampleSystem 1 (nextEnvId 0 0) 7 1 0 := by
  intro h
  have hret : sampleSystem.sysIpcTrySend 1 (nextEnvId 0 0) 7 1 0
      = .returns (-E_INVAL) (sampleSystem.setEnv 0 { serverEnv with ipcRecving := false }) := rfl
  have hsame := (h _ _ 0 hret (by decide) (by decide)).1
  have hguard := congrArg Env.ipcRecving hsame
  simp [sampleSystem, serverEnv] at hguard

end Send

/-- The event is a send by the current environment to `r` that succeeds. -/
def Event.SendsTo (i : Event) (s : System) (r sender : Fin NENV) (value : BitVec 32) : Prop :=
  s.curenv = some sender ∧ s.Active sender ∧
    ∃ envid srcva perm t, i = .call (.ipcTrySend envid value srcva perm) ∧
      s.envid2env sender envid false = some r ∧
      s.sysIpcTrySend sender envid value srcva perm = .returns 0 t

/-- The event is a `sys_ipc_recv` by `r` that the kernel accepts. -/
def Event.ReceivesBy (i : Event) (s : System) (r : Fin NENV) : Prop :=
  s.curenv = some r ∧ s.Active r ∧
    ∃ dstva, i = .call (.ipcRecv dstva) ∧ ¬ (dstva.toNat < UTOP ∧ dstva.toNat % PGSIZE ≠ 0)

/-- A step that leaves the message in `r` alone and does not open its guard. -/
structure KeepsMessage (s t : System) (r : Fin NENV) : Prop where
  sender : (t.envs r).ipcFrom = (s.envs r).ipcFrom
  value : (t.envs r).ipcValue = (s.envs r).ipcValue
  guard : (s.envs r).ipcRecving = false → (t.envs r).ipcRecving = false

namespace KeepsMessage

variable {s t u : System} {r : Fin NENV}

theorem refl (s : System) (r : Fin NENV) : KeepsMessage s s r := ⟨rfl, rfl, fun h => h⟩

theorem trans (h : KeepsMessage s t r) (h' : KeepsMessage t u r) : KeepsMessage s u r :=
  ⟨h'.sender.trans h.sender, h'.value.trans h.value, fun hg => h'.guard (h.guard hg)⟩

theorem pmap (s : System) (m : Pmap) (r : Fin NENV) : KeepsMessage s { s with pmap := m } r :=
  ⟨rfl, rfl, fun h => h⟩

theorem curenv (s : System) (o : Option (Fin NENV)) (r : Fin NENV) :
    KeepsMessage s { s with curenv := o } r := ⟨rfl, rfl, fun h => h⟩

/-- One environment changes, but neither its message nor its guard to open. -/
theorem update {e : Fin NENV} {v : Env} {m : Pmap} {l o : Option (Fin NENV)}
    (hs : v.ipcFrom = (s.envs e).ipcFrom) (hv : v.ipcValue = (s.envs e).ipcValue)
    (hg : (s.envs e).ipcRecving = false → v.ipcRecving = false) :
    KeepsMessage s ⟨m, Function.update s.envs e v, l, o⟩ r := by
  by_cases h : r = e
  · subst h
    exact ⟨by simpa using hs, by simpa using hv, by simpa using hg⟩
  · exact ⟨by simp [h], by simp [h], by simp [h]⟩

theorem other {e : Fin NENV} {v : Env} {m : Pmap} {l o : Option (Fin NENV)} (h : r ≠ e) :
    KeepsMessage s ⟨m, Function.update s.envs e v, l, o⟩ r :=
  ⟨by simp [h], by simp [h], by simp [h]⟩

end KeepsMessage

private theorem Rescheduled.keepsMessage {s t : System} (h : Rescheduled s t) (r : Fin NENV) :
    KeepsMessage s t r := by
  obtain ⟨st, n, he, -⟩ := h.env r
  exact ⟨by rw [he], by rw [he], fun hg => by rw [he]; exact hg⟩

private theorem keepsMessage_envDestroy {s t : System} {e : Fin NENV} {b : Bool} (r : Fin NENV)
    (h : s.envDestroy e = some (b, t)) : KeepsMessage s t r := by
  unfold System.envDestroy System.envFree at h
  split at h
  · obtain ⟨-, rfl⟩ := Prod.mk.inj (Option.some.inj h)
    exact .update rfl rfl fun h => h
  · obtain ⟨u, hu, hbt⟩ := Option.map_eq_some_iff.mp h
    obtain ⟨m, -, rfl⟩ := Option.map_eq_some_iff.mp hu
    have hfree : KeepsMessage s ⟨m, Function.update s.envs e { s.envs e with
        pgdir := 0, status := .free, link := s.envFreeList }, some e, s.curenv⟩ r :=
      .update rfl rfl fun h => h
    split at hbt
    · obtain ⟨-, rfl⟩ := Prod.mk.inj hbt
      exact (hfree.trans (.curenv _ none r)).trans ((Rescheduled.schedYield _).keepsMessage r)
    · obtain ⟨-, rfl⟩ := Prod.mk.inj hbt
      exact hfree

private theorem keepsMessage_envAlloc (s : System) (parent : BitVec 32) (r : Fin NENV) :
    KeepsMessage s (s.envAlloc parent).2 r := by
  unfold System.envAlloc
  split
  · exact .refl s r
  · next e _ =>
    have hsetup : KeepsMessage s (s.envSetupVm e).2 r := by
      unfold System.envSetupVm
      split
      · exact .pmap s _ r
      · exact .update rfl rfl fun h => h
    split
    · next heq =>
      rw [heq] at hsetup
      exact hsetup
    · next u heq =>
      rw [heq] at hsetup
      exact hsetup.trans (.update rfl rfl fun _ => rfl)

/-- A call keeps the message of an environment whose guard is closed, unless it is the receive of
that environment itself. -/
theorem CallEffect.keepsMessage {s t : System} {c r : Fin NENV} {a : Call} {o : Outcome}
    (h : CallEffect s c a o) (hg : (s.envs r).ipcRecving = false)
    (hr : ∀ dstva, a = .ipcRecv dstva → (∃ u, o = .leaves u) → c ≠ r) (ho : o.state? = some t) :
    KeepsMessage s t r := by
  cases h with
  | panic => simp [Outcome.state?] at ho
  | quiet ha _ m =>
    obtain rfl : _ = t := Option.some.inj ho
    exact .pmap s m r
  | destroy b he ht =>
    obtain rfl : _ = t := by cases b <;> exact Option.some.inj ho
    exact keepsMessage_envDestroy r ht
  | noChild _ ht =>
    obtain rfl : _ = t := Option.some.inj ho
    have := keepsMessage_envAlloc s (s.envs c).id r
    rwa [ht] at this
  | child ht =>
    obtain rfl : _ = t := Option.some.inj ho
    have := keepsMessage_envAlloc s (s.envs c).id r
    rw [ht] at this
    exact this.trans (.update rfl rfl fun h => h)
  | setStatus st he hst =>
    obtain rfl : _ = t := Option.some.inj ho
    exact .update rfl rfl fun h => h
  | setTrapframe he =>
    obtain rfl : _ = t := Option.some.inj ho
    exact .update rfl rfl fun h => h
  | setUpcall he =>
    obtain rfl : _ = t := Option.some.inj ho
    exact .update rfl rfl fun h => h
  | yield =>
    obtain rfl : _ = t := Option.some.inj ho
    exact (Rescheduled.schedYield s).keepsMessage r
  | unsent _ _ =>
    obtain rfl : _ = t := Option.some.inj ho
    exact .refl s r
  | refused _ m p he hrecv _ =>
    obtain rfl : _ = t := Option.some.inj ho
    exact .update rfl rfl fun _ => rfl
  | deliver m p he hrecv =>
    obtain rfl : _ = t := Option.some.inj ho
    -- the guard of `r` is closed, so the message went to somebody else
    refine .other fun hre => ?_
    rw [hre, hrecv] at hg
    simp at hg
  | @receive dstva =>
    obtain rfl : _ = t := Option.some.inj ho
    have hne : r ≠ c := (hr dstva rfl ⟨_, rfl⟩).symm
    exact KeepsMessage.trans (t := s.setEnv c ((s.envs c).waiting dstva.toNat)) (.other hne)
      ((Rescheduled.schedYield _).keepsMessage r)

private theorem keepsMessage_resume {o : Outcome} {c : Fin NENV} {t : System} (r : Fin NENV)
    (h : o.resume c = some t) : ∃ u, o.state? = some u ∧ KeepsMessage u t r := by
  obtain ⟨u, hu, hsame | ⟨x, hsame⟩⟩ := rescheduled_resume h
  · exact ⟨u, hu, hsame.keepsMessage r⟩
  · have hset : KeepsMessage u (u.setEnv c ((u.envs c).setEax x)) r := .update rfl rfl fun h => h
    exact ⟨u, hu, hset.trans (hsame.keepsMessage r)⟩

private theorem Event.keepsMessage {s t : System} {i : Event} {r : Fin NENV}
    (hg : (s.envs r).ipcRecving = false) (hr : ¬ i.ReceivesBy s r) (h : i.exec s = some t) :
    KeepsMessage s t r := by
  cases i with
  | run e =>
    simp only [Event.exec] at h
    split at h
    · next hrun =>
      obtain rfl : _ = t := Option.some.inj h
      exact (Rescheduled.envRun (by simp [System.Live, hrun])).keepsMessage r
    · obtain rfl : _ = t := Option.some.inj h
      exact .refl s r
  | call a =>
    simp only [Event.exec] at h
    split at h
    · obtain rfl : _ = t := Option.some.inj h
      exact .refl s r
    · next c hc =>
      split at h
      · next hact =>
        obtain ⟨u, hu, hkeep⟩ := keepsMessage_resume r h
        refine ((a.effect s c).keepsMessage hg ?_ hu).trans hkeep
        rintro dstva rfl ⟨v, hv⟩ rfl
        refine hr ⟨hc, hact, dstva, rfl, fun hbad => ?_⟩
        simp [Call.exec, System.sysIpcRecv, hbad] at hv
      · obtain rfl : _ = t := Option.some.inj h
        exact .refl s r

/-- A send succeeds only through an open guard, and leaves sender and value in the receiver. -/
theorem Event.SendsTo.open {i : Event} {s : System} {r c : Fin NENV} {value : BitVec 32}
    (h : i.SendsTo s r c value) : (s.envs r).ipcRecving = true := by
  obtain ⟨-, -, envid, srcva, perm, t, rfl, he, hret⟩ := h
  by_contra hclosed
  have hclosed : (s.envs r).ipcRecving = false := by simpa using hclosed
  simp only [System.sysIpcTrySend, he, hclosed] at hret
  exact absurd (Outcome.returns.inj hret).1 (by decide)

theorem Event.SendsTo.exec {i : Event} {s t : System} {r c : Fin NENV} {value : BitVec 32}
    (h : i.SendsTo s r c value) (ht : i.exec s = some t) :
    (t.envs r).ipcRecving = false ∧ (t.envs r).ipcFrom = (s.envs c).id ∧
      (t.envs r).ipcValue = value := by
  obtain ⟨hc, hact, envid, srcva, perm, u, rfl, he, hret⟩ := h
  simp only [Event.exec, hc, hact, if_true, Call.exec, hret] at ht
  obtain ⟨u', hu', hkeep⟩ := keepsMessage_resume r ht
  obtain rfl : u = u' := Option.some.inj hu'
  have heff := Call.effect s c (.ipcTrySend envid value srcva perm)
  simp only [Call.exec, hret] at heff
  generalize ho : Outcome.returns 0 u = o at heff
  cases heff with
  | panic => simp at ho
  | quiet ha => simp [Call.isSpecial] at ha
  | unsent x hx => obtain ⟨rfl, -⟩ := Outcome.returns.inj ho; omega
  | refused x m p he' hrecv hx => obtain ⟨rfl, -⟩ := Outcome.returns.inj ho; omega
  | @deliver _ _ _ _ e m p he' hrecv =>
    obtain rfl : r = e := Option.some.inj (he.symm.trans he')
    obtain ⟨-, rfl⟩ := Outcome.returns.inj ho
    have hval : (Function.update s.envs r ((s.envs r).delivered (s.envs c) value p)) r
        = (s.envs r).delivered (s.envs c) value p := by simp
    have hs := hkeep.sender
    have hv := hkeep.value
    have hgd := hkeep.guard
    simp only [System.setEnv, hval] at hs hv hgd
    exact ⟨hgd rfl, hs, hv⟩

/-- After a successful send, and as long as the receiver does not call `sys_ipc_recv`, its message
is the one that was sent, and no further send to it succeeds. -/
theorem message_kept_until_receive {s t : System} {i : Event} {r c : Fin NENV} {value : BitVec 32}
    (hsend : i.SendsTo s r c value) (ht : i.exec s = some t) (mid : List Event)
    (hmid : kernelMachine.Along (fun j u => ¬ j.ReceivesBy u r) mid t) :
    let u := kernelMachine.run mid t
    (u.envs r).ipcFrom = (s.envs c).id ∧ (u.envs r).ipcValue = value ∧
      ∀ (j : Event) sender v, ¬ j.SendsTo u r sender v := by
  have hrun : ((kernelMachine.run mid t).envs r).ipcRecving = false ∧
      ((kernelMachine.run mid t).envs r).ipcFrom = (s.envs c).id ∧
      ((kernelMachine.run mid t).envs r).ipcValue = value := by
    refine Machine.run_invariant (C := fun (j : Event) u => ¬ j.ReceivesBy u r)
      (I := fun u : System => (u.envs r).ipcRecving = false ∧ (u.envs r).ipcFrom = (s.envs c).id ∧
        (u.envs r).ipcValue = value) ?_ (hsend.exec ht) hmid
    rintro j u ⟨hg, hs, hv⟩ hj
    cases hx : j.exec u with
    | none => simpa [kernelMachine, hx] using ⟨hg, hs, hv⟩
    | some w =>
      have hkeep := Event.keepsMessage hg hj hx
      simpa [kernelMachine, hx] using
        ⟨hkeep.guard hg, hkeep.sender.trans hs, hkeep.value.trans hv⟩
  refine ⟨hrun.2.1, hrun.2.2, fun j sender v hj => ?_⟩
  have hopen := hj.open
  rw [hrun.1] at hopen
  simp at hopen

/-- The program sends 7 to the server, which then runs and asks for its id. -/
theorem message_kept_by_server :
    let send : Event := .call (.ipcTrySend (nextEnvId 0 0) 7 (BitVec.ofNat 32 UTOP) 0)
    ∃ t, send.SendsTo sampleSystem 0 1 7 ∧ send.exec sampleSystem = some t ∧
      let u := kernelMachine.run [.run 0, .call .getenvid] t
      (u.envs 0).ipcFrom = nextEnvId 0 1 ∧ (u.envs 0).ipcValue = 7 ∧
        ∀ (j : Event) sender v, ¬ j.SendsTo u 0 sender v := by
  have hsend : (Event.call (.ipcTrySend (nextEnvId 0 0) 7 (BitVec.ofNat 32 UTOP) 0)).SendsTo
      sampleSystem 0 1 7 :=
    ⟨rfl, by decide, nextEnvId 0 0, BitVec.ofNat 32 UTOP, 0, _, rfl, by decide, rfl⟩
  refine ⟨_, hsend, rfl, message_kept_until_receive hsend rfl _ ⟨?_, fun _ => ⟨?_, fun _ => trivial⟩⟩⟩
  · rintro ⟨-, -, d, hd, -⟩
    cases hd
  · rintro ⟨-, -, d, hd, -⟩
    cases hd

end DamnOS.Kernel
