import DamnOS.Kernel.Syscall

/-!
# What a system call can do to the environments

One case for each kind of effect.  The state of `pmap.c` is left open here; everything else that a
system call changes is written out.
-/

namespace DamnOS.Kernel

/-- The calls whose results are told apart below. -/
def Call.isSpecial : Call → Bool
  | .ipcTrySend _ _ _ _ => true
  | .exofork => true
  | _ => false

/-- The receiver of a message after the send. -/
def Env.delivered (v : Env) (sender : Env) (value : BitVec 32) (perm : Nat) : Env :=
  { v with
    ipcRecving := false
    ipcFrom := sender.id
    ipcValue := value
    ipcPerm := perm
    status := .runnable
    tf := { v.tf with regs := { v.tf.regs with eax := 0 } } }

def Env.waiting (v : Env) (dstva : Nat) : Env :=
  { v with ipcRecving := true, ipcDstva := dstva, status := .notRunnable }

/-- The environment that `sys_exofork` makes of what `env_alloc` returned. -/
def Env.child (v : Env) (parent : Env) : Env :=
  { v with
    status := .notRunnable
    tf := { parent.tf with regs := { parent.tf.regs with eax := 0 } } }

inductive CallEffect (s : System) (c : Fin NENV) : Call → Outcome → Prop
  | panic {a : Call} : CallEffect s c a .panics
  | quiet {a : Call} (ha : a.isSpecial = false) (r : Int) (m : Pmap) :
      CallEffect s c a (.returns r { s with pmap := m })
  | destroy {envid : BitVec 32} {e : Fin NENV} {t : System} (b : Bool)
      (he : s.envid2env c envid true = some e) (ht : s.envDestroy e = some (b, t)) :
      CallEffect s c (.envDestroy envid) (if b then .returns 0 t else .leaves t)
  | noChild {t : System} (r : Int) (ht : s.envAlloc (s.envs c).id = (.error r, t)) :
      CallEffect s c .exofork (.returns r t)
  | child {e : Fin NENV} {t : System} (ht : s.envAlloc (s.envs c).id = (.ok e, t)) :
      CallEffect s c .exofork
        (.returns (t.envs e).id.toInt (t.setEnv e ((t.envs e).child (t.envs c))))
  | setStatus {envid status : BitVec 32} {e : Fin NENV} (st : EnvStatus)
      (he : s.envid2env c envid true = some e) (hst : st ≠ .free) :
      CallEffect s c (.envSetStatus envid status) (.returns 0 (s.setEnv e { s.envs e with status := st }))
  | setTrapframe {envid : BitVec 32} {tf : Trapframe} {e : Fin NENV}
      (he : s.envid2env c envid true = some e) :
      CallEffect s c (.envSetTrapframe envid tf)
        (.returns 0 (s.setEnv e { s.envs e with tf := { tf with eflags := tf.eflags ||| FL_IF } }))
  | setUpcall {envid func : BitVec 32} {e : Fin NENV} (he : s.envid2env c envid true = some e) :
      CallEffect s c (.envSetPgfaultUpcall envid func)
        (.returns 0 (s.setEnv e { s.envs e with pgfaultUpcall := func.toNat }))
  | yield : CallEffect s c .yield (.leaves s.schedYield)
  | unsent {envid value srcva perm : BitVec 32} (r : Int) (hr : r < 0) :
      CallEffect s c (.ipcTrySend envid value srcva perm) (.returns r s)
  | refused {envid value srcva perm : BitVec 32} {e : Fin NENV} (r : Int) (m : Pmap) (p : Nat)
      (he : s.envid2env c envid false = some e) (hrecv : (s.envs e).ipcRecving = true)
      (hr : r < 0) :
      CallEffect s c (.ipcTrySend envid value srcva perm)
        (.returns r { s.setEnv e { s.envs e with ipcRecving := false, ipcPerm := p } with pmap := m })
  | deliver {envid value srcva perm : BitVec 32} {e : Fin NENV} (m : Pmap) (p : Nat)
      (he : s.envid2env c envid false = some e) (hrecv : (s.envs e).ipcRecving = true) :
      CallEffect s c (.ipcTrySend envid value srcva perm)
        (.returns 0 { s.setEnv e ((s.envs e).delivered (s.envs c) value p) with pmap := m })
  | receive {dstva : BitVec 32} :
      CallEffect s c (.ipcRecv dstva)
        (.leaves (s.setEnv c ((s.envs c).waiting dstva.toNat)).schedYield)

namespace System

variable (s : System) (c : Fin NENV)

private theorem sysEnvDestroy_effect (envid : BitVec 32) :
    CallEffect s c (.envDestroy envid) (s.sysEnvDestroy c envid) := by
  unfold sysEnvDestroy
  split
  · exact .quiet rfl _ s.pmap
  · next e he =>
    split
    · exact .panic
    · next t ht => exact .destroy true he ht
    · next t ht => exact .destroy false he ht

theorem sysExofork_effect : CallEffect s c .exofork (s.sysExofork c) := by
  unfold sysExofork
  split
  · next r t ht => exact .noChild r ht
  · next e t ht => exact .child ht

private theorem sysEnvSetStatus_effect (envid status : BitVec 32) :
    CallEffect s c (.envSetStatus envid status) (s.sysEnvSetStatus c envid status) := by
  unfold sysEnvSetStatus
  split
  · exact .quiet rfl _ s.pmap
  · split
    · exact .quiet rfl _ s.pmap
    · next e he => exact .setStatus _ he (by split <;> simp)

private theorem sysEnvSetTrapframe_effect (envid : BitVec 32) (tf : Trapframe) :
    CallEffect s c (.envSetTrapframe envid tf) (s.sysEnvSetTrapframe c envid tf) := by
  unfold sysEnvSetTrapframe
  split
  · exact .quiet rfl _ s.pmap
  · next e he => exact .setTrapframe he

private theorem sysEnvSetPgfaultUpcall_effect (envid func : BitVec 32) :
    CallEffect s c (.envSetPgfaultUpcall envid func) (s.sysEnvSetPgfaultUpcall c envid func) := by
  unfold sysEnvSetPgfaultUpcall
  split
  · exact .quiet rfl _ s.pmap
  · next e he =>
    split
    · exact .quiet rfl _ s.pmap
    · exact .setUpcall he

private theorem pageFreeNull_eq {s t : System} {c : Fin NENV} (h : s.pageFreeNull c = some t) :
    ∃ m, t = { s with pmap := m } := by
  simp only [pageFreeNull] at h
  split_ifs at h
  exact ⟨_, (Option.some.inj h).symm⟩

theorem sysPageAlloc_effect (envid va perm : BitVec 32) :
    CallEffect s c (.pageAlloc envid va perm) (s.sysPageAlloc c envid va perm) := by
  unfold sysPageAlloc
  split
  · exact .quiet rfl _ s.pmap
  · split
    · exact .quiet rfl _ s.pmap
    · split
      · split
        · exact .panic
        · next t ht =>
          obtain ⟨m, rfl⟩ := pageFreeNull_eq ht
          exact .quiet rfl _ m
      · split
        · exact .panic
        · exact .quiet rfl _ _
        · split
          · exact .panic
          · exact .quiet rfl _ _

theorem sysPageMap_effect (srcenvid srcva dstenvid dstva perm : BitVec 32) :
    CallEffect s c (.pageMap srcenvid srcva dstenvid dstva perm)
      (s.sysPageMap c srcenvid srcva dstenvid dstva perm) := by
  unfold sysPageMap
  split
  · exact .quiet rfl _ s.pmap
  · split
    · exact .quiet rfl _ s.pmap
    · split
      · exact .quiet rfl _ s.pmap
      · split
        · exact .quiet rfl _ s.pmap
        · dsimp only
          split
          · exact .quiet rfl _ s.pmap
          · split
            · exact .panic
            · exact .quiet rfl _ _
            · exact .quiet rfl _ _

theorem sysPageUnmap_effect (envid va : BitVec 32) :
    CallEffect s c (.pageUnmap envid va) (s.sysPageUnmap c envid va) := by
  unfold sysPageUnmap
  split
  · exact .quiet rfl _ s.pmap
  · split
    · exact .quiet rfl _ s.pmap
    · split
      · exact .panic
      · exact .quiet rfl _ _

private theorem setEnv_setEnv (e : Fin NENV) (v w : Env) : (s.setEnv e v).setEnv e w = s.setEnv e w := by
  simp [setEnv]

@[simp] theorem setEnv_envs_self (e : Fin NENV) (v : Env) : (s.setEnv e v).envs e = v := by
  simp [setEnv]

theorem setEnv_envs_of_ne {e i : Fin NENV} (h : i ≠ e) (v : Env) :
    (s.setEnv e v).envs i = s.envs i := by
  simp [setEnv, h]

private theorem setEnv_id {e : Fin NENV} {v : Env} (hv : v.id = (s.envs e).id) (i : Fin NENV) :
    ((s.setEnv e v).envs i).id = (s.envs i).id := by
  by_cases h : i = e
  · subst h
    simpa using hv
  · rw [setEnv_envs_of_ne s h]

private theorem deliver_effect {e : Fin NENV} (m : Pmap) (p : Nat) {envid value srcva perm : BitVec 32}
    (he : s.envid2env c envid false = some e) (hrecv : (s.envs e).ipcRecving = true) :
    CallEffect s c (.ipcTrySend envid value srcva perm)
      (.returns 0 (({ s.setEnv e { s.envs e with ipcRecving := false, ipcPerm := p } with
        pmap := m } : System).deliver c e value)) := by
  have hid : ((s.setEnv e { s.envs e with ipcRecving := false, ipcPerm := p }).envs c).id
      = (s.envs c).id := s.setEnv_id (by rfl) c
  have heq : ({ s.setEnv e { s.envs e with ipcRecving := false, ipcPerm := p } with
        pmap := m } : System).deliver c e value
      = { s.setEnv e ((s.envs e).delivered (s.envs c) value p) with pmap := m } := by
    simp only [setEnv] at hid
    simp [deliver, setEnv, hid, Env.delivered]
  rw [heq]
  exact .deliver m p he hrecv

private theorem sendPage_effect {e : Fin NENV} (envid value srcva perm : BitVec 32)
    (he : s.envid2env c envid false = some e) (hrecv : (s.envs e).ipcRecving = true) :
    CallEffect s c (.ipcTrySend envid value srcva perm)
      ((s.setEnv e { s.envs e with ipcRecving := false }).sendPage c e value srcva perm) := by
  have hinval : -E_INVAL < 0 := by decide
  have hnomem : -E_NO_MEM < 0 := by decide
  unfold sendPage
  split
  · exact .refused _ s.pmap (s.envs e).ipcPerm he hrecv hinval
  · split
    · exact .refused _ s.pmap (s.envs e).ipcPerm he hrecv hinval
    · split
      · exact .refused _ s.pmap (s.envs e).ipcPerm he hrecv hinval
      · split
        · exact .refused _ s.pmap (s.envs e).ipcPerm he hrecv hinval
        · split
          · split
            · exact .panic
            · next m _ =>
              simp only [setEnv_setEnv, setEnv_envs_self]
              exact .refused _ m 0 he hrecv hnomem
            · next m _ =>
              simp only [setEnv_setEnv, setEnv_envs_self]
              exact deliver_effect s c m perm.toNat he hrecv
          · exact deliver_effect s c s.pmap (s.envs e).ipcPerm he hrecv

private theorem sysIpcTrySend_effect (envid value srcva perm : BitVec 32) :
    CallEffect s c (.ipcTrySend envid value srcva perm) (s.sysIpcTrySend c envid value srcva perm) := by
  unfold sysIpcTrySend
  split
  · exact .unsent _ (by decide)
  · next e he =>
    split
    · exact .unsent _ (by decide)
    · next hrecv =>
      have hrecv : (s.envs e).ipcRecving = true := by simpa using hrecv
      dsimp only
      split
      · exact sendPage_effect s c envid value srcva perm he hrecv
      · exact deliver_effect s c s.pmap (s.envs e).ipcPerm he hrecv

private theorem sysIpcRecv_effect (dstva : BitVec 32) :
    CallEffect s c (.ipcRecv dstva) (s.sysIpcRecv c dstva) := by
  unfold sysIpcRecv
  split
  · exact .quiet rfl _ s.pmap
  · exact .receive

end System

theorem Call.effect (s : System) (c : Fin NENV) (a : Call) : CallEffect s c a (a.exec s c) := by
  cases a with
  | cputs => exact .quiet rfl _ s.pmap
  | cgetc ch => exact .quiet rfl _ s.pmap
  | getenvid => exact .quiet rfl _ s.pmap
  | envDestroy envid => exact s.sysEnvDestroy_effect c envid
  | pageAlloc envid va perm => exact s.sysPageAlloc_effect c envid va perm
  | pageMap srcenvid srcva dstenvid dstva perm =>
    exact s.sysPageMap_effect c srcenvid srcva dstenvid dstva perm
  | pageUnmap envid va => exact s.sysPageUnmap_effect c envid va
  | exofork => exact s.sysExofork_effect c
  | envSetStatus envid status => exact s.sysEnvSetStatus_effect c envid status
  | envSetTrapframe envid tf => exact s.sysEnvSetTrapframe_effect c envid tf
  | envSetPgfaultUpcall envid func => exact s.sysEnvSetPgfaultUpcall_effect c envid func
  | yield => exact .yield
  | ipcTrySend envid value srcva perm => exact s.sysIpcTrySend_effect c envid value srcva perm
  | ipcRecv dstva => exact s.sysIpcRecv_effect c dstva
  | unknown => exact .quiet rfl _ s.pmap

end DamnOS.Kernel
