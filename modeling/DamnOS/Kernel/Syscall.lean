import DamnOS.Kernel.Env
import DamnOS.Framework.Runs

/-!
# System calls and traps

The functions of `trap.c`.  `c` is the slot of `curenv`, the environment that trapped.
-/

namespace DamnOS.Kernel

open DamnOS.Framework

/-- How a system call ends: it returns a value, it gives up the processor, or the kernel panics. -/
inductive Outcome where
  | returns (r : Int) (s : System)
  | leaves (s : System)
  | panics

/-- The state in which a system call leaves the kernel. -/
def Outcome.state? : Outcome → Option System
  | .returns _ s => some s
  | .leaves s => some s
  | .panics => none

/-- The checks of `perm` that three system calls share. -/
def permValid (perm : Nat) : Bool :=
  decide (perm &&& PTE_U ≠ 0) && decide (perm &&& PTE_P ≠ 0) &&
    decide (perm &&& (0xFFFFFFFF ^^^ (PTE_P ||| PTE_U ||| PTE_W ||| PTE_AVAIL)) = 0)

/-- A user address that names a page: below `UTOP` and aligned. -/
def pageAddr (va : Nat) : Bool := decide (va < UTOP) && decide (va % PGSIZE = 0)

namespace System

def sysEnvDestroy (s : System) (c : Fin NENV) (envid : BitVec 32) : Outcome :=
  match s.envid2env c envid true with
  | none => .returns (-E_BAD_ENV) s
  | some e =>
    match s.envDestroy e with
    | none => .panics
    | some (true, s) => .returns 0 s
    | some (false, s) => .leaves s

def sysExofork (s : System) (c : Fin NENV) : Outcome :=
  match s.envAlloc (s.envs c).id with
  | (.error r, s) => .returns r s
  | (.ok e, s) =>
    let tf := (s.envs c).tf
    let v := { s.envs e with
      status := .notRunnable
      tf := { tf with regs := { tf.regs with eax := 0 } } }
    .returns v.id.toInt (s.setEnv e v)

/-- `ENV_RUNNABLE` is 2 and `ENV_NOT_RUNNABLE` is 4. -/
def sysEnvSetStatus (s : System) (c : Fin NENV) (envid status : BitVec 32) : Outcome :=
  if status ≠ 2 ∧ status ≠ 4 then .returns (-E_INVAL) s
  else
    match s.envid2env c envid true with
    | none => .returns (-E_BAD_ENV) s
    | some e =>
      let v := { s.envs e with status := if status = 2 then .runnable else .notRunnable }
      .returns 0 (s.setEnv e v)

/-- `tf` is what the caller's pointer refers to. -/
def sysEnvSetTrapframe (s : System) (c : Fin NENV) (envid : BitVec 32) (tf : Trapframe) : Outcome :=
  match s.envid2env c envid true with
  | none => .returns (-E_BAD_ENV) s
  | some e =>
    .returns 0 (s.setEnv e { s.envs e with tf := { tf with eflags := tf.eflags ||| FL_IF } })

def sysEnvSetPgfaultUpcall (s : System) (c : Fin NENV) (envid func : BitVec 32) : Outcome :=
  match s.envid2env c envid true with
  | none => .returns (-E_BAD_ENV) s
  | some e =>
    if func = 0 then .returns (-E_INVAL) s
    else .returns 0 (s.setEnv e { s.envs e with pgfaultUpcall := func.toNat })

/-- `page_free(NULL)`: the kernel takes the words at addresses 0 and 4 of the caller's address
space for a `struct PageInfo`.  The free list is empty, so `NULL` is what it stores there. -/
def pageFreeNull (s : System) (c : Fin NENV) : Option System :=
  let m := s.pmap
  let pde := m.mem (s.envs c).pgdir 0
  let pte := m.mem (pa2page (PTE_ADDR pde)) 0
  let p := pa2page (PTE_ADDR pte)
  if pde &&& PTE_P = 0 ∨ pte &&& PTE_P = 0 then none
  else if m.mem p 1 % 65536 ≠ 0 ∨ m.mem p 0 ≠ 0 then none
  else if pde &&& PTE_W = 0 ∨ pte &&& PTE_W = 0 then none
  else some { s with pmap := { m.store p 0 0 with pageFreeList := none } }

def sysPageAlloc (s : System) (c : Fin NENV) (envid va perm : BitVec 32) : Outcome :=
  match s.envid2env c envid true with
  | none => .returns (-E_BAD_ENV) s
  | some e =>
    if !pageAddr va.toNat || !permValid perm.toNat then .returns (-E_INVAL) s
    else
      match s.pmap.pageAlloc true with
      | (none, m) =>
        match ({ s with pmap := m } : System).pageFreeNull c with
        | none => .panics
        | some s => .returns (-E_NO_MEM) s
      | (some p, m) =>
        match m.pageInsert (s.envs e).pgdir p va.toNat perm.toNat with
        | none => .panics
        | some (true, m) => .returns 0 { s with pmap := m }
        | some (false, m) =>
          match m.pageFree p with
          | none => .panics
          | some m => .returns (-E_NO_MEM) { s with pmap := m }

/-- The test for write access looks at the address of the source entry, not at the entry. -/
def sysPageMap (s : System) (c : Fin NENV) (srcenvid srcva dstenvid dstva perm : BitVec 32) :
    Outcome :=
  match s.envid2env c srcenvid true with
  | none => .returns (-E_BAD_ENV) s
  | some src =>
    match s.envid2env c dstenvid true with
    | none => .returns (-E_BAD_ENV) s
    | some dst =>
      if !pageAddr srcva.toNat || !pageAddr dstva.toNat || !permValid perm.toNat then
        .returns (-E_INVAL) s
      else
        match s.pmap.pageLookup (s.envs src).pgdir srcva.toNat with
        | none => .returns (-E_INVAL) s
        | some (p, pt, i) =>
          let pteStore := KERNBASE + page2pa pt + 4 * i
          if perm.toNat &&& PTE_W ≠ 0 ∧ pteStore &&& PTE_W ≠ 0 then .returns (-E_INVAL) s
          else
            match s.pmap.pageInsert (s.envs dst).pgdir p dstva.toNat perm.toNat with
            | none => .panics
            | some (true, m) => .returns 0 { s with pmap := m }
            | some (false, m) => .returns (-E_NO_MEM) { s with pmap := m }

def sysPageUnmap (s : System) (c : Fin NENV) (envid va : BitVec 32) : Outcome :=
  match s.envid2env c envid true with
  | none => .returns (-E_BAD_ENV) s
  | some e =>
    if !pageAddr va.toNat then .returns (-E_INVAL) s
    else
      match s.pmap.pageRemove (s.envs e).pgdir va.toNat with
      | none => .panics
      | some m => .returns 0 { s with pmap := m }

def deliver (s : System) (c e : Fin NENV) (value : BitVec 32) : System :=
  let v := s.envs e
  s.setEnv e { v with
    ipcFrom := (s.envs c).id
    ipcValue := value
    status := .runnable
    tf := { v.tf with regs := { v.tf.regs with eax := 0 } } }

/-- The page transfer of a send to `e`, which is already marked as not receiving. -/
def sendPage (s : System) (c e : Fin NENV) (value srcva perm : BitVec 32) : Outcome :=
  if srcva.toNat % PGSIZE ≠ 0 then .returns (-E_INVAL) s
  else if !permValid perm.toNat then .returns (-E_INVAL) s
  else
    match s.pmap.pageLookup (s.envs c).pgdir srcva.toNat with
    | none => .returns (-E_INVAL) s
    | some (p, pt, i) =>
      if perm.toNat &&& PTE_W ≠ 0 ∧ s.pmap.mem pt i &&& PTE_W = 0 then .returns (-E_INVAL) s
      else if (s.envs e).ipcDstva < UTOP then
        match s.pmap.pageInsert (s.envs e).pgdir p (s.envs e).ipcDstva perm.toNat with
        | none => .panics
        | some (false, m) =>
          .returns (-E_NO_MEM) { s.setEnv e { s.envs e with ipcPerm := 0 } with pmap := m }
        | some (true, m) =>
          let s := { s.setEnv e { s.envs e with ipcPerm := perm.toNat } with pmap := m }
          .returns 0 (s.deliver c e value)
      else .returns 0 (s.deliver c e value)

def sysIpcTrySend (s : System) (c : Fin NENV) (envid value srcva perm : BitVec 32) : Outcome :=
  match s.envid2env c envid false with
  | none => .returns (-E_BAD_ENV) s
  | some e =>
    if (s.envs e).ipcRecving = false then .returns (-E_IPC_NOT_RECV) s
    else
      let s := s.setEnv e { s.envs e with ipcRecving := false }
      if srcva.toNat < UTOP then s.sendPage c e value srcva perm
      else .returns 0 (s.deliver c e value)

def sysIpcRecv (s : System) (c : Fin NENV) (dstva : BitVec 32) : Outcome :=
  if dstva.toNat < UTOP ∧ dstva.toNat % PGSIZE ≠ 0 then .returns (-E_INVAL) s
  else
    let v := { s.envs c with ipcRecving := true, ipcDstva := dstva.toNat, status := .notRunnable }
    .leaves (s.setEnv c v).schedYield

end System

/-- A system call with its arguments.  `cgetc` carries what the console holds, and
`envSetTrapframe` the frame in the caller's buffer. -/
inductive Call where
  | cputs
  | cgetc (ch : Int)
  | getenvid
  | envDestroy (envid : BitVec 32)
  | pageAlloc (envid va perm : BitVec 32)
  | pageMap (srcenvid srcva dstenvid dstva perm : BitVec 32)
  | pageUnmap (envid va : BitVec 32)
  | exofork
  | envSetStatus (envid status : BitVec 32)
  | envSetTrapframe (envid : BitVec 32) (tf : Trapframe)
  | envSetPgfaultUpcall (envid func : BitVec 32)
  | yield
  | ipcTrySend (envid value srcva perm : BitVec 32)
  | ipcRecv (dstva : BitVec 32)
  | unknown

/-- The switch of `syscall` on its number and arguments. -/
def Call.decode (syscallno a1 a2 a3 a4 a5 : BitVec 32) (buf : Trapframe) (ch : Int) : Call :=
  match syscallno.toNat with
  | 0 => .cputs
  | 1 => .cgetc ch
  | 2 => .getenvid
  | 3 => .envDestroy a1
  | 4 => .pageAlloc a1 a2 a3
  | 5 => .pageMap a1 a2 a3 a4 a5
  | 6 => .pageUnmap a1 a2
  | 7 => .exofork
  | 8 => .envSetStatus a1 a2
  | 9 => .envSetTrapframe a1 buf
  | 10 => .envSetPgfaultUpcall a1 a2
  | 11 => .yield
  | 12 => .ipcTrySend a1 a2 a3 a4
  | 13 => .ipcRecv a1
  | _ => .unknown

def Call.exec (s : System) (c : Fin NENV) : Call → Outcome
  | .cputs => .returns 0 s
  | .cgetc ch => .returns ch s
  | .getenvid => .returns (s.envs c).id.toInt s
  | .envDestroy envid => s.sysEnvDestroy c envid
  | .pageAlloc envid va perm => s.sysPageAlloc c envid va perm
  | .pageMap srcenvid srcva dstenvid dstva perm => s.sysPageMap c srcenvid srcva dstenvid dstva perm
  | .pageUnmap envid va => s.sysPageUnmap c envid va
  | .exofork => s.sysExofork c
  | .envSetStatus envid status => s.sysEnvSetStatus c envid status
  | .envSetTrapframe envid tf => s.sysEnvSetTrapframe c envid tf
  | .envSetPgfaultUpcall envid func => s.sysEnvSetPgfaultUpcall c envid func
  | .yield => .leaves s.schedYield
  | .ipcTrySend envid value srcva perm => s.sysIpcTrySend c envid value srcva perm
  | .ipcRecv dstva => s.sysIpcRecv c dstva
  | .unknown => .returns (-E_INVAL) s

/-- Where `page_fault_handler` puts the frame: below the trap-time stack pointer and a spare word
if that is on the exception stack, else at its top. -/
def utfAddr (esp : BitVec 32) : Nat :=
  if UXSTACKTOP - PGSIZE ≤ esp.toNat ∧ esp.toNat ≤ UXSTACKTOP - 1 then esp.toNat - 52 - 4
  else UXSTACKTOP - 52

def utfWords (tf : Trapframe) (faultVa : BitVec 32) : List (BitVec 32) :=
  [faultVa, tf.err, tf.regs.edi, tf.regs.esi, tf.regs.ebp, tf.regs.oesp, tf.regs.ebx, tf.regs.edx,
    tf.regs.ecx, tf.regs.eax, tf.eip, tf.eflags, tf.esp]

def wordBytes (w : BitVec 32) : List UInt8 :=
  (List.range 4).map fun i => UInt8.ofNat (w.toNat / 256 ^ i)

namespace System

/-- `page_fault_handler`; it does not come back. -/
def pageFaultHandler (s : System) (c : Fin NENV) (faultVa : BitVec 32) : Option System :=
  let v := s.envs c
  if v.tf.cs &&& 3 = 0 then none
  else if v.pgfaultUpcall ≠ 0 then
    (s.pmap.writeBytes v.pgdir (utfAddr v.tf.esp) ((utfWords v.tf faultVa).flatMap wordBytes)).map
      fun m =>
        { s.setEnv c { v with
            tf := { v.tf with
              eip := BitVec.ofNat 32 v.pgfaultUpcall
              esp := BitVec.ofNat 32 (utfAddr v.tf.esp) } } with pmap := m }
  else (s.envDestroy c).map Prod.snd

def trapReturn (s : System) : System :=
  match s.curenv with
  | none => s.schedYield
  | some c => if (s.envs c).status = .running then s.envRun c else s.schedYield

end System

/-- The saved `eax` of an environment becomes `x`. -/
def Env.setEax (v : Env) (x : BitVec 32) : Env :=
  { v with tf := { v.tf with regs := { v.tf.regs with eax := x } } }

/-- The way back from a system call: the value goes to the caller's `eax`. -/
def Outcome.resume (c : Fin NENV) : Outcome → Option System
  | .panics => none
  | .leaves s => some s
  | .returns r s => some (s.setEnv c ((s.envs c).setEax (BitVec.ofInt 32 r))).trapReturn

namespace System

/-- A system call whose number and arguments are in the saved registers. -/
def trapSyscall (s : System) (c : Fin NENV) (buf : Trapframe) (ch : Int) : Option System :=
  let r := (s.envs c).tf.regs
  ((Call.decode r.eax r.edx r.ecx r.ebx r.edi r.esi buf ch).exec s c).resume c

/-- `trap_dispatch` and what follows it.  Breakpoints, the keyboard and the serial line leave the
environments alone; an unexpected trap destroys the current one. -/
def trapDispatch (s : System) (c : Fin NENV) (faultVa : BitVec 32) (buf : Trapframe) (ch : Int) :
    Option System :=
  match (s.envs c).tf.trapno.toNat with
  | 14 => s.pageFaultHandler c faultVa
  | 48 => s.trapSyscall c buf ch
  | 32 => some s.schedYield
  | 3 | 39 | 33 | 36 => some s.trapReturn
  | _ =>
    match s.envDestroy c with
    | none => none
    | some (true, s) => some s.trapReturn
    | some (false, s) => some s

/-- A trap of code that runs with the kernel's segments: the frame stays on the kernel stack.  A page fault and an
unexpected trap end in a panic. -/
def trapKernel (s : System) (c : Fin NENV) (tf buf : Trapframe) (ch : Int) : Option System :=
  match tf.trapno.toNat with
  | 48 =>
    match (Call.decode tf.regs.eax tf.regs.edx tf.regs.ecx tf.regs.ebx tf.regs.edi tf.regs.esi buf ch).exec s c with
    | .panics => none
    | .leaves s => some s
    -- `eax` is stored in the frame on the stack, which nothing reads again
    | .returns _ s => some s.trapReturn
  | 32 => some s.schedYield
  | 3 | 39 | 33 | 36 => some s.trapReturn
  | _ => none

/-- `trap` with the frame that the processor pushed.  For user mode a zombie is collected first. -/
def trap (s : System) (c : Fin NENV) (tf : Trapframe) (faultVa : BitVec 32) (buf : Trapframe)
    (ch : Int) : Option System :=
  if tf.cs &&& 3 = 3 then
    if (s.envs c).status = .dying then
      (s.envFree c).map fun s => ({ s with curenv := none } : System).schedYield
    else (s.setEnv c { s.envs c with tf := tf }).trapDispatch c faultVa buf ch
  else s.trapKernel c tf buf ch

end System

/-- The environment in the slot can execute user code. -/
def System.Active (s : System) (c : Fin NENV) : Prop :=
  (s.envs c).status = .running ∨ (s.envs c).status = .runnable

instance (s : System) (c : Fin NENV) : Decidable (s.Active c) :=
  inferInstanceAs (Decidable (_ ∨ _))

/-- The processor goes to a runnable environment, as after a timer interrupt, or the current
environment executes a system call. -/
inductive Event where
  | run (e : Fin NENV)
  | call (call : Call)

def Event.exec : Event → System → Option System
  | .run e, s => if (s.envs e).status = .runnable then some (s.envRun e) else some s
  | .call a, s =>
    match s.curenv with
    | none => some s
    | some c => if s.Active c then (a.exec s c).resume c else some s

/-- The kernel under system calls in any order; a panic stops it. -/
def kernelMachine : Machine Event System where
  step i s := (i.exec s).getD s
  halts i s := (i.exec s).isNone

end DamnOS.Kernel
