import DamnOS.Kernel.Pmap

/-!
# Environments

The functions of `env.c` and `sched.c`.  An environment is named by its slot in `envs`.
-/

namespace DamnOS.Kernel

abbrev NENV : Nat := 1024

instance : NeZero NENV := ⟨by decide⟩

/-- `ENVX(envid)`, the slot of an environment id. -/
def ENVX (envid : BitVec 32) : Fin NENV :=
  ⟨(envid &&& 1023#32).toNat, by
    rw [BitVec.toNat_and]
    exact Nat.lt_succ_of_le Nat.and_le_right⟩

inductive EnvStatus where
  | free
  | dying
  | runnable
  | running
  | notRunnable
  deriving DecidableEq

inductive EnvType where
  | user
  | fs
  deriving DecidableEq

structure PushRegs where
  edi : BitVec 32
  esi : BitVec 32
  ebp : BitVec 32
  oesp : BitVec 32
  ebx : BitVec 32
  edx : BitVec 32
  ecx : BitVec 32
  eax : BitVec 32
  deriving DecidableEq

/-- `struct Trapframe` without its padding. -/
structure Trapframe where
  regs : PushRegs
  es : BitVec 16
  ds : BitVec 16
  trapno : BitVec 32
  err : BitVec 32
  eip : BitVec 32
  cs : BitVec 16
  eflags : BitVec 32
  esp : BitVec 32
  ss : BitVec 16
  deriving DecidableEq

def Trapframe.zero : Trapframe := ⟨⟨0, 0, 0, 0, 0, 0, 0, 0⟩, 0, 0, 0, 0, 0, 0, 0, 0, 0⟩

/-- The id that `env_alloc` gives to the next environment in a slot. -/
def nextEnvId (id : BitVec 32) (e : Fin NENV) : BitVec 32 :=
  let generation := (id + 4096#32) &&& ~~~1023#32
  let generation := if generation.toInt ≤ 0 then 4096#32 else generation
  generation ||| BitVec.ofNat 32 e

def newTrapframe : Trapframe :=
  { Trapframe.zero with
    ds := GD_UD ||| 3
    es := GD_UD ||| 3
    ss := GD_UD ||| 3
    esp := BitVec.ofNat 32 USTACKTOP
    cs := GD_UT ||| 3
    eflags := FL_IF }

/-- `struct Env`.  The page directory is named by its page; freeing an environment leaves 0. -/
structure Env where
  tf : Trapframe
  link : Option (Fin NENV)
  id : BitVec 32
  parentId : BitVec 32
  type : EnvType
  status : EnvStatus
  runs : Nat
  pgdir : Nat
  pgfaultUpcall : Nat
  ipcRecving : Bool
  ipcDstva : Nat
  ipcValue : BitVec 32
  ipcFrom : BitVec 32
  ipcPerm : Nat

/-- The kernel's state: `pmap.c`, the array `envs`, `env_free_list` and `curenv`. -/
structure System where
  pmap : Pmap
  envs : Fin NENV → Env
  envFreeList : Option (Fin NENV)
  curenv : Option (Fin NENV)

namespace System

def setEnv (s : System) (e : Fin NENV) (v : Env) : System :=
  { s with envs := Function.update s.envs e v }

/-- `envid2env`, called by the environment `c`; `none` stands for `-E_BAD_ENV`. -/
def envid2env (s : System) (c : Fin NENV) (envid : BitVec 32) (checkperm : Bool) :
    Option (Fin NENV) :=
  if envid = 0 then some c
  else
    let e := ENVX envid
    if (s.envs e).status = .free ∨ (s.envs e).id ≠ envid then none
    else if checkperm ∧ e ≠ c ∧ (s.envs e).parentId ≠ (s.envs c).id then none
    else some e

def envInitStep (i : Fin NENV) (s : System) : System :=
  { s.setEnv i { s.envs i with id := 0, status := .free, link := s.envFreeList } with
    envFreeList := some i }

/-- `env_init` fills the list from the last slot to the first; `env_free_list` starts as `NULL`. -/
def envInit (s : System) : System :=
  (List.finRange NENV).foldr envInitStep { s with envFreeList := none }

/-- The result is `false` for `-E_NO_MEM`. -/
def envSetupVm (s : System) (e : Fin NENV) : Bool × System :=
  match s.pmap.pageAlloc true with
  | (none, m) => (false, { s with pmap := m })
  | (some p, m) =>
    let m := { m with mem := Function.update m.mem p (m.mem m.kernPgdir) }
    let m := m.incRef p
    let m := m.store p (PDX UVPT) (page2pa p ||| PTE_P ||| PTE_U)
    (true, { s.setEnv e { s.envs e with pgdir := p } with pmap := m })

def envAlloc (s : System) (parentId : BitVec 32) : Except Int (Fin NENV) × System :=
  match s.envFreeList with
  | none => (.error (-E_NO_FREE_ENV), s)
  | some e =>
    match s.envSetupVm e with
    | (false, s) => (.error (-E_NO_MEM), s)
    | (true, s) =>
      let v := s.envs e
      let v := { v with
        id := nextEnvId v.id e
        parentId := parentId
        type := .user
        status := .runnable
        runs := 0
        tf := newTrapframe
        pgfaultUpcall := 0
        ipcRecving := false }
      (.ok e, { s.setEnv e v with envFreeList := v.link })

end System

namespace Pmap

def setByte (w j : Nat) (b : UInt8) : Nat :=
  w - (w / 256 ^ j % 256) * 256 ^ j + b.toNat * 256 ^ j

def storeByte (m : Pmap) (p off : Nat) (b : UInt8) : Pmap :=
  m.store p (off / 4) (setByte (m.mem p (off / 4)) (off % 4) b)

/-- The page that the kernel writes when it stores to `va` under `pgdir`; `CR0_WP` makes it
respect read-only entries. -/
def writable (m : Pmap) (pgdir va : Nat) : Option Nat :=
  let pde := m.mem pgdir (PDX va)
  let pte := m.mem (pa2page (PTE_ADDR pde)) (PTX va)
  if pde &&& PTE_P = 0 ∨ pde &&& PTE_W = 0 ∨ pte &&& PTE_P = 0 ∨ pte &&& PTE_W = 0 then none
  else some (pa2page (PTE_ADDR pte))

/-- A store of the kernel; it panics on a page fault. -/
def write (m : Pmap) (pgdir va : Nat) (b : UInt8) : Option Pmap :=
  (m.writable pgdir va).map fun p => m.storeByte p (va % PGSIZE) b

def writeBytes (m : Pmap) (pgdir va : Nat) (bytes : List UInt8) : Option Pmap :=
  bytes.zipIdx.foldlM (fun m (b, i) => m.write pgdir (va + i) b) m

/-- One round of `region_alloc`, which ignores the result of `page_insert`. -/
def regionAllocPage (pgdir va : Nat) (m : Pmap) (i : Nat) : Option Pmap :=
  match m.pageAlloc false with
  | (none, _) => none
  | (some p, m) =>
    (m.pageInsert pgdir p (va + i * PGSIZE) (PTE_P ||| PTE_W ||| PTE_U)).map Prod.snd

def regionAlloc (m : Pmap) (pgdir va len : Nat) : Option Pmap :=
  (List.range ((len + PGSIZE - 1) / PGSIZE)).foldlM (regionAllocPage pgdir va) m

end Pmap

/-- A loadable segment of a program: `p_va`, `p_memsz`, and its `p_filesz` bytes. -/
structure Segment where
  va : Nat
  memsz : Nat
  bytes : List UInt8

namespace Pmap

def loadSegment (pgdir : Nat) (m : Pmap) (ph : Segment) : Option Pmap := do
  let m ← m.regionAlloc pgdir ph.va ph.memsz
  let m ← m.writeBytes pgdir ph.va (List.replicate ph.memsz 0)
  m.writeBytes pgdir ph.va ph.bytes

/-- The pages of `load_icode`: the segments, and one page for the stack. -/
def loadIcode (m : Pmap) (pgdir : Nat) (segments : List Segment) : Option Pmap := do
  let m ← segments.foldlM (loadSegment pgdir) m
  m.regionAlloc pgdir (USTACKTOP - PGSIZE) PGSIZE

end Pmap

namespace System

/-- `env_create`.  It does not look at the result of `env_alloc`, so a failure is a panic. -/
def envCreate (s : System) (segments : List Segment) (entryPoint : BitVec 32) (type : EnvType) :
    Option System :=
  match s.envAlloc 0 with
  | (.error _, _) => none
  | (.ok e, s) =>
    let v := s.envs e
    let eflags := if type = .fs then v.tf.eflags ||| FL_IOPL_MASK else v.tf.eflags
    (s.pmap.loadIcode v.pgdir segments).map fun m =>
      { s.setEnv e { v with
          tf := { v.tf with eflags := eflags ^^^ FL_IF, eip := entryPoint }
          type := type } with pmap := m }

/-- The kernel after `env_init` and the creation of the first programs. -/
def start (s : System) (programs : List (List Segment × BitVec 32 × EnvType)) : Option System :=
  programs.foldlM (fun s (segments, entryPoint, type) => s.envCreate segments entryPoint type)
    s.envInit

end System

namespace Pmap

/-- `page_remove` of one present entry of a page table. -/
def freeEntry (pgdir pt d : Nat) (m : Pmap) (t : Nat) : Option Pmap :=
  if m.mem pt t &&& PTE_P ≠ 0 then m.pageRemove pgdir (PGADDR d t 0) else some m

/-- The entries of one page table, and the table itself. -/
def freeTable (pgdir : Nat) (m : Pmap) (d : Nat) : Option Pmap :=
  if m.mem pgdir d &&& PTE_P = 0 then some m
  else
    let pt := pa2page (PTE_ADDR (m.mem pgdir d))
    ((List.range 1024).foldlM (freeEntry pgdir pt d) m).bind fun m =>
      (m.store pgdir d 0).pageDecref pt

/-- Flush the user portion of the address space, then free the page directory. -/
def freePgdir (m : Pmap) (pgdir : Nat) : Option Pmap :=
  ((List.range (PDX UTOP)).foldlM (freeTable pgdir) m).bind fun m => m.pageDecref pgdir

end Pmap

namespace System

def envFree (s : System) (e : Fin NENV) : Option System :=
  (s.pmap.freePgdir (s.envs e).pgdir).map fun m =>
    { s.setEnv e { s.envs e with pgdir := 0, status := .free, link := s.envFreeList } with
      pmap := m, envFreeList := some e }

/-- The current environment goes back to runnable if it is running. -/
def preempt (s : System) : System :=
  match s.curenv with
  | none => s
  | some c =>
    if (s.envs c).status = .running then s.setEnv c { s.envs c with status := .runnable } else s

/-- `env_run` up to the return to user mode. -/
def envRun (s : System) (e : Fin NENV) : System :=
  if s.curenv = some e then s
  else
    let s := s.preempt
    { s.setEnv e { s.envs e with status := .running, runs := (s.envs e).runs + 1 } with
      curenv := some e }

/-- `sched_halt` stays in the monitor when no environment is left to run. -/
def schedHalt (s : System) : System :=
  if ∀ i, (s.envs i).status ≠ .runnable ∧ (s.envs i).status ≠ .running ∧ (s.envs i).status ≠ .dying
  then s
  else { s with curenv := none }

/-- The slot after which `sched_yield` starts its search. -/
def schedStart (s : System) : Fin NENV :=
  match s.curenv with
  | none => 0
  | some c => ENVX (s.envs c).id

def schedYield (s : System) : System :=
  match (List.finRange NENV).find? fun i => (s.envs (s.schedStart + i)).status = .runnable with
  | some i => s.envRun (s.schedStart + i)
  | none =>
    match s.curenv with
    | none => s.schedHalt
    | some c => if (s.envs c).status = .running then s.envRun c else s.schedHalt

/-- `env_destroy`; the result tells whether it returns to its caller. -/
def envDestroy (s : System) (e : Fin NENV) : Option (Bool × System) :=
  if (s.envs e).status = .running ∧ s.curenv ≠ some e then
    some (true, s.setEnv e { s.envs e with status := .dying })
  else
    (s.envFree e).map fun s =>
      if s.curenv = some e then (false, ({ s with curenv := none } : System).schedYield)
      else (true, s)

end System

end DamnOS.Kernel
