import DamnOS.Kernel.Spaces

/-!
# Copy-on-write fork

The functions of `fork.c`, run by the environment in slot `c`.  User code reads its own page tables
at `uvpd` and `uvpt`, and it panics when a system call returns a negative number; `none` stands for
that.
-/

namespace DamnOS.User

open DamnOS.Kernel

/-- The state after a system call that user code insists on. -/
def succeeded : Outcome → Option System
  | .returns r s => if 0 ≤ r then some s else none
  | _ => none

def FEC_WR : Nat := 2

def uvpd (s : System) (c : Fin NENV) (d : Nat) : Nat := s.pmap.mem (s.envs c).pgdir d

/-- The page table is looked up through the directory entry that refers to the directory itself. -/
def uvpt (s : System) (c : Fin NENV) (pn : Nat) : Nat :=
  s.pmap.mem (s.pmap.tableOf (s.envs c).pgdir (pn * PGSIZE)) (PTX (pn * PGSIZE))

/-- The address of a page as an argument of a system call. -/
def pageArg (pn : Nat) : BitVec 32 := BitVec.ofNat 32 (pn * PGSIZE)

def permArg (perm : Nat) : BitVec 32 := BitVec.ofNat 32 perm

def loadByte (m : Pmap) (p off : Nat) : UInt8 :=
  UInt8.ofNat (m.mem p (off / 4) / 256 ^ (off % 4))

def copyPage (m : Pmap) (dst src : Nat) : Pmap :=
  { m with mem := Function.update m.mem dst fun i => if i < 1024 then m.mem src i else m.mem dst i }

/-- `memcpy(dstva, srcva, PGSIZE)` between two mapped pages. -/
def memcpyPage (s : System) (c : Fin NENV) (dstva srcva : Nat) : Option System :=
  match s.pmap.mapping (s.envs c).pgdir dstva, s.pmap.mapping (s.envs c).pgdir srcva with
  | some d, some w =>
    if d &&& PTE_W = 0 then none
    else some { s with pmap := copyPage s.pmap (pageOf d) (pageOf w) }
  | _, _ => none

/-- A store of the environment; `none` is a page fault. -/
def storeUser (s : System) (c : Fin NENV) (va : Nat) (b : UInt8) : Option System :=
  match s.pmap.mapping (s.envs c).pgdir va with
  | none => none
  | some w =>
    if w &&& PTE_U = 0 ∨ w &&& PTE_W = 0 then none
    else some { s with pmap := s.pmap.storeByte (pageOf w) (va % PGSIZE) b }

def pgfault (s : System) (c : Fin NENV) (faultVa err : Nat) : Option System :=
  let addr := faultVa / PGSIZE * PGSIZE
  if err &&& FEC_WR = 0 ∧ uvpt s c (PGNUM faultVa) &&& PTE_COW = 0 then none
  else do
    let s ← succeeded (s.sysPageAlloc c 0 (BitVec.ofNat 32 PFTEMP) (permArg (PTE_W ||| PTE_U ||| PTE_P)))
    let s ← memcpyPage s c PFTEMP addr
    let s ← succeeded (s.sysPageMap c 0 (BitVec.ofNat 32 PFTEMP) 0 (BitVec.ofNat 32 addr)
      (permArg (PTE_W ||| PTE_U ||| PTE_P)))
    succeeded (s.sysPageUnmap c 0 (BitVec.ofNat 32 PFTEMP))

/-- A write by the environment: after a fault the handler runs, and the instruction is repeated. -/
def write (s : System) (c : Fin NENV) (va : Nat) (b : UInt8) : Option System :=
  match storeUser s c va b with
  | some s => some s
  | none => do
    let s ← pgfault s c va FEC_WR
    storeUser s c va b

def duppage (c : Fin NENV) (envid : BitVec 32) (s : System) (pn : Nat) : Option System :=
  let map (s : System) (dst : BitVec 32) (perm : Nat) : Option System :=
    succeeded (s.sysPageMap c 0 (pageArg pn) dst (pageArg pn) (permArg perm))
  if uvpt s c pn &&& PTE_SHARE ≠ 0 then map s envid (PTE_SHARE ||| PTE_SYSCALL)
  else if uvpt s c pn &&& PTE_W ≠ 0 ∨ uvpt s c pn &&& PTE_COW ≠ 0 then do
    let s ← map s envid (PTE_COW ||| PTE_U ||| PTE_P)
    map s 0 (PTE_COW ||| PTE_U ||| PTE_P)
  else map s envid (PTE_U ||| PTE_P)

def forkPage (c : Fin NENV) (envid : BitVec 32) (s : System) (pn : Nat) : Option System :=
  if uvpd s c (PDX (pn * PGSIZE)) &&& PTE_P ≠ 0 ∧ uvpt s c pn &&& PTE_P ≠ 0 ∧
      uvpt s c pn &&& PTE_U ≠ 0 then duppage c envid s pn
  else some s

/-- `installed` tells that `_pgfault_handler` is set. -/
def setPgfaultHandler (s : System) (c : Fin NENV) (installed : Bool) (upcall : BitVec 32) :
    Option System :=
  if installed then some s
  else do
    let s ← succeeded (s.sysPageAlloc c 0 (BitVec.ofNat 32 (UXSTACKTOP - PGSIZE))
      (permArg (PTE_P ||| PTE_U ||| PTE_W)))
    succeeded (s.sysEnvSetPgfaultUpcall c 0 upcall)

/-- The part of `fork` after `sys_exofork`, in the parent. -/
def forkParent (s : System) (c : Fin NENV) (child upcall : BitVec 32) : Option System := do
  let s ← (List.range (USTACKTOP / PGSIZE)).foldlM (forkPage c child) s
  let s ← succeeded (s.sysPageAlloc c child (BitVec.ofNat 32 (UXSTACKTOP - PGSIZE))
    (permArg (PTE_W ||| PTE_U ||| PTE_P)))
  let s ← succeeded (s.sysEnvSetPgfaultUpcall c child upcall)
  succeeded (s.sysEnvSetStatus c child 2)

/-- The id of the child, which the parent does not compare with 0 from below, and the state when
`fork` returns to the parent. -/
def fork (s : System) (c : Fin NENV) (installed : Bool) (upcall : BitVec 32) :
    Option (BitVec 32 × System) := do
  let s ← setPgfaultHandler s c installed upcall
  match s.sysExofork c with
  | .returns r s =>
    let s ← forkParent s c (BitVec.ofInt 32 r) upcall
    return (BitVec.ofInt 32 r, s)
  | _ => none

end DamnOS.User
