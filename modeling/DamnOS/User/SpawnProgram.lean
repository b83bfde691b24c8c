import DamnOS.User.MapSegment
import DamnOS.User.PipeCreate
import DamnOS.User.Spawn

/-!
# Starting a program from a file

`spawn` on the pages of the parent: it opens the file, reads the header, makes a child with its stack and maps
the segments.  What the calls answer is left open.
-/

namespace DamnOS.User

open DamnOS.Framework DamnOS.Kernel
open DamnOS.Programs (MAXFD O_RDONLY O_ACCMODE)
open DamnOS.FileSystem (Err MAXPATHLEN)

def E_NOT_EXEC : Int := 16

def ELF_MAGIC : Nat := 0x464C457F
def ELF_PROG_LOAD : Nat := 1
def ELF_PROG_FLAG_WRITE : Nat := 2

structure ProgHeader where
  type : Nat
  offset : BitVec 32
  va : BitVec 32
  filesz : BitVec 32
  memsz : BitVec 32
  flags : Nat

/-- The `struct Proghdr` at a distance from the start of `elf_buf`; it need not lie in the buffer. -/
def progHeader (buf : Nat → UInt8) (d : Nat) : ProgHeader where
  type := u32 buf d
  offset := BitVec.ofNat 32 (u32 buf (d + 4))
  va := BitVec.ofNat 32 (u32 buf (d + 8))
  filesz := BitVec.ofNat 32 (u32 buf (d + 16))
  memsz := BitVec.ofNat 32 (u32 buf (d + 20))
  flags := u32 buf (d + 24)

def progHeaders (buf : Nat → UInt8) : List ProgHeader :=
  (List.range (u16 buf 44)).map fun i => progHeader buf ((u32 buf 28 + 32 * i) % 2 ^ 32)

/-- The arguments of `map_segment` for a header. -/
def ProgHeader.segment (ph : ProgHeader) (fd : BitVec 32) : ProgSegment where
  va := ph.va
  memsz := ph.memsz
  fd := fd
  filesz := ph.filesz
  fileoffset := ph.offset
  perm := BitVec.ofNat 32 (PTE_P ||| PTE_U ||| if ph.flags &&& ELF_PROG_FLAG_WRITE ≠ 0 then PTE_W else 0)

/-- The memory of the parent after `init_stack` has written the arguments. -/
def stackMemory (m : Nat → UInt8) (argv : List CString) : Nat → UInt8 :=
  let m := copyArgs (argvStore argv) 0 (stringStore argv) argv m
  let m := storeWord m (argvStore argv + BitVec.ofNat 32 (4 * argv.length)) 0
  let m := storeWord m (argvStore argv - 4) (UTEMP2USTACK (argvStore argv))
  storeWord m (argvStore argv - 8) (BitVec.ofNat 32 argv.length)

/-- An `Fd` page as `serve_open` fills it in; the number of the open file is left out. -/
def openedFd (mode : Nat) : Nat → UInt8 :=
  splice (splice (fun _ => 0) offDevId.toNat 4 (leByte Dev.file.id)) offOmode.toNat 4 (leByte (mode &&& O_ACCMODE))

def ustackPage : BitVec 32 := BitVec.ofNat 32 (USTACKTOP - PGSIZE)

namespace Loader

def stackError (s : Loader) (parent : Fin NENV) (r : Int) : Except Int (BitVec 32) × Loader :=
  (.error r, (s.after (s.sysPageUnmap parent utemp)).2)

/-- `init_stack`.  There is no value when `string_size` has overflowed: the stores then go anywhere. -/
def initStack (short : Nat → Bool) (s : Loader) (parent child : Fin NENV) (argv : List CString) :
    Option (Except Int (BitVec 32) × Loader) :=
  if argvStore argv - 8 < utemp then some (.error (-E_NO_MEM), s)
  else
    let (r, s) := s.after (s.sysPageAlloc short parent utemp userRW)
    if r < 0 then some (.error r, s)
    else if ¬ Fits argv then none
    else do
      let s ← toPage parent utemp s 0 PGSIZE fun o => stackMemory (fun _ => 0) argv (UTEMP + o)
      let (r, s) ← (s.sysPageMap short parent utemp child ustackPage userRW).map s.after
      if r < 0 then some (s.stackError parent r)
      else
        let (r, s) := s.after (s.sysPageUnmap parent utemp)
        if r < 0 then some (s.stackError parent r) else some (.ok (UTEMP2USTACK (argvStore argv - 8)), s)

/-- `open`; `files` is what the server answers for a path. -/
def openFile (files : CString → Except Refusal ProgramFile) (flushed : Int) (s : Loader) (e : Fin NENV)
    (path : CString) (mode : Nat) : Option (Except Int (BitVec 32 × ProgramFile) × Loader) :=
  if MAXPATHLEN ≤ path.val.length then some (.error (-(Err.code .badPath : Int)), s)
  else
    match s.fdAlloc e with
    | none => some (.error (-(Err.code .maxOpen : Int)), s)
    | some fd =>
      match files path with
      | .error r => (s.fdClose flushed e fd false).map fun c => (.error r.val, (s.after c).2)
      | .ok f => some (.ok (fd2num fd, f), { s with toPaging := { s.toPaging with
          toSpaces := s.alloc e (PGNUM fd.toNat) ⟨shareRW, shareRW_valid⟩ (openedFd mode) } })

def mapSegments (short : Nat → Bool) (f : ProgramFile) (fd : BitVec 32) (parent child : Fin NENV) :
    List ProgHeader → Loader → Option (Int × Loader)
  | [], s => some (0, s)
  | ph :: phs, s =>
    if ph.type ≠ ELF_PROG_LOAD then mapSegments short f fd parent child phs s
    else do
      let (r, s) ← s.mapSegment short f (ph.segment fd) parent child
      if r < 0 then some (r, s) else mapSegments short f fd parent child phs s

/-- One round of `copy_shared_pages`; the result of the call is not looked at. -/
def copySharedPage (short : Nat → Bool) (parent child : Fin NENV) (s : Loader) (n : Nat) : Option Loader :=
  let va := BitVec.ofNat 32 (n * PGSIZE)
  let perm := (s.perm parent va).toNat
  if perm &&& PTE_P ≠ 0 ∧ perm &&& PTE_U ≠ 0 ∧ perm &&& PTE_SHARE ≠ 0 then
    (s.sysPageMap short parent va child va (BitVec.ofNat 32 (PTE_SHARE ||| PTE_SYSCALL))).map fun c => (s.after c).2
  else some s

def copySharedPages (short : Nat → Bool) (s : Loader) (parent child : Fin NENV) : Option Loader :=
  (List.range NUPAGE).foldlM (copySharedPage short parent child) s

end Loader

/-- The program that spawns another one, and what the kernel keeps: `env_free_list`, `eip` and `esp` of each
environment, and which may run. -/
structure Spawner extends Loader where
  curenv : Fin NENV
  freeList : List (Fin NENV)
  frames : Fin NENV → BitVec 32 × BitVec 32
  runnable : Fin NENV → Bool
  curenv_taken : curenv ∉ freeList

namespace Spawner

/-- `sys_exofork`: `env_alloc` takes the first free environment. -/
def sysExofork (short : Nat → Bool) (s : Spawner) : Except Int (Fin NENV) × Spawner :=
  match s.freeList.head? with
  | none => (.error (-E_NO_FREE_ENV), s)
  | some child =>
    if short s.calls then (.error (-E_NO_MEM), { s with calls := s.calls + 1 })
    else (.ok child, { s with
      toPaging := ⟨s.clear child, s.calls + 1⟩
      freeList := s.freeList.tail
      frames := Function.update s.frames child (s.frames s.curenv)
      runnable := Function.update s.runnable child false
      curenv_taken := fun h => s.curenv_taken (List.mem_of_mem_tail h) })

/-- `sys_env_destroy` of an environment that is not running; it does not return if it destroys the caller. -/
def sysEnvDestroy (s : Spawner) (e : Fin NENV) : Option Spawner :=
  if h : e = s.curenv then none
  else some { s with
    toPaging := { s.toPaging with toSpaces := s.clear e }
    freeList := e :: s.freeList
    curenv_taken := fun hm => (List.mem_cons.mp hm).elim (fun he => h he.symm) s.curenv_taken }

def closeFd (flushed : Int) (s : Spawner) (fd : BitVec 32) : Option Spawner :=
  (s.close flushed s.curenv fd).map fun c => { s with toPaging := c.2 }

/-- `sys_env_set_trapframe` and `sys_env_set_status` for the child, which do not fail. -/
def release (s : Spawner) (child : Fin NENV) (eip esp : BitVec 32) : Spawner :=
  { s with
    frames := Function.update s.frames child (eip, esp)
    runnable := Function.update s.runnable child true }

def loadChild (short : Nat → Bool) (flushed : Int) (s : Spawner) (f : ProgramFile) (fd : BitVec 32)
    (child : Fin NENV) (esp : BitVec 32) : Option (Except Int (Fin NENV) × Spawner) := do
  let (r, l) ← Loader.mapSegments short f fd s.curenv child (progHeaders s.elfBuf) s.toLoader
  let s := { s with toLoader := l }
  if r < 0 then
    let s ← s.sysEnvDestroy child
    let s ← s.closeFd flushed fd
    some (.error r, s)
  else
    let s ← s.closeFd flushed fd
    let l ← s.copySharedPages short s.curenv child
    some (.ok child, release { s with toLoader := l } child (BitVec.ofNat 32 (u32 s.elfBuf 24)) esp)

/-- `spawn` once the header was read.  The two early returns leave the descriptor open. -/
def makeChild (short : Nat → Bool) (flushed : Int) (s : Spawner) (f : ProgramFile) (fd : BitVec 32)
    (argv : List CString) : Option (Except Int (Fin NENV) × Spawner) :=
  match s.sysExofork short with
  | (.error r, s) => some (.error r, s)
  | (.ok child, s) => do
    let (r, l) ← s.initStack short s.curenv child argv
    let s := { s with toLoader := l }
    match r with
    | .error r => some (.error r, s)
    | .ok esp => s.loadChild short flushed f fd child esp

def loadOpened (short : Nat → Bool) (flushed : Int) (s : Spawner) (f : ProgramFile) (fd : BitVec 32)
    (argv : List CString) : Option (Except Int (Fin NENV) × Spawner) := do
  let (r, l) ← s.readn f s.curenv fd Loader.toElfBuf 512
  let s := { s with toLoader := l }
  if r ≠ 512 ∨ u32 s.elfBuf 0 ≠ ELF_MAGIC then
    let s ← s.closeFd flushed fd
    some (.error (-E_NOT_EXEC), s)
  else s.makeChild short flushed f fd argv

/-- `spawn`: the value returned if it is negative, and otherwise the child. -/
def spawn (short : Nat → Bool) (files : CString → Except Refusal ProgramFile) (flushed : Int) (s : Spawner)
    (prog : CString) (argv : List CString) : Option (Except Int (Fin NENV) × Spawner) := do
  let (r, l) ← s.openFile files flushed s.curenv prog O_RDONLY
  let s := { s with toLoader := l }
  match r with
  | .error r => some (.error r, s)
  | .ok (fd, f) => s.loadOpened short flushed f fd argv

end Spawner

end DamnOS.User
