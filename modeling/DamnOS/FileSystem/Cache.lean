import DamnOS.Framework.Program
import DamnOS.FileSystem.Layout

/-!
# The block cache

The file server sees the disk through page faults: an access to an absent page of the disk map
reads the block in, a store sets the dirty bit of the page, and `flush_block` writes a present
dirty page back.  Three histories are kept beside the machine state and never read by the code:
the block writes that reached the disk, the data accesses to file blocks, and the inode numbers
that were followed.
-/

namespace DamnOS.FileSystem

open DamnOS.Framework

/-- One access to file data: the block numbers of the accessed inode at that moment, the address
in the disk map, the caller's buffer, and the length. -/
inductive Access where
  | read (slots : List Nat) (addr buf len : Nat)
  | write (slots : List Nat) (addr buf len : Nat)
  | entry (slots : List Nat) (addr len : Nat)
  deriving DecidableEq

/-- The access stores to address `x` of the disk map. -/
def Access.Stores : Access → Nat → Prop
  | .read _ _ _ _, _ => False
  | .write _ addr _ len, x => addr ≤ x ∧ x < addr + len
  | .entry _ addr len, x => addr ≤ x ∧ x < addr + len

structure World where
  mem : Nat → UInt8
  /-- `PTE_P` and `PTE_D`, by page number. -/
  present : Nat → Bool
  dirty : Nat → Bool
  disk : Nat → Nat → UInt8
  /-- Histories, latest first. -/
  writes : List (Nat × (Nat → UInt8))
  accesses : List Access
  followed : List Nat

inductive Panic where
  | freeZeroBlock
  | freeZeroInode
  | badBlock (blockno : Nat)
  | pageFault (page : Nat)
  | readNonexistent (blockno : Nat)
  | readFree (blockno : Nat)
  | flushBadVa (va : Nat)
  deriving DecidableEq

/-- The error codes of `error.h` that the file system returns. -/
inductive Err where
  | inval
  | noDisk
  | noInode
  | maxOpen
  | notFound
  | badPath
  | badName
  | fileExists
  deriving DecidableEq

def Err.code : Err → Nat
  | .inval => 3
  | .noDisk => 9
  | .noInode => 10
  | .maxOpen => 11
  | .notFound => 12
  | .badPath => 13
  | .badName => 14
  | .fileExists => 15

/-- A call stops the server, or returns a negative error code to its caller. -/
inductive Exc where
  | panic (p : Panic)
  | err (e : Err)
  deriving DecidableEq

abbrev M := EStateM Exc World

/-- Run `m` and hand its error code to the caller; a panic stays a panic. -/
def attempt {α : Type} (m : M α) : M (Except Err α) := fun w =>
  match m w with
  | .ok a t => .ok (.ok a) t
  | .error (.err e) t => .ok (.error e) t
  | .error (.panic p) t => .error (.panic p) t

/-- An `if` statement without an `else` branch. -/
def onlyIf (c : Prop) [Decidable c] (m : M Unit) : M Unit := if c then m else pure ()

namespace World

/-- The byte an access at `a` finds: the page if it is mapped, otherwise the block it is read
from. -/
def byte (w : World) (a : Nat) : UInt8 :=
  if w.present (a / PGSIZE) = true ∨ a < DISKMAP then w.mem a
  else w.disk (a / PGSIZE - superPg) (a % PGSIZE)

/-- The contents of block `b` as the server sees them. -/
def block (w : World) (b o : Nat) : UInt8 := w.byte (blockVa b + o)

/-- Super block and inode table as the server sees them, and as they stand on the disk. -/
def cached (w : World) : Meta := decode (w.block 0) (w.block 1)
def onDisk (w : World) : Meta := decode (w.disk 0) (w.disk 1)

def cell (w : World) (a : Nat) : Nat := u16 w.byte a
def word (w : World) (a : Nat) : Nat := u32 w.byte a

def blkNum (w : World) : Nat := w.cell (super + offBlkNum)
def inNum (w : World) : Nat := w.cell (super + offInNum)

/-- Read page `p` of the disk map in; the new mapping is clean. -/
def load (w : World) (p : Nat) : World :=
  { w with
    mem := fun a => if a / PGSIZE = p then w.disk (p - superPg) (a % PGSIZE) else w.mem a
    present := Function.update w.present p true
    dirty := Function.update w.dirty p false }

/-- Store `n` bytes at `a`; the processor sets the dirty bit of every page it writes. -/
def write (w : World) (a n : Nat) (f : Nat → UInt8) : World :=
  { w with
    mem := splice w.mem a n f
    dirty := fun p => decide (0 < n ∧ a / PGSIZE ≤ p ∧ p ≤ (a + n - 1) / PGSIZE) || w.dirty p }

/-- Map the pages of a buffer outside the disk map and store `n` bytes into it. -/
def fill (w : World) (a n : Nat) (f : Nat → UInt8) : World :=
  { w with
    present := fun p => decide (0 < n ∧ a / PGSIZE ≤ p ∧ p ≤ (a + n - 1) / PGSIZE) || w.present p
    }.write a n f

/-- `ide_write` of page `p`, and the remapping that clears its dirty bit. -/
def flush (w : World) (p : Nat) : World :=
  if w.present p && w.dirty p then
    { w with
      disk := Function.update w.disk (p - superPg) fun o => w.mem (p * PGSIZE + o)
      dirty := Function.update w.dirty p false
      writes := (p - superPg, fun o => w.mem (p * PGSIZE + o)) :: w.writes }
  else w

def follow (w : World) (k : Nat) : World := { w with followed := k :: w.followed }

def log (w : World) (x : Access) : World := { w with accesses := x :: w.accesses }

def blockIsFree (w : World) (b : Nat) : Bool :=
  if w.blkNum ≤ b then false
  else (w.word (super + offBlkOcp + 4 * (b / 32)) &&& (1 <<< (b % 32))) == 0

def inodeIsFree (w : World) (k : Nat) : Bool :=
  if w.inNum ≤ k then false
  else (w.word (super + offInOcp + 4 * (k / 32)) &&& (1 <<< (k % 32))) == 0

end World

/-- `bc_pgfault`, for a fault on page `p`. -/
def bcPgfault (p : Nat) : M Unit := do
  let w ← get
  if p * PGSIZE < DISKMAP ∨ DISKMAP + DISKSIZE ≤ p * PGSIZE then throw (.panic (.pageFault p))
  else if w.blkNum ≤ p - superPg then throw (.panic (.readNonexistent (p - superPg)))
  else do
    modify fun w => w.load p
    let w ← get
    if w.blockIsFree (p - superPg) then throw (.panic (.readFree (p - superPg))) else pure ()

def touchPage (p : Nat) : M Unit := do
  let w ← get
  if w.present p then pure () else bcPgfault p

/-- The pages that `n` bytes at `a` lie on. -/
def pagesOf (a n : Nat) : List Nat :=
  if n = 0 then [] else List.range' (a / PGSIZE) ((a + n - 1) / PGSIZE + 1 - a / PGSIZE)

def touch (a n : Nat) : M Unit := (pagesOf a n).forM touchPage

def load16 (a : Nat) : M Nat := do
  touch a 2
  let w ← get
  pure (w.cell a)

def store (a n : Nat) (f : Nat → UInt8) : M Unit := do
  touch a n
  modify fun w => w.write a n f

def store16 (a v : Nat) : M Unit := store a 2 (leByte v)

def store32 (a v : Nat) : M Unit := store a 4 (leByte v)

/-- `strcpy` of a string to `a`, its terminating NUL included. -/
def strcpy (a : Nat) (s : List UInt8) : M Unit := store a (s.length + 1) fun i => s.getD i 0

/-- `memmove`: the old bytes of the source, wherever the regions lie. -/
def memmove (dst src n : Nat) : M Unit := do
  touch src n
  touch dst n
  modify fun w => w.write dst n fun i => w.byte (src + i)

def flushBlock (a : Nat) : M Unit :=
  if a < DISKMAP ∨ DISKMAP + DISKSIZE ≤ a then throw (.panic (.flushBadVa a))
  else modify fun w => w.flush (a / PGSIZE)

def diskaddr (b : Nat) : M Nat := do
  let w ← get
  if w.blkNum ≤ b then throw (.panic (.badBlock b)) else pure (blockVa b)

end DamnOS.FileSystem
