import DamnOS.FileSystem.Runs

/-!
# The file server

The request handlers of `serv.c` over the file system.  A request arrives in a page that is mapped
at `fsreq`, directly below the disk map; the handlers read its fields there.  The `Fd` pages are
shared with the clients, who may store any seek position into them and drop their mappings.
-/

namespace DamnOS.Server

open DamnOS.Framework
open DamnOS.FileSystem

def MAXOPEN : Nat := 1024
/-- The address at which request pages are received. -/
def fsreq : Nat := 0x0ffff000

def O_CREAT : Nat := 0x0100
def O_TRUNC : Nat := 0x0200
def O_EXCL : Nat := 0x0400
def O_MKDIR : Nat := 0x0800

/-- `struct OpenFile`.  The last field is kept for the statements and never read by the code: the
inode number that the entry had when the file was opened. -/
structure OpenFile where
  fileid : Nat
  file : Nat
  mode : Nat
  opened : Nat

/-- The file system, the table of open files, and for each of its rows the `Fd` page: how often it
is mapped, and the seek position in it. -/
structure State where
  world : World
  opentab : Nat → OpenFile
  pageref : Nat → Nat
  fdOffset : Nat → Int

abbrev S := EStateM Exc State

def call {α : Type} (m : M α) : S α := fun s =>
  match m s.world with
  | .ok a w => .ok a { s with world := w }
  | .error e w => .error e { s with world := w }

section Call

variable {α : Type} {m : M α} {s : State} {w : World}

theorem call_ok {a : α} (h : m s.world = .ok a w) : call m s = .ok a { s with world := w } := by
  rw [call, h]

theorem call_error {e : Exc} (h : m s.world = .error e w) : call m s = .error e { s with world := w } := by
  rw [call, h]

end Call

namespace State

/-- `req_fileid` and the word after it, `req_n` or `req_size`. -/
def reqFileid (s : State) : Nat := s.world.word fsreq
def reqWord (s : State) : Nat := s.world.word (fsreq + 4)

/-- `req_path`, cut at its first NUL or at the last byte of the array. -/
def reqPath (s : State) : List UInt8 :=
  ((List.range (MAXPATHLEN - 1)).map fun i => s.world.byte (fsreq + i)).takeWhile (· != 0)

def reqOmode (s : State) : Nat := s.world.word (fsreq + MAXPATHLEN)

def wants (s : State) (flag : Nat) : Bool := s.reqOmode &&& flag != 0

/-- `openfile_lookup` succeeds for `fileid`. -/
def Valid (s : State) (fileid : Nat) : Prop :=
  1 < s.pageref (fileid % MAXOPEN) ∧ (s.opentab (fileid % MAXOPEN)).fileid = fileid

instance (s : State) (fileid : Nat) : Decidable (s.Valid fileid) := inferInstanceAs (Decidable (_ ∧ _))

/-- Row `i` of the table is taken for a new file id; its `Fd` page is mapped and cleared. -/
def take (s : State) (i : Nat) : State :=
  { s with
    opentab := Function.update s.opentab i
      { s.opentab i with fileid := ((s.opentab i).fileid + MAXOPEN) % 4294967296 }
    pageref := Function.update s.pageref i 1
    fdOffset := Function.update s.fdOffset i 0 }

/-- The entry `f` is stored in row `i`, and the `Fd` page is sent to the client. -/
def give (s : State) (i f mode : Nat) : State :=
  { s with
    opentab := Function.update s.opentab i
      { s.opentab i with file := f, mode := mode, opened := s.world.inInd f }
    pageref := Function.update s.pageref i (s.pageref i + 1) }

def advance (s : State) (i : Nat) (r : Int) : State :=
  if 0 ≤ r then
    { s with fdOffset := Function.update s.fdOffset i (toS32 (toU32 (s.fdOffset i + r))) }
  else s

end State

/-- `openfile_alloc`: the first row whose `Fd` page no client has mapped. -/
def openfileAlloc : S Nat := do
  let s ← get
  match (List.range MAXOPEN).find? fun i => s.pageref i ≤ 1 with
  | none => throw (.err .maxOpen)
  | some i => do
    set (s.take i)
    pure i

/-- `openfile_lookup`: the row of `fileid`. -/
def openfileLookup (fileid : Nat) : S Nat := do
  let s ← get
  if s.Valid fileid then pure (fileid % MAXOPEN) else throw (.err .inval)

/-- The part of `serve_open` that finds the entry, under `O_CREAT` or without. -/
def openOrCreate (path : List UInt8) (creat excl : Bool) : M Nat :=
  if creat then do
    let r ← attempt (fileCreate path FTYPE_REG)
    match r with
    | .ok f => pure f
    | .error e => if excl = false ∧ e = .fileExists then fileOpen path else throw (.err e)
  else fileOpen path

/-- `serve_open` once a row was found; `rt` is the address of `rt_entry`.  A file id from 2^31 on
reads as a negative number, and is returned like an error. -/
def openAt (rt : Nat) (path : List UInt8) (i : Nat) : S Int := do
  let s ← get
  if toS32 (s.opentab i).fileid < 0 then pure (toS32 (s.opentab i).fileid) else do
    let f ← call (openOrCreate path (s.wants O_CREAT) (s.wants O_EXCL))
    if s.wants O_TRUNC then call (fileSetSize f 0) else pure ()
    let f ← call (fileOpen path)
    modify fun t => t.give i (if f = 0 then rt else f) s.reqOmode
    pure 0

/-- `serve_open`.  In `(r = file_create(..) < 0)` the comparison is assigned, so a directory that
cannot be created makes the handler return 1. -/
def serveOpen (rt : Nat) : S Int := do
  let s ← get
  let r ← call (if s.wants O_MKDIR then attempt (fileCreate s.reqPath FTYPE_DIR) else pure (.ok 0))
  match r with
  | .error _ => pure 1
  | .ok _ => do
    let i ← openfileAlloc
    openAt rt s.reqPath i

def serveSetSize : S Int := do
  let s ← get
  let i ← openfileLookup s.reqFileid
  call (fileSetSize (s.opentab i).file (toS32 s.reqWord))
  pure 0

/-- `serve_read`: the bytes overwrite the request. -/
def serveRead : S Int := do
  let s ← get
  let i ← openfileLookup s.reqFileid
  let r ← call (fileRead (s.opentab i).file fsreq s.reqWord (s.fdOffset i))
  modify fun t => t.advance i r
  pure r

/-- `serve_write`: the bytes follow the two words of the request. -/
def serveWrite : S Int := do
  let s ← get
  let i ← openfileLookup s.reqFileid
  let r ← call (fileWrite (s.opentab i).file (fsreq + 8) s.reqWord (s.fdOffset i))
  modify fun t => t.advance i r
  pure r

/-- `serve_flush`; the root is flushed through its inode, taken for an entry. -/
def serveFlush : S Int := do
  let s ← get
  let i ← openfileLookup s.reqFileid
  let k ← call (load16 ((s.opentab i).file + offInInd))
  call (fileFlush (if k ≠ 0 then (s.opentab i).file else inodeVa 0))
  pure 0

def serveMkdir : S Int := do
  let s ← get
  let _ ← call (fileCreate s.reqPath FTYPE_DIR)
  pure 0

def serveRemove : S Int := do
  let s ← get
  call (fileRemove s.reqPath)
  pure 0

def serveSync : S Int := do
  call fsSync
  pure 0

/-- The request codes with a handler, `FSREQ_STAT` aside. -/
inductive Request where
  | open
  | setSize
  | read
  | write
  | flush
  | mkdir
  | remove
  | sync
  deriving DecidableEq

def Request.handler (rt : Nat) : Request → S Int
  | .open => serveOpen rt
  | .setSize => serveSetSize
  | .read => serveRead
  | .write => serveWrite
  | .flush => serveFlush
  | .mkdir => serveMkdir
  | .remove => serveRemove
  | .sync => serveSync

end DamnOS.Server
