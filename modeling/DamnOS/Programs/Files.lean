import DamnOS.Server.OpenDiscipline
import DamnOS.FileSystem.Components

/-!
# Files in user programs

The calls of `file.c` and `fd.c` on files.  A request is written into `fsipcbuf`, the server gets that
page mapped at `fsreq`, works in it, and its answer is found in the same page.
-/

namespace DamnOS.Programs

open DamnOS.Framework
open DamnOS.FileSystem
open DamnOS.Server

/-- How many descriptors a program may hold. -/
def MAXFD : Nat := 32

def O_RDONLY : Nat := 0
def O_WRONLY : Nat := 1
def O_ACCMODE : Nat := 3

/-- What is mapped at a descriptor: the `Fd` page of a row of the server's table, or the page of
another device. -/
inductive Fd where
  | file (row : Nat)
  | other
  deriving DecidableEq

/-- A program, with the server it talks to. -/
structure Client where
  server : State
  fsipcbuf : Nat → UInt8
  fds : Nat → Option Fd

/-- How a program comes to a stop: the server panics, it panics itself, or it turns to a device that
is no file. -/
inductive Stop where
  | server (p : Panic)
  | panic
  | foreign
  deriving DecidableEq

abbrev C := EStateM Stop Client

namespace Client

/-- The server is done with a request; the page of the request is shared. -/
def reply (c : Client) (t : State) : Client :=
  { c with server := t, fsipcbuf := fun i => t.world.byte (fsreq + i) }

def fdAlloc (c : Client) : Option Nat := (List.range MAXFD).find? fun i => (c.fds i).isNone

def fdLookup (c : Client) (fd : Nat) : Option Fd := if fd < MAXFD then c.fds fd else none

/-- `fd_omode & O_ACCMODE`, and `fd_file.id`. -/
def accmode (c : Client) (i : Nat) : Nat := (c.server.opentab i).mode &&& O_ACCMODE
def fileid (c : Client) (i : Nat) : Nat := (c.server.opentab i).fileid

/-- The page of a reply is mapped at a descriptor. -/
def map (c : Client) (fd : Nat) (row : Option Nat) : Client :=
  { c with fds := Function.update c.fds fd (row.map Fd.file) }

/-- `sys_page_unmap` of a descriptor with the page of row `i`. -/
def unmap (c : Client) (fd i : Nat) : Client :=
  { c with
    server := { c.server with
      pageref := Function.update c.server.pageref i ((c.server.pageref i + 65535) % 65536) }
    fds := Function.update c.fds fd none }

end Client

def put (a n : Nat) (f : Nat → UInt8) : C Unit :=
  modify fun c => { c with fsipcbuf := splice c.fsipcbuf a n f }

def fsipc (rt : Nat) (r : Request) : C Int := fun c =>
  match r.handler rt (c.server.receive c.fsipcbuf) with
  | .ok v t => .ok v (c.reply t)
  | .error (.err e) t => .ok (-(e.code : Int)) (c.reply t)
  | .error (.panic p) t => .error (.server p) (c.reply t)

def openFile (rt : Nat) (path : List UInt8) (mode : Nat) : C Int :=
  if MAXPATHLEN ≤ path.length then pure (-(Err.code .badPath : Int)) else do
    let c ← get
    match c.fdAlloc with
    | none => pure (-(Err.code .maxOpen : Int))
    | some fd => do
      put 0 (path.length + 1) fun i => path.getD i 0
      put MAXPATHLEN 4 (leByte mode)
      let r ← fsipc rt .open
      if r < 0 then pure r else do
        if r = 0 then modify fun t => t.map fd c.server.freeRow else pure ()
        pure fd

/-- `devfile_read`: the count, and the bytes that were moved. -/
def devfileRead (rt i n : Nat) : C (Int × List UInt8) := do
  let c ← get
  put 0 4 (leByte (c.fileid i))
  put 4 4 (leByte n)
  let r ← fsipc rt .read
  let c ← get
  pure (r, (List.range r.toNat).map c.fsipcbuf)

def devfileWrite (rt i : Nat) (bytes : List UInt8) : C Int := do
  let c ← get
  let n := min bytes.length (PGSIZE - 8)
  put 0 4 (leByte (c.fileid i))
  put 4 4 (leByte n)
  put 8 n fun j => bytes.getD j 0
  fsipc rt .write

def devfileFlush (rt i : Nat) : C Int := do
  let c ← get
  put 0 4 (leByte (c.fileid i))
  fsipc rt .flush

def read (rt fd n : Nat) : C (Int × List UInt8) := do
  let c ← get
  match c.fdLookup fd with
  | none => pure (-(Err.code .inval : Int), [])
  | some .other => throw .foreign
  | some (.file i) =>
    if c.accmode i = O_WRONLY then pure (-(Err.code .inval : Int), []) else devfileRead rt i n

def write (rt fd : Nat) (bytes : List UInt8) : C Int := do
  let c ← get
  match c.fdLookup fd with
  | none => pure (-(Err.code .inval : Int))
  | some .other => throw .foreign
  | some (.file i) =>
    if c.accmode i = O_RDONLY then pure (-(Err.code .inval : Int)) else devfileWrite rt i bytes

def close (rt fd : Nat) : C Int := do
  let c ← get
  match c.fdLookup fd with
  | none => pure (-(Err.code .inval : Int))
  | some .other => throw .foreign
  | some (.file i) => do
    let r ← devfileFlush rt i
    modify fun t => t.unmap fd i
    pure r

/-- The loop of `readn`; every round adds to what was read. -/
def readnLoop (rt fd n : Nat) : Nat → List UInt8 → C (Int × List UInt8)
  | 0, got => pure (got.length, got)
  | fuel + 1, got =>
    if got.length < n then do
      let m ← read rt fd (n - got.length)
      if m.1 < 0 then pure (m.1, got)
      else if m.1 = 0 then pure (got.length, got)
      else readnLoop rt fd n fuel (got ++ m.2)
    else pure (got.length, got)

/-- `readn`: the count, and what stands in the buffer. -/
def readn (rt fd n : Nat) : C (Int × List UInt8) := readnLoop rt fd n n []

theorem word_receive (s : State) (page : Nat → UInt8) {a : Nat} (ha : a + 4 ≤ PGSIZE) :
    (s.receive page).world.word (fsreq + a) = u32 page a := by
  refine u32_congr fun i hi => ?_
  rw [Nat.add_assoc]
  exact byte_receive s page (by omega)

private theorem reqPath_receive (s : State) {page : Nat → UInt8} {path : List UInt8} (hpath : (0 : UInt8) ∉ path)
    (hlen : path.length < MAXPATHLEN) (hpage : ∀ i ≤ path.length, page i = path.getD i 0) :
    (s.receive page).reqPath = path := by
  simp only [MAXPATHLEN] at hlen
  have hbytes : ((List.range (MAXPATHLEN - 1)).map fun i => (s.receive page).world.byte (fsreq + i)) =
      (List.range (MAXPATHLEN - 1)).map page := by
    refine List.map_congr_left fun i hi => byte_receive s page ?_
    have hlt := List.mem_range.mp hi
    simp only [MAXPATHLEN, PGSIZE] at *
    omega
  rw [State.reqPath, hbytes]
  apply takeWhile_terminated hpath
  · rw [List.prefix_iff_eq_take]
    apply List.ext_getElem
    · simp [MAXPATHLEN]
      omega
    · intro i hi hi'
      simp only [List.getElem_take, List.getElem_map, List.getElem_range]
      rw [hpage i hi.le]
      simp [hi]
  · rcases Nat.lt_or_ge path.length 127 with hlt | hge
    · right
      have hp := hpage path.length le_rfl
      simp [MAXPATHLEN, hlt, hp]
    · left
      simp [MAXPATHLEN]
      omega

def openPage (buf : Nat → UInt8) (path : List UInt8) (mode : Nat) : Nat → UInt8 :=
  splice (splice buf 0 (path.length + 1) fun i => path.getD i 0) MAXPATHLEN 4 (leByte mode)

theorem reqPath_openPage (s : State) (buf : Nat → UInt8) {path : List UInt8} (mode : Nat)
    (hpath : (0 : UInt8) ∉ path) (hlen : path.length < MAXPATHLEN) :
    (s.receive (openPage buf path mode)).reqPath = path := by
  refine reqPath_receive s hpath hlen fun i hi => ?_
  rw [openPage, splice_outside _ _ (by omega), splice_inside _ _ (by omega), Nat.sub_zero]

theorem reqOmode_openPage (s : State) (buf : Nat → UInt8) (path : List UInt8) {mode : Nat}
    (hmode : mode < 4294967296) : (s.receive (openPage buf path mode)).reqOmode = mode := by
  rw [State.reqOmode, word_receive s _ (by decide), openPage, u32_splice_same]
  exact Nat.mod_eq_of_lt hmode

private theorem serveOpen_row (rt : Nat) {s : State} {i : Nat} (hrow : s.freeRow = some i)
    (hmkdir : s.wants O_MKDIR = false) : serveOpen rt s = openAt rt s.reqPath i (s.take i) := by
  have halloc : openfileAlloc s = .ok i (s.take i) := by
    have hfind : (List.range MAXOPEN).find? (fun i => s.pageref i ≤ 1) = some i := hrow
    rw [openfileAlloc, bind_ok (get_run s), hfind]
    rfl
  have hnone : call (if s.wants O_MKDIR then attempt (fileCreate s.reqPath FTYPE_DIR) else pure (.ok 0)) s =
      .ok (.ok 0) s := by
    rw [hmkdir]
    rfl
  rw [serveOpen, bind_ok (get_run s), bind_ok hnone]
  exact bind_ok halloc

theorem serveOpen_file (rt : Nat) {s : State} {i f : Nat} {w v : World} (hrow : s.freeRow = some i)
    (hmkdir : s.wants O_MKDIR = false) (htrunc : s.wants O_TRUNC = false)
    (hid : ((s.opentab i).fileid + MAXOPEN) % 4294967296 < 2147483648)
    (hopen : openOrCreate s.reqPath (s.wants O_CREAT) (s.wants O_EXCL) s.world = .ok f w)
    (hagain : fileOpen s.reqPath w = .ok f v) (hf : f ≠ 0) :
    serveOpen rt s = .ok 0 ({ s.take i with world := v }.give i f s.reqOmode) := by
  have hpos : ¬toS32 ((s.take i).opentab i).fileid < 0 := by
    simp only [State.take, Function.update_self]
    unfold toS32
    split_ifs <;> omega
  have h1 : call (openOrCreate s.reqPath ((s.take i).wants O_CREAT) ((s.take i).wants O_EXCL)) (s.take i) =
      .ok f { s.take i with world := w } := by
    change call (openOrCreate s.reqPath (s.wants O_CREAT) (s.wants O_EXCL)) (s.take i) = _
    have hw : (s.take i).world = s.world := rfl
    rw [call, hw, hopen]
  have h2 : call (fileOpen s.reqPath) { s.take i with world := w } = .ok f { s.take i with world := v } := by
    rw [call, hagain]
  have htr : (s.take i).wants O_TRUNC = false := htrunc
  rw [serveOpen_row rt hrow hmkdir, openAt, bind_ok (get_run _), if_neg hpos, bind_ok h1]
  dsimp only
  rw [htr, if_neg (by decide), bind_ok h2, bind_ok (modify_run _ _), if_neg hf]
  rfl

theorem serveOpen_exhausted (rt : Nat) {s : State} {i : Nat} (hrow : s.freeRow = some i)
    (hmkdir : s.wants O_MKDIR = false)
    (hid : 2147483648 ≤ ((s.opentab i).fileid + MAXOPEN) % 4294967296) :
    ∃ r : Int, r < 0 ∧ serveOpen rt s = .ok r (s.take i) := by
  have hneg : toS32 ((s.take i).opentab i).fileid < 0 := by
    simp only [State.take, Function.update_self]
    unfold toS32
    split_ifs <;> omega
  refine ⟨_, hneg, ?_⟩
  rw [serveOpen_row rt hrow hmkdir, openAt, bind_ok (get_run _), if_pos hneg]
  rfl

section Handlers

variable {s : State} {i : Nat} (hvalid : s.Valid s.reqFileid) (hrow : s.reqFileid % MAXOPEN = i)
include hvalid hrow

private theorem openfileLookup_run : openfileLookup s.reqFileid s = .ok i s := by
  rw [openfileLookup, bind_ok (get_run s), if_pos hvalid, hrow]
  rfl

theorem serveRead_run {r : Int} {w : World}
    (h : fileRead (s.opentab i).file fsreq s.reqWord (s.fdOffset i) s.world = .ok r w) :
    serveRead s = .ok r ({ s with world := w }.advance i r) := by
  have hcall : call (fileRead (s.opentab i).file fsreq s.reqWord (s.fdOffset i)) s =
      .ok r { s with world := w } := by
    rw [call, h]
  rw [serveRead, bind_ok (get_run s), bind_ok (openfileLookup_run hvalid hrow), bind_ok hcall]
  rfl

theorem serveWrite_run {r : Int} {w : World}
    (h : fileWrite (s.opentab i).file (fsreq + 8) s.reqWord (s.fdOffset i) s.world = .ok r w) :
    serveWrite s = .ok r ({ s with world := w }.advance i r) := by
  have hcall : call (fileWrite (s.opentab i).file (fsreq + 8) s.reqWord (s.fdOffset i)) s =
      .ok r { s with world := w } := by
    rw [call, h]
  rw [serveWrite, bind_ok (get_run s), bind_ok (openfileLookup_run hvalid hrow), bind_ok hcall]
  rfl

theorem serveFlush_run {k : Nat} {w v : World}
    (hk : load16 ((s.opentab i).file + offInInd) s.world = .ok k w) (h0 : k ≠ 0)
    (h : fileFlush (s.opentab i).file w = .ok () v) : serveFlush s = .ok 0 { s with world := v } := by
  have hload : call (load16 ((s.opentab i).file + offInInd)) s = .ok k { s with world := w } := by
    rw [call, hk]
  have hcall : call (fileFlush (s.opentab i).file) { s with world := w } = .ok () { s with world := v } := by
    rw [call, h]
  rw [serveFlush, bind_ok (get_run s), bind_ok (openfileLookup_run hvalid hrow), bind_ok hload, if_pos h0,
    bind_ok hcall]
  rfl

end Handlers

theorem present_receive (s : State) (page : Nat → UInt8) {a n : Nat} (ha : a + n ≤ PGSIZE) :
    ∀ p ∈ pagesOf (fsreq + a) n, (s.receive page).world.present p = true := by
  intro p hp
  have he : p = fsreq / PGSIZE := by
    unfold pagesOf at hp
    split_ifs at hp with hn
    · cases hp
    · rw [List.mem_range'_1] at hp
      simp only [fsreq, PGSIZE] at *
      omega
  rw [he]
  simp [State.receive, World.fill, World.write, fsreq, PGSIZE]

end DamnOS.Programs
