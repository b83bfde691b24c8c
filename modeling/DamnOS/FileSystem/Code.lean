import DamnOS.FileSystem.Cache

/-!
# File system operations

The functions of `damnfs.c`, statement by statement.  Pointers are addresses in the file server,
`if ((r = f()) < 0) return r` is the propagation of an error, and every access goes through the
block cache.
-/

namespace DamnOS.FileSystem

open DamnOS.Framework

def freeBlock (b : Nat) : M Unit := do
  if b = 0 then throw (.panic .freeZeroBlock) else do
    let a := super + offBlkOcp + 4 * (b / 32)
    let w ← get
    store32 a (w.word a &&& (0xFFFFFFFF ^^^ (1 <<< (b % 32))))
    flushBlock super

def freeInode (k : Nat) : M Unit := do
  if k = 0 then throw (.panic .freeZeroInode) else do
    let a := super + offInOcp + 4 * (k / 32)
    let w ← get
    store32 a (w.word a &&& (0xFFFFFFFF ^^^ (1 <<< (k % 32))))
    flushBlock super

/-- `alloc_block`: the loop stops at the first free block. -/
def allocBlock : M Nat := do
  let w ← get
  match (List.range w.blkNum).find? w.blockIsFree with
  | some b => do
    let a := super + offBlkOcp + 4 * (b / 32)
    store32 a (w.word a ||| (1 <<< (b % 32)))
    flushBlock super
    pure b
  | none => throw (.err .noDisk)

def allocInode : M Nat := do
  let w ← get
  match (List.range w.inNum).find? w.inodeIsFree with
  | some k => do
    let a := super + offInOcp + 4 * (k / 32)
    store32 a (w.word a ||| (1 <<< (k % 32)))
    flushBlock super
    pure k
  | none => throw (.err .noInode)

/-- `file_block_walk`: the address of `inode->blk_ind[blockind]`. -/
def fileBlockWalk (inode blockind : Nat) : M Nat :=
  if blockind < NDIRECT then pure (inode + offBlkInd + 2 * blockind) else throw (.err .inval)

/-- The branch of `file_get_block` that fills an empty slot. -/
def fillSlot (inode slot : Nat) : M Unit := do
  let r ← allocBlock
  store16 slot r
  let used ← load16 (inode + offBlkUsed)
  store16 (inode + offBlkUsed) (used + 1)

def fileGetBlock (inode blockind : Nat) : M Nat := do
  let slot ← fileBlockWalk inode blockind
  let b ← load16 slot
  onlyIf (b = 0) (fillSlot inode slot)
  let b ← load16 slot
  let blk ← diskaddr b
  flushBlock inode
  pure blk

def inodeOf (f : Nat) : M Nat := do
  let k ← load16 (f + offInInd)
  modify fun w => w.follow k
  pure (inodeVa k)

/-- `inode->blk_ind`, for the history of data accesses. -/
def World.slotsOf (w : World) (inode : Nat) : List Nat :=
  (List.range NDIRECT).map fun j => w.cell (inode + offBlkInd + 2 * j)

/-- `strcmp(f_name, name) == 0` for the NUL-terminated `name`. -/
def nameMatches (w : World) : Nat → List UInt8 → Bool
  | a, [] => w.byte a == 0
  | a, c :: cs => w.byte a == c && nameMatches w (a + 1) cs

/-- The scan shared by `dir_lookup` and `dir_alloc_entry`: blocks `i .. i + n - 1` of the
directory, and in each the first entry that passes the test. -/
def dirScan (dir : Nat) (test : World → Nat → Bool) : Nat → Nat → M (Option Nat)
  | _, 0 => pure none
  | i, n + 1 => do
    let blk ← fileGetBlock dir i
    touch blk (BLKFILES * DIRESIZE)
    let w ← get
    match (List.range BLKFILES).find? (fun j => test w (blk + DIRESIZE * j)) with
    | some j => pure (some (blk + DIRESIZE * j))
    | none => dirScan dir test (i + 1) n

/-- `dir_lookup`; `none` is `-E_NOT_FOUND`. -/
def dirLookup (dir : Nat) (name : List UInt8) : M (Option Nat) := do
  let nblock ← load16 (dir + offBlkUsed)
  dirScan dir (fun w a => nameMatches w a name) 0 nblock

def bumpSize (dir : Nat) : M Unit := do
  let size ← load16 (dir + offSize)
  store16 (dir + offSize) (size + DIRESIZE)

def dirAllocEntry (dir : Nat) : M Nat := do
  let nblock ← load16 (dir + offBlkUsed)
  let found ← dirScan dir (fun w a => w.byte a == 0) 0 nblock
  match found with
  | some e => do
    bumpSize dir
    pure e
  | none => do
    let used ← load16 (dir + offBlkUsed)
    store16 (dir + offBlkUsed) (used + 1)
    bumpSize dir
    fileGetBlock dir nblock

def slash : UInt8 := 47

def skipSlash (p : List UInt8) : List UInt8 := p.dropWhile (· == slash)

def nameIsValid (name : List UInt8) : Bool :=
  !(decide (MAXNAMELEN ≤ name.length) || name == [46, 46] || name == [46]) &&
    name.all fun c => c != slash && c != 32

/-- How `walk_path` ends without an error, or with `-E_NOT_FOUND` and `*pdir` set. -/
inductive Walk where
  | found (dir entry : Nat)
  | missing (dir : Nat) (lastelem : List UInt8)
  deriving DecidableEq

/-- The loop of `walk_path`; every round takes at least one character off the path. -/
def walkLoop : Nat → List UInt8 → Nat → Nat → Nat → M Walk
  | 0, _, _, _, _ => throw (.err .notFound)
  | fuel + 1, path, f, dir, entry =>
    if path = [] then pure (.found dir entry) else do
    let name := path.takeWhile (· != slash)
    if MAXNAMELEN ≤ name.length then throw (.err .badPath) else do
    let rest := skipSlash (path.dropWhile (· != slash))
    let type ← load16 (f + offType)
    if type ≠ FTYPE_DIR then throw (.err .notFound) else do
    let found ← dirLookup f name
    match found with
    | none => if rest = [] then pure (.missing f name) else throw (.err .notFound)
    | some e => do
      let g ← inodeOf e
      walkLoop fuel rest g f e

/-- `walk_path`; the root has neither directory nor entry. -/
def walkPath (path : List UInt8) : M Walk :=
  if path.head? = some slash then
    let p := skipSlash path
    walkLoop (p.length + 1) p (inodeVa 0) 0 0
  else throw (.err .badPath)

/-- `file_open`: the entry of `path`, null for the root. -/
def fileOpen (path : List UInt8) : M Nat := do
  let r ← walkPath path
  match r with
  | .found _ entry => pure entry
  | .missing _ _ => throw (.err .notFound)

def fileFreeBlock (f blockno : Nat) : M Unit := do
  let inode ← inodeOf f
  let ptr ← fileBlockWalk inode blockno
  let b ← load16 ptr
  if b = 0 then pure () else do
    freeBlock b
    store16 ptr 0

/-- `(size + BLKSIZE - 1) / BLKSIZE` in C arithmetic, as a `uint16_t`. -/
def nblocks (size : Int) : Nat := toU16 ((size + BLKSIZE - 1).tdiv BLKSIZE)

/-- `file_truncate_blocks`; a failing `file_free_block` only prints a warning. -/
def fileTruncateBlocks (f : Nat) (newsize : Int) : M Unit := do
  let inode ← inodeOf f
  let size ← load16 (inode + offSize)
  let old := nblocks size
  let new := nblocks newsize
  (List.range' new (old - new)).forM fun bno => do
    let _ ← attempt (fileFreeBlock f bno)
    pure ()

def fileSetSize (f : Nat) (newsize : Int) : M Unit := do
  let inode ← inodeOf f
  let size ← load16 (inode + offSize)
  onlyIf (newsize < (size : Int)) (fileTruncateBlocks f newsize)
  store16 (inode + offSize) (toU16 newsize)
  flushBlock f

/-- One round of the loop of `file_flush`. -/
def flushSlot (inode i : Nat) : M Unit :=
  if i < NDIRECT then do
    let b ← load16 (inode + offBlkInd + 2 * i)
    if b = 0 then pure () else do
      let blk ← diskaddr b
      flushBlock blk
  else pure ()

def fileFlush (f : Nat) : M Unit := do
  let inode ← inodeOf f
  let size ← load16 (inode + offSize)
  (List.range ((size + BLKSIZE - 1) / BLKSIZE)).forM (flushSlot inode)
  flushBlock inode
  flushBlock f

def fsSync : M Unit := do
  let w ← get
  (List.range' 1 (w.blkNum - 1)).forM fun i => do
    let a ← diskaddr i
    flushBlock a

/-- A store into a directory entry at `a`, recorded as an access to the directory `dir`. -/
def recordEntry (dir a len : Nat) : M Unit :=
  modify fun w => w.log (.entry (w.slotsOf dir) a len)

/-- The block of a new directory, with `".."` and `"."` both naming the new inode. -/
def initDir (inodeno : Nat) : M Unit := do
  let ino := inodeVa inodeno
  let r ← attempt (fileGetBlock ino 0)
  match r with
  | .error e => do
    freeInode inodeno
    throw (.err e)
  | .ok blk => do
    recordEntry ino blk (2 * DIRESIZE)
    strcpy blk [46, 46]
    strcpy (blk + DIRESIZE) [46]
    store16 (blk + DIRESIZE + offInInd) inodeno
    store16 (blk + offInInd) inodeno
    store16 (ino + offSize) (2 * DIRESIZE)

def fileCreate (path : List UInt8) (type : Nat) : M Nat := do
  let r ← walkPath path
  match r with
  | .found _ _ => throw (.err .fileExists)
  | .missing dir name =>
    if nameIsValid name = false then throw (.err .badName) else do
    let entry ← dirAllocEntry dir
    let inodeno ← allocInode
    onlyIf (type = FTYPE_DIR) (initDir inodeno)
    recordEntry dir entry DIRESIZE
    strcpy entry name
    store16 (entry + offInInd) inodeno
    store16 (inodeVa inodeno + offType) type
    fileFlush entry
    pure entry

def fileRemove (path : List UInt8) : M Unit := do
  let r ← walkPath path
  match r with
  | .missing _ _ => throw (.err .notFound)
  | .found dir f => do
    let before ← get
    fileSetSize f 0
    modify fun w => w.log (.entry (before.slotsOf dir) f 1)
    store f 1 fun _ => 0
    let inode ← inodeOf f
    store16 (inode + offSize) 0
    flushBlock f
    flushBlock (inodeVa 0)

/-- `MIN(BLKSIZE - pos % BLKSIZE, offset + count - pos)`, compared and subtracted unsigned. -/
def chunk (pos : Int) (stop : Nat) : Nat :=
  min (toU32 (BLKSIZE - pos.tmod BLKSIZE)) (toU32 (stop - pos))

/-- `blk + pos % BLKSIZE`; the remainder has the sign of `pos`. -/
def inBlock (blk : Nat) (pos : Int) : Nat := ((blk : Int) + pos.tmod BLKSIZE).toNat

/-- The loop of `file_read`; every round advances `pos`. -/
def readLoop (inode stop : Nat) : Nat → Int → Nat → M Unit
  | 0, _, _ => pure ()
  | fuel + 1, pos, buf =>
    if toU32 pos < stop then do
      let blk ← fileGetBlock inode (toU16 (pos.tdiv BLKSIZE))
      let bn := chunk pos stop
      modify fun w => w.log (.read (w.slotsOf inode) (inBlock blk pos) buf bn)
      memmove buf (inBlock blk pos) bn
      readLoop inode stop fuel (pos + bn) (buf + bn)
    else pure ()

/-- `file_read`; the count is returned as a signed integer. -/
def fileRead (f buf count : Nat) (offset : Int) : M Int := do
  let inode ← inodeOf f
  let size ← load16 (inode + offSize)
  if (size : Int) ≤ offset then pure 0 else do
    let count := min count (toU32 (size - offset))
    readLoop inode (toU32 (offset + count)) (count + 1) offset buf
    pure (toS32 count)

def writeLoop (inode stop : Nat) : Nat → Int → Nat → M Unit
  | 0, _, _ => pure ()
  | fuel + 1, pos, buf =>
    if toU32 pos < stop then do
      let blk ← fileGetBlock inode (toU16 (pos.tdiv BLKSIZE))
      let bn := chunk pos stop
      modify fun w => w.log (.write (w.slotsOf inode) (inBlock blk pos) buf bn)
      memmove (inBlock blk pos) buf bn
      writeLoop inode stop fuel (pos + bn) (buf + bn)
    else pure ()

def fileWrite (f buf count : Nat) (offset : Int) : M Int := do
  let inode ← inodeOf f
  let size ← load16 (inode + offSize)
  let stop := toU32 (offset + count)
  onlyIf (size < stop) (fileSetSize f (toS32 stop))
  writeLoop inode stop (count + 1) offset buf
  fileFlush f
  pure (toS32 count)

end DamnOS.FileSystem
