import DamnOS.Framework.Loops
import Mathlib

/-!
# The host tool

`damn` works on an image of the file system in a file of the host.  The types that its header `myfs.h` declares are a
parameter.  The image holds every block, so that no read or write of a block comes back short; `int` variables count
in `Nat`, as the texts and blocks they count are shorter than `2 ^ 31`.
-/

namespace DamnOS.HostTool

open DamnOS.Framework

/-- An unsigned type, with the conversion to it. -/
structure UnsignedType where
  max : Nat
  conv : Int → Nat
  conv_le (v : Int) : conv v ≤ max
  conv_of_le (v : Nat) : v ≤ max → conv v = v

/-- A directory entry as it is compared. -/
structure DirEntry where
  file : List UInt8
  inodeIndex : Nat
deriving DecidableEq

structure Header where
  /-- `index_t`, which the code uses for positions in a block as well. -/
  index : UnsignedType
  /-- The type of the field `size`. -/
  size : UnsignedType
  /-- The type of `sizeof`. -/
  sizeof : UnsignedType
  size_le : size.max ≤ sizeof.max
  /-- A difference of sizes in the type of its operands. -/
  difference : Int → Int
  difference_of_le (v : Nat) : v ≤ size.max → difference v = v
  sizeofDirEntry : Nat
  sizeofDirEntry_pos : 0 < sizeofDirEntry
  /-- The fields of a `struct DirEntry`. -/
  dirEntry : (Fin sizeofDirEntry → UInt8) → DirEntry
  /-- `ROUNDUP`. -/
  roundup : Nat → Nat → Nat
  dvd_roundup (a n : Nat) : 0 < n → n ∣ roundup a n
  le_roundup (a n : Nat) : 0 < n → a ≤ roundup a n
  roundup_lt (a n : Nat) : 0 < n → roundup a n < a + n

/-- A text whose length is an `int`. -/
structure Text where
  bytes : List UInt8
  length_lt : bytes.length < 2 ^ 31

/-- A text of `n` times the same character. -/
def Text.fill (n : Nat) (c : UInt8) (hn : n < 2 ^ 31) : Text :=
  ⟨List.replicate n c, by rwa [List.length_replicate]⟩

structure SuperBlock (h : Header) where
  blockSize : Nat
  blockSize_pos : 0 < blockSize
  blockSize_le : blockSize ≤ h.index.max
  blockNum : Nat
  blockNum_le : blockNum ≤ h.index.max
  blockAvai : Nat → Nat
  inodeAvai : Nat → Nat

structure DamnInode (h : Header) where
  size : Nat
  size_le : size ≤ h.size.max
  blockUsed : Nat
  blockIndex : Nat → Nat

structure Image (h : Header) where
  sb : SuperBlock h
  inode : Nat → DamnInode h
  disk : Nat → Nat → UInt8

def SLOTS : Nat := 8

variable {h : Header}

namespace Header

/-- `buf[j]` for a `struct DirEntry * buf`. -/
def record (h : Header) (buf : Nat → UInt8) (j : Nat) : Fin h.sizeofDirEntry → UInt8 :=
  fun t => buf (j * h.sizeofDirEntry + t)

def setRecord (h : Header) (buf : Nat → UInt8) (j : Nat) (e : Fin h.sizeofDirEntry → UInt8) (a : Nat) : UInt8 :=
  if ha : j * h.sizeofDirEntry ≤ a ∧ a < j * h.sizeofDirEntry + h.sizeofDirEntry then
    e ⟨a - j * h.sizeofDirEntry, by omega⟩
  else buf a

def entry (h : Header) (buf : Nat → UInt8) (j : Nat) : DirEntry := h.dirEntry (h.record buf j)

end Header

namespace Image

variable (im : Image h)

/-- `read_block`: the first bytes of a buffer become those of block `b`. -/
def readBlock (buf : Nat → UInt8) (b : Nat) : Nat → UInt8 :=
  fun t => if t < im.sb.blockSize then im.disk b t else buf t

def writeBlock (buf : Nat → UInt8) (b : Nat) : Image h :=
  { im with disk := Function.update im.disk b fun t => if t < im.sb.blockSize then buf t else im.disk b t }

def setInode (k : Nat) (d : DamnInode h) : Image h := { im with inode := Function.update im.inode k d }

def setAvai (b v : Nat) : Image h :=
  { im with sb := { im.sb with blockAvai := Function.update im.sb.blockAvai b v } }

def setSize (k : Nat) (v : Int) : Image h :=
  im.setInode k { im.inode k with size := h.size.conv v, size_le := h.size.conv_le v }

/-- `allocb`; there is no value when it returns 0, and then nothing has changed. -/
def allocb : Option (Nat × Image h) :=
  ((List.range im.sb.blockNum).find? fun i => im.sb.blockAvai i = 0).map fun i : Nat =>
    (h.index.conv i, im.setAvai i 1)

def zeroBlock (b : Nat) : Image h := if im.sb.blockNum ≤ b then im else im.writeBlock (fun _ => 0) b

/-- `new_block_for_file`; there is no value when it returns 0, and then nothing has changed. -/
def newBlockForFile (k : Nat) : Option (Image h) :=
  if (im.inode k).blockUsed = SLOTS then none
  else im.allocb.map fun r =>
    (r.2.setInode k { r.2.inode k with
      blockIndex := Function.update (r.2.inode k).blockIndex (r.2.inode k).blockUsed r.1
      blockUsed := (r.2.inode k).blockUsed + 1 }).zeroBlock r.1

/-- `free_block_for_file`; nothing uses its value. -/
def freeBlockForFile (k : Nat) : Image h :=
  if (im.inode k).blockUsed = 0 then im
  else (im.setInode k { im.inode k with blockUsed := (im.inode k).blockUsed - 1 }).setAvai
    ((im.inode k).blockIndex ((im.inode k).blockUsed - 1)) 0

/-- `MIN(size - i*block_size, block_size)/sizeof(struct DirEntry)` for inode `k`. -/
def limit (k i : Nat) : Nat :=
  h.sizeof.conv (min (h.difference ((im.inode k).size - i * im.sb.blockSize)) im.sb.blockSize) / h.sizeofDirEntry

/-- The state of the loop over the blocks of a directory. -/
structure Scan where
  i : Nat
  buf : Nat → UInt8

/-- The outcome of a search: the block and the position of an entry, and what is left in the buffer. -/
structure Search where
  found : Option (Nat × Nat)
  buf : Nat → UInt8

/-- The body of the loop over the blocks of directory `k`.  The loop goes on without a step of `i`. -/
def scanBlock (p : DirEntry → Bool) (k : Nat) (c : Scan) : Scan ⊕ Search :=
  if c.i < (im.inode k).blockUsed then
    let buf := im.readBlock c.buf ((im.inode k).blockIndex c.i)
    match (List.range (im.limit k c.i)).find? fun j => p (h.entry buf j) with
    | some j => .inr ⟨some ((im.inode k).blockIndex c.i, h.index.conv j), buf⟩
    | none => .inl ⟨c.i, buf⟩
  else .inr ⟨none, c.buf⟩

def findEntry (fuel : Nat) (p : DirEntry → Bool) (k : Nat) (buf : Nat → UInt8) : Option Search :=
  loop (im.scanBlock p k) fuel ⟨0, buf⟩

def findEntryByName (fuel k : Nat) (buf : Nat → UInt8) (name : List UInt8) : Option Search :=
  im.findEntry fuel (fun e => e.file = name) k buf

def findEntryByInode (fuel k : Nat) (buf : Nat → UInt8) (inodeInd : Nat) : Option Search :=
  im.findEntry fuel (fun e => e.inodeIndex = inodeInd) k buf

/-- The value of `last_pos` in `unlink_via_name`. -/
def lastPos (k : Nat) : Nat :=
  h.index.conv (h.sizeof.conv (h.difference ((im.inode k).size - ((im.inode k).blockUsed - 1) * im.sb.blockSize)) /
    h.sizeofDirEntry : Nat)

/-- The value of `file_entry` in `unlink_via_name`, where `heap` is what `malloc` has returned. -/
def fileEntry (k : Nat) (heap : Nat → UInt8) : Fin h.sizeofDirEntry → UInt8 :=
  h.record (im.readBlock heap ((im.inode k).blockIndex ((im.inode k).blockUsed - 1))) (im.lastPos k)

/-- `unlink_via_name`, with `*inode_ind` when it returns 1. -/
def unlinkViaName (fuel k : Nat) (name : List UInt8) (heap : Nat → UInt8) : Option (Option Nat × Image h) := do
  let buf := im.readBlock heap ((im.inode k).blockIndex ((im.inode k).blockUsed - 1))
  let s ← im.findEntryByName fuel k buf name
  match s.found with
  | none => some (none, im)
  | some e =>
    let u := im.writeBlock (h.setRecord s.buf e.2 (im.fileEntry k heap)) e.1
    let v := if im.lastPos k = 1 then u.freeBlockForFile k else u
    some (some (h.entry s.buf e.2).inodeIndex, v.setSize k ((v.inode k).size - h.sizeofDirEntry))

/-- `remove_file`; the value tells whether it returns 1. -/
def removeFile (fuel k : Nat) (name : List UInt8) (heap : Nat → UInt8) : Option (Bool × Image h) := do
  let r ← im.unlinkViaName fuel k name heap
  match r.1 with
  | none => some (false, r.2)
  | some ind =>
    let v := (List.range (r.2.inode ind).blockUsed).foldl (fun v i => v.setAvai i 0) r.2
    some (true, { v with sb := { v.sb with inodeAvai := Function.update v.sb.inodeAvai ind 0 } })

/-- The body of the loop that grows file `k` to `n` blocks.  It does not look at what `new_block_for_file` returns. -/
def growBlock (k n : Nat) (v : Image h) : Image h ⊕ Image h :=
  if (v.inode k).blockUsed < n then .inl ((v.newBlockForFile k).getD v) else .inr v

/-- The body of the loop that shrinks file `k` to `n` blocks. -/
def shrinkBlock (k n : Nat) (v : Image h) : Image h ⊕ Image h :=
  if n < (v.inode k).blockUsed then .inl (v.freeBlockForFile k) else .inr v

/-- The state of the loop that writes the blocks of a file. -/
structure Writing (h : Header) where
  tmp : Nat → UInt8
  image : Image h

/-- One turn of the loop that writes `str` to the blocks of file `k`. -/
def writePiece (str : List UInt8) (k : Nat) (s : Writing h) (i : Nat) : Writing h :=
  let bs := s.image.sb.blockSize
  let tmp := fun t => if t < min (str.length - i * bs) bs then str.getD (i * bs + t) 0 else s.tmp t
  ⟨tmp, s.image.writeBlock tmp ((s.image.inode k).blockIndex i)⟩

/-- `write_file`; the value tells whether it returns 1. -/
def writeFile (fuel : Nat) (str : Text) (k : Nat) (heap : Nat → UInt8) : Option (Bool × Image h) := do
  let n := h.roundup str.bytes.length im.sb.blockSize / im.sb.blockSize
  if SLOTS < n then some (false, im)
  else do
    let v ← if (im.inode k).blockUsed < n then loop (growBlock k n) fuel im
      else loop (shrinkBlock k n) fuel im
    let v := v.setSize k str.bytes.length
    some (true, ((List.range n).foldl (writePiece str.bytes k) ⟨heap, v⟩).image)

end Image

def UnsignedType.uint (n : Nat) : UnsignedType where
  max := 2 ^ n - 1
  conv v := (v % 2 ^ n).toNat
  conv_le v := by
    have hpos : (0 : Int) < 2 ^ n := by positivity
    have hlt := Int.emod_lt_of_pos v hpos
    have hcast : ((2 ^ n : Nat) : Int) = 2 ^ n := by push_cast; rfl
    omega
  conv_of_le v hv := by
    have hpos : 0 < 2 ^ n := by positivity
    have hmod : ((v : Int) % 2 ^ n) = v := by exact_mod_cast Nat.mod_eq_of_lt (by omega)
    rw [hmod, Int.toNat_natCast]

/-- The types that `damnfs.h` has for the same structures. -/
def Header.damnfs : Header where
  index := .uint 16
  size := .uint 16
  sizeof := .uint 64
  size_le := by decide
  difference v := v
  difference_of_le _ _ := rfl
  sizeofDirEntry := 18
  sizeofDirEntry_pos := by decide
  dirEntry r :=
    ⟨(List.ofFn fun t : Fin 16 => r (t.castLE (by decide))).takeWhile (· ≠ 0), (r 16).toNat + 256 * (r 17).toNat⟩
  roundup a n := (a + n - 1) / n * n
  dvd_roundup a n _ := Nat.dvd_mul_left n _
  le_roundup a n hn := by
    have hdiv := Nat.div_add_mod (a + n - 1) n
    have hmod := Nat.mod_lt (a + n - 1) hn
    rw [Nat.mul_comm] at hdiv
    omega
  roundup_lt a n hn := by
    have hle := Nat.div_mul_le_self (a + n - 1) n
    omega

/-- An image of six blocks: the directory in block 0 names the files `a` in block 5 and `b` in block 4. -/
def Image.sample : Image .damnfs where
  sb :=
    { blockSize := 512
      blockSize_pos := by decide
      blockSize_le := by decide
      blockNum := 6
      blockNum_le := by decide
      blockAvai := fun b => if b ∈ [0, 4, 5] then 1 else 0
      inodeAvai := fun k => if k < 3 then 1 else 0 }
  inode k :=
    { size := if k = 0 then 36 else 0
      size_le := by split <;> decide
      blockUsed := if k < 3 then 1 else 0
      blockIndex := fun _ => if k = 0 then 0 else 6 - k }
  disk b t := if b = 0 then (97 :: .replicate 15 0 ++ [1, 0] ++ 98 :: .replicate 15 0 ++ [2, 0] : List UInt8).getD t 0
    else 0

end DamnOS.HostTool
