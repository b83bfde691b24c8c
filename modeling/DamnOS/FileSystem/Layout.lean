import DamnOS.Framework.Bytes

/-!
# Layout of a DamnFS image

The constants of `damnfs.h` and the offsets of its packed structures.  A disk has one super
block, one block of inodes, and data blocks after them; block `n` is mapped at
`DISKMAP + n * BLKSIZE` in the file server.
-/

namespace DamnOS.FileSystem

open DamnOS.Framework

def PGSIZE : Nat := 4096
def BLKSIZE : Nat := 4096
def MAXINODENUM : Nat := 128
def MAXBLKNUM : Nat := 4096
def MAXNAMELEN : Nat := 16
def MAXPATHLEN : Nat := 128
def NDIRECT : Nat := 13
/-- `sizeof(struct DirEntry)`: sixteen name bytes and a two-byte inode number. -/
def DIRESIZE : Nat := 18
def BLKFILES : Nat := 227
def INSIZE : Nat := 32
def DISKMAP : Nat := 0x10000000
def DISKSIZE : Nat := 0x11002000
def FTYPE_REG : Nat := 0x66
def FTYPE_DIR : Nat := 0x64

/-- The page of the super block, and the page of the inode table. -/
def superPg : Nat := 65536
def inodePg : Nat := 65537

/-- The address of block `b` in the disk map. -/
def blockVa (b : Nat) : Nat := DISKMAP + b * BLKSIZE

theorem blockVa_mono {b c : Nat} (h : b ≤ c) : blockVa b ≤ blockVa c :=
  Nat.add_le_add_left (Nat.mul_le_mul_right _ h) _

def super : Nat := blockVa 0

/-- `&inodes[i]` with `inodes = diskaddr(1)`; any sixteen-bit `i` gives an address. -/
def inodeVa (i : Nat) : Nat := blockVa 1 + INSIZE * i

/-- Fields of `struct DamnSuper` and `struct DamnInode`, as byte offsets. -/
def offInNum : Nat := 4
def offBlkNum : Nat := 6
def offBlkOcp : Nat := 16
def offInOcp : Nat := 528
def offType : Nat := 0
def offSize : Nat := 2
def offBlkUsed : Nat := 4
def offBlkInd : Nat := 6
def offInInd : Nat := 16

/-- Conversions between the C integer types that the sources mix. -/
def toU16 (x : Int) : Nat := (x % 65536).toNat
def toU32 (x : Int) : Nat := (x % 4294967296).toNat
def toS32 (n : Nat) : Int :=
  if n % 4294967296 < 2147483648 then (n % 4294967296 : Nat)
  else (n % 4294967296 : Nat) - 4294967296

structure Inode where
  type : Nat
  size : Nat
  blkUsed : Nat
  blkInd : Nat → Nat

/-- The super block and the inode table, decoded.  Entries beyond the arrays of the header are
cut off, so that nothing outside the two blocks shows. -/
structure Meta where
  blkNum : Nat
  inNum : Nat
  blkOcp : Nat → Bool
  inOcp : Nat → Bool
  inode : Nat → Inode

def decodeInode (b1 : Nat → UInt8) (i : Nat) : Inode where
  type := u16 b1 (INSIZE * i + offType)
  size := u16 b1 (INSIZE * i + offSize)
  blkUsed := u16 b1 (INSIZE * i + offBlkUsed)
  blkInd j := if j < NDIRECT then u16 b1 (INSIZE * i + offBlkInd + 2 * j) else 0

def emptyInode : Inode := ⟨0, 0, 0, fun _ => 0⟩

/-- Decode the contents of block 0 and block 1. -/
def decode (b0 b1 : Nat → UInt8) : Meta where
  blkNum := u16 b0 offBlkNum
  inNum := u16 b0 offInNum
  blkOcp b := decide (b < MAXBLKNUM) && (u32 b0 (offBlkOcp + 4 * (b / 32))).testBit (b % 32)
  inOcp k := decide (k < MAXINODENUM) && (u32 b0 (offInOcp + 4 * (k / 32))).testBit (k % 32)
  inode i := if i < MAXINODENUM then decodeInode b1 i else emptyInode

namespace Meta

def slot (m : Meta) (i j : Nat) : Nat := (m.inode i).blkInd j

def setBlkOcp (m : Meta) (b : Nat) (v : Bool) : Meta :=
  { m with blkOcp := Function.update m.blkOcp b v }

def setInOcp (m : Meta) (k : Nat) (v : Bool) : Meta :=
  { m with inOcp := Function.update m.inOcp k v }

def setInode (m : Meta) (i : Nat) (x : Inode) : Meta :=
  { m with inode := Function.update m.inode i x }

def setSlot (m : Meta) (i j v : Nat) : Meta :=
  m.setInode i { m.inode i with blkInd := Function.update (m.inode i).blkInd j v }

def setType (m : Meta) (i v : Nat) : Meta := m.setInode i { m.inode i with type := v }

def setSize (m : Meta) (i v : Nat) : Meta := m.setInode i { m.inode i with size := v }

def setBlkUsed (m : Meta) (i v : Nat) : Meta := m.setInode i { m.inode i with blkUsed := v }

end Meta

end DamnOS.FileSystem
