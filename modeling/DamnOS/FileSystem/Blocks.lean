import DamnOS.FileSystem.History

/-!
# Block operations as state changes

With the metadata pages mapped, the operations on bitmaps and slots never fault.  Each of them is
then one named change of the state, and its effect on the metadata is one equation.
-/

namespace DamnOS.FileSystem

open DamnOS.Framework

namespace World

def firstFree (w : World) : Option Nat := (List.range w.blkNum).find? w.blockIsFree

def setCell (w : World) (a v : Nat) : World := w.write a 2 (leByte v)

def markBlock (w : World) (b : Nat) : World :=
  (w.write (super + offBlkOcp + 4 * (b / 32)) 4 (leByte
    (w.word (super + offBlkOcp + 4 * (b / 32)) ||| (1 <<< (b % 32))))).flush superPg

def unmarkBlock (w : World) (b : Nat) : World :=
  (w.write (super + offBlkOcp + 4 * (b / 32)) 4 (leByte
    (w.word (super + offBlkOcp + 4 * (b / 32)) &&&
      (0xFFFFFFFF ^^^ (1 <<< (b % 32)))))).flush superPg

def markInode (w : World) (k : Nat) : World :=
  (w.write (super + offInOcp + 4 * (k / 32)) 4 (leByte
    (w.word (super + offInOcp + 4 * (k / 32)) ||| (1 <<< (k % 32))))).flush superPg

def unmarkInode (w : World) (k : Nat) : World :=
  (w.write (super + offInOcp + 4 * (k / 32)) 4 (leByte
    (w.word (super + offInOcp + 4 * (k / 32)) &&&
      (0xFFFFFFFF ^^^ (1 <<< (k % 32)))))).flush superPg

/-- Block `b` enters slot `j` of inode `i`: the bitmap reaches the disk before the slot is set. -/
def acquire (w : World) (i j b : Nat) : World :=
  let v := (w.markBlock b).setCell (inodeVa i + offBlkInd + 2 * j) b
  v.setCell (inodeVa i + offBlkUsed) (v.cell (inodeVa i + offBlkUsed) + 1)

/-- The block in slot `j` of inode `i` is freed: the bitmap reaches the disk before the slot is
cleared. -/
def release (w : World) (i j : Nat) : World :=
  (w.unmarkBlock (w.cached.slot i j)).setCell (inodeVa i + offBlkInd + 2 * j) 0

end World

theorem Ready.of_present {w v : World} (h : Ready w) (hp : v.present = w.present) : Ready v :=
  ⟨by rw [hp]; exact h.super, by rw [hp]; exact h.inode⟩

@[simp] theorem present_setCell (w : World) (a v : Nat) : (w.setCell a v).present = w.present := rfl

@[simp] theorem present_markBlock (w : World) (b : Nat) : (w.markBlock b).present = w.present := by
  simp [World.markBlock]

@[simp] theorem present_unmarkBlock (w : World) (b : Nat) :
    (w.unmarkBlock b).present = w.present := by
  simp [World.unmarkBlock]

@[simp] theorem present_markInode (w : World) (k : Nat) : (w.markInode k).present = w.present := by
  simp [World.markInode]

@[simp] theorem present_unmarkInode (w : World) (k : Nat) :
    (w.unmarkInode k).present = w.present := by
  simp [World.unmarkInode]

@[simp] theorem present_acquire (w : World) (i j b : Nat) :
    (w.acquire i j b).present = w.present := by
  simp [World.acquire]

@[simp] theorem present_release (w : World) (i j : Nat) : (w.release i j).present = w.present := by
  simp [World.release]

theorem cached_flush (w : World) {p : Nat} (hp : superPg ≤ p) : (w.flush p).cached = w.cached :=
  cached_of_byte (byte_flush w p hp)

theorem cached_load (w : World) {p : Nat} (hp : superPg ≤ p) (hn : w.present p = false) :
    (w.load p).cached = w.cached :=
  cached_of_byte (byte_load w p hp hn)

section Effect

variable {w : World} (h : Ready w)
include h

theorem cached_markBlock {b : Nat} (hb : b < MAXBLKNUM) :
    (w.markBlock b).cached = w.cached.setBlkOcp b true := by
  rw [World.markBlock, cached_flush _ le_rfl, cached_setBlkOcp h hb]

theorem cached_unmarkBlock {b : Nat} (hb : b < MAXBLKNUM) :
    (w.unmarkBlock b).cached = w.cached.setBlkOcp b false := by
  rw [World.unmarkBlock, cached_flush _ le_rfl, cached_clearBlkOcp h hb]

theorem cached_markInode {k : Nat} (hk : k < MAXINODENUM) :
    (w.markInode k).cached = w.cached.setInOcp k true := by
  rw [World.markInode, cached_flush _ le_rfl, cached_setInOcp h hk]

theorem cached_unmarkInode {k : Nat} (hk : k < MAXINODENUM) :
    (w.unmarkInode k).cached = w.cached.setInOcp k false := by
  rw [World.unmarkInode, cached_flush _ le_rfl, cached_clearInOcp h hk]

theorem cached_acquire {i j b : Nat} (hi : i < MAXINODENUM) (hj : j < NDIRECT)
    (hb : b < MAXBLKNUM) :
    (w.acquire i j b).cached = ((w.cached.setBlkOcp b true).setSlot i j b).setBlkUsed i
      (((w.cached.inode i).blkUsed + 1) % 65536) := by
  have hb' : b < 4096 := hb
  have h1 : Ready (w.markBlock b) := h.of_present (by simp)
  have h2 : Ready ((w.markBlock b).setCell (inodeVa i + offBlkInd + 2 * j) b) :=
    h1.of_present rfl
  have hs := cached_setSlot h1 hi hj b
  rw [cached_markBlock h hb, Nat.mod_eq_of_lt (by omega : b < 65536)] at hs
  unfold World.acquire
  simp only [World.setCell] at *
  rw [cached_setBlkUsed h2 hi, hs, cell_blkUsed _ hi, hs]
  simp [Meta.setSlot, Meta.setInode, Meta.setBlkOcp]

theorem cached_release {i j : Nat} (hi : i < MAXINODENUM) (hj : j < NDIRECT)
    (hb : w.cached.slot i j < MAXBLKNUM) :
    (w.release i j).cached = (w.cached.setBlkOcp (w.cached.slot i j) false).setSlot i j 0 := by
  have h1 : Ready (w.unmarkBlock (w.cached.slot i j)) := h.of_present (by simp)
  have hs := cached_setSlot h1 hi hj 0
  rw [cached_unmarkBlock h hb] at hs
  exact hs

end Effect

theorem flushBlock_super (w : World) : flushBlock super w = .ok () (w.flush superPg) := rfl

theorem flushBlock_inode (w : World) {i : Nat} (hi : i < MAXINODENUM) :
    flushBlock (inodeVa i) w = .ok () (w.flush inodePg) := by
  have hpg : inodeVa i / PGSIZE = inodePg := by
    simp only [inodeVa, blockVa, DISKMAP, BLKSIZE, INSIZE, PGSIZE, inodePg, MAXINODENUM] at *
    omega
  have hin : ¬(inodeVa i < DISKMAP ∨ DISKMAP + DISKSIZE ≤ inodeVa i) := by
    simp only [inodeVa, blockVa, DISKMAP, DISKSIZE, BLKSIZE, INSIZE, MAXINODENUM] at *
    omega
  rw [flushBlock, if_neg hin, modify_run, hpg]

section Operations

variable {w : World} (h : Ready w)
include h

theorem allocBlock_some {b : Nat} (hf : w.firstFree = some b) (hb : b < MAXBLKNUM) :
    allocBlock w = .ok b (w.markBlock b) := by
  have hb' : b < 4096 := hb
  have hp := pages_super h (o := offBlkOcp + 4 * (b / 32)) (n := 4)
    (by simp only [offBlkOcp, BLKSIZE]; omega)
  rw [← Nat.add_assoc] at hp
  rw [allocBlock, bind_ok (get_run w), show (List.range w.blkNum).find? w.blockIsFree = some b from hf]
  exact (bind_ok (store_present hp)).trans (bind_ok (flushBlock_super _))

omit h in
theorem allocBlock_none (hf : w.firstFree = none) : allocBlock w = .error (.err .noDisk) w := by
  rw [allocBlock, bind_ok (get_run w), show (List.range w.blkNum).find? w.blockIsFree = none from hf]
  rfl

theorem freeBlock_run {b : Nat} (h0 : b ≠ 0) (hb : b < MAXBLKNUM) :
    freeBlock b w = .ok () (w.unmarkBlock b) := by
  have hb' : b < 4096 := hb
  have hp := pages_super h (o := offBlkOcp + 4 * (b / 32)) (n := 4)
    (by simp only [offBlkOcp, BLKSIZE]; omega)
  rw [← Nat.add_assoc] at hp
  rw [freeBlock, if_neg h0, bind_ok (get_run w)]
  exact (bind_ok (store_present hp)).trans (flushBlock_super _)

theorem allocInode_some {k : Nat} (hf : (List.range w.inNum).find? w.inodeIsFree = some k)
    (hk : k < MAXINODENUM) : allocInode w = .ok k (w.markInode k) := by
  have hk' : k < 128 := hk
  have hp := pages_super h (o := offInOcp + 4 * (k / 32)) (n := 4)
    (by simp only [offInOcp, BLKSIZE]; omega)
  rw [← Nat.add_assoc] at hp
  rw [allocInode, bind_ok (get_run w), hf]
  exact (bind_ok (store_present hp)).trans (bind_ok (flushBlock_super _))

omit h in
theorem allocInode_none (hf : (List.range w.inNum).find? w.inodeIsFree = none) :
    allocInode w = .error (.err .noInode) w := by
  rw [allocInode, bind_ok (get_run w), hf]
  rfl

theorem freeInode_run {k : Nat} (h0 : k ≠ 0) (hk : k < MAXINODENUM) :
    freeInode k w = .ok () (w.unmarkInode k) := by
  have hk' : k < 128 := hk
  have hp := pages_super h (o := offInOcp + 4 * (k / 32)) (n := 4)
    (by simp only [offInOcp, BLKSIZE]; omega)
  rw [← Nat.add_assoc] at hp
  rw [freeInode, if_neg h0, bind_ok (get_run w)]
  exact (bind_ok (store_present hp)).trans (flushBlock_super _)

variable {i j : Nat} (hi : i < MAXINODENUM)
include hi

theorem load16_type : load16 (inodeVa i + offType) w = .ok (w.cached.inode i).type w := by
  rw [load16_present (pages_inode h hi (by decide)), cell_type w hi]

theorem load16_size : load16 (inodeVa i + offSize) w = .ok (w.cached.inode i).size w := by
  rw [load16_present (pages_inode h hi (by decide)), cell_size w hi]

theorem load16_blkUsed :
    load16 (inodeVa i + offBlkUsed) w = .ok (w.cached.inode i).blkUsed w := by
  rw [load16_present (pages_inode h hi (by decide)), cell_blkUsed w hi]

theorem load16_slot (hj : j < NDIRECT) :
    load16 (inodeVa i + offBlkInd + 2 * j) w = .ok (w.cached.slot i j) w := by
  have hj' : j < 13 := hj
  have hp := pages_inode h hi (o := offBlkInd + 2 * j) (n := 2)
    (by simp only [offBlkInd, INSIZE]; omega)
  rw [← Nat.add_assoc] at hp
  rw [load16_present hp, cell_slot w hi hj]

theorem store16_field {o : Nat} (ho : o + 2 ≤ INSIZE) (v : Nat) :
    store16 (inodeVa i + o) v w = .ok () (w.setCell (inodeVa i + o) v) :=
  store_present (pages_inode h hi ho)

theorem store16_slot (hj : j < NDIRECT) (v : Nat) :
    store16 (inodeVa i + offBlkInd + 2 * j) v w =
      .ok () (w.setCell (inodeVa i + offBlkInd + 2 * j) v) := by
  have hj' : j < 13 := hj
  rw [Nat.add_assoc]
  exact store16_field h hi (by simp only [offBlkInd, INSIZE]; omega) v

private theorem fillSlot_some {b : Nat} (hj : j < NDIRECT) (hf : w.firstFree = some b)
    (hb : b < MAXBLKNUM) :
    fillSlot (inodeVa i) (inodeVa i + offBlkInd + 2 * j) w = .ok () (w.acquire i j b) := by
  have h1 : Ready (w.markBlock b) := h.of_present (by simp)
  have h2 : Ready ((w.markBlock b).setCell (inodeVa i + offBlkInd + 2 * j) b) := h1.of_present rfl
  rw [fillSlot, bind_ok (allocBlock_some h hf hb), bind_ok (store16_slot h1 hi hj b),
    bind_ok (load16_blkUsed h2 hi), store16_field h2 hi (by decide), ← cell_blkUsed _ hi]
  rfl

omit h hi in
theorem fileGetBlock_inval (inode : Nat) (hj : NDIRECT ≤ j) :
    fileGetBlock inode j w = .error (.err .inval) w := by
  have hw : fileBlockWalk inode j w = .error (.err .inval) w := by
    rw [fileBlockWalk, if_neg (by omega)]
    rfl
  rw [fileGetBlock, bind_error hw]

omit h in
private theorem fileGetBlock_tail {v : World} (hr : Ready v) {b : Nat} (hj : j < NDIRECT)
    (hs : v.cached.slot i j = b) (hb : b < v.cached.blkNum) :
    ((do
      let b ← load16 (inodeVa i + offBlkInd + 2 * j)
      let blk ← diskaddr b
      flushBlock (inodeVa i)
      pure blk) : M Nat) v = .ok (blockVa b) (v.flush inodePg) := by
  have hd : diskaddr b v = .ok (blockVa b) v := by
    rw [diskaddr, bind_ok (get_run v), if_neg (by rw [blkNum_cached]; omega)]
    rfl
  rw [bind_ok (load16_slot hr hi hj), hs, bind_ok hd, bind_ok (flushBlock_inode v hi)]
  rfl

/-- A filled slot gives its block, and only the inode table may be written back. -/
theorem fileGetBlock_filled (hj : j < NDIRECT) (hs : w.cached.slot i j ≠ 0)
    (hb : w.cached.slot i j < w.cached.blkNum) :
    fileGetBlock (inodeVa i) j w =
      .ok (blockVa (w.cached.slot i j)) (w.flush inodePg) := by
  have hw : fileBlockWalk (inodeVa i) j w = .ok (inodeVa i + offBlkInd + 2 * j) w := by
    rw [fileBlockWalk, if_pos hj]
    rfl
  have hskip : onlyIf (w.cached.slot i j = 0)
      (fillSlot (inodeVa i) (inodeVa i + offBlkInd + 2 * j)) w = .ok () w := by
    rw [onlyIf, if_neg hs]
    rfl
  rw [fileGetBlock, bind_ok hw, bind_ok (load16_slot h hi hj), bind_ok hskip]
  exact fileGetBlock_tail hi h hj rfl hb

theorem fileGetBlock_empty {b : Nat} (hj : j < NDIRECT) (hs : w.cached.slot i j = 0)
    (hf : w.firstFree = some b) (hb : b < MAXBLKNUM) (hlt : b < w.cached.blkNum) :
    fileGetBlock (inodeVa i) j w = .ok (blockVa b) ((w.acquire i j b).flush inodePg) := by
  have hw : fileBlockWalk (inodeVa i) j w = .ok (inodeVa i + offBlkInd + 2 * j) w := by
    rw [fileBlockWalk, if_pos hj]
    rfl
  have hfill : onlyIf (w.cached.slot i j = 0)
      (fillSlot (inodeVa i) (inodeVa i + offBlkInd + 2 * j)) w = .ok () (w.acquire i j b) := by
    rw [onlyIf, if_pos hs]
    exact fillSlot_some h hi hj hf hb
  rw [fileGetBlock, bind_ok hw, bind_ok (load16_slot h hi hj), bind_ok hfill]
  have hc := cached_acquire h hi hj hb
  refine fileGetBlock_tail hi (h.of_present (by simp)) hj ?_ ?_
  · rw [hc]
    simp [Meta.slot, Meta.setSlot, Meta.setInode, Meta.setBlkUsed]
  · rw [hc]
    exact hlt

theorem fileGetBlock_full (hj : j < NDIRECT) (hs : w.cached.slot i j = 0)
    (hf : w.firstFree = none) :
    fileGetBlock (inodeVa i) j w = .error (.err .noDisk) w := by
  have hw : fileBlockWalk (inodeVa i) j w = .ok (inodeVa i + offBlkInd + 2 * j) w := by
    rw [fileBlockWalk, if_pos hj]
    rfl
  have hfill : onlyIf (w.cached.slot i j = 0)
      (fillSlot (inodeVa i) (inodeVa i + offBlkInd + 2 * j)) w = .error (.err .noDisk) w := by
    rw [onlyIf, if_pos hs, fillSlot, bind_error (allocBlock_none hf)]
  rw [fileGetBlock, bind_ok hw, bind_ok (load16_slot h hi hj), bind_error hfill]

end Operations

end DamnOS.FileSystem
