import DamnOS.FileSystem.Removal

/-!
# Growth of a directory

When every entry of a directory is in use, `dir_alloc_entry` takes another block.  It counts the block
in `blk_used`, and `file_get_block` counts it once more.
-/

namespace DamnOS.FileSystem

open DamnOS.Framework

/-- A directory with `k` blocks in its first slots and with every entry in use, on a disk that has a
free block. -/
structure FullDirectory (N : Nat) (w : World) (d k : Nat) : Prop where
  sane : Sane N w
  lt : d < N
  dir : w.IsDir d
  blkUsed : (w.cached.inode d).blkUsed = k
  pos : 1 ≤ k
  room : k < NDIRECT
  filled : ∀ j < k, w.cached.slot d j ≠ 0
  empty : ∀ j, k ≤ j → w.cached.slot d j = 0
  inUse : ∀ e ∈ w.entries d, w.byte e ≠ 0
  free : w.firstFree ≠ none

/-- The count of blocks and the slots of inode `d` are the same. -/
def SameBlocks (u v : World) (d : Nat) : Prop :=
  (v.cached.inode d).blkUsed = (u.cached.inode d).blkUsed ∧ ∀ j, v.cached.slot d j = u.cached.slot d j

/-- `dir_alloc_entry` attaches one block in slot `k`, counts it, and gives its first entry; lookups of
any names after it leave the blocks alone. -/
def GrowsOnce (w : World) (d k : Nat) : Prop :=
  ∃ b u, dirAllocEntry (inodeVa d) w = .ok (blockVa b) u ∧ b ≠ 0 ∧ u.cached.slot d k = b ∧
    (∀ j, j ≠ k → u.cached.slot d j = w.cached.slot d j) ∧ (u.cached.inode d).blkUsed = k + 1 ∧
    ∀ names : List (List UInt8),
      SameBlocks u (names.foldl (fun v name => final (dirLookup (inodeVa d) name) v) u) d

namespace FullDirectory

variable {N : Nat} {w : World} {d k : Nat}

theorem filledAt (h : FullDirectory N w d k) : w.Filled d := by
  intro j hj
  rw [h.blkUsed] at hj
  exact h.filled j hj

theorem vacant (h : FullDirectory N w d k) : w.vacant d = none := by
  apply List.find?_eq_none.mpr
  intro e he
  simpa using h.inUse e he

theorem counted_twice (h : FullDirectory N w d k) : ∃ b u,
    dirAllocEntry (inodeVa d) w = .ok (blockVa b) u ∧ b ≠ 0 ∧ u.cached.slot d k = b ∧
      (∀ j, j ≠ k → u.cached.slot d j = w.cached.slot d j) ∧ (u.cached.inode d).blkUsed = k + 2 := by
  obtain ⟨v, hrun, heff⟩ := dirAllocEntry_full h.sane h.lt h.filledAt h.vacant
  rw [h.blkUsed] at hrun heff
  have hslot (j : Nat) : v.cached.slot d j = w.cached.slot d j := by
    rw [heff.cached, Meta.bumped, slot_setSize, slot_setBlkUsed]
  have hused : (v.cached.inode d).blkUsed = k + 1 := by
    rw [heff.cached]
    simp [Meta.bumped, Meta.setSize, Meta.setBlkUsed, Meta.setInode]
  have hfree : v.firstFree = w.firstFree := firstFree_congr h.sane (by rw [heff.cached]; rfl)
    (by rw [heff.cached]; rfl)
  obtain ⟨b, hb⟩ := Option.ne_none_iff_exists'.mp h.free
  have hempty : v.cached.slot d k = 0 := (hslot k).trans (h.empty k le_rfl)
  have hob : v.obtain d k = some b := by
    rw [World.obtain, if_neg (not_le.mpr h.room), if_pos hempty, hfree, hb]
  have ho := obtains heff.sane h.lt hob
  refine ⟨b, v.obtained d k b, hrun.trans (fileGetBlock_obtain heff.sane h.lt hob), ?_, ?_, fun j hj => ?_, ?_⟩
  · have htwo := ho.two_le
    omega
  · rw [ho.slot, if_pos ⟨rfl, rfl⟩]
  · rw [ho.slot, if_neg (fun hx => hj hx.2), hslot]
  · have hroom := h.room
    rw [blkUsed_obtained heff.sane h.lt hob, if_pos hempty, hused]
    simp only [NDIRECT] at hroom
    omega

end FullDirectory

/-- No full directory grows as it should. -/
theorem directory_never_grows {N : Nat} {w : World} {d k : Nat} (h : FullDirectory N w d k) :
    ¬GrowsOnce w d k := by
  rintro ⟨b, u, hrun, -, -, -, hused, -⟩
  obtain ⟨b', u', hrun', -, -, -, hused'⟩ := h.counted_twice
  rw [hrun] at hrun'
  obtain ⟨-, rfl⟩ := EStateM.Result.ok.inj hrun'
  omega

/-- Entry `j` of a full block is called after `j`, in two letters, and leads to inode 1. -/
def fullBlock (o : Nat) : UInt8 :=
  let j := o / DIRESIZE
  let r := o % DIRESIZE
  if r = 0 then UInt8.ofNat (97 + j % 26) else if r = 1 then UInt8.ofNat (97 + j / 26)
  else if r = offInInd then 1 else 0

/-- A disk whose root directory has one block, full of entries; inodes 0 and 1 are in use. -/
def fullDisk (b o : Nat) : UInt8 := if b = 2 then fullBlock o else freshDisk 4 3 b o

private theorem fullDirectory_root : FullDirectory 4 (mount fullDisk) 0 1 where
  sane := ⟨⟨rfl, rfl⟩, by decide +kernel, by decide, by decide, (soundImage_iff (by decide)).mp
    ⟨by decide +kernel, by decide +kernel, by decide +kernel,
      OwnedBlocks.of_filled [(0, 0)] (by decide +kernel) (by decide +kernel) (by decide +kernel)⟩⟩
  lt := by decide
  dir := by decide +kernel
  blkUsed := by decide +kernel
  pos := le_rfl
  room := by decide
  filled := by decide +kernel
  empty j hj := by
    have hall : ∀ j < NDIRECT, 1 ≤ j → (mount fullDisk).cached.slot 0 j = 0 := by decide +kernel
    rcases Nat.lt_or_ge j NDIRECT with hlt | hge
    · exact hall j hlt hj
    · exact slot_ge _ 0 hge
  inUse := by decide +kernel
  free := by decide +kernel

theorem root_never_grows : FullDirectory 4 (mount fullDisk) 0 1 ∧ ¬GrowsOnce (mount fullDisk) 0 1 :=
  ⟨fullDirectory_root, directory_never_grows fullDirectory_root⟩

/-- In this directory `blk_used` becomes 3, with two blocks. -/
theorem full_root_miscounted : ¬∀ (N : Nat) (w : World) (d k : Nat), FullDirectory N w d k → GrowsOnce w d k := by
  intro hall
  obtain ⟨b, u, hrun, -, -, -, hused, -⟩ := hall 4 (mount fullDisk) 0 1 fullDirectory_root
  obtain ⟨b', u', hrun', -, -, -, hused'⟩ := fullDirectory_root.counted_twice
  rw [hrun] at hrun'
  obtain ⟨-, rfl⟩ := EStateM.Result.ok.inj hrun'
  omega

end DamnOS.FileSystem
