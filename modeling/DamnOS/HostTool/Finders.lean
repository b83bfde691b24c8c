import DamnOS.HostTool.Image

/-!
# Searching a directory

The search reads the first block of a directory over and over: it ends when the entry is there, or when the directory
has no block at all.
-/

namespace DamnOS.HostTool

open DamnOS.Framework

variable {h : Header} {im : Image h} {k b j : Nat} {buf : Nat → UInt8} {p : DirEntry → Bool} {s : Image.Search}

/-- The records that a block has room for. -/
def Image.perBlock (im : Image h) : Nat := im.sb.blockSize / h.sizeofDirEntry

/-- A record of the directory's first block that is searched. -/
def Image.Hit (im : Image h) (p : DirEntry → Bool) (k : Nat) : Prop :=
  ∃ j < min ((im.inode k).size / h.sizeofDirEntry) im.perBlock, p (h.entry (im.disk ((im.inode k).blockIndex 0)) j)

namespace Image

theorem record_le (hj : j < im.perBlock) : j * h.sizeofDirEntry + h.sizeofDirEntry ≤ im.sb.blockSize := by
  have hmul : (j + 1) * h.sizeofDirEntry ≤ im.perBlock * h.sizeofDirEntry := Nat.mul_le_mul_right _ hj
  rw [Nat.add_mul, Nat.one_mul] at hmul
  exact hmul.trans (Nat.div_mul_le_self _ _)

private theorem perBlock_le (im : Image h) : im.perBlock ≤ h.index.max :=
  (Nat.div_le_self _ _).trans im.sb.blockSize_le

theorem record_readBlock (hj : j < im.perBlock) : h.record (im.readBlock buf b) j = h.record (im.disk b) j := by
  funext t
  have hroom := record_le hj
  have ht : j * h.sizeofDirEntry + t < im.sb.blockSize := by omega
  rw [Header.record, readBlock, if_pos ht]
  rfl

theorem entry_readBlock (hj : j < im.perBlock) : h.entry (im.readBlock buf b) j = h.entry (im.disk b) j := by
  rw [Header.entry, record_readBlock hj]
  rfl

private theorem limit_zero (im : Image h) (k : Nat) :
    im.limit k 0 = min ((im.inode k).size / h.sizeofDirEntry) im.perBlock := by
  have hsize := (im.inode k).size_le
  have hdiff : h.difference ((im.inode k).size - (0 : Nat) * im.sb.blockSize) = (im.inode k).size := by
    rw [Int.natCast_zero, zero_mul, sub_zero]
    exact h.difference_of_le _ hsize
  have hconv : h.sizeof.conv ((min (im.inode k).size im.sb.blockSize : Nat) : Int) =
      min (im.inode k).size im.sb.blockSize :=
    h.sizeof.conv_of_le _ ((min_le_left _ _).trans (hsize.trans h.size_le))
  rw [limit, hdiff, ← Nat.cast_min, hconv, perBlock]
  exact Monotone.map_min (f := fun v => v / h.sizeofDirEntry) fun _ _ hle => Nat.div_le_div_right hle

/-- The position at which the search stops in the first block. -/
def firstHit (im : Image h) (p : DirEntry → Bool) (k : Nat) : Option Nat :=
  (List.range (min ((im.inode k).size / h.sizeofDirEntry) im.perBlock)).find? fun j =>
    p (h.entry (im.disk ((im.inode k).blockIndex 0)) j)

theorem firstHit_none : im.firstHit p k = none ↔ ¬im.Hit p k := by
  rw [firstHit, List.find?_eq_none, Hit]
  constructor
  · rintro hnone ⟨j, hj, hp⟩
    exact hnone j (List.mem_range.mpr hj) hp
  · intro hhit j hj hp
    exact hhit ⟨j, List.mem_range.mp hj, hp⟩

private theorem scanBlock_first (hused : 0 < (im.inode k).blockUsed) : im.scanBlock p k ⟨0, buf⟩ =
    (im.firstHit p k).elim (.inl ⟨0, im.readBlock buf ((im.inode k).blockIndex 0)⟩) fun j =>
      .inr ⟨some ((im.inode k).blockIndex 0, h.index.conv j), im.readBlock buf ((im.inode k).blockIndex 0)⟩ := by
  have hfind : (List.range (im.limit k 0)).find?
      (fun j => p (h.entry (im.readBlock buf ((im.inode k).blockIndex 0)) j)) = im.firstHit p k := by
    rw [firstHit, limit_zero]
    apply List.find?_congr
    intro j hj
    rw [entry_readBlock (lt_min_iff.mp (List.mem_range.mp hj)).2]
  rw [scanBlock, if_pos hused]
  simp only [hfind]
  cases im.firstHit p k <;> rfl

/-- With a block and without the entry in the first one there is no end. -/
theorem findEntry_endless (hused : 0 < (im.inode k).blockUsed) (hhit : ¬im.Hit p k) (fuel : Nat) :
    im.findEntry fuel p k buf = none := by
  have hturn : ∀ c : Scan, c.i = 0 → ∃ d : Scan, im.scanBlock p k c = .inl d ∧ d.i = 0 := by
    rintro ⟨i, buf⟩ rfl
    refine ⟨⟨0, im.readBlock buf ((im.inode k).blockIndex 0)⟩, ?_, rfl⟩
    rw [scanBlock_first hused, firstHit_none.mpr hhit]
    rfl
  exact loop_endless hturn fuel rfl

theorem findEntry_unused (hused : (im.inode k).blockUsed = 0) (fuel : Nat) :
    im.findEntry (fuel + 1) p k buf = some ⟨none, buf⟩ := by
  apply loop_leaves
  rw [scanBlock, if_neg (by rw [hused]; exact lt_irrefl 0)]

theorem findEntry_hit (hused : 0 < (im.inode k).blockUsed) (hj : im.firstHit p k = some j) (fuel : Nat) :
    im.findEntry (fuel + 1) p k buf = some ⟨some ((im.inode k).blockIndex 0, j),
      im.readBlock buf ((im.inode k).blockIndex 0)⟩ := by
  have hlt := List.mem_range.mp (List.mem_of_find?_eq_some hj)
  have hconv : h.index.conv j = j :=
    h.index.conv_of_le j ((lt_min_iff.mp hlt).2.le.trans im.perBlock_le)
  apply loop_leaves
  rw [scanBlock_first hused, hj]
  change Sum.inr _ = _
  rw [hconv]

theorem findEntry_found {fuel : Nat} {e : Nat × Nat} (hrun : im.findEntry fuel p k buf = some s)
    (hfound : s.found = some e) :
    0 < (im.inode k).blockUsed ∧ im.firstHit p k = some e.2 ∧ e.1 = (im.inode k).blockIndex 0 ∧
      s.buf = im.readBlock buf ((im.inode k).blockIndex 0) := by
  cases fuel with
  | zero => cases hrun
  | succ fuel =>
    rcases Nat.eq_zero_or_pos (im.inode k).blockUsed with hused | hused
    · rw [findEntry_unused hused] at hrun
      cases hrun
      cases hfound
    · cases hj : im.firstHit p k with
      | none =>
        rw [findEntry_endless hused (firstHit_none.mp hj)] at hrun
        cases hrun
      | some j =>
        rw [findEntry_hit hused hj] at hrun
        cases hrun
        cases hfound
        exact ⟨hused, rfl, rfl, rfl⟩

end Image

end DamnOS.HostTool
