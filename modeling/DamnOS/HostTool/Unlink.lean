import DamnOS.Framework.Holes
import DamnOS.HostTool.Finders

/-!
# Removing a directory entry

`unlink_via_name` moves a record into the hole of the removed entry.  It takes the record at `last_pos` of the last
block, and `last_pos` is the position after the last entry.
-/

namespace DamnOS.HostTool

open DamnOS.Framework

variable {h : Header} {im v : Image h} {k j e p : Nat} {name : List UInt8} {buf heap : Nat → UInt8}

namespace Image

def count (im : Image h) (k : Nat) : Nat := (im.inode k).size / h.sizeofDirEntry

/-- Entry `e` of directory `k`; a block is full before the next one is used. -/
def entryAt (im : Image h) (k e : Nat) : DirEntry :=
  h.entry (im.disk ((im.inode k).blockIndex (e / im.perBlock))) (e % im.perBlock)

/-- What is in the directory's blocks, up to its size. -/
def entries (im : Image h) (k : Nat) : Multiset DirEntry :=
  ((Multiset.range (im.count k)).filter fun e => e / im.perBlock < (im.inode k).blockUsed).map (im.entryAt k)

/-- The entries are in the directory's blocks, and these are different. -/
structure Dense (im : Image h) (k : Nat) : Prop where
  room : im.count k ≤ (im.inode k).blockUsed * im.perBlock
  distinct : Set.InjOn (im.inode k).blockIndex (Set.Iio (im.inode k).blockUsed)

def moved (im : Image h) (k : Nat) (heap : Nat → UInt8) : DirEntry := h.dirEntry (im.fileEntry k heap)

private theorem card_entries (hper : 0 < im.perBlock) :
    (im.entries k).card = im.count k ↔ im.count k ≤ (im.inode k).blockUsed * im.perBlock := by
  have hall : (∀ e < im.count k, e / im.perBlock < (im.inode k).blockUsed) ↔
      im.count k ≤ (im.inode k).blockUsed * im.perBlock := by
    simp only [Nat.div_lt_iff_lt_mul hper]
    exact ⟨fun hlt => not_lt.mp fun hgt => lt_irrefl _ (hlt _ hgt), fun hle e he => he.trans_le hle⟩
  have hcount := @Multiset.countP_eq_card _ (fun e => e / im.perBlock < (im.inode k).blockUsed) _
    (Multiset.range (im.count k))
  simp only [Multiset.mem_range, hall] at hcount
  rw [← hcount, entries, Multiset.card_map, ← Multiset.countP_eq_card_filter, Multiset.card_range]

private theorem entries_eq (hper : 0 < im.perBlock) (hroom : im.count k ≤ (im.inode k).blockUsed * im.perBlock) :
    im.entries k = (Multiset.range (im.count k)).map (im.entryAt k) := by
  have hall : ∀ e ∈ Multiset.range (im.count k), e / im.perBlock < (im.inode k).blockUsed := by
    intro e he
    rw [Nat.div_lt_iff_lt_mul hper]
    exact (Multiset.mem_range.mp he).trans_le hroom
  rw [entries, Multiset.filter_eq_self.mpr hall]

private theorem entryAt_first (he : e < im.perBlock) :
    im.entryAt k e = h.entry (im.disk ((im.inode k).blockIndex 0)) e := by
  rw [entryAt, Nat.div_eq_of_lt he, Nat.mod_eq_of_lt he]

private theorem record_setRecord (x : Fin h.sizeofDirEntry → UInt8) :
    h.record (h.setRecord buf j x) e = if e = j then x else h.record buf e := by
  funext t
  have ht := t.isLt
  by_cases hej : e = j
  · subst hej
    rw [if_pos rfl, Header.record, Header.setRecord, dif_pos (by omega)]
    congr 1
    exact Fin.ext (Nat.add_sub_cancel_left _ _)
  · have houtside : ¬(j * h.sizeofDirEntry ≤ e * h.sizeofDirEntry + t ∧
        e * h.sizeofDirEntry + t < j * h.sizeofDirEntry + h.sizeofDirEntry) := by
      rcases Nat.lt_or_gt_of_ne hej with hlt | hgt
      · have hmul := Nat.mul_le_mul_right h.sizeofDirEntry hlt
        rw [Nat.succ_mul] at hmul
        omega
      · have hmul := Nat.mul_le_mul_right h.sizeofDirEntry hgt
        rw [Nat.succ_mul] at hmul
        omega
    rw [if_neg hej, Header.record, Header.setRecord, dif_neg houtside]
    rfl

private theorem record_writeBlock {b : Nat} (he : e < im.perBlock) :
    h.record ((im.writeBlock buf b).disk b) e = h.record buf e := by
  funext t
  have hroom := record_le he
  have ht : e * h.sizeofDirEntry + t < im.sb.blockSize := by omega
  rw [Header.record, writeBlock]
  simp only [Function.update_self, if_pos ht]
  rfl

/-- The image after the removal of record `j` of the first block. -/
def unlinked (im : Image h) (k j : Nat) (heap : Nat → UInt8) : Image h :=
  let b := (im.inode k).blockIndex 0
  let buf := im.readBlock (im.readBlock heap ((im.inode k).blockIndex ((im.inode k).blockUsed - 1))) b
  let u := im.writeBlock (h.setRecord buf j (im.fileEntry k heap)) b
  let v := if im.lastPos k = 1 then u.freeBlockForFile k else u
  v.setSize k ((v.inode k).size - h.sizeofDirEntry)

private theorem perBlock_of_firstHit {p : DirEntry → Bool} (hj : im.firstHit p k = some j) : j < im.perBlock :=
  (lt_min_iff.mp (List.mem_range.mp (List.mem_of_find?_eq_some hj))).2

private theorem unlinkViaName_hit (hused : 0 < (im.inode k).blockUsed)
    (hj : im.firstHit (fun e => e.file = name) k = some j) (fuel : Nat) :
    im.unlinkViaName (fuel + 1) k name heap =
      some (some (h.entry (im.disk ((im.inode k).blockIndex 0)) j).inodeIndex, im.unlinked k j heap) := by
  rw [unlinkViaName, findEntryByName, findEntry_hit hused hj]
  rw [← @entry_readBlock h im _ _ _ (perBlock_of_firstHit hj)]
  rfl

theorem unlinkViaName_found {fuel ind : Nat} (hrun : im.unlinkViaName fuel k name heap = some (some ind, v)) :
    ∃ j, 0 < (im.inode k).blockUsed ∧ im.firstHit (fun e => e.file = name) k = some j ∧
      ind = (h.entry (im.disk ((im.inode k).blockIndex 0)) j).inodeIndex ∧ v = im.unlinked k j heap := by
  cases hs : im.findEntryByName fuel k
      (im.readBlock heap ((im.inode k).blockIndex ((im.inode k).blockUsed - 1))) name with
  | none =>
    rw [unlinkViaName, hs] at hrun
    cases hrun
  | some s =>
    cases hfound : s.found with
    | none =>
      rw [unlinkViaName, hs] at hrun
      simp only [Option.bind_eq_bind, Option.bind_some, hfound] at hrun
      cases hrun
    | some e =>
      obtain ⟨hused, hj, -, -⟩ := findEntry_found hs hfound
      cases fuel with
      | zero => cases hs
      | succ fuel =>
        rw [unlinkViaName_hit hused hj] at hrun
        cases hrun
        exact ⟨e.2, hused, hj, rfl, rfl⟩

@[simp] theorem disk_freeBlockForFile (im : Image h) (k : Nat) : (im.freeBlockForFile k).disk = im.disk := by
  rw [freeBlockForFile]
  split <;> rfl

@[simp] theorem blockSize_freeBlockForFile (im : Image h) (k : Nat) :
    (im.freeBlockForFile k).sb.blockSize = im.sb.blockSize := by
  rw [freeBlockForFile]
  split <;> rfl

private theorem inode_freeBlockForFile (im : Image h) (k : Nat) : (im.freeBlockForFile k).inode k =
    { im.inode k with blockUsed := (im.inode k).blockUsed - 1 } := by
  rw [freeBlockForFile]
  split <;> rename_i hused
  · rw [hused, Nat.zero_sub, ← hused]
  · exact Function.update_self _ _ _

theorem inode_unlinked (im : Image h) (k j : Nat) (heap : Nat → UInt8) :
    ((im.unlinked k j heap).inode k).size = h.size.conv ((im.inode k).size - h.sizeofDirEntry) ∧
    ((im.unlinked k j heap).inode k).blockUsed =
      (if im.lastPos k = 1 then (im.inode k).blockUsed - 1 else (im.inode k).blockUsed) ∧
    ((im.unlinked k j heap).inode k).blockIndex = (im.inode k).blockIndex := by
  rw [unlinked, setSize, setInode]
  simp only [Function.update_self]
  split
  · rw [inode_freeBlockForFile]
    exact ⟨rfl, rfl, rfl⟩
  · exact ⟨rfl, rfl, rfl⟩

private theorem disk_unlinked (im : Image h) (k j : Nat) (heap : Nat → UInt8) : (im.unlinked k j heap).disk =
    (im.writeBlock (h.setRecord
      (im.readBlock (im.readBlock heap ((im.inode k).blockIndex ((im.inode k).blockUsed - 1)))
        ((im.inode k).blockIndex 0)) j (im.fileEntry k heap)) ((im.inode k).blockIndex 0)).disk := by
  rw [unlinked, setSize, setInode]
  simp only []
  split
  · rw [disk_freeBlockForFile]
  · rfl

private theorem perBlock_unlinked (im : Image h) (k j : Nat) (heap : Nat → UInt8) :
    (im.unlinked k j heap).perBlock = im.perBlock := by
  rw [perBlock, unlinked, setSize, setInode]
  simp only []
  split
  · rw [blockSize_freeBlockForFile]
    rfl
  · rfl

private theorem count_unlinked (hcount : 0 < im.count k) (j : Nat) (heap : Nat → UInt8) :
    (im.unlinked k j heap).count k + 1 = im.count k := by
  have hle : h.sizeofDirEntry ≤ (im.inode k).size := (Nat.div_pos_iff.mp hcount).2
  have hconv : h.size.conv ((im.inode k).size - h.sizeofDirEntry) = (im.inode k).size - h.sizeofDirEntry := by
    rw [← Nat.cast_sub hle]
    exact h.size.conv_of_le _ ((Nat.sub_le _ _).trans (im.inode k).size_le)
  rw [count, (inode_unlinked im k j heap).1, hconv, count, Nat.div_eq_sub_div h.sizeofDirEntry_pos hle]

private theorem entryAt_unlinked (hd : im.Dense k) (hj : j < im.perBlock) (he : e < im.count k) :
    (im.unlinked k j heap).entryAt k e = if e = j then im.moved k heap else im.entryAt k e := by
  have hper : 0 < im.perBlock := (Nat.zero_le j).trans_lt hj
  have hused : e / im.perBlock < (im.inode k).blockUsed :=
    (Nat.div_lt_iff_lt_mul hper).mpr (he.trans_le hd.room)
  rw [entryAt, perBlock_unlinked, (inode_unlinked im k j heap).2.2, disk_unlinked]
  rcases Nat.lt_or_ge e im.perBlock with hfirst | hlater
  · rw [Nat.div_eq_of_lt hfirst, Nat.mod_eq_of_lt hfirst, Header.entry, record_writeBlock hfirst, record_setRecord,
      entryAt_first hfirst]
    split
    · rfl
    · rw [record_readBlock hfirst]
      rfl
  · have hne : (im.inode k).blockIndex (e / im.perBlock) ≠ (im.inode k).blockIndex 0 := by
      intro heq
      have hzero := hd.distinct hused ((Nat.zero_le _).trans_lt hused) heq
      exact absurd hzero (Nat.div_pos hlater hper).ne'
    rw [if_neg (by omega), writeBlock, entryAt]
    simp only [Function.update_of_ne hne]

private theorem entries_unlinked_iff (hd : im.Dense k) (hp : p < im.count k) (hfirst : p < im.perBlock) :
    im.entries k = im.entryAt k p ::ₘ (im.unlinked k p heap).entries k ↔
      (p + 1 = im.count k ∨ im.moved k heap = im.entryAt k (im.count k - 1)) ∧
      (im.lastPos k = 1 → im.count k ≤ ((im.inode k).blockUsed - 1) * im.perBlock + 1) := by
  have hper : 0 < im.perBlock := (Nat.zero_le p).trans_lt hfirst
  have hcount := count_unlinked ((Nat.zero_le p).trans_lt hp) p heap
  have hperBlock := perBlock_unlinked im k p heap
  have hused := (inode_unlinked im k p heap).2.1
  have hentry : ∀ e < (im.unlinked k p heap).count k, (im.unlinked k p heap).entryAt k e =
      if e = p then im.moved k heap else im.entryAt k e :=
    fun e he => entryAt_unlinked hd hfirst (by omega)
  have hremoved := removed_iff (by omega) hentry
  rw [hcount, ← entries_eq hper hd.room] at hremoved
  have hcard := @card_entries h (im.unlinked k p heap) k (hperBlock ▸ hper)
  -- The entries are all there when the blocks that are left hold them.
  have hroom : (im.unlinked k p heap).count k ≤
      ((im.unlinked k p heap).inode k).blockUsed * (im.unlinked k p heap).perBlock ↔
      (im.lastPos k = 1 → im.count k ≤ ((im.inode k).blockUsed - 1) * im.perBlock + 1) := by
    have hbefore := hd.room
    rw [hperBlock, hused]
    split <;> rename_i hone
    · simp only [hone, true_imp_iff]
      omega
    · simp only [hone, false_imp_iff, iff_true]
      omega
  have hlast : im.count k - 1 = (im.unlinked k p heap).count k := by omega
  have hend : p + 1 = im.count k ↔ p = (im.unlinked k p heap).count k := by omega
  rw [← hroom, hlast, hend, ← hremoved]
  constructor
  · intro heq
    have hlen := congrArg Multiset.card heq
    rw [Multiset.card_cons, card_entries hper |>.mpr hd.room, ← hcount, Nat.add_right_cancel_iff] at hlen
    have hall := hcard.mp hlen.symm
    exact ⟨heq.trans (by rw [entries_eq (hperBlock ▸ hper) hall]), hall⟩
  · rintro ⟨heq, hall⟩
    rw [heq, entries_eq (hperBlock ▸ hper) hall]

end Image

/-- The entries after a removal are those before without the removed one in exactly these cases: the name is not in
the first block, so that nothing is returned; or the removed entry is the last one, or the record that is moved is the
last one, and a block is released only when the other blocks hold what is left. -/
theorem unlink_removes_one_iff (hd : im.Dense k) (hp : p < im.count k) (hname : (im.entryAt k p).file = name)
    (honce : ∀ e < im.count k, (im.entryAt k e).file = name → e = p) :
    (∀ fuel ind v, im.unlinkViaName fuel k name heap = some (some ind, v) →
      im.entries k = im.entryAt k p ::ₘ v.entries k ∧ ind = (im.entryAt k p).inodeIndex) ↔
    (p < im.perBlock →
      (p + 1 = im.count k ∨ im.moved k heap = im.entryAt k (im.count k - 1)) ∧
      (im.lastPos k = 1 → im.count k ≤ ((im.inode k).blockUsed - 1) * im.perBlock + 1)) := by
  constructor
  · intro hall hfirst
    have hused : 0 < (im.inode k).blockUsed := by
      apply Nat.pos_of_ne_zero
      intro hzero
      have hroom := hd.room
      rw [hzero, Nat.zero_mul] at hroom
      omega
    have hhit : im.firstHit (fun e => e.file = name) k = some p := by
      rw [Image.firstHit, List.find?_range_eq_some]
      refine ⟨?_, List.mem_range.mpr (lt_min hp hfirst), ?_⟩
      · rw [← Image.entryAt_first hfirst, hname]
        exact decide_eq_true rfl
      · intro j hj
        have hne : (im.entryAt k j).file ≠ name := fun heq => absurd (honce j (hj.trans hp) heq) hj.ne
        rw [← Image.entryAt_first (hj.trans hfirst), decide_eq_false hne]
        rfl
    exact (Image.entries_unlinked_iff hd hp hfirst).mp (hall 1 _ _ (Image.unlinkViaName_hit hused hhit 0)).1
  · intro hcond fuel ind v hrun
    obtain ⟨j, -, hj, rfl, rfl⟩ := Image.unlinkViaName_found hrun
    obtain ⟨hmatch, hmem, -⟩ := List.find?_range_eq_some.mp hj
    obtain ⟨hcount, hfirst⟩ := lt_min_iff.mp (List.mem_range.mp hmem)
    rw [← Image.entryAt_first hfirst] at hmatch ⊢
    obtain rfl := honce j hcount (of_decide_eq_true hmatch)
    exact ⟨(Image.entries_unlinked_iff hd hp hfirst).mpr (hcond hfirst), rfl⟩

theorem unlink_removes_one_sample :
    (∀ fuel ind v, Image.sample.unlinkViaName fuel 0 [98] (fun _ => 0) = some (some ind, v) →
      Image.sample.entries 0 = Image.sample.entryAt 0 1 ::ₘ v.entries 0 ∧
        ind = (Image.sample.entryAt 0 1).inodeIndex) ↔
    (1 < Image.sample.perBlock →
      (1 + 1 = Image.sample.count 0 ∨
        Image.sample.moved 0 (fun _ => 0) = Image.sample.entryAt 0 (Image.sample.count 0 - 1)) ∧
      (Image.sample.lastPos 0 = 1 →
        Image.sample.count 0 ≤ ((Image.sample.inode 0).blockUsed - 1) * Image.sample.perBlock + 1)) := by
  have hd : Image.sample.Dense 0 := by
    refine ⟨by decide +kernel, ?_⟩
    intro a ha b hb _
    exact (Nat.lt_one_iff.mp ha).trans (Nat.lt_one_iff.mp hb).symm
  have honce : ∀ e < 2, (Image.sample.entryAt 0 e).file = [98] → e = 1 := by decide +kernel
  exact unlink_removes_one_iff hd (by decide +kernel) (by decide +kernel) honce

theorem unlink_sample : Image.sample.unlinkViaName 1 0 [97] (fun _ => 0) =
    some (some 1, Image.sample.unlinked 0 0 fun _ => 0) := by
  have hhit : Image.sample.firstHit (fun e => e.file = [97]) 0 = some 0 := by decide +kernel
  have hind : (Header.damnfs.entry (Image.sample.disk ((Image.sample.inode 0).blockIndex 0)) 0).inodeIndex = 1 := by
    decide +kernel
  rw [Image.unlinkViaName_hit Nat.one_pos hhit, hind]

/-- The removal of `a` loses `b`: the record after `b`, which is empty, takes the place of `a`. -/
theorem unlink_loses_entry : ∃ v, Image.sample.unlinkViaName 1 0 [97] (fun _ => 0) = some (some 1, v) ∧
    Image.sample.entries 0 = {⟨[97], 1⟩, ⟨[98], 2⟩} ∧ v.entries 0 = {⟨[], 0⟩} ∧
    Image.sample.entries 0 ≠ Image.sample.entryAt 0 0 ::ₘ v.entries 0 :=
  ⟨_, unlink_sample, by decide +kernel, by decide +kernel, by decide +kernel⟩

end DamnOS.HostTool
