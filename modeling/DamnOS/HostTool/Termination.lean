import DamnOS.HostTool.Finders

/-!
# Loops that end and loops that do not

The searches end when the entry is in the first block, and `write_file` ends when there are enough free blocks: the
loop that grows a file asks for a block again when it has got none.
-/

namespace DamnOS.HostTool

open DamnOS.Framework

variable {h : Header} {im v : Image h} {k n b : Nat}

/-- Some number of turns is enough, and where `P` holds the result is as in `Q`. -/
def Settles {ρ : Type} (run : Nat → Option ρ) (P : Prop) (Q : ρ → Prop) : Prop :=
  (∃ fuel r, run fuel = some r) ∧ (P → ∀ fuel r, run fuel = some r → Q r)

namespace Image

/-- The entry is in none of the directory's blocks. -/
def Absent (im : Image h) (p : DirEntry → Bool) (k : Nat) : Prop :=
  ∀ i < (im.inode k).blockUsed, ∀ j < ((im.inode k).size - i * im.sb.blockSize) / h.sizeofDirEntry, j < im.perBlock →
    ¬p (h.entry (im.disk ((im.inode k).blockIndex i)) j)

private theorem Absent.not_hit {p : DirEntry → Bool} (ha : im.Absent p k) (hused : 0 < (im.inode k).blockUsed) :
    ¬im.Hit p k := by
  rintro ⟨j, hj, hp⟩
  obtain ⟨hsize, hroom⟩ := lt_min_iff.mp hj
  refine ha 0 hused j ?_ hroom hp
  rw [Nat.zero_mul, Nat.sub_zero]
  exact hsize

private theorem findEntry_settles (im : Image h) (p : DirEntry → Bool) (k : Nat) (buf : Nat → UInt8) :
    Settles (fun fuel => im.findEntry fuel p k buf) (im.Absent p k) (fun s => s.found = none) ↔
      (im.inode k).blockUsed = 0 ∨ im.Hit p k := by
  rcases Nat.eq_zero_or_pos (im.inode k).blockUsed with hused | hused
  · refine iff_of_true ⟨⟨1, _, findEntry_unused hused 0⟩, ?_⟩ (.inl hused)
    intro _ fuel s hrun
    cases fuel with
    | zero => cases hrun
    | succ fuel =>
      cases (findEntry_unused hused fuel).symm.trans hrun
      rfl
  · constructor
    · rintro ⟨⟨fuel, s, hrun⟩, -⟩
      right
      by_contra hhit
      cases (findEntry_endless hused hhit fuel).symm.trans hrun
    · rintro (hzero | hhit)
      · exact absurd hzero hused.ne'
      · refine ⟨?_, fun ha => absurd hhit (ha.not_hit hused)⟩
        cases hj : im.firstHit p k with
        | none => exact absurd hhit (firstHit_none.mp hj)
        | some j => exact ⟨1, _, findEntry_hit hused hj 0⟩

/-- The number of blocks that are not marked. -/
def freeBlocks (im : Image h) : Nat := ((Finset.range im.sb.blockNum).filter fun b => im.sb.blockAvai b = 0).card

/-- The number of blocks that `write_file` gives a file of `len` bytes. -/
def pieces (im : Image h) (len : Nat) : Nat := (len + im.sb.blockSize - 1) / im.sb.blockSize

private theorem roundup_div (im : Image h) (len : Nat) :
    h.roundup len im.sb.blockSize / im.sb.blockSize = im.pieces len := by
  have hpos := im.sb.blockSize_pos
  have hle := h.le_roundup len _ hpos
  have hlt := h.roundup_lt len _ hpos
  obtain ⟨q, hq⟩ := h.dvd_roundup len _ hpos
  rw [hq] at hle hlt ⊢
  rw [Nat.mul_div_cancel_left q hpos, pieces]
  symm
  apply Nat.div_eq_of_lt_le
  · rw [Nat.mul_comm]
    omega
  · rw [Nat.add_mul, Nat.one_mul, Nat.mul_comm]
    omega

@[simp] theorem sb_zeroBlock (im : Image h) (b : Nat) : (im.zeroBlock b).sb = im.sb := by
  rw [zeroBlock]
  split <;> rfl

@[simp] theorem inode_zeroBlock (im : Image h) (b : Nat) : (im.zeroBlock b).inode = im.inode := by
  rw [zeroBlock]
  split <;> rfl

@[simp] theorem used_setInode (im : Image h) (k : Nat) (d : DamnInode h) :
    ((im.setInode k d).inode k).blockUsed = d.blockUsed := by
  rw [setInode]
  simp only [Function.update_self]

theorem freeBlocks_setAvai (hb : b < im.sb.blockNum) (hfree : im.sb.blockAvai b = 0) :
    (im.setAvai b 1).freeBlocks + 1 = im.freeBlocks := by
  have herase : ((Finset.range im.sb.blockNum).filter fun c => Function.update im.sb.blockAvai b 1 c = 0) =
      ((Finset.range im.sb.blockNum).filter fun c => im.sb.blockAvai c = 0).erase b := by
    ext c
    rw [Finset.mem_erase, Finset.mem_filter, Finset.mem_filter, Function.update_apply]
    by_cases hc : c = b <;> simp [hc]
  have hmem : b ∈ (Finset.range im.sb.blockNum).filter fun c => im.sb.blockAvai c = 0 :=
    Finset.mem_filter.mpr ⟨Finset.mem_range.mpr hb, hfree⟩
  rw [freeBlocks, freeBlocks]
  change (Finset.filter _ (Finset.range im.sb.blockNum)).card + 1 = _
  rw [← Finset.card_erase_add_one hmem, ← herase]
  rfl

private theorem allocb_none : im.allocb = none ↔ im.freeBlocks = 0 := by
  rw [allocb, Option.map_eq_none_iff, List.find?_eq_none, freeBlocks, Finset.card_eq_zero, Finset.filter_eq_empty_iff]
  simp only [List.mem_range, Finset.mem_range, decide_eq_true_eq]

theorem newBlockForFile_some (hused : (im.inode k).blockUsed ≠ SLOTS) (hv : im.newBlockForFile k = some v) :
    (v.inode k).blockUsed = (im.inode k).blockUsed + 1 ∧ v.freeBlocks + 1 = im.freeBlocks := by
  rw [newBlockForFile, if_neg hused, allocb, Option.map_map, Option.map_eq_some_iff] at hv
  obtain ⟨b, hb, rfl⟩ := hv
  obtain ⟨hfree, hmem, -⟩ := List.find?_range_eq_some.mp hb
  constructor
  · simp only [Function.comp_apply, inode_zeroBlock, used_setInode]
    rfl
  · rw [← freeBlocks_setAvai (List.mem_range.mp hmem) (of_decide_eq_true hfree), Function.comp_apply, freeBlocks,
      sb_zeroBlock]
    rfl

private theorem growBlock_turn (hlt : (v.inode k).blockUsed < n) (hn : n ≤ SLOTS) : ∃ u, growBlock k n v = .inl u ∧
    (v.freeBlocks = 0 ∧ u = v ∨
      (u.inode k).blockUsed = (v.inode k).blockUsed + 1 ∧ u.freeBlocks + 1 = v.freeBlocks) := by
  refine ⟨_, if_pos hlt, ?_⟩
  cases hnew : v.newBlockForFile k with
  | some u => exact .inr (newBlockForFile_some (hlt.trans_le hn).ne hnew)
  | none =>
    left
    rw [newBlockForFile, if_neg (hlt.trans_le hn).ne, Option.map_eq_none_iff] at hnew
    exact ⟨allocb_none.mp hnew, rfl⟩

private theorem grow_ends (hn : n ≤ SLOTS) (henough : n ≤ (im.inode k).blockUsed + im.freeBlocks) :
    ∃ m u, loop (growBlock k n) m im = some u := by
  have hturn : ∀ v : Image h, n ≤ (v.inode k).blockUsed + v.freeBlocks →
      (∃ u, growBlock k n v = .inr u) ∨ ∃ u, growBlock k n v = .inl u ∧
        n ≤ (u.inode k).blockUsed + u.freeBlocks ∧ n - (u.inode k).blockUsed < n - (v.inode k).blockUsed := by
    intro v hv
    by_cases hlt : (v.inode k).blockUsed < n
    · right
      obtain ⟨u, hu, hstuck | ⟨hused, hfree⟩⟩ := growBlock_turn hlt hn
      · omega
      · exact ⟨u, hu, by omega, by omega⟩
    · exact .inl ⟨v, if_neg hlt⟩
  exact loop_ends (fun v => n - (v.inode k).blockUsed) hturn henough

private theorem grow_endless (hn : n ≤ SLOTS) (hfew : im.freeBlocks + (im.inode k).blockUsed < n) (m : Nat) :
    loop (growBlock k n) m im = none := by
  have hturn : ∀ v : Image h, v.freeBlocks + (v.inode k).blockUsed < n →
      ∃ u, growBlock k n v = .inl u ∧ u.freeBlocks + (u.inode k).blockUsed < n := by
    intro v hv
    obtain ⟨u, hu, ⟨-, rfl⟩ | ⟨hused, hfree⟩⟩ := growBlock_turn ((Nat.le_add_left _ _).trans_lt hv) hn
    · exact ⟨u, hu, hv⟩
    · exact ⟨u, hu, by omega⟩
  exact loop_endless hturn m hfew

private theorem shrink_ends (im : Image h) (k n : Nat) : ∃ m u, loop (shrinkBlock k n) m im = some u := by
  have hturn : ∀ v : Image h, True → (∃ u, shrinkBlock k n v = .inr u) ∨ ∃ u, shrinkBlock k n v = .inl u ∧ True ∧
      (u.inode k).blockUsed < (v.inode k).blockUsed := by
    intro v _
    by_cases hlt : n < (v.inode k).blockUsed
    · refine .inr ⟨_, if_pos hlt, trivial, ?_⟩
      rw [freeBlockForFile, if_neg (by omega), setAvai]
      change ((v.setInode k _).inode k).blockUsed < _
      rw [used_setInode]
      change (v.inode k).blockUsed - 1 < _
      omega
    · exact .inl ⟨v, if_neg hlt⟩
  exact loop_ends (fun v => (v.inode k).blockUsed) hturn trivial

theorem writeFile_big {str : Text} {heap : Nat → UInt8} (hbig : SLOTS < im.pieces str.bytes.length) (fuel : Nat) :
    im.writeFile fuel str k heap = some (false, im) := by
  rw [writeFile, roundup_div]
  exact if_pos hbig

theorem writeFile_fits {str : Text} {heap : Nat → UInt8} (hn : im.pieces str.bytes.length ≤ SLOTS) (fuel : Nat) :
    im.writeFile fuel str k heap =
      (if (im.inode k).blockUsed < im.pieces str.bytes.length then
          loop (growBlock k (im.pieces str.bytes.length)) fuel im
        else loop (shrinkBlock k (im.pieces str.bytes.length)) fuel im).map fun v =>
          (true,
            ((List.range (im.pieces str.bytes.length)).foldl (writePiece str.bytes k)
              ⟨heap, v.setSize k str.bytes.length⟩).image) := by
  rw [writeFile, roundup_div, if_neg (not_lt.mpr hn)]
  split <;> exact Option.map_eq_bind.symm

theorem writeFile_settles (im : Image h) (str : Text) (k : Nat) (heap : Nat → UInt8) :
    Settles (fun fuel => im.writeFile fuel str k heap)
        (im.freeBlocks + (im.inode k).blockUsed < im.pieces str.bytes.length) (fun r => r.1 = false) ↔
      SLOTS < im.pieces str.bytes.length ∨ im.pieces str.bytes.length ≤ (im.inode k).blockUsed + im.freeBlocks := by
  rcases lt_or_ge SLOTS (im.pieces str.bytes.length) with hbig | hn
  · refine iff_of_true ⟨⟨0, _, writeFile_big hbig 0⟩, ?_⟩ (.inl hbig)
    intro _ fuel r hr
    cases (writeFile_big hbig fuel).symm.trans hr
    rfl
  · constructor
    · rintro ⟨⟨fuel, r, hr⟩, -⟩
      right
      by_contra hfew
      have hrun := (writeFile_fits hn fuel).symm.trans hr
      rw [if_pos (by omega), grow_endless hn (by omega)] at hrun
      cases hrun
    · rintro (hbig | henough)
      · exact absurd hbig (not_lt.mpr hn)
      · refine ⟨?_, fun hfew => by omega⟩
        by_cases hlt : (im.inode k).blockUsed < im.pieces str.bytes.length
        · obtain ⟨m, u, hu⟩ := grow_ends hn henough
          have hrun := @writeFile_fits h im k str heap hn m
          rw [if_pos hlt, hu] at hrun
          exact ⟨m, _, hrun⟩
        · obtain ⟨m, u, hu⟩ := shrink_ends im k (im.pieces str.bytes.length)
          have hrun := @writeFile_fits h im k str heap hn m
          rw [if_neg hlt, hu] at hrun
          exact ⟨m, _, hrun⟩

end Image

/-- A search ends, and misses what is not there, when the directory has no block or the entry is in its first block;
`write_file` ends, and fails without enough free blocks, when more blocks are asked for than a file has slots or when
there are enough. -/
theorem loops_end_iff (im : Image h) (k ind : Nat) (name : List UInt8) (str : Text) (buf : Nat → UInt8) :
    (Settles (fun fuel => im.findEntryByName fuel k buf name) (im.Absent (fun e => e.file = name) k)
        (fun s => s.found = none) ↔
      (im.inode k).blockUsed = 0 ∨ im.Hit (fun e => e.file = name) k) ∧
    (Settles (fun fuel => im.findEntryByInode fuel k buf ind) (im.Absent (fun e => e.inodeIndex = ind) k)
        (fun s => s.found = none) ↔
      (im.inode k).blockUsed = 0 ∨ im.Hit (fun e => e.inodeIndex = ind) k) ∧
    (Settles (fun fuel => im.writeFile fuel str k buf)
        (im.freeBlocks + (im.inode k).blockUsed < im.pieces str.bytes.length) (fun r => r.1 = false) ↔
      SLOTS < im.pieces str.bytes.length ∨ im.pieces str.bytes.length ≤ (im.inode k).blockUsed + im.freeBlocks) :=
  ⟨im.findEntry_settles _ k buf, im.findEntry_settles _ k buf, im.writeFile_settles str k buf⟩

def fullText : Text := .fill 4096 120 (by decide)

/-- A name and an inode that are not in the directory, and a text of eight blocks for a file that can have four. -/
theorem loops_do_not_end :
    (∀ fuel, Image.sample.findEntryByName fuel 0 (fun _ => 0) [99] = none) ∧
    (∀ fuel, Image.sample.findEntryByInode fuel 0 (fun _ => 0) 3 = none) ∧
    (∀ fuel, Image.sample.writeFile fuel fullText 1 (fun _ => 0) = none) := by
  have hname : ¬Image.sample.Hit (fun e => e.file = [99]) 0 := by
    rw [Image.Hit]
    decide +kernel
  have hinode : ¬Image.sample.Hit (fun e => e.inodeIndex = 3) 0 := by
    rw [Image.Hit]
    decide +kernel
  have hpieces : Image.sample.pieces fullText.bytes.length = SLOTS := by
    rw [fullText, Text.fill, List.length_replicate]
    decide +kernel
  refine ⟨Image.findEntry_endless Nat.one_pos hname, Image.findEntry_endless Nat.one_pos hinode, ?_⟩
  intro fuel
  rw [Image.writeFile_fits hpieces.le, hpieces, if_pos (by decide), Image.grow_endless le_rfl (by decide +kernel)]
  rfl

end DamnOS.HostTool
