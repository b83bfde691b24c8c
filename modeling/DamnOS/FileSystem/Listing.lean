import DamnOS.FileSystem.TreeDisk

/-!
# Directories read as files

A program lists a directory by reading it in pieces of `sizeof(struct DirEntry)` bytes up to its size.
-/

namespace DamnOS.FileSystem

open DamnOS.Framework

namespace World

/-- The name in record `r` of directory `k`, up to its first NUL. -/
def record (w : World) (k r : Nat) : List UInt8 :=
  ((List.range DIRESIZE).map fun b => w.byte (w.addrOf k (DIRESIZE * r + b))).takeWhile (· != 0)

/-- The names in the records that are read in full. -/
def records (w : World) (k : Nat) : List (List UInt8) :=
  (List.range ((w.cached.inode k).size / DIRESIZE)).map (w.record k)

end World

theorem Tree.mem_records (T : Tree) {i : Nat} (hi : i < MAXINODENUM) {n : List UInt8} (hne : n ≠ [])
    (h0 : (0 : UInt8) ∉ n) : n ∈ T.world.records i ↔
      ∃ k, 0 < k ∧ k ≤ T.size ∧ T.parent k = i ∧ T.name k = n := by
  obtain ⟨-, hsize, -, hslot⟩ := T.inode_world hi
  have hbyte {r b : Nat} (hr : r < BLKFILES) (hb : b < DIRESIZE) :
      T.world.byte (T.world.addrOf i (DIRESIZE * r + b)) = T.world.byte (blockVa (i + 2) + DIRESIZE * r + b) := by
    have hin : DIRESIZE * r + b < BLKSIZE := by
      simp only [DIRESIZE, BLKFILES, BLKSIZE] at *
      omega
    rw [World.addrOf, Nat.div_eq_of_lt hin, Nat.mod_eq_of_lt hin, hslot, if_pos rfl, Nat.add_assoc]
  have hrec {k : Nat} (hpos : 0 < k) (hle : k ≤ T.size) (hpar : T.parent k = i) :
      T.world.record i k = T.name k := by
    obtain ⟨-, hlen, hnul⟩ := T.named k hpos hle
    have hsmall := T.small
    simp only [MAXINODENUM, MAXNAMELEN] at hsmall hlen
    have hk : k < BLKFILES := by
      simp only [BLKFILES]
      omega
    have hmap : ((List.range DIRESIZE).map fun b => T.world.byte (T.world.addrOf i (DIRESIZE * k + b))) =
        (List.range DIRESIZE).map fun b =>
          if b < MAXNAMELEN then (T.name k).getD b 0 else if b = offInInd then UInt8.ofNat k else 0 := by
      refine List.map_congr_left fun b hb => ?_
      rw [hbyte hk (List.mem_range.mp hb), T.byte_entry i hk (List.mem_range.mp hb), if_pos ⟨hpos, hle, hpar⟩]
    rw [World.record, hmap]
    apply takeWhile_terminated hnul
    · rw [List.prefix_iff_eq_take]
      apply List.ext_getElem
      · simp [DIRESIZE]
        omega
      · intro b hb hb'
        simp only [List.getElem_take, List.getElem_map, List.getElem_range]
        rw [if_pos (by simp only [MAXNAMELEN]; omega)]
        simp [hb]
    · right
      have hb : (T.name k).length < 18 := by omega
      simp [DIRESIZE, hb, MAXNAMELEN, hlen]
  rw [World.records, hsize, Nat.mul_div_cancel _ (by decide), List.mem_map]
  constructor
  · rintro ⟨r, hr, rfl⟩
    have hr' := List.mem_range.mp hr
    by_cases hch : 0 < r ∧ r ≤ T.size ∧ T.parent r = i
    · exact ⟨r, hch.1, hch.2.1, hch.2.2, (hrec hch.1 hch.2.1 hch.2.2).symm⟩
    · -- an entry that belongs to no directory is blank
      have hfirst : T.world.byte (T.world.addrOf i (DIRESIZE * r + 0)) = 0 := by
        rw [hbyte hr' (by decide), T.byte_entry i hr' (by decide), if_neg hch]
      refine absurd ?_ hne
      rw [World.record, show DIRESIZE = 17 + 1 from rfl, List.range_succ_eq_map, List.map_cons,
        List.takeWhile_cons]
      simp only [show (17 + 1) * r + 0 = DIRESIZE * r + 0 from rfl, hfirst]
      rfl
  · rintro ⟨k, hpos, hle, hpar, rfl⟩
    have hsmall := T.small
    simp only [MAXINODENUM] at hsmall
    refine ⟨k, List.mem_range.mpr ?_, hrec hpos hle hpar⟩
    simp only [BLKFILES]
    omega

end DamnOS.FileSystem
