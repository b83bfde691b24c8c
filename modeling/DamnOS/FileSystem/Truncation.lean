import DamnOS.FileSystem.Beside

/-!
# What `file_set_size` reports

`file_set_size` always returns 0.  The new size is stored in a field of sixteen bits, so that it does
what it reports for the sizes that fit there, and for no others.
-/

namespace DamnOS.FileSystem

open DamnOS.Framework

/-- The number of blocks of a file of this size. -/
def blocksFor (size : Int) : Int := (size + BLKSIZE - 1) / BLKSIZE

/-- No block of inode `k` lies beyond its size. -/
def World.Covered (w : World) (k : Nat) : Prop :=
  ∀ j : Nat, w.cached.slot k j ≠ 0 → (j : Int) < blocksFor (w.cached.inode k).size

/-- Inode `k` has the size `newsize`, and exactly the blocks beyond it were given back. -/
structure SetsSize (w v : World) (k : Nat) (newsize : Int) : Prop where
  size : ((v.cached.inode k).size : Int) = newsize
  cleared : ∀ j : Nat, blocksFor newsize ≤ j → v.cached.slot k j = 0 ∧
    (w.cached.slot k j ≠ 0 → v.cached.blkOcp (w.cached.slot k j) = false)
  slot : ∀ i j : Nat, i ≠ k ∨ (j : Int) < blocksFor newsize → v.cached.slot i j = w.cached.slot i j
  blkOcp : ∀ b, (∀ j : Nat, blocksFor newsize ≤ j → w.cached.slot k j ≠ 0 → w.cached.slot k j ≠ b) →
    v.cached.blkOcp b = w.cached.blkOcp b
  covered : v.Covered k

/-- An entry of a directory can be followed, once its block is read in. -/
theorem inodeOf_entryIn {N : Nat} {w : World} (h : Sane N w) {d f : Nat} (hd : d < N)
    (hin : w.EntryIn d f) : ∃ t, Loads w t ∧ EntryMapped f t ∧ inodeOf f w = inodeOf f t := by
  obtain ⟨j, e, hz, he, rfl⟩ := hin
  have hv := h.slot_valid hd hz
  obtain ⟨t, ht⟩ := touch_marked hv.2.1 (h.slot_lt hd hz) hv.2.2
    (show blockVa (w.cached.slot d j) ≤ blockVa (w.cached.slot d j) + DIRESIZE * e + offInInd by omega)
    (show blockVa (w.cached.slot d j) + DIRESIZE * e + offInInd + 2 ≤ _ by
      simp only [DIRESIZE, BLKFILES, BLKSIZE, offInInd] at *
      omega)
  rcases inodeOf_start (blockVa (w.cached.slot d j) + DIRESIZE * e) w with hs | ⟨p, u, hu, -⟩
  · exact hs
  · obtain ⟨_, _, hload, -⟩ : ∃ k s, load16 (blockVa (w.cached.slot d j) + DIRESIZE * e + offInInd) w = .ok k s ∧
        True := ⟨_, t, (bind_ok ht).trans rfl, trivial⟩
    rw [inodeOf, bind_ok hload] at hu
    cases hu

private theorem nblocks_eq {n : Nat} (h : n < 65536) : (nblocks n : Int) = blocksFor n := by
  have htd : ((n : Int) + BLKSIZE - 1).tdiv BLKSIZE = ((n : Int) + BLKSIZE - 1) / BLKSIZE :=
    Int.tdiv_eq_ediv_of_nonneg (by simp only [BLKSIZE]; omega)
  rw [nblocks, htd, toU16, blocksFor]
  simp only [BLKSIZE]
  omega

private theorem blocksFor_mono {a b : Int} (h : a ≤ b) : blocksFor a ≤ blocksFor b := by
  simp only [blocksFor, BLKSIZE]
  omega

private theorem Resizes.setsSize {N : Nat} {w v : World} {k : Nat} (hcov : w.Covered k) {n : Nat} (hn : n < 65536)
    (hr : Resizes N w k n v) : SetsSize w v k n := by
  have hnew := nblocks_eq hn
  have hsz : (w.cached.inode k).size < 65536 := size_lt w k
  have hold := nblocks_eq hsz
  have hmem (j : Nat) : j ∈ cutRange (w.cached.inode k).size n ↔
      (n : Int) < (w.cached.inode k).size ∧ blocksFor n ≤ j ∧ (j : Int) < blocksFor (w.cached.inode k).size := by
    rw [mem_cutRange]
    omega
  have hslot (i j : Nat) : v.cached.slot i j =
      if i = k ∧ j ∈ cutRange (w.cached.inode k).size n then 0 else w.cached.slot i j := by
    rw [hr.cached, slot_setSize]
    by_cases hik : i = k
    · subst hik
      simp [Meta.slot, inode_cutAll]
    · simp [Meta.slot, inode_cutAll, hik]
  have hsize : (v.cached.inode k).size = n := by
    rw [hr.cached]
    simp only [Meta.setSize, Meta.setInode, Function.update_self, toU16]
    omega
  -- a filled slot from the new size on lies in the range that is cut
  have hcut (j : Nat) (hj : blocksFor n ≤ j) (hz : w.cached.slot k j ≠ 0) :
      j ∈ cutRange (w.cached.inode k).size n := by
    have hlt := hcov j hz
    have hmono : blocksFor (w.cached.inode k).size ≤ blocksFor n → False := by omega
    refine (hmem j).mpr ⟨?_, hj, hlt⟩
    by_contra hge
    exact hmono (blocksFor_mono (not_lt.mp hge))
  have hocp (b : Nat) : v.cached.blkOcp b = false ↔ w.cached.blkOcp b = false ∨
      b ≠ 0 ∧ ∃ j ∈ cutRange (w.cached.inode k).size n, w.cached.slot k j = b := by
    rw [hr.cached]
    exact blkOcp_cutAll _ _ _ _
  refine ⟨by rw [hsize], fun j hj => ⟨?_, fun hz => ?_⟩, fun i j hij => ?_, fun b hb => ?_, fun j hz => ?_⟩
  · rw [hslot]
    split_ifs with hc
    · rfl
    · by_contra hz
      exact hc ⟨rfl, hcut j hj hz⟩
  · exact (hocp _).mpr (Or.inr ⟨hz, j, hcut j hj hz, rfl⟩)
  · rw [hslot, if_neg]
    rintro ⟨rfl, hj⟩
    rw [hmem] at hj
    omega
  · rw [Bool.eq_iff_iff, ← not_iff_not, Bool.not_eq_true, Bool.not_eq_true, hocp]
    constructor
    · rintro (hb' | ⟨h0, j, hj, he⟩)
      · exact hb'
      · exact absurd he (hb j ((hmem j).mp hj).2.1 (he ▸ h0))
    · exact Or.inl
  · rw [hslot] at hz
    rw [hsize]
    split_ifs at hz with hc
    · exact absurd rfl hz
    · by_contra hge
      exact hc ⟨rfl, hcut j (not_lt.mp hge) hz⟩

theorem fileSetSize_entryIn {N : Nat} {w : World} (h : Sane N w) {d f : Nat} (hd : d < N) (hin : w.EntryIn d f)
    (hk : w.inInd f < N) (newsize : Int) : ∃ t, Quiet w t ∧ Sane N t ∧
      fileSetSize f newsize w = .ok () (t.resized f newsize) ∧
      Resizes N t (w.inInd f) newsize (t.resized f newsize) := by
  obtain ⟨t, hl, hm, he⟩ := inodeOf_entryIn h hd hin
  have hq := hl.quiet
  have hkt : t.inInd f < N := by
    rw [hq.inInd]
    exact hk
  have hmap := hin.inMap h hd
  have hrun : fileSetSize f newsize w = fileSetSize f newsize t := bind_congr_run he
  have hr := resizes (hl.sane h) hkt hmap newsize
  rw [hq.inInd] at hr
  exact ⟨t, hq, hl.sane h, hrun.trans (fileSetSize_run (hl.sane h) hkt hmap newsize hm (hin.offMeta h hd)), hr⟩

/-- The call does what it reports exactly for the sizes that the field holds. -/
theorem setsSize_iff (N : Nat) (w : World) (d f : Nat) (newsize : Int) (h : Sane N w) (hd : d < N)
    (hin : w.EntryIn d f) (hk : w.inInd f < N) (hcov : w.Covered (w.inInd f)) :
    ∃ v, fileSetSize f newsize w = .ok () v ∧
      (SetsSize w v (w.inInd f) newsize ↔ 0 ≤ newsize ∧ newsize < 65536) := by
  obtain ⟨t, hq, -, hrun, hr⟩ := fileSetSize_entryIn h hd hin hk newsize
  refine ⟨_, hrun, ?_⟩
  constructor
  · intro hs
    have hsize := hs.size
    have hlt := size_lt (t.resized f newsize) (w.inInd f)
    omega
  · rintro ⟨hlo, hhi⟩
    obtain ⟨n, rfl⟩ := Int.eq_ofNat_of_zero_le hlo
    have hcovt : t.Covered (w.inInd f) := by
      rw [World.Covered, hq.cached]
      exact hcov
    have hres := hr.setsSize hcovt (by omega)
    obtain ⟨hsize, hcleared, hslot, hocp, hc⟩ := hres
    rw [hq.cached] at hcleared hslot hocp
    exact ⟨hsize, hcleared, hslot, hocp, hc⟩

private theorem covered_fileWorld : fileWorld.Covered (fileWorld.inInd (blockVa 2)) := by
  intro j hz
  have hall : ∀ j < NDIRECT, fileWorld.cached.slot (fileWorld.inInd (blockVa 2)) j ≠ 0 →
      (j : Int) < blocksFor (fileWorld.cached.inode (fileWorld.inInd (blockVa 2))).size := by decide +kernel
  rcases Nat.lt_or_ge j NDIRECT with hj | hj
  · exact hall j hj hz
  · exact absurd (slot_ge _ _ hj) hz

theorem entryIn_fileWorld : fileWorld.EntryIn 0 (blockVa 2) :=
  ⟨0, 0, by decide +kernel, by decide, by decide +kernel⟩

theorem setsSize_fileWorld : ∃ v, fileSetSize (blockVa 2) 1 fileWorld = .ok () v ∧
    (SetsSize fileWorld v (fileWorld.inInd (blockVa 2)) 1 ↔ (0 : Int) ≤ 1 ∧ (1 : Int) < 65536) :=
  setsSize_iff 4 fileWorld 0 (blockVa 2) 1 sane_fileWorld (by decide) entryIn_fileWorld (by decide +kernel)
    covered_fileWorld

/-- The size 65536 becomes 0. -/
theorem setsSize_fails : ¬∀ (N : Nat) (w v : World) (d f : Nat) (newsize : Int), Sane N w → d < N →
    w.EntryIn d f → w.inInd f < N → w.Covered (w.inInd f) → -2147483648 ≤ newsize → newsize < 2147483648 →
      fileSetSize f newsize w = .ok () v → SetsSize w v (w.inInd f) newsize := by
  intro h
  have hrun : fileSetSize (blockVa 2) 65536 fileWorld = .ok () _ := eq_ok_of_returns (by decide +kernel)
  have hs := h 4 fileWorld _ 0 (blockVa 2) 65536 sane_fileWorld (by decide) entryIn_fileWorld
    (by decide +kernel) covered_fileWorld (by decide) (by decide) hrun
  have hlt := size_lt (final (fileSetSize (blockVa 2) 65536) fileWorld) (fileWorld.inInd (blockVa 2))
  have hsize := hs.size
  omega

end DamnOS.FileSystem
