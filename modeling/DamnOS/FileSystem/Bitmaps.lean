import DamnOS.FileSystem.Blocks
import DamnOS.FileSystem.Runs

/-!
# The bitmaps as sets

An allocator takes the smallest number that is not in the set and puts it in; the set is kept in words of 32 bits.
-/

namespace DamnOS.FileSystem

open DamnOS.Framework

/-- What is left of a bitmap with `num` numbers in use of its `MAX`. -/
def unused (num : Meta → Nat) (bits : Meta → Nat → Bool) (m : Meta) : Set Nat := {b | b < num m ∧ bits m b = false}

/-- Allocation and release over one bitmap of the super block. -/
structure ManagesSet (alloc : M Nat) (free : Nat → M Unit) (full : Err) (num : Meta → Nat) (bits : Meta → Nat → Bool)
    (set : Meta → Nat → Bool → Meta) (w : World) : Prop where
  /-- The smallest number that is not used, with its bit set. -/
  taken : unused num bits w.cached ≠ ∅ →
    ∃ b v, alloc w = .ok b v ∧ IsLeast (unused num bits w.cached) b ∧ v.cached = set w.cached b true
  /-- An error, and the same state. -/
  exhausted : unused num bits w.cached = ∅ ↔ alloc w = .error (.err full) w
  released : ∀ b, 0 < b → b < num w.cached → ∃ v, free b w = .ok () v ∧ v.cached = set w.cached b false
  restored : ∀ b v, alloc w = .ok b v → b ≠ 0 → ∃ u, free b v = .ok () u ∧ u.cached = w.cached

section Bitmaps

variable {w : World} {m : Meta} {b : Nat} {x : Bool}

private theorem unused_find {p : Nat → Bool} {num : Meta → Nat} {bits : Meta → Nat → Bool}
    (hp : ∀ b < num m, p b = true ↔ b < num m ∧ bits m b = false) :
    ((List.range (num m)).find? p = some b ↔ IsLeast (unused num bits m) b) ∧
      ((List.range (num m)).find? p = none ↔ unused num bits m = ∅) := by
  constructor
  · rw [List.find?_range_eq_some]
    constructor
    · rintro ⟨hb, hmem, hleast⟩
      have hlt := List.mem_range.mp hmem
      refine ⟨(hp b hlt).mp hb, ?_⟩
      intro c hc
      by_contra hcb
      have hnot := hleast c (not_le.mp hcb)
      rw [(hp c hc.1).mpr hc] at hnot
      cases hnot
    · rintro ⟨hb, hleast⟩
      refine ⟨(hp b hb.1).mpr hb, List.mem_range.mpr hb.1, ?_⟩
      intro c hcb
      have hc : ¬p c = true := fun h => absurd (hleast ((hp c (hcb.trans hb.1)).mp h)) (not_le.mpr hcb)
      simpa using hc
  · rw [List.find?_eq_none, Set.eq_empty_iff_forall_notMem]
    constructor
    · intro h b hb
      exact h b (List.mem_range.mpr hb.1) ((hp b hb.1).mpr hb)
    · intro h b hb hpb
      exact h b ((hp b (List.mem_range.mp hb)).mp hpb)

private theorem setBlkOcp_setBlkOcp (h : m.blkOcp b = x) (y : Bool) : (m.setBlkOcp b y).setBlkOcp b x = m := by
  rw [Meta.setBlkOcp, Meta.setBlkOcp]
  simp only [Function.update_idem]
  rw [← h, Function.update_eq_self]

private theorem setInOcp_setInOcp (h : m.inOcp b = x) (y : Bool) : (m.setInOcp b y).setInOcp b x = m := by
  rw [Meta.setInOcp, Meta.setInOcp]
  simp only [Function.update_idem]
  rw [← h, Function.update_eq_self]

/-- The general part: what is needed of an allocator is its search and the effect on its bit. -/
theorem managesSet {alloc : M Nat} {free : Nat → M Unit} {full : Err} {num : Meta → Nat} {bits : Meta → Nat → Bool}
    {set : Meta → Nat → Bool → Meta} {find : Option Nat} {mark unmark : World → Nat → World}
    (hsome : ∀ b, find = some b ↔ IsLeast (unused num bits w.cached) b)
    (hnone : find = none ↔ unused num bits w.cached = ∅)
    (htake : ∀ b, b < num w.cached → find = some b → alloc w = .ok b (mark w b) ∧
      (mark w b).cached = set w.cached b true)
    (hfull : find = none → alloc w = .error (.err full) w)
    (hfree : ∀ b < num w.cached, b ≠ 0 → free b w = .ok () (unmark w b) ∧ (unmark w b).cached = set w.cached b false)
    (hback : ∀ b < num w.cached, b ≠ 0 → free b (mark w b) = .ok () (unmark (mark w b) b) ∧
      (unmark (mark w b) b).cached = set (mark w b).cached b false)
    (hset : ∀ b, bits w.cached b = false → set (set w.cached b true) b false = w.cached) :
    ManagesSet alloc free full num bits set w where
  taken hne := by
    cases hfind : find with
    | none => exact absurd (hnone.mp hfind) hne
    | some b =>
      have hleast := (hsome b).mp hfind
      obtain ⟨hrun, hmark⟩ := htake b hleast.1.1 hfind
      exact ⟨b, mark w b, hrun, hleast, hmark⟩
  exhausted := by
    rw [← hnone]
    refine ⟨hfull, fun herr => ?_⟩
    cases hfind : find with
    | none => rfl
    | some b =>
      rw [(htake b ((hsome b).mp hfind).1.1 hfind).1] at herr
      cases herr
  released b hpos hb := ⟨unmark w b, hfree b hb hpos.ne'⟩
  restored b v hrun hne := by
    cases hfind : find with
    | none =>
      rw [hfull hfind] at hrun
      cases hrun
    | some c =>
      have hleast := (hsome c).mp hfind
      obtain ⟨htaken, hmark⟩ := htake c hleast.1.1 hfind
      rw [htaken] at hrun
      cases hrun
      obtain ⟨hfreed, hclear⟩ := hback b hleast.1.1 hne
      refine ⟨_, hfreed, ?_⟩
      rw [hclear, hmark, hset b hleast.1.2]

end Bitmaps

/-- The allocators of blocks and inodes manage one set each, and leave the other alone. -/
theorem bitmaps_manage_sets (w : World) (h : Ready w) (hb : w.cached.blkNum ≤ MAXBLKNUM)
    (hk : w.cached.inNum ≤ MAXINODENUM) :
    ManagesSet allocBlock freeBlock .noDisk Meta.blkNum Meta.blkOcp Meta.setBlkOcp w ∧
      ManagesSet allocInode freeInode .noInode Meta.inNum Meta.inOcp Meta.setInOcp w ∧
      ∀ (m : Meta) (b c : Nat) (x : Bool),
        (m.setBlkOcp b x).blkOcp c = (if c = b then x else m.blkOcp c) ∧ (m.setBlkOcp b x).inOcp = m.inOcp ∧
        (m.setInOcp b x).inOcp c = (if c = b then x else m.inOcp c) ∧ (m.setInOcp b x).blkOcp = m.blkOcp := by
  refine ⟨?_, ?_, fun m b c x => ⟨?_, rfl, ?_, rfl⟩⟩
  · have hp : ∀ b < w.cached.blkNum, w.blockIsFree b = true ↔ b < w.cached.blkNum ∧ w.cached.blkOcp b = false :=
      fun b hlt => blockIsFree_iff w (hlt.trans_le hb)
    have hfirst : w.firstFree = (List.range w.cached.blkNum).find? w.blockIsFree := by
      rw [World.firstFree, blkNum_cached]
    refine @managesSet w allocBlock freeBlock .noDisk Meta.blkNum Meta.blkOcp Meta.setBlkOcp w.firstFree
      World.markBlock World.unmarkBlock ?_ ?_ ?_ ?_ ?_ ?_ ?_
    · intro b
      rw [hfirst]
      exact (unused_find hp).1
    · rw [hfirst]
      exact (@unused_find w.cached 0 _ _ _ hp).2
    · intro b hlt hfind
      exact ⟨allocBlock_some h hfind (hlt.trans_le hb), cached_markBlock h (hlt.trans_le hb)⟩
    · exact allocBlock_none
    · intro b hlt hne
      exact ⟨freeBlock_run h hne (hlt.trans_le hb), cached_unmarkBlock h (hlt.trans_le hb)⟩
    · intro b hlt hne
      have hready : Ready (w.markBlock b) := h.of_present (present_markBlock w b)
      exact ⟨freeBlock_run hready hne (hlt.trans_le hb), cached_unmarkBlock hready (hlt.trans_le hb)⟩
    · exact fun b hbit => setBlkOcp_setBlkOcp hbit true
  · have hp : ∀ k < w.cached.inNum, w.inodeIsFree k = true ↔ k < w.cached.inNum ∧ w.cached.inOcp k = false :=
      fun k hlt => inodeIsFree_iff w (hlt.trans_le hk)
    have hfirst : (List.range w.inNum).find? w.inodeIsFree = (List.range w.cached.inNum).find? w.inodeIsFree := by
      rw [inNum_cached]
    refine @managesSet w allocInode freeInode .noInode Meta.inNum Meta.inOcp Meta.setInOcp
      ((List.range w.inNum).find? w.inodeIsFree) World.markInode World.unmarkInode ?_ ?_ ?_ ?_ ?_ ?_ ?_
    · intro k
      rw [hfirst]
      exact (unused_find hp).1
    · rw [hfirst]
      exact (@unused_find w.cached 0 _ _ _ hp).2
    · intro k hlt hfind
      exact ⟨allocInode_some h hfind (hlt.trans_le hk), cached_markInode h (hlt.trans_le hk)⟩
    · exact allocInode_none
    · intro k hlt hne
      exact ⟨freeInode_run h hne (hlt.trans_le hk), cached_unmarkInode h (hlt.trans_le hk)⟩
    · intro k hlt hne
      have hready : Ready (w.markInode k) := h.of_present (present_markInode w k)
      exact ⟨freeInode_run hready hne (hlt.trans_le hk), cached_unmarkInode hready (hlt.trans_le hk)⟩
    · exact fun k hbit => setInOcp_setInOcp hbit true
  · rw [Meta.setBlkOcp]
    exact Function.update_apply _ _ _ _
  · rw [Meta.setInOcp]
    exact Function.update_apply _ _ _ _

theorem bitmaps_manage_sets_fresh :
    ManagesSet allocBlock freeBlock .noDisk Meta.blkNum Meta.blkOcp Meta.setBlkOcp (mount (freshDisk 4 1)) ∧
      ManagesSet allocInode freeInode .noInode Meta.inNum Meta.inOcp Meta.setInOcp (mount (freshDisk 4 1)) ∧
      ∀ (m : Meta) (b c : Nat) (x : Bool),
        (m.setBlkOcp b x).blkOcp c = (if c = b then x else m.blkOcp c) ∧ (m.setBlkOcp b x).inOcp = m.inOcp ∧
        (m.setInOcp b x).inOcp c = (if c = b then x else m.inOcp c) ∧ (m.setInOcp b x).blkOcp = m.blkOcp :=
  bitmaps_manage_sets _ ⟨rfl, rfl⟩ (by decide +kernel) (by decide +kernel)

end DamnOS.FileSystem
