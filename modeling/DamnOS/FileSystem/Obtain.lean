import DamnOS.FileSystem.SetSize

/-!
# Getting a block of a file, exactly

In a sane state `file_get_block` either fails and changes nothing, or gives the block of the slot,
taking the first free one if the slot was empty.
-/

namespace DamnOS.FileSystem

open DamnOS.Framework

namespace World

/-- The block that `file_get_block` gives for slot `j` of inode `k`, if it succeeds. -/
def obtain (w : World) (k j : Nat) : Option Nat :=
  if NDIRECT ≤ j then none
  else if w.cached.slot k j = 0 then w.firstFree
  else some (w.cached.slot k j)

def obtained (w : World) (k j b : Nat) : World :=
  (if w.cached.slot k j = 0 then w.acquire k j b else w).flush inodePg

def obtainErr (j : Nat) : Err := if NDIRECT ≤ j then .inval else .noDisk

end World

/-- What getting block `b` for slot `j` of inode `k` does. -/
structure Obtains (N : Nat) (w : World) (k j b : Nat) (v : World) : Prop where
  sane : Sane N v
  bound : j < NDIRECT
  two_le : 2 ≤ b
  lt_blkNum : b < w.cached.blkNum
  slot : ∀ i j', v.cached.slot i j' = if i = k ∧ j' = j then b else w.cached.slot i j'
  other : ∀ i, i ≠ k → v.cached.inode i = w.cached.inode i
  type : (v.cached.inode k).type = (w.cached.inode k).type
  size : (v.cached.inode k).size = (w.cached.inode k).size
  inOcp : v.cached.inOcp = w.cached.inOcp
  inNum : v.cached.inNum = w.cached.inNum
  blkNum : v.cached.blkNum = w.cached.blkNum
  idle : w.cached.slot k j ≠ 0 → v.cached = w.cached
  blkOcp : ∀ c, v.cached.blkOcp c = (decide (c = b) || w.cached.blkOcp c)
  owned : w.cached.slot k j = b ∨ w.cached.slot k j = 0 ∧ w.cached.blkOcp b = false
  byte : ∀ x, OffMeta x → v.byte x = w.byte x
  present : v.present = w.present
  accesses : v.accesses = w.accesses
  followed : v.followed = w.followed

section Obtain

variable {N : Nat} {w : World} (h : Sane N w) {k : Nat} (hk : k < N)
include h hk

theorem fileGetBlock_obtain {j b : Nat} (hb : w.obtain k j = some b) :
    fileGetBlock (inodeVa k) j w = .ok (blockVa b) (w.obtained k j b) := by
  unfold World.obtain at hb
  split_ifs at hb with hj hz
  · have hf := h.firstFree hb
    rw [fileGetBlock_empty h.ready (h.lt hk) (not_le.mp hj) hz hb hf.1 hf.2.1, World.obtained,
      if_pos hz]
  · cases hb
    rw [fileGetBlock_filled h.ready (h.lt hk) (not_le.mp hj) hz (h.slot_valid hk hz).2.1,
      World.obtained, if_neg hz]

theorem fileGetBlock_fail {j : Nat} (hb : w.obtain k j = none) :
    fileGetBlock (inodeVa k) j w = .error (.err (World.obtainErr j)) w := by
  unfold World.obtain at hb
  split_ifs at hb with hj hz
  · rw [fileGetBlock_inval _ hj, World.obtainErr, if_pos hj]
  · rw [fileGetBlock_full h.ready (h.lt hk) (not_le.mp hj) hz hb, World.obtainErr, if_neg hj]

theorem obtains {j b : Nat} (hb : w.obtain k j = some b) : Obtains N w k j b (w.obtained k j b) := by
  unfold World.obtain at hb
  split_ifs at hb with hj hz
  · have hj' := not_le.mp hj
    have hf := h.firstFree hb
    have hk' := h.lt hk
    have hc : (w.obtained k j b).cached = ((w.cached.setBlkOcp b true).setSlot k j b).setBlkUsed k
        (((w.cached.inode k).blkUsed + 1) % 65536) := by
      rw [World.obtained, if_pos hz, cached_flush _ (by decide), cached_acquire h.ready hk' hj' hf.1]
    have hstep : Step Scope.all N w (w.acquire k j b) := .acquire k j b trivial hk hj' hz hb
    refine ⟨?_, hj', hf.2.2.2, hf.2.1, ?_, ?_, ?_, ?_, by rw [hc]; rfl, by rw [hc]; rfl,
      by rw [hc]; rfl, fun hne => absurd hz hne, ?_, Or.inr ⟨hz, hf.2.2.1⟩, ?_, ?_, ?_, ?_⟩
    · rw [World.obtained, if_pos hz]
      exact Step.sane (S := Scope.all) (.flush _ (by decide)) (hstep.sane h)
    · intro i j'
      rw [hc, slot_setBlkUsed, slot_setSlot]
      rfl
    · intro i hi
      rw [hc]
      simp [Meta.setBlkUsed, Meta.setSlot, Meta.setInode, Meta.setBlkOcp, hi]
    · rw [hc]
      simp [Meta.setBlkUsed, Meta.setSlot, Meta.setInode, Meta.setBlkOcp]
    · rw [hc]
      simp [Meta.setBlkUsed, Meta.setSlot, Meta.setInode, Meta.setBlkOcp]
    · intro c
      rw [hc]
      change Function.update w.cached.blkOcp b true c = _
      rw [Function.update_apply]
      by_cases hcb : c = b <;> simp [hcb]
    · intro x hx
      rw [World.obtained, if_pos hz, byte_flush _ _ (by decide), byte_acquire_off hx hk' hj' hf.1]
    · rw [World.obtained, if_pos hz, present_flush, present_acquire]
    · rw [World.obtained, if_pos hz]
      simp [World.acquire, World.markBlock, World.setCell, World.write, World.flush]
      split_ifs <;> rfl
    · rw [World.obtained, if_pos hz]
      simp [World.acquire, World.markBlock, World.setCell, World.write, World.flush]
      split_ifs <;> rfl
  · cases hb
    have hv := h.slot_valid hk hz
    have hc : (w.obtained k j (w.cached.slot k j)).cached = w.cached := by
      rw [World.obtained, if_neg hz, cached_flush _ (by decide)]
    have hacc : (w.flush inodePg).accesses = w.accesses ∧ (w.flush inodePg).followed = w.followed := by
      unfold World.flush
      split_ifs <;> exact ⟨rfl, rfl⟩
    refine ⟨?_, not_le.mp hj, hv.1, hv.2.1, ?_, fun i _ => by rw [hc], by rw [hc], by rw [hc],
      by rw [hc], by rw [hc], by rw [hc], fun _ => hc, ?_, Or.inl rfl, ?_, ?_, ?_, ?_⟩
    · rw [World.obtained, if_neg hz]
      exact Step.sane (S := Scope.all) (.flush _ (by decide)) h
    · intro i j'
      rw [hc]
      split_ifs with he
      · rw [he.1, he.2]
      · rfl
    · intro c
      rw [hc]
      by_cases hcb : c = w.cached.slot k j
      · simp [hcb, hv.2.2]
      · simp [hcb]
    · intro x _
      rw [World.obtained, if_neg hz, byte_flush _ _ (by decide)]
    · rw [World.obtained, if_neg hz, present_flush]
    · rw [World.obtained, if_neg hz]
      exact hacc.1
    · rw [World.obtained, if_neg hz]
      exact hacc.2

omit hk in
theorem firstFree_isSome_iff : w.firstFree.isSome = true ↔
    ∃ b < w.cached.blkNum, w.cached.blkOcp b = false := by
  rw [World.firstFree, List.find?_isSome]
  simp only [List.mem_range, blkNum_cached]
  constructor
  · rintro ⟨b, hb, hf⟩
    exact ⟨b, hb, ((blockIsFree_iff w (lt_of_lt_of_le hb h.owned.blkNum_le)).mp hf).2⟩
  · rintro ⟨b, hb, hf⟩
    exact ⟨b, hb, (blockIsFree_iff w (lt_of_lt_of_le hb h.owned.blkNum_le)).mpr ⟨hb, hf⟩⟩

omit hk in
/-- A block can be obtained exactly when the slot is filled or some block is free. -/
theorem obtain_isSome_iff {j : Nat} : (w.obtain k j).isSome = true ↔ j < NDIRECT ∧
    (w.cached.slot k j ≠ 0 ∨ ∃ b < w.cached.blkNum, w.cached.blkOcp b = false) := by
  have hfree := firstFree_isSome_iff h
  unfold World.obtain
  split_ifs with hj hz
  · simp [hj]
  · simp [hfree, hz, not_le.mp hj]
  · simp [hz, not_le.mp hj]

end Obtain

end DamnOS.FileSystem
