import DamnOS.FileSystem.Crash

/-!
# Setting the size, exactly

For a mapped directory entry outside the metadata blocks, `file_set_size` is an explicit change of
the state: the slots of the cut-off range are emptied one after another, the size is stored, and
the block of the entry is written back.
-/

namespace DamnOS.FileSystem

open DamnOS.Framework

/-- Some absent pages of the disk map were read in. -/
inductive Loads : World → World → Prop
  | refl (w : World) : Loads w w
  | step {w v : World} (p : Nat) : Loads w v → superPg ≤ p → v.present p = false → Loads w (v.load p)

namespace Loads

variable {w v u : World}

theorem trans (h : Loads w v) (k : Loads v u) : Loads w u := by
  induction k with
  | refl => exact h
  | step p _ hlo hn ih => exact ih.step p hlo hn

instance : IsPreorder World Loads where
  refl := Loads.refl
  trans _ _ _ := trans

theorem quiet (h : Loads w v) : Quiet w v := by
  induction h with
  | refl => exact refl_of Quiet w
  | step p _ hlo hn ih => exact trans_of Quiet ih (quiet_load _ hlo hn)

theorem accesses (h : Loads w v) : v.accesses = w.accesses := by
  induction h with
  | refl => rfl
  | step p _ _ _ ih => exact ih

theorem followed (h : Loads w v) : v.followed = w.followed := by
  induction h with
  | refl => rfl
  | step p _ _ _ ih => exact ih

theorem dirty (h : Loads w v) {p : Nat} (hp : w.dirty p = false) : v.dirty p = false := by
  induction h with
  | refl => exact hp
  | step q _ _ _ ih =>
    by_cases hq : p = q
    · simp [World.load, hq]
    · simpa [World.load, hq] using ih

theorem coherent (h : Loads w v) (hw : Coherent w) : Coherent v := by
  induction h with
  | refl => exact hw
  | step p _ _ _ ih => exact coherent_load ih p

theorem sane (h : Loads w v) {N : Nat} (hw : Sane N w) : Sane N v :=
  hw.of_cached ⟨h.quiet.present _ hw.ready.super, h.quiet.present _ hw.ready.inode⟩ h.quiet.cached

end Loads

instance loads_touchPage (p : Nat) : Keeps Loads (touchPage p) where
  final w := by
    rcases touchPage_cases w p with ⟨e, hr⟩ | ⟨hp, hr⟩ | ⟨hp, hlo, hr | ⟨e, hr⟩⟩
    · rw [final_error hr]
      exact .refl w
    · rw [final_ok hr]
      exact .refl w
    · rw [final_ok hr]
      exact (Loads.refl w).step p hlo hp
    · rw [final_error hr]
      exact (Loads.refl w).step p hlo hp

instance loads_touch (a n : Nat) : Keeps Loads (touch a n) := by
  unfold touch
  infer_instance

private theorem forM_touch_ok {l : List Nat} {w v : World}
    (h : (l.forM touchPage : M Unit) w = .ok () v) : ∀ p ∈ l, v.present p = true := by
  induction l generalizing w with
  | nil => simp
  | cons p l ih =>
    obtain ⟨_, t, ht, hrest⟩ := bind_eq_ok h
    intro q hq
    rcases List.mem_cons.mp hq with rfl | hq
    · have hp : t.present q = true := by
        rcases touchPage_cases w q with ⟨e, hr⟩ | ⟨hp, hr⟩ | ⟨_, _, hr | ⟨e, hr⟩⟩ <;> rw [hr] at ht
        · cases ht
        · cases ht
          exact hp
        · cases ht
          simp [World.load]
        · cases ht
      have hquiet : Quiet t v := Keeps.of_ok hrest
      exact hquiet.present q hp
    · exact ih hrest q hq

theorem touch_ok {a n : Nat} {w v : World} (h : touch a n w = .ok () v) :
    Loads w v ∧ ∀ p ∈ pagesOf a n, v.present p = true := by
  have hl := (loads_touch a n).final w
  rw [final_ok h] at hl
  exact ⟨hl, forM_touch_ok h⟩

private theorem forM_touch_cases (l : List Nat) (w : World) :
    (∃ v, (l.forM touchPage : M Unit) w = .ok () v) ∨
      ∃ e v, (l.forM touchPage : M Unit) w = .error (.panic e) v := by
  induction l generalizing w with
  | nil => exact Or.inl ⟨w, rfl⟩
  | cons p l ih =>
    have hstop {e : Panic} {v : World} (h : touchPage p w = .error (.panic e) v) :
        ∃ e v, ((p :: l).forM touchPage : M Unit) w = .error (.panic e) v := ⟨e, v, bind_error h⟩
    have hgo {v : World} (h : touchPage p w = .ok () v) :
        ((p :: l).forM touchPage : M Unit) w = (l.forM touchPage : M Unit) v := bind_ok h
    rcases touchPage_cases w p with ⟨e, hr⟩ | ⟨_, hr⟩ | ⟨_, _, hr | ⟨e, hr⟩⟩
    · exact Or.inr (hstop hr)
    · rw [hgo hr]
      exact ih w
    · rw [hgo hr]
      exact ih _
    · exact Or.inr (hstop hr)

theorem touch_cases (a n : Nat) (w : World) :
    (∃ v, touch a n w = .ok () v ∧ Loads w v ∧ ∀ p ∈ pagesOf a n, v.present p = true) ∨
      ∃ e v, touch a n w = .error (.panic e) v ∧ Loads w v := by
  rcases forM_touch_cases (pagesOf a n) w with ⟨v, hv⟩ | ⟨e, v, hv⟩
  · exact Or.inl ⟨v, hv, touch_ok hv⟩
  · exact Or.inr ⟨e, v, hv, Keeps.of_error (m := touch a n) hv⟩

/-- The inode number of `f` can be read without a fault. -/
def EntryMapped (f : Nat) (w : World) : Prop :=
  ∀ p ∈ pagesOf (f + offInInd) 2, w.present p = true

theorem inodeOf_run {f : Nat} {w : World} (h : EntryMapped f w) :
    inodeOf f w = .ok (inodeVa (w.inInd f)) (w.follow (w.inInd f)) := by
  rw [inodeOf, bind_ok (load16_present h)]
  rfl

/-- A call that begins by following `f` starts as well from a state where `f` is mapped. -/
theorem inodeOf_mapped {f a : Nat} {w u : World} (h : inodeOf f w = .ok a u) :
    ∃ t, Loads w t ∧ EntryMapped f t ∧ inodeOf f t = .ok a u := by
  obtain ⟨k, t, hload, hrest⟩ := bind_eq_ok h
  obtain ⟨_, t', htouch, hget⟩ := bind_eq_ok hload
  obtain ⟨hl, hp⟩ := touch_ok htouch
  have ht : k = t'.cell (f + offInInd) ∧ t = t' := by
    rw [bind_ok (get_run t')] at hget
    cases hget
    exact ⟨rfl, rfl⟩
  obtain ⟨rfl, rfl⟩ := ht
  refine ⟨t, hl, hp, ?_⟩
  rw [inodeOf, bind_ok (load16_present hp)]
  exact hrest

/-- Addresses outside the two metadata blocks. -/
def OffMeta (x : Nat) : Prop := x < DISKMAP ∨ blockVa 2 ≤ x

section OffMeta

variable {w : World} {x : Nat} (hx : OffMeta x)
include hx

theorem byte_setCell_off {i o : Nat} (hi : i < MAXINODENUM) (ho : o + 2 ≤ INSIZE) (v : Nat) :
    (w.setCell (inodeVa i + o) v).byte x = w.byte x := by
  refine byte_write_outside _ _ _ _ ?_
  simp only [OffMeta, inodeVa, blockVa, DISKMAP, BLKSIZE, INSIZE, MAXINODENUM] at *
  omega

private theorem byte_bitmap_off {o v : Nat} (ho : o + 4 ≤ BLKSIZE) :
    ((w.write (super + o) 4 (leByte v)).flush superPg).byte x = w.byte x := by
  rw [byte_flush _ _ le_rfl]
  refine byte_write_outside _ _ _ _ ?_
  simp only [OffMeta, super, blockVa, DISKMAP, BLKSIZE] at *
  omega

private theorem byte_markBlock_off {b : Nat} (hb : b < MAXBLKNUM) :
    (w.markBlock b).byte x = w.byte x := by
  have hb' : b < 4096 := hb
  rw [World.markBlock, Nat.add_assoc]
  exact byte_bitmap_off hx (by simp only [offBlkOcp, BLKSIZE]; omega)

private theorem byte_unmarkBlock_off {b : Nat} (hb : b < MAXBLKNUM) :
    (w.unmarkBlock b).byte x = w.byte x := by
  have hb' : b < 4096 := hb
  rw [World.unmarkBlock, Nat.add_assoc]
  exact byte_bitmap_off hx (by simp only [offBlkOcp, BLKSIZE]; omega)

theorem byte_markInode_off {k : Nat} (hk : k < MAXINODENUM) : (w.markInode k).byte x = w.byte x := by
  have hk' : k < 128 := hk
  rw [World.markInode, Nat.add_assoc]
  exact byte_bitmap_off hx (by simp only [offInOcp, BLKSIZE]; omega)

theorem byte_unmarkInode_off {k : Nat} (hk : k < MAXINODENUM) :
    (w.unmarkInode k).byte x = w.byte x := by
  have hk' : k < 128 := hk
  rw [World.unmarkInode, Nat.add_assoc]
  exact byte_bitmap_off hx (by simp only [offInOcp, BLKSIZE]; omega)

private theorem byte_slot_off {i j : Nat} (hi : i < MAXINODENUM) (hj : j < NDIRECT) (v : Nat) :
    (w.setCell (inodeVa i + offBlkInd + 2 * j) v).byte x = w.byte x := by
  have hj' : j < 13 := hj
  rw [Nat.add_assoc]
  exact byte_setCell_off hx hi (by simp only [offBlkInd, INSIZE]; omega) v

theorem byte_acquire_off {i j b : Nat} (hi : i < MAXINODENUM) (hj : j < NDIRECT)
    (hb : b < MAXBLKNUM) : (w.acquire i j b).byte x = w.byte x := by
  rw [World.acquire, byte_setCell_off hx hi (by decide), byte_slot_off hx hi hj,
    byte_markBlock_off hx hb]

private theorem byte_release_off {i j : Nat} (hi : i < MAXINODENUM) (hj : j < NDIRECT)
    (hb : w.cached.slot i j < MAXBLKNUM) : (w.release i j).byte x = w.byte x := by
  rw [World.release, byte_slot_off hx hi hj, byte_unmarkBlock_off hx hb]

end OffMeta

theorem inInd_of_off {w v : World} {f : Nat} (hf : ∀ x, f ≤ x → x < f + DIRESIZE → OffMeta x)
    (h : ∀ x, OffMeta x → v.byte x = w.byte x) : v.inInd f = w.inInd f := by
  refine u16_congr (h _ (hf _ (by omega) ?_)) (h _ (hf _ (by omega) ?_)) <;>
    simp only [offInInd, DIRESIZE] <;> omega

/-- One round of the loop of `file_truncate_blocks`. -/
def World.cut (w : World) (k j : Nat) : World :=
  if w.cached.slot k j = 0 then w.follow k else (w.follow k).release k j

def World.cutAll (w : World) (k : Nat) (js : List Nat) : World :=
  js.foldl (fun w j => w.cut k j) w

def Meta.cut (m : Meta) (k j : Nat) : Meta :=
  if m.slot k j = 0 then m else (m.setBlkOcp (m.slot k j) false).setSlot k j 0

def Meta.cutAll (m : Meta) (k : Nat) (js : List Nat) : Meta := js.foldl (fun m j => m.cut k j) m

private theorem present_cut (w : World) (k j : Nat) : (w.cut k j).present = w.present := by
  unfold World.cut
  split_ifs
  · rfl
  · exact present_release _ _ _

private theorem disk_cut (w : World) (k j : Nat) {b : Nat} (hb : b ≠ 0) :
    (w.cut k j).disk b = w.disk b := by
  unfold World.cut
  split_ifs
  · rfl
  · exact disk_flush_of_ne _ fun _ => hb

private theorem accesses_cut (w : World) (k j : Nat) : (w.cut k j).accesses = w.accesses := by
  unfold World.cut World.release World.unmarkBlock World.setCell World.flush
  split_ifs <;> rfl

private theorem slot_lt_ndirect {w : World} {k j : Nat} (hz : w.cached.slot k j ≠ 0) : j < NDIRECT := by
  by_contra hj
  exact hz (slot_ge w k (not_lt.mp hj))

private theorem cut_step {N : Nat} (w : World) {k : Nat} (hk : k < N) (j : Nat) :
    Relation.ReflTransGen (Step Scope.all N) w (w.cut k j) := by
  unfold World.cut
  split_ifs with hz
  · exact .single (.follow k)
  · exact .tail (.single (.follow k)) (.release k j trivial trivial hk (slot_lt_ndirect hz) hz)

section Cut

variable {N : Nat} {w : World} (h : Sane N w) {k : Nat} (hk : k < N)
include h hk

private theorem cached_cut (j : Nat) : (w.cut k j).cached = w.cached.cut k j := by
  unfold World.cut Meta.cut
  split_ifs with hz
  · exact cached_of_byte rfl
  · exact cached_release (w := w.follow k) (h.ready.of_present rfl) (h.lt hk) (slot_lt_ndirect hz)
      (h.slot_lt hk hz)

private theorem sane_cut (j : Nat) : Sane N (w.cut k j) :=
  ((anySetting N).run_lasting (fun _ _ _ => trivial) (cut_step w hk j) h trivial).1

private theorem byte_cut (j : Nat) {x : Nat} (hx : OffMeta x) : (w.cut k j).byte x = w.byte x := by
  unfold World.cut
  split_ifs with hz
  · rfl
  · exact byte_release_off hx (h.lt hk) (slot_lt_ndirect hz) (h.slot_lt hk hz)

private theorem cutAll_induct {P : World → Prop} (hP : ∀ v j, Sane N v → P v → P (v.cut k j))
    (hw : P w) (js : List Nat) : Sane N (w.cutAll k js) ∧ P (w.cutAll k js) := by
  induction js generalizing w with
  | nil => exact ⟨h, hw⟩
  | cons j js ih => exact ih (sane_cut h hk j) (hP w j h hw)

private theorem cached_cutAll (js : List Nat) : (w.cutAll k js).cached = w.cached.cutAll k js := by
  induction js generalizing w with
  | nil => rfl
  | cons j js ih =>
    change ((w.cut k j).cutAll k js).cached = (w.cached.cut k j).cutAll k js
    rw [ih (sane_cut h hk j), cached_cut h hk j]

private theorem byte_cutAll (js : List Nat) {x : Nat} (hx : OffMeta x) :
    (w.cutAll k js).byte x = w.byte x :=
  (cutAll_induct h hk (P := fun v => v.byte x = w.byte x)
    (fun _ j hv hb => (byte_cut hv hk j hx).trans hb) rfl js).2

end Cut

@[simp] theorem present_cutAll (w : World) (k : Nat) (js : List Nat) :
    (w.cutAll k js).present = w.present := by
  induction js generalizing w with
  | nil => rfl
  | cons j js ih => exact (ih _).trans (present_cut w k j)

private theorem disk_cutAll (w : World) (k : Nat) (js : List Nat) {b : Nat} (hb : b ≠ 0) :
    (w.cutAll k js).disk b = w.disk b := by
  induction js generalizing w with
  | nil => rfl
  | cons j js ih => exact (ih _).trans (disk_cut w k j hb)

private theorem accesses_cutAll (w : World) (k : Nat) (js : List Nat) :
    (w.cutAll k js).accesses = w.accesses := by
  induction js generalizing w with
  | nil => rfl
  | cons j js ih => exact (ih _).trans (accesses_cut w k j)

private theorem inode_cut (m : Meta) (k j i : Nat) : (m.cut k j).inode i = if i = k then
    { m.inode k with blkInd := Function.update (m.inode k).blkInd j 0 } else m.inode i := by
  by_cases hi : i = k
  · subst hi
    rw [if_pos rfl]
    unfold Meta.cut
    split_ifs with hz
    · have hsame : Function.update (m.inode i).blkInd j 0 = (m.inode i).blkInd := by
        rw [Function.update_eq_self_iff]
        exact hz.symm
      rw [hsame]
    · simp [Meta.setSlot, Meta.setInode, Meta.setBlkOcp]
  · rw [if_neg hi]
    unfold Meta.cut
    split_ifs
    · rfl
    · simp [Meta.setSlot, Meta.setInode, Meta.setBlkOcp, hi]

/-- The cut inode loses the slots of the range; the other inodes stay. -/
theorem inode_cutAll (m : Meta) (k : Nat) (js : List Nat) (i : Nat) :
    (m.cutAll k js).inode i = if i = k then
      { m.inode k with blkInd := fun j => if j ∈ js then 0 else (m.inode k).blkInd j }
    else m.inode i := by
  induction js generalizing m with
  | nil => split_ifs with hi <;> simp [Meta.cutAll, hi]
  | cons j js ih =>
    change ((m.cut k j).cutAll k js).inode i = _
    rw [ih, inode_cut, inode_cut, if_pos rfl]
    by_cases hi : i = k
    · rw [if_pos hi, if_pos hi]
      apply Inode.ext'
      · rfl
      · rfl
      · rfl
      · intro j'
        by_cases hj : j' = j
        · simp [hj]
        · simp [hj]
    · rw [if_neg hi, if_neg hi, if_neg hi]

/-- The slots that `file_set_size(f, newsize)` empties. -/
def cutRange (size : Nat) (newsize : Int) : List Nat :=
  if newsize < (size : Int) then List.range' (nblocks newsize) (nblocks size - nblocks newsize)
  else []

/-- The state after the truncation in `file_set_size`. -/
def World.truncated (w : World) (k : Nat) (newsize : Int) : World :=
  if newsize < ((w.cached.inode k).size : Int) then
    ((w.follow k).follow k).cutAll k (cutRange (w.cached.inode k).size newsize)
  else w.follow k

section Run

variable {N : Nat} {w : World} (h : Sane N w) {f : Nat} (hk : w.inInd f < N)
  (hm : EntryMapped f w) (hf : ∀ x, f ≤ x → x < f + DIRESIZE → OffMeta x)
include h hk hm

private theorem freeRound_run (j : Nat) :
    (do
      let _ ← attempt (fileFreeBlock f j)
      pure () : M Unit) w = .ok () (w.cut (w.inInd f) j) := by
  have hin := inodeOf_run hm
  have hready : Ready (w.follow (w.inInd f)) := h.ready.of_present rfl
  have hcached : (w.follow (w.inInd f)).cached = w.cached := cached_of_byte rfl
  rcases Nat.lt_or_ge j NDIRECT with hj | hj
  · have hrun : fileFreeBlock f j w = .ok () (w.cut (w.inInd f) j) := by
      rw [fileFreeBlock_slot f hj, bind_ok hin]
      unfold World.cut
      split_ifs with hz
      · exact freeSlot_empty hready (h.lt hk) hj (by rwa [hcached])
      · refine freeSlot_filled hready (h.lt hk) hj (by rwa [hcached]) ?_
        rw [hcached]
        exact h.slot_lt hk hz
    exact bind_ok (attempt_ok hrun)
  · have hrun : fileFreeBlock f j w = .error (.err .inval) (w.cut (w.inInd f) j) := by
      rw [fileFreeBlock_beyond f hj, bind_ok hin]
      unfold World.cut
      rw [if_pos (slot_ge w _ hj)]
      rfl
    exact bind_ok (attempt_err hrun)

include hf

private theorem truncateLoop_run (js : List Nat) :
    (js.forM fun j => do
      let _ ← attempt (fileFreeBlock f j)
      pure () : M Unit) w = .ok () (w.cutAll (w.inInd f) js) := by
  induction js generalizing w with
  | nil => rfl
  | cons j js ih =>
    have hin : (w.cut (w.inInd f) j).inInd f = w.inInd f :=
      inInd_of_off hf fun x hx => byte_cut h hk j hx
    have hm' : EntryMapped f (w.cut (w.inInd f) j) := fun p hp => by
      rw [present_cut]
      exact hm p hp
    have hrest := ih (sane_cut h hk j) (by rwa [hin]) hm'
    rw [hin] at hrest
    exact (bind_ok (freeRound_run h hk hm j)).trans hrest

private theorem fileTruncateBlocks_run {newsize : Int}
    (hlt : newsize < ((w.cached.inode (w.inInd f)).size : Int)) :
    fileTruncateBlocks f newsize w = .ok () ((w.follow (w.inInd f)).cutAll (w.inInd f)
      (cutRange (w.cached.inode (w.inInd f)).size newsize)) := by
  have hs : Sane N (w.follow (w.inInd f)) := h.of_cached (h.ready.of_present rfl) (cached_of_byte rfl)
  rw [fileTruncateBlocks, bind_ok (inodeOf_run hm), bind_ok (load16_size hs.ready (hs.lt hk)),
    cutRange, if_pos hlt]
  exact truncateLoop_run hs hk hm hf _

omit hm hf in
theorem sane_truncated (newsize : Int) : Sane N (w.truncated (w.inInd f) newsize) := by
  have hs : Sane N (w.follow (w.inInd f)) := h.of_cached (h.ready.of_present rfl) (cached_of_byte rfl)
  have hs' : Sane N ((w.follow (w.inInd f)).follow (w.inInd f)) :=
    h.of_cached (h.ready.of_present rfl) (cached_of_byte rfl)
  unfold World.truncated
  split_ifs
  · exact (cutAll_induct hs' hk (P := fun _ => True) (fun _ _ _ _ => trivial) trivial _).1
  · exact hs

theorem fileSetSize_steps (newsize : Int) : fileSetSize f newsize w =
    flushBlock f ((w.truncated (w.inInd f) newsize).setCell (inodeVa (w.inInd f) + offSize)
      (toU16 newsize)) := by
  have hs : Sane N (w.follow (w.inInd f)) := h.of_cached (h.ready.of_present rfl) (cached_of_byte rfl)
  have hcached : (w.follow (w.inInd f)).cached = w.cached := cached_of_byte rfl
  have hcut : onlyIf (newsize < ((w.cached.inode (w.inInd f)).size : Int))
      (fileTruncateBlocks f newsize) (w.follow (w.inInd f)) =
        .ok () (w.truncated (w.inInd f) newsize) := by
    unfold onlyIf World.truncated
    split_ifs with hlt
    · exact fileTruncateBlocks_run hs hk hm hf hlt
    · rfl
  have hsize := load16_size hs.ready (hs.lt hk)
  rw [hcached] at hsize
  rw [fileSetSize, bind_ok (inodeOf_run hm), bind_ok hsize, bind_ok hcut]
  have hst := sane_truncated h hk newsize
  exact bind_ok (store16_field hst.ready (hst.lt hk) (by decide) _)

end Run

theorem cached_truncated {N : Nat} {w : World} (h : Sane N w) {k : Nat} (hk : k < N) (newsize : Int) :
    (w.truncated k newsize).cached =
      w.cached.cutAll k (cutRange (w.cached.inode k).size newsize) := by
  have hs : Sane N ((w.follow k).follow k) := h.of_cached (h.ready.of_present rfl) (cached_of_byte rfl)
  unfold World.truncated
  split_ifs with hlt
  · rw [cached_cutAll hs hk]
    rfl
  · rw [cutRange, if_neg hlt]
    rfl

private theorem byte_truncated {N : Nat} {w : World} (h : Sane N w) {k : Nat} (hk : k < N) (newsize : Int)
    {x : Nat} (hx : OffMeta x) : (w.truncated k newsize).byte x = w.byte x := by
  have hs : Sane N ((w.follow k).follow k) := h.of_cached (h.ready.of_present rfl) (cached_of_byte rfl)
  unfold World.truncated
  split_ifs
  · exact byte_cutAll hs hk _ hx
  · rfl

@[simp] theorem present_truncated (w : World) (k : Nat) (newsize : Int) :
    (w.truncated k newsize).present = w.present := by
  unfold World.truncated
  split_ifs
  · exact present_cutAll _ _ _
  · rfl

theorem disk_truncated (w : World) (k : Nat) (newsize : Int) {b : Nat} (hb : b ≠ 0) :
    (w.truncated k newsize).disk b = w.disk b := by
  unfold World.truncated
  split_ifs
  · exact disk_cutAll _ _ _ hb
  · rfl

private theorem accesses_truncated (w : World) (k : Nat) (newsize : Int) :
    (w.truncated k newsize).accesses = w.accesses := by
  unfold World.truncated
  split_ifs
  · exact accesses_cutAll _ _ _
  · rfl

theorem mem_cutRange {size : Nat} {newsize : Int} {j : Nat} : j ∈ cutRange size newsize ↔
    newsize < (size : Int) ∧ nblocks newsize ≤ j ∧ j < nblocks size := by
  unfold cutRange
  split_ifs with hlt
  · rw [List.mem_range'_1]
    omega
  · simp [hlt]

/-- The call finds nothing to free exactly when the slots of its range are empty. -/
theorem idle_iff {f : Nat} {newsize : Int} {w : World} : Idle f newsize w ↔
    ∀ j ∈ cutRange (w.cached.inode (w.inInd f)).size newsize, w.cached.slot (w.inInd f) j = 0 := by
  constructor
  · intro h j hj
    obtain ⟨hlt, hlo, hhi⟩ := mem_cutRange.mp hj
    exact h hlt j hlo hhi
  · intro h hlt j hlo hhi
    exact h j (mem_cutRange.mpr ⟨hlt, hlo, hhi⟩)

private theorem byte_cutAll_idle (w : World) (k : Nat) (js : List Nat)
    (h : ∀ j ∈ js, w.cached.slot k j = 0) : (w.cutAll k js).byte = w.byte := by
  induction js generalizing w with
  | nil => rfl
  | cons j js ih =>
    have hcut : w.cut k j = w.follow k := by
      rw [World.cut, if_pos (h j (by simp))]
    change ((w.cut k j).cutAll k js).byte = w.byte
    rw [hcut]
    exact ih _ fun j' hj' => h j' (by simp [hj'])

theorem byte_truncated_idle {f : Nat} {newsize : Int} {w : World} (h : Idle f newsize w) :
    (w.truncated (w.inInd f) newsize).byte = w.byte := by
  unfold World.truncated
  split_ifs
  · exact byte_cutAll_idle _ _ _ (idle_iff.mp h)
  · rfl

/-- The state after `file_set_size(f, newsize)`. -/
def World.resized (w : World) (f : Nat) (newsize : Int) : World :=
  ((w.truncated (w.inInd f) newsize).setCell (inodeVa (w.inInd f) + offSize) (toU16 newsize)).flush
    (f / PGSIZE)

/-- What setting the size of inode `k` does. -/
structure Resizes (N : Nat) (w : World) (k : Nat) (newsize : Int) (v : World) : Prop where
  sane : Sane N v
  cached : v.cached =
    (w.cached.cutAll k (cutRange (w.cached.inode k).size newsize)).setSize k (toU16 newsize)
  byte : ∀ x, OffMeta x → v.byte x = w.byte x
  present : v.present = w.present
  accesses : v.accesses = w.accesses

section Resized

variable {N : Nat} {w : World} (h : Sane N w) {f : Nat} (hk : w.inInd f < N)
  (hmap : DISKMAP ≤ f ∧ f < DISKMAP + DISKSIZE) (newsize : Int)
include h hk

theorem fileSetSize_panic (hm : EntryMapped f w) (hf : ∀ x, f ≤ x → x < f + DIRESIZE → OffMeta x)
    (hout : ¬(DISKMAP ≤ f ∧ f < DISKMAP + DISKSIZE)) :
    ∃ t, fileSetSize f newsize w = .error (.panic (.flushBadVa f)) t := by
  have hc : f < DISKMAP ∨ DISKMAP + DISKSIZE ≤ f := by omega
  rw [fileSetSize_steps h hk hm hf, flushBlock, if_pos hc]
  exact ⟨_, rfl⟩

include hmap

theorem fileSetSize_run (hm : EntryMapped f w) (hf : ∀ x, f ≤ x → x < f + DIRESIZE → OffMeta x) :
    fileSetSize f newsize w = .ok () (w.resized f newsize) := by
  have hc : ¬(f < DISKMAP ∨ DISKMAP + DISKSIZE ≤ f) := by omega
  rw [fileSetSize_steps h hk hm hf, flushBlock, if_neg hc]
  rfl

theorem resizes : Resizes N w (w.inInd f) newsize (w.resized f newsize) := by
  have hpg : superPg ≤ f / PGSIZE := by
    simp only [superPg, PGSIZE, DISKMAP] at *
    omega
  have hst := sane_truncated h hk newsize
  have hk' := h.lt hk
  have hmod : toU16 newsize % 65536 = toU16 newsize := Nat.mod_eq_of_lt (by unfold toU16; omega)
  have hstep : Step Scope.all N _ _ := .size (w := w.truncated (w.inInd f) newsize) (w.inInd f)
    (toU16 newsize) trivial hk
  constructor
  · exact Step.sane (S := Scope.all) (.flush _ hpg) (hstep.sane hst)
  · rw [World.resized, cached_flush _ hpg, World.setCell, cached_setSize hst.ready hk', hmod,
      cached_truncated h hk]
  · intro x hx
    rw [World.resized, byte_flush _ _ hpg, byte_setCell_off hx hk' (by decide), byte_truncated h hk _ hx]
  · simp [World.resized]
  · have ha := accesses_truncated w (w.inInd f) newsize
    unfold World.resized World.flush
    split_ifs <;> exact ha

end Resized

theorem blkNum_cutAll (m : Meta) (k : Nat) (js : List Nat) : (m.cutAll k js).blkNum = m.blkNum := by
  induction js generalizing m with
  | nil => rfl
  | cons j js ih =>
    have hcut : (m.cut k j).blkNum = m.blkNum := by
      unfold Meta.cut
      split_ifs <;> rfl
    exact (ih _).trans hcut

theorem blkOcp_cutAll (m : Meta) (k : Nat) (js : List Nat) (b : Nat) :
    (m.cutAll k js).blkOcp b = false ↔ m.blkOcp b = false ∨ b ≠ 0 ∧ ∃ j ∈ js, m.slot k j = b := by
  induction js generalizing m with
  | nil => simp [Meta.cutAll]
  | cons j js ih =>
    change ((m.cut k j).cutAll k js).blkOcp b = false ↔ _
    have hslot (i : Nat) : (m.cut k j).slot k i = if i = j then 0 else m.slot k i := by
      rw [Meta.slot, inode_cut, if_pos rfl]
      by_cases hi : i = j <;> simp [hi, Meta.slot]
    have hocp : (m.cut k j).blkOcp b = false ↔ m.blkOcp b = false ∨ b ≠ 0 ∧ m.slot k j = b := by
      unfold Meta.cut
      by_cases hz : m.slot k j = 0
      · rw [if_pos hz, hz]
        simp only [ne_eq, iff_self_or, and_imp]
        exact fun hb he => absurd he.symm hb
      · rw [if_neg hz]
        change Function.update m.blkOcp (m.slot k j) false b = false ↔ _
        rw [Function.update_apply]
        by_cases hb : b = m.slot k j
        · simp [hb, hz]
        · simp [hb, Ne.symm hb]
    rw [ih, hocp]
    simp only [hslot, List.mem_cons, exists_eq_or_imp]
    constructor
    · rintro ((hb | ⟨h0, hj⟩) | ⟨h0, i, hi, he⟩)
      · exact Or.inl hb
      · exact Or.inr ⟨h0, Or.inl hj⟩
      · split_ifs at he with hij
        · exact absurd he.symm h0
        · exact Or.inr ⟨h0, Or.inr ⟨i, hi, he⟩⟩
    · rintro (hb | ⟨h0, hj | ⟨i, hi, he⟩⟩)
      · exact Or.inl (Or.inl hb)
      · exact Or.inl (Or.inr ⟨h0, hj⟩)
      · by_cases hij : i = j
        · exact Or.inl (Or.inr ⟨h0, hij ▸ he⟩)
        · exact Or.inr ⟨h0, i, hi, by rw [if_neg hij]; exact he⟩

theorem flushBlock_run {a : Nat} (h : DISKMAP ≤ a ∧ a < DISKMAP + DISKSIZE) (w : World) :
    flushBlock a w = .ok () (w.flush (a / PGSIZE)) := by
  rw [flushBlock, if_neg (by omega)]
  rfl

private theorem diskaddr_run {w : World} {b : Nat} (h : b < w.cached.blkNum) :
    diskaddr b w = .ok (blockVa b) w := by
  rw [diskaddr, bind_ok (get_run w), if_neg (by rw [blkNum_cached]; omega)]
  rfl

section FileFlush

variable {N : Nat} {k : Nat} (hk : k < N)
include hk

private theorem flushSlot_run {w : World} (h : Sane N w) (j : Nat) :
    ∃ v, flushSlot (inodeVa k) j w = .ok () v := by
  unfold flushSlot
  split_ifs with hj
  · rw [bind_ok (load16_slot h.ready (h.lt hk) hj)]
    split_ifs with hz
    · exact ⟨w, rfl⟩
    · have hv := h.slot_valid hk hz
      have hlt := h.slot_lt hk hz
      refine ⟨_, (bind_ok (diskaddr_run hv.2.1)).trans (flushBlock_run ?_ w)⟩
      simp only [blockVa, DISKMAP, DISKSIZE, BLKSIZE, MAXBLKNUM] at *
      omega
  · exact ⟨w, rfl⟩

private theorem flushSlots_run {w : World} (h : Sane N w) (js : List Nat) :
    ∃ v, (js.forM (flushSlot (inodeVa k)) : M Unit) w = .ok () v := by
  induction js generalizing w with
  | nil => exact ⟨w, rfl⟩
  | cons j js ih =>
    obtain ⟨t, ht⟩ := flushSlot_run hk h j
    have hq : Quiet w t := Keeps.of_ok ht
    obtain ⟨v, hv⟩ := ih (h.of_cached ⟨hq.present _ h.ready.super, hq.present _ h.ready.inode⟩
      hq.cached)
    exact ⟨v, (bind_ok ht).trans hv⟩

omit hk in
theorem fileFlush_run {w : World} (h : Sane N w) {f : Nat} (hk : w.inInd f < N)
    (hm : EntryMapped f w) (hmap : DISKMAP ≤ f ∧ f < DISKMAP + DISKSIZE) :
    ∃ v, fileFlush f w = .ok () v := by
  have hs : Sane N (w.follow (w.inInd f)) := h.of_cached (h.ready.of_present rfl) (cached_of_byte rfl)
  obtain ⟨t, ht⟩ := flushSlots_run hk hs
    (List.range (((w.cached.inode (w.inInd f)).size + BLKSIZE - 1) / BLKSIZE))
  have hsize := load16_size hs.ready (hs.lt hk)
  rw [show (w.follow (w.inInd f)).cached = w.cached from cached_of_byte rfl] at hsize
  rw [fileFlush, bind_ok (inodeOf_run hm), bind_ok hsize, bind_ok ht,
    bind_ok (flushBlock_inode t (h.lt hk))]
  exact ⟨_, flushBlock_run hmap _⟩

end FileFlush

end DamnOS.FileSystem
