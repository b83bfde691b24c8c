import DamnOS.FileSystem.ReadWrite

/-!
# Directories and paths

A directory whose slots `0 .. blk_used - 1` are filled is the list of its entries.  Scanning it
shows the first entry that passes the test and changes nothing, and `walk_path` follows a path
through such directories without a visible effect.
-/

namespace DamnOS.FileSystem

open DamnOS.Framework

namespace World

def IsDir (w : World) (i : Nat) : Prop := (w.cached.inode i).type = FTYPE_DIR

instance (w : World) (i : Nat) : Decidable (w.IsDir i) := inferInstanceAs (Decidable (_ = _))

/-- The entries in block `j` of inode `i`. -/
def blockEntries (w : World) (i j : Nat) : List Nat :=
  (List.range BLKFILES).map fun e => blockVa (w.cached.slot i j) + DIRESIZE * e

/-- The addresses of the entries of directory `i`, in the order in which they are scanned. -/
def entries (w : World) (i : Nat) : List Nat :=
  (List.range (w.cached.inode i).blkUsed).flatMap (w.blockEntries i)

/-- The entry that `dir_lookup` finds for `name`. -/
def lookup (w : World) (i : Nat) (name : List UInt8) : Option Nat :=
  (w.entries i).find? fun e => nameMatches w e name

/-- The entry without a name that `dir_alloc_entry` finds. -/
def vacant (w : World) (i : Nat) : Option Nat := (w.entries i).find? fun e => w.byte e == 0

/-- `walk_path` from inode `i` on, as a function of the directories. -/
def resolveFrom (w : World) : Nat → List UInt8 → Nat → Nat → Nat → Except Err Walk
  | 0, _, _, _, _ => .error .notFound
  | fuel + 1, path, i, dir, entry =>
    if path = [] then .ok (.found dir entry)
    else if MAXNAMELEN ≤ (path.takeWhile (· != slash)).length then .error .badPath
    else if w.IsDir i then
      match w.lookup i (path.takeWhile (· != slash)) with
      | none => if skipSlash (path.dropWhile (· != slash)) = []
          then .ok (.missing (inodeVa i) (path.takeWhile (· != slash))) else .error .notFound
      | some e =>
        resolveFrom w fuel (skipSlash (path.dropWhile (· != slash))) (w.inInd e) (inodeVa i) e
    else .error .notFound

def resolve (w : World) (path : List UInt8) : Except Err Walk :=
  if path.head? = some slash then
    w.resolveFrom ((skipSlash path).length + 1) (skipSlash path) 0 0 0
  else .error .badPath

end World

section Congr

variable {w v : World} (h : v.byte = w.byte)
include h

theorem nameMatches_of_byte (a : Nat) (name : List UInt8) :
    nameMatches v a name = nameMatches w a name := by
  induction name generalizing a with
  | nil => rw [nameMatches, nameMatches, h]
  | cons c cs ih => rw [nameMatches, nameMatches, h, ih]

theorem entries_of_byte (i : Nat) : v.entries i = w.entries i := by
  have hb : v.blockEntries i = w.blockEntries i := by
    funext j
    rw [World.blockEntries, World.blockEntries, cached_of_byte h]
  rw [World.entries, World.entries, hb, cached_of_byte h]

end Congr

private theorem resolveFrom_of_byte {w v : World} (h : v.byte = w.byte) (fuel : Nat) (path : List UInt8)
    (i dir entry : Nat) : v.resolveFrom fuel path i dir entry = w.resolveFrom fuel path i dir entry := by
  have hl : v.lookup = w.lookup := by
    funext i name
    simp only [World.lookup, entries_of_byte h, nameMatches_of_byte h]
  have hn : v.inInd = w.inInd := by
    funext e
    rw [World.inInd, World.inInd, World.cell, World.cell, h]
  have hd : v.IsDir = w.IsDir := by
    funext i
    rw [World.IsDir, World.IsDir, cached_of_byte h]
  induction fuel generalizing path i dir entry with
  | zero => rfl
  | succ fuel ih => simp only [World.resolveFrom, hl, hn, hd, ih]

theorem mem_entries {w : World} {i e : Nat} : e ∈ w.entries i ↔
    ∃ j < (w.cached.inode i).blkUsed, ∃ s < BLKFILES, e = blockVa (w.cached.slot i j) + DIRESIZE * s := by
  simp only [World.entries, World.blockEntries, List.mem_flatMap, List.mem_range, List.mem_map]
  constructor
  · rintro ⟨j, hj, s, hs, rfl⟩
    exact ⟨j, hj, s, hs, rfl⟩
  · rintro ⟨j, hj, s, hs, rfl⟩
    exact ⟨j, hj, s, hs, rfl⟩

theorem Quiet.ready {w v : World} (h : Quiet w v) (hw : Ready w) : Ready v :=
  ⟨h.present _ hw.super, h.present _ hw.inode⟩

theorem Quiet.sane {N : Nat} {w v : World} (h : Quiet w v) (hw : Sane N w) : Sane N v :=
  hw.of_cached (h.ready hw.ready) h.cached

/-- Slot `j` of inode `i` holds a block of the disk that is in use. -/
def Meta.Holds (m : Meta) (i j : Nat) : Prop :=
  m.slot i j ≠ 0 ∧ m.slot i j < m.blkNum ∧ m.blkOcp (m.slot i j) = true

theorem Sane.holds {N : Nat} {w : World} (h : Sane N w) {i j : Nat} (hi : i < N)
    (hz : w.cached.slot i j ≠ 0) : w.cached.Holds i j :=
  ⟨hz, (h.slot_valid hi hz).2⟩

private theorem lt_of_blkOcp {w : World} {b : Nat} (h : w.cached.blkOcp b = true) : b < MAXBLKNUM := by
  have hb : (decide (b < MAXBLKNUM) && _) = true := h
  rw [Bool.and_eq_true, decide_eq_true_eq] at hb
  exact hb.1

section Scan

variable {w : World} (h : Ready w) {i : Nat} (hi : i < MAXINODENUM)
include h hi

/-- A scan over filled slots gives the first entry that passes the test, and maps it. -/
theorem dirScan_run (test : World → Nat → Bool) (htest : ∀ w v : World, v.byte = w.byte → test v = test w)
    (n a : Nat) (hfill : ∀ j, a ≤ j → j < a + n → w.cached.Holds i j) : ∃ v,
      dirScan (inodeVa i) test a n w =
        .ok (((List.range' a n).flatMap (w.blockEntries i)).find? (test w)) v ∧ Quiet w v ∧
      ∀ e, ((List.range' a n).flatMap (w.blockEntries i)).find? (test w) = some e →
        ∀ p ∈ pagesOf e DIRESIZE, v.present p = true := by
  induction n generalizing a w with
  | zero => exact ⟨w, rfl, refl_of Quiet w, fun e he => by simp at he⟩
  | succ n ih =>
    obtain ⟨hz, hlt, hocp⟩ := hfill a le_rfl (by omega)
    have hj : a < NDIRECT := by
      by_contra hj
      exact hz (slot_ge w i (not_lt.mp hj))
    have hget := fileGetBlock_filled h hi hj hz hlt
    have hq := quiet_flush w (p := inodePg) (by decide)
    obtain ⟨t, ht⟩ := touch_marked (w := w.flush inodePg) (b := w.cached.slot i a)
      (a := blockVa (w.cached.slot i a)) (n := BLKFILES * DIRESIZE)
      (by rw [hq.cached]; exact hlt) (lt_of_blkOcp hocp) (by rw [hq.cached]; exact hocp) le_rfl
      (Nat.add_le_add_left (by decide) _)
    obtain ⟨hl, hpages⟩ := touch_ok ht
    have hwt : Quiet w t := trans_of Quiet hq hl.quiet
    have hcons : (List.range' a (n + 1)).flatMap (w.blockEntries i) =
        w.blockEntries i a ++ (List.range' (a + 1) n).flatMap (w.blockEntries i) := by
      rw [List.range'_succ, List.flatMap_cons]
    rw [dirScan, bind_ok hget, bind_ok ht, bind_ok (get_run t), hcons, List.find?_append,
      World.blockEntries, List.find?_map, htest w t hwt.byte]
    cases hfind : (List.range BLKFILES).find?
        (fun j => test w (blockVa (w.cached.slot i a) + DIRESIZE * j)) with
    | some s =>
      refine ⟨t, ?_, hwt, ?_⟩
      · simp only [Function.comp_def, hfind]
        rfl
      · intro e he
        simp only [Function.comp_def, hfind, Option.map_some, Option.some_or, Option.some.injEq] at he
        subst he
        have hs := List.mem_range.mp (List.mem_of_find?_eq_some hfind)
        refine fun p hp => hpages p (pagesOf_subset (Nat.le_add_right _ _) ?_ p hp)
        simp only [DIRESIZE, BLKFILES] at *
        omega
    | none =>
      obtain ⟨v, hv, hqv, hpv⟩ := ih (hwt.ready h) (a + 1) fun j hlo hhi => by
        rw [hwt.cached]
        exact hfill j (by omega) (by omega)
      have hb : t.blockEntries i = w.blockEntries i := by
        funext j
        rw [World.blockEntries, World.blockEntries, hwt.cached]
      rw [hb, htest w t hwt.byte] at hv hpv
      refine ⟨v, ?_, trans_of Quiet hwt hqv, ?_⟩
      · simp only [Function.comp_def, hfind, Option.map_none, Option.none_or]
        exact hv
      · simp only [Function.comp_def, hfind, Option.map_none, Option.none_or]
        exact hpv

end Scan

/-- What walks rely on: directories have their slots filled, and named entries lead to inodes of the
table. -/
structure Walkable (N : Nat) (w : World) : Prop where
  ready : Ready w
  small : N ≤ MAXINODENUM
  pos : 0 < N
  filled : ∀ i j, i < N → w.IsDir i → j < (w.cached.inode i).blkUsed → w.cached.Holds i j
  named : ∀ i e, i < N → w.IsDir i → e ∈ w.entries i → w.byte e ≠ 0 → w.inInd e < N

/-- What creation relies on: blocks are owned properly, and unused inodes are empty. -/
structure Tidy (N : Nat) (w : World) : Prop where
  sane : Sane N w
  filled : ∀ i j, i < N → w.IsDir i → j < (w.cached.inode i).blkUsed → w.cached.slot i j ≠ 0
  named : ∀ i e, i < N → w.IsDir i → e ∈ w.entries i → w.byte e ≠ 0 → w.inInd e < N
  unused : ∀ i, i < N → w.cached.inOcp i = false →
    ¬w.IsDir i ∧ (w.cached.inode i).blkUsed = 0 ∧ ∀ j, w.cached.slot i j = 0

/-- What lookups rely on: directories have their slots filled, named entries lead to inodes in use,
and unused inodes are empty. -/
structure Orderly (N : Nat) (w : World) : Prop where
  sane : Sane N w
  root : w.IsDir 0 ∧ w.cached.inOcp 0 = true
  filled : ∀ i j, i < N → w.IsDir i → j < (w.cached.inode i).blkUsed → w.cached.slot i j ≠ 0
  named : ∀ i e, i < N → w.IsDir i → e ∈ w.entries i → w.byte e ≠ 0 →
    w.inInd e < N ∧ w.cached.inOcp (w.inInd e) = true
  unused : ∀ i, i < N → w.cached.inOcp i = false →
    ¬w.IsDir i ∧ (w.cached.inode i).blkUsed = 0 ∧ ∀ j, w.cached.slot i j = 0

/-- `Walkable` for the inodes in `D`: those that walks from the root can come to. -/
structure WalkableIn (D : Nat → Prop) (w : World) : Prop where
  ready : Ready w
  small : ∀ i, D i → i < MAXINODENUM
  root : D 0
  filled : ∀ i j, D i → w.IsDir i → j < (w.cached.inode i).blkUsed → w.cached.Holds i j
  named : ∀ i e, D i → w.IsDir i → e ∈ w.entries i → w.byte e ≠ 0 → D (w.inInd e)

/-- `Tidy` for the directories in `D`. -/
structure TidyIn (N : Nat) (D : Nat → Prop) (w : World) : Prop where
  sane : Sane N w
  lt : ∀ i, D i → i < N
  root : D 0
  filled : ∀ i j, D i → w.IsDir i → j < (w.cached.inode i).blkUsed → w.cached.slot i j ≠ 0
  named : ∀ i e, D i → w.IsDir i → e ∈ w.entries i → w.byte e ≠ 0 → D (w.inInd e)
  unused : ∀ i, i < N → w.cached.inOcp i = false →
    ¬w.IsDir i ∧ (w.cached.inode i).blkUsed = 0 ∧ ∀ j, w.cached.slot i j = 0

theorem Walkable.within {N : Nat} {w : World} (h : Walkable N w) : WalkableIn (· < N) w where
  ready := h.ready
  small _ hi := lt_of_lt_of_le hi h.small
  root := h.pos
  filled := h.filled
  named := h.named

theorem Tidy.within {N : Nat} {w : World} (h : Tidy N w) : TidyIn N (· < N) w where
  sane := h.sane
  lt _ hi := hi
  root := h.sane.pos
  filled := h.filled
  named := h.named
  unused := h.unused

theorem TidyIn.walkable {N : Nat} {D : Nat → Prop} {w : World} (h : TidyIn N D w) : WalkableIn D w where
  ready := h.sane.ready
  small i hi := h.sane.lt (h.lt i hi)
  root := h.root
  filled i j hi hd hj := h.sane.holds (h.lt i hi) (h.filled i j hi hd hj)
  named := h.named

theorem Orderly.tidy {N : Nat} {w : World} (h : Orderly N w) : Tidy N w where
  sane := h.sane
  filled := h.filled
  named i e hi hd he hb := (h.named i e hi hd he hb).1
  unused := h.unused

theorem Tidy.walkable {N : Nat} {w : World} (h : Tidy N w) : Walkable N w where
  ready := h.sane.ready
  small := h.sane.small
  pos := h.sane.pos
  filled i j hi hd hj := h.sane.holds hi (h.filled i j hi hd hj)
  named := h.named

theorem TidyIn.inUse {N : Nat} {D : Nat → Prop} {w : World} (h : TidyIn N D w) {i : Nat} (hi : i < N)
    (hd : w.IsDir i) : w.cached.inOcp i = true := by
  by_contra ho
  exact (h.unused i hi (by simpa using ho)).1 hd

theorem Quiet.inInd {w v : World} (h : Quiet w v) (f : Nat) : v.inInd f = w.inInd f := h.cell _

theorem Quiet.isDir {w v : World} (h : Quiet w v) (i : Nat) : v.IsDir i ↔ w.IsDir i := by
  rw [World.IsDir, World.IsDir, h.cached]

private theorem Quiet.walkableIn {D : Nat → Prop} {w v : World} (h : Quiet w v) (hw : WalkableIn D w) :
    WalkableIn D v where
  ready := h.ready hw.ready
  small := hw.small
  root := hw.root
  filled i j hi hd hj := by
    rw [h.isDir] at hd
    rw [h.cached] at hj ⊢
    exact hw.filled i j hi hd hj
  named i e hi hd he hb := by
    rw [h.isDir] at hd
    rw [entries_of_byte h.byte] at he
    rw [h.byte] at hb
    rw [h.inInd]
    exact hw.named i e hi hd he hb

theorem Walkable.entryIn {N : Nat} {w : World} (h : Walkable N w) {i : Nat} (hi : i < N) (hd : w.IsDir i)
    {e : Nat} (he : e ∈ w.entries i) : w.EntryIn i e := by
  obtain ⟨j, hj, s, hs, rfl⟩ := mem_entries.mp he
  exact ⟨j, s, (h.filled i j hi hd hj).1, hs, rfl⟩

private theorem WalkableIn.dirLookup_run {D : Nat → Prop} {w : World} (h : WalkableIn D w) {i : Nat} (hi : D i)
    (hd : w.IsDir i) (name : List UInt8) : ∃ v, dirLookup (inodeVa i) name w = .ok (w.lookup i name) v ∧
      Quiet w v ∧ ∀ e, w.lookup i name = some e → ∀ p ∈ pagesOf e DIRESIZE, v.present p = true := by
  have hscan := dirScan_run h.ready (h.small i hi) (fun w a => nameMatches w a name)
    (fun w v hb => funext fun a => nameMatches_of_byte hb a name) (w.cached.inode i).blkUsed 0
    fun j _ hj => h.filled i j hi hd (by omega)
  rw [← List.range_eq_range'] at hscan
  obtain ⟨v, hv, hq, hp⟩ := hscan
  exact ⟨v, (bind_ok (load16_blkUsed h.ready (h.small i hi))).trans hv, hq, hp⟩

theorem mapped_of_pages {w : World} {e : Nat} (h : ∀ p ∈ pagesOf e DIRESIZE, w.present p = true) :
    EntryMapped e w :=
  fun p hp => h p (pagesOf_subset (Nat.le_add_right _ _) (by simp only [offInInd, DIRESIZE]; omega) p hp)

theorem byte_ne_zero_of_matches {w : World} {e : Nat} {name : List UInt8} (h : nameMatches w e name = true)
    (hne : name ≠ []) (h0 : (0 : UInt8) ∉ name) : w.byte e ≠ 0 := by
  cases name with
  | nil => exact absurd rfl hne
  | cons c cs =>
    simp only [nameMatches, Bool.and_eq_true, beq_iff_eq] at h
    rw [h.1]
    rintro rfl
    exact h0 (by simp)

theorem head_skipSlash (path : List UInt8) : (skipSlash path).head? ≠ some slash := by
  induction path with
  | nil => simp [skipSlash]
  | cons c cs ih =>
    unfold skipSlash at *
    rw [List.dropWhile_cons]
    split_ifs with hc
    · exact ih
    · simpa using hc

theorem takeWhile_ne_nil {path : List UInt8} (hne : path ≠ []) (hh : path.head? ≠ some slash) :
    path.takeWhile (· != slash) ≠ [] := by
  cases path with
  | nil => exact absurd rfl hne
  | cons c cs =>
    have hc : (c != slash) = true := by simpa using hh
    simp [hc]

/-- The component of a path that is looked up next, and the rest, hold no NUL either. -/
theorem component_nul {path : List UInt8} (h0 : (0 : UInt8) ∉ path) :
    (0 : UInt8) ∉ path.takeWhile (· != slash) ∧
      (0 : UInt8) ∉ skipSlash (path.dropWhile (· != slash)) :=
  ⟨fun h => h0 ((List.takeWhile_sublist _).subset h),
    fun h => h0 ((List.dropWhile_sublist _).subset ((List.dropWhile_sublist _).subset h))⟩

/-- How a call ends that hands its error code on. -/
def outcome {α : Type} (r : Except Err α) (v : World) : EStateM.Result Exc World α :=
  match r with
  | .ok a => .ok a v
  | .error e => .error (.err e) v

private theorem walkLoop_run {D : Nat → Prop} {w : World} (h : WalkableIn D w) (fuel : Nat) {path : List UInt8}
    (h0 : (0 : UInt8) ∉ path) (hh : path.head? ≠ some slash) {i : Nat} (hi : D i) (dir entry : Nat) :
    ∃ v, Quiet w v ∧ walkLoop fuel path (inodeVa i) dir entry w =
      outcome (w.resolveFrom fuel path i dir entry) v := by
  induction fuel generalizing w path i dir entry with
  | zero => exact ⟨w, refl_of Quiet w, rfl⟩
  | succ fuel ih =>
    rw [walkLoop, World.resolveFrom]
    by_cases hnil : path = []
    · rw [if_pos hnil, if_pos hnil]
      exact ⟨w, refl_of Quiet w, rfl⟩
    rw [if_neg hnil, if_neg hnil]
    by_cases hlen : MAXNAMELEN ≤ (path.takeWhile (· != slash)).length
    · rw [if_pos hlen]
      simp only [if_pos hlen]
      exact ⟨w, refl_of Quiet w, rfl⟩
    rw [if_neg hlen]
    simp only [if_neg hlen]
    rw [bind_ok (load16_type h.ready (h.small i hi))]
    by_cases hd : w.IsDir i
    swap
    · have hd' : (w.cached.inode i).type ≠ FTYPE_DIR := hd
      rw [if_pos hd', if_neg hd]
      exact ⟨w, refl_of Quiet w, rfl⟩
    have hd' : ¬(w.cached.inode i).type ≠ FTYPE_DIR := fun hne => hne hd
    rw [if_neg hd', if_pos hd]
    obtain ⟨t, ht, hq, hp⟩ := h.dirLookup_run hi hd (path.takeWhile (· != slash))
    rw [bind_ok ht]
    cases hlook : w.lookup i (path.takeWhile (· != slash)) with
    | none =>
      dsimp only
      split_ifs
      · exact ⟨t, hq, rfl⟩
      · exact ⟨t, hq, rfl⟩
    | some e =>
      obtain ⟨hname, hrest⟩ := component_nul h0
      have hmem := List.mem_of_find?_eq_some hlook
      have hmatch := List.find?_some hlook
      have hbyte := byte_ne_zero_of_matches hmatch (takeWhile_ne_nil hnil hh) hname
      have hk := h.named i e hi hd hmem hbyte
      have hin := inodeOf_run (mapped_of_pages (hp e hlook))
      rw [hq.inInd] at hin
      have hq' : Quiet w (t.follow (w.inInd e)) := trans_of Quiet hq (quiet_follow t _)
      obtain ⟨v, hqv, hv⟩ := ih (hq'.walkableIn h) hrest (head_skipSlash _) hk (inodeVa i) e
      rw [resolveFrom_of_byte hq'.byte] at hv
      dsimp only
      exact ⟨v, trans_of Quiet hq' hqv, (bind_ok hin).trans hv⟩

/-- What a path leads to: an entry in a directory in use, or the directory that lacks the last
component. -/
def World.Placed (w : World) (N : Nat) : Walk → Prop
  | .found dir f => dir = 0 ∧ f = 0 ∨ ∃ i < N, w.IsDir i ∧ w.cached.inOcp i = true ∧
      dir = inodeVa i ∧ f ∈ w.entries i ∧ w.byte f ≠ 0
  | .missing dir name => ∃ i < N, w.IsDir i ∧ w.cached.inOcp i = true ∧ dir = inodeVa i ∧
      name ≠ [] ∧ (0 : UInt8) ∉ name ∧ name.length < MAXNAMELEN ∧ w.lookup i name = none

def World.PlacedIn (w : World) (D : Nat → Prop) : Walk → Prop
  | .found dir f => dir = 0 ∧ f = 0 ∨ ∃ i, D i ∧ w.IsDir i ∧ w.cached.inOcp i = true ∧
      dir = inodeVa i ∧ f ∈ w.entries i ∧ w.byte f ≠ 0
  | .missing dir name => ∃ i, D i ∧ w.IsDir i ∧ w.cached.inOcp i = true ∧ dir = inodeVa i ∧
      name ≠ [] ∧ (0 : UInt8) ∉ name ∧ name.length < MAXNAMELEN ∧ w.lookup i name = none

private theorem resolveFrom_placedIn {N : Nat} {D : Nat → Prop} {w : World} (h : TidyIn N D w) (fuel : Nat)
    {path : List UInt8} (h0 : (0 : UInt8) ∉ path) (hh : path.head? ≠ some slash) {i : Nat} (hi : D i)
    {dir entry : Nat} (hentry : w.PlacedIn D (.found dir entry)) {r : Walk}
    (hr : w.resolveFrom fuel path i dir entry = .ok r) : w.PlacedIn D r := by
  induction fuel generalizing path i dir entry with
  | zero => cases hr
  | succ fuel ih =>
    rw [World.resolveFrom] at hr
    by_cases hnil : path = []
    · rw [if_pos hnil] at hr
      cases hr
      exact hentry
    rw [if_neg hnil] at hr
    by_cases hlen : MAXNAMELEN ≤ (path.takeWhile (· != slash)).length
    · rw [if_pos hlen] at hr
      cases hr
    rw [if_neg hlen] at hr
    by_cases hd : w.IsDir i
    swap
    · rw [if_neg hd] at hr
      cases hr
    rw [if_pos hd] at hr
    have ho := h.inUse (h.lt i hi) hd
    obtain ⟨hname, hrest⟩ := component_nul h0
    have hne := takeWhile_ne_nil hnil hh
    cases hlook : w.lookup i (path.takeWhile (· != slash)) with
    | none =>
      simp only [hlook] at hr
      split_ifs at hr
      cases hr
      exact ⟨i, hi, hd, ho, rfl, hne, hname, not_le.mp hlen, hlook⟩
    | some e =>
      simp only [hlook] at hr
      have hmem := List.mem_of_find?_eq_some hlook
      have hmatch := List.find?_some hlook
      have hbyte := byte_ne_zero_of_matches hmatch hne hname
      have hk := h.named i e hi hd hmem hbyte
      exact ih hrest (head_skipSlash _) hk (Or.inr ⟨i, hi, hd, ho, rfl, hmem, hbyte⟩) hr

theorem resolve_placedIn {N : Nat} {D : Nat → Prop} {w : World} (h : TidyIn N D w) {path : List UInt8}
    (h0 : (0 : UInt8) ∉ path) {r : Walk} (hr : w.resolve path = .ok r) : w.PlacedIn D r := by
  unfold World.resolve at hr
  split_ifs at hr
  refine resolveFrom_placedIn h _ (fun hm => h0 ?_) (head_skipSlash path) h.root
    (Or.inl ⟨rfl, rfl⟩) hr
  exact (List.dropWhile_sublist _).subset hm

theorem resolve_placed {N : Nat} {w : World} (h : Tidy N w) {path : List UInt8}
    (h0 : (0 : UInt8) ∉ path) {r : Walk} (hr : w.resolve path = .ok r) : w.Placed N r := by
  have hp := resolve_placedIn h.within h0 hr
  cases r with
  | found dir f => exact hp
  | missing dir name => exact hp

/-- A last component is missing from a directory only if the root is one. -/
theorem root_of_missing {w : World} {path name : List UInt8} {dir : Nat}
    (hr : w.resolve path = .ok (.missing dir name)) : w.IsDir 0 := by
  rw [World.resolve] at hr
  split_ifs at hr
  by_contra hd
  rw [World.resolveFrom, if_neg hd] at hr
  split_ifs at hr
  cases hr

theorem slash_of_resolve {w : World} {path : List UInt8} {r : Walk} (hr : w.resolve path = .ok r) :
    path.head? = some slash := by
  unfold World.resolve at hr
  split_ifs at hr with hs
  exact hs

/-- Where directories can be walked, `walk_path` ends as the directories say, and changes nothing. -/
theorem WalkableIn.walkPath_run {D : Nat → Prop} {w : World} (h : WalkableIn D w) {path : List UInt8}
    (h0 : (0 : UInt8) ∉ path) : ∃ v, Quiet w v ∧ walkPath path w = outcome (w.resolve path) v := by
  unfold walkPath World.resolve
  split_ifs
  · refine walkLoop_run h _ (fun hm => h0 ?_) (head_skipSlash path) h.root 0 0
    exact (List.dropWhile_sublist _).subset hm
  · exact ⟨w, refl_of Quiet w, rfl⟩

theorem walkPath_run {N : Nat} {w : World} (h : Walkable N w) {path : List UInt8}
    (h0 : (0 : UInt8) ∉ path) : ∃ v, Quiet w v ∧ walkPath path w = outcome (w.resolve path) v :=
  h.within.walkPath_run h0

def World.openEntry (w : World) (path : List UInt8) : Except Err Nat :=
  match w.resolve path with
  | .ok (.found _ f) => .ok f
  | .ok (.missing _ _) => .error .notFound
  | .error e => .error e

theorem WalkableIn.fileOpen_run {D : Nat → Prop} {w : World} (h : WalkableIn D w) {path : List UInt8}
    (h0 : (0 : UInt8) ∉ path) : ∃ v, Quiet w v ∧ fileOpen path w = outcome (w.openEntry path) v := by
  obtain ⟨v, hq, hv⟩ := h.walkPath_run h0
  refine ⟨v, hq, ?_⟩
  unfold fileOpen World.openEntry
  cases hr : w.resolve path with
  | error e =>
    rw [hr] at hv
    exact bind_error hv
  | ok r =>
    rw [hr] at hv
    cases r with
    | found dir f => exact bind_ok hv
    | missing dir name => exact bind_ok hv

theorem fileOpen_run {N : Nat} {w : World} (h : Walkable N w) {path : List UInt8}
    (h0 : (0 : UInt8) ∉ path) : ∃ v, Quiet w v ∧ fileOpen path w = outcome (w.openEntry path) v :=
  h.within.fileOpen_run h0

/-- An entry that `file_open` gives: the null pointer for the root, or a named entry. -/
theorem openEntry_placed {N : Nat} {w : World} (h : Tidy N w) {path : List UInt8}
    (h0 : (0 : UInt8) ∉ path) {f : Nat} (hf : w.openEntry path = .ok f) :
    f = 0 ∨ ∃ i < N, w.IsDir i ∧ f ∈ w.entries i ∧ w.byte f ≠ 0 := by
  unfold World.openEntry at hf
  split at hf
  · next hr =>
    cases hf
    rcases resolve_placed h h0 hr with ⟨-, rfl⟩ | ⟨i, hi, hd, -, -, hm, hb⟩
    · exact Or.inl rfl
    · exact Or.inr ⟨i, hi, hd, hm, hb⟩
  · cases hf
  · cases hf

end DamnOS.FileSystem
