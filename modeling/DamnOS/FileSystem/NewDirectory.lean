import DamnOS.FileSystem.FailedCreate
import DamnOS.FileSystem.Namespace

/-!
# What stands in a new directory

`file_create` writes two entries into the block of a new directory.  Both lead to the directory itself,
and the rest of the block is what was left there before.
-/

namespace DamnOS.FileSystem

open DamnOS.Framework

private theorem skipSlash_name {name : List UInt8} (hs : slash ∉ name) : skipSlash name = name := by
  refine List.dropWhile_eq_self_iff.mpr fun hl hc => hs ?_
  rw [← eq_of_beq hc]
  exact List.getElem_mem hl

private theorem skipSlash_append {path name : List UInt8} (hs : slash ∉ name) :
    skipSlash (path ++ slash :: name) =
      if skipSlash path = [] then name else skipSlash path ++ slash :: name := by
  have hrest : skipSlash (slash :: name) = name := by
    rw [skipSlash, List.dropWhile_cons, if_pos (by decide)]
    exact skipSlash_name hs
  have happend : skipSlash (path ++ slash :: name) =
      if (skipSlash path).isEmpty = true then skipSlash (slash :: name)
      else skipSlash path ++ slash :: name := List.dropWhile_append
  rw [happend, hrest]
  simp only [List.isEmpty_iff]

private theorem takeWhile_append_slash (path name : List UInt8) :
    (path ++ slash :: name).takeWhile (· != slash) = path.takeWhile (· != slash) := by
  have hstop : (slash :: name).takeWhile (· != slash) = [] := rfl
  rw [List.takeWhile_append, hstop, List.append_nil]
  split_ifs with hall
  · exact ((List.takeWhile_prefix _).eq_of_length hall).symm
  · rfl

private theorem dropWhile_append_slash (path name : List UInt8) :
    (path ++ slash :: name).dropWhile (· != slash) = path.dropWhile (· != slash) ++ slash :: name := by
  have hstop : (slash :: name).dropWhile (· != slash) = slash :: name := rfl
  rw [List.dropWhile_append, hstop]
  split_ifs with hnil
  · rw [List.isEmpty_iff.mp hnil, List.nil_append]
  · rfl

namespace World.Trail

variable {w : World} {N fuel i dir entry dir' e : Nat} {path : List UInt8}

theorem more (h : w.Trail N fuel path i dir entry dir' e) (m : Nat) :
    w.Trail N (fuel + m) path i dir entry dir' e := by
  induction h with
  | done =>
    rw [Nat.succ_add]
    exact .done
  | step hne hlen hd hP hf hin _ ih =>
    rw [Nat.succ_add]
    exact .step hne hlen hd hP hf hin ih

theorem into (h : w.Trail N fuel path i dir entry dir' e) (hne : path ≠ []) {name : List UInt8} {f : Nat}
    (hname : name ≠ []) (hs : slash ∉ name) (hlen : name.length < MAXNAMELEN) (hd : w.IsDir (w.inInd e))
    (hf : w.Finds (w.inInd e) name f) (hin : w.inInd f < N) :
    w.Trail N (fuel + 1) (path ++ slash :: name) i dir entry (inodeVa (w.inInd e)) f := by
  have hall : ∀ x ∈ name, (x != slash) = true := fun x hx => by
    simp only [bne_iff_ne, ne_eq]
    rintro rfl
    exact hs hx
  have htake : name.takeWhile (· != slash) = name := List.takeWhile_eq_self_iff.mpr hall
  have hdrop : name.dropWhile (· != slash) = [] := List.dropWhile_eq_nil_iff.mpr hall
  induction h with
  | done => exact absurd rfl hne
  | step _ hlen' hd' hP hf' hin' hrest ih =>
    refine .step (by simp) ?_ hd' hP ?_ hin' ?_
    · rw [takeWhile_append_slash]
      exact hlen'
    · rw [takeWhile_append_slash]
      exact hf'
    · rw [dropWhile_append_slash, skipSlash_append hs]
      split_ifs with hend
      · -- the last component: the walk ends at its entry
        rw [hend] at hrest
        cases hrest with
        | done =>
          refine .step hname ?_ hd trivial ?_ hin ?_
          · rw [htake]
            exact hlen
          · rw [htake]
            exact hf
          · rw [hdrop]
            exact .done
        | step hnil => exact absurd rfl hnil
      · exact ih hend hd hf

end World.Trail

/-- The free blocks in the order in which `alloc_block` finds them. -/
def Meta.freeList (m : Meta) : List Nat := (List.range m.blkNum).filter fun b => !m.blkOcp b

/-- The block that a new directory in `d` gets: the first free one after those that its entry takes. -/
def World.homeBlock (w : World) (d : Nat) : Option Nat := w.cached.freeList[w.entryBlocks d]?

private theorem mem_freeList {m : Meta} {b : Nat} : b ∈ m.freeList ↔ b < m.blkNum ∧ m.blkOcp b = false := by
  simp [Meta.freeList]

private theorem firstFree_eq_head {N : Nat} {w : World} (h : Sane N w) : w.firstFree = w.cached.freeList.head? := by
  rw [Meta.freeList, List.head?_filter, World.firstFree, blkNum_cached]
  refine List.find?_congr fun b hb => ?_
  rw [List.mem_range] at hb
  rw [Bool.eq_iff_iff, blockIsFree_iff w (lt_of_lt_of_le hb h.owned.blkNum_le)]
  simp [hb]

private theorem filter_erase_head {α : Type} [DecidableEq α] {p : α → Bool} {l : List α} (hl : l.Nodup) {a : α}
    (ha : (l.filter p).head? = some a) : (l.filter fun x => p x && x != a) = (l.filter p).tail := by
  have hsplit : l.filter p = a :: (l.filter p).tail := (List.cons_head?_tail ha).symm
  have hnodup := hl.filter p
  rw [hsplit, List.nodup_cons] at hnodup
  have hkeep : ∀ x ∈ (l.filter p).tail, (x != a) = true := fun x hx => by
    simp only [bne_iff_ne, ne_eq]
    rintro rfl
    exact hnodup.1 hx
  calc (l.filter fun x => p x && x != a) = (l.filter p).filter (· != a) := by
        rw [List.filter_filter]
        simp only [Bool.and_comm]
    _ = (a :: (l.filter p).tail).filter (· != a) := by rw [← hsplit]
    _ = (l.filter p).tail := by
        rw [List.filter_cons_of_neg (by simp), List.filter_eq_self.mpr hkeep]

theorem Obtains.freeList {N : Nat} {w v : World} (h : Sane N w) {k j b : Nat} (hk : k < N)
    (hob : w.obtain k j = some b) (ho : Obtains N w k j b v) :
    v.cached.freeList = w.cached.freeList.drop (if w.cached.slot k j = 0 then 1 else 0) := by
  have hbits : v.cached.freeList = (List.range w.cached.blkNum).filter fun c =>
      !w.cached.blkOcp c && c != b := by
    rw [Meta.freeList, ho.blkNum]
    refine List.filter_congr fun c _ => ?_
    rw [ho.blkOcp]
    by_cases hc : c = b <;> simp [hc]
  split_ifs with hz
  · have hfirst : w.firstFree = some b := by
      unfold World.obtain at hob
      rwa [if_neg (not_le.mpr ho.bound), if_pos hz] at hob
    rw [firstFree_eq_head h] at hfirst
    rw [hbits, List.drop_one]
    exact filter_erase_head List.nodup_range hfirst
  · rw [hbits, List.drop_zero]
    refine List.filter_congr fun c _ => ?_
    by_cases hc : c = b
    · have hob' : b = w.cached.slot k j := by
        rcases ho.owned with he | ⟨he, -⟩
        · exact he.symm
        · exact absurd he hz
      rw [hc, hob', (h.slot_valid hk hz).2.2]
      rfl
    · simp [hc]

private theorem dirAllocEntry_freeList {N : Nat} {w u : World} (h : Sane N w) {d e : Nat} (hd : d < N)
    (hfill : w.Filled d) (hrun : dirAllocEntry (inodeVa d) w = .ok e u) :
    u.cached.freeList = w.cached.freeList.drop (w.entryBlocks d) := by
  cases hv : w.vacant d with
  | some e' =>
    obtain ⟨v, hr, heff⟩ := dirAllocEntry_run h hd hfill hv
    rw [hrun] at hr
    cases hr
    rw [heff.cached, World.entryBlocks, if_neg (by simp [hv])]
    rfl
  | none =>
    obtain ⟨t, hr, heff⟩ := dirAllocEntry_full h hd hfill hv
    have hslot : t.cached.slot = w.cached.slot := by
      rw [heff.cached, Meta.bumped, slot_setSize, slot_setBlkUsed]
    have hfree : t.cached.freeList = w.cached.freeList := by
      rw [heff.cached]
      rfl
    rw [hrun] at hr
    cases hob : t.obtain d (w.cached.inode d).blkUsed with
    | none =>
      rw [fileGetBlock_fail heff.sane hd hob] at hr
      cases hr
    | some b =>
      rw [fileGetBlock_obtain heff.sane hd hob] at hr
      cases hr
      rw [(obtains heff.sane hd hob).freeList heff.sane hd hob, hfree, hslot, World.entryBlocks, hv]
      simp only [true_and]

private theorem dotEntries_congr {g g' : Nat → UInt8} {x : Nat} (h : g x = g' x) (b k : Nat) :
    dotEntries g b k x = dotEntries g' b k x := by
  unfold dotEntries splice
  split_ifs
  · rfl
  · rfl
  · rfl
  · rfl
  · exact h

theorem dotEntries_inInd (g : Nat → UInt8) (b : Nat) {k s : Nat} (hk : k < 65536) (hs : s < 2) :
    u16 (dotEntries g b k) (blockVa b + DIRESIZE * s + offInInd) = k := by
  obtain rfl | rfl : s = 0 ∨ s = 1 := by omega
  · rw [dotEntries, Nat.mul_zero, Nat.add_zero, u16_splice_same, Nat.mod_eq_of_lt hk]
  · rw [dotEntries, Nat.mul_one, u16_splice_disjoint _ _ (by simp only [DIRESIZE, offInInd]; omega),
      u16_splice_same, Nat.mod_eq_of_lt hk]

private theorem dotEntries_parent (g : Nat → UInt8) (b k : Nat) {i : Nat} (hi : i ≤ 2) :
    dotEntries g b k (blockVa b + i) = [46, 46].getD i 0 := by
  rw [dotEntries, splice_outside _ _ (by simp only [offInInd]; omega),
    splice_outside _ _ (by simp only [offInInd, DIRESIZE]; omega),
    splice_outside _ _ (by simp only [DIRESIZE]; omega), splice_inside _ _ (by omega),
    Nat.add_sub_cancel_left]

private theorem dotEntries_self (g : Nat → UInt8) (b k : Nat) {i : Nat} (hi : i ≤ 1) :
    dotEntries g b k (blockVa b + DIRESIZE + i) = [46].getD i 0 := by
  rw [dotEntries, splice_outside _ _ (by simp only [offInInd, DIRESIZE]; omega),
    splice_outside _ _ (by simp only [offInInd]; omega), splice_inside _ _ (by omega),
    Nat.add_sub_cancel_left]

/-- Inode `k` of `v` is a new directory: its one block `b` was free in `w`, and holds the two entries
and what was left. -/
structure Housed (N : Nat) (w v : World) (k b : Nat) : Prop where
  sane : Sane N v
  inode : k < N
  isDir : v.IsDir k
  used : (v.cached.inode k).blkUsed = 1
  slot : v.cached.slot k 0 = b
  free : 2 ≤ b ∧ b < w.cached.blkNum ∧ w.cached.blkOcp b = false
  byte : ∀ x, blockVa b ≤ x → x < blockVa b + BLKSIZE → v.byte x = dotEntries w.byte b k x

theorem Stages.housed {N : Nat} {D : Nat → Prop} {w v t u s : World} (h : TidyIn N D w)
    {path name : List UInt8} {d e k : Nat} (hs : Stages N w v path FTYPE_DIR d e k name t u s) :
    ∃ b, w.homeBlock d = some b ∧ Housed N w v k b := by
  obtain ⟨xs, hfill⟩ := hs.fills
  have ha := hs.allots
  have hk := hs.inode.1
  have hfree : u.cached.inOcp k = false := by
    rw [ha.inOcp]
    exact hs.inode.2
  have heff := (Effect.refl ha.sane).markInode hk hfree
  obtain ⟨-, hused, hslots⟩ := h.unused k hk hs.inode.2
  have hinode : u.cached.inode k = w.cached.inode k := ha.other k hs.apart.1
  have hz : (u.cached.setInOcp k true).slot k 0 = 0 := by
    rw [slot_setInOcp, Meta.slot, hinode]
    exact hslots 0
  have hinit : initDir k (u.markInode k) = .ok () s := hs.init
  cases hb : (u.markInode k).firstFree with
  | none =>
    rw [initDir_full heff hk hz hs.apart.2 hb] at hinit
    cases hinit
  | some b =>
    obtain ⟨l, s', hrun, hnew⟩ := initDir_run heff hk hz hb
    rw [hrun] at hinit
    cases hinit
    have hlist := dirAllocEntry_freeList (hs.quiet.sane h.sane) hs.dir.1 (hs.quiet.filled hs.filled) hs.entry
    have hblocks : t.entryBlocks d = w.entryBlocks d := by
      rw [World.entryBlocks, World.entryBlocks, hs.quiet.cached, World.vacant, World.vacant,
        entries_of_byte hs.quiet.byte, hs.quiet.byte]
    have hhome : w.homeBlock d = some b := by
      rw [firstFree_eq_head heff.sane, heff.cached] at hb
      change u.cached.freeList.head? = some b at hb
      rwa [hlist, hs.quiet.cached, hblocks, List.head?_drop] at hb
    have hmem := mem_freeList.mp (List.mem_of_getElem? hhome)
    have hb' := heff.sane.firstFree hb
    have hocp : u.cached.blkOcp b = false := by
      have hbit := hb'.2.2.1
      rw [heff.cached] at hbit
      exact hbit
    have hc : v.cached = ((u.cached.setInOcp k true).newDir k b).setType k (FTYPE_DIR % 65536) := by
      rw [hfill.cached, hnew.cached]
    have huk : (u.cached.inode k).blkUsed = 0 := by
      rw [hinode]
      exact hused
    refine ⟨b, hhome, hfill.sane, hk, ?_, ?_, ?_, ⟨hb'.2.2.2, hmem⟩, fun x hlo hhi => ?_⟩
    · rw [World.IsDir, hc]
      simp [Meta.setType, Meta.setInode, FTYPE_DIR]
    · rw [hc]
      simp [Meta.newDir, Meta.setType, Meta.setSize, Meta.setBlkUsed, Meta.setSlot, Meta.setInode,
        Meta.setBlkOcp, Meta.setInOcp, huk]
    · rw [hc]
      simp [Meta.slot, Meta.newDir, Meta.setType, Meta.setSize, Meta.setBlkUsed, Meta.setSlot, Meta.setInode,
        Meta.setBlkOcp, Meta.setInOcp]
    · -- the entry of the directory lies in a block of its parent
      obtain ⟨j, i, hj, hi, he⟩ := ha.block hs.filled
      have hne : u.cached.slot d j ≠ b := by
        intro heq
        have hv := (ha.sane.slot_valid hs.dir.1 hj).2.2
        rw [heq, hocp] at hv
        cases hv
      have hoff : OffMeta x := Or.inr ((blockVa_mono hb'.2.2.2).trans hlo)
      have hout : x < e ∨ e + DIRESIZE ≤ x := by
        rw [he]
        simp only [blockVa, BLKFILES, DIRESIZE, BLKSIZE] at *
        omega
      rw [hfill.byte x hoff, newEntry_outside _ hs.named.2.1 k hout, hnew.byte x hoff]
      exact dotEntries_congr (ha.byte x hoff) b k

namespace Housed

variable {N : Nat} {w v : World} {k b : Nat} (h : Housed N w v k b)
include h

theorem blockEntries : v.firstEntries k 1 = blockVa b :: (blockVa b + DIRESIZE) ::
    (List.range (BLKFILES - 2)).map fun s => blockVa b + DIRESIZE * (s + 2) := by
  have hone : v.firstEntries k 1 = v.blockEntries k 0 := by
    rw [World.firstEntries]
    simp
  rw [hone, World.blockEntries, h.slot, show BLKFILES = BLKFILES - 2 + 1 + 1 from rfl,
    List.range_succ_eq_map, List.range_succ_eq_map]
  simp only [List.map_cons, List.map_map]
  rfl

private theorem byte_first {o : Nat} (ho : o < BLKSIZE) :
    v.byte (blockVa b + o) = dotEntries w.byte b k (blockVa b + o) :=
  h.byte _ (Nat.le_add_right _ _) (Nat.add_lt_add_left ho _)

private theorem matches_parent : nameMatches v (blockVa b) [46, 46] = true := by
  refine nameMatches_of_getD fun i hi => ?_
  have hi' : i ≤ 2 := hi
  rw [h.byte_first (by simp only [BLKSIZE]; omega), dotEntries_parent _ _ _ hi']

private theorem matches_self : nameMatches v (blockVa b + DIRESIZE) [46] = true := by
  refine nameMatches_of_getD fun i hi => ?_
  have hi' : i ≤ 1 := hi
  rw [Nat.add_assoc, h.byte_first (by simp only [DIRESIZE, BLKSIZE]; omega), ← Nat.add_assoc,
    dotEntries_self _ _ _ hi']

theorem inInd {s : Nat} (hs : s < 2) : v.inInd (blockVa b + DIRESIZE * s) = k := by
  have hk : k < 65536 := lt_trans (h.sane.lt h.inode) (by decide)
  have hbyte (o : Nat) (ho : o < DIRESIZE) : v.byte (blockVa b + DIRESIZE * s + o) =
      dotEntries w.byte b k (blockVa b + DIRESIZE * s + o) := by
    rw [Nat.add_assoc]
    exact h.byte_first (by simp only [DIRESIZE, BLKSIZE] at *; omega)
  rw [inInd_congr (hbyte _ (by decide)) (hbyte (offInInd + 1) (by decide))]
  exact dotEntries_inInd _ b hk hs

private theorem matches_left {s : Nat} (hs : s < BLKFILES - 2) {name : List UInt8} (hlen : name.length < MAXNAMELEN) :
    nameMatches v (blockVa b + DIRESIZE * (s + 2)) name =
      nameMatches w (blockVa b + DIRESIZE * (s + 2)) name := by
  refine nameMatches_congr fun x hlo hhi => ?_
  simp only [BLKFILES, DIRESIZE, MAXNAMELEN] at *
  rw [h.byte x (by omega) (by simp only [BLKSIZE]; omega),
    dotEntries_outside _ _ _ (by simp only [DIRESIZE]; omega)]

theorem find {name : List UInt8} (h0 : (0 : UInt8) ∉ name) (hlen : name.length < MAXNAMELEN) :
    (v.firstEntries k 1).find? (fun a => nameMatches v a name) =
      if name = [46, 46] then some (blockVa b) else if name = [46] then some (blockVa b + DIRESIZE)
      else ((List.range (BLKFILES - 2)).map fun s => blockVa b + DIRESIZE * (s + 2)).find?
        fun a => nameMatches w a name := by
  have hparent : nameMatches v (blockVa b) name = true ↔ name = [46, 46] := by
    refine ⟨fun hm => nameMatches_unique h0 (by decide) hm h.matches_parent, ?_⟩
    rintro rfl
    exact h.matches_parent
  have hself : nameMatches v (blockVa b + DIRESIZE) name = true ↔ name = [46] := by
    refine ⟨fun hm => nameMatches_unique h0 (by decide) hm h.matches_self, ?_⟩
    rintro rfl
    exact h.matches_self
  rw [h.blockEntries, List.find?_cons, List.find?_cons]
  split_ifs with hp hs
  · rw [hparent.mpr hp]
  · rw [Bool.eq_false_iff.mpr fun hm => hp (hparent.mp hm), hself.mpr hs]
  · rw [Bool.eq_false_iff.mpr fun hm => hp (hparent.mp hm), Bool.eq_false_iff.mpr fun hm => hs (hself.mp hm)]
    refine List.find?_congr fun a ha => ?_
    obtain ⟨s, hs', rfl⟩ := List.mem_map.mp ha
    exact h.matches_left (List.mem_range.mp hs') hlen

theorem finds {name : List UInt8} {e : Nat}
    (he : (v.firstEntries k 1).find? (fun a => nameMatches v a name) = some e) : v.Finds k name e := by
  refine ⟨1, h.used.ge, fun j hj => ?_, he⟩
  obtain rfl : j = 0 := by omega
  rw [h.slot]
  have hb := h.free.1
  omega

end Housed

/-- Looking up any name in directory `k` succeeds for `.` and `..` only. -/
def OnlyDots (v : World) (k : Nat) : Prop := ∀ name, PathName name → name.length < MAXNAMELEN →
  if name = [46] ∨ name = [46, 46] then ∃ e, reply (dirLookup (inodeVa k) name) v = .ok (some e)
  else reply (dirLookup (inodeVa k) name) v = .ok none

/-- Block `b` holds no other name where a directory has its entries after the first two.  Sixteen bytes
without a NUL are no name. -/
def World.LeftBlank (w : World) (b : Nat) : Prop := ∀ s, 2 ≤ s → s < BLKFILES →
  w.entryName (blockVa b + DIRESIZE * s) ∈ [[], [46], [46, 46]] ∨
    (w.entryName (blockVa b + DIRESIZE * s)).length = MAXNAMELEN

private theorem entryName_length (w : World) (e : Nat) : (w.entryName e).length ≤ MAXNAMELEN := by
  have hle := (List.takeWhile_sublist (· != 0) (l := (List.range MAXNAMELEN).map fun i => w.byte (e + i))).length_le
  rwa [List.length_map, List.length_range] at hle

private theorem entryName_nul (w : World) (e : Nat) : (0 : UInt8) ∉ w.entryName e := by
  intro hm
  have hne := List.mem_takeWhile_imp hm
  simp at hne

namespace Housed

variable {N : Nat} {w v : World} {k b : Nat} (h : Housed N w v k b)
include h

private theorem reply_dirLookup (name : List UInt8) : reply (dirLookup (inodeVa k) name) v =
    .ok ((v.firstEntries k 1).find? fun a => nameMatches v a name) := by
  have hz : v.cached.slot k 0 ≠ 0 := by
    rw [h.slot]
    have hb := h.free.1
    omega
  obtain ⟨t, ht, -, -⟩ := dirScan_run h.sane.ready (h.sane.lt h.inode)
    (fun w a => nameMatches w a name)
    (fun w v hb => funext fun a => nameMatches_of_byte hb a name) 1 0 fun j _ hj => by
      obtain rfl : j = 0 := by omega
      exact h.sane.holds h.inode hz
  rw [← List.range_eq_range'] at ht
  have hused := load16_blkUsed h.sane.ready (h.sane.lt h.inode)
  rw [h.used] at hused
  exact reply_ok ((bind_ok hused).trans ht)

theorem onlyDots_iff : OnlyDots v k ↔ w.LeftBlank b := by
  constructor
  · intro hall s hlo hhi
    by_contra hleft
    obtain ⟨hdots, hlong⟩ := not_or.mp hleft
    have hlen : (w.entryName (blockVa b + DIRESIZE * s)).length < MAXNAMELEN :=
      lt_of_le_of_ne (entryName_length w _) hlong
    have h0 := entryName_nul w (blockVa b + DIRESIZE * s)
    simp only [List.mem_cons, List.not_mem_nil, or_false, not_or] at hdots
    have hnone := hall _ ⟨hdots.1, h0⟩ hlen
    rw [if_neg (not_or.mpr hdots.2), h.reply_dirLookup, h.find h0 hlen, if_neg hdots.2.2,
      if_neg hdots.2.1, Except.ok.injEq, List.find?_eq_none] at hnone
    refine hnone (blockVa b + DIRESIZE * s) ?_ ((nameMatches_iff w _ h0 hlen).mpr rfl)
    refine List.mem_map.mpr ⟨s - 2, List.mem_range.mpr (by omega), ?_⟩
    rw [Nat.sub_add_cancel hlo]
  · intro hblank name hp hlen
    rw [h.reply_dirLookup, h.find hp.2 hlen]
    by_cases hparent : name = [46, 46]
    · rw [if_pos (Or.inr hparent), if_pos hparent]
      exact ⟨_, rfl⟩
    by_cases hself : name = [46]
    · rw [if_pos (Or.inl hself), if_neg hparent, if_pos hself]
      exact ⟨_, rfl⟩
    rw [if_neg (not_or.mpr ⟨hself, hparent⟩), if_neg hparent, if_neg hself, Except.ok.injEq,
      List.find?_eq_none]
    intro a ha hm
    obtain ⟨s, hs, rfl⟩ := List.mem_map.mp ha
    rw [List.mem_range] at hs
    have hname := (nameMatches_iff w _ hp.2 hlen).mp hm
    have hleft := hblank (s + 2) (by omega) (by omega)
    rw [hname] at hleft
    rcases hleft with hm | hlong
    · simp only [List.mem_cons, List.not_mem_nil, or_false] at hm
      rcases hm with hm | hm | hm
      · exact hp.1 hm
      · exact hself hm
      · exact hparent hm
    · omega

end Housed

def World.LeadsTo (w : World) (path : List UInt8) (k : Nat) : Prop :=
  ∃ f, reply (fileOpen path) w = .ok f ∧ w.inodeBehind f = k

theorem World.LeadsTo.unique {w : World} {path : List UInt8} {k k' : Nat} (h : w.LeadsTo path k)
    (h' : w.LeadsTo path k') : k = k' := by
  obtain ⟨f, hf, hk⟩ := h
  obtain ⟨f', hf', hk'⟩ := h'
  rw [hf] at hf'
  cases hf'
  exact hk.symm.trans hk'

/-- What a new directory `e` at `path` below inode `d` should show: `.` is itself, `..` its parent. -/
structure Linked (v : World) (path : List UInt8) (d e : Nat) : Prop where
  self : v.LeadsTo (path ++ slash :: [46]) (v.inInd e)
  parent : v.LeadsTo (path ++ slash :: [46, 46]) d

private theorem leadsTo_of_trail {N : Nat} {w : World} (h : Sane N w) {path : List UInt8}
    (hs : path.head? = some slash) {fuel dir e : Nat} (hfuel : fuel ≤ (skipSlash path).length + 1)
    (ht : w.Trail N fuel (skipSlash path) 0 0 0 dir e) (he : e ≠ 0) : w.LeadsTo path (w.inInd e) := by
  obtain ⟨m, hm⟩ := Nat.exists_eq_add_of_le hfuel
  obtain ⟨t, -, hwalk⟩ := walkLoop_trail h h.pos (ht.more m)
  rw [← hm] at hwalk
  have hpath : walkPath path w = .ok (.found dir e) t := by
    rw [walkPath, if_pos hs]
    exact hwalk
  have hopen : fileOpen path w = .ok e t := bind_ok hpath
  exact ⟨e, reply_ok hopen, if_neg he⟩

section Dots

variable {N : Nat} {D : Nat → Prop} {w v : World} (h : TidyIn N D w) {path : List UInt8}
  (h0 : (0 : UInt8) ∉ path) {e : Nat} (hrun : fileCreate path FTYPE_DIR w = .ok e v)
include h h0 hrun

/-- An entry of a new directory that leads to the directory itself. -/
theorem dot_leads {name : List UInt8} (hname : name = [46] ∨ name = [46, 46]) :
    v.LeadsTo (path ++ slash :: name) (v.inInd e) := by
  obtain ⟨d, n, k, t, u, s, hs⟩ := fileCreate_stages h h0 hrun
  obtain ⟨b, -, hh⟩ := hs.housed h
  have hk := hs.inInd
  have hslash := slash_of_resolve hs.resolve
  have hnil : skipSlash path ≠ [] := by
    intro hnil
    have hres := hs.resolve
    rw [World.resolve, if_pos hslash, hnil] at hres
    cases hres
  have hprop : name ≠ [] ∧ slash ∉ name ∧ (0 : UInt8) ∉ name ∧ name.length < MAXNAMELEN := by
    rcases hname with rfl | rfl <;> decide
  obtain ⟨hne, hsl, hz, hlen⟩ := hprop
  obtain ⟨i, hi, hfind⟩ : ∃ i < 2, (v.firstEntries k 1).find? (fun a => nameMatches v a name) =
      some (blockVa b + DIRESIZE * i) := by
    rw [hh.find hz hlen]
    rcases hname with rfl | rfl
    · exact ⟨1, by decide, rfl⟩
    · exact ⟨0, by decide, rfl⟩
  have hin := hh.inInd hi
  have htrail : v.Trail N _ _ _ _ _ _ _ := (hs.trail h h0).mono fun _ _ => trivial
  have ht := htrail.into hnil hne hsl hlen (f := blockVa b + DIRESIZE * i)
    (by rw [hk]; exact hh.isDir) (by rw [hk]; exact hh.finds hfind) (by rw [hin]; exact hh.inode)
  have hskip : skipSlash (path ++ slash :: name) = skipSlash path ++ slash :: name := by
    rw [skipSlash_append hsl, if_neg hnil]
  rw [← hskip] at ht
  have hhead : (path ++ slash :: name).head? = some slash := by
    rw [List.head?_append, hslash]
    rfl
  have hl := leadsTo_of_trail hh.sane hhead ?_ ht ?_
  · rwa [hin, ← hk] at hl
  · rw [hskip, List.length_append, List.length_cons]
    omega
  · simp only [blockVa, DISKMAP]
    omega

theorem dot_new {d : Nat} (hdir : w.IsDir d) : v.inInd e ≠ d := by
  obtain ⟨d', n, k, t, u, s, hs⟩ := fileCreate_stages h h0 hrun
  rw [hs.inInd]
  rintro rfl
  exact (h.unused k hs.inode.1 hs.inode.2).1 hdir

end Dots

end DamnOS.FileSystem
