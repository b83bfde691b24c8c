import DamnOS.FileSystem.Removal

/-!
# A file of one block

What the calls on a regular file do as long as they keep to its first block: the file stays where it
is, a write replaces the first bytes and keeps the others, and a read gives the bytes up to the size.
-/

namespace DamnOS.FileSystem

open DamnOS.Framework

/-- The disk map shows the same metadata and data; buffers outside it may differ. -/
structure Alike (w v : World) : Prop where
  cached : v.cached = w.cached
  byte : ∀ x, blockVa 2 ≤ x → x < DISKMAP + DISKSIZE → v.byte x = w.byte x
  present : ∀ p, w.present p = true → v.present p = true

namespace Alike

variable {w t v : World}

theorem of_quiet (h : Quiet w v) : Alike w v :=
  ⟨h.cached, fun x _ _ => congrFun h.byte x, h.present⟩

theorem trans (h : Alike w t) (h' : Alike t v) : Alike w v where
  cached := h'.cached.trans h.cached
  byte x hlo hhi := (h'.byte x hlo hhi).trans (h.byte x hlo hhi)
  present p hp := h'.present p (h.present p hp)

theorem of_fill (w : World) {buf n : Nat} (f : Nat → UInt8) (hbuf : Apart buf n) :
    Alike w (w.fill buf n f) where
  cached := cached_fill hbuf
  byte _ hlo hhi := byte_fill_disk hbuf ((Nat.le_add_right _ _).trans hlo) hhi
  present := present_fill w buf n f

variable {N : Nat} (h : Alike w v) (hw : Sane N w)
include h hw

theorem sane : Sane N v :=
  hw.of_cached ⟨h.present _ hw.ready.super, h.present _ hw.ready.inode⟩ h.cached

theorem position {i p : Nat} (hi : i < N) (hz : w.cached.slot i (p / BLKSIZE) ≠ 0) :
    v.byte (w.addrOf i p) = w.byte (w.addrOf i p) := by
  have hb := hw.addrOf_bounds hi hz
  exact h.byte _ hb.1 hb.2

theorem beside (k : Nat) : Beside N k w v :=
  ⟨h.sane hw, by rw [h.cached], by rw [h.cached], fun _ _ => by rw [h.cached],
    fun _ _ hi _ hz => h.position hw hi hz⟩

theorem firstFree : v.firstFree = w.firstFree :=
  firstFree_congr hw (by rw [h.cached]) (by rw [h.cached])

end Alike

namespace Alike

variable {N : Nat} {w v : World} (h : Alike w v)
include h

theorem isDir (i : Nat) : v.IsDir i ↔ w.IsDir i := by
  rw [World.IsDir, World.IsDir, h.cached]

theorem entries (i : Nat) : v.entries i = w.entries i := by
  have hb : v.blockEntries i = w.blockEntries i := by
    funext j
    rw [World.blockEntries, World.blockEntries, h.cached]
  rw [World.entries, World.entries, hb, h.cached]

variable (hw : Orderly N w)
include hw

theorem entry {i e : Nat} (hi : i < N) (hd : w.IsDir i) (he : e ∈ w.entries i) {x : Nat} (hlo : e ≤ x)
    (hhi : x < e + DIRESIZE) : v.byte x = w.byte x := by
  obtain ⟨p, hp, rfl⟩ := (hw.tidy.walkable.entryIn hi hd he).position hlo hhi
  exact h.position hw.sane hi hp

theorem inInd {i e : Nat} (hi : i < N) (hd : w.IsDir i) (he : e ∈ w.entries i) :
    v.inInd e = w.inInd e := by
  refine u16_congr (h.entry hw hi hd he ?_ ?_) (h.entry hw hi hd he ?_ ?_) <;>
    simp only [offInInd, DIRESIZE] <;> omega

theorem orderly : Orderly N v where
  sane := h.sane hw.sane
  root := by
    rw [h.isDir, h.cached]
    exact hw.root
  filled i j hi hd hj := by
    rw [h.cached] at hj ⊢
    exact hw.filled i j hi ((h.isDir i).mp hd) hj
  named i e hi hd he hb := by
    rw [h.entries] at he
    rw [h.isDir] at hd
    rw [h.entry hw hi hd he le_rfl (by simp only [DIRESIZE]; omega)] at hb
    rw [h.inInd hw hi hd he, h.cached]
    exact hw.named i e hi hd he hb
  unused i hi ho := by
    rw [h.cached] at ho ⊢
    rw [h.isDir]
    exact hw.unused i hi ho

theorem lookup {i : Nat} (hi : i < N) (hd : w.IsDir i) {name : List UInt8} (hlen : name.length < MAXNAMELEN) :
    v.lookup i name = w.lookup i name := by
  rw [World.lookup, World.lookup, h.entries]
  refine List.find?_congr fun e he => nameMatches_congr fun x hlo hhi => h.entry hw hi hd he hlo ?_
  simp only [MAXNAMELEN, DIRESIZE] at *
  omega

theorem vacant {i : Nat} (hi : i < N) (hd : w.IsDir i) : v.vacant i = w.vacant i := by
  rw [World.vacant, World.vacant, h.entries]
  refine List.find?_congr fun e he => ?_
  rw [h.entry hw hi hd he le_rfl (by simp only [DIRESIZE]; omega)]

theorem resolveFrom (fuel : Nat) {path : List UInt8} (h0 : (0 : UInt8) ∉ path)
    (hh : path.head? ≠ some slash) {i : Nat} (hi : i < N) (dir entry : Nat) :
    v.resolveFrom fuel path i dir entry = w.resolveFrom fuel path i dir entry := by
  induction fuel generalizing path i dir entry with
  | zero => rfl
  | succ fuel ih =>
    unfold World.resolveFrom
    by_cases hnil : path = []
    · rw [if_pos hnil, if_pos hnil]
    rw [if_neg hnil, if_neg hnil]
    by_cases hlen : MAXNAMELEN ≤ (path.takeWhile (· != slash)).length
    · rw [if_pos hlen, if_pos hlen]
    rw [if_neg hlen, if_neg hlen]
    by_cases hd : w.IsDir i
    swap
    · rw [if_neg hd, if_neg (fun hv => hd ((h.isDir i).mp hv))]
    rw [if_pos hd, if_pos ((h.isDir i).mpr hd), h.lookup hw hi hd (not_le.mp hlen)]
    cases hl : w.lookup i (path.takeWhile (· != slash)) with
    | none => rfl
    | some e =>
      have hmem := List.mem_of_find?_eq_some hl
      have hmatch := List.find?_some hl
      obtain ⟨hname, hrest⟩ := component_nul h0
      have hbyte := byte_ne_zero_of_matches hmatch (takeWhile_ne_nil hnil hh) hname
      dsimp only
      rw [h.inInd hw hi hd hmem]
      exact ih hrest (head_skipSlash _) (hw.named i e hi hd hmem hbyte).1 _ _

theorem resolve {path : List UInt8} (h0 : (0 : UInt8) ∉ path) : v.resolve path = w.resolve path := by
  rw [World.resolve, World.resolve]
  split_ifs
  · exact h.resolveFrom hw _ (fun hm => h0 ((List.dropWhile_sublist _).subset hm)) (head_skipSlash _)
      hw.sane.pos 0 0
  · rfl

end Alike

/-- `path` leads to the entry `e`, in directory `d`, of a regular file whose first block is there or
can be had. -/
structure Kept (N : Nat) (path : List UInt8) (d e : Nat) (w : World) : Prop where
  sane : Sane N w
  slash : path.head? = some slash
  trail : w.Trail N ((skipSlash path).length + 1) (skipSlash path) 0 0 0 (inodeVa d) e
  dir : d < N ∧ d ≠ w.inInd e
  entryIn : w.EntryIn d e
  inode : w.inInd e < N
  regular : ¬w.IsDir (w.inInd e)
  backed : w.cached.slot (w.inInd e) 0 ≠ 0 ∨
    (w.cached.inode (w.inInd e)).size = 0 ∧ w.firstFree ≠ none

/-- The first bytes of inode `k`, as many as a path may have. -/
def World.text (w : World) (k : Nat) : List UInt8 :=
  (List.range (min (w.cached.inode k).size MAXPATHLEN)).map fun p => w.byte (w.addrOf k p)

theorem length_text (w : World) (k : Nat) :
    (w.text k).length = min (w.cached.inode k).size MAXPATHLEN := by
  simp [World.text]

theorem getElem_text (w : World) (k : Nat) {p : Nat} (hp : p < (w.text k).length) :
    (w.text k)[p] = w.byte (w.addrOf k p) := by
  simp [World.text]

namespace Kept

variable {N d e : Nat} {path : List UInt8} {w v : World}

theorem beside (h : Kept N path d e w) (hb : Beside N (w.inInd e) w v)
    (hbacked : v.cached.slot (w.inInd e) 0 ≠ 0 ∨
      (v.cached.inode (w.inInd e)).size = 0 ∧ v.firstFree ≠ none) :
    Kept N path d e v ∧ v.inInd e = w.inInd e := by
  have hin := hb.inInd h.dir.1 h.dir.2 h.entryIn
  refine ⟨⟨hb.sane, h.slash, hb.trail h.regular h.sane.pos h.trail, ?_, ?_, ?_, ?_, ?_⟩, hin⟩
  · rw [hin]
    exact h.dir
  · obtain ⟨j, s, hz, hs, he⟩ := h.entryIn
    exact ⟨j, s, by rwa [hb.slot h.dir.2], hs, by rwa [hb.slot h.dir.2]⟩
  · rw [hin]
    exact h.inode
  · rw [hin, hb.isDir]
    exact h.regular
  · rwa [hin]

theorem alike (h : Kept N path d e w) (ha : Alike w v) :
    Kept N path d e v ∧ v.inInd e = w.inInd e ∧ v.text (w.inInd e) = w.text (w.inInd e) := by
  obtain ⟨hk, hin⟩ := h.beside (ha.beside h.sane _)
    (by rw [ha.cached, ha.firstFree h.sane]; exact h.backed)
  refine ⟨hk, hin, ?_⟩
  rw [World.text, World.text, ha.cached]
  refine List.map_congr_left fun p hp => ?_
  have hlt : p < 128 ∧ 0 < (w.cached.inode (w.inInd e)).size := by
    have hm := List.mem_range.mp hp
    simp only [MAXPATHLEN] at hm
    omega
  have hz : w.cached.slot (w.inInd e) (p / BLKSIZE) ≠ 0 := by
    have hdiv : p / BLKSIZE = 0 := Nat.div_eq_of_lt (by simp only [BLKSIZE]; omega)
    rw [hdiv]
    exact h.backed.resolve_right fun hs => by omega
  have haddr : v.addrOf (w.inInd e) p = w.addrOf (w.inInd e) p := by
    rw [World.addrOf, World.addrOf, ha.cached]
  rw [haddr]
  exact ha.position h.sane h.inode hz

theorem load_inInd (h : Kept N path d e w) : ∃ t, touch (e + offInInd) 2 w = .ok () t ∧
    load16 (e + offInInd) w = .ok (w.inInd e) t ∧ Quiet w t := by
  obtain ⟨j, s, hz, hs, he⟩ := h.entryIn
  obtain ⟨-, hlt, ho⟩ := h.sane.slot_valid h.dir.1 hz
  obtain ⟨t, ht⟩ := touch_marked (a := e + offInInd) (n := 2) hlt
    (lt_of_lt_of_le hlt h.sane.owned.blkNum_le) ho (by omega)
    (by simp only [offInInd, DIRESIZE, BLKFILES, BLKSIZE] at *; omega)
  have hq : Quiet w t := Keeps.of_ok ht
  refine ⟨t, ht, ?_, hq⟩
  rw [← hq.inInd e]
  exact (bind_ok ht).trans rfl

theorem mapped (h : Kept N path d e w) : ∃ t, Loads w t ∧ EntryMapped e t ∧ inodeOf e w = inodeOf e t := by
  rcases inodeOf_start e w with ht | ⟨p, t, herr, -⟩
  · exact ht
  obtain ⟨u, -, hload, -⟩ := h.load_inInd
  have hok : inodeOf e w = .ok (inodeVa (w.inInd e)) (u.follow (w.inInd e)) := (bind_ok hload).trans rfl
  rw [hok] at herr
  cases herr

private theorem walkPath_kept (h : Kept N path d e w) : ∃ v, walkPath path w = .ok (.found (inodeVa d) e) v ∧
    Quiet w v := by
  obtain ⟨v, hq, hv⟩ := walkLoop_trail h.sane h.sane.pos h.trail
  refine ⟨v, ?_, hq⟩
  rw [walkPath, if_pos h.slash]
  exact hv

theorem fileOpen_kept (h : Kept N path d e w) : ∃ v, fileOpen path w = .ok e v ∧ Quiet w v := by
  obtain ⟨v, hv, hq⟩ := h.walkPath_kept
  exact ⟨v, bind_ok hv, hq⟩

theorem fileCreate_kept (h : Kept N path d e w) (type : Nat) :
    ∃ v, fileCreate path type w = .error (.err .fileExists) v ∧ Quiet w v := by
  obtain ⟨v, hv, hq⟩ := h.walkPath_kept
  exact ⟨v, bind_ok hv, hq⟩

theorem entry_pos (h : Kept N path d e w) : DISKMAP ≤ e ∧ e < DISKMAP + DISKSIZE :=
  h.entryIn.inMap h.sane h.dir.1

theorem inode_ne_zero (h : Kept N path d e w) : w.inInd e ≠ 0 := by
  intro h0
  have hpos := h.entry_pos
  have hreg := h.regular
  have ht := h.trail
  rw [h0] at hreg
  generalize skipSlash path = rest, inodeVa d = dir at ht
  cases ht with
  | done =>
    simp only [DISKMAP] at hpos
    omega
  | step _ _ hd => exact hreg hd

theorem fileFlush_kept (h : Kept N path d e w) : ∃ v, fileFlush e w = .ok () v ∧ Quiet w v := by
  obtain ⟨t, hl, hm, he⟩ := h.mapped
  have hind := hl.quiet.inInd e
  have hrun : fileFlush e w = fileFlush e t := bind_congr_run he
  obtain ⟨v, hv⟩ := fileFlush_run (hl.sane h.sane) (by rw [hind]; exact h.inode) hm h.entry_pos
  exact ⟨v, hrun.trans hv, trans_of Quiet hl.quiet (Keeps.of_ok hv)⟩

end Kept

private theorem copyLoop_first_block {N : Nat} {w : World} (h : Sane N w) {k : Nat} (hk : k < N) (wr : Bool)
    {stop buf : Nat} (hstop : stop ≤ BLKSIZE) {b : Nat} (hb : w.obtain k 0 = some b)
    (hm : ∀ p ∈ pagesOf buf stop, w.present p = true) :
    ∃ v, copyLoop wr (inodeVa k) stop (stop + 1) 0 buf w = .ok () v := by
  rcases Nat.eq_zero_or_pos stop with rfl | hpos
  · exact ⟨w, copyLoop_done wr 1 buf (by decide) w⟩
  simp only [BLKSIZE] at hstop
  have hchunk : chunk 0 stop = stop := by
    have hc := chunk_nat (Nat.zero_le stop) (by omega)
    simp only [BLKSIZE, Nat.cast_zero] at hc
    omega
  have hstart : toU32 (0 : Int) < stop := hpos
  have hidx : toU16 ((0 : Int).tdiv BLKSIZE) = 0 := rfl
  have hblk : inBlock (blockVa b) 0 = blockVa b + 0 := rfl
  have hdone : ¬toU32 ((0 : Int) + (stop : Int)) < stop := by
    unfold toU32
    omega
  obtain ⟨x, hx⟩ : ∃ x, x = Access.transfer wr ((w.obtained k 0 b).slotsOf (inodeVa k))
      (blockVa b + 0) buf stop := ⟨_, rfl⟩
  obtain ⟨v, hv⟩ := (obtains h hk hb).copy_returns wr x (o := 0) (n := stop) buf
    (by simp only [BLKSIZE]; omega) hm
  refine ⟨v, ?_⟩
  rw [copyLoop, if_pos hstart, hidx, bind_ok (fileGetBlock_obtain h hk hb)]
  simp only [hchunk, hblk]
  rw [bind_ok (modify_run _ _), ← hx, bind_ok hv]
  exact copyLoop_done wr stop _ hdone v

namespace Kept

variable {N d e : Nat} {path : List UInt8} {w : World}

private theorem obtain_first (h : Kept N path d e w) {u : World} (hslot : u.cached.slot (w.inInd e) 0 =
    w.cached.slot (w.inInd e) 0) (hfree : u.firstFree = w.firstFree) :
    ∃ b, u.obtain (w.inInd e) 0 = some b := by
  unfold World.obtain
  rw [if_neg (by decide), hslot, hfree]
  split_ifs with hz
  · exact Option.ne_none_iff_exists'.mp (h.backed.resolve_left fun hn => hn hz).2
  · exact ⟨_, rfl⟩

private theorem fileWrite_steps (h : Kept N path d e w) (hmap : EntryMapped e w) {buf n : Nat}
    (hn : n < MAXPATHLEN) (hbuf : Apart buf n) (hm : ∀ p ∈ pagesOf buf n, w.present p = true) :
    ∃ u s v, Extends N w (w.inInd e) n u ∧ Moved N (w.inInd e) true buf 0 n 0 n u s ∧ Quiet s v ∧
      fileWrite e buf n 0 w = .ok n v := by
  simp only [MAXPATHLEN] at hn
  have hto : toU32 ((0 : Int) + (n : Int)) = n := by
    unfold toU32
    omega
  have hoff := h.entryIn.offMeta h.sane h.dir.1
  have hrun := fileWrite_run h.sane h.inode hmap buf n 0
  rw [hto] at hrun
  obtain ⟨u, hext, hu⟩ := extend_run h.sane h.inode hmap hoff n fun _ => h.entry_pos
  have hcu := hu.cached
  rw [extended_grow _ _ (by omega)] at hcu
  obtain ⟨b, hb⟩ := h.obtain_first (u := u) (by rw [hcu]; split_ifs <;> simp)
    (firstFree_congr h.sane (by rw [hcu]; split_ifs <;> rfl) (by rw [hcu]; split_ifs <;> rfl))
  obtain ⟨s, hs⟩ := copyLoop_first_block hu.sane h.inode true
    (show n ≤ BLKSIZE by simp only [BLKSIZE]; omega) hb (fun p hp => by rw [hu.present]; exact hm p hp)
  obtain ⟨e', -, hmoved, hok⟩ := @copyLoop_moved N _ h.inode true buf 0 n hbuf (by omega) (n + 1)
    _ _ hu.sane le_rfl (Nat.zero_le _) (by decide) (by omega)
  simp only [Nat.sub_self, Nat.add_zero, Nat.cast_zero] at hmoved hok
  obtain rfl := hok s hs
  rw [final_ok hs] at hmoved
  have hbeside := (hu.beside h.sane).trans
    (copyLoop_beside true h.inode e' (e' + 1) buf (le_refl (0 : Int)) hu.sane)
  rw [final_ok hs] at hbeside
  have hin := hbeside.inInd h.dir.1 h.dir.2 h.entryIn
  obtain ⟨v, hv⟩ := fileFlush_run hbeside.sane (by rw [hin]; exact h.inode)
    (fun p hp => hmoved.present p (by rw [hu.present]; exact hmap p hp)) h.entry_pos
  refine ⟨u, s, v, hu, hmoved, Keeps.of_ok hv, ?_⟩
  have hret : toS32 e' = e' := by
    unfold toS32
    split_ifs <;> omega
  rw [hrun, bind_ok hext, bind_ok hs, finishWrite, hret]
  exact bind_ok hv

/-- A short write at the start of the file replaces the bytes there and keeps the others. -/
theorem fileWrite_kept (h : Kept N path d e w) {buf n : Nat} (hn : n < MAXPATHLEN) (hbuf : Apart buf n)
    (hm : ∀ p ∈ pagesOf buf n, w.present p = true) : ∃ v, fileWrite e buf n 0 w = .ok n v ∧
      Kept N path d e v ∧ v.inInd e = w.inInd e ∧
      v.text (w.inInd e) = (List.range n).map (fun i => w.byte (buf + i)) ++ (w.text (w.inInd e)).drop n := by
  obtain ⟨t, hl, hmap, he⟩ := h.mapped
  have hq := hl.quiet
  obtain ⟨ht, hind, htext⟩ := h.alike (Alike.of_quiet hq)
  have hrun : fileWrite e buf n 0 w = fileWrite e buf n 0 t := bind_congr_run he
  obtain ⟨u, s, v, hu, hmoved, hqv, hv⟩ := ht.fileWrite_steps hmap hn hbuf
    fun p hp => hq.present p (hm p hp)
  rw [hind] at hu hmoved
  rw [← hq.byte, ← htext, ← hind, hrun]
  rw [← hind] at hu hmoved
  clear hrun htext hm he
  simp only [MAXPATHLEN] at hn
  have hcu := hu.cached
  rw [extended_grow _ _ (by omega)] at hcu
  have hslot (i j : Nat) : u.cached.slot i j = t.cached.slot i j := by
    rw [hcu]
    split_ifs <;> simp
  have hsize : (v.cached.inode (t.inInd e)).size = max (t.cached.inode (t.inInd e)).size n := by
    rw [hqv.cached, hmoved.size, hcu]
    split_ifs with hlt
    · simp [Meta.setSize, Meta.setInode]
      omega
    · omega
  have hbeside := fileWrite_beside ht.sane ht.inode (ht.entryIn.offMeta ht.sane ht.dir.1) ht.entry_pos buf n
    (le_refl (0 : Int))
  rw [final_ok hv] at hbeside
  have hfilled (p : Nat) (hp : p < n) : v.cached.slot (t.inInd e) (p / BLKSIZE) ≠ 0 := by
    rw [hqv.cached]
    exact hmoved.filled p (Nat.zero_le _) hp
  have hbacked : v.cached.slot (t.inInd e) 0 ≠ 0 ∨
      (v.cached.inode (t.inInd e)).size = 0 ∧ v.firstFree ≠ none := by
    rcases Nat.eq_zero_or_pos n with rfl | hpos
    · have hsame : v.cached = t.cached := by
        rw [hqv.cached, hmoved.idle fun p _ hp => absurd hp (Nat.not_lt_zero p), hcu, if_neg (Nat.not_lt_zero _)]
      rw [firstFree_congr ht.sane (by rw [hsame]) (by rw [hsame]), hsame]
      exact ht.backed
    · exact Or.inl (hfilled 0 hpos)
  obtain ⟨hkept, hindv⟩ := ht.beside hbeside hbacked
  refine ⟨v, hv, hkept, hindv, ?_⟩
  apply List.ext_getElem
  · rw [length_text, hsize]
    simp only [List.length_append, List.length_map, List.length_range, List.length_drop, length_text, MAXPATHLEN]
    omega
  intro p hp hp'
  rw [length_text, hsize] at hp
  simp only [MAXPATHLEN] at hp
  have hdiv : p / BLKSIZE = 0 := Nat.div_eq_of_lt (by simp only [BLKSIZE]; omega)
  rw [getElem_text, World.addrOf, hqv.cached, hqv.byte]
  by_cases hlt : p < n
  · rw [List.getElem_append_left (by simpa using hlt), List.getElem_map, List.getElem_range]
    have hm := hmoved.moved p (Nat.zero_le _) hlt
    simp only [World.target, World.source, if_true, Nat.sub_zero] at hm
    exact hm.trans (hu.byte _ (hbuf.offMeta (by omega)))
  · -- a position behind the write had its block before
    have hz : t.cached.slot (t.inInd e) (p / BLKSIZE) ≠ 0 := by
      rw [hdiv]
      exact ht.backed.resolve_right fun hs => by omega
    have hkeep : s.addrOf (t.inInd e) p = t.addrOf (t.inInd e) p := by
      rw [Moved.addrOf_kept hmoved.toFills (by rwa [hslot]), World.addrOf, World.addrOf, hslot]
    have hb := ht.sane.addrOf_bounds ht.inode hz
    have hstill := hmoved.still (t.addrOf (t.inInd e) p) (Or.inr hb.1) fun q _ hq he => by
      simp only [World.target, if_true] at he
      rw [← hkeep] at he
      have hpq := (hmoved.sane.addrOf_inj ht.inode ht.inode (by rw [hmoved.kept (by rwa [hslot]), hslot]; exact hz)
        he).2
      omega
    rw [List.getElem_append_right (by simpa using hlt)]
    simp only [List.length_map, List.length_range, List.getElem_drop]
    have hidx : n + (p - n) = p := by omega
    simp only [hidx, getElem_text]
    change s.byte (s.addrOf (t.inInd e) p) = _
    rw [hkeep, hstill]
    exact hu.byte _ (Or.inr hb.1)

private theorem fileRead_upto {w : World} (h : Sane N w) (hk : w.inInd e < N) (hm : EntryMapped e w)
    (buf count a : Nat) : fileRead e buf count a w =
      fileRead e buf (min count ((w.cached.inode (w.inInd e)).size - a)) a w := by
  have hsz : (w.cached.inode (w.inInd e)).size < 65536 := size_lt w _
  rw [fileRead_run h hk hm, fileRead_run h hk hm]
  generalize (w.cached.inode (w.inInd e)).size = size at *
  split_ifs with hend
  · rfl
  · have hc : min (min count (size - a)) (toU32 ((size : Int) - (a : Int))) =
        min count (toU32 ((size : Int) - (a : Int))) := by
      unfold toU32
      omega
    simp only [hc]

theorem fileRead_kept (h : Kept N path d e w) {buf count a : Nat} (ha : a + count ≤ MAXPATHLEN)
    (hbuf : Apart buf count) (hm : ∀ p ∈ pagesOf buf count, w.present p = true) : ∃ v,
      fileRead e buf count a w = .ok (min count ((w.cached.inode (w.inInd e)).size - a) : Nat) v ∧ Alike w v ∧
      ∀ i < min count ((w.cached.inode (w.inInd e)).size - a),
        v.byte (buf + i) = w.byte (w.addrOf (w.inInd e) (a + i)) := by
  simp only [MAXPATHLEN] at ha
  obtain ⟨t, hl, hmap, he⟩ := h.mapped
  have hq := hl.quiet
  obtain ⟨ht, hind, -⟩ := h.alike (Alike.of_quiet hq)
  have hrun : fileRead e buf count a w = fileRead e buf count a t := bind_congr_run he
  have haddr (p : Nat) : w.addrOf (t.inInd e) p = t.addrOf (t.inInd e) p := by
    rw [World.addrOf, World.addrOf, hq.cached]
  rw [hrun, fileRead_upto ht.sane ht.inode hmap, ← hq.cached, ← hq.byte, ← hind]
  simp only [haddr]
  have hsub : ∀ p ∈ pagesOf buf count, t.present p = true := fun p hp => hq.present p (hm p hp)
  generalize hc : min count ((t.cached.inode (t.inInd e)).size - a) = c
  have hbuf' : Apart buf c := by
    simp only [Apart] at *
    omega
  have hfilled (p : Nat) (hlo : a ≤ p) (hhi : p < a + c) :
      t.cached.slot (t.inInd e) (p / BLKSIZE) ≠ 0 := by
    have hdiv : p / BLKSIZE = 0 := Nat.div_eq_of_lt (by simp only [BLKSIZE]; omega)
    rw [hdiv]
    exact ht.backed.resolve_right fun hs => by omega
  obtain ⟨v, hv⟩ := fileRead_returns ht.sane ht.inode hmap (a := a) hbuf'
    (fun p hp => hsub p (pagesOf_subset le_rfl (by omega) p hp)) (by omega) hfilled
  obtain ⟨c', e', hc', -, hmoved, hok⟩ := fileRead_effect ht.sane ht.inode hmap (a := a) hbuf'
  obtain ⟨rfl, -⟩ := hok _ _ hv
  have hcc : c' = c := by omega
  subst hcc
  rw [final_ok hv] at hmoved
  refine ⟨v, hv, (Alike.of_quiet hq).trans ⟨?_, fun x hlo hhi => ?_, hmoved.present⟩, fun i hi => ?_⟩
  · exact hmoved.idle hfilled
  · refine hmoved.still x (Or.inr hlo) fun q hqlo hqhi hx => ?_
    simp only [World.target, Bool.false_eq_true, if_false] at hx
    simp only [Apart, blockVa, DISKMAP, DISKSIZE, BLKSIZE] at *
    omega
  · have hm' := hmoved.moved (a + i) (by omega) (by omega)
    simp only [World.target, World.source, Bool.false_eq_true, if_false, Nat.add_sub_cancel_left] at hm'
    rw [hm', Moved.addrOf_kept hmoved.toFills (hfilled _ (by omega) (by omega))]
    rfl

end Kept

/-- There is no file at `path` yet, but everything that a new one needs: a free entry, an empty inode
and a block. -/
structure Lacks (N : Nat) (path : List UInt8) (w : World) : Prop where
  orderly : Orderly N w
  nul : (0 : UInt8) ∉ path
  missing : ∃ d name e k, w.resolve path = .ok (.missing (inodeVa d) name) ∧ nameIsValid name = true ∧
    w.vacant d = some e ∧ w.firstInode = some k ∧ (w.cached.inode k).size = 0
  room : w.firstFree ≠ none

theorem Lacks.fileCreate {N : Nat} {path : List UInt8} {w : World} (h : Lacks N path w) : ∃ d e v,
    fileCreate path FTYPE_REG w = .ok e v ∧ Kept N path d e v ∧ v.text (v.inInd e) = [] := by
  obtain ⟨d, name, e, k, hr, hvalid, hv, hk, hsize⟩ := h.missing
  obtain ⟨s, s', v, hrun, heff⟩ := fileCreate_run h.orderly.tidy.within h.nul hr hvalid hv FTYPE_REG hk
    (fun hd => absurd hd (by decide))
  obtain ⟨d', name', k', hr', hc, htrail⟩ := fileCreate_created h.orderly.tidy.within h.nul hrun
  rw [hr] at hr'
  simp only [Except.ok.injEq, Walk.missing.injEq] at hr'
  obtain rfl := inodeVa_inj hr'.1
  have hslash : path.head? = some slash := by
    unfold World.resolve at hr
    split_ifs at hr with hs
    exact hs
  have hcached : v.cached = ((w.cached.bumped d).setInOcp k true).setType k (FTYPE_REG % 65536) := heff.cached
  have hkk : k' = k := by
    have hocp := hc.taken
    rw [hcached] at hocp
    have hocp' : Function.update w.cached.inOcp k true k' = true := hocp
    by_contra hne
    rw [Function.update_of_ne hne, hc.free] at hocp'
    cases hocp'
  subst hkk
  have hsz : (v.cached.inode k').size = 0 := by
    rw [hcached]
    simp [Meta.setType, Meta.setInOcp, Meta.bumped, Meta.setSize, Meta.setInode, hc.dir.2.symm, hsize]
  have hfree : v.firstFree = w.firstFree :=
    firstFree_congr h.orderly.sane (by rw [hcached]; rfl) (by rw [hcached]; rfl)
  refine ⟨d, e, v, hrun, ⟨hc.sane, hslash, htrail, ?_, hc.entryIn, ?_, ?_, Or.inr ⟨?_, ?_⟩⟩, ?_⟩
  · rw [hc.inode.2]
    exact hc.dir
  · rw [hc.inode.2]
    exact hc.inode.1
  · rw [hc.inode.2, World.IsDir, hc.type]
    decide
  · rw [hc.inode.2, hsz]
  · rw [hfree]
    exact h.room
  · rw [hc.inode.2, World.text, hsz]
    rfl

theorem Lacks.alike {N : Nat} {path : List UInt8} {w v : World} (h : Lacks N path w) (ha : Alike w v) :
    Lacks N path v := by
  obtain ⟨d, name, e, k, hr, hvalid, hv, hk, hsize⟩ := h.missing
  obtain ⟨i, hi, hdir, -, he, -⟩ := resolve_placed h.orderly.tidy h.nul hr
  obtain rfl := inodeVa_inj he
  refine ⟨ha.orderly h.orderly, h.nul, ⟨d, name, e, k, ?_, hvalid, ?_, ?_, ?_⟩, ?_⟩
  · rw [ha.resolve h.orderly h.nul]
    exact hr
  · rw [ha.vacant h.orderly hi hdir]
    exact hv
  · rw [firstInode_congr h.orderly.sane (by rw [ha.cached]) (by rw [ha.cached])]
    exact hk
  · rw [ha.cached]
    exact hsize
  · rw [ha.firstFree h.orderly.sane]
    exact h.room

end DamnOS.FileSystem
