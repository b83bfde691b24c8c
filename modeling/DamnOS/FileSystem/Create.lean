import DamnOS.FileSystem.Buffers
import DamnOS.FileSystem.Directory

/-!
# Creating a file, exactly

In a tidy state whose directory has an entry without a name, `file_create` is an explicit change
of metadata and directory blocks, or fails with an explicit remainder.
-/

namespace DamnOS.FileSystem

open DamnOS.Framework

/-- A run has led from `w` to the metadata `m`, to the bytes `g` elsewhere, and has recorded the
accesses `xs`. -/
structure Effect (N : Nat) (m : Meta) (g : Nat → UInt8) (xs : List Access) (w v : World) : Prop where
  sane : Sane N v
  cached : v.cached = m
  byte : ∀ x, OffMeta x → v.byte x = g x
  present : ∀ p, w.present p = true → v.present p = true
  accesses : v.accesses = xs ++ w.accesses

namespace Effect

variable {N : Nat} {m : Meta} {g : Nat → UInt8} {xs : List Access} {w v u : World}

theorem refl (h : Sane N w) : Effect N w.cached w.byte [] w w :=
  ⟨h, rfl, fun _ _ => rfl, fun _ hp => hp, rfl⟩

theorem quiet (h : Effect N m g xs w v) (hq : Quiet v u) (ha : u.accesses = v.accesses) :
    Effect N m g xs w u where
  sane := hq.sane h.sane
  cached := hq.cached.trans h.cached
  byte x hx := by
    rw [hq.byte]
    exact h.byte x hx
  present p hp := hq.present p (h.present p hp)
  accesses := ha.trans h.accesses

theorem log (h : Effect N m g xs w v) (x : Access) : Effect N m g (x :: xs) w (v.log x) where
  sane := h.sane.of_cached (h.sane.ready.of_present rfl) (cached_of_byte rfl)
  cached := (cached_of_byte rfl).trans h.cached
  byte := h.byte
  present := h.present
  accesses := congrArg (x :: ·) h.accesses

theorem store (h : Effect N m g xs w v) {b a n : Nat} (hb : 2 ≤ b) (hlt : b < m.blkNum)
    (ho : m.blkOcp b = true) (hlo : blockVa b ≤ a) (hhi : a + n ≤ blockVa b + BLKSIZE)
    (f : Nat → UInt8) : ∃ u, FileSystem.store a n f v = .ok () u ∧ Effect N m (splice g a n f) xs w u ∧
      ∀ p ∈ pagesOf a n, u.present p = true := by
  rw [← h.cached] at hlt ho
  obtain ⟨t, ht⟩ := touch_marked hlt (lt_of_lt_of_le hlt h.sane.owned.blkNum_le) ho hlo hhi
  obtain ⟨hl, hp⟩ := touch_ok ht
  have hq := hl.quiet
  have hbytes := byte_write t a n f (present_bytes hp)
  have hcached : (t.write a n f).cached = t.cached :=
    cached_write_data (present_bytes hp) (Or.inr ((blockVa_mono hb).trans hlo))
  refine ⟨t.write a n f, bind_ok ht, ⟨?_, ?_, ?_, ?_, ?_⟩, hp⟩
  · exact (hq.sane h.sane).of_cached ((hq.sane h.sane).ready.of_present rfl) hcached
  · rw [hcached, hq.cached, h.cached]
  · intro x hx
    rw [hbytes, hq.byte, splice, splice, h.byte x hx]
  · exact fun p hpp => hq.present p (h.present p hpp)
  · exact hl.accesses.trans h.accesses

theorem change (h : Effect N m g xs w v) {m' : Meta} (hs : Sane N u) (hc : u.cached = m')
    (hb : ∀ x, OffMeta x → u.byte x = v.byte x) (hp : u.present = v.present)
    (ha : u.accesses = v.accesses) : Effect N m' g xs w u where
  sane := hs
  cached := hc
  byte x hx := (hb x hx).trans (h.byte x hx)
  present p hpp := by
    rw [hp]
    exact h.present p hpp
  accesses := ha.trans h.accesses

section Inode

variable (h : Effect N m g xs w v) {k : Nat} (hk : k < N)
include h hk

theorem setSize (n : Nat) :
    Effect N (m.setSize k (n % 65536)) g xs w (v.setCell (inodeVa k + offSize) n) := by
  have hk' := h.sane.lt hk
  refine h.change (Step.sane (S := Scope.all) (.size k n trivial hk) h.sane) ?_ ?_ rfl rfl
  · rw [World.setCell, cached_setSize h.sane.ready hk', h.cached]
  · exact fun x hx => byte_setCell_off hx hk' (by decide) n

theorem setBlkUsed (n : Nat) :
    Effect N (m.setBlkUsed k (n % 65536)) g xs w (v.setCell (inodeVa k + offBlkUsed) n) := by
  have hk' := h.sane.lt hk
  refine h.change (Step.sane (S := Scope.all) (.used k n trivial hk) h.sane) ?_ ?_ rfl rfl
  · rw [World.setCell, cached_setBlkUsed h.sane.ready hk', h.cached]
  · exact fun x hx => byte_setCell_off hx hk' (by decide) n

theorem setType (n : Nat) :
    Effect N (m.setType k (n % 65536)) g xs w (v.setCell (inodeVa k + offType) n) := by
  have hk' := h.sane.lt hk
  refine h.change (Step.sane (S := Scope.all) (.type k n trivial hk) h.sane) ?_ ?_ rfl rfl
  · rw [World.setCell, cached_setType h.sane.ready hk', h.cached]
  · exact fun x hx => byte_setCell_off hx hk' (by decide) n

theorem markInode (ho : m.inOcp k = false) :
    Effect N (m.setInOcp k true) g xs w (v.markInode k) := by
  have hk' := h.sane.lt hk
  rw [← h.cached] at ho
  refine h.change (Step.sane (S := Scope.all) (.markInode k hk ho) h.sane) ?_ ?_ ?_ ?_
  · rw [cached_markInode h.sane.ready hk', h.cached]
  · exact fun x hx => byte_markInode_off hx hk'
  · exact present_markInode v k
  · simp [World.markInode, World.write]

theorem unmarkInode : Effect N (m.setInOcp k false) g xs w (v.unmarkInode k) := by
  have hk' := h.sane.lt hk
  refine h.change (Step.sane (S := Scope.all) (.unmarkInode k hk) h.sane) ?_ ?_ ?_ ?_
  · rw [cached_unmarkInode h.sane.ready hk', h.cached]
  · exact fun x hx => byte_unmarkInode_off hx hk'
  · exact present_unmarkInode v k
  · simp [World.unmarkInode, World.write]

theorem acquire {j b : Nat} (hj : j < NDIRECT) (hz : m.slot k j = 0) (hf : v.firstFree = some b) :
    fileGetBlock (inodeVa k) j v = .ok (blockVa b) ((v.acquire k j b).flush inodePg) ∧
      Effect N (((m.setBlkOcp b true).setSlot k j b).setBlkUsed k (((m.inode k).blkUsed + 1) % 65536))
        g xs w ((v.acquire k j b).flush inodePg) := by
  have hk' := h.sane.lt hk
  have hb := h.sane.firstFree hf
  rw [← h.cached] at hz ⊢
  refine ⟨fileGetBlock_empty h.sane.ready hk' hj hz hf hb.1 hb.2.1, ?_⟩
  refine h.change ?_ ?_ ?_ ?_ ?_
  · exact Step.sane (S := Scope.all) (.flush _ (by decide))
      (Step.sane (S := Scope.all) (.acquire k j b trivial hk hj hz hf) h.sane)
  · rw [cached_flush _ (by decide), cached_acquire h.sane.ready hk' hj hb.1]
  · intro x hx
    rw [byte_flush _ _ (by decide), byte_acquire_off hx hk' hj hb.1]
  · rw [present_flush, present_acquire]
  · simp [World.acquire, World.markBlock, World.setCell, World.write]

end Inode

end Effect

def World.firstInode (w : World) : Option Nat := (List.range w.inNum).find? w.inodeIsFree

theorem firstFree_congr {N : Nat} {w v : World} (h : Sane N w) (hn : v.cached.blkNum = w.cached.blkNum)
    (ho : v.cached.blkOcp = w.cached.blkOcp) : v.firstFree = w.firstFree := by
  rw [World.firstFree, World.firstFree, blkNum_cached, blkNum_cached, hn]
  refine List.find?_congr fun b hb => ?_
  have hb' : b < MAXBLKNUM := lt_of_lt_of_le (List.mem_range.mp hb) h.owned.blkNum_le
  rw [Bool.eq_iff_iff, blockIsFree_iff v hb', blockIsFree_iff w hb', hn, ho]

theorem firstInode_congr {N : Nat} {w v : World} (h : Sane N w) (hn : v.cached.inNum = w.cached.inNum)
    (ho : v.cached.inOcp = w.cached.inOcp) : v.firstInode = w.firstInode := by
  rw [World.firstInode, World.firstInode, inNum_cached, inNum_cached, hn]
  refine List.find?_congr fun k hk => ?_
  have hk' : k < MAXINODENUM := h.lt (lt_of_lt_of_le (List.mem_range.mp hk) h.inNum)
  rw [Bool.eq_iff_iff, inodeIsFree_iff v hk', inodeIsFree_iff w hk', hn, ho]

theorem Sane.firstInode {N : Nat} {w : World} (h : Sane N w) {k : Nat} (hf : w.firstInode = some k) :
    k < N ∧ w.cached.inOcp k = false := by
  have hm := List.mem_of_find?_eq_some hf
  have ht := List.find?_some hf
  rw [List.mem_range, inNum_cached] at hm
  have hk := lt_of_lt_of_le hm h.inNum
  exact ⟨hk, ((inodeIsFree_iff w (h.lt hk)).mp ht).2⟩

/-- The metadata after `dir_alloc_entry` took an entry of `d`. -/
def Meta.bumped (m : Meta) (d : Nat) : Meta :=
  m.setSize d (((m.inode d).size + DIRESIZE) % 65536)

instance unlogged_dirScan (dir : Nat) (test : World → Nat → Bool) (i n : Nat) :
    Keeps Unlogged (dirScan dir test i n) := by
  induction n generalizing i with
  | zero => exact Keeps.ret _
  | succ n ih =>
    unfold dirScan
    refine Keeps.andThen fun blk => Keeps.andThen fun _ => Keeps.andThen fun w => ?_
    cases (List.range BLKFILES).find? (fun j => test w (blk + DIRESIZE * j)) with
    | none => exact ih (i + 1)
    | some j => exact Keeps.ret _

instance unlogged_walkLoop (fuel : Nat) (path : List UInt8) (f dir entry : Nat) :
    Keeps Unlogged (walkLoop fuel path f dir entry) := by
  induction fuel generalizing path f dir entry with
  | zero => exact Keeps.stop _
  | succ fuel ih =>
    have hlook : Keeps Unlogged (dirLookup f (path.takeWhile (· != slash))) := by
      unfold dirLookup
      infer_instance
    unfold walkLoop
    dsimp only
    split
    · infer_instance
    split
    · infer_instance
    refine Keeps.andThen fun type => ?_
    split
    · infer_instance
    refine Keeps.andThen fun found => ?_
    split <;> infer_instance

instance unlogged_walkPath (path : List UInt8) : Keeps Unlogged (walkPath path) := by
  unfold walkPath
  infer_instance

/-- The slots that inode `d` counts are filled. -/
def World.Filled (w : World) (d : Nat) : Prop :=
  ∀ j, j < (w.cached.inode d).blkUsed → w.cached.slot d j ≠ 0

theorem Quiet.filled {w v : World} (h : Quiet w v) {d : Nat} (hd : w.Filled d) : v.Filled d := by
  intro j hj
  rw [h.cached] at hj ⊢
  exact hd j hj

theorem Sane.vacant_run {N : Nat} {w : World} (h : Sane N w) {d : Nat} (hd : d < N) (hfill : w.Filled d) :
    ∃ t, dirScan (inodeVa d) (fun w a => w.byte a == 0) 0 (w.cached.inode d).blkUsed w =
      .ok (w.vacant d) t ∧ Quiet w t := by
  obtain ⟨t, ht, hq, -⟩ := dirScan_run h.ready (h.lt hd) (fun w a => w.byte a == 0)
    (fun w v hb => by rw [hb]) (w.cached.inode d).blkUsed 0 fun j _ hj => h.holds hd (hfill j (by omega))
  rw [← List.range_eq_range'] at ht
  exact ⟨t, ht, hq⟩

/-- An entry without a name is handed out, and the size of the directory grows. -/
theorem dirAllocEntry_run {N : Nat} {w : World} (h : Sane N w) {d e : Nat} (hd : d < N)
    (hfill : w.Filled d) (hv : w.vacant d = some e) : ∃ v, dirAllocEntry (inodeVa d) w = .ok e v ∧
      Effect N (w.cached.bumped d) w.byte [] w v := by
  have hused := load16_blkUsed h.ready (h.lt hd)
  obtain ⟨t, ht, hq⟩ := h.vacant_run hd hfill
  rw [hv] at ht
  have hun : Unlogged w t := Keeps.of_ok ht
  have heff := (Effect.refl h).quiet hq hun
  have hsize := load16_size heff.sane.ready (heff.sane.lt hd)
  have hstore := store16_field heff.sane.ready (heff.sane.lt hd) (o := offSize) (by decide)
    ((t.cached.inode d).size + DIRESIZE)
  have hbump : bumpSize (inodeVa d) t = .ok () (t.setCell (inodeVa d + offSize)
      ((t.cached.inode d).size + DIRESIZE)) := (bind_ok hsize).trans hstore
  refine ⟨_, (bind_ok hused).trans ((bind_ok ht).trans ((bind_ok hbump).trans rfl)), ?_⟩
  have hres := heff.setSize hd ((t.cached.inode d).size + DIRESIZE)
  rwa [hq.cached] at hres ⊢

/-- The bytes after `".."` and `"."` were put into block `b`. -/
def dotEntries (g : Nat → UInt8) (b k : Nat) : Nat → UInt8 :=
  splice (splice (splice (splice g (blockVa b) 3 fun i => [46, 46].getD i 0)
    (blockVa b + DIRESIZE) 2 fun i => [46].getD i 0)
    (blockVa b + DIRESIZE + offInInd) 2 (leByte k)) (blockVa b + offInInd) 2 (leByte k)

/-- The metadata after a new directory `k` got block `b`. -/
def Meta.newDir (m : Meta) (k b : Nat) : Meta :=
  (((m.setBlkOcp b true).setSlot k 0 b).setBlkUsed k (((m.inode k).blkUsed + 1) % 65536)).setSize k
    (2 * DIRESIZE)

section InitDir

variable {N : Nat} {m : Meta} {g : Nat → UInt8} {xs : List Access} {w v : World}
  (h : Effect N m g xs w v) {k : Nat} (hk : k < N) (hz : m.slot k 0 = 0)
include h hk hz

theorem initDir_run {b : Nat} (hf : v.firstFree = some b) : ∃ s u, initDir k v = .ok () u ∧
    Effect N (m.newDir k b) (dotEntries g b k) (.entry s (blockVa b) (2 * DIRESIZE) :: xs) w u := by
  have hb := h.sane.firstFree hf
  obtain ⟨hget, h1⟩ := h.acquire hk (by decide) hz hf
  have hfit : blockVa b + 2 * DIRESIZE ≤ blockVa b + BLKSIZE := Nat.add_le_add_left (by decide) _
  have hnum : b < (((m.setBlkOcp b true).setSlot k 0 b).setBlkUsed k
      (((m.inode k).blkUsed + 1) % 65536)).blkNum := by
    rw [← h.cached]
    exact hb.2.1
  have hocp : (((m.setBlkOcp b true).setSlot k 0 b).setBlkUsed k
      (((m.inode k).blkUsed + 1) % 65536)).blkOcp b = true := by
    simp [Meta.setBlkUsed, Meta.setSlot, Meta.setInode, Meta.setBlkOcp]
  have h2 := h1.log (.entry (((v.acquire k 0 b).flush inodePg).slotsOf (inodeVa k)) (blockVa b)
    (2 * DIRESIZE))
  have hin (o n : Nat) (hn : o + n ≤ 2 * DIRESIZE) : blockVa b + o + n ≤ blockVa b + BLKSIZE := by
    omega
  obtain ⟨u3, hu3, h3, -⟩ := h2.store hb.2.2.2 hnum hocp (a := blockVa b) le_rfl (hin 0 3 (by decide))
    fun i => [46, 46].getD i 0
  obtain ⟨u4, hu4, h4, -⟩ := h3.store hb.2.2.2 hnum hocp (a := blockVa b + DIRESIZE)
    (Nat.le_add_right _ _) (hin _ 2 (by decide)) fun i => [46].getD i 0
  obtain ⟨u5, hu5, h5, -⟩ := h4.store hb.2.2.2 hnum hocp (a := blockVa b + DIRESIZE + offInInd)
    (by omega) (by rw [Nat.add_assoc (blockVa b)]; exact hin _ 2 (by decide)) (leByte k)
  obtain ⟨u6, hu6, h6, -⟩ := h5.store hb.2.2.2 hnum hocp (a := blockVa b + offInInd)
    (Nat.le_add_right _ _) (hin _ 2 (by decide)) (leByte k)
  have hstore := store16_field h6.sane.ready (h6.sane.lt hk) (o := offSize) (by decide) (2 * DIRESIZE)
  refine ⟨_, _, ?_, h6.setSize hk (2 * DIRESIZE)⟩
  rw [initDir, bind_ok (attempt_ok hget)]
  exact (bind_ok (modify_run _ _)).trans ((bind_ok hu3).trans ((bind_ok hu4).trans
    ((bind_ok hu5).trans ((bind_ok hu6).trans hstore))))

theorem initDir_full (h0 : k ≠ 0) (hf : v.firstFree = none) :
    initDir k v = .error (.err .noDisk) (v.unmarkInode k) := by
  rw [← h.cached] at hz
  have hget := fileGetBlock_full h.sane.ready (h.sane.lt hk) (by decide) hz hf
  rw [initDir, bind_ok (attempt_err hget)]
  exact bind_ok (freeInode_run h.sane.ready h0 (h.sane.lt hk))

end InitDir

/-- The bytes after the entry `e` was filled. -/
def newEntry (g : Nat → UInt8) (e : Nat) (name : List UInt8) (k : Nat) : Nat → UInt8 :=
  splice (splice g e (name.length + 1) fun i => name.getD i 0) (e + offInInd) 2 (leByte k)

theorem newEntry_outside (g : Nat → UInt8) {e : Nat} {name : List UInt8} (hlen : name.length < MAXNAMELEN)
    (k : Nat) {x : Nat} (hx : x < e ∨ e + DIRESIZE ≤ x) : newEntry g e name k x = g x := by
  simp only [MAXNAMELEN, DIRESIZE] at hlen hx
  rw [newEntry, splice_outside _ _ (by simp only [offInInd]; omega), splice_outside _ _ (by omega)]

theorem newEntry_inInd (g : Nat → UInt8) (e : Nat) (name : List UInt8) {k : Nat} (hk : k < 65536) :
    u16 (newEntry g e name k) (e + offInInd) = k := by
  rw [newEntry, u16_splice_same, Nat.mod_eq_of_lt hk]

theorem inInd_congr {w : World} {g : Nat → UInt8} {e : Nat} (h0 : w.byte (e + offInInd) = g (e + offInInd))
    (h1 : w.byte (e + offInInd + 1) = g (e + offInInd + 1)) : w.inInd e = u16 g (e + offInInd) :=
  u16_congr h0 h1

theorem fillEntry_run {N : Nat} {m : Meta} {g : Nat → UInt8} {xs : List Access} {w v : World}
    (h : Effect N m g xs w v) {k : Nat} (hk : k < N) {b e : Nat} (hb : 2 ≤ b) (hlt : b < m.blkNum)
    (ho : m.blkOcp b = true) (hlo : blockVa b ≤ e) (hhi : e + DIRESIZE ≤ blockVa b + BLKSIZE)
    {name : List UInt8} (hlen : name.length < MAXNAMELEN) (dir type : Nat) : ∃ s u, (do
      recordEntry dir e DIRESIZE
      strcpy e name
      store16 (e + offInInd) k
      store16 (inodeVa k + offType) type
      fileFlush e
      pure e : M Nat) v = .ok e u ∧
    Effect N (m.setType k (type % 65536)) (newEntry g e name k) (.entry s e DIRESIZE :: xs) w u := by
  have hin (o n : Nat) (hn : o + n ≤ DIRESIZE) : e + o + n ≤ blockVa b + BLKSIZE := by omega
  have hname : 0 + (name.length + 1) ≤ DIRESIZE := by
    simp only [MAXNAMELEN, DIRESIZE] at *
    omega
  have h1 := h.log (.entry (v.slotsOf dir) e DIRESIZE)
  obtain ⟨u2, hu2, h2, -⟩ := h1.store hb hlt ho hlo (hin 0 _ hname) fun i => name.getD i 0
  obtain ⟨u3, hu3, h3, hp3⟩ := h2.store hb hlt ho (a := e + offInInd) (by omega)
    (hin _ 2 (by decide)) (leByte k)
  have hstore := store16_field h3.sane.ready (h3.sane.lt hk) (o := offType) (by decide) type
  have h4 := h3.setType hk type
  have hoff (o : Nat) : OffMeta (e + o) := by
    right
    have h2b := blockVa_mono hb
    omega
  have hind : (u3.setCell (inodeVa k + offType) type).inInd e = k := by
    have hk' := h3.sane.lt hk
    rw [inInd_congr (h4.byte _ (hoff _)) (h4.byte _ (hoff (offInInd + 1))), u16_splice_same]
    simp only [MAXINODENUM] at hk'
    omega
  have hmap : DISKMAP ≤ e ∧ e < DISKMAP + DISKSIZE := by
    have hmax := lt_of_lt_of_le hlt (h.cached ▸ h.sane.owned.blkNum_le)
    simp only [blockVa, DISKMAP, DISKSIZE, BLKSIZE, DIRESIZE, MAXBLKNUM] at *
    omega
  obtain ⟨u5, hu5⟩ := fileFlush_run h4.sane (by rw [hind]; exact hk) (fun p hp => hp3 p hp) hmap
  refine ⟨_, u5, ?_, h4.quiet (Keeps.of_ok hu5) (Keeps.of_ok (R := Unlogged) hu5)⟩
  exact (bind_ok (modify_run _ v)).trans ((bind_ok hu2).trans ((bind_ok hu3).trans
    ((bind_ok hstore).trans ((bind_ok hu5).trans rfl))))

/-- The metadata after inode `k` was created in the directory `d`; a new directory has block
`blk`. -/
def Meta.created (m : Meta) (d k type : Nat) : Option Nat → Meta
  | none => ((m.bumped d).setInOcp k true).setType k (type % 65536)
  | some b => (((m.bumped d).setInOcp k true).newDir k b).setType k (type % 65536)

def createdBytes (g : Nat → UInt8) (e k : Nat) (name : List UInt8) : Option Nat → Nat → UInt8
  | none => newEntry g e name k
  | some b => newEntry (dotEntries g b k) e name k

/-- The block that a new inode of this type starts with. -/
def World.startBlock (w : World) (type : Nat) : Option Nat :=
  if type = FTYPE_DIR then w.firstFree else none

theorem inodeVa_inj {i j : Nat} (h : inodeVa i = inodeVa j) : i = j := by
  simp only [inodeVa, INSIZE] at h
  omega

private theorem Sane.entry_block {N : Nat} {w : World} (h : Sane N w) {d e : Nat} (hd : d < N)
    (hfill : w.Filled d) (he : e ∈ w.entries d) : ∃ b, 2 ≤ b ∧ b < w.cached.blkNum ∧
      w.cached.blkOcp b = true ∧ blockVa b ≤ e ∧ e + DIRESIZE ≤ blockVa b + BLKSIZE := by
  obtain ⟨j, hj, s, hs, rfl⟩ := mem_entries.mp he
  have hv := h.slot_valid hd (hfill j hj)
  refine ⟨_, hv.1, hv.2.1, hv.2.2, Nat.le_add_right _ _, ?_⟩
  simp only [BLKFILES, DIRESIZE, BLKSIZE] at *
  omega

section Create

variable {N : Nat} {D : Nat → Prop} {w : World} (h : TidyIn N D w) {path : List UInt8}
  (h0 : (0 : UInt8) ∉ path)
include h h0

theorem fileCreate_refused (type : Nat) (hr : ∀ d name, w.resolve path = .ok (.missing d name) →
    nameIsValid name = false) : ∃ e v, fileCreate path type w = .error (.err e) v ∧ Quiet w v := by
  obtain ⟨t, hq, ht⟩ := h.walkable.walkPath_run h0
  cases hres : w.resolve path with
  | error e =>
    rw [hres] at ht
    exact ⟨e, t, bind_error ht, hq⟩
  | ok r =>
    rw [hres] at ht
    cases r with
    | found dir f => exact ⟨.fileExists, t, bind_ok ht, hq⟩
    | missing dir name =>
      refine ⟨.badName, t, (bind_ok ht).trans ?_, hq⟩
      dsimp only
      rw [if_pos (hr dir name hres)]
      rfl

variable {d e : Nat} {name : List UInt8} (hr : w.resolve path = .ok (.missing (inodeVa d) name))
  (hvalid : nameIsValid name = true) (hv : w.vacant d = some e) (type : Nat)
include hr hvalid hv

private theorem fileCreate_start : d < N ∧ w.Filled d ∧ w.cached.inOcp d = true ∧
    name.length < MAXNAMELEN ∧ ∃ v, Effect N (w.cached.bumped d) w.byte [] w v ∧
      fileCreate path type w = (do
        let inodeno ← allocInode
        onlyIf (type = FTYPE_DIR) (initDir inodeno)
        recordEntry (inodeVa d) e DIRESIZE
        strcpy e name
        store16 (e + offInInd) inodeno
        store16 (inodeVa inodeno + offType) type
        fileFlush e
        pure e) v := by
  obtain ⟨t, hq, ht⟩ := h.walkable.walkPath_run h0
  obtain ⟨i, hi, hdir, ho, he, -, -, hlen, -⟩ := resolve_placedIn h h0 hr
  obtain rfl := inodeVa_inj he
  have hd := h.lt d hi
  have hfill : w.Filled d := fun j => h.filled d j hi hdir
  rw [hr] at ht
  have hvt : t.vacant d = some e := by
    rw [World.vacant, entries_of_byte hq.byte, hq.byte]
    exact hv
  obtain ⟨v, hrun, heff⟩ := dirAllocEntry_run (hq.sane h.sane) hd (hq.filled hfill) hvt
  refine ⟨hd, hfill, ho, hlen, v, ?_, ?_⟩
  · have hun : Unlogged w t := Keeps.of_ok ht
    rw [hq.cached, hq.byte] at heff
    exact ⟨heff.sane, heff.cached, heff.byte, fun p hp => heff.present p (hq.present p hp),
      heff.accesses.trans hun⟩
  · refine (bind_ok ht).trans ?_
    dsimp only
    rw [if_neg (by simp [hvalid])]
    exact bind_ok hrun

theorem fileCreate_noInode (hk : w.firstInode = none) : ∃ v,
    fileCreate path type w = .error (.err .noInode) v ∧ Effect N (w.cached.bumped d) w.byte [] w v := by
  obtain ⟨-, -, -, -, v, heff, hrun⟩ := fileCreate_start h h0 hr hvalid hv type
  have hnone : v.firstInode = none := by
    rw [firstInode_congr h.sane (by rw [heff.cached]; rfl) (by rw [heff.cached]; rfl), hk]
  exact ⟨v, hrun.trans (bind_error (allocInode_none hnone)), heff⟩

variable {k : Nat} (hk : w.firstInode = some k)
include hk

private theorem fileCreate_inode : d < N ∧ w.Filled d ∧ name.length < MAXNAMELEN ∧ k < N ∧ k ≠ d ∧
    k ≠ 0 ∧ ((w.cached.bumped d).setInOcp k true).slot k 0 = 0 ∧
    ∃ v, v.firstFree = w.firstFree ∧
      Effect N ((w.cached.bumped d).setInOcp k true) w.byte [] w v ∧ fileCreate path type w = (do
        onlyIf (type = FTYPE_DIR) (initDir k)
        recordEntry (inodeVa d) e DIRESIZE
        strcpy e name
        store16 (e + offInInd) k
        store16 (inodeVa k + offType) type
        fileFlush e
        pure e) v := by
  obtain ⟨hd, hfill, hocp, hlen, v, heff, hrun⟩ := fileCreate_start h h0 hr hvalid hv type
  obtain ⟨hkN, hfree⟩ := h.sane.firstInode hk
  have hkd : k ≠ d := by
    rintro rfl
    rw [hocp] at hfree
    cases hfree
  have hk0 : k ≠ 0 := by
    rintro rfl
    rw [h.inUse h.sane.pos (root_of_missing hr)] at hfree
    cases hfree
  have hsome : v.firstInode = some k := by
    rw [firstInode_congr h.sane (by rw [heff.cached]; rfl) (by rw [heff.cached]; rfl), hk]
  have hmark := heff.markInode hkN hfree
  refine ⟨hd, hfill, hlen, hkN, hkd, hk0, ?_, v.markInode k, ?_, hmark, ?_⟩
  · rw [slot_setInOcp, Meta.bumped, slot_setSize]
    exact (h.unused k hkN hfree).2.2 0
  · exact firstFree_congr h.sane (by rw [hmark.cached]; rfl) (by rw [hmark.cached]; rfl)
  · exact hrun.trans (bind_ok (allocInode_some heff.sane.ready hsome (heff.sane.lt hkN)))

/-- A directory for which there is no block is not created; the size of its parent stays. -/
theorem fileCreate_noDisk (hdir : type = FTYPE_DIR) (hb : w.firstFree = none) : ∃ v,
    fileCreate path type w = .error (.err .noDisk) v ∧
      Effect N (((w.cached.bumped d).setInOcp k true).setInOcp k false) w.byte [] w v := by
  obtain ⟨-, -, -, hkN, -, hk0, hz, v, hfree, heff, hrun⟩ := fileCreate_inode h h0 hr hvalid hv type hk
  have hinit := initDir_full heff hkN hz hk0 (hfree.trans hb)
  refine ⟨_, hrun.trans (bind_error ?_), heff.unmarkInode hkN⟩
  rw [onlyIf, if_pos hdir]
  exact hinit

/-- The accesses that a creation records, latest first. -/
def createdAccesses (s s' : List Nat) (e : Nat) : Option Nat → List Access
  | none => [.entry s e DIRESIZE]
  | some b => [.entry s e DIRESIZE, .entry s' (blockVa b) (2 * DIRESIZE)]

theorem fileCreate_run (hb : type = FTYPE_DIR → w.firstFree ≠ none) : ∃ s s' v,
    fileCreate path type w = .ok e v ∧
      Effect N (w.cached.created d k type (w.startBlock type))
        (createdBytes w.byte e k name (w.startBlock type)) (createdAccesses s s' e (w.startBlock type))
        w v := by
  obtain ⟨hd, hfill, hlen, hkN, hkd, hk0, hz, v, hfree, heff, hrun⟩ :=
    fileCreate_inode h h0 hr hvalid hv type hk
  obtain ⟨c, hc2, hcn, hco, hlo, hhi⟩ := h.sane.entry_block hd hfill (List.mem_of_find?_eq_some hv)
  unfold World.startBlock
  by_cases hdir : type = FTYPE_DIR
  · rw [if_pos hdir]
    obtain ⟨b, hsome⟩ := Option.ne_none_iff_exists'.mp (hb hdir)
    obtain ⟨s', u, hinit, hu⟩ := initDir_run heff hkN hz (hfree.trans hsome)
    have hcu : (((w.cached.bumped d).setInOcp k true).newDir k b).blkOcp c = true := by
      change Function.update w.cached.blkOcp b true c = true
      rw [Function.update_apply]
      split_ifs
      · rfl
      · exact hco
    obtain ⟨s, u', hfill, hu'⟩ := fillEntry_run hu hkN hc2 hcn hcu hlo hhi hlen (inodeVa d) type
    rw [hsome]
    refine ⟨s, s', u', hrun.trans ?_, hu'⟩
    rw [onlyIf, if_pos hdir]
    exact (bind_ok hinit).trans hfill
  · rw [if_neg hdir]
    obtain ⟨s, u', hfill, hu'⟩ := fillEntry_run heff hkN hc2 hcn hco hlo hhi hlen (inodeVa d) type
    refine ⟨s, [], u', hrun.trans ?_, hu'⟩
    rw [onlyIf, if_neg hdir]
    exact (bind_ok (pure_run _ v)).trans hfill

end Create

end DamnOS.FileSystem
