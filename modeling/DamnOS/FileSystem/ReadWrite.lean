import DamnOS.FileSystem.Offsets
import DamnOS.FileSystem.Moved

/-!
# Reading what was written

A write inside the limits of a file extends the size if necessary, moves the buffer to the
positions of the file, and touches no other position.  A read moves positions to the buffer.
-/

namespace DamnOS.FileSystem

open DamnOS.Framework

/-- `f` is an entry of the directory whose inode is `d`. -/
def World.EntryIn (w : World) (d f : Nat) : Prop :=
  ∃ j e, w.cached.slot d j ≠ 0 ∧ e < BLKFILES ∧ f = blockVa (w.cached.slot d j) + DIRESIZE * e

namespace World.EntryIn

variable {N : Nat} {w : World} {d f : Nat}

theorem position (h : w.EntryIn d f) {x : Nat} (hlo : f ≤ x) (hhi : x < f + DIRESIZE) :
    ∃ p, w.cached.slot d (p / BLKSIZE) ≠ 0 ∧ x = w.addrOf d p := by
  obtain ⟨j, e, hz, he, rfl⟩ := h
  have hin : x - blockVa (w.cached.slot d j) < BLKSIZE := by
    simp only [DIRESIZE, BLKFILES, BLKSIZE] at *
    omega
  have hdiv : (j * BLKSIZE + (x - blockVa (w.cached.slot d j))) / BLKSIZE = j := by
    simp only [BLKSIZE] at *
    omega
  have hmod : (j * BLKSIZE + (x - blockVa (w.cached.slot d j))) % BLKSIZE =
      x - blockVa (w.cached.slot d j) := by
    simp only [BLKSIZE] at *
    omega
  refine ⟨j * BLKSIZE + (x - blockVa (w.cached.slot d j)), ?_, ?_⟩
  · rwa [hdiv]
  · rw [World.addrOf, hdiv, hmod]
    omega

variable (hs : Sane N w) (hd : d < N)
include hs hd

theorem offMeta (h : w.EntryIn d f) : ∀ x, f ≤ x → x < f + DIRESIZE → OffMeta x := by
  intro x hlo hhi
  obtain ⟨p, hp, rfl⟩ := h.position hlo hhi
  exact Or.inr (hs.addrOf_bounds hd hp).1

theorem inMap (h : w.EntryIn d f) : DISKMAP ≤ f ∧ f < DISKMAP + DISKSIZE := by
  obtain ⟨p, hp, he⟩ := h.position le_rfl (by simp only [DIRESIZE]; omega)
  have hb := hs.addrOf_bounds hd hp
  rw [← he] at hb
  simp only [blockVa, DISKMAP, DISKSIZE, BLKSIZE] at *
  omega

end World.EntryIn

section Calls

variable {N : Nat} {w : World} (h : Sane N w) {f : Nat} (hk : w.inInd f < N) (hm : EntryMapped f w)
include h hk hm

omit h hk hm in
theorem extended_grow (m : Meta) (k : Nat) {stop : Nat} (hstop : stop < 2147483648) :
    m.extended k stop = if (m.inode k).size < stop then m.setSize k (stop % 65536) else m := by
  have hsigned : toS32 stop = stop := by
    unfold toS32
    split_ifs <;> omega
  have hmod : toU16 (stop : Int) = stop % 65536 := by
    unfold toU16
    omega
  unfold Meta.extended
  split_ifs with hlt
  · rw [hsigned, cutRange, if_neg (by omega), hmod]
    rfl
  · rfl

private theorem fileWrite_effect (hf : ∀ x, f ≤ x → x < f + DIRESIZE → OffMeta x)
    (hmap : DISKMAP ≤ f ∧ f < DISKMAP + DISKSIZE) {buf count a : Nat} (hlim : a < 268435456)
    (hstop : a + count < 2147483648) (hbuf : Apart buf count) : ∃ u e t,
      Extends N w (w.inInd f) (a + count) u ∧ e ≤ a + count ∧
      Moved N (w.inInd f) true buf a (a + count) a e u t ∧
      Quiet t (final (fileWrite f buf count a) w) ∧
      ∀ r v, fileWrite f buf count a w = .ok r v → e = a + count ∧ r = count := by
  have hto : toU32 ((a : Int) + (count : Int)) = a + count := by
    unfold toU32
    omega
  obtain ⟨u, hext, hu⟩ := extend_run h hk hm hf (a + count) fun _ => hmap
  have hrun := fileWrite_run h hk hm buf count a
  rw [hto, bind_ok hext] at hrun
  obtain ⟨e, he, hmoved, hok⟩ := copyLoop_moved hk true a (a + count)
    (by rwa [Nat.add_sub_cancel_left]) (by omega) (count + 1) hu.sane le_rfl (by omega) hlim (by omega)
  simp only [Nat.sub_self, Nat.add_zero] at hmoved hok
  refine ⟨u, e, _, hu, he, hmoved, ?_, ?_⟩
  · unfold final
    rw [hrun]
    cases hloop : copyLoop true (inodeVa (w.inInd f)) (a + count) (count + 1) a buf u with
    | error x t =>
      rw [bind_error hloop]
      exact refl_of Quiet t
    | ok _ t =>
      rw [bind_ok hloop]
      have hq : Keeps Quiet (finishWrite f count) := by
        unfold finishWrite
        infer_instance
      exact hq.final t
  · intro r v hv
    rw [hrun] at hv
    obtain ⟨_, t, hloop, htail⟩ := bind_eq_ok hv
    refine ⟨hok t hloop, ?_⟩
    rw [finishWrite_ok htail]
    unfold toS32
    split_ifs <;> omega

theorem fileRead_effect {buf count a : Nat} (hbuf : Apart buf count) : ∃ c e,
    c = min count ((w.cached.inode (w.inInd f)).size - a) ∧ e ≤ a + c ∧
    Moved N (w.inInd f) false buf a (a + c) a e (w.follow (w.inInd f))
      (final (fileRead f buf count a) w) ∧
    ∀ r v, fileRead f buf count a w = .ok r v → e = a + c ∧ r = c := by
  have hs : Sane N (w.follow (w.inInd f)) := h.of_cached (h.ready.of_present rfl) (cached_of_byte rfl)
  have hsz : (w.cached.inode (w.inInd f)).size < 65536 := size_lt w _
  have hrun := fileRead_run h hk hm buf count a
  generalize (w.cached.inode (w.inInd f)).size = size at *
  split_ifs at hrun with hend
  · have hzero : min count (size - a) = 0 := by omega
    refine ⟨0, a, hzero.symm, le_rfl, ?_, fun r v hv => ?_⟩
    · rw [final_ok hrun]
      exact Moved.of_fills (Fills.same hs rfl (fun _ hp => hp) rfl) fun _ _ => rfl
    · rw [hrun] at hv
      cases hv
      exact ⟨rfl, rfl⟩
  · have hc : min count (toU32 ((size : Int) - (a : Int))) = min count (size - a) := by
      unfold toU32
      omega
    rw [hc] at hrun
    generalize hcc : min count (size - a) = c at *
    have hto : toU32 ((a : Int) + (c : Int)) = a + c := by
      unfold toU32
      omega
    simp only [hto] at hrun
    have hapart : Apart buf (a + c - a) := by
      simp only [Apart] at *
      omega
    obtain ⟨e, he, hmoved, hok⟩ := copyLoop_moved hk false a (a + c) hapart (by omega)
      (c + 1) hs le_rfl (by omega) (by omega) (by omega)
    simp only [Nat.sub_self, Nat.add_zero] at hmoved hok
    refine ⟨c, e, rfl, he, ?_, ?_⟩
    · rw [final_congr hrun, final_bind_pure]
      exact hmoved
    · intro r v hv
      rw [hrun] at hv
      obtain ⟨_, t, hloop, htail⟩ := bind_eq_ok hv
      refine ⟨hok t hloop, ?_⟩
      cases htail
      unfold toS32
      split_ifs <;> omega

/-- A read of positions with blocks returns, if its buffer is mapped. -/
theorem fileRead_returns {buf count a : Nat} (hbuf : Apart buf count)
    (hpages : ∀ p ∈ pagesOf buf count, w.present p = true)
    (hend : a + count ≤ (w.cached.inode (w.inInd f)).size ∨ count = 0)
    (hfilled : ∀ p, a ≤ p → p < a + count → w.cached.slot (w.inInd f) (p / BLKSIZE) ≠ 0) :
    ∃ u, fileRead f buf count a w = .ok (count : Int) u := by
  have hs : Sane N (w.follow (w.inInd f)) := h.of_cached (h.ready.of_present rfl) (cached_of_byte rfl)
  have hsz : (w.cached.inode (w.inInd f)).size < 65536 := size_lt w _
  rw [fileRead_run h hk hm buf count a]
  generalize (w.cached.inode (w.inInd f)).size = size at *
  split_ifs with hsize
  · have hzero : count = 0 := by omega
    rw [hzero]
    exact ⟨_, rfl⟩
  · have hc : min count (toU32 ((size : Int) - (a : Int))) = count := by
      unfold toU32
      omega
    have hto : toU32 ((a : Int) + (count : Int)) = a + count := by
      unfold toU32
      omega
    obtain ⟨u, hu⟩ := copyLoop_returns hk false a (a + count)
      (by rwa [Nat.add_sub_cancel_left]) (by omega) (count + 1) hs le_rfl (by omega) (by omega) (by omega)
      hfilled (by rwa [Nat.add_sub_cancel_left])
    simp only [Nat.sub_self, Nat.add_zero] at hu
    have hret : toS32 count = count := by
      unfold toS32
      split_ifs <;> omega
    simp only [hc, hto, hret]
    exact ⟨u, bind_ok hu⟩

end Calls

/-- The stored bytes of the first `n` inodes are kept, the positions of inode `k` from `lo` up to
`hi` excepted. -/
def Framed (n k lo hi : Nat) (w v : World) : Prop :=
  ∀ i p, i < n → w.cached.slot i (p / BLKSIZE) ≠ 0 → (i = k → p < lo ∨ hi ≤ p) →
    v.addrOf i p = w.addrOf i p ∧ v.byte (w.addrOf i p) = w.byte (w.addrOf i p)

private theorem Moved.framed_write {N k buf a stop e : Nat} {u t : World} (hu : Sane N u) (hk : k < N)
    (he : e ≤ stop) (h : Moved N k true buf a stop a e u t) : Framed N k a stop u t := by
  intro i p hi hz hout
  have hkeep := Moved.addrOf_kept h.toFills hz
  refine ⟨hkeep, h.still _ (Or.inr (hu.addrOf_bounds hi hz).1) fun q hlo hhi hq => ?_⟩
  simp only [World.target, if_true] at hq
  rw [← hkeep] at hq
  obtain ⟨rfl, rfl⟩ := h.sane.addrOf_inj hi hk (by rwa [h.kept hz]) hq
  have hp := hout rfl
  omega

theorem Moved.framed_read {N k buf a stop e : Nat} {u t : World} (hu : Sane N u)
    (hbuf : Apart buf (stop - a)) (he : e ≤ stop) (h : Moved N k false buf a stop a e u t)
    (lo hi : Nat) : Framed N k lo hi u t := by
  intro i p hi hz _
  refine ⟨Moved.addrOf_kept h.toFills hz, h.still _ (Or.inr (hu.addrOf_bounds hi hz).1)
    fun q hlo hhi hq => ?_⟩
  simp only [World.target, Bool.false_eq_true, if_false] at hq
  exact hu.addrOf_ne hi hz hbuf (by omega) hq.symm

theorem Framed.trans {n k lo hi : Nat} {w t v : World} (h : Framed n k lo hi w t)
    (h' : Framed n k lo hi t v) (hs : ∀ i j, w.cached.slot i j ≠ 0 → t.cached.slot i j ≠ 0) :
    Framed n k lo hi w v := by
  intro i p hi hz hout
  obtain ⟨ha, hb⟩ := h i p hi hz hout
  obtain ⟨ha', hb'⟩ := h' i p hi (hs _ _ hz) hout
  rw [ha] at ha' hb'
  exact ⟨ha', hb'.trans hb⟩

private theorem Quiet.framed {w v : World} (h : Quiet w v) (n k lo hi : Nat) : Framed n k lo hi w v := by
  intro i p _ _ _
  rw [World.addrOf, World.addrOf, h.cached, h.byte]
  exact ⟨rfl, rfl⟩

section RoundTrip

variable {N : Nat} {w : World} (h : Sane N w) {f d : Nat} (hd : d < N) (hentry : w.EntryIn d f)
  (hk : w.inInd f < N) (hne : d ≠ w.inInd f) {buf count a : Nat} (hbuf : Apart buf count)
  (hend : a + count ≤ NDIRECT * BLKSIZE)
include h hd hentry hk hne hbuf hend

private theorem fileWrite_done {r : Int} {v : World} (hw : fileWrite f buf count a w = .ok r v) :
    Sane N v ∧ EntryMapped f v ∧ v.inInd f = w.inInd f ∧
      a + count ≤ (v.cached.inode (w.inInd f)).size ∧
      (∀ p, a ≤ p → p < a + count → v.cached.slot (w.inInd f) (p / BLKSIZE) ≠ 0 ∧
        v.byte (v.addrOf (w.inInd f) p) = w.byte (buf + (p - a))) ∧
      (∀ i j, w.cached.slot i j ≠ 0 → v.cached.slot i j ≠ 0) ∧
      (∀ p, w.present p = true → v.present p = true) ∧
      Framed N (w.inInd f) a (a + count) w v := by
  have hend' : a + count ≤ 53248 := hend
  obtain ⟨ino, t0, hin, hrest⟩ := bind_eq_ok hw
  obtain ⟨t, hl, hm, hin'⟩ := inodeOf_mapped hin
  have hwt : fileWrite f buf count a t = .ok r v := (bind_ok hin').trans hrest
  have hq := hl.quiet
  have hind : t.inInd f = w.inInd f := hq.cell _
  have ht := hl.sane h
  obtain ⟨u, e, t2, ⟨hu, hcu, hbu, hpu, -⟩, -, hmoved, hq2, hok⟩ := fileWrite_effect ht (by rwa [hind]) hm
    (hentry.offMeta h hd) (hentry.inMap h hd) (a := a) (by omega) (by omega) hbuf
  obtain ⟨rfl, -⟩ := hok r v hwt
  rw [final_ok hwt] at hq2
  rw [hind, extended_grow _ _ (by omega)] at hcu
  rw [hind] at hmoved
  generalize hkk : w.inInd f = k at *
  rw [hq.cached] at hcu
  have hslot (i j : Nat) : u.cached.slot i j = w.cached.slot i j := by
    rw [hcu]
    split_ifs <;> simp
  have hframe : Framed N k a (a + count) w v := by
    have h1 : Framed N k a (a + count) w u := by
      intro i p hi hz _
      have hoff : OffMeta (w.addrOf i p) := Or.inr (h.addrOf_bounds hi hz).1
      rw [World.addrOf, World.addrOf, hslot]
      exact ⟨rfl, (hbu _ hoff).trans (congrFun hq.byte _)⟩
    refine (h1.trans (hmoved.framed_write hu hk le_rfl) fun i j hz => ?_).trans
      (hq2.framed N k a (a + count)) fun i j hz => ?_
    · rwa [hslot]
    · rw [hmoved.kept (by rwa [hslot]), hslot]
      exact hz
  have hv : Sane N v := hmoved.sane.of_cached
    ⟨hq2.present _ hmoved.sane.ready.super, hq2.present _ hmoved.sane.ready.inode⟩ hq2.cached
  have hpres (p : Nat) (hp : t.present p = true) : v.present p = true :=
    hq2.present p (hmoved.present p (by rwa [hpu]))
  -- the entry belongs to another inode
  have hbytes (x : Nat) (hlo : f ≤ x) (hhi : x < f + DIRESIZE) : v.byte x = w.byte x := by
    obtain ⟨p, hp, rfl⟩ := hentry.position hlo hhi
    exact (hframe d p hd hp fun he => absurd he hne).2
  have hindv : v.inInd f = k := by
    rw [← hkk]
    refine u16_congr (hbytes _ ?_ ?_) (hbytes _ ?_ ?_) <;> simp only [offInInd, DIRESIZE] <;> omega
  refine ⟨hv, fun p hp => hpres p (hm p hp), hindv, ?_, fun p hlo hhi => ⟨?_, ?_⟩, ?_, ?_, hframe⟩
  · rw [hq2.cached, hmoved.size, hcu]
    split_ifs with hlt
    · simp [Meta.setSize, Meta.setInode]
      omega
    · omega
  · rw [hq2.cached]
    exact hmoved.filled p hlo hhi
  · have hm' := hmoved.moved p hlo hhi
    simp only [World.target, World.source, if_true] at hm'
    rw [World.addrOf, hq2.cached, hq2.byte]
    refine hm'.trans ((hbu _ (hbuf.offMeta (by omega))).trans (congrFun hq.byte _))
  · intro i j hz
    rw [hq2.cached, hmoved.kept (by rwa [hslot]), hslot]
    exact hz
  · exact fun p hp => hpres p (hq.present p hp)

/-- After a write that returned, a read of the same positions returns the same bytes, and no other
stored byte has changed. -/
theorem fileRead_of_written {r : Int} {v : World} (hw : fileWrite f buf count a w = .ok r v) {out : Nat}
    (hout : Apart out count) (hpages : ∀ p ∈ pagesOf out count, w.present p = true) :
    ∃ u, fileRead f out count a v = .ok (count : Int) u ∧
      (∀ i < count, u.byte (out + i) = w.byte (buf + i)) ∧
      Framed N (w.inInd f) a (a + count) w v ∧ Framed N (w.inInd f) a (a + count) w u := by
  obtain ⟨hv, hmv, hind, hsize, hbytes, hslots, hpres, hframe⟩ :=
    fileWrite_done h hd hentry hk hne hbuf hend hw
  have hk' : v.inInd f < N := by rwa [hind]
  obtain ⟨u, hu⟩ := fileRead_returns hv hk' hmv hout (fun p hp => hpres p (hpages p hp))
    (Or.inl (by rwa [hind])) (a := a) (fun p hlo hhi => by
      rw [hind]
      exact (hbytes p hlo hhi).1)
  obtain ⟨c, e, hc, -, hmoved, hok⟩ := fileRead_effect hv hk' hmv (a := a) hout
  obtain ⟨rfl, hcount⟩ := hok _ _ hu
  rw [final_ok hu] at hmoved
  have hcc : c = count := by omega
  subst hcc
  rw [hind] at hmoved
  have hvf : Sane N (v.follow (w.inInd f)) := hv.of_cached (hv.ready.of_present rfl) (cached_of_byte rfl)
  refine ⟨u, hu, fun i hi => ?_, hframe, ?_⟩
  · obtain ⟨hz, hb⟩ := hbytes (a + i) (by omega) (by omega)
    have hm' := hmoved.moved (a + i) (by omega) (by omega)
    simp only [World.target, World.source, Bool.false_eq_true, if_false, Nat.add_sub_cancel_left] at hm' hb
    rw [hm', Moved.addrOf_kept hmoved.toFills hz]
    exact hb
  · have hread : Framed N (w.inInd f) a (a + c) v u :=
      hmoved.framed_read hvf (by rwa [Nat.add_sub_cancel_left]) le_rfl a (a + c)
    exact hframe.trans hread hslots

end RoundTrip

/-- In a sound image, a read after a successful write to a regular file gives back what was
written, and every other stored byte is kept by both calls. -/
theorem read_after_write (n : Nat) (w v : World) (f d buf out count offset : Nat) (hready : Ready w)
    (hin : w.inNum ≤ n) (hpos : 0 < n) (hn : n ≤ MAXINODENUM) (himg : SoundImage n w)
    (hd : d < w.inNum) (hdir : w.cell (inodeVa d + offType) = FTYPE_DIR) (hentry : w.EntryIn d f)
    (hk : w.inInd f < w.inNum) (hreg : w.cell (inodeVa (w.inInd f) + offType) = FTYPE_REG)
    (hbuf : Apart buf count) (hout : Apart out count)
    (hpages : ∀ p ∈ pagesOf out count, w.present p = true)
    (hend : offset + count ≤ NDIRECT * BLKSIZE)
    (hw : fileWrite f buf count offset w = .ok (count : Int) v) :
    ∃ u, fileRead f out count offset v = .ok (count : Int) u ∧
      (∀ i < count, u.byte (out + i) = w.byte (buf + i)) ∧
      Framed n (w.inInd f) offset (offset + count) w v ∧
      Framed n (w.inInd f) offset (offset + count) w u := by
  have hsane : Sane n w :=
    ⟨hready, by rw [← inNum_cached]; exact hin, hn, hpos, (soundImage_iff hn).mp himg⟩
  have hne : d ≠ w.inInd f := by
    rintro rfl
    rw [hdir] at hreg
    cases hreg
  exact fileRead_of_written hsane (lt_of_lt_of_le hd hin) hentry (lt_of_lt_of_le hk hin) hne hbuf hend hw
    hout hpages

theorem read_after_write_fileWorld :
    ∃ v u, fileWrite (blockVa 2) 4096 3 4095 fileWorld = .ok 3 v ∧
      fileRead (blockVa 2) 5000 3 4095 v = .ok 3 u ∧
      ∀ i < 3, u.byte (5000 + i) = fileWorld.byte (4096 + i) := by
  have hw : fileWrite (blockVa 2) 4096 3 4095 fileWorld = .ok 3 _ :=
    eq_ok_of_value (by decide +kernel)
  obtain ⟨u, hu, hbytes, -⟩ := read_after_write 4 fileWorld _ (blockVa 2) 0 4096 5000 3 4095
    ⟨by decide +kernel, by decide +kernel⟩ (by decide +kernel) (by decide) (by decide)
    ((soundImage_iff (by decide)).mpr sane_fileWorld.owned) (by decide +kernel) (by decide +kernel)
    ⟨0, 0, by decide +kernel, by decide, by decide +kernel⟩ (by decide +kernel) (by decide +kernel)
    (by decide) (by decide) (by decide +kernel) (by decide) hw
  exact ⟨_, u, hw, hu, hbytes⟩

/-- A disk of 129 inodes: inode 128 lies at the start of the root directory's block, under the
entry of the file `/f`, whose inode it is. -/
def tableDisk (b o : Nat) : UInt8 :=
  if b = 0 then
    if o = offInNum then 129 else if o = offBlkNum then 200 else if o = offBlkOcp then 7
    else if o = offBlkOcp + 16 then 1 else if o = offInOcp then 1 else 0
  else if b = 1 then
    if o = offType then 0x64 else if o = offBlkUsed then 1 else if o = offBlkInd then 2 else 0
  else if b = 2 then
    if o = 0 then 0x66 else if o = offInInd then 128 else 0
  else 0

def tableWorld : World := server.run [.caller 4096 [1, 2, 3]] (mount tableDisk)

/-- With more inodes than the table holds, a write changes the root directory. -/
theorem read_after_write_beyondTable : ¬∀ (w v : World) (f d buf out count offset : Nat), Ready w →
    SoundImage w.inNum w → d < w.inNum → w.cell (inodeVa d + offType) = FTYPE_DIR →
      w.EntryIn d f → w.inInd f < w.inNum → w.cell (inodeVa (w.inInd f) + offType) = FTYPE_REG →
        Apart buf count → Apart out count → (∀ p ∈ pagesOf out count, w.present p = true) →
          offset + count ≤ NDIRECT * BLKSIZE →
            fileWrite f buf count offset w = .ok (count : Int) v →
              ∃ u, fileRead f out count offset v = .ok (count : Int) u ∧
                (∀ i < count, u.byte (out + i) = w.byte (buf + i)) ∧
                Framed w.inNum (w.inInd f) offset (offset + count) w v ∧
                Framed w.inNum (w.inInd f) offset (offset + count) w u := by
  intro h
  have hin : tableWorld.inNum = 129 := by decide +kernel
  have himg : SoundImage tableWorld.inNum tableWorld := by
    rw [hin]
    exact ⟨by decide +kernel, by decide +kernel, by decide +kernel,
      OwnedBlocks.of_filled [(0, 0), (128, 5)] (by decide +kernel) (by decide +kernel)
        (by decide +kernel)⟩
  obtain ⟨u, -, -, hframe, -⟩ := h tableWorld _ (blockVa 2) 0 4096 5000 3 0
    ⟨by decide +kernel, by decide +kernel⟩ himg (by decide +kernel) (by decide +kernel)
    ⟨0, 0, by decide +kernel, by decide, by decide +kernel⟩ (by decide +kernel) (by decide +kernel)
    (by decide) (by decide) (by decide +kernel) (by decide) (eq_ok_of_value (by decide +kernel))
  -- the size field of inode 128
  have hbyte := (hframe 0 2 (by decide +kernel) (by decide +kernel) (by decide +kernel)).2
  exact absurd hbyte (by decide +kernel)

end DamnOS.FileSystem
