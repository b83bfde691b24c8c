import DamnOS.FileSystem.SetSize

/-!
# Write-through of metadata

Creating, writing and removing end by writing back the inode table and the block of the directory
entry, and the super block is always clean.  `file_set_size` writes back the block of the entry
only, so its change of the inode stays in memory.
-/

namespace DamnOS.FileSystem

open DamnOS.Framework

/-- Every change of the file system keeps clean pages equal to their blocks and the super block
clean. -/
theorem Step.durable {S : Scope} {N : Nat} {w v : World} (hs : Step S N w v) (h : Durable w) :
    Durable v := by
  have hinode {u : World} (hu : Durable u) (i o m : Nat) (f : Nat → UInt8) :
      Durable (u.write (inodeVa i + o) m f) :=
    hu.write f (Or.inr ((Nat.le_add_right _ _).trans (Nat.le_add_right _ _)))
  cases hs with
  | load p _ _ => exact h.load p
  | flush p hp => exact h.flush hp
  | follow k => exact ⟨h.coherent, h.mapped, h.super_clean⟩
  | log x => exact ⟨h.coherent, h.mapped, h.super_clean⟩
  | acquire i j b _ _ _ _ _ =>
    refine hinode ?_ i offBlkUsed 2 _
    rw [World.setCell, Nat.add_assoc]
    exact hinode (h.bitmap _ _ _) i (offBlkInd + 2 * j) 2 _
  | release i j _ _ _ _ _ =>
    rw [World.release, World.setCell, Nat.add_assoc]
    exact hinode (h.bitmap _ _ _) i (offBlkInd + 2 * j) 2 _
  | type i v _ _ => exact hinode h i offType 2 _
  | size i v _ _ => exact hinode h i offSize 2 _
  | used i v _ _ => exact hinode h i offBlkUsed 2 _
  | markInode k _ _ => exact h.bitmap _ _ _
  | unmarkInode k _ => exact h.bitmap _ _ _
  | data b a n f hb hlo _ _ _ _ =>
    exact h.write f (Or.inr ((blockVa_mono (by omega : 1 ≤ b)).trans hlo))
  | outside a n f ha => exact h.fill f ha

/-- Calls without restrictions, with the dirty bits in view. -/
def durableSetting (n : Nat) : Setting :=
  ⟨n, Scope.all, Durable, fun _ hs h => hs.durable h⟩

/-- The disk holds page `p` of the disk map as the server sees it. -/
def Stored (p : Nat) (w : World) : Prop :=
  ∀ o < BLKSIZE, w.disk (p - superPg) o = w.byte (p * PGSIZE + o)

/-- Super block, inode table and the block of the entry `e` are stored. -/
def WrittenThrough (e : Nat) (w : World) : Prop :=
  Stored superPg w ∧ Stored inodePg w ∧ Stored (e / PGSIZE) w

private theorem stored_of_clean {w : World} (hcoh : Coherent w) {p : Nat} (hlo : superPg ≤ p)
    (hhi : p < endPg) (hd : w.present p = true → w.dirty p = false) : Stored p w := by
  intro o ho
  have hpg : (p * PGSIZE + o) / PGSIZE = p := by
    simp only [PGSIZE, BLKSIZE] at *
    omega
  by_cases hp : w.present p = true
  · rw [byte_mapped (Or.inl (by rw [hpg]; exact hp)), hcoh p hlo hhi hp (hd hp) o ho]
  · have hmod : (p * PGSIZE + o) % PGSIZE = o := by
      simp only [PGSIZE, BLKSIZE] at *
      omega
    have hun : ¬(w.present ((p * PGSIZE + o) / PGSIZE) = true ∨ p * PGSIZE + o < DISKMAP) := by
      rw [hpg]
      rintro (hc | hc)
      · exact hp hc
      · simp only [PGSIZE, DISKMAP, superPg] at *
        omega
    rw [byte_unmapped hun, hpg, hmod]

private theorem writtenThrough_of_flushed {w u : World} {e : Nat} (h : Durable w)
    (he : DISKMAP ≤ e ∧ e < DISKMAP + DISKSIZE)
    (hw : w = (u.flush inodePg).flush (e / PGSIZE) ∨ w = (u.flush (e / PGSIZE)).flush inodePg) :
    WrittenThrough e w := by
  have hlo : superPg ≤ e / PGSIZE := by
    simp only [superPg, PGSIZE, DISKMAP] at *
    omega
  have hhi : e / PGSIZE < endPg := by
    simp only [endPg, PGSIZE, DISKMAP, DISKSIZE] at *
    omega
  have hclean (p : Nat) (hp : p = inodePg ∨ p = e / PGSIZE) : w.present p = true → w.dirty p = false := by
    intro hpr
    rcases hw with rfl | rfl <;> simp only [present_flush] at hpr
    · rcases hp with rfl | rfl
      · exact dirty_flush_le _ _ (dirty_flush_self u (Or.inl hpr))
      · exact dirty_flush_self _ (Or.inl (by rwa [present_flush]))
    · rcases hp with rfl | rfl
      · exact dirty_flush_self _ (Or.inl (by rwa [present_flush]))
      · exact dirty_flush_le _ _ (dirty_flush_self u (Or.inl hpr))
  refine ⟨stored_of_clean h.coherent le_rfl (by decide) fun _ => h.super_clean, ?_, ?_⟩
  · exact stored_of_clean h.coherent (by decide) (by decide) (hclean _ (Or.inl rfl))
  · exact stored_of_clean h.coherent hlo hhi (hclean _ (Or.inr rfl))

theorem flushBlock_ok {a : Nat} {w v : World} (h : flushBlock a w = .ok () v) :
    (DISKMAP ≤ a ∧ a < DISKMAP + DISKSIZE) ∧ v = w.flush (a / PGSIZE) := by
  unfold flushBlock at h
  split_ifs at h with hc
  · cases h
  · cases h
    exact ⟨by omega, rfl⟩

private theorem inodeOf_ok {f a : Nat} {w v : World} (h : inodeOf f w = .ok a v) :
    a = inodeVa (w.inInd f) ∧ w.inInd f ∈ v.followed := by
  obtain ⟨t, hl, hm, ht⟩ := inodeOf_mapped h
  have hin : t.inInd f = w.inInd f := hl.quiet.cell _
  rw [inodeOf_run hm, hin] at ht
  cases ht
  exact ⟨rfl, List.mem_cons_self⟩

private theorem inode_page {k : Nat} (hk : k < MAXINODENUM) : inodeVa k / PGSIZE = inodePg := by
  simp only [inodeVa, blockVa, DISKMAP, BLKSIZE, INSIZE, PGSIZE, inodePg, MAXINODENUM] at *
  omega

private theorem fileFlush_ok {f : Nat} {w v : World} (h : fileFlush f w = .ok () v)
    (hv : ∀ k ∈ v.followed, k < MAXINODENUM) : (DISKMAP ≤ f ∧ f < DISKMAP + DISKSIZE) ∧
      ∃ u : World, v = (u.flush inodePg).flush (f / PGSIZE) := by
  obtain ⟨a, w1, hin, h⟩ := bind_eq_ok h
  have hgrow : Grows w1 v := Keeps.of_ok h
  obtain ⟨size, w2, _, h⟩ := bind_eq_ok h
  obtain ⟨_, w3, _, h⟩ := bind_eq_ok h
  obtain ⟨_, w4, h4, h5⟩ := bind_eq_ok h
  obtain ⟨rfl, hk⟩ := inodeOf_ok hin
  obtain ⟨-, rfl⟩ := flushBlock_ok h4
  obtain ⟨hf, rfl⟩ := flushBlock_ok h5
  rw [inode_page (hv _ (hgrow.followed.subset hk))]
  exact ⟨hf, w3, rfl⟩

private theorem fileCreate_ok {path : List UInt8} {type e : Nat} {w v : World}
    (h : fileCreate path type w = .ok e v) : ∃ u, fileFlush e u = .ok () v := by
  obtain ⟨r, w1, _, h⟩ := bind_eq_ok h
  cases r with
  | found dir entry => cases h
  | missing dir name =>
    simp only at h
    split_ifs at h
    · cases h
    · obtain ⟨entry, w2, _, h⟩ := bind_eq_ok h
      obtain ⟨k, w3, _, h⟩ := bind_eq_ok h
      obtain ⟨_, w4, _, h⟩ := bind_eq_ok h
      obtain ⟨_, w5, _, h⟩ := bind_eq_ok h
      obtain ⟨_, w6, _, h⟩ := bind_eq_ok h
      obtain ⟨_, w7, _, h⟩ := bind_eq_ok h
      obtain ⟨_, w8, _, h⟩ := bind_eq_ok h
      obtain ⟨_, w9, hflush, h⟩ := bind_eq_ok h
      cases h
      exact ⟨w8, hflush⟩

private theorem fileWrite_ok {f buf count : Nat} {offset r : Int} {w v : World}
    (h : fileWrite f buf count offset w = .ok r v) : ∃ u, fileFlush f u = .ok () v := by
  obtain ⟨a, w1, _, h⟩ := bind_eq_ok h
  obtain ⟨size, w2, _, h⟩ := bind_eq_ok h
  obtain ⟨_, w3, _, h⟩ := bind_eq_ok h
  obtain ⟨_, w4, _, h⟩ := bind_eq_ok h
  obtain ⟨_, w5, hflush, h⟩ := bind_eq_ok h
  cases h
  exact ⟨w4, hflush⟩

private theorem fileRemove_ok {path : List UInt8} {w v : World} (h : fileRemove path w = .ok () v) :
    ∃ (dir f : Nat) (w1 u : World), walkPath path w = .ok (.found dir f) w1 ∧
      (DISKMAP ≤ f ∧ f < DISKMAP + DISKSIZE) ∧ v = (u.flush (f / PGSIZE)).flush inodePg := by
  obtain ⟨r, w1, hwalk, h⟩ := bind_eq_ok h
  cases r with
  | missing dir name => cases h
  | found dir f =>
    obtain ⟨_, w2, _, h⟩ := bind_eq_ok h
    obtain ⟨_, w3, _, h⟩ := bind_eq_ok h
    obtain ⟨_, w4, _, h⟩ := bind_eq_ok h
    obtain ⟨_, w5, _, h⟩ := bind_eq_ok h
    obtain ⟨_, w6, _, h⟩ := bind_eq_ok h
    obtain ⟨_, w7, _, h⟩ := bind_eq_ok h
    obtain ⟨_, w8, h8, h9⟩ := bind_eq_ok h
    obtain ⟨hf, rfl⟩ := flushBlock_ok h8
    obtain ⟨-, rfl⟩ := flushBlock_ok h9
    rw [inode_page (by decide)]
    exact ⟨dir, f, w1, w7, hwalk, hf, rfl⟩

private theorem inode_of_stored {w v : World} (hw : Stored inodePg w) (hv : Stored inodePg v)
    (hd : v.disk 1 = w.disk 1) : v.cached.inode = w.cached.inode := by
  have hb : ∀ o < BLKSIZE, v.block 1 o = w.block 1 o := by
    intro o ho
    have h1 := hw o ho
    have h2 := hv o ho
    rw [show inodePg - superPg = 1 from rfl, show inodePg * PGSIZE = blockVa 1 from rfl] at h1 h2
    rw [World.block, World.block, ← h1, ← h2, hd]
  have hdec : decode (w.block 0) (v.block 1) = decode (w.block 0) (w.block 1) :=
    decode_congr (fun _ _ => rfl) hb
  have hinode := congrArg Meta.inode hdec
  exact hinode

private theorem byte_setCell_same {w : World} {a v : Nat} (hp : ∀ p ∈ pagesOf a 2, w.present p = true)
    (hv : v % 65536 = w.cell a) : (w.setCell a v).byte = w.byte := by
  rw [World.setCell, byte_write w a 2 _ (present_bytes hp), splice_same_cell w.byte hv]

def FileOp.Affects : FileOp → World → Nat → Prop
  | .create path type, w, e => ∃ v, fileCreate path type w = .ok e v
  | .remove path, w, e => ∃ dir v, walkPath path w = .ok (.found dir e) v
  | .write f _ _ _, _, e => EntryAddr f ∧ e = f
  | .setSize f _, _, e => EntryAddr f ∧ e = f
  | _, _, _ => False

/-- The call does not change the inode, if it is `file_set_size`. -/
def FileOp.Neutral : FileOp → World → Prop
  | .setSize f newsize, w => newsize % 65536 = ((w.cached.inode (w.inInd f)).size : Int) ∧
      Idle f newsize w
  | _, _ => True

theorem EntryAddr.offMeta {f : Nat} (h : EntryAddr f) : ∀ x, f ≤ x → x < f + DIRESIZE → OffMeta x := by
  obtain ⟨b, hb, hlo, -⟩ := h.bounds
  exact fun x hx _ => Or.inr ((blockVa_mono hb).trans (hlo.trans hx))

private theorem fileSetSize_writtenThrough_iff {N : Nat} {w v : World} (h : Sane N w) (hd : Durable w)
    (hclean : ∀ p, superPg ≤ p → p < endPg → w.dirty p = false) {f : Nat} (hf : EntryAddr f)
    (hk : w.inInd f < N) {newsize : Int} (hr : fileSetSize f newsize w = .ok () v)
    (hdv : Durable v) :
    WrittenThrough f v ↔ newsize % 65536 = ((w.cached.inode (w.inInd f)).size : Int) ∧
      Idle f newsize w := by
  -- the entry is mapped from the first access on
  obtain ⟨a, u, hin, hrest⟩ := bind_eq_ok hr
  obtain ⟨t, hl, hm, hin'⟩ := inodeOf_mapped hin
  have hrt : fileSetSize f newsize t = .ok () v := (bind_ok hin').trans hrest
  have hind : t.inInd f = w.inInd f := hl.quiet.cell _
  have hst := hl.sane h
  rw [fileSetSize_steps hst (by rwa [hind]) hm hf.offMeta, hind] at hrt
  obtain ⟨hmap, rfl⟩ := flushBlock_ok hrt
  rw [← hl.quiet.cached]
  have hcalm : Idle f newsize w ↔ Idle f newsize t := by
    rw [idle_iff, idle_iff, hind, hl.quiet.cached]
  rw [hcalm]
  generalize hkk : w.inInd f = k at *
  have hk' : k < MAXINODENUM := h.lt hk
  have htr := sane_truncated (f := f) hst (by rwa [hind]) newsize
  rw [hind] at htr
  have hpg : superPg + 2 ≤ f / PGSIZE := by
    obtain ⟨b, hb, hlo, -⟩ := hf.bounds
    simp only [blockVa, DISKMAP, BLKSIZE, PGSIZE, superPg] at *
    omega
  have hlo : superPg ≤ f / PGSIZE := by omega
  have hdisk : (((t.truncated k newsize).setCell (inodeVa k + offSize) (toU16 newsize)).flush
      (f / PGSIZE)).disk 1 = t.disk 1 := by
    rw [disk_flush_of_ne _ fun _ => by omega]
    exact disk_truncated t k newsize (by decide)
  have htable : Stored inodePg t :=
    stored_of_clean (hl.coherent hd.coherent) (by decide) (by decide)
      fun _ => hl.dirty (hclean _ (by decide) (by decide))
  have hmod : toU16 newsize % 65536 = toU16 newsize := Nat.mod_eq_of_lt (by unfold toU16; omega)
  constructor
  · intro hwt
    -- an unchanged table on the disk means an unchanged table in memory
    have hsame := congrFun (inode_of_stored htable hwt.2.1 hdisk) k
    rw [cached_flush _ hlo, World.setCell, cached_setSize htr.ready hk', cached_truncated hst hk] at hsame
    simp only [Meta.setSize, Meta.setInode, Function.update_self, inode_cutAll, if_true] at hsame
    constructor
    · have hsize := congrArg Inode.size hsame
      simp only [toU16] at hsize
      omega
    · rw [idle_iff, hind]
      intro j hj
      have hslot := congrFun (congrArg Inode.blkInd hsame) j
      simp only [if_pos hj] at hslot
      exact hslot.symm
  · rintro ⟨hsize, hidle⟩
    have hbyte : (((t.truncated k newsize).setCell (inodeVa k + offSize) (toU16 newsize)).flush
        (f / PGSIZE)).byte = t.byte := by
      have hcut : (t.truncated k newsize).byte = t.byte := by
        rw [← hind]
        exact byte_truncated_idle hidle
      rw [byte_flush _ _ hlo, byte_setCell_same (pages_inode htr.ready hk' (by decide)), hcut]
      rw [hmod, cell_size _ hk', cached_of_byte hcut]
      unfold toU16
      omega
    refine ⟨stored_of_clean hdv.coherent le_rfl (by decide) fun _ => hdv.super_clean, ?_, ?_⟩
    · intro o ho
      rw [hbyte, show inodePg - superPg = 1 from rfl, hdisk]
      exact htable o ho
    · refine stored_of_clean hdv.coherent hlo ?_ fun hp => dirty_flush_self _ (Or.inl ?_)
      · simp only [endPg, PGSIZE, DISKMAP, DISKSIZE] at *
        omega
      · rwa [present_flush] at hp

/-- In a clean state reached by calls, a successful call leaves super block, inode table and the
block of the affected entry stored on the disk, except for a `file_set_size` that changes the
inode. -/
theorem writtenThrough_iff (n : Nat) (w : World) (ops : List FileOp) (hready : Ready w)
    (hin : w.inNum ≤ n) (hpos : 0 < n) (hn : n ≤ MAXINODENUM) (himg : SoundImage n w)
    (hdur : Durable w) (hops : ∀ op ∈ ops, op.Fits)
    (hf : ∀ k ∈ (server.run ops w).followed, k < w.inNum)
    (hclean : ∀ p, superPg ≤ p → p < endPg → (server.run ops w).dirty p = false)
    (op : FileOp) (hfit : op.Fits) (e : Nat) (haff : op.Affects (server.run ops w) e) (v : World)
    (hr : op.exec (server.run ops w) = .ok () v) (hv : ∀ k ∈ v.followed, k < w.inNum) :
    WrittenThrough e v ↔ op.Neutral (server.run ops w) := by
  have hsane : Sane n w :=
    ⟨hready, by rw [← inNum_cached]; exact hin, hn, hpos, (soundImage_iff hn).mp himg⟩
  have hrun := (durableSetting n).run_inv (fun _ _ => trivial) hpos ⟨hsane, hdur⟩ hops
    (Machine.Along.of_forall (fun _ _ _ => Or.inl trivial) w)
    fun k hk => lt_of_lt_of_le (hf k hk) hin
  have hlim : ∀ k ∈ v.followed, k < n := fun k hk => lt_of_lt_of_le (hv k hk) hin
  have hdv : Durable v := by
    have hpost := (durableSetting n).spec_exec (fun _ _ => trivial) hpos op hfit _ hrun
      (Or.inl trivial)
    rw [final_ok hr] at hpost
    rcases hpost with ⟨k, hk, hnk⟩ | ⟨hm, -⟩
    · exact absurd (hlim k hk) (not_lt.mpr hnk)
    · exact ((durableSetting n).contract.moves_inv hm hrun).2
  have hlim' : ∀ k ∈ v.followed, k < MAXINODENUM := fun k hk => lt_of_lt_of_le (hlim k hk) hn
  cases op with
  | create path type =>
    obtain ⟨v', hc⟩ := haff
    obtain ⟨e', v'', hc', hret⟩ := bind_eq_ok hr
    rw [hc] at hc'
    cases hc'
    cases hret
    obtain ⟨u, hflush⟩ := fileCreate_ok hc
    obtain ⟨he, t, ht⟩ := fileFlush_ok hflush hlim'
    exact iff_of_true (writtenThrough_of_flushed hdv he (Or.inl ht)) trivial
  | remove path =>
    obtain ⟨dir, v', hwalk⟩ := haff
    obtain ⟨dir', f, w1, t, hwalk', he, ht⟩ := fileRemove_ok hr
    rw [hwalk] at hwalk'
    cases hwalk'
    exact iff_of_true (writtenThrough_of_flushed hdv he (Or.inr ht)) trivial
  | write f buf count offset =>
    obtain ⟨-, rfl⟩ := haff
    obtain ⟨r, v', hc, hret⟩ := bind_eq_ok hr
    cases hret
    obtain ⟨u, hflush⟩ := fileWrite_ok hc
    obtain ⟨he, t, ht⟩ := fileFlush_ok hflush hlim'
    exact iff_of_true (writtenThrough_of_flushed hdv he (Or.inl ht)) trivial
  | setSize f newsize =>
    obtain ⟨hfe, rfl⟩ := haff
    have hk : (server.run ops w).inInd e < n := by
      obtain ⟨a, u, hinode, hrest⟩ := bind_eq_ok hr
      have hgrow : Grows u v := Keeps.of_ok hrest
      exact hlim _ (hgrow.followed.subset (inodeOf_ok hinode).2)
    exact fileSetSize_writtenThrough_iff hrun.1 hrun.2 hclean hfe hk hr hdv
  | _ => exact absurd haff id

/-- The disk that holds the file `/a` of three bytes. -/
def fileDisk : Nat → Nat → UInt8 := (server.run createAndWrite (mount (freshDisk 4 1))).disk

private theorem soundImage_fileDisk : SoundImage 4 (mount fileDisk) :=
  ⟨by decide +kernel, by decide +kernel, by decide +kernel, OwnedBlocks.of_filled [(0, 0), (1, 0)]
    (by decide +kernel) (by decide +kernel) (by decide +kernel)⟩

/-- Setting the size that the file has leaves the metadata stored. -/
theorem writtenThrough_setSize_same :
    WrittenThrough (blockVa 2) (final (FileOp.setSize (blockVa 2) 3).exec (mount fileDisk)) :=
  (writtenThrough_iff 4 (mount fileDisk) [] ⟨rfl, rfl⟩ (by decide +kernel) (by decide) (by decide)
    soundImage_fileDisk (durable_mount _) (by simp) (by decide +kernel) (clean_mount _)
    (.setSize (blockVa 2) 3) trivial (blockVa 2) ⟨⟨2, 0, by decide, by decide, rfl⟩, rfl⟩ _
    (eq_ok_of_returns (by decide +kernel)) (by decide +kernel)).mpr
      ⟨by decide +kernel, by decide +kernel⟩

/-- Setting another size leaves the old inode on the disk. -/
theorem writtenThrough_lost_setSize : ¬∀ (n : Nat) (w : World) (ops : List FileOp), Ready w →
    w.inNum ≤ n → 0 < n → n ≤ MAXINODENUM → SoundImage n w → Durable w → (∀ op ∈ ops, op.Fits) →
      (∀ k ∈ (server.run ops w).followed, k < w.inNum) →
        (∀ p, superPg ≤ p → p < endPg → (server.run ops w).dirty p = false) →
          ∀ op : FileOp, op.Fits → ∀ e, op.Affects (server.run ops w) e → ∀ v,
            op.exec (server.run ops w) = .ok () v → (∀ k ∈ v.followed, k < w.inNum) →
              WrittenThrough e v := by
  intro h
  have hw := h 4 (mount fileDisk) [] ⟨rfl, rfl⟩ (by decide +kernel) (by decide) (by decide)
    soundImage_fileDisk (durable_mount _) (by simp) (by decide +kernel) (clean_mount _)
    (.setSize (blockVa 2) 0) trivial (blockVa 2) ⟨⟨2, 0, by decide, by decide, rfl⟩, rfl⟩ _
    (eq_ok_of_returns (by decide +kernel)) (by decide +kernel)
  exact absurd (hw.2.1 (INSIZE + offSize) (by decide)) (by decide +kernel)

end DamnOS.FileSystem
