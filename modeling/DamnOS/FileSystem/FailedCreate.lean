import DamnOS.FileSystem.Folding
import DamnOS.FileSystem.FreeBlocks

/-!
# Creations that fail

`file_create` takes an entry, an inode and the first block of a new directory one after the other.
The entry is counted in the size of the parent before the rest is known to be there, so a creation
that fails leaves the file system as it was only if it fails before that.
-/

namespace DamnOS.FileSystem

open DamnOS.Framework

namespace World

/-- The blocks that another entry of directory `d` takes. -/
def entryBlocks (w : World) (d : Nat) : Nat :=
  if w.vacant d = none ∧ w.cached.slot d (w.cached.inode d).blkUsed = 0 then 1 else 0

/-- The blocks that a new inode of this type takes. -/
def inodeBlocks (type : Nat) : Nat := if type = FTYPE_DIR then 1 else 0

/-- There is an entry or a slot for more, an inode, and the blocks for both. -/
def CanCreate (w : World) (d type : Nat) : Prop :=
  (w.vacant d ≠ none ∨ (w.cached.inode d).blkUsed < NDIRECT) ∧ w.firstInode ≠ none ∧
    w.entryBlocks d + inodeBlocks type ≤ w.cached.freeBlocks

end World

/-- An entry was handed out, with the size of the directory and the blocks accounted for. -/
structure Grants (N : Nat) (w u : World) (d e : Nat) : Prop extends Allots N w u d e where
  size : (u.cached.inode d).size = ((w.cached.inode d).size + DIRESIZE) % 65536
  inNum : u.cached.inNum = w.cached.inNum
  free : u.cached.freeBlocks + w.entryBlocks d = w.cached.freeBlocks

section Grant

variable {N : Nat} {w : World} (h : Sane N w) {d : Nat} (hd : d < N) (hfill : w.Filled d)
include h hd hfill

private theorem dirAllocEntry_vacant {e : Nat} (hv : w.vacant d = some e) : ∃ u,
    dirAllocEntry (inodeVa d) w = .ok e u ∧ Grants N w u d e := by
  obtain ⟨u, hrun, heff⟩ := dirAllocEntry_run h hd hfill hv
  have hnone : w.entryBlocks d = 0 := by
    rw [World.entryBlocks, if_neg (by simp [hv])]
  refine ⟨u, hrun, ⟨dirAllocEntry_ok h hd hfill hrun, ?_, ?_, ?_⟩⟩
  · rw [heff.cached]
    simp [Meta.bumped, Meta.setSize, Meta.setInode]
  · rw [heff.cached]
    rfl
  · rw [heff.cached, hnone]
    rfl

/-- Without an entry that has no name, the next block of the directory decides; its size has grown
either way. -/
theorem dirAllocEntry_next (hv : w.vacant d = none) :
    if w.cached.Lacks d (w.cached.inode d).blkUsed (w.cached.inode d).blkUsed
    then ∃ x u, dirAllocEntry (inodeVa d) w = .error (.err x) u ∧ x ≠ .fileExists ∧
      (u.cached.inode d).size = ((w.cached.inode d).size + DIRESIZE) % 65536
    else ∃ e u, dirAllocEntry (inodeVa d) w = .ok e u ∧ Grants N w u d e := by
  obtain ⟨t, hrun, heff⟩ := dirAllocEntry_full h hd hfill hv
  have hsize : (t.cached.inode d).size = ((w.cached.inode d).size + DIRESIZE) % 65536 := by
    rw [heff.cached]
    simp [Meta.bumped, Meta.setSize, Meta.setBlkUsed, Meta.setInode]
  have hslot : t.cached.slot = w.cached.slot := by
    rw [heff.cached, Meta.bumped, slot_setSize, slot_setBlkUsed]
  have hfree : t.cached.freeBlocks = w.cached.freeBlocks := by
    rw [heff.cached]
    rfl
  have hlacks : t.cached.Lacks d (w.cached.inode d).blkUsed (w.cached.inode d).blkUsed ↔
      w.cached.Lacks d (w.cached.inode d).blkUsed (w.cached.inode d).blkUsed := by
    rw [Meta.Lacks, Meta.Lacks, Meta.gaps_self, Meta.gaps_self, hslot, hfree]
  split_ifs with hl
  · have hob := (obtain_eq_none_iff heff.sane).mpr (hlacks.mpr hl)
    refine ⟨_, t, hrun.trans (fileGetBlock_fail heff.sane hd hob), ?_, hsize⟩
    unfold World.obtainErr
    split_ifs <;> simp
  · have hob : t.obtain d (w.cached.inode d).blkUsed ≠ none := fun he =>
      hl (hlacks.mp ((obtain_eq_none_iff heff.sane).mp he))
    obtain ⟨b, hb⟩ := Option.ne_none_iff_exists'.mp hob
    have ho := obtains heff.sane hd hb
    have hok := hrun.trans (fileGetBlock_obtain heff.sane hd hb)
    refine ⟨_, _, hok, ⟨dirAllocEntry_ok h hd hfill hok, ho.size.trans hsize, ?_, ?_⟩⟩
    · rw [ho.inNum, heff.cached]
      rfl
    · have hcount := ho.freeBlocks heff.sane hd
      rw [hslot, hfree] at hcount
      rw [← hcount, World.entryBlocks, hv]
      simp only [true_and]

end Grant

/-- `file_create` once the parent `d` and the name are known. -/
def createIn (d : Nat) (name : List UInt8) (type : Nat) : M Nat := do
  let entry ← dirAllocEntry (inodeVa d)
  let inodeno ← allocInode
  onlyIf (type = FTYPE_DIR) (initDir inodeno)
  recordEntry (inodeVa d) entry DIRESIZE
  strcpy entry name
  store16 (entry + offInInd) inodeno
  store16 (inodeVa inodeno + offType) type
  fileFlush entry
  pure entry

/-- What there is decides between success and a parent that has grown. -/
def World.Decides (w : World) (d : Nat) (name : List UInt8) (type : Nat) : Prop :=
  w.CanCreate d type ∧ (∃ e v, createIn d name type w = .ok e v) ∨
    ¬w.CanCreate d type ∧ ∃ x v, createIn d name type w = .error (.err x) v ∧ x ≠ .fileExists ∧
      (v.cached.inode d).size = ((w.cached.inode d).size + DIRESIZE) % 65536

theorem fileCreate_createIn {N : Nat} {D : Nat → Prop} {w : World} (h : TidyIn N D w) {path : List UInt8}
    (h0 : (0 : UInt8) ∉ path) {d : Nat} {name : List UInt8}
    (hr : w.resolve path = .ok (.missing (inodeVa d) name)) (hvalid : nameIsValid name = true) (type : Nat) :
    ∃ t, Quiet w t ∧ fileCreate path type w = createIn d name type t := by
  obtain ⟨t, hq, ht⟩ := h.walkable.walkPath_run h0
  rw [hr] at ht
  refine ⟨t, hq, (bind_ok ht).trans ?_⟩
  dsimp only
  rw [if_neg (by simp [hvalid])]
  rfl

private theorem firstFree_eq_none_iff {N : Nat} {w : World} (h : Sane N w) :
    w.firstFree = none ↔ w.cached.freeBlocks = 0 := by
  rw [← Option.not_isSome_iff_eq_none, firstFree_isSome_iff h, ← Meta.freeBlocks_pos]
  omega

section Tail

variable {N : Nat} {D : Nat → Prop} {w : World} (h : TidyIn N D w) {d : Nat} (hmem : D d) (hdir : w.IsDir d)
  {name : List UInt8} (hlen : name.length < MAXNAMELEN) (type : Nat)
include h hmem hdir hlen

private theorem fill_returns {u s : World} {e k : Nat} (ha : Allots N w u d e) (hk : k < N)
    (hs : Starts N u s k) : ∃ v, (do
      recordEntry (inodeVa d) e DIRESIZE
      strcpy e name
      store16 (e + offInInd) k
      store16 (inodeVa k + offType) type
      fileFlush e
      pure e : M Nat) s = .ok e v := by
  obtain ⟨j, i, hz, hi, he⟩ := ha.block fun j => h.filled d j hmem hdir
  have hblk := ha.sane.slot_valid (h.lt d hmem) hz
  obtain ⟨l, v, hfill, -⟩ := fillEntry_run (Effect.refl hs.sane) hk hblk.1
    (by rw [hs.blkNum]; exact hblk.2.1) (hs.blkOcp _ hblk.2.2) (e := e)
    (by rw [he]; exact Nat.le_add_right _ _)
    (by rw [he]; simp only [BLKFILES, DIRESIZE, BLKSIZE] at *; omega) hlen (inodeVa d) type
  exact ⟨v, hfill⟩

variable (hroot : w.IsDir 0)
include hroot

private theorem createIn_granted {u : World} {e : Nat} (hrun : dirAllocEntry (inodeVa d) w = .ok e u)
    (hg : Grants N w u d e) :
    if w.firstInode ≠ none ∧ World.inodeBlocks type ≤ u.cached.freeBlocks
    then ∃ v, createIn d name type w = .ok e v
    else ∃ x v, createIn d name type w = .error (.err x) v ∧ x ≠ .fileExists ∧
      (v.cached.inode d).size = ((w.cached.inode d).size + DIRESIZE) % 65536 := by
  have hfirst : u.firstInode = w.firstInode := firstInode_congr h.sane hg.inNum hg.inOcp
  cases hf : w.firstInode with
  | none =>
    rw [if_neg (by simp)]
    exact ⟨_, u, (bind_ok hrun).trans (bind_error (allocInode_none (hfirst.trans hf))), by simp, hg.size⟩
  | some k =>
    obtain ⟨hk, hfree⟩ := h.sane.firstInode hf
    have hkd : k ≠ d := by
      rintro rfl
      rw [h.inUse (h.lt _ hmem) hdir] at hfree
      cases hfree
    have hk0 : k ≠ 0 := by
      rintro rfl
      rw [h.inUse h.sane.pos hroot] at hfree
      cases hfree
    have hfree' : u.cached.inOcp k = false := by
      rw [hg.inOcp]
      exact hfree
    have heff := (Effect.refl hg.sane).markInode hk hfree'
    have hstart : createIn d name type w = (do
        onlyIf (type = FTYPE_DIR) (initDir k)
        recordEntry (inodeVa d) e DIRESIZE
        strcpy e name
        store16 (e + offInInd) k
        store16 (inodeVa k + offType) type
        fileFlush e
        pure e) (u.markInode k) :=
      (bind_ok hrun).trans (bind_ok (allocInode_some hg.sane.ready (hfirst.trans hf) (hg.sane.lt hk)))
    by_cases htype : type = FTYPE_DIR
    swap
    · rw [if_pos ⟨by simp, by simp [World.inodeBlocks, htype]⟩]
      obtain ⟨v, hfill⟩ := fill_returns h hmem hdir hlen type hg.toAllots hk
        (markInode_starts hg.sane hk hfree')
      refine ⟨v, hstart.trans ?_⟩
      rw [onlyIf, if_neg htype]
      exact (bind_ok (pure_run _ _)).trans hfill
    have hz : u.cached.slot k 0 = 0 := by
      rw [Meta.slot, hg.other k hkd]
      exact (h.unused k hk hfree).2.2 0
    have hz' : (u.cached.setInOcp k true).slot k 0 = 0 := by
      rw [slot_setInOcp]
      exact hz
    have hblocks : (u.markInode k).firstFree = none ↔ u.cached.freeBlocks = 0 := by
      rw [firstFree_eq_none_iff heff.sane, heff.cached]
      rfl
    rw [onlyIf, if_pos htype] at hstart
    rw [World.inodeBlocks, if_pos htype]
    cases hb : (u.markInode k).firstFree with
    | none =>
      have hzero := hblocks.mp hb
      rw [if_neg (by omega)]
      have hfull := initDir_full heff hk hz' hk0 hb
      refine ⟨_, _, hstart.trans (bind_error hfull), by simp, ?_⟩
      rw [(heff.unmarkInode hk).cached]
      exact hg.size
    | some b =>
      have hsome : u.cached.freeBlocks ≠ 0 := fun hzero => by
        rw [hblocks.mpr hzero] at hb
        cases hb
      rw [if_pos ⟨by simp, by omega⟩]
      obtain ⟨_, s, hinit, -⟩ := initDir_run heff hk hz' hb
      obtain ⟨v, hfill⟩ := fill_returns h hmem hdir hlen type hg.toAllots hk
        (initDir_starts hg.sane hk hfree' hk0 hz hinit)
      exact ⟨v, hstart.trans ((bind_ok hinit).trans hfill)⟩

private theorem createIn_decides {u : World} {e : Nat} (hrun : dirAllocEntry (inodeVa d) w = .ok e u)
    (hg : Grants N w u d e) (hroom : w.vacant d ≠ none ∨ (w.cached.inode d).blkUsed < NDIRECT) :
    w.Decides d name type := by
  have hres := createIn_granted h hmem hdir hlen type hroot hrun hg
  have hcan : w.CanCreate d type ↔
      w.firstInode ≠ none ∧ World.inodeBlocks type ≤ u.cached.freeBlocks := by
    have hfree := hg.free
    rw [World.CanCreate, ← hfree]
    constructor
    · rintro ⟨-, hk, hle⟩
      exact ⟨hk, by omega⟩
    · rintro ⟨hk, hle⟩
      exact ⟨hroom, hk, by omega⟩
  split_ifs at hres with hc
  · obtain ⟨v, hv⟩ := hres
    exact Or.inl ⟨hcan.mpr hc, e, v, hv⟩
  · exact Or.inr ⟨fun hcc => hc (hcan.mp hcc), hres⟩

theorem createIn_cases : w.Decides d name type := by
  cases hv : w.vacant d with
  | some e =>
    obtain ⟨u, hrun, hg⟩ := dirAllocEntry_vacant h.sane (h.lt d hmem) (fun j => h.filled d j hmem hdir) hv
    exact createIn_decides h hmem hdir hlen type hroot hrun hg (Or.inl (by simp [hv]))
  | none =>
    have hnext := dirAllocEntry_next h.sane (h.lt d hmem) (fun j => h.filled d j hmem hdir) hv
    split_ifs at hnext with hl
    · obtain ⟨x, u, hrun, hx, hsize⟩ := hnext
      refine Or.inr ⟨?_, x, u, bind_error hrun, hx, hsize⟩
      rintro ⟨hroom, -, hle⟩
      rw [Meta.Lacks, Meta.gaps_self] at hl
      rw [World.entryBlocks, hv] at hle
      rw [hv] at hroom
      rcases hl with hl | ⟨hz, hfull⟩
      · exact hroom.elim (fun hn => hn rfl) (not_lt.mpr hl)
      · rw [if_pos ⟨rfl, hz⟩] at hle
        omega
    · obtain ⟨e, u, hrun, hg⟩ := hnext
      refine createIn_decides h hmem hdir hlen type hroot hrun hg (Or.inr ?_)
      by_contra hlt
      exact hl (Or.inl (not_lt.mp hlt))

end Tail

/-- The metadata and the contents of the directories are as they were. -/
structure SameFiles (N : Nat) (w v : World) : Prop where
  cached : v.cached = w.cached
  entry : ∀ i e, i < N → w.IsDir i → e ∈ w.entries i → ∀ x, e ≤ x → x < e + DIRESIZE → v.byte x = w.byte x

private theorem Quiet.sameFiles {w v : World} (h : Quiet w v) (N : Nat) : SameFiles N w v where
  cached := h.cached
  entry _ _ _ _ _ _ _ _ := by rw [h.byte]

theorem Quiet.canCreate {N : Nat} {w v : World} (h : Quiet w v) (hw : Sane N w) (d type : Nat) :
    v.CanCreate d type ↔ w.CanCreate d type := by
  have hvacant : v.vacant d = w.vacant d := by
    rw [World.vacant, World.vacant, entries_of_byte h.byte, h.byte]
  have hinode : v.firstInode = w.firstInode := firstInode_congr hw (by rw [h.cached]) (by rw [h.cached])
  rw [World.CanCreate, World.CanCreate, World.entryBlocks, World.entryBlocks, hvacant, hinode, h.cached]

private theorem bumped_ne (w : World) (d : Nat) :
    ((w.cached.inode d).size + DIRESIZE) % 65536 ≠ (w.cached.inode d).size := by
  have hlt := size_lt w d
  simp only [DIRESIZE]
  omega

theorem Quiet.tidyIn {N : Nat} {D : Nat → Prop} {w v : World} (h : Quiet w v) (hw : TidyIn N D w) :
    TidyIn N D v where
  sane := h.sane hw.sane
  lt := hw.lt
  root := hw.root
  filled i j hi hd hj := by
    rw [h.isDir] at hd
    rw [h.cached] at hj ⊢
    exact hw.filled i j hi hd hj
  named i e hi hd he hb := by
    rw [h.isDir] at hd
    rw [entries_of_byte h.byte] at he
    rw [h.byte] at hb
    rw [h.inInd]
    exact hw.named i e hi hd he hb
  unused i hi ho := by
    rw [h.cached] at ho ⊢
    rw [h.isDir]
    exact hw.unused i hi ho

/-- A creation that fails leaves no trace exactly when it is refused before an entry is taken, or
finds all it needs. -/
theorem failed_create_iff (N : Nat) (D : Nat → Prop) (w : World) (path : List UInt8) (type : Nat)
    (h : TidyIn N D w) (h0 : (0 : UInt8) ∉ path) :
    (∀ x v, fileCreate path type w = .error (.err x) v → SameFiles N w v) ↔
      ∀ d name, w.foldPath path = .ok (.missing (inodeVa d) name) → nameIsValid name = true →
        w.CanCreate d type := by
  rw [← resolve_eq_foldPath w h0]
  constructor
  · intro hall d name hr hvalid
    obtain ⟨i, hi, hdir, -, he, -, -, hlen, -⟩ := resolve_placedIn h h0 hr
    obtain rfl := inodeVa_inj he
    obtain ⟨t, hq, hrun⟩ := fileCreate_createIn h h0 hr hvalid type
    have hcases := createIn_cases (hq.tidyIn h) hi ((hq.isDir d).mpr hdir) hlen type
      ((hq.isDir 0).mpr (root_of_missing hr))
    rw [World.Decides, hq.canCreate h.sane, hq.cached] at hcases
    rcases hcases with ⟨hc, -⟩ | ⟨-, x, v, hfail, -, hsize⟩
    · exact hc
    · have hsame := (hall x v (hrun.trans hfail)).cached
      rw [hsame] at hsize
      exact absurd hsize.symm (bumped_ne w d)
  · intro hcan x v hrun
    by_cases hex : ∃ d name, w.resolve path = .ok (.missing d name) ∧ nameIsValid name = true
    · obtain ⟨dir, name, hr, hvalid⟩ := hex
      obtain ⟨d, hd, hdir, -, rfl, -, -, hlen, -⟩ := resolve_placedIn h h0 hr
      obtain ⟨t, hq, ht⟩ := fileCreate_createIn h h0 hr hvalid type
      have hcases := createIn_cases (hq.tidyIn h) hd ((hq.isDir d).mpr hdir) hlen type
        ((hq.isDir 0).mpr (root_of_missing hr))
      rw [World.Decides, hq.canCreate h.sane] at hcases
      rcases hcases with ⟨-, e, v', hok⟩ | ⟨hn, -⟩
      · rw [ht, hok] at hrun
        cases hrun
      · exact absurd (hcan d name hr hvalid) hn
    · obtain ⟨x', v', hfail, hq⟩ := fileCreate_refused h h0 type fun d name hr => by
        by_contra hvalid
        exact hex ⟨d, name, hr, by simpa using hvalid⟩
      rw [hfail] at hrun
      cases hrun
      exact hq.sameFiles N

theorem failed_create_fresh : Tidy 4 (mount (freshDisk 4 1)) ∧
    ∀ x v, fileCreate [47, 97] FTYPE_DIR (mount (freshDisk 4 1)) = .error (.err x) v →
      SameFiles 4 (mount (freshDisk 4 1)) v := by
  refine ⟨orderly_fresh.tidy, ?_⟩
  refine (failed_create_iff 4 _ _ [47, 97] FTYPE_DIR orderly_fresh.tidy.within (by decide)).mpr fun d name hr _ => ?_
  have hroot : (mount (freshDisk 4 1)).foldPath [47, 97] = .ok (.missing (inodeVa 0) [97]) := by
    decide +kernel
  rw [hroot] at hr
  simp only [Except.ok.injEq, Walk.missing.injEq] at hr
  obtain rfl := inodeVa_inj hr.1
  exact ⟨Or.inl (by decide +kernel), by decide +kernel, by decide +kernel⟩

private theorem tidy_taken : Tidy 4 (mount (freshDisk 4 255)) where
  sane := ⟨⟨rfl, rfl⟩, by decide +kernel, by decide, by decide, (soundImage_iff (by decide)).mp
    ⟨by decide +kernel, by decide +kernel, by decide +kernel,
      OwnedBlocks.of_filled [(0, 0)] (by decide +kernel) (by decide +kernel) (by decide +kernel)⟩⟩
  filled i j hi hd hj := by
    have hall : ∀ i < 4, (mount (freshDisk 4 255)).IsDir i →
        ∀ j < ((mount (freshDisk 4 255)).cached.inode i).blkUsed,
          (mount (freshDisk 4 255)).cached.slot i j ≠ 0 := by decide +kernel
    exact hall i hi hd j hj
  named i e hi hd he hb := by
    have hall : ∀ i < 4, (mount (freshDisk 4 255)).IsDir i → ∀ e ∈ (mount (freshDisk 4 255)).entries i,
        (mount (freshDisk 4 255)).byte e = 0 := by decide +kernel
    exact absurd (hall i hi hd e he) hb
  unused i hi ho := by
    have hall : ∀ i < 4, (mount (freshDisk 4 255)).cached.inOcp i = true := by decide +kernel
    rw [hall i hi] at ho
    cases ho

/-- Every inode is in use: `/a` is not created, but the root directory has grown. -/
theorem failed_create_grows : ¬∀ (N : Nat) (w : World) (path : List UInt8) (type : Nat), Tidy N w →
    (0 : UInt8) ∉ path → ∀ x v, fileCreate path type w = .error (.err x) v → SameFiles N w v := by
  intro hall
  have hmiss : (mount (freshDisk 4 255)).resolve [47, 97] = .ok (.missing (inodeVa 0) [97]) := by
    decide +kernel
  have hvacant : (mount (freshDisk 4 255)).vacant 0 = some (blockVa 2) := by decide +kernel
  obtain ⟨v, hrun, heff⟩ := fileCreate_noInode tidy_taken.within (by decide) hmiss (by decide) hvacant
    FTYPE_REG (by decide +kernel)
  have hsame := (hall 4 _ [47, 97] FTYPE_REG tidy_taken (by decide) _ v hrun).cached
  rw [heff.cached] at hsame
  have hsize := congrArg (fun m => (m.inode 0).size) hsame
  refine bumped_ne (mount (freshDisk 4 255)) 0 ?_
  simpa [Meta.bumped, Meta.setSize, Meta.setInode] using hsize

end DamnOS.FileSystem
