import DamnOS.FileSystem.Coherence
import DamnOS.FileSystem.Careful

/-!
# Memory outside the disk map

Apart from the buffer of a read, the calls store into the disk map only: all pointers they store through
come from `diskaddr` or point into the inode table.
-/

namespace DamnOS.FileSystem

open DamnOS.Framework

def Spares (L : Nat) (w v : World) : Prop := ∀ x, x < L → v.mem x = w.mem x

instance (L : Nat) : IsPreorder World (Spares L) where
  refl _ _ _ := rfl
  trans _ _ _ h k x hx := (k x hx).trans (h x hx)

variable {L : Nat} [hL : Fact (L ≤ DISKMAP)]

instance spares_touchPage (p : Nat) : Keeps (Spares L) (touchPage p) where
  final w := by
    have hload (hlo : DISKMAP ≤ p * PGSIZE) : Spares L w (w.load p) := by
      intro x hx
      have hL := hL.out
      have hxp : ¬x / PGSIZE = p := by
        simp only [PGSIZE] at *
        omega
      exact if_neg hxp
    rcases touchPage_cases w p with ⟨e, hr⟩ | ⟨hp, hr⟩ | ⟨hp, hlo, hr | ⟨e, hr⟩⟩
    · rw [final_error hr]
      exact refl_of (Spares L) w
    · rw [final_ok hr]
      exact refl_of (Spares L) w
    · rw [final_ok hr]
      exact hload (by simp only [PGSIZE, DISKMAP, superPg] at *; omega)
    · rw [final_error hr]
      exact hload (by simp only [PGSIZE, DISKMAP, superPg] at *; omega)

instance spares_touch (a n : Nat) : Keeps (Spares L) (touch a n) := by
  unfold touch
  infer_instance

instance spares_load16 (a : Nat) : Keeps (Spares L) (load16 a) := by
  unfold load16
  infer_instance

omit hL in
theorem spares_write (w : World) {a n : Nat} {f : Nat → UInt8} (ha : L ≤ a) : Spares L w (w.write a n f) := by
  intro x hx
  exact splice_outside _ _ (Or.inl (hx.trans_le ha))

instance spares_store {a n : Nat} {f : Nat → UInt8} [ha : Fact (L ≤ a)] : Keeps (Spares L) (store a n f) := by
  unfold store
  exact Keeps.andThen fun _ => Keeps.change fun w => spares_write w ha.out

instance spares_store16 {a v : Nat} [Fact (L ≤ a)] : Keeps (Spares L) (store16 a v) := by
  unfold store16
  infer_instance

instance spares_store32 {a v : Nat} [Fact (L ≤ a)] : Keeps (Spares L) (store32 a v) := by
  unfold store32
  infer_instance

instance spares_strcpy {a : Nat} {s : List UInt8} [Fact (L ≤ a)] : Keeps (Spares L) (strcpy a s) := by
  unfold strcpy
  infer_instance

instance spares_memmove {dst src n : Nat} [hd : Fact (L ≤ dst)] : Keeps (Spares L) (memmove dst src n) := by
  unfold memmove
  exact Keeps.andThen fun _ => Keeps.andThen fun _ => Keeps.change fun w => spares_write w hd.out

instance spares_flushBlock (a : Nat) : Keeps (Spares L) (flushBlock a) := by
  have hflush (w : World) (p : Nat) : Spares L w (w.flush p) := by
    unfold World.flush
    split
    · exact fun _ _ => rfl
    · exact refl_of (Spares L) w
  unfold flushBlock
  split
  · infer_instance
  · exact Keeps.change fun w => hflush w _

instance spares_diskaddr (b : Nat) : Keeps (Spares L) (diskaddr b) := by
  unfold diskaddr
  infer_instance

omit hL in
instance spares_follow (k : Nat) : Keeps (Spares L) (modify fun w => w.follow k : M Unit) :=
  Keeps.change fun _ _ _ => rfl

omit hL in
instance spares_log (x : World → Access) : Keeps (Spares L) (modify fun w => w.log (x w) : M Unit) :=
  Keeps.change fun _ _ _ => rfl

omit hL in
instance spares_attempt {α : Type} {m : M α} [h : Keeps (Spares L) m] : Keeps (Spares L) (attempt m) where
  final w := by
    rw [final_attempt]
    exact h.final w

omit hL in
instance spares_onlyIf {c : Prop} [Decidable c] {m : M Unit} [Keeps (Spares L) m] :
    Keeps (Spares L) (onlyIf c m) := by
  unfold onlyIf
  infer_instance

instance above_blockVa (b : Nat) : Fact (L ≤ blockVa b) := ⟨hL.out.trans (Nat.le_add_right _ _)⟩

instance above_super : Fact (L ≤ super) := above_blockVa 0

instance above_inodeVa (k : Nat) : Fact (L ≤ inodeVa k) :=
  ⟨(above_blockVa 1).out.trans (Nat.le_add_right _ _)⟩

omit hL in
instance above_offset {a o : Nat} [h : Fact (L ≤ a)] : Fact (L ≤ a + o) := ⟨h.out.trans (Nat.le_add_right _ _)⟩

instance spares_freeBlock (b : Nat) : Keeps (Spares L) (freeBlock b) := by
  unfold freeBlock
  infer_instance

instance spares_freeInode (k : Nat) : Keeps (Spares L) (freeInode k) := by
  unfold freeInode
  infer_instance

instance spares_allocBlock : Keeps (Spares L) allocBlock := by
  refine Keeps.andThen fun w => ?_
  cases (List.range w.blkNum).find? w.blockIsFree with
  | none => exact Keeps.stop _
  | some b => infer_instance

instance spares_allocInode : Keeps (Spares L) allocInode := by
  refine Keeps.andThen fun w => ?_
  cases (List.range w.inNum).find? w.inodeIsFree with
  | none => exact Keeps.stop _
  | some k => infer_instance

omit hL in
private theorem inodeOf_pointer {f a : Nat} {w v : World} (h : inodeOf f w = .ok a v) : ∃ k, a = inodeVa k := by
  obtain ⟨k, t, -, h⟩ := bind_eq_ok h
  obtain ⟨-, u, -, h⟩ := bind_eq_ok h
  cases h
  exact ⟨k, rfl⟩

instance spares_inodeOf (f : Nat) : Keeps (Spares L) (inodeOf f) := by
  unfold inodeOf
  infer_instance

private theorem spares_inodeOf_bind {α : Type} {f : Nat} {g : Nat → M α} (h : ∀ k, Keeps (Spares L) (g (inodeVa k))) :
    Keeps (Spares L) (inodeOf f >>= g) := by
  refine Keeps.bindOf (P := fun a => ∃ k, a = inodeVa k) (fun w a v hr => inodeOf_pointer hr) ?_
  rintro a ⟨k, rfl⟩
  exact h k

section Inode

variable {inode : Nat} [Fact (L ≤ inode)]

instance spares_fillSlot (slot : Nat) [Fact (L ≤ slot)] : Keeps (Spares L) (fillSlot inode slot) := by
  unfold fillSlot
  infer_instance

instance spares_fileGetBlock (j : Nat) : Keeps (Spares L) (fileGetBlock inode j) := by
  unfold fileGetBlock fileBlockWalk
  split_ifs
  · exact inferInstanceAs (Keeps (Spares L) (do
      let b ← load16 (inode + offBlkInd + 2 * j)
      onlyIf (b = 0) (fillSlot inode (inode + offBlkInd + 2 * j))
      let b ← load16 (inode + offBlkInd + 2 * j)
      let blk ← diskaddr b
      flushBlock inode
      pure blk))
  · exact Keeps.stop _

instance spares_dirScan (test : World → Nat → Bool) (i n : Nat) : Keeps (Spares L) (dirScan inode test i n) := by
  induction n generalizing i with
  | zero => exact Keeps.ret _
  | succ n ih =>
    unfold dirScan
    refine Keeps.andThen fun blk => Keeps.andThen fun _ => Keeps.andThen fun w => ?_
    cases (List.range BLKFILES).find? (fun j => test w (blk + DIRESIZE * j)) with
    | none => exact ih (i + 1)
    | some j => exact Keeps.ret _

instance spares_dirLookup (name : List UInt8) : Keeps (Spares L) (dirLookup inode name) := by
  unfold dirLookup
  infer_instance

instance spares_bumpSize : Keeps (Spares L) (bumpSize inode) := by
  unfold bumpSize
  infer_instance

instance spares_dirAllocEntry : Keeps (Spares L) (dirAllocEntry inode) := by
  refine Keeps.andThen fun nblock => Keeps.andThen fun found => ?_
  cases found with
  | some e => infer_instance
  | none => infer_instance

end Inode

omit hL in
private theorem fileGetBlock_pointer {inode j a : Nat} {w v : World} (h : fileGetBlock inode j w = .ok a v) :
    DISKMAP ≤ a := by
  obtain ⟨slot, t, -, h⟩ := bind_eq_ok h
  obtain ⟨b, t, -, h⟩ := bind_eq_ok h
  obtain ⟨-, t, -, h⟩ := bind_eq_ok h
  obtain ⟨b, t, -, h⟩ := bind_eq_ok h
  obtain ⟨blk, u, hd, h⟩ := bind_eq_ok h
  obtain ⟨-, u', -, h⟩ := bind_eq_ok h
  cases h
  unfold diskaddr at hd
  obtain ⟨x, t', -, hd⟩ := bind_eq_ok hd
  split at hd
  · cases hd
  · cases hd
    exact Nat.le_add_right _ _

omit hL in
private theorem dirScan_pointer {dir : Nat} {test : World → Nat → Bool} {i n a : Nat} {w v : World}
    (h : dirScan dir test i n w = .ok (some a) v) : DISKMAP ≤ a := by
  induction n generalizing i w with
  | zero => cases h
  | succ n ih =>
    obtain ⟨blk, t, hb, h⟩ := bind_eq_ok h
    obtain ⟨-, t', -, h⟩ := bind_eq_ok h
    obtain ⟨x, u, hg, h⟩ := bind_eq_ok h
    have hblk := fileGetBlock_pointer hb
    cases hf : (List.range BLKFILES).find? (fun j => test x (blk + DIRESIZE * j)) with
    | none =>
      rw [hf] at h
      exact ih h
    | some j =>
      rw [hf] at h
      cases h
      exact hblk.trans (Nat.le_add_right _ _)

omit hL in
private theorem dirAllocEntry_pointer {dir a : Nat} {w v : World} (h : dirAllocEntry dir w = .ok a v) :
    DISKMAP ≤ a := by
  obtain ⟨n, t, -, h⟩ := bind_eq_ok h
  obtain ⟨found, t', hs, h⟩ := bind_eq_ok h
  cases found with
  | some e =>
    obtain ⟨-, u, -, h⟩ := bind_eq_ok h
    cases h
    exact dirScan_pointer hs
  | none =>
    obtain ⟨used, u, -, h⟩ := bind_eq_ok h
    obtain ⟨-, u, -, h⟩ := bind_eq_ok h
    obtain ⟨-, u, -, h⟩ := bind_eq_ok h
    exact fileGetBlock_pointer h

private theorem spares_walkLoop (fuel : Nat) (path : List UInt8) {f : Nat} (dir entry : Nat) (hf : L ≤ f) :
    Keeps (Spares L) (walkLoop fuel path f dir entry) := by
  induction fuel generalizing path f dir entry with
  | zero => exact Keeps.stop _
  | succ fuel ih =>
    have : Fact (L ≤ f) := ⟨hf⟩
    unfold walkLoop
    dsimp only
    split
    · infer_instance
    split
    · infer_instance
    refine Keeps.andThen fun type => ?_
    split
    · infer_instance
    refine Keeps.andThen fun found => ?_
    cases found with
    | none => infer_instance
    | some e => exact spares_inodeOf_bind fun k => ih _ _ _ (above_inodeVa k).out

instance spares_walkPath (path : List UInt8) : Keeps (Spares L) (walkPath path) := by
  unfold walkPath
  split
  · exact spares_walkLoop _ _ _ _ (above_inodeVa 0).out
  · infer_instance

instance spares_fileOpen (path : List UInt8) : Keeps (Spares L) (fileOpen path) := by
  refine Keeps.andThen fun r => ?_
  cases r with
  | found dir entry => exact Keeps.ret _
  | missing dir name => exact Keeps.stop _

omit hL in
private theorem walkLoop_missing {fuel : Nat} {path name : List UInt8} {f dir entry d : Nat} {w v : World}
    (hf : ∃ k, f = inodeVa k) (h : walkLoop fuel path f dir entry w = .ok (.missing d name) v) :
    ∃ k, d = inodeVa k := by
  induction fuel generalizing path f dir entry w with
  | zero => cases h
  | succ fuel ih =>
    unfold walkLoop at h
    dsimp only at h
    split at h
    · cases h
    split at h
    · cases h
    obtain ⟨type, t, -, h⟩ := bind_eq_ok h
    split at h
    · cases h
    obtain ⟨found, t', -, h⟩ := bind_eq_ok h
    cases found with
    | none =>
      dsimp only at h
      split at h
      · cases h
        exact hf
      · cases h
    | some e =>
      obtain ⟨g, u, hg, h⟩ := bind_eq_ok h
      exact ih (inodeOf_pointer hg) h

omit hL in
private theorem walkPath_missing {path name : List UInt8} {d : Nat} {w v : World}
    (h : walkPath path w = .ok (.missing d name) v) : ∃ k, d = inodeVa k := by
  unfold walkPath at h
  split at h
  · exact walkLoop_missing ⟨0, rfl⟩ h
  · cases h

instance spares_fileFreeBlock (f j : Nat) : Keeps (Spares L) (fileFreeBlock f j) := by
  refine spares_inodeOf_bind fun k => ?_
  unfold fileBlockWalk
  split_ifs
  · exact inferInstanceAs (Keeps (Spares L) (do
      let b ← load16 (inodeVa k + offBlkInd + 2 * j)
      if b = 0 then pure () else do
        freeBlock b
        store16 (inodeVa k + offBlkInd + 2 * j) 0))
  · exact Keeps.stop _

instance spares_fileTruncateBlocks (f : Nat) (newsize : Int) : Keeps (Spares L) (fileTruncateBlocks f newsize) := by
  unfold fileTruncateBlocks
  infer_instance

instance spares_fileSetSize (f : Nat) (newsize : Int) : Keeps (Spares L) (fileSetSize f newsize) := by
  unfold fileSetSize
  exact spares_inodeOf_bind fun k => inferInstance

instance spares_flushSlot (inode i : Nat) : Keeps (Spares L) (flushSlot inode i) := by
  unfold flushSlot
  infer_instance

instance spares_fileFlush (f : Nat) : Keeps (Spares L) (fileFlush f) := by
  unfold fileFlush
  infer_instance

instance spares_fsSync : Keeps (Spares L) fsSync := by
  unfold fsSync
  infer_instance

instance spares_recordEntry (dir a len : Nat) : Keeps (Spares L) (recordEntry dir a len) := by
  unfold recordEntry
  infer_instance

set_option synthInstance.maxSize 512 in
instance spares_initDir (k : Nat) : Keeps (Spares L) (initDir k) := by
  unfold initDir
  refine Keeps.bindOf (P := fun r => ∀ b, r = .ok b → DISKMAP ≤ b) (fun w r v hr b hb => ?_) fun r hr => ?_
  · subst hb
    exact fileGetBlock_pointer (attempt_eq_ok hr)
  · cases r with
    | error e => infer_instance
    | ok blk =>
      have : Fact (L ≤ blk) := ⟨hL.out.trans (hr blk rfl)⟩
      dsimp only
      infer_instance

set_option synthInstance.maxSize 512 in
instance spares_fileCreate (path : List UInt8) (type : Nat) : Keeps (Spares L) (fileCreate path type) := by
  refine Keeps.bindOf (P := fun r => ∀ d name, r = .missing d name → ∃ k, d = inodeVa k) ?_ fun r hr => ?_
  · rintro w r v hr d name rfl
    exact walkPath_missing hr
  · cases r with
    | found dir entry => exact Keeps.stop _
    | missing dir name =>
      obtain ⟨d, rfl⟩ := hr dir name rfl
      dsimp only
      split
      · infer_instance
      · refine Keeps.bindOf (P := fun e => DISKMAP ≤ e) (fun w e v he => dirAllocEntry_pointer he) fun e he => ?_
        have : Fact (L ≤ e) := ⟨hL.out.trans he⟩
        infer_instance

private theorem fileRemove_spares {path : List UInt8} {w : World}
    (h : ∀ dir f v, walkPath path w = .ok (.found dir f) v → L ≤ f) : Spares L w (final (fileRemove path) w) := by
  unfold fileRemove
  cases hr : walkPath path w with
  | error x v =>
    rw [final_error (bind_error hr)]
    exact Keeps.of_error hr
  | ok r v =>
    rw [final_congr (bind_ok hr)]
    refine trans_of (Spares L) (Keeps.of_ok hr) ?_
    cases r with
    | missing dir name => exact refl_of (Spares L) v
    | found dir f =>
      have : Fact (L ≤ f) := ⟨h dir f v hr⟩
      have hk : Keeps (Spares L) (do
          let before ← get
          fileSetSize f 0
          modify fun w => w.log (.entry (before.slotsOf dir) f 1)
          store f 1 fun _ => 0
          let inode ← inodeOf f
          store16 (inode + offSize) 0
          flushBlock f
          flushBlock (inodeVa 0) : M Unit) :=
        Keeps.andThen fun before => Keeps.andThen fun _ => Keeps.andThen fun _ => Keeps.andThen fun _ =>
          spares_inodeOf_bind fun k => inferInstance
      exact hk.final v

private theorem spares_readLoop {inode : Nat} [Fact (L ≤ inode)] (stop fuel : Nat) (pos : Int) {buf : Nat}
    (hbuf : L ≤ buf) :
    Keeps (Spares L) (readLoop inode stop fuel pos buf) := by
  induction fuel generalizing pos buf with
  | zero => exact Keeps.ret _
  | succ fuel ih =>
    have : Fact (L ≤ buf) := ⟨hbuf⟩
    unfold readLoop
    split
    · exact Keeps.andThen fun blk => Keeps.andThen fun _ => Keeps.andThen fun _ => ih _ (hbuf.trans (Nat.le_add_right _ _))
    · infer_instance

private theorem fileRead_spares {buf : Nat} (f count : Nat) (offset : Int) (hbuf : L ≤ buf) :
    Keeps (Spares L) (fileRead f buf count offset) := by
  unfold fileRead
  refine spares_inodeOf_bind fun k => Keeps.andThen fun size => ?_
  split
  · infer_instance
  · have hloop (stop fuel : Nat) : Keeps (Spares L) (readLoop (inodeVa k) stop fuel offset buf) :=
      spares_readLoop stop fuel offset hbuf
    infer_instance

private theorem spares_writeLoop {inode : Nat} [Fact (L ≤ inode)] (stop fuel : Nat) {pos : Int} (buf : Nat)
    (hpos : 0 ≤ pos) :
    Keeps (Spares L) (writeLoop inode stop fuel pos buf) := by
  induction fuel generalizing pos buf with
  | zero => exact Keeps.ret _
  | succ fuel ih =>
    unfold writeLoop
    split
    · refine Keeps.bindOf (P := fun b => DISKMAP ≤ b) (fun w b v hb => fileGetBlock_pointer hb) fun b hb => ?_
      have hdst : Fact (L ≤ inBlock b pos) := by
        have hmod : 0 ≤ pos.tmod BLKSIZE := Int.tmod_nonneg _ hpos
        refine ⟨hL.out.trans (hb.trans ?_)⟩
        unfold inBlock
        omega
      exact Keeps.andThen fun _ => Keeps.andThen fun _ => ih _ (by omega)
    · infer_instance

private theorem fileWrite_spares (f buf count : Nat) {offset : Int} (hpos : 0 ≤ offset) :
    Keeps (Spares L) (fileWrite f buf count offset) := by
  unfold fileWrite
  refine spares_inodeOf_bind fun k => Keeps.andThen fun size => Keeps.andThen fun _ => ?_
  have hloop (stop fuel : Nat) : Keeps (Spares L) (writeLoop (inodeVa k) stop fuel offset buf) :=
    spares_writeLoop stop fuel buf hpos
  infer_instance

/-- The buffer of a read lies above `L`, and no write starts at a negative offset. -/
def FileOp.Over (L : Nat) : FileOp → Prop
  | .read _ buf _ _ => L ≤ buf
  | .write _ _ _ offset => 0 ≤ offset
  | .caller buf _ => L ≤ buf
  | _ => True

/-- With the directories in order, and the root not removed, the memory below `L` stays. -/
theorem exec_spares {N : Nat} {D : Nat → Prop} {w : World} (h : InOrder N D w) {op : FileOp} (hover : op.Over L)
    (hremove : ∀ path, op = .remove path → (0 : UInt8) ∉ path ∧
      ∀ dir f, w.resolve path = .ok (.found dir f) → f ≠ 0) : Spares L w (server.step op w) := by
  have hdone {α : Type} {m : M α} (hm : Keeps (Spares L) m) : Spares L w (final (m >>= fun _ => pure ()) w) := by
    rw [final_bind_pure]
    exact hm.final w
  cases op with
  | create path type => exact hdone (spares_fileCreate path type)
  | remove path =>
    obtain ⟨h0, hroot⟩ := hremove path rfl
    refine fileRemove_spares fun dir f v hr => ?_
    obtain ⟨t, hq, hwalk⟩ := h.walkable.walkPath_run h0
    rw [hr] at hwalk
    cases hres : w.resolve path with
    | error x =>
      rw [hres] at hwalk
      cases hwalk
    | ok r =>
      rw [hres] at hwalk
      cases hwalk
      rcases resolve_placedIn h.toTidyIn h0 hres with ⟨-, hzero⟩ | ⟨d, hd, hdir, -, -, hf, hb⟩
      · exact absurd hzero (hroot dir f hres)
      · obtain ⟨j, e, -, -, rfl⟩ := (h.filledAt hd hdir).entryIn hf
        exact (above_blockVa _).out.trans (Nat.le_add_right _ _)
  | «open» path => exact hdone (spares_fileOpen path)
  | read f buf count offset => exact hdone (fileRead_spares f count offset hover)
  | write f buf count offset => exact hdone (fileWrite_spares f buf count hover)
  | setSize f newsize => exact (spares_fileSetSize f newsize).final w
  | flush f => exact (spares_fileFlush f).final w
  | sync => exact spares_fsSync.final w
  | caller buf bytes => exact spares_write _ hover

omit hL in
theorem Spares.inInd {w v : World} (h : Spares L w v) (hL : L ≤ DISKMAP) {f : Nat} (hf : f + DIRESIZE ≤ L) :
    v.inInd f = w.inInd f := by
  refine inInd_of_byte fun x _ hx => ?_
  have hlow : x < DISKMAP := by omega
  rw [World.byte, World.byte, if_pos (Or.inr hlow), if_pos (Or.inr hlow)]
  exact h x (by omega)

end DamnOS.FileSystem
