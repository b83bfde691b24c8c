import DamnOS.FileSystem.Views

/-!
# Histories only grow

No operation forgets a disk write, a data access or a followed inode number, whether it returns,
fails or panics.
-/

namespace DamnOS.FileSystem

open DamnOS.Framework

structure Grows (w v : World) : Prop where
  writes : w.writes <:+ v.writes
  accesses : w.accesses <:+ v.accesses
  followed : w.followed <:+ v.followed

theorem Grows.refl (w : World) : Grows w w :=
  ⟨List.suffix_rfl, List.suffix_rfl, List.suffix_rfl⟩

theorem Grows.trans {u v w : World} (h : Grows u v) (k : Grows v w) : Grows u w :=
  ⟨h.writes.trans k.writes, h.accesses.trans k.accesses, h.followed.trans k.followed⟩

theorem grows_load (w : World) (p : Nat) : Grows w (w.load p) :=
  ⟨List.suffix_rfl, List.suffix_rfl, List.suffix_rfl⟩

theorem grows_write (w : World) (a n : Nat) (f : Nat → UInt8) : Grows w (w.write a n f) :=
  ⟨List.suffix_rfl, List.suffix_rfl, List.suffix_rfl⟩

theorem grows_flush (w : World) (p : Nat) : Grows w (w.flush p) := by
  unfold World.flush
  split_ifs
  · exact ⟨List.suffix_cons _ _, List.suffix_rfl, List.suffix_rfl⟩
  · exact Grows.refl w

theorem grows_follow (w : World) (k : Nat) : Grows w (w.follow k) :=
  ⟨List.suffix_rfl, List.suffix_rfl, List.suffix_cons _ _⟩

theorem grows_log (w : World) (x : Access) : Grows w (w.log x) :=
  ⟨List.suffix_rfl, List.suffix_cons _ _, List.suffix_rfl⟩

instance : IsPreorder World Grows where
  refl := Grows.refl
  trans _ _ _ := Grows.trans

section Programs

variable {α : Type}

instance keeps_attempt {m : M α} [h : Keeps Grows m] : Keeps Grows (attempt m) where
  final w := by
    have hw := h.final w
    unfold final attempt at *
    cases hr : m w with
    | ok a t => simpa only [hr] using hw
    | error e t =>
      cases e with
      | panic p => simpa only [hr] using hw
      | err e => simpa only [hr] using hw

instance keeps_onlyIf {c : Prop} [Decidable c] {m : M Unit} [Keeps Grows m] :
    Keeps Grows (onlyIf c m) := by
  unfold onlyIf
  infer_instance

instance keeps_load (p : Nat) : Keeps Grows (modify fun w => w.load p : M Unit) :=
  Keeps.change fun w => grows_load w p

instance keeps_write (a n : Nat) (f : World → Nat → UInt8) :
    Keeps Grows (modify fun w => w.write a n (f w) : M Unit) :=
  Keeps.change fun w => grows_write w a n (f w)

instance keeps_flush (p : Nat) : Keeps Grows (modify fun w => w.flush p : M Unit) :=
  Keeps.change fun w => grows_flush w p

instance keeps_follow (k : Nat) : Keeps Grows (modify fun w => w.follow k : M Unit) :=
  Keeps.change fun w => grows_follow w k

instance keeps_log (x : World → Access) : Keeps Grows (modify fun w => w.log (x w) : M Unit) :=
  Keeps.change fun w => grows_log w (x w)

instance keeps_bcPgfault (p : Nat) : Keeps Grows (bcPgfault p) := by
  unfold bcPgfault
  infer_instance

instance keeps_touchPage (p : Nat) : Keeps Grows (touchPage p) := by
  unfold touchPage
  infer_instance

instance keeps_touch (a n : Nat) : Keeps Grows (touch a n) := by
  unfold touch
  infer_instance

instance keeps_load16 (a : Nat) : Keeps Grows (load16 a) := by
  unfold load16
  infer_instance

instance keeps_store (a n : Nat) (f : Nat → UInt8) : Keeps Grows (store a n f) := by
  unfold store
  infer_instance

instance keeps_store16 (a v : Nat) : Keeps Grows (store16 a v) := by
  unfold store16
  infer_instance

instance keeps_store32 (a v : Nat) : Keeps Grows (store32 a v) := by
  unfold store32
  infer_instance

instance keeps_strcpy (a : Nat) (s : List UInt8) : Keeps Grows (strcpy a s) := by
  unfold strcpy
  infer_instance

instance keeps_memmove (dst src n : Nat) : Keeps Grows (memmove dst src n) := by
  unfold memmove
  infer_instance

instance keeps_flushBlock (a : Nat) : Keeps Grows (flushBlock a) := by
  unfold flushBlock
  infer_instance

instance keeps_diskaddr (b : Nat) : Keeps Grows (diskaddr b) := by
  unfold diskaddr
  infer_instance

instance keeps_freeBlock (b : Nat) : Keeps Grows (freeBlock b) := by
  unfold freeBlock
  infer_instance

instance keeps_freeInode (k : Nat) : Keeps Grows (freeInode k) := by
  unfold freeInode
  infer_instance

instance keeps_allocBlock : Keeps Grows allocBlock := by
  refine Keeps.andThen fun w => ?_
  cases (List.range w.blkNum).find? w.blockIsFree with
  | none => exact Keeps.stop _
  | some b => infer_instance

instance keeps_allocInode : Keeps Grows allocInode := by
  refine Keeps.andThen fun w => ?_
  cases (List.range w.inNum).find? w.inodeIsFree with
  | none => exact Keeps.stop _
  | some k => infer_instance

instance keeps_fileBlockWalk (inode i : Nat) : Keeps Grows (fileBlockWalk inode i) := by
  unfold fileBlockWalk
  infer_instance

instance keeps_fillSlot (inode slot : Nat) : Keeps Grows (fillSlot inode slot) := by
  unfold fillSlot
  infer_instance

instance keeps_fileGetBlock (inode i : Nat) : Keeps Grows (fileGetBlock inode i) := by
  unfold fileGetBlock
  infer_instance

instance keeps_inodeOf (f : Nat) : Keeps Grows (inodeOf f) := by
  unfold inodeOf
  infer_instance

instance keeps_dirScan (dir : Nat) (test : World → Nat → Bool) (i n : Nat) :
    Keeps Grows (dirScan dir test i n) := by
  induction n generalizing i with
  | zero => exact Keeps.ret _
  | succ n ih =>
    unfold dirScan
    refine Keeps.andThen fun blk => Keeps.andThen fun _ =>
      Keeps.andThen fun w => ?_
    cases (List.range BLKFILES).find? (fun j => test w (blk + DIRESIZE * j)) with
    | none => exact ih (i + 1)
    | some j => exact Keeps.ret _

instance keeps_dirLookup (dir : Nat) (name : List UInt8) : Keeps Grows (dirLookup dir name) := by
  unfold dirLookup
  infer_instance

instance keeps_bumpSize (dir : Nat) : Keeps Grows (bumpSize dir) := by
  unfold bumpSize
  infer_instance

instance keeps_dirAllocEntry (dir : Nat) : Keeps Grows (dirAllocEntry dir) := by
  refine Keeps.andThen fun nblock => Keeps.andThen fun found => ?_
  cases found with
  | some e => infer_instance
  | none => infer_instance

instance keeps_walkLoop (fuel : Nat) (path : List UInt8) (f dir entry : Nat) :
    Keeps Grows (walkLoop fuel path f dir entry) := by
  induction fuel generalizing path f dir entry with
  | zero => exact Keeps.stop _
  | succ fuel ih =>
    unfold walkLoop
    dsimp only
    split
    · infer_instance
    split
    · infer_instance
    refine Keeps.andThen fun type => ?_
    split
    · infer_instance
    refine Keeps.andThen fun found => ?_
    split <;> infer_instance

instance keeps_walkPath (path : List UInt8) : Keeps Grows (walkPath path) := by
  unfold walkPath
  infer_instance

instance keeps_fileOpen (path : List UInt8) : Keeps Grows (fileOpen path) := by
  refine Keeps.andThen fun r => ?_
  cases r with
  | found dir entry => exact Keeps.ret _
  | missing dir name => exact Keeps.stop _

instance keeps_fileFreeBlock (f b : Nat) : Keeps Grows (fileFreeBlock f b) := by
  unfold fileFreeBlock
  infer_instance

instance keeps_fileTruncateBlocks (f : Nat) (newsize : Int) : Keeps Grows (fileTruncateBlocks f newsize) := by
  unfold fileTruncateBlocks
  infer_instance

instance keeps_fileSetSize (f : Nat) (newsize : Int) : Keeps Grows (fileSetSize f newsize) := by
  unfold fileSetSize
  infer_instance

instance keeps_flushSlot (inode i : Nat) : Keeps Grows (flushSlot inode i) := by
  unfold flushSlot
  infer_instance

instance keeps_fileFlush (f : Nat) : Keeps Grows (fileFlush f) := by
  unfold fileFlush
  infer_instance

instance keeps_fsSync : Keeps Grows fsSync := by
  unfold fsSync
  infer_instance

instance keeps_recordEntry (dir a len : Nat) : Keeps Grows (recordEntry dir a len) := by
  unfold recordEntry
  infer_instance

instance keeps_initDir (k : Nat) : Keeps Grows (initDir k) := by
  refine Keeps.andThen fun r => ?_
  cases r with
  | error e => infer_instance
  | ok blk => infer_instance

set_option synthInstance.maxSize 512 in
instance keeps_fileCreate (path : List UInt8) (type : Nat) :
    Keeps Grows (fileCreate path type) := by
  refine Keeps.andThen fun r => ?_
  cases r with
  | found dir entry => exact Keeps.stop _
  | missing dir name =>
    dsimp only
    infer_instance

set_option synthInstance.maxSize 512 in
instance keeps_fileRemove (path : List UInt8) : Keeps Grows (fileRemove path) := by
  refine Keeps.andThen fun r => ?_
  cases r with
  | missing dir name => exact Keeps.stop _
  | found dir f =>
    dsimp only
    infer_instance

instance keeps_readLoop (inode stop fuel : Nat) (pos : Int) (buf : Nat) :
    Keeps Grows (readLoop inode stop fuel pos buf) := by
  induction fuel generalizing pos buf with
  | zero => exact Keeps.ret _
  | succ fuel ih =>
    unfold readLoop
    infer_instance

instance keeps_fileRead (f buf count : Nat) (offset : Int) :
    Keeps Grows (fileRead f buf count offset) := by
  unfold fileRead
  infer_instance

instance keeps_writeLoop (inode stop fuel : Nat) (pos : Int) (buf : Nat) :
    Keeps Grows (writeLoop inode stop fuel pos buf) := by
  induction fuel generalizing pos buf with
  | zero => exact Keeps.ret _
  | succ fuel ih =>
    unfold writeLoop
    infer_instance

instance keeps_fileWrite (f buf count : Nat) (offset : Int) :
    Keeps Grows (fileWrite f buf count offset) := by
  unfold fileWrite
  infer_instance

end Programs

/-- No visible byte changes and no page goes away. -/
structure Quiet (w v : World) : Prop where
  byte : v.byte = w.byte
  present : ∀ p, w.present p = true → v.present p = true
  grows : Grows w v

instance : IsPreorder World Quiet where
  refl w := ⟨rfl, fun _ h => h, Grows.refl w⟩
  trans _ _ _ h k := ⟨k.byte.trans h.byte, fun p hp => k.present p (h.present p hp),
    h.grows.trans k.grows⟩

theorem Quiet.cached {w v : World} (h : Quiet w v) : v.cached = w.cached := cached_of_byte h.byte

theorem Quiet.cell {w v : World} (h : Quiet w v) (a : Nat) : v.cell a = w.cell a := by
  rw [World.cell, World.cell, h.byte]

theorem quiet_load (w : World) {p : Nat} (hp : superPg ≤ p) (hn : w.present p = false) :
    Quiet w (w.load p) :=
  ⟨byte_load w p hp hn, fun q => present_load w p q, grows_load w p⟩

theorem quiet_flush (w : World) {p : Nat} (hp : superPg ≤ p) : Quiet w (w.flush p) :=
  ⟨byte_flush w p hp, fun q h => by rwa [present_flush], grows_flush w p⟩

theorem quiet_follow (w : World) (k : Nat) : Quiet w (w.follow k) :=
  ⟨rfl, fun _ h => h, grows_follow w k⟩

theorem quiet_log (w : World) (x : Access) : Quiet w (w.log x) :=
  ⟨rfl, fun _ h => h, grows_log w x⟩

theorem touchPage_cases (w : World) (p : Nat) :
    (∃ e, touchPage p w = .error (.panic e) w) ∨
      (w.present p = true ∧ touchPage p w = .ok () w) ∨
      (w.present p = false ∧ superPg ≤ p ∧ (touchPage p w = .ok () (w.load p) ∨
        ∃ e, touchPage p w = .error (.panic e) (w.load p))) := by
  by_cases hp : w.present p = true
  · exact Or.inr (Or.inl ⟨hp, touchPage_present hp⟩)
  · have hrun : touchPage p w = bcPgfault p w := by
      rw [touchPage, bind_ok (get_run w), if_neg hp]
    rw [hrun, bcPgfault, bind_ok (get_run w)]
    by_cases hout : p * PGSIZE < DISKMAP ∨ DISKMAP + DISKSIZE ≤ p * PGSIZE
    · rw [if_pos hout]
      exact Or.inl ⟨_, rfl⟩
    · rw [if_neg hout]
      by_cases hn : w.blkNum ≤ p - superPg
      · rw [if_pos hn]
        exact Or.inl ⟨_, rfl⟩
      · rw [if_neg hn, bind_ok (modify_run _ w), bind_ok (get_run _)]
        refine Or.inr (Or.inr ⟨by simpa using hp, ?_, ?_⟩)
        · simp only [PGSIZE, DISKMAP, superPg] at *
          omega
        · by_cases hf : (w.load p).blockIsFree (p - superPg) = true
          · rw [if_pos hf]
            exact Or.inr ⟨_, rfl⟩
          · rw [if_neg hf]
            exact Or.inl rfl

section Looking

variable {α : Type}

instance quiet_touchPage (p : Nat) : Keeps Quiet (touchPage p) where
  final w := by
    rcases touchPage_cases w p with ⟨e, hr⟩ | ⟨hp, hr⟩ | ⟨hp, hlo, hr | ⟨e, hr⟩⟩
    · rw [final_error hr]
      exact refl_of Quiet w
    · rw [final_ok hr]
      exact refl_of Quiet w
    · rw [final_ok hr]
      exact quiet_load w hlo hp
    · rw [final_error hr]
      exact quiet_load w hlo hp

instance quiet_touch (a n : Nat) : Keeps Quiet (touch a n) := by
  unfold touch
  infer_instance

instance quiet_load16 (a : Nat) : Keeps Quiet (load16 a) := by
  unfold load16
  infer_instance

instance quiet_flushBlock (a : Nat) : Keeps Quiet (flushBlock a) where
  final w := by
    unfold flushBlock
    split_ifs with h
    · exact refl_of Quiet w
    · refine quiet_flush w ?_
      simp only [DISKMAP, superPg, PGSIZE] at *
      omega

instance quiet_diskaddr (b : Nat) : Keeps Quiet (diskaddr b) := by
  unfold diskaddr
  infer_instance

instance quiet_following (k : Nat) : Keeps Quiet (modify fun w => w.follow k : M Unit) :=
  Keeps.change fun w => quiet_follow w k

instance quiet_inodeOf (f : Nat) : Keeps Quiet (inodeOf f) := by
  unfold inodeOf
  infer_instance

instance quiet_flushSlot (inode i : Nat) : Keeps Quiet (flushSlot inode i) := by
  unfold flushSlot
  infer_instance

instance quiet_fileFlush (f : Nat) : Keeps Quiet (fileFlush f) := by
  unfold fileFlush
  infer_instance

instance quiet_fsSync : Keeps Quiet fsSync := by
  unfold fsSync
  infer_instance

end Looking

end DamnOS.FileSystem
