import DamnOS.Framework.Runs
import DamnOS.FileSystem.Operations

/-!
# Runs of file operations

Sequences of calls into the file system, succeeding or failing, up to the first panic.  The block
ownership of the image survives all of them.
-/

namespace DamnOS.FileSystem

open DamnOS.Framework

/-- The calls of the file system interface, and what callers do to their own memory between. -/
inductive FileOp where
  | create (path : List UInt8) (type : Nat)
  | remove (path : List UInt8)
  | open (path : List UInt8)
  | read (f buf count : Nat) (offset : Int)
  | write (f buf count : Nat) (offset : Int)
  | setSize (f : Nat) (newsize : Int)
  | flush (f : Nat)
  | sync
  | caller (buf : Nat) (bytes : List UInt8)

namespace FileOp

def exec : FileOp → M Unit
  | create path type => do
    let _ ← fileCreate path type
    pure ()
  | remove path => fileRemove path
  | «open» path => do
    let _ ← fileOpen path
    pure ()
  | read f buf count offset => do
    let _ ← fileRead f buf count offset
    pure ()
  | write f buf count offset => do
    let _ ← fileWrite f buf count offset
    pure ()
  | setSize f newsize => fileSetSize f newsize
  | flush f => fileFlush f
  | sync => fsSync
  | caller buf bytes => modify fun w => w.fill buf bytes.length fun i => bytes.getD i 0

/-- What callers keep to: buffers outside the disk map, and no write at a negative offset. -/
def Fits : FileOp → Prop
  | read _ buf count _ => Apart buf count
  | write _ _ _ offset => 0 ≤ offset
  | caller buf bytes => Apart buf bytes.length
  | _ => True

instance (op : FileOp) : Decidable op.Fits :=
  match op with
  | read _ buf count _ => inferInstanceAs (Decidable (Apart buf count))
  | write _ _ _ offset => inferInstanceAs (Decidable (0 ≤ offset))
  | caller buf bytes => inferInstanceAs (Decidable (Apart buf bytes.length))
  | create _ _ | remove _ | «open» _ | setSize _ _ | flush _ | sync => isTrue trivial

def Frugal : FileOp → World → Prop
  | remove path, w => ∀ dir f v, walkPath path w = .ok (.found dir f) v → Idle f 0 v
  | write f _ count offset, w => Idle f (toS32 (toU32 (offset + count))) w
  | setSize f newsize, w => Idle f newsize w
  | _, _ => True

/-- A panic stops the server; an error code does not. -/
def halts (op : FileOp) (w : World) : Bool :=
  match op.exec w with
  | .error (.panic _) _ => true
  | _ => false

instance keeps_exec (op : FileOp) : Keeps Grows op.exec := by
  cases op with
  | caller buf bytes => exact Keeps.change fun w => ⟨List.suffix_rfl, List.suffix_rfl, List.suffix_rfl⟩
  | _ =>
    unfold exec
    infer_instance

end FileOp

/-- The file server as a machine whose commands are calls. -/
def server : Machine FileOp World where
  step op := final op.exec
  halts := FileOp.halts

namespace Setting

variable (E : Setting)

theorem spec_exec (hall : ∀ k, k < E.N → E.scope.inode k) (hN : 0 < E.N) (op : FileOp)
    (hfit : op.Fits) : Spec E.contract (fun w => E.scope.free ∨ op.Frugal w) op.exec
      (fun _ _ => True) := by
  have hdrop {α : Type} {P : World → Prop} {m : M α} (h : Spec E.contract P m fun _ _ => True) :
      Spec E.contract P (do let _ ← m; pure ()) (fun _ _ => True) :=
    h.bind fun _ => Spec.ret _ fun _ _ _ => trivial
  have hany {m : M Unit} {P : World → Prop} (h : Spec E.contract (fun _ => True) m fun _ _ => True) :
      Spec E.contract P m (fun _ _ => True) := h.pre fun _ _ _ => trivial
  cases op with
  | create path type => exact hany (hdrop (E.spec_fileCreate hall hN path type))
  | remove path => exact E.spec_fileRemove hall hN path
  | «open» path => exact hany (hdrop (E.spec_fileOpen hall hN path))
  | read f buf count offset =>
    exact hany (hdrop (E.spec_fileRead (E.inScope_all hall f) buf count offset hfit))
  | write f buf count offset =>
    exact hdrop (E.spec_fileWrite (E.inScope_all hall f) buf count hfit)
  | setSize f newsize =>
    exact (E.spec_fileSetSize (E.inScope_all hall f) newsize).post fun _ _ _ _ => trivial
  | flush f => exact hany (E.spec_fileFlush (E.inScope_all hall f))
  | sync => exact hany E.spec_fsSync
  | caller buf bytes =>
    exact Spec.change fun w _ _ => Or.inr ⟨.single (.outside _ _ _ hfit), trivial⟩

/-- What every change keeps holds after a run, unless the run followed a bad inode number. -/
theorem run_inv (hall : ∀ k, k < E.N → E.scope.inode k) (hN : 0 < E.N) {ops : List FileOp}
    {w : World} (hw : E.contract.Inv w) (hops : ∀ op ∈ ops, op.Fits)
    (hfree : server.Along (fun op w => E.scope.free ∨ op.Frugal w) ops w)
    (hf : ∀ k ∈ (server.run ops w).followed, k < E.N) : E.contract.Inv (server.run ops w) := by
  have hstep : ∀ op v, E.contract.Lost v ∨ E.contract.Inv v →
      (op.Fits ∧ (E.scope.free ∨ op.Frugal v)) →
        E.contract.Lost (server.step op v) ∨ E.contract.Inv (server.step op v) := by
    rintro op v (hl | hi) ⟨hfit, hc⟩
    · exact Or.inl (E.contract.lost_grows ((FileOp.keeps_exec op).final v) hl)
    · exact (E.spec_exec hall hN op hfit v hi hc).imp_right fun hm =>
        E.contract.moves_inv hm.1 hi
  have hc := Machine.Along.and (Machine.Along.of_forall (A := server) (C := fun op _ => op.Fits)
    (fun op hop _ => hops op hop) w) hfree
  rcases Machine.run_invariant hstep (Or.inr hw) hc with ⟨k, hk, hn⟩ | hi
  · exact absurd (hf k hk) (not_lt.mpr hn)
  · exact hi

end Setting

def World.blkInd (w : World) (i j : Nat) : Nat := w.cell (inodeVa i + offBlkInd + 2 * j)

def World.blkOcp (w : World) (b : Nat) : Bool :=
  (w.word (super + offBlkOcp + 4 * (b / 32))).testBit (b % 32)

/-- The slots of the first `n` inodes hold marked data blocks, and no block twice. -/
structure OwnedBlocks (n : Nat) (w : World) : Prop where
  valid : ∀ i j, i < n → j < NDIRECT → w.blkInd i j ≠ 0 →
    2 ≤ w.blkInd i j ∧ w.blkInd i j < w.blkNum ∧ w.blkOcp (w.blkInd i j) = true
  inj : ∀ i j i' j', i < n → j < NDIRECT → i' < n → j' < NDIRECT → w.blkInd i j ≠ 0 →
    w.blkInd i j = w.blkInd i' j' → i = i' ∧ j = j'

/-- An image whose bitmap has the two metadata blocks and fits the super block. -/
structure SoundImage (n : Nat) (w : World) : Prop where
  zero : w.blkOcp 0 = true
  one : w.blkOcp 1 = true
  blkNum_le : w.blkNum ≤ MAXBLKNUM
  owned : OwnedBlocks n w

private theorem blkOcp_cached (w : World) {b : Nat} (hb : b < MAXBLKNUM) :
    w.blkOcp b = w.cached.blkOcp b := by
  have hw : w.word (super + offBlkOcp + 4 * (b / 32)) =
      u32 (w.block 0) (offBlkOcp + 4 * (b / 32)) := by
    rw [Nat.add_assoc, super, word_block]
  simp only [World.blkOcp, hw, World.cached, decode, hb, decide_true, Bool.true_and]

/-- Below the limits of the header, the decoded metadata says the same as the bytes. -/
theorem soundImage_iff {n : Nat} {w : World} (hn : n ≤ MAXINODENUM) :
    SoundImage n w ↔ w.cached.Owned n := by
  have hslot (i j : Nat) (hi : i < n) (hj : j < NDIRECT) : w.blkInd i j = w.cached.slot i j :=
    cell_slot w (lt_of_lt_of_le hi hn) hj
  have hbeyond (i j : Nat) (hz : w.cached.slot i j ≠ 0) : j < NDIRECT := by
    by_contra hj
    exact hz (slot_ge w i (not_lt.mp hj))
  constructor
  · intro h
    have hle : w.cached.blkNum ≤ MAXBLKNUM := blkNum_cached w ▸ h.blkNum_le
    refine ⟨hle, ?_, ?_, ?_, ?_⟩
    · rw [← blkOcp_cached w (by decide)]
      exact h.zero
    · rw [← blkOcp_cached w (by decide)]
      exact h.one
    · intro i j hi hz
      have hj := hbeyond i j hz
      have hv := h.owned.valid i j hi hj (by rwa [hslot i j hi hj])
      rw [hslot i j hi hj, blkNum_cached] at hv
      rw [← blkOcp_cached w (lt_of_lt_of_le hv.2.1 hle)]
      exact hv
    · intro i j i' j' hi hi' hz he
      have hj := hbeyond i j hz
      have hj' := hbeyond i' j' (he ▸ hz)
      rw [← hslot i j hi hj] at hz he
      rw [← hslot i' j' hi' hj'] at he
      exact h.owned.inj i j i' j' hi hj hi' hj' hz he
  · intro h
    refine ⟨?_, ?_, by rw [blkNum_cached]; exact h.blkNum_le, ?_, ?_⟩
    · rw [blkOcp_cached w (by decide)]
      exact h.zero
    · rw [blkOcp_cached w (by decide)]
      exact h.one
    · intro i j hi hj hz
      rw [hslot i j hi hj] at hz ⊢
      have hv := h.valid i j hi hz
      rw [blkNum_cached, blkOcp_cached w (lt_of_lt_of_le hv.2.1 h.blkNum_le)]
      exact hv
    · intro i j i' j' hi hj hi' hj' hz he
      rw [hslot i j hi hj] at hz he
      rw [hslot i' j' hi' hj'] at he
      exact h.inj i j i' j' hi hi' hz he

/-- The scope without restrictions, and nothing kept besides sanity. -/
def anySetting (n : Nat) : Setting := ⟨n, Scope.all, fun _ => True, fun _ _ _ => trivial⟩

/-- Whatever is called, no block gets two owners and every owned block stays marked. -/
theorem soundImage_run (n : Nat) (w : World) (ops : List FileOp) (hready : Ready w)
    (hin : w.inNum ≤ n) (hpos : 0 < n) (hn : n ≤ MAXINODENUM) (h : SoundImage n w)
    (hops : ∀ op ∈ ops, op.Fits) (hf : ∀ k ∈ (server.run ops w).followed, k < w.inNum) :
    SoundImage n (server.run ops w) := by
  have hsane : Sane n w :=
    ⟨hready, by rw [← inNum_cached]; exact hin, hn, hpos, (soundImage_iff hn).mp h⟩
  have hrun := (anySetting n).run_inv (fun _ _ => trivial) hpos ⟨hsane, trivial⟩ hops
    (Machine.Along.of_forall (fun _ _ _ => Or.inl trivial) w)
    fun k hk => lt_of_lt_of_le (hf k hk) hin
  exact (soundImage_iff hn).mpr hrun.1.owned

/-- The server after `fs_init`: super block and inode table are read in, nothing else. -/
def mount (disk : Nat → Nat → UInt8) : World where
  mem a := if superPg ≤ a / PGSIZE ∧ a / PGSIZE ≤ inodePg then disk (a / PGSIZE - superPg) (a % PGSIZE)
    else 0
  present p := p == superPg || p == inodePg
  dirty _ := false
  disk := disk
  writes := []
  accesses := []
  followed := []

/-- A disk of 200 blocks whose root directory owns block 2; `taken` is every byte of the inode
bitmap. -/
def freshDisk (inNum taken : UInt8) (b o : Nat) : UInt8 :=
  if b = 0 then
    if o = offInNum then inNum else if o = offBlkNum then 200 else if o = offBlkOcp then 7
    else if offInOcp ≤ o ∧ o < offInOcp + 16 then taken else 0
  else if b = 1 then
    if o = offType then 0x64 else if o = offBlkUsed then 1 else if o = offBlkInd then 2 else 0
  else 0

theorem OwnedBlocks.of_filled {n : Nat} {w : World} (l : List (Nat × Nat))
    (hz : ∀ i < n, ∀ j < NDIRECT, (i, j) ∉ l → w.blkInd i j = 0)
    (hb : ∀ x ∈ l, 2 ≤ w.blkInd x.1 x.2 ∧ w.blkInd x.1 x.2 < w.blkNum ∧
      w.blkOcp (w.blkInd x.1 x.2) = true)
    (hd : ∀ x ∈ l, ∀ y ∈ l, w.blkInd x.1 x.2 = w.blkInd y.1 y.2 → x = y) : OwnedBlocks n w := by
  have hmem {i j : Nat} (hi : i < n) (hj : j < NDIRECT) (h : w.blkInd i j ≠ 0) : (i, j) ∈ l := by
    by_contra hne
    exact h (hz i hi j hj hne)
  constructor
  · intro i j hi hj h
    exact hb (i, j) (hmem hi hj h)
  · intro i j i' j' hi hj hi' hj' h he
    have hp := hd (i, j) (hmem hi hj h) (i', j') (hmem hi' hj' (he ▸ h)) he
    exact ⟨congrArg Prod.fst hp, congrArg Prod.snd hp⟩

/-- A file is created, and three bytes of the caller are written to it. -/
def createAndWrite : List FileOp :=
  [.create [47, 97] FTYPE_REG, .caller 4096 [1, 2, 3], .write (blockVa 2) 4096 3 0]

theorem soundImage_run_createAndWrite :
    SoundImage 4 (server.run createAndWrite (mount (freshDisk 4 1))) := by
  exact soundImage_run 4 _ createAndWrite ⟨rfl, rfl⟩ (by decide +kernel) (by decide) (by decide)
    ⟨by decide +kernel, by decide +kernel, by decide +kernel, OwnedBlocks.of_filled [(0, 0)]
      (by decide +kernel) (by decide +kernel) (by decide +kernel)⟩ (by decide) (by decide +kernel)

/-- With 129 inodes the last one lies in block 2, inside the root directory: the name of a new
file becomes its first slot, and a write to that file goes to the inode table. -/
def createBeyondTable : List FileOp :=
  [.create [47, 97, 98, 99, 100, 101, 102, 1] FTYPE_REG, .caller 4096 (List.replicate 32 255),
    .write (blockVa 2) 4096 32 0]

theorem soundImage_run_beyondTable : ¬∀ (w : World) (ops : List FileOp), Ready w →
    SoundImage w.inNum w → (∀ op ∈ ops, op.Fits) →
      (∀ k ∈ (server.run ops w).followed, k < w.inNum) →
        OwnedBlocks w.inNum (server.run ops w) := by
  intro h
  have hin : (mount (freshDisk 129 255)).inNum = 129 := by decide +kernel
  have hrun := h (mount (freshDisk 129 255)) createBeyondTable ⟨rfl, rfl⟩ (by
    rw [hin]
    exact ⟨by decide +kernel, by decide +kernel, by decide +kernel,
      OwnedBlocks.of_filled [(0, 0)] (by decide +kernel) (by decide +kernel) (by decide +kernel)⟩)
    (by decide) (by decide +kernel)
  rw [hin] at hrun
  have hslot : (server.run createBeyondTable (mount (freshDisk 129 255))).blkInd 0 0 = 65535 := by
    decide +kernel
  have hnum : (server.run createBeyondTable (mount (freshDisk 129 255))).blkNum = 200 := by
    decide +kernel
  have hv := hrun.valid 0 0 (by decide) (by decide) (by omega)
  omega

end DamnOS.FileSystem
