import DamnOS.FileSystem.Obtain

/-!
# Copying between a file and a buffer

The loops of `file_read` and `file_write` differ in the direction of the copy only.  From a
position inside the file they take one piece of a block after another, whatever the state of the
image is.
-/

namespace DamnOS.FileSystem

open DamnOS.Framework

def Unlogged (w v : World) : Prop := v.accesses = w.accesses

instance : IsPreorder World Unlogged where
  refl _ := rfl
  trans _ _ _ h k := Eq.trans k h

section Unlogged

variable {α : Type}

instance unlogged_attempt {m : M α} [h : Keeps Unlogged m] : Keeps Unlogged (attempt m) where
  final w := by
    rw [final_attempt]
    exact h.final w

instance unlogged_onlyIf {c : Prop} [Decidable c] {m : M Unit} [Keeps Unlogged m] :
    Keeps Unlogged (onlyIf c m) := by
  unfold onlyIf
  infer_instance

instance unlogged_write (a n : Nat) (f : World → Nat → UInt8) :
    Keeps Unlogged (modify fun w => w.write a n (f w) : M Unit) :=
  Keeps.change fun _ => rfl

instance unlogged_follow (k : Nat) : Keeps Unlogged (modify fun w => w.follow k : M Unit) :=
  Keeps.change fun _ => rfl

instance unlogged_touch (a n : Nat) : Keeps Unlogged (touch a n) :=
  ⟨fun w => ((loads_touch a n).final w).accesses⟩

instance unlogged_load16 (a : Nat) : Keeps Unlogged (load16 a) := by
  unfold load16
  infer_instance

instance unlogged_store (a n : Nat) (f : Nat → UInt8) : Keeps Unlogged (store a n f) := by
  unfold store
  infer_instance

instance unlogged_store16 (a v : Nat) : Keeps Unlogged (store16 a v) := by
  unfold store16
  infer_instance

instance unlogged_store32 (a v : Nat) : Keeps Unlogged (store32 a v) := by
  unfold store32
  infer_instance

instance unlogged_memmove (dst src n : Nat) : Keeps Unlogged (memmove dst src n) := by
  unfold memmove
  infer_instance

@[simp] theorem accesses_flush (w : World) (p : Nat) : (w.flush p).accesses = w.accesses := by
  unfold World.flush
  split_ifs <;> rfl

instance unlogged_flushBlock (a : Nat) : Keeps Unlogged (flushBlock a) where
  final w := by
    unfold flushBlock
    split_ifs
    · rfl
    · exact accesses_flush w _

instance unlogged_diskaddr (b : Nat) : Keeps Unlogged (diskaddr b) := by
  unfold diskaddr
  infer_instance

instance unlogged_freeBlock (b : Nat) : Keeps Unlogged (freeBlock b) := by
  unfold freeBlock
  infer_instance

instance unlogged_allocBlock : Keeps Unlogged allocBlock := by
  refine Keeps.andThen fun w => ?_
  cases (List.range w.blkNum).find? w.blockIsFree with
  | none => exact Keeps.stop _
  | some b => infer_instance

instance unlogged_fileBlockWalk (inode i : Nat) : Keeps Unlogged (fileBlockWalk inode i) := by
  unfold fileBlockWalk
  infer_instance

instance unlogged_fillSlot (inode slot : Nat) : Keeps Unlogged (fillSlot inode slot) := by
  unfold fillSlot
  infer_instance

instance unlogged_fileGetBlock (inode i : Nat) : Keeps Unlogged (fileGetBlock inode i) := by
  unfold fileGetBlock
  infer_instance

instance unlogged_inodeOf (f : Nat) : Keeps Unlogged (inodeOf f) := by
  unfold inodeOf
  infer_instance

instance unlogged_fileFreeBlock (f b : Nat) : Keeps Unlogged (fileFreeBlock f b) := by
  unfold fileFreeBlock
  infer_instance

instance unlogged_fileTruncateBlocks (f : Nat) (newsize : Int) :
    Keeps Unlogged (fileTruncateBlocks f newsize) := by
  unfold fileTruncateBlocks
  infer_instance

instance unlogged_fileSetSize (f : Nat) (newsize : Int) : Keeps Unlogged (fileSetSize f newsize) := by
  unfold fileSetSize
  infer_instance

instance unlogged_flushSlot (inode i : Nat) : Keeps Unlogged (flushSlot inode i) := by
  unfold flushSlot
  infer_instance

instance unlogged_fileFlush (f : Nat) : Keeps Unlogged (fileFlush f) := by
  unfold fileFlush
  infer_instance

end Unlogged

theorem tmod_bounds (pos : Int) : -4096 < pos.tmod BLKSIZE ∧ pos.tmod BLKSIZE < 4096 :=
  ⟨Int.lt_tmod_of_pos pos (by decide), Int.tmod_lt_of_pos pos (by decide)⟩

theorem chunk_eq {pos : Int} {stop : Nat} (h : toU32 pos ≤ stop) (hs : stop < 4294967296) :
    chunk pos stop = min (BLKSIZE - pos.tmod BLKSIZE).toNat (stop - toU32 pos) := by
  have hb := tmod_bounds pos
  unfold chunk
  congr 1
  · simp only [toU32, BLKSIZE] at *
    omega
  · unfold toU32 at *
    omega

theorem chunk_pos {pos : Int} {stop : Nat} (h : toU32 pos < stop) (hs : stop < 4294967296) :
    0 < chunk pos stop := by
  have hb := tmod_bounds pos
  rw [chunk_eq h.le hs]
  simp only [BLKSIZE] at *
  omega

theorem chunk_nat {a stop : Nat} (ha : a ≤ stop) (hs : stop < 4294967296) :
    chunk a stop = min (BLKSIZE - a % BLKSIZE) (stop - a) := by
  have hpos : toU32 a = a := toU32_natCast (by omega)
  have htm : (a : Int).tmod BLKSIZE = ((a % BLKSIZE : Nat) : Int) := by
    rw [Int.tmod_eq_emod_of_nonneg (by omega)]
    simp
  rw [chunk_eq (by omega) hs, htm, hpos]
  simp only [BLKSIZE]
  omega

theorem inBlock_nat (blk a : Nat) : inBlock blk a = blk + a % BLKSIZE := by
  rw [inBlock_nonneg _ (by omega)]
  simp

theorem blockIndex_nat {a : Nat} (h : a < 268435456) :
    toU16 ((a : Int).tdiv BLKSIZE) = a / BLKSIZE := by
  simp only [toU16, BLKSIZE]
  rw [Int.tdiv_eq_ediv_of_nonneg (by omega)]
  omega

/-- `memmove` between a block and the buffer; `wr` tells that the block is stored to. -/
def copy (wr : Bool) (addr buf n : Nat) : M Unit :=
  if wr then memmove addr buf n else memmove buf addr n

def Access.transfer (wr : Bool) (slots : List Nat) (addr buf n : Nat) : Access :=
  if wr then .write slots addr buf n else .read slots addr buf n

def copyLoop (wr : Bool) (inode stop : Nat) : Nat → Int → Nat → M Unit
  | 0, _, _ => pure ()
  | fuel + 1, pos, buf =>
    if toU32 pos < stop then do
      let blk ← fileGetBlock inode (toU16 (pos.tdiv BLKSIZE))
      modify fun w => w.log
        (Access.transfer wr (w.slotsOf inode) (inBlock blk pos) buf (chunk pos stop))
      copy wr (inBlock blk pos) buf (chunk pos stop)
      copyLoop wr inode stop fuel (pos + chunk pos stop) (buf + chunk pos stop)
    else pure ()

theorem readLoop_eq (inode stop fuel : Nat) (pos : Int) (buf : Nat) :
    readLoop inode stop fuel pos buf = copyLoop false inode stop fuel pos buf := by
  induction fuel generalizing pos buf with
  | zero => rfl
  | succ fuel ih => simp only [readLoop, copyLoop, ih, Access.transfer, copy, Bool.false_eq_true, if_false]

theorem writeLoop_eq (inode stop fuel : Nat) (pos : Int) (buf : Nat) :
    writeLoop inode stop fuel pos buf = copyLoop true inode stop fuel pos buf := by
  induction fuel generalizing pos buf with
  | zero => rfl
  | succ fuel ih => simp only [writeLoop, copyLoop, ih, Access.transfer, copy, if_true]

instance unlogged_copy (wr : Bool) (addr buf n : Nat) : Keeps Unlogged (copy wr addr buf n) := by
  unfold copy
  infer_instance

instance keeps_copy (wr : Bool) (addr buf n : Nat) : Keeps Grows (copy wr addr buf n) := by
  unfold copy
  infer_instance

instance keeps_copyLoop (wr : Bool) (inode stop fuel : Nat) (pos : Int) (buf : Nat) :
    Keeps Grows (copyLoop wr inode stop fuel pos buf) := by
  cases wr with
  | false =>
    rw [← readLoop_eq]
    infer_instance
  | true =>
    rw [← writeLoop_eq]
    infer_instance

theorem copyLoop_done (wr : Bool) {inode stop : Nat} (fuel : Nat) {pos : Int} (buf : Nat)
    (h : ¬toU32 pos < stop) (w : World) : copyLoop wr inode stop fuel pos buf w = .ok () w := by
  cases fuel with
  | zero => rfl
  | succ fuel =>
    rw [copyLoop, if_neg h]
    rfl

namespace Access

def slots : Access → List Nat
  | read s _ _ _ => s
  | write s _ _ _ => s
  | entry s _ _ => s

def addr : Access → Nat
  | read _ a _ _ => a
  | write _ a _ _ => a
  | entry _ a _ => a

/-- The caller's buffer; a directory entry is filled from the server's own memory. -/
def buf : Access → Nat
  | read _ _ b _ => b
  | write _ _ b _ => b
  | entry _ _ _ => 0

def len : Access → Nat
  | read _ _ _ n => n
  | write _ _ _ n => n
  | entry _ _ n => n

/-- Where the accessed file keeps position `p`. -/
def place (x : Access) (p : Nat) : Nat := blockVa (x.slots.getD (p / BLKSIZE) 0) + p % BLKSIZE

section Transfer

variable (wr : Bool) (s : List Nat) (a b n : Nat)

@[simp] theorem slots_transfer : (transfer wr s a b n).slots = s := by cases wr <;> rfl

@[simp] theorem addr_transfer : (transfer wr s a b n).addr = a := by cases wr <;> rfl

@[simp] theorem buf_transfer : (transfer wr s a b n).buf = b := by cases wr <;> rfl

@[simp] theorem len_transfer : (transfer wr s a b n).len = n := by cases wr <;> rfl

end Transfer

end Access

/-- The accesses of a run from `w` to `v`, in order. -/
def newAccesses (w v : World) : List Access :=
  (v.accesses.take (v.accesses.length - w.accesses.length)).reverse

theorem newAccesses_eq {w v : World} {xs : List Access}
    (h : v.accesses = xs.reverse ++ w.accesses) : newAccesses w v = xs := by
  have hlen : v.accesses.length - w.accesses.length = xs.reverse.length := by simp [h]
  rw [newAccesses, hlen, h, List.take_left, List.reverse_reverse]

theorem newAccesses_unlogged {w v : World} (h : v.accesses = w.accesses) : newAccesses w v = [] :=
  newAccesses_eq (by simp [h])

theorem newAccesses_step {w t v : World} {x : Access} (ht : t.accesses = x :: w.accesses)
    (h : Grows t v) : newAccesses w v = x :: newAccesses t v := by
  obtain ⟨l, hl⟩ := h.accesses
  have h1 : v.accesses = (x :: l.reverse).reverse ++ w.accesses := by simp [← hl, ht]
  have h2 : v.accesses = l.reverse.reverse ++ t.accesses := by simp [hl]
  rw [newAccesses_eq h1, newAccesses_eq h2]

/-- The accesses take the positions from `a` on one after the other, each inside one block of the
file, and end at `e`. -/
def Pieces : Nat → List Access → Nat → Prop
  | a, [], e => a = e
  | a, x :: xs, e => a / BLKSIZE < NDIRECT ∧ a % BLKSIZE + x.len ≤ BLKSIZE ∧ x.addr = x.place a ∧
      Pieces (a + x.len) xs e

namespace Pieces

theorem le {xs : List Access} {a e : Nat} (h : Pieces a xs e) : a ≤ e := by
  induction xs generalizing a with
  | nil => exact Nat.le_of_eq h
  | cons x xs ih => exact (Nat.le_add_right _ _).trans (ih h.2.2.2)

theorem position {xs : List Access} {a e : Nat} (h : Pieces a xs e) {x : Access} (hx : x ∈ xs)
    {i : Nat} (hi : i < x.len) : ∃ p, a ≤ p ∧ p < e ∧ p < NDIRECT * BLKSIZE ∧
      x.addr + i = x.place p := by
  induction xs generalizing a with
  | nil => cases hx
  | cons y xs ih =>
    obtain ⟨hblk, hin, hplace, hrest⟩ := h
    rcases List.mem_cons.mp hx with rfl | hx
    · have hle := hrest.le
      have hdiv : (a + i) / BLKSIZE = a / BLKSIZE := by
        simp only [BLKSIZE] at *
        omega
      have hmod : (a + i) % BLKSIZE = a % BLKSIZE + i := by
        simp only [BLKSIZE] at *
        omega
      refine ⟨a + i, by omega, by omega, ?_, ?_⟩
      · simp only [BLKSIZE, NDIRECT] at *
        omega
      · rw [hplace, Access.place, Access.place, hdiv, hmod, Nat.add_assoc]
    · obtain ⟨p, hlo, hp⟩ := ih hrest hx
      exact ⟨p, (Nat.le_add_right _ _).trans hlo, hp⟩

end Pieces

private theorem load16_ok {a n : Nat} {w v : World} (h : load16 a w = .ok n v) : n = v.cell a := by
  obtain ⟨_, t, _, hget⟩ := bind_eq_ok h
  rw [bind_ok (get_run t)] at hget
  cases hget
  rfl

private theorem fileGetBlock_ok {inode j blk : Nat} {w v : World} (h : fileGetBlock inode j w = .ok blk v) :
    j < NDIRECT ∧ blk = blockVa ((v.slotsOf inode).getD j 0) := by
  obtain ⟨slot, w1, hslot, h⟩ := bind_eq_ok h
  obtain ⟨_, w2, _, h⟩ := bind_eq_ok h
  obtain ⟨_, w3, _, h⟩ := bind_eq_ok h
  obtain ⟨b, w4, hb, h⟩ := bind_eq_ok h
  have hquiet : Quiet w4 v := Keeps.of_ok h
  obtain ⟨blk', w5, haddr, h⟩ := bind_eq_ok h
  obtain ⟨_, w6, _, h⟩ := bind_eq_ok h
  have hj : j < NDIRECT ∧ slot = inode + offBlkInd + 2 * j := by
    unfold fileBlockWalk at hslot
    split_ifs at hslot with hj
    · cases hslot
      exact ⟨hj, rfl⟩
    · cases hslot
  have hret : blk = blk' := by
    cases h
    rfl
  have hblk : blk' = blockVa b := by
    rw [diskaddr, bind_ok (get_run w4)] at haddr
    split_ifs at haddr
    · cases haddr
    · cases haddr
      rfl
  refine ⟨hj.1, ?_⟩
  rw [hret, hblk, load16_ok hb, hj.2, ← hquiet.cell]
  simp [World.slotsOf, hj.1]

/-- The ways a round of the loop goes: no block, a copy that stops the server, or a piece copied. -/
theorem copyLoop_cases (wr : Bool) (inode : Nat) {stop : Nat} (fuel : Nat) {pos : Int} (buf : Nat)
    (w : World) (h : toU32 pos < stop) :
    (∃ e t, fileGetBlock inode (toU16 (pos.tdiv BLKSIZE)) w = .error e t ∧
      copyLoop wr inode stop (fuel + 1) pos buf w = .error e t) ∨
    (∃ blk t x, fileGetBlock inode (toU16 (pos.tdiv BLKSIZE)) w = .ok blk t ∧
      x = Access.transfer wr (t.slotsOf inode) (inBlock blk pos) buf (chunk pos stop) ∧
      ((∃ e s, copy wr (inBlock blk pos) buf (chunk pos stop) (t.log x) = .error e s ∧
          copyLoop wr inode stop (fuel + 1) pos buf w = .error e s) ∨
        (∃ s, copy wr (inBlock blk pos) buf (chunk pos stop) (t.log x) = .ok () s ∧
          copyLoop wr inode stop (fuel + 1) pos buf w =
            copyLoop wr inode stop fuel (pos + chunk pos stop) (buf + chunk pos stop) s))) := by
  rw [copyLoop, if_pos h]
  cases hget : fileGetBlock inode (toU16 (pos.tdiv BLKSIZE)) w with
  | error e t => exact Or.inl ⟨e, t, rfl, bind_error hget⟩
  | ok blk t =>
    right
    refine ⟨blk, t, _, rfl, rfl, ?_⟩
    rw [bind_ok hget, bind_ok (modify_run _ t)]
    cases hcopy : copy wr (inBlock blk pos) buf (chunk pos stop) (t.log
        (Access.transfer wr (t.slotsOf inode) (inBlock blk pos) buf (chunk pos stop))) with
    | error e s => exact Or.inl ⟨e, s, rfl, bind_error hcopy⟩
    | ok _ s => exact Or.inr ⟨s, rfl, bind_ok hcopy⟩

/-- From a position inside the file on, the loop takes consecutive pieces, and all of them if it
returns. -/
theorem copyLoop_pieces (wr : Bool) (inode : Nat) {stop : Nat} (hstop : stop < 4294967296)
    (fuel : Nat) {a : Nat} (buf : Nat) (w : World) (ha : a ≤ stop) (hlim : a < 268435456)
    (hfuel : stop - a < fuel) : ∃ xs e,
      (final (copyLoop wr inode stop fuel a buf) w).accesses = xs.reverse ++ w.accesses ∧
        Pieces a xs e ∧ e ≤ stop ∧ ∀ v, copyLoop wr inode stop fuel a buf w = .ok () v → e = stop := by
  induction fuel generalizing a buf w with
  | zero => omega
  | succ fuel ih =>
    have hpos : toU32 a = a := toU32_natCast (by omega)
    rcases ha.eq_or_lt with rfl | hlt
    · rw [final_ok (copyLoop_done wr (fuel + 1) buf (by omega) w)]
      exact ⟨[], a, by simp, rfl, le_rfl, fun _ _ => rfl⟩
    have hcases := copyLoop_cases wr inode fuel buf w (by rwa [hpos] : toU32 (a : Int) < stop)
    rw [blockIndex_nat hlim] at hcases
    have hsize := chunk_nat hlt.le hstop
    have hcpos := chunk_pos (by rwa [hpos] : toU32 (a : Int) < stop) hstop
    generalize chunk (a : Int) stop = n at *
    -- a piece that is begun counts, whether its copy returns or not
    rcases hcases with ⟨x, t, hget, hrun⟩ | ⟨blk, t, x, hget, hx, hcopy⟩
    · rw [final_error hrun, hrun]
      exact ⟨[], a, Keeps.of_error (R := Unlogged) hget, rfl, hlt.le,
        fun _ he => by cases he⟩
    obtain ⟨hj, hblk⟩ := fileGetBlock_ok hget
    have hlen : x.len = n := by simp [hx]
    have hat : x.addr = x.place a := by simp [hx, Access.place, hblk, inBlock_nat]
    have hin : a % BLKSIZE + x.len ≤ BLKSIZE := by
      have hmod : a % BLKSIZE < BLKSIZE := Nat.mod_lt _ (by decide)
      omega
    have hacc : (t.log x).accesses = x :: w.accesses :=
      congrArg (List.cons x) (Keeps.of_ok (R := Unlogged) hget)
    rcases hcopy with ⟨y, s, hcopy, hrun⟩ | ⟨s, hcopy, hrun⟩
    · have hs : s.accesses = x :: w.accesses := (Keeps.of_error (R := Unlogged) hcopy).trans hacc
      rw [final_error hrun, hrun]
      exact ⟨[x], a + n, by simpa using hs, ⟨hj, hin, hat, by rw [hlen]; rfl⟩, by omega,
        fun _ he => by cases he⟩
    · have hs : s.accesses = x :: w.accesses := (Keeps.of_ok (R := Unlogged) hcopy).trans hacc
      have hnext : a + n < 268435456 := by
        simp only [NDIRECT, BLKSIZE] at *
        omega
      obtain ⟨xs, e, hxs, hrest, he, hok⟩ := ih (a := a + n) (buf + n) s (by omega) hnext (by omega)
      rw [Int.natCast_add] at hxs hok
      refine ⟨x :: xs, e, ?_, ⟨hj, hin, hat, by rwa [hlen]⟩, he, by rwa [hrun]⟩
      rw [final, hrun]
      rw [final, hs] at hxs
      simpa using hxs

end DamnOS.FileSystem
