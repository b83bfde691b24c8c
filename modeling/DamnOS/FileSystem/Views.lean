import DamnOS.FileSystem.Code
import DamnOS.FileSystem.Decode

/-!
# What the server sees

Page faults and flushes leave every visible byte alone, and stores splice.  The metadata view of
a state then follows the stores into the super block and the inode table, and ignores all others.
-/

namespace DamnOS.FileSystem

open DamnOS.Framework

section Attempt

variable {α : Type} {m : M α} {w t : World}

theorem attempt_ok {a : α} (h : m w = .ok a t) : attempt m w = .ok (.ok a) t := by
  simp only [attempt, h]

theorem attempt_err {e : Err} (h : m w = .error (.err e) t) :
    attempt m w = .ok (.error e) t := by
  simp only [attempt, h]

theorem attempt_panic {p : Panic} (h : m w = .error (.panic p) t) :
    attempt m w = .error (.panic p) t := by
  simp only [attempt, h]

theorem attempt_error {x : Exc} (h : attempt m w = .error x t) :
    ∃ p, x = .panic p := by
  unfold attempt at h
  split at h
  · cases h
  · cases h
  · cases h
    exact ⟨_, rfl⟩

theorem attempt_eq_ok {a : α} (h : attempt m w = .ok (.ok a) t) : m w = .ok a t := by
  unfold attempt at h
  split at h
  · next heq =>
    cases h
    exact heq
  · cases h
  · cases h

theorem final_attempt (m : M α) (w : World) : final (attempt m) w = final m w := by
  unfold final attempt
  cases m w with
  | ok a t => rfl
  | error e t => cases e <;> rfl

end Attempt

theorem byte_mapped {w : World} {a : Nat} (h : w.present (a / PGSIZE) = true ∨ a < DISKMAP) :
    w.byte a = w.mem a := by
  rw [World.byte, if_pos h]

theorem byte_unmapped {w : World} {a : Nat}
    (h : ¬(w.present (a / PGSIZE) = true ∨ a < DISKMAP)) :
    w.byte a = w.disk (a / PGSIZE - superPg) (a % PGSIZE) := by
  rw [World.byte, if_neg h]

theorem byte_load (w : World) (p : Nat) (hp : superPg ≤ p) (hn : w.present p = false) :
    (w.load p).byte = w.byte := by
  funext a
  by_cases ha : a / PGSIZE = p
  · have hlow : ¬a < DISKMAP := by
      simp only [PGSIZE, superPg, DISKMAP] at *
      omega
    have hnew : (w.load p).present (a / PGSIZE) = true := by simp [World.load, ha]
    have hold : ¬(w.present (a / PGSIZE) = true ∨ a < DISKMAP) := by simp [ha, hn, hlow]
    rw [byte_mapped (Or.inl hnew), byte_unmapped hold, ha]
    simp [World.load, ha]
  · have hpr : (w.load p).present (a / PGSIZE) = w.present (a / PGSIZE) := by
      simp [World.load, ha]
    by_cases h : w.present (a / PGSIZE) = true ∨ a < DISKMAP
    · rw [byte_mapped h, byte_mapped (by rwa [hpr])]
      simp [World.load, ha]
    · rw [byte_unmapped h, byte_unmapped (by rwa [hpr])]
      rfl

@[simp] theorem present_flush (w : World) (p : Nat) : (w.flush p).present = w.present := by
  unfold World.flush
  split_ifs <;> rfl

@[simp] theorem mem_flush (w : World) (p : Nat) : (w.flush p).mem = w.mem := by
  unfold World.flush
  split_ifs <;> rfl

theorem disk_flush_of_ne (w : World) {p b : Nat} (h : w.present p = true → b ≠ p - superPg) :
    (w.flush p).disk b = w.disk b := by
  unfold World.flush
  split_ifs with hc
  · simp only [Bool.and_eq_true] at hc
    have hne := h hc.1
    simp only [Function.update_of_ne hne]
  · rfl

theorem byte_flush (w : World) (p : Nat) (hp : superPg ≤ p) : (w.flush p).byte = w.byte := by
  funext a
  by_cases h : w.present (a / PGSIZE) = true ∨ a < DISKMAP
  · rw [byte_mapped h, byte_mapped (by rwa [present_flush]), mem_flush]
  · rw [byte_unmapped h, byte_unmapped (by rwa [present_flush])]
    rw [disk_flush_of_ne]
    intro hpres heq
    apply h
    left
    have hpa : a / PGSIZE = p := by
      simp only [PGSIZE, DISKMAP, superPg] at *
      omega
    rw [hpa]
    exact hpres

theorem byte_write_outside (w : World) (a n : Nat) (f : Nat → UInt8) {x : Nat}
    (h : x < a ∨ a + n ≤ x) : (w.write a n f).byte x = w.byte x := by
  by_cases hc : w.present (x / PGSIZE) = true ∨ x < DISKMAP
  · rw [byte_mapped hc, byte_mapped (w := w.write a n f) hc]
    exact splice_outside _ _ h
  · rw [byte_unmapped hc, byte_unmapped (w := w.write a n f) hc]
    rfl

theorem byte_write (w : World) (a n : Nat) (f : Nat → UInt8)
    (h : ∀ x, a ≤ x → x < a + n → w.present (x / PGSIZE) = true ∨ x < DISKMAP) :
    (w.write a n f).byte = splice w.byte a n f := by
  funext x
  by_cases hx : a ≤ x ∧ x < a + n
  · have hc := h x hx.1 hx.2
    rw [byte_mapped (w := w.write a n f) hc, splice_inside _ _ hx]
    exact splice_inside _ _ hx
  · rw [splice_outside _ _ (by omega), byte_write_outside w a n f (by omega)]

@[simp] theorem byte_follow (w : World) (k : Nat) : (w.follow k).byte = w.byte := rfl

@[simp] theorem byte_log (w : World) (x : Access) : (w.log x).byte = w.byte := rfl

theorem block_of_byte {w v : World} (h : v.byte = w.byte) : v.block = w.block := by
  funext b o
  rw [World.block, World.block, h]

theorem cached_of_byte {w v : World} (h : v.byte = w.byte) : v.cached = w.cached := by
  rw [World.cached, World.cached, block_of_byte h]

theorem mem_pagesOf {a n p : Nat} :
    p ∈ pagesOf a n ↔ 0 < n ∧ a / PGSIZE ≤ p ∧ p ≤ (a + n - 1) / PGSIZE := by
  unfold pagesOf
  split_ifs with hn
  · simp [hn]
  · have hle : a / PGSIZE ≤ (a + n - 1) / PGSIZE := Nat.div_le_div_right (by omega)
    simp only [List.mem_range'_1]
    omega

private theorem page_mem_pagesOf {a n x : Nat} (h : a ≤ x ∧ x < a + n) : x / PGSIZE ∈ pagesOf a n := by
  rw [mem_pagesOf]
  exact ⟨by omega, Nat.div_le_div_right h.1, Nat.div_le_div_right (by omega)⟩

theorem pagesOf_within {a n p : Nat} (hlo : p * PGSIZE ≤ a) (hhi : a + n ≤ p * PGSIZE + PGSIZE) :
    ∀ q ∈ pagesOf a n, q = p := by
  intro q hq
  rw [mem_pagesOf] at hq
  simp only [PGSIZE] at *
  omega

theorem touchPage_present {w : World} {p : Nat} (h : w.present p = true) :
    touchPage p w = .ok () w := by
  rw [touchPage, bind_ok (get_run w), if_pos h]
  rfl

private theorem forM_touch_present {w : World} {l : List Nat}
    (h : ∀ p ∈ l, w.present p = true) : (l.forM touchPage : M Unit) w = .ok () w := by
  induction l with
  | nil => rfl
  | cons p l ih =>
    change (touchPage p >>= fun _ => l.forM touchPage) w = _
    rw [bind_ok (touchPage_present (h p (by simp)))]
    exact ih fun q hq => h q (by simp [hq])

theorem touch_present {w : World} {a n : Nat} (h : ∀ p ∈ pagesOf a n, w.present p = true) :
    touch a n w = .ok () w :=
  forM_touch_present h

theorem load16_present {w : World} {a : Nat} (h : ∀ p ∈ pagesOf a 2, w.present p = true) :
    load16 a w = .ok (w.cell a) w := by
  rw [load16, bind_ok (touch_present h)]
  rfl

theorem store_present {w : World} {a n : Nat} {f : Nat → UInt8}
    (h : ∀ p ∈ pagesOf a n, w.present p = true) : store a n f w = .ok () (w.write a n f) := by
  rw [store, bind_ok (touch_present h)]
  rfl

theorem present_bytes {w : World} {a n : Nat} (h : ∀ p ∈ pagesOf a n, w.present p = true) :
    ∀ x, a ≤ x → x < a + n → w.present (x / PGSIZE) = true ∨ x < DISKMAP :=
  fun _ hl hr => Or.inl (h _ (page_mem_pagesOf ⟨hl, hr⟩))

@[simp] theorem present_write (w : World) (a n : Nat) (f : Nat → UInt8) :
    (w.write a n f).present = w.present := rfl

@[simp] theorem present_follow (w : World) (k : Nat) : (w.follow k).present = w.present := rfl

@[simp] theorem present_log (w : World) (x : Access) : (w.log x).present = w.present := rfl

theorem present_load (w : World) (p q : Nat) (h : w.present q = true) :
    (w.load p).present q = true := by
  by_cases hq : q = p
  · simp [World.load, hq]
  · simpa [World.load, hq] using h

theorem present_fill (w : World) (a n : Nat) (f : Nat → UInt8) (p : Nat) (h : w.present p = true) :
    (w.fill a n f).present p = true := by
  simp [World.fill, h]

theorem fill_present {w : World} {a n : Nat} {f : Nat → UInt8}
    (h : ∀ p ∈ pagesOf a n, w.present p = true) : w.fill a n f = w.write a n f := by
  have hp : (fun p => decide (0 < n ∧ a / PGSIZE ≤ p ∧ p ≤ (a + n - 1) / PGSIZE) || w.present p) =
      w.present := by
    funext p
    by_cases hc : 0 < n ∧ a / PGSIZE ≤ p ∧ p ≤ (a + n - 1) / PGSIZE
    · simp [hc, h p (mem_pagesOf.mpr hc)]
    · simp [hc]
  rw [World.fill, hp]

/-- Both metadata pages are mapped, as they are from `fs_init` on. -/
structure Ready (w : World) : Prop where
  super : w.present superPg = true
  inode : w.present inodePg = true

theorem pages_super {w : World} (h : Ready w) {o n : Nat} (ho : o + n ≤ BLKSIZE) :
    ∀ p ∈ pagesOf (super + o) n, w.present p = true := by
  intro p hp
  have he : p = superPg := by
    refine pagesOf_within ?_ ?_ p hp <;>
      simp only [FileSystem.super, blockVa, DISKMAP, superPg, PGSIZE, BLKSIZE] at * <;> omega
  rw [he]
  exact h.super

theorem pages_inode {w : World} (h : Ready w) {i o n : Nat} (hi : i < MAXINODENUM)
    (ho : o + n ≤ INSIZE) : ∀ p ∈ pagesOf (inodeVa i + o) n, w.present p = true := by
  intro p hp
  have he : p = inodePg := by
    refine pagesOf_within ?_ ?_ p hp <;>
      simp only [inodeVa, blockVa, DISKMAP, inodePg, PGSIZE, BLKSIZE, INSIZE, MAXINODENUM] at * <;>
        omega
  rw [he]
  exact h.inode

private theorem cell_block (w : World) (b o : Nat) : w.cell (blockVa b + o) = u16 (w.block b) o := by
  simp only [World.cell, u16, World.block, Nat.add_assoc]

theorem word_block (w : World) (b o : Nat) : w.word (blockVa b + o) = u32 (w.block b) o := by
  simp only [World.word, u32, u16, World.block, Nat.add_assoc]

private theorem inodeVa_block (i o : Nat) : inodeVa i + o = blockVa 1 + (INSIZE * i + o) := by
  rw [inodeVa, Nat.add_assoc]

private theorem cell_inode (w : World) (i o : Nat) :
    w.cell (inodeVa i + o) = u16 (w.block 1) (INSIZE * i + o) := by
  rw [inodeVa_block, cell_block]

theorem blkNum_cached (w : World) : w.blkNum = w.cached.blkNum := cell_block w 0 offBlkNum

theorem inNum_cached (w : World) : w.inNum = w.cached.inNum := cell_block w 0 offInNum

theorem cell_type (w : World) {i : Nat} (hi : i < MAXINODENUM) :
    w.cell (inodeVa i + offType) = (w.cached.inode i).type := by
  rw [cell_inode, World.cached, decode_inode _ _ hi]
  rfl

theorem cell_size (w : World) {i : Nat} (hi : i < MAXINODENUM) :
    w.cell (inodeVa i + offSize) = (w.cached.inode i).size := by
  rw [cell_inode, World.cached, decode_inode _ _ hi]
  rfl

theorem size_lt (w : World) (i : Nat) : (w.cached.inode i).size < 65536 := by
  by_cases hi : i < MAXINODENUM
  · rw [← cell_size w hi]
    exact u16_lt _ _
  · simp [World.cached, decode, hi, emptyInode]

theorem cell_blkUsed (w : World) {i : Nat} (hi : i < MAXINODENUM) :
    w.cell (inodeVa i + offBlkUsed) = (w.cached.inode i).blkUsed := by
  rw [cell_inode, World.cached, decode_inode _ _ hi]
  rfl

theorem cell_slot (w : World) {i j : Nat} (hi : i < MAXINODENUM) (hj : j < NDIRECT) :
    w.cell (inodeVa i + offBlkInd + 2 * j) = w.cached.slot i j := by
  rw [Nat.add_assoc, cell_inode, Meta.slot, World.cached, decode_inode _ _ hi]
  simp only [decodeInode]
  rw [if_pos hj, Nat.add_assoc]

theorem slot_ge (w : World) (i : Nat) {j : Nat} (hj : NDIRECT ≤ j) : w.cached.slot i j = 0 := by
  simp only [Meta.slot, World.cached, decode]
  split_ifs
  · simp only [decodeInode]
    exact if_neg (by omega)
  · rfl

theorem blockIsFree_iff (w : World) {b : Nat} (hb : b < MAXBLKNUM) :
    w.blockIsFree b = true ↔ b < w.cached.blkNum ∧ w.cached.blkOcp b = false := by
  have hw : w.word (super + offBlkOcp + 4 * (b / 32)) =
      u32 (w.block 0) (offBlkOcp + 4 * (b / 32)) := by
    rw [Nat.add_assoc, super, word_block]
  simp only [World.blockIsFree, blkNum_cached, hw]
  by_cases h : w.cached.blkNum ≤ b
  · simp [h]
  · rw [if_neg h, beq_iff_eq, and_shift_eq_zero]
    simp only [World.cached, decode, hb, decide_true, Bool.true_and]
    exact ⟨fun he => ⟨not_le.mp h, he⟩, fun he => he.2⟩

theorem inodeIsFree_iff (w : World) {k : Nat} (hk : k < MAXINODENUM) :
    w.inodeIsFree k = true ↔ k < w.cached.inNum ∧ w.cached.inOcp k = false := by
  have hw : w.word (super + offInOcp + 4 * (k / 32)) =
      u32 (w.block 0) (offInOcp + 4 * (k / 32)) := by
    rw [Nat.add_assoc, super, word_block]
  simp only [World.inodeIsFree, inNum_cached, hw]
  by_cases h : w.cached.inNum ≤ k
  · simp [h]
  · rw [if_neg h, beq_iff_eq, and_shift_eq_zero]
    simp only [World.cached, decode, hk, decide_true, Bool.true_and]
    exact ⟨fun he => ⟨not_le.mp h, he⟩, fun he => he.2⟩

private theorem block_splice {g : Nat → UInt8} (b x n o : Nat) (f : Nat → UInt8) :
    splice g (blockVa b + x) n f (blockVa b + o) =
      splice (fun o => g (blockVa b + o)) x n f o := by
  simp only [splice, Nat.add_assoc, Nat.add_le_add_iff_left, Nat.add_lt_add_iff_left,
    Nat.add_sub_add_left]

private theorem cached_store_super {w : World} (h : Ready w) {x n : Nat} {f : Nat → UInt8}
    (hx : x + n ≤ BLKSIZE) :
    (w.write (super + x) n f).cached = decode (splice (w.block 0) x n f) (w.block 1) := by
  have hb := byte_write w (super + x) n f (present_bytes (pages_super h hx))
  apply decode_congr
  · intro o _
    rw [World.block, hb]
    exact block_splice 0 x n o f
  · intro o _
    rw [World.block, hb]
    refine splice_outside _ _ (Or.inr ?_)
    simp only [super, blockVa, BLKSIZE, DISKMAP] at *
    omega

private theorem cached_store_inode {w : World} (h : Ready w) {i o n : Nat} {f : Nat → UInt8}
    (hi : i < MAXINODENUM) (ho : o + n ≤ INSIZE) :
    (w.write (inodeVa i + o) n f).cached =
      decode (w.block 0) (splice (w.block 1) (INSIZE * i + o) n f) := by
  have hb := byte_write w (inodeVa i + o) n f (present_bytes (pages_inode h hi ho))
  apply decode_congr
  · intro x hx
    rw [World.block, hb]
    refine splice_outside _ _ (Or.inl ?_)
    simp only [inodeVa, blockVa, BLKSIZE, DISKMAP] at *
    omega
  · intro x _
    rw [World.block, hb, inodeVa_block]
    exact block_splice 1 (INSIZE * i + o) n x f

theorem cached_setBlkOcp {w : World} (h : Ready w) {b : Nat} (hb : b < MAXBLKNUM) :
    (w.write (super + offBlkOcp + 4 * (b / 32)) 4 (leByte
      (w.word (super + offBlkOcp + 4 * (b / 32)) ||| (1 <<< (b % 32))))).cached =
      w.cached.setBlkOcp b true := by
  have hb' : b < 4096 := hb
  rw [Nat.add_assoc, cached_store_super h (by simp only [offBlkOcp, BLKSIZE]; omega), super,
    word_block]
  refine decode_store_blkOcp _ _ b _ true hb
    (or_shift_lt _ _ (by omega) (u32_lt _ _)) fun j => testBit_or_shift _ _ j

theorem cached_clearBlkOcp {w : World} (h : Ready w) {b : Nat} (hb : b < MAXBLKNUM) :
    (w.write (super + offBlkOcp + 4 * (b / 32)) 4 (leByte
      (w.word (super + offBlkOcp + 4 * (b / 32)) &&&
        (0xFFFFFFFF ^^^ (1 <<< (b % 32)))))).cached = w.cached.setBlkOcp b false := by
  have hb' : b < 4096 := hb
  rw [Nat.add_assoc, cached_store_super h (by simp only [offBlkOcp, BLKSIZE]; omega), super,
    word_block]
  refine decode_store_blkOcp _ _ b _ false hb
    (and_mask_lt _ _ (u32_lt _ _)) fun j => testBit_and_mask _ _ j (u32_lt _ _)

theorem cached_setInOcp {w : World} (h : Ready w) {k : Nat} (hk : k < MAXINODENUM) :
    (w.write (super + offInOcp + 4 * (k / 32)) 4 (leByte
      (w.word (super + offInOcp + 4 * (k / 32)) ||| (1 <<< (k % 32))))).cached =
      w.cached.setInOcp k true := by
  have hk' : k < 128 := hk
  rw [Nat.add_assoc, cached_store_super h (by simp only [offInOcp, BLKSIZE]; omega), super,
    word_block]
  refine decode_store_inOcp _ _ k _ true hk
    (or_shift_lt _ _ (by omega) (u32_lt _ _)) fun j => testBit_or_shift _ _ j

theorem cached_clearInOcp {w : World} (h : Ready w) {k : Nat} (hk : k < MAXINODENUM) :
    (w.write (super + offInOcp + 4 * (k / 32)) 4 (leByte
      (w.word (super + offInOcp + 4 * (k / 32)) &&&
        (0xFFFFFFFF ^^^ (1 <<< (k % 32)))))).cached = w.cached.setInOcp k false := by
  have hk' : k < 128 := hk
  rw [Nat.add_assoc, cached_store_super h (by simp only [offInOcp, BLKSIZE]; omega), super,
    word_block]
  refine decode_store_inOcp _ _ k _ false hk
    (and_mask_lt _ _ (u32_lt _ _)) fun j => testBit_and_mask _ _ j (u32_lt _ _)

theorem cached_setType {w : World} (h : Ready w) {i : Nat} (hi : i < MAXINODENUM) (v : Nat) :
    (w.write (inodeVa i + offType) 2 (leByte v)).cached = w.cached.setType i (v % 65536) := by
  rw [cached_store_inode h hi (by decide)]
  exact decode_store_type _ _ hi v

theorem cached_setSize {w : World} (h : Ready w) {i : Nat} (hi : i < MAXINODENUM) (v : Nat) :
    (w.write (inodeVa i + offSize) 2 (leByte v)).cached = w.cached.setSize i (v % 65536) := by
  rw [cached_store_inode h hi (by decide)]
  exact decode_store_size _ _ hi v

theorem cached_setBlkUsed {w : World} (h : Ready w) {i : Nat} (hi : i < MAXINODENUM) (v : Nat) :
    (w.write (inodeVa i + offBlkUsed) 2 (leByte v)).cached =
      w.cached.setBlkUsed i (v % 65536) := by
  rw [cached_store_inode h hi (by decide)]
  exact decode_store_blkUsed _ _ hi v

theorem cached_setSlot {w : World} (h : Ready w) {i j : Nat} (hi : i < MAXINODENUM)
    (hj : j < NDIRECT) (v : Nat) :
    (w.write (inodeVa i + offBlkInd + 2 * j) 2 (leByte v)).cached =
      w.cached.setSlot i j (v % 65536) := by
  have hj' : j < 13 := hj
  rw [Nat.add_assoc, cached_store_inode h hi (by simp only [offBlkInd, INSIZE]; omega),
    ← Nat.add_assoc]
  exact decode_store_slot _ _ hi j v hj

theorem cached_write_data {w : World} {a n : Nat} {f : Nat → UInt8}
    (hp : ∀ x, a ≤ x → x < a + n → w.present (x / PGSIZE) = true ∨ x < DISKMAP)
    (h : a + n ≤ DISKMAP ∨ blockVa 2 ≤ a) : (w.write a n f).cached = w.cached := by
  have hb := byte_write w a n f hp
  apply decode_congr
  · intro o ho
    rw [World.block, World.block, hb]
    refine splice_outside _ _ ?_
    simp only [blockVa, BLKSIZE, DISKMAP] at *
    omega
  · intro o ho
    rw [World.block, World.block, hb]
    refine splice_outside _ _ ?_
    simp only [blockVa, BLKSIZE, DISKMAP] at *
    omega

theorem byte_fill_disk {w : World} {a n : Nat} {f : Nat → UInt8}
    (h : a + n ≤ DISKMAP ∨ DISKMAP + DISKSIZE ≤ a) {x : Nat} (hlo : DISKMAP ≤ x)
    (hhi : x < DISKMAP + DISKSIZE) : (w.fill a n f).byte x = w.byte x := by
  have hout : ¬(a ≤ x ∧ x < a + n) := by omega
  have hpg : ¬(0 < n ∧ a / PGSIZE ≤ x / PGSIZE ∧ x / PGSIZE ≤ (a + n - 1) / PGSIZE) := by
    simp only [PGSIZE, DISKMAP, DISKSIZE] at *
    omega
  have hp : (w.fill a n f).present (x / PGSIZE) = w.present (x / PGSIZE) := by
    simp [World.fill, hpg]
  have hm : (w.fill a n f).mem x = w.mem x := splice_outside _ _ (by omega)
  by_cases hc : w.present (x / PGSIZE) = true ∨ x < DISKMAP
  · rw [byte_mapped hc, byte_mapped (by rwa [hp]), hm]
  · rw [byte_unmapped hc, byte_unmapped (by rwa [hp])]
    rfl

theorem cached_fill {w : World} {a n : Nat} {f : Nat → UInt8}
    (h : a + n ≤ DISKMAP ∨ DISKMAP + DISKSIZE ≤ a) : (w.fill a n f).cached = w.cached := by
  apply decode_congr
  · intro o ho
    refine byte_fill_disk h ?_ ?_ <;> simp only [blockVa, BLKSIZE, DISKMAP, DISKSIZE] at * <;> omega
  · intro o ho
    refine byte_fill_disk h ?_ ?_ <;> simp only [blockVa, BLKSIZE, DISKMAP, DISKSIZE] at * <;> omega

end DamnOS.FileSystem
