import DamnOS.FileSystem.Layout

/-!
# Decoding and stores

What a store into the super block or into the inode table does to the decoded metadata.
-/

namespace DamnOS.FileSystem

open DamnOS.Framework

@[ext] theorem Inode.ext' {x y : Inode} (ht : x.type = y.type) (hs : x.size = y.size)
    (hu : x.blkUsed = y.blkUsed) (hb : ∀ j, x.blkInd j = y.blkInd j) : x = y := by
  cases x
  cases y
  simp only [Inode.mk.injEq] at *
  exact ⟨ht, hs, hu, funext hb⟩

theorem Meta.ext' {m n : Meta} (hb : m.blkNum = n.blkNum) (hi : m.inNum = n.inNum)
    (ho : ∀ b, m.blkOcp b = n.blkOcp b) (hk : ∀ k, m.inOcp k = n.inOcp k)
    (hx : ∀ i, m.inode i = n.inode i) : m = n := by
  cases m
  cases n
  simp only [Meta.mk.injEq] at *
  exact ⟨hb, hi, funext ho, funext hk, funext hx⟩

private theorem decodeInode_congr {g h : Nat → UInt8} (i : Nat) (hi : i < MAXINODENUM)
    (he : ∀ o < BLKSIZE, g o = h o) : decodeInode g i = decodeInode h i := by
  simp only [MAXINODENUM, BLKSIZE] at hi he
  apply Inode.ext'
  · exact u16_congr (he _ (by simp only [INSIZE, offType]; omega))
      (he _ (by simp only [INSIZE, offType]; omega))
  · exact u16_congr (he _ (by simp only [INSIZE, offSize]; omega))
      (he _ (by simp only [INSIZE, offSize]; omega))
  · exact u16_congr (he _ (by simp only [INSIZE, offBlkUsed]; omega))
      (he _ (by simp only [INSIZE, offBlkUsed]; omega))
  · intro j
    by_cases hj : j < 13
    · have hlt : INSIZE * i + offBlkInd + 2 * j + 1 < 4096 := by
        simp only [INSIZE, offBlkInd]
        omega
      have hu := u16_congr (he _ (Nat.lt_of_succ_lt hlt)) (he _ hlt)
      simp only [decodeInode, hu]
    · have hn : ¬j < NDIRECT := hj
      simp only [decodeInode, if_neg hn]

theorem decode_congr {b0 b1 c0 c1 : Nat → UInt8} (h0 : ∀ o < BLKSIZE, b0 o = c0 o)
    (h1 : ∀ o < BLKSIZE, b1 o = c1 o) : decode b0 b1 = decode c0 c1 := by
  have h0' : ∀ o < 4096, b0 o = c0 o := h0
  apply Meta.ext'
  · exact u16_congr (h0' _ (by decide)) (h0' _ (by decide))
  · exact u16_congr (h0' _ (by decide)) (h0' _ (by decide))
  · intro b
    simp only [decode, MAXBLKNUM]
    by_cases hb : b < 4096
    · have he : u32 b0 (offBlkOcp + 4 * (b / 32)) = u32 c0 (offBlkOcp + 4 * (b / 32)) :=
        u32_congr fun i hi => h0' _ (by simp only [offBlkOcp]; omega)
      rw [he]
    · simp [hb]
  · intro k
    simp only [decode, MAXINODENUM]
    by_cases hk : k < 128
    · have he : u32 b0 (offInOcp + 4 * (k / 32)) = u32 c0 (offInOcp + 4 * (k / 32)) :=
        u32_congr fun i hi => h0' _ (by simp only [offInOcp]; omega)
      rw [he]
    · simp [hk]
  · intro i
    simp only [decode]
    split_ifs with hi
    · exact decodeInode_congr i hi h1
    · rfl

section Bitmap

variable (b0 b1 : Nat → UInt8)

private theorem bit_store {base n : Nat} (k i v : Nat) (bit : Bool) (hv : v < 2 ^ 32)
    (hbits : ∀ j, v.testBit j =
      if j = k % 32 then bit else (u32 b0 (base + 4 * (k / 32))).testBit j) (hk : k < n) :
    (decide (i < n) && (u32 (splice b0 (base + 4 * (k / 32)) 4 (leByte v))
        (base + 4 * (i / 32))).testBit (i % 32)) =
      Function.update (fun i => decide (i < n) &&
        (u32 b0 (base + 4 * (i / 32))).testBit (i % 32)) k bit i := by
  by_cases hw : i / 32 = k / 32
  · rw [hw, u32_splice_same, Nat.mod_eq_of_lt hv, hbits]
    by_cases hi : i = k
    · subst hi
      simp [hk]
    · have hm : i % 32 ≠ k % 32 := by omega
      rw [if_neg hm, Function.update_of_ne hi, hw]
  · have hi : i ≠ k := by rintro rfl; exact hw rfl
    rw [u32_splice_disjoint b0 _ (by omega), Function.update_of_ne hi]

/-- A store into the word of block `b` that changes only the bit of `b`. -/
theorem decode_store_blkOcp (b v : Nat) (bit : Bool) (hb : b < MAXBLKNUM) (hv : v < 2 ^ 32)
    (hbits : ∀ j, v.testBit j =
      if j = b % 32 then bit else (u32 b0 (offBlkOcp + 4 * (b / 32))).testBit j) :
    decode (splice b0 (offBlkOcp + 4 * (b / 32)) 4 (leByte v)) b1 =
      (decode b0 b1).setBlkOcp b bit := by
  have hb' : b < 4096 := hb
  apply Meta.ext'
  · exact u16_splice_disjoint b0 _ (by simp only [offBlkNum, offBlkOcp]; omega)
  · exact u16_splice_disjoint b0 _ (by simp only [offInNum, offBlkOcp]; omega)
  · intro i
    exact bit_store b0 (n := MAXBLKNUM) b i v bit hv hbits hb
  · intro k
    simp only [decode, Meta.setBlkOcp, MAXINODENUM]
    rw [u32_splice_disjoint b0 _ (by simp only [offInOcp, offBlkOcp]; omega)]
  · intro i
    rfl

theorem decode_store_inOcp (k v : Nat) (bit : Bool) (hk : k < MAXINODENUM) (hv : v < 2 ^ 32)
    (hbits : ∀ j, v.testBit j =
      if j = k % 32 then bit else (u32 b0 (offInOcp + 4 * (k / 32))).testBit j) :
    decode (splice b0 (offInOcp + 4 * (k / 32)) 4 (leByte v)) b1 =
      (decode b0 b1).setInOcp k bit := by
  have hk' : k < 128 := hk
  apply Meta.ext'
  · exact u16_splice_disjoint b0 _ (by simp only [offBlkNum, offInOcp]; omega)
  · exact u16_splice_disjoint b0 _ (by simp only [offInNum, offInOcp]; omega)
  · intro b
    simp only [decode, Meta.setInOcp, MAXBLKNUM]
    by_cases hb : b < 4096
    · rw [u32_splice_disjoint b0 _ (by simp only [offInOcp, offBlkOcp]; omega)]
    · simp [hb]
  · intro i
    exact bit_store b0 (n := MAXINODENUM) k i v bit hv hbits hk
  · intro i
    rfl

end Bitmap

section InodeField

variable (b0 b1 : Nat → UInt8) {i : Nat} (hi : i < MAXINODENUM)
include hi

private theorem decode_store_inode (o v : Nat) (ho : o + 2 ≤ INSIZE) :
    decode b0 (splice b1 (INSIZE * i + o) 2 (leByte v)) =
      (decode b0 b1).setInode i (decodeInode (splice b1 (INSIZE * i + o) 2 (leByte v)) i) := by
  have ho' : o + 2 ≤ 32 := ho
  apply Meta.ext'
  · rfl
  · rfl
  · intro b
    rfl
  · intro k
    rfl
  · intro k
    simp only [decode, Meta.setInode]
    by_cases hk : k = i
    · subst hk
      rw [Function.update_self, if_pos hi]
    · rw [Function.update_of_ne hk]
      split_ifs with hk'
      · simp only [decodeInode, INSIZE, offType, offSize, offBlkUsed, offBlkInd]
        congr 1
        · exact u16_splice_disjoint b1 _ (by omega)
        · exact u16_splice_disjoint b1 _ (by omega)
        · exact u16_splice_disjoint b1 _ (by omega)
        · funext j
          by_cases hj : j < NDIRECT
          · have hj' : j < 13 := hj
            rw [if_pos hj, if_pos hj, u16_splice_disjoint b1 _ (by omega)]
          · rw [if_neg hj, if_neg hj]
      · rfl

theorem decode_inode : (decode b0 b1).inode i = decodeInode b1 i := by
  simp only [decode]
  exact if_pos hi

private theorem decode_store_field (o v : Nat) (x : Inode) (ho : o + 2 ≤ INSIZE)
    (hx : decodeInode (splice b1 (INSIZE * i + o) 2 (leByte v)) i = x) :
    decode b0 (splice b1 (INSIZE * i + o) 2 (leByte v)) = (decode b0 b1).setInode i x := by
  rw [decode_store_inode b0 b1 hi o v ho, hx]

theorem decode_store_type (v : Nat) :
    decode b0 (splice b1 (INSIZE * i + offType) 2 (leByte v)) =
      (decode b0 b1).setType i (v % 65536) := by
  refine decode_store_field b0 b1 hi offType v _ (by decide) ?_
  rw [decode_inode b0 b1 hi]
  apply Inode.ext'
  · exact u16_splice_same b1 _ v
  · exact u16_splice_disjoint b1 _ (by simp only [offType, offSize]; omega)
  · exact u16_splice_disjoint b1 _ (by simp only [offType, offBlkUsed]; omega)
  · intro j
    simp only [decodeInode]
    rw [u16_splice_disjoint b1 _ (by simp only [offType, offBlkInd]; omega)]

theorem decode_store_size (v : Nat) :
    decode b0 (splice b1 (INSIZE * i + offSize) 2 (leByte v)) =
      (decode b0 b1).setSize i (v % 65536) := by
  refine decode_store_field b0 b1 hi offSize v _ (by decide) ?_
  rw [decode_inode b0 b1 hi]
  apply Inode.ext'
  · exact u16_splice_disjoint b1 _ (by simp only [offType, offSize]; omega)
  · exact u16_splice_same b1 _ v
  · exact u16_splice_disjoint b1 _ (by simp only [offSize, offBlkUsed]; omega)
  · intro j
    simp only [decodeInode]
    rw [u16_splice_disjoint b1 _ (by simp only [offSize, offBlkInd]; omega)]

theorem decode_store_blkUsed (v : Nat) :
    decode b0 (splice b1 (INSIZE * i + offBlkUsed) 2 (leByte v)) =
      (decode b0 b1).setBlkUsed i (v % 65536) := by
  refine decode_store_field b0 b1 hi offBlkUsed v _ (by decide) ?_
  rw [decode_inode b0 b1 hi]
  apply Inode.ext'
  · exact u16_splice_disjoint b1 _ (by simp only [offType, offBlkUsed]; omega)
  · exact u16_splice_disjoint b1 _ (by simp only [offSize, offBlkUsed]; omega)
  · exact u16_splice_same b1 _ v
  · intro j
    simp only [decodeInode]
    rw [u16_splice_disjoint b1 _ (by simp only [offBlkUsed, offBlkInd]; omega)]

theorem decode_store_slot (j v : Nat) (hj : j < NDIRECT) :
    decode b0 (splice b1 (INSIZE * i + offBlkInd + 2 * j) 2 (leByte v)) =
      (decode b0 b1).setSlot i j (v % 65536) := by
  have hj' : j < 13 := hj
  have ho : offBlkInd + 2 * j + 2 ≤ INSIZE := by simp only [offBlkInd, INSIZE]; omega
  rw [Nat.add_assoc]
  refine decode_store_field b0 b1 hi (offBlkInd + 2 * j) v _ ho ?_
  rw [decode_inode b0 b1 hi]
  apply Inode.ext'
  · exact u16_splice_disjoint b1 _ (by simp only [offType, offBlkInd]; omega)
  · exact u16_splice_disjoint b1 _ (by simp only [offSize, offBlkInd]; omega)
  · exact u16_splice_disjoint b1 _ (by simp only [offBlkUsed, offBlkInd]; omega)
  · intro k
    simp only [decodeInode, Nat.add_assoc]
    by_cases hk : k = j
    · subst hk
      rw [if_pos hj, Function.update_self, u16_splice_same]
    · rw [Function.update_of_ne hk, u16_splice_disjoint b1 _ (by omega)]

end InodeField

end DamnOS.FileSystem
