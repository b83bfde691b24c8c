import DamnOS.HostTool.Termination
import DamnOS.HostTool.Unlink

/-!
# Editing files

`edit` writes a file with `write_file` and `cat` reads it with `read_file`.  Over any run of edits no two files share a
block, no block is lost, and each file holds what has been written to it last.
-/

namespace DamnOS.HostTool

open DamnOS.Framework

variable {h : Header} {im u v : Image h} {K : Finset Nat} {k n b : Nat}

namespace Image

/-- The state of the loop of `read_file`. -/
structure Reading where
  tmp : Nat → UInt8
  buf : Nat → UInt8

/-- One turn of the loop of `read_file`.  There is no value when a negative number of bytes would be copied. -/
def readPiece (im : Image h) (k : Nat) (s : Reading) (i : Nat) : Option Reading :=
  let bs := im.sb.blockSize
  let tmp := im.readBlock s.tmp ((im.inode k).blockIndex i)
  let count : Int := min ((im.inode k).size - (i * bs : Nat)) bs
  if count < 0 then none
  else some ⟨tmp, fun t => if i * bs ≤ t ∧ t < i * bs + count.toNat then tmp (t - i * bs) else s.buf t⟩

/-- `read_file`, for a file that is no directory, with what it leaves in `buf`. -/
def readFile (im : Image h) (k : Nat) (heap buf : Nat → UInt8) : Option (Nat → UInt8) :=
  ((List.range (im.inode k).blockUsed).foldlM (im.readPiece k) ⟨heap, buf⟩).map Reading.buf

def contents (im : Image h) (k : Nat) : List UInt8 :=
  (List.range (im.inode k).size).map fun t =>
    im.disk ((im.inode k).blockIndex (t / im.sb.blockSize)) (t % im.sb.blockSize)

/-- One `edit` of a file, with what `malloc` returns. -/
structure Edit where
  inode : Nat
  text : Text
  heap : Nat → UInt8

/-- A run of the tool for each of some edits. -/
def edits (fuel : Nat) : List Edit → Image h → Option (Image h)
  | [], im => some im
  | e :: es, im => (im.writeFile fuel e.text e.inode e.heap).bind fun r => edits fuel es r.2

/-- The blocks of the files in `K` are marked, and no two files share one. -/
structure Owned (im : Image h) (K : Finset Nat) : Prop where
  used : ∀ k ∈ K, (im.inode k).blockUsed ≤ SLOTS
  block : ∀ k ∈ K, ∀ i < (im.inode k).blockUsed, (im.inode k).blockIndex i < im.sb.blockNum ∧
    im.sb.blockAvai ((im.inode k).blockIndex i) ≠ 0
  apart : ∀ k ∈ K, ∀ i < (im.inode k).blockUsed, ∀ l ∈ K, ∀ j < (im.inode l).blockUsed,
    (im.inode k).blockIndex i = (im.inode l).blockIndex j → k = l ∧ i = j

/-- The blocks of a file are as many as its bytes fill. -/
def Filled (im : Image h) (k : Nat) : Prop :=
  (im.inode k).size ≤ (im.inode k).blockUsed * im.sb.blockSize ∧
    ∀ i < (im.inode k).blockUsed, i * im.sb.blockSize ≤ (im.inode k).size

/-- What has been done to file `k` leaves the other files of `K` alone, and no block has been lost. -/
structure Spares (im : Image h) (K : Finset Nat) (k : Nat) (v : Image h) : Prop where
  blockSize : v.sb.blockSize = im.sb.blockSize
  blockNum : v.sb.blockNum = im.sb.blockNum
  inode : ∀ l ∈ K, l ≠ k → v.inode l = im.inode l
  disk : ∀ l ∈ K, l ≠ k → ∀ i < (im.inode l).blockUsed,
    v.disk ((im.inode l).blockIndex i) = im.disk ((im.inode l).blockIndex i)
  free : v.freeBlocks + (v.inode k).blockUsed = im.freeBlocks + (im.inode k).blockUsed

theorem Spares.refl (im : Image h) (K : Finset Nat) (k : Nat) : im.Spares K k im :=
  ⟨rfl, rfl, fun _ _ _ => rfl, fun _ _ _ _ _ => rfl, rfl⟩

theorem Spares.trans (h₁ : im.Spares K k u) (h₂ : u.Spares K k v) : im.Spares K k v := by
  refine ⟨h₂.blockSize.trans h₁.blockSize, h₂.blockNum.trans h₁.blockNum, ?_, ?_, h₂.free.trans h₁.free⟩
  · intro l hl hne
    rw [h₂.inode l hl hne, h₁.inode l hl hne]
  · intro l hl hne i hi
    have hsame := h₁.inode l hl hne
    rw [← h₁.disk l hl hne i hi, ← hsame]
    exact h₂.disk l hl hne i (by rw [hsame]; exact hi)

theorem Spares.contents (hv : im.Spares K k v) (him : ∀ l ∈ K, im.Filled l) {l : Nat} (hl : l ∈ K) (hne : l ≠ k) :
    v.contents l = im.contents l := by
  rw [Image.contents, Image.contents, hv.inode l hl hne, hv.blockSize]
  apply List.map_congr_left
  intro t ht
  have hsize := (him l hl).1
  have hlt : t / im.sb.blockSize < (im.inode l).blockUsed := by
    rw [Nat.div_lt_iff_lt_mul im.sb.blockSize_pos]
    exact (List.mem_range.mp ht).trans_le hsize
  rw [hv.disk l hl hne _ hlt]

theorem Owned.congr (him : im.Owned K) (hsb : v.sb = im.sb)
    (hblocks : ∀ l, (v.inode l).blockUsed = (im.inode l).blockUsed ∧
      (v.inode l).blockIndex = (im.inode l).blockIndex) : v.Owned K := by
  refine ⟨?_, ?_, ?_⟩
  · intro l hl
    rw [(hblocks l).1]
    exact him.used l hl
  · intro l hl i hi
    rw [(hblocks l).1] at hi
    rw [(hblocks l).2, hsb]
    exact him.block l hl i hi
  · intro l hl i hi l' hl' j hj heq
    rw [(hblocks l).1] at hi
    rw [(hblocks l').1] at hj
    rw [(hblocks l).2, (hblocks l').2] at heq
    exact him.apart l hl i hi l' hl' j hj heq

private theorem newBlockForFile_eq (hv : im.newBlockForFile k = some v) : ∃ b < im.sb.blockNum, im.sb.blockAvai b = 0 ∧
    (im.inode k).blockUsed ≠ SLOTS ∧ v.sb = { im.sb with blockAvai := Function.update im.sb.blockAvai b 1 } ∧
    v.inode = Function.update im.inode k { im.inode k with
      blockIndex := Function.update (im.inode k).blockIndex (im.inode k).blockUsed b
      blockUsed := (im.inode k).blockUsed + 1 } ∧
    ∀ c ≠ b, v.disk c = im.disk c := by
  by_cases hused : (im.inode k).blockUsed = SLOTS
  · rw [newBlockForFile, if_pos hused] at hv
    cases hv
  · rw [newBlockForFile, if_neg hused, allocb, Option.map_map, Option.map_eq_some_iff] at hv
    obtain ⟨b, hb, rfl⟩ := hv
    obtain ⟨hfree, hmem, -⟩ := List.find?_range_eq_some.mp hb
    have hlt := List.mem_range.mp hmem
    have hconv : h.index.conv b = b := h.index.conv_of_le b (hlt.le.trans im.sb.blockNum_le)
    refine ⟨b, hlt, of_decide_eq_true hfree, hused, ?_, ?_, ?_⟩
    · rw [Function.comp_apply, sb_zeroBlock]
      rfl
    · rw [Function.comp_apply, inode_zeroBlock, hconv]
      rfl
    · intro c hc
      rw [Function.comp_apply, hconv, zeroBlock]
      split
      · rfl
      · exact Function.update_of_ne hc _ _

private theorem Owned.newBlock (him : im.Owned K) (hk : k ∈ K) (hv : im.newBlockForFile k = some v) :
    v.Owned K ∧ im.Spares K k v ∧ (v.inode k).blockUsed = (im.inode k).blockUsed + 1 := by
  obtain ⟨b, hb, hfree, hused, hsb, hinode, hdisk⟩ := newBlockForFile_eq hv
  have hcount := newBlockForFile_some hused hv
  have hself : v.inode k = { im.inode k with
      blockIndex := Function.update (im.inode k).blockIndex (im.inode k).blockUsed b
      blockUsed := (im.inode k).blockUsed + 1 } := by
    rw [hinode, Function.update_self]
  have hother (l : Nat) (hne : l ≠ k) : v.inode l = im.inode l := by rw [hinode, Function.update_of_ne hne]
  have hfresh (l : Nat) (hl : l ∈ K) (i : Nat) (hi : i < (im.inode l).blockUsed) : (im.inode l).blockIndex i ≠ b := by
    intro heq
    apply (him.block l hl i hi).2
    rw [heq]
    exact hfree
  have hblock (l : Nat) (i : Nat) (hi : i < (v.inode l).blockUsed) :
      l = k ∧ i = (im.inode k).blockUsed ∧ (v.inode l).blockIndex i = b ∨
        i < (im.inode l).blockUsed ∧ (v.inode l).blockIndex i = (im.inode l).blockIndex i := by
    by_cases hl : l = k
    · subst hl
      rw [hself] at hi ⊢
      dsimp only at hi ⊢
      by_cases hlast : i = (im.inode l).blockUsed
      · exact .inl ⟨rfl, hlast, by rw [hlast, Function.update_self]⟩
      · exact .inr ⟨by omega, Function.update_of_ne hlast _ _⟩
    · rw [hother l hl] at hi ⊢
      exact .inr ⟨hi, rfl⟩
  have hnew : (v.inode k).blockUsed = (im.inode k).blockUsed + 1 := by rw [hself]
  refine ⟨⟨?_, ?_, ?_⟩, ⟨by rw [hsb], by rw [hsb], fun l _ hne => hother l hne, ?_, by omega⟩, hnew⟩
  · intro l hl
    have hle := him.used l hl
    by_cases hlk : l = k
    · subst hlk
      omega
    · rw [hother l hlk]
      exact hle
  · intro l hl i hi
    rw [hsb]
    dsimp only
    rcases hblock l i hi with ⟨-, -, heq⟩ | ⟨hold, heq⟩
    · rw [heq, Function.update_self]
      exact ⟨hb, Nat.one_ne_zero⟩
    · rw [heq, Function.update_of_ne (hfresh l hl i hold)]
      exact him.block l hl i hold
  · intro l hl i hi l' hl' j hj heq
    rcases hblock l i hi with ⟨rfl, rfl, hib⟩ | ⟨hi', hib⟩
    · rcases hblock l' j hj with ⟨rfl, rfl, -⟩ | ⟨hj', hjb⟩
      · exact ⟨rfl, rfl⟩
      · rw [hib, hjb] at heq
        exact absurd heq.symm (hfresh l' hl' j hj')
    · rcases hblock l' j hj with ⟨rfl, rfl, hjb⟩ | ⟨hj', hjb⟩
      · rw [hib, hjb] at heq
        exact absurd heq (hfresh l hl i hi')
      · rw [hib, hjb] at heq
        exact him.apart l hl i hi' l' hl' j hj' heq
  · intro l hl _ i hi
    exact hdisk _ (hfresh l hl i hi)

private theorem freeBlocks_clear (hb : b < im.sb.blockNum) (hmarked : im.sb.blockAvai b ≠ 0) :
    (im.setAvai b 0).freeBlocks = im.freeBlocks + 1 := by
  have hfree : (im.setAvai b 0).sb.blockAvai b = 0 := Function.update_self _ _ _
  have hsame : ((im.setAvai b 0).setAvai b 1).freeBlocks = im.freeBlocks := by
    rw [freeBlocks, freeBlocks]
    refine congrArg Finset.card (Finset.filter_congr fun c _ => ?_)
    change Function.update (Function.update im.sb.blockAvai b 0) b 1 c = 0 ↔ im.sb.blockAvai c = 0
    by_cases hc : c = b
    · subst hc
      rw [Function.update_self]
      exact iff_of_false Nat.one_ne_zero hmarked
    · rw [Function.update_of_ne hc, Function.update_of_ne hc]
  rw [← hsame]
  exact (@freeBlocks_setAvai h (im.setAvai b 0) b hb hfree).symm

private theorem blockNum_freeBlockForFile (im : Image h) (k : Nat) :
    (im.freeBlockForFile k).sb.blockNum = im.sb.blockNum := by
  rw [freeBlockForFile]
  split <;> rfl

theorem Owned.freeBlock (him : im.Owned K) (hk : k ∈ K) (hused : 0 < (im.inode k).blockUsed) :
    (im.freeBlockForFile k).Owned K ∧ im.Spares K k (im.freeBlockForFile k) ∧
      ((im.freeBlockForFile k).inode k).blockUsed = (im.inode k).blockUsed - 1 := by
  obtain ⟨hlt, hmarked⟩ := him.block k hk ((im.inode k).blockUsed - 1) (by omega)
  have hself : (im.freeBlockForFile k).inode k = { im.inode k with blockUsed := (im.inode k).blockUsed - 1 } := by
    rw [freeBlockForFile, if_neg hused.ne']
    exact Function.update_self _ _ _
  have hother (l : Nat) (hne : l ≠ k) : (im.freeBlockForFile k).inode l = im.inode l := by
    rw [freeBlockForFile, if_neg hused.ne']
    exact Function.update_of_ne hne _ _
  have havai : (im.freeBlockForFile k).sb.blockAvai =
      Function.update im.sb.blockAvai ((im.inode k).blockIndex ((im.inode k).blockUsed - 1)) 0 := by
    rw [freeBlockForFile, if_neg hused.ne']
    rfl
  have hblock (l : Nat) (hl : l ∈ K) (i : Nat) (hi : i < ((im.freeBlockForFile k).inode l).blockUsed) :
      i < (im.inode l).blockUsed ∧
        ((im.freeBlockForFile k).inode l).blockIndex i = (im.inode l).blockIndex i ∧
        (im.inode l).blockIndex i ≠ (im.inode k).blockIndex ((im.inode k).blockUsed - 1) := by
    by_cases hlk : l = k
    · subst hlk
      rw [hself] at hi ⊢
      dsimp only at hi ⊢
      refine ⟨by omega, rfl, ?_⟩
      intro heq
      have hsame := (him.apart l hl i (by omega) l hl _ (by omega) heq).2
      omega
    · rw [hother l hlk] at hi ⊢
      refine ⟨hi, rfl, ?_⟩
      intro heq
      exact hlk (him.apart l hl i hi k hk _ (by omega) heq).1
  have hcount : (im.freeBlockForFile k).freeBlocks = im.freeBlocks + 1 := by
    rw [← freeBlocks_clear hlt hmarked, freeBlocks, freeBlocks, havai, blockNum_freeBlockForFile]
    rfl
  have hfewer : ((im.freeBlockForFile k).inode k).blockUsed = (im.inode k).blockUsed - 1 := by rw [hself]
  refine ⟨⟨?_, ?_, ?_⟩, ⟨blockSize_freeBlockForFile im k, blockNum_freeBlockForFile im k,
    fun l _ hne => hother l hne, fun _ _ _ _ _ => by rw [disk_freeBlockForFile], by omega⟩, hfewer⟩
  · intro l hl
    have hle := him.used l hl
    by_cases hlk : l = k
    · subst hlk
      omega
    · rw [hother l hlk]
      exact hle
  · intro l hl i hi
    obtain ⟨hi', heq, hne⟩ := hblock l hl i hi
    rw [heq, havai, Function.update_of_ne hne, blockNum_freeBlockForFile]
    exact him.block l hl i hi'
  · intro l hl i hi l' hl' j hj heq
    obtain ⟨hi', hib, -⟩ := hblock l hl i hi
    obtain ⟨hj', hjb, -⟩ := hblock l' hl' j hj
    rw [hib, hjb] at heq
    exact him.apart l hl i hi' l' hl' j hj' heq

theorem Owned.resized (him : im.Owned K) (hk : k ∈ K) {fuel : Nat}
    (hrun : (if (im.inode k).blockUsed < n then loop (growBlock k n) fuel im else loop (shrinkBlock k n) fuel im) =
      some v) : v.Owned K ∧ im.Spares K k v ∧ (v.inode k).blockUsed = n := by
  by_cases hlt : (im.inode k).blockUsed < n
  · rw [if_pos hlt] at hrun
    refine loop_result (I := fun s => s.Owned K ∧ im.Spares K k s ∧ (s.inode k).blockUsed ≤ n)
      (Q := fun s => s.Owned K ∧ im.Spares K k s ∧ (s.inode k).blockUsed = n) ?_ ?_
      ⟨him, .refl im K k, hlt.le⟩ hrun
    · rintro s t ⟨hs, hspares, hle⟩ hstay
      by_cases hmore : (s.inode k).blockUsed < n
      · rw [growBlock, if_pos hmore] at hstay
        cases hnew : s.newBlockForFile k with
        | none =>
          rw [hnew] at hstay
          cases hstay
          exact ⟨hs, hspares, hle⟩
        | some u =>
          rw [hnew] at hstay
          cases hstay
          obtain ⟨hu, hstep, hused⟩ := hs.newBlock hk hnew
          change u.Owned K ∧ im.Spares K k u ∧ (u.inode k).blockUsed ≤ n
          exact ⟨hu, hspares.trans hstep, by omega⟩
      · rw [growBlock, if_neg hmore] at hstay
        cases hstay
    · rintro s t ⟨hs, hspares, hle⟩ hleave
      by_cases hmore : (s.inode k).blockUsed < n
      · rw [growBlock, if_pos hmore] at hleave
        cases hleave
      · rw [growBlock, if_neg hmore] at hleave
        cases hleave
        exact ⟨hs, hspares, by omega⟩
  · rw [if_neg hlt] at hrun
    refine loop_result (I := fun s => s.Owned K ∧ im.Spares K k s ∧ n ≤ (s.inode k).blockUsed)
      (Q := fun s => s.Owned K ∧ im.Spares K k s ∧ (s.inode k).blockUsed = n) ?_ ?_
      ⟨him, .refl im K k, not_lt.mp hlt⟩ hrun
    · rintro s t ⟨hs, hspares, hle⟩ hstay
      by_cases hmore : n < (s.inode k).blockUsed
      · rw [shrinkBlock, if_pos hmore] at hstay
        cases hstay
        obtain ⟨ht, hstep, hused⟩ := hs.freeBlock hk (by omega)
        exact ⟨ht, hspares.trans hstep, by omega⟩
      · rw [shrinkBlock, if_neg hmore] at hstay
        cases hstay
    · rintro s t ⟨hs, hspares, hle⟩ hleave
      by_cases hmore : n < (s.inode k).blockUsed
      · rw [shrinkBlock, if_pos hmore] at hleave
        cases hleave
      · rw [shrinkBlock, if_neg hmore] at hleave
        cases hleave
        exact ⟨hs, hspares, by omega⟩

/-- What the loop that writes the first `n` blocks of file `k` leaves. -/
structure Wrote (w : Image h) (str : List UInt8) (k n : Nat) (v : Image h) : Prop where
  sb : v.sb = w.sb
  inode : v.inode = w.inode
  outside : ∀ b, (∀ i < n, (w.inode k).blockIndex i ≠ b) → v.disk b = w.disk b
  inside : ∀ i < n, ∀ t < w.sb.blockSize, i * w.sb.blockSize + t < str.length →
    v.disk ((w.inode k).blockIndex i) t = str.getD (i * w.sb.blockSize + t) 0

private theorem wrote_pieces (w : Image h) (str : List UInt8) (k n : Nat) (heap : Nat → UInt8)
    (hapart : ∀ i < n, ∀ j < n, (w.inode k).blockIndex i = (w.inode k).blockIndex j → i = j) :
    Wrote w str k n ((List.range n).foldl (writePiece str k) ⟨heap, w⟩).image := by
  induction n with
  | zero => exact ⟨rfl, rfl, fun _ _ => rfl, fun i hi => absurd hi (Nat.not_lt_zero i)⟩
  | succ n ih =>
    have hw := ih fun i hi j hj => hapart i (by omega) j (by omega)
    rw [List.range_succ, List.foldl_append]
    generalize (List.range n).foldl (writePiece str k) ⟨heap, w⟩ = s at hw
    obtain ⟨hsb, hinode, houtside, hinside⟩ := hw
    have hplace : (s.image.inode k).blockIndex n = (w.inode k).blockIndex n := by rw [hinode]
    have hsize : s.image.sb.blockSize = w.sb.blockSize := by rw [hsb]
    change Wrote w str k (n + 1) (writePiece str k s n).image
    rw [writePiece]
    dsimp only
    rw [hplace, hsize]
    refine ⟨hsb, hinode, ?_, ?_⟩
    · intro b hb
      exact (Function.update_of_ne (hb n (by omega)).symm _ _).trans (houtside b fun i hi => hb i (by omega))
    · intro i hi t ht hlt
      by_cases hlast : i = n
      · subst hlast
        refine (congrFun (Function.update_self _ _ _) t).trans ?_
        rw [hsize, if_pos ht]
        exact if_pos (by omega)
      · have hne : (w.inode k).blockIndex i ≠ (w.inode k).blockIndex n := by
          intro heq
          exact hlast (hapart i (by omega) n (by omega) heq)
        exact (congrFun (Function.update_of_ne hne _ _) t).trans (hinside i (by omega) t ht hlt)

private theorem div_lt_pieces (im : Image h) {t len : Nat} (ht : t < len) : t / im.sb.blockSize < im.pieces len := by
  have hpos := im.sb.blockSize_pos
  rw [pieces, ← Nat.succ_le_iff, ← Nat.add_one, ← Nat.add_div_right t hpos]
  exact Nat.div_le_div_right (by omega)

private theorem le_pieces (im : Image h) (len : Nat) : len ≤ im.pieces len * im.sb.blockSize := by
  have hpos := im.sb.blockSize_pos
  have hdiv := Nat.div_add_mod (len + im.sb.blockSize - 1) im.sb.blockSize
  have hmod := Nat.mod_lt (len + im.sb.blockSize - 1) hpos
  rw [Nat.mul_comm] at hdiv
  rw [pieces]
  omega

private theorem lt_pieces (im : Image h) {i len : Nat} (hi : i < im.pieces len) : i * im.sb.blockSize ≤ len := by
  have hpos := im.sb.blockSize_pos
  have hle := (Nat.le_div_iff_mul_le hpos).mp (Nat.succ_le_iff.mpr hi)
  rw [Nat.succ_mul] at hle
  omega

private theorem contents_wrote {w : Image h} {str : List UInt8} (hv : Wrote w str k (w.pieces str.length) v)
    (hsize : (w.inode k).size = str.length) : v.contents k = str := by
  rw [contents, hv.inode, hv.sb, hsize]
  apply List.ext_get
  · rw [List.length_map, List.length_range]
  · intro t ht ht'
    have hpos := w.sb.blockSize_pos
    have hdiv := Nat.div_add_mod t w.sb.blockSize
    rw [Nat.mul_comm] at hdiv
    rw [List.get_eq_getElem, List.get_eq_getElem, List.getElem_map, List.getElem_range,
      hv.inside _ (w.div_lt_pieces ht') _ (Nat.mod_lt _ hpos) (by rw [hdiv]; exact ht'), hdiv,
      List.getD_eq_getElem _ _ ht']

theorem Owned.writeFile (him : im.Owned K) (hk : k ∈ K) {str : Text} (hn : im.pieces str.bytes.length ≤ SLOTS)
    (hlen : str.bytes.length ≤ h.size.max) {fuel : Nat} {heap : Nat → UInt8} {r : Bool × Image h}
    (hrun : im.writeFile fuel str k heap = some r) :
    r.2.Owned K ∧ im.Spares K k r.2 ∧ r.2.Filled k ∧ r.2.contents k = str.bytes := by
  rw [writeFile_fits hn, Option.map_eq_some_iff] at hrun
  obtain ⟨u, hu, rfl⟩ := hrun
  obtain ⟨howned, hspares, hused⟩ := him.resized hk hu
  have hpieces : im.pieces str.bytes.length = (u.setSize k str.bytes.length).pieces str.bytes.length := by
    rw [pieces, pieces, ← hspares.blockSize]
    rfl
  have hself : (u.setSize k str.bytes.length).inode k =
      { u.inode k with size := h.size.conv str.bytes.length, size_le := h.size.conv_le _ } := Function.update_self _ _ _
  have hother (l : Nat) (hl : l ≠ k) : (u.setSize k str.bytes.length).inode l = u.inode l := Function.update_of_ne hl _ _
  have hwrote := wrote_pieces (u.setSize k str.bytes.length) str.bytes k (im.pieces str.bytes.length) heap (by
    rw [hself]
    intro i hi j hj heq
    exact (howned.apart k hk i (by omega) k hk j (by omega) heq).2)
  generalize ((List.range (im.pieces str.bytes.length)).foldl (writePiece str.bytes k)
    ⟨heap, u.setSize k str.bytes.length⟩).image = v at hwrote
  dsimp only
  have hsb : v.sb = u.sb := hwrote.sb
  have hblocks (l : Nat) : (v.inode l).blockUsed = (u.inode l).blockUsed ∧
      (v.inode l).blockIndex = (u.inode l).blockIndex := by
    rw [hwrote.inode]
    by_cases hl : l = k
    · subst hl
      rw [hself]
      exact ⟨rfl, rfl⟩
    · rw [hother l hl]
      exact ⟨rfl, rfl⟩
  have hsize : (v.inode k).size = str.bytes.length := by
    rw [hwrote.inode, hself]
    exact h.size.conv_of_le _ hlen
  have hvk : (v.inode k).blockUsed = im.pieces str.bytes.length := by rw [(hblocks k).1, hused]
  have hbs : v.sb.blockSize = im.sb.blockSize := by rw [hsb, hspares.blockSize]
  refine ⟨howned.congr hsb hblocks, hspares.trans ⟨by rw [hsb], by rw [hsb], ?_, ?_, ?_⟩, ⟨?_, ?_⟩, ?_⟩
  · intro l _ hne
    rw [hwrote.inode, hother l hne]
  · intro l hl hne i hi
    refine hwrote.outside _ fun j hj => ?_
    rw [hself]
    intro heq
    exact hne (howned.apart k hk j (by omega) l hl i hi heq).1.symm
  · rw [(hblocks k).1, freeBlocks, freeBlocks, hsb]
  · rw [hsize, hvk, hbs]
    exact im.le_pieces str.bytes.length
  · intro i hi
    rw [hsize, hbs]
    exact im.lt_pieces (hvk ▸ hi)
  · rw [hpieces] at hwrote
    apply contents_wrote hwrote
    rw [← hwrote.inode]
    exact hsize

private theorem readPiece_eq {i : Nat} (s : Reading) (hi : i * im.sb.blockSize ≤ (im.inode k).size) :
    ∃ s', im.readPiece k s i = some s' ∧ ∀ t, s'.buf t =
      if i * im.sb.blockSize ≤ t ∧ t < i * im.sb.blockSize + min ((im.inode k).size - i * im.sb.blockSize) im.sb.blockSize
      then im.disk ((im.inode k).blockIndex i) (t - i * im.sb.blockSize) else s.buf t := by
  have hcount : min (((im.inode k).size : Int) - (i * im.sb.blockSize : Nat)) im.sb.blockSize =
      (min ((im.inode k).size - i * im.sb.blockSize) im.sb.blockSize : Nat) := by
    push_cast [Nat.cast_sub hi]
    rfl
  rw [readPiece, hcount, if_neg (by omega), Int.toNat_natCast]
  refine ⟨_, rfl, fun t => ?_⟩
  by_cases ht : i * im.sb.blockSize ≤ t ∧
      t < i * im.sb.blockSize + min ((im.inode k).size - i * im.sb.blockSize) im.sb.blockSize
  · rw [if_pos ht]
    exact (if_pos ht).trans (if_pos (by omega))
  · rw [if_neg ht]
    exact if_neg ht

private theorem read_pieces (hfilled : im.Filled k) (heap buf : Nat → UInt8) (hn : n ≤ (im.inode k).blockUsed) :
    ∃ s, (List.range n).foldlM (im.readPiece k) ⟨heap, buf⟩ = some s ∧
      ∀ t, s.buf t = if t < min (n * im.sb.blockSize) (im.inode k).size then
        im.disk ((im.inode k).blockIndex (t / im.sb.blockSize)) (t % im.sb.blockSize) else buf t := by
  induction n with
  | zero => exact ⟨_, rfl, fun t => (if_neg (by simp)).symm⟩
  | succ n ih =>
    obtain ⟨s, hs, hbuf⟩ := ih (by omega)
    have hstart := hfilled.2 n (by omega)
    have hpos := im.sb.blockSize_pos
    have hmul : (n + 1) * im.sb.blockSize = n * im.sb.blockSize + im.sb.blockSize := Nat.succ_mul _ _
    obtain ⟨s', hs', hbuf'⟩ := readPiece_eq s hstart
    rw [List.range_succ, List.foldlM_append, hs]
    refine ⟨s', ?_, ?_⟩
    · change (im.readPiece k s n).bind _ = _
      rw [hs']
      rfl
    · intro t
      rw [hbuf', hbuf, hmul]
      by_cases hnew : n * im.sb.blockSize ≤ t ∧
          t < n * im.sb.blockSize + min ((im.inode k).size - n * im.sb.blockSize) im.sb.blockSize
      · have hdiv : t / im.sb.blockSize = n := Nat.div_eq_of_lt_le hnew.1 (by omega)
        have hmod : t % im.sb.blockSize = t - n * im.sb.blockSize := by
          have hsplit := Nat.div_add_mod t im.sb.blockSize
          rw [hdiv, Nat.mul_comm] at hsplit
          omega
        rw [if_pos hnew, if_pos (by omega), hdiv, hmod]
      · rw [if_neg hnew]
        exact if_congr (by omega) rfl rfl

private theorem readFile_eq (hfilled : im.Filled k) (heap buf : Nat → UInt8) : ∃ b, im.readFile k heap buf = some b ∧
    (List.range (im.inode k).size).map b = im.contents k ∧ ∀ t, (im.inode k).size ≤ t → b t = buf t := by
  obtain ⟨s, hs, hbuf⟩ := read_pieces hfilled heap buf le_rfl
  rw [Nat.min_eq_right hfilled.1] at hbuf
  refine ⟨s.buf, by rw [readFile, hs]; rfl, ?_, fun t ht => (hbuf t).trans (if_neg (not_lt.mpr ht))⟩
  rw [contents]
  exact List.map_congr_left fun t ht => (hbuf t).trans (if_pos (List.mem_range.mp ht))

end Image

namespace Image

/-- What an edit does to the contents: a text that does not fit in a file changes nothing. -/
def store (bs : Nat) (files : Nat → List UInt8) (e : Edit) : Nat → List UInt8 :=
  if e.text.bytes.length ≤ SLOTS * bs then Function.update files e.inode e.text.bytes else files

/-- The image is sound: blocks are not shared, and every file has the blocks that its bytes fill. -/
structure Sound (im : Image h) (K : Finset Nat) : Prop where
  owned : im.Owned K
  filled : ∀ k ∈ K, im.Filled k
  room : SLOTS * im.sb.blockSize ≤ h.size.max

def blocks (im : Image h) (K : Finset Nat) : Nat := im.freeBlocks + ∑ k ∈ K, (im.inode k).blockUsed

private theorem pieces_le_iff (im : Image h) (len : Nat) : im.pieces len ≤ SLOTS ↔ len ≤ SLOTS * im.sb.blockSize := by
  have hpos := im.sb.blockSize_pos
  rw [pieces, ← Nat.lt_succ_iff, Nat.div_lt_iff_lt_mul hpos, Nat.succ_mul]
  omega

theorem store_congr {bs : Nat} {f g : Nat → List UInt8} (hfg : ∀ k ∈ K, f k = g k) (e : Edit) :
    ∀ k ∈ K, store bs f e k = store bs g e k := by
  intro k hk
  rw [store, store]
  split
  · by_cases hke : k = e.inode
    · rw [hke, Function.update_self, Function.update_self]
    · rw [Function.update_of_ne hke, Function.update_of_ne hke, hfg k hk]
  · exact hfg k hk

private theorem foldl_store_congr {bs : Nat} {f g : Nat → List UInt8} (hfg : ∀ k ∈ K, f k = g k) (es : List Edit) :
    ∀ k ∈ K, es.foldl (store bs) f k = es.foldl (store bs) g k := by
  induction es generalizing f g with
  | nil => exact hfg
  | cons e es ih => exact ih (store_congr hfg e)

theorem Spares.blocks (hv : im.Spares K k v) (hk : k ∈ K) : v.blocks K = im.blocks K := by
  have hrest : ∑ l ∈ K.erase k, (v.inode l).blockUsed = ∑ l ∈ K.erase k, (im.inode l).blockUsed := by
    apply Finset.sum_congr rfl
    intro l hl
    rw [hv.inode l (Finset.mem_of_mem_erase hl) (Finset.ne_of_mem_erase hl)]
  have hfree := hv.free
  rw [Image.blocks, Image.blocks, ← Finset.add_sum_erase K _ hk, ← Finset.add_sum_erase K _ hk, hrest]
  omega

theorem Sound.edit (him : im.Sound K) {e : Edit} (he : e.inode ∈ K) {fuel : Nat} {r : Bool × Image h}
    (hrun : im.writeFile fuel e.text e.inode e.heap = some r) : r.2.Sound K ∧ r.2.sb.blockSize = im.sb.blockSize ∧
      r.2.blocks K = im.blocks K ∧ ∀ k ∈ K, r.2.contents k = store im.sb.blockSize im.contents e k := by
  by_cases hn : im.pieces e.text.bytes.length ≤ SLOTS
  · have hlen := (im.pieces_le_iff _).mp hn
    obtain ⟨howned, hspares, hfilled, hcontents⟩ := him.owned.writeFile he hn (hlen.trans him.room) hrun
    refine ⟨⟨howned, ?_, ?_⟩, hspares.blockSize, hspares.blocks he, ?_⟩
    · intro k hk
      by_cases hke : k = e.inode
      · rw [hke]
        exact hfilled
      · rw [Filled, hspares.inode k hk hke, hspares.blockSize]
        exact him.filled k hk
    · rw [hspares.blockSize]
      exact him.room
    · intro k hk
      rw [store, if_pos hlen]
      by_cases hke : k = e.inode
      · rw [hke, Function.update_self]
        exact hcontents
      · rw [Function.update_of_ne hke]
        exact hspares.contents him.filled hk hke
  · cases (writeFile_big (not_le.mp hn) fuel).symm.trans hrun
    refine ⟨him, rfl, rfl, fun k _ => ?_⟩
    rw [store, if_neg (fun hlen => hn ((im.pieces_le_iff _).mpr hlen))]

theorem Sound.edits (him : im.Sound K) {fuel : Nat} {es : List Edit} (hes : ∀ e ∈ es, e.inode ∈ K)
    (hrun : im.edits fuel es = some v) : v.Sound K ∧ v.sb.blockSize = im.sb.blockSize ∧
      v.blocks K = im.blocks K ∧ ∀ k ∈ K, v.contents k = es.foldl (store im.sb.blockSize) im.contents k := by
  induction es generalizing im with
  | nil =>
    cases hrun
    exact ⟨him, rfl, rfl, fun _ _ => rfl⟩
  | cons e es ih =>
    obtain ⟨r, hr, hrest⟩ := Option.bind_eq_some_iff.mp hrun
    obtain ⟨hsound, hbs, hblocks, hcontents⟩ := him.edit (hes e List.mem_cons_self) hr
    obtain ⟨hv, hbs', hblocks', hcontents'⟩ := ih hsound (fun x hx => hes x (List.mem_cons_of_mem e hx)) hrest
    refine ⟨hv, hbs'.trans hbs, hblocks'.trans hblocks, fun k hk => ?_⟩
    rw [hcontents' k hk, hbs, List.foldl_cons]
    exact foldl_store_congr hcontents es k hk

end Image

/-- Over any run of edits from a sound image, no two files come to share a block, no block is lost, `read_file` gives
what has been written to a file last, and the next edit comes to an end when there are blocks enough for it. -/
theorem edits_read_back (im v : Image h) (K : Finset Nat) (fuel : Nat) (es : List Image.Edit) (him : im.Sound K)
    (hes : ∀ e ∈ es, e.inode ∈ K) (hrun : im.edits fuel es = some v) :
    v.Sound K ∧ v.blocks K = im.blocks K ∧
      (∀ k ∈ K, ∀ heap buf : Nat → UInt8, ∃ b, v.readFile k heap buf = some b ∧
        (List.range (v.inode k).size).map b = es.foldl (Image.store im.sb.blockSize) im.contents k ∧
        ∀ t, (v.inode k).size ≤ t → b t = buf t) ∧
      ∀ e : Image.Edit, v.pieces e.text.bytes.length ≤ (v.inode e.inode).blockUsed + v.freeBlocks →
        ∃ fuel w, v.edits fuel [e] = some w := by
  obtain ⟨hv, -, hblocks, hcontents⟩ := him.edits hes hrun
  refine ⟨hv, hblocks, ?_, ?_⟩
  · intro k hk heap buf
    rw [← hcontents k hk]
    exact Image.readFile_eq (hv.filled k hk) heap buf
  · intro e henough
    obtain ⟨fuel, r, hr⟩ := ((v.writeFile_settles e.text e.inode e.heap).mpr (.inr henough)).1
    exact ⟨fuel, r.2, Option.bind_eq_some_iff.mpr ⟨r, hr, rfl⟩⟩

/-- `hi` is written to one of the two files of the sample. -/
theorem edits_read_back_sample : ∃ v, Image.sample.edits 1 [⟨1, ⟨[104, 105], by decide⟩, fun _ => 0⟩] = some v ∧
    ∃ b, v.readFile 1 (fun _ => 0) (fun _ => 0) = some b ∧ (List.range (v.inode 1).size).map b = [104, 105] := by
  have hsound : Image.sample.Sound {1, 2} := by
    refine ⟨⟨by decide, by decide, by decide⟩, ?_, by decide⟩
    intro k hk
    rw [Image.Filled]
    revert k
    decide
  obtain ⟨v, hv⟩ : ∃ v, Image.sample.edits 1 [⟨1, ⟨[104, 105], by decide⟩, fun _ => 0⟩] = some v := ⟨_, rfl⟩
  obtain ⟨-, -, hread, -⟩ := edits_read_back Image.sample v {1, 2} 1 _ hsound
    (by intro e he; rw [List.mem_singleton.mp he]; decide) hv
  obtain ⟨b, hb, hcontents, -⟩ := hread 1 (by decide) (fun _ => 0) (fun _ => 0)
  refine ⟨v, hv, b, hb, hcontents.trans ?_⟩
  rw [List.foldl_cons, List.foldl_nil, Image.store, if_pos (by decide)]
  rfl

end DamnOS.HostTool
