import DamnOS.HostTool.Unlink

/-!
# Removing a file

`remove_file` clears the marks of as many blocks as the file has, and these are the first blocks of the image.
-/

namespace DamnOS.HostTool

open DamnOS.Framework

variable {h : Header} {im u v : Image h} {k ind b fuel : Nat} {name : List UInt8} {heap : Nat → UInt8}

namespace Image

/-- Block `b` is one of the first `block_used` blocks of inode `k`. -/
def Lists (im : Image h) (k b : Nat) : Prop := ∃ i < (im.inode k).blockUsed, (im.inode k).blockIndex i = b

/-- Inode `k` is that of a file or a directory. -/
def InUse (im : Image h) (k : Nat) : Prop := im.sb.inodeAvai k ≠ 0

/-- Block `b` was marked in `im`, and its mark is cleared in `v`. -/
def Cleared (im v : Image h) (b : Nat) : Prop := im.sb.blockAvai b ≠ 0 ∧ v.sb.blockAvai b = 0

private theorem blockAvai_clear (u : Image h) (n b : Nat) :
    ((List.range n).foldl (fun v i => v.setAvai i 0) u).sb.blockAvai b = if b < n then 0 else u.sb.blockAvai b := by
  induction n with
  | zero => rfl
  | succ n ih =>
    rw [List.range_succ, List.foldl_append]
    change Function.update _ n 0 b = _
    rw [Function.update_apply, ih]
    rcases Nat.lt_trichotomy b n with hlt | heq | hgt
    · rw [if_neg hlt.ne, if_pos hlt, if_pos (hlt.trans (Nat.lt_succ_self n))]
    · rw [if_pos heq, if_pos (heq ▸ Nat.lt_succ_self n)]
    · rw [if_neg hgt.ne', if_neg (by omega), if_neg (by omega)]

private theorem inode_clear (u : Image h) (n : Nat) :
    ((List.range n).foldl (fun v i => v.setAvai i 0) u).inode = u.inode := by
  induction n with
  | zero => rfl
  | succ n ih =>
    rw [List.range_succ, List.foldl_append]
    exact ih

/-- The image after the removal of the file `ind`, from the one after the removal of its entry. -/
def removed (u : Image h) (ind : Nat) : Image h :=
  let v := (List.range (u.inode ind).blockUsed).foldl (fun v i => v.setAvai i 0) u
  { v with sb := { v.sb with inodeAvai := Function.update v.sb.inodeAvai ind 0 } }

private theorem removeFile_run (hrun : im.unlinkViaName fuel k name heap = some (some ind, u)) :
    im.removeFile fuel k name heap = some (true, u.removed ind) := by
  rw [removeFile, hrun]
  rfl

private theorem blockAvai_removed (u : Image h) (ind b : Nat) : (u.removed ind).sb.blockAvai b =
    if b < (u.inode ind).blockUsed then 0 else u.sb.blockAvai b := blockAvai_clear u _ b

private theorem inode_removed (u : Image h) (ind : Nat) : (u.removed ind).inode = u.inode := inode_clear u _

private theorem unlinked_keeps (hrun : im.unlinkViaName fuel k name heap = some (some ind, u))
    (hkeep : (u.inode k).blockUsed = (im.inode k).blockUsed) :
    u.sb = im.sb ∧ ∀ l, (u.inode l).blockUsed = (im.inode l).blockUsed := by
  obtain ⟨j, hused, -, -, rfl⟩ := unlinkViaName_found hrun
  have hpos : im.lastPos k ≠ 1 := by
    intro hone
    rw [(inode_unlinked im k j heap).2.1, if_pos hone] at hkeep
    omega
  refine ⟨?_, ?_⟩
  · rw [unlinked]
    simp only [if_neg hpos]
    rfl
  · intro l
    by_cases hl : l = k
    · rw [hl]
      exact hkeep
    · rw [unlinked, setSize, setInode]
      simp only [if_neg hpos, Function.update_of_ne hl]
      rfl

end Image

/-- The marks that are cleared are those of the file's blocks exactly when these are the marked ones among the first
blocks of the image. -/
theorem remove_clears_iff (hunlink : im.unlinkViaName fuel k name heap = some (some ind, u))
    (hremove : im.removeFile fuel k name heap = some (true, v))
    (hkeep : (v.inode k).blockUsed = (im.inode k).blockUsed)
    (hown : ∀ b, im.sb.blockAvai b ≠ 0 → ∀ l l', l = ind ∨ im.InUse l → l' = ind ∨ im.InUse l' →
      im.Lists l b → im.Lists l' b → l = l') :
    ((∀ b, im.Cleared v b ↔ im.Lists ind b) ∧
        ∀ l, l ≠ ind → im.InUse l → ∀ b, im.Lists l b → ¬im.Cleared v b) ↔
      ∀ b, im.Lists ind b ↔ b < (im.inode ind).blockUsed ∧ im.sb.blockAvai b ≠ 0 := by
  cases (Image.removeFile_run hunlink).symm.trans hremove
  rw [Image.inode_removed] at hkeep
  obtain ⟨hsb, hused⟩ := Image.unlinked_keeps hunlink hkeep
  have hcleared : ∀ b, im.Cleared (u.removed ind) b ↔ b < (im.inode ind).blockUsed ∧ im.sb.blockAvai b ≠ 0 := by
    intro b
    rw [Image.Cleared, Image.blockAvai_removed, hused, hsb]
    constructor
    · rintro ⟨hmark, hclear⟩
      refine ⟨?_, hmark⟩
      by_contra hb
      rw [if_neg hb] at hclear
      exact hmark hclear
    · rintro ⟨hb, hmark⟩
      exact ⟨hmark, if_pos hb⟩
  constructor
  · rintro ⟨hlists, -⟩ b
    rw [← hlists b, hcleared b]
  · intro hcond
    have hlists : ∀ b, im.Cleared (u.removed ind) b ↔ im.Lists ind b := by
      intro b
      rw [hcleared b, hcond b]
    refine ⟨hlists, ?_⟩
    intro l hl huse b hother hclear
    exact hl (hown b hclear.1 l ind (.inr huse) (.inl rfl) hother ((hlists b).mp hclear))

theorem remove_clears_sample :
    ((∀ b, Image.sample.Cleared ((Image.sample.unlinked 0 0 fun _ => 0).removed 1) b ↔ Image.sample.Lists 1 b) ∧
      ∀ l, l ≠ 1 → Image.sample.InUse l → ∀ b, Image.sample.Lists l b →
        ¬Image.sample.Cleared ((Image.sample.unlinked 0 0 fun _ => 0).removed 1) b) ↔
      ∀ b, Image.sample.Lists 1 b ↔ b < (Image.sample.inode 1).blockUsed ∧ Image.sample.sb.blockAvai b ≠ 0 := by
  have hown : ∀ b, Image.sample.sb.blockAvai b ≠ 0 → ∀ l l', l = 1 ∨ Image.sample.InUse l →
      l' = 1 ∨ Image.sample.InUse l' → Image.sample.Lists l b → Image.sample.Lists l' b → l = l' := by
    intro b _ l l' _ _ hl hl'
    obtain ⟨i, hi, rfl⟩ := hl
    obtain ⟨i', hi', heq⟩ := hl'
    simp only [Image.sample] at hi hi' heq
    split_ifs at hi hi' heq <;> omega
  exact remove_clears_iff unlink_sample (Image.removeFile_run unlink_sample) (by decide +kernel) hown

/-- The removal of `a` clears the mark of block 0, where the directory is, and not that of block 5. -/
theorem remove_clears_directory : ∃ v, Image.sample.removeFile 1 0 [97] (fun _ => 0) = some (true, v) ∧
    (v.inode 0).blockUsed = (Image.sample.inode 0).blockUsed ∧
    Image.sample.Lists 0 0 ∧ Image.sample.Cleared v 0 ∧ Image.sample.Lists 1 5 ∧ ¬Image.sample.Cleared v 5 := by
  refine ⟨_, Image.removeFile_run unlink_sample, by decide +kernel, ⟨0, by decide, rfl⟩, ?_, ⟨0, by decide, rfl⟩, ?_⟩
  · rw [Image.Cleared]
    decide +kernel
  · rw [Image.Cleared]
    decide +kernel

end DamnOS.HostTool
