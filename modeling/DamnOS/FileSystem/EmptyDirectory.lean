import DamnOS.FileSystem.Careful

/-!
# New directories along runs

A new directory is as empty as the block that `alloc_block` hands out: nothing clears it.  Its `..` leads to
itself.
-/

namespace DamnOS.FileSystem

open DamnOS.Framework

/-- A freshly formatted image: the root directory has its blocks, and every other inode is unused.  The
root may have entries that lead to itself. -/
structure Formatted (N : Nat) (w : World) : Prop where
  sane : Sane N w
  root : w.IsDir 0 ∧ w.cached.inOcp 0 = true
  filled : w.Filled 0
  own : ∀ e ∈ w.entries 0, w.byte e ≠ 0 → w.inInd e = 0
  unused : ∀ i, i < N → i ≠ 0 → w.cached.inOcp i = false ∧ ¬w.IsDir i ∧
    (w.cached.inode i).blkUsed = 0 ∧ ∀ j, w.cached.slot i j = 0

theorem Formatted.inOrder {N : Nat} {w : World} (h : Formatted N w) : InOrder N (· = 0) w where
  sane := h.sane
  lt i hi := by
    rw [hi]
    exact h.sane.pos
  root := rfl
  rootDir := h.root.1
  used i hi := by
    rw [hi]
    exact h.root.2
  filled i j hi _ hj := by
    subst hi
    exact h.filled j hj
  named i e hi _ he hb := by
    subst hi
    exact h.own e he hb
  unused i hi ho := by
    have h0 : i ≠ 0 := by
      rintro rfl
      rw [h.root.2] at ho
      cases ho
    exact (h.unused i hi h0).2
  single i e i' _ hn _ _ hne _ := by
    have hi : i = 0 := hn.mem
    subst hi
    exact absurd (h.own e hn.entry hn.name) hne
  top i _ hn _ := hn.mem

/-- What `mkdir` needs for an empty directory: its block was blank. -/
def World.Blank (w : World) (path : List UInt8) : Prop := ∀ d name b,
  w.resolve path = .ok (.missing (inodeVa d) name) → w.homeBlock d = some b → w.LeftBlank b

private theorem mkdir_onlyDots_iff {N : Nat} {D : Nat → Prop} {w v : World} (h : TidyIn N D w) {path : List UInt8}
    (h0 : (0 : UInt8) ∉ path) {e : Nat} (hrun : fileCreate path FTYPE_DIR w = .ok e v) :
    OnlyDots v (v.inInd e) ↔ w.Blank path := by
  obtain ⟨d, name, k, t, u, s, hs⟩ := fileCreate_stages h h0 hrun
  obtain ⟨b, hb, hh⟩ := hs.housed h
  rw [hs.inInd, hh.onlyDots_iff]
  constructor
  · intro hl d' name' b' hr' hb'
    rw [hs.resolve] at hr'
    simp only [Except.ok.injEq, Walk.missing.injEq] at hr'
    obtain rfl := inodeVa_inj hr'.1
    rw [hb] at hb'
    cases hb'
    exact hl
  · intro hall
    exact hall d name b hs.resolve hb

/-- In every state that careful calls reach from a freshly formatted image, a new directory is empty
exactly when the block that it is given was blank. -/
theorem new_directory_empty_iff (N : Nat) (w v : World) (ops : List FileOp) (path : List UInt8) (e : Nat)
    (h : Formatted N w) (hcare : server.Along (FileOp.Careful N) ops w) (hlive : server.Survives ops w)
    (h0 : (0 : UInt8) ∉ path) (hrun : fileCreate path FTYPE_DIR (server.run ops w) = .ok e v) :
    OnlyDots v (v.inInd e) ↔ (server.run ops w).Blank path := by
  obtain ⟨D, hD⟩ := careful_run ⟨_, h.inOrder⟩ hcare hlive
  exact mkdir_onlyDots_iff hD.toTidyIn h0 hrun

theorem formatted_fresh : Formatted 4 (mount (freshDisk 4 1)) where
  sane := orderly_fresh.sane
  root := orderly_fresh.root
  filled j hj := orderly_fresh.filled 0 j (by decide) orderly_fresh.root.1 hj
  own e he hb := by
    have hall : ∀ e ∈ (mount (freshDisk 4 1)).entries 0, (mount (freshDisk 4 1)).byte e = 0 := by
      decide +kernel
    exact absurd (hall e he) hb
  unused i hi h0 := by
    have hall : ∀ i < 4, i ≠ 0 → (mount (freshDisk 4 1)).cached.inOcp i = false := by decide +kernel
    have ho := hall i hi h0
    exact ⟨ho, orderly_fresh.unused i hi ho⟩

def beforeB : List FileOp := [.create [47, 97] FTYPE_REG]

private theorem beforeB_careful : server.Along (FileOp.Careful 4) beforeB (mount (freshDisk 4 1)) := by
  refine ⟨⟨by decide, fun d name hr _ => ?_⟩, fun _ => trivial⟩
  have hroot : (mount (freshDisk 4 1)).resolve [47, 97] = .ok (.missing (inodeVa 0) [97]) := by
    decide +kernel
  rw [hroot] at hr
  simp only [Except.ok.injEq, Walk.missing.injEq] at hr
  obtain rfl := inodeVa_inj hr.1
  refine ⟨by decide +kernel, fun b hb => ?_⟩
  have hnone : (mount (freshDisk 4 1)).startBlock FTYPE_REG = none := if_neg (by decide)
  rw [hnone] at hb
  cases hb

theorem new_directory_empty_b : OnlyDots
    (final (fileCreate [47, 98] FTYPE_DIR) (server.run beforeB (mount (freshDisk 4 1)))) 2 := by
  have hrun : fileCreate [47, 98] FTYPE_DIR (server.run beforeB (mount (freshDisk 4 1))) =
      .ok (blockVa 2 + DIRESIZE)
        (final (fileCreate [47, 98] FTYPE_DIR) (server.run beforeB (mount (freshDisk 4 1)))) :=
    eq_ok_of_value (by decide +kernel)
  have hroot : (server.run beforeB (mount (freshDisk 4 1))).resolve [47, 98] =
      .ok (.missing (inodeVa 0) [98]) := by decide +kernel
  have hhome : (server.run beforeB (mount (freshDisk 4 1))).homeBlock 0 = some 3 := by decide +kernel
  have hempty : ∀ s < BLKFILES,
      (server.run beforeB (mount (freshDisk 4 1))).entryName (blockVa 3 + DIRESIZE * s) = [] := by
    decide +kernel
  have hiff := new_directory_empty_iff 4 _ _ beforeB [47, 98] _ formatted_fresh beforeB_careful
    ⟨by decide +kernel, trivial⟩ (by decide) hrun
  have hinode : (final (fileCreate [47, 98] FTYPE_DIR) (server.run beforeB (mount (freshDisk 4 1)))).inInd
      (blockVa 2 + DIRESIZE) = 2 := by decide +kernel
  rw [hinode] at hiff
  refine hiff.mpr fun d name b hr hb => ?_
  rw [hroot] at hr
  simp only [Except.ok.injEq, Walk.missing.injEq] at hr
  obtain rfl := inodeVa_inj hr.1
  rw [hhome] at hb
  cases hb
  intro s _ hs
  rw [hempty s hs]
  exact Or.inl (by decide)

/-- `/d` is created with the file `x` in it, and removed. -/
def leftover : List FileOp :=
  [.create [47, 100] FTYPE_DIR, .create [47, 100, 47, 120] FTYPE_REG, .remove [47, 100]]

/-- The new directory `/e` shows the file of the directory that was removed. -/
theorem new_directory_not_empty : ¬∀ (N : Nat) (w v : World) (ops : List FileOp) (path : List UInt8) (e : Nat),
    Formatted N w → (∀ op ∈ ops, op.Fits) → server.Survives ops w → (0 : UInt8) ∉ path →
      fileCreate path FTYPE_DIR (server.run ops w) = .ok e v → OnlyDots v (v.inInd e) := by
  intro hall
  have hrun : fileCreate [47, 101] FTYPE_DIR (server.run leftover (mount (freshDisk 4 1))) =
      .ok (blockVa 2) (final (fileCreate [47, 101] FTYPE_DIR) (server.run leftover (mount (freshDisk 4 1)))) :=
    eq_ok_of_value (by decide +kernel)
  have hdots := hall 4 _ _ leftover [47, 101] (blockVa 2) formatted_fresh (by decide)
    ⟨by decide +kernel, by decide +kernel, by decide +kernel, trivial⟩ (by decide) hrun
  have hinode : (final (fileCreate [47, 101] FTYPE_DIR) (server.run leftover (mount (freshDisk 4 1)))).inInd
      (blockVa 2) = 3 := by decide +kernel
  have hlook : dirLookup (inodeVa 3) [120]
      (final (fileCreate [47, 101] FTYPE_DIR) (server.run leftover (mount (freshDisk 4 1)))) =
        .ok (some (blockVa 3 + 2 * DIRESIZE)) _ := eq_ok_of_value (by decide +kernel)
  have hx := hdots [120] ⟨by decide, by decide⟩ (by decide)
  rw [hinode, if_neg (by decide), reply_ok hlook] at hx
  cases hx

/-- Along careful runs, the parent link of a new directory leads to the directory itself, and so to no inode
that was a directory before, its parent included. -/
theorem parent_not_linked (N : Nat) (w v : World) (ops : List FileOp) (P n : List UInt8) (d e : Nat)
    (h : Formatted N w) (hcare : server.Along (FileOp.Careful N) ops w) (hlive : server.Survives ops w)
    (h0 : (0 : UInt8) ∉ P ++ slash :: n) (hdir : (server.run ops w).IsDir d)
    (hrun : fileCreate (P ++ slash :: n) FTYPE_DIR (server.run ops w) = .ok e v) :
    v.LeadsTo (P ++ slash :: n ++ slash :: [46]) (v.inInd e) ∧
      v.LeadsTo (P ++ slash :: n ++ slash :: [46, 46]) (v.inInd e) ∧
      ¬Linked v (P ++ slash :: n) d e := by
  obtain ⟨D, hD⟩ := careful_run ⟨_, h.inOrder⟩ hcare hlive
  have hparent := dot_leads hD.toTidyIn h0 hrun (Or.inr rfl)
  refine ⟨dot_leads hD.toTidyIn h0 hrun (Or.inl rfl), hparent, fun hl => ?_⟩
  exact dot_new hD.toTidyIn h0 hrun hdir (hparent.unique hl.parent)

private theorem freshMkdir : fileCreate [47, 47, 97] FTYPE_DIR (server.run [] (mount (freshDisk 4 1))) =
    .ok (blockVa 2) (final (fileCreate [47, 47, 97] FTYPE_DIR) (mount (freshDisk 4 1))) :=
  eq_ok_of_value (by decide +kernel)

theorem parent_not_linked_fresh :
    ¬Linked (final (fileCreate [47, 47, 97] FTYPE_DIR) (mount (freshDisk 4 1))) [47, 47, 97] 0 (blockVa 2) :=
  (parent_not_linked 4 _ _ [] [47] [97] 0 (blockVa 2) formatted_fresh trivial trivial (by decide)
    orderly_fresh.root.1 freshMkdir).2.2

/-- `mkdir /a` on a fresh disk: `/a/..` is `/a`, not the root. -/
theorem parent_link_fails : ¬∀ (N : Nat) (w v : World) (ops : List FileOp) (P n : List UInt8) (d e : Nat),
    Formatted N w → (∀ op ∈ ops, op.Fits) → server.Survives ops w → (0 : UInt8) ∉ P ++ slash :: n →
      (server.run ops w).LeadsTo P d → (server.run ops w).IsDir d →
      fileCreate (P ++ slash :: n) FTYPE_DIR (server.run ops w) = .ok e v → Linked v (P ++ slash :: n) d e := by
  intro hall
  have hroot : (mount (freshDisk 4 1)).LeadsTo [47] 0 := by
    refine ⟨0, ?_, rfl⟩
    exact (reply_fileOpen_eq_ok orderly_fresh.tidy.walkable (by decide)).mpr ⟨0, by decide +kernel⟩
  have hl := hall 4 _ _ [] [47] [97] 0 (blockVa 2) formatted_fresh (by simp) trivial (by decide) hroot
    orderly_fresh.root.1 freshMkdir
  have hparent := dot_leads orderly_fresh.tidy.within (by decide) freshMkdir (Or.inr rfl)
  exact dot_new orderly_fresh.tidy.within (by decide) freshMkdir orderly_fresh.root.1 (hparent.unique hl.parent)

end DamnOS.FileSystem
