import DamnOS.FileSystem.Coherence

/-!
# Syncing the disk

Every call leaves the super block clean as long as the data accesses stay inside the blocks of the
accessed files.  After `fs_sync` no mapped block differs from its copy on the disk.
-/

namespace DamnOS.FileSystem

open DamnOS.Framework

namespace Durable

theorem spec_attempt {α : Type} {m : M α} {P : World → Prop} {Q : α → World → Prop}
    (h : Spec durability P m Q) : Spec durability P (attempt m) (fun _ _ => True) := by
  intro w hw hp
  rw [final_attempt]
  exact (h w hw hp).imp_right fun hm => ⟨hm.1, fun _ _ _ => trivial⟩

private theorem spec_fileFreeBlock (f j : Nat) :
    Spec durability (fun _ => True) (fileFreeBlock f j) (fun _ _ => True) := by
  refine spec_inodeOf_bind fun k => ?_
  unfold fileBlockWalk
  split_ifs
  · exact Durable.spec (m := do
      let b ← load16 (inodeVa k + offBlkInd + 2 * j)
      if b = 0 then pure () else do
        freeBlock b
        store16 (inodeVa k + offBlkInd + 2 * j) 0)
  · exact Spec.stop _

private theorem spec_fileTruncateBlocks (f : Nat) (newsize : Int) :
    Spec durability (fun _ => True) (fileTruncateBlocks f newsize) (fun _ _ => True) := by
  refine spec_inodeOf_bind fun k => Durable.spec.bind fun size => Spec.forM _ _ fun j _ => ?_
  exact (spec_attempt (spec_fileFreeBlock f j)).bind fun _ => Spec.ret _ fun _ _ _ => trivial

theorem spec_fileSetSize {P : World → Prop} (f : Nat) (newsize : Int) :
    Spec durability P (fileSetSize f newsize) (fun _ _ => True) := by
  refine spec_inodeOf_bind fun k => Durable.spec.bind fun size => ?_
  have hcut : Spec durability (fun _ => True)
      (onlyIf (newsize < (size : Int)) (fileTruncateBlocks f newsize)) (fun _ _ => True) :=
    Spec.ite (fun _ => spec_fileTruncateBlocks f newsize) fun _ => Spec.ret _ fun _ _ _ => trivial
  exact hcut.bind fun _ => Durable.spec

theorem spec_walkLoop (fuel : Nat) (path : List UInt8) (i dir entry : Nat) :
    Spec durability (fun _ => True) (walkLoop fuel path (inodeVa i) dir entry)
      (fun r _ => ∀ d name, r = .missing d name → ∃ k, d = inodeVa k) := by
  induction fuel generalizing path i dir entry with
  | zero => exact Spec.stop _
  | succ fuel ih =>
    unfold walkLoop
    refine Spec.ite (fun _ => Spec.ret _ fun _ _ _ d name he => by cases he) fun _ =>
      Spec.ite (fun _ => Spec.stop _) fun _ =>
        Durable.spec.seq (fun _ => ?_) fun _ => Spec.ite (fun _ => Spec.stop _) fun _ => ?_
    · split
      · infer_instance
      · refine Keeps.andThen fun found => ?_
        split <;> infer_instance
    refine Durable.spec.seq (fun found => ?_) fun found => ?_
    · split <;> infer_instance
    cases found with
    | none =>
      refine Spec.ite (fun _ => Spec.ret _ fun _ _ _ d name he => ?_) fun _ => Spec.stop _
      cases he
      exact ⟨i, rfl⟩
    | some e => exact spec_inodeOf_bind fun k => ih _ k _ _

theorem spec_walkPath (path : List UInt8) : Spec durability (fun _ => True) (walkPath path)
    (fun r _ => ∀ d name, r = .missing d name → ∃ k, d = inodeVa k) :=
  Spec.ite (fun _ => spec_walkLoop _ _ 0 0 0) fun _ => Spec.stop _

theorem spec_fileOpen (path : List UInt8) :
    Spec durability (fun _ => True) (fileOpen path) (fun _ _ => True) := by
  refine Spec.seq (fun r => by cases r <;> infer_instance) (spec_walkPath path) fun r => ?_
  cases r with
  | found dir entry => exact Spec.ret _ fun _ _ _ => trivial
  | missing dir name => exact Spec.stop _

theorem spec_recordEntry (dir a n : Nat) : Spec durability (fun _ => True) (recordEntry dir a n)
    (fun _ w => ∃ slots, .entry slots a n ∈ w.accesses) :=
  Spec.change fun w _ _ => Or.inr ⟨fun h => ⟨h.coherent, h.mapped, h.super_clean⟩,
    w.slotsOf dir, List.mem_cons_self⟩

theorem spec_initDir (k : Nat) :
    Spec durability (fun _ => True) (initDir k) (fun _ _ => True) := by
  refine Spec.seq (fun r => by cases r <;> infer_instance)
    (spec_attempt Durable.spec) fun r => ?_
  cases r with
  | error e => exact Durable.spec.bind fun _ => Spec.stop _
  | ok blk =>
    refine (spec_recordEntry _ _ _).bind fun _ => Spec.unpack fun slots => ?_
    refine (spec_store _ le_rfl).bind fun _ => (spec_store _ (by omega)).bind fun _ =>
      (spec_store _ (by omega)).bind fun _ => (spec_store _ (by omega)).bind fun _ => ?_
    exact Durable.spec

set_option synthInstance.maxSize 512 in
theorem spec_fileCreate (path : List UInt8) (type : Nat) :
    Spec durability (fun _ => True) (fileCreate path type) (fun _ _ => True) := by
  refine Spec.seq (fun r => ?_) (spec_walkPath path) fun r => Spec.given fun hr => ?_
  · cases r <;> (dsimp only; infer_instance)
  cases r with
  | found dir entry => exact Spec.stop _
  | missing dir name =>
    obtain ⟨i, rfl⟩ := hr dir name rfl
    refine Spec.ite (fun _ => Spec.stop _) fun _ => Durable.spec.bind fun e =>
      Durable.spec.bind fun k => ?_
    have hinit : Spec durability (fun _ => True) (onlyIf (type = FTYPE_DIR) (initDir k))
        (fun _ _ => True) :=
      Spec.ite (fun _ => spec_initDir k) fun _ => Spec.ret _ fun _ _ _ => trivial
    refine hinit.bind fun _ => (spec_recordEntry _ _ _).bind fun _ => Spec.unpack fun slots => ?_
    refine (spec_store _ le_rfl).bind fun _ => (spec_store _ (by omega)).bind fun _ => ?_
    exact Durable.spec.bind fun _ => Durable.spec.bind fun _ => Spec.ret _ fun _ _ _ => trivial

set_option synthInstance.maxSize 512 in
theorem spec_fileRemove (path : List UInt8) :
    Spec durability (fun _ => True) (fileRemove path) (fun _ _ => True) := by
  refine Spec.seq (fun r => ?_) (spec_walkPath path) fun r => Spec.given fun _ => ?_
  · cases r <;> (dsimp only; infer_instance)
  cases r with
  | missing dir name => exact Spec.stop _
  | found dir f =>
    refine Spec.look.bind fun before => (spec_fileSetSize f 0).bind fun _ => ?_
    have hrec : Spec durability (fun _ => True)
        (modify fun w => w.log (.entry (before.slotsOf dir) f 1) : M Unit)
        (fun _ w => .entry (before.slotsOf dir) f 1 ∈ w.accesses) :=
      Spec.change fun w _ _ => Or.inr ⟨fun h => ⟨h.coherent, h.mapped, h.super_clean⟩,
        List.mem_cons_self⟩
    refine hrec.bind fun _ => (spec_store _ le_rfl).bind fun _ => spec_inodeOf_bind fun k => ?_
    exact Durable.spec

private theorem durable_memmove {dst n : Nat} (src : Nat) (h : dst + n ≤ DISKMAP ∨ blockVa 1 ≤ dst) :
    Keeps StaysDurable (memmove dst src n) :=
  Keeps.andThen fun _ => Keeps.andThen fun _ => Keeps.change fun _ hw => hw.write _ h

theorem spec_memmove {x : Access} {dst n : Nat} (src : Nat)
    (hx : x.Inside → dst + n ≤ DISKMAP ∨ blockVa 1 ≤ dst) :
    Spec durability (fun w => x ∈ w.accesses) (memmove dst src n) (fun _ _ => True) := by
  intro w hw hmem
  by_cases hin : x.Inside
  · exact Or.inr ⟨(durable_memmove src (hx hin)).final w, fun _ _ _ => trivial⟩
  · exact Or.inl ⟨x, ((keeps_memmove dst src n).final w).accesses.subset hmem, hin⟩

theorem spec_readLoop (k stop fuel : Nat) (pos : Int) (buf : Nat) :
    Spec durability (fun _ => True) (readLoop (inodeVa k) stop fuel pos buf) (fun _ _ => True) := by
  induction fuel generalizing pos buf with
  | zero => exact Spec.ret _ fun _ _ _ => trivial
  | succ fuel ih =>
    unfold readLoop
    refine Spec.ite (fun _ => Durable.spec.bind fun blk => ?_) fun _ => Spec.ret _ fun _ _ _ => trivial
    have hlog : Spec durability (fun _ => True) (modify fun w => w.log
        (.read (w.slotsOf (inodeVa k)) (inBlock blk pos) buf (chunk pos stop)) : M Unit)
        (fun _ w => ∃ slots, .read slots (inBlock blk pos) buf (chunk pos stop) ∈ w.accesses) :=
      Spec.change fun w _ _ => Or.inr ⟨fun h => ⟨h.coherent, h.mapped, h.super_clean⟩,
        w.slotsOf _, List.mem_cons_self⟩
    refine hlog.bind fun _ => Spec.unpack fun slots => ?_
    exact (spec_memmove (x := .read slots _ _ _) _
      fun hx => hx.2.imp_right (le_trans (by decide))).bind fun _ => ih _ _

theorem spec_writeLoop (k stop fuel : Nat) (pos : Int) (buf : Nat) :
    Spec durability (fun _ => True) (writeLoop (inodeVa k) stop fuel pos buf) (fun _ _ => True) := by
  induction fuel generalizing pos buf with
  | zero => exact Spec.ret _ fun _ _ _ => trivial
  | succ fuel ih =>
    unfold writeLoop
    refine Spec.ite (fun _ => Durable.spec.bind fun blk => ?_) fun _ => Spec.ret _ fun _ _ _ => trivial
    have hlog : Spec durability (fun _ => True) (modify fun w => w.log
        (.write (w.slotsOf (inodeVa k)) (inBlock blk pos) buf (chunk pos stop)) : M Unit)
        (fun _ w => ∃ slots, .write slots (inBlock blk pos) buf (chunk pos stop) ∈ w.accesses) :=
      Spec.change fun w _ _ => Or.inr ⟨fun h => ⟨h.coherent, h.mapped, h.super_clean⟩,
        w.slotsOf _, List.mem_cons_self⟩
    refine hlog.bind fun _ => Spec.unpack fun slots => ?_
    exact (spec_memmove (x := .write slots _ _ _) _
      fun hx => Or.inr (InOwn.behind hx)).bind fun _ => ih _ _

theorem spec_fileRead (f buf count : Nat) (offset : Int) :
    Spec durability (fun _ => True) (fileRead f buf count offset) (fun _ _ => True) := by
  refine spec_inodeOf_bind fun k => Durable.spec.bind fun size =>
    Spec.ite (fun _ => Spec.ret _ fun _ _ _ => trivial) fun _ => ?_
  exact (spec_readLoop _ _ _ _ _).bind fun _ => Spec.ret _ fun _ _ _ => trivial

theorem spec_fileWrite (f buf count : Nat) (offset : Int) :
    Spec durability (fun _ => True) (fileWrite f buf count offset) (fun _ _ => True) := by
  refine spec_inodeOf_bind fun k => Durable.spec.bind fun size => ?_
  have hext : Spec durability (fun _ => True) (onlyIf (size < toU32 (offset + count))
      (fileSetSize f (toS32 (toU32 (offset + count))))) (fun _ _ => True) :=
    Spec.ite (fun _ => spec_fileSetSize f _) fun _ => Spec.ret _ fun _ _ _ => trivial
  exact hext.bind fun _ => (spec_writeLoop _ _ _ _ _).bind fun _ =>
    Durable.spec.bind fun _ => Spec.ret _ fun _ _ _ => trivial

end Durable

def FileOp.OwnMemory : FileOp → Prop
  | .caller buf bytes => Apart buf bytes.length
  | _ => True

theorem Durable.spec_exec (op : FileOp) (hown : op.OwnMemory) :
    Spec durability (fun _ => True) op.exec (fun _ _ => True) := by
  have hdrop {α : Type} {m : M α} (h : Spec durability (fun _ => True) m fun _ _ => True) :
      Spec durability (fun _ => True) (do let _ ← m; pure ()) (fun _ _ => True) :=
    h.bind fun _ => Spec.ret _ fun _ _ _ => trivial
  cases op with
  | create path type => exact hdrop (spec_fileCreate path type)
  | remove path => exact spec_fileRemove path
  | «open» path => exact hdrop (spec_fileOpen path)
  | read f buf count offset => exact hdrop (spec_fileRead f buf count offset)
  | write f buf count offset => exact hdrop (spec_fileWrite f buf count offset)
  | setSize f newsize => exact spec_fileSetSize f newsize
  | flush f => exact Durable.spec (m := fileFlush f)
  | sync => exact Durable.spec (m := fsSync)
  | caller buf bytes =>
    exact Spec.change fun w hw _ => Or.inr ⟨fun _ => hw.fill _ hown, trivial⟩

private theorem durable_run {ops : List FileOp} {w : World} (hw : Durable w)
    (hown : ∀ op ∈ ops, op.OwnMemory) (hin : ∀ x ∈ (server.run ops w).accesses, x.Inside) :
    Durable (server.run ops w) := by
  have hstep : ∀ op v, durability.Lost v ∨ Durable v → op.OwnMemory →
      durability.Lost (server.step op v) ∨ Durable (server.step op v) := by
    rintro op v (hl | hi) hop
    · exact Or.inl (durability.lost_grows ((FileOp.keeps_exec op).final v) hl)
    · exact (Durable.spec_exec op hop v hi trivial).imp_right fun hm => hm.1 hi
  rcases Machine.run_invariant hstep (Or.inr hw) (Machine.Along.of_forall
    (C := fun op _ => op.OwnMemory) (fun op hop _ => hown op hop) w) with ⟨x, hx, hn⟩ | hi
  · exact absurd (hin x hx) hn
  · exact hi

/-- Write back the pages of the listed blocks. -/
def World.flushAll (w : World) (l : List Nat) : World :=
  l.foldl (fun w i => w.flush (superPg + i)) w

private theorem syncRound_run {w : World} {i : Nat} (hi : i < w.blkNum) :
    (do
      let a ← diskaddr i
      flushBlock a : M Unit) w = .ok () (w.flush (superPg + i)) := by
  have hlt : w.blkNum < 65536 := u16_lt _ _
  have hd : diskaddr i w = .ok (blockVa i) w := by
    rw [diskaddr, bind_ok (get_run w), if_neg (by omega)]
    rfl
  have hpg : blockVa i / PGSIZE = superPg + i := by
    simp only [blockVa, DISKMAP, BLKSIZE, PGSIZE, superPg]
    omega
  have hin : ¬(blockVa i < DISKMAP ∨ DISKMAP + DISKSIZE ≤ blockVa i) := by
    simp only [blockVa, DISKMAP, BLKSIZE, DISKSIZE]
    omega
  rw [bind_ok hd, flushBlock, if_neg hin, modify_run, hpg]

private theorem syncLoop_run (l : List Nat) (w : World) (hl : ∀ i ∈ l, i < w.blkNum) :
    (l.forM fun i => do
      let a ← diskaddr i
      flushBlock a : M Unit) w = .ok () (w.flushAll l) := by
  induction l generalizing w with
  | nil => rfl
  | cons i l ih =>
    have hnum : (w.flush (superPg + i)).blkNum = w.blkNum := by
      rw [blkNum_cached, blkNum_cached, cached_flush w (Nat.le_add_right _ _)]
    refine (bind_ok (syncRound_run (hl i (by simp)))).trans (ih _ fun j hj => ?_)
    rw [hnum]
    exact hl j (by simp [hj])

private theorem fsSync_run (w : World) :
    fsSync w = .ok () (w.flushAll (List.range' 1 (w.blkNum - 1))) := by
  rw [fsSync, bind_ok (get_run w)]
  refine syncLoop_run _ w fun i hi => ?_
  rw [List.mem_range'_1] at hi
  omega

@[simp] theorem present_flushAll (w : World) (l : List Nat) :
    (w.flushAll l).present = w.present := by
  induction l generalizing w with
  | nil => rfl
  | cons i l ih =>
    change ((w.flush (superPg + i)).flushAll l).present = _
    rw [ih, present_flush]

private theorem dirty_flushAll_le (w : World) (l : List Nat) {q : Nat} (h : w.dirty q = false) :
    (w.flushAll l).dirty q = false := by
  induction l generalizing w with
  | nil => exact h
  | cons i l ih => exact ih _ (dirty_flush_le w _ h)

private theorem dirty_flushAll (w : World) (l : List Nat) {i : Nat} (hi : i ∈ l)
    (hp : w.present (superPg + i) = true) : (w.flushAll l).dirty (superPg + i) = false := by
  induction l generalizing w with
  | nil => cases hi
  | cons j l ih =>
    rcases List.mem_cons.mp hi with rfl | hi
    · exact dirty_flushAll_le _ l (dirty_flush_self w (Or.inl hp))
    · exact ih _ hi (by rwa [present_flush])

/-- After any run that keeps to its files' blocks the super block is clean, and `fs_sync` returns
with every mapped block equal to its copy on the disk. -/
theorem fsSync_complete (w : World) (ops : List FileOp) (hw : Durable w)
    (hown : ∀ op ∈ ops, op.OwnMemory) (hin : ∀ x ∈ (server.run ops w).accesses, x.Inside) :
    (server.run ops w).dirty superPg = false ∧
      ∃ u, fsSync (server.run ops w) = .ok () u ∧ ∀ b < u.blkNum, u.present (superPg + b) = true →
        ∀ o < BLKSIZE, u.disk b o = u.block b o := by
  have hrun := durable_run hw hown hin
  have hr := fsSync_run (server.run ops w)
  generalize hl : List.range' 1 ((server.run ops w).blkNum - 1) = l at hr
  refine ⟨hrun.super_clean, _, hr, fun b hb hp o ho => ?_⟩
  have hsync : Durable ((server.run ops w).flushAll l) := by
    have h := durable_fsSync.final _ hrun
    rwa [final_ok hr] at h
  have hnum : ((server.run ops w).flushAll l).blkNum = (server.run ops w).blkNum := by
    have hq := quiet_fsSync.final (server.run ops w)
    rw [final_ok hr] at hq
    exact hq.cell _
  have hlt : b < 65536 := lt_trans hb (u16_lt _ _)
  have hclean : ((server.run ops w).flushAll l).dirty (superPg + b) = false := by
    rcases Nat.eq_zero_or_pos b with rfl | hpos
    · exact hsync.super_clean
    · refine dirty_flushAll _ l ?_ (by rwa [present_flushAll] at hp)
      rw [← hl, List.mem_range'_1]
      omega
  have hcoh := hsync.coherent (superPg + b) (Nat.le_add_right _ _)
    (by simp only [superPg, endPg]; omega) hp hclean o ho
  have hva : (superPg + b) * PGSIZE + o = blockVa b + o := by
    simp only [superPg, PGSIZE, blockVa, DISKMAP, BLKSIZE]
    omega
  have hpg : (blockVa b + o) / PGSIZE = superPg + b := by
    simp only [superPg, PGSIZE, blockVa, DISKMAP, BLKSIZE] at *
    omega
  rw [hva, Nat.add_sub_cancel_left] at hcoh
  rw [World.block, byte_mapped (by rw [hpg]; exact Or.inl hp), hcoh]

theorem durable_mount (disk : Nat → Nat → UInt8) : Durable (mount disk) := by
  refine ⟨fun p hlo _ hp _ o ho => ?_, rfl, rfl⟩
  have hpg : (p * PGSIZE + o) / PGSIZE = p := by
    simp only [PGSIZE, BLKSIZE] at *
    omega
  have hmod : (p * PGSIZE + o) % PGSIZE = o := by
    simp only [PGSIZE, BLKSIZE] at *
    omega
  have hin : superPg ≤ p ∧ p ≤ inodePg := by
    simp only [mount, Bool.or_eq_true, beq_iff_eq] at hp
    simp only [superPg, inodePg] at *
    omega
  simp only [mount, hpg, hmod, if_pos hin]

theorem fsSync_complete_createAndWrite :
    ∃ u, fsSync (server.run createAndWrite (mount (freshDisk 4 1))) = .ok () u ∧
      ∀ b < u.blkNum, u.present (superPg + b) = true → ∀ o < BLKSIZE, u.disk b o = u.block b o :=
  (fsSync_complete _ createAndWrite (durable_mount _)
    (by simp [createAndWrite, FileOp.OwnMemory, Apart, DISKMAP]) (by decide +kernel)).2

end DamnOS.FileSystem
