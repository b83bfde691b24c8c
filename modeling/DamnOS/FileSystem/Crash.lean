import DamnOS.FileSystem.Sync

/-!
# Crashes between block writes

The disk after a crash is the initial one with some prefix of the block writes replayed.  A block
is marked on the disk before any inode refers to it there; only freeing goes the other way round,
so the bitmap on the disk covers the inode table as long as nothing is freed.
-/

namespace DamnOS.FileSystem

open DamnOS.Framework

/-- The disk after the listed block writes, latest first. -/
def replay (d : Nat → Nat → UInt8) (ws : List (Nat × (Nat → UInt8))) : Nat → Nat → UInt8 :=
  ws.foldr (fun x d => Function.update d x.1 x.2) d

private theorem replay_cons (d : Nat → Nat → UInt8) (x : Nat × (Nat → UInt8))
    (ws : List (Nat × (Nat → UInt8))) :
    replay d (x :: ws) = Function.update (replay d ws) x.1 x.2 := rfl

/-- Every block that the first `n` inodes of the table on disk `d` refer to is marked there. -/
def MarkedDisk (n : Nat) (d : Nat → Nat → UInt8) : Prop :=
  ∀ i < n, ∀ j < NDIRECT, u16 (d 1) (INSIZE * i + offBlkInd + 2 * j) ≠ 0 →
    (u32 (d 0) (offBlkOcp + 4 * (u16 (d 1) (INSIZE * i + offBlkInd + 2 * j) / 32))).testBit
      (u16 (d 1) (INSIZE * i + offBlkInd + 2 * j) % 32) = true

/-- Every block in a slot of `m` is marked in `m'`. -/
def MarkedIn (n : Nat) (m m' : Meta) : Prop :=
  ∀ i j, i < n → m.slot i j ≠ 0 → m'.blkOcp (m.slot i j) = true

theorem MarkedIn.disk {n : Nat} {d : Nat → Nat → UInt8} (hn : n ≤ MAXINODENUM)
    (h : MarkedIn n (decode (d 0) (d 1)) (decode (d 0) (d 1))) : MarkedDisk n d := by
  intro i hi j hj hz
  have hslot : (decode (d 0) (d 1)).slot i j = u16 (d 1) (INSIZE * i + offBlkInd + 2 * j) := by
    rw [Meta.slot, decode_inode _ _ (lt_of_lt_of_le hi hn)]
    simp only [decodeInode, if_pos hj]
  have hm := h i j hi (by rwa [hslot])
  rw [hslot] at hm
  exact (Bool.and_eq_true_iff.mp hm).2

/-- Both inode tables, the one in memory and the one on the disk, are covered by both bitmaps, and
so was the disk after each of the writes. -/
structure CrashSafe (n : Nat) (d : Nat → Nat → UInt8) (w : World) : Prop where
  disk : w.disk = replay d w.writes
  past : ∀ ws, ws <:+ w.writes →
    MarkedIn n (decode (replay d ws 0) (replay d ws 1)) (decode (replay d ws 0) (replay d ws 1))
  cached_cached : MarkedIn n w.cached w.cached
  cached_disk : MarkedIn n w.cached w.onDisk
  disk_cached : MarkedIn n w.onDisk w.cached

namespace CrashSafe

variable {n : Nat} {d : Nat → Nat → UInt8} {w v : World}

theorem of_cached (h : CrashSafe n d w) {m : Meta} (hc : v.cached = m) (hd : v.disk = w.disk)
    (hw : v.writes = w.writes) (hs : m.slot = w.cached.slot)
    (ho : ∀ b, w.cached.blkOcp b = true → m.blkOcp b = true) : CrashSafe n d v := by
  have hon : v.onDisk = w.onDisk := by rw [World.onDisk, World.onDisk, hd]
  refine ⟨by rw [hd, hw]; exact h.disk, by rw [hw]; exact h.past, ?_, ?_, ?_⟩
  · intro i j hi hz
    rw [hc, hs] at hz ⊢
    exact ho _ (h.cached_cached i j hi hz)
  · intro i j hi hz
    rw [hc, hs] at hz ⊢
    rw [hon]
    exact h.cached_disk i j hi hz
  · intro i j hi hz
    rw [hon] at hz ⊢
    rw [hc]
    exact ho _ (h.disk_cached i j hi hz)

end CrashSafe

private theorem onDisk_flush (w : World) {p : Nat} (hp : superPg ≤ p) (hpr : w.present p = true)
    (hd : w.dirty p = true) :
    (w.flush p).onDisk.slot = (if p = inodePg then w.cached.slot else w.onDisk.slot) ∧
      (w.flush p).onDisk.blkOcp = (if p = superPg then w.cached.blkOcp else w.onDisk.blkOcp) := by
  have hdisk : (w.flush p).disk = Function.update w.disk (p - superPg) fun o =>
      w.mem (p * PGSIZE + o) := by
    simp [World.flush, hpr, hd]
  have hpage (b : Nat) (hb : p = superPg + b) : ∀ o < BLKSIZE, (w.flush p).disk b o = w.block b o := by
    intro o ho
    have hva : p * PGSIZE + o = blockVa b + o := by
      simp only [hb, superPg, PGSIZE, blockVa, DISKMAP, BLKSIZE]
      omega
    have hpg : (blockVa b + o) / PGSIZE = p := by
      simp only [hb, superPg, PGSIZE, blockVa, DISKMAP, BLKSIZE] at *
      omega
    rw [hdisk, hb, Nat.add_sub_cancel_left, Function.update_self, ← hb, hva, World.block,
      byte_mapped (Or.inl (by rw [hpg]; exact hpr))]
  have hkeep (b : Nat) (hb : p ≠ superPg + b) : (w.flush p).disk b = w.disk b := by
    rw [hdisk, Function.update_of_ne (by omega)]
  constructor
  · by_cases h1 : p = inodePg
    · have he : (w.flush p).onDisk = decode ((w.flush p).disk 0) (w.block 1) :=
        decode_congr (fun _ _ => rfl) (hpage 1 h1)
      rw [he, if_pos h1]
      rfl
    · rw [if_neg h1, World.onDisk, hkeep 1 h1]
      rfl
  · by_cases h0 : p = superPg
    · have he : (w.flush p).onDisk = decode (w.block 0) ((w.flush p).disk 1) :=
        decode_congr (hpage 0 h0) (fun _ _ => rfl)
      rw [he, if_pos h0]
      rfl
    · rw [if_neg h0, World.onDisk, hkeep 0 h0]
      rfl

namespace CrashSafe

variable {n : Nat} {d : Nat → Nat → UInt8} {w : World}

theorem flush (h : CrashSafe n d w) {p : Nat} (hp : superPg ≤ p) : CrashSafe n d (w.flush p) := by
  by_cases hc : (w.present p && w.dirty p) = true
  · obtain ⟨hpr, hd⟩ := Bool.and_eq_true_iff.mp hc
    obtain ⟨hslot, hocp⟩ := onDisk_flush w hp hpr hd
    have hcached := cached_flush w hp
    have hdisk_disk : MarkedIn n w.onDisk w.onDisk := by
      have := h.past w.writes List.suffix_rfl
      rwa [← h.disk] at this
    have hnew : MarkedIn n (w.flush p).onDisk (w.flush p).onDisk := by
      intro i j hi hz
      rw [hslot] at hz ⊢
      rw [hocp]
      split_ifs at hz ⊢ with h1 h0 h0
      · exact h.cached_cached i j hi hz
      · exact h.disk_cached i j hi hz
      · exact h.cached_disk i j hi hz
      · exact hdisk_disk i j hi hz
    have hwrites : (w.flush p).writes = (p - superPg, fun o => w.mem (p * PGSIZE + o)) :: w.writes := by
      simp [World.flush, hpr, hd]
    have hdisk : (w.flush p).disk = replay d (w.flush p).writes := by
      rw [hwrites, replay_cons, ← h.disk]
      simp only [World.flush, hc, if_true]
    refine ⟨hdisk, fun ws hws => ?_, by rw [hcached]; exact h.cached_cached, ?_, ?_⟩
    · rw [hwrites] at hws
      rcases List.suffix_cons_iff.mp hws with rfl | hws
      · rw [← hwrites, ← hdisk]
        exact hnew
      · exact h.past ws hws
    · intro i j hi hz
      rw [hcached] at hz ⊢
      rw [hocp]
      split_ifs
      · exact h.cached_cached i j hi hz
      · exact h.cached_disk i j hi hz
    · intro i j hi hz
      rw [hslot] at hz ⊢
      rw [hcached]
      split_ifs at hz ⊢
      · exact h.cached_cached i j hi hz
      · exact h.disk_cached i j hi hz
  · have he : w.flush p = w := by
      unfold World.flush
      rw [if_neg hc]
    rwa [he]

/-- Marking a block: the bit is on the disk before anything else happens. -/
theorem markBlock (h : CrashSafe n d w) (hr : Ready w) {b : Nat} (hb : b < MAXBLKNUM) :
    CrashSafe n d (w.markBlock b) ∧ (w.markBlock b).onDisk.blkOcp b = true := by
  have hb' : b < 4096 := hb
  let v := w.write (super + offBlkOcp + 4 * (b / 32)) 4 (leByte
    (w.word (super + offBlkOcp + 4 * (b / 32)) ||| (1 <<< (b % 32))))
  have hc : v.cached = w.cached.setBlkOcp b true := cached_setBlkOcp hr hb
  have hv : CrashSafe n d v := by
    refine h.of_cached hc rfl rfl rfl fun c hco => ?_
    change Function.update w.cached.blkOcp b true c = true
    rw [Function.update_apply]
    split_ifs
    · rfl
    · exact hco
  have hdirty : v.dirty superPg = true := by
    have hin : 0 < 4 ∧ (super + offBlkOcp + 4 * (b / 32)) / PGSIZE ≤ superPg ∧
        superPg ≤ (super + offBlkOcp + 4 * (b / 32) + 4 - 1) / PGSIZE := by
      simp only [super, blockVa, DISKMAP, BLKSIZE, offBlkOcp, PGSIZE, superPg]
      omega
    simp only [v, World.write, decide_eq_true hin, Bool.true_or]
  refine ⟨hv.flush le_rfl, ?_⟩
  have hon := (onDisk_flush v le_rfl hr.super hdirty).2
  rw [if_pos rfl, hc] at hon
  change (v.flush superPg).onDisk.blkOcp b = true
  rw [hon]
  simp [Meta.setBlkOcp]

theorem acquire (h : CrashSafe n d w) (hr : Ready w) {i j b : Nat} (hi : i < MAXINODENUM)
    (hj : j < NDIRECT) (hb : b < MAXBLKNUM) : CrashSafe n d (w.acquire i j b) := by
  obtain ⟨hm, hbit⟩ := h.markBlock hr hb
  have hc := cached_acquire hr hi hj hb
  have hcm := cached_markBlock hr hb
  have hslot : ∀ i' j', (w.acquire i j b).cached.slot i' j' =
      if i' = i ∧ j' = j then b else (w.markBlock b).cached.slot i' j' := by
    intro i' j'
    rw [hc, hcm, slot_setBlkUsed, slot_setSlot]
  have hocp : (w.acquire i j b).cached.blkOcp = (w.markBlock b).cached.blkOcp := by
    rw [hc, hcm]
    rfl
  have hon : (w.acquire i j b).onDisk = (w.markBlock b).onDisk := rfl
  refine ⟨hm.disk, hm.past, fun i' j' hi' hz => ?_, fun i' j' hi' hz => ?_, fun i' j' hi' hz => ?_⟩
  · rw [hslot] at hz ⊢
    rw [hocp]
    split_ifs at hz ⊢
    · rw [hcm]
      simp [Meta.setBlkOcp]
    · exact hm.cached_cached i' j' hi' hz
  · rw [hslot] at hz ⊢
    rw [hon]
    split_ifs at hz ⊢
    · exact hbit
    · exact hm.cached_disk i' j' hi' hz
  · rw [hon] at hz ⊢
    rw [hocp]
    exact hm.disk_cached i' j' hi' hz

theorem step {S : Scope} (hfree : ¬S.free) {v : World} (hsane : Sane n w) (hs : Step S n w v)
    (h : CrashSafe n d w) : CrashSafe n d v := by
  cases hs with
  | load p hp hn => exact h.of_cached (cached_load w hp hn) rfl rfl rfl fun _ hb => hb
  | flush p hp => exact h.flush hp
  | follow k => exact h.of_cached (cached_of_byte rfl) rfl rfl rfl fun _ hb => hb
  | log x => exact h.of_cached (cached_of_byte rfl) rfl rfl rfl fun _ hb => hb
  | acquire i j b _ hi hj _ hf =>
    exact h.acquire hsane.ready (hsane.lt hi) hj (hsane.firstFree hf).1
  | release i j _ hfr _ _ _ => exact absurd hfr hfree
  | type i v _ hi =>
    exact h.of_cached (cached_setType hsane.ready (hsane.lt hi) v) rfl rfl (slot_setType _ _ _)
      fun _ hb => hb
  | size i v _ hi =>
    exact h.of_cached (cached_setSize hsane.ready (hsane.lt hi) v) rfl rfl (slot_setSize _ _ _)
      fun _ hb => hb
  | used i v _ hi =>
    exact h.of_cached (cached_setBlkUsed hsane.ready (hsane.lt hi) v) rfl rfl
      (slot_setBlkUsed _ _ _) fun _ hb => hb
  | markInode k hk _ =>
    exact (h.of_cached (cached_setInOcp hsane.ready (hsane.lt hk)) rfl rfl rfl
      fun _ hb => hb).flush le_rfl
  | unmarkInode k hk =>
    exact (h.of_cached (cached_clearInOcp hsane.ready (hsane.lt hk)) rfl rfl rfl
      fun _ hb => hb).flush le_rfl
  | data b a m f hb hlo hhi hp _ _ =>
    exact h.of_cached (cached_write_data (present_bytes hp)
      (Or.inr ((blockVa_mono hb).trans hlo))) rfl rfl rfl fun _ hb => hb
  | outside a m f ha => exact h.of_cached (cached_fill ha) rfl rfl rfl fun _ hb => hb

end CrashSafe

/-- Calls that must not free blocks, and the disk they leave behind. -/
def crashSetting (n : Nat) (d : Nat → Nat → UInt8) : Setting :=
  ⟨n, ⟨fun _ => True, False⟩, CrashSafe n d, fun hsane hs h => h.step (fun hf => hf) hsane hs⟩

private theorem onDisk_of_clean {w : World} (hr : Ready w) (hcoh : Coherent w)
    (hclean : ∀ p, superPg ≤ p → p < endPg → w.dirty p = false) : w.onDisk = w.cached := by
  have hpage (b : Nat) (hp : w.present (superPg + b) = true) (hb : superPg + b < endPg) :
      ∀ o < BLKSIZE, w.disk b o = w.block b o := by
    intro o ho
    have h := hcoh (superPg + b) (Nat.le_add_right _ _) hb hp (hclean _ (Nat.le_add_right _ _) hb) o ho
    have hva : (superPg + b) * PGSIZE + o = blockVa b + o := by
      simp only [superPg, PGSIZE, blockVa, DISKMAP, BLKSIZE]
      omega
    have hpg : (blockVa b + o) / PGSIZE = superPg + b := by
      simp only [superPg, PGSIZE, blockVa, DISKMAP, BLKSIZE] at *
      omega
    rw [hva, Nat.add_sub_cancel_left] at h
    rw [World.block, byte_mapped (by rw [hpg]; exact Or.inl hp), h]
  exact decode_congr (hpage 0 hr.super (by decide)) (hpage 1 hr.inode (by decide))

/-- In a run that frees no block, whatever prefix of the block writes reached the disk, the bitmap
there covers the inode table there. -/
theorem markedDisk_run (n : Nat) (w : World) (ops : List FileOp) (hready : Ready w)
    (hin : w.inNum ≤ n) (hpos : 0 < n) (hn : n ≤ MAXINODENUM) (h : SoundImage n w)
    (hcoh : Coherent w) (hclean : ∀ p, superPg ≤ p → p < endPg → w.dirty p = false)
    (hwrites : w.writes = []) (hops : ∀ op ∈ ops, op.Fits)
    (hfrugal : server.Along (fun op w => op.Frugal w) ops w)
    (hf : ∀ k ∈ (server.run ops w).followed, k < w.inNum) :
    ∀ ws, ws <:+ (server.run ops w).writes → MarkedDisk n (replay w.disk ws) := by
  have howned := (soundImage_iff hn).mp h
  have hsane : Sane n w := ⟨hready, by rw [← inNum_cached]; exact hin, hn, hpos, howned⟩
  have hcc : MarkedIn n w.cached w.cached := fun i j hi hz => (howned.valid i j hi hz).2.2
  have hon := onDisk_of_clean hready hcoh hclean
  have hsafe : CrashSafe n w.disk w := by
    refine ⟨by rw [hwrites]; rfl, fun ws hws => ?_, hcc, hon ▸ hcc, hon ▸ hcc⟩
    rw [hwrites] at hws
    rw [List.suffix_nil.mp hws]
    change MarkedIn n w.onDisk w.onDisk
    rw [hon]
    exact hcc
  have hrun := (crashSetting n w.disk).run_inv (fun _ _ => trivial) hpos ⟨hsane, hsafe⟩ hops
    (hfrugal.mono fun _ _ hc => Or.inr hc) fun k hk => lt_of_lt_of_le (hf k hk) hin
  exact fun ws hws => (hrun.2.past ws hws).disk hn

theorem clean_mount (disk : Nat → Nat → UInt8) :
    ∀ p, superPg ≤ p → p < endPg → (mount disk).dirty p = false :=
  fun _ _ _ => rfl

private theorem soundImage_fresh : SoundImage 4 (mount (freshDisk 4 1)) :=
  ⟨by decide +kernel, by decide +kernel, by decide +kernel,
    OwnedBlocks.of_filled [(0, 0)] (by decide +kernel) (by decide +kernel) (by decide +kernel)⟩

theorem markedDisk_run_createAndWrite : SoundImage 4 (mount (freshDisk 4 1)) ∧ ∀ ws,
    ws <:+ (server.run createAndWrite (mount (freshDisk 4 1))).writes →
      MarkedDisk 4 (replay (freshDisk 4 1) ws) :=
  ⟨soundImage_fresh, markedDisk_run 4 (mount (freshDisk 4 1)) createAndWrite ⟨rfl, rfl⟩ (by decide +kernel) (by decide)
    (by decide) soundImage_fresh (durable_mount _).coherent (clean_mount _) rfl (by decide)
    ⟨trivial, fun _ => ⟨trivial, fun _ => ⟨by change Idle _ _ _; decide +kernel, fun _ => trivial⟩⟩⟩
    (by decide +kernel)⟩

/-- After a shrinking `file_set_size` the freed block is unmarked on the disk, and the inode there
still refers to it. -/
theorem markedDisk_lost_setSize : ¬∀ (n : Nat) (w : World) (ops : List FileOp), Ready w →
    w.inNum ≤ n → 0 < n → n ≤ MAXINODENUM → SoundImage n w → Coherent w →
      (∀ p, superPg ≤ p → p < endPg → w.dirty p = false) → w.writes = [] →
        (∀ op ∈ ops, op.Fits) → (∀ k ∈ (server.run ops w).followed, k < w.inNum) →
          ∀ ws, ws <:+ (server.run ops w).writes → MarkedDisk n (replay w.disk ws) := by
  intro h
  have hm := h 4 (mount (freshDisk 4 1)) (createAndWrite ++ [.setSize (blockVa 2) 0]) ⟨rfl, rfl⟩
    (by decide +kernel) (by decide) (by decide) soundImage_fresh (durable_mount _).coherent
    (clean_mount _) rfl (by decide) (by decide +kernel) _ List.suffix_rfl 1 (by decide) 0 (by decide)
    (by decide +kernel)
  exact absurd hm (by decide +kernel)

end DamnOS.FileSystem
