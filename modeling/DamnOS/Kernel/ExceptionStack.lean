import DamnOS.Kernel.Reclaim

/-!
# The frame on the exception stack

`page_fault_handler` pushes a frame on the exception stack of an environment with an upcall.  It does
so with the stack pointer and the mappings as it finds them.
-/

namespace DamnOS.Kernel

open DamnOS.Framework

namespace Pmap

def byte (m : Pmap) (p off : Nat) : UInt8 := UInt8.ofNat (m.mem p (off / 4) / 256 ^ (off % 4))

/-- `m'` is `m` with `bytes` from offset `off` of page `q` on. -/
def Written (m m' : Pmap) (q off : Nat) (bytes : List UInt8) : Prop :=
  (∃ words, m' = { m with mem := Function.update m.mem q words }) ∧
    ∀ o, m'.byte q o = if off ≤ o ∧ o < off + bytes.length then bytes.getD (o - off) 0 else m.byte q o

variable {m m' : Pmap} {pgdir va q off : Nat}

private theorem setByte_div {w j k : Nat} (b : UInt8) (hj : j < 4) (hk : k < 4) :
    UInt8.ofNat (setByte w j b / 256 ^ k) = if k = j then b else UInt8.ofNat (w / 256 ^ k) := by
  have hb := b.toNat_lt
  have key : setByte w j b / 256 ^ k % 256 = if k = j then b.toNat else w / 256 ^ k % 256 := by
    unfold setByte
    interval_cases j
    all_goals interval_cases k
    all_goals simp only [Nat.reduceEqDiff, if_true, if_false, Nat.reducePow]
    all_goals omega
  apply UInt8.toNat_inj.mp
  rw [UInt8.toNat_ofNat', show 2 ^ 8 = 256 by rfl, key]
  split
  · rfl
  · exact UInt8.toNat_ofNat'.symm

private theorem storeByte_byte (m : Pmap) (q off o : Nat) (b : UInt8) :
    (m.storeByte q off b).byte q o = if o = off then b else m.byte q o := by
  unfold byte storeByte
  by_cases hword : o / 4 = off / 4
  · rw [hword, store_mem_self, setByte_div b (Nat.mod_lt _ (by decide)) (Nat.mod_lt _ (by decide))]
    by_cases ho : o = off
    · simp [ho]
    · rw [if_neg (by omega), if_neg ho]
  · rw [store_mem_word hword, if_neg (by rintro rfl; exact hword rfl)]

theorem Written.refl (m : Pmap) (q off : Nat) : Written m m q off [] :=
  ⟨⟨m.mem q, by rw [Function.update_eq_self]⟩, fun o => by simp⟩

theorem Written.cons {b : UInt8} {bytes : List UInt8}
    (h : Written (m.storeByte q off b) m' q (off + 1) bytes) : Written m m' q off (b :: bytes) := by
  obtain ⟨⟨words, rfl⟩, hbytes⟩ := h
  refine ⟨⟨words, by simp [storeByte, store]⟩, fun o => ?_⟩
  rw [hbytes o, storeByte_byte, List.length_cons]
  by_cases ho : o = off
  · subst ho
    rw [if_neg (by omega), if_pos rfl, if_pos (by omega), Nat.sub_self]
    rfl
  · rw [if_neg ho]
    by_cases hin : off + 1 ≤ o ∧ o < off + 1 + bytes.length
    · rw [if_pos hin, if_pos (by omega), show o - off = o - (off + 1) + 1 by omega, List.getD_cons_succ]
    · rw [if_neg hin, if_neg (by omega)]

/-- The kernel finds the same page as long as the directory and the page table are the same. -/
theorem writable_congr (hd : m'.mem pgdir = m.mem pgdir)
    (ht : m'.mem (m.tableOf pgdir va) = m.mem (m.tableOf pgdir va)) :
    m'.writable pgdir va = m.writable pgdir va := by
  unfold tableOf at ht
  unfold writable
  simp only [hd, ht]

private theorem writable_page {va' : Nat} (h : va' / PGSIZE = va / PGSIZE) :
    m.writable pgdir va' = m.writable pgdir va := by
  have hpdx : PDX va' = PDX va := by
    rw [PDX_eq, PDX_eq]
    simp only [PGSIZE] at h
    omega
  have hptx : PTX va' = PTX va := by
    rw [PTX_eq, PTX_eq]
    simp only [PGSIZE] at h
    rw [h]
  unfold writable
  rw [hpdx, hptx]

private theorem writeBytes_page {bytes : List UInt8} (hw : m.writable pgdir va = some q) (hdir : q ≠ pgdir)
    (htable : q ≠ m.tableOf pgdir va) (hlen : va % PGSIZE + bytes.length ≤ PGSIZE) :
    ∃ m', m.writeBytes pgdir va bytes = some m' ∧ Written m m' q (va % PGSIZE) bytes := by
  suffices hloop : ∀ (bytes : List UInt8) (k : Nat) (u : Pmap), u.mem pgdir = m.mem pgdir →
      u.mem (m.tableOf pgdir va) = m.mem (m.tableOf pgdir va) →
      va % PGSIZE + k + bytes.length ≤ PGSIZE →
      ∃ m', (bytes.zipIdx k).foldlM (fun u p => u.write pgdir (va + p.2) p.1) u = some m' ∧
        Written u m' q (va % PGSIZE + k) bytes by
    exact hloop bytes 0 m rfl rfl (by omega)
  intro bytes
  induction bytes with
  | nil =>
    intro k u _ _ _
    exact ⟨u, rfl, .refl u q _⟩
  | cons b bytes ih =>
    intro k u hd ht hlen
    rw [List.length_cons] at hlen
    have hoff : (va + k) % PGSIZE = va % PGSIZE + k := by
      simp only [PGSIZE] at hlen ⊢
      omega
    have hpage : (va + k) / PGSIZE = va / PGSIZE := by
      simp only [PGSIZE] at hlen ⊢
      omega
    have hwrite : u.write pgdir (va + k) b = some (u.storeByte q (va % PGSIZE + k) b) := by
      rw [write, writable_page hpage, writable_congr hd ht, hw, hoff]
      rfl
    obtain ⟨m', hm', hwritten⟩ := ih (k + 1) (u.storeByte q (va % PGSIZE + k) b)
      ((store_mem_page hdir.symm).trans hd) ((store_mem_page htable.symm).trans ht) (by omega)
    refine ⟨m', ?_, hwritten.cons⟩
    rw [List.zipIdx_cons, List.foldlM_cons]
    change (u.write pgdir (va + k) b).bind _ = _
    rw [hwrite]
    exact hm'

end Pmap

/-- The trap-time stack pointer is on the exception stack: the fault is a recursive one. -/
def Recursive (esp : BitVec 32) : Prop :=
  UXSTACKTOP - PGSIZE ≤ esp.toNat ∧ esp.toNat ≤ UXSTACKTOP - 1

instance (esp : BitVec 32) : Decidable (Recursive esp) := inferInstanceAs (Decidable (_ ∧ _))

/-- The frame, and in the recursive case the scratch word above it, lie on the exception stack. -/
def FrameInside (esp : BitVec 32) : Prop :=
  UXSTACKTOP - PGSIZE ≤ utfAddr esp ∧
    utfAddr esp + 52 + (if Recursive esp then 4 else 0) ≤ UXSTACKTOP

/-- In the recursive case the stack pointer leaves room for the frame and the scratch word. -/
def HasRoom (esp : BitVec 32) : Prop := Recursive esp → UXSTACKTOP - PGSIZE + 56 ≤ esp.toNat

private theorem frameInside_iff {esp : BitVec 32} : FrameInside esp ↔ HasRoom esp := by
  have htop : UXSTACKTOP = 977920 * 4096 := by decide
  unfold FrameInside HasRoom
  by_cases h : Recursive esp
  · have hin : UXSTACKTOP - PGSIZE ≤ esp.toNat ∧ esp.toNat ≤ UXSTACKTOP - 1 := h
    have haddr : utfAddr esp = esp.toNat - 52 - 4 := if_pos hin
    rw [haddr, if_pos h]
    simp only [h, true_imp_iff, PGSIZE] at *
    omega
  · have haddr : utfAddr esp = UXSTACKTOP - 52 := if_neg h
    rw [haddr, if_neg h]
    simp only [h, false_imp_iff, PGSIZE, iff_true] at *
    omega

def Pmap.UserWritable (m : Pmap) (pgdir va : Nat) : Prop :=
  (m.writable pgdir va).isSome ∧ m.mem pgdir (PDX va) &&& PTE_U ≠ 0 ∧
    m.mem (m.tableOf pgdir va) (PTX va) &&& PTE_U ≠ 0

instance (esp : BitVec 32) : Decidable (FrameInside esp) := inferInstanceAs (Decidable (_ ∧ _))

instance (m : Pmap) (pgdir va : Nat) : Decidable (m.UserWritable pgdir va) :=
  inferInstanceAs (Decidable (_ ∧ _))

namespace System

/-- The exception stack of `c` has room for the frame, and its page is there for `c` to write. -/
def CanPush (s : System) (c : Fin NENV) : Prop :=
  FrameInside (s.envs c).tf.esp ∧ s.pmap.UserWritable (s.envs c).pgdir (UXSTACKTOP - PGSIZE)

instance (s : System) (c : Fin NENV) : Decidable (s.CanPush c) := inferInstanceAs (Decidable (_ ∧ _))

/-- The environment is gone, and the pages that were mapped have their contents. -/
def Destroyed (s t : System) (c : Fin NENV) : Prop :=
  ¬ t.Live c ∧ ∀ i va w, s.Live i → va < UTOP → s.pmap.mapping (s.envs i).pgdir va = some w →
    t.pmap.mem (pa2page (PTE_ADDR w)) = s.pmap.mem (pa2page (PTE_ADDR w))

/-- The bytes of the frame, and no others, are written to the page of the exception stack. -/
def Pushed (s t : System) (c : Fin NENV) (faultVa : BitVec 32) : Prop :=
  t.Live c ∧ ∃ q, s.pmap.writable (s.envs c).pgdir (UXSTACKTOP - PGSIZE) = some q ∧
    s.pmap.Written t.pmap q (utfAddr (s.envs c).tf.esp % PGSIZE)
      ((utfWords (s.envs c).tf faultVa).flatMap wordBytes)

/-- `page_fault_handler` comes to an end in the way that the exception stack calls for. -/
def FaultsSafely (s : System) (c : Fin NENV) (faultVa : BitVec 32) : Prop :=
  (¬ s.CanPush c → ∃ t, s.pageFaultHandler c faultVa = some t ∧ s.Destroyed t c) ∧
    (s.CanPush c → ∃ t, s.pageFaultHandler c faultVa = some t ∧ s.Pushed t c faultVa)

end System

section Handler

variable {M : Nat → Prop} {s t : System} {c : Fin NENV} {faultVa : BitVec 32}

private theorem Shaped.mapped_not_owned (h : Shaped M s) {i e : Fin NENV} {va w : Nat} (hi : s.Live i)
    (he : s.Live e) (hva : va < UTOP) (hw : s.pmap.mapping (s.envs i).pgdir va = some w) :
    ¬ s.Owns e (pa2page (PTE_ADDR w)) := by
  intro hown
  obtain ⟨x, hx, -, htarget⟩ := h.slot_of_owns he hown
  obtain ⟨hpde, hword, hp⟩ := Pmap.mapping_eq_some.mp hw
  have hpt : named (s.pmap.mem (s.envs i).pgdir (PDX va)) = some (s.pmap.tableOf (s.envs i).pgdir va) :=
    named_eq_some.mpr ⟨hpde, rfl⟩
  have hslot : s.target (Slot.page i va hva) = some (pa2page (PTE_ADDR w)) := by
    refine (target_pte (d := ⟨PDX va, PDX_lt_of_lt_UTOP hva⟩) hi hpt _).trans ?_
    change named (s.pmap.mem _ (PTX va)) = _
    rw [hword]
    exact named_eq_some.mpr ⟨hp, rfl⟩
  have hsame := h.exclusive x _ _ hx htarget hslot
  rw [← hsame] at hx
  exact hx

theorem Booked.destroyed (h : Booked M none s) (hu : s.pmap.Unlinked) (hc : s.Live c)
    (hcur : s.curenv = some c) : ∃ t, (s.envDestroy c).map Prod.snd = some t ∧ s.Destroyed t c := by
  obtain ⟨u, hfree, -⟩ := h.envFree_total hu hc
  have hdestroy : s.envDestroy c = some (false, ({ u with curenv := none } : System).schedYield) := by
    have hcur' : u.curenv = some c := by
      obtain ⟨m, -, rfl⟩ := Option.map_eq_some_iff.mp hfree
      exact hcur
    rw [System.envDestroy, if_neg (fun hr => hr.2 hcur), hfree, Option.map_some, if_pos hcur']
  have hyield := Rescheduled.schedYield ({ u with curenv := none } : System)
  refine ⟨_, by rw [hdestroy]; rfl, ?_, fun i va w hi hva hw => ?_⟩
  · rw [hyield.live c]
    obtain ⟨m, -, rfl⟩ := Option.map_eq_some_iff.mp hfree
    simp [System.Live, System.setEnv]
  · rw [hyield.pmap]
    obtain ⟨m, hm, rfl⟩ := Option.map_eq_some_iff.mp hfree
    exact (Pmap.Emptied.freePgdir hm).outside _ (h.mapped_not_owned hi hc hva hw)

theorem FrameInside.page {esp : BitVec 32} (h : FrameInside esp) :
    utfAddr esp / PGSIZE = (UXSTACKTOP - PGSIZE) / PGSIZE ∧ utfAddr esp % PGSIZE + 52 ≤ PGSIZE := by
  obtain ⟨hlow, hhigh⟩ := h
  have htop : UXSTACKTOP = 977920 * 4096 := by decide
  simp only [PGSIZE] at *
  omega

private theorem utfBytes_length (tf : Trapframe) (faultVa : BitVec 32) :
    ((utfWords tf faultVa).flatMap wordBytes).length = 52 := by
  simp [utfWords, wordBytes]

theorem Shaped.pushed (h : Shaped M s) (hc : s.Live c) (hcs : (s.envs c).tf.cs &&& 3 ≠ 0)
    (hup : (s.envs c).pgfaultUpcall ≠ 0) (hpush : s.CanPush c) :
    ∃ t, s.pageFaultHandler c faultVa = some t ∧ s.Pushed t c faultVa := by
  obtain ⟨hinside, hwritable, -⟩ := hpush
  obtain ⟨hpage, hlen⟩ := hinside.page
  obtain ⟨q, hq⟩ := Option.isSome_iff_exists.mp hwritable
  have hq' : s.pmap.writable (s.envs c).pgdir (utfAddr (s.envs c).tf.esp) = some q :=
    (Pmap.writable_page hpage).trans hq
  have hva : utfAddr (s.envs c).tf.esp < UTOP := by
    have := hinside.2
    simp only [UXSTACKTOP] at this
    omega
  -- the page is mapped, so it is not the directory or a page table
  obtain ⟨w, hw, hwq⟩ : ∃ w, s.pmap.mapping (s.envs c).pgdir (utfAddr (s.envs c).tf.esp) = some w ∧
      pa2page (PTE_ADDR w) = q := by
    unfold Pmap.writable at hq'
    dsimp only at hq'
    split at hq'
    · cases hq'
    · next hno =>
      simp only [not_or] at hno
      exact ⟨_, Pmap.mapping_eq_some.mpr ⟨hno.1, rfl, hno.2.2.1⟩, Option.some.inj hq'⟩
  have hnot := h.mapped_not_owned hc hc hva hw
  rw [hwq] at hnot
  have hpde : s.pmap.mem (s.envs c).pgdir (PDX (utfAddr (s.envs c).tf.esp)) ≠ 0 := by
    intro h0
    have hp := (Pmap.mapping_eq_some.mp hw).1
    simp [h0] at hp
  have hbytes : (utfAddr (s.envs c).tf.esp) % PGSIZE +
      ((utfWords (s.envs c).tf faultVa).flatMap wordBytes).length ≤ PGSIZE := by
    rw [utfBytes_length]
    exact hlen
  obtain ⟨m, hm, hwritten⟩ := Pmap.writeBytes_page hq' (fun heq => hnot (.inl heq))
    (fun heq => hnot (.inr (heq ▸ Pmap.isTable_tableOf hva hpde))) hbytes
  obtain ⟨t, ht, htm, hlive⟩ : ∃ t, s.pageFaultHandler c faultVa = some t ∧ t.pmap = m ∧ t.Live c := by
    rw [System.pageFaultHandler, if_neg hcs, if_pos hup, hm]
    exact ⟨_, rfl, rfl, by simpa [System.Live, System.setEnv] using hc⟩
  exact ⟨t, ht, hlive, q, hq, htm ▸ hwritten⟩

private theorem pageFaultHandler_live (hc : s.Live c) (hup : (s.envs c).pgfaultUpcall ≠ 0)
    (h : s.pageFaultHandler c faultVa = some t) : t.Live c := by
  unfold System.pageFaultHandler at h
  simp only [hup, ne_eq, not_false_eq_true, if_true] at h
  split at h
  · cases h
  · obtain ⟨m, -, rfl⟩ := Option.map_eq_some_iff.mp h
    simpa [System.Live, System.setEnv] using hc

/-- Nothing compares the frame with the exception stack, so there has to be an upcall exactly when the
stack can take the frame. -/
theorem faults_safely_iff (h : Booked M none s) (hu : s.pmap.Unlinked) (hc : s.Live c)
    (hcur : s.curenv = some c) (hcs : (s.envs c).tf.cs &&& 3 ≠ 0) (faultVa : BitVec 32) :
    s.FaultsSafely c faultVa ↔ ((s.envs c).pgfaultUpcall ≠ 0 ↔
      HasRoom (s.envs c).tf.esp ∧ s.pmap.UserWritable (s.envs c).pgdir (UXSTACKTOP - PGSIZE)) := by
  rw [← frameInside_iff]
  change _ ↔ (_ ↔ s.CanPush c)
  by_cases hup : (s.envs c).pgfaultUpcall = 0
  · obtain ⟨t, ht, hdestroyed⟩ := h.destroyed hu hc hcur
    have hhandler : s.pageFaultHandler c faultVa = some t := by
      rw [System.pageFaultHandler, if_neg hcs, if_neg (not_not.mpr hup), ht]
    simp only [hup, ne_eq, not_true_eq_false, false_iff]
    constructor
    · rintro ⟨-, hpushed⟩ hcan
      obtain ⟨t', ht', hlive, -⟩ := hpushed hcan
      obtain rfl : t = t' := Option.some.inj (hhandler.symm.trans ht')
      exact hdestroyed.1 hlive
    · intro hno
      exact ⟨fun _ => ⟨t, hhandler, hdestroyed⟩, fun hcan => absurd hcan hno⟩
  · simp only [hup, ne_eq, not_false_eq_true, true_iff]
    constructor
    · rintro ⟨hdestroys, -⟩
      by_contra hno
      obtain ⟨t, ht, hdead, -⟩ := hdestroys hno
      exact hdead (pageFaultHandler_live hc hup ht)
    · intro hcan
      exact ⟨fun hno => absurd hcan hno, fun _ => h.pushed hc hcs hup hcan⟩

end Handler

theorem faults_safely_program : sampleSystem.curenv = some 1 ∧ sampleSystem.FaultsSafely 1 0x400000 := by
  have hstack : ¬ sampleSystem.pmap.UserWritable (sampleSystem.envs 1).pgdir (UXSTACKTOP - PGSIZE) := by decide
  refine ⟨rfl, (faults_safely_iff sampleSystem_accounted.toBooked sampleSystem_balanced.unlinked (by decide) rfl
    (by decide) 0x400000).mpr ⟨fun hup => absurd rfl hup, fun h => absurd h.2 hstack⟩⟩

/-- The program has set an upcall, and has no exception stack. -/
def upcallSystem : System := sampleSystem.setEnv 1 { programEnv with pgfaultUpcall := 0x800020 }

theorem upcall_without_stack : ¬ ∀ (M : Nat → Prop) (s : System) (c : Fin NENV) (faultVa : BitVec 32),
    Booked M none s → s.pmap.Unlinked → s.Live c → s.curenv = some c →
      (s.envs c).tf.cs &&& 3 ≠ 0 → s.FaultsSafely c faultVa := by
  intro hall
  have hdirs : SameDirs sampleSystem upcallSystem := .update rfl (by decide)
  have hbooked : Booked SamplePage none upcallSystem :=
    sampleSystem_accounted.toBooked.of_sameDirs hdirs rfl
  obtain ⟨hdestroys, -⟩ := hall SamplePage upcallSystem 1 0x400000 hbooked
    sampleSystem_balanced.unlinked (by decide) rfl (by decide)
  obtain ⟨t, ht, -⟩ := hdestroys (by decide)
  have hpanic : upcallSystem.pageFaultHandler 1 0x400000 = none := by decide +kernel
  rw [hpanic] at ht
  cases ht

end DamnOS.Kernel
