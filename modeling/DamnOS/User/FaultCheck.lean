import DamnOS.Kernel.Exhaustion
import DamnOS.User.FaultIsolation

/-!
# Which faults `pgfault` resolves

The handler is followed through all its ends.  Its check lets a fault pass that is a write or concerns a
copy-on-write page, where both were meant.
-/

namespace DamnOS.User

open DamnOS.Framework DamnOS.Kernel

/-- How a call of the handler ends. -/
inductive FaultEnd where
  /-- The handler returns, and the instruction is repeated. -/
  | resolved (s : System)
  /-- The environment panics. -/
  | panics (s : System)
  /-- The copy faults for a copy-on-write page, and the handler begins anew without end. -/
  | repeats (s : System)
  /-- The kernel panics. -/
  | crashes

/-- Go on after a system call that must succeed. -/
def insist (o : Outcome) (next : System → FaultEnd) : FaultEnd :=
  match o with
  | .returns r s => if r < 0 then .panics s else next s
  | _ => .crashes

/-- The page has an entry with `PTE_COW`.  Without a page table the read of `uvpt` faults, and the handler called
for that fault finds no `PTE_COW` in the directory entry and panics. -/
def pteCow (s : System) (c : Fin NENV) (va : Nat) : Bool :=
  decide (uvpd s c (PDX va) &&& PTE_P ≠ 0) && decide (uvpt s c (PGNUM va) &&& PTE_COW ≠ 0)

/-- `pgfault` with all its ends.  When `memcpy` cannot read the page, the handler is called for that read. -/
def pgfaultEnd (s : System) (c : Fin NENV) (faultVa err : Nat) : FaultEnd :=
  let addr := faultVa / PGSIZE * PGSIZE
  let scratch := BitVec.ofNat 32 PFTEMP
  let perm := permArg (PTE_W ||| PTE_U ||| PTE_P)
  if err &&& FEC_WR = 0 ∧ pteCow s c faultVa = false then .panics s
  else
    insist (s.sysPageAlloc c 0 scratch perm) fun s =>
      match memcpyPage s c PFTEMP addr with
      | none => if pteCow s c faultVa then .repeats s else .panics s
      | some s =>
        insist (s.sysPageMap c 0 scratch 0 (BitVec.ofNat 32 addr) perm) fun s =>
          insist (s.sysPageUnmap c 0 scratch) .resolved

private theorem insist_eq_resolved {o : Outcome} {next : System → FaultEnd} {t : System} :
    insist o next = .resolved t ↔ ∃ s, succeeded o = some s ∧ next s = .resolved t := by
  cases o with
  | leaves s => simp [insist, succeeded]
  | panics => simp [insist, succeeded]
  | returns r s =>
    by_cases hr : r < 0
    · simp [insist, succeeded, hr]
    · simp [insist, succeeded, hr, not_lt.mp hr]

/-- The handler that returns is the one that the runs of a family use. -/
theorem pgfault_eq_some_iff {s t : System} {c : Fin NENV} {va err : Nat} (hwr : err &&& FEC_WR ≠ 0) :
    pgfault s c va err = some t ↔ pgfaultEnd s c va err = .resolved t := by
  unfold pgfault pgfaultEnd
  dsimp only
  rw [if_neg fun h => hwr h.1, if_neg fun h => hwr h.1, insist_eq_resolved]
  refine Option.bind_eq_some_iff.trans (exists_congr fun s₁ => and_congr_right fun _ => ?_)
  refine Option.bind_eq_some_iff.trans ?_
  cases memcpyPage s₁ c PFTEMP (va / PGSIZE * PGSIZE) with
  | none =>
    dsimp only
    split
    · simp
    · simp
  | some s₂ =>
    dsimp only
    rw [insist_eq_resolved]
    simp only [Option.some.injEq, exists_eq_left']
    refine Option.bind_eq_some_iff.trans (exists_congr fun s₃ => and_congr_right fun _ => ?_)
    rw [insist_eq_resolved]
    simp

/-- `sys_page_alloc` cannot get the scratch page, and says so: the only page on the list is not enough, since the
page table is missing, or the list is empty and the caller has mapped address 0 so that `page_free(NULL)` passes. -/
def ScratchShort (s : System) (c : Fin NENV) : Prop :=
  (s.pmap.mem (s.envs c).pgdir (PDX PFTEMP) = 0 ∧
    ∃ p, s.pmap.pageFreeList = some p ∧ s.pmap.ppLink p = none) ∨
  (s.pmap.pageFreeList = none ∧ (s.pageFreeNull c).isSome)

section Scratch

variable {M : Nat → Prop} {s t : System} {c : Fin NENV}

private theorem scratch_args : (BitVec.ofNat 32 PFTEMP).toNat = PFTEMP ∧
    pageAddr (BitVec.ofNat 32 PFTEMP).toNat = true ∧
    permValid (permArg (PTE_W ||| PTE_U ||| PTE_P)).toNat = true := by
  decide

theorem view_zeroPage (h : Accounted M s) {p : Nat} (hp : s.pmap.pageFreeList = some p) (i : Fin NENV) (n : Nat) :
    ({ s with pmap := s.pmap.zeroPage p } : System).view i n = s.view i n := by
  obtain ⟨xs, hxs⟩ := h.table
  have hsep := h.separate fun _ => hxs.head_not_live
  by_cases hk : s.Live i ∧ n < NUPAGE
  · have hi : ({ s with pmap := s.pmap.zeroPage p } : System).Live i := hk.1
    rw [view_eq hi hk.2, view_eq hk.1 hk.2]
    refine Pmap.mapping_of_owns (fun x hx => ?_) (page_lt_UTOP hk.2)
    refine Function.update_of_ne ?_ _ _
    rintro rfl
    exact (hsep.head hp).2 i hk.1 hx
  · have hk' : ¬ (({ s with pmap := s.pmap.zeroPage p } : System).Live i ∧ n < NUPAGE) := hk
    rw [System.view, System.view, if_neg hk, if_neg hk']

private theorem view_pageFreeNull (h : Accounted M s) (hc : s.Live c) (ht : s.pageFreeNull c = some t)
    (i : Fin NENV) (n : Nat) : t.view i n = s.view i n := by
  simp only [System.pageFreeNull] at ht
  split_ifs at ht with hp
  obtain rfl := Option.some.inj ht
  rw [not_or] at hp
  have hmap : s.view c 0 = some (s.pmap.mem (pa2page (PTE_ADDR (s.pmap.mem (s.envs c).pgdir 0))) 0) := by
    rw [view_eq hc (by decide)]
    exact Pmap.mapping_eq_some.mpr ⟨hp.1, rfl, hp.2⟩
  have hmem : ∀ x, x ≠ pageOf (s.pmap.mem (pa2page (PTE_ADDR (s.pmap.mem (s.envs c).pgdir 0))) 0) →
      (s.pmap.store _ 0 0).mem x = s.pmap.mem x := fun x hx => Pmap.store_mem_page hx
  have hwrite := (h.writeData hmap hmem).2 i n
  rw [← hwrite]
  unfold System.view Pmap.mapping Pmap.tableOf
  rfl

/-- With a page on the list, `sys_page_alloc` fails exactly when that is the only one and a page table is missing. -/
theorem alloc_cases {e : Fin NENV} {p : Nat} {envid va perm : BitVec 32} (h : Accounted M s) (hc : s.Live c)
    (he : s.envid2env c envid true = some e) (hva : pageAddr va.toNat = true) (hperm : permValid perm.toNat = true)
    (hlist : s.pmap.pageFreeList = some p) :
    (s.pmap.mem (s.envs e).pgdir (PDX va.toNat) = 0 ∧ s.pmap.ppLink p = none ∧
      s.sysPageAlloc c envid va perm = .returns (-E_NO_MEM) { s with pmap := s.pmap.zeroPage p }) ∨
    (¬ (s.pmap.mem (s.envs e).pgdir (PDX va.toNat) = 0 ∧ s.pmap.ppLink p = none) ∧
      (s.sysPageAlloc c envid va perm = .panics ∨ ∃ t, s.sysPageAlloc c envid va perm = .returns 0 t)) := by
  obtain ⟨xs, hxs⟩ := h.table
  have hsep := h.separate fun _ => hxs.head_not_live
  by_cases hshort : s.pmap.mem (s.envs e).pgdir (PDX va.toNat) = 0 ∧ s.pmap.ppLink p = none
  · obtain ⟨hpde, hlink⟩ := hshort
    obtain ⟨ys, hl⟩ := h.ledger
    have hzero : s.pmap.ppRef p = 0 := by
      obtain ⟨hM, hno, -⟩ := h.head hlist
      exact (hl.count p hM).trans (references_eq_zero.mpr hno)
    refine .inl ⟨hpde, hlink, ?_⟩
    rw [System.sysPageAlloc_short he hva hperm hlist hlink hpde, Pmap.pageFree_taken hlist hlink hzero]
    rfl
  · refine .inr ⟨hshort, ?_⟩
    simp only [System.sysPageAlloc, he, hva, hperm, Pmap.pageAlloc_some hlist]
    have hdir : (s.envs e).pgdir ≠ p := by
      intro hdir
      exact (hsep.head hlist).2 e (live_of_envid2env he hc) (.inl hdir.symm)
    cases hins : (s.pmap.taken p).pageInsert (s.envs e).pgdir p va.toNat perm.toNat with
    | none => simp
    | some r =>
      obtain ⟨b, m⟩ := r
      rcases Pmap.pageInsert_cases hins with ⟨rfl, -, hpde, hnext⟩ | ⟨rfl, -⟩
      · rw [Pmap.taken_mem_page hdir] at hpde
        exact absurd ⟨hpde, hnext⟩ hshort
      · simp

/-- The call for the scratch page fails and changes no address space, or it returns 0, or the kernel panics. -/
theorem scratch_cases (h : Accounted M s) (hc : s.Live c) :
    (ScratchShort s c ∧ ∃ t,
      s.sysPageAlloc c 0 (BitVec.ofNat 32 PFTEMP) (permArg (PTE_W ||| PTE_U ||| PTE_P)) =
        .returns (-E_NO_MEM) t ∧ ∀ i n, t.view i n = s.view i n) ∨
    (¬ ScratchShort s c ∧
      (s.sysPageAlloc c 0 (BitVec.ofNat 32 PFTEMP) (permArg (PTE_W ||| PTE_U ||| PTE_P)) = .panics ∨
        ∃ t, s.sysPageAlloc c 0 (BitVec.ofNat 32 PFTEMP) (permArg (PTE_W ||| PTE_U ||| PTE_P)) =
          .returns 0 t)) := by
  obtain ⟨hnat, hva, hperm⟩ := scratch_args
  have hself := envid2env_zero s c true
  cases hlist : s.pmap.pageFreeList with
  | none =>
    have hcall : s.sysPageAlloc c 0 (BitVec.ofNat 32 PFTEMP) (permArg (PTE_W ||| PTE_U ||| PTE_P)) =
        (s.pageFreeNull c).elim .panics fun t => .returns (-E_NO_MEM) t := by
      simp only [System.sysPageAlloc, hself, hva, hperm, Pmap.pageAlloc_none hlist]
      cases hnull : s.pageFreeNull c with
      | none => simp
      | some t => simp
    rw [hcall]
    cases hnull : s.pageFreeNull c with
    | none =>
      refine .inr ⟨?_, .inl rfl⟩
      rintro (⟨-, p, hp, -⟩ | ⟨-, hsome⟩)
      · rw [hlist] at hp
        cases hp
      · rw [hnull] at hsome
        cases hsome
    | some t =>
      exact .inl ⟨.inr ⟨hlist, by rw [hnull]; rfl⟩, t, rfl, view_pageFreeNull h hc hnull⟩
  | some p =>
    rcases alloc_cases h hc hself hva hperm hlist with ⟨hpde, hlink, hcall⟩ | ⟨hroom, hcall⟩
    · rw [hnat] at hpde
      exact .inl ⟨.inl ⟨hpde, p, hlist, hlink⟩, _, hcall, view_zeroPage h hlist⟩
    · refine .inr ⟨?_, hcall⟩
      rintro (⟨hpde, q, hq, hlink⟩ | ⟨hnone, -⟩)
      · obtain rfl := Option.some.inj (hlist.symm.trans hq)
        rw [hnat] at hroom
        exact hroom ⟨hpde, hlink⟩
      · rw [hlist] at hnone
        cases hnone

end Scratch

section After

variable {M : Nat → Prop} {s t : System} {c : Fin NENV}

private theorem sysPageMap_error {srcenvid srcva dstenvid dstva perm : BitVec 32} {r : Int}
    (ho : s.sysPageMap c srcenvid srcva dstenvid dstva perm = .returns r t) (hr : r < 0) : t = s := by
  unfold System.sysPageMap at ho
  split at ho
  · cases ho
    rfl
  split at ho
  · cases ho
    rfl
  split at ho
  · cases ho
    rfl
  split at ho
  · cases ho
    rfl
  dsimp only at ho
  split at ho
  · cases ho
    rfl
  split at ho
  · cases ho
  · cases ho
    exact absurd hr (by decide)
  · next m hm =>
    cases ho
    rcases Pmap.pageInsert_cases hm with ⟨-, rfl, -⟩ | ⟨hb, -⟩
    · rfl
    · cases hb

private theorem sysPageUnmap_self {va : BitVec 32} (hva : pageAddr va.toNat = true) :
    s.sysPageUnmap c 0 va = .panics ∨ ∃ t, s.sysPageUnmap c 0 va = .returns 0 t := by
  simp only [System.sysPageUnmap, envid2env_zero, hva]
  cases s.pmap.pageRemove (s.envs c).pgdir va.toNat with
  | none => simp
  | some m => simp

private theorem view_memcpyPage {dstva srcva d : Nat} (h : Accounted M s) (hdst : dstva < UTOP)
    (hd : s.view c (dstva / PGSIZE) = some d) (ht : memcpyPage s c dstva srcva = some t) (i : Fin NENV) (n : Nat) :
    t.view i n = s.view i n := by
  obtain ⟨hc, -, -⟩ := view_eq_some hd
  have hmap := hd
  rw [view_div hc hdst] at hmap
  unfold memcpyPage at ht
  rw [hmap] at ht
  split at ht
  · next d' w hd' hw =>
    obtain rfl := Option.some.inj hd'
    split at ht
    · cases ht
    · obtain rfl := Option.some.inj ht
      have hmem : ∀ x, x ≠ pageOf d → (copyPage s.pmap (pageOf d) (pageOf w)).mem x = s.pmap.mem x :=
        fun x hx => copyPage_mem hx _
      exact (h.writeData hd hmem).2 i n
  · cases ht

private theorem insist_eq_panics {o : Outcome} {next : System → FaultEnd} (h : insist o next = .panics t) :
    (∃ r < 0, o = .returns r t) ∨ ∃ r u, 0 ≤ r ∧ o = .returns r u ∧ next u = .panics t := by
  cases o with
  | leaves s => cases h
  | panics => cases h
  | returns r u =>
    by_cases hr : r < 0
    · rw [insist, if_pos hr] at h
      cases h
      exact .inl ⟨r, hr, rfl⟩
    · rw [insist, if_neg hr] at h
      exact .inr ⟨r, u, not_lt.mp hr, rfl, h⟩

private theorem scratch_remains {u : System} {va : Nat} (h : Accounted M s) (hc : s.Live c)
    (halloc : s.sysPageAlloc c 0 (BitVec.ofNat 32 PFTEMP) (permArg (PTE_W ||| PTE_U ||| PTE_P)) = .returns 0 u)
    (hrest : (match memcpyPage u c PFTEMP (va / PGSIZE * PGSIZE) with
      | none => if pteCow u c va then .repeats u else .panics u
      | some s => insist (s.sysPageMap c 0 (BitVec.ofNat 32 PFTEMP) 0 (BitVec.ofNat 32 (va / PGSIZE * PGSIZE))
          (permArg (PTE_W ||| PTE_U ||| PTE_P))) fun s =>
            insist (s.sysPageUnmap c 0 (BitVec.ofNat 32 PFTEMP)) .resolved : FaultEnd) = .panics t) :
    t.view c (PFTEMP / PGSIZE) ≠ s.view c (PFTEMP / PGSIZE) := by
  obtain ⟨hPF, hPFlt⟩ := scratch_page
  obtain ⟨q, hq, -, hfresh, hr, -⟩ := h.sysPageAlloc hc (envid2env_zero s c true) hPF halloc le_rfl
  have hscratch : u.view c (PFTEMP / PGSIZE) =
      some (entry q (permArg (PTE_W ||| PTE_U ||| PTE_P)).toNat) := by
    rw [hr.view, if_pos ⟨rfl, rfl⟩]
  have hnew {v : System} (hv : v.view c (PFTEMP / PGSIZE) = u.view c (PFTEMP / PGSIZE)) :
      v.view c (PFTEMP / PGSIZE) ≠ s.view c (PFTEMP / PGSIZE) := by
    rw [hv, hscratch]
    intro hold
    exact hfresh c _ _ hold.symm (pageOf_entry hq (by decide))
  split at hrest
  · split at hrest
    · cases hrest
    · cases hrest
      exact hnew rfl
  · next v hv =>
    have hview := view_memcpyPage hr.accounted hPFlt hscratch hv c (PFTEMP / PGSIZE)
    rcases insist_eq_panics hrest with ⟨r, hneg, ho⟩ | ⟨r, w, -, -, hunmap⟩
    · rw [sysPageMap_error ho hneg]
      exact hnew hview
    · rcases insist_eq_panics hunmap with ⟨r, hneg, ho⟩ | ⟨r, w', -, -, hend⟩
      · rcases sysPageUnmap_self (s := w) (c := c) scratch_args.2.1 with hpanic | ⟨w', hret⟩
        · rw [hpanic] at ho
          cases ho
        · rw [hret] at ho
          cases ho
          exact absurd hneg (by decide)
      · cases hend

end After

/-- A fault that is not a write to a copy-on-write page ends in a panic, with all mappings unchanged. -/
def Contained (s : System) (c : Fin NENV) (va err : Nat) : Prop :=
  ¬ (err &&& FEC_WR ≠ 0 ∧ pteCow s c va = true) →
    ∃ t, pgfaultEnd s c va err = .panics t ∧ ∀ i n, t.view i n = s.view i n

/-- `pgfault` panics in time only when the fault is neither a write nor on a copy-on-write page, or there is no
page for the copy. -/
theorem pgfault_contained_iff {M : Nat → Prop} {s : System} {c : Fin NENV} (h : Accounted M s) (hc : s.Live c)
    (va err : Nat) : Contained s c va err ↔ (err &&& FEC_WR ≠ 0 ∧ pteCow s c va = true) ∨
      (err &&& FEC_WR = 0 ∧ pteCow s c va = false) ∨ ScratchShort s c := by
  by_cases hcheck : err &&& FEC_WR = 0 ∧ pteCow s c va = false
  · refine iff_of_true (fun _ => ⟨s, ?_, fun _ _ => rfl⟩) (.inr (.inl hcheck))
    unfold pgfaultEnd
    exact if_pos hcheck
  by_cases hcow : err &&& FEC_WR ≠ 0 ∧ pteCow s c va = true
  · exact iff_of_true (fun hnot => absurd hcow hnot) (.inl hcow)
  -- a write to another page, or a read of a copy-on-write page
  have hend : pgfaultEnd s c va err = insist (s.sysPageAlloc c 0 (BitVec.ofNat 32 PFTEMP)
      (permArg (PTE_W ||| PTE_U ||| PTE_P))) _ := if_neg hcheck
  rw [Contained, hend]
  rcases scratch_cases h hc with ⟨hshort, t, ho, hview⟩ | ⟨hshort, ho⟩
  · refine iff_of_true (fun _ => ⟨t, ?_, hview⟩) (.inr (.inr hshort))
    rw [ho]
    rfl
  · refine iff_of_false (fun hcont => ?_) ?_
    · obtain ⟨t, ht, hview⟩ := hcont hcow
      rcases ho with ho | ⟨u, ho⟩
      · rw [ho] at ht
        cases ht
      · rw [ho] at ht
        exact scratch_remains h hc ho ht (hview c _)
    · rintro (hw | hr | hs)
      · exact hcow hw
      · exact hcheck hr
      · exact hshort hs

/-- A read of an address that is not mapped. -/
theorem pgfault_contained_read : Contained sampleSystem 1 0x900000 0 :=
  (pgfault_contained_iff sampleSystem_accounted (by decide) 0x900000 0).mpr (.inr (.inl (by decide)))

/-- A write to the read-only page of the program makes it writable. -/
theorem pgfault_makes_writable : ¬ ∀ (M : Nat → Prop) (s : System) (c : Fin NENV) (va err : Nat), Accounted M s →
    s.Live c → Contained s c va err := by
  intro hall
  obtain ⟨t, ht, -⟩ := hall SamplePage sampleSystem 1 0x801000 FEC_WR sampleSystem_accounted (by decide) (by decide)
  obtain ⟨u, hu⟩ : ∃ u, pgfaultEnd sampleSystem 1 0x801000 FEC_WR = .resolved u := ⟨_, rfl⟩
  rw [hu] at ht
  cases ht

end DamnOS.User
