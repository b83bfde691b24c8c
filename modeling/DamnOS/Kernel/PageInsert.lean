import DamnOS.Kernel.Reclaim

/-!
# Inserting and removing a mapping

What `page_insert` and `page_remove` do to the translations of a page directory, to the counts and to
the free list, with the page table that `page_insert` may have to make.
-/

namespace DamnOS.Kernel

open DamnOS.Framework

namespace Pmap

section List

variable {m m' : Pmap} {p q : Nat} {xs : List Nat}

private theorem listed_iff (h : Chain m.ppLink m.pageFreeList xs) : m.Listed p ↔ p ∈ xs := by
  constructor
  · rintro ⟨ys, hys, hp⟩
    rwa [hys.unique h] at hp
  · intro hp
    exact ⟨xs, h, hp⟩

@[simp] theorem incRef_listed : (m.incRef q).Listed p ↔ m.Listed p := Iff.rfl

@[simp] theorem setRef_listed {n : Nat} : (m.setRef q n).Listed p ↔ m.Listed p := Iff.rfl

@[simp] theorem store_listed {i w : Nat} : (m.store q i w).Listed p ↔ m.Listed p := Iff.rfl

private theorem listed_head (h : m.Unlinked) (hq : m.pageFreeList = some q) : m.Listed q := by
  obtain ⟨xs, hxs⟩ := h.1
  rw [listed_iff hxs]
  cases xs with
  | nil => exact absurd (hq.symm.trans hxs) (by simp)
  | cons x xs =>
    obtain rfl : q = x := Option.some.inj (hq.symm.trans hxs.1)
    simp

private theorem listed_taken (h : m.Unlinked) (hq : m.pageFreeList = some q) :
    (m.taken q).Listed p ↔ m.Listed p ∧ p ≠ q := by
  obtain ⟨xs, hxs⟩ := h.1
  cases xs with
  | nil => exact absurd (hq.symm.trans hxs) (by simp)
  | cons x xs =>
    obtain rfl : q = x := Option.some.inj (hq.symm.trans hxs.1)
    have hpop : Chain (m.taken q).ppLink (m.taken q).pageFreeList xs := hxs.pop
    rw [listed_iff hpop, listed_iff hxs, List.mem_cons]
    have hnot := (List.nodup_cons.mp hxs.nodup).1
    constructor
    · intro hp
      exact ⟨.inr hp, ne_of_mem_of_not_mem hp hnot⟩
    · rintro ⟨rfl | hp, hne⟩
      · exact absurd rfl hne
      · exact hp

private theorem incRef_ppRef (m : Pmap) (p q : Nat) :
    (m.incRef p).ppRef q = if q = p then (m.ppRef q + 1) % 65536 else m.ppRef q := by
  unfold incRef setRef
  by_cases hq : q = p
  · simp [hq]
  · simp [hq]

private theorem Unlinked.pageDecref_spec (h : m.Unlinked) (hp : ¬ m.Listed p) :
    ∃ m', m.pageDecref p = some m' ∧ m'.mem = m.mem ∧
      (∀ q, m'.ppRef q = if q = p then (m.ppRef q + 65535) % 65536 else m.ppRef q) ∧
      ∀ q, m'.Listed q ↔ m.Listed q ∨ (q = p ∧ m'.ppRef q = 0) := by
  obtain ⟨xs, hxs⟩ := h.1
  have hlink := h.2 p hp
  have hcount (q : Nat) : (m.setRef p (m.ppRef p + 65535)).ppRef q
      = if q = p then (m.ppRef q + 65535) % 65536 else m.ppRef q := by
    by_cases hq : q = p
    · simp [setRef, hq]
    · simp [setRef, hq]
  unfold Pmap.pageDecref
  simp only
  split
  · next hz =>
    have hlink' : (m.setRef p (m.ppRef p + 65535)).ppLink p = none := hlink
    unfold Pmap.pageFree
    rw [if_neg (not_not.mpr hz), if_neg (not_not.mpr hlink')]
    refine ⟨_, rfl, rfl, hcount, fun q => ?_⟩
    have hpx : p ∉ xs := fun hmem => hp ((listed_iff hxs).mpr hmem)
    have hpush := hxs.push hpx
    refine (listed_iff (m := ⟨_, _, _, _, _⟩) hpush).trans ?_
    rw [listed_iff hxs, List.mem_cons, or_comm]
    refine or_congr_right ⟨?_, fun hq => hq.1⟩
    rintro rfl
    exact ⟨rfl, hz⟩
  · next hz =>
    refine ⟨_, rfl, rfl, hcount, fun q => ?_⟩
    rw [setRef_listed]
    constructor
    · exact .inl
    · rintro (hq | ⟨rfl, hq⟩)
      · exact hq
      · exact absurd hq hz

end List

/-- `va` translates to `p` with the flags `bits`. -/
def Translates (m : Pmap) (pgdir va p bits : Nat) : Prop :=
  ∃ w, m.mapping pgdir va = some w ∧ pa2page (PTE_ADDR w) = p ∧ w % PGSIZE = bits

def formerly (m : Pmap) (pgdir va : Nat) : Option Nat :=
  (m.mapping pgdir va).map fun w => pa2page (PTE_ADDR w)

/-- The page that `page_insert` takes for the page table of `va`. -/
def made (m : Pmap) (pgdir va : Nat) : Option Nat :=
  if m.mem pgdir (PDX va) = 0 then m.pageFreeList else none

/-- Addresses outside the page numbers of `D` translate as before. -/
def SameOutside (D : Nat → Prop) (pgdir : Nat) (m m' : Pmap) : Prop :=
  ∀ va < 2 ^ 32, ¬ D (PGNUM va) → m'.mapping pgdir va = m.mapping pgdir va

/-- `va` is mapped to `pp`.  The page that was there loses a reference and goes to the free list if
that was the last one; the page for a new page table leaves the list with one reference. -/
structure Inserted (D : Nat → Prop) (pgdir pp va perm : Nat) (m m' : Pmap) : Prop where
  here : m'.Translates pgdir va pp (perm ||| PTE_P)
  other : SameOutside D pgdir m m'
  count : ∀ p, m'.ppRef p = (m.ppRef p + (if p = pp then 1 else 0)
    + (if m.made pgdir va = some p then 1 else 0)
    + if m.formerly pgdir va = some p then 65535 else 0) % 65536
  list : ∀ p, m'.Listed p ↔ (m.Listed p ∧ m.made pgdir va ≠ some p) ∨
    (m.formerly pgdir va = some p ∧ m'.ppRef p = 0)

/-- The page at `va` is unmapped. -/
structure Removed (D : Nat → Prop) (pgdir va : Nat) (m m' : Pmap) : Prop where
  here : m'.mapping pgdir va = none
  other : SameOutside D pgdir m m'
  count : ∀ p, m'.ppRef p = (m.ppRef p + if m.formerly pgdir va = some p then 65535 else 0) % 65536
  list : ∀ p, m'.Listed p ↔ m.Listed p ∨ (m.formerly pgdir va = some p ∧ m'.ppRef p = 0)

/-- `page_insert` does not panic.  It inserts the page, or fails and changes nothing. -/
def InsertsPage (D : Nat → Prop) (m : Pmap) (pgdir pp va perm : Nat) : Prop :=
  ∃ b m', m.pageInsert pgdir pp va perm = some (b, m') ∧
    (b = true → Inserted D pgdir pp va perm m m') ∧ (b = false → m' = m)

def RemovesPage (D : Nat → Prop) (m : Pmap) (pgdir va : Nat) : Prop :=
  ∃ m', m.pageRemove pgdir va = some m' ∧ Removed D pgdir va m m'

/-- Pages outside the free list have no link, no page table of the directory and no page that it maps
for user code is on the list, and page 0 is not mapped. -/
structure Sound (m : Pmap) (pgdir : Nat) : Prop where
  unlinked : m.Unlinked
  small : ∀ p, m.Listed p → p < 2 ^ 20
  bound : ∀ p, m.ppRef p < 65536
  tables : ∀ d pt, d < 1024 → named (m.mem pgdir d) = some pt → ¬ m.Listed pt
  pages : ∀ d pt t p, d < NUPDE → named (m.mem pgdir d) = some pt → t < 1024 →
    named (m.mem pt t) = some p → ¬ m.Listed p ∧ p ≠ 0

/-- The directory is one that the kernel has built: its entry for `UVPT` names itself, every page
table stands in one entry, and entries that are not empty are present. -/
structure Built (m : Pmap) (pgdir : Nat) : Prop where
  self : named (m.mem pgdir (PDX UVPT)) = some pgdir
  once : ∀ d d' pt, d < 1024 → d' < 1024 → named (m.mem pgdir d) = some pt →
    named (m.mem pgdir d') = some pt → d = d'
  pde : ∀ d < NUPDE, m.mem pgdir d ≠ 0 → m.mem pgdir d &&& PTE_P ≠ 0
  pte : ∀ d pt t, d < NUPDE → named (m.mem pgdir d) = some pt → t < 1024 → m.mem pt t ≠ 0 →
    m.mem pt t &&& PTE_P ≠ 0

/-- The page of `va`, and the page of the `UVPT` window where a new page table shows up. -/
def Affected (m : Pmap) (pgdir va n : Nat) : Prop :=
  n = PGNUM va ∨ (m.made pgdir va ≠ none ∧ n = PGNUM (UVPT + PDX va * PGSIZE))

section Insert

variable {m m' : Pmap} {pgdir pp va perm q w : Nat}

private theorem PDX_lt (la : Nat) : PDX la < 1024 := by
  rw [PDX_eq]
  omega

private theorem page_differs {va' : Nat} (hva : va < 2 ^ 32) (hva' : va' < 2 ^ 32) (hne : PGNUM va' ≠ PGNUM va) :
    PDX va' ≠ PDX va ∨ PTX va' ≠ PTX va := by
  rw [PGNUM_eq, PGNUM_eq] at hne
  simp only [PDX_eq, PTX_eq]
  omega

private theorem lt_two_pow (hva : va < UTOP) : va < 2 ^ 32 := hva.trans (by decide)

private theorem Built.named_tableOf (h : m.Built pgdir) (hva : va < UTOP) (h0 : m.mem pgdir (PDX va) ≠ 0) :
    named (m.mem pgdir (PDX va)) = some (m.tableOf pgdir va) :=
  named_eq_some.mpr ⟨h.pde _ (PDX_lt_of_lt_UTOP hva) h0, rfl⟩

theorem Built.table_ne_dir (h : m.Built pgdir) (hva : va < UTOP) (h0 : m.mem pgdir (PDX va) ≠ 0) :
    pgdir ≠ m.tableOf pgdir va := by
  intro hg
  have hname := h.named_tableOf hva h0
  rw [← hg] at hname
  have hpdx := h.once _ _ _ (PDX_lt va) (PDX_lt UVPT) hname h.self
  have hlt := PDX_lt_of_lt_UTOP hva
  rw [hpdx] at hlt
  revert hlt
  decide

private theorem Built.store_same (h : m.Built pgdir) (hva : va < UTOP) (h0 : m.mem pgdir (PDX va) ≠ 0)
    (hmem : m'.mem = (m.store (m.tableOf pgdir va) (PTX va) w).mem) :
    SameOutside (· = PGNUM va) pgdir m m' := by
  intro va' hva' hne
  have hslot := page_differs (lt_two_pow hva) hva' hne
  apply mapping_congr
  · rw [hmem, store_mem_page (h.table_ne_dir hva h0)]
  · intro hp
    rw [hmem]
    by_cases ht : m.tableOf pgdir va' = m.tableOf pgdir va
    · have hname : named (m.mem pgdir (PDX va')) = some (m.tableOf pgdir va) :=
        named_eq_some.mpr ⟨hp, ht⟩
      have hpdx := h.once _ _ _ (PDX_lt va') (PDX_lt va) hname (h.named_tableOf hva h0)
      exact store_mem_word (hslot.resolve_left fun hx => hx hpdx)
    · rw [store_mem_page ht]

private theorem Built.store_here (h : m.Built pgdir) (hva : va < UTOP) (h0 : m.mem pgdir (PDX va) ≠ 0)
    (hmem : m'.mem = (m.store (m.tableOf pgdir va) (PTX va) w).mem) :
    m'.mapping pgdir va = if w &&& PTE_P = 0 then none else some w := by
  have hdir : m'.mem pgdir = m.mem pgdir := by rw [hmem, store_mem_page (h.table_ne_dir hva h0)]
  have htable : m'.tableOf pgdir va = m.tableOf pgdir va := by rw [tableOf, tableOf, hdir]
  have hword : m'.mem (m.tableOf pgdir va) (PTX va) = w := by rw [hmem, store_mem_self]
  rw [mapping, htable, hdir, hword, if_neg (h.pde _ (PDX_lt_of_lt_UTOP hva) h0)]

private theorem Built.formerly_eq (h : m.Built pgdir) (hva : va < UTOP) (h0 : m.mem pgdir (PDX va) ≠ 0) :
    m.formerly pgdir va = named (m.mem (m.tableOf pgdir va) (PTX va)) := by
  rw [formerly, mapping, if_neg (h.pde _ (PDX_lt_of_lt_UTOP hva) h0), named]
  split
  · rfl
  · rfl

private theorem translates_entry (hpp : pp < 2 ^ 20) (hperm : perm < 4096)
    (h : m.mapping pgdir va = some (entry pp perm)) : m.Translates pgdir va pp (perm ||| PTE_P) := by
  refine ⟨_, h, pa2page_entry hpp hperm, ?_⟩
  have hlt := or_one_lt hperm
  rw [entry_eq hperm, PGSIZE]
  omega

theorem SameOutside.mono {D D' : Nat → Prop} (h : SameOutside D pgdir m m') (hD : ∀ n, D n → D' n) :
    SameOutside D' pgdir m m' := fun va hva hn => h va hva fun hd => hn (hD _ hd)

private theorem installPte_empty {pt i : Nat} (hw : PTE_ADDR (m.mem pt i) = 0) :
    m.installPte pgdir pp va perm pt i = some ((m.incRef pp).store pt i (entry pp perm)) := by
  simp [installPte, hw]

private theorem installPte_replace {u : Pmap} (h0 : m.mem pgdir (PDX va) ≠ 0)
    (hw : PTE_ADDR (m.mem (m.tableOf pgdir va) (PTX va)) ≠ 0)
    (hu : (m.incRef pp).pageDecref (pa2page (PTE_ADDR (m.mem (m.tableOf pgdir va) (PTX va)))) = some u) :
    m.installPte pgdir pp va perm (m.tableOf pgdir va) (PTX va)
      = some (u.store (m.tableOf pgdir va) (PTX va) (entry pp perm)) := by
  have h0' : (m.incRef pp).mem pgdir (PDX va) ≠ 0 := h0
  have htable : (m.incRef pp).tableOf pgdir va = m.tableOf pgdir va := rfl
  have hremove : (m.incRef pp).pageRemove pgdir va = some (u.store (m.tableOf pgdir va) (PTX va) 0) := by
    rw [pageRemove, pageLookup_found h0', htable, incRef_mem]
    simp [hu]
  have hw' : PTE_ADDR ((m.incRef pp).mem (m.tableOf pgdir va) (PTX va)) ≠ 0 := hw
  rw [installPte, if_pos hw', hremove, Option.map_some, store_store]

private theorem Sound.formerly_page (hs : m.Sound pgdir) (hr : m.Built pgdir) (hva : va < UTOP)
    (h0 : m.mem pgdir (PDX va) ≠ 0) (hw : m.mem (m.tableOf pgdir va) (PTX va) = w) (hne : w ≠ 0) :
    m.formerly pgdir va = some (pa2page (PTE_ADDR w)) ∧ ¬ m.Listed (pa2page (PTE_ADDR w)) ∧
      PTE_ADDR w ≠ 0 := by
  have hT := hr.named_tableOf hva h0
  have hd := PDX_lt_of_lt_UTOP hva
  have hpresent := hr.pte _ _ _ hd hT (PTX_lt va) (by rwa [hw])
  have hname : named (m.mem (m.tableOf pgdir va) (PTX va)) = some (pa2page (PTE_ADDR w)) :=
    named_eq_some.mpr ⟨hpresent, by rw [hw]⟩
  obtain ⟨hlisted, hzero⟩ := hs.pages _ _ _ _ hd hT (PTX_lt va) hname
  refine ⟨(hr.formerly_eq hva h0).trans hname, hlisted, fun h => hzero ?_⟩
  rw [h]
  rfl

private theorem made_found (h0 : m.mem pgdir (PDX va) ≠ 0) : m.made pgdir va = none := if_neg h0

private theorem Sound.insert_found (hs : m.Sound pgdir) (hr : m.Built pgdir) (hpp : pp < 2 ^ 20)
    (hva : va < UTOP) (hperm : perm < 4096) (h0 : m.mem pgdir (PDX va) ≠ 0) :
    ∃ m', m.pageInsert pgdir pp va perm = some (true, m') ∧
      Inserted (m.Affected pgdir va) pgdir pp va perm m m' := by
  have hmade : m.made pgdir va = none := made_found h0
  rw [pageInsert_found h0]
  generalize hw : m.mem (m.tableOf pgdir va) (PTX va) = w
  -- the translations depend on memory alone, which is the same in both cases
  have hmaps {m' : Pmap} (hmem : m'.mem = (m.store (m.tableOf pgdir va) (PTX va) (entry pp perm)).mem) :
      m'.Translates pgdir va pp (perm ||| PTE_P) ∧ SameOutside (m.Affected pgdir va) pgdir m m' := by
    refine ⟨translates_entry hpp hperm ?_, (hr.store_same hva h0 hmem).mono fun n hn => .inl hn⟩
    rw [hr.store_here hva h0 hmem, if_neg (entry_present pp perm)]
  by_cases hzero : w = 0
  · have hold : m.formerly pgdir va = none := by rw [hr.formerly_eq hva h0, hw, hzero, named_zero]
    rw [installPte_empty (by rw [hw, hzero]; rfl)]
    have hmem : ((m.incRef pp).store (m.tableOf pgdir va) (PTX va) (entry pp perm)).mem =
        (m.store (m.tableOf pgdir va) (PTX va) (entry pp perm)).mem := store_congr rfl
    obtain ⟨hhere, hother⟩ := hmaps hmem
    refine ⟨_, rfl, hhere, hother, fun p => ?_, fun p => ?_⟩
    · have hbound := hs.bound p
      change (m.incRef pp).ppRef p = _
      rw [incRef_ppRef, hmade, hold]
      simp only [reduceCtorEq, if_false]
      split
      · omega
      · omega
    · rw [hmade, hold, store_listed, incRef_listed]
      simp
  · obtain ⟨hold, hlisted, haddr⟩ := hs.formerly_page hr hva h0 hw hzero
    have hunlinked : (m.incRef pp).Unlinked := hs.unlinked.congr rfl rfl
    obtain ⟨u, hu, hmem, hcount, hlist⟩ := hunlinked.pageDecref_spec (p := pa2page (PTE_ADDR w))
      (by rwa [incRef_listed])
    rw [installPte_replace h0 (by rwa [hw]) (by rw [hw]; exact hu)]
    have hstored : (u.store (m.tableOf pgdir va) (PTX va) (entry pp perm)).mem =
        (m.store (m.tableOf pgdir va) (PTX va) (entry pp perm)).mem :=
      store_congr (hmem.trans (incRef_mem m pp))
    obtain ⟨hhere, hother⟩ := hmaps hstored
    refine ⟨_, rfl, hhere, hother, fun p => ?_, fun p => ?_⟩
    · have hbound := hs.bound p
      change u.ppRef p = _
      rw [hcount, incRef_ppRef, hmade, hold]
      simp only [Option.some.injEq, reduceCtorEq, if_false, eq_comm (a := pa2page (PTE_ADDR w))]
      split
      · split
        · omega
        · omega
      · split
        · omega
        · omega
    · rw [hmade, hold, store_listed, hlist p, incRef_listed]
      simp only [ne_eq, reduceCtorEq, not_false_eq_true, and_true, Option.some.injEq,
        eq_comm (a := pa2page (PTE_ADDR w))]
      rfl

/-- The new page table shows up in the window at `UVPT`, and holds nothing but the entry for `va`. -/
theorem Built.create_same (hr : m.Built pgdir) (hs : m.Sound pgdir) (hva : va < UTOP)
    (h0 : m.mem pgdir (PDX va) = 0) (hq : m.pageFreeList = some q)
    (hmem : m'.mem = ((m.withTable pgdir va q).store q (PTX va) w).mem) :
    SameOutside (m.Affected pgdir va) pgdir m m' := by
  intro va' hva' hno
  have hmade : m.made pgdir va = some q := (if_pos h0).trans hq
  simp only [Affected, hmade, ne_eq, reduceCtorEq, not_false_eq_true, true_and, not_or] at hno
  have hlisted := listed_head hs.unlinked hq
  have hqlt := hs.small q hlisted
  have hqg : pgdir ≠ q := by
    rintro rfl
    exact hs.tables _ _ (PDX_lt UVPT) hr.self hlisted
  by_cases hpdx : PDX va' = PDX va
  · have hptx := (page_differs (lt_two_pow hva) hva' hno.1).resolve_left fun hx => hx hpdx
    have hold : m.mapping pgdir va' = none := by simp [mapping, hpdx, h0]
    have hpde : m'.mem pgdir (PDX va') = entry q (PTE_W ||| PTE_U) := by
      rw [hmem, store_mem_page hqg, hpdx, withTable_pde h0]
    have htable : m'.tableOf pgdir va' = q := by
      rw [tableOf, hpde, pa2page_entry hqlt (by decide)]
    have hword : m'.mem q (PTX va') = 0 := by
      rw [hmem, store_mem_word hptx, withTable_mem_table hqg.symm]
    rw [hold]
    simp [mapping, htable, hword]
  · apply mapping_congr
    · rw [hmem, store_mem_page hqg, withTable_mem_pde hqg hpdx]
    · intro hp
      have hname : named (m.mem pgdir (PDX va')) = some (m.tableOf pgdir va') := named_eq_some.mpr ⟨hp, rfl⟩
      have htq : m.tableOf pgdir va' ≠ q := by
        intro hx
        rw [hx] at hname
        exact hs.tables _ _ (PDX_lt va') hname hlisted
      rw [hmem, store_mem_page htq]
      by_cases htg : m.tableOf pgdir va' = pgdir
      · -- an address in the window, for another entry of the directory
        rw [htg] at hname ⊢
        have hwin := hr.once _ _ _ (PDX_lt va') (PDX_lt UVPT) hname hr.self
        refine withTable_mem_pde hqg fun hptx => hno.2 ?_
        have huvpt : UVPT = 957 * 4194304 := by decide
        have hlt := PDX_lt va
        rw [← hptx] at hlt ⊢
        rw [PGNUM_eq, PGNUM_eq, PGSIZE, huvpt, PTX_eq]
        rw [PDX_eq, PDX_eq, huvpt] at hwin
        omega
      · rw [withTable_mem_page htg htq]

private theorem Sound.insert_create (hs : m.Sound pgdir) (hr : m.Built pgdir) (hpp : pp < 2 ^ 20)
    (hfree : ¬ m.Listed pp) (hva : va < UTOP) (hperm : perm < 4096) (h0 : m.mem pgdir (PDX va) = 0)
    (hq : m.pageFreeList = some q) :
    ∃ m', m.pageInsert pgdir pp va perm = some (true, m') ∧
      Inserted (m.Affected pgdir va) pgdir pp va perm m m' := by
  have hlisted := listed_head hs.unlinked hq
  have hqlt := hs.small q hlisted
  have hqg : pgdir ≠ q := by
    rintro rfl
    exact hs.tables _ _ (PDX_lt UVPT) hr.self hlisted
  have hqp : q ≠ pp := by
    rintro rfl
    exact hfree hlisted
  have hmade : m.made pgdir va = some q := (if_pos h0).trans hq
  have hold : m.formerly pgdir va = none := by simp [formerly, mapping, h0]
  have hempty : PTE_ADDR ((m.withTable pgdir va q).mem q (PTX va)) = 0 := by
    rw [withTable_mem_table hqg.symm]
    exact Nat.zero_and _
  rw [pageInsert_create h0 hq, withTable_tableOf h0 hqlt, installPte_empty hempty]
  have hmem : (((m.withTable pgdir va q).incRef pp).store q (PTX va) (entry pp perm)).mem
      = ((m.withTable pgdir va q).store q (PTX va) (entry pp perm)).mem := store_congr rfl
  generalize hm' : ((m.withTable pgdir va q).incRef pp).store q (PTX va) (entry pp perm) = m' at hmem ⊢
  have hpde : m'.mem pgdir (PDX va) = entry q (PTE_W ||| PTE_U) := by
    rw [hmem, store_mem_page hqg, withTable_pde h0]
  refine ⟨m', rfl, translates_entry hpp hperm (mapping_eq_some.mpr ⟨?_, ?_, entry_present pp perm⟩),
    hr.create_same hs hva h0 hq hmem, fun p => ?_, fun p => ?_⟩
  · rw [hpde]
    exact entry_present q _
  · rw [tableOf, hpde, pa2page_entry hqlt (by decide), hmem, store_mem_self]
  · have hbound := hs.bound p
    have hrefs : m'.ppRef p = (((m.taken q).incRef q).incRef pp).ppRef p := by
      rw [← hm']
      rfl
    rw [hrefs, incRef_ppRef, incRef_ppRef, hmade, hold, show (m.taken q).ppRef = m.ppRef by rfl]
    simp only [Option.some.injEq, reduceCtorEq, if_false, eq_comm (a := q)]
    by_cases hp : p = pp
    · have hpq : p ≠ q := by
        rw [hp]
        exact hqp.symm
      rw [if_pos hp, if_neg hpq, if_pos hp, if_neg hpq]
    · rw [if_neg hp, if_neg hp]
      split
      · omega
      · omega
  · have hlist : m'.Listed p ↔ (m.taken q).Listed p := by
      rw [← hm']
      exact Iff.rfl
    rw [hlist, listed_taken hs.unlinked hq, hmade, hold]
    simp [eq_comm]

theorem Sound.removes (hs : m.Sound pgdir) (hr : m.Built pgdir) (hva : va < UTOP)
    (hmapped : m.mapping pgdir va ≠ none) : RemovesPage (· = PGNUM va) m pgdir va := by
  obtain ⟨w, hw⟩ := Option.ne_none_iff_exists'.mp hmapped
  obtain ⟨hpde, hword, hpresent⟩ := mapping_eq_some.mp hw
  have h0 : m.mem pgdir (PDX va) ≠ 0 := by
    intro h0
    simp [h0] at hpde
  obtain ⟨hold, hlisted, -⟩ := hs.formerly_page hr hva h0 hword (by rintro rfl; simp at hpresent)
  obtain ⟨u, hu, hmem, hcount, hlist⟩ := hs.unlinked.pageDecref_spec hlisted
  have hremove : m.pageRemove pgdir va = some (u.store (m.tableOf pgdir va) (PTX va) 0) := by
    rw [pageRemove, pageLookup_found h0, hword]
    simp [hu]
  have hstore : (u.store (m.tableOf pgdir va) (PTX va) 0).mem
      = (m.store (m.tableOf pgdir va) (PTX va) 0).mem := store_congr hmem
  refine ⟨_, hremove, ?_, hr.store_same hva h0 hstore, fun p => ?_, fun p => ?_⟩
  · rw [hr.store_here hva h0 hstore]
    rfl
  · have hbound := hs.bound p
    change u.ppRef p = _
    rw [hcount, hold]
    simp only [Option.some.injEq, eq_comm (a := pa2page (PTE_ADDR w))]
    split
    · rfl
    · omega
  · rw [hold, store_listed, hlist p]
    simp only [Option.some.injEq, eq_comm (a := pa2page (PTE_ADDR w))]
    rfl

/-- `page_insert` maps one page and `page_remove` unmaps one, on a directory that the kernel built. -/
theorem page_insert_remove (hs : m.Sound pgdir) (hr : m.Built pgdir) (hva : va < UTOP) :
    (∀ pp perm, pp < 2 ^ 20 → ¬ m.Listed pp → perm < 4096 →
      InsertsPage (m.Affected pgdir va) m pgdir pp va perm) ∧
    (m.mapping pgdir va ≠ none → RemovesPage (· = PGNUM va) m pgdir va) := by
  refine ⟨fun pp perm hpp hfree hperm => ?_, hs.removes hr hva⟩
  by_cases h0 : m.mem pgdir (PDX va) = 0
  · cases hq : m.pageFreeList with
    | none => exact ⟨false, m, pageInsert_full h0 hq, (fun hb => by cases hb), fun _ => rfl⟩
    | some q =>
      obtain ⟨m', hm', hinserted⟩ := hs.insert_create hr hpp hfree hva hperm h0 hq
      exact ⟨true, m', hm', fun _ => hinserted, (fun hb => by cases hb)⟩
  · obtain ⟨m', hm', hinserted⟩ := hs.insert_found hr hpp hva hperm h0
    exact ⟨true, m', hm', fun _ => hinserted, (fun hb => by cases hb)⟩

end Insert

private theorem samplePmap_pde_all {d pt : Nat} (h : named (samplePmap.mem 302 d) = some pt) :
    (d = 2 ∧ pt = 303) ∨ (d = PDX UVPT ∧ pt = 302) := by
  by_cases h2 : d = 2
  · subst h2
    exact .inl ⟨rfl, (Option.some.inj ((show named (samplePmap.mem 302 2) = some 303 by decide).symm.trans h)).symm⟩
  · by_cases hu : d = PDX UVPT
    · subst hu
      exact .inr ⟨rfl, (Option.some.inj ((show named (samplePmap.mem 302 (PDX UVPT)) = some 302 by
        decide).symm.trans h)).symm⟩
    · have hzero : samplePmap.mem 302 d = 0 := by simp [samplePmap, h2, hu]
      rw [hzero] at h
      cases h

private theorem samplePmap_listed {p : Nat} : samplePmap.Listed p ↔ 306 ≤ p ∧ p ≤ 312 := by
  rw [listed_iff (m := samplePmap) sampleSystem_balanced.chain]
  simp only [List.mem_cons, List.not_mem_nil, or_false]
  omega

private theorem samplePmap_sound : samplePmap.Sound 302 where
  unlinked := sampleSystem_balanced.unlinked
  small p hp := by
    have := samplePmap_listed.mp hp
    omega
  bound := sampleSystem_balanced.bound
  tables d pt _ hpt hl := by
    have := samplePmap_listed.mp hl
    rcases samplePmap_pde_all hpt with ⟨-, rfl⟩ | ⟨-, rfl⟩
    · omega
    · omega
  pages d pt t p hd hpt _ hp := by
    rcases samplePmap_pde_all hpt with ⟨-, rfl⟩ | ⟨rfl, -⟩
    · have h0 : samplePmap.mem 303 t ≠ 0 := by
        intro h0
        rw [h0] at hp
        cases hp
      have hpage : p = 304 ∨ p = 305 := by
        rcases samplePmap_pte h0 with rfl | rfl
        · exact .inl (Option.some.inj (hp.symm.trans (by decide)))
        · exact .inr (Option.some.inj (hp.symm.trans (by decide)))
      rw [samplePmap_listed]
      omega
    · exact absurd hd (by decide)

private theorem samplePmap_built : samplePmap.Built 302 where
  self := by decide
  once d d' pt _ _ hd hd' := by
    rcases samplePmap_pde_all hd with ⟨rfl, rfl⟩ | ⟨rfl, rfl⟩
    · rcases samplePmap_pde_all hd' with ⟨rfl, -⟩ | ⟨-, hpt⟩
      · rfl
      · cases hpt
    · rcases samplePmap_pde_all hd' with ⟨-, hpt⟩ | ⟨rfl, -⟩
      · cases hpt
      · rfl
  pde d hd h0 := by
    obtain ⟨-, rfl⟩ := samplePmap_pde (.inr rfl) hd h0
    decide
  pte d pt t hd hpt _ h0 := by
    rcases samplePmap_pde_all hpt with ⟨-, rfl⟩ | ⟨rfl, -⟩
    · rcases samplePmap_pte h0 with rfl | rfl
      · decide
      · decide
    · exact absurd hd (by decide)

theorem page_insert_remove_program : samplePmap.Sound 302 ∧
    InsertsPage (samplePmap.Affected 302 0x800000) samplePmap 302 305 0x800000 PTE_U ∧
      RemovesPage (· = PGNUM 0x800000) samplePmap 302 0x800000 := by
  have hva : 0x800000 < UTOP := by decide
  obtain ⟨hinsert, hremove⟩ := page_insert_remove samplePmap_sound samplePmap_built hva
  refine ⟨samplePmap_sound, hinsert 305 PTE_U (by decide) ?_ (by decide), hremove (by decide)⟩
  rw [samplePmap_listed]
  decide

/-- The program's page table stands in two entries of its directory. -/
def twicePmap : Pmap := samplePmap.store 302 3 (entry 303 (PTE_W ||| PTE_U))

private theorem twicePmap_sound : twicePmap.Sound 302 := by
  have hpde {d pt : Nat} (h : named (twicePmap.mem 302 d) = some pt) :
      ∃ d', (d < NUPDE → d' < NUPDE) ∧ d' < 1024 ∧ named (samplePmap.mem 302 d') = some pt := by
    by_cases h3 : d = 3
    · subst h3
      have htwo : named (samplePmap.mem 302 2) = named (twicePmap.mem 302 3) := by decide
      exact ⟨2, fun _ => by decide, by decide, htwo.trans h⟩
    · have hd : named (samplePmap.mem 302 d) = some pt := by
        rwa [twicePmap, store_mem_word h3] at h
      refine ⟨d, id, ?_, hd⟩
      rcases samplePmap_pde_all hd with ⟨rfl, -⟩ | ⟨rfl, -⟩
      · decide
      · decide
  refine ⟨samplePmap_sound.unlinked, samplePmap_sound.small, samplePmap_sound.bound,
    fun d pt _ hpt hl => ?_, fun d pt t p hd hpt ht hp => ?_⟩
  · obtain ⟨d', -, hd', hpt'⟩ := hpde hpt
    exact samplePmap_sound.tables d' pt hd' hpt' hl
  · obtain ⟨d', hd', -, hpt'⟩ := hpde hpt
    have hne : pt ≠ 302 := by
      rintro rfl
      rcases samplePmap_pde_all hpt' with ⟨-, h⟩ | ⟨rfl, -⟩
      · cases h
      · exact absurd (hd' hd) (by decide)
    rw [twicePmap, store_mem_page hne] at hp
    exact samplePmap_sound.pages d' pt t p (hd' hd) hpt' ht hp

/-- A new page table changes what is seen through `UVPT`; a page table in two entries changes two
mappings; and flags above the low twelve bits change the page. -/
theorem page_insert_more : (¬ ∀ (m : Pmap) (pgdir pp va perm : Nat), m.Sound pgdir → m.Built pgdir →
      va < UTOP → pp < 2 ^ 20 → ¬ m.Listed pp → perm < 4096 →
        InsertsPage (· = PGNUM va) m pgdir pp va perm) ∧
    (¬ ∀ (m : Pmap) (pgdir pp va perm : Nat), m.Sound pgdir → va < UTOP → pp < 2 ^ 20 →
      ¬ m.Listed pp → perm < 4096 → InsertsPage (m.Affected pgdir va) m pgdir pp va perm) ∧
    ¬ ∀ (m : Pmap) (pgdir pp va perm : Nat), m.Sound pgdir → m.Built pgdir → va < UTOP →
      pp < 2 ^ 20 → ¬ m.Listed pp → perm < 2 ^ 31 →
        InsertsPage (m.Affected pgdir va) m pgdir pp va perm := by
  have hfree : ¬ samplePmap.Listed 304 := by
    rw [samplePmap_listed]
    decide
  refine ⟨fun hall => ?_, fun hall => ?_, fun hall => ?_⟩
  · obtain ⟨b, m', hm', hinserted, -⟩ := hall samplePmap 302 304 0x400000 PTE_U samplePmap_sound
      samplePmap_built (by decide) (by decide) hfree (by decide)
    have hnew : (samplePmap.pageInsert 302 304 0x400000 PTE_U).map
        (fun r => (r.1, r.2.mapping 302 (UVPT + PGSIZE))) = some (true, some (entry 306 (PTE_W ||| PTE_U))) := by
      decide
    rw [hm', Option.map_some, Option.some.injEq, Prod.mk.injEq] at hnew
    have hsame := (hinserted hnew.1).other (UVPT + PGSIZE) (by decide) (by decide)
    exact absurd (hnew.2.symm.trans hsame) (by decide)
  · obtain ⟨b, m', hm', hinserted, -⟩ := hall twicePmap 302 304 0x802000 PTE_U twicePmap_sound
      (by decide) (by decide) hfree (by decide)
    have hnew : (twicePmap.pageInsert 302 304 0x802000 PTE_U).map
        (fun r => (r.1, r.2.mapping 302 0xC02000)) = some (true, some (entry 304 PTE_U)) := by
      decide
    rw [hm', Option.map_some, Option.some.injEq, Prod.mk.injEq] at hnew
    have hsame := (hinserted hnew.1).other 0xC02000 (by decide) (by
      rintro (h | ⟨h, -⟩)
      · exact absurd h (by decide)
      · exact h (by decide))
    exact absurd (hnew.2.symm.trans hsame) (by decide)
  · obtain ⟨b, m', hm', hinserted, -⟩ := hall samplePmap 302 304 0x802000 0x1000 samplePmap_sound
      samplePmap_built (by decide) (by decide) hfree (by decide)
    have hnew : (samplePmap.pageInsert 302 304 0x802000 0x1000).map
        (fun r => (r.1, r.2.mapping 302 0x802000)) = some (true, some (entry 305 0)) := by
      decide
    rw [hm', Option.map_some, Option.some.injEq, Prod.mk.injEq] at hnew
    obtain ⟨w, hw, hpage, -⟩ := (hinserted hnew.1).here
    obtain rfl := Option.some.inj (hnew.2.symm.trans hw)
    exact absurd hpage (by decide)

end Pmap

end DamnOS.Kernel
