import DamnOS.Kernel.Startup

/-!
# The read-only window of the programs

Between `UENVS` and `UVPT` every program sees what `mem_init` mapped there.  The entries that
`boot_map_region` makes are followed through `mem_init`, with the pages that it takes for page
tables.
-/

namespace DamnOS.Kernel

open DamnOS.Framework

namespace Pmap

/-- The entry of the kernel for `va`; 0 where there is no page table. -/
def kernWord (m : Pmap) (va : Nat) : Nat :=
  if m.mem m.kernPgdir (PDX va) = 0 then 0 else m.mem (m.tableOf m.kernPgdir va) (PTX va)

/-- The page tables of the kernel are pages of their own, taken from the free list. -/
structure Laid (m : Pmap) (xs : List Nat) : Prop where
  chain : Chain m.ppLink m.pageFreeList xs
  small : ∀ p ∈ xs, p < 2 ^ 20
  kern : m.kernPgdir ∉ xs
  table : ∀ d, d ≠ PDX UVPT → m.mem m.kernPgdir d ≠ 0 → ∃ T < 2 ^ 20,
    m.mem m.kernPgdir d = entry T (PTE_W ||| PTE_U) ∧ T ∉ xs ∧ T ≠ m.kernPgdir
  distinct : ∀ d d', d ≠ PDX UVPT → d' ≠ PDX UVPT → m.mem m.kernPgdir d ≠ 0 →
    m.mem m.kernPgdir d = m.mem m.kernPgdir d' → d = d'

namespace Laid

variable {m m' : Pmap} {xs : List Nat} {va : Nat}

theorem tableOf (h : Laid m xs) (hva : PDX va ≠ PDX UVPT) (h0 : m.mem m.kernPgdir (PDX va) ≠ 0) :
    m.tableOf m.kernPgdir va ∉ xs ∧ m.tableOf m.kernPgdir va ≠ m.kernPgdir := by
  obtain ⟨T, hT, hentry, hxs, hk⟩ := h.table _ hva h0
  rw [Pmap.tableOf, hentry, pa2page_entry hT (by decide)]
  exact ⟨hxs, hk⟩

private theorem tableOf_inj {v : Nat} (h : Laid m xs) (hva : PDX va ≠ PDX UVPT) (hv : PDX v ≠ PDX UVPT)
    (h0 : m.mem m.kernPgdir (PDX va) ≠ 0) (hv0 : m.mem m.kernPgdir (PDX v) ≠ 0)
    (he : m.tableOf m.kernPgdir va = m.tableOf m.kernPgdir v) : PDX va = PDX v := by
  obtain ⟨T, hT, hentry, -⟩ := h.table _ hva h0
  obtain ⟨S, hS, hentry', -⟩ := h.table _ hv hv0
  rw [Pmap.tableOf, Pmap.tableOf, hentry, hentry', pa2page_entry hT (by decide),
    pa2page_entry hS (by decide)] at he
  exact h.distinct _ _ hva hv h0 (by rw [hentry, hentry', he])

private theorem mapping_eq (h : Laid m xs) (hva : PDX va ≠ PDX UVPT) (w : Nat) :
    m.mapping m.kernPgdir va = some w ↔ m.kernWord va = w ∧ w &&& PTE_P ≠ 0 := by
  rw [mapping_eq_some, kernWord]
  split_ifs with h0
  · simp only [h0, Nat.zero_and, ne_eq, not_true, false_and, false_iff, not_and, not_not]
    rintro rfl
    rfl
  · obtain ⟨T, hT, hentry, -⟩ := h.table _ hva h0
    exact and_iff_right (hentry ▸ entry_present _ _)

theorem store {w : Nat} (h : Laid m xs) (hva : PDX va ≠ PDX UVPT)
    (h0 : m.mem m.kernPgdir (PDX va) ≠ 0) :
    Laid (m.store (m.tableOf m.kernPgdir va) (PTX va) w) xs ∧ ∀ v, PDX v ≠ PDX UVPT →
      (m.store (m.tableOf m.kernPgdir va) (PTX va) w).kernWord v
        = if PDX v = PDX va ∧ PTX v = PTX va then w else m.kernWord v := by
  have hk := (h.tableOf hva h0).2
  have hdir : (m.store (m.tableOf m.kernPgdir va) (PTX va) w).mem m.kernPgdir
      = m.mem m.kernPgdir := store_mem_page hk.symm
  refine ⟨⟨h.chain, h.small, h.kern, ?_, ?_⟩, fun v hv => ?_⟩
  · intro d hd hd0
    rw [show (m.store (m.tableOf m.kernPgdir va) (PTX va) w).kernPgdir = m.kernPgdir by rfl,
      hdir] at hd0 ⊢
    exact h.table d hd hd0
  · intro d d' hd hd' hd0 he
    rw [show (m.store (m.tableOf m.kernPgdir va) (PTX va) w).kernPgdir = m.kernPgdir by rfl,
      hdir] at hd0 he
    exact h.distinct d d' hd hd' hd0 he
  · have htable : (m.store (m.tableOf m.kernPgdir va) (PTX va) w).tableOf m.kernPgdir v
        = m.tableOf m.kernPgdir v := by
      rw [Pmap.tableOf, hdir]
      rfl
    rw [kernWord, kernWord,
      show (m.store (m.tableOf m.kernPgdir va) (PTX va) w).kernPgdir = m.kernPgdir by rfl, hdir,
      htable]
    by_cases hsame : PDX v = PDX va ∧ PTX v = PTX va
    · rw [if_pos hsame, hsame.1, if_neg h0, hsame.2,
        show m.tableOf m.kernPgdir v = m.tableOf m.kernPgdir va by
          rw [Pmap.tableOf, Pmap.tableOf, hsame.1], store_mem_self]
    · rw [if_neg hsame]
      by_cases hv0 : m.mem m.kernPgdir (PDX v) = 0
      · rw [if_pos hv0, if_pos hv0]
      rw [if_neg hv0, if_neg hv0]
      by_cases ht : PTX v = PTX va
      · refine congrFun (store_mem_page fun he => hsame ⟨?_, ht⟩) _
        exact h.tableOf_inj hv hva hv0 h0 he
      · exact store_mem_word ht

theorem withTable {q : Nat} (h : Laid m (q :: xs)) (h0 : m.mem m.kernPgdir (PDX va) = 0) :
    Laid (m.withTable m.kernPgdir va q) xs ∧ ∀ v, PDX v ≠ PDX UVPT →
      (m.withTable m.kernPgdir va q).kernWord v = m.kernWord v := by
  have hq : q < 2 ^ 20 := h.small q (by simp)
  have hkq : m.kernPgdir ≠ q := by
    rintro hkq
    exact h.kern (by simp [hkq])
  have hqxs : q ∉ xs := (List.nodup_cons.mp h.chain.nodup).1
  have hself := withTable_pde (q := q) h0
  have hother {d : Nat} (hd : d ≠ PDX va) :
      (m.withTable m.kernPgdir va q).mem m.kernPgdir d = m.mem m.kernPgdir d :=
    withTable_mem_pde hkq hd
  have hfresh {d : Nat} (hd : d ≠ PDX UVPT) (hd0 : m.mem m.kernPgdir d ≠ 0) :
      m.mem m.kernPgdir d ≠ entry q (PTE_W ||| PTE_U) := by
    obtain ⟨T, hT, hentry, hTxs, -⟩ := h.table d hd hd0
    rintro he
    have hpage := congrArg (fun w => pa2page (PTE_ADDR w)) (hentry.symm.trans he)
    simp only [pa2page_entry hT (show PTE_W ||| PTE_U < 4096 by decide),
      pa2page_entry hq (show PTE_W ||| PTE_U < 4096 by decide)] at hpage
    exact hTxs (by simp [hpage])
  refine ⟨⟨?_, fun p hp => h.small p (by simp [hp]), fun hk => h.kern (List.mem_cons_of_mem _ hk), ?_, ?_⟩, ?_⟩
  · exact h.chain.pop
  · intro d hd hd0
    by_cases hdv : d = PDX va
    · subst hdv
      exact ⟨q, hq, hself, hqxs, hkq.symm⟩
    · rw [show (m.withTable m.kernPgdir va q).kernPgdir = m.kernPgdir by rfl, hother hdv] at hd0 ⊢
      obtain ⟨T, hT, hentry, hTxs, hTk⟩ := h.table d hd hd0
      exact ⟨T, hT, hentry, fun hx => hTxs (by simp [hx]), hTk⟩
  · intro d d' hd hd' hd0 he
    rw [show (m.withTable m.kernPgdir va q).kernPgdir = m.kernPgdir by rfl] at hd0 he
    by_cases hdv : d = PDX va
    · by_cases hdv' : d' = PDX va
      · rw [hdv, hdv']
      · rw [hdv, hself, hother hdv'] at he
        exact absurd he.symm (hfresh hd' (he ▸ entry_ne_zero _ _))
    · rw [hother hdv] at hd0 he
      by_cases hdv' : d' = PDX va
      · rw [hdv', hself] at he
        exact absurd he (hfresh hd hd0)
      · rw [hother hdv'] at he
        exact h.distinct d d' hd hd' hd0 he
  · intro v hv
    rw [kernWord, kernWord, show (m.withTable m.kernPgdir va q).kernPgdir = m.kernPgdir by rfl]
    by_cases hd : PDX v = PDX va
    · have htable : (m.withTable m.kernPgdir va q).tableOf m.kernPgdir v = q := by
        rw [Pmap.tableOf, hd, hself, pa2page_entry hq (by decide)]
      rw [hd, hself, if_neg (entry_ne_zero _ _), htable, withTable_mem_table hkq.symm, h0,
        if_pos rfl]
    · have htable : (m.withTable m.kernPgdir va q).tableOf m.kernPgdir v
          = m.tableOf m.kernPgdir v := by
        rw [Pmap.tableOf, hother hd]
        rfl
      rw [hother hd, htable]
      by_cases hv0 : m.mem m.kernPgdir (PDX v) = 0
      · rw [if_pos hv0, if_pos hv0]
      · obtain ⟨hTxs, hTk⟩ := h.tableOf hv hv0
        rw [if_neg hv0, if_neg hv0, withTable_mem_page hTk fun he => hTxs (by simp [he])]

end Laid

/-- What one round of `boot_map_region` does: the entry for `va` becomes `w`, and a page is taken
when there was no page table for it. -/
structure MapsPage (m : Pmap) (xs : List Nat) (m' : Pmap) (ys : List Nat) (va w : Nat) : Prop where
  laid : Laid m' ys
  kern : m'.kernPgdir = m.kernPgdir
  word : ∀ v, PDX v ≠ PDX UVPT →
    m'.kernWord v = if PDX v = PDX va ∧ PTX v = PTX va then w else m.kernWord v
  pde : ∀ d, d ≠ PDX va → m'.mem m.kernPgdir d = m.mem m.kernPgdir d
  table : m'.mem m.kernPgdir (PDX va) ≠ 0
  list : (m.mem m.kernPgdir (PDX va) ≠ 0 ∧ ys = xs) ∨
    (m.mem m.kernPgdir (PDX va) = 0 ∧ ∃ q, xs = q :: ys)

private theorem Laid.mapsPage {m : Pmap} {xs : List Nat} {va : Nat} (h : Laid m xs)
    (hva : PDX va ≠ PDX UVPT) (h0 : m.mem m.kernPgdir (PDX va) ≠ 0) (w : Nat) :
    MapsPage m xs (m.store (m.tableOf m.kernPgdir va) (PTX va) w) xs va w := by
  obtain ⟨hlaid, hword⟩ := h.store (w := w) hva h0
  have hdir : (m.store (m.tableOf m.kernPgdir va) (PTX va) w).mem m.kernPgdir
      = m.mem m.kernPgdir := store_mem_page (h.tableOf hva h0).2.symm
  exact ⟨hlaid, rfl, hword, fun d _ => congrFun hdir d, by rwa [hdir], .inl ⟨h0, rfl⟩⟩

private theorem bootMapPage_cases {m : Pmap} {xs : List Nat} {va pa perm i : Nat} (h : Laid m xs)
    (hva : PDX (va + i * PGSIZE) ≠ PDX UVPT) :
    (m.mem m.kernPgdir (PDX (va + i * PGSIZE)) = 0 ∧ xs = [] ∧
      bootMapPage m.kernPgdir va pa perm m i = none) ∨
    ∃ m' ys, bootMapPage m.kernPgdir va pa perm m i = some m' ∧
      MapsPage m xs m' ys (va + i * PGSIZE) (PTE_ADDR (pa + i * PGSIZE) ||| perm ||| PTE_P) := by
  unfold bootMapPage
  generalize va + i * PGSIZE = v at hva
  by_cases h0 : m.mem m.kernPgdir (PDX v) = 0
  · cases xs with
    | nil => exact .inl ⟨h0, rfl, by rw [pgdirWalk_full h0 h.chain]⟩
    | cons q xs =>
      obtain ⟨hlaid, hword⟩ := h.withTable h0
      have hkq : m.kernPgdir ≠ q := by
        rintro hkq
        exact h.kern (by simp [hkq])
      have hmaps := hlaid.mapsPage hva
        (by
          rw [show (m.withTable m.kernPgdir v q).kernPgdir = m.kernPgdir by rfl, withTable_pde h0]
          exact entry_ne_zero _ _)
        (PTE_ADDR (pa + i * PGSIZE) ||| perm ||| PTE_P)
      refine .inr ⟨_, xs, by rw [pgdirWalk_create h0 h.chain.1]; rfl, hmaps.laid, hmaps.kern, ?_, ?_,
        hmaps.table, .inr ⟨h0, q, rfl⟩⟩
      · intro u hu
        rw [← hword u hu]
        exact hmaps.word u hu
      · intro d hd
        exact (hmaps.pde d hd).trans (withTable_mem_pde hkq hd)
  · exact .inr ⟨_, xs, by rw [pgdirWalk_found h0], h.mapsPage hva h0 _⟩

def rounds (size : Nat) : Nat := (size + PGSIZE - 1) / PGSIZE

/-- The number of page tables among `D` that the kernel has not made yet. -/
def missing (D : Finset Nat) (m : Pmap) : Nat := (D.filter fun d => m.mem m.kernPgdir d = 0).card

private theorem MapsPage.missing_le {D : Finset Nat} {m m' : Pmap} {xs ys : List Nat} {va w : Nat}
    (h : MapsPage m xs m' ys va w) (hD : PDX va ∈ D) (hxs : missing D m ≤ xs.length) :
    missing D m' ≤ ys.length := by
  have hsub : (D.filter fun d => m'.mem m'.kernPgdir d = 0)
      = (D.filter fun d => m.mem m.kernPgdir d = 0).erase (PDX va) := by
    ext d
    rw [h.kern]
    simp only [Finset.mem_filter, Finset.mem_erase]
    by_cases hd : d = PDX va
    · subst hd
      simp [h.table]
    · rw [h.pde d hd]
      simp [hd]
  unfold missing at hxs ⊢
  rw [hsub]
  rcases h.list with ⟨-, rfl⟩ | ⟨h0, q, rfl⟩
  · exact (Finset.card_le_card (Finset.erase_subset _ _)).trans hxs
  · rw [Finset.card_erase_of_mem (Finset.mem_filter.mpr ⟨hD, h0⟩)]
    simp only [List.length_cons] at hxs
    omega

/-- What a whole region does. -/
structure MapsRegion (m m' : Pmap) (ys : List Nat) (va pages pa perm : Nat) : Prop where
  laid : Laid m' ys
  kern : m'.kernPgdir = m.kernPgdir
  inside : ∀ i < pages, m'.kernWord (va + i * PGSIZE) = PTE_ADDR (pa + i * PGSIZE) ||| perm ||| PTE_P
  outside : ∀ v, PDX v ≠ PDX UVPT →
    (∀ i < pages, ¬ (PDX v = PDX (va + i * PGSIZE) ∧ PTX v = PTX (va + i * PGSIZE))) →
      m'.kernWord v = m.kernWord v

/-- The addresses of a region are apart from each other and from `UVPT`. -/
structure Regular (va pages : Nat) : Prop where
  pde : ∀ i < pages, PDX (va + i * PGSIZE) ≠ PDX UVPT
  apart : ∀ i < pages, ∀ j < pages, PDX (va + i * PGSIZE) = PDX (va + j * PGSIZE) →
    PTX (va + i * PGSIZE) = PTX (va + j * PGSIZE) → i = j

private theorem Regular.of_le {va pages n : Nat} (h : Regular va pages) (hn : n ≤ pages) : Regular va n :=
  ⟨fun i hi => h.pde i (by omega), fun i hi j hj => h.apart i (by omega) j (by omega)⟩

private theorem bootMapPages_maps {m m' : Pmap} {xs : List Nat} {va pa perm n : Nat} (h : Laid m xs)
    (hr : Regular va n)
    (hm : (List.range n).foldlM (bootMapPage m.kernPgdir va pa perm) m = some m') :
    ∃ ys, MapsRegion m m' ys va n pa perm := by
  induction n generalizing m' with
  | zero =>
    obtain rfl := Option.some.inj hm
    exact ⟨xs, h, rfl, by simp, fun v _ _ => rfl⟩
  | succ n ih =>
    rw [List.range_succ, List.foldlM_append] at hm
    obtain ⟨u, hu, hlast⟩ := Option.bind_eq_some_iff.mp hm
    simp only [List.foldlM_cons, List.foldlM_nil, Option.bind_eq_bind, Option.bind_eq_some_iff,
      Option.pure_def, Option.some.injEq] at hlast
    obtain ⟨r, hlast, rfl⟩ := hlast
    obtain ⟨ys, hmaps⟩ := ih (hr.of_le (by omega)) hu
    rw [← hmaps.kern] at hlast
    have hcases := @bootMapPage_cases _ _ _ pa perm _ hmaps.laid (hr.pde n (by omega))
    rcases hcases with ⟨-, -, hnone⟩ | ⟨v, zs, hv, hpage⟩
    · simp [hnone] at hlast
    · obtain rfl := Option.some.inj (hv.symm.trans hlast)
      refine ⟨zs, hpage.laid, hpage.kern.trans hmaps.kern, fun i hi => ?_, fun v hv hout => ?_⟩
      · rw [hpage.word _ (hr.pde i hi)]
        split_ifs with hsame
        · rw [hr.apart i hi n (by omega) hsame.1 hsame.2]
        · refine hmaps.inside i (Nat.lt_of_le_of_ne (by omega) ?_)
          rintro rfl
          exact hsame ⟨rfl, rfl⟩
      · rw [hpage.word v hv, if_neg (hout n (by omega))]
        exact hmaps.outside v hv fun i hi => hout i (by omega)

private theorem bootMapRegion_maps {m m' : Pmap} {xs : List Nat} {va size pa perm : Nat} (h : Laid m xs)
    (hr : Regular va (rounds size)) (hm : m.bootMapRegion m.kernPgdir va size pa perm = some m') :
    ∃ ys, MapsRegion m m' ys va (rounds size) pa perm :=
  bootMapPages_maps h hr hm

private theorem bootMapPages_succeeds {D : Finset Nat} (hD : PDX UVPT ∉ D) {m : Pmap} {xs : List Nat}
    {va pa perm : Nat} (h : Laid m xs) (hxs : missing D m ≤ xs.length) {n : Nat}
    (hva : ∀ i < n, PDX (va + i * PGSIZE) ∈ D) :
    ∃ m' ys, (List.range n).foldlM (bootMapPage m.kernPgdir va pa perm) m = some m' ∧
      Laid m' ys ∧ missing D m' ≤ ys.length ∧ m'.kernPgdir = m.kernPgdir := by
  induction n with
  | zero => exact ⟨m, xs, rfl, h, hxs, rfl⟩
  | succ n ih =>
    obtain ⟨u, ys, hu, hlaid, hys, hk⟩ := ih fun i hi => hva i (by omega)
    have hmem := hva n (by omega)
    have hcases := @bootMapPage_cases _ _ _ pa perm _ hlaid (fun he => hD (he ▸ hmem))
    rcases hcases with ⟨h0, rfl, -⟩ | ⟨v, zs, hv, hpage⟩
    · have hpos : 0 < missing D u := Finset.card_pos.mpr ⟨_, Finset.mem_filter.mpr ⟨hmem, h0⟩⟩
      simp only [List.length_nil] at hys
      omega
    · refine ⟨v, zs, ?_, hpage.laid, hpage.missing_le hmem hys, hpage.kern.trans hk⟩
      rw [List.range_succ, List.foldlM_append, hu]
      simp [← hk, hv]

private theorem kernWord_congr {m : Pmap} {v v' : Nat} (hd : PDX v = PDX v') (ht : PTX v = PTX v') :
    m.kernWord v = m.kernWord v' := by
  rw [kernWord, kernWord, tableOf, tableOf, hd, ht]

end Pmap

/-- The page of `envs` and the pages after it, and the pages of the array `pages`. -/
def Hardware.windowWord (hw : Hardware) (va : Nat) : Nat :=
  if va < UPAGES then PTE_ADDR (hw.envs + (va - UENVS) / PGSIZE * PGSIZE) ||| (PTE_U ||| PTE_P) ||| PTE_P
  else if (va - UPAGES) / PGSIZE < Pmap.rounds (hw.npages * 8) then
    PTE_ADDR (hw.pages + (va - UPAGES) / PGSIZE * PGSIZE) ||| (PTE_U ||| PTE_P) ||| PTE_P
  else 0

namespace Hardware

variable (hw : Hardware)

private theorem regions_regular {va size pa perm : Nat} (h : (va, size, pa, perm) ∈ hw.regions) :
    Pmap.Regular va (Pmap.rounds size) := by
  refine ⟨fun i hi => (hw.regions_above h hi).2, fun i hi j hj hd ht => ?_⟩
  have := hw.npages_lt
  have hend : va + Pmap.rounds size * PGSIZE ≤ 2 ^ 32 := by
    simp only [regions, List.mem_cons, Prod.mk.injEq, List.not_mem_nil, or_false] at h
    rcases h with ⟨rfl, rfl, -⟩ | ⟨rfl, rfl, -⟩ | ⟨rfl, rfl, -⟩ | ⟨rfl, rfl, -⟩
    all_goals
      simp only [Pmap.rounds, UPAGES, UENVS, UVPT, ULIM, KSTACKTOP, KSTKSIZE, KERNBASE, PTSIZE, PGSIZE]
      omega
  rw [PDX_eq, PDX_eq] at hd
  rw [PTX_eq, PTX_eq] at ht
  simp only [PGSIZE] at hd ht hend
  omega

private theorem pageInit_laid : ∃ xs, Pmap.Laid hw.pageInit xs ∧
    (∀ v, PDX v ≠ PDX UVPT → hw.pageInit.kernWord v = 0) ∧ ∀ p, p ∈ xs ↔ hw.FreePage p := by
  obtain ⟨hmem, hk, xs, hxs, -, -⟩ := hw.pageInit_spec
  have hfree := hw.freePage_iff hxs
  have hkern (d : Nat) (hd : d ≠ PDX UVPT) : hw.pageInit.mem hw.pageInit.kernPgdir d = 0 := by
    rw [hmem, hk]
    simp [bare, hd]
  refine ⟨xs, ⟨hxs, fun p hp => ?_, fun hp => ?_, fun d hd h0 => absurd (hkern d hd) h0,
    fun d _ hd _ h0 => absurd (hkern d hd) h0⟩, fun v hv => ?_, fun p => (hfree p).symm⟩
  · exact ((hfree p).mpr hp).bounds.2.1
  · rw [hk] at hp
    exact ((hfree _).mpr hp).bounds.2.2 rfl
  · rw [Pmap.kernWord, if_pos (hkern _ hv)]

private theorem memInit_chain {m : Pmap} (hm : hw.memInit = some m) : ∃ a b c xs ys zs ws,
    Pmap.MapsRegion hw.pageInit a xs UPAGES (Pmap.rounds ((hw.npages * 8 + PGSIZE - 1) / PGSIZE * PGSIZE))
      hw.pages (PTE_U ||| PTE_P) ∧
    Pmap.MapsRegion a b ys UENVS (Pmap.rounds PTSIZE) hw.envs (PTE_U ||| PTE_P) ∧
    Pmap.MapsRegion b c zs (KSTACKTOP - KSTKSIZE) (Pmap.rounds KSTKSIZE) hw.bootstack (PTE_W ||| PTE_P) ∧
    Pmap.MapsRegion c m ws KERNBASE (Pmap.rounds (0xFFFFFFFF - KERNBASE)) 0 (PTE_W ||| PTE_P) := by
  obtain ⟨xs₀, hlaid, -⟩ := hw.pageInit_laid
  have hk := hw.pageInit_spec.2.1
  simp only [memInit, regions, List.foldlM_cons, List.foldlM_nil, Option.bind_eq_bind,
    Option.bind_eq_some_iff, Option.pure_def, Option.some.injEq] at hm
  obtain ⟨a, ha, b, hb, c, hc, d, hd, rfl⟩ := hm
  have hUpages := hw.regions_regular (List.mem_cons_self ..)
  have hUenvs := hw.regions_regular (List.mem_cons_of_mem _ (List.mem_cons_self ..))
  have hStack := hw.regions_regular
    (List.mem_cons_of_mem _ (List.mem_cons_of_mem _ (List.mem_cons_self ..)))
  have hKern := hw.regions_regular (List.mem_cons_of_mem _
    (List.mem_cons_of_mem _ (List.mem_cons_of_mem _ (List.mem_cons_self ..))))
  rw [← hk] at ha
  obtain ⟨xs, ha⟩ := Pmap.bootMapRegion_maps hlaid hUpages ha
  rw [← hk, ← ha.kern] at hb
  obtain ⟨ys, hb⟩ := Pmap.bootMapRegion_maps ha.laid hUenvs hb
  rw [← hk, ← ha.kern, ← hb.kern] at hc
  obtain ⟨zs, hc⟩ := Pmap.bootMapRegion_maps hb.laid hStack hc
  rw [← hk, ← ha.kern, ← hb.kern, ← hc.kern] at hd
  obtain ⟨ws, hd⟩ := Pmap.bootMapRegion_maps hc.laid hKern hd
  exact ⟨a, b, c, xs, ys, zs, ws, ha, hb, hc, hd⟩

private theorem memInit_window {m : Pmap} (hm : hw.memInit = some m) :
    (∃ ws, Pmap.Laid m ws) ∧ m.kernPgdir = hw.kernPgdir ∧
      ∀ va, UENVS ≤ va → va < UVPT → m.kernWord va = hw.windowWord va := by
  obtain ⟨a, b, c, xs, ys, zs, ws, ha, hb, hc, hd⟩ := hw.memInit_chain hm
  have hk := hw.pageInit_spec.2.1
  refine ⟨⟨ws, hd.laid⟩, by rw [hd.kern, hc.kern, hb.kern, ha.kern, hk], fun va hlo hhi => ?_⟩
  have hn := hw.npages_lt
  have hne : PDX va ≠ PDX UVPT := by
    rw [PDX_eq, PDX_eq]
    simp only [UENVS, UPAGES, UVPT, ULIM, KERNBASE, PTSIZE] at hlo hhi ⊢
    omega
  -- the stack and the mapping of all memory are elsewhere
  have hc' : c.kernWord va = b.kernWord va := hc.outside va hne fun i hi => by
    rw [PDX_eq, PDX_eq]
    simp only [Pmap.rounds, KSTACKTOP, KSTKSIZE, UENVS, UPAGES, UVPT, ULIM, KERNBASE, PTSIZE,
      PGSIZE] at hlo hhi hi ⊢
    omega
  have hd' : m.kernWord va = c.kernWord va := hd.outside va hne fun i hi => by
    rw [PDX_eq, PDX_eq]
    simp only [Pmap.rounds, UENVS, UPAGES, UVPT, ULIM, KERNBASE, PTSIZE, PGSIZE] at hlo hhi hi ⊢
    omega
  rw [hd', hc', windowWord]
  have hsame (base : Nat) (hbase : base % PGSIZE = 0) (hle : base ≤ va) :
      PDX va = PDX (base + (va - base) / PGSIZE * PGSIZE) ∧
        PTX va = PTX (base + (va - base) / PGSIZE * PGSIZE) := by
    rw [PDX_eq, PDX_eq, PTX_eq, PTX_eq]
    simp only [PGSIZE] at hbase ⊢
    omega
  by_cases hup : va < UPAGES
  · rw [if_pos hup]
    obtain ⟨hpdx, hptx⟩ := hsame UENVS (by decide) hlo
    rw [Pmap.kernWord_congr hpdx hptx]
    refine hb.inside _ ?_
    simp only [Pmap.rounds, UENVS, UPAGES, UVPT, ULIM, KERNBASE, PTSIZE, PGSIZE] at hlo hup ⊢
    omega
  · rw [if_neg hup]
    have hb' : b.kernWord va = a.kernWord va := hb.outside va hne fun i hi => by
      rw [PDX_eq, PDX_eq]
      simp only [Pmap.rounds, UENVS, UPAGES, UVPT, ULIM, KERNBASE, PTSIZE, PGSIZE] at hhi hup hi ⊢
      omega
    have hPmap.rounds : Pmap.rounds ((hw.npages * 8 + PGSIZE - 1) / PGSIZE * PGSIZE)
        = Pmap.rounds (hw.npages * 8) := by
      simp only [Pmap.rounds, PGSIZE]
      omega
    rw [hb']
    obtain ⟨hpdx, hptx⟩ := hsame UPAGES (by decide) (by omega)
    split_ifs with hi
    · rw [Pmap.kernWord_congr hpdx hptx]
      exact ha.inside _ (by rwa [hPmap.rounds])
    · obtain ⟨-, -, hzero, -⟩ := hw.pageInit_laid
      rw [ha.outside va hne fun i hi' => ?_]
      · exact hzero va hne
      · rw [hPmap.rounds] at hi'
        rw [PDX_eq, PDX_eq, PTX_eq, PTX_eq]
        simp only [Pmap.rounds, UPAGES, UVPT, ULIM, KERNBASE, PTSIZE, PGSIZE] at hhi hup hi hi' ⊢
        omega

/-- The directory entries for which `mem_init` needs page tables. -/
def tables : Finset Nat := insert (PDX UENVS) (insert (PDX UPAGES) (Finset.Ico 959 1024))

private theorem memInit_succeeds (hlo : 68 ≤ hw.basemem) (hhi : hw.basemem < 4096)
    (hn : hw.basemem ≤ hw.npages) : ∃ m, hw.memInit = some m := by
  obtain ⟨xs, hlaid, -, hxs⟩ := hw.pageInit_laid
  have hk := hw.pageInit_spec.2.1
  have hlen : 67 ≤ xs.length := by
    have hsub : Finset.Ico 1 68 ⊆ xs.toFinset := by
      intro p hp
      rw [Finset.mem_Ico] at hp
      rw [List.mem_toFinset, hxs, freePage_iff_leftFree, LeftFree, PGNUM_eq]
      omega
    have hcard := Finset.card_le_card hsub
    rw [Nat.card_Ico] at hcard
    exact hcard.trans (List.toFinset_card_le xs)
  have hmissing : Pmap.missing tables hw.pageInit ≤ xs.length := by
    refine (Finset.card_filter_le _ _).trans (le_trans ?_ hlen)
    decide
  -- the addresses of the regions lie under these directory entries
  have hmem {va size pa perm : Nat} (h : (va, size, pa, perm) ∈ hw.regions) (i : Nat)
      (hi : i < Pmap.rounds size) : PDX (va + i * PGSIZE) ∈ tables := by
    have := hw.npages_lt
    have hUenvs : PDX UENVS = 955 := by decide
    have hUpages : PDX UPAGES = 956 := by decide
    simp only [regions, List.mem_cons, Prod.mk.injEq, List.not_mem_nil, or_false] at h
    rw [tables, Finset.mem_insert, Finset.mem_insert, Finset.mem_Ico, hUenvs, hUpages, PDX_eq]
    rcases h with ⟨rfl, rfl, -⟩ | ⟨rfl, rfl, -⟩ | ⟨rfl, rfl, -⟩ | ⟨rfl, rfl, -⟩
    all_goals
      simp only [Pmap.rounds, UPAGES, UENVS, UVPT, ULIM, KSTACKTOP, KSTKSIZE, KERNBASE, PTSIZE,
        PGSIZE] at hi ⊢
      omega
  have hrun (l : List (Nat × Nat × Nat × Nat)) (hl : ∀ r ∈ l, r ∈ hw.regions) :
      ∀ u us, Pmap.Laid u us → Pmap.missing tables u ≤ us.length → u.kernPgdir = hw.kernPgdir →
        ∃ m, l.foldlM (fun m r => m.bootMapRegion hw.kernPgdir r.1 r.2.1 r.2.2.1 r.2.2.2) u =
          some m := by
    induction l with
    | nil => exact fun u us _ _ _ => ⟨u, rfl⟩
    | cons r l ih =>
      intro u us hu hus huk
      obtain ⟨va, size, pa, perm⟩ := r
      obtain ⟨v, vs, hv, hvl, hvs, hvk⟩ := @Pmap.bootMapPages_succeeds tables (by decide) u us va pa
        perm hu hus (Pmap.rounds size) (hmem (hl _ (List.mem_cons_self ..)))
      obtain ⟨m, hm⟩ := ih (fun r hr => hl r (List.mem_cons_of_mem _ hr)) v vs hvl hvs
        (hvk.trans huk)
      refine ⟨m, ?_⟩
      rw [huk] at hv
      rw [List.foldlM_cons]
      exact Option.bind_eq_some_iff.mpr ⟨v, hv, hm⟩
  exact hrun _ (fun r hr => hr) _ xs hlaid hmissing hk

end Hardware

/-- User code can read page `p` at an address of the window. -/
def Pmap.Exposes (m : Pmap) (pgdir p : Nat) : Prop :=
  ∃ va w, UENVS ≤ va ∧ va < UVPT ∧ m.mem pgdir (PDX va) &&& PTE_U ≠ 0 ∧
    m.mapping pgdir va = some w ∧ w &&& PTE_U ≠ 0 ∧ pa2page (PTE_ADDR w) = p

/-- The window of the kernel is as it was, and the next free page is no part of it. -/
structure Pmap.SameWindow (m m' : Pmap) : Prop where
  kern : m'.kernPgdir = m.kernPgdir
  pde : ∀ va, UENVS ≤ va → va < UVPT → m'.mem m.kernPgdir (PDX va) = m.mem m.kernPgdir (PDX va)
  pte : ∀ va, UENVS ≤ va → va < UVPT → m'.mem (m.tableOf m.kernPgdir va) = m.mem (m.tableOf m.kernPgdir va)
  apart : ∀ q, m'.pageFreeList = some q → q ≠ m.kernPgdir ∧
    ∀ va, UENVS ≤ va → va < UVPT → m.mem m.kernPgdir (PDX va) ≠ 0 → q ≠ m.tableOf m.kernPgdir va

namespace Pmap

private theorem PDX_window {va : Nat} (hlo : UENVS ≤ va) (hhi : va < UVPT) : PDX va ≠ PDX UVPT := by
  rw [PDX_eq, PDX_eq]
  simp only [UENVS, UPAGES, UVPT, ULIM, KERNBASE, PTSIZE] at hlo hhi ⊢
  omega

end Pmap

private theorem envSetupVm_exposes {m : Pmap} {s t : System} {e : Fin NENV} {p : Nat}
    (h : m.SameWindow s.pmap) (ht : s.envSetupVm e = (true, t))
    (hp : t.pmap.Exposes (t.envs e).pgdir p) : m.Exposes m.kernPgdir p := by
  unfold System.envSetupVm at ht
  cases hq : s.pmap.pageFreeList with
  | none =>
    rw [Pmap.pageAlloc_none hq] at ht
    simp at ht
  | some q =>
    rw [Pmap.pageAlloc_some hq] at ht
    obtain ⟨-, rfl⟩ := Prod.mk.inj ht
    obtain ⟨hqk, hqt⟩ := h.apart q hq
    obtain ⟨va, w, hlo, hhi, hu, hw, hwu, hwp⟩ := hp
    have hne := Pmap.PDX_window hlo hhi
    simp only [System.setEnv, Function.update_self] at hu hw
    change (s.pmap.newDirectory q).mem q (PDX va) &&& PTE_U ≠ 0 at hu
    change (s.pmap.newDirectory q).mapping q va = some w at hw
    have hpde : (s.pmap.newDirectory q).mem q (PDX va) = m.mem m.kernPgdir (PDX va) := by
      rw [Pmap.newDirectory, Pmap.store_mem_word hne, ← h.pde va hlo hhi, ← h.kern,
        ← Pmap.taken_mem_page (m := s.pmap) (q := s.pmap.kernPgdir) (p := q)
          (by rw [h.kern]; exact hqk.symm)]
      exact congrFun (Function.update_self ..) _
    rw [hpde] at hu
    obtain ⟨hpresent, hword, hwp'⟩ := Pmap.mapping_eq_some.mp hw
    have htable : (s.pmap.newDirectory q).tableOf q va = m.tableOf m.kernPgdir va := by
      rw [Pmap.tableOf, hpde]
      rfl
    rw [hpde] at hpresent
    have h0 : m.mem m.kernPgdir (PDX va) ≠ 0 := by
      intro h0
      simp [h0] at hu
    rw [htable, Pmap.newDirectory_mem_page (hqt va hlo hhi h0).symm, h.pte va hlo hhi] at hword
    exact ⟨va, w, hlo, hhi, hu, Pmap.mapping_eq_some.mpr ⟨hpresent, hword, hwp'⟩, hwu, hwp⟩

/-- No page that `page_init` left free shows in the window, neither in the kernel's page directory
nor in a copy. -/
def Hardware.Concealed (hw : Hardware) (m : Pmap) : Prop :=
  ∀ p, hw.FreePage p → ¬ m.Exposes m.kernPgdir p ∧
    ∀ (s t : System) (e : Fin NENV), m.SameWindow s.pmap → s.envSetupVm e = (true, t) →
      ¬ t.pmap.Exposes (t.envs e).pgdir p

def ROUNDUP (a n : Nat) : Nat := (a + n - 1) / n * n

def PADDR (kva : Nat) : Nat := kva - KERNBASE

/-- `sizeof(struct Env)`: a trapframe of 68 bytes and fourteen words. -/
def sizeofEnv : Nat := 124

/-- `boot_alloc`: the result and the new `nextfree`. -/
def bootAlloc (nextfree n : Nat) : Nat × Nat :=
  (nextfree, if n ≠ 0 then ROUNDUP (nextfree + n) PGSIZE else nextfree)

theorem bootAlloc_snd {nextfree n : Nat} (h : nextfree % 4096 = 0) :
    (bootAlloc nextfree n).2 = nextfree + (n + 4095) / 4096 * 4096 := by
  simp only [bootAlloc, ROUNDUP, PGSIZE]
  split_ifs <;> omega

/-- A machine and a kernel: the sizes of memory, the symbols `end` and `bootstack`. -/
structure Machine where
  npages : Nat
  basemem : Nat
  imageEnd : Nat
  bootstack : Nat
  mem : Nat → Nat → Nat
  npages_lt : npages < 2 ^ 15
  -- base memory is the memory below `EXTPHYSMEM`, and the kernel is linked above it
  basemem_le : basemem ≤ 0x100000 / PGSIZE
  imageEnd_ge : KERNBASE + 0x100000 ≤ imageEnd
  -- the boot loader has put the kernel into memory
  imageEnd_le : imageEnd ≤ KERNBASE + npages * PGSIZE

namespace Machine

variable (hw : Machine)

/-- `kern_pgdir`, `pages`, `envs` and the end of them, in the order in which `mem_init` asks for
them. -/
def kernPgdirVa : Nat := (bootAlloc (ROUNDUP hw.imageEnd PGSIZE) PGSIZE).1
def pagesVa : Nat := (bootAlloc hw.kernPgdirVa PGSIZE).2
def envsVa : Nat := (bootAlloc hw.pagesVa (hw.npages * 8)).2
def freeVa : Nat := (bootAlloc hw.envsVa (NENV * sizeofEnv)).2

/-- The first page that `boot_alloc` has not handed out. -/
def kernEnd : Nat := PGNUM (PADDR (bootAlloc hw.freeVa 0).1)

private theorem layout : ∃ k, 256 ≤ k ∧ k ≤ hw.npages ∧ PGNUM (PADDR hw.kernPgdirVa) = k ∧
    PADDR hw.pagesVa = (k + 1) * 4096 ∧
    PADDR hw.envsVa = (k + 1 + (hw.npages * 8 + 4095) / 4096) * 4096 ∧
    hw.kernEnd = k + 1 + (hw.npages * 8 + 4095) / 4096 + 31 := by
  have hge := hw.imageEnd_ge
  have hle := hw.imageEnd_le
  have hkern : hw.kernPgdirVa = (hw.imageEnd + 4095) / 4096 * 4096 := rfl
  have hpages : hw.pagesVa = hw.kernPgdirVa + 4096 := by
    rw [pagesVa, bootAlloc_snd (by omega)]
    rfl
  have henvs : hw.envsVa = hw.pagesVa + (hw.npages * 8 + 4095) / 4096 * 4096 := by
    rw [envsVa, bootAlloc_snd (by omega)]
  have hfree : hw.freeVa = hw.envsVa + 31 * 4096 := by
    rw [freeVa, bootAlloc_snd (by omega)]
    rfl
  have hend : hw.kernEnd = (hw.freeVa - KERNBASE) / 4096 := PGNUM_eq _
  refine ⟨(hw.imageEnd - KERNBASE + 4095) / 4096, ?_⟩
  rw [hend, hfree, PGNUM_eq, PADDR, PADDR, PADDR, henvs, hpages, hkern]
  generalize (hw.npages * 8 + 4095) / 4096 = r
  simp only [KERNBASE, PGSIZE] at hge hle ⊢
  omega

def hardware : Hardware where
  npages := hw.npages
  basemem := hw.basemem
  kernEnd := hw.kernEnd
  kernPgdir := PGNUM (PADDR hw.kernPgdirVa)
  pages := PADDR hw.pagesVa
  envs := PADDR hw.envsVa
  bootstack := hw.bootstack
  mem := hw.mem
  npages_lt := hw.npages_lt
  basemem_le := by
    obtain ⟨k, hk, -, hpgdir, -⟩ := hw.layout
    rw [hpgdir]
    exact hw.basemem_le.trans hk
  kern_lt := by
    obtain ⟨k, -, -, hpgdir, -, -, hend⟩ := hw.layout
    omega

private theorem entry_of_page {p : Nat} (hp : p < 2 ^ 20) :
    PTE_ADDR (p * 4096) ||| (PTE_U ||| PTE_P) ||| PTE_P = entry p (PTE_U ||| PTE_P) := by
  have haddr : PTE_ADDR (p * 4096) = page2pa p := by
    rw [PTE_ADDR_eq, page2pa, Nat.shiftLeft_eq]
    omega
  rw [haddr, entry]

private theorem windowWord_cases {va : Nat} (hlo : UENVS ≤ va) (hhi : va < UVPT) :
    hw.hardware.windowWord va = 0 ∨
      ∃ p, 256 ≤ p ∧ p < 2 ^ 20 ∧ hw.hardware.windowWord va = entry p (PTE_U ||| PTE_P) := by
  obtain ⟨k, hk, hkn, -, hpages, henvs, -⟩ := hw.layout
  have hn := hw.npages_lt
  rw [Hardware.windowWord, show hw.hardware.envs = PADDR hw.envsVa by rfl,
    show hw.hardware.pages = PADDR hw.pagesVa by rfl, henvs, hpages]
  rw [show UENVS = 0xEEC00000 by decide] at hlo ⊢
  rw [show UVPT = 0xEF400000 by decide] at hhi
  rw [show UPAGES = 0xEF000000 by decide, show PGSIZE = 4096 by rfl]
  split_ifs with hup hi
  · rw [← Nat.add_mul]
    exact .inr ⟨_, by omega, by omega, entry_of_page (by omega)⟩
  · rw [← Nat.add_mul]
    exact .inr ⟨_, by omega, by omega, entry_of_page (by omega)⟩
  · exact .inl rfl

private theorem windowWord_kernEnd :
    hw.hardware.windowWord (UENVS + 31 * PGSIZE) = entry hw.kernEnd (PTE_U ||| PTE_P) := by
  obtain ⟨k, hk, hkn, -, -, henvs, hend⟩ := hw.layout
  have hn := hw.npages_lt
  rw [Hardware.windowWord, if_pos (by decide), show hw.hardware.envs = PADDR hw.envsVa by rfl, henvs,
    show (UENVS + 31 * PGSIZE - UENVS) / PGSIZE * PGSIZE = 31 * 4096 by decide, ← Nat.add_mul,
    hend, entry_of_page (by omega)]

end Machine

private theorem exposes_kernEnd (hw : Machine) {m : Pmap} (hm : hw.hardware.memInit = some m)
    (hlt : hw.kernEnd < hw.npages) :
    hw.hardware.FreePage hw.kernEnd ∧ m.Exposes m.kernPgdir hw.kernEnd := by
  obtain ⟨⟨ws, hlaid⟩, -, hwin⟩ := hw.hardware.memInit_window hm
  obtain ⟨k, hk, hkn, -, -, -, hend⟩ := hw.layout
  have hn := hw.npages_lt
  have hbase := hw.basemem_le
  constructor
  · rw [Hardware.freePage_iff_leftFree]
    refine ⟨hlt, by omega, ?_, .inr ⟨?_, le_rfl⟩⟩
    · change _ ≠ PGNUM hw.basemem
      rw [PGNUM_eq]
      simp only [PGSIZE] at hbase
      omega
    · simp only [PGSIZE]
      omega
  · have hlo : UENVS ≤ UENVS + 31 * PGSIZE := by decide
    have hhi : UENVS + 31 * PGSIZE < UVPT := by decide
    have hne := Pmap.PDX_window hlo hhi
    have hword := (hwin _ hlo hhi).trans hw.windowWord_kernEnd
    have h0 : m.mem m.kernPgdir (PDX (UENVS + 31 * PGSIZE)) ≠ 0 := by
      intro h0
      rw [Pmap.kernWord, if_pos h0] at hword
      exact entry_ne_zero _ _ hword.symm
    obtain ⟨T, -, hpde, -⟩ := hlaid.table _ hne h0
    refine ⟨_, _, hlo, hhi, ?_, (hlaid.mapping_eq hne _).mpr ⟨hword, entry_present _ _⟩, ?_, ?_⟩
    · rw [hpde, entry_and (by decide)]
      decide
    · rw [entry_and (by decide)]
      decide
    · exact pa2page_entry (by omega) (by decide)

/-- The window shows no free page exactly when there is no memory above the tables: `mem_init` maps
4 MB from `envs` on, of which the array takes 31 pages. -/
theorem window_concealed_iff (hw : Machine) {m : Pmap} (hm : hw.hardware.memInit = some m) :
    hw.hardware.Concealed m ↔ hw.npages ≤ hw.kernEnd := by
  obtain ⟨⟨ws, hlaid⟩, -, hwin⟩ := hw.hardware.memInit_window hm
  constructor
  · intro h
    by_contra hlt
    obtain ⟨hfree, hexp⟩ := exposes_kernEnd hw hm (Nat.lt_of_not_le hlt)
    exact (h _ hfree).1 hexp
  · intro hle p hp
    have hnot : ¬ m.Exposes m.kernPgdir p := by
      rintro ⟨va, w, hlo, hhi, -, hw', hwu, hwp⟩
      obtain ⟨hword, -⟩ := (hlaid.mapping_eq (Pmap.PDX_window hlo hhi) w).mp hw'
      rw [hwin va hlo hhi] at hword
      obtain ⟨hpn, -, -, hleft⟩ := (Hardware.freePage_iff_leftFree _ p).mp hp
      have hbelow : p < 256 := by
        rcases hleft with hlt | ⟨-, hge⟩
        · exact hlt.trans_le hw.basemem_le
        · exact absurd (hge.trans_lt hpn) (Nat.not_lt.mpr hle)
      rcases hw.windowWord_cases hlo hhi with h0 | ⟨q, hq, hlt, hentry⟩
      · rw [← hword, h0] at hwu
        exact hwu rfl
      · rw [← hword, hentry, pa2page_entry hlt (by decide)] at hwp
        omega
    exact ⟨hnot, fun s t e hs ht hexp => hnot (envSetupVm_exposes hs ht hexp)⟩

private theorem small_basemem : 160 ≤ 0x100000 / PGSIZE := by decide

private theorem small_kernel : KERNBASE + 0x100000 ≤ KERNBASE + 0x120000 := by decide

private theorem small_image {npages : Nat} (h : 288 ≤ npages) : KERNBASE + 0x120000 ≤ KERNBASE + npages * PGSIZE := by
  simp only [KERNBASE, PGSIZE]
  omega

/-- A machine with 640 KB of base memory and a kernel of 128 KB. -/
def smallMachine (npages : Nat) (h : 288 ≤ npages) (hlt : npages < 2 ^ 15) : Machine where
  npages := npages
  basemem := 160
  imageEnd := KERNBASE + 0x120000
  bootstack := 0x110000
  mem _ _ := 0
  npages_lt := hlt
  basemem_le := small_basemem
  imageEnd_ge := small_kernel
  imageEnd_le := small_image h

theorem window_concealed_full :
    ∃ m, (smallMachine 321 (by decide) (by decide)).hardware.memInit = some m ∧
      (smallMachine 321 (by decide) (by decide)).hardware.Concealed m := by
  obtain ⟨m, hm⟩ := (smallMachine 321 (by decide) (by decide)).hardware.memInit_succeeds
    (by decide) (by decide) (by decide)
  exact ⟨m, hm, (window_concealed_iff _ hm).mpr (by decide)⟩

/-- On a machine of 8 MB page 324 is free and shows. -/
theorem window_exposes :
    ∃ m, (smallMachine 2048 (by decide) (by decide)).hardware.memInit = some m ∧
      ¬ (smallMachine 2048 (by decide) (by decide)).hardware.Concealed m := by
  obtain ⟨m, hm⟩ := (smallMachine 2048 (by decide) (by decide)).hardware.memInit_succeeds
    (by decide) (by decide) (by decide)
  obtain ⟨hfree, hexp⟩ := exposes_kernEnd _ hm (by decide)
  exact ⟨m, hm, fun h => (h _ hfree).1 hexp⟩

end DamnOS.Kernel
