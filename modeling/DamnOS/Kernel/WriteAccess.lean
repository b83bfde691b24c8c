import DamnOS.Kernel.Boot

/-!
# Write access to pages

Which calls can give an environment write access to a page: `sys_page_alloc` to the page that it
takes from the free list, and `sys_page_map` and `sys_ipc_try_send` to the page of their source.
-/

namespace DamnOS.Kernel

open DamnOS.Framework

/-- An entry that is empty, or present and not for a page of `D`. -/
def Clear (D : Nat → Prop) (w : Nat) : Prop :=
  w = 0 ∨ (w &&& PTE_P ≠ 0 ∧ ¬ D (pa2page (PTE_ADDR w)))

/-- No page directory of `D` is on the free list, is a page table, or is mapped. -/
structure Pmap.Apart (D : Nat → Prop) (m : Pmap) : Prop where
  zero : ¬ D 0
  list : m.ListIn fun p => ¬ D p ∧ p < 2 ^ 20
  pde : ∀ g d, D g → d < NUPDE → Clear D (m.mem g d)
  pte : ∀ g d t, D g → d < NUPDE → m.mem g d ≠ 0 →
    Clear D (m.mem (pa2page (PTE_ADDR (m.mem g d))) t)

/-- The entry for `va` lets user code write to page `p`. -/
def Pmap.MapsWritable (m : Pmap) (pgdir va p : Nat) : Prop :=
  ∃ w, m.mapping pgdir va = some w ∧ w &&& PTE_W ≠ 0 ∧ pa2page (PTE_ADDR w) = p

private theorem pa2page_PTE_ADDR_lt (w : Nat) : pa2page (PTE_ADDR w) < 2 ^ 20 := by
  rw [pa2page_PTE_ADDR]
  exact Nat.mod_lt _ (by decide)

namespace Clear

variable {D : Nat → Prop} {w : Nat}

theorem zero (D : Nat → Prop) : Clear D 0 := .inl rfl

theorem page (h : Clear D w) (h0 : ¬ D 0) : ¬ D (pa2page (PTE_ADDR w)) := by
  rcases h with rfl | h
  · exact h0
  · exact h.2

theorem entry {p perm : Nat} (hp : ¬ D p) (hlt : p < 2 ^ 20) (hperm : perm < 4096) :
    Clear D (Kernel.entry p perm) :=
  .inr ⟨entry_present p perm, by rwa [pa2page_entry hlt hperm]⟩

end Clear

namespace Pmap.Apart

variable {D : Nat → Prop} {m m' : Pmap} {pgdir va p perm q r i w : Nat}

theorem congr (h : m.Apart D) (hmem : m'.mem = m.mem)
    (hlist : m'.ListIn fun p => ¬ D p ∧ p < 2 ^ 20) : m'.Apart D :=
  ⟨h.zero, hlist, by rw [hmem]; exact h.pde, by rw [hmem]; exact h.pte⟩

theorem store (h : m.Apart D) (hr : ¬ D r) (hw : Clear D w) : (m.store r i w).Apart D := by
  have hdir (g : Nat) (hg : D g) : (m.store r i w).mem g = m.mem g := by
    apply store_mem_page
    rintro rfl
    exact hr hg
  refine ⟨h.zero, ⟨h.list.head, h.list.link⟩, fun g d hg hd => ?_, fun g d t hg hd h0 => ?_⟩
  · rw [hdir g hg]
    exact h.pde g d hg hd
  · rw [hdir g hg] at h0 ⊢
    have hold := h.pte g d t hg hd h0
    generalize pa2page (PTE_ADDR (m.mem g d)) = x at hold ⊢
    by_cases hx : x = r ∧ t = i
    · obtain ⟨rfl, rfl⟩ := hx
      rwa [store_mem_self]
    · by_cases ht : t = i
      · subst ht
        rwa [store_mem_page fun hxr => hx ⟨hxr, rfl⟩]
      · rwa [store_mem_word ht]

theorem taken (h : m.Apart D) (hq : m.pageFreeList = some q) : (m.taken q).Apart D := by
  have hfree := h.list.head q hq
  have hdir (g : Nat) (hg : D g) : (m.taken q).mem g = m.mem g := by
    apply taken_mem_page
    rintro rfl
    exact hfree.1 hg
  refine ⟨h.zero, h.list.taken hq, fun g d hg hd => ?_, fun g d t hg hd h0 => ?_⟩
  · rw [hdir g hg]
    exact h.pde g d hg hd
  · rw [hdir g hg] at h0 ⊢
    have hold := h.pte g d t hg hd h0
    generalize pa2page (PTE_ADDR (m.mem g d)) = x at hold ⊢
    by_cases hx : x = q
    · rw [hx, taken_mem_self]
      exact .zero D
    · rwa [taken_mem_page hx]

theorem withTable (h : m.Apart D) (hg : D pgdir) (h0 : m.mem pgdir (PDX va) = 0)
    (hq : m.pageFreeList = some q) : (m.withTable pgdir va q).Apart D := by
  have hfree := h.list.head q hq
  have ht := h.taken hq
  have hne : pgdir ≠ q := by
    rintro rfl
    exact hfree.1 hg
  have hpde : (m.withTable pgdir va q).mem pgdir (PDX va) = Kernel.entry q (PTE_W ||| PTE_U) :=
    withTable_pde h0
  have htable : pa2page (PTE_ADDR (Kernel.entry q (PTE_W ||| PTE_U))) = q :=
    pa2page_entry hfree.2 (by decide)
  -- the other directory entries, and all other pages, are those of `m` with `q` cleared
  have hword (x d : Nat) (hx : x ≠ pgdir ∨ d ≠ PDX va) :
      (m.withTable pgdir va q).mem x d = (m.taken q).mem x d := by
    rw [withTable_mem]
    rcases hx with hx | hd
    · rw [store_mem_page hx]
    · rw [store_mem_word hd]
  have hpage (x : Nat) (hx : ¬ D x) (t : Nat) :
      (m.withTable pgdir va q).mem x t = (m.taken q).mem x t := by
    apply hword
    left
    rintro rfl
    exact hx hg
  refine ⟨h.zero, ⟨ht.list.head, ht.list.link⟩, fun g d hg' hd => ?_, fun g d t hg' hd hgd => ?_⟩
  · by_cases hgd : g = pgdir ∧ d = PDX va
    · obtain ⟨rfl, rfl⟩ := hgd
      rw [hpde]
      exact .entry hfree.1 hfree.2 (by decide)
    · rw [hword g d (by tauto)]
      exact ht.pde g d hg' hd
  · by_cases hnew : g = pgdir ∧ d = PDX va
    · obtain ⟨rfl, rfl⟩ := hnew
      rw [hpde, htable, hpage q hfree.1, taken_mem_self]
      exact .zero D
    · rw [hword g d (by tauto)] at hgd ⊢
      rw [hpage _ ((ht.pde g d hg' hd).page h.zero)]
      exact ht.pte g d t hg' hd hgd

private theorem writable_store {g va' x : Nat} (hg : D g) (hr : ¬ D r)
    (hx : (m.store r i w).MapsWritable g va' x) :
    m.MapsWritable g va' x ∨ (w &&& PTE_W ≠ 0 ∧ pa2page (PTE_ADDR w) = x) := by
  obtain ⟨v, hv, hvw, hvx⟩ := hx
  obtain ⟨hpde, hword, hpte⟩ := mapping_eq_some.mp hv
  have hdir : (m.store r i w).mem g = m.mem g := by
    apply store_mem_page
    rintro rfl
    exact hr hg
  rw [tableOf, hdir] at hword
  rw [hdir] at hpde
  by_cases hslot : m.tableOf g va' = r ∧ PTX va' = i
  · obtain ⟨rfl, rfl⟩ := hslot
    have hvw' : v = w := by
      rw [← hword]
      exact store_mem_self ..
    subst hvw'
    exact .inr ⟨hvw, hvx⟩
  · refine .inl ⟨v, mapping_eq_some.mpr ⟨hpde, ?_, hpte⟩, hvw, hvx⟩
    rw [← hword]
    by_cases ht : PTX va' = i
    · exact (congrFun (store_mem_page fun hxr => hslot ⟨hxr, ht⟩) _).symm
    · exact (store_mem_word ht).symm

private theorem writable_taken (h : m.Apart D) (hq : m.pageFreeList = some q) {g va' x : Nat} (hg : D g)
    (hx : (m.taken q).MapsWritable g va' x) : m.MapsWritable g va' x := by
  obtain ⟨v, hv, hvw, hvx⟩ := hx
  obtain ⟨hpde, hword, hpte⟩ := mapping_eq_some.mp hv
  have hdir : (m.taken q).mem g = m.mem g := by
    apply taken_mem_page
    rintro rfl
    exact (h.list.head g hq).1 hg
  rw [tableOf, hdir] at hword
  rw [hdir] at hpde
  refine ⟨v, mapping_eq_some.mpr ⟨hpde, ?_, hpte⟩, hvw, hvx⟩
  by_cases ht : m.tableOf g va' = q
  · rw [show pa2page (PTE_ADDR (m.mem g (PDX va'))) = q from ht, taken_mem_self] at hword
    simp [← hword] at hpte
  · rw [← hword]
    exact (congrFun (taken_mem_page ht) _).symm

private theorem writable_withTable (h : m.Apart D) (hg₀ : D pgdir) (h0 : m.mem pgdir (PDX va) = 0)
    (hq : m.pageFreeList = some q) {g va' x : Nat} (hg : D g) (hva : PDX va' < NUPDE)
    (hx : (m.withTable pgdir va q).MapsWritable g va' x) : m.MapsWritable g va' x := by
  have hfree := h.list.head q hq
  obtain ⟨v, hv, hvw, hvx⟩ := hx
  obtain ⟨hpde, hword, hpte⟩ := mapping_eq_some.mp hv
  have ht := h.taken hq
  by_cases hnew : g = pgdir ∧ PDX va' = PDX va
  · obtain ⟨rfl, hd⟩ := hnew
    have htable : (m.withTable g va q).tableOf g va' = q := by
      rw [tableOf, hd]
      exact withTable_tableOf h0 hfree.2
    rw [htable, withTable_mem_table (by rintro rfl; exact hfree.1 hg)] at hword
    simp [← hword] at hpte
  · have hdir : (m.withTable pgdir va q).mem g (PDX va') = (m.taken q).mem g (PDX va') := by
      rw [withTable_mem]
      by_cases hgg : g = pgdir
      · exact store_mem_word fun hd => hnew ⟨hgg, hd⟩
      · rw [store_mem_page hgg]
    have hpage : (m.withTable pgdir va q).mem ((m.taken q).tableOf g va')
        = (m.taken q).mem ((m.taken q).tableOf g va') := by
      rw [withTable_mem, store_mem_page]
      intro heq
      exact (ht.pde g _ hg hva).page h.zero (by rw [← tableOf, heq]; exact hg₀)
    rw [tableOf, hdir, ← tableOf, hpage] at hword
    rw [hdir] at hpde
    exact h.writable_taken hq hg ⟨v, mapping_eq_some.mpr ⟨hpde, hword, hpte⟩, hvw, hvx⟩

/-- `page_insert` keeps the directories apart, and gives access to the inserted page only. -/
theorem pageInsert (h : m.Apart D) (hg₀ : D pgdir) (hva : va < UTOP) (hp : ¬ D p)
    (hlt : p < 2 ^ 20) (hperm : perm < 4096)
    (hm : m.pageInsert pgdir p va perm = some (true, m')) :
    m'.Apart D ∧ ∀ g va' x, D g → va' < UTOP → m'.MapsWritable g va' x →
      m.MapsWritable g va' x ∨ (x = p ∧ perm &&& PTE_W ≠ 0) := by
  have hd := PDX_lt_of_lt_UTOP hva
  have hentry : Clear D (Kernel.entry p perm) := .entry hp hlt hperm
  have hflag (hw : Kernel.entry p perm &&& PTE_W ≠ 0) : perm &&& PTE_W ≠ 0 := by
    rw [entry_and (by decide), Nat.and_or_distrib_right] at hw
    simpa [PTE_P, PTE_W] using hw
  have hnew (u : Pmap) (hu : u.Apart D) (hu0 : u.mem pgdir (PDX va) ≠ 0)
      (hmem : m'.mem = (u.store (u.tableOf pgdir va) (PTX va) (Kernel.entry p perm)).mem)
      {g va' x : Nat} (hg : D g) (hx : m'.MapsWritable g va' x) :
      u.MapsWritable g va' x ∨ (x = p ∧ perm &&& PTE_W ≠ 0) := by
    have hx' : (u.store (u.tableOf pgdir va) (PTX va) (Kernel.entry p perm)).MapsWritable g va' x := by
      obtain ⟨v, hv, hrest⟩ := hx
      exact ⟨v, by rwa [← mapping_of_mem hmem], hrest⟩
    rcases writable_store hg ((hu.pde pgdir _ hg₀ hd).page h.zero) hx' with hold | ⟨hw, hpage⟩
    · exact .inl hold
    · rw [pa2page_entry hlt hperm] at hpage
      exact .inr ⟨hpage.symm, hflag hw⟩
  by_cases h0 : m.mem pgdir (PDX va) = 0
  · cases hl : m.pageFreeList with
    | none =>
      rw [pageInsert_full h0 hl] at hm
      simp at hm
    | some q =>
      rw [pageInsert_create h0 hl] at hm
      obtain ⟨u, hu, he⟩ := Option.map_eq_some_iff.mp hm
      obtain ⟨-, rfl⟩ := Prod.mk.inj he
      have hw := h.withTable hg₀ h0 hl
      have hw0 : (m.withTable pgdir va q).mem pgdir (PDX va) ≠ 0 := by
        rw [withTable_pde h0]
        exact entry_ne_zero _ _
      have hlist := hw.list.installPte ⟨(hw.pte pgdir _ (PTX va) hg₀ hd hw0).page h.zero,
        pa2page_PTE_ADDR_lt _⟩ hu
      have hmem := installPte_mem hw0 hu
      refine ⟨(hw.store ((hw.pde pgdir _ hg₀ hd).page h.zero) hentry).congr hmem hlist,
        fun g va' x hg hva' hx => ?_⟩
      rcases hnew _ hw hw0 hmem hg hx with hold | hpx
      · exact .inl (h.writable_withTable hg₀ h0 hl hg (PDX_lt_of_lt_UTOP hva') hold)
      · exact .inr hpx
  · rw [pageInsert_found h0] at hm
    obtain ⟨u, hu, he⟩ := Option.map_eq_some_iff.mp hm
    obtain ⟨-, rfl⟩ := Prod.mk.inj he
    have hlist := h.list.installPte ⟨(h.pte pgdir _ (PTX va) hg₀ hd h0).page h.zero,
      pa2page_PTE_ADDR_lt _⟩ hu
    have hmem := installPte_mem h0 hu
    exact ⟨(h.store ((h.pde pgdir _ hg₀ hd).page h.zero) hentry).congr hmem hlist,
      fun g va' x hg _ hx => hnew m h h0 hmem hg hx⟩

end Pmap.Apart

def System.Directories (s : System) (p : Nat) : Prop := ∃ i, s.Live i ∧ (s.envs i).pgdir = p

def System.Apart (s : System) : Prop := s.pmap.Apart s.Directories

/-- Environment `e` can write to page `p` at `va`. -/
def System.MapsWritable (s : System) (e : Fin NENV) (va p : Nat) : Prop :=
  s.Live e ∧ va < UTOP ∧ s.pmap.MapsWritable (s.envs e).pgdir va p

def Call.isMapping : Call → Bool
  | .pageAlloc _ _ _ => true
  | .pageMap _ _ _ _ _ => true
  | .ipcTrySend _ _ _ _ => true
  | _ => false

/-- The call hands out a page that it takes from the free list, or one that its source entry lets
the source environment write. -/
def Call.Grants (s : System) (c : Fin NENV) (p : Nat) : Call → Prop
  | .pageAlloc _ _ _ => s.pmap.pageFreeList = some p
  | .pageMap srcenvid srcva _ _ _ =>
    ∃ src, s.envid2env c srcenvid true = some src ∧ s.MapsWritable src srcva.toNat p
  | .ipcTrySend _ _ srcva _ => s.MapsWritable c srcva.toNat p
  | _ => False

/-- A `sys_page_map` that passes the checks of its arguments and asks for write access has it at the
source. -/
def Call.AsksForNoMore (s : System) (c : Fin NENV) (a : Call) : Prop :=
  ∀ srcenvid srcva dstenvid dstva perm src dst p pt i,
    a = .pageMap srcenvid srcva dstenvid dstva perm →
    s.envid2env c srcenvid true = some src → s.envid2env c dstenvid true = some dst →
    pageAddr srcva.toNat = true → pageAddr dstva.toNat = true → permValid perm.toNat = true →
    s.pmap.pageLookup (s.envs src).pgdir srcva.toNat = some (p, pt, i) →
    perm.toNat &&& PTE_W ≠ 0 → s.pmap.mem pt i &&& PTE_W ≠ 0

/-- The state after a call, with the access that it can have given. -/
def Grown (s t : System) (grants : Nat → Prop) : Prop :=
  t.Apart ∧ ∀ e va p, t.MapsWritable e va p → s.MapsWritable e va p ∨ grants p

theorem SameDirs.directories {s t : System} (h : SameDirs s t) : t.Directories = s.Directories := by
  funext p
  simp only [System.Directories, h.live, h.pgdir]

theorem SameDirs.grown {s t u : System} {grants : Nat → Prop} (h : SameDirs t u)
    (hm : u.pmap = t.pmap) (ht : Grown s t grants) : Grown s u grants := by
  refine ⟨?_, fun e va p hp => ht.2 e va p ?_⟩
  · rw [System.Apart, hm, h.directories]
    exact ht.1
  · obtain ⟨hlive, hva, hw⟩ := hp
    exact ⟨(h.live e).mp hlive, hva, by rwa [← hm, ← h.pgdir e]⟩

theorem Grown.refl {s : System} (h : s.Apart) (grants : Nat → Prop) : Grown s s grants :=
  ⟨h, fun _ _ _ hp => .inl hp⟩

namespace System.Apart

variable {s t : System} {c : Fin NENV}

theorem grown {u : System} {m : Pmap} {grants : Nat → Prop} (hu : SameDirs s u) (hum : u.pmap = m)
    (hm : m.Apart s.Directories)
    (hw : ∀ g va p, s.Directories g → va < UTOP → m.MapsWritable g va p →
      s.pmap.MapsWritable g va p ∨ grants p) : Grown s u grants := by
  refine ⟨?_, fun e va p hp => ?_⟩
  · rw [System.Apart, hu.directories, hum]
    exact hm
  · obtain ⟨hlive, hva, hwr⟩ := hp
    have hlive' := (hu.live e).mp hlive
    rw [hum, hu.pgdir e] at hwr
    rcases hw _ va p ⟨e, hlive', rfl⟩ hva hwr with hold | hg
    · exact .inl ⟨hlive', hva, hold⟩
    · exact .inr hg

theorem lookup (h : s.Apart) {e : Fin NENV} (he : s.Live e) {va p pt i : Nat} (hva : va < UTOP)
    (hl : s.pmap.pageLookup (s.envs e).pgdir va = some (p, pt, i)) :
    ¬ s.Directories p ∧ p < 2 ^ 20 ∧
      (s.pmap.mem pt i &&& PTE_W ≠ 0 → s.MapsWritable e va p) := by
  by_cases h0 : s.pmap.mem (s.envs e).pgdir (PDX va) = 0
  · rw [Pmap.pageLookup_missing h0] at hl
    simp at hl
  · rw [Pmap.pageLookup_found h0] at hl
    simp only [Option.some.injEq, Prod.mk.injEq] at hl
    obtain ⟨rfl, rfl, rfl⟩ := hl
    have hdir : s.Directories (s.envs e).pgdir := ⟨e, he, rfl⟩
    have hd := PDX_lt_of_lt_UTOP hva
    have hpte := h.pte _ _ (PTX va) hdir hd h0
    refine ⟨hpte.page h.zero, pa2page_PTE_ADDR_lt _, fun hw => ?_⟩
    have hpde : s.pmap.mem (s.envs e).pgdir (PDX va) &&& PTE_P ≠ 0 := by
      rcases h.pde _ _ hdir hd with hz | hp
      · exact absurd hz h0
      · exact hp.1
    have hpresent : s.pmap.mem (s.pmap.tableOf (s.envs e).pgdir va) (PTX va) &&& PTE_P ≠ 0 := by
      rcases hpte with hz | hp
      · exact absurd (show _ = 0 from hz) (by
          intro hz
          rw [Pmap.tableOf, hz] at hw
          simp at hw)
      · exact hp.1
    exact ⟨he, hva, _, Pmap.mapping_eq_some.mpr ⟨hpde, rfl, hpresent⟩, hw, rfl⟩

theorem pageFreeNull (h : s.Apart) (hc : s.Live c) (grants : Nat → Prop)
    (ht : s.pageFreeNull c = some t) : Grown s t grants := by
  have hdir : s.Directories (s.envs c).pgdir := ⟨c, hc, rfl⟩
  simp only [System.pageFreeNull] at ht
  split_ifs at ht with hpresent
  obtain rfl := Option.some.inj ht
  have h0 : s.pmap.mem (s.envs c).pgdir 0 ≠ 0 := by
    intro hz
    simp [hz] at hpresent
  have hp := (h.pte _ 0 0 hdir (by decide) h0).page h.zero
  have hst := h.store (i := 0) hp (.zero s.Directories)
  refine grown (.pmap s _) rfl ⟨h.zero, ⟨by simp, hst.list.link⟩, hst.pde, hst.pte⟩ ?_
  intro g va x hg _ hx
  rcases Pmap.Apart.writable_store (m := s.pmap) (w := 0) hg hp hx with hold | ⟨hw, -⟩
  · exact .inl hold
  · simp at hw

theorem sysPageAlloc (h : s.Apart) (hc : s.Live c) {envid va perm : BitVec 32}
    (ho : (s.sysPageAlloc c envid va perm).state? = some t) :
    Grown s t fun p => s.pmap.pageFreeList = some p := by
  unfold System.sysPageAlloc at ho
  split at ho
  · obtain rfl := Option.some.inj ho
    exact .refl h _
  · next e he =>
    have hlive := live_of_envid2env he hc
    split at ho
    · obtain rfl := Option.some.inj ho
      exact .refl h _
    · next hchecks =>
      have hva : pageAddr va.toNat = true := by simp at hchecks; exact hchecks.1
      have hperm : permValid perm.toNat = true := by simp at hchecks; exact hchecks.2
      cases hl : s.pmap.pageFreeList with
      | none =>
        rw [Pmap.pageAlloc_none hl] at ho
        dsimp only at ho
        split at ho
        · simp [Outcome.state?] at ho
        · next u hu =>
          obtain rfl := Option.some.inj ho
          exact h.pageFreeNull hc _ hu
      | some p =>
        rw [Pmap.pageAlloc_some hl] at ho
        dsimp only at ho
        have hfree := h.list.head p hl
        have htaken := h.taken hl
        split at ho
        · simp [Outcome.state?] at ho
        · next m hm =>
          obtain rfl := Option.some.inj ho
          obtain ⟨hapart, hw⟩ := htaken.pageInsert ⟨e, hlive, rfl⟩ (pageAddr_lt hva) hfree.1 hfree.2
            (permValid_lt hperm) hm
          refine grown (.pmap s _) rfl hapart fun g va' x hg hva' hx => ?_
          rcases hw g va' x hg hva' hx with hold | ⟨rfl, -⟩
          · exact .inl (h.writable_taken hl hg hold)
          · exact .inr rfl
        · next m hm =>
          obtain ⟨-, rfl, -⟩ | ⟨hb, -⟩ := Pmap.pageInsert_cases hm
          · split at ho
            · simp [Outcome.state?] at ho
            · next m hf =>
              obtain rfl := Option.some.inj ho
              have hmem := Pmap.pageFree_mem hf
              refine grown (.pmap s _) rfl (htaken.congr hmem (htaken.list.pageFree hfree hf)) ?_
              intro g va' x hg _ hx
              obtain ⟨w, hw, hrest⟩ := hx
              rw [Pmap.mapping_of_mem hmem] at hw
              exact .inl (h.writable_taken hl hg ⟨w, hw, hrest⟩)
          · simp at hb

private theorem pageInsert_grown (h : s.Apart) {e : Fin NENV} (he : s.Live e) {p va perm : Nat} {b : Bool}
    {m : Pmap} (hva : va < UTOP) (hp : ¬ s.Directories p) (hlt : p < 2 ^ 20) (hperm : perm < 4096)
    (hm : s.pmap.pageInsert (s.envs e).pgdir p va perm = some (b, m)) {u : System}
    (hu : SameDirs s u) (hum : u.pmap = m) {grants : Nat → Prop}
    (hgrants : perm &&& PTE_W ≠ 0 → grants p) : Grown s u grants := by
  cases b with
  | true =>
    obtain ⟨hapart, hw⟩ := Pmap.Apart.pageInsert h ⟨e, he, rfl⟩ hva hp hlt hperm hm
    refine grown hu hum hapart fun g va' x hg hva' hx => ?_
    rcases hw g va' x hg hva' hx with hold | ⟨rfl, hperm⟩
    · exact .inl hold
    · exact .inr (hgrants hperm)
  | false =>
    obtain ⟨-, rfl, -⟩ | ⟨hb, -⟩ := Pmap.pageInsert_cases hm
    · exact hu.grown hum (.refl h grants)
    · simp at hb

theorem sysPageMap (h : s.Apart) (hc : s.Live c) {srcenvid srcva dstenvid dstva perm : BitVec 32}
    (hsafe : (Call.pageMap srcenvid srcva dstenvid dstva perm).AsksForNoMore s c)
    (ho : (s.sysPageMap c srcenvid srcva dstenvid dstva perm).state? = some t) :
    Grown s t fun p => (Call.pageMap srcenvid srcva dstenvid dstva perm).Grants s c p := by
  unfold System.sysPageMap at ho
  split at ho
  · obtain rfl := Option.some.inj ho
    exact .refl h _
  · next src hsrc =>
    split at ho
    · obtain rfl := Option.some.inj ho
      exact .refl h _
    · next dst hdst =>
      split at ho
      · obtain rfl := Option.some.inj ho
        exact .refl h _
      · next hchecks =>
        obtain ⟨⟨hsva, hdva⟩, hperm⟩ : (pageAddr srcva.toNat = true ∧ pageAddr dstva.toNat = true) ∧
            permValid perm.toNat = true := by simpa using hchecks
        split at ho
        · obtain rfl := Option.some.inj ho
          exact .refl h _
        · next p pt i hl =>
          have hslive := live_of_envid2env hsrc hc
          have hdlive := live_of_envid2env hdst hc
          obtain ⟨hp, hlt, hwr⟩ := h.lookup hslive (pageAddr_lt hsva) hl
          have hgrants (hw : perm.toNat &&& PTE_W ≠ 0) :
              (Call.pageMap srcenvid srcva dstenvid dstva perm).Grants s c p :=
            ⟨src, hsrc, hwr (hsafe _ _ _ _ _ _ _ _ _ _ rfl hsrc hdst hsva hdva hperm hl hw)⟩
          dsimp only at ho
          split at ho
          · obtain rfl := Option.some.inj ho
            exact .refl h _
          · split at ho
            · simp [Outcome.state?] at ho
            · next m hm =>
              obtain rfl := Option.some.inj ho
              exact h.pageInsert_grown hdlive (pageAddr_lt hdva) hp hlt (permValid_lt hperm) hm
                (.pmap s _) rfl hgrants
            · next m hm =>
              obtain rfl := Option.some.inj ho
              exact h.pageInsert_grown hdlive (pageAddr_lt hdva) hp hlt (permValid_lt hperm) hm
                (.pmap s _) rfl hgrants

private theorem sameDirs_deliver (u : System) {e : Fin NENV} (he : u.Live e) (value : BitVec 32) :
    SameDirs u (u.deliver c e value) :=
  .update rfl (by simpa using he)

theorem sendPage (h : s.Apart) (hc : s.Live c) {e : Fin NENV} (he : s.Live e)
    {value srcva perm : BitVec 32} (hva : srcva.toNat < UTOP)
    (ho : (s.sendPage c e value srcva perm).state? = some t) :
    Grown s t fun p => s.MapsWritable c srcva.toNat p := by
  unfold System.sendPage at ho
  split at ho
  · obtain rfl := Option.some.inj ho
    exact .refl h _
  · split at ho
    · obtain rfl := Option.some.inj ho
      exact .refl h _
    · next hperm =>
      have hperm : permValid perm.toNat = true := by simpa using hperm
      split at ho
      · obtain rfl := Option.some.inj ho
        exact .refl h _
      · next p pt i hl =>
        obtain ⟨hp, hlt, hwr⟩ := h.lookup hc hva hl
        split at ho
        · obtain rfl := Option.some.inj ho
          exact .refl h _
        · next hw =>
          have hgrants (hpw : perm.toNat &&& PTE_W ≠ 0) : s.MapsWritable c srcva.toNat p :=
            hwr fun hz => hw ⟨hpw, hz⟩
          split at ho
          · next hdst =>
            split at ho
            · simp [Outcome.state?] at ho
            · next m hm =>
              obtain rfl := Option.some.inj ho
              have hstore : SameDirs s { s.setEnv e { s.envs e with ipcPerm := 0 } with pmap := m } :=
                .update rfl Iff.rfl
              exact h.pageInsert_grown he hdst hp hlt (permValid_lt hperm) hm hstore rfl hgrants
            · next m hm =>
              obtain rfl := Option.some.inj ho
              have hstore : SameDirs s { s.setEnv e { s.envs e with ipcPerm := perm.toNat } with
                  pmap := m } := .update rfl Iff.rfl
              exact h.pageInsert_grown he hdst hp hlt (permValid_lt hperm) hm
                (hstore.trans (sameDirs_deliver _ ((hstore.live e).mpr he) value)) rfl hgrants
          · obtain rfl := Option.some.inj ho
            exact (sameDirs_deliver s he value).grown rfl (.refl h _)

theorem sysIpcTrySend (h : s.Apart) (hc : s.Live c) {envid value srcva perm : BitVec 32}
    (ho : (s.sysIpcTrySend c envid value srcva perm).state? = some t) :
    Grown s t fun p => s.MapsWritable c srcva.toNat p := by
  unfold System.sysIpcTrySend at ho
  split at ho
  · obtain rfl := Option.some.inj ho
    exact .refl h _
  · next e hid =>
    have he := live_of_envid2env hid hc
    split at ho
    · obtain rfl := Option.some.inj ho
      exact .refl h _
    · dsimp only at ho
      have hmark : SameDirs s (s.setEnv e { s.envs e with ipcRecving := false }) :=
        .update rfl Iff.rfl
      have hapart := (hmark.grown rfl (.refl h fun _ => False)).1
      have he' := (hmark.live e).mpr he
      -- marking the receiver changes no access
      have hsame (e' : Fin NENV) (va p : Nat) :
          (s.setEnv e { s.envs e with ipcRecving := false }).MapsWritable e' va p
            ↔ s.MapsWritable e' va p := by
        rw [System.MapsWritable, System.MapsWritable, hmark.live, hmark.pgdir]
        rfl
      split at ho
      · next hva =>
        obtain ⟨ha, hw⟩ := hapart.sendPage ((hmark.live c).mpr hc) he' hva ho
        exact ⟨ha, fun e' va p hp => by simpa only [hsame] using hw e' va p hp⟩
      · obtain rfl := Option.some.inj ho
        exact (hmark.trans (sameDirs_deliver _ he' value)).grown rfl (.refl h _)

theorem call (h : s.Apart) (hc : s.Live c) {a : Call} (ha : a.isMapping = true)
    (hsafe : a.AsksForNoMore s c) (ho : (a.exec s c).state? = some t) :
    Grown s t fun p => a.Grants s c p := by
  cases a with
  | pageAlloc envid va perm => exact h.sysPageAlloc hc ho
  | pageMap srcenvid srcva dstenvid dstva perm => exact h.sysPageMap hc hsafe ho
  | ipcTrySend envid value srcva perm => exact h.sysIpcTrySend hc ho
  | _ => simp [Call.isMapping] at ha

end System.Apart

/-- The event schedules an environment or is one of the calls that map pages, and a
`sys_page_map` asks for no more than the source has. -/
def Event.AsksForNoMore (i : Event) (s : System) : Prop :=
  ∀ a, i = .call a → a.isMapping = true ∧ ∀ c, s.curenv = some c → a.AsksForNoMore s c

def Event.Grants (i : Event) (s : System) (p : Nat) : Prop :=
  ∃ a c, i = .call a ∧ s.curenv = some c ∧ a.Grants s c p

/-- The event takes page `p` from the free list for an environment. -/
def Event.Allocates (i : Event) (s : System) (p : Nat) : Prop :=
  ∃ envid va perm, i = .call (.pageAlloc envid va perm) ∧ s.pmap.pageFreeList = some p

theorem Event.grown {s t : System} {i : Event} (hs : s.Apart) (hi : i.AsksForNoMore s)
    (h : i.exec s = some t) : Grown s t fun p => i.Grants s p := by
  cases i with
  | run e =>
    simp only [Event.exec] at h
    split at h
    · next hrun =>
      obtain rfl := Option.some.inj h
      have hre := Rescheduled.envRun (s := s) (e := e) (by simp [System.Live, hrun])
      exact hre.sameDirs.grown hre.pmap (.refl hs _)
    · obtain rfl := Option.some.inj h
      exact .refl hs _
  | call a =>
    simp only [Event.exec] at h
    split at h
    · obtain rfl := Option.some.inj h
      exact .refl hs _
    · next c hcur =>
      split at h
      · next hact =>
        obtain ⟨u, hu, hsame, hpmap⟩ := sameDirs_resume h
        obtain ⟨ha, hsafe⟩ := hi a rfl
        have hgrown := hs.call hact.live ha (hsafe c hcur) hu
        obtain ⟨hapart, hw⟩ := hsame.grown hpmap hgrown
        refine ⟨hapart, fun e va p hp => ?_⟩
        rcases hw e va p hp with hold | hg
        · exact .inl hold
        · exact .inr ⟨a, c, rfl, hcur, hg⟩
      · obtain rfl := Option.some.inj h
        exact .refl hs _

private theorem Event.grown_step {s : System} {i : Event} (hs : s.Apart) (hi : i.AsksForNoMore s) :
    Grown s (kernelMachine.step i s) fun p => i.Grants s p := by
  cases hx : i.exec s with
  | none =>
    simp only [kernelMachine, hx, Option.getD_none]
    exact .refl hs _
  | some t =>
    simp only [kernelMachine, hx, Option.getD_some]
    exact grown hs hi hx

/-- Access that a call grants was there before, unless the page is fresh. -/
theorem Event.Grants.source {s : System} {i : Event} {p : Nat} (h : i.Grants s p) :
    i.Allocates s p ∨ ∃ e va, s.MapsWritable e va p := by
  obtain ⟨a, c, rfl, -, hg⟩ := h
  cases a with
  | pageAlloc envid va perm => exact .inl ⟨envid, va, perm, rfl, hg⟩
  | pageMap srcenvid srcva dstenvid dstva perm =>
    obtain ⟨src, -, hw⟩ := hg
    exact .inr ⟨src, _, hw⟩
  | ipcTrySend envid value srcva perm => exact .inr ⟨c, _, hg⟩
  | _ => exact hg.elim

/-- In every run of the calls that map pages in which no `sys_page_map` asks for write access that
its source lacks, every new write access is to a fresh page or was there at the source, and a page
that nobody can write stays so until it is allocated. -/
theorem no_write_amplification {s₀ : System} (h₀ : s₀.Apart) (events : List Event)
    (hrun : kernelMachine.Along Event.AsksForNoMore events s₀) :
    let s := kernelMachine.run events s₀
    (∀ i : Event, i.AsksForNoMore s → ∀ e va p, (kernelMachine.step i s).MapsWritable e va p →
      ¬ s.MapsWritable e va p → i.Grants s p) ∧
    ∀ p, (∀ e va, ¬ s₀.MapsWritable e va p) →
      kernelMachine.Along (fun i s => ¬ i.Allocates s p) events s₀ →
        ∀ e va, ¬ s.MapsWritable e va p := by
  have hinv : (kernelMachine.run events s₀).Apart :=
    Machine.run_invariant (I := System.Apart) (fun i s hs hi => (Event.grown_step hs hi).1) h₀ hrun
  refine ⟨fun i hi e va p hp hnot => ?_, fun p hp hfresh => ?_⟩
  · exact ((Event.grown_step hinv hi).2 e va p hp).resolve_left hnot
  · refine (Machine.run_invariant (I := fun s => s.Apart ∧ ∀ e va, ¬ s.MapsWritable e va p) ?_
      ⟨h₀, hp⟩ (hrun.and hfresh)).2
    rintro i s ⟨hs, hro⟩ ⟨hi, hno⟩
    obtain ⟨hapart, hw⟩ := Event.grown_step hs hi
    refine ⟨hapart, fun e va hwr => ?_⟩
    rcases hw e va p hwr with hold | hg
    · exact hro e va hold
    · rcases hg.source with halloc | ⟨e', va', hold⟩
      · exact hno halloc
      · exact hro e' va' hold

private theorem sampleSystem_directories (p : Nat) : sampleSystem.Directories p ↔ p = 301 ∨ p = 302 := by
  constructor
  · rintro ⟨i, hi, rfl⟩
    obtain rfl | rfl := sampleSystem_live hi
    · exact .inl rfl
    · exact .inr rfl
  · rintro (rfl | rfl)
    · exact ⟨0, by decide, rfl⟩
    · exact ⟨1, by decide, rfl⟩

private theorem sampleSystem_apart : sampleSystem.Apart := by
  have hD := sampleSystem_directories
  refine ⟨by rw [hD]; decide, ⟨fun p hp => ?_, fun p q hq => ?_⟩, fun g d hg hd => ?_,
    fun g d t hg hd h0 => ?_⟩
  · obtain rfl : 306 = p := Option.some.inj hp
    rw [hD]
    decide
  · rw [hD]
    simp only [sampleSystem, samplePmap] at hq
    split at hq
    · obtain rfl := Option.some.inj hq
      omega
    · simp at hq
  · rw [hD] at hg
    by_cases h0 : samplePmap.mem g d = 0
    · exact .inl h0
    · obtain ⟨rfl, rfl⟩ := samplePmap_pde hg hd h0
      rw [Clear, hD]
      decide
  · rw [hD] at hg
    obtain ⟨rfl, rfl⟩ := samplePmap_pde hg hd h0
    have htable : pa2page (PTE_ADDR (sampleSystem.pmap.mem 302 2)) = 303 := by decide
    rw [htable]
    by_cases ht : samplePmap.mem 303 t = 0
    · exact .inl ht
    · rw [Clear, hD]
      obtain rfl | rfl := samplePmap_pte ht
      · decide
      · decide

private theorem sampleSystem_writable {e : Fin NENV} {va p : Nat} (h : sampleSystem.MapsWritable e va p) :
    p = 304 := by
  obtain ⟨hlive, hva, w, hw, hwr, rfl⟩ := h
  rcases sampleSystem_mapping hlive hva hw with rfl | rfl
  · decide
  · exact absurd hwr (by decide)

/-- The program maps its writable page a second time; its read-only page stays read-only. -/
theorem no_write_amplification_alias :
    let events : List Event := [.call (.pageMap 0 0x800000 0 0x803000 7)]
    (kernelMachine.run events sampleSystem).MapsWritable 1 0x803000 304 ∧
      ∀ e va, ¬ (kernelMachine.run events sampleSystem).MapsWritable e va 305 := by
  intro events
  have hrun : kernelMachine.Along Event.AsksForNoMore events sampleSystem := by
    refine ⟨?_, fun _ => trivial⟩
    rintro a ha
    obtain rfl := Event.call.inj ha
    refine ⟨rfl, fun c hc => ?_⟩
    obtain rfl : 1 = c := Option.some.inj hc
    intro srcenvid srcva dstenvid dstva perm src dst p pt i ha hsrc _ _ _ _ hl _
    cases ha
    obtain rfl : 1 = src := Option.some.inj hsrc
    have hfound : sampleSystem.pmap.pageLookup (sampleSystem.envs 1).pgdir 0x800000
        = some (304, 303, 0) := by decide
    obtain ⟨rfl, rfl, rfl⟩ : 304 = p ∧ 303 = pt ∧ 0 = i := by simpa using hfound.symm.trans hl
    decide
  refine ⟨⟨by decide +kernel, by decide, entry 304 7, by decide +kernel, by decide, by decide⟩, ?_⟩
  refine (no_write_amplification sampleSystem_apart events hrun).2 305 (fun e va h => ?_) ?_
  · exact absurd (sampleSystem_writable h) (by decide)
  · refine ⟨?_, fun _ => trivial⟩
    rintro ⟨envid, va, perm, ha, -⟩
    cases ha

/-- The program maps its read-only page a second time, with write access. -/
theorem read_only_page_amplified :
    let i : Event := .call (.pageMap 0 0x801000 0 0x802000 7)
    sampleSystem.Apart ∧ (∀ e va, ¬ sampleSystem.MapsWritable e va 305) ∧
      ¬ i.Grants sampleSystem 305 ∧ ¬ i.Allocates sampleSystem 305 ∧
      (kernelMachine.step i sampleSystem).MapsWritable 1 0x802000 305 := by
  intro i
  have hro (e : Fin NENV) (va : Nat) (h : sampleSystem.MapsWritable e va 305) : False :=
    absurd (sampleSystem_writable h) (by decide)
  have halloc : ¬ i.Allocates sampleSystem 305 := by
    rintro ⟨envid, va, perm, ha, -⟩
    exact absurd (Event.call.inj ha) (by simp)
  refine ⟨sampleSystem_apart, hro, fun hg => ?_, halloc, ?_⟩
  · rcases hg.source with ha | ⟨e, va, hw⟩
    · exact halloc ha
    · exact hro e va hw
  · exact ⟨by decide +kernel, by decide, entry 305 7, by decide +kernel, by decide, by decide⟩

end DamnOS.Kernel
