import DamnOS.Kernel.Authority
import DamnOS.Kernel.Conservation

/-!
# Address spaces

What user code sees of the page tables: for each environment, the entries by page numbers.  The
system calls on pages change one entry of one address space and leave the contents of all mapped
pages alone.
-/

namespace DamnOS.Kernel

open DamnOS.Framework

def NUPAGE : Nat := NUPDE * 1024

def pageOf (w : Nat) : Nat := pa2page (PTE_ADDR w)

theorem pageOf_entry {p perm : Nat} (hp : p < 2 ^ 20) (hperm : perm < 4096) :
    pageOf (entry p perm) = p := pa2page_entry hp hperm

/-- The present entry of an environment for a page number. -/
def System.view (s : System) (e : Fin NENV) (n : Nat) : Option Nat :=
  if s.Live e ∧ n < NUPAGE then s.pmap.mapping (s.envs e).pgdir (n * PGSIZE) else none

section View

variable {s t : System} {e i : Fin NENV} {n k va w : Nat}

theorem page_lt_UTOP (hn : n < NUPAGE) : n * PGSIZE < UTOP := by
  have hN : NUPAGE = 977920 := rfl
  have hU : UTOP = 977920 * 4096 := by decide
  rw [hN] at hn
  rw [hU, PGSIZE]
  omega

theorem div_lt_NUPAGE (hva : va < UTOP) : va / PGSIZE < NUPAGE := by
  have hN : NUPAGE = 977920 := rfl
  have hU : UTOP = 977920 * 4096 := by decide
  rw [hU] at hva
  rw [hN, PGSIZE]
  omega

theorem PDX_page (hn : n < NUPAGE) : PDX (n * PGSIZE) = n / 1024 := by
  have hN : NUPAGE = 977920 := rfl
  rw [hN] at hn
  rw [PDX_eq, PGSIZE]
  omega

theorem PTX_page (n : Nat) : PTX (n * PGSIZE) = n % 1024 := by
  rw [PTX_eq, PGSIZE]
  omega

private theorem PGNUM_page (n : Nat) : PGNUM (n * PGSIZE) = n := by
  rw [PGNUM_eq, PGSIZE]
  omega

private theorem mapping_page (m : Pmap) (pgdir va : Nat) :
    m.mapping pgdir (va / PGSIZE * PGSIZE) = m.mapping pgdir va := by
  have hd : PDX (va / PGSIZE * PGSIZE) = PDX va := by
    simp only [PDX_eq, PGSIZE]
    omega
  have ht : PTX (va / PGSIZE * PGSIZE) = PTX va := by
    simp only [PTX_eq, PGSIZE]
    omega
  unfold Pmap.mapping Pmap.tableOf
  rw [hd, ht]

theorem view_eq (he : s.Live e) (hn : n < NUPAGE) :
    s.view e n = s.pmap.mapping (s.envs e).pgdir (n * PGSIZE) := if_pos ⟨he, hn⟩

theorem view_div (he : s.Live e) (hva : va < UTOP) :
    s.view e (va / PGSIZE) = s.pmap.mapping (s.envs e).pgdir va := by
  rw [view_eq he (div_lt_NUPAGE hva), mapping_page]

theorem view_eq_some (h : s.view e n = some w) :
    s.Live e ∧ n < NUPAGE ∧ s.pmap.mapping (s.envs e).pgdir (n * PGSIZE) = some w := by
  unfold System.view at h
  split at h
  · next hc => exact ⟨hc.1, hc.2, h⟩
  · simp at h

private theorem view_sameDirs (h : SameDirs s t) (hm : t.pmap = s.pmap) (e : Fin NENV) (n : Nat) :
    t.view e n = s.view e n := by
  simp only [System.view, h.live, h.pgdir, hm]

theorem target_eq_view (he : s.Live e) (hn : n < NUPAGE) :
    s.target (Slot.page e (n * PGSIZE) (page_lt_UTOP hn)) = (s.view e n).map pageOf := by
  rw [view_eq he hn]
  simp only [Slot.page, System.target, he, if_true, named, Pmap.mapping, Pmap.tableOf]
  split_ifs with hpde hpte
  · rfl
  · simp [hpte]
  · simp [hpte, pageOf]

theorem target_of_view (h : s.view e n = some w) :
    ∃ hva : n * PGSIZE < UTOP, s.target (Slot.page e (n * PGSIZE) hva) = some (pageOf w) := by
  obtain ⟨he, hn, -⟩ := view_eq_some h
  exact ⟨page_lt_UTOP hn, by rw [target_eq_view he hn, h, Option.map_some]⟩

end View

namespace Booked

variable {M : Nat → Prop} {held : Option Nat} {s : System} {i e : Fin NENV}

theorem slot_of_owns (h : Booked M held s) {p : Nat} (hi : s.Live i) (hp : s.Owns i p) :
    (p = (s.envs i).pgdir ∧ s.target (.dir i) = some p) ∨
      ∃ d : Fin NUPDE, pa2page (PTE_ADDR (s.pmap.mem (s.envs i).pgdir d)) = p ∧
        s.target (.pde i d) = some p := by
  rcases hp with rfl | ⟨d, hd, h0, rfl⟩
  · exact .inl ⟨rfl, target_dir hi⟩
  · exact .inr ⟨⟨d, hd⟩, rfl, (target_pde hi ⟨d, hd⟩).trans ((h.pde i d hi hd).named h0).1⟩

private theorem eq_dir (h : Booked M held s) {x : Slot} {p : Nat} (hp : s.target (.dir i) = some p)
    (hx : s.target x = some p) : x = .dir i :=
  h.exclusive (.dir i) x p trivial hp hx

private theorem eq_pde (h : Booked M held s) {x : Slot} {d : Fin NUPDE} {p : Nat}
    (hp : s.target (.pde i d) = some p) (hx : s.target x = some p) : x = .pde i d :=
  h.exclusive (.pde i d) x p trivial hp hx

theorem separate (h : Booked M held s) (hslot : ∀ i, s.envFreeList = some i → ¬ s.Live i) :
    s.Separate := by
  refine ⟨fun i j p hi hj hij hip hjp => ?_, fun i hi => ⟨?_, ?_⟩, ?_, hslot⟩
  · rcases h.slot_of_owns hi hip with ⟨-, hx⟩ | ⟨d, -, hx⟩
    · rcases h.slot_of_owns hj hjp with ⟨-, hy⟩ | ⟨d', -, hy⟩
      · exact hij (Slot.dir.inj (h.eq_dir hx hy)).symm
      · exact Slot.noConfusion (h.eq_dir hx hy)
    · rcases h.slot_of_owns hj hjp with ⟨-, hy⟩ | ⟨d', -, hy⟩
      · exact Slot.noConfusion (h.eq_pde hx hy)
      · exact hij (Slot.pde.inj (h.eq_pde hx hy)).1.symm
  · rintro ⟨d, hd, h0, hp⟩
    have hx := (target_pde hi ⟨d, hd⟩).trans ((h.pde i d hi hd).named h0).1
    rw [hp] at hx
    exact Slot.noConfusion (h.eq_pde hx (target_dir hi))
  · intro d d' hd hd' h0 h0' hp
    have hx := (target_pde hi ⟨d, hd⟩).trans ((h.pde i d hi hd).named h0).1
    have hy := (target_pde hi ⟨d', hd'⟩).trans ((h.pde i d' hi hd').named h0').1
    rw [hp] at hx
    exact congrArg Fin.val (Slot.pde.inj (h.eq_pde hy hx)).2
  · obtain ⟨xs, hl⟩ := h.ledger
    refine ⟨xs, hl.chain, fun p hp => ⟨h.pages.small p (hl.managed p hp), fun i hi hip => ?_⟩⟩
    have hno := references_eq_zero.mp ((hl.free p (hl.managed p hp)).mp hp).1
    rcases h.slot_of_owns hi hip with ⟨-, hx⟩ | ⟨d, -, hx⟩
    · exact hno _ hx
    · exact hno _ hx

private theorem mapping_not_owned (h : Booked M held s) {j : Fin NENV} {va w : Nat} (hi : s.Live i) (hj : s.Live j)
    (hva : va < UTOP) (hw : s.pmap.mapping (s.envs i).pgdir va = some w) : ¬ s.Owns j (pa2page (PTE_ADDR w)) := by
  intro hjp
  have hdata := target_of_mapping hi hva hw
  rcases h.slot_of_owns hj hjp with ⟨-, hx⟩ | ⟨d, -, hx⟩
  · exact Slot.noConfusion (h.eq_dir hx hdata)
  · exact Slot.noConfusion (h.eq_pde hx hdata)

end Booked

namespace Pmap

variable {m m' : Pmap} {pgdir va p perm : Nat}

private theorem pageInsert_mapping_self (hs : m.Single pgdir) (hva : va < UTOP)
    (hpde : m.mem pgdir (PDX va) ≠ 0 → m.mem pgdir (PDX va) &&& PTE_P ≠ 0)
    (hq : ∀ q, m.pageFreeList = some q → q < 2 ^ 20 ∧ ¬ m.Owns pgdir q)
    (h : m.pageInsert pgdir p va perm = some (true, m')) :
    m'.mapping pgdir va = some (entry p perm) := by
  rcases pageInsert_mem h with ⟨h0, hmem⟩ | ⟨q, h0, hl, hmem⟩
  · have hdir : m'.mem pgdir = m.mem pgdir := by
      rw [hmem, store_mem_page (tableOf_ne_dir hs hva h0)]
    refine mapping_eq_some.mpr ⟨?_, ?_, entry_present p perm⟩
    · rw [hdir]
      exact hpde h0
    · rw [tableOf, hdir, hmem]
      exact store_mem_self ..
  · obtain ⟨hqlt, hqown⟩ := hq q hl
    have hqg : pgdir ≠ q := fun hg => hqown (.inl hg.symm)
    rw [withTable_tableOf h0 hqlt] at hmem
    have hpde : m'.mem pgdir (PDX va) = entry q (PTE_W ||| PTE_U) := by
      rw [hmem, store_mem_page hqg, withTable_pde h0]
    refine mapping_eq_some.mpr ⟨?_, ?_, entry_present p perm⟩
    · rw [hpde]
      exact entry_present q _
    · rw [tableOf, hpde, pa2page_entry hqlt (by decide), hmem]
      exact store_mem_self ..

private theorem pageRemove_mapping_self (hs : m.Single pgdir) (hva : va < UTOP)
    (h : m.pageRemove pgdir va = some m') : m'.mapping pgdir va = none := by
  rcases pageRemove_mem h with ⟨h0, rfl⟩ | ⟨h0, hmem⟩
  · simp [mapping, h0]
  · have hdir : m'.mem pgdir = m.mem pgdir := by
      rw [hmem, store_mem_page (tableOf_ne_dir hs hva h0)]
    have htable : m'.mem (m'.tableOf pgdir va) (PTX va) = 0 := by
      rw [tableOf, hdir, hmem]
      exact store_mem_self ..
    simp [mapping, htable]

end Pmap

/-- The entry of one environment for one page number changes; mapped pages keep their contents. -/
structure Remapped (s t : System) (e : Fin NENV) (n : Nat) (o : Option Nat) : Prop where
  view : ∀ i k, t.view i k = if i = e ∧ k = n then o else s.view i k
  data : ∀ i k w, s.view i k = some w → t.pmap.mem (pageOf w) = s.pmap.mem (pageOf w)

private theorem Remapped.of_mapping {s : System} {e : Fin NENV} {n : Nat} {o : Option Nat} {m : Pmap}
    (he : s.Live e) (hn : n < NUPAGE) (hself : m.mapping (s.envs e).pgdir (n * PGSIZE) = o)
    (hsame : ∀ k < NUPAGE, k ≠ n →
      m.mapping (s.envs e).pgdir (k * PGSIZE) = s.pmap.mapping (s.envs e).pgdir (k * PGSIZE))
    (hother : ∀ i, s.Live i → i ≠ e → ∀ va < UTOP,
      m.mapping (s.envs i).pgdir va = s.pmap.mapping (s.envs i).pgdir va)
    (hdata : ∀ i k w, s.view i k = some w → m.mem (pageOf w) = s.pmap.mem (pageOf w)) :
    Remapped s { s with pmap := m } e n o := by
  refine ⟨fun i k => ?_, hdata⟩
  by_cases hk : s.Live i ∧ k < NUPAGE
  · obtain ⟨hi, hk⟩ := hk
    have hi' : ({ s with pmap := m } : System).Live i := hi
    rw [view_eq hi' hk, view_eq hi hk]
    split
    · next hc =>
      obtain ⟨rfl, rfl⟩ := hc
      exact hself
    · next hc =>
      by_cases hie : i = e
      · subst hie
        exact hsame k hk fun hkn => hc ⟨rfl, hkn⟩
      · exact hother i hi hie _ (page_lt_UTOP hk)
  · have hne : ¬ (i = e ∧ k = n) := by
      rintro ⟨rfl, rfl⟩
      exact hk ⟨he, hn⟩
    have hk' : ¬ (({ s with pmap := m } : System).Live i ∧ k < NUPAGE) := hk
    rw [if_neg hne, System.view, System.view, if_neg hk, if_neg hk']

namespace Booked

variable {M : Nat → Prop} {held : Option Nat} {s : System} {i e : Fin NENV} {n w : Nat}

private theorem view_not_owned (h : Booked M held s) {k : Nat} (hw : s.view i k = some w) :
    s.pmap.pageFreeList ≠ some (pageOf w) ∧ ∀ j, s.Live j → ¬ s.Owns j (pageOf w) := by
  obtain ⟨hi, hk, hmap⟩ := view_eq_some hw
  obtain ⟨hva, htarget⟩ := target_of_view hw
  refine ⟨fun hq => (h.head hq).2.1 _ htarget, fun j hj => ?_⟩
  exact h.mapping_not_owned hi hj hva hmap

private theorem remapped_pageInsert {m : Pmap} {p perm : Nat} (h : Booked M held s)
    (hslot : ∀ i, s.envFreeList = some i → ¬ s.Live i) (he : s.Live e) (hn : n < NUPAGE)
    (hm : s.pmap.pageInsert (s.envs e).pgdir p (n * PGSIZE) perm = some (true, m)) :
    Remapped s { s with pmap := m } e n (some (entry p perm)) := by
  have hsep := h.separate hslot
  have hva := page_lt_UTOP hn
  have hq (q : Nat) (hq : s.pmap.pageFreeList = some q) :
      q < 2 ^ 20 ∧ ¬ s.pmap.Owns (s.envs e).pgdir q := ⟨(hsep.head hq).1, (hsep.head hq).2 e he⟩
  refine .of_mapping he hn ?_ (fun k hk hkn => ?_) (fun i hi hie va hva' => ?_) fun i k w hw => ?_
  · refine Pmap.pageInsert_mapping_self (hsep.single e he) hva (fun h0 => ?_) hq hm
    exact (named_eq_some.mp ((h.pde e _ he (PDX_lt_of_lt_UTOP hva)).named h0).1).1
  · refine Pmap.pageInsert_mapping (hsep.single e he) hva (page_lt_UTOP hk) ?_ hq hm
    rwa [PGNUM_page, PGNUM_page]
  · exact Pmap.mapping_of_owns (hsep.pageInsert hi he hie hva hm) hva'
  · obtain ⟨hfree, howns⟩ := h.view_not_owned hw
    exact Pmap.pageInsert_touches hva (fun q hq => (hsep.head hq).1) hm (howns e he) hfree

private theorem remapped_pageRemove {m : Pmap} (h : Booked M held s)
    (hslot : ∀ i, s.envFreeList = some i → ¬ s.Live i) (he : s.Live e) (hn : n < NUPAGE)
    (hm : s.pmap.pageRemove (s.envs e).pgdir (n * PGSIZE) = some m) :
    Remapped s { s with pmap := m } e n none := by
  have hsep := h.separate hslot
  have hva := page_lt_UTOP hn
  have hout := (Pmap.Emptied.refl (s.envs e).pgdir s.pmap).pageRemove hva hm
  refine .of_mapping he hn (Pmap.pageRemove_mapping_self (hsep.single e he) hva hm)
    (fun k hk hkn => ?_) (fun i hi hie va hva' => ?_) fun i k w hw => ?_
  · rcases Pmap.pageRemove_mem hm with ⟨-, rfl⟩ | ⟨h0, hmem⟩
    · rfl
    · refine Pmap.storePte_mapping (hsep.single e he) hva (page_lt_UTOP hk) ?_ h0 hmem
      rwa [PGNUM_page, PGNUM_page]
  · exact Pmap.mapping_of_owns (fun x hx => hout.outside x (hsep.disjoint i e x hi he hie hx)) hva'
  · exact hout.outside _ ((h.view_not_owned hw).2 e he)

end Booked

/-- There is no page table for page `n`, and no page to make one. -/
def System.Starved (s : System) (e : Fin NENV) (n : Nat) : Prop :=
  s.pmap.mem (s.envs e).pgdir (PDX (n * PGSIZE)) = 0 ∧ s.pmap.pageFreeList = none

private theorem pteStore_aligned (pt i : Nat) : (KERNBASE + page2pa pt + 4 * i) &&& PTE_W = 0 := by
  have hmod : (KERNBASE + page2pa pt + 4 * i) % 4 = 0 := by
    rw [page2pa, Nat.shiftLeft_eq, KERNBASE]
    omega
  have hlow : (KERNBASE + page2pa pt + 4 * i) &&& (2 ^ 2 - 1) = 0 := by
    rw [Nat.and_two_pow_sub_one_eq_mod]
    exact hmod
  have hmask : PTE_W = (2 ^ 2 - 1) &&& PTE_W := by decide
  rw [hmask, ← Nat.and_assoc, hlow, Nat.zero_and]

/-- With valid arguments and a page to map, all depends on `page_insert`. -/
theorem sysPageMap_cases {s : System} {c src dst : Fin NENV} {k n w : Nat}
    {srcenvid srcva dstenvid dstva perm : BitVec 32} (hsrc : s.envid2env c srcenvid true = some src)
    (hdst : s.envid2env c dstenvid true = some dst) (hsva : srcva.toNat = k * PGSIZE)
    (hdva : dstva.toNat = n * PGSIZE) (hn : n < NUPAGE) (hw : s.view src k = some w)
    (hperm : permValid perm.toNat = true) :
    (s.pmap.pageInsert (s.envs dst).pgdir (pageOf w) (n * PGSIZE) perm.toNat = none ∧
      s.sysPageMap c srcenvid srcva dstenvid dstva perm = .panics) ∨
    (¬ s.Starved dst n ∧
      ∃ m, s.pmap.pageInsert (s.envs dst).pgdir (pageOf w) (n * PGSIZE) perm.toNat = some (true, m) ∧
        s.sysPageMap c srcenvid srcva dstenvid dstva perm = .returns 0 { s with pmap := m }) ∨
    (s.Starved dst n ∧ s.sysPageMap c srcenvid srcva dstenvid dstva perm = .returns (-E_NO_MEM) s) := by
  obtain ⟨-, hk, hmap⟩ := view_eq_some hw
  obtain ⟨hpde, hword, -⟩ := Pmap.mapping_eq_some.mp hmap
  have htable : s.pmap.mem (s.envs src).pgdir (PDX (k * PGSIZE)) ≠ 0 := fun h0 => by
    simp [h0] at hpde
  have haddr {j : Nat} (hj : j < NUPAGE) : pageAddr (j * PGSIZE) = true := by
    simp [pageAddr, page_lt_UTOP hj]
  have hlook : s.pmap.pageLookup (s.envs src).pgdir (k * PGSIZE) =
      some (pageOf w, s.pmap.tableOf (s.envs src).pgdir (k * PGSIZE), PTX (k * PGSIZE)) := by
    rw [Pmap.pageLookup_found htable, hword, pageOf]
  cases hr : s.pmap.pageInsert (s.envs dst).pgdir (pageOf w) (n * PGSIZE) perm.toNat with
  | none =>
    refine .inl ⟨rfl, ?_⟩
    simp [System.sysPageMap, hsrc, hdst, hsva, hdva, haddr hk, haddr hn, hperm, hlook, pteStore_aligned, hr]
  | some r =>
    obtain ⟨b, m⟩ := r
    rcases Pmap.pageInsert_cases hr with ⟨rfl, rfl, h0, hl⟩ | ⟨rfl, hroom⟩
    · refine .inr (.inr ⟨⟨h0, hl⟩, ?_⟩)
      simp [System.sysPageMap, hsrc, hdst, hsva, hdva, haddr hk, haddr hn, hperm, hlook, pteStore_aligned, hr]
    · refine .inr (.inl ⟨fun hstarved => ?_, m, rfl, ?_⟩)
      · rcases hroom with h0 | hl
        · exact h0 hstarved.1
        · exact hl hstarved.2
      · simp [System.sysPageMap, hsrc, hdst, hsva, hdva, haddr hk, haddr hn, hperm, hlook, pteStore_aligned, hr]

/-- A system call on pages that succeeds: the books stay in order, one entry changes, and counts
follow it. -/
structure Remaps (M : Nat → Prop) (s t : System) (e : Fin NENV) (n : Nat) (o : Option Nat) : Prop
    extends Remapped s t e n o where
  accounted : Accounted M t
  envs : t.envs = s.envs
  refs : ∀ i k w, t.view i k = some w →
    t.pmap.ppRef (pageOf w) + (if (s.view e n).map pageOf = some (pageOf w) then 1 else 0)
      ≤ s.pmap.ppRef (pageOf w) + (if o.map pageOf = some (pageOf w) then 1 else 0)

private theorem Booked.refs_of_update {M : Nat → Prop} {held held' : Option Nat} {s t : System} {x : Slot}
    {τ : Slot → Option Nat} {o : Option Nat} (hs : Booked M held s) (ht : Booked M held' t)
    (hx : ¬ x.Structural) (htarget : t.target = Function.update τ x o)
    (hτ : ∀ y : Slot, ¬ y.Structural → τ y = s.target y) {i : Fin NENV} {k w : Nat}
    (hw : t.view i k = some w) :
    t.pmap.ppRef (pageOf w) + (if s.target x = some (pageOf w) then 1 else 0)
      ≤ s.pmap.ppRef (pageOf w) + (if o = some (pageOf w) then 1 else 0) := by
  obtain ⟨hi, hk, hmap⟩ := view_eq_some hw
  obtain ⟨hva, hslot⟩ := target_of_view hw
  have hM : M (pageOf w) := by
    obtain ⟨hpde, rfl, hpte⟩ := Pmap.mapping_eq_some.mp hmap
    exact (ht.pte i _ _ _ hi (PDX_lt_of_lt_UTOP hva) (PTX_lt _)
      (named_eq_some.mpr ⟨hpde, rfl⟩)).managed (named_eq_some.mpr ⟨hpte, rfl⟩)
  obtain ⟨xs, hls⟩ := hs.ledger
  obtain ⟨ys, hlt⟩ := ht.ledger
  have hshare := ht.exclusive.references_eq_shares (r := Slot.page i (k * PGSIZE) hva) not_false hslot
  have hstep := shares_update (S := Slot.Structural) τ hx o (pageOf w)
  have hsame := shares_congr (S := Slot.Structural) hτ (pageOf w)
  have hle := shares_le (S := Slot.Structural) s.target (pageOf w)
  rw [hls.count _ hM, hlt.count _ hM, hshare, htarget, ← hτ x hx]
  omega

namespace Booked

variable {M : Nat → Prop} {held : Option Nat} {s t : System} {c e : Fin NENV} {n p perm : Nat}
  {m : Pmap}

theorem remaps_pageInsert (h : Booked M held s) (htable : ∃ xs, EnvTable s xs) (he : s.Live e)
    (hn : n < NUPAGE) (hM : M p) (hp : Mappable s held p) (hperm : perm < 4096)
    (hlt : references s.target p < 65535 ∨ (s.view e n).map pageOf = some p)
    (hm : s.pmap.pageInsert (s.envs e).pgdir p (n * PGSIZE) perm = some (true, m)) :
    Remaps M s { s with pmap := m } e n (some (entry p perm)) := by
  obtain ⟨xs, hxs⟩ := htable
  rw [← target_eq_view he hn] at hlt
  obtain ⟨hbooked, τ, htarget, hτ⟩ := h.pageInsert he (page_lt_UTOP hn) hM hp hperm hlt hm
  refine ⟨h.remapped_pageInsert (fun _ => hxs.head_not_live) he hn hm,
    ⟨hbooked, xs, (SameTable.pmap s m).envTable hxs⟩, rfl, fun i k w hw => ?_⟩
  have hrefs := h.refs_of_update (x := Slot.page e (n * PGSIZE) (page_lt_UTOP hn)) hbooked
    not_false htarget hτ hw
  rw [target_eq_view he hn] at hrefs
  rwa [Option.map_some, pageOf_entry (h.pages.small p hM) hperm]

private theorem remaps_pageRemove (h : Booked M none s) (htable : ∃ xs, EnvTable s xs) {w : Nat}
    (hw : s.view e n = some w)
    (hm : s.pmap.pageRemove (s.envs e).pgdir (n * PGSIZE) = some m) :
    Remaps M s { s with pmap := m } e n none := by
  obtain ⟨xs, hxs⟩ := htable
  obtain ⟨he, hn, hmap⟩ := view_eq_some hw
  obtain ⟨-, hword, hpresent⟩ := Pmap.mapping_eq_some.mp hmap
  obtain ⟨htarget, hbooked⟩ := h.pageRemove he (page_lt_UTOP hn) (fun _ h0 => by
    rw [hword] at h0
    simp [h0] at hpresent) hm
  refine ⟨h.remapped_pageRemove (fun _ => hxs.head_not_live) he hn hm,
    ⟨hbooked, xs, (SameTable.pmap s m).envTable hxs⟩, rfl, fun i k w hw => ?_⟩
  have hrefs := h.refs_of_update (x := Slot.page e (n * PGSIZE) (page_lt_UTOP hn)) hbooked
    not_false htarget (fun _ _ => rfl) hw
  rwa [target_eq_view he hn] at hrefs

end Booked

private theorem Remaps.of_unchanged {M : Nat → Prop} {s u t : System} {e : Fin NENV} {n : Nat}
    {o : Option Nat} (h : Remaps M u t e n o) (hview : ∀ i k, u.view i k = s.view i k)
    (henvs : u.envs = s.envs) (href : u.pmap.ppRef = s.pmap.ppRef)
    (hdata : ∀ i k w, s.view i k = some w → u.pmap.mem (pageOf w) = s.pmap.mem (pageOf w)) :
    Remaps M s t e n o := by
  refine ⟨⟨fun i k => ?_, fun i k w hw => ?_⟩, h.accounted, h.envs.trans henvs, fun i k w hw => ?_⟩
  · rw [h.view, hview]
  · rw [h.data i k w (by rw [hview, hw]), hdata i k w hw]
  · have := h.refs i k w hw
    rwa [hview, href] at this

namespace Accounted

variable {M : Nat → Prop} {s t : System} {c e src dst : Fin NENV} {n k w : Nat} {r : Int}
  {envid va perm srcenvid srcva dstenvid dstva : BitVec 32}

theorem sysPageMap (h : Accounted M s) (hc : s.Live c)
    (hsrc : s.envid2env c srcenvid true = some src) (hdst : s.envid2env c dstenvid true = some dst)
    (hsva : srcva.toNat = k * PGSIZE) (hdva : dstva.toNat = n * PGSIZE)
    (hw : s.view src k = some w)
    (hlt : s.pmap.ppRef (pageOf w) < 65535 ∨ (s.view dst n).map pageOf = some (pageOf w))
    (ho : s.sysPageMap c srcenvid srcva dstenvid dstva perm = .returns r t) (hr : 0 ≤ r) :
    Remaps M s t dst n (some (entry (pageOf w) perm.toNat)) ∧ perm.toNat < 4096 := by
  obtain ⟨hlive, hk, hmap⟩ := view_eq_some hw
  obtain ⟨hva, hslot⟩ := target_of_view hw
  obtain ⟨hpde, hword, hpresent⟩ := Pmap.mapping_eq_some.mp hmap
  have htable : s.pmap.mem (s.envs src).pgdir (PDX (k * PGSIZE)) ≠ 0 := fun h0 => by
    simp [h0] at hpde
  have hM : M (pageOf w) := by
    rw [← hword] at hpresent ⊢
    exact (h.pte src _ _ _ hlive (PDX_lt_of_lt_UTOP hva) (PTX_lt _)
      (named_eq_some.mpr ⟨hpde, rfl⟩)).managed (named_eq_some.mpr ⟨hpresent, rfl⟩)
  obtain ⟨xs, hl⟩ := h.ledger
  rw [hl.count _ hM] at hlt
  simp only [System.sysPageMap, hsrc, hdst, hsva, hdva] at ho
  split at ho
  · cases ho
    simp [E_INVAL] at hr
  · next hcheck =>
    simp only [Bool.or_eq_true, Bool.not_eq_true', not_or, Bool.not_eq_false] at hcheck
    obtain ⟨⟨-, hdst'⟩, hperm⟩ := hcheck
    rw [Pmap.pageLookup_found htable, hword] at ho
    dsimp only at ho
    split at ho
    · cases ho
      simp [E_INVAL] at hr
    · split at ho
      · cases ho
      · next m hm =>
        cases ho
        have hn : n < NUPAGE := by
          have := div_lt_NUPAGE (pageAddr_lt hdst')
          simpa [PGSIZE] using this
        exact ⟨h.remaps_pageInsert h.table (live_of_envid2env hdst hc) hn hM
          (.inl ⟨rfl, Slot.page src (k * PGSIZE) hva, not_false, hslot⟩) (permValid_lt hperm) hlt hm,
          permValid_lt hperm⟩
      · cases ho
        simp [E_NO_MEM] at hr

theorem sysPageUnmap (h : Accounted M s) (he : s.envid2env c envid true = some e)
    (hva : va.toNat = n * PGSIZE) (hw : s.view e n = some w)
    (ho : s.sysPageUnmap c envid va = .returns r t) (hr : 0 ≤ r) : Remaps M s t e n none := by
  simp only [System.sysPageUnmap, he, hva] at ho
  split at ho
  · cases ho
    simp [E_INVAL] at hr
  · split at ho
    · cases ho
    · next m hm =>
      cases ho
      exact h.remaps_pageRemove h.table hw hm

/-- `sys_page_alloc` maps a page that nobody maps, filled with zeros. -/
theorem sysPageAlloc (h : Accounted M s) (hc : s.Live c) (he : s.envid2env c envid true = some e)
    (hva : va.toNat = n * PGSIZE)
    (ho : s.sysPageAlloc c envid va perm = .returns r t) (hr : 0 ≤ r) :
    ∃ q, q < 2 ^ 20 ∧ s.pmap.ppRef q = 0 ∧ (∀ i k w, s.view i k = some w → pageOf w ≠ q) ∧
      Remaps M s t e n (some (entry q perm.toNat)) ∧ (t.pmap.mem q = fun _ => 0) := by
  obtain ⟨xs, hxs⟩ := h.table
  simp only [System.sysPageAlloc, he, hva] at ho
  split at ho
  · cases ho
    simp [E_INVAL] at hr
  · next hcheck =>
    simp only [Bool.or_eq_true, Bool.not_eq_true', not_or, Bool.not_eq_false] at hcheck
    have hlive := live_of_envid2env he hc
    have hn : n < NUPAGE := by
      have := div_lt_NUPAGE (pageAddr_lt hcheck.1)
      simpa [PGSIZE] using this
    cases hq : s.pmap.pageFreeList with
    | none =>
      rw [Pmap.pageAlloc_none hq] at ho
      dsimp only at ho
      split at ho
      · cases ho
      · cases ho
        simp [E_NO_MEM] at hr
    | some q =>
      rw [Pmap.pageAlloc_some hq] at ho
      dsimp only at ho
      split at ho
      · cases ho
      · next m hm =>
        cases ho
        obtain ⟨hM, hno, hskel⟩ := h.head hq
        obtain ⟨htarget, htaken⟩ := h.take hq
        have hsep := h.separate fun _ => hxs.head_not_live
        have hkept (i : Fin NENV) (hi : s.Live i) (x : Nat) (hx : s.Owns i x) :
            (s.pmap.taken q).mem x = s.pmap.mem x :=
          Pmap.taken_mem_page fun hxq => (hsep.head hq).2 i hi (hxq ▸ hx)
        have hview (i : Fin NENV) (k : Nat) :
            ({ s with pmap := s.pmap.taken q } : System).view i k = s.view i k := by
          by_cases hk : s.Live i ∧ k < NUPAGE
          · have hi' : ({ s with pmap := s.pmap.taken q } : System).Live i := hk.1
            rw [view_eq hk.1 hk.2, view_eq hi' hk.2]
            exact Pmap.mapping_of_owns (hkept i hk.1) (page_lt_UTOP hk.2)
          · have hk' : ¬ (({ s with pmap := s.pmap.taken q } : System).Live i ∧ k < NUPAGE) := hk
            rw [System.view, System.view, if_neg hk, if_neg hk']
        have hmapped (i : Fin NENV) (k w : Nat) (hw : s.view i k = some w) : pageOf w ≠ q := by
          obtain ⟨_, hslot⟩ := target_of_view hw
          rintro rfl
          exact hno _ hslot
        have hremaps := htaken.remaps_pageInsert ⟨xs, (SameTable.pmap s _).envTable hxs⟩ hlive hn hM
          (.inr rfl) (permValid_lt hcheck.2) (.inl (by
            rw [htarget, references_eq_zero.mpr hno]
            decide)) hm
        obtain ⟨ys, hl⟩ := h.ledger
        have hzero : s.pmap.ppRef q = 0 := (hl.count q hM).trans (references_eq_zero.mpr hno)
        refine ⟨q, h.pages.small q hM, hzero, hmapped, hremaps.of_unchanged hview rfl rfl fun i k w hw =>
          Pmap.taken_mem_page (hmapped i k w hw), ?_⟩
        have htouch := Pmap.pageInsert_touches (page_lt_UTOP hn)
          (fun x hx => (hsep.next hq hx).1) hm (x := q)
          (by
            rw [Pmap.owns_congr (hkept e hlive _ (.inl rfl))]
            exact (hsep.head hq).2 e hlive)
          (fun hx => by
            obtain ⟨ys, hl⟩ := htaken.ledger
            exact (hl.head hx).2.2.1 rfl)
        exact htouch.trans (Pmap.taken_mem_self s.pmap q)
      · split at ho
        · cases ho
        · cases ho
          simp [E_NO_MEM] at hr

end Accounted

/-- A step that changes no mapping: the books stay in order, and what is mapped keeps its contents
and its count. -/
structure Unmapping (M : Nat → Prop) (s t : System) : Prop where
  accounted : Accounted M t
  view : ∀ i k, t.view i k = s.view i k
  data : ∀ i k w, s.view i k = some w → t.pmap.mem (pageOf w) = s.pmap.mem (pageOf w)
  refs : ∀ i k w, s.view i k = some w → t.pmap.ppRef (pageOf w) = s.pmap.ppRef (pageOf w)

namespace Accounted

variable {M : Nat → Prop} {s t : System} {c e : Fin NENV} {r : Int}

/-- A change to an environment that is not about its address space. -/
theorem setEnv {v : Env} (h : Accounted M s) (hl : v.link = (s.envs e).link)
    (hi : v.id = (s.envs e).id) (hg : v.pgdir = (s.envs e).pgdir)
    (hv : v.status ≠ .free ↔ s.Live e) : Unmapping M s (s.setEnv e v) := by
  obtain ⟨hb, xs, hxs⟩ := h
  have hdirs : SameDirs s (s.setEnv e v) := .update hg hv
  have htable : SameTable s (s.setEnv e v) := .update hl hi hv
  exact ⟨⟨hb.of_sameDirs hdirs rfl, xs, htable.envTable hxs⟩, view_sameDirs hdirs rfl,
    fun _ _ _ _ => rfl, fun _ _ _ _ => rfl⟩

theorem sysExofork (h : Accounted M s) (hc : s.Live c) (ho : s.sysExofork c = .returns r t) :
    ((r = -E_NO_FREE_ENV ∨ r = -E_NO_MEM) ∧ t = s) ∨ ∃ e, ¬ s.Live e ∧ t.Live e ∧ Unmapping M s t ∧
      (∀ i, i ≠ e → t.envs i = s.envs i) ∧ (t.envs e).id.toInt = r ∧
      (t.envs e).parentId = (s.envs c).id := by
  obtain ⟨hb, xs, hxs⟩ := h
  have htable : ∃ ys, EnvTable t ys :=
    ((s.sysExofork_effect c).envTable hxs hc (by rw [ho]; rfl))
  unfold System.sysExofork at ho
  split at ho
  · next r' u hu =>
    cases ho
    exact .inl ⟨envAlloc_error_code hu, envAlloc_error hu⟩
  · next e u hu =>
    cases ho
    right
    have hslot : ∀ i, s.envFreeList = some i → ¬ s.Live i := fun _ => hxs.head_not_live
    have hbu := hb.envAlloc hslot hu
    obtain ⟨he, q, hq, rfl⟩ := envAlloc_cases hu
    have hfree := hslot e he
    obtain ⟨hM, hno, hskel⟩ := hb.head hq
    have hsep := hb.separate hslot
    have hlive : System.Live ⟨s.pmap.newDirectory q, Function.update s.envs e
        ((s.envs e).fresh e (s.envs c).id q), (s.envs e).link, s.curenv⟩ e := by
      simp [System.Live, Env.fresh]
    generalize hv : (s.envs e).fresh e (s.envs c).id q = v at *
    have hpgdir : v.pgdir = q := by rw [← hv]; rfl
    have hparent : v.parentId = (s.envs c).id := by rw [← hv]; rfl
    generalize hu' : (⟨s.pmap.newDirectory q, Function.update s.envs e v, (s.envs e).link,
      s.curenv⟩ : System) = u at *
    have hm : u.pmap = s.pmap.newDirectory q := by rw [← hu']
    have hself : u.envs e = v := by
      rw [← hu']
      exact Function.update_self ..
    have hother (i : Fin NENV) (hi : i ≠ e) : u.envs i = s.envs i := by
      rw [← hu']
      exact Function.update_of_ne hi ..
    have hchild : SameDirs u (u.setEnv e ((u.envs e).child (u.envs c))) :=
      .update rfl ⟨fun _ => hlive, fun _ => by simp [Env.child]⟩
    have hmapped (i : Fin NENV) (k w : Nat) (hw : s.view i k = some w) : pageOf w ≠ q := by
      obtain ⟨_, htarget⟩ := target_of_view hw
      rintro rfl
      exact hno _ htarget
    have hview (i : Fin NENV) (k : Nat) : u.view i k = s.view i k := by
      by_cases hie : i = e
      · subst hie
        have hold : s.view i k = none := if_neg fun hc => hfree hc.1
        rw [hold]
        by_cases hk : k < NUPAGE
        · have hzero : u.pmap.mem q (PDX (k * PGSIZE)) = 0 := by
            rw [hm, Pmap.newDirectory_mem_pde (fun hk => hskel (.inr hk.symm))
              (PDX_lt_of_lt_UTOP (page_lt_UTOP hk))]
            exact hb.kernUser _ (PDX_lt_of_lt_UTOP (page_lt_UTOP hk))
          rw [view_eq hlive hk, hself, hpgdir]
          simp [Pmap.mapping, hzero]
        · exact if_neg fun hc => hk hc.2
      · have hiff : u.Live i ↔ s.Live i := by rw [System.Live, System.Live, hother i hie]
        by_cases hk : s.Live i ∧ k < NUPAGE
        · rw [view_eq hk.1 hk.2, view_eq (hiff.mpr hk.1) hk.2, hother i hie, hm]
          exact Pmap.mapping_of_owns (fun x hx => Pmap.newDirectory_mem_page fun hxq =>
            (hsep.head hq).2 i hk.1 (hxq ▸ hx)) (page_lt_UTOP hk.2)
        · rw [System.view, System.view, if_neg hk, if_neg fun hc => hk ⟨hiff.mp hc.1, hc.2⟩]
    refine ⟨e, hfree, (hchild.live e).mpr hlive, ⟨⟨hbu.of_sameDirs hchild rfl, htable⟩,
      fun i k => ?_, fun i k w hw => ?_, fun i k w hw => ?_⟩, fun i hi => ?_, ?_, ?_⟩
    · exact (view_sameDirs hchild rfl i k).trans (hview i k)
    · rw [System.setEnv, hm]
      exact Pmap.newDirectory_mem_page (hmapped i k w hw)
    · rw [System.setEnv, hm]
      exact Pmap.newDirectory_ppRef (hmapped i k w hw)
    · rw [u.setEnv_envs_of_ne hi, hother i hi]
    · rw [u.setEnv_envs_self]
    · rw [u.setEnv_envs_self, ← hparent, ← hself]

theorem writeData {i : Fin NENV} {k w : Nat} {mem : Nat → Nat → Nat} (h : Accounted M s)
    (hw : s.view i k = some w) (hmem : ∀ x, x ≠ pageOf w → mem x = s.pmap.mem x) :
    Accounted M { s with pmap := { s.pmap with mem := mem } } ∧
      ∀ j n, ({ s with pmap := { s.pmap with mem := mem } } : System).view j n = s.view j n := by
  obtain ⟨hb, xs, hxs⟩ := h
  obtain ⟨hi, hk, hmap⟩ := view_eq_some hw
  have hskel := hb.mapped_not_skeleton hi (page_lt_UTOP hk) hmap
  obtain ⟨-, howns⟩ := hb.view_not_owned hw
  obtain ⟨htarget, hshaped⟩ := hb.of_mem (m := { s.pmap with mem := mem }) rfl fun x hx =>
    hmem x (by rintro rfl; exact hskel hx)
  obtain ⟨ys, hl⟩ := hb.ledger
  refine ⟨⟨⟨hshaped, ys, by rw [htarget]; exact hl.congr rfl rfl rfl⟩, xs,
    (SameTable.pmap s _).envTable hxs⟩, fun j n => ?_⟩
  by_cases hn : s.Live j ∧ n < NUPAGE
  · have hj' : ({ s with pmap := { s.pmap with mem := mem } } : System).Live j := hn.1
    rw [view_eq hn.1 hn.2, view_eq hj' hn.2]
    exact Pmap.mapping_of_owns (fun x hx => hmem x (by rintro rfl; exact howns j hn.1 hx))
      (page_lt_UTOP hn.2)
  · have hn' : ¬ (({ s with pmap := { s.pmap with mem := mem } } : System).Live j ∧ n < NUPAGE) := hn
    rw [System.view, System.view, if_neg hn, if_neg hn']

end Accounted

end DamnOS.Kernel
