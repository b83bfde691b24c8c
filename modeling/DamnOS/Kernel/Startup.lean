import DamnOS.Kernel.Conservation

/-!
# From `mem_init` to the first programs

The kernel sets up the free list, its own mappings and the first environments.  The books are in
order when it is done, provided that it did not run out of pages on the way.
-/

namespace DamnOS.Kernel

open DamnOS.Framework

/-- What `mem_init` starts from: sizes and addresses in pages (`npages`, `npages_basemem`, the end of
`boot_alloc`, `kern_pgdir`), the physical addresses of `pages`, `envs` and `bootstack`, and the
contents of memory. -/
structure Hardware where
  npages : Nat
  basemem : Nat
  kernEnd : Nat
  kernPgdir : Nat
  pages : Nat
  envs : Nat
  bootstack : Nat
  mem : Nat → Nat → Nat
  -- the sizes come from registers of sixteen bits that count kilobytes
  npages_lt : npages < 2 ^ 15
  -- `kern_pgdir` is the first page that `boot_alloc` hands out, above the kernel
  basemem_le : basemem ≤ kernPgdir
  kern_lt : kernPgdir < kernEnd

namespace Hardware

variable (hw : Hardware)

/-- The state before `page_init`: the directory and `pages` are cleared, and the directory is
entered into itself. -/
def bare : Pmap where
  mem := Function.update hw.mem hw.kernPgdir
    (Function.update (fun _ => 0) (PDX UVPT) (page2pa hw.kernPgdir ||| PTE_U ||| PTE_P))
  ppRef _ := 0
  ppLink _ := none
  pageFreeList := none
  kernPgdir := hw.kernPgdir

/-- The regions of `boot_map_region`: address, size, physical address, permissions. -/
def regions : List (Nat × Nat × Nat × Nat) :=
  [(UPAGES, (hw.npages * 8 + PGSIZE - 1) / PGSIZE * PGSIZE, hw.pages, PTE_U ||| PTE_P),
    (UENVS, PTSIZE, hw.envs, PTE_U ||| PTE_P),
    (KSTACKTOP - KSTKSIZE, KSTKSIZE, hw.bootstack, PTE_W ||| PTE_P),
    (KERNBASE, 0xFFFFFFFF - KERNBASE, 0, PTE_W ||| PTE_P)]

def pageInit : Pmap := hw.bare.pageInit hw.npages hw.basemem hw.kernEnd

def memInit : Option Pmap :=
  hw.regions.foldlM (fun m (va, size, pa, perm) => m.bootMapRegion hw.kernPgdir va size pa perm)
    hw.pageInit

def FreePage (p : Nat) : Prop :=
  ∃ xs, Chain hw.pageInit.ppLink hw.pageInit.pageFreeList xs ∧ p ∈ xs

end Hardware

def LeftFree (basemem kernEnd i : Nat) : Prop :=
  i ≠ 0 ∧ i ≠ PGNUM basemem ∧ (i < basemem ∨ (0x100000 / PGSIZE < i ∧ kernEnd ≤ i))

private theorem pageInit_fold (basemem kernEnd : Nat) {l : List Nat} (hl : l.Pairwise (· > ·)) (m : Pmap)
    (xs : List Nat) (hchain : Chain m.ppLink m.pageFreeList xs) (hxs : ∀ p ∈ xs, m.ppRef p = 0)
    (hsorted : xs.Pairwise (· < ·)) (hbelow : ∀ i ∈ l, ∀ p ∈ xs, i < p) :
    let m' := l.foldl (Pmap.pageInitStep basemem kernEnd) m
    m'.mem = m.mem ∧ m'.kernPgdir = m.kernPgdir ∧ ∃ ys, Chain m'.ppLink m'.pageFreeList ys ∧
      (∀ p ∈ ys, m'.ppRef p = 0) ∧ ys.Pairwise (· < ·) ∧
        ∀ p, p ∈ ys ↔ p ∈ xs ∨ (p ∈ l ∧ LeftFree basemem kernEnd p) := by
  induction l generalizing m xs with
  | nil => exact ⟨rfl, rfl, xs, hchain, hxs, hsorted, by simp⟩
  | cons i l ih =>
    obtain ⟨hi, hl⟩ := List.pairwise_cons.mp hl
    have hix (p : Nat) (hp : p ∈ xs) : i < p := hbelow i (by simp) p hp
    have hrest (j : Nat) (hj : j ∈ l) : ∀ p ∈ xs, j < p := hbelow j (by simp [hj])
    -- a page that stays in use
    have hused {u : Pmap} (hf : ¬ LeftFree basemem kernEnd i) (hmem : u.mem = m.mem)
        (hk : u.kernPgdir = m.kernPgdir) (hlist : u.pageFreeList = m.pageFreeList)
        (hlink : ∀ p ≠ i, u.ppLink p = m.ppLink p) (href : ∀ p ≠ i, u.ppRef p = m.ppRef p) :
        let m' := l.foldl (Pmap.pageInitStep basemem kernEnd) u
        m'.mem = m.mem ∧ m'.kernPgdir = m.kernPgdir ∧ ∃ ys, Chain m'.ppLink m'.pageFreeList ys ∧
          (∀ p ∈ ys, m'.ppRef p = 0) ∧ ys.Pairwise (· < ·) ∧
            ∀ p, p ∈ ys ↔ p ∈ xs ∨ (p ∈ i :: l ∧ LeftFree basemem kernEnd p) := by
      obtain ⟨hmem', hk', ys, hys, h0, hinc, hall⟩ := ih hl u xs
        (by rw [hlist]; exact hchain.congr fun p hp => hlink p (hix p hp).ne')
        (fun p hp => (href p (hix p hp).ne').trans (hxs p hp)) hsorted hrest
      refine ⟨hmem'.trans hmem, hk'.trans hk, ys, hys, h0, hinc, fun p => (hall p).trans ?_⟩
      rw [List.mem_cons]
      constructor
      · rintro (hp | ⟨hp, hfree⟩)
        · exact .inl hp
        · exact .inr ⟨.inr hp, hfree⟩
      · rintro (hp | ⟨rfl | hp, hfree⟩)
        · exact .inl hp
        · exact absurd hfree hf
        · exact .inr ⟨hp, hfree⟩
    -- a page that becomes free
    have hfree (hf : LeftFree basemem kernEnd i) :
        let m' := l.foldl (Pmap.pageInitStep basemem kernEnd)
          { m.setRef i 0 with
            ppLink := Function.update m.ppLink i m.pageFreeList, pageFreeList := some i }
        m'.mem = m.mem ∧ m'.kernPgdir = m.kernPgdir ∧ ∃ ys, Chain m'.ppLink m'.pageFreeList ys ∧
          (∀ p ∈ ys, m'.ppRef p = 0) ∧ ys.Pairwise (· < ·) ∧
            ∀ p, p ∈ ys ↔ p ∈ xs ∨ (p ∈ i :: l ∧ LeftFree basemem kernEnd p) := by
      obtain ⟨hmem', hk', ys, hys, h0, hinc, hall⟩ := ih hl
        { m.setRef i 0 with
          ppLink := Function.update m.ppLink i m.pageFreeList, pageFreeList := some i }
        (i :: xs)
        (hchain.push fun hp => (hix i hp).false)
        (fun p hp => by
          by_cases hpi : p = i
          · subst hpi
            simp [Pmap.setRef]
          · simp only [Pmap.setRef, Function.update_of_ne hpi]
            exact hxs p ((List.mem_cons.mp hp).resolve_left hpi))
        (List.pairwise_cons.mpr ⟨hix, hsorted⟩)
        (fun j hj p hp => by
          rcases List.mem_cons.mp hp with rfl | hp
          · exact hi j hj
          · exact hrest j hj p hp)
      refine ⟨hmem', hk', ys, hys, h0, hinc, fun p => (hall p).trans ?_⟩
      rw [List.mem_cons, List.mem_cons]
      constructor
      · rintro ((rfl | hp) | ⟨hp, hf'⟩)
        · exact .inr ⟨.inl rfl, hf⟩
        · exact .inl hp
        · exact .inr ⟨.inr hp, hf'⟩
      · rintro (hp | ⟨rfl | hp, hf'⟩)
        · exact .inl (.inr hp)
        · exact .inl (.inl rfl)
        · exact .inr ⟨hp, hf'⟩
    rw [List.foldl_cons]
    unfold Pmap.pageInitStep
    unfold LeftFree at hused hfree ⊢
    split_ifs with h1 h2 h3
    · refine hused (by omega) rfl rfl rfl (fun p hp => Function.update_of_ne hp _ _) fun p hp => ?_
      exact Function.update_of_ne hp _ _
    · exact hfree (by omega)
    · refine hused (by omega) rfl rfl rfl (fun p hp => Function.update_of_ne hp _ _) fun p hp => ?_
      exact Function.update_of_ne hp _ _
    · exact hfree (by omega)

theorem pageInit_list {m : Pmap} (hm : m.pageFreeList = none) (npages basemem kernEnd : Nat) :
    let m' := m.pageInit npages basemem kernEnd
    m'.mem = m.mem ∧ m'.kernPgdir = m.kernPgdir ∧ ∃ xs, Chain m'.ppLink m'.pageFreeList xs ∧
      (∀ p ∈ xs, m'.ppRef p = 0) ∧ xs.Pairwise (· < ·) ∧
        ∀ p, p ∈ xs ↔ p < npages ∧ LeftFree basemem kernEnd p := by
  have hdown : ((List.range (npages - 1)).map (· + 1)).reverse.Pairwise (· > ·) := by
    rw [List.pairwise_reverse]
    exact List.pairwise_lt_range.map _ fun _ _ h => Nat.succ_lt_succ h
  obtain ⟨hmem, hk, ys, hys, h0, hinc, hall⟩ := pageInit_fold basemem kernEnd hdown m [] hm (by simp) .nil (by simp)
  refine ⟨hmem, hk, ys, hys, h0, hinc, fun p => (hall p).trans ?_⟩
  simp only [List.not_mem_nil, List.mem_reverse, List.mem_map, List.mem_range, false_or]
  constructor
  · rintro ⟨⟨j, hj, rfl⟩, hf⟩
    exact ⟨by omega, hf⟩
  · rintro ⟨hp, hf⟩
    have := hf.1
    exact ⟨⟨p - 1, by omega, by omega⟩, hf⟩

namespace Hardware

variable (hw : Hardware)

/-- The pages on the list are those that the loop leaves free; they have no references yet. -/
theorem pageInit_spec : hw.pageInit.mem = hw.bare.mem ∧ hw.pageInit.kernPgdir = hw.kernPgdir ∧
    ∃ xs, Chain hw.pageInit.ppLink hw.pageInit.pageFreeList xs ∧
      (∀ p ∈ xs, hw.pageInit.ppRef p = 0) ∧
        ∀ p, p ∈ xs ↔ p < hw.npages ∧ LeftFree hw.basemem hw.kernEnd p := by
  obtain ⟨hmem, hk, xs, hxs, h0, -, hall⟩ := pageInit_list (m := hw.bare) rfl hw.npages hw.basemem hw.kernEnd
  exact ⟨hmem, hk, xs, hxs, h0, hall⟩

theorem freePage_iff {xs : List Nat} (hxs : Chain hw.pageInit.ppLink hw.pageInit.pageFreeList xs)
    (p : Nat) : hw.FreePage p ↔ p ∈ xs := by
  constructor
  · rintro ⟨ys, hys, hp⟩
    rwa [hxs.unique hys]
  · exact fun hp => ⟨xs, hxs, hp⟩

theorem freePage_iff_leftFree (p : Nat) :
    hw.FreePage p ↔ p < hw.npages ∧ LeftFree hw.basemem hw.kernEnd p := by
  obtain ⟨-, -, xs, hxs, -, hall⟩ := hw.pageInit_spec
  exact (hw.freePage_iff hxs p).trans (hall p)

/-- The free pages are numbers of pages other than 0 and `kern_pgdir`. -/
theorem FreePage.bounds {p : Nat} (h : hw.FreePage p) : p ≠ 0 ∧ p < 2 ^ 20 ∧ p ≠ hw.kernPgdir := by
  obtain ⟨hp, h0, -, hf⟩ := (hw.freePage_iff_leftFree p).mp h
  have := hw.npages_lt
  have := hw.basemem_le
  have := hw.kern_lt
  exact ⟨h0, by omega, by omega⟩

end Hardware

/-- The books while no environment exists: only `kern_pgdir` refers to pages. -/
structure Founded (M : Nat → Prop) (s : System) : Prop extends Booked M none s where
  dead : ∀ i, ¬ s.Live i
  kern : ∀ d < 1024, d ≠ PDX UVPT → Proper M (s.pmap.mem s.pmap.kernPgdir d)

section Dead

variable {M : Nat → Prop} {s : System}

private theorem target_dead (hdead : ∀ i, ¬ s.Live i) {x : Slot} {p : Nat} (hx : s.target x = some p) :
    ∃ d, x = .kern d := by
  cases x with
  | kern d => exact ⟨d, rfl⟩
  | dir i | pde i d | pte i d t => simp [System.target, hdead i] at hx

private theorem shaped_dead (hdead : ∀ i, ¬ s.Live i) (hpages : Managed M s.pmap.kernPgdir)
    (huser : ∀ d < NUPDE, s.pmap.mem s.pmap.kernPgdir d = 0) : Shaped M s := by
  refine ⟨hpages, huser, fun i hi => absurd hi (hdead i), fun i _ hi => absurd hi (hdead i),
    fun i _ _ _ hi => absurd hi (hdead i), fun x y p hx hxp => ?_⟩
  obtain ⟨d, rfl⟩ := target_dead hdead hxp
  exact absurd hx not_false

end Dead

namespace Founded

variable {M : Nat → Prop} {s : System}

theorem store {pt i w : Nat} (h : Founded M s) (hpt : pt ≠ s.pmap.kernPgdir) :
    Founded M { s with pmap := s.pmap.store pt i w } := by
  have hkern : (s.pmap.store pt i w).mem s.pmap.kernPgdir = s.pmap.mem s.pmap.kernPgdir :=
    Pmap.store_mem_page hpt.symm
  obtain ⟨htarget, hshaped⟩ := h.of_mem (m := s.pmap.store pt i w) rfl fun p hp => by
    rcases hp with ⟨x, hx, hxp⟩ | rfl
    · obtain ⟨d, rfl⟩ := target_dead h.dead hxp
      exact absurd hx not_false
    · exact hkern
  obtain ⟨xs, hl⟩ := h.ledger
  refine ⟨⟨hshaped, xs, by rw [htarget]; exact hl.congr rfl rfl rfl⟩, h.dead, fun d hd hne => ?_⟩
  exact (congrArg (Proper M) (congrFun hkern d)).mpr (h.kern d hd hne)

theorem withTable {va q : Nat} (h : Founded M s) (hva : NUPDE ≤ PDX va) (hne : PDX va ≠ PDX UVPT)
    (h0 : s.pmap.mem s.pmap.kernPgdir (PDX va) = 0) (hq : s.pmap.pageFreeList = some q) :
    Founded M { s with pmap := s.pmap.withTable s.pmap.kernPgdir va q } := by
  obtain ⟨hM, hno, hskel⟩ := h.head hq
  have hkq : s.pmap.kernPgdir ≠ q := by
    rintro rfl
    exact hskel (.inr rfl)
  have hlt : PDX va < 1024 := by
    rw [PDX_eq]
    omega
  have hsmall := h.pages.small q hM
  have hself := Pmap.withTable_pde (q := q) h0
  have hother {d : Nat} (hd : d ≠ PDX va) :
      (s.pmap.withTable s.pmap.kernPgdir va q).mem s.pmap.kernPgdir d
        = s.pmap.mem s.pmap.kernPgdir d := Pmap.withTable_mem_pde hkq hd
  have hdead : ∀ i, ¬ ({ s with pmap := s.pmap.withTable s.pmap.kernPgdir va q } : System).Live i :=
    h.dead
  have htarget : ({ s with pmap := s.pmap.withTable s.pmap.kernPgdir va q } : System).target
      = Function.update s.target (.kern ⟨PDX va, hlt⟩) (some q) := by
    funext x
    cases x with
    | kern d =>
      by_cases hd : d.val = PDX va
      · obtain rfl : d = ⟨PDX va, hlt⟩ := Fin.ext hd
        rw [Function.update_self]
        simp only [System.target, if_neg hne]
        rw [show (s.pmap.withTable s.pmap.kernPgdir va q).kernPgdir = s.pmap.kernPgdir by rfl, hself,
          named_entry hsmall (by decide)]
      · rw [Function.update_of_ne (by
          intro hx
          exact hd (congrArg Fin.val (Slot.kern.inj hx)))]
        simp only [System.target]
        rw [show (s.pmap.withTable s.pmap.kernPgdir va q).kernPgdir = s.pmap.kernPgdir by rfl,
          hother hd]
    | dir i | pde i d | pte i d t =>
      rw [Function.update_of_ne (by simp)]
      simp [System.target, h.dead i, hdead i]
  have hshaped : Shaped M { s with pmap := s.pmap.withTable s.pmap.kernPgdir va q } := by
    refine shaped_dead hdead h.pages fun d hd => ?_
    exact (hother (by omega)).trans (h.kernUser d hd)
  obtain ⟨xs, hl⟩ := h.ledger
  obtain ⟨ys, hl'⟩ := hl.adopt (s := .kern ⟨PDX va, hlt⟩)
    (by simp [System.target, h0]) hq
  refine ⟨⟨hshaped, ys, ?_⟩, hdead, fun d hd hne => ?_⟩
  · rw [htarget]
    exact hl'.congr rfl rfl rfl
  · by_cases hdv : d = PDX va
    · subst hdv
      exact (congrArg (Proper M) hself).mpr (.entry hM hsmall (by decide))
    · exact (congrArg (Proper M) (hother hdv)).mpr (h.kern d hd hne)

theorem bootMapPage {m : Pmap} {va pa perm i : Nat} (h : Founded M s)
    (hva : NUPDE ≤ PDX (va + i * PGSIZE)) (hne : PDX (va + i * PGSIZE) ≠ PDX UVPT)
    (hm : Pmap.bootMapPage s.pmap.kernPgdir va pa perm s.pmap i = some m) :
    Founded M { s with pmap := m } ∧ m.kernPgdir = s.pmap.kernPgdir := by
  have hlt : PDX (va + i * PGSIZE) < 1024 := by
    rw [PDX_eq]
    omega
  unfold Pmap.bootMapPage at hm
  by_cases h0 : s.pmap.mem s.pmap.kernPgdir (PDX (va + i * PGSIZE)) = 0
  · cases hq : s.pmap.pageFreeList with
    | none =>
      rw [Pmap.pgdirWalk_full h0 hq] at hm
      simp at hm
    | some q =>
      rw [Pmap.pgdirWalk_create h0 hq] at hm
      obtain rfl := Option.some.inj hm
      have hM := (h.head hq).1
      refine ⟨(h.withTable hva hne h0 hq).store fun hk => ?_, rfl⟩
      rw [Pmap.withTable_tableOf h0 (h.pages.small q hM)] at hk
      exact h.pages.kern (hk ▸ hM)
  · rw [Pmap.pgdirWalk_found h0] at hm
    obtain rfl := Option.some.inj hm
    have hM := ((h.kern _ hlt hne).named h0).2
    exact ⟨h.store fun hk => h.pages.kern (hk ▸ hM), rfl⟩

theorem bootMapRegion {m : Pmap} {va size pa perm : Nat} (h : Founded M s)
    (hva : ∀ i < (size + PGSIZE - 1) / PGSIZE,
      NUPDE ≤ PDX (va + i * PGSIZE) ∧ PDX (va + i * PGSIZE) ≠ PDX UVPT)
    (hm : s.pmap.bootMapRegion s.pmap.kernPgdir va size pa perm = some m) :
    Founded M { s with pmap := m } ∧ m.kernPgdir = s.pmap.kernPgdir := by
  refine foldlM_invariant
    (I := fun b => Founded M { s with pmap := b } ∧ b.kernPgdir = s.pmap.kernPgdir) ?_ ⟨h, rfl⟩ hm
  rintro i hi b b' ⟨hb, hk⟩ hstep
  obtain ⟨hlo, hne⟩ := hva i (List.mem_range.mp hi)
  rw [← hk] at hstep
  obtain ⟨hb', hk'⟩ := hb.bootMapPage hlo hne hstep
  exact ⟨hb', hk'.trans hk⟩

end Founded

theorem Hardware.regions_above (hw : Hardware) {va size pa perm : Nat}
    (h : (va, size, pa, perm) ∈ hw.regions) {i : Nat} (hi : i < (size + PGSIZE - 1) / PGSIZE) :
    NUPDE ≤ PDX (va + i * PGSIZE) ∧ PDX (va + i * PGSIZE) ≠ PDX UVPT := by
  have := hw.npages_lt
  have hN : NUPDE = 955 := rfl
  simp only [Hardware.regions, List.mem_cons, Prod.mk.injEq, List.not_mem_nil, or_false] at h
  simp only [PDX_eq, hN]
  rcases h with ⟨rfl, rfl, -⟩ | ⟨rfl, rfl, -⟩ | ⟨rfl, rfl, -⟩ | ⟨rfl, rfl, -⟩
  all_goals
    simp only [UPAGES, UENVS, UVPT, ULIM, KSTACKTOP, KSTKSIZE, KERNBASE, PTSIZE, PGSIZE] at hi ⊢
    omega

private theorem Hardware.pageInit_founded (hw : Hardware) {s : System} (hdead : ∀ i, ¬ s.Live i)
    (hs : s.pmap = hw.pageInit) : Founded hw.FreePage s := by
  obtain ⟨hmem, hk, xs, hxs, h0, -⟩ := hw.pageInit_spec
  have hfree := hw.freePage_iff hxs
  have hkern (d : Nat) (hd : d ≠ PDX UVPT) : s.pmap.mem s.pmap.kernPgdir d = 0 := by
    rw [hs, hmem, hk]
    simp [Hardware.bare, hd]
  have hnone (p : Nat) : references s.target p = 0 := by
    refine references_eq_zero.mpr fun x hx => ?_
    obtain ⟨d, rfl⟩ := target_dead hdead hx
    simp only [System.target] at hx
    split at hx
    · simp at hx
    · next hd => simp [hkern d hd] at hx
  have huser (d : Nat) (hd : d < NUPDE) : d ≠ PDX UVPT := by
    rintro rfl
    revert hd
    decide
  refine ⟨⟨shaped_dead hdead ⟨?_, fun p hp => ?_, ?_⟩ fun d hd => hkern d (huser d hd), xs, ?_, ?_, ?_,
    ?_, ?_, fun p hp => by cases hp⟩, hdead, fun d _ hd => ?_⟩
  · exact fun hp => hp.bounds.1 rfl
  · exact hp.bounds.2.1
  · rw [hs, hk]
    exact fun hp => hp.bounds.2.2 rfl
  · rw [hs]
    exact hxs
  · exact fun p hp => (hfree p).mpr hp
  · intro p hp
    rw [hnone, hs]
    exact h0 p ((hfree p).mp hp)
  · intro p _
    rw [hnone]
    decide
  · intro p hp
    simp [hnone, (hfree p).mp hp]
  · rw [hkern d hd]
    exact .zero _

private theorem Hardware.memInit_founded (hw : Hardware) {s : System} (hdead : ∀ i, ¬ s.Live i)
    (hs : hw.memInit = some s.pmap) : Founded hw.FreePage s := by
  have hinit : Founded hw.FreePage { s with pmap := hw.pageInit } := hw.pageInit_founded hdead rfl
  refine (foldlM_invariant
    (I := fun b => Founded hw.FreePage { s with pmap := b } ∧ b.kernPgdir = hw.kernPgdir)
    ?_ ⟨hinit, hw.pageInit_spec.2.1⟩ hs).1
  rintro ⟨va, size, pa, perm⟩ hr b b' ⟨hb, hk⟩ hstep
  rw [← hk] at hstep
  obtain ⟨hb', hk'⟩ := hb.bootMapRegion (fun i hi => hw.regions_above hr hi) hstep
  exact ⟨hb', hk'.trans hk⟩

namespace Booked

variable {M : Nat → Prop} {s : System} {e : Fin NENV}

theorem write {m : Pmap} {va : Nat} {b : UInt8} (h : Booked M none s) (he : s.Live e)
    (hva : va < UTOP) (hm : s.pmap.write (s.envs e).pgdir va b = some m) :
    Booked M none { s with pmap := m } := by
  obtain ⟨p, hp, rfl⟩ := Option.map_eq_some_iff.mp hm
  unfold Pmap.writable at hp
  dsimp only at hp
  split_ifs at hp with hflags
  push Not at hflags
  obtain rfl := Option.some.inj hp
  exact h.storeData (h.mapped_not_skeleton he hva
    (Pmap.mapping_eq_some.mpr ⟨hflags.1, rfl, hflags.2.2.1⟩))

theorem hold {q : Nat} (h : Booked M none s) (hq : s.pmap.pageFreeList = some q) :
    M q ∧ references s.target q = 0 ∧
      ({ s with pmap := (s.pmap.pageAlloc false).2 } : System).target = s.target ∧
      Booked M (some q) { s with pmap := (s.pmap.pageAlloc false).2 } := by
  obtain ⟨xs, hl⟩ := h.ledger
  obtain ⟨ys, hl'⟩ := hl.take hq
  obtain ⟨hM, h0⟩ := hl'.held_free q rfl
  have hsnd : (s.pmap.pageAlloc false).2 = { s.pmap with
      pageFreeList := s.pmap.ppLink q, ppLink := Function.update s.pmap.ppLink q none } := by
    simp [Pmap.pageAlloc, hq]
  obtain ⟨htarget, hshaped⟩ := h.of_mem (m := (s.pmap.pageAlloc false).2) (by rw [hsnd]) fun _ _ => by rw [hsnd]
  refine ⟨hM, h0, htarget, hshaped, ys, ?_⟩
  rw [htarget, hsnd]
  exact hl'.congr rfl rfl rfl

/-- `region_alloc` goes on when `page_insert` finds no page for a page table; then the list is
empty, and the page that was taken is lost. -/
theorem regionAllocPage {m : Pmap} {va i : Nat} (h : Booked M none s) (he : s.Live e)
    (hva : va + i * PGSIZE < UTOP)
    (hm : Pmap.regionAllocPage (s.envs e).pgdir va s.pmap i = some m) :
    Booked M none { s with pmap := m } ∨ m.pageFreeList = none := by
  unfold Pmap.regionAllocPage at hm
  cases hq : s.pmap.pageFreeList with
  | none =>
    rw [Pmap.pageAlloc_none hq] at hm
    simp at hm
  | some q =>
    obtain ⟨hM, h0, htarget, htaken⟩ := h.hold hq
    simp only [Pmap.pageAlloc, hq, Bool.false_eq_true, if_false] at hm htarget htaken
    obtain ⟨⟨b, u⟩, hu, rfl⟩ := Option.map_eq_some_iff.mp hm
    cases b with
    | false =>
      rcases Pmap.pageInsert_cases hu with ⟨-, rfl, -, hfull⟩ | ⟨hb, -⟩
      · exact .inr hfull
      · simp at hb
    | true =>
      refine .inl (htaken.pageInsert he hva hM (.inr rfl) (by decide) (.inl ?_) hu).1
      rw [htarget, h0]
      decide

end Booked

/-- The books are in order, or the free list ran empty. -/
def Loading (M : Nat → Prop) (s : System) (m : Pmap) : Prop :=
  Booked M none { s with pmap := m } ∨ m.pageFreeList = none

namespace Loading

variable {M : Nat → Prop} {s : System} {e : Fin NENV} {m m' : Pmap}

theorem regionAlloc {va len : Nat} (h : Loading M s m) (he : s.Live e)
    (hva : ∀ i < (len + PGSIZE - 1) / PGSIZE, va + i * PGSIZE < UTOP)
    (hm : m.regionAlloc (s.envs e).pgdir va len = some m') : Loading M s m' := by
  refine foldlM_invariant (I := Loading M s) ?_ h hm
  rintro i hi b b' (hb | hb) hstep
  · exact hb.regionAllocPage he (hva i (List.mem_range.mp hi)) hstep
  · rw [Pmap.regionAllocPage, Pmap.pageAlloc_none hb] at hstep
    simp at hstep

theorem writeBytes {va : Nat} {bytes : List UInt8} (h : Loading M s m) (he : s.Live e)
    (hva : va + bytes.length ≤ UTOP)
    (hm : m.writeBytes (s.envs e).pgdir va bytes = some m') : Loading M s m' := by
  refine foldlM_invariant (I := Loading M s) ?_ h hm
  rintro ⟨x, i⟩ hi b b' hb hstep
  have hlt : i < bytes.length := by
    obtain ⟨-, hlt, -⟩ := List.mem_zipIdx hi
    simpa using hlt
  rcases hb with hb | hb
  · exact .inl (hb.write he (by omega) hstep)
  · obtain ⟨p, -, rfl⟩ := Option.map_eq_some_iff.mp hstep
    exact .inr hb

end Loading

def Segment.Fits (ph : Segment) : Prop := ph.va + ph.memsz ≤ UTOP ∧ ph.bytes.length ≤ ph.memsz

namespace Loading

variable {M : Nat → Prop} {s : System} {e : Fin NENV} {m m' : Pmap}

theorem loadSegment {ph : Segment} (h : Loading M s m) (he : s.Live e) (hph : ph.Fits)
    (hm : Pmap.loadSegment (s.envs e).pgdir m ph = some m') : Loading M s m' := by
  obtain ⟨u, hu, hm⟩ := Option.bind_eq_some_iff.mp hm
  obtain ⟨v, hv, hm⟩ := Option.bind_eq_some_iff.mp hm
  obtain ⟨hva, hlen⟩ := hph
  have hu' := h.regionAlloc he (fun i hi => by
    have : i * PGSIZE < ph.memsz := by
      simp only [PGSIZE] at hi ⊢
      omega
    omega) hu
  have hv' := hu'.writeBytes he (by simpa using hva) hv
  exact hv'.writeBytes he (by omega) hm

theorem loadIcode {segments : List Segment} (h : Loading M s m) (he : s.Live e)
    (hfits : ∀ ph ∈ segments, ph.Fits)
    (hm : m.loadIcode (s.envs e).pgdir segments = some m') : Loading M s m' := by
  obtain ⟨u, hu, hm⟩ := Option.bind_eq_some_iff.mp hm
  have hu' : Loading M s u := by
    refine foldlM_invariant (I := Loading M s) ?_ h hu
    intro ph hph b b' hb hstep
    exact hb.loadSegment he (hfits ph hph) hstep
  refine hu'.regionAlloc he (fun i hi => ?_) hm
  simp only [PGSIZE, USTACKTOP, UTOP, UENVS, UPAGES, UVPT, ULIM, KERNBASE, PTSIZE] at hi ⊢
  omega

end Loading

private theorem envCreate_loading {M : Nat → Prop} {s t : System} {segments : List Segment}
    {entryPoint : BitVec 32} {type : EnvType} (hfits : ∀ ph ∈ segments, ph.Fits)
    (h : Loading M s s.pmap) (htable : ∃ xs, EnvTable s xs)
    (ht : s.envCreate segments entryPoint type = some t) :
    Loading M t t.pmap ∧ ∃ xs, EnvTable t xs := by
  unfold System.envCreate at ht
  split at ht
  · simp at ht
  · next e u hu =>
    obtain ⟨xs, hxs⟩ := htable
    obtain ⟨-, q, hq, -⟩ := envAlloc_cases hu
    obtain ⟨hutable, hlive⟩ := hxs.envAlloc_ok hu
    have hbooked : Booked M none s := h.resolve_right (by simp [hq])
    have hload : Loading M u u.pmap := .inl (hbooked.envAlloc (fun _ => hxs.head_not_live) hu)
    obtain ⟨m, hm, rfl⟩ := Option.map_eq_some_iff.mp ht
    refine ⟨?_, _, SameTable.envTable (.update rfl rfl Iff.rfl) hutable⟩
    rcases hload.loadIcode hlive hfits hm with hb | hnone
    · exact .inl (hb.of_sameDirs (SameDirs.update rfl Iff.rfl) rfl)
    · exact .inr hnone

private theorem envInit_pmap (s : System) : s.envInit.pmap = s.pmap := by
  unfold System.envInit
  induction List.finRange NENV with
  | nil => rfl
  | cons i l ih => exact ih

theorem boot_accounted (hw : Hardware) {s t : System} (hs : hw.memInit = some s.pmap)
    {programs : List (List Segment × BitVec 32 × EnvType)}
    (hfits : ∀ prog ∈ programs, ∀ ph ∈ prog.1, ph.Fits) (ht : s.start programs = some t)
    (hfree : t.pmap.pageFreeList ≠ none) : Accounted hw.FreePage t.schedYield := by
  have hdead (i : Fin NENV) : ¬ s.envInit.Live i :=
    ((envInit_envTable s).free i).mp (List.mem_finRange i)
  have hinit : Founded hw.FreePage s.envInit := hw.memInit_founded hdead (by rwa [envInit_pmap])
  have htable : ∃ xs, EnvTable s.envInit xs := ⟨_, envInit_envTable s⟩
  unfold System.start at ht
  generalize s.envInit = u at ht hinit htable
  obtain ⟨hload, xs, hxs⟩ := foldlM_invariant
    (I := fun u : System => Loading hw.FreePage u u.pmap ∧ ∃ xs, EnvTable u xs)
    (fun prog hprog u u' hu hstep => envCreate_loading (hfits prog hprog) hu.1 hu.2 hstep)
    ⟨.inl hinit.toBooked, htable⟩ ht
  have hbooked : Booked hw.FreePage none t := hload.resolve_right hfree
  have hyield := Rescheduled.schedYield t
  exact ⟨hbooked.of_sameDirs hyield.sameDirs hyield.pmap, xs, hyield.sameTable.envTable hxs⟩

/-- From boot on, the count of every page is the number of its uses, and the free list has the unused pages. -/
theorem boot_conserved (hw : Hardware) {s t : System} (hs : hw.memInit = some s.pmap)
    {programs : List (List Segment × BitVec 32 × EnvType)}
    (hfits : ∀ prog ∈ programs, ∀ ph ∈ prog.1, ph.Fits) (ht : s.start programs = some t)
    (hfree : t.pmap.pageFreeList ≠ none) (events : List Event)
    (htidy : kernelMachine.Along Event.Tidy events t.schedYield) :
    (kernelMachine.run events t.schedYield).Conserved hw.FreePage :=
  ((boot_accounted hw hs hfits ht hfree).run htidy).conserved

end DamnOS.Kernel
