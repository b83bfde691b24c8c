import DamnOS.Kernel.Ledger
import DamnOS.Kernel.Skeleton
import DamnOS.Kernel.Boot

/-!
# Accounting of physical pages

The counts and the free list agree with the references from the skeleton and the mappings, through
all system calls.
-/

namespace DamnOS.Kernel

open DamnOS.Framework

/-- The state of the books while `sys_page_alloc` may hold a page. -/
structure Booked (M : Nat → Prop) (held : Option Nat) (s : System) : Prop extends Shaped M s where
  ledger : ∃ xs, Ledger M s.target held s.pmap xs

namespace Booked

variable {M : Nat → Prop} {held : Option Nat} {s : System} {e : Fin NENV} {p q va : Nat}

/-- The page at the head of the list has no references and is not part of the skeleton. -/
theorem head (h : Booked M held s) (hq : s.pmap.pageFreeList = some q) :
    M q ∧ (∀ x, s.target x ≠ some q) ∧ ¬ s.Skeleton q := by
  obtain ⟨xs, hl⟩ := h.ledger
  obtain ⟨hM, h0, -⟩ := hl.head hq
  have hno := references_eq_zero.mp h0
  exact ⟨hM, hno, h.not_skeleton hM (.inl hno)⟩

theorem take (h : Booked M none s) (hq : s.pmap.pageFreeList = some q) :
    ({ s with pmap := s.pmap.taken q } : System).target = s.target ∧
      Booked M (some q) { s with pmap := s.pmap.taken q } := by
  obtain ⟨-, -, hskel⟩ := h.head hq
  obtain ⟨htarget, hshaped⟩ := h.of_mem (m := s.pmap.taken q) rfl fun p hp =>
    Pmap.taken_mem_page (by rintro rfl; exact hskel hp)
  obtain ⟨xs, hl⟩ := h.ledger
  obtain ⟨ys, hl'⟩ := hl.take hq
  exact ⟨htarget, hshaped, ys, by rwa [htarget]⟩

theorem giveBack {m : Pmap} (h : Booked M (some q) s) (hm : s.pmap.pageFree q = some m) :
    ({ s with pmap := m } : System).target = s.target ∧ Booked M none { s with pmap := m } := by
  obtain ⟨htarget, hshaped⟩ := h.of_mem (Pmap.pageFree_kernPgdir hm) fun p _ => by
    rw [Pmap.pageFree_mem hm]
  obtain ⟨xs, hl⟩ := h.ledger
  exact ⟨htarget, hshaped, _, by rw [htarget]; exact hl.giveBack hm⟩

theorem withTable (h : Booked M held s) (he : s.Live e) (hva : va < UTOP)
    (h0 : s.pmap.mem (s.envs e).pgdir (PDX va) = 0) (hq : s.pmap.pageFreeList = some q) :
    ({ s with pmap := s.pmap.withTable (s.envs e).pgdir va q } : System).target
        = Function.update s.target (.pde e ⟨PDX va, PDX_lt_of_lt_UTOP hva⟩) (some q) ∧
      Booked M held { s with pmap := s.pmap.withTable (s.envs e).pgdir va q } := by
  obtain ⟨hM, hno, hskel⟩ := h.head hq
  have hd := PDX_lt_of_lt_UTOP hva
  have hdir : (s.envs e).pgdir ≠ q := by
    rintro rfl
    exact hskel (Shaped.skeleton_dir he)
  -- first the page is cleared, which nobody sees, and then the directory entry is written
  obtain ⟨htaken, hshaped⟩ := h.of_mem (m := s.pmap.taken q) rfl fun p hp =>
    Pmap.taken_mem_page (by rintro rfl; exact hskel hp)
  have hpde : (s.pmap.taken q).mem (s.envs e).pgdir (PDX va) = 0 := by
    rw [Pmap.taken_mem_page hdir, h0]
  have hname : named (entry q (PTE_W ||| PTE_U)) = some q :=
    named_entry (h.pages.small q hM) (by decide)
  have hnone (t : Fin 1024) : ({ s with pmap := s.pmap.taken q } : System).target
      (.pte e ⟨PDX va, hd⟩ t) = none := by
    have he' : ({ s with pmap := s.pmap.taken q } : System).Live e := he
    simp only [System.target, he', if_true, hpde, named_zero, Option.bind_none]
  have hx : Exclusive Slot.Structural (Function.update s.target (.pde e ⟨PDX va, hd⟩) (some q)) :=
    h.exclusive.fresh _ hno
  obtain ⟨htarget, hshaped'⟩ := hshaped.storePde he hd
    (.entry hM (h.pages.small q hM) (by decide)) hnone (w := entry q (PTE_W ||| PTE_U))
    (fun pt hpt => by
      obtain rfl : q = pt := Option.some.inj (hname.symm.trans hpt)
      exact ⟨hdir.symm, fun t _ => by rw [Pmap.taken_mem_self]⟩)
    (by rw [htaken, hname]; exact hx)
  rw [hname, htaken] at htarget
  have hmem : (s.pmap.withTable (s.envs e).pgdir va q).mem
      = ((s.pmap.taken q).store (s.envs e).pgdir (PDX va) (entry q (PTE_W ||| PTE_U))).mem := by
    rw [Pmap.withTable_mem, hpde, Pmap.entry_table]
  obtain ⟨hfinal, hshaped''⟩ := hshaped'.of_mem (m := s.pmap.withTable (s.envs e).pgdir va q) rfl
    fun p _ => congrFun hmem p
  obtain ⟨xs, hl⟩ := h.ledger
  obtain ⟨ys, hl'⟩ := hl.adopt (s := Slot.pde e ⟨PDX va, hd⟩)
    (by rw [target_pde he]; exact congrArg named h0) hq
  refine ⟨hfinal.trans htarget, hshaped'', ys, ?_⟩
  rw [hfinal.trans htarget]
  exact hl'.congr rfl rfl rfl

theorem table (h : Booked M held s) (he : s.Live e) (hva : va < UTOP)
    (h0 : s.pmap.mem (s.envs e).pgdir (PDX va) ≠ 0) :
    named (s.pmap.mem (s.envs e).pgdir (PDX va)) = some (s.pmap.tableOf (s.envs e).pgdir va) ∧
      Proper M (s.pmap.mem (s.pmap.tableOf (s.envs e).pgdir va) (PTX va)) ∧
      s.target (Slot.page e va hva)
        = named (s.pmap.mem (s.pmap.tableOf (s.envs e).pgdir va) (PTX va)) := by
  have hd := PDX_lt_of_lt_UTOP hva
  have hT := ((h.pde e _ he hd).named h0).1
  exact ⟨hT, h.pte e _ _ _ he hd (PTX_lt va) hT, target_pte he hT _⟩

/-- The page to be mapped has a mapping already, or it is held. -/
def Mappable (s : System) (held : Option Nat) (p : Nat) : Prop :=
  (held = none ∧ ∃ x : Slot, ¬ x.Structural ∧ s.target x = some p) ∨ held = some p

theorem Mappable.exclusive {x : Slot} (h : Booked M held s) (hp : Mappable s held p)
    (hx : ¬ x.Structural) : Exclusive Slot.Structural (Function.update s.target x (some p)) := by
  rcases hp with ⟨-, y, hy, hyp⟩ | hheld
  · exact h.exclusive.share hx hy hyp
  · obtain ⟨xs, hl⟩ := h.ledger
    exact h.exclusive.fresh _ (references_eq_zero.mp (hl.held_free p hheld).2)

theorem Mappable.references (hp : Mappable s held p) :
    (held = none ∧ Framework.references s.target p ≠ 0) ∨ held = some p := by
  rcases hp with ⟨hn, x, -, hx⟩ | hheld
  · exact .inl ⟨hn, references_ne_zero.mpr ⟨x, hx⟩⟩
  · exact .inr hheld

theorem installPte {m : Pmap} {perm : Nat} (h : Booked M held s) (he : s.Live e) (hva : va < UTOP)
    (h0 : s.pmap.mem (s.envs e).pgdir (PDX va) ≠ 0) (hM : M p) (hp : Mappable s held p)
    (hperm : perm < 4096)
    (hlt : Framework.references s.target p < 65535 ∨ s.target (Slot.page e va hva) = some p)
    (hm : s.pmap.installPte (s.envs e).pgdir p va perm (s.pmap.tableOf (s.envs e).pgdir va) (PTX va)
      = some m) :
    ({ s with pmap := m } : System).target
        = Function.update s.target (Slot.page e va hva) (some p) ∧
      Booked M none { s with pmap := m } := by
  obtain ⟨hT, hproper, hslot⟩ := h.table he hva h0
  have hsmall := h.pages.small p hM
  have hname : named (entry p perm) = some p := named_entry hsmall hperm
  obtain ⟨htarget, hshaped⟩ := h.storePte he (PDX_lt_of_lt_UTOP hva) (PTX_lt va) hT
    (.entry hM hsmall hperm) (w := entry p perm) (by
      rw [hname]
      exact hp.exclusive h not_false)
  rw [hname] at htarget
  obtain ⟨xs, hl⟩ := h.ledger
  have hfinal : m.kernPgdir = s.pmap.kernPgdir ∧
      ∃ ys, Ledger M (Function.update s.target (Slot.page e va hva) (some p)) none m ys := by
    rcases Pmap.installPte_cases h0 hm with ⟨hw, rfl⟩ | ⟨hw, u, hu, rfl⟩
    · have hw0 : s.pmap.mem (s.pmap.tableOf (s.envs e).pgdir va) (PTX va) = 0 := by
        by_contra hne
        exact (hproper.PTE_ADDR_ne_zero h.pages.zero).mpr hne hw
      rw [hw0, named_zero] at hslot
      have hlt : references s.target p < 65535 := hlt.resolve_right (by simp [hslot])
      exact ⟨rfl, xs, (hl.add hslot hM hp.references hlt).congr rfl rfl rfl⟩
    · obtain ⟨hold, hMold⟩ := hproper.named ((hproper.PTE_ADDR_ne_zero h.pages.zero).mp hw)
      rw [hold] at hslot
      have hlt' := hlt.imp_right fun hsame => Option.some.inj (hslot.symm.trans hsame)
      obtain ⟨ys, hl'⟩ := hl.redirect hslot hMold hM hp.references hlt' hu
      have hk : u.kernPgdir = (s.pmap.incRef p).kernPgdir := Pmap.pageDecref_kernPgdir hu
      exact ⟨hk, ys, hl'.congr rfl rfl rfl⟩
  obtain ⟨hk, ys, hl'⟩ := hfinal
  obtain ⟨hsame, hshaped'⟩ := hshaped.of_mem (m := m) hk fun x _ =>
    congrFun (Pmap.installPte_mem h0 hm) x
  exact ⟨hsame.trans htarget, hshaped', ys, by rw [hsame.trans htarget]; exact hl'⟩

private theorem target_page_none (hva : va < UTOP)
    (h0 : s.pmap.mem (s.envs e).pgdir (PDX va) = 0) : s.target (Slot.page e va hva) = none := by
  simp only [Slot.page, System.target, h0, named_zero, Option.bind_none, ite_self]

theorem pageInsert {m : Pmap} {perm : Nat} (h : Booked M held s) (he : s.Live e) (hva : va < UTOP)
    (hM : M p) (hp : Mappable s held p) (hperm : perm < 4096)
    (hlt : references s.target p < 65535 ∨ s.target (Slot.page e va hva) = some p)
    (hm : s.pmap.pageInsert (s.envs e).pgdir p va perm = some (true, m)) :
    Booked M none { s with pmap := m } ∧ ∃ τ : Slot → Option Nat,
      ({ s with pmap := m } : System).target = Function.update τ (Slot.page e va hva) (some p) ∧
      ∀ x : Slot, ¬ x.Structural → τ x = s.target x := by
  by_cases h0 : s.pmap.mem (s.envs e).pgdir (PDX va) = 0
  · cases hq : s.pmap.pageFreeList with
    | none =>
      rw [Pmap.pageInsert_full h0 hq] at hm
      simp at hm
    | some q =>
      rw [Pmap.pageInsert_create h0 hq] at hm
      obtain ⟨u, hu, hum⟩ := Option.map_eq_some_iff.mp hm
      obtain ⟨-, rfl⟩ := Prod.mk.inj hum
      obtain ⟨htarget, hbooked⟩ := h.withTable he hva h0 hq
      have hd := PDX_lt_of_lt_UTOP hva
      have hother (x : Slot) (hx : ¬ x.Structural) :
          ({ s with pmap := s.pmap.withTable (s.envs e).pgdir va q } : System).target x
            = s.target x := by
        rw [htarget, Function.update_of_ne]
        rintro rfl
        exact hx trivial
      -- the page table is not the page to be mapped
      have hqp : q ≠ p := by
        rintro rfl
        obtain ⟨xs, hl⟩ := h.ledger
        obtain ⟨-, h0, hheld, -⟩ := hl.head hq
        rcases hp.references with ⟨-, hne⟩ | hh
        · exact hne h0
        · exact hheld hh
      have hrefs : references ({ s with
          pmap := s.pmap.withTable (s.envs e).pgdir va q } : System).target p
            = references s.target p := by
        have := references_update s.target (.pde e ⟨PDX va, hd⟩) (some q) p
        rw [htarget]
        simpa [target_pde he, h0, hqp] using this
      have hp' : Mappable ({ s with pmap := s.pmap.withTable (s.envs e).pgdir va q } : System)
          held p := by
        rcases hp with ⟨hn, x, hx, hxp⟩ | hh
        · exact .inl ⟨hn, x, hx, (hother x hx).trans hxp⟩
        · exact .inr hh
      have hlt' : references s.target p < 65535 := hlt.resolve_right (by
        rw [target_page_none hva h0]
        simp)
      obtain ⟨hfinal, hdone⟩ := hbooked.installPte he hva
        (by rw [Pmap.withTable_pde h0]; exact entry_ne_zero _ _) hM hp' hperm
        (.inl (by rwa [hrefs])) hu
      exact ⟨hdone, _, hfinal, hother⟩
  · rw [Pmap.pageInsert_found h0] at hm
    obtain ⟨u, hu, hum⟩ := Option.map_eq_some_iff.mp hm
    obtain ⟨-, rfl⟩ := Prod.mk.inj hum
    obtain ⟨htarget, hbooked⟩ := h.installPte he hva h0 hM hp hperm hlt hu
    exact ⟨hbooked, s.target, htarget, fun _ _ => rfl⟩

theorem pageRemove {m : Pmap} (h : Booked M held s) (he : s.Live e) (hva : va < UTOP)
    (hw : s.pmap.mem (s.envs e).pgdir (PDX va) ≠ 0 →
      s.pmap.mem (s.pmap.tableOf (s.envs e).pgdir va) (PTX va) ≠ 0)
    (hm : s.pmap.pageRemove (s.envs e).pgdir va = some m) :
    ({ s with pmap := m } : System).target
        = Function.update s.target (Slot.page e va hva) none ∧
      Booked M held { s with pmap := m } := by
  by_cases h0 : s.pmap.mem (s.envs e).pgdir (PDX va) = 0
  · rw [Pmap.pageRemove, Pmap.pageLookup_missing h0] at hm
    obtain rfl := Option.some.inj hm
    rw [← target_page_none hva h0, Function.update_eq_self]
    exact ⟨rfl, h⟩
  · obtain ⟨hT, hproper, hslot⟩ := h.table he hva h0
    obtain ⟨hold, hMold⟩ := hproper.named (hw h0)
    rw [hold] at hslot
    obtain ⟨htarget, hshaped⟩ := h.storePte he (PDX_lt_of_lt_UTOP hva) (PTX_lt va) hT (.zero M)
      (h.exclusive.erase _)
    rw [Pmap.pageRemove, Pmap.pageLookup_found h0] at hm
    obtain ⟨u, hu, rfl⟩ := Option.map_eq_some_iff.mp hm
    have hk : u.kernPgdir = s.pmap.kernPgdir := Pmap.pageDecref_kernPgdir hu
    obtain ⟨hsame, hshaped'⟩ := hshaped.of_mem (m := u.store _ _ 0) hk fun x _ =>
      congrFun (Pmap.store_congr (Pmap.pageDecref_mem hu)) x
    obtain ⟨xs, hl⟩ := h.ledger
    obtain ⟨ys, hl'⟩ := hl.drop hslot hMold hu
    exact ⟨hsame.trans htarget, hshaped', ys, by
      rw [hsame.trans htarget]
      exact hl'.congr rfl rfl rfl⟩

/-- The mapping for an address as the processor sees it, and the place of it. -/
theorem target_of_mapping {w : Nat} (he : s.Live e) (hva : va < UTOP)
    (hw : s.pmap.mapping (s.envs e).pgdir va = some w) :
    s.target (Slot.page e va hva) = some (pa2page (PTE_ADDR w)) := by
  obtain ⟨hpde, rfl, hpte⟩ := Pmap.mapping_eq_some.mp hw
  exact (target_pte he (named_eq_some.mpr ⟨hpde, rfl⟩) _).trans (named_eq_some.mpr ⟨hpte, rfl⟩)

/-- A page that is mapped for user code is not part of the skeleton. -/
theorem mapped_not_skeleton {w : Nat} (h : Booked M held s) (he : s.Live e) (hva : va < UTOP)
    (hw : s.pmap.mapping (s.envs e).pgdir va = some w) : ¬ s.Skeleton (pa2page (PTE_ADDR w)) := by
  have hslot := target_of_mapping he hva hw
  obtain ⟨hpde, rfl, hpte⟩ := Pmap.mapping_eq_some.mp hw
  have hM := (h.pte e _ _ _ he (PDX_lt_of_lt_UTOP hva) (PTX_lt va)
    (named_eq_some.mpr ⟨hpde, rfl⟩)).managed (named_eq_some.mpr ⟨hpte, rfl⟩)
  exact h.not_skeleton hM (.inr ⟨Slot.page e va hva, not_false, hslot⟩)

theorem storeData {i w : Nat} (h : Booked M held s) (hp : ¬ s.Skeleton p) :
    Booked M held { s with pmap := s.pmap.store p i w } := by
  obtain ⟨htarget, hshaped⟩ := h.of_mem (m := s.pmap.store p i w) rfl fun x hx =>
    Pmap.store_mem_page (by rintro rfl; exact hp hx)
  obtain ⟨xs, hl⟩ := h.ledger
  exact ⟨hshaped, xs, by rw [htarget]; exact hl.congr rfl rfl rfl⟩

theorem of_sameDirs {t : System} (h : Booked M held s) (hd : SameDirs s t) (hm : t.pmap = s.pmap) :
    Booked M held t := by
  obtain ⟨htarget, hshaped⟩ := h.toShaped.of_sameDirs hd hm
  obtain ⟨xs, hl⟩ := h.ledger
  exact ⟨hshaped, xs, by rwa [htarget, hm]⟩

theorem freeEntry {m : Pmap} {d t pt : Nat} (h : Booked M held s) (he : s.Live e) (hd : d < NUPDE)
    (ht : t < 1024) (hpt : named (s.pmap.mem (s.envs e).pgdir d) = some pt)
    (hm : s.pmap.freeEntry (s.envs e).pgdir pt d t = some m) :
    Booked M held { s with pmap := m } ∧ m.mem pt t = 0 ∧
      (∀ t' ≠ t, m.mem pt t' = s.pmap.mem pt t') ∧ m.mem (s.envs e).pgdir = s.pmap.mem (s.envs e).pgdir := by
  have hproper := h.pte e d t pt he hd ht hpt
  unfold Pmap.freeEntry at hm
  split at hm
  · next hpresent =>
    have hdir := h.table_ne_dir he hd hpt he
    have hva := PGADDR_lt_UTOP hd ht
    have hd1024 : d < 1024 := hd.trans (by decide)
    have hpdx := PDX_PGADDR hd1024 ht
    have hptx : PTX (PGADDR d t 0) = t := PTX_PGADDR ht
    have h0 : s.pmap.mem (s.envs e).pgdir (PDX (PGADDR d t 0)) ≠ 0 := by
      intro h0
      rw [hpdx] at h0
      simp [h0] at hpt
    have htable : s.pmap.tableOf (s.envs e).pgdir (PGADDR d t 0) = pt := by
      rw [Pmap.tableOf, hpdx]
      exact (named_eq_some.mp hpt).2
    obtain ⟨-, hbooked⟩ := h.pageRemove he hva (fun _ hz => by
      rw [htable, hptx] at hz
      simp [hz] at hpresent) hm
    rcases Pmap.pageRemove_mem hm with ⟨hz, -⟩ | ⟨-, hmem⟩
    · exact absurd hz h0
    · rw [htable, hptx] at hmem
      refine ⟨hbooked, ?_, fun t' ht' => ?_, ?_⟩
      · rw [hmem, Pmap.store_mem_self]
      · rw [hmem, Pmap.store_mem_word ht']
      · rw [hmem, Pmap.store_mem_page hdir]
  · next habsent =>
    obtain rfl := Option.some.inj hm
    refine ⟨h, hproper.eq_zero ?_, fun _ _ => rfl, rfl⟩
    rw [named, if_pos (not_not.mp habsent)]

theorem freeTable {m : Pmap} {d : Nat} (h : Booked M held s) (he : s.Live e) (hd : d < NUPDE)
    (hm : s.pmap.freeTable (s.envs e).pgdir d = some m) :
    Booked M held { s with pmap := m } ∧ m.mem (s.envs e).pgdir d = 0 ∧
      ∀ d' ≠ d, m.mem (s.envs e).pgdir d' = s.pmap.mem (s.envs e).pgdir d' := by
  have hproper := h.pde e d he hd
  unfold Pmap.freeTable at hm
  split at hm
  · next habsent =>
    obtain rfl := Option.some.inj hm
    refine ⟨h, hproper.eq_zero ?_, fun _ _ => rfl⟩
    rw [named, if_pos habsent]
  · next hpresent =>
    have hpt := named_eq_some.mpr ⟨hpresent, rfl⟩
    generalize pa2page (PTE_ADDR (s.pmap.mem (s.envs e).pgdir d)) = pt at hm hpt
    obtain ⟨u, hu, hrest⟩ := Option.bind_eq_some_iff.mp hm
    -- the entries below the counter are clear, and the directory is as before
    obtain ⟨hbooked, hdir, hclear⟩ := foldlM_range_invariant
      (I := fun k b => Booked M held { s with pmap := b } ∧
        b.mem (s.envs e).pgdir = s.pmap.mem (s.envs e).pgdir ∧ ∀ t < k, b.mem pt t = 0)
      (by
        rintro k hk b b' ⟨hb, hdir, hclear⟩ hstep
        obtain ⟨hb', hself, hother, hdir'⟩ := hb.freeEntry he hd hk
          ((congrArg named (congrFun hdir d)).trans hpt) hstep
        refine ⟨hb', hdir'.trans hdir, fun t ht => ?_⟩
        by_cases htk : t = k
        · rw [htk]
          exact hself
        · rw [hother t htk]
          exact hclear t (by omega))
      ⟨h, rfl, fun t ht => absurd ht (Nat.not_lt_zero t)⟩ hu
    have hpt' : named (u.mem (s.envs e).pgdir d) = some pt := (congrArg named (congrFun hdir d)).trans hpt
    have hlive : ({ s with pmap := u } : System).Live e := he
    obtain ⟨htarget, hshaped⟩ := hbooked.storePde hlive hd (.zero M)
      (fun t => by
        rw [target_pte hlive hpt']
        exact congrArg named (hclear t t.isLt))
      (fun pt h0 => by simp at h0) (hbooked.exclusive.erase _)
    have hmem := Pmap.pageDecref_mem hrest
    obtain ⟨hsame, hshaped'⟩ := hshaped.of_mem (m := m) (Pmap.pageDecref_kernPgdir hrest) fun x _ =>
      congrFun hmem x
    obtain ⟨xs, hl⟩ := hbooked.ledger
    have hl : Ledger M ({ s with pmap := u } : System).target held (u.store (s.envs e).pgdir d 0) xs :=
      hl.congr rfl rfl rfl
    obtain ⟨ys, hl'⟩ := hl.drop ((target_pde hlive ⟨d, hd⟩).trans hpt') (h.table_managed he hd hpt)
      hrest
    refine ⟨⟨hshaped', ys, ?_⟩, ?_, fun d' hd' => ?_⟩
    · rw [hsame.trans htarget]
      exact hl'
    · rw [hmem, Pmap.store_mem_self]
    · rw [hmem, Pmap.store_mem_word hd', hdir]

theorem envFree {t : System} (h : Booked M held s) (he : s.Live e) (ht : s.envFree e = some t) :
    Booked M held t := by
  obtain ⟨m, hm, rfl⟩ := Option.map_eq_some_iff.mp ht
  obtain ⟨u, hu, hrest⟩ := Option.bind_eq_some_iff.mp hm
  rw [PDX_UTOP] at hu
  obtain ⟨hbooked, hclear⟩ := foldlM_range_invariant
    (I := fun k b => Booked M held { s with pmap := b } ∧
      ∀ d < k, b.mem (s.envs e).pgdir d = 0)
    (by
      rintro k hk b b' ⟨hb, hclear⟩ hstep
      obtain ⟨hb', hself, hother⟩ := hb.freeTable he hk hstep
      refine ⟨hb', fun d hd => ?_⟩
      by_cases hdk : d = k
      · rw [hdk]
        exact hself
      · exact (hother d hdk).trans (hclear d (by omega)))
    ⟨h, fun d hd => absurd hd (Nat.not_lt_zero d)⟩ hu
  have hmem := Pmap.pageDecref_mem hrest
  obtain ⟨hsame, hshaped⟩ := hbooked.of_mem (m := m) (Pmap.pageDecref_kernPgdir hrest) fun x _ =>
    congrFun hmem x
  obtain ⟨htarget, hshaped'⟩ := hshaped.setEnv (e := e)
    (v := { s.envs e with pgdir := 0, status := .free, link := s.envFreeList })
    (l := some e) (o := s.curenv)
    (fun _ d hd => (congrFun (congrFun hmem _) d).trans (hclear d hd))
    (fun hf => absurd rfl hf) (by
      rw [hsame]
      exact hbooked.exclusive.erase _)
  obtain ⟨xs, hl⟩ := hbooked.ledger
  obtain ⟨ys, hl'⟩ := hl.drop (s := .dir e) (target_dir (s := { s with pmap := u }) he) (h.dir e he) hrest
  have hfinal := htarget.trans (congrArg (Function.update · (Slot.dir e) none) hsame)
  exact ⟨hshaped', ys, (congrArg (Ledger M · held m ys) hfinal).mpr hl'⟩

/-- `env_alloc` takes a page for the directory of the new environment. -/
theorem envAlloc {t : System} {parent : BitVec 32} (h : Booked M held s)
    (hslot : ∀ i, s.envFreeList = some i → ¬ s.Live i)
    (ht : s.envAlloc parent = (.ok e, t)) : Booked M held t := by
  obtain ⟨he, q, hq, rfl⟩ := envAlloc_cases ht
  have hfree := hslot e he
  obtain ⟨hM, hno, hskel⟩ := h.head hq
  have hkq : s.pmap.kernPgdir ≠ q := by
    rintro rfl
    exact hskel (.inr rfl)
  -- the directory is filled while nobody refers to the page, and then goes to the new slot
  obtain ⟨hsame, hshaped⟩ := h.of_mem (m := s.pmap.newDirectory q) rfl fun p hp =>
    Pmap.newDirectory_mem_page (by rintro rfl; exact hskel hp)
  have hempty (d : Nat) (hd : d < NUPDE) : (s.pmap.newDirectory q).mem q d = 0 := by
    rw [Pmap.newDirectory_mem_pde hkq hd]
    exact h.kernUser d hd
  obtain ⟨htarget, hshaped'⟩ := hshaped.setEnv (e := e) (l := (s.envs e).link) (o := s.curenv)
    (v := (s.envs e).fresh e parent q) (fun hl => absurd hl hfree) (fun _ => ⟨hM, hempty⟩) (by
      rw [hsame]
      exact h.exclusive.fresh _ hno)
  obtain ⟨xs, hl⟩ := h.ledger
  obtain ⟨ys, hl'⟩ := hl.adopt (s := .dir e) (by simp [System.target, hfree]) hq
  have hl' : Ledger M (Function.update s.target (.dir e) (some q)) held (s.pmap.newDirectory q) ys :=
    hl'.congr rfl rfl rfl
  have hfinal := htarget.trans (congrArg (Function.update · (Slot.dir e) (some q)) hsame)
  exact ⟨hshaped', ys, (congrArg (Ledger M · held (s.pmap.newDirectory q) ys) hfinal).mpr hl'⟩

end Booked

end DamnOS.Kernel
