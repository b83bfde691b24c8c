import DamnOS.Kernel.Boot

/-!
# Authority of a caller

A system call touches the address spaces of the caller, of its children, and of the receiver of a
message; it leaves those of all other environments alone.
-/

namespace DamnOS.Kernel

open DamnOS.Framework

namespace Pmap

def IsTable (m : Pmap) (pgdir p : Nat) : Prop :=
  ∃ d < NUPDE, m.mem pgdir d ≠ 0 ∧ pa2page (PTE_ADDR (m.mem pgdir d)) = p

/-- The page directory or one of its page tables. -/
def Owns (m : Pmap) (pgdir p : Nat) : Prop := p = pgdir ∨ m.IsTable pgdir p

/-- The page directory is no page table of its own, and each page table stands in it once. -/
structure Single (m : Pmap) (pgdir : Nat) : Prop where
  dir : ¬ m.IsTable pgdir pgdir
  tables : ∀ d d', d < NUPDE → d' < NUPDE → m.mem pgdir d ≠ 0 → m.mem pgdir d' ≠ 0 →
    pa2page (PTE_ADDR (m.mem pgdir d)) = pa2page (PTE_ADDR (m.mem pgdir d')) → d = d'

variable {m m' : Pmap} {pgdir va p perm : Nat}

theorem isTable_tableOf (hva : va < UTOP) (h0 : m.mem pgdir (PDX va) ≠ 0) :
    m.IsTable pgdir (m.tableOf pgdir va) :=
  ⟨PDX va, PDX_lt_of_lt_UTOP hva, h0, rfl⟩

/-- The mappings of an address space lie in the pages that it owns. -/
theorem mapping_of_owns (h : ∀ p, m.Owns pgdir p → m'.mem p = m.mem p) (hva : va < UTOP) :
    m'.mapping pgdir va = m.mapping pgdir va := by
  apply mapping_congr
  · rw [h pgdir (.inl rfl)]
  · intro hp
    rw [h _ (.inr (isTable_tableOf hva fun h0 => hp (by simp [h0])))]

theorem owns_congr (h : m'.mem pgdir = m.mem pgdir) : m'.Owns pgdir p ↔ m.Owns pgdir p := by
  simp only [Owns, IsTable, h]

/-- `page_insert` touches what the address space owns, and the page that it takes for a page
table. -/
theorem pageInsert_touches {b : Bool} (hva : va < UTOP)
    (hq : ∀ q, m.pageFreeList = some q → q < 2 ^ 20)
    (h : m.pageInsert pgdir p va perm = some (b, m')) {x : Nat} (hx : ¬ m.Owns pgdir x)
    (hfree : m.pageFreeList ≠ some x) : m'.mem x = m.mem x := by
  obtain ⟨-, rfl, -⟩ | ⟨rfl, -⟩ := pageInsert_cases h
  · rfl
  · rcases pageInsert_mem h with ⟨h0, hmem⟩ | ⟨q, h0, hl, hmem⟩
    · rw [hmem, store_mem_page]
      rintro rfl
      exact hx (.inr (isTable_tableOf hva h0))
    · have hxq : x ≠ q := by
        rintro rfl
        exact hfree hl
      rw [hmem, withTable_tableOf h0 (hq q hl), store_mem_page hxq,
        withTable_mem_page (fun hxg => hx (.inl hxg)) hxq]

private theorem PGNUM_ne {va va' : Nat} (hva : va < UTOP) (hva' : va' < UTOP) (h : PGNUM va' ≠ PGNUM va) :
    PDX va' ≠ PDX va ∨ PTX va' ≠ PTX va := by
  have hutop : UTOP < 2 ^ 32 := by decide
  rw [PGNUM_eq, PGNUM_eq] at h
  simp only [PDX_eq, PTX_eq]
  omega

theorem tableOf_ne_dir (hs : m.Single pgdir) (hva : va < UTOP) (h0 : m.mem pgdir (PDX va) ≠ 0) :
    pgdir ≠ m.tableOf pgdir va := by
  intro hg
  have htable := isTable_tableOf hva h0
  rw [← hg] at htable
  exact hs.dir htable

/-- A store to the entry for one page does not change the mapping of another. -/
theorem storePte_mapping {va' w : Nat} (hs : m.Single pgdir) (hva : va < UTOP) (hva' : va' < UTOP)
    (hne : PGNUM va' ≠ PGNUM va) (h0 : m.mem pgdir (PDX va) ≠ 0)
    (hmem : m'.mem = (m.store (m.tableOf pgdir va) (PTX va) w).mem) :
    m'.mapping pgdir va' = m.mapping pgdir va' := by
  have hslot := PGNUM_ne hva hva' hne
  apply mapping_congr
  · rw [hmem, store_mem_page (tableOf_ne_dir hs hva h0)]
  · intro hp
    have h0' : m.mem pgdir (PDX va') ≠ 0 := fun hz => hp (by simp [hz])
    rw [hmem]
    by_cases ht : m.tableOf pgdir va' = m.tableOf pgdir va
    · have hpdx := hs.tables _ _ (PDX_lt_of_lt_UTOP hva') (PDX_lt_of_lt_UTOP hva) h0' h0 ht
      exact store_mem_word (hslot.resolve_left fun hx => hx hpdx)
    · rw [store_mem_page ht]

theorem pageInsert_mapping {va' : Nat} (hs : m.Single pgdir) (hva : va < UTOP) (hva' : va' < UTOP)
    (hne : PGNUM va' ≠ PGNUM va)
    (hq : ∀ q, m.pageFreeList = some q → q < 2 ^ 20 ∧ ¬ m.Owns pgdir q)
    (h : m.pageInsert pgdir p va perm = some (true, m')) :
    m'.mapping pgdir va' = m.mapping pgdir va' := by
  have hslot := PGNUM_ne hva hva' hne
  rcases pageInsert_mem h with ⟨h0, hmem⟩ | ⟨q, h0, hl, hmem⟩
  · exact storePte_mapping hs hva hva' hne h0 hmem
  · obtain ⟨hqlt, hqown⟩ := hq q hl
    have hqg : pgdir ≠ q := fun hg => hqown (.inl hg.symm)
    rw [withTable_tableOf h0 hqlt] at hmem
    by_cases hpdx : PDX va' = PDX va
    · -- the new page table has no other entry
      have hptx := hslot.resolve_left fun hx => hx hpdx
      have hold : m.mapping pgdir va' = none := by simp [mapping, hpdx, h0]
      have hpde : m'.mem pgdir (PDX va') = entry q (PTE_W ||| PTE_U) := by
        rw [hmem, store_mem_page hqg, hpdx, withTable_pde h0]
      have htable : m'.tableOf pgdir va' = q := by
        rw [tableOf, hpde, pa2page_entry hqlt (by decide)]
      have hword : m'.mem q (PTX va') = 0 := by
        rw [hmem, store_mem_word hptx, withTable_mem_table hqg.symm]
      rw [hold]
      simp [mapping, htable, hword]
    · apply mapping_congr
      · rw [hmem, store_mem_page hqg, withTable_mem_pde hqg hpdx]
      · intro hp
        have htable : m.IsTable pgdir (m.tableOf pgdir va') :=
          isTable_tableOf hva' fun hz => hp (by simp [hz])
        have htq : m.tableOf pgdir va' ≠ q := by
          intro hx
          rw [hx] at htable
          exact hqown (.inr htable)
        have htg : m.tableOf pgdir va' ≠ pgdir := by
          intro hx
          rw [hx] at htable
          exact hs.dir htable
        rw [hmem, store_mem_page htq, withTable_mem_page htg htq]

/-- Only pages that the address space owned are touched, and its directory only loses entries. -/
structure Emptied (pgdir : Nat) (m m' : Pmap) : Prop where
  outside : ∀ x, ¬ m.Owns pgdir x → m'.mem x = m.mem x
  pde : ∀ d, m'.mem pgdir d = m.mem pgdir d ∨ m'.mem pgdir d = 0

namespace Emptied

variable {m₀ : Pmap}

theorem refl (pgdir : Nat) (m : Pmap) : Emptied pgdir m m := ⟨fun _ _ => rfl, fun _ => .inl rfl⟩

theorem clear (h : Emptied pgdir m₀ m) {x i : Nat} (hx : m₀.Owns pgdir x)
    (hmem : m'.mem = (m.store x i 0).mem) : Emptied pgdir m₀ m' := by
  refine ⟨fun y hy => ?_, fun d => ?_⟩
  · rw [hmem, store_mem_page (by rintro rfl; exact hy hx)]
    exact h.outside y hy
  · rw [hmem]
    by_cases hd : pgdir = x ∧ d = i
    · obtain ⟨rfl, rfl⟩ := hd
      exact .inr (store_mem_self ..)
    · have hsame : (m.store x i 0).mem pgdir d = m.mem pgdir d := by
        by_cases hi : d = i
        · rw [store_mem_page fun hg => hd ⟨hg, hi⟩]
        · exact store_mem_word hi
      rw [hsame]
      exact h.pde d

private theorem owns_tableOf (h : Emptied pgdir m₀ m) (hva : va < UTOP) (h0 : m.mem pgdir (PDX va) ≠ 0) :
    m₀.Owns pgdir (m.tableOf pgdir va) := by
  have hpde : m.mem pgdir (PDX va) = m₀.mem pgdir (PDX va) := (h.pde _).resolve_right h0
  rw [tableOf, hpde]
  rw [hpde] at h0
  exact .inr (isTable_tableOf hva h0)

theorem pageRemove (h : Emptied pgdir m₀ m) (hva : va < UTOP)
    (hm : m.pageRemove pgdir va = some m') : Emptied pgdir m₀ m' := by
  rcases pageRemove_mem hm with ⟨-, rfl⟩ | ⟨h0, hmem⟩
  · exact h
  · exact h.clear (h.owns_tableOf hva h0) hmem

theorem freeTable (h : Emptied pgdir m₀ m) {d : Nat} (hd : d < NUPDE)
    (hm : m.freeTable pgdir d = some m') : Emptied pgdir m₀ m' := by
  unfold Pmap.freeTable at hm
  split at hm
  · obtain rfl := Option.some.inj hm
    exact h
  · obtain ⟨u, hu, hrest⟩ := Option.bind_eq_some_iff.mp hm
    have hu' : Emptied pgdir m₀ u := by
      refine foldlM_invariant (I := Emptied pgdir m₀) ?_ h hu
      intro t ht b b' hb hstep
      unfold freeEntry at hstep
      split at hstep
      · exact hb.pageRemove (PGADDR_lt_UTOP hd (List.mem_range.mp ht)) hstep
      · obtain rfl := Option.some.inj hstep
        exact hb
    exact hu'.clear (.inl rfl) (pageDecref_mem hrest)

theorem freePgdir (hm : m.freePgdir pgdir = some m') : Emptied pgdir m m' := by
  obtain ⟨u, hu, hrest⟩ := Option.bind_eq_some_iff.mp hm
  have hu' : Emptied pgdir m u := by
    refine foldlM_invariant (I := Emptied pgdir m) ?_ (.refl pgdir m) hu
    intro d hd b b' hb hstep
    rw [PDX_UTOP] at hd
    exact hb.freeTable (List.mem_range.mp hd) hstep
  have hmem := pageDecref_mem hrest
  exact ⟨fun x hx => by rw [hmem, hu'.outside x hx], fun d => by rw [hmem]; exact hu'.pde d⟩

end Emptied

end Pmap

def System.Owns (s : System) (i : Fin NENV) (p : Nat) : Prop := s.pmap.Owns (s.envs i).pgdir p

/-- The address spaces of the environments in use have no page in common and use each page once,
none of their pages is free, and the next slot to be used is free. -/
structure System.Separate (s : System) : Prop where
  disjoint : ∀ i j p, s.Live i → s.Live j → i ≠ j → s.Owns i p → ¬ s.Owns j p
  single : ∀ i, s.Live i → s.pmap.Single (s.envs i).pgdir
  free : ∃ xs, Chain s.pmap.ppLink s.pmap.pageFreeList xs ∧
    ∀ p ∈ xs, p < 2 ^ 20 ∧ ∀ i, s.Live i → ¬ s.Owns i p
  slot : ∀ e, s.envFreeList = some e → ¬ s.Live e

/-- What `v` maps, its saved registers and its page fault upcall are the same. -/
structure Undisturbed (s t : System) (v : Fin NENV) : Prop where
  mapping : ∀ va < UTOP,
    t.pmap.mapping (t.envs v).pgdir va = s.pmap.mapping (s.envs v).pgdir va
  tf : (t.envs v).tf = (s.envs v).tf
  upcall : (t.envs v).pgfaultUpcall = (s.envs v).pgfaultUpcall

/-- `v` was waiting for a message: at most the page at `env_ipc_dstva` is mapped anew, and `eax`
becomes 0. -/
structure Received (s t : System) (v : Fin NENV) : Prop where
  recving : (s.envs v).ipcRecving = true
  mapping : ∀ va < UTOP, PGNUM va ≠ PGNUM (s.envs v).ipcDstva →
    t.pmap.mapping (t.envs v).pgdir va = s.pmap.mapping (s.envs v).pgdir va
  tf : (t.envs v).tf = { (s.envs v).tf with regs := { (s.envs v).tf.regs with eax := 0 } }
  upcall : (t.envs v).pgfaultUpcall = (s.envs v).pgfaultUpcall

namespace System.Separate

variable {s t : System} {v e : Fin NENV}

theorem head (h : s.Separate) {p : Nat} (hp : s.pmap.pageFreeList = some p) :
    p < 2 ^ 20 ∧ ∀ i, s.Live i → ¬ s.Owns i p := by
  obtain ⟨xs, hchain, hxs⟩ := h.free
  cases xs with
  | nil => exact absurd (hchain.symm.trans hp) (by simp)
  | cons x xs =>
    obtain rfl : x = p := Option.some.inj (hchain.1.symm.trans hp)
    exact hxs x (by simp)

theorem next (h : s.Separate) {p q : Nat} (hp : s.pmap.pageFreeList = some p)
    (hq : s.pmap.ppLink p = some q) : q < 2 ^ 20 ∧ ∀ i, s.Live i → ¬ s.Owns i q := by
  obtain ⟨xs, hchain, hxs⟩ := h.free
  cases xs with
  | nil => exact absurd (hchain.symm.trans hp) (by simp)
  | cons x xs =>
    obtain rfl : x = p := Option.some.inj (hchain.1.symm.trans hp)
    cases xs with
    | nil => exact absurd (hchain.2.symm.trans hq) (by simp)
    | cons y ys =>
      obtain rfl : y = q := Option.some.inj (hchain.2.1.symm.trans hq)
      exact hxs y (by simp)

end System.Separate

def KeepsSpace (s : System) (v : Fin NENV) (m : Pmap) : Prop :=
  ∀ x, s.Owns v x → m.mem x = s.pmap.mem x

private theorem KeepsSpace.undisturbed {s t : System} {v : Fin NENV} (h : KeepsSpace s v t.pmap)
    (hg : (t.envs v).pgdir = (s.envs v).pgdir) (htf : (t.envs v).tf = (s.envs v).tf)
    (hu : (t.envs v).pgfaultUpcall = (s.envs v).pgfaultUpcall) : Undisturbed s t v := by
  refine ⟨fun va hva => ?_, htf, hu⟩
  rw [hg]
  exact Pmap.mapping_of_owns h hva

theorem Undisturbed.refl (s : System) (v : Fin NENV) : Undisturbed s s v :=
  ⟨fun _ _ => rfl, rfl, rfl⟩

private theorem store_mem_same {m : Pmap} {p i w : Nat} (h : m.mem p i = w) : (m.store p i w).mem = m.mem := by
  rw [Pmap.store, ← h, Function.update_eq_self, Function.update_eq_self]

namespace System.Separate

variable {s t : System} {v e : Fin NENV} {m : Pmap}

theorem pageInsert (h : s.Separate) (hv : s.Live v) (he : s.Live e) (hve : v ≠ e)
    {p va perm : Nat} {b : Bool} (hva : va < UTOP)
    (hm : s.pmap.pageInsert (s.envs e).pgdir p va perm = some (b, m)) : KeepsSpace s v m := by
  intro x hx
  apply Pmap.pageInsert_touches hva (fun q hq => (h.head hq).1) hm
  · exact h.disjoint v e x hv he hve hx
  · intro hl
    exact (h.head hl).2 v hv hx

theorem pageInsert_taken (h : s.Separate) (hv : s.Live v) (he : s.Live e) (hve : v ≠ e)
    {p va perm : Nat} {b : Bool} (hva : va < UTOP) (hp : s.pmap.pageFreeList = some p)
    (hm : (s.pmap.taken p).pageInsert (s.envs e).pgdir p va perm = some (b, m)) :
    KeepsSpace s v m := by
  intro x hx
  have hpx : x ≠ p := by
    rintro rfl
    exact (h.head hp).2 v hv hx
  have hdir : (s.pmap.taken p).mem (s.envs e).pgdir = s.pmap.mem (s.envs e).pgdir :=
    Pmap.taken_mem_page fun hg => (h.head hp).2 e he (.inl hg.symm)
  rw [Pmap.pageInsert_touches hva (fun q hq => (h.next hp hq).1) hm, Pmap.taken_mem_page hpx]
  · rw [Pmap.owns_congr hdir]
    exact h.disjoint v e x hv he hve hx
  · intro hl
    exact (h.next hp hl).2 v hv hx

theorem sysPageAlloc (h : s.Separate) {c : Fin NENV} (hc : s.Live c) (hv : s.Live v)
    (hve : ∀ envid e, s.envid2env c envid true = some e → v ≠ e) {r : Int}
    {envid va perm : BitVec 32} (ho : s.sysPageAlloc c envid va perm = .returns r t) :
    Undisturbed s t v := by
  unfold System.sysPageAlloc at ho
  split at ho
  · cases ho
    exact .refl s v
  · next e he =>
    have hne := hve _ _ he
    have hlive := live_of_envid2env he hc
    split at ho
    · cases ho
      exact .refl s v
    · next hchecks =>
      have hva : pageAddr va.toNat = true := by
        simp at hchecks
        exact hchecks.1
      cases hl : s.pmap.pageFreeList with
      | none =>
        rw [Pmap.pageAlloc_none hl] at ho
        dsimp only at ho
        split at ho
        · cases ho
        · next u hu =>
          cases ho
          -- the word that `page_free(NULL)` clears is zero already
          simp only [System.pageFreeNull] at hu
          split_ifs at hu with hpresent hclear
          obtain rfl := Option.some.inj hu
          rw [not_or, not_not, not_not] at hclear
          refine KeepsSpace.undisturbed (fun x hx => ?_) rfl rfl rfl
          exact congrFun (store_mem_same hclear.2) x
      | some p =>
        rw [Pmap.pageAlloc_some hl] at ho
        dsimp only at ho
        split at ho
        · cases ho
        · next m hm =>
          cases ho
          exact (h.pageInsert_taken hv hlive hne (pageAddr_lt hva) hl hm).undisturbed rfl rfl rfl
        · next m hm =>
          split at ho
          · cases ho
          · next u hu =>
            cases ho
            have hk := h.pageInsert_taken hv hlive hne (pageAddr_lt hva) hl hm
            refine KeepsSpace.undisturbed (fun x hx => ?_) rfl rfl rfl
            exact (congrFun (Pmap.pageFree_mem hu) x).trans (hk x hx)

theorem sysPageMap (h : s.Separate) {c : Fin NENV} (hc : s.Live c) (hv : s.Live v)
    (hve : ∀ envid e, s.envid2env c envid true = some e → v ≠ e) {r : Int}
    {srcenvid srcva dstenvid dstva perm : BitVec 32}
    (ho : s.sysPageMap c srcenvid srcva dstenvid dstva perm = .returns r t) :
    Undisturbed s t v := by
  unfold System.sysPageMap at ho
  split at ho
  · cases ho
    exact .refl s v
  · split at ho
    · cases ho
      exact .refl s v
    · next dst hdst =>
      have hlive := live_of_envid2env hdst hc
      split at ho
      · cases ho
        exact .refl s v
      · next hchecks =>
        have hva : pageAddr dstva.toNat = true := by
          simp at hchecks
          exact hchecks.1.2
        split at ho
        · cases ho
          exact .refl s v
        · dsimp only at ho
          split at ho
          · cases ho
            exact .refl s v
          · split at ho
            · cases ho
            · next m hm =>
              cases ho
              exact (h.pageInsert hv hlive (hve _ _ hdst) (pageAddr_lt hva) hm).undisturbed rfl rfl rfl
            · next m hm =>
              cases ho
              exact (h.pageInsert hv hlive (hve _ _ hdst) (pageAddr_lt hva) hm).undisturbed rfl rfl rfl

theorem sysPageUnmap (h : s.Separate) {c : Fin NENV} (hc : s.Live c) (hv : s.Live v)
    (hve : ∀ envid e, s.envid2env c envid true = some e → v ≠ e) {r : Int}
    {envid va : BitVec 32} (ho : s.sysPageUnmap c envid va = .returns r t) :
    Undisturbed s t v := by
  unfold System.sysPageUnmap at ho
  split at ho
  · cases ho
    exact .refl s v
  · next e he =>
    have hlive := live_of_envid2env he hc
    split at ho
    · cases ho
      exact .refl s v
    · next hchecks =>
      have hva : pageAddr va.toNat = true := by simpa using hchecks
      split at ho
      · cases ho
      · next m hm =>
        cases ho
        refine KeepsSpace.undisturbed (fun x hx => ?_) rfl rfl rfl
        apply ((Pmap.Emptied.refl (s.envs e).pgdir s.pmap).pageRemove (pageAddr_lt hva) hm).outside
        exact h.disjoint v e x hv hlive (hve _ _ he) hx

theorem envDestroy (h : s.Separate) (hv : s.Live v) (he : s.Live e) (hve : v ≠ e)
    (ht : s.envDestroy e = some (true, t)) : Undisturbed s t v := by
  unfold System.envDestroy at ht
  split at ht
  · obtain ⟨-, rfl⟩ := Prod.mk.inj (Option.some.inj ht)
    refine KeepsSpace.undisturbed (fun _ _ => rfl) ?_ ?_ ?_
    all_goals rw [s.setEnv_envs_of_ne hve]
  · obtain ⟨u, hu, hbt⟩ := Option.map_eq_some_iff.mp ht
    obtain ⟨m, hm, rfl⟩ := Option.map_eq_some_iff.mp hu
    split at hbt
    · simp at hbt
    · obtain ⟨-, rfl⟩ := Prod.mk.inj hbt
      refine KeepsSpace.undisturbed (fun x hx => ?_) ?_ ?_ ?_
      · exact (Pmap.Emptied.freePgdir hm).outside x (h.disjoint v e x hv he hve hx)
      all_goals simp [System.setEnv, hve]

/-- `env_alloc` builds the new address space in a free page and uses a free slot. -/
theorem envAlloc (h : s.Separate) (hv : s.Live v) {parent : BitVec 32}
    (ht : s.envAlloc parent = (.ok e, t)) : v ≠ e ∧ t.envs v = s.envs v ∧ KeepsSpace s v t.pmap := by
  obtain ⟨he, q, hq, rfl⟩ := envAlloc_cases ht
  have hne : v ≠ e := by
    rintro rfl
    exact h.slot v he hv
  refine ⟨hne, Function.update_of_ne hne _ _, fun x hx => Pmap.newDirectory_mem_page ?_⟩
  rintro rfl
  exact (h.head hq).2 v hv hx

theorem sysExofork (h : s.Separate) {c : Fin NENV} (hv : s.Live v) {r : Int}
    (ho : s.sysExofork c = .returns r t) : Undisturbed s t v := by
  unfold System.sysExofork at ho
  split at ho
  · next u hu =>
    cases ho
    rw [envAlloc_error hu]
    exact .refl s v
  · next e u hu =>
    cases ho
    obtain ⟨hne, henv, hk⟩ := h.envAlloc hv hu
    refine KeepsSpace.undisturbed hk ?_ ?_ ?_
    all_goals rw [u.setEnv_envs_of_ne hne, henv]

private theorem deliver_envs_of_ne {c : Fin NENV} (hve : v ≠ e) (u : System) (value : BitVec 32) :
    (u.deliver c e value).envs v = u.envs v :=
  u.setEnv_envs_of_ne hve _

private theorem sendPage_other (h : s.Separate) {c : Fin NENV} (hv : s.Live v) (he : s.Live e)
    (hve : v ≠ e) {r : Int} {value srcva perm : BitVec 32}
    (ho : s.sendPage c e value srcva perm = .returns r t) : Undisturbed s t v := by
  unfold System.sendPage at ho
  split at ho
  · cases ho
    exact .refl s v
  · split at ho
    · cases ho
      exact .refl s v
    · split at ho
      · cases ho
        exact .refl s v
      · split at ho
        · cases ho
          exact .refl s v
        · split at ho
          · next hdst =>
            split at ho
            · cases ho
            · next m hm =>
              cases ho
              refine KeepsSpace.undisturbed (h.pageInsert hv he hve hdst hm) ?_ ?_ ?_
              all_goals simp [System.setEnv, hve]
            · next m hm =>
              cases ho
              refine KeepsSpace.undisturbed (h.pageInsert hv he hve hdst hm) ?_ ?_ ?_
              all_goals simp [System.deliver, System.setEnv, hve]
          · cases ho
            refine KeepsSpace.undisturbed (fun _ _ => rfl) ?_ ?_ ?_
            all_goals rw [deliver_envs_of_ne hve]

private theorem sendPage_self (h : s.Separate) {c : Fin NENV} (hv : s.Live v) {r : Int}
    {value srcva perm : BitVec 32} (hrecv : (s.envs v).ipcRecving = true)
    (ho : (s.setEnv v { s.envs v with ipcRecving := false }).sendPage c v value srcva perm
      = .returns r t) : Undisturbed s t v ∨ (r = 0 ∧ Received s t v) := by
  have hmark : Undisturbed s (s.setEnv v { s.envs v with ipcRecving := false }) v := by
    refine KeepsSpace.undisturbed (fun _ _ => rfl) ?_ ?_ ?_
    all_goals rw [s.setEnv_envs_self]
  unfold System.sendPage at ho
  split at ho
  · cases ho
    exact .inl hmark
  · split at ho
    · cases ho
      exact .inl hmark
    · split at ho
      · cases ho
        exact .inl hmark
      · split at ho
        · cases ho
          exact .inl hmark
        · split at ho
          · next hdst =>
            rw [s.setEnv_envs_self] at hdst ho
            split at ho
            · cases ho
            · next m hm =>
              cases ho
              obtain ⟨-, rfl, -⟩ | ⟨hb, -⟩ := Pmap.pageInsert_cases hm
              · left
                refine KeepsSpace.undisturbed (fun _ _ => rfl) ?_ ?_ ?_
                all_goals simp [System.setEnv]
              · simp at hb
            · next m hm =>
              cases ho
              refine .inr ⟨rfl, hrecv, fun va hva hne => ?_, ?_, ?_⟩
              · have hmap := Pmap.pageInsert_mapping (h.single v hv) hdst hva hne
                  (fun q hq => ⟨(h.head hq).1, (h.head hq).2 v hv⟩) hm
                simpa [System.deliver, System.setEnv] using hmap
              all_goals simp [System.deliver, System.setEnv]
          · cases ho
            refine .inr ⟨rfl, hrecv, fun va hva hne => ?_, ?_, ?_⟩
            all_goals simp [System.deliver, System.setEnv]

/-- Marking an environment changes nothing that separation is about. -/
theorem of_sameDirs (h : s.Separate) (hd : SameDirs s t) (hm : t.pmap = s.pmap)
    (hl : t.envFreeList = s.envFreeList) : t.Separate := by
  have howns (i : Fin NENV) (p : Nat) : t.Owns i p ↔ s.Owns i p := by
    rw [System.Owns, System.Owns, hm, hd.pgdir]
  refine ⟨fun i j p hi hj => ?_, fun i hi => ?_, ?_, fun e he => ?_⟩
  · rw [howns, howns]
    exact h.disjoint i j p ((hd.live i).mp hi) ((hd.live j).mp hj)
  · rw [hm, hd.pgdir]
    exact h.single i ((hd.live i).mp hi)
  · obtain ⟨xs, hchain, hxs⟩ := h.free
    rw [hm]
    refine ⟨xs, hchain, fun p hp => ⟨(hxs p hp).1, fun i hi => ?_⟩⟩
    rw [howns]
    exact (hxs p hp).2 i ((hd.live i).mp hi)
  · rw [hd.live]
    exact h.slot e (hl ▸ he)

theorem sysIpcTrySend (h : s.Separate) {c : Fin NENV} (hc : s.Live c) (hv : s.Live v) {r : Int}
    {envid value srcva perm : BitVec 32}
    (ho : s.sysIpcTrySend c envid value srcva perm = .returns r t) :
    Undisturbed s t v ∨ (r = 0 ∧ s.envid2env c envid false = some v ∧ Received s t v) := by
  unfold System.sysIpcTrySend at ho
  split at ho
  · cases ho
    exact .inl (.refl s v)
  · next e hid =>
    have he := live_of_envid2env hid hc
    split at ho
    · cases ho
      exact .inl (.refl s v)
    · next hrecv =>
      have hrecv : (s.envs e).ipcRecving = true := by simpa using hrecv
      dsimp only at ho
      by_cases hve : v = e
      · subst hve
        split at ho
        · rcases h.sendPage_self hv hrecv ho with hu | ⟨hr, hrec⟩
          · exact .inl hu
          · exact .inr ⟨hr, hid, hrec⟩
        · cases ho
          refine .inr ⟨rfl, hid, hrecv, fun va hva hne => ?_, ?_, ?_⟩
          all_goals simp [System.deliver, System.setEnv]
      · left
        have hmark : SameDirs s (s.setEnv e { s.envs e with ipcRecving := false }) :=
          .update rfl Iff.rfl
        have hsep := h.of_sameDirs hmark rfl rfl
        have henv := s.setEnv_envs_of_ne hve { s.envs e with ipcRecving := false }
        split at ho
        · have hu := hsep.sendPage_other ((hmark.live v).mpr hv) ((hmark.live e).mpr he) hve ho
          refine ⟨fun va hva => (hu.mapping va hva).trans ?_, hu.tf.trans ?_, hu.upcall.trans ?_⟩
          all_goals rw [henv]
          rfl
        · cases ho
          refine KeepsSpace.undisturbed (fun _ _ => rfl) ?_ ?_ ?_
          all_goals rw [deliver_envs_of_ne hve, henv]

end System.Separate

/-- A system call that returns leaves every environment alone that is neither the caller nor a
child of it, unless it delivers a message for which that environment was waiting. -/
theorem authority_confined {s t : System} {c v : Fin NENV} {a : Call} {r : Int} (h : s.Separate)
    (hc : s.Live c) (hv : s.Live v) (hvc : v ≠ c) (hchild : (s.envs v).parentId ≠ (s.envs c).id)
    (ho : a.exec s c = .returns r t) :
    Undisturbed s t v ∨ (r = 0 ∧ (∃ envid value srcva perm, a = .ipcTrySend envid value srcva perm ∧
      s.envid2env c envid false = some v) ∧ Received s t v) := by
  -- with the check of permissions, ids lead to the caller or to a child
  have hve (envid : BitVec 32) (e : Fin NENV) (he : s.envid2env c envid true = some e) : v ≠ e := by
    rintro rfl
    simp only [System.envid2env] at he
    split_ifs at he with h1 h2 h3
    · exact hvc (Option.some.inj he).symm
    · obtain rfl := Option.some.inj he
      exact h3 ⟨trivial, hvc, hchild⟩
  have hset {envid : BitVec 32} {e : Fin NENV} {w : Env} (he : s.envid2env c envid true = some e) :
      Undisturbed s (s.setEnv e w) v := by
    refine KeepsSpace.undisturbed (fun _ _ => rfl) ?_ ?_ ?_
    all_goals rw [s.setEnv_envs_of_ne (hve _ _ he)]
  cases a with
  | cputs | cgetc ch | getenvid | unknown =>
    cases ho
    exact .inl (.refl s v)
  | envDestroy envid =>
    simp only [Call.exec, System.sysEnvDestroy] at ho
    split at ho
    · cases ho
      exact .inl (.refl s v)
    · next e he =>
      split at ho
      · cases ho
      · next u hu =>
        cases ho
        exact .inl (h.envDestroy hv (live_of_envid2env he hc) (hve _ _ he) hu)
      · cases ho
  | pageAlloc envid va perm => exact .inl (h.sysPageAlloc hc hv hve ho)
  | pageMap srcenvid srcva dstenvid dstva perm => exact .inl (h.sysPageMap hc hv hve ho)
  | pageUnmap envid va => exact .inl (h.sysPageUnmap hc hv hve ho)
  | exofork => exact .inl (h.sysExofork hv ho)
  | envSetStatus envid status =>
    simp only [Call.exec, System.sysEnvSetStatus] at ho
    split at ho
    · cases ho
      exact .inl (.refl s v)
    · split at ho
      · cases ho
        exact .inl (.refl s v)
      · next e he =>
        cases ho
        exact .inl (hset he)
  | envSetTrapframe envid tf =>
    simp only [Call.exec, System.sysEnvSetTrapframe] at ho
    split at ho
    · cases ho
      exact .inl (.refl s v)
    · next e he =>
      cases ho
      exact .inl (hset he)
  | envSetPgfaultUpcall envid func =>
    simp only [Call.exec, System.sysEnvSetPgfaultUpcall] at ho
    split at ho
    · cases ho
      exact .inl (.refl s v)
    · next e he =>
      split at ho
      · cases ho
        exact .inl (.refl s v)
      · cases ho
        exact .inl (hset he)
  | yield => cases ho
  | ipcTrySend envid value srcva perm =>
    rcases h.sysIpcTrySend hc hv ho with hu | ⟨hr, hid, hrec⟩
    · exact .inl hu
    · exact .inr ⟨hr, ⟨envid, value, srcva, perm, rfl, hid⟩, hrec⟩
  | ipcRecv dstva =>
    simp only [Call.exec, System.sysIpcRecv] at ho
    split at ho
    · cases ho
      exact .inl (.refl s v)
    · cases ho

private theorem sampleSystem_owns {i : Fin NENV} {p : Nat} (hi : sampleSystem.Live i)
    (h : sampleSystem.Owns i p) : (i = 0 ∧ p = 301) ∨ (i = 1 ∧ (p = 302 ∨ p = 303)) := by
  have htables {g : Nat} (hg : g = 301 ∨ g = 302) (ht : samplePmap.IsTable g p) :
      g = 302 ∧ p = 303 := by
    obtain ⟨d, hd, h0, rfl⟩ := ht
    obtain ⟨rfl, rfl⟩ := samplePmap_pde hg hd h0
    decide
  obtain rfl | rfl := sampleSystem_live hi
  · rcases h with h | h
    · exact .inl ⟨rfl, h⟩
    · exact absurd (htables (.inl rfl) h).1 (by decide)
  · rcases h with h | h
    · exact .inr ⟨rfl, .inl h⟩
    · exact .inr ⟨rfl, .inr (htables (.inr rfl) h).2⟩

private theorem samplePmap_single {g : Nat} (hg : g = 301 ∨ g = 302) : samplePmap.Single g := by
  refine ⟨?_, fun d d' hd hd' h0 h0' _ => ?_⟩
  · rintro ⟨d, hd, h0, ht⟩
    obtain ⟨rfl, rfl⟩ := samplePmap_pde hg hd h0
    exact absurd ht (by decide)
  · rw [(samplePmap_pde hg hd h0).2, (samplePmap_pde hg hd' h0').2]

private theorem sampleSystem_separate : sampleSystem.Separate := by
  refine ⟨fun i j p hi hj hij hip hjp => ?_, fun i hi => ?_, ?_, fun e he => ?_⟩
  · have h1 := sampleSystem_owns hi hip
    have h2 := sampleSystem_owns hj hjp
    omega
  · obtain rfl | rfl := sampleSystem_live hi
    · exact samplePmap_single (.inl rfl)
    · exact samplePmap_single (.inr rfl)
  · refine ⟨[306, 307, 308, 309, 310, 311, 312], by simp [Chain, sampleSystem, samplePmap], ?_⟩
    intro p hp
    have hrange : 306 ≤ p ∧ p ≤ 312 := by
      simp at hp
      omega
    refine ⟨by omega, fun i hi hip => ?_⟩
    have := sampleSystem_owns hi hip
    omega
  · obtain rfl : 2 = e := Option.some.inj he
    decide

/-- The program maps a page; the server is not disturbed. -/
theorem authority_confined_program :
    ∃ t, (Call.pageAlloc 0 0x803000 7).exec sampleSystem 1 = .returns 0 t ∧
      Undisturbed sampleSystem t 0 := by
  have hret : ∃ t, (Call.pageAlloc 0 0x803000 7).exec sampleSystem 1 = .returns 0 t := ⟨_, rfl⟩
  obtain ⟨t, ht⟩ := hret
  refine ⟨t, ht, ?_⟩
  rcases authority_confined (v := 0) sampleSystem_separate (by decide) (by decide) (by decide)
    (by decide) ht with hu | ⟨-, ⟨envid, value, srcva, perm, ha, -⟩, -⟩
  · exact hu
  · cases ha

/-- The page tables of distinct environments are disjoint. -/
def System.TablesDisjoint (s : System) : Prop :=
  ∀ i j p, s.Live i → s.Live j → i ≠ j → s.pmap.IsTable (s.envs i).pgdir p →
    ¬ s.pmap.IsTable (s.envs j).pgdir p

/-- The program's page table is at the head of the free list. -/
def staleSystem : System :=
  { sampleSystem with
    pmap := { samplePmap with
      ppRef := Function.update samplePmap.ppRef 303 0
      ppLink := Function.update samplePmap.ppLink 303 (some 306)
      pageFreeList := some 303 } }

/-- The program's slot is at the head of the list of free slots. -/
def reusedSystem : System := { sampleSystem with envFreeList := some 1 }

/-- The two environments have one page directory. -/
def oneDirectorySystem : System :=
  { sampleSystem with
    envs := Function.update sampleSystem.envs 1 { programEnv with pgdir := 301 } }

/-- The server has one page table for two parts of its address space. -/
def doubledSystem : System :=
  { sampleSystem with
    pmap := (samplePmap.store 301 2 (entry 320 (PTE_W ||| PTE_U))).store 301 3 (entry 320 (PTE_W ||| PTE_U)) }

private theorem sampleSystem_tablesDisjoint {s : System} (hlive : ∀ i, s.Live i → i = 0 ∨ i = 1)
    (h : ∀ p, s.pmap.IsTable (s.envs 0).pgdir p → ¬ s.pmap.IsTable (s.envs 1).pgdir p) : s.TablesDisjoint := by
  intro i j p hi hj hij hip hjp
  obtain rfl | rfl := hlive i hi
  · obtain rfl | rfl := hlive j hj
    · exact hij rfl
    · exact h p hip hjp
  · obtain rfl | rfl := hlive j hj
    · exact h p hjp hip
    · exact hij rfl

private theorem oneDirectorySystem_tablesDisjoint : oneDirectorySystem.TablesDisjoint := by
  apply sampleSystem_tablesDisjoint
  · intro i hi
    by_cases h1 : i = 1
    · exact .inr h1
    · apply sampleSystem_live
      simpa [System.Live, oneDirectorySystem, h1] using hi
  · rintro p ⟨d, hd, h0, -⟩
    exact absurd (samplePmap_pde (.inl rfl) hd h0).1 (by decide)

private theorem doubledSystem_tablesDisjoint : doubledSystem.TablesDisjoint := by
  apply sampleSystem_tablesDisjoint (s := doubledSystem) (fun i hi => sampleSystem_live hi)
  rintro p ⟨d, hd, h0, rfl⟩ ⟨d', hd', h0', hp⟩
  have hright : doubledSystem.pmap.mem 302 = samplePmap.mem 302 := by
    simp [doubledSystem, Pmap.store]
  change doubledSystem.pmap.mem 302 d' ≠ 0 at h0'
  change pa2page (PTE_ADDR (doubledSystem.pmap.mem 302 d')) = _ at hp
  rw [hright] at h0' hp
  obtain ⟨-, rfl⟩ := samplePmap_pde (.inr rfl) hd' h0'
  have hleft : doubledSystem.pmap.mem 301 d = entry 320 (PTE_W ||| PTE_U) := by
    by_cases h2 : d = 2
    · simp [doubledSystem, Pmap.store, h2]
    by_cases h3 : d = 3
    · simp [doubledSystem, Pmap.store, h3]
    · refine absurd (samplePmap_pde (.inl rfl) hd ?_).1 (by decide)
      change doubledSystem.pmap.mem 301 d ≠ 0 at h0
      simpa [doubledSystem, Pmap.store, h2, h3] using h0
  change _ = pa2page (PTE_ADDR (doubledSystem.pmap.mem 301 d)) at hp
  rw [hleft] at hp
  revert hp
  decide

/-- A call disturbs another environment if that one's page table is free, if its slot is the next to
be used, if it shares its page directory with the caller, or if it has one page table twice. -/
theorem stale_table_cleared :
    (staleSystem.TablesDisjoint ∧ (staleSystem.envs 0).id ≠ (staleSystem.envs 1).parentId ∧
      ∃ r t, (Call.pageAlloc 0 0x900000 7).exec staleSystem 0 = .returns r t ∧
        ¬ Undisturbed staleSystem t 1) ∧
      (reusedSystem.TablesDisjoint ∧ (reusedSystem.envs 0).id ≠ (reusedSystem.envs 1).parentId ∧
        ∃ r t, Call.exofork.exec reusedSystem 0 = .returns r t ∧ ¬ Undisturbed reusedSystem t 1) ∧
      (oneDirectorySystem.TablesDisjoint ∧ (oneDirectorySystem.envs 0).id ≠ (oneDirectorySystem.envs 1).parentId ∧
        ∃ r t, (Call.pageAlloc 0 0x900000 7).exec oneDirectorySystem 0 = .returns r t ∧
          ¬ Undisturbed oneDirectorySystem t 1) ∧
      (doubledSystem.TablesDisjoint ∧ (doubledSystem.envs 1).id ≠ (doubledSystem.envs 0).parentId ∧
        ∃ r t, (Call.ipcTrySend serverEnv.id 0 0x800000 7).exec doubledSystem 1 = .returns r t ∧
          ¬ Undisturbed doubledSystem t 0 ∧ ¬ Received doubledSystem t 0) := by
  have hsample : sampleSystem.TablesDisjoint := by
    apply sampleSystem_tablesDisjoint (fun i hi => sampleSystem_live hi)
    rintro p ⟨d, hd, h0, -⟩
    exact absurd (samplePmap_pde (.inl rfl) hd h0).1 (by decide)
  refine ⟨⟨hsample, by decide, _, _, rfl, fun h => ?_⟩, ⟨hsample, by decide, _, _, rfl, fun h => ?_⟩,
    ⟨oneDirectorySystem_tablesDisjoint, by decide, _, _, rfl, fun h => ?_⟩,
    ⟨doubledSystem_tablesDisjoint, by decide, _, _, rfl, fun h => ?_, fun h => ?_⟩⟩
  · have hmap := h.mapping 0x800000 (by decide)
    revert hmap
    decide +kernel
  · have hmap := h.mapping 0x800000 (by decide)
    revert hmap
    decide +kernel
  · have hmap := h.mapping 0x900000 (by decide)
    revert hmap
    decide +kernel
  · have hmap := h.mapping 0xD00000 (by decide)
    revert hmap
    decide +kernel
  · have hmap := h.mapping 0xD00000 (by decide) (by decide)
    revert hmap
    decide +kernel

end DamnOS.Kernel
