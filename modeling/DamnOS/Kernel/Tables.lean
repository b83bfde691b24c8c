import DamnOS.Kernel.EnvTable

/-!
# What the page operations write

Each operation of `pmap.c` writes few words: an entry of a page table, an entry of a page directory
together with a fresh page table, or nothing.
-/

namespace DamnOS.Kernel

namespace Pmap

variable {m m' : Pmap} {pgdir va p perm q i w : Nat}

@[simp] theorem setRef_mem (m : Pmap) (p n : Nat) : (m.setRef p n).mem = m.mem := rfl

@[simp] theorem incRef_mem (m : Pmap) (p : Nat) : (m.incRef p).mem = m.mem := rfl

@[simp] theorem store_mem_self (m : Pmap) (p i w : Nat) : (m.store p i w).mem p i = w := by
  simp [store]

theorem store_mem_page (h : q ≠ p) : (m.store p i w).mem q = m.mem q := by
  simp [store, h]

theorem store_mem_word {j : Nat} (h : j ≠ i) : (m.store p i w).mem q j = m.mem q j := by
  by_cases hq : q = p
  · subst hq
    simp [store, h]
  · rw [store_mem_page hq]

theorem store_congr (h : m'.mem = m.mem) : (m'.store p i w).mem = (m.store p i w).mem := by
  simp [store, h]

theorem store_store (m : Pmap) (p i w w' : Nat) : ((m.store p i w).store p i w') = m.store p i w' := by
  simp [store]

theorem taken_mem_self (m : Pmap) (p : Nat) : (m.taken p).mem p = fun _ => 0 := by
  simp [taken, zeroPage]

theorem taken_mem_page (h : q ≠ p) : (m.taken p).mem q = m.mem q := by
  simp [taken, zeroPage, h]

theorem pageFree_mem (h : m.pageFree p = some m') : m'.mem = m.mem := by
  unfold pageFree at h
  split_ifs at h
  rw [← Option.some.inj h]

theorem pageDecref_mem (h : m.pageDecref p = some m') : m'.mem = m.mem := by
  simp only [pageDecref] at h
  split_ifs at h
  · rw [pageFree_mem h, setRef_mem]
  · rw [← Option.some.inj h, setRef_mem]

theorem pageFree_kernPgdir (h : m.pageFree p = some m') : m'.kernPgdir = m.kernPgdir := by
  unfold pageFree at h
  split_ifs at h
  rw [← Option.some.inj h]

theorem pageDecref_kernPgdir (h : m.pageDecref p = some m') : m'.kernPgdir = m.kernPgdir := by
  simp only [pageDecref] at h
  split_ifs at h
  · exact (pageFree_kernPgdir h).trans rfl
  · rw [← Option.some.inj h]
    rfl

/-- `page_remove` clears the entry, if there is a page table for it. -/
theorem pageRemove_mem (h : m.pageRemove pgdir va = some m') :
    (m.mem pgdir (PDX va) = 0 ∧ m' = m) ∨
      (m.mem pgdir (PDX va) ≠ 0 ∧ m'.mem = (m.store (m.tableOf pgdir va) (PTX va) 0).mem) := by
  unfold pageRemove at h
  by_cases h0 : m.mem pgdir (PDX va) = 0
  · rw [pageLookup_missing h0] at h
    exact .inl ⟨h0, (Option.some.inj h).symm⟩
  · rw [pageLookup_found h0] at h
    obtain ⟨u, hu, rfl⟩ := Option.map_eq_some_iff.mp h
    exact .inr ⟨h0, store_congr (pageDecref_mem hu)⟩

/-- The new mapping is counted, then the page of the old one is given up, if there is one. -/
theorem installPte_cases (h0 : m.mem pgdir (PDX va) ≠ 0)
    (h : m.installPte pgdir p va perm (m.tableOf pgdir va) (PTX va) = some m') :
    (PTE_ADDR (m.mem (m.tableOf pgdir va) (PTX va)) = 0 ∧
      m' = (m.incRef p).store (m.tableOf pgdir va) (PTX va) (entry p perm)) ∨
    (PTE_ADDR (m.mem (m.tableOf pgdir va) (PTX va)) ≠ 0 ∧ ∃ u,
      (m.incRef p).pageDecref (pa2page (PTE_ADDR (m.mem (m.tableOf pgdir va) (PTX va)))) = some u ∧
        m' = u.store (m.tableOf pgdir va) (PTX va) (entry p perm)) := by
  obtain ⟨v, hv, rfl⟩ := Option.map_eq_some_iff.mp h
  rw [incRef_mem] at hv
  generalize hpt : m.tableOf pgdir va = T at hv ⊢
  split_ifs at hv with hw
  · have h0' : (m.incRef p).mem pgdir (PDX va) ≠ 0 := h0
    rw [pageRemove, pageLookup_found h0'] at hv
    obtain ⟨u, hu, rfl⟩ := Option.map_eq_some_iff.mp hv
    rw [show (m.incRef p).tableOf pgdir va = T from hpt] at hu
    refine .inr ⟨hw, u, hu, ?_⟩
    rw [show (m.incRef p).tableOf pgdir va = T from hpt, store_store]
  · obtain rfl := Option.some.inj hv
    exact .inl ⟨by simpa using hw, rfl⟩

theorem installPte_mem (h0 : m.mem pgdir (PDX va) ≠ 0)
    (h : m.installPte pgdir p va perm (m.tableOf pgdir va) (PTX va) = some m') :
    m'.mem = (m.store (m.tableOf pgdir va) (PTX va) (entry p perm)).mem := by
  rcases installPte_cases h0 h with ⟨-, rfl⟩ | ⟨-, u, hu, rfl⟩
  · exact store_congr (incRef_mem m p)
  · exact store_congr ((pageDecref_mem hu).trans (incRef_mem m p))

theorem withTable_mem (m : Pmap) (pgdir va q : Nat) :
    (m.withTable pgdir va q).mem = ((m.taken q).store pgdir (PDX va)
      ((m.taken q).mem pgdir (PDX va) ||| page2pa q ||| PTE_P ||| PTE_W ||| PTE_U)).mem := by
  rw [withTable, store_mem_self, store_store]
  exact store_congr rfl

theorem entry_table (q : Nat) :
    0 ||| page2pa q ||| PTE_P ||| PTE_W ||| PTE_U = entry q (PTE_W ||| PTE_U) := by
  rw [entry, Nat.zero_or, Nat.or_right_comm (page2pa q ||| PTE_P), Nat.or_right_comm (page2pa q),
    Nat.or_right_comm (page2pa q ||| PTE_U), Nat.or_assoc (page2pa q), Nat.or_comm PTE_U PTE_W]

theorem withTable_pde (h0 : m.mem pgdir (PDX va) = 0) :
    (m.withTable pgdir va q).mem pgdir (PDX va) = entry q (PTE_W ||| PTE_U) := by
  rw [withTable_mem, store_mem_self, ← entry_table]
  congr 4
  by_cases hq : pgdir = q
  · rw [hq, taken_mem_self]
  · rw [taken_mem_page hq, h0]

theorem withTable_tableOf (h0 : m.mem pgdir (PDX va) = 0) (hq : q < 2 ^ 20) :
    (m.withTable pgdir va q).tableOf pgdir va = q := by
  rw [tableOf, withTable_pde h0, pa2page_entry hq (by decide)]

theorem withTable_mem_table (hq : q ≠ pgdir) : (m.withTable pgdir va q).mem q = fun _ => 0 := by
  rw [withTable_mem, store_mem_page hq, taken_mem_self]

theorem withTable_mem_page {r : Nat} (hr : r ≠ pgdir) (hrq : r ≠ q) :
    (m.withTable pgdir va q).mem r = m.mem r := by
  rw [withTable_mem, store_mem_page hr, taken_mem_page hrq]

theorem withTable_mem_pde {d : Nat} (hq : pgdir ≠ q) (hd : d ≠ PDX va) :
    (m.withTable pgdir va q).mem pgdir d = m.mem pgdir d := by
  rw [withTable_mem, store_mem_word hd, taken_mem_page hq]

theorem pageInsert_mem (h : m.pageInsert pgdir p va perm = some (true, m')) :
    (m.mem pgdir (PDX va) ≠ 0 ∧
      m'.mem = (m.store (m.tableOf pgdir va) (PTX va) (entry p perm)).mem) ∨
    ∃ q, m.mem pgdir (PDX va) = 0 ∧ m.pageFreeList = some q ∧
      m'.mem = ((m.withTable pgdir va q).store ((m.withTable pgdir va q).tableOf pgdir va) (PTX va)
        (entry p perm)).mem := by
  by_cases h0 : m.mem pgdir (PDX va) = 0
  · cases hl : m.pageFreeList with
    | none =>
      rw [pageInsert_full h0 hl] at h
      simp at h
    | some q =>
      rw [pageInsert_create h0 hl] at h
      obtain ⟨u, hu, he⟩ := Option.map_eq_some_iff.mp h
      obtain ⟨-, rfl⟩ := Prod.mk.inj he
      refine .inr ⟨q, h0, rfl, installPte_mem ?_ hu⟩
      rw [withTable_pde h0]
      exact entry_ne_zero _ _
  · rw [pageInsert_found h0] at h
    obtain ⟨u, hu, he⟩ := Option.map_eq_some_iff.mp h
    obtain ⟨-, rfl⟩ := Prod.mk.inj he
    exact .inl ⟨h0, installPte_mem h0 hu⟩

/-- The state after `env_setup_vm` filled the directory of a new environment. -/
def newDirectory (m : Pmap) (q : Nat) : Pmap :=
  ((({ m.taken q with
    mem := Function.update (m.taken q).mem q ((m.taken q).mem m.kernPgdir) } : Pmap).incRef q).store
      q (PDX UVPT) (page2pa q ||| PTE_P ||| PTE_U))

theorem newDirectory_mem_page (hp : p ≠ q) : (m.newDirectory q).mem p = m.mem p := by
  rw [newDirectory, store_mem_page hp]
  exact (Function.update_of_ne hp _ _).trans (taken_mem_page hp)

theorem newDirectory_ppRef (hp : p ≠ q) : (m.newDirectory q).ppRef p = m.ppRef p :=
  Function.update_of_ne hp _ _

theorem newDirectory_mem_pde {d : Nat} (hk : m.kernPgdir ≠ q) (hd : d < NUPDE) :
    (m.newDirectory q).mem q d = m.mem m.kernPgdir d := by
  have hne : d ≠ PDX UVPT := by
    rintro rfl
    revert hd
    decide
  rw [newDirectory, store_mem_word hne, ← taken_mem_page (m := m) hk]
  exact congrFun (Function.update_self ..) d

/-- The pages on the free list, and all others that some page is linked to, satisfy `P`. -/
structure ListIn (P : Nat → Prop) (m : Pmap) : Prop where
  head : ∀ p, m.pageFreeList = some p → P p
  link : ∀ p q, m.ppLink p = some q → P q

namespace ListIn

variable {P : Nat → Prop}

theorem taken (h : ListIn P m) (hq : m.pageFreeList = some q) : ListIn P (m.taken q) := by
  refine ⟨fun p hp => h.link q p hp, fun p r hr => ?_⟩
  by_cases hpq : p = q
  · subst hpq
    simp [Pmap.taken, zeroPage] at hr
  · simp only [Pmap.taken, zeroPage, Function.update_of_ne hpq] at hr
    exact h.link p r hr

theorem pageFree (h : ListIn P m) (hp : P p) (hm : m.pageFree p = some m') : ListIn P m' := by
  unfold Pmap.pageFree at hm
  split_ifs at hm
  rw [← Option.some.inj hm]
  refine ⟨fun q hq => ?_, fun q r hr => ?_⟩
  · rwa [← Option.some.inj hq]
  · by_cases hqp : q = p
    · subst hqp
      simp only [Function.update_self] at hr
      exact h.head r hr
    · simp only [Function.update_of_ne hqp] at hr
      exact h.link q r hr

theorem pageDecref (h : ListIn P m) (hp : P p) (hm : m.pageDecref p = some m') : ListIn P m' := by
  simp only [Pmap.pageDecref] at hm
  split_ifs at hm
  · have hset : ListIn P (m.setRef p (m.ppRef p + 65535)) := ⟨h.head, h.link⟩
    exact hset.pageFree hp hm
  · rw [← Option.some.inj hm]
    exact ⟨h.head, h.link⟩

theorem pageRemove (h : ListIn P m)
    (hp : m.mem pgdir (PDX va) ≠ 0 →
      P (pa2page (PTE_ADDR (m.mem (m.tableOf pgdir va) (PTX va)))))
    (hm : m.pageRemove pgdir va = some m') : ListIn P m' := by
  unfold Pmap.pageRemove at hm
  by_cases h0 : m.mem pgdir (PDX va) = 0
  · rw [pageLookup_missing h0] at hm
    rwa [← Option.some.inj hm]
  · rw [pageLookup_found h0] at hm
    obtain ⟨u, hu, rfl⟩ := Option.map_eq_some_iff.mp hm
    have := h.pageDecref (hp h0) hu
    exact ⟨this.head, this.link⟩

theorem installPte (h : ListIn P m)
    (hp : P (pa2page (PTE_ADDR (m.mem (m.tableOf pgdir va) (PTX va)))))
    (hm : m.installPte pgdir p va perm (m.tableOf pgdir va) (PTX va) = some m') : ListIn P m' := by
  obtain ⟨u, hu, rfl⟩ := Option.map_eq_some_iff.mp hm
  have hinc : ListIn P (m.incRef p) := ⟨h.head, h.link⟩
  split_ifs at hu
  · have := hinc.pageRemove (fun _ => hp) hu
    exact ⟨this.head, this.link⟩
  · obtain rfl := Option.some.inj hu
    exact ⟨h.head, h.link⟩

end ListIn

/-- The page table entry for `va`, if the processor finds a present one. -/
def mapping (m : Pmap) (pgdir va : Nat) : Option Nat :=
  if m.mem pgdir (PDX va) &&& PTE_P = 0 then none
  else if m.mem (m.tableOf pgdir va) (PTX va) &&& PTE_P = 0 then none
  else some (m.mem (m.tableOf pgdir va) (PTX va))

theorem mapping_eq_some : m.mapping pgdir va = some w ↔
    m.mem pgdir (PDX va) &&& PTE_P ≠ 0 ∧ m.mem (m.tableOf pgdir va) (PTX va) = w ∧
      w &&& PTE_P ≠ 0 := by
  unfold mapping
  split_ifs with hd ht
  · simp [hd]
  · simp only [false_iff, not_and, not_not]
    rintro - rfl
    exact ht
  · simp only [Option.some.injEq]
    refine ⟨?_, fun h => h.2.1⟩
    rintro rfl
    exact ⟨hd, rfl, ht⟩

theorem mapping_congr (hd : m'.mem pgdir (PDX va) = m.mem pgdir (PDX va))
    (ht : m.mem pgdir (PDX va) &&& PTE_P ≠ 0 →
      m'.mem (m.tableOf pgdir va) (PTX va) = m.mem (m.tableOf pgdir va) (PTX va)) :
    m'.mapping pgdir va = m.mapping pgdir va := by
  have htable : m'.tableOf pgdir va = m.tableOf pgdir va := by
    rw [tableOf, tableOf, hd]
  unfold mapping
  rw [hd, htable]
  by_cases h0 : m.mem pgdir (PDX va) &&& PTE_P = 0
  · simp [h0]
  · rw [ht h0]

theorem mapping_of_mem (h : m'.mem = m.mem) : m'.mapping pgdir va = m.mapping pgdir va :=
  mapping_congr (by rw [h]) fun _ => by rw [h]

end Pmap

theorem permValid_lt {perm : BitVec 32} (h : permValid perm.toNat = true) : perm.toNat < 4096 := by
  simp only [permValid, Bool.and_eq_true, decide_eq_true_eq] at h
  have haddr : PTE_ADDR perm.toNat = 0 := by
    have hmask : 0xFFFFF000
        = (0xFFFFFFFF ^^^ (PTE_P ||| PTE_U ||| PTE_W ||| PTE_AVAIL)) &&& 0xFFFFF000 := by decide
    rw [PTE_ADDR, hmask, ← Nat.and_assoc, h.2, Nat.zero_and]
  have hlt := perm.isLt
  rw [PTE_ADDR_eq_zero] at haddr
  omega

theorem pageAddr_lt {va : Nat} (h : pageAddr va = true) : va < UTOP := by
  simp only [pageAddr, Bool.and_eq_true, decide_eq_true_eq] at h
  exact h.1

/-- The environment that `env_alloc` puts into a slot. -/
def Env.fresh (v : Env) (e : Fin NENV) (parent : BitVec 32) (q : Nat) : Env :=
  { v with
    pgdir := q
    id := nextEnvId v.id e
    parentId := parent
    type := .user
    status := .runnable
    runs := 0
    tf := newTrapframe
    pgfaultUpcall := 0
    ipcRecving := false }

theorem envAlloc_error_code {s t : System} {parent : BitVec 32} {r : Int}
    (h : s.envAlloc parent = (.error r, t)) : r = -E_NO_FREE_ENV ∨ r = -E_NO_MEM := by
  unfold System.envAlloc at h
  split at h
  · cases h
    exact .inl rfl
  · split at h
    · cases h
      exact .inr rfl
    · cases h

/-- A successful `env_alloc` takes the first free slot and the first free page. -/
theorem envAlloc_cases {s t : System} {e : Fin NENV} {parent : BitVec 32}
    (h : s.envAlloc parent = (.ok e, t)) : s.envFreeList = some e ∧ ∃ q,
      s.pmap.pageFreeList = some q ∧
      t = ⟨s.pmap.newDirectory q, Function.update s.envs e ((s.envs e).fresh e parent q),
        (s.envs e).link, s.curenv⟩ := by
  unfold System.envAlloc at h
  split at h
  · simp at h
  · next e' he' =>
    split at h
    · simp at h
    · next u hu =>
      obtain ⟨hok, rfl⟩ := Prod.mk.inj h
      obtain rfl : e' = e := Except.ok.inj hok
      unfold System.envSetupVm at hu
      cases hq : s.pmap.pageFreeList with
      | none =>
        rw [Pmap.pageAlloc_none hq] at hu
        simp at hu
      | some q =>
        rw [Pmap.pageAlloc_some hq] at hu
        obtain ⟨-, rfl⟩ := Prod.mk.inj hu
        refine ⟨he', q, rfl, ?_⟩
        simp only [System.setEnv, Function.update_self, Function.update_idem]
        rfl

/-- The same environments are in use, with the same page directories. -/
structure SameDirs (s t : System) : Prop where
  pgdir : ∀ i, (t.envs i).pgdir = (s.envs i).pgdir
  live : ∀ i, t.Live i ↔ s.Live i

namespace SameDirs

variable {s t u : System}

theorem trans (h : SameDirs s t) (h' : SameDirs t u) : SameDirs s u :=
  ⟨fun i => (h'.pgdir i).trans (h.pgdir i), fun i => (h'.live i).trans (h.live i)⟩

theorem pmap (s : System) (m : Pmap) : SameDirs s { s with pmap := m } :=
  ⟨fun _ => rfl, fun _ => Iff.rfl⟩

theorem update {e : Fin NENV} {v : Env} {m : Pmap} {l o : Option (Fin NENV)}
    (hg : v.pgdir = (s.envs e).pgdir) (hv : v.status ≠ .free ↔ s.Live e) :
    SameDirs s ⟨m, Function.update s.envs e v, l, o⟩ := by
  refine ⟨fun i => ?_, fun i => ?_⟩
  · by_cases h : i = e
    · subst h
      simpa using hg
    · simp [h]
  · by_cases h : i = e
    · subst h
      simpa [System.Live] using hv
    · simp [System.Live, h]

end SameDirs

theorem Rescheduled.sameDirs {s t : System} (h : Rescheduled s t) : SameDirs s t := by
  refine ⟨fun i => ?_, h.live⟩
  obtain ⟨st, n, he, -⟩ := h.env i
  rw [he]

/-- Coming back from a system call changes no page directory and no memory. -/
theorem sameDirs_resume {o : Outcome} {c : Fin NENV} {t : System} (h : o.resume c = some t) :
    ∃ u, o.state? = some u ∧ SameDirs u t ∧ t.pmap = u.pmap := by
  obtain ⟨u, hu, hsame | ⟨x, hsame⟩⟩ := rescheduled_resume h
  · exact ⟨u, hu, hsame.sameDirs, hsame.pmap⟩
  · have hset : SameDirs u (u.setEnv c ((u.envs c).setEax x)) := .update rfl Iff.rfl
    exact ⟨u, hu, hset.trans hsame.sameDirs, hsame.pmap⟩

end DamnOS.Kernel
