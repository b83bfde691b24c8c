import DamnOS.Kernel.Spaces

/-!
# What a mapping costs

`page_insert` takes a page from the free list when the page table is missing, and it gives one back
when it replaces the only mapping of a page.
-/

namespace DamnOS.Kernel

open DamnOS.Framework

def System.FreePages (s : System) (xs : List Nat) : Prop := Chain s.pmap.ppLink s.pmap.pageFreeList xs

namespace Pmap

variable {m m' : Pmap} {p q : Nat} {xs : List Nat}

private theorem pageDecref_chain (h : Chain m.ppLink m.pageFreeList xs) (hq : q ∉ xs) (hpos : 0 < m.ppRef q)
    (hle : m.ppRef q ≤ 65536) (hm : m.pageDecref q = some m') :
    Chain m'.ppLink m'.pageFreeList (if m.ppRef q = 1 then q :: xs else xs) := by
  have hval (n : Nat) : (m.setRef q n).ppRef q = n % 65536 := by
    simp only [setRef, Function.update_self]
  have hzero : (m.ppRef q + 65535) % 65536 = 0 ↔ m.ppRef q = 1 := by omega
  simp only [pageDecref, hval, hzero] at hm
  split
  · next hone =>
    rw [if_pos hone] at hm
    unfold pageFree at hm
    split_ifs at hm
    rw [← Option.some.inj hm]
    exact h.push hq
  · next hone =>
    rw [if_neg hone] at hm
    rw [← Option.some.inj hm]
    exact h

end Pmap

namespace Booked

variable {M : Nat → Prop} {s : System} {e i : Fin NENV} {n k w p perm : Nat} {m : Pmap} {xs : List Nat}

theorem pageInsert_taken (h : Booked M none s) (he : s.Live e)
    (h0 : s.pmap.mem (s.envs e).pgdir (PDX (n * PGSIZE)) = 0) (hxs : s.FreePages xs)
    (hm : s.pmap.pageInsert (s.envs e).pgdir p (n * PGSIZE) perm = some (true, m)) :
    ∃ q ys, xs = q :: ys ∧ System.FreePages { s with pmap := m } ys ∧
      ∀ d, m.mem (s.envs e).pgdir d = 0 ↔ s.pmap.mem (s.envs e).pgdir d = 0 ∧ d ≠ PDX (n * PGSIZE) := by
  cases hq : s.pmap.pageFreeList with
  | none =>
    rw [Pmap.pageInsert_full h0 hq] at hm
    simp at hm
  | some q =>
    rw [Pmap.pageInsert_create h0 hq] at hm
    obtain ⟨u, hu, hum⟩ := Option.map_eq_some_iff.mp hm
    obtain ⟨-, rfl⟩ := Prod.mk.inj hum
    obtain ⟨hM, -, hskel⟩ := h.head hq
    have hlt := h.pages.small q hM
    have hdir : (s.envs e).pgdir ≠ q := by
      rintro rfl
      exact hskel (Shaped.skeleton_dir he)
    have htable : (s.pmap.withTable (s.envs e).pgdir (n * PGSIZE) q).tableOf (s.envs e).pgdir (n * PGSIZE) = q :=
      Pmap.withTable_tableOf h0 hlt
    have hpde : (s.pmap.withTable (s.envs e).pgdir (n * PGSIZE) q).mem (s.envs e).pgdir (PDX (n * PGSIZE)) ≠ 0 := by
      rw [Pmap.withTable_pde h0]
      exact entry_ne_zero _ _
    have hempty : (s.pmap.withTable (s.envs e).pgdir (n * PGSIZE) q).mem q = fun _ => 0 :=
      Pmap.withTable_mem_table hdir.symm
    cases xs with
    | nil => exact absurd (hxs.symm.trans hq) (by simp)
    | cons x ys =>
      obtain rfl : x = q := Option.some.inj (hxs.1.symm.trans hq)
      refine ⟨x, ys, rfl, ?_, fun d => ?_⟩
      · -- the new table is empty, so nothing is replaced
        rcases Pmap.installPte_cases hpde hu with ⟨-, rfl⟩ | ⟨hw, -⟩
        · exact Chain.pop hxs
        · rw [htable, hempty] at hw
          exact absurd (show PTE_ADDR 0 = 0 by decide) hw
      · rw [Pmap.installPte_mem hpde hu, htable, Pmap.store_mem_page hdir]
        by_cases hd : d = PDX (n * PGSIZE)
        · rw [hd]
          exact iff_of_false hpde fun hc => hc.2 rfl
        · rw [Pmap.withTable_mem_pde hdir hd]
          exact (and_iff_left hd).symm

/-- With a page table, a page comes back when its only mapping is replaced. -/
theorem pageInsert_given (h : Booked M none s) (hslot : ∀ i, s.envFreeList = some i → ¬ s.Live i)
    (he : s.Live e) (hn : n < NUPAGE) (h0 : s.pmap.mem (s.envs e).pgdir (PDX (n * PGSIZE)) ≠ 0)
    (hp : s.view i k = some w) (hie : i ≠ e) (hxs : s.FreePages xs)
    (hm : s.pmap.pageInsert (s.envs e).pgdir (pageOf w) (n * PGSIZE) perm = some (true, m)) :
    (∃ ys, System.FreePages { s with pmap := m } ys ∧ ys.length = xs.length +
      if ∃ v ∈ s.view e n, references s.target (pageOf v) = 1 then 1 else 0) ∧
      m.mem (s.envs e).pgdir = s.pmap.mem (s.envs e).pgdir := by
  have hva := page_lt_UTOP hn
  have hsingle := (h.separate hslot).single e he
  rw [Pmap.pageInsert_found h0] at hm
  obtain ⟨u, hu, hum⟩ := Option.map_eq_some_iff.mp hm
  obtain ⟨-, rfl⟩ := Prod.mk.inj hum
  refine ⟨?_, by rw [Pmap.installPte_mem h0 hu, Pmap.store_mem_page (Pmap.tableOf_ne_dir hsingle hva h0)]⟩
  obtain ⟨hT, hproper, hslot⟩ := h.table he hva h0
  rw [target_eq_view he hn] at hslot
  rcases Pmap.installPte_cases h0 hu with ⟨hw, rfl⟩ | ⟨hw, v, hv, rfl⟩
  · have hw0 : s.pmap.mem (s.pmap.tableOf (s.envs e).pgdir (n * PGSIZE)) (PTX (n * PGSIZE)) = 0 := by
      by_contra hne
      exact (hproper.PTE_ADDR_ne_zero h.pages.zero).mpr hne hw
    rw [hw0, named_zero, Option.map_eq_none_iff] at hslot
    exact ⟨xs, hxs, by simp [hslot]⟩
  · obtain ⟨hold, hMold⟩ := hproper.named ((hproper.PTE_ADDR_ne_zero h.pages.zero).mp hw)
    rw [hold] at hslot
    obtain ⟨o, ho, hpage⟩ := Option.map_eq_some_iff.mp hslot
    rw [← hpage] at hv hMold
    obtain ⟨zs, hl⟩ := h.ledger
    obtain rfl : zs = xs := hl.chain.unique hxs
    obtain ⟨_, hself⟩ := target_of_view ho
    have hpos := references_pos hself
    have hcount := hl.count _ hMold
    have hbound := hl.bound _ hMold
    have hlisted : pageOf o ∉ zs := fun hmem => by
      have := ((hl.free _ hMold).mp hmem).1
      omega
    have hex : (∃ v ∈ s.view e n, references s.target (pageOf v) = 1) ↔ references s.target (pageOf o) = 1 := by
      simp [ho]
    simp only [hex]
    by_cases hsame : pageOf o = pageOf w
    · -- the page is mapped by another environment as well
      obtain ⟨_, hother⟩ := target_of_view hp
      have htwo := one_lt_references (hsame ▸ hself) hother fun heq => hie (Slot.pte.inj heq).1.symm
      rw [← hsame] at htwo hv
      rw [Pmap.incRef_pageDecref_self (by omega) (by omega) hv]
      exact ⟨zs, hxs, by rw [if_neg (by omega), Nat.add_zero]⟩
    · have hval : (s.pmap.incRef (pageOf w)).ppRef (pageOf o) = s.pmap.ppRef (pageOf o) := by
        simp only [Pmap.incRef, Pmap.setRef, Function.update_of_ne hsame]
      have hafter := Pmap.pageDecref_chain (m := s.pmap.incRef (pageOf w)) hxs hlisted (by omega) (by omega) hv
      refine ⟨_, hafter, ?_⟩
      rw [hval, hcount]
      split
      · exact List.length_cons
      · rfl

end Booked

end DamnOS.Kernel
