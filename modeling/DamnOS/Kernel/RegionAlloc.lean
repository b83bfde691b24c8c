import DamnOS.Kernel.Spaces
import DamnOS.Kernel.Window

/-!
# The pages of a program

`region_alloc` rounds neither its address nor its length, since it drops the results of `ROUNDDOWN` and
`ROUNDUP`.  It maps as many pages as the length alone asks for, from the page of the address on.
-/

namespace DamnOS.Kernel

open DamnOS.Framework

namespace Pmap

variable {m u v w : Pmap} {pgdir p va i perm : Nat}

/-- The page of `va` is mapped with `PTE_P | PTE_W | PTE_U`. -/
def MappedPWU (m : Pmap) (pgdir va : Nat) : Prop :=
  ∃ w, m.mapping pgdir va = some w ∧ w &&& (PTE_P ||| PTE_W ||| PTE_U) = PTE_P ||| PTE_W ||| PTE_U

/-- In each round of `region_alloc` there is a page to map, and one for the page table if that is missing. -/
def EnoughMemory (m : Pmap) (pgdir va len : Nat) : Prop :=
  ∀ i < rounds len, ∀ u, (List.range i).foldlM (regionAllocPage pgdir va) m = some u →
    ∃ p v w, u.pageAlloc false = (some p, v) ∧
      v.pageInsert pgdir p (va + i * PGSIZE) (PTE_P ||| PTE_W ||| PTE_U) = some (true, w)

private theorem pageInsert_page (m : Pmap) (pgdir p va perm : Nat) :
    m.pageInsert pgdir p va perm = m.pageInsert pgdir p (va / PGSIZE * PGSIZE) perm := by
  have hd : PDX (va / PGSIZE * PGSIZE) = PDX va := by
    simp only [PDX_eq, PGSIZE]
    omega
  have ht : PTX (va / PGSIZE * PGSIZE) = PTX va := by
    simp only [PTX_eq, PGSIZE]
    omega
  unfold pageInsert installPte pageRemove pageLookup findPte pgdirWalk
  simp only [hd, ht]

private theorem regionAllocPage_eq (halloc : u.pageAlloc false = (some p, v))
    (hinsert : v.pageInsert pgdir p (va + i * PGSIZE) (PTE_P ||| PTE_W ||| PTE_U) = some (true, w)) :
    regionAllocPage pgdir va u i = some w := by
  simp [regionAllocPage, halloc, hinsert]

end Pmap

/-- `n` pages from the page of `va` on are new in the address space of `e`; the others are as before. -/
structure RegionMapped (s t : System) (e : Fin NENV) (va n : Nat) : Prop where
  inside : ∀ k, va / PGSIZE ≤ k → k < va / PGSIZE + n →
    ∃ p < 2 ^ 20, t.view e k = some (entry p (PTE_P ||| PTE_W ||| PTE_U))
  outside : ∀ k, k < va / PGSIZE ∨ va / PGSIZE + n ≤ k → t.view e k = s.view e k

namespace Accounted

variable {M : Nat → Prop} {s : System} {e : Fin NENV} {va n : Nat}

theorem regionAllocPage {p : Nat} {v w : Pmap} (h : Accounted M s) (he : s.Live e)
    (hva : va + n * PGSIZE < UTOP) (halloc : s.pmap.pageAlloc false = (some p, v))
    (hinsert : v.pageInsert (s.envs e).pgdir p (va + n * PGSIZE) (PTE_P ||| PTE_W ||| PTE_U) = some (true, w)) :
    p < 2 ^ 20 ∧ Remaps M { s with pmap := v } { s with pmap := w } e (va / PGSIZE + n)
      (some (entry p (PTE_P ||| PTE_W ||| PTE_U))) ∧ ({ s with pmap := v } : System).view = s.view := by
  have hq : s.pmap.pageFreeList = some p := by
    unfold Pmap.pageAlloc at halloc
    split at halloc
    · simp at halloc
    · next q hq => simpa [hq] using congrArg Prod.fst halloc
  obtain ⟨hM, h0, htarget, hbooked⟩ := h.toBooked.hold hq
  rw [halloc] at htarget hbooked
  have hdiv : (va + n * PGSIZE) / PGSIZE = va / PGSIZE + n := by
    rw [PGSIZE]
    omega
  have hn := div_lt_NUPAGE hva
  rw [Pmap.pageInsert_page, hdiv] at hinsert
  rw [hdiv] at hn
  have hmem : v.mem = s.pmap.mem := by
    have hsnd := congrArg (fun x => x.2.mem) halloc
    simpa [Pmap.pageAlloc, hq] using hsnd.symm
  obtain ⟨xs, hxs⟩ := h.table
  refine ⟨h.pages.small p hM, ?_, ?_⟩
  · refine hbooked.remaps_pageInsert ⟨xs, (SameTable.pmap s v).envTable hxs⟩ he hn hM (.inr rfl) (by decide)
      (.inl ?_) hinsert
    rw [htarget, h0]
    decide
  · funext i k
    unfold System.view Pmap.mapping Pmap.tableOf
    rw [hmem]
    rfl

private theorem regionAlloc_rounds (h : Accounted M s) (he : s.Live e) {len : Nat} (hva : va + len ≤ UTOP)
    (hmem : s.pmap.EnoughMemory (s.envs e).pgdir va len) (hn : n ≤ Pmap.rounds len) :
    ∃ m, (List.range n).foldlM (Pmap.regionAllocPage (s.envs e).pgdir va) s.pmap = some m ∧
      Accounted M { s with pmap := m } ∧ RegionMapped s { s with pmap := m } e va n := by
  induction n with
  | zero => exact ⟨s.pmap, rfl, h, fun k hlo hhi => absurd hhi (by omega), fun _ _ => rfl⟩
  | succ n ih =>
    obtain ⟨u, hu, hacc, hmapped⟩ := ih (by omega)
    obtain ⟨p, v, w, halloc, hinsert⟩ := hmem n hn u hu
    have hlt : va + n * PGSIZE < UTOP := by
      simp only [Pmap.rounds, PGSIZE] at hn ⊢
      omega
    obtain ⟨hp, hremaps, hview⟩ := hacc.regionAllocPage he hlt halloc hinsert
    refine ⟨w, ?_, hremaps.accounted, ?_, ?_⟩
    · rw [List.range_succ, List.foldlM_append, hu]
      simp [Pmap.regionAllocPage_eq halloc hinsert]
    · intro k hlo hhi
      rw [hremaps.view, hview]
      by_cases hk : k = va / PGSIZE + n
      · rw [if_pos ⟨rfl, hk⟩]
        exact ⟨p, hp, rfl⟩
      · rw [if_neg fun hc => hk hc.2]
        exact hmapped.inside k hlo (by omega)
    · intro k hk
      rw [hremaps.view, hview, if_neg (by omega)]
      exact hmapped.outside k (by omega)

end Accounted

private theorem mappedPWU_iff_view {s : System} {e : Fin NENV} (he : s.Live e) {va : Nat} (hva : va < UTOP) :
    s.pmap.MappedPWU (s.envs e).pgdir va ↔ ∃ w, s.view e (va / PGSIZE) = some w ∧
      w &&& (PTE_P ||| PTE_W ||| PTE_U) = PTE_P ||| PTE_W ||| PTE_U := by
  rw [view_div he hva, Pmap.MappedPWU]

/-- The bytes of a program's region are mapped exactly when the region has as many pages as its length alone
asks for, or the page that `region_alloc` leaves out was mapped before. -/
theorem RegionMapped.covers_iff {s : System} {e : Fin NENV} {va len : Nat} {m : Pmap} (he : s.Live e)
    (hva : va + len ≤ UTOP) (h : RegionMapped s { s with pmap := m } e va (Pmap.rounds len)) :
    (∀ a, va ≤ a → a < va + len → m.MappedPWU (s.envs e).pgdir a) ↔
      len = 0 ∨ va % PGSIZE + (len - 1) % PGSIZE < PGSIZE ∨
        s.pmap.MappedPWU (s.envs e).pgdir (va + len - 1) := by
  have he' : ({ s with pmap := m } : System).Live e := he
  have hnew (a : Nat) (ha : a < va + len) : m.MappedPWU (s.envs e).pgdir a ↔
      ∃ w, ({ s with pmap := m } : System).view e (a / 4096) = some w ∧
        w &&& (PTE_P ||| PTE_W ||| PTE_U) = PTE_P ||| PTE_W ||| PTE_U :=
    mappedPWU_iff_view he' (lt_of_lt_of_le ha hva)
  have hrounds : Pmap.rounds len = (len + 4095) / 4096 := rfl
  rw [PGSIZE]
  have hin (a : Nat) (hlo : va ≤ a) (ha : a < va + len) (hlt : a / 4096 < va / 4096 + Pmap.rounds len) :
      m.MappedPWU (s.envs e).pgdir a := by
    obtain ⟨p, -, hp⟩ := h.inside (a / 4096) (Nat.div_le_div_right hlo) hlt
    refine (hnew a ha).mpr ⟨_, hp, ?_⟩
    rw [entry_and (by decide)]
    decide
  have hlast (hpos : len ≠ 0) (hover : 4096 ≤ va % 4096 + (len - 1) % 4096) :
      m.MappedPWU (s.envs e).pgdir (va + len - 1) ↔ s.pmap.MappedPWU (s.envs e).pgdir (va + len - 1) := by
    have hpast : va / 4096 + Pmap.rounds len ≤ (va + len - 1) / 4096 := by omega
    rw [hnew _ (by omega), mappedPWU_iff_view he (by omega), h.outside _ (.inr hpast)]
    rfl
  constructor
  · intro hall
    by_cases hpos : len = 0
    · exact .inl hpos
    · by_cases hover : va % 4096 + (len - 1) % 4096 < 4096
      · exact .inr (.inl hover)
      · exact .inr (.inr ((hlast hpos (by omega)).mp (hall _ (by omega) (by omega))))
  · intro hcond a hlo ha
    by_cases hlt : a / 4096 < va / 4096 + Pmap.rounds len
    · exact hin a hlo ha hlt
    · -- the page that is left out is that of the last byte
      have hpage : a / 4096 = (va + len - 1) / 4096 := by omega
      have hover : 4096 ≤ va % 4096 + (len - 1) % 4096 := by omega
      have hmapped := (hlast (by omega) hover).mpr ((hcond.resolve_left (by omega)).resolve_left (by omega))
      rw [hnew _ (by omega)] at hmapped ⊢
      rwa [hpage]

/-- With memory enough, `region_alloc` covers its range unless the offset of the range and its length add up to
one page more than the length alone. -/
theorem region_alloc_covers_iff {M : Nat → Prop} {s : System} {e : Fin NENV} {va len : Nat} (h : Accounted M s)
    (he : s.Live e) (hva : va + len ≤ UTOP) (hmem : s.pmap.EnoughMemory (s.envs e).pgdir va len) :
    (∃ m, s.pmap.regionAlloc (s.envs e).pgdir va len = some m ∧
      ∀ a, va ≤ a → a < va + len → m.MappedPWU (s.envs e).pgdir a) ↔
    len = 0 ∨ va % PGSIZE + (len - 1) % PGSIZE < PGSIZE ∨
      s.pmap.MappedPWU (s.envs e).pgdir (va + len - 1) := by
  obtain ⟨m, hm, -, hmapped⟩ := h.regionAlloc_rounds he hva hmem le_rfl
  rw [← hmapped.covers_iff he hva]
  constructor
  · rintro ⟨m', hm', hall⟩
    obtain rfl : m = m' := Option.some.inj (hm.symm.trans hm')
    exact hall
  · intro hall
    exact ⟨m, hm, hall⟩

private theorem sampleSystem_enough {va len : Nat} (hva : va = 0x800020) (hlen : len = 0xFE0 ∨ len = 0x1000) :
    sampleSystem.pmap.EnoughMemory (sampleSystem.envs 0).pgdir va len := by
  subst hva
  have hrounds : Pmap.rounds len = 1 := by rcases hlen with rfl | rfl <;> rfl
  intro i hi u hu
  obtain rfl : i = 0 := by omega
  obtain rfl : samplePmap = u := Option.some.inj hu
  exact ⟨306, _, _, rfl, rfl⟩

/-- The text of a program at `0x800020` that ends with its page. -/
theorem region_alloc_covers_page : ∃ m,
    sampleSystem.pmap.regionAlloc (sampleSystem.envs 0).pgdir 0x800020 0xFE0 = some m ∧
      ∀ a, 0x800020 ≤ a → a < 0x800020 + 0xFE0 → m.MappedPWU (sampleSystem.envs 0).pgdir a :=
  (region_alloc_covers_iff sampleSystem_accounted (e := 0) (by decide) (by decide)
    (sampleSystem_enough rfl (.inl rfl))).mpr (.inr (.inl (by decide)))

/-- A program of one page at `0x800020` lacks its last bytes. -/
theorem region_alloc_leaves_page : ¬ ∀ (M : Nat → Prop) (s : System) (e : Fin NENV) (va len : Nat),
    Accounted M s → s.Live e → va + len ≤ UTOP → s.pmap.EnoughMemory (s.envs e).pgdir va len →
      ∃ m, s.pmap.regionAlloc (s.envs e).pgdir va len = some m ∧
        ∀ a, va ≤ a → a < va + len → m.MappedPWU (s.envs e).pgdir a := by
  intro hall
  obtain ⟨m, hm, hcover⟩ := hall SamplePage sampleSystem 0 0x800020 0x1000 sampleSystem_accounted (by decide)
    (by decide) (sampleSystem_enough rfl (.inr rfl))
  obtain ⟨w, hw, -⟩ := hcover 0x80101F (by decide) (by decide)
  have hnone : (sampleSystem.pmap.regionAlloc (sampleSystem.envs 0).pgdir 0x800020 0x1000).map
      (fun m => m.mapping (sampleSystem.envs 0).pgdir 0x80101F) = some none := rfl
  rw [hm, Option.map_some, hw] at hnone
  simp at hnone

end DamnOS.Kernel
