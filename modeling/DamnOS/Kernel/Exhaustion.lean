import DamnOS.Kernel.Boot

/-!
# `sys_page_alloc` without memory

`sys_page_alloc` takes a page and may need another one for a page table.  Both failures end in the
same branch, which gives the page back.
-/

namespace DamnOS.Kernel

namespace Pmap

/-- There is no page for `va`, or none for the page table that it needs. -/
def Exhausted (m : Pmap) (pgdir va : Nat) : Prop :=
  m.pageFreeList = none ∨
    (m.mem pgdir (PDX va) = 0 ∧ ∃ p, m.pageFreeList = some p ∧ m.ppLink p = none)

/-- Counts, links and the head of the free list are the same, and with them the list. -/
structure SameBooks (m m' : Pmap) : Prop where
  ppRef : m'.ppRef = m.ppRef
  ppLink : m'.ppLink = m.ppLink
  pageFreeList : m'.pageFreeList = m.pageFreeList

/-- Taking the only page of the list and giving it back clears the page. -/
theorem pageFree_taken {m : Pmap} {p : Nat} (hp : m.pageFreeList = some p) (hl : m.ppLink p = none)
    (h0 : m.ppRef p = 0) : (m.taken p).pageFree p = some (m.zeroPage p) := by
  have hlinks : Function.update m.ppLink p none = m.ppLink := by
    rw [← hl]
    exact Function.update_eq_self ..
  have href : (m.taken p).ppRef p = 0 := h0
  have hlink : (m.taken p).ppLink p = none := by simp [taken, zeroPage]
  have hhead : (m.taken p).pageFreeList = none := hl
  unfold pageFree
  rw [if_neg (by simp [href]), if_neg (by simp [hlink]), hhead]
  simp only [taken, zeroPage, hlinks, hp]

/-- The page is free for use: it is not counted, and clearing it changes no address space. -/
def Spare (m : Pmap) (p : Nat) (dirs : Nat → Prop) : Prop :=
  m.ppRef p = 0 ∧ ∀ g va, dirs g → (m.zeroPage p).mapping g va = m.mapping g va

end Pmap

namespace System

/-- The page directories of the environments in use. -/
def Directory (s : System) (g : Nat) : Prop := ∃ i, s.Live i ∧ (s.envs i).pgdir = g

/-- The call reaches `page_free` without a page. -/
def FreesNull (s : System) (c : Fin NENV) (envid va perm : BitVec 32) : Prop :=
  (∃ e, s.envid2env c envid true = some e) ∧ pageAddr va.toNat = true ∧ permValid perm.toNat = true ∧
    (s.pmap.pageAlloc true).1 = none

/-- Without memory the call fails with `-E_NO_MEM`, leaves the books and all mappings as they are, and
frees nothing that it did not take. -/
def AllocAtomic (s : System) (c e : Fin NENV) (envid va perm : BitVec 32) : Prop :=
  s.pmap.Exhausted (s.envs e).pgdir va.toNat →
    (∃ t, s.sysPageAlloc c envid va perm = .returns (-E_NO_MEM) t ∧ t.envs = s.envs ∧
      Pmap.SameBooks s.pmap t.pmap ∧
        ∀ g va, s.Directory g → t.pmap.mapping g va = s.pmap.mapping g va) ∧
    ¬ s.FreesNull c envid va perm

section Exhausted

variable {s : System} {c e : Fin NENV} {envid va perm : BitVec 32} {p : Nat}
  (he : s.envid2env c envid true = some e) (hva : pageAddr va.toNat = true)
  (hperm : permValid perm.toNat = true)

include he hva hperm

theorem sysPageAlloc_short (hp : s.pmap.pageFreeList = some p) (hl : s.pmap.ppLink p = none)
    (hpde : s.pmap.mem (s.envs e).pgdir (PDX va.toNat) = 0) :
    s.sysPageAlloc c envid va perm =
      ((s.pmap.taken p).pageFree p).elim .panics fun m => .returns (-E_NO_MEM) { s with pmap := m } := by
  have hpde' : (s.pmap.taken p).mem (s.envs e).pgdir (PDX va.toNat) = 0 := by
    by_cases hdir : (s.envs e).pgdir = p
    · rw [hdir, Pmap.taken_mem_self]
    · rw [Pmap.taken_mem_page hdir, hpde]
  have hempty : (s.pmap.taken p).pageFreeList = none := hl
  simp only [sysPageAlloc, he, hva, hperm, Pmap.pageAlloc_some hp, Pmap.pageInsert_full hpde' hempty]
  cases (s.pmap.taken p).pageFree p with
  | none => rfl
  | some m => rfl

end Exhausted

end System

/-- `sys_page_alloc` is atomic under exhaustion if and only if the list has a page, and that page is
free for use when the page table is missing and there is no second page. -/
theorem pageAlloc_atomic_iff (s : System) (c e : Fin NENV) (envid va perm : BitVec 32)
    (he : s.envid2env c envid true = some e) (hva : pageAddr va.toNat = true)
    (hperm : permValid perm.toNat = true) : s.AllocAtomic c e envid va perm ↔
    ∃ p, s.pmap.pageFreeList = some p ∧
      (s.pmap.mem (s.envs e).pgdir (PDX va.toNat) = 0 → s.pmap.ppLink p = none →
        s.pmap.Spare p s.Directory) := by
  constructor
  · intro hatomic
    cases hp : s.pmap.pageFreeList with
    | none =>
      have hnull : s.FreesNull c envid va perm :=
        ⟨⟨e, he⟩, hva, hperm, by rw [Pmap.pageAlloc_none hp]⟩
      exact absurd hnull (hatomic (.inl hp)).2
    | some p =>
      refine ⟨p, rfl, fun hpde hl => ?_⟩
      obtain ⟨⟨t, hexec, -, -, hmaps⟩, -⟩ := hatomic (.inr ⟨hpde, p, hp, hl⟩)
      rw [System.sysPageAlloc_short he hva hperm hp hl hpde] at hexec
      by_cases h0 : s.pmap.ppRef p = 0
      · rw [Pmap.pageFree_taken hp hl h0] at hexec
        obtain ⟨-, rfl⟩ := Outcome.returns.inj hexec
        exact ⟨h0, hmaps⟩
      · have href : (s.pmap.taken p).ppRef p ≠ 0 := h0
        simp [Pmap.pageFree, href] at hexec
  · rintro ⟨p, hp, hspare⟩ hex
    rcases hex with hnone | ⟨hpde, q, hq, hl⟩
    · rw [hp] at hnone
      cases hnone
    · obtain rfl : p = q := Option.some.inj (hp.symm.trans hq)
      obtain ⟨h0, hmaps⟩ := hspare hpde hl
      refine ⟨⟨{ s with pmap := s.pmap.zeroPage p }, ?_, rfl, ⟨rfl, rfl, rfl⟩, hmaps⟩, ?_⟩
      · rw [System.sysPageAlloc_short he hva hperm hp hl hpde, Pmap.pageFree_taken hp hl h0]
        rfl
      · rintro ⟨-, -, -, hnone⟩
        simp [Pmap.pageAlloc_some hp] at hnone

/-- The sample state with page 306 as the only free page. -/
def lastPage : System :=
  { sampleSystem with pmap := { samplePmap with ppLink := fun _ => none } }

private theorem lastPage_spare : lastPage.pmap.Spare 306 lastPage.Directory := by
  have hmem : (lastPage.pmap.zeroPage 306).mem = lastPage.pmap.mem := by
    funext p i
    by_cases hp : p = 306
    · subst hp
      simp [Pmap.zeroPage, lastPage, samplePmap]
    · simp [Pmap.zeroPage, hp]
  exact ⟨rfl, fun g va _ => Pmap.mapping_of_mem hmem⟩

theorem pageAlloc_atomic_lastPage :
    lastPage.pmap.Exhausted (lastPage.envs 1).pgdir (0x400000 : BitVec 32).toNat ∧
      lastPage.AllocAtomic 1 1 0 0x400000 7 :=
  ⟨.inr ⟨by decide, 306, rfl, rfl⟩,
    (pageAlloc_atomic_iff lastPage 1 1 0 0x400000 7 rfl (by decide) (by decide)).mpr
      ⟨306, rfl, fun _ _ => lastPage_spare⟩⟩

/-- Without any free page the kernel takes the words at address 0 for a `struct PageInfo`; the program
maps nothing there. -/
theorem pageAlloc_frees_null : ¬ ∀ (s : System) (c e : Fin NENV) (envid va perm : BitVec 32),
    s.envid2env c envid true = some e → pageAddr va.toNat = true → permValid perm.toNat = true →
      s.AllocAtomic c e envid va perm := by
  intro hall
  obtain ⟨⟨t, hexec, -⟩, -⟩ := hall
    { sampleSystem with pmap := { samplePmap with pageFreeList := none } } 1 1 0 0x400000 7 rfl
    (by decide) (by decide) (.inl rfl)
  have hpanic : ({ sampleSystem with pmap := { samplePmap with pageFreeList := none } } :
      System).sysPageAlloc 1 0 0x400000 7 = .panics := rfl
  rw [hpanic] at hexec
  cases hexec

end DamnOS.Kernel
