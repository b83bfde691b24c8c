import DamnOS.Kernel.Tables

/-!
# The kernel after boot

A small state of the kind that boot leaves, on which single runs are followed.
-/

namespace DamnOS.Kernel

/-- A slot that was never used; the slots from 2 on are linked in order. -/
def unusedEnv (i : Fin NENV) : Env where
  tf := .zero
  link := if h : i.val + 1 < NENV then some ⟨i.val + 1, h⟩ else none
  id := 0
  parentId := 0
  type := .user
  status := .free
  runs := 0
  pgdir := 0
  pgfaultUpcall := 0
  ipcRecving := false
  ipcDstva := 0
  ipcValue := 0
  ipcFrom := 0
  ipcPerm := 0

/-- The file server, blocked in `sys_ipc_recv` with a page to receive at `0x900000`. -/
def serverEnv : Env :=
  { unusedEnv 0 with
    tf := { newTrapframe with eflags := FL_IOPL_MASK }
    id := nextEnvId 0 0
    type := .fs
    status := .notRunnable
    pgdir := 301
    ipcRecving := true
    ipcDstva := 0x900000 }

/-- A program that maps page 304 writable and page 305 read-only. -/
def programEnv : Env :=
  { unusedEnv 1 with
    tf := { newTrapframe with eflags := 0 }
    id := nextEnvId 0 1
    status := .running
    pgdir := 302 }

/-- Page 300 is `kern_pgdir`, 301 and 302 are the page directories, and 303 is the program's page
table for the addresses from `0x800000` on. -/
def samplePmap : Pmap where
  mem p i :=
    if p = 301 ∧ i = PDX UVPT then entry 301 PTE_U
    else if p = 302 ∧ i = PDX UVPT then entry 302 PTE_U
    else if p = 302 ∧ i = 2 then entry 303 (PTE_W ||| PTE_U)
    else if p = 303 ∧ i = 0 then entry 304 (PTE_W ||| PTE_U)
    else if p = 303 ∧ i = 1 then entry 305 PTE_U
    else 0
  ppRef p := if 301 ≤ p ∧ p ≤ 305 then 1 else 0
  ppLink p := if 306 ≤ p ∧ p < 312 then some (p + 1) else none
  pageFreeList := some 306
  kernPgdir := 300

def sampleSystem : System where
  pmap := samplePmap
  envs i := if i = 0 then serverEnv else if i = 1 then programEnv else unusedEnv i
  envFreeList := some 2
  curenv := some 1

theorem samplePmap_pde {g d : Nat} (hg : g = 301 ∨ g = 302) (hd : d < NUPDE)
    (h0 : samplePmap.mem g d ≠ 0) : g = 302 ∧ d = 2 := by
  have hne : d ≠ PDX UVPT := by
    rintro rfl
    revert hd
    decide
  rcases hg with rfl | rfl
  · simp [samplePmap, hne] at h0
  · by_cases h2 : d = 2
    · exact ⟨rfl, h2⟩
    · simp [samplePmap, hne, h2] at h0

theorem samplePmap_pte {t : Nat} (h0 : samplePmap.mem 303 t ≠ 0) : t = 0 ∨ t = 1 := by
  by_contra ht
  rw [not_or] at ht
  simp [samplePmap, ht.1, ht.2] at h0

theorem sampleSystem_live {i : Fin NENV} (h : sampleSystem.Live i) : i = 0 ∨ i = 1 := by
  by_contra hi
  rw [not_or] at hi
  exact h (by simp [sampleSystem, hi.1, hi.2, unusedEnv])

theorem sampleSystem_mapping {i : Fin NENV} {va w : Nat} (hi : sampleSystem.Live i) (hva : va < UTOP)
    (h : sampleSystem.pmap.mapping (sampleSystem.envs i).pgdir va = some w) :
    w = entry 304 (PTE_W ||| PTE_U) ∨ w = entry 305 PTE_U := by
  obtain ⟨hpde, hword, hpte⟩ := Pmap.mapping_eq_some.mp h
  have hdir : (sampleSystem.envs i).pgdir = 301 ∨ (sampleSystem.envs i).pgdir = 302 := by
    obtain rfl | rfl := sampleSystem_live hi
    · exact .inl rfl
    · exact .inr rfl
  generalize (sampleSystem.envs i).pgdir = g at hdir hpde hword
  obtain ⟨rfl, hd⟩ := samplePmap_pde hdir (PDX_lt_of_lt_UTOP hva) fun h0 => by
    simp [sampleSystem, h0] at hpde
  have htable : sampleSystem.pmap.tableOf 302 va = 303 := by
    rw [Pmap.tableOf, hd]
    decide
  rw [htable] at hword
  have h0 : samplePmap.mem 303 (PTX va) ≠ 0 := by
    intro h0
    rw [← hword] at hpte
    simp [sampleSystem, h0] at hpte
  rcases samplePmap_pte h0 with ht | ht
  · exact .inl (by rw [← hword, ht]; decide)
  · exact .inr (by rw [← hword, ht]; decide)

/-- A machine before the first environment: a few pages are free, and no slot is in use. -/
def bareSystem : System where
  pmap := { samplePmap with mem := fun _ _ => 0, ppRef := fun _ => 0 }
  envs := unusedEnv
  envFreeList := none
  curenv := none

end DamnOS.Kernel
