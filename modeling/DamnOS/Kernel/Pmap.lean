import DamnOS.Kernel.Words

/-!
# Physical pages and page tables

The functions of `pmap.c`.  A page is named by its number, which is also the index of its
`struct PageInfo`; physical memory is read and written in words of 32 bits.  `none` stands for a
panic of the kernel.
-/

namespace DamnOS.Kernel

/-- The state of `pmap.c`: physical memory, the array `pages`, `page_free_list`, and the page of
`kern_pgdir`. -/
structure Pmap where
  mem : Nat → Nat → Nat
  ppRef : Nat → Nat
  ppLink : Nat → Option Nat
  pageFreeList : Option Nat
  kernPgdir : Nat

namespace Pmap

def store (m : Pmap) (p i w : Nat) : Pmap :=
  { m with mem := Function.update m.mem p (Function.update (m.mem p) i w) }

/-- `pp_ref` is a counter of sixteen bits. -/
def setRef (m : Pmap) (p n : Nat) : Pmap :=
  { m with ppRef := Function.update m.ppRef p (n % 65536) }

def incRef (m : Pmap) (p : Nat) : Pmap := m.setRef p (m.ppRef p + 1)

def zeroPage (m : Pmap) (p : Nat) : Pmap :=
  { m with mem := Function.update m.mem p fun _ => 0 }

/-- One round of the loop in `page_init`; `kernEnd` is the first page that `boot_alloc` has not
handed out. -/
def pageInitStep (basemem kernEnd : Nat) (m : Pmap) (i : Nat) : Pmap :=
  if i = 0 ∨ i = PGNUM basemem then
    { m.setRef i 1 with ppLink := Function.update m.ppLink i none }
  else if i < basemem then
    { m.setRef i 0 with ppLink := Function.update m.ppLink i m.pageFreeList, pageFreeList := some i }
  else if i ≤ 0x100000 / PGSIZE ∨ i < kernEnd then
    { m.incRef i with ppLink := Function.update m.ppLink i none }
  else
    { m.setRef i 0 with ppLink := Function.update m.ppLink i m.pageFreeList, pageFreeList := some i }

/-- `page_init` counts down and stops before page 0. -/
def pageInit (m : Pmap) (npages basemem kernEnd : Nat) : Pmap :=
  ((List.range (npages - 1)).map (· + 1)).reverse.foldl (pageInitStep basemem kernEnd) m

def pageAlloc (m : Pmap) (zero : Bool) : Option Nat × Pmap :=
  match m.pageFreeList with
  | none => (none, m)
  | some p =>
    let m := { m with pageFreeList := m.ppLink p, ppLink := Function.update m.ppLink p none }
    (some p, if zero then m.zeroPage p else m)

/-- `page_free` panics on a page that is in use or linked. -/
def pageFree (m : Pmap) (p : Nat) : Option Pmap :=
  if m.ppRef p ≠ 0 then none
  else if m.ppLink p ≠ none then none
  else some { m with ppLink := Function.update m.ppLink p m.pageFreeList, pageFreeList := some p }

def pageDecref (m : Pmap) (p : Nat) : Option Pmap :=
  let m := m.setRef p (m.ppRef p + 65535)
  if m.ppRef p = 0 then m.pageFree p else some m

/-- The entry for `va` as a page and a word in it. -/
def pgdirWalk (m : Pmap) (pgdir va : Nat) (create : Bool) : Option (Nat × Nat) × Pmap :=
  if m.mem pgdir (PDX va) = 0 then
    if create then
      match m.pageAlloc true with
      | (none, m) => (none, m)
      | (some p, m) =>
        let m := m.incRef p
        let m := m.store pgdir (PDX va) (m.mem pgdir (PDX va) ||| page2pa p)
        let m := m.store pgdir (PDX va) (m.mem pgdir (PDX va) ||| PTE_P ||| PTE_W ||| PTE_U)
        (some (pa2page (PTE_ADDR (m.mem pgdir (PDX va))), PTX va), m)
    else (none, m)
  else (some (pa2page (PTE_ADDR (m.mem pgdir (PDX va))), PTX va), m)

/-- `pgdir_walk` without `create` changes nothing. -/
def findPte (m : Pmap) (pgdir va : Nat) : Option (Nat × Nat) := (m.pgdirWalk pgdir va false).1

/-- The page that the entry for `va` names, whether or not the entry is present, and the place of
the entry. -/
def pageLookup (m : Pmap) (pgdir va : Nat) : Option (Nat × Nat × Nat) :=
  match m.findPte pgdir va with
  | none => none
  | some (pt, i) => some (pa2page (PTE_ADDR (m.mem pt i)), pt, i)

def pageRemove (m : Pmap) (pgdir va : Nat) : Option Pmap :=
  match m.pageLookup pgdir va with
  | none => some m
  | some (p, pt, i) => (m.pageDecref p).map fun m => m.store pt i 0

/-- The part of `page_insert` after the walk found the entry at `pt` and `i`. -/
def installPte (m : Pmap) (pgdir p va perm pt i : Nat) : Option Pmap :=
  let m := m.incRef p
  let removed := if PTE_ADDR (m.mem pt i) ≠ 0 then m.pageRemove pgdir va else some m
  removed.map fun m => m.store pt i (entry p perm)

/-- The result is `false` for `-E_NO_MEM`. -/
def pageInsert (m : Pmap) (pgdir p va perm : Nat) : Option (Bool × Pmap) :=
  match m.pgdirWalk pgdir va true with
  | (none, m) => some (false, m)
  | (some (pt, i), m) => (m.installPte pgdir p va perm pt i).map fun m => (true, m)

/-- One round of the loop in `boot_map_region`; the kernel faults when no page table is left. -/
def bootMapPage (pgdir va pa perm : Nat) (m : Pmap) (i : Nat) : Option Pmap :=
  match m.pgdirWalk pgdir (va + i * PGSIZE) true with
  | (none, _) => none
  | (some (pt, t), m) => some (m.store pt t (PTE_ADDR (pa + i * PGSIZE) ||| perm ||| PTE_P))

def bootMapRegion (m : Pmap) (pgdir va size pa perm : Nat) : Option Pmap :=
  (List.range ((size + PGSIZE - 1) / PGSIZE)).foldlM (bootMapPage pgdir va pa perm) m

/-- The page table that a directory entry names. -/
def tableOf (m : Pmap) (pgdir va : Nat) : Nat := pa2page (PTE_ADDR (m.mem pgdir (PDX va)))

/-- The state after a page was taken from the free list and cleared. -/
def taken (m : Pmap) (p : Nat) : Pmap :=
  ({ m with pageFreeList := m.ppLink p, ppLink := Function.update m.ppLink p none } : Pmap).zeroPage p

/-- The state after `pgdir_walk` took `p` for the missing page table. -/
def withTable (m : Pmap) (pgdir va p : Nat) : Pmap :=
  let m := (m.taken p).incRef p
  let m := m.store pgdir (PDX va) (m.mem pgdir (PDX va) ||| page2pa p)
  m.store pgdir (PDX va) (m.mem pgdir (PDX va) ||| PTE_P ||| PTE_W ||| PTE_U)

section Walk

variable {m : Pmap} {pgdir va : Nat}

theorem pageAlloc_none (h : m.pageFreeList = none) (zero : Bool) : m.pageAlloc zero = (none, m) := by
  simp [pageAlloc, h]

theorem pageAlloc_some {p : Nat} (h : m.pageFreeList = some p) :
    m.pageAlloc true = (some p, m.taken p) := by
  simp [pageAlloc, h, taken]

theorem pgdirWalk_found (h : m.mem pgdir (PDX va) ≠ 0) (create : Bool) :
    m.pgdirWalk pgdir va create = (some (m.tableOf pgdir va, PTX va), m) := by
  simp [pgdirWalk, h, tableOf]

private theorem pgdirWalk_missing (h : m.mem pgdir (PDX va) = 0) :
    m.pgdirWalk pgdir va false = (none, m) := by
  simp [pgdirWalk, h]

theorem pgdirWalk_full (h : m.mem pgdir (PDX va) = 0) (hl : m.pageFreeList = none) :
    m.pgdirWalk pgdir va true = (none, m) := by
  simp [pgdirWalk, h, pageAlloc_none hl]

theorem pgdirWalk_create {p : Nat} (h : m.mem pgdir (PDX va) = 0) (hl : m.pageFreeList = some p) :
    m.pgdirWalk pgdir va true
      = (some ((m.withTable pgdir va p).tableOf pgdir va, PTX va), m.withTable pgdir va p) := by
  simp [pgdirWalk, h, pageAlloc_some hl, withTable, tableOf]

theorem pageLookup_found (h : m.mem pgdir (PDX va) ≠ 0) :
    m.pageLookup pgdir va = some (pa2page (PTE_ADDR (m.mem (m.tableOf pgdir va) (PTX va))),
      m.tableOf pgdir va, PTX va) := by
  simp [pageLookup, findPte, pgdirWalk_found h]

theorem pageLookup_missing (h : m.mem pgdir (PDX va) = 0) : m.pageLookup pgdir va = none := by
  simp [pageLookup, findPte, pgdirWalk_missing h]

variable {p perm : Nat}

theorem pageInsert_found (h : m.mem pgdir (PDX va) ≠ 0) :
    m.pageInsert pgdir p va perm
      = (m.installPte pgdir p va perm (m.tableOf pgdir va) (PTX va)).map fun m => (true, m) := by
  simp [pageInsert, pgdirWalk_found h]

theorem pageInsert_full (h : m.mem pgdir (PDX va) = 0) (hl : m.pageFreeList = none) :
    m.pageInsert pgdir p va perm = some (false, m) := by
  simp [pageInsert, pgdirWalk_full h hl]

theorem pageInsert_create {q : Nat} (h : m.mem pgdir (PDX va) = 0) (hl : m.pageFreeList = some q) :
    m.pageInsert pgdir p va perm
      = ((m.withTable pgdir va q).installPte pgdir p va perm
          ((m.withTable pgdir va q).tableOf pgdir va) (PTX va)).map fun m => (true, m) := by
  simp [pageInsert, pgdirWalk_create h hl]

/-- `page_insert` fails exactly when it needs a page table and no page is free; then it changes
nothing. -/
theorem pageInsert_cases {b : Bool} {m' : Pmap} (h : m.pageInsert pgdir p va perm = some (b, m')) :
    (b = false ∧ m' = m ∧ m.mem pgdir (PDX va) = 0 ∧ m.pageFreeList = none) ∨
      (b = true ∧ (m.mem pgdir (PDX va) ≠ 0 ∨ m.pageFreeList ≠ none)) := by
  by_cases h0 : m.mem pgdir (PDX va) = 0
  · cases hl : m.pageFreeList with
    | none =>
      rw [pageInsert_full h0 hl] at h
      obtain ⟨rfl, rfl⟩ := Prod.mk.inj (Option.some.inj h)
      exact .inl ⟨rfl, rfl, h0, rfl⟩
    | some q =>
      rw [pageInsert_create h0 hl] at h
      obtain ⟨u, -, hu⟩ := Option.map_eq_some_iff.mp h
      exact .inr ⟨(Prod.mk.inj hu).1.symm, .inr (by simp)⟩
  · rw [pageInsert_found h0] at h
    obtain ⟨u, -, hu⟩ := Option.map_eq_some_iff.mp h
    exact .inr ⟨(Prod.mk.inj hu).1.symm, .inl h0⟩

end Walk

end Pmap

end DamnOS.Kernel
