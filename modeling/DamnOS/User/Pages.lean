import DamnOS.Framework.AddressSpaces
import DamnOS.Framework.Bytes
import DamnOS.Kernel.Spaces

/-!
# Pages of programs

The three system calls on pages as a program sees them.  Which calls find no memory is left open; whatever else
the calls report follows from their arguments and from what is mapped.
-/

namespace DamnOS.User

open DamnOS.Framework DamnOS.Kernel

/-- What `sys_page_alloc` and `sys_page_map` accept as `perm`. -/
abbrev Rights : Type := {perm : BitVec 32 // permValid perm.toNat = true}

/-- The address spaces with the bytes of the pages, and the number of calls so far that may have needed memory. -/
structure Paging extends Spaces (Fin NENV) Rights (Nat → UInt8) where
  calls : Nat

namespace Paging

def present (s : Paging) (e : Fin NENV) (va : BitVec 32) : Bool := (s.maps e (PGNUM va.toNat)).isSome

/-- `uvpt[PGNUM(va)] & PTE_SYSCALL`, where there is a page table. -/
def perm (s : Paging) (e : Fin NENV) (va : BitVec 32) : BitVec 32 :=
  (s.maps e (PGNUM va.toNat)).elim 0 fun x => x.2.val

/-- A word is read through the mapping; without one the program stops with a page fault. -/
def loadWord (s : Paging) (e : Fin NENV) (va : BitVec 32) : Option Nat :=
  (s.maps e (PGNUM va.toNat)).map fun x => u32 (s.data x.1) (va.toNat % PGSIZE)

/-- A word is written through the mapping; a page that is not mapped writable stops the program. -/
def storeWord (s : Paging) (e : Fin NENV) (va : BitVec 32) (w : Nat) : Option Paging :=
  match s.maps e (PGNUM va.toNat) with
  | none => none
  | some x =>
    if x.2.val.toNat &&& PTE_W = 0 then none
    else some { s with toSpaces := s.write x.1 (splice (s.data x.1) (va.toNat % PGSIZE) 4 (leByte w)) }

/-- `sys_page_alloc` for environment `e`; `short` tells which calls find no memory. -/
def sysPageAlloc (short : Nat → Bool) (s : Paging) (e : Fin NENV) (va perm : BitVec 32) : Int × Paging :=
  if h : pageAddr va.toNat = true ∧ permValid perm.toNat = true then
    if short s.calls then (-E_NO_MEM, { s with calls := s.calls + 1 })
    else (0, ⟨s.alloc e (PGNUM va.toNat) ⟨perm, h.2⟩ fun _ => 0, s.calls + 1⟩)
  else (-E_INVAL, s)

/-- `sys_page_map`.  Its test of `PTE_W` never refuses.  There is no answer here when no page is mapped at `srcva`:
`page_lookup` then takes physical page 0 for it, unless there is no page table. -/
def sysPageMap (short : Nat → Bool) (s : Paging) (src : Fin NENV) (srcva : BitVec 32) (dst : Fin NENV)
    (dstva perm : BitVec 32) : Option (Int × Paging) :=
  if h : (pageAddr srcva.toNat = true ∧ pageAddr dstva.toNat = true) ∧ permValid perm.toNat = true then
    if s.present src srcva = false then none
    else if short s.calls then some (-E_NO_MEM, { s with calls := s.calls + 1 })
    else some (0, ⟨s.share src (PGNUM srcva.toNat) dst (PGNUM dstva.toNat) ⟨perm, h.2⟩, s.calls + 1⟩)
  else some (-E_INVAL, s)

/-- `sys_page_unmap`.  Where nothing is mapped, nothing changes. -/
def sysPageUnmap (s : Paging) (e : Fin NENV) (va : BitVec 32) : Int × Paging :=
  if pageAddr va.toNat then (0, { s with toSpaces := s.unmap e (PGNUM va.toNat) }) else (-E_INVAL, s)

end Paging

section Calls

variable {short : Nat → Bool} {s : Paging} {e src dst : Fin NENV} {va srcva dstva perm : BitVec 32}

theorem E_NO_MEM_neg : -E_NO_MEM < 0 := by decide

theorem E_INVAL_neg : -E_INVAL < 0 := by decide

theorem sysPageAlloc_eq (hva : pageAddr va.toNat = true) (hperm : permValid perm.toNat = true) :
    s.sysPageAlloc short e va perm = if short s.calls then (-E_NO_MEM, { s with calls := s.calls + 1 })
      else (0, ⟨s.alloc e (PGNUM va.toNat) ⟨perm, hperm⟩ fun _ => 0, s.calls + 1⟩) := by
  rw [Paging.sysPageAlloc, dif_pos ⟨hva, hperm⟩]

theorem sysPageMap_eq (hsrc : pageAddr srcva.toNat = true) (hdst : pageAddr dstva.toNat = true)
    (hmap : s.present src srcva = true) (hperm : permValid perm.toNat = true) :
    s.sysPageMap short src srcva dst dstva perm = some (
      if short s.calls then (-E_NO_MEM, { s with calls := s.calls + 1 })
      else (0, ⟨s.share src (PGNUM srcva.toNat) dst (PGNUM dstva.toNat) ⟨perm, hperm⟩, s.calls + 1⟩)) := by
  rw [Paging.sysPageMap, dif_pos ⟨⟨hsrc, hdst⟩, hperm⟩, if_neg (by rw [hmap]; decide), apply_ite some]

theorem sysPageMap_invalid (h : ¬ ((pageAddr srcva.toNat = true ∧ pageAddr dstva.toNat = true) ∧
    permValid perm.toNat = true)) : s.sysPageMap short src srcva dst dstva perm = some (-E_INVAL, s) := dif_neg h

theorem sysPageUnmap_eq (hva : pageAddr va.toNat = true) :
    s.sysPageUnmap e va = (0, { s with toSpaces := s.unmap e (PGNUM va.toNat) }) := if_pos hva

theorem storeWord_eq {x : Nat × Rights} (hx : s.maps e (PGNUM va.toNat) = some x)
    (hw : x.2.val.toNat &&& PTE_W ≠ 0) (w : Nat) : s.storeWord e va w =
      some { s with toSpaces := s.write x.1 (splice (s.data x.1) (va.toNat % PGSIZE) 4 (leByte w)) } := by
  rw [Paging.storeWord, hx]
  exact if_neg hw

theorem loadWord_eq {x : Nat × Rights} (hx : s.maps e (PGNUM va.toNat) = some x) :
    s.loadWord e va = some (u32 (s.data x.1) (va.toNat % PGSIZE)) := by
  rw [Paging.loadWord, hx]
  rfl

theorem sysPageUnmap_maps (s : Paging) (e : Fin NENV) (va : BitVec 32) (n : Nat) :
    (s.sysPageUnmap e va).2.maps e n =
      if n = PGNUM va.toNat ∧ pageAddr va.toNat = true then none else s.maps e n := by
  rw [Paging.sysPageUnmap]
  by_cases hva : pageAddr va.toNat = true
  · simp [hva]
  · simp [hva]

end Calls

end DamnOS.User
