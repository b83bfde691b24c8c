import Mathlib

/-!
# Address spaces over shared pages

Several owners map places to physical pages.  A page may be mapped at many places; a fresh page is mapped
nowhere, since all pages that are mapped have smaller numbers.
-/

namespace DamnOS.Framework

/-- A place of an owner has a page with rights, or nothing.  The pages from `next` on were never used. -/
@[ext]
structure Spaces (ι ρ κ : Type*) where
  maps : ι → Nat → Option (Nat × ρ)
  data : Nat → κ
  next : Nat
  taken : ∀ e n x, maps e n = some x → x.1 < next

namespace Spaces

variable {ι ρ κ : Type*}

def write (s : Spaces ι ρ κ) (p : Nat) (v : κ) : Spaces ι ρ κ := { s with data := Function.update s.data p v }

@[simp] theorem data_write (s : Spaces ι ρ κ) (p : Nat) (v : κ) :
    (s.write p v).data = Function.update s.data p v := rfl

variable [DecidableEq ι]

def redirect (s : Spaces ι ρ κ) (e : ι) (n : Nat) (o : Option (Nat × ρ)) (h : ∀ x, o = some x → x.1 < s.next) :
    Spaces ι ρ κ where
  maps i k := if i = e ∧ k = n then o else s.maps i k
  data := s.data
  next := s.next
  taken i k x hx := by
    split at hx
    · exact h x hx
    · exact s.taken i k x hx

def unmap (s : Spaces ι ρ κ) (e : ι) (n : Nat) : Spaces ι ρ κ :=
  s.redirect e n none fun x h => by cases h

def clear (s : Spaces ι ρ κ) (e : ι) : Spaces ι ρ κ where
  maps i k := if i = e then none else s.maps i k
  data := s.data
  next := s.next
  taken i k x hx := by
    split at hx
    · cases hx
    · exact s.taken i k x hx

/-- The page at a place, if there is one, is mapped at a second place. -/
def share (s : Spaces ι ρ κ) (src : ι) (k : Nat) (dst : ι) (n : Nat) (r : ρ) : Spaces ι ρ κ :=
  s.redirect dst n ((s.maps src k).map fun x => (x.1, r)) fun y hy => by
    obtain ⟨x, hx, rfl⟩ := Option.map_eq_some_iff.mp hy
    exact s.taken src k x hx

/-- A page that was never used is mapped, with the given contents. -/
def alloc (s : Spaces ι ρ κ) (e : ι) (n : Nat) (r : ρ) (blank : κ) : Spaces ι ρ κ :=
  redirect { s with
    data := Function.update s.data s.next blank
    next := s.next + 1
    taken := fun i k x hx => Nat.lt_succ_of_lt (s.taken i k x hx) } e n (some (s.next, r)) fun x h => by
      obtain rfl := Option.some.inj h
      exact Nat.lt_succ_self _

section Lemmas

variable (s : Spaces ι ρ κ) (src e i : ι) (m n k : Nat) (r : ρ) (v : κ)

@[simp] theorem maps_unmap : (s.unmap e n).maps i k = if i = e ∧ k = n then none else s.maps i k := rfl

@[simp] theorem maps_clear : (s.clear e).maps i k = if i = e then none else s.maps i k := rfl

@[simp] theorem maps_share : (s.share src m e n r).maps i k =
    if i = e ∧ k = n then (s.maps src m).map fun x => (x.1, r) else s.maps i k := rfl

@[simp] theorem maps_alloc : (s.alloc e n r v).maps i k =
    if i = e ∧ k = n then some (s.next, r) else s.maps i k := rfl

@[simp] theorem data_unmap : (s.unmap e n).data = s.data := rfl

@[simp] theorem data_share : (s.share src m e n r).data = s.data := rfl

@[simp] theorem data_alloc : (s.alloc e n r v).data = Function.update s.data s.next v := rfl

@[simp] theorem next_alloc : (s.alloc e n r v).next = s.next + 1 := rfl

end Lemmas

theorem unmap_alloc_maps {s : Spaces ι ρ κ} {e : ι} {n : Nat} (h : s.maps e n = none) (r : ρ) (v : κ) :
    ((s.alloc e n r v).unmap e n).maps = s.maps := by
  funext i k
  rw [maps_unmap, maps_alloc]
  split
  · next hk =>
    obtain ⟨rfl, rfl⟩ := hk
    exact h.symm
  · rfl

theorem unmap_maps_congr {s t : Spaces ι ρ κ} (h : s.maps = t.maps) (e : ι) (n : Nat) :
    (s.unmap e n).maps = (t.unmap e n).maps := by
  funext i k
  rw [maps_unmap, maps_unmap, h]

end Spaces

end DamnOS.Framework
