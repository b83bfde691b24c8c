import Mathlib

/-!
# Linked lists

A list threaded through a successor function.  A chain that ends is determined by where it
starts, and it meets no node twice.
-/

namespace DamnOS.Framework

universe u

variable {α : Type u} {next : α → Option α} {head : Option α} {xs ys : List α}

/-- Following `next` from `head` visits the nodes `xs` and ends. -/
def Chain (next : α → Option α) : Option α → List α → Prop
  | head, [] => head = none
  | head, x :: xs => head = some x ∧ Chain next (next x) xs

namespace Chain

theorem unique (hx : Chain next head xs) (hy : Chain next head ys) : xs = ys := by
  induction xs generalizing head ys with
  | nil =>
    cases ys with
    | nil => rfl
    | cons y ys => exact absurd (hx.symm.trans hy.1) (by simp)
  | cons x xs ih =>
    cases ys with
    | nil => exact absurd (hy.symm.trans hx.1) (by simp)
    | cons y ys =>
      obtain rfl : x = y := Option.some.inj (hx.1.symm.trans hy.1)
      rw [ih hx.2 hy.2]

private theorem of_append {as : List α} {x : α} (h : Chain next head (as ++ x :: xs)) :
    Chain next (next x) xs := by
  induction as generalizing head with
  | nil => exact h.2
  | cons a as ih => exact ih h.2

theorem nodup (h : Chain next head xs) : xs.Nodup := by
  induction xs generalizing head with
  | nil => exact List.nodup_nil
  | cons x xs ih =>
    refine List.nodup_cons.mpr ⟨fun hx => ?_, ih h.2⟩
    obtain ⟨as, bs, rfl⟩ := List.append_of_mem hx
    have hlen := congrArg List.length (h.2.unique (of_append h.2))
    simp at hlen
    omega

theorem congr {next' : α → Option α} (h : Chain next head xs) (he : ∀ x ∈ xs, next' x = next x) :
    Chain next' head xs := by
  induction xs generalizing head with
  | nil => exact h
  | cons x xs ih =>
    refine ⟨h.1, ?_⟩
    rw [he x (by simp)]
    exact ih h.2 fun y hy => he y (by simp [hy])

variable [DecidableEq α]

theorem push {x : α} (h : Chain next head xs) (hx : x ∉ xs) :
    Chain (Function.update next x head) (some x) (x :: xs) := by
  refine ⟨rfl, ?_⟩
  rw [Function.update_self]
  apply h.congr
  intro y hy
  exact Function.update_of_ne (ne_of_mem_of_not_mem hy hx) _ _

theorem pop {x : α} (h : Chain next head (x :: xs)) :
    Chain (Function.update next x none) (next x) xs := by
  have hx := (List.nodup_cons.mp h.nodup).1
  apply h.2.congr
  intro y hy
  exact Function.update_of_ne (ne_of_mem_of_not_mem hy hx) _ _

end Chain

end DamnOS.Framework
