import Mathlib.Tactic.Common

/-!
# Loops

A loop whose body either goes on with a new state or leaves with a result, run for at most `n` turns.
-/

namespace DamnOS.Framework

section Loop

variable {σ ρ : Type*} {body : σ → σ ⊕ ρ} {I : σ → Prop} {s : σ} {r : ρ}

def loop (body : σ → σ ⊕ ρ) : Nat → σ → Option ρ
  | 0, _ => none
  | n + 1, s => (body s).elim (loop body n) some

private theorem loop_stays {t : σ} (h : body s = .inl t) (n : Nat) : loop body (n + 1) s = loop body n t := by
  rw [loop, h]
  rfl

theorem loop_leaves (h : body s = .inr r) (n : Nat) : loop body (n + 1) s = some r := by
  rw [loop, h]
  rfl

/-- A loop with an invariant under which it never leaves does not end. -/
theorem loop_endless (hbody : ∀ s, I s → ∃ t, body s = .inl t ∧ I t) (n : Nat) (hs : I s) : loop body n s = none := by
  induction n generalizing s with
  | zero => rfl
  | succ n ih =>
    obtain ⟨t, hstay, ht⟩ := hbody s hs
    rw [loop_stays hstay]
    exact ih ht

/-- A loop ends when a measure gets smaller in each turn that stays. -/
theorem loop_ends (μ : σ → Nat)
    (hbody : ∀ s, I s → (∃ r, body s = .inr r) ∨ ∃ t, body s = .inl t ∧ I t ∧ μ t < μ s) (hs : I s) :
    ∃ n r, loop body n s = some r := by
  induction hm : μ s using Nat.strongRecOn generalizing s with
  | ind m ih =>
    rcases hbody s hs with ⟨r, hleave⟩ | ⟨t, hstay, ht, hless⟩
    · exact ⟨1, r, loop_leaves hleave 0⟩
    · obtain ⟨n, r, hrun⟩ := ih (μ t) (hm ▸ hless) ht rfl
      refine ⟨n + 1, r, ?_⟩
      rw [loop_stays hstay]
      exact hrun

/-- What holds of the result wherever the loop leaves from a state with the invariant. -/
theorem loop_result {Q : ρ → Prop} (hstay : ∀ s t, I s → body s = .inl t → I t)
    (hleave : ∀ s r, I s → body s = .inr r → Q r) {n : Nat} (hs : I s) (hrun : loop body n s = some r) : Q r := by
  induction n generalizing s with
  | zero => cases hrun
  | succ n ih =>
    cases hb : body s with
    | inl t =>
      rw [loop_stays hb] at hrun
      exact ih (hstay s t hs hb) hrun
    | inr q =>
      rw [loop_leaves hb] at hrun
      cases hrun
      exact hleave s _ hs hb

end Loop

end DamnOS.Framework
