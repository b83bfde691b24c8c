import Mathlib.Tactic.Common

/-!
# Programs that ask

A program that depends on its surroundings only by the replies to its requests runs over everything that replies to
them.  The replies of one side may depend on choices that are left open, one for each tick of a clock.
-/

namespace DamnOS.Framework

universe u v

/-- A program with requests from `ι`; the replies to request `i` are of type `ρ i`. -/
inductive Asking (ι : Type u) (ρ : ι → Type v) (α : Type v) : Type (max u v) where
  | done (a : α)
  | ask (i : ι) (next : ρ i → Asking ι ρ α)

namespace Asking

variable {ι : Type u} {ρ : ι → Type v} {α β : Type v} {σ τ κ : Type*}

/-- One program, and then another one that depends on its result. -/
def bind : Asking ι ρ α → (α → Asking ι ρ β) → Asking ι ρ β
  | done a, f => f a
  | ask i next, f => ask i fun r => (next r).bind f

instance : Monad (Asking ι ρ) where
  pure := done
  bind := bind

def request (i : ι) : Asking ι ρ (ρ i) := ask i done

section Runs

variable (reply : (i : ι) → σ → Option (ρ i × σ))

/-- A run, which stops where there is no reply. -/
def run : Asking ι ρ α → σ → Option (α × σ)
  | done a, s => some (a, s)
  | ask i next, s => (reply i s).bind fun r => run (next r.1) r.2

/-- `C` holds of every request where it is made. -/
def Along (C : ι → σ → Prop) : Asking ι ρ α → σ → Prop
  | done _, _ => True
  | ask i next, s => C i s ∧ ∀ r t, reply i s = some (r, t) → Along C (next r) t

variable {reply} {s : σ}

@[simp] theorem run_pure (a : α) : run reply (pure a : Asking ι ρ α) s = some (a, s) := rfl

@[simp] theorem run_request (i : ι) : run reply (request i) s = reply i s := by
  rw [request, run]
  cases reply i s with
  | none => rfl
  | some r => rfl

@[simp] theorem run_bind (p : Asking ι ρ α) (f : α → Asking ι ρ β) :
    run reply (p >>= f) s = (run reply p s).bind fun r => run reply (f r.1) r.2 := by
  change run reply (p.bind f) s = _
  induction p generalizing s with
  | done a => rfl
  | ask i next ih =>
    rw [bind, run, run, Option.bind_assoc]
    congr 1
    funext r
    exact ih r.1

end Runs

section Choices

/-- The replies look at the choice for the present tick only, and when they do, the clock goes on. -/
structure Clocked (reply : (Nat → κ) → (i : ι) → τ → Option (ρ i × τ)) (clock : τ → Nat) : Prop where
  now : ∀ ω ω' i y, ω (clock y) = ω' (clock y) → reply ω i y = reply ω' i y
  next : ∀ ω i y r z, reply ω i y = some (r, z) →
    clock y < clock z ∨ clock z = clock y ∧ ∀ ω', reply ω' i y = reply ω i y

variable {reply : (Nat → κ) → (i : ι) → τ → Option (ρ i × τ)} {clock : τ → Nat}

theorem Clocked.le (h : Clocked reply clock) {ω : Nat → κ} {i : ι} {y z : τ} {r : ρ i}
    (hr : reply ω i y = some (r, z)) : clock y ≤ clock z := by
  rcases h.next ω i y r z hr with hlt | ⟨heq, -⟩
  · exact Nat.le_of_lt hlt
  · exact Nat.le_of_eq heq.symm

private theorem Clocked.run_congr (h : Clocked reply clock) {ω ω' : Nat → κ} (p : Asking ι ρ α) {y : τ}
    (heq : ∀ n, clock y ≤ n → ω n = ω' n) : run (reply ω) p y = run (reply ω') p y := by
  induction p generalizing y with
  | done a => rfl
  | ask i next ih =>
    rw [run, run, h.now ω ω' i y (heq _ (Nat.le_refl _))]
    cases hr : reply ω' i y with
    | none => rfl
    | some r => exact ih r.1 fun n hn => heq n (Nat.le_trans (h.le hr) hn)

/-- If each reply of one side is a reply of the other for some choice, then so is each run. -/
theorem Clocked.run_simulates (h : Clocked reply clock) {reply₀ : (i : ι) → σ → Option (ρ i × σ)}
    {R : σ → τ → Prop} {C : ι → σ → Prop}
    (hstep : ∀ i s t r y, R s y → C i s → reply₀ i s = some (r, t) → ∃ ω z, reply ω i y = some (r, z) ∧ R t z)
    {p : Asking ι ρ α} {s t : σ} {a : α} {y : τ} (hR : R s y) (hC : Along reply₀ C p s)
    (hrun : run reply₀ p s = some (a, t)) (ω₀ : Nat → κ) : ∃ ω z, run (reply ω) p y = some (a, z) ∧ R t z := by
  induction p generalizing s y with
  | done b =>
    obtain ⟨rfl, rfl⟩ := Prod.mk.inj (Option.some.inj hrun)
    exact ⟨ω₀, y, rfl, hR⟩
  | ask i next ih =>
    obtain ⟨⟨r, u⟩, hr, hrest⟩ := Option.bind_eq_some_iff.mp hrun
    obtain ⟨ω₁, x, hx, hRx⟩ := hstep i s u r y hR hC.1 hr
    obtain ⟨ω₂, z, hz, hRz⟩ := ih r hRx (hC.2 r u hr) hrest
    rcases h.next ω₁ i y r x hx with hlt | ⟨-, hany⟩
    · -- the choice for this tick, and then those of the rest
      refine ⟨fun n => if n < clock x then ω₁ n else ω₂ n, z, ?_, hRz⟩
      rw [run, h.now _ ω₁ i y (if_pos hlt), hx, Option.bind_some, ← hz]
      exact h.run_congr _ fun n hn => if_neg (Nat.not_lt.mpr hn)
    · refine ⟨ω₂, z, ?_, hRz⟩
      rw [run, hany ω₂, hx, Option.bind_some, hz]

end Choices

end Asking

end DamnOS.Framework
