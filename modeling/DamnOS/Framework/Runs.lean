import Mathlib

/-!
# Runs of a machine that may stop

A machine executes commands one after another until one of them stops it.  What every command
keeps, under a condition on the state it starts in, holds along a run whose commands all meet the
condition.
-/

namespace DamnOS.Framework

universe u v

/-- `step` is the state after a command, and `halts` tells that the command stopped the machine. -/
structure Machine (ι : Type u) (σ : Type v) where
  step : ι → σ → σ
  halts : ι → σ → Bool

namespace Machine

variable {ι : Type u} {σ : Type v} (A : Machine ι σ)

/-- The state after a list of commands, or after the command that stopped the machine. -/
def run : List ι → σ → σ
  | [], s => s
  | i :: l, s => if A.halts i s then A.step i s else run l (A.step i s)

/-- Every command that is executed meets the condition. -/
def Along (C : ι → σ → Prop) : List ι → σ → Prop
  | [], _ => True
  | i :: l, s => C i s ∧ (A.halts i s = false → Along C l (A.step i s))

/-- No command of the list stops the machine. -/
def Survives : List ι → σ → Prop
  | [], _ => True
  | i :: l, s => A.halts i s = false ∧ Survives l (A.step i s)

variable {A}

theorem Along.of_forall {C : ι → σ → Prop} {l : List ι} (h : ∀ i ∈ l, ∀ s, C i s) (s : σ) :
    A.Along C l s := by
  induction l generalizing s with
  | nil => trivial
  | cons i l ih =>
    exact ⟨h i (by simp) s, fun _ => ih (fun j hj => h j (by simp [hj])) _⟩

theorem Along.and {C D : ι → σ → Prop} {l : List ι} {s : σ} (hc : A.Along C l s)
    (hd : A.Along D l s) : A.Along (fun i s => C i s ∧ D i s) l s := by
  induction l generalizing s with
  | nil => trivial
  | cons i l ih => exact ⟨⟨hc.1, hd.1⟩, fun h => ih (hc.2 h) (hd.2 h)⟩

theorem Along.mono {C D : ι → σ → Prop} (h : ∀ i s, C i s → D i s) {l : List ι} {s : σ}
    (hc : A.Along C l s) : A.Along D l s := by
  induction l generalizing s with
  | nil => trivial
  | cons i l ih => exact ⟨h i s hc.1, fun hh => ih (hc.2 hh)⟩

variable (A) in
theorem run_single {i : ι} {s : σ} : A.run [i] s = A.step i s := by
  unfold run
  split
  · rfl
  · rfl

variable (A) in
theorem run_append {l : List ι} (h : ∀ i ∈ l, ∀ s, A.halts i s = false) (r : List ι) (s : σ) :
    A.run (l ++ r) s = A.run r (A.run l s) := by
  induction l generalizing s with
  | nil => rfl
  | cons i l ih =>
    have hi := h i (by simp) s
    rw [List.cons_append, run, run, hi]
    exact ih (fun j hj => h j (by simp [hj])) _

theorem run_invariant {C : ι → σ → Prop} {I : σ → Prop}
    (hstep : ∀ i s, I s → C i s → I (A.step i s)) {l : List ι} {s : σ} (hs : I s)
    (hc : A.Along C l s) : I (A.run l s) := by
  induction l generalizing s with
  | nil => exact hs
  | cons i l ih =>
    have hi := hstep i s hs hc.1
    unfold run
    split
    · exact hi
    · next h => exact ih hi (hc.2 (by simpa using h))

theorem run_survives {C : ι → σ → Prop} {I : σ → Prop}
    (hstep : ∀ i s, I s → C i s → A.halts i s = false → I (A.step i s)) {l : List ι} {s : σ} (hs : I s)
    (hc : A.Along C l s) (hl : A.Survives l s) : I (A.run l s) := by
  induction l generalizing s with
  | nil => exact hs
  | cons i l ih =>
    unfold run
    rw [hl.1]
    exact ih (hstep i s hs hc.1 hl.1) (hc.2 hl.1) hl.2

/-- What every command keeps without a condition holds after every run. -/
theorem run_always {I : σ → Prop} (hstep : ∀ i s, I s → I (A.step i s)) (l : List ι) {s : σ}
    (hs : I s) : I (A.run l s) :=
  run_invariant (C := fun _ _ => True) (fun i s h _ => hstep i s h) hs
    (Along.of_forall (fun _ _ _ => trivial) s)

end Machine

section Loops

variable {α : Type u} {β : Type v} {f : β → α → Option β}

theorem foldlM_invariant {I : β → Prop} {l : List α}
    (hstep : ∀ a ∈ l, ∀ b b', I b → f b a = some b' → I b') {b b' : β} (hb : I b)
    (h : l.foldlM f b = some b') : I b' := by
  induction l generalizing b with
  | nil =>
    obtain rfl := Option.some.inj h
    exact hb
  | cons a l ih =>
    obtain ⟨c, hc, hrest⟩ := Option.bind_eq_some_iff.mp h
    exact ih (fun x hx => hstep x (by simp [hx])) (hstep a (by simp) b c hb hc) hrest

theorem foldlM_range_invariant {I : Nat → β → Prop} {f : β → Nat → Option β} {n : Nat}
    (hstep : ∀ k < n, ∀ b b', I k b → f b k = some b' → I (k + 1) b') {b b' : β} (hb : I 0 b)
    (h : (List.range n).foldlM f b = some b') : I n b' := by
  induction n generalizing b' with
  | zero =>
    obtain rfl := Option.some.inj h
    exact hb
  | succ n ih =>
    rw [List.range_succ, List.foldlM_append] at h
    obtain ⟨c, hc, hlast⟩ := Option.bind_eq_some_iff.mp h
    have hI := ih (fun k hk => hstep k (by omega)) hc
    obtain ⟨d, hd, hnil⟩ := Option.bind_eq_some_iff.mp hlast
    obtain rfl := Option.some.inj hnil
    exact hstep n (by omega) c d hI hd

theorem foldlM_range_total {I : Nat → β → Prop} {f : β → Nat → Option β} {n : Nat}
    (hstep : ∀ k < n, ∀ b, I k b → ∃ b', f b k = some b' ∧ I (k + 1) b') {b : β} (hb : I 0 b) :
    ∃ b', (List.range n).foldlM f b = some b' ∧ I n b' := by
  induction n with
  | zero => exact ⟨b, rfl, hb⟩
  | succ n ih =>
    obtain ⟨c, hc, hI⟩ := ih fun k hk => hstep k (by omega)
    obtain ⟨d, hd, hId⟩ := hstep n (by omega) c hI
    refine ⟨d, ?_, hId⟩
    rw [List.range_succ, List.foldlM_append, hc]
    simp [hd]

private theorem foldlM_skip {l : List α} {b : β} (h : ∀ a ∈ l, f b a = some b) : l.foldlM f b = some b := by
  induction l with
  | nil => rfl
  | cons a l ih =>
    rw [List.foldlM_cons, h a (by simp)]
    exact ih fun x hx => h x (by simp [hx])

theorem foldlM_range_single {f : β → Nat → Option β} {n k : Nat} {b c : β} (hk : k < n)
    (hbefore : ∀ i < k, f b i = some b) (hround : f b k = some c)
    (hafter : ∀ i, k < i → i < n → f c i = some c) : (List.range n).foldlM f b = some c := by
  obtain ⟨j, rfl⟩ : ∃ j, n = k + (j + 1) := ⟨n - k - 1, by omega⟩
  rw [List.range_add, List.foldlM_append, foldlM_skip fun i hi => hbefore i (List.mem_range.mp hi),
    List.range_succ_eq_map]
  simp only [List.map_cons, List.map_map, Option.bind_eq_bind, Option.bind_some, List.foldlM_cons,
    Nat.add_zero, hround]
  refine foldlM_skip fun i hi => ?_
  obtain ⟨m, hm, rfl⟩ := List.mem_map.mp hi
  have hm := List.mem_range.mp hm
  exact hafter _ (by simp) (by simp only [Function.comp_apply]; omega)

end Loops

end DamnOS.Framework
