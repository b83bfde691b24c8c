import Mathlib

/-!
# Counting references

Finitely many places refer to objects, each place to at most one.  The number of references to an
object follows the updates of single places.
-/

namespace DamnOS.Framework

universe u v w

variable {σ : Type u} {π : Type v} [Fintype σ] [DecidableEq π]

/-- The number of places that refer to `p`. -/
def references (target : σ → Option π) (p : π) : Nat :=
  (Finset.univ.filter fun s => target s = some p).card

variable {target : σ → Option π} {p : π} {s r : σ}

theorem references_pos (h : target s = some p) : 0 < references target p :=
  Finset.card_pos.mpr ⟨s, by simp [h]⟩

theorem references_eq_zero : references target p = 0 ↔ ∀ s, target s ≠ some p := by
  simp [references, Finset.filter_eq_empty_iff]

theorem references_ne_zero : references target p ≠ 0 ↔ ∃ s, target s = some p := by
  simp [references_eq_zero]

theorem one_lt_references (hs : target s = some p) (hr : target r = some p) (hne : s ≠ r) :
    1 < references target p :=
  Finset.one_lt_card.mpr ⟨s, by simp [hs], r, by simp [hr], hne⟩

/-- An object with one reference is referred to from one place only. -/
theorem eq_of_references_le_one (h : references target p ≤ 1) (hs : target s = some p)
    (hr : target r = some p) : s = r := by
  by_contra hne
  exact absurd (one_lt_references hs hr hne) (by omega)

private theorem references_congr {target' : σ → Option π} (h : ∀ s, target' s = some p ↔ target s = some p) :
    references target' p = references target p := by
  simp [references, h]

/-- The references are those from the listed places, when no other place refers to the object. -/
theorem references_eq_length_iff [DecidableEq σ] {α : Type w} [DecidableEq α] {l : List α} (place : α → σ) (hl : l.Nodup)
    (h : ∀ a ∈ l, target (place a) = some p) (hinj : ∀ a ∈ l, ∀ b ∈ l, place a = place b → a = b) :
    references target p = l.length ↔ ∀ s, target s = some p → ∃ a ∈ l, place a = s := by
  have hcard : (l.toFinset.image place).card = l.length := by
    rw [Finset.card_image_of_injOn fun a ha b hb => hinj a (by simpa using ha) b (by simpa using hb),
      List.toFinset_card_of_nodup hl]
  have hsub : l.toFinset.image place ⊆ Finset.univ.filter fun s => target s = some p := by
    intro s hs
    obtain ⟨a, ha, rfl⟩ := Finset.mem_image.mp hs
    simpa using h a (by simpa using ha)
  rw [references, ← hcard]
  constructor
  · intro heq s hs
    have hmem : s ∈ l.toFinset.image place := by
      rw [Finset.eq_of_subset_of_card_le hsub heq.le]
      simpa using hs
    simpa using hmem
  · intro hall
    refine le_antisymm (Finset.card_le_card fun s hs => ?_) (Finset.card_le_card hsub)
    simpa using hall s (by simpa using hs)

theorem references_sumElim {τ : Type u} [Fintype τ] (f : σ → Option π) (g : τ → Option π) (p : π) :
    references (Sum.elim f g) p = references f p + references g p := by
  rw [references, references, references, ← Finset.card_disjSum]
  congr 1
  ext x
  cases x <;> simp

theorem references_equiv {τ : Type u} [Fintype τ] (e : τ ≃ σ) (target : σ → Option π) (p : π) :
    references (fun t => target (e t)) p = references target p := by
  apply Finset.card_bij (fun t _ => e t)
  · intro t ht
    simpa using ht
  · intro t _ t' _ h
    exact e.injective h
  · intro s hs
    exact ⟨e.symm s, by simpa using hs, by simp⟩

theorem references_eq_ite [Decidable (∃ s, target s = some p)]
    (h : ∀ s r, target s = some p → target r = some p → r = s) :
    references target p = if ∃ s, target s = some p then 1 else 0 := by
  split
  · next hex =>
    obtain ⟨s, hs⟩ := hex
    rw [references, Finset.card_eq_one]
    refine ⟨s, ?_⟩
    ext r
    simp only [Finset.mem_filter, Finset.mem_univ, true_and, Finset.mem_singleton]
    exact ⟨h s r hs, fun hr => hr ▸ hs⟩
  · next hno => exact references_eq_zero.mpr fun s hs => hno ⟨s, hs⟩

theorem references_eq_card {τ : Type v} [Fintype τ] {place : τ → σ} (hinj : Function.Injective place)
    (h : ∀ s, target s = some p ↔ ∃ t, place t = s) : references target p = Fintype.card τ := by
  rw [references, ← Finset.card_univ]
  symm
  apply Finset.card_bij (fun t _ => place t)
  · intro t _
    simpa using (h (place t)).mpr ⟨t, rfl⟩
  · intro t _ t' _ heq
    exact hinj heq
  · intro s hs
    obtain ⟨t, ht⟩ := (h s).mp (by simpa using hs)
    exact ⟨t, Finset.mem_univ t, ht⟩

theorem length_le_references {α : Type v} [DecidableEq α] {l : List α} (place : α → σ)
    (hl : l.Nodup) (h : ∀ a ∈ l, target (place a) = some p)
    (hinj : ∀ a ∈ l, ∀ b ∈ l, place a = place b → a = b) : l.length ≤ references target p := by
  rw [← List.toFinset_card_of_nodup hl, references]
  apply Finset.card_le_card_of_injOn place
  · intro a ha
    simpa using h a (by simpa using ha)
  · intro a ha b hb heq
    exact hinj a (by simpa using ha) b (by simpa using hb) heq

variable [DecidableEq σ]

/-- Redirecting one place gives up its old reference and takes the new one. -/
theorem references_update (target : σ → Option π) (s : σ) (o : Option π) (p : π) :
    references (Function.update target s o) p + (if target s = some p then 1 else 0)
      = references target p + (if o = some p then 1 else 0) := by
  have hsplit (t : σ → Option π) : references t p
      = (if t s = some p then 1 else 0)
        + ((Finset.univ.erase s).filter fun r => t r = some p).card := by
    rw [references, ← Finset.insert_erase (Finset.mem_univ s), Finset.filter_insert]
    split_ifs with h
    · rw [Finset.card_insert_of_notMem (by simp)]
      simp [Nat.add_comm]
    · simp
  have hrest : (Finset.univ.erase s).filter (fun r => Function.update target s o r = some p)
      = (Finset.univ.erase s).filter fun r => target r = some p := by
    apply Finset.filter_congr
    intro r hr
    rw [Function.update_of_ne (Finset.ne_of_mem_erase hr)]
  rw [hsplit (Function.update target s o), hsplit target, hrest, Function.update_self]
  omega

/-- An object to which a place of `S` refers has no other reference. -/
def Exclusive (S : σ → Prop) (target : σ → Option π) : Prop :=
  ∀ s r p, S s → target s = some p → target r = some p → r = s

namespace Exclusive

omit [Fintype σ] [DecidableEq π]

variable {S : σ → Prop}

theorem erase (h : Exclusive S target) (s : σ) : Exclusive S (Function.update target s none) := by
  intro r r' p hS hr hr'
  have hne : r ≠ s := by
    rintro rfl
    simp at hr
  have hne' : r' ≠ s := by
    rintro rfl
    simp at hr'
  rw [Function.update_of_ne hne] at hr
  rw [Function.update_of_ne hne'] at hr'
  exact h r r' p hS hr hr'

theorem fresh (h : Exclusive S target) (s : σ) (hp : ∀ r, target r ≠ some p) :
    Exclusive S (Function.update target s (some p)) := by
  have hself {r : σ} (hr : Function.update target s (some p) r = some p) : r = s := by
    by_contra hne
    rw [Function.update_of_ne hne] at hr
    exact hp r hr
  intro r r' q hS hr hr'
  by_cases hqp : q = p
  · subst hqp
    rw [hself hr, hself hr']
  · have hother {x : σ} (hx : Function.update target s (some p) x = some q) : target x = some q := by
      by_cases hxs : x = s
      · subst hxs
        rw [Function.update_self] at hx
        exact absurd (Option.some.inj hx).symm hqp
      · rwa [Function.update_of_ne hxs] at hx
    exact h r r' q hS (hother hr) (hother hr')

/-- A further reference to a shared object may be at a place outside `S`. -/
theorem share (h : Exclusive S target) (hs : ¬ S s) (hr : ¬ S r) (hp : target r = some p) :
    Exclusive S (Function.update target s (some p)) := by
  intro x x' q hS hx hx'
  have hxs : x ≠ s := by
    rintro rfl
    exact hs hS
  rw [Function.update_of_ne hxs] at hx
  have hqp : q ≠ p := by
    rintro rfl
    exact hr (h x r q hS hx hp ▸ hS)
  have hxs' : x' ≠ s := by
    rintro rfl
    rw [Function.update_self] at hx'
    exact hqp (Option.some.inj hx').symm
  rw [Function.update_of_ne hxs'] at hx'
  exact h x x' q hS hx hx'

end Exclusive

section Shares

variable (S : σ → Prop) [DecidablePred S]

/-- The number of places outside `S` that refer to `p`. -/
def shares (target : σ → Option π) (p : π) : Nat :=
  references (fun s => if S s then none else target s) p

omit [DecidableEq σ]

variable {S}

theorem shares_le (target : σ → Option π) (p : π) : shares S target p ≤ references target p := by
  apply Finset.card_le_card
  intro s hs
  simp only [Finset.mem_filter, Finset.mem_univ, true_and] at hs ⊢
  split at hs
  · simp at hs
  · exact hs

theorem shares_congr {target' : σ → Option π} (h : ∀ s, ¬ S s → target' s = target s) (p : π) :
    shares S target' p = shares S target p := by
  unfold shares
  congr 1
  funext s
  split
  · rfl
  · next hs => exact h s hs

/-- An object with a reference from outside `S` has no other references. -/
theorem Exclusive.references_eq_shares (h : Exclusive S target) (hr : ¬ S r)
    (hp : target r = some p) : references target p = shares S target p := by
  apply references_congr
  intro s
  split
  · next hs => simpa using fun hsp => hr (h s r p hs hsp hp ▸ hs)
  · rfl

theorem shares_update [DecidableEq σ] (target : σ → Option π) (hs : ¬ S s) (o : Option π) (p : π) :
    shares S (Function.update target s o) p + (if target s = some p then 1 else 0)
      = shares S target p + (if o = some p then 1 else 0) := by
  have heq : (fun r => if S r then none else Function.update target s o r)
      = Function.update (fun r => if S r then none else target r) s o := by
    funext r
    by_cases hrs : r = s
    · subst hrs
      simp [hs]
    · simp [hrs]
  have := references_update (fun r => if S r then none else target r) s o p
  rw [shares, shares, heq]
  simpa [hs] using this

end Shares

end DamnOS.Framework
