import Mathlib

/-!
# Programs that fail in place

A program over `EStateM` either returns or stops with an exception, and keeps the state it
reached in both cases.  A contract says what its runs may do to that state: a history that only
grows, a way for the history to become useless, and the moves a run is made of.
-/

namespace DamnOS.Framework

universe u
variable {ε σ : Type u} {α β : Type u}

/-- The state a run ends in, whether it returns or stops. -/
def final (m : EStateM ε σ α) (s : σ) : σ :=
  match m s with
  | .ok _ t => t
  | .error _ t => t

theorem final_ok {m : EStateM ε σ α} {s t : σ} {a : α} (h : m s = .ok a t) : final m s = t := by
  rw [final, h]

theorem final_error {m : EStateM ε σ α} {s t : σ} {e : ε} (h : m s = .error e t) :
    final m s = t := by
  rw [final, h]

def returns (m : EStateM ε σ α) (s : σ) : Bool :=
  match m s with
  | .ok _ _ => true
  | .error _ _ => false

theorem eq_ok_of_returns {m : EStateM ε σ PUnit} {s : σ} (h : returns m s = true) :
    m s = .ok ⟨⟩ (final m s) := by
  unfold returns at h
  cases hr : m s with
  | ok a t => rw [final_ok hr]
  | error e t =>
    rw [hr] at h
    cases h

def value (m : EStateM ε σ α) (s : σ) : Option α :=
  match m s with
  | .ok a _ => some a
  | .error _ _ => none

theorem eq_ok_of_value {m : EStateM ε σ α} {s : σ} {a : α} (h : value m s = some a) :
    m s = .ok a (final m s) := by
  unfold value at h
  cases hr : m s with
  | ok b t =>
    rw [hr] at h
    cases h
    rw [final_ok hr]
  | error e t =>
    rw [hr] at h
    cases h

/-- What a run replies: its value or its exception. -/
def reply (m : EStateM ε σ α) (s : σ) : Except ε α :=
  match m s with
  | .ok a _ => .ok a
  | .error e _ => .error e

theorem reply_ok {m : EStateM ε σ α} {s t : σ} {a : α} (h : m s = .ok a t) : reply m s = .ok a := by
  rw [reply, h]

theorem reply_error {m : EStateM ε σ α} {s t : σ} {e : ε} (h : m s = .error e t) :
    reply m s = .error e := by
  rw [reply, h]

theorem eq_error_of_reply {m : EStateM ε σ α} {s : σ} {e : ε} (h : reply m s = .error e) :
    m s = .error e (final m s) := by
  unfold reply at h
  cases hr : m s with
  | ok a t =>
    rw [hr] at h
    cases h
  | error x t =>
    rw [hr] at h
    cases h
    rw [final_error hr]

@[simp] theorem pure_run (a : α) (s : σ) : (pure a : EStateM ε σ α) s = .ok a s := rfl

@[simp] theorem get_run (s : σ) : (get : EStateM ε σ σ) s = .ok s s := rfl

@[simp] theorem modify_run (f : σ → σ) (s : σ) :
    (modify f : EStateM ε σ PUnit) s = .ok ⟨⟩ (f s) := rfl

theorem bind_ok {m : EStateM ε σ α} {f : α → EStateM ε σ β} {s t : σ} {a : α}
    (h : m s = .ok a t) : (m >>= f) s = f a t := by
  change EStateM.bind m f s = _
  simp only [EStateM.bind, h]

theorem bind_error {m : EStateM ε σ α} {f : α → EStateM ε σ β} {s t : σ} {e : ε}
    (h : m s = .error e t) : (m >>= f) s = .error e t := by
  change EStateM.bind m f s = _
  simp only [EStateM.bind, h]

theorem bind_eq_ok {m : EStateM ε σ α} {f : α → EStateM ε σ β} {s u : σ} {b : β}
    (h : (m >>= f) s = .ok b u) : ∃ a t, m s = .ok a t ∧ f a t = .ok b u := by
  cases hr : m s with
  | ok a t =>
    rw [bind_ok hr] at h
    exact ⟨a, t, rfl, h⟩
  | error e t =>
    rw [bind_error hr] at h
    cases h

theorem bind_congr_run {m n : EStateM ε σ α} {f : α → EStateM ε σ β} {s t : σ} (h : m s = n t) :
    (m >>= f) s = (n >>= f) t := by
  cases hr : n t with
  | ok a u => rw [bind_ok (h.trans hr), bind_ok hr]
  | error e u => rw [bind_error (h.trans hr), bind_error hr]

theorem final_congr {m : EStateM ε σ α} {n : EStateM ε σ α} {s t : σ} (h : m s = n t) :
    final m s = final n t := by
  rw [final, final, h]

theorem final_bind_pure (m : EStateM ε σ α) (b : β) (s : σ) :
    final (m >>= fun _ => pure b) s = final m s := by
  cases hr : m s with
  | ok a t => rw [final_ok hr, final_ok ((bind_ok hr).trans (pure_run b t))]
  | error e t => rw [final_error hr, final_error (bind_error hr)]

/-- Every run of `m`, returning or not, relates its two ends.  Instances follow the program text. -/
class Keeps (R : σ → σ → Prop) (m : EStateM ε σ α) : Prop where
  final : ∀ s, R s (final m s)

namespace Keeps

variable {R : σ → σ → Prop} {m m' : EStateM ε σ α}

theorem of_ok [hk : Keeps R m] {s t : σ} {a : α} (h : m s = .ok a t) : R s t := by
  have hf := hk.final s
  rwa [final_ok h] at hf

theorem of_error [hk : Keeps R m] {s t : σ} {e : ε} (h : m s = .error e t) : R s t := by
  have hf := hk.final s
  rwa [final_error h] at hf

variable [IsPreorder σ R]

instance ret (a : α) : Keeps R (pure a : EStateM ε σ α) := ⟨fun s => refl_of R s⟩

instance stop (e : ε) : Keeps R (throw e : EStateM ε σ α) := ⟨fun s => refl_of R s⟩

instance look : Keeps R (get : EStateM ε σ σ) := ⟨fun s => refl_of R s⟩

omit [IsPreorder σ R] in
theorem change {g : σ → σ} (hg : ∀ s, R s (g s)) : Keeps R (modify g : EStateM ε σ PUnit) := ⟨hg⟩

instance bind {f : α → EStateM ε σ β} [hm : Keeps R m] [hf : ∀ a, Keeps R (f a)] :
    Keeps R (m >>= f) where
  final s := by
    have h := hm.final s
    cases hr : m s with
    | ok a t =>
      rw [final_ok hr] at h
      have hg := trans_of R h ((hf a).final t)
      simpa only [Framework.final, bind_ok hr] using hg
    | error e t =>
      rw [final_error hr] at h
      simpa only [Framework.final, bind_error hr] using h

theorem andThen {f : α → EStateM ε σ β} [Keeps R m] (hf : ∀ a, Keeps R (f a)) :
    Keeps R (m >>= f) :=
  bind

theorem bindOf {f : α → EStateM ε σ β} {P : α → Prop} [Keeps R m] (hP : ∀ s a t, m s = .ok a t → P a)
    (hf : ∀ a, P a → Keeps R (f a)) : Keeps R (m >>= f) where
  final s := by
    cases hr : m s with
    | ok a t =>
      rw [final_congr (bind_ok hr)]
      exact trans_of R (of_ok hr) ((hf a (hP s a t hr)).final t)
    | error e t =>
      rw [final_error (bind_error hr)]
      exact of_error hr

omit [IsPreorder σ R] in
instance ite {c : Prop} [Decidable c] [ht : Keeps R m] [hf : Keeps R m'] :
    Keeps R (if c then m else m') := by
  by_cases h : c
  · rwa [if_pos h]
  · rwa [if_neg h]

instance forM {γ : Type u} (l : List γ) {body : γ → EStateM ε σ PUnit} [h : ∀ x, Keeps R (body x)] :
    Keeps R (l.forM body) := by
  induction l with
  | nil => exact ret _
  | cons x l ih => exact inferInstanceAs (Keeps R (body x >>= fun _ => l.forM body))

end Keeps

/-- What a run may do.  `Lost` marks the histories about which nothing is promised any more. -/
structure Contract (σ : Type u) where
  Grows : σ → σ → Prop
  Lost : σ → Prop
  Moves : σ → σ → Prop
  Inv : σ → Prop
  lost_grows : ∀ {s t}, Grows s t → Lost s → Lost t
  moves_refl : ∀ s, Moves s s
  moves_trans : ∀ {s t r}, Moves s t → Moves t r → Moves s r
  moves_inv : ∀ {s t}, Moves s t → Inv s → Inv t

/-- A run of `m` from a state with `P` only moves, and returns only with `Q`; unless the history
got lost on the way. -/
def Spec (C : Contract σ) (P : σ → Prop) (m : EStateM ε σ α) (Q : α → σ → Prop) : Prop :=
  ∀ s, C.Inv s → P s → C.Lost (final m s) ∨
    C.Moves s (final m s) ∧ ∀ a t, m s = .ok a t → Q a t

namespace Spec

variable {C : Contract σ} {P P' : σ → Prop} {Q Q' : α → σ → Prop} {R : β → σ → Prop}
  {m m' : EStateM ε σ α} {f : α → EStateM ε σ β}

theorem conseq (h : Spec C P m Q) (hp : ∀ s, C.Inv s → P' s → P s)
    (hq : ∀ a s, C.Inv s → Q a s → Q' a s) : Spec C P' m Q' := by
  intro s hi hp'
  rcases h s hi (hp s hi hp') with hl | ⟨hm, hpost⟩
  · exact Or.inl hl
  · refine Or.inr ⟨hm, fun a t hr => hq a t ?_ (hpost a t hr)⟩
    rw [final_ok hr] at hm
    exact C.moves_inv hm hi

theorem pre (h : Spec C P m Q) (hp : ∀ s, C.Inv s → P' s → P s) : Spec C P' m Q :=
  h.conseq hp fun _ _ _ hq => hq

theorem post (h : Spec C P m Q) (hq : ∀ a s, C.Inv s → Q a s → Q' a s) : Spec C P m Q' :=
  h.conseq (fun _ _ hp => hp) hq

theorem assume {p : Prop} (h : p → Spec C P m Q) : Spec C (fun s => p ∧ P s) m Q :=
  fun s hi hp => h hp.1 s hi hp.2

theorem given {p : Prop} (h : p → Spec C (fun _ => True) m Q) : Spec C (fun _ => p) m Q :=
  fun s hi hp => h hp s hi trivial

theorem unpack {ι : Sort*} {P : ι → σ → Prop} (h : ∀ k, Spec C (P k) m Q) :
    Spec C (fun s => ∃ k, P k s) m Q := by
  rintro s hi ⟨k, hp⟩
  exact h k s hi hp

theorem frame (h : Spec C P m Q) {F : σ → Prop}
    (hF : ∀ s t, C.Inv s → C.Moves s t → F s → F t) :
    Spec C (fun s => P s ∧ F s) m (fun a s => Q a s ∧ F s) := by
  intro s hi hp
  rcases h s hi hp.1 with hl | ⟨hm, hq⟩
  · exact Or.inl hl
  · refine Or.inr ⟨hm, fun a t hr => ⟨hq a t hr, ?_⟩⟩
    rw [final_ok hr] at hm
    exact hF s t hi hm hp.2

theorem keep {R : σ → σ → Prop} [hk : Keeps R m] {F : σ → Prop} (h : Spec C P m Q)
    (hF : ∀ s t, R s t → F s → F t) : Spec C (fun s => P s ∧ F s) m (fun a s => Q a s ∧ F s) := by
  intro s hi hp
  refine (h s hi hp.1).imp_right fun hm => ⟨hm.1, fun a t hr => ⟨hm.2 a t hr, ?_⟩⟩
  exact hF s t (Keeps.of_ok hr) hp.2

theorem exact {g : σ → σ} {v : σ → α}
    (h : ∀ s, C.Inv s → P s → m s = .ok (v s) (g s) ∧ C.Moves s (g s) ∧ Q (v s) (g s)) :
    Spec C P m Q := by
  intro s hi hp
  obtain ⟨hr, hm, hq⟩ := h s hi hp
  rw [final_ok hr]
  refine Or.inr ⟨hm, fun a t hr' => ?_⟩
  rw [hr] at hr'
  cases hr'
  exact hq

theorem ret (a : α) (h : ∀ s, C.Inv s → P s → Q a s) : Spec C P (pure a : EStateM ε σ α) Q :=
  exact fun s hi hp => ⟨pure_run a s, C.moves_refl s, h s hi hp⟩

theorem stop (e : ε) : Spec C P (throw e : EStateM ε σ α) Q :=
  fun s _ _ => Or.inr ⟨C.moves_refl s, fun _ _ hr => by cases hr⟩

theorem look : Spec C P (get : EStateM ε σ σ) (fun a s => a = s ∧ P s) :=
  exact fun s _ hp => ⟨get_run s, C.moves_refl s, rfl, hp⟩

theorem change {g : σ → σ} {Q : PUnit → σ → Prop}
    (h : ∀ s, C.Inv s → P s → C.Lost (g s) ∨ C.Moves s (g s) ∧ Q ⟨⟩ (g s)) :
    Spec C P (modify g : EStateM ε σ PUnit) Q := by
  intro s hi hp
  rcases h s hi hp with hl | ⟨hm, hq⟩
  · exact Or.inl hl
  · refine Or.inr ⟨hm, fun a t hr => ?_⟩
    cases hr
    exact hq

theorem seq (hg : ∀ a, Keeps C.Grows (f a)) (h : Spec C P m Q) (hf : ∀ a, Spec C (Q a) (f a) R) :
    Spec C P (m >>= f) R := by
  intro s hi hp
  have hpost := h s hi hp
  cases hr : m s with
  | ok a t =>
    rw [final_ok hr] at hpost
    have he : final (m >>= f) s = final (f a) t := by simp only [final, bind_ok hr]
    rw [he, bind_ok hr]
    rcases hpost with hl | ⟨hm, hq⟩
    · exact Or.inl (C.lost_grows ((hg a).final t) hl)
    · rcases hf a t (C.moves_inv hm hi) (hq a t hr) with hl | ⟨hm', hq'⟩
      · exact Or.inl hl
      · exact Or.inr ⟨C.moves_trans hm hm', hq'⟩
  | error e t =>
    rw [final_error hr] at hpost
    have he : final (m >>= f) s = t := by simp only [final, bind_error hr]
    rw [he, bind_error hr]
    rcases hpost with hl | ⟨hm, _⟩
    · exact Or.inl hl
    · exact Or.inr ⟨hm, fun _ _ hr => by cases hr⟩

theorem bind [hg : ∀ a, Keeps C.Grows (f a)] (h : Spec C P m Q) (hf : ∀ a, Spec C (Q a) (f a) R) :
    Spec C P (m >>= f) R :=
  seq hg h hf

theorem ite {c : Prop} [Decidable c] (ht : c → Spec C P m Q) (hf : ¬c → Spec C P m' Q) :
    Spec C P (if c then m else m') Q := by
  by_cases h : c
  · rw [if_pos h]
    exact ht h
  · rw [if_neg h]
    exact hf h

theorem forM [IsPreorder σ C.Grows] {γ : Type u} (l : List γ) (body : γ → EStateM ε σ PUnit)
    [∀ x, Keeps C.Grows (body x)] (h : ∀ x ∈ l, Spec C P (body x) (fun _ => P)) :
    Spec C P (l.forM body) (fun _ => P) := by
  induction l with
  | nil => exact ret _ fun _ _ hp => hp
  | cons x l ih =>
    have hx := h x (by simp)
    have hl := ih fun y hy => h y (by simp [hy])
    exact hx.bind fun _ => hl

end Spec

end DamnOS.Framework
