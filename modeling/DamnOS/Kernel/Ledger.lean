import DamnOS.Kernel.Tables
import DamnOS.Framework.References

/-!
# Reference counts and the free list

`pp_ref` counts the places that refer to a page, and a page is on the free list when no place does.
The places are abstract here.
-/

namespace DamnOS.Kernel

open DamnOS.Framework

universe u

/-- The pages of `M` are counted and listed for the references of `target`.  A page that
`sys_page_alloc` holds is off the list without a reference. -/
structure Ledger {σ : Type u} [Fintype σ] (M : Nat → Prop) (target : σ → Option Nat)
    (held : Option Nat) (m : Pmap) (xs : List Nat) : Prop where
  chain : Chain m.ppLink m.pageFreeList xs
  managed : ∀ p ∈ xs, M p
  count : ∀ p, M p → m.ppRef p = references target p
  bound : ∀ p, M p → references target p < 65536
  free : ∀ p, M p → (p ∈ xs ↔ references target p = 0 ∧ held ≠ some p)
  held_free : ∀ p, held = some p → M p ∧ references target p = 0

namespace Pmap

variable {m m' : Pmap} {p q : Nat}

private theorem incRef_pageDecref (hne : q ≠ p) (h : (m.incRef p).pageDecref q = some m') :
    ∃ u, m.pageDecref q = some u ∧ m' = u.incRef p := by
  have href : (m.incRef p).ppRef q = m.ppRef q := by simp [incRef, setRef, hne]
  have hset (n : Nat) : (m.incRef p).setRef q n = (m.setRef q n).incRef p := by
    simp only [incRef, setRef, Function.update_of_ne hne.symm]
    rw [Function.update_comm hne.symm]
  simp only [pageDecref, href, hset] at h ⊢
  have hval (n : Nat) : ((m.setRef q n).incRef p).ppRef q = (m.setRef q n).ppRef q := by
    simp [incRef, setRef, hne]
  rw [hval] at h
  generalize m.setRef q (m.ppRef q + 65535) = u at h hval ⊢
  split_ifs at h ⊢
  · unfold pageFree at h ⊢
    have hu : (u.incRef p).ppRef q = u.ppRef q := by simp [incRef, setRef, hne]
    rw [hu, show (u.incRef p).ppLink = u.ppLink by rfl] at h
    split_ifs at h ⊢
    exact ⟨_, rfl, (Option.some.inj h).symm⟩
  · exact ⟨u, rfl, (Option.some.inj h).symm⟩

theorem incRef_pageDecref_self (hpos : m.ppRef p ≠ 0) (hlt : m.ppRef p < 65536)
    (h : (m.incRef p).pageDecref p = some m') : m' = m := by
  have hback : ((m.ppRef p + 1) % 65536 + 65535) % 65536 = m.ppRef p := by omega
  have hset : (m.incRef p).setRef p ((m.incRef p).ppRef p + 65535) = m := by
    simp only [incRef, setRef, Function.update_self, Function.update_idem, hback,
      Function.update_eq_self]
  simp only [pageDecref, hset, if_neg hpos] at h
  exact (Option.some.inj h).symm

end Pmap

namespace Ledger

variable {σ : Type u} [Fintype σ] {M : Nat → Prop} {target : σ → Option Nat} {held : Option Nat}
  {m m' : Pmap} {xs : List Nat} {p q : Nat} {s : σ}

theorem congr (h : Ledger M target held m xs) (hr : m'.ppRef = m.ppRef) (hl : m'.ppLink = m.ppLink)
    (hf : m'.pageFreeList = m.pageFreeList) : Ledger M target held m' xs := by
  refine ⟨?_, h.managed, fun p hp => ?_, h.bound, h.free, h.held_free⟩
  · rw [hl, hf]
    exact h.chain
  · rw [hr]
    exact h.count p hp

theorem head (h : Ledger M target held m xs) (hq : m.pageFreeList = some q) :
    M q ∧ references target q = 0 ∧ held ≠ some q ∧
      ∃ ys, xs = q :: ys ∧ Chain (m.taken q).ppLink (m.taken q).pageFreeList ys := by
  obtain ⟨hchain, hmanaged, -, -, hfree, -⟩ := h
  cases xs with
  | nil => exact absurd (hchain.symm.trans hq) (by simp)
  | cons x ys =>
    obtain rfl : x = q := Option.some.inj (hchain.1.symm.trans hq)
    have hx := hmanaged x (by simp)
    obtain ⟨h0, hheld⟩ := (hfree x hx).mp (by simp)
    exact ⟨hx, h0, hheld, ys, rfl, hchain.pop⟩

theorem take (h : Ledger M target none m xs) (hq : m.pageFreeList = some q) :
    ∃ ys, Ledger M target (some q) (m.taken q) ys := by
  obtain ⟨hM, h0, -, ys, rfl, hchain⟩ := h.head hq
  have hnodup := List.nodup_cons.mp h.chain.nodup
  refine ⟨ys, hchain, fun p hp => h.managed p (by simp [hp]), h.count, h.bound, fun p hp => ?_, ?_⟩
  · have hold := h.free p hp
    simp only [List.mem_cons, ne_eq, reduceCtorEq, not_false_eq_true, and_true] at hold
    constructor
    · intro hy
      refine ⟨hold.mp (.inr hy), fun hpq => hnodup.1 ?_⟩
      rwa [Option.some.inj hpq]
    · rintro ⟨hz, hne⟩
      exact (hold.mpr hz).resolve_left fun hpq => hne (by rw [hpq])
  · rintro p hp
    obtain rfl := Option.some.inj hp
    exact ⟨hM, h0⟩

theorem giveBack (h : Ledger M target (some q) m xs) (hm : m.pageFree q = some m') :
    Ledger M target none m' (q :: xs) := by
  obtain ⟨hM, h0⟩ := h.held_free q rfl
  have hq : q ∉ xs := fun hq => ((h.free q hM).mp hq).2 rfl
  unfold Pmap.pageFree at hm
  split_ifs at hm
  rw [← Option.some.inj hm]
  refine ⟨h.chain.push hq, ?_, h.count, h.bound, fun p hp => ?_, fun p hp => by cases hp⟩
  · intro p hp
    rcases List.mem_cons.mp hp with rfl | hp
    · exact hM
    · exact h.managed p hp
  · simp only [List.mem_cons, ne_eq, reduceCtorEq, not_false_eq_true, and_true, h.free p hp]
    constructor
    · rintro (rfl | ⟨hz, -⟩)
      · exact h0
      · exact hz
    · intro hz
      by_cases hpq : p = q
      · exact .inl hpq
      · exact .inr ⟨hz, fun heq => hpq (Option.some.inj heq).symm⟩

variable [DecidableEq σ]

/-- A new reference to a page that has one already, or that is held. -/
theorem add (h : Ledger M target held m xs) (hs : target s = none) (hM : M p)
    (hp : (held = none ∧ references target p ≠ 0) ∨ held = some p)
    (hlt : references target p < 65535) :
    Ledger M (Function.update target s (some p)) none (m.incRef p) xs := by
  have hrefs (q : Nat) : references (Function.update target s (some p)) q
      = references target q + if q = p then 1 else 0 := by
    have := references_update target s (some p) q
    simp only [hs, reduceCtorEq, if_false, Nat.add_zero, Option.some.injEq] at this
    simpa only [eq_comm] using this
  refine ⟨h.chain, h.managed, fun q hq => ?_, fun q hq => ?_, fun q hq => ?_,
    fun p hp => by cases hp⟩
  · rw [hrefs]
    by_cases hqp : q = p
    · subst hqp
      simp only [Pmap.incRef, Pmap.setRef, Function.update_self, if_true, h.count q hq]
      exact Nat.mod_eq_of_lt (by omega)
    · simp only [Pmap.incRef, Pmap.setRef, Function.update_of_ne hqp, if_neg hqp]
      exact h.count q hq
  · rw [hrefs]
    have := h.bound q hq
    split
    · next hqp =>
      subst hqp
      omega
    · omega
  · rw [hrefs, h.free q hq]
    by_cases hqp : q = p
    · subst hqp
      simp only [if_true]
      rcases hp with ⟨-, hne⟩ | rfl
      · omega
      · simp
    · simp only [if_neg hqp, Nat.add_zero]
      rcases hp with ⟨rfl, -⟩ | rfl
      · rfl
      · simp only [Option.some.injEq, ne_eq, reduceCtorEq, not_false_eq_true, and_true]
        exact ⟨And.left, fun hz => ⟨hz, fun hpq => hqp hpq.symm⟩⟩

theorem adopt (h : Ledger M target held m xs) (hs : target s = none) (hq : m.pageFreeList = some q) :
    ∃ ys, Ledger M (Function.update target s (some q)) held ((m.taken q).incRef q) ys := by
  obtain ⟨hM, h0, hheld, ys, rfl, hchain⟩ := h.head hq
  have hnodup := List.nodup_cons.mp h.chain.nodup
  have hrefs (p : Nat) : references (Function.update target s (some q)) p
      = references target p + if p = q then 1 else 0 := by
    have := references_update target s (some q) p
    simp only [hs, reduceCtorEq, if_false, Nat.add_zero, Option.some.injEq] at this
    simpa only [eq_comm] using this
  have hother {p : Nat} (hpq : p ≠ q) :
      references (Function.update target s (some q)) p = references target p := by
    rw [hrefs, if_neg hpq, Nat.add_zero]
  have hself : references (Function.update target s (some q)) q = 1 := by
    rw [hrefs, if_pos rfl, h0]
  refine ⟨ys, hchain, fun p hp => h.managed p (by simp [hp]), fun p hp => ?_, fun p hp => ?_,
    fun p hp => ?_, fun p hp => ?_⟩
  · by_cases hpq : p = q
    · subst hpq
      rw [hself]
      simp [Pmap.incRef, Pmap.setRef, Pmap.taken, Pmap.zeroPage, h.count p hp, h0]
    · rw [hother hpq]
      simp only [Pmap.incRef, Pmap.setRef, Function.update_of_ne hpq]
      exact h.count p hp
  · by_cases hpq : p = q
    · subst hpq
      rw [hself]
      decide
    · rw [hother hpq]
      exact h.bound p hp
  · by_cases hpq : p = q
    · subst hpq
      rw [hself]
      simp [hnodup.1]
    · have hold := h.free p hp
      simp only [List.mem_cons, hpq, false_or] at hold
      rw [hother hpq]
      exact hold
  · have hpq : p ≠ q := by
      rintro rfl
      exact hheld hp
    rw [hother hpq]
    exact h.held_free p hp

theorem drop (h : Ledger M target held m xs) (hs : target s = some p) (hM : M p)
    (hm : m.pageDecref p = some m') :
    ∃ ys, Ledger M (Function.update target s none) held m' ys := by
  have hpos := references_pos hs
  have hbound := h.bound p hM
  have hrefs (q : Nat) : references (Function.update target s none) q + (if q = p then 1 else 0)
      = references target q := by
    have := references_update target s none q
    simp only [hs, reduceCtorEq, if_false, Nat.add_zero, Option.some.injEq] at this
    simpa only [eq_comm] using this
  have hother {q : Nat} (hqp : q ≠ p) :
      references (Function.update target s none) q = references target q := by
    have := hrefs q
    rwa [if_neg hqp, Nat.add_zero] at this
  have hself : references (Function.update target s none) p + 1 = references target p := by
    have := hrefs p
    rwa [if_pos rfl] at this
  have hheld : held ≠ some p := fun hh => by
    have := (h.held_free p hh).2
    omega
  have hcount : (m.ppRef p + 65535) % 65536 = references target p - 1 := by
    rw [h.count p hM]
    omega
  have hheld' (q : Nat) (hq : held = some q) :
      M q ∧ references (Function.update target s none) q = 0 := by
    have hqp : q ≠ p := by
      rintro rfl
      exact hheld hq
    rw [hother hqp]
    exact h.held_free q hq
  -- the new counts, whether or not the page is freed
  have hcounts (q : Nat) (hq : M q) : (m.setRef p (m.ppRef p + 65535)).ppRef q
      = references (Function.update target s none) q := by
    by_cases hqp : q = p
    · subst hqp
      simp only [Pmap.setRef, Function.update_self, hcount]
      omega
    · rw [hother hqp]
      simp only [Pmap.setRef, Function.update_of_ne hqp]
      exact h.count q hq
  have hbounds (q : Nat) (hq : M q) : references (Function.update target s none) q < 65536 := by
    have := hrefs q
    have := h.bound q hq
    omega
  have hpx : p ∉ xs := fun hx => by
    have := ((h.free p hM).mp hx).1
    omega
  have hfree {q : Nat} (hq : M q) (hqp : q ≠ p) :
      q ∈ xs ↔ references (Function.update target s none) q = 0 ∧ held ≠ some q := by
    rw [hother hqp]
    exact h.free q hq
  simp only [Pmap.pageDecref] at hm
  have hval : (m.setRef p (m.ppRef p + 65535)).ppRef p = references target p - 1 := by
    simp only [Pmap.setRef, Function.update_self, hcount]
  split_ifs at hm with hz
  · rw [hval] at hz
    unfold Pmap.pageFree at hm
    split_ifs at hm
    rw [← Option.some.inj hm]
    refine ⟨p :: xs, h.chain.push hpx, ?_, hcounts, hbounds, fun q hq => ?_, hheld'⟩
    · intro q hq
      rcases List.mem_cons.mp hq with rfl | hq
      · exact hM
      · exact h.managed q hq
    · by_cases hqp : q = p
      · subst hqp
        simp only [List.mem_cons, true_or, true_iff]
        exact ⟨by omega, hheld⟩
      · simp only [List.mem_cons, hqp, false_or]
        exact hfree hq hqp
  · rw [hval] at hz
    rw [← Option.some.inj hm]
    refine ⟨xs, h.chain, h.managed, hcounts, hbounds, fun q hq => ?_, hheld'⟩
    by_cases hqp : q = p
    · subst hqp
      simp only [hpx, false_iff, not_and]
      omega
    · exact hfree hq hqp

/-- A place that refers to `q` is made to refer to `p`; the new reference is counted first. -/
theorem redirect (h : Ledger M target held m xs) (hs : target s = some q) (hq : M q) (hM : M p)
    (hp : (held = none ∧ references target p ≠ 0) ∨ held = some p)
    (hlt : references target p < 65535 ∨ q = p)
    (hm : (m.incRef p).pageDecref q = some m') :
    ∃ ys, Ledger M (Function.update target s (some p)) none m' ys := by
  have hpos := references_pos hs
  by_cases hqp : q = p
  · subst hqp
    have hheld : held = none := by
      rcases hp with ⟨hn, -⟩ | hh
      · exact hn
      · have := (h.held_free q hh).2
        omega
    have hcount := h.count q hq
    have hbound := h.bound q hq
    rw [Pmap.incRef_pageDecref_self (by omega) (by omega) hm, ← hs, Function.update_eq_self]
    exact ⟨xs, hheld ▸ h⟩
  · obtain ⟨u, hu, rfl⟩ := Pmap.incRef_pageDecref hqp hm
    obtain ⟨ys, hdrop⟩ := h.drop hs hq hu
    have hrefs : references (Function.update target s none) p = references target p := by
      have := references_update target s none p
      simpa [hs, hqp] using this
    have hadd := hdrop.add (s := s) (p := p) (by simp) hM (by rwa [hrefs])
      (by rw [hrefs]; omega)
    rw [Function.update_idem] at hadd
    exact ⟨ys, hadd⟩

end Ledger

end DamnOS.Kernel
