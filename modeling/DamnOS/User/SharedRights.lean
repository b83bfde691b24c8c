import DamnOS.User.FaultIsolation

/-!
# The rights of shared pages

`fork` and `spawn` pass the pages that are marked with `PTE_SHARE` on to the child.  Both map them with all the
bits of `PTE_SYSCALL`, whatever the parent has.
-/

namespace DamnOS.User

open DamnOS.Framework DamnOS.Kernel

/-- The child has the page of `w` at page number `n`, with the same permissions. -/
def KeepsPage (t : System) (child : Fin NENV) (n w : Nat) : Prop :=
  ∃ w', t.view child n = some w' ∧ pageOf w' = pageOf w ∧ w' &&& PTE_SYSCALL = w &&& PTE_SYSCALL

/-- The child has every page that the parent had marked below page number `N`. -/
def KeepsShared (s t : System) (c child : Fin NENV) (N : Nat) : Prop :=
  ∀ n < N, ∀ w, s.view c n = some w → w &&& PTE_SHARE ≠ 0 → KeepsPage t child n w

/-- The parent has all the rights that can be given. -/
def AllRights (w : Nat) : Prop := w &&& PTE_SYSCALL = PTE_SYSCALL

instance : DecidablePred AllRights := fun _ => inferInstanceAs (Decidable (_ = _))

theorem AllRights.user {w : Nat} (h : AllRights w) : w &&& PTE_U ≠ 0 := by
  have hmask : PTE_U = PTE_SYSCALL &&& PTE_U := by decide
  have hand : w &&& PTE_U = PTE_SYSCALL &&& PTE_U := by
    rw [hmask, ← Nat.and_assoc, h]
    decide
  rw [hand]
  decide

/-- The entry that the child gets keeps the page exactly when the parent has all rights. -/
theorem keepsPage_shared {t : System} {child : Fin NENV} {n w : Nat}
    (h : t.view child n = some (entry (pageOf w) (PTE_SHARE ||| PTE_SYSCALL))) :
    KeepsPage t child n w ↔ AllRights w := by
  have hbits : entry (pageOf w) (PTE_SHARE ||| PTE_SYSCALL) &&& PTE_SYSCALL = PTE_SYSCALL := by
    rw [entry_and (by decide)]
    decide
  constructor
  · rintro ⟨w', hw', -, hsame⟩
    obtain rfl := Option.some.inj (h.symm.trans hw')
    rw [AllRights, ← hsame, hbits]
  · intro hall
    exact ⟨_, h, pageOf_entry (pageOf_lt w) (by decide), by rw [hbits, hall]⟩

theorem not_keepsPage {t : System} {child : Fin NENV} {n w : Nat} (h : t.view child n = none) :
    ¬ KeepsPage t child n w := by
  rintro ⟨w', hw', -⟩
  rw [h] at hw'
  cases hw'

/-- The state of `fork` when the pages below `k` are duplicated, as far as shared pages go. -/
structure ForkSharing (M : Nat → Prop) (s : System) (e child : Fin NENV) (k : Nat) (b : System) : Prop where
  accounted : Accounted M b
  envs : b.envs = s.envs
  view : ∀ n, k ≤ n → b.view e n = s.view e n
  refs : ∀ n w, k ≤ n → s.view e n = some w →
    b.pmap.ppRef (pageOf w) ≤ s.pmap.ppRef (pageOf w) + dups s e k (pageOf w)
  rest : ∀ n, k ≤ n → b.view child n = none
  shared : ∀ n < k, ∀ w, s.view e n = some w → w &&& PTE_SHARE ≠ 0 →
    b.view child n = if w &&& PTE_U ≠ 0 then some (entry (pageOf w) (PTE_SHARE ||| PTE_SYSCALL)) else none

section Fork

variable {M : Nat → Prop} {s t : System} {c e child : Fin NENV} {k : Nat} {envid upcall : BitVec 32}

private theorem forkPage_eq (hc : s.Live e) {n : Nat} (hn : n < NUPAGE) :
    forkPage e envid s n =
      (s.view e n).elim (some s) fun w => if w &&& PTE_U ≠ 0 then duppage e envid s n else some s := by
  unfold forkPage
  cases hw : s.view e n with
  | none =>
    refine if_neg fun hpresent => ?_
    rw [view_of_present hc hn hpresent.1 hpresent.2.1] at hw
    cases hw
  | some w =>
    obtain ⟨-, -, hmap⟩ := view_eq_some hw
    obtain ⟨hpde, -, hpte⟩ := Pmap.mapping_eq_some.mp hmap
    rw [uvpt_of_view hw]
    exact if_congr ⟨fun h => h.2.2, fun h => ⟨hpde, hpte, h⟩⟩ rfl rfl

theorem ForkSharing.forkPage {b : System} (h : ForkSharing M s e child k b) (hk : k < USTACKTOP / PGSIZE)
    (he : s.Live e) (hne : e ≠ child) (hid : s.envid2env e envid true = some child) (hroom : Roomy s e)
    (ht : forkPage e envid b k = some t) : ForkSharing M s e child (k + 1) t := by
  have hlive : b.Live e := by
    rw [System.Live, h.envs]
    exact he
  have hsame := h.view k le_rfl
  have hmono (n w : Nat) (hn : k + 1 ≤ n) (hw : s.view e n = some w) :
      b.pmap.ppRef (pageOf w) ≤ s.pmap.ppRef (pageOf w) + dups s e (k + 1) (pageOf w) :=
    (h.refs n w (by omega) hw).trans (Nat.add_le_add_left (dups_succ s e k _) _)
  rw [forkPage_eq hlive (USTACKTOP_div_lt hk), hsame] at ht
  cases hw : s.view e k with
  | none =>
    rw [hw] at ht
    obtain rfl : b = t := Option.some.inj ht
    refine ⟨h.accounted, h.envs, fun n hn => h.view n (by omega), hmono, fun n hn => h.rest n (by omega), ?_⟩
    intro n hn w' hw' hshare
    rcases Nat.lt_succ_iff_lt_or_eq.mp hn with hlt | rfl
    · exact h.shared n hlt w' hw' hshare
    · rw [hw] at hw'
      cases hw'
  | some w =>
    rw [hw, Option.elim_some] at ht
    by_cases hU : w &&& PTE_U ≠ 0
    · rw [if_pos hU] at ht
      have hlt : b.pmap.ppRef (pageOf w) < 65535 := by
        have h1 := h.refs k w le_rfl hw
        have h2 := hroom k w hk hw hU
        have h3 := dups_mono s e (pageOf w) (show k + 1 ≤ USTACKTOP / PGSIZE from hk)
        rw [dups_succ_of_view hw hU] at h3
        omega
      obtain ⟨hacc, hdup, hshared⟩ := duplicated_duppage h.accounted hlive hne
        ((envid2env_congr h.envs e envid true).trans hid) (hsame.trans hw) hlt ht
      have hview (n : Nat) (hn : k + 1 ≤ n) : t.view e n = s.view e n :=
        (hdup.view n (by omega)).trans (h.view n (by omega))
      refine ⟨hacc, hdup.envs.trans h.envs, hview, fun n w' hn hw' => ?_, fun n hn => ?_,
        fun n hn w' hw' hshare => ?_⟩
      · have h1 := h.refs n w' (by omega) hw'
        have h2 := hdup.refs n (by omega) w' ((hview n hn).trans hw')
        split at h2
        · next hp =>
          rw [hp] at h1 h2 ⊢
          rw [dups_succ_of_view hw hU]
          omega
        · have h3 := dups_succ s e k (pageOf w')
          omega
      · rw [hdup.rest n (by omega)]
        exact h.rest n (by omega)
      · rcases Nat.lt_succ_iff_lt_or_eq.mp hn with hlt | rfl
        · rw [hdup.rest n (by omega)]
          exact h.shared n hlt w' hw' hshare
        · obtain rfl := Option.some.inj (hw.symm.trans hw')
          rw [if_pos hU]
          exact hshared hshare
    · rw [if_neg hU] at ht
      obtain rfl : b = t := Option.some.inj ht
      refine ⟨h.accounted, h.envs, fun n hn => h.view n (by omega), hmono, fun n hn => h.rest n (by omega), ?_⟩
      intro n hn w' hw' hshare
      rcases Nat.lt_succ_iff_lt_or_eq.mp hn with hlt | rfl
      · exact h.shared n hlt w' hw' hshare
      · obtain rfl := Option.some.inj (hw.symm.trans hw')
        rw [if_neg hU]
        exact h.rest n le_rfl

private theorem setPgfaultHandler_kept {installed : Bool} (h : Accounted M s) (hc : s.Live c)
    (ht : setPgfaultHandler s c installed upcall = some t) : Accounted M t ∧ t.Live c ∧
      (∀ n < USTACKTOP / PGSIZE, t.view c n = s.view c n) ∧ (Roomy s c → Roomy t c) := by
  unfold setPgfaultHandler at ht
  split at ht
  · obtain rfl := Option.some.inj ht
    exact ⟨h, hc, fun _ _ => rfl, id⟩
  · obtain ⟨u, hu, ht⟩ := Option.bind_eq_some_iff.mp ht
    obtain ⟨q, -, -, hr, hview, hroom⟩ := remaps_allocStack h hc (envid2env_zero s c true) (by decide) hu
    have hlive : u.Live c := by
      rw [System.Live, hr.envs]
      exact hc
    obtain ⟨hset, hlive'⟩ := unmapping_setUpcall hr.accounted hlive ht
    exact ⟨hset.accounted, hlive' c hlive, fun n hn => (hset.view c n).trans (hview c n hn),
      fun h => (hroom h).unmapping hset⟩

private theorem fork_shared {installed : Bool} {id : BitVec 32} (h : Accounted M s) (hc : s.Live c) (hroom : Roomy s c)
    (ht : fork s c installed upcall = some (id, t)) : ∀ n < USTACKTOP / PGSIZE, ∀ w, s.view c n = some w →
      w &&& PTE_SHARE ≠ 0 → t.view (ENVX id) n =
        if w &&& PTE_U ≠ 0 then some (entry (pageOf w) (PTE_SHARE ||| PTE_SYSCALL)) else none := by
  unfold fork at ht
  obtain ⟨s₁, hhandler, ht⟩ := Option.bind_eq_some_iff.mp ht
  obtain ⟨h₁, hc₁, hview₁, hroom₁⟩ := setPgfaultHandler_kept h hc hhandler
  split at ht
  · next r s₂ ho =>
    obtain ⟨s₅, hparent, ht⟩ := Option.bind_eq_some_iff.mp ht
    obtain ⟨rfl, rfl⟩ := Prod.mk.inj (Option.some.inj ht)
    rcases exofork_child h₁ hc₁ ho with ⟨hr, rfl⟩ | ⟨hne, hid, hu, -, henvs, hempty⟩
    · obtain ⟨xs, hxs⟩ := h₁.table
      rw [forkParent_none (envid2env_error hxs hr)] at hparent
      cases hparent
    have hc₂ : s₂.Live c := by
      rw [System.Live, henvs c hne]
      exact hc₁
    unfold forkParent at hparent
    obtain ⟨s₃, hloop, hparent⟩ := Option.bind_eq_some_iff.mp hparent
    obtain ⟨s₄, halloc, hparent⟩ := Option.bind_eq_some_iff.mp hparent
    obtain ⟨s₆, hupcall, hstatus⟩ := Option.bind_eq_some_iff.mp hparent
    have hshare := foldlM_range_invariant
      (I := ForkSharing M s₂ c (ENVX (BitVec.ofInt 32 r)))
      (fun k hk b b' hb hstep => hb.forkPage hk hc₂ hne hid ((hroom₁ hroom).unmapping hu) hstep)
      ⟨hu.accounted, rfl, fun _ _ => rfl, fun _ _ _ _ => Nat.le_add_right _ _, fun n _ => hempty n,
        fun _ hn => absurd hn (Nat.not_lt_zero _)⟩ hloop
    have hc₃ : s₃.Live c := by
      rw [System.Live, hshare.envs]
      exact hc₂
    obtain ⟨q, -, -, hr₄, hview₄, -⟩ := remaps_allocStack hshare.accounted hc₃
      ((envid2env_congr hshare.envs c _ true).trans hid) (by decide) halloc
    have hc₄ : s₄.Live c := by
      rw [System.Live, hr₄.envs]
      exact hc₃
    obtain ⟨hset, hlive⟩ := unmapping_setUpcall hr₄.accounted hc₄ hupcall
    obtain ⟨hset', -⟩ := unmapping_setStatus hset.accounted (hlive c hc₄) hstatus
    intro n hn w hw hmark
    rw [hset'.view, hset.view, hview₄ _ n hn]
    exact hshare.shared n hn w (by rw [hu.view, hview₁ n hn, hw]) hmark
  · cases ht

theorem fork_keepsShared_iff {installed : Bool} {id : BitVec 32} (h : Accounted M s) (hc : s.Live c)
    (hroom : Roomy s c) (ht : fork s c installed upcall = some (id, t)) :
    KeepsShared s t c (ENVX id) (USTACKTOP / PGSIZE) ↔
      ∀ n < USTACKTOP / PGSIZE, ∀ w, s.view c n = some w → w &&& PTE_SHARE ≠ 0 → AllRights w := by
  have hshared := fork_shared h hc hroom ht
  refine forall₂_congr fun n hn => forall₃_congr fun w hw hmark => ?_
  have hchild := hshared n hn w hw hmark
  by_cases hU : w &&& PTE_U ≠ 0
  · rw [if_pos hU] at hchild
    exact keepsPage_shared hchild
  · rw [if_neg hU] at hchild
    constructor
    · intro hkeeps
      exact absurd hkeeps (not_keepsPage hchild)
    · intro hall
      exact absurd hall.user hU

end Fork

end DamnOS.User
