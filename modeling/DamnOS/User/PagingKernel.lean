import DamnOS.User.FaultCheck
import DamnOS.User.Pages

/-!
# The pages of programs and the kernel

The system calls of the kernel do what a program sees of them: from a state whose books are in order, each call is
one of the answers that are left open, up to the numbering of the physical pages.
-/

namespace DamnOS.User

open DamnOS.Framework DamnOS.Kernel

/-- What the environments map, with the pages renamed: the rights are the low bits of the entries, and bytes are
those of the words in memory. -/
structure Depicts (s : System) (σ : Paging) (name : Nat → Nat) : Prop where
  maps : ∀ e n, (σ.maps e n).map (fun x => (x.1, x.2.val.toNat)) =
    (s.view e n).map fun w => (name (pageOf w), w % 4096)
  inj : ∀ e n w i k v, s.view e n = some w → s.view i k = some v → name (pageOf w) = name (pageOf v) →
    pageOf w = pageOf v
  data : ∀ e n w k, s.view e n = some w → k < PGSIZE →
    σ.data (name (pageOf w)) k = leByte (s.pmap.mem (pageOf w) (k / 4)) (k % 4)

private theorem entry_mod {p : Nat} {perm : BitVec 32} (h : permValid perm.toNat = true) :
    entry p perm.toNat % 4096 = perm.toNat := by
  have hlt := permValid_lt h
  have hbit : perm.toNat ||| PTE_P = perm.toNat := by
    simp only [permValid, Bool.and_eq_true, decide_eq_true_eq] at h
    apply Nat.eq_of_testBit_eq
    intro i
    rw [Nat.testBit_or, show PTE_P = 2 ^ 0 from rfl, Nat.testBit_two_pow]
    by_cases hi : 0 = i
    · subst hi
      have hone : perm.toNat &&& 2 ^ 0 ≠ 0 := h.1.2
      rw [Nat.and_two_pow] at hone
      cases hb : perm.toNat.testBit 0 with
      | false =>
        rw [hb] at hone
        exact absurd rfl hone
      | true => simp
    · simp [hi]
  rw [entry_eq hlt, hbit]
  omega

theorem eq_page_of_pageAddr {va : BitVec 32} (hva : pageAddr va.toNat = true) : va.toNat = PGNUM va.toNat * PGSIZE := by
  simp only [pageAddr, Bool.and_eq_true, decide_eq_true_eq] at hva
  rw [PGNUM_eq, PGSIZE] at *
  omega

namespace Depicts

variable {M : Nat → Prop} {s t : System} {σ : Paging} {name : Nat → Nat} {c e src dst : Fin NENV} {n k w : Nat}
  {r : Int} {envid va perm srcenvid srcva dstenvid dstva : BitVec 32}

theorem of_some (h : Depicts s σ name) (hw : s.view e n = some w) :
    ∃ r : Rights, σ.maps e n = some (name (pageOf w), r) ∧ r.val.toNat = w % 4096 := by
  have hmaps := h.maps e n
  rw [hw, Option.map_some, Option.map_eq_some_iff] at hmaps
  obtain ⟨x, hx, he⟩ := hmaps
  obtain ⟨h1, h2⟩ := Prod.mk.inj he
  exact ⟨x.2, by rw [hx, ← h1], h2⟩

private theorem present_iff (h : Depicts s σ name) : σ.present e va = (s.view e (PGNUM va.toNat)).isSome := by
  have hmaps := congrArg Option.isSome (h.maps e (PGNUM va.toNat))
  rw [Option.isSome_map, Option.isSome_map] at hmaps
  exact hmaps

private theorem remapped (h : Depicts s σ name) {o : Option Nat} {τ : Paging} (hr : Remapped s t e n o)
    (hτ : ∀ i m, τ.maps i m = if i = e ∧ m = n then τ.maps e n else σ.maps i m) (hdata : τ.data = σ.data)
    (hself : (τ.maps e n).map (fun x => (x.1, x.2.val.toNat)) = o.map fun w => (name (pageOf w), w % 4096))
    (hold : ∀ w, o = some w → ∃ i m v, s.view i m = some v ∧ pageOf v = pageOf w) : Depicts t τ name := by
  -- a page that is mapped now was mapped before
  have hwas {i : Fin NENV} {m w : Nat} (hw : t.view i m = some w) :
      ∃ j l v, s.view j l = some v ∧ pageOf v = pageOf w := by
    rw [hr.view] at hw
    split at hw
    · exact hold w hw
    · exact ⟨i, m, w, hw, rfl⟩
  refine ⟨fun i m => ?_, fun i m w j l v hw hv hn => ?_, fun i m w k hw hk => ?_⟩
  · rw [hτ, hr.view]
    split
    · exact hself
    · exact h.maps i m
  · obtain ⟨i', m', w', hw', he⟩ := hwas hw
    obtain ⟨j', l', v', hv', he'⟩ := hwas hv
    rw [← he, ← he'] at hn ⊢
    exact h.inj _ _ _ _ _ _ hw' hv' hn
  · obtain ⟨i', m', w', hw', he⟩ := hwas hw
    rw [hdata, ← he, hr.data i' m' w' hw']
    exact h.data i' m' w' k hw' hk

private theorem unmap_empty (h : Depicts s σ name) (hn : s.view e n = none) :
    Depicts s { σ with toSpaces := σ.unmap e n } name := by
  refine ⟨fun i m => ?_, h.inj, h.data⟩
  simp only [Spaces.maps_unmap]
  split
  · next hm =>
    obtain ⟨rfl, rfl⟩ := hm
    rw [hn]
    rfl
  · exact h.maps i m

theorem of_sysPageUnmap (h : Depicts s σ name) (ha : Accounted M s) (he : s.envid2env c envid true = some e)
    (hplace : pageAddr va.toNat = true → ¬s.HasTable e va.toNat ∨ ∃ w, s.view e (PGNUM va.toNat) = some w)
    (ho : s.sysPageUnmap c envid va = .returns r t) :
    (σ.sysPageUnmap e va).1 = r ∧ Depicts t (σ.sysPageUnmap e va).2 name := by
  by_cases hva : pageAddr va.toNat = true
  · have hpage := eq_page_of_pageAddr hva
    rcases hplace hva with hmissing | ⟨w, hw⟩
    · have h0 := not_not.mp hmissing
      have hret : s.sysPageUnmap c envid va = .returns 0 s := by
        simp [System.sysPageUnmap, he, hva, Pmap.pageRemove, Pmap.pageLookup_missing h0]
      have hempty : s.view e (PGNUM va.toNat) = none := by
        by_contra hsome
        obtain ⟨w, hw⟩ := Option.ne_none_iff_exists'.mp hsome
        obtain ⟨-, -, hmap⟩ := view_eq_some hw
        obtain ⟨hpde, -, -⟩ := Pmap.mapping_eq_some.mp hmap
        rw [← hpage, h0] at hpde
        exact hpde (Nat.zero_and _)
      rw [hret] at ho
      obtain ⟨rfl, rfl⟩ := Outcome.returns.inj ho
      rw [sysPageUnmap_eq hva]
      exact ⟨rfl, h.unmap_empty hempty⟩
    have hr : r = 0 := by
      simp only [System.sysPageUnmap, he, hva] at ho
      cases hm : s.pmap.pageRemove (s.envs e).pgdir va.toNat with
      | none => simp [hm] at ho
      | some m =>
        simp only [hm, Bool.not_true, Bool.false_eq_true, if_false, Outcome.returns.injEq] at ho
        exact ho.1.symm
    have hremaps := ha.sysPageUnmap he hpage hw ho (by omega)
    rw [sysPageUnmap_eq hva]
    refine ⟨hr.symm, h.remapped hremaps.toRemapped (fun i m => ?_) rfl ?_ fun w hw => by cases hw⟩
    · simp
    · simp
  · have hret : s.sysPageUnmap c envid va = .returns (-E_INVAL) s := by
      simp [System.sysPageUnmap, he, hva]
    rw [hret] at ho
    obtain ⟨rfl, rfl⟩ := Outcome.returns.inj ho
    have hσ : σ.sysPageUnmap e va = (-E_INVAL, σ) := if_neg hva
    rw [hσ]
    exact ⟨rfl, h⟩

/-- `sys_page_map` of a mapped page, as long as its count has room. -/
theorem of_sysPageMap (h : Depicts s σ name) (ha : Accounted M s) (hc : s.Live c)
    (hsrc : s.envid2env c srcenvid true = some src) (hdst : s.envid2env c dstenvid true = some dst)
    (hsource : pageAddr srcva.toNat = true → pageAddr dstva.toNat = true → permValid perm.toNat = true →
      ∃ w, s.view src (PGNUM srcva.toNat) = some w ∧
        (s.pmap.ppRef (pageOf w) < 65535 ∨ (s.view dst (PGNUM dstva.toNat)).map pageOf = some (pageOf w)))
    (ho : s.sysPageMap c srcenvid srcva dstenvid dstva perm = .returns r t) :
    ∃ short τ, σ.sysPageMap short src srcva dst dstva perm = some (r, τ) ∧ Depicts t τ name := by
  by_cases hargs : (pageAddr srcva.toNat = true ∧ pageAddr dstva.toNat = true) ∧ permValid perm.toNat = true
  · obtain ⟨⟨hsva, hdva⟩, hperm⟩ := hargs
    obtain ⟨w, hw, hlt⟩ := hsource hsva hdva hperm
    have hpage {va : BitVec 32} (hva : pageAddr va.toNat = true) := eq_page_of_pageAddr hva
    have hn : PGNUM dstva.toNat < NUPAGE := by
      rw [PGNUM_eq]
      exact div_lt_NUPAGE (pageAddr_lt hdva)
    have hpresent : σ.present src srcva = true := by
      rw [h.present_iff, hw]
      rfl
    rcases sysPageMap_cases hsrc hdst (hpage hsva) (hpage hdva) hn hw hperm with ⟨-, hpanic⟩ | ⟨-, m, -, hret⟩ |
      ⟨-, hret⟩
    · rw [hpanic] at ho
      cases ho
    · -- the call succeeds
      rw [hret] at ho
      obtain ⟨rfl, rfl⟩ := Outcome.returns.inj ho
      obtain ⟨hremaps, -⟩ := ha.sysPageMap hc hsrc hdst (hpage hsva) (hpage hdva) hw hlt hret le_rfl
      obtain ⟨x, hx, -⟩ := h.of_some hw
      refine ⟨fun _ => false, _, sysPageMap_eq hsva hdva hpresent hperm, ?_⟩
      have hpg : pageOf (entry (pageOf w) perm.toNat) = pageOf w := by
        obtain ⟨-, -, hmap⟩ := view_eq_some hw
        refine pageOf_entry ?_ (permValid_lt hperm)
        rw [pageOf, pa2page_PTE_ADDR]
        exact Nat.mod_lt _ (by decide)
      refine h.remapped hremaps.toRemapped (fun i m => ?_) rfl ?_ fun v hv => ?_
      · simp
      · simp [hx, hpg, entry_mod hperm]
      · obtain rfl := Option.some.inj hv
        exact ⟨src, _, w, hw, hpg.symm⟩
    · -- there is no page for the page table
      rw [hret] at ho
      obtain ⟨rfl, rfl⟩ := Outcome.returns.inj ho
      refine ⟨fun _ => true, _, sysPageMap_eq hsva hdva hpresent hperm, ?_⟩
      exact ⟨h.maps, h.inj, h.data⟩
  · have hret : s.sysPageMap c srcenvid srcva dstenvid dstva perm = .returns (-E_INVAL) s := by
      simp only [System.sysPageMap, hsrc, hdst]
      refine if_pos ?_
      simp only [Bool.or_eq_true, Bool.not_eq_true']
      by_contra hno
      simp only [not_or, Bool.not_eq_false] at hno
      exact hargs hno
    rw [hret] at ho
    obtain ⟨rfl, rfl⟩ := Outcome.returns.inj ho
    exact ⟨fun _ => false, σ, sysPageMap_invalid hargs, h⟩

theorem alloc {q : Nat} (h : Depicts s σ name) (hperm : permValid perm.toNat = true) (hq : q < 2 ^ 20)
    (hfresh : ∀ i m w, s.view i m = some w → pageOf w ≠ q)
    (hr : Remapped s t e n (some (entry q perm.toNat))) (hzero : t.pmap.mem q = fun _ => 0) :
    Depicts t ⟨σ.alloc e n ⟨perm, hperm⟩ fun _ => 0, σ.calls + 1⟩ (Function.update name q σ.next) := by
  have hpage : pageOf (entry q perm.toNat) = q := pageOf_entry hq (permValid_lt hperm)
  have hname {i : Fin NENV} {m w : Nat} (hw : s.view i m = some w) :
      Function.update name q σ.next (pageOf w) = name (pageOf w) := Function.update_of_ne (hfresh i m w hw) _ _
  have hbelow {i : Fin NENV} {m w : Nat} (hw : s.view i m = some w) : name (pageOf w) < σ.next := by
    obtain ⟨r, hx, -⟩ := h.of_some hw
    exact σ.taken i m _ hx
  -- what is mapped now is the new page or was mapped before
  have hwas {i : Fin NENV} {m w : Nat} (hw : t.view i m = some w) : pageOf w = q ∨ s.view i m = some w := by
    rw [hr.view] at hw
    split at hw
    · obtain rfl := Option.some.inj hw
      exact .inl hpage
    · exact .inr hw
  refine ⟨fun i m => ?_, fun i m w j l v hw hv hn => ?_, fun i m w k hw hk => ?_⟩
  · rw [hr.view]
    change Option.map _ (if i = e ∧ m = n then _ else _) = _
    split
    · simp [hpage, entry_mod hperm]
    · rw [h.maps]
      cases hw : s.view i m with
      | none => rfl
      | some w => simp [hname hw]
  · rcases hwas hw with hw | hw
    · rcases hwas hv with hv | hv
      · rw [hw, hv]
      · rw [hw, Function.update_self, hname hv] at hn
        exact absurd (hbelow hv) (by rw [← hn]; exact lt_irrefl _)
    · rcases hwas hv with hv | hv
      · rw [hv, Function.update_self, hname hw] at hn
        exact absurd (hbelow hw) (by rw [hn]; exact lt_irrefl _)
      · rw [hname hw, hname hv] at hn
        exact h.inj _ _ _ _ _ _ hw hv hn
  · change Function.update σ.data σ.next (fun _ => 0) _ k = _
    rcases hwas hw with hw | hw
    · rw [hw, Function.update_self, Function.update_self, hzero]
      simp [leByte]
    · rw [hname hw, Function.update_of_ne (hbelow hw).ne, hr.data i m w hw]
      exact h.data i m w k hw hk

/-- `sys_page_alloc` with a page on the list.  Without one, `page_free(NULL)` writes to the program's page at
address 0. -/
theorem of_sysPageAlloc (h : Depicts s σ name) (ha : Accounted M s) (hc : s.Live c)
    (he : s.envid2env c envid true = some e) (hlist : s.pmap.pageFreeList ≠ none)
    (ho : s.sysPageAlloc c envid va perm = .returns r t) :
    ∃ short name' τ, σ.sysPageAlloc short e va perm = (r, τ) ∧ Depicts t τ name' := by
  by_cases hargs : pageAddr va.toNat = true ∧ permValid perm.toNat = true
  · obtain ⟨hva, hperm⟩ := hargs
    have hpage := eq_page_of_pageAddr hva
    obtain ⟨p, hp⟩ := Option.ne_none_iff_exists'.mp hlist
    rcases alloc_cases ha hc he hva hperm hp with ⟨-, -, hret⟩ | ⟨-, hpanic | ⟨u, hret⟩⟩
    · -- the page goes back to the list, filled with zeros
      rw [hret] at ho
      obtain ⟨rfl, rfl⟩ := Outcome.returns.inj ho
      refine ⟨fun _ => true, name, _, sysPageAlloc_eq hva hperm, ?_⟩
      have hview := view_zeroPage ha hp
      refine ⟨fun i m => ?_, fun i m w j l v hw hv => ?_, fun i m w k hw hk => ?_⟩
      · rw [hview]
        exact h.maps i m
      · rw [hview] at hw hv
        exact h.inj _ _ _ _ _ _ hw hv
      · rw [hview] at hw
        have hne : pageOf w ≠ p := by
          rintro rfl
          obtain ⟨_, hslot⟩ := target_of_view hw
          exact (ha.head hp).2.1 _ hslot
        have hmem : (s.pmap.zeroPage p).mem (pageOf w) = s.pmap.mem (pageOf w) := Function.update_of_ne hne _ _
        rw [hmem]
        exact h.data i m w k hw hk
    · rw [hpanic] at ho
      cases ho
    · rw [hret] at ho
      obtain ⟨rfl, rfl⟩ := Outcome.returns.inj ho
      obtain ⟨q, hq, -, hfresh, hremaps, hzero⟩ := ha.sysPageAlloc hc he hpage hret le_rfl
      exact ⟨fun _ => false, Function.update name q σ.next, _, sysPageAlloc_eq hva hperm,
        h.alloc hperm hq hfresh hremaps.toRemapped hzero⟩
  · have hret : s.sysPageAlloc c envid va perm = .returns (-E_INVAL) s := by
      simp only [System.sysPageAlloc, he]
      refine if_pos ?_
      simp only [Bool.or_eq_true, Bool.not_eq_true']
      by_contra hno
      simp only [not_or, Bool.not_eq_false] at hno
      exact hargs hno
    rw [hret] at ho
    obtain ⟨rfl, rfl⟩ := Outcome.returns.inj ho
    exact ⟨fun _ => false, name, σ, dif_neg hargs, h⟩

end Depicts

end DamnOS.User
