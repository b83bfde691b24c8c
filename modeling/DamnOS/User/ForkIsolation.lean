import DamnOS.User.CopyOnWrite

/-!
# Forks and faults keep isolation

The functions of `fork.c` consist of steps that keep the invariant of a family.
-/

namespace DamnOS.User

open DamnOS.Framework DamnOS.Kernel

section Calls

variable {M : Nat → Prop} {s t : System} {c e : Fin NENV} {n w : Nat}

theorem succeeded_eq_some {o : Outcome} (h : succeeded o = some t) :
    ∃ r, o = .returns r t ∧ 0 ≤ r := by
  unfold succeeded at h
  split at h
  · split at h
    · next hr => exact ⟨_, by rw [Option.some.inj h], hr⟩
    · simp at h
  · simp at h

theorem envid2env_zero (s : System) (c : Fin NENV) (checkperm : Bool) :
    s.envid2env c 0 checkperm = some c := by
  simp [System.envid2env]

theorem envid2env_congr (h : t.envs = s.envs) (c : Fin NENV) (envid : BitVec 32) (checkperm : Bool) :
    t.envid2env c envid checkperm = s.envid2env c envid checkperm := by
  simp only [System.envid2env, h]

theorem toNat_pageArg (hn : n < NUPAGE) : (pageArg n).toNat = n * PGSIZE := by
  have hlt := page_lt_UTOP hn
  have hU : UTOP < 2 ^ 32 := by decide
  rw [pageArg, BitVec.toNat_ofNat]
  exact Nat.mod_eq_of_lt (by omega)

theorem uvpt_of_view (hw : s.view c n = some w) : uvpt s c n = w := by
  obtain ⟨-, -, hmap⟩ := view_eq_some hw
  exact (Pmap.mapping_eq_some.mp hmap).2.1

theorem view_of_present (hc : s.Live c) (hn : n < NUPAGE)
    (hd : uvpd s c (PDX (n * PGSIZE)) &&& PTE_P ≠ 0) (ht : uvpt s c n &&& PTE_P ≠ 0) :
    s.view c n = some (uvpt s c n) := by
  rw [view_eq hc hn]
  exact Pmap.mapping_eq_some.mpr ⟨hd, rfl, ht⟩

theorem pageOf_lt (w : Nat) : pageOf w < 2 ^ 20 := by
  rw [pageOf, pa2page_PTE_ADDR]
  exact Nat.mod_lt _ (by decide)

theorem USTACKTOP_div_lt (hn : n < USTACKTOP / PGSIZE) : n < NUPAGE := by
  have hlt : USTACKTOP / PGSIZE < NUPAGE := by decide
  omega

theorem private_entry (p perm : Nat) : Private (entry p perm) ↔ Private (perm ||| PTE_P) := by
  simp only [Private, entry_and (show PTE_W < 4096 by decide),
    entry_and (show PTE_SHARE < 4096 by decide)]

theorem unshared_entry (p perm : Nat) : Unshared (entry p perm) ↔ Unshared (perm ||| PTE_P) := by
  simp only [Unshared, entry_and (show PTE_U < 4096 by decide),
    entry_and (show PTE_W < 4096 by decide), entry_and (show PTE_COW < 4096 by decide),
    entry_and (show PTE_SHARE < 4096 by decide)]

/-- A successful `sys_page_map` of one's own page to the same address. -/
theorem remaps_map {dst : Fin NENV} {envid : BitVec 32} {perm : Nat} (h : Accounted M s)
    (hc : s.Live c) (hdst : s.envid2env c envid true = some dst) (hw : s.view c n = some w)
    (hperm : perm < 4096)
    (hlt : s.pmap.ppRef (pageOf w) < 65535 ∨ (s.view dst n).map pageOf = some (pageOf w))
    (ht : succeeded (s.sysPageMap c 0 (pageArg n) envid (pageArg n) (permArg perm)) = some t) :
    Remaps M s t dst n (some (entry (pageOf w) perm)) := by
  obtain ⟨r, ho, hr⟩ := succeeded_eq_some ht
  obtain ⟨-, hn, -⟩ := view_eq_some hw
  have hargs := toNat_pageArg hn
  have hpermArg : (permArg perm).toNat = perm := by
    rw [permArg, BitVec.toNat_ofNat]
    exact Nat.mod_eq_of_lt (by omega)
  have := (h.sysPageMap hc (envid2env_zero s c true) hdst hargs hargs hw hlt ho hr).1
  rwa [hpermArg] at this

private theorem duppage_cases {child : Fin NENV} {envid : BitVec 32} (h : Accounted M s) (hc : s.Live c)
    (hne : c ≠ child)
    (hid : s.envid2env c envid true = some child) (hw : s.view c n = some w)
    (hlt : s.pmap.ppRef (pageOf w) < 65535) (ht : duppage c envid s n = some t) :
    (w &&& PTE_SHARE ≠ 0 ∧ Remaps M s t child n (some (entry (pageOf w) (PTE_SHARE ||| PTE_SYSCALL)))) ∨
    (w &&& PTE_SHARE = 0 ∧ (w &&& PTE_W ≠ 0 ∨ w &&& PTE_COW ≠ 0) ∧
      ∃ u, Remaps M s u child n (some (entry (pageOf w) (PTE_COW ||| PTE_U ||| PTE_P))) ∧
        u.view c n = some w ∧ Remaps M u t c n (some (entry (pageOf w) (PTE_COW ||| PTE_U ||| PTE_P)))) ∨
    (w &&& PTE_SHARE = 0 ∧ ¬ (w &&& PTE_W ≠ 0 ∨ w &&& PTE_COW ≠ 0) ∧
      Remaps M s t child n (some (entry (pageOf w) (PTE_U ||| PTE_P)))) := by
  unfold User.duppage at ht
  rw [uvpt_of_view hw] at ht
  dsimp only at ht
  split at ht
  · next hshare => exact .inl ⟨hshare, remaps_map h hc hid hw (by decide) (.inl hlt) ht⟩
  · next hshare =>
    have hshare : w &&& PTE_SHARE = 0 := not_not.mp hshare
    split at ht
    · next hwc =>
      obtain ⟨u, hu, ht⟩ := Option.bind_eq_some_iff.mp ht
      have hr := remaps_map h hc hid hw (by decide) (.inl hlt) hu
      have hmid : u.view c n = some w := by
        rw [hr.view, if_neg fun hc => hne hc.1, hw]
      have hlive : u.Live c := by
        rw [System.Live, hr.envs]
        exact hc
      have hr' := remaps_map hr.accounted hlive (envid2env_zero u c true) hmid (by decide)
        (.inr (by rw [hmid, Option.map_some])) ht
      exact .inr (.inl ⟨hshare, hwc, u, hr, hmid, hr'⟩)
    · next hwc => exact .inr (.inr ⟨hshare, hwc, remaps_map h hc hid hw (by decide) (.inl hlt) ht⟩)

end Calls

/-- What one round of the loop of `fork` does to the other pages of the parent, to the counts of its
pages, and to what the child and the others can read. -/
structure Duplicated (s t : System) (e child : Fin NENV) (n p : Nat) : Prop where
  envs : t.envs = s.envs
  view : ∀ k ≠ n, t.view e k = s.view e k
  refs : ∀ k ≠ n, ∀ w, t.view e k = some w →
    t.pmap.ppRef (pageOf w) ≤ s.pmap.ppRef (pageOf w) + if pageOf w = p then 1 else 0
  kept : ∀ i ≠ child, StillReads s t i i
  rest : ∀ k ≠ n, t.view child k = s.view child k
  copied : ∀ w, s.view e n = some w → Unshared w → ∃ w', t.view child n = some w' ∧ Unshared w'

section Page

variable {M : Nat → Prop} {f : Family} {t : System} {e child : Fin NENV} {n w : Nat}
  {envid : BitVec 32}

private theorem duplicated_of_remaps {s : System} {perm : Nat} (hne : e ≠ child)
    (hw : s.view e n = some w) (hr : Remaps M s t child n (some (entry (pageOf w) perm)))
    (hperm : perm < 4096) (hun : Unshared w → Unshared (entry (pageOf w) perm)) :
    Duplicated s t e child n (pageOf w) := by
  refine ⟨hr.envs, fun k _ => ?_, fun k hk w' hw' => ?_, fun i hi => ?_, fun k hk => ?_,
    fun w' hw' hu => ?_⟩
  · rw [hr.view, if_neg fun hc => hne hc.1]
  · have := hr.refs e k w' hw'
    simp only [Option.map_some, pageOf_entry (pageOf_lt w) hperm, Option.some.injEq,
      eq_comm (a := pageOf w)] at this
    omega
  · exact .of_remaps hr fun _ hc => absurd hc hi
  · rw [hr.view, if_neg fun hc => hk hc.2]
  · obtain rfl := Option.some.inj (hw.symm.trans hw')
    exact ⟨_, by rw [hr.view, if_pos ⟨rfl, rfl⟩], hun hu⟩

/-- `duppage` on the side of the books; a shared page gets the same rights for every parent. -/
theorem duplicated_duppage {s : System} (h : Accounted M s) (hc : s.Live e) (hne : e ≠ child)
    (hid : s.envid2env e envid true = some child) (hw : s.view e n = some w)
    (hlt : s.pmap.ppRef (pageOf w) < 65535) (ht : duppage e envid s n = some t) :
    Accounted M t ∧ Duplicated s t e child n (pageOf w) ∧
      (w &&& PTE_SHARE ≠ 0 → t.view child n = some (entry (pageOf w) (PTE_SHARE ||| PTE_SYSCALL))) := by
  have hcases := duppage_cases h hc hne hid hw hlt ht
  rcases hcases with ⟨hshare, hr⟩ | ⟨hshare, -, u, hr, hmid, hr'⟩ | ⟨hshare, hwc, hr⟩
  · exact ⟨hr.accounted, duplicated_of_remaps hne hw hr (by decide) fun hu => absurd hu.2.2 hshare,
      fun _ => by rw [hr.view, if_pos ⟨rfl, rfl⟩]⟩
  · have hpage : pageOf (entry (pageOf w) (PTE_COW ||| PTE_U ||| PTE_P)) = pageOf w :=
      pageOf_entry (pageOf_lt w) (by decide)
    have hcow : Unshared (entry (pageOf w) (PTE_COW ||| PTE_U ||| PTE_P)) := by
      rw [unshared_entry]
      decide
    have hdup := duplicated_of_remaps hne hw hr (by decide) fun _ => hcow
    have hchild (k : Nat) : t.view child k = u.view child k := by
      rw [hr'.view, if_neg fun hc => hne hc.1.symm]
    refine ⟨hr'.accounted, ⟨hr'.envs.trans hr.envs, fun k hk => ?_, fun k hk w' hw' => ?_, fun i hi => ?_,
      fun k hk => (hchild k).trans (hdup.rest k hk), fun w' hw' hu => ?_⟩, fun hne => absurd hshare hne⟩
    · rw [hr'.view, if_neg fun hc => hk hc.2, hdup.view k hk]
    · have hold : u.view e k = some w' := by
        rwa [hr'.view, if_neg fun hc => hk hc.2] at hw'
      have h1 := hdup.refs k hk w' hold
      have h2 := hr'.refs e k w' hw'
      rw [hmid, Option.map_some, Option.map_some, hpage] at h2
      omega
    · exact (hdup.kept i hi).trans (.of_remaps hr' fun _ _ => ⟨_, rfl, hcow⟩)
    · rw [hchild]
      exact hdup.copied w' hw' hu
  · exact ⟨hr.accounted, duplicated_of_remaps hne hw hr (by decide) fun hu => absurd hu.2.1 hwc,
      fun hne => absurd hshare hne⟩

theorem Isolated.duppage (h : Isolated M f) (he : f.members e = true) (hne : e ≠ child)
    (hid : f.sys.envid2env e envid true = some child) (href : f.reference child = f.reference e)
    (hw : f.sys.view e n = some w) (hU : w &&& PTE_U ≠ 0)
    (hlt : f.sys.pmap.ppRef (pageOf w) < 65535) (ht : duppage e envid f.sys n = some t) :
    Isolated M { f with sys := t } ∧ Duplicated f.sys t e child n (pageOf w) := by
  obtain ⟨-, hdup, -⟩ := duplicated_duppage h.accounted (h.live e he) hne hid hw hlt ht
  refine ⟨?_, hdup⟩
  have hcases := duppage_cases h.accounted (h.live e he) hne hid hw hlt ht
  rcases hcases with ⟨hshare, hr⟩ | ⟨hshare, hwc, u, hr, -, hr'⟩ | ⟨hshare, hwc, hr⟩
  · refine h.share hne hw (fun hp => hshare hp.2) hr (pageOf_entry (pageOf_lt w) (by decide)) ?_ ?_
    · rw [private_entry]
      decide
    · rw [unshared_entry]
      decide
  · refine h.cow hne he href hw ⟨hU, hwc, hshare⟩ hr hr' (pageOf_entry (pageOf_lt w) (by decide)) ?_
    rw [private_entry]
    decide
  · refine h.share hne hw (fun hp => hwc (.inl hp.1)) hr (pageOf_entry (pageOf_lt w) (by decide)) ?_ ?_
    · rw [private_entry]
      decide
    · rw [unshared_entry]
      decide

end Page

section Loop

variable {M : Nat → Prop} {f : Family} {t : System} {e child : Fin NENV} {k l p w : Nat}
  {envid : BitVec 32}

theorem dups_succ (s : System) (e : Fin NENV) (k p : Nat) :
    dups s e k p ≤ dups s e (k + 1) p := by
  rw [dups, dups, List.range_succ, List.countP_append]
  exact Nat.le_add_right _ _

theorem dups_succ_of_view {s : System} (hw : s.view e k = some w) (hU : w &&& PTE_U ≠ 0) :
    dups s e (k + 1) (pageOf w) = dups s e k (pageOf w) + 1 := by
  rw [dups, dups, List.range_succ, List.countP_append]
  simp [hw, hU]

theorem dups_mono (s : System) (e : Fin NENV) (p : Nat) (hkl : k ≤ l) :
    dups s e k p ≤ dups s e l p := by
  induction hkl with
  | refl => exact Nat.le_refl _
  | step _ ih => exact ih.trans (dups_succ s e _ p)

/-- The state of `fork` when the pages below `k` are duplicated. -/
structure Copying (M : Nat → Prop) (f : Family) (e child : Fin NENV) (k : Nat) (b : System) : Prop where
  isolated : Isolated M { f with sys := b }
  envs : b.envs = f.sys.envs
  view : ∀ n, k ≤ n → b.view e n = f.sys.view e n
  refs : ∀ n w, k ≤ n → f.sys.view e n = some w →
    b.pmap.ppRef (pageOf w) ≤ f.sys.pmap.ppRef (pageOf w) + dups f.sys e k (pageOf w)
  kept : ∀ i ≠ child, StillReads f.sys b i i
  copied : ∀ n < k, ∀ w, f.sys.view e n = some w → Unshared w →
    ∃ w', b.view child n = some w' ∧ Unshared w'

theorem Copying.forkPage {b : System} (h : Copying M f e child k b) (hk : k < USTACKTOP / PGSIZE)
    (he : f.members e = true) (hne : e ≠ child)
    (hid : f.sys.envid2env e envid true = some child) (href : f.reference child = f.reference e)
    (hcount : ∀ n w, n < USTACKTOP / PGSIZE → f.sys.view e n = some w → w &&& PTE_U ≠ 0 →
      f.sys.pmap.ppRef (pageOf w) + dups f.sys e (USTACKTOP / PGSIZE) (pageOf w) ≤ 65535)
    (ht : forkPage e envid b k = some t) : Copying M f e child (k + 1) t := by
  unfold User.forkPage at ht
  split at ht
  · next hpresent =>
    obtain ⟨hdir, htp, hU⟩ := hpresent
    have hlive : b.Live e := h.isolated.live e he
    have hw := view_of_present hlive (USTACKTOP_div_lt hk) hdir htp
    generalize uvpt b e k = w at hw hU
    have hw₀ : f.sys.view e k = some w := (h.view k (Nat.le_refl k)).symm.trans hw
    have hdup := dups_succ_of_view hw₀ hU
    have hlt : b.pmap.ppRef (pageOf w) < 65535 := by
      have h1 := h.refs k w (Nat.le_refl k) hw₀
      have h2 := hcount k w hk hw₀ hU
      have h3 := dups_mono f.sys e (pageOf w) (show k + 1 ≤ USTACKTOP / PGSIZE from hk)
      omega
    obtain ⟨hiso, hd⟩ := h.isolated.duppage he hne
      ((envid2env_congr h.envs e envid true).trans hid) href hw hU hlt ht
    have hother {n : Nat} (hn : k + 1 ≤ n) : t.view e n = f.sys.view e n :=
      (hd.view n (by omega)).trans (h.view n (by omega))
    refine ⟨hiso, hd.envs.trans h.envs, fun n hn => hother hn, fun n w' hn hw' => ?_,
      fun i hi => (h.kept i hi).trans (hd.kept i hi), fun n hn w' hw' hu => ?_⟩
    · have h1 := h.refs n w' (by omega) hw'
      have h2 := hd.refs n (by omega) w' ((hother hn).trans hw')
      split at h2
      · next hp =>
        rw [hp] at h1 h2 ⊢
        exact h2.trans (by dsimp only; omega)
      · have h3 := dups_succ f.sys e k (pageOf w')
        exact h2.trans (by dsimp only; omega)
    · rcases Nat.lt_succ_iff_lt_or_eq.mp hn with hlt | rfl
      · rw [hd.rest n (by omega)]
        exact h.copied n hlt w' hw' hu
      · exact hd.copied w' ((h.view n (Nat.le_refl n)).trans hw') hu
  · next habsent =>
    obtain rfl := Option.some.inj ht
    refine ⟨h.isolated, h.envs, fun n hn => h.view n (by omega), fun n w hn hw => ?_, h.kept,
      fun n hn w hw hu => ?_⟩
    · exact (h.refs n w (by omega) hw).trans (Nat.add_le_add_left (dups_succ f.sys e k _) _)
    · rcases Nat.lt_succ_iff_lt_or_eq.mp hn with hlt | rfl
      · exact h.copied n hlt w hw hu
      · have hw' := (h.view n (Nat.le_refl n)).trans hw
        obtain ⟨-, -, hmap⟩ := view_eq_some hw'
        obtain ⟨hpde, -, hpte⟩ := Pmap.mapping_eq_some.mp hmap
        refine absurd ⟨hpde, ?_, ?_⟩ habsent
        · rw [uvpt_of_view hw']
          exact hpte
        · rw [uvpt_of_view hw']
          exact hu.1

private theorem Isolated.forkLoop (h : Isolated M f) (he : f.members e = true) (hne : e ≠ child)
    (hid : f.sys.envid2env e envid true = some child) (href : f.reference child = f.reference e)
    (hcount : ∀ n w, n < USTACKTOP / PGSIZE → f.sys.view e n = some w → w &&& PTE_U ≠ 0 →
      f.sys.pmap.ppRef (pageOf w) + dups f.sys e (USTACKTOP / PGSIZE) (pageOf w) ≤ 65535)
    (ht : (List.range (USTACKTOP / PGSIZE)).foldlM (forkPage e envid) f.sys = some t) :
    Copying M f e child (USTACKTOP / PGSIZE) t :=
  foldlM_range_invariant (I := Copying M f e child)
    (fun _ hk _ _ hb hstep => hb.forkPage hk he hne hid href hcount hstep)
    ⟨h, rfl, fun _ _ => rfl, fun _ _ _ _ => Nat.le_add_right _ _,
      fun _ _ => .of_view fun _ _ => rfl, fun _ hn => absurd hn (Nat.not_lt_zero _)⟩ ht

end Loop

/-- The condition under which the parent's pages can be duplicated. -/
def Roomy (s : System) (e : Fin NENV) : Prop :=
  ∀ n w, n < USTACKTOP / PGSIZE → s.view e n = some w → w &&& PTE_U ≠ 0 →
    s.pmap.ppRef (pageOf w) + dups s e (USTACKTOP / PGSIZE) (pageOf w) ≤ 65535

section Around

variable {M : Nat → Prop} {f : Family} {s t : System} {c e child : Fin NENV} {n : Nat}
  {envid va : BitVec 32}

private theorem dups_congr {k : Nat} (h : ∀ n < k, t.view e n = s.view e n) (p : Nat) :
    dups t e k p = dups s e k p := by
  rw [dups, dups]
  refine List.countP_congr fun n hn => ?_
  rw [h n (List.mem_range.mp hn)]

theorem Roomy.mono (h : Roomy s e) (hview : ∀ n < USTACKTOP / PGSIZE, t.view e n = s.view e n)
    (hrefs : ∀ n w, n < USTACKTOP / PGSIZE → s.view e n = some w →
      t.pmap.ppRef (pageOf w) ≤ s.pmap.ppRef (pageOf w)) : Roomy t e := by
  intro n w hn hw hU
  rw [hview n hn] at hw
  rw [dups_congr hview]
  exact (Nat.add_le_add_right (hrefs n w hn hw) _).trans (h n w hn hw hU)

theorem Roomy.unmapping (h : Roomy s e) (hu : Unmapping M s t) : Roomy t e :=
  h.mono (fun n _ => hu.view e n) fun n w _ hw => (hu.refs e n w hw).le

private theorem exceptionStack_page :
    (BitVec.ofNat 32 (UXSTACKTOP - PGSIZE)).toNat = (UXSTACKTOP - PGSIZE) / PGSIZE * PGSIZE ∧
      ¬ (UXSTACKTOP - PGSIZE) / PGSIZE < USTACKTOP / PGSIZE := by
  decide

theorem remaps_allocStack {perm : Nat} (h : Accounted M s) (hc : s.Live c)
    (he : s.envid2env c envid true = some e) (hperm : perm < 4096)
    (ht : succeeded (s.sysPageAlloc c envid (BitVec.ofNat 32 (UXSTACKTOP - PGSIZE)) (permArg perm)) = some t) :
    ∃ q < 2 ^ 20, (∀ i k w, s.view i k = some w → pageOf w ≠ q) ∧
      Remaps M s t e ((UXSTACKTOP - PGSIZE) / PGSIZE) (some (entry q perm)) ∧
      (∀ i, ∀ k < USTACKTOP / PGSIZE, t.view i k = s.view i k) ∧ (Roomy s e → Roomy t e) := by
  obtain ⟨hva, hout⟩ := exceptionStack_page
  obtain ⟨r, ho, hr⟩ := succeeded_eq_some ht
  obtain ⟨q, hq, -, hfresh, hr, -⟩ := h.sysPageAlloc hc he hva ho hr
  have hpermArg : (permArg perm).toNat = perm := by
    rw [permArg, BitVec.toNat_ofNat]
    exact Nat.mod_eq_of_lt (by omega)
  rw [hpermArg] at hr
  have hpage := pageOf_entry hq hperm
  have hview (i : Fin NENV) (k : Nat) (hk : k < USTACKTOP / PGSIZE) : t.view i k = s.view i k := by
    rw [hr.view, if_neg]
    rintro ⟨-, rfl⟩
    exact hout hk
  refine ⟨q, hq, hfresh, hr, hview, fun hroom => hroom.mono (hview e) fun k w hk hw => ?_⟩
  have hrefs := hr.refs e k w ((hview e k hk).trans hw)
  rw [Option.map_some, hpage, if_neg fun hq => hfresh e k w hw (Option.some.inj hq).symm] at hrefs
  omega

private theorem Isolated.allocStack {perm : Nat} (h : Isolated M f) (hc : f.sys.Live c)
    (he : f.sys.envid2env c envid true = some e) (hperm : perm < 4096)
    (ht : succeeded (f.sys.sysPageAlloc c envid (BitVec.ofNat 32 (UXSTACKTOP - PGSIZE))
      (permArg perm)) = some t) :
    Isolated M { f with sys := t } ∧ t.envs = f.sys.envs ∧ (Roomy f.sys e → Roomy t e) ∧
      ∀ i, StillReads f.sys t i i := by
  obtain ⟨-, hout⟩ := exceptionStack_page
  obtain ⟨q, hq, hfresh, hr, -, hroom⟩ := remaps_allocStack h.accounted hc he hperm ht
  exact ⟨h.alloc hr (pageOf_entry hq hperm) hfresh fun hin => hout hin.1, hr.envs, hroom,
    fun i => .of_remaps hr fun hin _ => absurd hin.1 hout⟩

private theorem unmapping_setEnv {v : Env} (h : Accounted M s) (he : s.Live e) (hl : v.link = (s.envs e).link)
    (hi : v.id = (s.envs e).id) (hg : v.pgdir = (s.envs e).pgdir) (hv : v.status ≠ .free) :
    Unmapping M s (s.setEnv e v) ∧ ∀ i, s.Live i → (s.setEnv e v).Live i := by
  refine ⟨h.setEnv hl hi hg ⟨fun _ => he, fun _ => hv⟩, fun i hi => ?_⟩
  by_cases hie : i = e
  · rw [System.Live, hie, System.setEnv_envs_self]
    exact hv
  · rwa [System.Live, System.setEnv_envs_of_ne _ hie]

theorem unmapping_setUpcall {upcall : BitVec 32} (h : Accounted M s) (hc : s.Live c)
    (ht : succeeded (s.sysEnvSetPgfaultUpcall c envid upcall) = some t) :
    Unmapping M s t ∧ ∀ i, s.Live i → t.Live i := by
  obtain ⟨r, ho, hr⟩ := succeeded_eq_some ht
  unfold System.sysEnvSetPgfaultUpcall at ho
  split at ho
  · cases ho
    simp [E_BAD_ENV] at hr
  · next e he =>
    split at ho
    · cases ho
      simp [E_INVAL] at hr
    · cases ho
      have hlive := live_of_envid2env he hc
      exact unmapping_setEnv h hlive rfl rfl rfl hlive

theorem unmapping_setStatus {status : BitVec 32} (h : Accounted M s) (hc : s.Live c)
    (ht : succeeded (s.sysEnvSetStatus c envid status) = some t) :
    Unmapping M s t ∧ ∀ i, s.Live i → t.Live i := by
  obtain ⟨r, ho, hr⟩ := succeeded_eq_some ht
  unfold System.sysEnvSetStatus at ho
  split at ho
  · cases ho
    simp [E_INVAL] at hr
  · split at ho
    · cases ho
      simp [E_BAD_ENV] at hr
    · next e he =>
      cases ho
      have hlive := live_of_envid2env he hc
      have hst : (if status = 2 then EnvStatus.runnable else EnvStatus.notRunnable) ≠ .free := by
        split
        · exact EnvStatus.noConfusion
        · exact EnvStatus.noConfusion
      generalize (if status = 2 then EnvStatus.runnable else EnvStatus.notRunnable) = st at hst
      exact unmapping_setEnv (v := { s.envs e with status := st }) h hlive rfl rfl rfl hst

private theorem Isolated.of_unmapping (h : Isolated M f) (hu : Unmapping M f.sys t ∧ ∀ i, f.sys.Live i → t.Live i) :
    Isolated M { f with sys := t } ∧ (Roomy f.sys c → Roomy t c) ∧ ∀ i, StillReads f.sys t i i :=
  ⟨h.unmapping hu.1 fun i hi => hu.2 i (h.live i hi), fun hroom => hroom.unmapping hu.1,
    fun i => .of_view fun n _ => hu.1.view i n⟩

theorem Isolated.setUpcall {upcall : BitVec 32} (h : Isolated M f) (hc : f.sys.Live c)
    (ht : succeeded (f.sys.sysEnvSetPgfaultUpcall c envid upcall) = some t) :
    Isolated M { f with sys := t } ∧ (Roomy f.sys c → Roomy t c) ∧ ∀ i, StillReads f.sys t i i :=
  h.of_unmapping (unmapping_setUpcall h.accounted hc ht)

theorem Isolated.setStatus {status : BitVec 32} (h : Isolated M f) (hc : f.sys.Live c)
    (ht : succeeded (f.sys.sysEnvSetStatus c envid status) = some t) :
    Isolated M { f with sys := t } ∧ (Roomy f.sys c → Roomy t c) ∧ ∀ i, StillReads f.sys t i i :=
  h.of_unmapping (unmapping_setStatus h.accounted hc ht)

theorem Isolated.setPgfaultHandler {installed : Bool} {upcall : BitVec 32} (h : Isolated M f)
    (hc : f.members c = true) (ht : setPgfaultHandler f.sys c installed upcall = some t) :
    Isolated M { f with sys := t } ∧ (Roomy f.sys c → Roomy t c) ∧ ∀ i, StillReads f.sys t i i := by
  have hlive := h.live c hc
  unfold User.setPgfaultHandler at ht
  split at ht
  · obtain rfl := Option.some.inj ht
    exact ⟨h, id, fun _ => .of_view fun _ _ => rfl⟩
  · obtain ⟨u, hu, ht⟩ := Option.bind_eq_some_iff.mp ht
    obtain ⟨hiso, -, hroom, hkept⟩ := h.allocStack hlive (envid2env_zero _ c true) (by decide) hu
    obtain ⟨hiso', hroom', hkept'⟩ := hiso.setUpcall (hiso.live c hc) ht
    exact ⟨hiso', fun hr => hroom' (hroom hr), fun i => (hkept i).trans (hkept' i)⟩

/-- `sys_exofork` makes a child that has nothing mapped yet, and that its parent finds by its id. -/
theorem exofork_child {r : Int} (h : Accounted M s) (hc : s.Live c) (ho : s.sysExofork c = .returns r t) :
    ((r = -E_NO_FREE_ENV ∨ r = -E_NO_MEM) ∧ t = s) ∨
      c ≠ ENVX (BitVec.ofInt 32 r) ∧
      t.envid2env c (BitVec.ofInt 32 r) true = some (ENVX (BitVec.ofInt 32 r)) ∧ Unmapping M s t ∧
      t.Live (ENVX (BitVec.ofInt 32 r)) ∧ (∀ i ≠ ENVX (BitVec.ofInt 32 r), t.envs i = s.envs i) ∧
      ∀ k, t.view (ENVX (BitVec.ofInt 32 r)) k = none := by
  rcases h.sysExofork hc ho with herror | ⟨child, hfree, hnew, hu, henvs, hid, hparent⟩
  · exact .inl herror
  right
  obtain ⟨xs, hxs⟩ := hu.accounted.table
  have hid' : BitVec.ofInt 32 r = (t.envs child).id := by
    rw [← hid, BitVec.ofInt_toInt]
  have hslot : ENVX (BitVec.ofInt 32 r) = child := by
    rw [hid']
    exact hxs.slot child hnew
  have hne : c ≠ child := by
    rintro rfl
    exact hfree hc
  rw [hslot]
  refine ⟨hne, ?_, hu, hnew, henvs, fun k => ?_⟩
  · have hpos := hxs.pos child hnew
    have h0 : BitVec.ofInt 32 r ≠ 0 := by
      intro h0
      rw [← hid', h0] at hpos
      simp at hpos
    have hnot : ¬ ((t.envs child).status = .free ∨ (t.envs child).id ≠ BitVec.ofInt 32 r) := by
      rintro (hs | hs)
      · exact hnew hs
      · exact hs hid'.symm
    have hparent' : (t.envs child).parentId = (t.envs c).id := by
      rw [hparent, henvs c hne]
    simp only [System.envid2env, hslot]
    rw [if_neg h0, if_neg hnot, if_neg fun hc => hc.2.2 hparent']
  · rw [hu.view]
    exact if_neg fun hc => hfree hc.1

theorem Isolated.exofork {r : Int} (h : Isolated M f) (hc : f.members c = true)
    (ho : f.sys.sysExofork c = .returns r t) :
    ((r = -E_NO_FREE_ENV ∨ r = -E_NO_MEM) ∧ t = f.sys) ∨
      c ≠ ENVX (BitVec.ofInt 32 r) ∧
      t.envid2env c (BitVec.ofInt 32 r) true = some (ENVX (BitVec.ofInt 32 r)) ∧
      Isolated M
        { sys := t
          members := Function.update f.members (ENVX (BitVec.ofInt 32 r)) true
          reference := Function.update f.reference (ENVX (BitVec.ofInt 32 r)) (f.reference c) } ∧
      (Roomy f.sys c → Roomy t c) ∧ ∀ i, StillReads f.sys t i i := by
  rcases exofork_child h.accounted (h.live c hc) ho with herror | ⟨hne, hfind, hu, hnew, henvs, hempty⟩
  · exact .inl herror
  right
  generalize ENVX (BitVec.ofInt 32 r) = child at hne hfind hnew henvs hempty ⊢
  refine ⟨hne, hfind, ⟨hu.accounted, fun i hi => ?_, fun i n w hi hw hpriv j k w' hw' hpage => ?_,
    fun i n w off hi hn hw hun hoff => ?_⟩, fun hroom => hroom.unmapping hu,
    fun i => .of_view fun n _ => hu.view i n⟩
  · by_cases hie : i = child
    · rw [hie]
      exact hnew
    · dsimp only at hi
      rw [Function.update_of_ne hie] at hi
      rw [System.Live, henvs i hie]
      exact h.live i hi
  · have hie : i ≠ child := by
      rintro rfl
      rw [hempty] at hw
      cases hw
    dsimp only at hi hw hw'
    rw [Function.update_of_ne hie] at hi
    rw [hu.view] at hw hw'
    exact h.sole i n w hi hw hpriv j k w' hw' hpage
  · have hie : i ≠ child := by
      rintro rfl
      rw [hempty] at hw
      cases hw
    dsimp only at hi hw ⊢
    rw [Function.update_of_ne hie] at hi ⊢
    rw [hu.view] at hw
    rw [loadByte_congr (hu.data i n w hw)]
    exact h.agrees i n w off hi hn hw hun hoff

theorem Isolated.forkParent {upcall : BitVec 32} (h : Isolated M f) (he : f.members e = true)
    (hne : e ≠ child) (hid : f.sys.envid2env e envid true = some child)
    (href : f.reference child = f.reference e) (hroom : Roomy f.sys e)
    (ht : forkParent f.sys e envid upcall = some t) :
    Isolated M { f with sys := t } ∧ (∀ i ≠ child, StillReads f.sys t i i) ∧ StillReads f.sys t e child := by
  unfold User.forkParent at ht
  obtain ⟨s₁, hloop, ht⟩ := Option.bind_eq_some_iff.mp ht
  obtain ⟨s₂, halloc, ht⟩ := Option.bind_eq_some_iff.mp ht
  obtain ⟨s₃, hupcall, hstatus⟩ := Option.bind_eq_some_iff.mp ht
  have hcopying := h.forkLoop he hne hid href hroom hloop
  have h₁ := hcopying.isolated
  obtain ⟨h₂, -, -, hkept₂⟩ := h₁.allocStack (h₁.live e he)
    ((envid2env_congr hcopying.envs e envid true).trans hid) (by decide) halloc
  obtain ⟨h₃, -, hkept₃⟩ := h₂.setUpcall (h₂.live e he) hupcall
  obtain ⟨h₄, -, hkept₄⟩ := h₃.setStatus (c := e) (h₃.live e he) hstatus
  have hrest (i : Fin NENV) : StillReads s₁ t i i := ((hkept₂ i).trans (hkept₃ i)).trans (hkept₄ i)
  have hchild : StillReads f.sys s₁ e child := fun n w hn hw hu => hcopying.copied n hn.1 w hw hu
  exact ⟨h₄, fun i hi => (hcopying.kept i hi).trans (hrest i), hchild.trans (hrest child)⟩

end Around

section NoChild

variable {s : System} {c : Fin NENV} {envid : BitVec 32}

private theorem duppage_none (h : s.envid2env c envid true = none) (n : Nat) :
    duppage c envid s n = none := by
  have hmap (perm : Nat) :
      succeeded (s.sysPageMap c 0 (pageArg n) envid (pageArg n) (permArg perm)) = none := by
    simp only [System.sysPageMap, envid2env_zero, h, succeeded]
    exact if_neg (by decide)
  simp only [duppage, hmap, Option.bind_eq_bind, Option.bind_none, ite_self]

/-- A parent that takes an error code for the id of its child panics. -/
theorem forkParent_none (h : s.envid2env c envid true = none) (upcall : BitVec 32) :
    forkParent s c envid upcall = none := by
  unfold forkParent
  refine Option.bind_eq_none_iff.mpr fun t ht => ?_
  have hsame : t = s := by
    refine foldlM_invariant (I := fun t => t = s) (fun n _ b b' hb hstep => ?_) rfl ht
    subst hb
    unfold forkPage at hstep
    split at hstep
    · rw [duppage_none h] at hstep
      cases hstep
    · exact (Option.some.inj hstep).symm
  subst hsame
  simp [System.sysPageAlloc, h, succeeded, E_BAD_ENV]

theorem envid2env_error {xs : List (Fin NENV)} {r : Int} (h : EnvTable s xs)
    (hr : r = -E_NO_FREE_ENV ∨ r = -E_NO_MEM) : s.envid2env c (BitVec.ofInt 32 r) true = none := by
  have hneg : (BitVec.ofInt 32 r).toInt < 0 := by
    rcases hr with rfl | rfl <;> decide
  generalize BitVec.ofInt 32 r = envid at hneg ⊢
  have h0 : envid ≠ 0 := by
    rintro rfl
    simp at hneg
  have hbad : (s.envs (ENVX envid)).status = .free ∨ (s.envs (ENVX envid)).id ≠ envid := by
    by_cases hlive : s.Live (ENVX envid)
    · right
      intro hid
      have := h.pos _ hlive
      rw [hid] at this
      omega
    · exact .inl (not_not.mp hlive)
  simp only [System.envid2env, h0, if_false, hbad, if_true]

end NoChild

theorem Isolated.fork {M : Nat → Prop} {f : Family} {t : System} {e : Fin NENV} {installed : Bool}
    {upcall id : BitVec 32} (h : Isolated M f) (he : f.members e = true) (hroom : Roomy f.sys e)
    (ht : fork f.sys e installed upcall = some (id, t)) :
    Isolated M
      { sys := t
        members := Function.update f.members (ENVX id) true
        reference := Function.update f.reference (ENVX id) (f.reference e) } ∧
      (∀ i ≠ ENVX id, StillReads f.sys t i i) ∧ StillReads f.sys t e (ENVX id) := by
  unfold User.fork at ht
  obtain ⟨s₁, hhandler, ht⟩ := Option.bind_eq_some_iff.mp ht
  obtain ⟨h₁, hroom₁, hkept₁⟩ := h.setPgfaultHandler he hhandler
  split at ht
  · next r s₂ ho =>
    obtain ⟨s₃, hparent, ht⟩ := Option.bind_eq_some_iff.mp ht
    obtain ⟨rfl, rfl⟩ := Prod.mk.inj (Option.some.inj ht)
    rcases h₁.exofork he ho with ⟨hr, rfl⟩ | ⟨hne, hid, h₂, hroom₂, hkept₂⟩
    · obtain ⟨xs, hxs⟩ := h₁.accounted.table
      rw [forkParent_none (envid2env_error hxs hr)] at hparent
      cases hparent
    · obtain ⟨h₃, hkept₃, hchild⟩ := h₂.forkParent ((Function.update_of_ne hne _ _).trans he) hne hid
        ((Function.update_self ..).trans (Function.update_of_ne hne _ _).symm)
        (hroom₂ (hroom₁ hroom)) hparent
      have hbefore (i : Fin NENV) : StillReads f.sys s₂ i i := (hkept₁ i).trans (hkept₂ i)
      exact ⟨h₃, fun i hi => (hbefore i).trans (hkept₃ i hi), (hbefore e).trans hchild⟩
  · cases ht

end DamnOS.User
