import DamnOS.User.ForkIsolation

/-!
# Writes keep isolation

A write goes to a page that its environment alone maps, which `pgfault` sees to.
-/

namespace DamnOS.User

open DamnOS.Framework DamnOS.Kernel

variable {M : Nat → Prop} {f : Family} {s t : System} {e : Fin NENV} {n va w : Nat} {b : UInt8}

private theorem InScope.lt_UTOP (h : InScope (va / PGSIZE)) : va < UTOP := by
  have hlt := h.1
  have hS : USTACKTOP / PGSIZE = 977918 := by decide
  have hU : UTOP = 977920 * 4096 := by decide
  rw [hS, PGSIZE] at hlt
  omega

private theorem read_eq_some {x : UInt8} (he : s.Live e) (h : read s e va = some x) :
    ∃ w, s.view e (va / PGSIZE) = some w ∧ InScope (va / PGSIZE) ∧ Unshared w ∧
      loadByte s.pmap (pageOf w) (va % PGSIZE) = x := by
  unfold read at h
  split at h
  · cases h
  · next w hw =>
    split at h
    · next hc =>
      refine ⟨w, ?_, hc.1, hc.2, Option.some.inj h⟩
      rw [view_div he hc.1.lt_UTOP, hw]
    · cases h

private theorem storeUser_eq (he : s.Live e) (hva : va < UTOP) (hw : s.view e (va / PGSIZE) = some w) :
    storeUser s e va b =
      if w &&& PTE_U = 0 ∨ w &&& PTE_W = 0 then none
      else some { s with pmap := s.pmap.storeByte (pageOf w) (va % PGSIZE) b } := by
  rw [view_div he hva] at hw
  simp only [storeUser, hw]

theorem Isolated.storeByte (h : Isolated M f) (he : f.members e = true)
    (hw : f.sys.view e (va / PGSIZE) = some w) (hpriv : Private w) :
    Isolated M
      { f with
        sys := { f.sys with pmap := f.sys.pmap.storeByte (pageOf w) (va % PGSIZE) b }
        reference := Function.update f.reference e (Function.update (f.reference e) va (some b)) } ∧
      ∀ i, StillReads f.sys { f.sys with pmap := f.sys.pmap.storeByte (pageOf w) (va % PGSIZE) b } i i := by
  have hkept (x : Nat) (hx : x ≠ pageOf w) :
      (f.sys.pmap.storeByte (pageOf w) (va % PGSIZE) b).mem x = f.sys.pmap.mem x :=
    Pmap.store_mem_page hx
  obtain ⟨hacc, hview⟩ := h.accounted.writeData hw hkept
  have hva : va / PGSIZE * PGSIZE + va % PGSIZE = va := Nat.div_add_mod' va PGSIZE
  refine ⟨⟨hacc, h.live, fun i k w' hi hw' hpriv' j l w'' hw'' hpage => ?_,
    fun i k w' off hi hk hw' hun hoff => ?_⟩, fun i => .of_view fun k _ => hview i k⟩
  · exact h.sole i k w' hi ((hview i k).symm.trans hw') hpriv' j l w''
      ((hview j l).symm.trans hw'') hpage
  · have hold : f.sys.view i k = some w' := (hview i k).symm.trans hw'
    have hagrees := h.agrees i k w' off hi hk hold hun hoff
    dsimp only
    by_cases hplace : i = e ∧ k = va / PGSIZE
    · obtain ⟨rfl, rfl⟩ := hplace
      obtain rfl := Option.some.inj (hold.symm.trans hw)
      rw [Function.update_self]
      by_cases hoff' : off = va % PGSIZE
      · rw [hoff', hva, Function.update_self, loadByte_storeByte_self]
      · have hne : va / PGSIZE * PGSIZE + off ≠ va := by omega
        rw [Function.update_of_ne hne, loadByte_storeByte_ne hoff', hagrees]
    · have hpage : pageOf w' ≠ pageOf w := fun hp =>
        hplace (h.sole e _ w he hw hpriv i k w' hold hp)
      rw [loadByte_congr (hkept _ hpage), hagrees]
      by_cases hie : i = e
      · subst hie
        have hne : k * PGSIZE + off ≠ va := by
          rintro rfl
          refine hplace ⟨rfl, ?_⟩
          rw [Nat.add_comm, Nat.add_mul_div_right _ _ (by decide), Nat.div_eq_of_lt hoff,
            Nat.zero_add]
        rw [Function.update_self, Function.update_of_ne hne]
      · rw [Function.update_of_ne hie]

private theorem entry_private (q : Nat) :
    Private (entry q (PTE_W ||| PTE_U ||| PTE_P)) ∧
      entry q (PTE_W ||| PTE_U ||| PTE_P) &&& PTE_U ≠ 0 := by
  rw [private_entry, entry_and (by decide)]
  decide

private theorem memcpyPage_eq_some {d : Nat} {dstva srcva : Nat} (he : s.Live e) (hdst : dstva < UTOP)
    (hsrc : srcva < UTOP) (hd : s.view e (dstva / PGSIZE) = some d)
    (hw : s.view e (srcva / PGSIZE) = some w) (ht : memcpyPage s e dstva srcva = some t) :
    t = { s with pmap := copyPage s.pmap (pageOf d) (pageOf w) } := by
  rw [view_div he hdst] at hd
  rw [view_div he hsrc] at hw
  simp only [memcpyPage, hd, hw] at ht
  split at ht
  · cases ht
  · exact (Option.some.inj ht).symm

/-- What `pgfault` leaves: the scratch page is unmapped, and a page that is mapped nowhere else has
the contents of the one that was there. -/
structure Resolved (M : Nat → Prop) (s t : System) (e : Fin NENV) (n q : Nat) : Prop where
  accounted : Accounted M t
  envs : t.envs = s.envs
  view : ∀ i k, t.view i k =
    if i = e ∧ k = PFTEMP / PGSIZE then none
    else if i = e ∧ k = n then some (entry q (PTE_W ||| PTE_U ||| PTE_P)) else s.view i k
  small : q < 2 ^ 20
  fresh : ∀ i k w, s.view i k = some w → pageOf w ≠ q
  data : ∀ i k w, s.view i k = some w → t.view i k = some w →
    t.pmap.mem (pageOf w) = s.pmap.mem (pageOf w)
  copied : ∀ w off, s.view e n = some w → off < PGSIZE →
    loadByte t.pmap q off = loadByte s.pmap (pageOf w) off

theorem scratch_page :
    (BitVec.ofNat 32 PFTEMP).toNat = PFTEMP / PGSIZE * PGSIZE ∧ PFTEMP < UTOP := by
  decide

private theorem pgfault_resolved (h : Accounted M s) (he : s.Live e) (hn : InScope (va / PGSIZE))
    (hw : s.view e (va / PGSIZE) = some w) (ht : pgfault s e va FEC_WR = some t) :
    ∃ q, Resolved M s t e (va / PGSIZE) q := by
  obtain ⟨hPF, hPFlt⟩ := scratch_page
  have hperm : (permArg (PTE_W ||| PTE_U ||| PTE_P)).toNat = PTE_W ||| PTE_U ||| PTE_P := by decide
  have hlt : PTE_W ||| PTE_U ||| PTE_P < 4096 := by decide
  have haddr : va / PGSIZE * PGSIZE / PGSIZE = va / PGSIZE := Nat.mul_div_cancel _ (by decide)
  have hnum := USTACKTOP_div_lt hn.1
  have harg : (BitVec.ofNat 32 (va / PGSIZE * PGSIZE)).toNat = va / PGSIZE * PGSIZE :=
    toNat_pageArg hnum
  have hne := hn.2
  unfold User.pgfault at ht
  dsimp only at ht
  rw [if_neg (by rintro ⟨hz, -⟩; exact absurd hz (by decide))] at ht
  obtain ⟨s₁, halloc, ht⟩ := Option.bind_eq_some_iff.mp ht
  obtain ⟨s₂, hcopy, ht⟩ := Option.bind_eq_some_iff.mp ht
  obtain ⟨s₃, hmap, hunmap⟩ := Option.bind_eq_some_iff.mp ht
  -- a fresh page at the scratch address
  obtain ⟨_, ho, hr⟩ := succeeded_eq_some halloc
  obtain ⟨q, hq, hzero, hfresh, h₁, -⟩ := h.sysPageAlloc he (envid2env_zero s e true) hPF ho hr
  rw [hperm] at h₁
  have hpage := pageOf_entry hq hlt
  have he₁ : s₁.Live e := by
    rw [System.Live, h₁.envs]
    exact he
  have hscratch : s₁.view e (PFTEMP / PGSIZE) = some (entry q (PTE_W ||| PTE_U ||| PTE_P)) := by
    rw [h₁.view, if_pos ⟨rfl, rfl⟩]
  have hold : s₁.view e (va / PGSIZE) = some w := by
    rw [h₁.view, if_neg fun hc => hne hc.2, hw]
  have hcount : s₁.pmap.ppRef q ≤ 1 := by
    have hrefs := h₁.refs e _ _ hscratch
    rw [Option.map_some, hpage, hzero] at hrefs
    simp only [if_true] at hrefs
    omega
  -- the copy
  have hs₂ := memcpyPage_eq_some he₁ hPFlt (page_lt_UTOP hnum) hscratch (by rw [haddr]; exact hold)
    hcopy
  rw [hpage] at hs₂
  have hkept (x : Nat) (hx : x ≠ pageOf (entry q (PTE_W ||| PTE_U ||| PTE_P))) :
      (copyPage s₁.pmap q (pageOf w)).mem x = s₁.pmap.mem x := by
    rw [hpage] at hx
    exact copyPage_mem hx _
  have hwrite := h₁.accounted.writeData hscratch hkept
  change Accounted M { s₁ with pmap := copyPage s₁.pmap q (pageOf w) } ∧
    ∀ j k, ({ s₁ with pmap := copyPage s₁.pmap q (pageOf w) } : System).view j k = s₁.view j k at hwrite
  rw [← hs₂] at hwrite
  obtain ⟨hacc₂, hview₂⟩ := hwrite
  have henvs₂ : s₂.envs = s₁.envs := by rw [hs₂]
  have he₂ : s₂.Live e := by
    rw [System.Live, henvs₂]
    exact he₁
  have hscratch₂ := (hview₂ e _).trans hscratch
  have hcount₂ : s₂.pmap.ppRef q ≤ 1 := by
    rw [hs₂]
    exact hcount
  -- the copy goes to the faulting page
  obtain ⟨_, ho, hr⟩ := succeeded_eq_some hmap
  have h₃ := (hacc₂.sysPageMap he₂ (envid2env_zero s₂ e true) (envid2env_zero s₂ e true) hPF harg
    hscratch₂ (.inl (by rw [hpage]; omega)) ho hr).1
  rw [hperm, hpage] at h₃
  have hscratch₃ : s₃.view e (PFTEMP / PGSIZE) = some (entry q (PTE_W ||| PTE_U ||| PTE_P)) := by
    rw [h₃.view, if_neg fun hc => hne hc.2.symm, hscratch₂]
  obtain ⟨_, ho, hr⟩ := succeeded_eq_some hunmap
  have h₄ := h₃.accounted.sysPageUnmap (envid2env_zero s₃ e true) hPF hscratch₃ ho hr
  have hview (i : Fin NENV) (k : Nat) : t.view i k =
      if i = e ∧ k = PFTEMP / PGSIZE then none
      else if i = e ∧ k = va / PGSIZE then some (entry q (PTE_W ||| PTE_U ||| PTE_P))
      else s.view i k := by
    rw [h₄.view, h₃.view, hview₂, h₁.view]
    split_ifs <;> rfl
  have hcontents {i : Fin NENV} {k x : Nat} (hx : s₂.view i k = some x)
      (hx' : s₃.view i k = some x) : t.pmap.mem (pageOf x) = s₂.pmap.mem (pageOf x) :=
    (h₄.data i k x hx').trans (h₃.data i k x hx)
  refine ⟨q, h₄.accounted, ?_, hview, hq, hfresh, fun i k x hx hx' => ?_, fun x off hx hoff => ?_⟩
  · rw [h₄.envs, h₃.envs, henvs₂, h₁.envs]
  · have hxq := hfresh i k x hx
    have hnot : ¬ (i = e ∧ k = PFTEMP / PGSIZE) := fun hc => by
      rw [hview, if_pos hc] at hx'
      cases hx'
    have hnot' : ¬ (i = e ∧ k = va / PGSIZE) := fun hc => by
      rw [hview, if_neg hnot, if_pos hc] at hx'
      obtain rfl := Option.some.inj hx'
      exact hxq hpage
    have hx₂ : s₂.view i k = some x := by
      rw [hview₂, h₁.view, if_neg hnot, hx]
    have hx₃ : s₃.view i k = some x := by
      rw [h₃.view, if_neg hnot', hx₂]
    rw [hcontents hx₂ hx₃, hs₂, hkept _ (by rwa [hpage]), h₁.data i k x hx]
  · obtain rfl := Option.some.inj (hx.symm.trans hw)
    have hq₂ := hcontents hscratch₂ hscratch₃
    rw [hpage] at hq₂
    rw [loadByte_congr hq₂, hs₂, loadByte_copyPage _ _ _ hoff,
      loadByte_congr (h₁.data e _ _ hx)]

theorem Isolated.resolved {q : Nat} (h : Isolated M f) (he : f.members e = true)
    (hw : f.sys.view e n = some w) (hun : Unshared w) (hr : Resolved M f.sys t e n q) :
    Isolated M { f with sys := t } ∧ ∀ i, StillReads f.sys t i i := by
  have hpage := pageOf_entry hr.small (show PTE_W ||| PTE_U ||| PTE_P < 4096 by decide)
  have hplace {i : Fin NENV} {k w' : Nat} (hw' : t.view i k = some w') :
      (i = e ∧ k = n ∧ w' = entry q (PTE_W ||| PTE_U ||| PTE_P)) ∨ f.sys.view i k = some w' := by
    rw [hr.view] at hw'
    split_ifs at hw' with h1 h2
    · exact .inl ⟨h2.1, h2.2, (Option.some.inj hw').symm⟩
    · exact .inr hw'
  refine ⟨h.step hr.accounted (fun i hi => ?_) (fun i k w' hw' => ?_) hr.data ?_,
    fun i k w' hk hw' hu => ?_⟩
  · rw [System.Live, hr.envs]
    exact h.live i hi
  · rcases hplace hw' with ⟨rfl, rfl, rfl⟩ | hold
    · refine .inr (.inr fun i' k' w'' hw'' hp => ?_)
      rcases hplace hw'' with ⟨rfl, rfl, -⟩ | hold
      · exact ⟨rfl, rfl⟩
      · exact absurd (hp.trans hpage) (hr.fresh i' k' w'' hold)
    · exact .inl hold
  · intro i k w' off hi hk hw' hold _ hoff
    rcases hplace hw' with ⟨rfl, rfl, rfl⟩ | hold'
    · rw [hpage, hr.copied w off hw hoff, h.agrees i k w off hi hk hw hun hoff]
    · exact absurd hold' hold
  · by_cases hplace' : i = e ∧ k = n
    · refine ⟨_, by rw [hr.view, if_neg fun hc => hk.2 hc.2, if_pos hplace'], ?_⟩
      rw [unshared_entry]
      decide
    · exact ⟨w', by rw [hr.view, if_neg fun hc => hk.2 hc.2, if_neg hplace', hw'], hu⟩

theorem Isolated.write (h : Isolated M f) (he : f.members e = true)
    (hread : (read f.sys e va).isSome = true) (ht : write f.sys e va b = some t) :
    Isolated M
      { f with
        sys := t
        reference := Function.update f.reference e (Function.update (f.reference e) va (some b)) } ∧
      ∀ i, StillReads f.sys t i i := by
  obtain ⟨x, hx⟩ := Option.isSome_iff_exists.mp hread
  have hlive := h.live e he
  obtain ⟨w, hw, hin, hun, -⟩ := read_eq_some hlive hx
  have hva := hin.lt_UTOP
  unfold User.write at ht
  split at ht
  · next u hu =>
    obtain rfl := Option.some.inj ht
    rw [storeUser_eq hlive hva hw] at hu
    split at hu
    · cases hu
    · next hc =>
      obtain rfl := Option.some.inj hu
      exact h.storeByte he hw ⟨fun hW => hc (.inr hW), hun.2.2⟩
  · obtain ⟨u, hu, hstore⟩ := Option.bind_eq_some_iff.mp ht
    obtain ⟨q, hres⟩ := pgfault_resolved h.accounted hlive hin hw hu
    obtain ⟨h', hkept⟩ := h.resolved he hw hun hres
    obtain ⟨hpriv, hU⟩ := entry_private q
    have hw' : u.view e (va / PGSIZE) = some (entry q (PTE_W ||| PTE_U ||| PTE_P)) := by
      rw [hres.view, if_neg fun hc => hin.2 hc.2, if_pos ⟨rfl, rfl⟩]
    rw [storeUser_eq (h'.live e he) hva hw', if_neg (not_or.mpr ⟨hU, hpriv.1⟩)] at hstore
    obtain rfl := Option.some.inj hstore
    obtain ⟨hiso, hkept'⟩ := h'.storeByte he hw' hpriv
    exact ⟨hiso, fun i => (hkept i).trans (hkept' i)⟩

/-- The addresses that the reference model speaks about can be read. -/
def Complete (f : Family) : Prop :=
  ∀ e va, f.members e = true → (f.reference e va).isSome = true →
    InScope (va / PGSIZE) ∧ ∃ w, f.sys.view e (va / PGSIZE) = some w ∧ Unshared w

theorem Complete.kept {i : Fin NENV} (h : Complete f) (hi : f.members i = true)
    (hsome : (f.reference i va).isSome = true) (hk : StillReads f.sys t i e) :
    InScope (va / PGSIZE) ∧ ∃ w, t.view e (va / PGSIZE) = some w ∧ Unshared w := by
  obtain ⟨hin, w, hw, hu⟩ := h i va hi hsome
  exact ⟨hin, hk _ w hin hw hu⟩

private theorem Isolated.read_eq (h : Isolated M f) (hcomplete : Complete f) (he : f.members e = true)
    (va : Nat) : read f.sys e va = f.reference e va := by
  have hlive := h.live e he
  cases hx : read f.sys e va with
  | some x =>
    obtain ⟨w, hw, hin, hun, rfl⟩ := read_eq_some hlive hx
    rw [h.agrees e _ w _ he hin hw hun (Nat.mod_lt _ (by decide)), Nat.div_add_mod']
  | none =>
    cases href : f.reference e va with
    | none => rfl
    | some y =>
      obtain ⟨hin, w, hw, hun⟩ := hcomplete e va he (by rw [href]; rfl)
      rw [view_div hlive hin.lt_UTOP] at hw
      simp [User.read, hw, hin, hun] at hx

theorem Isolated.start (h : Accounted M s) (he : s.Live e)
    (hsole : ∀ n w, s.view e n = some w → Private w →
      ∀ i k w', s.view i k = some w' → pageOf w' = pageOf w → i = e ∧ k = n) :
    Isolated M (Family.start s e) ∧ Complete (Family.start s e) := by
  refine ⟨⟨h, fun i hi => ?_, fun i n w hi hw hpriv => ?_, fun i n w off hi hn hw hun hoff => ?_⟩,
    fun i va hi hsome => ?_⟩
  · obtain rfl : i = e := of_decide_eq_true hi
    exact he
  · obtain rfl : i = e := of_decide_eq_true hi
    exact hsole n w hw hpriv
  · obtain rfl : i = e := of_decide_eq_true hi
    have hnum := USTACKTOP_div_lt hn.1
    have hdiv : (n * PGSIZE + off) / PGSIZE = n := by
      rw [Nat.add_comm, Nat.add_mul_div_right _ _ (by decide), Nat.div_eq_of_lt hoff, Nat.zero_add]
    have hmod : (n * PGSIZE + off) % PGSIZE = off := by
      rw [Nat.add_comm, Nat.add_mul_mod_self_right, Nat.mod_eq_of_lt hoff]
    have hin : InScope ((n * PGSIZE + off) / PGSIZE) := by rwa [hdiv]
    have hmap : s.pmap.mapping (s.envs i).pgdir (n * PGSIZE + off) = some w := by
      rw [← view_div he hin.lt_UTOP, hdiv]
      exact hw
    simp [Family.start, User.read, hmap, hin, hun, hmod]
  · obtain rfl : i = e := of_decide_eq_true hi
    obtain ⟨x, hx⟩ := Option.isSome_iff_exists.mp hsome
    obtain ⟨w, hw, hin, hun, -⟩ := read_eq_some he hx
    exact ⟨hin, w, hw, hun⟩

private theorem forkMachine_step {i : Act} {g : Family} (h : i.exec f = some g) : forkMachine.step i f = g := by
  simp [forkMachine, h]

private theorem Isolated.act {i : Act} (h : Isolated M f) (hcomplete : Complete f) (hi : i.Counted f) :
    Isolated M (forkMachine.step i f) ∧ Complete (forkMachine.step i f) := by
  cases hi' : i.exec f with
  | none => simpa [forkMachine, hi'] using And.intro h hcomplete
  | some g =>
    rw [forkMachine_step hi']
    cases i with
    | fork e installed upcall =>
      simp only [Act.exec] at hi'
      split at hi'
      · next he =>
        obtain ⟨⟨id, t⟩, ht, rfl⟩ := Option.map_eq_some_iff.mp hi'
        obtain ⟨hiso, hkept, hchild⟩ :=
          h.fork he (fun n w hn hw hU => hi e installed upcall n w rfl hn hw hU) ht
        refine ⟨hiso, fun j va hj hsome => ?_⟩
        dsimp only at hj hsome
        by_cases hjc : j = ENVX id
        · subst hjc
          rw [Function.update_self] at hsome
          exact hcomplete.kept he hsome hchild
        · rw [Function.update_of_ne hjc] at hj hsome
          exact hcomplete.kept hj hsome (hkept j hjc)
      · obtain rfl := Option.some.inj hi'
        exact ⟨h, hcomplete⟩
    | read e va =>
      obtain rfl := Option.some.inj hi'
      exact ⟨h, hcomplete⟩
    | write e va b =>
      simp only [Act.exec] at hi'
      split at hi'
      · next hc =>
        obtain ⟨t, ht, rfl⟩ := Option.map_eq_some_iff.mp hi'
        obtain ⟨hiso, hkept⟩ := h.write hc.1 hc.2 ht
        refine ⟨hiso, fun j va' hj hsome => ?_⟩
        have hsome' : (f.reference j va').isSome = true := by
          dsimp only at hsome
          by_cases hje : j = e
          · subst hje
            rw [Function.update_self] at hsome
            by_cases hva : va' = va
            · rw [hva, ← h.read_eq hcomplete hj]
              exact hc.2
            · rwa [Function.update_of_ne hva] at hsome
          · rwa [Function.update_of_ne hje] at hsome
        exact hcomplete.kept hj hsome' (hkept j)
      · obtain rfl := Option.some.inj hi'
        exact ⟨h, hcomplete⟩

/-- Every member reads what it would read if `fork` copied the memory of the parent. -/
theorem cow_isolation (M : Nat → Prop) (s : System) (r : Fin NENV) (acts : List Act)
    (hacc : Accounted M s) (hlive : s.Live r)
    (hsole : ∀ n w, s.view r n = some w → Private w →
      ∀ i k w', s.view i k = some w' → pageOf w' = pageOf w → i = r ∧ k = n)
    (hcount : forkMachine.Along Act.Counted acts (Family.start s r)) :
    ∀ e va, (forkMachine.run acts (Family.start s r)).members e = true →
      read (forkMachine.run acts (Family.start s r)).sys e va =
        (forkMachine.run acts (Family.start s r)).reference e va := by
  intro e va he
  have h : Isolated M (forkMachine.run acts (Family.start s r)) ∧
      Complete (forkMachine.run acts (Family.start s r)) :=
    Machine.run_invariant (I := fun f => Isolated M f ∧ Complete f)
      (fun i f hf hi => hf.1.act hf.2 hi) (Isolated.start hacc hlive hsole) hcount
  exact h.1.read_eq h.2 he va

theorem dups_le_references (s : System) (e : Fin NENV) {k : Nat} (hk : k ≤ NUPAGE) (p : Nat) :
    dups s e k p ≤ references s.target p := by
  have hlt (n : Nat) (hn : n < k) : n * PGSIZE < UTOP := page_lt_UTOP (by omega)
  rw [dups, List.countP_eq_length_filter]
  refine length_le_references
    (fun n => if hn : n < k then Slot.page e (n * PGSIZE) (hlt n hn) else .dir e)
    (List.Nodup.filter _ List.nodup_range) (fun n hn => ?_) (fun n hn n' hn' heq => ?_)
  · obtain ⟨hn, hmatch⟩ := List.mem_filter.mp hn
    have hn := List.mem_range.mp hn
    split at hmatch
    · cases hmatch
    · next w hw =>
      simp only [Bool.and_eq_true, decide_eq_true_eq] at hmatch
      obtain ⟨_, htarget⟩ := target_of_view hw
      rw [dif_pos hn, htarget, hmatch.2]
  · have hn := List.mem_range.mp (List.mem_filter.mp hn).1
    have hn' := List.mem_range.mp (List.mem_filter.mp hn').1
    simp only [hn, hn', dif_pos, Slot.page, Slot.pte.injEq, true_and, Fin.mk.injEq] at heq
    have h1 := PDX_page (n := n) (by omega)
    have h2 := PDX_page (n := n') (by omega)
    rw [h1, h2, PTX_page, PTX_page] at heq
    omega

private theorem counted_of_le {e : Fin NENV} {installed : Bool} {upcall : BitVec 32}
    (h : Accounted M f.sys) (hle : ∀ p, M p → f.sys.pmap.ppRef p ≤ 32767) :
    (Act.fork e installed upcall).Counted f := by
  intro e' installed' upcall' n w _ hn hw _
  obtain ⟨hlive, -, hmap⟩ := view_eq_some hw
  obtain ⟨hva, -⟩ := target_of_view hw
  obtain ⟨xs, hl⟩ := h.ledger
  have hM : M (pageOf w) := by
    obtain ⟨hpde, rfl, hpte⟩ := Pmap.mapping_eq_some.mp hmap
    exact (h.pte e' _ _ _ hlive (PDX_lt_of_lt_UTOP hva) (PTX_lt _)
      (named_eq_some.mpr ⟨hpde, rfl⟩)).managed (named_eq_some.mpr ⟨hpte, rfl⟩)
  have hdups := dups_le_references f.sys e' (show USTACKTOP / PGSIZE ≤ NUPAGE by decide) (pageOf w)
  rw [← hl.count _ hM] at hdups
  have := hle _ hM
  omega

private theorem sole_of_count (hw : s.view e n = some w)
    (hcount : references s.target (pageOf w) ≤ 1) {i : Fin NENV} {k w' : Nat}
    (hw' : s.view i k = some w') (hpage : pageOf w' = pageOf w) : i = e ∧ k = n := by
  obtain ⟨hva, htarget⟩ := target_of_view hw
  obtain ⟨hva', htarget'⟩ := target_of_view hw'
  rw [hpage] at htarget'
  have heq := eq_of_references_le_one hcount htarget' htarget
  simp only [Slot.page, Slot.pte.injEq, Fin.mk.injEq] at heq
  obtain ⟨-, hn, -⟩ := view_eq_some hw
  obtain ⟨-, hk, -⟩ := view_eq_some hw'
  rw [PDX_page hn, PDX_page hk, PTX_page, PTX_page] at heq
  exact ⟨heq.1, by omega⟩

/-- Page 304 is mapped copy-on-write by the program, and 65534 times by the server, whose page
tables are the pages from 320 on. -/
def crowdedPmap : Pmap where
  mem p i :=
    if p = 301 ∧ i = PDX UVPT then entry 301 PTE_U
    else if p = 302 ∧ i = PDX UVPT then entry 302 PTE_U
    else if p = 301 ∧ i < 64 then entry (320 + i) (PTE_W ||| PTE_U)
    else if p = 302 ∧ i = 2 then entry 303 (PTE_W ||| PTE_U)
    else if p = 303 ∧ i = 0 then entry 304 (PTE_COW ||| PTE_U)
    else if p = 304 ∧ i = 0 then 65
    else if (320 ≤ p ∧ p < 384) ∧ i < 1024 ∧ (p - 320) * 1024 + i < 65534 then entry 304 PTE_U
    else 0
  ppRef p := if p = 304 then 65535 else if (301 ≤ p ∧ p ≤ 303) ∨ (320 ≤ p ∧ p < 384) then 1 else 0
  ppLink p := if 305 ≤ p ∧ p < 312 then some (p + 1) else none
  pageFreeList := some 305
  kernPgdir := 300

def crowdedSystem : System := { sampleSystem with pmap := crowdedPmap }

def CrowdedPage (p : Nat) : Prop := (301 ≤ p ∧ p ≤ 312) ∨ (320 ≤ p ∧ p < 384)

def crowdedPlace : Option (Fin 65534) → Slot
  | none => .pte 1 2 0
  | some k => .pte 0 ⟨k / 1024, by
      have hN : NUPDE = 955 := rfl
      have := k.isLt
      omega⟩ ⟨k % 1024, Nat.mod_lt _ (by decide)⟩

private theorem crowdedPlace_injective : Function.Injective crowdedPlace := by
  intro x y h
  rcases x with - | k <;> rcases y with - | l
  · rfl
  · simp [crowdedPlace] at h
  · simp [crowdedPlace] at h
  · simp only [crowdedPlace, Slot.pte.injEq, Fin.mk.injEq, true_and] at h
    exact congrArg some (Fin.ext (by omega))

def crowdedOwner (p : Nat) : Slot :=
  if p = 301 then .dir 0
  else if p = 302 then .dir 1
  else if p = 303 then .pde 1 2
  else if h : p - 320 < NUPDE then .pde 0 ⟨p - 320, h⟩
  else .dir 0

private theorem crowdedSystem_pde {i : Fin NENV} {d : Nat} (hi : crowdedSystem.Live i) (hd : d < NUPDE)
    (h0 : crowdedSystem.pmap.mem (crowdedSystem.envs i).pgdir d ≠ 0) :
    (i = 0 ∧ d < 64 ∧ crowdedSystem.pmap.mem (crowdedSystem.envs i).pgdir d
      = entry (320 + d) (PTE_W ||| PTE_U)) ∨
    (i = 1 ∧ d = 2 ∧ crowdedSystem.pmap.mem (crowdedSystem.envs i).pgdir d
      = entry 303 (PTE_W ||| PTE_U)) := by
  have hne : d ≠ PDX UVPT := by
    rintro rfl
    revert hd
    decide
  obtain rfl | rfl := sampleSystem_live hi
  · left
    have hg : (crowdedSystem.envs 0).pgdir = 301 := rfl
    rw [hg] at h0 ⊢
    by_cases hd' : d < 64
    · simp [crowdedSystem, crowdedPmap, hne, hd']
    · simp [crowdedSystem, crowdedPmap, hne, hd'] at h0
  · right
    have hg : (crowdedSystem.envs 1).pgdir = 302 := rfl
    rw [hg] at h0 ⊢
    by_cases hd' : d = 2
    · subst hd'
      exact ⟨rfl, rfl, rfl⟩
    · simp [crowdedSystem, crowdedPmap, hne, hd'] at h0

private theorem crowdedPmap_dir {d : Nat} (hd : d < 64) :
    crowdedPmap.mem 301 d = entry (320 + d) (PTE_W ||| PTE_U) := by
  have hne : d ≠ PDX UVPT := by
    have hU : PDX UVPT = 957 := by decide
    omega
  simp [crowdedPmap, hne, hd]

private theorem crowdedPmap_table {d : Nat} (hd : d < 64) (t : Nat) :
    crowdedPmap.mem (320 + d) t
      = if t < 1024 ∧ d * 1024 + t < 65534 then entry 304 PTE_U else 0 := by
  have h1 : 320 + d ≠ 301 := by omega
  have h2 : 320 + d ≠ 302 := by omega
  have h3 : 320 + d ≠ 303 := by omega
  have h4 : 320 + d ≠ 304 := by omega
  have h5 : 320 ≤ 320 + d ∧ 320 + d < 384 := by omega
  have h6 : 320 + d - 320 = d := by omega
  simp only [crowdedPmap, h1, h2, h3, h4, h5, h6, false_and, true_and, if_false]

private theorem crowdedSystem_pte {i : Fin NENV} {d t pt : Nat} (hi : crowdedSystem.Live i) (hd : d < NUPDE)
    (ht : t < 1024) (hpt : named (crowdedSystem.pmap.mem (crowdedSystem.envs i).pgdir d) = some pt)
    (h0 : crowdedSystem.pmap.mem pt t ≠ 0) :
    named (crowdedSystem.pmap.mem pt t) = some 304 ∧
      ((i = 0 ∧ d * 1024 + t < 65534) ∨ (i = 1 ∧ d = 2 ∧ t = 0)) := by
  have hne : crowdedSystem.pmap.mem (crowdedSystem.envs i).pgdir d ≠ 0 := by
    intro hz
    simp [hz] at hpt
  rcases crowdedSystem_pde hi hd hne with ⟨rfl, hlt, heq⟩ | ⟨rfl, rfl, heq⟩
  · rw [heq, named_entry (by omega) (by decide)] at hpt
    obtain rfl := Option.some.inj hpt
    have htable : crowdedSystem.pmap.mem (320 + d) t = _ := crowdedPmap_table hlt t
    rw [htable] at h0 ⊢
    split at h0
    · next hc =>
      rw [if_pos hc, named_entry (by decide) (by decide)]
      exact ⟨rfl, .inl ⟨rfl, hc.2⟩⟩
    · exact absurd rfl h0
  · rw [heq, named_entry (by decide) (by decide)] at hpt
    obtain rfl := Option.some.inj hpt
    by_cases ht0 : t = 0
    · subst ht0
      exact ⟨by decide, .inr ⟨rfl, rfl, rfl⟩⟩
    · simp [crowdedSystem, crowdedPmap, ht0] at h0

private theorem crowdedSystem_target {x : Slot} {p : Nat} :
    crowdedSystem.target x = some p ↔
      (p = 304 ∧ ∃ k, crowdedPlace k = x) ∨
      (((301 ≤ p ∧ p ≤ 303) ∨ (320 ≤ p ∧ p < 384)) ∧ x = crowdedOwner p) := by
  constructor
  · intro h
    have hzero {w : Nat} (hw : named w = some p) : w ≠ 0 := by
      rintro rfl
      simp at hw
    cases x with
    | dir i =>
      obtain ⟨hi, rfl⟩ := (crowdedSystem.target_dir_iff i p).mp h
      obtain rfl | rfl := sampleSystem_live hi
      · exact .inr ⟨by decide, rfl⟩
      · exact .inr ⟨by decide, rfl⟩
    | pde i d =>
      by_cases hi : crowdedSystem.Live i
      · rw [target_pde hi] at h
        rcases crowdedSystem_pde hi d.isLt (hzero h) with ⟨rfl, hlt, heq⟩ | ⟨rfl, hd, heq⟩
        · rw [heq, named_entry (by omega) (by decide)] at h
          obtain rfl := Option.some.inj h
          refine .inr ⟨by omega, ?_⟩
          have h1 : 320 + d.val ≠ 301 := by omega
          have h2 : 320 + d.val ≠ 302 := by omega
          have h3 : 320 + d.val ≠ 303 := by omega
          have h4 : 320 + d.val - 320 = d.val := by omega
          simp [crowdedOwner, h1, h2, h3]
        · rw [heq, named_entry (by decide) (by decide)] at h
          obtain rfl := Option.some.inj h
          obtain rfl : d = 2 := Fin.ext hd
          exact .inr ⟨by decide, rfl⟩
      · simp [System.target, hi] at h
    | pte i d t =>
      by_cases hi : crowdedSystem.Live i
      · simp only [System.target, hi, if_true] at h
        obtain ⟨pt, hpt, hp⟩ := Option.bind_eq_some_iff.mp h
        obtain ⟨h304, hplace⟩ := crowdedSystem_pte hi d.isLt t.isLt hpt (hzero hp)
        obtain rfl := Option.some.inj (h304.symm.trans hp)
        refine .inl ⟨rfl, ?_⟩
        rcases hplace with ⟨rfl, hlt⟩ | ⟨rfl, hd, ht⟩
        · refine ⟨some ⟨d * 1024 + t, hlt⟩, ?_⟩
          simp only [crowdedPlace, Slot.pte.injEq, true_and, Fin.ext_iff]
          omega
        · exact ⟨none, by
            obtain rfl : d = 2 := Fin.ext hd
            obtain rfl : t = 0 := Fin.ext ht
            rfl⟩
      · simp [System.target, hi] at h
    | kern d => simp [System.target, crowdedSystem, crowdedPmap] at h
  · have hlive : crowdedSystem.Live 0 := by decide
    rintro (⟨rfl, - | k, rfl⟩ | ⟨hp, rfl⟩)
    · decide
    · have hd : k.val / 1024 < 64 := by omega
      have hk : k.val / 1024 * 1024 + k.val % 1024 < 65534 := by omega
      have hdir : named (crowdedSystem.pmap.mem (crowdedSystem.envs 0).pgdir (k.val / 1024))
          = some (320 + k.val / 1024) := by
        refine (congrArg named (crowdedPmap_dir hd)).trans (named_entry (by omega) (by decide))
      refine (target_pte hlive (d := ⟨k.val / 1024, _⟩) hdir _).trans ?_
      refine (congrArg named (crowdedPmap_table hd _)).trans ?_
      rw [if_pos ⟨Nat.mod_lt _ (by decide), hk⟩]
      exact named_entry (by decide) (by decide)
    · by_cases hlow : p ≤ 303
      · have hp : p = 301 ∨ p = 302 ∨ p = 303 := by omega
        rcases hp with rfl | rfl | rfl
        all_goals decide
      · have hd : p - 320 < 64 := by omega
        have hN : NUPDE = 955 := rfl
        have howner : crowdedOwner p = .pde 0 ⟨p - 320, by omega⟩ := by
          rw [crowdedOwner, if_neg (by omega), if_neg (by omega), if_neg (by omega), dif_pos]
        have hentry : 320 + (p - 320) = p := by omega
        rw [howner, target_pde hlive]
        refine (congrArg named (crowdedPmap_dir hd)).trans ?_
        rw [named_entry (by omega) (by decide), hentry]

private theorem crowdedSystem_references (p : Nat) : references crowdedSystem.target p =
    if p = 304 then 65535 else if (301 ≤ p ∧ p ≤ 303) ∨ (320 ≤ p ∧ p < 384) then 1 else 0 := by
  classical
  by_cases hp : p = 304
  · subst hp
    rw [if_pos rfl, references_eq_card crowdedPlace_injective fun x => ?_]
    · rw [Fintype.card_option, Fintype.card_fin]
    · rw [crowdedSystem_target]
      simp
  · rw [if_neg hp, references_eq_ite fun x y hx hy => ?_]
    · refine if_congr ⟨?_, fun hr => ?_⟩ rfl rfl
      · rintro ⟨x, hx⟩
        rcases crowdedSystem_target.mp hx with ⟨h304, -⟩ | ⟨hr, -⟩
        · exact absurd h304 hp
        · exact hr
      · exact ⟨crowdedOwner p, crowdedSystem_target.mpr (.inr ⟨hr, rfl⟩)⟩
    · rcases crowdedSystem_target.mp hx with ⟨h304, -⟩ | ⟨-, rfl⟩
      · exact absurd h304 hp
      · rcases crowdedSystem_target.mp hy with ⟨h304, -⟩ | ⟨-, rfl⟩
        · exact absurd h304 hp
        · rfl

private theorem crowdedSystem_shaped : Shaped CrowdedPage crowdedSystem := by
  unfold CrowdedPage
  refine ⟨⟨by decide, fun p hp => by omega, by decide⟩, fun d hd => ?_, fun i hi => ?_,
    fun i d hi hd => ?_, fun i d t pt hi hd ht hpt => ?_, fun x y p hx hxp hyp => ?_⟩
  · simp [crowdedSystem, crowdedPmap]
  · obtain rfl | rfl := sampleSystem_live hi
    · decide
    · decide
  · by_cases h0 : crowdedSystem.pmap.mem (crowdedSystem.envs i).pgdir d = 0
    · exact .inl h0
    · rcases crowdedSystem_pde hi hd h0 with ⟨-, hlt, heq⟩ | ⟨-, -, heq⟩
      · rw [heq]
        exact .entry (by omega) (by omega) (by decide)
      · rw [heq]
        exact .entry (by decide) (by decide) (by decide)
  · by_cases h0 : crowdedSystem.pmap.mem pt t = 0
    · exact .inl h0
    · obtain ⟨hnamed, -⟩ := crowdedSystem_pte hi hd ht hpt h0
      obtain ⟨hpresent, hpage⟩ := named_eq_some.mp hnamed
      exact .inr ⟨hpresent, by rw [hpage]; decide⟩
  · rcases crowdedSystem_target.mp hxp with ⟨-, k, rfl⟩ | ⟨hp, rfl⟩
    · rcases k with - | k <;> exact absurd hx not_false
    · rcases crowdedSystem_target.mp hyp with ⟨h304, -⟩ | ⟨-, rfl⟩
      · omega
      · rfl

theorem crowdedSystem_accounted : Accounted CrowdedPage crowdedSystem := by
  obtain ⟨xs, hxs⟩ := sampleSystem_envTable
  refine ⟨⟨crowdedSystem_shaped, [305, 306, 307, 308, 309, 310, 311, 312],
    by simp [Chain, crowdedSystem, crowdedPmap], fun p hp => ?_, fun p _ => ?_, fun p _ => ?_,
    fun p hp => ?_, fun p hp => by cases hp⟩, xs, (SameTable.pmap sampleSystem crowdedPmap).envTable hxs⟩
  · simp only [List.mem_cons, List.not_mem_nil, or_false] at hp
    unfold CrowdedPage
    omega
  · rw [crowdedSystem_references]
    rfl
  · rw [crowdedSystem_references]
    split_ifs <;> omega
  · have hmem : p ∈ [305, 306, 307, 308, 309, 310, 311, 312] ↔ 305 ≤ p ∧ p ≤ 312 := by
      simp only [List.mem_cons, List.not_mem_nil, or_false]
      omega
    unfold CrowdedPage at hp
    rw [crowdedSystem_references, hmem]
    simp only [ne_eq, reduceCtorEq, not_false_eq_true, and_true]
    split_ifs with h304 hused
    · simp only [iff_false]
      omega
    · simp only [iff_false]
      omega
    · omega

private theorem forkPage_absent {envid : BitVec 32} (h : uvpt s e n = 0) : forkPage e envid s n = some s := by
  simp [forkPage, h]

/-- The crowded state after `sys_exofork`, and when the page is duplicated. -/
def crowdedChild : System := (succeeded (crowdedSystem.sysExofork 1)).getD crowdedSystem

def crowdedShared : System := (duppage 1 4098 crowdedChild 2048).getD crowdedSystem

/-- The program has no page but the one at `0x800000`. -/
def Lone (s : System) : Prop :=
  (s.envs 1).pgdir = 302 ∧ s.pmap.mem 302 2 = entry 303 (PTE_W ||| PTE_U) ∧
    (∀ d < 1024, d ≠ 2 → d ≠ PDX UVPT → s.pmap.mem 302 d = 0) ∧
    (∀ t < 1024, t ≠ 0 → s.pmap.mem 303 t = 0) ∧ ∀ t < 1024, s.pmap.mem 0 t = 0

instance : DecidablePred Lone := fun _ => inferInstanceAs (Decidable (_ ∧ _))

theorem Lone.uvpt (h : Lone s) (hn : n < USTACKTOP / PGSIZE) (hne : n ≠ 2048) : uvpt s 1 n = 0 := by
  obtain ⟨hdir, htable, hdirs, hptes, hzero⟩ := h
  have hnum := USTACKTOP_div_lt hn
  have hN : NUPAGE = 977920 := rfl
  have hU : PDX UVPT = 957 := by decide
  rw [User.uvpt, Pmap.tableOf, hdir, PDX_page hnum, PTX_page]
  by_cases hd : n / 1024 = 2
  · rw [hd, htable, pa2page_entry (by decide) (by decide)]
    exact hptes _ (Nat.mod_lt _ (by decide)) (by omega)
  · rw [hdirs _ (by omega) hd (by omega)]
    exact hzero _ (Nat.mod_lt _ (by decide))

private theorem fork_of_loop {r : Int} {u v : System} {c : Fin NENV} {upcall : BitVec 32}
    (ho : s.sysExofork c = .returns r u)
    (hloop : (List.range (USTACKTOP / PGSIZE)).foldlM (forkPage c (BitVec.ofInt 32 r)) u = some v)
    {w : System}
    (halloc : succeeded (v.sysPageAlloc c (BitVec.ofInt 32 r) (BitVec.ofNat 32 (UXSTACKTOP - PGSIZE))
      (permArg (PTE_W ||| PTE_U ||| PTE_P))) = some w)
    {x : System} (hupcall : succeeded (w.sysEnvSetPgfaultUpcall c (BitVec.ofInt 32 r) upcall) = some x)
    (hstatus : succeeded (x.sysEnvSetStatus c (BitVec.ofInt 32 r) 2) = some t) :
    fork s c true upcall = some (BitVec.ofInt 32 r, t) := by
  simp only [fork, setPgfaultHandler, forkParent, ho, hloop, halloc, hupcall, hstatus, if_true,
    Option.bind_eq_bind, Option.bind_some, Option.pure_def]

private theorem crowdedChild_loop :
    (List.range (USTACKTOP / PGSIZE)).foldlM (forkPage 1 4098) crowdedChild = some crowdedShared := by
  have hchild : Lone crowdedChild := by decide +kernel
  have hshared : Lone crowdedShared := by decide +kernel
  have hround : (forkPage 1 4098 crowdedChild 2048).isSome = true := by decide +kernel
  have hpresent : uvpd crowdedChild 1 (PDX (2048 * PGSIZE)) &&& PTE_P ≠ 0 ∧
      uvpt crowdedChild 1 2048 &&& PTE_P ≠ 0 ∧ uvpt crowdedChild 1 2048 &&& PTE_U ≠ 0 := by
    decide +kernel
  refine foldlM_range_single (k := 2048) (by decide) (fun n hn => ?_) ?_ fun n hlo hhi => ?_
  · exact forkPage_absent (hchild.uvpt (by
      have hS : USTACKTOP / PGSIZE = 977918 := by decide
      omega) (by omega))
  · rw [forkPage, if_pos hpresent] at hround ⊢
    obtain ⟨v, hv⟩ := Option.isSome_iff_exists.mp hround
    rw [crowdedShared, hv, Option.getD_some]
  · exact forkPage_absent (hshared.uvpt hhi (by omega))

private theorem crowdedSystem_code : (match crowdedSystem.sysExofork 1 with
    | .returns r _ => r
    | _ => 0) = 4098 := by
  decide +kernel

/-- The count of page 304 goes to zero when the child maps it, and the page becomes the exception
stack of the child. -/
theorem crowded_fork : ∃ t, fork crowdedSystem 1 true 0x800020 = some (4098, t) ∧
    read t 1 0x800000 = some 0 := by
  have hexofork : (succeeded (crowdedSystem.sysExofork 1)).isSome = true := by decide +kernel
  have hcode := crowdedSystem_code
  have hrest : ((do
      let s ← succeeded (crowdedShared.sysPageAlloc 1 4098 (BitVec.ofNat 32 (UXSTACKTOP - PGSIZE))
        (permArg (PTE_W ||| PTE_U ||| PTE_P)))
      let s ← succeeded (s.sysEnvSetPgfaultUpcall 1 4098 0x800020)
      succeeded (s.sysEnvSetStatus 1 4098 2)).map fun s => read s 1 0x800000) = some (some 0) := by
    decide +kernel
  obtain ⟨u, hu⟩ := Option.isSome_iff_exists.mp hexofork
  have hchild : crowdedChild = u := by rw [crowdedChild, hu, Option.getD_some]
  obtain ⟨r, ho, -⟩ := succeeded_eq_some hu
  rw [ho] at hcode
  obtain rfl : r = 4098 := hcode
  obtain ⟨t, ht, hread⟩ := Option.map_eq_some_iff.mp hrest
  obtain ⟨w, halloc, ht⟩ := Option.bind_eq_some_iff.mp ht
  obtain ⟨x, hupcall, hstatus⟩ := Option.bind_eq_some_iff.mp ht
  refine ⟨t, fork_of_loop ho ?_ halloc hupcall hstatus, hread⟩
  rw [← hchild]
  exact crowdedChild_loop

private theorem crowdedSystem_not_private {n w : Nat} (hw : crowdedSystem.view 1 n = some w) :
    ¬ Private w := by
  obtain ⟨hva, htarget⟩ := target_of_view hw
  obtain ⟨-, hn, -⟩ := view_eq_some hw
  rcases crowdedSystem_target.mp htarget with ⟨-, k, hk⟩ | ⟨-, howner⟩
  · rcases k with - | k
    · simp only [crowdedPlace, Slot.page, Slot.pte.injEq, true_and, Fin.ext_iff] at hk
      rw [PDX_page hn, PTX_page] at hk
      have h2 : ((2 : Fin NUPDE) : Nat) = 2 := rfl
      have h0 : ((0 : Fin 1024) : Nat) = 0 := rfl
      obtain rfl : n = 2048 := by omega
      have hview : crowdedSystem.view 1 2048 = some (entry 304 (PTE_COW ||| PTE_U)) := by
        decide +kernel
      obtain rfl := Option.some.inj (hview.symm.trans hw)
      decide
    · simp [crowdedPlace, Slot.page] at hk
  · unfold crowdedOwner at howner
    split_ifs at howner <;> exact Slot.noConfusion howner

/-- A program with a page that is mapped 65535 times forks, and the page is cleared. -/
theorem cow_count_wraps :
    ¬ ∀ (M : Nat → Prop) (s : System) (r : Fin NENV) (acts : List Act), Accounted M s → s.Live r →
      (∀ n w, s.view r n = some w → Private w →
        ∀ i k w', s.view i k = some w' → pageOf w' = pageOf w → i = r ∧ k = n) →
      ∀ e va, (forkMachine.run acts (Family.start s r)).members e = true →
        read (forkMachine.run acts (Family.start s r)).sys e va =
          (forkMachine.run acts (Family.start s r)).reference e va := by
  intro h
  obtain ⟨t, ht, hread⟩ := crowded_fork
  have hstep : (Act.fork 1 true 0x800020).exec (Family.start crowdedSystem 1) = some
      { sys := t
        members := Function.update (Family.start crowdedSystem 1).members (ENVX 4098) true
        reference := Function.update (Family.start crowdedSystem 1).reference (ENVX 4098)
          ((Family.start crowdedSystem 1).reference 1) } := by
    have hmember : (Family.start crowdedSystem 1).members 1 = true := rfl
    have hsys : (Family.start crowdedSystem 1).sys = crowdedSystem := rfl
    rw [Act.exec, if_pos hmember, hsys, ht, Option.map_some]
  have hcopy := h CrowdedPage crowdedSystem 1 [.fork 1 true 0x800020] crowdedSystem_accounted
    (by decide) (fun n w hw hpriv => absurd hpriv (crowdedSystem_not_private hw)) 1 0x800000
  rw [forkMachine.run_single, forkMachine_step hstep] at hcopy
  have hne : (1 : Fin NENV) ≠ ENVX 4098 := by decide
  have hbefore : (Family.start crowdedSystem 1).reference 1 0x800000 = some 65 := by decide +kernel
  dsimp only at hcopy
  rw [Function.update_of_ne hne, Function.update_of_ne hne, hread, hbefore] at hcopy
  exact absurd (hcopy rfl) (by decide)

/-- A program forks and its child writes. -/
theorem cow_isolation_sample :
    let acts : List Act := [.fork 1 false 0x800020, .write 2 0x800000 7, .read 1 0x800000]
    forkMachine.Along Act.Counted acts (Family.start sampleSystem 1) ∧
      ∀ e va, (forkMachine.run acts (Family.start sampleSystem 1)).members e = true →
        read (forkMachine.run acts (Family.start sampleSystem 1)).sys e va =
          (forkMachine.run acts (Family.start sampleSystem 1)).reference e va := by
  intro acts
  have hcount : forkMachine.Along Act.Counted acts (Family.start sampleSystem 1) := by
    refine ⟨?_, fun _ => ⟨(fun _ _ _ _ _ he => by cases he), fun _ =>
      ⟨(fun _ _ _ _ _ he => by cases he), fun _ => trivial⟩⟩⟩
    refine counted_of_le (M := SamplePage) sampleSystem_accounted fun p hp => ?_
    simp only [Family.start, sampleSystem, samplePmap]
    split <;> omega
  refine ⟨hcount, cow_isolation SamplePage sampleSystem 1 acts sampleSystem_accounted (by decide)
    (fun n w hw _ i k w' hw' hpage => ?_) hcount⟩
  refine sole_of_count hw ?_ hw' hpage
  rw [sampleSystem_references]
  split <;> omega

end DamnOS.User
