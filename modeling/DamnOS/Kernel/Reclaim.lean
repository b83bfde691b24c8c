import DamnOS.Kernel.Conservation
import DamnOS.Kernel.Authority

/-!
# Freeing an environment

`env_free` walks the user part of an address space and gives up every reference in it, the page tables
and the directory included.
-/

namespace DamnOS.Kernel

open DamnOS.Framework

namespace Pmap

def Listed (m : Pmap) (p : Nat) : Prop := ∃ xs, Chain m.ppLink m.pageFreeList xs ∧ p ∈ xs

/-- The free list ends, and the pages outside it have no link. -/
def Unlinked (m : Pmap) : Prop :=
  (∃ xs, Chain m.ppLink m.pageFreeList xs) ∧ ∀ p, ¬ m.Listed p → m.ppLink p = none

variable {m m' : Pmap} {p : Nat}

private theorem freeTable_kernPgdir {pgdir d : Nat} (h : m.freeTable pgdir d = some m') :
    m'.kernPgdir = m.kernPgdir := by
  unfold freeTable at h
  split at h
  · rw [← Option.some.inj h]
  · obtain ⟨u, hu, hrest⟩ := Option.bind_eq_some_iff.mp h
    have hkern : u.kernPgdir = m.kernPgdir := by
      refine foldlM_invariant (I := fun b : Pmap => b.kernPgdir = m.kernPgdir) ?_ rfl hu
      intro t _ b b' hb hstep
      unfold freeEntry at hstep
      split at hstep
      · unfold pageRemove at hstep
        split at hstep
        · rw [← Option.some.inj hstep, hb]
        · obtain ⟨v, hv, rfl⟩ := Option.map_eq_some_iff.mp hstep
          exact (pageDecref_kernPgdir hv).trans hb
      · rw [← Option.some.inj hstep, hb]
    exact (pageDecref_kernPgdir hrest).trans hkern

private theorem freePgdir_kernPgdir {pgdir : Nat} (h : m.freePgdir pgdir = some m') :
    m'.kernPgdir = m.kernPgdir := by
  obtain ⟨u, hu, hrest⟩ := Option.bind_eq_some_iff.mp h
  refine (pageDecref_kernPgdir hrest).trans ?_
  exact foldlM_invariant (I := fun b : Pmap => b.kernPgdir = m.kernPgdir)
    (fun d _ b b' hb hstep => (freeTable_kernPgdir hstep).trans hb) rfl hu

theorem Unlinked.congr (h : m.Unlinked) (hl : m'.ppLink = m.ppLink)
    (hf : m'.pageFreeList = m.pageFreeList) : m'.Unlinked := by
  unfold Unlinked Listed at *
  rw [hl, hf]
  exact h

private theorem pageDecref_ppRef {q : Nat} (h : m.pageDecref p = some m') (hq : q ≠ p) :
    m'.ppRef q = m.ppRef q := by
  unfold Pmap.pageDecref at h
  simp only at h
  split at h
  · unfold Pmap.pageFree at h
    split_ifs at h
    rw [← Option.some.inj h]
    simp [setRef, hq]
  · rw [← Option.some.inj h]
    simp [setRef, hq]

/-- A page that is not on the list can lose a reference, and be freed. -/
theorem Unlinked.pageDecref (h : m.Unlinked) (hp : ¬ m.Listed p) :
    ∃ m', m.pageDecref p = some m' ∧ m'.Unlinked := by
  have hlink := h.2 p hp
  obtain ⟨xs, hxs⟩ := h.1
  have hpx : p ∉ xs := fun hmem => hp ⟨xs, hxs, hmem⟩
  unfold Pmap.pageDecref
  simp only
  split
  · next hz =>
    have hlink' : (m.setRef p (m.ppRef p + 65535)).ppLink p = none := hlink
    unfold Pmap.pageFree
    rw [if_neg (not_not.mpr hz), if_neg (not_not.mpr hlink')]
    have hpush := hxs.push hpx
    refine ⟨_, rfl, ⟨p :: xs, hpush⟩, fun q hq => ?_⟩
    have hqx : q ∉ p :: xs := fun hmem => hq ⟨p :: xs, hpush, hmem⟩
    have hqp : q ≠ p := fun heq => hqx (by simp [heq])
    change Function.update m.ppLink p _ q = none
    rw [Function.update_of_ne hqp]
    refine h.2 q ?_
    rintro ⟨ys, hys, hmem⟩
    rw [hys.unique hxs] at hmem
    exact hqx (List.mem_cons_of_mem p hmem)
  · exact ⟨_, rfl, h.congr rfl rfl⟩

end Pmap

namespace Booked

variable {M : Nat → Prop} {held : Option Nat} {s : System} {e : Fin NENV} {p va : Nat}

private theorem not_listed (h : Booked M held s) (hM : M p) {x : Slot} (hx : s.target x = some p) :
    ¬ s.pmap.Listed p := by
  rintro ⟨xs, hxs, hmem⟩
  obtain ⟨ys, hl⟩ := h.ledger
  rw [hxs.unique hl.chain] at hmem
  have hzero := ((hl.free p hM).mp hmem).1
  exact references_eq_zero.mp hzero x hx

/-- The links are in order, and counts outside `M` are those of `m₀`. -/
def Releasing (M : Nat → Prop) (m₀ m : Pmap) : Prop :=
  m.Unlinked ∧ ∀ q, ¬ M q → m.ppRef q = m₀.ppRef q

theorem Releasing.congr {m₀ m m' : Pmap} (h : Releasing M m₀ m) (hr : m'.ppRef = m.ppRef)
    (hl : m'.ppLink = m.ppLink) (hf : m'.pageFreeList = m.pageFreeList) : Releasing M m₀ m' :=
  ⟨h.1.congr hl hf, by rw [hr]; exact h.2⟩

theorem Releasing.pageDecref {m₀ m : Pmap} (h : Releasing M m₀ m) (hM : M p) (hp : ¬ m.Listed p) :
    ∃ m', m.pageDecref p = some m' ∧ Releasing M m₀ m' := by
  obtain ⟨m', hm', hu⟩ := h.1.pageDecref hp
  refine ⟨m', hm', hu, fun q hq => ?_⟩
  have hqp : q ≠ p := by
    rintro rfl
    exact hq hM
  rw [Pmap.pageDecref_ppRef hm' hqp]
  exact h.2 q hq

private theorem freeEntry_total {m₀ : Pmap} {d t pt : Nat} (h : Booked M held s) (hu : Releasing M m₀ s.pmap)
    (he : s.Live e) (hd : d < NUPDE) (ht : t < 1024)
    (hpt : named (s.pmap.mem (s.envs e).pgdir d) = some pt) :
    ∃ m, s.pmap.freeEntry (s.envs e).pgdir pt d t = some m ∧ Releasing M m₀ m := by
  unfold Pmap.freeEntry
  split
  · next hpresent =>
    have hd1024 : d < 1024 := hd.trans (by decide)
    have hpdx := PDX_PGADDR hd1024 ht
    have hptx : PTX (PGADDR d t 0) = t := PTX_PGADDR ht
    have h0 : s.pmap.mem (s.envs e).pgdir (PDX (PGADDR d t 0)) ≠ 0 := by
      intro h0
      rw [hpdx] at h0
      simp [h0] at hpt
    have htable : s.pmap.tableOf (s.envs e).pgdir (PGADDR d t 0) = pt := by
      rw [Pmap.tableOf, hpdx]
      exact (named_eq_some.mp hpt).2
    have hname : named (s.pmap.mem pt t) = some (pa2page (PTE_ADDR (s.pmap.mem pt t))) :=
      named_eq_some.mpr ⟨hpresent, rfl⟩
    have hslot : s.target (.pte e ⟨d, hd⟩ ⟨t, ht⟩) = some (pa2page (PTE_ADDR (s.pmap.mem pt t))) :=
      (target_pte he hpt _).trans hname
    have hM := (h.pte e d t pt he hd ht hpt).managed hname
    obtain ⟨m, hm, hum⟩ := hu.pageDecref hM (h.not_listed hM hslot)
    refine ⟨m.store pt t 0, ?_, hum.congr rfl rfl rfl⟩
    rw [Pmap.pageRemove, Pmap.pageLookup_found h0, htable, hptx]
    simp [hm]
  · exact ⟨_, rfl, hu⟩

private theorem freeTable_total {m₀ : Pmap} {d : Nat} (h : Booked M held s) (hu : Releasing M m₀ s.pmap)
    (he : s.Live e) (hd : d < NUPDE) :
    ∃ m, s.pmap.freeTable (s.envs e).pgdir d = some m ∧ Releasing M m₀ m := by
  unfold Pmap.freeTable
  split
  · exact ⟨_, rfl, hu⟩
  · next hpresent =>
    have hpt := named_eq_some.mpr ⟨hpresent, rfl⟩
    generalize pa2page (PTE_ADDR (s.pmap.mem (s.envs e).pgdir d)) = pt at hpt ⊢
    obtain ⟨b, hb, hbooked, hub, hdir⟩ := foldlM_range_total (n := 1024) (b := s.pmap)
      (f := Pmap.freeEntry (s.envs e).pgdir pt d)
      (I := fun _ b => Booked M held { s with pmap := b } ∧ Releasing M m₀ b ∧
        b.mem (s.envs e).pgdir = s.pmap.mem (s.envs e).pgdir)
      (by
        rintro k hk b ⟨hb, hub, hdir⟩
        have hpt' : named (b.mem (s.envs e).pgdir d) = some pt := (congrArg named (congrFun hdir d)).trans hpt
        obtain ⟨b', hb', hub'⟩ := hb.freeEntry_total hub he hd hk hpt'
        obtain ⟨hbooked, -, -, hdir'⟩ := hb.freeEntry he hd hk hpt' hb'
        exact ⟨b', hb', hbooked, hub', hdir'.trans hdir⟩)
      ⟨h, hu, rfl⟩
    have hpt' : named (b.mem (s.envs e).pgdir d) = some pt := (congrArg named (congrFun hdir d)).trans hpt
    have hlive : ({ s with pmap := b } : System).Live e := he
    have hnot : ¬ b.Listed pt := hbooked.not_listed (h.table_managed he hd hpt)
      ((target_pde hlive ⟨d, hd⟩).trans hpt')
    have hub' : Releasing M m₀ (b.store (s.envs e).pgdir d 0) := hub.congr rfl rfl rfl
    dsimp only
    rw [hb]
    exact hub'.pageDecref (h.table_managed he hd hpt) hnot

theorem envFree_total (h : Booked M held s) (hu : s.pmap.Unlinked) (he : s.Live e) :
    ∃ t, s.envFree e = some t ∧ Releasing M s.pmap t.pmap := by
  obtain ⟨b, hb, hbooked, hub⟩ := foldlM_range_total (n := NUPDE) (b := s.pmap)
    (f := Pmap.freeTable (s.envs e).pgdir)
    (I := fun _ b => Booked M held { s with pmap := b } ∧ Releasing M s.pmap b)
    (by
      rintro k hk b ⟨hb, hub⟩
      obtain ⟨b', hb', hub'⟩ := hb.freeTable_total hub he hk
      exact ⟨b', hb', (hb.freeTable he hk hb').1, hub'⟩)
    ⟨h, hu, fun _ _ => rfl⟩
  have hlive : ({ s with pmap := b } : System).Live e := he
  obtain ⟨m, hm, hum⟩ := hub.pageDecref (h.dir e he) (hbooked.not_listed (h.dir e he) (target_dir hlive))
  have hfree : s.pmap.freePgdir (s.envs e).pgdir = some m := by
    unfold Pmap.freePgdir
    rw [PDX_UTOP, hb, Option.bind_some, hm]
  obtain ⟨t, ht⟩ : ∃ t, s.envFree e = some t := by
    unfold System.envFree
    rw [hfree]
    exact ⟨_, rfl⟩
  refine ⟨t, ht, ?_⟩
  unfold System.envFree at ht
  rw [hfree] at ht
  rw [← Option.some.inj ht]
  exact hum

end Booked

/-- The environment that a place belongs to. -/
def Slot.owner : Slot → Option (Fin NENV)
  | .dir i => some i
  | .pde i _ => some i
  | .pte i _ _ => some i
  | .kern _ => none

/-- The references of a state without those of `e`. -/
def System.without (s : System) (e : Fin NENV) (x : Slot) : Option Nat :=
  if x.owner = some e then none else s.target x

section Left

variable {M : Nat → Prop} {s t : System} {e i : Fin NENV}

/-- A page that `e` owns is its directory or one of its page tables. -/
theorem Shaped.slot_of_owns (h : Shaped M s) {p : Nat} (he : s.Live e) (hp : s.Owns e p) :
    ∃ x : Slot, x.Structural ∧ x.owner = some e ∧ s.target x = some p := by
  rcases hp with rfl | ⟨d, hd, h0, rfl⟩
  · exact ⟨.dir e, trivial, rfl, target_dir he⟩
  · exact ⟨.pde e ⟨d, hd⟩, trivial, rfl,
      (target_pde he ⟨d, hd⟩).trans ((h.pde e d he hd).named h0).1⟩

/-- Pages that places outside `e` refer to, and the kernel's directory, are not written. -/
theorem Shaped.kept (h : Shaped M s) (he : s.Live e) (ht : s.envFree e = some t) {p : Nat}
    (hp : (∃ x : Slot, x.owner ≠ some e ∧ s.target x = some p) ∨ p = s.pmap.kernPgdir) :
    t.pmap.mem p = s.pmap.mem p := by
  obtain ⟨m, hm, rfl⟩ := Option.map_eq_some_iff.mp ht
  refine (Pmap.Emptied.freePgdir hm).outside p fun hown => ?_
  obtain ⟨x, hx, howner, htarget⟩ := h.slot_of_owns he hown
  rcases hp with ⟨y, hy, hyp⟩ | rfl
  · rw [h.exclusive x y p hx htarget hyp] at hy
    exact hy howner
  · rcases hown with hk | ⟨d, hd, h0, hk⟩
    · exact h.dir_ne_kern he hk
    · have hname := ((h.pde e d he hd).named h0).1
      rw [hk] at hname
      exact h.table_ne_kern he hd hname rfl

private theorem envFree_kernPgdir (ht : s.envFree e = some t) : t.pmap.kernPgdir = s.pmap.kernPgdir := by
  obtain ⟨m, hm, rfl⟩ := Option.map_eq_some_iff.mp ht
  exact Pmap.freePgdir_kernPgdir hm

private theorem Shaped.envFree_target (h : Shaped M s) (he : s.Live e) (ht : s.envFree e = some t) :
    t.target = s.without e := by
  have henv : ∀ i, i ≠ e → t.envs i = s.envs i := by
    obtain ⟨m, -, rfl⟩ := Option.map_eq_some_iff.mp ht
    intro i hi
    simp [System.setEnv, hi]
  have hfreed : ¬ t.Live e := by
    obtain ⟨m, -, rfl⟩ := Option.map_eq_some_iff.mp ht
    simp [System.Live, System.setEnv]
  have hlive {i : Fin NENV} (hi : i ≠ e) : t.Live i ↔ s.Live i := by
    rw [System.Live, System.Live, henv i hi]
  have hdir {i : Fin NENV} (hi : i ≠ e) (hl : s.Live i) :
      t.pmap.mem (s.envs i).pgdir = s.pmap.mem (s.envs i).pgdir :=
    h.kept he ht (.inl ⟨.dir i, by simpa [Slot.owner] using hi, target_dir hl⟩)
  funext x
  unfold System.without
  cases x with
  | dir i =>
    by_cases hi : i = e
    · subst hi
      simp [Slot.owner, System.target, hfreed]
    · simp only [Slot.owner, Option.some.injEq, if_neg hi, System.target, hlive hi, henv i hi]
  | pde i d =>
    by_cases hi : i = e
    · subst hi
      simp [Slot.owner, System.target, hfreed]
    · simp only [Slot.owner, Option.some.injEq, if_neg hi, System.target, hlive hi, henv i hi]
      split
      · next hl => rw [hdir hi hl]
      · rfl
  | pte i d n =>
    by_cases hi : i = e
    · subst hi
      simp [Slot.owner, System.target, hfreed]
    · simp only [Slot.owner, Option.some.injEq, if_neg hi, System.target, hlive hi, henv i hi]
      split
      · next hl =>
        rw [hdir hi hl]
        cases hpt : named (s.pmap.mem (s.envs i).pgdir d) with
        | none => rfl
        | some pt =>
          have hkept : t.pmap.mem pt = s.pmap.mem pt :=
            h.kept he ht (.inl ⟨.pde i d, by simpa [Slot.owner] using hi, (target_pde hl d).trans hpt⟩)
          simp only [Option.bind_some, hkept]
      · rfl
  | kern d =>
    simp only [Slot.owner, reduceCtorEq, if_false, System.target, envFree_kernPgdir ht,
      h.kept he ht (.inr rfl)]

private theorem Shaped.envFree_mapping (h : Shaped M s) (he : s.Live e) (ht : s.envFree e = some t)
    (hi : s.Live i) (hie : i ≠ e) {va : Nat} (hva : va < UTOP) :
    t.pmap.mapping (t.envs i).pgdir va = s.pmap.mapping (s.envs i).pgdir va := by
  have henv : t.envs i = s.envs i := by
    obtain ⟨m, -, rfl⟩ := Option.map_eq_some_iff.mp ht
    simp [System.setEnv, hie]
  rw [henv]
  refine Pmap.mapping_of_owns (fun p hp => ?_) hva
  obtain ⟨x, -, howner, htarget⟩ := h.slot_of_owns hi hp
  refine h.kept he ht (.inl ⟨x, ?_, htarget⟩)
  rw [howner]
  simpa using hie

end Left

/-- Some place of `e` refers to the page, and no other place does. -/
def System.OnlyBy (s : System) (e : Fin NENV) (p : Nat) : Prop :=
  (∃ x, s.target x = some p) ∧ ∀ x, s.target x = some p → x.owner = some e

/-- The sixteen-bit counts of the pages of `M` are the numbers of references, `xs` is the free list,
pages outside it have no link, and no entry maps page 0. -/
structure Balanced (M : Nat → Prop) (s : System) (xs : List Nat) : Prop where
  chain : Chain s.pmap.ppLink s.pmap.pageFreeList xs
  link : ∀ p, p ∉ xs → s.pmap.ppLink p = none
  count : ∀ p, M p → s.pmap.ppRef p = references s.target p
  bound : ∀ p, s.pmap.ppRef p < 65536
  zero : ∀ i d n, s.target (.pte i d n) ≠ some 0

/-- `env_free(e)` succeeds.  The counts are then those without the references of `e`, the free list
has gained the pages that only `e` referred to, and the other environments map what they did. -/
def System.Reclaims (M : Nat → Prop) (s : System) (e : Fin NENV) (xs : List Nat) : Prop :=
  ∃ t ys, s.envFree e = some t ∧ t.target = s.without e ∧
    (∀ p, M p → t.pmap.ppRef p = references (s.without e) p) ∧
    Chain t.pmap.ppLink t.pmap.pageFreeList ys ∧ ys.Nodup ∧
    (∀ p, p ∈ ys ↔ p ∈ xs ∨ s.OnlyBy e p) ∧
    ∀ i va, s.Live i → i ≠ e → va < UTOP →
      t.pmap.mapping (t.envs i).pgdir va = s.pmap.mapping (s.envs i).pgdir va

section Reclaim

variable {M : Nat → Prop} {s : System} {e : Fin NENV} {xs : List Nat} {p : Nat}

/-- The pages of `M` that are on the list or in use. -/
def Known (M : Nat → Prop) (s : System) (xs : List Nat) (p : Nat) : Prop :=
  M p ∧ (p ∈ xs ∨ ∃ x, s.target x = some p)

theorem Shaped.known (h : Shaped M s) (xs : List Nat) : Shaped (Known M s xs) s where
  pages := ⟨fun hz => h.pages.zero hz.1, fun p hp => h.pages.small p hp.1, fun hk => h.pages.kern hk.1⟩
  kernUser := h.kernUser
  dir i hi := ⟨h.dir i hi, .inr ⟨.dir i, target_dir hi⟩⟩
  pde i d hi hd := by
    rcases h.pde i d hi hd with h0 | ⟨hp, hM⟩
    · exact .inl h0
    · exact .inr ⟨hp, hM, .inr ⟨.pde i ⟨d, hd⟩, (target_pde hi _).trans (named_eq_some.mpr ⟨hp, rfl⟩)⟩⟩
  pte i d t pt hi hd ht hpt := by
    rcases h.pte i d t pt hi hd ht hpt with h0 | ⟨hp, hM⟩
    · exact .inl h0
    · have hpt' : named (s.pmap.mem (s.envs i).pgdir ((⟨d, hd⟩ : Fin NUPDE) : Nat)) = some pt := hpt
      exact .inr ⟨hp, hM, .inr ⟨.pte i ⟨d, hd⟩ ⟨t, ht⟩,
        (target_pte hi hpt' _).trans (named_eq_some.mpr ⟨hp, rfl⟩)⟩⟩
  exclusive := h.exclusive

private theorem Balanced.booked (h : Balanced M s xs) (hs : Shaped M s)
    (hfree : ∀ p ∈ xs, M p ∧ references s.target p = 0) : Booked (Known M s xs) none s := by
  refine ⟨hs.known xs, xs, h.chain, fun p hp => ⟨(hfree p hp).1, .inl hp⟩, fun p hp => h.count p hp.1,
    fun p hp => ?_, fun p hp => ?_, fun p hp => by cases hp⟩
  · rw [← h.count p hp.1]
    exact h.bound p
  · constructor
    · intro hpx
      exact ⟨(hfree p hpx).2, by simp⟩
    · rintro ⟨hzero, -⟩
      rcases hp.2 with hpx | ⟨x, hx⟩
      · exact hpx
      · exact absurd hx (references_eq_zero.mp hzero x)

theorem Balanced.unlinked (h : Balanced M s xs) : s.pmap.Unlinked :=
  ⟨⟨xs, h.chain⟩, fun p hp => h.link p fun hpx => hp ⟨xs, h.chain, hpx⟩⟩

private theorem Shaped.owned_managed (h : Shaped M s) {x : Slot} (hx : s.target x = some p)
    (howner : x.owner = some e) : M p := by
  cases x with
  | dir i =>
    obtain ⟨hi, rfl⟩ := (s.target_dir_iff i p).mp hx
    exact h.dir i hi
  | pde i d =>
    by_cases hi : s.Live i
    · rw [target_pde hi] at hx
      exact h.table_managed hi d.isLt hx
    · simp [System.target, hi] at hx
  | pte i d n =>
    by_cases hi : s.Live i
    · simp only [System.target, hi, if_true] at hx
      obtain ⟨pt, hpt, hp⟩ := Option.bind_eq_some_iff.mp hx
      exact (h.pte i d n pt hi d.isLt n.isLt hpt).managed hp
    · simp [System.target, hi] at hx
  | kern d => cases howner

private theorem references_without_eq_zero : references (s.without e) p = 0 ↔
    ∀ x, s.target x = some p → x.owner = some e := by
  rw [references_eq_zero]
  refine forall_congr' fun x => ?_
  unfold System.without
  by_cases hx : x.owner = some e
  · simp [hx]
  · simp [hx]

/-- `env_free` reclaims exactly the memory of the environment, if no page on the free list is in use
and the pages of directories and page tables have no other use. -/
theorem env_free_reclaims (hb : Balanced M s xs) (hs : Shaped M s)
    (hfree : ∀ p ∈ xs, M p ∧ references s.target p = 0) (he : s.Live e) : s.Reclaims M e xs := by
  have hbooked := hb.booked hs hfree
  obtain ⟨t, ht, -, hother⟩ := hbooked.envFree_total hb.unlinked he
  have htarget := hs.envFree_target he ht
  obtain ⟨ys, hl⟩ := (hbooked.envFree he ht).ledger
  rw [htarget] at hl
  refine ⟨t, ys, ht, htarget, fun p hp => ?_, hl.chain, hl.chain.nodup, fun p => ?_,
    fun i va hi hie hva => hs.envFree_mapping he ht hi hie hva⟩
  · by_cases hk : Known M s xs p
    · exact hl.count p hk
    · -- a lost page: it was not counted, and still is not
      have hno : ∀ x, s.target x ≠ some p := fun x hx => hk ⟨hp, .inr ⟨x, hx⟩⟩
      have hzero : references (s.without e) p = 0 :=
        references_without_eq_zero.mpr fun x hx => absurd hx (hno x)
      rw [hother p hk, hb.count p hp, hzero]
      exact references_eq_zero.mpr hno
  · have hiff (hk : Known M s xs p) : p ∈ ys ↔ ∀ x, s.target x = some p → x.owner = some e := by
      rw [hl.free p hk, references_without_eq_zero]
      simp
    constructor
    · intro hy
      have hk := hl.managed p hy
      rcases hk.2 with hpx | hex
      · exact .inl hpx
      · exact .inr ⟨hex, (hiff hk).mp hy⟩
    · rintro (hpx | ⟨⟨x, hx⟩, honly⟩)
      · obtain ⟨hM, hzero⟩ := hfree p hpx
        exact (hiff ⟨hM, .inl hpx⟩).mpr fun x hx => absurd hx (references_eq_zero.mp hzero x)
      · exact (hiff ⟨hs.owned_managed hx (honly x hx), .inr ⟨x, hx⟩⟩).mpr honly

end Reclaim

theorem sampleSystem_balanced : Balanced SamplePage sampleSystem [306, 307, 308, 309, 310, 311, 312] where
  chain := by simp [Chain, sampleSystem, samplePmap]
  link p hp := by
    simp only [List.mem_cons, List.not_mem_nil, or_false, not_or] at hp
    have hno : ¬ (306 ≤ p ∧ p < 312) := by omega
    simp [sampleSystem, samplePmap, hno]
  count p _ := by
    rw [sampleSystem_references]
    rfl
  bound p := by
    have hlt : (if 301 ≤ p ∧ p ≤ 305 then 1 else 0) < 65536 := by
      split
      · decide
      · decide
    exact hlt
  zero i d n h := by
    have := (sampleSystem_target.mp h).1
    omega

private theorem sampleSystem_unused : ∀ p ∈ [306, 307, 308, 309, 310, 311, 312],
    SamplePage p ∧ references sampleSystem.target p = 0 := by
  intro p hp
  rw [sampleSystem_references]
  simp only [List.mem_cons, List.not_mem_nil, or_false] at hp
  refine ⟨⟨by omega, by omega⟩, if_neg (by omega)⟩

theorem env_free_program : Balanced SamplePage sampleSystem [306, 307, 308, 309, 310, 311, 312] ∧
    sampleSystem.Reclaims SamplePage 1 [306, 307, 308, 309, 310, 311, 312] :=
  ⟨sampleSystem_balanced,
    env_free_reclaims sampleSystem_balanced sampleSystem_shaped sampleSystem_unused (by decide)⟩

/-- The page that the program maps is also at the head of the free list. -/
def listedSystem : System :=
  { sampleSystem with
    pmap := { samplePmap with
      pageFreeList := some 304
      ppLink := Function.update samplePmap.ppLink 304 (some 306) } }

private theorem listedSystem_shaped : listedSystem.target = sampleSystem.target ∧ Shaped SamplePage listedSystem :=
  sampleSystem_shaped.of_mem (m := listedSystem.pmap) rfl fun _ _ => rfl

private theorem listedSystem_balanced :
    Balanced SamplePage listedSystem [304, 306, 307, 308, 309, 310, 311, 312] where
  chain := by simp [Chain, listedSystem, samplePmap]
  link p hp := by
    simp only [List.mem_cons, List.not_mem_nil, or_false, not_or] at hp
    have hno : ¬ (306 ≤ p ∧ p < 312) := by omega
    simp [listedSystem, samplePmap, hp.1, hno]
  count p hp := by
    rw [listedSystem_shaped.1]
    exact sampleSystem_balanced.count p hp
  bound := sampleSystem_balanced.bound
  zero i d n := by
    rw [listedSystem_shaped.1]
    exact sampleSystem_balanced.zero i d n

private theorem listedSystem_panics : listedSystem.envFree 1 = none := by
  rw [← Option.isNone_iff_eq_none]
  decide +kernel

/-- The server's directory names the page table of the program, and everything is counted twice. -/
def sharedSystem : System :=
  { sampleSystem with
    pmap := { samplePmap.store 301 3 (entry 303 (PTE_W ||| PTE_U)) with
      ppRef := fun p => if 303 ≤ p ∧ p ≤ 305 then 2 else if 301 ≤ p ∧ p ≤ 305 then 1 else 0 } }

private theorem sharedSystem_page {q : Nat} (hq : q ≠ 301) : sharedSystem.pmap.mem q = samplePmap.mem q :=
  Pmap.store_mem_page (m := samplePmap) (i := 3) (w := entry 303 (PTE_W ||| PTE_U)) hq

private theorem sharedSystem_word {i : Fin NENV} (hi : sampleSystem.Live i) {d : Nat} (hd : ¬ (i = 0 ∧ d = 3)) :
    sharedSystem.pmap.mem (sharedSystem.envs i).pgdir d
      = sampleSystem.pmap.mem (sampleSystem.envs i).pgdir d := by
  obtain rfl | rfl := sampleSystem_live hi
  · exact Pmap.store_mem_word (m := samplePmap) (p := 301) (q := 301)
      (w := entry 303 (PTE_W ||| PTE_U)) fun h3 => hd ⟨rfl, h3⟩
  · exact congrFun (sharedSystem_page (by decide)) d

private theorem sharedSystem_target : sharedSystem.target = Function.update (Function.update (Function.update
    sampleSystem.target (.pde 0 3) (some 303)) (.pte 0 3 0) (some 304)) (.pte 0 3 1) (some 305) := by
  have htable (n : Nat) : sharedSystem.pmap.mem 303 n = samplePmap.mem 303 n :=
    congrFun (sharedSystem_page (by decide)) n
  funext x
  by_cases hx : x = .pde 0 3 ∨ x = .pte 0 3 0 ∨ x = .pte 0 3 1
  · rcases hx with rfl | rfl | rfl
    all_goals simp only [ne_eq, reduceCtorEq, not_false_eq_true, Function.update_of_ne, Function.update_self,
      Slot.pte.injEq, Fin.isValue, zero_ne_one, and_false]
    all_goals decide
  · rw [not_or, not_or] at hx
    rw [Function.update_of_ne hx.2.2, Function.update_of_ne hx.2.1, Function.update_of_ne hx.1]
    cases x with
    | dir i => rfl
    | kern d =>
      simp only [System.target]
      rw [show sharedSystem.pmap.kernPgdir = 300 by rfl, show sampleSystem.pmap.kernPgdir = 300 by rfl,
        show sharedSystem.pmap.mem 300 = sampleSystem.pmap.mem 300 from sharedSystem_page (by decide)]
    | pde i d =>
      by_cases hi : sampleSystem.Live i
      · have hi' : sharedSystem.Live i := hi
        rw [target_pde hi, target_pde hi', sharedSystem_word hi]
        rintro ⟨rfl, h3⟩
        exact hx.1 (by rw [show d = 3 from Fin.ext h3])
      · have hi' : ¬ sharedSystem.Live i := hi
        simp [System.target, hi, hi']
    | pte i d n =>
      by_cases hi : sampleSystem.Live i
      · have hi' : sharedSystem.Live i := hi
        by_cases hslot : i = 0 ∧ d.val = 3
        · obtain ⟨rfl, h3⟩ := hslot
          obtain rfl : d = 3 := Fin.ext h3
          have hold : sampleSystem.target (.pte 0 3 n) = none := by
            have h0 : sampleSystem.pmap.mem (sampleSystem.envs 0).pgdir ((3 : Fin NUPDE) : Nat) = 0 := by
              decide
            simp only [System.target, hi, if_true, h0, named_zero, Option.bind_none]
          have hpt : named (sharedSystem.pmap.mem (sharedSystem.envs 0).pgdir ((3 : Fin NUPDE) : Nat))
              = some 303 := by decide
          rw [hold, target_pte hi' hpt, htable]
          have hzero : samplePmap.mem 303 n = 0 := by
            by_contra hne
            rcases samplePmap_pte hne with hn | hn
            · exact hx.2.1 (by rw [show n = 0 from Fin.ext hn])
            · exact hx.2.2 (by rw [show n = 1 from Fin.ext hn])
          rw [hzero, named_zero]
        · simp only [System.target, hi, hi', if_true, sharedSystem_word hi hslot]
          cases hpt : named (sampleSystem.pmap.mem (sampleSystem.envs i).pgdir d) with
          | none => rfl
          | some pt =>
            obtain ⟨rfl, h2⟩ := sampleSystem_pde hi d.isLt (by
              intro h0
              simp [h0] at hpt)
            rw [h2] at hpt
            obtain rfl : 303 = pt := Option.some.inj hpt
            simp only [Option.bind_some]
            rw [htable]
            rfl
      · have hi' : ¬ sharedSystem.Live i := hi
        simp [System.target, hi, hi']

private theorem sharedSystem_references (p : Nat) : references sharedSystem.target p = sharedSystem.pmap.ppRef p := by
  have h1 := references_update (Function.update (Function.update sampleSystem.target (.pde 0 3) (some 303))
    (.pte 0 3 0) (some 304)) (.pte 0 3 1) (some 305) p
  have h2 := references_update (Function.update sampleSystem.target (.pde 0 3) (some 303))
    (.pte 0 3 0) (some 304) p
  have h3 := references_update sampleSystem.target (.pde 0 3) (some 303) p
  have hpde : sampleSystem.target (.pde 0 3) = none := by decide
  have hfirst : Function.update sampleSystem.target (.pde 0 3) (some 303) (.pte 0 3 0) = none := by decide
  have hsecond : Function.update (Function.update sampleSystem.target (.pde 0 3) (some 303))
      (.pte 0 3 0) (some 304) (.pte 0 3 1) = none := by decide
  rw [← sharedSystem_target, hsecond] at h1
  rw [hfirst] at h2
  rw [hpde, sampleSystem_references] at h3
  simp only [reduceCtorEq, if_false, Nat.add_zero, Option.some.injEq] at h1 h2 h3
  change _ = if 303 ≤ p ∧ p ≤ 305 then 2 else if 301 ≤ p ∧ p ≤ 305 then 1 else 0
  rw [h1, h2, h3]
  split_ifs
  all_goals omega

private theorem sharedSystem_balanced :
    Balanced SamplePage sharedSystem [306, 307, 308, 309, 310, 311, 312] where
  chain := sampleSystem_balanced.chain
  link := sampleSystem_balanced.link
  count p _ := (sharedSystem_references p).symm
  bound p := by
    have hlt : (if 303 ≤ p ∧ p ≤ 305 then 2 else if 301 ≤ p ∧ p ≤ 305 then 1 else 0) < 65536 := by
      split
      · decide
      · split
        · decide
        · decide
    exact hlt
  zero i d n h := by
    have hpos := references_pos h
    rw [sharedSystem_references] at hpos
    exact absurd hpos (by decide)

private theorem sharedSystem_unmaps : (sharedSystem.envFree 1).map (fun t => t.pmap.mapping (t.envs 0).pgdir 0xC00000)
    = some none ∧ sharedSystem.pmap.mapping (sharedSystem.envs 0).pgdir 0xC00000 ≠ none := by
  decide +kernel

/-- Neither of the two conditions can be dropped: a page that is in use and on the free list makes
the kernel panic, and a page table of two environments is emptied for both. -/
theorem env_free_disordered :
    (¬ ∀ (M : Nat → Prop) (s : System) (xs : List Nat) (e : Fin NENV), Balanced M s xs → Shaped M s →
      s.Live e → s.Reclaims M e xs) ∧
    ¬ ∀ (M : Nat → Prop) (s : System) (xs : List Nat) (e : Fin NENV), Balanced M s xs →
      (∀ p ∈ xs, M p ∧ references s.target p = 0) → s.Live e → s.Reclaims M e xs := by
  constructor
  · intro hall
    obtain ⟨t, ys, ht, -⟩ := hall _ _ _ 1 listedSystem_balanced listedSystem_shaped.2 (by decide)
    rw [listedSystem_panics] at ht
    cases ht
  · intro hall
    have hunused : ∀ p ∈ [306, 307, 308, 309, 310, 311, 312],
        SamplePage p ∧ references sharedSystem.target p = 0 := by
      intro p hp
      rw [sharedSystem_references]
      simp only [List.mem_cons, List.not_mem_nil, or_false] at hp
      exact ⟨⟨by omega, by omega⟩, (if_neg (by omega)).trans (if_neg (by omega))⟩
    obtain ⟨t, ys, ht, -, -, -, -, -, hmap⟩ := hall _ _ _ 1 sharedSystem_balanced hunused (by decide)
    have hkept := hmap 0 0xC00000 (by decide) (by decide) (by decide)
    obtain ⟨hafter, hbefore⟩ := sharedSystem_unmaps
    rw [ht, Option.map_some, Option.some.injEq] at hafter
    exact hbefore (hkept.symm.trans hafter)

end DamnOS.Kernel
