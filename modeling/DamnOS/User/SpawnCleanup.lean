import DamnOS.User.SpawnProgram

/-!
# Cleaning up after `spawn`

The exits of `spawn` after the file is open: the header is not that of a program, a segment cannot be mapped, no
child is created, the child gets no stack.  The first two close the descriptor and destroy the child.
-/

namespace DamnOS.User

open DamnOS.Framework DamnOS.Kernel
open DamnOS.Programs (MAXFD O_RDONLY)
open DamnOS.FileSystem (Err MAXPATHLEN)

/-- Nothing has changed but what the child has mapped, and `UTEMP` of the parent. -/
def Aside (parent child : Fin NENV) (s t : Paging) : Prop :=
  ∀ e n, e ≠ child → (e = parent → n ≠ PGNUM utemp.toNat) → t.maps e n = s.maps e n

section Frame

variable {short : Nat → Bool} {f : ProgramFile} {s t u : Loader} {parent child e : Fin NENV}
  {va fd offset perm : BitVec 32} {n tot fuel : Nat} {r : Int} {bytes : Nat → UInt8}

theorem Aside.refl (s : Paging) : Aside parent child s s := fun _ _ _ _ => rfl

theorem Aside.trans {s t u : Paging} (h : Aside parent child s t) (h' : Aside parent child t u) :
    Aside parent child s u := fun e n hc hp => (h' e n hc hp).trans (h e n hc hp)

private theorem Aside.of_maps {s t : Paging} (h : t.maps = s.maps) : Aside parent child s t :=
  fun e n _ _ => congrFun (congrFun h e) n

private theorem Aside.open_iff {s t : Paging} (h : Aside parent child s t) (hne : child ≠ parent) (i : BitVec 32) :
    t.Open parent i ↔ s.Open parent i := by
  refine and_congr_right fun hi => ?_
  rw [h parent (fdPage i) hne.symm fun _ => fdPage_ne_utemp hi]

private theorem sysPageAlloc_aside (s : Paging) (e : Fin NENV) (va perm : BitVec 32)
    (he : e = child ∨ e = parent ∧ va = utemp) : Aside parent child s (s.sysPageAlloc short e va perm).2 := by
  intro j m hc hp
  rw [Paging.sysPageAlloc]
  split
  · split
    · rfl
    · change (s.alloc e _ _ _).maps j m = _
      rw [Spaces.maps_alloc]
      apply if_neg
      rintro ⟨rfl, rfl⟩
      rcases he with rfl | ⟨rfl, rfl⟩
      · exact hc rfl
      · exact hp rfl rfl
  · rfl

private theorem sysPageMap_aside {s t : Paging} {src : Fin NENV} {srcva dstva : BitVec 32}
    (h : s.sysPageMap short src srcva child dstva perm = some (r, t)) : Aside parent child s t := by
  intro j m hc _
  rw [Paging.sysPageMap] at h
  split at h
  · split at h
    · cases h
    · split at h
      · cases h
        rfl
      · cases h
        change (s.share _ _ child _ _).maps j m = _
        rw [Spaces.maps_share]
        exact if_neg fun hjm => hc hjm.1
  · cases h
    rfl

private theorem sysPageUnmap_aside (s : Paging) : Aside parent child s (s.sysPageUnmap parent utemp).2 := by
  intro j m hc hp
  have hutemp : pageAddr utemp.toNat = true := by decide
  rw [sysPageUnmap_eq hutemp]
  change (s.unmap parent _).maps j m = _
  rw [Spaces.maps_unmap]
  exact if_neg fun hjm => hp hjm.1 hjm.2

private theorem seek_maps {s t : Paging} (h : s.seek e fd offset = some (r, t)) : t.maps = s.maps := by
  rw [Paging.seek] at h
  split at h
  · cases h
    rfl
  · obtain ⟨u, hu, hut⟩ := Option.map_eq_some_iff.mp h
    cases hut
    rw [Paging.storeWord] at hu
    split at hu
    · cases hu
    · split at hu
      · cases hu
      · cases hu
        rfl

private theorem read_same (h : s.read f e fd n = some (r, bytes, t)) : t.maps = s.maps ∧ t.calls = s.calls := by
  rw [Loader.read] at h
  split at h
  · cases h
    exact ⟨rfl, rfl⟩
  · obtain ⟨devId, -, h⟩ := Option.bind_eq_some_iff.mp h
    obtain ⟨omode, -, h⟩ := Option.bind_eq_some_iff.mp h
    split at h
    · cases h
      exact ⟨rfl, rfl⟩
    · split at h
      · cases h
        exact ⟨rfl, rfl⟩
      · split at h
        · obtain ⟨x, -, hread⟩ := Option.map_eq_some_iff.mp h
          dsimp only at hread
          split at hread
          · cases hread
            exact ⟨rfl, rfl⟩
          · cases hread
            exact ⟨rfl, rfl⟩
        · cases h

theorem readnLoop_same {store : Loader → Nat → Nat → (Nat → UInt8) → Option Loader}
    (hstore : ∀ t u tot m bytes, store t tot m bytes = some u → u.maps = t.maps ∧ u.calls = t.calls)
    (h : Loader.readnLoop f e fd store n fuel tot s = some (r, t)) : t.maps = s.maps ∧ t.calls = s.calls := by
  induction fuel generalizing tot s with
  | zero => cases h
  | succ fuel ih =>
    rw [Loader.readnLoop] at h
    split at h
    · obtain ⟨⟨m, bytes, v⟩, hread, h⟩ := Option.bind_eq_some_iff.mp h
      have hv := read_same hread
      dsimp only at h
      split at h
      · cases h
        exact hv
      · obtain ⟨w, hw, h⟩ := Option.bind_eq_some_iff.mp h
        have hwv := hstore _ _ _ _ _ hw
        have hws : w.maps = s.maps ∧ w.calls = s.calls := ⟨hwv.1.trans hv.1, hwv.2.trans hv.2⟩
        split at h
        · cases h
          exact hws
        · have hrest := ih h
          exact ⟨hrest.1.trans hws.1, hrest.2.trans hws.2⟩
    · cases h
      exact ⟨rfl, rfl⟩

private theorem toPage_same {u : Loader} {m : Nat} (h : Loader.toPage e va s tot m bytes = some u) :
    u.maps = s.maps ∧ u.calls = s.calls := by
  obtain ⟨c, hc, rfl⟩ := Option.map_eq_some_iff.mp h
  exact ⟨(storeBytes_same hc).1, (storeBytes_same hc).2.2⟩

private theorem after_aside {c : Int × Paging} (hc : Aside parent child s.toPaging c.2) (h : s.after c = (r, t)) :
    Aside parent child s.toPaging t.toPaging := by
  cases h
  exact hc

private theorem filePage_aside (h : s.filePage short f parent child va fd offset n perm = some (r, t)) :
    Aside parent child s.toPaging t.toPaging := by
  rw [Loader.filePage] at h
  generalize halloc : s.after (s.sysPageAlloc short parent utemp userRW) = a at h
  obtain ⟨r₁, s₁⟩ := a
  have h₁ : Aside parent child s.toPaging s₁.toPaging :=
    after_aside (sysPageAlloc_aside s.toPaging parent utemp userRW (.inr ⟨rfl, rfl⟩)) halloc
  dsimp only at h
  split at h
  · cases h
    exact h₁
  obtain ⟨⟨r₂, s₂⟩, hseek, h⟩ := Option.bind_eq_some_iff.mp h
  obtain ⟨c₂, hcall₂, hafter₂⟩ := Option.map_eq_some_iff.mp hseek
  have h₂ := h₁.trans (after_aside (.of_maps (seek_maps hcall₂)) hafter₂)
  dsimp only at h
  split at h
  · cases h
    exact h₂
  obtain ⟨⟨r₃, s₃⟩, hread, h⟩ := Option.bind_eq_some_iff.mp h
  have h₃ := h₂.trans (.of_maps (readnLoop_same (fun _ _ _ _ _ => toPage_same) hread).1)
  dsimp only at h
  split at h
  · cases h
    exact h₃
  obtain ⟨⟨r₄, s₄⟩, hmap, h⟩ := Option.bind_eq_some_iff.mp h
  obtain ⟨c₄, hcall₄, hafter₄⟩ := Option.map_eq_some_iff.mp hmap
  have h₄ := h₃.trans (after_aside (sysPageMap_aside hcall₄) hafter₄)
  dsimp only at h
  split at h
  · cases h
  cases h
  exact h₄.trans (sysPageUnmap_aside s₄.toPaging)

private theorem mapPages_aside {g : ProgSegment} {i : BitVec 32}
    (h : Loader.mapPages short f g parent child fuel i s = some (r, t)) :
    Aside parent child s.toPaging t.toPaging := by
  induction fuel generalizing i s with
  | zero => cases h
  | succ fuel ih =>
    rw [Loader.mapPages] at h
    split at h
    · obtain ⟨⟨r', v⟩, hpage, h⟩ := Option.bind_eq_some_iff.mp h
      have hv : Aside parent child s.toPaging v.toPaging := by
        rw [Loader.segmentPage] at hpage
        split at hpage
        · exact after_aside (sysPageAlloc_aside s.toPaging child _ _ (.inl rfl)) (Option.some.inj hpage)
        · exact filePage_aside hpage
      dsimp only at h
      split at h
      · cases h
        exact hv
      · exact hv.trans (ih h)
    · cases h
      exact .refl _

private theorem mapSegments_aside {phs : List ProgHeader}
    (h : Loader.mapSegments short f fd parent child phs s = some (r, t)) :
    Aside parent child s.toPaging t.toPaging := by
  induction phs generalizing s with
  | nil =>
    cases h
    exact .refl _
  | cons ph phs ih =>
    rw [Loader.mapSegments] at h
    split at h
    · exact ih h
    · obtain ⟨⟨r', v⟩, hsegment, h⟩ := Option.bind_eq_some_iff.mp h
      have hv := mapPages_aside hsegment
      dsimp only at h
      split at h
      · cases h
        exact hv
      · exact hv.trans (ih h)

end Frame

/-- `init_stack` fails: the arguments are too large, or there is no memory for one of its two calls. -/
def NoStack (short : Nat → Bool) (calls : Nat) (argv : List CString) : Prop :=
  argvStore argv - 8 < utemp ∨ short calls = true ∨ Fits argv ∧ short (calls + 1) = true

section Stack

variable {short : Nat → Bool} {s t : Loader} {parent child : Fin NENV} {argv : List CString}

private theorem userRW_valid : permValid userRW.toNat = true := by decide

private theorem utemp_alloc (short : Nat → Bool) (s : Paging) (e : Fin NENV) : s.sysPageAlloc short e utemp userRW =
    if short s.calls then (-E_NO_MEM, { s with calls := s.calls + 1 })
    else (0, ⟨s.alloc e (PGNUM utemp.toNat) ⟨userRW, userRW_valid⟩ fun _ => 0, s.calls + 1⟩) :=
  sysPageAlloc_eq (by decide) userRW_valid

private theorem toPage_utemp {p : Nat} (bytes : Nat → UInt8)
    (hx : s.maps parent (PGNUM utemp.toNat) = some (p, ⟨userRW, userRW_valid⟩)) :
    ∃ t, Loader.toPage parent utemp s 0 PGSIZE bytes = some t ∧ t.maps = s.maps ∧ t.calls = s.calls := by
  have hw : userRW.toNat &&& PTE_W ≠ 0 := by decide
  have hsize : PGSIZE ≠ 0 := by decide
  rw [Loader.toPage, BitVec.add_zero, Paging.storeBytes, if_neg hsize, hx]
  dsimp only
  rw [if_neg hw]
  exact ⟨_, rfl, rfl, rfl⟩

/-- `init_stack` returns the error of the call that failed, or the stack pointer. -/
theorem initStack_cases (short : Nat → Bool) (s : Loader) (parent child : Fin NENV) (argv : List CString) :
    (NoStack short s.calls argv ∧
      ∃ r t, r < 0 ∧ s.initStack short parent child argv = some (.error r, t) ∧
        Aside parent child s.toPaging t.toPaging) ∨
    (¬ NoStack short s.calls argv ∧
      (Fits argv → ∃ r t, s.initStack short parent child argv = some (r, t) ∧
        t.maps parent (PGNUM utemp.toNat) = none) ∧
      ∀ r t, s.initStack short parent child argv = some (r, t) →
        (∃ esp, r = .ok esp) ∧ Aside parent child s.toPaging t.toPaging) := by
  by_cases htest : argvStore argv - 8 < utemp
  · refine .inl ⟨.inl htest, -E_NO_MEM, s, E_NO_MEM_neg, ?_, .refl _⟩
    rw [Loader.initStack, if_pos htest]
  by_cases halloc : short s.calls = true
  · refine .inl ⟨.inr (.inl halloc), -E_NO_MEM,
      { s with toPaging := { s.toPaging with calls := s.calls + 1 } }, E_NO_MEM_neg, ?_, .of_maps rfl⟩
    rw [Loader.initStack, if_neg htest, utemp_alloc, if_pos halloc]
    exact if_pos E_NO_MEM_neg
  by_cases hfits : Fits argv
  · -- the page at `UTEMP` is there, so that the call of `sys_page_map` has an answer
    have h₁ : Aside parent child s.toPaging (s.sysPageAlloc short parent utemp userRW).2 :=
      sysPageAlloc_aside s.toPaging parent utemp userRW (.inr ⟨rfl, rfl⟩)
    rw [Loader.initStack, if_neg htest]
    rw [utemp_alloc, if_neg halloc] at h₁ ⊢
    generalize ha : (⟨s.alloc parent (PGNUM utemp.toNat) ⟨userRW, userRW_valid⟩ fun _ => 0, s.calls + 1⟩ : Paging) = a
      at h₁
    have hentry : a.maps parent (PGNUM utemp.toNat) = some (s.next, ⟨userRW, userRW_valid⟩) := by simp [← ha]
    have hcalls : a.calls = s.calls + 1 := by rw [← ha]
    obtain ⟨u, hu, humaps, hucalls⟩ := toPage_utemp (s := { s with toPaging := a })
      (fun o => stackMemory (fun _ => 0) argv (UTEMP + o)) hentry
    have h₂ : Aside parent child s.toPaging u.toPaging := h₁.trans (.of_maps humaps)
    have hpresent : u.present parent utemp = true := by
      rw [Paging.present, humaps, hentry]
      rfl
    have hmap : u.sysPageMap short parent utemp child ustackPage userRW = some (
        if short u.calls then (-E_NO_MEM, { u.toPaging with calls := u.calls + 1 })
        else (0, ⟨u.share parent (PGNUM utemp.toNat) child (PGNUM ustackPage.toNat) ⟨userRW, userRW_valid⟩,
          u.calls + 1⟩)) := sysPageMap_eq (by decide) (by decide) hpresent userRW_valid
    have h₃ (c : Int × Paging) (hc : u.sysPageMap short parent utemp child ustackPage userRW = some c) :
        Aside parent child s.toPaging c.2 := h₂.trans (sysPageMap_aside hc)
    simp only [Loader.after, lt_self_iff_false, if_false, hfits, not_true_eq_false]
    rw [hu]
    dsimp only [Option.bind_eq_bind, Option.bind_some]
    rw [hmap] at h₃ ⊢
    rw [hucalls, hcalls] at h₃ ⊢
    by_cases hshort : short (s.calls + 1) = true
    · rw [if_pos hshort] at h₃ ⊢
      simp only [Option.map_some, Option.bind_some]
      refine .inl ⟨.inr (.inr ⟨hfits, hshort⟩), _, _, E_NO_MEM_neg, rfl, ?_⟩
      exact (h₃ _ rfl).trans (sysPageUnmap_aside _)
    · rw [if_neg hshort] at h₃ ⊢
      have hno : ¬ NoStack short s.calls argv := by
        rintro (h | h | h)
        · exact htest h
        · exact halloc h
        · exact hshort h.2
      have hunmap : pageAddr utemp.toNat = true := by decide
      simp only [Option.map_some, Option.bind_some, lt_self_iff_false, if_false, sysPageUnmap_eq hunmap]
      refine .inr ⟨hno, fun _ => ⟨_, _, rfl, ?_⟩, fun r t h => ?_⟩
      · simp
      cases h
      have h₄ := @sysPageUnmap_aside parent child
        ⟨u.share parent (PGNUM utemp.toNat) child (PGNUM ustackPage.toNat) ⟨userRW, userRW_valid⟩,
          s.calls + 1 + 1⟩
      rw [sysPageUnmap_eq hunmap] at h₄
      exact ⟨⟨_, rfl⟩, (h₃ _ rfl).trans h₄⟩
  · refine .inr ⟨?_, fun h => absurd h hfits, fun r t h => ?_⟩
    · rintro (h | h | h)
      · exact htest h
      · exact halloc h
      · exact hfits h.1
    · rw [Loader.initStack, if_neg htest, utemp_alloc, if_neg halloc] at h
      simp [Loader.after, hfits] at h

end Stack

def NoChild (short : Nat → Bool) (s : Spawner) : Prop := s.freeList = [] ∨ short s.calls = true

section Children

variable {short : Nat → Bool} {flushed : Int} {f : ProgramFile} {s t : Spawner} {fd esp : BitVec 32}
  {child : Fin NENV} {argv : List CString} {r : Int}

private theorem closeFd_open (flushed : Int) (h : s.Open s.curenv fd) : ∃ t, s.closeFd flushed fd = some t ∧
    t.freeList = s.freeList ∧ ∀ i, t.Open s.curenv i ↔ s.Open s.curenv i ∧ i ≠ fd := by
  obtain ⟨r, c, hclose, hc⟩ := close_open flushed h
  refine ⟨{ s with toPaging := c }, ?_, rfl, fun i => ?_⟩
  · rw [Spawner.closeFd, hclose]
    rfl
  · change c.Open s.curenv i ↔ _
    by_cases hi : i = fd
    · subst hi
      refine iff_of_false (fun ho => ?_) fun ho => ho.2 rfl
      have hmapped := ho.2
      rw [hc.fd] at hmapped
      cases hmapped
    · rw [and_iff_left hi]
      refine and_congr_right fun hin => ?_
      rw [hc.rest _ (fun he => hi (fdPage_inj hin h.1 he)) (fdPage_ne_dataPage hin h.1)]

private theorem sysEnvDestroy_other (h : child ≠ s.curenv) : ∃ t, s.sysEnvDestroy child = some t ∧ t.curenv = s.curenv ∧
    t.freeList = child :: s.freeList ∧ ∀ i, t.Open s.curenv i ↔ s.Open s.curenv i := by
  rw [Spawner.sysEnvDestroy, dif_neg h]
  refine ⟨_, rfl, rfl, rfl, fun i => ?_⟩
  refine and_congr_right fun _ => ?_
  rw [Spaces.maps_clear, if_neg h.symm]

private theorem loadChild_error (hchild : child ≠ s.curenv) (hfd : s.Open s.curenv fd)
    (h : s.loadChild short flushed f fd child esp = some (.error r, t)) :
    t.freeList = child :: s.freeList ∧ ∀ i, t.Open s.curenv i ↔ s.Open s.curenv i ∧ i ≠ fd := by
  rw [Spawner.loadChild] at h
  obtain ⟨⟨r', l⟩, hsegments, h⟩ := Option.bind_eq_some_iff.mp h
  have hside := (mapSegments_aside hsegments).open_iff hchild
  dsimp only at h
  split at h
  · obtain ⟨u, hdestroy, h⟩ := Option.bind_eq_some_iff.mp h
    obtain ⟨v, hclose, h⟩ := Option.bind_eq_some_iff.mp h
    cases h
    obtain ⟨u', hu, hcur, hfree, hopen⟩ := sysEnvDestroy_other (s := { s with toLoader := l }) hchild
    obtain rfl : u' = u := Option.some.inj (hu.symm.trans hdestroy)
    have hopened : u'.Open u'.curenv fd := by
      rw [hcur]
      exact (hopen fd).mpr ((hside fd).mpr hfd)
    obtain ⟨v', hv, hfree', hclosed⟩ := closeFd_open flushed hopened
    obtain rfl : v' = t := Option.some.inj (hv.symm.trans hclose)
    refine ⟨hfree'.trans hfree, fun i => ?_⟩
    rw [hcur] at hclosed
    exact (hclosed i).trans (and_congr_left' ((hopen i).trans (hside i)))
  · obtain ⟨u, -, h⟩ := Option.bind_eq_some_iff.mp h
    obtain ⟨l', -, h⟩ := Option.bind_eq_some_iff.mp h
    cases h

private theorem E_NO_FREE_ENV_neg : -E_NO_FREE_ENV < 0 := by decide

/-- `sys_exofork` takes the first free environment, unless it fails. -/
theorem sysExofork_cases (short : Nat → Bool) (s : Spawner) :
    (NoChild short s ∧ ∃ r t, r < 0 ∧ s.sysExofork short = (.error r, t) ∧ t.curenv = s.curenv ∧ t.maps = s.maps) ∨
    (¬ NoChild short s ∧ ∃ child t, s.sysExofork short = (.ok child, t) ∧ child ≠ s.curenv ∧
      s.freeList = child :: t.freeList ∧ t.curenv = s.curenv ∧ t.calls = s.calls + 1 ∧
      ∀ i, t.Open s.curenv i ↔ s.Open s.curenv i) := by
  rw [Spawner.sysExofork]
  cases hhead : s.freeList.head? with
  | none => exact .inl ⟨.inl (List.head?_eq_none_iff.mp hhead), _, _, E_NO_FREE_ENV_neg, rfl, rfl, rfl⟩
  | some child =>
    obtain ⟨rest, hlist⟩ := List.head?_eq_some_iff.mp hhead
    dsimp only
    by_cases hshort : short s.calls = true
    · rw [if_pos hshort]
      exact .inl ⟨.inr hshort, _, _, E_NO_MEM_neg, rfl, rfl, rfl⟩
    · rw [if_neg hshort]
      have hchild : child ≠ s.curenv := by
        intro he
        apply s.curenv_taken
        rw [hlist, he]
        exact List.mem_cons_self
      refine .inr ⟨?_, child, _, rfl, hchild, ?_, rfl, rfl, fun i => ?_⟩
      · rintro (h | h)
        · rw [hlist] at h
          cases h
        · exact hshort h
      · simp only [hlist, List.tail_cons]
      · refine and_congr_right fun _ => ?_
        rw [Spaces.maps_clear, if_neg hchild.symm]

/-- After the header: either the early returns are taken, or what was created is given back. -/
theorem makeChild_cases (short : Nat → Bool) (flushed : Int) (f : ProgramFile) (argv : List CString)
    (hfd : s.Open s.curenv fd) :
    ((NoChild short s ∨ NoStack short (s.calls + 1) argv) ∧
      ∃ r t, r < 0 ∧ s.makeChild short flushed f fd argv = some (.error r, t) ∧ t.Open s.curenv fd) ∨
    (¬ (NoChild short s ∨ NoStack short (s.calls + 1) argv) ∧
      ∀ r t, s.makeChild short flushed f fd argv = some (.error r, t) →
        t.freeList = s.freeList ∧ ∀ i, t.Open s.curenv i ↔ s.Open s.curenv i ∧ i ≠ fd) := by
  rw [Spawner.makeChild]
  rcases sysExofork_cases short s with ⟨hno, r, t, hr, hfork, hcur, hmaps⟩ |
    ⟨hyes, child, u, hfork, hchild, hlist, hcur, hcalls, hopen⟩
  · rw [hfork]
    refine .inl ⟨.inl hno, r, t, hr, rfl, ?_⟩
    rw [Paging.Open, hmaps]
    exact hfd
  · rw [hfork]
    dsimp only
    have hufd : u.Open u.curenv fd := by
      rw [hcur]
      exact (hopen fd).mpr hfd
    have hne : child ≠ u.curenv := by rwa [hcur]
    rw [← hcalls]
    rcases initStack_cases short u.toLoader u.curenv child argv with ⟨hno, r, l, hr, hstack, hside⟩ | ⟨hstack, -, hok⟩
    · rw [hstack]
      refine .inl ⟨.inr hno, r, { u with toLoader := l }, hr, rfl, ?_⟩
      rw [hcur] at hside
      exact (hside.open_iff hchild fd).mpr ((hopen fd).mpr hfd)
    · refine .inr ⟨?_, fun r t h => ?_⟩
      · rintro (h | h)
        · exact hyes h
        · exact hstack h
      · obtain ⟨⟨r', l⟩, hrun, h⟩ := Option.bind_eq_some_iff.mp h
        obtain ⟨⟨esp, rfl⟩, hside⟩ := hok r' l hrun
        dsimp only at h
        have hsame := hside.open_iff hne
        obtain ⟨hfree, hclosed⟩ := loadChild_error (s := { u with toLoader := l }) hne ((hsame fd).mpr hufd) h
        change ∀ i, t.Open u.curenv i ↔ l.Open u.curenv i ∧ i ≠ fd at hclosed
        rw [hcur] at hclosed hsame
        exact ⟨hfree.trans hlist.symm, fun i =>
          (hclosed i).trans (and_congr_left' ((hsame i).trans (hopen i)))⟩

end Children

/-- The file has the header of a program, and request number `k` for it is not refused. -/
structure IsElf (f : ProgramFile) (k : Nat) : Prop where
  answered : f.fails k = none
  size : 512 ≤ f.size
  magic : u32 (fun i : Nat => f.byte i) 0 = ELF_MAGIC

/-- An `Fd` as `open` leaves it. -/
structure FreshFd (s : Paging) (e : Fin NENV) (fd : BitVec 32) (x : Nat × Rights) : Prop where
  inRange : InRange fd
  entry : s.maps e (fdPage fd) = some x
  dev : u32 (s.data x.1) offDevId.toNat = Dev.file.id
  mode : u32 (s.data x.1) offOmode.toNat = O_RDONLY
  offset : s.offset x.1 = 0

section Header

variable {f : ProgramFile} {s t : Loader} {e : Fin NENV} {fd : BitVec 32} {x : Nat × Rights} {n : Nat} {r : Int}

private theorem FreshFd.isOpen {s : Paging} (h : FreshFd s e fd x) : s.Open e fd := by
  refine ⟨h.inRange, ?_⟩
  rw [h.entry]
  rfl

theorem FreshFd.read (h : FreshFd s.toPaging e fd x) (n : Nat) :
    s.read f e fd n = s.devfileRead f e (INDEX2FD fd) n := by
  obtain ⟨hdev, hdevOff⟩ := field_toNat fd offDevId (by decide)
  obtain ⟨hmode, hmodeOff⟩ := field_toNat fd offOmode (by decide)
  rw [Loader.read, fdLookup_open h.isOpen]
  dsimp only
  rw [loadWord_eq (x := x) (hdev ▸ h.entry), loadWord_eq (x := x) (hmode ▸ h.entry), hdevOff, hmodeOff, h.dev, h.mode]
  rfl

/-- The first request is answered in full if the file is long enough. -/
theorem FreshFd.devfileRead (h : FreshFd s.toPaging e fd x) (hf : f.fails s.requests = none) (hn : n ≤ f.size) :
    ∃ t, s.devfileRead f e (INDEX2FD fd) n = some ((n : Int), (fun k : Nat => f.byte (0 + k)), t) := by
  have hcount : f.count n 0 = n := by
    rw [ProgramFile.count]
    split <;> omega
  have hanswer : f.answer s.requests n 0 = n := by
    rw [ProgramFile.answer, hf]
    dsimp only
    rw [hcount]
  have hentry : s.maps e (PGNUM (INDEX2FD fd).toNat) = some x := h.entry
  have hzero : (BitVec.ofNat 32 (u32 (s.data x.1) offOffset.toNat)).toInt = 0 := congrArg BitVec.toInt h.offset
  have hnonneg : ¬ (n : Int) < 0 := by omega
  simp only [Loader.devfileRead, hentry, Option.map_some, hzero, hanswer, if_neg hnonneg]
  exact ⟨_, rfl⟩

private theorem readn_answered {store : Loader → Nat → Nat → (Nat → UInt8) → Option Loader} (hn : 0 < n)
    (h : s.readn f e fd store n = some (r, t)) (hr : 0 ≤ r) : f.fails s.requests = none := by
  rw [Loader.readn, Loader.readnLoop, if_pos hn] at h
  obtain ⟨⟨m, bytes, v⟩, hread, h⟩ := Option.bind_eq_some_iff.mp h
  dsimp only at h
  split at h
  · cases h
    omega
  · next hm =>
    obtain ⟨-, hdev⟩ := read_inv hread (not_lt.mp hm)
    obtain ⟨-, hfails, -⟩ := devfileRead_inv hdev (not_lt.mp hm)
    exact hfails

theorem toElfBuf_same {u : Loader} {tot m : Nat} {bytes : Nat → UInt8}
    (h : Loader.toElfBuf s tot m bytes = some u) : u.maps = s.maps ∧ u.calls = s.calls := by
  cases h
  exact ⟨rfl, rfl⟩

/-- `readn` of the header gets 512 bytes with the magic number from a program, and only then. -/
theorem header_cases (f : ProgramFile) (h : FreshFd s.toPaging e fd x) :
    (IsElf f s.requests ∧ ∃ t, s.readn f e fd Loader.toElfBuf 512 = some (512, t) ∧ u32 t.elfBuf 0 = ELF_MAGIC) ∨
    (¬ IsElf f s.requests ∧ ∀ r t, s.readn f e fd Loader.toElfBuf 512 = some (r, t) →
      r ≠ 512 ∨ u32 t.elfBuf 0 ≠ ELF_MAGIC) := by
  have hmagic (g : Nat → UInt8) : u32 (splice g 0 512 fun k => f.byte (0 + k)) 0 = u32 (fun i : Nat => f.byte i) 0 :=
    u32_congr fun i hi => by
      rw [splice_inside _ _ (by omega)]
      congr 1
      omega
  by_cases helf : IsElf f s.requests
  · refine .inl ⟨helf, ?_⟩
    obtain ⟨t, hread⟩ := h.devfileRead helf.answered helf.size
    rw [Loader.readn, Loader.readnLoop, if_pos (by decide), h.read]
    change ∃ u, (s.devfileRead f e (INDEX2FD fd) 512 >>= _) = _ ∧ _
    rw [hread]
    refine ⟨{ t with elfBuf := splice t.elfBuf 0 512 fun k => f.byte (0 + k) }, rfl, ?_⟩
    exact (hmagic _).trans helf.magic
  · refine .inr ⟨helf, fun r t hrun => ?_⟩
    by_contra hgood
    rw [not_or, not_not, not_not] at hgood
    obtain ⟨rfl, hm⟩ := hgood
    have hzero : (s.offset x.1).toInt = 0 := congrArg BitVec.toInt h.offset
    obtain ⟨hcount, hfill⟩ := readn_filled (isBuffer_toElfBuf s x.1 512) h.entry (by rw [hzero])
      (by rw [hzero]; decide) hrun (by decide)
    rw [hzero] at hcount hfill
    have hsize : 512 ≤ f.size := by
      rw [ProgramFile.count] at hcount
      split at hcount <;> omega
    have hall : f.count 512 0 = 512 := by omega
    rw [hall] at hfill
    apply helf
    refine ⟨?_, hsize, ?_⟩
    · exact readn_answered (by decide) hrun (by decide)
    · rw [← hmagic s.elfBuf, ← hfill.view]
      exact hm

end Header

/-- What is asked of `spawn` when it fails: the environments that were free are free, and no other descriptor is
open than before. -/
structure CleansUp (s t : Spawner) : Prop where
  envs : ∀ e ∈ s.freeList, e ∈ t.freeList
  fds : ∀ i, t.Open s.curenv i → s.Open s.curenv i

/-- The program file is opened and has a proper header, and then there is no child or no stack for it. -/
def Leaks (short : Nat → Bool) (files : CString → Except Refusal ProgramFile) (s : Spawner) (prog : CString)
    (argv : List CString) : Prop :=
  prog.val.length < MAXPATHLEN ∧ (∃ i, InRange i ∧ ¬ s.Open s.curenv i) ∧
    ∃ f, files prog = .ok f ∧ IsElf f s.requests ∧ (NoChild short s ∨ NoStack short (s.calls + 1) argv)

section Spawning

variable {short : Nat → Bool} {files : CString → Except Refusal ProgramFile} {flushed : Int} {s : Spawner}
  {prog : CString} {argv : List CString} {f : ProgramFile} {i : BitVec 32}

/-- The program with the file open as descriptor `i`. -/
def withFile (s : Spawner) (i : BitVec 32) : Spawner :=
  { s with toPaging := { s.toPaging with
    toSpaces := s.alloc s.curenv (fdPage i) ⟨shareRW, shareRW_valid⟩ (openedFd O_RDONLY) } }

theorem withFile_maps (s : Spawner) (i : BitVec 32) (e : Fin NENV) (n : Nat) : (withFile s i).maps e n =
    if e = s.curenv ∧ n = fdPage i then some (s.next, ⟨shareRW, shareRW_valid⟩) else s.maps e n := rfl

theorem withFile_open (hi : InRange i) (j : BitVec 32) :
    (withFile s i).Open s.curenv j ↔ s.Open s.curenv j ∨ j = i := by
  rw [Paging.Open, Paging.Open, withFile_maps]
  by_cases hj : j = i
  · subst hj
    simp [hi]
  · have hne (hin : InRange j) : fdPage j ≠ fdPage i := fun h => hj (fdPage_inj hin hi h)
    simp only [hj, or_false, true_and]
    refine and_congr_right fun hin => ?_
    rw [if_neg (hne hin)]

theorem withFile_fresh (hi : InRange i) :
    FreshFd (withFile s i).toPaging s.curenv i (s.next, ⟨shareRW, shareRW_valid⟩) := by
  have hdata : (withFile s i).data s.next = openedFd O_RDONLY := by simp [withFile]
  refine ⟨hi, ?_, ?_, ?_, ?_⟩
  · rw [withFile_maps, if_pos ⟨rfl, rfl⟩]
  · rw [hdata]
    decide +kernel
  · rw [hdata]
    decide +kernel
  · rw [Paging.offset, hdata]
    decide +kernel

private theorem fdAlloc_none (h : s.fdAlloc s.curenv = none) (hi : InRange i) : s.Open s.curenv i := by
  rw [Paging.fdAlloc, List.find?_eq_none] at h
  have hmem : INDEX2FD i ∈ (List.range MAXFD).map fun n => INDEX2FD (BitVec.ofNat 32 n) :=
    List.mem_map.mpr ⟨i.toNat, List.mem_range.mpr hi, by rw [BitVec.ofNat_toNat, BitVec.setWidth_eq]⟩
  exact ⟨hi, Option.isSome_iff_ne_none.mpr (by simpa [present_fd] using h _ hmem)⟩

/-- `open` finds a descriptor and gets the file, or nothing is mapped. -/
theorem openFile_cases (files : CString → Except Refusal ProgramFile) (flushed : Int) (s : Spawner)
    (prog : CString) :
    (∃ i f, prog.val.length < MAXPATHLEN ∧ (InRange i ∧ ¬ s.Open s.curenv i) ∧ files prog = .ok f ∧
      s.openFile files flushed s.curenv prog O_RDONLY = some (.ok (i, f), (withFile s i).toLoader)) ∨
    (¬ (prog.val.length < MAXPATHLEN ∧ (∃ i, InRange i ∧ ¬ s.Open s.curenv i) ∧ ∃ f, files prog = .ok f) ∧
      ∃ r, r < 0 ∧ s.openFile files flushed s.curenv prog O_RDONLY = some (.error r, s.toLoader)) := by
  rw [Loader.openFile]
  by_cases hpath : MAXPATHLEN ≤ prog.val.length
  · rw [if_pos hpath]
    exact .inr ⟨fun h => absurd h.1 (not_lt.mpr hpath), _, by decide, rfl⟩
  rw [if_neg hpath]
  rcases fdAlloc_cases s.toPaging s.curenv with hfd | ⟨i, hfd, hi, hfree, -⟩
  · rw [hfd]
    refine .inr ⟨?_, _, by decide, rfl⟩
    rintro ⟨-, ⟨i, hi, hno⟩, -⟩
    exact hno (fdAlloc_none hfd hi)
  · rw [hfd]
    dsimp only
    have hno : ¬ s.Open s.curenv i := by
      intro ho
      have hmapped := ho.2
      rw [hfree] at hmapped
      cases hmapped
    cases hfile : files prog with
    | error r =>
      refine .inr ⟨?_, r.val, r.property, ?_⟩
      · rintro ⟨-, -, f, hf⟩
        cases hf
      · dsimp only
        rw [Paging.fdClose, fd2num_of_inRange hi, fdLookup_not_open hno]
        rfl
    | ok f =>
      refine .inl ⟨i, f, not_le.mp hpath, ⟨hi, hno⟩, rfl, ?_⟩
      dsimp only
      rw [fd2num_of_inRange hi]
      rfl

private theorem loadOpened_cases (short : Nat → Bool) (flushed : Int) (f : ProgramFile) (argv : List CString)
    (hi : InRange i) :
    ((IsElf f s.requests ∧ (NoChild short s ∨ NoStack short (s.calls + 1) argv)) ∧
      ∃ r t, r < 0 ∧ (withFile s i).loadOpened short flushed f i argv = some (.error r, t) ∧ t.Open s.curenv i) ∨
    (¬ (IsElf f s.requests ∧ (NoChild short s ∨ NoStack short (s.calls + 1) argv)) ∧
      ∀ r t, (withFile s i).loadOpened short flushed f i argv = some (.error r, t) → CleansUp s t) := by
  have hfresh := withFile_fresh (s := s) hi
  -- closing the descriptor undoes `open`
  have hclean (t : Spawner) (hfree : t.freeList = s.freeList)
      (hopen : ∀ j, t.Open s.curenv j ↔ (withFile s i).Open s.curenv j ∧ j ≠ i) : CleansUp s t := by
    refine ⟨fun e he => hfree ▸ he, fun j hj => ?_⟩
    obtain ⟨hj, hne⟩ := (hopen j).mp hj
    exact ((withFile_open hi j).mp hj).resolve_right hne
  -- reading the header maps nothing
  have hsame {r : Int} {l : Loader} (hread : (withFile s i).readn f s.curenv i Loader.toElfBuf 512 = some (r, l)) :
      (∀ j, l.Open s.curenv j ↔ (withFile s i).Open s.curenv j) ∧ l.calls = s.calls := by
    obtain ⟨hmaps, hcalls⟩ := readnLoop_same (fun _ _ _ _ _ => toElfBuf_same) hread
    refine ⟨fun j => ?_, hcalls⟩
    rw [Paging.Open, Paging.Open, hmaps]
  have hopened : (withFile s i).Open s.curenv i := (withFile_open hi i).mpr (.inr rfl)
  rcases header_cases f hfresh with ⟨helf, l, hread, hmagic⟩ | ⟨hnot, hbad⟩
  · obtain ⟨hopen, hcalls⟩ := hsame hread
    have hrun : (withFile s i).loadOpened short flushed f i argv =
        Spawner.makeChild short flushed { withFile s i with toLoader := l } f i argv := by
      have hgood : ¬ ((512 : Int) ≠ 512 ∨ u32 l.elfBuf 0 ≠ ELF_MAGIC) := by
        rw [hmagic]
        simp
      rw [Spawner.loadOpened]
      change ((withFile s i).readn f s.curenv i Loader.toElfBuf 512 >>= _) = _
      rw [hread]
      exact if_neg hgood
    have hno' : NoChild short { withFile s i with toLoader := l } ↔ NoChild short s := by
      change (s.freeList = [] ∨ short l.calls = true) ↔ _
      rw [hcalls]
      rfl
    have hcases := makeChild_cases (s := { withFile s i with toLoader := l }) short flushed f argv
      ((hopen i).mpr hopened)
    rw [hno', hcalls, ← hrun] at hcases
    rcases hcases with ⟨hleak, r, t, hr, hmake, ht⟩ | ⟨hkeep, hmake⟩
    · exact .inl ⟨⟨helf, hleak⟩, r, t, hr, hmake, ht⟩
    · refine .inr ⟨fun h => hkeep h.2, fun r t ht => ?_⟩
      obtain ⟨hfree, hclosed⟩ := hmake r t ht
      exact hclean t hfree fun j => (hclosed j).trans (and_congr_left' (hopen j))
  · refine .inr ⟨fun h => hnot h.1, fun r t ht => ?_⟩
    rw [Spawner.loadOpened] at ht
    obtain ⟨⟨r', l⟩, hread, ht⟩ := Option.bind_eq_some_iff.mp ht
    obtain ⟨hopen, -⟩ := hsame hread
    dsimp only at ht
    rw [if_pos (hbad r' l hread)] at ht
    obtain ⟨u, hclose, ht⟩ := Option.bind_eq_some_iff.mp ht
    cases ht
    obtain ⟨v, hv, hfree, hclosed⟩ := closeFd_open (s := { withFile s i with toLoader := l }) flushed
      ((hopen i).mpr hopened)
    obtain rfl : v = t := Option.some.inj (hv.symm.trans hclose)
    exact hclean v hfree fun j => (hclosed j).trans (and_congr_left' (hopen j))

private theorem spawn_cases (short : Nat → Bool) (files : CString → Except Refusal ProgramFile) (flushed : Int)
    (s : Spawner) (prog : CString) (argv : List CString) :
    (Leaks short files s prog argv ∧
      ∃ r t, r < 0 ∧ s.spawn short files flushed prog argv = some (.error r, t) ∧ ¬ CleansUp s t) ∨
    (¬ Leaks short files s prog argv ∧
      ∀ r t, s.spawn short files flushed prog argv = some (.error r, t) → CleansUp s t) := by
  rw [Spawner.spawn]
  rcases openFile_cases files flushed s prog with ⟨i, f, hpath, ⟨hi, hno⟩, hfile, hopen⟩ | ⟨hfail, r, hr, hopen⟩
  · rw [hopen]
    change (_ ∧ ∃ r t, r < 0 ∧ (withFile s i).loadOpened short flushed f i argv = some (.error r, t) ∧ _) ∨
      (_ ∧ ∀ r t, (withFile s i).loadOpened short flushed f i argv = some (.error r, t) → _)
    have hleaks : Leaks short files s prog argv ↔
        IsElf f s.requests ∧ (NoChild short s ∨ NoStack short (s.calls + 1) argv) := by
      constructor
      · rintro ⟨-, -, f', hf', h⟩
        rw [hfile] at hf'
        cases hf'
        exact h
      · exact fun h => ⟨hpath, ⟨i, hi, hno⟩, f, hfile, h⟩
    rw [hleaks]
    rcases loadOpened_cases short flushed f argv hi with ⟨hleak, r, t, hr, hrun, ht⟩ | hkeep
    · exact .inl ⟨hleak, r, t, hr, hrun, fun h => hno (h.fds i ht)⟩
    · exact .inr hkeep
  · rw [hopen]
    refine .inr ⟨?_, fun r t h => ?_⟩
    · rintro ⟨hpath, hfree, f, hfile, -⟩
      exact hfail ⟨hpath, hfree, f, hfile⟩
    · cases h
      exact ⟨fun _ he => he, fun _ hj => hj⟩

end Spawning

/-- When `spawn` returns a negative value, it has cleaned up, exactly if neither of the two early returns is
taken. -/
theorem spawn_cleans_up_iff (short : Nat → Bool) (files : CString → Except Refusal ProgramFile) (flushed : Int)
    (s : Spawner) (prog : CString) (argv : List CString) :
    (∀ r t, r < 0 → s.spawn short files flushed prog argv = some (.error r, t) → CleansUp s t) ↔
      ¬ Leaks short files s prog argv := by
  rcases spawn_cases short files flushed s prog argv with ⟨hleaks, r, t, hr, hrun, hnot⟩ | ⟨hno, hall⟩
  · exact iff_of_false (fun h => hnot (h r t hr hrun)) (not_not_intro hleaks)
  · exact iff_of_true (fun r t _ => hall r t) hno

def sampleSpawner : Spawner where
  maps _ _ := none
  data _ _ := 0
  next := 1
  taken _ _ _ h := by cases h
  calls := 0
  requests := 0
  elfBuf _ := 0
  curenv := 1
  freeList := [2]
  frames _ := (0, 0)
  runnable _ := false
  curenv_taken := by decide

/-- A file with nothing but the magic number. -/
def elfFile : ProgramFile where
  size := 512
  byte p := if p < 4 then leByte ELF_MAGIC p.toNat else 0
  fails _ := none

def longArgument : CString := ⟨List.replicate 4096 97, by decide +kernel⟩

/-- An argument that does not fit on the stack page: the child stays allocated and the file open. -/
theorem spawn_leaks_child : ¬ ∀ (short : Nat → Bool) (files : CString → Except Refusal ProgramFile) (flushed : Int)
    (s : Spawner) (prog : CString) (argv : List CString) (r : Int) (t : Spawner), r < 0 →
      s.spawn short files flushed prog argv = some (.error r, t) → CleansUp s t := by
  intro hall
  have hrun : (sampleSpawner.spawn (fun _ => false) (fun _ => .ok elfFile) 0 ⟨[97], by decide⟩ [longArgument]).map
      (fun x => (x.1, x.2.freeList, decide (x.2.Open 1 0))) = some (.error (-E_NO_MEM), [], true) := by
    decide +kernel
  obtain ⟨⟨r, t⟩, hsome, hx⟩ := Option.map_eq_some_iff.mp hrun
  simp only [Prod.mk.injEq] at hx
  obtain ⟨rfl, hfree, -⟩ := hx
  have hchild := (hall _ _ _ _ _ _ _ _ E_NO_MEM_neg hsome).envs 2 (by decide)
  rw [hfree] at hchild
  cases hchild

end DamnOS.User
