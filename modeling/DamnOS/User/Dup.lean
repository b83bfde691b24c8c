import DamnOS.User.Descriptors

/-!
# Duplicating a descriptor

`dup` for all numbers: it closes the target before it maps the source there, takes any number for the target, and
leaves a data page at the target when the source has none.
-/

namespace DamnOS.User

open DamnOS.Framework DamnOS.Kernel
open DamnOS.Programs (MAXFD)

namespace Paging

def dupErr (s : Paging) (e : Fin NENV) (newfd nva : BitVec 32) (r : Int) : Int × Paging :=
  (r, ((s.sysPageUnmap e newfd).2.sysPageUnmap e nva).2)

/-- The page of `ova`, if there is one, is mapped at `nva`. -/
def dupData (short : Nat → Bool) (s : Paging) (e : Fin NENV) (ova nva : BitVec 32) : Option (Int × Paging) :=
  if s.present e ova then s.sysPageMap short e ova e nva (s.perm e ova) else some (0, s)

def dupMap (short : Nat → Bool) (s : Paging) (e : Fin NENV) (oldfd newfdnum : BitVec 32) : Option (Int × Paging) := do
  let newfd := INDEX2FD newfdnum
  let ova := fd2data oldfd
  let nva := fd2data newfd
  let (r, s) ← s.dupData short e ova nva
  if r < 0 then some (s.dupErr e newfd nva r)
  else do
    let (r, s) ← s.sysPageMap short e oldfd e newfd (s.perm e oldfd)
    if r < 0 then some (s.dupErr e newfd nva r) else some (newfdnum.toInt, s)

def dup (short : Nat → Bool) (flushed : Int) (s : Paging) (e : Fin NENV) (oldfdnum newfdnum : BitVec 32) :
    Option (Int × Paging) :=
  match s.fdLookup e oldfdnum with
  | none => some (-E_INVAL, s)
  | some oldfd => do
    let (_, s) ← s.close flushed e newfdnum
    s.dupMap short e oldfd newfdnum

end Paging

/-- The two pages of a descriptor are mapped as before. -/
def Unchanged (s t : Paging) (e : Fin NENV) (i : BitVec 32) : Prop :=
  t.maps e (fdPage i) = s.maps e (fdPage i) ∧ t.maps e (dataPage i) = s.maps e (dataPage i)

def Paging.page (s : Paging) (e : Fin NENV) (n : Nat) : Option Nat := (s.maps e n).map Prod.fst

/-- `dup` returned `r`, from state `s` to state `t`. -/
structure Duplicates (s t : Paging) (e : Fin NENV) (oldfdnum newfdnum : BitVec 32) (r : Int) : Prop where
  success : 0 ≤ r → r = newfdnum.toInt ∧ InRange newfdnum ∧
    t.page e (fdPage newfdnum) = t.page e (fdPage oldfdnum) ∧
    t.page e (dataPage newfdnum) = t.page e (dataPage oldfdnum) ∧
    ∀ i, InRange i → i ≠ newfdnum → Unchanged s t e i
  self : newfdnum = oldfdnum → s.Open e oldfdnum → r = oldfdnum.toInt ∧ t.Open e oldfdnum
  failure : r < 0 → ∀ i, InRange i → i ≠ newfdnum → Unchanged s t e i

/-- The page numbers of the descriptors and of their data. -/
def InArea (n : Nat) : Prop := FDTABLE / PGSIZE ≤ n ∧ n < FDTABLE / PGSIZE + 2 * MAXFD

/-- A call of `sys_page_map` fails: it finds no memory, or the target is not below `UTOP`. -/
def DupFails (short : Nat → Bool) (s : Paging) (e : Fin NENV) (oldfdnum newfdnum : BitVec 32) : Prop :=
  ((s.maps e (dataPage oldfdnum)).isSome = true ∧ (short s.calls = true ∨ NUPAGE ≤ dataPage newfdnum)) ∨
    short (s.calls + if (s.maps e (dataPage oldfdnum)).isSome = true then 1 else 0) = true ∨
    NUPAGE ≤ fdPage newfdnum

/-- The numbers and states for which `dup` does what is asked. -/
inductive DupSafe (short : Nat → Bool) (s : Paging) (e : Fin NENV) (oldfdnum newfdnum : BitVec 32) : Prop
  /-- There is nothing to duplicate. -/
  | closed (h : ¬ s.Open e oldfdnum)
  /-- No data page is left over at the target, or a call fails and it is removed. -/
  | inRange (hnew : InRange newfdnum) (hne : newfdnum ≠ oldfdnum)
      (h : (s.maps e (dataPage oldfdnum)).isSome = true ∨ s.maps e (dataPage newfdnum) = none ∨
        s.Open e newfdnum ∧ s.IsPipe e newfdnum ∨ DupFails short s e oldfdnum newfdnum)
  /-- A call fails, and there was nothing at the two pages that are unmapped then. -/
  | refused (hnew : ¬ InRange newfdnum) (h : DupFails short s e oldfdnum newfdnum)
      (hfd : InArea (fdPage newfdnum) → s.maps e (fdPage newfdnum) = none)
      (hdata : InArea (dataPage newfdnum) → s.maps e (dataPage newfdnum) = none)
  /-- The result is negative although no call fails, and the pages were mapped so before. -/
  | negative (hnew : newfdnum.toInt < 0) (h : ¬ DupFails short s e oldfdnum newfdnum)
      (hdata : (s.maps e (dataPage oldfdnum)).isSome = true → InArea (dataPage newfdnum) →
        s.maps e (dataPage newfdnum) = s.maps e (dataPage oldfdnum))
      (hfd : InArea (fdPage newfdnum) → s.maps e (fdPage newfdnum) = s.maps e (fdPage oldfdnum))

section Copy

variable {short : Nat → Bool} {s : Paging} {e : Fin NENV} {srcva dstva : BitVec 32}

private theorem copy_cases (short : Nat → Bool) {x : Nat × Rights} (hsrc : pageAddr srcva.toNat = true)
    (hx : s.maps e (PGNUM srcva.toNat) = some x)
    (hdst : pageAddr dstva.toNat = decide (PGNUM dstva.toNat < NUPAGE)) :
    ∃ r t, s.sysPageMap short e srcva e dstva (s.perm e srcva) = some (r, t) ∧
      (((short s.calls = true ∨ NUPAGE ≤ PGNUM dstva.toNat) ∧ r < 0 ∧ t.maps = s.maps) ∨
        (short s.calls = false ∧ PGNUM dstva.toNat < NUPAGE ∧ r = 0 ∧ t.calls = s.calls + 1 ∧
          ∀ i k, t.maps i k = if i = e ∧ k = PGNUM dstva.toNat then some x else s.maps i k)) := by
  have hrights : s.perm e srcva = x.2.val := by rw [Paging.perm, hx, Option.elim_some]
  have hvalid : permValid (s.perm e srcva).toNat = true := by
    rw [hrights]
    exact x.2.property
  have hpresent : s.present e srcva = true := by
    rw [Paging.present, hx]
    rfl
  by_cases hlt : PGNUM dstva.toNat < NUPAGE
  · rw [sysPageMap_eq hsrc (hdst.trans (decide_eq_true hlt)) hpresent hvalid]
    split
    · next hshort => exact ⟨_, _, rfl, .inl ⟨.inl hshort, E_NO_MEM_neg, rfl⟩⟩
    · next hshort =>
      refine ⟨_, _, rfl, .inr ⟨by simpa using hshort, hlt, rfl, rfl, fun i k => ?_⟩⟩
      simp only [Spaces.maps_share, hx, Option.map_some, hrights]
  · refine ⟨_, _, sysPageMap_invalid fun h => ?_, .inl ⟨.inr (not_lt.mp hlt), E_INVAL_neg, rfl⟩⟩
    rw [hdst] at h
    exact hlt (of_decide_eq_true h.1.2)

private theorem copy_absent (h : s.present e srcva = false) :
    s.sysPageMap short e srcva e dstva (s.perm e srcva) = some (-E_INVAL, s) := by
  have hnone : s.maps e (PGNUM srcva.toNat) = none := by simpa [Paging.present] using h
  have hperm : s.perm e srcva = 0 := by
    rw [Paging.perm, hnone]
    rfl
  apply sysPageMap_invalid
  rw [hperm]
  exact fun hvalid => absurd hvalid.2 (by decide)

end Copy

section Mapping

variable {short : Nat → Bool} {s : Paging} {e : Fin NENV} {i j : BitVec 32}

private theorem fdPage_ne_own (i : BitVec 32) : fdPage i ≠ dataPage i := by
  rw [fdPage_eq, dataPage_eq]
  omega

private theorem unmap_fd_maps (s : Paging) (e : Fin NENV) (j : BitVec 32) (n : Nat) :
    (s.sysPageUnmap e (INDEX2FD j)).2.maps e n =
      if n = fdPage j ∧ fdPage j < NUPAGE then none else s.maps e n := by
  rw [sysPageUnmap_maps]
  simp only [pageAddr_fd]
  exact if_congr (and_congr_right fun _ => decide_eq_true_iff) rfl rfl

private theorem unmap_data_maps (s : Paging) (e : Fin NENV) (j : BitVec 32) (n : Nat) :
    (s.sysPageUnmap e (fd2data (INDEX2FD j))).2.maps e n =
      if n = dataPage j ∧ dataPage j < NUPAGE then none else s.maps e n := by
  rw [sysPageUnmap_maps]
  simp only [pageAddr_data]
  exact if_congr (and_congr_right fun _ => decide_eq_true_iff) rfl rfl

private theorem dupErr_maps (s : Paging) (e : Fin NENV) (j : BitVec 32) (r : Int) (n : Nat) :
    (s.dupErr e (INDEX2FD j) (fd2data (INDEX2FD j)) r).2.maps e n =
      if n = fdPage j ∧ fdPage j < NUPAGE ∨ n = dataPage j ∧ dataPage j < NUPAGE then none else s.maps e n := by
  rw [Paging.dupErr, unmap_data_maps, unmap_fd_maps]
  by_cases hdata : n = dataPage j ∧ dataPage j < NUPAGE
  · rw [if_pos hdata, if_pos (.inr hdata)]
  · by_cases hfd : n = fdPage j ∧ fdPage j < NUPAGE
    · rw [if_neg hdata, if_pos hfd, if_pos (.inl hfd)]
    · rw [if_neg hdata, if_neg hfd, if_neg (not_or.mpr ⟨hfd, hdata⟩)]

/-- The entry found at a page number after the page of the data was mapped. -/
def withData (s : Paging) (e : Fin NENV) (i j : BitVec 32) (n : Nat) : Option (Nat × Rights) :=
  if (s.maps e (dataPage i)).isSome = true ∧ n = dataPage j then s.maps e (dataPage i) else s.maps e n

private theorem dupData_cases (short : Nat → Bool) (s : Paging) (e : Fin NENV) (j : BitVec 32) (hi : InRange i) :
    ∃ r t, s.dupData short e (fd2data (INDEX2FD i)) (fd2data (INDEX2FD j)) = some (r, t) ∧
      (((s.maps e (dataPage i)).isSome = true ∧ (short s.calls = true ∨ NUPAGE ≤ dataPage j) ∧ r < 0 ∧
          t.maps = s.maps) ∨
        (¬ ((s.maps e (dataPage i)).isSome = true ∧ (short s.calls = true ∨ NUPAGE ≤ dataPage j)) ∧ r = 0 ∧
          t.calls = s.calls + (if (s.maps e (dataPage i)).isSome = true then 1 else 0) ∧
          ∀ n, t.maps e n = withData s e i j n)) := by
  rw [Paging.dupData, present_data]
  by_cases hd : (s.maps e (dataPage i)).isSome = true
  · obtain ⟨x, hx⟩ := Option.isSome_iff_exists.mp hd
    rw [if_pos hd]
    obtain ⟨r, t, hcall, hcases⟩ := copy_cases short ((pageAddr_data i).trans
      (decide_eq_true (dataPage_lt hi))) hx (pageAddr_data j)
    refine ⟨r, t, hcall, ?_⟩
    rcases hcases with ⟨hfail, hr, hmaps⟩ | ⟨hshort, hlt, hr, hcalls, hmaps⟩
    · exact .inl ⟨hd, hfail, hr, hmaps⟩
    · refine .inr ⟨fun h => ?_, hr, by rw [hcalls, if_pos hd], fun n => ?_⟩
      · rcases h.2 with h | h
        · rw [hshort] at h
          cases h
        · exact absurd hlt (not_lt.mpr h)
      · rw [hmaps, withData, hx]
        simp [dataPage]
  · rw [if_neg hd]
    refine ⟨0, s, rfl, .inr ⟨fun h => hd h.1, rfl, by rw [if_neg hd]; rfl, fun n => ?_⟩⟩
    rw [withData, if_neg fun h => hd h.1]

/-- What `dup` maps once the target is closed: a call fails and both pages of the target are removed, or they are
mapped like those of the source. -/
theorem dupMap_cases (short : Nat → Bool) (j : BitVec 32) {x : Nat × Rights} (hi : InRange i)
    (hx : s.maps e (fdPage i) = some x) :
    ∃ r t, s.dupMap short e (INDEX2FD i) j = some (r, t) ∧
      ((DupFails short s e i j ∧ r < 0 ∧ ∀ n, t.maps e n =
          if n = fdPage j ∧ fdPage j < NUPAGE ∨ n = dataPage j ∧ dataPage j < NUPAGE then none else s.maps e n) ∨
        (¬ DupFails short s e i j ∧ r = j.toInt ∧ ∀ n, t.maps e n =
          if n = fdPage j then withData s e i j (fdPage i) else withData s e i j n)) := by
  obtain ⟨r, u, hdata, hcases⟩ := dupData_cases short s e j hi
  rw [Paging.dupMap]
  dsimp only
  rw [hdata]
  dsimp only [Option.bind_eq_bind, Option.bind_some]
  rcases hcases with ⟨hd, hfail, hr, hmaps⟩ | ⟨hno, hr, hcalls, hmaps⟩
  · -- the data page is not mapped
    rw [if_pos hr]
    refine ⟨r, (u.dupErr e (INDEX2FD j) (fd2data (INDEX2FD j)) r).2, rfl, .inl ⟨.inl ⟨hd, hfail⟩, hr, fun n => ?_⟩⟩
    rw [dupErr_maps, hmaps]
  · rw [if_neg (by omega)]
    obtain ⟨y, hy⟩ : ∃ y, u.maps e (fdPage i) = some y := by
      rw [hmaps, withData]
      split
      · next h => exact Option.isSome_iff_exists.mp h.1
      · exact ⟨x, hx⟩
    obtain ⟨r₂, t, hmap, hcopy⟩ := copy_cases short
      ((pageAddr_fd i).trans (decide_eq_true (fdPage_lt hi))) hy (pageAddr_fd j)
    rw [hmap]
    dsimp only [Option.bind_some]
    rcases hcopy with ⟨hfail, hr₂, hsame⟩ | ⟨hshort, hlt, hr₂, -, hsame⟩
    · rw [if_pos hr₂]
      refine ⟨r₂, (t.dupErr e (INDEX2FD j) (fd2data (INDEX2FD j)) r₂).2, rfl, .inl ⟨.inr ?_, hr₂, fun n => ?_⟩⟩
      · rwa [hcalls] at hfail
      · -- the page of the data was mapped and is removed again
        rw [dupErr_maps, hsame, hmaps, withData]
        by_cases htarget : n = fdPage j ∧ fdPage j < NUPAGE ∨ n = dataPage j ∧ dataPage j < NUPAGE
        · rw [if_pos htarget, if_pos htarget]
        · rw [if_neg htarget, if_neg htarget]
          refine if_neg fun h => htarget (.inr ⟨h.2, ?_⟩)
          exact not_le.mp fun hge => hno ⟨h.1, .inr hge⟩
    · rw [if_neg (by omega)]
      refine ⟨_, _, rfl, .inr ⟨?_, rfl, fun n => ?_⟩⟩
      · rw [hcalls] at hshort
        rintro (h | h | h)
        · exact hno h
        · rw [hshort] at h
          cases h
        · exact absurd hlt (not_lt.mpr h)
      · rw [← hmaps, ← hmaps, hy]
        exact (hsame e n).trans (if_congr (and_iff_right rfl) rfl rfl)

private theorem dupMap_absent (hi : InRange i) (hx : s.maps e (fdPage i) = none) :
    ∃ r t, s.dupMap short e (INDEX2FD i) i = some (r, t) ∧ r < 0 := by
  obtain ⟨r, u, hdata, hcases⟩ := dupData_cases short s e i hi
  rw [Paging.dupMap]
  dsimp only
  rw [hdata]
  dsimp only [Option.bind_eq_bind, Option.bind_some]
  rcases hcases with ⟨-, -, hr, -⟩ | ⟨-, hr, -, hmaps⟩
  · rw [if_pos hr]
    exact ⟨_, _, rfl, hr⟩
  · have habsent : u.present e (INDEX2FD i) = false := by
      rw [present_fd, hmaps, withData, if_neg fun h => fdPage_ne_own i h.2, hx]
      rfl
    rw [if_neg (by omega), copy_absent habsent]
    dsimp only [Option.bind_some]
    rw [if_pos E_INVAL_neg]
    exact ⟨_, _, rfl, E_INVAL_neg⟩

end Mapping

section Numbers

variable {short : Nat → Bool} {flushed : Int} {s t : Paging} {e : Fin NENV} {i j : BitVec 32}

private theorem inArea_iff (n : Nat) : InArea n ↔ ∃ i, InRange i ∧ (n = fdPage i ∨ n = dataPage i) := by
  have hbase : FDTABLE / PGSIZE = 0x20000 := by decide
  rw [InArea, hbase]
  constructor
  · rintro ⟨hlo, hhi⟩
    simp only [MAXFD] at hhi
    by_cases hn : n < 0x20020
    · have hi : InRange (BitVec.ofNat 32 (n - 0x20000)) := by
        simp only [InRange, MAXFD, BitVec.toNat_ofNat]
        omega
      refine ⟨_, hi, .inl ?_⟩
      rw [fdPage_of_inRange hi, BitVec.toNat_ofNat]
      omega
    · have hi : InRange (BitVec.ofNat 32 (n - 0x20020)) := by
        simp only [InRange, MAXFD, BitVec.toNat_ofNat]
        omega
      refine ⟨_, hi, .inr ?_⟩
      rw [dataPage_of_inRange hi, BitVec.toNat_ofNat]
      omega
  · rintro ⟨i, hi, rfl | rfl⟩
    · rw [fdPage_of_inRange hi]
      simp only [InRange, MAXFD] at hi ⊢
      omega
    · rw [dataPage_of_inRange hi]
      simp only [InRange, MAXFD] at hi ⊢
      omega

private theorem unchanged_iff : (∀ i, InRange i → Unchanged s t e i) ↔ ∀ n, InArea n → t.maps e n = s.maps e n := by
  constructor
  · intro h n hn
    obtain ⟨i, hi, rfl | rfl⟩ := (inArea_iff n).mp hn
    · exact (h i hi).1
    · exact (h i hi).2
  · intro h i hi
    exact ⟨h _ ((inArea_iff _).mpr ⟨i, hi, .inl rfl⟩), h _ ((inArea_iff _).mpr ⟨i, hi, .inr rfl⟩)⟩

theorem InArea.lt {n : Nat} (h : InArea n) : n < NUPAGE := by
  have hN : NUPAGE = 977920 := rfl
  have hbase : FDTABLE / PGSIZE = 0x20000 := by decide
  obtain ⟨-, h⟩ := h
  rw [hbase, MAXFD] at h
  omega

private theorem dup_closed (h : ¬ s.Open e i) : s.dup short flushed e i j = some (-E_INVAL, s) := by
  rw [Paging.dup, fdLookup_not_open h]

private theorem dup_open (h : s.Open e i) {r : Int} {u : Paging} (hclose : s.close flushed e j = some (r, u)) :
    s.dup short flushed e i j = u.dupMap short e (INDEX2FD i) j := by
  rw [Paging.dup, fdLookup_open h]
  dsimp only
  rw [hclose]
  rfl

private theorem toInt_nonneg (h : InRange i) : 0 ≤ i.toInt := by
  have := (inRange_iff i).mp h
  omega

private theorem dup_self (short : Nat → Bool) (flushed : Int) (h : s.Open e i) :
    ∃ r t, s.dup short flushed e i i = some (r, t) ∧ r < 0 := by
  obtain ⟨r, u, hclose, hu⟩ := close_open flushed h
  rw [dup_open h hclose]
  exact dupMap_absent h.1 hu.fd

private theorem dup_outside (h : s.Open e i) (hj : ¬ InRange j) : ∃ r t, s.dup short flushed e i j = some (r, t) ∧
    (Duplicates s t e i j r ↔ DupSafe short s e i j) := by
  have hne : j ≠ i := fun hji => hj (hji ▸ h.1)
  have hall : ∀ k, InRange k → k ≠ j := fun k hk hkj => hj (hkj ▸ hk)
  obtain ⟨x, hx⟩ := Option.isSome_iff_exists.mp h.2
  rw [dup_open h (close_not_open flushed fun ho => hj ho.1)]
  obtain ⟨r, t, hmap, hcases⟩ := dupMap_cases short j h.1 hx
  refine ⟨r, t, hmap, ?_⟩
  rcases hcases with ⟨hfails, hr, hmaps⟩ | ⟨hfails, hr, hmaps⟩
  · -- the two pages of the target are unmapped
    have hdup : Duplicates s t e i j r ↔ ∀ n, InArea n → t.maps e n = s.maps e n := by
      rw [← unchanged_iff]
      constructor
      · exact fun hd k hk => hd.failure hr k hk (hall k hk)
      · exact fun hu => ⟨fun h0 => absurd hr (not_lt.mpr h0), fun hji => absurd hji hne, fun _ k hk _ => hu k hk⟩
    rw [hdup]
    constructor
    · intro hu
      refine .refused hj hfails (fun ha => ?_) fun hb => ?_
      · rw [← hu _ ha, hmaps, if_pos (.inl ⟨rfl, ha.lt⟩)]
      · rw [← hu _ hb, hmaps, if_pos (.inr ⟨rfl, hb.lt⟩)]
    · intro hsafe n hn
      cases hsafe with
      | closed hc => exact absurd h hc
      | inRange hnew => exact absurd hnew hj
      | negative _ hno => exact absurd hfails hno
      | refused _ _ hfd hdata =>
        rw [hmaps]
        split
        · next htarget =>
          rcases htarget with ⟨rfl, -⟩ | ⟨rfl, -⟩
          · exact (hfd hn).symm
          · exact (hdata hn).symm
        · rfl
  · by_cases hneg : j.toInt < 0
    · -- the result is taken for an error, so nothing may have changed
      have hdup : Duplicates s t e i j r ↔ ∀ n, InArea n → t.maps e n = s.maps e n := by
        rw [← unchanged_iff, hr]
        constructor
        · exact fun hd k hk => hd.failure hneg k hk (hall k hk)
        · exact fun hu => ⟨fun h0 => absurd hneg (not_lt.mpr h0), fun hji => absurd hji hne,
            fun _ k hk _ => hu k hk⟩
      rw [hdup]
      have hfd : InArea (fdPage i) := (inArea_iff _).mpr ⟨i, h.1, .inl rfl⟩
      constructor
      · intro hu
        have hdata : (s.maps e (dataPage i)).isSome = true → InArea (dataPage j) →
            s.maps e (dataPage j) = s.maps e (dataPage i) := by
          intro hd hb
          rw [← hu _ hb, hmaps, if_neg (fdPage_ne_own j).symm, withData, if_pos ⟨hd, rfl⟩]
        refine .negative hneg hfails hdata fun ha => ?_
        rw [← hu _ ha, hmaps, if_pos rfl, withData]
        split
        · next htarget => rw [htarget.2, hdata htarget.1 (htarget.2 ▸ hfd)]
        · rfl
      · intro hsafe n hn
        cases hsafe with
        | closed hc => exact absurd h hc
        | inRange hnew => exact absurd hnew hj
        | refused _ hf => exact absurd hf hfails
        | negative _ _ hdata hfd' =>
          have hkeep (k : Nat) (hk : InArea k) : withData s e i j k = s.maps e k := by
            rw [withData]
            split
            · next htarget =>
              obtain ⟨hd, rfl⟩ := htarget
              exact (hdata hd hk).symm
            · rfl
          rw [hmaps]
          split
          · next htarget =>
            subst htarget
            rw [hkeep _ hfd, hfd' hn]
          · exact hkeep n hn
    · refine iff_of_false (fun hd => hj (hd.success (by omega)).2.1) fun hsafe => ?_
      cases hsafe with
      | closed hc => exact hc h
      | inRange hnew => exact hj hnew
      | refused _ hf => exact hfails hf
      | negative hlt => exact hneg hlt

/-- What stays mapped at the data page of a descriptor when it is closed. -/
def dataLeft (s : Paging) (e : Fin NENV) (j : BitVec 32) : Option (Nat × Rights) :=
  if s.Open e j ∧ s.IsPipe e j then none else s.maps e (dataPage j)

private theorem dataLeft_eq_none :
    dataLeft s e j = none ↔ s.maps e (dataPage j) = none ∨ s.Open e j ∧ s.IsPipe e j := by
  rw [dataLeft]
  split
  · next h => exact iff_of_true rfl (.inr h)
  · next h => exact (or_iff_left h).symm

private theorem close_cases (s : Paging) (e : Fin NENV) (flushed : Int) (j : BitVec 32) :
    ∃ r u, s.close flushed e j = some (r, u) ∧ u.calls = s.calls ∧
    u.maps e (dataPage j) = dataLeft s e j ∧
    ∀ n, n ≠ fdPage j → n ≠ dataPage j → u.maps e n = s.maps e n := by
  by_cases ho : s.Open e j
  · obtain ⟨r, u, hclose, hu⟩ := close_open flushed ho
    refine ⟨r, u, hclose, hu.calls, ?_, hu.rest⟩
    rw [hu.data, dataLeft]
    simp [ho]
  · refine ⟨_, _, close_not_open flushed ho, rfl, ?_, fun _ _ _ => rfl⟩
    rw [dataLeft, if_neg fun h => ho h.1]

private theorem dup_inRange (h : s.Open e i) (hj : InRange j) (hne : j ≠ i) : ∃ r t,
    s.dup short flushed e i j = some (r, t) ∧ (Duplicates s t e i j r ↔ DupSafe short s e i j) := by
  obtain ⟨x, hx⟩ := Option.isSome_iff_exists.mp h.2
  obtain ⟨r, u, hclose, hcalls, hleft, hrest⟩ := close_cases s e flushed j
  rw [dup_open h hclose]
  -- the pages of the other descriptors are not the two of the target
  have hfd (k : BitVec 32) (hk : InRange k) (hkj : k ≠ j) : fdPage k ≠ fdPage j ∧ fdPage k ≠ dataPage j :=
    ⟨fun he => hkj (fdPage_inj hk hj he), fdPage_ne_dataPage hk hj⟩
  have hdata (k : BitVec 32) (hk : InRange k) (hkj : k ≠ j) : dataPage k ≠ fdPage j ∧ dataPage k ≠ dataPage j :=
    ⟨fun he => fdPage_ne_dataPage hj hk he.symm, fun he => hkj (dataPage_inj hk hj he)⟩
  have hufd (k : BitVec 32) (hk : InRange k) (hkj : k ≠ j) : u.maps e (fdPage k) = s.maps e (fdPage k) :=
    hrest _ (hfd k hk hkj).1 (hfd k hk hkj).2
  have hudata (k : BitVec 32) (hk : InRange k) (hkj : k ≠ j) : u.maps e (dataPage k) = s.maps e (dataPage k) :=
    hrest _ (hdata k hk hkj).1 (hdata k hk hkj).2
  have hfails : DupFails short u e i j ↔ DupFails short s e i j := by
    rw [DupFails, DupFails, hcalls, hudata i h.1 hne.symm]
  obtain ⟨r, t, hmap, hcases⟩ := dupMap_cases short j h.1 ((hufd i h.1 hne.symm).trans hx)
  refine ⟨r, t, hmap, ?_⟩
  rw [hfails] at hcases
  rcases hcases with ⟨hf, hr, hmaps⟩ | ⟨hf, hr, hmaps⟩
  · refine iff_of_true ⟨fun h0 => absurd hr (not_lt.mpr h0), fun hji => absurd hji hne, fun _ k hk hkj => ?_⟩
      (.inRange hj hne (.inr (.inr (.inr hf))))
    constructor
    · rw [hmaps, if_neg, hufd k hk hkj]
      rintro (⟨he, -⟩ | ⟨he, -⟩)
      · exact (hfd k hk hkj).1 he
      · exact (hfd k hk hkj).2 he
    · rw [hmaps, if_neg, hudata k hk hkj]
      rintro (⟨he, -⟩ | ⟨he, -⟩)
      · exact (hdata k hk hkj).1 he
      · exact (hdata k hk hkj).2 he
  · have hothers (k : BitVec 32) (hk : InRange k) (hkj : k ≠ j) : Unchanged s t e k := by
      constructor
      · rw [hmaps, if_neg (hfd k hk hkj).1, withData, if_neg fun hd => (hfd k hk hkj).2 hd.2, hufd k hk hkj]
      · rw [hmaps, if_neg (hdata k hk hkj).1, withData, if_neg fun hd => (hdata k hk hkj).2 hd.2,
          hudata k hk hkj]
    have hsource := hothers i h.1 hne.symm
    have htarget : t.maps e (fdPage j) = s.maps e (fdPage i) := by
      rw [hmaps, if_pos rfl, withData, if_neg fun hd => (hfd i h.1 hne.symm).2 hd.2, hufd i h.1 hne.symm]
    have htargetData : t.maps e (dataPage j) =
        if (s.maps e (dataPage i)).isSome = true then s.maps e (dataPage i) else dataLeft s e j := by
      rw [hmaps, if_neg (fdPage_ne_own j).symm, withData, hudata i h.1 hne.symm, hleft]
      simp
    have hdup : Duplicates s t e i j r ↔ t.page e (dataPage j) = t.page e (dataPage i) := by
      rw [hr]
      constructor
      · exact fun hd => (hd.success (toInt_nonneg hj)).2.2.2.1
      · intro hpage
        refine ⟨fun _ => ⟨rfl, hj, ?_, hpage, hothers⟩, fun hji => absurd hji hne,
          fun h0 => absurd (toInt_nonneg hj) (not_le.mpr h0)⟩
        rw [Paging.page, Paging.page, htarget, hsource.1]
    rw [hdup, Paging.page, Paging.page, htargetData, hsource.2]
    by_cases hd : (s.maps e (dataPage i)).isSome = true
    · rw [if_pos hd]
      exact iff_of_true rfl (.inRange hj hne (.inl hd))
    · have hnone : s.maps e (dataPage i) = none := Option.not_isSome_iff_eq_none.mp hd
      rw [if_neg hd, hnone, Option.map_none, Option.map_eq_none_iff, dataLeft_eq_none]
      constructor
      · rintro (hb | hp)
        · exact .inRange hj hne (.inr (.inl hb))
        · exact .inRange hj hne (.inr (.inr (.inl hp)))
      · intro hsafe
        cases hsafe with
        | closed hc => exact absurd h hc
        | inRange _ _ hany =>
          rcases hany with hany | hb | hp | hfail
          · exact absurd hany hd
          · exact .inl hb
          · exact .inr hp
          · exact absurd hfail hf
        | refused hout => exact absurd hj hout
        | negative hneg => exact absurd (toInt_nonneg hj) (not_le.mpr hneg)

end Numbers

theorem dup_settles (short : Nat → Bool) (flushed : Int) (s : Paging) (e : Fin NENV)
    (oldfdnum newfdnum : BitVec 32) : ∃ r t, s.dup short flushed e oldfdnum newfdnum = some (r, t) ∧
      (Duplicates s t e oldfdnum newfdnum r ↔ DupSafe short s e oldfdnum newfdnum) := by
  by_cases h : s.Open e oldfdnum
  · by_cases hnew : InRange newfdnum
    · by_cases hne : newfdnum = oldfdnum
      · subst hne
        obtain ⟨r, t, hdup, hr⟩ := dup_self short flushed h
        refine ⟨r, t, hdup, iff_of_false (fun hd => ?_) fun hsafe => ?_⟩
        · have := (hd.self rfl h).1
          have := toInt_nonneg hnew
          omega
        · cases hsafe with
          | closed hc => exact hc h
          | inRange _ hne => exact hne rfl
          | refused hout => exact hout hnew
          | negative hneg => exact absurd (toInt_nonneg hnew) (not_le.mpr hneg)
      · exact dup_inRange h hnew hne
    · exact dup_outside h hnew
  · refine ⟨_, _, dup_closed h, iff_of_true ?_ (.closed h)⟩
    exact ⟨fun h0 => absurd E_INVAL_neg (not_lt.mpr h0), fun _ ho => absurd ho h, fun _ _ _ _ => ⟨rfl, rfl⟩⟩

/-- `dup` does what is asked exactly for the numbers and states of `DupSafe`. -/
theorem dup_duplicates_iff (short : Nat → Bool) (flushed : Int) (s : Paging) (e : Fin NENV)
    (oldfdnum newfdnum : BitVec 32) : ∃ r t, s.dup short flushed e oldfdnum newfdnum = some (r, t) ∧
      (Duplicates s t e oldfdnum newfdnum r ↔ DupSafe short s e oldfdnum newfdnum) :=
  dup_settles short flushed s e oldfdnum newfdnum

/-- A program that has the console open as descriptor 0. -/
def consoleProgram : Paging where
  maps e n :=
    if e = 1 ∧ n = 0x20000 then
      some (7, ⟨BitVec.ofNat 32 (PTE_P ||| PTE_U ||| PTE_W ||| PTE_SHARE), by decide⟩)
    else none
  data _ k := if k = 0 then 99 else 0
  next := 8
  taken e n x h := by
    split at h
    · obtain rfl := Option.some.inj h
      decide
    · cases h
  calls := 0

/-- `dup(0, 0)` closes the console. -/
theorem dup_console : ¬ ∀ (short : Nat → Bool) (flushed : Int) (s t : Paging) (e : Fin NENV)
    (oldfdnum newfdnum : BitVec 32) (r : Int), s.dup short flushed e oldfdnum newfdnum = some (r, t) →
      Duplicates s t e oldfdnum newfdnum r := by
  intro hall
  have hopen : consoleProgram.Open 1 0 := by decide
  obtain ⟨r, t, hdup, hr⟩ := dup_self (fun _ => false) 0 hopen
  have hself := ((hall _ _ _ _ _ _ _ _ hdup).self rfl hopen).1
  rw [hself] at hr
  exact absurd hr (by decide)

end DamnOS.User
