import DamnOS.User.Descriptors

/-!
# Making a pipe

`pipe` takes two descriptors and a shared data page, with up to four system calls that can fail.  Each failure
unwinds what was mapped before.
-/

namespace DamnOS.User

open DamnOS.Framework DamnOS.Kernel
open DamnOS.Programs (MAXFD O_RDONLY O_WRONLY)
open DamnOS.FileSystem (Err)

def shareRW : BitVec 32 := BitVec.ofNat 32 (PTE_P ||| PTE_W ||| PTE_U ||| PTE_SHARE)

namespace Paging

/-- The two `Fd` pages are filled in, and `pfd` gets their numbers. -/
def setPipe (s : Paging) (e : Fin NENV) (fd0 fd1 : BitVec 32) :
    Option (Except Int (BitVec 32 × BitVec 32) × Paging) := do
  let s ← s.storeWord e (fd0 + offDevId) Dev.pipe.id
  let s ← s.storeWord e (fd0 + offOmode) O_RDONLY
  let s ← s.storeWord e (fd1 + offDevId) Dev.pipe.id
  let s ← s.storeWord e (fd1 + offOmode) O_WRONLY
  some (.ok (fd2num fd0, fd2num fd1), s)

/-- `pipe`: the value returned if it is negative, and otherwise `pfd[0]` and `pfd[1]`. -/
def pipe (short : Nat → Bool) (s : Paging) (e : Fin NENV) :
    Option (Except Int (BitVec 32 × BitVec 32) × Paging) :=
  match s.fdAlloc e with
  | none => some (.error (-(Err.code .maxOpen : Int)), s)
  | some fd0 =>
    let (r, s) := s.sysPageAlloc short e fd0 shareRW
    if r < 0 then some (.error r, s)
    else
      match s.fdAlloc e with
      | none => some (.error (-(Err.code .maxOpen : Int)), (s.sysPageUnmap e fd0).2)
      | some fd1 =>
        let (r, s) := s.sysPageAlloc short e fd1 shareRW
        if r < 0 then some (.error r, (s.sysPageUnmap e fd0).2)
        else
          let va := fd2data fd0
          let (r, s) := s.sysPageAlloc short e va shareRW
          if r < 0 then some (.error r, ((s.sysPageUnmap e fd1).2.sysPageUnmap e fd0).2)
          else do
            let (r, s) ← s.sysPageMap short e va e (fd2data fd1) shareRW
            if r < 0 then
              some (.error r, (((s.sysPageUnmap e va).2.sysPageUnmap e fd1).2.sysPageUnmap e fd0).2)
            else s.setPipe e fd0 fd1

end Paging

section Steps

variable {short : Nat → Bool} {s : Paging} {e : Fin NENV} {i : BitVec 32}

/-- `i` is the smallest descriptor without a page. -/
def FirstFree (s : Paging) (e : Fin NENV) (i : BitVec 32) : Prop :=
  InRange i ∧ s.maps e (fdPage i) = none ∧ ∀ k : BitVec 32, k.toNat < i.toNat → (s.maps e (fdPage k)).isSome = true

theorem fdAlloc_cases (s : Paging) (e : Fin NENV) :
    s.fdAlloc e = none ∨ ∃ i, s.fdAlloc e = some (INDEX2FD i) ∧ FirstFree s e i := by
  rw [Paging.fdAlloc, List.find?_map]
  cases hfind : (List.range MAXFD).find? ((fun fd => !s.present e fd) ∘ fun i => INDEX2FD (BitVec.ofNat 32 i)) with
  | none => exact .inl rfl
  | some n =>
    rw [List.find?_range_eq_some] at hfind
    obtain ⟨hfree, hn, hbelow⟩ := hfind
    have hlt : n < MAXFD := List.mem_range.mp hn
    have hnat : (BitVec.ofNat 32 n).toNat = n := by
      simp only [MAXFD] at hlt
      rw [BitVec.toNat_ofNat]
      omega
    refine .inr ⟨BitVec.ofNat 32 n, rfl, ?_, ?_, fun k hk => ?_⟩
    · rw [InRange, hnat]
      exact hlt
    · simpa [present_fd] using hfree
    · rw [hnat] at hk
      have hbusy := hbelow k.toNat hk
      simpa [present_fd, BitVec.ofNat_toNat] using hbusy

theorem shareRW_valid : permValid shareRW.toNat = true := by decide

def withPage (s : Paging) (e : Fin NENV) (n : Nat) : Paging :=
  ⟨s.alloc e n ⟨shareRW, shareRW_valid⟩ fun _ => 0, s.calls + 1⟩

private theorem alloc_fd (hi : InRange i) : s.sysPageAlloc short e (INDEX2FD i) shareRW =
    if short s.calls then (-E_NO_MEM, { s with calls := s.calls + 1 })
    else (0, withPage s e (fdPage i)) :=
  sysPageAlloc_eq ((pageAddr_fd i).trans (decide_eq_true (fdPage_lt hi))) shareRW_valid

private theorem alloc_data (hi : InRange i) : s.sysPageAlloc short e (fd2data (INDEX2FD i)) shareRW =
    if short s.calls then (-E_NO_MEM, { s with calls := s.calls + 1 })
    else (0, withPage s e (dataPage i)) :=
  sysPageAlloc_eq ((pageAddr_data i).trans (decide_eq_true (dataPage_lt hi))) shareRW_valid

private theorem map_data {j : BitVec 32} (hi : InRange i) (hj : InRange j)
    (hx : (s.maps e (dataPage i)).isSome = true) :
    s.sysPageMap short e (fd2data (INDEX2FD i)) e (fd2data (INDEX2FD j)) shareRW = some (
      if short s.calls then (-E_NO_MEM, { s with calls := s.calls + 1 })
      else (0, ⟨s.share e (dataPage i) e (dataPage j) ⟨shareRW, shareRW_valid⟩, s.calls + 1⟩)) :=
  sysPageMap_eq ((pageAddr_data i).trans (decide_eq_true (dataPage_lt hi)))
    ((pageAddr_data j).trans (decide_eq_true (dataPage_lt hj))) hx shareRW_valid

def HoldsPipe (s : Paging) (e : Fin NENV) (i : BitVec 32) (mode : Nat) : Prop :=
  s.Open e i ∧ s.loadWord e (INDEX2FD i + offDevId) = some Dev.pipe.id ∧
    s.loadWord e (INDEX2FD i + offOmode) = some mode

private theorem setFd {p mode : Nat} (hi : InRange i) (hx : s.maps e (fdPage i) = some (p, ⟨shareRW, shareRW_valid⟩))
    (hmode : mode < 2 ^ 32) : ∃ t, ((s.storeWord e (INDEX2FD i + offDevId) Dev.pipe.id).bind fun s =>
      s.storeWord e (INDEX2FD i + offOmode) mode) = some t ∧ t.maps = s.maps ∧ HoldsPipe t e i mode ∧
      ∀ q, q ≠ p → t.data q = s.data q := by
  obtain ⟨hdev, hdevOff⟩ := field_toNat i offDevId (by decide)
  obtain ⟨hmod, hmodOff⟩ := field_toNat i offOmode (by decide)
  have hw : shareRW.toNat &&& PTE_W ≠ 0 := by decide
  rw [storeWord_eq (hdev ▸ hx) hw, Option.bind_some, storeWord_eq (x := (p, ⟨shareRW, shareRW_valid⟩)) (hmod ▸ hx) hw]
  refine ⟨_, rfl, rfl, ⟨⟨hi, ?_⟩, ?_, ?_⟩, fun q hq => ?_⟩
  · exact Option.isSome_iff_exists.mpr ⟨_, hx⟩
  · rw [loadWord_eq (x := (p, ⟨shareRW, shareRW_valid⟩)) (hdev ▸ hx), hdevOff, hmodOff]
    simp only [Spaces.data_write, Function.update_self]
    rw [u32_splice_disjoint _ _ (by decide), u32_splice_same]
    rfl
  · rw [loadWord_eq (x := (p, ⟨shareRW, shareRW_valid⟩)) (hmod ▸ hx), hdevOff, hmodOff]
    simp only [Spaces.data_write, Function.update_self]
    rw [u32_splice_same, Nat.mod_eq_of_lt hmode]
  · simp only [Spaces.data_write, Function.update_of_ne hq]

theorem HoldsPipe.congr {t : Paging} {mode p : Nat} {r : Rights} (h : HoldsPipe s e i mode)
    (hx : s.maps e (fdPage i) = some (p, r)) (hmaps : t.maps = s.maps) (hdata : t.data p = s.data p) :
    HoldsPipe t e i mode := by
  obtain ⟨hopen, hdev, hmode⟩ := h
  obtain ⟨hpage, -⟩ := field_toNat i offDevId (by decide)
  obtain ⟨hpage', -⟩ := field_toNat i offOmode (by decide)
  refine ⟨⟨hopen.1, ?_⟩, ?_, ?_⟩
  · rw [hmaps]
    exact hopen.2
  · rw [loadWord_eq (hpage ▸ hx)] at hdev
    rw [loadWord_eq (x := (p, r)) (by rw [hmaps, hpage, hx]), hdata]
    exact hdev
  · rw [loadWord_eq (hpage' ▸ hx)] at hmode
    rw [loadWord_eq (x := (p, r)) (by rw [hmaps, hpage', hx]), hdata]
    exact hmode

private theorem setPipe_eq {j : BitVec 32} {p q : Nat} (hi : InRange i) (hj : InRange j)
    (hx : s.maps e (fdPage i) = some (p, ⟨shareRW, shareRW_valid⟩))
    (hy : s.maps e (fdPage j) = some (q, ⟨shareRW, shareRW_valid⟩)) (hpq : p ≠ q) :
    ∃ t, s.setPipe e (INDEX2FD i) (INDEX2FD j) = some (.ok (i, j), t) ∧ t.maps = s.maps ∧
      HoldsPipe t e i O_RDONLY ∧ HoldsPipe t e j O_WRONLY := by
  obtain ⟨u, hu, hmaps, hfirst, hdata⟩ := setFd hi hx (show O_RDONLY < 2 ^ 32 by decide)
  obtain ⟨t, ht, hmaps', hsecond, hdata'⟩ := setFd (s := u) hj (by rw [hmaps, hy])
    (show O_WRONLY < 2 ^ 32 by decide)
  refine ⟨t, ?_, hmaps'.trans hmaps, ?_, hsecond⟩
  · rw [Option.bind_eq_some_iff] at hu ht
    obtain ⟨u₁, hu₁, hu₂⟩ := hu
    obtain ⟨t₁, ht₁, ht₂⟩ := ht
    simp only [Paging.setPipe, hu₁, hu₂, ht₁, ht₂, Option.bind_eq_bind, Option.bind_some, fd2num_of_inRange hi,
      fd2num_of_inRange hj]
  · exact hfirst.congr (by rw [hmaps, hx]) hmaps' (hdata' p hpq)

end Steps

/-- The two smallest descriptors without a page are the two ends of a pipe. -/
structure NewPipe (s t : Paging) (e : Fin NENV) (i j : BitVec 32) : Prop where
  first : FirstFree s e i
  inRange : InRange j
  free : s.maps e (fdPage j) = none
  between : ∀ k : BitVec 32, k ≠ i → k.toNat < j.toNat → (s.maps e (fdPage k)).isSome = true
  order : i.toNat < j.toNat
  readEnd : HoldsPipe t e i O_RDONLY
  writeEnd : HoldsPipe t e j O_WRONLY
  shared : ∃ p, (t.maps e (dataPage i)).map Prod.fst = some p ∧ (t.maps e (dataPage j)).map Prod.fst = some p

def Atomic (s : Paging) (e : Fin NENV) (r : Except Int (BitVec 32 × BitVec 32)) (t : Paging) : Prop :=
  (∀ c, r = .error c → c < 0 ∧ t.maps = s.maps) ∧ ∀ i j, r = .ok (i, j) → NewPipe s t e i j

section Result

variable {short : Nat → Bool} {s t : Paging} {e : Fin NENV} {i j : BitVec 32}

theorem Atomic.error {c : Int} (hc : c < 0) (h : t.maps = s.maps) : Atomic s e (.error c) t :=
  ⟨fun c' he => by cases he; exact ⟨hc, h⟩, fun i j he => by cases he⟩

private theorem withPage_maps (s : Paging) (e : Fin NENV) (n k : Nat) : (withPage s e n).maps e k =
    if k = n then some (s.next, ⟨shareRW, shareRW_valid⟩) else s.maps e k := by
  simp [withPage]

/-- The second descriptor that is found is the second smallest one. -/
theorem FirstFree.second (hi : FirstFree s e i) (h : FirstFree (withPage s e (fdPage i)) e j) :
    i.toNat < j.toNat ∧ s.maps e (fdPage j) = none ∧
      ∀ k : BitVec 32, k ≠ i → k.toNat < j.toNat → (s.maps e (fdPage k)).isSome = true := by
  obtain ⟨hri, hfree, hbelow⟩ := hi
  obtain ⟨hrj, hfree', hbelow'⟩ := h
  have hmaps := withPage_maps s e (fdPage i)
  have hpage : fdPage j ≠ fdPage i := by
    intro he
    rw [hmaps, if_pos he] at hfree'
    cases hfree'
  have hnone : s.maps e (fdPage j) = none := by rwa [hmaps, if_neg hpage] at hfree'
  have hlt : i.toNat < j.toNat := by
    rcases Nat.lt_trichotomy i.toNat j.toNat with hlt | heq | hgt
    · exact hlt
    · exact absurd (congrArg fdPage (BitVec.eq_of_toNat_eq heq.symm)) hpage
    · have hsome := hbelow j hgt
      rw [hnone] at hsome
      cases hsome
  refine ⟨hlt, hnone, fun k hk hkj => ?_⟩
  have hsome := hbelow' k hkj
  have hrk : InRange k := Nat.lt_trans hkj hrj
  rwa [hmaps, if_neg fun he => hk (fdPage_inj hrk hri he)] at hsome

theorem unwind {n : Nat} (h : s.maps e n = none) (ht : t.maps = (withPage s e n).maps) :
    (t.unmap e n).maps = s.maps :=
  (Spaces.unmap_maps_congr ht e n).trans (Spaces.unmap_alloc_maps h _ _)

private theorem unwind_fd (hi : InRange i) (h : s.maps e (fdPage i) = none)
    (ht : t.maps = (withPage s e (fdPage i)).maps) :
    (t.sysPageUnmap e (INDEX2FD i)).2.maps = s.maps := by
  rw [sysPageUnmap_fd hi]
  exact unwind h ht

private theorem unwind_data (hi : InRange i) (h : s.maps e (dataPage i) = none)
    (ht : t.maps = (withPage s e (dataPage i)).maps) :
    (t.sysPageUnmap e (fd2data (INDEX2FD i))).2.maps = s.maps := by
  rw [sysPageUnmap_data hi]
  exact unwind h ht

/-- The state in which all calls have succeeded. -/
def allMapped (s : Paging) (e : Fin NENV) (i j : BitVec 32) : Paging :=
  let t := withPage (withPage (withPage s e (fdPage i)) e (fdPage j)) e (dataPage i)
  ⟨t.share e (dataPage i) e (dataPage j) ⟨shareRW, shareRW_valid⟩, t.calls + 1⟩

private theorem allMapped_data (s : Paging) (e : Fin NENV) (i j : BitVec 32) {n : Nat}
    (hn : n = dataPage i ∨ n = dataPage j) :
    (allMapped s e i j).maps e n = some (s.next + 2, ⟨shareRW, shareRW_valid⟩) := by
  simp only [allMapped, Spaces.maps_share, withPage_maps, true_and, if_pos, Option.map_some]
  split
  · rfl
  · next hj => rw [if_pos (hn.resolve_right hj)]; rfl

private theorem allMapped_fd (s : Paging) (e : Fin NENV) {i j : BitVec 32} (hi : InRange i) (hj : InRange j)
    (hij : i ≠ j) :
    (allMapped s e i j).maps e (fdPage i) = some (s.next, ⟨shareRW, shareRW_valid⟩) ∧
      (allMapped s e i j).maps e (fdPage j) = some (s.next + 1, ⟨shareRW, shareRW_valid⟩) := by
  have hne : fdPage i ≠ fdPage j := fun he => hij (fdPage_inj hi hj he)
  simp only [allMapped, Spaces.maps_share, withPage_maps]
  simp [fdPage_ne_dataPage, hi, hj, hne, withPage]

private theorem pipe_made (hi : FirstFree s e i) (hj : FirstFree (withPage s e (fdPage i)) e j) :
    ∃ r t, (allMapped s e i j).setPipe e (INDEX2FD i) (INDEX2FD j) = some (r, t) ∧ Atomic s e r t := by
  obtain ⟨hlt, hfree, hbetween⟩ := hi.second hj
  have hij : i ≠ j := fun he => absurd hlt (by rw [he]; exact lt_irrefl _)
  obtain ⟨hfd, hfd'⟩ := allMapped_fd s e hi.1 hj.1 hij
  obtain ⟨t, ht, hmaps, hread, hwrite⟩ := setPipe_eq hi.1 hj.1 hfd hfd' (by omega)
  refine ⟨.ok (i, j), t, ht, (fun c he => by cases he), fun i' j' he => ?_⟩
  obtain ⟨rfl, rfl⟩ := Prod.mk.inj (Except.ok.inj he)
  refine ⟨hi, hj.1, hfree, hbetween, hlt, hread, hwrite, s.next + 2, ?_, ?_⟩
  · rw [hmaps, allMapped_data s e i j (.inl rfl)]
    rfl
  · rw [hmaps, allMapped_data s e i j (.inr rfl)]
    rfl

end Result

theorem pipe_settles (short : Nat → Bool) (s : Paging) (e : Fin NENV)
    (hclosed : ∀ i, InRange i → s.maps e (fdPage i) = none → s.maps e (dataPage i) = none) :
    ∃ r t, s.pipe short e = some (r, t) ∧ Atomic s e r t := by
  unfold Paging.pipe
  rcases fdAlloc_cases s e with hfd | ⟨i, hfd, hi⟩
  · rw [hfd]
    exact ⟨_, _, rfl, .error (by decide) rfl⟩
  rw [hfd]
  dsimp only
  rw [alloc_fd hi.1]
  by_cases h0 : short s.calls = true
  · rw [if_pos h0]
    exact ⟨_, _, rfl, .error E_NO_MEM_neg rfl⟩
  rw [if_neg h0]
  dsimp only
  rw [if_neg (by decide)]
  -- the page of the first descriptor is mapped
  rcases fdAlloc_cases (withPage s e (fdPage i)) e with hfd' | ⟨j, hfd', hj⟩
  · rw [hfd']
    exact ⟨_, _, rfl, .error (by decide) (unwind_fd hi.1 hi.2.1 rfl)⟩
  rw [hfd']
  dsimp only
  rw [alloc_fd hj.1]
  split
  · exact ⟨_, _, rfl, .error E_NO_MEM_neg (unwind_fd hi.1 hi.2.1 rfl)⟩
  dsimp only
  rw [if_neg (by decide)]
  -- and that of the second one
  have hdata : s.maps e (dataPage i) = none := hclosed i hi.1 hi.2.1
  rw [alloc_data hi.1]
  split
  · exact ⟨_, _, rfl, .error E_NO_MEM_neg (unwind_fd hi.1 hi.2.1 (unwind_fd hj.1 hj.2.1 rfl))⟩
  dsimp only
  rw [if_neg (by decide)]
  -- and the data page of the first one
  have hdata' : (withPage (withPage s e (fdPage i)) e (fdPage j)).maps e (dataPage i) = none := by
    rw [withPage_maps, if_neg (fdPage_ne_dataPage hj.1 hi.1).symm, withPage_maps,
      if_neg (fdPage_ne_dataPage hi.1 hi.1).symm, hdata]
  rw [map_data hi.1 hj.1 (by rw [withPage_maps, if_pos rfl]; rfl)]
  dsimp only [Option.bind_eq_bind, Option.bind_some]
  split
  · exact ⟨_, _, rfl, .error E_NO_MEM_neg
      (unwind_fd hi.1 hi.2.1 (unwind_fd hj.1 hj.2.1 (unwind_data hi.1 hdata' rfl)))⟩
  dsimp only
  rw [if_neg (by decide)]
  exact pipe_made hi hj

/-- `pipe` makes a pipe or changes nothing, whichever of its calls fail. -/
theorem pipe_atomic (short : Nat → Bool) (s : Paging) (e : Fin NENV)
    (hclosed : ∀ i, InRange i → s.maps e (fdPage i) = none → s.maps e (dataPage i) = none) :
    ∃ r t, s.pipe short e = some (r, t) ∧ Atomic s e r t :=
  pipe_settles short s e hclosed

/-- A program without descriptors gets 0 and 1. -/
def freshProgram : Paging where
  maps _ _ := none
  data _ _ := 0
  next := 0
  taken _ _ _ h := by cases h
  calls := 0

theorem pipe_atomic_fresh : ∃ r t, freshProgram.pipe (fun n => n = 3) 1 = some (r, t) ∧ Atomic freshProgram 1 r t :=
  pipe_atomic (fun n => n = 3) freshProgram 1 fun _ _ _ => rfl

end DamnOS.User
