import DamnOS.User.FileReads

/-!
# Loading a segment

`map_segment` moves the segment back to a page boundary and maps it page by page: pages with bytes of the file
are filled at `UTEMP` of the parent, the others are blank.
-/

namespace DamnOS.User

open DamnOS.Framework DamnOS.Kernel

/-- The arguments of `map_segment`. -/
structure ProgSegment where
  va : BitVec 32
  memsz : BitVec 32
  fd : BitVec 32
  filesz : BitVec 32
  fileoffset : BitVec 32
  perm : BitVec 32

def PGOFF (la : BitVec 32) : BitVec 32 := BitVec.ofNat 32 (la.toNat % PGSIZE)

/-- The shift by `i = PGOFF(va)`; with `i == 0` it changes nothing. -/
def ProgSegment.realign (g : ProgSegment) : ProgSegment :=
  let i := PGOFF g.va
  { g with va := g.va - i, memsz := g.memsz + i, filesz := g.filesz + i, fileoffset := g.fileoffset - i }

def utemp : BitVec 32 := BitVec.ofNat 32 UTEMP

def userRW : BitVec 32 := BitVec.ofNat 32 (PTE_P ||| PTE_U ||| PTE_W)

namespace Loader

/-- The program after a call that changes pages only. -/
def after (s : Loader) (c : Int × Paging) : Int × Loader := (c.1, { s with toPaging := c.2 })

/-- A page with `n` bytes of the file from `offset` on.  `panic` has no value. -/
def filePage (short : Nat → Bool) (f : ProgramFile) (s : Loader) (parent child : Fin NENV)
    (va fd offset : BitVec 32) (n : Nat) (perm : BitVec 32) : Option (Int × Loader) :=
  let (r, s) := s.after (s.sysPageAlloc short parent utemp userRW)
  if r < 0 then some (r, s)
  else do
    let (r, s) ← (s.seek parent fd offset).map s.after
    if r < 0 then some (r, s)
    else do
      let (r, s) ← s.readn f parent fd (toPage parent utemp) n
      if r < 0 then some (r, s)
      else do
        let (r, s) ← (s.sysPageMap short parent utemp child va perm).map s.after
        if r < 0 then none else some (0, (s.after (s.sysPageUnmap parent utemp)).2)

def segmentPage (short : Nat → Bool) (f : ProgramFile) (g : ProgSegment) (s : Loader) (parent child : Fin NENV)
    (i : BitVec 32) : Option (Int × Loader) :=
  if g.filesz ≤ i then some (s.after (s.sysPageAlloc short child (g.va + i) g.perm))
  else s.filePage short f parent child (g.va + i) g.fd (g.fileoffset + i) (min PGSIZE (g.filesz - i).toNat) g.perm

def mapPages (short : Nat → Bool) (f : ProgramFile) (g : ProgSegment) (parent child : Fin NENV) :
    Nat → BitVec 32 → Loader → Option (Int × Loader)
  | 0, _, _ => none
  | fuel + 1, i, s =>
    if i < g.memsz then do
      let (r, s) ← s.segmentPage short f g parent child i
      if r < 0 then some (r, s) else mapPages short f g parent child fuel (i + BitVec.ofNat 32 PGSIZE) s
    else some (0, s)

/-- `map_segment`.  After `2^20` rounds `i` is 0 again. -/
def mapSegment (short : Nat → Bool) (f : ProgramFile) (g : ProgSegment) (s : Loader) (parent child : Fin NENV) :
    Option (Int × Loader) :=
  mapPages short f g.realign parent child (2 ^ 20 + 1) 0 s

end Loader

/-- Byte `x` of a segment: from the file, or 0. -/
def ProgSegment.byteAt (g : ProgSegment) (f : ProgramFile) (x : Nat) : UInt8 :=
  if x < g.filesz.toNat ∧ g.fileoffset.toInt + x < f.size then f.byte (g.fileoffset.toInt + x) else 0

/-- The next free page was filled and mapped at page number `n` of the child.  Only the page of the descriptor
has changed besides. -/
structure Built (s t : Loader) (parent child : Fin NENV) (fd : BitVec 32) (n : Nat) (perm : BitVec 32)
    (content : Nat → UInt8) : Prop where
  entry : ∃ h, t.maps child n = some (s.next, ⟨perm, h⟩)
  content : ∀ b < PGSIZE, t.data s.next b = content b
  inChild : ∀ m, m ≠ n → t.maps child m = s.maps child m
  inParent : ∀ m, m ≠ PGNUM utemp.toNat → t.maps parent m = s.maps parent m
  next : t.next = s.next + 1
  kept : ∀ j < s.next, (InRange fd → ∀ x, s.maps parent (fdPage fd) = some x → j ≠ x.1) → t.data j = s.data j

section Pages

variable {short : Nat → Bool} {f : ProgramFile} {s t u : Loader} {parent child e : Fin NENV}
  {va fd offset perm : BitVec 32} {n : Nat} {r : Int}

private theorem sysPageAlloc_inv {s t : Paging} (h : s.sysPageAlloc short e va perm = (r, t)) (hr : 0 ≤ r) :
    ∃ hperm, t = ⟨s.alloc e (PGNUM va.toNat) ⟨perm, hperm⟩ fun _ => 0, s.calls + 1⟩ := by
  rw [Paging.sysPageAlloc] at h
  split at h
  · next hargs =>
    split at h
    · cases h
      exact absurd E_NO_MEM_neg (not_lt.mpr hr)
    · cases h
      exact ⟨hargs.2, rfl⟩
  · cases h
    exact absurd E_INVAL_neg (not_lt.mpr hr)

private theorem sysPageMap_inv {s t : Paging} {src dst : Fin NENV} {srcva dstva : BitVec 32}
    (h : s.sysPageMap short src srcva dst dstva perm = some (r, t)) (hr : 0 ≤ r) :
    ∃ hperm, t = ⟨s.share src (PGNUM srcva.toNat) dst (PGNUM dstva.toNat) ⟨perm, hperm⟩, s.calls + 1⟩ := by
  rw [Paging.sysPageMap] at h
  split at h
  · next hargs =>
    split at h
    · cases h
    · split at h
      · cases h
        exact absurd E_NO_MEM_neg (not_lt.mpr hr)
      · cases h
        exact ⟨hargs.2, rfl⟩
  · cases h
    exact absurd E_INVAL_neg (not_lt.mpr hr)

private theorem after_inv {c : Int × Paging} (h : s.after c = (r, t)) :
    ∃ p, c = (r, p) ∧ t = { s with toPaging := p } := by
  cases h
  exact ⟨c.2, rfl, rfl⟩

private theorem blank_built (hne : child ≠ parent) (fd : BitVec 32)
    (h : s.after (s.sysPageAlloc short child va perm) = (r, t)) (hr : 0 ≤ r) :
    Built s t parent child fd (PGNUM va.toNat) perm fun _ => 0 := by
  obtain ⟨p, hcall, rfl⟩ := after_inv h
  obtain ⟨hperm, rfl⟩ := sysPageAlloc_inv hcall hr
  refine ⟨⟨hperm, ?_⟩, fun b _ => ?_, fun m hm => ?_, fun m _ => ?_, rfl, fun j hj _ => ?_⟩
  · simp
  · simp
  · simp [hm]
  · simp [hne.symm]
  · simp [hj.ne]

theorem fdPage_ne_utemp (h : InRange fd) : fdPage fd ≠ PGNUM utemp.toNat := by
  have hutemp : PGNUM utemp.toNat = 0x400 := by decide
  rw [fdPage_of_inRange h, hutemp]
  omega

private theorem filePage_built (hne : child ≠ parent) (h0 : 0 ≤ offset.toInt) (hend : offset.toInt + n < 2 ^ 31)
    (hn : n ≤ PGSIZE) (h : s.filePage short f parent child va fd offset n perm = some (r, t)) (hr : 0 ≤ r) :
    Built s t parent child fd (PGNUM va.toNat) perm fun b =>
      if b < n ∧ offset.toInt + b < f.size then f.byte (offset.toInt + b) else 0 := by
  have hutemp : pageAddr utemp.toNat = true := by decide
  rw [Loader.filePage] at h
  generalize halloc : s.after (s.sysPageAlloc short parent utemp userRW) = a at h
  obtain ⟨r₁, s₁⟩ := a
  dsimp only at h
  split at h
  · cases h
    omega
  next hr₁ =>
  obtain ⟨p₁, hcall₁, rfl⟩ := after_inv halloc
  obtain ⟨hrights, rfl⟩ := sysPageAlloc_inv hcall₁ (not_lt.mp hr₁)
  obtain ⟨⟨r₂, s₂⟩, hseek, h⟩ := Option.bind_eq_some_iff.mp h
  dsimp only at h
  split at h
  · cases h
    omega
  next hr₂ =>
  obtain ⟨c₂, hcall₂, hafter₂⟩ := Option.map_eq_some_iff.mp hseek
  obtain ⟨p₂, rfl, rfl⟩ := after_inv hafter₂
  obtain ⟨⟨r₃, s₃⟩, hread, h⟩ := Option.bind_eq_some_iff.mp h
  dsimp only at h
  split at h
  · cases h
    omega
  next hr₃ =>
  obtain ⟨⟨r₄, s₄⟩, hmap, h⟩ := Option.bind_eq_some_iff.mp h
  dsimp only at h
  split at h
  · cases h
  next hr₄ =>
  obtain ⟨c₄, hcall₄, hafter₄⟩ := Option.map_eq_some_iff.mp hmap
  obtain ⟨p₄, rfl, rfl⟩ := after_inv hafter₄
  obtain ⟨hperm, rfl⟩ := sysPageMap_inv hcall₄ (not_lt.mp hr₄)
  rw [sysPageUnmap_eq hutemp] at h
  cases h
  -- the page of the descriptor was there before
  have hkeep (x : Nat × Rights) (hin : InRange fd)
      (hx : (s.alloc parent (PGNUM utemp.toNat) ⟨userRW, hrights⟩ fun _ => 0).maps parent (fdPage fd) = some x) :
      s.maps parent (fdPage fd) = some x := by
    simpa [fdPage_ne_utemp hin] using hx
  have hlt (x : Nat × Rights) (hin : InRange fd)
      (hx : (s.alloc parent (PGNUM utemp.toNat) ⟨userRW, hrights⟩ fun _ => 0).maps parent (fdPage fd) = some x) :
      s.next ≠ x.1 := (s.taken _ _ _ (hkeep x hin hx)).ne'
  obtain ⟨x, hopen, hx, hfill⟩ := seek_readn_page (y := (s.next, ⟨userRW, hrights⟩)) (by simp)
    hlt (show utemp.toNat % PGSIZE = 0 by decide) h0 hend hn hcall₂ (not_lt.mp hr₂) hread (not_lt.mp hr₃)
  have hxs := hkeep x hopen.1 hx
  refine ⟨⟨hperm, ?_⟩, fun b hb => ?_, fun m hm => ?_, fun m hm => ?_, hfill.next, fun j hj hfd => ?_⟩
  · simp [Loader.after, hne, hfill.maps]
  · simp only [Loader.after, Spaces.data_unmap, Spaces.data_share]
    rw [hfill.view]
    simp only [Spaces.data_alloc, Function.update_self]
    by_cases hb' : b < f.count n offset.toInt
    · rw [splice_inside _ _ (by omega), if_pos ((lt_count_iff f n _ b).mp hb'), Nat.sub_zero]
    · rw [splice_outside _ _ (by omega), if_neg fun h => hb' ((lt_count_iff f n _ b).mpr h)]
  · simp [Loader.after, hne, hfill.maps, hm]
  · simp [Loader.after, hne.symm, hfill.maps, hm]
  · simp only [Loader.after, Spaces.data_unmap, Spaces.data_share]
    rw [hfill.others j (hfd hopen.1 x hxs) hj.ne]
    simp [hj.ne]

end Pages

/-- What the loop needs of the segment. -/
structure Aligned (g : ProgSegment) : Prop where
  va : g.va.toNat % PGSIZE = 0
  top : g.va.toNat + g.memsz.toNat < 2 ^ 32
  mem : g.memsz.toNat < 2 ^ 31
  offset : 0 ≤ g.fileoffset.toInt
  file : g.fileoffset.toInt + g.filesz.toNat < 2 ^ 31

/-- The first `k` pages of the segment are mapped in the child, all of them taken since `s`. -/
structure Loaded (f : ProgramFile) (g : ProgSegment) (s t : Loader) (parent child : Fin NENV) (k : Nat) : Prop where
  pages : ∀ j < k, ∃ p h, t.maps child (PGNUM g.va.toNat + j) = some (p, ⟨g.perm, h⟩) ∧ s.next ≤ p ∧
    ∀ b < PGSIZE, t.data p b = g.byteAt f (j * PGSIZE + b)
  inParent : ∀ m, m ≠ PGNUM utemp.toNat → t.maps parent m = s.maps parent m
  next : s.next ≤ t.next

section Run

variable {short : Nat → Bool} {f : ProgramFile} {g : ProgSegment} {s t u : Loader} {parent child : Fin NENV}
  {i : BitVec 32} {k fuel : Nat} {r : Int}

private theorem segmentPage_built (hne : child ≠ parent) (hg : Aligned g) (hi : i.toNat = k * PGSIZE)
    (hlt : i.toNat < g.memsz.toNat) (h : s.segmentPage short f g parent child i = some (r, t)) (hr : 0 ≤ r) :
    Built s t parent child g.fd (PGNUM g.va.toNat + k) g.perm fun b => g.byteAt f (k * PGSIZE + b) := by
  obtain ⟨hva, htop, hmem, h0, hfile⟩ := hg
  have hpage : PGNUM (g.va + i).toNat = PGNUM g.va.toNat + k := by
    have hadd : (g.va + i).toNat = g.va.toNat + i.toNat := by bv_omega
    rw [hadd, PGNUM_eq, PGNUM_eq]
    simp only [PGSIZE] at hva hi
    omega
  rw [Loader.segmentPage] at h
  split at h
  · next hblank =>
    have hle : g.filesz.toNat ≤ i.toNat := hblank
    have hbuilt := blank_built hne g.fd (Option.some.inj h) hr
    rw [hpage] at hbuilt
    refine { hbuilt with content := fun b hb => (hbuilt.content b hb).trans ?_ }
    rw [ProgSegment.byteAt, if_neg (by omega)]
  · next hread =>
    have hle : i.toNat < g.filesz.toNat := not_le.mp hread
    have hoff : (g.fileoffset + i).toInt = g.fileoffset.toInt + i.toNat := by
      rw [BitVec.toInt_add, BitVec.toInt_eq_toNat_of_lt (x := i) (by omega)]
      simp only [Int.bmod]
      omega
    have hsub : (g.filesz - i).toNat = g.filesz.toNat - i.toNat := by bv_omega
    have hbuilt := filePage_built hne (by omega) (by omega) (min_le_left _ _) h hr
    rw [hpage, hoff, hsub] at hbuilt
    refine { hbuilt with content := fun b hb => (hbuilt.content b hb).trans ?_ }
    have hpos : g.fileoffset.toInt + i.toNat + b = g.fileoffset.toInt + (k * PGSIZE + b : Nat) := by omega
    rw [ProgSegment.byteAt, hpos]
    exact if_congr (and_congr (by omega) Iff.rfl) rfl rfl

/-- A round keeps the pages that were built before: the page of the descriptor is none of them. -/
theorem Loaded.step (h : Loaded f g s t parent child k)
    (hb : Built t u parent child g.fd (PGNUM g.va.toNat + k) g.perm fun b => g.byteAt f (k * PGSIZE + b)) :
    Loaded f g s u parent child (k + 1) := by
  have hnext := h.next
  have hbnext := hb.next
  refine ⟨fun j hj => ?_, fun m hm => (hb.inParent m hm).trans (h.inParent m hm), by omega⟩
  by_cases hjk : j = k
  · subst hjk
    obtain ⟨hperm, hentry⟩ := hb.entry
    exact ⟨_, hperm, hentry, hnext, hb.content⟩
  · obtain ⟨p, hperm, hentry, hp, hcontent⟩ := h.pages j (by omega)
    have hlt : p < t.next := t.taken _ _ _ hentry
    have hkept : u.data p = t.data p := by
      apply hb.kept p hlt
      intro hin x hx
      rw [h.inParent _ (fdPage_ne_utemp hin)] at hx
      have hxlt := s.taken _ _ _ hx
      omega
    refine ⟨p, hperm, ?_, hp, fun b hbl => ?_⟩
    · rw [hb.inChild _ (by omega)]
      exact hentry
    · rw [hkept]
      exact hcontent b hbl

theorem Loaded.loop (hne : child ≠ parent) (hg : Aligned g) (h : Loaded f g s t parent child k)
    (hi : i.toNat = k * PGSIZE) (hloop : Loader.mapPages short f g parent child fuel i t = some (0, u)) :
    ∃ n, g.memsz.toNat ≤ n * PGSIZE ∧ Loaded f g s u parent child n := by
  induction fuel generalizing k i t with
  | zero => cases hloop
  | succ fuel ih =>
    rw [Loader.mapPages] at hloop
    split at hloop
    · next hlt =>
      have hlt' : i.toNat < g.memsz.toNat := hlt
      obtain ⟨⟨r, v⟩, hpage, hloop⟩ := Option.bind_eq_some_iff.mp hloop
      dsimp only at hloop
      split at hloop
      · next hneg =>
        cases hloop
        omega
      · next hr =>
        have hbuilt := segmentPage_built hne hg hi hlt' hpage (not_lt.mp hr)
        have hmem := hg.mem
        have hnext : (i + BitVec.ofNat 32 PGSIZE).toNat = (k + 1) * PGSIZE := by
          rw [PGSIZE] at hi ⊢
          bv_omega
        exact ih (h.step hbuilt) hnext hloop
    · next hge =>
      cases hloop
      have hge' : g.memsz.toNat ≤ i.toNat := not_lt.mp hge
      exact ⟨k, hi ▸ hge', h⟩

end Run

/-- What the linker guarantees of a segment, and that nothing overflows. -/
structure ProgSegment.Linked (g : ProgSegment) : Prop where
  offset : (g.va.toNat % PGSIZE : Nat) ≤ g.fileoffset.toInt
  top : g.va.toNat + g.memsz.toNat < 2 ^ 32
  mem : g.memsz.toNat + PGSIZE < 2 ^ 31
  file : g.fileoffset.toInt + g.filesz.toNat < 2 ^ 31

section Shift

variable {g : ProgSegment}

private theorem realign_eq (h : g.Linked) : g.realign.va.toNat = g.va.toNat - g.va.toNat % PGSIZE ∧
    g.realign.memsz.toNat = g.memsz.toNat + g.va.toNat % PGSIZE ∧
    g.realign.filesz.toNat = g.filesz.toNat + g.va.toNat % PGSIZE ∧
    g.realign.fileoffset.toInt = g.fileoffset.toInt - (g.va.toNat % PGSIZE : Nat) := by
  obtain ⟨hoff, htop, hmem, hfile⟩ := h
  simp only [PGSIZE] at *
  have hlt : g.va.toNat % 4096 < 4096 := Nat.mod_lt _ (by decide)
  have hle := Nat.mod_le g.va.toNat 4096
  have hi : (PGOFF g.va).toNat = g.va.toNat % 4096 := by
    rw [PGOFF, PGSIZE, BitVec.toNat_ofNat]
    omega
  refine ⟨?_, ?_, ?_, ?_⟩
  · change (g.va - PGOFF g.va).toNat = _
    bv_omega
  · change (g.memsz + PGOFF g.va).toNat = _
    bv_omega
  · change (g.filesz + PGOFF g.va).toNat = _
    bv_omega
  · change (g.fileoffset - PGOFF g.va).toInt = _
    rw [BitVec.toInt_sub, BitVec.toInt_eq_toNat_of_lt (x := PGOFF g.va) (by omega), hi]
    simp only [Int.bmod]
    omega

private theorem realign_aligned (h : g.Linked) : Aligned g.realign := by
  obtain ⟨hva, hmem, hfilesz, hoffset⟩ := realign_eq h
  obtain ⟨hoff, htop, hsize, hfile⟩ := h
  simp only [PGSIZE] at *
  refine ⟨?_, ?_, ?_, ?_, ?_⟩
  · rw [hva, PGSIZE]
    omega
  all_goals omega

private theorem realign_byteAt (h : g.Linked) (f : ProgramFile) (x : Nat) :
    g.realign.byteAt f (x + g.va.toNat % PGSIZE) = g.byteAt f x := by
  obtain ⟨-, -, hfilesz, hoffset⟩ := realign_eq h
  have hpos : g.realign.fileoffset.toInt + (x + g.va.toNat % PGSIZE : Nat) = g.fileoffset.toInt + x := by omega
  rw [ProgSegment.byteAt, ProgSegment.byteAt, hpos]
  exact if_congr (and_congr (by omega) Iff.rfl) rfl rfl

end Shift

/-- When `map_segment` returns 0, the child has the segment: each byte is in a page that is mapped with the rights
of the segment, and comes from the file as far as segment and file go. -/
theorem map_segment_loads (short : Nat → Bool) (f : ProgramFile) (g : ProgSegment) (s t : Loader)
    (parent child : Fin NENV) (hne : child ≠ parent) (hg : g.Linked)
    (h : s.mapSegment short f g parent child = some (0, t)) :
    ∀ x < g.memsz.toNat, ∃ p hperm, t.maps child (PGNUM (g.va.toNat + x)) = some (p, ⟨g.perm, hperm⟩) ∧
      t.data p ((g.va.toNat + x) % PGSIZE) = g.byteAt f x := by
  intro x hx
  obtain ⟨hva, hmem, -, -⟩ := realign_eq hg
  have hstart : Loaded f g.realign s s parent child 0 :=
    ⟨fun j hj => absurd hj (Nat.not_lt_zero j), fun _ _ => rfl, le_rfl⟩
  obtain ⟨n, hn, hload⟩ := hstart.loop hne (realign_aligned hg) (by simp) h
  have hbyte := realign_byteAt hg f x
  have hlt : g.va.toNat % PGSIZE < PGSIZE := Nat.mod_lt _ (by decide)
  -- byte `x` is in round `y / PGSIZE` at `y % PGSIZE`
  generalize hy : x + g.va.toNat % PGSIZE = y at *
  have hround : y / PGSIZE < n := by
    apply Nat.div_lt_of_lt_mul
    rw [Nat.mul_comm]
    omega
  obtain ⟨p, hperm, hentry, -, hcontent⟩ := hload.pages _ hround
  have hpage : PGNUM (g.va.toNat + x) = PGNUM g.realign.va.toNat + y / PGSIZE := by
    rw [PGNUM_eq, PGNUM_eq, hva]
    simp only [PGSIZE] at *
    omega
  have hmod : (g.va.toNat + x) % PGSIZE = y % PGSIZE := by
    simp only [PGSIZE] at *
    omega
  refine ⟨p, hperm, ?_, ?_⟩
  · rw [hpage]
    exact hentry
  · rw [hmod, hcontent _ (Nat.mod_lt _ (by decide)), Nat.mul_comm, Nat.div_add_mod]
    exact hbyte

/-- A program that has a file of three bytes open as descriptor 0. -/
def loadingProgram : Loader where
  maps e n := if e = 0 ∧ n = 0x20000 then some (7, ⟨userRW, by decide⟩) else none
  data _ k := if k = 0 then 102 else 0
  next := 8
  taken e n x h := by
    split at h
    · obtain rfl := Option.some.inj h
      decide
    · cases h
  calls := 0
  requests := 0
  elfBuf _ := 0

def threeBytes : ProgramFile where
  size := 3
  byte p := UInt8.ofNat (65 + p.toNat)
  fails _ := none

/-- Two pages: the first with the last byte of the file, the second blank. -/
def sampleSegment : ProgSegment := ⟨0x801002, 5000, 0, 3, 2, userRW⟩

theorem map_segment_loads_sample : ∃ t, loadingProgram.mapSegment (fun _ => false) threeBytes sampleSegment 0 1 =
    some (0, t) ∧ ∀ x < 5000, ∃ p hperm, t.maps 1 (PGNUM (0x801002 + x)) = some (p, ⟨userRW, hperm⟩) ∧
      t.data p ((0x801002 + x) % PGSIZE) = sampleSegment.byteAt threeBytes x := by
  have hrun : (loadingProgram.mapSegment (fun _ => false) threeBytes sampleSegment 0 1).map Prod.fst = some 0 := by
    decide +kernel
  obtain ⟨⟨r, t⟩, hsome, hr⟩ := Option.map_eq_some_iff.mp hrun
  cases hr
  exact ⟨t, hsome, map_segment_loads _ _ _ _ _ _ _ (by decide) ⟨by decide, by decide, by decide, by decide⟩ hsome⟩

end DamnOS.User
