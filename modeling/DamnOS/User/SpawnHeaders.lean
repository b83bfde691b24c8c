import DamnOS.User.SpawnCleanup

/-!
# The program headers that `spawn` looks at

`spawn` takes the place and the number of the headers from the file.  Nothing compares them with the size of
`elf_buf`.
-/

namespace DamnOS.User

open DamnOS.Framework DamnOS.Kernel
open DamnOS.Programs (MAXFD O_RDONLY)
open DamnOS.FileSystem (MAXPATHLEN)

def ELF_BUF : Nat := 512

def PROGHDR : Nat := 32

/-- The distances of the headers from the start of `elf_buf`. -/
def headerPlaces (buf : Nat → UInt8) : List Nat :=
  (List.range (u16 buf 44)).map fun i => (u32 buf 28 + PROGHDR * i) % 2 ^ 32

private theorem progHeaders_eq (buf : Nat → UInt8) : progHeaders buf = (headerPlaces buf).map (progHeader buf) := by
  simp [progHeaders, headerPlaces, PROGHDR]

/-- All headers of the file are in its first 512 bytes, which `spawn` reads. -/
def HeadersFit (f : ProgramFile) : Prop :=
  u16 (fun i : Nat => f.byte i) 44 = 0 ∨
    u32 (fun i : Nat => f.byte i) 28 + PROGHDR * u16 (fun i : Nat => f.byte i) 44 ≤ ELF_BUF

instance (f : ProgramFile) : Decidable (HeadersFit f) := inferInstanceAs (Decidable (_ ∨ _))

namespace Loader

/-- The places that the loop over the headers looks at, up to the first segment that cannot be mapped. -/
def headersRead (short : Nat → Bool) (f : ProgramFile) (fd : BitVec 32) (parent child : Fin NENV)
    (buf : Nat → UInt8) : List Nat → Loader → List Nat
  | [], _ => []
  | d :: ds, s =>
    if (progHeader buf d).type ≠ ELF_PROG_LOAD then d :: headersRead short f fd parent child buf ds s
    else
      match s.mapSegment short f ((progHeader buf d).segment fd) parent child with
      | none => [d]
      | some (r, s) => if r < 0 then [d] else d :: headersRead short f fd parent child buf ds s

end Loader

namespace Spawner

/-- The headers that are looked at once the child is there. -/
def stackHeaders (short : Nat → Bool) (s : Spawner) (f : ProgramFile) (fd : BitVec 32) (argv : List CString)
    (child : Fin NENV) : List Nat :=
  (s.initStack short s.curenv child argv).elim [] fun c =>
    match c.1 with
    | .error _ => []
    | .ok _ => c.2.headersRead short f fd s.curenv child c.2.elfBuf (headerPlaces c.2.elfBuf)

def childHeaders (short : Nat → Bool) (s : Spawner) (f : ProgramFile) (fd : BitVec 32) (argv : List CString) :
    List Nat :=
  match s.sysExofork short with
  | (.error _, _) => []
  | (.ok child, s) => s.stackHeaders short f fd argv child

def openedHeaders (short : Nat → Bool) (s : Spawner) (f : ProgramFile) (fd : BitVec 32) (argv : List CString) :
    List Nat :=
  match s.readn f s.curenv fd Loader.toElfBuf ELF_BUF with
  | none => []
  | some (r, l) =>
    if r ≠ ELF_BUF ∨ u32 l.elfBuf 0 ≠ ELF_MAGIC then [] else childHeaders short { s with toLoader := l } f fd argv

/-- The places at which `spawn` looks for a header. -/
def headersRead (short : Nat → Bool) (files : CString → Except Refusal ProgramFile) (flushed : Int) (s : Spawner)
    (prog : CString) (argv : List CString) : List Nat :=
  match s.openFile files flushed s.curenv prog O_RDONLY with
  | some (.ok (fd, f), l) => openedHeaders short { s with toLoader := l } f fd argv
  | _ => []

end Spawner

section Loop

variable {short : Nat → Bool} {f : ProgramFile} {fd : BitVec 32} {parent child : Fin NENV} {buf : Nat → UInt8}
  {ds : List Nat} {s t : Loader} {r : Int}

private theorem headersRead_initial (short : Nat → Bool) (f : ProgramFile) (fd : BitVec 32) (parent child : Fin NENV)
    (buf : Nat → UInt8) (ds : List Nat) (s : Loader) :
    s.headersRead short f fd parent child buf ds <+: ds := by
  induction ds generalizing s with
  | nil => exact List.nil_prefix
  | cons d ds ih =>
    have hone : [d] <+: d :: ds := ⟨ds, rfl⟩
    rw [Loader.headersRead]
    split
    · exact (List.prefix_cons_inj d).mpr (ih s)
    · split
      · exact hone
      · split
        · exact hone
        · exact (List.prefix_cons_inj d).mpr (ih _)

private theorem headersRead_all
    (h : Loader.mapSegments short f fd parent child (ds.map (progHeader buf)) s = some (r, t)) (hr : 0 ≤ r) : s.headersRead short f fd parent child buf ds = ds := by
  induction ds generalizing s with
  | nil => rfl
  | cons d ds ih =>
    rw [List.map_cons, Loader.mapSegments] at h
    rw [Loader.headersRead]
    split at h
    · next htype => rw [if_pos htype, ih h]
    · next htype =>
      obtain ⟨⟨r', v⟩, hsegment, h⟩ := Option.bind_eq_some_iff.mp h
      rw [if_neg htype, hsegment]
      dsimp only at h ⊢
      split at h
      · next hneg =>
        cases h
        omega
      · next hpos => rw [if_neg hpos, ih h]

private theorem headerPlaces_inside_iff (buf : Nat → UInt8) : (∀ d ∈ headerPlaces buf, d + PROGHDR ≤ ELF_BUF) ↔
    u16 buf 44 = 0 ∨ u32 buf 28 + PROGHDR * u16 buf 44 ≤ ELF_BUF := by
  have hoff := u32_lt buf 28
  have hnum := u16_lt buf 44
  simp only [headerPlaces, List.forall_mem_map, List.mem_range, PROGHDR, ELF_BUF]
  constructor
  · intro h
    rcases Nat.eq_zero_or_pos (u16 buf 44) with h0 | hpos
    · exact .inl h0
    · -- the first place does not wrap around, and so the last does not either
      have hfirst := h 0 hpos
      have hlast := h (u16 buf 44 - 1) (by omega)
      rw [Nat.mod_eq_of_lt (by omega)] at hfirst
      rw [Nat.mod_eq_of_lt (by omega)] at hlast
      exact .inr (by omega)
  · rintro (h | h) i hi
    · omega
    · have hmod := Nat.mod_le (u32 buf 28 + 32 * i) (2 ^ 32)
      omega

end Loop

/-- `elf_buf` with the first 512 bytes of the file. -/
def headerBuf (s : Loader) (f : ProgramFile) : Nat → UInt8 := splice s.elfBuf 0 ELF_BUF fun k => f.byte k

section Buffer

variable {short : Nat → Bool} {f : ProgramFile} {fd : BitVec 32} {e parent child : Fin NENV} {s t : Loader}
  {x : Nat × Rights} {argv : List CString} {r : Except Int (BitVec 32)}

private theorem headersFit_iff (s : Loader) (f : ProgramFile) :
    (∀ d ∈ headerPlaces (headerBuf s f), d + PROGHDR ≤ ELF_BUF) ↔ HeadersFit f := by
  have hbyte (k : Nat) (hk : k < 512) : headerBuf s f k = f.byte k :=
    splice_inside _ _ ⟨Nat.zero_le k, by simpa [ELF_BUF]⟩
  have hoff : u32 (headerBuf s f) 28 = u32 (fun i : Nat => f.byte i) 28 := u32_congr fun i hi => hbyte _ (by omega)
  have hnum : u16 (headerBuf s f) 44 = u16 (fun i : Nat => f.byte i) 44 :=
    u16_congr (hbyte _ (by decide)) (hbyte _ (by decide))
  rw [headerPlaces_inside_iff, hoff, hnum]
  rfl

theorem FreshFd.header (h : FreshFd s.toPaging e fd x)
    (hrun : s.readn f e fd Loader.toElfBuf ELF_BUF = some ((ELF_BUF : Int), t)) : t.elfBuf = headerBuf s f := by
  have hzero : (s.offset x.1).toInt = 0 := congrArg BitVec.toInt h.offset
  obtain ⟨hcount, hfill⟩ := readn_filled (isBuffer_toElfBuf s x.1 ELF_BUF) h.entry (by rw [hzero])
    (by rw [hzero]; decide) hrun (by decide)
  rw [hzero] at hcount hfill
  have hall : f.count ELF_BUF 0 = ELF_BUF := by omega
  rw [hall] at hfill
  simpa [headerBuf] using hfill.view

private theorem initStack_elfBuf (h : s.initStack short parent child argv = some (r, t)) : t.elfBuf = s.elfBuf := by
  rw [Loader.initStack] at h
  split at h
  · cases h
    rfl
  · dsimp only [Loader.after] at h
    split at h
    · cases h
      rfl
    · split at h
      · cases h
      · obtain ⟨u, hu, h⟩ := Option.bind_eq_some_iff.mp h
        obtain ⟨c, -, rfl⟩ := Option.map_eq_some_iff.mp hu
        obtain ⟨⟨r', v⟩, hmap, h⟩ := Option.bind_eq_some_iff.mp h
        obtain ⟨c', -, hv⟩ := Option.map_eq_some_iff.mp hmap
        cases hv
        dsimp only at h
        split at h
        · cases h
          rfl
        · split at h
          · cases h
            rfl
          · cases h
            rfl

end Buffer

section Places

variable {short : Nat → Bool} {files : CString → Except Refusal ProgramFile} {flushed : Int} {s t u : Spawner}
  {prog : CString} {argv : List CString} {f : ProgramFile} {fd i : BitVec 32} {child : Fin NENV} {d : Nat}

private theorem sysExofork_inv (h : s.sysExofork short = (.ok child, u)) :
    u.elfBuf = s.elfBuf ∧ u.curenv = s.curenv ∧ ∀ n, u.maps s.curenv n = s.maps s.curenv n := by
  rw [Spawner.sysExofork] at h
  split at h
  · cases h
  · next first hhead =>
    split at h
    · cases h
    · cases h
      refine ⟨rfl, rfl, fun n => ?_⟩
      have hne : s.curenv ≠ child := fun he => s.curenv_taken (he ▸ List.mem_of_head? hhead)
      change (s.clear child).maps _ _ = _
      rw [Spaces.maps_clear, if_neg hne]

/-- Every header that is looked at is one of the table, and all are when the call returns a child. -/
theorem childHeaders_spec (short : Nat → Bool) (flushed : Int) (s : Spawner) (f : ProgramFile) (fd : BitVec 32)
    (argv : List CString) :
    (∀ d ∈ s.childHeaders short f fd argv, d ∈ headerPlaces s.elfBuf) ∧
      ∀ child t, s.makeChild short flushed f fd argv = some (.ok child, t) →
        s.childHeaders short f fd argv = headerPlaces s.elfBuf := by
  rw [Spawner.childHeaders, Spawner.makeChild]
  generalize hfork : s.sysExofork short = x
  obtain ⟨c, u⟩ := x
  cases c with
  | error r =>
    refine ⟨fun d hd => absurd hd List.not_mem_nil, fun child t h => ?_⟩
    cases h
  | ok c =>
    obtain ⟨hbuf, -, -⟩ := sysExofork_inv hfork
    dsimp only
    rw [Spawner.stackHeaders]
    cases hstack : u.initStack short u.curenv c argv with
    | none => exact ⟨fun d hd => absurd hd List.not_mem_nil, fun child t h => by cases h⟩
    | some y =>
      obtain ⟨r, l⟩ := y
      have hl : l.elfBuf = s.elfBuf := (initStack_elfBuf hstack).trans hbuf
      cases r with
      | error r => exact ⟨fun d hd => absurd hd List.not_mem_nil, fun child t h => by cases h⟩
      | ok esp =>
        rw [Option.elim_some]
        dsimp only
        rw [hl]
        refine ⟨fun d hd => (headersRead_initial ..).subset hd, fun child t h => ?_⟩
        dsimp only [Option.bind_eq_bind, Option.bind_some] at h
        rw [Spawner.loadChild] at h
        obtain ⟨⟨r, v⟩, hsegments, h⟩ := Option.bind_eq_some_iff.mp h
        dsimp only at h
        split at h
        · obtain ⟨w, -, h⟩ := Option.bind_eq_some_iff.mp h
          obtain ⟨w', -, h⟩ := Option.bind_eq_some_iff.mp h
          cases h
        · next hr =>
          rw [progHeaders_eq] at hsegments
          have hall := headersRead_all hsegments (not_lt.mp hr)
          change Loader.headersRead short f fd u.curenv c l.elfBuf (headerPlaces l.elfBuf) l = _ at hall
          rwa [hl] at hall

private theorem openedHeaders_spec (short : Nat → Bool) (flushed : Int) (s : Spawner) (f : ProgramFile)
    (argv : List CString) (hi : InRange i) :
    (∀ d ∈ (withFile s i).openedHeaders short f i argv, d ∈ headerPlaces (headerBuf s.toLoader f)) ∧
      ∀ child t, (withFile s i).loadOpened short flushed f i argv = some (.ok child, t) →
        (withFile s i).openedHeaders short f i argv = headerPlaces (headerBuf s.toLoader f) := by
  rw [Spawner.openedHeaders, Spawner.loadOpened]
  change _ ∧ ∀ child t, ((withFile s i).readn f (withFile s i).curenv i Loader.toElfBuf ELF_BUF >>= _) = _ → _
  cases hread : (withFile s i).readn f (withFile s i).curenv i Loader.toElfBuf ELF_BUF with
  | none => exact ⟨fun d hd => absurd hd List.not_mem_nil, fun child t h => by cases h⟩
  | some y =>
    obtain ⟨r, l⟩ := y
    dsimp only
    by_cases hbad : r ≠ ELF_BUF ∨ u32 l.elfBuf 0 ≠ ELF_MAGIC
    · rw [if_pos hbad]
      refine ⟨fun d hd => absurd hd List.not_mem_nil, fun child t h => ?_⟩
      have hbad' : r ≠ 512 ∨ u32 l.elfBuf 0 ≠ ELF_MAGIC := hbad
      dsimp only [Option.bind_eq_bind, Option.bind_some] at h
      rw [if_pos hbad'] at h
      obtain ⟨u, -, h⟩ := Option.bind_eq_some_iff.mp h
      cases h
    · have hr : r = ELF_BUF := not_not.mp (not_or.mp hbad).1
      subst hr
      have hbuf : l.elfBuf = headerBuf s.toLoader f := (withFile_fresh hi).header hread
      rw [if_neg hbad, ← hbuf]
      obtain ⟨hsub, hall⟩ := childHeaders_spec short flushed { withFile s i with toLoader := l } f i argv
      refine ⟨hsub, fun child t h => hall child t ?_⟩
      have hgood : ¬ ((ELF_BUF : Int) ≠ 512 ∨ u32 l.elfBuf 0 ≠ ELF_MAGIC) := hbad
      dsimp only [Option.bind_eq_bind, Option.bind_some] at h
      rwa [if_neg hgood] at h

private theorem spawn_headersRead (short : Nat → Bool) (flushed : Int) (s : Spawner) (prog : CString)
    (argv : List CString) (hfile : files prog = .ok f) :
    (∀ d ∈ s.headersRead short files flushed prog argv, d ∈ headerPlaces (headerBuf s.toLoader f)) ∧
      ∀ child t, s.spawn short files flushed prog argv = some (.ok child, t) →
        s.headersRead short files flushed prog argv = headerPlaces (headerBuf s.toLoader f) := by
  rw [Spawner.headersRead, Spawner.spawn]
  rcases openFile_cases files flushed s prog with ⟨i, f', -, ⟨hi, -⟩, hfile', hopen⟩ | ⟨-, r, -, hopen⟩
  · obtain rfl : f' = f := Except.ok.inj (hfile'.symm.trans hfile)
    rw [hopen]
    exact openedHeaders_spec short flushed s f' argv hi
  · rw [hopen]
    exact ⟨fun d hd => absurd hd List.not_mem_nil, fun child t h => by cases h⟩

end Places

section Plain

variable {short : Nat → Bool} {files : CString → Except Refusal ProgramFile} {flushed : Int} {s t : Spawner}
  {prog : CString} {argv : List CString} {f : ProgramFile} {fd esp : BitVec 32} {parent child : Fin NENV}
  {l : Loader}

private theorem mapSegments_plain {buf : Nat → UInt8} {ds : List Nat}
    (h : ∀ d ∈ ds, (progHeader buf d).type ≠ ELF_PROG_LOAD) :
    Loader.mapSegments short f fd parent child (ds.map (progHeader buf)) l = some (0, l) := by
  induction ds with
  | nil => rfl
  | cons d ds ih =>
    rw [List.map_cons, Loader.mapSegments, if_pos (h d List.mem_cons_self)]
    exact ih fun d' hd' => h d' (List.mem_cons_of_mem d hd')

/-- No page of the environment has `PTE_SHARE`. -/
def NothingShared (s : Paging) (e : Fin NENV) : Prop :=
  ∀ n x, s.maps e n = some x → x.2.val.toNat &&& PTE_SHARE = 0

private theorem copySharedPage_plain (h : NothingShared l.toPaging parent) (n : Nat) :
    Loader.copySharedPage short parent child l n = some l := by
  rw [Loader.copySharedPage]
  apply if_neg
  rintro ⟨-, -, hshare⟩
  apply hshare
  rw [Paging.perm]
  cases hx : l.maps parent (PGNUM (BitVec.ofNat 32 (n * PGSIZE)).toNat) with
  | none => rfl
  | some x => exact h _ x hx

private theorem copyLoop_plain (h : NothingShared l.toPaging parent) (ns : List Nat) :
    ns.foldlM (Loader.copySharedPage short parent child) l = some l := by
  induction ns with
  | nil => rfl
  | cons n ns ih =>
    rw [List.foldlM_cons, copySharedPage_plain h n]
    exact ih

private theorem copySharedPages_plain (h : NothingShared l.toPaging parent) :
    l.copySharedPages short parent child = some l := by
  rw [Loader.copySharedPages]
  exact copyLoop_plain h _

private theorem loadChild_plain (hfd : s.Open s.curenv fd)
    (htypes : ∀ d ∈ headerPlaces s.elfBuf, (progHeader s.elfBuf d).type ≠ ELF_PROG_LOAD)
    (hshared : ∀ n x, n ≠ fdPage fd → s.maps s.curenv n = some x → x.2.val.toNat &&& PTE_SHARE = 0) :
    ∃ t, s.loadChild short flushed f fd child esp = some (.ok child, t) := by
  obtain ⟨r, c, hclose, hc⟩ := close_open flushed hfd
  have hnone : NothingShared c s.curenv := by
    intro n x hx
    by_cases hn : n = fdPage fd
    · rw [hn, hc.fd] at hx
      cases hx
    · apply hshared n x hn
      by_cases hd : n = dataPage fd
      · rw [hd, hc.data] at hx
        split at hx
        · cases hx
        · rwa [hd]
      · rwa [hc.rest n hn hd] at hx
  have hcopy := @copySharedPages_plain short s.curenv child { s.toLoader with toPaging := c } hnone
  rw [Spawner.loadChild, progHeaders_eq, mapSegments_plain htypes]
  dsimp only [Option.bind_eq_bind, Option.bind_some]
  rw [if_neg (by decide), Spawner.closeFd]
  change ∃ t, ((s.close flushed s.curenv fd).map _ >>= _) = _
  -- Reducing the binds here would run the loop over the pages; they are rewritten.
  rw [hclose, Option.map_some, Option.bind_eq_bind, Option.bind_some, hcopy]
  exact ⟨_, rfl⟩

private theorem makeChild_plain (hfd : s.Open s.curenv fd) (hchild : ¬ NoChild short s)
    (hstack : ¬ NoStack short (s.calls + 1) argv) (hfits : Fits argv)
    (htypes : ∀ d ∈ headerPlaces s.elfBuf, (progHeader s.elfBuf d).type ≠ ELF_PROG_LOAD)
    (hshared : ∀ n x, n ≠ fdPage fd → s.maps s.curenv n = some x → x.2.val.toNat &&& PTE_SHARE = 0) :
    ∃ child t, s.makeChild short flushed f fd argv = some (.ok child, t) := by
  rw [Spawner.makeChild]
  rcases sysExofork_cases short s with ⟨hno, -⟩ | ⟨-, child, u, hfork, hne, -, hcur, hcalls, -⟩
  · exact absurd hno hchild
  obtain ⟨hbuf, -, hmaps⟩ := sysExofork_inv hfork
  rw [hfork]
  dsimp only
  rcases initStack_cases short u.toLoader u.curenv child argv with ⟨hno, -⟩ | ⟨-, hrun, hok⟩
  · rw [hcalls] at hno
    exact absurd hno hstack
  obtain ⟨r, l, hrun, hutemp⟩ := hrun hfits
  obtain ⟨⟨esp, rfl⟩, hside⟩ := hok r l hrun
  rw [hrun]
  dsimp only [Option.bind_eq_bind, Option.bind_some]
  have hl : l.elfBuf = s.elfBuf := (initStack_elfBuf hrun).trans hbuf
  have hkept (n : Nat) (hn : n ≠ PGNUM utemp.toNat) : l.maps s.curenv n = s.maps s.curenv n := by
    rw [← hcur, hside u.curenv n (by rw [hcur]; exact hne.symm) fun _ => hn, hcur, hmaps]
  obtain ⟨t, ht⟩ := @loadChild_plain short flushed { u with toLoader := l } f fd esp child
    (by
      change l.Open u.curenv fd
      rw [hcur]
      refine ⟨hfd.1, ?_⟩
      rw [hkept _ (fdPage_ne_utemp hfd.1)]
      exact hfd.2)
    (by
      change ∀ d ∈ headerPlaces l.elfBuf, (progHeader l.elfBuf d).type ≠ ELF_PROG_LOAD
      rw [hl]
      exact htypes)
    (by
      intro n x hn hx
      change l.maps u.curenv n = some x at hx
      rw [hcur] at hx
      by_cases hn' : n = PGNUM utemp.toNat
      · rw [hn', ← hcur, hutemp] at hx
        cases hx
      · rw [hkept n hn'] at hx
        exact hshared n x hn hx)
  exact ⟨child, t, ht⟩

private theorem spawn_plain (hpath : prog.val.length < MAXPATHLEN) (hfree : ∃ i, InRange i ∧ ¬ s.Open s.curenv i)
    (hfile : files prog = .ok f) (helf : IsElf f s.requests) (hchild : ¬ NoChild short s)
    (hstack : ¬ NoStack short (s.calls + 1) argv) (hfits : Fits argv) (hshared : NothingShared s.toPaging s.curenv)
    (htypes : ∀ d ∈ headerPlaces (headerBuf s.toLoader f),
      (progHeader (headerBuf s.toLoader f) d).type ≠ ELF_PROG_LOAD) :
    ∃ child t, s.spawn short files flushed prog argv = some (.ok child, t) := by
  rw [Spawner.spawn]
  rcases openFile_cases files flushed s prog with ⟨i, f', -, ⟨hi, -⟩, hfile', hopen⟩ | ⟨hfail, -⟩
  · obtain rfl : f' = f := Except.ok.inj (hfile'.symm.trans hfile)
    have hfresh := withFile_fresh (s := s) hi
    rcases header_cases f' hfresh with ⟨-, l, hread, hmagic⟩ | ⟨hnot, -⟩
    · have hbuf : l.elfBuf = headerBuf s.toLoader f' := hfresh.header hread
      obtain ⟨hmaps, hcalls⟩ := readnLoop_same (fun _ _ _ _ _ => toElfBuf_same) hread
      obtain ⟨child, t, hrun⟩ := @makeChild_plain short flushed { withFile s i with toLoader := l } argv f' i
        (by
          change l.Open s.curenv i
          rw [Paging.Open, hmaps]
          exact (withFile_open hi i).mpr (.inr rfl))
        (by
          change ¬ (s.freeList = [] ∨ short l.calls = true)
          rw [hcalls]
          exact hchild)
        (by
          change ¬ NoStack short (l.calls + 1) argv
          rw [hcalls]
          exact hstack)
        hfits
        (by
          change ∀ d ∈ headerPlaces l.elfBuf, (progHeader l.elfBuf d).type ≠ ELF_PROG_LOAD
          rw [hbuf]
          exact htypes)
        (by
          intro n x hn hx
          change l.maps s.curenv n = some x at hx
          rw [hmaps, withFile_maps, if_neg fun h => hn h.2] at hx
          exact hshared n x hx)
      refine ⟨child, t, ?_⟩
      rw [hopen]
      change (withFile s i).loadOpened short flushed f' i argv = _
      rw [Spawner.loadOpened]
      change ((withFile s i).readn f' s.curenv i Loader.toElfBuf 512 >>= _) = _
      rw [hread]
      dsimp only [Option.bind_eq_bind, Option.bind_some]
      rw [if_neg (by rw [hmagic]; simp)]
      exact hrun
    · exact absurd helf hnot
  · exact absurd ⟨hpath, hfree, f, hfile⟩ hfail

end Plain

/-- The headers that `spawn` looks at lie in `elf_buf` if the table of the file does; a call that returns a child
has looked at the whole table. -/
theorem spawn_headers_inside_iff (short : Nat → Bool) (files : CString → Except Refusal ProgramFile) (flushed : Int)
    (s : Spawner) (prog : CString) (argv : List CString) (f : ProgramFile) (hfile : files prog = .ok f) :
    (HeadersFit f → ∀ d ∈ s.headersRead short files flushed prog argv, d + PROGHDR ≤ ELF_BUF) ∧
      ∀ child t, s.spawn short files flushed prog argv = some (.ok child, t) →
        ((∀ d ∈ s.headersRead short files flushed prog argv, d + PROGHDR ≤ ELF_BUF) ↔ HeadersFit f) := by
  obtain ⟨hsub, hall⟩ := spawn_headersRead short flushed s prog argv hfile
  have hiff := headersFit_iff s.toLoader f
  refine ⟨fun hfit d hd => hiff.mpr hfit d (hsub d hd), fun child t hrun => ?_⟩
  rw [hall child t hrun]
  exact hiff

/-- The header table is said to start right behind the buffer. -/
def farFile : ProgramFile where
  size := 512
  byte p := if p < 4 then leByte ELF_MAGIC p.toNat else if p = 29 then 2 else if p = 44 then 1 else 0
  fails _ := none

private theorem sampleSpawner_spawn {f : ProgramFile} (helf : IsElf f 0)
    (htypes : ∀ d ∈ headerPlaces (headerBuf sampleSpawner.toLoader f),
      (progHeader (headerBuf sampleSpawner.toLoader f) d).type ≠ ELF_PROG_LOAD) :
    ∃ child t, sampleSpawner.spawn (fun _ => false) (fun _ => .ok f) 0 ⟨[97], by decide⟩ [] = some (.ok child, t) :=
  spawn_plain (by decide) ⟨0, by decide, fun h => by cases h.2⟩ rfl helf (by rintro (h | h) <;> cases h)
    (by
      rintro (h | h | h)
      · revert h
        decide
      · cases h
      · cases h.2)
    (by decide) (fun n x h => by cases h) htypes

/-- The header behind the buffer is no segment to load, and `spawn` returns the child. -/
theorem spawn_reads_behind : ¬ ∀ (short : Nat → Bool) (files : CString → Except Refusal ProgramFile) (flushed : Int)
    (s : Spawner) (prog : CString) (argv : List CString),
      (∃ r t, s.spawn short files flushed prog argv = some (.error r, t)) ∨
        ∀ d ∈ s.headersRead short files flushed prog argv, d + PROGHDR ≤ ELF_BUF := by
  intro hall
  have helf : IsElf farFile 0 := ⟨rfl, by decide, by decide +kernel⟩
  obtain ⟨child, t, hrun⟩ := sampleSpawner_spawn helf (by decide +kernel)
  obtain ⟨-, hread⟩ := @spawn_headersRead (fun _ => .ok farFile) farFile (fun _ => false) 0 sampleSpawner
    ⟨[97], by decide⟩ [] rfl
  rcases hall (fun _ => false) (fun _ => .ok farFile) 0 sampleSpawner ⟨[97], by decide⟩ [] with ⟨r, t', herror⟩ | hin
  · rw [hrun] at herror
    cases herror
  · rw [hread child t hrun, headersFit_iff] at hin
    revert hin
    decide +kernel

theorem spawn_headers_inside_sample : ∃ child t,
    sampleSpawner.spawn (fun _ => false) (fun _ => .ok elfFile) 0 ⟨[97], by decide⟩ [] = some (.ok child, t) ∧
      ∀ d ∈ sampleSpawner.headersRead (fun _ => false) (fun _ => .ok elfFile) 0 ⟨[97], by decide⟩ [],
        d + PROGHDR ≤ ELF_BUF := by
  have helf : IsElf elfFile 0 := ⟨rfl, by decide, by decide +kernel⟩
  obtain ⟨child, t, hrun⟩ := sampleSpawner_spawn helf (by decide +kernel)
  have hiff := spawn_headers_inside_iff (fun _ => false) (fun _ => .ok elfFile) 0 sampleSpawner ⟨[97], by decide⟩ []
    elfFile rfl
  exact ⟨child, t, hrun, hiff.1 (.inl (by decide +kernel))⟩

end DamnOS.User
