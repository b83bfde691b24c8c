import DamnOS.Framework.Asking
import DamnOS.User.Dup
import DamnOS.User.PagingKernel
import DamnOS.User.PipeCreate

/-!
# Programs over the kernel

`dup` and `pipe` as programs that ask for system calls, loads and stores.  What such a program does over the kernel it
does over its pages, when the right calls find no memory.
-/

namespace DamnOS.User

open DamnOS.Framework DamnOS.Kernel
open DamnOS.Programs (MAXFD O_RDONLY O_WRONLY)
open DamnOS.FileSystem (Err)

/-- What a program does with its pages; `look` reads `uvpd` and `uvpt`. -/
inductive PageRequest where
  | alloc (va perm : BitVec 32)
  | map (srcva dstva perm : BitVec 32)
  | unmap (va : BitVec 32)
  | store (va : BitVec 32) (w : Nat)
  | look (va : BitVec 32)
  | load (va : BitVec 32)

namespace PageRequest

abbrev Reply : PageRequest → Type
  | alloc _ _ => Int
  | map _ _ _ => Int
  | unmap _ => Int
  | store _ _ => Unit
  | look _ => Option (BitVec 32)
  | load _ => Nat

/-- The replies of the pages, as the program sees them. -/
def reply (e : Fin NENV) (short : Nat → Bool) : (i : PageRequest) → Paging → Option (i.Reply × Paging)
  | alloc va perm, s => some (s.sysPageAlloc short e va perm)
  | map srcva dstva perm, s => s.sysPageMap short e srcva e dstva perm
  | unmap va, s => some (s.sysPageUnmap e va)
  | store va w, s => (s.storeWord e va w).map fun s => ((), s)
  | look va, s => some ((s.maps e (PGNUM va.toNat)).map fun x => x.2.val, s)
  | load va, s => (s.loadWord e va).map fun w => (w, s)

/-- What a system call returns to the program. -/
def returned : Outcome → Option (Int × System)
  | .returns r s => some (r, s)
  | _ => none

/-- The replies of the kernel, and of the processor with the entries that the kernel has made. -/
def kernelReply (c : Fin NENV) : (i : PageRequest) → System → Option (i.Reply × System)
  | alloc va perm, s => returned (s.sysPageAlloc c 0 va perm)
  | map srcva dstva perm, s => returned (s.sysPageMap c 0 srcva 0 dstva perm)
  | unmap va, s => returned (s.sysPageUnmap c 0 va)
  | store va w, s =>
    match s.view c (PGNUM va.toNat) with
    | none => none
    | some v =>
      if v &&& PTE_W = 0 then none
      else some ((), { s with pmap := s.pmap.store (pageOf v) (va.toNat % PGSIZE / 4) w })
  | look va, s => some ((s.view c (PGNUM va.toNat)).map fun w => BitVec.ofNat 32 (w % 4096), s)
  | load va, s =>
    (s.view c (PGNUM va.toNat)).map fun w => (s.pmap.mem (pageOf w) (va.toNat % PGSIZE / 4) % 2 ^ 32, s)

/-- Where the kernel's calls do what a program expects of them: there is a page on the list, no empty entry is copied
or unmapped, no count overflows, and words are aligned. -/
def Plain (c : Fin NENV) : PageRequest → System → Prop
  | alloc _ _, s => s.pmap.pageFreeList ≠ none
  | map srcva dstva perm, s =>
    pageAddr srcva.toNat = true → pageAddr dstva.toNat = true → permValid perm.toNat = true →
      ∃ w, s.view c (PGNUM srcva.toNat) = some w ∧
        (s.pmap.ppRef (pageOf w) < 65535 ∨ (s.view c (PGNUM dstva.toNat)).map pageOf = some (pageOf w))
  | unmap va, s =>
    pageAddr va.toNat = true → ¬s.HasTable c va.toNat ∨ ∃ w, s.view c (PGNUM va.toNat) = some w
  | store va _, _ => va.toNat % 4 = 0
  | look _, _ => True
  | load va, _ => va.toNat % 4 = 0

end PageRequest

abbrev PageProgram : Type → Type := Asking PageRequest PageRequest.Reply

def Paging.exec {α : Type} (s : Paging) (short : Nat → Bool) (e : Fin NENV) (p : PageProgram α) :
    Option (α × Paging) :=
  p.run (PageRequest.reply e short) s

def execKernel {α : Type} (s : System) (c : Fin NENV) (p : PageProgram α) : Option (α × System) :=
  p.run (PageRequest.kernelReply c) s

/-- The kernel does what the program expects of each of its calls. -/
def PlainRun {α : Type} (s : System) (c : Fin NENV) (p : PageProgram α) : Prop :=
  p.Along (PageRequest.kernelReply c) (PageRequest.Plain c) s

section Replies

variable {M : Nat → Prop} {s t : System} {σ : Paging} {name : Nat → Nat} {c : Fin NENV} {i : PageRequest}

private theorem reply_clocked (e : Fin NENV) : Asking.Clocked (PageRequest.reply e) Paging.calls := by
  constructor
  · intro ω ω' i y h
    cases i with
    | alloc va perm => simp only [PageRequest.reply, Paging.sysPageAlloc, h]
    | map srcva dstva perm => simp only [PageRequest.reply, Paging.sysPageMap, h]
    | unmap | store | look | load => rfl
  · intro ω i y r z h
    cases i with
    | alloc va perm =>
      simp only [PageRequest.reply, Paging.sysPageAlloc, Option.some.injEq] at h ⊢
      by_cases hargs : pageAddr va.toNat = true ∧ permValid perm.toNat = true
      · refine .inl ?_
        rw [dif_pos hargs] at h
        split at h <;> cases h <;> exact Nat.lt_succ_self _
      · rw [dif_neg hargs] at h
        cases h
        exact .inr ⟨rfl, fun ω' => by rw [dif_neg hargs, dif_neg hargs]⟩
    | map srcva dstva perm =>
      simp only [PageRequest.reply, Paging.sysPageMap] at h ⊢
      by_cases hargs : (pageAddr srcva.toNat = true ∧ pageAddr dstva.toNat = true) ∧ permValid perm.toNat = true
      · refine .inl ?_
        rw [dif_pos hargs] at h
        split at h
        · cases h
        · split at h <;> cases h <;> exact Nat.lt_succ_self _
      · rw [dif_neg hargs] at h
        cases h
        exact .inr ⟨rfl, fun ω' => by rw [dif_neg hargs, dif_neg hargs]⟩
    | unmap va =>
      refine .inr ⟨?_, fun _ => rfl⟩
      have hz : z = (y.sysPageUnmap e va).2 := (congrArg Prod.snd (Option.some.inj h)).symm
      rw [hz, Paging.sysPageUnmap]
      split <;> rfl
    | store va w =>
      obtain ⟨u, hu, hz⟩ := Option.map_eq_some_iff.mp h
      cases hz
      refine .inr ⟨?_, fun _ => rfl⟩
      unfold Paging.storeWord at hu
      split at hu
      · cases hu
      · split at hu <;> cases hu
        rfl
    | look va =>
      cases h
      exact .inr ⟨rfl, fun _ => rfl⟩
    | load va =>
      obtain ⟨w, -, hz⟩ := Option.map_eq_some_iff.mp h
      cases hz
      exact .inr ⟨rfl, fun _ => rfl⟩

/-- The kernel's state, and the pages as the program in slot `c` sees them. -/
structure Pictured (M : Nat → Prop) (c : Fin NENV) (s : System) (σ : Paging) : Prop where
  accounted : Accounted M s
  live : s.Live c
  depicts : ∃ name, Depicts s σ name

private theorem kept {a : Call} {r : Int} (ha : Accounted M s) (hc : s.Live c) (htidy : a.Tidy s c)
    (ho : a.exec s c = .returns r t) (henvs : t.envs = s.envs) : Accounted M t ∧ t.Live c := by
  obtain ⟨xs, hxs⟩ := ha.table
  have hstate : (a.exec s c).state? = some t := by
    rw [ho]
    rfl
  refine ⟨⟨ha.toBooked.exec (fun _ => hxs.head_not_live) hc htidy hstate, (a.effect s c).envTable hxs hc hstate⟩, ?_⟩
  rw [System.Live, henvs]
  exact hc

private theorem sysPageAlloc_kept {r : Int} {va perm : BitVec 32} (ha : Accounted M s) (hc : s.Live c)
    (ho : s.sysPageAlloc c 0 va perm = .returns r t) : Accounted M t ∧ t.Live c := by
  have heffect := s.sysPageAlloc_effect c 0 va perm
  rw [ho] at heffect
  refine kept (a := .pageAlloc 0 va perm) ha hc ⟨(fun _ _ _ h => by cases h), fun _ _ _ _ h => by cases h⟩ ho ?_
  cases heffect
  rfl

private theorem sysPageMap_kept {r : Int} {srcva dstva perm : BitVec 32} (ha : Accounted M s) (hc : s.Live c)
    (hplain : (PageRequest.map srcva dstva perm).Plain c s)
    (ho : s.sysPageMap c 0 srcva 0 dstva perm = .returns r t) : Accounted M t ∧ t.Live c := by
  have heffect := s.sysPageMap_effect c 0 srcva 0 dstva perm
  rw [ho] at heffect
  refine kept (a := .pageMap 0 srcva 0 dstva perm) ha hc ⟨(fun _ _ _ h => by cases h), ?_⟩ ho
    (by cases heffect; rfl)
  rintro src srcva' dst dstva' hcopies
  cases hcopies with
  | map hsrc hdst hsva hdva hperm htable =>
    obtain ⟨w, hw, hcount⟩ := hplain hsva hdva hperm
    obtain rfl := Option.some.inj ((envid2env_zero s c true).symm.trans hsrc)
    obtain rfl := Option.some.inj ((envid2env_zero s c true).symm.trans hdst)
    obtain ⟨-, hn, hmap⟩ := view_eq_some hw
    rw [← eq_page_of_pageAddr hsva] at hmap
    obtain ⟨hpde, hword, hpresent⟩ := Pmap.mapping_eq_some.mp hmap
    have hpte : s.pte c srcva.toNat = w := hword
    refine ⟨?_, ?_⟩
    · rw [hpte]
      rintro rfl
      exact hpresent (Nat.zero_and _)
    · rw [hpte]
      rcases hcount with hlt | hsame
      · exact .inl hlt
      · obtain ⟨v, hv, hpage⟩ := Option.map_eq_some_iff.mp hsame
        obtain ⟨-, -, hmap'⟩ := view_eq_some hv
        rw [← eq_page_of_pageAddr hdva] at hmap'
        exact .inr ⟨v, hmap', hpage⟩

private theorem sysPageUnmap_kept {r : Int} {va : BitVec 32} (ha : Accounted M s) (hc : s.Live c)
    (hplain : (PageRequest.unmap va).Plain c s) (ho : s.sysPageUnmap c 0 va = .returns r t) :
    Accounted M t ∧ t.Live c := by
  have heffect := s.sysPageUnmap_effect c 0 va
  rw [ho] at heffect
  refine kept (a := .pageUnmap 0 va) ha hc ⟨?_, fun _ _ _ _ h => by cases h⟩ ho (by cases heffect; rfl)
  rintro envid va' e hcall he hva htable hzero
  obtain ⟨rfl, rfl⟩ := Call.pageUnmap.inj hcall
  obtain rfl := Option.some.inj ((envid2env_zero s c true).symm.trans he)
  rcases hplain hva with hmissing | ⟨w, hw⟩
  · exact hmissing htable
  · obtain ⟨-, -, hmap⟩ := view_eq_some hw
    rw [← eq_page_of_pageAddr hva] at hmap
    obtain ⟨-, hword, hpresent⟩ := Pmap.mapping_eq_some.mp hmap
    have hw0 : w = 0 := hword.symm.trans hzero
    rw [hw0] at hpresent
    exact hpresent (Nat.zero_and _)

private theorem returned_eq_some {o : Outcome} {r : Int} (h : PageRequest.returned o = some (r, t)) :
    o = .returns r t := by
  cases o with
  | returns r' u =>
    cases h
    rfl
  | leaves | panics => cases h

private theorem writable_mod (v : Nat) : v % 4096 &&& PTE_W = v &&& PTE_W := by
  apply Nat.eq_of_testBit_eq
  intro i
  rw [Nat.testBit_and, Nat.testBit_and, show 4096 = 2 ^ 12 from rfl, Nat.testBit_mod_two_pow,
    show PTE_W = 2 ^ 1 from rfl, Nat.testBit_two_pow]
  by_cases hi : 1 = i
  · subst hi
    simp
  · simp [hi]

private theorem rights_eq {v : Nat} {r : Rights} (h : r.val.toNat = v % 4096) : r.val = BitVec.ofNat 32 (v % 4096) := by
  rw [← h, BitVec.ofNat_toNat, BitVec.setWidth_eq]

theorem Depicts.loadWord (h : Depicts s σ name) {va : BitVec 32} {v : Nat} (hv : s.view c (PGNUM va.toNat) = some v)
    (hva : va.toNat % 4 = 0) :
    σ.loadWord c va = some (s.pmap.mem (pageOf v) (va.toNat % PGSIZE / 4) % 2 ^ 32) := by
  obtain ⟨r, hr, -⟩ := h.of_some hv
  rw [loadWord_eq hr, ← u32_splice_same (σ.data (name (pageOf v))) (va.toNat % PGSIZE)]
  congr 1
  apply u32_congr
  intro i hi
  simp only [PGSIZE]
  rw [splice_inside _ _ (by omega), h.data c _ v _ hv (by rw [PGSIZE]; omega), Nat.add_sub_cancel_left]
  congr 1
  · congr 1
    omega
  · omega

theorem Depicts.storeWord (h : Depicts s σ name) (ha : Accounted M s) {va : BitVec 32} {v : Nat}
    (hv : s.view c (PGNUM va.toNat) = some v) (hwrite : v &&& PTE_W ≠ 0) (hva : va.toNat % 4 = 0) (w : Nat) :
    ∃ τ, σ.storeWord c va w = some τ ∧
      Depicts { s with pmap := s.pmap.store (pageOf v) (va.toNat % PGSIZE / 4) w } τ name ∧
      Accounted M { s with pmap := s.pmap.store (pageOf v) (va.toNat % PGSIZE / 4) w } := by
  obtain ⟨r, hr, hrights⟩ := h.of_some hv
  have hwrite' : r.val.toNat &&& PTE_W ≠ 0 := by rwa [hrights, writable_mod]
  have hmem (x : Nat) (hx : x ≠ pageOf v) :
      (s.pmap.store (pageOf v) (va.toNat % PGSIZE / 4) w).mem x = s.pmap.mem x := Pmap.store_mem_page hx
  obtain ⟨hacc, hsame⟩ := ha.writeData hv hmem
  have hview (e : Fin NENV) (n : Nat) :
      ({ s with pmap := s.pmap.store (pageOf v) (va.toNat % PGSIZE / 4) w } : System).view e n = s.view e n := hsame e n
  refine ⟨_, storeWord_eq hr hwrite' w, ⟨fun e n => ?_, fun e n u i k x hu hx => ?_, fun e n u k hu hk => ?_⟩, hacc⟩
  · rw [hview]
    exact h.maps e n
  · rw [hview] at hu hx
    exact h.inj e n u i k x hu hx
  · rw [hview] at hu
    simp only [Spaces.data_write]
    by_cases hpage : pageOf u = pageOf v
    · rw [hpage, Function.update_self]
      by_cases hin : va.toNat % PGSIZE ≤ k ∧ k < va.toNat % PGSIZE + 4
      · have hword : k / 4 = va.toNat % PGSIZE / 4 := by
          rw [PGSIZE] at *
          omega
        rw [splice_inside _ _ hin, hword, Pmap.store_mem_self]
        congr 1
        rw [PGSIZE] at *
        omega
      · have hword : k / 4 ≠ va.toNat % PGSIZE / 4 := by
          rw [PGSIZE] at *
          omega
        rw [splice_outside _ _ (by omega), Pmap.store_mem_word hword]
        exact h.data c _ v k hv hk
    · have hname : name (pageOf u) ≠ name (pageOf v) := fun heq => hpage (h.inj _ _ _ _ _ _ hu hv heq)
      rw [Function.update_of_ne hname, hmem _ hpage]
      exact h.data e n u k hu hk

/-- A reply of the kernel is one that the program's pages can give. -/
theorem Pictured.reply (h : Pictured M c s σ) (hplain : i.Plain c s) {r : i.Reply}
    (hr : PageRequest.kernelReply c i s = some (r, t)) :
    ∃ short τ, PageRequest.reply c short i σ = some (r, τ) ∧ Pictured M c t τ := by
  obtain ⟨hacc, hlive, name, hdepicts⟩ := h
  have hself := envid2env_zero s c true
  cases i with
  | alloc va perm =>
    have ho := returned_eq_some hr
    obtain ⟨hacc', hlive'⟩ := sysPageAlloc_kept hacc hlive ho
    obtain ⟨short, name', τ, hτ, hd⟩ := hdepicts.of_sysPageAlloc hacc hlive hself hplain ho
    exact ⟨short, τ, congrArg some hτ, hacc', hlive', name', hd⟩
  | map srcva dstva perm =>
    have ho := returned_eq_some hr
    obtain ⟨hacc', hlive'⟩ := sysPageMap_kept hacc hlive hplain ho
    obtain ⟨short, τ, hτ, hd⟩ := hdepicts.of_sysPageMap hacc hlive hself hself hplain ho
    exact ⟨short, τ, hτ, hacc', hlive', name, hd⟩
  | unmap va =>
    have ho := returned_eq_some hr
    obtain ⟨hacc', hlive'⟩ := sysPageUnmap_kept hacc hlive hplain ho
    obtain ⟨hret, hd⟩ := hdepicts.of_sysPageUnmap hacc hself hplain ho
    exact ⟨fun _ => false, _, congrArg some (Prod.ext hret rfl), hacc', hlive', name, hd⟩
  | store va w =>
    simp only [PageRequest.kernelReply] at hr
    cases hv : s.view c (PGNUM va.toNat) with
    | none =>
      rw [hv] at hr
      cases hr
    | some v =>
      rw [hv] at hr
      dsimp only at hr
      split at hr
      · cases hr
      · next hwrite =>
        cases hr
        obtain ⟨τ, hτ, hd, hacc'⟩ := hdepicts.storeWord hacc hv hwrite hplain w
        exact ⟨fun _ => false, τ, by simp only [PageRequest.reply, hτ]; rfl, hacc', hlive, name, hd⟩
  | look va =>
    cases hr
    refine ⟨fun _ => false, σ, ?_, hacc, hlive, name, hdepicts⟩
    simp only [PageRequest.reply]
    cases hv : s.view c (PGNUM va.toNat) with
    | none =>
      have hmaps := hdepicts.maps c (PGNUM va.toNat)
      rw [hv, Option.map_none, Option.map_eq_none_iff] at hmaps
      rw [hmaps]
      rfl
    | some v =>
      obtain ⟨r, hr, hrights⟩ := hdepicts.of_some hv
      rw [hr, Option.map_some, Option.map_some, rights_eq hrights]
  | load va =>
    obtain ⟨v, hv, hz⟩ := Option.map_eq_some_iff.mp hr
    cases hz
    refine ⟨fun _ => false, σ, ?_, hacc, hlive, name, hdepicts⟩
    simp only [PageRequest.reply, hdepicts.loadWord hv hplain]
    rfl

/-- A run of a program over the kernel is one over its pages, when the right calls find no memory. -/
theorem Pictured.exec {α : Type} {p : PageProgram α} {a : α} (h : Pictured M c s σ) (hplain : PlainRun s c p)
    (hrun : execKernel s c p = some (a, t)) : ∃ short τ, σ.exec short c p = some (a, τ) ∧ Pictured M c t τ :=
  (reply_clocked c).run_simulates (fun _ _ _ _ _ hp hi hr => hp.reply hi hr) h hplain hrun fun _ => false

end Replies

namespace PageProgram

def sysPageAlloc (va perm : BitVec 32) : PageProgram Int := Asking.request (PageRequest.alloc va perm)
def sysPageMap (srcva dstva perm : BitVec 32) : PageProgram Int := Asking.request (PageRequest.map srcva dstva perm)
def sysPageUnmap (va : BitVec 32) : PageProgram Int := Asking.request (PageRequest.unmap va)
def store (va : BitVec 32) (w : Nat) : PageProgram Unit := Asking.request (PageRequest.store va w)
def look (va : BitVec 32) : PageProgram (Option (BitVec 32)) := Asking.request (PageRequest.look va)
def load (va : BitVec 32) : PageProgram Nat := Asking.request (PageRequest.load va)

def fdLookup (fdnum : BitVec 32) : PageProgram (Option (BitVec 32)) :=
  if fdnum.toInt < 0 ∨ (MAXFD : Int) ≤ fdnum.toInt then pure none
  else do
    match ← look (INDEX2FD fdnum) with
    | some _ => pure (some (INDEX2FD fdnum))
    | none => pure none

def devClose (flushed : Int) (d : Dev) (fd : BitVec 32) : PageProgram Int :=
  match d with
  | .file => pure flushed
  | .pipe => do
    let _ ← sysPageUnmap fd
    sysPageUnmap (fd2data fd)
  | .cons => pure 0

def fdClose (flushed : Int) (fd : BitVec 32) (mustExist : Bool) : PageProgram Int := do
  match ← fdLookup (fd2num fd) with
  | none => pure (if mustExist then -E_INVAL else 0)
  | some fd2 =>
    if fd ≠ fd2 then pure 0
    else do
      let devId ← load (fd + offDevId)
      let r ← (devLookup devId).elim (pure (-E_INVAL)) fun d => devClose flushed d fd
      let _ ← sysPageUnmap fd
      pure r

def close (flushed : Int) (fdnum : BitVec 32) : PageProgram Int := do
  match ← fdLookup fdnum with
  | none => pure (-E_INVAL)
  | some fd => fdClose flushed fd true

def dupErr (newfd nva : BitVec 32) (r : Int) : PageProgram Int := do
  let _ ← sysPageUnmap newfd
  let _ ← sysPageUnmap nva
  pure r

def dupData (ova nva : BitVec 32) : PageProgram Int := do
  match ← look ova with
  | some perm => sysPageMap ova nva perm
  | none => pure 0

def dupMap (oldfd newfdnum : BitVec 32) : PageProgram Int := do
  let newfd := INDEX2FD newfdnum
  let nva := fd2data newfd
  let r ← dupData (fd2data oldfd) nva
  if r < 0 then dupErr newfd nva r
  else do
    let rights ← look oldfd
    let r ← sysPageMap oldfd newfd (rights.getD 0)
    if r < 0 then dupErr newfd nva r else pure newfdnum.toInt

def dup (flushed : Int) (oldfdnum newfdnum : BitVec 32) : PageProgram Int := do
  match ← fdLookup oldfdnum with
  | none => pure (-E_INVAL)
  | some oldfd => do
    let _ ← close flushed newfdnum
    dupMap oldfd newfdnum

/-- The first of some descriptors without a page. -/
def firstFree : List (BitVec 32) → PageProgram (Option (BitVec 32))
  | [] => pure none
  | fd :: fds => do
    match ← look fd with
    | some _ => firstFree fds
    | none => pure (some fd)

def fdAlloc : PageProgram (Option (BitVec 32)) :=
  firstFree ((List.range MAXFD).map fun i => INDEX2FD (BitVec.ofNat 32 i))

def setPipe (fd0 fd1 : BitVec 32) : PageProgram (Except Int (BitVec 32 × BitVec 32)) := do
  store (fd0 + offDevId) Dev.pipe.id
  store (fd0 + offOmode) O_RDONLY
  store (fd1 + offDevId) Dev.pipe.id
  store (fd1 + offOmode) O_WRONLY
  pure (.ok (fd2num fd0, fd2num fd1))

/-- What was mapped is unmapped, and `r` returned. -/
def unwind (r : Int) : List (BitVec 32) → PageProgram (Except Int (BitVec 32 × BitVec 32))
  | [] => pure (.error r)
  | va :: vas => do
    let _ ← sysPageUnmap va
    unwind r vas

def pipe : PageProgram (Except Int (BitVec 32 × BitVec 32)) := do
  match ← fdAlloc with
  | none => pure (.error (-(Err.code .maxOpen : Int)))
  | some fd0 =>
    let r ← sysPageAlloc fd0 shareRW
    if r < 0 then pure (.error r)
    else do
      match ← fdAlloc with
      | none => unwind (-(Err.code .maxOpen : Int)) [fd0]
      | some fd1 =>
        let r ← sysPageAlloc fd1 shareRW
        if r < 0 then unwind r [fd0]
        else do
          let va := fd2data fd0
          let r ← sysPageAlloc va shareRW
          if r < 0 then unwind r [fd1, fd0]
          else do
            let r ← sysPageMap va (fd2data fd1) shareRW
            if r < 0 then unwind r [va, fd1, fd0] else setPipe fd0 fd1

section Runs

variable {short : Nat → Bool} {σ : Paging} {e : Fin NENV}

@[simp] theorem sysPageAlloc_run (va perm : BitVec 32) :
    (sysPageAlloc va perm).run (PageRequest.reply e short) σ = some (σ.sysPageAlloc short e va perm) :=
  Asking.run_request _

@[simp] theorem sysPageMap_run (srcva dstva perm : BitVec 32) :
    (sysPageMap srcva dstva perm).run (PageRequest.reply e short) σ = σ.sysPageMap short e srcva e dstva perm :=
  Asking.run_request _

@[simp] theorem sysPageUnmap_run (va : BitVec 32) :
    (sysPageUnmap va).run (PageRequest.reply e short) σ = some (σ.sysPageUnmap e va) := Asking.run_request _

@[simp] theorem store_run (va : BitVec 32) (w : Nat) :
    (store va w).run (PageRequest.reply e short) σ = (σ.storeWord e va w).map fun s => ((), s) :=
  Asking.run_request _

@[simp] theorem look_run (va : BitVec 32) : (look va).run (PageRequest.reply e short) σ =
    some ((σ.maps e (PGNUM va.toNat)).map fun x => x.2.val, σ) := Asking.run_request _

@[simp] theorem load_run (va : BitVec 32) :
    (load va).run (PageRequest.reply e short) σ = (σ.loadWord e va).map fun w => (w, σ) := Asking.run_request _

private theorem fdLookup_run (fdnum : BitVec 32) :
    (fdLookup fdnum).run (PageRequest.reply e short) σ = some (σ.fdLookup e fdnum, σ) := by
  rw [fdLookup, Paging.fdLookup]
  split
  · rfl
  · rw [Asking.run_bind, look_run, Option.bind_some, Paging.present]
    cases σ.maps e (PGNUM (INDEX2FD fdnum).toNat) <;> rfl

private theorem devClose_run (flushed : Int) (d : Dev) (fd : BitVec 32) :
    (devClose flushed d fd).run (PageRequest.reply e short) σ = some (Paging.devClose flushed d σ e fd) := by
  cases d with
  | file | cons => rfl
  | pipe => simp [devClose, Paging.devClose]

private theorem fdClose_run (flushed : Int) (fd : BitVec 32) (mustExist : Bool) :
    (fdClose flushed fd mustExist).run (PageRequest.reply e short) σ = σ.fdClose flushed e fd mustExist := by
  rw [fdClose, Paging.fdClose, Asking.run_bind, fdLookup_run, Option.bind_some]
  cases σ.fdLookup e (fd2num fd) with
  | none => rfl
  | some fd2 =>
    dsimp only
    split
    · rfl
    · rw [Asking.run_bind]
      cases hload : σ.loadWord e (fd + offDevId) with
      | none => simp [hload]
      | some devId =>
        cases hdev : devLookup devId with
        | none => simp [hload, hdev]
        | some d => simp [hload, hdev, devClose_run]

private theorem close_run (flushed : Int) (fdnum : BitVec 32) :
    (close flushed fdnum).run (PageRequest.reply e short) σ = σ.close flushed e fdnum := by
  rw [close, Paging.close, Asking.run_bind, fdLookup_run, Option.bind_some]
  cases σ.fdLookup e fdnum with
  | none => rfl
  | some fd => exact fdClose_run flushed fd true

private theorem dupErr_run (newfd nva : BitVec 32) (r : Int) :
    (dupErr newfd nva r).run (PageRequest.reply e short) σ = some (σ.dupErr e newfd nva r) := by
  simp [dupErr, Paging.dupErr]

private theorem dupData_run (ova nva : BitVec 32) :
    (dupData ova nva).run (PageRequest.reply e short) σ = σ.dupData short e ova nva := by
  rw [dupData, Paging.dupData, Asking.run_bind, Paging.present, Paging.perm]
  cases hx : σ.maps e (PGNUM ova.toNat) with
  | none => simp [hx]
  | some x => simp [hx]

private theorem dupMap_run (oldfd newfdnum : BitVec 32) :
    (dupMap oldfd newfdnum).run (PageRequest.reply e short) σ = σ.dupMap short e oldfd newfdnum := by
  rw [dupMap, Paging.dupMap, Asking.run_bind, dupData_run]
  cases σ.dupData short e (fd2data oldfd) (fd2data (INDEX2FD newfdnum)) with
  | none => rfl
  | some x =>
    obtain ⟨r, σ⟩ := x
    dsimp only [Option.bind_some, Option.bind_eq_bind]
    split
    · exact dupErr_run _ _ r
    · have hperm : ((σ.maps e (PGNUM oldfd.toNat)).map fun x => x.2.val).getD 0 = σ.perm e oldfd := by
        rw [Paging.perm]
        cases σ.maps e (PGNUM oldfd.toNat) <;> rfl
      simp only [Asking.run_bind, look_run, sysPageMap_run, Option.bind_some, hperm]
      cases σ.sysPageMap short e oldfd e (INDEX2FD newfdnum) (σ.perm e oldfd) with
      | none => rfl
      | some y =>
        dsimp only [Option.bind_some]
        split
        · exact dupErr_run _ _ y.1
        · rfl

private theorem dup_run (flushed : Int) (oldfdnum newfdnum : BitVec 32) :
    σ.exec short e (dup flushed oldfdnum newfdnum) = σ.dup short flushed e oldfdnum newfdnum := by
  rw [Paging.exec, dup, Paging.dup, Asking.run_bind, fdLookup_run, Option.bind_some]
  cases σ.fdLookup e oldfdnum with
  | none => rfl
  | some oldfd =>
    dsimp only
    rw [Asking.run_bind, close_run]
    cases σ.close flushed e newfdnum with
    | none => rfl
    | some x => exact dupMap_run oldfd newfdnum

private theorem fdAlloc_run : fdAlloc.run (PageRequest.reply e short) σ = some (σ.fdAlloc e, σ) := by
  rw [fdAlloc, Paging.fdAlloc]
  induction (List.range MAXFD).map fun i => INDEX2FD (BitVec.ofNat 32 i) with
  | nil => rfl
  | cons fd fds ih =>
    rw [firstFree, Asking.run_bind, look_run, Option.bind_some, List.find?_cons, Paging.present]
    cases σ.maps e (PGNUM fd.toNat) with
    | none => rfl
    | some x => exact ih

private theorem setPipe_run (fd0 fd1 : BitVec 32) :
    (setPipe fd0 fd1).run (PageRequest.reply e short) σ = σ.setPipe e fd0 fd1 := by
  simp only [setPipe, Paging.setPipe, Asking.run_bind, store_run, Option.bind_map, Asking.run_pure]
  rfl

private theorem pipe_run : σ.exec short e pipe = σ.pipe short e := by
  rw [Paging.exec, pipe, Paging.pipe, Asking.run_bind, fdAlloc_run, Option.bind_some]
  cases σ.fdAlloc e with
  | none => rfl
  | some fd0 =>
    dsimp only
    rw [Asking.run_bind, sysPageAlloc_run, Option.bind_some]
    generalize σ.sysPageAlloc short e fd0 shareRW = x
    obtain ⟨r, σ⟩ := x
    dsimp only
    split
    · rfl
    · rw [Asking.run_bind, fdAlloc_run, Option.bind_some]
      cases σ.fdAlloc e with
      | none => rfl
      | some fd1 =>
        dsimp only
        rw [Asking.run_bind, sysPageAlloc_run, Option.bind_some]
        generalize σ.sysPageAlloc short e fd1 shareRW = x
        obtain ⟨r, σ⟩ := x
        dsimp only
        split
        · rfl
        · rw [Asking.run_bind, sysPageAlloc_run, Option.bind_some]
          generalize σ.sysPageAlloc short e (fd2data fd0) shareRW = x
          obtain ⟨r, σ⟩ := x
          dsimp only
          split
          · rfl
          · rw [Asking.run_bind, sysPageMap_run]
            cases σ.sysPageMap short e (fd2data fd0) e (fd2data fd1) shareRW with
            | none => rfl
            | some x =>
              obtain ⟨r, σ⟩ := x
              dsimp only [Option.bind_some, Option.bind_eq_bind]
              split
              · rfl
              · exact setPipe_run fd0 fd1

end Runs

section Kernel

variable {M : Nat → Prop} {s t : System} {σ : Paging} {c : Fin NENV}

/-- `dup` over the kernel does what is asked, for the numbers and states of `DupSafe`. -/
theorem dup_over_kernel {flushed r : Int} {oldfdnum newfdnum : BitVec 32} (h : Pictured M c s σ)
    (hplain : PlainRun s c (dup flushed oldfdnum newfdnum))
    (hrun : execKernel s c (dup flushed oldfdnum newfdnum) = some (r, t)) : ∃ short τ, Pictured M c t τ ∧
      (Duplicates σ τ c oldfdnum newfdnum r ↔ DupSafe short σ c oldfdnum newfdnum) := by
  obtain ⟨short, τ, hτ, hpicture⟩ := h.exec hplain hrun
  rw [dup_run] at hτ
  obtain ⟨r', τ', hdup, hiff⟩ := dup_settles short flushed σ c oldfdnum newfdnum
  obtain ⟨rfl, rfl⟩ := Prod.mk.inj (Option.some.inj (hτ.symm.trans hdup))
  exact ⟨short, τ, hpicture, hiff⟩

/-- `pipe` over the kernel makes a pipe or leaves the program's pages as they are. -/
theorem pipe_over_kernel {r : Except Int (BitVec 32 × BitVec 32)} (h : Pictured M c s σ) (hplain : PlainRun s c pipe)
    (hrun : execKernel s c pipe = some (r, t))
    (hclosed : ∀ i, InRange i → σ.maps c (fdPage i) = none → σ.maps c (dataPage i) = none) :
    ∃ τ, Pictured M c t τ ∧ Atomic σ c r τ := by
  obtain ⟨short, τ, hτ, hpicture⟩ := h.exec hplain hrun
  rw [pipe_run] at hτ
  obtain ⟨r', τ', hpipe, hatomic⟩ := pipe_settles short σ c hclosed
  obtain ⟨rfl, rfl⟩ := Prod.mk.inj (Option.some.inj (hτ.symm.trans hpipe))
  exact ⟨τ, hpicture, hatomic⟩

end Kernel

end PageProgram

end DamnOS.User
