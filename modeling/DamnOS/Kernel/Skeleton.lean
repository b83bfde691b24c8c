import DamnOS.Kernel.Tables
import DamnOS.Framework.References

/-!
# The skeleton of the address spaces

The places that refer to physical pages are the page directories of the environments in use, the
entries of these directories and of their page tables, and the page tables of the kernel.  The
pages that hold directories and page tables are their skeleton.
-/

namespace DamnOS.Kernel

open DamnOS.Framework

instance : NeZero NUPDE := ⟨by decide⟩

inductive Slot where
  | dir (i : Fin NENV)
  | pde (i : Fin NENV) (d : Fin NUPDE)
  | pte (i : Fin NENV) (d : Fin NUPDE) (t : Fin 1024)
  | kern (d : Fin 1024)
  deriving DecidableEq, Fintype

/-- The places whose pages belong to the structure of an address space. -/
def Slot.Structural : Slot → Prop
  | .dir _ => True
  | .pde _ _ => True
  | _ => False

instance : DecidablePred Slot.Structural
  | .dir _ => .isTrue trivial
  | .pde _ _ => .isTrue trivial
  | .pte _ _ _ => .isFalse not_false
  | .kern _ => .isFalse not_false

/-- The place of the mapping of an address. -/
def Slot.page (e : Fin NENV) (va : Nat) (h : va < UTOP) : Slot :=
  .pte e ⟨PDX va, PDX_lt_of_lt_UTOP h⟩ ⟨PTX va, PTX_lt va⟩

def named (w : Nat) : Option Nat := if w &&& PTE_P = 0 then none else some (pa2page (PTE_ADDR w))

/-- The page to which a place refers.  The directories of the environments copy the upper part of
`kern_pgdir`; its page tables are counted there. -/
def System.target (s : System) : Slot → Option Nat
  | .dir i => if s.Live i then some (s.envs i).pgdir else none
  | .pde i d => if s.Live i then named (s.pmap.mem (s.envs i).pgdir d) else none
  | .pte i d t =>
    if s.Live i then
      (named (s.pmap.mem (s.envs i).pgdir d)).bind fun pt => named (s.pmap.mem pt t)
    else none
  | .kern d =>
    if d.val = PDX UVPT then none else named (s.pmap.mem s.pmap.kernPgdir d)

/-- An entry that is empty, or present and for a page of `M`. -/
def Proper (M : Nat → Prop) (w : Nat) : Prop :=
  w = 0 ∨ (w &&& PTE_P ≠ 0 ∧ M (pa2page (PTE_ADDR w)))

/-- The pages of `M` are page numbers, and the kernel's directory is not among them. -/
structure Managed (M : Nat → Prop) (kernPgdir : Nat) : Prop where
  zero : ¬ M 0
  small : ∀ p, M p → p < 2 ^ 20
  kern : ¬ M kernPgdir

/-- The page directories and page tables in use consist of proper entries, and no page of them has
another use. -/
structure Shaped (M : Nat → Prop) (s : System) : Prop where
  pages : Managed M s.pmap.kernPgdir
  kernUser : ∀ d < NUPDE, s.pmap.mem s.pmap.kernPgdir d = 0
  dir : ∀ i, s.Live i → M (s.envs i).pgdir
  pde : ∀ i d, s.Live i → d < NUPDE → Proper M (s.pmap.mem (s.envs i).pgdir d)
  pte : ∀ i d t pt, s.Live i → d < NUPDE → t < 1024 →
    named (s.pmap.mem (s.envs i).pgdir d) = some pt → Proper M (s.pmap.mem pt t)
  exclusive : Exclusive Slot.Structural s.target

section Named

variable {M : Nat → Prop} {w p perm : Nat}

@[simp] theorem named_zero : named 0 = none := rfl

theorem named_entry (hp : p < 2 ^ 20) (hperm : perm < 4096) : named (entry p perm) = some p := by
  rw [named, if_neg (entry_present p perm), pa2page_entry hp hperm]

theorem named_eq_some : named w = some p ↔ w &&& PTE_P ≠ 0 ∧ pa2page (PTE_ADDR w) = p := by
  unfold named
  split_ifs with h
  · simp [h]
  · simp [h]

namespace Proper

theorem zero (M : Nat → Prop) : Proper M 0 := .inl rfl

theorem entry (hM : M p) (hp : p < 2 ^ 20) (hperm : perm < 4096) : Proper M (Kernel.entry p perm) :=
  .inr ⟨entry_present p perm, by rwa [pa2page_entry hp hperm]⟩

theorem named (h : Proper M w) (h0 : w ≠ 0) :
    named w = some (pa2page (PTE_ADDR w)) ∧ M (pa2page (PTE_ADDR w)) := by
  rcases h with rfl | ⟨hp, hM⟩
  · exact absurd rfl h0
  · exact ⟨named_eq_some.mpr ⟨hp, rfl⟩, hM⟩

theorem managed (h : Proper M w) (hw : Kernel.named w = some p) : M p := by
  obtain ⟨hp, rfl⟩ := named_eq_some.mp hw
  rcases h with rfl | ⟨-, hM⟩
  · simp at hp
  · exact hM

theorem eq_zero (h : Proper M w) (hw : Kernel.named w = none) : w = 0 := by
  rcases h with rfl | ⟨hp, -⟩
  · rfl
  · simp [Kernel.named, hp] at hw

theorem PTE_ADDR_ne_zero (h : Proper M w) (hz : ¬ M 0) : PTE_ADDR w ≠ 0 ↔ w ≠ 0 := by
  constructor
  · rintro hne rfl
    exact hne rfl
  · intro h0 hz'
    rcases h with rfl | ⟨-, hM⟩
    · exact h0 rfl
    · rw [hz'] at hM
      exact hz hM

end Proper

end Named

/-- The pages that hold directories and page tables. -/
def System.Skeleton (s : System) (p : Nat) : Prop :=
  (∃ x : Slot, x.Structural ∧ s.target x = some p) ∨ p = s.pmap.kernPgdir

theorem target_dir {s : System} {i : Fin NENV} (hi : s.Live i) :
    s.target (.dir i) = some (s.envs i).pgdir := by
  simp [System.target, hi]

theorem target_pde {s : System} {i : Fin NENV} (hi : s.Live i) (d : Fin NUPDE) :
    s.target (.pde i d) = named (s.pmap.mem (s.envs i).pgdir d) := by
  simp [System.target, hi]

theorem target_pte {s : System} {i : Fin NENV} (hi : s.Live i) {d : Fin NUPDE} {pt : Nat}
    (hpt : named (s.pmap.mem (s.envs i).pgdir d) = some pt) (t : Fin 1024) :
    s.target (.pte i d t) = named (s.pmap.mem pt t) := by
  simp [System.target, hi, hpt]

namespace Shaped

variable {M : Nat → Prop} {s : System} {i e : Fin NENV} {d d' t T p w : Nat}

theorem skeleton_dir (hi : s.Live i) : s.Skeleton (s.envs i).pgdir :=
  .inl ⟨.dir i, trivial, target_dir hi⟩

private theorem skeleton_table (hi : s.Live i) (hd : d < NUPDE)
    (hT : named (s.pmap.mem (s.envs i).pgdir d) = some T) : s.Skeleton T :=
  .inl ⟨.pde i ⟨d, hd⟩, trivial, (target_pde hi ⟨d, hd⟩).trans hT⟩

theorem table_managed (h : Shaped M s) (hi : s.Live i) (hd : d < NUPDE)
    (hT : named (s.pmap.mem (s.envs i).pgdir d) = some T) : M T :=
  (h.pde i d hi hd).managed hT

theorem table_ne_dir (h : Shaped M s) (he : s.Live e) (hd : d < NUPDE)
    (hT : named (s.pmap.mem (s.envs e).pgdir d) = some T) (hi : s.Live i) : (s.envs i).pgdir ≠ T := by
  rintro rfl
  have := h.exclusive (.pde e ⟨d, hd⟩) (.dir i) _ trivial ((target_pde he ⟨d, hd⟩).trans hT)
    (target_dir hi)
  simp at this

theorem table_ne_kern (h : Shaped M s) (he : s.Live e) (hd : d < NUPDE)
    (hT : named (s.pmap.mem (s.envs e).pgdir d) = some T) : s.pmap.kernPgdir ≠ T := by
  rintro rfl
  exact h.pages.kern (h.table_managed he hd hT)

theorem dir_ne_kern (h : Shaped M s) (hi : s.Live i) : s.pmap.kernPgdir ≠ (s.envs i).pgdir := by
  intro hk
  exact h.pages.kern (hk ▸ h.dir i hi)

private theorem table_inj (h : Shaped M s) (he : s.Live e) (hd : d < NUPDE)
    (hT : named (s.pmap.mem (s.envs e).pgdir d) = some T) (hi : s.Live i) (hd' : d' < NUPDE)
    (hT' : named (s.pmap.mem (s.envs i).pgdir d') = some T) : i = e ∧ d' = d := by
  have := h.exclusive (.pde e ⟨d, hd⟩) (.pde i ⟨d', hd'⟩) _ trivial
    ((target_pde he ⟨d, hd⟩).trans hT) ((target_pde hi ⟨d', hd'⟩).trans hT')
  simpa using this

private theorem dir_inj (h : Shaped M s) (hi : s.Live i) (he : s.Live e)
    (hg : (s.envs i).pgdir = (s.envs e).pgdir) : i = e := by
  have := h.exclusive (.dir e) (.dir i) _ trivial (target_dir he) (hg ▸ target_dir hi)
  simpa using this

/-- A page without references, or with one from a page table, is not part of the skeleton. -/
theorem not_skeleton (h : Shaped M s) (hM : M p)
    (hp : (∀ x, s.target x ≠ some p) ∨ ∃ x : Slot, ¬ x.Structural ∧ s.target x = some p) :
    ¬ s.Skeleton p := by
  rintro (⟨x, hx, hxp⟩ | rfl)
  · rcases hp with hno | ⟨y, hy, hyp⟩
    · exact hno x hxp
    · exact hy (h.exclusive x y p hx hxp hyp ▸ hx)
  · exact h.pages.kern hM

theorem of_mem (h : Shaped M s) {m : Pmap} (hk : m.kernPgdir = s.pmap.kernPgdir)
    (hm : ∀ p, s.Skeleton p → m.mem p = s.pmap.mem p) :
    ({ s with pmap := m } : System).target = s.target ∧ Shaped M { s with pmap := m } := by
  have hdir (i : Fin NENV) (hi : s.Live i) : m.mem (s.envs i).pgdir = s.pmap.mem (s.envs i).pgdir :=
    hm _ (skeleton_dir hi)
  have hkern : m.mem s.pmap.kernPgdir = s.pmap.mem s.pmap.kernPgdir := hm _ (.inr rfl)
  have htarget : ({ s with pmap := m } : System).target = s.target := by
    funext x
    cases x with
    | dir i => rfl
    | pde i d =>
      by_cases hi : s.Live i
      · have hi' : ({ s with pmap := m } : System).Live i := hi
        rw [target_pde hi, target_pde hi']
        exact congrArg named (congrFun (hdir i hi) _)
      · have hi' : ¬ ({ s with pmap := m } : System).Live i := hi
        simp [System.target, hi, hi']
    | pte i d t =>
      by_cases hi : s.Live i
      · have hi' : ({ s with pmap := m } : System).Live i := hi
        simp only [System.target, hi, hi', if_true, hdir i hi]
        cases hT : named (s.pmap.mem (s.envs i).pgdir d) with
        | none => rfl
        | some T => simp only [Option.bind_some, hm T (skeleton_table hi d.isLt hT)]
      · have hi' : ¬ ({ s with pmap := m } : System).Live i := hi
        simp [System.target, hi, hi']
    | kern d => simp only [System.target, hk, hkern]
  refine ⟨htarget, ⟨?_, ?_, h.dir, ?_, ?_, ?_⟩⟩
  · rw [hk]
    exact h.pages
  · intro d hd
    rw [hk, hkern]
    exact h.kernUser d hd
  · intro i d hi hd
    rw [hdir i hi]
    exact h.pde i d hi hd
  · intro i d t pt hi hd ht hpt
    rw [hdir i hi] at hpt
    rw [hm pt (skeleton_table hi hd hpt)]
    exact h.pte i d t pt hi hd ht hpt
  · rw [htarget]
    exact h.exclusive

theorem storePte (h : Shaped M s) (he : s.Live e) (hd : d < NUPDE) (ht : t < 1024)
    (hT : named (s.pmap.mem (s.envs e).pgdir d) = some T) (hw : Proper M w)
    (hx : Exclusive Slot.Structural
      (Function.update s.target (.pte e ⟨d, hd⟩ ⟨t, ht⟩) (named w))) :
    ({ s with pmap := s.pmap.store T t w } : System).target
        = Function.update s.target (.pte e ⟨d, hd⟩ ⟨t, ht⟩) (named w) ∧
      Shaped M { s with pmap := s.pmap.store T t w } := by
  have hdir (i : Fin NENV) (hi : s.Live i) :
      (s.pmap.store T t w).mem (s.envs i).pgdir = s.pmap.mem (s.envs i).pgdir :=
    Pmap.store_mem_page (h.table_ne_dir he hd hT hi)
  have hkern : (s.pmap.store T t w).mem s.pmap.kernPgdir = s.pmap.mem s.pmap.kernPgdir :=
    Pmap.store_mem_page (h.table_ne_kern he hd hT)
  -- other entries, in this and in other page tables
  have hother {i : Fin NENV} {d' t' T' : Nat} (hi : s.Live i) (hd' : d' < NUPDE)
      (hT' : named (s.pmap.mem (s.envs i).pgdir d') = some T') (hne : ¬ (i = e ∧ d' = d ∧ t' = t)) :
      (s.pmap.store T t w).mem T' t' = s.pmap.mem T' t' := by
    by_cases hTT : T' = T
    · subst hTT
      obtain ⟨rfl, rfl⟩ := h.table_inj he hd hT hi hd' hT'
      exact Pmap.store_mem_word fun htt => hne ⟨rfl, rfl, htt⟩
    · rw [Pmap.store_mem_page hTT]
  have htarget : ({ s with pmap := s.pmap.store T t w } : System).target
      = Function.update s.target (.pte e ⟨d, hd⟩ ⟨t, ht⟩) (named w) := by
    funext x
    cases x with
    | dir i => simp [System.target]; rfl
    | pde i d' =>
      rw [Function.update_of_ne (by simp)]
      by_cases hi : s.Live i
      · have hi' : ({ s with pmap := s.pmap.store T t w } : System).Live i := hi
        rw [target_pde hi, target_pde hi']
        exact congrArg named (congrFun (hdir i hi) _)
      · have hi' : ¬ ({ s with pmap := s.pmap.store T t w } : System).Live i := hi
        simp [System.target, hi, hi']
    | pte i d' t' =>
      by_cases hi : s.Live i
      · have hi' : ({ s with pmap := s.pmap.store T t w } : System).Live i := hi
        by_cases hslot : i = e ∧ d'.val = d ∧ t'.val = t
        · obtain ⟨rfl, hd', ht'⟩ := hslot
          have hdd : d' = ⟨d, hd⟩ := Fin.ext hd'
          have htt : t' = ⟨t, ht⟩ := Fin.ext ht'
          subst hdd
          subst htt
          have hpt : named ((s.pmap.store T t w).mem (s.envs i).pgdir d) = some T :=
            (congrArg named (congrFun (hdir i hi) _)).trans hT
          rw [Function.update_self, target_pte hi' hpt]
          exact congrArg named (Pmap.store_mem_self ..)
        · rw [Function.update_of_ne (by
            intro hxx
            simp only [Slot.pte.injEq] at hxx
            exact hslot ⟨hxx.1, congrArg Fin.val hxx.2.1, congrArg Fin.val hxx.2.2⟩)]
          simp only [System.target, hi, hi', if_true, hdir i hi]
          cases hT' : named (s.pmap.mem (s.envs i).pgdir d') with
          | none => rfl
          | some T' => simp only [Option.bind_some, hother hi d'.isLt hT' hslot]
      · have hi' : ¬ ({ s with pmap := s.pmap.store T t w } : System).Live i := hi
        have hne : Slot.pte i d' t' ≠ .pte e ⟨d, hd⟩ ⟨t, ht⟩ := by
          intro hxx
          simp only [Slot.pte.injEq] at hxx
          exact hi (hxx.1 ▸ he)
        rw [Function.update_of_ne hne]
        simp [System.target, hi, hi']
    | kern d' =>
      rw [Function.update_of_ne (by simp)]
      simp only [System.target]
      rw [show (s.pmap.store T t w).kernPgdir = s.pmap.kernPgdir by rfl, hkern]
  refine ⟨htarget, h.pages, ?_, h.dir, ?_, ?_, ?_⟩
  · intro d' hd'
    exact (congrFun hkern d').trans (h.kernUser d' hd')
  · intro i d' hi hd'
    rw [hdir i hi]
    exact h.pde i d' hi hd'
  · intro i d' t' T' hi hd' ht' hT'
    rw [hdir i hi] at hT'
    by_cases hslot : i = e ∧ d' = d ∧ t' = t
    · obtain ⟨rfl, rfl, rfl⟩ := hslot
      obtain rfl : T = T' := Option.some.inj (hT.symm.trans hT')
      rwa [Pmap.store_mem_self]
    · rw [hother hi hd' hT' hslot]
      exact h.pte i d' t' T' hi hd' ht' hT'
  · rw [htarget]
    exact hx

/-- An entry of a page directory is written, for an empty page table or none; the page table that it
named before has no entries. -/
theorem storePde (h : Shaped M s) (he : s.Live e) (hd : d < NUPDE) (hw : Proper M w)
    (hold : ∀ t, s.target (.pte e ⟨d, hd⟩ t) = none)
    (hnew : ∀ pt, named w = some pt → pt ≠ (s.envs e).pgdir ∧ ∀ t < 1024, s.pmap.mem pt t = 0)
    (hx : Exclusive Slot.Structural (Function.update s.target (.pde e ⟨d, hd⟩) (named w))) :
    ({ s with pmap := s.pmap.store (s.envs e).pgdir d w } : System).target
        = Function.update s.target (.pde e ⟨d, hd⟩) (named w) ∧
      Shaped M { s with pmap := s.pmap.store (s.envs e).pgdir d w } := by
  have hdir {i : Fin NENV} {d' : Nat} (hi : s.Live i) (hne : ¬ (i = e ∧ d' = d)) :
      (s.pmap.store (s.envs e).pgdir d w).mem (s.envs i).pgdir d'
        = s.pmap.mem (s.envs i).pgdir d' := by
    by_cases hg : (s.envs i).pgdir = (s.envs e).pgdir
    · exact Pmap.store_mem_word fun hdd => hne ⟨h.dir_inj hi he hg, hdd⟩
    · rw [Pmap.store_mem_page hg]
  have hself : (s.pmap.store (s.envs e).pgdir d w).mem (s.envs e).pgdir d = w :=
    Pmap.store_mem_self ..
  have hkern : (s.pmap.store (s.envs e).pgdir d w).mem s.pmap.kernPgdir
      = s.pmap.mem s.pmap.kernPgdir :=
    Pmap.store_mem_page (h.dir_ne_kern he)
  have htable {i : Fin NENV} {d' T' : Nat} (hi : s.Live i) (hd' : d' < NUPDE)
      (hT' : named (s.pmap.mem (s.envs i).pgdir d') = some T') :
      (s.pmap.store (s.envs e).pgdir d w).mem T' = s.pmap.mem T' :=
    Pmap.store_mem_page (h.table_ne_dir hi hd' hT' he).symm
  have hempty {pt : Nat} (hpt : named w = some pt) (t : Nat) (ht : t < 1024) :
      (s.pmap.store (s.envs e).pgdir d w).mem pt t = 0 := by
    obtain ⟨hne, hz⟩ := hnew pt hpt
    rw [Pmap.store_mem_page hne]
    exact hz t ht
  have htarget : ({ s with pmap := s.pmap.store (s.envs e).pgdir d w } : System).target
      = Function.update s.target (.pde e ⟨d, hd⟩) (named w) := by
    funext x
    cases x with
    | dir i => simp [System.target]; rfl
    | pde i d' =>
      by_cases hi : s.Live i
      · have hi' : ({ s with pmap := s.pmap.store (s.envs e).pgdir d w } : System).Live i := hi
        rw [target_pde hi']
        by_cases hslot : i = e ∧ d'.val = d
        · obtain ⟨rfl, hd'⟩ := hslot
          have hdd : d' = ⟨d, hd⟩ := Fin.ext hd'
          subst hdd
          rw [Function.update_self]
          exact congrArg named hself
        · rw [Function.update_of_ne (by
            intro hxx
            simp only [Slot.pde.injEq] at hxx
            exact hslot ⟨hxx.1, congrArg Fin.val hxx.2⟩), target_pde hi]
          exact congrArg named (hdir hi hslot)
      · have hi' : ¬ ({ s with pmap := s.pmap.store (s.envs e).pgdir d w } : System).Live i := hi
        have hne : Slot.pde i d' ≠ .pde e ⟨d, hd⟩ := by
          intro hxx
          simp only [Slot.pde.injEq] at hxx
          exact hi (hxx.1 ▸ he)
        rw [Function.update_of_ne hne]
        simp [System.target, hi, hi']
    | pte i d' t =>
      rw [Function.update_of_ne (by simp)]
      by_cases hi : s.Live i
      · have hi' : ({ s with pmap := s.pmap.store (s.envs e).pgdir d w } : System).Live i := hi
        by_cases hslot : i = e ∧ d'.val = d
        · obtain ⟨rfl, hd'⟩ := hslot
          have hdd : d' = ⟨d, hd⟩ := Fin.ext hd'
          subst hdd
          rw [hold t]
          simp only [System.target, hi', if_true, hself]
          cases hpt : named w with
          | none => rfl
          | some pt => simp [hempty hpt t t.isLt]
        · simp only [System.target, hi, hi', if_true, hdir hi hslot]
          cases hT' : named (s.pmap.mem (s.envs i).pgdir d') with
          | none => rfl
          | some T' => simp only [Option.bind_some, htable hi d'.isLt hT']
      · have hi' : ¬ ({ s with pmap := s.pmap.store (s.envs e).pgdir d w } : System).Live i := hi
        simp [System.target, hi, hi']
    | kern d' =>
      rw [Function.update_of_ne (by simp)]
      simp only [System.target]
      rw [show (s.pmap.store (s.envs e).pgdir d w).kernPgdir = s.pmap.kernPgdir by rfl, hkern]
  refine ⟨htarget, h.pages, ?_, h.dir, ?_, ?_, ?_⟩
  · intro d' hd'
    exact (congrFun hkern d').trans (h.kernUser d' hd')
  · intro i d' hi hd'
    by_cases hslot : i = e ∧ d' = d
    · obtain ⟨rfl, rfl⟩ := hslot
      rwa [hself]
    · rw [hdir hi hslot]
      exact h.pde i d' hi hd'
  · intro i d' t T' hi hd' ht hT'
    by_cases hslot : i = e ∧ d' = d
    · obtain ⟨rfl, rfl⟩ := hslot
      rw [hself] at hT'
      rw [hempty hT' t ht]
      exact .zero M
    · rw [hdir hi hslot] at hT'
      rw [htable hi hd' hT']
      exact h.pte i d' t T' hi hd' ht hT'
  · rw [htarget]
    exact hx

theorem of_sameDirs {t : System} (h : Shaped M s) (hd : SameDirs s t) (hm : t.pmap = s.pmap) :
    t.target = s.target ∧ Shaped M t := by
  have htarget : t.target = s.target := by
    funext x
    cases x with
    | dir i | pde i d | pte i d t' => simp only [System.target, hd.live, hd.pgdir, hm]
    | kern d => simp only [System.target, hm]
  refine ⟨htarget, ⟨?_, ?_, fun i hi => ?_, fun i d hi => ?_, fun i d t' pt hi => ?_, ?_⟩⟩
  · rw [hm]
    exact h.pages
  · rw [hm]
    exact h.kernUser
  · rw [hd.pgdir]
    exact h.dir i ((hd.live i).mp hi)
  · rw [hd.pgdir, hm]
    exact h.pde i d ((hd.live i).mp hi)
  · rw [hd.pgdir, hm]
    exact h.pte i d t' pt ((hd.live i).mp hi)
  · rw [htarget]
    exact h.exclusive

/-- A slot of `envs` changes hands; the user part of its address space is empty before and after. -/
theorem setEnv {v : Env} {l o : Option (Fin NENV)} (h : Shaped M s)
    (hold : s.Live e → ∀ d < NUPDE, s.pmap.mem (s.envs e).pgdir d = 0)
    (hnew : v.status ≠ .free → M v.pgdir ∧ ∀ d < NUPDE, s.pmap.mem v.pgdir d = 0)
    (hx : Exclusive Slot.Structural (Function.update s.target (.dir e)
      (if v.status ≠ .free then some v.pgdir else none))) :
    (⟨s.pmap, Function.update s.envs e v, l, o⟩ : System).target
        = Function.update s.target (.dir e) (if v.status ≠ .free then some v.pgdir else none) ∧
      Shaped M ⟨s.pmap, Function.update s.envs e v, l, o⟩ := by
  have hne {i : Fin NENV} (hi : i ≠ e) :
      ((⟨s.pmap, Function.update s.envs e v, l, o⟩ : System).envs i) = s.envs i :=
    Function.update_of_ne hi _ _
  have hself : ((⟨s.pmap, Function.update s.envs e v, l, o⟩ : System).envs e) = v :=
    Function.update_self _ _ _
  generalize hs' : (⟨s.pmap, Function.update s.envs e v, l, o⟩ : System) = s' at hne hself ⊢
  have hm : s'.pmap = s.pmap := by rw [← hs']
  have hlive {i : Fin NENV} (hi : i ≠ e) : s'.Live i ↔ s.Live i := by
    rw [System.Live, System.Live, hne hi]
  have hlive_self : s'.Live e ↔ v.status ≠ .free := by rw [System.Live, hself]
  -- the user part of the space in the slot
  have hzero (he : s'.Live e) (d : Nat) (hd : d < NUPDE) : s'.pmap.mem (s'.envs e).pgdir d = 0 := by
    rw [hself, hm]
    exact (hnew (hlive_self.mp he)).2 d hd
  have htarget : s'.target = Function.update s.target (.dir e)
      (if v.status ≠ .free then some v.pgdir else none) := by
    funext x
    cases x with
    | dir i =>
      by_cases hi : i = e
      · subst hi
        simp only [Function.update_self, System.target, hlive_self, hself]
      · rw [Function.update_of_ne (by simpa using hi)]
        simp only [System.target, hlive hi, hne hi]
    | pde i d =>
      rw [Function.update_of_ne (by simp)]
      by_cases hi : i = e
      · subst hi
        have hnow : s'.target (.pde i d) = none := by
          simp only [System.target]
          split_ifs with hl
          · rw [hzero hl d d.isLt, named_zero]
          · rfl
        have hthen : s.target (.pde i d) = none := by
          simp only [System.target]
          split_ifs with hl
          · rw [hold hl d d.isLt, named_zero]
          · rfl
        rw [hnow, hthen]
      · simp only [System.target, hlive hi, hne hi, hm]
    | pte i d t =>
      rw [Function.update_of_ne (by simp)]
      by_cases hi : i = e
      · subst hi
        have hnow : s'.target (.pte i d t) = none := by
          simp only [System.target]
          split_ifs with hl
          · rw [hzero hl d d.isLt, named_zero, Option.bind_none]
          · rfl
        have hthen : s.target (.pte i d t) = none := by
          simp only [System.target]
          split_ifs with hl
          · rw [hold hl d d.isLt, named_zero, Option.bind_none]
          · rfl
        rw [hnow, hthen]
      · simp only [System.target, hlive hi, hne hi, hm]
    | kern d =>
      rw [Function.update_of_ne (by simp)]
      simp only [System.target, hm]
  refine ⟨htarget, ⟨?_, ?_, fun i hi => ?_, fun i d hi hd => ?_, fun i d t pt hi hd ht hpt => ?_, ?_⟩⟩
  · rw [hm]
    exact h.pages
  · rw [hm]
    exact h.kernUser
  · by_cases hie : i = e
    · subst hie
      rw [hself]
      exact (hnew (hlive_self.mp hi)).1
    · rw [hne hie]
      exact h.dir i ((hlive hie).mp hi)
  · by_cases hie : i = e
    · subst hie
      rw [hzero hi d hd]
      exact .zero M
    · rw [hne hie, hm]
      exact h.pde i d ((hlive hie).mp hi) hd
  · by_cases hie : i = e
    · subst hie
      rw [hzero hi d hd] at hpt
      simp at hpt
    · rw [hne hie, hm] at hpt
      rw [hm]
      exact h.pte i d t pt ((hlive hie).mp hi) hd ht hpt
  · rw [htarget]
    exact hx

end Shaped

end DamnOS.Kernel
