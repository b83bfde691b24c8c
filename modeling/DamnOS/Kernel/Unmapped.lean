import DamnOS.Kernel.Boot

/-!
# Addresses without a page

`page_lookup` returns no page only where the page table is missing; an empty entry of a page table
names physical page 0 like any other.  Three system calls rely on the answer.
-/

namespace DamnOS.Kernel

/-- The caller `c` names the address `va` of `e` as a source, in a call that is in order otherwise. -/
inductive Call.Names (s : System) (c e : Fin NENV) (va : BitVec 32) : Call → Prop
  | map {srcenvid dstenvid dstva perm : BitVec 32} {dst : Fin NENV}
      (hsrc : s.envid2env c srcenvid true = some e) (hdst : s.envid2env c dstenvid true = some dst) :
      Names s c e va (.pageMap srcenvid va dstenvid dstva perm)
  | send {envid value perm : BitVec 32} {d : Fin NENV} (hc : c = e)
      (hd : s.envid2env c envid false = some d) (hrecv : (s.envs d).ipcRecving = true) :
      Names s c e va (.ipcTrySend envid value va perm)
  | unmap {envid : BitVec 32} (he : s.envid2env c envid true = some e) :
      Names s c e va (.pageUnmap envid va)

/-- What a call about an address without a page has to return. -/
def Call.unmappedResult : Call → Int
  | .pageUnmap _ _ => 0
  | _ => -E_INVAL

/-- Every call of the list that names the address finds no page there, and leaves memory, the counts
and the free list as they are. -/
def Unmapped (e : Fin NENV) (va : BitVec 32) : System → List (Fin NENV × Call) → Prop
  | _, [] => True
  | s, (c, a) :: calls =>
    a.Names s c e va →
      ∃ t, a.exec s c = .returns a.unmappedResult t ∧ t.pmap = s.pmap ∧ Unmapped e va t calls

section Missing

variable {s : System} {c e : Fin NENV} {va : BitVec 32}

private theorem sysPageMap_missing {srcenvid dstenvid dstva perm : BitVec 32} {dst : Fin NENV}
    (hsrc : s.envid2env c srcenvid true = some e) (hdst : s.envid2env c dstenvid true = some dst)
    (h0 : s.pmap.mem (s.envs e).pgdir (PDX va.toNat) = 0) :
    s.sysPageMap c srcenvid va dstenvid dstva perm = .returns (-E_INVAL) s := by
  unfold System.sysPageMap
  simp only [hsrc, hdst, Pmap.pageLookup_missing h0]
  split
  · rfl
  · rfl

private theorem sysPageUnmap_missing {envid : BitVec 32} (he : s.envid2env c envid true = some e)
    (hva : pageAddr va.toNat = true) (h0 : s.pmap.mem (s.envs e).pgdir (PDX va.toNat) = 0) :
    s.sysPageUnmap c envid va = .returns 0 s := by
  simp [System.sysPageUnmap, he, hva, Pmap.pageRemove, Pmap.pageLookup_missing h0]

private theorem sysIpcTrySend_missing {envid value perm : BitVec 32} {d : Fin NENV}
    (hd : s.envid2env e envid false = some d) (hrecv : (s.envs d).ipcRecving = true)
    (hva : pageAddr va.toNat = true) (h0 : s.pmap.mem (s.envs e).pgdir (PDX va.toNat) = 0) :
    s.sysIpcTrySend e envid value va perm
      = .returns (-E_INVAL) (s.setEnv d { s.envs d with ipcRecving := false }) := by
  have hlt := pageAddr_lt hva
  have hdir : ((s.setEnv d { s.envs d with ipcRecving := false }).envs e).pgdir = (s.envs e).pgdir := by
    by_cases hed : e = d
    · subst hed
      simp [System.setEnv]
    · rw [System.setEnv_envs_of_ne s hed]
  have hlook : (s.setEnv d { s.envs d with ipcRecving := false }).pmap.pageLookup
      ((s.setEnv d { s.envs d with ipcRecving := false }).envs e).pgdir va.toNat = none := by
    rw [hdir]
    exact Pmap.pageLookup_missing h0
  unfold System.sysIpcTrySend
  simp only [hd, hrecv, Bool.true_eq_false, if_false, hlt, if_true]
  unfold System.sendPage
  rw [hlook]
  split
  · rfl
  · split
    · rfl
    · rfl

theorem Call.Names.missing {a : Call} (ha : a.Names s c e va) (hva : pageAddr va.toNat = true)
    (h0 : s.pmap.mem (s.envs e).pgdir (PDX va.toNat) = 0) :
    ∃ t, a.exec s c = .returns a.unmappedResult t ∧ t.pmap = s.pmap ∧
      (t.envs e).pgdir = (s.envs e).pgdir := by
  cases ha with
  | map hsrc hdst => exact ⟨s, sysPageMap_missing hsrc hdst h0, rfl, rfl⟩
  | @send envid value perm d hc hd hrecv =>
    subst hc
    refine ⟨_, sysIpcTrySend_missing hd hrecv hva h0, rfl, ?_⟩
    by_cases hcd : c = d
    · subst hcd
      simp [System.setEnv]
    · rw [System.setEnv_envs_of_ne s hcd]
  | unmap he => exact ⟨s, sysPageUnmap_missing he hva h0, rfl, rfl⟩

private theorem unmapped_of_missing (hva : pageAddr va.toNat = true) (calls : List (Fin NENV × Call))
    (h0 : s.pmap.mem (s.envs e).pgdir (PDX va.toNat) = 0) : Unmapped e va s calls := by
  induction calls generalizing s with
  | nil => trivial
  | cons x calls ih =>
    obtain ⟨c, a⟩ := x
    intro ha
    obtain ⟨t, hexec, hpmap, hdir⟩ := ha.missing hva h0
    refine ⟨t, hexec, hpmap, ih ?_⟩
    rw [hpmap, hdir]
    exact h0

end Missing

private theorem Pmap.pageDecref_ppRef_ne {m m' : Pmap} {p : Nat} (h : m.pageDecref p = some m') :
    m'.ppRef p ≠ m.ppRef p := by
  have hval : (m.setRef p (m.ppRef p + 65535)).ppRef p = (m.ppRef p + 65535) % 65536 := by
    simp [setRef]
  unfold pageDecref at h
  simp only at h
  split at h
  · unfold pageFree at h
    split_ifs at h
    rw [← Option.some.inj h]
    simp only
    omega
  · rw [← Option.some.inj h]
    omega

/-- An address is taken for unmapped, by any calls in any order, if and only if it has no page
table. -/
theorem unmapped_iff (s : System) (e : Fin NENV) (va : BitVec 32) (hva : pageAddr va.toNat = true) :
    (∀ calls, Unmapped e va s calls) ↔ s.pmap.mem (s.envs e).pgdir (PDX va.toNat) = 0 := by
  constructor
  · intro hall
    by_contra h0
    -- unmapping it already changes the count of the page that the entry names
    obtain ⟨t, hexec, hpmap, -⟩ := hall [(e, .pageUnmap 0 va)] (.unmap rfl)
    have hown : s.envid2env e 0 true = some e := rfl
    change s.sysPageUnmap e 0 va = _ at hexec
    simp only [System.sysPageUnmap, hown, hva, Bool.not_true, Bool.false_eq_true, if_false,
      Pmap.pageRemove, Pmap.pageLookup_found h0] at hexec
    cases hdec : s.pmap.pageDecref
        (pa2page (PTE_ADDR (s.pmap.mem (s.pmap.tableOf (s.envs e).pgdir va.toNat) (PTX va.toNat)))) with
    | none => simp [hdec] at hexec
    | some m =>
      simp only [hdec, Option.map_some] at hexec
      obtain ⟨-, rfl⟩ := Outcome.returns.inj hexec
      exact Pmap.pageDecref_ppRef_ne hdec (by rw [← hpmap]; rfl)
  · intro h0 calls
    exact unmapped_of_missing hva calls h0

theorem unmapped_program :
    pageAddr (0xC00000 : BitVec 32).toNat = true ∧ ∀ calls, Unmapped 1 0xC00000 sampleSystem calls :=
  ⟨by decide, (unmapped_iff sampleSystem 1 0xC00000 (by decide)).mpr (by decide)⟩

/-- The third entry of the program's page table is empty. -/
theorem empty_entry_mapped : ¬ ∀ (s : System) (e : Fin NENV) (va : BitVec 32), s.Live e →
    pageAddr va.toNat = true → s.pmap.mapping (s.envs e).pgdir va.toNat = none →
      ∀ calls, Unmapped e va s calls := by
  intro hall
  obtain ⟨t, hexec, -⟩ := hall sampleSystem 1 0x802000 (by decide) (by decide) (by decide)
    [(1, .pageMap 0 0x802000 0 0x803000 5)] (.map rfl rfl)
  have hmaps : ∃ u, (Call.pageMap 0 0x802000 0 0x803000 5).exec sampleSystem 1 = .returns 0 u := ⟨_, rfl⟩
  obtain ⟨u, hu⟩ := hmaps
  rw [hu] at hexec
  exact absurd (Outcome.returns.inj hexec).1 (by decide)

end DamnOS.Kernel
