import DamnOS.Kernel.Accounting

/-!
# Conservation of physical pages

Every page that was free after `page_init` is counted exactly and is on the free list when it has
no references, along all runs that do not hand an empty entry to the page operations and do not
exceed sixteen bits.
-/

namespace DamnOS.Kernel

open DamnOS.Framework

/-- The entry for an address whose page table exists. -/
def System.pte (s : System) (e : Fin NENV) (va : Nat) : Nat :=
  s.pmap.mem (s.pmap.tableOf (s.envs e).pgdir va) (PTX va)

/-- There is a page table for the address. -/
def System.HasTable (s : System) (e : Fin NENV) (va : Nat) : Prop :=
  s.pmap.mem (s.envs e).pgdir (PDX va) ≠ 0

/-- The call copies the entry of one environment to another: it passes all checks, and
`page_lookup` finds a page table. -/
inductive Call.Copies (s : System) (c : Fin NENV) : Call → Fin NENV → Nat → Fin NENV → Nat → Prop
  | map {srcenvid srcva dstenvid dstva perm : BitVec 32} {src dst : Fin NENV}
      (hsrc : s.envid2env c srcenvid true = some src) (hdst : s.envid2env c dstenvid true = some dst)
      (hsva : pageAddr srcva.toNat = true) (hdva : pageAddr dstva.toNat = true)
      (hperm : permValid perm.toNat = true) (htable : s.HasTable src srcva.toNat) :
      Call.Copies s c (.pageMap srcenvid srcva dstenvid dstva perm) src srcva.toNat dst dstva.toNat
  | send {envid value srcva perm : BitVec 32} {e : Fin NENV}
      (he : s.envid2env c envid false = some e) (hrecv : (s.envs e).ipcRecving = true)
      (hsva : pageAddr srcva.toNat = true) (hdva : (s.envs e).ipcDstva < UTOP)
      (hperm : permValid perm.toNat = true) (htable : s.HasTable c srcva.toNat)
      (hw : ¬ (perm.toNat &&& PTE_W ≠ 0 ∧ s.pte c srcva.toNat &&& PTE_W = 0)) :
      Call.Copies s c (.ipcTrySend envid value srcva perm) c srcva.toNat e (s.envs e).ipcDstva

/-- The entry is not empty, and its page can be counted once more or is mapped there already. -/
def System.CanCopy (s : System) (src : Fin NENV) (srcva : Nat) (dst : Fin NENV) (dstva : Nat) :
    Prop :=
  s.pte src srcva ≠ 0 ∧
    (s.pmap.ppRef (pa2page (PTE_ADDR (s.pte src srcva))) < 65535 ∨
      ∃ w, s.pmap.mapping (s.envs dst).pgdir dstva = some w ∧
        pa2page (PTE_ADDR w) = pa2page (PTE_ADDR (s.pte src srcva)))

namespace SameDirs

variable {s t : System}

theorem pte (h : SameDirs s t) (hm : t.pmap = s.pmap) (e : Fin NENV) (va : Nat) :
    t.pte e va = s.pte e va := by
  rw [System.pte, System.pte, hm, h.pgdir]

private theorem hasTable (h : SameDirs s t) (hm : t.pmap = s.pmap) (e : Fin NENV) (va : Nat) :
    t.HasTable e va ↔ s.HasTable e va := by
  rw [System.HasTable, System.HasTable, hm, h.pgdir]

private theorem canCopy (h : SameDirs s t) (hm : t.pmap = s.pmap) (src dst : Fin NENV) (srcva dstva : Nat) :
    t.CanCopy src srcva dst dstva ↔ s.CanCopy src srcva dst dstva := by
  rw [System.CanCopy, System.CanCopy, h.pte hm, hm, h.pgdir]

end SameDirs

/-- No empty entry of an existing page table is unmapped or copied, and no count overflows. -/
structure Call.Tidy (s : System) (c : Fin NENV) (a : Call) : Prop where
  unmap : ∀ envid va e, a = .pageUnmap envid va → s.envid2env c envid true = some e →
    pageAddr va.toNat = true → s.HasTable e va.toNat → s.pte e va.toNat ≠ 0
  copy : ∀ src srcva dst dstva, a.Copies s c src srcva dst dstva → s.CanCopy src srcva dst dstva

def Event.Tidy (i : Event) (s : System) : Prop :=
  ∀ a c, i = .call a → s.curenv = some c → a.Tidy s c

namespace Booked

variable {M : Nat → Prop} {s t : System} {c e : Fin NENV}

/-- `page_free(NULL)` clears a word of a page that the caller maps. -/
theorem pageFreeNull (h : Booked M none s) (hc : s.Live c) (hq : s.pmap.pageFreeList = none)
    (ht : s.pageFreeNull c = some t) : Booked M none t := by
  simp only [System.pageFreeNull] at ht
  split_ifs at ht with hp
  obtain rfl := Option.some.inj ht
  rw [not_or] at hp
  have hmap : s.pmap.mapping (s.envs c).pgdir 0 = some _ :=
    Pmap.mapping_eq_some.mpr ⟨hp.1, rfl, hp.2⟩
  have hskel := h.mapped_not_skeleton hc (by decide) hmap
  have hlist (m : Pmap) (hm : m.pageFreeList = none) (hb : Booked M none { s with pmap := m }) :
      Booked M none { s with pmap := { m with pageFreeList := none } } := by
    cases m
    cases hm
    exact hb
  exact hlist _ hq (h.storeData hskel)

theorem sysPageAlloc {envid va perm : BitVec 32} (h : Booked M none s) (hc : s.Live c)
    (ho : (s.sysPageAlloc c envid va perm).state? = some t) : Booked M none t := by
  unfold System.sysPageAlloc at ho
  split at ho
  · exact Option.some.inj ho ▸ h
  · next e he =>
    have hlive := live_of_envid2env he hc
    split at ho
    · exact Option.some.inj ho ▸ h
    · next hcheck =>
      simp only [Bool.or_eq_true, Bool.not_eq_true', not_or, Bool.not_eq_false] at hcheck
      cases hq : s.pmap.pageFreeList with
      | none =>
        rw [Pmap.pageAlloc_none hq] at ho
        dsimp only at ho
        split at ho
        · simp [Outcome.state?] at ho
        · next u hu => exact Option.some.inj ho ▸ h.pageFreeNull hc hq hu
      | some q =>
        rw [Pmap.pageAlloc_some hq] at ho
        obtain ⟨-, htaken⟩ := h.take hq
        obtain ⟨xs, hl⟩ := htaken.ledger
        obtain ⟨hM, h0⟩ := hl.held_free q rfl
        dsimp only at ho
        split at ho
        · simp [Outcome.state?] at ho
        · next m hm =>
          obtain rfl := Option.some.inj ho
          exact (htaken.pageInsert hlive (pageAddr_lt hcheck.1) hM (.inr rfl)
            (permValid_lt hcheck.2) (.inl (by omega)) hm).1
        · next m hm =>
          rcases Pmap.pageInsert_cases hm with ⟨-, rfl, -⟩ | ⟨hb, -⟩
          · split at ho
            · simp [Outcome.state?] at ho
            · next m hm =>
              obtain rfl := Option.some.inj ho
              exact (htaken.giveBack hm).2
          · simp at hb

theorem copied {src dst : Fin NENV} {srcva dstva perm : Nat} {b : Bool} {m : Pmap}
    (h : Booked M none s) (hsrc : s.Live src) (hdst : s.Live dst) (hsva : srcva < UTOP)
    (hdva : dstva < UTOP) (hperm : perm < 4096) (htable : s.HasTable src srcva)
    (hok : s.CanCopy src srcva dst dstva)
    (hm : s.pmap.pageInsert (s.envs dst).pgdir (pa2page (PTE_ADDR (s.pte src srcva))) dstva perm
      = some (b, m)) : Booked M none { s with pmap := m } := by
  obtain ⟨h0, hcount⟩ := hok
  cases b with
  | false =>
    rcases Pmap.pageInsert_cases hm with ⟨-, rfl, -⟩ | ⟨hb, -⟩
    · exact h
    · simp at hb
  | true =>
    obtain ⟨-, hproper, hslot⟩ := h.table hsrc hsva htable
    obtain ⟨hname, hM⟩ := hproper.named h0
    obtain ⟨xs, hl⟩ := h.ledger
    refine (h.pageInsert hdst hdva hM (.inl ⟨rfl, Slot.page src srcva hsva, not_false,
      hslot.trans hname⟩) hperm ?_ hm).1
    rcases hcount with hlt | ⟨w, hw, hwp⟩
    · rw [← hl.count _ hM]
      exact .inl hlt
    · exact .inr ((target_of_mapping hdst hdva hw).trans (congrArg some hwp))

theorem sysPageMap {srcenvid srcva dstenvid dstva perm : BitVec 32} (h : Booked M none s)
    (hc : s.Live c) (htidy : (Call.pageMap srcenvid srcva dstenvid dstva perm).Tidy s c)
    (ho : (s.sysPageMap c srcenvid srcva dstenvid dstva perm).state? = some t) :
    Booked M none t := by
  unfold System.sysPageMap at ho
  split at ho
  · exact Option.some.inj ho ▸ h
  · next src hsrc =>
    split at ho
    · exact Option.some.inj ho ▸ h
    · next dst hdst =>
      split at ho
      · exact Option.some.inj ho ▸ h
      · next hcheck =>
        simp only [Bool.or_eq_true, Bool.not_eq_true', not_or, Bool.not_eq_false] at hcheck
        obtain ⟨⟨hsva, hdva⟩, hperm⟩ := hcheck
        by_cases htable : s.HasTable src srcva.toNat
        · rw [Pmap.pageLookup_found htable] at ho
          dsimp only at ho
          split at ho
          · exact Option.some.inj ho ▸ h
          · have hcopy {b : Bool} {m : Pmap} := h.copied (b := b) (m := m)
              (live_of_envid2env hsrc hc) (live_of_envid2env hdst hc) (pageAddr_lt hsva)
              (pageAddr_lt hdva) (permValid_lt hperm) htable
              (htidy.copy _ _ _ _ (.map hsrc hdst hsva hdva hperm htable))
            split at ho
            · simp [Outcome.state?] at ho
            · next m hm => exact Option.some.inj ho ▸ hcopy hm
            · next m hm => exact Option.some.inj ho ▸ hcopy hm
        · rw [Pmap.pageLookup_missing (not_not.mp htable)] at ho
          exact Option.some.inj ho ▸ h

theorem sysPageUnmap {envid va : BitVec 32} (h : Booked M none s) (hc : s.Live c)
    (htidy : (Call.pageUnmap envid va).Tidy s c)
    (ho : (s.sysPageUnmap c envid va).state? = some t) : Booked M none t := by
  unfold System.sysPageUnmap at ho
  split at ho
  · exact Option.some.inj ho ▸ h
  · next e he =>
    split at ho
    · exact Option.some.inj ho ▸ h
    · next hcheck =>
      simp only [Bool.not_eq_true', Bool.not_eq_false] at hcheck
      split at ho
      · simp [Outcome.state?] at ho
      · next m hm =>
        exact Option.some.inj ho ▸ (h.pageRemove (live_of_envid2env he hc) (pageAddr_lt hcheck)
          (htidy.unmap envid va e rfl he hcheck) hm).2

theorem deliver (h : Booked M none s) (he : s.Live e) (value : BitVec 32) :
    Booked M none (s.deliver c e value) := by
  have hsame : SameDirs s (s.deliver c e value) := .update rfl ⟨fun _ => he, fun _ => by simp⟩
  exact h.of_sameDirs hsame rfl

theorem sendPage {value srcva perm : BitVec 32} (h : Booked M none s) (hc : s.Live c)
    (he : s.Live e) (hsva : srcva.toNat < UTOP)
    (hcopy : pageAddr srcva.toNat = true → (s.envs e).ipcDstva < UTOP →
      permValid perm.toNat = true → s.HasTable c srcva.toNat →
      ¬ (perm.toNat &&& PTE_W ≠ 0 ∧ s.pte c srcva.toNat &&& PTE_W = 0) →
      s.CanCopy c srcva.toNat e (s.envs e).ipcDstva)
    (ho : (s.sendPage c e value srcva perm).state? = some t) : Booked M none t := by
  unfold System.sendPage at ho
  split at ho
  · exact Option.some.inj ho ▸ h
  · next halign =>
    have haddr : pageAddr srcva.toNat = true := by
      simp [pageAddr, hsva, not_not.mp halign]
    split at ho
    · exact Option.some.inj ho ▸ h
    · next hcheck =>
      have hperm : permValid perm.toNat = true := by simpa using hcheck
      by_cases htable : s.HasTable c srcva.toNat
      · rw [Pmap.pageLookup_found htable] at ho
        dsimp only at ho
        split at ho
        · exact Option.some.inj ho ▸ h
        · next hw =>
          split at ho
          · next hdva =>
            have hcopied {b : Bool} {m : Pmap} := h.copied (b := b) (m := m) hc he hsva hdva
              (permValid_lt hperm) htable (hcopy haddr hdva hperm htable hw)
            split at ho
            · simp [Outcome.state?] at ho
            · next m hm =>
              have hsame : SameDirs { s with pmap := m }
                  ⟨m, Function.update s.envs e { s.envs e with ipcPerm := 0 }, s.envFreeList,
                    s.curenv⟩ := .update rfl Iff.rfl
              exact Option.some.inj ho ▸ (hcopied hm).of_sameDirs hsame rfl
            · next m hm =>
              have hsame : SameDirs { s with pmap := m }
                  ⟨m, Function.update s.envs e { s.envs e with ipcPerm := perm.toNat }, s.envFreeList,
                    s.curenv⟩ := .update rfl Iff.rfl
              exact Option.some.inj ho ▸
                ((hcopied hm).of_sameDirs hsame rfl).deliver ((hsame.live e).mpr he) value
          · exact Option.some.inj ho ▸ h.deliver he value
      · rw [Pmap.pageLookup_missing (not_not.mp htable)] at ho
        exact Option.some.inj ho ▸ h

theorem sysIpcTrySend {envid value srcva perm : BitVec 32} (h : Booked M none s) (hc : s.Live c)
    (htidy : (Call.ipcTrySend envid value srcva perm).Tidy s c)
    (ho : (s.sysIpcTrySend c envid value srcva perm).state? = some t) : Booked M none t := by
  unfold System.sysIpcTrySend at ho
  split at ho
  · exact Option.some.inj ho ▸ h
  · next e he =>
    have hlive := live_of_envid2env he hc
    split at ho
    · exact Option.some.inj ho ▸ h
    · next hrecv =>
      have hset : SameDirs s (s.setEnv e { s.envs e with ipcRecving := false }) := .update rfl Iff.rfl
      have h' := h.of_sameDirs hset rfl
      have hlive' := (hset.live e).mpr hlive
      dsimp only at ho
      split at ho
      · next hsva =>
        refine h'.sendPage ((hset.live c).mpr hc) hlive' hsva ?_ ho
        rw [s.setEnv_envs_self]
        simp only [hset.hasTable rfl, hset.pte rfl, hset.canCopy rfl]
        intro haddr hdva hperm htable hw
        exact htidy.copy _ _ _ _ (.send he (by simpa using hrecv) haddr hdva hperm htable hw)
      · exact Option.some.inj ho ▸ h'.deliver hlive' value

theorem envDestroy {b : Bool} (h : Booked M none s) (he : s.Live e)
    (hd : s.envDestroy e = some (b, t)) : Booked M none t := by
  unfold System.envDestroy at hd
  split at hd
  · obtain ⟨-, rfl⟩ := Prod.mk.inj (Option.some.inj hd)
    have hsame : SameDirs s (s.setEnv e { s.envs e with status := .dying }) :=
      .update rfl ⟨fun _ => he, fun _ => by simp⟩
    exact h.of_sameDirs hsame rfl
  · obtain ⟨u, hu, hbt⟩ := Option.map_eq_some_iff.mp hd
    have hfree := h.envFree he hu
    split at hbt
    · obtain ⟨-, rfl⟩ := Prod.mk.inj hbt
      have hsame := (Rescheduled.curenv u none).trans (.schedYield _)
      exact hfree.of_sameDirs hsame.sameDirs hsame.pmap
    · obtain ⟨-, rfl⟩ := Prod.mk.inj hbt
      exact hfree

theorem exec {a : Call} (h : Booked M none s) (hslot : ∀ i, s.envFreeList = some i → ¬ s.Live i)
    (hc : s.Live c) (htidy : a.Tidy s c) (ho : (a.exec s c).state? = some t) : Booked M none t := by
  -- the calls that work on environments only
  have hset {u : System} (hu : SameDirs s u) (hm : u.pmap = s.pmap) : Booked M none u :=
    h.of_sameDirs hu hm
  cases a with
  | cputs | cgetc ch | getenvid | unknown => exact Option.some.inj ho ▸ h
  | envDestroy envid =>
    simp only [Call.exec, System.sysEnvDestroy] at ho
    split at ho
    · exact Option.some.inj ho ▸ h
    · next e he =>
      have hlive := live_of_envid2env he hc
      split at ho
      · simp [Outcome.state?] at ho
      · next u hu => exact Option.some.inj ho ▸ h.envDestroy hlive hu
      · next u hu => exact Option.some.inj ho ▸ h.envDestroy hlive hu
  | pageAlloc envid va perm => exact h.sysPageAlloc hc ho
  | pageMap srcenvid srcva dstenvid dstva perm => exact h.sysPageMap hc htidy ho
  | pageUnmap envid va => exact h.sysPageUnmap hc htidy ho
  | exofork =>
    simp only [Call.exec, System.sysExofork] at ho
    split at ho
    · next u hu =>
      rw [envAlloc_error hu] at ho
      exact Option.some.inj ho ▸ h
    · next e u hu =>
      have hu' := h.envAlloc hslot hu
      have hlive : u.Live e := by
        obtain ⟨-, q, -, rfl⟩ := envAlloc_cases hu
        simp [System.Live, Env.fresh]
      obtain rfl := Option.some.inj ho
      have hsame : SameDirs u (u.setEnv e ((u.envs e).child (u.envs c))) :=
        .update rfl ⟨fun _ => hlive, fun _ => by simp [Env.child]⟩
      exact hu'.of_sameDirs hsame rfl
  | envSetStatus envid status =>
    simp only [Call.exec, System.sysEnvSetStatus] at ho
    split at ho
    · exact Option.some.inj ho ▸ h
    · split at ho
      · exact Option.some.inj ho ▸ h
      · next e he =>
        obtain rfl := Option.some.inj ho
        refine hset (.update rfl ⟨fun _ => live_of_envid2env he hc, fun _ => ?_⟩) rfl
        dsimp only
        split <;> simp
  | envSetTrapframe envid tf =>
    simp only [Call.exec, System.sysEnvSetTrapframe] at ho
    split at ho
    · exact Option.some.inj ho ▸ h
    · obtain rfl := Option.some.inj ho
      exact hset (.update rfl Iff.rfl) rfl
  | envSetPgfaultUpcall envid func =>
    simp only [Call.exec, System.sysEnvSetPgfaultUpcall] at ho
    split at ho
    · exact Option.some.inj ho ▸ h
    · split at ho
      · exact Option.some.inj ho ▸ h
      · obtain rfl := Option.some.inj ho
        exact hset (.update rfl Iff.rfl) rfl
  | yield =>
    obtain rfl := Option.some.inj ho
    exact hset (Rescheduled.schedYield s).sameDirs (Rescheduled.schedYield s).pmap
  | ipcTrySend envid value srcva perm => exact h.sysIpcTrySend hc htidy ho
  | ipcRecv dstva =>
    simp only [Call.exec, System.sysIpcRecv] at ho
    split at ho
    · exact Option.some.inj ho ▸ h
    · obtain rfl := Option.some.inj ho
      have hwait : SameDirs s (s.setEnv c ((s.envs c).waiting dstva.toNat)) :=
        .update rfl ⟨fun _ => hc, fun _ => by simp [Env.waiting]⟩
      have hyield := Rescheduled.schedYield (s.setEnv c ((s.envs c).waiting dstva.toNat))
      exact hset (hwait.trans hyield.sameDirs) hyield.pmap

end Booked

/-- The books are in order, and so is the environment table. -/
structure Accounted (M : Nat → Prop) (s : System) : Prop extends Booked M none s where
  table : ∃ xs, EnvTable s xs

theorem EnvTable.head_not_live {s : System} {xs : List (Fin NENV)} (h : EnvTable s xs) {e : Fin NENV}
    (he : s.envFreeList = some e) : ¬ s.Live e := by
  rw [← h.free e]
  cases xs with
  | nil => exact absurd (he.symm.trans h.chain) (by simp)
  | cons x xs =>
    obtain rfl : e = x := Option.some.inj (he.symm.trans h.chain.1)
    simp

namespace Accounted

variable {M : Nat → Prop} {s t : System}

theorem event {i : Event} (h : Accounted M s) (htidy : i.Tidy s) (ht : i.exec s = some t) :
    Accounted M t := by
  obtain ⟨hb, xs, htable⟩ := h
  refine ⟨?_, i.envTable htable ht⟩
  cases i with
  | run e =>
    simp only [Event.exec] at ht
    split at ht
    · next hr =>
      obtain rfl := Option.some.inj ht
      have hrun := Rescheduled.envRun (s := s) (e := e) (by simp [System.Live, hr])
      exact hb.of_sameDirs hrun.sameDirs hrun.pmap
    · exact Option.some.inj ht ▸ hb
  | call a =>
    simp only [Event.exec] at ht
    split at ht
    · exact Option.some.inj ht ▸ hb
    · next c hc =>
      split at ht
      · next hact =>
        obtain ⟨u, hu, hsame, hm⟩ := sameDirs_resume ht
        exact (hb.exec (fun _ => htable.head_not_live) hact.live (htidy a c rfl hc) hu).of_sameDirs
          hsame hm
      · exact Option.some.inj ht ▸ hb

theorem step {i : Event} (h : Accounted M s) (htidy : i.Tidy s) :
    Accounted M (kernelMachine.step i s) := by
  cases ht : i.exec s with
  | none => simpa [kernelMachine, ht] using h
  | some t => simpa [kernelMachine, ht] using h.event htidy ht

theorem run {events : List Event} (h : Accounted M s)
    (htidy : kernelMachine.Along Event.Tidy events s) : Accounted M (kernelMachine.run events s) :=
  Machine.run_invariant (fun _ _ hs hi => hs.step hi) h htidy

end Accounted

def Slot.equiv : (Fin NENV ⊕ Fin NENV × Fin NUPDE) ⊕ (Fin NENV × Fin NUPDE × Fin 1024 ⊕ Fin 1024) ≃
    Slot where
  toFun
    | .inl (.inl i) => .dir i
    | .inl (.inr x) => .pde x.1 x.2
    | .inr (.inl x) => .pte x.1 x.2.1 x.2.2
    | .inr (.inr d) => .kern d
  invFun
    | .dir i => .inl (.inl i)
    | .pde i d => .inl (.inr (i, d))
    | .pte i d t => .inr (.inl (i, d, t))
    | .kern d => .inr (.inr d)
  left_inv x := by rcases x with (_ | _) | (_ | _) <;> rfl
  right_inv x := by cases x <;> rfl

namespace System

/-- The present entries for addresses below `UTOP` that map the page. -/
def userPtes (s : System) (p : Nat) : Nat :=
  references (fun x : Fin NENV × Fin NUPDE × Fin 1024 => s.target (.pte x.1 x.2.1 x.2.2)) p

/-- The directory entries that use the page as a page table; those of the kernel are counted in
`kern_pgdir`, of which the other directories have copies. -/
def pdes (s : System) (p : Nat) : Nat :=
  references (fun x : Fin NENV × Fin NUPDE => s.target (.pde x.1 x.2)) p +
    references (fun d : Fin 1024 => s.target (.kern d)) p

def IsDirectory (s : System) (p : Nat) : Prop := ∃ i, s.Live i ∧ (s.envs i).pgdir = p

instance (s : System) (p : Nat) : Decidable (s.IsDirectory p) :=
  inferInstanceAs (Decidable (∃ _, _))

def uses (s : System) (p : Nat) : Nat :=
  s.userPtes p + s.pdes p + if s.IsDirectory p then 1 else 0

/-- Each page of `M` has its number of uses in `pp_ref`, and the free list has the unused ones. -/
def Conserved (M : Nat → Prop) (s : System) : Prop :=
  ∃ xs, Chain s.pmap.ppLink s.pmap.pageFreeList xs ∧
    ∀ p, M p → s.pmap.ppRef p = s.uses p ∧ (p ∈ xs ↔ s.uses p = 0)

theorem target_dir_iff (s : System) (i : Fin NENV) (p : Nat) :
    s.target (.dir i) = some p ↔ s.Live i ∧ (s.envs i).pgdir = p := by
  simp only [target]
  split <;> simp_all

private theorem references_target (s : System) (p : Nat) : references s.target p
    = references (fun i => s.target (.dir i)) p + s.userPtes p + s.pdes p := by
  have hkinds : (fun x => s.target (Slot.equiv x))
      = Sum.elim (Sum.elim (fun i => s.target (.dir i)) fun x => s.target (.pde x.1 x.2))
        (Sum.elim (fun x => s.target (.pte x.1 x.2.1 x.2.2)) fun d => s.target (.kern d)) := by
    funext x
    rcases x with (_ | _) | (_ | _) <;> rfl
  rw [← references_equiv Slot.equiv, hkinds, references_sumElim, references_sumElim,
    references_sumElim, userPtes, pdes]
  omega

end System

private theorem Shaped.references_eq_uses {M : Nat → Prop} {s : System} (h : Shaped M s) (p : Nat) :
    references s.target p = s.uses p := by
  have hdir : references (fun i => s.target (.dir i)) p = if s.IsDirectory p then 1 else 0 := by
    rw [references_eq_ite fun i j hi hj => by
      simpa using h.exclusive (.dir i) (.dir j) p trivial hi hj]
    exact if_congr (by simp only [s.target_dir_iff, System.IsDirectory]) rfl rfl
  rw [s.references_target, hdir, System.uses]
  omega

theorem Accounted.conserved {M : Nat → Prop} {s : System} (h : Accounted M s) : s.Conserved M := by
  obtain ⟨xs, hl⟩ := h.ledger
  refine ⟨xs, hl.chain, fun p hp => ?_⟩
  have hfree := hl.free p hp
  simp only [ne_eq, reduceCtorEq, not_false_eq_true, and_true] at hfree
  rw [← h.references_eq_uses]
  exact ⟨hl.count p hp, hfree⟩

/-- In every run of system calls, the count of every page is the number of its uses, and the free
list has exactly the unused pages, as long as no empty entry is unmapped or copied and no count
exceeds its sixteen bits. -/
theorem page_accounting {M : Nat → Prop} {s₀ : System} (h₀ : Accounted M s₀) (events : List Event)
    (htidy : kernelMachine.Along Event.Tidy events s₀) :
    (kernelMachine.run events s₀).Conserved M :=
  (h₀.run htidy).conserved

/-- The pages that were free when the sample state was booted. -/
def SamplePage (p : Nat) : Prop := 301 ≤ p ∧ p ≤ 312

instance : DecidablePred SamplePage := fun _ => inferInstanceAs (Decidable (_ ∧ _))

/-- The one place that refers to a page of the sample state. -/
def samplePlace : Nat → Slot
  | 301 => .dir 0
  | 302 => .dir 1
  | 303 => .pde 1 2
  | 304 => .pte 1 2 0
  | _ => .pte 1 2 1

theorem sampleSystem_pde {i : Fin NENV} {d : Nat} (hi : sampleSystem.Live i) (hd : d < NUPDE)
    (h0 : sampleSystem.pmap.mem (sampleSystem.envs i).pgdir d ≠ 0) : i = 1 ∧ d = 2 := by
  obtain rfl | rfl := sampleSystem_live hi
  · have := samplePmap_pde (g := 301) (.inl rfl) hd h0
    simp at this
  · exact ⟨rfl, (samplePmap_pde (g := 302) (.inr rfl) hd h0).2⟩

theorem sampleSystem_target {x : Slot} {p : Nat} :
    sampleSystem.target x = some p ↔ (301 ≤ p ∧ p ≤ 305) ∧ x = samplePlace p := by
  constructor
  · intro h
    have hzero {w : Nat} (hw : named w = some p) : w ≠ 0 := by
      rintro rfl
      simp at hw
    cases x with
    | dir i =>
      obtain ⟨hi, rfl⟩ := (sampleSystem.target_dir_iff i p).mp h
      obtain rfl | rfl := sampleSystem_live hi
      · exact ⟨by decide, rfl⟩
      · exact ⟨by decide, rfl⟩
    | pde i d =>
      by_cases hi : sampleSystem.Live i
      · rw [target_pde hi] at h
        obtain ⟨rfl, hd⟩ := sampleSystem_pde hi d.isLt (hzero h)
        obtain rfl : d = 2 := Fin.ext hd
        obtain rfl : 303 = p := Option.some.inj h
        exact ⟨by decide, rfl⟩
      · simp [System.target, hi] at h
    | pte i d t =>
      by_cases hi : sampleSystem.Live i
      · simp only [System.target, hi, if_true] at h
        obtain ⟨pt, hpt, hp⟩ := Option.bind_eq_some_iff.mp h
        obtain ⟨rfl, hd⟩ := sampleSystem_pde hi d.isLt (by
          intro h0
          simp [h0] at hpt)
        obtain rfl : d = 2 := Fin.ext hd
        obtain rfl : 303 = pt := Option.some.inj hpt
        rcases samplePmap_pte (hzero hp) with ht | ht
        · obtain rfl : t = 0 := Fin.ext ht
          obtain rfl : 304 = p := Option.some.inj hp
          exact ⟨by decide, rfl⟩
        · obtain rfl : t = 1 := Fin.ext ht
          obtain rfl : 305 = p := Option.some.inj hp
          exact ⟨by decide, rfl⟩
      · simp [System.target, hi] at h
    | kern d => simp [System.target, sampleSystem, samplePmap] at h
  · rintro ⟨⟨hlo, hhi⟩, rfl⟩
    have hp : p = 301 ∨ p = 302 ∨ p = 303 ∨ p = 304 ∨ p = 305 := by omega
    rcases hp with rfl | rfl | rfl | rfl | rfl
    all_goals decide

theorem sampleSystem_references (p : Nat) :
    references sampleSystem.target p = if 301 ≤ p ∧ p ≤ 305 then 1 else 0 := by
  classical
  rw [references_eq_ite fun x y hx hy => by
    rw [(sampleSystem_target.mp hx).2, (sampleSystem_target.mp hy).2]]
  refine if_congr ⟨?_, ?_⟩ rfl rfl
  · rintro ⟨x, hx⟩
    exact (sampleSystem_target.mp hx).1
  · intro hp
    exact ⟨samplePlace p, sampleSystem_target.mpr ⟨hp, rfl⟩⟩

theorem sampleSystem_shaped : Shaped SamplePage sampleSystem := by
  refine ⟨⟨by decide, fun p hp => ?_, by decide⟩, fun d hd => ?_, fun i hi => ?_, fun i d hi hd => ?_,
    fun i d t pt hi hd ht hpt => ?_, fun x y p _ hx hy => ?_⟩
  · obtain ⟨-, hp⟩ := hp
    omega
  · simp [sampleSystem, samplePmap]
  · obtain rfl | rfl := sampleSystem_live hi
    · exact ⟨by decide, by decide⟩
    · exact ⟨by decide, by decide⟩
  · by_cases h0 : sampleSystem.pmap.mem (sampleSystem.envs i).pgdir d = 0
    · exact .inl h0
    · obtain ⟨rfl, rfl⟩ := sampleSystem_pde hi hd h0
      exact .inr ⟨by decide, by decide, by decide⟩
  · obtain ⟨rfl, rfl⟩ := sampleSystem_pde hi hd (by
      intro h0
      simp [h0] at hpt)
    obtain rfl : 303 = pt := Option.some.inj hpt
    by_cases h0 : sampleSystem.pmap.mem 303 t = 0
    · exact .inl h0
    · rcases samplePmap_pte h0 with rfl | rfl
      · exact .inr ⟨by decide, by decide, by decide⟩
      · exact .inr ⟨by decide, by decide, by decide⟩
  · rw [(sampleSystem_target.mp hx).2, (sampleSystem_target.mp hy).2]

private theorem exists_chain_from {N k : Nat} {link : Fin N → Option (Fin N)} (hle : k ≤ N)
    (hlink : ∀ i : Fin N, k ≤ i → link i = if h : i.val + 1 < N then some ⟨i.val + 1, h⟩ else none) :
    ∃ xs, Chain link (if h : k < N then some ⟨k, h⟩ else none) xs ∧ ∀ i : Fin N, i ∈ xs ↔ k ≤ i := by
  induction hn : N - k generalizing k with
  | zero =>
    have hkn : ¬ k < N := by omega
    refine ⟨[], dif_neg hkn, fun i => ?_⟩
    have := i.isLt
    simp only [List.not_mem_nil, false_iff]
    omega
  | succ n ih =>
    have hkn : k < N := by omega
    obtain ⟨xs, hchain, hmem⟩ := ih (k := k + 1) hkn (fun i hi => hlink i (by omega)) (by omega)
    refine ⟨⟨k, hkn⟩ :: xs, ⟨dif_pos hkn, ?_⟩, fun i => ?_⟩
    · rw [hlink ⟨k, hkn⟩ (Nat.le_refl k)]
      exact hchain
    · rw [List.mem_cons, hmem, Fin.ext_iff]
      simp only
      omega

private theorem sampleSystem_link {i : Fin NENV} (hi : 2 ≤ i.val) : (sampleSystem.envs i).link
    = if h : i.val + 1 < NENV then some ⟨i.val + 1, h⟩ else none := by
  have h0 : i ≠ 0 := by
    rintro rfl
    simp at hi
  have h1 : i ≠ 1 := by
    rintro rfl
    simp at hi
  simp [sampleSystem, h0, h1, unusedEnv]

theorem sampleSystem_envTable : ∃ xs, EnvTable sampleSystem xs := by
  obtain ⟨xs, hchain, hmem⟩ := exists_chain_from (N := NENV) (k := 2) (by decide)
    fun i hi => sampleSystem_link hi
  rw [dif_pos (by decide)] at hchain
  refine ⟨xs, hchain, fun i => ?_, fun i hi => ?_, fun i hi => ?_⟩
  · rw [hmem]
    constructor
    · intro hi hlive
      obtain rfl | rfl := sampleSystem_live hlive
      all_goals simp at hi
    · intro hlive
      by_contra hi
      have hi : i.val = 0 ∨ i.val = 1 := by omega
      rcases hi with hi | hi
      · obtain rfl : i = 0 := Fin.ext hi
        exact hlive (by decide)
      · obtain rfl : i = 1 := Fin.ext hi
        exact hlive (by decide)
  · obtain rfl | rfl := sampleSystem_live hi
    all_goals decide
  · obtain rfl | rfl := sampleSystem_live hi
    all_goals decide

theorem sampleSystem_accounted : Accounted SamplePage sampleSystem := by
  refine ⟨⟨sampleSystem_shaped, [306, 307, 308, 309, 310, 311, 312],
    by simp [Chain, sampleSystem, samplePmap], fun p hp => ?_, fun p hp => ?_, fun p hp => ?_,
    fun p hp => ?_, fun p hp => by cases hp⟩, sampleSystem_envTable⟩
  · simp only [List.mem_cons, List.not_mem_nil, or_false] at hp
    unfold SamplePage
    omega
  · rw [sampleSystem_references]
    rfl
  · rw [sampleSystem_references]
    split <;> omega
  · obtain ⟨hlo, hhi⟩ := hp
    rw [sampleSystem_references]
    simp only [List.mem_cons, List.not_mem_nil, or_false, ne_eq, reduceCtorEq, not_false_eq_true,
      and_true, ite_eq_right_iff, one_ne_zero, imp_false]
    omega

/-- A program that moves a page of its own. -/
theorem page_accounting_move :
    let events : List Event :=
      [.call (.pageMap 0 0x800000 0 0x400000 7), .call (.pageUnmap 0 0x800000), .call .exofork]
    kernelMachine.Along Event.Tidy events sampleSystem ∧
      (kernelMachine.run events sampleSystem).Conserved SamplePage := by
  intro events
  have htidy : kernelMachine.Along Event.Tidy events sampleSystem := by
    refine ⟨?_, fun _ => ⟨?_, fun _ => ⟨?_, fun _ => trivial⟩⟩⟩
    · rintro a c ha hc
      obtain rfl := Event.call.inj ha
      obtain rfl : 1 = c := Option.some.inj hc
      refine ⟨(fun _ _ _ he => by cases he), fun src srcva dst dstva hcopy => ?_⟩
      cases hcopy with
      | map hsrc hdst =>
        obtain rfl : 1 = src := Option.some.inj hsrc
        exact ⟨by decide, .inl (by decide)⟩
    · rintro a c ha hc
      obtain rfl := Event.call.inj ha
      refine ⟨?_, fun src srcva dst dstva hcopy => by cases hcopy⟩
      intro envid va e heq he _ _
      obtain ⟨rfl, rfl⟩ : 0 = envid ∧ 0x800000 = va := by simpa using heq
      obtain rfl : c = e := Option.some.inj he
      have hc1 : (kernelMachine.step (.call (.pageMap 0 0x800000 0 0x400000 7)) sampleSystem).curenv
          = some 1 := by decide +kernel
      obtain rfl : 1 = c := Option.some.inj (hc1.symm.trans hc)
      decide +kernel
    · rintro a c ha hc
      obtain rfl := Event.call.inj ha
      exact ⟨(fun _ _ _ he => by cases he), fun src srcva dst dstva hcopy => by cases hcopy⟩
  exact ⟨htidy, page_accounting sampleSystem_accounted events htidy⟩

/-- Page 0 is freed by way of an empty entry, becomes a page table, is freed again by way of another
empty entry, and becomes the directory of a new environment: the next page that the page table maps
is also a page table of the child. -/
theorem page_zero_reused :
    let events : List Event :=
      [.call (.pageMap 0 0x802000 0 0x803000 5), .call (.pageUnmap 0 0x803000),
        .call (.pageMap 0 0x801000 0 0x400000 5), .call (.pageUnmap 0 0x802000), .call .exofork,
        .call (.pageAlloc 0 0x405000 7)]
    let s := kernelMachine.run events sampleSystem
    Accounted SamplePage sampleSystem ∧ s.pmap.ppRef 306 = 1 ∧ s.userPtes 306 ≠ 0 ∧
      s.pdes 306 ≠ 0 ∧ ¬ s.Conserved SamplePage := by
  intro events s
  have hpte : s.target (.pte 1 1 5) = some 306 := by decide +kernel
  have hpde : s.target (.pde 2 5) = some 306 := by decide +kernel
  have href : s.pmap.ppRef 306 = 1 := by decide +kernel
  have huser : s.userPtes 306 ≠ 0 := references_ne_zero.mpr ⟨(1, 1, 5), hpte⟩
  have hdirs : references (fun x : Fin NENV × Fin NUPDE => s.target (.pde x.1 x.2)) 306 ≠ 0 :=
    references_ne_zero.mpr ⟨(2, 5), hpde⟩
  have hpdes : s.pdes 306 ≠ 0 := by
    unfold System.pdes
    omega
  refine ⟨sampleSystem_accounted, href, huser, hpdes, ?_⟩
  rintro ⟨xs, -, hcount⟩
  have := (hcount 306 ⟨by decide, by decide⟩).1
  unfold System.uses at this
  omega

end DamnOS.Kernel
