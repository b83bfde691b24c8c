import DamnOS.Kernel.FreePages
import DamnOS.User.SharedRights

/-!
# The pages that a spawned program shares

`copy_shared_pages` drops the results of its system calls.  Whether a call succeeds depends on the
page tables that the child lacks and on the free pages; both can be counted before the loop starts.
-/

namespace DamnOS.User

open DamnOS.Framework DamnOS.Kernel

/-- The state after a system call whose result is dropped. -/
def ignored : Outcome → Option System
  | .returns _ s => some s
  | _ => none

/-- One round of the loop in `copy_shared_pages`. -/
def copySharedPage (c : Fin NENV) (child : BitVec 32) (s : System) (pn : Nat) : Option System :=
  if uvpd s c (PDX (pn * PGSIZE)) &&& PTE_P ≠ 0 ∧ uvpt s c pn &&& PTE_P ≠ 0 ∧ uvpt s c pn &&& PTE_U ≠ 0 ∧
      uvpt s c pn &&& PTE_SHARE ≠ 0 then
    ignored (s.sysPageMap c 0 (pageArg pn) child (pageArg pn) (permArg (PTE_SHARE ||| PTE_SYSCALL)))
  else some s

def copySharedPages (s : System) (c : Fin NENV) (child : BitVec 32) : Option System :=
  (List.range (UTOP / PGSIZE)).foldlM (copySharedPage c child) s

/-- The entries that `copy_shared_pages` passes on. -/
def Passed (w : Nat) : Prop := w &&& PTE_U ≠ 0 ∧ w &&& PTE_SHARE ≠ 0

instance : DecidablePred Passed := fun _ => inferInstanceAs (Decidable (_ ∧ _))

def Passes (s : System) (c : Fin NENV) (n : Nat) : Prop := ∃ w ∈ s.view c n, Passed w

instance (s : System) (c : Fin NENV) : DecidablePred (Passes s c) := fun _ => inferInstanceAs (Decidable (∃ w ∈ _, _))

/-- How often page `p` is passed on for the page numbers below `k`. -/
def sharings (s : System) (c : Fin NENV) (k p : Nat) : Nat :=
  (List.range k).countP fun n => (s.view c n).any fun w => decide (Passed w) && decide (pageOf w = p)

/-- The mappings that `copy_shared_pages` adds can be counted in sixteen bits. -/
def RoomyShared (s : System) (c : Fin NENV) : Prop :=
  ∀ n w, n < UTOP / PGSIZE → s.view c n = some w → Passed w →
    s.pmap.ppRef (pageOf w) + sharings s c (UTOP / PGSIZE) (pageOf w) ≤ 65535

section Shortage

variable (s : System) (c child : Fin NENV)

/-- There is no page table for page number `n`. -/
def Lacks (n : Nat) : Prop := s.pmap.mem (s.envs child).pgdir (PDX (n * PGSIZE)) = 0

/-- Page number `n` is the first one of its page table that is passed on. -/
def Opens (n : Nat) : Prop := Passes s c n ∧ ∀ k < n, k / 1024 = n / 1024 → ¬ Passes s c k

/-- How often the child's mappings of page `p` are replaced for the page numbers below `k`. -/
def replaced (k p : Nat) : Nat :=
  (List.range k).countP fun n => decide (Passes s c n) && (s.view child n).any fun w => decide (pageOf w = p)

/-- The last reference to the child's page at `n` is replaced. -/
def Releases (n : Nat) : Prop :=
  Passes s c n ∧ ∃ w ∈ s.view child n, s.pmap.ppRef (pageOf w) = replaced s c child (n + 1) (pageOf w)

instance : DecidablePred (Lacks s child) := fun _ => inferInstanceAs (Decidable (_ = _))

instance : DecidablePred (Opens s c) := fun _ => inferInstanceAs (Decidable (_ ∧ _))

instance : DecidablePred (Releases s c child) := fun _ => inferInstanceAs (Decidable (_ ∧ _))

/-- The free pages that are left for page number `n`, when there are `free` at first. -/
def freeLeft (free : Nat) : Nat → Nat
  | 0 => free
  | n + 1 =>
    if Lacks s child n then freeLeft free n - if Opens s c n then 1 else 0
    else freeLeft free n + if Releases s c child n then 1 else 0

/-- The child lacks the page table for page number `n`, and the free pages are used up before. -/
def ShortAt (n : Nat) : Prop :=
  Lacks s child n ∧ ∃ xs, s.FreePages xs ∧ freeLeft s c child xs.length (n / 1024 * 1024) = 0

end Shortage

section Count

variable {s : System} {c child : Fin NENV} {free k l n p w : Nat} {xs : List Nat}

private theorem sharings_mono (s : System) (c : Fin NENV) (p : Nat) (hkl : k ≤ l) :
    sharings s c k p ≤ sharings s c l p := by
  obtain ⟨d, rfl⟩ := Nat.exists_eq_add_of_le hkl
  rw [sharings, sharings, List.range_add, List.countP_append]
  exact Nat.le_add_right _ _

private theorem sharings_succ_of_view (hw : s.view c k = some w) (hp : Passed w) :
    sharings s c (k + 1) (pageOf w) = sharings s c k (pageOf w) + 1 := by
  rw [sharings, sharings, List.range_succ, List.countP_append]
  simp [hw, hp]

private theorem shortAt_iff (hxs : s.FreePages xs) :
    ShortAt s c child n ↔ Lacks s child n ∧ freeLeft s c child xs.length (n / 1024 * 1024) = 0 := by
  refine and_congr_right fun _ => ⟨?_, fun h => ⟨xs, hxs, h⟩⟩
  rintro ⟨ys, hys, h⟩
  rwa [hxs.unique hys]

theorem Lacks.congr (hk : k < NUPAGE) (hn : n < NUPAGE) (hkn : k / 1024 = n / 1024) :
    Lacks s child k ↔ Lacks s child n := by
  rw [Lacks, Lacks, PDX_page hk, PDX_page hn, hkn]

theorem ShortAt.congr (hk : k < NUPAGE) (hn : n < NUPAGE) (hkn : k / 1024 = n / 1024) :
    ShortAt s c child k ↔ ShortAt s c child n := by
  rw [ShortAt, ShortAt, hkn, Lacks.congr hk hn hkn]

private theorem Lacks.view_eq_none (h : Lacks s child n) : s.view child n = none := by
  have hmap : s.pmap.mapping (s.envs child).pgdir (n * PGSIZE) = none := by simp [Pmap.mapping, show _ = 0 from h]
  rw [System.view, hmap, ite_self]

private theorem freeLeft_table (hn : n < NUPAGE) (hl : Lacks s child n) :
    freeLeft s c child free n = freeLeft s c child free (n / 1024 * 1024) -
      if ∃ k < n, k / 1024 = n / 1024 ∧ Passes s c k then 1 else 0 := by
  induction n with
  | zero => simp
  | succ n ih =>
    by_cases hsame : n / 1024 = (n + 1) / 1024
    · have hl' : Lacks s child n := (Lacks.congr (by omega) hn hsame).mpr hl
      have hopens : Opens s c n ↔ Passes s c n ∧ ¬ ∃ k < n, k / 1024 = n / 1024 ∧ Passes s c k := by
        simp only [Opens, not_exists, not_and]
      have hnext : (∃ k < n + 1, k / 1024 = n / 1024 ∧ Passes s c k) ↔
          Passes s c n ∨ ∃ k < n, k / 1024 = n / 1024 ∧ Passes s c k := by
        constructor
        · rintro ⟨k, hk, hkn, hp⟩
          rcases Nat.lt_succ_iff_lt_or_eq.mp hk with hlt | rfl
          · exact .inr ⟨k, hlt, hkn, hp⟩
          · exact .inl hp
        · rintro (hp | ⟨k, hk, hkn, hp⟩)
          · exact ⟨n, by omega, rfl, hp⟩
          · exact ⟨k, by omega, hkn, hp⟩
      rw [freeLeft, if_pos hl', ih (by omega) hl', ← hsame]
      simp only [hopens, hnext]
      by_cases hp : Passes s c n <;> by_cases he : ∃ k < n, k / 1024 = n / 1024 ∧ Passes s c k <;> simp [hp, he]
    · rw [show (n + 1) / 1024 * 1024 = n + 1 by omega, if_neg, Nat.sub_zero]
      rintro ⟨k, hk, hkn, -⟩
      omega

def entryOf (e : Fin NENV) (n : Nat) : Slot :=
  if hn : n * PGSIZE < UTOP then Slot.page e (n * PGSIZE) hn else .dir e

private theorem entryOf_eq (e : Fin NENV) (hn : n < NUPAGE) : entryOf e n = Slot.page e (n * PGSIZE)
    (page_lt_UTOP hn) :=
  dif_pos _

private theorem target_entryOf {e : Fin NENV} (he : s.Live e) (hn : n < NUPAGE) :
    s.target (entryOf e n) = (s.view e n).map pageOf := by
  rw [entryOf_eq e hn, target_eq_view he hn]

private theorem entryOf_inj {e i : Fin NENV} (hk : k < NUPAGE) (hn : n < NUPAGE) (h : entryOf e k = entryOf i n) :
    e = i ∧ k = n := by
  rw [entryOf_eq e hk, entryOf_eq i hn] at h
  obtain ⟨he, hd, ht⟩ := Slot.pte.inj h
  have hd : PDX (k * PGSIZE) = PDX (n * PGSIZE) := Fin.mk.inj hd
  have ht : PTX (k * PGSIZE) = PTX (n * PGSIZE) := Fin.mk.inj ht
  rw [PDX_page hk, PDX_page hn] at hd
  rw [PTX_page, PTX_page] at ht
  exact ⟨he, by omega⟩

private theorem managed_of_view {M : Nat → Prop} {e : Fin NENV} (h : Accounted M s) (hw : s.view e n = some w) :
    M (pageOf w) := by
  obtain ⟨hlive, hn, hmap⟩ := view_eq_some hw
  obtain ⟨hpde, rfl, hpte⟩ := Pmap.mapping_eq_some.mp hmap
  exact (h.pte e _ _ _ hlive (PDX_lt_of_lt_UTOP (page_lt_UTOP hn)) (PTX_lt _)
    (named_eq_some.mpr ⟨hpde, rfl⟩)).managed (named_eq_some.mpr ⟨hpte, rfl⟩)

private theorem releases_iff {M : Nat → Prop} (h : Accounted M s) (hp : Passes s c n) (hw : s.view child n = some w) :
    Releases s c child n ↔
      ∀ x, s.target x = some (pageOf w) → ∃ k ≤ n, Passes s c k ∧ entryOf child k = x := by
  obtain ⟨hlive, hn, -⟩ := view_eq_some hw
  obtain ⟨xs, hl⟩ := h.ledger
  have hmem {k : Nat} : k ∈ (List.range (n + 1)).filter (fun k => decide (Passes s c k) &&
      (s.view child k).any fun v => decide (pageOf v = pageOf w)) ↔
      k ≤ n ∧ Passes s c k ∧ (s.view child k).map pageOf = some (pageOf w) := by
    rw [List.mem_filter, List.mem_range, Nat.lt_succ_iff, Bool.and_eq_true, decide_eq_true_eq]
    refine and_congr_right fun _ => and_congr_right fun _ => ?_
    cases s.view child k <;> simp
  have hiff := @references_eq_length_iff _ _ _ _ s.target (pageOf w) _ _ _ _ (entryOf child)
    (List.Nodup.filter (fun k => decide (Passes s c k) &&
      (s.view child k).any fun v => decide (pageOf v = pageOf w)) (List.nodup_range (n := n + 1)))
    (fun k hk => by
      obtain ⟨hk, -, hview⟩ := hmem.mp hk
      rw [target_entryOf hlive (by omega), hview])
    (fun k hk k' hk' heq => by
      have hk := (hmem.mp hk).1
      have hk' := (hmem.mp hk').1
      exact (entryOf_inj (by omega) (by omega) heq).2)
  have hcount : Releases s c child n ↔ references s.target (pageOf w) = replaced s c child (n + 1) (pageOf w) := by
    rw [← hl.count _ (managed_of_view h hw)]
    simp [Releases, hp, hw]
  rw [hcount, replaced, List.countP_eq_length_filter, hiff]
  refine forall₂_congr fun x hx => ⟨?_, ?_⟩
  · rintro ⟨k, hk, heq⟩
    obtain ⟨hk, hpass, -⟩ := hmem.mp hk
    exact ⟨k, hk, hpass, heq⟩
  · rintro ⟨k, hk, hpass, rfl⟩
    exact ⟨k, hmem.mpr ⟨hk, hpass, by rwa [← target_entryOf hlive (by omega)]⟩, rfl⟩

end Count

/-- What the child has for the entry `w` of its parent after the turn of page `n`; `o` is what it had before. -/
structure HandedOn (s : System) (c child : Fin NENV) (n w : Nat) (o : Option Nat) : Prop where
  skipped : ¬ Passed w → o = s.view child n
  short : Passed w → ShortAt s c child n → o = none
  shared : Passed w → ¬ ShortAt s c child n → o = some (entry (pageOf w) (PTE_SHARE ||| PTE_SYSCALL))

/-- The state of `copy_shared_pages` when the pages below `k` are passed on. -/
structure SpawnSharing (M : Nat → Prop) (s : System) (c child : Fin NENV) (free k : Nat) (b : System) : Prop where
  accounted : Accounted M b
  envs : b.envs = s.envs
  view : ∀ n, b.view c n = s.view c n
  refs : ∀ n w, s.view c n = some w →
    b.pmap.ppRef (pageOf w) ≤ s.pmap.ppRef (pageOf w) + sharings s c k (pageOf w)
  rest : ∀ n, k ≤ n → b.view child n = s.view child n
  handed : ∀ n < k, ∀ w, s.view c n = some w → HandedOn s c child n w (b.view child n)
  others : ∀ x : Slot, ¬ x.Structural → (∀ n < k, Passes s c n → entryOf child n ≠ x) → b.target x = s.target x
  tables : ∀ n < NUPAGE, Lacks b child n ↔
    Lacks s child n ∧ ∀ j < k, j / 1024 = n / 1024 → Passes s c j → ShortAt s c child j
  free : ∃ xs, b.FreePages xs ∧ xs.length = freeLeft s c child free k

section Spawn

variable {M : Nat → Prop} {s t b : System} {c child : Fin NENV} {free k n w : Nat} {envid : BitVec 32} {xs : List Nat}

private theorem copySharedPage_eq (hc : s.Live c) (hn : n < NUPAGE) :
    copySharedPage c envid s n = (s.view c n).elim (some s) fun w =>
      if Passed w then
        ignored (s.sysPageMap c 0 (pageArg n) envid (pageArg n) (permArg (PTE_SHARE ||| PTE_SYSCALL)))
      else some s := by
  unfold copySharedPage
  cases hw : s.view c n with
  | none =>
    refine if_neg fun hpresent => ?_
    rw [view_of_present hc hn hpresent.1 hpresent.2.1] at hw
    cases hw
  | some w =>
    obtain ⟨-, -, hmap⟩ := view_eq_some hw
    obtain ⟨hpde, -, hpte⟩ := Pmap.mapping_eq_some.mp hmap
    rw [uvpt_of_view hw]
    exact if_congr ⟨fun h => h.2.2, fun h => ⟨hpde, hpte, h⟩⟩ rfl rfl

private theorem ignored_map (h : Accounted M s) (hc : s.Live c) (hid : s.envid2env c envid true = some child)
    (hw : s.view c n = some w) (hlt : s.pmap.ppRef (pageOf w) < 65535)
    (ht : ignored (s.sysPageMap c 0 (pageArg n) envid (pageArg n) (permArg (PTE_SHARE ||| PTE_SYSCALL))) =
      some t) :
    (¬ s.Starved child n ∧ Remaps M s t child n (some (entry (pageOf w) (PTE_SHARE ||| PTE_SYSCALL))) ∧
      ∃ m, s.pmap.pageInsert (s.envs child).pgdir (pageOf w) (n * PGSIZE) (PTE_SHARE ||| PTE_SYSCALL) =
        some (true, m) ∧ t = { s with pmap := m }) ∨
      (s.Starved child n ∧ t = s) := by
  obtain ⟨-, hn, -⟩ := view_eq_some hw
  have hargs := toNat_pageArg hn
  have hperm : permValid (permArg (PTE_SHARE ||| PTE_SYSCALL)).toNat = true := by decide
  have hbits : (permArg (PTE_SHARE ||| PTE_SYSCALL)).toNat = PTE_SHARE ||| PTE_SYSCALL := by decide
  have hcases := sysPageMap_cases (envid2env_zero s c true) hid hargs hargs hn hw hperm
  rcases hcases with ⟨-, ho⟩ | ⟨hroom, m, hm, ho⟩ | ⟨hstarved, ho⟩
  · rw [ho] at ht
    cases ht
  · rw [ho] at ht
    have hsucceeded : succeeded (s.sysPageMap c 0 (pageArg n) envid (pageArg n)
        (permArg (PTE_SHARE ||| PTE_SYSCALL))) = some t := by
      rw [ho]
      exact ht
    rw [hbits] at hm
    exact .inl ⟨hroom, remaps_map h hc hid hw (by decide) (.inl hlt) hsucceeded, m, hm, (Option.some.inj ht).symm⟩
  · rw [ho] at ht
    exact .inr ⟨hstarved, (Option.some.inj ht).symm⟩

namespace SpawnSharing

theorem live (h : SpawnSharing M s c child free k b) {e : Fin NENV} : b.Live e ↔ s.Live e := by
  rw [System.Live, System.Live, h.envs]

private theorem not_structural (h : Accounted M s) {e : Fin NENV} (hw : s.view e n = some w) {x : Slot}
    (hx : s.target x = some (pageOf w)) : ¬ x.Structural := by
  intro hstruct
  obtain ⟨hva, hself⟩ := target_of_view hw
  have heq := h.exclusive x _ _ hstruct hx hself
  rw [← heq] at hstruct
  exact hstruct

private theorem starved_iff (h : SpawnSharing M s c child xs.length k b) (hxs : s.FreePages xs) (hk : k < NUPAGE) :
    b.Starved child k ↔ ShortAt s c child k := by
  obtain ⟨ys, hys, hlen⟩ := h.free
  have hempty : b.pmap.pageFreeList = none ↔ freeLeft s c child xs.length k = 0 := by
    rw [← hlen, List.length_eq_zero_iff]
    cases ys with
    | nil => exact iff_of_true hys rfl
    | cons y ys => simp [hys.1]
  have hstarved : b.Starved child k ↔ Lacks b child k ∧ b.pmap.pageFreeList = none := Iff.rfl
  rw [hstarved, h.tables k hk, hempty]
  constructor
  · rintro ⟨⟨hlack, hall⟩, hzero⟩
    rw [freeLeft_table hk hlack] at hzero
    split at hzero
    · next hex =>
      obtain ⟨j, hj, hjk, hp⟩ := hex
      exact (ShortAt.congr (by omega) hk hjk).mp (hall j hj hjk hp)
    · exact (shortAt_iff hxs).mpr ⟨hlack, hzero⟩
  · intro hshort
    obtain ⟨hlack, hzero⟩ := (shortAt_iff hxs).mp hshort
    refine ⟨⟨hlack, fun j hj hjk _ => (ShortAt.congr (by omega) hk hjk).mpr hshort⟩, ?_⟩
    rw [freeLeft_table hk hlack, hzero, Nat.zero_sub]

/-- The child's page is left without a reference exactly when the count of the start says so. -/
theorem releases_iff (hs : Accounted M s) (h : SpawnSharing M s c child free k b) (hne : c ≠ child)
    (hp : Passes s c k) (hw : s.view child k = some w) :
    references b.target (pageOf w) = 1 ↔ Releases s c child k := by
  obtain ⟨hlive, hk, -⟩ := view_eq_some hw
  have hwb : b.view child k = some w := (h.rest k le_rfl).trans hw
  have hself : b.target (entryOf child k) = some (pageOf w) := by
    rw [target_entryOf (h.live.mpr hlive) hk, hwb, Option.map_some]
  have hone := @references_eq_length_iff _ _ _ _ b.target (pageOf w) _ _ _ [k] (entryOf child)
    (List.nodup_singleton k) (by simpa using hself) (by simp)
  rw [List.length_singleton] at hone
  rw [hone, User.releases_iff hs hp hw]
  constructor
  · intro honly x hx
    by_cases hex : ∃ j < k, Passes s c j ∧ entryOf child j = x
    · obtain ⟨j, hj, hpass, heq⟩ := hex
      exact ⟨j, hj.le, hpass, heq⟩
    · have hkept := h.others x (not_structural hs hw hx) fun j hj hpass heq => hex ⟨j, hj, hpass, heq⟩
      obtain ⟨j, hj, heq⟩ := honly x (hkept.trans hx)
      obtain rfl := List.mem_singleton.mp hj
      exact ⟨j, le_rfl, hp, heq⟩
  · intro hlast x hx
    refine ⟨k, by simp, ?_⟩
    by_cases hex : ∃ j < k, Passes s c j ∧ entryOf child j = x
    · -- a redirected entry names a page that the parent maps, too
      obtain ⟨j, hj, ⟨v, hv, hpassed⟩, rfl⟩ := hex
      have hhand := h.handed j hj v hv
      rw [target_entryOf (h.live.mpr hlive) (by omega)] at hx
      have hfed : ¬ ShortAt s c child j := fun hshort => by
        rw [hhand.short hpassed hshort] at hx
        cases hx
      rw [hhand.shared hpassed hfed, Option.map_some, pageOf_entry (pageOf_lt v) (by decide)] at hx
      obtain ⟨hc, hj', -⟩ := view_eq_some hv
      have hparent : s.target (entryOf c j) = some (pageOf w) := by
        rw [target_entryOf hc hj', hv, Option.map_some, hx]
      obtain ⟨i, hi, -, heq⟩ := hlast _ hparent
      exact absurd (entryOf_inj (by omega) hj' heq).1.symm hne
    · have hkept := h.others x (not_structural h.accounted hwb hx)
        fun j hj hpass heq => hex ⟨j, hj, hpass, heq⟩
      obtain ⟨j, hj, hpass, heq⟩ := hlast x (hkept.symm.trans hx)
      rcases Nat.lt_or_eq_of_le hj with hlt | rfl
      · exact absurd ⟨j, hlt, hpass, heq⟩ hex
      · exact heq

private theorem skip (h : SpawnSharing M s c child free k b)
    (hhere : ∀ w, s.view c k = some w → HandedOn s c child k w (b.view child k))
    (hshort : Passes s c k → ShortAt s c child k)
    (hfree : freeLeft s c child free (k + 1) = freeLeft s c child free k) :
    SpawnSharing M s c child free (k + 1) b := by
  refine ⟨h.accounted, h.envs, h.view, fun n w hw => ?_, fun n hn => h.rest n (by omega), fun n hn w hw => ?_,
    fun x hx hav => h.others x hx fun n hn => hav n (by omega), fun n hn => ?_, by rw [hfree]; exact h.free⟩
  · exact (h.refs n w hw).trans (Nat.add_le_add_left (sharings_mono s c _ (Nat.le_succ k)) _)
  · rcases Nat.lt_succ_iff_lt_or_eq.mp hn with hlt | rfl
    · exact h.handed n hlt w hw
    · exact hhere w hw
  · rw [h.tables n hn]
    refine and_congr_right fun _ => ⟨fun hall j hj hjn hp => ?_, fun hall j hj => hall j (by omega)⟩
    rcases Nat.lt_succ_iff_lt_or_eq.mp hj with hlt | rfl
    · exact hall j hlt hjn hp
    · exact hshort hp

private theorem tables_succ (h : SpawnSharing M s c child free k b) (hpass : Passes s c k)
    (hfed : ¬ ShortAt s c child k) (hn : n < NUPAGE) :
    (Lacks s child n ∧ ∀ j < k + 1, j / 1024 = n / 1024 → Passes s c j → ShortAt s c child j) ↔
      Lacks b child n ∧ k / 1024 ≠ n / 1024 := by
  rw [h.tables n hn]
  constructor
  · rintro ⟨hlack, hall⟩
    exact ⟨⟨hlack, fun j hj => hall j (by omega)⟩, fun hkn => hfed (hall k (by omega) hkn hpass)⟩
  · rintro ⟨⟨hlack, hall⟩, hkn⟩
    refine ⟨hlack, fun j hj hjn hp => ?_⟩
    rcases Nat.lt_succ_iff_lt_or_eq.mp hj with hlt | rfl
    · exact hall j hlt hjn hp
    · exact absurd hjn hkn

/-- A page that is mapped costs a page for its table, or it frees the page that it replaces. -/
theorem costs (hs : Accounted M s) (h : SpawnSharing M s c child free k b) (hk : k < NUPAGE)
    (hchild : s.Live child) (hne : c ≠ child) (hw : s.view c k = some w) (hp : Passed w)
    (hfed : ¬ ShortAt s c child k) {m : Pmap} {perm : Nat}
    (hm : b.pmap.pageInsert (b.envs child).pgdir (pageOf w) (k * PGSIZE) perm = some (true, m)) :
    (∃ zs, System.FreePages { b with pmap := m } zs ∧ zs.length = freeLeft s c child free (k + 1)) ∧
      ∀ n < NUPAGE, Lacks { b with pmap := m } child n ↔
        Lacks s child n ∧ ∀ j < k + 1, j / 1024 = n / 1024 → Passes s c j → ShortAt s c child j := by
  obtain ⟨ys, hys, hlen⟩ := h.free
  obtain ⟨ts, hts⟩ := h.accounted.table
  have hlive : b.Live child := h.live.mpr hchild
  have hpass : Passes s c k := ⟨w, hw, hp⟩
  have htables := h.tables k hk
  have hpdx (n : Nat) (hn : n < NUPAGE) : k / 1024 ≠ n / 1024 ↔ PDX (n * PGSIZE) ≠ PDX (k * PGSIZE) := by
    rw [PDX_page hn, PDX_page hk]
    exact ne_comm
  by_cases hb : Lacks b child k
  · obtain ⟨hlack, hall⟩ := htables.mp hb
    have hopens : Opens s c k :=
      ⟨hpass, fun j hj hjk hpj => hfed ((ShortAt.congr (by omega) hk hjk).mp (hall j hj hjk hpj))⟩
    obtain ⟨q, zs, rfl, hzs, hdir⟩ := h.accounted.pageInsert_taken hlive hb hys hm
    refine ⟨⟨zs, hzs, ?_⟩, fun n hn => ?_⟩
    · rw [freeLeft, if_pos hlack, if_pos hopens, ← hlen, List.length_cons, Nat.add_sub_cancel]
    · rw [h.tables_succ hpass hfed hn, hpdx n hn]
      exact hdir _
  · obtain ⟨⟨zs, hzs, hcount⟩, hdir⟩ := h.accounted.pageInsert_given (fun _ => hts.head_not_live) hlive hk hb
      ((h.view k).trans hw) hne hys hm
    refine ⟨⟨zs, hzs, ?_⟩, fun n hn => ?_⟩
    · rw [hcount, hlen, freeLeft, h.rest k le_rfl]
      by_cases hlack : Lacks s child k
      · have hclosed : ¬ Opens s c k := fun hopens =>
          hb (htables.mpr ⟨hlack, fun j hj hjk hpj => absurd hpj (hopens.2 j hj hjk)⟩)
        rw [if_pos hlack, if_neg hclosed, hlack.view_eq_none]
        simp
      · rw [if_neg hlack]
        cases hv : s.view child k with
        | none => simp [Releases, hv]
        | some v => simp only [← releases_iff hs h hne hpass hv, Option.mem_some_iff, exists_eq_left']
    · rw [h.tables_succ hpass hfed hn]
      have hsame : Lacks { b with pmap := m } child n ↔ Lacks b child n := by
        rw [Lacks, Lacks]
        exact (congrFun hdir _).congr_left
      rw [hsame]
      refine ⟨fun hlack => ⟨hlack, fun hkn => hb ((Lacks.congr hk hn hkn).mpr hlack)⟩, And.left⟩

theorem mapped (h : SpawnSharing M s c child free k b) (hs : Accounted M s) (hk : k < NUPAGE) (hc : s.Live c)
    (hne : c ≠ child) (hid : s.envid2env c envid true = some child) (hw : s.view c k = some w) (hp : Passed w)
    (hlt : b.pmap.ppRef (pageOf w) < 65535) (hfed : ¬ ShortAt s c child k) {m : Pmap}
    (hr : Remaps M b { b with pmap := m } child k (some (entry (pageOf w) (PTE_SHARE ||| PTE_SYSCALL))))
    (hm : b.pmap.pageInsert (b.envs child).pgdir (pageOf w) (k * PGSIZE) (PTE_SHARE ||| PTE_SYSCALL) =
      some (true, m)) : SpawnSharing M s c child free (k + 1) { b with pmap := m } := by
  have hchild : s.Live child := live_of_envid2env hid hc
  have hwb := (h.view k).trans hw
  have hpage : pageOf (entry (pageOf w) (PTE_SHARE ||| PTE_SYSCALL)) = pageOf w :=
    pageOf_entry (pageOf_lt w) (by decide)
  have hparent (n : Nat) : System.view { b with pmap := m } c n = s.view c n := by
    rw [hr.view, if_neg fun hc => hne hc.1, h.view]
  have hother (n : Nat) (hn : n ≠ k) : System.view { b with pmap := m } child n = b.view child n := by
    rw [hr.view, if_neg fun hc => hn hc.2]
  obtain ⟨hfree, htables⟩ := h.costs hs hk hchild hne hw hp hfed hm
  refine ⟨hr.accounted, hr.envs.trans h.envs, hparent, fun n w' hw' => ?_,
    fun n hn => (hother n (by omega)).trans (h.rest n (by omega)), fun n hn w' hw' => ?_,
    fun x hx hav => ?_, htables, hfree⟩
  · have h1 := h.refs n w' hw'
    have h2 := hr.refs c n w' ((hparent n).trans hw')
    simp only [Option.map_some, hpage, Option.some.injEq] at h2
    change m.ppRef (pageOf w') ≤ _
    by_cases hsame : pageOf w = pageOf w'
    · rw [if_pos hsame] at h2
      rw [← hsame] at h1 h2 ⊢
      rw [sharings_succ_of_view hw hp]
      omega
    · rw [if_neg hsame] at h2
      have h3 := sharings_mono s c (pageOf w') (show k ≤ k + 1 by omega)
      omega
  · rcases Nat.lt_succ_iff_lt_or_eq.mp hn with hlt | rfl
    · rw [hother n (by omega)]
      exact h.handed n hlt w' hw'
    · obtain rfl := Option.some.inj (hw.symm.trans hw')
      exact ⟨fun hc => absurd hp hc, fun _ hs => absurd hs hfed, fun _ _ => by rw [hr.view, if_pos ⟨rfl, rfl⟩]⟩
  · obtain ⟨hva, hslot⟩ := target_of_view hwb
    obtain ⟨ys, hl⟩ := h.accounted.ledger
    have hM := managed_of_view h.accounted hwb
    rw [hl.count _ hM] at hlt
    obtain ⟨-, τ, htarget, hτ⟩ := h.accounted.pageInsert (h.live.mpr hchild) (page_lt_UTOP hk) hM
      (.inl ⟨rfl, Slot.page c (k * PGSIZE) hva, not_false, hslot⟩) (by decide) (.inl hlt) hm
    have hne' := hav k (by omega) ⟨w, hw, hp⟩
    rw [entryOf_eq child hk] at hne'
    rw [htarget, Function.update_of_ne hne'.symm, hτ x hx]
    exact h.others x hx fun n hn => hav n (by omega)

theorem copySharedPage (h : SpawnSharing M s c child xs.length k b) (hs : Accounted M s) (hxs : s.FreePages xs)
    (hk : k < UTOP / PGSIZE) (hc : s.Live c) (hne : c ≠ child) (hid : s.envid2env c envid true = some child)
    (hroom : RoomyShared s c) (ht : copySharedPage c envid b k = some t) :
    SpawnSharing M s c child xs.length (k + 1) t := by
  have hn : k < NUPAGE := hk
  have hlive : b.Live c := h.live.mpr hc
  have hidle (hp : ¬ Passes s c k) : freeLeft s c child xs.length (k + 1) = freeLeft s c child xs.length k := by
    simp [freeLeft, Opens, Releases, hp]
  rw [copySharedPage_eq hlive hn, h.view] at ht
  cases hw : s.view c k with
  | none =>
    rw [hw] at ht
    obtain rfl : b = t := Option.some.inj ht
    have hp : ¬ Passes s c k := by simp [Passes, hw]
    refine h.skip (fun w hw' => ?_) (fun hc => absurd hc hp) (hidle hp)
    rw [hw] at hw'
    cases hw'
  | some w =>
    rw [hw, Option.elim_some] at ht
    by_cases hp : Passed w
    · rw [if_pos hp] at ht
      have hlt : b.pmap.ppRef (pageOf w) < 65535 := by
        have h1 := h.refs k w hw
        have h2 := hroom k w hk hw hp
        have h3 := sharings_mono s c (pageOf w) (show k + 1 ≤ UTOP / PGSIZE from hk)
        rw [sharings_succ_of_view hw hp] at h3
        omega
      have hmapped := ignored_map h.accounted hlive ((envid2env_congr h.envs c envid true).trans hid)
        ((h.view k).trans hw) hlt ht
      rw [h.starved_iff hxs hn] at hmapped
      rcases hmapped with ⟨hfed, hr, m, hm, rfl⟩ | ⟨hshort, rfl⟩
      · exact h.mapped hs hn hc hne hid hw hp hlt hfed hr hm
      · obtain ⟨hlack, hzero⟩ := (shortAt_iff hxs).mp hshort
        refine h.skip (fun w' hw' => ?_) (fun _ => hshort) ?_
        · obtain rfl := Option.some.inj (hw.symm.trans hw')
          refine ⟨fun hc => absurd hp hc, fun _ _ => ?_, fun _ hfed => absurd hshort hfed⟩
          rw [h.rest k le_rfl, hlack.view_eq_none]
        · have hnone : freeLeft s c child xs.length k = 0 := by
            rw [freeLeft_table hn hlack, hzero, Nat.zero_sub]
          rw [freeLeft, if_pos hlack, hnone, Nat.zero_sub]
    · rw [if_neg hp] at ht
      obtain rfl : b = t := Option.some.inj ht
      have hpass : ¬ Passes s c k := by simp [Passes, hw, hp]
      refine h.skip (fun w' hw' => ?_) (fun hc => absurd hc hpass) (hidle hpass)
      obtain rfl := Option.some.inj (hw.symm.trans hw')
      exact ⟨fun _ => h.rest k le_rfl, fun hc => absurd hc hp, fun hc => absurd hc hp⟩

end SpawnSharing

private theorem copySharedPages_handed (h : Accounted M s) (hc : s.Live c) (hne : c ≠ child)
    (hid : s.envid2env c envid true = some child) (hroom : RoomyShared s c)
    (ht : copySharedPages s c envid = some t) : ∀ n < UTOP / PGSIZE, ∀ w, s.view c n = some w →
      HandedOn s c child n w (t.view child n) := by
  obtain ⟨xs, hl⟩ := h.ledger
  have hxs : s.FreePages xs := hl.chain
  have hsharing := foldlM_range_invariant (I := SpawnSharing M s c child xs.length)
    (fun k hk b b' hb hstep => hb.copySharedPage h hxs hk hc hne hid hroom hstep)
    ⟨h, rfl, fun _ => rfl, fun _ _ _ => Nat.le_add_right _ _, fun _ _ => rfl,
      fun _ hn => absurd hn (Nat.not_lt_zero _), fun _ _ _ => rfl,
      fun _ _ => (and_iff_left fun _ hj => absurd hj (Nat.not_lt_zero _)).symm, xs, hxs, rfl⟩ ht
  exact hsharing.handed

private theorem copySharedPages_keepsShared_iff (h : Accounted M s) (hc : s.Live c) (hne : c ≠ child)
    (hid : s.envid2env c envid true = some child) (hroom : RoomyShared s c)
    (ht : copySharedPages s c envid = some t) :
    KeepsShared s t c child (UTOP / PGSIZE) ↔
      ∀ n < UTOP / PGSIZE, ∀ w, s.view c n = some w → w &&& PTE_SHARE ≠ 0 →
        if w &&& PTE_U ≠ 0 then AllRights w ∧ ¬ ShortAt s c child n else KeepsPage s child n w := by
  have hhanded := copySharedPages_handed h hc hne hid hroom ht
  refine forall₂_congr fun n hn => forall₃_congr fun w hw hmark => ?_
  have hchild := hhanded n hn w hw
  by_cases hU : w &&& PTE_U ≠ 0
  · rw [if_pos hU]
    by_cases hshort : ShortAt s c child n
    · constructor
      · intro hkeeps
        exact absurd hkeeps (not_keepsPage (hchild.short ⟨hU, hmark⟩ hshort))
      · intro hcond
        exact absurd hshort hcond.2
    · rw [keepsPage_shared (hchild.shared ⟨hU, hmark⟩ hshort)]
      exact (and_iff_left hshort).symm
  · rw [if_neg hU, KeepsPage, KeepsPage, hchild.skipped fun hc => hU hc.1]

end Spawn

/-- The marked pages of a parent reach the child with the parent's rights exactly when the parent has all rights
for them; `copy_shared_pages` also fails where memory runs out, and it passes over pages without `PTE_U`. -/
theorem shared_pages_rights_iff {M : Nat → Prop} {s : System} {c : Fin NENV} (h : Accounted M s) (hc : s.Live c) :
    (∀ installed upcall id t, Roomy s c → fork s c installed upcall = some (id, t) →
      (KeepsShared s t c (ENVX id) (USTACKTOP / PGSIZE) ↔
        ∀ n < USTACKTOP / PGSIZE, ∀ w, s.view c n = some w → w &&& PTE_SHARE ≠ 0 → AllRights w)) ∧
    ∀ child envid t, c ≠ child → s.envid2env c envid true = some child → RoomyShared s c →
      copySharedPages s c envid = some t →
      (KeepsShared s t c child (UTOP / PGSIZE) ↔
        ∀ n < UTOP / PGSIZE, ∀ w, s.view c n = some w → w &&& PTE_SHARE ≠ 0 →
          if w &&& PTE_U ≠ 0 then AllRights w ∧ ¬ ShortAt s c child n else KeepsPage s child n w) :=
  ⟨fun _ _ _ _ hroom ht => fork_keepsShared_iff h hc hroom ht,
    fun _ _ _ hne hid hroom ht => copySharedPages_keepsShared_iff h hc hne hid hroom ht⟩

private theorem roomyShared_of_le {M : Nat → Prop} {s : System} {c : Fin NENV} (h : Accounted M s)
    (hle : ∀ p, M p → s.pmap.ppRef p ≤ 32767) : RoomyShared s c := by
  intro n w hn hw _
  obtain ⟨xs, hl⟩ := h.ledger
  have hM := managed_of_view h hw
  have hdups := dups_le_references s c (show UTOP / PGSIZE ≤ NUPAGE by decide) (pageOf w)
  have hsharings : sharings s c (UTOP / PGSIZE) (pageOf w) ≤ dups s c (UTOP / PGSIZE) (pageOf w) := by
    rw [sharings, dups]
    refine List.countP_mono_left fun k _ hk => ?_
    cases hv : s.view c k with
    | none => simp [hv] at hk
    | some v =>
      simp only [hv, Option.any_some, Bool.and_eq_true, decide_eq_true_eq] at hk
      simp [hk.1.1, hk.2]
  rw [← hl.count _ hM] at hdups
  have := hle _ hM
  omega

/-- The program maps its read-only page once more, marked with `PTE_SHARE`. -/
def markedSystem : System :=
  (sampleSystem.sysPageMap 1 0 0x801000 0 0x802000 (permArg (PTE_SHARE ||| PTE_U ||| PTE_P))).state?.getD sampleSystem

def parentSystem : System := (markedSystem.sysExofork 1).state?.getD markedSystem

private theorem parentSystem_spec : Accounted SamplePage parentSystem ∧ parentSystem.Live 1 ∧
    parentSystem.envid2env 1 0x1002 true = some 2 ∧
    ∀ n, parentSystem.view 1 n =
      if n = 0x802 then some (entry 305 (PTE_SHARE ||| PTE_U ||| PTE_P)) else sampleSystem.view 1 n := by
  have hmark : sampleSystem.sysPageMap 1 0 0x801000 0 0x802000 (permArg (PTE_SHARE ||| PTE_U ||| PTE_P)) =
      .returns 0 markedSystem := rfl
  have hfork : markedSystem.sysExofork 1 = .returns 0x1002 parentSystem := rfl
  have hlive : sampleSystem.Live 1 := by decide
  have hview : sampleSystem.view 1 0x801 = some (entry 305 PTE_U) := by
    rw [view_eq hlive (by decide)]
    rfl
  obtain ⟨hr, -⟩ := sampleSystem_accounted.sysPageMap (k := 0x801) (n := 0x802) hlive (envid2env_zero _ 1 true)
    (envid2env_zero _ 1 true) (by decide) (by decide) hview (.inl (by decide)) hmark le_rfl
  have hlive' : markedSystem.Live 1 := by
    rw [System.Live, hr.envs]
    exact hlive
  rcases exofork_child hr.accounted hlive' hfork with ⟨hr, -⟩ | ⟨-, hid, hu, -, henvs, -⟩
  · exact absurd hr (by decide)
  · refine ⟨hu.accounted, ?_, hid, fun n => ?_⟩
    · rw [System.Live, henvs 1 (by decide)]
      exact hlive'
    · rw [hu.view, hr.view]
      simp only [true_and]
      rfl

private theorem parentSystem_passed {n w : Nat} (hw : parentSystem.view 1 n = some w) (hp : Passed w) : n = 0x802 := by
  obtain ⟨-, -, -, hview⟩ := parentSystem_spec
  rw [hview] at hw
  split at hw
  · assumption
  · obtain ⟨hlive, hn, hmap⟩ := view_eq_some hw
    have hbits := hp.2
    rcases sampleSystem_mapping hlive (page_lt_UTOP hn) hmap with rfl | rfl
    · rw [entry_and (by decide)] at hbits
      exact absurd rfl hbits
    · rw [entry_and (by decide)] at hbits
      exact absurd rfl hbits

private theorem copySharedPages_parentSystem : ∃ t, copySharedPages parentSystem 1 0x1002 = some t := by
  obtain ⟨hacc, hlive, hid, -⟩ := parentSystem_spec
  obtain ⟨t, ht⟩ : ∃ t, copySharedPage 1 0x1002 parentSystem 0x802 = some t := ⟨_, rfl⟩
  have hview : parentSystem.view 1 0x802 = some (entry 305 (PTE_SHARE ||| PTE_U ||| PTE_P)) := by
    obtain ⟨-, -, -, hview⟩ := parentSystem_spec
    rw [hview, if_pos rfl]
  have hsame : t.Live 1 ∧ ∀ n, t.view 1 n = parentSystem.view 1 n := by
    have hcall := ht
    rw [copySharedPage_eq hlive (by decide), hview, Option.elim_some, if_pos (by decide)] at hcall
    rcases ignored_map hacc hlive hid hview (by decide) hcall with ⟨-, hr, -⟩ | ⟨-, rfl⟩
    · refine ⟨?_, fun n => ?_⟩
      · rw [System.Live, hr.envs]
        exact hlive
      · rw [hr.view, if_neg (by simp)]
    · exact ⟨hlive, fun _ => rfl⟩
  have hskip {u : System} (hu : u.Live 1) (hsame : ∀ n, u.view 1 n = parentSystem.view 1 n) {n : Nat}
      (hn : n < NUPAGE) (hne : n ≠ 0x802) : copySharedPage 1 0x1002 u n = some u := by
    rw [copySharedPage_eq hu hn, hsame]
    cases hw : parentSystem.view 1 n with
    | none => rfl
    | some w => exact if_neg fun hp => hne (parentSystem_passed hw hp)
  refine ⟨t, foldlM_range_single (k := 0x802) (by decide) (fun n hn => ?_) ht fun n hlo hhi => ?_⟩
  · have hN : (0x802 : Nat) ≤ NUPAGE := by decide
    exact hskip hlive (fun _ => rfl) (by omega) (by omega)
  · exact hskip hsame.1 hsame.2 hhi (by omega)

private theorem parentSystem_roomy : RoomyShared parentSystem 1 := by
  refine roomyShared_of_le parentSystem_spec.1 ?_
  rintro p ⟨hlo, hhi⟩
  interval_cases p <;> decide

private theorem parentSystem_not_kept {t : System} (ht : copySharedPages parentSystem 1 0x1002 = some t) :
    ¬ KeepsShared parentSystem t 1 2 (UTOP / PGSIZE) := by
  obtain ⟨hacc, hlive, hid, hview⟩ := parentSystem_spec
  rw [copySharedPages_keepsShared_iff hacc hlive (by decide) hid parentSystem_roomy ht]
  intro hall
  have hcond := hall 0x802 (by decide) _ (by rw [hview, if_pos rfl]) (by decide)
  rw [if_pos (by decide)] at hcond
  exact absurd hcond.1 (by decide)

/-- A page shared for reading comes to the child writable. -/
theorem shared_pages_overshared : ¬ ∀ (M : Nat → Prop) (s : System) (c : Fin NENV), Accounted M s → s.Live c →
    (∀ installed upcall id t, Roomy s c → fork s c installed upcall = some (id, t) →
      KeepsShared s t c (ENVX id) (USTACKTOP / PGSIZE)) ∧
    ∀ child envid t, c ≠ child → s.envid2env c envid true = some child → RoomyShared s c →
      copySharedPages s c envid = some t → KeepsShared s t c child (UTOP / PGSIZE) := by
  intro hall
  obtain ⟨hacc, hlive, hid, -⟩ := parentSystem_spec
  obtain ⟨t, ht⟩ := copySharedPages_parentSystem
  have hkept := (hall SamplePage parentSystem 1 hacc hlive).2 2 0x1002 t (by decide) hid parentSystem_roomy ht
  exact parentSystem_not_kept ht hkept

theorem shared_pages_rights_parentSystem :
    ∃ t, copySharedPages parentSystem 1 0x1002 = some t ∧ (KeepsShared parentSystem t 1 2 (UTOP / PGSIZE) ↔
      ∀ n < UTOP / PGSIZE, ∀ w, parentSystem.view 1 n = some w → w &&& PTE_SHARE ≠ 0 →
        if w &&& PTE_U ≠ 0 then AllRights w ∧ ¬ ShortAt parentSystem 1 2 n
        else KeepsPage parentSystem 2 n w) := by
  obtain ⟨hacc, hlive, hid, -⟩ := parentSystem_spec
  obtain ⟨t, ht⟩ := copySharedPages_parentSystem
  exact ⟨t, ht, (shared_pages_rights_iff hacc hlive).2 2 0x1002 t (by decide) hid parentSystem_roomy ht⟩

end DamnOS.User
