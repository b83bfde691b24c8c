import DamnOS.Kernel.Authority
import DamnOS.Kernel.Conservation

/-!
# Environment ids

`env_alloc` counts the environments of a slot in the upper bits of their ids.  The count starts again at one
when the id would become negative, so an id comes back after as many allocations as there are generations.
-/

namespace DamnOS.Kernel

open DamnOS.Framework

def NGEN : Nat := 2 ^ 19 - 1

private theorem NGEN_eq : NGEN = 524287 := rfl

private theorem toNat_and_gen (x : BitVec 32) : (x &&& ~~~1023#32).toNat = x.toNat / 1024 * 1024 := by
  have hlt := x.isLt
  rw [BitVec.toNat_and, show (~~~1023#32).toNat = 0xFFFFFC00 by decide]
  have hdiv : (x.toNat &&& 0xFFFFFC00) / 1024 = x.toNat / 1024 := by
    rw [show (1024 : Nat) = 2 ^ 10 by rfl, ← Nat.shiftRight_eq_div_pow, Nat.shiftRight_and_distrib]
    have hmask : x.toNat >>> 10 &&& 0xFFFFFC00 >>> 10 = x.toNat >>> 10 % 2 ^ 22 :=
      Nat.and_two_pow_sub_one_eq_mod _ 22
    rw [hmask, Nat.shiftRight_eq_div_pow]
    omega
  have hmod : (x.toNat &&& 0xFFFFFC00) % 1024 = 0 := by
    rw [show (1024 : Nat) = 2 ^ 10 by rfl, ← Nat.and_two_pow_sub_one_eq_mod, Nat.and_assoc]
    simp
  omega

private theorem toNat_or_slot {g : BitVec 32} (hg : g.toNat % 1024 = 0) (e : Fin NENV) :
    (g ||| BitVec.ofNat 32 e).toNat = g.toNat + e := by
  have he : e.val < 2 ^ 10 := e.isLt
  rw [BitVec.toNat_or, BitVec.toNat_ofNat, Nat.mod_eq_of_lt (by omega)]
  have hshift : g.toNat = (g.toNat / 1024) <<< 10 := by
    rw [Nat.shiftLeft_eq]
    omega
  rw [hshift, ← Nat.shiftLeft_add_eq_or_of_lt he]

private theorem nextEnvId_toNat {id : BitVec 32} {k : Nat} (hid : id.toNat / 1024 = 4 * k) (hk : k ≤ NGEN)
    (e : Fin NENV) :
    (nextEnvId id e).toNat = 4096 * (k % NGEN + 1) + e := by
  rw [NGEN_eq] at hk ⊢
  have hsum : (id + 4096#32).toNat = id.toNat + 4096 := by
    rw [BitVec.toNat_add]
    exact Nat.mod_eq_of_lt (by simp only [BitVec.toNat_ofNat]; omega)
  have hgen : ((id + 4096#32) &&& ~~~1023#32).toNat = 4096 * (k + 1) := by
    rw [toNat_and_gen, hsum]
    omega
  have hnext : (nextGeneration id).toNat = 4096 * (k % 524287 + 1) := by
    have hint := BitVec.toInt_eq_toNat_cond ((id + 4096#32) &&& ~~~1023#32)
    rw [hgen] at hint
    unfold nextGeneration
    by_cases hlast : k = 524287
    · rw [if_neg (by omega)] at hint
      rw [if_pos (by omega), hlast]
      rfl
    · rw [if_pos (by omega)] at hint
      rw [if_neg (by omega), hgen, Nat.mod_eq_of_lt (by omega)]
  rw [nextEnvId_eq, toNat_or_slot (by omega), hnext]

/-- The id of environment number `n` in slot `e`; `env_init` sets the id of the slot to 0. -/
def slotId (e : Fin NENV) : Nat → BitVec 32
  | 0 => nextEnvId 0 e
  | n + 1 => nextEnvId (slotId e n) e

private theorem slotId_toNat (e : Fin NENV) (n : Nat) : (slotId e n).toNat = 4096 * (n % NGEN + 1) + e := by
  have he : e.val < 1024 := e.isLt
  induction n with
  | zero => exact nextEnvId_toNat (k := 0) (by simp) (Nat.zero_le _) e
  | succ n ih =>
    rw [NGEN_eq] at ih
    have hstep := @nextEnvId_toNat (slotId e n) (n % 524287 + 1) (by omega) (by rw [NGEN_eq]; omega) e
    rw [slotId, hstep, NGEN_eq]
    omega

private theorem slotId_ne {e : Fin NENV} {m n : Nat} (hlt : m < n) (hapart : n - m < NGEN) :
    slotId e m ≠ slotId e n := by
  intro heq
  have hsame := congrArg BitVec.toNat heq
  rw [slotId_toNat, slotId_toNat, NGEN_eq] at hsame
  rw [NGEN_eq] at hapart
  omega

private theorem slotId_pos (e : Fin NENV) (n : Nat) : 0 < (slotId e n).toInt := by
  cases n with
  | zero => exact nextEnvId_pos 0 e
  | succ n => exact nextEnvId_pos _ e

private theorem ENVX_slotId (e : Fin NENV) (n : Nat) : ENVX (slotId e n) = e := by
  cases n with
  | zero => exact ENVX_nextEnvId 0 e
  | succ n => exact ENVX_nextEnvId _ e

/-- A slot keeps its id and is not taken, or it goes to an environment with the next id. -/
def Turned (s t : System) : Prop := ∀ i, ((t.envs i).id = (s.envs i).id ∧ (t.Live i → s.Live i)) ∨
  (¬s.Live i ∧ t.Live i ∧ (t.envs i).id = nextEnvId (s.envs i).id i)

theorem SameTable.turned {s t : System} (h : SameTable s t) : Turned s t :=
  fun i => .inl ⟨h.id i, (h.live i).mp⟩

theorem Turned.same {s u t : System} (h : Turned s u) (h' : SameTable u t) : Turned s t := by
  intro i
  rw [h'.id, h'.live]
  exact h i

section Steps

variable {s t : System} {xs : List (Fin NENV)}

private theorem EnvTable.turned_envAlloc (h : EnvTable s xs) {parent : BitVec 32} {e : Fin NENV}
    (ha : s.envAlloc parent = (.ok e, t)) : Turned s t := by
  obtain ⟨he, q, -, rfl⟩ := envAlloc_cases ha
  intro i
  by_cases hie : i = e
  · subst hie
    exact .inr ⟨h.head_not_live he, by simp [System.Live, Env.fresh], by simp [Env.fresh]⟩
  · exact .inl (by simp [System.Live, hie])

private theorem turned_envFree {e : Fin NENV} (hf : s.envFree e = some t) : Turned s t := by
  simp only [System.envFree, Option.map_eq_some_iff] at hf
  obtain ⟨m, -, rfl⟩ := hf
  intro i
  left
  by_cases hie : i = e
  · subst hie
    simp [System.Live, System.setEnv]
  · simp [System.Live, System.setEnv, hie]

private theorem turned_envDestroy {e : Fin NENV} (he : s.Live e) {b : Bool} (hd : s.envDestroy e = some (b, t)) :
    Turned s t := by
  unfold System.envDestroy at hd
  split at hd
  · obtain ⟨-, rfl⟩ : true = b ∧ _ = t := by simpa using hd
    exact SameTable.turned (.update rfl rfl ⟨fun _ => he, fun _ => by simp⟩)
  · obtain ⟨u, hu, hbt⟩ := Option.map_eq_some_iff.mp hd
    have hfree := turned_envFree hu
    split at hbt
    · obtain ⟨-, rfl⟩ := Prod.mk.inj hbt
      exact hfree.same ((Rescheduled.curenv u none).trans (.schedYield _)).sameTable
    · obtain ⟨-, rfl⟩ := Prod.mk.inj hbt
      exact hfree

theorem CallEffect.turned {c : Fin NENV} {a : Call} {o : Outcome} (h : CallEffect s c a o) (hs : EnvTable s xs)
    (hc : s.Live c) (ho : o.state? = some t) : Turned s t := by
  cases h with
  | panic => simp [Outcome.state?] at ho
  | quiet ha r m =>
    obtain rfl : _ = t := Option.some.inj ho
    exact (SameTable.pmap s m).turned
  | destroy b he ht =>
    obtain rfl : _ = t := by cases b <;> exact Option.some.inj ho
    exact turned_envDestroy (live_of_envid2env he hc) ht
  | noChild r ht =>
    obtain rfl : _ = t := Option.some.inj ho
    rw [envAlloc_error ht]
    exact (SameTable.refl s).turned
  | child ht =>
    obtain rfl : _ = t := Option.some.inj ho
    have hlive := (hs.envAlloc_ok ht).2
    exact (hs.turned_envAlloc ht).same (.update rfl rfl ⟨fun _ => hlive, fun _ => by simp [Env.child]⟩)
  | setStatus st he hst =>
    obtain rfl : _ = t := Option.some.inj ho
    have hlive := live_of_envid2env he hc
    exact SameTable.turned (.update rfl rfl ⟨fun _ => hlive, fun _ => hst⟩)
  | setTrapframe he =>
    obtain rfl : _ = t := Option.some.inj ho
    exact SameTable.turned (.update rfl rfl Iff.rfl)
  | setUpcall he =>
    obtain rfl : _ = t := Option.some.inj ho
    exact SameTable.turned (.update rfl rfl Iff.rfl)
  | yield =>
    obtain rfl : _ = t := Option.some.inj ho
    exact (Rescheduled.schedYield s).sameTable.turned
  | unsent r hr =>
    obtain rfl : _ = t := Option.some.inj ho
    exact (SameTable.refl s).turned
  | refused r m p he hrecv hr =>
    obtain rfl : _ = t := Option.some.inj ho
    exact SameTable.turned (.update rfl rfl Iff.rfl)
  | deliver m p he hrecv =>
    obtain rfl : _ = t := Option.some.inj ho
    have hlive := live_of_envid2env he hc
    exact SameTable.turned (.update rfl rfl ⟨fun _ => hlive, fun _ => by simp [Env.delivered]⟩)
  | @receive dstva =>
    obtain rfl : _ = t := Option.some.inj ho
    have hsame : SameTable s (s.setEnv c ((s.envs c).waiting dstva.toNat)) :=
      .update rfl rfl ⟨fun _ => hc, fun _ => by simp [Env.waiting]⟩
    exact (hsame.trans (Rescheduled.schedYield _).sameTable).turned

theorem Event.turned (i : Event) (hs : EnvTable s xs) (h : i.exec s = some t) : Turned s t := by
  cases i with
  | run e =>
    simp only [Event.exec] at h
    split at h
    · next hr =>
      obtain rfl : _ = t := Option.some.inj h
      exact (Rescheduled.envRun (by simp [System.Live, hr])).sameTable.turned
    · obtain rfl : _ = t := Option.some.inj h
      exact (SameTable.refl s).turned
  | call a =>
    simp only [Event.exec] at h
    split at h
    · obtain rfl : _ = t := Option.some.inj h
      exact (SameTable.refl s).turned
    · next c _ =>
      split at h
      · next hact =>
        obtain ⟨u, hu, hsame⟩ := sameTable_resume h
        exact ((a.effect s c).turned hs hact.live hu).same hsame
      · obtain rfl : _ = t := Option.some.inj h
        exact (SameTable.refl s).turned

theorem TableEvent.turned (i : TableEvent) (hs : EnvTable s xs) (h : i.exec s = some t) : Turned s t := by
  cases i with
  | envAlloc parent =>
    obtain rfl : _ = t := Option.some.inj h
    cases hr : s.envAlloc parent with
    | mk r u =>
      cases r with
      | error r =>
        rw [envAlloc_error hr]
        exact (SameTable.refl s).turned
      | ok e => exact hs.turned_envAlloc hr
  | envFree e =>
    simp only [TableEvent.exec] at h
    split at h
    · exact turned_envFree h
    · obtain rfl := Option.some.inj h
      exact (SameTable.refl s).turned
  | envDestroy e =>
    simp only [TableEvent.exec] at h
    split at h
    · next he =>
      obtain ⟨⟨b, u⟩, hd, rfl⟩ := Option.map_eq_some_iff.mp h
      exact turned_envDestroy he hd
    · obtain rfl := Option.some.inj h
      exact (SameTable.refl s).turned
  | event i => exact i.turned hs h

end Steps

/-- The ids that a slot is given along a run, in order: one whenever it stops being free. -/
def givenIds (e : Fin NENV) : List TableEvent → System → List (BitVec 32)
  | [], _ => []
  | i :: events, s =>
    match i.exec s with
    | none => []
    | some t => if ¬s.Live e ∧ t.Live e then (t.envs e).id :: givenIds e events t else givenIds e events t

private theorem givenIds_eq (e : Fin NENV) (events : List TableEvent) {s : System} {xs : List (Fin NENV)}
    (hs : EnvTable s xs) {n : Nat} (hid : nextEnvId (s.envs e).id e = slotId e n) :
    ∃ k, givenIds e events s = (List.range' n k).map (slotId e) := by
  induction events generalizing s xs n with
  | nil => exact ⟨0, rfl⟩
  | cons i events ih =>
    unfold givenIds
    cases ht : i.exec s with
    | none => exact ⟨0, rfl⟩
    | some t =>
      obtain ⟨ys, hys⟩ := i.envTable hs ht
      dsimp only
      rcases i.turned hs ht e with ⟨hsame, hlive⟩ | ⟨hfree, hlive, hnext⟩
      · rw [if_neg fun h => h.1 (hlive h.2)]
        exact ih hys (by rw [hsame, hid])
      · rw [if_pos ⟨hfree, hlive⟩, hnext, hid]
        have hstep : nextEnvId (t.envs e).id e = slotId e (n + 1) := by rw [hnext, hid, slotId]
        obtain ⟨k, hk⟩ := ih hys hstep
        exact ⟨k + 1, by rw [hk, List.range'_succ, List.map_cons]⟩

private theorem envInit_id (s : System) (e : Fin NENV) : (s.envInit.envs e).id = 0 := by
  have hall : e ∈ List.finRange NENV := List.mem_finRange e
  unfold System.envInit
  generalize ({ s with envFreeList := none } : System) = u
  revert hall
  induction List.finRange NENV with
  | nil =>
    intro hall
    cases hall
  | cons a l ih =>
    intro hall
    simp only [List.foldr_cons, System.envInitStep, System.setEnv]
    by_cases hea : e = a
    · subst hea
      simp
    · simpa [hea] using ih (by simpa [hea] using hall)

/-- In every run of the kernel, the ids that a slot is given are positive and tell the slot, and two of them
that are fewer than `2 ^ 19 - 1` allocations apart differ. -/
theorem env_ids_fresh (s₀ : System) (events : List TableEvent) (e : Fin NENV) :
    let ids := givenIds e events s₀.envInit
    (∀ id ∈ ids, 0 < id.toInt ∧ ENVX id = e) ∧
    ∀ m n id id', m < n → n - m < 2 ^ 19 - 1 → ids[m]? = some id → ids[n]? = some id' → id ≠ id' := by
  have hid : nextEnvId (s₀.envInit.envs e).id e = slotId e 0 := by rw [envInit_id, slotId]
  obtain ⟨k, hk⟩ := givenIds_eq e events (envInit_envTable s₀) hid
  have hget (n : Nat) (id : BitVec 32) (h : ((List.range' 0 k).map (slotId e))[n]? = some id) : id = slotId e n := by
    rw [List.getElem?_map, Option.map_eq_some_iff] at h
    obtain ⟨j, hj, rfl⟩ := h
    obtain ⟨hlt, hval⟩ := List.getElem?_eq_some_iff.mp hj
    rw [List.getElem_range', Nat.one_mul, Nat.zero_add] at hval
    rw [hval]
  dsimp only
  rw [hk]
  constructor
  · intro id hmem
    obtain ⟨n, -, rfl⟩ := List.mem_map.mp hmem
    exact ⟨slotId_pos e n, ENVX_slotId e n⟩
  · intro m n id id' hlt hapart hm hn
    rw [hget m id hm, hget n id' hn]
    exact slotId_ne hlt hapart

end DamnOS.Kernel
