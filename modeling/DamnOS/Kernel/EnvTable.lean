import DamnOS.Kernel.Effects
import DamnOS.Framework.Chain

/-!
# The environment table

`env_free_list` holds the free slots and nothing else, and the id of an environment tells its
slot.  Most functions leave the list, the ids and the set of free slots alone; `env_alloc` and
`env_free` move one slot across.
-/

namespace DamnOS.Kernel

open DamnOS.Framework

private theorem ENVX_or {g : BitVec 32} (hg : g &&& 1023#32 = 0#32) (e : Fin NENV) :
    ENVX (g ||| BitVec.ofNat 32 e) = e := by
  have he : BitVec.ofNat 32 e &&& 1023#32 = BitVec.ofNat 32 e := by
    apply BitVec.eq_of_toNat_eq
    rw [BitVec.toNat_and]
    have hlt : e.val < 1024 := e.isLt
    simp only [BitVec.toNat_ofNat]
    rw [Nat.mod_eq_of_lt (by omega), show 1023 % 2 ^ 32 = 2 ^ 10 - 1 by rfl,
      Nat.and_two_pow_sub_one_eq_mod]
    exact Nat.mod_eq_of_lt hlt
  apply Fin.ext
  have hlt : e.val < 1024 := e.isLt
  simp only [ENVX, BitVec.and_or_distrib_right, hg, he, BitVec.zero_or, BitVec.toNat_ofNat]
  omega

private theorem toInt_or_pos {g : BitVec 32} (hg : 0 < g.toInt) (e : Fin NENV) :
    0 < (g ||| BitVec.ofNat 32 e).toInt := by
  have hlt : e.val < 1024 := e.isLt
  have hsmall : g.toNat < 2 ^ 31 ∧ 0 < g.toNat := by
    rw [BitVec.toInt_eq_toNat_cond] at hg
    split at hg <;> omega
  have hor : (g ||| BitVec.ofNat 32 e).toNat = g.toNat ||| e.val := by
    rw [BitVec.toNat_or, BitVec.toNat_ofNat, Nat.mod_eq_of_lt (by omega)]
  have hub : g.toNat ||| e.val < 2 ^ 31 := Nat.or_lt_two_pow hsmall.1 (by omega)
  have hlb : g.toNat ≤ g.toNat ||| e.val := Nat.left_le_or
  rw [BitVec.toInt_eq_toNat_cond, hor, if_pos (by omega)]
  omega

/-- The generation that `env_alloc` computes. -/
def nextGeneration (id : BitVec 32) : BitVec 32 :=
  if ((id + 4096#32) &&& ~~~1023#32).toInt ≤ 0 then 4096#32 else (id + 4096#32) &&& ~~~1023#32

theorem nextEnvId_eq (id : BitVec 32) (e : Fin NENV) :
    nextEnvId id e = nextGeneration id ||| BitVec.ofNat 32 e := rfl

private theorem nextGeneration_pos (id : BitVec 32) : 0 < (nextGeneration id).toInt := by
  unfold nextGeneration
  split
  · decide
  · omega

private theorem nextGeneration_and (id : BitVec 32) : nextGeneration id &&& 1023#32 = 0#32 := by
  unfold nextGeneration
  split
  · decide
  · rw [BitVec.and_assoc, show ~~~1023#32 &&& 1023#32 = 0#32 by decide]
    exact BitVec.and_zero

theorem ENVX_nextEnvId (id : BitVec 32) (e : Fin NENV) : ENVX (nextEnvId id e) = e :=
  ENVX_or (nextGeneration_and id) e

theorem nextEnvId_pos (id : BitVec 32) (e : Fin NENV) : 0 < (nextEnvId id e).toInt :=
  toInt_or_pos (nextGeneration_pos id) e

def System.Live (s : System) (i : Fin NENV) : Prop := (s.envs i).status ≠ .free

instance (s : System) (i : Fin NENV) : Decidable (s.Live i) := inferInstanceAs (Decidable (_ ≠ _))

theorem System.Active.live {s : System} {c : Fin NENV} (h : s.Active c) : s.Live c := by
  intro hf
  rcases h with h | h <;> simp [hf] at h

/-- `xs` is `env_free_list`, the list of the free slots, and ids tell slots. -/
structure EnvTable (s : System) (xs : List (Fin NENV)) : Prop where
  chain : Chain (fun i => (s.envs i).link) s.envFreeList xs
  free : ∀ i, i ∈ xs ↔ ¬ s.Live i
  pos : ∀ i, s.Live i → 0 < (s.envs i).id.toInt
  slot : ∀ i, s.Live i → ENVX (s.envs i).id = i

/-- Nothing that the table depends on differs. -/
structure SameTable (s t : System) : Prop where
  list : t.envFreeList = s.envFreeList
  link : ∀ i, (t.envs i).link = (s.envs i).link
  id : ∀ i, (t.envs i).id = (s.envs i).id
  live : ∀ i, t.Live i ↔ s.Live i

namespace SameTable

variable {s t u : System}

theorem refl (s : System) : SameTable s s := ⟨rfl, fun _ => rfl, fun _ => rfl, fun _ => Iff.rfl⟩

theorem trans (h : SameTable s t) (h' : SameTable t u) : SameTable s u :=
  ⟨h'.list.trans h.list, fun i => (h'.link i).trans (h.link i), fun i => (h'.id i).trans (h.id i),
    fun i => (h'.live i).trans (h.live i)⟩

/-- One environment changes, but not its link, its id, or whether it is free. -/
theorem update {e : Fin NENV} {v : Env} {m : Pmap} {o : Option (Fin NENV)}
    (hl : v.link = (s.envs e).link) (hi : v.id = (s.envs e).id) (hv : v.status ≠ .free ↔ s.Live e) :
    SameTable s ⟨m, Function.update s.envs e v, s.envFreeList, o⟩ := by
  refine ⟨rfl, fun i => ?_, fun i => ?_, fun i => ?_⟩
  · by_cases h : i = e
    · subst h; simp [hl]
    · simp [h]
  · by_cases h : i = e
    · subst h; simp [hi]
    · simp [h]
  · by_cases h : i = e
    · subst h; simpa [System.Live] using hv
    · simp [System.Live, h]

theorem pmap (s : System) (m : Pmap) : SameTable s { s with pmap := m } :=
  ⟨rfl, fun _ => rfl, fun _ => rfl, fun _ => Iff.rfl⟩

theorem curenv (s : System) (o : Option (Fin NENV)) : SameTable s { s with curenv := o } :=
  ⟨rfl, fun _ => rfl, fun _ => rfl, fun _ => Iff.rfl⟩

theorem envTable {xs : List (Fin NENV)} (h : SameTable s t) (hs : EnvTable s xs) :
    EnvTable t xs where
  chain := by
    rw [h.list]
    exact hs.chain.congr fun i _ => h.link i
  free i := by rw [h.live i]; exact hs.free i
  pos i hi := by rw [h.id i]; exact hs.pos i ((h.live i).mp hi)
  slot i hi := by rw [h.id i]; exact hs.slot i ((h.live i).mp hi)

end SameTable

/-- Scheduling changes `curenv`, and the status and the count of runs of environments in use. -/
structure Rescheduled (s t : System) : Prop where
  pmap : t.pmap = s.pmap
  list : t.envFreeList = s.envFreeList
  env : ∀ i, ∃ status runs, t.envs i = { s.envs i with status := status, runs := runs } ∧
    (status ≠ .free ↔ s.Live i)

namespace Rescheduled

variable {s t u : System}

theorem curenv (s : System) (o : Option (Fin NENV)) : Rescheduled s { s with curenv := o } :=
  ⟨rfl, rfl, fun _ => ⟨_, _, rfl, Iff.rfl⟩⟩

theorem refl (s : System) : Rescheduled s s := curenv s s.curenv

theorem trans (h : Rescheduled s t) (h' : Rescheduled t u) : Rescheduled s u := by
  refine ⟨h'.pmap.trans h.pmap, h'.list.trans h.list, fun i => ?_⟩
  obtain ⟨st, n, he, hlive⟩ := h.env i
  obtain ⟨st', n', he', hlive'⟩ := h'.env i
  refine ⟨st', n', by rw [he', he], hlive'.trans ?_⟩
  simp only [System.Live, he]
  exact hlive

theorem setStatus {e : Fin NENV} {st : EnvStatus} (n : Nat) (o : Option (Fin NENV))
    (hst : st ≠ .free ↔ s.Live e) :
    Rescheduled s ⟨s.pmap, Function.update s.envs e { s.envs e with status := st, runs := n },
      s.envFreeList, o⟩ := by
  refine ⟨rfl, rfl, fun i => ?_⟩
  by_cases h : i = e
  · subst h
    exact ⟨st, n, by simp, hst⟩
  · exact ⟨(s.envs i).status, (s.envs i).runs, by simp [h], Iff.rfl⟩

theorem live (h : Rescheduled s t) (i : Fin NENV) : t.Live i ↔ s.Live i := by
  obtain ⟨st, n, he, hlive⟩ := h.env i
  simp only [System.Live, he]
  exact hlive

theorem sameTable (h : Rescheduled s t) : SameTable s t := by
  refine ⟨h.list, fun i => ?_, fun i => ?_, h.live⟩
  · obtain ⟨st, n, he, -⟩ := h.env i
    rw [he]
  · obtain ⟨st, n, he, -⟩ := h.env i
    rw [he]

theorem preempt (s : System) : Rescheduled s s.preempt := by
  unfold System.preempt
  split
  · exact .refl s
  · split
    · next h => exact .setStatus _ _ (by simp [System.Live, h])
    · exact .refl s

theorem envRun {e : Fin NENV} (he : s.Live e) : Rescheduled s (s.envRun e) := by
  unfold System.envRun
  split
  · exact .refl s
  · have hback := preempt s
    have hlive := (hback.live e).mpr he
    exact hback.trans (.setStatus _ _ (by simpa using hlive))

theorem schedHalt (s : System) : Rescheduled s s.schedHalt := by
  unfold System.schedHalt
  split
  · exact .refl s
  · exact .curenv s none

theorem schedYield (s : System) : Rescheduled s s.schedYield := by
  unfold System.schedYield
  split
  · next i hi =>
    have hrun := List.find?_some hi
    apply envRun
    intro hf
    simp [hf] at hrun
  · split
    · exact schedHalt s
    · next c _ =>
      split
      · next h => exact envRun (by simp [System.Live, h])
      · exact schedHalt s

theorem trapReturn (s : System) : Rescheduled s s.trapReturn := by
  unfold System.trapReturn
  split
  · exact schedYield s
  · split
    · next c _ h => exact envRun (by simp [System.Live, h])
    · exact schedYield s

end Rescheduled

/-- A system call that comes back writes `eax` and may give up the processor. -/
theorem rescheduled_resume {o : Outcome} {c : Fin NENV} {t : System} (h : o.resume c = some t) :
    ∃ u, o.state? = some u ∧
      (Rescheduled u t ∨ ∃ x, Rescheduled (u.setEnv c ((u.envs c).setEax x)) t) := by
  cases o with
  | panics => simp [Outcome.resume] at h
  | leaves s =>
    obtain rfl : s = t := Option.some.inj h
    exact ⟨s, rfl, .inl (.refl s)⟩
  | returns r s =>
    obtain rfl : _ = t := Option.some.inj h
    exact ⟨s, rfl, .inr ⟨_, .trapReturn _⟩⟩

namespace EnvTable

variable {s t : System} {xs : List (Fin NENV)}

theorem nodup (h : EnvTable s xs) : xs.Nodup := h.chain.nodup

private theorem envSetupVm_same (s : System) (e : Fin NENV) : SameTable s (s.envSetupVm e).2 := by
  unfold System.envSetupVm
  split
  · exact .pmap s _
  · exact .update rfl rfl Iff.rfl

/-- The head of the list becomes a live environment with a fresh id. -/
theorem take {e : Fin NENV} {v : Env} (h : EnvTable s xs) (he : s.envFreeList = some e)
    (hv : v.status ≠ .free) (hid : v.id = nextEnvId (s.envs e).id e) :
    EnvTable { s.setEnv e v with envFreeList := (s.envs e).link } xs.tail := by
  obtain ⟨hhead, hrest⟩ : xs = e :: xs.tail ∧ Chain (fun i => (s.envs i).link) (s.envs e).link xs.tail := by
    cases xs with
    | nil => exact absurd (he.symm.trans h.chain) (by simp)
    | cons x xs =>
      obtain rfl : e = x := Option.some.inj (he.symm.trans h.chain.1)
      exact ⟨rfl, h.chain.2⟩
  have hnot : e ∉ xs.tail := by
    have := h.nodup
    rw [hhead] at this
    exact (List.nodup_cons.mp this).1
  have hmem (i : Fin NENV) : i ∈ xs ↔ i = e ∨ i ∈ xs.tail := by
    conv_lhs => rw [hhead]
    exact List.mem_cons
  refine ⟨hrest.congr fun i hi => ?_, fun i => ?_, fun i hi => ?_, fun i hi => ?_⟩
  · simp [System.setEnv, ne_of_mem_of_not_mem hi hnot]
  · by_cases hie : i = e
    · subst hie
      simp [System.Live, System.setEnv, hv, hnot]
    · have := h.free i
      rw [hmem] at this
      simpa [System.Live, System.setEnv, hie] using this
  · by_cases hie : i = e
    · subst hie
      simpa [System.setEnv, hid] using nextEnvId_pos _ i
    · simp only [System.Live, System.setEnv, Function.update_of_ne hie] at hi ⊢
      exact h.pos i hi
  · by_cases hie : i = e
    · subst hie
      simpa [System.setEnv, hid] using ENVX_nextEnvId _ i
    · simp only [System.Live, System.setEnv, Function.update_of_ne hie] at hi ⊢
      exact h.slot i hi

theorem envAlloc_ok {parent : BitVec 32} {e : Fin NENV} (h : EnvTable s xs)
    (ha : s.envAlloc parent = (.ok e, t)) : EnvTable t xs.tail ∧ t.Live e := by
  unfold System.envAlloc at ha
  split at ha
  · simp at ha
  · next e' he =>
    have hsame := envSetupVm_same s e'
    split at ha
    · simp at ha
    · next u heq =>
      rw [heq] at hsame
      obtain ⟨hok, rfl⟩ := Prod.mk.inj ha
      obtain rfl : e' = e := Except.ok.inj hok
      refine ⟨(hsame.envTable h).take (hsame.list.trans he) (by simp) rfl, ?_⟩
      simp [System.Live, System.setEnv]

theorem give {e : Fin NENV} {v : Env} (h : EnvTable s xs) (he : s.Live e) (hv : v.status = .free)
    (hl : v.link = s.envFreeList) :
    EnvTable { s.setEnv e v with envFreeList := some e } (e :: xs) := by
  have hnot : e ∉ xs := fun hm => (h.free e).mp hm he
  refine ⟨⟨rfl, ?_⟩, fun i => ?_, fun i hi => ?_, fun i hi => ?_⟩
  · simp only [System.setEnv, Function.update_self, hl]
    apply h.chain.congr
    intro i hi
    simp [ne_of_mem_of_not_mem hi hnot]
  · by_cases hie : i = e
    · subst hie
      simp [System.Live, System.setEnv, hv]
    · have := h.free i
      simpa [System.Live, System.setEnv, hie] using this
  · have hie : i ≠ e := by
      rintro rfl
      simp [System.Live, System.setEnv, hv] at hi
    simp only [System.Live, System.setEnv, Function.update_of_ne hie] at hi ⊢
    exact h.pos i hi
  · have hie : i ≠ e := by
      rintro rfl
      simp [System.Live, System.setEnv, hv] at hi
    simp only [System.Live, System.setEnv, Function.update_of_ne hie] at hi ⊢
    exact h.slot i hi

theorem envFree {e : Fin NENV} (h : EnvTable s xs) (he : s.Live e) (hf : s.envFree e = some t) :
    EnvTable t (e :: xs) := by
  simp only [System.envFree, Option.map_eq_some_iff] at hf
  obtain ⟨m, -, rfl⟩ := hf
  exact (SameTable.pmap _ m).envTable (h.give he rfl rfl)

theorem envDestroy {e : Fin NENV} {b : Bool} (h : EnvTable s xs) (he : s.Live e)
    (hd : s.envDestroy e = some (b, t)) : ∃ ys, EnvTable t ys := by
  unfold System.envDestroy at hd
  split at hd
  · obtain ⟨-, rfl⟩ : true = b ∧ _ = t := by simpa using hd
    exact ⟨xs, SameTable.envTable (.update rfl rfl ⟨fun _ => he, fun _ => by simp⟩) h⟩
  · obtain ⟨u, hu, hbt⟩ := Option.map_eq_some_iff.mp hd
    have hfree := h.envFree he hu
    split at hbt
    · obtain ⟨-, rfl⟩ := Prod.mk.inj hbt
      exact ⟨_, ((Rescheduled.curenv u none).trans (.schedYield _)).sameTable.envTable hfree⟩
    · obtain ⟨-, rfl⟩ := Prod.mk.inj hbt
      exact ⟨_, hfree⟩

end EnvTable

theorem envAlloc_error {s t : System} {parent : BitVec 32} {r : Int}
    (h : s.envAlloc parent = (.error r, t)) : t = s := by
  unfold System.envAlloc at h
  split at h
  · exact (Prod.mk.inj h).2.symm
  · split at h
    · next heq =>
      obtain ⟨-, rfl⟩ := Prod.mk.inj h
      unfold System.envSetupVm at heq
      split at heq
      · next m hm =>
        obtain ⟨-, rfl⟩ := Prod.mk.inj heq
        unfold Pmap.pageAlloc at hm
        split at hm
        · obtain ⟨-, rfl⟩ := Prod.mk.inj hm
          rfl
        · simp at hm
      · simp at heq
    · simp at h

theorem live_of_envid2env {s : System} {c e : Fin NENV} {envid : BitVec 32} {checkperm : Bool}
    (h : s.envid2env c envid checkperm = some e) (hc : s.Live c) : s.Live e := by
  simp only [System.envid2env] at h
  split_ifs at h with h1 h2
  · exact Option.some.inj h ▸ hc
  · obtain rfl := Option.some.inj h
    exact fun hf => h2 (.inl hf)

theorem CallEffect.envTable {s t : System} {c : Fin NENV} {a : Call} {o : Outcome}
    {xs : List (Fin NENV)} (h : CallEffect s c a o) (hs : EnvTable s xs) (hc : s.Live c)
    (ho : o.state? = some t) : ∃ ys, EnvTable t ys := by
  cases h with
  | panic => simp [Outcome.state?] at ho
  | quiet ha r m =>
    obtain rfl : _ = t := Option.some.inj ho
    exact ⟨xs, (SameTable.pmap s m).envTable hs⟩
  | destroy b he ht =>
    obtain rfl : _ = t := by cases b <;> exact Option.some.inj ho
    exact hs.envDestroy (live_of_envid2env he hc) ht
  | noChild r ht =>
    obtain rfl : _ = t := Option.some.inj ho
    rw [envAlloc_error ht]
    exact ⟨xs, hs⟩
  | child ht =>
    obtain rfl : _ = t := Option.some.inj ho
    obtain ⟨hu, hlive⟩ := hs.envAlloc_ok ht
    exact ⟨_, SameTable.envTable (.update rfl rfl ⟨fun _ => hlive, fun _ => by simp [Env.child]⟩) hu⟩
  | setStatus st he hst =>
    obtain rfl : _ = t := Option.some.inj ho
    have hlive := live_of_envid2env he hc
    exact ⟨xs, SameTable.envTable (.update rfl rfl ⟨fun _ => hlive, fun _ => hst⟩) hs⟩
  | setTrapframe he =>
    obtain rfl : _ = t := Option.some.inj ho
    exact ⟨xs, SameTable.envTable (.update rfl rfl Iff.rfl) hs⟩
  | setUpcall he =>
    obtain rfl : _ = t := Option.some.inj ho
    exact ⟨xs, SameTable.envTable (.update rfl rfl Iff.rfl) hs⟩
  | yield =>
    obtain rfl : _ = t := Option.some.inj ho
    exact ⟨xs, (Rescheduled.schedYield s).sameTable.envTable hs⟩
  | unsent r hr =>
    obtain rfl : _ = t := Option.some.inj ho
    exact ⟨xs, hs⟩
  | refused r m p he hrecv hr =>
    obtain rfl : _ = t := Option.some.inj ho
    exact ⟨xs, SameTable.envTable (.update rfl rfl Iff.rfl) hs⟩
  | deliver m p he hrecv =>
    obtain rfl : _ = t := Option.some.inj ho
    have hlive := live_of_envid2env he hc
    exact ⟨xs, SameTable.envTable
      (.update rfl rfl ⟨fun _ => hlive, fun _ => by simp [Env.delivered]⟩) hs⟩
  | @receive dstva =>
    obtain rfl : _ = t := Option.some.inj ho
    have hsame : SameTable s (s.setEnv c ((s.envs c).waiting dstva.toNat)) :=
      .update rfl rfl ⟨fun _ => hc, fun _ => by simp [Env.waiting]⟩
    exact ⟨xs, (hsame.trans (Rescheduled.schedYield _).sameTable).envTable hs⟩

theorem sameTable_resume {o : Outcome} {c : Fin NENV} {t : System} (h : o.resume c = some t) :
    ∃ u, o.state? = some u ∧ SameTable u t := by
  obtain ⟨u, hu, hsame | ⟨x, hsame⟩⟩ := rescheduled_resume h
  · exact ⟨u, hu, hsame.sameTable⟩
  · have hset : SameTable u (u.setEnv c ((u.envs c).setEax x)) := .update rfl rfl Iff.rfl
    exact ⟨u, hu, hset.trans hsame.sameTable⟩

theorem Event.envTable {s t : System} {xs : List (Fin NENV)} (i : Event) (hs : EnvTable s xs)
    (h : i.exec s = some t) : ∃ ys, EnvTable t ys := by
  cases i with
  | run e =>
    simp only [Event.exec] at h
    split at h
    · next hr =>
      obtain rfl : _ = t := Option.some.inj h
      exact ⟨xs, (Rescheduled.envRun (by simp [System.Live, hr])).sameTable.envTable hs⟩
    · obtain rfl : _ = t := Option.some.inj h
      exact ⟨xs, hs⟩
  | call a =>
    simp only [Event.exec] at h
    split at h
    · obtain rfl : _ = t := Option.some.inj h
      exact ⟨xs, hs⟩
    · next c _ =>
      split at h
      · next hact =>
        obtain ⟨u, hu, hsame⟩ := sameTable_resume h
        obtain ⟨ys, hys⟩ := (a.effect s c).envTable hs hact.live hu
        exact ⟨ys, hsame.envTable hys⟩
      · obtain rfl : _ = t := Option.some.inj h
        exact ⟨xs, hs⟩

private theorem envInit_chain (s : System) (hs : s.envFreeList = none) {l : List (Fin NENV)}
    (hl : l.Nodup) :
    Chain (fun i => ((l.foldr System.envInitStep s).envs i).link)
        (l.foldr System.envInitStep s).envFreeList l ∧
      ∀ i ∈ l, ¬ (l.foldr System.envInitStep s).Live i := by
  induction l with
  | nil => exact ⟨hs, by simp⟩
  | cons a l ih =>
    obtain ⟨ha, hl⟩ := List.nodup_cons.mp hl
    obtain ⟨hchain, hfree⟩ := ih hl
    simp only [List.foldr_cons, System.envInitStep, System.setEnv]
    refine ⟨⟨rfl, ?_⟩, fun i hi => ?_⟩
    · simp only [Function.update_self]
      apply hchain.congr
      intro i hi
      simp [ne_of_mem_of_not_mem hi ha]
    · by_cases hia : i = a
      · subst hia
        simp [System.Live]
      · have := hfree i (by simpa [hia] using hi)
        simpa [System.Live, hia] using this

theorem envInit_envTable (s : System) : EnvTable s.envInit (List.finRange NENV) := by
  have hnodup := List.nodup_finRange NENV
  have hall : ∀ i, i ∈ List.finRange NENV := List.mem_finRange
  unfold System.envInit
  generalize List.finRange NENV = l at hnodup hall
  obtain ⟨hchain, hfree⟩ := envInit_chain { s with envFreeList := none } rfl hnodup
  exact ⟨hchain, fun i => ⟨fun hi => hfree i hi, fun _ => hall i⟩,
    fun i hi => absurd hi (hfree i (hall i)), fun i hi => absurd hi (hfree i (hall i))⟩

/-- The functions of `env.c` on live environments, and everything that environments can do. -/
inductive TableEvent where
  | envAlloc (parent : BitVec 32)
  | envFree (e : Fin NENV)
  | envDestroy (e : Fin NENV)
  | event (i : Event)

def TableEvent.exec : TableEvent → System → Option System
  | .envAlloc parent, s => some (s.envAlloc parent).2
  | .envFree e, s => if s.Live e then s.envFree e else some s
  | .envDestroy e, s => if s.Live e then (s.envDestroy e).map Prod.snd else some s
  | .event i, s => i.exec s

def tableMachine : Machine TableEvent System where
  step i s := (i.exec s).getD s
  halts i s := (i.exec s).isNone

theorem TableEvent.envTable {s t : System} {xs : List (Fin NENV)} (i : TableEvent)
    (hs : EnvTable s xs) (h : i.exec s = some t) : ∃ ys, EnvTable t ys := by
  cases i with
  | envAlloc parent =>
    obtain rfl : _ = t := Option.some.inj h
    cases hr : s.envAlloc parent with
    | mk r u =>
      cases r with
      | error r => exact ⟨xs, envAlloc_error hr ▸ hs⟩
      | ok e => exact ⟨_, (hs.envAlloc_ok hr).1⟩
  | envFree e =>
    simp only [TableEvent.exec] at h
    split at h
    · next he => exact ⟨_, hs.envFree he h⟩
    · exact ⟨xs, Option.some.inj h ▸ hs⟩
  | envDestroy e =>
    simp only [TableEvent.exec] at h
    split at h
    · next he =>
      obtain ⟨⟨b, u⟩, hd, rfl⟩ := Option.map_eq_some_iff.mp h
      exact hs.envDestroy he hd
    · exact ⟨xs, Option.some.inj h ▸ hs⟩
  | event i => exact i.envTable hs h

private theorem envTable_run (s : System) (events : List TableEvent) :
    ∃ xs, EnvTable (tableMachine.run events s.envInit) xs := by
  apply Machine.run_always (I := fun s => ∃ xs, EnvTable s xs)
  · rintro i s ⟨xs, hs⟩
    cases h : i.exec s with
    | none => exact ⟨xs, by simpa [tableMachine, h] using hs⟩
    | some t => simpa [tableMachine, h] using i.envTable hs h
  · exact ⟨_, envInit_envTable s⟩

/-- An id other than zero finds the live environment that bears it. -/
theorem EnvTable.envid2env {s : System} {xs : List (Fin NENV)} (h : EnvTable s xs)
    {envid : BitVec 32} (hid : envid ≠ 0) (c e : Fin NENV) :
    s.envid2env c envid false = some e ↔ s.Live e ∧ (s.envs e).id = envid := by
  simp only [System.envid2env, if_neg hid]
  constructor
  · intro he
    split_ifs at he with h1 h2
    obtain rfl := Option.some.inj he
    push Not at h1
    exact h1
  · rintro ⟨hlive, rfl⟩
    have hslot := h.slot e hlive
    rw [hslot, if_neg (by simpa [System.Live] using hlive)]
    simp

/-- After `env_init` and any sequence of operations, `env_free_list` is a finite list without
duplicates of exactly the free slots, ids of live environments tell their slots, `envid2env` finds
exactly them, and a failing `env_alloc` changes nothing. -/
theorem env_table (s₀ : System) (events : List TableEvent) :
    let s := tableMachine.run events s₀.envInit
    (∃ xs, Chain (fun i => (s.envs i).link) s.envFreeList xs ∧ xs.Nodup ∧
      ∀ i, i ∈ xs ↔ (s.envs i).status = .free) ∧
    (∀ i, (s.envs i).status ≠ .free → 0 < (s.envs i).id.toInt ∧ ENVX (s.envs i).id = i) ∧
    (∀ i j, (s.envs i).status ≠ .free → (s.envs j).status ≠ .free →
      (s.envs i).id = (s.envs j).id → i = j) ∧
    (∀ c e envid, envid ≠ 0 → (s.envid2env c envid false = some e ↔
      (s.envs e).status ≠ .free ∧ (s.envs e).id = envid)) ∧
    ∀ parent r t, s.envAlloc parent = (.error r, t) → t = s := by
  obtain ⟨xs, h⟩ := envTable_run s₀ events
  refine ⟨⟨xs, h.chain, h.nodup, fun i => ?_⟩, fun i hi => ⟨h.pos i hi, h.slot i hi⟩, ?_, ?_, ?_⟩
  · simpa [System.Live] using h.free i
  · intro i j hi hj hij
    rw [← h.slot i hi, hij, h.slot j hj]
  · intro c e envid hid
    exact h.envid2env hid c e
  · intro parent r t ht
    exact envAlloc_error ht

end DamnOS.Kernel
