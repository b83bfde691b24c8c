import DamnOS.Framework.Runs

/-!
# Spin locks

The lock of `spinlock.c`, between any number of processors of which only the one inside calls `spin_unlock`.  An exchange
is one step; everything else may happen between two of them.
-/

namespace DamnOS.Kernel

open DamnOS.Framework

/-- A processor is not concerned with the lock, in the loop of `spin_lock`, or between `spin_lock` and `spin_unlock`. -/
inductive LockPc where
  | outside
  | spinning
  | inside
  deriving DecidableEq

structure SpinLock (ι : Type) where
  locked : Nat
  pc : ι → LockPc

/-- `xchg`: the word gets a new value, and the old one is returned. -/
def xchg (old new : Nat) : Nat × Nat := (old, new)

inductive LockStep where
  | call
  | turn
  | unlock

namespace SpinLock

variable {ι : Type}

def init : SpinLock ι := ⟨0, fun _ => .outside⟩

/-- The word tells whether a processor has the lock, and no two have it. -/
structure Exclusive (s : SpinLock ι) : Prop where
  one : ∀ i j, s.pc i = .inside → s.pc j = .inside → i = j
  free : s.locked = 0 ↔ ∀ i, s.pc i ≠ .inside

private theorem exclusive_init : (init : SpinLock ι).Exclusive :=
  ⟨fun _ _ h => absurd h LockPc.noConfusion, iff_of_true rfl fun _ => LockPc.noConfusion⟩

variable [DecidableEq ι]

/-- A processor calls `spin_lock`, takes a turn of its loop, or runs `spin_unlock`. -/
def step (i : ι) (k : LockStep) (s : SpinLock ι) : SpinLock ι :=
  match k, s.pc i with
  | .call, .outside => { s with pc := Function.update s.pc i .spinning }
  | .turn, .spinning =>
    let r := xchg s.locked 1
    { locked := r.2, pc := if r.1 ≠ 0 then s.pc else Function.update s.pc i .inside }
  | .unlock, .inside => { locked := (xchg s.locked 0).2, pc := Function.update s.pc i .outside }
  | _, _ => s

def machine (ι : Type) [DecidableEq ι] : Machine (ι × LockStep) (SpinLock ι) where
  step a := step a.1 a.2
  halts _ _ := false

section Steps

variable {s : SpinLock ι} {i j : ι}

private theorem step_cases (i : ι) (k : LockStep) (s : SpinLock ι) :
    s.step i k = s ∨
      (s.pc i = .outside ∧ s.step i k = { s with pc := Function.update s.pc i .spinning }) ∨
      (s.pc i = .spinning ∧ s.locked ≠ 0 ∧ s.step i k = { s with locked := 1 }) ∨
      (s.pc i = .spinning ∧ s.locked = 0 ∧ s.step i k = ⟨1, Function.update s.pc i .inside⟩) ∨
      (s.pc i = .inside ∧ s.step i k = ⟨0, Function.update s.pc i .outside⟩) := by
  cases hpc : s.pc i with
  | outside =>
    cases k with
    | call => exact .inr (.inl ⟨rfl, by simp [step, hpc]⟩)
    | turn => exact .inl (by simp [step, hpc])
    | unlock => exact .inl (by simp [step, hpc])
  | spinning =>
    cases k with
    | call => exact .inl (by simp [step, hpc])
    | turn =>
      by_cases hfree : s.locked = 0
      · exact .inr (.inr (.inr (.inl ⟨rfl, hfree, by simp [step, hpc, xchg, hfree]⟩)))
      · exact .inr (.inr (.inl ⟨rfl, hfree, by simp [step, hpc, xchg, hfree]⟩))
    | unlock => exact .inl (by simp [step, hpc])
  | inside =>
    cases k with
    | call => exact .inl (by simp [step, hpc])
    | turn => exact .inl (by simp [step, hpc])
    | unlock => exact .inr (.inr (.inr (.inr ⟨rfl, by simp [step, hpc, xchg]⟩)))

private theorem update_inside {pc : ι → LockPc} {v : LockPc} : Function.update pc i v j = .inside ↔
    j = i ∧ v = .inside ∨ j ≠ i ∧ pc j = .inside := by
  by_cases h : j = i
  · subst h
    simp
  · simp [h]

theorem Exclusive.step (h : s.Exclusive) (i : ι) (k : LockStep) : (s.step i k).Exclusive := by
  rcases step_cases i k s with hs | ⟨hpc, hs⟩ | ⟨hpc, hheld, hs⟩ | ⟨hpc, hfree, hs⟩ | ⟨hpc, hs⟩
  · rw [hs]
    exact h
  · -- a call: those that have the lock are the same
    have hsame (j : ι) : Function.update s.pc i .spinning j = .inside ↔ s.pc j = .inside := by
      rw [update_inside]
      constructor
      · rintro (⟨-, hv⟩ | ⟨-, hj⟩)
        · cases hv
        · exact hj
      · intro hj
        refine .inr ⟨?_, hj⟩
        rintro rfl
        rw [hpc] at hj
        cases hj
    rw [hs]
    constructor
    · intro a b ha hb
      exact h.one a b ((hsame a).mp ha) ((hsame b).mp hb)
    · exact h.free.trans (forall_congr' fun j => not_congr (hsame j).symm)
  · rw [hs]
    refine ⟨h.one, ?_⟩
    constructor
    · intro hone
      exact absurd hone Nat.one_ne_zero
    · intro hnone
      exact absurd (h.free.mpr hnone) hheld
  · have hnone := h.free.mp hfree
    have honly (j : ι) (hj : Function.update s.pc i .inside j = .inside) : j = i := by
      rcases update_inside.mp hj with ⟨hji, -⟩ | ⟨-, hin⟩
      · exact hji
      · exact absurd hin (hnone j)
    rw [hs]
    constructor
    · intro a b ha hb
      exact (honly a ha).trans (honly b hb).symm
    · constructor
      · intro hone
        exact absurd hone Nat.one_ne_zero
      · intro hno
        exact absurd (Function.update_self i _ s.pc) (hno i)
  · have hnone (j : ι) : Function.update s.pc i .outside j ≠ .inside := by
      intro hj
      rcases update_inside.mp hj with ⟨-, hv⟩ | ⟨hne, hin⟩
      · cases hv
      · exact hne (h.one j i hin hpc)
    rw [hs]
    exact ⟨fun a b ha => absurd ha (hnone a), iff_of_true rfl hnone⟩

end Steps

/-- However the processors take turns, at most one of them is between `spin_lock` and `spin_unlock`, and one that spins
gets the lock with its next exchange exactly when no processor has it. -/
theorem spin_lock_excludes (acts : List (ι × LockStep)) :
    (∀ i j, ((machine ι).run acts init).pc i = .inside → ((machine ι).run acts init).pc j = .inside → i = j) ∧
      ∀ i, ((machine ι).run acts init).pc i = .spinning →
        ((((machine ι).run acts init).step i .turn).pc i = .inside ↔
          ∀ j, ((machine ι).run acts init).pc j ≠ .inside) := by
  have h : ((machine ι).run acts init).Exclusive :=
    Machine.run_always (fun a _ hs => hs.step a.1 a.2) acts exclusive_init
  generalize (machine ι).run acts init = s at h ⊢
  refine ⟨h.one, ?_⟩
  intro i hi
  rw [← h.free]
  by_cases hfree : s.locked = 0
  · simp [SpinLock.step, hi, xchg, hfree]
  · simp [SpinLock.step, hi, xchg, hfree]

end SpinLock

end DamnOS.Kernel
