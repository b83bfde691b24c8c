import DamnOS.Kernel.Boot

/-!
# Pointers that programs pass to the kernel

`sys_cputs` and `sys_env_set_trapframe` follow a pointer of the caller.  The kernel runs on the
caller's page directory, where all of memory is mapped for it; nothing compares the pointer with
what the caller itself may read.
-/

namespace DamnOS.Kernel

namespace Pmap

/-- A byte as the kernel reads it under `pgdir`; `none` is a page fault in the kernel. -/
def load (m : Pmap) (pgdir : Nat) (va : BitVec 32) : Option UInt8 :=
  (m.mapping pgdir va.toNat).map fun pte =>
    UInt8.ofNat (m.mem (pa2page (PTE_ADDR pte)) (va.toNat % PGSIZE / 4) / 256 ^ (va.toNat % 4))

def UserReadable (m : Pmap) (pgdir : Nat) (va : BitVec 32) : Prop :=
  m.mem pgdir (PDX va.toNat) &&& PTE_U ≠ 0 ∧
    (m.mapping pgdir va.toNat).any (fun pte => decide (pte &&& PTE_U ≠ 0)) = true

instance (m : Pmap) (pgdir : Nat) (va : BitVec 32) : Decidable (m.UserReadable pgdir va) :=
  inferInstanceAs (Decidable (_ ∧ _))

theorem UserReadable.load {m : Pmap} {pgdir : Nat} {va : BitVec 32} (h : m.UserReadable pgdir va) :
    ∃ b, m.load pgdir va = some b := by
  obtain ⟨pte, hpte, -⟩ := (Option.any_eq_true _ _).mp h.2
  exact ⟨_, by rw [Pmap.load, hpte, Option.map_some]⟩

end Pmap

inductive Ending where
  | finished
  | fault
  | unfinished
  deriving DecidableEq

/-- The addresses that were read, the characters that were printed, and how the loop ended. -/
structure Printed where
  reads : List (BitVec 32)
  text : List UInt8
  ends : Ending

/-- The loop of `vprintfmt` for a string with a precision; `fuel` bounds the rounds. -/
def Pmap.printString (m : Pmap) (pgdir : Nat) : Nat → BitVec 32 → Int → Printed
  | 0, _, _ => ⟨[], [], .unfinished⟩
  | fuel + 1, p, precision =>
    match m.load pgdir p with
    | none => ⟨[p], [], .fault⟩
    | some ch =>
      if ch ≠ 0 ∧ (precision < 0 ∨ precision - 1 ≥ 0) then
        let r := m.printString pgdir fuel (p + 1) (if precision < 0 then precision else precision - 1)
        ⟨p :: r.reads, ch :: r.text, r.ends⟩
      else ⟨[p], [], .finished⟩

def nullText : List UInt8 := [40, 110, 117, 108, 108, 41]

/-- The addresses that were read, and the bytes if there was no page fault. -/
def Pmap.loadBytes (m : Pmap) (pgdir : Nat) : Nat → BitVec 32 → List (BitVec 32) × Option (List UInt8)
  | 0, _ => ([], some [])
  | n + 1, p =>
    match m.load pgdir p with
    | none => ([p], none)
    | some b =>
      let r := m.loadBytes pgdir n (p + 1)
      (p :: r.1, r.2.map (b :: ·))

def wordOf (bytes : List UInt8) (i : Nat) : BitVec 32 :=
  BitVec.ofNat 32 ((List.range 4).foldl (fun n j => n + (bytes.getD (4 * i + j) 0).toNat * 256 ^ j) 0)

def Trapframe.ofBytes (bytes : List UInt8) : Trapframe where
  regs :=
    { edi := wordOf bytes 0
      esi := wordOf bytes 1
      ebp := wordOf bytes 2
      oesp := wordOf bytes 3
      ebx := wordOf bytes 4
      edx := wordOf bytes 5
      ecx := wordOf bytes 6
      eax := wordOf bytes 7 }
  es := (wordOf bytes 8).setWidth 16
  ds := (wordOf bytes 9).setWidth 16
  trapno := wordOf bytes 10
  err := wordOf bytes 11
  eip := wordOf bytes 12
  cs := (wordOf bytes 13).setWidth 16
  eflags := wordOf bytes 14
  esp := wordOf bytes 15
  ss := (wordOf bytes 16).setWidth 16

/-- A system call that follows a pointer. -/
inductive PointerCall where
  | cputs (a len : BitVec 32)
  | envSetTrapframe (envid tf : BitVec 32)

/-- What a call reads through the pointer, what it prints, and how it ends, if it does. -/
structure Service where
  reads : List (BitVec 32)
  text : List UInt8
  outcome : Option Outcome

/-- The two calls as the source has them.  The precision of `"%.*s"` is an `int`, and a null pointer
stands for a text of the kernel. -/
def PointerCall.exec (s : System) (c : Fin NENV) (fuel : Nat) : PointerCall → Service
  | .cputs a len =>
    if a = 0 then
      ⟨[], if len.toInt < 0 then nullText else nullText.take len.toNat, some (.returns 0 s)⟩
    else
      let r := s.pmap.printString (s.envs c).pgdir fuel a len.toInt
      ⟨r.reads, r.text,
        match r.ends with
        | .finished => some (.returns 0 s)
        | .fault => some .panics
        | .unfinished => none⟩
  | .envSetTrapframe envid tf =>
    match s.envid2env c envid true with
    | none => ⟨[], [], some (.returns (-E_BAD_ENV) s)⟩
    | some _ =>
      let r := s.pmap.loadBytes (s.envs c).pgdir 68 tf
      ⟨r.1, [],
        match r.2 with
        | none => some .panics
        | some bytes => some (s.sysEnvSetTrapframe c envid (.ofBytes bytes))⟩

/-- The call has no effect but an error or the end of the caller. -/
def Service.Refuses (o : Service) (s : System) (c : Fin NENV) : Prop :=
  o.text = [] ∧ ∃ out, o.outcome = some out ∧
    ((∃ r < 0, out = .returns r s) ∨ ∃ t, out.state? = some t ∧ ¬ t.Live c)

/-- The call reads what the caller could read itself, or it is refused. -/
def PointerCall.Guarded (a : PointerCall) (s : System) (c : Fin NENV) : Prop :=
  ∀ fuel, (∀ va ∈ (a.exec s c fuel).reads, s.pmap.UserReadable (s.envs c).pgdir va) ∨
    (a.exec s c fuel).Refuses s c

namespace Pmap

variable (m : Pmap) (pgdir : Nat)

/-- The byte at `p + k` is reached: the precision allows it, and the bytes before it are there and
not null. -/
def Reached (p : BitVec 32) (precision : Int) (k : Nat) : Prop :=
  (precision < 0 ∨ (k : Int) ≤ precision) ∧
    ∀ j < k, ∃ b, b ≠ 0 ∧ m.load pgdir (p + BitVec.ofNat 32 j) = some b

/-- From `p` to its first null byte, or to the byte after `precision` others, a string lies in
memory that user code can read. -/
def StringInside (p : BitVec 32) (precision : Int) : Prop :=
  ∀ k, m.Reached pgdir p precision k → m.UserReadable pgdir (p + BitVec.ofNat 32 k)

variable {m pgdir}

private theorem add_ofNat_succ (p : BitVec 32) (k : Nat) :
    p + 1 + BitVec.ofNat 32 k = p + BitVec.ofNat 32 (k + 1) := by
  rw [BitVec.add_assoc, BitVec.ofNat_add, BitVec.add_comm (BitVec.ofNat 32 k)]
  rfl

private theorem reached_zero (p : BitVec 32) (precision : Int) (h : precision < 0 ∨ 0 ≤ precision) :
    m.Reached pgdir p precision 0 :=
  ⟨h.imp_right fun h => by exact_mod_cast h, by simp⟩

private theorem reached_succ {p : BitVec 32} {precision : Int} {ch : UInt8} {k : Nat}
    (hch : m.load pgdir p = some ch) :
    m.Reached pgdir p precision (k + 1) ↔ (ch ≠ 0 ∧ (precision < 0 ∨ precision - 1 ≥ 0)) ∧
      m.Reached pgdir (p + 1) (if precision < 0 then precision else precision - 1) k := by
  have hbytes : (∀ j < k + 1, ∃ b, b ≠ 0 ∧ m.load pgdir (p + BitVec.ofNat 32 j) = some b) ↔
      ch ≠ 0 ∧ ∀ j < k, ∃ b, b ≠ 0 ∧ m.load pgdir (p + 1 + BitVec.ofNat 32 j) = some b := by
    constructor
    · intro h
      obtain ⟨b, hb, hl⟩ := h 0 (by omega)
      rw [BitVec.add_zero, hch] at hl
      refine ⟨(Option.some.inj hl) ▸ hb, fun j hj => ?_⟩
      rw [add_ofNat_succ]
      exact h (j + 1) (by omega)
    · rintro ⟨h0, h⟩ j hj
      cases j with
      | zero => exact ⟨ch, h0, by rw [BitVec.add_zero, hch]⟩
      | succ j =>
        rw [← add_ofNat_succ]
        exact h j (by omega)
  rw [Reached, Reached, hbytes]
  split_ifs with hneg
  · simp only [hneg, true_or, true_and, and_true]
  · simp only [hneg, false_or, Nat.cast_add, Nat.cast_one]
    constructor
    · rintro ⟨hle, hch, h⟩
      exact ⟨⟨hch, by omega⟩, by omega, h⟩
    · rintro ⟨⟨hch, hpos⟩, hle, h⟩
      exact ⟨by omega, hch, h⟩

private theorem mem_reads {fuel : Nat} {p : BitVec 32} {precision : Int} {va : BitVec 32} :
    va ∈ (m.printString pgdir fuel p precision).reads ↔
      ∃ k < fuel, m.Reached pgdir p precision k ∧ va = p + BitVec.ofNat 32 k := by
  induction fuel generalizing p precision with
  | zero => simp [printString]
  | succ fuel ih =>
    have hzero : m.Reached pgdir p precision 0 := reached_zero p precision (by omega)
    have hself : p + BitVec.ofNat 32 0 = p := by simp
    unfold printString
    split
    · next hload =>
      rw [List.mem_singleton]
      constructor
      · rintro rfl
        exact ⟨0, by omega, hzero, hself.symm⟩
      · rintro ⟨k, -, hk, rfl⟩
        cases k with
        | zero => exact hself
        | succ k =>
          obtain ⟨b, -, hb⟩ := hk.2 0 (by omega)
          rw [hself, hload] at hb
          cases hb
    · next ch hload =>
      by_cases hmore : ch ≠ 0 ∧ (precision < 0 ∨ precision - 1 ≥ 0)
      · rw [if_pos hmore, List.mem_cons, ih]
        constructor
        · rintro (rfl | ⟨k, hk, hreach, rfl⟩)
          · exact ⟨0, by omega, hzero, hself.symm⟩
          · exact ⟨k + 1, by omega, (reached_succ hload).mpr ⟨hmore, hreach⟩, add_ofNat_succ p k⟩
        · rintro ⟨k, hk, hreach, rfl⟩
          cases k with
          | zero => exact .inl hself
          | succ k =>
            exact .inr ⟨k, by omega, ((reached_succ hload).mp hreach).2, (add_ofNat_succ p k).symm⟩
      · rw [if_neg hmore, List.mem_singleton]
        constructor
        · rintro rfl
          exact ⟨0, by omega, hzero, hself.symm⟩
        · rintro ⟨k, -, hreach, rfl⟩
          cases k with
          | zero => exact hself
          | succ k => exact absurd ((reached_succ hload).mp hreach).1 hmore

private theorem reads_inside {p : BitVec 32} {precision : Int} :
    (∀ fuel, ∀ va ∈ (m.printString pgdir fuel p precision).reads, m.UserReadable pgdir va) ↔
      m.StringInside pgdir p precision := by
  constructor
  · intro h k hk
    exact h (k + 1) _ (mem_reads.mpr ⟨k, by omega, hk, rfl⟩)
  · intro h fuel va hva
    obtain ⟨k, -, hk, rfl⟩ := mem_reads.mp hva
    exact h k hk

private theorem loadBytes_inside {n : Nat} {p : BitVec 32} :
    (∀ va ∈ (m.loadBytes pgdir n p).1, m.UserReadable pgdir va) ↔
      ∀ k < n, m.UserReadable pgdir (p + BitVec.ofNat 32 k) := by
  induction n generalizing p with
  | zero => simp [loadBytes]
  | succ n ih =>
    have hself : p + BitVec.ofNat 32 0 = p := by simp
    unfold loadBytes
    split
    · next hload =>
      have hnot : ¬ m.UserReadable pgdir p := by
        intro hp
        obtain ⟨b, hb⟩ := hp.load
        rw [hload] at hb
        cases hb
      constructor
      · exact fun h => absurd (h p (by simp)) hnot
      · exact fun h => absurd (hself ▸ h 0 (by omega)) hnot
    · rw [List.forall_mem_cons, ih]
      constructor
      · rintro ⟨hp, h⟩ k hk
        cases k with
        | zero => rwa [hself]
        | succ k =>
          rw [← add_ofNat_succ]
          exact h k (by omega)
      · intro h
        refine ⟨hself ▸ h 0 (by omega), fun k hk => ?_⟩
        rw [add_ofNat_succ]
        exact h (k + 1) (by omega)

end Pmap

/-- What the pointer refers to lies in memory that the caller could read itself. -/
def PointerCall.InUserMemory (s : System) (c : Fin NENV) : PointerCall → Prop
  | .cputs a len => a = 0 ∨ s.pmap.StringInside (s.envs c).pgdir a len.toInt
  | .envSetTrapframe envid tf =>
    s.envid2env c envid true = none ∨
      ∀ k < 68, s.pmap.UserReadable (s.envs c).pgdir (tf + BitVec.ofNat 32 k)

private theorem PointerCall.not_refuses {s : System} {c : Fin NENV} (hc : s.Live c) {a : PointerCall}
    (ha : ∀ envid tf, a = .envSetTrapframe envid tf → s.envid2env c envid true ≠ none) (fuel : Nat) :
    ¬ (a.exec s c fuel).Refuses s c := by
  rintro ⟨-, out, hout, hrefused⟩
  cases a with
  | cputs a len =>
    have hcases : out = .returns 0 s ∨ out = .panics := by
      simp only [PointerCall.exec] at hout
      by_cases h0 : a = 0
      · rw [if_pos h0] at hout
        exact .inl (Option.some.inj hout).symm
      · rw [if_neg h0] at hout
        dsimp only at hout
        split at hout
        · exact .inl (Option.some.inj hout).symm
        · exact .inr (Option.some.inj hout).symm
        · cases hout
    rcases hcases with rfl | rfl
    · rcases hrefused with ⟨r, hr, he⟩ | ⟨t, ht, hdead⟩
      · obtain ⟨rfl, -⟩ := Outcome.returns.inj he
        omega
      · obtain rfl := Option.some.inj ht
        exact hdead hc
    · rcases hrefused with ⟨r, -, he⟩ | ⟨t, ht, -⟩
      · cases he
      · cases ht
  | envSetTrapframe envid tf =>
    cases he : s.envid2env c envid true with
    | none => exact ha envid tf rfl he
    | some e =>
      simp only [PointerCall.exec, he] at hout
      split at hout
      · obtain rfl := Option.some.inj hout
        rcases hrefused with ⟨r, -, he⟩ | ⟨t, ht, -⟩
        · cases he
        · cases ht
      · next bytes hbytes =>
        obtain rfl := Option.some.inj hout
        simp only [System.sysEnvSetTrapframe, he] at hrefused
        rcases hrefused with ⟨r, hr, he⟩ | ⟨t, ht, hdead⟩
        · obtain ⟨rfl, -⟩ := Outcome.returns.inj he
          omega
        · obtain rfl := Option.some.inj ht
          refine hdead ?_
          by_cases hce : c = e
          · subst hce
            simpa [System.Live, System.setEnv] using hc
          · simpa [System.Live, System.setEnv, hce] using hc

/-- A call is safe exactly when its pointer is good: the kernel itself checks nothing. -/
theorem user_pointers_iff {s : System} {c : Fin NENV} (hc : s.Live c) (a : PointerCall) :
    a.Guarded s c ↔ a.InUserMemory s c := by
  cases a with
  | cputs a len =>
    have hreads : (PointerCall.cputs a len).Guarded s c ↔ ∀ fuel,
        ∀ va ∈ ((PointerCall.cputs a len).exec s c fuel).reads,
          s.pmap.UserReadable (s.envs c).pgdir va :=
      forall_congr' fun fuel => or_iff_left
        (PointerCall.not_refuses hc (fun _ _ he => by cases he) fuel)
    rw [hreads]
    by_cases h0 : a = 0
    · simp [PointerCall.exec, PointerCall.InUserMemory, h0]
    · simp only [PointerCall.exec, PointerCall.InUserMemory, h0, if_false, false_or]
      exact Pmap.reads_inside
  | envSetTrapframe envid tf =>
    cases he : s.envid2env c envid true with
    | none =>
      simp only [PointerCall.Guarded, PointerCall.exec, PointerCall.InUserMemory, he]
      simp
    | some e =>
      have hreads : (PointerCall.envSetTrapframe envid tf).Guarded s c ↔ ∀ fuel : Nat,
          ∀ va ∈ ((PointerCall.envSetTrapframe envid tf).exec s c fuel).reads,
            s.pmap.UserReadable (s.envs c).pgdir va := by
        refine forall_congr' fun fuel => or_iff_left (PointerCall.not_refuses hc ?_ fuel)
        intro envid' tf' heq
        obtain ⟨rfl, rfl⟩ := PointerCall.envSetTrapframe.inj heq
        simp [he]
      rw [hreads]
      simp only [PointerCall.exec, PointerCall.InUserMemory, he, forall_const, false_or,
        Option.some_ne_none]
      exact Pmap.loadBytes_inside

/-- The program prints its own page. -/
theorem user_pointers_own_page : (PointerCall.cputs 0x800000 4).Guarded sampleSystem 1 := by
  refine (user_pointers_iff (by decide) _).mpr (.inr fun k hk => ?_)
  have hk4 : k ≤ 4 := by
    rcases hk.1 with hneg | hle
    · exact absurd hneg (by decide)
    · have h4 : (4 : BitVec 32).toInt = 4 := by decide
      omega
  interval_cases k <;> decide

/-- The sample system with the kernel's view of one of its own pages: page table 320 maps page 300,
`kern_pgdir`, above `KERNBASE`. -/
def kernelMapped : System :=
  { sampleSystem with
    pmap := { samplePmap with
      mem := fun p i =>
        if p = 302 ∧ i = PDX KERNBASE then entry 320 (PTE_W ||| PTE_U)
        else if p = 320 ∧ i = 300 then entry 300 PTE_W
        else if p = 300 ∧ i = PDX UVPT then entry 300 PTE_U
        else samplePmap.mem p i } }

/-- The program prints an entry of `kern_pgdir`. -/
theorem cputs_prints_kernel :
    ((PointerCall.cputs 0xF012CEF4 3).exec kernelMapped 1 4).text = [0x05, 0xC0, 0x12] ∧
      ¬ (PointerCall.cputs 0xF012CEF4 3).Guarded kernelMapped 1 := by
  refine ⟨by decide, fun h => ?_⟩
  rcases h 1 with hreads | hrefused
  · exact absurd (hreads 0xF012CEF4 (by decide)) (by decide)
  · exact PointerCall.not_refuses (by decide) (fun _ _ he => by cases he) 1 hrefused

end DamnOS.Kernel
