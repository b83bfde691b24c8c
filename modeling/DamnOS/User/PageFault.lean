import DamnOS.Kernel.Syscall
import DamnOS.Framework.Memory32

/-!
# Return from a page fault

`page_fault_handler` pushes a `struct UTrapframe` on the exception stack, and `_pgfault_upcall` of
`pfentry.S` calls the handler and returns to the faulting instruction.  The processor is modelled as
far as that routine uses it.  The exception stack is one page, and a store beside it is no step: the
pages around it cannot be written, and the kernel panics if its own frame does not fit.
-/

namespace DamnOS.User

open DamnOS.Framework DamnOS.Kernel

inductive Reg where
  | eax
  | ecx
  | edx
  | ebx
  | esp
  | ebp
  | esi
  | edi
  deriving DecidableEq

structure Cpu where
  regs : Reg → BitVec 32
  eip : BitVec 32
  eflags : BitVec 32
  mem : Memory32

def Cpu.esp (c : Cpu) : BitVec 32 := c.regs .esp

def Cpu.set (c : Cpu) (r : Reg) (w : BitVec 32) : Cpu :=
  { c with regs := Function.update c.regs r w }

/-- The instructions of `_pgfault_upcall`, operands in the order of the assembler. -/
inductive Instr where
  | pushl (r : Reg)
  | movlVar (addr : BitVec 32) (r : Reg)
  | call (r : Reg)
  | addl (n : BitVec 32) (r : Reg)
  | movlLoad (off : BitVec 32) (base r : Reg)
  | movlStore (r : Reg) (off : BitVec 32) (base : Reg)
  | sublMem (n off : BitVec 32) (base : Reg)
  | popal
  | popfl
  | popl (r : Reg)
  | ret

/-- What is left open about the processor: the length of an instruction, and the flags after an
addition or a subtraction. -/
structure Processor where
  len : Instr → BitVec 32
  flags : Instr → BitVec 32 → BitVec 32 → BitVec 32 → BitVec 32

/-- The registers that `popal` loads; it skips the stack pointer. -/
def Cpu.popped (c : Cpu) : Reg → BitVec 32
  | .edi => c.mem.load32 c.esp
  | .esi => c.mem.load32 (c.esp + 4)
  | .ebp => c.mem.load32 (c.esp + 8)
  | .esp => c.esp + 32
  | .ebx => c.mem.load32 (c.esp + 16)
  | .edx => c.mem.load32 (c.esp + 20)
  | .ecx => c.mem.load32 (c.esp + 24)
  | .eax => c.mem.load32 (c.esp + 28)

def Cpu.push (c : Cpu) (w : BitVec 32) : Cpu :=
  { c.set .esp (c.esp - 4) with mem := c.mem.store32 (c.esp - 4) w }

/-- The address of the word that an instruction stores, if it stores one. -/
def Instr.target (c : Cpu) : Instr → Option (BitVec 32)
  | .pushl _ | .call _ => some (c.esp - 4)
  | .movlStore _ off base | .sublMem _ off base => some (c.regs base + off)
  | _ => none

/-- The bytes that can be written in user space.  Of the exception stack's surroundings this is the
one page below `UXSTACKTOP`. -/
structure Space where
  writable : BitVec 32 → Prop
  guard : ∀ x, USTACKTOP ≤ x.toNat → x.toNat < UXSTACKTOP - PGSIZE → ¬ writable x
  stack : ∀ x, UXSTACKTOP - PGSIZE ≤ x.toNat → x.toNat < UXSTACKTOP → writable x
  kernel : ∀ x, UXSTACKTOP ≤ x.toNat → ¬ writable x

/-- The `n` bytes from `a` on can be written. -/
def Space.Holds (V : Space) (a : BitVec 32) (n : Nat) : Prop := ∀ x, (x - a).toNat < n → V.writable x

/-- What the instruction stores can be written. -/
def Space.Allows (V : Space) (i : Instr) (c : Cpu) : Prop := ∀ a, i.target c = some a → V.Holds a 4

namespace Processor

variable (P : Processor)

def step (i : Instr) (c : Cpu) : Cpu :=
  let next := { c with eip := c.eip + P.len i }
  match i with
  | .pushl r => next.push (c.regs r)
  | .movlVar addr r => next.set r (c.mem.load32 addr)
  | .call r => { next.push next.eip with eip := c.regs r }
  | .addl n r =>
    { next.set r (c.regs r + n) with eflags := P.flags i c.eflags (c.regs r) n }
  | .movlLoad off base r => next.set r (c.mem.load32 (c.regs base + off))
  | .movlStore r off base => { next with mem := c.mem.store32 (c.regs base + off) (c.regs r) }
  | .sublMem n off base =>
    let w := c.mem.load32 (c.regs base + off)
    { next with mem := c.mem.store32 (c.regs base + off) (w - n), eflags := P.flags i c.eflags w n }
  | .popal => { next with regs := c.popped }
  | .popfl => { next.set .esp (c.esp + 4) with eflags := c.mem.load32 c.esp }
  | .popl r => (next.set .esp (c.esp + 4)).set r (c.mem.load32 c.esp)
  | .ret => { next.set .esp (c.esp + 4) with eip := c.mem.load32 c.esp }

private theorem step_addl (n : BitVec 32) (r : Reg) (c : Cpu) :
    (P.step (.addl n r) c).regs r = c.regs r + n :=
  Function.update_self _ _ _

private theorem step_movlLoad (off : BitVec 32) (base r : Reg) (c : Cpu) :
    (P.step (.movlLoad off base r) c).regs r = c.mem.load32 (c.regs base + off) :=
  Function.update_self _ _ _

private theorem step_movlStore (r : Reg) (off : BitVec 32) (base : Reg) (c : Cpu) :
    (P.step (.movlStore r off base) c).mem = c.mem.store32 (c.regs base + off) (c.regs r) :=
  rfl

private theorem step_sublMem (n off : BitVec 32) (base : Reg) (c : Cpu) :
    (P.step (.sublMem n off base) c).mem
      = c.mem.store32 (c.regs base + off) (c.mem.load32 (c.regs base + off) - n) :=
  rfl

/-- Straight-line code; before each instruction, and at the end, page faults may come in. -/
def Exec (V : Space) (fault : Cpu → Cpu → Prop) : List Instr → Cpu → Cpu → Prop
  | [], c, d => Relation.ReflTransGen fault c d
  | i :: code, c, d =>
    ∃ c', Relation.ReflTransGen fault c c' ∧ V.Allows i c' ∧ Exec V fault code (P.step i c') d

end Processor

/-- The environment runs on its normal stack, or on the exception stack with at least `n` bytes below
the stack pointer. -/
def FaultState (n : Nat) (c : Cpu) : Prop :=
  c.esp.toNat ≤ USTACKTOP ∨
    (UXSTACKTOP - PGSIZE + n ≤ c.esp.toNat ∧ c.esp.toNat < UXSTACKTOP)

instance (n : Nat) (c : Cpu) : Decidable (FaultState n c) := inferInstanceAs (Decidable (_ ∨ _))

/-- The part of the trapframe that the kernel copies. -/
def Cpu.trapframe (c : Cpu) (err oesp : BitVec 32) : Trapframe :=
  { Trapframe.zero with
    regs := {
      edi := c.regs .edi
      esi := c.regs .esi
      ebp := c.regs .ebp
      oesp := oesp
      ebx := c.regs .ebx
      edx := c.regs .edx
      ecx := c.regs .ecx
      eax := c.regs .eax }
    err := err
    eip := c.eip
    eflags := c.eflags
    esp := c.esp }

/-- The state in which `page_fault_handler` resumes the environment. -/
def Cpu.pageFaultHandler (c : Cpu) (upcall faultVa err oesp : BitVec 32) : Cpu :=
  let utf := BitVec.ofNat 32 (utfAddr c.esp)
  { c.set .esp utf with
    eip := upcall
    mem := c.mem.storeBytes utf ((utfWords (c.trapframe err oesp) faultVa).flatMap wordBytes) }

/-- `_pgfault_upcall` up to the call of the handler, whose address is in `_pgfault_handler`. -/
def upcallEntry (handlerVar : BitVec 32) : List Instr :=
  [.pushl .esp, .movlVar handlerVar .eax, .call .eax]

/-- `_pgfault_upcall` after the handler has returned. -/
def upcallExit : List Instr :=
  [.addl 4 .esp, .addl 8 .esp, .movlLoad 32 .esp .eax, .movlLoad 40 .esp .edx,
    .movlStore .eax (-4) .edx, .sublMem 4 40 .esp, .popal, .addl 4 .esp, .popfl, .popl .esp, .ret]

/-- The body of the handler, entered with the stack pointer at `top`: it uses the `room` bytes below
`top` and leaves all other memory as it is.  It may fault itself. -/
inductive HandlerRun (fault : Cpu → Cpu → Prop) (room : Nat) (top : BitVec 32) : Cpu → Cpu → Prop
  | done (c : Cpu) : HandlerRun fault room top c c
  | compute {c c' d : Cpu}
      (h : ∀ x, x.toNat + room < top.toNat ∨ top.toNat ≤ x.toNat → c'.mem x = c.mem x)
      (hd : HandlerRun fault room top c' d) : HandlerRun fault room top c d
  | fault {c c' d : Cpu} (hlo : top.toNat ≤ c.esp.toNat + room) (hhi : c.esp.toNat ≤ top.toNat)
      (h : fault c c') (hd : HandlerRun fault room top c' d) : HandlerRun fault room top c d

/-- Where the environment has `_pgfault_upcall` and `_pgfault_handler`. -/
structure Upcall where
  entry : BitVec 32
  handlerVar : BitVec 32

/-- A page fault in the state `c`, whose handling ends in `d`, with `n` levels of faults below it.
The kernel can write its frame, and there are `room` bytes for the handler. -/
def Handled (P : Processor) (U : Upcall) (V : Space) (room : Nat) : Nat → Cpu → Cpu → Prop
  | n, c, d =>
    let fault : Cpu → Cpu → Prop :=
      match n with
      | 0 => fun _ _ => False
      | n + 1 => fun c d => FaultState 0 c ∧ Handled P U V room n c d
    ∃ faultVa err oesp k k',
      V.Holds (BitVec.ofNat 32 (utfAddr c.esp)) 52 ∧
      P.Exec V fault (upcallEntry U.handlerVar) (c.pageFaultHandler U.entry faultVa err oesp) k ∧
      (∀ x, x.toNat < k.esp.toNat → k.esp.toNat ≤ x.toNat + room → V.writable x) ∧
      HandlerRun fault room k.esp k k' ∧ k'.esp = k.esp ∧
      P.Exec V fault upcallExit (P.step .ret k') d

/-- The bytes that a fault at stack pointer `esp` has to leave alone: those of the stack from `esp`
on, and for the exception stack also everything below it. -/
def Kept (esp x : BitVec 32) : Prop :=
  (esp.toNat ≤ x.toNat ∧ (esp.toNat ≤ USTACKTOP → x.toNat < USTACKTOP)) ∨
    (USTACKTOP < esp.toNat ∧ x.toNat < USTACKTOP)

structure RoundTrip (c d : Cpu) : Prop where
  regs : d.regs = c.regs
  eip : d.eip = c.eip
  eflags : d.eflags = c.eflags
  mem : ∀ x, Kept c.esp x → d.mem x = c.mem x

namespace RoundTrip

theorem refl (c : Cpu) : RoundTrip c c := ⟨rfl, rfl, rfl, fun _ _ => rfl⟩

theorem trans {c d e : Cpu} (h : RoundTrip c d) (h' : RoundTrip d e) : RoundTrip c e := by
  have hesp : d.esp = c.esp := congrFun h.regs .esp
  refine ⟨h'.regs.trans h.regs, h'.eip.trans h.eip, h'.eflags.trans h.eflags, fun x hx => ?_⟩
  rw [h'.mem x (by rwa [hesp]), h.mem x hx]

private theorem of_faults {fault : Cpu → Cpu → Prop} (hfault : ∀ c d, fault c d → RoundTrip c d) {c d : Cpu}
    (h : Relation.ReflTransGen fault c d) : RoundTrip c d := by
  induction h with
  | refl => exact refl c
  | tail _ hstep ih => exact ih.trans (hfault _ _ hstep)

end RoundTrip

/-- The stack pointer is `e`, the memory that a fault at `f` keeps is that of `m`, and the
registers, `eip` and `eflags` satisfy `Q`. -/
structure Point (e f : BitVec 32) (m : Memory32)
    (Q : (Reg → BitVec 32) → BitVec 32 → BitVec 32 → Prop) (c : Cpu) : Prop where
  esp : c.regs .esp = e
  mem : ∀ x, Kept f x → c.mem x = m x
  rest : Q c.regs c.eip c.eflags

section Steps

variable {P : Processor} {V : Space} {fault : Cpu → Cpu → Prop} (hfault : ∀ c d, fault c d → RoundTrip c d)
  {e f : BitVec 32} {m : Memory32} {Q : (Reg → BitVec 32) → BitVec 32 → BitVec 32 → Prop}
  {c d : Cpu} {i : Instr} {code : List Instr}
include hfault

theorem Point.faults (h : Point e f m Q c) (hsub : ∀ x, Kept f x → Kept e x)
    (hcd : Relation.ReflTransGen fault c d) : Point e f m Q d := by
  have hr := RoundTrip.of_faults hfault hcd
  refine ⟨?_, ?_, ?_⟩
  · rw [hr.regs, h.esp]
  · intro x hx
    have hesp : c.esp = e := h.esp
    rw [hr.mem x (by rw [hesp]; exact hsub x hx), h.mem x hx]
  · rw [hr.regs, hr.eip, hr.eflags]
    exact h.rest

theorem Point.next {A : Cpu → Prop} (h : Point e f m Q c) (hsub : ∀ x, Kept f x → Kept e x)
    (hx : P.Exec V fault (i :: code) c d) (hstep : ∀ c, Point e f m Q c → A (P.step i c)) :
    ∃ c', A c' ∧ P.Exec V fault code c' d := by
  obtain ⟨c', hf, -, hd⟩ := hx
  exact ⟨_, hstep c' (h.faults hfault hsub hf), hd⟩

end Steps

section Memory

variable {e f a w : BitVec 32} {m : Memory32}
  {Q : (Reg → BitVec 32) → BitVec 32 → BitVec 32 → Prop} {c : Cpu}

theorem Point.load (h : Point e f m Q c) (ha : ∀ x, (x - a).toNat < 4 → Kept f x) :
    c.mem.load32 a = m.load32 a :=
  Memory32.load32_congr fun x hx => h.mem x (ha x hx)

theorem Point.store (h : Point e f m Q c) (x : BitVec 32) (hx : Kept f x) :
    c.mem.store32 a w x = m.store32 a w x := by
  simp only [Memory32.store32, Memory32.storeBytes, h.mem x hx]

end Memory

/-- The frame of the trap-time state `c` lies at `u`. -/
structure Framed (c : Cpu) (u : BitVec 32) (m : Memory32) : Prop where
  edi : m.load32 (u + 8) = c.regs .edi
  esi : m.load32 (u + 12) = c.regs .esi
  ebp : m.load32 (u + 16) = c.regs .ebp
  ebx : m.load32 (u + 24) = c.regs .ebx
  edx : m.load32 (u + 28) = c.regs .edx
  ecx : m.load32 (u + 32) = c.regs .ecx
  eax : m.load32 (u + 36) = c.regs .eax
  eip : m.load32 (u + 40) = c.eip
  eflags : m.load32 (u + 44) = c.eflags
  esp : m.load32 (u + 48) = c.esp

private theorem framed_pageFaultHandler (c : Cpu) (upcall faultVa err oesp : BitVec 32) :
    Framed c (BitVec.ofNat 32 (utfAddr c.esp))
      (c.pageFaultHandler upcall faultVa err oesp).mem := by
  have hword (i : Nat) (hi : i < 13) :=
    Memory32.load32_storeBytes_words c.mem (BitVec.ofNat 32 (utfAddr c.esp))
      (utfWords (c.trapframe err oesp) faultVa) (i := i) hi (by simp [utfWords])
  constructor
  · exact hword 2 (by decide)
  · exact hword 3 (by decide)
  · exact hword 4 (by decide)
  · exact hword 6 (by decide)
  · exact hword 7 (by decide)
  · exact hword 8 (by decide)
  · exact hword 9 (by decide)
  · exact hword 10 (by decide)
  · exact hword 11 (by decide)
  · exact hword 12 (by decide)

/-- The memory in which the upcall returns: the trap-time `eip` is on the trap-time stack, and the
saved stack pointer points to it. -/
def returnMemory (c : Cpu) (u : BitVec 32) (m : Memory32) : Memory32 :=
  (m.store32 (c.esp - 4) c.eip).store32 (u + 48) (c.esp - 4)

/-- The frame lies at the top of the exception stack, or 56 bytes below the trap-time stack
pointer. -/
theorem FaultState.utfAddr {c : Cpu} (h : FaultState 56 c) :
    (c.esp.toNat ≤ 4005552128 ∧ (BitVec.ofNat 32 (utfAddr c.esp)).toNat = 4005560268) ∨
      (4005556280 ≤ c.esp.toNat ∧ c.esp.toNat < 4005560320 ∧
        (BitVec.ofNat 32 (utfAddr c.esp)).toNat + 56 = c.esp.toNat) := by
  have hstack : UXSTACKTOP = 4005560320 := by decide
  have hnormal : USTACKTOP = 4005552128 := by decide
  have hpage : PGSIZE = 4096 := by decide
  simp only [FaultState, Kernel.utfAddr, hstack, hnormal, hpage, BitVec.toNat_ofNat] at h ⊢
  split <;> omega

private theorem kept_iff {e x : BitVec 32} : Kept e x ↔
    (e.toNat ≤ x.toNat ∧ (e.toNat ≤ 4005552128 → x.toNat < 4005552128)) ∨
      (4005552128 < e.toNat ∧ x.toNat < 4005552128) := by
  have hnormal : USTACKTOP = 4005552128 := by decide
  rw [Kept, hnormal]

private theorem kept_mono {e f : BitVec 32} (he : 4005552128 < e.toNat) (hef : e.toNat ≤ f.toNat)
    (x : BitVec 32) (hx : Kept f x) : Kept e x := by
  rw [kept_iff] at hx ⊢
  omega

private theorem kept_word {e a : BitVec 32} (he : 4005552128 < e.toNat) (hea : e.toNat ≤ a.toNat)
    (ha : a.toNat + 4 ≤ 2 ^ 32) (x : BitVec 32) (hx : (x - a).toNat < 4) : Kept e x := by
  rw [kept_iff]
  bv_omega

private theorem Space.room_below (V : Space) {room : Nat} {top : BitVec 32}
    (h : ∀ x, x.toNat < top.toNat → top.toNat ≤ x.toNat + room → V.writable x)
    (htop : 4005552128 < top.toNat) : ∀ n ≤ USTACKTOP, n + room < top.toNat := by
  have hnormal : USTACKTOP = 4005552128 := by decide
  intro n hn
  by_contra hle
  rw [hnormal] at hn
  have hguard := V.guard 4005552128 (by decide) (by decide)
  have hval : (4005552128 : BitVec 32).toNat = 4005552128 := by decide
  exact hguard (h _ (by omega) (by omega))

private theorem Space.frame_inside (V : Space) {c : Cpu} (hc : FaultState 0 c)
    (h : V.Holds (BitVec.ofNat 32 (utfAddr c.esp)) 52) : FaultState 56 c := by
  have hstack : UXSTACKTOP = 4005560320 := by decide
  have hnormal : USTACKTOP = 4005552128 := by decide
  have hpage : PGSIZE = 4096 := by decide
  rcases hc with hc | ⟨hlo, hhi⟩
  · exact .inl hc
  · refine .inr ⟨?_, hhi⟩
    by_contra hlt
    have hfirst := h (BitVec.ofNat 32 (Kernel.utfAddr c.esp)) (by simp)
    refine V.guard _ ?_ ?_ hfirst
    all_goals
      rw [Kernel.utfAddr, if_pos ⟨hlo, by omega⟩, BitVec.toNat_ofNat]
      omega

section Upcall

variable {P : Processor} {V : Space} {room : Nat} {fault : Cpu → Cpu → Prop} (hfault : ∀ c d, fault c d → RoundTrip c d)
  {m : Memory32} {u : BitVec 32} {c d : Cpu}
include hfault

theorem HandlerRun.keeps {top : BitVec 32} (h : HandlerRun fault room top c d)
    (htop : ∀ n ≤ USTACKTOP, n + room < top.toNat) (x : BitVec 32)
    (hx : x.toNat < USTACKTOP ∨ top.toNat ≤ x.toNat) : d.mem x = c.mem x := by
  induction h with
  | done c => rfl
  | compute h _ ih =>
    rw [ih, h x]
    exact hx.imp_left fun hlt => htop _ hlt.le
  | @fault c c' d hlo hhi h _ ih =>
    rw [ih, (hfault _ _ h).mem x]
    have hstack : ¬ c.esp.toNat ≤ USTACKTOP := fun hle => absurd (htop _ hle) (not_lt.mpr hlo)
    unfold Kept
    omega

private theorem entry_point {handlerVar : BitVec 32} (hlo : 4005556224 ≤ u.toNat)
    (h : Point u u m (fun _ _ _ => True) c) (hx : P.Exec V fault (upcallEntry handlerVar) c d) :
    Point (u - 8) u m (fun _ _ _ => True) d := by
  have hpush (e : BitVec 32) (he : u.toNat ≤ e.toNat + 4) (he' : e.toNat ≤ u.toNat)
      (k : Cpu) (w : BitVec 32) (hk : Point e u m (fun _ _ _ => True) k) :
      Point (e - 4) u m (fun _ _ _ => True) (k.push w) := by
    refine ⟨?_, fun x hx => ?_, trivial⟩
    · simp [Cpu.push, Cpu.set, Cpu.esp, hk.esp]
    · rw [← hk.mem x hx]
      simp only [Cpu.push, Cpu.esp, hk.esp]
      rw [kept_iff] at hx
      exact Memory32.store32_of_le (by bv_omega)
  obtain ⟨c₁, h₁, hx⟩ := h.next hfault (fun _ hx => hx) hx
    (A := Point (u - 4) u m fun _ _ _ => True) fun k hk =>
      hpush u (by omega) le_rfl _ _ ⟨hk.esp, hk.mem, trivial⟩
  have hu4 : (u - 4).toNat + 4 = u.toNat := by bv_omega
  obtain ⟨c₂, h₂, hx⟩ := h₁.next hfault (kept_mono (by omega) (by omega)) hx
    (A := Point (u - 4) u m fun _ _ _ => True) fun k hk =>
      ⟨by simpa [Processor.step, Cpu.set] using hk.esp, hk.mem, trivial⟩
  have hu8 : u - 4 - 4 = u - 8 := by bv_omega
  have hu8' : (u - 8).toNat + 8 = u.toNat := by bv_omega
  obtain ⟨c₃, h₃, hx⟩ := h₂.next hfault (kept_mono (by omega) (by omega)) hx
    (A := Point (u - 8) u m fun _ _ _ => True) fun k hk => by
      have hp := hpush (u - 4) (by omega) (by omega) { k with eip := k.eip + P.len (.call .eax) }
        (k.eip + P.len (.call .eax)) ⟨hk.esp, hk.mem, trivial⟩
      rw [hu8] at hp
      exact ⟨hp.esp, hp.mem, trivial⟩
  exact h₃.faults hfault (kept_mono (by omega) (by omega)) hx

private theorem exit_pushEip {c₀ : Cpu} {code : List Instr} (hf : Framed c₀ u m)
    (hroom : (c₀.esp.toNat ≤ 4005552128 ∧ u.toNat = 4005560268) ∨
      (4005556280 ≤ c₀.esp.toNat ∧ c₀.esp.toNat < 4005560320 ∧ u.toNat + 56 = c₀.esp.toNat))
    (h : Point (u - 4) u m (fun _ _ _ => True) c)
    (hx : P.Exec V fault (.addl 4 .esp :: .addl 8 .esp :: .movlLoad 32 .esp .eax ::
      .movlLoad 40 .esp .edx :: .movlStore .eax (-4) .edx :: .sublMem 4 40 .esp :: code) c d) :
    ∃ c', Point (u + 8) (u + 8) (returnMemory c₀ u m) (fun _ _ _ => True) c' ∧
      P.Exec V fault code c' d := by
  have hu : u.toNat + 56 < 2 ^ 32 ∧ 4005556224 ≤ u.toNat := by omega
  obtain ⟨c₁, h₁, hx⟩ := h.next hfault (kept_mono (by bv_omega) (by bv_omega)) hx
    (A := Point u u m fun _ _ _ => True) fun k hk =>
      ⟨by rw [P.step_addl, hk.esp, BitVec.sub_add_cancel], hk.mem, trivial⟩
  obtain ⟨c₂, h₂, hx⟩ := h₁.next hfault (fun _ hx => hx) hx
    (A := Point (u + 8) (u + 8) m fun _ _ _ => True) fun k hk =>
      ⟨by rw [P.step_addl, hk.esp],
        fun x hx => hk.mem x (kept_mono (by bv_omega) (by bv_omega) x hx), trivial⟩
  obtain ⟨c₃, h₃, hx⟩ := h₂.next hfault (fun _ hx => hx) hx
    (A := Point (u + 8) (u + 8) m fun regs _ _ => regs .eax = c₀.eip) fun k hk => by
      refine ⟨hk.esp, hk.mem, ?_⟩
      rw [P.step_movlLoad, hk.esp, BitVec.add_assoc,
        hk.load (kept_word (by bv_omega) (by bv_omega) (by bv_omega))]
      exact hf.eip
  obtain ⟨c₄, h₄, hx⟩ := h₃.next hfault (fun _ hx => hx) hx
    (A := Point (u + 8) (u + 8) m fun regs _ _ => regs .eax = c₀.eip ∧ regs .edx = c₀.esp)
    fun k hk => by
      refine ⟨hk.esp, hk.mem, hk.rest, ?_⟩
      rw [P.step_movlLoad, hk.esp, BitVec.add_assoc,
        hk.load (kept_word (by bv_omega) (by bv_omega) (by bv_omega))]
      exact hf.esp
  obtain ⟨c₅, h₅, hx⟩ := h₄.next hfault (fun _ hx => hx) hx
    (A := Point (u + 8) (u + 8) (m.store32 (c₀.esp - 4) c₀.eip) fun _ _ _ => True) fun k hk => by
      refine ⟨hk.esp, fun x hx => ?_, trivial⟩
      have ha : c₀.esp + -4 = c₀.esp - 4 := by bv_omega
      rw [P.step_movlStore, hk.rest.1, hk.rest.2, ha]
      exact hk.store x hx
  -- the word for `eip` is not in the frame
  have hsaved : (m.store32 (c₀.esp - 4) c₀.eip).load32 (u + 48) = c₀.esp := by
    rw [Memory32.load32_store32_of_le (by bv_omega) (by bv_omega), hf.esp]
  apply h₅.next hfault (fun _ hx => hx) hx
  intro k hk
  refine ⟨hk.esp, fun x hx => ?_, trivial⟩
  have ha : u + 8 + 40 = u + 48 := by bv_omega
  rw [P.step_sublMem, hk.esp, ha, hk.load (kept_word (by bv_omega) (by bv_omega) (by bv_omega)),
    hsaved]
  exact hk.store x hx

private theorem exit_restore {c₀ : Cpu} {code : List Instr} (hf : Framed c₀ u m)
    (hroom : (c₀.esp.toNat ≤ 4005552128 ∧ u.toNat = 4005560268) ∨
      (4005556280 ≤ c₀.esp.toNat ∧ c₀.esp.toNat < 4005560320 ∧ u.toNat + 56 = c₀.esp.toNat))
    (h : Point (u + 8) (u + 8) (returnMemory c₀ u m) (fun _ _ _ => True) c)
    (hx : P.Exec V fault (.popal :: .addl 4 .esp :: .popfl :: code) c d) :
    ∃ c', Point (u + 48) (u + 48) (returnMemory c₀ u m) (fun regs _ eflags =>
      (∀ r, r ≠ .esp → regs r = c₀.regs r) ∧ eflags = c₀.eflags) c' ∧ P.Exec V fault code c' d := by
  have hu : u.toNat + 56 < 2 ^ 32 ∧ 4005556224 ≤ u.toNat := by omega
  have hframe {a : BitVec 32} (ha : u.toNat + 8 ≤ a.toNat) (ha' : a.toNat + 4 ≤ u.toNat + 48) :
      (returnMemory c₀ u m).load32 a = m.load32 a := by
    rw [returnMemory, Memory32.load32_store32_of_le (by bv_omega) (by bv_omega),
      Memory32.load32_store32_of_le (by bv_omega) (by bv_omega)]
  obtain ⟨c₁, h₁, hx⟩ := h.next hfault (fun _ hx => hx) hx
    (A := Point (u + 40) (u + 40) (returnMemory c₀ u m) fun regs _ _ =>
      ∀ r, r ≠ .esp → regs r = c₀.regs r) fun k hk => by
      have hload {a : BitVec 32} (ha : u.toNat + 8 ≤ a.toNat) (ha' : a.toNat + 4 ≤ u.toNat + 48) :
          k.mem.load32 a = m.load32 a := by
        rw [hk.load (kept_word (by bv_omega) (by bv_omega) (by bv_omega)), hframe ha ha']
      have hesp : k.esp = u + 8 := hk.esp
      have hpop {off a : BitVec 32} (ha : u + 8 + off = a) (hlo : u.toNat + 8 ≤ a.toNat)
          (hhi : a.toNat + 4 ≤ u.toNat + 48) : k.mem.load32 (k.esp + off) = m.load32 a := by
        rw [hesp, ha, hload hlo hhi]
      refine ⟨?_, fun x hx => hk.mem x (kept_mono (by bv_omega) (by bv_omega) x hx), ?_⟩
      · change k.esp + 32 = _
        rw [hesp, BitVec.add_assoc]
        rfl
      · intro r hr
        change k.popped r = _
        cases r with
        | edi =>
          rw [← hf.edi, Cpu.popped, hesp]
          exact hload (by bv_omega) (by bv_omega)
        | esi => exact (hpop (by bv_omega) (by bv_omega) (by bv_omega)).trans hf.esi
        | ebp => exact (hpop (by bv_omega) (by bv_omega) (by bv_omega)).trans hf.ebp
        | esp => exact absurd rfl hr
        | ebx => exact (hpop (by bv_omega) (by bv_omega) (by bv_omega)).trans hf.ebx
        | edx => exact (hpop (by bv_omega) (by bv_omega) (by bv_omega)).trans hf.edx
        | ecx => exact (hpop (by bv_omega) (by bv_omega) (by bv_omega)).trans hf.ecx
        | eax => exact (hpop (by bv_omega) (by bv_omega) (by bv_omega)).trans hf.eax
  obtain ⟨c₂, h₂, hx⟩ := h₁.next hfault (fun _ hx => hx) hx
    (A := Point (u + 44) (u + 44) (returnMemory c₀ u m) fun regs _ _ =>
      ∀ r, r ≠ .esp → regs r = c₀.regs r) fun k hk => by
      refine ⟨?_, fun x hx => hk.mem x (kept_mono (by bv_omega) (by bv_omega) x hx), ?_⟩
      · rw [P.step_addl, hk.esp, BitVec.add_assoc]
        rfl
      · intro r hr
        exact (Function.update_of_ne hr _ _).trans (hk.rest r hr)
  apply h₂.next hfault (fun _ hx => hx) hx
  intro k hk
  refine ⟨?_, fun x hx => hk.mem x (kept_mono (by bv_omega) (by bv_omega) x hx), ?_, ?_⟩
  · change k.regs .esp + 4 = _
    rw [hk.esp, BitVec.add_assoc]
    rfl
  · intro r hr
    exact (Function.update_of_ne hr _ _).trans (hk.rest r hr)
  · change k.mem.load32 (k.regs .esp) = _
    rw [hk.esp, hk.load (kept_word (by bv_omega) (by bv_omega) (by bv_omega)),
      hframe (by bv_omega) (by bv_omega), hf.eflags]

private theorem exit_return {c₀ : Cpu}
    (hroom : (c₀.esp.toNat ≤ 4005552128 ∧ u.toNat = 4005560268) ∨
      (4005556280 ≤ c₀.esp.toNat ∧ c₀.esp.toNat < 4005560320 ∧ u.toNat + 56 = c₀.esp.toNat))
    (h : Point (u + 48) (u + 48) (returnMemory c₀ u m) (fun regs _ eflags =>
      (∀ r, r ≠ .esp → regs r = c₀.regs r) ∧ eflags = c₀.eflags) c)
    (hx : P.Exec V fault [.popl .esp, .ret] c d) :
    Point c₀.esp c₀.esp (returnMemory c₀ u m)
      (fun regs eip eflags => regs = c₀.regs ∧ eip = c₀.eip ∧ eflags = c₀.eflags) d := by
  have hu : u.toNat + 56 < 2 ^ 32 ∧ 4005556224 ≤ u.toNat := by omega
  obtain ⟨c₁, h₁, hx⟩ := h.next hfault (fun _ hx => hx) hx
    (A := Point (c₀.esp - 4) (c₀.esp - 4) (returnMemory c₀ u m) fun regs _ eflags =>
      (∀ r, r ≠ .esp → regs r = c₀.regs r) ∧ eflags = c₀.eflags) fun k hk => by
      refine ⟨?_, fun x hx => hk.mem x ?_, ?_, hk.rest.2⟩
      · change k.mem.load32 (k.regs .esp) = _
        rw [hk.esp, hk.load (kept_word (by bv_omega) (by bv_omega) (by bv_omega)), returnMemory,
          Memory32.load32_store32]
      · rw [kept_iff] at hx ⊢
        bv_omega
      · intro r hr
        exact (Function.update_of_ne hr _ _).trans ((Function.update_of_ne hr _ _).trans
          (hk.rest.1 r hr))
  obtain ⟨c₂, h₂, hx⟩ := h₁.next hfault (fun _ hx => hx) hx
    (A := Point c₀.esp c₀.esp (returnMemory c₀ u m) fun regs eip eflags =>
      regs = c₀.regs ∧ eip = c₀.eip ∧ eflags = c₀.eflags) fun k hk => by
      have hesp : k.regs .esp + 4 = c₀.esp := by rw [hk.esp, BitVec.sub_add_cancel]
      refine ⟨hesp, fun x hx => hk.mem x ?_, ?_, ?_, hk.rest.2⟩
      · rw [kept_iff] at hx ⊢
        bv_omega
      · funext r
        by_cases hr : r = .esp
        · subst hr
          exact hesp
        · exact (Function.update_of_ne hr _ _).trans (hk.rest.1 r hr)
      · change k.mem.load32 (k.regs .esp) = _
        rw [hk.esp, hk.load ?_, returnMemory,
          Memory32.load32_store32_of_le (by bv_omega) (by bv_omega), Memory32.load32_store32]
        intro x hx
        rw [kept_iff]
        bv_omega
  exact h₂.faults hfault (fun _ hx => hx) hx

omit hfault in
private theorem returnMemory_kept (hc : FaultState 56 c) (upcall faultVa err oesp : BitVec 32)
    {x : BitVec 32} (hx : Kept c.esp x) :
    returnMemory c (BitVec.ofNat 32 (utfAddr c.esp)) (c.pageFaultHandler upcall faultVa err oesp).mem x
      = c.mem x := by
  have hroom := hc.utfAddr
  generalize hu : BitVec.ofNat 32 (utfAddr c.esp) = u at hroom ⊢
  rw [kept_iff] at hx
  rw [returnMemory, Memory32.store32_of_le (by bv_omega), Memory32.store32_of_le (by bv_omega),
    Cpu.pageFaultHandler, hu]
  apply Memory32.storeBytes_of_le
  have hlen : ((utfWords (c.trapframe err oesp) faultVa).flatMap wordBytes).length = 52 := by
    simp [utfWords, wordBytes]
  rw [hlen]
  bv_omega

private theorem roundTrip_of_faults {handlerVar upcall faultVa err oesp : BitVec 32} {k k' : Cpu}
    (hc : FaultState 56 c)
    (hentry : P.Exec V fault (upcallEntry handlerVar) (c.pageFaultHandler upcall faultVa err oesp) k)
    (hroomy : ∀ x, x.toNat < k.esp.toNat → k.esp.toNat ≤ x.toNat + room → V.writable x)
    (hrun : HandlerRun fault room k.esp k k') (hesp : k'.esp = k.esp)
    (hexit : P.Exec V fault upcallExit (P.step .ret k') d) : RoundTrip c d := by
  have hroom := hc.utfAddr
  have hframed := framed_pageFaultHandler c upcall faultVa err oesp
  have hkept (x : BitVec 32) := returnMemory_kept (x := x) hc upcall faultVa err oesp
  have hstart : Point (BitVec.ofNat 32 (utfAddr c.esp)) (BitVec.ofNat 32 (utfAddr c.esp))
      (c.pageFaultHandler upcall faultVa err oesp).mem (fun _ _ _ => True)
      (c.pageFaultHandler upcall faultVa err oesp) :=
    ⟨rfl, fun _ _ => rfl, trivial⟩
  generalize BitVec.ofNat 32 (utfAddr c.esp) = u at hroom hframed hkept hstart
  have hcalled := entry_point hfault (by omega) hstart hentry
  have hret : Point (u - 4) u (c.pageFaultHandler upcall faultVa err oesp).mem (fun _ _ _ => True)
      (P.step .ret k') := by
    have hk : k.esp = u - 8 := hcalled.esp
    refine ⟨?_, fun x hx => ?_, trivial⟩
    · change k'.esp + 4 = _
      rw [hesp, hk]
      bv_omega
    · rw [← hcalled.mem x hx]
      apply hrun.keeps hfault (V.room_below hroomy (by rw [hk]; bv_omega))
      have hnormal : USTACKTOP = 4005552128 := by decide
      rw [kept_iff] at hx
      rw [hk, hnormal]
      bv_omega
  obtain ⟨c₁, h₁, hx⟩ := exit_pushEip hfault hframed hroom hret hexit
  obtain ⟨c₂, h₂, hx⟩ := exit_restore hfault hframed hroom h₁ hx
  have hend := exit_return hfault hroom h₂ hx
  exact ⟨hend.rest.1, hend.rest.2.1, hend.rest.2.2, fun x hx => by rw [hend.mem x hx, hkept x hx]⟩

end Upcall

private theorem Handled.roundTrip {P : Processor} {U : Upcall} {V : Space} {room n : Nat} {c d : Cpu}
    (hc : FaultState 0 c) (h : Handled P U V room n c d) : RoundTrip c d := by
  induction n generalizing c d with
  | zero =>
    obtain ⟨_, _, _, k, k', hframe, hentry, hroomy, hrun, hesp, hexit⟩ := h
    exact roundTrip_of_faults (fun _ _ hf => hf.elim) (V.frame_inside hc hframe) hentry hroomy hrun hesp hexit
  | succ n ih =>
    obtain ⟨_, _, _, k, k', hframe, hentry, hroomy, hrun, hesp, hexit⟩ := h
    exact roundTrip_of_faults (fun _ _ hf => ih hf.1 hf.2) (V.frame_inside hc hframe) hentry hroomy hrun hesp
      hexit

section Existence

variable {P : Processor} {V : Space} {fault : Cpu → Cpu → Prop} {c d : Cpu} {i : Instr} {code : List Instr}
  {a u handlerVar : BitVec 32}

private theorem exec_quiet {Q : Cpu → Prop} (hi : i.target c = none)
    (h : ∃ d, P.Exec V fault code (P.step i c) d ∧ Q d) : ∃ d, P.Exec V fault (i :: code) c d ∧ Q d := by
  obtain ⟨d, hd, hq⟩ := h
  refine ⟨d, ⟨c, .refl, fun a ha => ?_, hd⟩, hq⟩
  rw [hi] at ha
  cases ha

private theorem exec_store {Q : Cpu → Prop} (hi : i.target c = some a) (ha : V.Holds a 4)
    (h : ∃ d, P.Exec V fault code (P.step i c) d ∧ Q d) : ∃ d, P.Exec V fault (i :: code) c d ∧ Q d := by
  obtain ⟨d, hd, hq⟩ := h
  refine ⟨d, ⟨c, .refl, fun b hb => ?_, hd⟩, hq⟩
  obtain rfl := Option.some.inj (hi.symm.trans hb)
  exact ha

private theorem Space.holds_page (V : Space) {n : Nat} (hlo : 4005556224 ≤ a.toNat) (hhi : a.toNat + n ≤ 4005560320) :
    V.Holds a n := by
  have hstack : UXSTACKTOP = 4005560320 := by decide
  have hpage : PGSIZE = 4096 := by decide
  intro x hx
  apply V.stack
  all_goals
    rw [hstack]
    bv_omega

private theorem entry_exists (hu : c.esp = u) (hlo : 4005556232 ≤ u.toNat) (hhi : u.toNat < 4005560320) :
    ∃ k, P.Exec V fault (upcallEntry handlerVar) c k ∧ k.esp = u - 8 ∧
      ∀ x, u.toNat ≤ x.toNat → k.mem x = c.mem x := by
  have hpage {a : BitVec 32} (ha : a + 4 = u ∨ a + 8 = u) : V.Holds a 4 :=
    V.holds_page (by bv_omega) (by bv_omega)
  have hkept {k : Cpu} {w e : BitVec 32} (he : e = u ∨ e + 4 = u) (hk : k.esp = e) {x : BitVec 32}
      (hx : u.toNat ≤ x.toNat) : (k.push w).mem x = k.mem x := by
    refine Memory32.store32_of_le ?_
    rw [hk]
    bv_omega
  apply exec_store rfl
  · rw [hu]
    exact hpage (by bv_omega)
  have hpush : (P.step (.pushl .esp) c).esp = u - 4 := by simp [Processor.step, Cpu.push, Cpu.set, Cpu.esp, ← hu]
  have hmem (x : BitVec 32) (hx : u.toNat ≤ x.toNat) : (P.step (.pushl .esp) c).mem x = c.mem x :=
    hkept (k := { c with eip := c.eip + P.len (.pushl .esp) }) (.inl rfl) hu hx
  generalize P.step (.pushl .esp) c = c₁ at hpush hmem ⊢
  apply exec_quiet rfl
  have hload : (P.step (.movlVar handlerVar .eax) c₁).esp = u - 4 := by
    rw [← hpush]
    simp [Processor.step, Cpu.set, Cpu.esp]
  have hsame : (P.step (.movlVar handlerVar .eax) c₁).mem = c₁.mem := rfl
  generalize P.step (.movlVar handlerVar .eax) c₁ = c₂ at hload hsame ⊢
  apply exec_store rfl
  · rw [hload]
    exact hpage (by bv_omega)
  refine ⟨_, .refl, ?_, fun x hx => ?_⟩
  · have hcall : (P.step (.call .eax) c₂).esp = c₂.esp - 4 := by simp [Processor.step, Cpu.push, Cpu.set, Cpu.esp]
    rw [hcall, hload]
    bv_omega
  · rw [← hmem x hx, ← hsame]
    exact hkept (k := { c₂ with eip := c₂.eip + P.len (.call .eax) }) (.inr (by bv_omega)) hload hx

/-- The stores on the way back are those to the word below the trap-time stack pointer and to the
saved stack pointer. -/
theorem exit_exists {esp : BitVec 32} (hu : c.esp = u - 4) (hlo : 4005556224 ≤ u.toNat)
    (hhi : u.toNat + 52 ≤ 4005560320) (hsaved : c.mem.load32 (u + 48) = esp) (hword : V.Holds (esp - 4) 4) :
    ∃ d, P.Exec V fault upcallExit c d ∧ True := by
  have hload {k : Cpu} {off : BitVec 32} {r : Reg} (hr : r ≠ .esp) :
      (P.step (.movlLoad off .esp r) k).esp = k.esp := by
    simp [Processor.step, Cpu.set, Cpu.esp, hr.symm]
  apply exec_quiet rfl
  have h₁ : (P.step (.addl 4 .esp) c).esp = u := by
    refine (P.step_addl 4 .esp c).trans ?_
    change c.esp + 4 = u
    rw [hu, BitVec.sub_add_cancel]
  have hmem₁ : (P.step (.addl 4 .esp) c).mem = c.mem := rfl
  generalize P.step (.addl 4 .esp) c = c₁ at h₁ hmem₁ ⊢
  apply exec_quiet rfl
  have h₂ : (P.step (.addl 8 .esp) c₁).esp = u + 8 := by
    rw [← h₁]
    exact P.step_addl 8 .esp c₁
  have hmem₂ : (P.step (.addl 8 .esp) c₁).mem = c₁.mem := rfl
  generalize P.step (.addl 8 .esp) c₁ = c₂ at h₂ hmem₂ ⊢
  apply exec_quiet rfl
  have h₃ : (P.step (.movlLoad 32 .esp .eax) c₂).esp = u + 8 := (hload (by decide)).trans h₂
  have hmem₃ : (P.step (.movlLoad 32 .esp .eax) c₂).mem = c₂.mem := rfl
  generalize P.step (.movlLoad 32 .esp .eax) c₂ = c₃ at h₃ hmem₃ ⊢
  apply exec_quiet rfl
  have h₄ : (P.step (.movlLoad 40 .esp .edx) c₃).esp = u + 8 := (hload (by decide)).trans h₃
  have hedx : (P.step (.movlLoad 40 .esp .edx) c₃).regs .edx = esp := by
    refine (P.step_movlLoad 40 .esp .edx c₃).trans ?_
    change c₃.mem.load32 (c₃.esp + 40) = esp
    rw [hmem₃, hmem₂, hmem₁, h₃, BitVec.add_assoc]
    exact hsaved
  generalize P.step (.movlLoad 40 .esp .edx) c₃ = c₄ at h₄ hedx ⊢
  apply exec_store rfl
  · have hoff : esp + -4 = esp - 4 := by bv_omega
    rw [hedx, hoff]
    exact hword
  have h₅ : (P.step (.movlStore .eax (-4) .edx) c₄).esp = u + 8 := by
    rw [← h₄]
    simp [Processor.step, Cpu.esp]
  generalize P.step (.movlStore .eax (-4) .edx) c₄ = c₅ at h₅ ⊢
  apply exec_store rfl
  · change V.Holds (c₅.esp + 40) 4
    rw [h₅]
    exact V.holds_page (by bv_omega) (by bv_omega)
  apply exec_quiet rfl
  apply exec_quiet rfl
  apply exec_quiet rfl
  apply exec_quiet rfl
  apply exec_quiet rfl
  exact ⟨_, .refl, trivial⟩

end Existence

/-- The faults below a fault with `n` levels. -/
def Nested (P : Processor) (U : Upcall) (V : Space) (room : Nat) : Nat → Cpu → Cpu → Prop
  | 0 => fun _ _ => False
  | n + 1 => fun c d => FaultState 0 c ∧ Handled P U V room n c d

private theorem handled_of_handler (P : Processor) (U : Upcall) (V : Space) {room n : Nat} {c : Cpu}
    (hc : FaultState (64 + room) c) (hpage : 60 + room ≤ PGSIZE) (hword : V.Holds (c.esp - 4) 4)
    (hrun : ∀ k : Cpu, k.esp.toNat + 8 = (BitVec.ofNat 32 (utfAddr c.esp)).toNat →
      ∃ k', HandlerRun (Nested P U V room n) room k.esp k k' ∧ k'.esp = k.esp ∧
        ∀ x, k.esp.toNat ≤ x.toNat → k'.mem x = k.mem x) : ∃ d, Handled P U V room n c d := by
  have hsize : PGSIZE = 4096 := by decide
  have hstack : UXSTACKTOP = 4005560320 := by decide
  have hnormal : USTACKTOP = 4005552128 := by decide
  have hfits : FaultState 56 c := by
    rcases hc with h | ⟨hlo, hhi⟩
    · exact .inl h
    · exact .inr ⟨by omega, hhi⟩
  have hutf := hfits.utfAddr
  have hframed := framed_pageFaultHandler c U.entry 0 0 0
  have hstart : (c.pageFaultHandler U.entry 0 0 0).esp = BitVec.ofNat 32 (utfAddr c.esp) := by
    simp [Cpu.pageFaultHandler, Cpu.set, Cpu.esp]
  generalize hu : BitVec.ofNat 32 (utfAddr c.esp) = u at hutf hframed hstart hrun
  simp only [FaultState, hstack, hnormal, hsize] at hc hpage
  have hlow : 4005556232 + room ≤ u.toNat := by omega
  have hhigh : u.toNat + 52 ≤ 4005560320 := by omega
  obtain ⟨k, hentry, hk, hkmem⟩ :=
    @entry_exists P V (Nested P U V room n) _ u U.handlerVar hstart (by omega) (by omega)
  have hk' : k.esp.toNat + 8 = u.toNat := by
    rw [hk]
    bv_omega
  obtain ⟨k', hbody, hesp, hmem⟩ := hrun k hk'
  have hret : (P.step .ret k').esp = u - 4 := by
    have hpop : (P.step .ret k').esp = k'.esp + 4 := by simp [Processor.step, Cpu.set, Cpu.esp]
    rw [hpop, hesp, hk]
    bv_omega
  have hsaved : (P.step .ret k').mem.load32 (u + 48) = c.esp := by
    refine (Memory32.load32_congr fun x hx => ?_).trans hframed.esp
    exact (hmem x (by bv_omega)).trans (hkmem x (by bv_omega))
  obtain ⟨d, hexit, -⟩ := @exit_exists P V (Nested P U V room n) _ u _ hret (by omega) (by omega) hsaved hword
  have hframe : V.Holds (BitVec.ofNat 32 (utfAddr c.esp)) 52 := by
    rw [hu]
    exact V.holds_page (by omega) hhigh
  have hbytes (x : BitVec 32) (hx : x.toNat < k.esp.toNat) (hx' : k.esp.toNat ≤ x.toNat + room) :
      V.writable x := by
    apply V.stack
    all_goals
      rw [hstack]
      omega
  refine ⟨d, ?_⟩
  unfold Handled
  cases n with
  | zero => exact ⟨0, 0, 0, k, k', hframe, hentry, hbytes, hbody, hesp, hexit⟩
  | succ n => exact ⟨0, 0, 0, k, k', hframe, hentry, hbytes, hbody, hesp, hexit⟩

/-- Every fault that returns has kept the trap-time state, whatever faults come in on the way, and
these have kept theirs.  With room below the stack pointer for the frame, the spare word, the two words
that the upcall pushes and the `room` bytes of the handler, a fault can return: all that is stored on
the way is in the page of the exception stack and in the word below the trap-time stack pointer. -/
theorem pageFault_roundTrip (P : Processor) (U : Upcall) (V : Space) (room n : Nat) {c : Cpu}
    (hc : FaultState 0 c) : (∀ d, Handled P U V room n c d → RoundTrip c d) ∧
      (FaultState (64 + room) c → 60 + room ≤ PGSIZE → V.Holds (c.esp - 4) 4 → ∃ d, Handled P U V room n c d) := by
  refine ⟨fun d h => h.roundTrip hc, fun hroom hpage hword => ?_⟩
  apply handled_of_handler P U V hroom hpage hword
  intro k _
  exact ⟨k, .done k, rfl, fun _ _ => rfl⟩

def sampleCpu : Cpu where
  regs r := if r = .esp then 0xEEBFDFE0 else 7
  eip := 0x800100
  eflags := 0x202
  mem _ := 0

/-- Everything below the empty page is mapped. -/
def sampleSpace : Space where
  writable x := x.toNat < USTACKTOP ∨ UXSTACKTOP - PGSIZE ≤ x.toNat ∧ x.toNat < UXSTACKTOP
  guard x hlo hhi := by omega
  stack x hlo hhi := .inr ⟨hlo, hhi⟩
  kernel x hlo := by
    have hnormal : USTACKTOP ≤ UXSTACKTOP := by decide
    omega

/-- The handler of a fault on the normal stack faults at its first instruction. -/
theorem pageFault_roundTrip_nested :
    let P : Processor := ⟨fun _ => 1, fun _ e _ _ => e⟩
    let U : Upcall := ⟨0x800020, 0x804000⟩
    ∃ d, Handled P U sampleSpace 256 1 sampleCpu d ∧ RoundTrip sampleCpu d ∧
      ∃ k k', USTACKTOP < k.esp.toNat ∧ Handled P U sampleSpace 256 0 k k' ∧ RoundTrip k k' := by
  intro P U
  have hnormal : USTACKTOP = 4005552128 := by decide
  have hstack : UXSTACKTOP = 4005560320 := by decide
  have hsize : PGSIZE = 4096 := by decide
  have hword : sampleSpace.Holds (sampleCpu.esp - 4) 4 := by
    have hesp : sampleCpu.esp = 0xEEBFDFE0 := by decide
    intro x hx
    rw [hesp] at hx
    refine .inl ?_
    rw [hnormal]
    bv_omega
  have hutf : (BitVec.ofNat 32 (utfAddr sampleCpu.esp)).toNat = 4005560268 := by decide
  have hnested (k : Cpu) (hk : k.esp.toNat + 8 = 4005560268) :
      ∃ k', FaultState 0 k ∧ Handled P U sampleSpace 256 0 k k' ∧ RoundTrip k k' := by
    have hfault : FaultState 0 k := by
      refine .inr ⟨?_, ?_⟩
      all_goals omega
    have hroom : FaultState (64 + 256) k := by
      refine .inr ⟨?_, ?_⟩
      all_goals omega
    have hround := pageFault_roundTrip P U sampleSpace 256 0 hfault
    obtain ⟨k', hk'⟩ := hround.2 hroom (by omega) (sampleSpace.holds_page (by bv_omega) (by bv_omega))
    exact ⟨k', hfault, hk', hround.1 k' hk'⟩
  have hinner : ∃ k k', USTACKTOP < k.esp.toNat ∧ Handled P U sampleSpace 256 0 k k' ∧ RoundTrip k k' := by
    let k : Cpu := { sampleCpu with regs := fun _ => 0xEEBFFFC4 }
    obtain ⟨k', -, hk', hround⟩ := hnested k (by decide)
    exact ⟨k, k', by decide, hk', hround⟩
  have houter : ∃ d, Handled P U sampleSpace 256 1 sampleCpu d := by
    apply handled_of_handler P U sampleSpace (.inl (by decide)) (by decide) hword
    rw [hutf]
    intro k hk
    obtain ⟨k', hfault, hk', hround⟩ := hnested k hk
    refine ⟨k', .fault (by omega) le_rfl ⟨hfault, hk'⟩ (.done k'), congrFun hround.regs .esp, fun x hx => ?_⟩
    exact hround.mem x (.inl ⟨hx, fun hle => by omega⟩)
  obtain ⟨d, hd⟩ := houter
  exact ⟨d, hd, (pageFault_roundTrip P U sampleSpace 256 1 (.inl (by decide))).1 d hd, hinner⟩

/-- A program that runs on the exception stack, 56 bytes above its end. -/
def lowCpu : Cpu := { sampleCpu with regs := fun r => if r = .esp then 0xEEBFF038 else 7 }

/-- There is room for the frame only.  The first push of the upcall faults, and the kernel cannot
write the frame of that fault. -/
theorem pageFault_low_stack : FaultState 56 lowCpu ∧
    ∀ (P : Processor) (U : Upcall) (V : Space) (room n : Nat) (d : Cpu), ¬ Handled P U V room n lowCpu d := by
  refine ⟨by decide, fun P U V room n d h => ?_⟩
  unfold Handled at h
  obtain ⟨faultVa, err, oesp, k, k', -, ⟨c, hfaults, hpush, -⟩, -⟩ := h
  have hesp : (lowCpu.pageFaultHandler U.entry faultVa err oesp).esp = 0xEEBFF000 := by
    simp [Cpu.pageFaultHandler, Cpu.set, Cpu.esp]
    decide
  have hbelow {a : BitVec 32} {m : Nat} (ha : 4005552128 ≤ a.toNat) (ha' : a.toNat < 4005556224) (hm : 0 < m) :
      ¬ V.Holds a m := by
    intro hholds
    refine V.guard a ha ha' (hholds a ?_)
    simpa using hm
  rcases Relation.ReflTransGen.cases_head hfaults with rfl | ⟨e, hfault, -⟩
  · refine hbelow (by decide) (by decide) (by decide) (hpush 0xEEBFEFFC ?_)
    rw [Instr.target, hesp]
    rfl
  · cases n with
    | zero => exact hfault
    | succ n =>
      obtain ⟨-, hnested⟩ := hfault
      unfold Handled at hnested
      obtain ⟨-, -, -, -, -, hframe, -⟩ := hnested
      rw [hesp] at hframe
      exact hbelow (by decide) (by decide) (by decide) hframe

end DamnOS.User
