import DamnOS.Programs.Vsnprintf

/-!
# `readline`

The loop of `stdio.c` that collects a line, over what `getchar` returns.  The kernel and the programs are built with it.
-/

namespace DamnOS.Programs

open DamnOS.Framework

def BUFLEN : Nat := 1024
def E_EOF : Int := 8

/-- `buf`, `i`, and what has been given to `cputchar`. -/
structure LineState where
  buf : Nat → UInt8
  i : Nat
  out : List Int

/-- What `readline` returns: `NULL`, with the error that it has complained of, or `buf`. -/
inductive LineEnd where
  | null (error : Option Int) (s : LineState)
  | line (s : LineState)

def LineState.echo (echoing : Bool) (c : Int) (s : LineState) : LineState :=
  if echoing then { s with out := s.out ++ [c] } else s

/-- The body of the loop, after `getchar` has returned `c`. -/
def lineBody (echoing : Bool) (c : Int) (s : LineState) : LineState ⊕ LineEnd :=
  if c < 0 then .inr (.null (if c ≠ -E_EOF then some c else none) s)
  else if c = 8 ∨ c = 0x7f then
    if 0 < s.i then
      let s := s.echo echoing 8
      .inl { s with i := s.i - 1 }
    else .inl s
  else if 32 ≤ c ∧ s.i < BUFLEN - 1 then
    let s := s.echo echoing c
    .inl { s with buf := Function.update s.buf s.i (UInt8.ofInt c), i := s.i + 1 }
  else if c = 10 ∨ c = 13 then
    let s := s.echo echoing 10
    .inr (.line { s with buf := Function.update s.buf s.i 0 })
  else .inl s

/-- The loop.  It comes with what is left to read to its end, or waits for another character. -/
def readline (echoing : Bool) : List Int → LineState → LineState ⊕ (LineEnd × List Int)
  | [], s => .inl s
  | c :: cs, s => (lineBody echoing c s).elim (readline echoing cs) fun r => .inr (r, cs)

def edit (l : List UInt8) (c : Int) : List UInt8 :=
  if c = 8 ∨ c = 0x7f then l.dropLast
  else if 32 ≤ c ∧ l.length < BUFLEN - 1 then l ++ [UInt8.ofInt c]
  else l

/-- What is echoed of a character behind the line `l`. -/
def echoed (l : List UInt8) (c : Int) : List Int :=
  if c = 8 ∨ c = 0x7f then if l = [] then [] else [8]
  else if 32 ≤ c ∧ l.length < BUFLEN - 1 then [c]
  else []

/-- What is echoed behind the line `l`, character by character. -/
def echoes : List UInt8 → List Int → List Int
  | _, [] => []
  | l, c :: cs => echoed l c ++ echoes (edit l c) cs

/-- A character of the line, or one that edits it. -/
def InLine (c : Int) : Prop := 0 ≤ c ∧ c ≤ 255 ∧ c ≠ 10 ∧ c ≠ 13

instance decidableInLine (c : Int) : Decidable (InLine c) := inferInstanceAs (Decidable (_ ∧ _))

/-- The line `l` has been collected, and `out` echoed. -/
structure Collected (buf : Nat → UInt8) (echoing : Bool) (l : List UInt8) (out : List Int) (s : LineState) : Prop where
  i : s.i = l.length
  room : l.length < BUFLEN
  bytes : BytesAt s.buf 0 l
  zero : (0 : UInt8) ∉ l
  out : s.out = if echoing then out else []
  frame : ∀ x, BUFLEN ≤ x → s.buf x = buf x

section Lines

variable {buf : Nat → UInt8} {echoing : Bool} {l : List UInt8} {out : List Int} {s : LineState} {c : Int} {cs : List Int}

@[simp] theorem echo_i (echoing : Bool) (c : Int) (s : LineState) : (s.echo echoing c).i = s.i := by
  rw [LineState.echo]
  split <;> rfl

@[simp] theorem echo_buf (echoing : Bool) (c : Int) (s : LineState) : (s.echo echoing c).buf = s.buf := by
  rw [LineState.echo]
  split <;> rfl

private theorem echo_out (h : s.out = if echoing then out else []) (c : Int) :
    (s.echo echoing c).out = if echoing then out ++ [c] else [] := by
  rw [LineState.echo]
  cases echoing with
  | false => exact h
  | true =>
    change s.out ++ [c] = out ++ [c]
    rw [h]
    rfl

theorem collected_start (buf : Nat → UInt8) (echoing : Bool) : Collected buf echoing [] [] ⟨buf, 0, []⟩ := by
  refine ⟨rfl, by decide, ?_, by simp, by simp, fun _ _ => rfl⟩
  intro i hi
  cases hi

theorem toNat_ofInt_byte (h : 0 ≤ c) (hle : c ≤ 255) : (UInt8.ofInt c).toNat = c.toNat := by
  rw [UInt8.ofInt, UInt8.toNat_ofNat']
  omega

private theorem ofInt_ne_zero (h : 0 < c) (hle : c ≤ 255) : UInt8.ofInt c ≠ 0 := by
  intro h0
  have hnat := toNat_ofInt_byte h.le hle
  rw [h0, UInt8.toNat_zero] at hnat
  omega

theorem Collected.step (h : Collected buf echoing l out s) (hc : InLine c) :
    ∃ s', lineBody echoing c s = .inl s' ∧ Collected buf echoing (edit l c) (out ++ echoed l c) s' := by
  obtain ⟨hneg, hle, hnl, hcr⟩ := hc
  have hi := h.i
  rw [lineBody, if_neg (by omega), edit, echoed]
  by_cases hback : c = 8 ∨ c = 0x7f
  · rw [if_pos hback, if_pos hback, if_pos hback]
    rcases List.eq_nil_or_concat l with rfl | ⟨front, last, rfl⟩
    · rw [if_neg (by rw [hi]; decide), if_pos rfl, List.append_nil]
      exact ⟨s, rfl, h⟩
    · rw [List.concat_eq_append] at h hi ⊢
      rw [List.length_append, List.length_singleton] at hi
      rw [if_pos (by omega), if_neg (by simp), List.dropLast_concat]
      refine ⟨_, rfl, ?_⟩
      have hroom := h.room
      rw [List.length_append] at hroom
      have hzero := h.zero
      rw [List.mem_append, not_or] at hzero
      constructor
      · change (s.echo echoing 8).i - 1 = front.length
        rw [echo_i, hi]
        exact Nat.add_sub_cancel _ _
      · omega
      · change BytesAt (s.echo echoing 8).buf 0 front
        rw [echo_buf]
        exact h.bytes.left
      · exact hzero.1
      · exact echo_out h.out 8
      · change ∀ x, BUFLEN ≤ x → (s.echo echoing 8).buf x = buf x
        rw [echo_buf]
        exact h.frame
  · rw [if_neg hback, if_neg hback, if_neg hback]
    by_cases hput : 32 ≤ c ∧ l.length < BUFLEN - 1
    · rw [if_pos (by rwa [hi]), if_pos hput, if_pos hput]
      refine ⟨_, rfl, ?_⟩
      constructor
      · change (s.echo echoing c).i + 1 = (l ++ [UInt8.ofInt c]).length
        rw [echo_i, hi, List.length_append, List.length_singleton]
      · rw [List.length_append, List.length_singleton]
        omega
      · change BytesAt (Function.update (s.echo echoing c).buf (s.echo echoing c).i (UInt8.ofInt c)) 0 _
        rw [echo_buf, echo_i, hi]
        have hbytes := @bytesAt_append_singleton 0 s.buf l (UInt8.ofInt c) h.bytes
        rwa [Nat.zero_add] at hbytes
      · rw [List.mem_append, List.mem_singleton, not_or]
        exact ⟨h.zero, (ofInt_ne_zero (by omega) hle).symm⟩
      · exact echo_out h.out c
      · intro x hx
        change Function.update (s.echo echoing c).buf (s.echo echoing c).i (UInt8.ofInt c) x = buf x
        rw [echo_buf, echo_i, Function.update_of_ne (by have := h.room; omega)]
        exact h.frame x hx
    · rw [if_neg (by rwa [hi]), if_neg hput, if_neg hput, if_neg (by omega), List.append_nil]
      exact ⟨s, rfl, h⟩

theorem Collected.run (h : Collected buf echoing l out s) (hcs : ∀ c ∈ cs, InLine c) (rest : List Int) :
    ∃ s', readline echoing (cs ++ rest) s = readline echoing rest s' ∧
      Collected buf echoing (cs.foldl edit l) (out ++ echoes l cs) s' := by
  induction cs generalizing l out s with
  | nil =>
    refine ⟨s, rfl, ?_⟩
    rw [echoes, List.append_nil]
    exact h
  | cons c cs ih =>
    obtain ⟨s', hbody, h'⟩ := h.step (hcs c List.mem_cons_self)
    obtain ⟨t, hrun, ht⟩ := ih h' fun x hx => hcs x (List.mem_cons_of_mem c hx)
    refine ⟨t, ?_, ?_⟩
    · rw [List.cons_append, readline, hbody]
      exact hrun
    · rw [echoes, ← List.append_assoc]
      exact ht

theorem Collected.line (h : Collected buf echoing l out s) (hc : c = 10 ∨ c = 13) :
    ∃ s', lineBody echoing c s = .inr (.line s') ∧ StringAt s'.buf 0 l ∧
      s'.out = (if echoing then out ++ [10] else []) ∧ ∀ x, BUFLEN ≤ x → s'.buf x = buf x := by
  have hroom := h.room
  rw [lineBody, if_neg (by omega), if_neg (by omega), if_neg (by omega), if_pos hc]
  refine ⟨_, rfl, ?_, echo_out h.out 10, ?_⟩
  · dsimp only
    rw [echo_buf, echo_i, h.i]
    apply BytesAt.stringAt _ h.zero
    · rw [Nat.zero_add, Function.update_self]
    · apply h.bytes.congr
      intro x _ hx
      exact Function.update_of_ne (by omega) _ _
  · intro x hx
    dsimp only
    rw [echo_buf, echo_i, h.i, Function.update_of_ne (by omega)]
    exact h.frame x hx

private theorem lineBody_null (hc : c < 0) :
    lineBody echoing c s = .inr (.null (if c = -E_EOF then none else some c) s) := by
  rw [lineBody, if_pos hc, ite_not]

theorem readline_waits (buf : Nat → UInt8) (echoing : Bool) (hcs : ∀ c ∈ cs, InLine c) :
    ∃ s, readline echoing cs ⟨buf, 0, []⟩ = .inl s ∧ Collected buf echoing (cs.foldl edit []) (echoes [] cs) s := by
  obtain ⟨s, hs, h⟩ := (collected_start buf echoing).run hcs []
  rw [List.append_nil] at hs
  exact ⟨s, hs, h⟩

theorem readline_returns (buf : Nat → UInt8) (echoing : Bool) (hcs : ∀ c ∈ cs, InLine c) (hc : c = 10 ∨ c = 13)
    (rest : List Int) : ∃ s, readline echoing (cs ++ c :: rest) ⟨buf, 0, []⟩ = .inr (.line s, rest) ∧
      StringAt s.buf 0 (cs.foldl edit []) ∧ s.out = (if echoing then echoes [] cs ++ [10] else []) ∧
      ∀ x, BUFLEN ≤ x → s.buf x = buf x := by
  obtain ⟨s, hs, h⟩ := (collected_start buf echoing).run hcs (c :: rest)
  obtain ⟨t, ht, hline⟩ := h.line hc
  refine ⟨t, ?_, hline⟩
  rw [hs, readline, ht]
  rfl

end Lines

/-- `readline` waits until a newline, a carriage return or an error comes.  Up to there it is a line editor that never
leaves its buffer; what it returns is the edited line. -/
theorem readline_edits (echoing : Bool) (buf : Nat → UInt8) (cs : List Int) (hcs : ∀ c ∈ cs, InLine c) :
    (cs.foldl edit []).length < BUFLEN ∧ (∃ s, readline echoing cs ⟨buf, 0, []⟩ = .inl s) ∧
      (∀ c rest, c = 10 ∨ c = 13 → ∃ s, readline echoing (cs ++ c :: rest) ⟨buf, 0, []⟩ = .inr (.line s, rest) ∧
        StringAt s.buf 0 (cs.foldl edit []) ∧ s.out = (if echoing then echoes [] cs ++ [10] else []) ∧
        ∀ x, BUFLEN ≤ x → s.buf x = buf x) ∧
      ∀ c rest, c < 0 → ∃ s, readline echoing (cs ++ c :: rest) ⟨buf, 0, []⟩ =
        .inr (.null (if c = -E_EOF then none else some c) s, rest) ∧ ∀ x, BUFLEN ≤ x → s.buf x = buf x := by
  obtain ⟨s, hs, h⟩ := readline_waits buf echoing hcs
  refine ⟨h.room, ⟨s, hs⟩, fun c rest hc => readline_returns buf echoing hcs hc rest, ?_⟩
  intro c rest hc
  obtain ⟨t, ht, hcollected⟩ := (collected_start buf echoing).run hcs (c :: rest)
  refine ⟨t, ?_, hcollected.frame⟩
  rw [ht, readline, lineBody_null hc]
  rfl

/-- A letter is typed, taken back, and another one is typed. -/
theorem readline_edits_sample : ∃ s, readline true [97, 8, 98, 13] ⟨fun _ => 0, 0, []⟩ = .inr (.line s, []) ∧
    StringAt s.buf 0 [98] ∧ s.out = [97, 8, 98, 10] ∧ ∀ x, BUFLEN ≤ x → s.buf x = 0 :=
  (readline_edits true (fun _ => 0) [97, 8, 98] (by decide)).2.2.1 13 [] (.inr rfl)

end DamnOS.Programs
