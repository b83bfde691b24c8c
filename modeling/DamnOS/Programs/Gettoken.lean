import DamnOS.Framework.CStrings

/-!
# The words of a command line

`gettoken` of the shell cuts the line in place: separators become zeros, and one token is scanned ahead and kept
in static variables.  The reference lexer goes over the line once and knows of neither.
-/

namespace DamnOS.Programs

open DamnOS.Framework

def WHITESPACE : List UInt8 := [32, 9, 13, 10]

def SYMBOLS : List UInt8 := [60, 124, 62, 38, 59, 40, 41]

/-- Whether `strchr` finds the byte; it does not find the terminator. -/
def strchr (s : List UInt8) (c : UInt8) : Bool := s.contains c

/-- The value that `gettoken` returns for a word. -/
def WORD : UInt8 := 119

/-- The memory, and the static variables of `gettoken` that outlive a call.  A null pointer is `none`. -/
structure Lexer where
  mem : Nat → UInt8
  nc : UInt8
  np1 : Option Nat
  np2 : Option Nat

namespace Lexer

def skipBlanks : Nat → (Nat → UInt8) → Nat → Option ((Nat → UInt8) × Nat)
  | 0, _, _ => none
  | fuel + 1, m, s =>
    if strchr WHITESPACE (m s) then skipBlanks fuel (Function.update m s 0) (s + 1) else some (m, s)

def skipWord : Nat → (Nat → UInt8) → Nat → Option Nat
  | 0, _, _ => none
  | fuel + 1, m, s =>
    if m s ≠ 0 ∧ strchr (WHITESPACE ++ SYMBOLS) (m s) = false then skipWord fuel m (s + 1) else some s

def _gettoken (fuel : Nat) (st : Lexer) (s : Option Nat) : Option (UInt8 × Lexer) :=
  match s with
  | none => some (0, st)
  | some s => do
    let (m, s) ← skipBlanks fuel st.mem s
    if m s = 0 then some (0, { st with mem := m, np1 := none, np2 := none })
    else if strchr SYMBOLS (m s) then
      some (m s, { st with mem := Function.update m s 0, np1 := some s, np2 := some (s + 1) })
    else do
      let e ← skipWord fuel m s
      some (WORD, { st with mem := m, np1 := some s, np2 := some e })

/-- `gettoken`: the token, and what is stored in `*p1`. -/
def gettoken (fuel : Nat) (st : Lexer) (s : Option Nat) : Option (UInt8 × Option Nat × Lexer) :=
  match s with
  | some s => do
    let (nc, st) ← st._gettoken fuel (some s)
    some (0, none, { st with nc := nc })
  | none => do
    let (nc, next) ← st._gettoken fuel st.np2
    some (st.nc, st.np1, { next with nc := nc })

/-- The first `n` calls of `gettoken(0, &t)`. -/
def calls (fuel : Nat) : Nat → Lexer → Option (List (UInt8 × Option Nat × Lexer))
  | 0, _ => some []
  | n + 1, st => do
    let (c, t, st) ← st.gettoken fuel none
    let rest ← calls fuel n st
    some ((c, t, st) :: rest)

end Lexer

inductive Token where
  | symbol (c : UInt8)
  | word (w : List UInt8)
  deriving DecidableEq

def plain (c : UInt8) : Bool := !strchr WHITESPACE c && !strchr SYMBOLS c

/-- A run of plain bytes that has come to its end. -/
def endWord (w : List UInt8) : List Token := if w = [] then [] else [.word w]

/-- The tokens of a line, `w` being the run of plain bytes before it. -/
def tokensAfter (w : List UInt8) : List UInt8 → List Token
  | [] => endWord w
  | c :: line =>
    if strchr WHITESPACE c then endWord w ++ tokensAfter [] line
    else if strchr SYMBOLS c then endWord w ++ .symbol c :: tokensAfter [] line
    else tokensAfter (w ++ [c]) line

def tokens (line : List UInt8) : List Token := tokensAfter [] line

example : tokens [108, 115, 60, 97, 32, 32, 98, 124, 99] = [.word [108, 115], .symbol 60, .word [97], .word [98],
    .symbol 124, .word [99]] := by decide

/-- What a call has to deliver when a token is next, or none is left. -/
def Delivers (st : UInt8 × Option Nat × Lexer) : Option Token → Prop
  | none => st.1 = 0
  | some (.symbol c) => st.1 = c
  | some (.word w) => st.1 = WORD ∧ ∃ t, st.2.1 = some t ∧ StringAt st.2.2.mem t w

section Reference

variable {w line : List UInt8} {c : UInt8}

private theorem plain_iff : plain c = true ↔ strchr WHITESPACE c = false ∧ strchr SYMBOLS c = false := by
  simp [plain]

private theorem tokensAfter_plain (h : plain c = true) : tokensAfter w (c :: line) = tokensAfter (w ++ [c]) line := by
  obtain ⟨hblank, hsymbol⟩ := plain_iff.mp h
  simp [tokensAfter, hblank, hsymbol]

private theorem tokensAfter_word (w line : List UInt8) :
    tokensAfter w line = tokensAfter (w ++ line.takeWhile plain) (line.dropWhile plain) := by
  induction line generalizing w with
  | nil => simp
  | cons c line ih =>
    by_cases h : plain c = true
    · rw [tokensAfter_plain h, ih, List.takeWhile_cons_of_pos h, List.dropWhile_cons_of_pos h]
      simp
    · rw [List.takeWhile_cons_of_neg h, List.dropWhile_cons_of_neg h, List.append_nil]

private theorem tokensAfter_end (h : ∀ c ∈ line.head?, plain c = false) :
    tokensAfter w line = endWord w ++ tokens line := by
  cases line with
  | nil => simp [tokens, tokensAfter, endWord]
  | cons c line =>
    have hc : plain c = false := h c rfl
    rw [tokens, tokensAfter, tokensAfter]
    by_cases hblank : strchr WHITESPACE c = true
    · simp [hblank, endWord]
    · by_cases hsymbol : strchr SYMBOLS c = true
      · simp [hblank, hsymbol, endWord]
      · simp [plain, hblank, hsymbol] at hc

private theorem head_dropWhile_plain (line : List UInt8) : ∀ c ∈ (line.dropWhile plain).head?, plain c = false := by
  intro c hc
  cases hd : line.dropWhile plain with
  | nil => simp [hd] at hc
  | cons d l =>
    have hhead := List.head?_dropWhile_not plain line
    rw [hd] at hc hhead
    simp only [List.head?_cons, Option.mem_def, Option.some_inj] at hc hhead
    subst hc
    simpa using hhead

private theorem tokens_blanks (line : List UInt8) : tokens line = tokens (line.dropWhile (strchr WHITESPACE)) := by
  induction line with
  | nil => rfl
  | cons c line ih =>
    by_cases h : strchr WHITESPACE c = true
    · rw [List.dropWhile_cons_of_pos h, ← ih, tokens, tokensAfter, if_pos h]
      rfl
    · rw [List.dropWhile_cons_of_neg h]

private theorem tokens_symbol (h : strchr SYMBOLS c = true) (hb : strchr WHITESPACE c = false) :
    tokens (c :: line) = .symbol c :: tokens line := by
  rw [tokens, tokensAfter, hb, h]
  rfl

theorem tokens_word (h : plain c = true) : tokens (c :: line) =
    .word ((c :: line).takeWhile plain) :: tokens ((c :: line).dropWhile plain) := by
  rw [tokens, tokensAfter_word, tokensAfter_end (head_dropWhile_plain _), List.nil_append, endWord,
    if_neg (by rw [List.takeWhile_cons_of_pos h]; simp)]
  rfl

end Reference

section Scans

variable {m m' : Nat → UInt8} {s s' fuel : Nat} {line : List UInt8}

private theorem skipBlanks_spec (h : StringAt m s line) (hf : line.length < fuel) :
    ∃ m', Lexer.skipBlanks fuel m s = some (m', s + (line.takeWhile (strchr WHITESPACE)).length) ∧
      StringAt m' (s + (line.takeWhile (strchr WHITESPACE)).length) (line.dropWhile (strchr WHITESPACE)) ∧
      (∀ x < s, m' x = m x) ∧ (strchr WHITESPACE (m s) = true → m' s = 0) := by
  induction line generalizing m s fuel with
  | nil =>
    obtain ⟨fuel, rfl⟩ := Nat.exists_eq_add_one_of_ne_zero (Nat.ne_of_gt hf)
    have h0 : m s = 0 := h
    have hzero : strchr WHITESPACE (m s) = false := by
      rw [h0]
      decide
    refine ⟨m, ?_, h, fun _ _ => rfl, fun hb => ?_⟩
    · rw [Lexer.skipBlanks, hzero]
      rfl
    · rw [hzero] at hb
      cases hb
  | cons c line ih =>
    obtain ⟨fuel, rfl⟩ := Nat.exists_eq_add_one_of_ne_zero (Nat.ne_of_gt (Nat.zero_lt_of_lt hf))
    obtain ⟨hc, hne, hrest⟩ := h
    by_cases hblank : strchr WHITESPACE c = true
    · have hupdate : StringAt (Function.update m s 0) (s + 1) line := hrest.update_lt (by omega)
      obtain ⟨m', hrun, hat, hbefore, -⟩ := ih hupdate (by simpa using hf)
      rw [List.takeWhile_cons_of_pos hblank, List.dropWhile_cons_of_pos hblank, List.length_cons,
        ← Nat.add_assoc, Nat.add_right_comm]
      refine ⟨m', ?_, hat, fun x hx => ?_, fun _ => ?_⟩
      · rw [Lexer.skipBlanks, hc, if_pos hblank, hrun]
      · rw [hbefore x (by omega), Function.update_of_ne (by omega)]
      · rw [hbefore s (by omega), Function.update_self]
    · rw [List.takeWhile_cons_of_neg hblank, List.dropWhile_cons_of_neg hblank]
      refine ⟨m, ?_, ⟨hc, hne, hrest⟩, fun _ _ => rfl, fun hb => ?_⟩
      · rw [Lexer.skipBlanks, hc, if_neg hblank]
        rfl
      · rw [hc] at hb
        exact absurd hb hblank

private theorem skipWord_spec (h : StringAt m s line) (hf : line.length < fuel) :
    Lexer.skipWord fuel m s = some (s + (line.takeWhile plain).length) := by
  have htest (c : UInt8) : strchr (WHITESPACE ++ SYMBOLS) c = (strchr WHITESPACE c || strchr SYMBOLS c) := by
    simp [strchr]
  induction line generalizing s fuel with
  | nil =>
    obtain ⟨fuel, rfl⟩ := Nat.exists_eq_add_one_of_ne_zero (Nat.ne_of_gt hf)
    rw [Lexer.skipWord, if_neg fun hp => hp.1 h]
    rfl
  | cons c line ih =>
    obtain ⟨fuel, rfl⟩ := Nat.exists_eq_add_one_of_ne_zero (Nat.ne_of_gt (Nat.zero_lt_of_lt hf))
    obtain ⟨hc, hne, hrest⟩ := h
    rw [Lexer.skipWord, hc, htest]
    by_cases hp : plain c = true
    · obtain ⟨hblank, hsymbol⟩ := plain_iff.mp hp
      rw [if_pos ⟨hne, by rw [hblank, hsymbol]; rfl⟩, ih hrest (by simpa using hf), List.takeWhile_cons_of_pos hp,
        List.length_cons]
      congr 1
      omega
    · rw [List.takeWhile_cons_of_neg hp, if_neg]
      · rfl
      · rintro ⟨-, hno⟩
        rw [Bool.or_eq_false_iff] at hno
        exact hp (plain_iff.mpr hno)

end Scans

/-- The lexer holds `next`, and the rest of the line is still as it was. -/
inductive Lexer.Holds (st : Lexer) : Option Token → List UInt8 → Prop
  | none (hnc : st.nc = 0) (hnp2 : st.np2 = none) : Lexer.Holds st none []
  | symbol {c : UInt8} {b : Nat} {rest : List UInt8} (hnc : st.nc = c) (hnp2 : st.np2 = some b)
      (hrest : StringAt st.mem b rest) : Lexer.Holds st (some (.symbol c)) rest
  /-- The byte behind the word is a separator, which is not yet cut. -/
  | word {a : Nat} {w rest : List UInt8} (hnc : st.nc = WORD) (hnp1 : st.np1 = some a)
      (hnp2 : st.np2 = some (a + w.length)) (hw : BytesAt st.mem a w) (h0 : (0 : UInt8) ∉ w)
      (hrest : StringAt st.mem (a + w.length) rest) (hend : ∀ c ∈ rest.head?, plain c = false) :
      Lexer.Holds st (some (.word w)) rest

section Lookahead

variable {st : Lexer} {s fuel : Nat} {line rest : List UInt8} {next : Option Token}

private theorem _gettoken_spec (h : StringAt st.mem s line) (hf : line.length < fuel) :
    ∃ nc st', st._gettoken fuel (some s) = some (nc, st') ∧ (∀ x < s, st'.mem x = st.mem x) ∧
      ((∀ c ∈ line.head?, plain c = false) → st'.mem s = 0) ∧
      ∃ next rest, Lexer.Holds { st' with nc := nc } next rest ∧ rest.length ≤ line.length ∧
        tokens line = next.toList ++ tokens rest := by
  obtain ⟨m, hrun, hat, hbefore, hblank⟩ := skipBlanks_spec h hf
  rw [tokens_blanks line]
  have hlen : (line.dropWhile (strchr WHITESPACE)).length ≤ line.length :=
    (List.dropWhile_sublist _).length_le
  -- either the first byte was blank, or nothing was skipped
  have hfirst : m s = 0 ∨ line.takeWhile (strchr WHITESPACE) = [] ∧ line.dropWhile (strchr WHITESPACE) = line := by
    cases line with
    | nil => exact .inr ⟨rfl, rfl⟩
    | cons c line =>
      by_cases hc : strchr WHITESPACE c = true
      · apply Or.inl
        apply hblank
        rw [h.1]
        exact hc
      · exact .inr ⟨List.takeWhile_cons_of_neg hc, List.dropWhile_cons_of_neg hc⟩
  generalize hs : s + (line.takeWhile (strchr WHITESPACE)).length = s' at hrun hat
  have hstart : m s = 0 ∨ s' = s ∧ line.dropWhile (strchr WHITESPACE) = line := by
    refine hfirst.imp_right fun hn => ⟨?_, hn.2⟩
    rw [← hs, hn.1]
    rfl
  have hclear : ∀ c ∈ (line.dropWhile (strchr WHITESPACE)).head?, strchr WHITESPACE c = false := by
    intro c hc
    have hnot := List.head?_dropWhile_not (strchr WHITESPACE) line
    rw [Option.mem_def] at hc
    rw [hc] at hnot
    simpa using hnot
  generalize line.dropWhile (strchr WHITESPACE) = l at hat hlen hstart hclear
  have hskipped : s ≤ s' := by omega
  rw [Lexer._gettoken]
  dsimp only
  rw [hrun]
  dsimp only [Option.bind_eq_bind, Option.bind_some]
  cases l with
  | nil =>
    have h0 : m s' = 0 := hat
    rw [if_pos h0]
    refine ⟨_, _, rfl, hbefore, fun _ => ?_, none, [], .none rfl rfl, by simp, rfl⟩
    rcases hstart with hzero | ⟨rfl, -⟩
    · exact hzero
    · exact h0
  | cons c l =>
    obtain ⟨hc, hne, hl⟩ := hat
    have hnb : strchr WHITESPACE c = false := hclear c rfl
    have hne' : m s' ≠ 0 := hc ▸ hne
    rw [if_neg hne']
    by_cases hsymbol : strchr SYMBOLS c = true
    · have hsymbol' : strchr SYMBOLS (m s') = true := hc ▸ hsymbol
      rw [if_pos hsymbol']
      refine ⟨_, _, rfl, fun x hx => ?_, fun _ => ?_, some (.symbol c), l, .symbol hc rfl ?_, ?_, ?_⟩
      · rw [← hbefore x hx]
        exact Function.update_of_ne (by omega) _ _
      · rcases hstart with hzero | ⟨rfl, -⟩
        · by_cases hss : s = s'
          · rw [hss]
            exact Function.update_self ..
          · rw [← hzero]
            exact Function.update_of_ne hss _ _
        · exact Function.update_self ..
      · exact hl.update_lt (by omega)
      · simp only [List.length_cons] at hlen
        omega
      · exact tokens_symbol hsymbol hnb
    · have hsymbol' : ¬ strchr SYMBOLS (m s') = true := hc ▸ hsymbol
      rw [if_neg hsymbol']
      have hp : plain c = true := plain_iff.mpr ⟨hnb, by simpa using hsymbol⟩
      have hword : StringAt m s' (c :: l) := ⟨hc, hne, hl⟩
      rw [skipWord_spec hword (by omega)]
      dsimp only [Option.bind_some]
      have hsplit : (c :: l).takeWhile plain ++ (c :: l).dropWhile plain = c :: l := List.takeWhile_append_dropWhile
      have hrest : StringAt m (s' + ((c :: l).takeWhile plain).length) ((c :: l).dropWhile plain) := by
        apply StringAt.append
        rw [hsplit]
        exact hword
      have hbytes : BytesAt m s' ((c :: l).takeWhile plain) := by
        apply @BytesAt.left m s' _ ((c :: l).dropWhile plain)
        rw [hsplit]
        exact hword.bytesAt
      have hzero : (0 : UInt8) ∉ (c :: l).takeWhile plain := fun hm =>
        hword.zero_not_mem ((List.takeWhile_sublist plain).subset hm)
      refine ⟨_, _, rfl, hbefore, fun hsep => ?_, some (.word ((c :: l).takeWhile plain)), (c :: l).dropWhile plain,
        .word rfl rfl rfl hbytes hzero hrest (head_dropWhile_plain _), ?_, tokens_word hp⟩
      · rcases hstart with hzero | ⟨-, rfl⟩
        · exact hzero
        · rw [hsep c rfl] at hp
          cases hp
      · exact (List.dropWhile_sublist plain).length_le.trans hlen

private theorem gettoken_spec (h : Lexer.Holds st next rest) (hf : rest.length < fuel) :
    ∃ r, st.gettoken fuel none = some r ∧ Delivers r next ∧
      ∃ next' rest', Lexer.Holds r.2.2 next' rest' ∧ rest'.length ≤ rest.length ∧
        tokens rest = next'.toList ++ tokens rest' := by
  rw [Lexer.gettoken]
  dsimp only
  cases h with
  | none hnc hnp2 =>
    rw [hnp2]
    exact ⟨_, rfl, hnc, none, [], .none rfl hnp2, le_rfl, rfl⟩
  | symbol hnc hnp2 hrest =>
    obtain ⟨nc, st', hrun, -, -, next', rest', hholds, hlen, htokens⟩ := _gettoken_spec hrest hf
    rw [hnp2, hrun]
    exact ⟨_, rfl, hnc, next', rest', hholds, hlen, htokens⟩
  | word hnc hnp1 hnp2 hw h0 hrest hend =>
    obtain ⟨nc, st', hrun, hbefore, hcut, next', rest', hholds, hlen, htokens⟩ := _gettoken_spec hrest hf
    rw [hnp2, hrun]
    refine ⟨_, rfl, ⟨hnc, _, hnp1, ?_⟩, next', rest', hholds, hlen, htokens⟩
    exact BytesAt.stringAt (hw.congr fun x _ hx => hbefore x hx) h0 (hcut hend)

private theorem calls_spec (h : Lexer.Holds st next rest) (hf : rest.length < fuel) (n : Nat) :
    ∃ results, st.calls fuel n = some results ∧ results.length = n ∧
      ∀ i (hi : i < results.length), Delivers (results.get ⟨i, hi⟩) ((next.toList ++ tokens rest)[i]?) := by
  induction n generalizing st next rest with
  | zero => exact ⟨[], rfl, rfl, fun i hi => by cases hi⟩
  | succ n ih =>
    obtain ⟨⟨c, t, st'⟩, hrun, hdelivers, next', rest', hholds, hlen, htokens⟩ := gettoken_spec h hf
    obtain ⟨results, hcalls, hlength, hresults⟩ := ih hholds (by omega)
    refine ⟨(c, t, st') :: results, ?_, by rw [List.length_cons, hlength], fun i hi => ?_⟩
    · rw [Lexer.calls, hrun]
      dsimp only [Option.bind_eq_bind, Option.bind_some]
      rw [hcalls]
      rfl
    · cases next with
      | none =>
        -- nothing is left once nothing is held
        cases h
        cases i with
        | zero => exact hdelivers
        | succ i =>
          have hrest := hresults i (by simpa using hi)
          rw [← htokens] at hrest
          simpa [tokens, tokensAfter, endWord] using hrest
      | some tok =>
        cases i with
        | zero => exact hdelivers
        | succ i =>
          have hrest := hresults i (by simpa using hi)
          rw [← htokens] at hrest
          exact hrest

end Lookahead

/-- After `gettoken(s, 0)` the calls of `gettoken(0, &t)` return the tokens of the line, every word terminated, and
from then on 0. -/
theorem gettoken_tokens (st : Lexer) (s : Nat) (line : List UInt8) (h : StringAt st.mem s line) (fuel : Nat)
    (hf : line.length < fuel) : ∃ st', st.gettoken fuel (some s) = some (0, none, st') ∧
      ∀ n, ∃ results, st'.calls fuel n = some results ∧ results.length = n ∧
        ∀ i (hi : i < results.length), Delivers (results.get ⟨i, hi⟩) ((tokens line)[i]?) := by
  obtain ⟨nc, st', hrun, -, -, next, rest, hholds, hlen, htokens⟩ := _gettoken_spec h hf
  refine ⟨{ st' with nc := nc }, ?_, fun n => ?_⟩
  · rw [Lexer.gettoken]
    dsimp only
    rw [hrun]
    rfl
  · rw [htokens]
    exact calls_spec hholds (by omega) n

/-- The line `a >b`. -/
theorem gettoken_tokens_sample : ∃ st', Lexer.gettoken 5 ⟨memoryOf [97, 32, 62, 98], 0, none, none⟩ (some 0) =
    some (0, none, st') ∧ ∀ n, ∃ results, st'.calls 5 n = some results ∧ results.length = n ∧
      ∀ i (hi : i < results.length), Delivers (results.get ⟨i, hi⟩) ((tokens [97, 32, 62, 98])[i]?) :=
  gettoken_tokens ⟨memoryOf [97, 32, 62, 98], 0, none, none⟩ 0 [97, 32, 62, 98] (stringAt_memoryOf (by decide)) 5
    (by decide)

end DamnOS.Programs
