import DamnOS.Programs.Vsnprintf

/-!
# Formatted output to a file

`vfprintf` collects up to 256 characters and writes them with one call.  What the calls of `write` return is left open:
each answer may depend on everything that has been written.
-/

namespace DamnOS.Programs

open DamnOS.Framework

/-- The size of `buf` in `struct fprintbuf`. -/
def FPRINT_BUFFER : Nat := 256

/-- What `write` returns, a `ssize_t`, for the last of the buffers that it has got. -/
abbrev Answer : Type := List (List UInt8) → BitVec 32

/-- `struct fprintbuf`, with the memory and the buffers that `write` has got.  The characters are at `buf`. -/
structure Fprintbuf where
  idx : Nat
  result : BitVec 32
  error : BitVec 32
  mem : Nat → UInt8
  written : List (List UInt8)

def writebuf (answer : Answer) (buf : BitVec 32) (b : Fprintbuf) : Fprintbuf :=
  if 0 < b.error.toInt then
    let written := b.written ++ [(List.range b.idx).map fun i => b.mem (buf.toNat + i)]
    let result := answer written
    { b with
      written := written
      result := if 0 < result.toInt then b.result + result else b.result
      error := if result ≠ BitVec.ofNat 32 b.idx then if result.toInt < 0 then result else 0 else b.error }
  else b

def fputch (answer : Answer) (buf : BitVec 32) (ch : Int) (b : Fprintbuf) : Fprintbuf :=
  let b := { b with mem := Function.update b.mem (buf.toNat + b.idx) (UInt8.ofInt ch), idx := b.idx + 1 }
  if b.idx = FPRINT_BUFFER then { writebuf answer buf b with idx := 0 } else b

def fprintSink (answer : Answer) (buf : BitVec 32) : Sink Fprintbuf := ⟨fputch answer buf, Fprintbuf.mem⟩

/-- `vfprintf`, with the value it returns and the buffers that `write` has got. -/
def vfprintf (fuel : Nat) (answer : Answer) (m : Nat → UInt8) (buf : BitVec 32) (fmt : Nat → Option UInt8)
    (ap : Nat → BitVec 32) : Option (BitVec 32 × List (List UInt8)) := do
  let b ← (fprintSink answer buf).vprintfmt fuel fmt ap 0 0 ⟨0, 0, 1, m, []⟩
  let b := if 0 < b.idx then writebuf answer buf b else b
  some (if b.result ≠ 0 then b.result else b.error, b.written)

/-- Every one of the writes has been complete. -/
def Complete (answer : Answer) (written : List (List UInt8)) : Prop :=
  ∀ front c, front ++ [c] <+: written → answer (front ++ [c]) = BitVec.ofNat 32 c.length

/-- The number of characters, as a `ssize_t`. -/
def countOf (written : List (List UInt8)) : BitVec 32 := BitVec.ofNat 32 written.flatten.length

def accepted (x : BitVec 32) : BitVec 32 := if 0 < x.toInt then x else 0

def failure (x : BitVec 32) : BitVec 32 := if x.toInt < 0 then x else 0

def orElse (result error : BitVec 32) : BitVec 32 := if result ≠ 0 then result else error

/-- Of the buffers `pieces` those before the first incomplete write are written, and that one. -/
inductive WriteOutcome (answer : Answer) (pieces : List (List UInt8)) : List (List UInt8) → BitVec 32 → Prop
  | whole (h : Complete answer pieces) :
    WriteOutcome answer pieces pieces (orElse (countOf pieces) 1)
  | stopped {front c back} (hpieces : pieces = front ++ c :: back) (hfront : Complete answer front)
    (hc : answer (front ++ [c]) ≠ BitVec.ofNat 32 c.length) :
    WriteOutcome answer pieces (front ++ [c])
      (orElse (countOf front + accepted (answer (front ++ [c]))) (failure (answer (front ++ [c]))))

/-- `cs` has been handed to `writebuf`. -/
inductive Fprinted (answer : Answer) (cs : List (List UInt8)) (b : Fprintbuf) : Prop
  | whole (h : Complete answer cs) (hwritten : b.written = cs) (hresult : b.result = countOf cs)
    (herror : b.error = 1)
  | stopped {front c back} (hcs : cs = front ++ c :: back) (hfront : Complete answer front)
    (hc : answer (front ++ [c]) ≠ BitVec.ofNat 32 c.length) (hwritten : b.written = front ++ [c])
    (hresult : b.result = countOf front + accepted (answer (front ++ [c])))
    (herror : b.error = failure (answer (front ++ [c])))

section Writes

variable {answer : Answer} {cs : List (List UInt8)} {b : Fprintbuf} {buf : BitVec 32} {c e : List UInt8}

private theorem countOf_append (cs : List (List UInt8)) (c : List UInt8) :
    countOf (cs ++ [c]) = countOf cs + BitVec.ofNat 32 c.length := by
  rw [countOf, List.flatten_append, List.flatten_singleton, List.length_append, BitVec.ofNat_add]
  rfl

private theorem failure_nonpos (x : BitVec 32) : ¬0 < (failure x).toInt := by
  rw [failure]
  split
  · omega
  · decide

private theorem add_accepted (r x : BitVec 32) : (if 0 < x.toInt then r + x else r) = r + accepted x := by
  rw [accepted]
  split
  · rfl
  · exact (BitVec.add_zero r).symm

private theorem accepted_ofNat {n : Nat} (h : n ≤ FPRINT_BUFFER) :
    accepted (BitVec.ofNat 32 n) = BitVec.ofNat 32 n := by
  change n ≤ 256 at h
  have hvalue : (BitVec.ofNat 32 n).toInt = n := by
    rw [BitVec.toInt_eq_toNat_of_lt (by rw [BitVec.toNat_ofNat]; omega), BitVec.toNat_ofNat]
    omega
  rw [accepted, hvalue]
  split
  · rfl
  · rw [show n = 0 by omega]
    rfl

theorem Complete.append (h : Complete answer cs) (hc : answer (cs ++ [c]) = BitVec.ofNat 32 c.length) :
    Complete answer (cs ++ [c]) := by
  intro front d hfront
  rcases List.prefix_concat_iff.mp hfront with heq | hprefix
  · rw [heq, hc, (List.append_inj' heq rfl).2 |> List.singleton_inj.mp]
  · exact h front d hprefix

private theorem bytesAt_range (h : BytesAt b.mem buf.toNat e) (hidx : b.idx = e.length) :
    ((List.range b.idx).map fun i => b.mem (buf.toNat + i)) = e := by
  apply List.ext_get
  · rw [List.length_map, List.length_range, hidx]
  · intro i hi hi'
    rw [List.get_eq_getElem, List.getElem_map, List.getElem_range]
    exact h i hi'

private theorem Fprinted.writebuf (h : Fprinted answer cs b) (hbytes : BytesAt b.mem buf.toNat e)
    (hidx : b.idx = e.length)
    (he : e.length ≤ FPRINT_BUFFER) :
    Fprinted answer (cs ++ [e]) (writebuf answer buf b) := by
  cases h with
  | whole hcs hwritten hresult herror =>
    rw [DamnOS.Programs.writebuf, if_pos (by rw [herror]; decide), bytesAt_range hbytes hidx, hwritten, hidx]
    by_cases hx : answer (cs ++ [e]) = BitVec.ofNat 32 e.length
    · refine .whole (hcs.append hx) rfl ?_ ?_
      · dsimp only
        rw [add_accepted, hx, accepted_ofNat he, hresult, countOf_append]
      · dsimp only
        rw [if_neg (not_not.mpr hx), herror]
    · refine @Fprinted.stopped _ _ _ cs e [] rfl hcs hx rfl ?_ ?_
      · dsimp only
        rw [add_accepted, hresult]
      · dsimp only
        rw [if_pos hx]
        rfl
  | @stopped front c back hcs hfront hc hwritten hresult herror =>
    rw [DamnOS.Programs.writebuf, if_neg (by rw [herror]; exact failure_nonpos _)]
    refine @Fprinted.stopped _ _ _ front c (back ++ [e]) ?_ hfront hc hwritten hresult herror
    rw [hcs, List.append_assoc]
    rfl

theorem Fprinted.outcome (h : Fprinted answer cs b) :
    WriteOutcome answer cs b.written (if b.result ≠ 0 then b.result else b.error) := by
  cases h with
  | whole hcs hwritten hresult herror =>
    rw [hresult, herror, hwritten]
    exact .whole hcs
  | @stopped front c back hcs hfront hc hwritten hresult herror =>
    rw [hresult, herror, hwritten]
    exact .stopped hcs hfront hc

theorem Fprinted.congr {b' : Fprintbuf} (h : Fprinted answer cs b) (hwritten : b'.written = b.written)
    (hresult : b'.result = b.result) (herror : b'.error = b.error) : Fprinted answer cs b' := by
  cases h with
  | whole hcs hw hr he => exact .whole hcs (hwritten.trans hw) (hresult.trans hr) (herror.trans he)
  | stopped hcs hfront hc hw hr he =>
    exact .stopped hcs hfront hc (hwritten.trans hw) (hresult.trans hr) (herror.trans he)

@[simp] theorem writebuf_mem (answer : Answer) (buf : BitVec 32) (b : Fprintbuf) :
    (writebuf answer buf b).mem = b.mem := by
  rw [DamnOS.Programs.writebuf]
  split <;> rfl

end Writes

section Collecting

variable {answer : Answer} {cs : List (List UInt8)} {b : Fprintbuf} {buf : BitVec 32} {e l : List UInt8}
  {m : Nat → UInt8} {ap : Nat → BitVec 32} {out : List Int} {fuel : Nat}

/-- Of what was put in, `cs` has been handed over in full buffers and `e` is in the buffer. -/
structure Collecting (answer : Answer) (buf : BitVec 32) (m : Nat → UInt8) (out : List Int) (cs : List (List UInt8))
    (e : List UInt8) (b : Fprintbuf) : Prop where
  text : out.map UInt8.ofInt = cs.flatten ++ e
  full : ∀ c ∈ cs, c.length = FPRINT_BUFFER
  idx : b.idx = e.length
  room : e.length < FPRINT_BUFFER
  bytes : BytesAt b.mem buf.toNat e
  handed : Fprinted answer cs b
  frame : ∀ x, x ∉ bufferBytes buf 256 → b.mem x = m x

private theorem collecting_start (answer : Answer) (buf : BitVec 32) (m : Nat → UInt8) :
    Collecting answer buf m [] [] [] ⟨0, 0, 1, m, []⟩ := by
  refine ⟨rfl, ?_, rfl, by decide, ?_, .whole ?_ rfl rfl rfl, fun _ _ => rfl⟩
  · intro c hc
    cases hc
  · intro i hi
    cases hi
  · intro front c hfront
    exact absurd (List.prefix_nil.mp hfront) (by simp)

/-- A character is put in the buffer, and a full buffer is handed over. -/
theorem Collecting.put (h : Collecting answer buf m out cs e b) (c : Int) :
    ∃ cs' e', Collecting answer buf m (out ++ [c]) cs' e' (fputch answer buf c b) := by
  have hbytes := @bytesAt_append_singleton _ _ e (UInt8.ofInt c) h.bytes
  have hroom := h.room
  have hlen : (e ++ [UInt8.ofInt c]).length = e.length + 1 := by rw [List.length_append, List.length_singleton]
  have htext : (out ++ [c]).map UInt8.ofInt = cs.flatten ++ (e ++ [UInt8.ofInt c]) := by
    rw [List.map_append, h.text, List.append_assoc]
    rfl
  have hframe : ∀ x, x ∉ bufferBytes buf 256 →
      Function.update b.mem (buf.toNat + e.length) (UInt8.ofInt c) x = m x := by
    intro x hx
    have hne : x ≠ buf.toNat + e.length := by
      rintro rfl
      apply hx
      change buf.toNat ≤ buf.toNat + e.length ∧ buf.toNat + e.length < buf.toNat + FPRINT_BUFFER
      omega
    rw [Function.update_of_ne hne]
    exact h.frame x hx
  obtain ⟨b', hb⟩ : ∃ b' : Fprintbuf, b' = ⟨e.length + 1, b.result, b.error,
    Function.update b.mem (buf.toNat + e.length) (UInt8.ofInt c), b.written⟩ := ⟨_, rfl⟩
  have hmem : b'.mem = Function.update b.mem (buf.toNat + e.length) (UInt8.ofInt c) := by rw [hb]
  have hidx : b'.idx = (e ++ [UInt8.ofInt c]).length := by rw [hb, hlen]
  have hhanded : Fprinted answer cs b' := h.handed.congr (by rw [hb]) (by rw [hb]) (by rw [hb])
  have hput : fputch answer buf c b = if b'.idx = FPRINT_BUFFER then { writebuf answer buf b' with idx := 0 } else b' := by
    rw [hb, fputch, h.idx]
  rw [← hmem] at hbytes hframe
  rw [hput, hidx, hlen]
  by_cases hfull : e.length + 1 = FPRINT_BUFFER
  · rw [if_pos hfull]
    refine ⟨cs ++ [e ++ [UInt8.ofInt c]], [], ?_, ?_, rfl, by decide, ?_, ?_, ?_⟩
    · rw [htext, List.flatten_append, List.flatten_singleton, List.append_nil]
    · intro d hd
      rcases List.mem_append.mp hd with hd | hd
      · exact h.full d hd
      · rw [List.mem_singleton.mp hd, hlen, hfull]
    · intro i hi
      cases hi
    · exact (hhanded.writebuf hbytes hidx (by omega)).congr rfl rfl rfl
    · intro x hx
      change (writebuf answer buf b').mem x = m x
      rw [writebuf_mem]
      exact hframe x hx
  · rw [if_neg hfull]
    exact ⟨cs, e ++ [UInt8.ofInt c], htext, h.full, hidx, by omega, hbytes, hhanded, hframe⟩

private theorem collecting_puts (answer : Answer) (buf : BitVec 32) (m : Nat → UInt8) (out : List Int) :
    ∃ cs e, Collecting answer buf m out cs e ((fprintSink answer buf).puts out ⟨0, 0, 1, m, []⟩) := by
  induction out using List.reverseRecOn with
  | nil => exact ⟨[], [], collecting_start answer buf m⟩
  | append_singleton out c ih =>
    obtain ⟨cs, e, h⟩ := ih
    rw [Sink.puts_append]
    exact h.put c

private theorem fprintSink_keeps (answer : Answer) (buf : BitVec 32) (m : Nat → UInt8) :
    (fprintSink answer buf).Keeps (bufferBytes buf 256) m ⟨0, 0, 1, m, []⟩ := by
  intro out x hx
  obtain ⟨cs, e, h⟩ := collecting_puts answer buf m out
  exact h.frame x hx

end Collecting

/-- Whatever the calls of `write` return: a text is handed to them in buffers of 256 characters and a rest, up to the
first write that is not complete, and `vfprintf` tells how many characters have been written, in 32 bits, or the error
if that is none. -/
theorem vfprintf_outcome (answer : Answer) (m : Nat → UInt8) (buf : BitVec 32) (ap : Nat → BitVec 32)
    (l : List UInt8) (out : List Int) (h0 : (0 : UInt8) ∉ l)
    (hv : StringsClear (bufferBytes buf 256) m ap (items l) 0)
    (hout : ∃ F, ∀ fuel ≥ F, vprintfmt fuel (formatBytes l) m ap 0 0 = some out) : ∃ cs e r written,
      (out.map UInt8.ofInt = cs.flatten ++ e ∧ (∀ c ∈ cs, c.length = FPRINT_BUFFER) ∧ e.length < FPRINT_BUFFER) ∧
        (∃ F, ∀ fuel ≥ F, vfprintf fuel answer m buf (formatBytes l) ap = some (r, written)) ∧
        WriteOutcome answer (if e = [] then cs else cs ++ [e]) written r := by
  obtain ⟨cs, e, h⟩ := collecting_puts answer buf m out
  obtain ⟨F, hF⟩ := hout
  have hrun (fuel : Nat) (hf : fuel ≥ F) := Sink.vprintfmt_run (fprintSink_keeps answer buf m) h0 hv (hF fuel hf)
  generalize (fprintSink answer buf).puts out ⟨0, 0, 1, m, []⟩ = b at h hrun
  refine ⟨cs, e, _, _, ⟨h.text, h.full, h.room⟩, ⟨F, fun fuel hf => by rw [vfprintf, hrun fuel hf]; rfl⟩, ?_⟩
  have hidx := h.idx
  by_cases he : e = []
  · rw [if_pos he, if_neg (by rw [hidx, he]; decide)]
    exact h.handed.outcome
  · rw [if_neg he, if_pos (by rw [hidx]; exact List.length_pos_iff.mpr he)]
    exact (h.handed.writebuf h.bytes hidx h.room.le).outcome

def takesAll : Answer := fun written => BitVec.ofNat 32 (written.getLastD []).length

/-- One letter, for a `write` that takes everything. -/
theorem vfprintf_outcome_sample : ∃ cs e r written,
    ([65] = cs.flatten ++ e ∧ (∀ c ∈ cs, c.length = FPRINT_BUFFER) ∧ e.length < FPRINT_BUFFER) ∧
      (∃ F, ∀ fuel ≥ F, vfprintf fuel takesAll (fun _ => 0) 4096
        (formatBytes [65]) (fun _ => 0) = some (r, written)) ∧
      WriteOutcome takesAll (if e = [] then cs else cs ++ [e]) written r := by
  have hitems : items [65] = [.text 65] := by simp [items, PERCENT]
  have hemits : Emits (fun _ => 0) (fun _ => 0) (items [65]) 0 [65] := by
    rw [hitems]
    exact .text (.done 0)
  exact vfprintf_outcome takesAll (fun _ => 0) 4096 (fun _ => 0) [65] [65]
    (by decide) (by rw [hitems]; trivial) (vprintfmt_rest ⟨[], rfl, rfl⟩ (by decide) hemits)

end DamnOS.Programs
