import DamnOS.Programs.Sinks
import DamnOS.Kernel.Words

/-!
# Printing into a buffer

`sprintputch` and `vsnprintf` of `stdio.c`.  Characters beyond the room of the buffer are counted, not stored.
-/

namespace DamnOS.Programs

open DamnOS.Framework
open DamnOS.Kernel (E_INVAL)

/-- `struct sprintbuf`, with the memory. -/
structure Sprintbuf where
  buf : BitVec 32
  ebuf : BitVec 32
  cnt : BitVec 32
  mem : Nat → UInt8

def sprintputch (ch : Int) (b : Sprintbuf) : Sprintbuf :=
  let b := { b with cnt := b.cnt + 1 }
  if b.buf.toNat < b.ebuf.toNat then
    { b with mem := Function.update b.mem b.buf.toNat (UInt8.ofInt ch), buf := b.buf + 1 }
  else b

def sprintSink : Sink Sprintbuf := ⟨sprintputch, Sprintbuf.mem⟩

/-- `vsnprintf`, with the value it returns and the memory it leaves. -/
def vsnprintf (fuel : Nat) (m : Nat → UInt8) (buf n : BitVec 32) (fmt : Nat → Option UInt8) (ap : Nat → BitVec 32) :
    Option (Int × (Nat → UInt8)) :=
  if buf = 0 ∨ n.toInt < 1 then some (-E_INVAL, m)
  else do
    let b ← sprintSink.vprintfmt fuel fmt ap 0 0 ⟨buf, buf + n - 1, 0, m⟩
    some (b.cnt.toInt, Function.update b.mem b.buf.toNat 0)

def bufferBytes (buf n : BitVec 32) : Set Nat := {x | buf.toNat ≤ x ∧ x < buf.toNat + n.toNat}

/-- The characters that a buffer of `n` bytes has room for. -/
def stored (n : BitVec 32) (out : List Int) : List UInt8 := (out.take (n.toNat - 1)).map UInt8.ofInt

/-- The buffer at `a` has room for `room` characters and has been given those of `out`. -/
structure Written (a room : Nat) (m : Nat → UInt8) (out : List Int) (b : Sprintbuf) : Prop where
  buf : b.buf.toNat = a + min room out.length
  ebuf : b.ebuf.toNat = a + room
  cnt : b.cnt = BitVec.ofNat 32 out.length
  bytes : BytesAt b.mem a ((out.take room).map UInt8.ofInt)
  frame : ∀ x, x < a ∨ a + room ≤ x → b.mem x = m x

section Buffers

variable {a room : Nat} {m : Nat → UInt8} {out : List Int} {b : Sprintbuf} {buf n : BitVec 32} {c : Int}

theorem bytesAt_append_singleton {l : List UInt8} {x : UInt8} (h : BytesAt m a l) :
    BytesAt (Function.update m (a + l.length) x) a (l ++ [x]) := by
  intro i hi
  rw [List.length_append, List.length_singleton] at hi
  rw [List.get_eq_getElem]
  by_cases hlt : i < l.length
  · rw [Function.update_of_ne (by omega), List.getElem_append_left hlt]
    exact h i hlt
  · have hlast : i = l.length := by omega
    subst hlast
    rw [Function.update_self, List.getElem_concat_length rfl]

theorem Written.put (h : Written a room m out b) (hroom : a + room < 2 ^ 32) (c : Int) :
    Written a room m (out ++ [c]) (sprintputch c b) := by
  have hcnt : b.cnt + 1 = BitVec.ofNat 32 (out ++ [c]).length := by
    rw [h.cnt, List.length_append, List.length_singleton, BitVec.ofNat_add]
    rfl
  have hlen : (out ++ [c]).length = out.length + 1 := by rw [List.length_append, List.length_singleton]
  rw [sprintputch]
  by_cases hlt : b.buf.toNat < b.ebuf.toNat
  · have hfits : out.length < room := by
      have hbuf := h.buf
      have hebuf := h.ebuf
      omega
    have hplace : b.buf.toNat = a + out.length := by
      rw [h.buf, Nat.min_eq_right hfits.le]
    have hall : (out ++ [c]).take room = out ++ [c] := List.take_of_length_le (by omega)
    have hbytes := h.bytes
    rw [List.take_of_length_le hfits.le] at hbytes
    refine ⟨?_, ?_, ?_, ?_, ?_⟩
    · rw [if_pos hlt, hlen]
      change (b.buf + 1).toNat = _
      rw [BitVec.toNat_add, hplace, Nat.min_eq_right (by omega)]
      change (a + out.length + 1) % 2 ^ 32 = _
      rw [Nat.mod_eq_of_lt (by omega), Nat.add_assoc]
    · rw [if_pos hlt]
      exact h.ebuf
    · rw [if_pos hlt]
      exact hcnt
    · rw [if_pos hlt, hall, List.map_append]
      change BytesAt (Function.update b.mem b.buf.toNat (UInt8.ofInt c)) a _
      have hnext := bytesAt_append_singleton (x := UInt8.ofInt c) hbytes
      rwa [List.length_map, ← hplace] at hnext
    · rw [if_pos hlt]
      intro x hx
      have hne : x ≠ b.buf.toNat := by omega
      exact (Function.update_of_ne hne _ _).trans (h.frame x hx)
  · have hfull : room ≤ out.length := by
      have hbuf := h.buf
      have hebuf := h.ebuf
      omega
    rw [if_neg hlt]
    refine ⟨?_, h.ebuf, hcnt, ?_, h.frame⟩
    · rw [hlen, Nat.min_eq_left (by omega)]
      exact h.buf.trans (by rw [Nat.min_eq_left hfull])
    · rw [List.take_append_of_le_length hfull]
      exact h.bytes

theorem Written.puts (h : Written a room m [] b) (hroom : a + room < 2 ^ 32) (out : List Int) :
    Written a room m out (sprintSink.puts out b) := by
  induction out using List.reverseRecOn with
  | nil => exact h
  | append_singleton out c ih =>
    rw [Sink.puts_append]
    exact ih.put hroom c

private theorem one_le_toNat (hn : 1 ≤ n.toInt) : 1 ≤ n.toNat := by
  by_contra hzero
  have hn0 : n = 0 := BitVec.eq_of_toNat_eq (Nat.lt_one_iff.mp (not_le.mp hzero))
  rw [hn0] at hn
  exact absurd hn (by decide)

private theorem written_start (hn : 1 ≤ n.toInt) (hfit : buf.toNat + n.toNat ≤ 2 ^ 32) (m : Nat → UInt8) :
    Written buf.toNat (n.toNat - 1) m [] ⟨buf, buf + n - 1, 0, m⟩ := by
  have hpos := one_le_toNat hn
  refine ⟨by simp, ?_, rfl, ?_, fun _ _ => rfl⟩
  · change (buf + n - 1).toNat = _
    have hone : (1 : BitVec 32).toNat = 1 := rfl
    rw [BitVec.toNat_sub, BitVec.toNat_add, hone]
    omega
  · intro i hi
    simp at hi

private theorem sprintSink_keeps (hn : 1 ≤ n.toInt) (hfit : buf.toNat + n.toNat ≤ 2 ^ 32) (m : Nat → UInt8) :
    sprintSink.Keeps (bufferBytes buf n) m ⟨buf, buf + n - 1, 0, m⟩ := by
  intro out x hx
  have hpos := one_le_toNat hn
  apply ((written_start hn hfit m).puts (by omega) out).frame
  change ¬(buf.toNat ≤ x ∧ x < buf.toNat + n.toNat) at hx
  omega

end Buffers

section Call

variable {m : Nat → UInt8} {ap : Nat → BitVec 32} {l : List UInt8} {out : List Int} {buf n : BitVec 32}

theorem vsnprintf_run (h0 : (0 : UInt8) ∉ l)
    (hout : ∃ F, ∀ fuel ≥ F, vprintfmt fuel (formatBytes l) m ap 0 0 = some out) (hbuf : buf ≠ 0) (hn : 1 ≤ n.toInt)
    (hfit : buf.toNat + n.toNat ≤ 2 ^ 32) (hv : StringsClear (bufferBytes buf n) m ap (items l) 0)
    (hlen : out.length < 2 ^ 31) :
    ∃ m', (∃ F, ∀ fuel ≥ F, vsnprintf fuel m buf n (formatBytes l) ap = some ((out.length : Int), m')) ∧
      BytesAt m' buf.toNat (stored n out ++ [0]) ∧ ∀ x, x ∉ bufferBytes buf n → m' x = m x := by
  have hpos := one_le_toNat hn
  have hroom : buf.toNat + (n.toNat - 1) < 2 ^ 32 := by omega
  have hwritten := (written_start hn hfit m).puts hroom out
  obtain ⟨F, hF⟩ := hout
  have hrun (fuel : Nat) (hf : fuel ≥ F) := Sink.vprintfmt_run (sprintSink_keeps hn hfit m) h0 hv (hF fuel hf)
  have hlength : (stored n out).length = min (n.toNat - 1) out.length := by
    rw [stored, List.length_map, List.length_take]
  have hbytes := bytesAt_append_singleton (x := (0 : UInt8)) hwritten.bytes
  generalize hb : sprintSink.puts out ⟨buf, buf + n - 1, 0, m⟩ = b at hwritten hbytes hrun
  refine ⟨Function.update b.mem b.buf.toNat 0, ⟨F, fun fuel hf => ?_⟩, ?_, fun x hx => ?_⟩
  · have hguard : ¬(buf = 0 ∨ n.toInt < 1) := by
      rintro (h | h)
      · exact hbuf h
      · omega
    rw [vsnprintf, if_neg hguard, hrun fuel hf]
    change some (b.cnt.toInt, _) = _
    rw [hwritten.cnt, toInt_ofNat hlen]
  · rw [hwritten.buf, ← hlength]
    exact hbytes
  · change ¬(buf.toNat ≤ x ∧ x < buf.toNat + n.toNat) at hx
    have hplace := hwritten.buf
    have hne : x ≠ b.buf.toNat := by omega
    exact (Function.update_of_ne hne _ _).trans (hwritten.frame x (by omega))

private theorem stored_comparable (n n' : BitVec 32) (out : List Int) :
    stored n out <+: stored n' out ∨ stored n' out <+: stored n out := by
  rcases Nat.le_total (n.toNat - 1) (n'.toNat - 1) with hle | hle
  · exact Or.inl ((List.take_prefix_take_left hle).map _)
  · exact Or.inr ((List.take_prefix_take_left hle).map _)

end Call

/-- One output for every sink that leaves the strings alone; of it `vsnprintf` stores what there is room for, with a
terminator and inside the buffer, and returns its length. -/
theorem vsnprintf_spec (m : Nat → UInt8) (ap : Nat → BitVec 32) (l : List UInt8) (h0 : (0 : UInt8) ∉ l)
    (hv : StringsValid m ap (items l) 0) : ∃ out : List Int,
      (∀ (σ : Type) (S : Sink σ) (B : Set Nat) (s : σ), S.Keeps B m s → StringsClear B m ap (items l) 0 →
        ∃ F, ∀ fuel ≥ F, S.vprintfmt fuel (formatBytes l) ap 0 0 s = some (S.puts out s)) ∧
      (∀ buf n : BitVec 32, buf ≠ 0 → 1 ≤ n.toInt → buf.toNat + n.toNat ≤ 2 ^ 32 →
        StringsClear (bufferBytes buf n) m ap (items l) 0 → out.length < 2 ^ 31 →
          ∃ m', (∃ F, ∀ fuel ≥ F, vsnprintf fuel m buf n (formatBytes l) ap = some ((out.length : Int), m')) ∧
            BytesAt m' buf.toNat (stored n out ++ [0]) ∧ ∀ x, x ∉ bufferBytes buf n → m' x = m x) ∧
      ∀ n n' : BitVec 32, stored n out <+: stored n' out ∨ stored n' out <+: stored n out := by
  obtain ⟨out, hemits⟩ := exists_emits (fun _ => True) (fun c k s _ hconv hs => converts_ends hconv hs) l
    (fun _ _ _ => trivial) 0 hv
  have hout := vprintfmt_rest ⟨[], rfl, rfl⟩ h0 hemits
  refine ⟨out, ?_, ?_, fun n n' => stored_comparable n n' out⟩
  · intro σ S B s hk hclear
    obtain ⟨F, hF⟩ := hout
    exact ⟨F, fun fuel hf => Sink.vprintfmt_run hk h0 hclear (hF fuel hf)⟩
  · intro buf n hbuf hn hfit hclear hlen
    exact vsnprintf_run h0 hout hbuf hn hfit hclear hlen

def collector : Sink (List Int) := ⟨fun c s => s ++ [c], fun _ _ => 0⟩

private theorem collector_puts (out s : List Int) : collector.puts out s = s ++ out := by
  induction out generalizing s with
  | nil => exact (List.append_nil s).symm
  | cons c out ih => exact (ih (s ++ [c])).trans (List.append_assoc s [c] out)

/-- The format `A`, in a buffer of 16 bytes. -/
theorem vsnprintf_sample : ∃ m', (∃ F, ∀ fuel ≥ F, vsnprintf fuel (fun _ => 0) 4096 16 (formatBytes [65])
      (fun _ => 0) = some (1, m')) ∧
    BytesAt m' 4096 [65, 0] ∧ ∀ x, x ∉ bufferBytes 4096 16 → m' x = 0 := by
  have hitems : items [65] = [.text 65] := by simp [items, PERCENT]
  obtain ⟨out, hsinks, hbuffer, -⟩ :=
    vsnprintf_spec (fun _ => 0) (fun _ => 0) [65] (by decide) (by rw [hitems]; trivial)
  have hclear : StringsClear (bufferBytes 4096 16) (fun _ => 0) (fun _ => 0) (items [65]) 0 := by
    rw [hitems]
    trivial
  -- the output is told from what the collector gets
  have hemits : Emits (fun _ => 0) (fun _ => 0) (items [65]) 0 [65] := by
    rw [hitems]
    exact .text (.done 0)
  have hkeeps : collector.Keeps ∅ (fun _ => 0) [] := fun _ _ _ => rfl
  have hnone : StringsClear ∅ (fun _ => 0) (fun _ => 0) (items [65]) 0 := by
    rw [hitems]
    trivial
  obtain ⟨F, hF⟩ := hsinks _ collector ∅ [] hkeeps hnone
  obtain ⟨G, hG⟩ := vprintfmt_rest ⟨[], rfl, rfl⟩ (by decide) hemits
  have hrun := Sink.vprintfmt_run hkeeps (by decide) hnone (hG (max F G) (le_max_right F G))
  rw [hF (max F G) (le_max_left F G), collector_puts, collector_puts] at hrun
  obtain rfl : out = [65] := Option.some.inj hrun
  exact hbuffer 4096 16 (by decide) (by decide) (by decide) hclear (by decide)

end DamnOS.Programs
