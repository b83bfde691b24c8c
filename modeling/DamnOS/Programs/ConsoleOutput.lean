import DamnOS.Programs.StringFields
import DamnOS.Programs.Vsnprintf
import DamnOS.Programs.Memmove

/-!
# Console output

The ways from a program to the screen: `devcons_write`, in pieces of 127 bytes, and `vcprintf`, in pieces of 255.
Either way a piece goes through `sys_cputs`, which prints it as a string.
-/

namespace DamnOS.Programs

open DamnOS.Framework

/-- `sys_cputs` of the kernel: `cprintf("%.*s", len, s)`, with what `cputchar` gets. -/
def sysCputs (fuel : Nat) (m : Nat → UInt8) (s len : BitVec 32) : Option (List Int) :=
  vprintfmt fuel (formatBytes [PERCENT, 46, 42, 115]) m (fun k => if k = 0 then len else s) 0 0

/-- The size of the buffer of `devcons_write`. -/
def CONSOLE_BUFFER : Nat := 128

/-- The loop of `devcons_write`, from `tot` on, with what `cputchar` gets and the value of `tot` in the end. -/
def devconsLoop (fuel : Nat) (vbuf n buf : BitVec 32) :
    Nat → BitVec 32 → (Nat → UInt8) → Option (List Int × BitVec 32)
  | 0, _, _ => none
  | k + 1, tot, m =>
    if tot.toNat < n.toNat then do
      let c := if CONSOLE_BUFFER - 1 < (n - tot).toNat then BitVec.ofNat 32 (CONSOLE_BUFFER - 1) else n - tot
      let m := memmoveAsm m buf (vbuf + tot) c
      let out ← sysCputs fuel m buf c
      (devconsLoop fuel vbuf n buf k (tot + c) m).map fun r => (out ++ r.1, r.2)
    else some ([], tot)

/-- `devcons_write`; its buffer is at `buf`. -/
def devconsWrite (fuel : Nat) (m : Nat → UInt8) (buf vbuf n : BitVec 32) : Option (List Int × BitVec 32) :=
  devconsLoop fuel vbuf n buf fuel 0 m

/-- `struct printbuf`, with the memory and what `cputchar` has got.  The characters are at `buf`. -/
structure Printbuf where
  idx : Nat
  cnt : BitVec 32
  mem : Nat → UInt8
  console : List Int

/-- The size of `buf` in `struct printbuf`. -/
def PRINT_BUFFER : Nat := 256

def userPutch (fuel : Nat) (buf : BitVec 32) (ch : Int) (b : Printbuf) : Option Printbuf := do
  let mem := Function.update b.mem (buf.toNat + b.idx) (UInt8.ofInt ch)
  if b.idx + 1 = PRINT_BUFFER - 1 then do
    let out ← sysCputs fuel mem buf (BitVec.ofNat 32 (b.idx + 1))
    some ⟨0, b.cnt + 1, mem, b.console ++ out⟩
  else some ⟨b.idx + 1, b.cnt + 1, mem, b.console⟩

/-- The sink of `vcprintf`; there is no state any more when a system call has not come to an end. -/
def userSink (fuel : Nat) (buf : BitVec 32) : Sink (Option Printbuf) where
  putch ch b := b.bind (userPutch fuel buf ch)
  mem b := b.elim (fun _ => 0) Printbuf.mem

/-- `vcprintf` of the programs, with what `cputchar` gets and the value it returns. -/
def vcprintf (fuel : Nat) (m : Nat → UInt8) (buf : BitVec 32) (fmt : Nat → Option UInt8) (ap : Nat → BitVec 32) :
    Option (List Int × BitVec 32) := do
  let b ← (← (userSink fuel buf).vprintfmt fuel fmt ap 0 0 (some ⟨0, 0, m, []⟩))
  let out ← sysCputs fuel b.mem buf (BitVec.ofNat 32 b.idx)
  some (b.console ++ out, b.cnt)

def untilZero (d : List UInt8) : List UInt8 := d.takeWhile (· ≠ 0)

/-- What is shown of bytes in pieces of `size`. -/
def pieceText (size : Nat) (d : List UInt8) : List UInt8 :=
  if 0 < size ∧ d ≠ [] then untilZero (d.take size) ++ pieceText size (d.drop size) else []
termination_by d.length
decreasing_by
  rw [List.length_drop]
  have hpos := List.length_pos_iff.mpr (And.right ‹_›)
  omega

section Pieces

variable {d e : List UInt8} {size : Nat}

private theorem untilZero_eq_iff : untilZero d = d ↔ (0 : UInt8) ∉ d := by
  rw [untilZero, List.takeWhile_eq_self_iff]
  simp only [decide_eq_true_eq]
  exact ⟨fun h hm => h 0 hm rfl, fun h c hc hzero => h (hzero ▸ hc)⟩

private theorem untilZero_length_le (d : List UInt8) : (untilZero d).length ≤ d.length :=
  (List.takeWhile_sublist _).length_le

private theorem pieceText_nil (size : Nat) : pieceText size [] = [] := by
  rw [pieceText, if_neg (fun h => h.2 rfl)]

private theorem pieceText_cut (hsize : 0 < size) (d : List UInt8) :
    pieceText size d = untilZero (d.take size) ++ pieceText size (d.drop size) := by
  by_cases hd : d = []
  · rw [hd, List.take_nil, List.drop_nil, pieceText_nil]
    rfl
  · rw [pieceText, if_pos ⟨hsize, hd⟩]

private theorem pieceText_short (hsize : 0 < size) (hd : d.length ≤ size) : pieceText size d = untilZero d := by
  rw [pieceText_cut hsize, List.take_of_length_le hd, List.drop_of_length_le hd, pieceText_nil, List.append_nil]

private theorem pieceText_length_le (size : Nat) (d : List UInt8) : (pieceText size d).length ≤ d.length := by
  fun_induction pieceText size d with
  | case1 d h ih =>
    have hle := untilZero_length_le (d.take size)
    rw [List.length_take] at hle
    rw [List.length_drop] at ih
    rw [List.length_append]
    omega
  | case2 d h => exact Nat.zero_le _

private theorem pieceText_eq_iff (hsize : 0 < size) (d : List UInt8) : pieceText size d = d ↔ (0 : UInt8) ∉ d := by
  fun_induction pieceText size d with
  | case1 d h ih =>
    have hsplit : d.take size ++ d.drop size = d := List.take_append_drop size d
    have hmem : (0 : UInt8) ∉ d ↔ (0 : UInt8) ∉ d.take size ∧ (0 : UInt8) ∉ d.drop size := by
      rw [← not_or, ← List.mem_append, hsplit]
    rw [hmem, ← untilZero_eq_iff, ← ih]
    constructor
    · intro heq
      have hfirst := untilZero_length_le (d.take size)
      have hrest := pieceText_length_le size (d.drop size)
      have hlen := congrArg List.length (heq.trans hsplit.symm)
      rw [List.length_append, List.length_append] at hlen
      exact List.append_inj (heq.trans hsplit.symm) (by omega)
    · rintro ⟨hfirst, hrest⟩
      rw [hfirst, hrest, hsplit]
  | case2 d h =>
    have hd : d = [] := by
      by_contra hne
      exact h ⟨hsize, hne⟩
    rw [hd]
    simp

private theorem pieceText_append (hsize : 0 < size) (hd : size ∣ d.length) (e : List UInt8) :
    pieceText size (d ++ e) = pieceText size d ++ pieceText size e := by
  fun_induction pieceText size d with
  | case1 d h ih =>
    have hle : size ≤ d.length := Nat.le_of_dvd (List.length_pos_iff.mpr h.2) hd
    have hdrop : size ∣ (d.drop size).length := by
      rw [List.length_drop]
      exact Nat.dvd_sub hd (dvd_refl size)
    rw [pieceText_cut hsize, List.take_append_of_le_length hle, List.drop_append_of_le_length hle, ih hdrop,
      List.append_assoc]
  | case2 d h =>
    have hnil : d = [] := by
      by_contra hne
      exact h ⟨hsize, hne⟩
    rw [hnil, List.nil_append, List.nil_append]

end Pieces

section Call

variable {m : Nat → UInt8} {d : List UInt8} {p fuel : Nat} {width s len : BitVec 32}

private theorem putString_bytes (h : BytesAt m p d) (hlen : d.length < 2 ^ 31) (hf : d.length < fuel) :
    putString m false fuel p (BitVec.ofNat 32 d.length) width =
      some ((untilZero d).map charInt, width - BitVec.ofNat 32 (untilZero d).length) := by
  induction d generalizing p width fuel with
  | nil =>
    obtain ⟨fuel, rfl⟩ := Nat.exists_eq_add_one_of_ne_zero (Nat.ne_of_gt hf)
    rw [putString, if_neg (fun hc => hc.2.elim (by decide) (by decide))]
    change some ([], width) = some ([], width - 0#32)
    rw [BitVec.sub_zero]
  | cons c d ih =>
    obtain ⟨fuel, rfl⟩ := Nat.exists_eq_add_one_of_ne_zero (Nat.ne_of_gt (Nat.zero_lt_of_lt hf))
    have hprecision := toInt_ofNat hlen
    have hpred : BitVec.ofNat 32 (c :: d).length - 1 = BitVec.ofNat 32 d.length := by
      rw [List.length_cons, BitVec.ofNat_add]
      exact BitVec.add_sub_cancel _ _
    rw [List.length_cons] at hlen hf
    have hleft := toInt_ofNat (n := d.length) (by omega)
    have hc : m p = c := h 0 (Nat.succ_pos _)
    have hrest : BytesAt m (p + 1) d := by
      intro i hi
      have hi' := h (i + 1) (Nat.succ_lt_succ hi)
      rwa [← Nat.add_assoc, Nat.add_right_comm] at hi'
    rw [putString, hc]
    by_cases hzero : c = 0
    · have hnone : untilZero (c :: d) = [] := List.takeWhile_cons_of_neg (by simp [hzero])
      rw [if_neg (fun hboth => hboth.1 hzero), hnone]
      change some ([], width) = some ([], width - 0#32)
      rw [BitVec.sub_zero]
    · have hcons : untilZero (c :: d) = c :: untilZero d := List.takeWhile_cons_of_pos (by simp [hzero])
      rw [if_pos ⟨hzero, Or.inr (by rw [hpred, hleft]; omega)⟩, if_neg (by rw [hprecision]; omega), hpred,
        ih hrest (by omega) (by omega), hcons, List.length_cons, BitVec.ofNat_add, BitVec.add_comm, ← BitVec.sub_sub]
      rfl

private theorem sysCputs_spec (h : BytesAt m s.toNat d) (hs : s ≠ 0) (hlen : d.length < 2 ^ 31)
    (hf : d.length + 5 < fuel) :
    sysCputs fuel m s (BitVec.ofNat 32 d.length) = some ((untilZero d).map charInt) := by
  obtain ⟨fuel, rfl⟩ := Nat.exists_eq_add_one_of_ne_zero (Nat.ne_of_gt (Nat.zero_lt_of_lt hf))
  have hround := @vprintfmt_conversion m (fun k => if k = 0 then BitVec.ofNat 32 d.length else s) [] [] [] .absent
    (.argument d.length) 0 fuel (by simp) trivial ⟨hlen, rfl⟩ hs
    (by change 4 < fuel; omega)
  have htext : convertString fuel m s.toNat (fieldEscape [] .absent (.argument d.length)) =
      some ((untilZero d).map charInt) := by
    have hle := untilZero_length_le d
    have hzero : (0 : BitVec 32).toInt = 0 := rfl
    have hwidth := @toInt_sub_ofNat (untilZero d).length 0 (by omega)
    rw [hzero, if_pos (by omega)] at hwidth
    have hout : (0 - BitVec.ofNat 32 (untilZero d).length).toInt.toNat = 0 := by omega
    have hput : putString m (fieldEscape [] .absent (.argument d.length)).altflag fuel s.toNat
        (fieldEscape [] .absent (.argument d.length)).precision (fieldEscape [] .absent (.argument d.length)).width =
          some ((untilZero d).map charInt, 0 - BitVec.ofNat 32 (untilZero d).length) :=
      putString_bytes h hlen (by omega)
    have hpads : ¬(0 < (fieldEscape [] .absent (.argument d.length)).width.toInt ∧
        (fieldEscape [] .absent (.argument d.length)).padc ≠ 45) := fun hboth => absurd hboth.1 (by
      change ¬(0 : Int) < (0 : BitVec 32).toInt
      decide)
    rw [convertString, if_neg hpads]
    dsimp only [Option.bind_eq_bind, Option.bind_some]
    rw [hput]
    dsimp only [Option.bind_some]
    rw [hout, List.nil_append, List.replicate_zero, List.append_nil]
  refine hround.trans ?_
  change (convertString fuel m s.toNat _).bind _ = _
  rw [htext]
  change (vprintfmt fuel _ _ _ _ _).map _ = _
  rw [prints_nothing _ _ _ _ _ _ (by omega), Option.map_some, List.append_nil]

end Call

section Devcons

variable {m : Nat → UInt8} {d : List UInt8} {k fuel : Nat} {buf vbuf n tot : BitVec 32}

/-- The data of a call lies in the address space, beside the buffer of `devcons_write`. -/
structure Beside (buf vbuf n : BitVec 32) : Prop where
  null : buf ≠ 0
  buffer : buf.toNat + CONSOLE_BUFFER ≤ 2 ^ 32
  data : vbuf.toNat + n.toNat ≤ 2 ^ 32
  apart : buf.toNat + CONSOLE_BUFFER ≤ vbuf.toNat ∨ vbuf.toNat + n.toNat ≤ buf.toNat

private theorem round_count (htot : tot.toNat < n.toNat) :
    (if CONSOLE_BUFFER - 1 < (n - tot).toNat then BitVec.ofNat 32 (CONSOLE_BUFFER - 1) else n - tot).toNat =
      min (CONSOLE_BUFFER - 1) (n.toNat - tot.toNat) := by
  have hsub : (n - tot).toNat = n.toNat - tot.toNat := by
    rw [BitVec.toNat_sub]
    have hn := n.isLt
    omega
  split
  · next h =>
    rw [hsub] at h
    rw [Nat.min_eq_left h.le]
    rfl
  · next h =>
    rw [hsub] at h
    rw [hsub, Nat.min_eq_right (not_lt.mp h)]

private theorem devconsLoop_spec (hb : Beside buf vbuf n) (h : BytesAt m vbuf.toNat d) (hn : d.length = n.toNat)
    (htot : tot.toNat ≤ n.toNat) (hk : n.toNat - tot.toNat < k) (hf : CONSOLE_BUFFER + 5 < fuel) :
    devconsLoop fuel vbuf n buf k tot m =
      some ((pieceText (CONSOLE_BUFFER - 1) (d.drop tot.toNat)).map charInt, n) := by
  induction k generalizing tot m with
  | zero => omega
  | succ k ih =>
    rw [devconsLoop]
    by_cases hlt : tot.toNat < n.toNat
    · have hcount := round_count hlt
      have hspace := hb.buffer
      have hdata := hb.data
      have hapart := hb.apart
      have hlarge := n.isLt
      rw [if_pos hlt]
      generalize (if CONSOLE_BUFFER - 1 < (n - tot).toNat then BitVec.ofNat 32 (CONSOLE_BUFFER - 1) else n - tot) = c
        at hcount ⊢
      have hplace : (vbuf + tot).toNat = vbuf.toNat + tot.toNat := by
        rw [BitVec.toNat_add, Nat.mod_eq_of_lt (by omega)]
      have hnext : (tot + c).toNat = tot.toNat + c.toNat := by
        rw [BitVec.toNat_add, Nat.mod_eq_of_lt (by omega)]
      have hle : c.toNat ≤ CONSOLE_BUFFER - 1 := hcount ▸ Nat.min_le_left _ _
      have hpos : 0 < c.toNat := by
        rw [hcount, Nat.lt_min]
        exact ⟨by decide, by omega⟩
      have hmove : memmoveAsm m buf (vbuf + tot) c = moved m buf.toNat (vbuf.toNat + tot.toNat) c.toNat := by
        rw [memmoveAsm_eq (by omega) (by omega), hplace]
      have hpiece : ((d.drop tot.toNat).take (CONSOLE_BUFFER - 1)).length = c.toNat := by
        rw [List.length_take, List.length_drop, hn, hcount]
      have hc : c = BitVec.ofNat 32 ((d.drop tot.toNat).take (CONSOLE_BUFFER - 1)).length := by
        rw [hpiece, BitVec.ofNat_toNat, BitVec.setWidth_eq]
      have hcopy : BytesAt (moved m buf.toNat (vbuf.toNat + tot.toNat) c.toNat) buf.toNat
          ((d.drop tot.toNat).take (CONSOLE_BUFFER - 1)) := by
        intro i hi
        have hi' := h (tot.toNat + i) (by rw [hn]; omega)
        rw [moved_get m _ _ (hpiece ▸ hi), Nat.add_assoc, hi']
        simp
      have hkept : BytesAt (moved m buf.toNat (vbuf.toNat + tot.toNat) c.toNat) vbuf.toNat d := by
        apply h.congr
        intro x hx hx'
        exact moved_outside m _ (by omega)
      dsimp only
      rw [hmove]
      have hcall := @sysCputs_spec _ _ fuel _ hcopy hb.null (by rw [hpiece]; exact hle.trans_lt (by decide)) (by omega)
      rw [← hc] at hcall
      rw [hcall]
      dsimp only [Option.bind_eq_bind, Option.bind_some]
      have hdrop : (d.drop tot.toNat).drop (CONSOLE_BUFFER - 1) = d.drop (tot + c).toNat := by
        rw [List.drop_drop, hnext, hcount]
        rcases Nat.le_total (CONSOLE_BUFFER - 1) (n.toNat - tot.toNat) with hfull | hshort
        · rw [Nat.min_eq_left hfull]
        · rw [List.drop_of_length_le (by omega), List.drop_of_length_le (by omega)]
      rw [ih hkept (by omega) (by omega), Option.map_some, pieceText_cut (by decide) (d.drop tot.toNat), hdrop,
        List.map_append]
    · have heq : tot = n := BitVec.eq_of_toNat_eq (by omega)
      rw [if_neg hlt, heq, List.drop_of_length_le (by omega), pieceText_nil]
      rfl

private theorem devconsWrite_spec (hb : Beside buf vbuf n) (h : BytesAt m vbuf.toNat d) (hn : d.length = n.toNat) :
    ∃ F, ∀ fuel ≥ F, devconsWrite fuel m buf vbuf n =
      some ((pieceText (CONSOLE_BUFFER - 1) d).map charInt, n) := by
  refine ⟨n.toNat + CONSOLE_BUFFER + 6, fun fuel hf => ?_⟩
  exact @devconsLoop_spec m d fuel fuel buf vbuf n 0 hb h hn (Nat.zero_le _) (by change n.toNat - 0 < fuel; omega) (by omega)

end Devcons

section Printing

variable {m : Nat → UInt8} {l d e : List UInt8} {ap : Nat → BitVec 32} {out : List Int} {b : Printbuf}
  {buf : BitVec 32} {fuel : Nat}

/-- Of what was put in, `d` has been printed in full pieces and `e` is in the buffer. -/
structure Buffered (buf : BitVec 32) (m : Nat → UInt8) (out : List Int) (d e : List UInt8) (b : Printbuf) : Prop where
  text : out.map UInt8.ofInt = d ++ e
  full : PRINT_BUFFER - 1 ∣ d.length
  idx : b.idx = e.length
  room : e.length < PRINT_BUFFER - 1
  cnt : b.cnt = BitVec.ofNat 32 out.length
  bytes : BytesAt b.mem buf.toNat e
  console : b.console = (pieceText (PRINT_BUFFER - 1) d).map charInt
  frame : ∀ x, x ∉ bufferBytes buf 256 → b.mem x = m x

private theorem buffered_start (buf : BitVec 32) (m : Nat → UInt8) : Buffered buf m [] [] [] ⟨0, 0, m, []⟩ := by
  refine ⟨rfl, Nat.dvd_zero _, rfl, by decide, rfl, ?_, by rw [pieceText_nil]; rfl, fun _ _ => rfl⟩
  intro i hi
  cases hi

/-- A character is put in the buffer, and a full buffer is printed. -/
theorem Buffered.put (h : Buffered buf m out d e b) (hbuf : buf ≠ 0) (hf : PRINT_BUFFER + 5 < fuel) (c : Int) :
    ∃ d' e' b', userPutch fuel buf c b = some b' ∧ Buffered buf m (out ++ [c]) d' e' b' := by
  have hroom := h.room
  have hbytes := bytesAt_append_singleton (x := UInt8.ofInt c) h.bytes
  have hlen : (e ++ [UInt8.ofInt c]).length = e.length + 1 := by rw [List.length_append, List.length_singleton]
  have hcnt : b.cnt + 1 = BitVec.ofNat 32 (out ++ [c]).length := by
    rw [h.cnt, List.length_append, List.length_singleton, BitVec.ofNat_add]
    rfl
  have htext : (out ++ [c]).map UInt8.ofInt = d ++ (e ++ [UInt8.ofInt c]) := by
    rw [List.map_append, h.text, List.append_assoc]
    rfl
  have hframe : ∀ x, x ∉ bufferBytes buf 256 →
      Function.update b.mem (buf.toNat + e.length) (UInt8.ofInt c) x = m x := by
    intro x hx
    have hne : x ≠ buf.toNat + e.length := by
      rintro rfl
      apply hx
      change buf.toNat ≤ buf.toNat + e.length ∧ buf.toNat + e.length < buf.toNat + PRINT_BUFFER
      omega
    rw [Function.update_of_ne hne]
    exact h.frame x hx
  rw [userPutch, h.idx]
  by_cases hfull : e.length + 1 = PRINT_BUFFER - 1
  · have hsize : (e ++ [UInt8.ofInt c]).length = PRINT_BUFFER - 1 := hlen.trans hfull
    have hcall := @sysCputs_spec _ _ fuel _ hbytes hbuf (by rw [hsize]; decide) (by omega)
    rw [hlen] at hcall
    refine ⟨d ++ (e ++ [UInt8.ofInt c]), [], _, by rw [if_pos hfull, hcall]; rfl, ?_⟩
    refine ⟨by rw [htext, List.append_nil], ?_, rfl, by decide, hcnt, ?_, ?_, hframe⟩
    · rw [List.length_append, hsize]
      exact Nat.dvd_add h.full (dvd_refl _)
    · intro i hi
      cases hi
    · change b.console ++ _ = _
      rw [h.console, pieceText_append (by decide) h.full, pieceText_short (by decide) hsize.le, List.map_append]
  · refine ⟨d, e ++ [UInt8.ofInt c], _, by rw [if_neg hfull], ?_⟩
    exact ⟨htext, h.full, hlen.symm, by omega, hcnt, hbytes, h.console, hframe⟩

private theorem buffered_puts (hbuf : buf ≠ 0) (hf : PRINT_BUFFER + 5 < fuel) (m : Nat → UInt8) (out : List Int) :
    ∃ d e b, (userSink fuel buf).puts out (some ⟨0, 0, m, []⟩) = some b ∧ Buffered buf m out d e b := by
  induction out using List.reverseRecOn with
  | nil => exact ⟨[], [], _, rfl, buffered_start buf m⟩
  | append_singleton out c ih =>
    obtain ⟨d, e, b, hb, h⟩ := ih
    obtain ⟨d', e', b', hput, h'⟩ := h.put hbuf hf c
    refine ⟨d', e', b', ?_, h'⟩
    rw [Sink.puts_append, hb]
    exact hput

private theorem userSink_keeps (hbuf : buf ≠ 0) (hf : PRINT_BUFFER + 5 < fuel) (m : Nat → UInt8) :
    (userSink fuel buf).Keeps (bufferBytes buf 256) m (some ⟨0, 0, m, []⟩) := by
  intro out x hx
  obtain ⟨d, e, b, hb, h⟩ := buffered_puts hbuf hf m out
  rw [hb]
  exact h.frame x hx

private theorem vcprintf_spec (hbuf : buf ≠ 0) (h0 : (0 : UInt8) ∉ l)
    (hv : StringsClear (bufferBytes buf 256) m ap (items l) 0)
    (hout : ∃ F, ∀ fuel ≥ F, vprintfmt fuel (formatBytes l) m ap 0 0 = some out) :
    ∃ F, ∀ fuel ≥ F, vcprintf fuel m buf (formatBytes l) ap =
      some ((pieceText (PRINT_BUFFER - 1) (out.map UInt8.ofInt)).map charInt, BitVec.ofNat 32 out.length) := by
  obtain ⟨F, hF⟩ := hout
  refine ⟨F + PRINT_BUFFER + 6, fun fuel hf => ?_⟩
  obtain ⟨d, e, b, hb, h⟩ := @buffered_puts buf fuel hbuf (by omega) m out
  have hroom := h.room
  have hrun := Sink.vprintfmt_run (@userSink_keeps buf fuel hbuf (by omega) m) h0 hv (hF fuel (by omega))
  have hcall := @sysCputs_spec _ _ fuel _ h.bytes hbuf (by unfold PRINT_BUFFER at hroom; omega) (by omega)
  rw [vcprintf, hrun, hb]
  dsimp only [Option.bind_eq_bind, Option.bind_some]
  rw [h.idx, hcall, h.cnt, h.console, h.text, pieceText_append (by decide) h.full, pieceText_short (by decide) hroom.le,
    List.map_append]
  rfl

end Printing

def Shows (run : Nat → Option (List Int × BitVec 32)) (d : List UInt8) : Prop :=
  ∃ F, ∀ fuel ≥ F, ∃ r, run fuel = some r ∧ r.1.map UInt8.ofInt = d

section Both

variable {run : Nat → Option (List Int × BitVec 32)} {d : List UInt8} {size : Nat} {r : BitVec 32}

private theorem ofInt_charInt : ∀ c : UInt8, UInt8.ofInt (charInt c) = c := by decide +kernel

private theorem shows_iff (hsize : 0 < size)
    (hrun : ∃ F, ∀ fuel ≥ F, run fuel = some ((pieceText size d).map charInt, r)) :
    Shows run d ↔ (0 : UInt8) ∉ d := by
  have hbytes : ((pieceText size d).map charInt).map UInt8.ofInt = pieceText size d := by
    rw [List.map_map]
    exact (List.map_congr_left fun c _ => ofInt_charInt c).trans (List.map_id _)
  obtain ⟨F, hF⟩ := hrun
  rw [← pieceText_eq_iff hsize]
  constructor
  · rintro ⟨G, hG⟩
    obtain ⟨x, hx, hd⟩ := hG (max F G) (le_max_right F G)
    rw [hF _ (le_max_left F G)] at hx
    cases hx
    exact hbytes.symm.trans hd
  · intro heq
    exact ⟨F, fun fuel hf => ⟨_, hF fuel hf, hbytes.trans heq⟩⟩

private theorem devconsWrite_shows {m : Nat → UInt8} {buf vbuf n : BitVec 32} (hb : Beside buf vbuf n)
    (h : BytesAt m vbuf.toNat d) (hn : d.length = n.toNat) :
    Shows (fun fuel => devconsWrite fuel m buf vbuf n) d ↔ (0 : UInt8) ∉ d :=
  shows_iff (by decide) (devconsWrite_spec hb h hn)

end Both

/-- Data reaches the screen as it is exactly if it has no zero byte, both through a console descriptor and as the
output of `vcprintf`. -/
theorem console_shows_iff (m : Nat → UInt8) (buf : BitVec 32) :
    (∀ (vbuf n : BitVec 32) (d : List UInt8), Beside buf vbuf n → BytesAt m vbuf.toNat d →
      d.length = n.toNat → (Shows (fun fuel => devconsWrite fuel m buf vbuf n) d ↔ (0 : UInt8) ∉ d)) ∧
    ∀ (l : List UInt8) (ap : Nat → BitVec 32) (out : List Int), buf ≠ 0 →
      (0 : UInt8) ∉ l → StringsClear (bufferBytes buf 256) m ap (items l) 0 →
      (∃ F, ∀ fuel ≥ F, vprintfmt fuel (formatBytes l) m ap 0 0 = some out) →
        (Shows (fun fuel => vcprintf fuel m buf (formatBytes l) ap) (out.map UInt8.ofInt) ↔
          (0 : UInt8) ∉ out.map UInt8.ofInt) :=
  ⟨fun _ _ _ hb h hn => devconsWrite_shows hb h hn,
    fun _ _ _ hbuf h0 hv hout => shows_iff (by decide) (vcprintf_spec hbuf h0 hv hout)⟩

private theorem beside_two : Beside 4096 1 2 := ⟨by decide, by decide, by decide, by decide⟩

private theorem bytesAt_two (x : UInt8) : BytesAt (memoryOf [0, x, 66]) (1 : BitVec 32).toNat [x, 66] := by
  intro i hi
  rcases i with _ | _ | i
  · rfl
  · rfl
  · exact absurd hi (by simp)

/-- Two letters through a console descriptor, and one printed by a program. -/
theorem console_shows_sample :
    Shows (fun fuel => devconsWrite fuel (memoryOf [0, 65, 66]) 4096 1 2) [65, 66] ∧
      Shows (fun fuel => vcprintf fuel (fun _ => 0) 4096 (formatBytes [65]) fun _ => 0) [65] := by
  have hitems : items [65] = [.text 65] := by simp [items, PERCENT]
  have hemits : Emits (fun _ => 0) (fun _ => 0) (items [65]) 0 [65] := by
    rw [hitems]
    exact .text (.done 0)
  constructor
  · exact ((console_shows_iff (memoryOf [0, 65, 66]) 4096).1 1 2 [65, 66] beside_two (bytesAt_two 65) rfl).mpr
      (by decide)
  · exact ((console_shows_iff (fun _ => 0) 4096).2 [65] (fun _ => 0) [65] (by decide) (by decide)
      (by rw [hitems]; trivial) (vprintfmt_rest ⟨[], rfl, rfl⟩ (by decide) hemits)).mpr (by decide)

/-- A zero byte in front of a letter hides both. -/
theorem console_hides : ¬ ∀ (m : Nat → UInt8) (buf vbuf n : BitVec 32) (d : List UInt8), Beside buf vbuf n →
    BytesAt m vbuf.toNat d → d.length = n.toNat → Shows (fun fuel => devconsWrite fuel m buf vbuf n) d := by
  intro hall
  have hshows := hall (memoryOf [0, 0, 66]) 4096 1 2 [0, 66] beside_two (bytesAt_two 0) rfl
  exact absurd ((devconsWrite_shows beside_two (bytesAt_two 0) rfl).mp hshows) (by decide)

end DamnOS.Programs
