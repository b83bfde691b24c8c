import DamnOS.Kernel.Screen
import DamnOS.Programs.Readline

/-!
# What is typed is what is seen

The echo of `readline` on the screen of the kernel, where `cputchar` is `cons_putc`.
-/

namespace DamnOS.Kernel

open DamnOS.Framework
open DamnOS.Programs

/-- The cell of a character without an attribute. -/
def charCell (c : UInt8) : Nat := 0x0700 + c.toNat

/-- The echo of characters, on the screen. -/
def Display.cputchars (d : Display) (out : List Int) : Display := d.print (out.map fun c => BitVec.ofInt 32 c)

/-- The line stands on the page from `start` on and the cursor behind it, and none of it has left the screen. -/
structure Visible (start : Nat) (l : List UInt8) (p : TextPage Nat) : Prop where
  pos : p.pos = start + l.length
  cell : ∀ j (h : j < l.length), p.cell (start + j) = charCell (l.get ⟨j, h⟩)
  top : CRT_COLS * p.top ≤ start
  room : l.length < BUFLEN

section Echo

variable {start : Nat} {l : List UInt8} {p : TextPage Nat} {c : Int} {cs : List Int}

private theorem strokes_char : ∀ n < 256, 32 ≤ n → n ≠ 127 → strokes (BitVec.ofNat 32 n) = [.put (0x0700 + n)] := by
  decide +kernel

private theorem strokes_byte (h : 32 ≤ c) (hle : c ≤ 255) (hne : c ≠ 0x7f) :
    strokes (BitVec.ofInt 32 c) = [.put (charCell (UInt8.ofInt c))] := by
  rw [charCell, toNat_ofInt_byte (by omega) hle]
  obtain ⟨n, rfl⟩ := Int.eq_ofNat_of_zero_le (show 0 ≤ c by omega)
  exact strokes_char n (by omega) (by omega) (by omega)

private theorem strokes_back : strokes (BitVec.ofInt 32 8) = [.erase blankCell] := by decide

private theorem top_le {n top : Nat} (hn : n < BUFLEN) (htop : CRT_COLS * top ≤ start) :
    CRT_COLS * max top ((start + n) / CRT_COLS + 1 - CRT_ROWS) ≤ start := by
  simp only [BUFLEN] at hn
  simp only [CRT_COLS, CRT_ROWS] at htop ⊢
  omega

theorem Visible.step (h : Visible start l p) (hc : InLine c) :
    Visible start (edit l c) ((echoed l c).foldl (fun p c => typed p (BitVec.ofInt 32 c)) p) := by
  obtain ⟨hneg, hle, hnl, hcr⟩ := hc
  have hpos := h.pos
  have hroom := h.room
  rw [edit, echoed]
  by_cases hback : c = 8 ∨ c = 0x7f
  · rw [if_pos hback, if_pos hback]
    rcases List.eq_nil_or_concat l with rfl | ⟨front, last, rfl⟩
    · rw [if_pos rfl]
      exact h
    · rw [List.concat_eq_append] at *
      rw [if_neg (by simp), List.dropLast_concat]
      rw [List.length_append, List.length_singleton] at hpos hroom
      have htop := h.top
      have hstroke : typed p (BitVec.ofInt 32 8) = ({ p with
          cell := Function.update p.cell (p.pos - 1) blankCell
          pos := p.pos - 1 } : TextPage Nat).settle CRT_ROWS CRT_COLS := by
        rw [typed, strokes_back, List.foldl_cons, List.foldl_nil, stroked, TextPage.stroke, if_pos (by omega)]
      rw [List.foldl_cons, List.foldl_nil, hstroke]
      constructor
      · change p.pos - 1 = start + front.length
        omega
      · intro j hj
        change Function.update p.cell (p.pos - 1) blankCell (start + j) = _
        rw [Function.update_of_ne (by omega), h.cell j (by rw [List.length_append]; omega), List.get_eq_getElem,
          List.getElem_append_left hj]
        rfl
      · have hlast : p.pos - 1 = start + front.length := by omega
        change CRT_COLS * max p.top ((p.pos - 1) / CRT_COLS + 1 - CRT_ROWS) ≤ start
        rw [hlast]
        exact top_le (by omega) htop
      · omega
  · rw [if_neg hback, if_neg hback]
    by_cases hput : 32 ≤ c ∧ l.length < BUFLEN - 1
    · rw [if_pos hput, if_pos hput]
      have hstroke : typed p (BitVec.ofInt 32 c) = ({ p with
          cell := Function.update p.cell p.pos (charCell (UInt8.ofInt c))
          pos := p.pos + 1 } : TextPage Nat).settle CRT_ROWS CRT_COLS := by
        rw [typed, strokes_byte hput.1 hle (by omega), List.foldl_cons, List.foldl_nil, stroked, TextPage.stroke]
      have hlen : (l ++ [UInt8.ofInt c]).length = l.length + 1 := by rw [List.length_append, List.length_singleton]
      rw [List.foldl_cons, List.foldl_nil, hstroke]
      constructor
      · change p.pos + 1 = start + (l ++ [UInt8.ofInt c]).length
        omega
      · intro j hj
        change Function.update p.cell p.pos (charCell (UInt8.ofInt c)) (start + j) = _
        rw [List.get_eq_getElem]
        by_cases hlt : j < l.length
        · rw [Function.update_of_ne (by omega), h.cell j hlt, List.getElem_append_left hlt]
          rfl
        · have hlast : j = l.length := by omega
          subst hlast
          rw [← hpos, Function.update_self, List.getElem_concat_length rfl]
      · have hnext : p.pos + 1 = start + (l.length + 1) := by omega
        change CRT_COLS * max p.top ((p.pos + 1) / CRT_COLS + 1 - CRT_ROWS) ≤ start
        rw [hnext]
        exact top_le (by omega) h.top
      · omega
    · rw [if_neg hput, if_neg hput]
      exact h

theorem Visible.run (h : Visible start l p) (hcs : ∀ c ∈ cs, InLine c) :
    Visible start (cs.foldl edit l) ((echoes l cs).foldl (fun p c => typed p (BitVec.ofInt 32 c)) p) := by
  induction cs generalizing l p with
  | nil => exact h
  | cons c cs ih =>
    rw [echoes, List.foldl_append]
    exact ih (h.step (hcs c List.mem_cons_self)) fun x hx => hcs x (List.mem_cons_of_mem c hx)

end Echo

/-- While a line is typed in the kernel the screen shows just what `buf` holds, in the cells in front of the cursor, from
wherever the cursor has been. -/
theorem typed_line_visible (d : Display) (buf : Nat → UInt8) (cs : List Int) (hd : d.Ports)
    (hpos : d.crtPos < CRT_SIZE) (hcs : ∀ c ∈ cs, InLine c) : ∃ s, readline true cs ⟨buf, 0, []⟩ = .inl s ∧
      s.i ≤ (d.cputchars s.out).crtPos ∧ (d.cputchars s.out).crtPos < CRT_SIZE ∧
      ∀ j < s.i, (d.cputchars s.out).window.cell ((d.cputchars s.out).crtPos - s.i + j) = charCell (s.buf j) := by
  obtain ⟨s, hs, h⟩ := (collected_start buf true).run hcs []
  rw [List.append_nil] at hs
  have hout : s.out = echoes [] cs := h.out
  have hview := (showing_print hd (page_inView hpos) (s.out.map fun c => BitVec.ofInt 32 c)).view
  rw [List.foldl_map] at hview
  have hstart : Visible d.crtPos [] d.page := by
    refine ⟨rfl, ?_, Nat.zero_le _, by decide⟩
    intro j hj
    cases hj
  have hvisible := hstart.run hcs
  rw [← hout] at hvisible
  generalize s.out.foldl (fun p c => typed p (BitVec.ofInt 32 c)) d.page = p at hview hvisible
  have hplace := hview.pos
  have hend := hvisible.pos
  have htop := hvisible.top
  rw [hend, ← h.i] at hplace
  change d.crtPos + s.i = CRT_COLS * p.top + (d.cputchars s.out).crtPos at hplace
  refine ⟨s, hs, by omega, hview.inside, ?_⟩
  intro j hj
  have hin := hview.inside
  change (d.cputchars s.out).crtPos < CRT_ROWS * CRT_COLS at hin
  have hcell := hview.cell ((d.cputchars s.out).crtPos - s.i + j) (by omega)
  have hline := hvisible.cell j (by rw [← h.i]; exact hj)
  have hwhere : CRT_COLS * p.top + ((d.cputchars s.out).crtPos - s.i + j) = d.crtPos + j := by omega
  have hbyte := h.bytes j (by rw [← h.i]; exact hj)
  rw [Nat.zero_add] at hbyte
  rw [hwhere, hline, ← hbyte] at hcell
  exact hcell

/-- Two letters are typed and one is taken back. -/
theorem typed_line_visible_sample : ∃ s, readline true [97, 98, 8] ⟨fun _ => 0, 0, []⟩ = .inl s ∧
    s.i ≤ (Display.sample.cputchars s.out).crtPos ∧ (Display.sample.cputchars s.out).crtPos < CRT_SIZE ∧
    ∀ j < s.i, (Display.sample.cputchars s.out).window.cell ((Display.sample.cputchars s.out).crtPos - s.i + j) =
      charCell (s.buf j) :=
  typed_line_visible Display.sample (fun _ => 0) [97, 98, 8] (.inl ⟨rfl, rfl⟩) (by decide) (by decide)

end DamnOS.Kernel
