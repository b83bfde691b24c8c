import DamnOS.Framework.Windows
import DamnOS.Kernel.Words
import DamnOS.Programs.Memmove

/-!
# The screen

The output side of `console.c`.  The display controller has registers behind an index, and the serial port sends what
it gets; waiting for it changes nothing.
-/

namespace DamnOS.Kernel

open DamnOS.Framework

def MONO_BASE : Nat := 0x3B4
def MONO_BUF : Nat := 0xB0000
def CGA_BASE : Nat := 0x3D4
def CGA_BUF : Nat := 0xB8000
def CRT_ROWS : Nat := 25
def CRT_COLS : Nat := 80
def CRT_SIZE : Nat := CRT_ROWS * CRT_COLS
def COM1 : Nat := 0x3F8
def COM_TX : Nat := 0

def blankCell : Nat := 0x0720

/-- The memory and the variables of the screen, the display controller, and what the serial port has sent. -/
structure Display where
  mem : Nat → UInt8
  addr6845 : Nat
  crtBuf : Nat
  crtPos : Nat
  index : UInt8
  register : UInt8 → UInt8
  sent : List UInt8

namespace Display

def outb (s : Display) (port : Nat) (v : UInt8) : Display :=
  if port = s.addr6845 then { s with index := v }
  else if port = s.addr6845 + 1 then { s with register := Function.update s.register s.index v }
  else if port = COM1 + COM_TX then { s with sent := s.sent ++ [v] }
  else s

def lowByte (c : BitVec 32) : UInt8 := UInt8.ofNat c.toNat

def serialPutc (s : Display) (c : BitVec 32) : Display :=
  if c = 8 then ((s.outb (COM1 + COM_TX) 8).outb (COM1 + COM_TX) 32).outb (COM1 + COM_TX) 8
  else s.outb (COM1 + COM_TX) (lowByte c)

/-- `cga_init`.  What it writes to find out if there is a colour screen is either not kept or put back. -/
def cgaInit (s : Display) (colour : Bool) : Display :=
  let s := if colour then { s with crtBuf := KERNBASE + CGA_BUF, addr6845 := CGA_BASE }
    else { s with crtBuf := KERNBASE + MONO_BUF, addr6845 := MONO_BASE }
  let s := s.outb s.addr6845 14
  let high := s.register s.index
  let s := s.outb s.addr6845 15
  { s with crtPos := high.toNat <<< 8 ||| (s.register s.index).toNat }

def setCell (mem : Nat → UInt8) (crtBuf i : Nat) (v : BitVec 32) : Nat → UInt8 :=
  splice mem (crtBuf + 2 * i) 2 (leByte v.toNat)

def clearCells (mem : Nat → UInt8) (crtBuf i n : Nat) : Nat → UInt8 :=
  (List.range n).foldl (fun mem k => setCell mem crtBuf (i + k) 0x0720) mem

/-- `c |= 0x0700`, if no attribute is given. -/
def withAttribute (c : BitVec 32) : BitVec 32 := if c &&& ~~~0xFF = 0 then c ||| 0x0700 else c

/-- The lines move up by one if `crt_pos` is behind the last of them. -/
def scrollUp (s : Display) : Display :=
  if CRT_SIZE ≤ s.crtPos then
    let mem := Programs.memmoveAsm s.mem (BitVec.ofNat 32 s.crtBuf) (BitVec.ofNat 32 (s.crtBuf + 2 * CRT_COLS))
      (BitVec.ofNat 32 (2 * (CRT_SIZE - CRT_COLS)))
    { s with
      mem := clearCells mem s.crtBuf (CRT_SIZE - CRT_COLS) CRT_COLS
      crtPos := s.crtPos - CRT_COLS }
  else s

def moveCursor (s : Display) : Display :=
  (((s.outb s.addr6845 14).outb (s.addr6845 + 1) (UInt8.ofNat (s.crtPos >>> 8))).outb s.addr6845 15).outb
    (s.addr6845 + 1) (UInt8.ofNat s.crtPos)

/-- The `switch` of `cga_putc`, where `tab` is what it does in the case of a tab. -/
def putCell (tab : Display → Display) (s : Display) (c : BitVec 32) : Display :=
  if c &&& 0xFF = 8 then
    if 0 < s.crtPos then
      { s with mem := setCell s.mem s.crtBuf (s.crtPos - 1) (c &&& ~~~0xFF ||| 32), crtPos := s.crtPos - 1 }
    else s
  else if c &&& 0xFF = 10 then
    let pos := (s.crtPos + CRT_COLS) % 65536
    { s with crtPos := pos - pos % CRT_COLS }
  else if c &&& 0xFF = 13 then { s with crtPos := s.crtPos - s.crtPos % CRT_COLS }
  else if c &&& 0xFF = 9 then tab s
  else { s with mem := setCell s.mem s.crtBuf s.crtPos c, crtPos := (s.crtPos + 1) % 65536 }

def cgaPutcBy (tab : Display → Display) (s : Display) (c : BitVec 32) : Display :=
  (putCell tab s (withAttribute c)).scrollUp.moveCursor

/-- `cons_putc(' ')`, which does not come to the case of a tab. -/
def consPutSpace (s : Display) : Display := cgaPutcBy id (s.serialPutc 32) 32

def cgaPutc (s : Display) (c : BitVec 32) : Display :=
  cgaPutcBy (fun s => s.consPutSpace.consPutSpace.consPutSpace.consPutSpace) s c

def consPutc (s : Display) (c : BitVec 32) : Display := (s.serialPutc c).cgaPutc c

def print (s : Display) (cs : List (BitVec 32)) : Display := cs.foldl consPutc s

def window (s : Display) : TextWindow Nat := ⟨fun i => u16 s.mem (s.crtBuf + 2 * i), s.crtPos⟩

def Ports (s : Display) : Prop :=
  s.addr6845 = CGA_BASE ∧ s.crtBuf = KERNBASE + CGA_BUF ∨ s.addr6845 = MONO_BASE ∧ s.crtBuf = KERNBASE + MONO_BUF

def cursor (s : Display) : Nat := 256 * (s.register 14).toNat + (s.register 15).toNat

end Display

def strokes (c : BitVec 32) : List (Stroke Nat) :=
  let c := Display.withAttribute c
  if c &&& 0xFF = 8 then [.erase ((c &&& ~~~0xFF ||| 32).toNat % 65536)]
  else if c &&& 0xFF = 10 then [.feed]
  else if c &&& 0xFF = 13 then [.home]
  else if c &&& 0xFF = 9 then List.replicate 4 (.put blankCell)
  else [.put (c.toNat % 65536)]

def serialBytes (c : BitVec 32) : List UInt8 :=
  if c = 8 then [8, 32, 8]
  else if Display.withAttribute c &&& 0xFF = 9 then Display.lowByte c :: List.replicate 4 32
  else [Display.lowByte c]

/-- A stroke on a page that is shown on the screen. -/
def stroked (p : TextPage Nat) (k : Stroke Nat) : TextPage Nat := (p.stroke CRT_COLS k).settle CRT_ROWS CRT_COLS

def typed (p : TextPage Nat) (c : BitVec 32) : TextPage Nat := (strokes c).foldl stroked p

/-- The screen as the beginning of a page. -/
def Display.page (s : Display) : TextPage Nat :=
  ⟨fun i => if i < CRT_SIZE then s.window.cell i else blankCell, s.crtPos, 0⟩

/-- The display `t` comes from `s`, and shows the page.  No other memory than that of the screen is different. -/
structure Showing (s t : Display) (p : TextPage Nat) (out : List UInt8) : Prop where
  view : InView CRT_ROWS CRT_COLS blankCell t.window p
  addr6845 : t.addr6845 = s.addr6845
  crtBuf : t.crtBuf = s.crtBuf
  mem : ∀ x, x < s.crtBuf ∨ s.crtBuf + 2 * CRT_SIZE ≤ x → t.mem x = s.mem x
  sent : t.sent = s.sent ++ out

section Cells

variable {mem : Nat → UInt8} {b i j n x : Nat} {v : BitVec 32}

open Display

private theorem u16_setCell (mem : Nat → UInt8) (b i : Nat) (v : BitVec 32) (j : Nat) :
    u16 (setCell mem b i v) (b + 2 * j) = if j = i then v.toNat % 65536 else u16 mem (b + 2 * j) := by
  by_cases hj : j = i
  · rw [if_pos hj, hj]
    exact u16_splice_same mem _ _
  · rw [if_neg hj]
    exact u16_splice_disjoint mem _ (by omega)

private theorem setCell_outside (mem : Nat → UInt8) (v : BitVec 32) (hi : i < n) (hx : x < b ∨ b + 2 * n ≤ x) :
    setCell mem b i v x = mem x :=
  splice_outside mem _ (by omega)

private theorem u16_clearCells (mem : Nat → UInt8) (b i n j : Nat) :
    u16 (clearCells mem b i n) (b + 2 * j) =
      if i ≤ j ∧ j < i + n then blankCell else u16 mem (b + 2 * j) := by
  induction n with
  | zero =>
    rw [if_neg (by omega)]
    rfl
  | succ n ih =>
    rw [clearCells, List.range_succ, List.foldl_append]
    change u16 (setCell (clearCells mem b i n) b (i + n) 0x0720) (b + 2 * j) = _
    rw [u16_setCell, ih]
    by_cases hj : j = i + n
    · rw [if_pos hj, if_pos (by omega)]
      rfl
    · rw [if_neg hj]
      exact if_congr (by omega) rfl rfl

private theorem clearCells_outside (mem : Nat → UInt8) {k : Nat} (hi : i + n ≤ k) (hx : x < b ∨ b + 2 * k ≤ x) :
    clearCells mem b i n x = mem x := by
  induction n with
  | zero => rfl
  | succ n ih =>
    rw [clearCells, List.range_succ, List.foldl_append]
    change setCell (clearCells mem b i n) b (i + n) 0x0720 x = _
    rw [setCell_outside _ _ (show i + n < k by omega) hx]
    exact ih (by omega)

end Cells

section Character

variable {s t u : Display} {p q : TextPage Nat} {k : Stroke Nat} {c : BitVec 32} {out out' : List UInt8}

open Display

theorem Display.Ports.room (h : s.Ports) : s.crtBuf + 2 * CRT_SIZE ≤ 2 ^ 32 := by
  rcases h with ⟨-, h⟩ | ⟨-, h⟩
  · rw [h]
    decide
  · rw [h]
    decide

private theorem Display.Ports.serialPutc (h : s.Ports) (c : BitVec 32) :
    s.serialPutc c = { s with sent := s.sent ++ if c = 8 then [8, 32, 8] else [lowByte c] } := by
  have hout (t : Display) (ht : t.addr6845 = s.addr6845) (v : UInt8) :
      t.outb (COM1 + COM_TX) v = { t with sent := t.sent ++ [v] } := by
    have haddr : COM1 + COM_TX ≠ s.addr6845 ∧ COM1 + COM_TX ≠ s.addr6845 + 1 := by
      rcases h with ⟨h, -⟩ | ⟨h, -⟩
      · rw [h]
        decide
      · rw [h]
        decide
    rw [outb, ht, if_neg haddr.1, if_neg haddr.2, if_pos rfl]
  rw [Display.serialPutc]
  by_cases hc : c = 8
  · rw [if_pos hc, if_pos hc]
    simp [hout]
  · rw [if_neg hc, if_neg hc]
    exact hout s rfl _

private theorem moveCursor_eq (s : Display) : s.moveCursor = { s with
    index := 15
    register := Function.update (Function.update s.register 14 (UInt8.ofNat (s.crtPos >>> 8))) 15
      (UInt8.ofNat s.crtPos) } := by
  simp [moveCursor, outb]

private theorem scrollUp_window (h : s.crtBuf + 2 * CRT_SIZE ≤ 2 ^ 32) :
    s.scrollUp.window.pos = (s.window.scroll CRT_ROWS CRT_COLS blankCell).pos ∧
      (∀ i < CRT_SIZE, s.scrollUp.window.cell i = (s.window.scroll CRT_ROWS CRT_COLS blankCell).cell i) ∧
      ∀ x, x < s.crtBuf ∨ s.crtBuf + 2 * CRT_SIZE ≤ x → s.scrollUp.mem x = s.mem x := by
  have hsize : CRT_SIZE = CRT_ROWS * CRT_COLS := rfl
  by_cases hpos : CRT_SIZE ≤ s.crtPos
  · have hsrc : (BitVec.ofNat 32 (s.crtBuf + 2 * CRT_COLS)).toNat = s.crtBuf + 2 * CRT_COLS := by
      rw [BitVec.toNat_ofNat]
      simp only [CRT_SIZE, CRT_ROWS, CRT_COLS] at h ⊢
      omega
    have hdst : (BitVec.ofNat 32 s.crtBuf).toNat = s.crtBuf := by
      rw [BitVec.toNat_ofNat]
      simp only [CRT_SIZE, CRT_ROWS, CRT_COLS] at h
      omega
    have hn : (BitVec.ofNat 32 (2 * (CRT_SIZE - CRT_COLS))).toNat = 2 * (CRT_SIZE - CRT_COLS) := by decide
    have hmove := @Programs.memmoveAsm_eq (BitVec.ofNat 32 s.crtBuf) (BitVec.ofNat 32 (s.crtBuf + 2 * CRT_COLS))
      (BitVec.ofNat 32 (2 * (CRT_SIZE - CRT_COLS))) s.mem
      (by rw [hsrc, hn]; simp only [CRT_SIZE, CRT_ROWS, CRT_COLS] at h ⊢; omega)
      (by rw [hdst, hn]; simp only [CRT_SIZE, CRT_ROWS, CRT_COLS] at h ⊢; omega)
    rw [hsrc, hdst, hn] at hmove
    rw [scrollUp, if_pos hpos, TextWindow.scroll, if_pos (show CRT_ROWS * CRT_COLS ≤ s.window.pos from hpos)]
    refine ⟨rfl, ?_, ?_⟩
    · intro i hi
      change u16 (clearCells _ s.crtBuf (CRT_SIZE - CRT_COLS) CRT_COLS) (s.crtBuf + 2 * i) =
        if i + CRT_COLS < CRT_ROWS * CRT_COLS then u16 s.mem (s.crtBuf + 2 * (i + CRT_COLS)) else blankCell
      rw [u16_clearCells, hmove, ← hsize]
      by_cases hin : i + CRT_COLS < CRT_SIZE
      · have hget (e : Nat) (he : e < 2) : moved s.mem s.crtBuf (s.crtBuf + 2 * CRT_COLS) (2 * (CRT_SIZE - CRT_COLS))
            (s.crtBuf + 2 * i + e) = s.mem (s.crtBuf + 2 * (i + CRT_COLS) + e) := by
          rw [Nat.add_assoc, moved_get s.mem _ _ (by omega)]
          exact congrArg s.mem (by omega)
        rw [if_pos hin, if_neg (by omega)]
        exact u16_congr (hget 0 (by decide)) (hget 1 (by decide))
      · rw [if_neg hin, if_pos (by omega)]
    · intro x hx
      change clearCells _ s.crtBuf (CRT_SIZE - CRT_COLS) CRT_COLS x = s.mem x
      rw [clearCells_outside _ (show CRT_SIZE - CRT_COLS + CRT_COLS ≤ CRT_SIZE by decide) hx, hmove]
      exact moved_outside s.mem _ (by simp only [CRT_SIZE, CRT_ROWS, CRT_COLS] at hx ⊢; omega)
  · rw [scrollUp, if_neg hpos, TextWindow.scroll, if_neg (show ¬CRT_ROWS * CRT_COLS ≤ s.window.pos from hpos)]
    exact ⟨rfl, fun _ _ => rfl, fun _ _ => rfl⟩

/-- The display `t` is `s` after a stroke; the window has not moved. -/
structure Struck (s t : Display) (k : Stroke Nat) : Prop where
  window : t.window = s.window.stroke CRT_COLS k
  addr6845 : t.addr6845 = s.addr6845
  crtBuf : t.crtBuf = s.crtBuf
  mem : ∀ x, x < s.crtBuf ∨ s.crtBuf + 2 * CRT_SIZE ≤ x → t.mem x = s.mem x
  sent : t.sent = s.sent

private theorem struck_cell {i pos : Nat} {v : BitVec 32} (hi : i < CRT_SIZE)
    (hk : s.window.stroke CRT_COLS k = ⟨Function.update s.window.cell i (v.toNat % 65536), pos⟩) :
    Struck s { s with mem := setCell s.mem s.crtBuf i v, crtPos := pos } k := by
  constructor
  · rw [hk, window, TextWindow.mk.injEq]
    refine ⟨?_, rfl⟩
    funext j
    rw [u16_setCell, Function.update_apply]
    rfl
  · rfl
  · rfl
  · intro x hx
    exact setCell_outside s.mem v hi hx
  · rfl

private theorem struck_pos {pos : Nat} (hk : s.window.stroke CRT_COLS k = ⟨s.window.cell, pos⟩) :
    Struck s { s with crtPos := pos } k := by
  constructor
  · rw [hk]
    rfl
  · rfl
  · rfl
  · exact fun _ _ => rfl
  · rfl

private theorem putCell_struck (tab : Display → Display) (hin : s.crtPos < CRT_SIZE) (hk : strokes c = [k]) :
    Struck s (putCell tab s (withAttribute c)) k := by
  simp only [CRT_SIZE, CRT_ROWS, CRT_COLS] at hin
  rw [strokes] at hk
  rw [putCell]
  dsimp only at hk ⊢
  split at hk
  · rename_i hback
    rw [if_pos hback]
    cases hk
    by_cases h0 : 0 < s.crtPos
    · rw [if_pos h0]
      apply struck_cell
      · simp only [CRT_SIZE, CRT_ROWS, CRT_COLS]
        omega
      · rw [TextWindow.stroke, if_pos (show 0 < s.window.pos from h0)]
        rfl
    · rw [if_neg h0]
      apply struck_pos
      rw [TextWindow.stroke, if_neg (show ¬0 < s.window.pos from h0)]
      rfl
  · rename_i hback
    rw [if_neg hback]
    split at hk
    · rename_i hfeed
      rw [if_pos hfeed]
      cases hk
      have hwrap : (s.crtPos + CRT_COLS) % 65536 = s.crtPos + CRT_COLS :=
        Nat.mod_eq_of_lt (by simp only [CRT_COLS]; omega)
      rw [hwrap]
      exact struck_pos rfl
    · rename_i hfeed
      rw [if_neg hfeed]
      split at hk
      · rename_i hhome
        rw [if_pos hhome]
        cases hk
        exact struck_pos rfl
      · rename_i hhome
        rw [if_neg hhome]
        split at hk
        · cases hk
        · rename_i htab
          rw [if_neg htab]
          cases hk
          apply struck_cell
          · exact hin
          · have hwrap : (s.crtPos + 1) % 65536 = s.crtPos + 1 := Nat.mod_eq_of_lt (by omega)
            rw [hwrap]
            rfl

private theorem scrollUp_rest (s : Display) :
    s.scrollUp.addr6845 = s.addr6845 ∧ s.scrollUp.crtBuf = s.crtBuf ∧ s.scrollUp.sent = s.sent := by
  rw [scrollUp]
  split <;> exact ⟨rfl, rfl, rfl⟩

private theorem moveCursor_window (s : Display) : s.moveCursor.window = s.window := by
  rw [moveCursor_eq]
  rfl

private theorem moveCursor_cursor (h : s.crtPos < CRT_SIZE) : s.moveCursor.cursor = s.crtPos := by
  simp only [CRT_SIZE, CRT_ROWS, CRT_COLS] at h
  have hhigh : s.moveCursor.register 14 = UInt8.ofNat (s.crtPos >>> 8) := by
    rw [moveCursor_eq]
    rfl
  have hlow : s.moveCursor.register 15 = UInt8.ofNat s.crtPos := by
    rw [moveCursor_eq]
    rfl
  rw [cursor, hhigh, hlow, UInt8.toNat_ofNat', UInt8.toNat_ofNat', Nat.shiftRight_eq_div_pow]
  omega

private theorem Struck.showing (h : Struck s t k) (hs : s.Ports) (hv : InView CRT_ROWS CRT_COLS blankCell s.window p) :
    Showing s t.scrollUp.moveCursor (stroked p k) [] := by
  have hroom := hs.room
  rw [← h.crtBuf] at hroom
  obtain ⟨hpos, hcell, hmem⟩ := scrollUp_window hroom
  obtain ⟨haddr, hbuf, hsent⟩ := scrollUp_rest t
  rw [h.window] at hpos hcell
  constructor
  · rw [moveCursor_window]
    exact (hv.stroke k).congr hpos hcell
  · rw [moveCursor_eq]
    exact haddr.trans h.addr6845
  · rw [moveCursor_eq]
    exact hbuf.trans h.crtBuf
  · intro x hx
    rw [moveCursor_eq]
    exact (hmem x (by rwa [h.crtBuf])).trans (h.mem x hx)
  · rw [moveCursor_eq, List.append_nil]
    exact hsent.trans h.sent

theorem Showing.trans (h : Showing s t p out) (h' : Showing t u q out') : Showing s u q (out ++ out') := by
  constructor
  · exact h'.view
  · exact h'.addr6845.trans h.addr6845
  · exact h'.crtBuf.trans h.crtBuf
  · intro x hx
    exact (h'.mem x (by rwa [h.crtBuf])).trans (h.mem x hx)
  · rw [h'.sent, h.sent, List.append_assoc]

theorem Showing.ports (h : Showing s t p out) (hs : s.Ports) : t.Ports := by
  rw [Ports, h.addr6845, h.crtBuf]
  exact hs

private theorem showing_serial (hs : s.Ports) (hv : InView CRT_ROWS CRT_COLS blankCell s.window p) (c : BitVec 32) :
    Showing s (s.serialPutc c) p (if c = 8 then [8, 32, 8] else [lowByte c]) := by
  rw [hs.serialPutc]
  exact ⟨hv, rfl, rfl, fun _ _ => rfl, rfl⟩

private theorem showing_cga (hs : s.Ports) (hv : InView CRT_ROWS CRT_COLS blankCell s.window p)
    (tab : Display → Display)
    (hk : strokes c = [k]) : Showing s (cgaPutcBy tab s c) (stroked p k) [] :=
  (putCell_struck tab hv.inside hk).showing hs hv

private theorem strokes_space : strokes 32 = [.put blankCell] := rfl

private theorem showing_space (hs : s.Ports) (hv : InView CRT_ROWS CRT_COLS blankCell s.window p) :
    Showing s s.consPutSpace (stroked p (.put blankCell)) [32] := by
  have hserial := showing_serial hs hv 32
  exact hserial.trans (showing_cga (hserial.ports hs) hserial.view id strokes_space)

private theorem showing_still (h : Showing s t p out) : Showing s t.scrollUp.moveCursor p out := by
  have hstill : t.scrollUp = t := if_neg (Nat.not_le.mpr h.view.inside)
  rw [hstill]
  constructor
  · rw [moveCursor_window]
    exact h.view
  · rw [moveCursor_eq]
    exact h.addr6845
  · rw [moveCursor_eq]
    exact h.crtBuf
  · intro x hx
    rw [moveCursor_eq]
    exact h.mem x hx
  · rw [moveCursor_eq]
    exact h.sent

private theorem showing_tab (hs : s.Ports) (hv : InView CRT_ROWS CRT_COLS blankCell s.window p)
    (hc : withAttribute c &&& 0xFF = 9) :
    Showing s (s.cgaPutc c) ((List.replicate 4 (.put blankCell)).foldl stroked p) (List.replicate 4 32) := by
  have h1 := showing_space hs hv
  have h2 := h1.trans (showing_space (h1.ports hs) h1.view)
  have h3 := h2.trans (showing_space (h2.ports hs) h2.view)
  have h4 := h3.trans (showing_space (h3.ports hs) h3.view)
  have htab : putCell (fun s => s.consPutSpace.consPutSpace.consPutSpace.consPutSpace) s (withAttribute c) =
      s.consPutSpace.consPutSpace.consPutSpace.consPutSpace := by
    rw [putCell, hc, if_neg (by decide), if_neg (by decide), if_neg (by decide), if_pos rfl]
  rw [cgaPutc, cgaPutcBy, htab]
  exact showing_still h4

private theorem withAttribute_backspace (hc : withAttribute c &&& 0xFF = 9) : c ≠ 8 := by
  rintro rfl
  exact absurd hc (by decide)

private theorem showing_consPutc (hs : s.Ports) (hv : InView CRT_ROWS CRT_COLS blankCell s.window p) (c : BitVec 32) :
    Showing s (s.consPutc c) (typed p c) (serialBytes c) := by
  have hserial := showing_serial hs hv c
  rw [consPutc, serialBytes, typed]
  by_cases htab : withAttribute c &&& 0xFF = 9
  · have hstrokes : strokes c = List.replicate 4 (.put blankCell) := by
      rw [strokes, htab, if_neg (by decide), if_neg (by decide), if_neg (by decide), if_pos rfl]
    rw [if_neg (withAttribute_backspace htab)] at hserial ⊢
    rw [if_pos htab, hstrokes]
    exact hserial.trans (showing_tab (hserial.ports hs) hserial.view htab)
  · obtain ⟨k, hk⟩ : ∃ k, strokes c = [k] := by
      rw [strokes, if_neg htab]
      split_ifs <;> exact ⟨_, rfl⟩
    rw [if_neg htab, hk]
    have hcga := hserial.trans (showing_cga (hserial.ports hs) hserial.view
      (fun s => s.consPutSpace.consPutSpace.consPutSpace.consPutSpace) hk)
    rw [List.append_nil] at hcga
    exact hcga

theorem showing_print (hs : s.Ports) (hv : InView CRT_ROWS CRT_COLS blankCell s.window p) (cs : List (BitVec 32)) :
    Showing s (s.print cs) (cs.foldl typed p) (cs.flatMap serialBytes) := by
  induction cs generalizing s p with
  | nil => exact ⟨hv, rfl, rfl, fun _ _ => rfl, (List.append_nil _).symm⟩
  | cons c cs ih =>
    have hc := showing_consPutc hs hv c
    exact hc.trans (ih (hc.ports hs) hc.view)

private theorem consPutc_cursor (hs : s.Ports) (hv : InView CRT_ROWS CRT_COLS blankCell s.window p) (c : BitVec 32) :
    (s.consPutc c).cursor = (s.consPutc c).crtPos := by
  have hin := (showing_consPutc hs hv c).view.inside
  have hpos (u : Display) : u.moveCursor.crtPos = u.crtPos := by
    rw [moveCursor_eq]
  change (moveCursor _).crtPos < CRT_SIZE at hin
  rw [hpos] at hin
  exact (moveCursor_cursor hin).trans (hpos _).symm

theorem page_inView (hpos : s.crtPos < CRT_SIZE) : InView CRT_ROWS CRT_COLS blankCell s.window s.page := by
  constructor
  · exact hpos
  · change s.crtPos = CRT_COLS * 0 + s.crtPos
    omega
  · intro i hi
    change s.window.cell i = if CRT_COLS * 0 + i < CRT_SIZE then s.window.cell (CRT_COLS * 0 + i) else blankCell
    rw [Nat.mul_zero, Nat.zero_add, if_pos (show i < CRT_SIZE from hi)]
  · intro i hi
    apply if_neg
    change CRT_COLS * 0 + CRT_SIZE ≤ i at hi
    omega

end Character

/-- Whatever is printed, the screen is a window over a page without an end, the memory around it stays as it is, after
at least one character the cursor of the controller is `crt_pos`, and the serial port sends the same characters, with the
four blanks of the screen behind each tab. -/
theorem screen_shows_page (s : Display) (cs : List (BitVec 32)) (hs : s.Ports) (hpos : s.crtPos < CRT_SIZE) :
    (s.print cs).crtPos < CRT_SIZE ∧
      (cs.foldl typed s.page).pos = CRT_COLS * (cs.foldl typed s.page).top + (s.print cs).crtPos ∧
      (∀ i < CRT_SIZE, (s.print cs).window.cell i =
        (cs.foldl typed s.page).cell (CRT_COLS * (cs.foldl typed s.page).top + i)) ∧
      (∀ x, x < s.crtBuf ∨ s.crtBuf + 2 * CRT_SIZE ≤ x → (s.print cs).mem x = s.mem x) ∧
      (cs ≠ [] → (s.print cs).cursor = (s.print cs).crtPos) ∧
      (s.print cs).sent = s.sent ++ cs.flatMap serialBytes := by
  have h := showing_print hs (page_inView hpos) cs
  refine ⟨h.view.inside, h.view.pos, h.view.cell, h.mem, ?_, h.sent⟩
  intro hne
  obtain ⟨front, c, rfl⟩ := List.eq_nil_or_concat cs |>.resolve_left hne
  have hfront := showing_print hs (page_inView hpos) front
  rw [Display.print, List.concat_eq_append, List.foldl_append]
  exact consPutc_cursor (hfront.ports hs) hfront.view c

/-- The screen after `cga_init`, with the cursor in the corner. -/
def Display.sample : Display := Display.cgaInit ⟨fun _ => 0, 0, 0, 0, 0, fun _ => 0, []⟩ true

theorem screen_shows_page_sample :
    (Display.sample.print [65, 9, 10]).sent = Display.sample.sent ++ [65, 9, 32, 32, 32, 32, 10] :=
  (screen_shows_page Display.sample [65, 9, 10] (.inl ⟨rfl, rfl⟩) (by decide)).2.2.2.2.2

end DamnOS.Kernel
