import Mathlib.Data.Nat.Basic
import Mathlib.Tactic.Common
import Mathlib.Logic.Function.Basic

/-!
# A window over a page

Text goes to a page without an end.  A window shows `rows` lines of `cols` cells of it and moves down by a line when the
text leaves it at the bottom.
-/

namespace DamnOS.Framework

/-- A page, the place where the next element goes, and the first line that is shown. -/
structure TextPage (α : Type) where
  cell : Nat → α
  pos : Nat
  top : Nat

/-- The cells of a window, and where in it the next element goes. -/
structure TextWindow (α : Type) where
  cell : Nat → α
  pos : Nat

/-- What a character does. -/
inductive Stroke (α : Type) where
  | put (x : α)
  | erase (x : α)
  | feed
  | home
  deriving DecidableEq

variable {α : Type} {rows cols : Nat} {blank : α} {w v : TextWindow α} {p : TextPage α}

def TextPage.stroke (cols : Nat) (p : TextPage α) : Stroke α → TextPage α
  | .put x => { p with cell := Function.update p.cell p.pos x, pos := p.pos + 1 }
  | .erase x =>
    if cols * p.top < p.pos then { p with cell := Function.update p.cell (p.pos - 1) x, pos := p.pos - 1 } else p
  | .feed => { p with pos := p.pos + cols - (p.pos + cols) % cols }
  | .home => { p with pos := p.pos - p.pos % cols }

/-- The window moves down as far as it has to. -/
def TextPage.settle (rows cols : Nat) (p : TextPage α) : TextPage α := { p with top := max p.top (p.pos / cols + 1 - rows) }

def TextWindow.stroke (cols : Nat) (w : TextWindow α) : Stroke α → TextWindow α
  | .put x => ⟨Function.update w.cell w.pos x, w.pos + 1⟩
  | .erase x => if 0 < w.pos then ⟨Function.update w.cell (w.pos - 1) x, w.pos - 1⟩ else w
  | .feed => ⟨w.cell, w.pos + cols - (w.pos + cols) % cols⟩
  | .home => ⟨w.cell, w.pos - w.pos % cols⟩

/-- The lines move up by one if the position has left the window. -/
def TextWindow.scroll (rows cols : Nat) (blank : α) (w : TextWindow α) : TextWindow α :=
  if rows * cols ≤ w.pos then
    ⟨fun i => if i + cols < rows * cols then w.cell (i + cols) else blank, w.pos - cols⟩
  else w

/-- The window shows the page, and nothing has been written below it. -/
structure InView (rows cols : Nat) (blank : α) (w : TextWindow α) (p : TextPage α) : Prop where
  inside : w.pos < rows * cols
  pos : p.pos = cols * p.top + w.pos
  cell : ∀ i < rows * cols, w.cell i = p.cell (cols * p.top + i)
  below : ∀ i, cols * p.top + rows * cols ≤ i → p.cell i = blank

theorem InView.congr (h : InView rows cols blank w p) (hpos : v.pos = w.pos)
    (hcell : ∀ i < rows * cols, v.cell i = w.cell i) : InView rows cols blank v p :=
  ⟨hpos ▸ h.inside, hpos ▸ h.pos, fun i hi => (hcell i hi).trans (h.cell i hi), h.below⟩

private theorem inView_scroll (hcols : 0 < cols) (hrows : 0 < rows) (hlow : w.pos < rows * cols + cols)
    (hpos : p.pos = cols * p.top + w.pos)
    (hcell : ∀ i < rows * cols, w.cell i = p.cell (cols * p.top + i))
    (hbelow : ∀ i, cols * p.top + rows * cols ≤ i → p.cell i = blank) :
    InView rows cols blank (w.scroll rows cols blank) (p.settle rows cols) := by
  have hline : p.pos / cols = p.top + w.pos / cols := by
    rw [hpos, Nat.mul_add_div hcols]
  by_cases hout : rows * cols ≤ w.pos
  · have hrow : w.pos / cols = rows := by
      apply Nat.div_eq_of_lt_le
      · exact hout
      · rw [Nat.add_mul, Nat.one_mul]
        exact hlow
    have htop : max p.top (p.pos / cols + 1 - rows) = p.top + 1 := by omega
    have hshift : cols * (p.top + 1) = cols * p.top + cols := Nat.mul_succ _ _
    have hle : cols ≤ rows * cols := Nat.le_mul_of_pos_left cols hrows
    rw [TextPage.settle, htop, TextWindow.scroll, if_pos hout]
    constructor
    · change w.pos - cols < rows * cols
      omega
    · change p.pos = cols * (p.top + 1) + (w.pos - cols)
      omega
    · intro i hi
      change (if i + cols < rows * cols then w.cell (i + cols) else blank) = p.cell (cols * (p.top + 1) + i)
      rw [hshift]
      by_cases hin : i + cols < rows * cols
      · rw [if_pos hin, hcell _ hin]
        congr 1
        omega
      · rw [if_neg hin]
        exact (hbelow _ (by omega)).symm
    · intro i hi
      change cols * (p.top + 1) + rows * cols ≤ i at hi
      exact hbelow i (by omega)
  · have hrow : w.pos / cols < rows := (Nat.div_lt_iff_lt_mul hcols).mpr (Nat.lt_of_not_le hout)
    have htop : max p.top (p.pos / cols + 1 - rows) = p.top := by omega
    rw [TextPage.settle, htop, TextWindow.scroll, if_neg hout]
    exact ⟨Nat.lt_of_not_le hout, hpos, hcell, hbelow⟩

theorem InView.stroke (h : InView rows cols blank w p) (k : Stroke α) :
    InView rows cols blank ((w.stroke cols k).scroll rows cols blank) ((p.stroke cols k).settle rows cols) := by
  have hin := h.inside
  have hpos := h.pos
  have hcols : 0 < cols := Nat.pos_of_mul_pos_left (Nat.zero_lt_of_lt hin)
  have hrows : 0 < rows := Nat.pos_of_mul_pos_right (Nat.zero_lt_of_lt hin)
  cases k with
  | put x =>
    apply inView_scroll hcols hrows
    · change w.pos + 1 < rows * cols + cols
      omega
    · change p.pos + 1 = cols * p.top + (w.pos + 1)
      omega
    · intro i hi
      change Function.update w.cell w.pos x i = Function.update p.cell p.pos x (cols * p.top + i)
      by_cases hx : i = w.pos
      · rw [hx, hpos, Function.update_self, Function.update_self]
      · rw [Function.update_of_ne hx, Function.update_of_ne (by omega)]
        exact h.cell i hi
    · intro i hi
      change cols * p.top + rows * cols ≤ i at hi
      change Function.update p.cell p.pos x i = blank
      rw [Function.update_of_ne (by omega)]
      exact h.below i hi
  | erase x =>
    by_cases h0 : 0 < w.pos
    · have hp : cols * p.top < p.pos := by omega
      rw [TextWindow.stroke, TextPage.stroke, if_pos h0, if_pos hp]
      apply inView_scroll hcols hrows
      · change w.pos - 1 < rows * cols + cols
        omega
      · change p.pos - 1 = cols * p.top + (w.pos - 1)
        omega
      · intro i hi
        change Function.update w.cell (w.pos - 1) x i = Function.update p.cell (p.pos - 1) x (cols * p.top + i)
        by_cases hx : i = w.pos - 1
        · have hplace : cols * p.top + (w.pos - 1) = p.pos - 1 := by omega
          rw [hx, hplace, Function.update_self, Function.update_self]
        · rw [Function.update_of_ne hx, Function.update_of_ne (by omega)]
          exact h.cell i hi
      · intro i hi
        change cols * p.top + rows * cols ≤ i at hi
        change Function.update p.cell (p.pos - 1) x i = blank
        rw [Function.update_of_ne (by omega)]
        exact h.below i hi
    · have hp : ¬cols * p.top < p.pos := by omega
      rw [TextWindow.stroke, TextPage.stroke, if_neg h0, if_neg hp]
      exact inView_scroll hcols hrows (by omega) hpos h.cell h.below
  | feed =>
    have hmod : (p.pos + cols) % cols = (w.pos + cols) % cols := by
      rw [hpos, Nat.add_assoc, Nat.mul_add_mod]
    have hle : (w.pos + cols) % cols < cols := Nat.mod_lt _ hcols
    apply inView_scroll hcols hrows
    · change w.pos + cols - (w.pos + cols) % cols < rows * cols + cols
      omega
    · change p.pos + cols - (p.pos + cols) % cols = cols * p.top + (w.pos + cols - (w.pos + cols) % cols)
      omega
    · exact h.cell
    · exact h.below
  | home =>
    have hmod : p.pos % cols = w.pos % cols := by rw [hpos, Nat.mul_add_mod]
    have hle : w.pos % cols ≤ w.pos := Nat.mod_le _ _
    apply inView_scroll hcols hrows
    · change w.pos - w.pos % cols < rows * cols + cols
      omega
    · change p.pos - p.pos % cols = cols * p.top + (w.pos - w.pos % cols)
      omega
    · exact h.cell
    · exact h.below

end DamnOS.Framework
