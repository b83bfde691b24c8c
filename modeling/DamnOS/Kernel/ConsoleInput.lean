import DamnOS.Framework.Rings

/-!
# Console input

`cons_intr` and `cons_getc` of `console.c`.  What the devices deliver is a list of characters, up to the -1 that ends
it.
-/

namespace DamnOS.Kernel

open DamnOS.Framework

def CONSBUFSIZE : Nat := 512

structure Cons where
  buf : Nat → UInt8
  rpos : Nat
  wpos : Nat

namespace Cons

/-- The loop body of `cons_intr` for a character that is not zero. -/
def put (s : Cons) (c : UInt8) : Cons :=
  let s := { s with buf := Function.update s.buf s.wpos c, wpos := s.wpos + 1 }
  if s.wpos = CONSBUFSIZE then { s with wpos := 0 } else s

def consIntr (s : Cons) (cs : List UInt8) : Cons := cs.foldl (fun s c => if c = 0 then s else s.put c) s

def get (s : Cons) : UInt8 × Cons :=
  if s.rpos ≠ s.wpos then
    let c := s.buf s.rpos
    let s := { s with rpos := s.rpos + 1 }
    (c, if s.rpos = CONSBUFSIZE then { s with rpos := 0 } else s)
  else (0, s)

/-- `cons_getc`, which polls the serial port and the keyboard first. -/
def consGetc (s : Cons) (serial kbd : List UInt8) : UInt8 × Cons := ((s.consIntr serial).consIntr kbd).get

def waiting (s : Cons) : List UInt8 := ringContents CONSBUFSIZE s.buf s.rpos s.wpos

end Cons

/-- What happens to the console. -/
inductive ConsEvent where
  | intr (cs : List UInt8)
  | getc (serial kbd : List UInt8)

/-- The console, with the characters that have been fed and those that `cons_getc` has returned; a zero is not one. -/
structure ConsHistory where
  cons : Cons
  fed : List UInt8
  got : List UInt8

namespace ConsHistory

def start (buf : Nat → UInt8) : ConsHistory := ⟨⟨buf, 0, 0⟩, [], []⟩

/-- The characters among those that are delivered. -/
def characters (cs : List UInt8) : List UInt8 := cs.filter (· ≠ 0)

def step (h : ConsHistory) : ConsEvent → ConsHistory
  | .intr cs => { h with cons := h.cons.consIntr cs, fed := h.fed ++ characters cs }
  | .getc serial kbd =>
    let r := h.cons.consGetc serial kbd
    ⟨r.2, h.fed ++ characters serial ++ characters kbd, h.got ++ characters [r.1]⟩

def run (h : ConsHistory) (es : List ConsEvent) : ConsHistory := es.foldl step h

end ConsHistory

section Ring

variable {s : Cons} {c : UInt8} {cs g f : List UInt8}

def Cons.Valid (s : Cons) : Prop := s.rpos < CONSBUFSIZE ∧ s.wpos < CONSBUFSIZE

private theorem Cons.put_eq (s : Cons) (c : UInt8) :
    s.put c = ⟨Function.update s.buf s.wpos c, s.rpos, ringNext CONSBUFSIZE s.wpos⟩ := by
  rw [Cons.put, ringNext]
  dsimp only
  split <;> rfl

private theorem Cons.get_waiting (hne : s.rpos ≠ s.wpos) :
    s.get = (s.buf s.rpos, ⟨s.buf, ringNext CONSBUFSIZE s.rpos, s.wpos⟩) := by
  rw [Cons.get, if_pos hne, ringNext]
  dsimp only
  split <;> rfl

theorem Cons.Valid.put (h : s.Valid) (c : UInt8) : (s.put c).Valid := by
  rw [Cons.put_eq]
  exact ⟨h.1, ringNext_lt h.2⟩

/-- A character is put behind those that are waiting, unless it is the one that closes a lap. -/
theorem Cons.Valid.waiting_put (h : s.Valid) (c : UInt8) :
    (s.put c).waiting = if s.waiting.length + 1 = CONSBUFSIZE then [] else s.waiting ++ [c] := by
  rw [Cons.put_eq]
  exact ringContents_push h.1 h.2

private theorem Cons.Valid.get_cases (h : s.Valid) :
    s.waiting = [] ∧ s.get = (0, s) ∨ s.get.2.Valid ∧ s.waiting = s.get.1 :: s.get.2.waiting := by
  by_cases hne : s.rpos = s.wpos
  · left
    exact ⟨(ringContents_eq_nil h.1).mpr hne, if_neg (not_not.mpr hne)⟩
  · right
    rw [Cons.get_waiting hne]
    exact ⟨⟨ringNext_lt h.1, h.2⟩, ringContents_pop h.1 h.2 hne⟩

private theorem Cons.consIntr_cons (s : Cons) (c : UInt8) (cs : List UInt8) :
    s.consIntr (c :: cs) = (if c = 0 then s else s.put c).consIntr cs := rfl

private theorem characters_cons (c : UInt8) (cs : List UInt8) :
    ConsHistory.characters (c :: cs) =
      if c = 0 then ConsHistory.characters cs else c :: ConsHistory.characters cs := by
  rw [ConsHistory.characters, List.filter_cons]
  by_cases hc : c = 0
  · rw [if_pos hc, if_neg (by simp [hc])]
    rfl
  · rw [if_neg hc, if_pos (by simp [hc])]
    rfl

private theorem Cons.Valid.consIntr (h : s.Valid) (cs : List UInt8) : (s.consIntr cs).Valid := by
  induction cs generalizing s with
  | nil => exact h
  | cons c cs ih =>
    rw [Cons.consIntr_cons]
    split
    · exact ih h
    · exact ih (h.put c)

/-- What has been read and what is waiting are among the characters that were fed, in their order. -/
theorem Cons.Valid.consIntr_sublist (h : s.Valid) (hs : (g ++ s.waiting).Sublist f) (cs : List UInt8) :
    (g ++ (s.consIntr cs).waiting).Sublist (f ++ ConsHistory.characters cs) := by
  induction cs generalizing s f with
  | nil =>
    change (g ++ s.waiting).Sublist (f ++ [])
    rwa [List.append_nil]
  | cons c cs ih =>
    rw [Cons.consIntr_cons, characters_cons]
    by_cases hc : c = 0
    · rw [if_pos hc, if_pos hc]
      exact ih h hs
    · rw [if_neg hc, if_neg hc, List.append_cons]
      apply ih (h.put c)
      rw [h.waiting_put c]
      split
      · rw [List.append_nil]
        exact ((List.sublist_append_left g _).trans hs).trans (List.sublist_append_left f [c])
      · rw [← List.append_assoc]
        exact hs.append (List.Sublist.refl [c])

private theorem Cons.Valid.consIntr_waiting (h : s.Valid)
    (hroom : s.waiting.length + (ConsHistory.characters cs).length < CONSBUFSIZE) :
    (s.consIntr cs).waiting = s.waiting ++ ConsHistory.characters cs := by
  induction cs generalizing s with
  | nil => exact (List.append_nil _).symm
  | cons c cs ih =>
    rw [characters_cons] at hroom
    rw [Cons.consIntr_cons, characters_cons]
    by_cases hc : c = 0
    · rw [if_pos hc] at hroom
      rw [if_pos hc, if_pos hc]
      exact ih h hroom
    · rw [if_neg hc, List.length_cons] at hroom
      have hput := h.waiting_put c
      rw [if_neg (by omega)] at hput
      rw [if_neg hc, if_neg hc, ih (h.put c) (by rw [hput, List.length_append, List.length_singleton]; omega), hput,
        List.append_assoc]
      rfl

end Ring

section Histories

variable {h : ConsHistory} {e : ConsEvent} {es : List ConsEvent}

namespace ConsHistory

def feeds : ConsEvent → List UInt8
  | .intr cs => characters cs
  | .getc serial kbd => characters serial ++ characters kbd

/-- Never more than `CONSBUFSIZE - 1` characters have been fed and not been returned. -/
def NeverFull : ConsHistory → List ConsEvent → Prop
  | _, [] => True
  | h, e :: es => h.fed.length + (feeds e).length ≤ h.got.length + (CONSBUFSIZE - 1) ∧ NeverFull (h.step e) es

structure Consistent (h : ConsHistory) : Prop where
  valid : h.cons.Valid
  order : (h.got ++ h.cons.waiting).Sublist h.fed
  nonzero : (0 : UInt8) ∉ h.fed

/-- Everything has been returned or is waiting. -/
def Lossless (h : ConsHistory) : Prop := h.fed = h.got ++ h.cons.waiting

private theorem zero_not_mem_characters (cs : List UInt8) : (0 : UInt8) ∉ characters cs := by
  simp [characters]

/-- The read of `cons_getc` moves a character from those that are waiting to those that have been returned. -/
theorem get_moves {s : Cons} {g : List UInt8} (hs : s.Valid) (h0 : (0 : UInt8) ∉ s.waiting) :
    s.get.2.Valid ∧ g ++ characters [s.get.1] ++ s.get.2.waiting = g ++ s.waiting := by
  rcases hs.get_cases with ⟨hnil, hget⟩ | ⟨hvalid, hcons⟩
  · rw [hget]
    exact ⟨hs, by simp [characters]⟩
  · refine ⟨hvalid, ?_⟩
    have hne : s.get.1 ≠ 0 := by
      intro hzero
      apply h0
      rw [hcons, hzero]
      exact List.mem_cons_self
    rw [characters_cons, if_neg hne, hcons, List.append_assoc]
    rfl

private theorem start_valid (buf : Nat → UInt8) : (start buf).cons.Valid :=
  ⟨show 0 < CONSBUFSIZE by decide, show 0 < CONSBUFSIZE by decide⟩

private theorem start_waiting (buf : Nat → UInt8) : (start buf).cons.waiting = [] :=
  (ringContents_eq_nil (start_valid buf).1).mpr rfl

theorem start_consistent (buf : Nat → UInt8) : (start buf).Consistent := by
  refine ⟨start_valid buf, ?_, by simp [start]⟩
  rw [start_waiting]
  exact List.Sublist.refl []

theorem start_lossless (buf : Nat → UInt8) : (start buf).Lossless := by
  rw [Lossless, start_waiting]
  rfl

theorem Consistent.step (hh : h.Consistent) (e : ConsEvent) : (h.step e).Consistent := by
  cases e with
  | intr cs =>
    refine ⟨hh.valid.consIntr cs, hh.valid.consIntr_sublist hh.order cs, ?_⟩
    exact List.not_mem_append hh.nonzero (zero_not_mem_characters cs)
  | getc serial kbd =>
    have hserial := hh.valid.consIntr_sublist hh.order serial
    have hkbd := (hh.valid.consIntr serial).consIntr_sublist hserial kbd
    have h0 : (0 : UInt8) ∉ h.fed ++ characters serial ++ characters kbd :=
      List.not_mem_append (List.not_mem_append hh.nonzero (zero_not_mem_characters serial))
        (zero_not_mem_characters kbd)
    obtain ⟨hvalid, hmoves⟩ := @get_moves _ h.got ((hh.valid.consIntr serial).consIntr kbd)
      (fun hm => h0 (hkbd.subset (List.mem_append_right _ hm)))
    refine ⟨hvalid, ?_, h0⟩
    change (h.got ++ characters [((h.cons.consIntr serial).consIntr kbd).get.1] ++
      ((h.cons.consIntr serial).consIntr kbd).get.2.waiting).Sublist _
    rw [hmoves]
    exact hkbd

theorem Lossless.step (hl : h.Lossless) (hh : h.Consistent)
    (hroom : h.fed.length + (feeds e).length ≤ h.got.length + (CONSBUFSIZE - 1)) : (h.step e).Lossless := by
  have hlen := congrArg List.length hl
  rw [List.length_append] at hlen
  have hpos : 0 < CONSBUFSIZE := by decide
  cases e with
  | intr cs =>
    change h.fed.length + (characters cs).length ≤ _ at hroom
    change h.fed ++ characters cs = h.got ++ (h.cons.consIntr cs).waiting
    rw [hh.valid.consIntr_waiting (by omega), ← List.append_assoc, ← hl]
  | getc serial kbd =>
    change h.fed.length + (characters serial ++ characters kbd).length ≤ _ at hroom
    rw [List.length_append] at hroom
    have hserial := @Cons.Valid.consIntr_waiting _ serial hh.valid (by omega)
    have hkbd := @Cons.Valid.consIntr_waiting _ kbd (hh.valid.consIntr serial)
      (by rw [hserial, List.length_append]; omega)
    rw [hserial] at hkbd
    have h0 : (0 : UInt8) ∉ ((h.cons.consIntr serial).consIntr kbd).waiting := by
      rw [hkbd]
      refine List.not_mem_append (List.not_mem_append (fun hm => hh.nonzero ?_) (zero_not_mem_characters serial))
        (zero_not_mem_characters kbd)
      rw [hl]
      exact List.mem_append_right _ hm
    obtain ⟨-, hmoves⟩ := @get_moves _ h.got ((hh.valid.consIntr serial).consIntr kbd) h0
    change h.fed ++ characters serial ++ characters kbd =
      h.got ++ characters [((h.cons.consIntr serial).consIntr kbd).get.1] ++
        ((h.cons.consIntr serial).consIntr kbd).get.2.waiting
    rw [hmoves, hkbd, ← List.append_assoc, ← List.append_assoc, ← hl]

theorem Consistent.run (hh : h.Consistent) (es : List ConsEvent) : (h.run es).Consistent := by
  induction es generalizing h with
  | nil => exact hh
  | cons e es ih => exact ih (hh.step e)

theorem Lossless.run (hl : h.Lossless) (hh : h.Consistent) (hfull : NeverFull h es) : (h.run es).Lossless := by
  induction es generalizing h with
  | nil => exact hl
  | cons e es ih => exact ih (hl.step hh hfull.1) (hh.step e) hfull.2

end ConsHistory

end Histories

/-- The positions stay in the buffer, characters are returned in the order in which they were fed and each at most once,
and none is lost if there are never more than `CONSBUFSIZE - 1` waiting. -/
theorem cons_ring (buf : Nat → UInt8) (es : List ConsEvent) :
    ((ConsHistory.start buf).run es).cons.rpos < CONSBUFSIZE ∧
      ((ConsHistory.start buf).run es).cons.wpos < CONSBUFSIZE ∧
      ((ConsHistory.start buf).run es).got.Sublist ((ConsHistory.start buf).run es).fed ∧
      ((ConsHistory.start buf).NeverFull es →
        ((ConsHistory.start buf).run es).fed =
          ((ConsHistory.start buf).run es).got ++ ((ConsHistory.start buf).run es).cons.waiting) := by
  have hstart := ConsHistory.start_consistent buf
  have hrun := hstart.run es
  exact ⟨hrun.valid.1, hrun.valid.2, (List.sublist_append_left _ _).trans hrun.order,
    fun hfull => (ConsHistory.start_lossless buf).run hstart hfull⟩

/-- Two characters are fed and one is read. -/
theorem cons_ring_sample :
    ((ConsHistory.start fun _ => 0).run [.intr [97, 0, 98], .getc [] []]).fed =
      ((ConsHistory.start fun _ => 0).run [.intr [97, 0, 98], .getc [] []]).got ++
        ((ConsHistory.start fun _ => 0).run [.intr [97, 0, 98], .getc [] []]).cons.waiting :=
  (cons_ring (fun _ => 0) [.intr [97, 0, 98], .getc [] []]).2.2.2 ⟨by decide, by decide, trivial⟩

end DamnOS.Kernel
