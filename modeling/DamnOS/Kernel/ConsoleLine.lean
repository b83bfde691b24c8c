import DamnOS.Kernel.ConsoleInput
import DamnOS.Kernel.Keyboard
import DamnOS.Programs.Readline

/-!
# From the keys to the line

The keyboard feeds the ring of `cons_intr`, in its interrupts and when `cons_getc` polls it, and `readline` takes what
`getchar` gets out of the ring.
-/

namespace DamnOS.Kernel

open DamnOS.Framework
open DamnOS.Programs

/-- What `cons_intr(kbd_proc_data)` gets of the bytes in the controller. -/
def kbdFeed (shift : UInt8) : List UInt8 → List UInt8
  | [] => []
  | data :: bytes =>
    UInt8.ofInt (kbdProcData shift (some data)).c :: kbdFeed (kbdProcData shift (some data)).shift bytes

/-- The keyboard interrupts or is polled, while there are some bytes in the controller. -/
inductive KbdEvent where
  | intr (bytes : List UInt8)
  | getc (bytes : List UInt8)

def KbdEvent.bytes : KbdEvent → List UInt8
  | .intr bytes => bytes
  | .getc bytes => bytes

def KbdEvent.consEvent (shift : UInt8) : KbdEvent → ConsEvent
  | .intr bytes => .intr (kbdFeed shift bytes)
  | .getc bytes => .getc [] (kbdFeed shift bytes)

/-- What happens to the ring; `shift` is kept from one event to the next. -/
def consEvents : UInt8 → List KbdEvent → List ConsEvent
  | _, [] => []
  | shift, e :: es => e.consEvent shift :: consEvents (shiftAfter shift e.bytes) es

def typedChars (bytes : List UInt8) : List UInt8 := ConsHistory.characters (kbdFeed 0 bytes)

def charValue (c : UInt8) : Int := (c.toNat : Int)

section Feeding

variable {shift : UInt8} {bytes more : List UInt8} {h : ConsHistory} {es : List KbdEvent}

private theorem kbdFeed_append (shift : UInt8) (bytes more : List UInt8) :
    kbdFeed shift (bytes ++ more) = kbdFeed shift bytes ++ kbdFeed (shiftAfter shift bytes) more := by
  induction bytes generalizing shift with
  | nil => rfl
  | cons data bytes ih =>
    rw [List.cons_append, kbdFeed, kbdFeed, ih]
    rfl

private theorem characters_append (cs ds : List UInt8) :
    ConsHistory.characters (cs ++ ds) = ConsHistory.characters cs ++ ConsHistory.characters ds :=
  List.filter_append _ _

/-- However the bytes are spread over interrupts and polls, the ring is fed the same characters. -/
theorem fed_run (h : ConsHistory) (shift : UInt8) (es : List KbdEvent) : (h.run (consEvents shift es)).fed =
    h.fed ++ ConsHistory.characters (kbdFeed shift (es.flatMap KbdEvent.bytes)) := by
  induction es generalizing h shift with
  | nil => exact (List.append_nil _).symm
  | cons e es ih =>
    have hstep : (h.step (e.consEvent shift)).fed = h.fed ++ ConsHistory.characters (kbdFeed shift e.bytes) := by
      cases e with
      | intr bytes => rfl
      | getc bytes =>
        change h.fed ++ [] ++ _ = _
        rw [List.append_nil]
        rfl
    change ((h.step (e.consEvent shift)).run (consEvents (shiftAfter shift e.bytes) es)).fed = _
    rw [ih, hstep, List.flatMap_cons, kbdFeed_append, characters_append, List.append_assoc]

private theorem inLine_char {c : UInt8} (hnl : c ≠ 10) (hcr : c ≠ 13) : InLine (charValue c) := by
  have hlt := c.toNat_lt
  have hten : c.toNat ≠ 10 := fun h => hnl (UInt8.toNat_inj.mp h)
  have hthirteen : c.toNat ≠ 13 := fun h => hcr (UInt8.toNat_inj.mp h)
  refine ⟨Int.natCast_nonneg _, ?_, ?_, ?_⟩
  · change (c.toNat : Int) ≤ 255
    omega
  · change (c.toNat : Int) ≠ 10
    omega
  · change (c.toNat : Int) ≠ 13
    omega

end Feeding

/-- From the keys to the line: however the bytes of the keyboard are spread over interrupts and polls, if the ring is
never full then what has been read and what is waiting is what was typed, and as soon as the end of the line has been
read `readline` has returned the line as it was typed and edited. -/
theorem keys_to_line (ring buf : Nat → UInt8) (echoing : Bool) (es : List KbdEvent)
    (hfull : (ConsHistory.start ring).NeverFull (consEvents 0 es)) :
    ((ConsHistory.start ring).run (consEvents 0 es)).got ++
        ((ConsHistory.start ring).run (consEvents 0 es)).cons.waiting = typedChars (es.flatMap KbdEvent.bytes) ∧
      ∀ front c rest, typedChars (es.flatMap KbdEvent.bytes) = front ++ c :: rest → c = 10 ∨ c = 13 →
        (10 : UInt8) ∉ front → (13 : UInt8) ∉ front →
        front.length < ((ConsHistory.start ring).run (consEvents 0 es)).got.length →
          ∃ s left, readline echoing (((ConsHistory.start ring).run (consEvents 0 es)).got.map charValue) ⟨buf, 0, []⟩ =
            .inr (.line s, left) ∧ StringAt s.buf 0 ((front.map charValue).foldl edit []) := by
  have hlossless : _ = _ :=
    (ConsHistory.start_lossless ring).run (ConsHistory.start_consistent ring) hfull
  rw [fed_run] at hlossless
  change [] ++ typedChars (es.flatMap KbdEvent.bytes) = _ at hlossless
  rw [List.nil_append] at hlossless
  refine ⟨hlossless.symm, ?_⟩
  intro front c rest htyped hend hnl hcr hlong
  generalize ((ConsHistory.start ring).run (consEvents 0 es)).got = got at *
  rw [htyped] at hlossless
  -- the end of the line is among the characters that have been read
  obtain ⟨left, hgot⟩ : ∃ left, got = front ++ c :: left := by
    have hline : front ++ [c] <+: front ++ c :: rest := ⟨rest, by rw [List.append_assoc]; rfl⟩
    have hread : got <+: front ++ c :: rest := ⟨_, hlossless.symm⟩
    obtain ⟨left, hleft⟩ := List.prefix_of_prefix_length_le hline hread (by
      rw [List.length_append, List.length_singleton]
      exact hlong)
    exact ⟨left, by rw [← hleft, List.append_assoc]; rfl⟩
  have hline : ∀ x ∈ front.map charValue, InLine x := by
    intro x hx
    obtain ⟨b, hb, rfl⟩ := List.mem_map.mp hx
    exact inLine_char (ne_of_mem_of_not_mem hb hnl) (ne_of_mem_of_not_mem hb hcr)
  have hvalue : charValue c = 10 ∨ charValue c = 13 := by
    rcases hend with rfl | rfl
    · exact .inl rfl
    · exact .inr rfl
  obtain ⟨s, hs, hstring, -, -⟩ := readline_returns buf echoing hline hvalue (left.map charValue)
  refine ⟨s, left.map charValue, ?_, hstring⟩
  rw [hgot, List.map_append]
  exact hs

/-- A is pressed in an interrupt, and Enter while the keyboard is polled. -/
theorem keys_to_line_sample : ∃ s left, readline true [97, 10] ⟨fun _ => 0, 0, []⟩ = .inr (.line s, left) ∧
    StringAt s.buf 0 [97] :=
  (keys_to_line (fun _ => 0) (fun _ => 0) true [.intr [0x1E, 0x9E], .getc [0x1C], .getc []]
    ⟨by decide, by decide, by decide, trivial⟩).2 [97] 10 [] (by decide) (.inl rfl) (by decide) (by decide) (by decide)

end DamnOS.Kernel
