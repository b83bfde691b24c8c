import DamnOS.Framework.Runs

/-!
# Pipes

The reader and the writer of a pipe share one page that holds two positions and a ring of
`PIPEBUFSIZ` bytes.  Neither takes a lock, so their steps (the test for an empty or a full ring,
the copy of one byte, the increment of a position) interleave freely.
-/

namespace DamnOS.User

open DamnOS.Framework

def PIPEBUFSIZ : Nat := 32

/-- `struct Pipe`.  The positions are of type `off_t`, a signed word of 32 bits. -/
structure Pipe where
  rpos : BitVec 32
  wpos : BitVec 32
  buf : Int → UInt8

/-- `p->p_buf[pos % PIPEBUFSIZ]`, with the signed remainder of C. -/
def Pipe.index (pos : BitVec 32) : Int := pos.toInt.tmod PIPEBUFSIZ

def Pipe.isEmpty (p : Pipe) : Bool := p.rpos == p.wpos

/-- `p->p_wpos >= p->p_rpos + sizeof(p->p_buf)`: `sizeof` makes the comparison unsigned. -/
def Pipe.isFull (p : Pipe) : Bool :=
  decide ((p.rpos + BitVec.ofNat 32 PIPEBUFSIZ).toNat ≤ p.wpos.toNat)

/-- Where the reader stands in `devpipe_read(fd, vbuf, n)` with loop counter `i`. -/
inductive ReaderPc where
  | idle
  | test (i n : Nat)
  | poll (i n : Nat)
  | copy (i n : Nat)
  | bump (i n : Nat)
  deriving DecidableEq

/-- Where the writer stands in `devpipe_write(fd, vbuf, n)`, with the bytes of `vbuf`. -/
inductive WriterPc where
  | idle
  | test (i : Nat) (vbuf : List UInt8)
  | poll (i : Nat) (vbuf : List UInt8)
  | copy (i : Nat) (vbuf : List UInt8)
  | bump (i : Nat) (vbuf : List UInt8)
  deriving DecidableEq

/-- The shared page, the two sides, and the bytes that were delivered and stored so far. -/
structure Channel where
  pipe : Pipe
  reader : ReaderPc
  writer : WriterPc
  delivered : List UInt8
  stored : List UInt8

/-- What `pipe` sets up: a fresh page, and nobody inside a call. -/
def Channel.fresh : Channel :=
  ⟨⟨0, 0, fun _ => 0⟩, .idle, .idle, [], []⟩

namespace Channel

/-- One step of `devpipe_read`; `closed` is the answer of `_pipeisclosed` when it is asked. -/
def readerStep (closed : Bool) (c : Channel) : Channel :=
  match c.reader with
  | .idle => c
  | .test i n =>
    if i < n then
      if c.pipe.isEmpty then
        -- `if (i > 0) return i`
        if 0 < i then { c with reader := .idle } else { c with reader := .poll i n }
      else { c with reader := .copy i n }
    else { c with reader := .idle }
  | .poll i n => if closed then { c with reader := .idle } else { c with reader := .test i n }
  | .copy i n =>
    { c with
      delivered := c.delivered ++ [c.pipe.buf (Pipe.index c.pipe.rpos)]
      reader := .bump i n }
  | .bump i n =>
    { c with
      pipe := { c.pipe with rpos := c.pipe.rpos + 1 }
      reader := .test (i + 1) n }

def writerStep (closed : Bool) (c : Channel) : Channel :=
  match c.writer with
  | .idle => c
  | .test i vbuf =>
    if i < vbuf.length then
      if c.pipe.isFull then { c with writer := .poll i vbuf } else { c with writer := .copy i vbuf }
    else { c with writer := .idle }
  | .poll i vbuf =>
    if closed then { c with writer := .idle } else { c with writer := .test i vbuf }
  | .copy i vbuf =>
    { c with
      pipe := { c.pipe with
        buf := Function.update c.pipe.buf (Pipe.index c.pipe.wpos) (vbuf.getD i 0) }
      stored := c.stored ++ [vbuf.getD i 0]
      writer := .bump i vbuf }
  | .bump i vbuf =>
    { c with
      pipe := { c.pipe with wpos := c.pipe.wpos + 1 }
      writer := .test (i + 1) vbuf }

end Channel

/-- A side that is outside of a call starts one; a side inside a call takes its next step. -/
inductive PipeEvent where
  | read (n : Nat)
  | reader (closed : Bool)
  | write (vbuf : List UInt8)
  | writer (closed : Bool)

def PipeEvent.exec : PipeEvent → Channel → Channel
  | .read n, c => if c.reader = .idle then { c with reader := .test 0 n } else c
  | .reader closed, c => c.readerStep closed
  | .write vbuf, c => if c.writer = .idle then { c with writer := .test 0 vbuf } else c
  | .writer closed, c => c.writerStep closed

def pipeMachine : Machine PipeEvent Channel where
  step := PipeEvent.exec
  halts _ _ := false

/-- Bytes copied whose position is not advanced yet. -/
def ReaderPc.pending : ReaderPc → Nat
  | .bump _ _ => 1
  | _ => 0

def WriterPc.pending : WriterPc → Nat
  | .bump _ _ => 1
  | _ => 0

/-- The side has passed its test and not advanced its position since. -/
def ReaderPc.Entered : ReaderPc → Prop
  | .copy _ _ | .bump _ _ => True
  | _ => False

def WriterPc.Entered : WriterPc → Prop
  | .copy _ _ | .bump _ _ => True
  | _ => False

/-- The ring holds the bytes that were stored and not released yet. -/
structure Channel.Sound (c : Channel) : Prop where
  taken : c.delivered.length = c.pipe.rpos.toNat + c.reader.pending
  put : c.stored.length = c.pipe.wpos.toNat + c.writer.pending
  order : c.pipe.rpos.toNat ≤ c.pipe.wpos.toNat
  room : c.pipe.wpos.toNat ≤ c.pipe.rpos.toNat + PIPEBUFSIZ
  reading : c.reader.Entered → c.pipe.rpos.toNat < c.pipe.wpos.toNat
  writing : c.writer.Entered → c.pipe.wpos.toNat < c.pipe.rpos.toNat + PIPEBUFSIZ
  window : ∀ k, c.pipe.rpos.toNat ≤ k → k < c.stored.length →
    c.stored[k]? = some (c.pipe.buf (k % PIPEBUFSIZ : Nat))
  front : c.delivered <+: c.stored

private theorem Channel.fresh_sound : Channel.fresh.Sound where
  taken := rfl
  put := rfl
  order := Nat.le_refl _
  room := by simp [Channel.fresh, PIPEBUFSIZ]
  reading h := h.elim
  writing h := h.elim
  window k _ h := absurd h (Nat.not_lt_zero k)
  front := List.prefix_refl []

private theorem Pipe.index_eq (pos : BitVec 32) (h : pos.toNat < 2 ^ 31) :
    Pipe.index pos = (pos.toNat % PIPEBUFSIZ : Nat) := by
  have hi : pos.toInt = (pos.toNat : Int) := by
    rw [BitVec.toInt_eq_toNat_cond, if_pos (by omega)]
  rw [Pipe.index, hi]
  rfl

private theorem toNat_succ (pos : BitVec 32) (h : pos.toNat < 2 ^ 31) :
    (pos + 1).toNat = pos.toNat + 1 := by
  rw [BitVec.toNat_add]
  exact Nat.mod_eq_of_lt (by simp; omega)

private theorem prefix_concat_of_getElem? {α : Type*} {xs ys : List α} {a : α} (h : xs <+: ys)
    (ha : ys[xs.length]? = some a) : xs ++ [a] <+: ys := by
  obtain ⟨zs, rfl⟩ := h
  cases zs with
  | nil => simp at ha
  | cons z zs =>
    have hz : z = a := by simpa using ha
    subst hz
    exact ⟨zs, by simp⟩

namespace Channel.Sound

variable {c : Channel}

theorem reader_pc (h : c.Sound) {pc : ReaderPc} (hp : pc.pending = c.reader.pending)
    (he : pc.Entered → c.pipe.rpos.toNat < c.pipe.wpos.toNat) :
    ({ c with reader := pc } : Channel).Sound :=
  { h with taken := by simpa [hp] using h.taken, reading := he }

theorem writer_pc (h : c.Sound) {pc : WriterPc} (hp : pc.pending = c.writer.pending)
    (he : pc.Entered → c.pipe.wpos.toNat < c.pipe.rpos.toNat + PIPEBUFSIZ) :
    ({ c with writer := pc } : Channel).Sound :=
  { h with put := by simpa [hp] using h.put, writing := he }

theorem lt_of_not_isEmpty (h : c.Sound) (he : c.pipe.isEmpty = false) :
    c.pipe.rpos.toNat < c.pipe.wpos.toNat := by
  have hne : c.pipe.rpos ≠ c.pipe.wpos := by simpa [Pipe.isEmpty] using he
  have hn : c.pipe.rpos.toNat ≠ c.pipe.wpos.toNat := fun e => hne (BitVec.eq_of_toNat_eq e)
  have := h.order
  omega

theorem lt_of_not_isFull (h : c.Sound) (hs : c.stored.length < 2 ^ 31)
    (hf : c.pipe.isFull = false) : c.pipe.wpos.toNat < c.pipe.rpos.toNat + PIPEBUFSIZ := by
  have hput := h.put
  have horder := h.order
  have hsum : (c.pipe.rpos + BitVec.ofNat 32 PIPEBUFSIZ).toNat
      = c.pipe.rpos.toNat + PIPEBUFSIZ := by
    rw [BitVec.toNat_add]
    exact Nat.mod_eq_of_lt (by simp [PIPEBUFSIZ]; omega)
  simpa [Pipe.isFull, hsum] using hf

private theorem copy_out (h : c.Sound) (hs : c.stored.length < 2 ^ 31) {i n : Nat}
    (hr : c.reader = .copy i n) : (c.readerStep false).Sound := by
  have hlt := h.reading (by rw [hr]; trivial)
  have htaken : c.delivered.length = c.pipe.rpos.toNat := by
    simpa [hr, ReaderPc.pending] using h.taken
  have hput := h.put
  have hidx := Pipe.index_eq c.pipe.rpos (by omega)
  have hbyte : c.stored[c.delivered.length]? = some (c.pipe.buf (Pipe.index c.pipe.rpos)) := by
    rw [htaken, hidx]
    exact h.window _ (Nat.le_refl _) (by omega)
  have hfront := prefix_concat_of_getElem? h.front hbyte
  simp only [readerStep, hr]
  exact { h with
    taken := by simpa [ReaderPc.pending] using htaken
    reading := fun _ => hlt
    front := hfront }

theorem bump_out (h : c.Sound) (hs : c.stored.length < 2 ^ 31) {i n : Nat}
    (hr : c.reader = .bump i n) : (c.readerStep false).Sound := by
  have hlt := h.reading (by rw [hr]; trivial)
  have hput := h.put
  have hroom := h.room
  have htaken : c.delivered.length = c.pipe.rpos.toNat + 1 := by
    simpa [hr, ReaderPc.pending] using h.taken
  have hsucc := toNat_succ c.pipe.rpos (by omega)
  simp only [readerStep, hr]
  refine { h with taken := ?_, order := ?_, room := ?_, reading := ?_, writing := ?_, window := ?_ }
  · rw [hsucc]; exact htaken
  · rw [hsucc]; exact hlt
  · rw [hsucc]; exact Nat.le_trans hroom (by omega)
  · exact fun he => he.elim
  · intro he
    rw [hsucc]
    exact Nat.lt_of_lt_of_le (h.writing he) (by omega)
  · intro k hk hk'
    rw [hsucc] at hk
    exact h.window k (by omega) hk'

private theorem copy_in (h : c.Sound) (hs : c.stored.length < 2 ^ 31) {i : Nat} {vbuf : List UInt8}
    (hw : c.writer = .copy i vbuf) : (c.writerStep false).Sound := by
  have hlt := h.writing (by rw [hw]; trivial)
  have hput : c.stored.length = c.pipe.wpos.toNat := by
    simpa [hw, WriterPc.pending] using h.put
  have hidx := Pipe.index_eq c.pipe.wpos (by omega)
  simp only [writerStep, hw]
  refine { h with put := ?_, writing := fun _ => hlt, window := ?_, front := ?_ }
  · simpa [WriterPc.pending] using hput
  · intro k hk hk'
    simp only [List.length_append, List.length_singleton] at hk hk'
    simp only [hidx]
    by_cases hkw : k = c.stored.length
    · subst hkw
      simp [hput]
    · have hcell : ((k % PIPEBUFSIZ : Nat) : Int) ≠ ((c.pipe.wpos.toNat % PIPEBUFSIZ : Nat) : Int) := by
        simp only [PIPEBUFSIZ] at hlt ⊢
        omega
      rw [List.getElem?_append_left (by omega), Function.update_of_ne hcell]
      exact h.window k hk (by omega)
  · exact h.front.trans (List.prefix_append _ _)

theorem bump_in (h : c.Sound) (hs : c.stored.length < 2 ^ 31) {i : Nat} {vbuf : List UInt8}
    (hw : c.writer = .bump i vbuf) : (c.writerStep false).Sound := by
  have hlt := h.writing (by rw [hw]; trivial)
  have horder := h.order
  have hput : c.stored.length = c.pipe.wpos.toNat + 1 := by
    simpa [hw, WriterPc.pending] using h.put
  have hsucc := toNat_succ c.pipe.wpos (by omega)
  simp only [writerStep, hw]
  refine { h with put := ?_, order := ?_, room := ?_, reading := ?_, writing := ?_ }
  · rw [hsucc]; exact hput
  · rw [hsucc]; exact Nat.le_succ_of_le horder
  · rw [hsucc]; exact hlt
  · intro he
    rw [hsucc]
    exact Nat.lt_succ_of_lt (h.reading he)
  · exact fun he => he.elim

theorem readerStep (h : c.Sound) (hs : c.stored.length < 2 ^ 31) (closed : Bool) :
    (c.readerStep closed).Sound := by
  cases hr : c.reader with
  | idle => simpa only [Channel.readerStep, hr] using h
  | test i n =>
    have hp : ReaderPc.idle.pending = c.reader.pending := by rw [hr]; rfl
    simp only [Channel.readerStep, hr]
    split_ifs with h1 h2 h3
    · exact h.reader_pc hp False.elim
    · exact h.reader_pc hp False.elim
    · exact h.reader_pc hp fun _ => h.lt_of_not_isEmpty (by simpa using h2)
    · exact h.reader_pc hp False.elim
  | poll i n =>
    have hp : ReaderPc.idle.pending = c.reader.pending := by rw [hr]; rfl
    simp only [Channel.readerStep, hr]
    split_ifs
    · exact h.reader_pc hp False.elim
    · exact h.reader_pc hp False.elim
  | copy i n => simpa only [Channel.readerStep, hr] using h.copy_out hs hr
  | bump i n => simpa only [Channel.readerStep, hr] using h.bump_out hs hr

theorem writerStep (h : c.Sound) (hs : c.stored.length < 2 ^ 31) (closed : Bool) :
    (c.writerStep closed).Sound := by
  cases hw : c.writer with
  | idle => simpa only [Channel.writerStep, hw] using h
  | test i vbuf =>
    have hp : WriterPc.idle.pending = c.writer.pending := by rw [hw]; rfl
    simp only [Channel.writerStep, hw]
    split_ifs with h1 h2
    · exact h.writer_pc hp False.elim
    · exact h.writer_pc hp fun _ => h.lt_of_not_isFull hs (by simpa using h2)
    · exact h.writer_pc hp False.elim
  | poll i vbuf =>
    have hp : WriterPc.idle.pending = c.writer.pending := by rw [hw]; rfl
    simp only [Channel.writerStep, hw]
    split_ifs
    · exact h.writer_pc hp False.elim
    · exact h.writer_pc hp False.elim
  | copy i vbuf => simpa only [Channel.writerStep, hw] using h.copy_in hs hw
  | bump i vbuf => simpa only [Channel.writerStep, hw] using h.bump_in hs hw

theorem exec (h : c.Sound) (hs : c.stored.length < 2 ^ 31) (e : PipeEvent) : (e.exec c).Sound := by
  cases e with
  | read n =>
    simp only [PipeEvent.exec]
    split_ifs with hr
    · exact h.reader_pc (by rw [hr]; rfl) False.elim
    · exact h
  | reader closed => exact h.readerStep hs closed
  | write vbuf =>
    simp only [PipeEvent.exec]
    split_ifs with hw
    · exact h.writer_pc (by rw [hw]; rfl) False.elim
    · exact h
  | writer closed => exact h.writerStep hs closed

end Channel.Sound

private theorem PipeEvent.stored_le (e : PipeEvent) (c : Channel) :
    c.stored.length ≤ (e.exec c).stored.length := by
  cases e with
  | read n => simp only [PipeEvent.exec]; split_ifs <;> rfl
  | reader closed =>
    simp only [PipeEvent.exec, Channel.readerStep]
    split <;> (try split_ifs) <;> rfl
  | write vbuf => simp only [PipeEvent.exec]; split_ifs <;> rfl
  | writer closed =>
    simp only [PipeEvent.exec, Channel.writerStep]
    split <;> (try split_ifs) <;> simp

private theorem pipe_sound (events : List PipeEvent) :
    (pipeMachine.run events .fresh).stored.length < 2 ^ 31 →
      (pipeMachine.run events .fresh).Sound := by
  apply Machine.run_always (I := fun c : Channel => c.stored.length < 2 ^ 31 → c.Sound)
  · intro e c h hs
    have hc := Nat.lt_of_le_of_lt (e.stored_le c) hs
    exact (h hc).exec hc e
  · exact fun _ => Channel.fresh_sound

/-- After any interleaving of the steps of the two sides, the positions are at most one ring
apart, and what the reader got is a prefix of what the writer stored. -/
theorem pipe_fifo (events : List PipeEvent)
    (h : (pipeMachine.run events .fresh).stored.length < 2 ^ 31) :
    let c := pipeMachine.run events .fresh
    0 ≤ c.pipe.wpos.toInt - c.pipe.rpos.toInt ∧
      c.pipe.wpos.toInt - c.pipe.rpos.toInt ≤ PIPEBUFSIZ ∧ c.delivered <+: c.stored := by
  have hsound := pipe_sound events h
  have hput := hsound.put
  have horder := hsound.order
  have hroom := hsound.room
  have hw : (pipeMachine.run events .fresh).pipe.wpos.toInt
      = ((pipeMachine.run events .fresh).pipe.wpos.toNat : Int) := by
    rw [BitVec.toInt_eq_toNat_cond, if_pos (by omega)]
  have hr : (pipeMachine.run events .fresh).pipe.rpos.toInt
      = ((pipeMachine.run events .fresh).pipe.rpos.toNat : Int) := by
    rw [BitVec.toInt_eq_toNat_cond, if_pos (by omega)]
  refine ⟨?_, ?_, hsound.front⟩
  · omega
  · omega

/-- A writer that is still inside its second byte while the reader has taken the first one. -/
def pipeOverlap : List PipeEvent :=
  [.write [7, 8], .writer false, .writer false, .read 4, .writer false, .reader false,
    .writer false, .writer false, .reader false]

theorem pipe_fifo_overlap :
    let c := pipeMachine.run pipeOverlap .fresh
    c.stored = [7, 8] ∧ c.delivered = [7] ∧
      0 ≤ c.pipe.wpos.toInt - c.pipe.rpos.toInt ∧
      c.pipe.wpos.toInt - c.pipe.rpos.toInt ≤ PIPEBUFSIZ ∧ c.delivered <+: c.stored :=
  ⟨by decide, by decide, pipe_fifo pipeOverlap (by decide)⟩

end DamnOS.User
