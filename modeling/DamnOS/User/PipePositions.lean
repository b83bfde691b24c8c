import DamnOS.User.Pipe

/-!
# Positions of a pipe beyond two gigabytes

The remainder of a position is taken of a signed word, and the test for a full ring compares unsigned words.
Both are followed through any amount of traffic, up to the position where the writer stops for good.
-/

namespace DamnOS.User

open DamnOS.Framework

def Pipe.pending (p : Pipe) : Nat := (p.wpos - p.rpos).toNat

/-- The index is inside of the buffer, and the next position has the next index of the ring. -/
def IndexOrderly (pos : BitVec 32) : Prop :=
  (0 ≤ Pipe.index pos ∧ Pipe.index pos < PIPEBUFSIZ) ∧
    Pipe.index (pos + 1) ≡ Pipe.index pos + 1 [ZMOD PIPEBUFSIZ]

/-- Both positions have a place in the buffer, and the test for a full ring counts the pending bytes. -/
def Pipe.Orderly (p : Pipe) : Prop :=
  IndexOrderly p.rpos ∧ IndexOrderly p.wpos ∧ (p.isFull = true ↔ p.pending = PIPEBUFSIZ)

private theorem index_modEq (pos : BitVec 32) : Pipe.index pos ≡ pos.toNat [ZMOD PIPEBUFSIZ] := by
  have hmod : pos.toInt ≡ pos.toNat [ZMOD PIPEBUFSIZ] := by
    rw [Int.modEq_iff_dvd, BitVec.toInt_eq_toNat_cond]
    simp only [PIPEBUFSIZ]
    split
    · omega
    · omega
  apply Int.ModEq.trans _ hmod
  rw [Int.modEq_iff_dvd, Pipe.index, Int.tmod_def]
  exact ⟨pos.toInt.tdiv PIPEBUFSIZ, by ring⟩

theorem index_succ (pos : BitVec 32) : Pipe.index (pos + 1) ≡ Pipe.index pos + 1 [ZMOD PIPEBUFSIZ] := by
  apply (index_modEq (pos + 1)).trans
  apply Int.ModEq.trans _ ((index_modEq pos).add_right 1).symm
  have hsucc : (pos + 1).toNat = (pos.toNat + 1) % 2 ^ 32 := BitVec.toNat_add pos 1
  rw [Int.modEq_iff_dvd, hsucc]
  simp only [PIPEBUFSIZ]
  omega

private theorem indexOrderly_iff (pos : BitVec 32) :
    IndexOrderly pos ↔ pos.toNat < 2 ^ 31 ∨ PIPEBUFSIZ ∣ pos.toNat := by
  have hlt := pos.isLt
  rw [IndexOrderly, and_iff_left (index_succ pos), Pipe.index, BitVec.toInt_eq_toNat_cond]
  split
  · next h =>
    rw [Int.tmod_eq_emod_of_nonneg (Int.natCast_nonneg _)]
    simp only [PIPEBUFSIZ]
    omega
  · next h =>
    -- the remainder of a negative number is not positive
    have hneg : ((pos.toNat : Int) - (2 ^ 32 : Nat)).tmod PIPEBUFSIZ =
        -((2 ^ 32 - pos.toNat : Int) % PIPEBUFSIZ) := by
      rw [← Int.tmod_eq_emod_of_nonneg (by omega), ← Int.neg_tmod]
      congr 1
      omega
    rw [hneg]
    simp only [PIPEBUFSIZ]
    omega

/-- The test counts the pending bytes unless the writer is past the place where its sum points to. -/
theorem isFull_iff_pending (p : Pipe) : (p.isFull = true ↔ p.pending = PIPEBUFSIZ) ↔
    p.wpos.toNat ≤ (p.rpos + BitVec.ofNat 32 PIPEBUFSIZ).toNat := by
  have hsum : p.pending = PIPEBUFSIZ ↔ p.wpos.toNat = (p.rpos + BitVec.ofNat 32 PIPEBUFSIZ).toNat := by
    simp only [Pipe.pending, PIPEBUFSIZ]
    bv_omega
  rw [hsum, Pipe.isFull, decide_eq_true_eq]
  omega

theorem orderly_iff (p : Pipe) : p.Orderly ↔
    (p.rpos.toNat < 2 ^ 31 ∨ PIPEBUFSIZ ∣ p.rpos.toNat) ∧ (p.wpos.toNat < 2 ^ 31 ∨ PIPEBUFSIZ ∣ p.wpos.toNat) ∧
      p.wpos.toNat ≤ (p.rpos + BitVec.ofNat 32 PIPEBUFSIZ).toNat := by
  rw [Pipe.Orderly, indexOrderly_iff, indexOrderly_iff, isFull_iff_pending]

/-- The writer is at most one ring ahead, and its position never wraps around. -/
structure Channel.Spaced (c : Channel) : Prop where
  order : c.pipe.rpos.toNat ≤ c.pipe.wpos.toNat
  room : c.pipe.wpos.toNat ≤ c.pipe.rpos.toNat + PIPEBUFSIZ
  reading : c.reader.Entered → c.pipe.rpos.toNat < c.pipe.wpos.toNat
  writing : c.writer.Entered →
    c.pipe.wpos.toNat < c.pipe.rpos.toNat + PIPEBUFSIZ ∧ c.pipe.wpos.toNat + 1 < 2 ^ 32

namespace Channel.Spaced

variable {c : Channel}

theorem fresh : Channel.fresh.Spaced where
  order := Nat.le_refl _
  room := by simp [Channel.fresh, PIPEBUFSIZ]
  reading h := h.elim
  writing h := h.elim

theorem reader_pc (h : c.Spaced) {pc : ReaderPc} (he : pc.Entered → c.pipe.rpos.toNat < c.pipe.wpos.toNat) :
    ({ c with reader := pc } : Channel).Spaced :=
  { h with reading := he }

theorem writer_pc (h : c.Spaced) {pc : WriterPc} (he : pc.Entered →
    c.pipe.wpos.toNat < c.pipe.rpos.toNat + PIPEBUFSIZ ∧ c.pipe.wpos.toNat + 1 < 2 ^ 32) :
    ({ c with writer := pc } : Channel).Spaced :=
  { h with writing := he }

theorem lt_of_not_isEmpty (h : c.Spaced) (he : c.pipe.isEmpty = false) :
    c.pipe.rpos.toNat < c.pipe.wpos.toNat := by
  have hne : c.pipe.rpos ≠ c.pipe.wpos := by simpa [Pipe.isEmpty] using he
  exact lt_of_le_of_ne h.order fun e => hne (BitVec.eq_of_toNat_eq e)

/-- A sum that wraps around is below the writer, so the test passes only without a wrap. -/
theorem lt_of_not_isFull (h : c.Spaced) (hf : c.pipe.isFull = false) :
    c.pipe.wpos.toNat < c.pipe.rpos.toNat + PIPEBUFSIZ ∧ c.pipe.wpos.toNat + 1 < 2 ^ 32 := by
  have horder := h.order
  have hlt := c.pipe.rpos.isLt
  have hfull : c.pipe.wpos.toNat < (c.pipe.rpos + BitVec.ofNat 32 PIPEBUFSIZ).toNat := by
    simpa [Pipe.isFull] using hf
  rw [BitVec.toNat_add] at hfull
  simp only [PIPEBUFSIZ, BitVec.toNat_ofNat] at hfull ⊢
  omega

theorem bump_out (h : c.Spaced) {i n : Nat} (hr : c.reader = .bump i n) : (c.readerStep false).Spaced := by
  have hlt := h.reading (by rw [hr]; trivial)
  have hw := c.pipe.wpos.isLt
  have hroom := h.room
  have hsucc : (c.pipe.rpos + 1).toNat = c.pipe.rpos.toNat + 1 := by bv_omega
  simp only [readerStep, hr]
  refine { h with order := ?_, room := ?_, reading := ?_, writing := ?_ }
  · rw [hsucc]
    exact hlt
  · rw [hsucc]
    exact hroom.trans (by omega)
  · intro he
    exact he.elim
  · intro he
    obtain ⟨hbelow, hwrap⟩ := h.writing he
    rw [hsucc]
    exact ⟨hbelow.trans (by omega), hwrap⟩

theorem bump_in (h : c.Spaced) {i : Nat} {vbuf : List UInt8} (hw : c.writer = .bump i vbuf) :
    (c.writerStep false).Spaced := by
  obtain ⟨hlt, hwrap⟩ := h.writing (by rw [hw]; trivial)
  have horder := h.order
  have hsucc : (c.pipe.wpos + 1).toNat = c.pipe.wpos.toNat + 1 := by bv_omega
  simp only [writerStep, hw]
  refine { h with order := ?_, room := ?_, reading := ?_, writing := ?_ }
  · rw [hsucc]
    exact Nat.le_succ_of_le horder
  · rw [hsucc]
    exact hlt
  · intro he
    rw [hsucc]
    exact Nat.lt_succ_of_lt (h.reading he)
  · intro he
    exact he.elim

theorem readerStep (h : c.Spaced) (closed : Bool) : (c.readerStep closed).Spaced := by
  cases hr : c.reader with
  | idle => simpa only [Channel.readerStep, hr] using h
  | test i n =>
    simp only [Channel.readerStep, hr]
    split_ifs with h1 h2 h3
    · exact h.reader_pc False.elim
    · exact h.reader_pc False.elim
    · exact h.reader_pc fun _ => h.lt_of_not_isEmpty (by simpa using h2)
    · exact h.reader_pc False.elim
  | poll i n =>
    simp only [Channel.readerStep, hr]
    split_ifs
    · exact h.reader_pc False.elim
    · exact h.reader_pc False.elim
  | copy i n =>
    simp only [Channel.readerStep, hr]
    exact { h with reading := fun _ => h.reading (by rw [hr]; trivial) }
  | bump i n => simpa only [Channel.readerStep, hr] using h.bump_out hr

theorem writerStep (h : c.Spaced) (closed : Bool) : (c.writerStep closed).Spaced := by
  cases hw : c.writer with
  | idle => simpa only [Channel.writerStep, hw] using h
  | test i vbuf =>
    simp only [Channel.writerStep, hw]
    split_ifs with h1 h2
    · exact h.writer_pc False.elim
    · exact h.writer_pc fun _ => h.lt_of_not_isFull (by simpa using h2)
    · exact h.writer_pc False.elim
  | poll i vbuf =>
    simp only [Channel.writerStep, hw]
    split_ifs
    · exact h.writer_pc False.elim
    · exact h.writer_pc False.elim
  | copy i vbuf =>
    simp only [Channel.writerStep, hw]
    exact { h with writing := fun _ => h.writing (by rw [hw]; trivial) }
  | bump i vbuf => simpa only [Channel.writerStep, hw] using h.bump_in hw

theorem exec (h : c.Spaced) (e : PipeEvent) : (e.exec c).Spaced := by
  cases e with
  | read n =>
    simp only [PipeEvent.exec]
    split_ifs
    · exact h.reader_pc False.elim
    · exact h
  | reader closed => exact h.readerStep closed
  | write vbuf =>
    simp only [PipeEvent.exec]
    split_ifs
    · exact h.writer_pc False.elim
    · exact h
  | writer closed => exact h.writerStep closed

theorem run (events : List PipeEvent) : (pipeMachine.run events .fresh).Spaced :=
  Machine.run_always (I := Channel.Spaced) (fun e _ h => h.exec e) events fresh

end Channel.Spaced

/-- After any traffic: the indices are those of a ring while no position counts as negative, apart from the
multiples of the size; and the test for a full ring is exact until the sum in it wraps around. -/
theorem pipe_positions_iff (events : List PipeEvent) :
    let p := (pipeMachine.run events .fresh).pipe
    p.Orderly ↔ (p.rpos.toNat < 2 ^ 31 ∨ PIPEBUFSIZ ∣ p.rpos.toNat) ∧
      (p.wpos.toNat < 2 ^ 31 ∨ PIPEBUFSIZ ∣ p.wpos.toNat) ∧ p.rpos.toNat < 2 ^ 32 - PIPEBUFSIZ := by
  intro p
  have hspaced := Channel.Spaced.run events
  have horder : p.rpos.toNat ≤ p.wpos.toNat := hspaced.order
  have hroom : p.wpos.toNat ≤ p.rpos.toNat + PIPEBUFSIZ := hspaced.room
  have hlt := p.rpos.isLt
  have hwrap : p.wpos.toNat ≤ (p.rpos + BitVec.ofNat 32 PIPEBUFSIZ).toNat ↔
      p.rpos.toNat < 2 ^ 32 - PIPEBUFSIZ := by
    rw [BitVec.toNat_add]
    simp only [PIPEBUFSIZ, BitVec.toNat_ofNat] at hroom ⊢
    omega
  rw [orderly_iff, hwrap]

def passByte : List PipeEvent :=
  [.write [0], .writer false, .writer false, .writer false, .writer false,
    .read 1, .reader false, .reader false, .reader false, .reader false]

/-- Nobody is inside a call, and `n` bytes have passed. -/
def Carried (n : Nat) (c : Channel) : Prop :=
  c.reader = .idle ∧ c.writer = .idle ∧ c.pipe.rpos = BitVec.ofNat 32 n ∧ c.pipe.wpos = BitVec.ofNat 32 n

private theorem Carried.passByte {n : Nat} {c : Channel} (h : Carried n c) (hn : n < 2 ^ 32 - PIPEBUFSIZ) :
    Carried (n + 1) (pipeMachine.run passByte c) := by
  obtain ⟨⟨r, w, buf⟩, reader, writer, delivered, stored⟩ := c
  obtain ⟨rfl, rfl, rfl, rfl⟩ := h
  simp only [PIPEBUFSIZ] at hn
  have hroom (ring : Int → UInt8) :
      Pipe.isFull ⟨BitVec.ofNat 32 n, BitVec.ofNat 32 n, ring⟩ = false := by
    apply decide_eq_false
    simp only [PIPEBUFSIZ]
    bv_omega
  have hsome (ring : Int → UInt8) :
      Pipe.isEmpty ⟨BitVec.ofNat 32 n, BitVec.ofNat 32 (n + 1), ring⟩ = false := by
    simp only [Pipe.isEmpty, beq_eq_false_iff_ne]
    bv_omega
  have hsucc : BitVec.ofNat 32 n + 1#32 = BitVec.ofNat 32 (n + 1) := by
    bv_omega
  simp [User.passByte, Machine.run, pipeMachine, PipeEvent.exec, Channel.writerStep, Channel.readerStep, hroom,
    hsome, Carried, hsucc]

theorem exists_carried {n : Nat} (hn : n ≤ 2 ^ 32 - PIPEBUFSIZ) :
    ∃ events, Carried n (pipeMachine.run events .fresh) := by
  induction n with
  | zero => exact ⟨[], rfl, rfl, rfl, rfl⟩
  | succ n ih =>
    obtain ⟨events, h⟩ := ih (by omega)
    refine ⟨events ++ passByte, ?_⟩
    rw [Machine.run_append pipeMachine fun _ _ _ => rfl]
    exact h.passByte (by omega)

/-- After two gigabytes and one byte the index of the reader is -31. -/
theorem pipe_positions_negative : ¬ ∀ events, (pipeMachine.run events .fresh).pipe.Orderly := by
  intro hall
  obtain ⟨events, -, -, hr, -⟩ := exists_carried (n := 2 ^ 31 + 1) (by decide)
  have hindex := (hall events).1.1.1
  rw [hr] at hindex
  exact absurd hindex (by decide)

end DamnOS.User
