import DamnOS.FileSystem.WriteThrough
import DamnOS.FileSystem.Transfer

/-!
# Offset safety

The seek position is a signed number of the client's choice, and the loops of `file_read` and
`file_write` compare and divide it as it is.  Positions inside the range of the block index are
handled properly.  A negative or a huge offset either copies nothing although the call reports
success, or reaches bytes outside the positions asked for.
-/

namespace DamnOS.FileSystem

open DamnOS.Framework

/-- Every byte accessed in the file is at a position that was asked for, and a positive return
value counts the positions from `offset` on that were taken. -/
def OffsetSafe (offset : Int) (count : Nat) (m : M Int) (w : World) : Prop :=
  (∀ x ∈ newAccesses w (final m w), ∀ i < x.len, ∃ p : Nat, offset ≤ p ∧ (p : Int) < offset + count ∧
    p < NDIRECT * BLKSIZE ∧ x.addr + i = x.place p) ∧
  ∀ r v, m w = .ok r v → 0 < r → 0 ≤ offset ∧
    Pieces offset.toNat (newAccesses w v) (offset + r).toNat

/-- `file_get_block` has a block for slot `j` of inode `k`. -/
def Meta.Gives (m : Meta) (k j : Nat) : Prop :=
  j < NDIRECT ∧ (m.slot k j ≠ 0 ∨ ∃ b < m.blkNum, m.blkOcp b = false)

/-- The same once the file was cut to `newsize`: the blocks cut off are free. -/
def Meta.GivesAfter (m : Meta) (k : Nat) (newsize : Int) (j : Nat) : Prop :=
  j < NDIRECT ∧ (m.slot k j ≠ 0 ∨ (∃ b < m.blkNum, m.blkOcp b = false) ∨
    ∃ i ∈ cutRange (m.inode k).size newsize, m.slot k i ≠ 0)

instance (m : Meta) (k j : Nat) : Decidable (m.Gives k j) := inferInstanceAs (Decidable (_ ∧ _))

instance (m : Meta) (k : Nat) (newsize : Int) (j : Nat) : Decidable (m.GivesAfter k newsize j) :=
  inferInstanceAs (Decidable (_ ∧ _))

/-- The reads that go wrong: from a negative offset past the start of the file, and from a
negative offset to another, if there is a block for the truncated index. -/
def ReadStrays (m : Meta) (k count : Nat) (offset : Int) : Prop :=
  offset < 0 ∧ (0 ≤ offset + count ∧ min (count : Int) ((m.inode k).size - offset) < 2147483648 ∨
    offset + count < 0 ∧ 0 < count ∧ m.Gives k (toU16 (offset.tdiv BLKSIZE)))

/-- The writes that go wrong, for an entry whose block can be flushed. -/
def WriteStrays (m : Meta) (f k count : Nat) (offset : Int) : Prop :=
  (DISKMAP ≤ f ∧ f < DISKMAP + DISKSIZE) ∧ 0 < count ∧
    (offset < 0 ∧ 0 ≤ offset + count ∧ count < 2147483648 ∨
      (offset < 0 ∧ offset + count < 0 ∨ 268435456 ≤ offset ∧ offset + count < 4294967296) ∧
        m.GivesAfter k (toS32 (toU32 (offset + count))) (toU16 (offset.tdiv BLKSIZE)))

section OffsetSafe

variable {offset : Int} {count : Nat} {m : M Int} {w : World}

private theorem offsetSafe_of_unlogged (h : (final m w).accesses = w.accesses)
    (hr : ∀ r v, m w = .ok r v → r ≤ 0) : OffsetSafe offset count m w := by
  constructor
  · rw [newAccesses_unlogged h]
    simp
  · intro r v hv hpos
    exact absurd (hr r v hv) (by omega)

private theorem not_offsetSafe_of_unlogged (h : (final m w).accesses = w.accesses) {r : Int} {v : World}
    (hr : m w = .ok r v) (hpos : 0 < r) : ¬OffsetSafe offset count m w := by
  rintro ⟨-, hret⟩
  obtain ⟨h0, hp⟩ := hret r v hr hpos
  rw [final_ok hr] at h
  rw [newAccesses_unlogged h] at hp
  simp only [Pieces] at hp
  omega

private theorem not_offsetSafe_of_access {x : Access} (hx : x ∈ newAccesses w (final m w)) (hlen : 0 < x.len)
    (hrange : offset + count ≤ 0 ∨ 268435456 ≤ offset) : ¬OffsetSafe offset count m w := by
  rintro ⟨hall, -⟩
  obtain ⟨p, hlo, hhi, hp, -⟩ := hall x hx 0 hlen
  simp only [NDIRECT, BLKSIZE] at hp
  omega

private theorem offsetSafe_of_pieces {a e : Nat} {xs : List Access}
    (h : (final m w).accesses = xs.reverse ++ w.accesses) (hp : Pieces a xs e)
    (ha : offset = a) (he : (e : Int) ≤ offset + count)
    (hr : ∀ r v, m w = .ok r v → 0 < r → (e : Int) = offset + r) : OffsetSafe offset count m w := by
  have hnew := newAccesses_eq h
  constructor
  · rw [hnew]
    intro x hx i hi
    obtain ⟨p, hlo, hhi, hin, hplace⟩ := hp.position hx hi
    exact ⟨p, by omega, by omega, hin, hplace⟩
  · intro r v hv hpos
    have hret := hr r v hv hpos
    rw [final_ok hv] at hnew
    rw [hnew, ← hret, ha]
    exact ⟨by omega, by simpa using hp⟩

end OffsetSafe

private theorem newAccesses_bind {α β : Type} {w : World} (m : M α) (f : α → M β)
    [hm : Keeps Grows m] [hf : ∀ a, Keeps Grows (f a)] :
    newAccesses w (final m w) ⊆ newAccesses w (final (m >>= f) w) := by
  have hgrow : Grows (final m w) (final (m >>= f) w) := by
    cases hr : m w with
    | ok a t =>
      rw [final_ok hr, final, bind_ok hr]
      exact (hf a).final t
    | error e t =>
      rw [final_error hr, final_error (bind_error hr)]
      exact Grows.refl t
  obtain ⟨l, hl⟩ := (hm.final w).accesses
  obtain ⟨l', hl'⟩ := hgrow.accesses
  have h1 : (final m w).accesses = l.reverse.reverse ++ w.accesses := by simp [hl]
  have h2 : (final (m >>= f) w).accesses = (l' ++ l).reverse.reverse ++ w.accesses := by
    simp [← hl', ← hl]
  rw [newAccesses_eq h1, newAccesses_eq h2]
  intro x hx
  simp only [List.reverse_append, List.mem_append]
  exact Or.inl hx

theorem obtain_of_gives {N : Nat} {w : World} (h : Sane N w) {k j : Nat} (hg : w.cached.Gives k j) :
    ∃ b, w.obtain k j = some b :=
  Option.isSome_iff_exists.mp ((obtain_isSome_iff h).mpr hg)

private theorem obtain_of_not_gives {N : Nat} {w : World} (h : Sane N w) {k j : Nat}
    (hg : ¬w.cached.Gives k j) : w.obtain k j = none := by
  rw [← Option.not_isSome_iff_eq_none, obtain_isSome_iff h]
  exact hg

/-- The first round of the loop records an access if there is a block. -/
theorem copyLoop_first {N : Nat} {w : World} (h : Sane N w) {k : Nat} (hk : k < N) (wr : Bool)
    {stop : Nat} (fuel : Nat) {pos : Int} (buf : Nat) (hrun : toU32 pos < stop)
    (hg : w.cached.Gives k (toU16 (pos.tdiv BLKSIZE))) :
    ∃ x, x.len = chunk pos stop ∧ x.buf = buf ∧
      x ∈ newAccesses w (final (copyLoop wr (inodeVa k) stop (fuel + 1) pos buf) w) := by
  obtain ⟨b, hb⟩ := obtain_of_gives h hg
  have hget := fileGetBlock_obtain h hk hb
  have hacc := (obtains h hk hb).accesses
  rcases copyLoop_cases wr (inodeVa k) fuel buf w hrun with ⟨e, t, hno, -⟩ | ⟨blk, t, x, hyes, hx, hc⟩
  · rw [hget] at hno
    cases hno
  · rw [hget] at hyes
    cases hyes
    have hlog : (World.log (w.obtained k (toU16 (pos.tdiv BLKSIZE)) b) x).accesses =
        x :: w.accesses := congrArg (List.cons x) hacc
    refine ⟨x, by simp [hx], by simp [hx], ?_⟩
    rw [newAccesses_step hlog]
    · simp
    · rcases hc with ⟨e, s, hcopy, hr⟩ | ⟨s, hcopy, hr⟩
      · rw [final_error hr]
        exact Keeps.of_error hcopy
      · rw [final, hr]
        exact (Keeps.of_ok (R := Grows) hcopy).trans ((keeps_copyLoop _ _ _ _ _ _).final s)

theorem copyLoop_none {N : Nat} {w : World} (h : Sane N w) {k : Nat} (hk : k < N) (wr : Bool)
    {stop : Nat} (fuel : Nat) {pos : Int} (buf : Nat) (hrun : toU32 pos < stop)
    (hg : ¬w.cached.Gives k (toU16 (pos.tdiv BLKSIZE))) :
    ∃ e, copyLoop wr (inodeVa k) stop (fuel + 1) pos buf w = .error e w := by
  have hget := fileGetBlock_fail h hk (obtain_of_not_gives h hg)
  rcases copyLoop_cases wr (inodeVa k) fuel buf w hrun with ⟨e, t, hno, hr⟩ | ⟨blk, t, x, hyes, -⟩
  · rw [hget] at hno
    cases hno
    exact ⟨_, hr⟩
  · rw [hget] at hyes
    cases hyes

section Loop

variable {N : Nat} {w : World} (h : Sane N w) {k : Nat} (hk : k < N) (wr : Bool) {stop : Nat}
  (fuel buf : Nat) {offset : Int} {count : Nat} {tail : M Int}

omit h hk in
private theorem offsetSafe_done [hu : Keeps Unlogged tail] (hrun : ¬toU32 offset < stop) :
    OffsetSafe offset count
      (copyLoop wr (inodeVa k) stop fuel offset buf >>= fun _ => tail) w ↔
        ∀ r v, tail w = .ok r v → r ≤ 0 := by
  have he : (copyLoop wr (inodeVa k) stop fuel offset buf >>= fun _ => tail) w = tail w :=
    bind_ok (copyLoop_done wr fuel buf hrun w)
  have hacc : (final (copyLoop wr (inodeVa k) stop fuel offset buf >>= fun _ => tail) w).accesses =
      w.accesses := by
    rw [final, he]
    exact hu.final w
  constructor
  · intro hsafe r v hv
    by_contra hpos
    exact not_offsetSafe_of_unlogged hacc (he.trans hv) (by omega) hsafe
  · intro hr
    exact offsetSafe_of_unlogged hacc fun r v hv => hr r v (he.symm.trans hv)

include h hk in
private theorem offsetSafe_bad [Keeps Grows tail] (hrun : toU32 offset < stop) (hstop : stop < 4294967296)
    (hrange : offset + count ≤ 0 ∨ 268435456 ≤ offset) :
    OffsetSafe offset count
      (copyLoop wr (inodeVa k) stop (fuel + 1) offset buf >>= fun _ => tail) w ↔
        ¬w.cached.Gives k (toU16 (offset.tdiv BLKSIZE)) := by
  constructor
  · intro hsafe hg
    obtain ⟨x, hx, -, hmem⟩ := copyLoop_first h hk wr fuel buf hrun hg
    have hsub := newAccesses_bind (w := w) (copyLoop wr (inodeVa k) stop (fuel + 1) offset buf)
      (fun _ => tail)
    exact not_offsetSafe_of_access (hsub hmem) (hx ▸ chunk_pos hrun hstop) hrange hsafe
  · intro hg
    obtain ⟨e, he⟩ := copyLoop_none h hk wr fuel buf hrun hg
    refine offsetSafe_of_unlogged ?_ ?_
    · rw [final_error (bind_error he)]
    · intro r v hv
      rw [bind_error he] at hv
      cases hv

omit h hk in
private theorem offsetSafe_good [hu : Keeps Unlogged tail] {a c : Nat} (ha : offset = a) (hlim : a < 268435456)
    (hstop : stop = a + c) (hbound : stop < 4294967296) (hc : c ≤ count) (hfuel : c < fuel)
    (hr : ∀ v r u, tail v = .ok r u → 0 < r → r = c) :
    OffsetSafe offset count
      (copyLoop wr (inodeVa k) stop fuel offset buf >>= fun _ => tail) w := by
  obtain ⟨xs, e, hxs, hp, he, hok⟩ := copyLoop_pieces wr (inodeVa k) hbound fuel buf w
    (by omega : a ≤ stop) hlim (by omega)
  rw [ha]
  cases hloop : copyLoop wr (inodeVa k) stop fuel a buf w with
  | error x t =>
    rw [final_error hloop] at hxs
    refine offsetSafe_of_pieces ?_ hp rfl (by omega) fun r v hv => ?_
    · rw [final_error (bind_error hloop), hxs]
    · rw [bind_error hloop] at hv
      cases hv
  | ok _ t =>
    rw [final_ok hloop] at hxs
    refine offsetSafe_of_pieces ?_ hp rfl (by omega) fun r v hv hpos => ?_
    · rw [final, bind_ok hloop, ← hxs]
      exact hu.final t
    · rw [bind_ok hloop] at hv
      rw [hok t hloop, hr t r v hv hpos, hstop]
      omega

end Loop

section Calls

variable {N : Nat} {w : World} (h : Sane N w) {f : Nat} (hk : w.inInd f < N) (hm : EntryMapped f w)
include h hk hm

theorem fileRead_run (buf count : Nat) (offset : Int) : fileRead f buf count offset w =
    (if ((w.cached.inode (w.inInd f)).size : Int) ≤ offset then pure 0 else do
      let c := min count (toU32 ((w.cached.inode (w.inInd f)).size - offset))
      copyLoop false (inodeVa (w.inInd f)) (toU32 (offset + c)) (c + 1) offset buf
      pure (toS32 c) : M Int) (w.follow (w.inInd f)) := by
  have hs : Sane N (w.follow (w.inInd f)) := h.of_cached (h.ready.of_present rfl) (cached_of_byte rfl)
  have hsize := load16_size hs.ready (hs.lt hk)
  rw [show (w.follow (w.inInd f)).cached = w.cached from cached_of_byte rfl] at hsize
  rw [fileRead, bind_ok (inodeOf_run hm), bind_ok hsize]
  simp only [readLoop_eq]

omit h hk hm in
private theorem offsetSafe_congr {offset : Int} {count : Nat} {m n : M Int} {v : World}
    (hrun : m w = n v) (hacc : v.accesses = w.accesses) :
    OffsetSafe offset count m w ↔ OffsetSafe offset count n v := by
  unfold OffsetSafe newAccesses final
  rw [hrun, hacc]

private theorem fileRead_offsetSafe_iff (buf : Nat) {count : Nat} {offset : Int} (hlo : -2147483648 ≤ offset)
    (hc : count < 4294967296) : OffsetSafe offset count (fileRead f buf count offset) w ↔
      ¬ReadStrays w.cached (w.inInd f) count offset := by
  have hs : Sane N (w.follow (w.inInd f)) := h.of_cached (h.ready.of_present rfl) (cached_of_byte rfl)
  have hsz := size_lt w (w.inInd f)
  have hrun := fileRead_run h hk hm buf count offset
  unfold ReadStrays
  generalize (w.cached.inode (w.inInd f)).size = size at *
  split_ifs at hrun with hend
  · rw [offsetSafe_congr (v := w.follow (w.inInd f)) hrun rfl]
    refine iff_of_true (offsetSafe_of_unlogged rfl fun r v hv => ?_) (by omega)
    cases hv
    decide
  rw [offsetSafe_congr (v := w.follow (w.inInd f)) hrun rfl]
  have hleft : (toU32 (size - offset) : Int) = size - offset := by
    unfold toU32
    omega
  generalize hcl : min count (toU32 (size - offset)) = c
  rcases Int.lt_or_le offset 0 with hneg | hpos
  · rcases Int.lt_or_le (offset + count) 0 with hbelow | hover
    · -- the range lies before the file, and the whole count stays
      have hcc : c = count := by omega
      subst hcc
      rcases Nat.eq_zero_or_pos c with rfl | hcpos
      · rw [offsetSafe_done false _ buf (by simp)]
        refine iff_of_true (fun r v hv => ?_) (by omega)
        cases hv
        decide
      · have hstart : toU32 offset < toU32 (offset + c) := by
          unfold toU32
          omega
        rw [offsetSafe_bad hs hk false c buf hstart (toU32_lt _) (by omega)]
        simp only [hneg, hbelow, hcpos, true_and, Int.not_le.mpr hbelow, false_and, false_or]
        exact Iff.rfl
    · -- the unsigned comparison skips the loop
      rw [offsetSafe_done false _ buf (by unfold toU32; omega)]
      have hret : (∀ r v, (pure (toS32 c) : M Int) (w.follow (w.inInd f)) = .ok r v → r ≤ 0) ↔
          toS32 c ≤ 0 := by
        constructor
        · intro hr
          exact hr _ _ rfl
        · intro hr r v hv
          cases hv
          exact hr
      rw [hret]
      unfold toS32
      split_ifs <;> omega
  · -- an ordinary read
    refine iff_of_true ?_ (by omega)
    refine offsetSafe_good false (c + 1) buf (a := offset.toNat) (c := c) (by omega) (by omega) ?_
      (toU32_lt _) (by omega) (by omega) fun v r u hv _ => ?_
    · unfold toU32
      omega
    · cases hv
      unfold toS32
      split_ifs <;> omega

/-- The metadata when the loop of `file_write` starts: the size was set if it was below `stop`, a
signed number for `file_set_size`. -/
def Meta.extended (m : Meta) (k stop : Nat) : Meta :=
  if (m.inode k).size < stop then
    (m.cutAll k (cutRange (m.inode k).size (toS32 stop))).setSize k (toU16 (toS32 stop))
  else m

/-- What that leaves of a state. -/
structure Extends (N : Nat) (w : World) (k stop : Nat) (u : World) : Prop where
  sane : Sane N u
  cached : u.cached = w.cached.extended k stop
  byte : ∀ x, OffMeta x → u.byte x = w.byte x
  present : u.present = w.present
  accesses : u.accesses = w.accesses

def finishWrite (f count : Nat) : M Int := do
  fileFlush f
  pure (toS32 count)

omit h hk hm in
instance unlogged_finishWrite (count : Nat) : Keeps Unlogged (finishWrite f count) := by
  unfold finishWrite
  infer_instance

omit h hk hm in
instance keeps_finishWrite (count : Nat) : Keeps Grows (finishWrite f count) := by
  unfold finishWrite
  infer_instance

omit h hk hm in
theorem finishWrite_ok {v u : World} {count : Nat} {r : Int} (hr : finishWrite f count v = .ok r u) :
    r = toS32 count := by
  obtain ⟨_, t, _, hret⟩ := bind_eq_ok hr
  cases hret
  rfl

omit h hk hm in
private theorem finishWrite_panic (hout : ¬(DISKMAP ≤ f ∧ f < DISKMAP + DISKSIZE)) {v u : World} {count : Nat}
    {r : Int} : finishWrite f count v ≠ .ok r u := by
  intro hr
  obtain ⟨_, t, hflush, -⟩ := bind_eq_ok hr
  obtain ⟨_, t1, _, hflush⟩ := bind_eq_ok hflush
  obtain ⟨_, t2, _, hflush⟩ := bind_eq_ok hflush
  obtain ⟨_, t3, _, hflush⟩ := bind_eq_ok hflush
  obtain ⟨_, t4, _, hflush⟩ := bind_eq_ok hflush
  exact hout (flushBlock_ok hflush).1

theorem fileWrite_run (buf count : Nat) (offset : Int) : fileWrite f buf count offset w = (do
      onlyIf ((w.cached.inode (w.inInd f)).size < toU32 (offset + count))
        (fileSetSize f (toS32 (toU32 (offset + count))))
      copyLoop true (inodeVa (w.inInd f)) (toU32 (offset + count)) (count + 1) offset buf
      finishWrite f count : M Int) (w.follow (w.inInd f)) := by
  have hs : Sane N (w.follow (w.inInd f)) := h.of_cached (h.ready.of_present rfl) (cached_of_byte rfl)
  have hsize := load16_size hs.ready (hs.lt hk)
  rw [show (w.follow (w.inInd f)).cached = w.cached from cached_of_byte rfl] at hsize
  rw [fileWrite, bind_ok (inodeOf_run hm), bind_ok hsize]
  simp only [writeLoop_eq]
  rfl

omit hm hk in
private theorem gives_extended {k stop : Nat} (hk : k < N) (hlt : (w.cached.inode k).size < stop) (j : Nat) :
    (w.cached.extended k stop).Gives k j ↔ w.cached.GivesAfter k (toS32 stop) j := by
  unfold Meta.Gives Meta.GivesAfter
  rw [Meta.extended, if_pos hlt, slot_setSize]
  generalize cutRange (w.cached.inode k).size (toS32 stop) = js
  have hslot : (w.cached.cutAll k js).slot k j = if j ∈ js then 0 else w.cached.slot k j := by
    rw [Meta.slot, inode_cutAll, if_pos rfl]
    rfl
  -- a block that was cut off is free
  have hcut : (∃ b < (w.cached.cutAll k js).blkNum, (w.cached.cutAll k js).blkOcp b = false) ↔
      (∃ b < w.cached.blkNum, w.cached.blkOcp b = false) ∨ ∃ i ∈ js, w.cached.slot k i ≠ 0 := by
    simp only [blkNum_cutAll, blkOcp_cutAll]
    constructor
    · rintro ⟨b, hb, hf | ⟨h0, i, hi, he⟩⟩
      · exact Or.inl ⟨b, hb, hf⟩
      · exact Or.inr ⟨i, hi, he ▸ h0⟩
    · rintro (⟨b, hb, hf⟩ | ⟨i, hi, hz⟩)
      · exact ⟨b, hb, Or.inl hf⟩
      · exact ⟨_, (h.slot_valid hk hz).2.1, Or.inr ⟨hz, i, hi, rfl⟩⟩
  change j < NDIRECT ∧ (_ ∨ ∃ b < (w.cached.cutAll k js).blkNum, (w.cached.cutAll k js).blkOcp b = false) ↔ _
  rw [hcut, hslot]
  split_ifs with hj
  · by_cases hz : w.cached.slot k j = 0
    · simp [hz]
    · have hex : ∃ i ∈ js, w.cached.slot k i ≠ 0 := ⟨j, hj, hz⟩
      simp [hz, hex]
  · exact Iff.rfl

variable (hf : ∀ x, f ≤ x → x < f + DIRESIZE → OffMeta x)
include hf

/-- Before its loop, `file_write` in the disk map reaches a state of the same kind. -/
theorem extend_run (stop : Nat) (hmap : (w.cached.inode (w.inInd f)).size < stop →
      DISKMAP ≤ f ∧ f < DISKMAP + DISKSIZE) : ∃ u,
    onlyIf ((w.cached.inode (w.inInd f)).size < stop) (fileSetSize f (toS32 stop))
      (w.follow (w.inInd f)) = .ok () u ∧ Extends N w (w.inInd f) stop u := by
  have hs : Sane N (w.follow (w.inInd f)) := h.of_cached (h.ready.of_present rfl) (cached_of_byte rfl)
  unfold onlyIf
  split_ifs with hlt
  · have hres := resizes hs hk (hmap hlt) (toS32 stop)
    refine ⟨_, fileSetSize_run hs hk (hmap hlt) _ hm hf, hres.sane, ?_, hres.byte, hres.present,
      hres.accesses⟩
    rw [hres.cached, Meta.extended, if_pos hlt]
    rfl
  · exact ⟨_, rfl, hs, by rw [Meta.extended, if_neg hlt]; rfl, fun _ _ => rfl, rfl, rfl⟩

private theorem fileWrite_offsetSafe_outside (buf : Nat) {count : Nat} {offset : Int}
    (hlo : -2147483648 ≤ offset) (hhi : offset < 2147483648) (hc : count < 4294967296)
    (hout : ¬(DISKMAP ≤ f ∧ f < DISKMAP + DISKSIZE)) :
    OffsetSafe offset count (fileWrite f buf count offset) w := by
  have hs : Sane N (w.follow (w.inInd f)) := h.of_cached (h.ready.of_present rfl) (cached_of_byte rfl)
  have hsz := size_lt w (w.inInd f)
  rw [offsetSafe_congr (fileWrite_run h hk hm buf count offset) rfl]
  by_cases hlt : (w.cached.inode (w.inInd f)).size < toU32 (offset + count)
  · obtain ⟨t, ht⟩ := fileSetSize_panic hs hk (toS32 (toU32 (offset + count))) hm hf hout
    rw [onlyIf, if_pos hlt]
    refine offsetSafe_of_unlogged ?_ fun r v hv => ?_
    · rw [final_error (bind_error ht)]
      exact Keeps.of_error (R := Unlogged) ht
    · rw [bind_error ht] at hv
      cases hv
  · rw [onlyIf, if_neg hlt, pure_bind]
    by_cases hstart : toU32 offset < toU32 (offset + count)
    · have hnat : 0 ≤ offset ∧ offset + count < 65536 := by
        unfold toU32 at hlt hstart
        omega
      refine offsetSafe_good true _ buf (a := offset.toNat) (c := count) (by omega) (by omega) ?_
        (toU32_lt _) le_rfl (by omega) fun v r u hv _ => absurd hv (finishWrite_panic hout)
      unfold toU32
      omega
    · rw [offsetSafe_done true _ buf hstart]
      exact fun r v hv => absurd hv (finishWrite_panic hout)

private theorem fileWrite_offsetSafe_iff (buf : Nat) {count : Nat} {offset : Int}
    (hlo : -2147483648 ≤ offset) (hhi : offset < 2147483648) (hc : count < 4294967296) :
    OffsetSafe offset count (fileWrite f buf count offset) w ↔
      ¬WriteStrays w.cached f (w.inInd f) count offset := by
  by_cases hmap : DISKMAP ≤ f ∧ f < DISKMAP + DISKSIZE
  swap
  · exact iff_of_true (fileWrite_offsetSafe_outside h hk hm hf buf hlo hhi hc hmap) fun hw => hmap hw.1
  have hsz := size_lt w (w.inInd f)
  obtain ⟨u, hext, hu⟩ := extend_run h hk hm hf (toU32 (offset + count)) fun _ => hmap
  have hin : u.inInd f = w.inInd f := inInd_of_off hf hu.byte
  have hmu : EntryMapped f u := fun p hp => by
    rw [hu.present]
    exact hm p hp
  rw [offsetSafe_congr ((fileWrite_run h hk hm buf count offset).trans (bind_ok hext)) hu.accesses]
  -- the claimed success when the loop is skipped
  have hdone : (∀ r v, finishWrite f count u = .ok r v → r ≤ 0) ↔ toS32 count ≤ 0 := by
    constructor
    · intro hr
      obtain ⟨v, hv⟩ := fileFlush_run hu.sane (by rwa [hin]) hmu hmap
      exact hr _ v ((bind_ok hv).trans rfl)
    · intro hr r v hv
      rw [finishWrite_ok hv]
      exact hr
  have hsigned : toS32 count ≤ 0 ↔ count = 0 ∨ 2147483648 ≤ count := by
    unfold toS32
    split_ifs <;> omega
  unfold WriteStrays
  by_cases hstart : toU32 offset < toU32 (offset + count)
  · by_cases hgood : 0 ≤ offset ∧ offset < 268435456
    · refine iff_of_true ?_ (by omega)
      refine offsetSafe_good true _ buf (a := offset.toNat) (c := count) (by omega) (by omega) ?_
        (toU32_lt _) le_rfl (by omega) fun v r t hv hr => ?_
      · unfold toU32 at hstart ⊢
        omega
      · rw [finishWrite_ok hv] at hr ⊢
        unfold toS32 at hr ⊢
        split_ifs at hr ⊢ <;> omega
    · have hfar : offset < 0 ∧ offset + count < 0 ∨
          268435456 ≤ offset ∧ offset + count < 4294967296 := by
        unfold toU32 at hstart
        omega
      have hpos : 0 < count := by
        unfold toU32 at hstart
        omega
      have hext : (w.cached.inode (w.inInd f)).size < toU32 (offset + count) := by
        unfold toU32
        omega
      rw [offsetSafe_bad hu.sane hk true count buf hstart (toU32_lt _) (by omega), hu.cached,
        gives_extended h hk hext]
      refine not_congr ?_
      constructor
      · exact fun hg => ⟨hmap, hpos, Or.inr ⟨hfar, hg⟩⟩
      · rintro ⟨-, -, hskip | ⟨-, hg⟩⟩
        · omega
        · exact hg
  · rw [offsetSafe_done true _ buf hstart, hdone, hsigned]
    unfold toU32 at hstart
    constructor
    · rintro hr ⟨-, hpos, hskip | ⟨hfar, -⟩⟩ <;> omega
    · intro hn
      by_contra hcon
      refine hn ⟨hmap, by omega, Or.inl ?_⟩
      omega

end Calls

/-- Whatever a client seeks to, reading and writing are safe exactly when they do not stray. -/
theorem offsetSafe_iff (n : Nat) (w : World) (f buf count : Nat) (offset : Int) (h : Sane n w)
    (hk : w.inInd f < n) (hm : EntryMapped f w) (hf : ∀ x, f ≤ x → x < f + DIRESIZE → OffMeta x)
    (hlo : -2147483648 ≤ offset) (hhi : offset < 2147483648) (hc : count < 4294967296) :
    (OffsetSafe offset count (fileRead f buf count offset) w ↔
      ¬ReadStrays w.cached (w.inInd f) count offset) ∧
    (OffsetSafe offset count (fileWrite f buf count offset) w ↔
      ¬WriteStrays w.cached f (w.inInd f) count offset) :=
  ⟨fileRead_offsetSafe_iff h hk hm buf hlo hc, fileWrite_offsetSafe_iff h hk hm hf buf hlo hhi hc⟩

/-- The server after `/a` was created and three bytes were written to it. -/
def fileWorld : World := server.run createAndWrite (mount (freshDisk 4 1))

theorem sane_fileWorld : Sane 4 fileWorld :=
  ⟨⟨by decide +kernel, by decide +kernel⟩, by decide +kernel, by decide, by decide,
    (soundImage_iff (by decide)).mp ⟨by decide +kernel, by decide +kernel, by decide +kernel,
      OwnedBlocks.of_filled [(0, 0), (1, 0)] (by decide +kernel) (by decide +kernel)
        (by decide +kernel)⟩⟩

private theorem entryMapped_fileWorld : EntryMapped (blockVa 2) fileWorld := by
  change ∀ p ∈ pagesOf (blockVa 2 + offInInd) 2, fileWorld.present p = true
  decide +kernel

theorem offMeta_blockTwo : ∀ x, blockVa 2 ≤ x → x < blockVa 2 + DIRESIZE → OffMeta x :=
  fun _ hx _ => Or.inr hx

theorem offsetSafe_fileWorld :
    OffsetSafe 1 2 (fileRead (blockVa 2) 4096 2 1) fileWorld ∧
      OffsetSafe 3 5 (fileWrite (blockVa 2) 4096 5 3) fileWorld :=
  ⟨(offsetSafe_iff 4 fileWorld (blockVa 2) 4096 2 1 sane_fileWorld (by decide +kernel)
      entryMapped_fileWorld offMeta_blockTwo (by decide) (by decide) (by decide)).1.mpr
        fun hs => absurd hs.1 (by decide),
    (offsetSafe_iff 4 fileWorld (blockVa 2) 4096 5 3 sane_fileWorld (by decide +kernel)
      entryMapped_fileWorld offMeta_blockTwo (by decide) (by decide) (by decide)).2.mpr
        fun hs => by
          rcases hs.2.2 with hneg | ⟨hneg | hbig, -⟩
          · exact absurd hneg.1 (by decide)
          · exact absurd hneg.1 (by decide)
          · exact absurd hbig.1 (by decide)⟩

/-- A read at offset -100 reaches the last bytes of the block before the file's first, which is
the root directory here. -/
theorem offsetSafe_lost_negative : ¬∀ (n : Nat) (w : World) (f buf count : Nat) (offset : Int),
    Sane n w → w.inInd f < n → EntryMapped f w → (∀ x, f ≤ x → x < f + DIRESIZE → OffMeta x) →
      -2147483648 ≤ offset → offset < 2147483648 → count < 4294967296 →
        OffsetSafe offset count (fileRead f buf count offset) w ∧
          OffsetSafe offset count (fileWrite f buf count offset) w := by
  intro h
  have hsafe := (h 4 fileWorld (blockVa 2) 4096 8 (-100) sane_fileWorld (by decide +kernel)
    entryMapped_fileWorld offMeta_blockTwo (by decide) (by decide) (by decide)).1
  rw [fileRead_offsetSafe_iff sane_fileWorld (by decide +kernel) entryMapped_fileWorld 4096 (by decide)
    (by decide)] at hsafe
  exact hsafe ⟨by decide, Or.inr ⟨by decide, by decide, by decide +kernel⟩⟩

end DamnOS.FileSystem
