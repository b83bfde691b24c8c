import DamnOS.FileSystem.Offsets
import DamnOS.FileSystem.Moved

/-!
# The part of the buffer that is used

The loops of `file_read` and `file_write` walk through the buffer as far as the count goes.  With
a buffer of one page or a little less, the second block they come to is where they leave it.
-/

namespace DamnOS.FileSystem

open DamnOS.Framework

/-- The accesses keep to the bytes of the buffer from `lo` up to `hi`. -/
def WithinBuffer (lo hi : Nat) (xs : List Access) : Prop :=
  ∀ x ∈ xs, lo ≤ x.buf ∧ x.buf + x.len ≤ hi

/-- `file_get_block` has blocks for slot `j` and then for the next: if both are empty, there is
another free block behind the first. -/
def Meta.GivesNext (m : Meta) (k j : Nat) : Prop :=
  j + 1 < NDIRECT ∧ (m.slot k (j + 1) ≠ 0 ∨ ∃ b < m.blkNum, m.blkOcp b = false ∧
    (m.slot k j = 0 → ∃ c < b, m.blkOcp c = false))

instance (m : Meta) (k j : Nat) : Decidable (m.GivesNext k j) := inferInstanceAs (Decidable (_ ∧ _))

private theorem newAccesses_copyLoop (wr : Bool) (inode : Nat) {stop : Nat} (fuel : Nat) {pos : Int} (buf : Nat)
    (w : World) (h : toU32 pos < stop) :
    (∃ e t, fileGetBlock inode (toU16 (pos.tdiv BLKSIZE)) w = .error e t ∧
      newAccesses w (final (copyLoop wr inode stop (fuel + 1) pos buf) w) = []) ∨
    (∃ blk t x, fileGetBlock inode (toU16 (pos.tdiv BLKSIZE)) w = .ok blk t ∧
      x = Access.transfer wr (t.slotsOf inode) (inBlock blk pos) buf (chunk pos stop) ∧
      ((∃ e s, copy wr (inBlock blk pos) buf (chunk pos stop) (t.log x) = .error e s ∧
          newAccesses w (final (copyLoop wr inode stop (fuel + 1) pos buf) w) = [x]) ∨
        (∃ s, copy wr (inBlock blk pos) buf (chunk pos stop) (t.log x) = .ok () s ∧
          newAccesses w (final (copyLoop wr inode stop (fuel + 1) pos buf) w) =
            x :: newAccesses s (final (copyLoop wr inode stop fuel (pos + chunk pos stop)
              (buf + chunk pos stop)) s)))) := by
  rcases copyLoop_cases wr inode fuel buf w h with ⟨e, t, hget, hrun⟩ | ⟨blk, t, x, hget, hx, hcopy⟩
  · refine Or.inl ⟨e, t, hget, newAccesses_unlogged ?_⟩
    rw [final_error hrun]
    exact Keeps.of_error (R := Unlogged) hget
  · refine Or.inr ⟨blk, t, x, hget, hx, ?_⟩
    have hacc : (t.log x).accesses = x :: w.accesses :=
      congrArg (List.cons x) (Keeps.of_ok (R := Unlogged) hget)
    rcases hcopy with ⟨e, s, hcopy, hrun⟩ | ⟨s, hcopy, hrun⟩
    · have hs : s.accesses = x :: w.accesses := (Keeps.of_error (R := Unlogged) hcopy).trans hacc
      refine Or.inl ⟨e, s, hcopy, ?_⟩
      rw [final_error hrun, newAccesses_step hs (Grows.refl s), newAccesses_unlogged rfl]
    · have hs : s.accesses = x :: w.accesses := (Keeps.of_ok (R := Unlogged) hcopy).trans hacc
      refine Or.inr ⟨s, hcopy, ?_⟩
      rw [final_congr hrun, newAccesses_step hs ((keeps_copyLoop _ _ _ _ _ _).final s)]

private theorem toU32_next {pos : Int} {stop : Nat} (h : toU32 pos < stop) (hs : stop < 4294967296) :
    toU32 (pos + chunk pos stop) = toU32 pos + chunk pos stop ∧
      toU32 pos + chunk pos stop ≤ stop := by
  have hle : chunk pos stop ≤ stop - toU32 pos := by
    rw [chunk_eq h.le hs]
    exact Nat.min_le_right _ _
  generalize chunk pos stop = n at *
  unfold toU32 at *
  omega

private theorem copyLoop_within (wr : Bool) (inode : Nat) {stop : Nat} (hs : stop < 4294967296) (fuel : Nat)
    (pos : Int) (buf : Nat) (w : World) : WithinBuffer buf (buf + (stop - toU32 pos))
      (newAccesses w (final (copyLoop wr inode stop fuel pos buf) w)) := by
  induction fuel generalizing pos buf w with
  | zero =>
    have hnew : newAccesses w (final (copyLoop wr inode stop 0 pos buf) w) = [] :=
      newAccesses_unlogged rfl
    rw [hnew]
    exact fun x hx => by cases hx
  | succ fuel ih =>
    by_cases hrun : toU32 pos < stop
    swap
    · rw [final_ok (copyLoop_done wr (fuel + 1) buf hrun w), newAccesses_unlogged rfl]
      exact fun x hx => by cases hx
    obtain ⟨hnext, hle⟩ := toU32_next hrun hs
    have hfirst {t : World} {blk : Nat} {x : Access}
        (hx : x = Access.transfer wr (t.slotsOf inode) (inBlock blk pos) buf (chunk pos stop)) :
        buf ≤ x.buf ∧ x.buf + x.len ≤ buf + (stop - toU32 pos) := by
      simp [hx]
      omega
    rcases newAccesses_copyLoop wr inode fuel buf w hrun with ⟨e, t, -, hnew⟩ | ⟨blk, t, x, -, hx, hc⟩
    · rw [hnew]
      exact fun y hy => by cases hy
    rcases hc with ⟨e, s, -, hnew⟩ | ⟨s, -, hnew⟩
    · rw [hnew]
      intro y hy
      rw [List.mem_singleton.mp hy]
      exact hfirst hx
    · rw [hnew]
      intro y hy
      rcases List.mem_cons.mp hy with rfl | hy
      · exact hfirst hx
      · have hrest := ih (pos + chunk pos stop) (buf + chunk pos stop) s y hy
        rw [hnext] at hrest
        omega

private theorem firstFree_least {N : Nat} {w : World} (h : Sane N w) {b : Nat} (hf : w.firstFree = some b)
    {c : Nat} (hc : c < b) : w.cached.blkOcp c = true := by
  have hb := h.firstFree hf
  have hnone := (List.find?_range_eq_some.mp hf).2.2 c hc
  by_contra hfree
  have : w.blockIsFree c = true :=
    (blockIsFree_iff w (hc.trans hb.1)).mpr ⟨hc.trans hb.2.1, by simpa using hfree⟩
  simp [this] at hnone

private theorem Obtains.gives_next {N : Nat} {w v : World} {k j b : Nat} (h : Sane N w) (hk : k < N)
    (hb : w.obtain k j = some b) (ho : Obtains N w k j b v) :
    v.cached.Gives k (j + 1) ↔ w.cached.GivesNext k j := by
  have hslot : v.cached.slot k (j + 1) = w.cached.slot k (j + 1) := by
    rw [ho.slot]
    simp
  have hfree (c : Nat) : v.cached.blkOcp c = false ↔ w.cached.blkOcp c = false ∧ c ≠ b := by
    rw [ho.blkOcp]
    by_cases hcb : c = b <;> simp [hcb]
  unfold Meta.Gives Meta.GivesNext
  rw [hslot, ho.blkNum]
  refine and_congr_right fun _ => or_congr_right (exists_congr fun c => and_congr_right fun _ => ?_)
  rw [hfree]
  refine and_congr_right fun hcf => ?_
  rcases ho.owned with he | ⟨hz, hbf⟩
  · -- the slot was filled, and its block is not free
    have hz : w.cached.slot k j ≠ 0 := by
      rw [he]
      have := ho.two_le
      omega
    have hv := (h.slot_valid hk hz).2.2
    rw [he] at hv
    refine iff_of_true ?_ fun h0 => absurd h0 hz
    rintro rfl
    rw [hv] at hcf
    cases hcf
  · have hff : w.firstFree = some b := by
      rwa [World.obtain, if_neg (not_le.mpr ho.bound), if_pos hz] at hb
    constructor
    · intro hne _
      refine ⟨b, ?_, hbf⟩
      by_contra hle
      have hlt : c < b := by omega
      rw [firstFree_least h hff hlt] at hcf
      cases hcf
    · rintro hex rfl
      obtain ⟨d, hd, hdf⟩ := hex hz
      rw [firstFree_least h hff hd] at hdf
      cases hdf

/-- A copy between a data block and a buffer outside the disk map shows no new metadata. -/
theorem copy_cached {wr : Bool} {b o n buf : Nat} {w v : World} (hb : 2 ≤ b) (hbuf : Apart buf n)
    (h : copy wr (blockVa b + o) buf n w = .ok () v) :
    v.cached = w.cached ∧ ∀ p, w.present p = true → v.present p = true := by
  have hcopy : copy wr (blockVa b + o) buf n =
      memmove (if wr then blockVa b + o else buf) (if wr then buf else blockVa b + o) n := by
    cases wr <;> rfl
  rw [hcopy] at h
  rcases memmove_cases (if wr then blockVa b + o else buf) (if wr then buf else blockVa b + o) n w with
    ⟨u, hr, hv, hp, -⟩ | ⟨p, u, hr, -⟩ <;> rw [h] at hr <;> cases hr
  refine ⟨cached_of_meta fun x hx => ?_, hp⟩
  rw [hv]
  refine splice_outside _ _ ?_
  simp only [OffMeta, Apart, blockVa, DISKMAP, DISKSIZE, BLKSIZE] at *
  split_ifs <;> omega

/-- A first piece that is not too long ends its block, and the second one leaves the buffer. -/
theorem chunk_then {pos : Int} {stop limit : Nat} (hhigh : limit ≤ 4096) (hstart : toU32 pos < stop)
    (hstop : stop < 4294967296) (hmore : limit < stop - toU32 pos) (hshort : chunk pos stop ≤ limit) :
    0 ≤ pos.tmod BLKSIZE ∧ pos.tmod BLKSIZE + chunk pos stop = 4096 ∧
      (pos + chunk pos stop).tdiv BLKSIZE = pos.tdiv BLKSIZE + 1 ∧
      toU32 (pos + chunk pos stop) < stop ∧
      limit < chunk pos stop + chunk (pos + chunk pos stop) stop := by
  have hchunk := chunk_eq hstart.le hstop
  have htm := tmod_bounds pos
  have hnext := (toU32_next hstart hstop).1
  have hlen : pos.tmod BLKSIZE + chunk pos stop = 4096 := by
    simp only [BLKSIZE] at *
    omega
  have hpos : pos + chunk pos stop = 4096 * (pos.tdiv BLKSIZE + 1) := by
    have hdecomp : (BLKSIZE : Int) * pos.tdiv BLKSIZE + pos.tmod BLKSIZE = pos :=
      Int.mul_tdiv_add_tmod pos BLKSIZE
    rw [show ((BLKSIZE : Nat) : Int) = 4096 from rfl] at *
    omega
  have hdiv : (pos + chunk pos stop).tdiv BLKSIZE = pos.tdiv BLKSIZE + 1 := by
    rw [hpos]
    exact Int.mul_tdiv_cancel_left _ (by decide)
  have hmod : (pos + chunk pos stop).tmod BLKSIZE = 0 := by
    rw [hpos]
    exact Int.mul_tmod_right _ _
  have hlt : toU32 (pos + chunk pos stop) < stop := by omega
  refine ⟨by omega, hlen, hdiv, hlt, ?_⟩
  have hchunk' := chunk_eq hlt.le hstop
  rw [hmod] at hchunk'
  simp only [BLKSIZE] at *
  omega

section SecondBlock

variable {N : Nat} {w : World} (h : Sane N w) {k : Nat} (hk : k < N) (wr : Bool) {limit buf : Nat}
  (hhigh : limit ≤ 4096) (hbuf : Apart buf limit)
  (hm : ∀ p ∈ pagesOf buf limit, w.present p = true) {pos : Int} {stop : Nat}
  (hstart : toU32 pos < stop) (hstop : stop < 4294967296) (fuel : Nat)
include h hk hhigh hbuf hm hstart hstop

/-- A loop leaves a buffer of about a page exactly if it has more to copy and finds a block, and
either the first piece is too long or there is a block for the next. -/
theorem copyLoop_within_iff : WithinBuffer buf (buf + limit)
    (newAccesses w (final (copyLoop wr (inodeVa k) stop (fuel + 2) pos buf) w)) ↔
      ¬(limit < stop - toU32 pos ∧ w.cached.Gives k (toU16 (pos.tdiv BLKSIZE)) ∧
        (limit < chunk pos stop ∨ w.cached.GivesNext k (toU16 (pos.tdiv BLKSIZE)))) := by
  by_cases hmore : limit < stop - toU32 pos
  swap
  · refine iff_of_true (fun x hx => ?_) fun hc => hmore hc.1
    have hx' := copyLoop_within wr (inodeVa k) hstop (fuel + 2) pos buf w x hx
    omega
  by_cases hg : w.cached.Gives k (toU16 (pos.tdiv BLKSIZE))
  swap
  · obtain ⟨e, he⟩ := copyLoop_none h hk wr (fuel + 1) buf hstart hg
    rw [final_error he, newAccesses_unlogged rfl]
    exact iff_of_true (fun x hx => by cases hx) fun hc => hg hc.2.1
  obtain ⟨b, hb⟩ := obtain_of_gives h hg
  have hget := fileGetBlock_obtain h hk hb
  have ho := obtains h hk hb
  have hchunk := chunk_eq hstart.le hstop
  have htm := tmod_bounds pos
  rcases newAccesses_copyLoop wr (inodeVa k) (fuel + 1) buf w hstart with
    ⟨e, t, hno, -⟩ | ⟨blk, t, x, hyes, hx, hc⟩
  · rw [hget] at hno
    cases hno
  rw [hget] at hyes
  cases hyes
  have hxbuf : x.buf = buf := by simp [hx]
  have hxlen : x.len = chunk pos stop := by simp [hx]
  by_cases hlong : limit < chunk pos stop
  · -- the first piece is too long already
    refine iff_of_false (fun hw => ?_) fun hn => hn ⟨hmore, hg, Or.inl hlong⟩
    have hmem : x ∈ newAccesses w (final (copyLoop wr (inodeVa k) stop (fuel + 2) pos buf) w) := by
      rcases hc with ⟨e, s, -, hnew⟩ | ⟨s, -, hnew⟩ <;> rw [hnew] <;> simp
    have hbad := (hw x hmem).2
    omega
  obtain ⟨hpos, hend, hdiv, hnext, hover⟩ := chunk_then hhigh hstart hstop hmore (not_lt.mp hlong)
  have hidx : toU16 ((pos + chunk pos stop).tdiv BLKSIZE) = toU16 (pos.tdiv BLKSIZE) + 1 := by
    have hlt : toU16 (pos.tdiv BLKSIZE) < 13 := ho.bound
    rw [hdiv]
    unfold toU16 at *
    omega
  have hblock : inBlock (blockVa b) pos = blockVa b + (pos.tmod BLKSIZE).toNat := by
    unfold inBlock
    omega
  rw [hblock] at hc
  obtain ⟨s, hs⟩ := ho.copy_returns wr x (o := (pos.tmod BLKSIZE).toNat) (n := chunk pos stop)
    buf (by simp only [BLKSIZE] at *; omega)
    fun p hp => hm p (pagesOf_subset le_rfl (by omega) p hp)
  rcases hc with ⟨e, s', hcopy, -⟩ | ⟨s', hcopy, hnew⟩ <;> rw [hs] at hcopy <;> cases hcopy
  obtain ⟨hcached, hpres⟩ := copy_cached ho.two_le (by simp only [Apart] at *; omega) hs
  change s.cached = (w.obtained k (toU16 (pos.tdiv BLKSIZE)) b).cached at hcached
  have hsane : Sane N s := ho.sane.of_cached
    ⟨hpres _ ho.sane.ready.super, hpres _ ho.sane.ready.inode⟩ hcached
  have hgives : s.cached.Gives k (toU16 ((pos + chunk pos stop).tdiv BLKSIZE)) ↔
      w.cached.GivesNext k (toU16 (pos.tdiv BLKSIZE)) := by
    rw [hidx, hcached]
    exact ho.gives_next h hk hb
  by_cases hgn : w.cached.GivesNext k (toU16 (pos.tdiv BLKSIZE))
  · refine iff_of_false (fun hw => ?_) fun hn => hn ⟨hmore, hg, Or.inr hgn⟩
    obtain ⟨y, hylen, hybuf, hy⟩ := copyLoop_first hsane hk wr fuel (buf + chunk pos stop) hnext
      (hgives.mpr hgn)
    rw [hnew] at hw
    have hbad := (hw y (List.mem_cons_of_mem _ hy)).2
    omega
  · refine iff_of_true (fun y hy => ?_) ?_
    · obtain ⟨e, he⟩ := copyLoop_none hsane hk wr fuel (buf + chunk pos stop) hnext
        fun hc => hgn (hgives.mp hc)
      rw [hnew, final_error he, newAccesses_unlogged rfl, List.mem_singleton] at hy
      rw [hy]
      omega
    · rintro ⟨-, -, hc | hc⟩
      · exact hlong hc
      · exact hgn hc

end SecondBlock

/-- The reads that leave a buffer of one page. -/
def ReadOverruns (m : Meta) (k count : Nat) (offset : Int) : Prop :=
  (4096 : Int) < min (count : Int) ((m.inode k).size - offset) ∧ (0 ≤ offset ∨ offset + count < 0) ∧
    m.Gives k (toU16 (offset.tdiv BLKSIZE)) ∧
    (offset.tmod BLKSIZE < 0 ∨ m.GivesNext k (toU16 (offset.tdiv BLKSIZE)))

/-- The writes that leave a buffer of 4088 bytes. -/
def WriteOverruns (m : Meta) (f k count : Nat) (offset : Int) : Prop :=
  ((m.inode k).size < toU32 (offset + count) → DISKMAP ≤ f ∧ f < DISKMAP + DISKSIZE) ∧
    toU32 offset < toU32 (offset + count) ∧ 4088 < count ∧
    (m.extended k (toU32 (offset + count))).Gives k (toU16 (offset.tdiv BLKSIZE)) ∧
    (offset.tmod BLKSIZE < 8 ∨
      (m.extended k (toU32 (offset + count))).GivesNext k (toU16 (offset.tdiv BLKSIZE)))

private theorem newAccesses_tail {α : Type} {m : M Unit} {tail : M α} [hu : Keeps Unlogged tail] (w : World) :
    newAccesses w (final (m >>= fun _ => tail) w) = newAccesses w (final m w) := by
  cases hr : m w with
  | ok a t =>
    have hacc : (final tail t).accesses = t.accesses := hu.final t
    rw [final_ok hr, final, bind_ok hr, newAccesses, newAccesses]
    change (List.take ((final tail t).accesses.length - _) (final tail t).accesses).reverse = _
    rw [hacc]
  | error e t => rw [final_error hr, final_error (bind_error hr)]

private theorem newAccesses_congr {α : Type} {m n : M α} {w v : World} (hrun : m w = n v)
    (hacc : v.accesses = w.accesses) : newAccesses w (final m w) = newAccesses v (final n v) := by
  rw [final_congr hrun, newAccesses, newAccesses, hacc]

section Calls

variable {N : Nat} {w : World} (h : Sane N w) {f : Nat} (hk : w.inInd f < N) (hm : EntryMapped f w)
  {buf count : Nat} {offset : Int} (hlo : -2147483648 ≤ offset) (hhi : offset < 2147483648)
  (hc : count < 4294967296)
include h hk hm hlo hhi hc

omit hhi in
theorem fileRead_within_iff (hbuf : Apart buf 4096)
    (hpages : ∀ p ∈ pagesOf buf 4096, w.present p = true) : WithinBuffer buf (buf + 4096)
      (newAccesses w (final (fileRead f buf count offset) w)) ↔
        ¬ReadOverruns w.cached (w.inInd f) count offset := by
  have hs : Sane N (w.follow (w.inInd f)) := h.of_cached (h.ready.of_present rfl) (cached_of_byte rfl)
  have hsz : (w.cached.inode (w.inInd f)).size < 65536 := size_lt w _
  rw [newAccesses_congr (v := w.follow (w.inInd f)) (fileRead_run h hk hm buf count offset) rfl]
  unfold ReadOverruns
  generalize (w.cached.inode (w.inInd f)).size = size at *
  have hleft : (toU32 (size - offset) : Int) = (size - offset) % 4294967296 := by
    unfold toU32
    omega
  split_ifs with hend
  · refine iff_of_true ?_ (by omega)
    have hnew : newAccesses (w.follow (w.inInd f))
        (final (pure 0 : M Int) (w.follow (w.inInd f))) = [] := newAccesses_unlogged rfl
    rw [hnew]
    exact fun x hx => by cases hx
  dsimp only
  rw [newAccesses_tail]
  generalize hcl : min count (toU32 (size - offset)) = c
  by_cases hrun : toU32 offset < toU32 (offset + c)
  · have hcount : toU32 (offset + c) - toU32 offset = c := by
      unfold toU32 at *
      omega
    have hside : 0 ≤ offset ∨ offset + count < 0 := by
      unfold toU32 at hrun
      omega
    rcases Nat.lt_or_ge 4096 c with hbig | hsmall
    · obtain ⟨fuel, rfl⟩ : ∃ fuel, c = fuel + 1 := ⟨c - 1, by omega⟩
      rw [copyLoop_within_iff hs hk false le_rfl hbuf hpages hrun (toU32_lt _) fuel, hcount]
      have hchunk := chunk_eq hrun.le (toU32_lt _)
      have htm := tmod_bounds offset
      have hfirst : 4096 < chunk offset (toU32 (offset + ((fuel + 1 : Nat) : Int))) ↔
          offset.tmod BLKSIZE < 0 := by
        rw [hchunk, hcount]
        simp only [BLKSIZE] at *
        omega
      rw [hfirst]
      refine not_congr ⟨?_, ?_⟩
      · rintro ⟨-, hg, hn⟩
        exact ⟨by omega, hside, hg, hn⟩
      · rintro ⟨-, -, hg, hn⟩
        exact ⟨hbig, hg, hn⟩
    · refine iff_of_true (fun x hx => ?_) fun hov => ?_
      · have hx' := copyLoop_within false _ (toU32_lt _) _ _ _ _ x hx
        omega
      · have hmin := hov.1
        omega
  · rw [final_ok (copyLoop_done false _ buf hrun _), newAccesses_unlogged rfl]
    refine iff_of_true (fun x hx => by cases hx) ?_
    rintro ⟨hmin, hside, -⟩
    unfold toU32 at hrun
    omega

theorem fileWrite_within_iff (hf : ∀ x, f ≤ x → x < f + DIRESIZE → OffMeta x) (hbuf : Apart buf 4088)
    (hpages : ∀ p ∈ pagesOf buf 4088, w.present p = true) : WithinBuffer buf (buf + 4088)
      (newAccesses w (final (fileWrite f buf count offset) w)) ↔
        ¬WriteOverruns w.cached f (w.inInd f) count offset := by
  have hs : Sane N (w.follow (w.inInd f)) := h.of_cached (h.ready.of_present rfl) (cached_of_byte rfl)
  have hrun := fileWrite_run h hk hm buf count offset
  by_cases hmap : (w.cached.inode (w.inInd f)).size < toU32 (offset + count) →
      DISKMAP ≤ f ∧ f < DISKMAP + DISKSIZE
  swap
  · -- the flush of the entry stops the server before the loop
    refine iff_of_true ?_ fun hov => hmap hov.1
    obtain ⟨hlt, hout⟩ := Classical.not_imp.mp hmap
    obtain ⟨t, ht⟩ := fileSetSize_panic hs hk (toS32 (toU32 (offset + count))) hm hf hout
    rw [onlyIf, if_pos hlt, bind_error ht] at hrun
    have hun : Unlogged (w.follow (w.inInd f)) t := Keeps.of_error ht
    rw [final_error hrun, newAccesses_unlogged (w := w) hun]
    exact fun x hx => by cases hx
  obtain ⟨u, hext, hu⟩ := extend_run h hk hm hf _ hmap
  rw [newAccesses_congr (hrun.trans (bind_ok hext)) hu.accesses, newAccesses_tail]
  unfold WriteOverruns
  rw [← hu.cached]
  by_cases hstart : toU32 offset < toU32 (offset + count)
  · have hcount : toU32 (offset + count) - toU32 offset = count := by
      unfold toU32 at *
      omega
    rcases Nat.lt_or_ge 4088 count with hbig | hsmall
    · obtain ⟨fuel, rfl⟩ : ∃ fuel, count = fuel + 1 := ⟨count - 1, by omega⟩
      rw [copyLoop_within_iff hu.sane hk true (by decide) hbuf (by rwa [hu.present]) hstart
        (toU32_lt _) fuel, hcount]
      have hchunk := chunk_eq hstart.le (toU32_lt _)
      have htm := tmod_bounds offset
      have hfirst : 4088 < chunk offset (toU32 (offset + ((fuel + 1 : Nat) : Int))) ↔
          offset.tmod BLKSIZE < 8 := by
        rw [hchunk, hcount]
        simp only [BLKSIZE] at *
        omega
      rw [hfirst]
      refine not_congr ⟨?_, ?_⟩
      · rintro ⟨-, hg, hn⟩
        exact ⟨hmap, hstart, hbig, hg, hn⟩
      · rintro ⟨-, -, -, hg, hn⟩
        exact ⟨hbig, hg, hn⟩
    · refine iff_of_true (fun x hx => ?_) fun hov => ?_
      · have hx' := copyLoop_within true _ (toU32_lt _) _ _ _ _ x hx
        omega
      · have hbig := hov.2.2.1
        omega
  · rw [final_ok (copyLoop_done true _ buf hstart _), newAccesses_unlogged rfl]
    exact iff_of_true (fun x hx => by cases hx) fun hov => hstart hov.2.1

end Calls

end DamnOS.FileSystem
