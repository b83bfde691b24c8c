import DamnOS.FileSystem.Buffers
import DamnOS.FileSystem.FreeBlocks
import DamnOS.FileSystem.Truncation

/-!
# Writes that fail

`file_write` sets the size before it knows whether there are blocks, and copies block by block until
one cannot be had.  A call that fails leaves the file as it was only if the size was not to change and
the bytes that were copied are those that were there.
-/

namespace DamnOS.FileSystem

open DamnOS.Framework

private theorem copyLoop_shift (wr : Bool) (inode stop : Nat) {shift : Nat} (hs : shift % 268435456 = 0)
    (hlt : shift < 2147483648) (hstop : stop + shift < 4294967296) (fuel : Nat) {a : Nat}
    (ha : a < 268435456) (buf : Nat) :
    copyLoop wr inode (stop + shift) fuel ((a + shift : Nat) : Int) buf =
      copyLoop wr inode stop fuel (a : Int) buf := by
  induction fuel generalizing a buf with
  | zero => rfl
  | succ fuel ih =>
    have hpos : toU32 ((a + shift : Nat) : Int) = a + shift := toU32_natCast (by omega)
    have hpos' : toU32 (a : Int) = a := toU32_natCast (by omega)
    have hindex : toU16 (((a + shift : Nat) : Int).tdiv BLKSIZE) = a / BLKSIZE := by
      simp only [toU16, BLKSIZE]
      rw [Int.tdiv_eq_ediv_of_nonneg (by omega)]
      omega
    have hblock (blk : Nat) : inBlock blk ((a + shift : Nat) : Int) = inBlock blk a := by
      rw [inBlock_nat, inBlock_nat]
      simp only [BLKSIZE]
      omega
    rw [copyLoop, copyLoop, hpos, hpos', hindex, blockIndex_nat ha]
    by_cases hend : a < stop
    swap
    · rw [if_neg (by omega), if_neg hend]
    have hchunk : chunk ((a + shift : Nat) : Int) (stop + shift) = chunk (a : Int) stop := by
      rw [chunk_nat (by omega) hstop, chunk_nat hend.le (by omega)]
      simp only [BLKSIZE]
      omega
    rw [if_pos (by omega), if_pos hend, hchunk]
    funext w
    by_cases hj : NDIRECT ≤ a / BLKSIZE
    · rw [bind_error (fileGetBlock_inval inode hj), bind_error (fileGetBlock_inval inode hj)]
    · have hnext : a + chunk (a : Int) stop < 268435456 := by
        have hc := chunk_nat hend.le (by omega)
        simp only [NDIRECT, BLKSIZE] at *
        omega
      have hrest := ih hnext (buf + chunk (a : Int) stop)
      simp only [hblock]
      rw [← Int.natCast_add, ← Int.natCast_add, Nat.add_right_comm, hrest]

/-- The positions from `a` up to `e` can be had one after the other. -/
def Meta.Reaches (m : Meta) (k a e : Nat) : Prop :=
  ∀ p, a ≤ p → p < e → ¬m.Lacks k (a / BLKSIZE) (p / BLKSIZE)

/-- The end of a run of the loop: everything was copied, or the copy stopped at the first block that
cannot be had. -/
def Reached (N k : Nat) (wr : Bool) (buf base stop a : Nat) (w : World)
    (r : EStateM.Result Exc World PUnit) : Prop :=
  (∃ p v, r = .error (.panic p) v ∧
    ¬∀ q ∈ pagesOf buf (min (stop - base) (NDIRECT * BLKSIZE)), w.present q = true) ∨
  (∃ v, r = .ok () v ∧ w.cached.Reaches k a stop) ∨
  ∃ x v e, r = .error (.err x) v ∧ e < stop ∧ w.cached.Lacks k (a / BLKSIZE) (e / BLKSIZE) ∧
    w.cached.Reaches k a e ∧ Moved N k wr buf base stop a e w v

section Reach

variable {N k : Nat} (hk : k < N) (wr : Bool) {buf : Nat} (base stop : Nat)
  (hbuf : Apart buf (stop - base)) (hstop : stop < 4294967296)
include hk hbuf hstop

private theorem copyLoop_reached (fuel : Nat) {a : Nat} {w : World} (h : Sane N w) (hbase : base ≤ a)
    (ha : a ≤ stop) (hlim : a < 268435456) (hfuel : stop - a < fuel) :
    Reached N k wr buf base stop a w
      (copyLoop wr (inodeVa k) stop fuel a (buf + (a - base)) w) := by
  induction fuel generalizing a w with
  | zero => omega
  | succ fuel ih =>
    have hpos : toU32 a = a := toU32_natCast (by omega)
    rcases ha.eq_or_lt with rfl | hlt
    · rw [copyLoop_done wr (fuel + 1) _ (by omega) w]
      exact Or.inr (Or.inl ⟨w, rfl, fun p hlo hhi => by omega⟩)
    have hcases := copyLoop_cases wr (inodeVa k) fuel (buf + (a - base)) w
      (by rwa [hpos] : toU32 (a : Int) < stop)
    rw [blockIndex_nat hlim] at hcases
    obtain ⟨hin, hend, hcpos⟩ := chunk_bounds hlt hstop
    rcases hob : w.obtain k (a / BLKSIZE) with _ | b
    · have hget := fileGetBlock_fail h hk hob
      rcases hcases with ⟨x, t, hno, hrun⟩ | ⟨blk, t, x, hyes, -⟩
      · rw [hget] at hno
        cases hno
        rw [hrun]
        exact Or.inr (Or.inr ⟨_, w, a, rfl, hlt, (obtain_eq_none_iff h).mp hob,
          fun p hlo hhi => by omega,
          Moved.of_fills (Fills.same h rfl (fun _ hp => hp) rfl) fun _ _ => rfl⟩)
      · rw [hget] at hyes
        cases hyes
    have ho := obtains h hk hob
    have hj : a / BLKSIZE < NDIRECT := ho.bound
    have hget := fileGetBlock_obtain h hk hob
    rcases hcases with ⟨x, t, hno, -⟩ | ⟨blk, t, x, hyes, -, hcopy⟩
    · rw [hget] at hno
      cases hno
    rw [hget] at hyes
    cases hyes
    rw [inBlock_nat] at hcopy
    have hsize := chunk_nat hlt.le hstop
    have hfits : a + chunk (a : Int) stop ≤ NDIRECT * BLKSIZE := by
      simp only [NDIRECT, BLKSIZE] at *
      omega
    rcases copy_piece h hk wr hbuf hbase hlt hstop hob x with ⟨u, hu, hmove⟩ | ⟨p, u, hu, -⟩ <;>
      rcases hcopy with ⟨e, s, hc, hrun⟩ | ⟨s, hc, hrun⟩ <;> rw [hu] at hc <;> cases hc
    swap
    · -- the server stops at a page of the buffer that is not there
      rw [hrun]
      refine Or.inl ⟨p, u, rfl, fun hm => ?_⟩
      obtain ⟨u', hu'⟩ := ho.copy_returns wr x (buf + (a - base)) hin
        fun q hq => hm q (pagesOf_subset (by omega) (by omega) q hq)
      rw [hu] at hu'
      cases hu'
    have hcu : u.cached = (w.obtained k (a / BLKSIZE) b).cached := by
      have hap : Apart (buf + (a - base)) (chunk (a : Int) stop) := by
        simp only [Apart, DISKMAP, DISKSIZE] at hbuf ⊢
        omega
      exact (copy_cached ho.two_le hap hu).1
    have hfirst : ¬w.cached.Lacks k (a / BLKSIZE) (a / BLKSIZE) := by
      rw [← obtain_eq_none_iff h, hob]
      simp
    -- behind the first block the same blocks are missing as before
    have hnext (p : Nat) (hlo : a + chunk (a : Int) stop ≤ p) (hhi : p < stop) :
        u.cached.Lacks k ((a + chunk (a : Int) stop) / BLKSIZE) (p / BLKSIZE) ↔
          w.cached.Lacks k (a / BLKSIZE) (p / BLKSIZE) := by
      have hblock : (a + chunk (a : Int) stop) / BLKSIZE = a / BLKSIZE + 1 := by
        simp only [BLKSIZE] at *
        omega
      rw [hblock, hcu]
      refine ho.lacks h hk ?_
      have hle := Nat.div_le_div_right hlo (c := BLKSIZE)
      omega
    have hreach {e : Nat} (he : e ≤ stop) (hr : u.cached.Reaches k (a + chunk (a : Int) stop) e) :
        w.cached.Reaches k a e := by
      intro p hlo hhi
      rcases Nat.lt_or_ge p (a + chunk (a : Int) stop) with hp | hp
      · rw [(piece_block hin hlo hp).1]
        exact hfirst
      · rw [← hnext p hp (by omega)]
        exact hr p hp hhi
    have hrest := ih (a := a + chunk a stop) hmove.sane (by omega) hend
      (by simp only [NDIRECT, BLKSIZE] at hfits; omega) (by omega)
    rw [Int.natCast_add, show buf + (a + chunk (a : Int) stop - base) =
      buf + (a - base) + chunk (a : Int) stop by omega] at hrest
    rw [hrun]
    rcases hrest with ⟨p, v, hr, hm⟩ | ⟨v, hr, hr'⟩ | ⟨x, v, e, hr, he, hl, hr', hm⟩
    · exact Or.inl ⟨p, v, hr, fun hall => hm fun q hq => hmove.present q (hall q hq)⟩
    · exact Or.inr (Or.inl ⟨v, hr, hreach le_rfl hr'⟩)
    · refine Or.inr (Or.inr ⟨x, v, e, hr, he, ?_, hreach he.le hr',
        Moved.trans hk hbuf hbase he.le hmove hm⟩)
      rwa [← hnext e hm.le he]

end Reach

/-- The program returns or stops the server, and reports no error code. -/
class PanicsOnly {α : Type} (m : M α) : Prop where
  panic : ∀ w e v, m w = .error e v → ∃ p, e = .panic p

namespace PanicsOnly

instance andThen {α β : Type} {m : M α} {g : α → M β} [hm : PanicsOnly m] [hg : ∀ a, PanicsOnly (g a)] :
    PanicsOnly (m >>= g) where
  panic w e v hr := by
    cases hrun : m w with
    | ok a t =>
      rw [bind_ok hrun] at hr
      exact (hg a).panic t e v hr
    | error x t =>
      have hpanic := hm.panic w x t hrun
      rw [bind_error hrun] at hr
      cases hr
      exact hpanic

instance ret {α : Type} (a : α) : PanicsOnly (pure a : M α) where
  panic _ _ _ hr := by cases hr

instance forM {β : Type} (l : List β) (g : β → M Unit) [hg : ∀ b, PanicsOnly (g b)] :
    PanicsOnly (l.forM g) := by
  induction l with
  | nil => exact ret _
  | cons b l ih => exact andThen

instance load16 (a : Nat) : PanicsOnly (load16 a) where
  panic w e v hr := by
    rcases touch_cases a 2 w with ⟨t, ht, -⟩ | ⟨p, t, ht, -⟩
    · rw [FileSystem.load16, bind_ok ht] at hr
      cases hr
    · rw [FileSystem.load16, bind_error ht] at hr
      cases hr
      exact ⟨p, rfl⟩

instance flushBlock (a : Nat) : PanicsOnly (flushBlock a) where
  panic w e v hr := by
    unfold FileSystem.flushBlock at hr
    split_ifs at hr
    · cases hr
      exact ⟨_, rfl⟩
    · cases hr

instance diskaddr (b : Nat) : PanicsOnly (diskaddr b) where
  panic w e v hr := by
    rw [FileSystem.diskaddr, bind_ok (get_run w)] at hr
    split_ifs at hr
    · cases hr
      exact ⟨_, rfl⟩
    · cases hr

instance flushSlot (inode i : Nat) : PanicsOnly (flushSlot inode i) := by
  unfold FileSystem.flushSlot
  split_ifs
  · refine @andThen _ _ _ _ _ fun b => ?_
    split_ifs <;> infer_instance
  · infer_instance

instance inodeOf (f : Nat) : PanicsOnly (inodeOf f) where
  panic w e v hr := by
    rcases inodeOf_start f w with ⟨t, -, hm, hrun⟩ | ⟨p, t, hrun, -⟩
    · rw [hrun, inodeOf_run hm] at hr
      cases hr
    · rw [hrun] at hr
      cases hr
      exact ⟨p, rfl⟩

instance finishWrite (f count : Nat) : PanicsOnly (finishWrite f count) := by
  unfold FileSystem.finishWrite fileFlush
  infer_instance

end PanicsOnly

/-- The call returned a negative number and left the state `v`. -/
def Negative (r : EStateM.Result Exc World Int) (v : World) : Prop :=
  (∃ x, r = .error (.err x) v) ∨ ∃ n < 0, r = .ok n v

/-- The size of inode `k` and the bytes below it are as they were. -/
structure KeptBelow (w v : World) (k : Nat) : Prop where
  size : (v.cached.inode k).size = (w.cached.inode k).size
  byte : ∀ p < (w.cached.inode k).size, w.cached.slot k (p / BLKSIZE) ≠ 0 →
    v.byte (v.addrOf k p) = w.byte (w.addrOf k p)

/-- The position that the first byte of a write at `offset` goes to. -/
def landing (offset : Nat) : Nat := offset % 268435456

namespace World

/-- A write of `count` bytes at `offset` needs a block that cannot be had. -/
def WriteFails (w : World) (k count offset : Nat) : Prop :=
  offset + count < 4294967296 ∧ ∃ p, landing offset ≤ p ∧ p < landing offset + count ∧
    w.cached.Lacks k (landing offset / BLKSIZE) (p / BLKSIZE)

/-- The size that `file_write` is about to set is the old one or not above it, and the bytes that can
be copied are those that are there. -/
structure WriteIdle (w : World) (k buf count offset : Nat) : Prop where
  signed : (offset + count) % 4294967296 < 2147483648
  size : (offset + count) % 4294967296 ≤ (w.cached.inode k).size ∨
    (offset + count) % 4294967296 % 65536 = (w.cached.inode k).size
  same : offset + count < 4294967296 → ∀ p, landing offset ≤ p → p < landing offset + count →
    w.cached.Reaches k (landing offset) (p + 1) → p < (w.cached.inode k).size →
    w.cached.slot k (p / BLKSIZE) ≠ 0 → w.byte (buf + (p - landing offset)) = w.byte (w.addrOf k p)

/-- If the call is to return a negative number, it changes nothing. -/
def WriteKeeps (w : World) (k buf count offset : Nat) : Prop :=
  4294967296 ≤ offset + count ∨ w.WriteFails k count offset → w.WriteIdle k buf count offset

end World

section Call

variable {N : Nat} {w : World} (h : Sane N w) {f : Nat} (hk : w.inInd f < N) (hm : EntryMapped f w)
  (hf : ∀ x, f ≤ x → x < f + DIRESIZE → OffMeta x) (hmap : DISKMAP ≤ f ∧ f < DISKMAP + DISKSIZE)
include h hk hm hf hmap

/-- The sum of offset and count overflows: nothing is copied, and the count returned is negative. -/
theorem fileWrite_overflow (buf : Nat) {count offset : Nat} (hoff : offset < 2147483648)
    (hcount : count < 4294967296) (hsum : 4294967296 ≤ offset + count) : ∃ v n, n < 0 ∧
      fileWrite f buf count offset w = .ok n v ∧
      v.cached = w.cached.extended (w.inInd f) (offset + count - 4294967296) ∧
      ∀ x, OffMeta x → v.byte x = w.byte x := by
  have hto : toU32 ((offset : Int) + (count : Int)) = offset + count - 4294967296 := by
    unfold toU32
    omega
  obtain ⟨u, hext, hu⟩ := extend_run h hk hm hf (offset + count - 4294967296) fun _ => hmap
  have hrun := fileWrite_run h hk hm buf count offset
  have hnone : ¬toU32 (offset : Int) < offset + count - 4294967296 := by
    rw [toU32_natCast (by omega)]
    omega
  rw [hto, bind_ok hext, bind_ok (copyLoop_done true (count + 1) buf hnone u)] at hrun
  have hind : u.inInd f = w.inInd f := inInd_of_off hf hu.byte
  obtain ⟨v, hflush⟩ := fileFlush_run hu.sane (by rw [hind]; exact hk)
    (fun p hp => by rw [hu.present]; exact hm p hp) hmap
  have hq : Quiet u v := Keeps.of_ok hflush
  refine ⟨v, toS32 count, ?_, hrun.trans (bind_ok hflush), ?_, fun x hx => ?_⟩
  · unfold toS32
    split_ifs <;> omega
  · rw [hq.cached, hu.cached]
  · rw [hq.byte, hu.byte x hx]

private theorem fileWrite_reached {buf count offset : Nat} (hsum : offset + count < 2147483648)
    (hbuf : Apart buf count) : ∃ u r, Extends N w (w.inInd f) (offset + count) u ∧
      fileWrite f buf count offset w = (match r with
        | .ok _ t => finishWrite f count t
        | .error x t => .error x t) ∧
      Reached N (w.inInd f) true buf (landing offset) (landing offset + count) (landing offset) u r := by
  have hto : toU32 ((offset : Int) + (count : Int)) = offset + count := by
    unfold toU32
    omega
  obtain ⟨u, hext, hu⟩ := extend_run h hk hm hf (offset + count) fun _ => hmap
  have hrun := fileWrite_run h hk hm buf count offset
  have hland : landing offset < 268435456 := Nat.mod_lt _ (by decide)
  have hsplit : landing offset + (offset - landing offset) = offset := by
    have hle : landing offset ≤ offset := Nat.mod_le _ _
    omega
  have hshift : (offset - landing offset) % 268435456 = 0 := by
    unfold landing
    omega
  have hloop := copyLoop_shift true (inodeVa (w.inInd f)) (landing offset + count) hshift (by omega)
    (by omega) (count + 1) hland buf
  rw [hsplit, show landing offset + count + (offset - landing offset) = offset + count by omega] at hloop
  rw [hto, bind_ok hext, hloop] at hrun
  have hreach := copyLoop_reached hk true (landing offset) (landing offset + count)
    (by rwa [Nat.add_sub_cancel_left]) (by omega) (count + 1) hu.sane le_rfl (by omega) hland (by omega)
  rw [Nat.sub_self, Nat.add_zero] at hreach
  refine ⟨u, _, hu, hrun.trans ?_, hreach⟩
  cases hr : copyLoop true (inodeVa (w.inInd f)) (landing offset + count) (count + 1) (landing offset)
      buf u with
  | ok _ t => exact bind_ok hr
  | error x t => exact bind_error hr

end Call

private theorem extended_inode (m : Meta) (k : Nat) {stop : Nat} (hstop : stop < 2147483648) :
    ((m.extended k stop).inode k).size = if (m.inode k).size < stop then stop % 65536 else (m.inode k).size := by
  rw [extended_grow m k hstop]
  split_ifs
  · simp [Meta.setSize, Meta.setInode]
  · rfl

private theorem extended_lacks (m : Meta) (k : Nat) {stop : Nat} (hstop : stop < 2147483648) :
    (m.extended k stop).slot = m.slot ∧ (m.extended k stop).Lacks k = m.Lacks k := by
  rw [extended_grow m k hstop]
  split_ifs
  · have hslot : (m.setSize k (stop % 65536)).slot = m.slot := slot_setSize _ _ _
    refine ⟨hslot, ?_⟩
    funext a j
    unfold Meta.Lacks Meta.gaps
    rw [hslot]
    rfl
  · exact ⟨rfl, rfl⟩

private theorem writeFails_signed (w : World) (k : Nat) {count offset : Nat} (hoff : offset < 2147483648)
    (hlo : 2147483648 ≤ offset + count) (hhi : offset + count < 4294967296) : w.WriteFails k count offset := by
  refine ⟨hhi, landing offset + (2147483647 - offset), by omega, by omega, Or.inl ?_⟩
  simp only [landing, NDIRECT, BLKSIZE]
  omega

section Keeps

variable {N : Nat} {w : World} (h : Sane N w) {f : Nat} (hk : w.inInd f < N) (hm : EntryMapped f w)
  (hf : ∀ x, f ≤ x → x < f + DIRESIZE → OffMeta x) (hmap : DISKMAP ≤ f ∧ f < DISKMAP + DISKSIZE)
  {buf count offset : Nat} (hoff : offset < 2147483648) (hcount : count < 4294967296)
  (hbuf : offset + count < 4294967296 → Apart buf count)
include h hk hm hf hmap hoff hcount hbuf

private theorem fileWrite_negative (hsum : offset + count < 2147483648) {v : World}
    (hneg : Negative (fileWrite f buf count offset w) v) : ∃ u e, Extends N w (w.inInd f) (offset + count) u ∧
      landing offset ≤ e ∧ e < landing offset + count ∧
      w.cached.Lacks (w.inInd f) (landing offset / BLKSIZE) (e / BLKSIZE) ∧
      w.cached.Reaches (w.inInd f) (landing offset) e ∧
      Moved N (w.inInd f) true buf (landing offset) (landing offset + count) (landing offset) e u v := by
  obtain ⟨u, r, hu, hrun, hreach⟩ := fileWrite_reached h hk hm hf hmap hsum (hbuf (by omega))
  rw [hrun] at hneg
  obtain ⟨-, hlacks⟩ := extended_lacks w.cached (w.inInd f) hsum
  rw [← hu.cached] at hlacks
  rcases hreach with ⟨p, t, rfl, -⟩ | ⟨t, rfl, -⟩ | ⟨x, t, e, rfl, he, hl, hr, hmoved⟩
  · rcases hneg with ⟨x, hx⟩ | ⟨n, -, hx⟩ <;> cases hx
  · rcases hneg with ⟨x, hx⟩ | ⟨n, hn, hx⟩
    · have hx' : finishWrite f count t = .error (.err x) v := hx
      obtain ⟨p, hp⟩ := PanicsOnly.panic t _ _ hx'
      cases hp
    · have hret := finishWrite_ok (f := f) (v := t) hx
      rw [hret] at hn
      unfold toS32 at hn
      split_ifs at hn <;> omega
  · rcases hneg with ⟨x', hx⟩ | ⟨n, -, hx⟩ <;> cases hx
    rw [hlacks] at hl
    unfold Meta.Reaches at hr
    rw [hlacks] at hr
    exact ⟨u, e, hu, hmoved.le, he, hl, hr, hmoved⟩

private theorem writeKeeps_kept (hC : w.WriteKeeps (w.inInd f) buf count offset) {v : World}
    (hneg : Negative (fileWrite f buf count offset w) v) : KeptBelow w v (w.inInd f) := by
  by_cases hover : 4294967296 ≤ offset + count
  · have hidle := hC (Or.inl hover)
    obtain ⟨v', n, hn, hrun, hc, hb⟩ := fileWrite_overflow h hk hm hf hmap buf hoff hcount hover
    rw [hrun] at hneg
    rcases hneg with ⟨x, hx⟩ | ⟨n', -, hx⟩ <;> cases hx
    have hstop : offset + count - 4294967296 < 2147483648 := by omega
    have hmod : (offset + count) % 4294967296 = offset + count - 4294967296 := by omega
    have hsize := hidle.size
    rw [hmod] at hsize
    refine ⟨?_, fun p hp hz => ?_⟩
    · rw [hc, extended_inode _ _ hstop]
      split_ifs <;> omega
    · rw [World.addrOf, World.addrOf, hc, (extended_lacks _ _ hstop).1]
      exact hb _ (Or.inr (h.addrOf_bounds hk hz).1)
  have hsum : offset + count < 2147483648 := by
    by_contra hbig
    have hidle := hC (Or.inr (writeFails_signed w _ hoff (by omega) (by omega)))
    have hs := hidle.signed
    omega
  obtain ⟨u, e, hu, hlo, hhi, hl, hr, hmoved⟩ := fileWrite_negative h hk hm hf hmap hoff hcount hbuf hsum hneg
  have hidle := hC (Or.inr ⟨by omega, e, hlo, hhi, hl⟩)
  have hmod : (offset + count) % 4294967296 = offset + count := by omega
  have hsize := hidle.size
  rw [hmod] at hsize
  obtain ⟨hslot, -⟩ := extended_lacks w.cached (w.inInd f) hsum
  rw [← hu.cached] at hslot
  refine ⟨?_, fun p hp hz => ?_⟩
  · rw [hmoved.size, hu.cached, extended_inode _ _ hsum]
    split_ifs <;> omega
  · have hzu : u.cached.slot (w.inInd f) (p / BLKSIZE) ≠ 0 := by
      rw [hslot]
      exact hz
    have haddr : v.addrOf (w.inInd f) p = w.addrOf (w.inInd f) p := by
      rw [World.addrOf, World.addrOf, hmoved.kept hzu, hslot]
    have hoffm : OffMeta (w.addrOf (w.inInd f) p) := Or.inr (h.addrOf_bounds hk hz).1
    by_cases hin : landing offset ≤ p ∧ p < e
    · -- a byte that was copied
      have hcopy := hmoved.moved p hin.1 hin.2
      simp only [World.target, World.source, if_true] at hcopy
      have hsame := hidle.same (by omega) p hin.1 (by omega)
        (fun q hq hqp => hr q hq (by omega)) hp hz
      rw [hcopy, hu.byte _ ((hbuf (by omega)).offMeta (by omega)), hsame]
    · rw [haddr, ← hu.byte _ hoffm]
      refine hmoved.still _ hoffm fun q hqlo hqhi => ?_
      simp only [World.target, if_true]
      rw [← haddr]
      intro heq
      have hinj := (hmoved.sane.addrOf_inj hk hk (by rw [hmoved.kept hzu]; exact hzu) heq).2
      exact hin ⟨by omega, by omega⟩

private theorem writeKeeps_of_kept
    (hrange : offset + count < 2147483648 ∧ (∀ p ∈ pagesOf buf (min count (NDIRECT * BLKSIZE)),
      w.present p = true) ∨ 4294967296 ≤ offset + count)
    (hP : ∀ v, Negative (fileWrite f buf count offset w) v → KeptBelow w v (w.inInd f)) :
    w.WriteKeeps (w.inInd f) buf count offset := by
  intro hfail
  rcases hrange with ⟨hsum, hpages⟩ | hover
  swap
  · obtain ⟨v, n, hn, hrun, hc, -⟩ := fileWrite_overflow h hk hm hf hmap buf hoff hcount hover
    have hkept := (hP v (Or.inr ⟨n, hn, hrun⟩)).size
    have hstop : offset + count - 4294967296 < 2147483648 := by omega
    have hmod : (offset + count) % 4294967296 = offset + count - 4294967296 := by omega
    rw [hc, extended_inode _ _ hstop] at hkept
    refine ⟨by omega, ?_, fun hlt => by omega⟩
    rw [hmod]
    split_ifs at hkept <;> omega
  obtain ⟨-, p, hlo, hhi, hl⟩ := hfail.resolve_left (by omega)
  obtain ⟨u, r, hu, hrun, hreach⟩ := fileWrite_reached h hk hm hf hmap hsum (hbuf (by omega))
  obtain ⟨hslot, hlacks⟩ := extended_lacks w.cached (w.inInd f) hsum
  rw [← hu.cached] at hslot hlacks
  -- the call reports the block that it lacks
  rcases hreach with ⟨q, t, rfl, hq⟩ | ⟨t, rfl, hr⟩ | ⟨x, t, e, rfl, he, hle, hr, hmoved⟩
  · refine absurd (fun q' hq' => ?_) hq
    rw [Nat.add_sub_cancel_left] at hq'
    rw [hu.present]
    exact hpages q' hq'
  · have hbad := hr p hlo hhi
    rw [hlacks] at hbad
    exact absurd hl hbad
  have hkept := hP t (Or.inl ⟨x, hrun⟩)
  have hmod : (offset + count) % 4294967296 = offset + count := by omega
  refine ⟨by omega, ?_, fun _ q hqlo hqhi hqr hqs hqz => ?_⟩
  · have hsize := hkept.size
    rw [hmoved.size, hu.cached, extended_inode _ _ hsum] at hsize
    rw [hmod]
    split_ifs at hsize <;> omega
  · have hqe : q < e := by
      by_contra hge
      rw [hlacks] at hle
      exact hqr e hmoved.le (by omega) hle
    have hcopy := hmoved.moved q hqlo hqe
    simp only [World.target, World.source, if_true] at hcopy
    rw [hkept.byte q hqs hqz, hu.byte _ ((hbuf (by omega)).offMeta (by omega))] at hcopy
    exact hcopy.symm

end Keeps

private theorem Quiet.keptBelow {w t v : World} (h : Quiet w t) {k : Nat} : KeptBelow t v k ↔ KeptBelow w v k := by
  have haddr (p : Nat) : t.addrOf k p = w.addrOf k p := by
    rw [World.addrOf, World.addrOf, h.cached]
  constructor
  · rintro ⟨hs, hb⟩
    rw [h.cached] at hs hb
    simp only [haddr, h.byte] at hb
    exact ⟨hs, hb⟩
  · rintro ⟨hs, hb⟩
    rw [← h.cached] at hs hb
    simp only [← haddr, ← h.byte] at hb
    exact ⟨hs, hb⟩

private theorem Quiet.writeKeeps {w t : World} (h : Quiet w t) (k buf count offset : Nat) :
    t.WriteKeeps k buf count offset ↔ w.WriteKeeps k buf count offset := by
  have haddr (p : Nat) : t.addrOf k p = w.addrOf k p := by
    rw [World.addrOf, World.addrOf, h.cached]
  have hidle : t.WriteIdle k buf count offset ↔ w.WriteIdle k buf count offset := by
    constructor
    · rintro ⟨h1, h2, h3⟩
      rw [h.cached] at h2 h3
      simp only [haddr, h.byte] at h3
      exact ⟨h1, h2, h3⟩
    · rintro ⟨h1, h2, h3⟩
      rw [← h.cached] at h2 h3
      simp only [← haddr, ← h.byte] at h3
      exact ⟨h1, h2, h3⟩
  rw [World.WriteKeeps, World.WriteKeeps, hidle, World.WriteFails, World.WriteFails, h.cached]

/-- A write that returns a negative number has left size and contents alone if and only if it was to
change nothing. -/
theorem failed_write_iff (N : Nat) (w : World) (d f buf count offset : Nat) (h : Sane N w) (hd : d < N)
    (hin : w.EntryIn d f) (hk : w.inInd f < N) (hoff : offset < 2147483648) (hcount : count < 4294967296)
    (hbuf : offset + count < 4294967296 → Apart buf count) :
    (w.WriteKeeps (w.inInd f) buf count offset →
      ∀ v, Negative (fileWrite f buf count offset w) v → KeptBelow w v (w.inInd f)) ∧
    (offset + count < 2147483648 ∧
        (∀ p ∈ pagesOf buf (min count (NDIRECT * BLKSIZE)), w.present p = true) ∨
        4294967296 ≤ offset + count →
      (∀ v, Negative (fileWrite f buf count offset w) v → KeptBelow w v (w.inInd f)) →
      w.WriteKeeps (w.inInd f) buf count offset) := by
  obtain ⟨t, hl, hm, he⟩ := inodeOf_entryIn h hd hin
  have hq := hl.quiet
  have hkt : t.inInd f < N := by
    rw [hq.inInd]
    exact hk
  have hrun : fileWrite f buf count offset w = fileWrite f buf count offset t := bind_congr_run he
  have hoffm := hin.offMeta h hd
  have hmap := hin.inMap h hd
  rw [hrun]
  constructor
  · intro hC v hneg
    rw [← hq.writeKeeps, ← hq.inInd] at hC
    have hkept := writeKeeps_kept (hl.sane h) hkt hm hoffm hmap hoff hcount hbuf hC hneg
    rwa [hq.keptBelow, hq.inInd] at hkept
  · intro hrange hP
    rw [← hq.writeKeeps, ← hq.inInd]
    refine writeKeeps_of_kept (hl.sane h) hkt hm hoffm hmap hoff hcount hbuf ?_ fun v hneg => ?_
    · exact hrange.imp_left fun hr => ⟨hr.1, fun p hp => hq.present p (hr.2 p hp)⟩
    · rw [hq.keptBelow, hq.inInd]
      exact hP v hneg

theorem failed_write_fileWorld : fileWorld.EntryIn 0 (blockVa 2) ∧
    ∀ v, Negative (fileWrite (blockVa 2) 4096 1 (0 : Nat) fileWorld) v →
      KeptBelow fileWorld v (fileWorld.inInd (blockVa 2)) := by
  refine ⟨entryIn_fileWorld, ?_⟩
  refine (failed_write_iff 4 fileWorld 0 (blockVa 2) 4096 1 0 sane_fileWorld (by decide) entryIn_fileWorld
    (by decide +kernel) (by decide) (by decide) (by decide)).1 fun hfail => ?_
  rcases hfail with hover | ⟨-, p, hlo, hhi, hl⟩
  · omega
  · have hp : p = 0 := by
      simp only [landing] at hhi
      omega
    subst hp
    have hno : ¬fileWorld.cached.Lacks (fileWorld.inInd (blockVa 2)) (landing 0 / BLKSIZE)
        (0 / BLKSIZE) := by decide +kernel
    exact absurd hl hno

/-- One byte behind the last slot: the call fails, and the size is 53249. -/
theorem failed_write_grows : ¬∀ (N : Nat) (w v : World) (d f buf count offset : Nat), Sane N w → d < N →
    w.EntryIn d f → w.inInd f < N → offset < 2147483648 → count < 4294967296 → Apart buf count →
      Negative (fileWrite f buf count offset w) v → KeptBelow w v (w.inInd f) := by
  intro hall
  have hrun : fileWrite (blockVa 2) 4096 1 (53248 : Nat) fileWorld = .error (.err .inval) _ :=
    eq_error_of_reply (by decide +kernel)
  have hkept := hall 4 fileWorld _ 0 (blockVa 2) 4096 1 53248 sane_fileWorld (by decide) entryIn_fileWorld
    (by decide +kernel) (by decide) (by decide) (by decide) (Or.inl ⟨_, hrun⟩)
  refine absurd hkept.size ?_
  decide +kernel

end DamnOS.FileSystem
