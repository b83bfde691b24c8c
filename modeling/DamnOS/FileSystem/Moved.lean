import DamnOS.FileSystem.Transfer

/-!
# The bytes a loop moves

With the buffer outside the disk map, the loops of `file_read` and `file_write` move exactly the
bytes of the positions they pass.  Empty slots on the way get free blocks; nothing else that can be
seen changes.
-/

namespace DamnOS.FileSystem

open DamnOS.Framework

/-- The address of position `p` of inode `k`. -/
def World.addrOf (w : World) (k p : Nat) : Nat :=
  blockVa (w.cached.slot k (p / BLKSIZE)) + p % BLKSIZE

theorem piece_block {a n p : Nat} (hn : a % BLKSIZE + n ≤ BLKSIZE) (hlo : a ≤ p) (hhi : p < a + n) :
    p / BLKSIZE = a / BLKSIZE ∧ p % BLKSIZE = a % BLKSIZE + (p - a) := by
  simp only [BLKSIZE] at *
  omega

/-- Different positions with filled slots have different addresses. -/
theorem Sane.addrOf_inj {N : Nat} {w : World} (h : Sane N w) {k p i q : Nat} (hk : k < N) (hi : i < N)
    (hp : w.cached.slot k (p / BLKSIZE) ≠ 0) (he : w.addrOf k p = w.addrOf i q) :
    k = i ∧ p = q := by
  have hs : w.cached.slot k (p / BLKSIZE) = w.cached.slot i (q / BLKSIZE) := by
    simp only [World.addrOf, blockVa, BLKSIZE, DISKMAP] at *
    omega
  obtain ⟨rfl, hj⟩ := h.slot_inj hk hi hp hs
  refine ⟨rfl, ?_⟩
  rw [World.addrOf, World.addrOf, hs] at he
  simp only [BLKSIZE] at *
  omega

/-- Addresses of file positions lie in data blocks of the disk map. -/
theorem Sane.addrOf_bounds {N : Nat} {w : World} (h : Sane N w) {k p : Nat} (hk : k < N)
    (hp : w.cached.slot k (p / BLKSIZE) ≠ 0) :
    blockVa 2 ≤ w.addrOf k p ∧ w.addrOf k p < DISKMAP + DISKSIZE := by
  have hv := h.slot_valid hk hp
  have hlt := h.slot_lt hk hp
  have hmod : p % 4096 < 4096 := Nat.mod_lt _ (by decide)
  simp only [World.addrOf, blockVa, DISKMAP, DISKSIZE, BLKSIZE, MAXBLKNUM] at *
  omega

theorem Apart.offMeta {buf n x : Nat} (h : Apart buf n) (hx : buf ≤ x ∧ x < buf + n) : OffMeta x := by
  simp only [Apart, OffMeta, blockVa, DISKMAP, DISKSIZE, BLKSIZE] at *
  omega

/-- A buffer outside the disk map has none of the addresses of a file. -/
theorem Sane.addrOf_ne {N : Nat} {w : World} (h : Sane N w) {k p : Nat} (hk : k < N)
    (hp : w.cached.slot k (p / BLKSIZE) ≠ 0) {buf n x : Nat} (ha : Apart buf n)
    (hx : buf ≤ x ∧ x < buf + n) : x ≠ w.addrOf k p := by
  have hb := h.addrOf_bounds hk hp
  simp only [Apart, blockVa, DISKMAP, DISKSIZE, BLKSIZE] at *
  omega

private theorem touchPage_marked {w : World} {b : Nat} (hlt : b < w.cached.blkNum) (hmax : b < MAXBLKNUM)
    (ho : w.cached.blkOcp b = true) : ∃ v, touchPage (superPg + b) w = .ok () v := by
  by_cases hp : w.present (superPg + b) = true
  · exact ⟨w, touchPage_present hp⟩
  have hb : superPg + b - superPg = b := by omega
  have hfree : ¬(w.load (superPg + b)).blockIsFree b = true := by
    rw [blockIsFree_iff _ hmax, cached_load w (by omega) (by simpa using hp), ho]
    simp
  have hin : ¬((superPg + b) * PGSIZE < DISKMAP ∨ DISKMAP + DISKSIZE ≤ (superPg + b) * PGSIZE) := by
    simp only [superPg, PGSIZE, DISKMAP, DISKSIZE, MAXBLKNUM] at *
    omega
  have hnum : ¬w.blkNum ≤ b := by
    rw [blkNum_cached]
    omega
  refine ⟨w.load (superPg + b), ?_⟩
  rw [touchPage, bind_ok (get_run w), if_neg hp, bcPgfault, bind_ok (get_run w), if_neg hin, hb,
    if_neg hnum, bind_ok (modify_run _ w), bind_ok (get_run _), if_neg hfree]
  rfl

theorem touch_marked {w : World} {b a n : Nat} (hlt : b < w.cached.blkNum) (hmax : b < MAXBLKNUM)
    (ho : w.cached.blkOcp b = true) (hlo : blockVa b ≤ a) (hhi : a + n ≤ blockVa b + BLKSIZE) :
    ∃ v, touch a n w = .ok () v := by
  unfold touch pagesOf
  split_ifs with hn
  · exact ⟨w, rfl⟩
  have hfirst : a / PGSIZE = superPg + b := by
    simp only [blockVa, PGSIZE, superPg, DISKMAP, BLKSIZE] at *
    omega
  have hlast : (a + n - 1) / PGSIZE = superPg + b := by
    simp only [blockVa, PGSIZE, superPg, DISKMAP, BLKSIZE] at *
    omega
  rw [hfirst, hlast, Nat.add_sub_cancel_left]
  obtain ⟨v, hv⟩ := touchPage_marked hlt hmax ho
  exact ⟨v, bind_ok hv⟩

/-- `memmove` shows the old bytes of the source at the destination, or stops the server. -/
theorem memmove_cases (dst src n : Nat) (w : World) :
    (∃ v, memmove dst src n w = .ok () v ∧ v.byte = splice w.byte dst n (fun i => w.byte (src + i)) ∧
      (∀ p, w.present p = true → v.present p = true) ∧ v.accesses = w.accesses ∧
      v.followed = w.followed ∧ ∀ p ∈ pagesOf dst n, v.present p = true) ∨
    (∃ p v, memmove dst src n w = .error (.panic p) v ∧ Loads w v) := by
  rcases touch_cases src n w with ⟨t, ht, hl, -⟩ | ⟨p, t, ht, hl⟩
  swap
  · exact Or.inr ⟨p, t, bind_error ht, hl⟩
  rcases touch_cases dst n t with ⟨s, hs, hl', hp⟩ | ⟨p, s, hs, hl'⟩
  swap
  · exact Or.inr ⟨p, s, (bind_ok ht).trans (bind_error hs), hl.trans hl'⟩
  have hq := (hl.trans hl').quiet
  refine Or.inl ⟨s.write dst n fun i => s.byte (src + i), (bind_ok ht).trans (bind_ok hs), ?_,
    hq.present, (hl.trans hl').accesses, (hl.trans hl').followed, hp⟩
  rw [byte_write s dst n _ (present_bytes hp), hq.byte]

/-- Empty slots of inode `k` between the positions `a` and `stop` may have got free blocks. -/
structure Fills (N k a stop : Nat) (w v : World) : Prop where
  sane : Sane N v
  slot : ∀ i j, v.cached.slot i j = w.cached.slot i j ∨ i = k ∧ w.cached.slot i j = 0 ∧
    v.cached.slot i j ≠ 0 ∧ w.cached.blkOcp (v.cached.slot i j) = false ∧
      ∃ p, a ≤ p ∧ p < stop ∧ j = p / BLKSIZE
  other : ∀ i, i ≠ k → v.cached.inode i = w.cached.inode i
  type : (v.cached.inode k).type = (w.cached.inode k).type
  size : (v.cached.inode k).size = (w.cached.inode k).size
  inOcp : v.cached.inOcp = w.cached.inOcp
  inNum : v.cached.inNum = w.cached.inNum
  blkNum : v.cached.blkNum = w.cached.blkNum
  blkOcp : ∀ b, w.cached.blkOcp b = true → v.cached.blkOcp b = true
  idle : (∀ p, a ≤ p → p < stop → w.cached.slot k (p / BLKSIZE) ≠ 0) → v.cached = w.cached
  present : ∀ p, w.present p = true → v.present p = true
  followed : v.followed = w.followed

namespace Fills

variable {N k a stop : Nat} {w t v : World}

theorem same (h : Sane N w) (hc : v.cached = w.cached)
    (hp : ∀ p, w.present p = true → v.present p = true) (hf : v.followed = w.followed) :
    Fills N k a stop w v where
  sane := h.of_cached ⟨hp _ h.ready.super, hp _ h.ready.inode⟩ hc
  slot i j := Or.inl (by rw [hc])
  other _ _ := by rw [hc]
  type := by rw [hc]
  size := by rw [hc]
  inOcp := by rw [hc]
  inNum := by rw [hc]
  blkNum := by rw [hc]
  blkOcp _ hb := by rwa [hc]
  idle _ := hc
  present := hp
  followed := hf

theorem kept (h : Fills N k a stop w v) {i j : Nat} (hz : w.cached.slot i j ≠ 0) :
    v.cached.slot i j = w.cached.slot i j := by
  rcases h.slot i j with he | ⟨-, h0, -⟩
  · exact he
  · exact absurd h0 hz

theorem mono (h : Fills N k a stop w v) {b : Nat} (hb : b ≤ a) : Fills N k b stop w v where
  __ := h
  slot i j := by
    rcases h.slot i j with he | ⟨hi, hz, hne, hf, p, hlo, hp⟩
    · exact Or.inl he
    · exact Or.inr ⟨hi, hz, hne, hf, p, hb.trans hlo, hp⟩
  idle hall := h.idle fun p hp => hall p (hb.trans hp)

theorem trans (h : Fills N k a stop w t) (h' : Fills N k a stop t v) : Fills N k a stop w v where
  sane := h'.sane
  slot i j := by
    rcases h.slot i j with he | ⟨hi, hz, hne, hf, hp⟩
    · rcases h'.slot i j with he' | ⟨hi', hz', hne', hf', hp'⟩
      · exact Or.inl (he'.trans he)
      · refine Or.inr ⟨hi', by rw [← he, hz'], hne', ?_, hp'⟩
        by_contra hc
        rw [h.blkOcp _ (by simpa using hc)] at hf'
        cases hf'
    · rw [h'.kept hne]
      exact Or.inr ⟨hi, hz, hne, hf, hp⟩
  other i hi := (h'.other i hi).trans (h.other i hi)
  type := h'.type.trans h.type
  size := h'.size.trans h.size
  inOcp := h'.inOcp.trans h.inOcp
  inNum := h'.inNum.trans h.inNum
  blkNum := h'.blkNum.trans h.blkNum
  blkOcp b hb := h'.blkOcp b (h.blkOcp b hb)
  idle hall := by
    have hc := h.idle hall
    rw [h'.idle fun p hlo hhi => by rw [hc]; exact hall p hlo hhi, hc]
  present p hp := h'.present p (h.present p hp)
  followed := h'.followed.trans h.followed

end Fills

theorem Obtains.fills {N : Nat} {w v : World} {k p b : Nat} (h : Obtains N w k (p / BLKSIZE) b v)
    {stop : Nat} (hp : p < stop) : Fills N k p stop w v where
  sane := h.sane
  slot i j := by
    rw [h.slot]
    split_ifs with hc
    · obtain ⟨rfl, rfl⟩ := hc
      rcases h.owned with he | ⟨hz, hf⟩
      · exact Or.inl he.symm
      · exact Or.inr ⟨rfl, hz, by have := h.two_le; omega, hf, p, le_rfl, hp, rfl⟩
    · exact Or.inl rfl
  other := h.other
  type := h.type
  size := h.size
  inOcp := h.inOcp
  inNum := h.inNum
  blkNum := h.blkNum
  blkOcp c hc := by
    rw [h.blkOcp, hc]
    simp
  idle hall := h.idle (hall p le_rfl hp)
  present q hq := by
    rw [h.present]
    exact hq
  followed := h.followed

/-- Where a byte of position `p` goes, and where it comes from; the buffer holds the positions
from `base` on. -/
def World.target (v : World) (wr : Bool) (k buf base p : Nat) : Nat :=
  if wr then v.addrOf k p else buf + (p - base)

def World.source (v : World) (wr : Bool) (k buf base p : Nat) : Nat :=
  if wr then buf + (p - base) else v.addrOf k p

/-- The positions from `a` up to `e` were moved, on the way to `stop`. -/
structure Moved (N k : Nat) (wr : Bool) (buf base stop a e : Nat) (w v : World) : Prop
    extends Fills N k a stop w v where
  le : a ≤ e
  filled : ∀ p, a ≤ p → p < e → v.cached.slot k (p / BLKSIZE) ≠ 0
  moved : ∀ p, a ≤ p → p < e →
    v.byte (v.target wr k buf base p) = w.byte (v.source wr k buf base p)
  still : ∀ x, OffMeta x → (∀ p, a ≤ p → p < e → x ≠ v.target wr k buf base p) → v.byte x = w.byte x

namespace Moved

variable {N k : Nat} {wr : Bool} {buf base stop a b e : Nat} {w t v : World}

theorem of_fills (h : Fills N k a stop w v) (hb : ∀ x, OffMeta x → v.byte x = w.byte x) :
    Moved N k wr buf base stop a a w v :=
  ⟨h, le_rfl, fun p hlo hhi => by omega, fun p hlo hhi => by omega, fun x hx _ => hb x hx⟩

theorem addrOf_kept (h : Fills N k a stop w v) {i p : Nat} (hz : w.cached.slot i (p / BLKSIZE) ≠ 0) :
    v.addrOf i p = w.addrOf i p := by
  rw [World.addrOf, World.addrOf, h.kept hz]

theorem trans (hk : k < N) (hbuf : Apart buf (stop - base)) (hbase : base ≤ a) (hstop : e ≤ stop)
    (h : Moved N k wr buf base stop a b w t) (h' : Moved N k wr buf base stop b e t v) :
    Moved N k wr buf base stop a e w v := by
  have hab := h.le
  have hbe := h'.le
  -- positions moved by the first run keep their addresses in the second
  have hkeep (p : Nat) (hlo : a ≤ p) (hhi : p < b) : v.addrOf k p = t.addrOf k p :=
    addrOf_kept h'.toFills (h.filled p hlo hhi)
  have hfilled (p : Nat) (hlo : a ≤ p) (hhi : p < e) : v.cached.slot k (p / BLKSIZE) ≠ 0 := by
    rcases Nat.lt_or_ge p b with hp | hp
    · rw [h'.kept (h.filled p hlo hp)]
      exact h.filled p hlo hp
    · exact h'.filled p hp hhi
  have hoff (p : Nat) (hlo : a ≤ p) (hhi : p < e) : OffMeta (v.addrOf k p) :=
    Or.inr (h'.sane.addrOf_bounds hk (hfilled p hlo hhi)).1
  have hin (p : Nat) (hlo : a ≤ p) (hhi : p < e) :
      buf ≤ buf + (p - base) ∧ buf + (p - base) < buf + (stop - base) := by
    omega
  refine ⟨h.toFills.trans (h'.toFills.mono hab), hab.trans hbe, hfilled, ?_, ?_⟩
  · intro p hlo hhi
    cases wr with
    | true =>
      simp only [World.target, World.source, if_true]
      rcases Nat.lt_or_ge p b with hp | hp
      · have hs := h'.still (v.addrOf k p) (hoff p hlo hhi) fun q hq hq' he => by
          simp only [World.target, if_true] at he
          have hpq := (h'.sane.addrOf_inj hk hk (hfilled p hlo hhi) he).2
          omega
        have hm := h.moved p hlo hp
        simp only [World.target, World.source, if_true] at hm
        rw [hs, hkeep p hlo hp, hm]
      · have hm := h'.moved p hp hhi
        simp only [World.target, World.source, if_true] at hm
        rw [hm]
        refine h.still _ (hbuf.offMeta (hin p hlo hhi)) fun q hq hq' => ?_
        simp only [World.target, if_true]
        exact h.sane.addrOf_ne hk (h.filled q hq hq') hbuf (hin p hlo hhi)
    | false =>
      simp only [World.target, World.source, Bool.false_eq_true, if_false]
      rcases Nat.lt_or_ge p b with hp | hp
      · have hs := h'.still (buf + (p - base)) (hbuf.offMeta (hin p hlo hhi)) fun q hq hq' he => by
          simp only [World.target, Bool.false_eq_true, if_false] at he
          omega
        have hm := h.moved p hlo hp
        simp only [World.target, World.source, Bool.false_eq_true, if_false] at hm
        rw [hs, hm, hkeep p hlo hp]
      · have hm := h'.moved p hp hhi
        simp only [World.target, World.source, Bool.false_eq_true, if_false] at hm
        rw [hm]
        refine h.still _ (hoff p hlo hhi) fun q hq hq' => ?_
        simp only [World.target, Bool.false_eq_true, if_false]
        exact (h'.sane.addrOf_ne hk (hfilled p hlo hhi) hbuf (hin q hq (by omega))).symm
  · intro x hx hne
    have h2 := h'.still x hx fun q hq hq' => hne q (by omega) hq'
    rw [h2]
    refine h.still x hx fun q hq hq' => ?_
    have hq2 := hne q hq (by omega)
    cases wr with
    | true =>
      simp only [World.target, if_true] at hq2 ⊢
      rwa [hkeep q hq hq'] at hq2
    | false => simpa only [World.target, Bool.false_eq_true, if_false] using hq2

end Moved

theorem cached_of_meta {w v : World} (h : ∀ x, ¬OffMeta x → v.byte x = w.byte x) :
    v.cached = w.cached := by
  apply decode_congr
  · intro o ho
    apply h
    simp only [OffMeta, blockVa, DISKMAP, BLKSIZE] at *
    omega
  · intro o ho
    apply h
    simp only [OffMeta, blockVa, DISKMAP, BLKSIZE] at *
    omega

theorem chunk_bounds {a stop : Nat} (ha : a < stop) (hstop : stop < 4294967296) :
    a % BLKSIZE + chunk a stop ≤ BLKSIZE ∧ a + chunk a stop ≤ stop ∧ 0 < chunk a stop := by
  have hc := chunk_nat ha.le hstop
  have hmod : a % BLKSIZE < BLKSIZE := Nat.mod_lt _ (by decide)
  omega

/-- With the buffer mapped, a piece of a marked block is always copied. -/
theorem copy_returns {N : Nat} {w : World} (h : Sane N w) (wr : Bool) {b o n buf : Nat}
    (hlt : b < w.cached.blkNum) (ho : w.cached.blkOcp b = true) (hin : o + n ≤ BLKSIZE)
    (hm : ∀ p ∈ pagesOf buf n, w.present p = true) :
    ∃ v, copy wr (blockVa b + o) buf n w = .ok () v := by
  obtain ⟨u, hu⟩ := touch_marked (a := blockVa b + o) (n := n) hlt
    (lt_of_lt_of_le hlt h.owned.blkNum_le) ho (by omega) (by omega)
  have hq : Quiet w u := Keeps.of_ok hu
  cases wr with
  | true => exact ⟨_, (bind_ok (touch_present hm)).trans (bind_ok hu)⟩
  | false => exact ⟨_, (bind_ok hu).trans (bind_ok (touch_present fun p hp => hq.present p (hm p hp)))⟩

theorem Obtains.copy_returns {N : Nat} {w v : World} {k j b : Nat} (h : Obtains N w k j b v)
    (wr : Bool) (x : Access) {o n : Nat} (buf : Nat) (hin : o + n ≤ BLKSIZE)
    (hm : ∀ p ∈ pagesOf buf n, w.present p = true) :
    ∃ u, copy wr (blockVa b + o) buf n (v.log x) = .ok () u := by
  have hs : Sane N (v.log x) := h.sane.of_cached (h.sane.ready.of_present rfl) (cached_of_byte rfl)
  have hc : (v.log x).cached = v.cached := cached_of_byte rfl
  refine FileSystem.copy_returns hs wr ?_ ?_ hin fun p hp => ?_
  · rw [hc, h.blkNum]
    exact h.lt_blkNum
  · rw [hc, h.blkOcp]
    simp
  · change v.present p = true
    rw [h.present]
    exact hm p hp

theorem pagesOf_subset {a n b m : Nat} (hlo : a ≤ b) (hhi : b + m ≤ a + n) :
    ∀ p ∈ pagesOf b m, p ∈ pagesOf a n := by
  intro p hp
  rw [mem_pagesOf] at hp ⊢
  exact ⟨by omega, (Nat.div_le_div_right hlo).trans hp.2.1,
    hp.2.2.trans (Nat.div_le_div_right (by omega))⟩

section Piece

variable {N : Nat} {w : World} (h : Sane N w) {k : Nat} (hk : k < N) (wr : Bool)
  {buf base stop a b : Nat} (hbuf : Apart buf (stop - base)) (hbase : base ≤ a) (ha : a < stop)
  (hstop : stop < 4294967296) (hb : w.obtain k (a / BLKSIZE) = some b) (x : Access)
include h hk hbuf hbase ha hstop hb

private theorem moved_of_splice {v : World} (hv : v.byte = splice ((w.obtained k (a / BLKSIZE) b).log x).byte
      (if wr then blockVa b + a % BLKSIZE else buf + (a - base)) (chunk a stop) fun i =>
        ((w.obtained k (a / BLKSIZE) b).log x).byte
          ((if wr then buf + (a - base) else blockVa b + a % BLKSIZE) + i))
    (hp : ∀ p, w.present p = true → v.present p = true) (hf : v.followed = w.followed) :
    Moved N k wr buf base stop a (a + chunk a stop) w v := by
  have ho := obtains h hk hb
  obtain ⟨hin, hend, -⟩ := chunk_bounds ha hstop
  generalize chunk (a : Int) stop = n at *
  have hb2 := ho.two_le
  have hblt : b < MAXBLKNUM := lt_of_lt_of_le ho.lt_blkNum h.owned.blkNum_le
  have hcached : v.cached = (w.obtained k (a / BLKSIZE) b).cached := by
    refine cached_of_meta fun y hy => ?_
    rw [hv]
    refine splice_outside _ _ ?_
    simp only [OffMeta, Apart, blockVa, DISKMAP, DISKSIZE, BLKSIZE, MAXBLKNUM] at *
    split_ifs <;> omega
  have hfills : Fills N k a stop w v := by
    refine (ho.fills ha).trans (Fills.same ho.sane hcached ?_ ?_)
    · intro p hpp
      rw [ho.present] at hpp
      exact hp p hpp
    · rw [hf, ho.followed]
  have hslot (p : Nat) (hlo : a ≤ p) (hhi : p < a + n) : v.cached.slot k (p / BLKSIZE) = b := by
    rw [hcached, ho.slot, (piece_block hin hlo hhi).1]
    simp
  have haddr (p : Nat) (hlo : a ≤ p) (hhi : p < a + n) :
      v.addrOf k p = blockVa b + a % BLKSIZE + (p - a) := by
    rw [World.addrOf, hslot p hlo hhi, (piece_block hin hlo hhi).2, Nat.add_assoc]
  have hsplit (p : Nat) (hlo : a ≤ p) : buf + (p - base) = buf + (a - base) + (p - a) := by omega
  have hseen (y : Nat) (hy : OffMeta y) :
      ((w.obtained k (a / BLKSIZE) b).log x).byte y = w.byte y := ho.byte y hy
  have hblock (p : Nat) (hlo : a ≤ p) (hhi : p < a + n) : OffMeta (blockVa b + a % BLKSIZE + (p - a)) := by
    right
    simp only [blockVa, DISKMAP, BLKSIZE] at *
    omega
  have hbuffer (p : Nat) (hlo : a ≤ p) (hhi : p < a + n) : OffMeta (buf + (a - base) + (p - a)) :=
    hbuf.offMeta (by omega)
  refine ⟨hfills, Nat.le_add_right _ _, fun p hlo hhi => ?_, fun p hlo hhi => ?_, fun y hy hne => ?_⟩
  · rw [hslot p hlo hhi]
    omega
  · cases wr with
    | true =>
      simp only [World.target, World.source, if_true] at hv ⊢
      rw [haddr p hlo hhi, hsplit p hlo, hv, splice_inside _ _ (by omega), Nat.add_sub_cancel_left,
        hseen _ (hbuffer p hlo hhi)]
    | false =>
      simp only [World.target, World.source, Bool.false_eq_true, if_false] at hv ⊢
      rw [haddr p hlo hhi, hsplit p hlo, hv, splice_inside _ _ (by omega), Nat.add_sub_cancel_left,
        hseen _ (hblock p hlo hhi)]
  · rw [hv, splice_outside, hseen y hy]
    by_contra hc
    -- the byte would belong to a position of the piece
    cases wr with
    | true =>
      simp only [World.target, if_true] at hne hc
      refine hne (a + (y - (blockVa b + a % BLKSIZE))) (by omega) (by omega) ?_
      rw [haddr _ (by omega) (by omega)]
      omega
    | false =>
      simp only [World.target, Bool.false_eq_true, if_false] at hne hc
      exact hne (a + (y - (buf + (a - base)))) (by omega) (by omega) (by omega)

/-- Copying a piece moves its bytes, or stops the server at the buffer. -/
theorem copy_piece :
    (∃ v, copy wr (blockVa b + a % BLKSIZE) (buf + (a - base)) (chunk a stop)
        ((w.obtained k (a / BLKSIZE) b).log x) = .ok () v ∧
      Moved N k wr buf base stop a (a + chunk a stop) w v) ∨
    (∃ p v, copy wr (blockVa b + a % BLKSIZE) (buf + (a - base)) (chunk a stop)
        ((w.obtained k (a / BLKSIZE) b).log x) = .error (.panic p) v ∧
      Moved N k wr buf base stop a a w v) := by
  have ho := obtains h hk hb
  have hcopy : copy wr (blockVa b + a % BLKSIZE) (buf + (a - base)) (chunk a stop) =
      memmove (if wr then blockVa b + a % BLKSIZE else buf + (a - base))
        (if wr then buf + (a - base) else blockVa b + a % BLKSIZE) (chunk a stop) := by
    cases wr <;> rfl
  rw [hcopy]
  rcases memmove_cases (if wr then blockVa b + a % BLKSIZE else buf + (a - base))
      (if wr then buf + (a - base) else blockVa b + a % BLKSIZE) (chunk a stop)
      ((w.obtained k (a / BLKSIZE) b).log x) with ⟨v, hr, hv, hp, -, hf, -⟩ | ⟨p, v, hr, hl⟩
  · refine Or.inl ⟨v, hr, moved_of_splice h hk wr hbuf hbase ha hstop hb x hv (fun q hq => hp q ?_)
      (hf.trans ho.followed)⟩
    change (w.obtained k (a / BLKSIZE) b).present q = true
    rw [ho.present]
    exact hq
  · refine Or.inr ⟨p, v, hr, Moved.of_fills ((ho.fills ha).trans (Fills.same ho.sane ?_ ?_ ?_)) ?_⟩
    · exact hl.quiet.cached
    · exact hl.quiet.present
    · exact hl.followed
    · intro y hy
      rw [hl.quiet.byte]
      exact ho.byte y hy

end Piece

section Loop

variable {N k : Nat} (hk : k < N) (wr : Bool) {buf : Nat} (base stop : Nat)
  (hbuf : Apart buf (stop - base))
  (hstop : stop < 4294967296)
include hk hbuf hstop

/-- From a position inside the file on, the loop moves the positions it passes, and all of them if
it returns. -/
theorem copyLoop_moved (fuel : Nat) {a : Nat} {w : World} (h : Sane N w) (hbase : base ≤ a)
    (ha : a ≤ stop) (hlim : a < 268435456) (hfuel : stop - a < fuel) : ∃ e ≤ stop,
      Moved N k wr buf base stop a e w
        (final (copyLoop wr (inodeVa k) stop fuel a (buf + (a - base))) w) ∧
      ∀ v, copyLoop wr (inodeVa k) stop fuel a (buf + (a - base)) w = .ok () v → e = stop := by
  induction fuel generalizing a w with
  | zero => omega
  | succ fuel ih =>
    have hpos : toU32 a = a := toU32_natCast (by omega)
    have hnone (u : World) (hu : Fills N k a stop w u) (hb : ∀ x, OffMeta x → u.byte x = w.byte x) :
        Moved N k wr buf base stop a a w u := Moved.of_fills hu hb
    rcases ha.eq_or_lt with rfl | hlt
    · rw [final_ok (copyLoop_done wr (fuel + 1) _ (by omega) w)]
      exact ⟨a, le_rfl, hnone w (Fills.same h rfl (fun _ hp => hp) rfl) fun _ _ => rfl, fun _ _ => rfl⟩
    have hcases := copyLoop_cases wr (inodeVa k) fuel (buf + (a - base)) w
      (by rwa [hpos] : toU32 (a : Int) < stop)
    rw [blockIndex_nat hlim] at hcases
    obtain ⟨-, hend, hcpos⟩ := chunk_bounds hlt hstop
    rcases hob : w.obtain k (a / BLKSIZE) with _ | b
    · -- no block: nothing happened
      have hget := fileGetBlock_fail h hk hob
      rcases hcases with ⟨x, t, hno, hrun⟩ | ⟨blk, t, x, hyes, -⟩
      · rw [hget] at hno
        cases hno
        rw [final_error hrun, hrun]
        exact ⟨a, hlt.le, hnone w (Fills.same h rfl (fun _ hp => hp) rfl) fun _ _ => rfl,
          fun _ he => by cases he⟩
      · rw [hget] at hyes
        cases hyes
    · have hget := fileGetBlock_obtain h hk hob
      rcases hcases with ⟨x, t, hno, -⟩ | ⟨blk, t, x, hyes, -, hcopy⟩
      · rw [hget] at hno
        cases hno
      rw [hget] at hyes
      cases hyes
      rw [inBlock_nat] at hcopy
      rcases copy_piece h hk wr hbuf hbase hlt hstop hob x with ⟨u, hu, hmove⟩ | ⟨p, u, hu, hmove⟩ <;>
        rcases hcopy with ⟨e, s, hc, hrun⟩ | ⟨s, hc, hrun⟩ <;> rw [hu] at hc <;> cases hc
      · have hnext : a + chunk a stop < 268435456 := by
          have hj := (obtains h hk hob).bound
          have hc := chunk_nat hlt.le hstop
          simp only [NDIRECT, BLKSIZE] at *
          omega
        obtain ⟨e, he, hm, hok⟩ := ih (a := a + chunk a stop) hmove.sane (by omega) hend hnext
          (by omega)
        rw [Int.natCast_add, show buf + (a + chunk (a : Int) stop - base) =
          buf + (a - base) + chunk (a : Int) stop by omega] at hm hok
        refine ⟨e, he, ?_, by rwa [hrun]⟩
        rw [final, hrun]
        exact Moved.trans hk hbuf hbase he hmove hm
      · rw [final_error hrun, hrun]
        exact ⟨a, hlt.le, hmove, fun _ he => by cases he⟩

theorem copyLoop_returns (fuel : Nat) {a : Nat} {w : World} (h : Sane N w) (hbase : base ≤ a)
    (ha : a ≤ stop) (hlim : stop < 268435456) (hfuel : stop - a < fuel)
    (hfilled : ∀ p, a ≤ p → p < stop → w.cached.slot k (p / BLKSIZE) ≠ 0)
    (hm : ∀ p ∈ pagesOf buf (stop - base), w.present p = true) :
    ∃ v, copyLoop wr (inodeVa k) stop fuel a (buf + (a - base)) w = .ok () v := by
  induction fuel generalizing a w with
  | zero => omega
  | succ fuel ih =>
    have hpos : toU32 a = a := toU32_natCast (by omega)
    rcases ha.eq_or_lt with rfl | hlt
    · exact ⟨w, copyLoop_done wr (fuel + 1) _ (by omega) w⟩
    have hcases := copyLoop_cases wr (inodeVa k) fuel (buf + (a - base)) w
      (by rwa [hpos] : toU32 (a : Int) < stop)
    rw [blockIndex_nat (by omega)] at hcases
    obtain ⟨hin, hend, hcpos⟩ := chunk_bounds hlt hstop
    have hz := hfilled a le_rfl hlt
    have hj : a / BLKSIZE < NDIRECT := by
      by_contra hj
      exact hz (slot_ge w k (not_lt.mp hj))
    have hob : w.obtain k (a / BLKSIZE) = some (w.cached.slot k (a / BLKSIZE)) := by
      rw [World.obtain, if_neg (not_le.mpr hj), if_neg hz]
    have hget := fileGetBlock_obtain h hk hob
    rcases hcases with ⟨x, t, hno, -⟩ | ⟨blk, t, x, hyes, -, hcopy⟩
    · rw [hget] at hno
      cases hno
    rw [hget] at hyes
    cases hyes
    rw [inBlock_nat] at hcopy
    obtain ⟨u, hu⟩ := (obtains h hk hob).copy_returns wr x (buf + (a - base)) hin
      fun p hp => hm p (pagesOf_subset (by omega) (by omega) p hp)
    rcases copy_piece h hk wr hbuf hbase hlt hstop hob x with ⟨u', hu', hmove⟩ | ⟨p, u', hu', -⟩ <;>
      rw [hu] at hu' <;> cases hu'
    rcases hcopy with ⟨e, s, hc, hrun⟩ | ⟨s, hc, hrun⟩ <;> rw [hu] at hc <;> cases hc
    rw [hrun]
    have hnext := ih (a := a + chunk a stop) hmove.sane (by omega) hend (by omega)
      (fun p hlo hhi => by
        rw [hmove.kept (hfilled p (by omega) hhi)]
        exact hfilled p (by omega) hhi)
      fun p hp => hmove.present p (hm p hp)
    rwa [Int.natCast_add, show buf + (a + chunk (a : Int) stop - base) =
      buf + (a - base) + chunk (a : Int) stop by omega] at hnext

end Loop

end DamnOS.FileSystem
