import DamnOS.FileSystem.Create

/-!
# Calls beside the other files

A write to a file, at whatever non-negative offset and however it ends, a read or a new size change its
own inode and its own blocks: the inode bitmap, the other inodes and the bytes of the other files stay.
-/

namespace DamnOS.FileSystem

open DamnOS.Framework

/-- Everything but inode `k` and its blocks is as before. -/
structure Beside (N k : Nat) (w v : World) : Prop where
  sane : Sane N v
  inOcp : v.cached.inOcp = w.cached.inOcp
  type : (v.cached.inode k).type = (w.cached.inode k).type
  other : ∀ i, i ≠ k → v.cached.inode i = w.cached.inode i
  byte : ∀ i p, i < N → i ≠ k → w.cached.slot i (p / BLKSIZE) ≠ 0 →
    v.byte (w.addrOf i p) = w.byte (w.addrOf i p)

namespace Beside

variable {N k : Nat} {w t v : World}

theorem slot (h : Beside N k w v) {i : Nat} (hi : i ≠ k) (j : Nat) :
    v.cached.slot i j = w.cached.slot i j := by
  rw [Meta.slot, Meta.slot, h.other i hi]

theorem addrOf (h : Beside N k w v) {i : Nat} (hi : i ≠ k) (p : Nat) : v.addrOf i p = w.addrOf i p := by
  rw [World.addrOf, World.addrOf, h.slot hi]

theorem of_quiet (hw : Sane N w) (h : Quiet w v) : Beside N k w v where
  sane := h.sane hw
  inOcp := by rw [h.cached]
  type := by rw [h.cached]
  other _ _ := by rw [h.cached]
  byte _ _ _ _ _ := by rw [h.byte]

theorem trans (h : Beside N k w t) (h' : Beside N k t v) : Beside N k w v where
  sane := h'.sane
  inOcp := h'.inOcp.trans h.inOcp
  type := h'.type.trans h.type
  other i hi := (h'.other i hi).trans (h.other i hi)
  byte i p hi hne hz := by
    have hb := h'.byte i p hi hne (by rwa [h.slot hne])
    rw [h.addrOf hne] at hb
    exact hb.trans (h.byte i p hi hne hz)

theorem isDir (h : Beside N k w v) (i : Nat) : v.IsDir i ↔ w.IsDir i := by
  rw [World.IsDir, World.IsDir]
  by_cases hi : i = k
  · rw [hi, h.type]
  · rw [h.other i hi]

theorem entry (h : Beside N k w v) {d e : Nat} (hd : d < N) (hne : d ≠ k) (he : w.EntryIn d e) {x : Nat}
    (hlo : e ≤ x) (hhi : x < e + DIRESIZE) : v.byte x = w.byte x := by
  obtain ⟨p, hp, rfl⟩ := he.position hlo hhi
  exact h.byte d p hd hne hp

theorem inInd (h : Beside N k w v) {d e : Nat} (hd : d < N) (hne : d ≠ k) (he : w.EntryIn d e) :
    v.inInd e = w.inInd e := by
  refine u16_congr (h.entry hd hne he ?_ ?_) (h.entry hd hne he ?_ ?_) <;>
    simp only [offInInd, DIRESIZE] <;> omega

end Beside

theorem inOcp_cutAll (m : Meta) (k : Nat) (js : List Nat) : (m.cutAll k js).inOcp = m.inOcp := by
  induction js generalizing m with
  | nil => rfl
  | cons j js ih =>
    have hcut : (m.cut k j).inOcp = m.inOcp := by
      unfold Meta.cut
      split_ifs <;> rfl
    exact (ih _).trans hcut

section Pieces

variable {N : Nat} {w v : World} (h : Sane N w) {k : Nat}
include h

private theorem beside_of_meta (hv : Sane N v) (hocp : v.cached.inOcp = w.cached.inOcp)
    (htype : (v.cached.inode k).type = (w.cached.inode k).type)
    (hother : ∀ i, i ≠ k → v.cached.inode i = w.cached.inode i)
    (hbyte : ∀ x, OffMeta x → v.byte x = w.byte x) : Beside N k w v where
  sane := hv
  inOcp := hocp
  type := htype
  other := hother
  byte _ _ hi _ hz := hbyte _ (Or.inr (h.addrOf_bounds hi hz).1)

theorem Resizes.beside {newsize : Int} (hr : Resizes N w k newsize v) : Beside N k w v := by
  refine beside_of_meta h hr.sane ?_ ?_ ?_ hr.byte
  · rw [hr.cached]
    exact inOcp_cutAll _ _ _
  · rw [hr.cached]
    simp [Meta.setSize, Meta.setInode, inode_cutAll]
  · intro i hi
    rw [hr.cached]
    simp [Meta.setSize, Meta.setInode, inode_cutAll, hi]

theorem Extends.beside {stop : Nat} (he : Extends N w k stop v) : Beside N k w v := by
  by_cases hlt : (w.cached.inode k).size < stop
  · have hc := he.cached
    rw [Meta.extended, if_pos hlt] at hc
    have hr : Resizes N w k (toS32 stop) v := ⟨he.sane, hc, he.byte, he.present, he.accesses⟩
    exact hr.beside h
  · have hc := he.cached
    rw [Meta.extended, if_neg hlt] at hc
    exact beside_of_meta h he.sane (by rw [hc]) (by rw [hc]) (fun _ _ => by rw [hc]) he.byte

theorem Obtains.beside {j b : Nat} (ho : Obtains N w k j b v) : Beside N k w v :=
  beside_of_meta h ho.sane ho.inOcp ho.type ho.other ho.byte

private theorem beside_splice (hk : k < N) {j b o n : Nat} (hb : w.cached.slot k j = b) (hb2 : 2 ≤ b)
    (hin : o + n ≤ BLKSIZE) {g : Nat → UInt8} (hbyte : v.byte = splice w.byte (blockVa b + o) n g)
    (hp : ∀ p, w.present p = true → v.present p = true) : Beside N k w v := by
  have hc : v.cached = w.cached := by
    refine cached_of_meta fun x hx => ?_
    rw [hbyte]
    refine splice_outside _ _ ?_
    simp only [OffMeta, blockVa, DISKMAP, BLKSIZE] at *
    omega
  refine ⟨h.of_cached ⟨hp _ h.ready.super, hp _ h.ready.inode⟩ hc, by rw [hc], by rw [hc],
    fun _ _ => by rw [hc], fun i p hi hne hz => ?_⟩
  have hdiff : w.cached.slot i (p / BLKSIZE) ≠ b := by
    intro he
    exact hne (h.slot_inj hi hk hz (he.trans hb.symm)).1
  rw [hbyte]
  refine splice_outside _ _ ?_
  have hmod : p % 4096 < 4096 := Nat.mod_lt _ (by decide)
  simp only [World.addrOf, blockVa, DISKMAP, BLKSIZE] at *
  omega

private theorem beside_outside {buf n : Nat} (hbuf : Apart buf n) {g : Nat → UInt8}
    (hbyte : v.byte = splice w.byte buf n g) (hp : ∀ p, w.present p = true → v.present p = true) :
    Beside N k w v := by
  have hdisk {x : Nat} (hlo : DISKMAP ≤ x) (hhi : x < DISKMAP + DISKSIZE) : v.byte x = w.byte x := by
    rw [hbyte]
    refine splice_outside _ _ ?_
    unfold Apart at hbuf
    omega
  have hc : v.cached = w.cached := by
    refine cached_of_meta fun x hx => hdisk ?_ ?_ <;>
      (simp only [OffMeta, blockVa, DISKMAP, DISKSIZE, BLKSIZE] at *; omega)
  refine ⟨h.of_cached ⟨hp _ h.ready.super, hp _ h.ready.inode⟩ hc, by rw [hc], by rw [hc],
    fun _ _ => by rw [hc], fun i p hi _ hz => ?_⟩
  have hb := h.addrOf_bounds hi hz
  refine hdisk ?_ hb.2
  simp only [blockVa, DISKMAP, BLKSIZE] at *
  omega

end Pieces

/-- What the loop of `file_write` needs of its offset, and that of `file_read` of its buffer. -/
def CopyFits (wr : Bool) (stop : Nat) (pos : Int) (buf : Nat) : Prop :=
  if wr then 0 ≤ pos else Apart buf (toU32 (stop - pos))

theorem CopyFits.next {wr : Bool} {stop buf : Nat} {pos : Int} (h : CopyFits wr stop pos buf) :
    CopyFits wr stop (pos + chunk pos stop) (buf + chunk pos stop) := by
  cases wr with
  | true =>
    have hpos : 0 ≤ pos := h
    exact Int.add_nonneg hpos (Int.natCast_nonneg _)
  | false =>
    have hbuf : Apart buf (toU32 (stop - pos)) := h
    have hle := chunk_le_rest pos stop
    have hrest : toU32 (stop - (pos + chunk pos stop)) = toU32 (stop - pos) - chunk pos stop := by
      rw [← toU32_sub hle]
      congr 1
      omega
    change Apart (buf + chunk pos stop) (toU32 (stop - (pos + chunk pos stop)))
    rw [hrest]
    unfold Apart at *
    omega

private theorem copy_beside {N k : Nat} {wr : Bool} {w : World} (h : Sane N w) (hk : k < N) {j b : Nat}
    (hb : w.cached.slot k j = b) (hb2 : 2 ≤ b) {stop buf : Nat} {pos : Int} (hfit : CopyFits wr stop pos buf) :
    (∃ t, copy wr (inBlock (blockVa b) pos) buf (chunk pos stop) w = .ok () t ∧ Beside N k w t) ∨
      ∃ p t, copy wr (inBlock (blockVa b) pos) buf (chunk pos stop) w = .error (.panic p) t ∧ Quiet w t := by
  cases wr with
  | true =>
    have hpos : 0 ≤ pos := hfit
    rcases memmove_cases (inBlock (blockVa b) pos) buf (chunk pos stop) w with
      ⟨t, hr, hbyte, hp, -⟩ | ⟨p, t, hr, hl⟩
    · have hin : pos.toNat % BLKSIZE + chunk pos stop ≤ BLKSIZE := by
        have hle := chunk_le_block hpos stop
        omega
      rw [inBlock_nonneg _ hpos] at hbyte
      exact Or.inl ⟨t, hr, beside_splice h hk hb hb2 hin hbyte hp⟩
    · exact Or.inr ⟨p, t, hr, hl.quiet⟩
  | false =>
    have hbuf : Apart buf (chunk pos stop) := by
      have hle := chunk_le_rest pos stop
      have hbuf' : Apart buf (toU32 (stop - pos)) := hfit
      unfold Apart at *
      omega
    rcases memmove_cases buf (inBlock (blockVa b) pos) (chunk pos stop) w with
      ⟨t, hr, hbyte, hp, -⟩ | ⟨p, t, hr, hl⟩
    · exact Or.inl ⟨t, hr, beside_outside h hbuf hbyte hp⟩
    · exact Or.inr ⟨p, t, hr, hl.quiet⟩

theorem copyLoop_beside {N k : Nat} (wr : Bool) (hk : k < N) (stop fuel : Nat) {pos : Int} (buf : Nat)
    (hfit : CopyFits wr stop pos buf) {w : World} (h : Sane N w) :
    Beside N k w (final (copyLoop wr (inodeVa k) stop fuel pos buf) w) := by
  induction fuel generalizing pos buf w with
  | zero => exact Beside.of_quiet h (refl_of Quiet w)
  | succ fuel ih =>
    by_cases hrun : toU32 pos < stop
    swap
    · rw [final_ok (copyLoop_done wr (fuel + 1) buf hrun w)]
      exact Beside.of_quiet h (refl_of Quiet w)
    cases hob : w.obtain k (toU16 (pos.tdiv BLKSIZE)) with
    | none =>
      have hget := fileGetBlock_fail h hk hob
      have hall : copyLoop wr (inodeVa k) stop (fuel + 1) pos buf w =
          .error (.err (World.obtainErr (toU16 (pos.tdiv BLKSIZE)))) w := by
        rw [copyLoop, if_pos hrun, bind_error hget]
      rw [final_error hall]
      exact Beside.of_quiet h (refl_of Quiet w)
    | some b =>
      have hget := fileGetBlock_obtain h hk hob
      have ho := obtains h hk hob
      have hslot : (w.obtained k (toU16 (pos.tdiv BLKSIZE)) b).cached.slot k
          (toU16 (pos.tdiv BLKSIZE)) = b := by
        rw [ho.slot, if_pos ⟨rfl, rfl⟩]
      generalize w.obtained k (toU16 (pos.tdiv BLKSIZE)) b = u at hget ho hslot
      have hu := ho.beside h
      -- the record of the access changes nothing that is visible
      obtain ⟨x, hx⟩ : ∃ x, x = Access.transfer wr (u.slotsOf (inodeVa k))
          (inBlock (blockVa b) pos) buf (chunk pos stop) := ⟨_, rfl⟩
      have hlog : Quiet u (u.log x) := quiet_log u x
      have hstep : copyLoop wr (inodeVa k) stop (fuel + 1) pos buf w = (do
          copy wr (inBlock (blockVa b) pos) buf (chunk pos stop)
          copyLoop wr (inodeVa k) stop fuel (pos + chunk pos stop) (buf + chunk pos stop)) (u.log x) := by
        rw [copyLoop, if_pos hrun, bind_ok hget, bind_ok (modify_run _ u), hx]
      rw [final_congr hstep]
      have hul := hu.trans (Beside.of_quiet ho.sane hlog)
      rcases copy_beside hul.sane hk (by rw [hlog.cached]; exact hslot) ho.two_le hfit with
        ⟨t, hcopy, hround⟩ | ⟨p, t, hcopy, hq⟩
      · have hfinal : final (do
            copy wr (inBlock (blockVa b) pos) buf (chunk pos stop)
            copyLoop wr (inodeVa k) stop fuel (pos + chunk pos stop) (buf + chunk pos stop)) (u.log x) =
            final (copyLoop wr (inodeVa k) stop fuel (pos + chunk pos stop) (buf + chunk pos stop)) t := by
          simp only [final, bind_ok hcopy]
        rw [hfinal]
        exact (hul.trans hround).trans (ih _ hfit.next hround.sane)
      · rw [final_error (bind_error hcopy)]
        exact hul.trans (Beside.of_quiet hul.sane hq)

/-- A call that begins by following `f` stops the server at once, or starts as well from a state in
which `f` is mapped. -/
theorem inodeOf_start (f : Nat) (w : World) :
    (∃ t, Loads w t ∧ EntryMapped f t ∧ inodeOf f w = inodeOf f t) ∨
      ∃ p t, inodeOf f w = .error (.panic p) t ∧ Loads w t := by
  rcases touch_cases (f + offInInd) 2 w with ⟨t, ht, hl, hp⟩ | ⟨p, t, ht, hl⟩
  · left
    refine ⟨t, hl, hp, ?_⟩
    have hload : load16 (f + offInInd) w = .ok (t.inInd f) t := (bind_ok ht).trans rfl
    rw [inodeOf_run hp]
    exact (bind_ok hload).trans rfl
  · exact Or.inr ⟨p, t, bind_error (bind_error ht), hl⟩

theorem fileWrite_beside {N : Nat} {w : World} (h : Sane N w) {f : Nat} (hk : w.inInd f < N)
    (hf : ∀ x, f ≤ x → x < f + DIRESIZE → OffMeta x) (hmap : DISKMAP ≤ f ∧ f < DISKMAP + DISKSIZE)
    (buf count : Nat) {offset : Int} (hpos : 0 ≤ offset) :
    Beside N (w.inInd f) w (final (fileWrite f buf count offset) w) := by
  rcases inodeOf_start f w with ⟨t, hl, hm, he⟩ | ⟨p, t, he, hl⟩
  swap
  · have hstop : fileWrite f buf count offset w = .error (.panic p) t := bind_error he
    rw [final_error hstop]
    exact Beside.of_quiet h hl.quiet
  have hrun : fileWrite f buf count offset w = fileWrite f buf count offset t := bind_congr_run he
  have hq := hl.quiet
  have ht := hl.sane h
  rw [final_congr hrun, ← hq.inInd]
  rw [← hq.inInd] at hk
  refine (Beside.of_quiet h hq).trans ?_
  obtain ⟨u, hext, hu⟩ := extend_run ht hk hm hf (toU32 (offset + count)) fun _ => hmap
  have hloop := copyLoop_beside true hk (toU32 (offset + count)) (count + 1) buf hpos hu.sane
  refine (hu.beside ht).trans (hloop.trans (Beside.of_quiet hloop.sane ?_))
  have hwrite := fileWrite_run ht hk hm buf count offset
  rw [bind_ok hext] at hwrite
  rw [final_congr hwrite]
  cases hr : copyLoop true (inodeVa (t.inInd f)) (toU32 (offset + count)) (count + 1) offset buf u with
  | error x s =>
    rw [final_error hr, final_error (bind_error hr)]
    exact refl_of Quiet s
  | ok _ s =>
    have hq : Keeps Quiet (finishWrite f count) := by
      unfold finishWrite
      infer_instance
    have hlast : final (do
        copyLoop true (inodeVa (t.inInd f)) (toU32 (offset + count)) (count + 1) offset buf
        finishWrite f count) u = final (finishWrite f count) s := by
      simp only [final, bind_ok hr]
    rw [final_ok hr, hlast]
    exact hq.final s

theorem fileRead_beside {N : Nat} {w : World} (h : Sane N w) {f : Nat} (hk : w.inInd f < N)
    {buf count : Nat} (hbuf : Apart buf count) (offset : Int) :
    Beside N (w.inInd f) w (final (fileRead f buf count offset) w) := by
  rcases inodeOf_start f w with ⟨t, hl, hm, he⟩ | ⟨p, t, he, hl⟩
  swap
  · have hstop : fileRead f buf count offset w = .error (.panic p) t := bind_error he
    rw [final_error hstop]
    exact Beside.of_quiet h hl.quiet
  have hrun : fileRead f buf count offset w = fileRead f buf count offset t := bind_congr_run he
  have hq := hl.quiet
  have ht := hl.sane h
  rw [final_congr hrun, ← hq.inInd]
  rw [← hq.inInd] at hk
  have hfollow := quiet_follow t (t.inInd f)
  have hsane := hfollow.sane ht
  refine (Beside.of_quiet h (trans_of Quiet hq hfollow)).trans ?_
  have hread := fileRead_run ht hk hm buf count offset
  split_ifs at hread with hend
  · rw [final_ok hread]
    exact Beside.of_quiet hsane (refl_of Quiet _)
  · rw [final_congr hread]
    dsimp only
    generalize hc : min count (toU32 ((t.cached.inode (t.inInd f)).size - offset)) = c
    have hlt : c < 4294967296 := lt_of_le_of_lt (hc ▸ Nat.min_le_right _ _) (toU32_lt _)
    have hle : c ≤ count := hc ▸ Nat.min_le_left _ _
    have hrest : toU32 ((toU32 (offset + c) : Int) - offset) = c := by
      unfold toU32
      omega
    have hfit : CopyFits false (toU32 (offset + c)) offset buf := by
      change Apart buf (toU32 ((toU32 (offset + c) : Int) - offset))
      rw [hrest]
      unfold Apart at *
      omega
    rw [final_bind_pure]
    exact copyLoop_beside false hk _ _ buf hfit hsane

theorem fileSetSize_beside {N : Nat} {w : World} (h : Sane N w) {f : Nat} (hk : w.inInd f < N)
    (hf : ∀ x, f ≤ x → x < f + DIRESIZE → OffMeta x) (hmap : DISKMAP ≤ f ∧ f < DISKMAP + DISKSIZE)
    (newsize : Int) : Beside N (w.inInd f) w (final (fileSetSize f newsize) w) := by
  rcases inodeOf_start f w with ⟨t, hl, hm, he⟩ | ⟨p, t, he, hl⟩
  swap
  · have hstop : fileSetSize f newsize w = .error (.panic p) t := bind_error he
    rw [final_error hstop]
    exact Beside.of_quiet h hl.quiet
  have hrun : fileSetSize f newsize w = fileSetSize f newsize t := bind_congr_run he
  have hq := hl.quiet
  have ht := hl.sane h
  rw [final_congr hrun, ← hq.inInd]
  rw [← hq.inInd] at hk
  rw [final_ok (fileSetSize_run ht hk hmap newsize hm hf)]
  exact (Beside.of_quiet h hq).trans ((resizes ht hk hmap newsize).beside ht)

end DamnOS.FileSystem
