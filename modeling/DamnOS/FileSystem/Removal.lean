import DamnOS.FileSystem.Trail

/-!
# Creating and removing again

What `file_create` takes from the bitmaps and from the parent directory, and what `file_remove` gives
back: the blocks of the file, but never its inode.
-/

namespace DamnOS.FileSystem

open DamnOS.Framework

/-- `dir_alloc_entry` has handed out the entry `e` of directory `d`. -/
structure Allots (N : Nat) (w u : World) (d e : Nat) : Prop where
  sane : Sane N u
  inOcp : u.cached.inOcp = w.cached.inOcp
  type : (u.cached.inode d).type = (w.cached.inode d).type
  other : ∀ i, i ≠ d → u.cached.inode i = w.cached.inode i
  used : (w.cached.inode d).blkUsed ≤ (u.cached.inode d).blkUsed
  slot : ∀ j < (w.cached.inode d).blkUsed, u.cached.slot d j = w.cached.slot d j
  byte : ∀ x, OffMeta x → u.byte x = w.byte x
  place : e ∈ w.entries d ∧ w.byte e = 0 ∨
    (w.cached.inode d).blkUsed < (u.cached.inode d).blkUsed ∧
      u.cached.slot d (w.cached.inode d).blkUsed ≠ 0 ∧
      e = blockVa (u.cached.slot d (w.cached.inode d).blkUsed)

theorem blkUsed_obtained {N : Nat} {w : World} (h : Sane N w) {k j b : Nat} (hk : k < N)
    (hb : w.obtain k j = some b) : ((w.obtained k j b).cached.inode k).blkUsed =
      if w.cached.slot k j = 0 then ((w.cached.inode k).blkUsed + 1) % 65536
      else (w.cached.inode k).blkUsed := by
  split_ifs with hz
  · have hj := (obtains h hk hb).bound
    unfold World.obtain at hb
    rw [if_neg (not_le.mpr hj), if_pos hz] at hb
    rw [World.obtained, if_pos hz, cached_flush _ (by decide),
      cached_acquire h.ready (h.lt hk) hj (h.firstFree hb).1]
    simp [Meta.setBlkUsed, Meta.setInode]
  · rw [(obtains h hk hb).idle hz]

section Allot

private theorem World.Filled.blkUsed_le {w : World} {d : Nat} (hfill : w.Filled d) :
    (w.cached.inode d).blkUsed ≤ NDIRECT := by
  by_contra hlt
  exact hfill NDIRECT (not_le.mp hlt) (slot_ge w d le_rfl)

variable {N : Nat} {w u : World} (h : Sane N w) {d e : Nat} (hd : d < N) (hfill : w.Filled d)
include h hd hfill

theorem dirAllocEntry_full (hv : w.vacant d = none) : ∃ v,
    dirAllocEntry (inodeVa d) w = fileGetBlock (inodeVa d) (w.cached.inode d).blkUsed v ∧
      Effect N ((w.cached.setBlkUsed d ((w.cached.inode d).blkUsed + 1)).bumped d) w.byte [] w v := by
  have hused := load16_blkUsed h.ready (h.lt hd)
  obtain ⟨t, ht, hq⟩ := h.vacant_run hd hfill
  rw [hv] at ht
  have hun : Unlogged w t := Keeps.of_ok ht
  have h1 := (Effect.refl h).quiet hq hun
  have hused' := load16_blkUsed h1.sane.ready (h1.sane.lt hd)
  have hs1 := store16_field h1.sane.ready (h1.sane.lt hd) (o := offBlkUsed) (by decide)
    ((t.cached.inode d).blkUsed + 1)
  have h2 := h1.setBlkUsed hd ((t.cached.inode d).blkUsed + 1)
  generalize t.setCell (inodeVa d + offBlkUsed) ((t.cached.inode d).blkUsed + 1) = t2 at hs1 h2
  have hsize := load16_size h2.sane.ready (h2.sane.lt hd)
  have hs2 := store16_field h2.sane.ready (h2.sane.lt hd) (o := offSize) (by decide)
    ((t2.cached.inode d).size + DIRESIZE)
  have h3 := h2.setSize hd ((t2.cached.inode d).size + DIRESIZE)
  have hbump : bumpSize (inodeVa d) t2 = .ok () (t2.setCell (inodeVa d + offSize)
      ((t2.cached.inode d).size + DIRESIZE)) := (bind_ok hsize).trans hs2
  refine ⟨_, (bind_ok hused).trans ((bind_ok ht).trans ((bind_ok hused').trans ((bind_ok hs1).trans
    (bind_ok hbump)))), ?_⟩
  have hle := hfill.blkUsed_le
  have hmod : ((w.cached.inode d).blkUsed + 1) % 65536 = (w.cached.inode d).blkUsed + 1 := by
    simp only [NDIRECT] at hle
    omega
  rw [h2.cached, hq.cached, hmod] at h3 ⊢
  exact h3

theorem dirAllocEntry_ok (hrun : dirAllocEntry (inodeVa d) w = .ok e u) : Allots N w u d e := by
  cases hv : w.vacant d with
  | some e' =>
    obtain ⟨v, hr, heff⟩ := dirAllocEntry_run h hd hfill hv
    rw [hrun] at hr
    cases hr
    have hmem := List.mem_of_find?_eq_some hv
    have hz := List.find?_some hv
    refine ⟨heff.sane, ?_, ?_, fun i hi => ?_, ?_, fun j _ => ?_, heff.byte, Or.inl ⟨hmem, ?_⟩⟩
    · rw [heff.cached]
      rfl
    · rw [heff.cached]
      simp [Meta.bumped, Meta.setSize, Meta.setInode]
    · rw [heff.cached]
      simp [Meta.bumped, Meta.setSize, Meta.setInode, hi]
    · rw [heff.cached]
      simp [Meta.bumped, Meta.setSize, Meta.setInode]
    · rw [heff.cached, Meta.bumped, slot_setSize]
    · simpa using hz
  | none =>
    obtain ⟨v, hr, heff⟩ := dirAllocEntry_full h hd hfill hv
    have hle := hfill.blkUsed_le
    rw [hrun] at hr
    have hcd : v.cached.inode d = { w.cached.inode d with
        blkUsed := (w.cached.inode d).blkUsed + 1
        size := ((w.cached.inode d).size + DIRESIZE) % 65536 } := by
      rw [heff.cached]
      simp [Meta.bumped, Meta.setSize, Meta.setBlkUsed, Meta.setInode]
    have hci (i : Nat) (hi : i ≠ d) : v.cached.inode i = w.cached.inode i := by
      rw [heff.cached]
      simp [Meta.bumped, Meta.setSize, Meta.setBlkUsed, Meta.setInode, hi]
    have hsv (j : Nat) : v.cached.slot d j = w.cached.slot d j := by
      rw [Meta.slot, hcd]
      rfl
    cases hob : v.obtain d (w.cached.inode d).blkUsed with
    | none =>
      rw [fileGetBlock_fail heff.sane hd hob] at hr
      cases hr
    | some b =>
      rw [fileGetBlock_obtain heff.sane hd hob] at hr
      cases hr
      have ho := obtains heff.sane hd hob
      have hmore : (w.cached.inode d).blkUsed <
          ((v.obtained d (w.cached.inode d).blkUsed b).cached.inode d).blkUsed := by
        rw [blkUsed_obtained heff.sane hd hob, hcd]
        dsimp only
        simp only [NDIRECT] at hle
        split_ifs <;> omega
      have hnew : (v.obtained d (w.cached.inode d).blkUsed b).cached.slot d
          (w.cached.inode d).blkUsed = b := by
        rw [ho.slot, if_pos ⟨rfl, rfl⟩]
      refine ⟨ho.sane, ?_, ?_, fun i hi => ?_, hmore.le, fun j hj => ?_, fun x hx => ?_,
        Or.inr ⟨hmore, ?_, ?_⟩⟩
      · rw [ho.inOcp, heff.cached]
        rfl
      · rw [ho.type, hcd]
      · rw [ho.other i hi, hci i hi]
      · rw [ho.slot, if_neg (by omega), hsv]
      · rw [ho.byte x hx, heff.byte x hx]
      · have hb := ho.two_le
        omega
      · rw [hnew]

end Allot

/-- The new inode `k` is marked, and a new directory has its first block. -/
structure Starts (N : Nat) (u v : World) (k : Nat) : Prop where
  sane : Sane N v
  inOcp : v.cached.inOcp = Function.update u.cached.inOcp k true
  other : ∀ i, i ≠ k → v.cached.inode i = u.cached.inode i
  blkNum : v.cached.blkNum = u.cached.blkNum
  blkOcp : ∀ b, u.cached.blkOcp b = true → v.cached.blkOcp b = true
  byte : ∀ i p, i < N → u.cached.slot i (p / BLKSIZE) ≠ 0 → v.byte (u.addrOf i p) = u.byte (u.addrOf i p)

theorem dotEntries_outside (g : Nat → UInt8) (b k : Nat) {x : Nat}
    (hx : x < blockVa b ∨ blockVa b + 2 * DIRESIZE ≤ x) : dotEntries g b k x = g x := by
  simp only [DIRESIZE] at hx
  rw [dotEntries, splice_outside _ _ (by simp only [offInInd]; omega),
    splice_outside _ _ (by simp only [offInInd, DIRESIZE]; omega),
    splice_outside _ _ (by simp only [DIRESIZE]; omega), splice_outside _ _ (by omega)]

theorem Sane.addrOf_free {N : Nat} {w : World} (h : Sane N w) {b : Nat} (hb : w.cached.blkOcp b = false)
    {i p : Nat} (hi : i < N) (hz : w.cached.slot i (p / BLKSIZE) ≠ 0) :
    w.addrOf i p < blockVa b ∨ blockVa b + BLKSIZE ≤ w.addrOf i p := by
  have hv := h.slot_valid hi hz
  have hne : w.cached.slot i (p / BLKSIZE) ≠ b := by
    intro he
    rw [he, hb] at hv
    cases hv.2.2
  have hmod : p % 4096 < 4096 := Nat.mod_lt _ (by decide)
  simp only [World.addrOf, blockVa, DISKMAP, BLKSIZE] at *
  omega

section Start

variable {N : Nat} {u v : World} (h : Sane N u) {k : Nat}
include h

private theorem allocInode_ok (hrun : allocInode u = .ok k v) :
    k < N ∧ u.cached.inOcp k = false ∧ v = u.markInode k := by
  cases hf : u.firstInode with
  | none =>
    rw [allocInode_none hf] at hrun
    cases hrun
  | some k' =>
    obtain ⟨hk, ho⟩ := h.firstInode hf
    rw [allocInode_some h.ready hf (h.lt hk)] at hrun
    cases hrun
    exact ⟨hk, ho, rfl⟩

theorem markInode_starts (hk : k < N) (ho : u.cached.inOcp k = false) : Starts N u (u.markInode k) k := by
  have heff := (Effect.refl h).markInode hk ho
  refine ⟨heff.sane, ?_, fun i _ => ?_, ?_, fun b hb => ?_, fun i p hi hz => ?_⟩
  · rw [heff.cached]
    rfl
  · rw [heff.cached]
    rfl
  · rw [heff.cached]
    rfl
  · rw [heff.cached]
    exact hb
  · exact heff.byte _ (Or.inr (h.addrOf_bounds hi hz).1)

theorem initDir_starts (hk : k < N) (ho : u.cached.inOcp k = false) (h0 : k ≠ 0)
    (hz : u.cached.slot k 0 = 0) (hrun : initDir k (u.markInode k) = .ok () v) : Starts N u v k := by
  have heff := (Effect.refl h).markInode hk ho
  have hfree : (u.markInode k).firstFree = u.firstFree :=
    firstFree_congr h (by rw [heff.cached]; rfl) (by rw [heff.cached]; rfl)
  have hz' : (u.cached.setInOcp k true).slot k 0 = 0 := by
    rw [slot_setInOcp]
    exact hz
  cases hf : u.firstFree with
  | none =>
    rw [initDir_full heff hk hz' h0 (hfree.trans hf)] at hrun
    cases hrun
  | some b =>
    obtain ⟨s, v', hr, hv⟩ := initDir_run heff hk hz' (hfree.trans hf)
    rw [hr] at hrun
    cases hrun
    have hb := h.firstFree hf
    refine ⟨hv.sane, ?_, fun i hi => ?_, ?_, fun c hc => ?_, fun i p hi hp => ?_⟩
    · rw [hv.cached]
      rfl
    · rw [hv.cached]
      simp [Meta.newDir, Meta.setSize, Meta.setBlkUsed, Meta.setSlot, Meta.setInode, Meta.setBlkOcp,
        Meta.setInOcp, hi]
    · rw [hv.cached]
      rfl
    · rw [hv.cached]
      change Function.update u.cached.blkOcp b true c = true
      rw [Function.update_apply]
      split_ifs
      · rfl
      · exact hc
    · rw [hv.byte _ (Or.inr (h.addrOf_bounds hi hp).1)]
      refine dotEntries_outside _ _ _ ?_
      have hout := h.addrOf_free hb.2.2.1 hi hp
      simp only [DIRESIZE, BLKSIZE] at *
      omega

end Start

theorem nameMatches_unique {w : World} {a : Nat} {n n' : List UInt8} (h0 : (0 : UInt8) ∉ n)
    (h0' : (0 : UInt8) ∉ n') (h : nameMatches w a n = true) (h' : nameMatches w a n' = true) : n = n' := by
  induction n generalizing a n' with
  | nil =>
    cases n' with
    | nil => rfl
    | cons c cs =>
      simp only [nameMatches, Bool.and_eq_true, beq_iff_eq] at h h'
      rw [h] at h'
      exact absurd (h'.1 ▸ List.mem_cons_self) h0'
  | cons c cs ih =>
    cases n' with
    | nil =>
      simp only [nameMatches, Bool.and_eq_true, beq_iff_eq] at h h'
      rw [h'] at h
      exact absurd (h.1 ▸ List.mem_cons_self) h0
    | cons c' cs' =>
      simp only [nameMatches, Bool.and_eq_true, beq_iff_eq] at h h'
      rw [ih (fun hm => h0 (List.mem_cons_of_mem _ hm)) (fun hm => h0' (List.mem_cons_of_mem _ hm)) h.2 h'.2,
        ← h.1, ← h'.1]

theorem nameMatches_of_getD {w : World} {a : Nat} {n : List UInt8}
    (h : ∀ i ≤ n.length, w.byte (a + i) = n.getD i 0) : nameMatches w a n = true := by
  induction n generalizing a with
  | nil =>
    have h0 := h 0 le_rfl
    simpa [nameMatches] using h0
  | cons c cs ih =>
    have h0 := h 0 (Nat.zero_le _)
    simp only [nameMatches, Bool.and_eq_true, beq_iff_eq]
    refine ⟨by simpa using h0, ih fun i hi => ?_⟩
    have hs := h (i + 1) (by simpa using hi)
    rw [Nat.add_assoc, Nat.add_comm 1 i]
    simpa using hs

private theorem find?_only {α : Type} {p : α → Bool} {l : List α} {a : α} (ha : a ∈ l) (hp : p a = true)
    (ho : ∀ b ∈ l, p b = true → b = a) : l.find? p = some a := by
  cases hf : l.find? p with
  | none => exact absurd hp (List.find?_eq_none.mp hf a ha)
  | some b =>
    have hb := ho b (List.mem_of_find?_eq_some hf) (List.find?_some hf)
    rw [hb]

/-- What a successful `file_create` leaves: the inode `k` was free and is in use, and the path leads
to the entry `e` in the directory `d`. -/
structure Created (N : Nat) (w v : World) (type d e k : Nat) : Prop where
  sane : Sane N v
  dir : d < N ∧ d ≠ k
  inode : k < N ∧ v.inInd e = k
  free : w.cached.inOcp k = false
  taken : v.cached.inOcp k = true
  type : (v.cached.inode k).type = type % 65536
  entryIn : v.EntryIn d e

theorem entry_apart {b c s t : Nat} (hs : s < BLKFILES) (ht : t < BLKFILES)
    (hne : blockVa b + DIRESIZE * s ≠ blockVa c + DIRESIZE * t) :
    blockVa b + DIRESIZE * s + DIRESIZE ≤ blockVa c + DIRESIZE * t ∨
      blockVa c + DIRESIZE * t + DIRESIZE ≤ blockVa b + DIRESIZE * s := by
  simp only [blockVa, DIRESIZE, BLKFILES, BLKSIZE] at *
  rcases Nat.lt_trichotomy b c with hlt | rfl | hlt
  · omega
  · rcases Nat.lt_trichotomy s t with hlt | rfl | hlt <;> omega
  · omega

theorem Allots.block {N : Nat} {w u : World} {d e : Nat} (hfill : w.Filled d) (ha : Allots N w u d e) :
    ∃ j s, u.cached.slot d j ≠ 0 ∧ s < BLKFILES ∧ e = blockVa (u.cached.slot d j) + DIRESIZE * s := by
  rcases ha.place with ⟨hm, -⟩ | ⟨-, hz, he⟩
  · obtain ⟨j, hj, s, hs, he⟩ := mem_entries.mp hm
    refine ⟨j, s, ?_, hs, ?_⟩
    · rw [ha.slot j hj]
      exact hfill j hj
    · rw [ha.slot j hj]
      exact he
  · exact ⟨_, 0, hz, by decide, by simpa using he⟩

section Entry

variable {N : Nat} {w u t v : World} {d e k type : Nat} (hd : d < N) (hfill : w.Filled d)
  (ha : Allots N w u d e) {name : List UInt8} {xs : List Access}
  (heff : Effect N (t.cached.setType k (type % 65536)) (newEntry t.byte e name k) xs t v)
include hd hfill ha heff

private theorem filled_inInd (hk : k < N) : v.inInd e = k := by
  obtain ⟨j, s, hz, hs', he⟩ := ha.block hfill
  have hin : u.EntryIn d e := ⟨j, s, hz, hs', he⟩
  have hoff (o : Nat) (ho : o < DIRESIZE) : OffMeta (e + o) :=
    hin.offMeta ha.sane hd _ (Nat.le_add_right _ _) (by omega)
  have hk' := heff.sane.lt hk
  rw [inInd_congr (heff.byte _ (hoff _ (by decide))) (heff.byte _ (hoff (offInInd + 1) (by decide)))]
  refine newEntry_inInd _ e name ?_
  simp only [MAXINODENUM] at hk'
  omega

private theorem filled_matches (hlen : name.length < MAXNAMELEN) : nameMatches v e name = true := by
  obtain ⟨j, s, hz, hs', he⟩ := ha.block hfill
  have hin : u.EntryIn d e := ⟨j, s, hz, hs', he⟩
  refine nameMatches_of_getD fun i hi => ?_
  have hi' : i < 16 := by
    simp only [MAXNAMELEN] at hlen
    omega
  have hoff : OffMeta (e + i) := hin.offMeta ha.sane hd _ (Nat.le_add_right _ _)
    (by simp only [DIRESIZE]; omega)
  rw [heff.byte _ hoff, newEntry, splice_outside _ _ (by simp only [offInInd]; omega),
    splice_inside _ _ (by omega), Nat.add_sub_cancel_left]

end Entry

section Filled

variable {N : Nat} {D : Nat → Prop} {w u t v : World} (h : TidyIn N D w) {d e : Nat} (hd : D d) (hdir : w.IsDir d)
  (ha : Allots N w u d e)
include h hd hdir ha

omit hd hdir in
theorem Allots.old {i f : Nat} (hi : D i) (hdi : w.IsDir i) (hf : f ∈ w.entries i) : ∃ j s,
    j < (w.cached.inode i).blkUsed ∧ u.cached.slot i j ≠ 0 ∧ s < BLKFILES ∧
      f = blockVa (u.cached.slot i j) + DIRESIZE * s := by
  obtain ⟨j, hj, s, hs, he⟩ := mem_entries.mp hf
  have hsame : u.cached.slot i j = w.cached.slot i j := by
    by_cases hid : i = d
    · subst hid
      exact ha.slot j hj
    · rw [Meta.slot, Meta.slot, ha.other i hid]
  refine ⟨j, s, hj, ?_, hs, ?_⟩
  · rw [hsame]
    exact h.filled i j hi hdi hj
  · rw [hsame]
    exact he

theorem Allots.only {i : Nat} (hi : D i) (hdi : w.IsDir i) (he : e ∈ w.entries i) :
    i = d ∧ w.byte e = 0 := by
  obtain ⟨j, s, hj, hz, hs, heq⟩ := ha.old h hi hdi he
  rcases ha.place with ⟨hm, hb⟩ | ⟨-, hz', he'⟩
  · obtain ⟨j', s', -, -, hs', heq'⟩ := ha.old h hd hdir hm
    have hslot := (entry_inj hs hs' (heq.symm.trans heq')).1
    exact ⟨(ha.sane.slot_inj (h.lt i hi) (h.lt d hd) hz hslot).1, hb⟩
  · rw [he', ← Nat.add_zero (blockVa _), ← Nat.mul_zero DIRESIZE] at heq
    have hslot := (entry_inj (by decide) hs heq).1
    obtain ⟨rfl, hjj⟩ := ha.sane.slot_inj (h.lt i hi) (h.lt d hd) hz hslot.symm
    omega

variable {k type : Nat} {name : List UInt8} {xs : List Access} (hk : k < N)
  (hs : Starts N u t k) (hlen : name.length < MAXNAMELEN)
  (heff : Effect N (t.cached.setType k (type % 65536)) (newEntry t.byte e name k) xs t v)
include hs heff

omit h hd hdir ha in
private theorem filled_inode {i : Nat} (hi : i ≠ k) : v.cached.inode i = u.cached.inode i := by
  rw [heff.cached, ← hs.other i hi]
  simp [Meta.setType, Meta.setInode, hi]

include hlen in
private theorem filled_byte {j s i f : Nat} (hi : D i) (hz : u.cached.slot i j ≠ 0) (hsl : s < BLKFILES)
    (hf : f = blockVa (u.cached.slot i j) + DIRESIZE * s) (hne : f ≠ e) {x : Nat} (hlo : f ≤ x)
    (hhi : x < f + DIRESIZE) : v.byte x = w.byte x := by
  obtain ⟨j', s', -, hs', he⟩ := ha.block fun j => h.filled d j hd hdir
  have hin : u.EntryIn i f := ⟨j, s, hz, hsl, hf⟩
  obtain ⟨p, hp, hx⟩ := hin.position hlo hhi
  have hoff : OffMeta x := hin.offMeta ha.sane (h.lt i hi) x hlo hhi
  have hap := entry_apart hsl hs' (by rw [← hf, ← he]; exact hne)
  rw [← hf, ← he] at hap
  rw [heff.byte x hoff, newEntry_outside _ hlen k (by omega), hx, hs.byte i p (h.lt i hi) hp, ← hx, ha.byte x hoff]

include hk

variable (hnk : ¬w.IsDir k) (h0 : (0 : UInt8) ∉ name) (hl : w.lookup d name = none)
include hlen h0 hl hnk

private theorem filled_entered : Entered N D w v d name e := by
  have hfill : w.Filled d := fun j => h.filled d j hd hdir
  have hmatch := filled_matches (h.lt d hd) hfill ha heff hlen
  have hdirs (i : Nat) (_ : D i) (hdi : w.IsDir i) : v.IsDir i ∧
      (w.cached.inode i).blkUsed ≤ (v.cached.inode i).blkUsed ∧
      ∀ j < (w.cached.inode i).blkUsed, v.cached.slot i j = w.cached.slot i j := by
    have hik : i ≠ k := fun he => hnk (he ▸ hdi)
    have hvi := filled_inode hs heff hik
    have hslot (j : Nat) : v.cached.slot i j = u.cached.slot i j := by
      rw [Meta.slot, Meta.slot, hvi]
    by_cases hid : i = d
    · subst hid
      rw [World.IsDir, hvi]
      exact ⟨ha.type.trans hdi, ha.used, fun j hj => (hslot j).trans (ha.slot j hj)⟩
    · rw [World.IsDir, hvi, ha.other i hid]
      refine ⟨hdi, le_rfl, fun j _ => (hslot j).trans ?_⟩
      rw [Meta.slot, Meta.slot, ha.other i hid]
  have hbyte (i f : Nat) (hi : D i) (hdi : w.IsDir i) (hf : f ∈ w.entries i) (hne : f ≠ e) (x : Nat)
      (hlo : f ≤ x) (hhi : x < f + DIRESIZE) : v.byte x = w.byte x := by
    obtain ⟨j, s, -, hz, hsl, he⟩ := ha.old h hi hdi hf
    exact filled_byte h hd hdir ha hs hlen heff hi hz hsl he hne hlo hhi
  -- no other entry of the directory has the name
  have hnone (f : Nat) (hf : f ∈ w.entries d) (hm : nameMatches v f name = true) : f = e := by
    by_contra hne
    have hsame : nameMatches v f name = nameMatches w f name := by
      refine nameMatches_congr fun x hlo hhi => hbyte d f hd hdir hf hne x hlo ?_
      simp only [MAXNAMELEN, DIRESIZE] at *
      omega
    exact List.find?_eq_none.mp hl f hf (hsame ▸ hm)
  refine ⟨hdirs, hbyte, fun i hi hdi he => ha.only h hd hdir hi hdi he,
    fun n hn hm => nameMatches_unique hn h0 hm hmatch, hl, ?_, ?_⟩
  · obtain ⟨-, hu, hslot⟩ := hdirs d hd hdir
    have hblocks : v.firstEntries d (w.cached.inode d).blkUsed = w.entries d := by
      refine List.flatMap_congr fun j hj => ?_
      rw [World.blockEntries, World.blockEntries, hslot j (List.mem_range.mp hj)]
    rcases ha.place with ⟨hm, -⟩ | ⟨hmore, hz, he⟩
    · refine ⟨_, hu, fun j hj => ?_, ?_⟩
      · rw [hslot j hj]
        exact h.filled d j hd hdir hj
      · rw [hblocks]
        exact find?_only hm hmatch hnone
    · have hdk : d ≠ k := fun he => hnk (he ▸ hdir)
      have hvd := filled_inode hs heff hdk
      have hnew : v.cached.slot d (w.cached.inode d).blkUsed =
          u.cached.slot d (w.cached.inode d).blkUsed := by
        rw [Meta.slot, Meta.slot, hvd]
      refine ⟨(w.cached.inode d).blkUsed + 1, by rw [hvd]; exact hmore, fun j hj => ?_, ?_⟩
      · rcases Nat.lt_succ_iff_lt_or_eq.mp hj with hlt | rfl
        · rw [hslot j hlt]
          exact h.filled d j hd hdir hlt
        · rw [hnew]
          exact hz
      · have hsplit : v.firstEntries d ((w.cached.inode d).blkUsed + 1) =
            w.entries d ++ v.blockEntries d (w.cached.inode d).blkUsed := by
          rw [← hblocks, World.firstEntries, World.firstEntries, List.range_succ, List.flatMap_append]
          simp
        have hhead : v.blockEntries d (w.cached.inode d).blkUsed = e ::
            (List.range (BLKFILES - 1)).map fun s =>
              blockVa (v.cached.slot d (w.cached.inode d).blkUsed) + DIRESIZE * (s + 1) := by
          rw [World.blockEntries, show BLKFILES = (BLKFILES - 1) + 1 from rfl, List.range_succ_eq_map,
            List.map_cons, List.map_map, he, hnew]
          rfl
        have hnot : (w.entries d).find? (fun a => nameMatches v a name) = none := by
          refine List.find?_eq_none.mpr fun f hf hm => ?_
          have hfe := hnone f hf hm
          subst hfe
          obtain ⟨j, s, hj, hz', hsl, hf'⟩ := ha.old h hd hdir hf
          rw [he, ← Nat.add_zero (blockVa _), ← Nat.mul_zero DIRESIZE] at hf'
          have hjj := (ha.sane.slot_inj (h.lt d hd) (h.lt d hd) hz' (entry_inj (by decide) hsl hf').1.symm).2
          omega
        rw [hsplit, List.find?_append, hnot, Option.none_or, hhead, List.find?_cons, hmatch]
  · rw [filled_inInd (h.lt d hd) hfill ha heff hk]
    exact hk

end Filled

theorem Quiet.allots {N : Nat} {w t u : World} (hq : Quiet w t) {d e : Nat} (ha : Allots N t u d e) :
    Allots N w u d e := by
  obtain ⟨hs, ho, ht, hother, hu, hslot, hb, hp⟩ := ha
  rw [hq.cached] at ho ht hother hu hslot hp
  rw [hq.byte] at hb hp
  rw [entries_of_byte hq.byte] at hp
  exact ⟨hs, ho, ht, hother, hu, hslot, hb, hp⟩

/-- The stages of a successful `file_create`: the walk ends in `t`, the entry `e` of directory `d` is
had in `u`, inode `k` has its first block in `s`. -/
structure Stages (N : Nat) (w v : World) (path : List UInt8) (type d e k : Nat) (name : List UInt8)
    (t u s : World) : Prop where
  resolve : w.resolve path = .ok (.missing (inodeVa d) name)
  quiet : Quiet w t
  dir : d < N ∧ w.IsDir d
  filled : w.Filled d
  named : (0 : UInt8) ∉ name ∧ name.length < MAXNAMELEN ∧ w.lookup d name = none
  entry : dirAllocEntry (inodeVa d) t = .ok e u
  allots : Allots N w u d e
  inode : k < N ∧ w.cached.inOcp k = false
  apart : k ≠ d ∧ k ≠ 0
  init : onlyIf (type = FTYPE_DIR) (initDir k) (u.markInode k) = .ok () s
  starts : Starts N u s k
  fills : ∃ xs, Effect N (s.cached.setType k (type % 65536)) (newEntry s.byte e name k) xs s v

theorem fileCreate_stages {N : Nat} {D : Nat → Prop} {w v : World} (h : TidyIn N D w)
    {path : List UInt8} (h0 : (0 : UInt8) ∉ path) {type e : Nat} (hrun : fileCreate path type w = .ok e v) :
    ∃ d name k t u s, Stages N w v path type d e k name t u s := by
  obtain ⟨t, hq, hwalk⟩ := h.walkable.walkPath_run h0
  obtain ⟨r, t', hw, hrun⟩ := bind_eq_ok hrun
  rw [hwalk] at hw
  cases hres : w.resolve path with
  | error x =>
    rw [hres] at hw
    cases hw
  | ok r' =>
  rw [hres] at hw
  cases hw
  cases r with
  | found dir f => cases hrun
  | missing dir name =>
  obtain ⟨d, hin, hdir, hocp, rfl, -, hname, hlen, hl⟩ := resolve_placedIn h h0 hres
  have hd := h.lt d hin
  have hfill : w.Filled d := fun j => h.filled d j hin hdir
  dsimp only at hrun
  split_ifs at hrun with hvalid
  · cases hrun
  obtain ⟨e', u, hentry, hrest⟩ := bind_eq_ok hrun
  obtain ⟨k, u', halloc, hrest⟩ := bind_eq_ok hrest
  obtain ⟨_, s, hinit, hlast⟩ := bind_eq_ok hrest
  have ha := hq.allots (dirAllocEntry_ok (hq.sane h.sane) hd (hq.filled hfill) hentry)
  obtain ⟨hk, hfree, rfl⟩ := allocInode_ok ha.sane halloc
  have hfree' := hfree
  rw [ha.inOcp] at hfree'
  have hkd : k ≠ d := by
    rintro rfl
    rw [hocp] at hfree'
    cases hfree'
  have hk0 : k ≠ 0 := by
    rintro rfl
    rw [h.inUse h.sane.pos (root_of_missing hres)] at hfree'
    cases hfree'
  have hstart : Starts N u s k := by
    have hinit' := hinit
    unfold onlyIf at hinit'
    split_ifs at hinit' with htype
    · refine initDir_starts ha.sane hk hfree hk0 ?_ hinit'
      rw [Meta.slot, ha.other k hkd]
      exact (h.unused k hk hfree').2.2 0
    · cases hinit'
      exact markInode_starts ha.sane hk hfree
  obtain ⟨j, i, hz, hi, he⟩ := ha.block hfill
  have hblk := ha.sane.slot_valid hd hz
  obtain ⟨l, v', hend, heff⟩ := fillEntry_run (Effect.refl hstart.sane) hk hblk.1
    (by rw [hstart.blkNum]; exact hblk.2.1) (hstart.blkOcp _ hblk.2.2) (e := e')
    (by rw [he]; exact Nat.le_add_right _ _)
    (by rw [he]; simp only [BLKFILES, DIRESIZE, BLKSIZE] at *; omega) hlen (inodeVa d) type
  rw [hend] at hlast
  cases hlast
  exact ⟨d, name, k, t, u, s, hres, hq, ⟨hd, hdir⟩, hfill, ⟨hname, hlen, hl⟩, hentry, ha, ⟨hk, hfree'⟩,
    ⟨hkd, hk0⟩, hinit, hstart, _, heff⟩

namespace Stages

variable {N : Nat} {D : Nat → Prop} {w v t u s : World} (h : TidyIn N D w) {path name : List UInt8} {type d e k : Nat}
  (hs : Stages N w v path type d e k name t u s)
include hs

theorem inInd : v.inInd e = k := by
  obtain ⟨xs, heff⟩ := hs.fills
  exact filled_inInd hs.dir.1 hs.filled hs.allots heff hs.inode.1

include h

theorem mem (h0 : (0 : UInt8) ∉ path) : D d := by
  obtain ⟨i, hi, -, -, he, -⟩ := resolve_placedIn h h0 hs.resolve
  rwa [inodeVa_inj he]

variable (hpath : (0 : UInt8) ∉ path)
include hpath

theorem entered : Entered N D w v d name e := by
  obtain ⟨xs, heff⟩ := hs.fills
  obtain ⟨h0, hlen, hl⟩ := hs.named
  exact filled_entered h (hs.mem h hpath) hs.dir.2 hs.allots hs.inode.1 hs.starts hlen heff
    (h.unused k hs.inode.1 hs.inode.2).1 h0 hl

theorem created : Created N w v type d e k := by
  obtain ⟨xs, heff⟩ := hs.fills
  refine ⟨heff.sane, ⟨hs.dir.1, hs.apart.1.symm⟩, ⟨hs.inode.1, hs.inInd⟩, hs.inode.2, ?_, ?_,
    (hs.entered h hpath).finds.entryIn⟩
  · rw [heff.cached]
    change s.cached.inOcp k = true
    rw [hs.starts.inOcp, Function.update_self]
  · rw [heff.cached]
    simp [Meta.setType, Meta.setInode]

/-- The path leads to the new entry through directories that were there. -/
theorem trail : v.TrailIn N w.IsDir ((skipSlash path).length + 1) (skipSlash path) 0 0 0 (inodeVa d) e := by
  have hres := hs.resolve
  unfold World.resolve at hres
  split_ifs at hres
  exact (hs.entered h hpath).trail h _ (Nat.lt_succ_self _)
    (fun hm => hpath ((List.dropWhile_sublist _).subset hm)) (head_skipSlash _) h.root 0 0 hres

end Stages

theorem fileCreate_created {N : Nat} {D : Nat → Prop} {w v : World} (h : TidyIn N D w) {path : List UInt8}
    (h0 : (0 : UInt8) ∉ path) {type e : Nat} (hrun : fileCreate path type w = .ok e v) : ∃ d name k,
      w.resolve path = .ok (.missing (inodeVa d) name) ∧ Created N w v type d e k ∧
      v.Trail N ((skipSlash path).length + 1) (skipSlash path) 0 0 0 (inodeVa d) e := by
  obtain ⟨d, name, k, t, u, s, hs⟩ := fileCreate_stages h h0 hrun
  exact ⟨d, name, k, hs.resolve, hs.created h h0, (hs.trail h h0).mono fun _ _ => trivial⟩

/-- The metadata after inode `k` was removed: it stays in use, without the blocks of its size. -/
def Meta.removed (m : Meta) (k : Nat) : Meta :=
  (m.cutAll k (cutRange (m.inode k).size 0)).setSize k 0

/-- What a removal of the entry `e` leaves: the file is cut, and the name begins with a NUL. -/
structure Removes (N : Nat) (w : World) (e : Nat) (v : World) : Prop where
  sane : Sane N v
  cached : v.cached = w.cached.removed (w.inInd e)
  byte : ∀ x, OffMeta x → v.byte x = if x = e then 0 else w.byte x

private theorem setSize_idem (m : Meta) (k n n' : Nat) : (m.setSize k n).setSize k n' = m.setSize k n' := by
  unfold Meta.setSize Meta.setInode
  simp only [Function.update_idem, Function.update_self]

theorem fileRemove_removes {N : Nat} {w t v : World} (h : Sane N w) {path : List UInt8} {d e : Nat}
    (hd : d < N) (hin : w.EntryIn d e) (hk : w.inInd e < N) (hq : Quiet w t)
    (hpath : walkPath path w = .ok (.found (inodeVa d) e) t) (hrun : fileRemove path w = .ok () v) :
    Removes N w e v := by
  rw [fileRemove, bind_ok hpath] at hrun
  obtain ⟨before, t', hget, hrun⟩ := bind_eq_ok hrun
  cases hget
  obtain ⟨_, s, hset, hrun⟩ := bind_eq_ok hrun
  have hoff := hin.offMeta h hd
  have hmap := hin.inMap h hd
  -- the size is set on a state in which the entry is mapped
  have hsize : s.cached = w.cached.removed (w.inInd e) ∧ Sane N s ∧
      ∀ x, OffMeta x → s.byte x = w.byte x := by
    rcases inodeOf_start e t with ⟨u, hl, hm, he⟩ | ⟨p, u, he, hl⟩
    swap
    · have hpanic : fileSetSize e 0 t = .error (.panic p) u := bind_error he
      rw [hpanic] at hset
      cases hset
    have hqu := trans_of Quiet hq hl.quiet
    have hku : u.inInd e < N := by
      rw [hqu.inInd]
      exact hk
    have hsame : fileSetSize e 0 t = fileSetSize e 0 u := bind_congr_run he
    rw [hsame, fileSetSize_run (hqu.sane h) hku hmap 0 hm hoff] at hset
    cases hset
    have hres := resizes (hqu.sane h) hku hmap 0
    refine ⟨?_, hres.sane, fun x hx => ?_⟩
    · rw [hres.cached, hqu.cached, hqu.inInd]
      rfl
    · rw [hres.byte x hx, hqu.byte]
  obtain ⟨hsc, hsane, hsb⟩ := hsize
  have hind : s.inInd e = w.inInd e := inInd_of_off hoff hsb
  obtain ⟨_, s1, hlog, hrun⟩ := bind_eq_ok hrun
  cases hlog
  obtain ⟨_, s2, hstore, hrun⟩ := bind_eq_ok hrun
  obtain ⟨a, s3, hino, hrun⟩ := bind_eq_ok hrun
  obtain ⟨_, s4, hcell, hrun⟩ := bind_eq_ok hrun
  have hlast : Quiet s4 v := Keeps.of_ok hrun
  -- the first byte of the name
  obtain ⟨_, u, htouch, hwrite⟩ := bind_eq_ok hstore
  obtain ⟨hl, hp⟩ := touch_ok htouch
  cases hwrite
  have hqu : Quiet s u := trans_of Quiet (quiet_log s _) hl.quiet
  have hdata : blockVa 2 ≤ e := by
    have hb := hoff e le_rfl (by simp only [DIRESIZE]; omega)
    simp only [OffMeta] at hb
    omega
  have hcached : (u.write e 1 fun _ => 0).cached = s.cached :=
    (cached_write_data (present_bytes hp) (Or.inr hdata)).trans hqu.cached
  have hbyte := byte_write u e 1 (fun _ => 0) (present_bytes hp)
  have hind2 : (u.write e 1 fun _ => 0).inInd e = w.inInd e := by
    rw [← hind, ← hqu.inInd]
    refine u16_congr ?_ ?_ <;> rw [hbyte] <;>
      exact splice_outside _ _ (by simp only [offInInd]; omega)
  have hsane2 : Sane N (u.write e 1 fun _ => 0) :=
    hsane.of_cached ⟨hqu.present _ hsane.ready.super, hqu.present _ hsane.ready.inode⟩ hcached
  -- the size of the inode
  obtain ⟨t', hl', hm, hino⟩ := inodeOf_mapped hino
  rw [inodeOf_run hm] at hino
  cases hino
  have hq3 : Quiet _ (t'.follow (t'.inInd e)) := trans_of Quiet hl'.quiet (quiet_follow t' _)
  have hind3 : t'.inInd e = w.inInd e := by
    rw [hl'.quiet.inInd, hind2]
  have hk3 : t'.inInd e < N := by
    rw [hind3]
    exact hk
  have h3 := (Effect.refl hsane2).quiet hq3 (by exact hl'.accesses)
  have hfield := store16_field h3.sane.ready (h3.sane.lt hk3) (o := offSize) (by decide) 0
  rw [hfield] at hcell
  cases hcell
  have h4 := h3.setSize hk3 0
  refine ⟨hlast.sane h4.sane, ?_, fun x hx => ?_⟩
  · rw [hlast.cached, h4.cached, hcached, hsc, hind3, Meta.removed, setSize_idem]
  · rw [hlast.byte, h4.byte x hx, hbyte, splice]
    split_ifs with hin' he he
    · rfl
    · omega
    · omega
    · rw [hqu.byte, hsb x hx]

theorem Removes.inOcp {N : Nat} {w v : World} {e : Nat} (h : Removes N w e v) :
    v.cached.inOcp = w.cached.inOcp := by
  rw [h.cached]
  exact inOcp_cutAll _ _ _

/-- Writes to the file at `f`, and what the writers put into their buffers before. -/
def FileOp.Writes (f : Nat) : FileOp → Prop
  | .write g _ _ _ => g = f
  | .caller _ _ => True
  | _ => False

instance (f : Nat) (op : FileOp) : Decidable (op.Writes f) :=
  match op with
  | .write g _ _ _ => inferInstanceAs (Decidable (g = f))
  | .caller _ _ => isTrue trivial
  | .create _ _ | .remove _ | .open _ | .read _ _ _ _ | .setSize _ _ | .flush _ | .sync =>
    isFalse fun h => h

/-- The bitmaps are as before, up to blocks newly attached to the directory `d`, and so is its
size. -/
structure Restored (w v : World) (d : Nat) : Prop where
  inOcp : ∀ k, v.cached.inOcp k = w.cached.inOcp k
  blkOcp : ∀ b, v.cached.blkOcp b = w.cached.blkOcp b ∨
    ∃ j, w.cached.slot d j = 0 ∧ v.cached.slot d j = b
  size : (v.cached.inode d).size = (w.cached.inode d).size

private theorem beside_fill {N : Nat} {w : World} (h : Sane N w) (k : Nat) {buf n : Nat} (f : Nat → UInt8)
    (hbuf : Apart buf n) : Beside N k w (w.fill buf n f) := by
  have hc : (w.fill buf n f).cached = w.cached := cached_fill hbuf
  have hr : Ready (w.fill buf n f) :=
    ⟨present_fill w buf n f _ h.ready.super, present_fill w buf n f _ h.ready.inode⟩
  refine ⟨h.of_cached hr hc, by rw [hc], by rw [hc], fun _ _ => by rw [hc], fun i p hi _ hz => ?_⟩
  have hb := h.addrOf_bounds hi hz
  refine byte_fill_disk hbuf ?_ hb.2
  simp only [blockVa, DISKMAP, BLKSIZE] at *
  omega

private theorem writes_beside {N : Nat} {w : World} (h : Sane N w) {d f k : Nat} (hd : d < N) (hdk : d ≠ k)
    (hk : k < N) (hf : w.inInd f = k) (hin : w.EntryIn d f) {ops : List FileOp}
    (hops : ∀ op ∈ ops, op.Writes f ∧ op.Fits) : Beside N k w (server.run ops w) := by
  have hstep : ∀ op v, Beside N k w v → (op.Writes f ∧ op.Fits) → Beside N k w (server.step op v) := by
    rintro op v hv ⟨hwr, hfit⟩
    refine hv.trans ?_
    have hfv : v.inInd f = k := (hv.inInd hd hdk hin).trans hf
    cases op with
    | write g buf count offset =>
      have hg : g = f := hwr
      subst hg
      have hpos : 0 ≤ offset := hfit
      have hb := fileWrite_beside hv.sane (by rw [hfv]; exact hk) (hin.offMeta h hd) (hin.inMap h hd) buf count
        hpos
      rw [hfv] at hb
      have he : server.step (.write g buf count offset) v = final (fileWrite g buf count offset) v :=
        final_bind_pure _ _ v
      rw [he]
      exact hb
    | caller buf bytes => exact beside_fill hv.sane k _ hfit
    | create _ _ => exact absurd hwr id
    | remove _ => exact absurd hwr id
    | «open» _ => exact absurd hwr id
    | read _ _ _ _ => exact absurd hwr id
    | setSize _ _ => exact absurd hwr id
    | flush _ => exact absurd hwr id
    | sync => exact absurd hwr id
  exact Machine.run_invariant hstep (Beside.of_quiet h (refl_of Quiet w))
    (Machine.Along.of_forall (fun op hop _ => hops op hop) w)

section Leak

variable {N : Nat} {D : Nat → Prop} {w w' v : World} {path : List UInt8} {type f : Nat} {ops : List FileOp}
  (h : TidyIn N D w) (h0 : (0 : UInt8) ∉ path) (htype : type = FTYPE_REG ∨ type = FTYPE_DIR)
  (hcreate : fileCreate path type w = .ok f w') (hops : ∀ op ∈ ops, op.Writes f ∧ op.Fits)
  (hreg : type = FTYPE_DIR → ops = []) (hremove : fileRemove path (server.run ops w') = .ok () v)
include h h0 htype hcreate hops hreg hremove

private theorem inode_leaks : ∃ k, w.cached.inOcp k = false ∧ v.cached.inOcp k = true := by
  obtain ⟨d, name, k, hres, hc, ht⟩ := fileCreate_created h h0 hcreate
  have hslash : path.head? = some slash := by
    unfold World.resolve at hres
    split_ifs at hres with hs
    exact hs
  have hb : Beside N k w' (server.run ops w') :=
    writes_beside hc.sane hc.dir.1 hc.dir.2 hc.inode.1 hc.inode.2 hc.entryIn hops
  have htrail : (server.run ops w').Trail N ((skipSlash path).length + 1) (skipSlash path) 0 0 0
      (inodeVa d) f := by
    rcases htype with rfl | hdir
    · refine hb.trail ?_ h.sane.pos ht
      rw [World.IsDir, hc.type]
      decide
    · rw [hreg hdir]
      exact ht
  obtain ⟨j, s, hz, hs, he⟩ := hc.entryIn
  have hin : (server.run ops w').EntryIn d f :=
    ⟨j, s, by rw [hb.slot hc.dir.2]; exact hz, hs, by rw [hb.slot hc.dir.2]; exact he⟩
  have hk : (server.run ops w').inInd f < N := by
    rw [hb.inInd hc.dir.1 hc.dir.2 hc.entryIn, hc.inode.2]
    exact hc.inode.1
  obtain ⟨t, hq, hwalk⟩ := walkLoop_trail hb.sane hb.sane.pos htrail
  have hpath : walkPath path (server.run ops w') = .ok (.found (inodeVa d) f) t := by
    rw [walkPath, if_pos hslash]
    exact hwalk
  refine ⟨k, hc.free, ?_⟩
  rw [(fileRemove_removes hb.sane hc.dir.1 hin hk hq hpath hremove).inOcp, hb.inOcp]
  exact hc.taken

end Leak

/-- Removal never gives back what creation took: the inode stays marked. -/
theorem create_remove_leaks (N : Nat) (D : Nat → Prop) (w w' v : World) (path : List UInt8) (type f : Nat)
    (ops : List FileOp) (h : TidyIn N D w) (h0 : (0 : UInt8) ∉ path)
    (htype : type = FTYPE_REG ∨ type = FTYPE_DIR) (hcreate : fileCreate path type w = .ok f w')
    (hops : ∀ op ∈ ops, op.Writes f ∧ op.Fits) (hreg : type = FTYPE_DIR → ops = [])
    (hremove : fileRemove path (server.run ops w') = .ok () v) (d : Nat) : ¬Restored w v d := by
  intro hr
  obtain ⟨k, hfree, htaken⟩ := inode_leaks h h0 htype hcreate hops hreg hremove
  rw [← hr.inOcp k, htaken] at hfree
  cases hfree

theorem orderly_fresh : Orderly 4 (mount (freshDisk 4 1)) where
  sane := ⟨⟨rfl, rfl⟩, by decide +kernel, by decide, by decide, (soundImage_iff (by decide)).mp
    ⟨by decide +kernel, by decide +kernel, by decide +kernel,
      OwnedBlocks.of_filled [(0, 0)] (by decide +kernel) (by decide +kernel) (by decide +kernel)⟩⟩
  root := by decide +kernel
  filled i j hi hd hj := by
    have hall : ∀ i < 4, (mount (freshDisk 4 1)).IsDir i → ∀ j < ((mount (freshDisk 4 1)).cached.inode i).blkUsed,
        (mount (freshDisk 4 1)).cached.slot i j ≠ 0 := by decide +kernel
    exact hall i hi hd j hj
  named i e hi hd he hb := by
    have hall : ∀ i < 4, (mount (freshDisk 4 1)).IsDir i → ∀ e ∈ (mount (freshDisk 4 1)).entries i,
        (mount (freshDisk 4 1)).byte e = 0 := by decide +kernel
    exact absurd (hall i hi hd e he) hb
  unused i hi ho := by
    have hall : ∀ i < 4, (mount (freshDisk 4 1)).cached.inOcp i = false →
        ¬(mount (freshDisk 4 1)).IsDir i ∧ ((mount (freshDisk 4 1)).cached.inode i).blkUsed = 0 ∧
          ∀ j < NDIRECT, (mount (freshDisk 4 1)).cached.slot i j = 0 := by decide +kernel
    obtain ⟨hd, hu, hz⟩ := hall i hi ho
    refine ⟨hd, hu, fun j => ?_⟩
    rcases Nat.lt_or_ge j NDIRECT with hj | hj
    · exact hz j hj
    · exact slot_ge _ i hj

/-- `/a` is created on a fresh disk, three bytes are written to it, and it is removed. -/
def shortLife : List FileOp := [.caller 4096 [1, 2, 3], .write (blockVa 2) 4096 3 0]

theorem shortLife_create : fileCreate [47, 97] FTYPE_REG (mount (freshDisk 4 1)) =
    .ok (blockVa 2) (final (fileCreate [47, 97] FTYPE_REG) (mount (freshDisk 4 1))) :=
  eq_ok_of_value (by decide +kernel)

private theorem shortLife_remove : fileRemove [47, 97] (server.run shortLife
      (final (fileCreate [47, 97] FTYPE_REG) (mount (freshDisk 4 1)))) =
    .ok () (final (fileRemove [47, 97]) (server.run shortLife
      (final (fileCreate [47, 97] FTYPE_REG) (mount (freshDisk 4 1))))) :=
  eq_ok_of_returns (by decide +kernel)

theorem create_remove_leaks_shortLife :
    ¬Restored (mount (freshDisk 4 1)) (final (fileRemove [47, 97]) (server.run shortLife
      (final (fileCreate [47, 97] FTYPE_REG) (mount (freshDisk 4 1))))) 0 :=
  create_remove_leaks 4 _ _ _ _ [47, 97] FTYPE_REG (blockVa 2) shortLife orderly_fresh.tidy.within (by decide)
    (Or.inl rfl) shortLife_create (by decide) (by decide) shortLife_remove 0

theorem restored_fails : ¬∀ (N : Nat) (w w' v : World) (path name : List UInt8) (type f d : Nat)
    (ops : List FileOp), Orderly N w → (0 : UInt8) ∉ path → (type = FTYPE_REG ∨ type = FTYPE_DIR) →
      fileCreate path type w = .ok f w' → (∀ op ∈ ops, op.Writes f ∧ op.Fits) →
      (type = FTYPE_DIR → ops = []) → fileRemove path (server.run ops w') = .ok () v →
      w.resolve path = .ok (.missing (inodeVa d) name) → Restored w v d := by
  intro hall
  obtain ⟨k, hfree, htaken⟩ := inode_leaks orderly_fresh.tidy.within (by decide) (Or.inl (Eq.refl FTYPE_REG))
    shortLife_create (by decide) (by decide) shortLife_remove
  have hr := hall 4 _ _ _ [47, 97] [97] FTYPE_REG (blockVa 2) 0 shortLife orderly_fresh (by decide)
    (Or.inl rfl) shortLife_create (by decide) (by decide) shortLife_remove (by decide +kernel)
  rw [← hr.inOcp k, htaken] at hfree
  cases hfree

end DamnOS.FileSystem
