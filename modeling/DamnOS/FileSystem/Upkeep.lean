import DamnOS.FileSystem.NewDirectory

/-!
# Directories in order along runs

Which calls keep the directories that can be reached from the root in order: their slots filled, their
named entries leading to inodes in use, each inode named by one entry.
-/

namespace DamnOS.FileSystem

open DamnOS.Framework

/-- `e` is a named entry of directory `i` in `D`. -/
structure World.NamedIn (w : World) (D : Nat → Prop) (i e : Nat) : Prop where
  mem : D i
  dir : w.IsDir i
  entry : e ∈ w.entries i
  name : w.byte e ≠ 0

/-- The inodes in `D` are in use, the directories among them are tidy, and no inode has two names
outside itself. -/
structure InOrder (N : Nat) (D : Nat → Prop) (w : World) : Prop extends TidyIn N D w where
  rootDir : w.IsDir 0
  used : ∀ i, D i → w.cached.inOcp i = true
  single : ∀ i e i' e', w.NamedIn D i e → w.NamedIn D i' e' → w.inInd e = w.inInd e' →
    w.inInd e ≠ i → w.inInd e ≠ i' → e = e'
  top : ∀ i e, w.NamedIn D i e → w.inInd e = 0 → i = 0

/-- Directories in `D` and unused inodes are as before. -/
structure Stands (N : Nat) (D : Nat → Prop) (w v : World) : Prop where
  sane : Sane N v
  inOcp : v.cached.inOcp = w.cached.inOcp
  type : ∀ i, i < N → (v.cached.inode i).type = (w.cached.inode i).type
  kept : ∀ i, i < N → D i ∧ w.IsDir i ∨ w.cached.inOcp i = false →
    (v.cached.inode i).blkUsed = (w.cached.inode i).blkUsed ∧
      ∀ j, v.cached.slot i j = w.cached.slot i j
  byte : ∀ i p, D i → w.IsDir i → w.cached.slot i (p / BLKSIZE) ≠ 0 →
    v.byte (w.addrOf i p) = w.byte (w.addrOf i p)

theorem InOrder.filledAt {N : Nat} {D : Nat → Prop} {w : World} (h : InOrder N D w) {i : Nat} (hi : D i)
    (hd : w.IsDir i) : w.Filled i := fun j => h.filled i j hi hd

theorem World.Filled.entryIn {w : World} {i e : Nat} (h : w.Filled i) (he : e ∈ w.entries i) :
    w.EntryIn i e := by
  obtain ⟨j, hj, s, hs, rfl⟩ := mem_entries.mp he
  exact ⟨j, s, h j hj, hs, rfl⟩

theorem inInd_of_byte {w v : World} {e : Nat} (h : ∀ x, e ≤ x → x < e + DIRESIZE → v.byte x = w.byte x) :
    v.inInd e = w.inInd e := by
  refine u16_congr (h _ ?_ ?_) (h _ ?_ ?_) <;> simp only [offInInd, DIRESIZE] <;> omega

theorem entries_of_slots {w v : World} {i : Nat} (hu : (v.cached.inode i).blkUsed = (w.cached.inode i).blkUsed)
    (hs : ∀ j, v.cached.slot i j = w.cached.slot i j) : v.entries i = w.entries i := by
  have hb : v.blockEntries i = w.blockEntries i := by
    funext j
    rw [World.blockEntries, World.blockEntries, hs]
  rw [World.entries, World.entries, hu, hb]

namespace Stands

variable {N : Nat} {D : Nat → Prop} {w t v : World}

theorem isDir (h : Stands N D w v) {i : Nat} (hi : i < N) : v.IsDir i ↔ w.IsDir i := by
  rw [World.IsDir, World.IsDir, h.type i hi]

theorem of_quiet (hw : Sane N w) (h : Quiet w v) : Stands N D w v where
  sane := h.sane hw
  inOcp := by rw [h.cached]
  type _ _ := by rw [h.cached]
  kept _ _ _ := by
    rw [h.cached]
    exact ⟨rfl, fun _ => rfl⟩
  byte _ _ _ _ _ := by rw [h.byte]

private theorem of_beside {k : Nat} (h : Beside N k w v) (ho : w.cached.inOcp k = true) (hk : ¬(D k ∧ w.IsDir k))
    (hlt : ∀ i, D i → i < N) : Stands N D w v where
  sane := h.sane
  inOcp := h.inOcp
  type i _ := by
    by_cases hi : i = k
    · rw [hi, h.type]
    · rw [h.other i hi]
  kept i _ hc := by
    have hi : i ≠ k := by
      rintro rfl
      rcases hc with hd | hf
      · exact hk hd
      · rw [ho] at hf
        cases hf
    rw [h.other i hi]
    exact ⟨rfl, h.slot hi⟩
  byte i p hi hd hz := by
    refine h.byte i p (hlt i hi) ?_ hz
    rintro rfl
    exact hk ⟨hi, hd⟩

end Stands

section Keep

variable {N : Nat} {D : Nat → Prop} {w v : World} (h : InOrder N D w) (hs : Stands N D w v)
include h hs

theorem Stands.entries {i : Nat} (hi : D i) (hd : w.IsDir i) : v.entries i = w.entries i := by
  obtain ⟨hu, hslot⟩ := hs.kept i (h.lt i hi) (Or.inl ⟨hi, hd⟩)
  exact entries_of_slots hu hslot

theorem Stands.entry {i e : Nat} (hi : D i) (hd : w.IsDir i) (he : e ∈ w.entries i) {x : Nat} (hlo : e ≤ x)
    (hhi : x < e + DIRESIZE) : v.byte x = w.byte x := by
  obtain ⟨p, hp, rfl⟩ := ((h.filledAt hi hd).entryIn he).position hlo hhi
  exact hs.byte i p hi hd hp

theorem Stands.inInd {i e : Nat} (hi : D i) (hd : w.IsDir i) (he : e ∈ w.entries i) :
    v.inInd e = w.inInd e :=
  inInd_of_byte fun _ hlo hhi => hs.entry h hi hd he hlo hhi

private theorem Stands.namedIn {i e : Nat} (hn : v.NamedIn D i e) : w.NamedIn D i e := by
  have hd := (hs.isDir (h.lt i hn.mem)).mp hn.dir
  have he := hn.entry
  rw [hs.entries h hn.mem hd] at he
  refine ⟨hn.mem, hd, he, ?_⟩
  rw [← hs.entry h hn.mem hd he le_rfl (by simp only [DIRESIZE]; omega)]
  exact hn.name

private theorem Stands.inInd_named {i e : Nat} (hn : v.NamedIn D i e) : v.inInd e = w.inInd e := by
  have hw := hs.namedIn h hn
  exact hs.inInd h hw.mem hw.dir hw.entry

theorem InOrder.stands : InOrder N D v where
  sane := hs.sane
  lt := h.lt
  root := h.root
  rootDir := (hs.isDir h.sane.pos).mpr h.rootDir
  used i hi := by
    rw [hs.inOcp]
    exact h.used i hi
  filled i j hi hd hj := by
    rw [hs.isDir (h.lt i hi)] at hd
    obtain ⟨hu, hslot⟩ := hs.kept i (h.lt i hi) (Or.inl ⟨hi, hd⟩)
    rw [hu] at hj
    rw [hslot]
    exact h.filled i j hi hd hj
  named i e hi hd he hb := by
    have hn : v.NamedIn D i e := ⟨hi, hd, he, hb⟩
    obtain ⟨hi', hd', he', hb'⟩ := hs.namedIn h hn
    rw [hs.inInd_named h hn]
    exact h.named i e hi' hd' he' hb'
  unused i hi ho := by
    rw [hs.inOcp] at ho
    obtain ⟨hu, hslot⟩ := hs.kept i hi (Or.inr ho)
    rw [hs.isDir hi, hu]
    obtain ⟨hd, h0, hz⟩ := h.unused i hi ho
    refine ⟨hd, h0, fun j => ?_⟩
    rw [hslot]
    exact hz j
  single i e i' e' hn hn' heq hne hne' := by
    rw [hs.inInd_named h hn, hs.inInd_named h hn'] at heq
    rw [hs.inInd_named h hn] at hne hne'
    exact h.single i e i' e' (hs.namedIn h hn) (hs.namedIn h hn') heq hne hne'
  top i e hn heq := by
    rw [hs.inInd_named h hn] at heq
    exact h.top i e (hs.namedIn h hn) heq

end Keep

/-- The entry `f` lies in a block of an inode, and leads to an inode in use. -/
structure Usable (N : Nat) (w : World) (f : Nat) : Prop where
  place : ∃ d, d < N ∧ w.EntryIn d f
  inode : w.inInd f < N
  inOcp : w.cached.inOcp (w.inInd f) = true

theorem Stands.of_cached {N : Nat} {D : Nat → Prop} {w v : World} (h : Sane N w) (hlt : ∀ i, D i → i < N)
    (hr : Ready v) (hc : v.cached = w.cached)
    (hb : ∀ x, blockVa 2 ≤ x → x < DISKMAP + DISKSIZE → v.byte x = w.byte x) : Stands N D w v where
  sane := h.of_cached hr hc
  inOcp := by rw [hc]
  type _ _ := by rw [hc]
  kept _ _ _ := by
    rw [hc]
    exact ⟨rfl, fun _ => rfl⟩
  byte i p hi _ hz := by
    have hbounds := h.addrOf_bounds (hlt i hi) hz
    exact hb _ hbounds.1 hbounds.2

section Calls

variable {N : Nat} {D : Nat → Prop} {w : World} (h : InOrder N D w)
include h

theorem stands_fill {buf n : Nat} (f : Nat → UInt8) (hbuf : Apart buf n) : Stands N D w (w.fill buf n f) := by
  refine Stands.of_cached h.sane h.lt ⟨present_fill w buf n f _ h.sane.ready.super,
    present_fill w buf n f _ h.sane.ready.inode⟩ (cached_fill hbuf) fun x hlo hhi => ?_
  refine byte_fill_disk hbuf ?_ hhi
  simp only [blockVa, DISKMAP, BLKSIZE] at *
  omega

theorem fileRead_stands {f : Nat} (hf : w.inInd f < N) (ho : w.cached.inOcp (w.inInd f) = true)
    {buf count : Nat} (hbuf : Apart buf count) {offset : Int}
    (hdir : w.IsDir (w.inInd f) → 0 ≤ offset ∧ ∀ p : Nat, offset ≤ p → (p : Int) < offset + count →
      p < (w.cached.inode (w.inInd f)).size → w.cached.slot (w.inInd f) (p / BLKSIZE) ≠ 0) :
    Stands N D w (final (fileRead f buf count offset) w) := by
  by_cases hd : w.IsDir (w.inInd f)
  swap
  · exact .of_beside (fileRead_beside h.sane hf hbuf offset) ho (fun hk => hd hk.2) h.lt
  obtain ⟨hpos, hfill⟩ := hdir hd
  obtain ⟨a, rfl⟩ := Int.eq_ofNat_of_zero_le hpos
  rcases inodeOf_start f w with ⟨t, hl, hm, he⟩ | ⟨p, t, he, hl⟩
  swap
  · have hstop : fileRead f buf count a w = .error (.panic p) t := bind_error he
    rw [final_error hstop]
    exact .of_quiet h.sane hl.quiet
  have hrun : fileRead f buf count a w = fileRead f buf count a t := bind_congr_run he
  have hq := hl.quiet
  have hk : t.inInd f < N := by
    rw [hq.inInd]
    exact hf
  obtain ⟨c, e, hc, he', hmoved, -⟩ := fileRead_effect (hl.sane h.sane) hk hm (a := a) hbuf
  have hq' : Quiet w (t.follow (t.inInd f)) := trans_of Quiet hq (quiet_follow t _)
  rw [final_congr hrun]
  have hsame : (final (fileRead f buf count a) t).cached = w.cached := by
    rw [hmoved.idle fun p hlo hhi => ?_, hq'.cached]
    rw [hq'.cached, hq.inInd]
    rw [hq.cached, hq.inInd] at hc
    exact hfill p (by omega) (by omega) (by omega)
  refine .of_cached h.sane h.lt (hmoved.sane.ready) hsame fun x hlo hhi => ?_
  rw [hmoved.still x (Or.inr hlo) fun p hplo hphi => ?_, hq'.byte]
  simp only [World.target, Bool.false_eq_true, if_false]
  unfold Apart at hbuf
  simp only [blockVa, DISKMAP, DISKSIZE, BLKSIZE] at *
  omega

variable {f : Nat} (hf : Usable N w f)
include hf

theorem fileWrite_stands (buf count : Nat) {offset : Int} (hpos : 0 ≤ offset) (hdir : ¬w.IsDir (w.inInd f)) :
    Stands N D w (final (fileWrite f buf count offset) w) := by
  obtain ⟨d, hd, hin⟩ := hf.place
  exact .of_beside (fileWrite_beside h.sane hf.inode (hin.offMeta h.sane hd) (hin.inMap h.sane hd) buf count hpos)
    hf.inOcp (fun hk => hdir hk.2) h.lt

theorem fileSetSize_stands {newsize : Int} (hdir : w.IsDir (w.inInd f) → Idle f newsize w) :
    Stands N D w (final (fileSetSize f newsize) w) := by
  obtain ⟨d, hd, hin⟩ := hf.place
  have hoff := hin.offMeta h.sane hd
  have hmap := hin.inMap h.sane hd
  by_cases hdk : w.IsDir (w.inInd f)
  swap
  · exact .of_beside (fileSetSize_beside h.sane hf.inode hoff hmap newsize) hf.inOcp (fun hk => hdk hk.2) h.lt
  rcases inodeOf_start f w with ⟨t, hl, hm, he⟩ | ⟨p, t, he, hl⟩
  swap
  · have hstop : fileSetSize f newsize w = .error (.panic p) t := bind_error he
    rw [final_error hstop]
    exact .of_quiet h.sane hl.quiet
  have hrun : fileSetSize f newsize w = fileSetSize f newsize t := bind_congr_run he
  have hq := hl.quiet
  have hk : t.inInd f < N := by
    rw [hq.inInd]
    exact hf.inode
  rw [final_congr hrun, final_ok (fileSetSize_run (hl.sane h.sane) hk hmap newsize hm hoff)]
  have hr := resizes (hl.sane h.sane) hk hmap newsize
  have hidle := idle_iff.mp (calm_idle f newsize w t hq (hdir hdk))
  generalize t.resized f newsize = v at hr
  rw [hq.inInd, hq.cached] at hidle
  have hcached := hr.cached
  rw [hq.inInd, hq.cached] at hcached
  have hinode (i : Nat) : (v.cached.inode i).type = (w.cached.inode i).type ∧
      (v.cached.inode i).blkUsed = (w.cached.inode i).blkUsed ∧
      ∀ j, v.cached.slot i j = w.cached.slot i j := by
    rw [hcached]
    by_cases hik : i = w.inInd f
    · subst hik
      refine ⟨?_, ?_, fun j => ?_⟩
      · simp [Meta.setSize, Meta.setInode, inode_cutAll]
      · simp [Meta.setSize, Meta.setInode, inode_cutAll]
      · by_cases hj : j ∈ cutRange (w.cached.inode (w.inInd f)).size newsize
        · have hz : (w.cached.inode (w.inInd f)).blkInd j = 0 := hidle j hj
          simp [Meta.setSize, Meta.setInode, Meta.slot, inode_cutAll, hj, hz]
        · simp [Meta.setSize, Meta.setInode, Meta.slot, inode_cutAll, hj]
    · refine ⟨?_, ?_, fun j => ?_⟩ <;>
        simp [Meta.setSize, Meta.setInode, Meta.slot, inode_cutAll, hik]
  refine ⟨hr.sane, ?_, fun i _ => (hinode i).1, fun i _ _ => (hinode i).2, fun i p hi _ hz => ?_⟩
  · rw [hcached]
    exact inOcp_cutAll _ _ _
  · rw [hr.byte _ (Or.inr (h.sane.addrOf_bounds (h.lt i hi) hz).1), hq.byte]

end Calls

theorem Effect.stands {N : Nat} {D : Nat → Prop} {m : Meta} {xs : List Access} {w v : World}
    (hw : InOrder N D w) (h : Effect N m w.byte xs w v) (hocp : m.inOcp = w.cached.inOcp)
    (hinode : ∀ i, (m.inode i).type = (w.cached.inode i).type ∧
      (m.inode i).blkUsed = (w.cached.inode i).blkUsed ∧ m.slot i = w.cached.slot i) : Stands N D w v where
  sane := h.sane
  inOcp := h.cached ▸ hocp
  type i _ := h.cached ▸ (hinode i).1
  kept i _ _ := by
    rw [h.cached]
    exact ⟨(hinode i).2.1, fun j => congrFun (hinode i).2.2 j⟩
  byte i _ hi _ hz := h.byte _ (Or.inr (hw.sane.addrOf_bounds (hw.lt i hi) hz).1)

theorem bumped_inode (m : Meta) (d i : Nat) : ((m.bumped d).inode i).type = (m.inode i).type ∧
    ((m.bumped d).inode i).blkUsed = (m.inode i).blkUsed ∧ (m.bumped d).slot i = m.slot i := by
  refine ⟨?_, ?_, by rw [Meta.bumped, slot_setSize]⟩ <;>
    by_cases hi : i = d <;> simp [Meta.bumped, Meta.setSize, Meta.setInode, hi]

private theorem created_other (m : Meta) {d k i : Nat} (type : Nat) (blk : Option Nat) (hi : i ≠ k) :
    ((m.created d k type blk).inode i).type = (m.inode i).type ∧
      ((m.created d k type blk).inode i).blkUsed = (m.inode i).blkUsed ∧
      (m.created d k type blk).slot i = m.slot i := by
  have hb := bumped_inode m d i
  have hsame : (m.created d k type blk).inode i = (m.bumped d).inode i := by
    cases blk <;> simp [Meta.created, Meta.newDir, Meta.setType, Meta.setSize, Meta.setBlkUsed,
      Meta.setSlot, Meta.setInode, Meta.setBlkOcp, Meta.setInOcp, hi]
  refine ⟨hsame ▸ hb.1, hsame ▸ hb.2.1, ?_⟩
  rw [← hb.2.2]
  exact congrArg Inode.blkInd hsame

private theorem created_inOcp (m : Meta) (d k type : Nat) (blk : Option Nat) :
    (m.created d k type blk).inOcp = Function.update m.inOcp k true := by
  cases blk <;> rfl

private theorem created_none (m : Meta) {d k : Nat} (type : Nat) (hd : k ≠ d) :
    ((m.created d k type none).inode k).blkUsed = (m.inode k).blkUsed := by
  simp [Meta.created, Meta.bumped, Meta.setType, Meta.setSize, Meta.setInode, Meta.setInOcp, hd]

private theorem created_some (m : Meta) {d k : Nat} (type b : Nat) (hd : k ≠ d) (hu : (m.inode k).blkUsed = 0) :
    ((m.created d k type (some b)).inode k).blkUsed = 1 ∧
      (m.created d k type (some b)).slot k 0 = b := by
  constructor
  · simp [Meta.created, Meta.newDir, Meta.bumped, Meta.setType, Meta.setSize, Meta.setBlkUsed,
      Meta.setSlot, Meta.setInode, Meta.setBlkOcp, Meta.setInOcp, hd, hu]
  · simp [Meta.slot, Meta.created, Meta.newDir, Meta.bumped, Meta.setType, Meta.setSize,
      Meta.setBlkUsed, Meta.setSlot, Meta.setInode, Meta.setBlkOcp, Meta.setInOcp]

/-- The block that a new inode of this type starts with shows no names beyond its first two entries. -/
def World.CleanStart (w : World) (type : Nat) : Prop :=
  ∀ b, w.startBlock type = some b → ∀ s, 2 ≤ s → s < BLKFILES → w.byte (blockVa b + DIRESIZE * s) = 0

theorem Sane.startBlock {N : Nat} {w : World} (h : Sane N w) {type b : Nat}
    (hb : w.startBlock type = some b) : b < w.cached.blkNum ∧ w.cached.blkOcp b = false ∧ 2 ≤ b := by
  unfold World.startBlock at hb
  split_ifs at hb
  exact (h.firstFree hb).2

section Create

variable {N : Nat} {D : Nat → Prop} {w v : World} (h : InOrder N D w) {d e k type : Nat}
  {name : List UInt8} {xs : List Access} (hlen : name.length < MAXNAMELEN)
  (heff : Effect N (w.cached.created d k type (w.startBlock type))
    (createdBytes w.byte e k name (w.startBlock type)) xs w v)
  (hd : D d) (hdir : w.IsDir d) (hv : w.vacant d = some e) (hk : w.firstInode = some k)
include h

private theorem entry_start {i f : Nat} (hi : D i) (hdi : w.IsDir i) (hf : f ∈ w.entries i) {b : Nat}
    (hb : w.startBlock type = some b) {x : Nat} (hlo : f ≤ x) (hhi : x < f + DIRESIZE) :
    x < blockVa b ∨ blockVa b + BLKSIZE ≤ x := by
  obtain ⟨p, hp, rfl⟩ := ((h.filledAt hi hdi).entryIn hf).position hlo hhi
  exact h.sane.addrOf_free (h.sane.startBlock hb).2.1 (h.lt i hi) hp

include hlen heff

theorem created_entry {i f : Nat} (hi : D i) (hdi : w.IsDir i) (hf : f ∈ w.entries i) {x : Nat}
    (hlo : f ≤ x) (hhi : x < f + DIRESIZE) (hout : x < e ∨ e + DIRESIZE ≤ x) : v.byte x = w.byte x := by
  have hoff := ((h.filledAt hi hdi).entryIn hf).offMeta h.sane (h.lt i hi) x hlo hhi
  rw [heff.byte x hoff]
  cases hblk : w.startBlock type with
  | none => exact newEntry_outside _ hlen k hout
  | some b =>
    have hapart := entry_start h hi hdi hf hblk hlo hhi
    refine (newEntry_outside _ hlen k hout).trans (dotEntries_outside _ _ _ ?_)
    simp only [BLKSIZE, DIRESIZE] at *
    omega

include hd hdir hv

omit hlen in
private theorem created_inInd (hk : w.firstInode = some k) : v.inInd e = k := by
  obtain ⟨hkN, -⟩ := h.sane.firstInode hk
  have hk' : k < 65536 := lt_trans (h.sane.lt hkN) (by decide)
  have hoff := ((h.filledAt hd hdir).entryIn (List.mem_of_find?_eq_some hv)).offMeta h.sane (h.lt d hd)
  rw [inInd_congr (heff.byte _ (hoff _ (Nat.le_add_right _ _) (by simp only [offInInd, DIRESIZE]; omega)))
    (heff.byte _ (hoff (e + offInInd + 1) (by omega) (by simp only [offInInd, DIRESIZE]; omega)))]
  cases w.startBlock type with
  | none => exact newEntry_inInd _ e name hk'
  | some b => exact newEntry_inInd _ e name hk'

private theorem created_inBlock {b : Nat} (hb : w.startBlock type = some b) {x : Nat} (hlo : blockVa b ≤ x)
    (hhi : x < blockVa b + BLKSIZE) : v.byte x = dotEntries w.byte b k x := by
  have hmem := List.mem_of_find?_eq_some hv
  have hb2 := (h.sane.startBlock hb).2.2
  -- the entry of the new directory lies in a block of its parent
  have hfirst := entry_start h hd hdir hmem hb le_rfl (by simp only [DIRESIZE]; omega)
  have hlast := entry_start h hd hdir hmem hb (Nat.le_add_right e 17) (by simp only [DIRESIZE]; omega)
  have hoff : OffMeta x := Or.inr ((blockVa_mono hb2).trans hlo)
  rw [heff.byte x hoff, hb]
  refine newEntry_outside _ hlen k ?_
  simp only [BLKSIZE, DIRESIZE] at *
  omega

include hk

private theorem created_newDir (hclean : w.CleanStart type) :
    v.Filled k ∧ ∀ f ∈ v.entries k, v.byte f ≠ 0 → v.inInd f = k := by
  obtain ⟨hkN, hfree⟩ := h.sane.firstInode hk
  obtain ⟨hknot, hku, hkz⟩ := h.unused k hkN hfree
  have hkd : k ≠ d := by
    rintro rfl
    exact hknot hdir
  cases hblk : w.startBlock type with
  | none =>
    have hzero : (v.cached.inode k).blkUsed = 0 := by
      rw [heff.cached, hblk, created_none _ type hkd, hku]
    refine ⟨fun j hj => by omega, fun f hf _ => ?_⟩
    obtain ⟨j, hj, -⟩ := mem_entries.mp hf
    omega
  | some b =>
    have hb2 := (h.sane.startBlock hblk).2.2
    obtain ⟨hu, hs⟩ := created_some w.cached type b hkd hku
    rw [← hblk, ← heff.cached] at hu hs
    refine ⟨fun j hj => ?_, fun f hf hne => ?_⟩
    · have hj0 : j = 0 := by omega
      rw [hj0, hs]
      omega
    · obtain ⟨j, hj, s, hsl, rfl⟩ := mem_entries.mp hf
      have hj0 : j = 0 := by omega
      rw [hj0, hs] at hne ⊢
      have hin (o : Nat) (ho : o < DIRESIZE) : v.byte (blockVa b + DIRESIZE * s + o) =
          dotEntries w.byte b k (blockVa b + DIRESIZE * s + o) := by
        refine created_inBlock h hlen heff hd hdir hv hblk (by omega) ?_
        simp only [BLKFILES, DIRESIZE, BLKSIZE] at *
        omega
      rcases Nat.lt_or_ge s 2 with hs2 | hs2
      · rw [inInd_congr (hin _ (by decide)) (hin (offInInd + 1) (by decide))]
        exact dotEntries_inInd _ b (lt_trans (h.sane.lt hkN) (by decide)) hs2
      · refine absurd ?_ hne
        rw [← Nat.add_zero (blockVa b + DIRESIZE * s), hin 0 (by decide), Nat.add_zero,
          dotEntries_outside _ _ _ (by simp only [DIRESIZE]; omega)]
        exact hclean b hblk s hs2 hsl

omit h hlen hd hdir hv hk in
theorem created_inode {i : Nat} (hi : i ≠ k) : (v.IsDir i ↔ w.IsDir i) ∧
    (v.cached.inode i).blkUsed = (w.cached.inode i).blkUsed ∧
      ∀ j, v.cached.slot i j = w.cached.slot i j := by
  obtain ⟨ht, hu, hs⟩ := created_other w.cached (d := d) type (w.startBlock type) hi
  rw [World.IsDir, World.IsDir, heff.cached, ht, hu, hs]
  exact ⟨Iff.rfl, rfl, fun _ => rfl⟩

private theorem created_namedIn (hclean : w.CleanStart type) {i f : Nat}
    (hn : v.NamedIn (fun i => D i ∨ i = k) i f) : v.inInd f = k ∧ (i = k ∨ f = e) ∨
      w.NamedIn D i f ∧ v.inInd f = w.inInd f := by
  by_cases hik : i = k
  · subst hik
    exact Or.inl ⟨(created_newDir h hlen heff hd hdir hv hk hclean).2 f hn.entry hn.name, Or.inl rfl⟩
  by_cases hfe : f = e
  · rw [hfe]
    exact Or.inl ⟨created_inInd h heff hd hdir hv hk, Or.inr rfl⟩
  have hi : D i := hn.mem.resolve_right hik
  obtain ⟨ht, hu, hs⟩ := created_inode heff hik
  have hdi := ht.mp hn.dir
  have hf := hn.entry
  rw [entries_of_slots hu hs] at hf
  have hsame (x : Nat) (hlo : f ≤ x) (hhi : x < f + DIRESIZE) : v.byte x = w.byte x :=
    created_entry h hlen heff hi hdi hf hlo hhi
      (entries_apart hf (List.mem_of_find?_eq_some hv) hfe hlo hhi)
  refine Or.inr ⟨⟨hi, hdi, hf, ?_⟩, inInd_of_byte hsame⟩
  rw [← hsame f le_rfl (by simp only [DIRESIZE]; omega)]
  exact hn.name

theorem InOrder.created (hclean : w.CleanStart type) : InOrder N (fun i => D i ∨ i = k) v := by
  obtain ⟨hkN, hfree⟩ := h.sane.firstInode hk
  have hknew (i : Nat) (hi : D i) : i ≠ k := by
    rintro rfl
    rw [h.used i hi] at hfree
    cases hfree
  have hocp (i : Nat) : v.cached.inOcp i = if i = k then true else w.cached.inOcp i := by
    rw [heff.cached, created_inOcp, Function.update_apply]
  have hnames {i f : Nat} := created_namedIn h hlen heff hd hdir hv hk hclean (i := i) (f := f)
  -- an old name does not lead to the new inode
  have hold {i f : Nat} (hn : w.NamedIn D i f) : w.inInd f ≠ k :=
    hknew _ (h.named i f hn.mem hn.dir hn.entry hn.name)
  refine ⟨⟨heff.sane, ?_, Or.inl h.root, ?_, ?_, ?_⟩, ?_, ?_, ?_, ?_⟩
  · rintro i (hi | rfl)
    · exact h.lt i hi
    · exact hkN
  · rintro i j (hi | rfl) hdi hj
    · obtain ⟨ht, hu, hs⟩ := created_inode heff (hknew i hi)
      rw [hu] at hj
      rw [hs]
      exact h.filled i j hi (ht.mp hdi) hj
    · exact (created_newDir h hlen heff hd hdir hv hk hclean).1 j hj
  · intro i f hi hdi hf hb
    rcases hnames ⟨hi, hdi, hf, hb⟩ with ⟨hin, -⟩ | ⟨hn, hin⟩
    · exact Or.inr hin
    · rw [hin]
      exact Or.inl (h.named i f hn.mem hn.dir hn.entry hn.name)
  · intro i hi ho
    rw [hocp] at ho
    split_ifs at ho with hik
    obtain ⟨ht, hu, hs⟩ := created_inode heff hik
    obtain ⟨hn, h0, hz⟩ := h.unused i hi ho
    exact ⟨fun hdi => hn (ht.mp hdi), hu.trans h0, fun j => (hs j).trans (hz j)⟩
  · exact (created_inode heff (hknew 0 h.root)).1.mpr h.rootDir
  · rintro i (hi | rfl)
    · rw [hocp, if_neg (hknew i hi)]
      exact h.used i hi
    · rw [hocp, if_pos rfl]
  · intro i f i' f' hn hn' heq hne hne'
    rcases hnames hn with ⟨hin, hc⟩ | ⟨ho, hin⟩ <;> rcases hnames hn' with ⟨hin', hc'⟩ | ⟨ho', hin'⟩
    · rw [hc.resolve_left fun hik => hne (hin.trans hik.symm),
        hc'.resolve_left fun hik => hne' (hin.trans hik.symm)]
    · rw [hin, hin'] at heq
      exact absurd heq.symm (hold ho')
    · rw [hin, hin'] at heq
      exact absurd heq (hold ho)
    · rw [hin, hin'] at heq
      rw [hin] at hne hne'
      exact h.single i f i' f' ho ho' heq hne hne'
  · intro i f hn hzero
    rcases hnames hn with ⟨hin, -⟩ | ⟨ho, hin⟩
    · rw [hin] at hzero
      exact absurd hzero (hknew 0 h.root).symm
    · rw [hin] at hzero
      exact h.top i f ho hzero

end Create

/-- Creation finds an entry without a name, and a clean block if it needs one. -/
def World.Creates (w : World) (path : List UInt8) (type : Nat) : Prop :=
  ∀ d name, w.resolve path = .ok (.missing (inodeVa d) name) → nameIsValid name = true →
    w.vacant d ≠ none ∧ w.CleanStart type

/-- A call that returns or stops the server, but never hands an error code back. -/
def Blunt {α : Type} (m : M α) : Prop :=
  ∀ w, (∃ a v, m w = .ok a v) ∨ ∃ p v, m w = .error (.panic p) v

theorem Blunt.seq {α β : Type} {m : M α} {g : α → M β} (hm : Blunt m) (hg : ∀ a, Blunt (g a)) :
    Blunt (m >>= g) := by
  intro w
  rcases hm w with ⟨a, t, ha⟩ | ⟨p, t, hp⟩
  · rcases hg a t with ⟨b, v, hb⟩ | ⟨p, v, hp⟩
    · exact Or.inl ⟨b, v, (bind_ok ha).trans hb⟩
    · exact Or.inr ⟨p, v, (bind_ok ha).trans hp⟩
  · exact Or.inr ⟨p, t, bind_error hp⟩

private theorem blunt_modify (g : World → World) : Blunt (modify g : M Unit) := fun w => Or.inl ⟨(), g w, rfl⟩

private theorem blunt_touch (a n : Nat) : Blunt (touch a n) := by
  intro w
  rcases touch_cases a n w with ⟨v, hv, -⟩ | ⟨p, v, hv, -⟩
  · exact Or.inl ⟨(), v, hv⟩
  · exact Or.inr ⟨p, v, hv⟩

private theorem blunt_store (a n : Nat) (g : Nat → UInt8) : Blunt (store a n g) :=
  (blunt_touch a n).seq fun _ => blunt_modify _

private theorem blunt_inodeOf (f : Nat) : Blunt (inodeOf f) := by
  intro w
  rcases inodeOf_start f w with ⟨t, -, hm, he⟩ | ⟨p, t, he, -⟩
  · exact Or.inl ⟨_, _, he.trans (inodeOf_run hm)⟩
  · exact Or.inr ⟨p, t, he⟩

private theorem blunt_flushBlock (a : Nat) : Blunt (flushBlock a) := by
  intro w
  unfold flushBlock
  split_ifs
  · exact Or.inr ⟨_, w, rfl⟩
  · exact Or.inl ⟨_, _, rfl⟩

theorem fileRemove_outcome {N : Nat} {w t : World} (h : Sane N w) {path : List UInt8} {d e : Nat}
    (hd : d < N) (hin : w.EntryIn d e) (hk : w.inInd e < N) (hq : Quiet w t)
    (hpath : walkPath path w = .ok (.found (inodeVa d) e) t) :
    (∃ v, fileRemove path w = .ok () v) ∨ ∃ p v, fileRemove path w = .error (.panic p) v := by
  rw [fileRemove, bind_ok hpath]
  dsimp only
  rw [bind_ok (get_run t)]
  have hrest : Blunt (do
      modify fun w => w.log (.entry (t.slotsOf (inodeVa d)) e 1)
      store e 1 fun _ => 0
      let inode ← inodeOf e
      store16 (inode + offSize) 0
      flushBlock e
      flushBlock (inodeVa 0) : M Unit) :=
    (blunt_modify _).seq fun _ => (blunt_store _ _ _).seq fun _ => (blunt_inodeOf e).seq fun _ =>
      (blunt_store _ _ _).seq fun _ => (blunt_flushBlock e).seq fun _ => blunt_flushBlock _
  rcases inodeOf_start e t with ⟨u, hl, hm, he⟩ | ⟨p, u, he, hl⟩
  · have hqu := trans_of Quiet hq hl.quiet
    have hset : fileSetSize e 0 t = .ok () (u.resized e 0) := by
      have hsame : fileSetSize e 0 t = fileSetSize e 0 u := bind_congr_run he
      rw [hsame]
      exact fileSetSize_run (hqu.sane h) (by rw [hqu.inInd]; exact hk) (hin.inMap h hd) 0 hm (hin.offMeta h hd)
    rw [bind_ok hset]
    rcases hrest (u.resized e 0) with ⟨_, v, hv⟩ | hp
    · exact Or.inl ⟨v, hv⟩
    · exact Or.inr hp
  · have hset : fileSetSize e 0 t = .error (.panic p) u := bind_error he
    exact Or.inr ⟨p, u, bind_error hset⟩

section Remove

variable {N : Nat} {D : Nat → Prop} {w v : World} (h : InOrder N D w) {d e : Nat}
  (hn : w.NamedIn D d e) (hself : w.IsDir (w.inInd e) → w.inInd e ≠ d) (hr : Removes N w e v)
include hr

theorem Removes.inode {i : Nat} (hi : i ≠ w.inInd e) : v.cached.inode i = w.cached.inode i := by
  rw [hr.cached]
  simp [Meta.removed, Meta.setSize, Meta.setInode, inode_cutAll, hi]

theorem Removes.type (i : Nat) : (v.cached.inode i).type = (w.cached.inode i).type := by
  by_cases hi : i = w.inInd e
  · rw [hr.cached, hi]
    simp [Meta.removed, Meta.setSize, Meta.setInode, inode_cutAll]
  · rw [hr.inode hi]

theorem Removes.isDir (i : Nat) : v.IsDir i ↔ w.IsDir i := by
  rw [World.IsDir, World.IsDir, hr.type]

theorem Removes.entries {i : Nat} (hi : i ≠ w.inInd e) : v.entries i = w.entries i := by
  have hsame := hr.inode hi
  exact entries_of_slots (by rw [hsame]) fun j => by rw [Meta.slot, Meta.slot, hsame]

include h hn

theorem Removes.entry {i f : Nat} (hi : D i) (hdi : w.IsDir i) (hf : f ∈ w.entries i) (hfe : f ≠ e) {x : Nat}
    (hlo : f ≤ x) (hhi : x < f + DIRESIZE) : v.byte x = w.byte x := by
  have hin := (h.filledAt hi hdi).entryIn hf
  rw [hr.byte x (hin.offMeta h.sane (h.lt i hi) x hlo hhi), if_neg]
  rintro rfl
  have hap := entries_apart hf hn.entry hfe hlo hhi
  simp only [DIRESIZE] at hap
  omega

theorem Removes.nameless : v.byte e = 0 := by
  have hin := (h.filledAt hn.mem hn.dir).entryIn hn.entry
  rw [hr.byte e (hin.offMeta h.sane (h.lt d hn.mem) e le_rfl (by simp only [DIRESIZE]; omega)), if_pos rfl]

private theorem Removes.namedIn {i f : Nat} (hf : v.NamedIn D i f) (hi : i ≠ w.inInd e) :
    w.NamedIn D i f ∧ f ≠ e ∧ v.inInd f = w.inInd f := by
  have hdi := (hr.isDir i).mp hf.dir
  have hmem := hf.entry
  rw [hr.entries hi] at hmem
  have hfe : f ≠ e := by
    rintro rfl
    exact hf.name (hr.nameless h hn)
  refine ⟨⟨hf.mem, hdi, hmem, ?_⟩, hfe, inInd_of_byte fun x => hr.entry h hn hf.mem hdi hmem hfe⟩
  rw [← hr.entry h hn hf.mem hdi hmem hfe le_rfl (by simp only [DIRESIZE]; omega)]
  exact hf.name

include hself

/-- A removed directory is no longer among those that can be reached. -/
theorem InOrder.removed : InOrder N (fun i => D i ∧ ¬(i = w.inInd e ∧ w.IsDir i)) v := by
  have hnamed := h.named d e hn.mem hn.dir hn.entry hn.name
  have hocp := hr.inOcp
  have hne {i : Nat} (hi : D i ∧ ¬(i = w.inInd e ∧ w.IsDir i)) (hd : v.IsDir i) : i ≠ w.inInd e :=
    fun he => hi.2 ⟨he, (hr.isDir i).mp hd⟩
  have hnames {i f : Nat} (hf : v.NamedIn (fun i => D i ∧ ¬(i = w.inInd e ∧ w.IsDir i)) i f) :
      w.NamedIn D i f ∧ f ≠ e ∧ v.inInd f = w.inInd f :=
    hr.namedIn h hn ⟨hf.mem.1, hf.dir, hf.entry, hf.name⟩ (hne hf.mem hf.dir)
  refine ⟨⟨hr.sane, fun i hi => h.lt i hi.1, ⟨h.root, ?_⟩, ?_, ?_, ?_⟩, (hr.isDir 0).mpr h.rootDir, ?_, ?_, ?_⟩
  · rintro ⟨hzero, hd0⟩
    have htop := h.top d e hn hzero.symm
    rw [htop] at hself
    exact hself (hzero ▸ hd0) hzero.symm
  · intro i j hi hd hj
    have hsame := hr.inode (hne hi hd)
    rw [hsame] at hj
    rw [Meta.slot, hsame]
    exact h.filled i j hi.1 ((hr.isDir i).mp hd) hj
  · intro i f hi hd hf hb
    obtain ⟨ho, hfe, hin⟩ := hnames ⟨hi, hd, hf, hb⟩
    rw [hin]
    refine ⟨h.named i f ho.mem ho.dir ho.entry ho.name, ?_⟩
    rintro ⟨heq, hdk⟩
    rw [heq] at hdk
    refine hfe (h.single i f d e ho hn heq ?_ ?_)
    · rw [heq]
      exact (hne hi hd).symm
    · rw [heq]
      exact hself hdk
  · intro i hi ho
    rw [hocp] at ho
    have hik : i ≠ w.inInd e := by
      rintro rfl
      rw [h.used _ hnamed] at ho
      cases ho
    rw [hr.isDir, hr.inode hik]
    obtain ⟨hd, hu, hz⟩ := h.unused i hi ho
    refine ⟨hd, hu, fun j => ?_⟩
    rw [Meta.slot, hr.inode hik]
    exact hz j
  · intro i hi
    rw [hocp]
    exact h.used i hi.1
  · intro i f i' f' hf hf' heq hne' hne''
    obtain ⟨ho, -, hin⟩ := hnames hf
    obtain ⟨ho', -, hin'⟩ := hnames hf'
    rw [hin, hin'] at heq
    rw [hin] at hne' hne''
    exact h.single i f i' f' ho ho' heq hne' hne''
  · intro i f hf hzero
    obtain ⟨ho, -, hin⟩ := hnames hf
    rw [hin] at hzero
    exact h.top i f ho hzero

end Remove

end DamnOS.FileSystem
