import DamnOS.FileSystem.Upkeep

/-!
# Careful calls

Careful calls keep the directories in order.  Every name but those that are removed stays where it is, is
found there and leads to the same inode.
-/

namespace DamnOS.FileSystem

open DamnOS.Framework

/-- The named entries of `w` are in `v` as they were, and are found there, those in `gone` aside. -/
structure Persists (N : Nat) (D D' : Nat → Prop) (gone : Nat → Nat → Prop) (w v : World) : Prop where
  inOrder : InOrder N D' v
  entry : ∀ i f, w.NamedIn D i f → ¬gone i f →
    v.NamedIn D' i f ∧ ∀ x, f ≤ x → x < f + DIRESIZE → v.byte x = w.byte x
  lookup : ∀ i n f, D i → w.IsDir i → PathName n → n.length < MAXNAMELEN → w.lookup i n = some f →
    ¬gone i f → v.lookup i n = some f

theorem Persists.mono {N : Nat} {D D' : Nat → Prop} {gone gone' : Nat → Nat → Prop} {w v : World}
    (h : Persists N D D' gone w v) (hg : ∀ i f, gone i f → gone' i f) : Persists N D D' gone' w v where
  inOrder := h.inOrder
  entry i f hn hno := h.entry i f hn fun ha => hno (hg i f ha)
  lookup i n f hi hd hp hlen hl hno := h.lookup i n f hi hd hp hlen hl fun ha => hno (hg i f ha)

/-- The first member that passes one test is the first that passes another, which no earlier one passes. -/
theorem find?_mono {α : Type} {p q : α → Bool} {l : List α} {a : α} (hl : l.find? p = some a)
    (ha : q a = true) (hn : ∀ b ∈ l, p b = false → q b = false) : l.find? q = some a := by
  induction l with
  | nil => cases hl
  | cons b l ih =>
    cases hb : p b with
    | true =>
      rw [List.find?_cons_of_pos hb] at hl
      cases hl
      exact List.find?_cons_of_pos ha
    | false =>
      rw [List.find?_cons_of_neg (by simp [hb])] at hl
      rw [List.find?_cons_of_neg (by simp [hn b (by simp) hb])]
      exact ih hl fun c hc => hn c (by simp [hc])

private theorem nameMatches_kept {w v : World} {f : Nat} (h : ∀ x, f ≤ x → x < f + DIRESIZE → v.byte x = w.byte x)
    {n : List UInt8} (hlen : n.length < MAXNAMELEN) : nameMatches v f n = nameMatches w f n := by
  refine nameMatches_congr fun x hlo hhi => h x hlo ?_
  simp only [MAXNAMELEN, DIRESIZE] at *
  omega

private theorem lookup_matches {w : World} {i f : Nat} {n : List UInt8} (hl : w.lookup i n = some f) :
    nameMatches w f n = true := by
  have hm := List.find?_some hl
  exact hm

section Stay

variable {N : Nat} {D : Nat → Prop} {w v : World} (h : InOrder N D w)
include h

omit h in
theorem named_lookup {i f : Nat} (hi : D i) (hd : w.IsDir i) {n : List UInt8} (hn : PathName n)
    (hl : w.lookup i n = some f) : w.NamedIn D i f :=
  ⟨hi, hd, List.mem_of_find?_eq_some hl, byte_ne_zero_of_matches (lookup_matches hl) hn.1 hn.2⟩

theorem Stands.persists (hs : Stands N D w v) (gone : Nat → Nat → Prop) : Persists N D D gone w v where
  inOrder := h.stands hs
  entry i f hn _ := by
    have hbyte (x : Nat) := hs.entry h hn.mem hn.dir hn.entry (x := x)
    refine ⟨⟨hn.mem, (hs.isDir (h.lt i hn.mem)).mpr hn.dir, ?_, ?_⟩, hbyte⟩
    · rw [hs.entries h hn.mem hn.dir]
      exact hn.entry
    · rw [hbyte f le_rfl (by simp only [DIRESIZE]; omega)]
      exact hn.name
  lookup i n f hi hd _ hlen hl _ := by
    have hsame : ∀ g ∈ w.entries i, nameMatches v g n = nameMatches w g n := fun g hg =>
      nameMatches_kept (fun x => hs.entry h hi hd hg) hlen
    rw [World.lookup, hs.entries h hi hd, List.find?_congr hsame]
    exact hl

theorem Removes.persists {d e : Nat} (hn : w.NamedIn D d e) (hself : w.IsDir (w.inInd e) → w.inInd e ≠ d)
    (hr : Removes N w e v) :
    Persists N D (fun i => D i ∧ ¬(i = w.inInd e ∧ w.IsDir i)) (fun i f => f = e ∨ i = w.inInd e) w v where
  inOrder := h.removed hn hself hr
  entry i f hf hg := by
    obtain ⟨hfe, hik⟩ := not_or.mp hg
    have hbyte (x : Nat) := hr.entry h hn hf.mem hf.dir hf.entry hfe (x := x)
    refine ⟨⟨⟨hf.mem, fun hi => hik hi.1⟩, (hr.isDir i).mpr hf.dir, ?_, ?_⟩, hbyte⟩
    · rw [hr.entries hik]
      exact hf.entry
    · rw [hbyte f le_rfl (by simp only [DIRESIZE]; omega)]
      exact hf.name
  lookup i n f hi hd hp hlen hl hg := by
    obtain ⟨hfe, hik⟩ := not_or.mp hg
    have hf := (named_lookup hi hd hp hl).entry
    rw [World.lookup, hr.entries hik]
    refine find?_mono hl ?_ fun b hb hno => ?_
    · rw [nameMatches_kept (fun x => hr.entry h hn hi hd hf hfe) hlen]
      exact lookup_matches hl
    · by_cases hbe : b = e
      · rw [hbe]
        exact not_matches_of_nul (hr.nameless h hn) hp
      · rw [nameMatches_kept (fun x => hr.entry h hn hi hd hb hbe) hlen]
        exact hno

end Stay

section Create

variable {N : Nat} {D : Nat → Prop} {w v : World} (h : InOrder N D w) {d e k type : Nat}
  {name : List UInt8} {xs : List Access} (h0 : (0 : UInt8) ∉ name) (hlen : name.length < MAXNAMELEN)
  (heff : Effect N (w.cached.created d k type (w.startBlock type))
    (createdBytes w.byte e k name (w.startBlock type)) xs w v)
  (hd : D d) (hdir : w.IsDir d) (hv : w.vacant d = some e) (hk : w.firstInode = some k)
include h

theorem InOrder.entries_only {i : Nat} (hd : D d) (hi : D i) (hdi : w.IsDir i) (hei : e ∈ w.entries i)
    (he : e ∈ w.entries d) : i = d := by
  obtain ⟨j, hj, s, hs, hej⟩ := mem_entries.mp hei
  obtain ⟨j', -, s', hs', hej'⟩ := mem_entries.mp he
  have hslot := (entry_inj hs hs' (hej.symm.trans hej')).1
  exact (h.sane.slot_inj (h.lt i hi) (h.lt d hd) (h.filled i j hi hdi hj) hslot).1

include hlen heff hd hdir hv

private theorem created_matches : nameMatches v e name = true := by
  have hoff := ((h.filledAt hd hdir).entryIn (List.mem_of_find?_eq_some hv)).offMeta h.sane (h.lt d hd)
  refine nameMatches_of_getD fun o ho => ?_
  have ho' : o < 16 := by
    simp only [MAXNAMELEN] at hlen
    omega
  rw [heff.byte _ (hoff _ (Nat.le_add_right _ _) (by simp only [DIRESIZE]; omega))]
  have hbytes (g : Nat → UInt8) : newEntry g e name k (e + o) = name.getD o 0 := by
    rw [newEntry, splice_outside _ _ (by simp only [offInInd]; omega), splice_inside _ _ (by omega),
      Nat.add_sub_cancel_left]
  cases w.startBlock type with
  | none => exact hbytes _
  | some b => exact hbytes _

include h0 hk

theorem Effect.persists (hmiss : w.lookup d name = none) (hclean : w.CleanStart type)
    (gone : Nat → Nat → Prop) : Persists N D (fun i => D i ∨ i = k) gone w v := by
  have hmem := List.mem_of_find?_eq_some hv
  have hz : w.byte e = 0 := by simpa using List.find?_some hv
  have hfree := (h.sane.firstInode hk).2
  have hknew (i : Nat) (hi : D i) : i ≠ k := by
    rintro rfl
    rw [h.used i hi] at hfree
    cases hfree
  have hbyte {i f x : Nat} (hi : D i) (hdi : w.IsDir i) (hf : f ∈ w.entries i) (hfe : f ≠ e) (hlo : f ≤ x)
      (hhi : x < f + DIRESIZE) : v.byte x = w.byte x :=
    created_entry h hlen heff hi hdi hf hlo hhi (entries_apart hf hmem hfe hlo hhi)
  refine ⟨h.created hlen heff hd hdir hv hk hclean, fun i f hn _ => ?_, fun i n f hi hdi hp hn hl _ => ?_⟩
  · obtain ⟨ht, hu, hs⟩ := created_inode heff (hknew i hn.mem)
    have hfe : f ≠ e := by
      rintro rfl
      exact hn.name hz
    refine ⟨⟨Or.inl hn.mem, ht.mpr hn.dir, ?_, ?_⟩, fun x => hbyte hn.mem hn.dir hn.entry hfe⟩
    · rw [entries_of_slots hu hs]
      exact hn.entry
    · rw [hbyte hn.mem hn.dir hn.entry hfe le_rfl (by simp only [DIRESIZE]; omega)]
      exact hn.name
  · obtain ⟨-, hu, hs⟩ := created_inode heff (hknew i hi)
    have hnamed := named_lookup hi hdi hp hl
    have hfe : f ≠ e := by
      rintro rfl
      exact hnamed.name hz
    rw [World.lookup, entries_of_slots hu hs]
    refine find?_mono hl ?_ fun b hb hno => ?_
    · rw [nameMatches_kept (fun x => hbyte hi hdi hnamed.entry hfe) hn]
      exact lookup_matches hl
    · by_cases hbe : b = e
      · subst hbe
        obtain rfl := h.entries_only hd hi hdi hb hmem
        -- the new name was not there before
        by_contra hm
        obtain rfl := nameMatches_unique h0 hp.2 (created_matches h hlen heff hd hdir hv) (by simpa using hm)
        rw [hmiss] at hl
        cases hl
      · rw [nameMatches_kept (fun x => hbyte hi hdi hb hbe) hn]
        exact hno

end Create

/-- A call takes the entry `f` of directory `i` away: it removes `f`, or the directory itself. -/
def FileOp.Takes (w : World) (i f : Nat) : FileOp → Prop
  | .remove path => ∃ dir e, w.resolve path = .ok (.found dir e) ∧ (f = e ∨ i = w.inInd e)
  | _ => False

/-- A creation that succeeds: entry `e` of directory `d` had no name, and inode `k` was free. -/
structure Makes (N : Nat) (D : Nat → Prop) (w v : World) (type d e k : Nat) (name : List UInt8) : Prop where
  dir : D d ∧ w.IsDir d
  valid : name ≠ [] ∧ (0 : UInt8) ∉ name ∧ name.length < MAXNAMELEN
  missing : w.lookup d name = none
  vacant : w.vacant d = some e
  inode : w.firstInode = some k
  clean : w.CleanStart type
  effect : ∃ xs, Effect N (w.cached.created d k type (w.startBlock type))
    (createdBytes w.byte e k name (w.startBlock type)) xs w v

private theorem fileCreate_outcome {N : Nat} {D : Nat → Prop} {w : World} (h : InOrder N D w) {path : List UInt8}
    (h0 : (0 : UInt8) ∉ path) {type : Nat} (hc : w.Creates path type) :
    (∃ x v, fileCreate path type w = .error x v ∧ Stands N D w v) ∨
      ∃ d e k name v, fileCreate path type w = .ok e v ∧ Makes N D w v type d e k name := by
  by_cases hmiss : ∃ d name, w.resolve path = .ok (.missing d name) ∧ nameIsValid name = true
  swap
  · obtain ⟨e, v, hrun, hq⟩ := fileCreate_refused h.toTidyIn h0 type fun d name hr => by
      by_contra hname
      exact hmiss ⟨d, name, hr, by simpa using hname⟩
    exact Or.inl ⟨_, v, hrun, .of_quiet h.sane hq⟩
  obtain ⟨dir, name, hr, hvalid⟩ := hmiss
  obtain ⟨d, hd, hdir, hocp, rfl, hnil, hz, hlen, hmiss⟩ := resolve_placedIn h.toTidyIn h0 hr
  obtain ⟨hv, hclean⟩ := hc d name hr hvalid
  obtain ⟨e, hv⟩ := Option.ne_none_iff_exists'.mp hv
  cases hk : w.firstInode with
  | none =>
    obtain ⟨v, hrun, heff⟩ := fileCreate_noInode h.toTidyIn h0 hr hvalid hv type hk
    exact Or.inl ⟨_, v, hrun, heff.stands h rfl (bumped_inode _ d)⟩
  | some k =>
    by_cases hfull : type = FTYPE_DIR ∧ w.firstFree = none
    · obtain ⟨v, hrun, heff⟩ := fileCreate_noDisk h.toTidyIn h0 hr hvalid hv type hk hfull.1 hfull.2
      refine Or.inl ⟨_, v, hrun, heff.stands h ?_ (bumped_inode _ d)⟩
      have hfree := (h.sane.firstInode hk).2
      change Function.update (Function.update w.cached.inOcp k true) k false = w.cached.inOcp
      rw [Function.update_idem, ← hfree, Function.update_eq_self]
    · obtain ⟨s, s', v, hrun, heff⟩ := fileCreate_run h.toTidyIn h0 hr hvalid hv type hk
        fun ht hn => hfull ⟨ht, hn⟩
      exact Or.inr ⟨d, e, k, name, v, hrun, ⟨hd, hdir⟩, ⟨hnil, hz, hlen⟩, hmiss, hv, hk, hclean, _, heff⟩

theorem fileCreate_persists {N : Nat} {D : Nat → Prop} {w : World} (h : InOrder N D w) {path : List UInt8}
    (h0 : (0 : UInt8) ∉ path) {type : Nat} (hc : w.Creates path type) (gone : Nat → Nat → Prop) :
    ∃ D', Persists N D D' gone w (final (fileCreate path type) w) := by
  rcases fileCreate_outcome h h0 hc with ⟨x, v, hrun, hs⟩ | ⟨d, e, k, name, v, hrun, hm⟩
  · rw [final_error hrun]
    exact ⟨D, hs.persists h gone⟩
  · obtain ⟨xs, heff⟩ := hm.effect
    rw [final_ok hrun]
    exact ⟨_, heff.persists h hm.valid.2.1 hm.valid.2.2 hm.dir.1 hm.dir.2 hm.vacant hm.inode hm.missing hm.clean gone⟩

theorem fileCreate_named {N : Nat} {D : Nat → Prop} {w v : World} (h : InOrder N D w) {path : List UInt8}
    (h0 : (0 : UInt8) ∉ path) {type e : Nat} (hc : w.Creates path type) (hrun : fileCreate path type w = .ok e v) :
    ∃ D' d, InOrder N D' v ∧ v.NamedIn D' d e := by
  rcases fileCreate_outcome h h0 hc with ⟨x, v', hrun', -⟩ | ⟨d, e', k, name, v', hrun', hm⟩
  · rw [hrun] at hrun'
    cases hrun'
  · rw [hrun] at hrun'
    cases hrun'
    obtain ⟨xs, heff⟩ := hm.effect
    obtain ⟨hnil, hz, hlen⟩ := hm.valid
    have hmatch := created_matches h hlen heff hm.dir.1 hm.dir.2 hm.vacant
    obtain ⟨ht, hu, hs⟩ := created_inode (i := d) heff fun hk => by
      have hfree := (h.sane.firstInode hm.inode).2
      rw [← hk, h.used d hm.dir.1] at hfree
      cases hfree
    refine ⟨_, d, h.created hlen heff hm.dir.1 hm.dir.2 hm.vacant hm.inode hm.clean,
      Or.inl hm.dir.1, ht.mpr hm.dir.2, ?_, byte_ne_zero_of_matches hmatch hnil hz⟩
    rw [entries_of_slots hu hs]
    exact List.mem_of_find?_eq_some hm.vacant

theorem InOrder.usable {N : Nat} {D : Nat → Prop} {w : World} (h : InOrder N D w) {d f : Nat}
    (hn : w.NamedIn D d f) : Usable N w f := by
  have hk := h.named d f hn.mem hn.dir hn.entry hn.name
  exact ⟨⟨d, h.lt d hn.mem, (h.filledAt hn.mem hn.dir).entryIn hn.entry⟩, h.lt _ hk, h.used _ hk⟩

theorem fileOpen_named {N : Nat} {D : Nat → Prop} {w v : World} (h : InOrder N D w) {path : List UInt8}
    (h0 : (0 : UInt8) ∉ path) {f : Nat} (hrun : fileOpen path w = .ok f v) :
    Quiet w v ∧ (f = 0 ∨ ∃ d, v.NamedIn D d f) := by
  obtain ⟨t, hq, ht⟩ := h.walkable.fileOpen_run h0
  cases ho : w.openEntry path with
  | error x =>
    rw [ho, hrun] at ht
    cases ht
  | ok g =>
    rw [ho, hrun] at ht
    cases ht
    refine ⟨hq, ?_⟩
    obtain ⟨dir, hr⟩ := openEntry_eq_ok.mp ho
    rcases resolve_placedIn h.toTidyIn h0 hr with ⟨-, hzero⟩ | ⟨d, hd, hdir, -, -, hf, hb⟩
    · exact Or.inl hzero
    · have hp := (Stands.of_quiet h.sane hq).persists h fun _ _ => False
      exact Or.inr ⟨d, (hp.entry d f ⟨hd, hdir, hf, hb⟩ fun hno => hno).1⟩

/-- What keeps the directories in order.  A creation finds an entry without a name in the parent, and a
new directory a block without names; what is removed is not the root, and no directory through an entry of
its own; calls are given entries of inodes in use, no directory is written, none is read where it has no
block, and none loses a block to a new size. -/
def FileOp.Careful (N : Nat) : FileOp → World → Prop
  | .create path type, w => (0 : UInt8) ∉ path ∧ w.Creates path type
  | .remove path, w => (0 : UInt8) ∉ path ∧ ∀ dir f, w.resolve path = .ok (.found dir f) →
      f ≠ 0 ∧ (w.IsDir (w.inInd f) → dir ≠ inodeVa (w.inInd f))
  | .open path, _ => (0 : UInt8) ∉ path
  | .read f buf count offset, w => Apart buf count ∧ Usable N w f ∧ (w.IsDir (w.inInd f) → 0 ≤ offset ∧
      ∀ p : Nat, offset ≤ p → (p : Int) < offset + count → p < (w.cached.inode (w.inInd f)).size →
        w.cached.slot (w.inInd f) (p / BLKSIZE) ≠ 0)
  | .write f _ _ offset, w => 0 ≤ offset ∧ Usable N w f ∧ ¬w.IsDir (w.inInd f)
  | .setSize f newsize, w => Usable N w f ∧ (w.IsDir (w.inInd f) → Idle f newsize w)
  | .flush _, _ => True
  | .sync, _ => True
  | .caller buf bytes, _ => Apart buf bytes.length

private theorem fileRemove_persists {N : Nat} {D : Nat → Prop} {w : World} (h : InOrder N D w) {path : List UInt8}
    (hc : (FileOp.remove path).Careful N w) (hl : (FileOp.remove path).halts w = false) :
    ∃ D', Persists N D D' ((FileOp.remove path).Takes w) w (final (fileRemove path) w) := by
  obtain ⟨h0, hc⟩ := hc
  obtain ⟨t, hq, hwalk⟩ := h.walkable.walkPath_run h0
  cases hres : w.resolve path with
  | error x =>
    rw [hres] at hwalk
    have hrun : fileRemove path w = .error (.err x) t := bind_error hwalk
    rw [final_error hrun]
    exact ⟨D, Stands.persists h (.of_quiet h.sane hq) _⟩
  | ok r =>
  rw [hres] at hwalk
  cases r with
  | missing dir name =>
    have hrun : fileRemove path w = .error (.err .notFound) t := bind_ok hwalk
    rw [final_error hrun]
    exact ⟨D, Stands.persists h (.of_quiet h.sane hq) _⟩
  | found dir f =>
  obtain ⟨hroot, hself⟩ := hc dir f hres
  rcases resolve_placedIn h.toTidyIn h0 hres with ⟨-, hzero⟩ | ⟨d, hd, hdir, -, rfl, hf, hb⟩
  · exact absurd hzero hroot
  have hn : w.NamedIn D d f := ⟨hd, hdir, hf, hb⟩
  have hin := (h.filledAt hd hdir).entryIn hf
  have hk := h.lt _ (h.named d f hd hdir hf hb)
  rcases fileRemove_outcome h.sane (h.lt d hd) hin hk hq hwalk with ⟨v, hv⟩ | ⟨p, v, hp⟩
  · rw [final_ok hv]
    refine ⟨_, (Removes.persists h hn (fun hdk he => hself hdk ?_)
      (fileRemove_removes h.sane (h.lt d hd) hin hk hq hwalk hv)).mono fun i g hg => ⟨_, f, hres, hg⟩⟩
    rw [he]
  · have hexec : (FileOp.remove path).exec w = .error (.panic p) v := hp
    have hstop : (FileOp.remove path).halts w = true := by
      rw [FileOp.halts, hexec]
    rw [hstop] at hl
    cases hl

theorem careful_persists {N : Nat} {D : Nat → Prop} {w : World} (h : InOrder N D w) {op : FileOp}
    (hc : op.Careful N w) (hl : op.halts w = false) :
    ∃ D', Persists N D D' (fun i f => op.Takes w i f) w (server.step op w) := by
  have hstands {v : World} (hs : Stands N D w v) : ∃ D', Persists N D D' (fun i f => op.Takes w i f) w v :=
    ⟨D, hs.persists h _⟩
  cases op with
  | create path type =>
    have hfinal : server.step (.create path type) w = final (fileCreate path type) w := final_bind_pure _ _ w
    rw [hfinal]
    exact fileCreate_persists h hc.1 hc.2 _
  | remove path => exact fileRemove_persists h hc hl
  | «open» path =>
    have hfinal : server.step (.open path) w = final (fileOpen path) w := final_bind_pure _ _ w
    obtain ⟨v, hq, hv⟩ := h.walkable.fileOpen_run hc
    have hend : final (fileOpen path) w = v := by
      cases ho : w.openEntry path with
      | ok e =>
        rw [ho] at hv
        exact final_ok hv
      | error x =>
        rw [ho] at hv
        exact final_error hv
    rw [hfinal, hend]
    exact hstands (.of_quiet h.sane hq)
  | read f buf count offset =>
    have hfinal : server.step (.read f buf count offset) w = final (fileRead f buf count offset) w :=
      final_bind_pure _ _ w
    rw [hfinal]
    exact hstands (fileRead_stands h hc.2.1.inode hc.2.1.inOcp hc.1 hc.2.2)
  | write f buf count offset =>
    have hfinal : server.step (.write f buf count offset) w = final (fileWrite f buf count offset) w :=
      final_bind_pure _ _ w
    rw [hfinal]
    exact hstands (fileWrite_stands h hc.2.1 buf count hc.1 hc.2.2)
  | setSize f newsize => exact hstands (fileSetSize_stands h hc.1 hc.2)
  | flush f => exact hstands (.of_quiet h.sane ((quiet_fileFlush f).final w))
  | sync => exact hstands (.of_quiet h.sane (quiet_fsSync.final w))
  | caller buf bytes => exact hstands (stands_fill h _ hc)

private theorem careful_step {N : Nat} {D : Nat → Prop} {w : World} (h : InOrder N D w) {op : FileOp}
    (hc : op.Careful N w) (hl : op.halts w = false) : ∃ D', InOrder N D' (server.step op w) := by
  obtain ⟨D', hp⟩ := careful_persists h hc hl
  exact ⟨D', hp.inOrder⟩

theorem careful_run {N : Nat} {w : World} {ops : List FileOp} (h : ∃ D, InOrder N D w)
    (hc : server.Along (FileOp.Careful N) ops w) (hl : server.Survives ops w) :
    ∃ D, InOrder N D (server.run ops w) :=
  Machine.run_survives (I := fun w => ∃ D, InOrder N D w)
    (fun _ _ hi hcare hlive => by
      obtain ⟨D, hD⟩ := hi
      exact careful_step hD hcare hlive) h hc hl

end DamnOS.FileSystem
