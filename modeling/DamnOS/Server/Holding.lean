import DamnOS.Server.ReadOnly
import DamnOS.FileSystem.Outside

/-!
# The entries behind open files

A row of the table points at an entry in a block of a directory.  The entry stays there, and leads to the
same inode, until a call takes it away.
-/

namespace DamnOS.Server

open DamnOS.Framework
open DamnOS.FileSystem

/-- The entries in `H` have names, and lead to their inodes. -/
def Pinned (N : Nat) (H : Nat → Nat → Prop) (w : World) : Prop :=
  ∃ D, InOrder N D w ∧ ∀ f k, H f k → (∃ d, w.NamedIn D d f) ∧ w.inInd f = k

def Sparing (H : Nat → Nat → Prop) (op : FileOp) (w : World) : Prop := ∀ f k d, H f k → w.IsDir d →
  f ∈ w.entries d → ¬op.Takes w d f

theorem Pinned.persists {N : Nat} {H : Nat → Nat → Prop} {D D' : Nat → Prop} {gone : Nat → Nat → Prop}
    {w v : World} (hH : ∀ f k, H f k → (∃ d, w.NamedIn D d f) ∧ w.inInd f = k)
    (hp : Persists N D D' gone w v)
    (hspare : ∀ f k d, H f k → w.IsDir d → f ∈ w.entries d → ¬gone d f) : Pinned N H v := by
  refine ⟨D', hp.inOrder, fun f k hf => ?_⟩
  obtain ⟨⟨d, hn⟩, hk⟩ := hH f k hf
  obtain ⟨hv, hbyte⟩ := hp.entry d f hn (hspare f k d hf hn.dir hn.entry)
  exact ⟨⟨d, hv⟩, (inInd_of_byte hbyte).trans hk⟩

theorem Pinned.stands {N : Nat} {H : Nat → Nat → Prop} {D : Nat → Prop} {w v : World} (h : InOrder N D w)
    (hH : ∀ f k, H f k → (∃ d, w.NamedIn D d f) ∧ w.inInd f = k) (hs : Stands N D w v) : Pinned N H v :=
  Pinned.persists hH (hs.persists h fun _ _ => False) fun _ _ _ _ _ _ hf => hf

theorem Pinned.quiet {N : Nat} {H : Nat → Nat → Prop} {w v : World} (h : Pinned N H w) (hq : Quiet w v) :
    Pinned N H v := by
  obtain ⟨D, hD, hH⟩ := h
  exact .stands hD hH (.of_quiet hD.sane hq)

theorem Pinned.fill {N : Nat} {H : Nat → Nat → Prop} {w : World} (h : Pinned N H w) (page : Nat → UInt8) :
    Pinned N H (w.fill fsreq PGSIZE page) := by
  obtain ⟨D, hD, hH⟩ := h
  exact .stands hD hH (stands_fill hD page apart_fsreq)

theorem Pinned.mono {N : Nat} {H H' : Nat → Nat → Prop} {w : World} (h : Pinned N H w)
    (hH : ∀ f k, H' f k → H f k) : Pinned N H' w := by
  obtain ⟨D, hD, hP⟩ := h
  exact ⟨D, hD, fun f k hf => hP f k (hH f k hf)⟩

private theorem pinned_upheld (N : Nat) (H : Nat → Nat → Prop) :
    Upheld (fun op w => Tame N op w ∧ Sparing H op w) (Pinned N H) where
  quiet _ _ hq h := h.quiet hq
  step op w h hc hl := by
    obtain ⟨D, hD, hH⟩ := h
    obtain ⟨D', hp⟩ := tame_persists hD hc.1 hl
    exact .persists hH hp hc.2

theorem Pinned.usable {N : Nat} {H : Nat → Nat → Prop} {w : World} (h : Pinned N H w) {f k : Nat}
    (hf : H f k) : Usable N w f := by
  obtain ⟨D, hD, hH⟩ := h
  obtain ⟨⟨d, hn⟩, -⟩ := hH f k hf
  exact hD.usable hn

namespace State

def Held (s : State) (i : Nat) : Prop := i < MAXOPEN ∧ 1 < s.pageref i

/-- A client has a file open with the entry `f` on the disk, and it led to inode `k` then. -/
def Pins (s : State) (rt f k : Nat) : Prop :=
  ∃ i, s.Held i ∧ (s.opentab i).file = f ∧ (s.opentab i).opened = k ∧ f ≠ rt

theorem Valid.held {s : State} {fileid : Nat} (h : s.Valid fileid) : s.Held (fileid % MAXOPEN) :=
  ⟨Nat.mod_lt _ (by decide), h.1⟩

end State

/-- The rows are as before. -/
structure SameTable (s t : State) : Prop where
  opentab : t.opentab = s.opentab
  pageref : t.pageref = s.pageref

instance : IsPreorder State SameTable where
  refl _ := ⟨rfl, rfl⟩
  trans _ _ _ h h' := ⟨h'.opentab.trans h.opentab, h'.pageref.trans h.pageref⟩

instance sameTable_call {α : Type} (m : M α) : Keeps SameTable (call m) where
  final s := by
    unfold final call
    cases m s.world with
    | ok a w => exact ⟨rfl, rfl⟩
    | error e w => exact ⟨rfl, rfl⟩

instance sameTable_openfileLookup (fileid : Nat) : Keeps SameTable (openfileLookup fileid) := by
  unfold openfileLookup
  infer_instance

instance sameTable_advance (i : Nat) (r : Int) : Keeps SameTable (modify fun t => t.advance i r : S Unit) := by
  refine Keeps.change fun s => ?_
  unfold State.advance
  split
  · exact ⟨rfl, rfl⟩
  · exact ⟨rfl, rfl⟩

private theorem sameTable_handler (rt : Nat) {r : Request} (hr : r ≠ .open) : Keeps SameTable (r.handler rt) := by
  cases r with
  | «open» => exact absurd rfl hr
  | setSize =>
    unfold Request.handler serveSetSize
    infer_instance
  | read =>
    unfold Request.handler serveRead
    infer_instance
  | write =>
    unfold Request.handler serveWrite
    infer_instance
  | flush =>
    unfold Request.handler serveFlush
    infer_instance
  | mkdir =>
    unfold Request.handler serveMkdir
    infer_instance
  | remove =>
    unfold Request.handler serveRemove
    infer_instance
  | sync =>
    unfold Request.handler serveSync
    infer_instance

/-- A tame call.  For writes, new sizes and flushes the entry may be any but that of the root: the null
pointer, the static `rt_entry` and the inode table that stands in for it. -/
def Decent (rt N : Nat) : FileOp → World → Prop
  | .write f _ _ offset, w => f ≠ rt ∧ 0 ≤ offset ∧ ¬w.IsDir (w.inInd f)
  | .setSize f newsize, w => f ≠ 0 ∧ f ≠ rt ∧ (w.IsDir (w.inInd f) → FileSystem.Idle f newsize w)
  | .flush f, _ => f ≠ rt ∧ f ≠ inodeVa 0
  | op, w => Tame N op w

/-- `f` points into a block of a directory, inside the disk cache. -/
def PointsToEntry (w : World) (f : Nat) : Prop :=
  f ≠ 0 ∧ DISKMAP ≤ f ∧ f + DIRESIZE ≤ DISKMAP + w.cached.blkNum * BLKSIZE ∧
    ∃ d, w.IsDir d ∧ f ∈ w.entries d

/-- The entry that a call is given, or that `file_remove` finds, is one. -/
def GivenEntry : FileOp → World → Prop
  | .write f _ _ _, w => PointsToEntry w f
  | .setSize f _, w => PointsToEntry w f
  | .flush f, w => PointsToEntry w f
  | .remove path, w => ∀ dir f, w.resolve path = .ok (.found dir f) → PointsToEntry w f
  | _, _ => True

private theorem pointsToEntry_named {N : Nat} {D : Nat → Prop} {w : World} (h : InOrder N D w) {d f : Nat}
    (hn : w.NamedIn D d f) : PointsToEntry w f := by
  obtain ⟨j, hj, s, hs, rfl⟩ := mem_entries.mp hn.entry
  have hslot := h.sane.slot_valid (h.lt d hn.mem) (h.filled d j hn.mem hn.dir hj)
  refine ⟨?_, ?_, ?_, d, hn.dir, hn.entry⟩
  all_goals
    simp only [blockVa, DISKMAP, DIRESIZE, BLKFILES, BLKSIZE] at *
    omega

private theorem Pinned.pointsToEntry {N : Nat} {H : Nat → Nat → Prop} {w : World} (h : Pinned N H w) {f k : Nat}
    (hf : H f k) : PointsToEntry w f := by
  obtain ⟨D, hD, hH⟩ := h
  obtain ⟨⟨d, hn⟩, -⟩ := hH f k hf
  exact pointsToEntry_named hD hn

private theorem openOrCreate_named {N : Nat} {D : Nat → Prop} {w v : World} (h : InOrder N D w) {path : List UInt8}
    {creat excl : Bool} (h0 : (0 : UInt8) ∉ path) (hc : creat = true → w.Creates path FTYPE_REG) {f : Nat}
    (hr : openOrCreate path creat excl w = .ok f v) :
    ∃ D', InOrder N D' v ∧ (f = 0 ∨ ∃ d, v.NamedIn D' d f) := by
  have hopened {D : Nat → Prop} {t : World} (h : InOrder N D t) (hr : fileOpen path t = .ok f v) :
      ∃ D', InOrder N D' v ∧ (f = 0 ∨ ∃ d, v.NamedIn D' d f) := by
    obtain ⟨hq, hf⟩ := fileOpen_named h h0 hr
    exact ⟨D, h.stands (.of_quiet h.sane hq), hf⟩
  unfold openOrCreate at hr
  cases creat with
  | false => exact hopened h hr
  | true =>
    have hcreates := hc rfl
    simp only [if_true] at hr
    obtain ⟨r, t, ht, hr⟩ := bind_eq_ok hr
    cases r with
    | ok e =>
      cases hr
      obtain ⟨D', d, hD, hn⟩ := fileCreate_named h h0 hcreates (attempt_eq_ok ht)
      exact ⟨D', hD, Or.inr ⟨d, hn⟩⟩
    | error x =>
      dsimp only at hr
      split_ifs at hr
      · obtain ⟨D', hp⟩ := fileCreate_persists h h0 hcreates fun _ _ => False
        rw [← final_attempt, final_ok ht] at hp
        exact hopened hp.inOrder hr
      · cases hr

theorem Upheld.mkdirCall {C : FileOp → World → Prop} {I : World → Prop} (hu : Upheld C I) {s : State} (hs : I s.world)
    (hdir : s.wants O_MKDIR = true → C (.create s.reqPath FTYPE_DIR) s.world) {g : Nat} {w : World}
    (hr : Server.mkdirCall s s.world = .ok (.ok g) w) : I w := by
  unfold Server.mkdirCall at hr
  split_ifs at hr with hw
  · have hrun := attempt_eq_ok hr
    have hkept := hu.call hs (.create s.reqPath FTYPE_DIR) rfl (hdir hw) fun hp => by
      obtain ⟨p, t, hp⟩ := hp
      rw [hrun] at hp
      cases hp
    rwa [final_ok hrun] at hkept
  · cases hr
    exact hs

section Strengthen

variable {rt N : Nat} {H : Nat → Nat → Prop}

/-- A tame call that spares the entries in `H`, and is given an entry. -/
def Proper (N : Nat) (H : Nat → Nat → Prop) (op : FileOp) (w : World) : Prop :=
  (Tame N op w ∧ Sparing H op w) ∧ GivenEntry op w

private theorem openMeets_proper {w : World} (h : Pinned N H w) {path : List UInt8} {creat excl trunc : Bool}
    (hm : openMeets (fun op w => Decent rt N op w ∧ Sparing H op w) path creat excl trunc w) :
    openMeets (Proper N H) path creat excl trunc w := by
  obtain ⟨D, hD, hH⟩ := h
  obtain ⟨hfind, hrest⟩ := hm
  have h0 : (0 : UInt8) ∉ path := by
    cases creat with
    | false => exact hfind.1
    | true => exact hfind.1.1.1
  have hc : creat = true → w.Creates path FTYPE_REG := by
    rintro rfl
    exact hfind.1.1.2
  constructor
  · cases creat with
    | false => exact ⟨hfind, trivial⟩
    | true => exact ⟨⟨hfind.1, trivial⟩, fun he hr => ⟨hfind.2 he hr, trivial⟩⟩
  · intro f v hr
    have hrest := hrest f v hr
    cases trunc with
    | false => exact ⟨hrest, trivial⟩
    | true =>
      obtain ⟨⟨⟨hzero, hrt, hidle⟩, hspare⟩, hopen⟩ := hrest
      obtain ⟨D', hD', hf⟩ := openOrCreate_named hD h0 hc hr
      obtain ⟨d, hn⟩ := hf.resolve_left hzero
      exact ⟨⟨⟨⟨hD'.usable hn, hidle⟩, hspare⟩, pointsToEntry_named hD' hn⟩, hopen, trivial⟩

private theorem meets_proper {r : Request} {s : State} (h : Pinned N (s.Pins rt) s.world)
    (hm : r.Meets (fun op w => Decent rt N op w ∧ Sparing (s.Pins rt) op w) s) :
    r.Meets (Proper N (s.Pins rt)) s := by
  have hrow (hv : s.Valid s.reqFileid) (hne : (s.opentab (s.reqFileid % MAXOPEN)).file ≠ rt) :
      s.Pins rt (s.opentab (s.reqFileid % MAXOPEN)).file (s.opentab (s.reqFileid % MAXOPEN)).opened :=
    ⟨_, hv.held, rfl, rfl, hne⟩
  cases r with
  | «open» =>
    obtain ⟨hdir, hrest⟩ := hm
    refine ⟨fun hw => ⟨hdir hw, trivial⟩, fun f w hmk => ?_⟩
    exact openMeets_proper ((pinned_upheld N (s.Pins rt)).mkdirCall h hdir hmk) (hrest f w hmk)
  | setSize =>
    intro hv
    obtain ⟨⟨hzero, hne, hidle⟩, hspare⟩ := hm hv
    have hpin := hrow hv hne
    exact ⟨⟨⟨h.usable hpin, hidle⟩, hspare⟩, h.pointsToEntry hpin⟩
  | read => exact fun hv => ⟨hm hv, trivial⟩
  | write =>
    intro hv
    obtain ⟨⟨hne, hpos, hdir⟩, hspare⟩ := hm hv
    have hpin := hrow hv hne
    exact ⟨⟨⟨hpos, h.usable hpin, hdir⟩, hspare⟩, h.pointsToEntry hpin⟩
  | flush =>
    intro hv k w hload
    obtain ⟨⟨hne, hroot⟩, hspare⟩ := hm hv k w hload
    refine ⟨⟨trivial, hspare⟩, ?_⟩
    have hk : k ≠ 0 := by
      rintro rfl
      exact hroot rfl
    simp only [if_pos hk] at hne ⊢
    exact (h.quiet ((quiet_load16 _).of_ok hload)).pointsToEntry (hrow hv hne)
  | mkdir => exact ⟨hm, trivial⟩
  | remove =>
    refine ⟨hm, fun dir f hr => ?_⟩
    obtain ⟨D, hD, -⟩ := h
    obtain ⟨⟨h0, hroot⟩, -⟩ := hm
    rcases resolve_placedIn hD.toTidyIn h0 hr with ⟨-, hzero⟩ | ⟨d, hd, hdir, -, -, hf, hb⟩
    · exact absurd hzero (hroot dir f hr).1
    · exact pointsToEntry_named hD ⟨hd, hdir, hf, hb⟩
  | sync => exact ⟨hm, trivial⟩

end Strengthen

private theorem take_held {s t : State} {i : Nat} (hpage : t.pageref = (s.take i).pageref)
    (htab : t.opentab = (s.take i).opentab) {j : Nat} (h : t.Held j) :
    s.Held j ∧ t.opentab j = s.opentab j := by
  obtain ⟨hj, hone⟩ := h
  rw [hpage] at hone
  have hij : j ≠ i := by
    rintro rfl
    simp [State.take] at hone
  rw [htab]
  simp only [State.take, Function.update_of_ne hij] at hone ⊢
  exact ⟨⟨hj, hone⟩, trivial⟩

private theorem give_row (s : State) (i f mode : Nat) : (s.give i f mode).opentab i =
    { s.opentab i with file := f, mode := mode, opened := s.world.inInd f } :=
  Function.update_self ..

private theorem give_held {s : State} {i j f mode : Nat} (hji : j ≠ i) (h : (s.give i f mode).Held j) :
    s.Held j ∧ (s.give i f mode).opentab j = s.opentab j := by
  obtain ⟨hj, hone⟩ := h
  have hpage : (s.give i f mode).pageref j = s.pageref j := Function.update_of_ne hji ..
  rw [hpage] at hone
  exact ⟨⟨hj, hone⟩, Function.update_of_ne hji ..⟩

/-- The row that `serve_open` hands out points at what it found last. -/
def HandsOut (rt : Nat) (s t : State) (j : Nat) : Prop := ∃ g w f, mkdirCall s s.world = .ok (.ok g) w ∧
  openCalls s.reqPath (({ s with world := w } : State).wants O_CREAT) (({ s with world := w } : State).wants O_EXCL)
    (({ s with world := w } : State).wants O_TRUNC) w = .ok f t.world ∧
  (t.opentab j).file = (if f = 0 then rt else f) ∧
  (t.opentab j).opened = t.world.inInd (if f = 0 then rt else f)

private theorem serveOpen_held (rt : Nat) (s : State) {j : Nat} (h : (final (serveOpen rt) s).Held j) :
    (s.Held j ∧ (final (serveOpen rt) s).opentab j = s.opentab j) ∨ HandsOut rt s (final (serveOpen rt) s) j := by
  generalize ht : final (serveOpen rt) s = t at h ⊢
  have hrun := serveOpen_eq rt s
  cases hmk : mkdirCall s s.world with
  | error x w =>
    rw [hmk] at hrun
    rw [final_error hrun] at ht
    subst ht
    exact Or.inl ⟨h, rfl⟩
  | ok r w =>
    rw [hmk] at hrun
    cases r with
    | error e =>
      rw [final_ok hrun] at ht
      subst ht
      exact Or.inl ⟨h, rfl⟩
    | ok g =>
      cases hf : s.freeRow with
      | none =>
        rw [hf] at hrun
        rw [final_error hrun] at ht
        subst ht
        exact Or.inl ⟨h, rfl⟩
      | some i =>
        rw [hf] at hrun
        have hopen : serveOpen rt s = openAt rt s.reqPath i ({ s with world := w }.take i) := hrun
        rw [final_congr hopen] at ht
        generalize hu : ({ s with world := w } : State).take i = u at ht
        have hpage : u.pageref = (s.take i).pageref := by rw [← hu]; rfl
        have htab : u.opentab = (s.take i).opentab := by rw [← hu]; rfl
        have hworld : u.world = w := by rw [← hu]; rfl
        have hwants (flag : Nat) : ({ s with world := w } : State).wants flag = u.wants flag := by rw [← hu]; rfl
        by_cases hid : toS32 (u.opentab i).fileid < 0
        · have hstop : openAt rt s.reqPath i u = .ok (toS32 (u.opentab i).fileid) u := by
            rw [openAt, bind_ok (get_run u), if_pos hid]
            rfl
          rw [final_ok hstop] at ht
          subst ht
          exact Or.inl (take_held hpage htab h)
        · have hat := openAt_eq rt s.reqPath i hid
          rw [hworld] at hat
          cases hr : openCalls s.reqPath (u.wants O_CREAT) (u.wants O_EXCL) (u.wants O_TRUNC) w with
          | error x v =>
            rw [hr] at hat
            rw [final_error hat] at ht
            subst ht
            exact Or.inl (take_held hpage htab h)
          | ok f v =>
            rw [hr] at hat
            rw [final_ok hat] at ht
            by_cases hji : j = i
            · refine Or.inr ⟨g, w, f, hmk, ?_, ?_, ?_⟩
              · rw [hwants, hwants, hwants, hr, ← ht]
                rfl
              · rw [← ht, hji, give_row]
              · rw [← ht, hji, give_row]
                rfl
            · rw [← ht] at h
              obtain ⟨hheld, hrow⟩ := give_held hji h
              obtain ⟨hs, hsame⟩ := take_held (t := { u with world := v }) hpage htab hheld
              rw [← ht]
              exact Or.inl ⟨hs, hrow.trans hsame⟩

instance fsreq_below : Fact (fsreq ≤ DISKMAP) := ⟨by decide⟩

private theorem meets_over {N : Nat} {r : Request} {s : State} (h : r.Meets (Tame N) s) :
    r.Meets (fun op _ => op.Over fsreq) s := by
  cases r with
  | «open» =>
    refine ⟨fun _ => trivial, fun f w _ => ⟨?_, fun g v _ => ?_⟩⟩
    · split
      · exact ⟨trivial, fun _ _ => trivial⟩
      · trivial
    · split
      · exact ⟨trivial, trivial⟩
      · trivial
  | setSize => exact fun _ => trivial
  | read => exact fun _ => le_refl fsreq
  | write => exact fun hv => (h hv).1
  | flush => exact fun _ _ _ _ => trivial
  | mkdir => trivial
  | remove => trivial
  | sync => trivial

/-- The entries in `H` are pinned, and the entry of the root leads to inode `k`. -/
def Anchored (rt N k : Nat) (H : Nat → Nat → Prop) (w : World) : Prop := Pinned N H w ∧ w.inInd rt = k

private theorem anchored_upheld {rt N k : Nat} (H : Nat → Nat → Prop) (hrt : rt + DIRESIZE ≤ fsreq) :
    Upheld (fun op w => (Tame N op w ∧ Sparing H op w) ∧ op.Over fsreq) (Anchored rt N k H) where
  quiet w v hq h := ⟨h.1.quiet hq, (hq.inInd rt).trans h.2⟩
  step op w h hc hl := by
    refine ⟨(pinned_upheld N H).step op w h.1 hc.1 hl, ?_⟩
    obtain ⟨⟨D, hD, -⟩, hk⟩ := h
    obtain ⟨⟨htame, -⟩, hover⟩ := hc
    have hspares : Spares fsreq w (server.step op w) := by
      refine exec_spares hD hover fun path hop => ?_
      subst hop
      exact ⟨htame.1, fun dir f hr => (htame.2 dir f hr).1⟩
    rw [hspares.inInd (by decide) hrt]
    exact hk

theorem Anchored.fill {rt N k : Nat} {H : Nat → Nat → Prop} {w : World} (hrt : rt + DIRESIZE ≤ fsreq)
    (h : Anchored rt N k H w) (page : Nat → UInt8) : Anchored rt N k H (w.fill fsreq PGSIZE page) := by
  have hspares : Spares fsreq w (w.fill fsreq PGSIZE page) := spares_write _ (le_refl fsreq)
  refine ⟨h.1.fill page, ?_⟩
  rw [hspares.inInd (by decide) hrt]
  exact h.2

/-- Open rows hold pinned entries, and those of the root lead to its inode. -/
def Intact (rt N : Nat) (s : State) : Prop := Pinned N (s.Pins rt) s.world ∧
  ∀ i, s.Held i → (s.opentab i).file = rt → s.world.inInd rt = (s.opentab i).opened

theorem Intact.inInd {rt N : Nat} {s : State} (h : Intact rt N s) {i : Nat} (hi : s.Held i) :
    s.world.inInd (s.opentab i).file = (s.opentab i).opened := by
  by_cases hf : (s.opentab i).file = rt
  · rw [hf]
    exact h.2 i hi hf
  · obtain ⟨⟨D, -, hH⟩, -⟩ := h
    exact (hH _ _ ⟨i, hi, rfl, rfl, hf⟩).2

theorem Pinned.opened {N : Nat} {H : Nat → Nat → Prop} {w v : World} (h : Pinned N H w) {path : List UInt8}
    (h0 : (0 : UInt8) ∉ path) {f : Nat} (hrun : fileOpen path w = .ok f v) :
    Pinned N (fun g k => H g k ∨ g = f ∧ f ≠ 0 ∧ k = v.inInd f) v := by
  obtain ⟨D, hD, hH⟩ := h
  obtain ⟨hq, hf⟩ := fileOpen_named hD h0 hrun
  have hp := (Stands.of_quiet hD.sane hq (D := D)).persists hD fun _ _ => False
  refine ⟨D, hp.inOrder, fun g k hg => ?_⟩
  rcases hg with hold | ⟨rfl, hzero, rfl⟩
  · obtain ⟨⟨d, hn⟩, hk⟩ := hH g k hold
    exact ⟨⟨d, (hp.entry d g hn fun hno => hno).1⟩, (hq.inInd g).trans hk⟩
  · exact ⟨hf.resolve_left hzero, rfl⟩

/-- If open rows are unchanged or gone, and the calls kept the entries, what is open stays intact. -/
theorem Intact.of_rows {rt N : Nat} {s t : State} (h : Intact rt N s)
    (hw : Anchored rt N (s.world.inInd rt) (s.Pins rt) t.world)
    (hrows : ∀ i, t.Held i → s.Held i ∧ t.opentab i = s.opentab i) : Intact rt N t := by
  obtain ⟨hpin, hroot⟩ := hw
  constructor
  · refine hpin.mono fun f k hf => ?_
    obtain ⟨i, hi, hfile, hopened, hne⟩ := hf
    obtain ⟨hheld, hsame⟩ := hrows i hi
    rw [hsame] at hfile hopened
    exact ⟨i, hheld, hfile, hopened, hne⟩
  · intro i hi hfile
    obtain ⟨hheld, hsame⟩ := hrows i hi
    rw [hsame] at hfile ⊢
    exact hroot.trans (h.2 i hheld hfile)

section Requests

variable {rt N : Nat} {s : State} (hrt : rt + DIRESIZE ≤ fsreq) (h : Intact rt N s)
include hrt h

private theorem serveOpen_intact
    (hm : Request.open.Meets (fun op w => (Tame N op w ∧ Sparing (s.Pins rt) op w) ∧ op.Over fsreq) s)
    (hn : ¬Panics (serveOpen rt) s) : Intact rt N (final (serveOpen rt) s) := by
  have hu := anchored_upheld (N := N) (k := s.world.inInd rt) (s.Pins rt) hrt
  have hrows (j : Nat) := serveOpen_held rt s (j := j)
  have hw : Anchored rt N (s.world.inInd rt) (s.Pins rt) (final (serveOpen rt) s).world :=
    hu.serveOpen ⟨h.1, rfl⟩ hm hn
  generalize final (serveOpen rt) s = t at hrows hw ⊢
  by_cases hex : ∃ j, HandsOut rt s t j
  · obtain ⟨j, g, w, f, hmk, hcalls, -, -⟩ := hex
    -- the row handed out holds what the last lookup found
    have hout (i : Nat) (hi : HandsOut rt s t i) : (t.opentab i).file = (if f = 0 then rt else f) ∧
        (t.opentab i).opened = t.world.inInd (t.opentab i).file := by
      obtain ⟨g', w', f', hmk', hcalls', hfile, hopened⟩ := hi
      rw [hmk] at hmk'
      cases hmk'
      rw [hcalls] at hcalls'
      cases hcalls'
      rw [hfile]
      exact ⟨rfl, hopened⟩
    obtain ⟨u, hI, hopen, hrun⟩ := hu.lastLookup (hu.mkdirCall ⟨h.1, rfl⟩ hm.1 hmk) (hm.2 g w hmk) hcalls
    have hpin := hI.1.opened hopen.1.1 hrun
    constructor
    · refine hpin.mono fun e k he => ?_
      obtain ⟨i, hi, hfile, hopened, hne⟩ := he
      rcases hrows i hi with ⟨hheld, hsame⟩ | hi
      · rw [hsame] at hfile hopened
        exact Or.inl ⟨i, hheld, hfile, hopened, hne⟩
      · obtain ⟨hf, hk⟩ := hout i hi
        rw [hfile] at hf hk
        rw [hopened] at hk
        by_cases hzero : f = 0
        · rw [if_pos hzero] at hf
          exact absurd hf hne
        · rw [if_neg hzero] at hf
          subst hf
          exact Or.inr ⟨rfl, hzero, hk⟩
    · intro i hi hfile
      rcases hrows i hi with ⟨hheld, hsame⟩ | hi
      · rw [hsame] at hfile ⊢
        exact hw.2.trans (h.2 i hheld hfile)
      · rw [(hout i hi).2, hfile]
  · exact h.of_rows hw fun i hi => (hrows i hi).resolve_right fun hno => hex ⟨i, hno⟩

private theorem handler_intact {r : Request}
    (hm : r.Meets (fun op w => Decent rt N op w ∧ Sparing (s.Pins rt) op w) s) (hn : ¬Panics (r.handler rt) s) :
    Intact rt N (final (r.handler rt) s) := by
  have htame := (meets_proper h.1 hm).mono fun _ _ hop => hop.1
  have hall := htame.and (meets_over (htame.mono fun _ _ hop => hop.1))
  by_cases hr : r = .open
  · subst hr
    exact serveOpen_intact hrt h hall hn
  · have hu := anchored_upheld (N := N) (k := s.world.inInd rt) (s.Pins rt) hrt
    have hsame := (sameTable_handler rt hr).final s
    refine h.of_rows (hu.handler ⟨h.1, rfl⟩ hall hn) fun i hi => ?_
    unfold State.Held at hi ⊢
    rw [hsame.pageref] at hi
    exact ⟨hi, congrFun hsame.opentab i⟩

end Requests

/-- The calls of the request are decent, and spare what is open. -/
def Action.Behaves (rt N : Nat) (a : Action) (s : State) : Prop :=
  a.Meets (fun op w => Decent rt N op w ∧ Sparing (s.Pins rt) op w) s

theorem Intact.receive {rt N : Nat} {s : State} (hrt : rt + DIRESIZE ≤ fsreq) (h : Intact rt N s)
    (page : Nat → UInt8) : Intact rt N (s.receive page) :=
  h.of_rows (Anchored.fill hrt ⟨h.1, rfl⟩ page) fun _ hi => ⟨hi, rfl⟩

private theorem intact_step {rt N : Nat} {s : State} (hrt : rt + DIRESIZE ≤ fsreq) (h : Intact rt N s) {a : Action}
    (hb : a.Behaves rt N s) (hl : a.halts rt s = false) : Intact rt N (a.step rt s) := by
  cases a with
  | request r page => exact handler_intact hrt (h.receive hrt page) hb (Action.not_panics hl)
  | share i n =>
    change Intact rt N (if 1 < s.pageref i then _ else s : State)
    split
    · next hone =>
      refine h.of_rows ⟨h.1, rfl⟩ fun j hj => ⟨⟨hj.1, ?_⟩, rfl⟩
      by_cases hji : j = i
      · rw [hji]
        exact hone
      · have hsame : Function.update s.pageref i n j = s.pageref j := Function.update_of_ne hji ..
        rw [← hsame]
        exact hj.2
    · exact h
  | seek i offset =>
    change Intact rt N (if 1 < s.pageref i then _ else s : State)
    split
    · exact h.of_rows ⟨h.1, rfl⟩ fun j hj => ⟨hj, rfl⟩
    · exact h

private theorem intact_run {rt N : Nat} {s : State} {as : List Action} (hrt : rt + DIRESIZE ≤ fsreq) (h : Intact rt N s)
    (hb : (traffic rt).Along (Action.Behaves rt N) as s) (hl : (traffic rt).Survives as s) :
    Intact rt N ((traffic rt).run as s) :=
  Machine.run_survives (I := Intact rt N) (fun _ _ hI hbeh hlive => intact_step hrt hI hbeh hlive) h hb hl

private theorem intact_init {rt N : Nat} {w : World} (h : Consistent N w) : Intact rt N (State.init w) := by
  obtain ⟨D, hD⟩ := h
  have hnone (i : Nat) : ¬(State.init w).Held i := fun hi => by
    have hone : 1 < 0 := hi.2
    omega
  exact ⟨⟨D, hD, fun f k hf => by
    obtain ⟨i, hi, -⟩ := hf
    exact absurd hi (hnone i)⟩, fun i hi => absurd hi (hnone i)⟩

/-- In every run whose requests behave, from a server that has just started, what is done under a valid
file id is done to the inode that it was opened on. -/
theorem opened_inode {rt N : Nat} {w : World} {as : List Action} (h : Consistent N w) (hrt : rt + DIRESIZE ≤ fsreq)
    (hb : (traffic rt).Along (Action.Behaves rt N) as (State.init w))
    (hl : (traffic rt).Survives as (State.init w)) {fileid : Nat}
    (hv : ((traffic rt).run as (State.init w)).Valid fileid) :
    ((traffic rt).run as (State.init w)).world.inInd
        (((traffic rt).run as (State.init w)).opentab (fileid % MAXOPEN)).file =
      (((traffic rt).run as (State.init w)).opentab (fileid % MAXOPEN)).opened :=
  (intact_run hrt (intact_init h) hb hl).inInd hv.held

private theorem createA_behaves (rt : Nat) : createA.Behaves rt 4 (State.init (mount (freshDisk 4 1))) :=
  createA_meets ⟨create_tame, fun _ _ _ _ _ _ hno => hno⟩ fun w => ⟨open_tame w, fun _ _ _ _ _ _ hno => hno⟩

/-- A client opens `/a`, another one removes it and makes `/b`. -/
def replaceA : List Action :=
  [createA, .request .remove (Programs.openPage (fun _ => 0) [47, 97] 0),
    .request .open (Programs.openPage (fun _ => 0) [47, 98] O_CREAT)]

theorem opened_inode_createA :
    (((traffic 4096).run [createA] (State.init (mount (freshDisk 4 1)))).Valid 1024 ∧
      (((traffic 4096).run [createA] (State.init (mount (freshDisk 4 1)))).opentab (1024 % MAXOPEN)).opened = 1) ∧
    ((traffic 4096).run [createA] (State.init (mount (freshDisk 4 1)))).world.inInd
        (((traffic 4096).run [createA] (State.init (mount (freshDisk 4 1)))).opentab (1024 % MAXOPEN)).file =
      (((traffic 4096).run [createA] (State.init (mount (freshDisk 4 1)))).opentab (1024 % MAXOPEN)).opened := by
  have hv : ((traffic 4096).run [createA] (State.init (mount (freshDisk 4 1)))).Valid 1024 := by decide +kernel
  have hl : (traffic 4096).Survives [createA] (State.init (mount (freshDisk 4 1))) :=
    ⟨by decide +kernel, trivial⟩
  have hb : (traffic 4096).Along (Action.Behaves 4096 4) [createA] (State.init (mount (freshDisk 4 1))) :=
    ⟨createA_behaves 4096, fun _ => trivial⟩
  exact ⟨⟨hv, by decide +kernel⟩, opened_inode consistent_fresh (by decide) hb hl hv⟩

/-- The first client now has `/b`. -/
theorem opened_inode_replaced : ¬∀ (rt N : Nat) (w : World) (as : List Action) (fileid : Nat), Consistent N w →
    rt + DIRESIZE ≤ fsreq → (traffic rt).Survives as (State.init w) →
      ((traffic rt).run as (State.init w)).Valid fileid →
        ((traffic rt).run as (State.init w)).world.inInd
            (((traffic rt).run as (State.init w)).opentab (fileid % MAXOPEN)).file =
          (((traffic rt).run as (State.init w)).opentab (fileid % MAXOPEN)).opened := by
  intro hall
  have hsame := hall 4096 4 (mount (freshDisk 4 1)) replaceA 1024 consistent_fresh (by decide)
    ⟨by decide +kernel, by decide +kernel, by decide +kernel, trivial⟩ (by decide +kernel)
  revert hsame
  decide +kernel

/-- In every run whose requests behave, writes, new sizes, flushes and removals are given entries in
directory blocks. -/
theorem entries_given {rt N : Nat} {w : World} {as : List Action} (h : Consistent N w) (hrt : rt + DIRESIZE ≤ fsreq)
    (hb : (traffic rt).Along (Action.Behaves rt N) as (State.init w)) :
    (traffic rt).Along (Action.Meets GivenEntry) as (State.init w) := by
  have hI : Intact rt N (State.init w) := intact_init h
  generalize State.init w = s at hI hb ⊢
  induction as generalizing s with
  | nil => trivial
  | cons a as ih =>
    refine ⟨?_, fun hl => ih _ (intact_step hrt hI hb.1 hl) (hb.2 hl)⟩
    cases a with
    | request r page => exact (meets_proper (hI.receive hrt page).1 hb.1).mono fun _ _ hop => hop.2
    | share i n => trivial
    | seek i offset => trivial

theorem entries_given_createA : Consistent 4 (mount (freshDisk 4 1)) ∧
    (traffic 4096).Along (Action.Meets GivenEntry) [createA] (State.init (mount (freshDisk 4 1))) :=
  ⟨consistent_fresh, entries_given consistent_fresh (by decide) ⟨createA_behaves 4096, fun _ => trivial⟩⟩

/-- A client opens the root with `O_TRUNC`. -/
def truncRoot : Action := .request .open (Programs.openPage (fun _ => 0) [47] O_TRUNC)

/-- `file_set_size` is given a null pointer. -/
theorem null_given : ¬∀ (rt N : Nat) (w : World) (as : List Action), Consistent N w → rt + DIRESIZE ≤ fsreq →
    (traffic rt).Along (Action.Meets GivenEntry) as (State.init w) := by
  intro hall
  have hmeets := (hall 4096 4 (mount (freshDisk 4 1)) [truncRoot] consistent_fresh (by decide)).1
  change Request.open.Meets GivenEntry ((State.init (mount (freshDisk 4 1))).receive _) at hmeets
  generalize hs : (State.init (mount (freshDisk 4 1))).receive
    (Programs.openPage (fun _ => 0) [47] O_TRUNC) = s at hmeets
  have hwants : s.wants O_MKDIR = false ∧ s.wants O_CREAT = false ∧ s.wants O_TRUNC = true := by
    rw [← hs]
    decide +kernel
  obtain ⟨hmkdir, hcreat, htrunc⟩ := hwants
  have hfound : value (openOrCreate s.reqPath false (s.wants O_EXCL)) s.world = some 0 := by
    rw [← hs]
    decide +kernel
  have hnone : mkdirCall s s.world = .ok (.ok 0) s.world := by
    rw [mkdirCall, hmkdir]
    rfl
  have hrest : openMeets GivenEntry s.reqPath (s.wants O_CREAT) (s.wants O_EXCL) (s.wants O_TRUNC) s.world :=
    hmeets.2 0 s.world hnone
  rw [hcreat, htrunc] at hrest
  exact (hrest.2 0 _ (eq_ok_of_value hfound)).1.1 rfl

end DamnOS.Server
