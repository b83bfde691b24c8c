import DamnOS.Programs.Files
import DamnOS.Server.Calls
import DamnOS.Server.FileIds
import DamnOS.FileSystem.EmptyDirectory
import DamnOS.FileSystem.Reopen

/-!
# The result of opening a file

`serve_open` makes a directory, takes a row of the table, finds or creates the file, truncates it and
looks it up again; each step has a result of its own.  What `open` tells its caller rests on the sign of
the number that comes out.
-/

namespace DamnOS.Programs

open DamnOS.Framework
open DamnOS.FileSystem
open DamnOS.Server

def MAXERROR : Int := 18

def IsErrorCode (v : Int) : Prop := -MAXERROR < v ∧ v < 0

instance (v : Int) : Decidable (IsErrorCode v) := inferInstanceAs (Decidable (_ ∧ _))

/-- The number that the server replies, and its state then; a panic is no reply. -/
def replied : EStateM.Result Exc State Int → Option (Int × State)
  | .ok r t => some (r, t)
  | .error (.err e) t => some (-(e.code : Int), t)
  | .error (.panic _) _ => none

/-- A row that had no client is shared now, and its file is what `file_open` found last for the path. -/
def Handed (rt : Nat) (s t : State) : Prop :=
  ∃ i f w, i < MAXOPEN ∧ s.pageref i ≤ 1 ∧ t.pageref i = 2 ∧ fileOpen s.reqPath w = .ok f t.world ∧
    (t.opentab i).file = if f = 0 then rt else f

/-- `serve_open` replies 0 or an error code, and 0 exactly when it hands out a row for the file at the
path; and `open` comes back with a descriptor only if a page was mapped there. -/
def OpensProperly (rt : Nat) (s : State) : Prop :=
  (∃ v t, replied (serveOpen rt s) = some (v, t) ∧ (v = 0 ∨ IsErrorCode v) ∧ (v = 0 ↔ Handed rt s t)) ∧
    ∀ (c : Client) (path : List UInt8) (mode : Nat), c.server.receive (openPage c.fsipcbuf path mode) = s →
      ∀ v d, openFile rt path mode c = .ok v d → 0 ≤ v → ∃ i, d.fds v.toNat = some (.file i)

/-- The request gets as far as truncating the file at its path. -/
def Truncates (s : State) : Prop := s.wants O_TRUNC = true ∧ ¬(s.wants O_CREAT = true ∧ s.wants O_EXCL = true)

/-- The file id that row `i` gets when it is taken. -/
def nextId (s : State) (i : Nat) : Nat := ((s.opentab i).fileid + MAXOPEN) % 4294967296

/-- The directory can be made, if one is asked for.  And the next file id is below 2^31 as an unsigned number,
and it is not the root that is truncated; or the id looks like an error code by chance. -/
def Openable (s : State) : Prop :=
  (s.wants O_MKDIR = true → s.world.CanMake s.reqPath FTYPE_DIR) ∧
    ∀ i, s.freeRow = some i → IsErrorCode (toS32 (nextId s i)) ∨ 0 ≤ toS32 (nextId s i) ∧
      (Truncates s → ∀ dir e, s.world.foldPath s.reqPath = .ok (.found dir e) → e ≠ 0)

/-- No name is looked up in the inode that is truncated, on the way to it. -/
def Straight (s : State) : Prop := Truncates s → ∀ dir e, s.world.foldPath s.reqPath = .ok (.found dir e) →
  s.world.inInd e ∉ s.world.visits s.reqPath

private def CallsReturn (s : State) (w : World) : Prop :=
  let t := { s with world := w }
  ∀ p u, openCalls s.reqPath (t.wants O_CREAT) (t.wants O_EXCL) (t.wants O_TRUNC) w ≠ .error (.panic p) u

/-- What the calls need, in terms of their own results. -/
private def Manageable (s : State) : Prop :=
  ∃ f w, mkdirCall s s.world = .ok (.ok f) w ∧ ∀ i, s.freeRow = some i →
    if 0 ≤ toS32 ((s.take i).opentab i).fileid then CallsReturn s w
    else IsErrorCode (toS32 ((s.take i).opentab i).fileid)

private theorem isErrorCode_code (e : Err) : IsErrorCode (-(e.code : Int)) := by
  cases e
  all_goals decide

private theorem IsErrorCode.ne_zero {v : Int} (h : IsErrorCode v) : v ≠ 0 := by
  have := h.2
  omega

private theorem not_handed {rt : Nat} {s t : State} (h : ∀ i, s.pageref i ≤ 1 → t.pageref i ≤ 1) : ¬Handed rt s t := by
  rintro ⟨i, f, w, -, hle, htwo, -⟩
  have := h i hle
  omega

private theorem take_pageref_le (s : State) (i : Nat) : ∀ j, s.pageref j ≤ 1 → (s.take i).pageref j ≤ 1 := by
  intro j hj
  by_cases hji : j = i
  · simp [State.take, hji]
  · simpa [State.take, hji] using hj

private theorem openCalls_fileOpen {path : List UInt8} {creat excl trunc : Bool} {w v : World} {f : Nat}
    (h : openCalls path creat excl trunc w = .ok f v) : ∃ u, fileOpen path u = .ok f v := by
  obtain ⟨g, t, -, h⟩ := bind_eq_ok h
  dsimp only at h
  split at h
  · obtain ⟨-, u, -, h⟩ := bind_eq_ok h
    exact ⟨u, h⟩
  · exact ⟨t, h⟩

section Reply

variable (rt : Nat) {s : State} {w : World} {f : Nat}

private theorem replied_row {i : Nat} (hf : s.freeRow = some i) (hcalls : CallsReturn s w)
    (hid : 0 ≤ toS32 ((s.take i).opentab i).fileid) : ∃ v t,
      replied (openAt rt s.reqPath i ({ s with world := w }.take i)) = some (v, t) ∧
        (v = 0 ∨ IsErrorCode v) ∧ (v = 0 ↔ Handed rt s t) := by
  obtain ⟨hi, hle⟩ := State.freeRow_some hf
  have hpos : ¬toS32 (({ s with world := w }.take i).opentab i).fileid < 0 := not_lt.mpr hid
  rw [openAt_eq rt s.reqPath i hpos]
  have hcalls' : ∀ p u, openCalls s.reqPath (({ s with world := w } : State).take i |>.wants O_CREAT)
      (({ s with world := w } : State).take i |>.wants O_EXCL)
      (({ s with world := w } : State).take i |>.wants O_TRUNC) w ≠ .error (.panic p) u := hcalls
  have hrefs := take_pageref_le { s with world := w } i
  generalize hr : openCalls s.reqPath (({ s with world := w } : State).take i |>.wants O_CREAT)
    (({ s with world := w } : State).take i |>.wants O_EXCL)
    (({ s with world := w } : State).take i |>.wants O_TRUNC) w = r at hcalls'
  have hrun : openCalls s.reqPath (({ s with world := w } : State).take i |>.wants O_CREAT)
      (({ s with world := w } : State).take i |>.wants O_EXCL)
      (({ s with world := w } : State).take i |>.wants O_TRUNC) (({ s with world := w } : State).take i).world = r := hr
  rw [hrun]
  cases r with
  | error x u =>
    cases x with
    | panic p => exact absurd rfl (hcalls' p u)
    | err e =>
      have hcode := isErrorCode_code e
      refine ⟨_, _, rfl, .inr hcode, fun hz => absurd hz hcode.ne_zero, fun hh => absurd hh (not_handed ?_)⟩
      exact hrefs
  | ok g u =>
    obtain ⟨v, hv⟩ := openCalls_fileOpen hr
    refine ⟨0, _, rfl, .inl rfl, fun _ => ⟨i, g, v, hi, hle, ?_, hv, ?_⟩, fun _ => rfl⟩
    · simp [State.give, State.take]
    · simp [State.give]

private theorem Manageable.replied (h : Manageable s) : ∃ v t, replied (serveOpen rt s) = some (v, t) ∧
    (v = 0 ∨ IsErrorCode v) ∧ (v = 0 ↔ Handed rt s t) := by
  obtain ⟨f, w, hmkdir, hrow⟩ := h
  rw [serveOpen_eq, hmkdir]
  dsimp only
  cases hf : s.freeRow with
  | none =>
    refine ⟨_, _, rfl, .inr (by decide), fun hz => absurd hz (by decide), fun hh => absurd hh (not_handed ?_)⟩
    exact fun i hi => hi
  | some i =>
    dsimp only
    have hi := hrow i hf
    split at hi
    · next hid => exact replied_row rt hf hi hid
    · next hid =>
      -- the id is returned as if it were an error
      have hneg : toS32 (({ s with world := w }.take i).opentab i).fileid < 0 := not_le.mp hid
      have hopen : openAt rt s.reqPath i ({ s with world := w }.take i) =
          .ok (toS32 ((s.take i).opentab i).fileid) ({ s with world := w }.take i) := by
        rw [openAt, bind_ok (get_run _), if_pos hneg]
        rfl
      rw [hopen]
      refine ⟨_, _, rfl, .inr hi, fun hz => absurd hz hi.ne_zero, fun hh => absurd hh (not_handed ?_)⟩
      exact take_pageref_le _ i

private theorem manageable_of_replied {v : Int} {t : State} (h : Programs.replied (serveOpen rt s) = some (v, t))
    (hv : v = 0 ∨ IsErrorCode v) : Manageable s := by
  rw [serveOpen_eq] at h
  cases hmkdir : mkdirCall s s.world with
  | error x w =>
    obtain ⟨p, rfl⟩ := mkdirCall_error hmkdir
    rw [hmkdir] at h
    cases h
  | ok r w =>
    rw [hmkdir] at h
    cases r with
    | error e =>
      cases h
      exact absurd hv (by decide)
    | ok f =>
      refine ⟨f, w, hmkdir, fun i hf => ?_⟩
      rw [hf] at h
      dsimp only at h
      split
      · next hid =>
        intro p u hpanic
        have hpos : ¬toS32 (({ s with world := w }.take i).opentab i).fileid < 0 := not_lt.mpr hid
        rw [openAt_eq rt s.reqPath i hpos] at h
        have hpanic' : openCalls s.reqPath (({ s with world := w } : State).take i |>.wants O_CREAT)
            (({ s with world := w } : State).take i |>.wants O_EXCL)
            (({ s with world := w } : State).take i |>.wants O_TRUNC)
            (({ s with world := w } : State).take i).world = .error (.panic p) u := hpanic
        rw [hpanic'] at h
        cases h
      · next hid =>
        have hneg : toS32 (({ s with world := w }.take i).opentab i).fileid < 0 := not_le.mp hid
        rw [openAt, bind_ok (get_run _), if_pos hneg] at h
        cases h
        refine hv.resolve_left fun hz => ?_
        rw [hz] at hneg
        exact absurd hneg (by decide)

end Reply

theorem Handed.freeRow {rt : Nat} {s t : State} (h : Handed rt s t) : ∃ i, s.freeRow = some i := by
  obtain ⟨i, -, -, hi, hle, -⟩ := h
  cases hf : s.freeRow with
  | none => exact absurd hle (State.freeRow_none hf hi)
  | some j => exact ⟨j, rfl⟩

private theorem fsipc_open {rt : Nat} {c d : Client} {r : Int} (h : fsipc rt .open c = .ok r d) :
    ∃ t, replied (serveOpen rt (c.server.receive c.fsipcbuf)) = some (r, t) ∧ d = c.reply t := by
  unfold fsipc at h
  change (match serveOpen rt (c.server.receive c.fsipcbuf) with
    | .ok v t => .ok v (c.reply t)
    | .error (.err e) t => .ok (-(e.code : Int)) (c.reply t)
    | .error (.panic p) t => .error (.server p) (c.reply t) : EStateM.Result Stop Client Int) = _ at h
  cases hr : serveOpen rt (c.server.receive c.fsipcbuf) with
  | ok v t =>
    rw [hr] at h
    cases h
    exact ⟨t, rfl, rfl⟩
  | error x t =>
    rw [hr] at h
    cases x with
    | err e =>
      cases h
      exact ⟨t, rfl, rfl⟩
    | panic p => cases h

private theorem openFile_mapped {rt : Nat} {path : List UInt8} {mode : Nat} {c d : Client} {v : Int}
    (hreply : ∀ r t, replied (serveOpen rt (c.server.receive (openPage c.fsipcbuf path mode))) = some (r, t) →
      0 ≤ r → r = 0 ∧ ∃ i, c.server.freeRow = some i)
    (h : openFile rt path mode c = .ok v d) (hv : 0 ≤ v) : ∃ i, d.fds v.toNat = some (.file i) := by
  unfold openFile at h
  split at h
  · cases h
    exact absurd hv (by decide)
  · rw [bind_ok (get_run c)] at h
    dsimp only at h
    cases hfd : c.fdAlloc with
    | none =>
      rw [hfd] at h
      cases h
      exact absurd hv (by decide)
    | some fd =>
      rw [hfd] at h
      dsimp only at h
      have hput : (put 0 (path.length + 1) fun i => path.getD i 0) c =
          .ok () { c with fsipcbuf := splice c.fsipcbuf 0 (path.length + 1) fun i => path.getD i 0 } := rfl
      have hmode : put MAXPATHLEN 4 (leByte mode)
            { c with fsipcbuf := splice c.fsipcbuf 0 (path.length + 1) fun i => path.getD i 0 } =
          .ok () { c with fsipcbuf := openPage c.fsipcbuf path mode } := rfl
      rw [bind_ok hput, bind_ok hmode] at h
      obtain ⟨r, c₃, h₃, h⟩ := bind_eq_ok h
      obtain ⟨t, ht, rfl⟩ := fsipc_open h₃
      split at h
      · next hneg =>
        cases h
        exact absurd hv (not_le.mpr hneg)
      · next hpos =>
        obtain ⟨rfl, i, hi⟩ := hreply r t ht (not_lt.mp hpos)
        simp only [if_true] at h
        cases h
        refine ⟨i, ?_⟩
        simp [Client.map, hi]

private theorem opensProperly_iff_manageable (rt : Nat) (s : State) : OpensProperly rt s ↔ Manageable s := by
  constructor
  · rintro ⟨⟨v, t, hr, hv, -⟩, -⟩
    exact manageable_of_replied rt hr hv
  · intro h
    obtain ⟨v, t, hr, hv, hzero⟩ := h.replied rt
    refine ⟨⟨v, t, hr, hv, hzero⟩, fun c path mode hc u d hrun hu => openFile_mapped ?_ hrun hu⟩
    intro r t' hr' hpos
    rw [hc, hr] at hr'
    obtain ⟨rfl, rfl⟩ := Prod.mk.inj (Option.some.inj hr')
    have hz : v = 0 := hv.resolve_right fun hcode => absurd hcode.2 (not_lt.mpr hpos)
    obtain ⟨i, hi⟩ := (hzero.mp hz).freeRow
    refine ⟨hz, i, ?_⟩
    rw [← hc] at hi
    exact hi

private theorem reqPath_nul (s : State) : (0 : UInt8) ∉ s.reqPath := by
  intro hm
  have hne := List.mem_takeWhile_imp hm
  simp at hne

section Calls

variable {N : Nat} {w : World} {path : List UInt8} {creat excl trunc : Bool}

private theorem openCalls_bind : openCalls path creat excl trunc = openOrCreate path creat excl >>= fun f =>
    if trunc then fileSetSize f 0 >>= fun _ => fileOpen path else fileOpen path := by
  cases trunc
  · simp [openCalls]
  · simp [openCalls]

private theorem openOrCreate_reaches {P : Nat → Prop} {e : Nat} (h : Sane N w) (hr : w.Reaches N P path e)
    (hexcl : ¬(creat = true ∧ excl = true)) : ∃ v, Quiet w v ∧ openOrCreate path creat excl w = .ok e v := by
  unfold openOrCreate
  cases creat with
  | false => exact hr.fileOpen h
  | true =>
    obtain ⟨t, hq, ht⟩ := hr.fileCreate h FTYPE_REG
    obtain ⟨v, hqv, hv⟩ := (hq.reaches hr).fileOpen (hq.sane h)
    have he : excl = false := by simpa using hexcl
    refine ⟨v, trans_of Quiet hq hqv, ?_⟩
    rw [if_pos rfl, bind_ok (attempt_err ht)]
    dsimp only
    rw [if_pos ⟨he, rfl⟩]
    exact hv

private theorem found_returns {P : Nat → Prop} {e : Nat} (h : Sane N w) (hr : w.Reaches N P path e)
    (hsafe : trunc = true → e ≠ 0 ∧ ∀ i, w.IsDir i → P i → i ≠ w.inInd e) :
    ∃ v, (if trunc then fileSetSize e 0 >>= fun _ => fileOpen path else fileOpen path : M Nat) w = .ok e v := by
  cases trunc with
  | false =>
    obtain ⟨v, -, hv⟩ := hr.fileOpen h
    exact ⟨v, hv⟩
  | true =>
    obtain ⟨he, hk⟩ := hsafe rfl
    obtain ⟨t, ht, hs, hrt⟩ := hr.truncated h he hk
    obtain ⟨v, -, hv⟩ := hrt.fileOpen hs
    exact ⟨v, (bind_ok ht).trans hv⟩

private theorem openCalls_reaches {P : Nat → Prop} {e : Nat} (h : Sane N w) (hr : w.Reaches N P path e)
    (hsafe : trunc = true → ¬(creat = true ∧ excl = true) → e ≠ 0 ∧ ∀ i, w.IsDir i → P i → i ≠ w.inInd e)
    (p : Panic) (u : World) : openCalls path creat excl trunc w ≠ .error (.panic p) u := by
  rw [openCalls_bind]
  by_cases hexcl : creat = true ∧ excl = true
  · obtain ⟨rfl, rfl⟩ := hexcl
    obtain ⟨t, -, ht⟩ := hr.fileCreate h FTYPE_REG
    have hthrow : openOrCreate path true true w = .error (.err .fileExists) t := bind_ok (attempt_err ht)
    rw [bind_error hthrow]
    simp
  · obtain ⟨t, hq, ht⟩ := openOrCreate_reaches h hr hexcl
    obtain ⟨v, hv⟩ := found_returns (hq.sane h) (hq.reaches hr) fun htr => by
      obtain ⟨he, hk⟩ := hsafe htr hexcl
      refine ⟨he, fun i hd hi => ?_⟩
      rw [hq.inInd]
      exact hk i ((hq.isDir i).mp hd) hi
    rw [bind_ok ht, hv]
    simp

variable {D : Nat → Prop} (h : TidyIn N D w) (h0 : (0 : UInt8) ∉ path)
include h h0

private theorem openCalls_returns (hsafe : trunc = true → ¬(creat = true ∧ excl = true) →
      ∀ dir e, w.resolve path = .ok (.found dir e) → e ≠ 0 ∧ w.inInd e ∉ w.visits path)
    (p : Panic) (u : World) : openCalls path creat excl trunc w ≠ .error (.panic p) u := by
  by_cases hfound : ∃ dir e, w.resolve path = .ok (.found dir e)
  · obtain ⟨dir, e, hres⟩ := hfound
    refine openCalls_reaches h.sane (h.reaches h0 hres) (fun htr hex => ?_) p u
    obtain ⟨he, hk⟩ := hsafe htr hex dir e hres
    exact ⟨he, fun i _ hi heq => hk (heq ▸ hi)⟩
  rw [openCalls_bind]
  cases creat with
  | false =>
    obtain ⟨v, -, hv⟩ := h.walkable.fileOpen_run h0
    cases hopen : w.openEntry path with
    | error x =>
      rw [hopen] at hv
      have hthrow : openOrCreate path false excl w = .error (.err x) v := hv
      rw [bind_error hthrow]
      simp
    | ok e =>
      unfold World.openEntry at hopen
      split at hopen
      · next hres => exact absurd ⟨_, _, hres⟩ hfound
      · cases hopen
      · cases hopen
  | true =>
    rcases fileCreate_returns h h0 FTYPE_REG with ⟨e, v, hv⟩ | ⟨x, v, hv, hx⟩
    · obtain ⟨hs, hr, he, hk⟩ := fileCreate_reaches h h0 hv
      have hok : openOrCreate path true excl w = .ok e v := bind_ok (attempt_ok hv)
      obtain ⟨t, ht⟩ := found_returns hs hr fun (_ : trunc = true) => ⟨he, fun i _ hi heq => hk (heq ▸ hi)⟩
      rw [bind_ok hok, ht]
      simp
    · have hthrow : openOrCreate path true excl w = .error (.err x) v := by
        refine (bind_ok (attempt_err hv)).trans ?_
        dsimp only
        rw [if_neg fun hc => hfound (hx hc.2)]
        rfl
      rw [bind_error hthrow]
      simp

private theorem openCalls_made {v : World} {e : Nat} (hrun : fileCreate path FTYPE_DIR w = .ok e v) (p : Panic)
    (u : World) : openCalls path creat excl trunc v ≠ .error (.panic p) u := by
  obtain ⟨hs, hr, he, hk⟩ := fileCreate_reaches h h0 hrun
  exact openCalls_reaches hs hr (fun _ _ => ⟨he, fun i _ hi heq => hk (heq ▸ hi)⟩) p u

private theorem openCalls_root (hexcl : ¬(creat = true ∧ excl = true)) {dir : Nat}
    (hres : w.resolve path = .ok (.found dir 0)) :
    ∃ p u, openCalls path creat excl true w = .error (.panic p) u := by
  obtain ⟨t, -, ht⟩ := openOrCreate_reaches h.sane (h.reaches h0 hres) hexcl
  obtain ⟨p, u, hu⟩ := fileSetSize_null 0 t
  refine ⟨p, u, ?_⟩
  rw [openCalls_bind, bind_ok ht, if_pos rfl, bind_error hu]

end Calls

section Openable

variable {N : Nat} {D : Nat → Prop} {s : State} (h : TidyIn N D s.world)
include h

omit h in
private theorem fileid_take (i : Nat) : ((s.take i).opentab i).fileid = nextId s i := by
  simp [State.take, nextId]

private theorem Manageable.openable (hm : Manageable s) : Openable s := by
  obtain ⟨f, w, hmkdir, hrow⟩ := hm
  have hmake : s.wants O_MKDIR = true → s.world.CanMake s.reqPath FTYPE_DIR := by
    intro hwant
    rw [mkdirCall, if_pos hwant] at hmkdir
    exact (fileCreate_ok_iff h (reqPath_nul s) FTYPE_DIR).mp ⟨f, w, attempt_eq_ok hmkdir⟩
  refine ⟨hmake, fun i hi => ?_⟩
  have hrow := hrow i hi
  rw [fileid_take] at hrow
  generalize toS32 (nextId s i) = z at hrow ⊢
  split_ifs at hrow with hpos
  · refine .inr ⟨hpos, ?_⟩
    rintro ⟨htr, hexcl⟩ dir e hfold rfl
    by_cases hwant : s.wants O_MKDIR = true
    · obtain ⟨d, name, hmiss, -⟩ := hmake hwant
      rw [hmiss] at hfold
      cases hfold
    · rw [mkdirCall, if_neg hwant] at hmkdir
      cases hmkdir
      rw [← resolve_eq_foldPath _ (reqPath_nul s)] at hfold
      obtain ⟨p, u, hp⟩ := openCalls_root h (reqPath_nul s) hexcl hfold
      rw [← htr] at hp
      exact hrow p u hp
  · exact .inl hrow

private theorem Openable.manageable (ho : Openable s) (hs : Straight s) : Manageable s := by
  obtain ⟨hmake, hrow⟩ := ho
  -- the row is the same whether a directory is made or not
  have hid {w : World} (hcalls : (Truncates s → ∀ dir e, s.world.foldPath s.reqPath = .ok (.found dir e) →
      e ≠ 0) → CallsReturn s w) (i : Nat) (hi : s.freeRow = some i) :
      if 0 ≤ toS32 ((s.take i).opentab i).fileid then CallsReturn s w
      else IsErrorCode (toS32 ((s.take i).opentab i).fileid) := by
    have hrow := hrow i hi
    rw [fileid_take]
    generalize toS32 (nextId s i) = z at hrow ⊢
    rcases hrow with herr | ⟨hpos, hroot⟩
    · rw [if_neg (not_le.mpr herr.2)]
      exact herr
    · rw [if_pos hpos]
      exact hcalls hroot
  by_cases hwant : s.wants O_MKDIR = true
  · obtain ⟨e, w, hrun⟩ := (fileCreate_ok_iff h (reqPath_nul s) FTYPE_DIR).mpr (hmake hwant)
    refine ⟨e, w, ?_, hid fun _ p u => openCalls_made h (reqPath_nul s) hrun p u⟩
    rw [mkdirCall, if_pos hwant]
    exact attempt_ok hrun
  · refine ⟨0, s.world, ?_, hid fun hroot p u => ?_⟩
    · rw [mkdirCall, if_neg hwant]
      rfl
    · refine openCalls_returns h (reqPath_nul s) (fun htr hexcl dir e hres => ?_) p u
      rw [resolve_eq_foldPath _ (reqPath_nul s)] at hres
      exact ⟨hroot ⟨htr, hexcl⟩ dir e hres, hs ⟨htr, hexcl⟩ dir e hres⟩

end Openable

/-- Where the directories are in order: opening ends properly only in states that meet the condition, and
does in all of them, unless the path goes through the inode that it truncates. -/
theorem open_result_iff (rt N : Nat) (D : Nat → Prop) (s : State) (h : TidyIn N D s.world) :
    (OpensProperly rt s → Openable s) ∧ (Straight s → (OpensProperly rt s ↔ Openable s)) := by
  rw [opensProperly_iff_manageable]
  exact ⟨fun hm => hm.openable h, fun hs => ⟨fun hm => hm.openable h, fun ho => ho.manageable h hs⟩⟩

/-- The root is opened for reading on a fresh server. -/
theorem open_result_root : OpensProperly 0 ((State.init (mount (freshDisk 4 1))).receive rootPage) := by
  generalize hs : (State.init (mount (freshDisk 4 1))).receive rootPage = s
  have hflag (flag : Nat) : s.wants flag = false := by
    rw [State.wants, ← hs, reqOmode_rootPage, Nat.zero_and]
    rfl
  have hstands : Stands 4 (· = 0) (mount (freshDisk 4 1)) s.world := by
    rw [← hs]
    exact stands_fill formatted_fresh.inOrder rootPage (Or.inl (by decide))
  have hkeeps : ¬Truncates s := fun ht => by
    rw [Truncates, hflag] at ht
    cases ht.1
  have hid (i : Nat) (hi : i < MAXOPEN) : 0 ≤ toS32 (nextId s i) := by
    have hnext : nextId s i = i + MAXOPEN := by
      rw [nextId, ← hs]
      change (i + MAXOPEN) % 4294967296 = i + MAXOPEN
      exact Nat.mod_eq_of_lt (by simp only [MAXOPEN] at hi ⊢; omega)
    rw [hnext, toS32]
    simp only [MAXOPEN] at hi ⊢
    split_ifs
    · omega
    · omega
  refine ((open_result_iff 0 4 (· = 0) s (formatted_fresh.inOrder.stands hstands).toTidyIn).2
    fun ht => absurd ht hkeeps).mpr ⟨fun hwant => ?_, fun i hi => ?_⟩
  · rw [hflag] at hwant
    cases hwant
  · exact .inr ⟨hid i (State.freeRow_some hi).1, fun ht => absurd ht hkeeps⟩

/-- A program on a fresh server asks for the root with `O_MKDIR`. -/
def mkdirRoot : State :=
  (State.init (mount (freshDisk 4 1))).receive (openPage (fun _ => 0) [47] O_MKDIR)

private theorem mkdirRoot_mkdirCall : ∀ f w, mkdirCall mkdirRoot mkdirRoot.world ≠ .ok (.ok f) w := by
  intro f w h
  have hv : value (mkdirCall mkdirRoot) mkdirRoot.world = some (.error .fileExists) := by decide +kernel
  rw [value, h] at hv
  cases hv

theorem open_returns_one : ¬∀ (rt : Nat) (s : State), OpensProperly rt s := by
  intro hall
  obtain ⟨f, w, h, -⟩ := (hall 0 mkdirRoot).1.elim fun v h => h.elim fun t h =>
    manageable_of_replied 0 h.1 h.2.1
  exact mkdirRoot_mkdirCall f w h

end DamnOS.Programs
