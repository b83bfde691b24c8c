import DamnOS.Server.OpenTable
import DamnOS.FileSystem.Careful

/-!
# The calls of the request handlers

Every handler is a sequence of calls into the file system, the later ones depending on what the earlier
ones gave.  What each call keeps, under a condition on the state that it is made in, is kept by the
requests of the clients.
-/

namespace DamnOS.Server

open DamnOS.Framework
open DamnOS.FileSystem

def mkdirCall (s : State) : M (Except Err Nat) :=
  if s.wants O_MKDIR then attempt (fileCreate s.reqPath FTYPE_DIR) else pure (.ok 0)

/-- The file system calls after a row was taken. -/
def openCalls (path : List UInt8) (creat excl trunc : Bool) : M Nat := do
  let f ← openOrCreate path creat excl
  if trunc then fileSetSize f 0 else pure ()
  fileOpen path

def openPrefix (path : List UInt8) (creat excl trunc : Bool) : M Unit := do
  let f ← openOrCreate path creat excl
  if trunc then fileSetSize f 0 else pure ()

private theorem openCalls_eq (path : List UInt8) (creat excl trunc : Bool) : openCalls path creat excl trunc =
    openPrefix path creat excl trunc >>= fun _ => fileOpen path := by
  cases trunc
  · simp [openCalls, openPrefix]
  · simp [openCalls, openPrefix]

theorem mkdirCall_error {s : State} {w t : World} {x : Exc} (h : mkdirCall s w = .error x t) :
    ∃ p, x = .panic p := by
  unfold mkdirCall at h
  split at h
  · exact attempt_error h
  · cases h

theorem openAt_eq (rt : Nat) (path : List UInt8) (i : Nat) {s : State}
    (hid : ¬toS32 (s.opentab i).fileid < 0) : openAt rt path i s =
      match openCalls path (s.wants O_CREAT) (s.wants O_EXCL) (s.wants O_TRUNC) s.world with
      | .ok f w => .ok 0 ({ s with world := w }.give i (if f = 0 then rt else f) s.reqOmode)
      | .error x w => .error x { s with world := w } := by
  unfold openAt openCalls
  rw [bind_ok (get_run s), if_neg hid]
  cases hr : openOrCreate path (s.wants O_CREAT) (s.wants O_EXCL) s.world with
  | error x w =>
    have hcall : call (openOrCreate path (s.wants O_CREAT) (s.wants O_EXCL)) s =
        .error x { s with world := w } := by rw [call, hr]
    rw [bind_error hcall, bind_error hr]
  | ok f w =>
    have hcall : call (openOrCreate path (s.wants O_CREAT) (s.wants O_EXCL)) s =
        .ok f { s with world := w } := by rw [call, hr]
    rw [bind_ok hcall, bind_ok hr]
    dsimp only
    -- the last lookup, in the state that truncation leaves
    have hend (v : World) : (do
          let f ← call (fileOpen path)
          modify fun t => t.give i (if f = 0 then rt else f) s.reqOmode
          pure 0 : S Int) { s with world := v } =
        match fileOpen path v with
        | .ok f w => .ok 0 ({ s with world := w }.give i (if f = 0 then rt else f) s.reqOmode)
        | .error x w => .error x { s with world := w } := by
      cases hv : fileOpen path v with
      | error x u =>
        have hc : call (fileOpen path) { s with world := v } = .error x { s with world := u } := by
          rw [call, hv]
        rw [bind_error hc]
      | ok g u =>
        have hc : call (fileOpen path) { s with world := v } = .ok g { s with world := u } := by
          rw [call, hv]
        rw [bind_ok hc]
        rfl
    by_cases htrunc : s.wants O_TRUNC = true
    · rw [if_pos htrunc, if_pos htrunc]
      cases hs : fileSetSize f 0 w with
      | error x u =>
        have hc : call (fileSetSize f 0) { s with world := w } = .error x { s with world := u } := by
          rw [call, hs]
        rw [bind_error hc, bind_error hs]
      | ok a u =>
        have hc : call (fileSetSize f 0) { s with world := w } = .ok a { s with world := u } := by
          rw [call, hs]
        rw [bind_ok hc, bind_ok hs]
        exact hend u
    · rw [if_neg htrunc, if_neg htrunc]
      exact hend w

theorem serveOpen_eq (rt : Nat) (s : State) : serveOpen rt s =
    match mkdirCall s s.world with
    | .ok r w =>
      match r with
      | .error _ => .ok 1 { s with world := w }
      | .ok _ =>
        match s.freeRow with
        | none => .error (.err .maxOpen) { s with world := w }
        | some i => openAt rt s.reqPath i ({ s with world := w }.take i)
    | .error x w => .error x { s with world := w } := by
  unfold serveOpen
  rw [bind_ok (get_run s)]
  change (do
    let r ← call (mkdirCall s)
    match r with
      | .error _ => pure 1
      | .ok _ => do
        let i ← openfileAlloc
        openAt rt s.reqPath i : S Int) s = _
  cases hr : mkdirCall s s.world with
  | error x w =>
    have hc : call (mkdirCall s) s = .error x { s with world := w } := by rw [call, hr]
    rw [bind_error hc]
  | ok r w =>
    have hc : call (mkdirCall s) s = .ok r { s with world := w } := by rw [call, hr]
    rw [bind_ok hc]
    cases r with
    | error e => rfl
    | ok f =>
      dsimp only
      have hfree : ({ s with world := w } : State).freeRow = s.freeRow := rfl
      cases hf : s.freeRow with
      | none =>
        rw [bind_error (openfileAlloc_none (hfree.trans hf))]
      | some i =>
        rw [bind_ok (openfileAlloc_row (hfree.trans hf))]

/-- The calls of `serve_open` after a row was taken meet `C`. -/
def openMeets (C : FileOp → World → Prop) (path : List UInt8) (creat excl trunc : Bool) (w : World) : Prop :=
  (if creat then
    C (.create path FTYPE_REG) w ∧ (excl = false → reply (fileCreate path FTYPE_REG) w = .error (.err .fileExists) →
      C (.open path) (final (fileCreate path FTYPE_REG) w))
  else C (.open path) w) ∧
  ∀ f v, openOrCreate path creat excl w = .ok f v → if trunc then
    C (.setSize f 0) v ∧ C (.open path) (final (fileSetSize f 0) v)
  else C (.open path) v

/-- Every file system call of the handler meets `C` where it is made. -/
def Request.Meets (C : FileOp → World → Prop) : Request → State → Prop
  | .open, s => (s.wants O_MKDIR = true → C (.create s.reqPath FTYPE_DIR) s.world) ∧
      ∀ f w, mkdirCall s s.world = .ok (.ok f) w →
        let t := { s with world := w }
        openMeets C s.reqPath (t.wants O_CREAT) (t.wants O_EXCL) (t.wants O_TRUNC) w
  | .setSize, s => s.Valid s.reqFileid →
      C (.setSize (s.opentab (s.reqFileid % MAXOPEN)).file (toS32 s.reqWord)) s.world
  | .read, s => s.Valid s.reqFileid → C (.read (s.opentab (s.reqFileid % MAXOPEN)).file fsreq s.reqWord
      (s.fdOffset (s.reqFileid % MAXOPEN))) s.world
  | .write, s => s.Valid s.reqFileid → C (.write (s.opentab (s.reqFileid % MAXOPEN)).file (fsreq + 8) s.reqWord
      (s.fdOffset (s.reqFileid % MAXOPEN))) s.world
  | .flush, s => s.Valid s.reqFileid → ∀ k w,
      load16 ((s.opentab (s.reqFileid % MAXOPEN)).file + offInInd) s.world = .ok k w →
        C (.flush (if k ≠ 0 then (s.opentab (s.reqFileid % MAXOPEN)).file else inodeVa 0)) w
  | .mkdir, s => C (.create s.reqPath FTYPE_DIR) s.world
  | .remove, s => C (.remove s.reqPath) s.world
  | .sync, s => C .sync s.world

private theorem openMeets_and {C C' : FileOp → World → Prop} {path : List UInt8} {creat excl trunc : Bool} {w : World}
    (h : openMeets C path creat excl trunc w) (h' : openMeets C' path creat excl trunc w) :
    openMeets (fun op w => C op w ∧ C' op w) path creat excl trunc w := by
  constructor
  · have hf := h.1
    have hf' := h'.1
    cases creat with
    | false => exact ⟨hf, hf'⟩
    | true => exact ⟨⟨hf.1, hf'.1⟩, fun he hr => ⟨hf.2 he hr, hf'.2 he hr⟩⟩
  · intro f v hr
    have hs := h.2 f v hr
    have hs' := h'.2 f v hr
    cases trunc with
    | false => exact ⟨hs, hs'⟩
    | true => exact ⟨⟨hs.1, hs'.1⟩, hs.2, hs'.2⟩

theorem Request.Meets.and {C C' : FileOp → World → Prop} {r : Request} {s : State} (h : r.Meets C s)
    (h' : r.Meets C' s) : r.Meets (fun op w => C op w ∧ C' op w) s := by
  cases r with
  | «open» => exact ⟨fun hw => ⟨h.1 hw, h'.1 hw⟩, fun f w hm => openMeets_and (h.2 f w hm) (h'.2 f w hm)⟩
  | setSize => exact fun hv => ⟨h hv, h' hv⟩
  | read => exact fun hv => ⟨h hv, h' hv⟩
  | write => exact fun hv => ⟨h hv, h' hv⟩
  | flush => exact fun hv k w hr => ⟨h hv k w hr, h' hv k w hr⟩
  | mkdir => exact ⟨h, h'⟩
  | remove => exact ⟨h, h'⟩
  | sync => exact ⟨h, h'⟩

private theorem openMeets_mono {C C' : FileOp → World → Prop} (hC : ∀ op w, C op w → C' op w) {path : List UInt8}
    {creat excl trunc : Bool} {w : World} (h : openMeets C path creat excl trunc w) :
    openMeets C' path creat excl trunc w := by
  constructor
  · have hf := h.1
    cases creat with
    | false => exact hC _ _ hf
    | true => exact ⟨hC _ _ hf.1, fun he hr => hC _ _ (hf.2 he hr)⟩
  · intro f v hr
    have hs := h.2 f v hr
    cases trunc with
    | false => exact hC _ _ hs
    | true => exact ⟨hC _ _ hs.1, hC _ _ hs.2⟩

theorem Request.Meets.mono {C C' : FileOp → World → Prop} (hC : ∀ op w, C op w → C' op w) {r : Request}
    {s : State} (h : r.Meets C s) : r.Meets C' s := by
  cases r with
  | «open» => exact ⟨fun hw => hC _ _ (h.1 hw), fun f w hm => openMeets_mono hC (h.2 f w hm)⟩
  | setSize => exact fun hv => hC _ _ (h hv)
  | read => exact fun hv => hC _ _ (h hv)
  | write => exact fun hv => hC _ _ (h hv)
  | flush => exact fun hv k w hr => hC _ _ (h hv k w hr)
  | mkdir => exact hC _ _ h
  | remove => exact hC _ _ h
  | sync => exact hC _ _ h

def Panics {σ α : Type} (m : EStateM Exc σ α) (s : σ) : Prop := ∃ p t, m s = .error (.panic p) t

private theorem halts_eq_false {op : FileOp} {w : World} (h : ¬Panics op.exec w) : op.halts w = false := by
  unfold FileOp.halts
  split
  · next p v hp => exact absurd ⟨p, v, hp⟩ h
  · rfl

section Call

variable {α : Type} {m : M α} {g : α → S Int} {s : State}

private theorem panics_call (h : Panics m s.world) : Panics (call m >>= g) s := by
  obtain ⟨p, w, hp⟩ := h
  exact ⟨p, _, bind_error (call_error hp)⟩

private theorem world_call (hg : ∀ a t, (final (g a) t).world = t.world) :
    (final (call m >>= g) s).world = final m s.world := by
  cases hr : m s.world with
  | ok a w =>
    have hbind : (call m >>= g) s = g a { s with world := w } := bind_ok (call_ok hr)
    rw [final_congr hbind, hg, final_ok hr]
  | error x w =>
    have hbind : (call m >>= g) s = .error x { s with world := w } := bind_error (call_error hr)
    rw [final_error hbind, final_error hr]

end Call

private theorem lookup_run {g : State → Nat → S Int} (s : State) : (do
      let t ← get
      let i ← openfileLookup t.reqFileid
      g t i : S Int) s =
    if s.Valid s.reqFileid then g s (s.reqFileid % MAXOPEN) s else .error (.err .inval) s := by
  rw [bind_ok (get_run s)]
  have hlook : openfileLookup s.reqFileid s =
      if s.Valid s.reqFileid then .ok (s.reqFileid % MAXOPEN) s else .error (.err .inval) s := by
    rw [openfileLookup, bind_ok (get_run s)]
    split
    · rfl
    · rfl
  by_cases hv : s.Valid s.reqFileid
  · rw [if_pos hv] at hlook ⊢
    exact bind_ok hlook
  · rw [if_neg hv] at hlook ⊢
    exact bind_error hlook

private theorem quiet_flush_call (a : Nat) (g : Nat → Nat) (s : State) : Quiet s.world (final (do
    let k ← call (load16 a)
    call (fileFlush (g k))
    pure 0 : S Int) s).world := by
  have hload : Quiet s.world (final (load16 a) s.world) := (quiet_load16 a).final s.world
  cases hr : load16 a s.world with
  | error x w =>
    rw [final_error hr] at hload
    rw [final_error (bind_error (call_error hr))]
    exact hload
  | ok k w =>
    rw [final_ok hr] at hload
    rw [final_congr (bind_ok (call_ok hr)), world_call fun _ _ => rfl]
    exact trans_of Quiet hload ((quiet_fileFlush (g k)).final w)

section Rule

variable {C : FileOp → World → Prop} {I : World → Prop}

/-- `I` is kept by what changes nothing, and by the calls that meet `C` and return. -/
structure Upheld (C : FileOp → World → Prop) (I : World → Prop) : Prop where
  quiet : ∀ w v, Quiet w v → I w → I v
  step : ∀ op w, I w → C op w → op.halts w = false → I (server.step op w)

namespace Upheld

variable (hu : Upheld C I) {w : World} (hw : I w)
include hu hw

theorem call {α : Type} {m : M α} (op : FileOp) (hop : op.exec = m >>= fun _ => pure ()) (hc : C op w)
    (hn : ¬Panics m w) : I (final m w) := by
  have hstep : server.step op w = final m w := by
    change final op.exec w = final m w
    rw [hop]
    exact final_bind_pure _ _ w
  rw [← hstep]
  refine hu.step op w hw hc (halts_eq_false fun hp => hn ?_)
  rw [hop] at hp
  cases hr : m w with
  | ok a v =>
    obtain ⟨p, u, hp⟩ := hp
    rw [bind_ok hr] at hp
    cases hp
  | error x v =>
    obtain ⟨p, u, hp⟩ := hp
    rw [bind_error hr] at hp
    cases hp
    exact ⟨p, _, hr⟩

theorem find {path : List UInt8} {creat excl : Bool} (hc : if creat then
      C (.create path FTYPE_REG) w ∧
        (excl = false → reply (fileCreate path FTYPE_REG) w = .error (.err .fileExists) →
          C (.open path) (final (fileCreate path FTYPE_REG) w))
      else C (.open path) w)
    (hn : ¬Panics (openOrCreate path creat excl) w) : I (final (openOrCreate path creat excl) w) := by
  unfold openOrCreate at hn ⊢
  cases creat with
  | false => exact hu.call hw (.open path) rfl hc hn
  | true =>
    simp only [if_true] at hc hn ⊢
    have hcreate : I (final (fileCreate path FTYPE_REG) w) := by
      refine hu.call hw (.create path FTYPE_REG) rfl hc.1 fun hp => hn ?_
      obtain ⟨p, v, hp⟩ := hp
      exact ⟨p, v, bind_error (attempt_panic hp)⟩
    cases hr : fileCreate path FTYPE_REG w with
    | ok f v =>
      rw [final_congr (bind_ok (attempt_ok hr))]
      rwa [final_ok hr] at hcreate
    | error x v =>
      cases x with
      | panic p => exact absurd ⟨p, v, bind_error (attempt_panic hr)⟩ hn
      | err e =>
        rw [final_congr (bind_ok (attempt_err hr))]
        rw [final_error hr] at hcreate
        dsimp only
        split
        · next hopen =>
          obtain ⟨hexcl, rfl⟩ := hopen
          have hopen := hc.2 hexcl (reply_error hr)
          rw [final_error hr] at hopen
          refine hu.call hcreate (.open path) rfl hopen fun hp => hn ?_
          obtain ⟨p, u, hp⟩ := hp
          refine ⟨p, u, ?_⟩
          rw [bind_ok (attempt_err hr)]
          dsimp only
          rw [if_pos ⟨hexcl, rfl⟩]
          exact hp
        · exact hcreate

private theorem openPrefix {path : List UInt8} {creat excl trunc : Bool} (hc : openMeets C path creat excl trunc w)
    (hn : ¬Panics (openPrefix path creat excl trunc) w) : I (final (openPrefix path creat excl trunc) w) ∧
      ∀ u, Server.openPrefix path creat excl trunc w = .ok () u → C (.open path) u := by
  obtain ⟨hfind, hrest⟩ := hc
  unfold Server.openPrefix at hn ⊢
  have hkept : I (final (openOrCreate path creat excl) w) := by
    refine hu.find hw hfind fun hp => hn ?_
    obtain ⟨p, v, hp⟩ := hp
    exact ⟨p, v, bind_error hp⟩
  cases hr : openOrCreate path creat excl w with
  | error x v =>
    rw [final_error hr] at hkept
    rw [final_error (bind_error hr), bind_error hr]
    exact ⟨hkept, fun u hu => by cases hu⟩
  | ok f v =>
    rw [final_ok hr] at hkept
    have hrest := hrest f v hr
    rw [final_congr (bind_ok hr), bind_ok hr]
    cases trunc with
    | false =>
      refine ⟨hkept, fun u hu => ?_⟩
      cases hu
      exact hrest
    | true =>
      simp only [if_true] at hrest ⊢
      have hno : ¬Panics (fileSetSize f 0) v := by
        intro hp
        obtain ⟨p, u, hp⟩ := hp
        exact hn ⟨p, u, (bind_ok hr).trans hp⟩
      refine ⟨hu.step (.setSize f 0) v hkept hrest.1 (halts_eq_false hno), fun u hu => ?_⟩
      have hopen := hrest.2
      rwa [final_ok hu] at hopen

theorem openCalls {path : List UInt8} {creat excl trunc : Bool} (hc : openMeets C path creat excl trunc w)
    (hn : ¬Panics (openCalls path creat excl trunc) w) : I (final (openCalls path creat excl trunc) w) := by
  rw [openCalls_eq] at hn ⊢
  have hno : ¬Panics (Server.openPrefix path creat excl trunc) w := by
    intro hp
    obtain ⟨p, v, hp⟩ := hp
    exact hn ⟨p, v, bind_error hp⟩
  obtain ⟨hkept, hlast⟩ := hu.openPrefix hw hc hno
  cases hr : Server.openPrefix path creat excl trunc w with
  | error x v =>
    rw [final_error hr] at hkept
    rw [final_error (bind_error hr)]
    exact hkept
  | ok a v =>
    rw [final_ok hr] at hkept
    rw [final_congr (bind_ok hr)]
    refine hu.call hkept (.open path) rfl (hlast v hr) fun hp => hn ?_
    obtain ⟨p, u, hp⟩ := hp
    exact ⟨p, u, (bind_ok hr).trans hp⟩

theorem lastLookup {path : List UInt8} {creat excl trunc : Bool} (hc : openMeets C path creat excl trunc w)
    {f : Nat} {v : World} (hr : Server.openCalls path creat excl trunc w = .ok f v) :
    ∃ u, I u ∧ C (.open path) u ∧ fileOpen path u = .ok f v := by
  rw [openCalls_eq] at hr
  obtain ⟨a, u, hfirst, hlast⟩ := bind_eq_ok hr
  have hno : ¬Panics (Server.openPrefix path creat excl trunc) w := by
    intro hp
    obtain ⟨p, v, hp⟩ := hp
    rw [hfirst] at hp
    cases hp
  obtain ⟨hkept, hopen⟩ := hu.openPrefix hw hc hno
  rw [final_ok hfirst] at hkept
  exact ⟨u, hkept, hopen u hfirst, hlast⟩

omit hw in
/-- The handler of an open: what the calls keep, whatever becomes of the table. -/
theorem serveOpen {rt : Nat} {s : State} (hw : I s.world) (hc : Request.open.Meets C s)
    (hn : ¬Panics (serveOpen rt) s) : I (final (serveOpen rt) s).world := by
  obtain ⟨hdir, hrest⟩ := hc
  have hrun := serveOpen_eq rt s
  have hkept : I (final (mkdirCall s) s.world) := by
    unfold mkdirCall
    split
    · next hwants =>
      rw [final_attempt]
      refine hu.call hw (.create s.reqPath FTYPE_DIR) rfl (hdir hwants) fun hp => hn ?_
      obtain ⟨p, v, hp⟩ := hp
      have hmk : mkdirCall s s.world = .error (.panic p) v := by
        rw [mkdirCall, if_pos hwants]
        exact attempt_panic hp
      rw [hmk] at hrun
      exact ⟨p, _, hrun⟩
    · exact hw
  cases hmk : mkdirCall s s.world with
  | error x w =>
    rw [hmk] at hrun
    rw [final_error hmk] at hkept
    rw [final_error hrun]
    exact hkept
  | ok r w =>
    rw [hmk] at hrun
    rw [final_ok hmk] at hkept
    cases r with
    | error e =>
      rw [final_ok hrun]
      exact hkept
    | ok f =>
      cases hf : s.freeRow with
      | none =>
        rw [hf] at hrun
        rw [final_error hrun]
        exact hkept
      | some i =>
        rw [hf] at hrun
        have hopen : Server.serveOpen rt s = openAt rt s.reqPath i ({ s with world := w }.take i) := hrun
        have hcalls : openMeets C s.reqPath (({ s with world := w } : State).wants O_CREAT)
            (({ s with world := w } : State).wants O_EXCL) (({ s with world := w } : State).wants O_TRUNC) w :=
          hrest f w hmk
        rw [final_congr hopen]
        generalize ht : ({ s with world := w } : State).take i = t at hopen ⊢
        have hworld : t.world = w := by rw [← ht]; rfl
        have hwants (flag : Nat) : ({ s with world := w } : State).wants flag = t.wants flag := by rw [← ht]; rfl
        rw [hwants, hwants, hwants, ← hworld] at hcalls
        rw [← hworld] at hkept
        by_cases hid : toS32 (t.opentab i).fileid < 0
        · have hstop : openAt rt s.reqPath i t = .ok (toS32 (t.opentab i).fileid) t := by
            rw [openAt, bind_ok (get_run t), if_pos hid]
            rfl
          rw [final_ok hstop]
          exact hkept
        · have hat := openAt_eq rt s.reqPath i hid
          have hkept := hu.openCalls hkept hcalls fun hp => hn ?_
          swap
          · obtain ⟨p, v, hp⟩ := hp
            rw [hp] at hat
            exact ⟨p, _, hopen.trans hat⟩
          cases hr : Server.openCalls s.reqPath (t.wants O_CREAT) (t.wants O_EXCL) (t.wants O_TRUNC) t.world with
          | error x v =>
            rw [hr] at hat
            rw [final_error hr] at hkept
            rw [final_error hat]
            exact hkept
          | ok f v =>
            rw [hr] at hat
            rw [final_ok hr] at hkept
            rw [final_ok hat]
            exact hkept

omit hu hw in
theorem lookup {α : Type} {m : State → Nat → M α} {g : Nat → α → S Int} {s : State} (hw : I s.world)
    (hg : ∀ i a t, (final (g i a) t).world = t.world)
    (hc : s.Valid s.reqFileid → ¬Panics (m s (s.reqFileid % MAXOPEN)) s.world →
      I (final (m s (s.reqFileid % MAXOPEN)) s.world))
    (hn : ¬Panics (do
      let t ← get
      let i ← openfileLookup t.reqFileid
      let a ← Server.call (m t i)
      g i a : S Int) s) : I (final (do
      let t ← get
      let i ← openfileLookup t.reqFileid
      let a ← Server.call (m t i)
      g i a : S Int) s).world := by
  have hrun := lookup_run (g := fun t i => do
    let a ← Server.call (m t i)
    g i a) s
  by_cases hv : s.Valid s.reqFileid
  · rw [if_pos hv] at hrun
    rw [final_congr hrun, world_call (hg _)]
    refine hc hv fun hp => hn ?_
    obtain ⟨p, t, hp⟩ := panics_call (g := g (s.reqFileid % MAXOPEN)) hp
    exact ⟨p, t, hrun.trans hp⟩
  · rw [if_neg hv] at hrun
    rw [final_error hrun]
    exact hw

omit hw in
theorem handler {rt : Nat} {r : Request} {s : State} (hw : I s.world) (hc : r.Meets C s)
    (hn : ¬Panics (r.handler rt) s) : I (final (r.handler rt) s).world := by
  have hadvance (i : Nat) (a : Int) (t : State) :
      (final (do
        modify fun t => t.advance i a
        pure a : S Int) t).world = t.world := by
    change (t.advance i a).world = t.world
    unfold State.advance
    split
    · rfl
    · rfl
  cases r with
  | «open» => exact hu.serveOpen hw hc hn
  | setSize =>
    exact Upheld.lookup hw (m := fun t i => fileSetSize (t.opentab i).file (toS32 t.reqWord)) (g := fun _ _ => pure 0)
      (fun _ _ _ => rfl) (fun hv hno => hu.step (.setSize _ _) _ hw (hc hv) (halts_eq_false hno)) hn
  | read =>
    exact Upheld.lookup hw (m := fun t i => fileRead (t.opentab i).file fsreq t.reqWord (t.fdOffset i)) hadvance
      (fun hv hno => hu.call hw (.read _ _ _ _) rfl (hc hv) hno) hn
  | write =>
    exact Upheld.lookup hw (m := fun t i => fileWrite (t.opentab i).file (fsreq + 8) t.reqWord (t.fdOffset i)) hadvance
      (fun hv hno => hu.call hw (.write _ _ _ _) rfl (hc hv) hno) hn
  | flush =>
    have hrun := lookup_run (g := fun t i => do
      let k ← Server.call (load16 ((t.opentab i).file + offInInd))
      Server.call (fileFlush (if k ≠ 0 then (t.opentab i).file else inodeVa 0))
      pure 0) s
    have hfinal : Quiet s.world (final serveFlush s).world := by
      unfold serveFlush
      by_cases hv : s.Valid s.reqFileid
      · rw [if_pos hv] at hrun
        rw [final_congr hrun]
        exact quiet_flush_call _ _ s
      · rw [if_neg hv] at hrun
        rw [final_error hrun]
        exact refl_of Quiet s.world
    exact hu.quiet _ _ hfinal hw
  | mkdir =>
    have hmk : (final serveMkdir s).world = final (fileCreate s.reqPath FTYPE_DIR) s.world := world_call fun _ _ => rfl
    change I (final serveMkdir s).world
    rw [hmk]
    exact hu.call hw (.create _ _) rfl hc fun hp => hn (panics_call hp)
  | remove =>
    have hrm : (final serveRemove s).world = final (fileRemove s.reqPath) s.world := world_call fun _ _ => rfl
    change I (final serveRemove s).world
    rw [hrm]
    exact hu.step (.remove _) _ hw hc (halts_eq_false fun hp => hn (panics_call hp))
  | sync =>
    have hsync : (final serveSync s).world = final fsSync s.world := world_call fun _ _ => rfl
    change I (final serveSync s).world
    rw [hsync]
    exact hu.step .sync _ hw hc (halts_eq_false fun hp => hn (panics_call hp))

end Upheld

end Rule

/-- What clients do: they send a request, map the `Fd` page of a row that they have at more or fewer
places, or store a seek position in it. -/
inductive Action where
  | request (r : Request) (page : Nat → UInt8)
  | share (i n : Nat)
  | seek (i : Nat) (offset : Int)

namespace Action

def step (rt : Nat) : Action → State → State
  | request r page, s => final (r.handler rt) (s.receive page)
  | share i n, s => if 1 < s.pageref i then { s with pageref := Function.update s.pageref i n } else s
  | seek i offset, s =>
    if 1 < s.pageref i then { s with fdOffset := Function.update s.fdOffset i offset } else s

def halts (rt : Nat) : Action → State → Bool
  | request r page, s =>
    match r.handler rt (s.receive page) with
    | .error (.panic _) _ => true
    | _ => false
  | _, _ => false

/-- Every file system call that the server makes on the request meets `C` where it is made. -/
def Meets (C : FileOp → World → Prop) : Action → State → Prop
  | request r page, s => r.Meets C (s.receive page)
  | _, _ => True

theorem Meets.and {C C' : FileOp → World → Prop} {a : Action} {s : State} (h : a.Meets C s) (h' : a.Meets C' s) :
    a.Meets (fun op w => C op w ∧ C' op w) s := by
  cases a with
  | request r page => exact Request.Meets.and h h'
  | share i n => trivial
  | seek i offset => trivial

theorem Meets.mono {C C' : FileOp → World → Prop} (hC : ∀ op w, C op w → C' op w) {a : Action} {s : State}
    (h : a.Meets C s) : a.Meets C' s := by
  cases a with
  | request r page => exact Request.Meets.mono hC h
  | share i n => trivial
  | seek i offset => trivial

theorem not_panics {rt : Nat} {r : Request} {page : Nat → UInt8} {s : State}
    (h : (request r page).halts rt s = false) : ¬Panics (r.handler rt) (s.receive page) := by
  intro hp
  obtain ⟨p, t, hp⟩ := hp
  rw [halts, hp] at h
  cases h

end Action

def traffic (rt : Nat) : Machine Action State where
  step := Action.step rt
  halts := Action.halts rt

/-- What the calls keep, and the arrival of a request, is kept by a run. -/
theorem Upheld.traffic {C : FileOp → World → Prop} {I : World → Prop} (hu : Upheld C I)
    (hfill : ∀ w page, I w → I (w.fill fsreq PGSIZE page)) {rt : Nat} {s : State} {as : List Action}
    (hs : I s.world) (hc : (traffic rt).Along (Action.Meets C) as s) (hl : (traffic rt).Survives as s) :
    I ((traffic rt).run as s).world := by
  refine Machine.run_survives (I := fun s => I s.world) (fun a s hI hmeets hlive => ?_) hs hc hl
  cases a with
  | request r page => exact hu.handler (hfill s.world page hI) hmeets (Action.not_panics hlive)
  | share i n =>
    change I (if 1 < s.pageref i then _ else s : State).world
    split
    · exact hI
    · exact hI
  | seek i offset =>
    change I (if 1 < s.pageref i then _ else s : State).world
    split
    · exact hI
    · exact hI

end DamnOS.Server
