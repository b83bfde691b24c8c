import DamnOS.Framework.References
import DamnOS.Kernel.Env
import DamnOS.Server.Serve

/-!
# The table of open files

The file server learns from the reference count of an `Fd` page whether clients have the file open.
Clients map these pages at descriptors, duplicate them, hand them to children and drop them without
telling the server.
-/

namespace DamnOS.Server

open DamnOS.Framework
open DamnOS.FileSystem

/-- File ids and reference counts are the same. -/
structure SameRows (s t : State) : Prop where
  fileid : ∀ i, (t.opentab i).fileid = (s.opentab i).fileid
  pageref : t.pageref = s.pageref

instance : IsPreorder State SameRows where
  refl _ := ⟨fun _ => rfl, rfl⟩
  trans _ _ _ h h' := ⟨fun i => (h'.fileid i).trans (h.fileid i), h'.pageref.trans h.pageref⟩

instance sameRows_call {α : Type} (m : M α) : Keeps SameRows (call m) where
  final s := by
    unfold final call
    cases m s.world with
    | ok a w => exact ⟨fun _ => rfl, rfl⟩
    | error e w => exact ⟨fun _ => rfl, rfl⟩

instance sameRows_openfileLookup (fileid : Nat) : Keeps SameRows (openfileLookup fileid) := by
  unfold openfileLookup
  infer_instance

instance sameRows_advance (i : Nat) (r : Int) : Keeps SameRows (modify fun t => t.advance i r : S Unit) := by
  refine Keeps.change fun s => ?_
  unfold State.advance
  split
  · exact ⟨fun _ => rfl, rfl⟩
  · exact ⟨fun _ => rfl, rfl⟩

theorem sameRows_handler (rt : Nat) {r : Request} (hr : r ≠ .open) : Keeps SameRows (r.handler rt) := by
  cases r with
  | «open» => exact absurd rfl hr
  | setSize =>
    unfold Request.handler serveSetSize
    infer_instance
  | read =>
    unfold Request.handler serveRead
    infer_instance
  | write =>
    unfold Request.handler serveWrite
    infer_instance
  | flush =>
    unfold Request.handler serveFlush
    infer_instance
  | mkdir =>
    unfold Request.handler serveMkdir
    infer_instance
  | remove =>
    unfold Request.handler serveRemove
    infer_instance
  | sync =>
    unfold Request.handler serveSync
    infer_instance

def State.freeRow (s : State) : Option Nat := (List.range MAXOPEN).find? fun i => s.pageref i ≤ 1

theorem State.freeRow_some {s : State} {i : Nat} (h : s.freeRow = some i) :
    i < MAXOPEN ∧ s.pageref i ≤ 1 := by
  have hm := List.mem_of_find?_eq_some h
  have ht := List.find?_some h
  exact ⟨List.mem_range.mp hm, by simpa using ht⟩

theorem State.freeRow_none {s : State} (h : s.freeRow = none) {i : Nat} (hi : i < MAXOPEN) :
    ¬s.pageref i ≤ 1 := by
  unfold State.freeRow at h
  rw [List.find?_eq_none] at h
  have hno := h i (List.mem_range.mpr hi)
  simpa only [decide_eq_true_eq] using hno

theorem openfileAlloc_row {s : State} {i : Nat} (h : s.freeRow = some i) :
    openfileAlloc s = .ok i (s.take i) := by
  have hfind : (List.range MAXOPEN).find? (fun i => s.pageref i ≤ 1) = some i := h
  rw [openfileAlloc, bind_ok (get_run s), hfind]
  rfl

theorem openfileAlloc_none {s : State} (h : s.freeRow = none) :
    openfileAlloc s = .error (.err .maxOpen) s := by
  have hfind : (List.range MAXOPEN).find? (fun i => s.pageref i ≤ 1) = none := h
  rw [openfileAlloc, bind_ok (get_run s), hfind]
  rfl

theorem freeRow_congr {s t : State} (h : SameRows s t) : t.freeRow = s.freeRow := by
  rw [State.freeRow, State.freeRow, h.pageref]

/-- Whether `serve_open` hands out row `i`, and what becomes of the rows. -/
inductive Opened (i : Nat) (s : State) : EStateM.Result Exc State Int → Prop
  | refused {e : Exc} {t : State} : SameRows s t → Opened i s (.error e t)
  | failed {r : Int} {t : State} : r ≠ 0 → SameRows s t → Opened i s (.ok r t)
  | handed {t : State} (f mode : Nat) : SameRows s t → Opened i s (.ok 0 (t.give i f mode))

theorem Opened.congr {i : Nat} {s t : State} {r : EStateM.Result Exc State Int} (h : SameRows s t)
    (ho : Opened i t r) : Opened i s r := by
  cases ho with
  | refused ht => exact .refused (trans_of SameRows h ht)
  | failed hr ht => exact .failed hr (trans_of SameRows h ht)
  | handed f mode ht => exact .handed f mode (trans_of SameRows h ht)

private theorem openAt_end (rt : Nat) (path : List UInt8) (i mode : Nat) (s : State) : Opened i s ((do
    let f ← call (fileOpen path)
    modify fun t => t.give i (if f = 0 then rt else f) mode
    pure 0 : S Int) s) := by
  cases hr : call (fileOpen path) s with
  | error e t =>
    rw [bind_error hr]
    exact .refused (Keeps.of_error hr)
  | ok f t =>
    rw [bind_ok hr]
    exact .handed _ _ (Keeps.of_ok hr)

private theorem openAt_opened (rt : Nat) (path : List UInt8) (i : Nat) (s : State) :
    Opened i s (openAt rt path i s) := by
  unfold openAt
  rw [bind_ok (get_run s)]
  by_cases hneg : toS32 (s.opentab i).fileid < 0
  · rw [if_pos hneg]
    exact .failed (by omega) (refl_of SameRows s)
  rw [if_neg hneg]
  cases hr : call (openOrCreate path (s.wants O_CREAT) (s.wants O_EXCL)) s with
  | error e t =>
    rw [bind_error hr]
    exact .refused (Keeps.of_error hr)
  | ok f t =>
    rw [bind_ok hr]
    refine Opened.congr (Keeps.of_ok hr) ?_
    dsimp only
    split
    · cases hs : call (fileSetSize f 0) t with
      | error e u =>
        rw [bind_error hs]
        exact .refused (Keeps.of_error hs)
      | ok _ u =>
        rw [bind_ok hs]
        exact Opened.congr (Keeps.of_ok hs) (openAt_end rt path i s.reqOmode u)
    · exact openAt_end rt path i s.reqOmode t

/-- `serve_open` fails before it takes a row, or opens at the free row. -/
theorem serveOpen_opened (rt : Nat) (s : State) :
    (SameRows s (final (serveOpen rt) s) ∧ value (serveOpen rt) s ≠ some 0) ∨
      ∃ i t, s.freeRow = some i ∧ SameRows s t ∧ Opened i (t.take i) (serveOpen rt s) := by
  unfold serveOpen value final
  rw [bind_ok (get_run s)]
  cases hr : call (if s.wants O_MKDIR then attempt (fileCreate s.reqPath FTYPE_DIR) else pure (.ok 0)) s with
  | error e t =>
    rw [bind_error hr]
    exact Or.inl ⟨Keeps.of_error hr, by simp⟩
  | ok r t =>
    have ht : SameRows s t := Keeps.of_ok hr
    rw [bind_ok hr]
    cases r with
    | error e => exact Or.inl ⟨ht, by simp⟩
    | ok f =>
      dsimp only
      cases hf : t.freeRow with
      | none =>
        rw [bind_error (openfileAlloc_none hf)]
        exact Or.inl ⟨ht, by simp⟩
      | some i =>
        rw [bind_ok (openfileAlloc_row hf)]
        rw [freeRow_congr ht] at hf
        exact Or.inr ⟨i, t, hf, ht, openAt_opened rt s.reqPath i (t.take i)⟩

/-- A successful open: the row, its file id, which allocation of the row it was, and a number of its
own. -/
structure Open where
  slot : Nat
  fileid : Nat
  alloc : Nat
  serial : Nat
  deriving DecidableEq

/-- The server, and what its clients have mapped.  The last two fields are kept for the statements:
all opens so far, and how often each row was allocated. -/
structure System (π : Type) where
  server : State
  fds : π → Option Open
  opens : List Open
  allocs : Nat → Nat

namespace State

def receive (s : State) (page : Nat → UInt8) : State :=
  { s with world := s.world.fill fsreq PGSIZE page }

/-- `pp_ref` of the `Fd` page of a row, a sixteen-bit number, when the page is mapped once more. -/
def ref (s : State) (i : Nat) : State :=
  { s with pageref := Function.update s.pageref i ((s.pageref i + 1) % 65536) }

/-- And when what was mapped at a descriptor is dropped. -/
def unref (s : State) : Option Open → State
  | none => s
  | some o => { s with pageref := Function.update s.pageref o.slot ((s.pageref o.slot + 65535) % 65536) }

def init (w : World) : State where
  world := w
  opentab i := ⟨i, 0, 0, 0⟩
  pageref _ := 0
  fdOffset _ := 0

end State

/-- What clients do.  `map` is one step of `dup`, of the loop of `fork` or of `copy_shared_pages`, and
`unmap` one of `close` or of the end of an environment; `request` is any request but an open. -/
inductive Event (π : Type) where
  | open (x : π) (page : Nat → UInt8)
  | request (r : Request) (hr : r ≠ .open) (page : Nat → UInt8)
  | map (x y : π)
  | unmap (x : π)

namespace System

variable {π : Type} [DecidableEq π]

def init (w : World) : System π := ⟨State.init w, fun _ => none, [], fun _ => 0⟩

def Live (s : System π) (o : Open) : Prop := ∃ x, s.fds x = some o

/-- The rows whose pages the clients have mapped. -/
def rows (s : System π) (x : π) : Option Nat := (s.fds x).map Open.slot

/-- The counts of allocations when the server has come to `t`; an allocation shows in the file id. -/
def allocated (s : System π) (t : State) (i : Nat) : Nat :=
  if (t.opentab i).fileid = (s.server.opentab i).fileid then s.allocs i else s.allocs i + 1

/-- The reply of a successful open: the client has the `Fd` page of row `i` at `x`. -/
def hand (s : System π) (t : State) (i : Nat) (x : π) : System π where
  server := t.unref (s.fds x)
  fds := Function.update s.fds x (some ⟨i, (t.opentab i).fileid, s.allocated t i, s.opens.length⟩)
  opens := ⟨i, (t.opentab i).fileid, s.allocated t i, s.opens.length⟩ :: s.opens
  allocs := s.allocated t

def step (rt : Nat) : Event π → System π → System π
  | .open x page, s =>
    match value (serveOpen rt) (s.server.receive page), s.server.freeRow with
    | some 0, some i => s.hand (final (serveOpen rt) (s.server.receive page)) i x
    | _, _ => { s with
        server := final (serveOpen rt) (s.server.receive page)
        allocs := s.allocated (final (serveOpen rt) (s.server.receive page)) }
  | .request r _ page, s => { s with server := final (r.handler rt) (s.server.receive page) }
  | .map x y, s =>
    match s.fds x with
    | none => s
    | some o => { s with
        server := (s.server.ref o.slot).unref (s.fds y)
        fds := Function.update s.fds y (some o) }
  | .unmap x, s => { s with server := s.server.unref (s.fds x), fds := Function.update s.fds x none }

def halts (rt : Nat) : Event π → System π → Bool
  | .open _ page, s =>
    match serveOpen rt (s.server.receive page) with
    | .error (.panic _) _ => true
    | _ => false
  | .request r _ page, s =>
    match r.handler rt (s.server.receive page) with
    | .error (.panic _) _ => true
    | _ => false
  | _, _ => false

end System

def clients (π : Type) [DecidableEq π] (rt : Nat) : Machine (Event π) (System π) where
  step := System.step rt
  halts := System.halts rt

end DamnOS.Server
