import DamnOS.Server.Calls
import DamnOS.Programs.Files
import DamnOS.FileSystem.EmptyDirectory

/-!
# Lookups that change nothing

`dir_lookup` takes the blocks of a directory from `file_get_block`, which allocates what it does not find.
It finds all of them as long as no directory loses blocks.
-/

namespace DamnOS.Server

open DamnOS.Framework
open DamnOS.FileSystem

/-- The directories that walks from the root can come to are in order. -/
def Consistent (N : Nat) (w : World) : Prop := ∃ D, InOrder N D w

/-- Careful calls.  A file may also be read through an entry outside the directories, as the root is. -/
def Tame (N : Nat) : FileOp → World → Prop
  | .read f buf count offset, w => Apart buf count ∧ w.inInd f < N ∧ w.cached.inOcp (w.inInd f) = true ∧
      (w.IsDir (w.inInd f) → 0 ≤ offset ∧ ∀ p : Nat, offset ≤ p → (p : Int) < offset + count →
        p < (w.cached.inode (w.inInd f)).size → w.cached.slot (w.inInd f) (p / BLKSIZE) ≠ 0)
  | op, w => op.Careful N w

theorem tame_persists {N : Nat} {D : Nat → Prop} {op : FileOp} {w : World} (h : InOrder N D w)
    (hc : Tame N op w) (hl : op.halts w = false) :
    ∃ D', Persists N D D' (fun i f => op.Takes w i f) w (server.step op w) := by
  cases op with
  | read f buf count offset =>
    obtain ⟨hbuf, hk, ho, hdir⟩ := hc
    have hfinal : server.step (.read f buf count offset) w = final (fileRead f buf count offset) w :=
      final_bind_pure _ _ w
    rw [hfinal]
    exact ⟨D, (fileRead_stands h hk ho hbuf hdir).persists h _⟩
  | create path type => exact careful_persists h hc hl
  | remove path => exact careful_persists h hc hl
  | «open» path => exact careful_persists h hc hl
  | write f buf count offset => exact careful_persists h hc hl
  | setSize f newsize => exact careful_persists h hc hl
  | flush f => exact careful_persists h hc hl
  | sync => exact careful_persists h hc hl
  | caller buf bytes => exact careful_persists h hc hl

theorem apart_fsreq : Apart fsreq PGSIZE := by decide

private theorem tame_upheld (N : Nat) : Upheld (Tame N) (Consistent N) where
  quiet w v hq h := by
    obtain ⟨D, hD⟩ := h
    exact ⟨D, hD.stands (.of_quiet hD.sane hq)⟩
  step op w h hc hl := by
    obtain ⟨D, hD⟩ := h
    obtain ⟨D', hp⟩ := tame_persists hD hc hl
    exact ⟨D', hp.inOrder⟩

theorem Consistent.fill {N : Nat} {w : World} (h : Consistent N w) (page : Nat → UInt8) :
    Consistent N (w.fill fsreq PGSIZE page) := by
  obtain ⟨D, hD⟩ := h
  exact ⟨D, hD.stands (stands_fill hD page apart_fsreq)⟩

/-- In a consistent state `file_open` leaves every block of the image as it is. -/
theorem Consistent.fileOpen {N : Nat} {w : World} (h : Consistent N w) {path : List UInt8}
    (h0 : (0 : UInt8) ∉ path) : (final (fileOpen path) w).block = w.block := by
  obtain ⟨D, hD⟩ := h
  obtain ⟨v, hq, hv⟩ := hD.walkable.fileOpen_run h0
  have hend : final (FileSystem.fileOpen path) w = v := by
    cases ho : w.openEntry path with
    | ok e =>
      rw [ho] at hv
      exact final_ok hv
    | error x =>
      rw [ho] at hv
      exact final_error hv
  rw [hend]
  exact block_of_byte hq.byte

/-- After every run of requests whose calls are tame, looking up any path leaves the bitmaps, the inode
table and the data blocks unchanged. -/
theorem lookup_read_only {rt N : Nat} {s : State} {as : List Action} (h : Consistent N s.world)
    (hc : (traffic rt).Along (Action.Meets (Tame N)) as s) (hl : (traffic rt).Survives as s)
    {path : List UInt8} (h0 : (0 : UInt8) ∉ path) :
    (final (fileOpen path) ((traffic rt).run as s).world).block = ((traffic rt).run as s).world.block :=
  ((tame_upheld N).traffic (fun _ page hw => hw.fill page) h hc hl).fileOpen h0

/-- A client creates `/a` on a fresh server. -/
def createA : Action := .request .open (Programs.openPage (fun _ => 0) [47, 97] O_CREAT)

theorem consistent_fresh : Consistent 4 (mount (freshDisk 4 1)) := ⟨_, formatted_fresh.inOrder⟩

theorem createA_meets {C : FileOp → World → Prop} (hcreate : C (.create [47, 97] FTYPE_REG)
      ((mount (freshDisk 4 1)).fill fsreq PGSIZE (Programs.openPage (fun _ => 0) [47, 97] O_CREAT)))
    (hopen : ∀ w, C (.open [47, 97]) w) : createA.Meets C (State.init (mount (freshDisk 4 1))) := by
  change Request.open.Meets C ((State.init (mount (freshDisk 4 1))).receive _)
  generalize hs : (State.init (mount (freshDisk 4 1))).receive
    (Programs.openPage (fun _ => 0) [47, 97] O_CREAT) = s
  have hpath : s.reqPath = [47, 97] := by
    rw [← hs]
    decide +kernel
  have hwants : s.wants O_MKDIR = false ∧ s.wants O_CREAT = true ∧ s.wants O_TRUNC = false := by
    rw [← hs]
    decide +kernel
  obtain ⟨hmkdir, hcreat, htrunc⟩ := hwants
  have hnot : ¬s.wants O_MKDIR = true := by simp [hmkdir]
  have hworld : s.world = (mount (freshDisk 4 1)).fill fsreq PGSIZE
      (Programs.openPage (fun _ => 0) [47, 97] O_CREAT) := by
    rw [← hs]
    rfl
  refine ⟨fun h => absurd h hnot, fun f w hrun => ?_⟩
  rw [mkdirCall, if_neg hnot] at hrun
  cases hrun
  change openMeets C s.reqPath (s.wants O_CREAT) (s.wants O_EXCL) (s.wants O_TRUNC) s.world
  rw [hpath, hcreat, htrunc, hworld]
  exact ⟨⟨hcreate, fun _ _ => hopen _⟩, fun f v _ => hopen v⟩

theorem create_tame : Tame 4 (.create [47, 97] FTYPE_REG)
    ((mount (freshDisk 4 1)).fill fsreq PGSIZE (Programs.openPage (fun _ => 0) [47, 97] O_CREAT)) := by
  refine ⟨by decide, fun d name hr _ => ?_⟩
  have hresolve : ((mount (freshDisk 4 1)).fill fsreq PGSIZE
      (Programs.openPage (fun _ => 0) [47, 97] O_CREAT)).resolve [47, 97] =
        .ok (.missing (inodeVa 0) [97]) := by decide +kernel
  rw [hresolve] at hr
  simp only [Except.ok.injEq, Walk.missing.injEq] at hr
  obtain rfl := inodeVa_inj hr.1
  refine ⟨by decide +kernel, fun b hb => ?_⟩
  have hnone (w : World) : w.startBlock FTYPE_REG = none := if_neg (by decide)
  rw [hnone] at hb
  cases hb

theorem open_tame (w : World) : Tame 4 (.open [47, 97]) w := by
  change (0 : UInt8) ∉ [47, 97]
  decide

theorem createA_tame : createA.Meets (Tame 4) (State.init (mount (freshDisk 4 1))) :=
  createA_meets create_tame open_tame

theorem lookup_read_only_createA : Consistent 4 (mount (freshDisk 4 1)) ∧
    (final (fileOpen [47, 97]) ((traffic 4096).run [createA] (State.init (mount (freshDisk 4 1)))).world).block =
      ((traffic 4096).run [createA] (State.init (mount (freshDisk 4 1)))).world.block := by
  have hc : (traffic 4096).Along (Action.Meets (Tame 4)) [createA] (State.init (mount (freshDisk 4 1))) :=
    ⟨createA_tame, fun _ => trivial⟩
  have hl : (traffic 4096).Survives [createA] (State.init (mount (freshDisk 4 1))) :=
    ⟨by decide +kernel, trivial⟩
  exact ⟨consistent_fresh, lookup_read_only consistent_fresh hc hl (by decide)⟩

/-- `/a` is made and truncated by one request. -/
def mkdirTrunc : Action := .request .open (Programs.openPage (fun _ => 0) [47, 97] (O_MKDIR + O_TRUNC))

/-- Looking up `/a/x` then allocates a block. -/
theorem lookup_allocates : ¬∀ (rt N : Nat) (s : State) (as : List Action) (path : List UInt8),
    Consistent N s.world → (traffic rt).Survives as s → (0 : UInt8) ∉ path →
      (final (fileOpen path) ((traffic rt).run as s).world).block = ((traffic rt).run as s).world.block := by
  intro hall
  have hblock := hall 4096 4 (State.init (mount (freshDisk 4 1))) [mkdirTrunc] [47, 97, 47, 120]
    consistent_fresh ⟨by decide +kernel, trivial⟩ (by decide)
  -- the first byte of the block bitmap
  have hbyte := congrFun (congrFun hblock 0) offBlkOcp
  revert hbyte
  decide +kernel

end DamnOS.Server
