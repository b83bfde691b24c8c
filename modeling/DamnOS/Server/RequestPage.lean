import DamnOS.FileSystem.Buffers
import DamnOS.Server.Serve

/-!
# The request page

`serve_read` and `serve_write` hand the count of the request on to the file system, with a buffer
that ends where the super block is mapped.
-/

namespace DamnOS.Server

open DamnOS.Framework
open DamnOS.FileSystem

section Call

variable {α : Type} {m : M α} {s : State}

private theorem final_call_bind {β : Type} {f : α → S β} (hf : ∀ a t, (final (f a) t).world = t.world) :
    (final (call m >>= f) s).world = final m s.world := by
  cases hr : m s.world with
  | ok a w =>
    rw [final_ok hr, final_congr (bind_ok (call_ok hr)), hf]
  | error e w => rw [final_error hr, final_error (bind_error (call_error hr))]

end Call

private theorem openfileLookup_valid {s : State} {fileid : Nat} (h : s.Valid fileid) :
    openfileLookup fileid s = .ok (fileid % MAXOPEN) s := by
  rw [openfileLookup, bind_ok (get_run s), if_pos h]
  rfl

private theorem openfileLookup_invalid {s : State} {fileid : Nat} (h : ¬s.Valid fileid) :
    openfileLookup fileid s = .error (.err .inval) s := by
  rw [openfileLookup, bind_ok (get_run s), if_neg h]
  rfl

def State.reqFile (s : State) : OpenFile := s.opentab (s.reqFileid % MAXOPEN)
def State.reqOffset (s : State) : Int := s.fdOffset (s.reqFileid % MAXOPEN)

private theorem world_advance (s : State) (i : Nat) (r : Int) : (s.advance i r).world = s.world := by
  unfold State.advance
  split_ifs <;> rfl

private theorem serveRead_world {s : State} (h : s.Valid s.reqFileid) : (final serveRead s).world =
    final (fileRead s.reqFile.file fsreq s.reqWord s.reqOffset) s.world := by
  have hrun : serveRead s = (call (fileRead s.reqFile.file fsreq s.reqWord s.reqOffset) >>= fun r => do
      modify fun t => t.advance (s.reqFileid % MAXOPEN) r
      pure r : S Int) s := by
    rw [serveRead, bind_ok (get_run s), bind_ok (openfileLookup_valid h)]
    rfl
  rw [final_congr hrun]
  exact final_call_bind fun r t => world_advance t _ r

private theorem serveWrite_world {s : State} (h : s.Valid s.reqFileid) : (final serveWrite s).world =
    final (fileWrite s.reqFile.file (fsreq + 8) s.reqWord s.reqOffset) s.world := by
  have hrun : serveWrite s =
      (call (fileWrite s.reqFile.file (fsreq + 8) s.reqWord s.reqOffset) >>= fun r => do
        modify fun t => t.advance (s.reqFileid % MAXOPEN) r
        pure r : S Int) s := by
    rw [serveWrite, bind_ok (get_run s), bind_ok (openfileLookup_valid h)]
    rfl
  rw [final_congr hrun]
  exact final_call_bind fun r t => world_advance t _ r

private theorem serveRead_invalid {s : State} (h : ¬s.Valid s.reqFileid) : (final serveRead s).world = s.world := by
  have hrun : serveRead s = .error (.err .inval) s := by
    rw [serveRead, bind_ok (get_run s), bind_error (openfileLookup_invalid h)]
  rw [final_error hrun]

private theorem serveWrite_invalid {s : State} (h : ¬s.Valid s.reqFileid) :
    (final serveWrite s).world = s.world := by
  have hrun : serveWrite s = .error (.err .inval) s := by
    rw [serveWrite, bind_ok (get_run s), bind_error (openfileLookup_invalid h)]
  rw [final_error hrun]

/-- The copies of a handler keep to the request page, from its byte `lo` on. -/
def InPage (lo : Nat) (m : S Int) (s : State) : Prop :=
  WithinBuffer (fsreq + lo) (fsreq + PGSIZE) (newAccesses s.world (final m s).world)

/-- The open file of a request is an entry that the file system can work with. -/
structure FileOk (n : Nat) (s : State) : Prop where
  inode : s.world.inInd s.reqFile.file < n
  mapped : EntryMapped s.reqFile.file s.world
  offMeta : ∀ x, s.reqFile.file ≤ x → x < s.reqFile.file + DIRESIZE → OffMeta x

/-- A request keeps to its page exactly when the file id is invalid or the call does not overrun. -/
theorem inPage_iff (n : Nat) (s : State) (h : Sane n s.world)
    (hpage : s.world.present (fsreq / PGSIZE) = true) (hfile : s.Valid s.reqFileid → FileOk n s)
    (hlo : -2147483648 ≤ s.reqOffset) (hhi : s.reqOffset < 2147483648) :
    (InPage 0 serveRead s ↔ ¬(s.Valid s.reqFileid ∧ ReadOverruns s.world.cached
      (s.world.inInd s.reqFile.file) s.reqWord s.reqOffset)) ∧
    (InPage 8 serveWrite s ↔ ¬(s.Valid s.reqFileid ∧ WriteOverruns s.world.cached s.reqFile.file
      (s.world.inInd s.reqFile.file) s.reqWord s.reqOffset)) := by
  have hword : s.reqWord < 4294967296 := u32_lt _ _
  by_cases hv : s.Valid s.reqFileid
  swap
  · have hnone (t : State) (ht : t.world = s.world) (lo : Nat) :
        WithinBuffer (fsreq + lo) (fsreq + PGSIZE) (newAccesses s.world t.world) := by
      rw [ht, newAccesses_unlogged rfl]
      exact fun x hx => by cases hx
    exact ⟨iff_of_true (hnone _ (serveRead_invalid hv) 0) fun hc => hv hc.1,
      iff_of_true (hnone _ (serveWrite_invalid hv) 8) fun hc => hv hc.1⟩
  obtain ⟨hk, hm, hf⟩ := hfile hv
  simp only [hv, true_and]
  constructor
  · rw [InPage, serveRead_world hv]
    refine fileRead_within_iff h hk hm hlo hword (by decide) fun p hp => ?_
    have he : p = fsreq / PGSIZE := pagesOf_within (by decide) (by decide) p hp
    rwa [he]
  · rw [InPage, serveWrite_world hv]
    refine fileWrite_within_iff h hk hm hlo hhi hword hf (by decide) fun p hp => ?_
    have he : p = fsreq / PGSIZE := pagesOf_within (by decide) (by decide) p hp
    rwa [he]

/-- A server with the file `/a` of 8192 bytes, all of them unwritten, open under the id 1024, and a
request for `count` bytes of it at offset 0. -/
def bigFile (count : UInt8 × UInt8) : State where
  world := server.run [.create [47, 97] FTYPE_REG, .setSize (blockVa 2) 8192,
    .caller fsreq [0, 4, 0, 0, count.1, count.2, 0, 0]] (mount (freshDisk 4 1))
  opentab _ := ⟨1024, blockVa 2, 0, 1⟩
  pageref _ := 2
  fdOffset _ := 0

private theorem sane_bigFile (count : UInt8 × UInt8) (hc : count = (0, 16) ∨ count = (0, 32)) :
    Sane 4 (bigFile count).world := by
  have hs (c : UInt8 × UInt8) (h0 : (bigFile c).world.blkOcp 0 = true)
      (h1 : (bigFile c).world.blkOcp 1 = true) (hn : (bigFile c).world.blkNum ≤ MAXBLKNUM)
      (ho : OwnedBlocks 4 (bigFile c).world) : (bigFile c).world.cached.Owned 4 :=
    (soundImage_iff (by decide)).mp ⟨h0, h1, hn, ho⟩
  rcases hc with rfl | rfl
  · exact ⟨⟨by decide +kernel, by decide +kernel⟩, by decide +kernel, by decide, by decide,
      hs _ (by decide +kernel) (by decide +kernel) (by decide +kernel)
        (OwnedBlocks.of_filled [(0, 0)] (by decide +kernel) (by decide +kernel) (by decide +kernel))⟩
  · exact ⟨⟨by decide +kernel, by decide +kernel⟩, by decide +kernel, by decide, by decide,
      hs _ (by decide +kernel) (by decide +kernel) (by decide +kernel)
        (OwnedBlocks.of_filled [(0, 0)] (by decide +kernel) (by decide +kernel) (by decide +kernel))⟩

private theorem fileOk_bigFile (count : UInt8 × UInt8) (hc : count = (0, 16) ∨ count = (0, 32)) :
    FileOk 4 (bigFile count) := by
  rcases hc with rfl | rfl
  · refine ⟨by decide +kernel, ?_, offMeta_blockTwo⟩
    change ∀ p ∈ pagesOf (blockVa 2 + offInInd) 2, (bigFile (0, 16)).world.present p = true
    decide +kernel
  · refine ⟨by decide +kernel, ?_, offMeta_blockTwo⟩
    change ∀ p ∈ pagesOf (blockVa 2 + offInInd) 2, (bigFile (0, 32)).world.present p = true
    decide +kernel

/-- A read of a whole page keeps to the page. -/
theorem inPage_read_page : InPage 0 serveRead (bigFile (0, 16)) := by
  refine (inPage_iff 4 _ (sane_bigFile _ (Or.inl rfl)) (by decide +kernel)
    (fun _ => fileOk_bigFile _ (Or.inl rfl)) (by decide) (by decide)).1.mpr fun hc => ?_
  have hmin := hc.2.1
  have hword : (bigFile (0, 16)).reqWord = 4096 := by decide +kernel
  omega

/-- A read of two pages is copied over the super block. -/
theorem inPage_lost_read : ¬∀ (n : Nat) (s : State), Sane n s.world →
    s.world.present (fsreq / PGSIZE) = true → (s.Valid s.reqFileid → FileOk n s) →
      -2147483648 ≤ s.reqOffset → s.reqOffset < 2147483648 →
        InPage 0 serveRead s ∧ InPage 8 serveWrite s := by
  intro h
  have hin := (h 4 (bigFile (0, 32)) (sane_bigFile _ (Or.inr rfl)) (by decide +kernel)
    (fun _ => fileOk_bigFile _ (Or.inr rfl)) (by decide) (by decide)).1
  obtain ⟨hk, hm, -⟩ := fileOk_bigFile (0, 32) (Or.inr rfl)
  have hword : (bigFile (0, 32)).reqWord = 8192 := by decide +kernel
  rw [InPage, serveRead_world (by decide +kernel), Nat.add_zero,
    show fsreq + PGSIZE = fsreq + 4096 from rfl,
    fileRead_within_iff (sane_bigFile _ (Or.inr rfl)) hk hm (by decide) (by omega) (by decide)
      (by decide +kernel)] at hin
  exact hin ⟨by decide +kernel, Or.inl (by decide), by decide +kernel, Or.inr (by decide +kernel)⟩

end DamnOS.Server
