import DamnOS.FileSystem.FailedCreate
import DamnOS.FileSystem.FailedWrite
import DamnOS.FileSystem.Removal

/-!
# Opening again

A path that leads to an entry leads there still after the file was created or truncated, unless the walk
passes the inode whose blocks were given up.
-/

namespace DamnOS.FileSystem

open DamnOS.Framework

namespace World

/-- The walk along `path` ends at the entry `e`, through directories of `P`. -/
def Reaches (w : World) (N : Nat) (P : Nat → Prop) (path : List UInt8) (e : Nat) : Prop :=
  path.head? = some slash ∧
    ∃ dir, w.TrailIn N P ((skipSlash path).length + 1) (skipSlash path) 0 0 0 dir e

/-- A file of this type can be made at `path`. -/
def CanMake (w : World) (path : List UInt8) (type : Nat) : Prop :=
  ∃ d name, w.foldPath path = .ok (.missing (inodeVa d) name) ∧ nameIsValid name = true ∧ w.CanCreate d type

end World

namespace PanicsOnly

instance store16 (a v : Nat) : PanicsOnly (store16 a v) where
  panic w e u hr := by
    rcases touch_cases a 2 w with ⟨t, ht, -⟩ | ⟨p, t, ht, -⟩
    · rw [FileSystem.store16, store, bind_ok ht] at hr
      cases hr
    · rw [FileSystem.store16, store, bind_error ht] at hr
      cases hr
      exact ⟨p, rfl⟩

instance attempt {α : Type} (m : M α) : PanicsOnly (attempt m) where
  panic _ _ _ hr := attempt_error hr

instance onlyIf {c : Prop} [Decidable c] (m : M Unit) [PanicsOnly m] : PanicsOnly (onlyIf c m) := by
  unfold FileSystem.onlyIf
  split_ifs <;> infer_instance

instance fileSetSize (f : Nat) (newsize : Int) : PanicsOnly (fileSetSize f newsize) := by
  unfold FileSystem.fileSetSize fileTruncateBlocks
  infer_instance

end PanicsOnly

theorem fileSetSize_null (newsize : Int) (w : World) : ∃ p v, fileSetSize 0 newsize w = .error (.panic p) v := by
  cases hr : fileSetSize 0 newsize w with
  | ok a v =>
    obtain ⟨_, _, -, h⟩ := bind_eq_ok hr
    obtain ⟨_, _, -, h⟩ := bind_eq_ok h
    obtain ⟨_, _, -, h⟩ := bind_eq_ok h
    obtain ⟨_, _, -, h⟩ := bind_eq_ok h
    rw [flushBlock, if_pos (Or.inl (by decide))] at h
    cases h
  | error x v =>
    obtain ⟨p, rfl⟩ := PanicsOnly.panic w x v hr
    exact ⟨p, v, rfl⟩

section Reaches

variable {N : Nat} {P : Nat → Prop} {w : World} (h : Sane N w) {path : List UInt8} {e : Nat}
  (hr : w.Reaches N P path e)

theorem Quiet.reaches {v : World} (hq : Quiet w v) (hr : w.Reaches N P path e) : v.Reaches N P path e :=
  ⟨hr.1, hr.2.imp fun _ ht => hq.trailIn ht⟩

include h hr

private theorem walkPath_reaches : ∃ dir v, Quiet w v ∧ walkPath path w = .ok (.found dir e) v := by
  obtain ⟨hs, dir, ht⟩ := hr
  obtain ⟨v, hq, hv⟩ := walkLoop_trail h h.pos ht
  refine ⟨dir, v, hq, ?_⟩
  rw [walkPath, if_pos hs]
  exact hv

theorem World.Reaches.fileOpen : ∃ v, Quiet w v ∧ fileOpen path w = .ok e v := by
  obtain ⟨dir, v, hq, hv⟩ := walkPath_reaches h hr
  exact ⟨v, hq, bind_ok hv⟩

theorem World.Reaches.fileCreate (type : Nat) : ∃ v, Quiet w v ∧
    fileCreate path type w = .error (.err .fileExists) v := by
  obtain ⟨dir, v, hq, hv⟩ := walkPath_reaches h hr
  exact ⟨v, hq, bind_ok hv⟩

/-- After truncation the path still leads to the entry, if it avoids the inode. -/
theorem World.Reaches.truncated (he : e ≠ 0) (hk : ∀ i, w.IsDir i → P i → i ≠ w.inInd e) :
    ∃ v, fileSetSize e 0 w = .ok () v ∧ Sane N v ∧ v.Reaches N P path e := by
  obtain ⟨hs, dir, ht⟩ := hr
  obtain ⟨-, hzero⟩ | ⟨d, hd, hin, hind⟩ := ht.last h.pos
  · exact absurd hzero he
  obtain ⟨t, -, -, hset, -⟩ := fileSetSize_entryIn h hd hin hind 0
  have hb := fileSetSize_beside h hind (hin.offMeta h hd) (hin.inMap h hd) 0
  rw [final_ok hset] at hb
  exact ⟨_, hset, hb.sane, hs, dir, hb.trailIn hk h.pos ht⟩

end Reaches

private theorem resolveFrom_ne_fileExists (w : World) (fuel : Nat) (path : List UInt8) (i dir entry : Nat) :
    w.resolveFrom fuel path i dir entry ≠ .error .fileExists := by
  induction fuel generalizing path i dir entry with
  | zero => simp [World.resolveFrom]
  | succ fuel ih =>
    rw [World.resolveFrom]
    cases w.lookup i (path.takeWhile (· != slash)) with
    | none =>
      dsimp only
      split_ifs <;> simp
    | some e =>
      dsimp only
      split_ifs with hnil hlen hd
      · simp
      · simp
      · exact ih _ _ _ _
      · simp

section Create

variable {N : Nat} {D : Nat → Prop} {w : World} (h : TidyIn N D w) {path : List UInt8} (h0 : (0 : UInt8) ∉ path)
include h h0

/-- A path that resolves leads to its entry through the inodes that it visits. -/
theorem TidyIn.reaches {dir e : Nat} (hr : w.resolve path = .ok (.found dir e)) :
    w.Reaches N (· ∈ w.visits path) path e := by
  unfold World.resolve at hr
  split_ifs at hr with hs
  exact ⟨hs, dir, h.trail_found _ (fun hm => h0 ((List.dropWhile_sublist _).subset hm)) (head_skipSlash _)
    h.root hr⟩

/-- The path of a new file leads to it, through directories that were there. -/
theorem fileCreate_reaches {v : World} {type e : Nat} (hrun : fileCreate path type w = .ok e v) :
    Sane N v ∧ v.Reaches N w.IsDir path e ∧ e ≠ 0 ∧ ¬w.IsDir (v.inInd e) := by
  obtain ⟨d, name, k, t, u, s, hs⟩ := fileCreate_stages h h0 hrun
  have hc := hs.created h h0
  refine ⟨hc.sane, ⟨slash_of_resolve hs.resolve, _, hs.trail h h0⟩, ?_, ?_⟩
  · have hmap := (hs.entered h h0).finds.entryIn.inMap hc.sane hs.dir.1
    simp only [DISKMAP] at hmap
    omega
  · rw [hs.inInd]
    exact (h.unused k hs.inode.1 hs.inode.2).1

private theorem fileCreate_decides {d : Nat} {name : List UInt8}
    (hr : w.resolve path = .ok (.missing (inodeVa d) name)) (hvalid : nameIsValid name = true) (type : Nat) :
    ∃ t, fileCreate path type w = createIn d name type t ∧
      (w.CanCreate d type ∧ (∃ e v, createIn d name type t = .ok e v) ∨
        ¬w.CanCreate d type ∧ ∃ x v, createIn d name type t = .error (.err x) v ∧ x ≠ .fileExists) := by
  obtain ⟨i, hi, hdir, -, he, -, -, hlen, -⟩ := resolve_placedIn h h0 hr
  obtain rfl := inodeVa_inj he
  obtain ⟨t, hq, hrun⟩ := fileCreate_createIn h h0 hr hvalid type
  have hcases := createIn_cases (hq.tidyIn h) hi ((hq.isDir d).mpr hdir) hlen type
    ((hq.isDir 0).mpr (root_of_missing hr))
  rw [World.Decides, hq.canCreate h.sane] at hcases
  refine ⟨t, hrun, ?_⟩
  rcases hcases with hc | ⟨hn, x, v, hfail, hx, -⟩
  · exact .inl hc
  · exact .inr ⟨hn, x, v, hfail, hx⟩

theorem fileCreate_ok_iff (type : Nat) : (∃ e v, fileCreate path type w = .ok e v) ↔ w.CanMake path type := by
  rw [World.CanMake, ← resolve_eq_foldPath w h0]
  constructor
  · rintro ⟨e, v, hrun⟩
    by_cases hex : ∃ dir name, w.resolve path = .ok (.missing dir name) ∧ nameIsValid name = true
    · obtain ⟨dir, name, hr, hvalid⟩ := hex
      obtain ⟨d, -, -, -, rfl, -⟩ := resolve_placedIn h h0 hr
      obtain ⟨t, ht, ⟨hc, -⟩ | ⟨-, x, u, hfail, -⟩⟩ := fileCreate_decides h h0 hr hvalid type
      · exact ⟨d, name, hr, hvalid, hc⟩
      · rw [ht, hfail] at hrun
        cases hrun
    · obtain ⟨x, u, hfail, -⟩ := fileCreate_refused h h0 type fun d name hr => by
        by_contra hvalid
        exact hex ⟨d, name, hr, by simpa using hvalid⟩
      rw [hfail] at hrun
      cases hrun
  · rintro ⟨d, name, hr, hvalid, hc⟩
    obtain ⟨t, ht, ⟨-, hok⟩ | ⟨hn, -⟩⟩ := fileCreate_decides h h0 hr hvalid type
    · rw [ht]
      exact hok
    · exact absurd hc hn

/-- `file_create` comes to an end; that the file exists is said of paths that resolve only. -/
theorem fileCreate_returns (type : Nat) : (∃ e v, fileCreate path type w = .ok e v) ∨
    ∃ x v, fileCreate path type w = .error (.err x) v ∧
      (x = .fileExists → ∃ dir e, w.resolve path = .ok (.found dir e)) := by
  cases hres : w.resolve path with
  | error x =>
    obtain ⟨t, -, ht⟩ := h.walkable.walkPath_run h0
    rw [hres] at ht
    refine .inr ⟨x, t, bind_error ht, ?_⟩
    rintro rfl
    unfold World.resolve at hres
    split_ifs at hres
    · exact absurd hres (resolveFrom_ne_fileExists w _ _ _ _ _)
    · cases hres
  | ok r =>
    cases r with
    | found dir e =>
      obtain ⟨v, -, hv⟩ := (h.reaches h0 hres).fileCreate h.sane type
      exact .inr ⟨_, v, hv, fun _ => ⟨dir, e, rfl⟩⟩
    | missing dir name =>
      obtain ⟨d, -, -, -, rfl, -⟩ := resolve_placedIn h h0 hres
      by_cases hvalid : nameIsValid name = true
      · obtain ⟨t, ht, ⟨-, hok⟩ | ⟨-, x, v, hfail, hx⟩⟩ := fileCreate_decides h h0 hres hvalid type
        · rw [ht]
          exact .inl hok
        · rw [ht]
          exact .inr ⟨x, v, hfail, fun he => absurd he hx⟩
      · obtain ⟨t, -, ht⟩ := h.walkable.walkPath_run h0
        rw [hres] at ht
        refine .inr ⟨.badName, t, (bind_ok ht).trans ?_, by simp⟩
        dsimp only
        rw [if_pos (by simpa using hvalid)]
        rfl

end Create

end DamnOS.FileSystem
