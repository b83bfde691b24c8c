import DamnOS.FileSystem.Namespace
import DamnOS.Programs.Cd

/-!
# Where `cd` ends

`cd` asks whether the working directory is one before it goes on, not after.  The name it has entered last is never
looked at, and of a file in the middle of the argument it returns what `stat` returned.
-/

namespace DamnOS.Programs

open DamnOS.Framework
open DamnOS.FileSystem

section Directories

variable {w : World}

private theorem walk_append_found {names rest : List (List UInt8)} {i dir e dir' e' : Nat} (hi : w.inodeBehind e = i)
    (h : w.walk (names ++ rest) i dir e = .ok (.found dir' e')) : ∃ d f,
      w.walk names i dir e = .ok (.found d f) ∧ w.walk rest (w.inodeBehind f) d f = .ok (.found dir' e') := by
  induction names generalizing i dir e with
  | nil =>
    refine ⟨dir, e, rfl, ?_⟩
    rw [hi]
    exact h
  | cons n names ih =>
    obtain ⟨hlen, hd, f, hl, hr⟩ := walk_cons_found h
    have hf : w.inodeBehind f = w.inInd f := by
      refine if_neg ?_
      -- entries lie above the disk map
      have hmem := List.mem_of_find?_eq_some hl
      obtain ⟨j, -, s, -, rfl⟩ := mem_entries.mp hmem
      simp only [blockVa, DISKMAP]
      omega
    rw [walk_step names dir e hlen hd hl]
    exact ih hf hr

private theorem inodeAt_eq_ok {path : List UInt8} {i : Nat} : inodeAt w path = .ok i ↔
    ∃ d e, w.resolve path = .ok (.found d e) ∧ w.inodeBehind e = i := by
  unfold inodeAt World.inodeBehind
  cases w.resolve path with
  | error e => simp
  | ok r => cases r <;> simp

theorem HasDir.head {path : List UInt8} (h : HasDir w path) : path.head? = some slash := by
  obtain ⟨i, hi, -⟩ := h
  obtain ⟨d, e, hr, -⟩ := inodeAt_eq_ok.mp hi
  exact slash_of_resolve hr

theorem HasDir.above {path path' : List UInt8} (h : HasDir w path) (hs : path'.head? = some slash)
    {rest : List (List UInt8)} (hc : parts path = parts path' ++ rest) : HasDir w path' := by
  have hhead := h.head
  obtain ⟨i, hi, hdir⟩ := h
  obtain ⟨d, e, hr, rfl⟩ := inodeAt_eq_ok.mp hi
  rw [resolve_eq_parts w hhead, hc] at hr
  obtain ⟨d', f, hpath, hrest⟩ := walk_append_found (if_pos rfl) hr
  refine ⟨w.inodeBehind f, inodeAt_eq_ok.mpr ⟨d', f, ?_, rfl⟩, ?_⟩
  · rw [resolve_eq_parts w hs, hpath]
  · cases rest with
    | nil =>
      cases hrest
      exact hdir
    | cons n rest => exact (walk_cons_found hrest).2.1

theorem HasDir.root {path : List UInt8} (h : HasDir w path) : HasDir w [slash] :=
  @HasDir.above w path [slash] h rfl (parts path) rfl

theorem lastSlash_spec (curpath : List UInt8) {n : Nat} (hn : 1 ≤ n) : 1 ≤ lastSlash curpath n ∧
    (curpath.getD (lastSlash curpath n) 0 = slash ∨ lastSlash curpath n = 1) := by
  induction n with
  | zero => omega
  | succ n ih =>
    rw [lastSlash]
    split_ifs with hc
    · exact ih (by omega)
    · by_cases hs : curpath.getD (n + 1) 0 = slash
      · exact ⟨hn, Or.inl hs⟩
      · refine ⟨hn, Or.inr ?_⟩
        by_contra hne
        exact hc ⟨hs, by omega⟩

theorem HasDir.up {curpath : List UInt8} (h : HasDir w curpath) (hroot : curpath ≠ [slash]) :
    HasDir w (updateCurpath curpath [] (-1)) := by
  have hhead := h.head
  rw [updateCurpath, if_neg (by decide)]
  obtain ⟨c, cs, rfl⟩ : ∃ c cs, curpath = slash :: c :: cs := by
    cases curpath with
    | nil => cases hhead
    | cons x xs =>
      obtain rfl : x = slash := by simpa using hhead
      cases xs with
      | nil => exact absurd rfl hroot
      | cons c cs => exact ⟨c, cs, rfl⟩
  obtain ⟨hpos, hlast⟩ := lastSlash_spec (slash :: c :: cs) (show 1 ≤ (slash :: c :: cs).length - 1 by simp)
  have hle := Shell.lastSlash_le (slash :: c :: cs) ((slash :: c :: cs).length - 1)
  generalize lastSlash (slash :: c :: cs) ((slash :: c :: cs).length - 1) = i at *
  have hstart : ((slash :: c :: cs).take i).head? = some slash := by
    obtain ⟨j, rfl⟩ := Nat.exists_eq_succ_of_ne_zero (Nat.ne_of_gt hpos)
    rfl
  rcases hlast with hs | rfl
  · refine @HasDir.above w _ _ h hstart (parts ((slash :: c :: cs).drop (i + 1))) ?_
    have hlt : i < (slash :: c :: cs).length := by
      simp only [List.length_cons] at hle ⊢
      omega
    rw [List.getD_eq_getElem _ _ hlt] at hs
    have hcut := List.take_append_drop i (slash :: c :: cs)
    rw [List.drop_eq_getElem_cons hlt, hs] at hcut
    rw [← parts_append, hcut]
  · exact h.root

end Directories

namespace Shell

/-- Calls that fail for reasons of their own, with the negative value that they return. -/
structure Trouble where
  stat : Nat → Option Nat
  opens : Nat → Option Nat

/-- `stat(curpath)`, `open(curpath)` and the search for `target` among the entries. -/
def looks (w : World) (t : Trouble) (k : Nat) (curpath target : List UInt8) : Look :=
  match t.stat k with
  | some r => .refused r
  | none =>
    if MAXPATHLEN ≤ curpath.length then .refused (Err.badPath.code - 1) else
    match inodeAt w curpath with
    | .error e => .refused (e.code - 1)
    | .ok i =>
      if ¬w.IsDir i then .file else
      match t.opens k with
      | some r => .refused r
      | none => if target ∈ w.records i then .listed else .unlisted

/-- Nothing is said about the working directory: the argument is at its end, or `cd` finds a file and returns what
`stat` returned. -/
def Unnoticed (look : Nat → List UInt8 → List UInt8 → Look) (k : Nat) (curpath : List UInt8)
    (rest : List (List UInt8)) : Prop :=
  rest = [] ∨ rest = [[]] ∨
    ∃ name names, rest = name :: names ∧ name ≠ [] ∧ name.length ≤ MAXNAMELEN ∧ look k curpath name = .file

/-- Where nothing else goes wrong and every store stays inside its array, this is `cd` on strings alone. -/
theorem cd_strings {w : World} {t : Trouble} (ht : t = ⟨fun _ => none, fun _ => none⟩) (fuel k : Nat)
    (curpath path : List UInt8) (h : ∀ s ∈ (cd (looks w t) fuel k curpath path).stores, s.Inside) :
    Programs.cd w fuel curpath path =
      ((cd (looks w t) fuel k curpath path).curpath, (cd (looks w t) fuel k curpath path).value) := by
  induction fuel generalizing k curpath path with
  | zero => rfl
  | succ fuel ih =>
    rw [cd] at h ⊢
    rw [Programs.cd]
    by_cases hnil : path = []
    · rw [if_pos hnil, if_pos hnil]
    rw [if_neg hnil] at h ⊢
    rw [if_neg hnil]
    dsimp only at h ⊢
    generalize (if path.head? = some slash then path.tail else path).takeWhile (· != slash) = target at *
    generalize (if path.head? = some slash then path.tail else path).dropWhile (· != slash) = rest at *
    by_cases hend : rest = [] ∧ target = []
    · rw [if_pos hend, if_pos hend]
    rw [if_neg hend] at h ⊢
    rw [if_neg hend]
    by_cases hlong : MAXNAMELEN < target.length
    · rw [if_pos hlong, if_pos hlong]
    rw [if_neg hlong] at h ⊢
    rw [if_neg hlong]
    by_cases hempty : target = []
    · rw [if_pos hempty, if_pos hempty]
    rw [if_neg hempty] at h ⊢
    rw [if_neg hempty]
    have hroom : (∀ s ∈ updateFullpathStores curpath target, s.Inside) → ¬MAXPATHLEN ≤ curpath.length := by
      intro hs
      have hlen := (updateFullpathStores_inside curpath target).mp hs
      rw [updateFullpath] at hlen
      split_ifs at hlen <;> simp only [List.length_append] at hlen <;> omega
    have hcode (e : Err) : -((e.code - 1 : Nat) + 1 : Int) = -(e.code : Int) := by cases e <;> rfl
    have hlook : looks w t k curpath target = if MAXPATHLEN ≤ curpath.length then
        .refused (Err.badPath.code - 1) else (inodeAt w curpath).casesOn (fun e => .refused (e.code - 1))
          fun i => if ¬w.IsDir i then .file else if target ∈ w.records i then .listed else .unlisted := by
      rw [looks, ht]
      cases inodeAt w curpath <;> rfl
    have hshort : ¬MAXPATHLEN ≤ curpath.length := by
      refine hroom fun s hs => h s ?_
      cases looks w t k curpath target with
      | refused r => exact List.mem_append_right _ hs
      | file => exact List.mem_append_right _ hs
      | unlisted => exact List.mem_append_right _ hs
      | listed => exact List.mem_append_left _ (List.mem_append_left _ (List.mem_append_right _ hs))
    rw [if_neg hshort] at hlook
    cases hi : inodeAt w curpath with
    | error e =>
      rw [hi] at hlook
      rw [hlook]
      dsimp only
      rw [hcode]
    | ok i =>
      rw [hi] at hlook
      dsimp only at hlook ⊢
      by_cases hd : w.IsDir i
      swap
      · rw [if_pos hd] at hlook
        rw [hlook, if_neg hd]
      rw [if_neg (not_not.mpr hd)] at hlook
      rw [if_pos hd]
      by_cases hmem : target ∈ w.records i
      swap
      · rw [if_neg hmem] at hlook
        rw [hlook, if_neg hmem]
      rw [if_pos hmem] at hlook
      rw [hlook] at h ⊢
      rw [if_pos hmem]
      have hrec := ih (k + 1) (enter curpath target) rest fun s hs => h s (List.mem_append_right _ hs)
      dsimp only
      rw [← hrec, enter]
      split_ifs <;> rfl

section Steps

variable {w : World} {t : Trouble}

private theorem hasDir_of_listed {k : Nat} {curpath target : List UInt8} (h : looks w t k curpath target = .listed) :
    HasDir w curpath := by
  unfold looks at h
  split at h
  · cases h
  split_ifs at h
  split at h
  · cases h
  rename_i i hi
  by_cases hd : w.IsDir i
  · exact ⟨i, hi, hd⟩
  · rw [if_pos hd] at h
    cases h

private theorem value_failed : ¬(0 : Int) ≤ -1 := by decide

private theorem value_refused (r : Nat) : ¬(0 : Int) ≤ -(r + 1) := by omega

private theorem walk_lost {k : Nat} {curpath : List UInt8} (h : ¬HasDir w curpath) (rest : List (List UInt8)) :
    (0 ≤ (walk (looks w t) k curpath rest).value → HasDir w (walk (looks w t) k curpath rest).curpath) ↔
      ¬Unnoticed (looks w t) k curpath rest := by
  cases rest with
  | nil => exact iff_of_false (fun hd => h (hd le_rfl)) (not_not.mpr (Or.inl rfl))
  | cons name names =>
    rw [walk]
    by_cases hend : names = [] ∧ name = []
    · obtain ⟨rfl, rfl⟩ := hend
      exact iff_of_false (fun hd => h (hd le_rfl)) (not_not.mpr (Or.inr (Or.inl rfl)))
    rw [if_neg hend]
    have hun : Unnoticed (looks w t) k curpath (name :: names) ↔
        name ≠ [] ∧ name.length ≤ MAXNAMELEN ∧ looks w t k curpath name = .file := by
      unfold Unnoticed
      constructor
      · rintro (he | he | ⟨n, ns, he, hn⟩)
        · cases he
        · cases he
          exact absurd ⟨rfl, rfl⟩ hend
        · cases he
          exact hn
      · exact fun hn => Or.inr (Or.inr ⟨name, names, rfl, hn⟩)
    rw [hun]
    by_cases hlong : MAXNAMELEN < name.length
    · rw [if_pos hlong]
      exact iff_of_true (fun hv => absurd hv value_failed) fun hn => absurd hn.2.1 (not_le.mpr hlong)
    rw [if_neg hlong]
    by_cases hempty : name = []
    · rw [if_pos hempty]
      exact iff_of_true (fun hv => absurd hv value_failed) fun hn => hn.1 hempty
    rw [if_neg hempty]
    dsimp only
    cases hl : looks w t k curpath name with
    | refused r => exact iff_of_true (fun hv => absurd hv (value_refused r)) fun hn => by cases hn.2.2
    | file => exact iff_of_false (fun hd => h (hd le_rfl)) (not_not.mpr ⟨hempty, not_lt.mp hlong, rfl⟩)
    | unlisted => exact iff_of_true (fun hv => absurd hv value_failed) fun hn => by cases hn.2.2
    | listed => exact absurd (hasDir_of_listed hl) h

private theorem walk_hasDir {k : Nat} {curpath : List UInt8} (rest : List (List UInt8)) :
    (0 ≤ (walk (looks w t) k curpath rest).value → HasDir w (walk (looks w t) k curpath rest).curpath) ↔
      ∀ front back, rest = front ++ back → Followed (looks w t) k curpath front →
        HasDir w (front.foldl enter curpath) ∨
          ¬Unnoticed (looks w t) (k + front.length) (front.foldl enter curpath) back := by
  induction rest generalizing k curpath with
  | nil =>
    by_cases h : HasDir w curpath
    · refine iff_of_true (fun _ => h) fun front back he _ => Or.inl ?_
      rw [(List.append_eq_nil_iff.mp he.symm).1]
      exact h
    · exact iff_of_false (fun hd => h (hd le_rfl)) fun hall =>
        (hall [] [] rfl trivial).elim h fun hn => hn (Or.inl rfl)
  | cons name names ih =>
    by_cases h : HasDir w curpath
    swap
    · rw [walk_lost h]
      constructor
      · intro hn front back he hf
        cases front with
        | nil =>
          rw [he] at hn
          exact Or.inr hn
        | cons x xs => exact absurd (hasDir_of_listed hf.1.2.2) h
      · intro hall
        exact (hall [] (name :: names) rfl trivial).resolve_left h
    by_cases hfirst : name ≠ [] ∧ name.length ≤ MAXNAMELEN ∧ looks w t k curpath name = .listed
    · have hstep : (walk (looks w t) k curpath (name :: names)).value =
            (walk (looks w t) (k + 1) (enter curpath name) names).value ∧
          (walk (looks w t) k curpath (name :: names)).curpath =
            (walk (looks w t) (k + 1) (enter curpath name) names).curpath := by
        obtain ⟨hne, hlen, hl⟩ := hfirst
        rw [walk, if_neg (fun he => hne he.2), if_neg (not_lt.mpr hlen), if_neg hne, hl]
        exact ⟨rfl, rfl⟩
      rw [hstep.1, hstep.2, ih]
      constructor
      · intro hall front back he hf
        cases front with
        | nil => exact Or.inl h
        | cons x xs =>
          obtain ⟨rfl, hxs⟩ := List.cons_eq_cons.mp he
          have hgo := hall xs back hxs hf.2
          rw [Nat.add_assoc, Nat.add_comm 1] at hgo
          exact hgo
      · intro hall front back he hf
        have hgo := hall (name :: front) back (by rw [he, List.cons_append]) ⟨hfirst, hf⟩
        rw [Nat.add_assoc, Nat.add_comm 1]
        exact hgo
    · refine iff_of_true (fun _ => ?_) fun front back he hf => ?_
      · rw [walk]
        split_ifs with hend hlong hempty
        · exact h
        · exact h
        · exact h
        · dsimp only
          cases hl : looks w t k curpath name with
          | listed => exact absurd ⟨hempty, not_lt.mp hlong, hl⟩ hfirst
          | refused r => exact h
          | file => exact h
          | unlisted => exact h
      · cases front with
        | nil => exact Or.inl h
        | cons x xs =>
          obtain ⟨rfl, -⟩ := List.cons_eq_cons.mp he
          exact absurd hf.1 hfirst

/-- Of the names that are entered, only those of the file tree count: `.` and `..` stay among directories. -/
theorem noticed_iff {k : Nat} {curpath : List UInt8} (h : HasDir w curpath) (rest : List (List UInt8)) :
    (∀ front back, rest = front ++ back → Followed (looks w t) k curpath front →
        HasDir w (front.foldl enter curpath) ∨
          ¬Unnoticed (looks w t) (k + front.length) (front.foldl enter curpath) back) ↔
      ∀ front name back, rest = front ++ name :: back → Followed (looks w t) k curpath (front ++ [name]) →
        name ≠ [46] → name ≠ [46, 46] → HasDir w ((front ++ [name]).foldl enter curpath) ∨
          ¬Unnoticed (looks w t) (k + front.length + 1) ((front ++ [name]).foldl enter curpath) back := by
  constructor
  · intro hall front name back he hf _ _
    have hgo := hall (front ++ [name]) back (by rw [he, ← List.append_cons]) hf
    rw [List.length_append, List.length_singleton, ← Nat.add_assoc] at hgo
    exact hgo
  · intro hall front back he hf
    rcases List.eq_nil_or_concat front with rfl | ⟨front, name, rfl⟩
    · exact Or.inl h
    rw [List.concat_eq_append] at he hf ⊢
    by_cases hplain : name ≠ [46] ∧ name ≠ [46, 46]
    · rw [List.length_append, List.length_singleton, ← Nat.add_assoc]
      exact hall front name back (by rw [he, ← List.append_cons]) hf hplain.1 hplain.2
    · left
      have hdir := hasDir_of_listed (followed_last hf)
      rw [List.foldl_append, List.foldl_cons, List.foldl_nil, enter]
      split_ifs with hup hdown
      · exact hdir.up hup.2
      · exact absurd ⟨hdown.2, hdown.1⟩ hplain
      · exact hdir

end Steps

/-- After `cd` the working directory is a directory if and only if every name that `cd` enters, apart from `.` and
`..`, is that of one, or `cd` notices and fails. -/
theorem runCd_hasDir_iff (w : World) (t : Trouble) (curpath : List UInt8) (args : List (List UInt8))
    (h : HasDir w curpath) :
    ((0 ≤ (runCd (looks w t) curpath args).value → HasDir w (runCd (looks w t) curpath args).curpath) ∧
      ((runCd (looks w t) curpath args).value < 0 → (runCd (looks w t) curpath args).curpath = curpath)) ↔
    ∀ arg front name back, args = [arg] → argPieces arg = front ++ name :: back →
      Followed (looks w t) 0 curpath (front ++ [name]) → name ≠ [46] → name ≠ [46, 46] →
      HasDir w ((front ++ [name]).foldl enter curpath) ∨
        ¬Unnoticed (looks w t) (front.length + 1) ((front ++ [name]).foldl enter curpath) back := by
  cases args with
  | nil =>
    -- without an argument `cd` goes to the root
    refine iff_of_true ⟨fun _ => h.root, fun hv => absurd hv (lt_irrefl _)⟩ ?_
    intro arg front name back he
    cases he
  | cons arg args =>
    cases args with
    | cons arg' args =>
      refine iff_of_true ⟨fun _ => h, fun _ => rfl⟩ ?_
      intro arg front name back he
      cases he
    | nil =>
      have hset : curpath.set 0 slash = curpath := by
        have hh := h.head
        cases curpath with
        | nil => rfl
        | cons c cs => rw [List.set_cons_zero, Option.some.inj hh]
      have hrun : cd (looks w t) ((if arg.head? = some slash then arg.tail else arg).length + 1) 0
          (if arg.head? = some slash then curpath.set 0 slash else curpath)
          (if arg.head? = some slash then arg.tail else arg) =
            walk (looks w t) 0 curpath (argPieces arg) := by
        rw [cd_eq_walk _ _ _ (Nat.lt_succ_self _), hset, ite_self]
        rfl
      have hwalk := (@walk_hasDir w t 0 curpath (argPieces arg)).trans
        (noticed_iff h (argPieces arg))
      simp only [runCd, hrun]
      rw [and_iff_left (fun hv => if_pos hv)]
      have hkeep : (0 ≤ (walk (looks w t) 0 curpath (argPieces arg)).value →
          HasDir w (if (walk (looks w t) 0 curpath (argPieces arg)).value < 0 then curpath
            else (walk (looks w t) 0 curpath (argPieces arg)).curpath)) ↔
          (0 ≤ (walk (looks w t) 0 curpath (argPieces arg)).value →
            HasDir w (walk (looks w t) 0 curpath (argPieces arg)).curpath) := by
        refine forall_congr' fun hv => ?_
        rw [if_neg (not_lt.mpr hv)]
      rw [hkeep, hwalk]
      constructor
      · intro hall arg' front name back he
        cases he
        have hgo := hall front name back
        rw [Nat.zero_add] at hgo
        exact hgo
      · intro hall front name back
        rw [Nat.zero_add]
        exact hall arg front name back rfl

/-- A fresh disk after the file `/a` is created. -/
def oneFile : World := final (fileCreate [47, 97] FTYPE_REG) (mount (freshDisk 4 1))

def noTrouble : Trouble := ⟨fun _ => none, fun _ => none⟩

theorem oneFile_root : HasDir oneFile [slash] := ⟨0, by decide +kernel, by decide +kernel⟩

end Shell

end DamnOS.Programs
