import DamnOS.Programs.CdDirectory
import DamnOS.Programs.Runcmd

/-!
# The path buffers of the shell

`curpath` and `fullpath` have `MAXPATHLEN` bytes and `target` has `MAXNAMELEN`.  `cd` copies a name before it looks at
the length, and nothing looks at the length of a path.
-/

namespace DamnOS.Programs.Shell

open DamnOS.Framework
open DamnOS.FileSystem

/-- There is room to spell `post` below the working directory, with a slash between them where one is missing. -/
def Spells (curpath post : List UInt8) : Prop :=
  curpath.length + (if curpath.getLast? = some slash then 0 else 1) + post.length < MAXPATHLEN

/-- There is room for a name of an argument of `cd`; an empty one is spelled as a slash. -/
def Room (curpath name : List UInt8) : Prop :=
  name.length < MAXNAMELEN ∧ Spells curpath (if name = [] then [slash] else name)

/-- There is room for every name that `cd` comes to, apart from an empty one at the end. -/
def WalkFits (look : Nat → List UInt8 → List UInt8 → Look) (k : Nat) (curpath : List UInt8)
    (names : List (List UInt8)) : Prop :=
  ∀ front name back, names = front ++ name :: back → Followed look k curpath front →
    (back = [] ∧ name = []) ∨ Room (front.foldl enter curpath) name

section Walk

variable {look : Nat → List UInt8 → List UInt8 → Look} {k : Nat} {curpath : List UInt8}

private theorem spells_iff {post : List UInt8} :
    Spells curpath post ↔ (updateFullpath curpath post).length < MAXPATHLEN := by
  unfold Spells updateFullpath
  by_cases hl : curpath.getLast? = some slash
  · simp [hl]
  · simp [hl]
    omega

private theorem walkFits_cons (name : List UInt8) (names : List (List UInt8)) :
    WalkFits look k curpath (name :: names) ↔ ((names = [] ∧ name = []) ∨ Room curpath name) ∧
      ((name ≠ [] ∧ name.length ≤ MAXNAMELEN ∧ look k curpath name = .listed) →
        WalkFits look (k + 1) (enter curpath name) names) := by
  constructor
  · intro h
    refine ⟨h [] name names rfl trivial, fun hname front name' back he hf => ?_⟩
    exact h (name :: front) name' back (by rw [he, List.cons_append]) ⟨hname, hf⟩
  · rintro ⟨hfirst, h⟩ front name' back he hf
    cases front with
    | nil =>
      cases he
      exact hfirst
    | cons x front =>
      cases he
      exact h hf.1 front name' back rfl hf.2

private theorem spells_short {post : List UInt8} (h : Spells curpath post) : curpath.length < MAXPATHLEN := by
  unfold Spells at h
  omega

private theorem room_inside (curpath name : List UInt8) :
    (∀ s ∈ storesAt .target 0 (name.length + 1) ++
      updateFullpathStores curpath (if name = [] then [slash] else name), s.Inside) ↔ Room curpath name := by
  have hsize : Buffer.size .target = MAXNAMELEN := rfl
  rw [forall_mem_append, storesAt_inside (Nat.succ_pos _), updateFullpathStores_inside, ← spells_iff, hsize]
  exact and_congr_left fun _ => by omega

private theorem updateCurpath_short {name : List UInt8} (hne : name ≠ []) (h : Spells curpath name) :
    (updateCurpath curpath name name.length).length < MAXPATHLEN := by
  have hpos : (0 : Int) < name.length := by
    have := List.length_pos_iff.mpr hne
    omega
  rw [spells_iff, updateFullpath] at h
  rw [updateCurpath, if_pos hpos, Int.toNat_natCast, List.take_length]
  by_cases hl : curpath.getLast? ≠ some slash
  · rw [if_pos hl] at h
    split_ifs
    · exact h
    · rw [List.length_append, List.length_append] at h
      rw [List.length_append]
      omega
  · rw [if_neg hl] at h
    rw [if_neg fun hc => hl hc.2]
    exact h

/-- Going on from a name that fits stores inside `curpath`, and leaves a path that has room there. -/
theorem enter_inside {name : List UInt8} (hne : name ≠ []) (h : Spells curpath name) :
    (∀ s ∈ enterStores curpath name, s.Inside) ∧ (enter curpath name).length < MAXPATHLEN := by
  have hshort := spells_short h
  unfold enterStores enter
  split_ifs
  · exact ⟨updateCurpathStores_up hshort, lt_of_le_of_lt (updateCurpath_up curpath) hshort⟩
  · have hlen := updateCurpath_short hne h
    exact ⟨(updateCurpathStores_inside curpath hne).mpr hlen, hlen⟩
  · refine ⟨fun s hs => ?_, hshort⟩
    cases hs

private theorem walk_inside (names : List (List UInt8)) :
    (∀ s ∈ (walk look k curpath names).stores, s.Inside) ↔ WalkFits look k curpath names := by
  induction names generalizing k curpath with
  | nil =>
    refine iff_of_true (fun s hs => ?_) fun front name back he => ?_
    · cases hs
    · simp at he
  | cons name names ih =>
    rw [walkFits_cons, walk]
    by_cases hend : names = [] ∧ name = []
    · rw [if_pos hend]
      refine iff_of_true (fun s hs => ?_) ⟨Or.inl hend, fun hname => absurd hend.2 hname.1⟩
      cases hs
    rw [if_neg hend, or_iff_right hend, ← room_inside]
    have hstop (hno : ¬(name ≠ [] ∧ name.length ≤ MAXNAMELEN ∧ look k curpath name = .listed)) (Q : Prop) :
        (Q ∧ ((name ≠ [] ∧ name.length ≤ MAXNAMELEN ∧ look k curpath name = .listed) →
          WalkFits look (k + 1) (enter curpath name) names)) ↔ Q := and_iff_left fun hname => absurd hname hno
    by_cases hempty : name = []
    · subst hempty
      rw [hstop fun hname => hname.1 rfl, if_neg (by decide), if_pos rfl]
      rfl
    rw [if_neg hempty, if_neg hempty]
    by_cases hlong : MAXNAMELEN < name.length
    · rw [if_pos hlong, hstop fun hname => absurd hname.2.1 (not_le.mpr hlong)]
    rw [if_neg hlong]
    dsimp only
    cases hl : look k curpath name with
    | refused r => rw [hl] at hstop; exact (hstop (fun hname => by cases hname.2.2) _).symm
    | file => rw [hl] at hstop; exact (hstop (fun hname => by cases hname.2.2) _).symm
    | unlisted => rw [hl] at hstop; exact (hstop (fun hname => by cases hname.2.2) _).symm
    | listed =>
      rw [forall_mem_append, forall_mem_append, ih, and_assoc]
      refine and_congr_right fun hfirst => ?_
      have hroom : Spells curpath name := by
        rw [forall_mem_append, updateFullpathStores_inside, ← spells_iff] at hfirst
        exact hfirst.2
      rw [and_iff_right (enter_inside hempty hroom).1]
      exact ⟨fun h _ => h, fun h => h ⟨hempty, not_lt.mp hlong, rfl⟩⟩

private theorem walk_short {names : List (List UInt8)} (h : WalkFits look k curpath names)
    (hcur : curpath.length < MAXPATHLEN) : (walk look k curpath names).curpath.length < MAXPATHLEN := by
  induction names generalizing k curpath with
  | nil => exact hcur
  | cons name names ih =>
    obtain ⟨hfirst, hrest⟩ := (walkFits_cons name names).mp h
    rw [walk]
    split_ifs with hend hlong hempty
    · exact hcur
    · exact hcur
    · exact hcur
    · dsimp only
      cases hl : look k curpath name with
      | refused r => exact hcur
      | file => exact hcur
      | unlisted => exact hcur
      | listed =>
        have hroom : Spells curpath name := by
          have hspells := (hfirst.resolve_left hend).2
          rwa [if_neg hempty] at hspells
        exact ih (hrest ⟨hempty, not_lt.mp hlong, hl⟩) (enter_inside hempty hroom).2

end Walk

/-- What `curpath` can hold while its string stays inside. -/
structure Cwd (path : List UInt8) : Prop where
  rooted : path.head? = some slash
  short : path.length < MAXPATHLEN

theorem cwd_root : Cwd [slash] := ⟨rfl, by decide⟩

private theorem updateCurpath_up_head {curpath : List UInt8} (h : curpath.head? = some slash)
    (hroot : curpath ≠ [slash]) :
    (updateCurpath curpath [] (-1)).head? = some slash := by
  obtain ⟨c, cs, rfl⟩ : ∃ c cs, curpath = slash :: c :: cs := by
    cases curpath with
    | nil => cases h
    | cons x xs =>
      obtain rfl : x = slash := by simpa using h
      cases xs with
      | nil => exact absurd rfl hroot
      | cons c cs => exact ⟨c, cs, rfl⟩
  rw [updateCurpath, if_neg (by decide)]
  obtain ⟨hpos, -⟩ := lastSlash_spec (slash :: c :: cs) (show 1 ≤ (slash :: c :: cs).length - 1 by simp)
  obtain ⟨i, hi⟩ := Nat.exists_eq_succ_of_ne_zero (Nat.ne_of_gt hpos)
  rw [hi]
  rfl

private theorem enter_head {curpath name : List UInt8} (h : curpath.head? = some slash) (hne : name ≠ []) :
    (enter curpath name).head? = some slash := by
  unfold enter
  split_ifs with hup hdown
  · exact updateCurpath_up_head h hup.2
  · obtain ⟨xs, rfl⟩ : ∃ xs, curpath = slash :: xs := by
      cases curpath with
      | nil => cases h
      | cons x xs => exact ⟨xs, by rw [Option.some.inj h]⟩
    have hlen : (0 : Int) < name.length := by
      have := List.length_pos_iff.mpr hne
      omega
    rw [updateCurpath, if_pos hlen]
    split_ifs <;> rfl
  · exact h

private theorem walk_head {look : Nat → List UInt8 → List UInt8 → Look} {k : Nat} {curpath : List UInt8}
    (names : List (List UInt8)) (h : curpath.head? = some slash) :
    (walk look k curpath names).curpath.head? = some slash := by
  induction names generalizing k curpath with
  | nil => exact h
  | cons name names ih =>
    rw [walk]
    split_ifs with hend hlong hempty
    · exact h
    · exact h
    · exact h
    · dsimp only
      cases look k curpath name with
      | refused r => exact h
      | file => exact h
      | unlisted => exact h
      | listed => exact ih (enter_head h hempty)

/-- A store into a path buffer hits one of its bytes. -/
def InPaths (s : Store) : Prop := s.buffer ≠ .argv → s.Inside

private theorem inPaths_iff {l : List Store} (h : ∀ s ∈ l, s.buffer ≠ .argv) :
    (∀ s ∈ l, InPaths s) ↔ ∀ s ∈ l, s.Inside :=
  ⟨fun hl s hs => hl s hs (h s hs), fun hl s hs _ => hl s hs⟩

private theorem updateFullpathStores_inPaths (curpath post : List UInt8) :
    (∀ s ∈ updateFullpathStores curpath post, InPaths s) ↔ Spells curpath post := by
  rw [inPaths_iff, updateFullpathStores_inside, spells_iff]
  intro s hs
  rw [updateFullpathStores_buffer curpath post s hs]
  decide

/-- The directory that `ls` is asked for; a path that begins with a dot is spelled below the working directory. -/
def listedPath (curpath path : List UInt8) : List UInt8 :=
  if path.head? = some 46 then (if curpath.getLast? = some slash then curpath else curpath ++ [slash]) ++ path
  else path

/-- There is room for what `ls` spells of a path: the path itself if it begins with a dot, and the names below. -/
structure LsFits (a : Answers) (curpath path : List UInt8) : Prop where
  dot : path.head? = some 46 → Spells curpath path
  names : ∀ name ∈ a.lists (listedPath curpath path), Spells curpath name

/-- There is room for what a command spells. -/
structure CommandFits (a : Answers) (curpath : List UInt8) (argv : List (List UInt8)) : Prop where
  cd : ∀ arg, argv = [CD, arg] → WalkFits a.look 0 curpath (argPieces arg)
  one : ∀ arg, argv = [RM, arg] ∨ argv = [MKDIR, arg] → Spells curpath arg
  cat : ∀ front arg back, argv = CAT :: (front ++ arg :: back) → (∀ i < front.length, a.shows i = true) →
    Spells curpath arg
  ls : ∀ args, argv = LS :: args → LsFits a curpath (args.headD curpath)

section Commands

variable {a : Answers} {curpath : List UInt8} (hc : Cwd curpath)

private theorem catStores_inPaths (i : Nat) (args : List (List UInt8)) : (∀ s ∈ catStores a curpath i args, InPaths s) ↔
    ∀ front arg back, args = front ++ arg :: back → (∀ j < front.length, a.shows (i + j) = true) →
      Spells curpath arg := by
  induction args generalizing i with
  | nil =>
    refine iff_of_true (fun s hs => ?_) fun front arg back he => ?_
    · cases hs
    · simp at he
  | cons arg args ih =>
    rw [catStores, forall_mem_append, updateFullpathStores_inPaths]
    constructor
    · rintro ⟨hfirst, h⟩ front arg' back he hshows
      cases front with
      | nil =>
        cases he
        exact hfirst
      | cons x front =>
        cases he
        have h0 : a.shows i = true := hshows 0 (Nat.succ_pos _)
        rw [if_pos h0, ih] at h
        refine h front arg' back rfl fun j hj => ?_
        rw [Nat.add_assoc, Nat.add_comm 1]
        exact hshows (j + 1) (Nat.succ_lt_succ hj)
    · intro h
      refine ⟨h [] arg args rfl fun j hj => absurd hj (Nat.not_lt_zero _), ?_⟩
      split_ifs with h0
      · rw [ih]
        intro front arg' back he hshows
        refine h (arg :: front) arg' back (by rw [he, List.cons_append]) fun j hj => ?_
        cases j with
        | zero => exact h0
        | succ j =>
          have hj' := hshows j (Nat.lt_of_succ_lt_succ hj)
          rwa [Nat.add_assoc, Nat.add_comm 1] at hj'
      · intro s hs
        cases hs

private theorem lsStores_inPaths (path : List UInt8) :
    (∀ s ∈ lsStores a curpath path, InPaths s) ↔ LsFits a curpath path := by
  have hnames (names : List (List UInt8)) : (∀ s ∈ names.flatMap (updateFullpathStores curpath), InPaths s) ↔
      ∀ name ∈ names, Spells curpath name := by
    constructor
    · intro h name hname
      refine (updateFullpathStores_inPaths curpath name).mp fun s hs => ?_
      exact h s (List.mem_flatMap.mpr ⟨name, hname, hs⟩)
    · intro h s hs
      obtain ⟨name, hname, hs⟩ := List.mem_flatMap.mp hs
      exact (updateFullpathStores_inPaths curpath name).mpr (h name hname) s hs
  unfold lsStores
  by_cases hdot : path.head? = some 46
  · rw [if_pos hdot, forall_mem_append, updateFullpathStores_inPaths, hnames]
    have hpath : listedPath curpath path = updateFullpath curpath path := by
      rw [listedPath, updateFullpath, if_pos hdot, ite_not]
    constructor
    · intro h
      exact ⟨fun _ => h.1, by rw [hpath]; exact h.2⟩
    · intro h
      refine ⟨h.dot hdot, ?_⟩
      have hn := h.names
      rwa [hpath] at hn
  · rw [if_neg hdot, hnames]
    have hpath : listedPath curpath path = path := if_neg hdot
    constructor
    · intro h
      exact ⟨fun hd => absurd hd hdot, by rw [hpath]; exact h⟩
    · intro h
      have hn := h.names
      rwa [hpath] at hn

private theorem runCd_one (look : Nat → List UInt8 → List UInt8 → Look) {curpath : List UInt8}
    (h : curpath.head? = some slash) (arg : List UInt8) :
    runCd look curpath [arg] =
      ⟨if (walk look 0 curpath (argPieces arg)).value < 0 then curpath
        else (walk look 0 curpath (argPieces arg)).curpath, (walk look 0 curpath (argPieces arg)).value,
        (if arg.head? = some slash then [⟨.curpath, 0⟩, ⟨.argv, 1⟩] else []) ++
          (walk look 0 curpath (argPieces arg)).stores ++
          if (walk look 0 curpath (argPieces arg)).value < 0 then storesAt .curpath 0 (curpath.length + 1)
          else []⟩ := by
  have hset : curpath.set 0 slash = curpath := by
    cases curpath with
    | nil => rfl
    | cons c cs => rw [List.set_cons_zero, Option.some.inj h]
  rw [runCd, cd_eq_walk _ _ _ (Nat.lt_succ_self _), hset, ite_self]
  rfl

private theorem storesAt_curpath {n : Nat} (h : n ≤ MAXPATHLEN) : ∀ s ∈ storesAt .curpath 0 n, s.Inside := by
  intro s hs
  obtain ⟨i, hi, rfl⟩ := List.mem_map.mp hs
  have hi' := List.mem_range.mp hi
  have hsize : Buffer.size .curpath = MAXPATHLEN := rfl
  simp only [Store.Inside]
  omega

include hc in
theorem runCd_inPaths (look : Nat → List UInt8 → List UInt8 → Look) (args : List (List UInt8)) :
    (∀ s ∈ (runCd look curpath args).stores, InPaths s) ↔
      ∀ arg, args = [arg] → WalkFits look 0 curpath (argPieces arg) := by
  have hcur (n : Nat) (hn : n ≤ MAXPATHLEN) : ∀ s ∈ storesAt .curpath 0 n, InPaths s :=
    fun s hs _ => storesAt_curpath hn s hs
  cases args with
  | nil => exact iff_of_true (hcur 2 (by decide)) fun arg he => by cases he
  | cons arg args =>
    cases args with
    | cons arg' args =>
      refine iff_of_true (fun s hs => ?_) fun arg he => ?_
      · cases hs
      · cases he
    | nil =>
      rw [runCd_one look hc.rooted]
      dsimp only
      rw [forall_mem_append, forall_mem_append, inPaths_iff (walk_buffer look 0 curpath (argPieces arg)),
        walk_inside]
      have hfirst : ∀ s ∈ if arg.head? = some slash then [(⟨.curpath, 0⟩ : Store), ⟨.argv, 1⟩] else [],
          InPaths s := by
        split_ifs
        · intro s hs
          rcases List.mem_cons.mp hs with rfl | hs
          · exact fun _ => by decide
          · rw [List.mem_singleton.mp hs]
            exact fun hb => absurd rfl hb
        · intro s hs
          cases hs
      have hlast : ∀ s ∈ if (walk look 0 curpath (argPieces arg)).value < 0 then
          storesAt .curpath 0 (curpath.length + 1) else [], InPaths s := by
        split_ifs
        · exact hcur _ hc.short
        · intro s hs
          cases hs
      rw [and_iff_right hfirst, and_iff_left hlast]
      constructor
      · intro h arg' he
        cases he
        exact h
      · exact fun h => h arg rfl

include hc in
theorem runCd_cwd (look : Nat → List UInt8 → List UInt8 → Look) {args : List (List UInt8)}
    (h : ∀ arg, args = [arg] → WalkFits look 0 curpath (argPieces arg)) : Cwd (runCd look curpath args).curpath := by
  cases args with
  | nil => exact cwd_root
  | cons arg args =>
    cases args with
    | cons arg' args => exact hc
    | nil =>
      rw [runCd_one look hc.rooted]
      dsimp only
      split_ifs
      · exact hc
      · exact ⟨walk_head _ hc.rooted, walk_short (h arg rfl) hc.short⟩

/-- `cd` stores inside the path buffers and ends in a directory, or it fails and the working directory is as before. -/
structure EndsInDirectory (w : World) (t : Trouble) (curpath : List UInt8) (args : List (List UInt8)) : Prop where
  stores : ∀ s ∈ (runCd (looks w t) curpath args).stores, InPaths s
  directory : 0 ≤ (runCd (looks w t) curpath args).value → HasDir w (runCd (looks w t) curpath args).curpath
  restored : (runCd (looks w t) curpath args).value < 0 → (runCd (looks w t) curpath args).curpath = curpath

/-- The names that `cd` enters, apart from `.` and `..`, are those of directories, or `cd` notices and fails. -/
def EntersDirectories (w : World) (t : Trouble) (curpath arg : List UInt8) : Prop :=
  ∀ front name back, argPieces arg = front ++ name :: back →
    Followed (looks w t) 0 curpath (front ++ [name]) → name ≠ [46] → name ≠ [46, 46] →
    HasDir w ((front ++ [name]).foldl enter curpath) ∨
      ¬Unnoticed (looks w t) (front.length + 1) ((front ++ [name]).foldl enter curpath) back

/-- After `cd` the working directory is a directory if and only if there is room for the names that `cd` comes to,
and it enters nothing but directories or takes notice of it. -/
theorem cd_ends_in_directory_iff (w : World) (t : Trouble) (curpath : List UInt8) (args : List (List UInt8))
    (h : HasDir w curpath) (hshort : curpath.length < MAXPATHLEN) : EndsInDirectory w t curpath args ↔
      ∀ arg, args = [arg] → WalkFits (looks w t) 0 curpath (argPieces arg) ∧ EntersDirectories w t curpath arg := by
  have hstores := runCd_inPaths ⟨h.head, hshort⟩ (looks w t) args
  have hends := runCd_hasDir_iff w t curpath args h
  constructor
  · intro hcd arg harg
    refine ⟨hstores.mp hcd.stores arg harg, fun front name back => ?_⟩
    exact hends.mp ⟨hcd.directory, hcd.restored⟩ arg front name back harg
  · intro hall
    obtain ⟨hdir, hback⟩ := hends.mpr fun arg front name back harg => (hall arg harg).2 front name back
    exact ⟨hstores.mpr fun arg harg => (hall arg harg).1, hdir, hback⟩

/-- `cd ..` in the root. -/
theorem cd_ends_in_directory_root : EndsInDirectory oneFile noTrouble [slash] [[46, 46]] ↔
    ∀ arg, [[46, 46]] = [arg] → WalkFits (looks oneFile noTrouble) 0 [slash] (argPieces arg) ∧
      EntersDirectories oneFile noTrouble [slash] arg :=
  cd_ends_in_directory_iff oneFile noTrouble [slash] [[46, 46]] oneFile_root (by decide)

/-- `cd a` where `a` is a file. -/
theorem cd_enters_file : HasDir oneFile [slash] ∧ ¬EndsInDirectory oneFile noTrouble [slash] [[97]] := by
  refine ⟨oneFile_root, fun hcd => ?_⟩
  have hvalue : (0 : Int) ≤ (runCd (looks oneFile noTrouble) [slash] [[97]]).value := by decide +kernel
  have hpath : (runCd (looks oneFile noTrouble) [slash] [[97]]).curpath = [47, 97] := by decide +kernel
  have hfile : inodeAt oneFile [47, 97] = .ok 1 := by decide +kernel
  have hreg : ¬oneFile.IsDir 1 := by decide +kernel
  obtain ⟨k, hk, hd⟩ := hcd.directory hvalue
  rw [hpath, hfile] at hk
  cases hk
  exact hreg hd

include hc in
/-- With room for all names, `cd` does to the working directory what it does on strings alone. -/
theorem runCd_strings {w : World} {arg : List UInt8}
    (h : WalkFits (looks w noTrouble) 0 curpath (argPieces arg)) :
    Programs.runCd w curpath arg = (runCd (looks w noTrouble) curpath [arg]).curpath := by
  have hset : curpath.set 0 slash = curpath := by
    have hh := hc.rooted
    cases curpath with
    | nil => rfl
    | cons c cs => rw [List.set_cons_zero, Option.some.inj hh]
  have hwalk := cd_eq_walk (looks w noTrouble) 0 curpath
    (Nat.lt_succ_self (if arg.head? = some slash then arg.tail else arg).length)
  have hcd := cd_strings (w := w) (t := noTrouble) rfl _ 0 curpath _ fun s hs => by
    rw [hwalk] at hs
    exact (walk_inside (argPieces arg)).mpr h s hs
  rw [runCd_one _ hc.rooted]
  simp only [Programs.runCd, hset, ite_self]
  rw [hcd, hwalk]
  rfl

include hc in
theorem runCd_hasDir {w : World} {arg : List UInt8} (hdir : HasDir w curpath)
    (h : WalkFits (looks w noTrouble) 0 curpath (argPieces arg)) (henters : EntersDirectories w noTrouble curpath arg) :
    HasDir w (Programs.runCd w curpath arg) := by
  obtain ⟨hgo, hstay⟩ := (runCd_hasDir_iff w noTrouble curpath [arg] hdir).mpr fun arg' front name back harg => by
    cases harg
    exact henters front name back
  rw [runCd_strings hc h]
  rcases lt_or_ge (runCd (looks w noTrouble) curpath [arg]).value 0 with hv | hv
  · rw [hstay hv]
    exact hdir
  · exact hgo hv

private theorem commandFits_cons (cmd : List UInt8) (args : List (List UInt8)) : CommandFits a curpath (cmd :: args) ↔
    (cmd = CD → ∀ arg, args = [arg] → WalkFits a.look 0 curpath (argPieces arg)) ∧
    (cmd = RM ∨ cmd = MKDIR → ∀ arg, args = [arg] → Spells curpath arg) ∧
    (cmd = CAT → ∀ front arg back, args = front ++ arg :: back → (∀ i < front.length, a.shows i = true) →
      Spells curpath arg) ∧ (cmd = LS → LsFits a curpath (args.headD curpath)) := by
  constructor
  · intro h
    refine ⟨?_, ?_, ?_, ?_⟩
    · rintro rfl arg rfl
      exact h.cd arg rfl
    · rintro (rfl | rfl) arg rfl
      · exact h.one arg (Or.inl rfl)
      · exact h.one arg (Or.inr rfl)
    · rintro rfl front arg back rfl
      exact h.cat front arg back rfl
    · rintro rfl
      exact h.ls args rfl
  · rintro ⟨hcd, hone, hcat, hls⟩
    constructor
    · intro arg he
      obtain ⟨hcmd, hargs⟩ := List.cons_eq_cons.mp he
      exact hcd hcmd arg hargs
    · rintro arg (he | he)
      · obtain ⟨hcmd, hargs⟩ := List.cons_eq_cons.mp he
        exact hone (Or.inl hcmd) arg hargs
      · obtain ⟨hcmd, hargs⟩ := List.cons_eq_cons.mp he
        exact hone (Or.inr hcmd) arg hargs
    · intro front arg back he
      obtain ⟨hcmd, hargs⟩ := List.cons_eq_cons.mp he
      exact hcat hcmd front arg back hargs
    · intro args' he
      obtain ⟨hcmd, rfl⟩ := List.cons_eq_cons.mp he
      exact hls hcmd

private theorem oneStores_inPaths (args : List (List UInt8)) : (∀ s ∈ oneStores curpath args, InPaths s) ↔
    ∀ arg, args = [arg] → Spells curpath arg := by
  unfold oneStores
  split
  · rw [updateFullpathStores_inPaths]
    constructor
    · intro h arg he
      cases he
      exact h
    · exact fun h => h _ rfl
  · rename_i hno
    refine iff_of_true (fun s hs => ?_) fun arg he => absurd he (hno arg)
    cases hs

include hc in
private theorem runStores_inPaths (argv : List (List UInt8)) :
    (∀ s ∈ runStores a curpath argv, InPaths s) ↔ CommandFits a curpath argv := by
  cases argv with
  | nil =>
    refine iff_of_true (fun s hs => ?_) ⟨?_, ?_, ?_, ?_⟩
    · cases hs
    · exact fun arg he => by cases he
    · rintro arg (he | he) <;> cases he
    · exact fun front arg back he => by cases he
    · exact fun args he => by cases he
  | cons cmd args =>
    rw [commandFits_cons, runStores]
    by_cases hcd : cmd = CD
    · rw [if_pos hcd, runCd_inPaths hc, hcd]
      simp [CD, RM, MKDIR, CAT, LS]
    by_cases hone : cmd = RM ∨ cmd = MKDIR
    · rw [if_neg hcd, if_pos hone, oneStores_inPaths]
      rcases hone with rfl | rfl <;> simp [CD, RM, MKDIR, CAT, LS]
    by_cases hcat : cmd = CAT
    · rw [if_neg hcd, if_neg hone, if_pos hcat, catStores_inPaths, hcat]
      simp [CD, RM, MKDIR, CAT, LS]
    by_cases hls : cmd = LS
    · rw [if_neg hcd, if_neg hone, if_neg hcat, if_pos hls, lsStores_inPaths, hls]
      simp [CD, RM, MKDIR, CAT, LS]
    rw [if_neg hcd, if_neg hone, if_neg hcat, if_neg hls]
    refine iff_of_true ?_
      ⟨fun h => absurd h hcd, fun h => absurd h hone, fun h => absurd h hcat, fun h => absurd h hls⟩
    -- what is left for `spawn` goes into `argv`
    have hargv : ∀ s ∈ (if cmd.head? ≠ some slash then [(⟨.argv, 0⟩ : Store)] else []) ++
        [⟨.argv, args.length + 1⟩], s.buffer = .argv := by
      rw [forall_mem_append]
      refine ⟨?_, fun s hs => by rw [List.mem_singleton.mp hs]⟩
      split_ifs
      · exact fun s hs => by rw [List.mem_singleton.mp hs]
      · intro s hs
        cases hs
    by_cases hb : cmd ∈ builtins
    · rw [if_pos hb]
      intro s hs
      cases hs
    · rw [if_neg hb]
      exact fun s hs hne => absurd (hargv s hs) hne

end Commands

/-- There is room for all that a line spells. -/
structure LineFits (answers : Nat → Answers) (curpath line : List UInt8) : Prop where
  redirects : ∀ pre c name post s, tokens line = pre ++ .symbol c :: .word name :: post → (c = 60 ∨ c = 62) →
    pass answers pre ⟨0, [], 0⟩ = some s → Spells curpath name
  commands : ∀ pre post s, tokens line = pre ++ post → pass answers pre ⟨0, [], 0⟩ = some s →
    Ends answers s post → CommandFits (answers s.process) curpath s.argv

/-- The processes of a line store inside the path buffers, and leave `curpath` terminated. -/
structure LineInside (answers : Nat → Answers) (curpath : List UInt8) (input output : Nat) (line : List UInt8) :
    Prop where
  stores : ∀ r ∈ (runcmd answers curpath input output line).1 :: (runcmd answers curpath input output line).2,
    ∀ s ∈ r.stores, s.buffer ≠ .argv → s.Inside
  terminated : ∀ r ∈ (runcmd answers curpath input output line).1 :: (runcmd answers curpath input output line).2,
    Cwd r.curpath

section Lines

variable {answers : Nat → Answers} {curpath : List UInt8} (hc : Cwd curpath)

private theorem runit_curpath (a : Answers) (p : Proc) : (runit a curpath p).curpath = curpath ∨
    ∃ args, p.argv = CD :: args ∧ (runit a curpath p).curpath = (runCd a.look curpath args).curpath := by
  unfold runit
  cases hargv : p.argv with
  | nil => exact Or.inl rfl
  | cons cmd args =>
    dsimp only
    by_cases hcd : cmd = CD
    · right
      rw [if_pos hcd]
      exact ⟨args, by rw [hcd], rfl⟩
    · left
      rw [if_neg hcd]
      split_ifs <;> rfl

/-- A process ends with the working directory that it began with, or the one that its `cd` leads to. -/
def EndsAt (curpath : List UInt8) (r : Result) : Prop :=
  r.curpath = curpath ∨ ∃ (a : Answers) (args : List (List UInt8)),
    r.curpath = (runCd a.look curpath args).curpath ∧ ∀ s ∈ (runCd a.look curpath args).stores, s ∈ r.stores

theorem again_endsAt (toks : List Token) (d : Nat) (p : Proc) :
    ∀ r ∈ (again answers curpath toks d p).1 :: (again answers curpath toks d p).2, EndsAt curpath r := by
  have hrunit (a : Answers) (p : Proc) : EndsAt curpath (runit a curpath p) := by
    rcases runit_curpath a p with h | ⟨args, hargv, h⟩
    · exact Or.inl h
    · refine Or.inr ⟨a, args, h, fun s hs => ?_⟩
      rw [runit_stores, hargv, runStores, if_pos rfl]
      exact List.mem_append_right _ hs
  have hone (q : Proc) (e : Ending) : ∀ r ∈ [q.leave curpath e], EndsAt curpath r := by
    intro r hr
    rw [List.mem_singleton.mp hr]
    exact Or.inl rfl
  induction toks using line_induction generalizing d p with
  | nil =>
    rw [again]
    intro r hr
    rw [List.mem_singleton.mp hr]
    exact hrunit _ _
  | word t rest ih =>
    rw [again]
    split_ifs
    · exact hone _ _
    · exact ih _ _
  | redirect c t rest hcs ih =>
    rw [again_redirect hcs]
    by_cases ho : (answers d).opens p.opened = true
    · rw [if_pos ho]
      exact ih _ _
    · rw [if_neg ho]
      exact hone _ _
  | pipe rest ih =>
    rw [again_pipe]
    split_ifs
    · exact hone _ _
    · intro r hr
      rcases List.mem_cons.mp hr with rfl | hr
      · exact hrunit _ _
      · exact ih _ _ r hr
  | rejected c rest hpipe hword =>
    obtain ⟨e, -, hleave⟩ := @again_rejected answers curpath c rest hpipe hword d p
    rw [hleave]
    exact hone _ _

include hc in
private theorem line_inside_iff (input output : Nat) (line : List UInt8) :
    LineInside answers curpath input output line ↔ LineFits answers curpath line := by
  have hall := @again_stores answers curpath InPaths (fun i _ hb => absurd rfl hb) (tokens line) 0
    ⟨[], some (.before input), some (.before output), 0, []⟩ (Nat.zero_le _)
  rw [and_iff_right (by simp)] at hall
  have hfits : LineFits answers curpath line ↔ Redirects answers curpath InPaths (tokens line) ⟨0, [], 0⟩ ∧
      Commands answers curpath InPaths (tokens line) ⟨0, [], 0⟩ := by
    constructor
    · intro h
      constructor
      · intro pre c name post s he hsym hp
        exact (updateFullpathStores_inPaths curpath name).mpr (h.redirects pre c name post s he hsym hp)
      · intro pre post s he hp hend
        exact (runStores_inPaths hc s.argv).mpr (h.commands pre post s he hp hend)
    · rintro ⟨hr, hcom⟩
      constructor
      · intro pre c name post s he hsym hp
        exact (updateFullpathStores_inPaths curpath name).mp (hr pre c name post s he hsym hp)
      · intro pre post s he hp hend
        exact (runStores_inPaths hc s.argv).mp (hcom pre post s he hp hend)
  rw [hfits, ← hall]
  constructor
  · exact fun h => h.stores
  · intro h
    refine ⟨h, fun r hr => ?_⟩
    rcases again_endsAt _ _ _ r hr with hkeep | ⟨a, args, hmove, hsub⟩
    · rw [hkeep]
      exact hc
    · rw [hmove]
      exact runCd_cwd hc a.look ((runCd_inPaths hc a.look args).mp fun s hs => h r hr s (hsub s hs))

end Lines

/-- A line that `umain` reads, with what its processes are told and the files at descriptors 0 and 1. -/
structure InputLine where
  answers : Nat → Answers
  input : Nat
  output : Nat
  text : List UInt8

namespace InputLine

/-- Lines that begin with `#` are skipped. -/
def IsComment (l : InputLine) : Prop := l.text.head? = some 35

/-- The shell itself runs what begins with `cd`; other lines cannot change its working directory. -/
def after (l : InputLine) (curpath : List UInt8) : List UInt8 :=
  if l.text.take 2 = CD then (runcmd l.answers curpath l.input l.output l.text).1.curpath else curpath

end InputLine

/-- `Q` holds of each line of a run and the working directory that it finds. -/
def Along (Q : List UInt8 → InputLine → Prop) : List InputLine → List UInt8 → Prop
  | [], _ => True
  | l :: lines, curpath => Q curpath l ∧ Along Q lines (l.after curpath)

def StaysInside (curpath : List UInt8) (l : InputLine) : Prop :=
  l.IsComment ∨ LineInside l.answers curpath l.input l.output l.text

def HasRoom (curpath : List UInt8) (l : InputLine) : Prop := l.IsComment ∨ LineFits l.answers curpath l.text

theorem StaysInside.after {l : InputLine} {curpath : List UInt8} (hc : Cwd curpath) (h : StaysInside curpath l) :
    Cwd (l.after curpath) := by
  unfold InputLine.after
  split_ifs with hcd
  · rcases h with h | h
    · -- `#` does not begin with `cd`
      unfold InputLine.IsComment at h
      cases htext : l.text with
      | nil =>
        rw [htext] at h
        cases h
      | cons c cs =>
        rw [htext, List.head?_cons, Option.some_inj] at h
        rw [htext, h] at hcd
        cases hcd
    · exact h.terminated _ List.mem_cons_self
  · exact hc

private theorem along_iff (lines : List InputLine) {curpath : List UInt8} (hc : Cwd curpath) :
    Along StaysInside lines curpath ↔ Along HasRoom lines curpath := by
  induction lines generalizing curpath with
  | nil => exact Iff.rfl
  | cons l lines ih =>
    have hline : StaysInside curpath l ↔ HasRoom curpath l := by
      unfold StaysInside HasRoom
      rw [line_inside_iff hc]
    constructor
    · rintro ⟨h, hrest⟩
      exact ⟨hline.mp h, (ih (h.after hc)).mp hrest⟩
    · rintro ⟨h, hrest⟩
      have hs := hline.mpr h
      exact ⟨hs, (ih (hs.after hc)).mpr hrest⟩

/-- In every run of the shell, the lines store inside the path buffers and leave `curpath` terminated if and only if
there is room for what each of them spells. -/
theorem path_buffers_iff (lines : List InputLine) :
    Along StaysInside lines [slash] ↔ Along HasRoom lines [slash] :=
  along_iff lines cwd_root

/-- The name of 16 bytes that is to be entered has no room in `target`. -/
theorem target_overrun : ∃ s ∈ (runcmd (fun _ => fine) [slash] 0 1
    [99, 100, 32, 97, 97, 97, 97, 97, 97, 97, 97, 97, 97, 97, 97, 97, 97, 97, 97]).1.stores,
    s.buffer = .target ∧ ¬s.Inside := by
  decide

end DamnOS.Programs.Shell
