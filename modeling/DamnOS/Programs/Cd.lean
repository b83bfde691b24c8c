import DamnOS.Programs.ShellPaths

/-!
# `cd`, store by store

`cd` cuts one name after the other from its argument, copies it into an array of its own, spells the path for its
messages in `fullpath` and goes on from there by editing `curpath`.  What it finds out about the file system comes
from outside.
-/

namespace DamnOS.Programs.Shell

open DamnOS.Framework
open DamnOS.FileSystem

/-- Room in the argument vector of `runcmd`. -/
def MAXARGS : Nat := 16

/-- The arrays of the shell that are written at computed places. -/
inductive Buffer where
  | argv
  | curpath
  | fullpath
  | target
  deriving DecidableEq

def Buffer.size : Buffer → Nat
  | .argv => MAXARGS
  | .curpath => MAXPATHLEN
  | .fullpath => MAXPATHLEN
  | .target => MAXNAMELEN

/-- One element of an array is written. -/
structure Store where
  buffer : Buffer
  index : Nat
  deriving DecidableEq

def Store.Inside (s : Store) : Prop := s.index < s.buffer.size

instance (s : Store) : Decidable s.Inside := inferInstanceAs (Decidable (_ < _))

/-- Stores into `n` elements from element `a` on. -/
def storesAt (b : Buffer) (a n : Nat) : List Store := (List.range n).map fun i => ⟨b, a + i⟩

def updateFullpathStores (curpath post : List UInt8) : List Store :=
  storesAt .fullpath 0 (curpath.length + 1) ++
    if curpath.getLast? ≠ some slash then
      storesAt .fullpath curpath.length 2 ++ storesAt .fullpath (curpath.length + 1) (post.length + 1)
    else storesAt .fullpath curpath.length (post.length + 1)

def updateCurpathStores (curpath post : List UInt8) (size : Int) : List Store :=
  if 0 < size then
    if post.head? ≠ some slash ∧ curpath.getLast? ≠ some slash then
      storesAt .curpath curpath.length 1 ++ storesAt .curpath (curpath.length + 1) (size.toNat + 1)
    else storesAt .curpath curpath.length (size.toNat + 1)
  else [⟨.curpath, lastSlash curpath (curpath.length - 1)⟩]

/-- What one call of `cd` learns of the working directory and the name: `stat` or `open` fails, with a negative
value; it is no directory; it has the name among its entries, or it has not. -/
inductive Look where
  | refused (r : Nat)
  | file
  | listed
  | unlisted
  deriving DecidableEq

/-- What `curpath` becomes when `target` is found. -/
def enter (curpath target : List UInt8) : List UInt8 :=
  if target = [46, 46] ∧ curpath ≠ [slash] then updateCurpath curpath [] (-1)
  else if target ≠ [46, 46] ∧ target ≠ [46] then updateCurpath curpath target target.length
  else curpath

def enterStores (curpath target : List UInt8) : List Store :=
  if target = [46, 46] ∧ curpath ≠ [slash] then updateCurpathStores curpath [] (-1)
  else if target ≠ [46, 46] ∧ target ≠ [46] then updateCurpathStores curpath target target.length
  else []

/-- How `cd` comes back. -/
structure CdRun where
  curpath : List UInt8
  value : Int
  stores : List Store
  deriving DecidableEq

/-- `cd`, for the `k`-th time within itself. -/
def cd (look : Nat → List UInt8 → List UInt8 → Look) : Nat → Nat → List UInt8 → List UInt8 → CdRun
  | 0, _, curpath, _ => ⟨curpath, 0, []⟩
  | fuel + 1, k, curpath, path =>
    if path = [] then ⟨curpath, 0, []⟩ else
    let path := if path.head? = some slash then path.tail else path
    let target := path.takeWhile (· != slash)
    let rest := path.dropWhile (· != slash)
    if rest = [] ∧ target = [] then ⟨curpath, 0, []⟩ else
    -- the copy comes before the length is looked at
    let copied := storesAt .target 0 (target.length + 1)
    if MAXNAMELEN < target.length then ⟨curpath, -1, copied ++ updateFullpathStores curpath target⟩
    else if target = [] then ⟨curpath, -1, copied ++ updateFullpathStores curpath [slash]⟩
    else
      let stores := copied ++ updateFullpathStores curpath target
      match look k curpath target with
      | .refused r => ⟨curpath, -(r + 1), stores⟩
      -- `r` is still what `stat` returned
      | .file => ⟨curpath, 0, stores⟩
      | .unlisted => ⟨curpath, -1, stores⟩
      | .listed =>
        let r := cd look fuel (k + 1) (enter curpath target) rest
        ⟨r.curpath, r.value, stores ++ enterStores curpath target ++ r.stores⟩

/-- The `cd` branch of `runcmd`, up to `save_curpath`. -/
def runCd (look : Nat → List UInt8 → List UInt8 → Look) (curpath : List UInt8) :
    List (List UInt8) → CdRun
  | [] => ⟨[slash], 0, storesAt .curpath 0 2⟩
  | [arg] =>
    let start := if arg.head? = some slash then curpath.set 0 slash else curpath
    let path := if arg.head? = some slash then arg.tail else arg
    let r := cd look (path.length + 1) 0 start path
    ⟨if r.value < 0 then curpath else r.curpath, r.value,
      (if arg.head? = some slash then [⟨.curpath, 0⟩, ⟨.argv, 1⟩] else []) ++ r.stores ++
        if r.value < 0 then storesAt .curpath 0 (curpath.length + 1) else []⟩
  | _ :: _ :: _ => ⟨curpath, 0, []⟩

/-- What `cd` cuts its argument into: the strings between slashes, after one slash at the front is dropped. -/
def pieces (path : List UInt8) : List (List UInt8) :=
  (if path.head? = some slash then path.tail else path).splitOn slash

/-- The pieces of an argument of `cd`; `runcmd` and `cd` drop one leading slash each. -/
def argPieces (arg : List UInt8) : List (List UInt8) :=
  pieces (if arg.head? = some slash then arg.tail else arg)

def walk (look : Nat → List UInt8 → List UInt8 → Look) : Nat → List UInt8 → List (List UInt8) → CdRun
  | _, curpath, [] => ⟨curpath, 0, []⟩
  | k, curpath, target :: rest =>
    if rest = [] ∧ target = [] then ⟨curpath, 0, []⟩
    else if MAXNAMELEN < target.length then
      ⟨curpath, -1, storesAt .target 0 (target.length + 1) ++ updateFullpathStores curpath target⟩
    else if target = [] then
      ⟨curpath, -1, storesAt .target 0 (target.length + 1) ++ updateFullpathStores curpath [slash]⟩
    else
      let stores := storesAt .target 0 (target.length + 1) ++ updateFullpathStores curpath target
      match look k curpath target with
      | .refused r => ⟨curpath, -(r + 1), stores⟩
      | .file => ⟨curpath, 0, stores⟩
      | .unlisted => ⟨curpath, -1, stores⟩
      | .listed =>
        let r := walk look (k + 1) (enter curpath target) rest
        ⟨r.curpath, r.value, stores ++ enterStores curpath target ++ r.stores⟩

private theorem splitOn_cut (path : List UInt8) : path.splitOn slash = path.takeWhile (· != slash) ::
    if path.dropWhile (· != slash) = [] then [] else (path.dropWhile (· != slash)).tail.splitOn slash := by
  have hsplit := List.takeWhile_append_dropWhile (p := (· != slash)) (l := path)
  have hname : ∀ x ∈ path.takeWhile (· != slash), (x == slash) = false := by
    intro x hx
    have hp := List.mem_takeWhile_imp hx
    simpa using hp
  cases hd : path.dropWhile (· != slash) with
  | nil =>
    rw [hd, List.append_nil] at hsplit
    rw [if_pos rfl]
    conv_lhs => rw [← hsplit]
    exact List.splitOnP_eq_singleton hname
  | cons x rest =>
    have hx : x = slash := by
      have hf := List.head?_dropWhile_not (fun x => x != slash) path
      rw [hd] at hf
      simpa using hf
    subst hx
    rw [hd] at hsplit
    rw [if_neg (List.cons_ne_nil _ _), List.tail_cons]
    conv_lhs => rw [← hsplit]
    unfold List.splitOn
    rw [List.splitOnP_append_cons _ _ (by simp), List.splitOnP_eq_singleton hname]
    rfl

private theorem pieces_cut (path : List UInt8) {cut : List UInt8}
    (hcut : cut = if path.head? = some slash then path.tail else path) :
    pieces path = cut.takeWhile (· != slash) ::
      if cut.dropWhile (· != slash) = [] then [] else pieces (cut.dropWhile (· != slash)) := by
  rw [pieces, ← hcut, splitOn_cut]
  by_cases hd : cut.dropWhile (· != slash) = []
  · rw [if_pos hd, if_pos hd]
  · rw [if_neg hd, if_neg hd, pieces]
    have hhead : (cut.dropWhile (· != slash)).head? = some slash := by
      have hf := List.head?_dropWhile_not (fun x => x != slash) cut
      obtain ⟨x, rest, hx⟩ := List.exists_cons_of_ne_nil hd
      rw [hx] at hf ⊢
      simpa using hf
    rw [if_pos hhead]

theorem cd_eq_walk (look : Nat → List UInt8 → List UInt8 → Look) {fuel : Nat} (k : Nat) (curpath : List UInt8)
    {path : List UInt8} (h : path.length < fuel) :
    cd look fuel k curpath path = walk look k curpath (pieces path) := by
  induction fuel generalizing k curpath path with
  | zero => omega
  | succ fuel ih =>
    by_cases hnil : path = []
    · subst hnil
      rfl
    rw [cd, if_neg hnil]
    dsimp only
    obtain ⟨cut, hcut⟩ : ∃ cut, cut = if path.head? = some slash then path.tail else path := ⟨_, rfl⟩
    rw [pieces_cut path hcut, ← hcut, walk]
    have hshort : (cut.dropWhile (· != slash)).length < fuel ∨ cut.takeWhile (· != slash) = [] := by
      by_cases htarget : cut.takeWhile (· != slash) = []
      · exact Or.inr htarget
      · left
        have hsplit := congrArg List.length (List.takeWhile_append_dropWhile (p := (· != slash)) (l := cut))
        have hpos := List.length_pos_iff.mpr htarget
        have hle : cut.length ≤ path.length := by
          rw [hcut]
          split_ifs <;> simp
        rw [List.length_append] at hsplit
        omega
    generalize cut.takeWhile (· != slash) = target at *
    generalize cut.dropWhile (· != slash) = rest at *
    have hend : (if rest = [] then [] else pieces rest) = [] ↔ rest = [] := by
      by_cases hr : rest = []
      · simp [hr]
      · rw [if_neg hr, pieces_cut rest rfl]
        simp [hr]
    simp only [hend]
    by_cases hlast : rest = [] ∧ target = []
    · rw [if_pos hlast, if_pos hlast]
    rw [if_neg hlast, if_neg hlast]
    by_cases htarget : target = []
    · subst htarget
      rfl
    have hrec : cd look fuel (k + 1) (enter curpath target) rest =
        walk look (k + 1) (enter curpath target) (if rest = [] then [] else pieces rest) := by
      rw [ih (k + 1) (enter curpath target) (hshort.resolve_right htarget)]
      by_cases hr : rest = []
      · rw [if_pos hr, hr]
        rfl
      · rw [if_neg hr]
    simp only [hrec]

/-- Each of the names is found, one after the other, and `cd` goes on behind the last one. -/
def Followed (look : Nat → List UInt8 → List UInt8 → Look) : Nat → List UInt8 → List (List UInt8) → Prop
  | _, _, [] => True
  | k, curpath, name :: names => (name ≠ [] ∧ name.length ≤ MAXNAMELEN ∧ look k curpath name = .listed) ∧
      Followed look (k + 1) (enter curpath name) names

instance (look : Nat → List UInt8 → List UInt8 → Look) : ∀ k curpath names,
    Decidable (Followed look k curpath names)
  | _, _, [] => isTrue trivial
  | k, curpath, name :: names =>
    have := instDecidableFollowed look (k + 1) (enter curpath name) names
    inferInstanceAs (Decidable (_ ∧ _))

theorem followed_last {look : Nat → List UInt8 → List UInt8 → Look} {k : Nat} {curpath name : List UInt8}
    {front : List (List UInt8)} (h : Followed look k curpath (front ++ [name])) :
    look (k + front.length) (front.foldl enter curpath) name = .listed := by
  induction front generalizing k curpath with
  | nil => exact h.1.2.2
  | cons x front ih =>
    rw [List.length_cons, Nat.add_comm front.length, ← Nat.add_assoc]
    exact ih h.2

theorem storesAt_inside {b : Buffer} {a n : Nat} (hn : 0 < n) :
    (∀ s ∈ storesAt b a n, s.Inside) ↔ a + n ≤ b.size := by
  constructor
  · intro h
    have hs := h ⟨b, a + (n - 1)⟩ (List.mem_map.mpr ⟨n - 1, List.mem_range.mpr (by omega), rfl⟩)
    simp only [Store.Inside] at hs
    omega
  · intro h s hs
    obtain ⟨i, hi, rfl⟩ := List.mem_map.mp hs
    have hi' := List.mem_range.mp hi
    simp only [Store.Inside]
    omega

theorem forall_mem_append {l l' : List Store} {P : Store → Prop} :
    (∀ s ∈ l ++ l', P s) ↔ (∀ s ∈ l, P s) ∧ ∀ s ∈ l', P s := by
  simp only [List.mem_append, or_imp, forall_and]

theorem storesAt_buffer {b : Buffer} {a n : Nat} : ∀ s ∈ storesAt b a n, s.buffer = b := by
  intro s hs
  obtain ⟨i, -, rfl⟩ := List.mem_map.mp hs
  rfl

theorem updateFullpathStores_buffer (curpath post : List UInt8) :
    ∀ s ∈ updateFullpathStores curpath post, s.buffer = .fullpath := by
  unfold updateFullpathStores
  simp only [forall_mem_append]
  split_ifs
  · exact ⟨storesAt_buffer, forall_mem_append.mpr ⟨storesAt_buffer, storesAt_buffer⟩⟩
  · exact ⟨storesAt_buffer, storesAt_buffer⟩

private theorem updateCurpathStores_buffer (curpath post : List UInt8) (size : Int) :
    ∀ s ∈ updateCurpathStores curpath post size, s.buffer = .curpath := by
  unfold updateCurpathStores
  split_ifs
  · exact forall_mem_append.mpr ⟨storesAt_buffer, storesAt_buffer⟩
  · exact storesAt_buffer
  · intro s hs
    rw [List.mem_singleton.mp hs]

private theorem enterStores_buffer (curpath target : List UInt8) :
    ∀ s ∈ enterStores curpath target, s.buffer = .curpath := by
  unfold enterStores
  split_ifs
  · exact updateCurpathStores_buffer _ _ _
  · exact updateCurpathStores_buffer _ _ _
  · intro s hs
    cases hs

theorem walk_buffer (look : Nat → List UInt8 → List UInt8 → Look) (k : Nat) (curpath : List UInt8)
    (names : List (List UInt8)) : ∀ s ∈ (walk look k curpath names).stores, s.buffer ≠ .argv := by
  have hpath (curpath post : List UInt8) : ∀ s ∈ updateFullpathStores curpath post, s.buffer ≠ .argv := by
    intro s hs
    rw [updateFullpathStores_buffer curpath post s hs]
    decide
  have htarget (n : Nat) : ∀ s ∈ storesAt .target 0 n, s.buffer ≠ .argv := by
    intro s hs
    rw [storesAt_buffer s hs]
    decide
  have hboth (curpath post : List UInt8) (n : Nat) :
      ∀ s ∈ storesAt .target 0 n ++ updateFullpathStores curpath post, s.buffer ≠ .argv :=
    forall_mem_append.mpr ⟨htarget n, hpath curpath post⟩
  induction names generalizing k curpath with
  | nil =>
    intro s hs
    cases hs
  | cons name names ih =>
    rw [walk]
    split_ifs
    · intro s hs
      cases hs
    · exact hboth curpath name _
    · exact hboth curpath [slash] _
    · dsimp only
      cases look k curpath name with
      | refused r => exact hboth curpath name _
      | file => exact hboth curpath name _
      | unlisted => exact hboth curpath name _
      | listed =>
        refine forall_mem_append.mpr ⟨forall_mem_append.mpr ⟨hboth curpath name _, fun s hs => ?_⟩, ih _ _⟩
        rw [enterStores_buffer curpath name s hs]
        decide

/-- `update_fullpath` stays inside if the path it spells has fewer than `MAXPATHLEN` bytes. -/
theorem updateFullpathStores_inside (curpath post : List UInt8) :
    (∀ s ∈ updateFullpathStores curpath post, s.Inside) ↔ (updateFullpath curpath post).length < MAXPATHLEN := by
  have hsize : Buffer.size .fullpath = MAXPATHLEN := rfl
  rw [updateFullpathStores, updateFullpath, forall_mem_append, storesAt_inside (Nat.succ_pos _)]
  by_cases hl : curpath.getLast? ≠ some slash
  · rw [if_pos hl, if_pos hl, forall_mem_append, storesAt_inside (by decide), storesAt_inside (Nat.succ_pos _),
      List.length_append, List.length_append, List.length_singleton]
    omega
  · rw [if_neg hl, if_neg hl, storesAt_inside (Nat.succ_pos _), List.length_append]
    omega

theorem updateCurpathStores_inside (curpath : List UInt8) {name : List UInt8} (hne : name ≠ []) :
    (∀ s ∈ updateCurpathStores curpath name name.length, s.Inside) ↔
      (updateCurpath curpath name name.length).length < MAXPATHLEN := by
  have hsize : Buffer.size .curpath = MAXPATHLEN := rfl
  have hpos : (0 : Int) < name.length := by
    have := List.length_pos_iff.mpr hne
    omega
  rw [updateCurpathStores, updateCurpath, if_pos hpos, if_pos hpos, Int.toNat_natCast, List.take_length]
  split_ifs with hl
  · rw [forall_mem_append, storesAt_inside (by decide), storesAt_inside (Nat.succ_pos _), List.length_append,
      List.length_append, List.length_singleton]
    omega
  · rw [storesAt_inside (Nat.succ_pos _), List.length_append]
    omega

theorem lastSlash_le (curpath : List UInt8) (i : Nat) : lastSlash curpath i ≤ i := by
  induction i with
  | zero => exact le_rfl
  | succ i ih =>
    rw [lastSlash]
    split_ifs
    · omega
    · exact le_rfl

theorem updateCurpath_up (curpath : List UInt8) :
    (updateCurpath curpath [] (-1)).length ≤ curpath.length := by
  rw [updateCurpath, if_neg (by decide), List.length_take]
  omega

theorem updateCurpathStores_up {curpath : List UInt8} (h : curpath.length < MAXPATHLEN) :
    ∀ s ∈ updateCurpathStores curpath [] (-1), s.Inside := by
  intro s hs
  rw [updateCurpathStores, if_neg (by decide), List.mem_singleton] at hs
  subst hs
  have hle := lastSlash_le curpath (curpath.length - 1)
  have hsize : Buffer.size .curpath = MAXPATHLEN := rfl
  simp only [Store.Inside]
  omega

end DamnOS.Programs.Shell
