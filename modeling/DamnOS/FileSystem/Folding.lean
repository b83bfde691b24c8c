import DamnOS.FileSystem.Components

/-!
# Paths as folds over their components

`walk_path` skips slashes, copies names and checks them in one loop.  It is the fold of a lookup over
the non-empty parts of the path between its slashes.
-/

namespace DamnOS.FileSystem

open DamnOS.Framework

/-- The parts of a path between its slashes, less the empty ones. -/
def parts (path : List UInt8) : List (List UInt8) := (path.splitOn slash).filter (· ≠ [])

theorem parts_append (p q : List UInt8) : parts (p ++ slash :: q) = parts p ++ parts q := by
  unfold parts List.splitOn
  rw [List.splitOnP_append_cons p q (by simp), List.filter_append]

private theorem parts_nil : parts [] = [] := rfl

private theorem parts_slash (path : List UInt8) : parts (slash :: path) = parts path := by
  have happend := parts_append [] path
  rwa [parts_nil, List.nil_append, List.nil_append] at happend

private theorem parts_single {name : List UInt8} (hne : name ≠ []) (hname : slash ∉ name) :
    parts name = [name] := by
  have hall : ∀ x ∈ name, (x == slash) = false := by
    intro x hx
    rw [beq_eq_false_iff_ne]
    rintro rfl
    exact hname hx
  unfold parts List.splitOn
  rw [List.splitOnP_eq_singleton hall]
  simp [hne]

theorem components_eq_parts (path : List UInt8) : components path = parts path := by
  induction hn : path.length using Nat.strong_induction_on generalizing path with
  | _ n ih =>
  cases path with
  | nil => rfl
  | cons c cs =>
    by_cases hc : c = slash
    · subst hc
      rw [components_slash, parts_slash]
      exact ih cs.length (by simp only [List.length_cons] at hn; omega) cs rfl
    have hh : (c :: cs).head? ≠ some slash := by simpa using hc
    have hne := takeWhile_ne_nil (List.cons_ne_nil c cs) hh
    have hname : slash ∉ (c :: cs).takeWhile (· != slash) := by
      intro hm
      have hp := List.mem_takeWhile_imp hm
      simp at hp
    have hsplit := List.takeWhile_append_dropWhile (p := (· != slash)) (l := c :: cs)
    cases hd : (c :: cs).dropWhile (· != slash) with
    | nil =>
      rw [hd, List.append_nil] at hsplit
      rw [← hsplit, components_single hne hname, parts_single hne hname]
    | cons x rest =>
      have hx : x = slash := by
        have hf := List.head?_dropWhile_not (fun x => x != slash) (c :: cs)
        rw [hd] at hf
        simpa using hf
      subst hx
      rw [hd] at hsplit
      have hlen := congrArg List.length hsplit
      rw [List.length_append, List.length_cons, hn] at hlen
      rw [← hsplit, components_name hne hname, parts_append, parts_single hne hname,
        ih rest.length (by omega) rest rfl]
      rfl

namespace World

/-- The name in the entry at `e`: its bytes up to the first NUL. -/
def entryName (w : World) (e : Nat) : List UInt8 :=
  ((List.range MAXNAMELEN).map fun i => w.byte (e + i)).takeWhile (· != 0)

/-- The first entry of directory `i` that is called `name`. -/
def entryCalled (w : World) (i : Nat) (name : List UInt8) : Option Nat :=
  (w.entries i).find? fun e => w.entryName e = name

/-- Looking up one component after the other from inode `i` on, which was reached through `entry` of
`dir`. -/
def fold (w : World) : List (List UInt8) → Nat → Nat → Nat → Except Err Walk
  | [], _, dir, entry => .ok (.found dir entry)
  | name :: names, i, _, _ =>
    if MAXNAMELEN ≤ name.length then .error .badPath
    else if ¬w.IsDir i then .error .notFound
    else
      match w.entryCalled i name with
      | some e => w.fold names (w.inInd e) (inodeVa i) e
      | none => if names.isEmpty then .ok (.missing (inodeVa i) name) else .error .notFound

def foldPath (w : World) (path : List UInt8) : Except Err Walk :=
  if path.head? = some slash then w.fold (parts path) 0 0 0 else .error .badPath

end World

private theorem getD_of_nameMatches {w : World} {a : Nat} {name : List UInt8} (h : nameMatches w a name = true) :
    ∀ i ≤ name.length, w.byte (a + i) = name.getD i 0 := by
  induction name generalizing a with
  | nil =>
    intro i hi
    obtain rfl := Nat.le_zero.mp hi
    simpa [nameMatches] using h
  | cons c cs ih =>
    simp only [nameMatches, Bool.and_eq_true, beq_iff_eq] at h
    intro i hi
    cases i with
    | zero => simpa using h.1
    | succ i =>
      have hs := ih h.2 i (by simpa using hi)
      rw [Nat.add_assoc, Nat.add_comm 1 i] at hs
      simpa using hs

theorem nameMatches_iff (w : World) (e : Nat) {name : List UInt8} (h0 : (0 : UInt8) ∉ name)
    (hlen : name.length < MAXNAMELEN) : nameMatches w e name = true ↔ w.entryName e = name := by
  have hget (i : Nat) (hi : i < MAXNAMELEN) :
      ((List.range MAXNAMELEN).map fun i => w.byte (e + i))[i]? = some (w.byte (e + i)) := by
    rw [List.getElem?_map, List.getElem?_range hi]
    rfl
  constructor
  · intro hm
    have hbytes := getD_of_nameMatches hm
    refine takeWhile_terminated h0 ?_ (Or.inr ?_)
    · rw [List.prefix_iff_eq_take]
      refine List.ext_getElem? fun i => ?_
      rw [List.getElem?_take]
      split_ifs with hi
      · rw [hget i (by omega), hbytes i hi.le, List.getD_eq_getElem?_getD, List.getElem?_eq_getElem hi]
        rfl
      · exact List.getElem?_eq_none (not_lt.mp hi)
    · rw [hget _ hlen, hbytes _ le_rfl]
      simp
  · rintro rfl
    refine nameMatches_of_getD fun i hi => ?_
    have hsplit : w.entryName e ++ ((List.range MAXNAMELEN).map fun i => w.byte (e + i)).dropWhile
        (· != 0) = (List.range MAXNAMELEN).map fun i => w.byte (e + i) := List.takeWhile_append_dropWhile
    have hbyte := hget i (lt_of_le_of_lt hi hlen)
    rw [← hsplit] at hbyte
    rcases hi.lt_or_eq with hlt | rfl
    · rw [List.getElem?_append_left hlt] at hbyte
      rw [List.getD_eq_getElem?_getD, hbyte]
      rfl
    · rw [List.getElem?_append_right le_rfl, Nat.sub_self] at hbyte
      have hz := List.head?_dropWhile_not (fun x : UInt8 => x != 0)
        ((List.range MAXNAMELEN).map fun i => w.byte (e + i))
      rw [List.head?_eq_getElem?, hbyte] at hz
      rw [List.getD_eq_getElem?_getD, List.getElem?_eq_none le_rfl]
      simpa using hz

theorem lookup_eq_entryCalled (w : World) (i : Nat) {name : List UInt8} (h0 : (0 : UInt8) ∉ name)
    (hlen : name.length < MAXNAMELEN) : w.lookup i name = w.entryCalled i name := by
  refine List.find?_congr fun e _ => ?_
  rw [Bool.eq_iff_iff, nameMatches_iff w e h0 hlen, decide_eq_true_iff]

private theorem walk_eq_fold (w : World) {names : List (List UInt8)} (h0 : ∀ name ∈ names, (0 : UInt8) ∉ name)
    (i dir entry : Nat) : w.walk names i dir entry = w.fold names i dir entry := by
  induction names generalizing i dir entry with
  | nil => rfl
  | cons name names ih =>
    obtain ⟨hname, hrest⟩ := List.forall_mem_cons.mp h0
    rw [World.walk, World.fold]
    by_cases hlen : MAXNAMELEN ≤ name.length
    · rw [if_pos hlen, if_pos hlen]
    rw [if_neg hlen, if_neg hlen]
    by_cases hd : w.IsDir i
    swap
    · rw [if_neg hd, if_pos hd]
    rw [if_pos hd, if_neg (not_not.mpr hd), lookup_eq_entryCalled w i hname (not_le.mp hlen)]
    cases w.entryCalled i name with
    | some e => exact ih hrest _ _ _
    | none =>
      cases names with
      | nil => rfl
      | cons n ns => rfl

theorem resolve_eq_foldPath (w : World) {path : List UInt8} (h0 : (0 : UInt8) ∉ path) :
    w.resolve path = w.foldPath path := by
  unfold World.foldPath
  split_ifs with hs
  · rw [resolve_eq_walk w hs, components_eq_parts]
    refine walk_eq_fold w (fun name hm hz => ?_) 0 0 0
    rw [← components_eq_parts] at hm
    exact h0 ((mem_components hm).2.2.subset hz)
  · rw [World.resolve, if_neg hs]

private theorem foldPath_repeat (w : World) (p q : List UInt8) :
    w.foldPath (p ++ slash :: slash :: q) = w.foldPath (p ++ slash :: q) := by
  have hhead : (p ++ slash :: slash :: q).head? = (p ++ slash :: q).head? := by
    cases p with
    | nil => rfl
    | cons c cs => rfl
  rw [World.foldPath, World.foldPath, hhead, parts_append, parts_slash, ← parts_append]

private theorem foldPath_trailing (w : World) {path : List UInt8} (hne : path ≠ []) :
    w.foldPath (path ++ [slash]) = w.foldPath path := by
  have hhead : (path ++ [slash]).head? = path.head? := by
    obtain ⟨c, cs, rfl⟩ := List.exists_cons_of_ne_nil hne
    rfl
  rw [World.foldPath, World.foldPath, hhead, parts_append, parts_nil, List.append_nil]

/-- `walk_path` changes nothing and ends as the fold over the components does; slashes that repeat,
lead or trail make no difference. -/
theorem walkPath_folds (D : Nat → Prop) (w : World) (path : List UInt8) (h : WalkableIn D w)
    (h0 : (0 : UInt8) ∉ path) :
    (∃ v, Quiet w v ∧ walkPath path w = outcome (w.foldPath path) v) ∧
      (∀ p q, path = p ++ slash :: q →
        ∃ v, Quiet w v ∧ walkPath (p ++ slash :: slash :: q) w = outcome (w.foldPath path) v) ∧
      (path ≠ [] → ∃ v, Quiet w v ∧ walkPath (path ++ [slash]) w = outcome (w.foldPath path) v) := by
  have hrun (p : List UInt8) (hp : (0 : UInt8) ∉ p) :
      ∃ v, Quiet w v ∧ walkPath p w = outcome (w.foldPath p) v := by
    rw [← resolve_eq_foldPath w hp]
    exact h.walkPath_run hp
  refine ⟨hrun path h0, fun p q hpq => ?_, fun hne => ?_⟩
  · rw [hpq, ← foldPath_repeat]
    refine hrun _ fun hm => h0 ?_
    rw [hpq]
    simp only [List.mem_append, List.mem_cons] at hm ⊢
    tauto
  · rw [← foldPath_trailing w hne]
    refine hrun _ fun hm => h0 ?_
    simp only [List.mem_append, List.mem_singleton] at hm
    exact hm.resolve_right (by decide)

theorem walkPath_folds_fresh : ∃ v, Quiet (mount (freshDisk 4 1)) v ∧
    walkPath [47, 97, 47] (mount (freshDisk 4 1)) =
      outcome ((mount (freshDisk 4 1)).foldPath [47, 97]) v :=
  (walkPath_folds (· < 4) _ [47, 97] orderly_fresh.tidy.walkable.within (by decide)).2.2 (by decide)

/-- `walk_path` changes nothing, and ends as the fold does. -/
def Folds (w : World) (path : List UInt8) : Prop := ∃ v, Quiet w v ∧ walkPath path w = outcome (w.foldPath path) v

/-- Every directory has its slots filled, every name ends with a NUL, and every entry leads to an inode. -/
structure FilledDirs (w : World) : Prop where
  ready : Ready w
  root : 0 < w.cached.inNum
  blkUsed : ∀ i < w.cached.inNum, w.IsDir i → (w.cached.inode i).blkUsed ≤ NDIRECT
  filled : ∀ i < w.cached.inNum, w.IsDir i → ∀ j < (w.cached.inode i).blkUsed, w.cached.slot i j ≠ 0
  entries : ∀ i < w.cached.inNum, w.IsDir i → ∀ e ∈ w.entries i,
    (w.entryName e).length < MAXNAMELEN ∧ w.inInd e < w.cached.inNum

/-- What the slots of directories hold passes a test. -/
def World.Slots (w : World) (P : Nat → Prop) : Prop :=
  ∀ i < w.cached.inNum, w.IsDir i → ∀ j < (w.cached.inode i).blkUsed, P (w.cached.slot i j)

instance (w : World) (P : Nat → Prop) [DecidablePred P] : Decidable (w.Slots P) :=
  inferInstanceAs (Decidable (∀ i < w.cached.inNum, w.IsDir i → ∀ j < (w.cached.inode i).blkUsed,
    P (w.cached.slot i j)))

/-- A disk whose root owns block 3, with the entry `/f` in it for the last inode; `ocp` is the first byte
of the block bitmap. -/
def slotDisk (inNum blkNum ocp : UInt8) (b o : Nat) : UInt8 :=
  if b = 0 then
    if o = offInNum then inNum else if o = offBlkNum then blkNum else if o = offBlkOcp then ocp else 0
  else if b = 1 then
    if o = offType then 0x64 else if o = offBlkUsed then 1 else if o = offBlkInd then 3 else 0
  else if b = 3 then
    if o = 0 then 0x66 else if o = offInInd then inNum - 1 else 0
  else 0

private theorem not_folds {w : World} {path : List UInt8} (h : (value (attempt (walkPath path)) w).isNone = true) :
    ¬Folds w path := by
  rintro ⟨v, -, hv⟩
  cases hf : w.foldPath path with
  | ok r =>
    rw [hf] at hv
    rw [value, attempt_ok hv] at h
    cases h
  | error e =>
    rw [hf] at hv
    rw [value, attempt_err hv] at h
    cases h

/-- Slots may hold a block that is marked free or one behind the end of the disk, and inodes behind the table lie
in blocks that may be free: each of these stops the server. -/
theorem walkPath_stops :
    (¬∀ (w : World) (path : List UInt8), FilledDirs w → (0 : UInt8) ∉ path → w.cached.inNum ≤ MAXINODENUM →
      w.Slots (· < w.cached.blkNum) → Folds w path) ∧
    (¬∀ (w : World) (path : List UInt8), FilledDirs w → (0 : UInt8) ∉ path → w.cached.inNum ≤ MAXINODENUM →
      w.Slots (w.cached.blkOcp · = true) → Folds w path) ∧
    ¬∀ (w : World) (path : List UInt8), FilledDirs w → (0 : UInt8) ∉ path →
      w.Slots (fun b => b < w.cached.blkNum ∧ w.cached.blkOcp b = true) → Folds w path := by
  refine ⟨fun hall => ?_, fun hall => ?_, fun hall => ?_⟩
  · refine not_folds ?_ (hall (mount (slotDisk 4 200 3)) [47, 102] ⟨⟨rfl, rfl⟩, ?_, ?_, ?_, ?_⟩ (by decide) ?_ ?_)
    all_goals decide +kernel
  · refine not_folds ?_ (hall (mount (slotDisk 4 3 11)) [47, 102] ⟨⟨rfl, rfl⟩, ?_, ?_, ?_, ?_⟩ (by decide) ?_ ?_)
    all_goals decide +kernel
  · refine not_folds ?_ (hall (mount (slotDisk 129 200 11)) [47, 102, 47, 120] ⟨⟨rfl, rfl⟩, ?_, ?_, ?_, ?_⟩
      (by decide) ?_)
    all_goals decide +kernel

end DamnOS.FileSystem
