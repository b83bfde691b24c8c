import DamnOS.FileSystem.SmallFile

/-!
# Paths as lists of names

`walk_path` splits a path at its slashes; what it does is a walk along the list of the components.
-/

namespace DamnOS.FileSystem

open DamnOS.Framework

theorem takeWhile_terminated {l path : List UInt8} (hpath : (0 : UInt8) ∉ path) (hp : path <+: l)
    (hend : l.length = path.length ∨ l[path.length]? = some 0) : l.takeWhile (· != 0) = path := by
  obtain ⟨rest, rfl⟩ := hp
  have hall : ∀ x ∈ path, (x != 0) = true := fun x hx => by
    simp only [bne_iff_ne, ne_eq]
    rintro rfl
    exact hpath hx
  rw [List.takeWhile_append_of_pos hall]
  cases rest with
  | nil => simp
  | cons x xs =>
    have hx : x = 0 := by
      rcases hend with he | he
      · simp at he
      · simpa using he
    rw [List.takeWhile_cons, hx]
    simp

/-- The components of a path without a slash at its start, one for each round of `walk_path`. -/
def componentsFrom : Nat → List UInt8 → List (List UInt8)
  | 0, _ => []
  | fuel + 1, path =>
    if path = [] then []
    else path.takeWhile (· != slash) :: componentsFrom fuel (skipSlash (path.dropWhile (· != slash)))

def components (path : List UInt8) : List (List UInt8) :=
  componentsFrom ((skipSlash path).length + 1) (skipSlash path)

private theorem componentsFrom_fuel {fuel fuel' : Nat} {path : List UInt8} (hh : path.head? ≠ some slash)
    (h : path.length < fuel) (h' : path.length < fuel') :
    componentsFrom fuel path = componentsFrom fuel' path := by
  induction fuel generalizing fuel' path with
  | zero => omega
  | succ fuel ih =>
    obtain ⟨m, rfl⟩ : ∃ m, fuel' = m + 1 := Nat.exists_eq_succ_of_ne_zero (by omega)
    unfold componentsFrom
    split_ifs with hnil
    · rfl
    · have hshort := rest_length hnil hh
      rw [ih (head_skipSlash (path.dropWhile (· != slash))) (by omega) (show _ < m by omega)]

private theorem componentsFrom_eq_nil {fuel : Nat} {path : List UInt8} (h : path.length < fuel) :
    componentsFrom fuel path = [] ↔ path = [] := by
  obtain ⟨m, rfl⟩ : ∃ m, fuel = m + 1 := Nat.exists_eq_succ_of_ne_zero (by omega)
  unfold componentsFrom
  split_ifs with hnil
  · exact iff_of_true rfl hnil
  · exact iff_of_false (by simp) hnil

theorem components_slash (path : List UInt8) : components (slash :: path) = components path := by
  have hskip : skipSlash (slash :: path) = skipSlash path := by
    rw [skipSlash, skipSlash, List.dropWhile_cons, if_pos (by decide)]
  rw [components, components, hskip]

theorem components_name {name : List UInt8} (hne : name ≠ []) (hname : slash ∉ name) (path : List UInt8) :
    components (name ++ slash :: path) = name :: components path := by
  have hall : ∀ x ∈ name, (x != slash) = true := fun x hx => by
    simp only [bne_iff_ne, ne_eq]
    rintro rfl
    exact hname hx
  obtain ⟨c, cs, rfl⟩ := List.exists_cons_of_ne_nil hne
  have hc : (c == slash) = false := by
    have hx := hall c List.mem_cons_self
    simpa using hx
  have hskip : skipSlash ((c :: cs) ++ slash :: path) = (c :: cs) ++ slash :: path := by
    rw [skipSlash, List.cons_append, List.dropWhile_cons, hc]
    rfl
  have htake : ((c :: cs) ++ slash :: path).takeWhile (· != slash) = c :: cs := by
    rw [List.takeWhile_append_of_pos hall, List.takeWhile_cons]
    simp
  have hdrop : ((c :: cs) ++ slash :: path).dropWhile (· != slash) = slash :: path := by
    rw [List.dropWhile_append_of_pos hall, List.dropWhile_cons]
    simp
  have hrest : skipSlash (slash :: path) = skipSlash path := by
    rw [skipSlash, skipSlash, List.dropWhile_cons, if_pos (by decide)]
  have hlen := (List.dropWhile_sublist (· == slash) (l := path)).length_le
  rw [components, hskip, componentsFrom, if_neg (by simp), htake, hdrop, hrest, components]
  congr 1
  refine componentsFrom_fuel (head_skipSlash path) ?_ (Nat.lt_succ_self _)
  simp only [skipSlash, List.length_append, List.length_cons] at *
  omega

theorem components_single {name : List UInt8} (hne : name ≠ []) (hname : slash ∉ name) :
    components name = [name] := by
  have hall : ∀ x ∈ name, (x != slash) = true := fun x hx => by
    simp only [bne_iff_ne, ne_eq]
    rintro rfl
    exact hname hx
  obtain ⟨c, cs, rfl⟩ := List.exists_cons_of_ne_nil hne
  have hc : (c == slash) = false := by
    have hx := hall c List.mem_cons_self
    simpa using hx
  have hskip : skipSlash (c :: cs) = c :: cs := by
    rw [skipSlash, List.dropWhile_cons, hc]
    rfl
  have htake : (c :: cs).takeWhile (· != slash) = c :: cs := List.takeWhile_eq_self_iff.mpr hall
  have hdrop : (c :: cs).dropWhile (· != slash) = [] := List.dropWhile_eq_nil_iff.mpr hall
  rw [components, hskip, componentsFrom, if_neg (by simp), htake, hdrop]
  rfl

private theorem componentsFrom_length (fuel : Nat) {path : List UInt8} (hh : path.head? ≠ some slash) :
    2 * (componentsFrom fuel path).length ≤ path.length + 1 := by
  induction fuel generalizing path with
  | zero => simp [componentsFrom]
  | succ fuel ih =>
    unfold componentsFrom
    split_ifs with hnil
    · simp
    · have hrest := ih (head_skipSlash (path.dropWhile (· != slash)))
      have hne : 0 < (path.takeWhile (· != slash)).length :=
        List.length_pos_of_ne_nil (takeWhile_ne_nil hnil hh)
      have hsplit : (path.takeWhile (· != slash)).length + (path.dropWhile (· != slash)).length =
          path.length := by
        rw [← List.length_append, List.takeWhile_append_dropWhile]
      rw [List.length_cons]
      cases hd : path.dropWhile (· != slash) with
      | nil =>
        rw [hd] at hrest hsplit
        simp only [skipSlash, List.dropWhile_nil, List.length_nil] at hrest hsplit ⊢
        omega
      | cons c cs =>
        have hc : (c == slash) = true := by
          have hf := List.head?_dropWhile_not (fun x => x != slash) path
          rw [hd] at hf
          simpa using hf
        have hle := (List.dropWhile_sublist (· == slash) (l := cs)).length_le
        rw [hd] at hrest hsplit
        rw [skipSlash, List.dropWhile_cons, if_pos hc] at hrest ⊢
        rw [List.length_cons] at hsplit
        omega

theorem components_length {path : List UInt8} (h : path.head? = some slash) :
    2 * (components path).length ≤ path.length := by
  cases path with
  | nil => cases h
  | cons c cs =>
    obtain rfl : c = slash := by simpa using h
    have hle := (List.dropWhile_sublist (· == slash) (l := cs)).length_le
    have hlen := componentsFrom_length ((skipSlash cs).length + 1) (head_skipSlash cs)
    rw [components_slash, components, List.length_cons]
    rw [skipSlash] at hlen ⊢
    omega

private theorem mem_componentsFrom {fuel : Nat} {path name : List UInt8} (hh : path.head? ≠ some slash)
    (h : name ∈ componentsFrom fuel path) : name ≠ [] ∧ slash ∉ name ∧ name.Sublist path := by
  induction fuel generalizing path with
  | zero => cases h
  | succ fuel ih =>
    unfold componentsFrom at h
    split_ifs at h with hnil
    · cases h
    rcases List.mem_cons.mp h with rfl | h
    · refine ⟨takeWhile_ne_nil hnil hh, fun hm => ?_, List.takeWhile_sublist _⟩
      have hp := List.mem_takeWhile_imp hm
      simp at hp
    · obtain ⟨hne, hs, hsub⟩ := ih (head_skipSlash _) h
      exact ⟨hne, hs, hsub.trans ((List.dropWhile_sublist _).trans (List.dropWhile_sublist _))⟩

theorem mem_components {path name : List UInt8} (h : name ∈ components path) :
    name ≠ [] ∧ slash ∉ name ∧ name.Sublist path := by
  obtain ⟨hne, hs, hsub⟩ := mem_componentsFrom (head_skipSlash path) h
  exact ⟨hne, hs, hsub.trans (List.dropWhile_sublist _)⟩

namespace World

def walk (w : World) : List (List UInt8) → Nat → Nat → Nat → Except Err Walk
  | [], _, dir, entry => .ok (.found dir entry)
  | name :: names, i, _, _ =>
    if MAXNAMELEN ≤ name.length then .error .badPath
    else if w.IsDir i then
      match w.lookup i name with
      | none => if names = [] then .ok (.missing (inodeVa i) name) else .error .notFound
      | some e => w.walk names (w.inInd e) (inodeVa i) e
    else .error .notFound

end World

private theorem resolveFrom_eq_walk (w : World) {fuel : Nat} {path : List UInt8} (hh : path.head? ≠ some slash)
    (h : path.length < fuel) (i dir entry : Nat) :
    w.resolveFrom fuel path i dir entry = w.walk (componentsFrom fuel path) i dir entry := by
  induction fuel generalizing path i dir entry with
  | zero => omega
  | succ fuel ih =>
    unfold World.resolveFrom componentsFrom
    by_cases hnil : path = []
    · rw [if_pos hnil, if_pos hnil, World.walk]
    have hshort := rest_length hnil hh
    rw [if_neg hnil, if_neg hnil, World.walk]
    by_cases hlen : MAXNAMELEN ≤ (path.takeWhile (· != slash)).length
    · rw [if_pos hlen, if_pos hlen]
    rw [if_neg hlen, if_neg hlen]
    by_cases hd : w.IsDir i
    swap
    · rw [if_neg hd, if_neg hd]
    rw [if_pos hd, if_pos hd]
    cases w.lookup i (path.takeWhile (· != slash)) with
    | none =>
      have hend := componentsFrom_eq_nil (show (skipSlash (path.dropWhile (· != slash))).length < fuel by omega)
      simp only [hend]
    | some e => exact ih (head_skipSlash _) (by omega) _ _ _

theorem resolve_eq_walk (w : World) {path : List UInt8} (h : path.head? = some slash) :
    w.resolve path = w.walk (components path) 0 0 0 := by
  rw [World.resolve, if_pos h]
  exact resolveFrom_eq_walk w (head_skipSlash path) (Nat.lt_succ_self _) 0 0 0

end DamnOS.FileSystem
