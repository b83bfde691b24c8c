import DamnOS.FileSystem.Listing

/-!
# Paths in the shell

How the shell of `sh.c` puts its working directory and an argument together: `cd` with its walk along
the components of the argument, and the commands and redirections that hand `fullpath` to the server.
-/

namespace DamnOS.Programs

open DamnOS.Framework
open DamnOS.FileSystem

instance lawfulBEq_name : LawfulBEq (List UInt8) := inferInstance

/-- The loop of `update_curpath` that looks for the last slash, from position `i` down. -/
def lastSlash (curpath : List UInt8) : Nat → Nat
  | 0 => 0
  | i + 1 => if curpath.getD (i + 1) 0 ≠ slash ∧ 1 < i + 1 then lastSlash curpath i else i + 1

def updateCurpath (curpath post : List UInt8) (size : Int) : List UInt8 :=
  if 0 < size then
    (if post.head? ≠ some slash ∧ curpath.getLast? ≠ some slash then curpath ++ [slash] else curpath) ++
      post.take size.toNat
  else curpath.take (lastSlash curpath (curpath.length - 1))

def updateFullpath (curpath post : List UInt8) : List UInt8 :=
  (if curpath.getLast? ≠ some slash then curpath ++ [slash] else curpath) ++ post

/-- The inode that `stat` of a path is about. -/
def inodeAt (w : World) (path : List UInt8) : Except Err Nat :=
  match w.resolve path with
  | .ok (.found _ e) => .ok (if e = 0 then 0 else w.inInd e)
  | .ok (.missing _ _) => .error .notFound
  | .error e => .error e

/-- `cd`: the working directory afterwards, and the value it returns.  Every call of itself is on a
shorter path.  Where the working directory is a file, `r` is still what `stat` returned. -/
def cd (w : World) : Nat → List UInt8 → List UInt8 → List UInt8 × Int
  | 0, curpath, _ => (curpath, 0)
  | fuel + 1, curpath, path =>
    if path = [] then (curpath, 0) else
    let path := if path.head? = some slash then path.tail else path
    let target := path.takeWhile (· != slash)
    let rest := path.dropWhile (· != slash)
    if rest = [] ∧ target = [] then (curpath, 0)
    else if MAXNAMELEN < target.length then (curpath, -1)
    else if target = [] then (curpath, -1)
    else
      match inodeAt w curpath with
      | .error e => (curpath, -(e.code : Int))
      | .ok k =>
        if w.IsDir k then
          if target ∈ w.records k then
            if target = [46, 46] ∧ curpath ≠ [slash] then cd w fuel (updateCurpath curpath [] (-1)) rest
            else if target ≠ [46, 46] ∧ target ≠ [46] then
              cd w fuel (updateCurpath curpath target target.length) rest
            else cd w fuel curpath rest
          else (curpath, -1)
        else (curpath, 0)

/-- `cd` in `runcmd`, with one argument: the slash of an absolute argument goes to the front of
`curpath`, where there is one already. -/
def runCd (w : World) (curpath arg : List UInt8) : List UInt8 :=
  let cur := if arg.head? = some slash then curpath.set 0 slash else curpath
  let arg := if arg.head? = some slash then arg.tail else arg
  let r := cd w (arg.length + 1) cur arg
  if r.2 < 0 then curpath else r.1

/-- The path that `rm` and `mkdir` work on: they take care of relative paths themselves. -/
def ownPath (curpath path : List UInt8) : List UInt8 :=
  if path.head? ≠ some slash then updateFullpath curpath path else path

/-- The forms of the shell that take a path. -/
inductive Form where
  | cd
  | rm
  | mkdir
  | cat
  | input
  | output
  deriving DecidableEq

/-- Where a form leads: to another working directory, or to a file, if there is one. -/
inductive Outcome where
  | curpath (path : List UInt8)
  | file (place : Option Walk)
  deriving DecidableEq

/-- The file at `path`, or the place where it would be made. -/
def place (w : World) (path : List UInt8) : Option Walk :=
  match w.resolve path with
  | .ok r => some r
  | .error _ => none

def existing (w : World) (path : List UInt8) : Option Walk :=
  match w.resolve path with
  | .ok (.found dir entry) => some (.found dir entry)
  | _ => none

/-- What `runcmd` does with the argument; `mkdir` and output redirection may make the file. -/
def Form.outcome (w : World) (curpath arg : List UInt8) : Form → Outcome
  | .cd => .curpath (runCd w curpath arg)
  | .rm => .file (existing w (ownPath curpath (updateFullpath curpath arg)))
  | .mkdir => .file (place w (ownPath curpath (updateFullpath curpath arg)))
  | .cat => .file (existing w (updateFullpath curpath arg))
  | .input => .file (existing w (updateFullpath curpath arg))
  | .output => .file (place w (updateFullpath curpath arg))

/-- The working directory with the given components, as `cd` spells it. -/
def spell (names : List (List UInt8)) : List UInt8 :=
  if names = [] then [slash] else names.flatMap fun n => slash :: n

/-- Names that a component of a working directory can be. -/
def Proper (names : List (List UInt8)) : Prop :=
  DirNames names ∧ ∀ n ∈ names, slash ∉ n ∧ n ≠ [46] ∧ n ≠ [46, 46]

instance (names : List (List UInt8)) : Decidable (Proper names) :=
  inferInstanceAs (Decidable (DirNames names ∧ ∀ n ∈ names, slash ∉ n ∧ n ≠ [46] ∧ n ≠ [46, 46]))

theorem Proper.append {names₁ names₂ : List (List UInt8)} (h₁ : Proper names₁) (h₂ : Proper names₂) :
    Proper (names₁ ++ names₂) :=
  ⟨fun n hn => (List.mem_append.mp hn).elim (h₁.1 n) (h₂.1 n),
    fun n hn => (List.mem_append.mp hn).elim (h₁.2 n) (h₂.2 n)⟩

def HasDir (w : World) (path : List UInt8) : Prop := ∃ k, inodeAt w path = .ok k ∧ w.IsDir k

private theorem spell_head (names : List (List UInt8)) : (spell names).head? = some slash := by
  unfold spell
  split_ifs with h
  · rfl
  · obtain ⟨n, ns, rfl⟩ := List.exists_cons_of_ne_nil h
    rfl

private theorem spell_snoc (names : List (List UInt8)) (n : List UInt8) :
    spell (names ++ [n]) = (if names = [] then [] else spell names) ++ slash :: n := by
  rw [spell, if_neg (by simp), List.flatMap_append, List.flatMap_singleton]
  by_cases h : names = []
  · simp [h]
  · rw [if_neg h, spell, if_neg h]

private theorem spell_last {names : List (List UInt8)} (h : Proper names) :
    (spell names).getLast? = some slash ↔ names = [] := by
  rcases List.eq_nil_or_concat names with rfl | ⟨l, n, rfl⟩
  · simp [spell]
  · refine iff_of_false (fun hl => ?_) (by simp)
    obtain ⟨hne, -, -⟩ := h.1 n (by simp)
    rw [List.concat_eq_append, spell_snoc, List.getLast?_append_of_ne_nil _ (by simp)] at hl
    rw [List.getLast?_cons, Option.some_inj, List.getLast?_eq_some_getLast hne, Option.getD_some] at hl
    exact (h.2 n (by simp)).1 (hl ▸ List.getLast_mem hne)

private theorem components_flatMap {names : List (List UInt8)} (h : ∀ n ∈ names, n ≠ [] ∧ slash ∉ n)
    (path : List UInt8) :
    components ((names.flatMap fun n => slash :: n) ++ slash :: path) = names ++ components path := by
  induction names with
  | nil => exact components_slash path
  | cons n ns ih =>
    obtain ⟨hne, hs⟩ := h n List.mem_cons_self
    have hns := ih fun m hm => h m (List.mem_cons_of_mem n hm)
    cases ns with
    | nil =>
      rw [List.flatMap_cons, List.flatMap_nil, List.append_nil, List.cons_append, components_slash,
        components_name hne hs]
      rfl
    | cons m ms =>
      rw [List.flatMap_cons, List.append_assoc, List.cons_append, components_slash]
      rw [List.flatMap_cons, List.cons_append, List.cons_append, components_slash] at hns
      rw [List.flatMap_cons, List.cons_append, List.cons_append, components_name hne hs, hns]
      rfl

private theorem components_fullpath {names : List (List UInt8)} (h : Proper names) (arg : List UInt8) :
    (updateFullpath (spell names) arg).head? = some slash ∧
      components (updateFullpath (spell names) arg) = names ++ components arg := by
  have hp : ∀ n ∈ names, n ≠ [] ∧ slash ∉ n := fun n hn => ⟨(h.1 n hn).1, (h.2 n hn).1⟩
  rw [updateFullpath]
  by_cases hnil : names = []
  · subst hnil
    exact ⟨rfl, components_slash arg⟩
  · rw [if_pos (fun hl => hnil ((spell_last h).mp hl)), List.append_assoc]
    refine ⟨?_, ?_⟩
    · rw [List.head?_append, spell_head]
      rfl
    · rw [spell, if_neg hnil]
      exact components_flatMap hp arg

theorem Proper.length {names : List (List UInt8)} (h : Proper names) {arg : List UInt8}
    (hfit : (updateFullpath (spell names) arg).length < MAXPATHLEN) :
    2 * (names ++ components arg).length < 128 := by
  obtain ⟨hh, hc⟩ := components_fullpath h arg
  have hlen := components_length hh
  rw [hc] at hlen
  exact lt_of_le_of_lt hlen hfit

private theorem components_spell {names : List (List UInt8)} (h : Proper names) : components (spell names) = names := by
  have hp : ∀ n ∈ names, n ≠ [] ∧ slash ∉ n := fun n hn => ⟨(h.1 n hn).1, (h.2 n hn).1⟩
  clear h
  unfold spell
  split_ifs with hnil
  · rw [hnil]
    rfl
  · clear hnil
    induction names with
    | nil => rfl
    | cons n ns ih =>
      obtain ⟨hne, hs⟩ := hp n List.mem_cons_self
      have hns := ih fun m hm => hp m (List.mem_cons_of_mem n hm)
      rw [List.flatMap_cons, List.cons_append, components_slash]
      cases ns with
      | nil =>
        rw [List.flatMap_nil, List.append_nil]
        exact components_single hne hs
      | cons m ms =>
        rw [List.flatMap_cons, List.cons_append, components_slash] at hns
        rw [List.flatMap_cons, List.cons_append, components_name hne hs, hns]

section Trees

variable {T : Tree} {names : List (List UInt8)} {k : Nat}

private theorem inodeAt_leads (h : Proper names) (hl : T.Leads names k) : inodeAt T.world (spell names) = .ok k := by
  have hw := hl.walk []
  rw [List.append_nil] at hw
  rw [inodeAt, resolve_eq_walk _ (spell_head names), components_spell h, hw]
  dsimp only [World.walk]
  rw [Tree.entryVa]
  cases hl.at with
  | root => rfl
  | child hpos hle _ =>
    have hk : k ≠ 0 := Nat.ne_of_gt hpos
    have he : T.entry k ≠ 0 := by
      simp only [Tree.entry, blockVa, DISKMAP]
      omega
    rw [if_neg hk, if_neg he, T.inInd_world hpos hle]

private theorem hasDir_leads (h : Proper names) (hl : T.Leads names k) : HasDir T.world (spell names) :=
  ⟨k, inodeAt_leads h hl, T.isDir_world hl.at.lt⟩

end Trees

/-- A component that no directory entry has room for. -/
def Overlong (arg : List UInt8) : Prop := ∃ n ∈ components arg, MAXNAMELEN ≤ n.length

private theorem walk_overlong (w : World) {names : List (List UInt8)} (h : ∃ n ∈ names, MAXNAMELEN ≤ n.length)
    (i dir entry : Nat) : ∃ e, w.walk names i dir entry = .error e := by
  induction names generalizing i dir entry with
  | nil =>
    obtain ⟨n, hn, -⟩ := h
    cases hn
  | cons m names ih =>
    rw [World.walk]
    by_cases hm : MAXNAMELEN ≤ m.length
    · exact ⟨_, if_pos hm⟩
    rw [if_neg hm]
    by_cases hd : w.IsDir i
    swap
    · exact ⟨_, if_neg hd⟩
    rw [if_pos hd]
    have hrest : ∃ n ∈ names, MAXNAMELEN ≤ n.length := by
      obtain ⟨n, hn, hlen⟩ := h
      rcases List.mem_cons.mp hn with rfl | hn
      · exact absurd hlen hm
      · exact ⟨n, hn, hlen⟩
    cases w.lookup i m with
    | none =>
      refine ⟨_, if_neg ?_⟩
      rintro rfl
      obtain ⟨n, hn, -⟩ := hrest
      cases hn
    | some e => exact ih hrest _ _ _

def Form.sees (f : Form) : Except Err Walk → Option Walk
  | .ok (.found dir entry) => some (.found dir entry)
  | .ok (.missing dir name) => if f = .mkdir ∨ f = .output then some (.missing dir name) else none
  | .error _ => none

private theorem Form.sees_found {f : Form} {r : Except Err Walk} {dir entry : Nat}
    (h : f.sees r = some (.found dir entry)) : r = .ok (.found dir entry) := by
  cases r with
  | error e => cases h
  | ok r =>
    cases r with
    | found _ _ =>
      cases h
      rfl
    | missing _ _ =>
      rw [Form.sees] at h
      split_ifs at h
      cases h

private theorem outcome_file {f : Form} (hf : f ≠ .cd) (w : World) {names : List (List UInt8)} (h : Proper names)
    (arg : List UInt8) :
    f.outcome w (spell names) arg = .file (f.sees (w.walk (names ++ components arg) 0 0 0)) := by
  obtain ⟨hhead, hcomp⟩ := components_fullpath h arg
  have hown : ownPath (spell names) (updateFullpath (spell names) arg) = updateFullpath (spell names) arg := by
    rw [ownPath, if_neg (not_not.mpr hhead)]
  have hres : w.resolve (updateFullpath (spell names) arg) = w.walk (names ++ components arg) 0 0 0 := by
    rw [resolve_eq_walk w hhead, hcomp]
  cases f with
  | cd => exact absurd rfl hf
  | rm | mkdir | cat | input | output =>
    simp only [Form.outcome, existing, place, hown, hres]
    cases w.walk (names ++ components arg) 0 0 0 with
    | error e => rfl
    | ok r => cases r <;> rfl

/-- In a tree that has both working directories and the file below the second, the two are told apart. -/
theorem files_differ {names₁ names₂ : List (List UInt8)} (h₁ : Proper names₁) (h₂ : Proper names₂)
    (hne : names₁ ≠ names₂) {arg : List UInt8} (h0 : (0 : UInt8) ∉ arg) (hlong : ¬Overlong arg)
    (hfit₁ : (updateFullpath (spell names₁) arg).length < MAXPATHLEN)
    (hfit₂ : (updateFullpath (spell names₂) arg).length < MAXPATHLEN) : ∃ w, Orderly MAXINODENUM w ∧
      HasDir w (spell names₁) ∧ HasDir w (spell names₂) ∧ ∀ f : Form, f ≠ .cd →
        f.outcome w (spell names₁) arg ≠ f.outcome w (spell names₂) arg := by
  have harg : ∀ n ∈ components arg, n ≠ [] ∧ n.length < MAXNAMELEN ∧ (0 : UInt8) ∉ n := by
    intro n hn
    obtain ⟨hn0, -, hsub⟩ := mem_components hn
    refine ⟨hn0, ?_, fun hm => h0 (hsub.subset hm)⟩
    by_contra hlen
    exact hlong ⟨n, hn, not_lt.mp hlen⟩
  have hc₁ := h₁.length hfit₁
  have hc₂ := h₂.length hfit₂
  have hleft : DirNames (names₂ ++ components arg) := fun n hn =>
    (List.mem_append.mp hn).elim (h₂.1 n) (harg n)
  have hsmall : (names₂ ++ components arg).length + names₁.length < MAXINODENUM := by
    simp only [List.length_append, MAXINODENUM] at *
    omega
  obtain ⟨T, hT⟩ : ∃ T, T = branches (names₂ ++ components arg) names₁ hleft h₁.1 hsmall := ⟨_, rfl⟩
  obtain ⟨⟨k, hk⟩, k₁, hk₁⟩ := branches_leads hleft h₁.1 hsmall
  rw [← hT] at hk hk₁
  obtain ⟨k₂, hk₂⟩ := hk.before
  refine ⟨T.world, T.orderly_world, hasDir_leads h₁ hk₁, hasDir_leads h₂ hk₂, fun f hf he => ?_⟩
  rw [outcome_file hf _ h₁, outcome_file hf _ h₂, Outcome.file.injEq] at he
  have hw := hk.walk []
  rw [List.append_nil] at hw
  have hfound : T.world.walk (names₂ ++ components arg) 0 0 0 = .ok (.found (T.dirVa k) (T.entryVa k)) := hw
  rw [hfound] at he
  have hnames : ∀ n ∈ names₁ ++ components arg, n ≠ [] ∧ (0 : UInt8) ∉ n := by
    intro n hn
    rcases List.mem_append.mp hn with hn | hn
    · exact ⟨(h₁.1 n hn).1, (h₁.1 n hn).2.2⟩
    · exact ⟨(harg n hn).1, (harg n hn).2.2⟩
  have hsame := hk.eq_of_walk hnames ((Form.sees_found he).trans hfound.symm)
  exact hne (List.append_cancel_right hsame)

/-- The names that `cd` follows, one after the other, unless the argument is malformed. -/
def cdTokens : Nat → List UInt8 → Option (List (List UInt8))
  | 0, _ => some []
  | fuel + 1, path =>
    if path = [] then some [] else
    let path := if path.head? = some slash then path.tail else path
    let target := path.takeWhile (· != slash)
    let rest := path.dropWhile (· != slash)
    if rest = [] ∧ target = [] then some []
    else if MAXNAMELEN < target.length then none
    else if target = [] then none
    else (cdTokens fuel rest).map (target :: ·)

private theorem cut_path {path : List UInt8} (h0 : (0 : UInt8) ∉ path) :
    (0 : UInt8) ∉ (if path.head? = some slash then path.tail else path).takeWhile (· != slash) ∧
    slash ∉ (if path.head? = some slash then path.tail else path).takeWhile (· != slash) ∧
    (0 : UInt8) ∉ (if path.head? = some slash then path.tail else path).dropWhile (· != slash) := by
  have hp0 : (0 : UInt8) ∉ if path.head? = some slash then path.tail else path := by
    split_ifs
    · exact fun hm => h0 (List.mem_of_mem_tail hm)
    · exact h0
  refine ⟨fun hm => hp0 ((List.takeWhile_sublist _).subset hm), fun hm => ?_,
    fun hm => hp0 ((List.dropWhile_sublist _).subset hm)⟩
  have hns := List.mem_takeWhile_imp hm
  simp at hns

private theorem updateCurpath_spell {names : List (List UInt8)} (h : Proper names) {n : List UInt8} (hne : n ≠ [])
    (hs : slash ∉ n) : updateCurpath (spell names) n n.length = spell (names ++ [n]) := by
  have hlen : (0 : Int) < n.length := by
    have := List.length_pos_iff.mpr hne
    omega
  have hhead : n.head? ≠ some slash := fun hh => hs (List.mem_of_head? hh)
  rw [updateCurpath, if_pos hlen, Int.toNat_natCast, List.take_length, spell_snoc]
  by_cases hnil : names = []
  · subst hnil
    rw [if_neg (by simp [spell]), if_pos rfl]
    rfl
  · rw [if_pos ⟨hhead, fun hl => hnil ((spell_last h).mp hl)⟩, if_neg hnil, List.append_assoc]
    rfl

private theorem lastSlash_eq {curpath : List UInt8} {p : Nat} (hp : curpath.getD p 0 = slash) {i : Nat} (hle : p ≤ i)
    (hpos : 1 ≤ i) (h : ∀ q, p < q → q ≤ i → curpath.getD q 0 ≠ slash) : lastSlash curpath i = max p 1 := by
  induction i with
  | zero => omega
  | succ i ih =>
    rw [lastSlash]
    rcases Nat.eq_or_lt_of_le hle with he | hlt
    · rw [he] at hp
      rw [if_neg (fun hc => hc.1 hp)]
      omega
    have hcur := h (i + 1) hlt le_rfl
    by_cases hi : 1 < i + 1
    · rw [if_pos ⟨hcur, hi⟩, ih (by omega) (by omega) fun q hq hqi => h q hq (by omega)]
    · rw [if_neg (fun hc => hi hc.2)]
      omega

private theorem updateCurpath_parent {names : List (List UInt8)} {n : List UInt8} (hne : n ≠ []) (hs : slash ∉ n) :
    updateCurpath (spell (names ++ [n])) [] (-1) = spell names := by
  obtain ⟨base, hbase⟩ : ∃ base, base = if names = [] then [] else spell names := ⟨_, rfl⟩
  have hpos := List.length_pos_iff.mpr hne
  rw [updateCurpath, if_neg (by decide), spell_snoc, ← hbase]
  have hlast : lastSlash (base ++ slash :: n) ((base ++ slash :: n).length - 1) = max base.length 1 := by
    refine lastSlash_eq (by simp) (by simp) ?_ fun q hq hle hqs => hs ?_
    · simp only [List.length_append, List.length_cons]
      omega
    · simp only [List.length_append, List.length_cons] at hle
      obtain ⟨d, rfl⟩ : ∃ d, q = base.length + (d + 1) := ⟨q - base.length - 1, by omega⟩
      rw [List.getD_append_right _ _ _ _ (by omega), Nat.add_sub_cancel_left, List.getD_cons_succ,
        List.getD_eq_getElem _ _ (by omega)] at hqs
      rw [← hqs]
      exact List.getElem_mem _
  rw [hlast, hbase]
  by_cases hnil : names = []
  · rw [if_pos hnil, hnil]
    rfl
  · have hlen : 1 ≤ (spell names).length := by
      rw [Nat.one_le_iff_ne_zero]
      intro he
      have hh := spell_head names
      rw [List.length_eq_zero_iff.mp he] at hh
      cases hh
    rw [if_neg hnil, Nat.max_eq_left hlen, List.take_left' rfl]

/-- `cd` leads from one spelled directory to another. -/
theorem cd_spelled {w : World} (hw : ∀ k, ∀ n ∈ w.records k, n.length < MAXNAMELEN) (fuel : Nat)
    {path : List UInt8} (h0 : (0 : UInt8) ∉ path) {names : List (List UInt8)} (h : Proper names) :
    ∃ names', Proper names' ∧ (cd w fuel (spell names) path).1 = spell names' := by
  induction fuel generalizing path names with
  | zero => exact ⟨names, h, rfl⟩
  | succ fuel ih =>
    rw [cd]
    obtain ⟨ht0, hts, hr0⟩ := cut_path h0
    dsimp only
    generalize (if path.head? = some slash then path.tail else path).takeWhile (· != slash) = target at *
    generalize (if path.head? = some slash then path.tail else path).dropWhile (· != slash) = rest at *
    have hstay : ∃ names', Proper names' ∧ spell names = spell names' := ⟨names, h, rfl⟩
    by_cases hnil : path = []
    · rwa [if_pos hnil]
    rw [if_neg hnil]
    by_cases hend : rest = [] ∧ target = []
    · rwa [if_pos hend]
    rw [if_neg hend]
    by_cases hlong : MAXNAMELEN < target.length
    · rwa [if_pos hlong]
    rw [if_neg hlong]
    by_cases hempty : target = []
    · rwa [if_pos hempty]
    rw [if_neg hempty]
    cases inodeAt w (spell names) with
    | error e => exact hstay
    | ok k =>
      dsimp only
      by_cases hdir : w.IsDir k
      swap
      · rwa [if_neg hdir]
      rw [if_pos hdir]
      by_cases hmem : target ∈ w.records k
      swap
      · rwa [if_neg hmem]
      rw [if_pos hmem]
      split_ifs with hup hdown
      · rcases List.eq_nil_or_concat names with rfl | ⟨l, n, rfl⟩
        · exact absurd rfl hup.2
        · rw [List.concat_eq_append] at h ⊢
          rw [updateCurpath_parent (h.1 n (by simp)).1 (h.2 n (by simp)).1]
          exact ih hr0 ⟨fun m hm => h.1 m (List.mem_append_left _ hm),
            fun m hm => h.2 m (List.mem_append_left _ hm)⟩
      · rw [updateCurpath_spell h hempty hts]
        refine ih hr0 (h.append ⟨fun m hm => ?_, fun m hm => ?_⟩)
        · rw [List.mem_singleton.mp hm]
          exact ⟨hempty, hw k target hmem, ht0⟩
        · rw [List.mem_singleton.mp hm]
          exact ⟨hts, hdown.2, hdown.1⟩
      · exact ih hr0 h

/-- A tree of names that a component of a working directory can be. -/
def Plain (T : Tree) : Prop :=
  ∀ k, 0 < k → k ≤ T.size → slash ∉ T.name k ∧ T.name k ≠ [46] ∧ T.name k ≠ [46, 46]

theorem Plain.proper {T : Tree} (hT : Plain T) {names : List (List UInt8)} {k : Nat} (h : T.Leads names k) :
    Proper names := by
  induction h with
  | root => decide
  | child _ hc ih =>
    have hn := hT _ hc.pos hc.le
    have hd := T.named _ hc.pos hc.le
    rw [hc.called] at hn hd
    refine ih.append ⟨fun n hmem => ?_, fun n hmem => ?_⟩
    · exact List.mem_singleton.mp hmem ▸ hd
    · exact List.mem_singleton.mp hmem ▸ hn

private theorem mem_records_child {T : Tree} {i : Nat} (hi : i < MAXINODENUM) {n : List UInt8} (hne : n ≠ [])
    (h0 : (0 : UInt8) ∉ n) : n ∈ T.world.records i ↔ ∃ k, T.Child i n k := by
  rw [T.mem_records hi hne h0]
  constructor
  · rintro ⟨k, hpos, hle, hpar, hname⟩
    exact T.exists_child hpos hle hpar hname
  · rintro ⟨k, hc⟩
    exact ⟨k, hc.pos, hc.le, hc.parent, hc.called⟩

/-- In a tree, `cd` succeeds if its names lead somewhere, and then that is the new working directory. -/
theorem cd_tree {T : Tree} (hT : Plain T) (fuel : Nat) {path : List UInt8} (h0 : (0 : UInt8) ∉ path)
    {names : List (List UInt8)} {i : Nat} (hl : T.Leads names i) :
    (∃ toks, cdTokens fuel path = some toks ∧ (∃ j, T.Leads (names ++ toks) j) ∧
      cd T.world fuel (spell names) path = (spell (names ++ toks), 0)) ∨
    (∀ toks, cdTokens fuel path = some toks → ¬∃ j, T.Leads (names ++ toks) j) ∧
      (cd T.world fuel (spell names) path).2 < 0 := by
  have hstay (fuel : Nat) (path : List UInt8) {names : List (List UInt8)} {i : Nat} (hl : T.Leads names i)
      (he : cdTokens fuel path = some []) (hc : cd T.world fuel (spell names) path = (spell names, 0)) :
      ∃ toks, cdTokens fuel path = some toks ∧ (∃ j, T.Leads (names ++ toks) j) ∧
        cd T.world fuel (spell names) path = (spell (names ++ toks), 0) :=
    ⟨[], he, ⟨i, by rwa [List.append_nil]⟩, by rw [hc, List.append_nil]⟩
  induction fuel generalizing path names i with
  | zero => exact Or.inl (hstay _ _ hl rfl rfl)
  | succ fuel ih =>
    by_cases hnil : path = []
    · exact Or.inl (hstay _ _ hl (by rw [cdTokens, if_pos hnil]) (by rw [cd, if_pos hnil]))
    rw [cdTokens, cd, if_neg hnil, if_neg hnil]
    obtain ⟨ht0, hts, hr0⟩ := cut_path h0
    dsimp only
    generalize (if path.head? = some slash then path.tail else path).takeWhile (· != slash) = target at *
    generalize (if path.head? = some slash then path.tail else path).dropWhile (· != slash) = rest at *
    have hfail (cur : List UInt8) : (∀ toks, (none : Option (List (List UInt8))) = some toks →
        ¬∃ j, T.Leads (names ++ toks) j) ∧ ((cur, -1) : List UInt8 × Int).2 < 0 :=
      ⟨(fun _ he => by cases he), by simp⟩
    by_cases hend : rest = [] ∧ target = []
    · rw [if_pos hend, if_pos hend]
      exact Or.inl ⟨[], rfl, ⟨i, by rwa [List.append_nil]⟩, by rw [List.append_nil]⟩
    rw [if_neg hend, if_neg hend]
    by_cases hlong : MAXNAMELEN < target.length
    · rw [if_pos hlong, if_pos hlong]
      exact Or.inr (hfail _)
    rw [if_neg hlong, if_neg hlong]
    by_cases hempty : target = []
    · rw [if_pos hempty, if_pos hempty]
      exact Or.inr (hfail _)
    rw [if_neg hempty, if_neg hempty, inodeAt_leads (hT.proper hl) hl]
    dsimp only
    rw [if_pos (T.isDir_world hl.at.lt)]
    by_cases hmem : target ∈ T.world.records i
    · rw [if_pos hmem]
      obtain ⟨k, hc⟩ := (mem_records_child hl.at.lt hempty ht0).mp hmem
      obtain ⟨-, hdot, hdots⟩ := hT k hc.pos hc.le
      rw [hc.called] at hdot hdots
      rw [if_neg (fun hd => hdots hd.1), if_pos ⟨hdots, hdot⟩, updateCurpath_spell (hT.proper hl) hempty hts]
      have hl' := hl.child hc
      rcases ih hr0 hl' with ⟨toks, htoks, hj, hcd⟩ | ⟨hno, hcd⟩
      · left
        refine ⟨target :: toks, by rw [htoks]; rfl, ?_, ?_⟩
        · rwa [← List.append_cons] at hj
        · rwa [← List.append_cons] at hcd
      · right
        refine ⟨fun toks he hj => ?_, hcd⟩
        obtain ⟨toks', htoks, rfl⟩ := Option.map_eq_some_iff.mp he
        rw [List.append_cons] at hj
        exact hno toks' htoks hj
    · rw [if_neg hmem]
      right
      refine ⟨fun toks he hj => ?_, by simp⟩
      -- the first name is not there
      obtain ⟨toks', -, rfl⟩ := Option.map_eq_some_iff.mp he
      obtain ⟨j, hj⟩ := hj
      rw [List.append_cons] at hj
      obtain ⟨k, hk⟩ := hj.before
      obtain ⟨i', hi', hc⟩ := hk.snoc
      rw [hi'.unique hl] at hc
      exact hmem ((mem_records_child hl.at.lt hempty ht0).mpr ⟨k, hc⟩)

private theorem runCd_spell (w : World) (names : List (List UInt8)) {arg : List UInt8}
    (hhead : arg.head? = some slash) :
    runCd w (spell names) arg =
      if (cd w (arg.tail.length + 1) (spell names) arg.tail).2 < 0 then spell names
      else (cd w (arg.tail.length + 1) (spell names) arg.tail).1 := by
  -- the slash that `runcmd` puts in front is there
  have hset : (spell names).set 0 slash = spell names := by
    have hh := spell_head names
    cases hs : spell names with
    | nil => rfl
    | cons c cs =>
      rw [hs, List.head?_cons, Option.some_inj] at hh
      rw [hh]
      rfl
  simp only [runCd, if_pos hhead, hset]

private theorem runCd_reached {T : Tree} (hT : Plain T) {names toks : List (List UInt8)} {i j : Nat}
    (hl : T.Leads names i) {arg : List UInt8} (hhead : arg.head? = some slash) (h0 : (0 : UInt8) ∉ arg)
    (ht : cdTokens (arg.tail.length + 1) arg.tail = some toks) (hj : T.Leads (names ++ toks) j) :
    runCd T.world (spell names) arg = spell (names ++ toks) := by
  rw [runCd_spell _ _ hhead]
  have h0' : (0 : UInt8) ∉ arg.tail := fun hm => h0 (List.mem_of_mem_tail hm)
  rcases cd_tree hT (arg.tail.length + 1) h0' hl with ⟨toks', ht', -, hcd⟩ | ⟨hno, -⟩
  · rw [ht, Option.some_inj] at ht'
    rw [hcd, ht', if_neg (by simp)]
  · exact absurd ⟨j, hj⟩ (hno toks ht)

private theorem runCd_missed {T : Tree} (hT : Plain T) {names : List (List UInt8)} {i : Nat}
    (hl : T.Leads names i) {arg : List UInt8} (hhead : arg.head? = some slash) (h0 : (0 : UInt8) ∉ arg)
    (hno : ∀ toks j, cdTokens (arg.tail.length + 1) arg.tail = some toks → ¬T.Leads (names ++ toks) j) :
    runCd T.world (spell names) arg = spell names := by
  rw [runCd_spell _ _ hhead]
  have h0' : (0 : UInt8) ∉ arg.tail := fun hm => h0 (List.mem_of_mem_tail hm)
  rcases cd_tree hT (arg.tail.length + 1) h0' hl with ⟨toks', ht', ⟨j, hj⟩, -⟩ | ⟨-, hcd⟩
  · exact absurd hj (hno toks' j ht')
  · rw [if_pos hcd]

private theorem spell_inj {names₁ names₂ : List (List UInt8)} (h₁ : Proper names₁) (h₂ : Proper names₂)
    (h : spell names₁ = spell names₂) : names₁ = names₂ := by
  rw [← components_spell h₁, h, components_spell h₂]

private theorem plain_branches {as bs : List (List UInt8)} (ha : Proper as) (hb : Proper bs)
    (hsmall : as.length + bs.length < MAXINODENUM) : Plain (branches as bs ha.1 hb.1 hsmall) := by
  intro k hpos hle
  rcases mem_name_branches ha.1 hb.1 hsmall hpos hle with hm | hm
  · exact ha.2 _ hm
  · exact hb.2 _ hm

private theorem cds_differ {names₁ names₂ : List (List UInt8)} (h₁ : Proper names₁) (h₂ : Proper names₂)
    (hne : names₁ ≠ names₂) (hlen : names₁.length ≤ names₂.length) (hroom : 2 * names₂.length < MAXINODENUM)
    {arg : List UInt8} (hhead : arg.head? = some slash) (h0 : (0 : UInt8) ∉ arg) :
    ∃ w, Orderly MAXINODENUM w ∧ HasDir w (spell names₁) ∧ HasDir w (spell names₂) ∧
      runCd w (spell names₁) arg ≠ runCd w (spell names₂) arg := by
  by_cases hext : ∃ toks, cdTokens (arg.tail.length + 1) arg.tail = some toks ∧ names₁ ++ toks = names₂
  · -- where the names lead from the first directory to the second, they lead on from there
    obtain ⟨toks, htoks, rfl⟩ := hext
    have ht : Proper toks := ⟨fun n hn => h₂.1 n (List.mem_append_right _ hn),
      fun n hn => h₂.2 n (List.mem_append_right _ hn)⟩
    have hnil : Proper [] := by decide
    have hsmall : (names₁ ++ toks ++ toks).length + ([] : List (List UInt8)).length < MAXINODENUM := by
      simp only [List.length_append, List.length_nil, MAXINODENUM] at hroom ⊢
      omega
    have hT := plain_branches (h₂.append ht) hnil hsmall
    obtain ⟨⟨k, hk⟩, -⟩ := branches_leads (h₂.append ht).1 hnil.1 hsmall
    obtain ⟨k₂, hk₂⟩ := hk.before
    obtain ⟨k₁, hk₁⟩ := hk₂.before
    refine ⟨_, Tree.orderly_world _, hasDir_leads h₁ hk₁, hasDir_leads h₂ hk₂, fun he => ?_⟩
    rw [runCd_reached hT hk₁ hhead h0 htoks hk₂, runCd_reached hT hk₂ hhead h0 htoks hk] at he
    have hsame := spell_inj h₂ (h₂.append ht) he
    rw [List.self_eq_append_right] at hsame
    rw [hsame, List.append_nil] at hne
    exact hne rfl
  · have hsmall : names₂.length + names₁.length < MAXINODENUM := by omega
    have hT := plain_branches h₂ h₁ hsmall
    obtain ⟨⟨k₂, hk₂⟩, k₁, hk₁⟩ := branches_leads h₂.1 h₁.1 hsmall
    refine ⟨_, Tree.orderly_world _, hasDir_leads h₁ hk₁, hasDir_leads h₂ hk₂, fun he => ?_⟩
    have hstay : runCd (branches names₂ names₁ h₂.1 h₁.1 hsmall).world (spell names₂) arg = spell names₂ := by
      by_cases hgo : ∃ toks j, cdTokens (arg.tail.length + 1) arg.tail = some toks ∧
          (branches names₂ names₁ h₂.1 h₁.1 hsmall).Leads (names₂ ++ toks) j
      · obtain ⟨toks, j, htoks, hj⟩ := hgo
        rw [runCd_reached hT hk₂ hhead h0 htoks hj, branches_leaf h₂.1 h₁.1 hsmall hlen hne.symm hj,
          List.append_nil]
      · exact runCd_missed hT hk₂ hhead h0 fun toks j htoks hj => hgo ⟨toks, j, htoks, hj⟩
    rw [hstay] at he
    by_cases hgo : ∃ toks j, cdTokens (arg.tail.length + 1) arg.tail = some toks ∧
        (branches names₂ names₁ h₂.1 h₁.1 hsmall).Leads (names₁ ++ toks) j
    · obtain ⟨toks, j, htoks, hj⟩ := hgo
      rw [runCd_reached hT hk₁ hhead h0 htoks hj] at he
      exact hext ⟨toks, htoks, spell_inj (hT.proper hj) h₂ he⟩
    · rw [runCd_missed hT hk₁ hhead h0 fun toks j htoks hj => hgo ⟨toks, j, htoks, hj⟩] at he
      exact hne (spell_inj h₁ h₂ he)

/-- A form does the same with `arg` from both working directories, on every file system that has them. -/
def Form.Absolute (f : Form) (names₁ names₂ : List (List UInt8)) (arg : List UInt8) : Prop :=
  ∀ N w, Orderly N w → HasDir w (spell names₁) → HasDir w (spell names₂) →
    f.outcome w (spell names₁) arg = f.outcome w (spell names₂) arg

theorem Form.Absolute.symm {f : Form} {names₁ names₂ : List (List UInt8)} {arg : List UInt8}
    (h : f.Absolute names₁ names₂ arg) : f.Absolute names₂ names₁ arg :=
  fun N w hw h₁ h₂ => (h N w hw h₂ h₁).symm

private theorem not_absolute_cd {names₁ names₂ : List (List UInt8)} (h₁ : Proper names₁) (h₂ : Proper names₂)
    (hne : names₁ ≠ names₂) {arg : List UInt8} (hhead : arg.head? = some slash) (h0 : (0 : UInt8) ∉ arg)
    (hfit₁ : (updateFullpath (spell names₁) arg).length < MAXPATHLEN)
    (hfit₂ : (updateFullpath (spell names₂) arg).length < MAXPATHLEN) :
    ¬Form.cd.Absolute names₁ names₂ arg := by
  have hroom {names : List (List UInt8)} (h : Proper names)
      (hfit : (updateFullpath (spell names) arg).length < MAXPATHLEN) : 2 * names.length < MAXINODENUM := by
    have hl := h.length hfit
    simp only [List.length_append, MAXINODENUM] at hl ⊢
    omega
  have hshort {names names' : List (List UInt8)} (h : Proper names) (h' : Proper names') (hne : names ≠ names')
      (hlen : names.length ≤ names'.length) (hr : 2 * names'.length < MAXINODENUM) :
      ¬Form.cd.Absolute names names' arg := by
    intro ha
    obtain ⟨w, hw, hd, hd', hdiff⟩ := cds_differ h h' hne hlen hr hhead h0
    exact hdiff (Outcome.curpath.inj (ha _ w hw hd hd'))
  rcases Nat.le_total names₁.length names₂.length with hlen | hlen
  · exact hshort h₁ h₂ hne hlen (hroom h₂ hfit₂)
  · exact fun ha => hshort h₂ h₁ hne.symm hlen (hroom h₁ hfit₁) ha.symm

/-- An absolute argument means the same from two working directories only if they are one, or if it
names no file at all. -/
theorem absolute_iff (f : Form) {names₁ names₂ : List (List UInt8)} {arg : List UInt8} (h₁ : Proper names₁)
    (h₂ : Proper names₂) (hhead : arg.head? = some slash) (h0 : (0 : UInt8) ∉ arg)
    (hfit₁ : (updateFullpath (spell names₁) arg).length < MAXPATHLEN)
    (hfit₂ : (updateFullpath (spell names₂) arg).length < MAXPATHLEN) :
    f.Absolute names₁ names₂ arg ↔ names₁ = names₂ ∨ f ≠ .cd ∧ Overlong arg := by
  constructor
  · intro ha
    by_cases hne : names₁ = names₂
    · exact Or.inl hne
    right
    by_cases hf : f = .cd
    · subst hf
      exact absurd ha (not_absolute_cd h₁ h₂ hne hhead h0 hfit₁ hfit₂)
    · refine ⟨hf, ?_⟩
      by_contra hlong
      obtain ⟨w, hw, hd₁, hd₂, hdiff⟩ := files_differ h₁ h₂ hne h0 hlong hfit₁ hfit₂
      exact hdiff f hf (ha _ w hw hd₁ hd₂)
  · rintro (rfl | ⟨hf, n, hn, hlen⟩) N w _ _ _
    · rfl
    · obtain ⟨e₁, he₁⟩ := walk_overlong w ⟨n, List.mem_append_right names₁ hn, hlen⟩ 0 0 0
      obtain ⟨e₂, he₂⟩ := walk_overlong w ⟨n, List.mem_append_right names₂ hn, hlen⟩ 0 0 0
      rw [outcome_file hf w h₁, outcome_file hf w h₂, he₁, he₂]
      rfl

theorem absolute_iff_same : Form.rm.Absolute [[97]] [[97]] [slash, 98] ↔
    ([[97]] : List (List UInt8)) = [[97]] ∨ Form.rm ≠ .cd ∧ Overlong [slash, 98] :=
  absolute_iff .rm (by decide) (by decide) rfl (by decide) (by decide) (by decide)

/-- From `/` and from `/a`, `rm /b` and `cd /b` are about different files. -/
theorem not_absolute : ¬Form.rm.Absolute [] [[97]] [slash, 98] ∧ ¬Form.cd.Absolute [] [[97]] [slash, 98] := by
  have h₁ : Proper [] := by decide
  have h₂ : Proper [[97]] := by decide
  constructor
  · intro ha
    have hlong : ¬Overlong [slash, 98] := by
      rintro ⟨n, hn, hlen⟩
      have hc : components [slash, 98] = [[98]] := by decide
      rw [hc, List.mem_singleton] at hn
      rw [hn] at hlen
      revert hlen
      decide
    obtain ⟨w, hw, hd₁, hd₂, hdiff⟩ :=
      files_differ h₁ h₂ (by decide) (by decide) hlong (by decide) (by decide)
    exact hdiff .rm (by decide) (ha _ w hw hd₁ hd₂)
  · exact not_absolute_cd h₁ h₂ (by decide) rfl (by decide) (by decide) (by decide)

end DamnOS.Programs
