import DamnOS.FileSystem.Folding

/-!
# What creation and removal do to paths

Creating a file gives a name to one entry, removing it takes the name away again.  Where names are
unique, every lookup of another name ends as before, and with it every walk that does not pass through
the entry.
-/

namespace DamnOS.FileSystem

open DamnOS.Framework

/-- The same directories, which differ in the entry `e` of `d` at most. -/
structure Reentered (N : Nat) (w v : World) (d e : Nat) : Prop where
  isDir : ∀ i, i < N → (v.IsDir i ↔ w.IsDir i)
  entries : ∀ i, i < N → w.IsDir i → v.entries i = w.entries i
  byte : ∀ i f, i < N → w.IsDir i → f ∈ w.entries i → f ≠ e → ∀ x, f ≤ x → x < f + DIRESIZE →
    v.byte x = w.byte x
  only : ∀ i, i < N → w.IsDir i → e ∈ w.entries i → i = d

namespace Reentered

variable {N : Nat} {w v : World} {d e : Nat} (h : Reentered N w v d e) {i : Nat} (hi : i < N)
  (hd : w.IsDir i)
include h hi hd

private theorem matches_other {f : Nat} (hf : f ∈ w.entries i) (hne : f ≠ e) {name : List UInt8}
    (hlen : name.length < MAXNAMELEN) : nameMatches v f name = nameMatches w f name := by
  refine nameMatches_congr fun x hlo hhi => h.byte i f hi hd hf hne x hlo ?_
  simp only [MAXNAMELEN, DIRESIZE] at *
  omega

private theorem inInd_other {f : Nat} (hf : f ∈ w.entries i) (hne : f ≠ e) : v.inInd f = w.inInd f := by
  have hb := h.byte i f hi hd hf hne
  refine u16_congr (hb _ ?_ ?_) (hb _ ?_ ?_) <;> simp only [offInInd, DIRESIZE] <;> omega

private theorem entryName_other {f : Nat} (hf : f ∈ w.entries i) (hne : f ≠ e) :
    v.entryName f = w.entryName f := by
  rw [World.entryName, World.entryName]
  congr 1
  refine List.map_congr_left fun o ho => h.byte i f hi hd hf hne _ (Nat.le_add_right _ _) ?_
  rw [List.mem_range] at ho
  simp only [MAXNAMELEN, DIRESIZE] at *
  omega

private theorem lookup_same {name : List UInt8} (hlen : name.length < MAXNAMELEN)
    (he : i = d → nameMatches v e name = nameMatches w e name) : v.lookup i name = w.lookup i name := by
  rw [World.lookup, World.lookup, h.entries i hi hd]
  refine List.find?_congr fun f hf => ?_
  by_cases hfe : f = e
  · subst hfe
    exact he (h.only i hi hd hf)
  · exact h.matches_other hi hd hf hfe hlen

end Reentered

namespace World

/-- No two entries of a directory have the same name. -/
def Unique (w : World) (N : Nat) : Prop := ∀ i e f, i < N → w.IsDir i → e ∈ w.entries i → f ∈ w.entries i →
  w.byte e ≠ 0 → w.entryName e = w.entryName f → e = f

/-- The walk along `names` from inode `i` on passes through the entry `e`. -/
def Through (w : World) (e : Nat) : List (List UInt8) → Nat → Prop
  | [], _ => False
  | name :: names, i => name.length < MAXNAMELEN ∧ w.IsDir i ∧
      ∃ f, w.entryCalled i name = some f ∧ (f = e ∨ w.Through e names (w.inInd f))

/-- The inode of an entry that a path led to; the null entry is that of the root. -/
def inodeBehind (w : World) (e : Nat) : Nat := if e = 0 then 0 else w.inInd e

end World

def PathName (name : List UInt8) : Prop := name ≠ [] ∧ (0 : UInt8) ∉ name

theorem pathName_parts {path : List UInt8} (h0 : (0 : UInt8) ∉ path) : ∀ name ∈ parts path, PathName name := by
  intro name hm
  rw [← components_eq_parts] at hm
  obtain ⟨hne, -, hsub⟩ := mem_components hm
  exact ⟨hne, fun hz => h0 (hsub.subset hz)⟩

private theorem World.Unique.eq_of_matches {w : World} {N : Nat} (hu : w.Unique N) {i e f : Nat} (hi : i < N)
    (hd : w.IsDir i) (he : e ∈ w.entries i) (hf : f ∈ w.entries i) {name : List UInt8} (hp : PathName name)
    (hlen : name.length < MAXNAMELEN) (hme : nameMatches w e name = true)
    (hmf : nameMatches w f name = true) : e = f := by
  refine hu i e f hi hd he hf (byte_ne_zero_of_matches hme hp.1 hp.2) ?_
  rw [(nameMatches_iff w e hp.2 hlen).mp hme, (nameMatches_iff w f hp.2 hlen).mp hmf]

theorem not_matches_of_nul {w : World} {e : Nat} (hz : w.byte e = 0) {name : List UInt8}
    (hp : PathName name) : nameMatches w e name = false := by
  by_contra hm
  exact byte_ne_zero_of_matches (by simpa using hm) hp.1 hp.2 hz

theorem walk_step {w : World} {n : List UInt8} (names : List (List UInt8)) {i f : Nat} (dir entry : Nat)
    (hlen : n.length < MAXNAMELEN) (hd : w.IsDir i) (hl : w.lookup i n = some f) :
    w.walk (n :: names) i dir entry = w.walk names (w.inInd f) (inodeVa i) f := by
  rw [World.walk, if_neg (not_le.mpr hlen), if_pos hd, hl]

/-- A walk that ends at an entry goes on from component to component. -/
theorem walk_cons_found {w : World} {n : List UInt8} {names : List (List UInt8)}
    {i dir entry dir' entry' : Nat} (hr : w.walk (n :: names) i dir entry = .ok (.found dir' entry')) :
    n.length < MAXNAMELEN ∧ w.IsDir i ∧ ∃ f, w.lookup i n = some f ∧
      w.walk names (w.inInd f) (inodeVa i) f = .ok (.found dir' entry') := by
  rw [World.walk] at hr
  by_cases hlen : MAXNAMELEN ≤ n.length
  · rw [if_pos hlen] at hr
    cases hr
  rw [if_neg hlen] at hr
  by_cases hd : w.IsDir i
  swap
  · rw [if_neg hd] at hr
    cases hr
  rw [if_pos hd] at hr
  cases hl : w.lookup i n with
  | none =>
    rw [hl] at hr
    dsimp only at hr
    split_ifs at hr
    cases hr
  | some f =>
    rw [hl] at hr
    exact ⟨not_le.mp hlen, hd, f, rfl, hr⟩

section Walks

variable {N : Nat} {w v : World} {d e : Nat} (hw : Walkable N w) (h : Reentered N w v d e)
include hw h

omit h in
private theorem lookup_named {i : Nat} (hi : i < N) (hd : w.IsDir i) {name : List UInt8} (hp : PathName name)
    {f : Nat} (hl : w.lookup i name = some f) :
    f ∈ w.entries i ∧ nameMatches w f name = true ∧ w.byte f ≠ 0 ∧ w.inInd f < N := by
  have hmem := List.mem_of_find?_eq_some hl
  have hmatch := List.find?_some hl
  have hbyte := byte_ne_zero_of_matches hmatch hp.1 hp.2
  exact ⟨hmem, hmatch, hbyte, hw.named i f hi hd hmem hbyte⟩

/-- An entry without a name gets one that was not there: what was found before is found again. -/
theorem walk_named (hz : w.byte e = 0) {name : List UInt8} (hmiss : w.lookup d name = none)
    (hname : ∀ n, (0 : UInt8) ∉ n → nameMatches v e n = true → n = name)
    {names : List (List UInt8)} (hn : ∀ n ∈ names, PathName n) {i : Nat} (hi : i < N)
    {dir entry dir' entry' : Nat} (hr : w.walk names i dir entry = .ok (.found dir' entry')) :
    v.walk names i dir entry = .ok (.found dir' entry') := by
  induction names generalizing i dir entry with
  | nil => exact hr
  | cons n names ih =>
    obtain ⟨hp, hrest⟩ := List.forall_mem_cons.mp hn
    obtain ⟨hlen, hd, f, hl, hr⟩ := walk_cons_found hr
    obtain ⟨hf, -, hb, hk⟩ := lookup_named hw hi hd hp hl
    have hfe : f ≠ e := by
      rintro rfl
      exact hb hz
    have hsame : v.lookup i n = w.lookup i n := by
      refine h.lookup_same hi hd hlen fun hid => ?_
      rw [not_matches_of_nul hz hp]
      by_contra hm
      have hnn := hname n hp.2 (by simpa using hm)
      rw [hid, hnn, hmiss] at hl
      cases hl
    rw [walk_step names dir entry hlen ((h.isDir i hi).mpr hd) (hsame.trans hl),
      h.inInd_other hi hd hf hfe]
    exact ih hrest hk hr

variable (hu : w.Unique N) (he : e ∈ w.entries d) (hz : v.byte e = 0)
include hu he hz

private theorem lookup_unnamed {i : Nat} (hi : i < N) (hdi : w.IsDir i) {name : List UInt8} (hp : PathName name)
    (hlen : name.length < MAXNAMELEN) (hne : w.lookup i name ≠ some e) :
    v.lookup i name = w.lookup i name := by
  refine h.lookup_same hi hdi hlen fun hid => ?_
  subst hid
  rw [not_matches_of_nul hz hp]
  by_contra hm
  have hme : nameMatches w e name = true := by
    cases hc : nameMatches w e name with
    | true => rfl
    | false => exact absurd hc.symm hm
  cases hl : w.lookup i name with
  | none => exact List.find?_eq_none.mp hl e he hme
  | some f =>
    obtain ⟨hf, hmf, -, -⟩ := lookup_named hw hi hdi hp hl
    rw [hu.eq_of_matches hi hdi he hf hp hlen hme hmf] at hne
    exact hne hl

private theorem walk_unnamed {names : List (List UInt8)} (hn : ∀ n ∈ names, PathName n) {i : Nat} (hi : i < N)
    (dir entry : Nat) (ht : ¬w.Through e names i) :
    v.walk names i dir entry = w.walk names i dir entry := by
  induction names generalizing i dir entry with
  | nil => rfl
  | cons n names ih =>
    obtain ⟨hp, hrest⟩ := List.forall_mem_cons.mp hn
    rw [World.walk, World.walk]
    by_cases hlen : MAXNAMELEN ≤ n.length
    · rw [if_pos hlen, if_pos hlen]
    rw [if_neg hlen, if_neg hlen]
    by_cases hdi : w.IsDir i
    swap
    · rw [if_neg hdi, if_neg fun hc => hdi ((h.isDir i hi).mp hc)]
    rw [if_pos hdi, if_pos ((h.isDir i hi).mpr hdi)]
    have hthrough (f : Nat) (hl : w.lookup i n = some f) : f ≠ e ∧ ¬w.Through e names (w.inInd f) := by
      rw [lookup_eq_entryCalled w i hp.2 (not_le.mp hlen)] at hl
      rw [World.Through] at ht
      refine ⟨fun hfe => ht ⟨not_le.mp hlen, hdi, f, hl, Or.inl hfe⟩,
        fun hrest => ht ⟨not_le.mp hlen, hdi, f, hl, Or.inr hrest⟩⟩
    rw [lookup_unnamed hw h hu he hz hi hdi hp (not_le.mp hlen) fun hl => (hthrough e hl).1 rfl]
    cases hl : w.lookup i n with
    | none => rfl
    | some f =>
      obtain ⟨hf, -, -, hk⟩ := lookup_named hw hi hdi hp hl
      obtain ⟨hfe, hrest'⟩ := hthrough f hl
      dsimp only
      rw [h.inInd_other hi hdi hf hfe]
      exact ih hrest hk _ _ hrest'

private theorem walk_gone (hfile : ¬w.IsDir (w.inInd e)) {names : List (List UInt8)}
    (hn : ∀ n ∈ names, PathName n) {i : Nat} (hi : i < N) {dir entry dir' : Nat} (hentry : entry ≠ e)
    (hr : w.walk names i dir entry = .ok (.found dir' e)) :
    ∃ a name, v.walk names i dir entry = .ok (.missing a name) := by
  induction names generalizing i dir entry with
  | nil =>
    simp only [World.walk, Except.ok.injEq, Walk.found.injEq] at hr
    exact absurd hr.2 hentry
  | cons n names ih =>
    obtain ⟨hp, hrest⟩ := List.forall_mem_cons.mp hn
    obtain ⟨hlen, hdi, f, hl, hr⟩ := walk_cons_found hr
    obtain ⟨hf, hmf, -, hk⟩ := lookup_named hw hi hdi hp hl
    by_cases hfe : f = e
    · subst hfe
      have hlast : names = [] := by
        -- a file has no entries
        cases names with
        | nil => rfl
        | cons m ms => exact absurd (walk_cons_found hr).2.1 hfile
      have hnone : v.lookup i n = none := by
        refine List.find?_eq_none.mpr fun g hg hm => ?_
        rw [h.entries i hi hdi] at hg
        by_cases hge : g = f
        · rw [hge, not_matches_of_nul hz hp] at hm
          cases hm
        · rw [h.matches_other hi hdi hg hge hlen] at hm
          exact hge (hu.eq_of_matches hi hdi hg hf hp hlen hm hmf)
      refine ⟨inodeVa i, n, ?_⟩
      rw [World.walk, if_neg (not_le.mpr hlen), if_pos ((h.isDir i hi).mpr hdi), hnone, hlast]
      rfl
    · have hne : w.lookup i n ≠ some e := by
        rw [hl]
        simpa using hfe
      have hsame := lookup_unnamed hw h hu he hz hi hdi hp hlen hne
      rw [walk_step names dir entry hlen ((h.isDir i hi).mpr hdi) (hsame.trans hl),
        h.inInd_other hi hdi hf hfe]
      exact ih hrest hk hfe hr

end Walks

/-- Blocks are owned properly, directories have their slots filled, named entries lead to inodes of
the table, free inodes are zero, and names are unique. -/
structure Filed (N : Nat) (w : World) : Prop where
  sane : Sane N w
  filled : ∀ i j, i < N → w.IsDir i → j < (w.cached.inode i).blkUsed → w.cached.slot i j ≠ 0
  named : ∀ i e, i < N → w.IsDir i → e ∈ w.entries i → w.byte e ≠ 0 → w.inInd e < N
  zero : ∀ i, i < N → w.cached.inOcp i = false → w.cached.inode i = emptyInode
  unique : w.Unique N

theorem Filed.tidy {N : Nat} {w : World} (h : Filed N w) : Tidy N w where
  sane := h.sane
  filled := h.filled
  named := h.named
  unused i hi ho := by
    have hz := h.zero i hi ho
    rw [World.IsDir, hz]
    refine ⟨by decide, rfl, fun j => ?_⟩
    rw [Meta.slot, hz]
    rfl

theorem entries_apart {w : World} {i f d e : Nat} (hf : f ∈ w.entries i) (he : e ∈ w.entries d)
    (hne : f ≠ e) {x : Nat} (hlo : f ≤ x) (hhi : x < f + DIRESIZE) : x < e ∨ e + DIRESIZE ≤ x := by
  obtain ⟨j, -, s, hs, rfl⟩ := mem_entries.mp hf
  obtain ⟨j', -, s', hs', rfl⟩ := mem_entries.mp he
  have hap := entry_apart hs hs' hne
  omega

theorem Tidy.entries_only {N : Nat} {w : World} (h : Tidy N w) {i d e : Nat} (hi : i < N)
    (hdi : w.IsDir i) (hei : e ∈ w.entries i) (hd : d < N) (he : e ∈ w.entries d) : i = d := by
  obtain ⟨j, hj, s, hs, hej⟩ := mem_entries.mp hei
  obtain ⟨j', -, s', hs', hej'⟩ := mem_entries.mp he
  have hslot := (entry_inj hs hs' (hej.symm.trans hej')).1
  exact (h.sane.slot_inj hi hd (h.filled i j hi hdi hj) hslot).1

section Create

variable {N : Nat} {w v : World} (h : Tidy N w) {d e k : Nat} {name : List UInt8} {xs : List Access}
  (hd : d < N) (hdir : w.IsDir d) (he : e ∈ w.entries d) (hk : k < N) (hknot : ¬w.IsDir k)
  (hlen : name.length < MAXNAMELEN)
  (heff : Effect N (w.cached.created d k FTYPE_REG none) (newEntry w.byte e name k) xs w v)
include heff

private theorem regular_slots (i : Nat) : (v.cached.inode i).blkUsed = (w.cached.inode i).blkUsed ∧
    v.cached.slot i = w.cached.slot i := by
  have hslot : v.cached.slot = w.cached.slot := by
    rw [heff.cached, Meta.created, slot_setType, slot_setInOcp, Meta.bumped, slot_setSize]
  refine ⟨?_, by rw [hslot]⟩
  rw [heff.cached]
  simp only [Meta.created, Meta.setType, Meta.setInOcp, Meta.bumped, Meta.setSize, Meta.setInode,
    Function.update_apply]
  split_ifs with hik hid hid <;> simp [*]

private theorem regular_type (i : Nat) : (v.cached.inode i).type =
    if i = k then FTYPE_REG else (w.cached.inode i).type := by
  rw [heff.cached]
  simp only [Meta.created, Meta.setType, Meta.setInOcp, Meta.bumped, Meta.setSize, Meta.setInode,
    Function.update_apply]
  split_ifs with hik hid <;> simp [*]
  all_goals decide

include h hd hdir he hk hknot hlen

omit h hd hdir he hk hlen in
private theorem regular_isDir (i : Nat) : v.IsDir i ↔ w.IsDir i := by
  rw [World.IsDir, regular_type heff]
  split_ifs with hik
  · subst hik
    exact iff_of_false (by decide) hknot
  · rfl

omit h hd hdir he hk hlen hknot in
private theorem regular_entries (i : Nat) : v.entries i = w.entries i := by
  obtain ⟨hused, hslot⟩ := regular_slots heff i
  rw [World.entries, World.entries, hused]
  refine List.flatMap_congr fun j _ => ?_
  rw [World.blockEntries, World.blockEntries, hslot]

omit hdir hk in
private theorem regular_reentered : Reentered N w v d e where
  isDir i _ := regular_isDir hknot heff i
  entries i _ _ := regular_entries heff i
  byte i f hi hdi hf hne x hlo hhi := by
    have hoff := (h.walkable.entryIn hi hdi hf).offMeta h.sane hi x hlo hhi
    rw [heff.byte x hoff]
    exact newEntry_outside _ hlen k (entries_apart hf he hne hlo hhi)
  only i hi hdi hei := h.entries_only hi hdi hei hd he

omit hknot hlen in
private theorem regular_inInd : v.inInd e = k := by
  have hoff := (h.walkable.entryIn hd hdir he).offMeta h.sane hd
  have hk' := h.sane.lt hk
  rw [inInd_congr (heff.byte _ (hoff _ (by omega) (by simp only [offInInd, DIRESIZE]; omega)))
    (heff.byte _ (hoff _ (by omega) (by simp only [offInInd, DIRESIZE]; omega)))]
  refine newEntry_inInd _ e name ?_
  simp only [MAXINODENUM] at hk'
  omega

omit hk hknot in
private theorem regular_matches : nameMatches v e name = true := by
  have hoff := (h.walkable.entryIn hd hdir he).offMeta h.sane hd
  refine nameMatches_of_getD fun o ho => ?_
  have ho' : o < 16 := by
    simp only [MAXNAMELEN] at hlen
    omega
  rw [heff.byte _ (hoff _ (Nat.le_add_right _ _) (by simp only [DIRESIZE]; omega)), newEntry,
    splice_outside _ _ (by simp only [offInInd]; omega), splice_inside _ _ (by omega),
    Nat.add_sub_cancel_left]

end Create

/-- The state after the creation of a file is as well filed as the one before. -/
theorem Filed.created {N : Nat} {w v : World} (h : Filed N w) {d e k : Nat} {name : List UInt8}
    {xs : List Access} (hd : d < N) (hdir : w.IsDir d) (he : e ∈ w.entries d) (hk : k < N)
    (hfree : w.cached.inOcp k = false) (hname : PathName name) (hlen : name.length < MAXNAMELEN)
    (hmiss : w.lookup d name = none)
    (heff : Effect N (w.cached.created d k FTYPE_REG none) (newEntry w.byte e name k) xs w v) :
    Filed N v := by
  have hknot := (h.tidy.unused k hk hfree).1
  have hkd : k ≠ d := fun hkd => hknot (hkd ▸ hdir)
  have hre := regular_reentered h.tidy hd he hknot hlen heff
  have hmatch := regular_matches h.tidy hd hdir he hlen heff
  have hcalled : v.entryName e = name := (nameMatches_iff v e hname.2 hlen).mp hmatch
  -- no other entry of the parent has the name
  have hother (f : Nat) (hf : f ∈ w.entries d) (hfe : f ≠ e) : v.entryName f ≠ name := by
    intro hn
    rw [hre.entryName_other hd hdir hf hfe, ← nameMatches_iff w f hname.2 hlen] at hn
    exact List.find?_eq_none.mp hmiss f hf hn
  refine ⟨heff.sane, fun i j hi hdi hj => ?_, fun i f hi hdi hf hb => ?_, fun i hi ho => ?_, ?_⟩
  · rw [regular_isDir hknot heff] at hdi
    obtain ⟨hused, hslot⟩ := regular_slots heff i
    rw [hused] at hj
    rw [hslot]
    exact h.filled i j hi hdi hj
  · rw [regular_isDir hknot heff] at hdi
    rw [regular_entries heff] at hf
    by_cases hfe : f = e
    · rw [hfe, regular_inInd h.tidy hd hdir he hk heff]
      exact hk
    · rw [hre.byte i f hi hdi hf hfe f le_rfl (by simp only [DIRESIZE]; omega)] at hb
      rw [hre.inInd_other hi hdi hf hfe]
      exact h.named i f hi hdi hf hb
  · have hocp : v.cached.inOcp = Function.update w.cached.inOcp k true := by
      rw [heff.cached]
      rfl
    have hik : i ≠ k := by
      rintro rfl
      rw [hocp, Function.update_self] at ho
      cases ho
    rw [hocp, Function.update_of_ne hik] at ho
    have hid : i ≠ d := by
      rintro rfl
      exact (h.tidy.unused i hi ho).1 hdir
    rw [← h.zero i hi ho, heff.cached]
    simp [Meta.created, Meta.setType, Meta.setInOcp, Meta.bumped, Meta.setSize, Meta.setInode, hik, hid]
  · intro i f g hi hdi hf hg hb hn
    rw [regular_isDir hknot heff] at hdi
    rw [regular_entries heff] at hf hg
    by_cases hfe : f = e
    · subst hfe
      obtain rfl := h.tidy.entries_only hi hdi hf hd he
      by_contra hne
      exact hother g hg (Ne.symm hne) (hn ▸ hcalled)
    by_cases hge : g = e
    · subst hge
      obtain rfl := h.tidy.entries_only hi hdi hg hd he
      exact absurd (hn.trans hcalled) (hother f hf hfe)
    rw [hre.byte i f hi hdi hf hfe f le_rfl (by simp only [DIRESIZE]; omega)] at hb
    rw [hre.entryName_other hi hdi hf hfe, hre.entryName_other hi hdi hg hge] at hn
    exact h.unique i f g hi hdi hf hg hb hn

private theorem Removes.reentered {N : Nat} {w v : World} (h : Tidy N w) {d e : Nat} (hd : d < N)
    (hdir : w.IsDir d) (he : e ∈ w.entries d) (hfile : ¬w.IsDir (w.inInd e)) (hr : Removes N w e v) :
    Reentered N w v d e ∧ v.byte e = 0 ∧ Walkable N v := by
  have hinode (i : Nat) (hi : i ≠ w.inInd e) : v.cached.inode i = w.cached.inode i := by
    rw [hr.cached]
    simp [Meta.removed, Meta.setSize, Meta.setInode, inode_cutAll, hi]
  have hisDir (i : Nat) : v.IsDir i ↔ w.IsDir i := by
    by_cases hi : i = w.inInd e
    · rw [hi]
      refine iff_of_false (fun hd => hfile ?_) hfile
      rw [World.IsDir, hr.cached] at hd
      simpa [World.IsDir, Meta.removed, Meta.setSize, Meta.setInode, inode_cutAll] using hd
    · rw [World.IsDir, World.IsDir, hinode i hi]
  have hne (i : Nat) (hdi : w.IsDir i) : i ≠ w.inInd e := fun hi => hfile (hi ▸ hdi)
  have hslot (i : Nat) (hdi : w.IsDir i) (j : Nat) : v.cached.slot i j = w.cached.slot i j := by
    rw [Meta.slot, Meta.slot, hinode i (hne i hdi)]
  have hentries (i : Nat) (hdi : w.IsDir i) : v.entries i = w.entries i := by
    rw [World.entries, World.entries, hinode i (hne i hdi)]
    refine List.flatMap_congr fun j _ => ?_
    rw [World.blockEntries, World.blockEntries, hslot i hdi]
  have hoff := (h.walkable.entryIn hd hdir he).offMeta h.sane hd
  have hre : Reentered N w v d e := by
    refine ⟨fun i _ => hisDir i, fun i _ hdi => hentries i hdi, fun i f hi hdi hf hfe x hlo hhi => ?_,
      fun i hi hdi hei => h.entries_only hi hdi hei hd he⟩
    have hap := entries_apart hf he hfe hlo hhi
    rw [hr.byte x ((h.walkable.entryIn hi hdi hf).offMeta h.sane hi x hlo hhi), if_neg]
    simp only [DIRESIZE] at hap
    omega
  refine ⟨hre, ?_, ⟨hr.sane.ready, hr.sane.small, hr.sane.pos, ?_, ?_⟩⟩
  · rw [hr.byte e (hoff e le_rfl (by simp only [DIRESIZE]; omega)), if_pos rfl]
  · intro i j hi hdi hj
    rw [hisDir] at hdi
    rw [hinode i (hne i hdi)] at hj
    refine hr.sane.holds hi ?_
    rw [hslot i hdi]
    exact h.filled i j hi hdi hj
  · intro i f hi hdi hf hb
    rw [hisDir] at hdi
    rw [hentries i hdi] at hf
    by_cases hfe : f = e
    · rw [hfe, hr.byte e (hoff e le_rfl (by simp only [DIRESIZE]; omega)), if_pos rfl] at hb
      exact absurd rfl hb
    · rw [hre.byte i f hi hdi hf hfe f le_rfl (by simp only [DIRESIZE]; omega)] at hb
      rw [hre.inInd_other hi hdi hf hfe]
      exact h.named i f hi hdi hf hb

theorem resolve_eq_parts (w : World) {path : List UInt8} (hs : path.head? = some slash) :
    w.resolve path = w.walk (parts path) 0 0 0 := by
  rw [resolve_eq_walk w hs, components_eq_parts]

private theorem reply_fileOpen {N : Nat} {w : World} (h : Walkable N w) {path : List UInt8}
    (h0 : (0 : UInt8) ∉ path) : reply (fileOpen path) w = (w.openEntry path).mapError .err := by
  obtain ⟨v, -, hv⟩ := fileOpen_run h h0
  cases ho : w.openEntry path with
  | ok e =>
    rw [ho] at hv
    exact reply_ok hv
  | error x =>
    rw [ho] at hv
    exact reply_error hv

theorem openEntry_eq_ok {w : World} {path : List UInt8} {e : Nat} :
    w.openEntry path = .ok e ↔ ∃ dir, w.resolve path = .ok (.found dir e) := by
  unfold World.openEntry
  cases w.resolve path with
  | error x => simp
  | ok r => cases r <;> simp [eq_comm]

theorem reply_fileOpen_eq_ok {N : Nat} {w : World} (h : Walkable N w) {path : List UInt8}
    (h0 : (0 : UInt8) ∉ path) {e : Nat} :
    reply (fileOpen path) w = .ok e ↔ ∃ dir, w.resolve path = .ok (.found dir e) := by
  rw [reply_fileOpen h h0, ← openEntry_eq_ok]
  cases w.openEntry path <;> simp [Except.mapError]

private theorem walk_through {N : Nat} {w : World} (hw : Walkable N w) {e : Nat} {names : List (List UInt8)}
    (hn : ∀ n ∈ names, PathName n) {i : Nat} (hi : i < N) {dir entry dir' : Nat} (hne : entry ≠ e)
    (hr : w.walk names i dir entry = .ok (.found dir' e)) : w.Through e names i := by
  induction names generalizing i dir entry with
  | nil =>
    simp only [World.walk, Except.ok.injEq, Walk.found.injEq] at hr
    exact absurd hr.2 hne
  | cons n names ih =>
    obtain ⟨hp, hrest⟩ := List.forall_mem_cons.mp hn
    obtain ⟨hlen, hd, f, hl, hr⟩ := walk_cons_found hr
    obtain ⟨-, -, -, hk⟩ := lookup_named hw hi hd hp hl
    rw [lookup_eq_entryCalled w i hp.2 hlen] at hl
    refine ⟨hlen, hd, f, hl, ?_⟩
    by_cases hfe : f = e
    · exact Or.inl hfe
    · exact Or.inr (ih hrest hk hfe hr)

/-- What an opened path leads to keeps its inode where its entry is kept. -/
theorem Reentered.inodeBehind {N : Nat} {w v : World} (hw : Tidy N w) {d e : Nat}
    (h : Reentered N w v d e) {path : List UInt8} (h0 : (0 : UInt8) ∉ path) {f : Nat}
    (hf : w.openEntry path = .ok f) (hne : f ≠ e) : v.inodeBehind f = w.inodeBehind f := by
  rcases openEntry_placed hw h0 hf with rfl | ⟨i, hi, hd, hmem, -⟩
  · rfl
  · rw [World.inodeBehind, World.inodeBehind, h.inInd_other hi hd hmem hne]

private theorem fileRemove_namespace {N : Nat} {w v : World} (h : Filed N w) {path : List UInt8}
    (h0 : (0 : UInt8) ∉ path) {d e : Nat} (hd : d < N) (hdir : w.IsDir d) (he : e ∈ w.entries d)
    (hnamed : w.byte e ≠ 0) (hfile : ¬w.IsDir (w.inInd e))
    (hr : w.resolve path = .ok (.found (inodeVa d) e)) (hrun : fileRemove path w = .ok () v) :
    reply (fileOpen path) v = .error (.err .notFound) ∧
      ∀ p, (0 : UInt8) ∉ p → ¬w.Through e (parts p) 0 → reply (fileOpen p) v = reply (fileOpen p) w ∧
        ∀ f, reply (fileOpen p) w = .ok f → v.inodeBehind f = w.inodeBehind f := by
  obtain ⟨t, hq, hwalk⟩ := walkPath_run h.tidy.walkable h0
  rw [hr] at hwalk
  have hin := h.tidy.walkable.entryIn hd hdir he
  have hrem := fileRemove_removes h.sane hd hin (h.named d e hd hdir he hnamed) hq hwalk hrun
  obtain ⟨hre, hz, hv⟩ := hrem.reentered h.tidy hd hdir he hfile
  have he0 : (0 : Nat) ≠ e := by
    have hmap := hin.inMap h.sane hd
    simp only [DISKMAP] at hmap
    omega
  refine ⟨?_, fun p hp ht => ?_⟩
  · have hs := slash_of_resolve hr
    rw [resolve_eq_parts w hs] at hr
    obtain ⟨a, name, hgone⟩ := walk_gone h.tidy.walkable hre h.unique he hz hfile (pathName_parts h0)
      h.sane.pos he0 hr
    rw [reply_fileOpen hv h0, World.openEntry, resolve_eq_parts v hs, hgone]
    rfl
  · have hsame : v.resolve p = w.resolve p := by
      by_cases hs : p.head? = some slash
      · rw [resolve_eq_parts v hs, resolve_eq_parts w hs]
        exact walk_unnamed h.tidy.walkable hre h.unique he hz (pathName_parts hp) h.sane.pos 0 0 ht
      · rw [World.resolve, World.resolve, if_neg hs, if_neg hs]
    refine ⟨?_, fun f hf => ?_⟩
    · rw [reply_fileOpen hv hp, reply_fileOpen h.tidy.walkable hp, World.openEntry, World.openEntry, hsame]
    · rw [reply_fileOpen_eq_ok h.tidy.walkable hp] at hf
      refine hre.inodeBehind h.tidy hp (openEntry_eq_ok.mpr hf) ?_
      rintro rfl
      obtain ⟨dir, hf⟩ := hf
      rw [resolve_eq_parts w (slash_of_resolve hf)] at hf
      exact ht (walk_through h.tidy.walkable (pathName_parts hp) h.sane.pos he0 hf)

private theorem fileCreate_regular {N : Nat} {w v : World} (h : Tidy N w) {path : List UInt8}
    (h0 : (0 : UInt8) ∉ path) {f : Nat} (hrun : fileCreate path FTYPE_REG w = .ok f v) {d : Nat}
    {name : List UInt8} (hr : w.resolve path = .ok (.missing (inodeVa d) name)) (hv : w.vacant d ≠ none) :
    f ∈ w.entries d ∧ w.byte f = 0 ∧ ∃ k xs, k < N ∧ w.cached.inOcp k = false ∧
      Effect N (w.cached.created d k FTYPE_REG none) (newEntry w.byte f name k) xs w v := by
  have hvalid : nameIsValid name = true := by
    by_contra hbad
    obtain ⟨x, t, hfail, -⟩ := fileCreate_refused h.within h0 FTYPE_REG fun d' name' hr' => by
      rw [hr] at hr'
      cases hr'
      simpa using hbad
    rw [hrun] at hfail
    cases hfail
  obtain ⟨e, he⟩ := Option.ne_none_iff_exists'.mp hv
  cases hk : w.firstInode with
  | none =>
    obtain ⟨t, hfail, -⟩ := fileCreate_noInode h.within h0 hr hvalid he FTYPE_REG hk
    rw [hrun] at hfail
    cases hfail
  | some k =>
    obtain ⟨s, s', t, hok, heff⟩ := fileCreate_run h.within h0 hr hvalid he FTYPE_REG hk fun hdir => by cases hdir
    rw [hrun] at hok
    cases hok
    have hstart : w.startBlock FTYPE_REG = none := if_neg (by decide)
    rw [hstart] at heff
    obtain ⟨hkN, hfree⟩ := h.sane.firstInode hk
    have hz := List.find?_some he
    exact ⟨List.mem_of_find?_eq_some he, by simpa using hz, k, _, hkN, hfree, heff⟩

/-- Creating a regular file and removing it again, as paths see it. -/
theorem create_remove_namespace (N : Nat) (w v : World) (path : List UInt8) (f : Nat) (h : Filed N w)
    (h0 : (0 : UInt8) ∉ path)
    (hspace : ∀ d name, w.foldPath path = .ok (.missing (inodeVa d) name) → w.vacant d ≠ none)
    (hrun : fileCreate path FTYPE_REG w = .ok f v) :
    (reply (fileOpen path) v = .ok f ∧ w.cached.inOcp (v.inInd f) = false ∧
      (v.cached.inode (v.inInd f)).type = FTYPE_REG ∧ (v.cached.inode (v.inInd f)).size = 0) ∧
    (∀ p e, (0 : UInt8) ∉ p → reply (fileOpen p) w = .ok e →
      reply (fileOpen p) v = .ok e ∧ v.inodeBehind e = w.inodeBehind e) ∧
    v.Unique N ∧
    ∀ u, fileRemove path v = .ok () u → reply (fileOpen path) u = .error (.err .notFound) ∧
      ∀ p, (0 : UInt8) ∉ p → ¬v.Through f (parts p) 0 → reply (fileOpen p) u = reply (fileOpen p) v ∧
        ∀ e, reply (fileOpen p) v = .ok e → u.inodeBehind e = v.inodeBehind e := by
  obtain ⟨d, name, -, hr, -, htrail⟩ := fileCreate_created h.tidy.within h0 hrun
  obtain ⟨i, hd, hdir, -, hei, hne, hnul, hlen, hmiss⟩ := resolve_placed h.tidy h0 hr
  obtain rfl := inodeVa_inj hei
  have hr' := hr
  rw [resolve_eq_foldPath w h0] at hr'
  obtain ⟨he, hz, k, xs, hk, hfree, heff⟩ := fileCreate_regular h.tidy h0 hrun hr (hspace d name hr')
  have hknot := (h.tidy.unused k hk hfree).1
  have hkd : k ≠ d := fun hkd => hknot (hkd ▸ hdir)
  have hname : PathName name := ⟨hne, hnul⟩
  have hfiled := h.created hd hdir he hk hfree hname hlen hmiss heff
  have hre := regular_reentered h.tidy hd he hknot hlen heff
  have hind := regular_inInd h.tidy hd hdir he hk heff
  have hmatch := regular_matches h.tidy hd hdir he hlen heff
  -- the walk to the new entry, as the directories of the new state have it
  have hfound : v.resolve path = .ok (.found (inodeVa d) f) := by
    obtain ⟨t, -, hwalk⟩ := walkLoop_trail hfiled.sane hfiled.sane.pos htrail
    obtain ⟨t', -, hres⟩ := walkPath_run hfiled.tidy.walkable h0
    rw [walkPath, if_pos (slash_of_resolve hr), hwalk] at hres
    cases hv : v.resolve path with
    | error x =>
      rw [hv] at hres
      cases hres
    | ok r =>
      rw [hv] at hres
      cases hres
      rfl
  have hfile : ¬v.IsDir (v.inInd f) := by
    rw [hind, regular_isDir hknot heff]
    exact hknot
  refine ⟨⟨?_, ?_, ?_, ?_⟩, fun p e hp hopen => ?_, hfiled.unique, fun u hremove => ?_⟩
  · exact (reply_fileOpen_eq_ok hfiled.tidy.walkable h0).mpr ⟨_, hfound⟩
  · rw [hind]
    exact hfree
  · rw [hind, regular_type heff, if_pos rfl]
  · have hzero := h.zero k hk hfree
    rw [hind, heff.cached]
    simp [Meta.created, Meta.setType, Meta.setInOcp, Meta.bumped, Meta.setSize, Meta.setInode, hkd,
      hzero, emptyInode]
  · obtain ⟨dir, hres⟩ := (reply_fileOpen_eq_ok h.tidy.walkable hp).mp hopen
    have hs := slash_of_resolve hres
    have hwalk := hres
    rw [resolve_eq_parts w hs] at hwalk
    have hagain := walk_named h.tidy.walkable hre hz hmiss
      (fun n hn hm => nameMatches_unique hn hnul hm hmatch) (pathName_parts hp) h.sane.pos hwalk
    rw [← resolve_eq_parts v hs] at hagain
    refine ⟨(reply_fileOpen_eq_ok hfiled.tidy.walkable hp).mpr ⟨dir, hagain⟩, ?_⟩
    have hentry := openEntry_eq_ok.mpr ⟨dir, hres⟩
    refine hre.inodeBehind h.tidy hp hentry ?_
    rintro rfl
    -- the new entry had no name
    rcases openEntry_placed h.tidy hp hentry with rfl | ⟨_, _, _, _, hb⟩
    · have hmap := (h.tidy.walkable.entryIn hd hdir he).inMap h.sane hd
      simp only [DISKMAP] at hmap
      omega
    · exact hb hz
  · refine fileRemove_namespace hfiled h0 hd ((regular_isDir hknot heff d).mpr hdir) ?_ ?_ hfile hfound
      hremove
    · rw [regular_entries heff]
      exact he
    · exact byte_ne_zero_of_matches hmatch hne hnul

private theorem filed_fresh : Filed 4 (mount (freshDisk 4 1)) where
  sane := orderly_fresh.sane
  filled := orderly_fresh.filled
  named := orderly_fresh.tidy.named
  zero i hi ho := by
    have hall : ∀ i < 4, (mount (freshDisk 4 1)).cached.inOcp i = false →
        ((mount (freshDisk 4 1)).cached.inode i).type = 0 ∧
          ((mount (freshDisk 4 1)).cached.inode i).size = 0 := by decide +kernel
    obtain ⟨-, hu, hz⟩ := orderly_fresh.unused i hi ho
    obtain ⟨ht, hs⟩ := hall i hi ho
    have hslots : ((mount (freshDisk 4 1)).cached.inode i).blkInd = fun _ => 0 := funext hz
    cases hc : (mount (freshDisk 4 1)).cached.inode i with
    | mk type size blkUsed blkInd =>
      rw [hc] at hu ht hs hslots
      simp only at hu ht hs hslots
      rw [hu, ht, hs, hslots]
      rfl
  unique i e f hi hd he hf hb := by
    have hall : ∀ i < 4, (mount (freshDisk 4 1)).IsDir i → ∀ e ∈ (mount (freshDisk 4 1)).entries i,
        (mount (freshDisk 4 1)).byte e = 0 := by decide +kernel
    exact absurd (hall i hi hd e he) hb

theorem create_remove_namespace_fresh :
    reply (fileOpen [47, 97]) (final (fileCreate [47, 97] FTYPE_REG) (mount (freshDisk 4 1))) =
      .ok (blockVa 2) :=
  (create_remove_namespace 4 _ _ [47, 97] (blockVa 2) filed_fresh (by decide) (fun d name hr => by
    have hroot : (mount (freshDisk 4 1)).foldPath [47, 97] = .ok (.missing (inodeVa 0) [97]) := by
      decide +kernel
    rw [hroot] at hr
    simp only [Except.ok.injEq, Walk.missing.injEq] at hr
    obtain rfl := inodeVa_inj hr.1
    decide +kernel) shortLife_create).1.1

/-- Blocks are owned properly, directories have their slots filled, free inodes are zero, and names are unique;
entries may lead anywhere. -/
structure Loose (N : Nat) (w : World) : Prop where
  ready : Ready w
  inNum : w.inNum = N
  image : SoundImage N w
  filled : ∀ i j, i < N → w.IsDir i → j < (w.cached.inode i).blkUsed → w.cached.slot i j ≠ 0
  zero : ∀ i, i < N → w.cached.inOcp i = false → w.cached.inode i = emptyInode
  unique : w.Unique N

/-- The entry `/d` of this disk leads to inode 129, which lies in the block of the root under the entries after it;
its slot 0 is in an entry without a name. -/
def aliasDisk (b o : Nat) : UInt8 :=
  if b = 0 then
    if o = offInNum then 4 else if o = offBlkNum then 200 else if o = offBlkOcp then 15
    else if o = offInOcp then 3 else 0
  else if b = 1 then
    if o = offType then 0x64 else if o = offBlkUsed then 1 else if o = offBlkInd then 2 else 0
  else if b = 2 then
    if o = 0 then 0x64 else if o = offInInd then 129
    else if o = DIRESIZE then 0x61 else if o = INSIZE + offType then 0x64 else if o = DIRESIZE + offInInd then 1
    else if o = INSIZE + offBlkUsed + 1 then 1 else if o = INSIZE + offBlkInd then 3 else 0
  else if b = 3 then
    if o = 0 then 0x78 else if o = offInInd then 1 else 0
  else 0

private theorem eq_emptyInode {x : Inode} (ht : x.type = 0) (hs : x.size = 0) (hu : x.blkUsed = 0)
    (hz : ∀ j < NDIRECT, x.blkInd j = 0) (hge : ∀ j, NDIRECT ≤ j → x.blkInd j = 0) : x = emptyInode := by
  obtain ⟨type, size, blkUsed, blkInd⟩ := x
  have hall : blkInd = fun _ => 0 := by
    funext j
    rcases Nat.lt_or_ge j NDIRECT with hj | hj
    · exact hz j hj
    · exact hge j hj
  simp only at ht hs hu
  rw [ht, hs, hu, hall]
  rfl

private theorem loose_aliasDisk : Loose 4 (mount aliasDisk) where
  ready := ⟨rfl, rfl⟩
  inNum := by decide +kernel
  image := ⟨by decide +kernel, by decide +kernel, by decide +kernel,
    OwnedBlocks.of_filled [(0, 0)] (by decide +kernel) (by decide +kernel) (by decide +kernel)⟩
  filled i j hi hd hj := by
    have hall : ∀ i < 4, (mount aliasDisk).IsDir i → ∀ j < ((mount aliasDisk).cached.inode i).blkUsed,
        (mount aliasDisk).cached.slot i j ≠ 0 := by decide +kernel
    exact hall i hi hd j hj
  zero i hi ho := by
    have hall : ∀ i < 4, (mount aliasDisk).cached.inOcp i = false →
        ((mount aliasDisk).cached.inode i).type = 0 ∧ ((mount aliasDisk).cached.inode i).size = 0 ∧
          ((mount aliasDisk).cached.inode i).blkUsed = 0 ∧
          ∀ j < NDIRECT, ((mount aliasDisk).cached.inode i).blkInd j = 0 := by decide +kernel
    obtain ⟨ht, hs, hu, hz⟩ := hall i hi ho
    exact eq_emptyInode ht hs hu hz fun j hj => slot_ge _ i hj
  unique i e f hi hd he hf hb hn := by
    have hroot : ∀ i < 4, (mount aliasDisk).IsDir i → i = 0 := by decide +kernel
    obtain rfl := hroot i hi hd
    have hnamed : ∀ e ∈ (mount aliasDisk).entries 0, (mount aliasDisk).byte e ≠ 0 →
        e ∈ [blockVa 2, blockVa 2 + DIRESIZE] := by decide +kernel
    have hfb : (mount aliasDisk).byte f ≠ 0 := by
      intro hz
      have hle : (mount aliasDisk).entryName e = [] := by
        rw [hn]
        simp [World.entryName, MAXNAMELEN, List.range_succ_eq_map, hz]
      simp [World.entryName, MAXNAMELEN, List.range_succ_eq_map, hb] at hle
    have hdiff : ∀ e ∈ [blockVa 2, blockVa 2 + DIRESIZE], ∀ f ∈ [blockVa 2, blockVa 2 + DIRESIZE],
        (mount aliasDisk).entryName e = (mount aliasDisk).entryName f → e = f := by decide +kernel
    exact hdiff e (hnamed e he hb) f (hnamed f hf hfb) hn

private theorem loose_beyondTable : Loose 129 (mount (freshDisk 129 255)) where
  ready := ⟨rfl, rfl⟩
  inNum := by decide +kernel
  image := ⟨by decide +kernel, by decide +kernel, by decide +kernel,
    OwnedBlocks.of_filled [(0, 0)] (by decide +kernel) (by decide +kernel) (by decide +kernel)⟩
  filled i j hi hd hj := by
    have hall : ∀ i < 129, (mount (freshDisk 129 255)).IsDir i →
        ∀ j < ((mount (freshDisk 129 255)).cached.inode i).blkUsed,
          (mount (freshDisk 129 255)).cached.slot i j ≠ 0 := by decide +kernel
    exact hall i hi hd j hj
  zero i hi ho := by
    have hall : ∀ i < 128, (mount (freshDisk 129 255)).cached.inOcp i = true := by decide +kernel
    rcases Nat.lt_or_ge i 128 with hlt | hge
    · rw [hall i hlt] at ho
      cases ho
    · exact if_neg (by simp only [MAXINODENUM]; omega)
  unique i e f hi hd he hf hb := by
    have hall : ∀ i < 129, (mount (freshDisk 129 255)).IsDir i → ∀ e ∈ (mount (freshDisk 129 255)).entries i,
        (mount (freshDisk 129 255)).byte e = 0 := by decide +kernel
    exact absurd (hall i hi hd e he) hb

/-- An entry may lead to an inode that lies in a directory's block, whose slots a new name overwrites; and with more
inodes than the table holds, the type of the new inode overwrites the new name. -/
theorem create_beyondTable :
    (¬∀ (N : Nat) (w v : World) (path : List UInt8) (f : Nat), Loose N w → N ≤ MAXINODENUM → (0 : UInt8) ∉ path →
      (∀ d name, w.foldPath path = .ok (.missing (inodeVa d) name) → w.vacant d ≠ none) →
        fileCreate path FTYPE_REG w = .ok f v → ∀ p e, (0 : UInt8) ∉ p → reply (fileOpen p) w = .ok e →
          reply (fileOpen p) v = .ok e ∧ v.inodeBehind e = w.inodeBehind e) ∧
    ¬∀ (N : Nat) (w v : World) (path : List UInt8) (f : Nat), Loose N w →
      (∀ i e, i < N → w.IsDir i → e ∈ w.entries i → w.byte e ≠ 0 → w.inInd e < N) → (0 : UInt8) ∉ path →
        (∀ d name, w.foldPath path = .ok (.missing (inodeVa d) name) → w.vacant d ≠ none) →
          fileCreate path FTYPE_REG w = .ok f v → reply (fileOpen path) v = .ok f := by
  constructor
  · intro hall
    have hroot : (mount aliasDisk).foldPath [47, 103, 104, 105] = .ok (.missing (inodeVa 0) [103, 104, 105]) := by
      decide +kernel
    have hcreate : fileCreate [47, 103, 104, 105] FTYPE_REG (mount aliasDisk) = .ok (blockVa 2 + 2 * DIRESIZE) _ :=
      eq_ok_of_value (by decide +kernel)
    have hopen : fileOpen [47, 100, 47, 120] (mount aliasDisk) = .ok (blockVa 3) _ :=
      eq_ok_of_value (by decide +kernel)
    have hagain := (hall 4 _ _ _ _ loose_aliasDisk (by decide) (by decide) (fun d name hr => by
      rw [hroot] at hr
      simp only [Except.ok.injEq, Walk.missing.injEq] at hr
      obtain rfl := inodeVa_inj hr.1
      decide +kernel) hcreate [47, 100, 47, 120] (blockVa 3) (by decide) (reply_ok hopen)).1
    have hgone : (reply (fileOpen [47, 100, 47, 120])
        (final (fileCreate [47, 103, 104, 105] FTYPE_REG) (mount aliasDisk))).toOption = none := by decide +kernel
    rw [hagain] at hgone
    cases hgone
  · intro hall
    have hroot : (mount (freshDisk 129 255)).foldPath [47, 97] = .ok (.missing (inodeVa 0) [97]) := by
      decide +kernel
    have hcreate : fileCreate [47, 97] FTYPE_REG (mount (freshDisk 129 255)) = .ok (blockVa 2) _ :=
      eq_ok_of_value (by decide +kernel)
    have hagain := hall 129 _ _ _ _ loose_beyondTable (fun i e hi hd he hb => absurd (by
        have hzero : ∀ i < 129, (mount (freshDisk 129 255)).IsDir i →
            ∀ e ∈ (mount (freshDisk 129 255)).entries i, (mount (freshDisk 129 255)).byte e = 0 := by
          decide +kernel
        exact hzero i hi hd e he) hb) (by decide) (fun d name hr => by
      rw [hroot] at hr
      simp only [Except.ok.injEq, Walk.missing.injEq] at hr
      obtain rfl := inodeVa_inj hr.1
      decide +kernel) hcreate
    have hgone : (reply (fileOpen [47, 97])
        (final (fileCreate [47, 97] FTYPE_REG) (mount (freshDisk 129 255)))).toOption = none := by decide +kernel
    rw [hagain] at hgone
    cases hgone

end DamnOS.FileSystem
