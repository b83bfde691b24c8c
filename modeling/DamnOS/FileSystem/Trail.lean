import DamnOS.FileSystem.Beside

/-!
# Walking to a new entry

After a successful `file_create` the path leads to the new entry, also where the directory had to
get another block, whose other entries hold whatever the block held before.
-/

namespace DamnOS.FileSystem

open DamnOS.Framework

private theorem dirScan_more (dir : Nat) (test : World → Nat → Bool) {a n e : Nat} (r : Nat) {w v : World}
    (h : dirScan dir test a n w = .ok (some e) v) : dirScan dir test a (n + r) w = .ok (some e) v := by
  induction n generalizing a w with
  | zero => cases h
  | succ n ih =>
    rw [Nat.succ_add]
    unfold dirScan at h ⊢
    obtain ⟨blk, t, hget, h⟩ := bind_eq_ok h
    obtain ⟨_, s, htouch, h⟩ := bind_eq_ok h
    rw [bind_ok hget, bind_ok htouch, bind_ok (get_run s)]
    rw [bind_ok (get_run s)] at h
    cases hfind : (List.range BLKFILES).find? (fun j => test s (blk + DIRESIZE * j)) with
    | some j =>
      rw [hfind] at h
      exact h
    | none =>
      rw [hfind] at h
      exact ih h

namespace World

/-- The entries in the first `n` blocks of inode `i`. -/
def firstEntries (w : World) (i n : Nat) : List Nat := (List.range n).flatMap (w.blockEntries i)

/-- Looking `name` up in directory `i` ends at the entry `e`, and meets filled slots only. -/
def Finds (w : World) (i : Nat) (name : List UInt8) (e : Nat) : Prop :=
  ∃ n ≤ (w.cached.inode i).blkUsed, (∀ j < n, w.cached.slot i j ≠ 0) ∧
    (w.firstEntries i n).find? (fun a => nameMatches w a name) = some e

/-- The walk along `path` from inode `i` on ends at `entry'` in the directory `dir'`, through directories of `P`. -/
inductive TrailIn (w : World) (N : Nat) (P : Nat → Prop) :
    Nat → List UInt8 → Nat → Nat → Nat → Nat → Nat → Prop
  | done {fuel i dir entry : Nat} : TrailIn w N P (fuel + 1) [] i dir entry dir entry
  | step {fuel i dir entry e dir' entry' : Nat} {path : List UInt8} : path ≠ [] →
      (path.takeWhile (· != slash)).length < MAXNAMELEN → w.IsDir i → P i →
      w.Finds i (path.takeWhile (· != slash)) e → w.inInd e < N →
      TrailIn w N P fuel (skipSlash (path.dropWhile (· != slash))) (w.inInd e) (inodeVa i) e dir' entry' →
      TrailIn w N P (fuel + 1) path i dir entry dir' entry'

abbrev Trail (w : World) (N : Nat) := w.TrailIn N fun _ => True

theorem TrailIn.mono {w : World} {N : Nat} {P Q : Nat → Prop} (hPQ : ∀ i, P i → Q i)
    {fuel i dir entry dir' entry' : Nat} {path : List UInt8}
    (h : w.TrailIn N P fuel path i dir entry dir' entry') : w.TrailIn N Q fuel path i dir entry dir' entry' := by
  induction h with
  | done => exact .done
  | step hne hlen hd hP hf hk _ ih => exact .step hne hlen hd (hPQ _ hP) hf hk ih

/-- The inodes in which the walk along `path` from inode `i` on looks a name up. -/
def visited (w : World) : Nat → List UInt8 → Nat → List Nat
  | 0, _, _ => []
  | fuel + 1, path, i =>
    if path = [] then [] else i :: match w.lookup i (path.takeWhile (· != slash)) with
      | none => []
      | some e => w.visited fuel (skipSlash (path.dropWhile (· != slash))) (w.inInd e)

/-- The inodes in which `walk_path` looks a name up. -/
def visits (w : World) (path : List UInt8) : List Nat :=
  w.visited ((skipSlash path).length + 1) (skipSlash path) 0

end World

private theorem finds_of_byte {w v : World} (h : v.byte = w.byte) {i e : Nat} {name : List UInt8}
    (hf : w.Finds i name e) : v.Finds i name e := by
  have hb : v.blockEntries i = w.blockEntries i := by
    funext j
    rw [World.blockEntries, World.blockEntries, cached_of_byte h]
  have hm : (fun a => nameMatches v a name) = fun a => nameMatches w a name :=
    funext fun a => nameMatches_of_byte h a name
  obtain ⟨n, hn, hz, he⟩ := hf
  refine ⟨n, by rw [cached_of_byte h]; exact hn, fun j hj => by rw [cached_of_byte h]; exact hz j hj, ?_⟩
  rw [World.firstEntries, hb, hm]
  exact he

theorem World.Finds.entryIn {w : World} {i e : Nat} {name : List UInt8} (h : w.Finds i name e) :
    w.EntryIn i e := by
  obtain ⟨n, -, hz, he⟩ := h
  obtain ⟨j, hj, hf⟩ := List.mem_flatMap.mp (List.mem_of_find?_eq_some he)
  obtain ⟨s, hs, rfl⟩ := List.mem_map.mp hf
  exact ⟨j, s, hz j (List.mem_range.mp hj), List.mem_range.mp hs, rfl⟩

private theorem dirLookup_finds {N : Nat} {w : World} (h : Sane N w) {i : Nat} (hi : i < N) {name : List UInt8}
    {e : Nat} (hf : w.Finds i name e) : ∃ v, dirLookup (inodeVa i) name w = .ok (some e) v ∧ Quiet w v ∧
      ∀ p ∈ pagesOf e DIRESIZE, v.present p = true := by
  obtain ⟨n, hn, hz, he⟩ := hf
  obtain ⟨v, hv, hq, hp⟩ := dirScan_run h.ready (h.lt hi)
    (fun w a => nameMatches w a name)
    (fun w v hb => funext fun a => nameMatches_of_byte hb a name) n 0
    fun j _ hj => h.holds hi (hz j (by omega))
  rw [← List.range_eq_range'] at hv hp
  have he' : ((List.range n).flatMap (w.blockEntries i)).find? (fun a => nameMatches w a name) = some e := he
  rw [he'] at hv hp
  refine ⟨v, (bind_ok (load16_blkUsed h.ready (h.lt hi))).trans ?_, hq, hp e rfl⟩
  obtain ⟨r, hr⟩ := Nat.exists_eq_add_of_le hn
  rw [hr]
  exact dirScan_more _ _ r hv

theorem walkLoop_trail {N : Nat} {P : Nat → Prop} {w : World} (h : Sane N w) {fuel i dir entry dir' entry' : Nat}
    (hi : i < N) {path : List UInt8} (ht : w.TrailIn N P fuel path i dir entry dir' entry') :
    ∃ v, Quiet w v ∧ walkLoop fuel path (inodeVa i) dir entry w = .ok (.found dir' entry') v := by
  -- the walk itself moves to states that show the same bytes
  obtain ⟨u, hu⟩ : ∃ u, u = w := ⟨w, rfl⟩
  have hq : Quiet u w := hu ▸ refl_of Quiet u
  rw [← hu] at ht
  clear hu
  induction ht generalizing w with
  | done =>
    refine ⟨w, refl_of Quiet w, ?_⟩
    rw [walkLoop, if_pos rfl]
    rfl
  | step hne hlen hd _ hf hk _ ih =>
    rename_i e _ _ path _ _
    have hd' : w.IsDir _ := (hq.isDir _).mpr hd
    obtain ⟨t, ht, hqt, hp⟩ := dirLookup_finds h hi (finds_of_byte hq.byte hf)
    have hin := inodeOf_run (mapped_of_pages hp)
    have hind := (trans_of Quiet hq hqt).inInd e
    rw [hind] at hin
    have hqf : Quiet w (t.follow (u.inInd e)) := trans_of Quiet hqt (quiet_follow t _)
    obtain ⟨v, hqv, hv⟩ := ih (hqf.sane h) hk (trans_of Quiet hq hqf)
    refine ⟨v, trans_of Quiet hqf hqv, ?_⟩
    rw [walkLoop, if_neg hne]
    have hlen' : ¬MAXNAMELEN ≤ (path.takeWhile (· != slash)).length := not_le.mpr hlen
    simp only [if_neg hlen']
    rw [bind_ok (load16_type h.ready (h.lt hi)), if_neg (fun hn => hn hd'), bind_ok ht]
    exact (bind_ok hin).trans hv

theorem Quiet.trailIn {N : Nat} {P : Nat → Prop} {w v : World} (h : Quiet w v) {fuel i dir entry dir' entry' : Nat}
    {path : List UInt8} (ht : w.TrailIn N P fuel path i dir entry dir' entry') :
    v.TrailIn N P fuel path i dir entry dir' entry' := by
  induction ht with
  | done => exact .done
  | step hne hlen hd hP hf hk _ ih =>
    refine .step hne hlen ((h.isDir _).mpr hd) hP (finds_of_byte h.byte hf) (by rwa [h.inInd]) ?_
    rw [h.inInd]
    exact ih

theorem World.TrailIn.last {N : Nat} {P : Nat → Prop} {w : World} {fuel i dir entry dir' entry' : Nat}
    {path : List UInt8} (ht : w.TrailIn N P fuel path i dir entry dir' entry') (hi : i < N) :
    path = [] ∧ entry' = entry ∨ ∃ d < N, w.EntryIn d entry' ∧ w.inInd entry' < N := by
  induction ht with
  | done => exact .inl ⟨rfl, rfl⟩
  | step _ _ _ _ hf hk _ ih =>
    rcases ih hk with ⟨-, rfl⟩ | hlast
    · exact .inr ⟨_, hi, hf.entryIn, hk⟩
    · exact .inr hlast

theorem TidyIn.trail_found {N : Nat} {D : Nat → Prop} {w : World} (h : TidyIn N D w) (fuel : Nat)
    {path : List UInt8} (h0 : (0 : UInt8) ∉ path) (hh : path.head? ≠ some slash) {i dir entry dir' e : Nat}
    (hi : D i) (hr : w.resolveFrom fuel path i dir entry = .ok (.found dir' e)) :
    w.TrailIn N (· ∈ w.visited fuel path i) fuel path i dir entry dir' e := by
  induction fuel generalizing path i dir entry with
  | zero => cases hr
  | succ fuel ih =>
    unfold World.resolveFrom at hr
    by_cases hnil : path = []
    · rw [if_pos hnil] at hr
      cases hr
      rw [hnil]
      exact .done
    rw [if_neg hnil] at hr
    by_cases hlen : MAXNAMELEN ≤ (path.takeWhile (· != slash)).length
    · rw [if_pos hlen] at hr
      cases hr
    rw [if_neg hlen] at hr
    by_cases hd : w.IsDir i
    swap
    · rw [if_neg hd] at hr
      cases hr
    rw [if_pos hd] at hr
    cases hl : w.lookup i (path.takeWhile (· != slash)) with
    | none =>
      rw [hl] at hr
      dsimp only at hr
      split_ifs at hr
      cases hr
    | some f =>
      rw [hl] at hr
      obtain ⟨hname, hrest⟩ := component_nul h0
      have hmem := List.mem_of_find?_eq_some hl
      have hmatch := List.find?_some hl
      have hk := h.named i f hi hd hmem (byte_ne_zero_of_matches hmatch (takeWhile_ne_nil hnil hh) hname)
      have hvisited : w.visited (fuel + 1) path i =
          i :: w.visited fuel (skipSlash (path.dropWhile (· != slash))) (w.inInd f) := by
        rw [World.visited, if_neg hnil, hl]
      rw [hvisited]
      refine .step hnil (not_le.mp hlen) hd List.mem_cons_self
        ⟨_, le_rfl, fun j hj => h.filled i j hi hd hj, hl⟩ (h.lt _ hk) ?_
      exact (ih hrest (head_skipSlash _) hk hr).mono fun _ hm => List.mem_cons_of_mem _ hm

theorem nameMatches_congr {w v : World} {a : Nat} {name : List UInt8}
    (h : ∀ x, a ≤ x → x ≤ a + name.length → v.byte x = w.byte x) :
    nameMatches v a name = nameMatches w a name := by
  induction name generalizing a with
  | nil => rw [nameMatches, nameMatches, h a le_rfl le_rfl]
  | cons c cs ih =>
    rw [nameMatches, nameMatches, h a le_rfl (Nat.le_add_right _ _), ih fun x hlo hhi => ?_]
    exact h x (by omega) (by simp only [List.length_cons]; omega)

theorem entry_inj {b c s t : Nat} (hs : s < BLKFILES) (ht : t < BLKFILES)
    (h : blockVa b + DIRESIZE * s = blockVa c + DIRESIZE * t) : b = c ∧ s = t := by
  simp only [blockVa, DIRESIZE, BLKFILES, BLKSIZE] at *
  omega

theorem rest_length {path : List UInt8} (hne : path ≠ []) (hh : path.head? ≠ some slash) :
    (skipSlash (path.dropWhile (· != slash))).length < path.length := by
  cases path with
  | nil => exact absurd rfl hne
  | cons c cs =>
    have hc : (c != slash) = true := by simpa using hh
    rw [List.dropWhile_cons, if_pos hc]
    have h1 := (List.dropWhile_sublist (· == slash) (l := cs.dropWhile (· != slash))).length_le
    have h2 := (List.dropWhile_sublist (· != slash) (l := cs)).length_le
    simp only [skipSlash, List.length_cons] at *
    omega

/-- The directories of `w` in `D` are still there in `v`, and `d` has a new entry `e` called `name`. -/
structure Entered (N : Nat) (D : Nat → Prop) (w v : World) (d : Nat) (name : List UInt8) (e : Nat) : Prop where
  dirs : ∀ i, D i → w.IsDir i → v.IsDir i ∧
    (w.cached.inode i).blkUsed ≤ (v.cached.inode i).blkUsed ∧
    ∀ j < (w.cached.inode i).blkUsed, v.cached.slot i j = w.cached.slot i j
  byte : ∀ i f, D i → w.IsDir i → f ∈ w.entries i → f ≠ e → ∀ x, f ≤ x → x < f + DIRESIZE →
    v.byte x = w.byte x
  only : ∀ i, D i → w.IsDir i → e ∈ w.entries i → i = d ∧ w.byte e = 0
  named : ∀ n, (0 : UInt8) ∉ n → nameMatches v e n = true → n = name
  missing : w.lookup d name = none
  finds : v.Finds d name e
  inode : v.inInd e < N

namespace Entered

variable {N : Nat} {D : Nat → Prop} {w v : World} (h : TidyIn N D w) {d e : Nat} {name : List UInt8}
  (hE : Entered N D w v d name e)
include h hE

private theorem finds_old {i f : Nat} (hi : D i) (hd : w.IsDir i) {n : List UInt8} (hn : n ≠ [])
    (h0 : (0 : UInt8) ∉ n) (hlen : n.length < MAXNAMELEN) (hl : w.lookup i n = some f) :
    v.Finds i n f ∧ v.inInd f = w.inInd f := by
  obtain ⟨-, hu, hs⟩ := hE.dirs i hi hd
  have hblocks : v.firstEntries i (w.cached.inode i).blkUsed = w.entries i := by
    refine List.flatMap_congr fun j hj => ?_
    rw [World.blockEntries, World.blockEntries, hs j (List.mem_range.mp hj)]
  have hmem := List.mem_of_find?_eq_some hl
  have hmatch := List.find?_some hl
  have hbyte := byte_ne_zero_of_matches hmatch hn h0
  have hsame : ∀ g ∈ w.entries i, nameMatches v g n = nameMatches w g n := by
    intro g hg
    by_cases hge : g = e
    · subst hge
      obtain ⟨rfl, hz⟩ := hE.only i hi hd hg
      -- the new entry had no name, and has another one now
      have hw : nameMatches w g n = false := by
        by_contra hm
        exact byte_ne_zero_of_matches (by simpa using hm) hn h0 hz
      have hv : nameMatches v g n = false := by
        by_contra hm
        have he := hE.named n h0 (by simpa using hm)
        rw [he, hE.missing] at hl
        cases hl
      rw [hw, hv]
    · refine nameMatches_congr fun x hlo hhi => hE.byte i g hi hd hg hge x hlo ?_
      simp only [MAXNAMELEN, DIRESIZE] at *
      omega
  refine ⟨⟨_, hu, fun j hj => ?_, ?_⟩, ?_⟩
  · rw [hs j hj]
    exact h.filled i j hi hd hj
  · rw [hblocks, List.find?_congr hsame]
    exact hl
  · have hfe : f ≠ e := by
      rintro rfl
      exact hbyte (hE.only i hi hd hmem).2
    have hb := hE.byte i f hi hd hmem hfe
    refine u16_congr (hb _ ?_ ?_) (hb _ ?_ ?_) <;> simp only [offInInd, DIRESIZE] <;> omega

theorem trail (fuel : Nat) {path : List UInt8} (hfuel : path.length < fuel) (h0 : (0 : UInt8) ∉ path)
    (hh : path.head? ≠ some slash) {i : Nat} (hi : D i) (dir entry : Nat)
    (hr : w.resolveFrom fuel path i dir entry = .ok (.missing (inodeVa d) name)) :
    v.TrailIn N w.IsDir fuel path i dir entry (inodeVa d) e := by
  induction fuel generalizing path i dir entry with
  | zero => cases hr
  | succ fuel ih =>
    unfold World.resolveFrom at hr
    by_cases hnil : path = []
    · rw [if_pos hnil] at hr
      cases hr
    rw [if_neg hnil] at hr
    by_cases hlen : MAXNAMELEN ≤ (path.takeWhile (· != slash)).length
    · rw [if_pos hlen] at hr
      cases hr
    rw [if_neg hlen] at hr
    by_cases hd : w.IsDir i
    swap
    · rw [if_neg hd] at hr
      cases hr
    rw [if_pos hd] at hr
    obtain ⟨hname, hrest⟩ := component_nul h0
    have hne := takeWhile_ne_nil hnil hh
    have hshort := rest_length hnil hh
    cases hl : w.lookup i (path.takeWhile (· != slash)) with
    | none =>
      rw [hl] at hr
      dsimp only at hr
      split_ifs at hr with hend
      simp only [Except.ok.injEq, Walk.missing.injEq] at hr
      obtain rfl := inodeVa_inj hr.1
      have hf := hE.finds
      rw [← hr.2] at hf
      refine .step hnil (not_le.mp hlen) (hE.dirs i hi hd).1 hd hf hE.inode ?_
      rw [hend]
      obtain ⟨m, rfl⟩ : ∃ m, fuel = m + 1 := Nat.exists_eq_succ_of_ne_zero (by omega)
      exact .done
    | some f =>
      rw [hl] at hr
      obtain ⟨hf, hin⟩ := hE.finds_old h hi hd hne hname (not_le.mp hlen) hl
      have hmem := List.mem_of_find?_eq_some hl
      have hmatch := List.find?_some hl
      have hbyte := byte_ne_zero_of_matches hmatch hne hname
      have hk := h.named i f hi hd hmem hbyte
      refine .step hnil (not_le.mp hlen) (hE.dirs i hi hd).1 hd hf (by rw [hin]; exact h.lt _ hk) ?_
      rw [hin]
      exact ih (by omega) hrest (head_skipSlash _) hk _ _ hr

end Entered

namespace Beside

variable {N k : Nat} {w v : World} (h : Beside N k w v)
include h

theorem finds {i e : Nat} (hi : i < N) (hne : i ≠ k) {name : List UInt8}
    (hlen : name.length < MAXNAMELEN) (hf : w.Finds i name e) : v.Finds i name e := by
  obtain ⟨n, hn, hz, he⟩ := hf
  have hblocks : v.firstEntries i n = w.firstEntries i n := by
    refine List.flatMap_congr fun j _ => ?_
    rw [World.blockEntries, World.blockEntries, h.slot hne]
  refine ⟨n, by rw [h.other i hne]; exact hn, fun j hj => by rw [h.slot hne]; exact hz j hj, ?_⟩
  rw [hblocks, ← he]
  refine List.find?_congr fun f hf => nameMatches_congr fun x hlo hhi => ?_
  obtain ⟨j, hj, hf⟩ := List.mem_flatMap.mp hf
  obtain ⟨s, hs, rfl⟩ := List.mem_map.mp hf
  refine h.entry hi hne ⟨j, s, hz j (List.mem_range.mp hj), List.mem_range.mp hs, rfl⟩ hlo ?_
  simp only [MAXNAMELEN, DIRESIZE] at *
  omega

/-- A way through directories is left by changes to an inode that it avoids. -/
theorem trailIn {P : Nat → Prop} (hk : ∀ i, w.IsDir i → P i → i ≠ k) {fuel i dir entry dir' entry' : Nat} (hi : i < N)
    {path : List UInt8} (ht : w.TrailIn N P fuel path i dir entry dir' entry') :
    v.TrailIn N P fuel path i dir entry dir' entry' := by
  induction ht with
  | done => exact .done
  | step hne hlen hd hP hf hin _ ih =>
    have hik := hk _ hd hP
    have hsame := h.inInd hi hik hf.entryIn
    refine .step hne hlen ((h.isDir _).mpr hd) hP (h.finds hi hik hlen hf) (by rwa [hsame]) ?_
    rw [hsame]
    exact ih hin

theorem trail (hk : ¬w.IsDir k) {fuel i dir entry dir' entry' : Nat} (hi : i < N) {path : List UInt8}
    (ht : w.Trail N fuel path i dir entry dir' entry') : v.Trail N fuel path i dir entry dir' entry' :=
  h.trailIn (fun _ hd _ he => hk (he ▸ hd)) hi ht

end Beside

end DamnOS.FileSystem
