import DamnOS.Server.ReadOnly

/-!
# Paths that stay

A path goes on leading to a file until the file is removed, as long as no directory is removed that has
something in it.
-/

namespace DamnOS.FileSystem

open DamnOS.Framework

namespace World

/-- The inode that the walk along `names` from inode `i` on comes to. -/
def lands (w : World) : List (List UInt8) → Nat → Option Nat
  | [], i => some i
  | n :: names, i =>
    if n.length < MAXNAMELEN ∧ w.IsDir i then (w.lookup i n).bind fun g => w.lands names (w.inInd g) else none

def Avoids (w : World) (gone : Nat → Nat → Prop) : List (List UInt8) → Nat → Prop
  | [], _ => True
  | n :: names, i => ∀ g, w.lookup i n = some g → ¬gone i g ∧ w.Avoids gone names (w.inInd g)

private theorem lands_cons {w : World} {n : List UInt8} {names : List (List UInt8)} {i k : Nat}
    (h : w.lands (n :: names) i = some k) : n.length < MAXNAMELEN ∧ w.IsDir i ∧
      ∃ g, w.lookup i n = some g ∧ w.lands names (w.inInd g) = some k := by
  rw [lands] at h
  split_ifs at h with hc
  obtain ⟨g, hg, hk⟩ := Option.bind_eq_some_iff.mp h
  exact ⟨hc.1, hc.2, g, hg, hk⟩

private theorem lands_step {w : World} {n : List UInt8} (names : List (List UInt8)) {i g : Nat}
    (hlen : n.length < MAXNAMELEN) (hd : w.IsDir i) (hl : w.lookup i n = some g) :
    w.lands (n :: names) i = w.lands names (w.inInd g) := by
  rw [lands, if_pos ⟨hlen, hd⟩, hl]
  rfl

end World

section Walk

variable {N : Nat} {D : Nat → Prop} {w : World} (h : InOrder N D w)
include h

private theorem walk_lands {names : List (List UInt8)} (hn : ∀ n ∈ names, PathName n) {i dir entry dir' f : Nat}
    (hi : D i) (hentry : w.inodeBehind entry = i) (hr : w.walk names i dir entry = .ok (.found dir' f)) :
    w.lands names i = some (w.inodeBehind f) := by
  induction names generalizing i dir entry with
  | nil =>
    cases hr
    rw [hentry]
    rfl
  | cons n names ih =>
    obtain ⟨hp, hrest⟩ := List.forall_mem_cons.mp hn
    obtain ⟨hlen, hd, g, hl, hr⟩ := walk_cons_found hr
    obtain ⟨-, -, hmem, hb⟩ := named_lookup hi hd hp hl
    rw [World.lands_step names hlen hd hl]
    refine ih hrest (h.named i g hi hd hmem hb) ?_ hr
    have hin := ((h.filledAt hi hd).entryIn hmem).inMap h.sane (h.lt i hi)
    rw [World.inodeBehind, if_neg]
    intro hzero
    rw [hzero] at hin
    exact absurd hin.1 (by decide)

private theorem lands_walk {names : List (List UInt8)} (hn : ∀ n ∈ names, PathName n) {i k : Nat} (dir entry : Nat)
    (hi : D i) (hk : w.lands names i = some k) : ∃ dir' f, w.walk names i dir entry = .ok (.found dir' f) := by
  induction names generalizing i dir entry with
  | nil => exact ⟨dir, entry, rfl⟩
  | cons n names ih =>
    obtain ⟨hp, hrest⟩ := List.forall_mem_cons.mp hn
    obtain ⟨hlen, hd, g, hl, hk⟩ := World.lands_cons hk
    obtain ⟨-, -, hmem, hb⟩ := named_lookup hi hd hp hl
    rw [walk_step names dir entry hlen hd hl]
    exact ih hrest _ _ (h.named i g hi hd hmem hb) hk

private theorem reply_fileOpen_iff {path : List UInt8} (h0 : (0 : UInt8) ∉ path) {f : Nat} :
    reply (fileOpen path) w = .ok f ↔ ∃ dir, w.resolve path = .ok (.found dir f) := by
  obtain ⟨v, -, hv⟩ := h.walkable.fileOpen_run h0
  rw [← openEntry_eq_ok]
  cases ho : w.openEntry path with
  | ok e =>
    rw [ho] at hv
    rw [reply_ok hv]
    simp
  | error x =>
    rw [ho] at hv
    rw [reply_error hv]
    simp

private theorem leadsTo_iff {path : List UInt8} (h0 : (0 : UInt8) ∉ path) {k : Nat} : w.LeadsTo path k ↔
    path.head? = some slash ∧ w.lands (parts path) 0 = some k := by
  have hparts := pathName_parts h0
  constructor
  · intro hl
    obtain ⟨f, hf, rfl⟩ := hl
    obtain ⟨dir, hr⟩ := (reply_fileOpen_iff h h0).mp hf
    have hs := slash_of_resolve hr
    rw [resolve_eq_parts w hs] at hr
    exact ⟨hs, walk_lands h hparts h.root rfl hr⟩
  · intro hl
    obtain ⟨hs, hk⟩ := hl
    obtain ⟨dir, f, hr⟩ := lands_walk h hparts 0 0 h.root hk
    have hbehind := walk_lands h hparts h.root rfl hr
    rw [hk] at hbehind
    rw [← resolve_eq_parts w hs] at hr
    exact ⟨f, (reply_fileOpen_iff h h0).mpr ⟨dir, hr⟩, (Option.some.inj hbehind).symm⟩

private theorem Persists.lands {D' : Nat → Prop} {gone : Nat → Nat → Prop} {v : World} (hp : Persists N D D' gone w v)
    {names : List (List UInt8)} (hn : ∀ n ∈ names, PathName n) {i k : Nat} (hi : D i)
    (hk : w.lands names i = some k) (ha : w.Avoids gone names i) : v.lands names i = some k := by
  induction names generalizing i with
  | nil => exact hk
  | cons n names ih =>
    obtain ⟨hpath, hrest⟩ := List.forall_mem_cons.mp hn
    obtain ⟨hlen, hd, g, hl, hk⟩ := World.lands_cons hk
    obtain ⟨hno, ha⟩ := ha g hl
    have hnamed := named_lookup hi hd hpath hl
    obtain ⟨hv, hbyte⟩ := hp.entry i g hnamed hno
    have hin : v.inInd g = w.inInd g := inInd_of_byte hbyte
    rw [World.lands_step names hlen hv.dir (hp.lookup i n g hi hd hpath hlen hl hno), hin]
    exact ih hrest (h.named i g hi hd hnamed.entry hnamed.name) hk ha

private theorem Persists.leadsTo {D' : Nat → Prop} {gone : Nat → Nat → Prop} {v : World} (hp : Persists N D D' gone w v)
    {path : List UInt8} (h0 : (0 : UInt8) ∉ path) {k : Nat} (hl : w.LeadsTo path k)
    (ha : w.Avoids gone (parts path) 0) : v.LeadsTo path k := by
  obtain ⟨hs, hk⟩ := (leadsTo_iff h h0).mp hl
  exact (leadsTo_iff hp.inOrder h0).mpr ⟨hs, hp.lands h (pathName_parts h0) h.root hk ha⟩

end Walk

private theorem World.Avoids.of_none {w : World} {gone : Nat → Nat → Prop} (h : ∀ i f, ¬gone i f)
    (names : List (List UInt8)) (i : Nat) : w.Avoids gone names i := by
  induction names generalizing i with
  | nil => trivial
  | cons n names ih => exact fun g _ => ⟨h i g, ih (w.inInd g)⟩

theorem World.Avoids.mono {w : World} {gone gone' : Nat → Nat → Prop} {names : List (List UInt8)} {i : Nat}
    (ha : w.Avoids gone names i) (hg : ∀ i f, gone' i f → gone i f) : w.Avoids gone' names i := by
  induction names generalizing i with
  | nil => trivial
  | cons n names ih =>
    intro g hl
    obtain ⟨hno, ha⟩ := ha g hl
    exact ⟨fun hgone => hno (hg i g hgone), ih ha⟩

/-- Every name in directory `k` leads to the directory itself. -/
def World.EmptyDir (w : World) (k : Nat) : Prop := ∀ g ∈ w.entries k, w.byte g ≠ 0 → w.inInd g = k

section Remove

variable {N : Nat} {D : Nat → Prop} {w : World} (h : InOrder N D w)
include h

omit h in
private theorem lands_stuck {q : Nat} (hq : D q) (hempty : w.IsDir q → w.EmptyDir q) {names : List (List UInt8)}
    (hn : ∀ n ∈ names, PathName n) {k : Nat} (hk : w.lands names q = some k) : k = q := by
  induction names with
  | nil => exact (Option.some.inj hk).symm
  | cons n names ih =>
    obtain ⟨hp, hrest⟩ := List.forall_mem_cons.mp hn
    obtain ⟨-, hd, g, hl, hk⟩ := World.lands_cons hk
    obtain ⟨-, -, hmem, hb⟩ := named_lookup hq hd hp hl
    rw [hempty hd g hmem hb] at hk
    exact ih hrest hk

/-- A walk that comes to something else meets neither the removed entry nor the removed directory. -/
theorem avoids_removed {d e : Nat} (he : w.NamedIn D d e) (hempty : w.IsDir (w.inInd e) → w.EmptyDir (w.inInd e))
    {names : List (List UInt8)} (hn : ∀ n ∈ names, PathName n) {i k : Nat} (hi : D i) (hik : i ≠ w.inInd e)
    (hk : w.lands names i = some k) (hne : k ≠ w.inInd e) :
    w.Avoids (fun i f => f = e ∨ i = w.inInd e) names i := by
  have hq := h.named d e he.mem he.dir he.entry he.name
  induction names generalizing i with
  | nil => trivial
  | cons n names ih =>
    obtain ⟨hp, hrest⟩ := List.forall_mem_cons.mp hn
    obtain ⟨-, hd, g, hl, hk⟩ := World.lands_cons hk
    obtain ⟨-, -, hmem, hb⟩ := named_lookup hi hd hp hl
    have hleave : w.inInd g ≠ w.inInd e := by
      intro heq
      rw [heq] at hk
      exact hne (lands_stuck hq hempty hrest hk)
    intro g' hl'
    rw [hl] at hl'
    cases hl'
    refine ⟨?_, ih hrest (h.named i g hi hd hmem hb) hleave hk⟩
    rintro (rfl | heq)
    · exact hleave rfl
    · exact hik heq

private theorem fileRemove_found {rpath : List UInt8} (hr0 : (0 : UInt8) ∉ rpath)
    (hl : (FileOp.remove rpath).halts w = false) {dir e : Nat} (hr : w.resolve rpath = .ok (.found dir e))
    (hroot : e ≠ 0) : ∃ v, fileRemove rpath w = .ok () v := by
  obtain ⟨t, hq, hwalk⟩ := h.walkable.walkPath_run hr0
  rw [hr] at hwalk
  rcases resolve_placedIn h.toTidyIn hr0 hr with ⟨-, hzero⟩ | ⟨d, hd, hdir, -, rfl, he, hb⟩
  · exact absurd hzero hroot
  have hin := (h.filledAt hd hdir).entryIn he
  have hk := h.lt _ (h.named d e hd hdir he hb)
  rcases fileRemove_outcome h.sane (h.lt d hd) hin hk hq hwalk with hok | hp
  · exact hok
  · obtain ⟨p, v, hp⟩ := hp
    have hexec : (FileOp.remove rpath).exec w = .error (.panic p) v := hp
    rw [FileOp.halts, hexec] at hl
    cases hl

private theorem remove_avoids {rpath : List UInt8} (hr0 : (0 : UInt8) ∉ rpath) (hc : (FileOp.remove rpath).Careful N w)
    (hempty : ∀ dir e, w.resolve rpath = .ok (.found dir e) → w.IsDir (w.inInd e) → w.EmptyDir (w.inInd e))
    {names : List (List UInt8)} (hn : ∀ n ∈ names, PathName n) {k : Nat} (hk : w.lands names 0 = some k)
    (hne : ∀ dir e, w.resolve rpath = .ok (.found dir e) → k ≠ w.inInd e) :
    w.Avoids (fun i f => (FileOp.remove rpath).Takes w i f) names 0 := by
  by_cases hres : ∃ dir e, w.resolve rpath = .ok (.found dir e)
  swap
  · refine .of_none (fun i f ht => ?_) names 0
    obtain ⟨dir, e, hr, -⟩ := ht
    exact hres ⟨dir, e, hr⟩
  obtain ⟨dir, e, hr⟩ := hres
  obtain ⟨hroot, hself⟩ := hc.2 dir e hr
  rcases resolve_placedIn h.toTidyIn hr0 hr with ⟨-, hzero⟩ | ⟨d, hd, hdir, -, rfl, he, hb⟩
  · exact absurd hzero hroot
  have hnamed : w.NamedIn D d e := ⟨hd, hdir, he, hb⟩
  have hzero : 0 ≠ w.inInd e := by
    intro h0
    have htop := h.top d e hnamed h0.symm
    rw [← h0, htop] at hself
    exact hself h.rootDir rfl
  have hav := avoids_removed h hnamed (hempty _ e hr) hn h.root hzero hk (hne _ e hr)
  refine hav.mono (fun i f ht => ?_) 
  obtain ⟨dir', e', hr', hgone⟩ := ht
  rw [hr] at hr'
  cases hr'
  exact hgone

end Remove

end DamnOS.FileSystem

namespace DamnOS.Server

open DamnOS.Framework
open DamnOS.FileSystem

def EndsInDots (path : List UInt8) : Prop :=
  (parts path).getLast? = some [46] ∨ (parts path).getLast? = some [46, 46]

/-- What is removed is a file, or a directory with nothing in it, by its own name. -/
def Gentle (op : FileOp) (w : World) : Prop := ∀ path, op = .remove path → ¬EndsInDots path ∧ ∀ dir f,
  w.resolve path = .ok (.found dir f) → w.IsDir (w.inInd f) → w.EmptyDir (w.inInd f)

/-- Removing a directory with something in it, or a path that ends in dots, fails and changes nothing. -/
def Refuses (op : FileOp) (w : World) : Prop := ∀ path, op = .remove path →
  (EndsInDots path ∨ ∃ dir f, w.resolve path = .ok (.found dir f) ∧ w.IsDir (w.inInd f) ∧
    ¬w.EmptyDir (w.inInd f)) → ∃ e v, fileRemove path w = .error (.err e) v ∧ v.block = w.block

theorem Gentle.refuses {op : FileOp} {w : World} (h : Gentle op w) : Refuses op w := by
  intro path hop hbad
  obtain ⟨hdots, hempty⟩ := h path hop
  rcases hbad with hbad | ⟨dir, f, hr, hd, hno⟩
  · exact absurd hbad hdots
  · exact absurd (hempty dir f hr hd) hno

def Unlinks (k : Nat) (op : FileOp) (w : World) : Prop := ∃ path v, op = .remove path ∧ w.LeadsTo path k ∧
  fileRemove path w = .ok () v

private theorem leadsTo_step {N : Nat} {D : Nat → Prop} {w : World} (h : InOrder N D w) {op : FileOp}
    (hc : Tame N op w) (hg : Gentle op w) {k : Nat} (hu : ¬Unlinks k op w) (hl : op.halts w = false)
    {path : List UInt8} (h0 : (0 : UInt8) ∉ path) (hlead : w.LeadsTo path k) :
    Consistent N (server.step op w) ∧ (server.step op w).LeadsTo path k := by
  obtain ⟨D', hp⟩ := tame_persists h hc hl
  refine ⟨⟨D', hp.inOrder⟩, hp.leadsTo h h0 hlead ?_⟩
  obtain ⟨hs, hk⟩ := (leadsTo_iff h h0).mp hlead
  cases op with
  | remove rpath =>
    refine remove_avoids h hc.1 hc (hg rpath rfl).2 (pathName_parts h0) hk fun dir e hr hke => hu ?_
    have hroot := (hc.2 dir e hr).1
    obtain ⟨v, hv⟩ := fileRemove_found h hc.1 hl hr hroot
    refine ⟨rpath, v, rfl, ⟨e, (reply_fileOpen_iff h hc.1).mpr ⟨dir, hr⟩, ?_⟩, hv⟩
    rw [World.inodeBehind, if_neg hroot, hke]
  | _ => exact .of_none (fun i f ht => ht) _ _

/-- A path leads to an inode of a consistent image. -/
def Leading (N : Nat) (path : List UInt8) (k : Nat) (w : World) : Prop := Consistent N w ∧ w.LeadsTo path k

private theorem leading_upheld (N : Nat) {path : List UInt8} (h0 : (0 : UInt8) ∉ path) (k : Nat) :
    Upheld (fun op w => (Tame N op w ∧ Gentle op w) ∧ ¬Unlinks k op w) (Leading N path k) where
  quiet w v hq h := by
    obtain ⟨⟨D, hD⟩, hlead⟩ := h
    have hp := (Stands.of_quiet hD.sane hq).persists hD fun _ _ => False
    exact ⟨⟨D, hp.inOrder⟩, hp.leadsTo hD h0 hlead (.of_none (fun _ _ hf => hf) _ _)⟩
  step op w h hc hl := by
    obtain ⟨⟨D, hD⟩, hlead⟩ := h
    exact leadsTo_step hD hc.1.1 hc.1.2 hc.2 hl h0 hlead

theorem Leading.fill {N : Nat} {path : List UInt8} (h0 : (0 : UInt8) ∉ path) {k : Nat} {w : World}
    (h : Leading N path k w) (page : Nat → UInt8) : Leading N path k (w.fill fsreq PGSIZE page) := by
  obtain ⟨⟨D, hD⟩, hlead⟩ := h
  have hp := (stands_fill hD page apart_fsreq).persists hD fun _ _ => False
  exact ⟨⟨D, hp.inOrder⟩, hp.leadsTo hD h0 hlead (.of_none (fun _ _ hf => hf) _ _)⟩

/-- Along a run of tame and gentle requests, a path goes on leading to an inode until a call removes the
inode, and no directory with something in it is removed. -/
theorem path_stays {rt N : Nat} {s : State} {as : List Action} {path : List UInt8} {k : Nat}
    (h : Consistent N s.world) (h0 : (0 : UInt8) ∉ path) (hlead : s.world.LeadsTo path k)
    (hc : (traffic rt).Along (Action.Meets fun op w => Tame N op w ∧ Gentle op w) as s)
    (hn : (traffic rt).Along (Action.Meets fun op w => ¬Unlinks k op w) as s)
    (hl : (traffic rt).Survives as s) : ((traffic rt).run as s).world.LeadsTo path k ∧
      (traffic rt).Along (Action.Meets Refuses) as s := by
  have hmeets : (traffic rt).Along
      (Action.Meets fun op w => (Tame N op w ∧ Gentle op w) ∧ ¬Unlinks k op w) as s :=
    (hc.and hn).mono fun a s hm => hm.1.and hm.2
  constructor
  · exact ((leading_upheld N h0 k).traffic (fun _ page hw => hw.fill h0 page) ⟨h, hlead⟩ hmeets hl).2
  · exact hc.mono fun a s hm => hm.mono fun op w hop => hop.2.refuses

theorem path_stays_root : Consistent 4 (mount (freshDisk 4 1)) ∧
    ((traffic 4096).run [createA] (State.init (mount (freshDisk 4 1)))).world.LeadsTo [47] 0 ∧
      (traffic 4096).Along (Action.Meets Refuses) [createA] (State.init (mount (freshDisk 4 1))) := by
  have hroot : (mount (freshDisk 4 1)).LeadsTo [47] 0 :=
    ⟨0, reply_ok (eq_ok_of_value (by decide +kernel)), rfl⟩
  have hgentle : createA.Meets Gentle (State.init (mount (freshDisk 4 1))) := by
    refine createA_meets ?_ fun w => ?_
    · intro path hop
      cases hop
    · intro path hop
      cases hop
  have hkept : createA.Meets (fun op w => ¬Unlinks 0 op w) (State.init (mount (freshDisk 4 1))) := by
    refine createA_meets ?_ fun w => ?_
    · intro hu
      obtain ⟨path, v, hop, -⟩ := hu
      cases hop
    · intro hu
      obtain ⟨path, v, hop, -⟩ := hu
      cases hop
  have hlive : (traffic 4096).Survives [createA] (State.init (mount (freshDisk 4 1))) :=
    ⟨by decide +kernel, trivial⟩
  exact ⟨consistent_fresh, path_stays consistent_fresh (by decide) hroot
    ⟨createA_tame.and hgentle, fun _ => trivial⟩ ⟨hkept, fun _ => trivial⟩ hlive⟩

/-- `/d` is made, and `x` in it; then a client removes `/d`. -/
def fillD : List Action :=
  [.request .mkdir (Programs.openPage (fun _ => 0) [47, 100] 0),
    .request .open (Programs.openPage (fun _ => 0) [47, 100, 47, 120] O_CREAT)]

def removeD : Action := .request .remove (Programs.openPage (fun _ => 0) [47, 100] 0)

/-- `/d/x` is not to be found any more. -/
theorem file_orphaned : ¬∀ (rt N : Nat) (s : State) (as bs : List Action) (path : List UInt8) (k : Nat),
    Consistent N s.world → (0 : UInt8) ∉ path → (traffic rt).Survives as s →
      ((traffic rt).run as s).world.LeadsTo path k → (traffic rt).Survives bs ((traffic rt).run as s) →
      (traffic rt).Along (Action.Meets fun op w => ¬Unlinks k op w) bs ((traffic rt).run as s) →
      ((traffic rt).run bs ((traffic rt).run as s)).world.LeadsTo path k := by
  intro hall
  generalize hs : (traffic 4096).run fillD (State.init (mount (freshDisk 4 1))) = s
  have hx : s.world.LeadsTo [47, 100, 47, 120] 2 := by
    rw [← hs]
    exact ⟨blockVa 3 + 2 * DIRESIZE, reply_ok (eq_ok_of_value (by decide +kernel)), by decide +kernel⟩
  have hkept : removeD.Meets (fun op w => ¬Unlinks 2 op w) s := by
    intro hu
    obtain ⟨path, v, hop, hlead, -⟩ := hu
    cases hop
    have hd : (s.receive (Programs.openPage (fun _ => 0) [47, 100] 0)).world.LeadsTo
        (s.receive (Programs.openPage (fun _ => 0) [47, 100] 0)).reqPath 1 := by
      rw [← hs]
      exact ⟨blockVa 2, reply_ok (eq_ok_of_value (by decide +kernel)), by decide +kernel⟩
    exact absurd (hlead.unique hd) (by decide)
  have hlive : (traffic 4096).Survives [removeD] s := by
    rw [← hs]
    exact ⟨by decide +kernel, trivial⟩
  have hlost := hall 4096 4 (State.init (mount (freshDisk 4 1))) fillD [removeD] [47, 100, 47, 120] 2
    consistent_fresh (by decide) ⟨by decide +kernel, by decide +kernel, trivial⟩ (by rw [hs]; exact hx)
    (by rw [hs]; exact hlive) (by rw [hs]; exact ⟨hkept, fun _ => trivial⟩)
  obtain ⟨f, hf, -⟩ := hlost
  have hgone : value (fileOpen [47, 100, 47, 120])
      ((traffic 4096).run [removeD] ((traffic 4096).run fillD (State.init (mount (freshDisk 4 1))))).world =
        none := by decide +kernel
  rw [value] at hgone
  rw [reply] at hf
  split at hf
  · next hr =>
    rw [hr] at hgone
    cases hgone
  · cases hf

end DamnOS.Server
