import DamnOS.FileSystem.Components

/-!
# Disks for given trees

For every tree of at most 127 named directories below the root there is an orderly disk: directory
`i` has inode `i` and block `i + 2`, and the entry of directory `k` stands at place `k` of the block
of its parent.
-/

namespace DamnOS.FileSystem

open DamnOS.Framework

/-- Directories `1, …, size` below the root `0`. -/
structure Tree where
  size : Nat
  parent : Nat → Nat
  name : Nat → List UInt8
  small : size < MAXINODENUM
  below : ∀ k, 0 < k → k ≤ size → parent k < k
  named : ∀ k, 0 < k → k ≤ size → name k ≠ [] ∧ (name k).length < MAXNAMELEN ∧ (0 : UInt8) ∉ name k

/-- A super block with all blocks and all inodes in use. -/
def fullSuper (o : Nat) : UInt8 :=
  if o = 4 then 128 else if o = 7 then 16 else if 16 ≤ o ∧ o < 544 then 255 else 0

/-- An inode table of directories with one block each, full of entries. -/
def dirInodes (o : Nat) : UInt8 :=
  if o % 32 = 0 then 0x64 else if o % 32 = 2 then 0xF6 else if o % 32 = 3 then 0x0F
  else if o % 32 = 4 then 1 else if o % 32 = 6 then UInt8.ofNat (o / 32 + 2) else 0

namespace Tree

def block (T : Tree) (i o : Nat) : UInt8 :=
  if 0 < o / DIRESIZE ∧ o / DIRESIZE ≤ T.size ∧ T.parent (o / DIRESIZE) = i then
    if o % DIRESIZE < MAXNAMELEN then (T.name (o / DIRESIZE)).getD (o % DIRESIZE) 0
    else if o % DIRESIZE = offInInd then UInt8.ofNat (o / DIRESIZE) else 0
  else 0

def disk (T : Tree) (b : Nat) : Nat → UInt8 :=
  if b = 0 then fullSuper else if b = 1 then dirInodes else T.block (b - 2)

def world (T : Tree) : World := mount T.disk

private theorem byte_world (T : Tree) {b o : Nat} (ho : o < BLKSIZE) :
    T.world.byte (blockVa b + o) = T.disk b o := by
  simp only [BLKSIZE] at ho
  have hdiv : (blockVa b + o) / PGSIZE = superPg + b := by
    simp only [blockVa, DISKMAP, BLKSIZE, PGSIZE, superPg]
    omega
  have hmod : (blockVa b + o) % PGSIZE = o := by
    simp only [blockVa, DISKMAP, BLKSIZE, PGSIZE]
    omega
  have hhigh : ¬blockVa b + o < DISKMAP := by
    simp only [blockVa, DISKMAP]
    omega
  unfold World.byte world mount
  simp only [hdiv, hmod, Nat.add_sub_cancel_left]
  by_cases hm : superPg ≤ superPg + b ∧ superPg + b ≤ inodePg
  · rw [if_pos hm]
    split_ifs <;> rfl
  · have hp : ¬((superPg + b == superPg || superPg + b == inodePg) = true ∨ blockVa b + o < DISKMAP) := by
      simp only [superPg, inodePg] at *
      simp
      omega
    rw [if_neg hp]

private theorem cached_world (T : Tree) : T.world.cached = decode fullSuper dirInodes := by
  unfold World.cached
  apply decode_congr
  · intro o ho
    exact T.byte_world (b := 0) ho
  · intro o ho
    exact T.byte_world (b := 1) ho

theorem inode_world (T : Tree) {i : Nat} (hi : i < MAXINODENUM) : (T.world.cached.inode i).type = FTYPE_DIR ∧
    (T.world.cached.inode i).size = BLKFILES * DIRESIZE ∧ (T.world.cached.inode i).blkUsed = 1 ∧
    ∀ j, T.world.cached.slot i j = if j = 0 then i + 2 else 0 := by
  simp only [MAXINODENUM] at hi
  have hmod (r : Nat) (hr : r < 32) : (32 * i + r) % 32 = r ∧ (32 * i + r) / 32 = i := by omega
  have hbyte (r : Nat) (hr : r < 32) : dirInodes (32 * i + r) = if r = 0 then 0x64 else if r = 2 then 0xF6
      else if r = 3 then 0x0F else if r = 4 then 1 else if r = 6 then UInt8.ofNat (i + 2) else 0 := by
    rw [dirInodes, (hmod r hr).1, (hmod r hr).2]
  have hdec : T.world.cached.inode i = decodeInode dirInodes i := by
    rw [cached_world]
    exact decode_inode _ _ hi
  simp only [Meta.slot, hdec, decodeInode, INSIZE, offType, offSize, offBlkUsed, offBlkInd, u16]
  refine ⟨?_, ?_, ?_, fun j => ?_⟩
  · rw [hbyte 0 (by omega), Nat.add_assoc, hbyte 1 (by omega)]
    rfl
  · rw [hbyte 2 (by omega), Nat.add_assoc, hbyte 3 (by omega)]
    rfl
  · rw [hbyte 4 (by omega), Nat.add_assoc, hbyte 5 (by omega)]
    rfl
  · by_cases hj : j < NDIRECT
    · have hj' : j < 13 := hj
      rw [if_pos hj, Nat.add_assoc (32 * i) 6, Nat.add_assoc (32 * i) (6 + 2 * j), hbyte _ (by omega),
        hbyte _ (by omega)]
      by_cases h0 : j = 0
      · subst h0
        simp
        omega
      · rw [if_neg h0]
        simp only [show ¬6 + 2 * j = 0 by omega, show ¬6 + 2 * j = 2 by omega, show ¬6 + 2 * j = 3 by omega,
          show ¬6 + 2 * j = 4 by omega, show ¬6 + 2 * j = 6 by omega, show ¬6 + 2 * j + 1 = 0 by omega,
          show ¬6 + 2 * j + 1 = 2 by omega, show ¬6 + 2 * j + 1 = 3 by omega,
          show ¬6 + 2 * j + 1 = 4 by omega, show ¬6 + 2 * j + 1 = 6 by omega, if_false]
        rfl
    · rw [if_neg hj]
      have h0 : j ≠ 0 := by
        simp only [NDIRECT] at hj
        omega
      rw [if_neg h0]

private theorem ones_testBit {a r : Nat} (ha : 16 ≤ a ∧ a + 3 < 544) (hr : r < 32) :
    (u32 fullSuper a).testBit r = true := by
  have hbyte (i : Nat) (hi : i < 4) : fullSuper (a + i) = 255 := by
    rw [fullSuper, if_neg (by omega), if_neg (by omega), if_pos (by omega)]
  have hword : u32 fullSuper a = 4294967295 := by
    have hc : u32 fullSuper a = u32 (fun _ => 255) 0 := u32_congr fun i hi => hbyte i hi
    rw [hc]
    decide
  have hall : ∀ r < 32, Nat.testBit 4294967295 r = true := by decide
  rw [hword]
  exact hall r hr

private theorem super_world (T : Tree) : T.world.cached.blkNum = MAXBLKNUM ∧ T.world.cached.inNum = MAXINODENUM ∧
    (∀ b < MAXBLKNUM, T.world.cached.blkOcp b = true) ∧ ∀ k < MAXINODENUM, T.world.cached.inOcp k = true := by
  rw [cached_world]
  refine ⟨by decide, by decide, fun b hb => ?_, fun k hk => ?_⟩
  · have hb' : b < 4096 := hb
    simp only [decode, hb, decide_true, Bool.true_and]
    exact ones_testBit (by simp only [offBlkOcp]; omega) (Nat.mod_lt _ (by decide))
  · have hk' : k < 128 := hk
    simp only [decode, hk, decide_true, Bool.true_and]
    exact ones_testBit (by simp only [offInOcp]; omega) (Nat.mod_lt _ (by decide))

private theorem sane_world (T : Tree) : Sane MAXINODENUM T.world := by
  obtain ⟨hnum, hin, hocp, -⟩ := T.super_world
  refine ⟨⟨rfl, rfl⟩, hin.le, le_rfl, by decide, ⟨hnum.le, hocp 0 (by decide), hocp 1 (by decide), ?_, ?_⟩⟩
  · intro i j hi hz
    rw [(T.inode_world hi).2.2.2] at hz ⊢
    split_ifs at hz ⊢
    · rw [hnum]
      simp only [MAXINODENUM] at hi
      exact ⟨by omega, by simp only [MAXBLKNUM]; omega, hocp _ (by simp only [MAXBLKNUM]; omega)⟩
    · exact absurd rfl hz
  · intro i j i' j' hi hi' hz he
    rw [(T.inode_world hi).2.2.2] at hz he
    rw [(T.inode_world hi').2.2.2] at he
    split_ifs at hz he <;> omega

theorem isDir_world (T : Tree) {i : Nat} (hi : i < MAXINODENUM) : T.world.IsDir i := (T.inode_world hi).1

private theorem entries_world (T : Tree) {i : Nat} (hi : i < MAXINODENUM) :
    T.world.entries i = (List.range BLKFILES).map fun e => blockVa (i + 2) + DIRESIZE * e := by
  obtain ⟨-, -, hused, hslot⟩ := T.inode_world hi
  rw [World.entries, hused, List.range_one, List.flatMap_singleton, World.blockEntries, hslot, if_pos rfl]

theorem byte_entry (T : Tree) (i : Nat) {e r : Nat} (he : e < BLKFILES) (hr : r < DIRESIZE) :
    T.world.byte (blockVa (i + 2) + DIRESIZE * e + r) =
      if 0 < e ∧ e ≤ T.size ∧ T.parent e = i then
        if r < MAXNAMELEN then (T.name e).getD r 0 else if r = offInInd then UInt8.ofNat e else 0
      else 0 := by
  have hin : DIRESIZE * e + r < BLKSIZE := by
    simp only [DIRESIZE, BLKFILES, BLKSIZE] at *
    omega
  have hdiv : (DIRESIZE * e + r) / DIRESIZE = e := by
    simp only [DIRESIZE] at *
    omega
  have hmod : (DIRESIZE * e + r) % DIRESIZE = r := by
    simp only [DIRESIZE] at *
    omega
  rw [Nat.add_assoc, T.byte_world hin, disk, if_neg (by omega), if_neg (by omega), Nat.add_sub_cancel, block,
    hdiv, hmod]

private theorem inInd_entry (T : Tree) {i e : Nat} (h : 0 < e ∧ e ≤ T.size ∧ T.parent e = i) :
    T.world.inInd (blockVa (i + 2) + DIRESIZE * e) = e := by
  have hsmall := T.small
  simp only [MAXINODENUM] at hsmall
  have he : e < BLKFILES := by
    simp only [BLKFILES]
    omega
  have h0 := T.byte_entry i (r := offInInd) he (by decide)
  have h1 := T.byte_entry i (r := offInInd + 1) he (by decide)
  rw [if_pos h, if_neg (by decide), if_pos rfl] at h0
  rw [if_pos h, if_neg (by decide), if_neg (by decide)] at h1
  have hto : UInt8.toNat (UInt8.ofNat e) = e := by
    rw [UInt8.toNat_ofNat', Nat.mod_eq_of_lt (by omega)]
  simp only [World.inInd, World.cell, u16, Nat.add_assoc] at *
  rw [h0, h1, hto]
  rfl

private theorem matches_entry (T : Tree) (i : Nat) {e : Nat} (he : e < BLKFILES) {n : List UInt8} (hne : n ≠ [])
    (h0 : (0 : UInt8) ∉ n) : nameMatches T.world (blockVa (i + 2) + DIRESIZE * e) n = true ↔
      (0 < e ∧ e ≤ T.size ∧ T.parent e = i) ∧ T.name e = n := by
  by_cases hch : 0 < e ∧ e ≤ T.size ∧ T.parent e = i
  · obtain ⟨-, hlen, hnul⟩ := T.named e hch.1 hch.2.1
    simp only [MAXNAMELEN] at hlen
    have hself : nameMatches T.world (blockVa (i + 2) + DIRESIZE * e) (T.name e) = true := by
      refine nameMatches_of_getD fun r hr => ?_
      rw [T.byte_entry i he (by simp only [DIRESIZE]; omega), if_pos hch,
        if_pos (by simp only [MAXNAMELEN]; omega)]
    constructor
    · intro hm
      exact ⟨hch, nameMatches_unique hnul h0 hself hm⟩
    · rintro ⟨-, rfl⟩
      exact hself
  · refine iff_of_false (fun hm => ?_) fun hc => hch hc.1
    have hb := T.byte_entry i (r := 0) he (by decide)
    rw [if_neg hch, Nat.add_zero] at hb
    exact byte_ne_zero_of_matches hm hne h0 hb

theorem orderly_world (T : Tree) : Orderly MAXINODENUM T.world where
  sane := T.sane_world
  root := ⟨T.isDir_world (by decide), T.super_world.2.2.2 0 (by decide)⟩
  filled i j hi _ hj := by
    rw [(T.inode_world hi).2.2.1] at hj
    rw [(T.inode_world hi).2.2.2, if_pos (by omega)]
    omega
  named i a hi _ ha hb := by
    rw [T.entries_world hi] at ha
    obtain ⟨e, he, rfl⟩ := List.mem_map.mp ha
    have hbyte := T.byte_entry i (r := 0) (List.mem_range.mp he) (by decide)
    rw [Nat.add_zero] at hbyte
    by_cases hch : 0 < e ∧ e ≤ T.size ∧ T.parent e = i
    · rw [T.inInd_entry hch]
      have hlt : e < MAXINODENUM := lt_of_le_of_lt hch.2.1 T.small
      exact ⟨hlt, T.super_world.2.2.2 e hlt⟩
    · rw [if_neg hch] at hbyte
      exact absurd hbyte hb
  unused i hi ho := by
    rw [T.super_world.2.2.2 i hi] at ho
    cases ho

/-- The address of the entry of directory `k`. -/
def entry (T : Tree) (k : Nat) : Nat := blockVa (T.parent k + 2) + DIRESIZE * k

/-- Directory `k` is the first one called `name` in directory `i`. -/
structure Child (T : Tree) (i : Nat) (name : List UInt8) (k : Nat) : Prop where
  pos : 0 < k
  le : k ≤ T.size
  parent : T.parent k = i
  called : T.name k = name
  first : ∀ k', 0 < k' → k' < k → T.parent k' = i → T.name k' ≠ name

/-- `names` are the names on the way from the root to directory `k`. -/
inductive At (T : Tree) : List (List UInt8) → Nat → Prop
  | root : At T [] 0
  | child {names : List (List UInt8)} {k : Nat} : 0 < k → k ≤ T.size → At T names (T.parent k) →
      At T (names ++ [T.name k]) k

theorem At.unique {T : Tree} {names names' : List (List UInt8)} {k : Nat} (h : T.At names k)
    (h' : T.At names' k) : names = names' := by
  induction h generalizing names' with
  | root =>
    cases h' with
    | root => rfl
    | child hpos => exact absurd hpos (Nat.lt_irrefl 0)
  | child hpos _ _ ih =>
    cases h' with
    | root => exact absurd hpos (Nat.lt_irrefl 0)
    | child _ _ h' => rw [ih h']

theorem At.lt {T : Tree} {names : List (List UInt8)} {k : Nat} (h : T.At names k) : k < MAXINODENUM := by
  cases h with
  | root => decide
  | child _ hle _ => exact lt_of_le_of_lt hle T.small

private theorem lookup_world (T : Tree) {i a : Nat} (hi : i < MAXINODENUM) {n : List UInt8} (hne : n ≠ [])
    (h0 : (0 : UInt8) ∉ n) (h : T.world.lookup i n = some a) :
    ∃ k, 0 < k ∧ k ≤ T.size ∧ T.parent k = i ∧ T.name k = n ∧ a = T.entry k := by
  rw [World.lookup, T.entries_world hi] at h
  obtain ⟨k, hk, rfl⟩ := List.mem_map.mp (List.mem_of_find?_eq_some h)
  have hm := List.find?_some h
  obtain ⟨⟨hpos, hle, hpar⟩, hname⟩ := (T.matches_entry i (List.mem_range.mp hk) hne h0).mp hm
  exact ⟨k, hpos, hle, hpar, hname, by rw [entry, hpar]⟩

private theorem lookup_child (T : Tree) {i k : Nat} (hi : i < MAXINODENUM) {n : List UInt8} (hne : n ≠ [])
    (h0 : (0 : UInt8) ∉ n) (h : T.Child i n k) : T.world.lookup i n = some (T.entry k) := by
  have hsmall := T.small
  have hle := h.le
  simp only [MAXINODENUM] at hsmall
  rw [World.lookup, T.entries_world hi, List.find?_map]
  have hfind : (List.range BLKFILES).find? ((fun e => nameMatches T.world e n) ∘
      fun e => blockVa (i + 2) + DIRESIZE * e) = some k := by
    refine List.find?_range_eq_some.mpr ⟨?_, ?_, fun k' hk' => ?_⟩
    · exact (T.matches_entry i (by simp only [BLKFILES]; omega) hne h0).mpr ⟨⟨h.pos, h.le, h.parent⟩, h.called⟩
    · simp only [List.mem_range, BLKFILES]
      omega
    · simp only [Function.comp_apply, Bool.not_eq_true']
      by_contra hm
      have hlt : k' < BLKFILES := by
        simp only [BLKFILES]
        omega
      obtain ⟨⟨hpos, -, hpar⟩, hname⟩ := (T.matches_entry i hlt hne h0).mp (by simpa using hm)
      exact h.first k' hpos hk' hpar hname
  rw [hfind, Option.map_some, entry, h.parent]

theorem inInd_world (T : Tree) {k : Nat} (hpos : 0 < k) (hle : k ≤ T.size) :
    T.world.inInd (T.entry k) = k := T.inInd_entry ⟨hpos, hle, rfl⟩

private theorem walk_found (T : Tree) {names : List (List UInt8)} (hnames : ∀ n ∈ names, n ≠ [] ∧ (0 : UInt8) ∉ n)
    {before : List (List UInt8)} {i dir a dir' a' : Nat} (hat : T.At before i)
    (hstart : i = 0 ∧ a = 0 ∨ 0 < i ∧ a = T.entry i)
    (h : T.world.walk names i dir a = .ok (.found dir' a')) :
    ∃ k, T.At (before ++ names) k ∧ (k = 0 ∧ a' = 0 ∨ 0 < k ∧ a' = T.entry k) := by
  induction names generalizing before i dir a with
  | nil =>
    cases h
    exact ⟨i, by rwa [List.append_nil], hstart⟩
  | cons n names ih =>
    obtain ⟨hne, h0⟩ := hnames n List.mem_cons_self
    rw [World.walk] at h
    by_cases hlen : MAXNAMELEN ≤ n.length
    · rw [if_pos hlen] at h
      cases h
    rw [if_neg hlen, if_pos (T.isDir_world hat.lt)] at h
    cases hl : T.world.lookup i n with
    | none =>
      rw [hl] at h
      dsimp only at h
      split_ifs at h
      cases h
    | some b =>
      rw [hl] at h
      obtain ⟨k, hpos, hle, hpar, hname, rfl⟩ := T.lookup_world hat.lt hne h0 hl
      dsimp only at h
      rw [T.inInd_world hpos hle] at h
      have hk : T.At (before ++ [n]) k := by
        rw [← hname]
        exact .child hpos hle (by rwa [hpar])
      obtain ⟨k', hat', hk'⟩ := ih (fun n' hn' => hnames n' (List.mem_cons_of_mem n hn')) hk
        (Or.inr ⟨hpos, rfl⟩) h
      exact ⟨k', by rwa [List.append_assoc, List.singleton_append] at hat', hk'⟩

theorem entry_inj (T : Tree) {k k' : Nat} (hk : k ≤ T.size) (hk' : k' ≤ T.size)
    (h : T.entry k = T.entry k') : k = k' := by
  have hsmall := T.small
  simp only [MAXINODENUM] at hsmall
  exact (FileSystem.entry_inj (by simp only [BLKFILES]; omega) (by simp only [BLKFILES]; omega) h).2

/-- A lookup of `names` one after the other leads from the root to directory `k`. -/
inductive Leads (T : Tree) : List (List UInt8) → Nat → Prop
  | root : Leads T [] 0
  | child {names : List (List UInt8)} {name : List UInt8} {i k : Nat} : Leads T names i →
      T.Child i name k → Leads T (names ++ [name]) k

theorem Leads.at {T : Tree} {names : List (List UInt8)} {k : Nat} (h : T.Leads names k) : T.At names k := by
  induction h with
  | root => exact .root
  | child _ hc ih =>
    rw [← hc.called]
    refine .child hc.pos hc.le ?_
    rwa [hc.parent]

theorem exists_child (T : Tree) {i k : Nat} {n : List UInt8} (hpos : 0 < k) (hle : k ≤ T.size)
    (hpar : T.parent k = i) (hname : T.name k = n) : ∃ k', T.Child i n k' := by
  have hex : ∃ k, 0 < k ∧ T.parent k = i ∧ T.name k = n := ⟨k, hpos, hpar, hname⟩
  classical
  have hspec := Nat.find_spec hex
  refine ⟨Nat.find hex, hspec.1, (Nat.find_min' hex ⟨hpos, hpar, hname⟩).trans hle, hspec.2.1, hspec.2.2,
    fun k' hpos' hlt hpar' hname' => Nat.find_min hex hlt ⟨hpos', hpar', hname'⟩⟩

theorem Child.unique {T : Tree} {i k k' : Nat} {n : List UInt8} (h : T.Child i n k) (h' : T.Child i n k') :
    k = k' := by
  rcases Nat.lt_trichotomy k k' with hlt | he | hlt
  · exact absurd h.called (h'.first k h.pos hlt h.parent)
  · exact he
  · exact absurd h'.called (h.first k' h'.pos hlt h'.parent)

theorem Leads.snoc {T : Tree} {names : List (List UInt8)} {n : List UInt8} {k : Nat}
    (h : T.Leads (names ++ [n]) k) : ∃ i, T.Leads names i ∧ T.Child i n k := by
  generalize hl : names ++ [n] = l at h
  cases h with
  | root => simp at hl
  | child h hc =>
    obtain ⟨rfl, hn⟩ := List.append_inj' hl rfl
    obtain rfl := List.singleton_inj.mp hn
    exact ⟨_, h, hc⟩

theorem Leads.unique {T : Tree} {names : List (List UInt8)} {k k' : Nat} (h : T.Leads names k)
    (h' : T.Leads names k') : k = k' := by
  induction h generalizing k' with
  | root =>
    generalize hl : ([] : List (List UInt8)) = l at h'
    cases h' with
    | root => rfl
    | child _ _ => simp at hl
  | child _ hc ih =>
    obtain ⟨i, hi, hc'⟩ := h'.snoc
    obtain rfl := ih hi
    exact hc.unique hc'

theorem Leads.before {T : Tree} {names rest : List (List UInt8)} {k : Nat} (h : T.Leads (names ++ rest) k) :
    ∃ i, T.Leads names i := by
  induction rest using List.reverseRecOn generalizing k with
  | nil => exact ⟨k, by rwa [List.append_nil] at h⟩
  | append_singleton rest n ih =>
    rw [← List.append_assoc] at h
    obtain ⟨i, hi, -⟩ := h.snoc
    exact ih hi

/-- Where `walk_path` stands when it has come to directory `k`. -/
def dirVa (T : Tree) (k : Nat) : Nat := if k = 0 then 0 else inodeVa (T.parent k)
def entryVa (T : Tree) (k : Nat) : Nat := if k = 0 then 0 else T.entry k

theorem Leads.walk {T : Tree} {names : List (List UInt8)} {k : Nat} (h : T.Leads names k)
    (rest : List (List UInt8)) :
    T.world.walk (names ++ rest) 0 0 0 = T.world.walk rest k (T.dirVa k) (T.entryVa k) := by
  induction h generalizing rest with
  | root => rfl
  | child hl hc ih =>
    obtain ⟨hne, hlen, h0⟩ := T.named _ hc.pos hc.le
    rw [hc.called] at hne hlen h0
    have hk0 : _ ≠ 0 := Nat.ne_of_gt hc.pos
    rw [List.append_assoc, List.singleton_append, ih, World.walk, if_neg (not_le.mpr hlen),
      if_pos (T.isDir_world hl.at.lt), T.lookup_child hl.at.lt hne h0 hc]
    dsimp only
    rw [T.inInd_world hc.pos hc.le, dirVa, entryVa, if_neg hk0, if_neg hk0, hc.parent]

theorem Leads.eq_of_walk {T : Tree} {names names' : List (List UInt8)} {k : Nat} (h : T.Leads names k)
    (hnames : ∀ n ∈ names', n ≠ [] ∧ (0 : UInt8) ∉ n)
    (hw : T.world.walk names' 0 0 0 = T.world.walk names 0 0 0) : names' = names := by
  have hend := h.walk []
  rw [List.append_nil] at hend
  rw [hend] at hw
  obtain ⟨k', hat, hk'⟩ := T.walk_found hnames .root (Or.inl ⟨rfl, rfl⟩) hw
  have hle {names : List (List UInt8)} {k : Nat} (ha : T.At names k) : k ≤ T.size := by
    cases ha with
    | root => exact Nat.zero_le _
    | child _ hle _ => exact hle
  have hpos (k : Nat) : 0 < T.entry k := by
    simp only [entry, blockVa, DISKMAP]
    omega
  have hkk : k' = k := by
    unfold entryVa at hk'
    rcases hk' with ⟨rfl, he⟩ | ⟨h0, he⟩
    · by_contra hne
      rw [if_neg (Ne.symm hne)] at he
      have hp := hpos k
      omega
    · split_ifs at he
      · have hp := hpos k'
        omega
      · exact (T.entry_inj (hle h.at) (hle hat) he).symm
  subst hkk
  exact hat.unique h.at

end Tree

def agree : List (List UInt8) → List (List UInt8) → Nat
  | a :: as, b :: bs => if a = b then agree as bs + 1 else 0
  | _, _ => 0

private theorem agree_spec (as bs : List (List UInt8)) : agree as bs ≤ as.length ∧ agree as bs ≤ bs.length ∧
    as.take (agree as bs) = bs.take (agree as bs) ∧
    (agree as bs < as.length → agree as bs < bs.length →
      as.getD (agree as bs) [] ≠ bs.getD (agree as bs) []) := by
  induction as generalizing bs with
  | nil => simp [agree]
  | cons a as ih =>
    cases bs with
    | nil => simp [agree]
    | cons b bs =>
      obtain ⟨h1, h2, h3, h4⟩ := ih bs
      unfold agree
      split_ifs with hab
      · subst hab
        refine ⟨by simpa using h1, by simpa using h2, by simp [h3], fun hl hr => ?_⟩
        simpa using h4 (by simpa using hl) (by simpa using hr)
      · refine ⟨Nat.zero_le _, Nat.zero_le _, rfl, fun _ _ => ?_⟩
        simpa using hab

def DirNames (names : List (List UInt8)) : Prop :=
  ∀ n ∈ names, n ≠ [] ∧ n.length < MAXNAMELEN ∧ (0 : UInt8) ∉ n

instance (names : List (List UInt8)) : Decidable (DirNames names) :=
  inferInstanceAs (Decidable (∀ n ∈ names, n ≠ [] ∧ n.length < MAXNAMELEN ∧ (0 : UInt8) ∉ n))

/-- The tree of the directories on two paths. -/
def branches (as bs : List (List UInt8)) (ha : DirNames as) (hb : DirNames bs)
    (hsmall : as.length + bs.length < MAXINODENUM) : Tree where
  size := as.length + (bs.length - agree as bs)
  parent k := if k = as.length + 1 then agree as bs else k - 1
  name k := if k ≤ as.length then as.getD (k - 1) [] else bs.getD (agree as bs + (k - as.length - 1)) []
  small := by omega
  below k hpos hle := by
    have hag := (agree_spec as bs).1
    split_ifs <;> omega
  named k hpos hle := by
    have hag := (agree_spec as bs).2.1
    split_ifs with hk
    · rw [List.getD_eq_getElem _ _ (by omega)]
      exact ha _ (List.getElem_mem _)
    · rw [List.getD_eq_getElem _ _ (by omega)]
      exact hb _ (List.getElem_mem _)

section Branches

variable {as bs : List (List UInt8)} (ha : DirNames as) (hb : DirNames bs)
  (hsmall : as.length + bs.length < MAXINODENUM)

private theorem leads_left {j : Nat} (hj : j ≤ as.length) : (branches as bs ha hb hsmall).Leads (as.take j) j := by
  induction j with
  | zero => exact .root
  | succ j ih =>
    have hlt : j < as.length := hj
    rw [List.take_succ_eq_append_getElem hlt]
    refine .child (ih hlt.le) ⟨Nat.succ_pos j, ?_, ?_, ?_, fun k' _ hk' hpar => ?_⟩
    · simp only [branches]
      omega
    · simp only [branches]
      rw [if_neg (by omega), Nat.add_sub_cancel]
    · simp only [branches]
      rw [if_pos hj, Nat.add_sub_cancel, List.getD_eq_getElem _ _ hlt]
    · simp only [branches] at hpar
      rw [if_neg (by omega)] at hpar
      omega

private theorem leads_right {t : Nat} (ht : agree as bs + t + 1 ≤ bs.length) :
    (branches as bs ha hb hsmall).Leads (bs.take (agree as bs + t + 1)) (as.length + t + 1) := by
  obtain ⟨hla, hlb, htake, hdiff⟩ := agree_spec as bs
  have hlt : agree as bs + t < bs.length := ht
  have hname : (branches as bs ha hb hsmall).name (as.length + t + 1) = bs[agree as bs + t] := by
    simp only [branches]
    rw [if_neg (by omega), List.getD_eq_getElem _ _ (by omega)]
    congr 1
    omega
  have hle : as.length + t + 1 ≤ (branches as bs ha hb hsmall).size := by
    simp only [branches]
    omega
  rw [List.take_succ_eq_append_getElem hlt]
  induction t with
  | zero =>
    -- the branch leaves the first path here
    have hstart := leads_left ha hb hsmall hla
    rw [htake] at hstart
    refine .child hstart ⟨Nat.succ_pos _, hle, ?_, hname, fun k' hpos hk' hpar hn => ?_⟩
    · simp only [branches, if_true]
    · simp only [branches, Nat.add_zero] at hpar hn hk' hlt
      rw [if_neg (by omega)] at hpar
      rw [if_pos (by omega), hpar] at hn
      refine hdiff (by omega) hlt ?_
      rw [hn, List.getD_eq_getElem _ _ hlt]
  | succ t ih =>
    have hprev := ih (by omega) (by omega) (by
      simp only [branches]
      rw [if_neg (by omega), List.getD_eq_getElem _ _ (by omega)]
      congr 1
      omega) (by omega)
    rw [← List.take_succ_eq_append_getElem (by omega)] at hprev
    refine .child hprev ⟨Nat.succ_pos _, hle, ?_, hname, fun k' hpos hk' hpar => ?_⟩
    · simp only [branches]
      rw [if_neg (by omega)]
      omega
    · simp only [branches] at hpar
      split_ifs at hpar <;> omega

theorem branches_leads : (∃ k, (branches as bs ha hb hsmall).Leads as k) ∧
    ∃ k, (branches as bs ha hb hsmall).Leads bs k := by
  obtain ⟨hla, hlb, htake, -⟩ := agree_spec as bs
  constructor
  · have hl := leads_left ha hb hsmall (le_refl as.length)
    rw [List.take_length] at hl
    exact ⟨_, hl⟩
  · rcases hlb.eq_or_lt with he | hlt
    · have hl := leads_left ha hb hsmall hla
      rw [htake, he, List.take_length] at hl
      exact ⟨_, hl⟩
    · obtain ⟨t, ht⟩ : ∃ t, agree as bs + t + 1 = bs.length := ⟨bs.length - agree as bs - 1, by omega⟩
      have hl := leads_right ha hb hsmall ht.le
      rw [ht, List.take_length] at hl
      exact ⟨_, hl⟩

theorem mem_name_branches {k : Nat} (hpos : 0 < k) (hle : k ≤ (branches as bs ha hb hsmall).size) :
    (branches as bs ha hb hsmall).name k ∈ as ∨ (branches as bs ha hb hsmall).name k ∈ bs := by
  have hag := (agree_spec as bs).2.1
  simp only [branches] at hle ⊢
  split_ifs with hk
  · left
    rw [List.getD_eq_getElem _ _ (by omega)]
    exact List.getElem_mem _
  · right
    rw [List.getD_eq_getElem _ _ (by omega)]
    exact List.getElem_mem _

theorem branches_leaf (hlen : bs.length ≤ as.length) (hne : as ≠ bs) {rest : List (List UInt8)} {k : Nat}
    (h : (branches as bs ha hb hsmall).Leads (as ++ rest) k) : rest = [] := by
  cases rest with
  | nil => rfl
  | cons n rest =>
    rw [List.append_cons] at h
    obtain ⟨k', hk'⟩ := h.before
    obtain ⟨i, hi, hc⟩ := hk'.snoc
    have hl := leads_left ha hb hsmall (le_refl as.length)
    rw [List.take_length] at hl
    have hpar := hc.parent
    rw [hi.unique hl] at hpar
    simp only [branches] at hpar
    obtain ⟨hla, hlb, htake, -⟩ := agree_spec as bs
    have hpos := hc.pos
    have hag : agree as bs = as.length := by
      split_ifs at hpar <;> omega
    rw [hag] at hlb htake
    rw [List.take_length, List.take_of_length_le hlen] at htake
    exact absurd htake hne

end Branches

end DamnOS.FileSystem
