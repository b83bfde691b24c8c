import DamnOS.FileSystem.Layout
import DamnOS.User.SpawnCleanup

/-!
# Copying a file

`cat` of the shell reads `BUFSIZ` bytes at a time.  Its loop goes on only after a read that did not fill the buffer.
-/

namespace DamnOS.User

open DamnOS.Framework DamnOS.Kernel
open DamnOS.Programs (O_RDONLY)
open DamnOS.FileSystem (NDIRECT BLKSIZE)

def BUFSIZ : Nat := 1024

/-- How `cat` ends: `panic` reports an error of `read`, or a `write` that did not take all bytes. -/
inductive CatEnd where
  | returned
  | panicked
  deriving DecidableEq

/-- `cat`, with what was written so far; `write` is what `write` returns for the bytes. -/
def Loader.cat (f : ProgramFile) (write : List UInt8 → Int) (e : Fin NENV) (fd : BitVec 32) :
    Nat → Loader → List UInt8 → Option (CatEnd × List UInt8)
  | 0, _, _ => none
  | fuel + 1, s, out => do
    let (n, bytes, s) ← s.read f e fd BUFSIZ
    if 0 < n ∧ n < BUFSIZ then
      let chunk := (List.range n.toNat).map bytes
      if write chunk ≠ n then some (.panicked, out) else cat f write e fd fuel s (out ++ chunk)
    else if n < 0 then some (.panicked, out) else some (.returned, out)

def ProgramFile.content (f : ProgramFile) : List UInt8 := (List.range f.size).map fun i : Nat => f.byte i

/-- The descriptor of a file, with the place of the next read. -/
structure ReadsFrom (s : Paging) (e : Fin NENV) (fd : BitVec 32) (x : Nat × Rights) (off : Nat) : Prop where
  inRange : InRange fd
  entry : s.maps e (fdPage fd) = some x
  dev : u32 (s.data x.1) offDevId.toNat = Dev.file.id
  mode : u32 (s.data x.1) offOmode.toNat = O_RDONLY
  offset : s.offset x.1 = BitVec.ofNat 32 off

section Reads

variable {f : ProgramFile} {s : Loader} {e : Fin NENV} {fd : BitVec 32} {x : Nat × Rights} {off n : Nat}
  {write : List UInt8 → Int} {out : List UInt8}

theorem FreshFd.readsFrom {s : Paging} (h : FreshFd s e fd x) : ReadsFrom s e fd x 0 :=
  ⟨h.inRange, h.entry, h.dev, h.mode, h.offset⟩

/-- A read that is answered moves the place behind the bytes it has returned. -/
theorem ReadsFrom.read (h : ReadsFrom s.toPaging e fd x off) (hoff : off + n < 2 ^ 31) (hf : f.fails s.requests = none) :
    ∃ t, s.read f e fd n = some ((f.count n off : Int), (fun k : Nat => f.byte ((off : Int) + k)), t) ∧
      ReadsFrom t.toPaging e fd x (off + f.count n off) := by
  have hopen : s.Open e fd := ⟨h.inRange, by rw [h.entry]; rfl⟩
  obtain ⟨hdev, hdevOff⟩ := field_toNat fd offDevId (by decide)
  obtain ⟨hmode, hmodeOff⟩ := field_toNat fd offOmode (by decide)
  have hcount := count_le f n off
  have hat : (s.offset x.1).toInt = off := by
    have hnat : (BitVec.ofNat 32 off).toNat = off := by
      rw [BitVec.toNat_ofNat]
      omega
    rw [h.offset, BitVec.toInt_eq_toNat_of_lt (by rw [hnat]; omega), hnat]
  have hdevice : s.read f e fd n = s.devfileRead f e (INDEX2FD fd) n := by
    rw [Loader.read, fdLookup_open hopen]
    dsimp only
    rw [loadWord_eq (x := x) (hdev ▸ h.entry), loadWord_eq (x := x) (hmode ▸ h.entry), hdevOff, hmodeOff, h.dev, h.mode]
    rfl
  have hanswer : f.answer s.requests n off = f.count n off := by
    rw [ProgramFile.answer, hf]
  have hentry : s.maps e (PGNUM (INDEX2FD fd).toNat) = some x := h.entry
  have hplace : (BitVec.ofNat 32 (u32 (s.data x.1) offOffset.toNat)).toInt = off := hat
  have hnonneg : ¬ ((f.count n off : Int)) < 0 := by omega
  refine ⟨{ s with
    requests := s.requests + 1
    toPaging := s.writeWord x.1 offOffset.toNat (s.offset x.1 + BitVec.ofInt 32 (f.count n off : Int)).toNat },
    ?_, h.inRange, h.entry, ?_, ?_, ?_⟩
  · rw [hdevice]
    simp only [Loader.devfileRead, hentry, Option.map_some, hplace, hanswer, if_neg hnonneg]
    rfl
  · rw [← h.dev]
    simp only [Paging.writeWord, Spaces.data_write, Function.update_self]
    exact u32_splice_disjoint _ _ (.inl (by decide))
  · rw [← h.mode]
    simp only [Paging.writeWord, Spaces.data_write, Function.update_self]
    exact u32_splice_disjoint _ _ (.inr (by decide))
  · rw [Paging.offset_writeWord, h.offset]
    apply BitVec.eq_of_toNat_eq
    simp only [BitVec.ofInt_natCast, BitVec.toNat_add, BitVec.toNat_ofNat]
    omega

private theorem cat_done (h : ReadsFrom s.toPaging e fd x off) (hoff : off + BUFSIZ < 2 ^ 31)
    (hf : f.fails s.requests = none)
    (hcount : f.count BUFSIZ off = 0) (fuel : Nat) :
    Loader.cat f write e fd (fuel + 1) s out = some (.returned, out) := by
  obtain ⟨t, hread, -⟩ := h.read hoff hf
  rw [Loader.cat, hread, hcount]
  rfl

theorem cat_run (h : ReadsFrom s.toPaging e fd x 0) (hf : ∀ k, f.fails k = none)
    (hsize : f.size ≤ NDIRECT * BLKSIZE) (hwrite : ∀ l, write l = l.length) (fuel : Nat) :
    Loader.cat f write e fd (fuel + 2) s [] = some (.returned, if f.size < BUFSIZ then f.content else []) := by
  simp only [NDIRECT, BLKSIZE] at hsize
  have hcount : f.count BUFSIZ (0 : Nat) = min BUFSIZ f.size := by
    rw [ProgramFile.count]
    split <;> omega
  obtain ⟨t, hread, ht⟩ := h.read (n := BUFSIZ) (by decide) (hf _)
  rw [hcount] at hread ht
  by_cases hzero : f.size = 0
  · have hnothing : f.count BUFSIZ (0 : Nat) = 0 := by
      rw [hcount]
      omega
    rw [cat_done h (by decide) (hf _) hnothing]
    simp [ProgramFile.content, hzero]
  by_cases hlt : f.size < BUFSIZ
  · -- all bytes in one round
    rw [Nat.min_eq_right hlt.le] at hread ht
    have hchunk : (List.range (f.size : Int).toNat).map (fun k : Nat => f.byte (((0 : Nat) : Int) + k)) = f.content := by
      simp [ProgramFile.content]
    have hrest : f.count BUFSIZ (0 + f.size : Nat) = 0 := by
      rw [ProgramFile.count, if_pos (by omega)]
    rw [Loader.cat, hread]
    dsimp only [Option.bind_eq_bind, Option.bind_some]
    rw [if_pos (by omega), hchunk, if_neg (by simp [hwrite, ProgramFile.content]), List.nil_append, if_pos hlt]
    exact cat_done ht (by simp only [BUFSIZ] at *; omega) (hf _) hrest fuel
  · -- the buffer is full, which the loop takes for its end
    rw [Nat.min_eq_left (not_lt.mp hlt)] at hread
    rw [Loader.cat, hread]
    dsimp only [Option.bind_eq_bind, Option.bind_some]
    rw [if_neg (by omega), if_neg (by decide), if_neg hlt]

end Reads

/-- `cat` on a freshly opened file writes the bytes of the file exactly if there are fewer than `BUFSIZ`. -/
theorem cat_copies_iff (f : ProgramFile) (write : List UInt8 → Int) (e : Fin NENV) (fd : BitVec 32) (s : Loader)
    (x : Nat × Rights) (h : FreshFd s.toPaging e fd x) (hf : ∀ k, f.fails k = none)
    (hsize : f.size ≤ NDIRECT * BLKSIZE) (hwrite : ∀ l, write l = l.length) :
    (∃ F, ∀ fuel ≥ F, Loader.cat f write e fd fuel s [] = some (.returned, f.content)) ↔ f.size < BUFSIZ := by
  constructor
  · rintro ⟨F, hF⟩
    have hcopied := hF (F + 2) (by omega)
    rw [cat_run h.readsFrom hf hsize hwrite] at hcopied
    by_contra hlarge
    rw [if_neg hlarge] at hcopied
    simp only [Option.some.injEq, Prod.mk.injEq, true_and] at hcopied
    have hlength := congrArg List.length hcopied
    rw [ProgramFile.content, List.length_map, List.length_range, List.length_nil] at hlength
    simp only [BUFSIZ] at hlarge
    omega
  · intro hsmall
    refine ⟨2, fun fuel hfuel => ?_⟩
    obtain ⟨k, rfl⟩ := Nat.exists_eq_add_of_le' hfuel
    rw [cat_run h.readsFrom hf hsize hwrite, if_pos hsmall]

def zerosFile (n : Nat) : ProgramFile := ⟨n, fun _ => 0, fun _ => none⟩

/-- Of 1024 bytes `cat` writes none. -/
theorem cat_drops_buffer : ¬ ∀ (f : ProgramFile) (write : List UInt8 → Int) (e : Fin NENV) (fd : BitVec 32)
    (s : Loader) (x : Nat × Rights), FreshFd s.toPaging e fd x → (∀ k, f.fails k = none) →
      f.size ≤ NDIRECT * BLKSIZE → (∀ l, write l = l.length) →
        ∃ F, ∀ fuel ≥ F, Loader.cat f write e fd fuel s [] = some (.returned, f.content) := by
  intro hall
  have hfresh := withFile_fresh (s := sampleSpawner) (show InRange 0 by decide)
  obtain ⟨F, hF⟩ := hall (zerosFile 1024) (fun l => l.length) sampleSpawner.curenv 0 (withFile sampleSpawner 0).toLoader _
    hfresh (fun _ => rfl) (by decide) fun _ => rfl
  have hcopied := hF (F + 2) (by omega)
  rw [cat_run hfresh.readsFrom (fun _ => rfl) (by decide) fun _ => rfl] at hcopied
  simp only [Option.some.injEq, Prod.mk.injEq, true_and] at hcopied
  have hlength := congrArg List.length hcopied
  rw [if_neg (by decide), ProgramFile.content, List.length_map, List.length_range] at hlength
  exact absurd hlength (by decide)

theorem cat_copies_sample : ∃ F, ∀ fuel ≥ F,
    Loader.cat (zerosFile 3) (fun l => l.length) 1 0 fuel (withFile sampleSpawner 0).toLoader [] =
      some (.returned, (zerosFile 3).content) :=
  (cat_copies_iff (zerosFile 3) (fun l => l.length) 1 0 (withFile sampleSpawner 0).toLoader _
    (withFile_fresh (by decide)) (fun _ => rfl) (by decide) fun _ => rfl).mpr (by decide)

end DamnOS.User
