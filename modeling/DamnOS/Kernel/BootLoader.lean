import DamnOS.Framework.Copies

/-!
# The boot loader

`bootmain` of `main.c` and what it calls.  It reads whole sectors, and so it writes more than the segments.
-/

namespace DamnOS.Kernel.BootLoader

open DamnOS.Framework

def ELFHDR : Nat := 0x10000
def SECTSIZE : Nat := 512
def ELF_MAGIC : Nat := 0x464C457F

def PROGHDR : Nat := 32

/-- `readsect`, when the disk is ready.  All numbers that it gets fit in the 28 bits of the controller. -/
def readsect (disk : Nat → UInt8) (dst offset : Nat) (m : Nat → UInt8) : Nat → UInt8 :=
  splice m dst SECTSIZE fun t => disk (SECTSIZE * offset + t)

def readLoop (disk : Nat → UInt8) (endPa : Nat) : Nat → Nat → Nat → (Nat → UInt8) → Option (Nat → UInt8)
  | 0, _, _, _ => none
  | fuel + 1, pa, offset, m =>
    if pa < endPa then readLoop disk endPa fuel ((pa + SECTSIZE) % 2 ^ 32) (offset + 1) (readsect disk pa offset m)
    else some m

def readseg (fuel : Nat) (disk : Nat → UInt8) (pa count offset : Nat) (m : Nat → UInt8) : Option (Nat → UInt8) :=
  readLoop disk ((pa + count) % 2 ^ 32) fuel (pa / SECTSIZE * SECTSIZE) (offset / SECTSIZE + 1) m

/-- The loop of `bootmain`.  The headers are read from the memory that is being written. -/
def loadLoop (fuel : Nat) (disk : Nat → UInt8) (eph : Nat) : Nat → Nat → (Nat → UInt8) → Option (Nat → UInt8)
  | 0, _, _ => none
  | n + 1, ph, m =>
    if ph < eph then do
      let m ← readseg fuel disk (u32 m (ph + 12)) (u32 m (ph + 20)) (u32 m (ph + 4)) m
      loadLoop fuel disk eph n (ph + PROGHDR) m
    else some m

/-- Where the kernel is entered, and with which memory. -/
structure Booted where
  entry : Nat
  mem : Nat → UInt8

/-- `bootmain`; there is nothing to enter where it goes to `bad`. -/
def bootmain (fuel : Nat) (disk m : Nat → UInt8) : Option (Option Booted) := do
  let m ← readseg fuel disk ELFHDR (SECTSIZE * 8) 0 m
  if u32 m ELFHDR ≠ ELF_MAGIC then some none
  else do
    let ph := (ELFHDR + u32 m (ELFHDR + 28)) % 2 ^ 32
    let eph := (ph + PROGHDR * u16 m (ELFHDR + 44)) % 2 ^ 32
    let m ← loadLoop fuel disk eph fuel ph m
    some (some ⟨u32 m (ELFHDR + 24), m⟩)

/-- The kernel on the disk begins behind the boot sector. -/
def image (disk : Nat → UInt8) (k : Nat) : UInt8 := disk (SECTSIZE + k)

structure Segment where
  pa : Nat
  count : Nat
  offset : Nat
  deriving DecidableEq

namespace Segment

/-- The first byte of its first sector, and the byte behind its last one. -/
def low (s : Segment) : Nat := s.pa / SECTSIZE * SECTSIZE
def high (s : Segment) : Nat := (s.pa + s.count + (SECTSIZE - 1)) / SECTSIZE * SECTSIZE

def Covers (s : Segment) (x : Nat) : Prop := s.low ≤ x ∧ x < s.high

instance decidableCovers (s : Segment) (x : Nat) : Decidable (s.Covers x) := inferInstanceAs (Decidable (_ ∧ _))

/-- The byte that it has for an address in its sectors. -/
def byte (disk : Nat → UInt8) (s : Segment) (x : Nat) : UInt8 :=
  image disk (s.offset / SECTSIZE * SECTSIZE + (x - s.low))

def load (disk : Nat → UInt8) (m : Nat → UInt8) (s : Segment) : Nat → UInt8 :=
  fun x => if s.Covers x then s.byte disk x else m x

/-- It does not come to the end of the address space, and is beside the headers. -/
structure Placed (s : Segment) : Prop where
  room : s.pa + s.count + SECTSIZE ≤ 2 ^ 32
  beside : s.high ≤ ELFHDR ∨ ELFHDR + SECTSIZE * 8 ≤ s.low

end Segment

def segments (m : Nat → UInt8) (ph n : Nat) : List Segment :=
  (List.range n).map fun i =>
    ⟨u32 m (ph + PROGHDR * i + 12), u32 m (ph + PROGHDR * i + 20), u32 m (ph + PROGHDR * i + 4)⟩

/-- The beginning of the kernel, at `ELFHDR`. -/
def header (disk m : Nat → UInt8) : Nat → UInt8 := splice m ELFHDR (SECTSIZE * 8) (image disk)

section Loading

variable {disk m m' : Nat → UInt8} {pa count offset fuel endPa n ph x : Nat} {s : Segment} {l : List Segment}

private theorem readLoop_spec (hend : endPa + SECTSIZE ≤ 2 ^ 32) (hn : endPa ≤ pa + SECTSIZE * n) (hf : n < fuel)
    (hlast : pa + SECTSIZE * n < endPa + SECTSIZE) :
    readLoop disk endPa fuel pa offset m =
      some (splice m pa (SECTSIZE * n) fun t => disk (SECTSIZE * offset + t)) := by
  have hsize : 0 < SECTSIZE := by decide
  induction n generalizing pa offset fuel m with
  | zero =>
    obtain ⟨fuel, rfl⟩ := Nat.exists_eq_add_one_of_ne_zero (Nat.ne_of_gt hf)
    rw [readLoop, if_neg (by omega), Nat.mul_zero, splice_zero]
  | succ n ih =>
    obtain ⟨fuel, rfl⟩ := Nat.exists_eq_add_one_of_ne_zero (Nat.ne_of_gt (Nat.zero_lt_of_lt hf))
    rw [Nat.mul_succ] at hn hlast
    have hpa : pa < endPa := by omega
    have hnext : (pa + SECTSIZE) % 2 ^ 32 = pa + SECTSIZE := Nat.mod_eq_of_lt (by omega)
    rw [readLoop, if_pos hpa, hnext, ih (by omega) (by omega) (by omega), readsect]
    have hoffset (t : Nat) : SECTSIZE * (offset + 1) + t = SECTSIZE * offset + (SECTSIZE + t) := by
      rw [Nat.mul_succ, Nat.add_assoc]
    simp only [hoffset]
    rw [splice_append m (fun t => disk (SECTSIZE * offset + t)), Nat.mul_succ, Nat.add_comm SECTSIZE]

private theorem readseg_spec (hroom : s.pa + s.count + SECTSIZE ≤ 2 ^ 32) (hf : 2 ^ 23 < fuel) :
    readseg fuel disk s.pa s.count s.offset m = some (s.load disk m) := by
  have hsize : SECTSIZE = 512 := rfl
  have hcover : s.high = s.low + SECTSIZE * ((s.high - s.low) / SECTSIZE) := by
    rw [Segment.high, Segment.low, hsize]
    omega
  have hend : (s.pa + s.count) % 2 ^ 32 = s.pa + s.count := Nat.mod_eq_of_lt (by omega)
  have hbounds : s.pa + s.count ≤ s.high ∧ s.high < s.pa + s.count + SECTSIZE := by
    rw [Segment.high, hsize]
    omega
  rw [readseg, hend, readLoop_spec (by omega) (n := (s.high - s.low) / SECTSIZE)]
  · refine congrArg some (funext fun x => ?_)
    rw [Segment.load]
    by_cases hx : s.Covers x
    · rw [if_pos hx, splice_inside m _ (by rw [← Segment.low, ← hcover]; exact hx), Segment.byte, image, ← Segment.low]
      refine congrArg disk ?_
      rw [hsize]
      omega
    · rw [if_neg hx]
      apply splice_outside m _
      rw [← Segment.low, ← hcover]
      rw [Segment.Covers] at hx
      omega
  · rw [← Segment.low, ← hcover]
    exact hbounds.1
  · rw [hsize] at hroom ⊢
    omega
  · rw [← Segment.low, ← hcover]
    omega

private theorem u32_header {a : Nat} (hm : ∀ x, ELFHDR ≤ x → x < ELFHDR + SECTSIZE * 8 → m' x = m x) (hlow : ELFHDR ≤ a)
    (hhigh : a + 4 ≤ ELFHDR + SECTSIZE * 8) : u32 m' a = u32 m a :=
  u32_congr fun i hi => hm (a + i) (by omega) (by omega)

private theorem load_header (h : s.Placed) (m : Nat → UInt8) (hlow : ELFHDR ≤ x) (hhigh : x < ELFHDR + SECTSIZE * 8) :
    s.load disk m x = m x := by
  apply if_neg
  rintro ⟨hge, hlt⟩
  rcases h.beside with hbefore | hbehind
  · omega
  · omega

private theorem loads_header (h : ∀ s ∈ l, s.Placed) (m : Nat → UInt8) (hlow : ELFHDR ≤ x)
    (hhigh : x < ELFHDR + SECTSIZE * 8) : l.foldl (Segment.load disk) m x = m x := by
  induction l generalizing m with
  | nil => rfl
  | cons s l ih =>
    rw [List.foldl_cons, ih fun t ht => h t (List.mem_cons_of_mem s ht)]
    exact load_header (h s List.mem_cons_self) m hlow hhigh

/-- The segments are loaded one after the other, although the headers are read from memory each time. -/
theorem loadLoop_spec {fuel k : Nat} (hf : 2 ^ 23 < fuel) (hk : n < k) (hlow : ELFHDR ≤ ph)
    (hhigh : ph + PROGHDR * n ≤ ELFHDR + SECTSIZE * 8) (h : ∀ s ∈ segments m ph n, s.Placed) :
    loadLoop fuel disk (ph + PROGHDR * n) k ph m = some ((segments m ph n).foldl (Segment.load disk) m) := by
  have hsize : PROGHDR = 32 := rfl
  induction n generalizing k ph m with
  | zero =>
    obtain ⟨k, rfl⟩ := Nat.exists_eq_add_one_of_ne_zero (Nat.ne_of_gt hk)
    rw [loadLoop, if_neg (by omega)]
    rfl
  | succ n ih =>
    obtain ⟨k, rfl⟩ := Nat.exists_eq_add_one_of_ne_zero (Nat.ne_of_gt (Nat.zero_lt_of_lt hk))
    rw [Nat.mul_succ] at hhigh
    have hfirst : segments m ph (n + 1) =
        ⟨u32 m (ph + 12), u32 m (ph + 20), u32 m (ph + 4)⟩ :: segments m (ph + PROGHDR) n := by
      have hnext (i : Nat) : ph + PROGHDR * (i + 1) = ph + PROGHDR + PROGHDR * i := by
        rw [Nat.mul_succ]
        omega
      rw [segments, List.range_succ_eq_map, List.map_cons, List.map_map, segments]
      simp only [Function.comp_def, Nat.succ_eq_add_one, hnext]
      rfl
    rw [hfirst] at h ⊢
    have hs := h _ List.mem_cons_self
    have hrest : segments (Segment.load disk m ⟨u32 m (ph + 12), u32 m (ph + 20), u32 m (ph + 4)⟩) (ph + PROGHDR) n =
        segments m (ph + PROGHDR) n := by
      have hmem : ∀ x, ELFHDR ≤ x → x < ELFHDR + SECTSIZE * 8 →
          Segment.load disk m ⟨u32 m (ph + 12), u32 m (ph + 20), u32 m (ph + 4)⟩ x = m x :=
        fun x hx hx' => load_header hs m hx hx'
      rw [segments, segments]
      apply List.map_congr_left
      intro i hi
      have hi' := List.mem_range.mp hi
      have hplace : PROGHDR * i + PROGHDR ≤ PROGHDR * n := by
        rw [← Nat.mul_succ]
        exact Nat.mul_le_mul_left _ hi'
      rw [u32_header hmem (by omega) (by omega), u32_header hmem (by omega) (by omega),
        u32_header hmem (by omega) (by omega)]
    have hlt : ph < ph + PROGHDR * (n + 1) := by
      rw [Nat.mul_succ]
      omega
    have hend : ph + PROGHDR * (n + 1) = ph + PROGHDR + PROGHDR * n := by
      rw [Nat.mul_succ]
      omega
    have hseg := @readseg_spec disk m fuel ⟨u32 m (ph + 12), u32 m (ph + 20), u32 m (ph + 4)⟩ hs.room hf
    rw [loadLoop, if_pos hlt, hseg, Option.bind_eq_bind, Option.bind_some, hend, ih (by omega) (by omega) (by omega),
      hrest, List.foldl_cons]
    rw [hrest]
    exact fun t ht => h t (List.mem_cons_of_mem _ ht)

private theorem loads_last (l : List Segment) (m : Nat → UInt8) (x : Nat) : l.foldl (Segment.load disk) m x =
    (l.reverse.find? fun s => s.Covers x).elim (m x) fun s => s.byte disk x := by
  induction l using List.reverseRecOn with
  | nil => rfl
  | append_singleton l s ih =>
    rw [List.foldl_append, List.foldl_cons, List.foldl_nil, List.reverse_append, List.reverse_singleton,
      List.singleton_append, Segment.load]
    by_cases hx : s.Covers x
    · rw [if_pos hx, List.find?_cons_of_pos (by simpa using hx)]
      rfl
    · rw [if_neg hx, ih, List.find?_cons_of_neg (by simpa using hx)]

private theorem loads_outside (h : ∀ s ∈ l, ¬s.Covers x) (m : Nat → UInt8) : l.foldl (Segment.load disk) m x = m x := by
  induction l generalizing m with
  | nil => rfl
  | cons s l ih =>
    rw [List.foldl_cons, ih fun t ht => h t (List.mem_cons_of_mem s ht)]
    exact if_neg (h s List.mem_cons_self)

private theorem loads_segment (halign : s.pa % SECTSIZE = s.offset % SECTSIZE)
    (hsorted : l.Pairwise fun s t => s.pa + s.count ≤ t.low) (hs : s ∈ l) (m : Nat → UInt8) {j : Nat}
    (hj : j < s.count) : l.foldl (Segment.load disk) m (s.pa + j) = image disk (s.offset + j) := by
  have hsize : SECTSIZE = 512 := rfl
  obtain ⟨front, back, rfl⟩ := List.append_of_mem hs
  have hback : ∀ t ∈ back, ¬t.Covers (s.pa + j) := by
    intro t ht hcover
    have hle := (List.pairwise_cons.mp (List.pairwise_append.mp hsorted).2.1).1 t ht
    have hge := hcover.1
    omega
  have hin : s.Covers (s.pa + j) := by
    rw [Segment.Covers, Segment.low, Segment.high, hsize]
    omega
  rw [List.foldl_append, List.foldl_cons, loads_outside hback, Segment.load, if_pos hin, Segment.byte, Segment.low]
  refine congrArg (image disk) ?_
  rw [hsize] at halign ⊢
  omega

private theorem header_image {k : Nat} (disk m : Nat → UInt8) (hk : k < SECTSIZE * 8) :
    header disk m (ELFHDR + k) = image disk k := by
  have hin : ELFHDR ≤ ELFHDR + k ∧ ELFHDR + k < ELFHDR + SECTSIZE * 8 := by omega
  rw [header, splice_inside m _ hin, Nat.add_sub_cancel_left]

private theorem u32_image {k : Nat} (disk m : Nat → UInt8) (hk : k + 4 ≤ SECTSIZE * 8) :
    u32 (header disk m) (ELFHDR + k) = u32 (image disk) k :=
  u32_congr fun i hi => by
    rw [Nat.add_assoc]
    exact header_image disk m (by omega)

private theorem u16_image {k : Nat} (disk m : Nat → UInt8) (hk : k + 2 ≤ SECTSIZE * 8) :
    u16 (header disk m) (ELFHDR + k) = u16 (image disk) k :=
  u16_congr (header_image disk m (show k < SECTSIZE * 8 by omega)) (header_image disk m (show k + 1 < SECTSIZE * 8 by omega))

end Loading

def programHeaders (img : Nat → UInt8) : List Segment := segments img (u32 img 28) (u16 img 44)

/-- Every kernel whose headers are in its first 4096 bytes is loaded: memory is what the last segment with a sector
there has brought, and where segments stand in increasing order each of them is complete, although whole sectors are
read. -/
theorem boot_loads_kernel (disk m : Nat → UInt8) (hmagic : u32 (image disk) 0 = ELF_MAGIC)
    (hfit : u32 (image disk) 28 + PROGHDR * u16 (image disk) 44 ≤ SECTSIZE * 8)
    (hplaced : ∀ s ∈ programHeaders (image disk), s.Placed) : ∃ F b,
    (∀ fuel ≥ F, bootmain fuel disk m = some (some b)) ∧ b.entry = u32 (image disk) 24 ∧
      (∀ x, b.mem x = ((programHeaders (image disk)).reverse.find? fun s => s.Covers x).elim (header disk m x)
        fun s => s.byte disk x) ∧
      ((programHeaders (image disk)).Pairwise (fun s t => s.pa + s.count ≤ t.low) → ∀ s ∈ programHeaders (image disk),
        s.pa % SECTSIZE = s.offset % SECTSIZE → ∀ j < s.count, b.mem (s.pa + j) = image disk (s.offset + j)) := by
  have hsize : SECTSIZE = 512 := rfl
  have hhdr : PROGHDR = 32 := rfl
  have helf : ELFHDR = 65536 := rfl
  have hphoff := u32_image disk m (show 28 + 4 ≤ SECTSIZE * 8 by decide)
  have hphnum := u16_image disk m (show 44 + 2 ≤ SECTSIZE * 8 by decide)
  have hsegments : segments (header disk m) (ELFHDR + u32 (image disk) 28) (u16 (image disk) 44) =
      programHeaders (image disk) := by
    rw [programHeaders, segments, segments]
    apply List.map_congr_left
    intro i hi
    have hi' := List.mem_range.mp hi
    have hplace : PROGHDR * i + PROGHDR ≤ PROGHDR * u16 (image disk) 44 := by
      rw [← Nat.mul_succ]
      exact Nat.mul_le_mul_left _ hi'
    have hword (k : Nat) (hk : k + 4 ≤ PROGHDR) :
        u32 (header disk m) (ELFHDR + u32 (image disk) 28 + PROGHDR * i + k) =
          u32 (image disk) (u32 (image disk) 28 + PROGHDR * i + k) := by
      have hat := u32_image disk m (show u32 (image disk) 28 + PROGHDR * i + k + 4 ≤ SECTSIZE * 8 by omega)
      refine Eq.trans (congrArg (u32 (header disk m)) ?_) hat
      omega
    rw [hword 12 (by decide), hword 20 (by decide), hword 4 (by decide)]
  have hfirst (fuel : Nat) (hf : 2 ^ 23 < fuel) :
      readseg fuel disk ELFHDR (SECTSIZE * 8) 0 m = some (header disk m) := by
    have hread := @readseg_spec disk m fuel ⟨ELFHDR, SECTSIZE * 8, 0⟩ (by decide) hf
    rw [hread, header]
    refine congrArg some (funext fun x => ?_)
    have hlow : Segment.low ⟨ELFHDR, SECTSIZE * 8, 0⟩ = ELFHDR := by decide
    have hhigh : Segment.high ⟨ELFHDR, SECTSIZE * 8, 0⟩ = ELFHDR + SECTSIZE * 8 := by decide
    have hcovers : Segment.Covers ⟨ELFHDR, SECTSIZE * 8, 0⟩ x ↔ ELFHDR ≤ x ∧ x < ELFHDR + SECTSIZE * 8 := by
      rw [Segment.Covers, hlow, hhigh]
    rw [Segment.load, Segment.byte, hlow]
    refine if_congr hcovers (congrArg (image disk) ?_) rfl
    change 0 / SECTSIZE * SECTSIZE + (x - ELFHDR) = x - ELFHDR
    rw [Nat.zero_div, Nat.zero_mul, Nat.zero_add]
  rw [← hsegments] at hplaced
  have hph : (ELFHDR + u32 (image disk) 28) % 2 ^ 32 = ELFHDR + u32 (image disk) 28 := Nat.mod_eq_of_lt (by omega)
  have heph : (ELFHDR + u32 (image disk) 28 + PROGHDR * u16 (image disk) 44) % 2 ^ 32 =
      ELFHDR + u32 (image disk) 28 + PROGHDR * u16 (image disk) 44 := Nat.mod_eq_of_lt (by omega)
  have hmagic' := u32_image disk m (show 0 + 4 ≤ SECTSIZE * 8 by decide)
  rw [Nat.add_zero, hmagic] at hmagic'
  refine ⟨2 ^ 23 + u16 (image disk) 44 + 1,
    ⟨u32 (image disk) 24, (programHeaders (image disk)).foldl (Segment.load disk) (header disk m)⟩, ?_, rfl, ?_, ?_⟩
  · intro fuel hf
    have hload := @loadLoop_spec disk (header disk m) _ _ fuel fuel (show 2 ^ 23 < fuel by omega)
      (show u16 (image disk) 44 < fuel by omega) (show ELFHDR ≤ ELFHDR + u32 (image disk) 28 by omega) (by omega) hplaced
    have hentry := u32_image disk m (show 24 + 4 ≤ SECTSIZE * 8 by decide)
    rw [hsegments] at hload hplaced
    have hkept : u32 ((programHeaders (image disk)).foldl (Segment.load disk) (header disk m)) (ELFHDR + 24) =
        u32 (image disk) 24 := by
      rw [← hentry]
      exact u32_header (fun x hx hx' => loads_header hplaced _ hx hx') (by omega) (by omega)
    rw [bootmain, hfirst fuel (by omega), Option.bind_eq_bind, Option.bind_some, if_neg (not_not.mpr hmagic'), hphoff,
      hphnum, hph]
    dsimp only
    rw [heph, hload, Option.bind_some, hkept]
  · exact fun x => loads_last _ _ x
  · intro hsorted s hs halign j hj
    exact loads_segment halign hsorted hs _ hj

/-- A disk with a kernel of one segment, which begins with its entry. -/
def sampleDisk (x : Nat) : UInt8 :=
  ([(512, 0x7F), (513, 0x45), (514, 0x4C), (515, 0x46), (538, 0x10), (540, 52), (556, 1), (569, 0x10), (578, 0x10),
    (584, 4), (4608, 0xF4)].lookup x).getD 0

theorem boot_loads_kernel_sample : ∃ F b, (∀ fuel ≥ F, bootmain fuel sampleDisk (fun _ => 0) = some (some b)) ∧
    b.entry = 0x100000 ∧ b.mem 0x100000 = 0xF4 := by
  have hheaders : programHeaders (image sampleDisk) = [⟨0x100000, 4, 0x1000⟩] := by decide +kernel
  have hplaced : ∀ s ∈ programHeaders (image sampleDisk), s.Placed := by
    rw [hheaders]
    intro s hs
    rw [List.mem_singleton.mp hs]
    exact ⟨by decide, .inr (by decide)⟩
  obtain ⟨F, b, hboot, hentry, -, hloaded⟩ :=
    boot_loads_kernel sampleDisk (fun _ => 0) (by decide +kernel) (by decide +kernel) hplaced
  rw [hheaders] at hloaded
  have hbyte := hloaded (List.pairwise_singleton _ _) ⟨0x100000, 4, 0x1000⟩ List.mem_cons_self rfl 0 (by decide)
  exact ⟨F, b, hboot, hentry.trans (by decide +kernel), hbyte.trans (by decide +kernel)⟩

end DamnOS.Kernel.BootLoader
