import DamnOS.Kernel.Window

/-!
# The first free list

`page_init` counts down, so the list that it builds from the front goes up.  What is left out of it are page 0,
the hole for input and output, and the memory from the kernel image to where `boot_alloc` has come.
-/

namespace DamnOS.Kernel

open DamnOS.Framework

def IOPHYSMEM : Nat := 0x0A0000
def EXTPHYSMEM : Nat := 0x100000

/-- The calls of `boot_alloc` one after the other: what they hand out, with the sizes, and `nextfree` after them.
No address passes the end of the address space as long as there is memory behind it. -/
def bootAllocs (nextfree : Nat) : List Nat → List (Nat × Nat) × Nat
  | [] => ([], nextfree)
  | n :: sizes =>
    let rest := bootAllocs (bootAlloc nextfree n).2 sizes
    (((bootAlloc nextfree n).1, n) :: rest.1, rest.2)

private theorem bootAllocs_below {nextfree : Nat} (halign : nextfree % 4096 = 0) (sizes : List Nat) :
    nextfree ≤ (bootAllocs nextfree sizes).2 ∧ (bootAllocs nextfree sizes).2 % 4096 = 0 ∧
      ∀ b ∈ (bootAllocs nextfree sizes).1, nextfree ≤ b.1 ∧ b.1 + b.2 ≤ (bootAllocs nextfree sizes).2 := by
  induction sizes generalizing nextfree with
  | nil => exact ⟨le_rfl, halign, by simp [bootAllocs]⟩
  | cons n sizes ih =>
    have hnext := bootAlloc_snd (n := n) halign
    obtain ⟨hle, hmod, hall⟩ := @ih (bootAlloc nextfree n).2 (by omega)
    refine ⟨?_, hmod, ?_⟩
    · simp only [bootAllocs]
      omega
    · intro b hb
      rcases List.mem_cons.mp hb with rfl | hb
      · simp only [bootAllocs]
        exact ⟨le_rfl, by rw [show (bootAlloc nextfree n).1 = nextfree by rfl]; omega⟩
      · obtain ⟨hlo, hhi⟩ := hall b hb
        simp only [bootAllocs]
        exact ⟨by omega, hhi⟩

/-- The first page that `boot_alloc` has not handed out after these calls. -/
def frontier (imageEnd : Nat) (sizes : List Nat) : Nat :=
  PGNUM (PADDR (bootAllocs (ROUNDUP imageEnd PGSIZE) sizes).2)

/-- The kernel image and what `boot_alloc` has handed out lie between `EXTPHYSMEM` and the frontier. -/
theorem frontier_above {imageEnd : Nat} (himage : KERNBASE + EXTPHYSMEM ≤ imageEnd) (sizes : List Nat) :
    PADDR imageEnd ≤ frontier imageEnd sizes * 4096 ∧
      ∀ b ∈ (bootAllocs (ROUNDUP imageEnd PGSIZE) sizes).1,
        EXTPHYSMEM ≤ PADDR b.1 ∧ PADDR b.1 + b.2 ≤ frontier imageEnd sizes * 4096 := by
  have hround : ROUNDUP imageEnd PGSIZE = (imageEnd + 4095) / 4096 * 4096 := rfl
  obtain ⟨hle, hmod, hall⟩ := @bootAllocs_below (ROUNDUP imageEnd PGSIZE) (by omega) sizes
  rw [frontier, PGNUM_eq, PADDR, PADDR]
  simp only [KERNBASE, EXTPHYSMEM] at himage ⊢
  constructor
  · omega
  · intro b hb
    obtain ⟨hlo, hhi⟩ := hall b hb
    rw [PADDR, KERNBASE]
    omega

/-- `page_free_list` after `page_init`, for every size of memory and every frontier of `boot_alloc`. -/
theorem pageInit_freeList {m : Pmap} (hm : m.pageFreeList = none) (npages : Nat) {basemem : Nat}
    (hbase : basemem ≤ IOPHYSMEM / PGSIZE) (kernEnd : Nat) :
    ∃ xs, Chain (m.pageInit npages basemem kernEnd).ppLink (m.pageInit npages basemem kernEnd).pageFreeList xs ∧
      xs.Pairwise (· < ·) ∧
      (∀ i, i ∈ xs ↔ (0 < i ∧ i < min npages basemem) ∨
        (i < npages ∧ EXTPHYSMEM / PGSIZE < i ∧ kernEnd ≤ i)) ∧
      (∀ a, a / PGSIZE ∈ xs → PGSIZE ≤ a ∧ (a < IOPHYSMEM ∨ EXTPHYSMEM ≤ a)) ∧
      ∀ imageEnd sizes, KERNBASE + EXTPHYSMEM ≤ imageEnd → frontier imageEnd sizes = kernEnd →
        ∀ a, a / PGSIZE ∈ xs → (a < EXTPHYSMEM ∨ PADDR imageEnd ≤ a) ∧
          ∀ b ∈ (bootAllocs (ROUNDUP imageEnd PGSIZE) sizes).1, a < PADDR b.1 ∨ PADDR b.1 + b.2 ≤ a := by
  obtain ⟨-, -, xs, hxs, -, hsorted, hall⟩ := pageInit_list hm npages basemem kernEnd
  have hmem (i : Nat) : i ∈ xs ↔ (0 < i ∧ i < min npages basemem) ∨
      (i < npages ∧ EXTPHYSMEM / PGSIZE < i ∧ kernEnd ≤ i) := by
    rw [hall, LeftFree, PGNUM_eq]
    simp only [IOPHYSMEM, EXTPHYSMEM, PGSIZE] at hbase ⊢
    omega
  refine ⟨xs, hxs, hsorted, hmem, ?_, ?_⟩
  · intro a ha
    have hfree := (hmem _).mp ha
    simp only [IOPHYSMEM, EXTPHYSMEM, PGSIZE] at hbase hfree ⊢
    omega
  · intro imageEnd sizes himage hend a ha
    have hfree := (hmem _).mp ha
    obtain ⟨himg, hblocks⟩ := frontier_above himage sizes
    rw [hend] at himg hblocks
    simp only [IOPHYSMEM, EXTPHYSMEM, PGSIZE] at hbase hfree hblocks ⊢
    constructor
    · omega
    · intro b hb
      obtain ⟨hlo, hhi⟩ := hblocks b hb
      omega

/-- A machine of 2 MB with 640 kB of base memory. -/
theorem pageInit_freeList_small : ∃ xs,
    Chain ((Pmap.mk (fun _ _ => 0) (fun _ => 0) (fun _ => none) none 300).pageInit 512 160 340).ppLink
      ((Pmap.mk (fun _ _ => 0) (fun _ => 0) (fun _ => none) none 300).pageInit 512 160 340).pageFreeList xs ∧
      xs.Pairwise (· < ·) ∧ ∀ i, i ∈ xs ↔ (0 < i ∧ i < 160) ∨ (i < 512 ∧ 256 < i ∧ 340 ≤ i) := by
  obtain ⟨xs, hxs, hsorted, hmem, -⟩ := pageInit_freeList
    (m := Pmap.mk (fun _ _ => 0) (fun _ => 0) (fun _ => none) none 300) rfl 512
    (show 160 ≤ IOPHYSMEM / PGSIZE by decide) 340
  exact ⟨xs, hxs, hsorted, hmem⟩

end DamnOS.Kernel
