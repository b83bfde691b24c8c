import Mathlib

/-!
# Addresses and page table entries

The constants of `util.h`, `env.h` and `error.h`, and the arithmetic of page table entries: a page
number in the upper twenty bits and flags in the lower twelve.
-/

namespace DamnOS.Kernel

def PGSIZE : Nat := 4096
def PTSIZE : Nat := 0x400000
def KERNBASE : Nat := 0xF0000000
def ULIM : Nat := KERNBASE - PTSIZE - PTSIZE
def UVPT : Nat := ULIM - PTSIZE
def UPAGES : Nat := UVPT - PTSIZE
def UENVS : Nat := UPAGES - PTSIZE
def UTOP : Nat := UENVS
def UXSTACKTOP : Nat := UTOP
def USTACKTOP : Nat := UTOP - 2 * PGSIZE
def UTEMP : Nat := PTSIZE
def KSTACKTOP : Nat := KERNBASE
def KSTKSIZE : Nat := 8 * PGSIZE
def PFTEMP : Nat := UTEMP + PTSIZE - PGSIZE

def PTE_P : Nat := 0x001
def PTE_W : Nat := 0x002
def PTE_U : Nat := 0x004
def PTE_AVAIL : Nat := 0xE00
def PTE_SYSCALL : Nat := PTE_AVAIL ||| PTE_P ||| PTE_W ||| PTE_U
/-- Bits of `PTE_AVAIL` that `fork.c` and `syslib.h` give a meaning. -/
def PTE_COW : Nat := 0x800
def PTE_SHARE : Nat := 0x400

def GD_UT : BitVec 16 := 0x18
def GD_UD : BitVec 16 := 0x20
def FL_IF : BitVec 32 := 0x200
def FL_IOPL_MASK : BitVec 32 := 0x3000

def E_BAD_ENV : Int := 2
def E_INVAL : Int := 3
def E_NO_MEM : Int := 4
def E_NO_FREE_ENV : Int := 5
def E_IPC_NOT_RECV : Int := 7

/-- Page number, page directory index and page table index of an address. -/
def PGNUM (la : Nat) : Nat := la >>> 12
def PDX (la : Nat) : Nat := la >>> 22 &&& 0x3FF
def PTX (la : Nat) : Nat := la >>> 12 &&& 0x3FF
def PGADDR (d t o : Nat) : Nat := d <<< 22 ||| t <<< 12 ||| o

def PTE_ADDR (pte : Nat) : Nat := pte &&& 0xFFFFF000

/-- `page2pa` and `pa2page`, with a page for its `struct PageInfo`. -/
def page2pa (p : Nat) : Nat := p <<< 12
def pa2page (pa : Nat) : Nat := PGNUM pa

/-- The page directory entries of the user part of the address space. -/
def NUPDE : Nat := 955

theorem PGNUM_eq (la : Nat) : PGNUM la = la / 4096 := by
  simp [PGNUM, Nat.shiftRight_eq_div_pow]

theorem PDX_eq (la : Nat) : PDX la = la / 4194304 % 1024 := by
  rw [PDX, Nat.shiftRight_eq_div_pow]
  exact Nat.and_two_pow_sub_one_eq_mod _ 10

theorem PTX_eq (la : Nat) : PTX la = la / 4096 % 1024 := by
  rw [PTX, Nat.shiftRight_eq_div_pow]
  exact Nat.and_two_pow_sub_one_eq_mod _ 10

theorem PTX_lt (la : Nat) : PTX la < 1024 := by
  rw [PTX_eq]
  omega

theorem PDX_lt_of_lt_UTOP {la : Nat} (h : la < UTOP) : PDX la < NUPDE := by
  rw [PDX_eq]
  simp only [UTOP, UENVS, UPAGES, UVPT, ULIM, KERNBASE, PTSIZE, NUPDE] at *
  omega

theorem PDX_UTOP : PDX UTOP = NUPDE := by decide

theorem pa2page_PTE_ADDR (w : Nat) : pa2page (PTE_ADDR w) = w / 4096 % 2 ^ 20 := by
  rw [pa2page, PGNUM, PTE_ADDR, Nat.shiftRight_and_distrib, Nat.shiftRight_eq_div_pow]
  exact Nat.and_two_pow_sub_one_eq_mod _ 20

theorem PTE_ADDR_eq (w : Nat) : PTE_ADDR w = w / 4096 % 2 ^ 20 * 4096 := by
  rw [← pa2page_PTE_ADDR, pa2page, PGNUM_eq]
  have hdiv : PTE_ADDR w % 4096 = 0 := by
    rw [PTE_ADDR, show (4096 : Nat) = 2 ^ 12 by rfl, ← Nat.and_two_pow_sub_one_eq_mod,
      Nat.and_assoc]
    simp
  omega

theorem PTE_ADDR_eq_zero {w : Nat} : PTE_ADDR w = 0 ↔ w / 4096 % 2 ^ 20 = 0 := by
  rw [PTE_ADDR_eq]
  omega

private theorem PGADDR_eq {d t : Nat} (ht : t < 1024) : PGADDR d t 0 = d * 4194304 + t * 4096 := by
  have ht' : t <<< 12 < 2 ^ 22 := by rw [Nat.shiftLeft_eq]; omega
  rw [PGADDR, Nat.or_zero, ← Nat.shiftLeft_add_eq_or_of_lt ht', Nat.shiftLeft_eq, Nat.shiftLeft_eq]

theorem PDX_PGADDR {d t : Nat} (hd : d < 1024) (ht : t < 1024) : PDX (PGADDR d t 0) = d := by
  rw [PDX_eq, PGADDR_eq ht]
  omega

theorem PTX_PGADDR {d t : Nat} (ht : t < 1024) : PTX (PGADDR d t 0) = t := by
  rw [PTX_eq, PGADDR_eq ht]
  omega

theorem PGADDR_lt_UTOP {d t : Nat} (hd : d < NUPDE) (ht : t < 1024) : PGADDR d t 0 < UTOP := by
  have hutop : UTOP = 955 * 4194304 := by decide
  have hpde : NUPDE = 955 := rfl
  rw [PGADDR_eq ht, hutop]
  omega

/-- An entry with a page number and flags. -/
def entry (p perm : Nat) : Nat := page2pa p ||| perm ||| PTE_P

private theorem page2pa_or {p f : Nat} (hf : f < 4096) : page2pa p ||| f = p * 4096 + f := by
  rw [page2pa, ← Nat.shiftLeft_add_eq_or_of_lt hf, Nat.shiftLeft_eq]

theorem entry_eq {p perm : Nat} (hf : perm < 4096) :
    entry p perm = p * 4096 + (perm ||| PTE_P) := by
  rw [entry, Nat.or_assoc]
  exact page2pa_or (Nat.or_lt_two_pow (n := 12) hf (by decide))

theorem or_one_lt {perm : Nat} (hf : perm < 4096) : perm ||| PTE_P < 4096 :=
  Nat.or_lt_two_pow (n := 12) hf (by decide)

theorem pa2page_entry {p perm : Nat} (hp : p < 2 ^ 20) (hf : perm < 4096) :
    pa2page (PTE_ADDR (entry p perm)) = p := by
  have h := or_one_lt hf
  rw [pa2page_PTE_ADDR, entry_eq hf]
  omega

theorem entry_and {p perm m : Nat} (hm : m < 4096) :
    entry p perm &&& m = (perm ||| PTE_P) &&& m := by
  have h : page2pa p &&& m = 0 := by
    rw [show m = m &&& (2 ^ 12 - 1) from by
      rw [Nat.and_two_pow_sub_one_eq_mod]
      exact (Nat.mod_eq_of_lt hm).symm, Nat.and_comm m, ← Nat.and_assoc,
      Nat.and_two_pow_sub_one_eq_mod, page2pa, Nat.shiftLeft_eq]
    simp
  rw [entry, Nat.or_assoc, Nat.and_or_distrib_right, h, Nat.zero_or]

theorem entry_present (p perm : Nat) : entry p perm &&& PTE_P ≠ 0 := by
  rw [entry_and (by decide), Nat.and_or_distrib_right, PTE_P]
  intro h
  have := congrArg (fun n => n.testBit 0) h
  simp at this

theorem entry_ne_zero (p perm : Nat) : entry p perm ≠ 0 := by
  intro h
  have := entry_present p perm
  simp [h] at this

end DamnOS.Kernel
