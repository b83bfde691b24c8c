import DamnOS.Programs.Files
import DamnOS.User.Pages

/-!
# File descriptors

`fd.c` on the pages of a program: a descriptor is a page of the descriptor area with a `struct Fd`, and a page of
the data area behind it that devices may use.  Numbers and addresses are words of 32 bits.
-/

namespace DamnOS.User

open DamnOS.Framework DamnOS.Kernel
open DamnOS.Programs (MAXFD O_RDONLY O_WRONLY)
open DamnOS.FileSystem (Err)

def FDTABLE : Nat := 0x20000000
def FILEDATA : Nat := FDTABLE + MAXFD * PGSIZE

def INDEX2FD (i : BitVec 32) : BitVec 32 := BitVec.ofNat 32 FDTABLE + i * BitVec.ofNat 32 PGSIZE
def INDEX2DATA (i : BitVec 32) : BitVec 32 := BitVec.ofNat 32 FILEDATA + i * BitVec.ofNat 32 PGSIZE

def fd2num (fd : BitVec 32) : BitVec 32 := (fd - BitVec.ofNat 32 FDTABLE) / BitVec.ofNat 32 PGSIZE
def fd2data (fd : BitVec 32) : BitVec 32 := INDEX2DATA (fd2num fd)

def offDevId : BitVec 32 := 0
def offOmode : BitVec 32 := 8

/-- The devices of `devtab`. -/
inductive Dev where
  | file
  | pipe
  | cons
  deriving DecidableEq

/-- `dev_id`: the characters `f`, `p` and `c`. -/
def Dev.id : Dev → Nat
  | .file => 102
  | .pipe => 112
  | .cons => 99

def devtab : List Dev := [.file, .pipe, .cons]

def devLookup (devId : Nat) : Option Dev := devtab.find? fun d => d.id = devId

namespace Paging

/-- `fd_alloc`: the address of the first descriptor without a page. -/
def fdAlloc (s : Paging) (e : Fin NENV) : Option (BitVec 32) :=
  ((List.range MAXFD).map fun i => INDEX2FD (BitVec.ofNat 32 i)).find? fun fd => !s.present e fd

def fdLookup (s : Paging) (e : Fin NENV) (fdnum : BitVec 32) : Option (BitVec 32) :=
  if fdnum.toInt < 0 ∨ (MAXFD : Int) ≤ fdnum.toInt then none
  else if s.present e (INDEX2FD fdnum) then some (INDEX2FD fdnum) else none

/-- `dev_close` of a device.  `devfile_flush` reports what the file server answers; it maps nothing. -/
def devClose (flushed : Int) (d : Dev) (s : Paging) (e : Fin NENV) (fd : BitVec 32) : Int × Paging :=
  match d with
  | .file => (flushed, s)
  | .pipe => (s.sysPageUnmap e fd).2.sysPageUnmap e (fd2data fd)
  | .cons => (0, s)

def fdClose (flushed : Int) (s : Paging) (e : Fin NENV) (fd : BitVec 32) (mustExist : Bool) :
    Option (Int × Paging) :=
  match s.fdLookup e (fd2num fd) with
  | none => some (if mustExist then -E_INVAL else 0, s)
  | some fd2 =>
    if fd ≠ fd2 then some (0, s)
    else do
      let devId ← s.loadWord e (fd + offDevId)
      let (r, s) := (devLookup devId).elim (-E_INVAL, s) fun d => devClose flushed d s e fd
      some (r, (s.sysPageUnmap e fd).2)

def close (flushed : Int) (s : Paging) (e : Fin NENV) (fdnum : BitVec 32) : Option (Int × Paging) :=
  match s.fdLookup e fdnum with
  | none => some (-E_INVAL, s)
  | some fd => s.fdClose flushed e fd true

end Paging

/-- The page numbers of a descriptor, whatever its number is. -/
def fdPage (i : BitVec 32) : Nat := PGNUM (INDEX2FD i).toNat
def dataPage (i : BitVec 32) : Nat := PGNUM (fd2data (INDEX2FD i)).toNat

def InRange (i : BitVec 32) : Prop := i.toNat < MAXFD

instance (i : BitVec 32) : Decidable (InRange i) := inferInstanceAs (Decidable (i.toNat < MAXFD))

section Numbers

variable {i j : BitVec 32}

private theorem INDEX2FD_toNat (i : BitVec 32) : (INDEX2FD i).toNat = (0x20000 + i.toNat) % 2 ^ 20 * 4096 := by
  simp only [INDEX2FD, FDTABLE, PGSIZE]
  bv_omega

private theorem fd2num_INDEX2FD (i : BitVec 32) : (fd2num (INDEX2FD i)).toNat = i.toNat % 2 ^ 20 := by
  have hfd := INDEX2FD_toNat i
  rw [fd2num, BitVec.toNat_udiv, BitVec.toNat_sub, hfd]
  simp only [FDTABLE, PGSIZE, BitVec.toNat_ofNat, Nat.reducePow, Nat.reduceMod]
  omega

private theorem fd2data_toNat (i : BitVec 32) :
    (fd2data (INDEX2FD i)).toNat = (0x20020 + i.toNat) % 2 ^ 20 * 4096 := by
  have hnum := fd2num_INDEX2FD i
  rw [fd2data, INDEX2DATA, BitVec.toNat_add, BitVec.toNat_mul, hnum]
  simp only [FILEDATA, FDTABLE, MAXFD, PGSIZE, BitVec.toNat_ofNat]
  omega

theorem fdPage_eq (i : BitVec 32) : fdPage i = (0x20000 + i.toNat) % 2 ^ 20 := by
  rw [fdPage, PGNUM_eq, INDEX2FD_toNat]
  omega

theorem dataPage_eq (i : BitVec 32) : dataPage i = (0x20020 + i.toNat) % 2 ^ 20 := by
  rw [dataPage, PGNUM_eq, fd2data_toNat]
  omega

theorem fdPage_of_inRange (h : InRange i) : fdPage i = 0x20000 + i.toNat := by
  simp only [InRange, MAXFD] at h
  rw [fdPage_eq]
  omega

theorem dataPage_of_inRange (h : InRange i) : dataPage i = 0x20020 + i.toNat := by
  simp only [InRange, MAXFD] at h
  rw [dataPage_eq]
  omega

theorem pageAddr_fd (i : BitVec 32) : pageAddr (INDEX2FD i).toNat = decide (fdPage i < NUPAGE) := by
  have hN : NUPAGE = 977920 := rfl
  have hU : UTOP = 977920 * 4096 := by decide
  rw [fdPage_eq, pageAddr, INDEX2FD_toNat, hN, hU, PGSIZE]
  simp only [Nat.mul_mod_left, decide_true, Bool.and_true]
  exact decide_eq_decide.mpr (by omega)

theorem pageAddr_data (i : BitVec 32) : pageAddr (fd2data (INDEX2FD i)).toNat = decide (dataPage i < NUPAGE) := by
  have hN : NUPAGE = 977920 := rfl
  have hU : UTOP = 977920 * 4096 := by decide
  rw [dataPage_eq, pageAddr, fd2data_toNat, hN, hU, PGSIZE]
  simp only [Nat.mul_mod_left, decide_true, Bool.and_true]
  exact decide_eq_decide.mpr (by omega)

theorem fdPage_lt (h : InRange i) : fdPage i < NUPAGE := by
  have hN : NUPAGE = 977920 := rfl
  rw [fdPage_of_inRange h, hN]
  simp only [InRange, MAXFD] at h
  omega

theorem dataPage_lt (h : InRange i) : dataPage i < NUPAGE := by
  have hN : NUPAGE = 977920 := rfl
  rw [dataPage_of_inRange h, hN]
  simp only [InRange, MAXFD] at h
  omega

theorem inRange_iff (i : BitVec 32) : InRange i ↔ ¬ (i.toInt < 0 ∨ (MAXFD : Int) ≤ i.toInt) := by
  have hlt := i.isLt
  rw [BitVec.toInt_eq_toNat_cond, InRange]
  simp only [MAXFD]
  split <;> omega

theorem fd2num_of_inRange (h : InRange i) : fd2num (INDEX2FD i) = i := by
  simp only [InRange, MAXFD] at h
  apply BitVec.eq_of_toNat_eq
  rw [fd2num_INDEX2FD]
  omega

theorem fdPage_inj (hi : InRange i) (hj : InRange j) (h : fdPage i = fdPage j) : i = j := by
  rw [fdPage_of_inRange hi, fdPage_of_inRange hj] at h
  exact BitVec.eq_of_toNat_eq (by omega)

theorem dataPage_inj (hi : InRange i) (hj : InRange j) (h : dataPage i = dataPage j) : i = j := by
  rw [dataPage_of_inRange hi, dataPage_of_inRange hj] at h
  exact BitVec.eq_of_toNat_eq (by omega)

theorem fdPage_ne_dataPage (hi : InRange i) (hj : InRange j) : fdPage i ≠ dataPage j := by
  rw [fdPage_of_inRange hi, dataPage_of_inRange hj]
  simp only [InRange, MAXFD] at hi hj
  omega

theorem field_toNat (i off : BitVec 32) (hoff : off.toNat < PGSIZE) :
    PGNUM (INDEX2FD i + off).toNat = fdPage i ∧ (INDEX2FD i + off).toNat % PGSIZE = off.toNat := by
  have hfd := INDEX2FD_toNat i
  rw [PGSIZE] at hoff
  have hadd : (INDEX2FD i + off).toNat = (INDEX2FD i).toNat + off.toNat := by bv_omega
  rw [hadd, PGNUM_eq, fdPage_eq, hfd, PGSIZE]
  omega

end Numbers

section Closing

variable {s : Paging} {e : Fin NENV} {i : BitVec 32}

theorem present_fd : s.present e (INDEX2FD i) = (s.maps e (fdPage i)).isSome := rfl

theorem present_data : s.present e (fd2data (INDEX2FD i)) = (s.maps e (dataPage i)).isSome := rfl

private theorem fdLookup_eq : s.fdLookup e i =
    if InRange i ∧ (s.maps e (fdPage i)).isSome = true then some (INDEX2FD i) else none := by
  rw [Paging.fdLookup, present_fd]
  by_cases h : InRange i
  · rw [if_neg ((inRange_iff i).mp h)]
    simp [h]
  · have hout := (inRange_iff i).not_left.mp h
    rw [if_pos hout]
    simp [h]

def Paging.Open (s : Paging) (e : Fin NENV) (i : BitVec 32) : Prop :=
  InRange i ∧ (s.maps e (fdPage i)).isSome = true

instance : Decidable (s.Open e i) := inferInstanceAs (Decidable (InRange i ∧ _))

/-- The `Fd` of an open descriptor says that it is a pipe. -/
def Paging.IsPipe (s : Paging) (e : Fin NENV) (i : BitVec 32) : Prop :=
  s.loadWord e (INDEX2FD i) = some Dev.pipe.id

instance : Decidable (s.IsPipe e i) := inferInstanceAs (Decidable (s.loadWord e (INDEX2FD i) = _))

theorem fdLookup_open (h : s.Open e i) : s.fdLookup e i = some (INDEX2FD i) := by
  rw [fdLookup_eq]
  exact if_pos h

theorem fdLookup_not_open (h : ¬ s.Open e i) : s.fdLookup e i = none := by
  rw [fdLookup_eq]
  exact if_neg h

theorem sysPageUnmap_fd (h : InRange i) :
    s.sysPageUnmap e (INDEX2FD i) = (0, { s with toSpaces := s.unmap e (fdPage i) }) :=
  sysPageUnmap_eq ((pageAddr_fd i).trans (decide_eq_true (fdPage_lt h)))

theorem sysPageUnmap_data (h : InRange i) :
    s.sysPageUnmap e (fd2data (INDEX2FD i)) = (0, { s with toSpaces := s.unmap e (dataPage i) }) :=
  sysPageUnmap_eq ((pageAddr_data i).trans (decide_eq_true (dataPage_lt h)))

private theorem devLookup_eq (n : Nat) : devLookup n =
    if n = 102 then some .file else if n = 112 then some .pipe else if n = 99 then some .cons else none := by
  simp only [devLookup, devtab, List.find?_cons, List.find?_nil, Dev.id]
  split_ifs with h1 h2 h3
  · simp [h1]
  · simp [h2]
  · simp [h3]
  · simp [Ne.symm h1, Ne.symm h2, Ne.symm h3]

private theorem devClose_other (flushed : Int) {fd : BitVec 32} {w : Nat} (hw : w ≠ 112) :
    ((devLookup w).elim (-E_INVAL, s) fun d => Paging.devClose flushed d s e fd).2 = s := by
  rw [devLookup_eq, if_neg hw]
  split_ifs
  · rfl
  · rfl
  · rfl

theorem close_not_open (flushed : Int) (h : ¬ s.Open e i) : s.close flushed e i = some (-E_INVAL, s) := by
  rw [Paging.close, fdLookup_not_open h]

/-- What the program maps after a descriptor was closed: its page is gone, and with a pipe the data page. -/
structure ClosedAt (s t : Paging) (e : Fin NENV) (i : BitVec 32) : Prop where
  calls : t.calls = s.calls
  others : ∀ j n, j ≠ e → t.maps j n = s.maps j n
  fd : t.maps e (fdPage i) = none
  data : t.maps e (dataPage i) = if s.IsPipe e i then none else s.maps e (dataPage i)
  rest : ∀ n, n ≠ fdPage i → n ≠ dataPage i → t.maps e n = s.maps e n

theorem close_open (flushed : Int) (h : s.Open e i) :
    ∃ r t, s.close flushed e i = some (r, t) ∧ ClosedAt s t e i := by
  have hne : dataPage i ≠ fdPage i := (fdPage_ne_dataPage h.1 h.1).symm
  obtain ⟨x, hx⟩ := Option.isSome_iff_exists.mp h.2
  have hload : s.loadWord e (INDEX2FD i) =
      some (u32 (s.data x.1) ((INDEX2FD i).toNat % PGSIZE)) := by
    rw [Paging.loadWord]
    change Option.map _ (s.maps e (fdPage i)) = _
    rw [hx]
    rfl
  have hfd : INDEX2FD i + offDevId = INDEX2FD i := by simp [offDevId]
  unfold Paging.close Paging.fdClose
  rw [fdLookup_open h]
  dsimp only
  rw [fd2num_of_inRange h.1, fdLookup_open h]
  dsimp only
  rw [if_neg (by simp), hfd, hload]
  have hpipe : s.IsPipe e i ↔ u32 (s.data x.1) ((INDEX2FD i).toNat % PGSIZE) = 112 := by
    rw [Paging.IsPipe, hload]
    simp [Dev.id]
  generalize u32 (s.data x.1) ((INDEX2FD i).toNat % PGSIZE) = w at *
  by_cases hw : w = 112
  · -- `devpipe_close` unmaps both pages, and `fd_close` the first once more
    have hdev : devLookup w = some .pipe := by rw [devLookup_eq, hw]; rfl
    refine ⟨_, _, rfl, ?_⟩
    simp only [hdev, Paging.devClose, sysPageUnmap_fd h.1, sysPageUnmap_data h.1]
    refine ⟨rfl, fun j n hj => by simp [hj], by simp, by simp [hpipe, hw, hne], fun n hn hn' => by simp [hn, hn']⟩
  · refine ⟨_, _, rfl, ?_⟩
    simp only [devClose_other flushed hw, sysPageUnmap_fd h.1]
    refine ⟨rfl, fun j n hj => by simp [hj], by simp, by simp [hpipe, hw, hne], fun n hn _ => by simp [hn]⟩

end Closing

end DamnOS.User
