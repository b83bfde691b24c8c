import DamnOS.User.Descriptors

/-!
# Reading through a descriptor

`seek`, `read` and `readn` on a descriptor of a file.  The offset is in the `Fd` page, which program and file
server share; `readn` asks until it has all bytes, the file ends or a request fails.
-/

namespace DamnOS.User

open DamnOS.Framework DamnOS.Kernel
open DamnOS.Programs (O_WRONLY O_ACCMODE)

def offOffset : BitVec 32 := 4

abbrev Refusal : Type := {r : Int // r < 0}

/-- A file as the server answers for it.  `fails` tells which requests are refused; before position 0 there are
whatever bytes the server has there. -/
structure ProgramFile where
  size : Nat
  byte : Int → UInt8
  fails : Nat → Option Refusal

namespace ProgramFile

/-- The bytes that `file_read` delivers of `n` bytes from `off` on. -/
def count (f : ProgramFile) (n : Nat) (off : Int) : Nat :=
  if (f.size : Int) ≤ off then 0 else min n (f.size - off).toNat

def answer (f : ProgramFile) (k n : Nat) (off : Int) : Int :=
  match f.fails k with
  | some r => r.val
  | none => f.count n off

end ProgramFile

/-- A program with the requests it has made of the file server, and the buffer `elf_buf` on its stack. -/
structure Loader extends Paging where
  requests : Nat
  elfBuf : Nat → UInt8

namespace Paging

/-- A word of a page is changed by an environment that has the page mapped somewhere. -/
def writeWord (s : Paging) (p k w : Nat) : Paging :=
  { s with toSpaces := s.write p (splice (s.data p) k 4 (leByte w)) }

/-- `memmove` to a buffer inside one page. -/
def storeBytes (s : Paging) (e : Fin NENV) (va : BitVec 32) (n : Nat) (bytes : Nat → UInt8) : Option Paging :=
  if n = 0 then some s
  else
    match s.maps e (PGNUM va.toNat) with
    | none => none
    | some x =>
      if x.2.val.toNat &&& PTE_W = 0 then none
      else some { s with toSpaces := s.write x.1 (splice (s.data x.1) (va.toNat % PGSIZE) n bytes) }

def seek (s : Paging) (e : Fin NENV) (fdnum offset : BitVec 32) : Option (Int × Paging) :=
  match s.fdLookup e fdnum with
  | none => some (-E_INVAL, s)
  | some fd => (s.storeWord e (fd + offOffset) offset.toNat).map fun s => (0, s)

end Paging

namespace Loader

/-- `devfile_read`, and `serve_read` on the other side: the offset of the open file moves in the shared page. -/
def devfileRead (f : ProgramFile) (s : Loader) (e : Fin NENV) (fd : BitVec 32) (n : Nat) :
    Option (Int × (Nat → UInt8) × Loader) :=
  (s.maps e (PGNUM fd.toNat)).map fun x =>
    let off := BitVec.ofNat 32 (u32 (s.data x.1) offOffset.toNat)
    let r := f.answer s.requests n off.toInt
    let s := { s with requests := s.requests + 1 }
    if r < 0 then (r, fun _ => 0, s)
    else (r, fun k => f.byte (off.toInt + k),
      { s with toPaging := s.writeWord x.1 offOffset.toNat (off + BitVec.ofInt 32 r).toNat })

/-- `read`, with the bytes for the buffer.  Only the device of files is read here. -/
def read (f : ProgramFile) (s : Loader) (e : Fin NENV) (fdnum : BitVec 32) (n : Nat) :
    Option (Int × (Nat → UInt8) × Loader) :=
  match s.fdLookup e fdnum with
  | none => some (-E_INVAL, fun _ => 0, s)
  | some fd => do
    let devId ← s.loadWord e (fd + offDevId)
    let omode ← s.loadWord e (fd + offOmode)
    match devLookup devId with
    | none => some (-E_INVAL, fun _ => 0, s)
    | some d =>
      if omode &&& O_ACCMODE = O_WRONLY then some (-E_INVAL, fun _ => 0, s)
      else if d = .file then s.devfileRead f e fd n
      else none

/-- The loop of `readn`; `store` puts bytes into the buffer at a distance from its start. -/
def readnLoop (f : ProgramFile) (e : Fin NENV) (fdnum : BitVec 32)
    (store : Loader → Nat → Nat → (Nat → UInt8) → Option Loader) (n : Nat) :
    Nat → Nat → Loader → Option (Int × Loader)
  | 0, _, _ => none
  | fuel + 1, tot, s =>
    if tot < n then do
      let (m, bytes, s) ← s.read f e fdnum (n - tot)
      if m < 0 then some (m, s)
      else do
        let s ← store s tot m.toNat bytes
        if m = 0 then some (tot, s) else readnLoop f e fdnum store n fuel (tot + m.toNat) s
    else some (tot, s)

/-- `readn`.  A round that goes on has read something, so there are at most `n` rounds. -/
def readn (f : ProgramFile) (s : Loader) (e : Fin NENV) (fdnum : BitVec 32)
    (store : Loader → Nat → Nat → (Nat → UInt8) → Option Loader) (n : Nat) : Option (Int × Loader) :=
  readnLoop f e fdnum store n (n + 1) 0 s

def toPage (e : Fin NENV) (va : BitVec 32) (s : Loader) (tot n : Nat) (bytes : Nat → UInt8) : Option Loader :=
  (s.storeBytes e (va + BitVec.ofNat 32 tot) n bytes).map fun p => { s with toPaging := p }

def toElfBuf (s : Loader) (tot n : Nat) (bytes : Nat → UInt8) : Option Loader :=
  some { s with elfBuf := splice s.elfBuf tot n bytes }

end Loader

def Paging.offset (s : Paging) (q : Nat) : BitVec 32 := BitVec.ofNat 32 (u32 (s.data q) offOffset.toNat)

section Requests

variable {f : ProgramFile} {s t : Loader} {e : Fin NENV} {fdnum : BitVec 32} {n : Nat} {r : Int}
  {bytes : Nat → UInt8}

theorem Paging.offset_writeWord (s : Paging) (q : Nat) (w : BitVec 32) :
    (s.writeWord q offOffset.toNat w.toNat).offset q = w := by
  simp only [Paging.offset, Paging.writeWord, Spaces.data_write, Function.update_self, u32_splice_same]
  rw [Nat.mod_eq_of_lt w.isLt, BitVec.ofNat_toNat]
  exact BitVec.setWidth_eq w

private theorem Paging.data_writeWord {s : Paging} {p j : Nat} (h : j ≠ p) (k w : Nat) :
    (s.writeWord p k w).data j = s.data j := by
  simp only [Paging.writeWord, Spaces.data_write, Function.update_of_ne h]

private theorem ProgramFile.answer_nonneg {k : Nat} {off : Int} (h : 0 ≤ f.answer k n off) :
    f.fails k = none ∧ f.answer k n off = f.count n off := by
  rw [ProgramFile.answer] at h ⊢
  cases hf : f.fails k with
  | none => exact ⟨rfl, rfl⟩
  | some err =>
    rw [hf] at h
    exact absurd err.property (not_lt.mpr h)

/-- A request that succeeded read what the file has at the offset and moved the offset behind it. -/
theorem devfileRead_inv {fd : BitVec 32} (h : s.devfileRead f e fd n = some (r, bytes, t)) (hr : 0 ≤ r) :
    ∃ x, f.fails s.requests = none ∧ s.maps e (PGNUM fd.toNat) = some x ∧ r = f.count n (s.offset x.1).toInt ∧
      bytes = (fun k : Nat => f.byte ((s.offset x.1).toInt + k)) ∧
      t = { s with
        requests := s.requests + 1
        toPaging := s.writeWord x.1 offOffset.toNat (s.offset x.1 + BitVec.ofInt 32 r).toNat } := by
  obtain ⟨x, hx, hread⟩ := Option.map_eq_some_iff.mp h
  dsimp only at hread
  split at hread
  · next hneg =>
    cases hread
    omega
  · next hneg =>
    cases hread
    obtain ⟨hfails, hcount⟩ := ProgramFile.answer_nonneg (not_lt.mp hneg)
    exact ⟨x, hfails, hx, hcount, rfl, rfl⟩

theorem read_inv (h : s.read f e fdnum n = some (r, bytes, t)) (hr : 0 ≤ r) :
    s.Open e fdnum ∧ s.devfileRead f e (INDEX2FD fdnum) n = some (r, bytes, t) := by
  by_cases hopen : s.Open e fdnum
  · refine ⟨hopen, ?_⟩
    rw [Loader.read, fdLookup_open hopen] at h
    dsimp only at h
    obtain ⟨devId, -, h⟩ := Option.bind_eq_some_iff.mp h
    obtain ⟨omode, -, h⟩ := Option.bind_eq_some_iff.mp h
    cases hdev : devLookup devId with
    | none =>
      rw [hdev] at h
      cases h
      exact absurd E_INVAL_neg (not_lt.mpr hr)
    | some d =>
      rw [hdev] at h
      dsimp only at h
      split at h
      · cases h
        exact absurd E_INVAL_neg (not_lt.mpr hr)
      · split at h
        · exact h
        · cases h
  · rw [Loader.read, fdLookup_not_open hopen] at h
    cases h
    exact absurd E_INVAL_neg (not_lt.mpr hr)

private theorem seek_inv {s t : Paging} {offset : BitVec 32} (h : s.seek e fdnum offset = some (r, t)) (hr : 0 ≤ r) :
    ∃ x, s.Open e fdnum ∧ s.maps e (fdPage fdnum) = some x ∧
      t = s.writeWord x.1 offOffset.toNat offset.toNat := by
  by_cases hopen : s.Open e fdnum
  · obtain ⟨x, hx⟩ := Option.isSome_iff_exists.mp hopen.2
    obtain ⟨hpage, hoff⟩ := field_toNat fdnum offOffset (by decide)
    rw [Paging.seek, fdLookup_open hopen] at h
    obtain ⟨u, hu, hut⟩ := Option.map_eq_some_iff.mp h
    cases hut
    refine ⟨x, hopen, hx, ?_⟩
    by_cases hw : x.2.val.toNat &&& PTE_W = 0
    · rw [Paging.storeWord, hpage, hx] at hu
      dsimp only at hu
      rw [if_pos hw] at hu
      cases hu
    · rw [storeWord_eq (hpage ▸ hx) hw, hoff] at hu
      exact (Option.some.inj hu).symm
  · rw [Paging.seek, fdLookup_not_open hopen] at h
    cases h
    exact absurd E_INVAL_neg (not_lt.mpr hr)

end Requests

/-- A buffer of `n` bytes, as `readn` sees it from state `s` on: `view` is what it holds, and a store changes no
page but those of `own`; it does not change page `q`. -/
structure IsBuffer (s : Loader) (q n : Nat) (store : Loader → Nat → Nat → (Nat → UInt8) → Option Loader)
    (view : Loader → Nat → UInt8) (own : Nat → Prop) : Prop where
  request : ∀ (t : Loader) w, view { t with
    requests := t.requests + 1
    toPaging := t.writeWord q offOffset.toNat w } = view t
  apart : ¬ own q
  maps : ∀ t u tot m bytes, store t tot m bytes = some u → u.maps = t.maps
  next : ∀ t u tot m bytes, store t tot m bytes = some u → u.next = t.next
  view : ∀ t u tot m bytes, t.maps = s.maps → tot + m ≤ n → store t tot m bytes = some u →
    view u = splice (view t) tot m bytes
  others : ∀ t u tot m bytes j, t.maps = s.maps → tot + m ≤ n → ¬ own j → store t tot m bytes = some u →
    u.data j = t.data j

/-- The first `m` bytes of the buffer are those of the file from `off` on, and the offset in page `q` is behind
them. -/
structure Filled (f : ProgramFile) (s t : Loader) (view : Loader → Nat → UInt8) (own : Nat → Prop) (q : Nat)
    (off : Int) (m : Nat) : Prop where
  maps : t.maps = s.maps
  next : t.next = s.next
  offset : (t.offset q).toInt = off + m
  view : view t = splice (view s) 0 m fun k => f.byte (off + k)
  others : ∀ j, j ≠ q → ¬ own j → t.data j = s.data j

theorem count_le (f : ProgramFile) (n : Nat) (off : Int) : f.count n off ≤ n := by
  rw [ProgramFile.count]
  split
  · exact Nat.zero_le n
  · exact min_le_left _ _

theorem lt_count_iff (f : ProgramFile) (n : Nat) (off : Int) (k : Nat) :
    k < f.count n off ↔ k < n ∧ off + k < f.size := by
  rw [ProgramFile.count]
  split <;> omega

private theorem count_rest (f : ProgramFile) (n : Nat) (off : Int) {tot : Nat} (h : tot ≤ f.count n off) :
    tot + f.count (n - tot) (off + tot) = f.count n off := by
  simp only [ProgramFile.count] at h ⊢
  split_ifs at h ⊢ <;> omega

private theorem toInt_add_ofNat {w : BitVec 32} {m : Nat} (h0 : 0 ≤ w.toInt) (h : w.toInt + m < 2 ^ 31) :
    (w + BitVec.ofInt 32 m).toInt = w.toInt + m := by
  rw [BitVec.toInt_add, BitVec.toInt_ofInt]
  simp only [Int.bmod]
  omega

section Filling

variable {f : ProgramFile} {s t u v : Loader} {e : Fin NENV} {fdnum : BitVec 32} {n m tot fuel : Nat}
  {off r : Int} {bytes : Nat → UInt8} {x : Nat × Rights}
  {store : Loader → Nat → Nat → (Nat → UInt8) → Option Loader} {view : Loader → Nat → UInt8} {own : Nat → Prop}

/-- A request at the end of what was read, and its bytes in the buffer. -/
theorem Filled.step (h : Filled f s t view own x.1 off tot) (hb : IsBuffer s x.1 n store view own)
    (hx : s.maps e (fdPage fdnum) = some x) (h0 : 0 ≤ off) (hend : off + n < 2 ^ 31) (htot : tot ≤ n)
    (hread : t.read f e fdnum (n - tot) = some (r, bytes, u)) (hr : 0 ≤ r)
    (hstore : store u tot r.toNat bytes = some v) :
    r = f.count (n - tot) (off + tot) ∧
      Filled f s v view own x.1 off (tot + f.count (n - tot) (off + tot)) := by
  obtain ⟨-, hread⟩ := read_inv hread hr
  obtain ⟨x', -, hx', hrest, hbytes, hu⟩ := devfileRead_inv hread hr
  have hxx : x' = x := by
    rw [h.maps] at hx'
    exact Option.some.inj (hx'.symm.trans hx)
  subst hxx
  have hbefore := h.offset
  rw [hbefore] at hrest hbytes
  have hcount := count_le f (n - tot) (off + tot)
  have hnat : r.toNat = f.count (n - tot) (off + tot) := by omega
  -- the request moves the offset and nothing else
  have hmaps : u.maps = s.maps := by
    rw [hu]
    exact h.maps
  have hnext : u.next = s.next := by
    rw [hu]
    exact h.next
  have hoffset : u.offset x'.1 = t.offset x'.1 + BitVec.ofInt 32 r := by
    rw [hu]
    exact Paging.offset_writeWord _ _ _
  have hview : view u = view t := by
    rw [hu]
    exact hb.request t _
  have hdata (j : Nat) (hj : j ≠ x'.1) : u.data j = t.data j := by
    rw [hu]
    exact Paging.data_writeWord hj _ _
  refine ⟨hrest, ?_, ?_, ?_, ?_, fun j hjq hjp => ?_⟩
  · exact (hb.maps u v tot r.toNat bytes hstore).trans hmaps
  · exact (hb.next u v tot r.toNat bytes hstore).trans hnext
  · have hstored : v.offset x'.1 = u.offset x'.1 := by
      rw [Paging.offset, hb.others u v tot r.toNat bytes x'.1 hmaps (by omega) hb.apart hstore, Paging.offset]
    rw [hstored, hoffset, hrest, toInt_add_ofNat (by omega) (by omega)]
    omega
  · rw [hb.view u v tot r.toNat bytes hmaps (by omega) hstore, hview, h.view, hnat, hbytes]
    have hjoin := splice_append (view s) (fun k => f.byte (off + k)) 0 tot (f.count (n - tot) (off + tot))
    rw [← hjoin, Nat.zero_add]
    congr 1
    funext k
    congr 1
    omega
  · rw [hb.others u v tot r.toNat bytes j hmaps (by omega) hjp hstore, hdata j hjq]
    exact h.others j hjq hjp

/-- The loop reads on to the end of what was asked for, or of the file. -/
theorem Filled.loop (h : Filled f s t view own x.1 off tot) (hb : IsBuffer s x.1 n store view own)
    (hx : s.maps e (fdPage fdnum) = some x) (h0 : 0 ≤ off) (hend : off + n < 2 ^ 31)
    (htot : tot ≤ f.count n off) (hloop : Loader.readnLoop f e fdnum store n fuel tot t = some (r, u)) (hr : 0 ≤ r) :
    r = f.count n off ∧ Filled f s u view own x.1 off (f.count n off) := by
  induction fuel generalizing tot t with
  | zero => cases hloop
  | succ fuel ih =>
    have hcount := count_le f n off
    rw [Loader.readnLoop] at hloop
    split at hloop
    · next hlt =>
      obtain ⟨⟨m, bytes, v⟩, hread, hloop⟩ := Option.bind_eq_some_iff.mp hloop
      dsimp only at hloop
      split at hloop
      · cases hloop
        omega
      · next hm =>
        obtain ⟨w, hstore, hloop⟩ := Option.bind_eq_some_iff.mp hloop
        obtain ⟨hmm, hstep⟩ := h.step hb hx h0 hend hlt.le hread (not_lt.mp hm) hstore
        have hrest := count_rest f n off htot
        have hnat : m.toNat = f.count (n - tot) (off + tot) := by omega
        rw [hrest] at hstep
        split at hloop
        · cases hloop
          exact ⟨by omega, hstep⟩
        · rw [hnat, hrest] at hloop
          exact ih hstep le_rfl hloop
    · next hge =>
      cases hloop
      have htot' : tot = f.count n off := by omega
      exact ⟨by rw [htot'], htot' ▸ h⟩

theorem readn_filled (hb : IsBuffer s x.1 n store view own) (hx : s.maps e (fdPage fdnum) = some x)
    (h0 : 0 ≤ (s.offset x.1).toInt) (hend : (s.offset x.1).toInt + n < 2 ^ 31)
    (h : s.readn f e fdnum store n = some (r, t)) (hr : 0 ≤ r) :
    r = f.count n (s.offset x.1).toInt ∧
      Filled f s t view own x.1 (s.offset x.1).toInt (f.count n (s.offset x.1).toInt) := by
  have hstart : Filled f s s view own x.1 (s.offset x.1).toInt 0 :=
    ⟨rfl, rfl, by simp, by simp, fun _ _ _ => rfl⟩
  exact hstart.loop hb hx h0 hend (Nat.zero_le _) h hr

end Filling

section Buffers

variable {f : ProgramFile} {s t : Loader} {e : Fin NENV} {fdnum va : BitVec 32} {n : Nat} {r : Int}
  {bytes : Nat → UInt8} {x y : Nat × Rights}

private theorem storeBytes_inv {s t : Paging} {x : Nat × Rights} (hx : s.maps e (PGNUM va.toNat) = some x)
    (h : s.storeBytes e va n bytes = some t) :
    t = { s with toSpaces := s.write x.1 (splice (s.data x.1) (va.toNat % PGSIZE) n bytes) } := by
  rw [Paging.storeBytes, hx] at h
  dsimp only at h
  split at h
  · next hn =>
    subst hn
    cases h
    simp [Spaces.write]
  · split at h
    · cases h
    · exact (Option.some.inj h).symm

theorem storeBytes_same {s t : Paging} (h : s.storeBytes e va n bytes = some t) :
    t.maps = s.maps ∧ t.next = s.next ∧ t.calls = s.calls := by
  rw [Paging.storeBytes] at h
  split at h
  · cases h
    exact ⟨rfl, rfl, rfl⟩
  · split at h
    · cases h
    · split at h
      · cases h
      · cases h
        exact ⟨rfl, rfl, rfl⟩

private theorem inPage_add (hva : va.toNat % PGSIZE = 0) {k : Nat} (hk : k < PGSIZE) :
    PGNUM (va + BitVec.ofNat 32 k).toNat = PGNUM va.toNat ∧ (va + BitVec.ofNat 32 k).toNat % PGSIZE = k := by
  rw [PGSIZE] at hva hk
  have hadd : (va + BitVec.ofNat 32 k).toNat = va.toNat + k := by bv_omega
  rw [hadd, PGNUM_eq, PGNUM_eq, PGSIZE]
  omega

private theorem toPage_inv {t : Loader} {c : Paging} {tot m : Nat} (hy : s.maps e (PGNUM va.toNat) = some y)
    (hva : va.toNat % PGSIZE = 0) (hn : n ≤ PGSIZE) (hmaps : t.maps = s.maps) (htot : tot + m ≤ n)
    (h : t.storeBytes e (va + BitVec.ofNat 32 tot) m bytes = some c) :
    c = { t.toPaging with toSpaces := t.write y.1 (splice (t.data y.1) tot m bytes) } := by
  by_cases hm : m = 0
  · subst hm
    rw [Paging.storeBytes, if_pos rfl] at h
    cases h
    simp [Spaces.write]
  · obtain ⟨hpage, hmod⟩ := inPage_add hva (k := tot) (by omega)
    have hc := storeBytes_inv (x := y) (by rw [hpage, hmaps]; exact hy) h
    rwa [hmod] at hc

private theorem isBuffer_toPage (hy : s.maps e (PGNUM va.toNat) = some y) (hne : y.1 ≠ x.1)
    (hva : va.toNat % PGSIZE = 0)
    (hn : n ≤ PGSIZE) : IsBuffer s x.1 n (Loader.toPage e va) (fun t => t.data y.1) (· = y.1) := by
  refine ⟨fun t w => Paging.data_writeWord hne _ _, hne.symm, ?_, ?_, ?_, ?_⟩
  · intro t u tot m bytes h
    obtain ⟨c, hc, rfl⟩ := Option.map_eq_some_iff.mp h
    exact (storeBytes_same hc).1
  · intro t u tot m bytes h
    obtain ⟨c, hc, rfl⟩ := Option.map_eq_some_iff.mp h
    exact (storeBytes_same hc).2.1
  · intro t u tot m bytes hmaps htot h
    obtain ⟨c, hc, rfl⟩ := Option.map_eq_some_iff.mp h
    obtain rfl := toPage_inv hy hva hn hmaps htot hc
    simp
  · intro t u tot m bytes j hmaps htot hj h
    obtain ⟨c, hc, rfl⟩ := Option.map_eq_some_iff.mp h
    obtain rfl := toPage_inv hy hva hn hmaps htot hc
    simp [Function.update_of_ne hj]

theorem isBuffer_toElfBuf (s : Loader) (q n : Nat) :
    IsBuffer s q n Loader.toElfBuf Loader.elfBuf fun _ => False := by
  refine ⟨fun _ _ => rfl, not_false, ?_, ?_, ?_, ?_⟩
  · intro t u tot m bytes h
    cases h
    rfl
  · intro t u tot m bytes h
    cases h
    rfl
  · intro t u tot m bytes _ _ h
    cases h
    rfl
  · intro t u tot m bytes j _ _ _ h
    cases h
    rfl

/-- `seek`, and then `readn` into a page that is not the one of the descriptor. -/
theorem seek_readn_page {c : Paging} {offset : BitVec 32} {r' : Int}
    (hy : s.maps e (PGNUM va.toNat) = some y)
    (hfd : ∀ x, InRange fdnum → s.maps e (fdPage fdnum) = some x → y.1 ≠ x.1)
    (hva : va.toNat % PGSIZE = 0) (h0 : 0 ≤ offset.toInt) (hend : offset.toInt + n < 2 ^ 31) (hn : n ≤ PGSIZE)
    (hseek : s.seek e fdnum offset = some (r, c)) (hr : 0 ≤ r)
    (h : Loader.readn f { s with toPaging := c } e fdnum (Loader.toPage e va) n = some (r', t)) (hr' : 0 ≤ r') :
    ∃ x, s.Open e fdnum ∧ s.maps e (fdPage fdnum) = some x ∧
      Filled f s t (fun u => u.data y.1) (· = y.1) x.1 offset.toInt (f.count n offset.toInt) := by
  obtain ⟨x, hopen, hx, rfl⟩ := seek_inv hseek hr
  have hne := hfd x hopen.1 hx
  have hoffset := Paging.offset_writeWord s.toPaging x.1 offset
  have hbuffer := isBuffer_toPage (s := { s with toPaging := s.writeWord x.1 offOffset.toNat offset.toNat })
    (n := n) hy hne hva hn
  obtain ⟨-, hfill⟩ := readn_filled hbuffer hx (by rw [hoffset]; exact h0) (by rw [hoffset]; exact hend) h hr'
  rw [hoffset] at hfill
  refine ⟨x, hopen, hx, hfill.maps, hfill.next, hfill.offset, ?_, fun j hjq hjp => ?_⟩
  · refine hfill.view.trans ?_
    rw [Paging.data_writeWord hne]
  · rw [hfill.others j hjq hjp, Paging.data_writeWord hjq]

end Buffers

end DamnOS.User
