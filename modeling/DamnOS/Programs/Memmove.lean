import DamnOS.Framework.Copies

/-!
# `memmove`

The two versions of `string.c`: string instructions, which the kernel and the programs are built with, and loops over
bytes.
-/

namespace DamnOS.Programs

open DamnOS.Framework

/-- One `movs` of `size` bytes, which are read before they are written. -/
def movs (size : Nat) (edi esi : BitVec 32) (m : Nat → UInt8) : Nat → UInt8 := fun x =>
  if x < 2 ^ 32 ∧ (BitVec.ofNat 32 x - edi).toNat < size then m (esi + (BitVec.ofNat 32 x - edi)).toNat else m x

/-- `rep movs`, with the direction flag `df` and the count in `ecx`. -/
def repMovs (size : Nat) (df : Bool) : Nat → BitVec 32 → BitVec 32 → (Nat → UInt8) → Nat → UInt8
  | 0, _, _, m => m
  | ecx + 1, edi, esi, m =>
    repMovs size df ecx (if df then edi - BitVec.ofNat 32 size else edi + BitVec.ofNat 32 size)
      (if df then esi - BitVec.ofNat 32 size else esi + BitVec.ofNat 32 size) (movs size edi esi m)

def wordAligned (s d n : BitVec 32) : Bool :=
  s.toInt.tmod 4 = 0 && d.toInt.tmod 4 = 0 && n.toNat % 4 = 0

def copiesDown (s d n : BitVec 32) : Bool := s.toNat < d.toNat && d.toNat < (s + n).toNat

def memmoveAsm (m : Nat → UInt8) (dst src n : BitVec 32) : Nat → UInt8 :=
  if copiesDown src dst n then
    let s := src + n
    let d := dst + n
    if wordAligned s d n then repMovs 4 true (n.toNat / 4) (d - 4) (s - 4) m
    else repMovs 1 true n.toNat (d - 1) (s - 1) m
  else if wordAligned src dst n then repMovs 4 false (n.toNat / 4) dst src m
  else repMovs 1 false n.toNat dst src m

def copyDown : Nat → BitVec 32 → BitVec 32 → (Nat → UInt8) → Nat → UInt8
  | 0, _, _, m => m
  | n + 1, d, s, m => copyDown n (d - 1) (s - 1) (Function.update m (d - 1).toNat (m (s - 1).toNat))

def copyUp : Nat → BitVec 32 → BitVec 32 → (Nat → UInt8) → Nat → UInt8
  | 0, _, _, m => m
  | n + 1, d, s, m => copyUp n (d + 1) (s + 1) (Function.update m d.toNat (m s.toNat))

def memmoveC (m : Nat → UInt8) (dst src n : BitVec 32) : Nat → UInt8 :=
  if copiesDown src dst n then copyDown n.toNat (dst + n) (src + n) m else copyUp n.toNat dst src m

section Instructions

variable {m : Nat → UInt8} {size k d s : Nat} {edi esi : BitVec 32}

private theorem toNat_add_size (w : BitVec 32) (h : w.toNat + size < 2 ^ 32) :
    (w + BitVec.ofNat 32 size).toNat = w.toNat + size := by
  rw [BitVec.toNat_add, BitVec.toNat_ofNat]
  omega

private theorem toNat_sub_size (w : BitVec 32) (h : size ≤ w.toNat) :
    (w - BitVec.ofNat 32 size).toNat = w.toNat - size := by
  rw [BitVec.toNat_sub, BitVec.toNat_ofNat]
  omega

private theorem movs_moved (hd : edi.toNat + size ≤ 2 ^ 32) (hs : esi.toNat + size ≤ 2 ^ 32) :
    movs size edi esi m = moved m edi.toNat esi.toNat size := by
  funext x
  have hwhere : x < 2 ^ 32 → (BitVec.ofNat 32 x - edi).toNat = (2 ^ 32 - edi.toNat + x) % 2 ^ 32 := by
    intro hx
    rw [BitVec.toNat_sub, BitVec.toNat_ofNat, Nat.mod_eq_of_lt hx]
  rw [movs]
  by_cases hin : edi.toNat ≤ x ∧ x < edi.toNat + size
  · have hx : x < 2 ^ 32 := by omega
    have hoffset : (BitVec.ofNat 32 x - edi).toNat = x - edi.toNat := by
      rw [hwhere hx]
      omega
    rw [if_pos ⟨hx, by omega⟩, moved_inside m _ hin, BitVec.toNat_add, hoffset]
    congr 1
    exact Nat.mod_eq_of_lt (by omega)
  · rw [moved_outside m _ (by omega)]
    apply if_neg
    rintro ⟨hx, hlt⟩
    rw [hwhere hx] at hlt
    have hedi := edi.isLt
    omega

private theorem repMovs_up (hsize : 0 < size) (hd : edi.toNat + size * k ≤ 2 ^ 32) (hs : esi.toNat + size * k ≤ 2 ^ 32)
    (h : edi.toNat ≤ esi.toNat ∨ esi.toNat + size * k ≤ edi.toNat) :
    repMovs size false k edi esi m = moved m edi.toNat esi.toNat (size * k) := by
  induction k generalizing edi esi m with
  | zero => rw [repMovs, Nat.mul_zero, moved_zero]
  | succ k ih =>
    rw [Nat.mul_succ] at hd hs h
    rw [repMovs, movs_moved (by omega) (by omega), if_neg Bool.false_ne_true, if_neg Bool.false_ne_true]
    cases k with
    | zero => rw [repMovs, Nat.zero_add, Nat.mul_one]
    | succ k =>
      have hpos : 0 < size * (k + 1) := Nat.mul_pos hsize (Nat.succ_pos k)
      have hedi := @toNat_add_size size edi (by omega)
      have hesi := @toNat_add_size size esi (by omega)
      rw [ih (by omega) (by omega) (by omega), hedi, hesi, moved_up (by omega), Nat.add_comm size, ← Nat.mul_succ]

private theorem repMovs_down (hedi : 0 < k → edi.toNat + size = d + size * k)
    (hesi : 0 < k → esi.toNat + size = s + size * k) (hd : d + size * k ≤ 2 ^ 32) (h : s ≤ d) :
    repMovs size true k edi esi m = moved m d s (size * k) := by
  induction k generalizing edi esi m with
  | zero => rw [repMovs, Nat.mul_zero, moved_zero]
  | succ k ih =>
    have hlastd := hedi (Nat.succ_pos k)
    have hlasts := hesi (Nat.succ_pos k)
    rw [Nat.mul_succ] at hlastd hlasts hd
    have hplaced : edi.toNat = d + size * k := by omega
    have hplaces : esi.toNat = s + size * k := by omega
    have hnext (w : BitVec 32) {p : Nat} (hw : w.toNat = p + size * k) (hk : 0 < k) :
        (w - BitVec.ofNat 32 size).toNat + size = p + size * k := by
      have hle : size ≤ size * k := Nat.le_mul_of_pos_right size hk
      rw [toNat_sub_size w (by omega)]
      omega
    rw [repMovs, movs_moved (by omega) (by omega), if_pos rfl, if_pos rfl,
      ih (hnext edi hplaced) (hnext esi hplaces) (by omega), hplaced, hplaces, moved_down (Or.inl h), ← Nat.mul_succ]

private theorem movs_one (edi esi : BitVec 32) (m : Nat → UInt8) :
    movs 1 edi esi m = Function.update m edi.toNat (m esi.toNat) := by
  have hedi := edi.isLt
  have hesi := esi.isLt
  rw [movs_moved (by omega) (by omega)]
  funext x
  by_cases hx : x = edi.toNat
  · rw [hx, Function.update_self, moved_inside m _ (by omega), Nat.sub_self, Nat.add_zero]
  · rw [Function.update_of_ne hx, moved_outside m _ (by omega)]

private theorem copyUp_eq (n : Nat) (d s : BitVec 32) (m : Nat → UInt8) : copyUp n d s m = repMovs 1 false n d s m := by
  induction n generalizing d s m with
  | zero => rfl
  | succ n ih =>
    rw [copyUp, ih, repMovs, movs_one]
    rfl

private theorem copyDown_eq (n : Nat) (d s : BitVec 32) (m : Nat → UInt8) :
    copyDown n d s m = repMovs 1 true n (d - 1) (s - 1) m := by
  induction n generalizing d s m with
  | zero => rfl
  | succ n ih =>
    rw [copyDown, ih, repMovs, movs_one]
    rfl

end Instructions

section Direction

variable {dst src n : BitVec 32} {m : Nat → UInt8}

private theorem copiesDown_iff (hdst : dst.toNat + n.toNat ≤ 2 ^ 32) :
    copiesDown src dst n = true ↔ src.toNat < dst.toNat ∧ dst.toNat < src.toNat + n.toNat := by
  have hsum : src.toNat < dst.toNat → (src + n).toNat = src.toNat + n.toNat := by
    intro hlt
    rw [BitVec.toNat_add, Nat.mod_eq_of_lt (by omega)]
  simp only [copiesDown, Bool.and_eq_true, decide_eq_true_eq]
  constructor
  · rintro ⟨hlt, h⟩
    rw [hsum hlt] at h
    exact ⟨hlt, h⟩
  · rintro ⟨hlt, h⟩
    rw [hsum hlt]
    exact ⟨hlt, h⟩

private theorem wordAligned_iff (s d n : BitVec 32) :
    wordAligned s d n = true ↔ s.toNat % 4 = 0 ∧ d.toNat % 4 = 0 ∧ n.toNat % 4 = 0 := by
  have hmod (w : BitVec 32) : w.toInt.tmod 4 = 0 ↔ w.toNat % 4 = 0 := by
    rw [← Int.dvd_iff_tmod_eq_zero, BitVec.toInt_eq_toNat_cond]
    split <;> omega
  simp only [wordAligned, Bool.and_eq_true, decide_eq_true_eq, hmod, and_assoc]

private theorem wordAligned_ends (src dst n : BitVec 32) : wordAligned (src + n)
    (dst + n) n = wordAligned src dst n := by
  rw [Bool.eq_iff_iff, wordAligned_iff, wordAligned_iff, BitVec.toNat_add, BitVec.toNat_add]
  omega

private theorem down_moved (hsrc : src.toNat + n.toNat ≤ 2 ^ 32) (hdst : dst.toNat + n.toNat ≤ 2 ^ 32)
    (hdown : copiesDown src dst n = true) {size k : Nat} (hpos : 0 < size) (hsize : n.toNat = size * k) :
    repMovs size true k (dst + n - BitVec.ofNat 32 size) (src + n - BitVec.ofNat 32 size) m =
      moved m dst.toNat src.toNat n.toNat := by
  have hlt := ((copiesDown_iff hdst).mp hdown).1
  have hend (w : BitVec 32) (hw : w.toNat + n.toNat ≤ 2 ^ 32) (hk : 0 < k) :
      (w + n - BitVec.ofNat 32 size).toNat + size = w.toNat + size * k := by
    have hle : size ≤ size * k := Nat.le_mul_of_pos_right size hk
    have hsmall := n.isLt
    rw [BitVec.toNat_sub, BitVec.toNat_add, BitVec.toNat_ofNat]
    omega
  rw [repMovs_down (hend dst hdst) (hend src hsrc) (by omega) (by omega), hsize]

private theorem up_moved (hsrc : src.toNat + n.toNat ≤ 2 ^ 32) (hdst : dst.toNat + n.toNat ≤ 2 ^ 32)
    (hup : ¬copiesDown src dst n = true) {size k : Nat} (hpos : 0 < size) (hsize : n.toNat = size * k) :
    repMovs size false k dst src m = moved m dst.toNat src.toNat n.toNat := by
  rw [copiesDown_iff hdst] at hup
  rw [repMovs_up hpos (by omega) (by omega) (by omega), hsize]

theorem memmoveAsm_eq (hsrc : src.toNat + n.toNat ≤ 2 ^ 32) (hdst : dst.toNat + n.toNat ≤ 2 ^ 32) :
    memmoveAsm m dst src n = moved m dst.toNat src.toNat n.toNat := by
  have hwords (h : wordAligned src dst n = true) : n.toNat = 4 * (n.toNat / 4) := by
    have hmod := ((wordAligned_iff src dst n).mp h).2.2
    omega
  have hbytes : n.toNat = 1 * n.toNat := (Nat.one_mul _).symm
  rw [memmoveAsm]
  by_cases hdown : copiesDown src dst n = true
  · rw [if_pos hdown]
    dsimp only
    rw [wordAligned_ends]
    by_cases haligned : wordAligned src dst n = true
    · rw [if_pos haligned]
      exact down_moved hsrc hdst hdown (by decide) (hwords haligned)
    · rw [if_neg haligned]
      exact down_moved hsrc hdst hdown (by decide) hbytes
  · rw [if_neg hdown]
    by_cases haligned : wordAligned src dst n = true
    · rw [if_pos haligned]
      exact up_moved hsrc hdst hdown (by decide) (hwords haligned)
    · rw [if_neg haligned]
      exact up_moved hsrc hdst hdown (by decide) hbytes

private theorem memmoveC_eq (hsrc : src.toNat + n.toNat ≤ 2 ^ 32) (hdst : dst.toNat + n.toNat ≤ 2 ^ 32) :
    memmoveC m dst src n = moved m dst.toNat src.toNat n.toNat := by
  have hbytes : n.toNat = 1 * n.toNat := (Nat.one_mul _).symm
  rw [memmoveC]
  by_cases hdown : copiesDown src dst n = true
  · rw [if_pos hdown, copyDown_eq]
    exact down_moved hsrc hdst hdown (by decide) hbytes
  · rw [if_neg hdown, copyUp_eq]
    exact up_moved hsrc hdst hdown (by decide) hbytes

end Direction

/-- `memmove` leaves the old source at the destination and nothing else different, with string instructions or loops,
in words or in bytes. -/
theorem memmove_spec (m : Nat → UInt8) (dst src n : BitVec 32) (hsrc : src.toNat + n.toNat ≤ 2 ^ 32)
    (hdst : dst.toNat + n.toNat ≤ 2 ^ 32) :
    (∀ i < n.toNat, memmoveAsm m dst src n (dst.toNat + i) = m (src.toNat + i)) ∧
    (∀ x, x < dst.toNat ∨ dst.toNat + n.toNat ≤ x → memmoveAsm m dst src n x = m x) ∧
    memmoveC m dst src n = memmoveAsm m dst src n ∧
    (src.toNat % 4 = 0 → dst.toNat % 4 = 0 → n.toNat % 4 = 0 →
      (copiesDown src dst n = true → repMovs 4 true (n.toNat / 4) (dst + n - 4) (src + n - 4) m =
        repMovs 1 true n.toNat (dst + n - 1) (src + n - 1) m) ∧
      (¬copiesDown src dst n = true → repMovs 4 false (n.toNat / 4) dst src m = repMovs 1 false n.toNat dst src m)) := by
  have hasm := memmoveAsm_eq (m := m) hsrc hdst
  refine ⟨?_, ?_, (memmoveC_eq hsrc hdst).trans hasm.symm, ?_⟩
  · intro i hi
    rw [hasm]
    exact moved_get m _ _ hi
  · intro x hx
    rw [hasm]
    exact moved_outside m _ hx
  · intro _ _ hn
    have hwords : n.toNat = 4 * (n.toNat / 4) := by omega
    have hbytes : n.toNat = 1 * n.toNat := (Nat.one_mul _).symm
    constructor
    · intro hdown
      exact (down_moved hsrc hdst hdown (by decide) hwords).trans (down_moved hsrc hdst hdown (by decide) hbytes).symm
    · intro hup
      exact (up_moved hsrc hdst hup (by decide) hwords).trans (up_moved hsrc hdst hup (by decide) hbytes).symm

/-- Eight bytes, four places up. -/
theorem memmove_sample :
    (∀ i < (8 : BitVec 32).toNat, memmoveAsm (fun x => UInt8.ofNat x) 104 100 8 ((104 : BitVec 32).toNat + i) =
      UInt8.ofNat ((100 : BitVec 32).toNat + i)) ∧
    (∀ x, x < (104 : BitVec 32).toNat ∨ (104 : BitVec 32).toNat + (8 : BitVec 32).toNat ≤ x →
      memmoveAsm (fun x => UInt8.ofNat x) 104 100 8 x = UInt8.ofNat x) ∧
    memmoveC (fun x => UInt8.ofNat x) 104 100 8 = memmoveAsm (fun x => UInt8.ofNat x) 104 100 8 ∧
    ((100 : BitVec 32).toNat % 4 = 0 → (104 : BitVec 32).toNat % 4 = 0 → (8 : BitVec 32).toNat % 4 = 0 →
      (copiesDown 100 104 8 = true →
        repMovs 4 true ((8 : BitVec 32).toNat / 4) (104 + 8 - 4) (100 + 8 - 4) (fun x => UInt8.ofNat x) =
          repMovs 1 true (8 : BitVec 32).toNat (104 + 8 - 1) (100 + 8 - 1) fun x => UInt8.ofNat x) ∧
      (¬copiesDown 100 104 8 = true →
        repMovs 4 false ((8 : BitVec 32).toNat / 4) 104 100 (fun x => UInt8.ofNat x) =
          repMovs 1 false (8 : BitVec 32).toNat 104 100 fun x => UInt8.ofNat x)) :=
  memmove_spec (fun x => UInt8.ofNat x) 104 100 8 (by decide) (by decide)

end DamnOS.Programs
