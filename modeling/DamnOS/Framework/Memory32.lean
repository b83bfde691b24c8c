import Mathlib

/-!
# A flat memory of 32-bit addresses

Bytes at addresses that wrap around, and words of four bytes, the least significant first.
-/

namespace DamnOS.Framework

abbrev Memory32 : Type := BitVec 32 → UInt8

def littleEndian (w : BitVec 32) : List UInt8 :=
  (List.range 4).map fun i => UInt8.ofNat (w.toNat / 256 ^ i)

namespace Memory32

def storeBytes (m : Memory32) (a : BitVec 32) (bytes : List UInt8) : Memory32 :=
  fun x => (bytes[(x - a).toNat]?).getD (m x)

def store32 (m : Memory32) (a w : BitVec 32) : Memory32 := m.storeBytes a (littleEndian w)

def load32 (m : Memory32) (a : BitVec 32) : BitVec 32 :=
  BitVec.ofNat 32 ((m a).toNat + (m (a + 1)).toNat * 256 + (m (a + 2)).toNat * 65536
    + (m (a + 3)).toNat * 16777216)

variable {m m' : Memory32} {a b x : BitVec 32}

@[simp] theorem length_littleEndian (w : BitVec 32) : (littleEndian w).length = 4 := by
  simp [littleEndian]

theorem storeBytes_of_le {bytes : List UInt8} (h : bytes.length ≤ (x - a).toNat) :
    m.storeBytes a bytes x = m x := by
  rw [storeBytes, List.getElem?_eq_none h, Option.getD_none]

theorem store32_of_le {w : BitVec 32} (h : 4 ≤ (x - a).toNat) : m.store32 a w x = m x :=
  storeBytes_of_le (by simpa using h)

theorem load32_congr (h : ∀ x, (x - a).toNat < 4 → m x = m' x) : m.load32 a = m'.load32 a := by
  have h0 : m a = m' a := h a (by simp)
  have h1 : m (a + 1) = m' (a + 1) := h _ (by bv_omega)
  have h2 : m (a + 2) = m' (a + 2) := h _ (by bv_omega)
  have h3 : m (a + 3) = m' (a + 3) := h _ (by bv_omega)
  rw [load32, load32, h0, h1, h2, h3]

private theorem load32_of_bytes {w : BitVec 32} (h0 : m a = UInt8.ofNat w.toNat)
    (h1 : m (a + 1) = UInt8.ofNat (w.toNat / 256)) (h2 : m (a + 2) = UInt8.ofNat (w.toNat / 65536))
    (h3 : m (a + 3) = UInt8.ofNat (w.toNat / 16777216)) : m.load32 a = w := by
  have hw := w.isLt
  apply BitVec.eq_of_toNat_eq
  simp only [load32, h0, h1, h2, h3, UInt8.toNat_ofNat', BitVec.toNat_ofNat]
  omega

private theorem getElem?_words (ws : List (BitVec 32)) {i j : Nat} (hj : j < 4) (hi : i < ws.length) :
    (ws.flatMap littleEndian)[4 * i + j]? = some (UInt8.ofNat (ws[i].toNat / 256 ^ j)) := by
  induction ws generalizing i with
  | nil => simp at hi
  | cons w ws ih =>
    rw [List.flatMap_cons]
    cases i with
    | zero =>
      rw [List.getElem?_append_left (by simpa using hj)]
      simp [littleEndian, hj]
    | succ i =>
      have hle : (littleEndian w).length ≤ 4 * (i + 1) + j := by
        rw [length_littleEndian]
        omega
      have hidx : 4 * (i + 1) + j - (littleEndian w).length = 4 * i + j := by
        rw [length_littleEndian]
        omega
      rw [List.getElem?_append_right hle, hidx]
      simpa using ih (by simpa using hi)

theorem load32_storeBytes_words (m : Memory32) (a : BitVec 32) (ws : List (BitVec 32)) {i : Nat}
    (hi : i < ws.length) (hlen : ws.length < 2 ^ 30) :
    (m.storeBytes a (ws.flatMap littleEndian)).load32 (a + BitVec.ofNat 32 (4 * i)) = ws[i] := by
  have hbyte (j : Nat) (hj : j < 4) :
      m.storeBytes a (ws.flatMap littleEndian) (a + BitVec.ofNat 32 (4 * i) + BitVec.ofNat 32 j)
        = UInt8.ofNat (ws[i].toNat / 256 ^ j) := by
    have hidx : (a + BitVec.ofNat 32 (4 * i) + BitVec.ofNat 32 j - a).toNat = 4 * i + j := by
      bv_omega
    rw [storeBytes, hidx, getElem?_words ws hj hi]
    rfl
  apply load32_of_bytes
  · simpa using hbyte 0 (by decide)
  · simpa using hbyte 1 (by decide)
  · simpa using hbyte 2 (by decide)
  · simpa using hbyte 3 (by decide)

theorem load32_store32 (m : Memory32) (a w : BitVec 32) : (m.store32 a w).load32 a = w := by
  have h := load32_storeBytes_words m a [w] (i := 0) (by simp) (by simp)
  simpa [store32] using h

theorem load32_store32_of_le {w : BitVec 32} (hab : 4 ≤ (b - a).toNat) (hba : 4 ≤ (a - b).toNat) :
    (m.store32 a w).load32 b = m.load32 b := by
  apply load32_congr
  intro x hx
  exact store32_of_le (by bv_omega)

end Memory32

end DamnOS.Framework
