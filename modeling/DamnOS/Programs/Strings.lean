import DamnOS.Framework.Copies
import DamnOS.Framework.CStrings

/-!
# Comparing and copying strings

`strcmp`, `strncmp` and `memcmp` of `string.c` order texts by their bytes, and the functions that copy strings stay in
the bytes that are meant for them.
-/

namespace DamnOS.Programs.Strings

open DamnOS.Framework

def strcmp : Nat → (Nat → UInt8) → Nat → Nat → Option Int
  | 0, _, _, _ => none
  | fuel + 1, m, p, q =>
    if m p ≠ 0 ∧ m p = m q then strcmp fuel m (p + 1) (q + 1) else some (((m p).toNat : Int) - (m q).toNat)

def strncmp (m : Nat → UInt8) : Nat → Nat → Nat → Int
  | 0, _, _ => 0
  | n + 1, p, q => if m p ≠ 0 ∧ m p = m q then strncmp m n (p + 1) (q + 1) else ((m p).toNat : Int) - (m q).toNat

def memcmp (m : Nat → UInt8) : Nat → Nat → Nat → Int
  | 0, _, _ => 0
  | n + 1, p, q => if m p ≠ m q then ((m p).toNat : Int) - (m q).toNat else memcmp m n (p + 1) (q + 1)

def strlen : Nat → (Nat → UInt8) → Nat → Option Nat
  | 0, _, _ => none
  | fuel + 1, m, s => if m s ≠ 0 then (strlen fuel m (s + 1)).map (· + 1) else some 0

def strcpy : Nat → (Nat → UInt8) → Nat → Nat → Option (Nat → UInt8)
  | 0, _, _, _ => none
  | fuel + 1, m, dst, src =>
    if m src ≠ 0 then strcpy fuel (Function.update m dst (m src)) (dst + 1) (src + 1)
    else some (Function.update m dst (m src))

def strcat (fuel : Nat) (m : Nat → UInt8) (dst src : Nat) : Option (Nat → UInt8) := do
  let len ← strlen fuel m dst
  strcpy fuel m (dst + len) src

def strncpy : Nat → (Nat → UInt8) → Nat → Nat → Nat → UInt8
  | 0, m, _, _ => m
  | size + 1, m, dst, src =>
    let m := Function.update m dst (m src)
    strncpy size m (dst + 1) (if m src ≠ 0 then src + 1 else src)

/-- The loop of `strlcpy`, with `dst` behind it. -/
def strlcpyLoop : Nat → (Nat → UInt8) → Nat → Nat → (Nat → UInt8) × Nat
  | 0, m, dst, _ => (m, dst)
  | size + 1, m, dst, src =>
    if m src ≠ 0 then strlcpyLoop size (Function.update m dst (m src)) (dst + 1) (src + 1) else (m, dst)

/-- `strlcpy`, with the memory it leaves and the value it returns. -/
def strlcpy (size : Nat) (m : Nat → UInt8) (dst src : Nat) : (Nat → UInt8) × Nat :=
  if 0 < size then
    let r := strlcpyLoop (size - 1) m dst src
    (Function.update r.1 r.2 0, r.2 - dst)
  else (m, 0)

/-- The sign of `r` is the lexicographic order of `l` and `l'`. -/
def Orders (r : Int) (l l' : List UInt8) : Prop := (r < 0 ↔ l < l') ∧ (r = 0 ↔ l = l') ∧ (0 < r ↔ l' < l)

/-- The characters in front of the first difference. -/
def commonPrefix : List UInt8 → List UInt8 → List UInt8
  | c :: l, d :: l' => if c = d then c :: commonPrefix l l' else []
  | _, _ => []

section Comparisons

variable {m : Nat → UInt8} {p q fuel : Nat} {l l' : List UInt8} {c d : UInt8} {r : Int}

private theorem orders_cons (h : Orders r l l') (c : UInt8) : Orders r (c :: l) (c :: l') := by
  simpa [Orders, List.cons_lt_cons_iff] using h

private theorem orders_bytes (hcd : c ≠ d) (l l' : List UInt8) : Orders (c.toNat - d.toNat) (c :: l) (d :: l') := by
  have hne : c.toNat ≠ d.toNat := fun heq => hcd (UInt8.toNat_inj.mp heq)
  simp only [Orders, List.cons_lt_cons_iff, UInt8.lt_iff_toNat_lt, List.cons.injEq]
  refine ⟨?_, ?_, ?_⟩
  · constructor
    · intro hlt
      exact .inl (by omega)
    · rintro (hlt | ⟨heq, -⟩)
      · omega
      · exact absurd heq hcd
  · exact iff_of_false (by omega) fun heq => hcd heq.1
  · constructor
    · intro hlt
      exact .inl (by omega)
    · rintro (hlt | ⟨heq, -⟩)
      · omega
      · exact absurd heq.symm hcd

private theorem orders_nil : Orders 0 [] [] := by simp [Orders]

private theorem orders_nil_cons (hd : d ≠ 0) (l' : List UInt8) : Orders ((0 : UInt8).toNat - d.toNat) [] (d :: l') := by
  have hpos : d.toNat ≠ 0 := fun heq => hd (UInt8.toNat_inj.mp heq)
  simp only [Orders, UInt8.toNat_zero, List.nil_lt_cons, List.not_lt_nil, List.nil_eq, List.cons_ne_nil, iff_true,
    iff_false]
  omega

private theorem orders_cons_nil (hc : c ≠ 0) (l : List UInt8) : Orders (c.toNat - (0 : UInt8).toNat) (c :: l) [] := by
  have hpos : c.toNat ≠ 0 := fun heq => hc (UInt8.toNat_inj.mp heq)
  simp only [Orders, UInt8.toNat_zero, List.nil_lt_cons, List.not_lt_nil, List.cons_ne_nil, iff_true, iff_false]
  omega

private theorem strcmp_stop (hstop : ¬ (m p ≠ 0 ∧ m p = m q)) (hf : 0 < fuel) :
    strcmp fuel m p q = some (((m p).toNat : Int) - (m q).toNat) := by
  obtain ⟨fuel, rfl⟩ := Nat.exists_eq_add_one_of_ne_zero (Nat.ne_of_gt hf)
  exact if_neg hstop

private theorem strcmp_orders (h : StringAt m p l) (h' : StringAt m q l') :
    ∃ r, Orders r l l' ∧ ∀ fuel > (commonPrefix l l').length, strcmp fuel m p q = some r := by
  induction l generalizing l' p q with
  | nil =>
    have hend : m p = 0 := h
    refine ⟨_, ?_, fun fuel hf => strcmp_stop (fun hgo => hgo.1 hend) (Nat.zero_lt_of_lt hf)⟩
    rw [hend]
    cases l' with
    | nil =>
      have hend' : m q = 0 := h'
      rw [hend']
      exact orders_nil
    | cons d l' =>
      rw [h'.1]
      exact orders_nil_cons h'.2.1 l'
  | cons c l ih =>
    obtain ⟨hc, hne, hrest⟩ := h
    by_cases hcd : m q = c
    · cases l' with
      | nil =>
        have hend' : m q = 0 := h'
        exact absurd (hcd.symm.trans hend') hne
      | cons d l' =>
        obtain ⟨hd, -, hrest'⟩ := h'
        obtain ⟨r, horder, hr⟩ := ih hrest hrest'
        rw [← hcd.symm.trans hd]
        refine ⟨r, orders_cons horder c, fun fuel hf => ?_⟩
        obtain ⟨fuel, rfl⟩ := Nat.exists_eq_add_one_of_ne_zero (Nat.ne_of_gt (Nat.zero_lt_of_lt hf))
        rw [commonPrefix, if_pos rfl, List.length_cons] at hf
        rw [strcmp, if_pos ⟨by rw [hc]; exact hne, hc.trans hcd.symm⟩]
        exact hr fuel (Nat.lt_of_succ_lt_succ hf)
    · refine ⟨_, ?_, fun fuel hf => strcmp_stop (fun hgo => hcd (hgo.2.symm.trans hc)) (Nat.zero_lt_of_lt hf)⟩
      rw [hc]
      cases l' with
      | nil =>
        have hend' : m q = 0 := h'
        rw [hend']
        exact orders_cons_nil hne l
      | cons d l' =>
        rw [h'.1] at hcd ⊢
        exact orders_bytes (Ne.symm hcd) l l'

private theorem strncmp_orders (h : StringAt m p l) (h' : StringAt m q l') (n : Nat) :
    Orders (strncmp m n p q) (l.take n) (l'.take n) := by
  induction n generalizing l l' p q with
  | zero => exact orders_nil
  | succ n ih =>
    rw [strncmp]
    cases l with
    | nil =>
      have hend : m p = 0 := h
      rw [if_neg (fun hc => hc.1 hend), hend]
      cases l' with
      | nil =>
        have hend' : m q = 0 := h'
        rw [hend']
        exact orders_nil
      | cons d l' =>
        rw [h'.1]
        exact orders_nil_cons h'.2.1 _
    | cons c l =>
      obtain ⟨hc, hne, hrest⟩ := h
      rw [hc]
      cases l' with
      | nil =>
        have hend' : m q = 0 := h'
        rw [hend', if_neg (fun hboth => hne hboth.2)]
        exact orders_cons_nil hne _
      | cons d l' =>
        obtain ⟨hd, -, hrest'⟩ := h'
        rw [hd]
        by_cases hcd : c = d
        · subst hcd
          rw [if_pos ⟨hne, rfl⟩]
          exact orders_cons (ih hrest hrest') c
        · rw [if_neg (fun hboth => hcd hboth.2)]
          exact orders_bytes hcd _ _

private theorem bytesAt_tail (h : BytesAt m p (c :: l)) : BytesAt m (p + 1) l := by
  intro i hi
  have hi' := h (i + 1) (Nat.succ_lt_succ hi)
  rwa [← Nat.add_assoc, Nat.add_right_comm] at hi'

private theorem memcmp_orders (h : BytesAt m p l) (h' : BytesAt m q l') (hlen : l'.length = l.length) :
    Orders (memcmp m l.length p q) l l' := by
  induction l generalizing l' p q with
  | nil =>
    rw [List.length_nil, List.length_eq_zero_iff] at hlen
    rw [hlen]
    exact orders_nil
  | cons c l ih =>
    cases l' with
    | nil => cases hlen
    | cons d l' =>
      have hc : m p = c := h 0 (Nat.succ_pos _)
      have hd : m q = d := h' 0 (Nat.succ_pos _)
      rw [List.length_cons, memcmp, hc, hd]
      by_cases hcd : c = d
      · subst hcd
        rw [if_neg (not_not.mpr rfl)]
        exact orders_cons (ih (bytesAt_tail h) (bytesAt_tail h') (by simpa using hlen)) c
      · rw [if_pos hcd]
        exact orders_bytes hcd l l'

end Comparisons

/-- `strcmp`, `strncmp` and `memcmp` return the lexicographic order: of two strings, of their first `n` characters,
and of two runs of bytes.  `strcmp` is at its end when it meets the first difference. -/
theorem comparisons_order (m : Nat → UInt8) (p q : Nat) (l l' : List UInt8) :
    (StringAt m p l → StringAt m q l' →
      (∃ r, Orders r l l' ∧ ∀ fuel > (commonPrefix l l').length, strcmp fuel m p q = some r) ∧
        ∀ n, Orders (strncmp m n p q) (l.take n) (l'.take n)) ∧
      (BytesAt m p l → BytesAt m q l' → l'.length = l.length → Orders (memcmp m l.length p q) l l') := by
  constructor
  · intro h h'
    exact ⟨strcmp_orders h h', strncmp_orders h h'⟩
  · exact memcmp_orders

theorem comparisons_order_sample : (∃ r, Orders r [97, 98] [97, 99] ∧
    ∀ fuel > 1, strcmp fuel (memoryOf [97, 98, 0, 97, 99]) 0 3 = some r) ∧
    Orders (memcmp (memoryOf [97, 98, 0, 97, 99]) 2 0 3) [97, 98] [97, 99] := by
  have h := comparisons_order (memoryOf [97, 98, 0, 97, 99]) 0 3 [97, 98] [97, 99]
  have hleft : StringAt (memoryOf [97, 98, 0, 97, 99]) 0 [97, 98] := by simp [memoryOf]
  have hright : StringAt (memoryOf [97, 98, 0, 97, 99]) 3 [97, 99] := by simp [memoryOf]
  exact ⟨(h.1 hleft hright).1, h.2 hleft.bytesAt hright.bytesAt rfl⟩

example : strncmp (memoryOf [97, 98, 0, 97, 99]) 1 0 3 = 0 := by decide

section Copies

variable {m : Nat → UInt8} {dst src fuel size : Nat} {l l₀ : List UInt8}

private theorem moved_one (m : Nat → UInt8) (dst src : Nat) : moved m dst src 1 = Function.update m dst (m src) := by
  funext x
  by_cases hx : x = dst
  · rw [hx, Function.update_self, moved_inside m src (by omega), Nat.sub_self, Nat.add_zero]
  · rw [Function.update_of_ne hx, moved_outside m src (by omega)]

private theorem strlen_eq (h : StringAt m src l) (hf : l.length < fuel) : strlen fuel m src = some l.length := by
  induction l generalizing src fuel with
  | nil =>
    obtain ⟨fuel, rfl⟩ := Nat.exists_eq_add_one_of_ne_zero (Nat.ne_of_gt hf)
    exact if_neg (not_not.mpr h)
  | cons c l ih =>
    obtain ⟨fuel, rfl⟩ := Nat.exists_eq_add_one_of_ne_zero (Nat.ne_of_gt (Nat.zero_lt_of_lt hf))
    rw [strlen, h.1, if_pos h.2.1, ih h.2.2 (by simpa using hf)]
    rfl

private theorem strcpy_eq (h : StringAt m src l) (hapart : dst ≤ src ∨ src + l.length < dst) (hf : l.length < fuel) :
    strcpy fuel m dst src = some (moved m dst src (l.length + 1)) := by
  induction l generalizing m dst src fuel with
  | nil =>
    obtain ⟨fuel, rfl⟩ := Nat.exists_eq_add_one_of_ne_zero (Nat.ne_of_gt hf)
    have hend : m src = 0 := h
    rw [strcpy, if_neg (not_not.mpr hend), List.length_nil, moved_one]
  | cons c l ih =>
    obtain ⟨fuel, rfl⟩ := Nat.exists_eq_add_one_of_ne_zero (Nat.ne_of_gt (Nat.zero_lt_of_lt hf))
    obtain ⟨hc, hne, hrest⟩ := h
    rw [List.length_cons] at hapart hf
    have hnext : StringAt (moved m dst src 1) (src + 1) l :=
      hrest.congr fun x hx hx' => moved_outside m src (by omega)
    have hup := @moved_up m dst src 1 (l.length + 1) (by omega)
    rw [strcpy, if_pos (by rw [hc]; exact hne), ← moved_one, ih hnext (by omega) (by omega), hup, List.length_cons,
      Nat.add_comm 1]

private theorem strlcpyLoop_eq (h : StringAt m src l) (hapart : dst ≤ src ∨ src + l.length < dst) (n : Nat) :
    strlcpyLoop n m dst src = (moved m dst src (min n l.length), dst + min n l.length) := by
  induction n generalizing l m dst src with
  | zero => rw [strlcpyLoop, Nat.zero_min, moved_zero, Nat.add_zero]
  | succ n ih =>
    rw [strlcpyLoop]
    cases l with
    | nil =>
      have hend : m src = 0 := h
      rw [if_neg (not_not.mpr hend), List.length_nil, Nat.min_zero, moved_zero, Nat.add_zero]
    | cons c l =>
      obtain ⟨hc, hne, hrest⟩ := h
      rw [List.length_cons] at hapart
      have hnext : StringAt (moved m dst src 1) (src + 1) l :=
        hrest.congr fun x hx hx' => moved_outside m src (by omega)
      have hup := @moved_up m dst src 1 (min n l.length) (by omega)
      rw [if_pos (by rw [hc]; exact hne), ← moved_one, ih hnext (by omega), hup, List.length_cons,
        Nat.add_min_add_right, Nat.add_comm 1, Nat.add_assoc, Nat.add_comm 1]

private theorem strlcpy_zero (m : Nat → UInt8) (dst src : Nat) : strlcpy 0 m dst src = (m, 0) := rfl

private theorem strlcpy_eq (h : StringAt m src l) (hapart : dst ≤ src ∨ src + l.length < dst) (hsize : 0 < size) :
    strlcpy size m dst src =
      (Function.update (moved m dst src (min (size - 1) l.length)) (dst + min (size - 1) l.length) 0,
        min (size - 1) l.length) := by
  rw [strlcpy, if_pos hsize, strlcpyLoop_eq h hapart]
  exact congrArg (Prod.mk _) (Nat.add_sub_cancel_left _ _)

private theorem stringAt_zero (h : StringAt m src l) : m (src + l.length) = 0 := by
  rw [← List.append_nil l] at h
  exact h.append

private theorem stringAt_take {k : Nat} {m' : Nat → UInt8} (h : StringAt m src l) (hk : k ≤ l.length)
    (hinside : ∀ i < k, m' (dst + i) = m (src + i)) (hend : m' (dst + k) = 0) : StringAt m' dst (l.take k) := by
  have hbytes := h.bytesAt
  apply BytesAt.stringAt
  · intro i hi
    rw [List.length_take] at hi
    rw [hinside i (by omega), hbytes i (by omega)]
    simp
  · intro hmem
    exact h.zero_not_mem (List.mem_of_mem_take hmem)
  · rw [List.length_take, Nat.min_eq_left hk]
    exact hend

private theorem stringAt_copied (h : StringAt m src l) : StringAt (moved m dst src (l.length + 1)) dst l := by
  have hend : moved m dst src (l.length + 1) (dst + l.length) = 0 := by
    rw [moved_get _ _ _ (Nat.lt_succ_self _)]
    exact stringAt_zero h
  have hall := stringAt_take h le_rfl (fun i hi => moved_get m dst src (Nat.lt_succ_of_lt hi)) hend
  rwa [List.take_length] at hall

private theorem stringAt_append {m' : Nat → UInt8} (h : StringAt m dst l₀) (hrest : StringAt m' (dst + l₀.length) l)
    (hm : ∀ x, x < dst + l₀.length → m' x = m x) : StringAt m' dst (l₀ ++ l) := by
  induction l₀ generalizing dst with
  | nil => exact hrest
  | cons c l₀ ih =>
    obtain ⟨hc, hne, htail⟩ := h
    have hlen : dst + (c :: l₀).length = dst + 1 + l₀.length := by
      rw [List.length_cons]
      omega
    rw [hlen] at hrest hm
    exact ⟨(hm dst (by omega)).trans hc, hne, ih htail hrest hm⟩

private theorem strncpy_eq (h : StringAt m src l) (hapart : dst ≤ src ∨ src + l.length < dst) :
    (∀ i < size, strncpy size m dst src (dst + i) = l.getD i 0) ∧
      ∀ x, x < dst ∨ dst + size ≤ x → strncpy size m dst src x = m x := by
  induction size generalizing l m dst src with
  | zero => exact ⟨fun i hi => absurd hi (Nat.not_lt_zero i), fun _ _ => rfl⟩
  | succ size ih =>
    have hkept : Function.update m dst (m src) src = m src := by
      by_cases heq : src = dst
      · rw [heq, Function.update_self]
      · exact Function.update_of_ne heq _ _
    have hstring : StringAt (Function.update m dst (m src)) (if m src ≠ 0 then src + 1 else src) l.tail ∧
        l.headD 0 = m src ∧ (dst + 1 ≤ (if m src ≠ 0 then src + 1 else src) ∨
          (if m src ≠ 0 then src + 1 else src) + l.tail.length < dst + 1) := by
      cases l with
      | nil =>
        have hend : m src = 0 := h
        rw [if_neg (not_not.mpr hend)]
        refine ⟨hkept.trans hend, hend.symm, ?_⟩
        rw [List.length_nil] at hapart
        rw [List.tail_nil, List.length_nil]
        omega
      | cons c l =>
        obtain ⟨hc, hne, hrest⟩ := h
        rw [List.length_cons] at hapart
        rw [if_pos (by rw [hc]; exact hne)]
        refine ⟨hrest.congr fun x hx hx' => Function.update_of_ne (by omega) _ _, hc.symm, ?_⟩
        rw [List.tail_cons]
        omega
    obtain ⟨hnext, hhead, hspace⟩ := hstring
    obtain ⟨hinside, houtside⟩ := ih hnext hspace
    rw [strncpy, hkept]
    constructor
    · intro i hi
      cases i with
      | zero =>
        refine ((houtside dst (by omega)).trans (Function.update_self _ _ _)).trans ?_
        rw [← hhead]
        cases l <;> rfl
      | succ i =>
        rw [Nat.add_comm i, ← Nat.add_assoc, hinside i (by omega)]
        cases l with
        | nil => rfl
        | cons c l => rw [Nat.add_comm 1]; rfl
    · intro x hx
      rw [houtside x (by omega), Function.update_of_ne (by omega)]

end Copies

/-- Each of the four functions leaves the string at its new place, cut where `strlcpy` and `strncpy` have no room for
more, and no byte changes outside the room.  `strncpy` fills the room with zeros, and it writes no terminator if the
string fills it. -/
theorem copies_stay_inside (m : Nat → UInt8) (dst src : Nat) (l : List UInt8) (h : StringAt m src l) :
    (dst ≤ src ∨ src + l.length < dst → ∃ m', (∀ fuel > l.length, strcpy fuel m dst src = some m') ∧
      StringAt m' dst l ∧ ∀ x, x < dst ∨ dst + l.length < x → m' x = m x) ∧
      (∀ l₀, StringAt m dst l₀ → dst + l₀.length ≤ src ∨ src + l.length < dst + l₀.length → ∃ m',
        (∀ fuel > max l₀.length l.length, strcat fuel m dst src = some m') ∧ StringAt m' dst (l₀ ++ l) ∧
          ∀ x, x < dst + l₀.length ∨ dst + l₀.length + l.length < x → m' x = m x) ∧
      (dst ≤ src ∨ src + l.length < dst → ∀ size, ∃ m',
        strlcpy size m dst src = (m', min (size - 1) l.length) ∧ (0 < size → StringAt m' dst (l.take (size - 1))) ∧
          ∀ x, x < dst ∨ dst + size ≤ x → m' x = m x) ∧
      (dst ≤ src ∨ src + l.length < dst → ∀ size,
        (∀ i < size, strncpy size m dst src (dst + i) = l.getD i 0) ∧
          (l.length < size → StringAt (strncpy size m dst src) dst l) ∧
          ∀ x, x < dst ∨ dst + size ≤ x → strncpy size m dst src x = m x) := by
  refine ⟨?_, ?_, ?_, ?_⟩
  · intro hapart
    refine ⟨_, fun fuel hf => strcpy_eq h hapart hf, stringAt_copied h, fun x hx => moved_outside m src (by omega)⟩
  · intro l₀ h₀ hapart
    have houtside : ∀ x, x < dst + l₀.length ∨ dst + l₀.length + l.length < x →
        moved m (dst + l₀.length) src (l.length + 1) x = m x := fun x hx => moved_outside m src (by omega)
    refine ⟨_, fun fuel hf => ?_, stringAt_append h₀ (stringAt_copied h) fun x hx => houtside x (.inl hx), houtside⟩
    rw [strcat, strlen_eq h₀ (by omega)]
    exact strcpy_eq h hapart (by omega)
  · intro hapart size
    rcases Nat.eq_zero_or_pos size with rfl | hsize
    · exact ⟨m, by rw [strlcpy_zero, Nat.zero_sub, Nat.zero_min], fun hno => absurd hno (lt_irrefl 0), fun _ _ => rfl⟩
    refine ⟨_, strlcpy_eq h hapart hsize, fun _ => ?_, fun x hx => ?_⟩
    · rw [List.take_eq_take_min]
      refine stringAt_take h (Nat.min_le_right _ _) (fun i hi => ?_) (Function.update_self _ _ _)
      rw [Function.update_of_ne (by omega), moved_get _ _ _ hi]
    · rw [Function.update_of_ne (by omega), moved_outside _ _ (by omega)]
  · intro hapart size
    obtain ⟨hinside, houtside⟩ := strncpy_eq h hapart
    refine ⟨hinside, fun hfits => ?_, houtside⟩
    have hcopied : ∀ i < l.length, strncpy size m dst src (dst + i) = m (src + i) := by
      intro i hi
      rw [hinside i (by omega), h.bytesAt i hi, List.getD_eq_getElem _ _ hi]
      rfl
    have hend : strncpy size m dst src (dst + l.length) = 0 := by
      rw [hinside _ hfits]
      simp
    have hall := stringAt_take h le_rfl hcopied hend
    rwa [List.take_length] at hall

theorem copies_stay_inside_sample : ∃ m', strlcpy 2 (memoryOf [120, 121, 122, 0, 97, 98, 99]) 0 4 = (m', 1) ∧
    (0 < 2 → StringAt m' 0 [97]) ∧ ∀ x, x < 0 ∨ 0 + 2 ≤ x → m' x = memoryOf [120, 121, 122, 0, 97, 98, 99] x :=
  (copies_stay_inside (memoryOf [120, 121, 122, 0, 97, 98, 99]) 0 4 [97, 98, 99] (by simp [memoryOf])).2.2.1
    (.inl (by decide)) 2

end DamnOS.Programs.Strings
