import DamnOS.Kernel.Words
import DamnOS.Framework.Bytes

/-!
# The stack of a new program

`init_stack` writes the arguments of a program into a page at `UTEMP`, with the pointers that are
valid where the page will be in the child; `_start` and `libmain` read them there.  Pointers are
words of 32 bits.
-/

namespace DamnOS.User

open DamnOS.Framework DamnOS.Kernel

def CString : Type := {s : List UInt8 // 0 ∉ s}

def CString.size (s : CString) : Nat := s.val.length + 1

def ROUNDDOWN (a : BitVec 32) (n : Nat) : BitVec 32 := a - BitVec.ofNat 32 (a.toNat % n)

def UTEMP2USTACK (a : BitVec 32) : BitVec 32 :=
  a + BitVec.ofNat 32 (USTACKTOP - PGSIZE) - BitVec.ofNat 32 UTEMP

def storeWord (m : Nat → UInt8) (a w : BitVec 32) : Nat → UInt8 := splice m a.toNat 4 (leByte w.toNat)

def strcpy (m : Nat → UInt8) (dst : BitVec 32) (s : CString) : Nat → UInt8 :=
  splice m dst.toNat s.size fun i => s.val.getD i 0

def stringSize (argv : List CString) : BitVec 32 :=
  argv.foldl (fun n s => n + BitVec.ofNat 32 s.val.length + 1) 0

def stringStore (argv : List CString) : BitVec 32 :=
  BitVec.ofNat 32 UTEMP + BitVec.ofNat 32 PGSIZE - stringSize argv

def argvStore (argv : List CString) : BitVec 32 :=
  ROUNDDOWN (stringStore argv) 4 - 4 * (BitVec.ofNat 32 argv.length + 1)

/-- The loop over the arguments from number `i` on. -/
def copyArgs (argvStore : BitVec 32) : Nat → BitVec 32 → List CString → (Nat → UInt8) → Nat → UInt8
  | _, _, [], m => m
  | i, stringStore, s :: argv, m =>
    let m := storeWord m (argvStore + BitVec.ofNat 32 (4 * i)) (UTEMP2USTACK stringStore)
    let m := strcpy m stringStore s
    copyArgs argvStore (i + 1) (stringStore + BitVec.ofNat 32 s.size) argv m

/-- What the three system calls for the page return. -/
structure PageCalls where
  alloc : Int
  map : Int
  unmap : Int

/-- The result is `*init_esp` and the memory of the child. -/
def initStack (sys : PageCalls) (m child : Nat → UInt8) (argv : List CString) :
    Except Int (BitVec 32 × (Nat → UInt8)) :=
  if argvStore argv - 8 < BitVec.ofNat 32 UTEMP then .error (-E_NO_MEM)
  else if sys.alloc < 0 then .error sys.alloc
  else
    let m := splice m UTEMP PGSIZE fun _ => 0
    let m := copyArgs (argvStore argv) 0 (stringStore argv) argv m
    let m := storeWord m (argvStore argv + BitVec.ofNat 32 (4 * argv.length)) 0
    let m := storeWord m (argvStore argv - 4) (UTEMP2USTACK (argvStore argv))
    let m := storeWord m (argvStore argv - 8) (BitVec.ofNat 32 argv.length)
    if sys.map < 0 then .error sys.map
    else if sys.unmap < 0 then .error sys.unmap
    else
      .ok (UTEMP2USTACK (argvStore argv - 8),
        splice child (USTACKTOP - PGSIZE) PGSIZE fun o => m (UTEMP + o))

def readString (m : Nat → UInt8) : Nat → Nat → List UInt8
  | 0, _ => []
  | fuel + 1, a => if m a = 0 then [] else m a :: readString m fuel (a + 1)

/-- The pointers at `a`, up to the null pointer. -/
def readPointers (m : Nat → UInt8) : Nat → Nat → List Nat
  | 0, _ => []
  | fuel + 1, a => if u32 m a = 0 then [] else u32 m a :: readPointers m fuel (a + 4)

/-- `_start` with its stack pointer: the arguments of `libmain`. -/
def startArgs (m : Nat → UInt8) (esp : Nat) : Nat × Nat :=
  if esp = USTACKTOP then (0, 0) else (u32 m esp, u32 m (esp + 4))

def mainArgs (m : Nat → UInt8) (esp : Nat) : Nat × List (List UInt8) :=
  ((startArgs m esp).1,
    (readPointers m PGSIZE (startArgs m esp).2).map (readString m PGSIZE))

/-- Start and length of `argc`, `argv`, the array of pointers and the strings. -/
def argRegions (m : Nat → UInt8) (esp : Nat) : List (Nat × Nat) :=
  [(esp, 4), (esp + 4, 4), ((startArgs m esp).2, 4 * ((startArgs m esp).1 + 1))] ++
    (readPointers m PGSIZE (startArgs m esp).2).map fun p => (p, (readString m PGSIZE p).length + 1)

/-- The bytes of the strings with their null bytes. -/
def totalSize (argv : List CString) : Nat := (argv.map CString.size).sum

/-- The bytes of the strings before number `k`. -/
def offset (argv : List CString) (k : Nat) : Nat := totalSize (argv.take k)

@[simp] theorem totalSize_cons (s : CString) (argv : List CString) :
    totalSize (s :: argv) = s.size + totalSize argv := by
  simp [totalSize]

@[simp] theorem offset_zero (argv : List CString) : offset argv 0 = 0 := by
  simp [offset, totalSize]

@[simp] theorem offset_cons_succ (s : CString) (argv : List CString) (k : Nat) :
    offset (s :: argv) (k + 1) = s.size + offset argv k := by
  simp [offset]

private theorem offset_add_size {argv : List CString} {j k : Nat} (hj : j < argv.length) (hjk : j < k) :
    offset argv j + argv[j].size ≤ offset argv k := by
  induction argv generalizing j k with
  | nil => simp at hj
  | cons s argv ih =>
    cases k with
    | zero => omega
    | succ k =>
      rw [offset_cons_succ]
      cases j with
      | zero => simp
      | succ j =>
        have := ih (by simpa using hj) (show j < k by omega)
        simp only [offset_cons_succ, List.getElem_cons_succ]
        omega

private theorem offset_length (argv : List CString) : offset argv argv.length = totalSize argv := by
  simp [offset]

private theorem offset_size_le {argv : List CString} {k : Nat} (hk : k < argv.length) :
    offset argv k + argv[k].size ≤ totalSize argv := by
  rw [← offset_length]
  exact offset_add_size hk hk

/-- Everything fits into one page: the strings, the pointers with the null pointer, `argv` and
`argc`. -/
def Fits (argv : List CString) : Prop := totalSize argv + 4 * (argv.length + 1) + 8 ≤ PGSIZE

instance (argv : List CString) : Decidable (Fits argv) := inferInstanceAs (Decidable (_ ≤ _))

private theorem stringSize_eq (argv : List CString) :
    stringSize argv = BitVec.ofNat 32 (totalSize argv) := by
  have hfold (n : BitVec 32) : argv.foldl (fun n s => n + BitVec.ofNat 32 s.val.length + 1) n
      = n + BitVec.ofNat 32 (totalSize argv) := by
    induction argv generalizing n with
    | nil => simp [totalSize]
    | cons s argv ih =>
      rw [List.foldl_cons, ih, totalSize_cons, CString.size, BitVec.ofNat_add, BitVec.ofNat_add]
      simp [BitVec.add_assoc]
  rw [stringSize, hfold]
  exact BitVec.zero_add _

section Sizes

variable {argv : List CString} (h : totalSize argv + 4 * argv.length < 2 ^ 22)
include h

private theorem stringStore_toNat : (stringStore argv).toNat = UTEMP + PGSIZE - totalSize argv := by
  rw [stringStore, stringSize_eq, UTEMP, PTSIZE, PGSIZE]
  bv_omega

private theorem argvStore_toNat : (argvStore argv).toNat
    = (UTEMP + PGSIZE - totalSize argv) / 4 * 4 - 4 * (argv.length + 1) := by
  have hs := stringStore_toNat h
  rw [argvStore, ROUNDDOWN, hs]
  simp only [UTEMP, PTSIZE, PGSIZE] at hs ⊢
  bv_omega

private theorem argvStore_room : 8 ≤ (argvStore argv).toNat := by
  rw [argvStore_toNat h]
  simp only [UTEMP, PTSIZE, PGSIZE]
  omega

private theorem argvStore_lt_iff : argvStore argv - 8 < BitVec.ofNat 32 UTEMP ↔ ¬ Fits argv := by
  have ha := argvStore_toNat h
  have hroom := argvStore_room h
  rw [BitVec.lt_def]
  simp only [Fits, UTEMP, PTSIZE, PGSIZE] at ha ⊢
  bv_omega

end Sizes

/-- The string lies at `a`, with its null byte. -/
def StringAt (m : Nat → UInt8) (a : Nat) (s : CString) : Prop :=
  ∀ j < s.size, m (a + j) = s.val.getD j 0

theorem StringAt.congr {m m' : Nat → UInt8} {a b : Nat} {s : CString} (h : StringAt m a s)
    (hm : ∀ j < s.size, m' (b + j) = m (a + j)) : StringAt m' b s := by
  intro j hj
  rw [hm j hj]
  exact h j hj

private theorem stringAt_strcpy (m : Nat → UInt8) (dst : BitVec 32) (s : CString) :
    StringAt (strcpy m dst s) dst.toNat s := by
  intro j hj
  rw [strcpy, splice_inside _ _ (by omega), Nat.add_sub_cancel_left]

/-- After the loop the pointers and the strings are in place, and nothing else has changed. -/
structure Copied (m m' : Nat → UInt8) (a i : Nat) (p : BitVec 32) (argv : List CString) : Prop where
  outside : ∀ x, (x < a + 4 * i ∨ a + 4 * (i + argv.length) ≤ x) →
    (x < p.toNat ∨ p.toNat + totalSize argv ≤ x) → m' x = m x
  pointer : ∀ k < argv.length,
    u32 m' (a + 4 * (i + k)) = (UTEMP2USTACK (p + BitVec.ofNat 32 (offset argv k))).toNat
  string : ∀ k, (hk : k < argv.length) → StringAt m' (p.toNat + offset argv k) argv[k]

private theorem copied_copyArgs {argv : List CString} {a p : BitVec 32} {i : Nat} (m : Nat → UInt8)
    (hap : a.toNat + 4 * (i + argv.length) ≤ p.toNat) (hp : p.toNat + totalSize argv < 2 ^ 32) :
    Copied m (copyArgs a i p argv m) a.toNat i p argv := by
  induction argv generalizing i p m with
  | nil => exact ⟨fun x _ _ => rfl, by simp, by simp⟩
  | cons s argv ih =>
    rw [totalSize_cons] at hp
    rw [List.length_cons] at hap
    have hslot : (a + BitVec.ofNat 32 (4 * i)).toNat = a.toNat + 4 * i := by bv_omega
    have hnext : (p + BitVec.ofNat 32 s.size).toNat = p.toNat + s.size := by bv_omega
    have hrest := ih (i := i + 1) (p := p + BitVec.ofNat 32 s.size)
      (strcpy (storeWord m (a + BitVec.ofNat 32 (4 * i)) (UTEMP2USTACK p)) p s)
      (by omega) (by omega)
    have hout := hrest.outside
    rw [hnext] at hout
    refine ⟨fun x hx hxp => ?_, fun k hk => ?_, fun k hk => ?_⟩
    · rw [List.length_cons] at hx
      rw [totalSize_cons] at hxp
      change copyArgs a (i + 1) _ argv _ x = m x
      rw [hout x (by omega) (by omega), strcpy, splice_outside _ _ (by omega), storeWord,
        splice_outside _ _ (by omega)]
    · change u32 (copyArgs a (i + 1) _ argv _) _ = _
      cases k with
      | zero =>
        have hcell : u32 (copyArgs a (i + 1) (p + BitVec.ofNat 32 s.size) argv
            (strcpy (storeWord m (a + BitVec.ofNat 32 (4 * i)) (UTEMP2USTACK p)) p s))
              (a.toNat + 4 * (i + 0))
            = u32 (storeWord m (a + BitVec.ofNat 32 (4 * i)) (UTEMP2USTACK p))
              (a.toNat + 4 * i) := by
          refine u32_congr fun j hj => ?_
          rw [hout _ (by omega) (by omega), strcpy, splice_outside _ _ (by omega), Nat.add_zero]
        rw [hcell, storeWord, hslot, u32_splice_same, Nat.mod_eq_of_lt (UTEMP2USTACK p).isLt,
          offset_zero]
        simp
      | succ k =>
        have hk' := hrest.pointer k (by simpa using hk)
        rw [show i + (k + 1) = i + 1 + k by omega, hk', offset_cons_succ, BitVec.ofNat_add,
          BitVec.add_assoc]
    · change StringAt (copyArgs a (i + 1) _ argv _) _ _
      cases k with
      | zero =>
        rw [offset_zero, Nat.add_zero]
        have hcopy := stringAt_strcpy
          (storeWord m (a + BitVec.ofNat 32 (4 * i)) (UTEMP2USTACK p)) p s
        exact hcopy.congr fun j hj => hout _ (by omega) (by omega)
      | succ k =>
        have hk' := hrest.string k (by simpa using hk)
        rw [hnext] at hk'
        rw [offset_cons_succ, ← Nat.add_assoc]
        exact hk'

/-- The arguments in the child's stack page: `argc` and `argv` at `esp`, the pointers above them, and
the strings from `q` to the end of the page. -/
structure Placed (m : Nat → UInt8) (esp q : Nat) (argv : List CString) : Prop where
  argc : u32 m esp = argv.length
  array : u32 m (esp + 4) = esp + 8
  pointer : ∀ k < argv.length, u32 m (esp + 8 + 4 * k) = q + offset argv k
  null : u32 m (esp + 8 + 4 * argv.length) = 0
  string : ∀ k, (hk : k < argv.length) → StringAt m (q + offset argv k) argv[k]
  order : esp + 8 + 4 * (argv.length + 1) ≤ q
  bottom : USTACKTOP - PGSIZE ≤ esp
  top : q + totalSize argv = USTACKTOP

section Reading

variable {m : Nat → UInt8} {esp q : Nat} {argv : List CString}

private theorem readString_eq {s : CString} {fuel a : Nat} (h : StringAt m a s) (hf : s.size ≤ fuel) :
    readString m fuel a = s.val := by
  obtain ⟨s, hs⟩ := s
  induction s generalizing fuel a with
  | nil =>
    obtain ⟨fuel, rfl⟩ : ∃ f, fuel = f + 1 := ⟨fuel - 1, by simp [CString.size] at hf; omega⟩
    have h0 : m a = 0 := by simpa using h 0 (by simp [CString.size])
    simp [readString, h0]
  | cons b s ih =>
    rw [List.mem_cons, not_or] at hs
    simp only [CString.size, List.length_cons] at hf
    obtain ⟨fuel, rfl⟩ : ∃ f, fuel = f + 1 := ⟨fuel - 1, by omega⟩
    have h0 : m a = b := by simpa using h 0 (by simp [CString.size])
    have hrest : StringAt m (a + 1) ⟨s, hs.2⟩ := by
      intro j hj
      have := h (j + 1) (by simpa [CString.size] using hj)
      rwa [List.getD_cons_succ, ← Nat.add_assoc, Nat.add_right_comm] at this
    rw [readString, h0, if_neg (Ne.symm hs.1), ih hs.2 hrest (by simp only [CString.size]; omega)]

private theorem readPointers_eq {f : Nat → Nat} {n a fuel : Nat} (hf : n < fuel)
    (hp : ∀ k < n, u32 m (a + 4 * k) = f k ∧ f k ≠ 0) (hnull : u32 m (a + 4 * n) = 0) :
    readPointers m fuel a = (List.range n).map f := by
  induction n generalizing a fuel f with
  | zero =>
    obtain ⟨fuel, rfl⟩ : ∃ g, fuel = g + 1 := ⟨fuel - 1, by omega⟩
    simp only [Nat.mul_zero, Nat.add_zero] at hnull
    simp [readPointers, hnull]
  | succ n ih =>
    obtain ⟨fuel, rfl⟩ : ∃ g, fuel = g + 1 := ⟨fuel - 1, by omega⟩
    obtain ⟨h0, hne⟩ := hp 0 (by omega)
    simp only [Nat.mul_zero, Nat.add_zero] at h0
    have hrest := ih (a := a + 4) (f := fun k => f (k + 1)) (show n < fuel by omega)
      (fun k hk => by
        have := hp (k + 1) (by omega)
        rwa [show a + 4 * (k + 1) = a + 4 + 4 * k by omega] at this)
      (by rwa [show a + 4 * (n + 1) = a + 4 + 4 * n by omega] at hnull)
    rw [readPointers, h0, if_neg hne, hrest, List.range_succ_eq_map, List.map_cons, List.map_map]
    rfl

namespace Placed

theorem bounds (h : Placed m esp q argv) : esp < USTACKTOP ∧ 4 * (argv.length + 1) + 8 ≤ PGSIZE ∧
    totalSize argv ≤ PGSIZE ∧ 0 < q := by
  have horder := h.order
  have hbottom := h.bottom
  have htop := h.top
  simp only [USTACKTOP, UTOP, UENVS, UPAGES, UVPT, ULIM, KERNBASE, PTSIZE, PGSIZE] at *
  omega

private theorem startArgs (h : Placed m esp q argv) :
    startArgs m esp = (argv.length, esp + 8) := by
  rw [User.startArgs, if_neg h.bounds.1.ne, h.argc, h.array]

private theorem readPointers (h : Placed m esp q argv) :
    readPointers m PGSIZE (esp + 8) = (List.range argv.length).map fun k => q + offset argv k := by
  have := h.bounds
  exact readPointers_eq (by omega) (fun k hk => ⟨h.pointer k hk, by omega⟩) h.null

private theorem readString (h : Placed m esp q argv) {k : Nat} (hk : k < argv.length) :
    readString m PGSIZE (q + offset argv k) = argv[k].val := by
  have := h.bounds
  have := offset_size_le hk
  exact readString_eq (h.string k hk) (by omega)

private theorem mainArgs (h : Placed m esp q argv) :
    mainArgs m esp = (argv.length, argv.map (·.val)) := by
  rw [User.mainArgs, h.startArgs, h.readPointers, List.map_map]
  refine Prod.ext rfl (List.ext_getElem (by simp) fun k hk hk' => ?_)
  simp only [List.getElem_map, List.getElem_range, Function.comp_apply]
  exact h.readString (by simpa using hk')

private theorem argRegions_eq (h : Placed m esp q argv) : argRegions m esp =
    [(esp, 4), (esp + 4, 4), (esp + 8, 4 * (argv.length + 1))] ++
      (List.range argv.length).map fun k =>
        (q + offset argv k, (User.readString m PGSIZE (q + offset argv k)).length + 1) := by
  rw [argRegions, h.startArgs, h.readPointers, List.map_map]
  rfl

private theorem length_readString (h : Placed m esp q argv) {k : Nat} (hk : k < argv.length) :
    (User.readString m PGSIZE (q + offset argv k)).length + 1 = argv[k].size := by
  rw [h.readString hk]
  rfl

private theorem pairwise (h : Placed m esp q argv) :
    (argRegions m esp).Pairwise fun a b => a.1 + a.2 ≤ b.1 := by
  have horder := h.order
  rw [h.argRegions_eq, List.pairwise_append]
  refine ⟨?_, ?_, fun a ha b hb => ?_⟩
  · simp
  · rw [List.pairwise_map]
    refine List.pairwise_lt_range.imp_of_mem fun {j k} hj hk hjk => ?_
    have hj' := List.mem_range.mp hj
    have := offset_add_size hj' hjk
    rw [h.length_readString hj']
    omega
  · obtain ⟨k, -, rfl⟩ := List.mem_map.mp hb
    simp only [List.mem_cons, List.not_mem_nil, or_false] at ha
    rcases ha with rfl | rfl | rfl <;> omega

theorem inside (h : Placed m esp q argv) {r : Nat × Nat} (hr : r ∈ argRegions m esp) :
    USTACKTOP - PGSIZE ≤ r.1 ∧ r.1 + r.2 ≤ USTACKTOP := by
  have horder := h.order
  have hbottom := h.bottom
  have htop := h.top
  rw [h.argRegions_eq, List.mem_append] at hr
  rcases hr with hr | hr
  · simp only [List.mem_cons, List.not_mem_nil, or_false] at hr
    rcases hr with rfl | rfl | rfl <;> omega
  · obtain ⟨k, hk, rfl⟩ := List.mem_map.mp hr
    have hk' := List.mem_range.mp hk
    have := offset_size_le hk'
    rw [h.length_readString hk']
    omega

end Placed

end Reading

private theorem UTEMP2USTACK_toNat {a : BitVec 32} (hlo : UTEMP ≤ a.toNat) (hhi : a.toNat ≤ UTEMP + PGSIZE) :
    (UTEMP2USTACK a).toNat = USTACKTOP - PGSIZE + (a.toNat - UTEMP) := by
  rw [UTEMP2USTACK]
  simp only [USTACKTOP, UTOP, UENVS, UPAGES, UVPT, ULIM, KERNBASE, UTEMP, PTSIZE, PGSIZE] at *
  bv_omega

def filled (m : Nat → UInt8) (argv : List CString) : Nat → UInt8 :=
  storeWord (storeWord (storeWord (copyArgs (argvStore argv) 0 (stringStore argv) argv
    (splice m UTEMP PGSIZE fun _ => 0))
      (argvStore argv + BitVec.ofNat 32 (4 * argv.length)) 0)
      (argvStore argv - 4) (UTEMP2USTACK (argvStore argv)))
      (argvStore argv - 8) (BitVec.ofNat 32 argv.length)

private theorem initStack_ok {sys : PageCalls} (hsys : 0 ≤ sys.alloc ∧ 0 ≤ sys.map ∧ 0 ≤ sys.unmap)
    (m child : Nat → UInt8) {argv : List CString}
    (h : totalSize argv + 4 * argv.length < 2 ^ 22) :
    initStack sys m child argv = if Fits argv then
      .ok (UTEMP2USTACK (argvStore argv - 8),
        splice child (USTACKTOP - PGSIZE) PGSIZE fun o => filled m argv (UTEMP + o))
      else .error (-E_NO_MEM) := by
  unfold initStack
  by_cases hfit : Fits argv
  · rw [if_neg (by rw [argvStore_lt_iff h]; exact not_not.mpr hfit), if_neg (by omega), if_pos hfit]
    dsimp only
    rw [if_neg (by omega), if_neg (by omega)]
    rfl
  · rw [if_pos ((argvStore_lt_iff h).mpr hfit), if_neg hfit]

/-- The words of the page. -/
structure Words (m : Nat → UInt8) (a p : Nat) (argv : List CString) : Prop where
  argc : u32 m (a - 8) = argv.length
  array : u32 m (a - 4) = USTACKTOP - PGSIZE + (a - UTEMP)
  pointer : ∀ k < argv.length,
    u32 m (a + 4 * k) = USTACKTOP - PGSIZE + (p + offset argv k - UTEMP)
  null : u32 m (a + 4 * argv.length) = 0
  string : ∀ k, (hk : k < argv.length) → StringAt m (p + offset argv k) argv[k]

private theorem words_filled (m : Nat → UInt8) {argv : List CString} (hfit : Fits argv) :
    Words (filled m argv) (argvStore argv).toNat (stringStore argv).toNat argv := by
  have hfit' := hfit
  simp only [Fits, PGSIZE] at hfit'
  have hsize : totalSize argv + 4 * argv.length < 2 ^ 22 := by omega
  have hp := stringStore_toNat hsize
  have ha := argvStore_toNat hsize
  simp only [UTEMP, PTSIZE, PGSIZE] at hp ha
  have hcopied := @copied_copyArgs argv (argvStore argv) (stringStore argv) 0
    (splice m UTEMP PGSIZE fun _ => 0) (by omega) (by omega)
  have hnull : (argvStore argv + BitVec.ofNat 32 (4 * argv.length)).toNat
      = (argvStore argv).toNat + 4 * argv.length := by bv_omega
  have harray : (argvStore argv - 4).toNat = (argvStore argv).toNat - 4 := by bv_omega
  have hargc : (argvStore argv - 8).toNat = (argvStore argv).toNat - 8 := by bv_omega
  have hlen : (BitVec.ofNat 32 argv.length).toNat = argv.length := by
    rw [BitVec.toNat_ofNat]
    omega
  have htemp (x : BitVec 32) (hlo : 4194304 ≤ x.toNat) (hhi : x.toNat ≤ 4198400) :
      (UTEMP2USTACK x).toNat = USTACKTOP - PGSIZE + (x.toNat - UTEMP) :=
    UTEMP2USTACK_toNat hlo hhi
  -- the last three words do not touch what the loop wrote
  have hkeep (x : Nat) (hx : (argvStore argv).toNat ≤ x)
      (hx' : x < (argvStore argv).toNat + 4 * argv.length ∨ (stringStore argv).toNat ≤ x) :
      filled m argv x = copyArgs (argvStore argv) 0 (stringStore argv) argv
        (splice m UTEMP PGSIZE fun _ => 0) x := by
    rw [filled, storeWord, hargc, splice_outside _ _ (by omega), storeWord, harray,
      splice_outside _ _ (by omega), storeWord, hnull, splice_outside _ _ (by omega)]
  refine ⟨?_, ?_, fun k hk => ?_, ?_, fun k hk => ?_⟩
  · rw [filled, storeWord, hargc, u32_splice_same, hlen]
    omega
  · rw [filled, storeWord, hargc, u32_splice_disjoint _ _ (by omega), storeWord, harray,
      u32_splice_same, Nat.mod_eq_of_lt (UTEMP2USTACK (argvStore argv)).isLt]
    exact htemp _ (by omega) (by omega)
  · have hoff := offset_size_le hk
    have hword : u32 (filled m argv) ((argvStore argv).toNat + 4 * k)
        = (UTEMP2USTACK (stringStore argv + BitVec.ofNat 32 (offset argv k))).toNat := by
      rw [← hcopied.pointer k hk, Nat.zero_add]
      exact u32_congr fun j hj => hkeep _ (by omega) (by omega)
    have hadd : (stringStore argv + BitVec.ofNat 32 (offset argv k)).toNat
        = (stringStore argv).toNat + offset argv k := by bv_omega
    rw [hword, htemp _ (by omega) (by omega), hadd]
  · rw [filled, storeWord, hargc, u32_splice_disjoint _ _ (by omega), storeWord, harray,
      u32_splice_disjoint _ _ (by omega), storeWord, hnull, u32_splice_same]
    rfl
  · have hoff := offset_size_le hk
    exact (hcopied.string k hk).congr fun j hj => hkeep _ (by omega) (by omega)

private theorem placed_filled (m child : Nat → UInt8) {argv : List CString} (hfit : Fits argv) :
    Placed (splice child (USTACKTOP - PGSIZE) PGSIZE fun o => filled m argv (UTEMP + o))
      (UTEMP2USTACK (argvStore argv - 8)).toNat (USTACKTOP - totalSize argv) argv := by
  have hwords := words_filled m hfit
  have hfit' := hfit
  simp only [Fits, PGSIZE] at hfit'
  have hsize : totalSize argv + 4 * argv.length < 2 ^ 22 := by omega
  have hp := stringStore_toNat hsize
  have ha := argvStore_toNat hsize
  have htop : USTACKTOP = 0xEEBFE000 := by decide
  simp only [UTEMP, PTSIZE, PGSIZE] at hp ha
  have hargc : (argvStore argv - 8).toNat = (argvStore argv).toNat - 8 := by bv_omega
  have hesp : (UTEMP2USTACK (argvStore argv - 8)).toNat
      = USTACKTOP - 4096 + ((argvStore argv).toNat - 8 - 4194304) := by
    rw [UTEMP2USTACK_toNat (by simp only [UTEMP, PTSIZE]; omega)
      (by simp only [UTEMP, PTSIZE, PGSIZE]; omega), hargc]
    rfl
  have hbyte (x : Nat) (hlo : 4194304 ≤ x) (hhi : x < 4198400) :
      splice child (USTACKTOP - PGSIZE) PGSIZE (fun o => filled m argv (UTEMP + o))
        (USTACKTOP - 4096 + (x - 4194304)) = filled m argv x := by
    rw [PGSIZE, splice_inside _ _ (by omega), Nat.add_sub_cancel_left,
      show UTEMP + (x - 4194304) = x by rw [UTEMP, PTSIZE]; omega]
  have hword {x y : Nat} (hxy : y = USTACKTOP - 4096 + (x - 4194304)) (hlo : 4194304 ≤ x)
      (hhi : x + 4 ≤ 4198400) :
      u32 (splice child (USTACKTOP - PGSIZE) PGSIZE fun o => filled m argv (UTEMP + o)) y
        = u32 (filled m argv) x := by
    refine u32_congr fun j hj => ?_
    rw [show y + j = USTACKTOP - 4096 + (x + j - 4194304) by omega]
    exact hbyte (x + j) (by omega) (by omega)
  rw [hesp]
  refine ⟨?_, ?_, fun k hk => ?_, ?_, fun k hk => ?_, ?_, ?_, ?_⟩
  · rw [hword rfl (by omega) (by omega), hwords.argc]
  · rw [hword (x := (argvStore argv).toNat - 4) (by omega) (by omega) (by omega), hwords.array]
    simp only [UTEMP, PTSIZE, PGSIZE]
    omega
  · have := offset_size_le hk
    rw [hword (x := (argvStore argv).toNat + 4 * k) (by omega) (by omega) (by omega),
      hwords.pointer k hk]
    simp only [UTEMP, PTSIZE, PGSIZE]
    omega
  · rw [hword (x := (argvStore argv).toNat + 4 * argv.length) (by omega) (by omega) (by omega),
      hwords.null]
  · have := offset_size_le hk
    refine (hwords.string k hk).congr fun j hj => ?_
    rw [show USTACKTOP - totalSize argv + offset argv k + j = USTACKTOP - 4096
      + ((stringStore argv).toNat + offset argv k + j - 4194304) by omega]
    exact hbyte _ (by omega) (by omega)
  · omega
  · rw [PGSIZE]
    omega
  · omega

/-- Starts and lengths of two pieces of memory that do not overlap. -/
def Apart (a b : Nat × Nat) : Prop := a.1 + a.2 ≤ b.1 ∨ b.1 + b.2 ≤ a.1

/-- The child gets the arguments that `init_stack` was given, from pieces of its stack page that do
not overlap; and `init_stack` refuses exactly what does not fit into a page. -/
theorem init_stack_round_trip {sys : PageCalls}
    (hsys : 0 ≤ sys.alloc ∧ 0 ≤ sys.map ∧ 0 ≤ sys.unmap) (m child : Nat → UInt8)
    {argv : List CString} (h : totalSize argv + 4 * argv.length < 2 ^ 22) :
    (∀ esp mem, initStack sys m child argv = .ok (esp, mem) →
      mainArgs mem esp.toNat = (argv.length, argv.map (·.val)) ∧
      (argRegions mem esp.toNat).Pairwise Apart ∧
      ∀ r ∈ argRegions mem esp.toNat, USTACKTOP - PGSIZE ≤ r.1 ∧ r.1 + r.2 ≤ USTACKTOP) ∧
    ((∃ esp mem, initStack sys m child argv = .ok (esp, mem)) ↔ Fits argv) ∧
    (initStack sys m child argv = .error (-E_NO_MEM) ↔ ¬ Fits argv) := by
  rw [initStack_ok hsys m child h]
  by_cases hfit : Fits argv
  · have hplaced := placed_filled m child hfit
    rw [if_pos hfit]
    refine ⟨fun esp mem he => ?_, iff_of_true ⟨_, _, rfl⟩ hfit, by simp [hfit]⟩
    obtain ⟨rfl, rfl⟩ := Prod.mk.inj (Except.ok.inj he)
    exact ⟨hplaced.mainArgs, hplaced.pairwise.imp Or.inl, fun r => hplaced.inside⟩
  · rw [if_neg hfit]
    refine ⟨(fun esp mem he => by cases he), iff_of_false ?_ hfit, iff_of_true rfl hfit⟩
    rintro ⟨esp, mem, he⟩
    cases he

/-- The arguments of `ls -l`. -/
theorem init_stack_ls : (∃ esp mem, initStack ⟨0, 0, 0⟩ (fun _ => 7) (fun _ => 0)
    [⟨[108, 115], by decide⟩, ⟨[45, 108], by decide⟩] = .ok (esp, mem) ∧
      mainArgs mem esp.toNat = (2, [[108, 115], [45, 108]])) := by
  obtain ⟨hok, hfits, -⟩ := @init_stack_round_trip ⟨0, 0, 0⟩ (by decide) (fun _ => 7)
    (fun _ => 0) [⟨[108, 115], by decide⟩, ⟨[45, 108], by decide⟩] (by decide)
  obtain ⟨esp, mem, he⟩ := hfits.mpr (by decide)
  exact ⟨esp, mem, he, (hok esp mem he).1⟩

end DamnOS.User
