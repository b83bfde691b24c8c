import DamnOS.User.Fork

/-!
# Isolation by copy-on-write

Environments that fork share pages and copy them when they write.  Each of them sees the memory that
it would have if `fork` copied everything at once.
-/

namespace DamnOS.User

open DamnOS.Framework DamnOS.Kernel

/-- An entry that lets its environment write a page which it does not mean to share. -/
def Private (w : Nat) : Prop := w &&& PTE_W ≠ 0 ∧ w &&& PTE_SHARE = 0

/-- An entry for user code that is writable or copy-on-write, and not shared. -/
def Unshared (w : Nat) : Prop :=
  w &&& PTE_U ≠ 0 ∧ (w &&& PTE_W ≠ 0 ∨ w &&& PTE_COW ≠ 0) ∧ w &&& PTE_SHARE = 0

/-- The pages below the stack top, except for the scratch page. -/
def InScope (n : Nat) : Prop := n < USTACKTOP / PGSIZE ∧ n ≠ PFTEMP / PGSIZE

instance : DecidablePred Private := fun _ => inferInstanceAs (Decidable (_ ∧ _))

instance : DecidablePred Unshared := fun _ => inferInstanceAs (Decidable (_ ∧ _))

instance : DecidablePred InScope := fun _ => inferInstanceAs (Decidable (_ ∧ _))

/-- A read of one byte, if it is one of those that the reference model speaks about. -/
def read (s : System) (c : Fin NENV) (va : Nat) : Option UInt8 :=
  match s.pmap.mapping (s.envs c).pgdir va with
  | none => none
  | some w =>
    if InScope (va / PGSIZE) ∧ Unshared w then some (loadByte s.pmap (pageOf w) (va % PGSIZE))
    else none

/-- The environments that stem from one, and the memory of each in the model where `fork` copies. -/
structure Family where
  sys : System
  members : Fin NENV → Bool
  reference : Fin NENV → Nat → Option UInt8

/-- One environment, before the first fork. -/
def Family.start (s : System) (r : Fin NENV) : Family where
  sys := s
  members e := e = r
  reference _ va := read s r va

inductive Act where
  | fork (e : Fin NENV) (installed : Bool) (upcall : BitVec 32)
  | read (e : Fin NENV) (va : Nat)
  | write (e : Fin NENV) (va : Nat) (b : UInt8)

/-- Members fork and access their memory; a fork that fails stops the run. -/
def Act.exec : Act → Family → Option Family
  | .fork e installed upcall, f =>
    if f.members e then
      (User.fork f.sys e installed upcall).map fun (child, s) =>
        { sys := s
          members := Function.update f.members (ENVX child) true
          reference := Function.update f.reference (ENVX child) (f.reference e) }
    else some f
  | .read _ _, f => some f
  | .write e va b, f =>
    if f.members e ∧ (User.read f.sys e va).isSome then
      (User.write f.sys e va b).map fun s =>
        { f with
          sys := s
          reference := Function.update f.reference e (Function.update (f.reference e) va (some b)) }
    else some f

def forkMachine : Machine Act Family where
  step i f := (i.exec f).getD f
  halts i f := (i.exec f).isNone

/-- How often `fork` duplicates a page on its way up to page number `k`. -/
def dups (s : System) (e : Fin NENV) (k p : Nat) : Nat :=
  (List.range k).countP fun n =>
    match s.view e n with
    | none => false
    | some w => decide (w &&& PTE_U ≠ 0) && decide (pageOf w = p)

/-- The mappings that `fork` adds can be counted in sixteen bits. -/
def Act.Counted (i : Act) (f : Family) : Prop :=
  ∀ e installed upcall n w, i = .fork e installed upcall → n < USTACKTOP / PGSIZE →
    f.sys.view e n = some w → w &&& PTE_U ≠ 0 →
    f.sys.pmap.ppRef (pageOf w) + dups f.sys e (USTACKTOP / PGSIZE) (pageOf w) ≤ 65535

section Bytes

variable {m : Pmap} {p q off off' : Nat} {b : UInt8}

private theorem setByte_self {j : Nat} (w : Nat) (hj : j < 4) :
    UInt8.ofNat (Pmap.setByte w j b / 256 ^ j) = b := by
  have hb : b.toNat < 256 := b.toNat_lt
  have hval : Pmap.setByte w j b / 256 ^ j % 256 = b.toNat := by
    unfold Pmap.setByte
    generalize b.toNat = x at hb
    interval_cases j <;> omega
  apply UInt8.toNat_inj.mp
  simpa using hval

private theorem setByte_of_ne {j j' : Nat} (w : Nat) (hj : j < 4) (hj' : j' < 4) (hne : j' ≠ j) :
    UInt8.ofNat (Pmap.setByte w j b / 256 ^ j') = UInt8.ofNat (w / 256 ^ j') := by
  have hb : b.toNat < 256 := b.toNat_lt
  have hval : Pmap.setByte w j b / 256 ^ j' % 256 = w / 256 ^ j' % 256 := by
    unfold Pmap.setByte
    generalize b.toNat = x at hb
    interval_cases j <;> interval_cases j' <;> omega
  apply UInt8.toNat_inj.mp
  simpa using hval

theorem loadByte_congr {m' : Pmap} (h : m'.mem p = m.mem p) (off : Nat) :
    loadByte m' p off = loadByte m p off := by
  rw [loadByte, loadByte, h]

theorem loadByte_storeByte_self (m : Pmap) (p off : Nat) (b : UInt8) :
    loadByte (m.storeByte p off b) p off = b := by
  rw [loadByte, Pmap.storeByte, Pmap.store_mem_self]
  exact setByte_self _ (Nat.mod_lt _ (by decide))

theorem loadByte_storeByte_ne (h : off' ≠ off) :
    loadByte (m.storeByte p off b) p off' = loadByte m p off' := by
  rw [loadByte, Pmap.storeByte]
  by_cases hword : off' / 4 = off / 4
  · rw [hword, Pmap.store_mem_self, setByte_of_ne _ (Nat.mod_lt _ (by decide))
      (Nat.mod_lt _ (by decide)) (by omega), loadByte, hword]
  · rw [Pmap.store_mem_word hword, loadByte]

theorem copyPage_mem (h : q ≠ p) (src : Nat) : (copyPage m p src).mem q = m.mem q :=
  Function.update_of_ne h _ _

theorem loadByte_copyPage (m : Pmap) (p src : Nat) (hoff : off < PGSIZE) :
    loadByte (copyPage m p src) p off = loadByte m src off := by
  have hlt : off / 4 < 1024 := by
    rw [PGSIZE] at hoff
    omega
  simp [loadByte, copyPage, hlt]

end Bytes

/-- A private entry is the only one for its page, and what members may read is what the reference
model has. -/
structure Isolated (M : Nat → Prop) (f : Family) : Prop where
  accounted : Accounted M f.sys
  live : ∀ e, f.members e = true → f.sys.Live e
  sole : ∀ e n w, f.members e = true → f.sys.view e n = some w → Private w →
    ∀ i k w', f.sys.view i k = some w' → pageOf w' = pageOf w → i = e ∧ k = n
  agrees : ∀ e n w off, f.members e = true → InScope n → f.sys.view e n = some w → Unshared w →
    off < PGSIZE → some (loadByte f.sys.pmap (pageOf w) off) = f.reference e (n * PGSIZE + off)

/-- Where an entry comes from: it was there before, it shares a page that no private entry maps any
more, or it is the only one for its page. -/
def Justified (s t : System) (i : Fin NENV) (k w : Nat) : Prop :=
  s.view i k = some w ∨
  (¬ Private w ∧ ∃ i₀ k₀ w₀, s.view i₀ k₀ = some w₀ ∧ pageOf w₀ = pageOf w ∧
    ∀ w', t.view i₀ k₀ = some w' → ¬ Private w') ∨
  ∀ i' k' w', t.view i' k' = some w' → pageOf w' = pageOf w → i' = i ∧ k' = k

/-- What one environment can read before, another one can read after. -/
def StillReads (s t : System) (i j : Fin NENV) : Prop :=
  ∀ n w, InScope n → s.view i n = some w → Unshared w → ∃ w', t.view j n = some w' ∧ Unshared w'

namespace StillReads

variable {M : Nat → Prop} {s t u : System} {i j k e : Fin NENV} {n : Nat} {o : Option Nat}

theorem trans (h : StillReads s t i j) (h' : StillReads t u j k) : StillReads s u i k := by
  intro n w hn hw hu
  obtain ⟨w', hw', hu'⟩ := h n w hn hw hu
  exact h' n w' hn hw' hu'

theorem of_view (h : ∀ n, InScope n → t.view i n = s.view i n) : StillReads s t i i :=
  fun n w hn hw hu => ⟨w, (h n hn).trans hw, hu⟩

theorem of_remaps (h : Remaps M s t e n o)
    (ho : InScope n → i = e → ∃ w, o = some w ∧ Unshared w) : StillReads s t i i := by
  intro k w hk hw hu
  by_cases hc : i = e ∧ k = n
  · obtain ⟨rfl, rfl⟩ := hc
    obtain ⟨w', rfl, hu'⟩ := ho hk rfl
    exact ⟨w', by rw [h.view, if_pos ⟨rfl, rfl⟩], hu'⟩
  · exact ⟨w, by rw [h.view, if_neg hc, hw], hu⟩

end StillReads

namespace Isolated

variable {M : Nat → Prop} {f : Family} {t : System}

theorem step (h : Isolated M f) (hacc : Accounted M t)
    (hlive : ∀ e, f.members e = true → t.Live e)
    (hjust : ∀ i k w, t.view i k = some w → Justified f.sys t i k w)
    (hdata : ∀ i k w, f.sys.view i k = some w → t.view i k = some w →
      t.pmap.mem (pageOf w) = f.sys.pmap.mem (pageOf w))
    (hnew : ∀ e k w off, f.members e = true → InScope k → t.view e k = some w →
      f.sys.view e k ≠ some w → Unshared w → off < PGSIZE →
      some (loadByte t.pmap (pageOf w) off) = f.reference e (k * PGSIZE + off)) :
    Isolated M { f with sys := t } := by
  refine ⟨hacc, hlive, fun e n w he hw hpriv i k w' hw' hpage => ?_, fun e n w off he hn hw hu hoff => ?_⟩
  · rcases hjust e n w hw with hold | ⟨hno, -⟩ | hsole
    · rcases hjust i k w' hw' with hold' | ⟨-, i₀, k₀, w₀, hw₀, hpage₀, hno⟩ | hsole
      · exact h.sole e n w he hold hpriv i k w' hold' hpage
      · obtain ⟨rfl, rfl⟩ := h.sole e n w he hold hpriv i₀ k₀ w₀ hw₀ (hpage₀.trans hpage)
        exact absurd hpriv (hno w hw)
      · obtain ⟨rfl, rfl⟩ := hsole e n w hw hpage.symm
        exact ⟨rfl, rfl⟩
    · exact absurd hpriv hno
    · exact hsole i k w' hw' hpage
  · by_cases hold : f.sys.view e n = some w
    · rw [loadByte_congr (hdata e n w hold hw)]
      exact h.agrees e n w off he hn hold hu hoff
    · exact hnew e n w off he hn hw hold hu hoff

theorem unmapping (h : Isolated M f) (hu : Unmapping M f.sys t)
    (hlive : ∀ e, f.members e = true → t.Live e) : Isolated M { f with sys := t } := by
  refine h.step hu.accounted hlive (fun i k w hw => ?_) (fun i k w hw _ => hu.data i k w hw) ?_
  · rw [hu.view] at hw
    exact .inl hw
  · intro e k w off _ _ hw hne
    rw [hu.view] at hw
    exact absurd hw hne

theorem alloc {e : Fin NENV} {n q perm : Nat} (h : Isolated M f)
    (hr : Remaps M f.sys t e n (some (entry q perm))) (hq : pageOf (entry q perm) = q)
    (hfresh : ∀ i k w, f.sys.view i k = some w → pageOf w ≠ q) (hn : ¬ InScope n) :
    Isolated M { f with sys := t } := by
  have hplace {i : Fin NENV} {k w : Nat} (hw : t.view i k = some w) :
      (i = e ∧ k = n ∧ w = entry q perm) ∨ f.sys.view i k = some w := by
    rw [hr.view] at hw
    split at hw
    · next hc => exact .inl ⟨hc.1, hc.2, (Option.some.inj hw).symm⟩
    · exact .inr hw
  refine h.step hr.accounted (fun i hi => ?_) (fun i k w hw => ?_) (fun i k w hw _ => hr.data i k w hw) ?_
  · rw [System.Live, hr.envs]
    exact h.live i hi
  · rcases hplace hw with ⟨rfl, rfl, rfl⟩ | hold
    · refine .inr (.inr fun i' k' w' hw' hpage => ?_)
      rcases hplace hw' with ⟨rfl, rfl, -⟩ | hold
      · exact ⟨rfl, rfl⟩
      · exact absurd (hpage.trans hq) (hfresh i' k' w' hold)
    · exact .inl hold
  · intro i k w off _ hk hw hne
    rcases hplace hw with ⟨-, rfl, -⟩ | hold
    · exact absurd hk hn
    · exact absurd hold hne

/-- A page that no private entry maps is mapped once more, by an entry without access to it. -/
theorem share {e child : Fin NENV} {n w perm : Nat} (h : Isolated M f) (hne : e ≠ child)
    (hw : f.sys.view e n = some w) (hpriv : ¬ Private w)
    (hr : Remaps M f.sys t child n (some (entry (pageOf w) perm)))
    (hpage : pageOf (entry (pageOf w) perm) = pageOf w) (hpriv' : ¬ Private (entry (pageOf w) perm))
    (hu : ¬ Unshared (entry (pageOf w) perm)) : Isolated M { f with sys := t } := by
  have hplace {i : Fin NENV} {k w' : Nat} (hw' : t.view i k = some w') :
      (w' = entry (pageOf w) perm) ∨ f.sys.view i k = some w' := by
    rw [hr.view] at hw'
    split at hw'
    · exact .inl (Option.some.inj hw').symm
    · exact .inr hw'
  have hparent : t.view e n = some w := by
    rw [hr.view, if_neg fun hc => hne hc.1, hw]
  refine h.step hr.accounted (fun i hi => ?_) (fun i k w' hw' => ?_) (fun i k w' hw' _ => hr.data i k w' hw') ?_
  · rw [System.Live, hr.envs]
    exact h.live i hi
  · rcases hplace hw' with rfl | hold
    · refine .inr (.inl ⟨hpriv', e, n, w, hw, hpage.symm, fun w' hw' => ?_⟩)
      obtain rfl := Option.some.inj (hparent.symm.trans hw')
      exact hpriv
    · exact .inl hold
  · intro i k w' off _ _ hw' hne' hu'
    rcases hplace hw' with rfl | hold
    · exact absurd hu' hu
    · exact absurd hold hne'

/-- A page goes from private or copy-on-write to copy-on-write in both environments. -/
theorem cow {e child : Fin NENV} {n w perm : Nat} {u : System} (h : Isolated M f) (hne : e ≠ child)
    (he : f.members e = true) (href : f.reference child = f.reference e)
    (hw : f.sys.view e n = some w) (hopen : Unshared w)
    (hr : Remaps M f.sys u child n (some (entry (pageOf w) perm)))
    (hr' : Remaps M u t e n (some (entry (pageOf w) perm)))
    (hpage : pageOf (entry (pageOf w) perm) = pageOf w) (hpriv : ¬ Private (entry (pageOf w) perm)) :
    Isolated M { f with sys := t } := by
  have hplace {i : Fin NENV} {k w' : Nat} (hw' : t.view i k = some w') :
      ((i = e ∨ i = child) ∧ k = n ∧ w' = entry (pageOf w) perm) ∨ f.sys.view i k = some w' := by
    rw [hr'.view] at hw'
    split at hw'
    · next hc => exact .inl ⟨.inl hc.1, hc.2, (Option.some.inj hw').symm⟩
    · rw [hr.view] at hw'
      split at hw'
      · next hc => exact .inl ⟨.inr hc.1, hc.2, (Option.some.inj hw').symm⟩
      · exact .inr hw'
  have hmid : u.view e n = some w := by
    rw [hr.view, if_neg fun hc => hne hc.1, hw]
  have hself : t.view e n = some (entry (pageOf w) perm) := by
    rw [hr'.view, if_pos ⟨rfl, rfl⟩]
  have hcontents : t.pmap.mem (pageOf w) = f.sys.pmap.mem (pageOf w) :=
    (hr'.data e n w hmid).trans (hr.data e n w hw)
  refine h.step hr'.accounted (fun i hi => ?_) (fun i k w' hw' => ?_) (fun i k w' hw' hw'' => ?_) ?_
  · rw [System.Live, hr'.envs, hr.envs]
    exact h.live i hi
  · rcases hplace hw' with ⟨-, -, rfl⟩ | hold
    · refine .inr (.inl ⟨hpriv, e, n, w, hw, hpage.symm, fun w' hw' => ?_⟩)
      obtain rfl := Option.some.inj (hself.symm.trans hw')
      exact hpriv
    · exact .inl hold
  · rcases hplace hw'' with ⟨-, -, rfl⟩ | -
    · rw [hpage]
      exact hcontents
    · have hu : u.view i k = some w' := by
        rw [hr'.view] at hw''
        split at hw''
        · next hc =>
          obtain ⟨rfl, rfl⟩ := hc
          rw [hmid, ← hw, hw']
        · exact hw''
      exact (hr'.data i k w' hu).trans (hr.data i k w' hw')
  · intro i k w' off hi hk hw' hold hu hoff
    rcases hplace hw' with ⟨hi', rfl, rfl⟩ | hold'
    · rw [hpage, loadByte_congr hcontents, h.agrees e k w off he hk hw hopen hoff]
      rcases hi' with rfl | rfl
      · rfl
      · rw [href]
    · exact absurd hold' hold

end Isolated

end DamnOS.User
