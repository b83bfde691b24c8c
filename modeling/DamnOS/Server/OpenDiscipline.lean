import DamnOS.Server.OpenTable

/-!
# Live opens and their rows

A row is given out again only when no client has its page mapped, so every mapping belongs to the
latest open of its row, and stale file ids are told apart by the number of allocations; as long as
the reference counts, which have sixteen bits, do not wrap.
-/

namespace DamnOS.Server

open DamnOS.Framework
open DamnOS.FileSystem

section Sound

variable {π : Type} [Fintype π]

/-- File ids count the allocations, reference counts the mappings, and a mapping belongs to the latest
allocation of its row. -/
structure Sound (s : System π) : Prop where
  fileid : ∀ i < MAXOPEN, (s.server.opentab i).fileid = (i + MAXOPEN * s.allocs i) % 4294967296
  bounded : ∀ i < MAXOPEN, s.server.pageref i < 65536
  counted : ∀ i < MAXOPEN,
    s.server.pageref i = references s.rows i + if s.allocs i = 0 then 0 else 1
  current : ∀ x o, s.fds x = some o → o ∈ s.opens ∧ o.alloc = s.allocs o.slot
  recorded : ∀ o ∈ s.opens, o.slot < MAXOPEN ∧ 0 < o.alloc ∧ o.alloc ≤ s.allocs o.slot ∧
    o.fileid = (o.slot + MAXOPEN * o.alloc) % 4294967296
  unique : ∀ o ∈ s.opens, ∀ o' ∈ s.opens, o.slot = o'.slot → o.alloc = o'.alloc → o = o'

private theorem sound_init (w : World) : Sound (System.init w : System π) where
  fileid i hi := by
    simp only [System.init, State.init, MAXOPEN] at *
    omega
  bounded i _ := by simp [System.init, State.init]
  counted i _ := by
    have hz : references (System.init w : System π).rows i = 0 :=
      references_eq_zero.mpr fun x => by simp [System.rows, System.init]
    rw [hz]
    rfl
  current x o hx := by cases hx
  recorded o ho := by cases ho
  unique o ho := by cases ho

namespace Sound

variable {s : System π}

private theorem pageref_of_live (h : Sound s) {x : π} {o : Open} (hx : s.fds x = some o) :
    o.slot < MAXOPEN ∧ s.server.pageref o.slot = references s.rows o.slot + 1 ∧
      0 < references s.rows o.slot := by
  obtain ⟨ho, hcur⟩ := h.current x o hx
  obtain ⟨hi, hpos, -, -⟩ := h.recorded o ho
  have hc := h.counted o.slot hi
  rw [if_neg (by omega)] at hc
  exact ⟨hi, hc, references_pos (s := x) (by rw [System.rows, hx]; rfl)⟩

private theorem unmapped_of_le (h : Sound s) {i : Nat} (hle : s.server.pageref i ≤ 1) {x : π} {o : Open}
    (hx : s.fds x = some o) : o.slot ≠ i := by
  rintro rfl
  obtain ⟨-, hc, hpos⟩ := h.pageref_of_live hx
  omega

end Sound

variable [DecidableEq π] {s : System π}

omit [Fintype π] in
private theorem rows_update (fds : π → Option Open) (t : State) (os : List Open) (al : Nat → Nat) (x : π)
    (o : Option Open) : (⟨t, Function.update fds x o, os, al⟩ : System π).rows =
      Function.update (fun y => (fds y).map Open.slot) x (o.map Open.slot) := by
  funext y
  by_cases hy : y = x
  · simp [System.rows, hy]
  · simp [System.rows, hy]

omit [DecidableEq π] in
private theorem Sound.unref_pageref (h : Sound s) (x : π) {i : Nat} (hi : i < MAXOPEN) :
    (s.server.unref (s.fds x)).pageref i + (if s.rows x = some i then 1 else 0) = s.server.pageref i := by
  cases hx : s.fds x with
  | none => simp [State.unref, System.rows, hx]
  | some o =>
    have hrow : s.rows x = some o.slot := by rw [System.rows, hx]; rfl
    by_cases hio : i = o.slot
    · subst hio
      have hb := h.bounded o.slot hi
      obtain ⟨-, hc, hpos⟩ := h.pageref_of_live hx
      rw [if_pos hrow]
      simp only [State.unref, Function.update_self]
      omega
    · rw [if_neg (by rw [hrow]; simpa using fun he => hio he.symm)]
      simp [State.unref, hio]

omit [Fintype π] [DecidableEq π] in
private theorem ref_bounded {t : State} {i : Nat} (h : t.pageref i < 65536) (j : Nat) :
    (t.ref j).pageref i < 65536 := by
  by_cases hij : i = j
  · subst hij
    simp only [State.ref, Function.update_self]
    omega
  · simpa [State.ref, hij] using h

omit [Fintype π] [DecidableEq π] in
private theorem unref_bounded {t : State} {i : Nat} (h : t.pageref i < 65536) (o : Option Open) :
    (t.unref o).pageref i < 65536 := by
  cases o with
  | none => exact h
  | some o =>
    by_cases hij : i = o.slot
    · subst hij
      simp only [State.unref, Function.update_self]
      omega
    · simpa [State.unref, hij] using h

omit [Fintype π] [DecidableEq π] in
theorem unref_opentab (t : State) (o : Option Open) : (t.unref o).opentab = t.opentab := by
  cases o <;> rfl

namespace Sound

theorem unmap (h : Sound s) (rt : Nat) (x : π) : Sound (System.step rt (.unmap x) s) := by
  have hcount (i : Nat) (hi : i < MAXOPEN) := h.unref_pageref x hi
  refine ⟨fun i hi => ?_, fun i hi => ?_, fun i hi => ?_, fun y o hy => ?_, h.recorded, h.unique⟩
  · change ((s.server.unref (s.fds x)).opentab i).fileid = _
    rw [unref_opentab]
    exact h.fileid i hi
  · exact unref_bounded (h.bounded i hi) (s.fds x)
  · have hc := hcount i hi
    have hp := h.counted i hi
    have hr := references_update s.rows x none i
    have hrows : (System.step rt (.unmap x) s).rows = Function.update s.rows x none :=
      rows_update _ _ _ _ x none
    rw [hrows]
    change (s.server.unref (s.fds x)).pageref i = _ + if s.allocs i = 0 then 0 else 1
    simp only [reduceCtorEq, if_false] at hr
    omega
  · by_cases hyx : y = x
    · subst hyx
      simp [System.step] at hy
    · refine h.current y o ?_
      simpa [System.step, hyx] using hy

omit [DecidableEq π] in
private theorem ref_pageref (h : Sound s) {y : π} {o : Open}
    (hc : s.server.pageref o.slot < 65535 ∨ s.rows y = some o.slot) {i : Nat} (hi : i < MAXOPEN) :
    ((s.server.ref o.slot).unref (s.fds y)).pageref i + (if s.rows y = some i then 1 else 0) =
      s.server.pageref i + (if o.slot = i then 1 else 0) := by
  have hb := h.bounded i hi
  cases hy : s.fds y with
  | none =>
    have hrow : s.rows y = none := by rw [System.rows, hy]; rfl
    rw [hrow] at hc ⊢
    by_cases hio : i = o.slot
    · subst hio
      simp only [reduceCtorEq, or_false] at hc
      simp only [State.unref, State.ref, Function.update_self, reduceCtorEq, if_true, if_false]
      omega
    · have hio' : o.slot ≠ i := fun he => hio he.symm
      simp [State.unref, State.ref, hio, hio']
  | some o' =>
    have hrow : s.rows y = some o'.slot := by rw [System.rows, hy]; rfl
    rw [hrow] at hc ⊢
    obtain ⟨-, hcy, hpos⟩ := h.pageref_of_live hy
    simp only [Option.some.injEq] at hc ⊢
    by_cases hio : i = o.slot
    · by_cases hoo : o'.slot = o.slot
      · subst hio
        rw [if_pos hoo, if_pos rfl]
        simp only [State.unref, State.ref, hoo, Function.update_self]
        omega
      · subst hio
        have hne : o.slot ≠ o'.slot := fun he => hoo he.symm
        rw [if_neg hoo, if_pos rfl]
        simp only [State.unref, State.ref, Function.update_self, Function.update_of_ne hne]
        simp only [hoo, or_false] at hc
        omega
    · have hio' : o.slot ≠ i := fun he => hio he.symm
      rw [if_neg hio']
      by_cases hio2 : i = o'.slot
      · subst hio2
        rw [if_pos rfl]
        simp only [State.unref, State.ref, Function.update_self, Function.update_of_ne hio]
        omega
      · have hio2' : o'.slot ≠ i := fun he => hio2 he.symm
        rw [if_neg hio2']
        simp only [State.unref, State.ref, Function.update_of_ne hio, Function.update_of_ne hio2]

theorem map (h : Sound s) (rt : Nat) {x y : π} (hc : ∀ o, s.fds x = some o →
    s.server.pageref o.slot < 65535 ∨ s.rows y = some o.slot) : Sound (System.step rt (.map x y) s) := by
  cases hx : s.fds x with
  | none =>
    have hstep : System.step rt (.map x y) s = s := by simp [System.step, hx]
    rw [hstep]
    exact h
  | some o =>
    have hstep : System.step rt (.map x y) s = ⟨(s.server.ref o.slot).unref (s.fds y),
        Function.update s.fds y (some o), s.opens, s.allocs⟩ := by simp [System.step, hx]
    rw [hstep]
    have hcount (i : Nat) (hi : i < MAXOPEN) := h.ref_pageref (hc o hx) hi
    refine ⟨fun i hi => ?_, fun i hi => ?_, fun i hi => ?_, fun z o' hz => ?_, h.recorded, h.unique⟩
    · dsimp only
      rw [unref_opentab]
      exact h.fileid i hi
    · exact unref_bounded (ref_bounded (h.bounded i hi) o.slot) (s.fds y)
    · have hp := h.counted i hi
      have hci := hcount i hi
      have hr := references_update s.rows y (some o.slot) i
      rw [rows_update]
      change references (Function.update s.rows y (some o.slot)) i + _ = _ at hr
      dsimp only
      simp only [Option.some.injEq] at hr
      change _ = references (Function.update s.rows y (some o.slot)) i + _
      omega
    · by_cases hzy : z = y
      · subst hzy
        simp only [Function.update_self, Option.some.injEq] at hz
        subst hz
        exact h.current x o hx
      · refine h.current z o' ?_
        simpa [hzy] using hz

section Open

variable (h : Sound s) {t : State} {i : Nat}
include h

omit [DecidableEq π] in
theorem same (ht : SameRows s.server t) : Sound { s with server := t } := by
  refine ⟨fun i hi => ?_, fun i hi => ?_, fun i hi => ?_, h.current, h.recorded, h.unique⟩
  · exact (ht.fileid i).trans (h.fileid i hi)
  · dsimp only
    rw [ht.pageref]
    exact h.bounded i hi
  · dsimp only
    rw [ht.pageref]
    exact h.counted i hi

omit [DecidableEq π] in
private theorem allocated_take (hi : i < MAXOPEN)
    (ht : ∀ j, (t.opentab j).fileid = ((s.server.take i).opentab j).fileid) :
    s.allocated t = Function.update s.allocs i (s.allocs i + 1) := by
  have hid := h.fileid i hi
  funext j
  by_cases hj : j = i
  · subst hj
    have hne : (t.opentab j).fileid ≠ (s.server.opentab j).fileid := by
      rw [ht]
      simp only [State.take, Function.update_self, MAXOPEN]
      omega
    rw [System.allocated, if_neg hne, Function.update_self]
  · rw [System.allocated, if_pos ?_, Function.update_of_ne hj]
    rw [ht]
    simp [State.take, hj]

omit [DecidableEq π] in
theorem taken (hf : s.server.freeRow = some i) (ht : SameRows (s.server.take i) t) :
    Sound { s with server := t, allocs := s.allocated t } := by
  obtain ⟨hi, hle⟩ := State.freeRow_some hf
  have hfree {x : π} {o : Open} (hx : s.fds x = some o) : o.slot ≠ i := h.unmapped_of_le hle hx
  rw [h.allocated_take hi ht.fileid]
  refine ⟨fun j hj => ?_, fun j hj => ?_, fun j hj => ?_, fun x o hx => ?_, fun o ho => ?_, h.unique⟩
  · have hid := h.fileid j hj
    dsimp only
    rw [ht.fileid j]
    by_cases hji : j = i
    · subst hji
      simp only [State.take, Function.update_self, MAXOPEN] at *
      omega
    · simpa [State.take, hji] using hid
  · have hb := h.bounded j hj
    dsimp only
    rw [ht.pageref]
    by_cases hji : j = i
    · simp [State.take, hji]
    · simpa [State.take, hji] using hb
  · have hc := h.counted j hj
    dsimp only
    rw [ht.pageref]
    by_cases hji : j = i
    · subst hji
      have hz : references s.rows j = 0 := references_eq_zero.mpr fun x hx => by
        obtain ⟨o, ho, he⟩ := Option.map_eq_some_iff.mp hx
        exact hfree ho he
      change _ = references s.rows j + _
      simp [State.take, hz]
    · change _ = references s.rows j + _
      simpa [State.take, hji] using hc
  · obtain ⟨ho, hcur⟩ := h.current x o hx
    refine ⟨ho, ?_⟩
    dsimp only
    rw [Function.update_of_ne (hfree hx)]
    exact hcur
  · obtain ⟨hs, hpos, hal, hid⟩ := h.recorded o ho
    refine ⟨hs, hpos, ?_, hid⟩
    dsimp only
    by_cases hoi : o.slot = i
    · rw [hoi] at hal ⊢
      rw [Function.update_self]
      omega
    · rwa [Function.update_of_ne hoi]

theorem hand (hf : s.server.freeRow = some i) (ht : SameRows (s.server.take i) t) (f mode : Nat) (x : π) :
    Sound (s.hand (t.give i f mode) i x) := by
  obtain ⟨hi, hle⟩ := State.freeRow_some hf
  have hfree {y : π} {o : Open} (hy : s.fds y = some o) : o.slot ≠ i := h.unmapped_of_le hle hy
  have hv := h.taken hf ht
  have hgive (j : Nat) : ((t.give i f mode).opentab j).fileid = (t.opentab j).fileid := by
    by_cases hji : j = i
    · subst hji
      simp [State.give]
    · simp [State.give, hji]
  have hal : s.allocated (t.give i f mode) = s.allocated t := by
    funext j
    rw [System.allocated, System.allocated, hgive]
  have hali : s.allocated t i = s.allocs i + 1 := by
    rw [h.allocated_take hi ht.fileid, Function.update_self]
  have hone : t.pageref i = 1 := by
    rw [ht.pageref]
    simp [State.take]
  -- the place that gets the new page had another row's, if any
  have hpage (j : Nat) : ((t.give i f mode).unref (s.fds x)).pageref j =
      (t.unref (s.fds x)).pageref j + if j = i then 1 else 0 := by
    cases hx : s.fds x with
    | none =>
      by_cases hji : j = i
      · subst hji
        simp [State.unref, State.give]
      · simp [State.unref, State.give, hji]
    | some o =>
      have hoi := hfree hx
      by_cases hji : j = i
      · subst hji
        have hjo : j ≠ o.slot := fun he => hoi he.symm
        simp [State.unref, State.give, hoi, hjo]
      · by_cases hjo : j = o.slot
        · subst hjo
          simp [State.unref, State.give, hji]
        · simp [State.unref, State.give, hji, hjo]
  have hcount (j : Nat) (hj : j < MAXOPEN) : (t.unref (s.fds x)).pageref j +
      (if s.rows x = some j then 1 else 0) = t.pageref j := hv.unref_pageref x hj
  unfold System.hand
  rw [hal, hgive]
  refine ⟨fun j hj => ?_, fun j hj => ?_, fun j hj => ?_, fun y o hy => ?_, fun o ho => ?_,
    fun o ho o' ho' hs ha => ?_⟩
  · dsimp only
    rw [unref_opentab, hgive]
    exact hv.fileid j hj
  · have hc := hcount j hj
    have hb := hv.bounded j hj
    dsimp only at hb ⊢
    rw [hpage]
    split_ifs with hji
    · subst hji
      omega
    · omega
  · have hc := hcount j hj
    have hp := hv.counted j hj
    have hr := references_update s.rows x (some i) j
    rw [rows_update]
    change t.pageref j = references s.rows j + (if s.allocated t j = 0 then 0 else 1) at hp
    change ((t.give i f mode).unref (s.fds x)).pageref j =
      references (Function.update s.rows x (some i)) j + (if s.allocated t j = 0 then 0 else 1)
    rw [hpage]
    simp only [Option.some.injEq] at hr
    by_cases hji : j = i
    · subst hji
      simp only [if_true] at hr ⊢
      omega
    · have hij : i ≠ j := fun he => hji he.symm
      simp only [hji, hij, if_false] at hr ⊢
      omega
  · by_cases hyx : y = x
    · subst hyx
      simp only [Function.update_self, Option.some.injEq] at hy
      subst hy
      exact ⟨List.mem_cons_self, rfl⟩
    · simp only [Function.update_of_ne hyx] at hy
      obtain ⟨ho, hcur⟩ := hv.current y o hy
      exact ⟨List.mem_cons_of_mem _ ho, hcur⟩
  · rcases List.mem_cons.mp ho with rfl | ho
    · refine ⟨hi, ?_, le_rfl, hv.fileid i hi⟩
      dsimp only
      omega
    · exact hv.recorded o ho
  · -- no open before was of this allocation
    have hnew (o : Open) (ho : o ∈ s.opens) (hs : o.slot = i) : o.alloc ≠ s.allocated t i := by
      have hle := (h.recorded o ho).2.2.1
      rw [hs] at hle
      omega
    rcases List.mem_cons.mp ho with rfl | ho <;> rcases List.mem_cons.mp ho' with rfl | ho'
    · rfl
    · exact absurd ha.symm (hnew o' ho' hs.symm)
    · exact absurd ha (hnew o ho hs)
    · exact h.unique o ho o' ho' hs ha

end Open

end Sound

omit [Fintype π] [DecidableEq π] in
theorem sameRows_take {s t : State} (h : SameRows s t) (i : Nat) : SameRows (s.take i) (t.take i) := by
  refine ⟨fun j => ?_, ?_⟩
  · by_cases hj : j = i
    · subst hj
      simp only [State.take, Function.update_self]
      rw [h.fileid]
    · simp only [State.take, Function.update_of_ne hj]
      exact h.fileid j
  · simp only [State.take]
    rw [h.pageref]

omit [Fintype π] [DecidableEq π] in
private theorem sameRows_receive (s : State) (page : Nat → UInt8) : SameRows s (s.receive page) :=
  ⟨fun _ => rfl, rfl⟩

/-- The page that is mapped once more has a reference count that can be counted up, or is mapped at
the same place already. -/
def Event.Counts : Event π → System π → Prop
  | .map x y, s => ∀ o, s.fds x = some o → s.server.pageref o.slot < 65535 ∨ s.rows y = some o.slot
  | _, _ => True

private theorem sound_open (h : Sound s) (rt : Nat) (x : π) (page : Nat → UInt8) :
    Sound (System.step rt (.open x page) s) := by
  have hrecv := sameRows_receive s.server page
  have hfree := freeRow_congr hrecv
  have hfailed {t : State} (hs : final (serveOpen rt) (s.server.receive page) = t)
      (hv : value (serveOpen rt) (s.server.receive page) ≠ some 0) :
      System.step rt (.open x page) s = { s with server := t, allocs := s.allocated t } := by
    simp only [System.step]
    split
    · next hz _ => exact absurd hz hv
    · rw [hs]
  rcases serveOpen_opened rt (s.server.receive page) with ⟨hsame, hv⟩ | ⟨i, t, hf, ht, hopen⟩
  · have hrows := trans_of SameRows hrecv hsame
    have hal : s.allocated (final (serveOpen rt) (s.server.receive page)) = s.allocs := by
      funext j
      rw [System.allocated, if_pos (hrows.fileid j)]
    rw [hfailed rfl hv, hal]
    exact h.same hrows
  · rw [hfree] at hf
    have htake := sameRows_take (trans_of SameRows hrecv ht) i
    cases hr : serveOpen rt (s.server.receive page) with
    | error e u =>
      rw [hr] at hopen
      cases hopen with
      | refused hu =>
        rw [hfailed (final_error hr) (by simp [value, hr])]
        exact h.taken hf (trans_of SameRows htake hu)
    | ok r u =>
      rw [hr] at hopen
      cases hopen with
      | failed hne hu =>
        rw [hfailed (final_ok hr) (by simpa [value, hr] using hne)]
        exact h.taken hf (trans_of SameRows htake hu)
      | handed f mode hu =>
        rename_i v
        have hstep : System.step rt (.open x page) s = s.hand (v.give i f mode) i x := by
          simp only [System.step, value, final, hr, hf]
        rw [hstep]
        exact h.hand hf (trans_of SameRows htake hu) f mode x

private theorem sound_step (rt : Nat) (e : Event π) (h : Sound s) (hc : e.Counts s) :
    Sound (System.step rt e s) := by
  cases e with
  | «open» x page => exact sound_open h rt x page
  | request r hr page =>
    have hk := sameRows_handler rt hr
    exact h.same (trans_of SameRows (sameRows_receive s.server page) (hk.final _))
  | map x y => exact h.map rt hc
  | unmap x => exact h.unmap rt x

private theorem sound_run (w : World) (rt : Nat) {events : List (Event π)}
    (hc : (clients π rt).Along Event.Counts events (System.init w)) :
    Sound ((clients π rt).run events (System.init w)) :=
  Machine.run_invariant (I := Sound) (fun e _ h hc => sound_step rt e h hc) (sound_init w) hc

end Sound

/-- What `openfile_lookup` yields for a file id. -/
def State.lookup (s : State) (id : Nat) : Option Nat := value (openfileLookup id) s

private theorem State.lookup_eq (s : State) (id : Nat) :
    s.lookup id = if s.Valid id then some (id % MAXOPEN) else none := by
  unfold State.lookup openfileLookup value
  rw [bind_ok (get_run s)]
  split_ifs
  · rfl
  · rfl

/-- What the table promises to clients. -/
structure Disciplined {π : Type} (s : System π) : Prop where
  congruent : ∀ i < MAXOPEN, (s.server.opentab i).fileid % MAXOPEN = i
  live : ∀ o, s.Live o → o ∈ s.opens ∧ 1 < s.server.pageref o.slot
  distinct : ∀ o o', s.Live o → s.Live o' → o.slot = o'.slot ∨ o.fileid = o'.fileid → o = o'
  lookup : ∀ id i, s.server.lookup id = some i ↔ ∃ o, s.Live o ∧ o.fileid = id ∧ o.slot = i
  stale : ∀ o ∈ s.opens, ¬s.Live o → s.allocs o.slot - o.alloc < 2 ^ 22 →
    s.server.lookup o.fileid = none

section Disciplined

variable {π : Type} [Fintype π] {s : System π} (h : Sound s)
include h

private theorem Sound.fileid_of_live {o : Open} (ho : s.Live o) :
    o.slot < MAXOPEN ∧ o.fileid = (s.server.opentab o.slot).fileid ∧ o.fileid % MAXOPEN = o.slot := by
  obtain ⟨x, hx⟩ := ho
  obtain ⟨hm, hcur⟩ := h.current x o hx
  obtain ⟨hs, -, -, hid⟩ := h.recorded o hm
  refine ⟨hs, ?_, ?_⟩
  · rw [h.fileid o.slot hs, hid, hcur]
  · rw [hid]
    simp only [MAXOPEN] at *
    omega

private theorem Sound.valid_iff (id : Nat) :
    s.server.Valid id ↔ ∃ o, s.Live o ∧ o.fileid = id ∧ o.slot = id % MAXOPEN := by
  have hi : id % MAXOPEN < MAXOPEN := Nat.mod_lt _ (by decide)
  constructor
  · rintro ⟨hp, hid⟩
    have hc := h.counted _ hi
    have hpos : references s.rows (id % MAXOPEN) ≠ 0 := by
      split_ifs at hc <;> omega
    obtain ⟨x, hx⟩ := references_ne_zero.mp hpos
    obtain ⟨o, ho, hslot⟩ := Option.map_eq_some_iff.mp hx
    have hlive : s.Live o := ⟨x, ho⟩
    refine ⟨o, hlive, ?_, hslot⟩
    rw [(h.fileid_of_live hlive).2.1, hslot]
    exact hid
  · rintro ⟨o, hlive, rfl, hslot⟩
    obtain ⟨x, hx⟩ := hlive
    obtain ⟨-, hc, hpos⟩ := h.pageref_of_live hx
    refine ⟨?_, ?_⟩
    · rw [← hslot]
      omega
    · rw [← hslot]
      exact (h.fileid_of_live ⟨x, hx⟩).2.1.symm

theorem Sound.slot_inj {o o' : Open} (ho : s.Live o) (ho' : s.Live o') (he : o.slot = o'.slot) :
    o = o' := by
  obtain ⟨x, hx⟩ := ho
  obtain ⟨x', hx'⟩ := ho'
  obtain ⟨hm, hcur⟩ := h.current x o hx
  obtain ⟨hm', hcur'⟩ := h.current x' o' hx'
  refine h.unique o hm o' hm' he ?_
  rw [hcur, hcur', he]

private theorem Sound.disciplined : Disciplined s := by
  refine ⟨fun i hi => ?_, fun o ho => ?_, fun o o' ho ho' he => ?_, fun id i => ?_, fun o ho hdead hfew => ?_⟩
  · rw [h.fileid i hi]
    simp only [MAXOPEN] at *
    omega
  · obtain ⟨x, hx⟩ := ho
    obtain ⟨-, hc, hpos⟩ := h.pageref_of_live hx
    exact ⟨(h.current x o hx).1, by omega⟩
  · refine h.slot_inj ho ho' (he.elim id fun hid => ?_)
    rw [← (h.fileid_of_live ho).2.2, ← (h.fileid_of_live ho').2.2, hid]
  · rw [State.lookup_eq]
    constructor
    · intro hl
      split_ifs at hl with hv
      obtain ⟨o, hlive, hid, hslot⟩ := (h.valid_iff id).mp hv
      refine ⟨o, hlive, hid, hslot.trans ?_⟩
      simpa using hl
    · rintro ⟨o, hlive, rfl, rfl⟩
      have hmod := (h.fileid_of_live hlive).2.2
      rw [if_pos ((h.valid_iff _).mpr ⟨o, hlive, rfl, hmod.symm⟩), hmod]
  · rw [State.lookup_eq, if_neg]
    intro hv
    obtain ⟨o', hlive, hid, hslot⟩ := (h.valid_iff _).mp hv
    obtain ⟨hs, -, hle, hoid⟩ := h.recorded o ho
    obtain ⟨x, hx⟩ := hlive
    obtain ⟨hm', hcur⟩ := h.current x o' hx
    obtain ⟨-, -, -, hoid'⟩ := h.recorded o' hm'
    have hsame : o'.slot = o.slot := by
      rw [hslot, hoid]
      simp only [MAXOPEN] at *
      omega
    -- within 2^22 allocations the file id does not come back
    have halloc : o.alloc = o'.alloc := by
      rw [hsame] at hcur hoid'
      rw [hoid, hoid'] at hid
      simp only [MAXOPEN] at *
      omega
    exact hdead ⟨x, by rw [hx, h.unique o ho o' hm' hsame.symm halloc]⟩

end Disciplined

/-- A page below the end of the user's part of an address space; `dup` takes any number for the new
descriptor, so every such page can be one. -/
abbrev Place := Fin Kernel.NENV × Fin 0xeec00

/-- The page of `INDEX2FD(n)`, from `FDTABLE` on. -/
def fdPage (n : Nat) : Fin 0xeec00 := Fin.ofNat 0xeec00 (0x20000 + n)

/-- The request to open `"/"` for reading. -/
def rootPage : Nat → UInt8 := fun i => if i = 0 then 47 else 0

theorem byte_receive (s : State) (page : Nat → UInt8) {i : Nat} (hi : i < PGSIZE) :
    (s.receive page).world.byte (fsreq + i) = page i := by
  have hlow : fsreq + i < DISKMAP := by
    simp only [fsreq, DISKMAP, PGSIZE] at *
    omega
  rw [byte_mapped (Or.inr hlow)]
  change splice s.world.mem fsreq PGSIZE page (fsreq + i) = page i
  rw [splice_inside _ _ (by omega), Nat.add_sub_cancel_left]

private theorem reqPath_rootPage (s : State) : (s.receive rootPage).reqPath = [47] := by
  have hbytes : ((List.range (MAXPATHLEN - 1)).map fun i => (s.receive rootPage).world.byte (fsreq + i)) =
      (List.range (MAXPATHLEN - 1)).map rootPage := by
    refine List.map_congr_left fun i hi => byte_receive s rootPage ?_
    have hlt := List.mem_range.mp hi
    simp only [MAXPATHLEN, PGSIZE] at *
    omega
  rw [State.reqPath, hbytes]
  decide

theorem reqOmode_rootPage (s : State) : (s.receive rootPage).reqOmode = 0 := by
  have hz (i : Nat) (hi : i < 4) : (s.receive rootPage).world.byte (fsreq + MAXPATHLEN + i) = 0 := by
    rw [Nat.add_assoc, byte_receive s rootPage (by simp only [MAXPATHLEN, PGSIZE]; omega)]
    exact if_neg (by simp only [MAXPATHLEN]; omega)
  have hw : (s.receive rootPage).reqOmode = u32 (fun _ => 0) 0 :=
    u32_congr hz
  rw [hw]
  decide

private theorem fileOpen_root (w : World) : fileOpen [47] w = .ok 0 w := by
  have hwalk : walkPath [47] w = .ok (.found 0 0) w := rfl
  rw [fileOpen, bind_ok hwalk]
  rfl

theorem serveOpen_root (rt : Nat) {s : State} {i : Nat} (hf : s.freeRow = some i)
    (hid : ((s.opentab i).fileid + MAXOPEN) % 4294967296 < 2147483648) :
    serveOpen rt (s.receive rootPage) = .ok 0 (((s.receive rootPage).take i).give i rt 0) := by
  have hpath := reqPath_rootPage s
  have hmode := reqOmode_rootPage s
  obtain ⟨r, hr⟩ : ∃ r, r = s.receive rootPage := ⟨_, rfl⟩
  rw [← hr] at hpath hmode ⊢
  have hwants (flag : Nat) : r.wants flag = false := by simp [State.wants, hmode]
  have hopen (t : State) : call (fileOpen [47]) t = .ok 0 t := by
    rw [call, fileOpen_root]
  have halloc : openfileAlloc r = .ok i (r.take i) := by
    have hfind : (List.range MAXOPEN).find? (fun i => r.pageref i ≤ 1) = some i := by
      rw [hr]
      exact hf
    rw [openfileAlloc, bind_ok (get_run r), hfind]
    rfl
  have hnone : call (if r.wants O_MKDIR then attempt (fileCreate r.reqPath FTYPE_DIR) else pure (.ok 0)) r =
      .ok (.ok 0) r := by
    rw [hwants]
    rfl
  have hwants' (flag : Nat) : (r.take i).wants flag = false := hwants flag
  have hmode' : (r.take i).reqOmode = 0 := hmode
  have hpos : ¬toS32 ((r.take i).opentab i).fileid < 0 := by
    have hsame : (r.opentab i).fileid = (s.opentab i).fileid := by rw [hr]; rfl
    simp only [State.take, Function.update_self, hsame]
    unfold toS32
    split_ifs <;> omega
  rw [serveOpen, bind_ok (get_run r), bind_ok hnone]
  dsimp only
  rw [bind_ok halloc, hpath, openAt, bind_ok (get_run _), if_neg hpos]
  rw [hwants', hwants', hwants', openOrCreate, if_neg (by decide), bind_ok (hopen _)]
  dsimp only
  rw [if_neg (by decide), bind_ok (hopen _), bind_ok (modify_run _ _), hmode', if_pos rfl]
  rfl

section Wrap

variable {π : Type} [DecidableEq π]

theorem step_open_root (rt : Nat) {s : System π} {i : Nat} (hf : s.server.freeRow = some i)
    (hid : ((s.server.opentab i).fileid + MAXOPEN) % 4294967296 < 2147483648) (x : π) :
    System.step rt (.open x rootPage) s =
      s.hand (((s.server.receive rootPage).take i).give i rt 0) i x := by
  have hr := serveOpen_root rt hf hid
  simp only [System.step, value, final, hr, hf]

private theorem run_maps (rt : Nat) {x : π} {o : Open} (ys : List π) {s : System π} (hx : s.fds x = some o)
    (hys : ys.Nodup) (hnone : ∀ y ∈ ys, s.fds y = none) (hb : s.server.pageref o.slot < 65536) :
    ((clients π rt).run (ys.map (Event.map x)) s).fds x = some o ∧
      ((clients π rt).run (ys.map (Event.map x)) s).server.opentab = s.server.opentab ∧
      ((clients π rt).run (ys.map (Event.map x)) s).server.pageref o.slot =
        (s.server.pageref o.slot + ys.length) % 65536 := by
  induction ys generalizing s with
  | nil => exact ⟨hx, rfl, (Nat.mod_eq_of_lt hb).symm⟩
  | cons y ys ih =>
    have hy := hnone y List.mem_cons_self
    obtain ⟨hnew, hrest⟩ := List.nodup_cons.mp hys
    have hyx : x ≠ y := by
      rintro rfl
      rw [hx] at hy
      cases hy
    have hstep : System.step rt (.map x y) s = { s with
        server := s.server.ref o.slot
        fds := Function.update s.fds y (some o) } := by
      simp only [System.step, hx, hy, State.unref]
    have hrun : (clients π rt).run ((y :: ys).map (Event.map x)) s =
        (clients π rt).run (ys.map (Event.map x)) (System.step rt (.map x y) s) := rfl
    have hone : (s.server.ref o.slot).pageref o.slot = (s.server.pageref o.slot + 1) % 65536 := by
      simp [State.ref]
    rw [hrun, hstep]
    obtain ⟨h1, h2, h3⟩ := ih (s := { s with
        server := s.server.ref o.slot
        fds := Function.update s.fds y (some o) }) (by simpa [hyx] using hx) hrest (by
      intro z hz
      have hzy : z ≠ y := by
        rintro rfl
        exact hnew hz
      simpa [hzy] using hnone z (List.mem_cons_of_mem _ hz)) (ref_bounded hb o.slot)
    refine ⟨h1, h2, ?_⟩
    rw [h3]
    dsimp only
    rw [hone, List.length_cons]
    omega

end Wrap

theorem State.freeRow_zero {s : State} (h : s.pageref 0 ≤ 1) : s.freeRow = some 0 := by
  have hrange : List.range MAXOPEN = 0 :: (List.range 1023).map Nat.succ := List.range_succ_eq_map
  rw [State.freeRow, hrange, List.find?_cons]
  simp [h]

/-- Descriptors from 33 on to which a client duplicates its first one; number 32 would be its data
page. -/
def places (k : Nat) : List Place := (List.range k).map fun n => (1, fdPage (33 + n))

private theorem length_places (k : Nat) : (places k).length = k := by
  rw [places, List.length_map, List.length_range]

private theorem places_nodup {k : Nat} (hk : k ≤ 65535) : (places k).Nodup := by
  refine List.Nodup.map_on (fun a ha b hb hab => ?_) List.nodup_range
  have ha := List.mem_range.mp ha
  have hb := List.mem_range.mp hb
  have hv : (131072 + (33 + a)) % 977920 = (131072 + (33 + b)) % 977920 :=
    congrArg (fun z : Place => z.2.val) hab
  omega

private theorem places_ne {k : Nat} (hk : k ≤ 65535) {y : Place} (hy : y ∈ places k) : y ≠ (1, fdPage 0) := by
  obtain ⟨n, hn, rfl⟩ := List.mem_map.mp hy
  have hn := List.mem_range.mp hn
  intro he
  have hv : (131072 + (33 + n)) % 977920 = (131072 + 0) % 977920 :=
    congrArg (fun z : Place => z.2.val) he
  omega

/-- A client opens `"/"` and duplicates the descriptor `k` times, then another one opens `"/"`. -/
def wrapRun (k : Nat) : List (Event Place) :=
  .open (1, fdPage 0) rootPage :: ((places k).map (Event.map (1, fdPage 0)) ++ [.open (2, fdPage 0) rootPage])

def firstOpen : Open := ⟨0, 1024, 1, 0⟩

section First

variable (w : World) (rt : Nat) {π : Type} [DecidableEq π] (x : π)

private theorem first_small : (((State.init w).opentab 0).fileid + MAXOPEN) % 4294967296 < 2147483648 := by
  change (0 + 1024) % 4294967296 < 2147483648
  decide

private theorem first_open : System.step rt (.open x rootPage) (System.init w) =
    (System.init w : System π).hand ((((State.init w).receive rootPage).take 0).give 0 rt 0) 0 x := by
  have hf : (State.init w).freeRow = some 0 := State.freeRow_zero (Nat.zero_le _)
  exact step_open_root rt (s := System.init w) hf (first_small w) x

private theorem first_halts : (clients π rt).halts (.open x rootPage) (System.init w) = false := by
  have hr := serveOpen_root rt (State.freeRow_zero (Nat.zero_le _)) (first_small w)
  change System.halts rt (.open x rootPage) (System.init w) = false
  simp only [System.halts, System.init, hr]

private theorem first_fds (y : π) : (System.step rt (.open x rootPage) (System.init w)).fds y =
    if y = x then some firstOpen else none := by
  rw [first_open]
  by_cases hy : y = x
  · subst hy
    simp [System.hand, System.allocated, State.give, State.take, State.receive, System.init, State.init,
      MAXOPEN, firstOpen]
  · simp [System.hand, System.init, hy]

private theorem first_rows : (System.step rt (.open x rootPage) (System.init w)).server.pageref 0 = 2 ∧
    ((System.step rt (.open x rootPage) (System.init w)).server.opentab 0).fileid = 1024 := by
  rw [first_open]
  simp [System.hand, State.unref, State.give, State.take, State.receive, System.init, State.init, MAXOPEN]

end First

/-- The page is counted from 2 through 65535 and 0 to 1, and the second open gets the row of the
first. -/
theorem wrapRun_undisciplined {k : Nat} (hk : k = 65535) (w : World) :
    ¬Disciplined ((clients Place 0).run (wrapRun k) (System.init w)) := by
  intro hd
  have hfds := first_fds w 0 ((1, fdPage 0) : Place)
  obtain ⟨hpage, hid⟩ := first_rows w 0 ((1, fdPage 0) : Place)
  have hhalts := first_halts w 0 ((1, fdPage 0) : Place)
  have hrun : (clients Place 0).run (wrapRun k) (System.init w) =
      System.step 0 (.open (2, fdPage 0) rootPage) ((clients Place 0).run ((places k).map (Event.map (1, fdPage 0)))
        (System.step 0 (.open ((1, fdPage 0) : Place) rootPage) (System.init w))) := by
    have hquiet : ∀ e ∈ (places k).map (Event.map ((1, fdPage 0) : Place)), ∀ t,
        (clients Place 0).halts e t = false := by
      intro e he t
      obtain ⟨y, -, rfl⟩ := List.mem_map.mp he
      rfl
    rw [wrapRun, Machine.run, hhalts]
    exact (Machine.run_append _ hquiet _ _).trans (Machine.run_single _)
  rw [hrun] at hd
  generalize System.step 0 (.open ((1, fdPage 0) : Place) rootPage) (System.init w) = s at hd hfds hpage hid
  obtain ⟨hlive, htab, hcount⟩ := run_maps 0 (places k) (s := s) (x := (1, fdPage 0)) (o := firstOpen)
    (by rw [hfds, if_pos rfl]) (places_nodup hk.le)
    (fun y hy => by rw [hfds, if_neg (places_ne hk.le hy)]) (by change s.server.pageref 0 < 65536; omega)
  generalize (clients Place 0).run ((places k).map (Event.map (1, fdPage 0))) s = t at hd hlive htab hcount
  have hone : t.server.pageref 0 = 1 := by
    have hc : t.server.pageref 0 = (s.server.pageref 0 + (places k).length) % 65536 := hcount
    rw [hc, hpage, length_places, hk]
  rw [step_open_root 0 (State.freeRow_zero hone.le) (by rw [htab, hid]; decide) ((2, fdPage 0) : Place)] at hd
  have hfirst : (t.hand (((t.server.receive rootPage).take 0).give 0 0 0) 0 ((2, fdPage 0) : Place)).Live
      firstOpen := by
    refine ⟨(1, fdPage 0), ?_⟩
    have hne : ((1, fdPage 0) : Place) ≠ (2, fdPage 0) := by
      intro he
      have hv := congrArg (fun z : Place => z.1.val) he
      cases hv
    unfold System.hand
    dsimp only
    rw [Function.update_of_ne hne]
    exact hlive
  have hsecond : (t.hand (((t.server.receive rootPage).take 0).give 0 0 0) 0 ((2, fdPage 0) : Place)).Live
      ⟨0, (((((t.server.receive rootPage).take 0).give 0 0 0).opentab 0).fileid),
        t.allocated (((t.server.receive rootPage).take 0).give 0 0 0) 0, t.opens.length⟩ := by
    refine ⟨(2, fdPage 0), ?_⟩
    unfold System.hand
    dsimp only
    rw [Function.update_self]
  have hdiff := congrArg Open.fileid (hd.distinct _ _ hfirst hsecond (Or.inl rfl))
  have hnew : (((((t.server.receive rootPage).take 0).give 0 0 0).opentab 0).fileid) = 2048 := by
    simp [State.give, State.take, State.receive, htab, hid, MAXOPEN]
  rw [hnew] at hdiff
  cases hdiff

/-- As long as no count of references goes beyond sixteen bits, every run of opens, duplications,
forks and closes keeps the discipline. -/
theorem openTable_discipline (w : World) (rt : Nat) (events : List (Event Place))
    (hc : (clients Place rt).Along Event.Counts events (System.init w)) :
    Disciplined ((clients Place rt).run events (System.init w)) :=
  (sound_run w rt hc).disciplined

/-- A client opens `"/"`, duplicates the descriptor for its child, and closes its own. -/
def passOn : List (Event Place) :=
  [.open (1, fdPage 0) rootPage, .map (1, fdPage 0) (2, fdPage 0), .unmap (1, fdPage 0)]

private theorem passOn_counts (w : World) : (clients Place 0).Along Event.Counts passOn (System.init w) := by
  refine ⟨trivial, fun _ => ⟨fun o ho => Or.inl ?_, fun _ => ⟨trivial, fun _ => trivial⟩⟩⟩
  have hfds := first_fds w 0 ((1, fdPage 0) : Place) (1, fdPage 0)
  rw [if_pos rfl] at hfds
  obtain rfl := Option.some.inj (hfds.symm.trans ho)
  have hp : (System.step 0 (.open ((1, fdPage 0) : Place) rootPage) (System.init w)).server.pageref 0 < 65535 := by
    rw [(first_rows w 0 ((1, fdPage 0) : Place)).1]
    decide
  exact hp

theorem openTable_discipline_passOn :
    Disciplined ((clients Place 0).run passOn (System.init (mount (freshDisk 4 1)))) :=
  openTable_discipline (mount (freshDisk 4 1)) 0 passOn (passOn_counts _)

theorem discipline_wraps : ¬∀ (w : World) (rt : Nat) (events : List (Event Place)),
    Disciplined ((clients Place rt).run events (System.init w)) :=
  fun h => wrapRun_undisciplined (k := 65535) rfl (mount (freshDisk 4 1)) (h _ 0 _)

end DamnOS.Server
