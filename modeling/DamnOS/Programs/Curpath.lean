import DamnOS.Programs.Files

/-!
# The working directory on disk

The shell leaves its working directory in `/.global_var` for the programs it starts.  Saving opens the
file without `O_TRUNC`, so that the tail of a longer path stays behind a shorter one.
-/

namespace DamnOS.Programs

open DamnOS.Framework
open DamnOS.FileSystem
open DamnOS.Server

def globalVar : List UInt8 := [47, 46, 103, 108, 111, 98, 97, 108, 95, 118, 97, 114]

def saveCurpath (rt : Nat) (curpath : List UInt8) : C Unit := do
  let fd ← openFile rt globalVar (O_WRONLY ||| O_CREAT)
  if fd < 0 then throw .panic else do
    let _ ← write rt fd.toNat curpath
    let _ ← close rt fd.toNat
    pure ()

/-- `load_curpath` of `ls.c`: the string in `curpath` afterwards. -/
def loadCurpath (rt : Nat) : C (List UInt8) := do
  let fd ← openFile rt globalVar O_RDONLY
  if fd < 0 then throw .panic else do
    let r ← readn rt fd.toNat MAXPATHLEN
    let _ ← close rt fd.toNat
    pure (r.2.takeWhile (· != 0))

/-- The shell saves paths one after the other, and then `ls`, with descriptors and a request page of
its own, loads. -/
def persisted (rt : Nat) (paths : List (List UInt8)) (shell : Client) (buf : Nat → UInt8)
    (fds : Nat → Option Fd) : Option (List UInt8) :=
  match paths.forM (saveCurpath rt) shell with
  | .ok _ c => value (loadCurpath rt) ⟨c.server, buf, fds⟩
  | .error _ _ => none

/-- The file is there, and `text` are its first bytes. -/
def Present (N : Nat) (text : List UInt8) (w : World) : Prop :=
  ∃ d e, Kept N globalVar d e w ∧ w.text (w.inInd e) = text

/-- The file is there, or is still to be made. -/
def Holds (N : Nat) (text : List UInt8) (w : World) : Prop :=
  Present N text w ∨ Lacks N globalVar w ∧ text = []

theorem Present.alike {N : Nat} {text : List UInt8} {w v : World} (h : Present N text w) (ha : Alike w v) :
    Present N text v := by
  obtain ⟨d, e, hk, ht⟩ := h
  obtain ⟨hk', hin, ht'⟩ := hk.alike ha
  exact ⟨d, e, hk', by rw [hin, ht', ht]⟩

theorem Holds.alike {N : Nat} {text : List UInt8} {w v : World} (h : Holds N text w) (ha : Alike w v) :
    Holds N text v :=
  h.imp (fun hp => hp.alike ha) fun hl => ⟨hl.1.alike ha, hl.2⟩

private theorem alike_receive (s : State) (page : Nat → UInt8) : Alike s.world (s.receive page).world :=
  Alike.of_fill s.world page (by decide)

theorem Holds.openOrCreate {N : Nat} {text : List UInt8} {w : World} (h : Holds N text w) {creat : Bool}
    (hc : creat = true ∨ Present N text w) : ∃ d e u v, openOrCreate globalVar creat false w = .ok e u ∧
      fileOpen globalVar u = .ok e v ∧ Kept N globalVar d e v ∧ v.text (v.inInd e) = text := by
  -- once there is an entry, opening it again changes nothing
  have hagain {d e : Nat} {u : World} (hk : Kept N globalVar d e u) (ht : u.text (u.inInd e) = text) :
      ∃ v, fileOpen globalVar u = .ok e v ∧ Kept N globalVar d e v ∧ v.text (v.inInd e) = text := by
    obtain ⟨v, hv, hq⟩ := hk.fileOpen_kept
    obtain ⟨hk', hin, ht'⟩ := hk.alike (Alike.of_quiet hq)
    exact ⟨v, hv, hk', by rw [hin, ht', ht]⟩
  have hthere (hp : Present N text w) : ∃ d e u v, Server.openOrCreate globalVar creat false w = .ok e u ∧
      fileOpen globalVar u = .ok e v ∧ Kept N globalVar d e v ∧ v.text (v.inInd e) = text := by
    obtain ⟨d, e, hk, ht⟩ := hp
    cases creat with
    | false =>
      obtain ⟨u, hu, hk', ht'⟩ := hagain hk ht
      obtain ⟨v, hv, hkv, htv⟩ := hagain hk' ht'
      exact ⟨d, e, u, v, hu, hv, hkv, htv⟩
    | true =>
      obtain ⟨t, ht0, hq⟩ := hk.fileCreate_kept FTYPE_REG
      obtain ⟨hk', hin, ht'⟩ := hk.alike (Alike.of_quiet hq)
      obtain ⟨u, hu, hku, htu⟩ := hagain hk' (by rw [hin, ht', ht])
      obtain ⟨v, hv, hkv, htv⟩ := hagain hku htu
      refine ⟨d, e, u, v, ?_, hv, hkv, htv⟩
      have hatt : attempt (fileCreate globalVar FTYPE_REG) w = .ok (.error .fileExists) t := by
        rw [attempt, ht0]
      rw [Server.openOrCreate, if_pos rfl, bind_ok hatt]
      exact hu
  rcases h with hp | ⟨hl, rfl⟩
  · exact hthere hp
  · rcases hc with rfl | hp
    · obtain ⟨d, e, u, hu, hk, ht⟩ := hl.fileCreate
      obtain ⟨v, hv, hkv, htv⟩ := hagain hk ht
      refine ⟨d, e, u, v, ?_, hv, hkv, htv⟩
      have hatt : attempt (fileCreate globalVar FTYPE_REG) w = .ok (.ok e) u := by
        rw [attempt, hu]
      rw [Server.openOrCreate, if_pos rfl, bind_ok hatt]
      rfl
    · exact hthere hp

/-- The server before a call: the next row to be taken is `i`, with the file id `m`. -/
structure Prepared (N i m : Nat) (text : List UInt8) (s : State) : Prop where
  file : Holds N text s.world
  row : s.freeRow = some i
  fileid : (s.opentab i).fileid = m
  slot : m % MAXOPEN = i

/-- A descriptor `fd` of the program is open on the file, with the seek position `a`; descriptors and
references are otherwise as in `c₀`. -/
structure Working (N i m mode fd a : Nat) (text : List UInt8) (c₀ c : Client) : Prop where
  file : ∃ d, Kept N globalVar d (c.server.opentab i).file c.server.world
  text : c.server.world.text (c.server.world.inInd (c.server.opentab i).file) = text
  fileid : (c.server.opentab i).fileid = m
  slot : m < 4294967296 ∧ m % MAXOPEN = i
  mode : (c.server.opentab i).mode = mode
  pageref : c.server.pageref = Function.update c₀.server.pageref i 2
  offset : c.server.fdOffset i = a
  fds : c.fds = Function.update c₀.fds fd (some (.file i))

private theorem fsipc_ok {rt : Nat} {r : Request} {c : Client} {v : Int} {t : State}
    (h : r.handler rt (c.server.receive c.fsipcbuf) = .ok v t) : fsipc rt r c = .ok v (c.reply t) := by
  rw [fsipc, h]

private theorem openFile_run (rt : Nat) {c : Client} {fd : Nat} (hfd : c.fdAlloc = some fd) (mode : Nat) {r : Int}
    {t : State} (h : serveOpen rt (c.server.receive (openPage c.fsipcbuf globalVar mode)) = .ok r t) :
    openFile rt globalVar mode c = (if r < 0 then pure r else do
      if r = 0 then modify fun t => t.map fd c.server.freeRow else pure ()
      pure fd : C Int) (c.reply t) := by
  have hipc : fsipc rt .open { c with fsipcbuf := openPage c.fsipcbuf globalVar mode } =
      .ok r (c.reply t) := fsipc_ok h
  rw [openFile, if_neg (by decide), bind_ok (get_run c)]
  dsimp only
  rw [hfd]
  exact bind_ok hipc

section Opening

variable {N i m fd : Nat} {text : List UInt8} {c : Client} (rt : Nat) (h : Prepared N i m text c.server)
  (hfd : c.fdAlloc = some fd) {mode : Nat}
  (hmode : mode = O_WRONLY ||| O_CREAT ∨ mode = O_RDONLY ∧ Present N text c.server.world)
include h hfd hmode

private theorem openFile_working (hid : (m + MAXOPEN) % 4294967296 < 2147483648) : ∃ c',
    openFile rt globalVar mode c = .ok fd c' ∧
      Working N i ((m + MAXOPEN) % 4294967296) mode fd 0 text c c' := by
  obtain ⟨s, hs⟩ : ∃ s, s = c.server.receive (openPage c.fsipcbuf globalVar mode) := ⟨_, rfl⟩
  have ha : Alike c.server.world s.world := by
    rw [hs]
    exact alike_receive c.server _
  have hpath : s.reqPath = globalVar := by
    rw [hs]
    exact reqPath_openPage _ _ mode (by decide) (by decide)
  have homode : s.reqOmode = mode := by
    rw [hs]
    refine reqOmode_openPage _ _ _ ?_
    rcases hmode with rfl | ⟨rfl, -⟩ <;> decide
  have hwants (flag : Nat) : s.wants flag = (mode &&& flag != 0) := by rw [State.wants, homode]
  have hexcl : s.wants O_EXCL = false := by
    rw [hwants]
    rcases hmode with rfl | ⟨rfl, -⟩ <;> decide
  have hcreat : s.wants O_CREAT = true ∨ Present N text s.world := by
    rcases hmode with rfl | ⟨-, hp⟩
    · left
      rw [hwants]
      decide
    · exact Or.inr (hp.alike ha)
  obtain ⟨d, e, u, v, hopen, hagain, hk, ht⟩ := (h.file.alike ha).openOrCreate hcreat
  have hne : e ≠ 0 := by
    have hpos := hk.entry_pos
    simp only [DISKMAP] at hpos
    omega
  have hrow : s.freeRow = some i := by
    rw [hs]
    exact h.row
  have htab : s.opentab = c.server.opentab := by rw [hs]; rfl
  have hserve := serveOpen_file rt hrow (by rw [hwants]; rcases hmode with rfl | ⟨rfl, -⟩ <;> decide)
    (by rw [hwants]; rcases hmode with rfl | ⟨rfl, -⟩ <;> decide) (by rwa [htab, h.fileid])
    (by rw [hpath, hexcl]; exact hopen) (by rw [hpath]; exact hagain) hne
  rw [homode] at hserve
  generalize hgive : State.give _ i e mode = t at hserve
  have ht' := hgive.symm
  have hrun := openFile_run rt hfd mode (hs ▸ hserve)
  rw [if_neg (by decide)] at hrun
  have hfile : (t.opentab i).file = e := by simp [ht', State.give]
  refine ⟨(c.reply t).map fd c.server.freeRow, hrun, ⟨⟨d, ?_⟩, ?_, ?_, ?_, ?_, ?_, ?_, ?_⟩⟩
  · change Kept N globalVar d (t.opentab i).file t.world
    rw [hfile, ht']
    exact hk
  · change t.world.text (t.world.inInd (t.opentab i).file) = text
    rw [hfile, ht']
    exact ht
  · change (t.opentab i).fileid = _
    simp [ht', State.give, State.take, htab, h.fileid]
  · have hslot := h.slot
    simp only [MAXOPEN] at *
    omega
  · change (t.opentab i).mode = mode
    simp [ht', State.give]
  · change t.pageref = _
    rw [ht', hs]
    simp [State.give, State.take, State.receive]
  · change t.fdOffset i = 0
    simp [ht', State.give, State.take]
  · change Function.update c.fds fd (c.server.freeRow.map Fd.file) = _
    rw [h.row]
    rfl

private theorem openFile_exhausted (hid : 2147483648 ≤ (m + MAXOPEN) % 4294967296) :
    ∃ r c', openFile rt globalVar mode c = .ok r c' ∧ r < 0 := by
  obtain ⟨s, hs⟩ : ∃ s, s = c.server.receive (openPage c.fsipcbuf globalVar mode) := ⟨_, rfl⟩
  have homode : s.reqOmode = mode := by
    rw [hs]
    refine reqOmode_openPage _ _ _ ?_
    rcases hmode with rfl | ⟨rfl, -⟩ <;> decide
  have hrow : s.freeRow = some i := by
    rw [hs]
    exact h.row
  have htab : s.opentab = c.server.opentab := by rw [hs]; rfl
  have hmkdir : s.wants O_MKDIR = false := by
    rw [State.wants, homode]
    rcases hmode with rfl | ⟨rfl, -⟩ <;> decide
  obtain ⟨r, hr, hserve⟩ := serveOpen_exhausted rt hrow hmkdir (by rwa [htab, h.fileid])
  have hrun := openFile_run rt hfd mode (hs ▸ hserve)
  rw [if_pos hr] at hrun
  exact ⟨r, _, hrun, hr⟩

end Opening

section Working

variable {N i m mode fd a : Nat} {text : List UInt8} {c₀ c : Client} (rt : Nat)
  (h : Working N i m mode fd a text c₀ c) (hfd : fd < MAXFD)
include h

theorem Working.lookup (hfd : fd < MAXFD) : c.fdLookup fd = some (.file i) := by
  rw [Client.fdLookup, if_pos hfd, h.fds, Function.update_self]

theorem Working.valid {page : Nat → UInt8} (hid : u32 page 0 = m) :
    (c.server.receive page).reqFileid = m ∧ (c.server.receive page).Valid m := by
  have hreq : (c.server.receive page).reqFileid = m := by
    rw [State.reqFileid, ← hid]
    exact word_receive c.server page (a := 0) (by decide)
  refine ⟨hreq, ?_, ?_⟩
  · rw [h.slot.2]
    change 1 < c.server.pageref i
    rw [h.pageref, Function.update_self]
    decide
  · rw [h.slot.2]
    exact h.fileid

/-- The server has moved the file to another state and the seek position to `b`. -/
theorem Working.moved {t : State} {w : World} {b : Nat} {text' : List UInt8}
    (hopen : t.opentab = c.server.opentab) (hworld : t.world = w) (hrefs : t.pageref = c.server.pageref)
    (hoff : t.fdOffset i = b) {d : Nat} (hk : Kept N globalVar d (c.server.opentab i).file w)
    (ht : w.text (w.inInd (c.server.opentab i).file) = text') :
    Working N i m mode fd b text' c₀ (c.reply t) := by
  refine ⟨⟨d, ?_⟩, ?_, ?_, h.slot, ?_, hrefs.trans h.pageref, hoff, h.fds⟩
  · change Kept N globalVar d (t.opentab i).file t.world
    rwa [hopen, hworld]
  · change t.world.text (t.world.inInd (t.opentab i).file) = text'
    rwa [hopen, hworld]
  · change (t.opentab i).fileid = m
    rw [hopen, h.fileid]
  · change (t.opentab i).mode = mode
    rw [hopen, h.mode]

/-- The page of a request on a file id with a word after it. -/
def idPage (buf : Nat → UInt8) (m n : Nat) : Nat → UInt8 := splice (splice buf 0 4 (leByte m)) 4 4 (leByte n)

omit h in
private theorem u32_idPage (buf : Nat → UInt8) (m : Nat) {n : Nat} (hm : m < 4294967296) (hn : n < 4294967296) :
    u32 (idPage buf m n) 0 = m ∧ u32 (idPage buf m n) 4 = n := by
  rw [idPage, u32_splice_disjoint _ _ (by omega), u32_splice_same, u32_splice_same]
  exact ⟨Nat.mod_eq_of_lt hm, Nat.mod_eq_of_lt hn⟩

omit h in
private theorem advance_nat (s : State) (i : Nat) {a r : Nat} (ha : s.fdOffset i = a) (hr : a + r < 2147483648) :
    (s.advance i (r : Int)).fdOffset i = (a + r : Nat) ∧ (s.advance i (r : Int)).opentab = s.opentab ∧
      (s.advance i (r : Int)).world = s.world ∧ (s.advance i (r : Int)).pageref = s.pageref := by
  have hpos : (0 : Int) ≤ r := Int.natCast_nonneg r
  rw [State.advance, if_pos hpos]
  refine ⟨?_, rfl, rfl, rfl⟩
  simp only [Function.update_self, ha]
  unfold toS32 toU32
  split_ifs <;> omega

theorem Working.write {bytes : List UInt8} (h0 : a = 0) (hfd : fd < MAXFD)
    (hmode : mode &&& O_ACCMODE ≠ O_RDONLY) (hlen : bytes.length < MAXPATHLEN) : ∃ c',
      write rt fd bytes c = .ok bytes.length c' ∧
      Working N i m mode fd bytes.length (bytes ++ text.drop bytes.length) c₀ c' := by
  subst h0
  simp only [MAXPATHLEN] at hlen
  obtain ⟨page, hpage⟩ : ∃ page, page = splice (idPage c.fsipcbuf m bytes.length) 8 bytes.length
      fun j => bytes.getD j 0 := ⟨_, rfl⟩
  obtain ⟨hid, hn⟩ := u32_idPage c.fsipcbuf m (n := bytes.length) h.slot.1 (by omega)
  have hid' : u32 page 0 = m := by
    rw [hpage, u32_splice_disjoint _ _ (by omega), hid]
  have hn' : u32 page 4 = bytes.length := by
    rw [hpage, u32_splice_disjoint _ _ (by omega), hn]
  obtain ⟨s, hs⟩ : ∃ s, s = c.server.receive page := ⟨_, rfl⟩
  obtain ⟨hreq, hvalid⟩ := h.valid hid'
  have hword : s.reqWord = bytes.length := by
    rw [hs, State.reqWord, word_receive c.server page (by decide), hn']
  rw [← hs] at hreq hvalid
  have htab : s.opentab = c.server.opentab := by rw [hs]; rfl
  have hoff : s.fdOffset i = (0 : Nat) := by
    rw [hs]
    exact h.offset
  -- the file system writes the bytes behind the two words
  obtain ⟨d, hk⟩ := h.file
  obtain ⟨hks, hins, hts⟩ := hk.alike (hs ▸ alike_receive c.server page : Alike c.server.world s.world)
  obtain ⟨w, hw, hkw, hinw, htw⟩ := hks.fileWrite_kept
    (show bytes.length < MAXPATHLEN by simpa only [MAXPATHLEN] using hlen)
    (show Apart (fsreq + 8) bytes.length from Or.inl (by simp only [fsreq, DISKMAP]; omega))
    (by rw [hs]; exact present_receive c.server page (by simp only [PGSIZE]; omega))
  have hbytes : (List.range bytes.length).map (fun j => s.world.byte (fsreq + 8 + j)) = bytes := by
    apply List.ext_getElem
    · simp
    · intro j hj hj'
      simp only [List.getElem_map, List.getElem_range]
      rw [hs, Nat.add_assoc, byte_receive c.server page (by simp only [PGSIZE]; omega), hpage,
        splice_inside _ _ (by omega), Nat.add_sub_cancel_left]
      simp [hj']
  have hserve := serveWrite_run (s := s) (i := i) (by rw [hreq]; exact hvalid) (by rw [hreq]; exact h.slot.2)
    (r := bytes.length) (w := w) (by rw [htab, hword, hoff]; exact hw)
  obtain ⟨hadv, hopen, hworld, hrefs⟩ := advance_nat { s with world := w } i (r := bytes.length) hoff
    (by omega)
  rw [Nat.zero_add] at hadv
  generalize State.advance _ i (bytes.length : Int) = t at hserve hadv hopen hworld hrefs
  refine ⟨c.reply t, ?_, h.moved (hopen.trans htab) hworld ?_ hadv hkw ?_⟩
  · have hipc : fsipc rt .write { c with fsipcbuf := page } = .ok bytes.length (c.reply t) :=
      fsipc_ok (by rw [← hs]; exact hserve)
    have hacc : ¬c.accmode i = O_RDONLY := by
      rw [Client.accmode, h.mode]
      exact hmode
    have hmin : min bytes.length (PGSIZE - 8) = bytes.length := by
      simp only [PGSIZE]
      omega
    rw [Programs.write, bind_ok (get_run c), h.lookup hfd]
    dsimp only
    rw [if_neg hacc, devfileWrite, bind_ok (get_run c), Client.fileid, h.fileid, hmin]
    rw [hpage] at hipc
    exact hipc
  · rw [hrefs, hs]
    rfl
  · change w.text (w.inInd (c.server.opentab i).file) = _
    rw [hinw, htw, hbytes, hins, hts, h.text]

/-- A read moves the bytes from the seek position on, up to the size or the count. -/
theorem Working.read {n : Nat} (hfd : fd < MAXFD) (hmode : mode &&& O_ACCMODE ≠ O_WRONLY)
    (hn : a + n ≤ MAXPATHLEN) : ∃ c', read rt fd n c =
      .ok (((text.drop a).take n).length, (text.drop a).take n) c' ∧
      Working N i m mode fd (a + ((text.drop a).take n).length) text c₀ c' := by
  simp only [MAXPATHLEN] at hn
  obtain ⟨page, hpage⟩ : ∃ page, page = idPage c.fsipcbuf m n := ⟨_, rfl⟩
  obtain ⟨hid, hcount⟩ := u32_idPage c.fsipcbuf m (n := n) h.slot.1 (by omega)
  rw [← hpage] at hid hcount
  obtain ⟨s, hs⟩ : ∃ s, s = c.server.receive page := ⟨_, rfl⟩
  obtain ⟨hreq, hvalid⟩ := h.valid hid
  have hword : s.reqWord = n := by
    rw [hs, State.reqWord, word_receive c.server page (by decide), hcount]
  rw [← hs] at hreq hvalid
  have htab : s.opentab = c.server.opentab := by rw [hs]; rfl
  have hoff : s.fdOffset i = a := by
    rw [hs]
    exact h.offset
  obtain ⟨d, hk⟩ := h.file
  obtain ⟨hks, hins, hts⟩ := hk.alike (hs ▸ alike_receive c.server page : Alike c.server.world s.world)
  obtain ⟨w, hw, hlike, hbytes⟩ := hks.fileRead_kept
    (show a + n ≤ MAXPATHLEN by simpa only [MAXPATHLEN] using hn)
    (show Apart fsreq n from Or.inl (by simp only [fsreq, DISKMAP]; omega))
    (by rw [hs]; exact present_receive c.server page (a := 0) (by simp only [PGSIZE]; omega))
  have htext : s.world.text (s.world.inInd (c.server.opentab i).file) = text := by
    rw [hins, hts, h.text]
  have hlen := length_text s.world (s.world.inInd (c.server.opentab i).file)
  rw [htext] at hlen
  generalize hr : min n ((s.world.cached.inode (s.world.inInd (c.server.opentab i).file)).size - a) = r at hw hbytes
  have hr' : ((text.drop a).take n).length = r := by
    simp only [List.length_take, List.length_drop, hlen, MAXPATHLEN]
    omega
  have hmoved : (List.range r).map (fun j => w.byte (fsreq + j)) = (text.drop a).take n := by
    apply List.ext_getElem
    · simp [hr']
    · intro j hj hj'
      simp only [List.length_map, List.length_range] at hj
      simp only [List.getElem_map, List.getElem_range, List.getElem_take, List.getElem_drop]
      rw [hbytes j hj]
      simp only [← htext, getElem_text]
  have hserve := serveRead_run (s := s) (i := i) (by rw [hreq]; exact hvalid) (by rw [hreq]; exact h.slot.2)
    (r := r) (w := w) (by rw [htab, hword, hoff]; exact hw)
  obtain ⟨hadv, hopen, hworld, hrefs⟩ := advance_nat { s with world := w } i (r := r) hoff (by omega)
  generalize State.advance _ i (r : Int) = t at hserve hadv hopen hworld hrefs
  obtain ⟨hkw, hinw, htw⟩ := hks.alike hlike
  rw [hr']
  refine ⟨c.reply t, ?_, h.moved (hopen.trans htab) hworld ?_ hadv hkw ?_⟩
  · have hipc : fsipc rt .read { c with fsipcbuf := page } = .ok r (c.reply t) :=
      fsipc_ok (by rw [← hs]; exact hserve)
    have hacc : ¬c.accmode i = O_WRONLY := by
      rw [Client.accmode, h.mode]
      exact hmode
    have hgot : (List.range (r : Int).toNat).map (c.reply t).fsipcbuf = (text.drop a).take n := by
      rw [← hmoved, Int.toNat_natCast]
      change (List.range r).map (fun j => t.world.byte (fsreq + j)) = _
      rw [hworld]
    rw [Programs.read, bind_ok (get_run c), h.lookup hfd]
    dsimp only
    rw [if_neg hacc, devfileRead, bind_ok (get_run c), Client.fileid, h.fileid]
    rw [hpage] at hipc
    refine (bind_ok hipc).trans ?_
    rw [bind_ok (get_run _), hgot]
    rfl
  · rw [hrefs, hs]
    rfl
  · change w.text (w.inInd (c.server.opentab i).file) = _
    rw [hinw, htw, htext]

/-- `readn` of the longest path there is gives the first bytes of the file. -/
theorem Working.readn (h0 : a = 0) (hfd : fd < MAXFD) (hmode : mode &&& O_ACCMODE ≠ O_WRONLY)
    (hlen : text.length ≤ MAXPATHLEN) : ∃ b c', readn rt fd MAXPATHLEN c = .ok (text.length, text) c' ∧
      Working N i m mode fd b text c₀ c' := by
  subst h0
  obtain ⟨c₁, hr₁, h₁⟩ := h.read rt (n := MAXPATHLEN) hfd hmode (Nat.zero_add _).le
  rw [List.drop_zero, List.take_of_length_le hlen, Nat.zero_add] at h₁
  rw [List.drop_zero, List.take_of_length_le hlen] at hr₁
  have hfirst : Programs.readn rt fd MAXPATHLEN c = (if (text.length : Int) < 0 then pure (text.length, [])
      else if (text.length : Int) = 0 then pure (0, [])
      else readnLoop rt fd MAXPATHLEN 127 text : C (Int × List UInt8)) c₁ := by
    rw [Programs.readn, show MAXPATHLEN = 127 + 1 from rfl, readnLoop, if_pos (by decide)]
    exact bind_ok hr₁
  rw [hfirst, if_neg (by omega)]
  by_cases hz : text.length = 0
  · rw [if_pos (by omega)]
    obtain rfl := List.eq_nil_of_length_eq_zero hz
    exact ⟨_, c₁, rfl, h₁⟩
  rw [if_neg (by omega), readnLoop]
  by_cases hfull : text.length < MAXPATHLEN
  · obtain ⟨c₂, hr₂, h₂⟩ := h₁.read rt (n := MAXPATHLEN - text.length) hfd hmode (by omega)
    rw [List.drop_length, List.take_nil] at hr₂ h₂
    rw [if_pos hfull, bind_ok hr₂]
    exact ⟨_, c₂, rfl, h₂⟩
  · rw [if_neg hfull]
    exact ⟨_, c₁, rfl, h₁⟩

theorem Working.close (hfd : fd < MAXFD) (hrow : c₀.server.freeRow = some i) (hnone : c₀.fds fd = none) :
    ∃ r c', close rt fd c = .ok r c' ∧ c'.fds = c₀.fds ∧ Prepared N i m text c'.server ∧
      Present N text c'.server.world := by
  obtain ⟨page, hpage⟩ : ∃ page, page = splice c.fsipcbuf 0 4 (leByte m) := ⟨_, rfl⟩
  have hid : u32 page 0 = m := by
    rw [hpage, u32_splice_same]
    exact Nat.mod_eq_of_lt h.slot.1
  obtain ⟨s, hs⟩ : ∃ s, s = c.server.receive page := ⟨_, rfl⟩
  obtain ⟨hreq, hvalid⟩ := h.valid hid
  rw [← hs] at hreq hvalid
  have htab : s.opentab = c.server.opentab := by rw [hs]; rfl
  obtain ⟨d, hk⟩ := h.file
  obtain ⟨hks, hins, hts⟩ := hk.alike (hs ▸ alike_receive c.server page : Alike c.server.world s.world)
  obtain ⟨w, -, hload, hqw⟩ := hks.load_inInd
  obtain ⟨hkw, hinw, htw⟩ := hks.alike (Alike.of_quiet hqw)
  obtain ⟨v, hflush, hqv⟩ := hkw.fileFlush_kept
  obtain ⟨hkv, hinv, htv⟩ := hkw.alike (Alike.of_quiet hqv)
  have hserve := serveFlush_run (s := s) (i := i) (by rw [hreq]; exact hvalid) (by rw [hreq]; exact h.slot.2)
    (by rw [htab]; exact hload) hks.inode_ne_zero (by rw [htab]; exact hflush)
  obtain ⟨t, ht⟩ : ∃ t : State, t = { s with world := v } := ⟨_, rfl⟩
  rw [← ht] at hserve
  have hpresent : Present N text v := ⟨d, _, hkv, by rw [hinv, htv, hinw, htw, hins, hts, h.text]⟩
  have hrefs : t.pageref = Function.update c₀.server.pageref i 2 := by
    rw [ht, hs]
    exact h.pageref
  refine ⟨0, (c.reply t).unmap fd i, ?_, ?_, ⟨Or.inl ?_, ?_, ?_, h.slot.2⟩, ?_⟩
  · have hipc : fsipc rt .flush { c with fsipcbuf := page } = .ok 0 (c.reply t) :=
      fsipc_ok (by rw [← hs]; exact hserve)
    have hdev : devfileFlush rt i c = .ok 0 (c.reply t) := by
      rw [devfileFlush, bind_ok (get_run c), Client.fileid, h.fileid]
      rw [hpage] at hipc
      exact hipc
    rw [Programs.close, bind_ok (get_run c), h.lookup hfd]
    exact bind_ok hdev
  · change Function.update c.fds fd none = c₀.fds
    rw [h.fds, Function.update_idem, ← hnone, Function.update_eq_self]
  · rw [ht]
    exact hpresent
  · have hle := (State.freeRow_some hrow).2
    have hsame : (fun j => decide (((c.reply t).unmap fd i).server.pageref j ≤ 1)) =
        fun j => decide (c₀.server.pageref j ≤ 1) := by
      funext j
      change decide (Function.update t.pageref i ((t.pageref i + 65535) % 65536) j ≤ 1) = _
      rw [hrefs, Function.update_self, Function.update_idem]
      by_cases hj : j = i
      · subst hj
        simp [hle]
      · simp [hj]
    rw [State.freeRow, hsame]
    exact hrow
  · change (t.opentab i).fileid = m
    rw [ht]
    change (s.opentab i).fileid = m
    rw [htab, h.fileid]
  · rw [ht]
    exact hpresent

end Working

private theorem fdAlloc_some {c : Client} {fd : Nat} (h : c.fdAlloc = some fd) : fd < MAXFD ∧ c.fds fd = none := by
  have hm := List.mem_of_find?_eq_some h
  have ht := List.find?_some h
  exact ⟨List.mem_range.mp hm, by simpa using ht⟩

section Calls

variable {N i m fd : Nat} {text : List UInt8} {c : Client} (rt : Nat) (h : Prepared N i m text c.server)
  (hfd : c.fdAlloc = some fd)
include h hfd

private theorem saveCurpath_run {path : List UInt8} (hlen : path.length < MAXPATHLEN)
    (hid : m + MAXOPEN < 2147483648) : ∃ c', saveCurpath rt path c = .ok () c' ∧ c'.fds = c.fds ∧
      Prepared N i (m + MAXOPEN) (path ++ text.drop path.length) c'.server ∧
      Present N (path ++ text.drop path.length) c'.server.world := by
  obtain ⟨hlt, hnone⟩ := fdAlloc_some hfd
  have hmod : (m + MAXOPEN) % 4294967296 = m + MAXOPEN := Nat.mod_eq_of_lt (by omega)
  obtain ⟨c₁, hopen, h₁⟩ := openFile_working rt h hfd (Or.inl rfl) (by rwa [hmod])
  obtain ⟨c₂, hwrite, h₂⟩ := h₁.write rt rfl hlt (by decide) hlen
  obtain ⟨r, c₃, hclose, hfds, h₃, hp⟩ := h₂.close rt hlt h.row hnone
  rw [hmod] at h₃
  refine ⟨c₃, ?_, hfds, h₃, hp⟩
  rw [saveCurpath, bind_ok hopen, if_neg (by omega), Int.toNat_natCast, bind_ok hwrite, bind_ok hclose]
  rfl

private theorem saveCurpath_exhausted (path : List UInt8) (hm : m < 2147483648)
    (hid : ¬m + MAXOPEN < 2147483648) : ∃ c', saveCurpath rt path c = .error .panic c' := by
  have hmod : (m + MAXOPEN) % 4294967296 = m + MAXOPEN :=
    Nat.mod_eq_of_lt (by simp only [MAXOPEN] at *; omega)
  obtain ⟨r, c', hopen, hr⟩ := openFile_exhausted rt h hfd (Or.inl rfl) (by rw [hmod]; omega)
  refine ⟨c', ?_⟩
  rw [saveCurpath, bind_ok hopen, if_pos hr]
  rfl

/-- Loading gives the first bytes of the file up to the first NUL, as long as there are file ids. -/
theorem value_loadCurpath (hm : m < 2147483648) (hp : Present N text c.server.world) :
    value (loadCurpath rt) c =
      if m + MAXOPEN < 2147483648 then some (text.takeWhile (· != 0)) else none := by
  obtain ⟨hlt, hnone⟩ := fdAlloc_some hfd
  have hmod : (m + MAXOPEN) % 4294967296 = m + MAXOPEN :=
    Nat.mod_eq_of_lt (by simp only [MAXOPEN] at *; omega)
  have hlen : text.length ≤ MAXPATHLEN := by
    obtain ⟨d, e, -, ht⟩ := hp
    rw [← ht, length_text]
    exact Nat.min_le_right _ _
  split_ifs with hid
  · obtain ⟨c₁, hopen, h₁⟩ := openFile_working rt h hfd (Or.inr ⟨rfl, hp⟩) (by rwa [hmod])
    obtain ⟨b, c₂, hread, h₂⟩ := h₁.readn rt rfl hlt (by decide) hlen
    obtain ⟨r, c₃, hclose, -⟩ := h₂.close rt hlt h.row hnone
    have hrun : loadCurpath rt c = .ok (text.takeWhile (· != 0)) c₃ := by
      rw [loadCurpath, bind_ok hopen, if_neg (by omega), Int.toNat_natCast, bind_ok hread, bind_ok hclose]
      rfl
    rw [value, hrun]
  · obtain ⟨r, c', hopen, hr⟩ := openFile_exhausted rt h hfd (Or.inr ⟨rfl, hp⟩) (by rw [hmod]; omega)
    have hrun : loadCurpath rt c = .error .panic c' := by
      rw [loadCurpath, bind_ok hopen, if_pos hr]
      rfl
    rw [value, hrun]

end Calls

/-- What the file begins with after a number of paths were saved. -/
def layered (text : List UInt8) (paths : List (List UInt8)) : List UInt8 :=
  paths.foldl (fun t p => p ++ t.drop p.length) text

/-- The byte behind a path is the first one of the tail that an earlier, longer path has left. -/
theorem layered_end {text path : List UInt8} {paths : List (List UInt8)}
    (hnul : ∀ q ∈ paths, (0 : UInt8) ∉ q) : ((layered text paths).length ≤ path.length ∨
      (layered text paths)[path.length]? = some 0) ↔ (∀ q ∈ paths, q.length ≤ path.length) ∧
        (text.length ≤ path.length ∨ text[path.length]? = some 0) := by
  induction paths generalizing text with
  | nil => simp [layered]
  | cons p ps ih =>
    have hstep : layered text (p :: ps) = layered (p ++ text.drop p.length) ps := rfl
    rw [hstep, ih fun q hq => hnul q (List.mem_cons_of_mem p hq), List.forall_mem_cons]
    by_cases hle : p.length ≤ path.length
    · have hget : (p ++ text.drop p.length)[path.length]? = text[path.length]? := by
        rw [List.getElem?_append_right hle, List.getElem?_drop]
        congr 1
        omega
      have hlen : (p ++ text.drop p.length).length ≤ path.length ↔ text.length ≤ path.length := by
        simp only [List.length_append, List.length_drop]
        omega
      rw [hget, hlen]
      simp [hle]
    · have hlt : path.length < p.length := not_le.mp hle
      have hbyte : p[path.length] ≠ 0 := fun h0 =>
        hnul p List.mem_cons_self (h0 ▸ List.getElem_mem hlt)
      have hlen : ¬(p ++ text.drop p.length).length ≤ path.length := by
        simp only [List.length_append]
        omega
      rw [List.getElem?_append_left hlt, List.getElem?_eq_getElem hlt]
      constructor
      · intro hc
        rcases hc.2 with hshort | hzero
        · exact absurd hshort hlen
        · exact absurd (Option.some.inj hzero) hbyte
      · intro hc
        exact absurd hc.1.1 hle

private theorem layered_append (text : List UInt8) (ps : List (List UInt8)) (p : List UInt8) :
    layered text (ps ++ [p]) = p ++ (layered text ps).drop p.length := by
  simp [layered, List.foldl_append]

private theorem takeWhile_eq_iff {path rest : List UInt8} (h0 : (0 : UInt8) ∉ path) :
    (path ++ rest).takeWhile (· != 0) = path ↔ rest = [] ∨ rest[0]? = some 0 := by
  have hall : ∀ x ∈ path, (x != 0) = true := fun x hx => by
    simp only [bne_iff_ne, ne_eq]
    rintro rfl
    exact h0 hx
  rw [List.takeWhile_append_of_pos hall]
  cases rest with
  | nil => simp
  | cons x xs =>
    rw [List.append_right_eq_self, List.takeWhile_cons]
    by_cases hx : x = 0 <;> simp [hx]

private theorem saves_run (rt : Nat) {N i fd : Nat} (paths : List (List UInt8))
    (hlen : ∀ q ∈ paths, q.length < MAXPATHLEN) {m : Nat} {text : List UInt8} {c : Client} {limit : Nat}
    (hlimit : limit = 2147483648) (h : Prepared N i m text c.server) (hfd : c.fdAlloc = some fd) (hm : m < limit) :
    if m + MAXOPEN * paths.length < limit then
      ∃ c', paths.forM (saveCurpath rt) c = .ok () c' ∧ c'.fds = c.fds ∧
        Prepared N i (m + MAXOPEN * paths.length) (layered text paths) c'.server ∧
        (paths ≠ [] → Present N (layered text paths) c'.server.world)
    else ∃ e c', paths.forM (saveCurpath rt) c = .error e c' := by
  induction paths generalizing m text c with
  | nil =>
    rw [List.length_nil, Nat.mul_zero, Nat.add_zero, if_pos hm]
    exact ⟨c, rfl, rfl, h, fun hne => absurd rfl hne⟩
  | cons p ps ih =>
    by_cases hid : m + MAXOPEN < limit
    · obtain ⟨c₁, hsave, hfds, h₁, hp⟩ := saveCurpath_run rt h hfd (hlen p List.mem_cons_self) (hlimit ▸ hid)
      have hfd₁ : c₁.fdAlloc = some fd := by
        rw [Client.fdAlloc, hfds]
        exact hfd
      have hrest := ih (fun q hq => hlen q (List.mem_cons_of_mem p hq)) h₁ hfd₁ hid
      have hcount : m + MAXOPEN * (p :: ps).length = m + MAXOPEN + MAXOPEN * ps.length := by
        rw [List.length_cons]
        ring
      have hrun : (p :: ps).forM (saveCurpath rt) c = ps.forM (saveCurpath rt) c₁ := bind_ok hsave
      rw [hcount, hrun]
      split_ifs at hrest ⊢ with hmore
      · obtain ⟨c', hc', hfds', h', hp'⟩ := hrest
        refine ⟨c', hc', hfds'.trans hfds, h', fun _ => ?_⟩
        cases ps with
        | nil =>
          cases hc'
          exact hp
        | cons q qs => exact hp' (List.cons_ne_nil q qs)
      · exact hrest
    · obtain ⟨c', hc'⟩ := saveCurpath_exhausted rt h hfd p (hlimit ▸ hm) (hlimit ▸ hid)
      have hmore : ¬m + MAXOPEN * (p :: ps).length < limit := by
        rw [List.length_cons, Nat.mul_succ]
        omega
      rw [if_neg hmore]
      exact ⟨_, c', bind_error hc'⟩

/-- A shell and the `ls` it starts find the server ready for them, and the file with the first bytes
`text`, or room for it. -/
structure Session (N i : Nat) (text : List UInt8) (shell : Client) (buf : Nat → UInt8)
    (fds : Nat → Option Fd) : Prop where
  file : Holds N text shell.server.world
  row : shell.server.freeRow = some i
  slot : (shell.server.opentab i).fileid % MAXOPEN = i
  fileid : (shell.server.opentab i).fileid < 2147483648
  shellFd : shell.fdAlloc ≠ none
  lsFd : (Client.mk shell.server buf fds).fdAlloc ≠ none

private theorem persisted_eq (rt : Nat) {N i : Nat} {shell : Client} {text : List UInt8}
    {paths : List (List UInt8)} {buf : Nat → UInt8} {fds : Nat → Option Fd}
    (h : Session N i text shell buf fds) (hne : paths ≠ [])
    (hlen : ∀ q ∈ paths, q.length < MAXPATHLEN) : persisted rt paths shell buf fds =
      if (shell.server.opentab i).fileid + MAXOPEN * (paths.length + 1) < 2147483648 then
        some ((layered text paths).takeWhile (· != 0)) else none := by
  obtain ⟨fd, hfd⟩ := Option.ne_none_iff_exists'.mp h.shellFd
  obtain ⟨fd', hfd'⟩ := Option.ne_none_iff_exists'.mp h.lsFd
  have hruns := saves_run rt paths hlen rfl ⟨h.file, h.row, rfl, h.slot⟩ hfd h.fileid
  generalize (shell.server.opentab i).fileid = m at *
  have hcount : m + MAXOPEN * (paths.length + 1) = m + MAXOPEN * paths.length + MAXOPEN := by ring
  rw [hcount]
  unfold persisted
  split_ifs at hruns with hmany
  · obtain ⟨c, hrun, -, hprep, hpresent⟩ := hruns
    rw [hrun]
    exact value_loadCurpath (c := ⟨c.server, buf, fds⟩) rt hprep hfd' hmany (hpresent hne)
  · obtain ⟨e, c, hrun⟩ := hruns
    rw [hrun, if_neg (by omega)]

/-- The paths that were saved before are no longer, and the file ended in time. -/
def Covers (text path : List UInt8) (earlier : List (List UInt8)) : Prop :=
  (∀ q ∈ earlier, q.length ≤ path.length) ∧ (text.length ≤ path.length ∨ text[path.length]? = some 0)

/-- The last path is loaded again exactly if no longer path was saved before it, nothing of the first
contents of the file shows behind it, and the file ids last. -/
theorem persisted_iff (rt N i : Nat) (shell : Client) (text : List UInt8) (paths : List (List UInt8))
    (path : List UInt8) (buf : Nat → UInt8) (fds : Nat → Option Fd) (h : Session N i text shell buf fds)
    (hpaths : ∀ q ∈ paths ++ [path], q.length < MAXPATHLEN ∧ (0 : UInt8) ∉ q) :
    persisted rt (paths ++ [path]) shell buf fds = some path ↔
      (shell.server.opentab i).fileid + MAXOPEN * (paths.length + 2) < 2147483648 ∧
        Covers text path paths := by
  have hnul : (0 : UInt8) ∉ path := (hpaths path (by simp)).2
  rw [persisted_eq rt h (by simp) fun q hq => (hpaths q hq).1, List.length_append, List.length_singleton,
    layered_append]
  split_ifs with hids
  · rw [Option.some_inj, takeWhile_eq_iff hnul, List.drop_eq_nil_iff, List.getElem?_drop, Nat.add_zero,
      layered_end fun q hq => (hpaths q (List.mem_append_left _ hq)).2]
    exact (and_iff_right hids).symm
  · exact iff_of_false (fun he => by cases he) fun hc => hids hc.1

def freshShell : Client := ⟨State.init (mount (freshDisk 4 1)), fun _ => 0, fun _ => none⟩

private theorem session_fresh : Session 4 0 [] freshShell (fun _ => 0) fun _ => none where
  file := Or.inr ⟨⟨orderly_fresh, by decide, ⟨0, globalVar.tail, blockVa 2, 1, by decide +kernel,
    by decide, by decide +kernel, by decide +kernel, by decide +kernel⟩, by decide +kernel⟩, rfl⟩
  row := by decide +kernel
  slot := by decide
  fileid := by decide
  shellFd := by decide
  lsFd := by decide

/-- The shell goes from `/` to `/a`. -/
theorem persisted_iff_longer :
    persisted 0 [[47], [47, 97]] freshShell (fun _ => 0) (fun _ => none) = some [47, 97] :=
  (persisted_iff 0 4 0 freshShell [] [[47]] [47, 97] _ _ session_fresh (by decide)).mpr
    ⟨by decide, by decide, by decide⟩

/-- And back again: `ls` still finds `/a`. -/
theorem persisted_loses : ¬∀ (rt N i : Nat) (shell : Client) (text : List UInt8)
    (paths : List (List UInt8)) (path : List UInt8) (buf : Nat → UInt8) (fds : Nat → Option Fd),
    Session N i text shell buf fds →
      (∀ q ∈ paths ++ [path], q.length < MAXPATHLEN ∧ (0 : UInt8) ∉ q) →
      persisted rt (paths ++ [path]) shell buf fds = some path := by
  intro hall
  have hlast := hall 0 4 0 freshShell [] [[47, 97]] [47] _ _ session_fresh (by decide)
  rw [persisted_eq 0 session_fresh (by decide) (by decide)] at hlast
  revert hlast
  decide

end DamnOS.Programs
