import DamnOS.FileSystem.ReadWrite
import DamnOS.User.Cat

/-!
# The files of the server

A regular file with all its blocks is a `ProgramFile`: `file_read` returns what `ProgramFile.count` says, hands
over its bytes and leaves the file as it is.
-/

namespace DamnOS.User

open DamnOS.Framework DamnOS.FileSystem

def storedFile (w : World) (k : Nat) (fails : Nat → Option Refusal) : ProgramFile where
  size := (w.cached.inode k).size
  byte p := w.byte (w.addrOf k p.toNat)
  fails := fails

/-- Every position of the file has a block. -/
def HasBlocks (w : World) (k : Nat) : Prop :=
  ∀ p < (w.cached.inode k).size, w.cached.slot k (p / BLKSIZE) ≠ 0

section Reads

variable {N : Nat} {w v : World} (h : Sane N w) {f : Nat} (hk : w.inInd f < N) (hm : EntryMapped f w)
  (hfull : HasBlocks w (w.inInd f)) {buf n a : Nat} (hbuf : FileSystem.Apart buf n) (fails : Nat → Option Refusal)
include h hk hm hfull hbuf

private theorem fileRead_stored {r : Int} (hread : fileRead f buf n a w = .ok r v) :
    r = (storedFile w (w.inInd f) fails).count n a ∧
      ∀ i < (storedFile w (w.inInd f) fails).count n a,
        v.byte (buf + i) = (storedFile w (w.inInd f) fails).byte ((a : Int) + i) := by
  have hs : Sane N (w.follow (w.inInd f)) := h.of_cached (h.ready.of_present rfl) (cached_of_byte rfl)
  obtain ⟨c, e, hc, -, hmoved, hok⟩ := fileRead_effect h hk hm (a := a) hbuf
  obtain ⟨rfl, hr⟩ := hok r v hread
  rw [final_ok hread] at hmoved
  have hcount : (storedFile w (w.inInd f) fails).count n a = c := by
    have hsize : (storedFile w (w.inInd f) fails).size = (w.cached.inode (w.inInd f)).size := rfl
    rw [ProgramFile.count, hsize]
    split <;> omega
  rw [hcount]
  refine ⟨hr, fun i hi => ?_⟩
  have hslot := hfull (a + i) (by omega)
  have hmove := hmoved.moved (a + i) (by omega) (by omega)
  simp only [World.target, World.source, Bool.false_eq_true, if_false, Nat.add_sub_cancel_left] at hmove
  rw [hmove, Moved.addrOf_kept hmoved.toFills hslot]
  rfl

private theorem storedFile_kept {r : Int} (hread : fileRead f buf n a w = .ok r v) :
    (storedFile v (w.inInd f) fails).size = (storedFile w (w.inInd f) fails).size ∧
      ∀ p < (storedFile w (w.inInd f) fails).size,
        (storedFile v (w.inInd f) fails).byte p = (storedFile w (w.inInd f) fails).byte p := by
  have hs : Sane N (w.follow (w.inInd f)) := h.of_cached (h.ready.of_present rfl) (cached_of_byte rfl)
  obtain ⟨c, e, hc, -, hmoved, hok⟩ := fileRead_effect h hk hm (a := a) hbuf
  obtain ⟨rfl, -⟩ := hok r v hread
  rw [final_ok hread] at hmoved
  refine ⟨hmoved.size, fun p hp => ?_⟩
  have hapart : FileSystem.Apart buf (a + c - a) := by
    simp only [FileSystem.Apart] at *
    omega
  obtain ⟨haddr, hbyte⟩ := hmoved.framed_read hs hapart le_rfl 0 0 (w.inInd f) p hk (hfull p hp)
    fun _ => .inr (Nat.zero_le p)
  simp only [storedFile, Int.toNat_natCast]
  rw [haddr, hbyte]
  rfl

/-- `cat` on a stored file that is shorter than its buffer writes what `file_read` reads, and so does the next one. -/
theorem cat_stored {r : Int} (hbuffer : n = BUFSIZ) (hread : fileRead f buf n 0 w = .ok r v)
    (hsmall : (w.cached.inode (w.inInd f)).size < BUFSIZ) {write : List UInt8 → Int} (hwrite : ∀ l, write l = l.length)
    {s : Loader} {e : Fin Kernel.NENV} {fd : BitVec 32} {x : Nat × Rights} (hfd : FreshFd s.toPaging e fd x) :
    ∀ fuel ≥ 2, Loader.cat (storedFile w (w.inInd f) fun _ => none) write e fd fuel s [] =
        some (.returned, (List.range r.toNat).map fun i => v.byte (buf + i)) ∧
      Loader.cat (storedFile v (w.inInd f) fun _ => none) write e fd fuel s [] =
        some (.returned, (List.range r.toNat).map fun i => v.byte (buf + i)) := by
  subst hbuffer
  obtain ⟨hr, hbytes⟩ := fileRead_stored h hk hm hfull hbuf (fun _ => none) hread
  obtain ⟨hsize, hkept⟩ := storedFile_kept h hk hm hfull hbuf (fun _ => none) hread
  have hsizew : (storedFile w (w.inInd f) fun _ => none).size < BUFSIZ := hsmall
  have hcount : (storedFile w (w.inInd f) fun _ => none).count BUFSIZ (0 : Nat) =
      (storedFile w (w.inInd f) fun _ => none).size := by
    rw [ProgramFile.count]
    split <;> omega
  rw [hcount] at hr hbytes
  have hout : (storedFile w (w.inInd f) fun _ => none).content =
      (List.range r.toNat).map fun i => v.byte (buf + i) := by
    rw [hr, Int.toNat_natCast, ProgramFile.content]
    refine List.map_congr_left fun i hi => ?_
    rw [hbytes i (List.mem_range.mp hi)]
    simp
  have hsame : (storedFile v (w.inInd f) fun _ => none).content = (storedFile w (w.inInd f) fun _ => none).content := by
    rw [ProgramFile.content, ProgramFile.content, hsize]
    exact List.map_congr_left fun i hi => hkept i (List.mem_range.mp hi)
  have hlimit : BUFSIZ ≤ NDIRECT * BLKSIZE := by decide
  have hcat {g : ProgramFile} (hfails : ∀ k, g.fails k = none) (hg : g.size < BUFSIZ) (fuel : Nat) (hf : fuel ≥ 2) :
      Loader.cat g write e fd fuel s [] = some (.returned, g.content) := by
    obtain ⟨k, rfl⟩ := Nat.exists_eq_add_of_le' hf
    rw [cat_run hfd.readsFrom hfails (hg.le.trans hlimit) hwrite, if_pos hg]
  intro fuel hf
  refine ⟨(hcat (fun _ => rfl) hsizew fuel hf).trans (by rw [hout]), ?_⟩
  exact (hcat (fun _ => rfl) (hsize.symm ▸ hsizew) fuel hf).trans (by rw [hsame, hout])

end Reads

end DamnOS.User
