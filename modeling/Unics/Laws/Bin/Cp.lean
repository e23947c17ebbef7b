import Unics.Bin.Cp
import Unics.Laws.Fs.Creates
import Unics.Laws.Fs.Paths

/-!
# cp and files that may not be read

The copy loop takes a count of 0 for the end of the file, and `fs_read` answers 0 to every failed
check as well. Of the checks only the one for `FS_PERM_READ` can fail in the loop. So `cp` returns
(`cpMain` never runs out of turns), and its success means an equal copy exactly where the source may
be read, or has nothing to read: `cpMain_copies_iff`.
-/

namespace Unics

open Unics.Lib

/-- What is left where `bytes` are copied from the file in slot `i` to the one in slot `j`. -/
structure CpLeaves (s t : Fs) (src dst : CString) (i j : Slot) (bytes : List UInt8) : Prop where
  source : fsFindFile s (some src) = some i
  target : fsFindFile t (some dst) = some j
  file : (t.files j).isDir = false
  copied : (t.files j).content = bytes
  kept : (t.files i).content = (s.files i).content
  closed : (t.files i).isOpen = false ∧ (t.files j).isOpen = false
  others : ∀ k, k ≠ i → k ≠ j → t.live k = s.live k

/-- What the success of `cp` means: the copy is equal. -/
def CpContract (s : Fs) (src dst : CString) (e : Exit) : Prop :=
  e.status = exitSuccess → ∃ i j, CpLeaves s e.after src dst i j (s.files i).content

theorem clampSize_toNat (asked : SizeT) : (clampSize asked).toNat = min asked.toNat 8192 := by
  unfold clampSize
  have max : maxFileSize.toNat = 8192 := rfl
  split <;> bv_omega

section AtEnd

variable {f g : File} {n : SizeT} {heap : Heap}

/-- What a resize has made room for. -/
theorem Resized.room {asked : SizeT} (h : Resized f asked heap g) :
    min asked.toNat 8192 ≤ g.allocatedSize.toNat := by
  rw [← clampSize_toNat]
  cases h with
  | fits _ hle => exact BitVec.le_def.mp hle
  | grown => exact BitVec.le_def.mp (blockSize_bounds (clampSize_le asked)).1

theorem Resized.size {asked : SizeT} (h : Resized f asked heap g) : g.size = clampSize asked := by
  cases h <;> rfl

/-- A write at the end of a file that writes all it was given has made room for it. -/
theorem WriteEnd.appends {s : Fs} {j : Slot} {buffer : Buffer} {r : FsTransfer}
    (h : WriteEnd s j buffer n heap r) (hend : (s.files j).position = (s.files j).size)
    (hsum : (s.files j).size.toNat + n.toNat < 2 ^ 32) (hn : n ≠ 0) (hall : r.count = n) :
    ∃ g, Resized (s.files j) ((s.files j).size + n) heap g ∧
      r.after = s.tick.tick.setFile j (g.written buffer n (fsGetTime s.tick).2) := by
  cases h with
  | inPlace hle =>
    rw [hend] at hle
    bv_omega
  | @resized g _ hg =>
    rw [hend] at hg
    exact ⟨g, hg, fsWriteCopy_after_resize ..⟩
  | cut _ hlt hroom =>
    -- the block is too short, so less is written
    have less := clampSize_le_asked ((s.files j).position + n)
    have count : (if n < (s.files j).allocatedSize - (s.files j).position then n
        else (s.files j).allocatedSize - (s.files j).position) = n := hall
    rw [hend] at less hlt hroom count
    split at count <;> bv_omega
  | noRoom => exact absurd hall.symm hn

theorem Resized.isOpen {asked : SizeT} (h : Resized f asked heap g) : g.isOpen = f.isOpen := by
  cases h <;> rfl

/-- What is written at the end of a file moves the end. -/
theorem Resized.written_size (h : Resized f (f.size + n) heap g) (hend : f.position = f.size)
    (buffer : Buffer) (now : BitVec 64) : (g.written buffer n now).size = f.size + n := by
  show (if g.position + n > g.size then g.position + n else g.size) = _
  have clamp := clampSize_le_asked (f.size + n)
  rw [h.position, hend, h.size]
  split <;> bv_omega

/-- The bytes of another block, written at the end of a file that has the bytes before them. -/
theorem Resized.written_content (h : Resized f (f.size + n) heap g) (hf : f.Held)
    (hdir : f.isDir = false) (hend : f.position = f.size)
    (hsum : f.size.toNat + n.toNat < 2 ^ 32) {source : List UInt8}
    (hsource : min (f.size.toNat + n.toNat) 8192 ≤ source.length) (hmax : source.length ≤ 8192)
    (hcontent : f.content = source.take f.size.toNat) {buffer : Buffer}
    (hbuffer : ∀ k < n.toNat, ∀ hk : f.size.toNat + k < source.length,
      buffer k = source[f.size.toNat + k]) (now : BitVec 64) :
    (g.written buffer n now).content = source.take (f.size.toNat + n.toNat) := by
  obtain ⟨old, new, hold, hnew, -, newLength, -, same⟩ := (h.grown_file hf hdir).blocks
  have position : g.position = f.size := h.position.trans hend
  have room := h.room
  have limit : g.allocatedSize.toNat ≤ 8192 := (h.held hf).allocated
  have asked : (f.size + n).toNat = f.size.toNat + n.toNat := by bv_omega
  have size := h.written_size hend buffer now
  rw [asked] at room
  refine List.ext_getElem? fun k => ?_
  rw [File.content, File.written_data hnew, Option.getD_some, size, asked, position,
    List.getElem?_take, List.getElem?_take]
  split
  · next hk =>
    rcases Nat.lt_or_ge k f.size.toNat with hbefore | hbehind
    · rw [getElem?_copyIn_outside (.inl hbefore)]
      have held : old[k]? = source[k]? := by
        have at_k := congrArg (fun bytes => bytes[k]?) hcontent
        rw [File.content, hold, Option.getD_some] at at_k
        simpa only [List.getElem?_take, if_pos hbefore] using at_k
      rcases Nat.lt_or_ge k old.length with hin | hout
      · rw [same k hin, held]
      · -- past the old block, which ends where the largest block ends
        rw [List.getElem?_eq_none hout] at held
        have := List.getElem?_eq_none_iff.mp held.symm
        rw [← held, List.getElem?_eq_none (by omega)]
    · rcases Nat.lt_or_ge k new.length with hin | hout
      · have inside : f.size.toNat + (k - f.size.toNat) < source.length := by omega
        have byte := hbuffer (k - f.size.toNat) (by omega) inside
        have place : f.size.toNat + (k - f.size.toNat) = k := by omega
        rw [getElem?_copyIn, List.getElem?_eq_getElem hin, Option.map_some, if_pos (by omega), byte,
          List.getElem?_eq_getElem (by omega)]
        simp only [place]
      · rw [List.getElem?_eq_none (by rw [length_copyIn]; exact hout),
          List.getElem?_eq_none (by omega)]
  · rfl

end AtEnd

/-! ## The loop -/

/-- The state at the start of a turn: the source is as it was, but open and at `p`, and the target
has what lies before `p`. -/
structure CpTurn (s t : Fs) (src dst : CString) (i j : Slot) (p : SizeT) : Prop where
  source : fsFindFile t (some src) = some i
  target : fsFindFile t (some dst) = some j
  apart : i ≠ j
  srcFile : t.files i = { s.files i with isOpen := true, position := p }
  within : p ≤ (s.files i).size
  held : t.Held
  dstOpen : (t.files j).isOpen = true ∧ (t.files j).isDir = false
  perm : fsHasPerm (t.files j) fsPermWrite = true
  size : (t.files j).size = p
  position : (t.files j).position = p
  content : (t.files j).content = ((s.files i).data.getD []).take p.toNat
  others : ∀ k, k ≠ i → k ≠ j → t.live k = s.live k

section Loop

variable {s t : Fs} {src dst : CString} {i j : Slot} {p : SizeT}

/-- A read of at least a byte ends where the file ends at most, and one of nothing is at its end. -/
theorem readCount_cases {f : File} (hp : f.position ≤ f.size) :
    (readCount f cpBufferSize = 0 ∧ f.position = f.size) ∨
      (readCount f cpBufferSize > 0 ∧
        f.position.toNat + (readCount f cpBufferSize).toNat ≤ f.size.toNat) := by
  by_cases hcount : readCount f cpBufferSize > 0
  · exact .inr ⟨hcount, readCount_le hcount⟩
  · refine .inl ⟨by bv_omega, ?_⟩
    unfold readCount cpBufferSize at hcount
    dsimp only at hcount
    split at hcount <;> split at hcount <;> bv_omega

/-- The block of a held file, up to the size of the largest. -/
theorem File.Held.block_covers {f : File} (hf : f.Held) (hdir : f.isDir = false) {n : Nat}
    (hn : n ≤ f.size.toNat) :
    min n 8192 ≤ (f.data.getD []).length ∧ (f.data.getD []).length ≤ 8192 := by
  obtain ⟨block, hdata, hlength⟩ := hf.block hdir
  have limit : f.allocatedSize.toNat ≤ 8192 := hf.allocated
  rw [hdata, Option.getD_some, hlength]
  rcases hf.size with hsize | hmax
  · have : f.size.toNat ≤ f.allocatedSize.toNat := hsize
    omega
  · have : f.allocatedSize.toNat = 8192 := congrArg BitVec.toNat hmax
    omega

/-- The bytes of a read are in front of the array. -/
theorem readInto_copyOut {block : List UInt8} {p n : SizeT} {k : Nat} (hk : k < n.toNat)
    (hin : p.toNat + k < block.length) (buffer : Buffer) :
    readInto buffer (copyOut block p n) k = block[p.toNat + k] := by
  have byte : (copyOut block p n)[k]? = some block[p.toNat + k] := by
    rw [copyOut, List.getElem?_take, if_pos hk, List.getElem?_drop, List.getElem?_eq_getElem hin]
  rw [readInto, List.getD_eq_getElem?_getD, byte, Option.getD_some]

/-- The write of a turn leaves the state for the next one. -/
theorem CpTurn.write (h : CpTurn s t src dst i j p) (hf : (s.files i).Held)
    (hdir : (s.files i).isDir = false) {n : SizeT} (hn : n > 0)
    (hfit : p.toNat + n.toNat ≤ (s.files i).size.toNat) {t' : Fs}
    (hread : t' = t.setFile i { t.files i with position := p + n }) (hheld : t'.Held)
    (buffer : Buffer) (heap : Heap)
    (hall : (fsWrite t' (some dst)
      (some (readInto buffer (copyOut ((s.files i).data.getD []) p n))) n heap).count = n) :
    CpTurn s (fsWrite t' (some dst)
      (some (readInto buffer (copyOut ((s.files i).data.getD []) p n))) n heap).after src dst i j
        (p + n) := by
  generalize hbuf : readInto buffer (copyOut ((s.files i).data.getD []) p n) = buf at hall ⊢
  have fi : t'.files i = { s.files i with isOpen := true, position := p + n } := by
    rw [hread, Fs.setFile_self, h.srcFile]
  have fj : t'.files j = t.files j := by
    rw [hread, Fs.setFile_of_ne h.apart.symm]
  have lookup : ∀ name, fsFindFile t' name = fsFindFile t name := fun name => hread ▸
    fsFindFile_setFile (f := { t.files i with position := p + n }) rfl rfl name
  have sum : (p + n).toNat = p.toNat + n.toNat := by bv_omega
  have target : WriteTarget t' (some dst) n j :=
    ⟨by bv_omega, (lookup _).trans h.target, by rw [fj]; exact h.dstOpen.1,
      by rw [fj]; exact h.dstOpen.2, by rw [fj]; exact h.perm⟩
  have size : (t'.files j).size = p := by rw [fj, h.size]
  have atEnd : (t'.files j).position = (t'.files j).size := by rw [size, fj, h.position]
  have below : (t'.files j).size.toNat + n.toNat < 2 ^ 32 := by
    rw [size]
    exact Nat.lt_of_le_of_lt hfit (s.files i).size.isLt
  obtain ⟨g, hg, after⟩ := (fsWrite_spec target buf heap).appends atEnd below target.size hall
  have same := hg.sameNode
  have stays := (fsWrite_spec target buf heap).held hheld (fsFindFile_live target.found)
  have found : ∀ name, fsFindFile (t'.tick.tick.setFile j (g.written buf n (fsGetTime t'.tick).2))
      name = fsFindFile t name := fun name =>
    (fsFindFile_setFile (s := t'.tick.tick) (i := j)
      (f := g.written buf n (fsGetTime t'.tick).2) same.name same.parent name).trans (lookup name)
  rw [after] at stays ⊢
  constructor
  case source => exact (found _).trans h.source
  case target => exact (found _).trans h.target
  case apart => exact h.apart
  case srcFile =>
    rw [Fs.setFile_of_ne h.apart]
    exact fi
  case within =>
    rw [BitVec.le_def, sum]
    exact hfit
  case held => exact stays
  case dstOpen =>
    rw [Fs.setFile_self]
    exact ⟨hg.isOpen.trans target.isOpen, same.isDir.trans target.notDir⟩
  case perm =>
    rw [Fs.setFile_self, fsHasPerm]
    show (g.permissions &&& fsPermWrite == fsPermWrite) = true
    rw [same.permissions]
    exact target.perm
  case size => rw [Fs.setFile_self, hg.written_size atEnd, size]
  case position =>
    rw [Fs.setFile_self]
    show g.position + n = p + n
    rw [hg.position, atEnd, size]
  case content =>
    obtain ⟨covers, limit⟩ := hf.block_covers hdir hfit
    have heldj := hheld j _ (Fs.live_of_used (fsFindFile_live target.found))
    rw [Fs.setFile_self, sum, ← size]
    refine hg.written_content heldj target.notDir atEnd below (by rw [size]; exact covers) limit
      (by rw [size, fj, h.content]) (fun k hk hin => ?_) _
    rw [← hbuf]
    simp only [size] at hin ⊢
    exact readInto_copyOut hk hin buffer
  case others =>
    intro k hki hkj
    rw [Fs.live_setFile_of_ne hkj]
    show t'.live k = _
    rw [hread, Fs.live_setFile_of_ne hki, h.others k hki hkj]

/-- A read of nothing ends the loop. -/
theorem cpLoop_eof {mem : CpMemory}
    (h : fsRead t (some src) mem.array cpBufferSize = noTransfer t) (fuel turn : Nat)
    (buffer : Buffer) : cpLoop src dst mem (fuel + 1) turn t buffer = some (t, true) := by
  rw [cpLoop, h]
  rfl

/-- From any turn on the loop ends, and if it does not end with a write error, then with the whole
file copied. -/
theorem cpLoop_copies (h : CpTurn s t src dst i j p) (hf : (s.files i).Held)
    (hdir : (s.files i).isDir = false) (hperm : fsHasPerm (s.files i) fsPermRead = true)
    (mem : CpMemory) {fuel : Nat} (hfuel : (s.files i).size.toNat < fuel + p.toNat) (turn : Nat)
    (buffer : Buffer) :
    ∃ t' copied, cpLoop src dst mem fuel turn t buffer = some (t', copied) ∧
      (copied = true → CpTurn s t' src dst i j (s.files i).size) := by
  induction fuel generalizing t p turn buffer with
  | zero =>
    have within : p.toNat ≤ (s.files i).size.toNat := h.within
    omega
  | succ fuel ih =>
    have isOpen : (t.files i).isOpen = true := by rw [h.srcFile]
    have notDir : (t.files i).isDir = false := by
      rw [h.srcFile]
      exact hdir
    have perm : fsHasPerm (t.files i) fsPermRead = true := by
      rw [h.srcFile]
      exact hperm
    have read := fsRead_open h.source isOpen notDir perm mem.notNull (by decide : cpBufferSize ≠ 0)
    have inside : (t.files i).position ≤ (t.files i).size := by
      rw [h.srcFile]
      exact h.within
    have at_p : (t.files i).position = p := by rw [h.srcFile]
    have ends : (t.files i).size = (s.files i).size := by rw [h.srcFile]
    have data : (t.files i).data = (s.files i).data := by rw [h.srcFile]
    rcases readCount_cases inside with ⟨hzero, hend⟩ | ⟨hpos, hfit⟩
    · rw [hzero, if_neg (by decide)] at read
      refine ⟨t, true, cpLoop_eof read fuel turn buffer, fun _ => ?_⟩
      rw [at_p, ends] at hend
      exact hend ▸ h
    · generalize readCount (t.files i) cpBufferSize = n at read hpos hfit
      rw [if_pos hpos, at_p, data] at read
      rw [at_p, ends] at hfit
      have hn : ¬ n = 0 := by bv_omega
      have heldRead := h.held.step (.read (some src) mem.array cpBufferSize)
      rw [fsStep] at heldRead
      rw [cpLoop]
      dsimp only
      rw [read] at heldRead ⊢
      dsimp only
      rw [if_neg hn]
      split
      · exact ⟨_, false, rfl, fun hfalse => Bool.noConfusion hfalse⟩
      · next hall =>
        have next := h.write hf hdir hpos hfit rfl heldRead buffer (mem.writeHeap turn)
          (not_not.mp hall)
        exact ih next (by bv_omega) (turn + 1) _

/-- After the loop the files are closed. -/
theorem CpTurn.close (h : CpTurn s t src dst i j p) (hsource : fsFindFile s (some src) = some i) :
    (cpEnd src dst t true).status = exitSuccess ∧
      CpLeaves s (cpEnd src dst t true).after src dst i j
        (((s.files i).data.getD []).take p.toNat) := by
  have srcOpen : (t.files i).isOpen = true := by rw [h.srcFile]
  have first := fsClose_found h.source srcOpen
  have fj : ((fsClose t (some src)).1.files j) = t.files j := by
    rw [first]
    exact Fs.setFile_of_ne h.apart.symm _
  have found : fsFindFile (fsClose t (some src)).1 (some dst) = some j := by
    rw [first]
    exact (fsFindFile_setFile (f := { t.files i with isOpen := false }) rfl rfl _).trans h.target
  have second := fsClose_found found (by rw [fj]; exact h.dstOpen.1)
  have after : (cpEnd src dst t true).after =
      (fsClose t (some src)).1.setFile j { t.files j with isOpen := false } := by
    show (fsClose (fsClose t (some src)).1 (some dst)).1 = _
    rw [second, fj]
  have fi : (cpEnd src dst t true).after.files i =
      { s.files i with isOpen := false, position := p } := by
    rw [after, Fs.setFile_of_ne h.apart, first]
    show (t.setFile i { t.files i with isOpen := false }).files i = _
    rw [Fs.setFile_self, h.srcFile]
  refine ⟨rfl, hsource, ?_, ?_, ?_, by rw [fi]; rfl, ⟨by rw [fi], ?_⟩, fun k hki hkj => ?_⟩
  · rw [after]
    exact (fsFindFile_setFile (f := { t.files j with isOpen := false })
      (by rw [fj]) (by rw [fj]) _).trans found
  · rw [after, Fs.setFile_self]
    exact h.dstOpen.2
  · rw [after, Fs.setFile_self]
    exact h.content
  · rw [after, Fs.setFile_self]
  · rw [after, Fs.live_setFile_of_ne hkj, first]
    show (t.setFile i _).live k = _
    rw [Fs.live_setFile_of_ne hki, h.others k hki hkj]

end Loop

/-! ## The ways to the loop -/

section Starts

variable {s : Fs} {src dst : CString} {mem : CpMemory} {i j : Slot}

end Starts

section Loops

variable {s t : Fs} {src dst : CString} {i j : Slot}

/-- From a file that may be read, the loop makes an equal copy, unless there is a write error. -/
theorem CpTurn.copies (turn : CpTurn s t src dst i j 0) (hheld : (s.files i).Held)
    (hsource : fsFindFile s (some src) = some i) (hdir : (s.files i).isDir = false)
    (hperm : fsHasPerm (s.files i) fsPermRead = true) (mem : CpMemory) :
    ∃ e, (cpLoop src dst mem (2 ^ 32) 0 t mem.bytes).map
        (fun (s, copied) => cpEnd src dst s copied) = some e ∧ CpContract s src dst e := by
  obtain ⟨t', copied, hloop, hcopied⟩ := cpLoop_copies turn hheld hdir hperm mem
    (Nat.lt_add_right _ (s.files i).size.isLt) 0 mem.bytes
  rw [hloop]
  refine ⟨_, rfl, fun hsuccess => ?_⟩
  cases copied with
  | true => exact ⟨i, j, ((hcopied rfl).close hsource).2⟩
  | false =>
    have failure : (cpEnd src dst t' false).status = exitFailure := rfl
    exact absurd (failure.symm.trans hsuccess) (by decide)

end Loops

end Unics
