import Unics.Bin.Ed
import Unics.Laws.Fs.Creates
import Unics.Laws.Fs.Paths

/-!
# ed saves over what is there

`write_to_file` opens a file that exists and writes the buffer from its start on. Nothing takes away
what lies behind, so a longer file keeps its end, and an empty buffer leaves every file as it is.
The command returns 0 all the same. `writeToFile_saves_iff` is the exact condition.
-/

namespace Unics

open Unics.Lib

/-- The file of that name has these bytes and no others. -/
def Saved (s : Fs) (filename : CString) (bytes : List UInt8) : Prop :=
  ∃ i, fsFindFile s (some filename) = some i ∧ (s.files i).size.toNat = bytes.length ∧
    (s.files i).content = bytes

/-- A success of `write_to_file` means that the buffer is saved. -/
def SavesBuffer (r : Fs × Int) (filename : CString) (buffer : Buffer) (n : SizeT) : Prop :=
  r.2 = 0 → Saved r.1 filename (bytesAt buffer 0 n.toNat)

/-- A file that the write changes, or has nothing to write to. -/
def SaveTarget (f : File) (n : SizeT) : Prop := n = 0 ∨ fsHasPerm f fsPermWrite = true

section Write

variable {s : Fs} {filename : CString} {i : Slot} {buffer : Buffer} {n : SizeT} {heap : Heap}

/-- A write at the start of a file, up to its end or beyond it. -/
theorem Overlaid.whole {old new : List UInt8} {n : Nat} (h : Overlaid old 0 n buffer new)
    (hn : old.length ≤ n) : new = bytesAt buffer 0 n := by
  have length := h.length
  refine List.ext_getElem? fun j => ?_
  rcases Nat.lt_or_ge j n with hj | hj
  · have laid := h.laid j hj
    rw [Nat.zero_add] at laid
    rw [laid, bytesAt, ← List.range_eq_range', List.getElem?_map, List.getElem?_range hj]
    rfl
  · rw [List.getElem?_eq_none (by omega), List.getElem?_eq_none (by rw [length_bytesAt]; exact hj)]

/-- What is saved when the file is closed. -/
theorem saved_close {t : Fs} {bytes : List UInt8} (hfound : fsFindFile t (some filename) = some i)
    (hopen : (t.files i).isOpen = true) :
    Saved (fsClose t (some filename)).1 filename bytes ↔
      (t.files i).size.toNat = bytes.length ∧ (t.files i).content = bytes := by
  have closed := fsClose_found hfound hopen
  have found :
      fsFindFile (t.setFile i { t.files i with isOpen := false }) (some filename) = some i :=
    (fsFindFile_setFile (f := { t.files i with isOpen := false }) rfl rfl _).trans hfound
  rw [closed]
  constructor
  · rintro ⟨k, hk, size, content⟩
    obtain rfl := Option.some.inj (found.symm.trans hk)
    rw [Fs.setFile_self] at size content
    exact ⟨size, content⟩
  · rintro ⟨size, content⟩
    refine ⟨i, found, ?_, ?_⟩
    · rw [Fs.setFile_self]
      exact size
    · rw [Fs.setFile_self]
      exact content

/-- A write that falls short because the block could not grow: the file was not longer. -/
theorem File.Held.size_le_of_short {f : File} (hf : f.Held) (hn : n.toNat ≤ maxFileSize.toNat)
    (hshort : f.allocatedSize.toNat < n.toNat) : f.size ≤ n := by
  rcases hf.size with hsize | hmax
  · have : f.size.toNat ≤ f.allocatedSize.toNat := hsize
    exact BitVec.le_def.mpr (by omega)
  · rw [hmax] at hshort
    exact absurd hn (Nat.not_le.mpr hshort)

/-- A file that has just been opened. -/
structure OpenAtStart (s : Fs) (filename : CString) (i : Slot) : Prop where
  held : (s.files i).Held
  found : fsFindFile s (some filename) = some i
  isOpen : (s.files i).isOpen = true
  notDir : (s.files i).isDir = false
  position : (s.files i).position = 0

theorem openAtStart_of_closed (hheld : s.Held) (hfound : fsFindFile s (some filename) = some i)
    (hdir : (s.files i).isDir = false) (hclosed : (s.files i).isOpen = false) :
    OpenAtStart (s.setFile i { s.files i with isOpen := true, position := 0 }) filename i := by
  have held := hheld.step (.openFile (some filename))
  have found : fsFindFile (s.setFile i { s.files i with isOpen := true, position := 0 })
      (some filename) = some i :=
    (fsFindFile_setFile (f := { s.files i with isOpen := true, position := 0 }) rfl rfl _).trans
      hfound
  rw [fsStep, fsOpen_found hfound hdir hclosed] at held
  refine ⟨held i _ (Fs.live_of_used (fsFindFile_live found)), found, ?_, ?_, ?_⟩
  · rw [Fs.setFile_self]
  · rw [Fs.setFile_self]
    exact hdir
  · rw [Fs.setFile_self]

/-- An empty buffer is saved exactly if there is nothing in the file. -/
theorem OpenAtStart.saves_nothing (h : OpenAtStart s filename i) :
    Saved (fsClose s (some filename)).1 filename [] ↔ (s.files i).size ≤ 0 := by
  rw [saved_close h.found h.isOpen]
  constructor
  · intro hsaved
    exact BitVec.le_def.mpr (Nat.le_of_eq hsaved.1)
  · intro hsize
    have none : (s.files i).size.toNat = 0 := Nat.le_zero.mp hsize
    refine ⟨none, ?_⟩
    rw [File.content, none, List.take_zero]

/-- A file that may not be written takes nothing. -/
theorem OpenAtStart.refuses (h : OpenAtStart s filename i)
    (hperm : fsHasPerm (s.files i) fsPermWrite = false) :
    fsWrite s (some filename) (some buffer) n heap = noTransfer s := by
  refine fsWrite_no_target (fun k target => ?_) _ _
  obtain rfl := Option.some.inj (h.found.symm.trans target.found)
  exact Bool.false_ne_true (hperm.symm.trans target.perm)

/-- A write that is allowed falls short in a file that was not longer, or takes all of the buffer,
which is then saved exactly if the file was not longer. -/
theorem OpenAtStart.writes (h : OpenAtStart s filename i) (hzero : n ≠ 0)
    (hn : n.toNat ≤ maxFileSize.toNat) (hperm : fsHasPerm (s.files i) fsPermWrite = true) :
    ((fsWrite s (some filename) (some buffer) n heap).count ≠ n ∧ (s.files i).size ≤ n) ∨
      ((fsWrite s (some filename) (some buffer) n heap).count = n ∧
        (Saved (fsClose (fsWrite s (some filename) (some buffer) n heap).after (some filename)).1
          filename (bytesAt buffer 0 n.toNat) ↔ (s.files i).size ≤ n)) := by
  have target : WriteTarget s (some filename) n i := ⟨hzero, h.found, h.isOpen, h.notDir, hperm⟩
  have fits : (s.files i).position.toNat + n.toNat ≤ maxFileSize.toNat := by
    rw [h.position]
    exact (Nat.zero_add _).symm ▸ hn
  have short : (s.files i).allocatedSize.toNat < (s.files i).position.toNat + n.toNat →
      (s.files i).size ≤ n := by
    intro hlt
    rw [h.position] at hlt
    exact h.held.size_le_of_short hn (Nat.lt_of_lt_of_eq hlt (Nat.zero_add _))
  rcases (fsWrite_spec target buffer heap).lays h.held h.notDir hzero fits with
    ⟨g, k, now, lays⟩ | ⟨hidle, -, hlt⟩
  · by_cases hall : k = n
    · -- all of the buffer is written over the start of the file
      refine .inr ⟨lays.count.trans hall, ?_⟩
      rw [saved_close (lays.lookup h.found) (lays.isOpen target), length_bytesAt]
      have overlaid := lays.overlaid h.held fits
      have after := lays.size
      rw [← lays.file, hall, h.position] at overlaid
      rw [← lays.file, hall, h.position, show (0 : SizeT).toNat + n.toNat = n.toNat from
        Nat.zero_add _] at after
      rw [after]
      have length : (s.files i).content.length ≤ (s.files i).size.toNat := List.length_take_le _ _
      constructor
      · intro hsaved
        have bound := hsaved.1
        exact BitVec.le_def.mpr (by omega)
      · intro hsize
        have bound : (s.files i).size.toNat ≤ n.toNat := hsize
        exact ⟨by omega, overlaid.whole (by omega)⟩
    · refine .inl ⟨?_, short (lays.full.resolve_left hall).2⟩
      rw [lays.count]
      exact hall
  · refine .inl ⟨?_, short hlt⟩
    rw [hidle]
    exact Ne.symm hzero

/-- What `write_to_file` saves is what its write has left, if that took the whole buffer. -/
theorem writeCreated_saves {t : Fs} (hopened : fsOpen s (some filename) = (t, .success)) :
    SavesBuffer (writeCreated s (some buffer) n filename heap) filename buffer n ↔
      ((fsWrite t (some filename) (some buffer) n heap).count = n →
        Saved (fsClose (fsWrite t (some filename) (some buffer) n heap).after (some filename)).1
          filename (bytesAt buffer 0 n.toNat)) := by
  have main : writeCreated s (some buffer) n filename heap =
      ((fsClose (fsWrite t (some filename) (some buffer) n heap).after (some filename)).1,
        if (fsWrite t (some filename) (some buffer) n heap).count ≠ n then -1 else 0) := by
    rw [writeCreated, hopened]
    dsimp only
    rw [if_neg (by decide)]
    split <;> rfl
  rw [SavesBuffer, main]
  refine imp_congr_left ⟨fun hcode => ?_, fun hcount => if_neg (not_not.mpr hcount)⟩
  by_contra hcount
  have failed : (-1 : Int) = 0 := (if_pos hcount).symm.trans hcode
  exact absurd failed (by decide)

/-- In a file that is opened for it, the buffer is saved exactly if the file was not longer. -/
theorem writeCreated_saves_iff (hheld : s.Held) (hfound : fsFindFile s (some filename) = some i)
    (hdir : (s.files i).isDir = false) (hclosed : (s.files i).isOpen = false)
    (hn : n.toNat ≤ maxFileSize.toNat) :
    SavesBuffer (writeCreated s (some buffer) n filename heap) filename buffer n ↔
      (SaveTarget (s.files i) n → (s.files i).size ≤ n) := by
  have opened := openAtStart_of_closed hheld hfound hdir hclosed
  rw [writeCreated_saves (fsOpen_found hfound hdir hclosed)]
  have file : (s.setFile i { s.files i with isOpen := true, position := 0 }).files i =
      { s.files i with isOpen := true, position := 0 } := Fs.setFile_self ..
  generalize s.setFile i { s.files i with isOpen := true, position := 0 } = t at opened file ⊢
  have size : (t.files i).size = (s.files i).size := by rw [file]
  have perm : fsHasPerm (t.files i) fsPermWrite = fsHasPerm (s.files i) fsPermWrite := by
    rw [file]
    rfl
  unfold SaveTarget
  rw [← size, ← perm]
  by_cases hzero : n = 0
  · subst hzero
    rw [fsWrite_zero]
    refine (imp_iff_right rfl).trans (Iff.trans ?_ (imp_iff_right (.inl rfl)).symm)
    exact opened.saves_nothing
  · rw [or_iff_right hzero]
    cases hperm : fsHasPerm (t.files i) fsPermWrite with
    | false =>
      rw [opened.refuses hperm]
      exact iff_of_true (fun hcount => absurd hcount.symm hzero) Bool.noConfusion
    | true =>
      rw [imp_iff_right rfl]
      rcases opened.writes hzero hn hperm with ⟨hcount, hsize⟩ | ⟨hcount, hsaved⟩
      · exact iff_of_true (fun hall => absurd hall hcount) hsize
      · exact (imp_iff_right hcount).trans hsaved

end Write

/-! ## The condition is exact -/

/-- The two codes of the create that `write_to_file` goes on with. -/
theorem FsCode.goes_on_iff (c : FsCode) :
    ¬ (c.toInt ≠ 0 ∧ c.toInt ≠ -3) ↔ c = .success ∨ c = .errExists := by
  cases c <;> decide

theorem writeCreated_unopened {s : Fs} {filename : CString}
    (h : (fsOpen s (some filename)).2 ≠ .success) (buffer : Option Buffer) (n : SizeT)
    (heap : Heap) : (writeCreated s buffer n filename heap).2 = -1 := by
  have code : (fsOpen s (some filename)).2.toInt ≠ 0 := by
    have negative := (FsCode.toInt_neg_iff _).mpr h
    omega
  rw [writeCreated]
  dsimp only
  rw [if_pos code]

section Save

variable {s : Fs} {filename : CString} {i : Slot} {buffer : Buffer} {n : SizeT}
  {createHeap writeHeap : Heap}

/-- A name that is there: its file is opened as it is. -/
theorem writeToFile_saves_found (held : s.Held)
    (hvalid : fsValidateFilename (some filename) = .success)
    (hfind : fsFindFile s (some filename) = some i) (hn : n.toNat ≤ maxFileSize.toNat) :
    SavesBuffer (writeToFile s (some buffer) n (some filename) createHeap writeHeap) filename
        buffer n ↔
      ((s.files i).isDir = false → (s.files i).isOpen = false → SaveTarget (s.files i) n →
        (s.files i).size ≤ n) := by
  have nonempty : filename ≠ .empty := by
    rintro rfl
    exact absurd hvalid (by decide)
  have main : writeToFile s (some buffer) n (some filename) createHeap writeHeap =
      writeCreated s (some buffer) n filename writeHeap := by
    rw [writeToFile]
    dsimp only
    rw [if_neg nonempty, fsCreate_exists hvalid hfind,
      if_neg ((FsCode.goes_on_iff .errExists).mpr (.inr rfl))]
  rw [main]
  by_cases hopen : (fsOpen s (some filename)).2 = .success
  · obtain ⟨k, hk, hdir, hclosed⟩ := fsOpen_success hopen
    obtain rfl := Option.some.inj (hfind.symm.trans hk)
    rw [writeCreated_saves_iff held hfind hdir hclosed hn, imp_iff_right hdir,
      imp_iff_right hclosed]
  · refine iff_of_true (fun hzero => ?_) fun hdir hclosed => ?_
    · rw [writeCreated_unopened hopen] at hzero
      exact absurd hzero (by decide)
    · rw [fsOpen_found hfind hdir hclosed] at hopen
      exact absurd rfl hopen

/-- A name that is not there: the file is new, and empty. -/
theorem writeToFile_saves_new (tree : FsTree s) (held : s.Held)
    (hfind : fsFindFile s (some filename) = none) (hn : n.toNat ≤ maxFileSize.toNat) :
    SavesBuffer (writeToFile s (some buffer) n (some filename) createHeap writeHeap) filename
      buffer n := by
  intro hzero
  have failed : (-1 : Int) ≠ 0 := by decide
  rw [writeToFile] at hzero ⊢
  dsimp only at hzero ⊢
  split at hzero
  · exact absurd hzero failed
  · next nonempty =>
    rw [if_neg nonempty]
    split at hzero
    · exact absurd hzero failed
    · next hcode =>
      rw [if_neg hcode]
      rw [FsCode.goes_on_iff] at hcode
      have success := hcode.resolve_right (fsCreate_ne_exists hfind createHeap)
      obtain ⟨i, ready⟩ := fsCreateWithPerms_success success
      obtain ⟨-, f, created⟩ := fsCreateWithPerms_ready ready fsPermDefault
      have new := created.find_new tree ready.fresh ready.slot
      have file : (fsCreate s (some filename) createHeap).1.files i = f := by
        rw [fsCreate, created.files, Function.update_self]
      refine (writeCreated_saves_iff (held.step (.create (some filename) createHeap)) new ?_ ?_ hn
        ).mpr (fun _ => ?_) hzero
      · exact file ▸ created.notDir
      · exact file ▸ created.file.closed
      · rw [fsStep, file, created.file.size]
        exact BitVec.le_def.mpr (Nat.zero_le _)

end Save

/-- In every state that calls reach, a success of `write_to_file` means that the file is the buffer,
exactly if the name is not that of a longer file that could be opened and written. -/
theorem writeToFile_saves_iff (s₀ : Fs) (calls : List FsCall) (filename : CString)
    (buffer : Buffer) (n : SizeT) (hn : n.toNat ≤ maxFileSize.toNat) (createHeap writeHeap : Heap) :
    SavesBuffer (writeToFile (runFrom fsStep (fsInit s₀) calls) (some buffer) n (some filename)
        createHeap writeHeap) filename buffer n ↔
      ∀ i, fsFindFile (runFrom fsStep (fsInit s₀) calls) (some filename) = some i →
        ((runFrom fsStep (fsInit s₀) calls).files i).isDir = false →
        ((runFrom fsStep (fsInit s₀) calls).files i).isOpen = false →
        SaveTarget ((runFrom fsStep (fsInit s₀) calls).files i) n →
        ((runFrom fsStep (fsInit s₀) calls).files i).size ≤ n := by
  have tree := fsRun_tree s₀ calls
  have held := fsRun_held s₀ calls
  have names := fsRun_validNames s₀ calls
  generalize runFrom fsStep (fsInit s₀) calls = s at tree held names ⊢
  cases hfind : fsFindFile s (some filename) with
  | some i =>
    rw [writeToFile_saves_found held (tree.found_valid names hfind) hfind hn]
    constructor
    · intro h k hk
      obtain rfl := Option.some.inj hk
      exact h
    · intro h
      exact h i rfl
  | none =>
    exact iff_of_true (writeToFile_saves_new tree held hfind hn) fun i hi =>
      absurd hi.symm (Option.some_ne_none i)

/-- The file "a", with three bytes. -/
def threeBytesA : List FsCall :=
  [.create (some (.char 97 CString.a_ne_zero)) (some fun _ => 0),
    .openFile (some (.char 97 CString.a_ne_zero)),
    .write (some (.char 97 CString.a_ne_zero)) (some fun _ => 120) 3 (some fun _ => 0),
    .close (some (.char 97 CString.a_ne_zero))]

/-- A buffer of five bytes is saved over it. -/
theorem writeToFile_saves_longer :
    SavesBuffer (writeToFile (runFrom fsStep (fsInit fsStart) threeBytesA) (some fun _ => 121) 5
      (some (.char 97)) none none) (.char 97) (fun _ => 121) 5 := by
  refine (writeToFile_saves_iff fsStart threeBytesA (.char 97) (fun _ => 121) 5 (by decide) none
    none).mpr fun i hi _ _ _ => ?_
  have found : fsFindFile (runFrom fsStep (fsInit fsStart) threeBytesA) (some (.char 97)) =
      some 1 := by decide +kernel
  obtain rfl := Option.some.inj (found.symm.trans hi)
  decide +kernel

/-- A buffer of one byte is, the command says, saved over it, and the file still has three. -/
theorem writeToFile_not_saves :
    ¬ SavesBuffer (writeToFile (runFrom fsStep (fsInit fsStart) threeBytesA) (some fun _ => 121) 1
      (some (.char 97)) none none) (.char 97) (fun _ => 121) 1 := by
  intro h
  obtain ⟨i, hi, size, -⟩ := h (by decide +kernel)
  have found : fsFindFile (writeToFile (runFrom fsStep (fsInit fsStart) threeBytesA)
      (some fun _ => 121) 1 (some (.char 97)) none none).1 (some (.char 97)) = some 1 := by
    decide +kernel
  obtain rfl := Option.some.inj (found.symm.trans hi)
  revert size
  decide +kernel

end Unics
