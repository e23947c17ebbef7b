import Unics.Laws.Fs.Failures
import Unics.Laws.Fs.Overlay

/-!
# A create that goes through

A create succeeds exactly when its name is valid and not found, a slot is free and the heap has a
block (`fsCreateWithPerms_success_iff`). The slot it fills is the lowest free one, which lies at
`file_count` at most, so a lookup finds the new file there, and finds under other names what it
found before.
-/

namespace Unics

open Unics.Lib

/-- All that a create asks for. -/
structure CreateReady (s : Fs) (name : CString) (heap : Heap) (i : Slot) : Prop where
  valid : fsValidateFilename (some name) = .success
  fresh : fsFindFile s (some name) = none
  slot : fsFindFreeSlot s = some i
  heap : heap ≠ none

/-- What a create leaves: the new file in its slot, and the rest. -/
structure Created (s t : Fs) (name : CString) (permissions : UInt8) (i : Slot) (f : File) :
    Prop where
  file : NewFile s name f
  notDir : f.isDir = false
  permissions : f.permissions = permissions
  files : t.files = Function.update s.files i f
  freeList : t.freeList = Function.update s.freeList i false
  fileCount : t.fileCount = s.fileCount + 1
  currentDir : t.currentDir = s.currentDir

theorem fsCreateWithPerms_ready {s : Fs} {name : CString} {heap : Heap} {i : Slot}
    (h : CreateReady s name heap i) (permissions : UInt8) :
    (fsCreateWithPerms s (some name) permissions heap).2 = .success ∧
      ∃ f, Created s (fsCreateWithPerms s (some name) permissions heap).1 name permissions i f := by
  obtain ⟨junk, rfl⟩ := Option.ne_none_iff_exists'.mp h.heap
  unfold fsCreateWithPerms
  rw [h.valid, h.fresh, h.slot]
  dsimp only [Option.isSome_none, mallocBlock, Option.map_some]
  have length : ((List.range fsBlockSize.toNat).map junk).length = fsBlockSize.toNat := by
    rw [List.length_map, List.length_range]
  exact ⟨rfl, _, ⟨strncpy_of_valid h.valid, rfl, rfl, rfl, rfl, rfl, fun h => Bool.noConfusion h,
    fun _ => ⟨rfl, _, rfl, length⟩⟩, rfl, rfl, rfl, rfl, rfl, rfl⟩

theorem fsCreateWithPerms_success {s : Fs} {name : CString} {permissions : UInt8} {heap : Heap}
    (h : (fsCreateWithPerms s (some name) permissions heap).2 = .success) :
    ∃ i, CreateReady s name heap i := by
  unfold fsCreateWithPerms at h
  split at h
  · next n hn hvalid =>
    obtain rfl := Option.some.inj hn
    split at h
    · cases h
    · next hfresh =>
      split at h
      · cases h
      · next slot hslot =>
        dsimp only at h
        split at h
        · cases h
        · next block hblock =>
          obtain ⟨junk, rfl, -⟩ := Option.map_eq_some_iff.mp hblock
          exact ⟨slot, hvalid, by simpa using hfresh, hslot, Option.some_ne_none junk⟩
  · next hno =>
    dsimp only at h
    exact absurd h (hno name rfl)

theorem fsCreateWithPerms_success_iff (s : Fs) (name : CString) (permissions : UInt8)
    (heap : Heap) :
    (fsCreateWithPerms s (some name) permissions heap).2 = .success ↔
      ∃ i, CreateReady s name heap i :=
  ⟨fsCreateWithPerms_success, fun ⟨_, h⟩ => (fsCreateWithPerms_ready h permissions).1⟩

/-- A create of a name that is there. -/
theorem fsCreate_exists {s : Fs} {name : CString} {i : Slot}
    (hvalid : fsValidateFilename (some name) = .success)
    (hfound : fsFindFile s (some name) = some i) (heap : Heap) :
    fsCreate s (some name) heap = (s, .errExists) := by
  unfold fsCreate fsCreateWithPerms
  rw [hvalid, hfound]
  rfl

/-- The check of a name does not look for it. -/
theorem fsValidateFilename_ne_exists (filename : Option CString) :
    fsValidateFilename filename ≠ .errExists := by
  unfold fsValidateFilename
  split
  · exact FsCode.noConfusion
  · split
    · exact FsCode.noConfusion
    · split
      · exact FsCode.noConfusion
      · split
        · exact FsCode.noConfusion
        · split <;> exact FsCode.noConfusion

/-- A create of a name that is not there does not say that it is. -/
theorem fsCreate_ne_exists {s : Fs} {name : CString} (hfresh : fsFindFile s (some name) = none)
    (heap : Heap) : (fsCreate s (some name) heap).2 ≠ .errExists := by
  unfold fsCreate fsCreateWithPerms
  split
  · next n hn _ =>
    obtain rfl := Option.some.inj hn
    rw [hfresh]
    split
    · next h => exact Bool.noConfusion h
    · split
      · exact FsCode.noConfusion
      · dsimp only
        split <;> exact FsCode.noConfusion
  · exact fsValidateFilename_ne_exists (some name)

/-- The slots below the lowest free one are in use. -/
theorem FsTree.freeSlot_le {s : Fs} (h : FsTree s) {i : Slot} (hslot : fsFindFreeSlot s = some i) :
    i.val ≤ s.fileCount := by
  have below : Finset.Iio i ⊆ Finset.univ.filter fun j => s.freeList j = false := by
    intro j hj
    refine Finset.mem_filter.mpr ⟨Finset.mem_univ j, ?_⟩
    exact (Fin.find?_eq_some_iff.mp hslot).2 j (Finset.mem_Iio.mp hj)
  have card := Finset.card_le_card below
  rwa [Fin.card_Iio, ← h.count_free] at card

section Created

variable {s t : Fs} {name : CString} {permissions : UInt8} {i : Slot} {f : File}

theorem Created.live (h : Created s t name permissions i f) :
    t.live = Function.update s.live i (some f) :=
  Fs.live_fill h.files h.freeList

/-- An entry of the current directory is the new one or an old one. -/
theorem Created.here_iff (h : Created s t name permissions i f) {d : Slot}
    (hd : s.currentDir = some d) {other : CString} {k : Slot} :
    t.Here other k ↔ if k = i then other = name else s.Here other k := by
  have current : t.currentDir = some d := h.currentDir.trans hd
  unfold Fs.Here
  split
  · next hk =>
    subst hk
    constructor
    · intro hhere
      obtain ⟨dir, -, e, he, -, rfl⟩ := hhere
      rw [h.live, Function.update_self] at he
      obtain rfl := Option.some.inj he
      exact h.file.name
    · rintro rfl
      exact ⟨d, current, f, by rw [h.live, Function.update_self], h.file.parent.trans hd,
        h.file.name⟩
  · next hk =>
    rw [h.currentDir]
    unfold Fs.Entry
    rw [h.live, Function.update_of_ne hk]

/-- A lookup of the new name finds the new file. -/
theorem Created.find_new (h : Created s t name permissions i f) (hs : FsTree s)
    (hfresh : fsFindFile s (some name) = none) (hslot : fsFindFreeSlot s = some i) :
    fsFindFile t (some name) = some i := by
  obtain ⟨d, _, hd, -⟩ := hs.current
  have low := hs.freeSlot_le hslot
  refine fsFindFile_eq_some_iff.mpr ⟨?_, (h.here_iff hd).mpr ?_, fun j hj hother => ?_⟩
  · rw [h.fileCount]
    omega
  · rw [if_pos rfl]
  · rw [h.here_iff hd, if_neg (ne_of_lt hj)] at hother
    have behind := fsFindFile_eq_none.mp hfresh j hother
    have before : j.val < i.val := hj
    omega

end Created

end Unics
