import Unics.Bin.Files
import Unics.Laws.Fs.Calls
import Unics.Lib.Run

/-!
# What mv renames

`mv` is to rename an entry of the current directory. It searches the slots below `file_count` for a
name and looks at nothing else of them, so the slot it finds may belong to another directory, be the
root, or be free. And of the new name it checks the length only. `mvMain_contract_iff` is the exact
condition under which what it renames, and what it says, is right.
-/

namespace Unics

open Unics.Lib

/-- The entry in slot `i` gets the new name, which is valid and no other entry's of its directory,
and no other entry changes. -/
structure MvRenames (s t : Fs) (source dest : CString) (i : Slot) : Prop where
  source : s.Here source i
  valid : fsValidateFilename (some dest) = .success
  alone : ∀ j, t.Here dest j → j = i
  live : t.live = Function.update s.live i (some { s.files i with name := dest })

/-- What `mv` is for, with a new name that is not too long. -/
structure MvContract (s : Fs) (source dest : CString) (e : Exit) : Prop where
  renamed : e.status = 0 → ∃ i, MvRenames s e.after source dest i
  missing : dest.strlen < maxFilenameLen → (e.status = 2 ↔ ∀ i, ¬ s.Here source i)

/-- The lowest of the slots below `file_count` that stores a name. -/
structure Fs.FirstNamed (s : Fs) (name : CString) (i : Slot) : Prop where
  lt : i.val < s.fileCount
  stores : (s.files i).name = name
  least : ∀ j < i, (s.files j).name ≠ name

/-- No slot below `file_count` stores the name. -/
def Fs.Unnamed (s : Fs) (name : CString) : Prop :=
  ∀ i : Slot, i.val < s.fileCount → (s.files i).name ≠ name

/-- The condition: where the directory has the source, a slot below `file_count` stores its name.
And of the slots that store it, the lowest is the directory's entry, or at least the directory has
such an entry if the destination is there or the file in the lowest is open. A new name that is to
be stored is valid, and not the name of an entry that lies at `file_count` or behind it. -/
structure MvFits (s : Fs) (source dest : CString) : Prop where
  scanned : (∃ i, s.Here source i) → ¬ s.Unnamed source
  here : ∀ i, s.FirstNamed source i → ∃ j, s.Here source j
  moved : ∀ i, s.FirstNamed source i → s.Unnamed dest → (s.files i).isOpen = false →
    s.Here source i ∧ fsValidateFilename (some dest) = .success ∧ ∀ j, ¬ s.Here dest j

/-! ## The searches -/

theorem mvFind_test {s : Fs} {name : CString} {i : Slot} :
    (decide (i.val < s.fileCount) && (s.files i).name == name) = true ↔
      i.val < s.fileCount ∧ (s.files i).name = name := by
  rw [Bool.and_eq_true, decide_eq_true_eq, beq_iff_eq]

theorem mvFind_eq_none {s : Fs} {name : CString} : mvFind s name = none ↔ s.Unnamed name := by
  rw [mvFind, Fin.find?_eq_none_iff]
  refine forall_congr' fun i => ?_
  rw [← Bool.not_eq_true, mvFind_test, not_and]

theorem mvFind_eq_some {s : Fs} {name : CString} {i : Slot} :
    mvFind s name = some i ↔ s.FirstNamed name i := by
  rw [mvFind, Fin.find?_eq_some_iff, mvFind_test]
  constructor
  · rintro ⟨⟨hlt, hname⟩, hleast⟩
    refine ⟨hlt, hname, fun j hj heq => ?_⟩
    exact Bool.false_ne_true ((hleast j hj).symm.trans (mvFind_test.mpr ⟨Nat.lt_trans hj hlt, heq⟩))
  · intro h
    refine ⟨⟨h.lt, h.stores⟩, fun j hj => ?_⟩
    rw [← Bool.not_eq_true, mvFind_test]
    exact fun hboth => h.least j hj hboth.2

/-! ## The ways out -/

section Ways

variable {s : Fs} {command source dest : CString}

theorem mvMain_missing (hshort : dest.strlen < maxFilenameLen) (h : s.Unnamed source) :
    (mvMain s [command, source, dest]).status = 2 := by
  dsimp only [mvMain]
  rw [if_neg (Nat.not_le.mpr hshort), mvFind_eq_none.mpr h]

/-- With a slot that stores the source's name, the file in it is renamed, unless the destination's
name is stored too or the file is open. -/
theorem mvMain_moved (hshort : dest.strlen < maxFilenameLen) {i : Slot}
    (h : s.FirstNamed source i) (hdest : s.Unnamed dest) (hopen : (s.files i).isOpen = false) :
    (mvMain s [command, source, dest]).status = 0 ∧
      (mvMain s [command, source, dest]).after = s.setFile i { s.files i with name := dest } := by
  have whole : dest.strncpy (maxFilenameLen - 1) = dest :=
    CString.strncpy_of_le (Nat.le_pred_of_lt hshort)
  dsimp only [mvMain]
  rw [if_neg (Nat.not_le.mpr hshort), mvFind_eq_some.mpr h]
  dsimp only
  rw [mvFind_eq_none.mpr hdest, hopen, if_neg Bool.noConfusion, if_neg Bool.noConfusion, whole]
  exact ⟨rfl, rfl⟩

theorem mvMain_refused (hshort : dest.strlen < maxFilenameLen) {i : Slot}
    (h : s.FirstNamed source i) (hno : ¬ (s.Unnamed dest ∧ (s.files i).isOpen = false)) :
    (mvMain s [command, source, dest]).status = 3 ∨
      (mvMain s [command, source, dest]).status = 4 := by
  dsimp only [mvMain]
  rw [if_neg (Nat.not_le.mpr hshort), mvFind_eq_some.mpr h]
  dsimp only
  split
  · exact .inl rfl
  · next hdest =>
    split
    · exact .inr rfl
    · next hopen =>
      rw [Option.isSome_iff_ne_none, not_not] at hdest
      exact absurd ⟨mvFind_eq_none.mp hdest, Bool.eq_false_of_not_eq_true hopen⟩ hno

/-- A slot that stores the source's name is found. -/
theorem mvMain_found (hshort : dest.strlen < maxFilenameLen) {i : Slot}
    (h : s.FirstNamed source i) : (mvMain s [command, source, dest]).status ≠ 2 := by
  by_cases hmove : s.Unnamed dest ∧ (s.files i).isOpen = false
  · rw [(mvMain_moved hshort h hmove.1 hmove.2).1]
    decide
  · rcases mvMain_refused hshort h hmove with h3 | h4
    · rw [h3]
      decide
    · rw [h4]
      decide

/-- A new name that is too long is refused before anything is looked for. -/
theorem mvMain_long (hlong : maxFilenameLen ≤ dest.strlen) :
    (mvMain s [command, source, dest]).status = 5 := by
  dsimp only [mvMain]
  rw [if_pos hlong]

end Ways

/-- One of the two outcomes of the search. -/
theorem Fs.unnamed_or_first (s : Fs) (name : CString) :
    s.Unnamed name ∨ ∃ i, s.FirstNamed name i := by
  cases h : mvFind s name with
  | none => exact .inl (mvFind_eq_none.mp h)
  | some i => exact .inr ⟨i, mvFind_eq_some.mp h⟩

/-! ## The condition is exact -/

section Exact

variable {s : Fs} {source dest : CString}

/-- A store of the new name renames an entry of the directory, if the name is valid and free. -/
theorem mvRenames_of_here {i : Slot} (hsource : s.Here source i)
    (hvalid : fsValidateFilename (some dest) = .success) (hdest : ∀ j, ¬ s.Here dest j) :
    MvRenames s (s.setFile i { s.files i with name := dest }) source dest i where
  source := hsource
  valid := hvalid
  alone j hj := by
    by_contra hne
    exact hdest j ((Fs.here_setFile_of_ne hne _).mp hj)
  live := Fs.live_store rfl rfl hsource.live.1

/-- What a store of the new name renames is the entry in its slot. -/
theorem MvRenames.slot {i k : Slot} (hdest : s.Unnamed dest) (hi : s.FirstNamed source i)
    (h : MvRenames s (s.setFile i { s.files i with name := dest }) source dest k) : k = i := by
  by_contra hne
  obtain ⟨hfree, hname⟩ := h.source.live
  -- the slot keeps its name, and the rename says that it has changed
  have kept : (s.setFile i { s.files i with name := dest }).live k = some (s.files k) := by
    rw [Fs.live_setFile_of_ne hne, Fs.live_of_used hfree]
  rw [h.live, Function.update_self] at kept
  have same : dest = (s.files k).name := congrArg File.name (Option.some.inj kept)
  exact hdest i hi.lt (hi.stores.trans (hname.symm.trans same.symm))

end Exact

/-- In every state, `mv` renames and says what it is for exactly under the condition. A new name
that is too long is refused, which is right. -/
theorem mvMain_contract_iff (s : Fs) (command source dest : CString) :
    MvContract s source dest (mvMain s [command, source, dest]) ↔
      (dest.strlen < maxFilenameLen → MvFits s source dest) := by
  constructor
  · intro h hshort
    refine ⟨fun hex hno => ?_, fun i hi => ?_, fun i hi hdest hopen => ?_⟩
    · obtain ⟨i, hi⟩ := hex
      exact (h.missing hshort).mp (mvMain_missing hshort hno) i hi
    · by_contra hnone
      have two := (h.missing hshort).mpr (not_exists.mp hnone)
      exact mvMain_found hshort hi two
    · obtain ⟨success, after⟩ := mvMain_moved hshort hi hdest hopen
      obtain ⟨k, hk⟩ := h.renamed success
      rw [after] at hk
      obtain rfl := hk.slot hdest hi
      refine ⟨hk.source, hk.valid, fun j hj => ?_⟩
      -- an entry of the new name would still be there, beside the renamed one
      have other : j ≠ k := by
        rintro rfl
        exact hdest j hi.lt hj.live.2
      exact other (hk.alone j ((Fs.here_setFile_of_ne other _).mpr hj))
  · intro h
    rcases Nat.lt_or_ge dest.strlen maxFilenameLen with hshort | hlong
    · have fits := h hshort
      rcases s.unnamed_or_first source with hno | ⟨i, hi⟩
      · have two : (mvMain s [command, source, dest]).status = 2 := mvMain_missing hshort hno
        refine ⟨fun hzero => absurd (hzero.symm.trans two) (by decide), fun _ => ?_⟩
        exact iff_of_true two fun j hj => fits.scanned ⟨j, hj⟩ hno
      · refine ⟨fun hzero => ?_, fun _ => iff_of_false (mvMain_found hshort hi) fun hno => ?_⟩
        · by_cases hmove : s.Unnamed dest ∧ (s.files i).isOpen = false
          · obtain ⟨hsource, hvalid, hfree⟩ := fits.moved i hi hmove.1 hmove.2
            rw [(mvMain_moved hshort hi hmove.1 hmove.2).2]
            exact ⟨i, mvRenames_of_here hsource hvalid hfree⟩
          · rcases mvMain_refused hshort hi hmove with h3 | h4
            · exact absurd (hzero.symm.trans h3) (by decide)
            · exact absurd (hzero.symm.trans h4) (by decide)
        · obtain ⟨j, hj⟩ := fits.here i hi
          exact hno j hj
    · have five : (mvMain s [command, source, dest]).status = 5 := mvMain_long hlong
      exact ⟨fun hzero => absurd (hzero.symm.trans five) (by decide),
        fun hshort => absurd hshort (Nat.not_lt.mpr hlong)⟩

/-- In `/d`, `mv a b` renames the file `a` of the root. -/
theorem mvMain_contract_fails :
    ¬ MvContract (runFrom fsStep (fsInit fsStart)
        [.create (some (.char 97)) (some fun _ => 0), .mkdir (some (.char 100)),
          .chdir (.char 100)]) (.char 97) (.char 98)
      (mvMain (runFrom fsStep (fsInit fsStart)
        [.create (some (.char 97)) (some fun _ => 0), .mkdir (some (.char 100)),
          .chdir (.char 100)]) [.empty, .char 97, .char 98]) := by
  intro h
  obtain ⟨i, hi⟩ := h.renamed (by decide +kernel)
  obtain ⟨dir, hdir, hentry⟩ := hi.source
  have current : (runFrom fsStep (fsInit fsStart)
      [.create (some (.char 97)) (some fun _ => 0), .mkdir (some (.char 100)),
        .chdir (.char 100)]).currentDir = some 2 := by decide +kernel
  obtain rfl := Option.some.inj (current.symm.trans hdir)
  -- no slot holds an entry of `/d`
  clear hi
  rw [Fs.entry_iff] at hentry
  revert i
  decide +kernel

end Unics
