import Unics.Laws.Bin.Cd
import Unics.Laws.Libc.Printf

/-!
# update_cwd and its arrays

`update_cwd` on arrays does what it does on strings up to the last copy: `updateCwdTemp_refines`.
The path is built in an array of `PATH_MAX` bytes, and a path that is too long runs past it:
`updateCwdTemp_fits_iff`. A path that fits is shorter than the `PATH_MAX` bytes that are then
copied, and the library's `strncpy` stores a zero behind them. So the function stays inside its
arrays only where it has nothing to build, `updateCwdArray_right_iff`.
-/

namespace Unics

open Unics.Lib

/-- The path of the current directory. The command has the null directory for the root. -/
def Fs.CurrentPath (s : Fs) (path : List CString) : Prop :=
  match s.currentDir with
  | none => path = []
  | some d => s.Reaches path d

/-- What `update_cwd` is for: it stays inside its arrays, and `cwd` is the absolute path of the
current directory, cut off where the array ends. -/
def CwdRight (s : Fs) (cwd : Buffer) : Prop :=
  ∃ cwd' path str, updateCwdArray s cwd = some cwd' ∧ s.CurrentPath path ∧
    CString.ofBuffer pathMax cwd' = some str ∧ str.bytes = (absolutePath path).take (pathMax - 1)

/-! ## Strings in arrays -/

/-- The array `path_part` holds a slash and the name. -/
theorem pathPartArray_eq (name : CString) :
    ∃ buf, pathPartArray name = some buf ∧ CString.ofBuffer pathMax buf = some name.pathPart := by
  have printed : vsnprintf pathMax ⟨[47, 37, 115], by decide⟩ [.str (some name)] =
      some { bytes := putUpTo 255 [47] name.bytes, ret := _, args := [] } := rfl
  have bytes : putUpTo 255 [47] name.bytes = name.pathPart.bytes := putUpTo_take 255 [47] name.bytes
  have short : name.pathPart.strlen < pathMax :=
    Nat.lt_of_le_of_lt (List.length_take_le ..) (by decide)
  have len : (name.pathPart.bytes ++ [0]).length = name.pathPart.strlen + 1 := by
    rw [List.length_append, List.length_singleton, CString.strlen]
  obtain ⟨buf, hstore, hbytes, -⟩ := storeChars_fits pathMax (fun _ => 0) 0
    (name.pathPart.bytes ++ [0]) (by omega)
  refine ⟨buf, ?_, CString.ofBuffer_eq_some_iff.mpr ⟨short, len ▸ hbytes⟩⟩
  rw [pathPartArray, printed, bytes]
  exact hstore

/-! ## A turn, and the loop -/

/-- A turn puts the part before the string that `temp` holds, or it runs past the array. -/
theorem updateCwdTurn_refines (name : CString) {temp : Buffer} {str : CString}
    (h : CString.ofBuffer pathMax temp = some str) :
    (name.pathPart.strlen + str.strlen + 1 ≤ pathMax →
      ∃ temp', updateCwdTurn name temp = some temp' ∧
        CString.ofBuffer pathMax temp' = some (name.pathPart.prepend str)) ∧
    (pathMax < name.pathPart.strlen + str.strlen + 1 → updateCwdTurn name temp = none) := by
  obtain ⟨part, hpart, hof⟩ := pathPartArray_eq name
  obtain ⟨-, hstr⟩ := CString.ofBuffer_eq_some_iff.mp h
  obtain ⟨short, hbytes⟩ := CString.ofBuffer_eq_some_iff.mp hof
  have turn : updateCwdTurn name temp =
      (storeChars pathMax temp name.pathPart.strlen (bytesAt temp 0 (str.strlen + 1))).bind
        fun temp => storeChars pathMax temp 0 (bytesAt part 0 name.pathPart.strlen) := by
    rw [updateCwdTurn, hpart]
    show (CString.ofBuffer pathMax part >>= _) = _
    rw [hof]
    show (CString.ofBuffer pathMax temp >>= _) = _
    rw [h]
    rfl
  rw [turn]
  constructor
  · intro hroom
    obtain ⟨moved, hmove, hheld, -⟩ := storeChars_fits pathMax temp name.pathPart.strlen
      (bytesAt temp 0 (str.strlen + 1)) (by rw [length_bytesAt]; omega)
    obtain ⟨copied, hcopy, hfront, hothers⟩ := storeChars_fits pathMax moved 0
      (bytesAt part 0 name.pathPart.strlen) (by rw [length_bytesAt]; omega)
    rw [length_bytesAt] at hheld hfront hothers
    have len : (name.pathPart.prepend str).strlen = name.pathPart.strlen + str.strlen :=
      List.length_append
    have kept : bytesAt copied name.pathPart.strlen (str.strlen + 1) =
        bytesAt moved name.pathPart.strlen (str.strlen + 1) :=
      bytesAt_congr fun j _ => hothers _ (by omega)
    have front : bytesAt part 0 name.pathPart.strlen = name.pathPart.bytes := by
      rw [bytesAt_add] at hbytes
      exact (List.append_inj hbytes (length_bytesAt ..)).1
    refine ⟨copied, ?_, CString.ofBuffer_eq_some_iff.mpr ⟨by omega, ?_⟩⟩
    · rw [hmove, Option.bind_some, hcopy]
    · rw [len, Nat.add_assoc, bytesAt_add, Nat.zero_add, hfront, kept, hheld, hstr, front]
      exact (List.append_assoc ..).symm
  · intro hlong
    rw [storeChars_none temp (by omega) (by rw [length_bytesAt]; omega), Option.bind_none]

/-- The loop on arrays does what the loop on strings does. -/
theorem updateCwdTemp_refines (files : Slot → File) (fuel : Nat) (dir : Option Slot) {temp : Buffer}
    {str : CString} (h : CString.ofBuffer pathMax temp = some str) :
    (updateCwdTemp files fuel dir temp).map (CString.ofBuffer pathMax) =
      (updateCwdLoop files fuel dir str).map some := by
  induction fuel generalizing dir temp str with
  | zero => rfl
  | succ fuel ih =>
    cases dir with
    | none => exact congrArg some h
    | some d =>
      rw [updateCwdTemp, updateCwdLoop]
      cases (files d).parent with
      | none => exact congrArg some h
      | some parent =>
        obtain ⟨fits, long⟩ := updateCwdTurn_refines (files d).name h
        dsimp only
        by_cases hroom : (files d).name.pathPart.strlen + str.strlen + 1 ≤ pathMax
        · obtain ⟨temp', hturn, hof⟩ := fits hroom
          rw [hturn, if_pos hroom]
          exact ih (some parent) hof
        · rw [long (by omega), if_neg hroom]
          rfl

/-- In a tree with valid names, the loop stays inside its array exactly when the path is shorter
than the array. -/
theorem updateCwdTemp_fits_iff {s : Fs} (hs : FsNamed s) {path : List CString} {d : Slot}
    (h : s.Reaches path d) :
    (updateCwdTemp s.files pathMax (some d) fun _ => 0).isSome ↔
      (pathBytes path).length < pathMax := by
  have refines := updateCwdTemp_refines s.files pathMax (some d)
    (CString.ofBuffer_empty (by decide) rfl : CString.ofBuffer pathMax (fun _ => 0) = some .empty)
  have loop : (updateCwdLoop s.files pathMax (some d) .empty).map CString.bytes = _ :=
    updateCwdLoop_reaches hs h (Nat.le_refl pathMax) (by decide)
  have same : (updateCwdTemp s.files pathMax (some d) fun _ => 0).isSome =
      ((updateCwdLoop s.files pathMax (some d) .empty).map CString.bytes).isSome := by
    rw [Option.isSome_map, ← Option.isSome_map (f := CString.ofBuffer pathMax), refines,
      Option.isSome_map]
  rw [same, loop]
  show (if (pathBytes path).length < pathMax then _ else none).isSome = true ↔ _
  split
  · next hlt => exact iff_of_true rfl hlt
  · next hge => exact iff_of_false Bool.noConfusion hge

/-! ## The last copy -/

/-- Whatever the tree is, the copy into `cwd` stores a byte behind it, unless `temp` is too short
already. -/
theorem updateCwdArray_none {s : Fs} {d : Slot} (h : s.currentDir = some d) (cwd : Buffer) :
    updateCwdArray s cwd = none := by
  have overrun : ∀ {temp : Buffer} {str : CString}, CString.ofBuffer pathMax temp = some str →
      (strncpy pathMax cwd temp pathMax >>= fun cwd => storeChar pathMax cwd (pathMax - 1) 0) =
        none := by
    intro temp str hof
    obtain ⟨short, hend⟩ := CString.ofBuffer_end hof
    rw [strncpy_overruns cwd temp short hend]
    rfl
  rw [updateCwdArray, h]
  dsimp only
  cases updateCwdTemp s.files pathMax (some d) fun _ => 0 with
  | none => rfl
  | some temp =>
    show (CString.ofBuffer pathMax temp >>= _) = none
    cases hof : CString.ofBuffer pathMax temp with
    | none => rfl
    | some held =>
      show (if held.strlen = 0 then storeChars pathMax temp 0 [47, 0] >>= _ else some temp >>= _) =
        none
      split
      · obtain ⟨root, hroot, hbytes, -⟩ := storeChars_fits pathMax temp 0 [47, 0] (by decide)
        rw [hroot]
        exact overrun (CString.ofBuffer_eq_some_iff.mpr ⟨by decide, hbytes⟩ :
          CString.ofBuffer pathMax root = some .slash)
      · exact overrun hof

/-- `update_cwd` does what it is for only with the null directory, so in no directory of a tree. -/
theorem updateCwdArray_right_iff (s : Fs) (cwd : Buffer) :
    CwdRight s cwd ↔ s.currentDir = none := by
  constructor
  · intro h
    obtain ⟨cwd', _, _, hcwd, -⟩ := h
    cases hd : s.currentDir with
    | none => rfl
    | some d =>
      rw [updateCwdArray_none hd] at hcwd
      cases hcwd
  · intro hd
    obtain ⟨root, hroot, hbytes, -⟩ := storeChars_fits pathMax cwd 0 [47, 0] (by decide)
    refine ⟨root, [], .slash, ?_, ?_, CString.ofBuffer_eq_some_iff.mpr ⟨by decide, hbytes⟩, rfl⟩
    · rw [updateCwdArray, hd]
      exact hroot
    · rw [Fs.CurrentPath, hd]

/-- In `/a` the zero of `strncpy` is stored behind `cwd`. -/
theorem updateCwdArray_not_right :
    ¬ CwdRight (runFrom fsStep (fsInit fsStart) [.mkdir (some (.char 97)), .chdir (.char 97)])
      fun _ => 0 := by
  have current : (runFrom fsStep (fsInit fsStart)
      [.mkdir (some (.char 97)), .chdir (.char 97)]).currentDir = some 1 := by decide +kernel
  intro h
  obtain ⟨cwd', _, _, hcwd, -⟩ := h
  rw [updateCwdArray_none current] at hcwd
  cases hcwd

end Unics
