import Unics.Lib.Words
import Unics.Laws.Libc.Calls

/-!
# The target of a seek

The sum that `lseek` forms wraps around at 64 bits, and the comparison with the size sees its low 32
bits. The first does no harm, as a target that wraps around is negative. For the second a target is
let pass of which only the remainder is within the file (`lseek_exact_iff`).
-/

namespace Unics

/-- The target, as an unbounded integer. -/
def seekGoal (f : File) (offset : BitVec 64) (whence : Int) : Option Int :=
  if whence = 0 then some offset.toInt
  else if whence = 1 then some (f.position.toNat + offset.toInt)
  else if whence = 2 then some (f.size.toNat + offset.toInt)
  else none

/-- A position of the file. -/
def File.Within (f : File) (target : Int) : Prop := 0 ≤ target ∧ target ≤ f.size.toNat

instance (f : File) (target : Int) : Decidable (f.Within target) :=
  inferInstanceAs (Decidable (_ ∧ _))

/-- A target beyond the end of the file whose low 32 bits are a position of it. -/
def File.FoldsInto (f : File) (target : Int) : Prop :=
  f.size.toNat < target ∧ target < 2 ^ 63 ∧ target % 2 ^ 32 ≤ f.size.toNat

/-- The seek of file `i` to a target, if it is one that passes. -/
def seekTo (u : Unistd) (i : Slot) (passes : Int → Prop) [DecidablePred passes] :
    Option Int → Unistd × Int
  | none => (u, -1)
  | some target =>
    if passes target then
      (u.setFile i { u.fs.files i with position := BitVec.ofInt 32 target }, target)
    else (u, -1)

/-- What the call is to do: go to the target if that is a position of the file. -/
def exactSeek (u : Unistd) (i : Slot) (offset : BitVec 64) (whence : Int) : Unistd × Int :=
  seekTo u i (u.fs.files i).Within (seekGoal (u.fs.files i) offset whence)

/-- Two rules agree on a target that both let pass or neither does. -/
theorem seekTo_eq_iff {u : Unistd} {i : Slot} {passes good : Int → Prop} [DecidablePred passes]
    [DecidablePred good] {target : Int} (hpasses : passes target → 0 ≤ target)
    (hgood : good target → 0 ≤ target) :
    seekTo u i passes (some target) = seekTo u i good (some target) ↔
      (passes target ↔ good target) := by
  have apart {v : Unistd} (h : 0 ≤ target) : (v, target) ≠ (u, -1) := by
    intro heq
    have ret : target = -1 := congrArg Prod.snd heq
    omega
  dsimp only [seekTo]
  by_cases hp : passes target
  · by_cases hg : good target
    · rw [if_pos hp, if_pos hg]
      exact iff_of_true rfl (iff_of_true hp hg)
    · rw [if_pos hp, if_neg hg]
      exact iff_of_false (apart (hpasses hp)) fun h => hg (h.mp hp)
  · by_cases hg : good target
    · rw [if_neg hp, if_pos hg]
      exact iff_of_false (apart (hgood hg)).symm fun h => hp (h.mpr hg)
    · rw [if_neg hp, if_neg hg]
      exact iff_of_true rfl (iff_of_false hp hg)

/-! ## What the code compares -/

/-- The targets that pass the checks of the call. -/
def File.SeekPasses (f : File) (target : Int) : Prop :=
  f.isOpen = true ∧ 0 ≤ target ∧ target < 2 ^ 63 ∧ target % 2 ^ 32 ≤ f.size.toNat

instance (f : File) (target : Int) : Decidable (f.SeekPasses target) :=
  inferInstanceAs (Decidable (_ ∧ _ ∧ _ ∧ _))

theorem seekTarget_eq (f : File) (offset : BitVec 64) (whence : Int) :
    seekTarget f offset whence = (seekGoal f offset whence).map (BitVec.ofInt 64) := by
  have sum (p : SizeT) :
      p.setWidth 64 + offset = BitVec.ofInt 64 (p.toNat + offset.toInt) := by
    rw [BitVec.ofInt_add, BitVec.ofInt_toInt, BitVec.ofInt_natCast, BitVec.ofNat_toNat]
  unfold seekTarget seekGoal
  split
  · rw [Option.map_some, BitVec.ofInt_toInt]
  · split
    · rw [Option.map_some, sum]
    · split
      · rw [Option.map_some, sum]
      · rfl

/-- A target is less than 32 bits away from what 64 bits hold. -/
theorem seekGoal_range {f : File} {offset : BitVec 64} {whence target : Int}
    (h : seekGoal f offset whence = some target) :
    -2 ^ 63 ≤ target ∧ target < 2 ^ 63 + 2 ^ 32 := by
  have low : -2 ^ 63 ≤ offset.toInt := BitVec.le_toInt offset
  have high : offset.toInt < 2 ^ 63 := BitVec.toInt_lt
  have position := f.position.isLt
  have size := f.size.isLt
  unfold seekGoal at h
  split at h
  · obtain rfl := Option.some.inj h
    omega
  · split at h
    · obtain rfl := Option.some.inj h
      omega
    · split at h
      · obtain rfl := Option.some.inj h
        omega
      · exact absurd h.symm (Option.some_ne_none target)

theorem toInt_goal {target : Int} (low : -2 ^ 63 ≤ target) (high : target < 2 ^ 63) :
    (BitVec.ofInt 64 target).toInt = target :=
  BitVec.toInt_ofInt_eq_self (by decide) low high

/-- A target that is too large for 64 bits is negative there. -/
theorem toInt_goal_wraps {target : Int} (low : 2 ^ 63 ≤ target) (high : target < 2 ^ 63 + 2 ^ 32) :
    (BitVec.ofInt 64 target).toInt < 0 := by
  rw [BitVec.toInt_ofInt, Int.bmod_def]
  omega

theorem setWidth_goal_le {f : File} {target : Int} :
    (BitVec.ofInt 64 target).setWidth 32 ≤ f.size ↔ target % 2 ^ 32 ≤ f.size.toNat := by
  rw [Lib.setWidth_ofInt (by decide), BitVec.le_def, BitVec.toNat_ofInt]
  omega

/-- In an open file, the position that a seek stores is the target if it passes. -/
theorem seekPosition_goal {f : File} (hopen : f.isOpen = true) {offset : BitVec 64}
    {whence target : Int} (hgoal : seekGoal f offset whence = some target) :
    seekPosition f offset whence =
      if f.SeekPasses target then some (BitVec.ofInt 64 target) else none := by
  obtain ⟨low, high⟩ := seekGoal_range hgoal
  have htarget : seekTarget f offset whence = some (BitVec.ofInt 64 target) := by
    rw [seekTarget_eq, hgoal, Option.map_some]
  split
  · next hpasses =>
    obtain ⟨-, hpos, hin, hfolds⟩ := hpasses
    refine seekPosition_eq_some.mpr ⟨htarget, ?_, setWidth_goal_le.mpr hfolds⟩
    rw [toInt_goal low hin]
    exact hpos
  · next hno =>
    rw [Option.eq_none_iff_forall_not_mem]
    intro p hp
    obtain ⟨hp, hpos, hfolds⟩ := seekPosition_eq_some.mp hp
    obtain rfl := Option.some.inj (htarget.symm.trans hp)
    have hin : target < 2 ^ 63 := by
      by_contra hwraps
      exact absurd (toInt_goal_wraps (Int.not_lt.mp hwraps) high) (Int.not_lt.mpr hpos)
    rw [toInt_goal low hin] at hpos
    exact hno ⟨hopen, hpos, hin, setWidth_goal_le.mp hfolds⟩

/-- The code seeks to the targets that pass. -/
theorem unistdLseek_eq {u : Unistd} {fd : Int} {i : Slot} (hfile : getFile u fd = some i)
    (offset : BitVec 64) (whence : Int) :
    unistdLseek u fd offset whence =
      seekTo u i (u.fs.files i).SeekPasses (seekGoal (u.fs.files i) offset whence) := by
  cases hopen : (u.fs.files i).isOpen with
  | true =>
    rw [unistdLseek_spec hfile hopen]
    cases hgoal : seekGoal (u.fs.files i) offset whence with
    | none =>
      rw [seekPosition, seekTarget_eq, hgoal]
      rfl
    | some target =>
      rw [seekPosition_goal hopen hgoal, seekTo]
      by_cases hpasses : (u.fs.files i).SeekPasses target
      · rw [if_pos hpasses, if_pos hpasses]
        dsimp only
        rw [Lib.setWidth_ofInt (by decide), toInt_goal (seekGoal_range hgoal).1 hpasses.2.2.1]
      · rw [if_neg hpasses, if_neg hpasses]
  | false =>
    have closed : ∀ j, getFile u fd = some j → (u.fs.files j).isOpen = false := by
      intro j hj
      obtain rfl := Option.some.inj (hfile.symm.trans hj)
      exact hopen
    rw [unistdLseek_no_file closed]
    cases seekGoal (u.fs.files i) offset whence with
    | none => rfl
    | some target =>
      rw [seekTo, if_neg fun hpasses => Bool.noConfusion (hopen.symm.trans hpasses.1)]

/-! ## Exactness -/

/-- What passes is a position of the file unless the target folds into it, or the file is marked
closed. -/
theorem File.seekPasses_iff_within {f : File} {target : Int} :
    (f.SeekPasses target ↔ f.Within target) ↔
      (f.isOpen = true → ¬ f.FoldsInto target) ∧ (f.isOpen = false → ¬ f.Within target) := by
  have size := f.size.isLt
  unfold File.SeekPasses File.Within File.FoldsInto
  cases f.isOpen with
  | true =>
    simp only [true_and, forall_const, Bool.true_eq_false, false_implies, and_true]
    omega
  | false =>
    simp only [Bool.false_eq_true, false_and, false_iff, false_implies, forall_const, true_and]

/-- Through a descriptor in the table, a seek is exact exactly when its target does not fold into
the file from beyond and, where a close of another descriptor has marked the file closed, is no
position of it. -/
theorem lseek_exact_iff {u : Unistd} {fd : Int} {i : Slot} (hfile : getFile u fd = some i)
    (offset : BitVec 64) (whence : Int) :
    unistdLseek u fd offset whence = exactSeek u i offset whence ↔
      ∀ target, seekGoal (u.fs.files i) offset whence = some target →
        ((u.fs.files i).isOpen = true → ¬ (u.fs.files i).FoldsInto target) ∧
          ((u.fs.files i).isOpen = false → ¬ (u.fs.files i).Within target) := by
  rw [unistdLseek_eq hfile, exactSeek]
  cases seekGoal (u.fs.files i) offset whence with
  | none => exact iff_of_true rfl fun target h => absurd h.symm (Option.some_ne_none target)
  | some target =>
    rw [seekTo_eq_iff (fun h => h.2.1) (fun h => h.1), File.seekPasses_iff_within]
    constructor
    · intro h other hother
      obtain rfl := Option.some.inj hother
      exact h
    · exact fun h => h target rfl

/-- The state after an open of a new file "a". -/
def newFileOpen : Unistd :=
  (unistdOpen { fs := fsInit fsStart, fdTable := fun _ => none } (some (.char 97 CString.a_ne_zero))
    oCreat (some fun _ => 0)).1

/-- And after three bytes have been written to it. -/
def writtenFile : Unistd :=
  (unistdWrite newFileOpen 3 (fun _ => 120) 3 (some fun _ => 0)).after

/-- Two bytes back from the position behind three bytes. -/
theorem lseek_exact_iff_back :
    unistdLseek writtenFile 3 (-2) 1 = exactSeek writtenFile 1 (-2) 1 ↔
      ∀ target, seekGoal (writtenFile.fs.files 1) (-2) 1 = some target →
        ((writtenFile.fs.files 1).isOpen = true → ¬ (writtenFile.fs.files 1).FoldsInto target) ∧
          ((writtenFile.fs.files 1).isOpen = false → ¬ (writtenFile.fs.files 1).Within target) :=
  lseek_exact_iff (by decide +kernel) (-2) 1

/-- A seek of the empty file to 2 to the 32nd is to be refused, and returns its target. -/
theorem lseek_exact_fails :
    getFile newFileOpen 3 = some 1 ∧ (newFileOpen.fs.files 1).isOpen = true ∧
      (newFileOpen.fs.files 1).position ≤ (newFileOpen.fs.files 1).size ∧
      unistdLseek newFileOpen 3 (2 ^ 32) 0 ≠ exactSeek newFileOpen 1 (2 ^ 32) 0 := by
  refine ⟨by decide +kernel, by decide +kernel, by decide +kernel, fun heq => ?_⟩
  have ret := congrArg Prod.snd heq
  revert ret
  decide +kernel

end Unics
