import Unics.Bin.Cd
import Unics.Laws.Fs.Names
import Unics.Laws.Fs.Paths

/-!
# cd walks the tree

A path is a list of names, and `Fs.Reaches` takes it from the root to a directory. `cd` is to keep
the current directory at the end of a path that it extends, shortens and resets.

For the file system the root is slot 0; the command uses a null `current_dir` for it. So a `cd /`,
and a `cd ..` at the root, leave a current directory in which no lookup finds anything, and a path
longer than the command's array ends the run. `cd_walks_iff` is the exact condition over whole runs:
where none of the three happens, every move is right.
-/

namespace Unics

open Unics.Lib

/-! ## Runs -/

/-- A live sub-directory of the current directory has that name. -/
def Fs.SubDir (s : Fs) (name : CString) : Prop :=
  ∃ d i, s.currentDir = some d ∧ s.Entry d name i ∧ (s.files i).isDir = true

inductive CdCall where
  | cd (argv : List CString)
  | mkdir (dirname : Option CString)
  | create (filename : Option CString) (heap : Heap)

/-- A run so far: the globals, unless a write past the command's array has ended it, and the path
that the moves have made. -/
structure CdRun where
  cd : Option Cd
  path : List CString

/-- After `fs_init`, at the root. -/
def cdRunStart (s : Fs) : CdRun := { cd := some (cdStart s), path := [] }

/-- What a `cd` that returned `status` does to the path. -/
def cdPath (path argv : List CString) (status : Int) : List CString :=
  match argv with
  | [_, target] =>
    if target = .slash then []
    else if target = .dot then path
    else if target = .dotdot then path.dropLast
    else if status = 0 then path ++ [target]
    else path
  | _ => path

/-- One call of a run. -/
def cdStep (t : CdRun) (c : CdCall) : CdRun :=
  match t.cd with
  | none => t
  | some s =>
    match c with
    | .cd argv =>
      match cdMain s argv with
      | none => { t with cd := none }
      | some e => { cd := some e.after, path := cdPath t.path argv e.status }
    | .mkdir dirname => { t with cd := some { s with fs := (fsMkdir s.fs dirname).1 } }
    | .create filename heap =>
      { t with cd := some { s with fs := (fsCreate s.fs filename heap).1 } }

/-- The current directory is live, it is where the path leads, and a lookup finds exactly its
children. -/
def CdAtPath (t : CdRun) : Prop :=
  ∃ s d f, t.cd = some s ∧ s.fs.currentDir = some d ∧ s.fs.live d = some f ∧ f.isDir = true ∧
    s.fs.Reaches t.path d ∧
    ∀ name i, fsFindFile s.fs (some name) = some i ↔ s.fs.Entry d name i

/-- What the command answers to a name: 0 exactly for a live sub-directory, else 2 with nothing
changed. -/
structure CdNamed (s : Cd) (target : CString) (e : CdExit) : Prop where
  found_iff : e.status = 0 ↔ s.fs.SubDir target
  missing : e.status ≠ 0 → e.status = 2 ∧ e.after = s

/-- What the command answers to its arguments. -/
def CdAnswer (s : Cd) (e : CdExit) : List CString → Prop
  | [_, target] =>
    if target = .slash ∨ target = .dotdot then e.status = 0
    else if target = .dot then e.status = 0 ∧ e.after = s
    else CdNamed s target e
  | _ => e.status = 1 ∧ e.after = s

/-- Every `cd` returns with its answer. -/
def CdAnswers (t : CdRun) : CdCall → Prop
  | .cd argv => ∀ s, t.cd = some s → ∃ e, cdMain s argv = some e ∧ CdAnswer s e argv
  | _ => True

/-- The condition on a call: not `cd /`, not `cd ..` at the root, and not a directory with a path
that `PATH_MAX` bytes do not hold. -/
def CdFits (t : CdRun) : CdCall → Prop
  | .cd [_, target] => target ≠ .slash ∧ (target = .dotdot → t.path ≠ []) ∧
      ∀ s, t.cd = some s → s.fs.SubDir target →
        (pathBytes (t.path ++ [target])).length < pathMax
  | _ => True

/-! ## The text of a path -/

theorem strlen_of_valid {name : CString} (h : fsValidateFilename (some name) = .success) :
    name.strlen < maxFilenameLen := by
  unfold fsValidateFilename at h
  dsimp only at h
  split at h
  · cases h
  split at h
  · cases h
  · next hlen => exact Nat.not_le.mp hlen

/-- A valid name fits the command's second array. -/
theorem pathPart_of_valid {name : CString} (h : fsValidateFilename (some name) = .success) :
    name.pathPart.bytes = 47 :: name.bytes := by
  have short := strlen_of_valid h
  refine List.take_of_length_le ?_
  rw [List.length_cons]
  have : name.bytes.length < 32 := short
  show name.bytes.length + 1 ≤ 255
  omega

/-- The loop of `update_cwd` puts the text of the path before what it has, or the text is too long.
-/
theorem updateCwdLoop_reaches {s : Fs} (hs : FsNamed s) {path : List CString} {d : Slot}
    (h : s.Reaches path d) {fuel : Nat} {temp : CString} (hfuel : pathMax ≤ fuel + temp.strlen)
    (htemp : temp.strlen < pathMax) :
    (updateCwdLoop s.files fuel (some d) temp).map CString.bytes =
      if (pathBytes path).length + temp.strlen < pathMax then some (pathBytes path ++ temp.bytes)
      else none := by
  induction h generalizing fuel temp with
  | root =>
    obtain ⟨fuel, rfl⟩ : ∃ n, fuel = n + 1 := ⟨fuel - 1, by omega⟩
    obtain ⟨r, hr, -, hnone⟩ := hs.tree.tree.top
    obtain ⟨-, rfl⟩ := Fs.live_eq_some.mp hr
    have short : (pathBytes []).length + temp.strlen < pathMax := by
      rw [show (pathBytes []).length = 0 from rfl, Nat.zero_add]
      exact htemp
    rw [updateCwdLoop, hnone, if_pos short]
    rfl
  | @into path p i name _ hentry _ ih =>
    obtain ⟨fuel, rfl⟩ : ∃ n, fuel = n + 1 := ⟨fuel - 1, by omega⟩
    have part := pathPart_of_valid (hs.entry_valid hentry).2
    obtain ⟨-, hpar, hname⟩ := Fs.entry_iff.mp hentry
    have len : name.pathPart.strlen = name.bytes.length + 1 := by
      rw [CString.strlen, part, List.length_cons]
    have longer : (name.pathPart.prepend temp).strlen = name.bytes.length + 1 + temp.strlen := by
      show (name.pathPart.bytes ++ temp.bytes).length = _
      rw [List.length_append, part, List.length_cons]
      rfl
    have text : (pathBytes (path ++ [name])).length =
        (pathBytes path).length + (name.bytes.length + 1) := by
      rw [pathBytes_concat, List.length_append, List.length_cons]
    rw [updateCwdLoop, hpar, hname]
    dsimp only
    rw [len]
    by_cases hroom : name.bytes.length + 1 + temp.strlen + 1 ≤ pathMax
    · rw [if_pos hroom, ih (by omega) (by omega), longer, text]
      refine if_congr ?_ (congrArg some ?_) rfl
      · omega
      · show _ ++ (name.pathPart.bytes ++ temp.bytes) = _
        rw [part, pathBytes_concat, List.append_assoc, List.cons_append]
    · rw [if_neg hroom, text, if_neg (by omega)]
      rfl

/-! ## The invariant -/

/-- What the globals are as long as the moves fit: the tree with unique names and no gaps, the
current directory at the end of the path, and `cwd` its text. -/
structure CdSafe (s : Cd) (path : List CString) : Prop where
  named : FsNamed s.fs
  compact : Compact (occupied s.fs.live)
  at_path : ∃ d, s.fs.currentDir = some d ∧ s.fs.Reaches path d
  short : (pathBytes path).length < pathMax
  cwd : s.cwd.bytes = if path = [] then [47] else pathBytes path

theorem cdSafe_start (s : Fs) : CdSafe (cdStart s) [] where
  named := fsNamed_init s
  compact := fsInit_compact s
  at_path := ⟨0, rfl, .root⟩
  short := by decide
  cwd := rfl

section Safe

variable {s : Cd} {path : List CString}

/-- A directory at the end of a path is live, and a directory. -/
theorem CdSafe.live_of_reaches (h : CdSafe s path) {p : List CString} {d : Slot}
    (hd : s.fs.Reaches p d) : ∃ f, s.fs.live d = some f ∧ f.isDir = true := by
  cases hd with
  | root =>
    obtain ⟨r, hr, hdir, -⟩ := h.named.tree.tree.top
    exact ⟨r, hr, hdir⟩
  | into _ hentry hdir =>
    obtain ⟨f, hf, -⟩ := hentry
    refine ⟨f, hf, ?_⟩
    rw [← (Fs.live_eq_some.mp hf).2]
    exact hdir

/-- The lookup finds exactly the children of the current directory. -/
theorem CdSafe.find_iff (h : CdSafe s path) {d : Slot} (hd : s.fs.currentDir = some d)
    (name : CString) (i : Slot) :
    fsFindFile s.fs (some name) = some i ↔ s.fs.Entry d name i := by
  constructor
  · intro hfound
    rw [fsFindFile, hd] at hfound
    exact (fsFindFileInDir_eq_some hfound).2
  · intro hentry
    exact h.named.find_entry hd hentry (h.named.entry_lt h.compact hentry)

/-- The command's own search finds exactly the sub-directories of the current directory. -/
theorem CdSafe.cdFind_iff (h : CdSafe s path) {d : Slot} (hd : s.fs.currentDir = some d)
    (target : CString) (i : Slot) :
    cdFind s.fs target = some i ↔ s.fs.Entry d target i ∧ (s.fs.files i).isDir = true := by
  have test : ∀ j : Slot, (decide (j.val < s.fs.fileCount) && (s.fs.files j).isDir &&
      (s.fs.files j).name == target &&
      ((s.fs.currentDir == none && (s.fs.files j).parent == none) ||
        (s.fs.currentDir != none && (s.fs.files j).parent == s.fs.currentDir))) = true ↔
      s.fs.Entry d target j ∧ (s.fs.files j).isDir = true := by
    intro j
    have used : j.val < s.fs.fileCount ↔ s.fs.freeList j = false := by
      rw [h.named.tree.count, ← h.compact j, mem_occupied, Option.isSome_iff_exists]
      exact ⟨fun ⟨f, hf⟩ => (Fs.live_eq_some.mp hf).1, fun hfree => ⟨_, Fs.live_of_used hfree⟩⟩
    rw [hd, Fs.entry_iff]
    simp only [Bool.and_eq_true, decide_eq_true_eq, beq_iff_eq, used]
    simp only [Option.some_beq_none, Bool.false_and, Bool.false_or, Bool.and_eq_true, beq_iff_eq,
      bne_iff_ne, ne_eq, reduceCtorEq, not_false_eq_true, true_and]
    tauto
  rw [cdFind, Fin.find?_eq_some_iff, test]
  refine and_iff_left_of_imp fun hentry j hj => ?_
  -- an earlier slot with the same name would be the same entry
  rw [Bool.eq_false_iff, ne_eq, test]
  rintro ⟨hother, -⟩
  exact absurd (h.named.unique.entry_unique hother hentry.1) (ne_of_lt hj)

/-- A move to the end of another path goes through exactly when the text of the path fits. -/
theorem CdSafe.move (h : CdSafe s path) {p : List CString} {d : Slot} (hd : s.fs.Reaches p d) :
    ((pathBytes p).length < pathMax →
      ∃ e, cdMove s (some d) = some e ∧ e.status = 0 ∧ CdSafe e.after p) ∧
    (pathMax ≤ (pathBytes p).length → cdMove s (some d) = none) := by
  have loop : (updateCwdLoop s.fs.files pathMax (some d) .empty).map CString.bytes =
      if (pathBytes p).length + CString.empty.strlen < pathMax then
        some (pathBytes p ++ CString.empty.bytes) else none :=
    updateCwdLoop_reaches h.named hd (Nat.le_refl _) (by decide)
  have empty : CString.empty.strlen = 0 := rfl
  rw [empty, Nat.add_zero] at loop
  constructor
  · intro hshort
    rw [if_pos hshort] at loop
    obtain ⟨temp, htemp, hbytes⟩ := Option.map_eq_some_iff.mp loop
    have hbytes : temp.bytes = pathBytes p := hbytes.trans (List.append_nil _)
    let cwd : CString := (if temp.strlen = 0 then .slash else temp).strncpy (pathMax - 1)
    have update : updateCwd { s with fs := { s.fs with currentDir := some d } } =
        some { fs := { s.fs with currentDir := some d }, cwd := cwd } := by
      show (updateCwdLoop s.fs.files pathMax (some d) .empty).map _ = _
      rw [htemp]
      rfl
    refine ⟨⟨{ fs := { s.fs with currentDir := some d }, cwd := cwd }, 0, []⟩, ?_, rfl, ?_⟩
    · rw [cdMove, update]
      rfl
    · obtain ⟨f, hf, hdir⟩ := h.live_of_reaches hd
      refine ⟨⟨⟨h.named.tree.tree, h.named.tree.count, d, f, rfl, hf, hdir⟩, h.named.valid,
        h.named.unique⟩, h.compact,
        ⟨d, rfl, hd.mono fun i g hg => ⟨g, hg, rfl, rfl, rfl, rfl, rfl⟩⟩, hshort, ?_⟩
      show ((if temp.bytes.length = 0 then .slash else temp : CString).strncpy 255).bytes = _
      rw [hbytes]
      cases p with
      | nil => rfl
      | cons name p =>
        have pos : (pathBytes (name :: p)).length ≠ 0 := by
          rw [pathBytes, List.flatMap_cons, List.cons_append, List.length_cons]
          exact Nat.succ_ne_zero _
        rw [if_neg pos, if_neg (List.cons_ne_nil _ _), CString.strncpy_of_le]
        · exact hbytes
        · rw [CString.strlen, hbytes]
          exact Nat.le_of_lt_succ hshort
  · intro hlong
    rw [if_neg (Nat.not_lt.mpr hlong), Option.map_eq_none_iff] at loop
    show ((updateCwdLoop s.fs.files pathMax (some d) .empty).map _).map _ = none
    rw [loop]
    rfl

/-- A move to the null directory leaves no current directory. -/
theorem cdMove_null (s : Cd) : ∃ e, cdMove s none = some e ∧ e.after.fs.currentDir = none :=
  ⟨_, rfl, rfl⟩

/-! ## One call -/

/-- The special names are no entry's. -/
theorem CdSafe.not_special (h : CdSafe s path) {target : CString} (hsub : s.fs.SubDir target) :
    target ≠ .dot ∧ target ≠ .dotdot := by
  obtain ⟨d, i, _, hentry, _⟩ := hsub
  have valid := (h.named.entry_valid hentry).2
  constructor
  · rintro rfl
    exact absurd valid (by decide)
  · rintro rfl
    exact absurd valid (by decide)

/-- A name that is not special is a sub-directory's and is entered, or nothing changes. -/
theorem CdSafe.cd_name (h : CdSafe s path) {command target : CString} (hslash : target ≠ .slash)
    (hdot : target ≠ .dot) (hdotdot : target ≠ .dotdot) :
    (∃ i, s.fs.SubDir target ∧ s.fs.Reaches (path ++ [target]) i ∧
      cdMain s [command, target] = cdMove s (some i)) ∨
    (¬ s.fs.SubDir target ∧ ∃ e, cdMain s [command, target] = some e ∧ e.status = 2 ∧
      e.after = s) := by
  obtain ⟨d, hd, hreach⟩ := h.at_path
  have main : cdMain s [command, target] = (cdFind s.fs target).elim
      (some ⟨s, 2, text "cd: no such directory: " ++ target.bytes ++ text "\n"⟩)
      fun i => cdMove s (some i) := by
    show (if _ then _ else if _ then _ else if _ then _ else _) = _
    rw [if_neg hslash, if_neg hdot, if_neg hdotdot]
    cases cdFind s.fs target with
    | some i => rfl
    | none => rfl
  cases hfind : cdFind s.fs target with
  | some i =>
    obtain ⟨hentry, hdir⟩ := (h.cdFind_iff hd target i).mp hfind
    rw [hfind] at main
    exact .inl ⟨i, ⟨d, i, hd, hentry, hdir⟩, hreach.into hentry hdir, main⟩
  | none =>
    rw [hfind] at main
    refine .inr ⟨?_, _, main, rfl, rfl⟩
    rintro ⟨d', i, hd', hentry, hdir⟩
    obtain rfl := Option.some.inj (hd.symm.trans hd')
    have found := (h.cdFind_iff hd target i).mpr ⟨hentry, hdir⟩
    rw [hfind] at found
    cases found

/-- `cd ..` below the root moves to the parent. -/
theorem CdSafe.cd_up (h : CdSafe s path) (command : CString) (hne : path ≠ []) :
    ∃ e, cdMain s [command, .dotdot] = some e ∧ e.status = 0 ∧ CdSafe e.after path.dropLast := by
  obtain ⟨d, hd, hreach⟩ := h.at_path
  obtain ⟨p, hpar, hup⟩ := hreach.parent hne
  have shorter : (pathBytes path.dropLast).length ≤ (pathBytes path).length := by
    conv_rhs => rw [← List.dropLast_concat_getLast hne, pathBytes_concat, List.length_append]
    exact Nat.le_add_right _ _
  have main : cdMain s [command, .dotdot] = cdMove s (some p) := by
    show cdMove s (s.fs.currentDir.bind fun d => (s.fs.files d).parent) = _
    rw [hd, Option.bind_some, hpar]
  rw [main]
  exact (h.move hup).1 (Nat.lt_of_le_of_lt shorter h.short)

end Safe

/-- What a run keeps. -/
def CdRun.Safe (t : CdRun) : Prop := ∃ s, t.cd = some s ∧ CdSafe s t.path

section Step

variable {t : CdRun}

theorem CdRun.Safe.atPath (h : t.Safe) : CdAtPath t := by
  obtain ⟨s, hs, safe⟩ := h
  obtain ⟨d, hd, hreach⟩ := safe.at_path
  obtain ⟨f, hf, hdir⟩ := safe.live_of_reaches hreach
  exact ⟨s, d, f, hs, hd, hf, hdir, hreach, safe.find_iff hd⟩

/-- The arguments of a `cd`, when there are two of them. -/
theorem cdFits_iff {command target : CString} {s : Cd} (hs : t.cd = some s) :
    CdFits t (.cd [command, target]) ↔ target ≠ .slash ∧ (target = .dotdot → t.path ≠ []) ∧
      (s.fs.SubDir target → (pathBytes (t.path ++ [target])).length < pathMax) := by
  refine and_congr_right fun _ => and_congr_right fun _ => ?_
  rw [hs]
  exact ⟨fun h => h s rfl, fun h s' heq => Option.some.inj heq ▸ h⟩

theorem cdStep_cd {s : Cd} (hs : t.cd = some s) {argv : List CString} {e : CdExit}
    (he : cdMain s argv = some e) :
    cdStep t (.cd argv) = { cd := some e.after, path := cdPath t.path argv e.status } := by
  rw [cdStep, hs]
  dsimp only
  rw [he]

theorem cdPath_name {path : List CString} {command target : CString} (hslash : target ≠ .slash)
    (hdot : target ≠ .dot) (hdotdot : target ≠ .dotdot) (status : Int) :
    cdPath path [command, target] status = if status = 0 then path ++ [target] else path := by
  show (if _ then _ else if _ then _ else if _ then _ else _) = _
  rw [if_neg hslash, if_neg hdot, if_neg hdotdot]

/-- A `cd` that fits: it returns, the run stays safe, and the answer is right. -/
theorem CdRun.Safe.cd (h : t.Safe) {argv : List CString} (hfits : CdFits t (.cd argv)) :
    (cdStep t (.cd argv)).Safe ∧ CdAnswers t (.cd argv) := by
  obtain ⟨s, hs, safe⟩ := h
  -- it is enough to say what the command leaves
  suffices goal : ∃ e, cdMain s argv = some e ∧ CdSafe e.after (cdPath t.path argv e.status) ∧
      CdAnswer s e argv by
    obtain ⟨e, he, hsafe, hanswer⟩ := goal
    refine ⟨?_, fun s' hs' => ?_⟩
    · rw [cdStep_cd hs he]
      exact ⟨e.after, rfl, hsafe⟩
    · obtain rfl := Option.some.inj (hs.symm.trans hs')
      exact ⟨e, he, hanswer⟩
  match argv with
  | [] | [_] | _ :: _ :: _ :: _ => exact ⟨_, rfl, safe, rfl, rfl⟩
  | [command, target] =>
    obtain ⟨hslash, hup, hshort⟩ := (cdFits_iff hs).mp hfits
    by_cases hdot : target = .dot
    · subst hdot
      exact ⟨_, rfl, safe, rfl, rfl⟩
    by_cases hdotdot : target = .dotdot
    · subst hdotdot
      obtain ⟨e, he, hstatus, hsafe⟩ := safe.cd_up command (hup rfl)
      exact ⟨e, he, hsafe, hstatus⟩
    have answer : ∀ {e}, CdNamed s target e → CdAnswer s e [command, target] := by
      intro e hnamed
      show if _ then _ else if _ then _ else _
      rw [if_neg (not_or.mpr ⟨hslash, hdotdot⟩), if_neg hdot]
      exact hnamed
    rcases safe.cd_name hslash hdot hdotdot with ⟨i, hsub, hreach, hmain⟩ | ⟨hno, e, he, h2, hsame⟩
    · obtain ⟨e, he, hstatus, hsafe⟩ := (safe.move hreach).1 (hshort hsub)
      refine ⟨e, hmain.trans he, ?_,
        answer ⟨iff_of_true hstatus hsub, fun hne => absurd hstatus hne⟩⟩
      rw [cdPath_name hslash hdot hdotdot, if_pos hstatus]
      exact hsafe
    · have nonzero : e.status ≠ 0 := by
        rw [h2]
        decide
      refine ⟨e, he, ?_, answer ⟨iff_of_false nonzero hno, fun _ => ⟨h2, hsame⟩⟩⟩
      rw [cdPath_name hslash hdot hdotdot, if_neg nonzero, hsame]
      exact safe

/-- A `cd` that does not fit leaves no current directory, or writes past its array. -/
theorem CdRun.Safe.cd_bad (h : t.Safe) {argv : List CString} (hbad : ¬ CdFits t (.cd argv)) :
    ¬ CdAtPath (cdStep t (.cd argv)) := by
  obtain ⟨s, hs, safe⟩ := h
  rintro ⟨s', d, f, hs', hd, -⟩
  match argv with
  | [] | [_] | _ :: _ :: _ :: _ => exact hbad trivial
  | [command, target] =>
    rw [cdFits_iff hs] at hbad
    have lost : ∀ {e : CdExit}, cdMain s [command, target] = some e →
        e.after.fs.currentDir = none → False := by
      intro e he hnone
      rw [cdStep_cd hs he] at hs'
      obtain rfl := Option.some.inj hs'
      rw [hnone] at hd
      cases hd
    by_cases hslash : target = .slash
    · subst hslash
      obtain ⟨e, he, hnone⟩ := cdMove_null s
      exact lost he hnone
    by_cases hup : target = .dotdot → t.path ≠ []
    · -- a sub-directory with a path that is too long
      obtain ⟨hsub, hlong⟩ := Classical.not_imp.mp fun hfit => hbad ⟨hslash, hup, hfit⟩
      obtain ⟨hdot, hdotdot⟩ := safe.not_special hsub
      rcases safe.cd_name hslash hdot hdotdot with ⟨i, _, hreach, hmain⟩ | ⟨hno, _⟩
      · have stuck := (safe.move hreach).2 (Nat.le_of_not_lt hlong)
        rw [cdStep, hs] at hs'
        dsimp only at hs'
        rw [hmain, stuck] at hs'
        cases hs'
      · exact hno hsub
    · obtain ⟨rfl, hroot⟩ := Classical.not_imp.mp hup
      obtain ⟨c, hc, hreach⟩ := safe.at_path
      rw [not_not.mp hroot] at hreach
      obtain rfl := hreach.eq_root
      obtain ⟨r, hr, -, hnone⟩ := safe.named.tree.tree.top
      obtain ⟨-, rfl⟩ := Fs.live_eq_some.mp hr
      obtain ⟨e, he, hnull⟩ := cdMove_null s
      refine lost ?_ hnull
      show cdMove s (s.fs.currentDir.bind fun d => (s.fs.files d).parent) = _
      rw [hc, Option.bind_some, hnone]
      exact he

/-- A call of the driver that adds an entry, or nothing, keeps the current directory and the path to
it. -/
theorem CdSafe.make {s : Cd} {path : List CString} (h : CdSafe s path) {c : FsCall}
    {makes : Option CString}
    (heffect : FsEffect (fun _ _ => False) makes none s.fs (fsStep s.fs c))
    (hcurrent : (fsStep s.fs c).currentDir = s.fs.currentDir) (hremoves : c.removes = none) :
    CdSafe { s with fs := fsStep s.fs c } path := by
  have keep : ∀ i f, s.fs.live i = some f →
      ∃ g, (fsStep s.fs c).live i = some g ∧ SameNode f g := by
    intro i f hf
    cases heffect with
    | idle live | enter _ live => exact ⟨f, by rw [live]; exact hf, rfl, rfl, rfl, rfl, rfl⟩
    | touch _ change => exact change.elim
    | insert _ _ _ slot _ live =>
      have free := Fs.live_eq_none.mpr (Fin.find?_eq_some_iff.mp slot).1
      exact ⟨f, by rw [live]; exact filled_keeps free hf, rfl, rfl, rfl, rfl, rfl⟩
    | remove named => cases named
  obtain ⟨d, hd, hreach⟩ := h.at_path
  refine ⟨h.named.step fun name dir i _ _ hi => h.named.entry_lt h.compact hi,
    compact_step h.compact fun name i hname => ?_, ⟨d, hcurrent.trans hd, hreach.mono keep⟩,
    h.short, h.cwd⟩
  rw [hremoves] at hname
  cases hname

theorem fsMkdir_currentDir (s : Fs) (dirname : Option CString) :
    (fsMkdir s dirname).1.currentDir = s.currentDir := by
  unfold fsMkdir
  split
  · split
    · rfl
    · split <;> rfl
  · rfl

theorem fsCreate_currentDir (s : Fs) (filename : Option CString) (heap : Heap) :
    (fsCreate s filename heap).1.currentDir = s.currentDir := by
  unfold fsCreate fsCreateWithPerms
  split
  · split
    · rfl
    · split
      · rfl
      · dsimp only
        split <;> rfl
  · rfl

/-! ## The condition is exact -/

theorem CdRun.Safe.step (h : t.Safe) {c : CdCall} (hfits : CdFits t c) : (cdStep t c).Safe := by
  cases c with
  | cd argv => exact (h.cd hfits).1
  | mkdir dirname =>
    obtain ⟨s, hs, safe⟩ := h
    rw [cdStep, hs]
    exact ⟨_, rfl, safe.make (c := .mkdir dirname) (fsMkdir_effect s.fs dirname)
      (fsMkdir_currentDir s.fs dirname) rfl⟩
  | create filename heap =>
    obtain ⟨s, hs, safe⟩ := h
    rw [cdStep, hs]
    exact ⟨_, rfl, safe.make (c := .create filename heap)
      (fsCreateWithPerms_effect s.fs filename fsPermDefault heap)
      (fsCreate_currentDir s.fs filename heap) rfl⟩

theorem CdRun.Safe.answers (h : t.Safe) {c : CdCall} (hfits : CdFits t c) : CdAnswers t c := by
  cases c with
  | cd argv => exact (h.cd hfits).2
  | mkdir | create => trivial

theorem CdRun.Safe.bad (h : t.Safe) {c : CdCall} (hbad : ¬ CdFits t c) :
    ¬ CdAtPath (cdStep t c) := by
  cases c with
  | cd argv => exact h.cd_bad hbad
  | mkdir | create => exact absurd trivial hbad

end Step

/-- In every run after `fs_init`, `cd` walks the tree (in every state the current directory is live,
is where the path leads, and is where lookups look, and every answer is right) exactly when no call
is `cd /`, `cd ..` at the root, or a `cd` to a directory with a path of `PATH_MAX` bytes or more. -/
theorem cd_walks_iff (s₀ : Fs) (calls : List CdCall) :
    (EveryState cdStep CdAtPath (cdRunStart s₀) calls ∧
      EveryStep cdStep CdAnswers (cdRunStart s₀) calls) ↔
      EveryStep cdStep CdFits (cdRunStart s₀) calls := by
  have start : (cdRunStart s₀).Safe := ⟨_, rfl, cdSafe_start s₀⟩
  have exact_ : EveryState cdStep CdAtPath (cdRunStart s₀) calls ↔
      EveryStep cdStep CdFits (cdRunStart s₀) calls :=
    everyState_iff (fun _ _ h hfits => h.step hfits) (fun _ h => h.atPath)
      (fun _ _ h hbad => h.bad hbad) start
  rw [exact_]
  exact and_iff_left_of_imp fun hfits =>
    hfits.mono (fun _ _ h hf => h.step hf) (fun _ _ h hf => h.answers hf) start

/-- `mkdir a` and `cd /`: the root has an entry `a`, and a lookup of it finds nothing. -/
theorem cd_walks_fails :
    ¬ EveryState cdStep CdAtPath (cdRunStart fsStart)
      [.mkdir (some (.char 97)), .cd [.char 99, .slash]] := by
  intro h
  obtain ⟨s, d, f, hs, hd, -⟩ := everyState_iff_prefix.mp h _ [] (List.append_nil _).symm
  have none : ((runFrom cdStep (cdRunStart fsStart)
      [.mkdir (some (.char 97)), .cd [.char 99, .slash]]).cd.bind fun s => s.fs.currentDir) =
      none := by decide +kernel
  rw [hs, Option.bind_some, hd] at none
  cases none

end Unics
