import Unics.Bin.Files
import Unics.Libc.Printf
import Unics.Libc.String

/-!
# cd

`bin/cd.c`. The command moves `current_dir` and writes the text of the new path to `cwd`, which it
builds in an array of `PATH_MAX` bytes. A write past the end of that array is undefined, and ends
the run here: the functions return nothing then. `argc` is the length of `argv`.

`update_cwd` stands twice. `updateCwd` is on strings, for the command, and `updateCwdArray` on the
three arrays byte by byte. The zero that the library's `strncpy` stores behind `cwd` is only in the
second.
-/

namespace Unics

/-- The file system, and the command's global `cwd`. -/
structure Cd where
  fs : Fs
  cwd : CString

/-- The globals as `fs_init` leaves them. -/
def cdStart (s : Fs) : Cd := { fs := fsInit s, cwd := .slash }

namespace CString

/-- `"/%s"`, as `snprintf` prints it into an array of `PATH_MAX` bytes. -/
def pathPart (name : CString) : CString :=
  CString.strncpy ⟨47 :: name.bytes, fun h => name.noNul (by simpa using h)⟩ (pathMax - 1)

/-- `memmove` and `memcpy`: one string put before the other. -/
def prepend (s t : CString) : CString :=
  ⟨s.bytes ++ t.bytes, fun h => (List.mem_append.mp h).elim s.noNul t.noNul⟩

end CString

/-- The loop of `update_cwd`. A turn puts at least a slash before `temp`, so `PATH_MAX` turns are
more than the array has room for. -/
def updateCwdLoop (files : Slot → File) : Nat → Option Slot → CString → Option CString
  | 0, _, _ => none
  | fuel + 1, dir, temp =>
    match dir with
    | none => some temp
    | some d =>
      match (files d).parent with
      | none => some temp
      | some parent =>
        let pathPart := (files d).name.pathPart
        -- the terminator moves with the string
        if pathPart.strlen + temp.strlen + 1 ≤ pathMax then
          updateCwdLoop files fuel (some parent) (pathPart.prepend temp)
        else none

def updateCwd (s : Cd) : Option Cd :=
  match s.fs.currentDir with
  | none => some { s with cwd := .slash }
  | some d =>
    (updateCwdLoop s.fs.files pathMax (some d) .empty).map fun temp =>
      -- Handle root case
      let temp := if temp.strlen = 0 then .slash else temp
      { s with cwd := temp.strncpy (pathMax - 1) }

/-! ## The arrays of `update_cwd` -/

/-- `snprintf(path_part, sizeof(path_part), "/%s", name)`, into an array of zeros. -/
def pathPartArray (name : CString) : Option Buffer := do
  let part ← vsnprintf pathMax ⟨[47, 37, 115], by decide⟩ [.str (some name)]
  storeChars pathMax (fun _ => 0) 0 (part.bytes ++ [0])

/-- A turn of the loop: the `memmove` and the `memcpy`. -/
def updateCwdTurn (name : CString) (temp : Buffer) : Option Buffer := do
  let pathPart ← pathPartArray name
  let part ← CString.ofBuffer pathMax pathPart
  let held ← CString.ofBuffer pathMax temp
  let temp ← storeChars pathMax temp part.strlen (bytesAt temp 0 (held.strlen + 1))
  storeChars pathMax temp 0 (bytesAt pathPart 0 part.strlen)

/-- The loop, as `updateCwdLoop` has it. -/
def updateCwdTemp (files : Slot → File) : Nat → Option Slot → Buffer → Option Buffer
  | 0, _, _ => none
  | fuel + 1, dir, temp =>
    match dir with
    | none => some temp
    | some d =>
      match (files d).parent with
      | none => some temp
      | some parent => do
        let temp ← updateCwdTurn (files d).name temp
        updateCwdTemp files fuel (some parent) temp

/-- `update_cwd`: the new contents of `cwd`. -/
def updateCwdArray (s : Fs) (cwd : Buffer) : Option Buffer :=
  match s.currentDir with
  | none => storeChars pathMax cwd 0 [47, 0]
  | some d => do
    let temp ← updateCwdTemp s.files pathMax (some d) fun _ => 0
    let held ← CString.ofBuffer pathMax temp
    -- Handle root case
    let temp ← if held.strlen = 0 then storeChars pathMax temp 0 [47, 0] else some temp
    let cwd ← strncpy pathMax cwd temp pathMax
    storeChar pathMax cwd (pathMax - 1) 0

/-! ## The command -/

/-- The search of `cd_main`: it does not look at `free_list`. -/
def cdFind (s : Fs) (target : CString) : Option Slot :=
  Fin.find? fun i => decide (i.val < s.fileCount) && (s.files i).isDir &&
    (s.files i).name == target &&
    -- Check if it's in current directory (or root if current_dir is NULL)
    ((s.currentDir == none && (s.files i).parent == none) ||
      (s.currentDir != none && (s.files i).parent == s.currentDir))

/-- What the command leaves: the globals, its exit status and what it printed. -/
structure CdExit where
  after : Cd
  status : Int
  printed : List UInt8

/-- `current_dir` is set and `cwd` follows. -/
def cdMove (s : Cd) (dir : Option Slot) : Option CdExit :=
  (updateCwd { s with fs := { s.fs with currentDir := dir } }).map fun s => ⟨s, 0, []⟩

def cdMain (s : Cd) (argv : List CString) : Option CdExit :=
  match argv with
  | [_, target] =>
    -- Using NULL for root as per your original code
    if target = .slash then cdMove s none
    else if target = .dot then some ⟨s, 0, []⟩
    else if target = .dotdot then
      cdMove s (s.fs.currentDir.bind fun d => (s.fs.files d).parent)
    else
      match cdFind s.fs target with
      | some i => cdMove s (some i)
      | none => some ⟨s, 2, text "cd: no such directory: " ++ target.bytes ++ text "\n"⟩
  | _ => some ⟨s, 1, text "Usage: cd <directory>\n"⟩

end Unics
