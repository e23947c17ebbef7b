import Unics.Drivers.Fs
import Unics.Drivers.Vga

/-!
# Commands on files
-/

namespace Unics

/-!
## rmdir

`bin/rmdir.c`. The command works on the table itself: it looks for the directory, checks it, and
closes the gap by shifting the slots behind it. `argc` is the length of `argv`.
-/

/-- What a command leaves: the state, its exit status and what it printed. -/
structure Exit where
  after : Fs
  status : Int
  printed : List UInt8

/-- The bytes of a literal. -/
def text (s : String) : List UInt8 := s.toUTF8.toList

/-- The slot of an index of the shift loop, which stays below `file_count`. -/
def slotAt (k : Nat) : Slot := Fin.ofNat maxFiles k

/-- The shift loop, with `n` rounds to go: `files[k] = files[k + 1]`. -/
def shiftLeft (files : Slot → File) (k : Nat) : Nat → Slot → File
  | 0 => files
  | n + 1 => shiftLeft (Function.update files (slotAt k) (files (slotAt (k + 1)))) (k + 1) n

/-- The search of `rmdir_main`: it does not look at `free_list`. -/
def rmdirFind (s : Fs) (dirname : CString) : Option Slot :=
  Fin.find? fun i => decide (i.val < s.fileCount) && (s.files i).parent == s.currentDir &&
    (s.files i).name == dirname

/-- The emptiness check of `rmdir_main`. -/
def rmdirIsEmpty (s : Fs) (i : Slot) : Bool :=
  decide (∀ j : Slot, j.val < s.fileCount → (s.files j).parent ≠ some i)

def rmdirMain (s : Fs) (argv : List CString) : Exit :=
  match argv with
  | [_, dirname] =>
    match rmdirFind s dirname with
    | none => ⟨s, 5, text "rmdir: directory '" ++ dirname.bytes ++ text "' not found\n"⟩
    | some i =>
      if !(s.files i).isDir then
        ⟨s, 2, text "rmdir: '" ++ dirname.bytes ++ text "' is not a directory\n"⟩
      else if !rmdirIsEmpty s i then
        ⟨s, 3, text "rmdir: '" ++ dirname.bytes ++ text "' is not empty\n"⟩
      else if (s.files i).isOpen then
        ⟨s, 4, text "rmdir: '" ++ dirname.bytes ++ text "' is currently open\n"⟩
      else
        -- neither `free_list` nor the pointers into the table follow the shift
        ⟨{ s with
            files := shiftLeft s.files i (s.fileCount - 1 - i)
            fileCount := s.fileCount - 1 }, 0,
          text "Directory '" ++ dirname.bytes ++ text "' removed successfully.\n"⟩
  | _ => ⟨s, 1, text "Usage: rmdir <directory>\n"⟩

/-!
## ls

`bin/ls.c`. The command prints in colours, so what it prints is a list of texts, each in the colour
that is set by then. It changes nothing but the colour, and puts that back.
-/

def vgaColorBlack : UInt32 := 0
def vgaColorLightBlue : UInt32 := 9
def vgaColorWhite : UInt32 := 15

/-- A text, in a colour of the screen. -/
structure Colored where
  color : UInt8
  text : List UInt8
  deriving DecidableEq

/-- The slots that `ls` shows: those below `file_count`, whether or not they are free. -/
def lsListed (s : Fs) : List Slot :=
  (List.finRange maxFiles).filter fun i =>
    decide (i.val < s.fileCount) && (s.files i).parent == s.currentDir

/-- What `ls` prints for a file. -/
def lsPrint (f : File) : Colored where
  color :=
    if f.isDir then vgaEntryColor vgaColorLightBlue vgaColorBlack
    else vgaEntryColor vgaColorWhite vgaColorBlack
  text := f.name.bytes ++ (if f.isDir then text "/" else []) ++ text " "

/-- What `ls` prints, and the colour it leaves. -/
structure Ls where
  status : Int
  printed : List Colored
  color : UInt8

def lsMain (s : Fs) (originalColor : UInt8) : Ls :=
  -- Empty directory: the count is that of the whole table
  if s.fileCount = 0 then ⟨0, [], originalColor⟩
  else
    let color :=
      vgaEntryColor (originalColor &&& 0x0F).toUInt32 (originalColor >>> 4 &&& 0x0F).toUInt32
    ⟨0, (lsListed s).map (fun i => lsPrint (s.files i)) ++ [⟨color, text "\n"⟩], color⟩

/-!
## mv

`bin/mv.c`. The command works on the table itself: it looks for both names in the slots below
`file_count`, and stores the new name in the slot that has the old one. `argc` is the length of
`argv`.
-/

/-- The two searches of `mv_main`: by name alone, over directories and free slots. -/
def mvFind (s : Fs) (name : CString) : Option Slot :=
  Fin.find? fun i => decide (i.val < s.fileCount) && (s.files i).name == name

def mvMain (s : Fs) (argv : List CString) : Exit :=
  match argv with
  | [_, source, dest] =>
    -- Check if destination filename is valid first (fail fast): the length is all that is checked
    if dest.strlen ≥ maxFilenameLen then ⟨s, 5, text "Error: Destination filename too long\n"⟩
    else
      match mvFind s source with
      | none => ⟨s, 2, text "Error: Source file '" ++ source.bytes ++ text "' not found\n"⟩
      | some i =>
        if (mvFind s dest).isSome then
          ⟨s, 3, text "Error: Destination file '" ++ dest.bytes ++ text "' already exists\n"⟩
        else if (s.files i).isOpen then
          ⟨s, 4, text "Error: Cannot move open file '" ++ source.bytes ++ text "'\n"⟩
        else
          ⟨s.setFile i { s.files i with name := dest.strncpy (maxFilenameLen - 1) }, 0,
            text "Moved '" ++ source.bytes ++ text "' to '" ++ dest.bytes ++ text "'\n"⟩
  | _ => ⟨s, 1, text "Usage: mv <source> <destination>\n"⟩

/-!
## rm

`bin/rm.c`. The arguments are those behind the command's name. `fprintf` prints on the screen
whatever its stream, so errors are among what is printed.
-/

/-- `"-v"`. -/
def CString.dashV : CString := ⟨[45, 118], by decide⟩

/-- The state in the loop. -/
structure Rm where
  after : Fs
  exitCode : Int
  printed : List UInt8

namespace Rm

/-! The exit codes of `rm.c`. -/

def exitSuccess : Int := 0
def exitGeneralError : Int := 1
def exitFileInUse : Int := 2
def exitNotFound : Int := 3

end Rm

/-- A turn of the loop. The cases of the switch are numbers of its own, not the driver's codes. -/
def rmTurn (verbose : Bool) (t : Rm) (filename : CString) : Rm :=
  let (s, result) := fsDelete t.after (some filename)
  if result.toInt = 0 then
    { t with
      after := s
      printed := t.printed ++
        if verbose then text "removed '" ++ filename.bytes ++ text "'\n" else [] }
  else if result.toInt = -1 then
    { after := s
      exitCode := Rm.exitFileInUse
      printed := t.printed ++
        (text "rm: cannot remove '" ++ filename.bytes ++ text "': File is in use\n") }
  else if result.toInt = -2 then
    { after := s
      exitCode := if t.exitCode = Rm.exitSuccess then Rm.exitNotFound else t.exitCode
      printed := t.printed ++
        (text "rm: cannot remove '" ++ filename.bytes ++ text "': No such file\n") }
  else
    { after := s
      exitCode := Rm.exitGeneralError
      printed := t.printed ++
        (text "rm: unknown error deleting '" ++ filename.bytes ++ text "'\n") }

/-- The arguments behind the flag, where the first one is the flag. -/
def rmNames : List CString → List CString
  | [] => []
  | first :: rest => if first = .dashV then rest else first :: rest

def rmMain (s : Fs) (args : List CString) : Exit :=
  match args with
  | [] => ⟨s, Rm.exitGeneralError, text "Usage: rm <filename> [filename...]\n"⟩
  | first :: _ =>
    let t := (rmNames args).foldl (rmTurn (decide (first = .dashV))) ⟨s, Rm.exitSuccess, []⟩
    ⟨t.after, t.exitCode, t.printed⟩

/-!
## touch

`bin/touch.c`. The arguments are those behind the command's name, each with what the heap answers if
a file is created for it.
-/

/-- An argument of `touch`. -/
structure TouchArg where
  filename : CString
  heap : Heap

/-- The loop's test of existence: it compares the names in the slots below `file_count`, of whatever
directory, and those that free slots still hold. -/
def touchExists (s : Fs) (filename : CString) : Bool :=
  decide (∃ j : Slot, j.val < s.fileCount ∧ (s.files j).name = filename)

/-- The state in the loop. -/
structure Touch where
  after : Fs
  successCount : Nat
  printed : List UInt8

/-- A turn of the loop. -/
def touchTurn (t : Touch) (arg : TouchArg) : Touch :=
  if touchExists t.after arg.filename then
    { t with printed := t.printed ++ text "'" ++ arg.filename.bytes ++ text "' already exists\n" }
  else
    let (s, result) := fsCreate t.after (some arg.filename) arg.heap
    if result.toInt = 0 then
      { after := s
        successCount := t.successCount + 1
        printed := t.printed ++ text "Created '" ++ arg.filename.bytes ++ text "'\n" }
    else
      { after := s
        successCount := t.successCount
        printed := t.printed ++ text "Error creating '" ++ arg.filename.bytes ++ text "' (code " ++
          text (toString result.toInt) ++ text ")\n" }

def touchMain (s : Fs) (args : List TouchArg) : Exit :=
  if args = [] then ⟨s, 1, text "Usage: touch <filename> [filename2 ...]\n"⟩
  else
    let t := args.foldl touchTurn ⟨s, 0, []⟩
    ⟨t.after, if t.successCount > 0 then 0 else 2,
      t.printed ++
        (if t.successCount > 0 then
          text "Successfully created " ++ text (toString t.successCount) ++ text " file(s)\n"
        else text "No files were created\n")⟩

end Unics
