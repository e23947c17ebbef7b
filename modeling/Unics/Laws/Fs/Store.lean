import Unics.Laws.Fs.Failures

/-!
# What the file system is for

A file store is a map from paths to directories and files, with a current directory and room for so
many more entries. A file is its bytes, a position in them, whether it is open, and its permissions.
Slots, blocks, inodes, times and the order of the table do not occur.

`FileStore.Does` says what each call of the interface may do to a store and answer. Every call but
one is a function. A write may move fewer bytes than it is given, but only when the heap has no
block for it.
-/

namespace Unics

/-- A file as its users know it. -/
structure FileView where
  content : List UInt8
  position : Nat
  isOpen : Bool
  permissions : UInt8

/-- A new file. -/
def FileView.new (permissions : UInt8) : FileView := ⟨[], 0, false, permissions⟩

/-- `new` laid over `old` from byte `p` on. -/
def overlay (old : List UInt8) (p : Nat) (new : List UInt8) : List UInt8 :=
  old.take p ++ new ++ old.drop (p + new.length)

/-- The file after bytes are written at its position. -/
def FileView.overwrite (f : FileView) (bytes : List UInt8) : FileView :=
  { f with content := overlay f.content f.position bytes, position := f.position + bytes.length }

inductive FsNode where
  | directory
  | file (f : FileView)

structure FileStore where
  node : List CString → Option FsNode
  here : List CString
  room : Nat

/-- A store that holds its root only. -/
def FileStore.empty : FileStore where
  node := Function.update (fun _ => none) [] (some .directory)
  here := []
  room := maxFiles - 1

/-- What a call answers: its result, and the bytes it has stored in the caller's buffer. -/
structure FsAnswer where
  result : FsResult
  stored : List UInt8

def FsAnswer.ofCode (c : FsCode) : FsAnswer := ⟨.code c, []⟩

namespace FileStore

variable (t : FileStore)

/-- What lies under a name in the current directory. -/
def find (filename : Option CString) : Option FsNode :=
  filename.bind fun name => t.node (t.here ++ [name])

/-- The store with something else, or nothing, under a name in the current directory. -/
def put (name : CString) (x : Option FsNode) : FileStore :=
  { t with node := Function.update t.node (t.here ++ [name]) x }

theorem put_self {t : FileStore} {name : CString} {x : FsNode}
    (h : t.find (some name) = some x) : t.put name (some x) = t := by
  have same : t.node (t.here ++ [name]) = some x := h
  rw [put, ← same, Function.update_eq_self]

/-- A new entry in the current directory. -/
def make (filename : Option CString) (x : FsNode) (memory : Bool) : FileStore × FsCode :=
  match filename, fsValidateFilename filename with
  | some name, .success =>
    if (t.find filename).isSome then (t, .errExists)
    else if t.room = 0 then (t, .errFull)
    else if memory then ({ t.put name (some x) with room := t.room - 1 }, .success)
    else (t, .errNoMemory)
  | _, code => (t, code)

/-- The store without an entry of the current directory. -/
def drop (name : CString) : FileStore := { t.put name none with room := t.room + 1 }

/-- Something lies below a path. -/
def HasChildren (path : List CString) : Prop := ∃ name, t.node (path ++ [name]) ≠ none

noncomputable instance (path : List CString) : Decidable (t.HasChildren path) := Classical.dec _

noncomputable def delete (filename : Option CString) : FileStore × FsCode :=
  match filename, t.find filename with
  | some name, some (.file f) => if f.isOpen then (t, .errFileOpen) else (t.drop name, .success)
  | some name, some .directory =>
    if t.HasChildren (t.here ++ [name]) then (t, .errNotEmpty)
    else (t.drop name, .success)
  | _, _ => (t, .errNotFound)

def chdir (dirname : CString) : FileStore × FsCode :=
  if dirname = .dotdot then
    if t.here = [] then (t, .errInvalidPath)
    else ({ t with here := t.here.dropLast }, .success)
  else
    match t.find (some dirname) with
    | none => (t, .errNotFound)
    | some (.file _) => (t, .errInvalidPath)
    | some .directory => ({ t with here := t.here ++ [dirname] }, .success)

/-- A change to what lies under a name, which may be refused. -/
def change (filename : Option CString) (f : FsNode → Except FsCode FsNode) : FileStore × FsCode :=
  match filename, t.find filename with
  | some name, some x =>
    match f x with
    | .ok y => (t.put name (some y), .success)
    | .error code => (t, code)
  | _, _ => (t, .errNotFound)

/-- The open file under a name, where it gives a permission. -/
def opened (filename : Option CString) (perm : UInt8) : Option (CString × FileView) :=
  match filename, t.find filename with
  | some name, some (.file f) =>
    if f.isOpen && (f.permissions &&& perm == perm) then some (name, f) else none
  | _, _ => none

/-- A read moves the position past the bytes it gives. -/
def read (filename : Option CString) (buffer : UIntPtr) (size : SizeT) : FileStore × List UInt8 :=
  if buffer = null ∨ size = 0 then (t, [])
  else
    match t.opened filename fsPermRead with
    | none => (t, [])
    | some (name, f) =>
      let bytes := (f.content.drop f.position).take size.toNat
      (t.put name (some (.file { f with position := f.position + bytes.length })), bytes)

/-- A write that moves `k` bytes of the `size` it is given. -/
inductive Writes (filename : Option CString) (buffer : Option Buffer) (size : SizeT)
    (memory : Bool) : SizeT → FileStore → Prop
  | refused : buffer = none ∨ size = 0 ∨ t.opened filename fsPermWrite = none →
      Writes filename buffer size memory 0 t
  | moved {source : Buffer} {name : CString} {f : FileView} {k : SizeT} : buffer = some source →
      size ≠ 0 → t.opened filename fsPermWrite = some (name, f) → k ≤ size →
      k = size ∨ memory = false →
      Writes filename buffer size memory k
        (t.put name (some (.file (f.overwrite ((List.range k.toNat).map source)))))

/-- An open puts the position at the start. -/
def openNode : FsNode → Except FsCode FsNode
  | .directory => .error .errInvalidPath
  | .file f =>
    if f.isOpen then .error .errFileOpen
    else .ok (.file { f with isOpen := true, position := 0 })

def closeNode : FsNode → Except FsCode FsNode
  | .directory => .error .errNotOpen
  | .file f => if f.isOpen then .ok (.file { f with isOpen := false }) else .error .errNotOpen

def seekNode (offset : SizeT) : FsNode → Except FsCode FsNode
  | .directory => .error .errNotOpen
  | .file f =>
    if ¬ f.isOpen then .error .errNotOpen
    else if f.content.length < offset.toNat then .error .errSeekBounds
    else .ok (.file { f with position := offset.toNat })

/-- A call that answers a code. -/
def Codes (r : FileStore × FsCode) (a : FsAnswer) (u : FileStore) : Prop :=
  u = r.1 ∧ a = .ofCode r.2

/-- What a call of the interface may answer, and the store it leaves. -/
def Does : FsCall → FsAnswer → FileStore → Prop
  | .create filename heap, a, u =>
    Codes (t.make filename (.file (.new fsPermDefault)) heap.isSome) a u
  | .createWithPerms filename permissions heap, a, u =>
    Codes (t.make filename (.file (.new permissions)) heap.isSome) a u
  | .mkdir dirname, a, u => Codes (t.make dirname .directory true) a u
  | .delete filename, a, u => Codes (t.delete filename) a u
  | .chdir dirname, a, u => Codes (t.chdir dirname) a u
  | .openFile filename, a, u => Codes (t.change filename openNode) a u
  | .close filename, a, u => Codes (t.change filename closeNode) a u
  | .seek filename offset, a, u => Codes (t.change filename (seekNode offset)) a u
  | .read filename buffer size, a, u =>
    u = (t.read filename buffer size).1 ∧
      a = ⟨.count (BitVec.ofNat 32 (t.read filename buffer size).2.length),
        (t.read filename buffer size).2⟩
  | .write filename buffer size heap, a, u =>
    ∃ k, t.Writes filename buffer size heap.isSome k u ∧ a = ⟨.count k, []⟩
  -- the helper that takes a `File *` is no call of the interface
  | .resizeFile .., _, _ => False

end FileStore

end Unics
