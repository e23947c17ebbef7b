import Unics.Bin.Show
import Unics.Laws.Bin.Cwd
import Unics.Laws.Fs.Refines
import Unics.Laws.Vga.Typing

/-!
# cat and pwd

`cat` on the file store: it prints a file in full, whatever its size, and leaves it closed
(`cat_shows`). `pwd` prints the path of the current directory, where `fs_getcwd` and `update_cwd`
do not, and no tree is too deep for it (`pwd_shows`).
-/

namespace Unics

open Unics.Lib

/-! ## cat -/

section Put

variable {t : FileStore} {name : CString} {x y : FsNode}

theorem FileStore.find_put : (t.put name (some x)).find (some name) = some x :=
  Function.update_self ..

theorem FileStore.put_put : (t.put name (some x)).put name (some y) = t.put name (some y) := by
  unfold FileStore.put
  rw [Function.update_idem]

/-- A change of what lies under a name. -/
theorem FileStore.change_some {f : FsNode → Except FsCode FsNode}
    (h : t.find (some name) = some x) (hf : f x = .ok y) :
    t.change (some name) f = (t.put name (some y), .success) := by
  unfold FileStore.change
  rw [h]
  dsimp only
  rw [hf]

theorem FileStore.change_error {f : FsNode → Except FsCode FsNode} {code : FsCode}
    (h : t.find (some name) = some x) (hf : f x = .error code) :
    t.change (some name) f = (t, code) := by
  unfold FileStore.change
  rw [h]
  dsimp only
  rw [hf]

end Put

/-- What may be read of a file. -/
def FileView.readable (f : FileView) : List UInt8 :=
  if f.permissions &&& fsPermRead == fsPermRead then f.content else []

/-- What `cat` shows of a store, and the store it leaves, or the code it reports. -/
def FileStore.cat (t : FileStore) (name : CString) : Except FsCode (FileStore × List UInt8) :=
  match t.find (some name) with
  | none => .error .errNotFound
  | some .directory => .error .errInvalidPath
  | some (.file f) =>
    if f.isOpen then .error .errFileOpen
    else .ok (t.put name (some (.file { f with position := f.readable.length })), f.readable)

section Loop

variable {s : Fs} {t : FileStore} {name : CString} {f : FileView} {buffer : UIntPtr}

/-- A turn reads what the store gives. -/
theorem FsSound.read_step (h : FsSound s) (filename : Option CString) (buffer : UIntPtr)
    (size : SizeT) : FsSound (fsRead s filename buffer size).after :=
  h.step (c := .read filename buffer size) (storeCall_of_plain trivial rfl)

/-- A read of an open file that gives the permission. -/
theorem FileStore.read_put (hopen : f.isOpen = true)
    (hperm : (f.permissions &&& fsPermRead == fsPermRead) = true) (hbuffer : buffer ≠ null) :
    (t.put name (some (.file f))).read (some name) buffer catBufferSize =
      (t.put name (some (.file { f with
        position := f.position + ((f.content.drop f.position).take 1024).length })),
        (f.content.drop f.position).take 1024) := by
  have opened : (t.put name (some (.file f))).opened (some name) fsPermRead = some (name, f) := by
    unfold FileStore.opened
    rw [FileStore.find_put]
    dsimp only
    rw [hopen, hperm]
    rfl
  unfold FileStore.read
  rw [if_neg (not_or.mpr ⟨hbuffer, by decide⟩), opened]
  dsimp only
  rw [FileStore.put_put]
  rfl

/-- From any position on, the loop prints the rest of the file. -/
theorem catLoop_shows (h : FsSound s) (hstore : s.store = t.put name (some (.file f)))
    (hopen : f.isOpen = true) (hperm : (f.permissions &&& fsPermRead == fsPermRead) = true)
    (hbuffer : buffer ≠ null) (hpos : f.position ≤ f.content.length) {fuel : Nat}
    (hfuel : f.content.length < fuel + f.position) (printed : List UInt8) :
    ∃ s', catLoop name buffer fuel s printed =
        some (s', printed ++ f.content.drop f.position, 0) ∧ FsSound s' ∧
      s'.store = t.put name (some (.file { f with position := f.content.length })) := by
  induction fuel generalizing s f printed with
  | zero => omega
  | succ fuel ih =>
    have read := h.read (some name) buffer catBufferSize
    have count := h.read_count (some name) buffer catBufferSize
    have sound := h.read_step (some name) buffer catBufferSize
    rw [hstore, FileStore.read_put hopen hperm hbuffer] at read
    obtain ⟨hafter, hstored⟩ := Prod.mk.inj read
    rw [← hstored] at count
    have few : ((f.content.drop f.position).take 1024).length ≤ 1024 := List.length_take_le ..
    have value : (BitVec.ofNat 32 ((f.content.drop f.position).take 1024).length).toInt =
        ((f.content.drop f.position).take 1024).length := by
      have same : (BitVec.ofNat 32 ((f.content.drop f.position).take 1024).length).toNat =
          ((f.content.drop f.position).take 1024).length := Nat.mod_eq_of_lt (by omega)
      rw [BitVec.toInt_eq_toNat_of_lt (by omega), same]
    rw [catLoop]
    rw [count, value, ← hstored]
    by_cases hend : f.position = f.content.length
    · have rest : f.content.drop f.position = [] := by rw [hend, List.drop_length]
      rw [rest] at hafter ⊢
      rw [if_neg (by decide), List.append_nil]
      refine ⟨_, rfl, sound, ?_⟩
      rw [← hafter, ← hend]
      rfl
    · have some_left : 0 < ((f.content.drop f.position).take 1024).length := by
        rw [List.length_take, List.length_drop]
        omega
      have inside : f.position + ((f.content.drop f.position).take 1024).length ≤
          f.content.length := by
        rw [List.length_take, List.length_drop]
        omega
      have front := (List.prefix_append_drop
        (List.take_prefix 1024 (f.content.drop f.position))).symm
      rw [List.drop_drop] at front
      rw [if_pos (Int.natCast_pos.mpr some_left)]
      obtain ⟨s', hrun, hs', hstore'⟩ := ih sound hafter.symm hopen hperm inside
        (by dsimp only; omega) (printed ++ (f.content.drop f.position).take 1024)
      refine ⟨s', ?_, hs', hstore'⟩
      rw [hrun, List.append_assoc, front]

/-- A file that gives no permission ends the loop at once. -/
theorem catLoop_refused (h : FsSound s) (hstore : s.store = t.put name (some (.file f)))
    (hperm : ¬ (f.permissions &&& fsPermRead == fsPermRead) = true) {fuel : Nat}
    (hfuel : fuel ≠ 0) (printed : List UInt8) :
    ∃ s', catLoop name buffer fuel s printed = some (s', printed, 0) ∧ FsSound s' ∧
      s'.store = s.store := by
  obtain ⟨fuel, rfl⟩ := Nat.exists_eq_succ_of_ne_zero hfuel
  have closed : s.store.opened (some name) fsPermRead = none := by
    unfold FileStore.opened
    rw [hstore, FileStore.find_put]
    dsimp only
    rw [Bool.eq_false_of_not_eq_true hperm, Bool.and_false, if_neg Bool.false_ne_true]
  have nothing : s.store.read (some name) buffer catBufferSize = (s.store, []) := by
    unfold FileStore.read
    rw [closed]
    exact ite_self _
  have read := h.read (some name) buffer catBufferSize
  have count := h.read_count (some name) buffer catBufferSize
  rw [nothing] at read
  obtain ⟨hafter, hstored⟩ := Prod.mk.inj read
  rw [← hstored] at count
  refine ⟨_, ?_, h.read_step (some name) buffer catBufferSize, hafter.symm⟩
  rw [catLoop, count]
  rfl

end Loop

/-- What `cat` leaves and prints. -/
def CatShows (s : Fs) (filename : CString) (e : Exit) : Prop :=
  match s.store.cat filename with
  | .ok (t, content) => e.after.store = t ∧ e.status = 0 ∧ e.printed = content
  | .error code =>
    e = ⟨s, 1, catMessage "Error opening file " filename (BitVec.ofInt 32 code.toInt)⟩

section Cat

variable {s : Fs} {filename : CString}

/-- A file that cannot be opened is reported, and nothing else happens. -/
theorem catMain_refused {code : FsCode} (hopen : fsOpen s (some filename) = (s, code))
    (hcode : code ≠ .success) (command : CString) (rest : List CString) (buffer : UIntPtr) :
    catMain s (command :: filename :: rest) buffer =
      some ⟨s, 1, catMessage "Error opening file " filename (BitVec.ofInt 32 code.toInt)⟩ := by
  rw [catMain, hopen]
  exact if_pos hcode

/-- An open that fails leaves everything as it was. -/
theorem fsOpen_fails (h : (fsOpen s (some filename)).2 ≠ .success) :
    (fsOpen s (some filename)).1 = s := by
  revert h
  unfold fsOpen
  split
  · exact fun _ => rfl
  · dsimp only
    split_ifs
    · exact fun _ => rfl
    · exact fun _ => rfl
    · exact fun h => absurd rfl h

/-- An open that the store refuses. -/
theorem FsSound.fsOpen_refused (h : FsSound s) {code : FsCode} (hcode : code ≠ .success)
    (hchange : s.store.change (some filename) FileStore.openNode = (s.store, code)) :
    fsOpen s (some filename) = (s, code) := by
  have opens := h.openFile (some filename)
  rw [hchange] at opens
  have failed : (fsOpen s (some filename)).2 = code := (congrArg Prod.snd opens).symm
  exact Prod.ext (fsOpen_fails (failed.trans_ne hcode)) failed

/-- The size of a file is a machine word. -/
theorem FsSound.length_lt (h : FsSound s) {f : FileView}
    (hfind : s.store.find (some filename) = some (.file f)) : f.content.length < 2 ^ 32 := by
  cases hslot : fsFindFile s (some filename) with
  | none =>
    rw [h.find_none hslot] at hfind
    cases hfind
  | some i =>
    obtain ⟨name, -, -, hf, -, hview⟩ := h.find_some hslot
    rw [hfind] at hview
    cases hdir : (s.files i).isDir with
    | true =>
      rw [File.view_dir hdir] at hview
      cases hview
    | false =>
      rw [File.view_file hdir] at hview
      cases hview
      rw [h.length_content hf hdir]
      exact (s.files i).size.isLt

/-- A file that is closed can be opened, and is then at its start. -/
theorem FsSound.open_closed (h : FsSound s) {f : FileView}
    (hfind : s.store.find (some filename) = some (.file f)) (hclosed : f.isOpen = false) :
    FsSound (fsOpen s (some filename)).1 ∧ (fsOpen s (some filename)).2 = .success ∧
      (fsOpen s (some filename)).1.store =
        s.store.put filename (some (.file { f with isOpen := true, position := 0 })) := by
  have opens := h.openFile (some filename)
  have started : FileStore.openNode (.file f) =
      .ok (.file { f with isOpen := true, position := 0 }) :=
    if_neg (by rw [hclosed]; exact Bool.false_ne_true)
  rw [FileStore.change_some hfind started] at opens
  obtain ⟨hstore, hcode⟩ := Prod.mk.inj opens
  exact ⟨h.step (c := .openFile (some filename)) (storeCall_of_plain trivial rfl), hcode.symm,
    hstore.symm⟩

/-- A file that is closed is printed as far as it may be read, and closed again. -/
theorem FsSound.cat_file (h : FsSound s) {f : FileView}
    (hfind : s.store.find (some filename) = some (.file f)) (hclosed : f.isOpen = false)
    (command : CString) (rest : List CString) {buffer : UIntPtr} (hbuffer : buffer ≠ null) :
    ∃ e, catMain s (command :: filename :: rest) buffer = some e ∧ FsSound e.after ∧
      e.after.store =
        s.store.put filename (some (.file { f with position := f.readable.length })) ∧
      e.status = 0 ∧ e.printed = f.readable := by
  obtain ⟨sound, hcode, hstore⟩ := h.open_closed hfind hclosed
  -- the loop, with or without the permission
  obtain ⟨s', hloop, hs', hread⟩ : ∃ s', catLoop filename buffer (2 ^ 32)
      (fsOpen s (some filename)).1 [] = some (s', f.readable, 0) ∧ FsSound s' ∧
      s'.store = s.store.put filename
        (some (.file { f with isOpen := true, position := f.readable.length })) := by
    unfold FileView.readable
    have short := h.length_lt hfind
    by_cases hperm : (f.permissions &&& fsPermRead == fsPermRead) = true
    · rw [if_pos hperm]
      exact catLoop_shows sound hstore rfl hperm hbuffer (Nat.zero_le _)
        (by rw [Nat.add_zero]; exact short) []
    · rw [if_neg hperm]
      obtain ⟨s', hloop, hs', hsame⟩ := catLoop_refused sound hstore hperm
        (Nat.pow_pos Nat.zero_lt_two).ne' []
      exact ⟨s', hloop, hs', hsame.trans hstore⟩
  have closes := hs'.close (some filename)
  have ended :
      FileStore.closeNode (.file { f with isOpen := true, position := f.readable.length }) =
        .ok (.file { f with isOpen := false, position := f.readable.length }) := rfl
  have found : s'.store.find (some filename) =
      some (.file { f with isOpen := true, position := f.readable.length }) := by
    rw [hread, FileStore.find_put]
  rw [FileStore.change_some found ended, hread, FileStore.put_put] at closes
  obtain ⟨hleft, hdone⟩ := Prod.mk.inj closes
  refine ⟨⟨(fsClose s' (some filename)).1, 0, f.readable⟩, ?_,
    hs'.step (c := .close (some filename)) (storeCall_of_plain trivial rfl), ?_, rfl, rfl⟩
  · rw [catMain]
    dsimp only
    rw [hcode, if_neg (not_not.mpr rfl), hloop]
    show (if (fsClose s' (some filename)).2 ≠ .success then _ else _) = _
    rw [← hdone, if_neg (not_not.mpr rfl)]
    rfl
  · rw [← hleft, ← hclosed]

/-- `cat` does to the store what it is for. -/
theorem FsSound.cat (h : FsSound s) (command filename : CString) (rest : List CString)
    {buffer : UIntPtr} (hbuffer : buffer ≠ null) :
    ∃ e, catMain s (command :: filename :: rest) buffer = some e ∧ FsSound e.after ∧
      CatShows s filename e := by
  have refused (code : FsCode) (hcode : code ≠ .success)
      (hchange : s.store.change (some filename) FileStore.openNode = (s.store, code))
      (hcat : s.store.cat filename = .error code) :
      ∃ e, catMain s (command :: filename :: rest) buffer = some e ∧ FsSound e.after ∧
        CatShows s filename e := by
    refine ⟨_, catMain_refused (h.fsOpen_refused hcode hchange) hcode command rest buffer, h, ?_⟩
    rw [CatShows, hcat]
  cases hfind : s.store.find (some filename) with
  | none =>
    refine refused .errNotFound FsCode.noConfusion ?_ ?_
    · unfold FileStore.change
      rw [hfind]
    · rw [FileStore.cat, hfind]
  | some x =>
    cases x with
    | directory =>
      refine refused .errInvalidPath FsCode.noConfusion
        (FileStore.change_error hfind rfl) ?_
      rw [FileStore.cat, hfind]
    | file f =>
      by_cases hopen : f.isOpen = true
      · refine refused .errFileOpen FsCode.noConfusion
          (FileStore.change_error hfind (if_pos hopen)) ?_
        rw [FileStore.cat, hfind]
        exact if_pos hopen
      · obtain ⟨e, hrun, hsound, hstore, hstatus, hprinted⟩ :=
          h.cat_file hfind (Bool.eq_false_of_not_eq_true hopen) command rest hbuffer
        refine ⟨e, hrun, hsound, ?_⟩
        rw [CatShows, FileStore.cat, hfind]
        dsimp only
        rw [if_neg hopen]
        exact ⟨hstore, hstatus, hprinted⟩

end Cat

/-- After every run of the driver within the domain, `cat` of a file that is closed prints the whole
of it, as far as it may be read, whatever its size is; the file is closed again, and nothing else is
changed. For anything else it reports the code of `fs_open`. -/
theorem cat_shows (s₀ : Fs) (calls : List FsCall)
    (hcalls : EveryStep fsStep StoreCall (fsInit s₀) calls) (command filename : CString)
    (rest : List CString) (buffer : UIntPtr) (hbuffer : buffer ≠ null) :
    EveryState fsStep (fun s => ∃ e, catMain s (command :: filename :: rest) buffer = some e ∧
      FsSound e.after ∧ CatShows s filename e) (fsInit s₀) calls :=
  hcalls.everyState (fun _ _ h hc => h.step hc) (fun _ h => h.cat command filename rest hbuffer)
    (fsSound_init s₀)

theorem cat_shows_usedA :
    EveryState fsStep (fun s => ∃ e,
        catMain s (CString.char 97 :: CString.char 97 :: []) 0x200000 = some e ∧
          FsSound e.after ∧ CatShows s (.char 97) e) (fsInit fsStart) usedA :=
  cat_shows fsStart usedA usedA_storeCalls (.char 97) (.char 97) [] 0x200000 (by decide)

/-! ## pwd -/

section Pwd

variable {s : Fs} {path : List CString} {d : Slot}

/-- The loop collects the directories up to the root, which fit the array. -/
theorem pwdClimb_eq {slots : List Slot} (h : Climb File.parent s.live 0 d slots) {room : Nat}
    (hroom : slots.length ≤ room) (stack : List Slot) :
    pwdClimb s.files room (some d) stack = (stack ++ slots, none) := by
  induction h generalizing room stack with
  | root ha hnone =>
    obtain ⟨room, rfl⟩ : ∃ m, room = m + 1 :=
      Nat.exists_eq_succ_of_ne_zero (by rintro rfl; cases hroom)
    obtain ⟨-, rfl⟩ := Fs.live_eq_some.mp ha
    rw [pwdClimb, hnone]
    cases room <;> rfl
  | up ha hpar _ ih =>
    obtain ⟨room, rfl⟩ : ∃ m, room = m + 1 :=
      Nat.exists_eq_succ_of_ne_zero (by rintro rfl; cases hroom)
    obtain ⟨-, rfl⟩ := Fs.live_eq_some.mp ha
    rw [pwdClimb, hpar, ih (Nat.le_of_succ_le_succ hroom), List.append_assoc]
    rfl

/-- The path of a directory is read off the way up. -/
theorem Fs.Reaches.climb_names (h : s.Reaches path d) (htree : s.IsTree) {slots : List Slot}
    (hclimb : Climb File.parent s.live 0 d slots) :
    slots.dropLast.reverse.map (fun i => (s.files i).name) = path := by
  induction h generalizing slots with
  | root =>
    cases hclimb with
    | root => rfl
    | up ha hpar _ => exact absurd rfl (htree.ne_root ha hpar)
  | @into path p i name _ hentry _ ih =>
    obtain ⟨f, hf, hpar, rfl⟩ := hentry
    cases hclimb with
    | root ha hnone =>
      obtain rfl := Option.some.inj (ha.symm.trans hf)
      exact absurd (hnone.symm.trans hpar) (Option.some_ne_none p).symm
    | up ha hpar' hrest =>
      obtain rfl := Option.some.inj (ha.symm.trans hf)
      obtain rfl := Option.some.inj (hpar.symm.trans hpar')
      obtain ⟨-, rfl⟩ := Fs.live_eq_some.mp ha
      obtain ⟨below, rfl⟩ := hrest.eq_concat
      have more : below ++ [0] ≠ [] := List.append_ne_nil_of_right_ne_nil _ (List.cons_ne_nil _ _)
      rw [List.dropLast_cons_of_ne_nil more, List.reverse_cons, List.map_append, ih hrest]
      rfl

/-- A path leads to a live file. -/
theorem Fs.Reaches.live (h : s.Reaches path d) (htree : s.IsTree) : ∃ f, s.live d = some f := by
  cases h with
  | root =>
    obtain ⟨f, hf, -⟩ := htree.top
    exact ⟨f, hf⟩
  | into _ hentry _ =>
    obtain ⟨f, hf, -⟩ := hentry
    exact ⟨f, hf⟩

/-- The names on a path are valid. -/
theorem Fs.Reaches.valid (h : s.Reaches path d) (htree : s.IsTree) (hnames : s.ValidNames) :
    ∀ name ∈ path, fsValidateFilename (some name) = .success := by
  induction h with
  | root => exact fun _ h => absurd h List.not_mem_nil
  | into _ hentry _ ih =>
    obtain ⟨f, hf, hpar, rfl⟩ := hentry
    intro name hname
    rcases List.mem_append.mp hname with hname | hname
    · exact ih name hname
    · exact List.mem_singleton.mp hname ▸ hnames _ f hf (htree.ne_root hf hpar)

/-- A slash before each name or behind it. -/
theorem slash_flatMap (path : List CString) :
    47 :: path.flatMap (fun name => name.bytes ++ [47]) = pathBytes path ++ [47] := by
  induction path with
  | nil => rfl
  | cons name path ih =>
    rw [List.flatMap_cons, List.append_assoc, List.singleton_append, ih]
    exact congrArg (47 :: ·) (List.append_assoc ..).symm

theorem text_slash : text "/" = [47] := by decide +kernel

theorem pwdPart_of_valid {name : CString} (h : fsValidateFilename (some name) = .success) :
    pwdPart name = name.bytes ++ [47] := by
  rw [pwdPart, if_neg, text_slash]
  intro hempty
  rw [fsValidateFilename, if_pos hempty] at h
  cases h

/-- What `pwd` prints for a path: a slash behind the last name is taken back. -/
def pwdText (path : List CString) : List UInt8 :=
  absolutePath path ++ (if path = [] then [] else [47, 8, 32, 8]) ++ [10]

theorem pwdMain_eq (htree : s.IsTree) (hnames : s.ValidNames) (hd : s.currentDir = some d)
    (h : s.Reaches path d) : pwdMain s = (0, pwdText path) := by
  obtain ⟨f, hf⟩ := h.live htree
  obtain ⟨slots, hclimb⟩ := htree.climbs d f hf
  have few : slots.length ≤ pwdMaxDepth := by
    have card := hclimb.nodup.length_le_card
    rwa [Fintype.card_fin] at card
  have names := h.climb_names htree hclimb
  have parts : slots.dropLast.reverse.flatMap (fun i => pwdPart (s.files i).name) =
      path.flatMap fun name => name.bytes ++ [47] := by
    rw [← names, List.flatMap_map]
    refine List.flatMap_congr fun i hi => ?_
    refine pwdPart_of_valid (h.valid htree hnames _ ?_)
    rw [← names]
    exact List.mem_map_of_mem hi
  have deep : 1 < slots.length ↔ path ≠ [] := by
    obtain ⟨below, rfl⟩ := hclimb.eq_concat
    rw [← names, List.dropLast_concat]
    cases below with
    | nil => simp
    | cons i below => simp
  have newline : text "\n" = [10] := by decide +kernel
  rw [pwdMain, hd]
  dsimp only
  rw [pwdClimb_eq hclimb few, List.nil_append]
  dsimp only
  rw [if_neg fun hboth => hboth.1 rfl, parts, text_slash, newline, List.singleton_append,
    slash_flatMap, pwdText, absolutePath]
  by_cases hpath : path = []
  · rw [if_neg fun hlt => deep.mp hlt hpath, if_pos hpath, if_pos hpath, hpath]
    rfl
  · rw [if_pos (deep.mpr hpath), if_neg hpath, if_neg hpath, List.append_assoc (pathBytes path)]
    rfl

/-- The command takes the null directory for the root too. -/
theorem pwdMain_current (htree : s.IsTree) (hnames : s.ValidNames) (h : s.CurrentPath path) :
    pwdMain s = (0, pwdText path) := by
  unfold Fs.CurrentPath at h
  cases hd : s.currentDir with
  | none =>
    rw [hd] at h
    have root : text "/\n" = pwdText [] := by decide +kernel
    rw [pwdMain, hd, h, root]
  | some d =>
    rw [hd] at h
    exact pwdMain_eq htree hnames hd h

theorem printable_absolutePath (h : ∀ name ∈ path, ∀ c ∈ name.bytes, Printable c) :
    ∀ c ∈ absolutePath path, Printable c := by
  have slash : Printable 47 := ⟨by decide, by decide⟩
  unfold absolutePath
  split
  · exact fun c hc => List.mem_singleton.mp hc ▸ slash
  · intro c hc
    obtain ⟨name, hname, hc⟩ := List.mem_flatMap.mp hc
    rcases List.mem_cons.mp hc with rfl | hc
    · exact slash
    · exact h name hname c hc

end Pwd

/-- After every run of the driver and in every directory, `pwd` shows the path, whatever its length
is and however far the screen is scrolled, where the names on it can be printed. -/
theorem pwd_shows (s₀ : Fs) (calls : List FsCall) {dir : Option Slot} {path : List CString}
    (hpath : Fs.CurrentPath { runFrom fsStep (fsInit s₀) calls with currentDir := dir } path)
    (hnames : ∀ name ∈ path, ∀ c ∈ name.bytes, Printable c) {vga : Vga} {color : UInt8}
    {shown : List UInt8} (hscreen : vga.ShowsText color shown) :
    (pwdMain { runFrom fsStep (fsInit s₀) calls with currentDir := dir }).1 = 0 ∧
      Ends ((pwdMain { runFrom fsStep (fsInit s₀) calls with currentDir := dir }).2.foldlM
        vgaPutchar vga) (Vga.ShowsText · color (shown ++ absolutePath path ++ [10])) := by
  have htree : (runFrom fsStep (fsInit s₀) calls).IsTree := (fsRun_tree s₀ calls).tree
  have hvalid := fsRun_validNames s₀ calls
  generalize runFrom fsStep (fsInit s₀) calls = s at hpath htree hvalid ⊢
  rw [pwdMain_current (s := { s with currentDir := dir }) htree hvalid hpath]
  refine ⟨rfl, ?_⟩
  have printed : Ends ((absolutePath path).foldlM vgaPutchar vga) _ :=
    hscreen.puts fun c hc => .inl (printable_absolutePath hnames c hc)
  unfold pwdText
  rw [List.append_assoc]
  refine Ends.append printed fun vga' h => ?_
  refine Ends.append (P := (Vga.ShowsText · color (shown ++ absolutePath path))) ?_ fun vga' h =>
    h.puts fun c hc => .inr (.inl (List.mem_singleton.mp hc))
  split
  · exact ends_some.mpr h
  · exact h.put_erase ⟨by decide, by decide⟩

/-- A directory "a" and a file in it. -/
def inDirA : List FsCall :=
  [.mkdir (some (.char 97 CString.a_ne_zero)), .chdir (.char 97 CString.a_ne_zero),
    .create (some (.char 97 CString.a_ne_zero)) none]

theorem inDirA_path :
    Fs.CurrentPath { runFrom fsStep (fsInit fsStart) inDirA with currentDir := some 1 }
      [.char 97] := by
  show Fs.Reaches _ [.char 97] 1
  have entry : Fs.Entry { runFrom fsStep (fsInit fsStart) inDirA with currentDir := some 1 } 0
      (.char 97) 1 :=
    Fs.entry_iff.mpr ⟨by decide +kernel, by decide +kernel, by decide +kernel⟩
  exact Fs.Reaches.root.into entry (by decide +kernel)

theorem pwd_shows_inDirA :
    (pwdMain { runFrom fsStep (fsInit fsStart) inDirA with currentDir := some 1 }).1 = 0 ∧
      Ends ((pwdMain { runFrom fsStep (fsInit fsStart) inDirA with currentDir := some 1 }).2.foldlM
        vgaPutchar (clearedScreen vgaColorDefault))
        (Vga.ShowsText · vgaColorDefault ([] ++ absolutePath [.char 97] ++ [10])) :=
  pwd_shows fsStart inDirA inDirA_path (by simp [CString.char, Printable])
    (clearedScreen_shows vgaColorDefault)

end Unics
