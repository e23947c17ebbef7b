import Unics.Laws.Fs.StoreCalls
import Unics.Lib.Simulation

/-!
# The file system is a file store

The transfers of a store are those of the driver, and with the calls of `StoreCalls` every call of
the domain is a step of the store between the readings of the two tables. `fs_refines` says so of
whole runs from `fs_init`: the answers are answers that a file store may give.
-/

namespace Unics

open Unics.Lib

section Transfers

variable {s : Fs} {filename : Option CString}

/-! ## Reading -/

/-- What a read moves, where the position lies in the file. -/
theorem readCount_toNat {f : File} (h : f.position ≤ f.size) (size : SizeT) :
    (readCount f size).toNat = min size.toNat (f.size.toNat - f.position.toNat) := by
  unfold readCount
  dsimp only
  split <;> split <;> bv_omega

/-- A file whose position moves. -/
theorem FsSound.moved_store (h : FsSound s) {i : Slot} {name : CString}
    (hlies : s.Lies (s.store.here ++ [name]) i) (hf : s.live i = some (s.files i))
    (hdir : (s.files i).isDir = false) (p : SizeT) :
    (s.setFile i { s.files i with position := p }).store = s.store.put name
      (some (.file
        ⟨(s.files i).content, p.toNat, (s.files i).isOpen, (s.files i).permissions⟩)) := by
  have view : ({ s.files i with position := p } : File).view =
      .file ⟨(s.files i).content, p.toNat, (s.files i).isOpen, (s.files i).permissions⟩ :=
    File.view_file hdir
  rw [← view]
  exact h.setFile_store hlies hf ⟨rfl, rfl, rfl, rfl, rfl⟩

/-- The bytes from the position on, as many as a read moves. -/
theorem FsSound.stored_eq (h : FsSound s) {i : Slot} (hf : s.live i = some (s.files i))
    (hdir : (s.files i).isDir = false) (size : SizeT) :
    copyOut ((s.files i).data.getD []) (s.files i).position (readCount (s.files i) size) =
      ((s.files i).content.drop (s.files i).position.toNat).take size.toNat := by
  rw [copyOut, File.content, List.drop_take, List.take_take,
    readCount_toNat (h.positions i _ hf hdir)]

theorem FsSound.length_stored (h : FsSound s) {i : Slot} (hf : s.live i = some (s.files i))
    (hdir : (s.files i).isDir = false) (size : SizeT) :
    (((s.files i).content.drop (s.files i).position.toNat).take size.toNat).length =
      (readCount (s.files i) size).toNat := by
  rw [List.length_take, List.length_drop, h.length_content hf hdir,
    readCount_toNat (h.positions i _ hf hdir)]

/-- The store's check of an open file. -/
theorem FsSound.opened_eq (h : FsSound s) {i : Slot} {name : CString}
    (hfound : fsFindFile s (some name) = some i) (perm : UInt8) :
    s.store.opened (some name) perm =
      if (s.files i).isOpen && fsHasPerm (s.files i) perm then
        some (name, ⟨(s.files i).content, (s.files i).position.toNat, (s.files i).isOpen,
          (s.files i).permissions⟩)
      else none := by
  obtain ⟨_, -, -, hf, -, hview⟩ := h.find_some hfound
  unfold FileStore.opened
  rw [hview]
  cases hdir : (s.files i).isDir with
  | true =>
    rw [File.view_dir hdir, (h.held i _ hf).closed hdir]
    rfl
  | false =>
    rw [File.view_file hdir]
    rfl

theorem FsSound.opened_none (h : FsSound s) (hfound : fsFindFile s filename = none)
    (perm : UInt8) : s.store.opened filename perm = none := by
  unfold FileStore.opened
  rw [h.find_none hfound]
  cases filename <;> rfl

/-- A file that is not open gives nothing. -/
theorem fsRead_closed {i : Slot} (hfound : fsFindFile s filename = some i)
    (hopen : (s.files i).isOpen = false) (buffer : UIntPtr) (size : SizeT) :
    fsRead s filename buffer size = noTransfer s := by
  rcases fsRead_spec s filename buffer size with hnone | ⟨j, hj, hjopen, -⟩
  · exact hnone
  · obtain rfl := Option.some.inj (hfound.symm.trans hj)
    exact absurd (hjopen.symm.trans hopen) Bool.noConfusion

theorem FsSound.read (h : FsSound s) (filename : Option CString) (buffer : UIntPtr)
    (size : SizeT) :
    s.store.read filename buffer size =
      ((fsRead s filename buffer size).after.store, (fsRead s filename buffer size).stored) := by
  unfold FileStore.read
  by_cases hargs : buffer = null ∨ size = 0
  · rw [if_pos hargs, fsRead, if_pos hargs]
    rfl
  · rw [if_neg hargs]
    cases hfound : fsFindFile s filename with
    | none =>
      rw [h.opened_none hfound, fsRead, if_neg hargs, hfound]
      rfl
    | some i =>
      obtain ⟨name, rfl, hlies, hf, -, hview⟩ := h.find_some hfound
      rw [h.opened_eq hfound]
      cases hopen : (s.files i).isOpen with
      | false =>
        rw [fsRead_closed hfound hopen]
        rfl
      | true =>
        cases hperm : fsHasPerm (s.files i) fsPermRead with
        | false =>
          rw [fsRead_refused hfound hperm]
          rfl
        | true =>
          have hdir := h.notDir_of_open hf hopen
          have bytes := h.stored_eq hf hdir size
          have length := h.length_stored hf hdir size
          rw [fsRead_open hfound hopen hdir hperm (not_or.mp hargs).1 (not_or.mp hargs).2]
          rw [if_pos (by exact rfl)]
          dsimp only
          rw [length]
          by_cases hcount : readCount (s.files i) size > 0
          · rw [if_pos hcount]
            dsimp only
            have inside := readCount_le hcount
            have fits := (s.files i).size.isLt
            have position : ((s.files i).position + readCount (s.files i) size).toNat =
                (s.files i).position.toNat + (readCount (s.files i) size).toNat := by
              bv_omega
            rw [h.moved_store hlies hf hdir, bytes, position, hopen]
          · rw [if_neg hcount]
            have zero : readCount (s.files i) size = 0 := by
              bv_omega
            have none : ((s.files i).content.drop (s.files i).position.toNat).take size.toNat =
                [] := by
              rw [← List.length_eq_zero_iff, length, zero]
              rfl
            rw [none, zero]
            refine Prod.ext (FileStore.put_self ?_) rfl
            rw [hview, File.view_file hdir, hopen]
            rfl

/-- The count of a read is the number of bytes that it stores. -/
theorem FsSound.read_count (h : FsSound s) (filename : Option CString) (buffer : UIntPtr)
    (size : SizeT) :
    (fsRead s filename buffer size).count =
      BitVec.ofNat 32 (fsRead s filename buffer size).stored.length := by
  rcases fsRead_spec s filename buffer size with hnone | ⟨i, hfound, -, hdir, -, hread⟩
  · rw [hnone]
    rfl
  · have hf := Fs.live_of_used (fsFindFile_live hfound)
    rw [hread]
    dsimp only
    rw [h.stored_eq hf hdir, h.length_stored hf hdir, BitVec.ofNat_toNat, BitVec.setWidth_eq]

/-! ## Writing -/

theorem overlay_nil (old : List UInt8) (p : Nat) : overlay old p [] = old := by
  rw [overlay, List.append_nil, List.length_nil, Nat.add_zero, List.take_append_drop]

/-- Bytes laid over an old content from inside it are determined one by one. -/
theorem Overlaid.eq_overlay {old new : List UInt8} {p k : Nat} {buffer : Buffer}
    (h : Overlaid old p k buffer new) (hp : p ≤ old.length) :
    new = overlay old p ((List.range k).map buffer) := by
  have front : (old.take p).length = p := by
    rw [List.length_take, Nat.min_eq_left hp]
  have laid : ((List.range k).map buffer).length = k := by
    rw [List.length_map, List.length_range]
  refine List.ext_getElem? fun j => ?_
  rw [overlay, laid, List.append_assoc]
  by_cases hfront : j < p
  · rw [List.getElem?_append_left (by omega), List.getElem?_take, if_pos hfront]
    exact h.kept j (by omega) (.inl hfront)
  · rw [List.getElem?_append_right (by omega), front]
    by_cases hlaid : j < p + k
    · have here := h.laid (j - p) (by omega)
      rw [List.getElem?_append_left (by omega), List.getElem?_map,
        List.getElem?_range (by omega)]
      rwa [Nat.add_sub_cancel' (Nat.not_lt.mp hfront)] at here
    · rw [List.getElem?_append_right (by omega), laid, List.getElem?_drop]
      have at_j : p + k + (j - p - k) = j := by omega
      rw [at_j]
      by_cases hold : j < old.length
      · exact h.kept j hold (.inr (Nat.not_lt.mp hlaid))
      · rw [List.getElem?_eq_none (by rw [h.length]; omega), List.getElem?_eq_none (by omega)]

/-- What the users see of a file that a write lays bytes into. -/
theorem WriteLays.view {i : Slot} {n : SizeT} {heap : Heap} {buffer : Buffer} {r : FsTransfer}
    {g : File} {k : SizeT} {now : BitVec 64} (h : WriteLays s i n heap buffer r g k now)
    (hs : FsSound s) (hf : s.live i = some (s.files i)) (hdir : (s.files i).isDir = false)
    (hmax : (s.files i).position.toNat + n.toNat ≤ maxFileSize.toNat) :
    (r.after.files i).view = .file (FileView.overwrite
      ⟨(s.files i).content, (s.files i).position.toNat, (s.files i).isOpen,
        (s.files i).permissions⟩
      ((List.range k.toNat).map buffer)) := by
  have still : (r.after.files i).isDir = false := by
    rw [h.fields]
    exact hdir
  have inside : (s.files i).position.toNat ≤ (s.files i).content.length := by
    rw [hs.length_content hf hdir]
    exact BitVec.le_def.mp (hs.positions i _ hf hdir)
  have content := (h.overlaid (hs.held i _ hf) hmax).eq_overlay inside
  rw [← h.file] at content
  have isOpen : (r.after.files i).isOpen = (s.files i).isOpen := by
    rw [h.fields]
  have permissions : (r.after.files i).permissions = (s.files i).permissions := by
    rw [h.fields]
  rw [File.view_file still, content, h.position hmax, isOpen, permissions, FileView.overwrite,
    List.length_map, List.length_range]

/-- The store after a write that lays bytes. -/
theorem WriteLays.store {i : Slot} {n : SizeT} {heap : Heap} {buffer : Buffer} {r : FsTransfer}
    {g : File} {k : SizeT} {now : BitVec 64} (h : WriteLays s i n heap buffer r g k now)
    (hs : FsSound s) (hf : s.live i = some (s.files i)) {name : CString}
    (hlies : s.Lies (s.store.here ++ [name]) i) (htree : FsTree r.after) :
    r.after.store = s.store.put name (some (r.after.files i).view) := by
  obtain ⟨t, files, free, rest, after⟩ := h.after
  have live : r.after.live = Function.update s.live i (some (r.after.files i)) := by
    rw [h.file, after]
    refine Fs.live_store ?_ free (Fs.live_eq_some.mp hf).1
    rw [Fs.setFile, files]
  have same : SameNode (s.files i) (r.after.files i) := by
    rw [h.fields]
    exact ⟨rfl, rfl, rfl, rfl, rfl⟩
  exact hs.store_replace htree hlies hf same.parent same.name live h.globals.2

/-- A write with no target is refused by the store. -/
theorem FsSound.write_refused (h : FsSound s) {size : SizeT}
    (hno : ∀ i, ¬ WriteTarget s filename size i) :
    size = 0 ∨ s.store.opened filename fsPermWrite = none := by
  by_cases hsize : size = 0
  · exact .inl hsize
  · refine .inr ?_
    cases hfound : fsFindFile s filename with
    | none => exact h.opened_none hfound _
    | some i =>
      obtain ⟨name, rfl, -, hf, -⟩ := h.find_some hfound
      rw [h.opened_eq hfound]
      refine if_neg fun hboth => hno i ?_
      obtain ⟨hopen, hperm⟩ := Bool.and_eq_true_iff.mp hboth
      exact ⟨hsize, hfound, hopen, h.notDir_of_open hf hopen, hperm⟩

theorem FsSound.write (h : FsSound s) (filename : Option CString) (buffer : Option Buffer)
    (size : SizeT) (heap : Heap) (hinside : WriteInside s (.write filename buffer size heap)) :
    s.store.Writes filename buffer size heap.isSome (fsWrite s filename buffer size heap).count
      (fsWrite s filename buffer size heap).after.store := by
  cases buffer with
  | none => exact .refused (.inl rfl)
  | some source =>
    by_cases htarget : ∃ i, WriteTarget s filename size i
    · obtain ⟨i, target⟩ := htarget
      have hmax := hinside i target
      obtain ⟨name, rfl, hlies, hf, -, hview⟩ := h.find_some target.found
      have opened : s.store.opened (some name) fsPermWrite = some (name,
          ⟨(s.files i).content, (s.files i).position.toNat, (s.files i).isOpen,
            (s.files i).permissions⟩) := by
        rw [h.opened_eq target.found, target.isOpen, target.perm]
        rfl
      rcases (fsWrite_spec target source heap).lays (h.held i _ hf) target.notDir target.size hmax
        with ⟨g, k, now, lays⟩ | ⟨hidle, hheap, -⟩
      · have tree : FsTree (fsWrite s (some name) (some source) size heap).after :=
          h.named.tree.step (.write (some name) (some source) size heap)
        rw [lays.store h hf hlies tree, lays.view h hf target.notDir hmax, lays.count]
        refine .moved rfl target.size opened lays.le (lays.full.imp_right fun hshort => ?_)
        rw [hshort.1]
        rfl
      · -- the heap has nothing and the block is full: a write of no bytes
        have same : s.store.put name (some (.file (FileView.overwrite
            ⟨(s.files i).content, (s.files i).position.toNat, (s.files i).isOpen,
              (s.files i).permissions⟩ []))) = s.store := by
          refine FileStore.put_self ?_
          rw [hview, File.view_file target.notDir, FileView.overwrite, overlay_nil]
          rfl
        have moved : s.store.Writes (some name) (some source) size heap.isSome 0 (s.store.put name
            (some (.file (FileView.overwrite ⟨(s.files i).content, (s.files i).position.toNat,
              (s.files i).isOpen, (s.files i).permissions⟩ [])))) :=
          .moved rfl target.size opened (BitVec.le_def.mpr (Nat.zero_le _))
            (.inr (by rw [hheap]; rfl))
        rw [same] at moved
        rw [hidle]
        exact moved
    · rw [fsWrite_no_target (not_exists.mp htarget)]
      exact .refused (.inr (h.write_refused (not_exists.mp htarget)))

end Transfers

/-! ## Every call and every run -/

/-- A call of the domain is a step of the store. -/
theorem FsSound.does {s : Fs} (h : FsSound s) {c : FsCall} (hc : StoreCall s c) :
    s.store.Does c (fsAnswer s c) (fsStep s c).store := by
  have codes {r : FileStore × FsCode} {t : Fs × FsCode} (hr : r = (t.1.store, t.2)) :
      FileStore.Codes r (.ofCode t.2) t.1.store := by
    rw [hr]
    exact ⟨rfl, rfl⟩
  have sound := h.step hc
  cases c with
  | create filename heap =>
    exact codes ((fsCreateWithPerms_makes s filename fsPermDefault heap).refines h sound.named)
  | createWithPerms filename permissions heap =>
    exact codes ((fsCreateWithPerms_makes s filename permissions heap).refines h sound.named)
  | mkdir dirname => exact codes ((fsMkdir_makes s dirname).refines h sound.named)
  | delete filename => exact codes (h.delete filename)
  | chdir dirname => exact codes (h.chdir dirname)
  | openFile filename => exact codes (h.openFile filename)
  | close filename => exact codes (h.close filename)
  | seek filename offset => exact codes (h.seek filename offset)
  | read filename buffer size =>
    have read := h.read filename buffer size
    refine ⟨(congrArg Prod.fst read).symm, ?_⟩
    rw [read]
    show FsAnswer.mk (.count (fsRead s filename buffer size).count) _ = _
    rw [h.read_count]
  | write filename buffer size heap =>
    exact ⟨_, h.write filename buffer size heap hc.inside, rfl⟩
  | resizeFile => exact absurd hc.interface id

/-- After `fs_init` the store is empty. -/
theorem fsInit_store (s : Fs) : (fsInit s).store = .empty := by
  have sound := fsSound_init s
  have root : (fsInit s).live 0 = some ((fsInit s).files 0) := Fs.live_of_used rfl
  have node : (fsInit s).store.node = FileStore.empty.node := by
    refine pathMap_ext sound.siblings fun path x => ?_
    by_cases hpath : path = []
    · subst hpath
      constructor
      · intro hx
        exact ⟨0, _, .root, root, Option.some.inj hx⟩
      · rintro ⟨i, f, hi, hf, rfl⟩
        obtain ⟨-, rfl⟩ := fsInit_only hf
        rfl
    · show Function.update (fun _ => none) [] (some FsNode.directory) path = some x ↔ _
      rw [Function.update_of_ne hpath]
      refine iff_of_false (Option.some_ne_none x).symm ?_
      rintro ⟨i, f, hi, hf, -⟩
      obtain ⟨rfl, -⟩ := fsInit_only hf
      exact hpath (hi.path_unique sound.tree .root)
  have here : (fsInit s).store.here = [] := sound.named.tree.here_eq rfl .root
  show FileStore.mk (fsInit s).store.node (fsInit s).store.here _ = _
  rw [node, here]
  rfl

/-- Every run of the driver within the domain is a run of a file store that starts with an empty
root, with the same answers, and ends in the store that the driver's table stands for. -/
theorem fs_refines (s₀ : Fs) (calls : List FsCall)
    (hcalls : EveryStep fsStep StoreCall (fsInit s₀) calls) :
    Serves FileStore.Does .empty (transcript fsStep fsAnswer (fsInit s₀) calls)
      (runFrom fsStep (fsInit s₀) calls).store := by
  rw [← fsInit_store s₀]
  exact hcalls.serves (fun _ _ h hc => h.step hc) (fun _ _ h hc => h.does hc) (fsSound_init s₀)

/-- The file "a" is made, filled, read back and deleted. -/
def usedA : List FsCall :=
  openedA ++ [.write (some (.char 97 CString.a_ne_zero)) (some fun _ => 7) 3 none,
    .seek (some (.char 97 CString.a_ne_zero)) 1,
    .read (some (.char 97 CString.a_ne_zero)) 0x200000 9,
    .close (some (.char 97 CString.a_ne_zero)), .delete (some (.char 97 CString.a_ne_zero))]

/-- A call that is no delete and no write is in the domain wherever it is made. -/
theorem storeCall_of_plain {s : Fs} {c : FsCall} (hc : c.NoWrite) (hremoves : c.removes = none) :
    StoreCall s c := by
  refine ⟨?_, fun name i h => absurd (hremoves.symm.trans h) (Option.some_ne_none name).symm, ?_⟩
  · cases c <;> first | exact trivial | exact hc
  · cases c <;> first | exact trivial | exact absurd hc id

/-- A delete in a table with one slot used below the root takes that one. -/
theorem deletesLast_of_le {s : Fs} {filename : Option CString} (k : Slot)
    (hmax : ∀ j, s.freeList j = false → j ≤ k)
    (hmin : ∀ j, s.freeList j = false → (s.files j).parent ≠ none → k ≤ j) :
    DeletesLast s (.delete filename) := by
  intro name i _ hi j g hg
  obtain ⟨dir, -, entry⟩ := hi.entry
  obtain ⟨hused, hpar, -⟩ := Fs.entry_iff.mp entry
  obtain ⟨hj, -⟩ := Fs.live_eq_some.mp hg
  exact (hmax j hj).trans (hmin i hused (by rw [hpar]; exact Option.some_ne_none dir))

theorem usedA_storeCalls : EveryStep fsStep StoreCall (fsInit fsStart) usedA := by
  refine ⟨storeCall_of_plain trivial rfl, storeCall_of_plain trivial rfl,
    ⟨trivial, ?_, ?_⟩, storeCall_of_plain trivial rfl, storeCall_of_plain trivial rfl,
    storeCall_of_plain trivial rfl, ⟨trivial, ?_, trivial⟩, trivial⟩
  · exact fun name i h => absurd h.symm (Option.some_ne_none name)
  · intro i hi
    have found : fsFindFile (fsStep (fsStep (fsInit fsStart) openedA[0]) openedA[1])
        (some (.char 97)) = some 1 := by decide +kernel
    obtain rfl := Option.some.inj (found.symm.trans hi.found)
    decide +kernel
  · exact deletesLast_of_le 1 (by decide +kernel) (by decide +kernel)

theorem fs_refines_usedA :
    Serves FileStore.Does .empty (transcript fsStep fsAnswer (fsInit fsStart) usedA)
      (runFrom fsStep (fsInit fsStart) usedA).store :=
  fs_refines fsStart usedA usedA_storeCalls

/-! ## Listings -/

/-- A line of `fs_list` shows what lies under its name. -/
def FsListRow.Shows (row : FsListRow) : FsNode → Prop
  | .directory => row.isDir = true
  | .file f => row.isDir = false ∧ row.size.toNat = f.content.length ∧
      row.permissions = permText f.permissions

theorem FsSound.list_nodup {s : Fs} (h : FsSound s) :
    ((fsList s).rows.map FsListRow.name).Nodup := by
  have names : (fsList s).rows.map FsListRow.name = (fsListed s).map fun i => (s.files i).name := by
    rw [fsList, List.map_map]
    rfl
  rw [names]
  refine List.Nodup.map_on (fun i hi j hj hname => ?_) ((List.nodup_finRange _).filter _)
  obtain ⟨f, hf, hpar⟩ := mem_fsListed.mp hi
  obtain ⟨g, hg, hgpar⟩ := mem_fsListed.mp hj
  obtain ⟨-, rfl⟩ := Fs.live_eq_some.mp hf
  obtain ⟨-, rfl⟩ := Fs.live_eq_some.mp hg
  exact h.siblings i j _ _ hf hg (hpar.trans hgpar.symm) hname

theorem FsSound.list_shows {s : Fs} (h : FsSound s) (name : CString) (x : FsNode) :
    s.store.find (some name) = some x → ∃ row ∈ (fsList s).rows, row.name = name ∧ row.Shows x := by
  intro hx
  obtain ⟨d, hd, hhere⟩ := h.here
  obtain ⟨i, f, hf, hpar, rfl, rfl⟩ := (hhere.pathMap_child_iff h.siblings).mp hx
  obtain ⟨-, rfl⟩ := Fs.live_eq_some.mp hf
  refine ⟨_, List.mem_map_of_mem (mem_fsListed.mpr ⟨_, hf, hpar.trans hd.symm⟩), rfl, ?_⟩
  cases hdir : (s.files i).isDir with
  | true =>
    rw [File.view_dir hdir]
    exact hdir
  | false =>
    rw [File.view_file hdir]
    exact ⟨hdir, (h.length_content hf hdir).symm, rfl⟩

theorem FsSound.list_only {s : Fs} (h : FsSound s) {row : FsListRow}
    (hrow : row ∈ (fsList s).rows) : s.store.find (some row.name) ≠ none := by
  obtain ⟨d, hd, hhere⟩ := h.here
  obtain ⟨i, hi, rfl⟩ := List.mem_map.mp hrow
  obtain ⟨f, hf, hpar⟩ := mem_fsListed.mp hi
  obtain ⟨-, rfl⟩ := Fs.live_eq_some.mp hf
  refine Option.ne_none_iff_exists'.mpr ⟨(s.files i).view, ?_⟩
  exact (hhere.pathMap_child_iff h.siblings).mpr ⟨i, _, hf, hpar.trans hd, rfl, rfl⟩

/-- What `fs_list` shows of a store. -/
structure ListsStore (t : FileStore) (listing : FsListing) : Prop where
  once : (listing.rows.map FsListRow.name).Nodup
  shows_all : ∀ name x, t.find (some name) = some x →
    ∃ row ∈ listing.rows, row.name = name ∧ row.Shows x
  only : ∀ row ∈ listing.rows, t.find (some row.name) ≠ none

/-- In every run within the domain, `fs_list` shows each entry of the current directory on one line,
with its kind, size and permissions, and nothing else. -/
theorem fsList_lists (s₀ : Fs) (calls : List FsCall)
    (hcalls : EveryStep fsStep StoreCall (fsInit s₀) calls) :
    EveryState fsStep (fun s => ListsStore s.store (fsList s)) (fsInit s₀) calls :=
  hcalls.everyState (fun _ _ h hc => h.step hc)
    (fun _ h => ⟨h.list_nodup, h.list_shows, fun _ => h.list_only⟩) (fsSound_init s₀)

theorem fsList_lists_usedA :
    EveryState fsStep (fun s => ListsStore s.store (fsList s)) (fsInit fsStart) usedA :=
  fsList_lists fsStart usedA usedA_storeCalls

end Unics
