import Unics.Laws.Bin.EdSessions
import Unics.Laws.Bin.EdWrite
import Unics.Laws.Bin.Show

/-!
# What ed has saved, cat shows

On the file store a save lays a text over the start of the file of that name, which is made if it is
not there. `write_to_file` does that to the store, or reports a failure, and the store is sound in
both cases (`FsSound.save`). So over all runs of sessions `cat` shows the lines of the editor
after a save, and behind them what a longer file has kept of its end (`ed_cat`).
-/

namespace Unics

open Unics.Lib

/-! ## A save on the store -/

/-- The file after a text is saved in it. -/
def FileView.saved (f : FileView) (text : List UInt8) : FileView :=
  { f with content := overlay f.content 0 text, position := text.length, isOpen := false }

/-- The file under a name, or the one that is made for it. -/
def FileStore.target (t : FileStore) (name : CString) : FileView :=
  match t.find (some name) with
  | some (.file f) => f
  | _ => .new fsPermDefault

/-- The store after a text is saved under a name. -/
def FileStore.save (t : FileStore) (name : CString) (text : List UInt8) : FileStore :=
  { t.put name (some (.file ((t.target name).saved text))) with
    room := if (t.find (some name)).isSome then t.room else t.room - 1 }

section Store

variable {t u : FileStore} {name : CString} {f : FileView} {x : FsNode}

theorem FileStore.save_found (h : t.find (some name) = some (.file f)) (text : List UInt8) :
    t.save name text = t.put name (some (.file (f.saved text))) := by
  unfold FileStore.save FileStore.target
  rw [h]
  rfl

theorem FileStore.save_new (h : t.find (some name) = none) (text : List UInt8) :
    t.save name text =
      { t.put name (some (.file ((FileView.new fsPermDefault).saved text))) with
        room := t.room - 1 } := by
  unfold FileStore.save FileStore.target
  rw [h]
  rfl

theorem FileStore.put_room {y : FsNode} (n : ℕ) :
    ({ t.put name (some x) with room := n } : FileStore).put name (some y) =
      { t.put name (some y) with room := n } := by
  have same : (t.put name (some x)).put name (some y) = t.put name (some y) := FileStore.put_put
  exact congrArg (fun u : FileStore => { u with room := n }) same

/-- A new entry is made where there was none, or nothing happens. -/
theorem FileStore.make_cases {memory : Bool} {code : FsCode}
    (h : t.make (some name) x memory = (u, code)) :
    (code = .success ∧ t.find (some name) = none ∧
        u = { t.put name (some x) with room := t.room - 1 }) ∨
      (code ≠ .success ∧ u = t) := by
  unfold FileStore.make at h
  split at h
  · next name' hname hvalid =>
    obtain rfl := Option.some.inj hname
    split at h
    · cases h
      exact .inr ⟨FsCode.noConfusion, rfl⟩
    · next hnone =>
      split at h
      · cases h
        exact .inr ⟨FsCode.noConfusion, rfl⟩
      · split at h
        · cases h
          exact .inl ⟨rfl, Option.not_isSome_iff_eq_none.mp hnone, rfl⟩
        · cases h
          exact .inr ⟨FsCode.noConfusion, rfl⟩
  · next hno =>
    cases h
    exact .inr ⟨fun hvalid => hno name rfl hvalid, rfl⟩

/-- What a close leaves of a file that is written from its start on. -/
theorem FileView.close_overwrite (f : FileView) (text : List UInt8) :
    FileStore.closeNode
        (.file (({ f with isOpen := true, position := 0 } : FileView).overwrite text)) =
      .ok (.file (f.saved text)) := by
  rw [FileView.saved, ← Nat.zero_add text.length]
  rfl

/-- A write of all that it is given. -/
theorem FileStore.Writes.whole {buffer : Buffer} {n : SizeT} {memory : Bool}
    (h : (t.put name (some (.file f))).Writes (some name) (some buffer) n memory n u) :
    u = t.put name (some (.file (f.overwrite (bytesAt buffer 0 n.toNat)))) := by
  cases h with
  | refused =>
    show _ = t.put name (some (.file (f.overwrite [])))
    rw [FileView.overwrite, overlay_nil]
    rfl
  | @moved source name' f' k hbuffer _ hopened _ _ =>
    obtain rfl := Option.some.inj hbuffer
    have same : name = name' ∧ f = f' := by
      unfold FileStore.opened at hopened
      rw [FileStore.find_put] at hopened
      dsimp only at hopened
      split at hopened
      · exact Prod.mk.inj (Option.some.inj hopened)
      · cases hopened
    obtain ⟨rfl, rfl⟩ := same
    rw [FileStore.put_put, bytesAt, ← List.range_eq_range']

end Store

/-! ## A save by the code -/

section Save

variable {s : Fs} {name : CString} {buffer : Buffer} {n : SizeT}

/-- A write to a file that has just been opened ends within the largest block. -/
theorem writeInside_opened {t : Fs} (held : s.Held)
    (hopened : fsOpen s (some name) = (t, .success)) (hn : n.toNat ≤ maxFileSize.toNat)
    (heap : Heap) : WriteInside t (.write (some name) (some buffer) n heap) := by
  obtain ⟨i, hfound, hdir, hclosed⟩ := fsOpen_success (congrArg Prod.snd hopened)
  have start := openAtStart_of_closed held hfound hdir hclosed
  rw [fsOpen_found hfound hdir hclosed] at hopened
  obtain ⟨rfl, -⟩ := Prod.mk.inj hopened
  intro k target
  obtain rfl := Option.some.inj (start.found.symm.trans target.found)
  rw [start.position]
  exact (Nat.zero_add _).symm ▸ hn

/-- An open that succeeds puts a closed file at its start. -/
theorem FsSound.opened_at_start {t : Fs} (h : FsSound s)
    (hopened : fsOpen s (some name) = (t, .success)) :
    FsSound t ∧ ∃ f, s.store.find (some name) = some (.file f) ∧
      t.store = s.store.put name (some (.file { f with isOpen := true, position := 0 })) := by
  obtain ⟨i, hfound, hdir, hclosed⟩ := fsOpen_success (congrArg Prod.snd hopened)
  obtain ⟨-, -, -, -, -, hview⟩ := h.find_some hfound
  rw [File.view_file hdir] at hview
  obtain ⟨sound, -, hstore⟩ := h.open_closed hview hclosed
  rw [hopened] at sound hstore
  exact ⟨sound, _, hview, hstore⟩

/-- A file that could be opened is written and closed, and a short write is a failure. -/
theorem writeCreated_opened {t : Fs} (hopened : fsOpen s (some name) = (t, .success))
    (heap : Heap) :
    writeCreated s (some buffer) n name heap =
      ((fsClose (fsWrite t (some name) (some buffer) n heap).after (some name)).1,
        if (fsWrite t (some name) (some buffer) n heap).count ≠ n then -1 else 0) := by
  rw [writeCreated, hopened]
  dsimp only
  rw [if_neg (by decide)]
  split <;> rfl

/-- Once the file is there, it is written and closed, or a failure is reported. -/
theorem FsSound.save_created (h : FsSound s) (hn : n.toNat ≤ maxFileSize.toNat) (heap : Heap) :
    FsSound (writeCreated s (some buffer) n name heap).1 ∧
      ((writeCreated s (some buffer) n name heap).2 = 0 → ∃ f,
        s.store.find (some name) = some (.file f) ∧
          (writeCreated s (some buffer) n name heap).1.store =
            s.store.put name (some (.file (f.saved (bytesAt buffer 0 n.toNat))))) := by
  by_cases hopen : (fsOpen s (some name)).2 = .success
  · obtain ⟨t, hopened⟩ : ∃ t, fsOpen s (some name) = (t, .success) := ⟨_, Prod.ext rfl hopen⟩
    obtain ⟨sound, f, hfind, hstore⟩ := h.opened_at_start hopened
    have inside : WriteInside t (.write (some name) (some buffer) n heap) :=
      writeInside_opened h.held hopened hn heap
    have writes := sound.write (some name) (some buffer) n heap inside
    have written : FsSound (fsWrite t (some name) (some buffer) n heap).after :=
      sound.step (c := .write (some name) (some buffer) n heap)
        ⟨trivial, fun name i h => absurd h.symm (Option.some_ne_none name), inside⟩
    rw [writeCreated_opened hopened]
    refine ⟨written.step (c := .close (some name)) (storeCall_of_plain trivial rfl),
      fun hzero => ⟨f, hfind, ?_⟩⟩
    have all : (fsWrite t (some name) (some buffer) n heap).count = n := by
      by_contra hcount
      have failed : (-1 : Int) = 0 := (if_pos hcount).symm.trans hzero
      exact absurd failed (by decide)
    rw [all, hstore] at writes
    have left := FileStore.Writes.whole writes
    have closes := written.close (some name)
    have found := (congrArg (FileStore.find · (some name)) left).trans FileStore.find_put
    rw [FileStore.change_some found (f.close_overwrite _), left, FileStore.put_put] at closes
    exact (Prod.mk.inj closes).1.symm
  · have failed : (-1 : Int) ≠ 0 := by decide
    have code : (fsOpen s (some name)).2.toInt ≠ 0 := by
      have negative := (FsCode.toInt_neg_iff _).mpr hopen
      omega
    rw [writeCreated]
    dsimp only
    rw [if_pos code]
    exact ⟨(fsOpen_fails hopen).symm ▸ h, fun hzero => absurd hzero failed⟩

/-- `write_to_file` saves the buffer, or reports a failure. -/
theorem FsSound.save (h : FsSound s) (hn : n.toNat ≤ maxFileSize.toNat)
    (createHeap writeHeap : Heap) :
    FsSound (writeToFile s (some buffer) n (some name) createHeap writeHeap).1 ∧
      ((writeToFile s (some buffer) n (some name) createHeap writeHeap).2 = 0 →
        (writeToFile s (some buffer) n (some name) createHeap writeHeap).1.store =
          s.store.save name (bytesAt buffer 0 n.toNat)) := by
  have failed : (-1 : Int) ≠ 0 := by decide
  have sound := h.step (c := .create (some name) createHeap) (storeCall_of_plain trivial rfl)
  have makes := fsCreateWithPerms_makes s (some name) fsPermDefault createHeap
  have created := FileStore.make_cases (makes.refines h sound.named)
  rw [writeToFile]
  dsimp only
  split
  · exact ⟨h, fun hzero => absurd hzero failed⟩
  · split
    · exact ⟨sound, fun hzero => absurd hzero failed⟩
    · obtain ⟨kept, saves⟩ :
          FsSound (writeCreated _ (some buffer) n name writeHeap).1 ∧ _ :=
        sound.save_created hn writeHeap
      refine ⟨kept, fun hzero => ?_⟩
      obtain ⟨f, hfind, hstore⟩ := saves hzero
      refine hstore.trans ?_
      have same : (fsStep s (.create (some name) createHeap)).store =
        (fsCreateWithPerms s (some name) fsPermDefault createHeap).1.store := rfl
      rw [same] at hfind ⊢
      rcases created with ⟨-, hnone, hmade⟩ | ⟨-, hsame⟩
      · rw [hmade] at hfind ⊢
        have new : (s.store.put name (some (.file (.new fsPermDefault)))).find (some name) = _ :=
          hfind
        rw [FileStore.find_put] at new
        obtain rfl := FsNode.file.inj (Option.some.inj new)
        rw [FileStore.save_new hnone]
        exact FileStore.put_room _
      · rw [hsame] at hfind ⊢
        exact (FileStore.save_found hfind _).symm

end Save

/-! ## Sessions -/

/-- A turn leaves the file system as it is, or saves the buffer. -/
theorem edTurn_fs (s : EdState) (line : CString) (heaps : EdHeaps) :
    (edTurn s line heaps).fs = s.fs ∨ ∃ name, (edTurn s line heaps).fs =
      (writeToFile s.fs s.ed.buffer s.ed.contentLen (some name) heaps.create heaps.write).1 := by
  unfold edTurn
  split
  · split
    · exact .inl rfl
    · split <;> exact .inl rfl
  · split
    · exact .inl rfl
    · split
      · exact .inl rfl
      · split
        · next name _ => exact .inr ⟨name, rfl⟩
        · exact .inl rfl

/-- Only a line that is read can save the buffer. -/
theorem edStep_fs (s : EdState) (c : EdCall) :
    (edStep s c).fs = s.fs ∨ ∃ line name heaps, s.phase = .reading line ∧ (edStep s c).fs =
      (writeToFile s.fs s.ed.buffer s.ed.contentLen (some name) (EdHeaps.create heaps)
        heaps.write).1 := by
  unfold edStep
  split
  · unfold edMain
    split
    · exact .inl rfl
    · split <;> exact .inl rfl
  · next line c heaps hphase =>
    split
    · exact .inl rfl
    · next line' _ =>
      refine (edTurn_fs s (lineText line') heaps).imp_right ?_
      rintro ⟨name, hsaves⟩
      exact ⟨line, name, heaps, hphase, hsaves⟩
    · exact .inl rfl
  · exact .inl rfl

/-- The line that saves. -/
theorem edTurn_saves {s : EdState} {line name : CString} (hmode : s.ed.insertMode = false)
    (hwrite : writeCommand line = some name) (heaps : EdHeaps) :
    (edTurn s line heaps).fs =
      (writeToFile s.fs s.ed.buffer s.ed.contentLen (some name) heaps.create heaps.write).1 := by
  have longer (c : UInt8) (hc : c ≠ 0) : line ≠ .char c hc := by
    rintro rfl
    have short : ¬ (CString.char c hc).bytes.take 3 = [58, 119, 32] :=
      fun h => nomatch (List.cons.inj (show [c] = [58, 119, 32] from h)).2
    rw [writeCommand, if_neg short] at hwrite
    cases hwrite
  unfold edTurn
  rw [hmode, if_neg Bool.false_ne_true, if_neg (longer 113 _), if_neg (longer 119 _), hwrite]

/-- A session starts clean, and the buffer is not longer than a file may be. -/
structure EdFits (r : EdRun) (c : EdCall) : Prop where
  clean : EdStartsClean r c
  short : r.state.ed.contentLen.toNat ≤ maxFileSize.toNat

/-- The editor beside a file system that is sound. -/
structure EdStored (r : EdRun) : Prop where
  inv : r.Inv
  sound : FsSound r.state.fs

section Run

variable {r : EdRun} {line : List UInt8}

theorem EdRun.Inv.holds (h : r.Inv) (hphase : r.state.phase = .reading line) :
    EdHolds r.state.ed r.editor := by
  unfold EdRun.Inv at h
  rw [hphase] at h
  exact h.2.1

theorem EdStored.step (h : EdStored r) {c : EdCall} (hc : EdFits r c) :
    EdStored (edRunStep r c) := by
  refine ⟨h.inv.step hc.clean, ?_⟩
  show FsSound (edStep r.state c).fs
  rcases edStep_fs r.state c with hsame | ⟨line, name, heaps, hphase, hsaves⟩
  · rw [hsame]
    exact h.sound
  · obtain ⟨buffer, hbuffer, -⟩ := (h.inv.holds hphase).text
    rw [hsaves, hbuffer]
    exact (h.sound.save hc.short heaps.create heaps.write).1

/-- A return in command mode behind `:w` and a name, where `write_to_file` reports no failure. -/
structure EdSaves (r : EdRun) (line : List UInt8) (name : CString) (heaps : EdHeaps) : Prop where
  reading : r.state.phase = .reading line
  command : r.editor.inserting = false
  write : writeCommand (lineText line) = some name
  short : r.state.ed.contentLen.toNat ≤ maxFileSize.toNat
  success : (writeToFile r.state.fs r.state.ed.buffer r.state.ed.contentLen (some name)
    heaps.create heaps.write).2 = 0

/-- The return saves the lines of the editor, and `cat` then shows the file with them. -/
def CatShowsSaved (command : CString) (rest : List CString) (buffer : UIntPtr) (r : EdRun) : Prop :=
  ∀ line name heaps, EdSaves r line name heaps →
    (edRunStep r (.getchar (some 10) heaps)).state.fs.store =
        r.state.fs.store.save name (linesText r.editor.lines) ∧
      ∃ e, catMain (edRunStep r (.getchar (some 10) heaps)).state.fs (command :: name :: rest)
          buffer = some e ∧ e.status = 0 ∧
        e.printed = ((r.state.fs.store.target name).saved (linesText r.editor.lines)).readable

/-- The store after the return. -/
theorem EdStored.saves (h : EdStored r) {name : CString} {heaps : EdHeaps}
    (hsaves : EdSaves r line name heaps) :
    FsSound (edRunStep r (.getchar (some 10) heaps)).state.fs ∧
      (edRunStep r (.getchar (some 10) heaps)).state.fs.store =
        r.state.fs.store.save name (linesText r.editor.lines) := by
  have holds := h.inv.holds hsaves.reading
  obtain ⟨buffer, hbuffer, htext, -⟩ := holds.text
  have turn : edStep r.state (.getchar (some 10) heaps) =
      edTurn r.state (lineText line) heaps := by
    unfold edStep
    rw [hsaves.reading]
    rfl
  have success := hsaves.success
  show FsSound (edStep r.state _).fs ∧ (edStep r.state _).fs.store = _
  rw [turn, edTurn_saves (holds.mode.trans hsaves.command) hsaves.write, hbuffer]
  rw [hbuffer] at success
  obtain ⟨sound, saved⟩ := h.sound.save hsaves.short heaps.create heaps.write
  refine ⟨sound, ?_⟩
  rw [saved success, htext]

theorem FileStore.find_save (t : FileStore) (name : CString) (text : List UInt8) :
    (t.save name text).find (some name) = some (.file ((t.target name).saved text)) :=
  Function.update_self ..

theorem EdStored.cat_shows_saved (h : EdStored r) (command : CString) (rest : List CString)
    {buffer : UIntPtr} (hbuffer : buffer ≠ null) : CatShowsSaved command rest buffer r := by
  intro line name heaps hsaves
  obtain ⟨sound, saved⟩ := h.saves hsaves
  have found := (congrArg (FileStore.find · (some name)) saved).trans (FileStore.find_save _ name _)
  obtain ⟨e, hrun, -, -, hstatus, hprinted⟩ := sound.cat_file found rfl command rest hbuffer
  exact ⟨saved, e, hrun, hstatus, hprinted⟩

end Run

/-- In every run of sessions that start clean, over a file system that any run of the driver within
the domain has left: once a buffer that fits a file has been saved, `cat` shows the lines of the
editor, and behind them what a longer file has kept of its end. Nothing else in the store is
changed. -/
theorem ed_cat (s₀ : Fs) (fsCalls : List FsCall)
    (hfs : EveryStep fsStep StoreCall (fsInit s₀) fsCalls) (calls : List EdCall)
    (hcalls : EveryStep edRunStep EdFits (edRunStart (runFrom fsStep (fsInit s₀) fsCalls)) calls)
    (command : CString) (rest : List CString) (buffer : UIntPtr) (hbuffer : buffer ≠ null) :
    EveryState edRunStep (CatShowsSaved command rest buffer)
      (edRunStart (runFrom fsStep (fsInit s₀) fsCalls)) calls := by
  have sound : FsSound (runFrom fsStep (fsInit s₀) fsCalls) :=
    EveryStep.invariant (I := FsSound) (fun _ _ h hc => h.step hc) (fsSound_init s₀) hfs
  have start : EdStored (edRunStart (runFrom fsStep (fsInit s₀) fsCalls)) := ⟨.inr rfl, sound⟩
  exact hcalls.everyState (fun _ _ h hc => EdStored.step h hc)
    (fun _ h => h.cat_shows_saved command rest hbuffer) start

theorem edFits_getchar {r : EdRun} (h : r.state.ed.contentLen.toNat ≤ maxFileSize.toNat)
    (c : Option UInt8) (heaps : EdHeaps) : EdFits r (.getchar c heaps) := by
  refine ⟨?_, h⟩
  unfold EdStartsClean
  split
  · next hc => cases hc
  · trivial

/-- The line "x" is inserted, and `:w a` is typed. -/
def typedSave : List EdCall :=
  .main (some fun _ => 0) ::
    [119, 10, 120, 10, 46, 10, 58, 119, 32, 97].map fun c => .getchar (some c) oneBlock

theorem typedSave_fits : EveryStep edRunStep EdFits (edRunStart (fsInit fsStart)) typedSave := by
  refine ⟨⟨⟨rfl, rfl⟩, by decide⟩, ?_⟩
  refine ⟨?_, ?_, ?_, ?_, ?_, ?_, ?_, ?_, ?_, ?_, trivial⟩
  all_goals exact edFits_getchar (by decide +kernel) _ _

theorem ed_cat_typedSave :
    EveryState edRunStep (CatShowsSaved (.char 97) [] 0x200000) (edRunStart (fsInit fsStart))
      typedSave :=
  ed_cat fsStart [] trivial typedSave typedSave_fits (.char 97) [] 0x200000 (by decide)

end Unics
