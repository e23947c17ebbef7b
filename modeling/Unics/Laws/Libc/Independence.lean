import Unics.Laws.Libc.Descriptors

/-!
# Descriptors that do not meet

A descriptor has an offset of its own as long as no other descriptor refers to its file: the offset
and the open flag are fields of the `File`, and `open` hands out a second descriptor of a file that
is open where `fs_open` refuses.

The specification is a table of handles that knows nothing of files: a descriptor is not open, or it
is open at an offset, and only its own calls, with what they answer, change its entry.
`independent_iff` is the exact condition under which the calls implement that table.
-/

namespace Unics

open Unics.Lib

/-! ## Handles -/

/-- The state, and what each descriptor's own calls have made of it. -/
structure HandleTrace where
  now : Unistd
  handle : Fd → Option SizeT

/-- A change to the handle of that number. -/
def onHandle (handle : Fd → Option SizeT) (fd : Int) (change : SizeT → Option SizeT) :
    Fd → Option SizeT :=
  match fdIndex fd with
  | none => handle
  | some d => Function.update handle d ((handle d).bind change)

/-- What a call says of its own descriptor: an `open` starts it at 0, a `close` ends it, a transfer
moves it by the bytes it copies, and a seek that succeeds puts it where it says. -/
def handleAfter (u : Unistd) (handle : Fd → Option SizeT) : UnistdCall → Fd → Option SizeT
  | .openFile pathname flags heap =>
    match fdIndex (unistdOpen u pathname flags heap).2 with
    | none => handle
    | some d => Function.update handle d (some 0)
  | .close fd => onHandle handle fd fun _ => none
  | .read fd count => onHandle handle fd fun off => some (off + (unistdRead u fd count).moved)
  | .write fd buf count heap =>
    onHandle handle fd fun off => some (off + (unistdWrite u fd buf count heap).moved)
  | .lseek fd offset whence =>
    let ret := (unistdLseek u fd offset whence).2
    onHandle handle fd fun off => some (if 0 ≤ ret then BitVec.ofInt 32 ret else off)
  | _ => handle

/-- One call, and what it says of the handles. -/
def handleStep (t : HandleTrace) (c : UnistdCall) : HandleTrace :=
  { now := unistdStep t.now c, handle := handleAfter t.now t.handle c }

/-- Any files, and no descriptor. -/
def handleStart (s : Fs) : HandleTrace :=
  { now := { fs := s, fdTable := fun _ => none }, handle := fun _ => none }

/-- The calls that open, close, and transfer or seek through a descriptor. -/
def UnistdCall.Io : UnistdCall → Prop
  | .unlink _ | .chdir _ => False
  | _ => True

/-- What a descriptor is, when its handle is shut and when it is open: no entry, or an entry for a
live open file whose position is the handle's offset. -/
def Unistd.Shows (u : Unistd) (d : Fd) : Option SizeT → Prop
  | none => u.fdTable d = none
  | some off => ∃ i f, u.fdTable d = some i ∧ u.fs.live i = some f ∧ f.isOpen = true ∧
      f.position = off

/-- The descriptors are what their own calls say. -/
def Independent (t : HandleTrace) : Prop := ∀ d, t.now.Shows d (t.handle d)

/-! ## The condition -/

/-- The number that a call is made through. -/
def UnistdCall.through : UnistdCall → Option Int
  | .close fd | .read fd _ | .write fd _ _ _ | .lseek fd _ _ => some fd
  | _ => none

/-- The call changes the offset or the flag of the file it reaches. -/
def UnistdCall.Moves (f : File) : UnistdCall → Prop
  | .close _ => True
  | .read _ count => count ≠ 0 ∧ f.position < f.size
  | .write _ _ count heap => count ≠ 0 ∧ ¬ GrowthRefused f count heap
  | .lseek _ offset whence => ∃ p, seekPosition f offset whence = some p ∧
      p.setWidth 32 ≠ f.position
  | _ => False

/-- No other descriptor refers to the file of this one. -/
def Unistd.Alone (u : Unistd) (d : Fd) : Prop :=
  ∀ i d', u.fdTable d = some i → u.fdTable d' = some i → d' = d

/-- A call that moves the file it reaches is through the only descriptor of that file. -/
def MovesAlone (u : Unistd) (c : UnistdCall) : Prop :=
  ∀ fd d i, c.through = some fd → fdIndex fd = some d → u.fdTable d = some i →
    c.Moves (u.fs.files i) → u.Alone d

/-- An `open` that hands out a descriptor of a file some descriptor refers to finds it at its start.
-/
def OpensAtStart (u : Unistd) : UnistdCall → Prop
  | .openFile pathname _ _ => ∀ i d, fsFindFile u.fs pathname = some i →
      (∃ fd : Fd, 3 ≤ fd.val ∧ u.fdTable fd = none) → u.fdTable d = some i →
      (u.fs.files i).position = 0
  | _ => True

/-- A call that keeps descriptors apart. -/
def KeepsApart (t : HandleTrace) (c : UnistdCall) : Prop :=
  MovesAlone t.now c ∧ OpensAtStart t.now c

/-! ## One call through a descriptor -/

/-- The file in the slot is still open, at position `p`, and nothing else that a descriptor can see
has changed. -/
structure MovedTo (u v : Unistd) (i : Slot) (p : SizeT) : Prop where
  live : ∃ g, g.isOpen = true ∧ g.position = p ∧ v.fs.live = Function.update u.fs.live i (some g)
  table : v.fdTable = u.fdTable
  fileCount : v.fs.fileCount = u.fs.fileCount

section Through

variable {u : Unistd} {fd : Int} {i : Slot}

/-- A call that changes nothing leaves the position where it is. -/
theorem MovedTo.refl (hused : u.fs.freeList i = false) (hopen : (u.fs.files i).isOpen = true) :
    MovedTo u u i (u.fs.files i).position :=
  ⟨⟨_, hopen, rfl, by rw [← Fs.live_of_used hused, Function.update_eq_self]⟩, rfl, rfl⟩

theorem MovedTo.store {v : Unistd} {g : File} {p : SizeT} (hused : u.fs.freeList i = false)
    (hfiles : v.fs.files = Function.update u.fs.files i g)
    (hfree : v.fs.freeList = u.fs.freeList) (hopen : g.isOpen = true) (hposition : g.position = p)
    (table : v.fdTable = u.fdTable) (fileCount : v.fs.fileCount = u.fs.fileCount) :
    MovedTo u v i p :=
  ⟨⟨g, hopen, hposition, Fs.live_store hfiles hfree hused⟩, table, fileCount⟩

theorem unistdRead_moved (hfile : getFile u fd = some i) (hused : u.fs.freeList i = false)
    (hopen : (u.fs.files i).isOpen = true) (count : SizeT) :
    MovedTo u (unistdRead u fd count).after i
        ((u.fs.files i).position + (unistdRead u fd count).moved) ∧
      ((unistdRead u fd count).moved ≠ 0 ↔
        (UnistdCall.read fd count).Moves (u.fs.files i)) := by
  rcases unistdRead_spec u fd count with ⟨ret, h, hend⟩ | ⟨j, hj, -, hlt, h⟩
  · have past := (hend i hfile hopen).1
    rw [h, moved_noTransfer, BitVec.add_zero]
    refine ⟨.refl hused hopen, iff_of_false (fun h0 => h0 rfl) fun hmoves => ?_⟩
    exact absurd hmoves.2 (BitVec.not_lt.mpr past)
  · obtain rfl := Option.some.inj (hj.symm.trans hfile)
    rw [h, moved_singleton]
    refine ⟨.store hused rfl rfl hopen rfl rfl rfl, ?_⟩
    rw [unistdReadCount_ne_zero hlt]
    exact (and_iff_left hlt).symm

theorem unistdWrite_moved (hfile : getFile u fd = some i) (hused : u.fs.freeList i = false)
    (hopen : (u.fs.files i).isOpen = true) (buf : Buffer) (count : SizeT) (heap : Heap) :
    MovedTo u (unistdWrite u fd buf count heap).after i
        ((u.fs.files i).position + (unistdWrite u fd buf count heap).moved) ∧
      ((unistdWrite u fd buf count heap).moved ≠ 0 ↔
        (UnistdCall.write fd buf count heap).Moves (u.fs.files i)) := by
  have spec := unistdWrite_spec hfile hopen buf count heap
  generalize unistdWrite u fd buf count heap = r at spec ⊢
  cases spec with
  | inPlace fits =>
    rw [show (unistdWriteCopy u i buf count).moved = count from moved_singleton]
    exact ⟨.store hused rfl rfl hopen rfl rfl rfl,
      (and_iff_left (not_growthRefused_of_fits fits)).symm⟩
  | @resized g grows notDir hg =>
    have target : (u.fs.files i).position + count = (g.unistdWritten buf count).position := by
      rw [← hg.position]
      rfl
    rw [unistdWriteCopy_after_resize]
    rw [show (unistdWriteCopy { u with fs := u.fs.tick.setFile i g } i buf count).moved = count from
      moved_singleton, target]
    exact ⟨.store hused rfl rfl (hg.sameOpen.trans hopen) rfl rfl rfl,
      (and_iff_left (hg.not_growthRefused notDir)).symm⟩
  | refused refused =>
    rw [moved_noTransfer, BitVec.add_zero]
    exact ⟨.refl hused hopen, iff_of_false (fun h0 => h0 rfl) fun h => h.2 refused⟩

/-- The position that a seek leaves, from what it answers. -/
theorem unistdLseek_moved (hfile : getFile u fd = some i) (hused : u.fs.freeList i = false)
    (hopen : (u.fs.files i).isOpen = true) (offset : BitVec 64) (whence : Int) :
    ∃ p, MovedTo u (unistdLseek u fd offset whence).1 i p ∧
      p = (if 0 ≤ (unistdLseek u fd offset whence).2 then
        BitVec.ofInt 32 (unistdLseek u fd offset whence).2 else (u.fs.files i).position) ∧
      (p ≠ (u.fs.files i).position ↔
        (UnistdCall.lseek fd offset whence).Moves (u.fs.files i)) := by
  rw [unistdLseek_spec hfile hopen]
  cases hseek : seekPosition (u.fs.files i) offset whence with
  | none =>
    refine ⟨_, .refl hused hopen, by simp, iff_of_false (fun h => h rfl) ?_⟩
    rintro ⟨p, hp, -⟩
    exact absurd (hp.symm.trans hseek) (Option.some_ne_none p)
  | some p =>
    have nonneg := (seekPosition_eq_some.mp hseek).2.1
    refine ⟨p.setWidth 32, .store hused rfl rfl hopen rfl rfl rfl, ?_, ?_⟩
    · rw [if_pos nonneg]
      exact (BitVec.signExtend_eq_setWidth_of_le p (by decide)).symm
    · constructor
      · intro hne
        exact ⟨p, hseek, hne⟩
      · rintro ⟨q, hq, hne⟩
        obtain rfl := Option.some.inj (hq.symm.trans hseek)
        exact hne

end Through

/-! ## The invariant -/

/-- Descriptors are independent, and every file that one refers to is within the lookup's reach. -/
structure HandlesApart (t : HandleTrace) : Prop where
  independent : Independent t
  seen : ∀ d i, t.now.fdTable d = some i → i.val < t.now.fs.fileCount

section Steps

variable {t : HandleTrace} {v : Unistd} {d d' : Fd} {i : Slot} {p : SizeT}

/-- A descriptor that has an entry is usable. -/
theorem Independent.entry (h : Independent t) (hd : t.now.fdTable d = some i) :
    t.now.fs.freeList i = false ∧ (t.now.fs.files i).isOpen = true ∧
      t.handle d = some (t.now.fs.files i).position := by
  have shows := h d
  cases hoff : t.handle d with
  | none =>
    rw [hoff] at shows
    exact absurd (hd.symm.trans shows) (Option.some_ne_none i)
  | some off =>
    rw [hoff] at shows
    obtain ⟨j, f, hj, hf, hopen, rfl⟩ := shows
    obtain rfl := Option.some.inj (hj.symm.trans hd)
    obtain ⟨hfree, rfl⟩ := Fs.live_eq_some.mp hf
    exact ⟨hfree, hopen, rfl⟩

/-- A descriptor without an entry has no open handle. -/
theorem Independent.no_entry (h : Independent t) (hd : t.now.fdTable d = none) :
    t.handle d = none := by
  have shows := h d
  cases hoff : t.handle d with
  | none => rfl
  | some off =>
    rw [hoff] at shows
    obtain ⟨i, _, hi, -⟩ := shows
    exact absurd (hi.symm.trans hd) (Option.some_ne_none i)

/-- A change to one handle, when its descriptor follows and the others show what they showed. -/
theorem Independent.update (h : Independent t) {x : Option SizeT} (hd : v.Shows d x)
    (hrest : ∀ e, e ≠ d → ∀ y, t.now.Shows e y → v.Shows e y) :
    Independent ⟨v, Function.update t.handle d x⟩ := by
  intro e
  show v.Shows e (Function.update t.handle d x e)
  by_cases he : e = d
  · subst he
    rw [Function.update_self]
    exact hd
  · rw [Function.update_of_ne he]
    exact hrest e he _ (h e)

/-- A descriptor shows the same as long as its entry stays and its file, if it has one, is as open
and where it was. -/
theorem Unistd.Shows.mono {u : Unistd} {y : Option SizeT} (h : u.Shows d y)
    (table : v.fdTable d = u.fdTable d)
    (file : ∀ i f, u.fdTable d = some i → u.fs.live i = some f → f.isOpen = true →
      ∃ g, v.fs.live i = some g ∧ g.isOpen = true ∧ g.position = f.position) : v.Shows d y := by
  cases y with
  | none => exact table.trans h
  | some off =>
    obtain ⟨i, f, hi, hf, hopen, rfl⟩ := h
    obtain ⟨g, hg, hgopen, hpos⟩ := file i f hi hf hopen
    exact ⟨i, g, table.trans hi, hg, hgopen, hpos⟩

/-- A call through a descriptor keeps the others when it leaves the position or no other refers to
the file. -/
theorem Independent.moved (h : Independent t) (hd : t.now.fdTable d = some i)
    (hm : MovedTo t.now v i p)
    (halone : p ≠ (t.now.fs.files i).position → t.now.Alone d) :
    Independent ⟨v, Function.update t.handle d (some p)⟩ := by
  obtain ⟨g, hopen, hpos, hlive⟩ := hm.live
  have here : v.fs.live i = some g := by
    rw [hlive, Function.update_self]
  refine h.update ⟨i, g, by rw [hm.table]; exact hd, here, hopen, hpos⟩ fun e he y hy => ?_
  refine hy.mono (by rw [hm.table]) fun j f hj hf hfopen => ?_
  by_cases hji : j = i
  · subst hji
    obtain ⟨-, rfl⟩ := Fs.live_eq_some.mp hf
    refine ⟨g, here, hopen, ?_⟩
    by_contra hne
    exact he (halone (fun hp => hne (hpos.trans hp)) j e hd hj)
  · exact ⟨f, by rw [hlive, Function.update_of_ne hji]; exact hf, hfopen, rfl⟩

/-- A handle that stays while its file moves. -/
theorem Independent.not_of_position (h : Independent t) {handle : Fd → Option SizeT}
    (hd : t.now.fdTable d = some i) (entry : v.fdTable d = some i) (stays : handle d = t.handle d)
    (moved : (v.fs.files i).position ≠ (t.now.fs.files i).position) :
    ¬ Independent ⟨v, handle⟩ := by
  intro h'
  have before : t.handle d = some (t.now.fs.files i).position := (h.entry hd).2.2
  have after : handle d = some (v.fs.files i).position := (h'.entry entry).2.2
  rw [stays, before] at after
  exact moved (Option.some.inj after).symm

/-- A call through a descriptor that moves a file another descriptor refers to. -/
theorem Independent.not_moved (h : Independent t) (hd' : t.now.fdTable d' = some i) (hne : d' ≠ d)
    (hm : MovedTo t.now v i p) (hp : p ≠ (t.now.fs.files i).position) {x : Option SizeT} :
    ¬ Independent ⟨v, Function.update t.handle d x⟩ := by
  obtain ⟨g, -, hpos, hlive⟩ := hm.live
  have entry : v.fdTable d' = some i := by
    rw [hm.table]
    exact hd'
  have live : v.fs.live i = some g := by
    rw [hlive, Function.update_self]
  refine h.not_of_position hd' entry (Function.update_of_ne hne ..) ?_
  rw [(Fs.live_eq_some.mp live).2, hpos]
  exact hp

end Steps

section Close

variable {t : HandleTrace} {fd : Int} {d : Fd} {i : Slot}

/-- What a close that closes does. -/
theorem unistdClose_eq (hd : fdIndex fd = some d) (hi : t.now.fdTable d = some i) :
    (unistdClose t.now fd).1 =
      { t.now.setFile i { t.now.fs.files i with isOpen := false } with
          fdTable := Function.update t.now.fdTable d none } := by
  rcases unistdClose_spec t.now fd with ⟨hnone, -⟩ | ⟨e, j, he, hj, h⟩
  · rw [getFile, hd, Option.bind_some, hi] at hnone
    exact absurd hnone (Option.some_ne_none i)
  · obtain rfl := Option.some.inj (he.symm.trans hd)
    obtain rfl := Option.some.inj (hj.symm.trans hi)
    rw [h]

theorem Independent.closed (h : Independent t) (hd : fdIndex fd = some d)
    (hi : t.now.fdTable d = some i) (halone : t.now.Alone d) :
    Independent ⟨(unistdClose t.now fd).1, Function.update t.handle d none⟩ := by
  rw [unistdClose_eq hd hi]
  refine h.update (Function.update_self ..) fun e he y hy => ?_
  refine hy.mono (Function.update_of_ne he ..) fun j f hj hf hopen => ?_
  have hji : j ≠ i := fun heq => he (halone i e hi (heq ▸ hj))
  have live : (t.now.fs.setFile i { t.now.fs.files i with isOpen := false }).live =
      Function.update t.now.fs.live i _ := Fs.live_store rfl rfl (h.entry hi).1
  refine ⟨f, (congrFun live j).trans ?_, hopen, rfl⟩
  rw [Function.update_of_ne hji]
  exact hf

theorem Independent.not_closed {d' : Fd} (hd : fdIndex fd = some d)
    (hi : t.now.fdTable d = some i) (hd' : t.now.fdTable d' = some i) (hne : d' ≠ d) :
    ¬ Independent ⟨(unistdClose t.now fd).1, Function.update t.handle d none⟩ := by
  rw [unistdClose_eq hd hi]
  intro h'
  have closed := (h'.entry (d := d') (i := i) (by
    show Function.update t.now.fdTable d none d' = some i
    rw [Function.update_of_ne hne]
    exact hd')).2.1
  simp [Unistd.setFile, Fs.setFile] at closed

end Close

section Open

variable {t : HandleTrace} {pathname : Option CString} {flags : BitVec 32} {heap : Heap}

theorem HandlesApart.opened (h : HandlesApart t)
    (hc : OpensAtStart t.now (.openFile pathname flags heap)) :
    HandlesApart (handleStep t (.openFile pathname flags heap)) := by
  have spec := unistdOpen_spec t.now pathname flags heap
  unfold handleStep unistdStep handleAfter
  dsimp only
  generalize unistdOpen t.now pathname flags heap = r at spec ⊢
  cases spec with
  | refused lookup =>
    rw [fdIndex_neg_one]
    exact ⟨fun d => (h.independent d).mono rfl fun i f _ hf hopen =>
        ⟨f, lookup.made.keeps hf, hopen, rfl⟩,
      fun d i hi => Nat.lt_of_lt_of_le (h.seen d i hi) lookup.fileCount⟩
  | @opened s _ v i fd g lookup free user file fs table =>
    have live : v.fs.live = Function.update s.live i (some g) := by
      rw [fs]
      exact Fs.live_store rfl rfl (fsFindFile_live lookup.here)
    have here : v.fs.live i = some g := by
      rw [live, Function.update_self]
    have entry : v.fdTable fd = some i := by
      rw [table, Function.update_self]
    have others {e : Fd} (he : e ≠ fd) : v.fdTable e = t.now.fdTable e := by
      rw [table, Function.update_of_ne he]
    rw [fdIndex_val]
    constructor
    · refine h.independent.update ⟨i, g, entry, here, file.isOpen, file.position⟩
        fun e he y hy => hy.mono (others he) fun j f hj hf hopen => ?_
      by_cases hji : j = i
      · subst hji
        -- the file was found at once, so the condition says where it stands
        have start := hc j e (lookup.old hf (h.seen e j hj)) ⟨fd, user, free⟩ hj
        obtain ⟨-, rfl⟩ := Fs.live_eq_some.mp hf
        exact ⟨g, here, file.isOpen, file.position.trans start.symm⟩
      · refine ⟨f, ?_, hopen, rfl⟩
        rw [live, Function.update_of_ne hji]
        exact lookup.made.keeps hf
    · intro e j hj
      show j.val < v.fs.fileCount
      rw [fs]
      by_cases he : e = fd
      · subst he
        obtain rfl := Option.some.inj (entry.symm.trans hj)
        obtain ⟨_, _, _, _, hseen, -⟩ := fsFindFile_eq_some lookup.here
        exact hseen
      · exact Nat.lt_of_lt_of_le (h.seen e j ((others he).symm.trans hj)) lookup.fileCount

/-- An `open` that resets a file some descriptor refers to. -/
theorem Independent.not_opened (h : Independent t)
    (hc : ¬ OpensAtStart t.now (.openFile pathname flags heap)) :
    ¬ Independent (handleStep t (.openFile pathname flags heap)) := by
  simp only [OpensAtStart, not_forall] at hc
  obtain ⟨i, d, hfound, ⟨fd, huser, hfree⟩, hd, hpos⟩ := hc
  have spec := unistdOpen_spec t.now pathname flags heap
  unfold handleStep unistdStep handleAfter
  dsimp only
  generalize unistdOpen t.now pathname flags heap = r at spec ⊢
  cases spec with
  | refused lookup full =>
    cases lookup with
    | found => exact absurd hfree (full _ rfl fd huser)
    | missing absent | created absent =>
      exact absurd (hfound.symm.trans absent) (Option.some_ne_none i)
  | @opened s _ v j e g lookup free user file fs table =>
    obtain rfl : j = i := by
      cases lookup with
      | found found => exact Option.some.inj (found.symm.trans hfound)
      | created absent => exact absurd (hfound.symm.trans absent) (Option.some_ne_none i)
    have hde : d ≠ e := by
      rintro rfl
      exact absurd (hd.symm.trans free) (Option.some_ne_none j)
    rw [fdIndex_val]
    have entry : v.fdTable d = some j := by
      rw [table, Function.update_of_ne hde]
      exact hd
    have here : (v.fs.files j).position = 0 := by
      rw [fs]
      show (Function.update s.files j g j).position = 0
      rw [Function.update_self]
      exact file.position
    refine h.not_of_position hd entry (Function.update_of_ne hde ..) ?_
    rw [here]
    exact fun heq => hpos heq.symm

end Open

/-! ## One call -/

section Call

variable {t : HandleTrace} {fd : Int} {d : Fd} {i : Slot} {c : UnistdCall}

/-- A change to the handle of an open descriptor. -/
theorem Independent.onHandle_eq (h : Independent t) (hd : fdIndex fd = some d)
    (hi : t.now.fdTable d = some i) (change : SizeT → Option SizeT) :
    onHandle t.handle fd change =
      Function.update t.handle d (change (t.now.fs.files i).position) := by
  rw [onHandle, hd]
  dsimp only
  rw [(h.entry hi).2.2, Option.bind_some]

/-- A change to the handle of a number that is no open descriptor. -/
theorem Independent.onHandle_no_file (h : Independent t) (hfile : getFile t.now fd = none)
    (change : SizeT → Option SizeT) : onHandle t.handle fd change = t.handle := by
  rw [onHandle]
  split
  · rfl
  · next d hd =>
    rw [getFile, hd, Option.bind_some] at hfile
    have shut := h.no_entry hfile
    rw [shut, Option.bind_none, ← shut, Function.update_eq_self]

/-- A transfer or a seek through a descriptor moves its file, and its handle with it. -/
theorem Independent.through (h : Independent t) (hd : fdIndex fd = some d)
    (hi : t.now.fdTable d = some i) (hc : c.through = some fd) (hopen : ∀ k, c ≠ .close k) :
    ∃ p, MovedTo t.now (unistdStep t.now c) i p ∧
      (p ≠ (t.now.fs.files i).position ↔ c.Moves (t.now.fs.files i)) ∧
      (handleStep t c).handle = Function.update t.handle d (some p) := by
  obtain ⟨hused, hisOpen, -⟩ := h.entry hi
  have hfile : getFile t.now fd = some i := getFile_eq_some.mpr ⟨d, hd, hi⟩
  have on := h.onHandle_eq hd hi
  have moves (moved : SizeT) : (t.now.fs.files i).position + moved ≠
      (t.now.fs.files i).position ↔ moved ≠ 0 := by
    constructor
    · rintro hne rfl
      exact hne (BitVec.add_zero _)
    · intro hne heq
      exact hne (by bv_omega)
  cases c with
  | read k count =>
    obtain rfl := Option.some.inj hc
    obtain ⟨hm, hmoves⟩ := unistdRead_moved hfile hused hisOpen count
    exact ⟨_, hm, (moves _).trans hmoves, on _⟩
  | write k buf count heap =>
    obtain rfl := Option.some.inj hc
    obtain ⟨hm, hmoves⟩ := unistdWrite_moved hfile hused hisOpen buf count heap
    exact ⟨_, hm, (moves _).trans hmoves, on _⟩
  | lseek k offset whence =>
    obtain rfl := Option.some.inj hc
    obtain ⟨p, hm, rfl, hmoves⟩ := unistdLseek_moved hfile hused hisOpen offset whence
    exact ⟨_, hm, hmoves, on _⟩
  | close k => exact absurd rfl (hopen k)
  | _ => exact absurd hc.symm (Option.some_ne_none fd)

/-- A call through a number that is no open descriptor changes nothing. -/
theorem Independent.nothing (h : Independent t) (hc : c.through = some fd)
    (hfile : getFile t.now fd = none) : handleStep t c = t := by
  have on := h.onHandle_no_file hfile
  have noFile : ∀ i, getFile t.now fd = some i → (t.now.fs.files i).isOpen = false :=
    fun i hi => absurd (hi.symm.trans hfile) (Option.some_ne_none i)
  cases c with
  | close k =>
    obtain rfl := Option.some.inj hc
    rcases unistdClose_spec t.now k with ⟨-, hres⟩ | ⟨d, i, hd, hi, -⟩
    · simp only [handleStep, unistdStep, handleAfter, hres, on]
    · exact absurd ((getFile_eq_some.mpr ⟨d, hd, hi⟩).symm.trans hfile) (Option.some_ne_none i)
  | read k count =>
    obtain rfl := Option.some.inj hc
    rcases unistdRead_spec t.now k count with ⟨_, hres, -⟩ | ⟨i, hi, -⟩
    · simp only [handleStep, unistdStep, handleAfter, hres, on]
      rfl
    · exact absurd (hi.symm.trans hfile) (Option.some_ne_none i)
  | write k buf count heap =>
    obtain rfl := Option.some.inj hc
    simp only [handleStep, unistdStep, handleAfter, unistdWrite_no_file noFile, on]
    rfl
  | lseek k offset whence =>
    obtain rfl := Option.some.inj hc
    simp only [handleStep, unistdStep, handleAfter, unistdLseek_no_file noFile, on]
  | _ => exact absurd hc.symm (Option.some_ne_none fd)

end Call

/-- A call of the interface that keeps descriptors apart. -/
theorem HandlesApart.step {t : HandleTrace} (h : HandlesApart t) {c : UnistdCall} (hio : c.Io)
    (hc : KeepsApart t c) : HandlesApart (handleStep t c) := by
  cases hthrough : c.through with
  | none =>
    cases c with
    | openFile pathname flags heap => exact h.opened hc.2
    | unlink | chdir => exact absurd hio id
    | _ => exact absurd hthrough (Option.some_ne_none _)
  | some fd =>
    cases hfile : getFile t.now fd with
    | none =>
      rw [h.independent.nothing hthrough hfile]
      exact h
    | some i =>
      obtain ⟨d, hd, hi⟩ := getFile_eq_some.mp hfile
      by_cases hclose : ∃ k, c = .close k
      · obtain ⟨k, rfl⟩ := hclose
        obtain rfl := Option.some.inj hthrough
        have alone := hc.1 k d i rfl hd hi trivial
        have handle : (handleStep t (.close k)).handle = Function.update t.handle d none :=
          h.independent.onHandle_eq hd hi _
        refine ⟨?_, fun e j hj => ?_⟩
        · have closed := h.independent.closed hd hi alone
          rw [← handle] at closed
          exact closed
        · have result := unistdClose_eq hd hi
          have hj : (unistdClose t.now k).1.fdTable e = some j := hj
          rw [result] at hj
          show j.val < (unistdClose t.now k).1.fs.fileCount
          rw [result]
          exact h.seen e j (cleared_iff.mp hj).2
      · obtain ⟨p, hm, hmoves, hhandle⟩ :=
          h.independent.through hd hi hthrough fun k hk => hclose ⟨k, hk⟩
        refine ⟨?_, fun e j hj => ?_⟩
        · have moved := h.independent.moved hi hm fun hp =>
            hc.1 fd d i hthrough hd hi (hmoves.mp hp)
          rw [← hhandle] at moved
          exact moved
        · show j.val < (unistdStep t.now c).fs.fileCount
          rw [hm.fileCount]
          exact h.seen e j (hm.table ▸ hj)

/-- A call that moves a file some other descriptor refers to, and leaves that one with an offset
that is not its own or a file that is closed. -/
theorem HandlesApart.not_step {t : HandleTrace} (h : HandlesApart t) {c : UnistdCall}
    (hc : ¬ KeepsApart t c) : ¬ Independent (handleStep t c) := by
  rcases not_and_or.mp hc with hmoves | hopens
  · simp only [MovesAlone, Unistd.Alone, not_forall] at hmoves
    obtain ⟨fd, d, i, hthrough, hd, hi, hm, j, d', hj, hd', hne⟩ := hmoves
    obtain rfl := Option.some.inj (hi.symm.trans hj)
    by_cases hclose : ∃ k, c = .close k
    · obtain ⟨k, rfl⟩ := hclose
      obtain rfl := Option.some.inj hthrough
      have handle : (handleStep t (.close k)).handle = Function.update t.handle d none :=
        h.independent.onHandle_eq hd hi _
      have closed := Independent.not_closed hd hi hd' hne
      rw [← handle] at closed
      exact closed
    · obtain ⟨p, hmoved, hp, hhandle⟩ :=
        h.independent.through hd hi hthrough fun k hk => hclose ⟨k, hk⟩
      have notMoved := h.independent.not_moved (x := some p) hd' hne hmoved (hp.mpr hm)
      rw [← hhandle] at notMoved
      exact notMoved
  · cases c with
    | openFile pathname flags heap => exact h.independent.not_opened hopens
    | _ => exact absurd trivial hopens

/-! ## Runs -/

theorem handlesApart_start (s : Fs) : HandlesApart (handleStart s) :=
  ⟨fun _ => rfl, fun _ i hi => absurd hi.symm (Option.some_ne_none i)⟩

/-- In every run over any files, every descriptor is in every state what its own calls say, exactly
when every call keeps descriptors apart. -/
theorem descriptor_independence_iff (s : Fs) {calls : List UnistdCall} (hio : ∀ c ∈ calls, c.Io) :
    EveryState handleStep Independent (handleStart s) calls ↔
      EveryStep handleStep KeepsApart (handleStart s) calls :=
  everyState_iff_within (D := fun _ c => c.Io) (fun _ _ h hio hc => h.step hio hc)
    (fun _ h => h.independent) (fun _ _ h _ hc => h.not_step hc) (handlesApart_start s)
    (everyStep_of_forall hio)

instance (u : Unistd) (d : Fd) : Decidable (u.Alone d) := by
  unfold Unistd.Alone
  infer_instance

/-- A call through a descriptor that is alone. -/
theorem movesAlone_of_alone {u : Unistd} {c : UnistdCall} {fd : Int} {d : Fd}
    (hc : c.through = some fd) (hfd : fdIndex fd = some d) (halone : u.Alone d) :
    MovesAlone u c := by
  intro fd' d' i hthrough hd' _ _
  obtain rfl := Option.some.inj (hc.symm.trans hthrough)
  obtain rfl := Option.some.inj (hfd.symm.trans hd')
  exact halone

/-- An `open` of a file that is not there yet. -/
theorem keepsApart_create {t : HandleTrace} {pathname : Option CString} {flags : BitVec 32}
    {heap : Heap} (hnew : fsFindFile t.now.fs pathname = none) :
    KeepsApart t (.openFile pathname flags heap) := by
  refine ⟨fun fd _ _ hfd => absurd hfd.symm (Option.some_ne_none fd), fun i d hi _ _ => ?_⟩
  exact absurd (hi.symm.trans hnew) (Option.some_ne_none i)

/-- Two files and three descriptors: 4 has its file for itself, 3 and 5 refer to the same file and
leave it where it is. -/
def threeDescriptors : List UnistdCall :=
  [.openFile (some (.char 97 CString.a_ne_zero)) oCreat (some fun _ => 0),
    .openFile (some (.char 98 b_ne_zero)) oCreat (some fun _ => 0),
    .openFile (some (.char 97 CString.a_ne_zero)) 0 none,
    .write 4 (fun _ => 120) 1 (some fun _ => 0), .read 5 1, .close 4]

theorem descriptor_independence_three :
    EveryState handleStep Independent (handleStart (fsInit fsStart)) threeDescriptors := by
  have io : ∀ c ∈ threeDescriptors, c.Io := by simp [threeDescriptors, UnistdCall.Io]
  refine (descriptor_independence_iff _ io).mpr ⟨keepsApart_create (by decide +kernel),
    keepsApart_create (by decide +kernel), ⟨?_, ?_⟩, ⟨?_, trivial⟩, ⟨?_, trivial⟩,
    ⟨?_, trivial⟩, trivial⟩
  · exact fun fd _ _ hfd => absurd hfd.symm (Option.some_ne_none fd)
  · intro i d hi _ _
    obtain rfl : (1 : Slot) = i := Option.some.inj ((by decide +kernel :
      fsFindFile _ (some (.char 97 CString.a_ne_zero)) = some 1).symm.trans hi)
    decide +kernel
  · exact movesAlone_of_alone rfl (d := 4) rfl (by decide +kernel)
  · -- the file is empty: there is nothing to read
    intro fd d i hfd hd hi hmoves
    obtain rfl := Option.some.inj hfd
    obtain rfl : (5 : Fd) = d := Option.some.inj hd
    obtain rfl : (1 : Slot) = i := Option.some.inj ((by decide +kernel :
      Unistd.fdTable _ 5 = some 1).symm.trans hi)
    exact absurd hmoves.2 (by decide +kernel)
  · exact movesAlone_of_alone rfl (d := 4) rfl (by decide +kernel)

/-- A second `open` of a file takes the first descriptor back to the start. -/
theorem descriptor_independence_fails :
    ¬ EveryState handleStep Independent (handleStart (fsInit fsStart))
      [.openFile (some (.char 97)) oCreat (some fun _ => 0),
        .write 3 (fun _ => 120) 1 (some fun _ => 0),
        .openFile (some (.char 97)) 0 (some fun _ => 0)] := by
  intro h
  have last : Independent _ := everyState_iff_prefix.mp h _ [] (List.append_nil _).symm
  have entry := (last.entry (d := 3) (i := 1) (by decide +kernel)).2.2
  revert entry
  decide +kernel

end Unics
