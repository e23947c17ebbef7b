import Unics.Laws.Paging.Map

/-!
# The rights of a mapped page

The processor grants what the directory entry and the table entry both grant. A table entry carries
the flags that its mapping asked for. A directory entry is made by whichever mapping first needs the
table, always with the same two flags, so it is writable and not for the user, and no later call
changes it: a page is writable exactly when its mapping asked for it, and no page is the user's.
-/

namespace Unics

open Unics.Lib

/-- The rights of a virtual page, where it is mapped: those of both its entries. -/
def Paging.rights (s : Paging) (v : BitVec 20) : PageEntry :=
  let entry := s.entry s.currentPageDirectory ((dirPart v).setWidth 32)
  entry &&& s.entry (PageEntry.address entry) ((tablePart v).setWidth 32)

/-- Every mapped page has the two rights of its last mapping, and no others of the two. -/
def RightsFaithful (t : PagingRun) : Prop :=
  ∀ v m, t.map v = some m →
    (t.paging.rights v &&& pageUser ≠ 0 ↔ m.flags.setWidth 32 &&& pageUser ≠ 0) ∧
    (t.paging.rights v &&& pageWritable ≠ 0 ↔ m.flags.setWidth 32 &&& pageWritable ≠ 0)

/-- The call does not ask for a page of the user's. -/
def PagingCall.NoUser : PagingCall → Prop
  | .map _ _ flags _ => flags &&& pageUser = 0
  | .unmap _ => True

/-- The call returns true. -/
def PagingCall.Succeeds (t : PagingRun) (c : PagingCall) : Prop := (c.run t.paging).2 = true

instance (t : PagingRun) (c : PagingCall) : Decidable (c.Succeeds t) :=
  inferInstanceAs (Decidable ((c.run t.paging).2 = true))

/-! ## Flags as bits -/

theorem and_pageWritable_iff (x : BitVec 32) : x &&& pageWritable ≠ 0 ↔ x.getLsbD 1 = true :=
  @and_twoPow_ne_zero_iff 32 x 1 (by decide)

theorem and_pageUser_iff (x : BitVec 32) : x &&& pageUser ≠ 0 ↔ x.getLsbD 2 = true :=
  @and_twoPow_ne_zero_iff 32 x 2 (by decide)

/-- The address of a frame leaves the flags to others. -/
theorem frameAddr_getLsbD (f : BitVec 20) {i : Nat} (hi : i < 12) :
    (frameAddr f).getLsbD i = false := by
  have low := congrArg (·.getLsbD i) (frameAddr_low f)
  simpa [hi] using low

/-- The flags that a directory entry is made with. -/
structure DirEntry (entry : PageEntry) : Prop where
  writable : entry.getLsbD 1 = true
  notUser : entry.getLsbD 2 = false

theorem dirEntry_new {page : UIntPtr} (haligned : pmmIsPageAligned page = true) :
    DirEntry (page ||| pagePresent ||| pageWritable) := by
  rw [← frameAddr_pageOf haligned]
  constructor
  · rw [BitVec.getLsbD_or, BitVec.getLsbD_or, frameAddr_getLsbD _ (by decide)]
    rfl
  · rw [BitVec.getLsbD_or, BitVec.getLsbD_or, frameAddr_getLsbD _ (by decide)]
    rfl

/-! ## The directory -/

/-- Every directory entry that leads to a table has the flags it was made with. -/
def DirFlags (s : Paging) : Prop :=
  ∀ i t, pagingFormat.next (s.frames s.dir i) = some t → DirEntry (s.frames s.dir i)

section Dir

variable {s : Paging}

/-- A write to a table changes no directory entry. -/
theorem PagingSound.dirFlags_setEntry (h : PagingSound s) (hflags : DirFlags s)
    {virtAddr pt : UIntPtr} {t : BitVec 20} (ht : s.tableOf virtAddr = some t)
    (hpt : frameAddr t = pt) (entry : PageEntry) :
    DirFlags (s.setEntry pt (ptIndex virtAddr) entry) := by
  subst hpt
  have same : ∀ i, (s.setEntry (frameAddr t) (ptIndex virtAddr) entry).frames s.dir i =
      s.frames s.dir i := by
    intro i
    rw [ptIndex_eq, setEntry_frames]
    exact h.sound.dir_setLeaf ht i
  intro i t' ht'
  have ht' : pagingFormat.next ((s.setEntry (frameAddr t) (ptIndex virtAddr) entry).frames
    s.dir i) = some t' := ht'
  show DirEntry ((s.setEntry (frameAddr t) (ptIndex virtAddr) entry).frames s.dir i)
  rw [same] at ht' ⊢
  exact hflags i t' ht'

/-- A table that is made is entered with the two flags. -/
theorem PagingSound.dirFlags_newTable (h : PagingSound s) (hflags : DirFlags s)
    {virtAddr page : UIntPtr} (haligned : pmmIsPageAligned page = true)
    (hfree : ¬ s.Occupied page) :
    DirFlags ((s.clearPage page).setEntry s.currentPageDirectory (pdIndex virtAddr)
      (page ||| pagePresent ||| pageWritable)) := by
  have fresh : ¬ pagingFormat.InUse s.frames s.dir (pageOf page) := by
    rw [← h.occupied_iff, frameAddr_pageOf haligned]
    exact hfree
  have frames := h.newTable_frames haligned virtAddr
  intro i t ht
  have ht : pagingFormat.next (Paging.frames _ s.dir i) = some t := ht
  show DirEntry (Paging.frames _ s.dir i)
  rw [frames, TableFormat.dir_enterTable fresh] at ht ⊢
  split
  · exact dirEntry_new haligned
  · next hi =>
    rw [if_neg hi] at ht
    exact hflags i t ht

theorem PagingSound.dirFlags_mapPage (h : PagingSound s) (hflags : DirFlags s)
    {virtAddr physAddr page : UIntPtr} (flags : BitVec 32)
    (halloc : page = null ∨ pmmIsPageAligned page = true ∧ ¬ s.Occupied page) :
    DirFlags (pagingMapPage s virtAddr physAddr flags page).1 := by
  unfold pagingMapPage
  split
  · exact hflags
  cases ht : s.tableOf virtAddr with
  | some t =>
    rw [h.getOrCreate_of_table ht]
    dsimp only
    rw [if_neg (h.nonnull _ t ht)]
    exact h.dirFlags_setEntry hflags ht rfl _
  | none =>
    rw [h.getOrCreate_of_none ht]
    by_cases hpage : page = null
    · rw [if_pos (Or.inr hpage)]
      exact hflags
    · obtain ⟨hpa, hfree⟩ := halloc.resolve_left hpage
      rw [if_neg (not_or.mpr ⟨Bool.noConfusion, hpage⟩)]
      dsimp only
      rw [if_neg hpage]
      obtain ⟨sound, -, entered⟩ := h.newTable ht hpage hpa hfree rfl
      exact sound.dirFlags_setEntry (h.dirFlags_newTable hflags hpa hfree) entered
        (frameAddr_pageOf hpa) _

theorem PagingSound.dirFlags_unmapPage (h : PagingSound s) (hflags : DirFlags s)
    (virtAddr : UIntPtr) : DirFlags (pagingUnmapPage s virtAddr).1 := by
  unfold pagingUnmapPage
  split
  · exact hflags
  cases ht : s.tableOf virtAddr with
  | none =>
    rw [h.getOrCreate_of_none ht, if_pos (Or.inl rfl)]
    exact hflags
  | some t =>
    rw [h.getOrCreate_of_table ht]
    dsimp only
    split
    · exact hflags
    · split
      · exact hflags
      · exact h.dirFlags_setEntry hflags ht rfl _

/-- What the walk grants for a mapped page: to write if its mapping says so, to the user never. -/
theorem PagingSound.rights_of_walk (h : PagingSound s) (hflags : DirFlags s) {v : BitVec 20}
    {m : PageMapping} (hwalk : s.walk v = some m) :
    (s.rights v).getLsbD 1 = m.flags.getLsbD 1 ∧ (s.rights v).getLsbD 2 = false := by
  unfold Paging.walk at hwalk
  unfold Paging.rights
  dsimp only at hwalk ⊢
  split at hwalk
  · cases hwalk
  next hpresent =>
  unfold PageEntry.mapping at hwalk
  split at hwalk
  · cases hwalk
  obtain rfl := Option.some.inj hwalk
  have dir : DirEntry (s.entry s.currentPageDirectory ((dirPart v).setWidth 32)) := by
    rw [h.entry_dir] at hpresent ⊢
    exact hflags (dirPart v) _ (if_neg hpresent)
  rw [BitVec.getLsbD_and, BitVec.getLsbD_and, dir.writable, dir.notUser, Bool.true_and,
    Bool.false_and]
  simp

end Dir

/-! ## Runs -/

/-- What a run of successful calls keeps, as long as none asks for a page of the user's. -/
structure RightsSafe (t : PagingRun) : Prop where
  safe : PagingSafe t
  dir : DirFlags t.paging
  noUser : ∀ v m, t.map v = some m → m.flags.getLsbD 2 = false

/-- The calls of the runs in question: they return true, and where one needs a table, the allocator
has an unused page. -/
def PagingCall.Good (t : PagingRun) (c : PagingCall) : Prop := c.Succeeds t ∧ PagingAllocates t c

theorem newMapping_flags (physAddr : UIntPtr) (flags : BitVec 32) {i : Nat} (hi : i < 12)
    (hpos : 0 < i) : (newMapping physAddr flags).flags.getLsbD i = flags.getLsbD i := by
  have high : (1 : BitVec 12).getLsbD i = false := by
    rw [BitVec.ofNat_eq_ofNat, BitVec.getLsbD_one]
    simp [Nat.ne_of_gt hpos]
  rw [newMapping, BitVec.getLsbD_or, BitVec.getLsbD_setWidth, high, decide_eq_true hi,
    Bool.true_and, Bool.or_false]

/-- A call that succeeds makes the map that it is for. -/
theorem PagingCall.Succeeds.map {t : PagingRun} {c : PagingCall} (h : c.Succeeds t) :
    (pagingRunStep t c).map = c.update t.map := if_pos h

theorem DirFlags.step {t : PagingRun} {c : PagingCall} (h : PagingSafe t)
    (hflags : DirFlags t.paging) (halloc : PagingAllocates t c) :
    DirFlags (pagingRunStep t c).paging := by
  cases c with
  | map virtAddr physAddr flags page => exact h.sound.dirFlags_mapPage hflags flags halloc
  | unmap virtAddr => exact h.sound.dirFlags_unmapPage hflags virtAddr

theorem RightsSafe.step {t : PagingRun} {c : PagingCall} (h : RightsSafe t) (hgood : c.Good t)
    (hc : c.NoUser) : RightsSafe (pagingRunStep t c) := by
  refine ⟨h.safe.step hgood.2, h.dir.step h.safe hgood.2, fun v m hm => ?_⟩
  rw [hgood.1.map] at hm
  cases c with
  | map virtAddr physAddr flags page =>
    by_cases hv : v = pageOf virtAddr
    · subst hv
      rw [PagingCall.update, Function.update_self] at hm
      obtain rfl := Option.some.inj hm
      rw [newMapping_flags physAddr flags (by decide) (by decide)]
      exact Bool.eq_false_iff.mpr fun hbit => (and_pageUser_iff flags).mpr hbit hc
    · rw [PagingCall.update, Function.update_of_ne hv] at hm
      exact h.noUser v m hm
  | unmap virtAddr =>
    by_cases hv : v = pageOf virtAddr
    · subst hv
      rw [PagingCall.update, Function.update_self] at hm
      cases hm
    · rw [PagingCall.update, Function.update_of_ne hv] at hm
      exact h.noUser v m hm

theorem setWidth_flags (m : PageMapping) {i : Nat} (hi : i < 32) :
    (m.flags.setWidth 32).getLsbD i = m.flags.getLsbD i := by
  rw [BitVec.getLsbD_setWidth, decide_eq_true hi, Bool.true_and]

theorem RightsSafe.faithful {t : PagingRun} (h : RightsSafe t) : RightsFaithful t := by
  intro v m hm
  rw [← h.safe.walk] at hm
  obtain ⟨writable, user⟩ := h.safe.sound.rights_of_walk h.dir hm
  rw [h.safe.walk] at hm
  rw [and_pageUser_iff, and_pageUser_iff, and_pageWritable_iff, and_pageWritable_iff, user,
    writable, setWidth_flags m (by decide), setWidth_flags m (by decide), h.noUser v m hm]
  exact ⟨Iff.rfl, Iff.rfl⟩

/-- The page that a call maps for the user is not the user's. -/
theorem RightsSafe.not_faithful {t : PagingRun} {c : PagingCall} (h : RightsSafe t)
    (hgood : c.Good t) (hc : ¬ c.NoUser) : ¬ RightsFaithful (pagingRunStep t c) := by
  intro hfaithful
  cases c with
  | unmap virtAddr => exact hc trivial
  | map virtAddr physAddr flags page =>
    have safe := h.safe.step hgood.2
    have dir := h.dir.step h.safe hgood.2
    have mapped : (pagingRunStep t (.map virtAddr physAddr flags page)).map (pageOf virtAddr) =
        some (newMapping physAddr flags) := by
      rw [hgood.1.map]
      exact Function.update_self _ _ _
    have asked : flags.getLsbD 2 = true := (and_pageUser_iff flags).mp hc
    have granted := (hfaithful _ _ mapped).1
    rw [← safe.walk] at mapped
    rw [and_pageUser_iff, and_pageUser_iff, (safe.sound.rights_of_walk dir mapped).2,
      setWidth_flags _ (by decide), newMapping_flags physAddr flags (by decide) (by decide),
      asked] at granted
    exact Bool.false_ne_true (granted.mpr rfl)

/-- In every run of successful map and unmap calls from an empty directory, the processor grants
every mapped page the rights of its mapping in every state exactly when no call maps a page for the
user. -/
theorem rights_faithful_iff {memory : UIntPtr → PageEntry} {page : UIntPtr}
    {calls : List PagingCall} (hpage : page ≠ null) (haligned : pmmIsPageAligned page = true)
    (hgood : EveryStep pagingRunStep (fun t c => c.Good t) (pagingRunStart memory page) calls) :
    EveryState pagingRunStep RightsFaithful (pagingRunStart memory page) calls ↔
      EveryStep pagingRunStep (fun _ c => c.NoUser) (pagingRunStart memory page) calls := by
  have start : PagingSafe (pagingRunStart memory page) := pagingSafe_start hpage haligned
  have dir : DirFlags (pagingRunStart memory page).paging := by
    intro i t ht
    have zero : (pagingRunStart memory page).paging.frames
        (pagingRunStart memory page).paging.dir i = 0 := pagingInit_empty hpage haligned i
    rw [zero] at ht
    cases ht
  exact everyState_iff_within (fun t c h hg hc => RightsSafe.step h hg hc)
    (fun t h => h.faithful) (fun t c h hg hc => h.not_faithful hg hc)
    ⟨start, dir, fun v m hm => absurd hm.symm (Option.some_ne_none m)⟩ hgood

/-- A writable page in a new table, a page beside it that is not, and the first one unmapped. -/
theorem rights_faithful_beside :
    EveryState pagingRunStep RightsFaithful (pagingRunStart (fun _ => 0xFFFFFFFF) 0x1000)
        [.map 0x400000 0x7000 2 0x2000, .map 0x401000 0x8000 0 null, .unmap 0x400000] ↔
      EveryStep pagingRunStep (fun _ c => c.NoUser) (pagingRunStart (fun _ => 0xFFFFFFFF) 0x1000)
        [.map 0x400000 0x7000 2 0x2000, .map 0x401000 0x8000 0 null, .unmap 0x400000] :=
  rights_faithful_iff (by decide) (by decide)
    ⟨⟨by decide, .inr ⟨by decide,
      pagingInit_unoccupied (by decide) (by decide) (by decide)⟩⟩,
      ⟨by decide, .inl rfl⟩, ⟨by decide, trivial⟩, trivial⟩

/-- A page mapped for the user at a directory without tables: the walk does not grant it. -/
theorem rights_not_faithful :
    EveryStep pagingRunStep (fun t c => c.Good t) (pagingRunStart (fun _ => 0) 0x1000)
        [.map 0x400000 0x7000 4 0x2000] ∧
      ¬ RightsFaithful (runFrom pagingRunStep (pagingRunStart (fun _ => 0) 0x1000)
        [.map 0x400000 0x7000 4 0x2000]) := by
  refine ⟨⟨⟨by decide, .inr ⟨by decide,
    pagingInit_unoccupied (by decide) (by decide) (by decide)⟩⟩, trivial⟩, fun h => ?_⟩
  have user := (h 0x400 (newMapping 0x7000 4) (by decide)).1
  revert user
  decide

end Unics
