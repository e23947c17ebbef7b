import Mathlib.Logic.Function.Basic
import Unics.Laws.Paging.Frames
import Unics.Lib.Run

/-!
# Paging refines a partial map

What the paging driver is for: a partial map from virtual pages to frames and their flags
(`PageMap`). Mapping a page inserts, unmapping one removes, and the address of a page is looked up.
The driver keeps the map in a directory and in tables that it makes where they are missing, and
`paging_refines_map` says that over every run the two agree, as long as the allocator hands out
frames that are not in use.

`Paging.walk` reads the tables as the processor does, and each call has one theorem that says what
becomes of the walk. The frames in use are kept apart by `PagingSound`.
-/

namespace Unics

open Unics.Lib

/-! ## The map -/

/-- What a virtual page is mapped to. -/
structure PageMapping where
  phys : UIntPtr
  flags : BitVec 12
  deriving DecidableEq, Repr

abbrev PageMap := BitVec 20 → Option PageMapping

/-- What a map call inserts. -/
def newMapping (physAddr : UIntPtr) (flags : BitVec 32) : PageMapping :=
  { phys := physAddr, flags := flags.setWidth 12 ||| 1 }

/-- The mapping in an entry of a table. -/
def PageEntry.mapping (entry : PageEntry) : Option PageMapping :=
  if entry &&& pagePresent = 0 then none
  else some { phys := PageEntry.address entry, flags := entry.setWidth 12 }

/-- The mapping of a virtual page, as the processor reads it. -/
def Paging.walk (s : Paging) : PageMap := fun v =>
  let entry := s.entry s.currentPageDirectory ((dirPart v).setWidth 32)
  if entry &&& pagePresent = 0 then none
  else PageEntry.mapping (s.entry (PageEntry.address entry) ((tablePart v).setWidth 32))

/-- A frame that the directory or a table occupies. -/
def Paging.Occupied (s : Paging) (page : UIntPtr) : Prop :=
  page = s.currentPageDirectory ∨
    ∃ i : BitVec 10, s.entry s.currentPageDirectory (i.setWidth 32) &&& pagePresent ≠ 0 ∧
      PageEntry.address (s.entry s.currentPageDirectory (i.setWidth 32)) = page

/-! ## Runs -/

/-- A call that changes the tables, with what the allocator would answer it. -/
inductive PagingCall where
  | map (virtAddr physAddr : UIntPtr) (flags : BitVec 32) (page : UIntPtr)
  | unmap (virtAddr : UIntPtr)

/-- What a call leaves and returns. -/
def PagingCall.run (s : Paging) : PagingCall → Paging × Bool
  | .map virtAddr physAddr flags page => pagingMapPage s virtAddr physAddr flags page
  | .unmap virtAddr => pagingUnmapPage s virtAddr

/-- What a call that returns true does to the map. -/
def PagingCall.update (map : PageMap) : PagingCall → PageMap
  | .map virtAddr physAddr flags _ =>
    Function.update map (pageOf virtAddr) (some (newMapping physAddr flags))
  | .unmap virtAddr => Function.update map (pageOf virtAddr) none

/-- A run so far: the tables, and the map that the calls have made by their answers. -/
structure PagingRun where
  paging : Paging
  map : PageMap

/-- The start of a run: the directory is the page that `paging_init` was given. -/
def pagingRunStart (memory : UIntPtr → PageEntry) (page : UIntPtr) : PagingRun :=
  { paging := pagingInit memory page, map := fun _ => none }

/-- One call of a run. A call that returns false leaves the map alone. -/
def pagingRunStep (t : PagingRun) (c : PagingCall) : PagingRun :=
  { paging := (c.run t.paging).1
    map := if (c.run t.paging).2 then c.update t.map else t.map }

/-- The allocator answers null, or with a page that is not in use. -/
def PagingAllocates (t : PagingRun) : PagingCall → Prop
  | .map _ _ _ page =>
    page = null ∨ pmmIsPageAligned page = true ∧ ¬ t.paging.Occupied page
  | .unmap _ => True

/-- The tables hold the map, and `paging_get_physical` reads it: the frame of every address in a
mapped page, 0 elsewhere. -/
def PagingRefines (t : PagingRun) : Prop :=
  t.paging.walk = t.map ∧
    ∀ addr, pagingGetPhysical t.paging addr =
      match t.map (pageOf addr) with
      | some m => m.phys
      | none => 0

/-- What a call answers. An unmapping returns true exactly when the page was mapped, and a mapping
only for the addresses of a page and of a frame. -/
def PagingAnswers (t : PagingRun) (c : PagingCall) : Prop :=
  match c with
  | .map virtAddr physAddr _ _ =>
    (c.run t.paging).2 = true →
      pmmIsPageAligned virtAddr = true ∧ pmmIsPageAligned physAddr = true
  | .unmap virtAddr =>
    (c.run t.paging).2 = true ↔
      pmmIsPageAligned virtAddr = true ∧ t.map (pageOf virtAddr) ≠ none

/-! ## Entries -/

theorem pageOf_or_low {x y : BitVec 32} (h : y.toNat < 4096) : pageOf (x ||| y) = pageOf x := by
  have union : (x.toNat ||| y.toNat) / 2 ^ 12 = x.toNat / 2 ^ 12 ||| y.toNat / 2 ^ 12 := by
    rw [← Nat.shiftRight_eq_div_pow, Nat.shiftRight_or_distrib, Nat.shiftRight_eq_div_pow,
      Nat.shiftRight_eq_div_pow]
  have low : y.toNat / 2 ^ 12 = 0 := by omega
  rw [low, Nat.or_zero] at union
  refine BitVec.eq_of_toNat_eq ?_
  rw [toNat_pageOf, toNat_pageOf, BitVec.toNat_or]
  exact union

theorem present_or (x : BitVec 32) : (x ||| pagePresent) &&& pagePresent ≠ 0 := by
  intro h
  have bit := congrArg (fun b => b.getLsbD 0) h
  simp [pagePresent] at bit

theorem frameAddr_low (f : BitVec 20) : (frameAddr f).setWidth 12 = 0#12 := by
  refine BitVec.eq_of_toNat_eq ?_
  rw [BitVec.toNat_setWidth, toNat_frameAddr]
  exact Nat.mul_mod_right 4096 f.toNat

/-- How the entries of the directory and of the tables are read. -/
def pagingFormat : TableFormat (BitVec 20) PageEntry PageMapping where
  next entry := if entry &&& pagePresent = 0 then none else some (pageOf entry)
  leaf := PageEntry.mapping

/-- The entry that a map call writes. -/
theorem mapping_new {physAddr : UIntPtr} (h : pmmIsPageAligned physAddr = true)
    (flags : BitVec 32) :
    PageEntry.mapping (physAddr ||| (flags &&& 0xFFF) ||| pagePresent) =
      some (newMapping physAddr flags) := by
  have low : (flags &&& 0xFFF).toNat < 4096 := by
    rw [toNat_and_mask (k := 12) rfl]
    exact Nat.mod_lt _ (by decide)
  have address : PageEntry.address (physAddr ||| (flags &&& 0xFFF) ||| pagePresent) = physAddr := by
    rw [address_eq, pageOf_or_low (by decide), pageOf_or_low low, frameAddr_pageOf h]
  have bits : (physAddr ||| (flags &&& 0xFFF) ||| pagePresent).setWidth 12 =
      flags.setWidth 12 ||| 1 := by
    rw [← frameAddr_pageOf h, BitVec.setWidth_or, BitVec.setWidth_or, BitVec.setWidth_and,
      frameAddr_low, BitVec.zero_or]
    congr 1
    exact BitVec.and_allOnes
  rw [PageEntry.mapping, if_neg (present_or _), address, bits]
  rfl

/-- The entry that a new table is entered with. -/
theorem next_new (page : UIntPtr) :
    pagingFormat.next (page ||| pagePresent ||| pageWritable) = some (pageOf page) := by
  have present : (page ||| pagePresent ||| pageWritable) &&& pagePresent ≠ 0 := by
    rw [BitVec.or_assoc, BitVec.or_comm pagePresent, ← BitVec.or_assoc]
    exact present_or _
  show (if _ then _ else _) = _
  rw [if_neg present, pageOf_or_low (by decide), pageOf_or_low (by decide)]

/-! ## The invariant -/

/-- The frame of the directory. -/
def Paging.dir (s : Paging) : BitVec 20 := pageOf s.currentPageDirectory

/-- The directory and the tables are different frames, and no table is at address 0. -/
structure PagingSound (s : Paging) : Prop where
  aligned : frameAddr s.dir = s.currentPageDirectory
  sound : pagingFormat.Sound s.frames s.dir
  nonnull : ∀ i t, pagingFormat.next (s.frames s.dir i) = some t → frameAddr t ≠ null

section Sound

variable {s : Paging}

/-- The entry of the directory that an address goes through. -/
theorem PagingSound.entry_dir (h : PagingSound s) (i : BitVec 10) :
    s.entry s.currentPageDirectory (i.setWidth 32) = s.frames s.dir i := by
  rw [Paging.frames, h.aligned]

theorem PagingSound.walk_eq (h : PagingSound s) (v : BitVec 20) :
    s.walk v = pagingFormat.lookup s.frames s.dir (dirPart v) (tablePart v) := by
  unfold Paging.walk TableFormat.lookup
  dsimp only
  rw [h.entry_dir, address_eq]
  show _ = (if _ then none else some _).bind _
  split
  · rfl
  · rfl

theorem PagingSound.occupied_iff (h : PagingSound s) {f : BitVec 20} :
    s.Occupied (frameAddr f) ↔ pagingFormat.InUse s.frames s.dir f := by
  have same : ∀ {g g' : BitVec 20}, frameAddr g = frameAddr g' ↔ g = g' := by
    intro g g'
    rw [← BitVec.toNat_inj, toNat_frameAddr, toNat_frameAddr, ← BitVec.toNat_inj]
    omega
  refine or_congr ?_ (exists_congr fun i => ?_)
  · rw [← h.aligned, same]
  · rw [h.entry_dir, address_eq, same]
    show _ ↔ (if _ then none else some _) = _
    split
    · next habsent => exact ⟨fun hp => absurd habsent hp.1, nofun⟩
    · next hpresent =>
      exact ⟨fun hp => congrArg some hp.2, fun heq => ⟨hpresent, Option.some.inj heq⟩⟩

/-! ## Finding a table -/

/-- The table of an address, if the directory has one. -/
def Paging.tableOf (s : Paging) (virtAddr : UIntPtr) : Option (BitVec 20) :=
  pagingFormat.next (s.frames s.dir (dirPart (pageOf virtAddr)))

/-- The function's first two lines: the entry, and the table it leads to. -/
theorem PagingSound.getOrCreate_of_table (h : PagingSound s) {virtAddr : UIntPtr} {t : BitVec 20}
    (ht : s.tableOf virtAddr = some t) (create : Bool) (page : UIntPtr) :
    getOrCreatePageTable s s.currentPageDirectory virtAddr create page = (s, frameAddr t) := by
  unfold getOrCreatePageTable
  dsimp only
  rw [pdIndex_eq, h.entry_dir, address_eq]
  have ht : (if _ then none else some _) = some t := ht
  split at ht
  · cases ht
  · next hpresent =>
    rw [if_pos hpresent, Option.some.inj ht]

theorem PagingSound.getOrCreate_of_none (h : PagingSound s) {virtAddr : UIntPtr}
    (ht : s.tableOf virtAddr = none) (create : Bool) (page : UIntPtr) :
    getOrCreatePageTable s s.currentPageDirectory virtAddr create page =
      if create = false ∨ page = null then (s, null)
      else ((s.clearPage page).setEntry s.currentPageDirectory (pdIndex virtAddr)
        (page ||| pagePresent ||| pageWritable), page) := by
  unfold getOrCreatePageTable
  dsimp only
  rw [pdIndex_eq, h.entry_dir]
  have ht : (if _ then none else some _) = none := ht
  split at ht
  · next habsent =>
    rw [if_neg (not_not.mpr habsent)]
    cases create
    · exact (if_pos (.inl rfl)).symm
    · by_cases hpage : page = null
      · rw [if_pos (Or.inr hpage)]
        exact if_pos hpage
      · rw [if_neg (not_or.mpr ⟨Bool.noConfusion, hpage⟩)]
        exact if_neg hpage
  · cases ht

/-- The memory after a table is made: its frame cleared, and entered in the directory. -/
theorem PagingSound.newTable_frames (h : PagingSound s) {page : UIntPtr}
    (haligned : pmmIsPageAligned page = true) (virtAddr : UIntPtr) :
    ((s.clearPage page).setEntry s.currentPageDirectory (pdIndex virtAddr)
        (page ||| pagePresent ||| pageWritable)).frames =
      enterTable s.frames s.dir (pageOf page) (dirPart (pageOf virtAddr)) 0
        (page ||| pagePresent ||| pageWritable) := by
  rw [pdIndex_eq, ← h.aligned, setEntry_frames]
  conv_lhs => rw [← frameAddr_pageOf haligned, clearPage_frames, frameAddr_pageOf haligned]
  rfl

/-- A table that the function makes: the structure stays sound, the map is the same, and the address
has the table. -/
theorem PagingSound.newTable (h : PagingSound s) {virtAddr page : UIntPtr}
    (hnone : s.tableOf virtAddr = none) (hpage : page ≠ null)
    (haligned : pmmIsPageAligned page = true) (hfree : ¬ s.Occupied page) {s' : Paging}
    (hs' : s' = (s.clearPage page).setEntry s.currentPageDirectory (pdIndex virtAddr)
      (page ||| pagePresent ||| pageWritable)) :
    PagingSound s' ∧ s'.walk = s.walk ∧ s'.tableOf virtAddr = some (pageOf page) := by
  have fresh : ¬ pagingFormat.InUse s.frames s.dir (pageOf page) := by
    rw [← h.occupied_iff, frameAddr_pageOf haligned]
    exact hfree
  have dir : s'.dir = s.dir := by
    rw [hs']
    rfl
  have pd : s'.currentPageDirectory = s.currentPageDirectory := by
    rw [hs']
    rfl
  have frames : s'.frames = enterTable s.frames s.dir (pageOf page) (dirPart (pageOf virtAddr)) 0
      (page ||| pagePresent ||| pageWritable) := by
    rw [hs']
    exact h.newTable_frames haligned virtAddr
  have zero : pagingFormat.leaf 0 = none := rfl
  have sound : PagingSound s' := by
    refine ⟨?_, ?_, fun i t ht => ?_⟩
    · rw [dir, pd, h.aligned]
    · rw [frames, dir]
      exact h.sound.entered fresh (next_new page)
    · rw [frames, dir, TableFormat.dir_enterTable fresh] at ht
      split at ht
      · rw [next_new] at ht
        obtain rfl := Option.some.inj ht
        rw [frameAddr_pageOf haligned]
        exact hpage
      · exact h.nonnull i t ht
  refine ⟨sound, ?_, ?_⟩
  · funext v
    rw [sound.walk_eq, h.walk_eq, frames, dir]
    exact h.sound.lookup_entered fresh hnone (next_new page) zero _ _
  · rw [Paging.tableOf, frames, dir, TableFormat.dir_enterTable fresh, if_pos rfl, next_new]

/-- An entry written to the table of an address: the map changes at its page. -/
theorem PagingSound.setEntry (h : PagingSound s) {virtAddr : UIntPtr} {t : BitVec 20}
    (ht : s.tableOf virtAddr = some t) (entry : PageEntry) :
    PagingSound (s.setEntry (frameAddr t) (ptIndex virtAddr) entry) ∧
      (s.setEntry (frameAddr t) (ptIndex virtAddr) entry).walk =
        Function.update s.walk (pageOf virtAddr) (PageEntry.mapping entry) := by
  have frames : (s.setEntry (frameAddr t) (ptIndex virtAddr) entry).frames =
      setWord s.frames t (tablePart (pageOf virtAddr)) entry := by
    rw [ptIndex_eq, setEntry_frames]
  have sound : PagingSound (s.setEntry (frameAddr t) (ptIndex virtAddr) entry) := by
    refine ⟨h.aligned, ?_, fun i t' ht' => ?_⟩
    · rw [frames]
      exact h.sound.setLeaf ht
    · rw [frames] at ht'
      have ht' : pagingFormat.next (setWord s.frames t _ entry s.dir i) = some t' := ht'
      rw [h.sound.dir_setLeaf ht] at ht'
      exact h.nonnull i t' ht'
  refine ⟨sound, funext fun v => ?_⟩
  rw [sound.walk_eq, frames]
  refine (h.sound.lookup_setLeaf ht (dirPart v) (tablePart v)).trans ?_
  by_cases hv : v = pageOf virtAddr
  · rw [if_pos (parts_inj.mpr hv), hv, Function.update_self]
    rfl
  · rw [if_neg fun hp => hv (parts_inj.mp hp), Function.update_of_ne hv, h.walk_eq]

/-! ## The calls -/

/-- A call keeps the structure sound, and changes the map as its answer says. -/
structure PagingKept (s : Paging) (c : PagingCall) : Prop where
  sound : PagingSound (c.run s).1
  walk : (c.run s).1.walk = if (c.run s).2 then c.update s.walk else s.walk

theorem PagingSound.mapPage_entry (h : PagingSound s) {virtAddr physAddr pt : UIntPtr}
    {t : BitVec 20} (ht : s.tableOf virtAddr = some t) (hpt : frameAddr t = pt)
    (haligned : pmmIsPageAligned physAddr = true) (flags : BitVec 32) {res : Paging × Bool}
    (hres : (s.setEntry pt (ptIndex virtAddr)
      (physAddr ||| (flags &&& 0xFFF) ||| pagePresent), true) = res) :
    PagingSound res.1 ∧ res.2 = true ∧
      res.1.walk = Function.update s.walk (pageOf virtAddr) (some (newMapping physAddr flags)) := by
  subst hpt hres
  obtain ⟨sound, walk⟩ := h.setEntry ht (physAddr ||| (flags &&& 0xFFF) ||| pagePresent)
  rw [mapping_new haligned] at walk
  exact ⟨sound, rfl, walk⟩

theorem PagingSound.mapPage (h : PagingSound s) {virtAddr physAddr page : UIntPtr}
    (flags : BitVec 32)
    (halloc : page = null ∨ pmmIsPageAligned page = true ∧ ¬ s.Occupied page) :
    PagingKept s (.map virtAddr physAddr flags page) := by
  suffices goal : ∀ res, pagingMapPage s virtAddr physAddr flags page = res →
      PagingSound res.1 ∧ res.1.walk = if res.2 then
        Function.update s.walk (pageOf virtAddr) (some (newMapping physAddr flags)) else s.walk from
    ⟨(goal _ rfl).1, (goal _ rfl).2⟩
  intro res hres
  unfold pagingMapPage at hres
  split at hres
  · subst hres
    exact ⟨h, rfl⟩
  next haligned =>
  rw [Bool.or_eq_true, Bool.not_eq_true', Bool.not_eq_true', not_or, Bool.not_eq_false,
    Bool.not_eq_false] at haligned
  cases ht : s.tableOf virtAddr with
  | some t =>
    rw [h.getOrCreate_of_table ht] at hres
    dsimp only at hres
    rw [if_neg (h.nonnull _ t ht)] at hres
    obtain ⟨sound, ok, walk⟩ := h.mapPage_entry ht rfl haligned.2 flags hres
    rw [ok, walk]
    exact ⟨sound, rfl⟩
  | none =>
    rw [h.getOrCreate_of_none ht] at hres
    by_cases hpage : page = null
    · -- out of memory
      rw [if_pos (Or.inr hpage)] at hres
      subst hres
      exact ⟨h, rfl⟩
    · obtain ⟨hpa, hfree⟩ := halloc.resolve_left hpage
      rw [if_neg (not_or.mpr ⟨Bool.noConfusion, hpage⟩)] at hres
      dsimp only at hres
      rw [if_neg hpage] at hres
      obtain ⟨sound, same, entered⟩ := h.newTable ht hpage hpa hfree rfl
      obtain ⟨after, ok, walk⟩ :=
        sound.mapPage_entry entered (frameAddr_pageOf hpa) haligned.2 flags hres
      rw [ok, walk, same]
      exact ⟨after, rfl⟩

theorem PagingSound.unmapPage (h : PagingSound s) (virtAddr : UIntPtr) :
    PagingKept s (.unmap virtAddr) ∧
      ((pagingUnmapPage s virtAddr).2 = true ↔
        pmmIsPageAligned virtAddr = true ∧ s.walk (pageOf virtAddr) ≠ none) := by
  suffices goal : ∀ res, pagingUnmapPage s virtAddr = res →
      PagingSound res.1 ∧ (res.1.walk = if res.2 then
        Function.update s.walk (pageOf virtAddr) none else s.walk) ∧
      (res.2 = true ↔ pmmIsPageAligned virtAddr = true ∧ s.walk (pageOf virtAddr) ≠ none) from
    ⟨⟨(goal _ rfl).1, (goal _ rfl).2.1⟩, (goal _ rfl).2.2⟩
  intro res hres
  unfold pagingUnmapPage at hres
  split at hres
  · next haligned =>
    subst hres
    rw [Bool.not_eq_true'] at haligned
    exact ⟨h, rfl, iff_of_false nofun fun hp => absurd hp.1 (Bool.eq_false_iff.mp haligned)⟩
  next haligned =>
  rw [Bool.not_eq_true', Bool.not_eq_false] at haligned
  have walk := h.walk_eq (pageOf virtAddr)
  cases ht : s.tableOf virtAddr with
  | none =>
    rw [h.getOrCreate_of_none ht, if_pos (Or.inl rfl)] at hres
    subst hres
    rw [TableFormat.lookup_of_empty ht] at walk
    exact ⟨h, rfl, iff_of_false nofun fun hp => hp.2 walk⟩
  | some t =>
    rw [h.getOrCreate_of_table ht] at hres
    dsimp only at hres
    rw [if_neg (h.nonnull _ t ht)] at hres
    rw [TableFormat.lookup_of_table ht] at walk
    have entry : s.frames t (tablePart (pageOf virtAddr)) =
        s.entry (frameAddr t) (ptIndex virtAddr) := by
      rw [ptIndex_eq]
      rfl
    have walk : s.walk (pageOf virtAddr) = if _ then none else some _ := walk
    rw [entry] at walk
    split at hres
    · next habsent =>
      subst hres
      rw [if_pos habsent] at walk
      exact ⟨h, rfl, iff_of_false nofun fun hp => hp.2 walk⟩
    · next hpresent =>
      subst hres
      rw [if_neg hpresent] at walk
      obtain ⟨sound, after⟩ := h.setEntry ht 0
      refine ⟨sound, after, iff_of_true rfl ⟨haligned, ?_⟩⟩
      rw [walk]
      exact Option.some_ne_none _

theorem PagingSound.getPhysical (h : PagingSound s) (addr : UIntPtr) :
    pagingGetPhysical s addr =
      match s.walk (pageOf addr) with
      | some m => m.phys
      | none => 0 := by
  have walk := h.walk_eq (pageOf addr)
  unfold pagingGetPhysical
  dsimp only
  cases ht : s.tableOf addr with
  | none =>
    rw [TableFormat.lookup_of_empty ht] at walk
    rw [walk, h.getOrCreate_of_none ht, if_pos (Or.inl rfl)]
    rfl
  | some t =>
    rw [TableFormat.lookup_of_table ht] at walk
    have entry : s.frames t (tablePart (pageOf addr)) = s.entry (frameAddr t) (ptIndex addr) := by
      rw [ptIndex_eq]
      rfl
    have walk : s.walk (pageOf addr) = if _ then none else some _ := walk
    rw [walk, entry, h.getOrCreate_of_table ht]
    dsimp only
    rw [if_neg (h.nonnull _ t ht)]
    split <;> rfl

end Sound

/-! ## The refinement -/

/-- What a run keeps. -/
structure PagingSafe (t : PagingRun) : Prop where
  sound : PagingSound t.paging
  walk : t.paging.walk = t.map

section Start

variable {memory : UIntPtr → PageEntry} {page : UIntPtr}

/-- `paging_init` clears the page that it was given and takes it as the directory. -/
theorem pagingInit_eq (hpage : page ≠ null) :
    pagingInit memory page =
      { Paging.clearPage { memory := memory, currentPageDirectory := null } page with
        currentPageDirectory := page } := if_neg hpage

theorem pagingInit_dir (hpage : page ≠ null) : (pagingInit memory page).dir = pageOf page := by
  rw [pagingInit_eq hpage]
  rfl

theorem pagingInit_empty (hpage : page ≠ null) (haligned : pmmIsPageAligned page = true)
    (i : BitVec 10) :
    (pagingInit memory page).frames (pagingInit memory page).dir i = 0 := by
  have frames : (pagingInit memory page).frames =
      fillFrame (Paging.frames { memory := memory, currentPageDirectory := null })
        (pageOf page) 0 := by
    rw [← clearPage_frames, frameAddr_pageOf haligned, pagingInit_eq hpage]
    rfl
  rw [frames, pagingInit_dir hpage, fillFrame, if_pos rfl]

theorem pagingSafe_start (hpage : page ≠ null) (haligned : pmmIsPageAligned page = true) :
    PagingSafe (pagingRunStart memory page) := by
  have empty : ∀ i, pagingFormat.next
      ((pagingInit memory page).frames (pagingInit memory page).dir i) = none := by
    intro i
    rw [pagingInit_empty hpage haligned]
    rfl
  have sound : PagingSound (pagingInit memory page) := by
    refine ⟨?_, TableFormat.sound_of_empty empty, fun i t ht => ?_⟩
    · rw [pagingInit_dir hpage, frameAddr_pageOf haligned, pagingInit_eq hpage]
    · rw [empty i] at ht
      cases ht
  exact ⟨sound, funext fun v => (sound.walk_eq v).trans (TableFormat.lookup_of_empty (empty _))⟩

/-- In an empty directory no frame is in use but its own. -/
theorem pagingInit_unoccupied (hpage : page ≠ null) (haligned : pmmIsPageAligned page = true)
    {p : UIntPtr} (hp : p ≠ page) : ¬ (pagingInit memory page).Occupied p := by
  rintro (heq | ⟨i, hpresent, -⟩)
  · rw [pagingInit_eq hpage] at heq
    exact hp heq
  · have start : PagingSound (pagingInit memory page) := (pagingSafe_start hpage haligned).sound
    rw [start.entry_dir, pagingInit_empty hpage haligned] at hpresent
    exact hpresent rfl

end Start

section Run

variable {t : PagingRun} {c : PagingCall}

theorem PagingSafe.kept (h : PagingSafe t) (halloc : PagingAllocates t c) :
    PagingKept t.paging c := by
  cases c with
  | map virtAddr physAddr flags page => exact h.sound.mapPage flags halloc
  | unmap virtAddr => exact (h.sound.unmapPage virtAddr).1

theorem PagingSafe.step (h : PagingSafe t) (halloc : PagingAllocates t c) :
    PagingSafe (pagingRunStep t c) := by
  have kept := h.kept halloc
  refine ⟨kept.sound, kept.walk.trans ?_⟩
  rw [h.walk]
  rfl

theorem PagingSafe.refines (h : PagingSafe t) : PagingRefines t := by
  refine ⟨h.walk, fun addr => ?_⟩
  rw [h.sound.getPhysical, h.walk]

theorem PagingSafe.answers (h : PagingSafe t) (c : PagingCall) : PagingAnswers t c := by
  cases c with
  | map virtAddr physAddr flags page =>
    intro hok
    have hok : (pagingMapPage t.paging virtAddr physAddr flags page).2 = true := hok
    unfold pagingMapPage at hok
    split at hok
    · cases hok
    · next haligned =>
      rw [Bool.or_eq_true, Bool.not_eq_true', Bool.not_eq_true', not_or, Bool.not_eq_false,
        Bool.not_eq_false] at haligned
      exact haligned
  | unmap virtAddr =>
    have answer := (h.sound.unmapPage virtAddr).2
    rw [h.walk] at answer
    exact answer

end Run

/-- In every run of map and unmap calls from an empty directory, as long as the allocator answers
null or with a page that is not in use: the tables hold the map that the calls have made by their
answers, in every state, `paging_get_physical` reads it, and an unmapping returns true exactly when
the page was mapped. -/
theorem paging_refines_map {memory : UIntPtr → PageEntry} {page : UIntPtr} {calls : List PagingCall}
    (hpage : page ≠ null) (haligned : pmmIsPageAligned page = true)
    (halloc : EveryStep pagingRunStep PagingAllocates (pagingRunStart memory page) calls) :
    EveryState pagingRunStep PagingRefines (pagingRunStart memory page) calls ∧
      EveryStep pagingRunStep PagingAnswers (pagingRunStart memory page) calls := by
  have start : PagingSafe (pagingRunStart memory page) := pagingSafe_start hpage haligned
  exact ⟨halloc.everyState (fun t c h => h.step) (fun t h => h.refines) start,
    halloc.mono (fun t c h => h.step) (fun t c h _ => h.answers c) start⟩

/-- A page mapped through a new table, a mapping that finds no memory, and the page unmapped. -/
theorem paging_refines_map_short :
    EveryState pagingRunStep PagingRefines (pagingRunStart (fun _ => 0xFFFFFFFF) 0x1000)
        [.map 0x400000 0x7000 2 0x2000, .map 0x800000 0x8000 0 null, .unmap 0x400000] ∧
      EveryStep pagingRunStep PagingAnswers (pagingRunStart (fun _ => 0xFFFFFFFF) 0x1000)
        [.map 0x400000 0x7000 2 0x2000, .map 0x800000 0x8000 0 null, .unmap 0x400000] := by
  refine paging_refines_map (by decide) (by decide)
    ⟨.inr ⟨by decide, ?_⟩, .inl rfl, trivial, trivial⟩
  exact pagingInit_unoccupied (by decide) (by decide) (by decide)

end Unics
