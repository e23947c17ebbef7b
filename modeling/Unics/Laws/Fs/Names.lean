import Unics.Laws.Fs.Tree

/-!
# Names

The lookup scans the slots below `file_count`, and a create fills the lowest free slot. So a lookup
sees every entry exactly when the live slots are the first ones, which `Compact` says: creates keep
that, and a delete keeps it exactly when it clears the last live slot. `fs_list` and the emptiness
check of `fs_delete` scan all 64 slots and see the entries that the lookup misses.

`lookup_complete_iff` and `unique_names_iff` are the exact conditions over whole runs, for the
lookup to be complete and for the names of siblings to be distinct.
-/

namespace Unics

open Unics.Lib

/-! ## Properties of a state -/

/-- A lookup in a live directory returns a live entry of that name, and null only when there is
none. -/
def LookupComplete (s : Fs) : Prop :=
  ∀ dir d name, s.live dir = some d → d.isDir = true →
    (∀ i, fsFindFileInDir s (some name) (some dir) = some i → s.Entry dir name i) ∧
    (fsFindFileInDir s (some name) (some dir) = none ↔ ∀ i, ¬ s.Entry dir name i)

/-- Two live entries with the same parent and name are the same. -/
def UniqueNames (s : Fs) : Prop :=
  ∀ i j f g, s.live i = some f → s.live j = some g → f.parent = g.parent → f.name = g.name → i = j

/-- The invariant of names: the tree's, and every entry but the root has a valid and unique name. -/
structure FsNamed (s : Fs) : Prop where
  tree : FsTree s
  valid : ∀ i f, s.live i = some f → i ≠ 0 → fsValidateFilename (some f.name) = .success
  unique : UniqueNames s

theorem fsNamed_init (s : Fs) : FsNamed (fsInit s) where
  tree := fsTree_init s
  valid _ _ hf hi := absurd (fsInit_only hf).1 hi
  unique _ _ _ _ hf hg _ _ := (fsInit_only hf).1.trans (fsInit_only hg).1.symm

theorem UniqueNames.entry_unique {s : Fs} (h : UniqueNames s) {dir i j : Slot} {name : CString}
    (hi : s.Entry dir name i) (hj : s.Entry dir name j) : i = j := by
  obtain ⟨f, hf, hfpar, hfname⟩ := hi
  obtain ⟨g, hg, hgpar, hgname⟩ := hj
  exact h i j f g hf hg (hfpar.trans hgpar.symm) (hfname.trans hgname.symm)

/-- The name of an entry in a directory is valid: only the root has no parent. -/
theorem FsNamed.entry_valid {s : Fs} (h : FsNamed s) {dir i : Slot} {name : CString}
    (hi : s.Entry dir name i) : i ≠ 0 ∧ fsValidateFilename (some name) = .success := by
  obtain ⟨f, hf, hpar, rfl⟩ := hi
  have top := h.tree.tree.ne_root hf hpar
  exact ⟨top, h.valid i f hf top⟩

/-! ## The lookup and the live slots -/

/-- The lookup is complete exactly when the live slots are the first ones. -/
theorem FsNamed.lookupComplete_iff {s : Fs} (h : FsNamed s) :
    LookupComplete s ↔ Compact (occupied s.live) := by
  rw [compact_iff_lt]
  constructor
  · intro hl i hi
    obtain ⟨f, hf⟩ := Option.isSome_iff_exists.mp (mem_occupied.mp hi)
    rw [← h.tree.count]
    by_cases hroot : i = 0
    · subst hroot
      rw [h.tree.count]
      exact Finset.card_pos.mpr ⟨0, hi⟩
    · -- the entry's own name, looked up in its directory, must find the entry
      obtain ⟨dir, d, hpar, hd, hdir⟩ := h.tree.tree.parents i f hf hroot
      have entry : s.Entry dir f.name i := ⟨f, hf, hpar, rfl⟩
      obtain ⟨-, hnone⟩ := hl dir d f.name hd hdir
      cases hres : fsFindFileInDir s (some f.name) (some dir) with
      | none => exact absurd entry (hnone.mp hres i)
      | some j =>
        obtain ⟨hlt, hj⟩ := fsFindFileInDir_eq_some hres
        exact h.unique.entry_unique hj entry ▸ hlt
  · intro hc dir d name _ _
    refine ⟨fun i hi => (fsFindFileInDir_eq_some hi).2, ?_⟩
    rw [fsFindFileInDir_eq_none]
    refine forall_congr' fun i => ⟨fun hhid hi => ?_, fun hno hi => absurd hi hno⟩
    obtain ⟨f, hf, -⟩ := id hi
    have := hc i (mem_occupied.mpr (by rw [hf]; rfl))
    rw [← h.tree.count] at this
    exact absurd (hhid hi) (Nat.not_le.mpr this)

/-! ## One call -/

/-- No entry of the current directory has the name of the new one in a slot that the lookup does not
scan. -/
def NoHidden (s : Fs) (c : FsCall) : Prop :=
  ∀ name dir i, c.makes = some name → s.currentDir = some dir → s.Entry dir name i →
    i.val < s.fileCount

/-- The file that a delete of that name takes away, when names are unique. -/
structure Deletable (s : Fs) (name : CString) (i : Slot) : Prop where
  entry : ∃ dir, s.currentDir = some dir ∧ s.Entry dir name i
  closed : (s.files i).isOpen = false
  leaf : (s.files i).isDir = true → ∀ j g, s.live j = some g → g.parent ≠ some i

/-- A delete takes away the last live slot. -/
def DeletesLast (s : Fs) (c : FsCall) : Prop :=
  ∀ name i, c.removes = some name → Deletable s name i → ∀ j g, s.live j = some g → j ≤ i

/-- A call that adds no hidden name keeps the invariant. -/
theorem FsNamed.step {s : Fs} (h : FsNamed s) {c : FsCall} (hhid : NoHidden s c) :
    FsNamed (fsStep s c) := by
  have effect := fsStep_effect s c
  have tree := h.tree.step c
  cases effect with
  | idle live | enter _ live =>
    exact ⟨tree, by rw [live]; exact h.valid, by rw [UniqueNames, live]; exact h.unique⟩
  | @touch i f g old change live =>
    have same := change.sameNode
    -- every entry stands for the old entry of its slot
    have back : ∀ k e, (fsStep s c).live k = some e →
        ∃ e', s.live k = some e' ∧ e.parent = e'.parent ∧ e.name = e'.name := by
      intro k e he
      rcases filled_iff.mp (live ▸ he) with ⟨rfl, rfl⟩ | ⟨_, he⟩
      · exact ⟨f, old, same.parent, same.name⟩
      · exact ⟨e, he, rfl, rfl⟩
    refine ⟨tree, fun k e he hk => ?_, fun k l e e' he he' hpar hname => ?_⟩
    · obtain ⟨d, hd, -, hname⟩ := back k e he
      rw [hname]
      exact h.valid k d hd hk
    · obtain ⟨d, hd, hdpar, hdname⟩ := back k e he
      obtain ⟨d', hd', hdpar', hdname'⟩ := back l e' he'
      exact h.unique k l d d' hd hd' (hdpar.symm.trans (hpar.trans hdpar'))
        (hdname.symm.trans (hname.trans hdname'))
  | @insert i name f named valid fresh slot new live =>
    obtain ⟨dir, -, hdir, -⟩ := h.tree.current
    -- no live entry has the new entry's parent and name
    have alone : ∀ k e, s.live k = some e → e.parent = f.parent → e.name ≠ f.name := by
      intro k e he hpar hname
      have entry : s.Entry dir name k :=
        ⟨e, he, hpar.trans (new.parent.trans hdir), hname.trans new.name⟩
      rw [fsFindFile, hdir, fsFindFileInDir_eq_none] at fresh
      exact absurd (hhid name dir k named hdir entry) (Nat.not_lt.mpr (fresh k entry))
    refine ⟨tree, fun k e he hk => ?_, fun k l e e' he he' hpar hname => ?_⟩
    · rcases filled_iff.mp (live ▸ he) with ⟨rfl, rfl⟩ | ⟨_, he⟩
      · rw [new.name]
        exact valid
      · exact h.valid k e he hk
    · rcases filled_iff.mp (live ▸ he) with ⟨rfl, rfl⟩ | ⟨_, he⟩ <;>
        rcases filled_iff.mp (live ▸ he') with ⟨rfl, rfl⟩ | ⟨_, he'⟩
      · rfl
      · exact absurd hname.symm (alone l e' he' hpar.symm)
      · exact absurd hname (alone k e he hpar)
      · exact h.unique k l e e' he he' hpar hname
  | remove _ _ _ _ _ _ live =>
    refine ⟨tree, fun k e he hk => ?_, fun k l e e' he he' hpar hname => ?_⟩
    · exact h.valid k e (cleared_iff.mp (live ▸ he)).2 hk
    · exact h.unique k l e e' (cleared_iff.mp (live ▸ he)).2 (cleared_iff.mp (live ▸ he')).2 hpar
        hname

theorem fsInit_compact (s : Fs) : Compact (occupied (fsInit s).live) := by
  refine compact_iff_lt.mpr fun i hi => ?_
  obtain ⟨f, hf⟩ := Option.isSome_iff_exists.mp (mem_occupied.mp hi)
  obtain ⟨rfl, -⟩ := fsInit_only hf
  exact Finset.card_pos.mpr ⟨0, hi⟩

/-- An entry in a slot that the lookup scans is what the lookup finds. -/
theorem FsNamed.find_entry {s : Fs} (h : FsNamed s) {dir i : Slot} {name : CString}
    (hdir : s.currentDir = some dir) (hi : s.Entry dir name i) (hlt : i.val < s.fileCount) :
    fsFindFile s (some name) = some i := by
  rw [fsFindFile, hdir]
  cases hres : fsFindFileInDir s (some name) (some dir) with
  | none => exact absurd (fsFindFileInDir_eq_none.mp hres i hi) (Nat.not_le.mpr hlt)
  | some j => rw [h.unique.entry_unique (fsFindFileInDir_eq_some hres).2 hi]

/-- In a compact table every entry is scanned. -/
theorem FsNamed.entry_lt {s : Fs} (h : FsNamed s) (hc : Compact (occupied s.live)) {dir i : Slot}
    {name : CString} (hi : s.Entry dir name i) : i.val < s.fileCount := by
  obtain ⟨f, hf, -⟩ := hi
  rw [h.tree.count]
  exact (hc i).mp (mem_occupied.mpr (by rw [hf]; rfl))

/-- A call keeps the live slots the first ones, unless it deletes one that is not the last. -/
theorem compact_step {s : Fs} (hc : Compact (occupied s.live)) {c : FsCall}
    (hlast : DeletesLast s c) : Compact (occupied (fsStep s c).live) := by
  cases fsStep_effect s c with
  | idle live | enter _ live => rw [live]; exact hc
  | touch old _ live => rw [live, occupied_replace old]; exact hc
  | @insert i _ _ _ _ _ slot _ live =>
    obtain ⟨hfree, hlow⟩ := Fin.find?_eq_some_iff.mp slot
    rw [live, occupied_update_some]
    refine hc.insert ?_ fun j hj => ?_
    · rw [mem_occupied, Fs.live_eq_none.mpr hfree]
      exact Bool.noConfusion
    · rw [mem_occupied, Fs.live_of_used (hlow j hj)]
      rfl
  | @remove i name f named found old closed _ leaf live =>
    obtain ⟨n, dir, hn, hdir, -, entry⟩ := fsFindFile_eq_some found
    obtain rfl := Option.some.inj hn
    obtain ⟨-, rfl⟩ := Fs.live_eq_some.mp old
    rw [live, occupied_update_none]
    refine (hc.erase_iff (mem_occupied.mpr (by rw [old]; rfl))).mpr fun j hj => ?_
    obtain ⟨g, hg⟩ := Option.isSome_iff_exists.mp (mem_occupied.mp hj)
    exact hlast name i named ⟨⟨dir, hdir, entry⟩, closed, leaf⟩ j g hg

/-- A delete of a file that is not in the last live slot leaves a hole below a live file. -/
theorem FsNamed.not_compact_step {s : Fs} (h : FsNamed s) (hc : Compact (occupied s.live))
    {c : FsCall} (hlast : ¬ DeletesLast s c) : ¬ Compact (occupied (fsStep s c).live) := by
  simp only [DeletesLast, not_forall] at hlast
  obtain ⟨name, i, hremoves, hi, j, g, hg, hji⟩ := hlast
  obtain ⟨dir, hdir, entry⟩ := hi.entry
  have found := h.find_entry hdir entry (h.entry_lt hc entry)
  have live : (fsStep s c).live = Function.update s.live i none := by
    cases c with
    | delete filename =>
      obtain rfl : filename = some name := hremoves
      exact fsDelete_removes found hi.closed (h.entry_valid entry).1 hi.leaf
    | _ => exact absurd hremoves.symm (Option.some_ne_none name)
  have mem : ∀ {k : Slot} {e : File}, s.live k = some e → k ∈ occupied s.live := by
    intro k e he
    rw [mem_occupied, he]
    rfl
  rw [live, occupied_update_none, hc.erase_iff (mem (Fs.live_of_used (fsFindFile_live found)))]
  exact fun hall => hji (hall j (mem hg))

/-- An entry that the lookup does not see lets the next create of its name through. -/
theorem FsNamed.not_unique_step {s : Fs} (h : FsNamed s) {c : FsCall} (hhid : ¬ NoHidden s c) :
    ¬ UniqueNames (fsStep s c) := by
  simp only [NoHidden, not_forall] at hhid
  obtain ⟨name, dir, i, hmakes, hdir, entry, hge⟩ := hhid
  have fresh : fsFindFile s (some name) = none := by
    rw [fsFindFile, hdir]
    cases hres : fsFindFileInDir s (some name) (some dir) with
    | none => rfl
    | some j =>
      obtain ⟨hlt, hj⟩ := fsFindFileInDir_eq_some hres
      exact absurd (h.unique.entry_unique hj entry ▸ hlt) hge
  -- a full table has no slot above the count
  obtain ⟨k, slot⟩ : ∃ k, fsFindFreeSlot s = some k :=
    h.tree.exists_freeSlot (Nat.lt_of_le_of_lt (Nat.not_lt.mp hge) i.isLt)
  obtain ⟨f, hpar, hname, live⟩ :=
    fsStep_inserts hmakes (h.entry_valid entry).2 fresh slot
  have free : s.live k = none := Fs.live_eq_none.mpr (Fin.find?_eq_some_iff.mp slot).1
  obtain ⟨e, he, hepar, hename⟩ := entry
  intro hunique
  have same : k = i := by
    refine hunique k i f e ?_ ?_ (hpar.trans (hdir.trans hepar.symm)) (hname.trans hename.symm)
    · rw [live]
      exact filled_iff.mpr (.inl ⟨rfl, rfl⟩)
    · rw [live]
      exact filled_keeps free he
  rw [same, he] at free
  exact absurd free (Option.some_ne_none e)

/-! ## Runs -/

/-- In every run the lookup is complete in every state exactly when every delete takes away the last
live slot. -/
theorem lookup_complete_iff (s₀ : Fs) (calls : List FsCall) :
    EveryState fsStep LookupComplete (fsInit s₀) calls ↔
      EveryStep fsStep DeletesLast (fsInit s₀) calls := by
  have keep : ∀ s c, FsNamed s ∧ Compact (occupied s.live) → FsNamed (fsStep s c) :=
    fun s c h => h.1.step fun name dir i _ _ hi => h.1.entry_lt h.2 hi
  refine everyState_iff (I := fun s => FsNamed s ∧ Compact (occupied s.live)) ?_ ?_ ?_ ?_
  · intro s c h hlast
    exact ⟨keep s c h, compact_step h.2 hlast⟩
  · intro s h
    exact h.1.lookupComplete_iff.mpr h.2
  · intro s c h hlast hl
    exact h.1.not_compact_step h.2 hlast ((keep s c h).lookupComplete_iff.mp hl)
  · exact ⟨fsNamed_init s₀, fsInit_compact s₀⟩

/-- In every run names are unique in every state exactly when no create meets an entry of its name
that the lookup does not see. -/
theorem unique_names_iff (s₀ : Fs) (calls : List FsCall) :
    EveryState fsStep UniqueNames (fsInit s₀) calls ↔
      EveryStep fsStep NoHidden (fsInit s₀) calls :=
  everyState_iff (fun _ _ h hhid => h.step hhid) (fun _ h => h.unique)
    (fun _ _ h hhid => h.not_unique_step hhid) (fsNamed_init s₀)

/-- Files `a`, `b` and `c`, and `a` deleted: `c` is live and the lookup returns null. -/
theorem lookup_complete_fails :
    ¬ EveryState fsStep LookupComplete (fsInit fsStart)
      [.create (some (.char 97)) (some fun _ => 0), .create (some (.char 98)) (some fun _ => 0),
        .create (some (.char 99)) (some fun _ => 0), .delete (some (.char 97))] := by
  intro h
  have last := everyState_iff_prefix.mp h _ [] (List.append_nil _).symm
  obtain ⟨-, hnone⟩ := last 0 _ (.char 99) (Fs.live_of_used (by decide +kernel)) (by decide +kernel)
  exact hnone.mp (by decide +kernel) 3 (Fs.entry_iff.mpr (by decide +kernel))

/-- The same files, `a` deleted and `c` created again: two live files are named `c`. -/
theorem unique_names_fails :
    ¬ EveryState fsStep UniqueNames (fsInit fsStart)
      [.create (some (.char 97)) (some fun _ => 0), .create (some (.char 98)) (some fun _ => 0),
        .create (some (.char 99)) (some fun _ => 0), .delete (some (.char 97)),
        .create (some (.char 99)) (some fun _ => 0)] := by
  intro h
  have last := everyState_iff_prefix.mp h _ [] (List.append_nil _).symm
  have same : (1 : Slot) = 3 :=
    last 1 3 _ _ (Fs.live_of_used (by decide +kernel)) (Fs.live_of_used (by decide +kernel))
      (by decide +kernel) (by decide +kernel)
  exact absurd same (by decide +kernel)

end Unics
