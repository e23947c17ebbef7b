import Mathlib.Data.List.Basic
import Mathlib.Data.List.Nodup
import Mathlib.Logic.Function.Basic

/-!
# Tail queues

The macros of `sys/queue.h` on a tail queue. An element holds a pointer to the next one, and a
pointer to the pointer that points to it; the head holds a pointer to the first element, and one to
the pointer at the end. Every access is checked: one to an element that is not in memory answers
`none`.

`Holds` says which elements a queue holds, in order. The macros are then what they are on lists.
-/

namespace Unics.Lib

variable {E : Type}

/-- What points to an element, or to nothing at the end: the `tqh_first` of the head, or the
`tqe_next` of an element. -/
inductive TqLink (E : Type) where
  | first
  | next (e : E)

/-- `TAILQ_ENTRY`. -/
structure TqEntry (E : Type) where
  next : Option E
  prev : TqLink E

/-- `TAILQ_HEAD`, and the entries of the elements that are in memory. -/
structure TailQueue (E : Type) where
  first : Option E
  last : TqLink E
  entries : E → Option (TqEntry E)

namespace TailQueue

section Macros

variable [DecidableEq E] (q : TailQueue E)

/-- An element comes into memory, with an entry that is not set. -/
def alloc (e : E) (junk : TqEntry E) : TailQueue E :=
  { q with entries := Function.update q.entries e (some junk) }

/-- An element leaves memory. -/
def free (e : E) : TailQueue E := { q with entries := Function.update q.entries e none }

def setEntry (e : E) (entry : TqEntry E) : TailQueue E :=
  { q with entries := Function.update q.entries e (some entry) }

/-- `*link`. -/
def load : TqLink E → Option (Option E)
  | .first => some q.first
  | .next e => (q.entries e).map TqEntry.next

/-- `*link = target`. -/
def store (target : Option E) : TqLink E → Option (TailQueue E)
  | .first => some { q with first := target }
  | .next e => (q.entries e).map fun entry => q.setEntry e { entry with next := target }

/-- `((struct headname *)link)->tqh_last`. Behind the `tqe_next` of an element lies its
`tqe_prev`. -/
def behind : TqLink E → Option (TqLink E)
  | .first => some q.last
  | .next e => (q.entries e).map TqEntry.prev

/-- `TAILQ_INIT`. -/
def init : TailQueue E := { q with first := none, last := .first }

/-- `TAILQ_LAST`. -/
def lastElement : Option (Option E) := do
  let link ← q.behind q.last
  q.load link

/-- `TAILQ_INSERT_TAIL`. -/
def insertTail (e : E) : Option (TailQueue E) := do
  let _ ← q.entries e
  let q ← (q.setEntry e { next := none, prev := q.last }).store (some e) q.last
  some { q with last := .next e }

/-- `TAILQ_REMOVE`. -/
def remove (e : E) : Option (TailQueue E) := do
  let entry ← q.entries e
  let q ←
    (match entry.next with
    | some f => (q.entries f).map fun other => q.setEntry f { other with prev := entry.prev }
    | none => some { q with last := entry.prev })
  let entry ← q.entries e
  q.store entry.next entry.prev

/-- `TAILQ_FOREACH` from an element on, for at most `n` elements. -/
def walk : Nat → Option E → Option (List E)
  | _, none => some []
  | 0, some _ => none
  | n + 1, some e => do
    let entry ← q.entries e
    let rest ← walk n entry.next
    some (e :: rest)

end Macros

/-! ## The elements of a queue -/

/-- The pointer at the end of these elements. -/
def lastLink (es : List E) : TqLink E := es.getLast?.elim .first .next

theorem lastLink_nil : lastLink ([] : List E) = .first := rfl

theorem lastLink_concat (es : List E) (e : E) : lastLink (es ++ [e]) = .next e := by
  rw [lastLink, List.getLast?_concat]
  rfl

/-- An element in front makes no difference but to an empty list. -/
theorem lastLink_cons {es : List E} (h : es ≠ []) (e : E) : lastLink (e :: es) = lastLink es := by
  rw [lastLink, lastLink, List.getLast?_cons, List.getLast?_eq_some_getLast h, Option.getD_some]

/-- An element of a list with one more behind it. -/
theorem concat_split {es front back : List E} {e x : E} (h : es ++ [e] = front ++ x :: back) :
    (es = front ∧ e = x ∧ back = []) ∨ ∃ rest, es = front ++ x :: rest ∧ back = rest ++ [e] := by
  rcases List.eq_nil_or_concat' back with rfl | ⟨rest, y, rfl⟩
  · obtain ⟨hes, he⟩ := List.append_inj' h rfl
    exact .inl ⟨hes, (List.cons.inj he).1, rfl⟩
  · rw [← List.cons_append, ← List.append_assoc] at h
    obtain ⟨hes, he⟩ := List.append_inj' h rfl
    exact .inr ⟨rest, hes, by rw [(List.cons.inj he).1]⟩

/-- The queue holds these elements. -/
structure Holds (q : TailQueue E) (es : List E) : Prop where
  nodup : es.Nodup
  first : q.first = es.head?
  last : q.last = lastLink es
  entry : ∀ front e back, es = front ++ e :: back →
    q.entries e = some ⟨back.head?, lastLink front⟩

theorem holds_init (q : TailQueue E) : q.init.Holds [] := by
  refine ⟨List.nodup_nil, rfl, rfl, fun front _ back heq => ?_⟩
  exact absurd heq.symm (List.append_ne_nil_of_right_ne_nil front (List.cons_ne_nil _ back))

section Holds

variable {q : TailQueue E} {es : List E} {e : E}

theorem Holds.in_memory (h : q.Holds es) (he : e ∈ es) : q.entries e ≠ none := by
  obtain ⟨front, back, heq⟩ := List.mem_iff_append.mp he
  rw [h.entry front e back heq]
  exact Option.some_ne_none _

/-- The pointer behind a front of the elements points to the first of the others. -/
theorem Holds.load_lastLink (h : q.Holds es) {front back : List E} (heq : es = front ++ back) :
    q.load (lastLink front) = some back.head? := by
  rcases List.eq_nil_or_concat' front with rfl | ⟨front, e, rfl⟩
  · rw [List.nil_append] at heq
    rw [lastLink_nil, load, h.first, heq]
  · rw [List.append_assoc] at heq
    rw [lastLink_concat, load, h.entry front e back heq]
    rfl

theorem Holds.lastElement (h : q.Holds (es ++ [e])) : q.lastElement = some (some e) := by
  have link : q.behind q.last = some (lastLink es) := by
    rw [h.last, lastLink_concat, behind, h.entry es e [] rfl]
    rfl
  rw [TailQueue.lastElement, link]
  exact h.load_lastLink rfl

/-- The loop over a queue visits its elements in order. -/
theorem Holds.walk_from (h : q.Holds es) {front back : List E} (heq : es = front ++ back) {n : Nat}
    (hn : back.length ≤ n) : q.walk n back.head? = some back := by
  induction back generalizing front n with
  | nil => cases n <;> rfl
  | cons e back ih =>
    obtain ⟨n, rfl⟩ : ∃ m, n = m + 1 := Nat.exists_eq_succ_of_ne_zero (by rintro rfl; cases hn)
    have moved : es = (front ++ [e]) ++ back := by
      rw [heq, List.append_assoc]
      rfl
    have rest := ih moved (Nat.le_of_succ_le_succ hn)
    rw [List.head?_cons, walk, h.entry front e back heq]
    simp only [Option.bind_eq_bind, Option.bind_some, rest]

theorem Holds.walk (h : q.Holds es) {n : Nat} (hn : es.length ≤ n) :
    q.walk n q.first = some es := by
  rw [h.first]
  exact h.walk_from (List.nil_append es).symm hn

variable [DecidableEq E]

/-- What happens to other elements does not matter. -/
theorem Holds.update (h : q.Holds es) (he : e ∉ es) (entry : Option (TqEntry E)) :
    Holds { q with entries := Function.update q.entries e entry } es := by
  refine ⟨h.nodup, h.first, h.last, fun front x back heq => ?_⟩
  have other : x ≠ e := by
    rintro rfl
    exact he (heq ▸ List.mem_append_right front List.mem_cons_self)
  show Function.update q.entries e entry x = _
  rw [Function.update_of_ne other]
  exact h.entry front x back heq

/-- An element is inserted at the end. -/
theorem Holds.insertTail (h : q.Holds es) (hnew : e ∉ es) (he : q.entries e ≠ none) :
    ∃ q', q.insertTail e = some q' ∧ q'.Holds (es ++ [e]) := by
  obtain ⟨junk, hjunk⟩ := Option.ne_none_iff_exists'.mp he
  have nodup : (es ++ [e]).Nodup :=
    List.nodup_append.mpr ⟨h.nodup, List.nodup_singleton e, fun a ha b hb =>
      (List.mem_singleton.mp hb) ▸ ne_of_mem_of_not_mem ha hnew⟩
  rcases List.eq_nil_or_concat' es with rfl | ⟨before, f, rfl⟩
  · have inserted : q.insertTail e = some
        { (q.setEntry e { next := none, prev := .first }) with
          first := some e, last := .next e } := by
      rw [TailQueue.insertTail, hjunk, h.last]
      rfl
    refine ⟨_, inserted, nodup, rfl, rfl, fun front x back heq => ?_⟩
    rcases concat_split heq with ⟨rfl, rfl, rfl⟩ | ⟨rest, hrest, -⟩
    · exact Function.update_self ..
    · exact absurd hrest.symm (List.append_ne_nil_of_right_ne_nil front (List.cons_ne_nil x rest))
  · have hne : f ≠ e :=
      ne_of_mem_of_not_mem (List.mem_append_right before (List.mem_singleton_self f)) hnew
    have hf : (q.setEntry e { next := none, prev := .next f }).entries f =
        some ⟨none, lastLink before⟩ := by
      show Function.update q.entries e _ f = _
      rw [Function.update_of_ne hne]
      exact h.entry before f [] rfl
    have inserted : q.insertTail e = some
        { ((q.setEntry e { next := none, prev := .next f }).setEntry f
            { next := some e, prev := lastLink before }) with
          last := .next e } := by
      rw [TailQueue.insertTail, hjunk, h.last, lastLink_concat, store, hf]
      rfl
    refine ⟨_, inserted, nodup, ?_, (lastLink_concat _ e).symm, fun front x back heq => ?_⟩
    · show q.first = _
      rw [h.first]
      cases before <;> rfl
    · show Function.update (Function.update q.entries e _) f _ x = _
      rcases concat_split heq with ⟨rfl, rfl, rfl⟩ | ⟨rest, hrest, rfl⟩
      · rw [Function.update_of_ne hne.symm, Function.update_self, lastLink_concat]
        rfl
      · rcases concat_split hrest with ⟨rfl, rfl, rfl⟩ | ⟨more, hmore, rfl⟩
        · exact Function.update_self ..
        · have hin : x ∈ before := hmore ▸ List.mem_append_right front List.mem_cons_self
          have apart := List.nodup_append.mp h.nodup
          have hxf : x ≠ f := apart.2.2 x hin f (List.mem_singleton_self f)
          have hxe : x ≠ e := ne_of_mem_of_not_mem (List.mem_append_left [f] hin) hnew
          rw [Function.update_of_ne hxf, Function.update_of_ne hxe, h.entry front x _ hrest]
          cases more <;> rfl

/-- The first element is removed. -/
theorem Holds.remove_first (h : q.Holds (e :: es)) :
    ∃ q', q.remove e = some q' ∧ q'.Holds es := by
  obtain ⟨hout, nodup⟩ := List.nodup_cons.mp h.nodup
  have he : q.entries e = some ⟨es.head?, .first⟩ := h.entry [] e es rfl
  cases es with
  | nil =>
    have removed : q.remove e = some { q with first := none, last := .first } := by
      rw [remove, he]
      show (q.entries e >>= _) = _
      rw [he]
      rfl
    exact ⟨_, removed, holds_init q⟩
  | cons f es =>
    have hne : f ≠ e := ne_of_mem_of_not_mem List.mem_cons_self hout
    have hf : q.entries f = some ⟨es.head?, .next e⟩ := h.entry [e] f es rfl
    have same : (q.setEntry f { next := es.head?, prev := .first }).entries e = q.entries e :=
      Function.update_of_ne hne.symm ..
    have removed : q.remove e = some
        { (q.setEntry f { next := es.head?, prev := .first }) with first := some f } := by
      rw [remove, he]
      show ((q.entries f).map _ >>= _) = _
      rw [hf]
      show ((q.setEntry f _).entries e >>= _) = _
      rw [same, he]
      rfl
    refine ⟨_, removed, nodup, rfl, ?_, fun front x back heq => ?_⟩
    · show q.last = _
      rw [h.last, lastLink_cons (List.cons_ne_nil f es)]
    · show Function.update q.entries f _ x = _
      cases front with
      | nil =>
        obtain ⟨rfl, rfl⟩ := List.cons.inj heq
        exact Function.update_self ..
      | cons g front =>
        obtain ⟨rfl, hrest⟩ := List.cons.inj heq
        have hin : x ∈ es := hrest ▸ List.mem_append_right front List.mem_cons_self
        have hx : x ≠ f := ne_of_mem_of_not_mem hin (List.nodup_cons.mp nodup).1
        rw [Function.update_of_ne hx, h.entry (e :: f :: front) x back (by rw [heq]; rfl),
          lastLink_cons (List.cons_ne_nil f front)]

end Holds

/-! ## What is in memory -/

section Memory

variable [DecidableEq E] {q q' : TailQueue E} {e x : E}

/-- Of the elements in memory only the entries change. -/
theorem setEntry_none (hx : q.entries x ≠ none) (he : q.entries e = none) (entry : TqEntry E) :
    (q.setEntry x entry).entries e = none := by
  have hne : e ≠ x := by
    rintro rfl
    exact hx he
  exact (Function.update_of_ne hne ..).trans he

theorem store_none {target : Option E} {link : TqLink E} (h : q.store target link = some q')
    (he : q.entries e = none) : q'.entries e = none := by
  cases link with
  | first =>
    obtain rfl := Option.some.inj h
    exact he
  | next x =>
    obtain ⟨entry, hentry, rfl⟩ := Option.map_eq_some_iff.mp h
    exact setEntry_none (hentry ▸ Option.some_ne_none entry) he _

/-- `TAILQ_INSERT_TAIL` brings nothing into memory. -/
theorem insertTail_none (h : q.insertTail x = some q') (he : q.entries e = none) :
    q'.entries e = none := by
  obtain ⟨junk, hjunk, hrest⟩ := Option.bind_eq_some_iff.mp h
  obtain ⟨stored, hstore, hlast⟩ := Option.bind_eq_some_iff.mp hrest
  obtain rfl := Option.some.inj hlast
  show stored.entries e = none
  exact store_none hstore (setEntry_none (hjunk ▸ Option.some_ne_none junk) he _)

/-- `TAILQ_REMOVE` brings nothing into memory. -/
theorem remove_none (h : q.remove x = some q') (he : q.entries e = none) :
    q'.entries e = none := by
  obtain ⟨entry, -, hrest⟩ := Option.bind_eq_some_iff.mp h
  obtain ⟨linked, hlink, hrest⟩ := Option.bind_eq_some_iff.mp hrest
  obtain ⟨now, -, hstore⟩ := Option.bind_eq_some_iff.mp hrest
  refine store_none hstore ?_
  cases hnext : entry.next with
  | none =>
    rw [hnext] at hlink
    obtain rfl := Option.some.inj hlink
    exact he
  | some f =>
    rw [hnext] at hlink
    obtain ⟨other, hother, rfl⟩ := Option.map_eq_some_iff.mp hlink
    exact setEntry_none (hother ▸ Option.some_ne_none other) he _

end Memory

end TailQueue

end Unics.Lib
