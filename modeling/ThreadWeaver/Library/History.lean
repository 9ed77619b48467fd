import Mathlib.Data.List.Basic
import Mathlib.Tactic.Common

/-!
# Histories

A history is a list of events that grows at its end.  `Ordered P` is a property of a
history as a whole: every event satisfies `P` together with the events before it.  It is
kept by what is appended if each new event satisfies `P` when it is appended, so it never
has to be looked at again.
-/

namespace Library

/-- An element of a list that is extended by others was there before. -/
theorem split_of_append {α : Type*} {l more before after : List α} {x : α}
    (h : l ++ more = before ++ x :: after) (hx : x ∉ more) : ∃ rest, l = before ++ x :: rest := by
  rcases List.append_eq_append_iff.mp h with ⟨middle, _, rfl⟩ | ⟨middle, rfl, htail⟩
  · exact absurd (List.mem_append_right _ List.mem_cons_self) hx
  · cases middle with
    | nil =>
        have hmem : x ∈ [] ++ more := htail ▸ List.mem_cons_self
        exact absurd hmem hx
    | cons y rest =>
        obtain ⟨rfl, _⟩ := List.cons.inj htail
        exact ⟨rest, rfl⟩

theorem split_of_append_singleton {α : Type*} {l before after : List α} {x y : α}
    (h : l ++ [y] = before ++ x :: after) :
    before = l ∧ x = y ∨ ∃ rest, l = before ++ x :: rest := by
  rcases List.eq_nil_or_concat after with rfl | ⟨init, last, rfl⟩
  · obtain ⟨rfl, hlast⟩ := List.append_inj' h rfl
    exact .inl ⟨rfl, (List.singleton_injective hlast).symm⟩
  · rw [List.concat_eq_append, ← List.cons_append, ← List.append_assoc] at h
    exact .inr ⟨init, (List.append_inj' h rfl).1⟩

variable {E : Type*} {P : List E → E → Prop} {log more : List E} {event : E}

/-- Every event of the history satisfies `P` together with what had happened before it. -/
def Ordered (P : List E → E → Prop) (log : List E) : Prop :=
  ∀ before event after, log = before ++ event :: after → P before event

theorem Ordered.nil : Ordered P [] := by
  intro before event after h
  cases before <;> cases h

theorem Ordered.concat (h : Ordered P log) (hnew : P log event) : Ordered P (log ++ [event]) := by
  intro before other after hsplit
  rcases split_of_append_singleton hsplit with ⟨rfl, rfl⟩ | ⟨rest, hlog⟩
  · exact hnew
  · exact h before other rest hlog

theorem Ordered.append (h : Ordered P log)
    (hmore : Ordered (fun before event => P (log ++ before) event) more) :
    Ordered P (log ++ more) := by
  intro before event after hsplit
  rcases List.append_eq_append_iff.mp hsplit with ⟨middle, rfl, htail⟩ | ⟨middle, rfl, htail⟩
  · exact hmore middle event after htail
  · cases middle with
    | nil =>
        have hfirst := hmore [] event after (by simpa using htail.symm)
        simpa using hfirst
    | cons first rest =>
        obtain ⟨rfl, -⟩ := List.cons.inj htail
        exact h before event rest rfl

theorem Ordered.append_of_forall (h : Ordered P log)
    (hmore : ∀ event ∈ more, ∀ before, P before event) : Ordered P (log ++ more) := by
  refine h.append fun before event after hsplit => ?_
  exact hmore event (hsplit ▸ List.mem_append_right _ List.mem_cons_self) _

theorem Ordered.idxOf_lt [DecidableEq E] (h : Ordered P log) (hmem : event ∈ log) {earlier : E}
    (hneeds : ∀ before, P before event → earlier ∈ before) :
    log.idxOf earlier < log.idxOf event := by
  obtain ⟨before, after, hlog, hfirst⟩ := List.eq_append_cons_of_mem hmem
  have hearlier := hneeds before (h before event after hlog)
  rw [hlog, List.idxOf_append_of_mem hearlier, List.idxOf_append_of_notMem hfirst,
    List.idxOf_cons_self, Nat.add_zero]
  exact List.idxOf_lt_length_of_mem hearlier

theorem Ordered.idxOf_lt_of_notMem [DecidableEq E] (h : Ordered P log) (hmem : event ∈ log)
    {later : E} (hne : event ≠ later) (hexcludes : ∀ before, P before event → later ∉ before) :
    log.idxOf event < log.idxOf later := by
  obtain ⟨before, after, hlog, hfirst⟩ := List.eq_append_cons_of_mem hmem
  have hlater := hexcludes before (h before event after hlog)
  rw [hlog, List.idxOf_append_of_notMem hlater, List.idxOf_append_of_notMem hfirst,
    List.idxOf_cons_self, List.idxOf_cons_ne _ hne]
  omega

end Library
