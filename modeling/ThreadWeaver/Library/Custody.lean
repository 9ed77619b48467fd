import Mathlib.Data.List.Nodup
import Mathlib.Data.List.Perm.Basic
import Mathlib.Tactic.Common

/-!
# Custody of resources by the stacks of threads

A program of threads, each with a stack of operations still to be done, and resources
that a thread can hold in some capacity: a lock, a job it is working on.  Each operation
owes certain resources: those that it will pass on or give back.  `Custody` says that the
owner recorded for every resource is the thread on whose stack it is owed, and that no
resource is owed twice.

A step replaces the operations at the top of one stack by others.  `Custody.exchange` is
the rule for such a step; `keep`, `pass`, `settle` and `take` are the cases of it that
programs are made of.
-/

namespace Library

variable {T R G O : Type*}

/-- What the operations of a stack owe, in the order of the stack. -/
abbrev owed (owes : O → List (R × G)) (stack : List O) : List (R × G) :=
  stack.flatMap owes

theorem owed_append_of_nil {owes : O → List (R × G)} {ops rest : List O}
    (h : ∀ op ∈ ops, owes op = []) : owed owes (ops ++ rest) = owed owes rest := by
  rw [owed, List.flatMap_append, List.flatMap_eq_nil_iff.mpr h, List.nil_append]

/-- Every resource is owed by exactly one entry of the stack of its owner, in the capacity
in which it is held, and a resource without an owner is not owed at all. -/
structure Custody (owes : O → List (R × G)) (owner : R → Option (T × G))
    (stack : T → List O) : Prop where
  mem_iff : ∀ thread resource capacity, (resource, capacity) ∈ owed owes (stack thread) ↔
    owner resource = some (thread, capacity)
  nodup : ∀ thread, ((owed owes (stack thread)).map Prod.fst).Nodup

namespace Custody

variable {owes : O → List (R × G)} {owner owner' : R → Option (T × G)} {stack : T → List O}
  {thread : T} {resource : R} {capacity : G}

theorem owner_eq (h : Custody owes owner stack) {op : O} (hop : op ∈ stack thread)
    (howes : (resource, capacity) ∈ owes op) : owner resource = some (thread, capacity) :=
  (h.mem_iff _ _ _).mp (List.mem_flatMap.mpr ⟨op, hop, howes⟩)

theorem exists_op (h : Custody owes owner stack)
    (howner : owner resource = some (thread, capacity)) :
    ∃ op ∈ stack thread, (resource, capacity) ∈ owes op :=
  List.mem_flatMap.mp ((h.mem_iff _ _ _).mpr howner)

/-- Nothing is owed by two threads. -/
theorem thread_unique (h : Custody owes owner stack) {other : T} {capacity' : G} {op op' : O}
    (hop : op ∈ stack thread) (howes : (resource, capacity) ∈ owes op)
    (hop' : op' ∈ stack other) (howes' : (resource, capacity') ∈ owes op') :
    other = thread ∧ capacity' = capacity := by
  have hsame := (h.owner_eq hop' howes').symm.trans (h.owner_eq hop howes)
  cases hsame
  exact ⟨rfl, rfl⟩

/-- What an entry of a stack owes is owed by no other entry above or below it. -/
theorem notMem_of_append (h : Custody owes owner stack) {above below : List O} {op op' : O}
    {capacity' : G} (hstack : stack thread = above ++ op :: below)
    (howes : (resource, capacity) ∈ owes op) (howes' : (resource, capacity') ∈ owes op') :
    op' ∉ above ∧ op' ∉ below := by
  have hnodup := h.nodup thread
  have hmem : ∀ {o : O} {g : G} {ops : List O}, o ∈ ops → (resource, g) ∈ owes o →
      resource ∈ (owed owes ops).map Prod.fst := fun ho hg =>
    List.mem_map.mpr ⟨_, List.mem_flatMap.mpr ⟨_, ho, hg⟩, rfl⟩
  have hfirst : resource ∈ (owes op).map Prod.fst := List.mem_map.mpr ⟨_, howes, rfl⟩
  rw [hstack, owed, List.flatMap_append, List.flatMap_cons, List.map_append, List.map_append,
    List.nodup_append, List.nodup_append] at hnodup
  obtain ⟨-, ⟨-, -, hbelow⟩, habove⟩ := hnodup
  constructor
  · intro hop'
    exact habove _ (hmem hop' howes') _ (List.mem_append_left _ hfirst) rfl
  · intro hop'
    exact hbelow _ hfirst _ (hmem hop' howes') rfl

theorem op_unique (h : Custody owes owner stack) {capacity' : G} {op op' : O}
    (hop : op ∈ stack thread) (howes : (resource, capacity) ∈ owes op)
    (hop' : op' ∈ stack thread) (howes' : (resource, capacity') ∈ owes op') : op' = op := by
  obtain ⟨above, below, hstack⟩ := List.append_of_mem hop
  obtain ⟨habove, hbelow⟩ := h.notMem_of_append hstack howes howes'
  rw [hstack, List.mem_append, List.mem_cons] at hop'
  exact (hop'.resolve_left habove).resolve_right hbelow

theorem empty (h : ∀ thread, owed owes (stack thread) = []) :
    Custody owes (fun _ => none : R → Option (T × G)) stack where
  mem_iff thread resource capacity := by simp [h thread]
  nodup thread := by simp [h thread]

variable [DecidableEq T]

/-- **Exchange rule.**  A thread replaces the operations `old` at the top of its stack by
`new`.  Custody is kept if what the new ones owe was owed by the old ones or had no owner,
the owners of these are recorded, and what is owed no longer has no owner. -/
theorem exchange (h : Custody owes owner stack) {old new rest : List O}
    (hstack : stack thread = old ++ rest)
    (hnodup : ((owed owes new).map Prod.fst).Nodup)
    (hgiven : ∀ resource capacity, (resource, capacity) ∈ owed owes new →
      owner' resource = some (thread, capacity))
    (hfrom : ∀ resource ∈ (owed owes new).map Prod.fst,
      resource ∈ (owed owes old).map Prod.fst ∨ owner resource = none)
    (hsettled : ∀ resource ∈ (owed owes old).map Prod.fst,
      resource ∉ (owed owes new).map Prod.fst → owner' resource = none)
    (hframe : ∀ resource, resource ∉ (owed owes old).map Prod.fst →
      resource ∉ (owed owes new).map Prod.fst → owner' resource = owner resource) :
    Custody owes owner' (Function.update stack thread (new ++ rest)) := by
  have hsplit : owed owes (stack thread) = owed owes old ++ owed owes rest := by
    rw [hstack, owed, List.flatMap_append]
  have hnodup' := h.nodup thread
  rw [hsplit, List.map_append, List.nodup_append] at hnodup'
  obtain ⟨-, hrest, hdisjoint⟩ := hnodup'
  -- what stays below on the stack keeps its owner
  have hbelow : ∀ resource ∈ (owed owes rest).map Prod.fst,
      resource ∉ (owed owes new).map Prod.fst := by
    intro resource hmem hnew
    rcases hfrom resource hnew with hold | hnone
    · exact hdisjoint _ hold _ hmem rfl
    · obtain ⟨⟨r, capacity⟩, hin, rfl⟩ := List.mem_map.mp hmem
      have hin' : (r, capacity) ∈ owed owes (stack thread) :=
        hsplit ▸ List.mem_append_right _ hin
      rw [h.mem_iff, hnone] at hin'
      cases hin'
  have hstays : ∀ resource ∈ (owed owes rest).map Prod.fst, owner' resource = owner resource :=
    fun resource hmem => hframe resource (fun hold => hdisjoint _ hold _ hmem rfl)
      (hbelow resource hmem)
  refine ⟨?_, ?_⟩
  · intro other resource capacity
    by_cases hother : other = thread
    · subst hother
      rw [Function.update_self, owed, List.flatMap_append, List.mem_append]
      constructor
      · rintro (hin | hin)
        · exact hgiven _ _ hin
        · rw [hstays resource (List.mem_map_of_mem hin), ← h.mem_iff]
          exact hsplit ▸ List.mem_append_right _ hin
      · intro howner
        by_cases hnew : resource ∈ (owed owes new).map Prod.fst
        · obtain ⟨⟨r, c⟩, hin, rfl⟩ := List.mem_map.mp hnew
          have heq := hgiven _ _ hin
          rw [howner] at heq
          cases heq
          exact .inl hin
        · by_cases hold : resource ∈ (owed owes old).map Prod.fst
          · rw [hsettled resource hold hnew] at howner
            cases howner
          · rw [hframe resource hold hnew, ← h.mem_iff, hsplit, List.mem_append] at howner
            rcases howner with hin | hin
            · exact absurd (List.mem_map_of_mem (f := Prod.fst) hin) hold
            · exact .inr hin
    · rw [Function.update_of_ne hother, h.mem_iff]
      -- another thread neither owed the old ones nor gets any of the new
      by_cases hnew : resource ∈ (owed owes new).map Prod.fst
      · obtain ⟨⟨r, c⟩, hin, rfl⟩ := List.mem_map.mp hnew
        rw [hgiven _ _ hin]
        refine ⟨fun howner => ?_, fun howner => ?_⟩
        · rcases hfrom _ hnew with hold | hnone
          · obtain ⟨⟨r', c'⟩, hin', rfl⟩ := List.mem_map.mp hold
            have hmine := (h.mem_iff thread r' c').mp (hsplit ▸ List.mem_append_left _ hin')
            rw [howner] at hmine
            cases hmine
            exact absurd rfl hother
          · rw [hnone] at howner
            cases howner
        · cases howner
          exact absurd rfl hother
      · by_cases hold : resource ∈ (owed owes old).map Prod.fst
        · obtain ⟨⟨r', c'⟩, hin', rfl⟩ := List.mem_map.mp hold
          have hmine := (h.mem_iff thread r' c').mp (hsplit ▸ List.mem_append_left _ hin')
          rw [hsettled _ hold hnew, hmine]
          simp [Ne.symm hother]
        · rw [hframe resource hold hnew]
  · intro other
    by_cases hother : other = thread
    · subst hother
      rw [Function.update_self, owed, List.flatMap_append, List.map_append, List.nodup_append]
      exact ⟨hnodup, hrest, fun r hr r' hr' heq => hbelow r' hr' (heq ▸ hr)⟩
    · rw [Function.update_of_ne hother]
      exact h.nodup other

theorem keep (h : Custody owes owner stack) {old new rest : List O}
    (hstack : stack thread = old ++ rest) (hsame : owed owes new = owed owes old) :
    Custody owes owner (Function.update stack thread (new ++ rest)) := by
  have hsplit : owed owes (stack thread) = owed owes new ++ owed owes rest := by
    rw [hstack, hsame, owed, List.flatMap_append]
  have hnodup := h.nodup thread
  rw [hsplit, List.map_append, List.nodup_append] at hnodup
  refine h.exchange hstack hnodup.1 ?_ ?_ ?_ (fun _ _ _ => rfl)
  · intro resource capacity hin
    exact (h.mem_iff _ _ _).mp (hsplit ▸ List.mem_append_left _ hin)
  · intro resource hin
    exact .inl (hsame ▸ hin)
  · intro resource hin hnot
    exact absurd (hsame ▸ hin) hnot

variable [DecidableEq R]

/-- One resource is passed on, in another capacity. -/
theorem pass (h : Custody owes owner stack) {old new rest : List O} {next : G}
    (hstack : stack thread = old ++ rest) (hold : owed owes old = [(resource, capacity)])
    (hnew : owed owes new = [(resource, next)]) :
    Custody owes (Function.update owner resource (some (thread, next)))
      (Function.update stack thread (new ++ rest)) := by
  refine h.exchange hstack (by simp [hnew]) ?_ ?_ ?_ ?_
  · intro r c hin
    rw [hnew, List.mem_singleton, Prod.mk.injEq] at hin
    rw [hin.1, hin.2, Function.update_self]
  · intro r hin
    exact .inl (by simpa [hold, hnew] using hin)
  · intro r hin hnot
    exact absurd (by simpa [hold, hnew] using hin) hnot
  · intro r hnot _
    exact Function.update_of_ne (by simpa [hold] using hnot) _ _

theorem settle (h : Custody owes owner stack) {old new rest : List O}
    (hstack : stack thread = old ++ rest) (hold : owed owes old = [(resource, capacity)])
    (hnew : owed owes new = []) :
    Custody owes (Function.update owner resource none)
      (Function.update stack thread (new ++ rest)) := by
  refine h.exchange hstack (by simp [hnew]) (by simp [hnew]) (by simp [hnew]) ?_ ?_
  · intro r hin _
    have heq : r = resource := by simpa [hold] using hin
    rw [heq, Function.update_self]
  · intro r hnot _
    exact Function.update_of_ne (by simpa [hold] using hnot) _ _

/-- One resource without an owner is taken. -/
theorem take (h : Custody owes owner stack) {old new rest : List O}
    (hstack : stack thread = old ++ rest) (hold : owed owes old = [])
    (hnew : owed owes new = [(resource, capacity)]) (hfree : owner resource = none) :
    Custody owes (Function.update owner resource (some (thread, capacity)))
      (Function.update stack thread (new ++ rest)) := by
  refine h.exchange hstack (by simp [hnew]) ?_ ?_ (by simp [hold]) ?_
  · intro r c hin
    rw [hnew, List.mem_singleton, Prod.mk.injEq] at hin
    rw [hin.1, hin.2, Function.update_self]
  · intro r hin
    have heq : r = resource := by simpa [hnew] using hin
    exact .inr (heq ▸ hfree)
  · intro r _ hnot
    exact Function.update_of_ne (by simpa [hnew] using hnot) _ _

/-- Resources without an owner are taken, and the rest of what is owed stays. -/
theorem takeAll (h : Custody owes owner stack) {old new rest : List O} {resources : List R}
    (hstack : stack thread = old ++ rest) (hnodup : resources.Nodup)
    (hnew : owed owes new = resources.map (·, capacity) ++ owed owes old)
    (hfree : ∀ resource ∈ resources, owner resource = none) :
    Custody owes
      (fun resource => if resource ∈ resources then some (thread, capacity) else owner resource)
      (Function.update stack thread (new ++ rest)) := by
  have howned : ∀ {r c}, (r, c) ∈ owed owes old → owner r = some (thread, c) := by
    intro r c hin
    refine (h.mem_iff _ _ _).mp ?_
    rw [hstack, owed, List.flatMap_append]
    exact List.mem_append_left _ hin
  have hnot : ∀ {r c}, (r, c) ∈ owed owes old → r ∉ resources := by
    intro r c hin hmem
    have hnone := (howned hin).symm.trans (hfree r hmem)
    cases hnone
  have hmap : (owed owes new).map Prod.fst = resources ++ (owed owes old).map Prod.fst := by
    simp [hnew, Function.comp_def]
  have hnodupOld : ((owed owes old).map Prod.fst).Nodup := by
    have hnodup' := h.nodup thread
    rw [hstack, owed, List.flatMap_append, List.map_append, List.nodup_append] at hnodup'
    exact hnodup'.1
  refine h.exchange hstack ?_ ?_ ?_ ?_ ?_
  · rw [hmap, List.nodup_append]
    refine ⟨hnodup, hnodupOld, fun r hmem r' hin heq => ?_⟩
    obtain ⟨⟨held, c⟩, howes, rfl⟩ := List.mem_map.mp hin
    obtain rfl : r = held := heq
    exact hnot howes hmem
  · intro r c hin
    rw [hnew, List.mem_append, List.mem_map] at hin
    rcases hin with ⟨r', hmem, heq⟩ | hin
    · cases heq
      exact if_pos hmem
    · rw [if_neg (hnot hin)]
      exact howned hin
  · intro r hin
    rw [hmap, List.mem_append] at hin
    exact hin.symm.imp_right (hfree r)
  · intro r hin hgone
    rw [hmap] at hgone
    exact absurd (List.mem_append_right _ hin) hgone
  · intro r _ hgone
    rw [hmap] at hgone
    exact if_neg fun hmem => hgone (List.mem_append_left _ hmem)

end Custody

end Library
