import Mathlib.Data.List.Count
import Mathlib.Data.List.Induction
import Mathlib.Data.Set.Insert
import ThreadWeaver.DependencyPolicy

/-!
# Dependencies as pairs

What a program declares with `addDependency` reads as a set of pairs, and
`DependencyPolicy` keeps it as a multimap, whose `insert` does not look for an entry that
is already there while `removeDependency` stops at the first match.  `Declared` is the
state the calls of the policy change, `DependencyOp` one call, and `Pairs` what a plain
set of pairs does for the same call.

The policy answers as the set does as long as no dependency is removed while the map holds
it twice (`refines_iff`).
-/

namespace ThreadWeaver

namespace Dependencies

variable {J : Type*} [DecidableEq J]

/-- `DependencyPolicy::canRun`. -/
def canRun (map : Dependencies J) (job : J) : Bool :=
  !map.hasUnresolvedDependencies job

/-- `DependencyPolicy::isEmpty`. -/
def isEmpty (map : Dependencies J) : Bool :=
  List.isEmpty map

/-- The loop of `DependencyPolicy::removeDependency`, which stops at the first match: what
it returns and the map it leaves. -/
def removeFirst (dependent dependee : J) : Dependencies J → Bool × Dependencies J
  | [] => (false, [])
  | entry :: rest =>
      if entry = (dependent, dependee) then (true, rest)
      else
        let next := removeFirst dependent dependee rest
        (next.1, entry :: next.2)

/-- `DependencyPolicy::resolveDependencies`, which `free` and `destructed` go through: it asks
for the success of the job. -/
def resolve (map : Dependencies J) (job : J) (status : Status) : Dependencies J :=
  if status = .success then map.resolveDependencies job else map

/-- The loop finds an entry if there is one, and takes one occurrence of it. -/
theorem removeFirst_eq (dependent dependee : J) (map : Dependencies J) :
    removeFirst dependent dependee map =
      (decide ((dependent, dependee) ∈ map), map.removeDependency dependent dependee) := by
  induction map with
  | nil => rfl
  | cons entry rest ih =>
      unfold removeFirst
      by_cases hentry : entry = (dependent, dependee)
      · rw [if_pos hentry, hentry]
        simp [removeDependency]
      · rw [if_neg hentry, ih]
        simp [removeDependency, hentry, Ne.symm hentry]

theorem canRun_iff {map : Dependencies J} {job : J} :
    map.canRun job = true ↔ ∀ dependee, (job, dependee) ∉ map := by
  have h : map.canRun job = true ↔ ¬ map.hasUnresolvedDependencies job = true := by
    simp [canRun]
  rw [h, hasUnresolvedDependencies_iff, not_exists]

omit [DecidableEq J] in
theorem isEmpty_iff {map : Dependencies J} : map.isEmpty = true ↔ ∀ pair, pair ∉ map := by
  unfold isEmpty
  rw [List.isEmpty_iff, List.eq_nil_iff_forall_not_mem]

end Dependencies

/-! ## The calls of the policy -/

/-- A call of `DependencyPolicy`.  `addDependency` requires two different jobs;
`resolveDependencies` is called for a job that succeeded. -/
inductive DependencyOp (J : Type*)
  | addDependency (dependent dependee : J) (distinct : dependent ≠ dependee)
  | removeDependency (dependent dependee : J)
  | resolveDependencies (job : J)

/-- The map of the policy, and the policies each job carries, among which `none` is
`DependencyPolicy::instance()`. -/
structure Declared (J P : Type*) where
  map : Dependencies J
  queuePolicies : J → JobPolicies (Option P)

namespace Declared

variable {J P : Type*} [DecidableEq J] [DecidableEq P]

/-- Before the first call: the map is empty. -/
def start (queuePolicies : J → JobPolicies (Option P)) : Declared J P :=
  ⟨[], queuePolicies⟩

/-- The policies after `assignQueuePolicy(this)` on a job. -/
def assign (job : J) (queuePolicies : J → JobPolicies (Option P)) : J → JobPolicies (Option P) :=
  Function.update queuePolicies job ((queuePolicies job).assignQueuePolicy none)

/-- What a call does, and what it returns; only `removeDependency` returns something. -/
def call (state : Declared J P) : DependencyOp J → Bool × Declared J P
  | .addDependency dependent dependee _ =>
      (true,
        { map := (dependent, dependee) :: state.map
          queuePolicies := assign dependee (assign dependent state.queuePolicies) })
  | .removeDependency dependent dependee =>
      let removed := state.map.removeFirst dependent dependee
      (removed.1, { state with map := removed.2 })
  | .resolveDependencies job =>
      (true, { state with map := state.map.resolveDependencies job })

/-- The state after a sequence of calls. -/
def calls (state : Declared J P) (ops : List (DependencyOp J)) : Declared J P :=
  ops.foldl (fun state op => (state.call op).2) state

@[simp] theorem calls_nil (state : Declared J P) : state.calls [] = state := rfl

theorem calls_append (state : Declared J P) (ops more : List (DependencyOp J)) :
    state.calls (ops ++ more) = (state.calls ops).calls more :=
  List.foldl_append

theorem calls_concat (state : Declared J P) (ops : List (DependencyOp J)) (op : DependencyOp J) :
    state.calls (ops ++ [op]) = ((state.calls ops).call op).2 :=
  calls_append state ops [op]

theorem mem_assign_self (job : J) (queuePolicies : J → JobPolicies (Option P)) :
    none ∈ (assign job queuePolicies job).list := by
  simp [assign]

theorem mem_assign {job other : J} {queuePolicies : J → JobPolicies (Option P)}
    {policy : Option P} (h : policy ∈ (queuePolicies other).list) :
    policy ∈ (assign job queuePolicies other).list := by
  by_cases hother : other = job
  · subst hother
    simp [assign, h]
  · rwa [assign, Function.update_of_ne hother]

end Declared

/-! ## A plain set of pairs -/

namespace Pairs

variable {J : Type*}

/-- What a call does to a set of pairs. -/
def call (pairs : Set (J × J)) : DependencyOp J → Set (J × J)
  | .addDependency dependent dependee _ => insert (dependent, dependee) pairs
  | .removeDependency dependent dependee => pairs \ {(dependent, dependee)}
  | .resolveDependencies job => {pair ∈ pairs | pair.2 ≠ job}

/-- The set after a sequence of calls, the first on the empty set. -/
def calls (ops : List (DependencyOp J)) : Set (J × J) :=
  ops.foldl call ∅

theorem calls_concat (ops : List (DependencyOp J)) (op : DependencyOp J) :
    calls (ops ++ [op]) = call (calls ops) op := by
  simp [calls]

end Pairs

section

variable {J P : Type*} [DecidableEq J] [DecidableEq P]

/-- What the policy answers is what the set answers. -/
structure Declared.Agrees (state : Declared J P) (pairs : Set (J × J)) : Prop where
  canRun : ∀ job, state.map.canRun job = true ↔ ∀ dependee, (job, dependee) ∉ pairs
  isEmpty : state.map.isEmpty = true ↔ pairs = ∅

/-- A call does on the map what it does on the set: `removeDependency` tells whether the pair
was there and leaves no entry of it, `resolveDependencies` removes the pairs with the dependee
and no other. -/
def Declared.Performs (state : Declared J P) (pairs : Set (J × J)) : DependencyOp J → Prop
  | .addDependency _ _ _ => True
  | .removeDependency dependent dependee =>
      let done := state.call (.removeDependency dependent dependee)
      (done.1 = true ↔ (dependent, dependee) ∈ pairs) ∧ (dependent, dependee) ∉ done.2.map
  | .resolveDependencies job =>
      ∀ pair, pair ∈ (state.call (.resolveDependencies job)).2.map ↔ pair ∈ pairs ∧ pair.2 ≠ job

/-- The policy refines the set of pairs over a sequence of calls: they agree after every part
of it, and every call of it does the same on both. -/
structure Declared.Refines (state : Declared J P) (ops : List (DependencyOp J)) : Prop where
  agrees : ∀ before, before <+: ops → (state.calls before).Agrees (Pairs.calls before)
  performs : ∀ before op, before ++ [op] <+: ops →
    (state.calls before).Performs (Pairs.calls before) op

/-- No dependency is removed while the map holds it more than once. -/
def Declared.RemovesSingles (state : Declared J P) (ops : List (DependencyOp J)) : Prop :=
  ∀ before dependent dependee, before ++ [.removeDependency dependent dependee] <+: ops →
    (state.calls before).map.count (dependent, dependee) ≤ 1

namespace Declared

variable {state : Declared J P} {pairs : Set (J × J)}

omit [DecidableEq P] in
theorem agrees_of_mem_iff (h : ∀ pair, pair ∈ state.map ↔ pair ∈ pairs) : state.Agrees pairs where
  canRun job := by
    rw [Dependencies.canRun_iff]
    exact forall_congr' fun dependee => not_congr (h (job, dependee))
  isEmpty := by
    rw [Dependencies.isEmpty_iff, Set.eq_empty_iff_forall_notMem]
    exact forall_congr' fun pair => not_congr (h pair)

/-- One call keeps the map a representation of the set, unless it removes one of several
occurrences. -/
theorem call_mem_iff (h : ∀ pair, pair ∈ state.map ↔ pair ∈ pairs) {op : DependencyOp J}
    (hsingle : ∀ dependent dependee, op = .removeDependency dependent dependee →
      state.map.count (dependent, dependee) ≤ 1) (pair : J × J) :
    pair ∈ (state.call op).2.map ↔ pair ∈ Pairs.call pairs op := by
  cases op with
  | addDependency dependent dependee distinct =>
      simp [call, Pairs.call, h]
  | removeDependency dependent dependee =>
      have hcount := hsingle dependent dependee rfl
      simp only [call, Dependencies.removeFirst_eq, Dependencies.removeDependency, Pairs.call,
        Set.mem_sdiff, Set.mem_singleton_iff, ← h]
      by_cases hpair : pair = (dependent, dependee)
      · have hgone : (state.map.erase (dependent, dependee)).count (dependent, dependee) = 0 := by
          rw [List.count_erase_self]
          omega
        simp [hpair, List.count_eq_zero.mp hgone]
      · simp [List.mem_erase_of_ne hpair, hpair]
  | resolveDependencies job =>
      simp [call, Pairs.call, Dependencies.mem_resolveDependencies, h]

theorem RemovesSingles.mono {ops before : List (DependencyOp J)} (h : state.RemovesSingles ops)
    (hpart : before <+: ops) : state.RemovesSingles before :=
  fun earlier dependent dependee hearlier =>
    h earlier dependent dependee (hearlier.trans hpart)

/-- The map represents the set after every such sequence of calls. -/
theorem calls_mem_iff {queuePolicies : J → JobPolicies (Option P)} {ops : List (DependencyOp J)}
    (h : (start queuePolicies).RemovesSingles ops) (pair : J × J) :
    pair ∈ ((start queuePolicies).calls ops).map ↔ pair ∈ Pairs.calls ops := by
  induction ops using List.reverseRecOn generalizing pair with
  | nil => simp [start, Pairs.calls]
  | append_singleton ops op ih =>
      rw [calls_concat, Pairs.calls_concat]
      refine call_mem_iff (fun pair => ih (h.mono (List.prefix_append ops [op])) pair) ?_ pair
      rintro dependent dependee rfl
      exact h ops dependent dependee (List.prefix_refl _)

theorem performs_of_mem_iff (h : ∀ pair, pair ∈ state.map ↔ pair ∈ pairs) {op : DependencyOp J}
    (hsingle : ∀ dependent dependee, op = .removeDependency dependent dependee →
      state.map.count (dependent, dependee) ≤ 1) : state.Performs pairs op := by
  have hcall := call_mem_iff h hsingle
  cases op with
  | addDependency dependent dependee distinct => trivial
  | removeDependency dependent dependee =>
      refine ⟨?_, fun hmem => ?_⟩
      · simp [call, Dependencies.removeFirst_eq, h]
      · have hset := (hcall (dependent, dependee)).mp hmem
        exact hset.2 rfl
  | resolveDependencies job => exact hcall

/-- The entry that `removeDependency` promises to be gone has been there at most once. -/
theorem Performs.count_le {dependent dependee : J}
    (h : state.Performs pairs (.removeDependency dependent dependee)) :
    state.map.count (dependent, dependee) ≤ 1 := by
  have hgone := List.count_eq_zero.mpr h.2
  simp only [call, Dependencies.removeFirst_eq, Dependencies.removeDependency,
    List.count_erase_self] at hgone
  omega

/-- **Dependencies behave as a set of pairs** over exactly the sequences of calls that remove no
dependency while the map holds it more than once. -/
theorem refines_iff (queuePolicies : J → JobPolicies (Option P)) (ops : List (DependencyOp J)) :
    (start queuePolicies).Refines ops ↔ (start queuePolicies).RemovesSingles ops := by
  constructor
  · intro hrefines before dependent dependee hpart
    exact (hrefines.performs before _ hpart).count_le
  · intro hsingles
    refine ⟨fun before hpart => ?_, fun before op hpart => ?_⟩
    · exact agrees_of_mem_iff (calls_mem_iff (hsingles.mono hpart))
    · have hbefore := (List.prefix_append before [op]).trans hpart
      refine performs_of_mem_iff (calls_mem_iff (hsingles.mono hbefore)) ?_
      rintro dependent dependee rfl
      exact hsingles before dependent dependee hpart

/-- A dependency declared twice and removed once: the job can still not run. -/
theorem not_refines_twice :
    ¬ (start fun _ : ℕ => (JobPolicies.empty : JobPolicies (Option ℕ))).Refines
      [.addDependency 0 1 (by decide), .addDependency 0 1 (by decide), .removeDependency 0 1] := by
  intro hrefines
  have hagrees := (hrefines.agrees _ (List.prefix_refl _)).canRun 0
  have hset : ∀ dependee, ((0 : ℕ), dependee) ∉ Pairs.calls
      [.addDependency 0 1 (by decide), .addDependency 0 1 (by decide), .removeDependency 0 1] := by
    intro dependee
    simp [Pairs.calls, Pairs.call]
  exact absurd (hagrees.mpr hset) (by decide)

end Declared

end

end ThreadWeaver
