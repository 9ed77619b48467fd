import Mathlib.Data.List.ReduceOption
import ThreadWeaver.QueuePolicy

/-!
# The dependency policy

`DependencyPolicy` keeps a multimap with an entry `(dependent, dependee)` for every
declared dependency.  A job may run when it has no entry of its own; the entries of a
dependee go when it is freed after a success.

The policy is one object among those of a program.  `withDependencies q` adds it, as
`none`, to the policies `q` of a program, which cannot see its map.
-/

namespace ThreadWeaver

/-- The entries of `DependencyPolicy`'s `QMultiMap`, as pairs `(dependent, dependee)`; an
entry may occur several times. -/
abbrev Dependencies (J : Type*) := List (J × J)

namespace Dependencies

variable {J : Type*} [DecidableEq J]

/-- `DependencyPolicy::hasUnresolvedDependencies`. -/
def hasUnresolvedDependencies (map : Dependencies J) (job : J) : Bool :=
  map.any fun entry => entry.1 = job

/-- `DependencyPolicy::resolveDependencies`, for a job that succeeded. -/
def resolveDependencies (map : Dependencies J) (job : J) : Dependencies J :=
  map.filter fun entry => entry.2 ≠ job

/-- The map after `DependencyPolicy::removeDependency`, which stops at the first match. -/
def removeDependency (map : Dependencies J) (dependent dependee : J) : Dependencies J :=
  map.erase (dependent, dependee)

theorem hasUnresolvedDependencies_iff {map : Dependencies J} {job : J} :
    map.hasUnresolvedDependencies job = true ↔ ∃ dependee, (job, dependee) ∈ map := by
  simp [hasUnresolvedDependencies]

theorem mem_resolveDependencies {map : Dependencies J} {job : J} {entry : J × J} :
    entry ∈ map.resolveDependencies job ↔ entry ∈ map ∧ entry.2 ≠ job := by
  simp [resolveDependencies]

end Dependencies

/-- The calls on policy objects that a program makes by itself: two of `DependencyPolicy`,
and its own `ε` on its own policies. -/
inductive PolicyCall (J ε : Type*)
  | insert (dependent dependee : J)
  | remove (dependent dependee : J)
  | other (call : ε)
  deriving DecidableEq, Repr

section

variable {J P σ ε : Type*} [DecidableEq J]

/-- The policies of a program together with `DependencyPolicy::instance()`, which is `none`.
`canRun` refuses a job with unresolved dependencies, `free` resolves those on a successful
job, `release` does nothing. -/
def withDependencies (q : QueuePolicies J P σ) :
    QueuePolicies J (Option P) (Dependencies J × σ) where
  canRun
    | none, job, state => (!state.1.hasUnresolvedDependencies job, state)
    | some policy, job, state =>
        ((q.canRun policy job state.2).1, state.1, (q.canRun policy job state.2).2)
  free
    | none, job, status, state =>
        if status = .success then (state.1.resolveDependencies job, state.2) else state
    | some policy, job, status, state => (state.1, q.free policy job status state.2)
  release
    | none, _, state => state
    | some policy, job, state => (state.1, q.release policy job state.2)

/-- What a call does to the state of the policies. -/
def PolicyCall.apply (other : ε → σ → σ) :
    PolicyCall J ε → Dependencies J × σ → Dependencies J × σ
  | insert dependent dependee, state => ((dependent, dependee) :: state.1, state.2)
  | remove dependent dependee, state => (state.1.removeDependency dependent dependee, state.2)
  | .other call, state => (state.1, other call state.2)

variable {q : QueuePolicies J P σ}

theorem withDependencies_canRun_map (policy : Option P) (job : J) (state : Dependencies J × σ) :
    ((withDependencies q).canRun policy job state).2.1 = state.1 := by
  cases policy <;> rfl

theorem withDependencies_release_map (policy : Option P) (job : J)
    (state : Dependencies J × σ) : ((withDependencies q).release policy job state).1 = state.1 := by
  cases policy <;> rfl

theorem withDependencies_canBeExecuted_map (job : J) (policies : List (Option P))
    (state : Dependencies J × σ) :
    ((withDependencies q).canBeExecuted policies job state).2.1 = state.1 := by
  refine QueuePolicies.canBeExecuted_keeps
    (I := fun after : Dependencies J × σ => after.1 = state.1) ?_ ?_ policies rfl
  · intro policy after h
    rw [withDependencies_canRun_map, h]
  · intro policy after h
    rw [withDependencies_release_map, h]

/-- The dependency policy takes nothing that would have to be given back. -/
theorem withDependencies_undoneUpTo {R : σ → σ → Prop} (h : q.UndoneUpTo R) :
    (withDependencies q).UndoneUpTo fun state state' => state.1 = state'.1 ∧ R state.2 state'.2 where
  equivalence := {
    refl := fun state => ⟨rfl, h.equivalence.refl state.2⟩
    symm := fun hstate => ⟨hstate.1.symm, h.equivalence.symm hstate.2⟩
    trans := fun hstate hstate' =>
      ⟨hstate.1.trans hstate'.1, h.equivalence.trans hstate.2 hstate'.2⟩ }
  canRun policy job {state state'} hstate := by
    obtain ⟨hmap, hother⟩ := hstate
    cases policy with
    | none => exact ⟨by simp [withDependencies, hmap], hmap, hother⟩
    | some policy =>
        obtain ⟨hanswer, hafter⟩ := h.canRun policy job hother
        exact ⟨hanswer, hmap, hafter⟩
  release {policy job state state'} hstate := by
    cases policy with
    | none => exact hstate
    | some policy => exact ⟨hstate.1, h.release hstate.2⟩
  accepted {policy job state} haccepts := by
    cases policy with
    | none => exact ⟨rfl, h.equivalence.refl _⟩
    | some policy => exact ⟨rfl, h.accepted haccepts⟩
  refused {policy job state} hrefuses := by
    cases policy with
    | none => exact ⟨rfl, h.equivalence.refl _⟩
    | some policy => exact ⟨rfl, h.refused hrefuses⟩
  comm {policy other job state} := by
    cases policy with
    | none => exact ⟨rfl, h.equivalence.refl _⟩
    | some policy =>
        cases other with
        | none => exact ⟨rfl, h.equivalence.refl _⟩
        | some other => exact ⟨rfl, h.comm⟩

/-- `DependencyPolicy::canRun` accepts a job that has no entry. -/
theorem notMem_of_canRun {job dependee : J} {state : Dependencies J × σ}
    (h : ((withDependencies q).canRun none job state).1 = true) : (job, dependee) ∉ state.1 := by
  intro hmem
  have hunresolved : state.1.hasUnresolvedDependencies job = true :=
    Dependencies.hasUnresolvedDependencies_iff.mpr ⟨dependee, hmem⟩
  simp [withDependencies, hunresolved] at h

/-- **A job under the dependency policy is accepted only without unresolved dependencies.** -/
theorem withDependencies_accepts {job : J} {policies : List (Option P)}
    {state : Dependencies J × σ} (hpolicy : none ∈ policies)
    (haccepts : (withDependencies q).Accepts policies job state) (dependee : J) :
    (job, dependee) ∉ state.1 := by
  obtain ⟨asked, hmap, hcanRun⟩ :=
    QueuePolicies.canRun_of_accepts
      (I := fun after : Dependencies J × σ => after.1 = state.1)
      (fun policy after h => by rw [withDependencies_canRun_map, h]) rfl haccepts hpolicy
  rw [← hmap]
  exact notMem_of_canRun hcanRun

/-- Among other policies the dependency policy lets the attempt pass or stops it. -/
theorem withDependencies_acquire {job : J} {policies : List (Option P)} {state : Dependencies J × σ}
    (hresolved : none ∈ policies → state.1.hasUnresolvedDependencies job = false) :
    ((withDependencies q).acquire job policies state).2 =
      ((q.acquire job policies.reduceOption state.2).2.1, state.1,
        (q.acquire job policies.reduceOption state.2).2.2) := by
  induction policies generalizing state with
  | nil => rfl
  | cons policy rest ih =>
      cases policy with
      | none =>
          have hfree := hresolved List.mem_cons_self
          have hasked : (withDependencies q).canRun none job state = (true, state) := by
            simp [withDependencies, hfree]
          simp only [QueuePolicies.acquire, hasked, if_true, List.reduceOption_cons_of_none]
          exact ih fun _ => hfree
      | some policy =>
          have hasked : (withDependencies q).canRun (some policy) job state =
              ((q.canRun policy job state.2).1, state.1, (q.canRun policy job state.2).2) := rfl
          cases hanswer : (q.canRun policy job state.2).1 with
          | true =>
              simp only [QueuePolicies.acquire, hasked, hanswer, if_true,
                List.reduceOption_cons_of_some]
              exact ih fun hmem => hresolved (List.mem_cons_of_mem _ hmem)
          | false => simp [QueuePolicies.acquire, hasked, hanswer, List.reduceOption_cons_of_some]

/-- **A job is accepted** if it has no unresolved dependencies, should it be under the dependency
policy, and if its other policies accept it. -/
theorem withDependencies_accepts_iff {job : J} {policies : List (Option P)}
    {state : Dependencies J × σ} : (withDependencies q).Accepts policies job state ↔
      (none ∈ policies → state.1.hasUnresolvedDependencies job = false) ∧
        q.Accepts policies.reduceOption job state.2 := by
  have hsame : (none ∈ policies → state.1.hasUnresolvedDependencies job = false) →
      ((withDependencies q).Accepts policies job state ↔
        q.Accepts policies.reduceOption job state.2) := fun hresolved => by
    rw [QueuePolicies.accepts_iff, QueuePolicies.accepts_iff, withDependencies_acquire hresolved]
  refine ⟨fun haccepts => ?_, fun ⟨hresolved, haccepts⟩ => (hsame hresolved).mpr haccepts⟩
  have hresolved : none ∈ policies → state.1.hasUnresolvedDependencies job = false := by
    intro hpolicy
    rw [← Bool.not_eq_true, Dependencies.hasUnresolvedDependencies_iff]
    rintro ⟨dependee, hentry⟩
    exact withDependencies_accepts hpolicy haccepts dependee hentry
  exact ⟨hresolved, (hsame hresolved).mp haccepts⟩

/-- An accepted attempt does to the other policies what it would do without dependencies. -/
theorem withDependencies_canBeExecuted {job : J} {policies : List (Option P)}
    {state : Dependencies J × σ} (haccepts : (withDependencies q).Accepts policies job state) :
    ((withDependencies q).canBeExecuted policies job state).2 =
      (state.1, (q.canBeExecuted policies.reduceOption job state.2).2) := by
  obtain ⟨hresolved, hother⟩ := withDependencies_accepts_iff.mp haccepts
  rw [QueuePolicies.accepts_iff] at hother
  simp only [QueuePolicies.canBeExecuted, withDependencies_acquire hresolved, hother, if_true]

theorem withDependencies_accepts_of_notMem {job : J} {policies : List (Option P)}
    {state : Dependencies J × σ} (honly : ∀ policy ∈ policies, policy = none)
    (hfree : ∀ dependee, (job, dependee) ∉ state.1) :
    (withDependencies q).Accepts policies job state := by
  have hnone : policies.reduceOption = [] := by
    refine List.eq_nil_iff_forall_not_mem.mpr fun policy hmem => ?_
    cases honly _ (List.reduceOption_mem_iff.mp hmem)
  rw [withDependencies_accepts_iff, hnone]
  refine ⟨fun _ => ?_, QueuePolicies.accepts_nil q job state.2⟩
  rw [← Bool.not_eq_true, Dependencies.hasUnresolvedDependencies_iff]
  rintro ⟨dependee, hentry⟩
  exact hfree dependee hentry

theorem withDependencies_free_subset {job : J} {status : Status} (policy : Option P)
    {state : Dependencies J × σ} {entry : J × J}
    (hmem : entry ∈ ((withDependencies q).free policy job status state).1) : entry ∈ state.1 := by
  cases policy with
  | none =>
      simp only [withDependencies] at hmem
      split at hmem
      · exact (Dependencies.mem_resolveDependencies.mp hmem).1
      · exact hmem
  | some policy => exact hmem

theorem withDependencies_free_mem {job : J} {status : Status} (policy : Option P)
    {state : Dependencies J × σ} {entry : J × J} (hmem : entry ∈ state.1)
    (hne : entry.2 ≠ job) : entry ∈ ((withDependencies q).free policy job status state).1 := by
  cases policy with
  | none =>
      simp only [withDependencies]
      split
      · exact Dependencies.mem_resolveDependencies.mpr ⟨hmem, hne⟩
      · exact hmem
  | some policy => exact hmem

end

end ThreadWeaver
