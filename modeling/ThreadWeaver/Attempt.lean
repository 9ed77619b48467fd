import ThreadWeaver.DependencyPairs
import ThreadWeaver.ResourceRestrictionPolicy

/-!
# An attempt to execute a job

The policies of this library are the dependency policy, the resource restrictions and the
blockers of the sequences, each an object with a state of its own.  `canBeExecuted` asks those
a job carries one after the other and releases the acquired ones again when one refuses.

A restriction appends the job to its customers and takes the first occurrence out again.  For a
job that was a customer before, that is an earlier occurrence, so what a refused attempt leaves
is the same only up to the order of the customers.
-/

namespace ThreadWeaver

/-- The policy objects: `DependencyPolicy::instance()`, the restrictions `R` and the blockers
`B` of the sequences of a program. -/
inductive PolicyObject (R B : Type*)
  | dependency
  | restriction (restriction : R)
  | blocker (blocker : B)
  deriving DecidableEq, Repr

/-- What an object keeps: the map, the cap and the customers, or nothing. -/
def PolicyObject.State {R B : Type*} (J : Type*) : PolicyObject R B → Type _
  | dependency => Dependencies J
  | restriction _ => Restriction J
  | blocker _ => PUnit

section

variable {J R B : Type*} [DecidableEq J]

variable (J R B) in
/-- The methods of the policy objects.  A blocker refuses every job. -/
def policyObjects : PolicyObjects J (PolicyObject.State (R := R) (B := B) J) where
  canRun
    | .dependency, job, map => (Dependencies.canRun map job, map)
    | .restriction _, job, restriction => Restriction.canRun job restriction
    | .blocker _, _, state => (false, state)
  free
    | .dependency, job, status, map => Dependencies.resolve map job status
    | .restriction _, job, _, restriction => Restriction.free job restriction
    | .blocker _, _, _, state => state
  release
    | .dependency, _, map => map
    | .restriction _, job, restriction => Restriction.free job restriction
    | .blocker _, _, state => state

/-- The restriction is as before: the same cap and the same customers, in the same order if the
job was not one of them. -/
structure Restriction.Untouched (job : J) (before after : Restriction J) : Prop where
  cap : after.cap = before.cap
  perm : after.customers.Perm before.customers
  eq : job ∉ before.customers → after.customers = before.customers

namespace Restriction

omit [DecidableEq J] in
theorem Untouched.refl (job : J) (restriction : Restriction J) :
    restriction.Untouched job restriction :=
  ⟨rfl, .refl _, fun _ => rfl⟩

/-- The release takes one occurrence of the job out again, the first one. -/
theorem untouched_free {job : J} {restriction : Restriction J}
    (haccepts : (restriction.canRun job).1 = true) :
    restriction.Untouched job ((restriction.canRun job).2.free job) := by
  rw [(canRun_eq haccepts).2]
  refine ⟨rfl, ?_, fun hnot => ?_⟩
  · have hsame := same_free_canRun job haccepts
    rw [(canRun_eq haccepts).2] at hsame
    exact hsame.2
  · show (restriction.customers ++ [job]).erase job = restriction.customers
    rw [List.erase_append_right _ hnot, List.erase_cons_head, List.append_nil]

end Restriction

/-- What no answer of an object distinguishes: for a restriction the order of its customers. -/
def PolicyObject.Same : ∀ p : PolicyObject R B, p.State J → p.State J → Prop
  | dependency => fun map other => map = other
  | restriction _ => Restriction.Same
  | blocker _ => fun _ _ => True

/-- The release of each policy of this library undoes its `canRun`. -/
theorem policyObjects_releaseUndoes : (policyObjects J R B).ReleaseUndoes PolicyObject.Same where
  equivalence
    | .dependency => ⟨fun _ => rfl, Eq.symm, Eq.trans⟩
    | .restriction _ => Restriction.same_equivalence
    | .blocker _ => ⟨fun _ => trivial, fun _ => trivial, fun _ _ => trivial⟩
  canRun p job x y h := by
    cases p with
    | dependency => exact ⟨congrArg (Dependencies.canRun · job) h, h⟩
    | restriction _ => exact Restriction.Same.canRun job h
    | blocker _ => exact ⟨rfl, trivial⟩
  release p job x y h := by
    cases p with
    | dependency => exact h
    | restriction _ => exact Restriction.Same.free job h
    | blocker _ => trivial
  accepted p job x haccepts := by
    cases p with
    | dependency => rfl
    | restriction _ => exact Restriction.same_free_canRun job haccepts
    | blocker _ => trivial
  refused p job x hrefuses := by
    cases p with
    | dependency => rfl
    | restriction _ => exact Restriction.same_canRun hrefuses
    | blocker _ => trivial

variable [DecidableEq R] [DecidableEq B]

/-- **A refused attempt leaves no trace** in the map nor in any restriction. -/
theorem policyObjects_refused (policies : JobPolicies (PolicyObject R B)) (job : J)
    (state : ∀ p : PolicyObject R B, p.State J)
    (hrefused : ¬ (policyObjects J R B).policies.Accepts policies.list job state) :
    let after := ((policyObjects J R B).policies.canBeExecuted policies.list job state).2
    after .dependency = state .dependency ∧
      ∀ restriction, Restriction.Untouched job (state (.restriction restriction))
        (after (.restriction restriction)) := by
  refine ⟨?_, fun restriction => ?_⟩
  · rcases PolicyObjects.refused_apply policies.nodup state hrefused .dependency with
      hsame | ⟨-, hafter⟩ | ⟨-, hafter⟩
    · exact hsame
    · exact hafter
    · exact hafter
  · rcases PolicyObjects.refused_apply policies.nodup state hrefused (.restriction restriction) with
      hsame | ⟨hanswer, hafter⟩ | ⟨hanswer, hafter⟩
    · rw [hsame]
      exact .refl job _
    · rw [hafter]
      have hkept := Restriction.canRun_refused hanswer
      simp only [policyObjects, hkept]
      exact .refl job _
    · rw [hafter]
      exact Restriction.untouched_free hanswer

/-- An accepted attempt makes the job a customer of each restriction it carries, once, and does
nothing else. -/
theorem policyObjects_accepted (policies : JobPolicies (PolicyObject R B)) (job : J)
    (state : ∀ p : PolicyObject R B, p.State J)
    (haccepts : (policyObjects J R B).policies.Accepts policies.list job state) :
    let after := ((policyObjects J R B).policies.canBeExecuted policies.list job state).2
    after .dependency = state .dependency ∧
      ∀ restriction, after (.restriction restriction) =
        let before : Restriction J := state (.restriction restriction)
        if .restriction restriction ∈ policies.list then
          { before with customers := before.customers ++ [job] }
        else before := by
  have hall := (PolicyObjects.accepts policies.nodup state).mp haccepts
  refine ⟨?_, fun restriction => ?_⟩
  · rw [PolicyObjects.accepted_apply policies.nodup state haccepts]
    split <;> rfl
  · rw [PolicyObjects.accepted_apply policies.nodup state haccepts]
    split
    · rename_i hmem
      exact (Restriction.canRun_eq (hall _ hmem)).2
    · rfl

/-- **An attempt is exact**: a job is accepted if every policy it carries accepts it in the state
before, a refusal leaves no trace, and an acceptance makes the job a customer of the restrictions
it carries and does nothing else. -/
theorem canBeExecuted_exact (policies : JobPolicies (PolicyObject R B)) (job : J)
    (state : ∀ p : PolicyObject R B, p.State J) :
    let attempt := (policyObjects J R B).policies.canBeExecuted policies.list job state
    (attempt.1 = true ↔
        ∀ p ∈ policies.list, ((policyObjects J R B).canRun p job (state p)).1 = true) ∧
      (attempt.1 = false → attempt.2 .dependency = state .dependency ∧
        ∀ restriction, Restriction.Untouched job (state (.restriction restriction))
          (attempt.2 (.restriction restriction))) ∧
      (attempt.1 = true → attempt.2 .dependency = state .dependency ∧
        ∀ restriction, attempt.2 (.restriction restriction) =
          let before : Restriction J := state (.restriction restriction)
          if .restriction restriction ∈ policies.list then
            { before with customers := before.customers ++ [job] }
          else before) := by
  refine ⟨PolicyObjects.accepts policies.nodup state, fun hrefused => ?_, fun haccepts => ?_⟩
  · refine policyObjects_refused policies job state ?_
    unfold QueuePolicies.Accepts
    simp [hrefused]
  · exact policyObjects_accepted policies job state haccepts

end

end ThreadWeaver
