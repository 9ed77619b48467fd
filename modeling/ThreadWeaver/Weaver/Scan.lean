import ThreadWeaver.Weaver.Step

/-!
# The scan of the list

`takeFirstAvailableJobOrSuspendOrWait` asks the policies of one candidate after the other.
The attempts it makes on candidates that are refused may change the state of the policies,
so its answer is described with a property `I` of that state which refused attempts keep:
the job it takes is accepted in a state with `I`, and every job before it is refused in one.
-/

namespace ThreadWeaver.Weaver.State

variable {J P σ ε : Type*} {S : Setup J P σ ε} {queuePolicies : J → List P}
  {assignments rest : List J} {state state' : σ} {job : J} {I : σ → Prop}

/-- Refused attempts to execute a job keep the property. -/
def KeptByRefusals (S : Setup J P σ ε) (queuePolicies : J → List P) (I : σ → Prop) : Prop :=
  ∀ candidate state, I state → ¬ S.policies.Accepts (queuePolicies candidate) candidate state →
    I (S.policies.canBeExecuted (queuePolicies candidate) candidate state).2

/-- A scan that finds nothing has refused every job and leaves the list as it was. -/
theorem scan_eq_none (hkept : KeptByRefusals S queuePolicies I) (hstate : I state)
    (hscan : scan S queuePolicies assignments state = (none, rest, state')) :
    rest = assignments ∧ I state' ∧ ∀ candidate ∈ assignments, ∃ state, I state ∧
      ¬ S.policies.Accepts (queuePolicies candidate) candidate state := by
  induction assignments generalizing state rest with
  | nil =>
      simp only [scan, Prod.mk.injEq, true_and] at hscan
      obtain ⟨rfl, rfl⟩ := hscan
      exact ⟨rfl, hstate, by simp⟩
  | cons candidate tail ih =>
      simp only [scan] at hscan
      split at hscan
      · simp at hscan
      · rename_i hrefused
        simp only [Prod.mk.injEq] at hscan
        obtain ⟨hnone, rfl, rfl⟩ := hscan
        obtain ⟨hrest, hlast, hall⟩ :=
          ih (hkept candidate state hstate hrefused) (Prod.ext hnone rfl)
        refine ⟨by rw [hrest], hlast, ?_⟩
        rw [List.forall_mem_cons]
        exact ⟨⟨state, hstate, hrefused⟩, hall⟩

/-- A scan that finds a job takes it out of the list and has refused those before it. -/
theorem scan_eq_some (hkept : KeptByRefusals S queuePolicies I) (hstate : I state)
    (hscan : scan S queuePolicies assignments state = (some job, rest, state')) :
    ∃ front back before, assignments = front ++ job :: back ∧ rest = front ++ back ∧
      I before ∧ S.policies.Accepts (queuePolicies job) job before ∧
      state' = (S.policies.canBeExecuted (queuePolicies job) job before).2 ∧
      ∀ candidate ∈ front, ∃ state, I state ∧
        ¬ S.policies.Accepts (queuePolicies candidate) candidate state := by
  induction assignments generalizing state rest with
  | nil => simp [scan] at hscan
  | cons candidate tail ih =>
      simp only [scan] at hscan
      split at hscan
      · rename_i haccepts
        simp only [Prod.mk.injEq, Option.some.injEq] at hscan
        obtain ⟨rfl, rfl, rfl⟩ := hscan
        exact ⟨[], tail, state, rfl, rfl, hstate, haccepts, rfl, by simp⟩
      · rename_i hrefused
        simp only [Prod.mk.injEq] at hscan
        obtain ⟨hsome, rfl, rfl⟩ := hscan
        obtain ⟨front, back, before, htail, hrest, hbefore, haccepts, hstate', hall⟩ :=
          ih (hkept candidate state hstate hrefused) (Prod.ext hsome rfl)
        refine ⟨candidate :: front, back, before, by rw [htail]; rfl, by rw [hrest]; rfl,
          hbefore, haccepts, hstate', ?_⟩
        rw [List.forall_mem_cons]
        exact ⟨⟨state, hstate, hrefused⟩, hall⟩

theorem scan_eq_some_split
    (hscan : scan S queuePolicies assignments state = (some job, rest, state')) :
    ∃ front back, assignments = front ++ job :: back ∧ rest = front ++ back := by
  obtain ⟨front, back, _, hlist, hrest, _⟩ :=
    scan_eq_some (I := fun _ => True) (fun _ _ _ _ => trivial) trivial hscan
  exact ⟨front, back, hlist, hrest⟩

theorem scan_eq_none_rest
    (hscan : scan S queuePolicies assignments state = (none, rest, state')) :
    rest = assignments :=
  (scan_eq_none (I := fun _ => True) (fun _ _ _ _ => trivial) trivial hscan).1

end ThreadWeaver.Weaver.State
