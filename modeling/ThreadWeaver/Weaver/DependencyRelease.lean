import ThreadWeaver.Weaver.DependencySafety
import ThreadWeaver.Weaver.Inventory

/-!
# Release of dependents

The entries of a dependency go when the policies of the dependee are freed, and at no other
time.  So a dependency that is declared before the dependee has been freed is released by it,
and one that is declared later stays for ever.
-/

namespace ThreadWeaver.Weaver

variable {J P T τ ε : Type*} [DecidableEq J]

/-- The free of the dependency policy of the job is still to come: the job has not ended, or a
worker frees its policies and has not come to this one. -/
def Ledger.FreePending (l : Ledger J (Option P) (Dependencies J × τ) (PolicyCall J ε))
    (job : J) : Prop :=
  (∀ status, .ended job status ∉ l.log) ∨
    ∃ thread index, l.work thread = some (job, .freeing index) ∧
      none ∉ (l.queuePolicies job).take index

/-- The job has ended with success, and nobody frees its policies any more. -/
def State.Freed (s : State J (Option P) T (Dependencies J × τ) (PolicyCall J ε)) (job : J) :
    Prop :=
  .ended job .success ∈ s.log ∧ ∀ thread index, (s.worker thread).pc ≠ .busy job (.freeing index)

section

variable [DecidableEq P] {S : Setup J P τ ε}

/-- The program enqueues jobs in `Status_New`, and declares dependencies on jobs whose free is
still to come. -/
def declaresInTime : Discipline J (Option P) (Dependencies J × τ) (PolicyCall J ε) where
  onlyNew := True
  mayConfigure l ops := ∃ dependent dependee, dependent ≠ dependee ∧
    ops = addDependency dependent dependee ∧ l.FreePending dependee

/-! ## What the operations do -/

theorem prefix_assignQueuePolicy (policies : List P) (policy : P) :
    policies <+: State.assignQueuePolicy policies policy := by
  unfold State.assignQueuePolicy
  split
  · exact List.prefix_refl _
  · exact List.prefix_append _ _

theorem prefix_addDependency (dependent dependee job : J)
    (policies : (J → List (Option P)) × Dependencies J × τ) :
    policies.1 job <+: ((addDependency dependent dependee).foldl
      (State.applyPolicyOp S.addDependencyPolicy) policies).1 job := by
  have hassign : ∀ (policies : (J → List (Option P)) × Dependencies J × τ) (changed : J),
      policies.1 job <+: (State.applyPolicyOp S.addDependencyPolicy policies
        (.assignQueuePolicy changed none)).1 job := by
    intro policies changed
    simp only [State.applyPolicyOp, Function.update_apply]
    split
    · rename_i heq
      exact heq ▸ prefix_assignQueuePolicy _ _
    · exact List.prefix_refl _
  exact (hassign policies dependent).trans (hassign _ dependee)

theorem none_mem_dependee (dependent dependee : J)
    (policies : (J → List (Option P)) × Dependencies J × τ) :
    none ∈ ((addDependency dependent dependee).foldl
      (State.applyPolicyOp S.addDependencyPolicy) policies).1 dependee := by
  simp only [addDependency, List.foldl_cons, List.foldl_nil]
  simp [State.applyPolicyOp, State.mem_assignQueuePolicy]

/-! ## The invariant -/

variable {l l' : Ledger J (Option P) (Dependencies J × τ) (PolicyCall J ε)}

namespace Ledger

/-- Every entry was declared, and the free that takes it out is still to come. -/
structure Releasing (l : Ledger J (Option P) (Dependencies J × τ) (PolicyCall J ε)) : Prop where
  declared : ∀ dependent dependee, (dependent, dependee) ∈ l.policyState.1 →
    Declared l.log dependent dependee
  policy : ∀ dependent dependee, (dependent, dependee) ∈ l.policyState.1 →
    none ∈ l.queuePolicies dependee
  pending : ∀ dependent dependee, (dependent, dependee) ∈ l.policyState.1 →
    l.FreePending dependee
  position : ∀ thread job index, l.work thread = some (job, .freeing index) →
    index ≤ (l.queuePolicies job).length

/-- The same where only some jobs succeed: the entries of the other dependees stay. -/
structure ReleasingOn (succeeds : J → Prop)
    (l : Ledger J (Option P) (Dependencies J × τ) (PolicyCall J ε)) : Prop where
  declared : ∀ dependent dependee, (dependent, dependee) ∈ l.policyState.1 →
    Declared l.log dependent dependee
  policy : ∀ dependent dependee, (dependent, dependee) ∈ l.policyState.1 →
    none ∈ l.queuePolicies dependee
  pending : ∀ dependent dependee, (dependent, dependee) ∈ l.policyState.1 →
    succeeds dependee → l.FreePending dependee
  position : ∀ thread job index, l.work thread = some (job, .freeing index) →
    index ≤ (l.queuePolicies job).length

variable {succeeds : J → Prop}

omit [DecidableEq J] [DecidableEq P] in
theorem releasing_iff : l.Releasing ↔ l.ReleasingOn fun _ => True :=
  ⟨fun h => ⟨h.declared, h.policy, fun a b hentry _ => h.pending a b hentry, h.position⟩,
    fun h => ⟨h.declared, h.policy, fun a b hentry => h.pending a b hentry trivial, h.position⟩⟩

omit [DecidableEq J] [DecidableEq P] in
theorem FreePending.mono {job : J} (h : l.FreePending job)
    (hended : ∀ status, .ended job status ∈ l'.log → .ended job status ∈ l.log)
    (hwork : ∀ thread index, l.work thread = some (job, .freeing index) →
      none ∉ (l.queuePolicies job).take index →
      ∃ index, l'.work thread = some (job, .freeing index) ∧
        none ∉ (l'.queuePolicies job).take index) : l'.FreePending job := by
  rcases h with hnever | ⟨thread, index, hfreeing, hnot⟩
  · exact .inl fun status hmem => hnever status (hended status hmem)
  · exact .inr ⟨thread, hwork thread index hfreeing hnot⟩

omit [DecidableEq J] [DecidableEq P] in
/-- A move that neither ends a job nor frees or changes policies. -/
theorem ReleasingOn.of_log (h : l.ReleasingOn succeeds)
    (more : List (Event J (Option P) (PolicyCall J ε))) (hlog : l'.log = l.log ++ more)
    (hended : ∀ job status, .ended job status ∉ more)
    (hmap : l'.policyState.1 = l.policyState.1) (hpolicies : l'.queuePolicies = l.queuePolicies)
    (hwork : ∀ thread job index, l'.work thread = some (job, .freeing index) ↔
      l.work thread = some (job, .freeing index)) : l'.ReleasingOn succeeds where
  declared dependent dependee hentry := by
    rw [Declared, hlog]
    exact List.mem_append_left _ (h.declared dependent dependee (hmap ▸ hentry))
  policy dependent dependee hentry := hpolicies ▸ h.policy dependent dependee (hmap ▸ hentry)
  pending dependent dependee hentry hsucceeds := by
    refine (h.pending dependent dependee (hmap ▸ hentry) hsucceeds).mono ?_ ?_
    · intro status hmem
      rw [hlog] at hmem
      exact (List.mem_append.mp hmem).resolve_right (hended dependee status)
    · intro thread index hfreeing hnot
      exact ⟨index, (hwork thread dependee index).mpr hfreeing, hpolicies ▸ hnot⟩
  position thread job index hfreeing := by
    rw [hpolicies]
    exact h.position thread job index ((hwork thread job index).mp hfreeing)

omit [DecidableEq J] [DecidableEq P] in
theorem freeing_setWork {thread : ℕ} {work : Option (J × Phase)}
    (hbefore : ∀ job index, l.work thread ≠ some (job, .freeing index))
    (hafter : ∀ job index, work ≠ some (job, .freeing index)) (other : ℕ) (job : J) (index : ℕ) :
    Function.update l.work thread work other = some (job, .freeing index) ↔
      l.work other = some (job, .freeing index) := by
  rw [Function.update_apply]
  split
  · rename_i heq
    subst heq
    exact iff_of_false (hafter job index) (hbefore job index)
  · rfl

omit [DecidableEq J] [DecidableEq P] in
/-- A worker frees policies, one or the last of them: the entries of other dependees stay. -/
theorem ReleasingOn.of_free (h : l.ReleasingOn succeeds) (later : ℕ) {thread index : ℕ} {job : J}
    {work : Option (J × Phase)} (hwork : l.work thread = some (job, .freeing index))
    (hlog : l'.log = l.log) (hpolicies : l'.queuePolicies = l.queuePolicies)
    (hupdate : l'.work = Function.update l.work thread work)
    (hposition : ∀ other index, work = some (other, .freeing index) →
      other = job ∧ index = later ∧ later ≤ (l.queuePolicies job).length)
    (hmap : ∀ entry ∈ l'.policyState.1, entry ∈ l.policyState.1)
    (hstays : ∀ dependent, (dependent, job) ∈ l'.policyState.1 → succeeds job →
      none ∉ (l.queuePolicies job).take index →
        work = some (job, .freeing later) ∧ none ∉ (l.queuePolicies job).take later) :
    l'.ReleasingOn succeeds where
  declared dependent dependee hentry := by
    rw [Declared, hlog]
    exact h.declared dependent dependee (hmap _ hentry)
  policy dependent dependee hentry := hpolicies ▸ h.policy dependent dependee (hmap _ hentry)
  pending dependent dependee hentry hsucceeds := by
    refine (h.pending dependent dependee (hmap _ hentry) hsucceeds).mono (fun _ hmem => hlog ▸ hmem) ?_
    intro other position hfreeing hnot
    rw [hupdate, hpolicies]
    by_cases hother : other = thread
    · subst hother
      obtain ⟨rfl, rfl⟩ : job = dependee ∧ index = position := by
        simpa using hwork.symm.trans hfreeing
      obtain ⟨hnow, hlater⟩ := hstays dependent hentry hsucceeds hnot
      exact ⟨later, by rw [Function.update_self, hnow], hlater⟩
    · exact ⟨position, by rw [Function.update_of_ne hother, hfreeing], hnot⟩
  position other dependee position hfreeing := by
    rw [hupdate, Function.update_apply] at hfreeing
    rw [hpolicies]
    split at hfreeing
    · obtain ⟨rfl, rfl, hle⟩ := hposition dependee position hfreeing
      exact hle
    · exact h.position other dependee position hfreeing

theorem ReleasingOn.move (hsuccess : ∀ job, succeeds job → (S.outcome job).status = .success)
    (hends : l.EndsKnown S.addDependencyPolicy) (h : l.ReleasingOn succeeds)
    (hmove : Move S.addDependencyPolicy declaresInTime l l') : l'.ReleasingOn succeeds := by
  cases hmove with
  | note event hnote =>
      refine h.of_log [event] rfl ?_ rfl rfl fun _ _ _ => Iff.rfl
      intro job status hmem
      rw [← List.mem_singleton.mp hmem] at hnote
      cases hnote
  | enqueue job _ => exact h.of_log [.enqueued job] rfl (by simp) rfl rfl fun _ _ _ => Iff.rfl
  | takeOut job _ => exact h.of_log [.dequeued job] rfl (by simp) rfl rfl fun _ _ _ => Iff.rfl
  | clear => exact h.of_log _ rfl (by simp) rfl rfl fun _ _ _ => Iff.rfl
  | refuse hscan =>
      obtain ⟨_, hmap, _⟩ := State.scan_eq_none
        (keptByRefusals_map (S := S) l.queuePolicies l.policyState.1) rfl hscan
      exact h.of_log [] (List.append_nil _).symm (by simp) hmap rfl fun _ _ _ => Iff.rfl
  | @assign thread job _ _ hidle hscan =>
      obtain ⟨_, _, state, _, _, hmap, _, rfl, _⟩ := State.scan_eq_some
        (keptByRefusals_map (S := S) l.queuePolicies l.policyState.1) rfl hscan
      have hafter := withDependencies_canBeExecuted_map (q := S.policies) job
        (l.queuePolicies job) state
      exact h.of_log [_] rfl (by simp) (hafter.trans hmap) rfl
        (freeing_setWork (by simp [hidle]) (by simp))
  | prepare hwork | begin hwork | run hwork | leave hwork =>
      exact h.of_log [] (List.append_nil _).symm (by simp) rfl rfl
        (freeing_setWork (by simp [hwork]) (by simp))
  | @finish thread job hwork =>
      refine ⟨?_, h.policy, ?_, ?_⟩
      · intro dependent dependee hentry
        exact List.mem_append_left _ (h.declared dependent dependee hentry)
      · intro dependent dependee hentry hsucceeds
        by_cases hjob : dependee = job
        · -- the worker is about to free the policies of the job from the first one on
          subst hjob
          exact .inr ⟨thread, 0, Function.update_self .., by simp⟩
        · refine (h.pending dependent dependee hentry hsucceeds).mono ?_ ?_
          · intro status hmem
            refine (List.mem_append.mp hmem).resolve_right ?_
            simp [hjob]
          · intro other index hfreeing hnot
            have hne : other ≠ thread := by
              rintro rfl
              rw [hwork] at hfreeing
              cases hfreeing
            exact ⟨index, (Function.update_of_ne hne ..).trans hfreeing, hnot⟩
      · intro other dependee index hfreeing
        by_cases hother : other = thread
        · obtain ⟨rfl, rfl⟩ : job = dependee ∧ 0 = index := by
            simpa [setWork, hother] using hfreeing
          exact Nat.zero_le _
        · exact h.position other dependee index
            ((Function.update_of_ne hother ..).symm.trans hfreeing)
  | @free thread job index policy hwork hpolicy =>
      have hlt : index < (l.queuePolicies job).length :=
        (List.getElem?_eq_some_iff.mp hpolicy).1
      cases policy with
      | some policy =>
          refine h.of_free (index + 1) hwork rfl rfl rfl ?_ (fun _ => id) ?_
          · rintro other position heq
            cases heq
            exact ⟨rfl, rfl, hlt⟩
          · intro dependent _ _ hnot
            refine ⟨rfl, ?_⟩
            rw [List.take_add_one, hpolicy]
            simpa using hnot
      | none =>
          refine h.of_free (index + 1) hwork rfl rfl rfl ?_ ?_ ?_
          · rintro other position heq
            cases heq
            exact ⟨rfl, rfl, hlt⟩
          · intro entry hentry
            exact withDependencies_free_subset (q := S.policies) none hentry
          · -- a job that ended with success takes its entries along
            intro dependent hentry hsucceeds
            have hended := hends.final job (hends.freeing thread job index hwork)
            have hstatus : l.status job = .success :=
              ((hends.outcome _ _ hended).1).trans (hsuccess job hsucceeds)
            have hafter : (S.addDependencyPolicy.policies.free none job (l.status job)
                l.policyState).1 = l.policyState.1.resolveDependencies job := by
              simp [Setup.addDependencyPolicy, withDependencies, hstatus]
            exact absurd rfl (Dependencies.mem_resolveDependencies.mp (hafter ▸ hentry)).2
  | @freed thread job index hwork hnone =>
      refine h.of_free 0 hwork rfl rfl rfl (by simp) (fun _ => id) ?_
      -- the loop has come to the end of the list, so it has freed the policy
      intro dependent hentry _ hnot
      have hall : (l.queuePolicies job).take index = l.queuePolicies job :=
        List.take_of_length_le (List.getElem?_eq_none_iff.mp hnone)
      exact absurd (h.policy dependent job hentry) (hall ▸ hnot)
  | configure ops hmay =>
      obtain ⟨dependent, dependee, hne, rfl, hpending⟩ := hmay
      obtain ⟨hmap, -, -⟩ := applyPolicyOps_addDependency (S := S) dependent dependee
        (l.queuePolicies, l.policyState)
      have hextends := fun job => prefix_addDependency (S := S) dependent dependee job
        (l.queuePolicies, l.policyState)
      have hentries : ∀ entry ∈ ((addDependency dependent dependee).foldl
          (State.applyPolicyOp S.addDependencyPolicy) (l.queuePolicies, l.policyState)).2.1,
          entry = (dependent, dependee) ∨ entry ∈ l.policyState.1 := fun entry hentry =>
        List.mem_cons.mp (hmap ▸ hentry)
      refine ⟨?_, ?_, ?_, ?_⟩
      · intro a b hentry
        rcases hentries _ hentry with heq | hold
        · cases heq
          exact List.mem_append_right _ (List.mem_singleton.mpr rfl)
        · exact List.mem_append_left _ (h.declared a b hold)
      · intro a b hentry
        rcases hentries _ hentry with heq | hold
        · cases heq
          exact none_mem_dependee dependent dependee _
        · exact (hextends b).subset (h.policy a b hold)
      · intro a b hentry hsucceeds
        have hold : l.FreePending b := by
          rcases hentries _ hentry with heq | hold
          · cases heq
            exact hpending
          · exact h.pending a b hold hsucceeds
        refine hold.mono ?_ ?_
        · intro status hmem
          exact (List.mem_append.mp hmem).resolve_right (by simp)
        · intro thread index hfreeing hnot
          have htake : (((addDependency dependent dependee).foldl
              (State.applyPolicyOp S.addDependencyPolicy) (l.queuePolicies, l.policyState)).1
                b).take index = (l.queuePolicies b).take index := by
            obtain ⟨more, hmore⟩ := hextends b
            rw [← hmore, List.take_append_of_le_length (h.position thread b index hfreeing)]
          exact ⟨index, hfreeing, fun hmem => hnot (htake ▸ hmem)⟩
      · intro thread job index hfreeing
        exact (h.position thread job index hfreeing).trans (hextends job).length_le

theorem Releasing.move (hsuccess : ∀ job, (S.outcome job).status = .success)
    (hends : l.EndsKnown S.addDependencyPolicy) (h : l.Releasing)
    (hmove : Move S.addDependencyPolicy declaresInTime l l') : l'.Releasing :=
  releasing_iff.mpr ((releasing_iff.mp h).move (fun job _ => hsuccess job) hends hmove)

theorem moves_releasingOn {start : Ledger J (Option P) (Dependencies J × τ) (PolicyCall J ε)}
    (hsuccess : ∀ job, succeeds job → (S.outcome job).status = .success)
    (hconserved : start.Conserved) (hends : start.EndsKnown S.addDependencyPolicy)
    (hstart : start.ReleasingOn succeeds)
    (hmoves : Moves S.addDependencyPolicy declaresInTime start l) :
    l.Conserved ∧ l.EndsKnown S.addDependencyPolicy ∧ l.ReleasingOn succeeds := by
  induction hmoves with
  | refl => exact ⟨hconserved, hends, hstart⟩
  | tail _ hmove ih =>
      obtain ⟨hconserved, hends, hreleasing⟩ := ih
      exact ⟨hconserved.move trivial hmove, hends.move hconserved trivial hmove,
        hreleasing.move hsuccess hends hmove⟩

end Ledger

/-! ## Runs -/

section Runs

variable [DecidableEq T] {start : Start J (Option P) (Dependencies J × τ)}
  {s : State J (Option P) T (Dependencies J × τ) (PolicyCall J ε)}

theorem runs_releasing (hsuccess : ∀ job, (S.outcome job).status = .success)
    (hstart : start.policyState.1 = [])
    (hrun : Runs S.addDependencyPolicy declaresInTime.Allows start s) : s.ledger.Releasing := by
  have hinit : (init (T := T) S.addDependencyPolicy start).ledger.ReleasingOn fun _ => True := by
    refine ⟨?_, ?_, ?_, ?_⟩ <;> simp [State.ledger, init, hstart, WorkerPc.work?]
  exact Ledger.releasing_iff.mpr
    (Ledger.moves_releasingOn (fun job _ => hsuccess job) (Ledger.conserved_init start)
      (Ledger.endsKnown_init start) hinit (runs_moves (fun _ _ h => h) hrun)).2.2

omit [DecidableEq J] [DecidableEq P] [DecidableEq T] in
theorem State.Freed.notMem {dependent dependee : J} (hfreed : s.Freed dependee)
    (hreleasing : s.ledger.Releasing) : (dependent, dependee) ∉ s.policyState.1 := by
  intro hentry
  rcases hreleasing.pending dependent dependee hentry with hnever | ⟨thread, index, hfreeing, -⟩
  · exact hnever _ hfreed.1
  · exact hfreed.2 thread index (WorkerPc.work?_eq_some.mp hfreeing)

/-- **A satisfied dependency does not block**, when every dependency is declared before the
dependee is freed: a job whose dependees have all ended with success and been freed is accepted,
and the map is empty when that holds of all jobs. -/
theorem satisfied_dependencies (hsuccess : ∀ job, (S.outcome job).status = .success)
    (hstart : start.policyState.1 = [])
    (hrun : Runs S.addDependencyPolicy declaresInTime.Allows start s) :
    (∀ job, (∀ dependee, Declared s.log job dependee → s.Freed dependee) →
      (S.addDependencyPolicy.policies.canRun none job s.policyState).1 = true) ∧
    ((∀ dependent dependee, Declared s.log dependent dependee → s.Freed dependee) →
      s.policyState.1 = []) := by
  have hreleasing := runs_releasing hsuccess hstart hrun
  constructor
  · intro job hfreed
    show (!s.policyState.1.hasUnresolvedDependencies job) = true
    rw [Bool.not_eq_true', ← Bool.not_eq_true, Dependencies.hasUnresolvedDependencies_iff]
    rintro ⟨dependee, hentry⟩
    exact (hfreed dependee (hreleasing.declared job dependee hentry)).notMem hreleasing hentry
  · intro hfreed
    refine List.eq_nil_iff_forall_not_mem.mpr fun ⟨dependent, dependee⟩ hentry => ?_
    exact (hfreed dependent dependee (hreleasing.declared _ _ hentry)).notMem hreleasing hentry

end Runs

end

/-- The program declares that job 1 depends on job 0, and nothing else. -/
def DeclaresOnce
    (s : State ℕ (Option Unit) Unit (Dependencies ℕ × (Unit → ℕ)) (PolicyCall ℕ Empty))
    (action : Act ℕ (Option Unit) Unit (PolicyCall ℕ Empty)) : Prop :=
  KeepsRunning s action ∧ EnqueuesNew s action ∧ ∀ ops ∈ action.ops?, ops = addDependency 1 0

instance (s : State ℕ (Option Unit) Unit (Dependencies ℕ × (Unit → ℕ)) (PolicyCall ℕ Empty))
    (action : Act ℕ (Option Unit) Unit (PolicyCall ℕ Empty)) :
    Decidable (DeclaresOnce s action) :=
  inferInstanceAs (Decidable (_ ∧ _ ∧ _))

/-- The only worker has ended job 0 with success and freed it. -/
private theorem freed_of_only_worker {ok} {start}
    {s : State ℕ (Option Unit) Unit (Dependencies ℕ × (Unit → ℕ)) (PolicyCall ℕ Empty)}
    (hok : ∀ s action, ok s action → KeepsRunning s action)
    (hrun : Runs numbered.addDependencyPolicy ok start s) (hcreated : s.createdThreads = 1)
    (hpc : (s.worker 0).pc = .busy 0 .returned) (hended : .ended 0 .success ∈ s.log) :
    s.Freed 0 := by
  refine ⟨hended, fun thread index hfreeing => ?_⟩
  cases thread with
  | zero =>
      rw [hpc] at hfreeing
      cases hfreeing
  | succ thread =>
      have hstarted := (runs_accounted_of_keepsRunning (hrun.mono hok)).tallied.started
        (thread + 1) (by omega)
      rw [hstarted] at hfreeing
      cases hfreeing

/-- Job 0 has ended and released job 1. -/
theorem satisfied_dependencies_two_jobs :
    ∃ s : State ℕ (Option Unit) Unit (Dependencies ℕ × (Unit → ℕ)) (PolicyCall ℕ Empty),
      Declared s.log 1 0 ∧ s.Freed 0 ∧ s.policyState.1 = [] ∧
        (numbered.addDependencyPolicy.policies.canRun none 1 s.policyState).1 = true := by
  obtain ⟨s, hrun, hlog, hcreated, hpc⟩ :
      ∃ s, Runs numbered.addDependencyPolicy
        (fun s action => DeclaresOnce s action ∧ (action.ops? ≠ none → s.log = []))
        (.plain ([], fun _ => 0)) s ∧ _ :=
    Library.exists_runWhere
      (fun s => s.log = [.configured (addDependency 1 0), .enqueued 0, .enqueued 1,
        .assigned 0 0, .ended 0 .success] ∧ s.createdThreads = 1 ∧
        (s.worker 0).pc = .busy 0 .returned)
      (List.flatten [[.setMaximumNumberOfThreads 1, .configure () (addDependency 1 0), .proceed (),
        .enqueue [some 0, some 1]], List.replicate 9 (.worker 0)]) (by decide +kernel)
  have hfreed : s.Freed 0 :=
    freed_of_only_worker (fun _ _ h => h.1.1) hrun hcreated hpc (by simp [hlog])
  have hallowed : Runs numbered.addDependencyPolicy declaresInTime.Allows _ s := hrun.mono
    fun s action h => by
      refine ⟨fun _ => h.1.2.1, fun ops hops => ⟨1, 0, by decide, h.1.2.2 ops hops, .inl ?_⟩⟩
      have hnothing : s.log = [] := h.2 (by rw [hops]; simp)
      simp [State.ledger, hnothing]
  have honly : ∀ dependent dependee, Declared s.log dependent dependee → s.Freed dependee := by
    intro dependent dependee hdeclared
    simp only [Declared, hlog, addDependency] at hdeclared
    obtain ⟨-, rfl, -⟩ : dependent = 1 ∧ dependee = 0 ∧ _ := by simpa using hdeclared
    exact hfreed
  obtain ⟨haccepts, hempty⟩ := satisfied_dependencies (fun _ => rfl) rfl hallowed
  exact ⟨s, by simp [Declared, hlog], hfreed, hempty honly, haccepts 1 (honly 1)⟩

/-- **A dependency on a job that has ended already is not released.** -/
theorem satisfied_dependency_blocks :
    ∃ s : State ℕ (Option Unit) Unit (Dependencies ℕ × (Unit → ℕ)) (PolicyCall ℕ Empty),
      Runs numbered.addDependencyPolicy DeclaresOnce (.plain ([], fun _ => 0)) s ∧
        (∀ dependent dependee, Declared s.log dependent dependee → s.Freed dependee) ∧
        (numbered.addDependencyPolicy.policies.canRun none 1 s.policyState).1 = false ∧
        s.policyState.1 = [(1, 0)] := by
  obtain ⟨s, hrun, hlog, hcreated, hpc, hrefuses, hmap⟩ :
      ∃ s, Runs numbered.addDependencyPolicy DeclaresOnce (.plain ([], fun _ => 0)) s ∧ _ :=
    Library.exists_runWhere
      (fun s => s.log = [.enqueued 0, .assigned 0 0, .ended 0 .success,
          .configured (addDependency 1 0)] ∧ s.createdThreads = 1 ∧
        (s.worker 0).pc = .busy 0 .returned ∧
        (numbered.addDependencyPolicy.policies.canRun none 1 s.policyState).1 = false ∧
        s.policyState.1 = [(1, 0)])
      (List.flatten [[.setMaximumNumberOfThreads 1, .enqueue [some 0]],
        List.replicate 8 (.worker 0),
        [.configure () (addDependency 1 0)]]) (by decide +kernel)
  have hfreed : s.Freed 0 :=
    freed_of_only_worker (fun _ _ h => h.1) hrun hcreated hpc (by simp [hlog])
  refine ⟨s, hrun, fun dependent dependee hdeclared => ?_, hrefuses, hmap⟩
  simp only [Declared, hlog, addDependency] at hdeclared
  obtain ⟨-, rfl, -⟩ : dependent = 1 ∧ dependee = 0 ∧ _ := by simpa using hdeclared
  exact hfreed

end ThreadWeaver.Weaver
