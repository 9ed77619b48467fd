import ThreadWeaver.Weaver.Conservation

/-!
# Safety of dependencies

A program declares dependencies with `addDependency` before the dependent is assigned and
does not take them back.  Then no job is assigned before the jobs it depends on have ended
with success.  The entry of a dependency is in the map, and the policy in the list of the
dependent, until the free of the dependee resolves it, which it does after a success only.
-/

namespace ThreadWeaver.Weaver

open Library (split_of_append split_of_append_singleton)

variable {J P T τ ε : Type*} [DecidableEq J]

/-- A program that uses `DependencyPolicy` besides its own policies. -/
def Setup.addDependencyPolicy (S : Setup J P τ ε) :
    Setup J (Option P) (Dependencies J × τ) (PolicyCall J ε) :=
  { S with
    policies := withDependencies S.policies
    call := PolicyCall.apply S.call }

/-- `DependencyPolicy::addDependency`, which holds the mutexes of both jobs. -/
def addDependency (dependent dependee : J) : List (PolicyOp J (Option P) (PolicyCall J ε)) :=
  [.assignQueuePolicy dependent none, .assignQueuePolicy dependee none,
    .call (.insert dependent dependee)]

/-- The operation does not touch the map or take the policy from a job. -/
def PolicyOp.sparesDependencies : PolicyOp J (Option P) (PolicyCall J ε) → Bool
  | .assignQueuePolicy _ _ => true
  | .removeQueuePolicy _ policy => policy.isSome
  | .call (.other _) => true
  | .call (.insert _ _) | .call (.remove _ _) => false

section

variable [DecidableEq P] {S : Setup J P τ ε}

/-- The dependency was declared. -/
def Declared (log : List (Event J (Option P) (PolicyCall J ε))) (dependent dependee : J) : Prop :=
  .configured (addDependency dependent dependee) ∈ log

/-- The program enqueues jobs in `Status_New`, and changes the policies of jobs in ways that
spare the dependencies or declares one, of a job that was never assigned. -/
def declares : Discipline J (Option P) (Dependencies J × τ) (PolicyCall J ε) where
  onlyNew := True
  mayConfigure l ops := (∀ op ∈ ops, op.sparesDependencies) ∨
    ∃ dependent dependee, dependent ≠ dependee ∧ ops = addDependency dependent dependee ∧
      ∀ thread, .assigned thread dependent ∉ l.log

/-! ## What the operations do -/

/-- An operation takes the policy from no job, unless it is made to do that. -/
theorem none_mem_applyPolicyOp {op : PolicyOp J (Option P) (PolicyCall J ε)}
    (hop : ∀ job, op ≠ .removeQueuePolicy job none)
    {policies : (J → List (Option P)) × Dependencies J × τ} {job : J}
    (hmem : none ∈ policies.1 job) :
    none ∈ (State.applyPolicyOp S.addDependencyPolicy policies op).1 job := by
  cases op with
  | assignQueuePolicy changed policy =>
      simp only [State.applyPolicyOp, Function.update_apply]
      split
      · rename_i heq
        exact State.mem_assignQueuePolicy.mpr (.inr (heq ▸ hmem))
      · exact hmem
  | removeQueuePolicy changed policy =>
      simp only [State.applyPolicyOp, Function.update_apply]
      split
      · rename_i heq
        subst heq
        refine (State.mem_removeQueuePolicy_of_ne ?_).mpr hmem
        rintro rfl
        exact hop _ rfl
      · exact hmem
  | call call => exact hmem

/-- Operations that spare the dependencies leave the map, and the policy where it is. -/
theorem applyPolicyOps_of_spares {ops : List (PolicyOp J (Option P) (PolicyCall J ε))}
    (hspares : ∀ op ∈ ops, op.sparesDependencies)
    (policies : (J → List (Option P)) × Dependencies J × τ) :
    (ops.foldl (State.applyPolicyOp S.addDependencyPolicy) policies).2.1 = policies.2.1 ∧
      ∀ job, none ∈ policies.1 job →
        none ∈ (ops.foldl (State.applyPolicyOp S.addDependencyPolicy) policies).1 job := by
  induction ops generalizing policies with
  | nil => exact ⟨rfl, fun _ => id⟩
  | cons op rest ih =>
      rw [List.forall_mem_cons] at hspares
      obtain ⟨hmap, hkeeps⟩ :=
        ih hspares.2 (State.applyPolicyOp S.addDependencyPolicy policies op)
      rw [List.foldl_cons]
      constructor
      · rw [hmap]
        cases op with
        | call call =>
            cases call with
            | other call => rfl
            | insert _ _ | remove _ _ => cases hspares.1
        | assignQueuePolicy _ _ | removeQueuePolicy _ _ => rfl
      · intro job hmem
        refine hkeeps job (none_mem_applyPolicyOp ?_ hmem)
        rintro changed rfl
        cases hspares.1

theorem applyPolicyOps_addDependency (dependent dependee : J)
    (policies : (J → List (Option P)) × Dependencies J × τ) :
    let after := (addDependency dependent dependee).foldl
      (State.applyPolicyOp S.addDependencyPolicy) policies
    after.2.1 = (dependent, dependee) :: policies.2.1 ∧ none ∈ after.1 dependent ∧
      ∀ job, none ∈ policies.1 job → none ∈ after.1 job := by
  simp only [addDependency, List.foldl_cons, List.foldl_nil]
  refine ⟨rfl, ?_, fun job hmem => ?_⟩
  · have hfirst : none ∈ (State.applyPolicyOp S.addDependencyPolicy policies
        (.assignQueuePolicy dependent none)).1 dependent := by
      simp [State.applyPolicyOp, State.mem_assignQueuePolicy]
    refine none_mem_applyPolicyOp ?_ (none_mem_applyPolicyOp ?_ hfirst) <;> simp
  · refine none_mem_applyPolicyOp ?_
      (none_mem_applyPolicyOp ?_ (none_mem_applyPolicyOp ?_ hmem)) <;> simp

/-! ## The invariant -/

/-- What keeps jobs from being assigned too early. -/
structure Ledger.DependenciesSafe
    (l : Ledger J (Option P) (Dependencies J × τ) (PolicyCall J ε)) : Prop where
  policy : ∀ dependent dependee, (dependent, dependee) ∈ l.policyState.1 →
    none ∈ l.queuePolicies dependent
  unassigned : ∀ dependent dependee, (dependent, dependee) ∈ l.policyState.1 →
    ∀ thread, .assigned thread dependent ∉ l.log
  declared : ∀ dependent dependee, Declared l.log dependent dependee →
    (dependent, dependee) ∈ l.policyState.1 ∨ .ended dependee .success ∈ l.log
  ordered : ∀ before after thread dependent,
    l.log = before ++ .assigned thread dependent :: after →
    ∀ dependee, Declared l.log dependent dependee → .ended dependee .success ∈ before

variable {l l' : Ledger J (Option P) (Dependencies J × τ) (PolicyCall J ε)}

namespace Ledger

omit [DecidableEq J] [DecidableEq P] in
/-- A move that neither assigns a job nor declares a dependency, and resolves dependencies
on jobs that have succeeded only. -/
theorem DependenciesSafe.of_subset (h : l.DependenciesSafe)
    (more : List (Event J (Option P) (PolicyCall J ε))) (hlog : l'.log = l.log ++ more)
    (hassigned : ∀ thread job, .assigned thread job ∉ more)
    (hdeclared : ∀ dependent dependee, ¬ Declared more dependent dependee)
    (hmap : ∀ entry ∈ l'.policyState.1, entry ∈ l.policyState.1)
    (hpolicies : ∀ job, none ∈ l.queuePolicies job → none ∈ l'.queuePolicies job)
    (hresolved : ∀ dependent dependee, (dependent, dependee) ∈ l.policyState.1 →
      (dependent, dependee) ∈ l'.policyState.1 ∨ .ended dependee .success ∈ l.log) :
    l'.DependenciesSafe := by
  have hold : ∀ dependent dependee, Declared l'.log dependent dependee →
      Declared l.log dependent dependee := by
    intro dependent dependee hmem
    rw [Declared, hlog] at hmem
    exact (List.mem_append.mp hmem).resolve_right (hdeclared dependent dependee)
  refine ⟨?_, ?_, ?_, ?_⟩
  · exact fun dependent dependee hmem =>
      hpolicies dependent (h.policy dependent dependee (hmap _ hmem))
  · intro dependent dependee hmem thread hassign
    rw [hlog] at hassign
    rcases List.mem_append.mp hassign with hassign | hassign
    · exact h.unassigned dependent dependee (hmap _ hmem) thread hassign
    · exact hassigned thread dependent hassign
  · intro dependent dependee hmem
    have hended : .ended dependee .success ∈ l.log → .ended dependee .success ∈ l'.log := by
      intro hended
      rw [hlog]
      exact List.mem_append_left _ hended
    rcases h.declared dependent dependee (hold _ _ hmem) with hentry | hended'
    · exact (hresolved dependent dependee hentry).imp_right hended
    · exact .inr (hended hended')
  · intro before after thread dependent hsplit dependee hmem
    rw [hlog] at hsplit
    obtain ⟨rest, hbefore⟩ := split_of_append hsplit (hassigned thread dependent)
    exact h.ordered before rest thread dependent hbefore dependee (hold _ _ hmem)

omit [DecidableEq J] [DecidableEq P] in
theorem DependenciesSafe.of_log (h : l.DependenciesSafe)
    (more : List (Event J (Option P) (PolicyCall J ε))) (hlog : l'.log = l.log ++ more)
    (hassigned : ∀ thread job, .assigned thread job ∉ more)
    (hdeclared : ∀ ops, .configured ops ∉ more)
    (hmap : l'.policyState.1 = l.policyState.1) (hpolicies : l'.queuePolicies = l.queuePolicies) :
    l'.DependenciesSafe := by
  refine h.of_subset more hlog hassigned (fun _ _ => hdeclared _) ?_ ?_ ?_
  · exact fun entry hentry => hmap ▸ hentry
  · exact fun job hmem => hpolicies ▸ hmem
  · exact fun dependent dependee hentry => .inl (hmap ▸ hentry)

omit [DecidableEq P] in
theorem keptByRefusals_map (queuePolicies : J → List (Option P)) (map : Dependencies J) :
    State.KeptByRefusals S.addDependencyPolicy queuePolicies (fun state => state.1 = map) :=
  fun _ _ hmap _ => (withDependencies_canBeExecuted_map _ _ _).trans hmap

theorem DependenciesSafe.move (hends : l.EndsKnown S.addDependencyPolicy)
    (h : l.DependenciesSafe) (hmove : Move S.addDependencyPolicy declares l l') :
    l'.DependenciesSafe := by
  cases hmove with
  | note event hnote =>
      refine h.of_log [event] rfl ?_ ?_ rfl rfl
      · rintro thread job hmem
        rw [← List.mem_singleton.mp hmem] at hnote
        cases hnote
      · rintro ops hmem
        rw [← List.mem_singleton.mp hmem] at hnote
        cases hnote
  | enqueue job _ => exact h.of_log [.enqueued job] rfl (by simp) (by simp) rfl rfl
  | takeOut job _ => exact h.of_log [.dequeued job] rfl (by simp) (by simp) rfl rfl
  | clear => exact h.of_log _ rfl (by simp) (by simp) rfl rfl
  | refuse hscan =>
      obtain ⟨_, hmap, _⟩ := State.scan_eq_none
        (keptByRefusals_map (S := S) l.queuePolicies l.policyState.1) rfl hscan
      exact h.of_log [] (List.append_nil _).symm (by simp) (by simp) hmap rfl
  | @assign thread job _ _ hidle hscan =>
      obtain ⟨_, _, state, _, _, hmap, haccepts, rfl, _⟩ := State.scan_eq_some
        (keptByRefusals_map (S := S) l.queuePolicies l.policyState.1) rfl hscan
      have hafter := withDependencies_canBeExecuted_map (q := S.policies) job
        (l.queuePolicies job) state
      -- the job has no entry of its own
      have hfree : ∀ dependee, (job, dependee) ∉ l.policyState.1 := by
        intro dependee hentry
        exact withDependencies_accepts (h.policy job dependee hentry) haccepts dependee
          (hmap.symm ▸ hentry)
      have hmap' : (((withDependencies S.policies).canBeExecuted (l.queuePolicies job) job
          state).2).1 = l.policyState.1 := hafter.trans hmap
      refine ⟨?_, ?_, ?_, ?_⟩
      · exact fun dependent dependee hentry => h.policy dependent dependee (hmap' ▸ hentry)
      · intro dependent dependee hentry other hassigned
        have hentry' : (dependent, dependee) ∈ l.policyState.1 := hmap' ▸ hentry
        rcases List.mem_append.mp hassigned with hassigned | hassigned
        · exact h.unassigned dependent dependee hentry' other hassigned
        · cases List.mem_singleton.mp hassigned
          exact hfree dependee hentry'
      · intro dependent dependee hdeclared
        have hold : Declared l.log dependent dependee :=
          (List.mem_append.mp hdeclared).resolve_right (by simp)
        refine (h.declared dependent dependee hold).imp ?_ (List.mem_append_left _)
        exact fun hentry => hmap'.symm ▸ hentry
      · intro before after other dependent hsplit dependee hdeclared
        have hold : Declared l.log dependent dependee :=
          (List.mem_append.mp hdeclared).resolve_right (by simp)
        rcases split_of_append_singleton hsplit with ⟨rfl, heq⟩ | ⟨rest, hlog⟩
        · cases heq
          exact (h.declared _ dependee hold).resolve_left (hfree dependee)
        · exact h.ordered before rest other dependent hlog dependee hold
  | prepare _ | begin _ | run _ | freed _ _ | leave _ =>
      exact h.of_log [] (List.append_nil _).symm (by simp) (by simp) rfl rfl
  | finish _ => exact h.of_log [_] rfl (by simp) (by simp) rfl rfl
  | @free thread job index policy hwork hpolicy =>
      cases policy with
      | some policy => exact h.of_log [] (List.append_nil _).symm (by simp) (by simp) rfl rfl
      | none =>
          by_cases hsuccess : l.status job = .success
          · -- the entries that go are those of a job whose success is in the log
            have hended : .ended job .success ∈ l.log :=
              hsuccess ▸ hends.final job (hends.freeing thread job index hwork)
            have hafter : (S.addDependencyPolicy.policies.free none job (l.status job)
                l.policyState).1 = l.policyState.1.resolveDependencies job := by
              simp [Setup.addDependencyPolicy, withDependencies, hsuccess]
            refine h.of_subset [] (List.append_nil _).symm (by simp) (by simp [Declared]) ?_
              (fun _ => id) ?_
            · intro entry hentry
              exact (Dependencies.mem_resolveDependencies.mp (hafter ▸ hentry)).1
            · intro dependent dependee hentry
              by_cases hdependee : dependee = job
              · exact .inr (hdependee ▸ hended)
              · left
                show _ ∈ (S.addDependencyPolicy.policies.free none job (l.status job)
                  l.policyState).1
                rw [hafter]
                exact Dependencies.mem_resolveDependencies.mpr ⟨hentry, hdependee⟩
          · have hafter : S.addDependencyPolicy.policies.free none job (l.status job)
                l.policyState = l.policyState := by
              simp [Setup.addDependencyPolicy, withDependencies, hsuccess]
            exact h.of_log [] (List.append_nil _).symm (by simp) (by simp)
              (congrArg Prod.fst hafter) rfl
  | configure ops hmay =>
      rcases hmay with hspares | ⟨dependent, dependee, hne, rfl, hnever⟩
      · obtain ⟨hmap, hkeeps⟩ := applyPolicyOps_of_spares (S := S) hspares
          (l.queuePolicies, l.policyState)
        refine h.of_subset [.configured ops] rfl (by simp) ?_ (fun _ hentry => hmap ▸ hentry)
          hkeeps fun _ _ hentry => .inl (hmap.symm ▸ hentry)
        intro dependent dependee hdeclared
        rw [Declared, List.mem_singleton, Event.configured.injEq] at hdeclared
        rw [← hdeclared] at hspares
        exact Bool.false_ne_true (hspares _ (List.mem_of_getLast? rfl))
      · obtain ⟨hmap, hgiven, hkeeps⟩ := applyPolicyOps_addDependency (S := S) dependent dependee
          (l.queuePolicies, l.policyState)
        have hentries : ∀ entry ∈ ((addDependency dependent dependee).foldl
            (State.applyPolicyOp S.addDependencyPolicy) (l.queuePolicies, l.policyState)).2.1,
            entry = (dependent, dependee) ∨ entry ∈ l.policyState.1 := fun entry hentry =>
          List.mem_cons.mp (hmap ▸ hentry)
        have hunassigned : ∀ other job, .assigned other job ∈
            l.log ++ [.configured (addDependency dependent dependee)] →
            .assigned other job ∈ l.log := fun other job hassigned =>
          (List.mem_append.mp hassigned).resolve_right (by simp)
        refine ⟨?_, ?_, ?_, ?_⟩
        · intro a b hentry
          rcases hentries _ hentry with heq | hold
          · cases heq
            exact hgiven
          · exact hkeeps a (h.policy a b hold)
        · intro a b hentry other hassigned
          rcases hentries _ hentry with heq | hold
          · cases heq
            exact hnever other (hunassigned other _ hassigned)
          · exact h.unassigned a b hold other (hunassigned other a hassigned)
        · intro a b hdeclared
          rcases List.mem_append.mp hdeclared with hold | hnew
          · refine (h.declared a b hold).imp ?_ (List.mem_append_left _)
            exact fun hentry => hmap.symm ▸ List.mem_cons_of_mem _ hentry
          · left
            simp only [List.mem_singleton, Event.configured.injEq, addDependency, List.cons.injEq,
              PolicyOp.assignQueuePolicy.injEq, and_true] at hnew
            obtain ⟨rfl, rfl, _⟩ := hnew
            exact hmap.symm ▸ List.mem_cons_self
        · intro before after other a hsplit b hdeclared
          obtain ⟨rest, hlog⟩ := split_of_append hsplit (by simp)
          rcases List.mem_append.mp hdeclared with hold | hnew
          · exact h.ordered before rest other a hlog b hold
          · simp only [List.mem_singleton, Event.configured.injEq, addDependency,
              List.cons.injEq, PolicyOp.assignQueuePolicy.injEq, and_true] at hnew
            obtain ⟨rfl, _⟩ := hnew
            refine absurd ?_ (hnever other)
            rw [hlog]
            exact List.mem_append_right _ List.mem_cons_self

theorem moves_safe {start : Ledger J (Option P) (Dependencies J × τ) (PolicyCall J ε)}
    (hconserved : start.Conserved) (hends : start.EndsKnown S.addDependencyPolicy)
    (hstart : start.DependenciesSafe) (hmoves : Moves S.addDependencyPolicy declares start l) :
    l.Conserved ∧ l.EndsKnown S.addDependencyPolicy ∧ l.DependenciesSafe := by
  induction hmoves with
  | refl => exact ⟨hconserved, hends, hstart⟩
  | tail _ hmove ih =>
      obtain ⟨hconserved, hends, hsafe⟩ := ih
      exact ⟨hconserved.move trivial hmove, hends.move hconserved trivial hmove,
        hsafe.move hends hmove⟩

end Ledger

/-! ## Runs -/

section Runs

variable [DecidableEq T] {start : Start J (Option P) (Dependencies J × τ)}
  {s : State J (Option P) T (Dependencies J × τ) (PolicyCall J ε)}

theorem runs_safe (hstart : start.policyState.1 = [])
    (hrun : Runs S.addDependencyPolicy declares.Allows start s) :
    s.ledger.Conserved ∧ s.ledger.EndsKnown S.addDependencyPolicy ∧ s.ledger.DependenciesSafe := by
  have hinit : (init (T := T) S.addDependencyPolicy start).ledger.DependenciesSafe := by
    refine ⟨?_, ?_, ?_, ?_⟩ <;> simp [State.ledger, init, hstart, Declared]
  exact Ledger.moves_safe (Ledger.conserved_init start) (Ledger.endsKnown_init start) hinit
    (runs_moves (fun _ _ h => h) hrun)

omit [DecidableEq P] in
/-- A job that was assigned has waited for all jobs it depends on, directly or not. -/
theorem ended_of_transGen {l : Ledger J (Option P) (Dependencies J × τ) (PolicyCall J ε)}
    (hends : l.EndsKnown S.addDependencyPolicy) (hsafe : l.DependenciesSafe)
    {dependent dependee : J} (hpath : Relation.TransGen (Declared l.log) dependent dependee)
    {thread : ℕ} (hassigned : .assigned thread dependent ∈ l.log) :
    .ended dependee .success ∈ l.log := by
  -- one declared dependency
  have hone : ∀ a b, Declared l.log a b → (∃ thread, .assigned thread a ∈ l.log) →
      .ended b .success ∈ l.log := by
    rintro a b hdeclared ⟨thread, hmem⟩
    obtain ⟨before, after, hlog⟩ := List.append_of_mem hmem
    have hbefore := hsafe.ordered before after thread a hlog b hdeclared
    rw [hlog]
    exact List.mem_append_left _ hbefore
  induction hpath with
  | single hdeclared => exact hone _ _ hdeclared ⟨thread, hassigned⟩
  | tail _ hdeclared ih => exact hone _ _ hdeclared (hends.outcome _ _ ih).2

/-- **No job is assigned before the jobs it depends on have ended with success.**  Hence none
starts that depends, directly or not, on a job without success, and a job that is freed after
a success has no unresolved dependency. -/
theorem dependency_safety (hstart : start.policyState.1 = [])
    (hrun : Runs S.addDependencyPolicy declares.Allows start s) :
    (∀ before after thread dependent, s.log = before ++ .assigned thread dependent :: after →
      ∀ dependee, Declared s.log dependent dependee → .ended dependee .success ∈ before) ∧
    (∀ dependent dependee, Relation.TransGen (Declared s.log) dependent dependee →
      ∀ status ≠ .success, .ended dependee status ∈ s.log →
        ∀ thread, .assigned thread dependent ∉ s.log) ∧
    ∀ thread job index next, (s.worker thread).pc = .busy job (.freeing index) →
      (s.queuePolicies job)[index]? = some none →
      step S.addDependencyPolicy s (.worker thread) = some next → next.status job = .success →
      next.policyState.1.hasUnresolvedDependencies job = false := by
  obtain ⟨hconserved, hends, hsafe⟩ := runs_safe hstart hrun
  refine ⟨hsafe.ordered, ?_, ?_⟩
  · intro dependent dependee hpath status hstatus hended thread hassigned
    have hsuccess := ended_of_transGen hends hsafe hpath hassigned
    exact hstatus ((hends.outcome _ _ hended).1.trans (hends.outcome _ _ hsuccess).1.symm)
  · intro thread job index next hpc hpolicy hstep hsuccess
    simp only [step, Option.ite_none_right_eq_some] at hstep
    simp only [workerStep, hpc, hpolicy, Option.some.injEq] at hstep
    have hstatus : s.status job = .success := by
      rw [← hstep.2] at hsuccess
      exact hsuccess
    have hmap : next.policyState.1 = s.policyState.1.resolveDependencies job := by
      rw [← hstep.2]
      simp [State.moveTo, Setup.addDependencyPolicy, withDependencies, hstatus]
    -- the job was assigned, so it has no entry of its own
    have hplace : lastPlace job s.log = some .ended :=
      hends.freeing thread job index (congrArg WorkerPc.work? hpc)
    obtain ⟨_, assignee, hassigned⟩ := hends.outcome _ _ (hends.final job hplace)
    rw [hmap, ← Bool.not_eq_true, Dependencies.hasUnresolvedDependencies_iff]
    rintro ⟨dependee, hentry⟩
    exact hsafe.unassigned job dependee (Dependencies.mem_resolveDependencies.mp hentry).1
      assignee hassigned

end Runs

end

/-- The program declares that job 1 depends on job 0 before it does anything else. -/
def DeclaresFirst
    (s : State ℕ (Option Unit) Unit (Dependencies ℕ × (Unit → ℕ)) (PolicyCall ℕ Empty))
    (action : Act ℕ (Option Unit) Unit (PolicyCall ℕ Empty)) : Prop :=
  EnqueuesNew s action ∧ ∀ ops ∈ action.ops?, ops = addDependency 1 0 ∧ s.log = []

instance (s : State ℕ (Option Unit) Unit (Dependencies ℕ × (Unit → ℕ)) (PolicyCall ℕ Empty))
    (action : Act ℕ (Option Unit) Unit (PolicyCall ℕ Empty)) :
    Decidable (DeclaresFirst s action) :=
  inferInstanceAs (Decidable (_ ∧ _))

/-- Job 1 stands first in the list and is assigned when job 0 has ended with success. -/
theorem dependency_safety_two_jobs :
    ∃ (s : State ℕ (Option Unit) Unit (Dependencies ℕ × (Unit → ℕ)) (PolicyCall ℕ Empty))
      (before after : List (Event ℕ (Option Unit) (PolicyCall ℕ Empty))),
      s.log = before ++ .assigned 0 1 :: after ∧ .ended 0 .success ∈ before := by
  obtain ⟨s, hrun, hassigned, hdeclared⟩ :
      ∃ s, Runs numbered.addDependencyPolicy DeclaresFirst (.plain ([], fun _ => 0)) s ∧ _ :=
    Library.exists_runWhere
      (fun s => .assigned 0 1 ∈ s.log ∧ .configured (addDependency 1 0) ∈ s.log)
      (List.flatten [[.configure () (addDependency 1 0), .proceed (), .enqueue [some 0, some 1]],
        List.replicate 12 (.worker 0)]) (by decide +kernel)
  have hallowed : Runs numbered.addDependencyPolicy declares.Allows _ s := hrun.mono
    fun s action h => by
      refine ⟨fun _ => h.1, fun ops hops => .inr ⟨1, 0, by decide, (h.2 ops hops).1, ?_⟩⟩
      intro thread hmem
      simp [State.ledger, (h.2 ops hops).2] at hmem
  obtain ⟨before, after, hlog⟩ := List.append_of_mem hassigned
  exact ⟨s, before, after, hlog,
    (dependency_safety rfl hallowed).1 before after 0 1 hlog 0 hdeclared⟩

end ThreadWeaver.Weaver
