import ThreadWeaver.Library.Acyclic
import ThreadWeaver.Weaver.DependencyRelease
import ThreadWeaver.Weaver.Schedule

/-!
# Progress of dependent jobs

Jobs that have no other policies, depend on each other without a cycle and succeed never get
stuck.  When every dependency is declared before its dependee is assigned, the map holds the
declared dependencies whose dependee has not been freed, and no others.  So while no worker has
a job, a job in the list that depends on none of the others has no entry and is accepted.
-/

namespace ThreadWeaver.Weaver

open Library (split_of_append split_of_append_singleton)

variable {J P T τ ε : Type*} [DecidableEq J]

section

variable [DecidableEq P] {S : Setup J P τ ε}

/-- The program enqueues jobs in `Status_New`, and changes the policies of jobs only to declare
a dependency, on a job that was never assigned. -/
def declaresBefore : Discipline J (Option P) (Dependencies J × τ) (PolicyCall J ε) where
  onlyNew := True
  mayConfigure l ops := ∃ dependent dependee, dependent ≠ dependee ∧
    ops = addDependency dependent dependee ∧ ∀ thread, .assigned thread dependee ∉ l.log

/-- `addDependency` assigns no other policy. -/
theorem mem_addDependency {dependent dependee job : J}
    {policies : (J → List (Option P)) × Dependencies J × τ} {policy : Option P}
    (hmem : policy ∈ ((addDependency dependent dependee).foldl
      (State.applyPolicyOp S.addDependencyPolicy) policies).1 job) :
    policy = none ∨ policy ∈ policies.1 job := by
  have hassign : ∀ (policies : (J → List (Option P)) × Dependencies J × τ) (changed : J),
      policy ∈ (State.applyPolicyOp S.addDependencyPolicy policies
        (.assignQueuePolicy changed none)).1 job → policy = none ∨ policy ∈ policies.1 job := by
    intro policies changed hmem
    simp only [State.applyPolicyOp, Function.update_apply] at hmem
    split at hmem
    · rename_i heq
      exact heq ▸ State.mem_assignQueuePolicy.mp hmem
    · exact .inr hmem
  exact (hassign _ dependee hmem).elim .inl (hassign policies dependent)

variable {l l' : Ledger J (Option P) (Dependencies J × τ) (PolicyCall J ε)}

namespace Ledger

theorem Move.inTime (hends : l.EndsKnown S.addDependencyPolicy)
    (h : Move S.addDependencyPolicy declaresBefore l l') :
    Move S.addDependencyPolicy declaresInTime l l' := by
  refine h.mono (fun _ _ _ => trivial) ?_
  rintro ops - ⟨dependent, dependee, hne, hops, hnever⟩
  refine ⟨dependent, dependee, hne, hops, .inl fun status hended => ?_⟩
  obtain ⟨-, thread, hassigned⟩ := hends.outcome dependee status hended
  exact hnever thread hassigned

/-! ## The invariant -/

/-- The dependency policy is the only one, and a declared dependency is in the map until the
dependee has succeeded. -/
structure Tracking (l : Ledger J (Option P) (Dependencies J × τ) (PolicyCall J ε)) : Prop where
  only : ∀ job, ∀ policy ∈ l.queuePolicies job, policy = none
  policy : ∀ dependent dependee, (dependent, dependee) ∈ l.policyState.1 →
    none ∈ l.queuePolicies dependent
  declared : ∀ dependent dependee, Declared l.log dependent dependee →
    (dependent, dependee) ∈ l.policyState.1 ∨ .ended dependee .success ∈ l.log

omit [DecidableEq J] [DecidableEq P] in
/-- A move that declares nothing and takes out entries of dependees that succeeded only. -/
theorem Tracking.of_log (h : l.Tracking)
    (more : List (Event J (Option P) (PolicyCall J ε))) (hlog : l'.log = l.log ++ more)
    (hdeclared : ∀ ops, .configured ops ∉ more) (hpolicies : l'.queuePolicies = l.queuePolicies)
    (hmap : ∀ entry ∈ l'.policyState.1, entry ∈ l.policyState.1)
    (hresolved : ∀ dependent dependee, (dependent, dependee) ∈ l.policyState.1 →
      (dependent, dependee) ∈ l'.policyState.1 ∨ .ended dependee .success ∈ l.log) :
    l'.Tracking where
  only := hpolicies ▸ h.only
  policy dependent dependee hentry := hpolicies ▸ h.policy dependent dependee (hmap _ hentry)
  declared dependent dependee hmem := by
    rw [Declared, hlog] at hmem
    have hold : Declared l.log dependent dependee :=
      (List.mem_append.mp hmem).resolve_right (hdeclared _)
    have hmore : .ended dependee .success ∈ l.log → .ended dependee .success ∈ l'.log := by
      intro hended
      rw [hlog]
      exact List.mem_append_left _ hended
    rcases h.declared dependent dependee hold with hentry | hended
    · exact (hresolved dependent dependee hentry).imp_right hmore
    · exact .inr (hmore hended)

omit [DecidableEq J] [DecidableEq P] in
theorem Tracking.of_map (h : l.Tracking)
    (more : List (Event J (Option P) (PolicyCall J ε))) (hlog : l'.log = l.log ++ more)
    (hdeclared : ∀ ops, .configured ops ∉ more) (hpolicies : l'.queuePolicies = l.queuePolicies)
    (hmap : l'.policyState.1 = l.policyState.1) : l'.Tracking :=
  h.of_log more hlog hdeclared hpolicies (fun _ hentry => hmap ▸ hentry)
    fun _ _ hentry => .inl (hmap ▸ hentry)

theorem Tracking.move (hends : l.EndsKnown S.addDependencyPolicy) (h : l.Tracking)
    (hmove : Move S.addDependencyPolicy declaresBefore l l') : l'.Tracking := by
  cases hmove with
  | note event hnote =>
      refine h.of_map [event] rfl ?_ rfl rfl
      intro ops hmem
      rw [← List.mem_singleton.mp hmem] at hnote
      cases hnote
  | enqueue job _ => exact h.of_map [.enqueued job] rfl (by simp) rfl rfl
  | takeOut job _ => exact h.of_map [.dequeued job] rfl (by simp) rfl rfl
  | clear => exact h.of_map _ rfl (by simp) rfl rfl
  | refuse hscan =>
      obtain ⟨_, hmap, _⟩ := State.scan_eq_none
        (keptByRefusals_map (S := S) l.queuePolicies l.policyState.1) rfl hscan
      exact h.of_map [] (List.append_nil _).symm (by simp) rfl hmap
  | @assign thread job _ _ hidle hscan =>
      obtain ⟨_, _, state, _, _, hmap, _, rfl, _⟩ := State.scan_eq_some
        (keptByRefusals_map (S := S) l.queuePolicies l.policyState.1) rfl hscan
      have hafter := withDependencies_canBeExecuted_map (q := S.policies) job
        (l.queuePolicies job) state
      exact h.of_map [_] rfl (by simp) rfl (hafter.trans hmap)
  | prepare _ | begin _ | run _ | freed _ _ | leave _ =>
      exact h.of_map [] (List.append_nil _).symm (by simp) rfl rfl
  | finish _ => exact h.of_map [_] rfl (by simp) rfl rfl
  | @free thread job index policy hwork hpolicy =>
      cases policy with
      | some policy => exact h.of_map [] (List.append_nil _).symm (by simp) rfl rfl
      | none =>
          by_cases hsuccess : l.status job = .success
          · -- the entries that go are those of a job whose success is in the log
            have hended : .ended job .success ∈ l.log :=
              hsuccess ▸ hends.final job (hends.freeing thread job index hwork)
            have hafter : (S.addDependencyPolicy.policies.free none job (l.status job)
                l.policyState).1 = l.policyState.1.resolveDependencies job := by
              simp [Setup.addDependencyPolicy, withDependencies, hsuccess]
            refine h.of_log [] (List.append_nil _).symm (by simp) rfl ?_ ?_
            · intro entry hentry
              exact (Dependencies.mem_resolveDependencies.mp (hafter ▸ hentry)).1
            · intro dependent dependee hentry
              by_cases hdependee : dependee = job
              · exact .inr (hdependee ▸ hended)
              · left
                show _ ∈ (S.addDependencyPolicy.policies.free none job (l.status job)
                  l.policyState).1
                rw [hafter]
                exact Dependencies.mem_resolveDependencies.mpr ⟨hentry, hdependee⟩
          · have hafter : S.addDependencyPolicy.policies.free none job (l.status job)
                l.policyState = l.policyState := by
              simp [Setup.addDependencyPolicy, withDependencies, hsuccess]
            exact h.of_map [] (List.append_nil _).symm (by simp) rfl (congrArg Prod.fst hafter)
  | configure ops hmay =>
      obtain ⟨dependent, dependee, hne, rfl, hnever⟩ := hmay
      obtain ⟨hmap, hgiven, hkeeps⟩ := applyPolicyOps_addDependency (S := S) dependent dependee
        (l.queuePolicies, l.policyState)
      refine ⟨?_, ?_, ?_⟩
      · intro job policy hmem
        exact (mem_addDependency hmem).elim id (h.only job policy)
      · intro a b hentry
        rcases List.mem_cons.mp (hmap ▸ hentry) with heq | hold
        · cases heq
          exact hgiven
        · exact hkeeps a (h.policy a b hold)
      · intro a b hdeclared
        rcases List.mem_append.mp hdeclared with hold | hnew
        · refine (h.declared a b hold).imp ?_ (List.mem_append_left _)
          exact fun hentry => hmap.symm ▸ List.mem_cons_of_mem _ hentry
        · left
          simp only [List.mem_singleton, Event.configured.injEq, addDependency, List.cons.injEq,
            PolicyOp.assignQueuePolicy.injEq, and_true] at hnew
          obtain ⟨rfl, rfl, _⟩ := hnew
          exact hmap.symm ▸ List.mem_cons_self

/-- What holds in every run of such a program. -/
structure Declaring (S : Setup J P τ ε)
    (l : Ledger J (Option P) (Dependencies J × τ) (PolicyCall J ε)) : Prop where
  conserved : l.Conserved
  ends : l.EndsKnown S.addDependencyPolicy
  once : l.EndsOnce
  releasing : l.Releasing
  tracking : l.Tracking

theorem Declaring.move (hsuccess : ∀ job, (S.outcome job).status = .success)
    (h : l.Declaring S) (hmove : Move S.addDependencyPolicy declaresBefore l l') :
    l'.Declaring S where
  conserved := h.conserved.move trivial hmove
  ends := h.ends.move h.conserved trivial hmove
  once := h.once.move h.conserved trivial hmove
  releasing := h.releasing.move hsuccess h.ends (hmove.inTime h.ends)
  tracking := h.tracking.move h.ends hmove

theorem Declaring.moves (hsuccess : ∀ job, (S.outcome job).status = .success)
    (h : l.Declaring S) (hmoves : Moves S.addDependencyPolicy declaresBefore l l') :
    l'.Declaring S := by
  induction hmoves with
  | refl => exact h
  | tail _ hmove ih => exact ih.move hsuccess hmove

/-! ## A job that can go on -/

omit [DecidableEq P] in
/-- **Somebody can go on**: while no worker has a job, a job in the list has no entry, if the
dependencies form no cycle and every dependee is on its way. -/
theorem Declaring.exists_free (h : l.Declaring S)
    (hacyclic : ∀ job, ¬ Relation.TransGen (Declared l.log) job job)
    (hdependees : ∀ dependent dependee, Declared l.log dependent dependee →
      l.OnItsWay S.addDependencyPolicy dependee)
    (hidle : ∀ thread job phase, l.work thread = some (job, phase) → phase = .returned)
    (hne : l.assignments ≠ []) :
    ∃ job ∈ l.assignments, ∀ dependee, (job, dependee) ∉ l.policyState.1 := by
  -- a job that depends on no other job in the list
  obtain ⟨job, hjob, hfirst⟩ := Library.exists_notRelated_of_acyclic hacyclic hne
  refine ⟨job, hjob, fun dependee hentry => ?_⟩
  have hdeclared : Declared l.log job dependee := h.releasing.declared job dependee hentry
  -- its dependee has not ended, since nobody frees policies
  have hnever : ∀ status, .ended dependee status ∉ l.log := by
    rcases h.releasing.pending job dependee hentry with hnever | ⟨thread, index, hfreeing, -⟩
    · exact hnever
    · cases hidle thread dependee _ hfreeing
  rcases hdependees job dependee hdeclared with hlisted | ⟨thread, phase, hbefore, hwork⟩ | hended
  · exact hfirst dependee hlisted hdeclared
  · rw [hidle thread dependee phase hwork] at hbefore
    cases hbefore
  · exact hnever _ hended

omit [DecidableEq P] in
theorem Tracking.accepts (h : l.Tracking) {job : J} {state : Dependencies J × τ}
    (hmap : state.1 = l.policyState.1) (hfree : ∀ dependee, (job, dependee) ∉ l.policyState.1) :
    S.addDependencyPolicy.policies.Accepts (l.queuePolicies job) job state :=
  withDependencies_accepts_of_notMem (h.only job) fun dependee hentry =>
    hfree dependee (hmap ▸ hentry)

/-! ## Sequences of assignments and completions -/

variable {first : Ledger J (Option P) (Dependencies J × τ) (PolicyCall J ε)}

/-- In the sequence that begins at `first`, a job ends after the jobs it depends on. -/
structure Ordered (first l : Ledger J (Option P) (Dependencies J × τ) (PolicyCall J ε)) :
    Prop where
  declared : ∀ dependent dependee, Declared l.log dependent dependee ↔
    Declared first.log dependent dependee
  /-- a job that a worker was handed waits for nothing any more -/
  waited : ∀ thread dependent, l.Holds thread dependent → first.Holds thread dependent ∨
    ∀ dependee, Declared first.log dependent dependee → .ended dependee .success ∈ l.log
  ordered : ∀ before after dependent status,
    l.log = before ++ .ended dependent status :: after → .ended dependent status ∈ first.log ∨
    (∃ thread, first.Holds thread dependent) ∨
    ∀ dependee, Declared first.log dependent dependee → .ended dependee .success ∈ before

omit [DecidableEq J] [DecidableEq P] in
theorem ordered_refl : Ordered first first where
  declared _ _ := Iff.rfl
  waited _ _ := .inl
  ordered before after dependent status hlog := by
    left
    rw [hlog]
    exact List.mem_append_right _ List.mem_cons_self

omit [DecidableEq P] in
theorem Declaring.ended_of_scan (h : l.Declaring S) {job : J} {rest : List J}
    {state : Dependencies J × τ}
    (hscan : State.scan S.addDependencyPolicy l.queuePolicies l.assignments l.policyState =
      (some job, rest, state)) {dependee : J} (hdeclared : Declared l.log job dependee) :
    .ended dependee .success ∈ l.log := by
  obtain ⟨_, _, before, _, _, hmap, haccepts, _, _⟩ := State.scan_eq_some
    (keptByRefusals_map (S := S) l.queuePolicies l.policyState.1) rfl hscan
  refine (h.tracking.declared job dependee hdeclared).resolve_left fun hentry => ?_
  exact withDependencies_accepts (h.tracking.policy job dependee hentry) haccepts dependee
    (hmap.symm ▸ hentry)

theorem Ordered.work (hordered : Ordered first l) (h : l.Declaring S) (h' : l'.Declaring S)
    (hmove : WorkMove S.addDependencyPolicy l l') : Ordered first l' := by
  obtain ⟨events, hlog, hcalls⟩ := hmove.2
  have hmore : ∀ event ∈ l.log, event ∈ l'.log := by
    intro event hevent
    rw [hlog]
    exact List.mem_append_left _ hevent
  -- a job that keeps its place is with the same worker as before
  have hkept : ∀ thread dependent, lastPlace dependent l'.log = lastPlace dependent l.log →
      l'.Holds thread dependent → first.Holds thread dependent ∨
        ∀ dependee, Declared first.log dependent dependee → .ended dependee .success ∈ l'.log := by
    intro thread dependent hsame hholds
    rw [h'.conserved.holds_iff, hsame, ← h.conserved.holds_iff] at hholds
    refine (hordered.waited thread dependent hholds).imp_right fun hended dependee hdeclared => ?_
    exact hmore _ (hended dependee hdeclared)
  have hdeclared : ∀ dependent dependee, Declared l'.log dependent dependee ↔
      Declared l.log dependent dependee := by
    refine fun dependent dependee => ⟨fun hmem => ?_, hmore _⟩
    rw [Declared, hlog] at hmem
    refine (List.mem_append.mp hmem).resolve_right fun hevent => ?_
    cases hcalls _ hevent
  refine ⟨fun a b => (hdeclared a b).trans (hordered.declared a b), ?_, ?_⟩
  · intro thread dependent hholds
    cases hmove.work with
    | pass more hlog hplaces _ =>
        refine hkept thread dependent ?_ hholds
        rw [hlog, lastPlace_append_of_forall_none hplaces]
    | @assign _ job hscan hlog =>
        by_cases hjob : dependent = job
        · subst hjob
          refine .inr fun dependee hdeclared => ?_
          exact hmore _ (h.ended_of_scan hscan ((hordered.declared _ _).mpr hdeclared))
        · refine hkept thread dependent ?_ hholds
          rw [hlog, lastPlace_append_of_ne _ rfl hjob]
    | @finish _ job _ hlog _ =>
        by_cases hjob : dependent = job
        · subst hjob
          rw [h'.conserved.holds_iff, hlog, lastPlace_append_self .ended rfl] at hholds
          cases hholds
        · refine hkept thread dependent ?_ hholds
          rw [hlog, lastPlace_append_of_ne _ rfl hjob]
  · intro before after dependent status hsplit
    cases hmove.work with
    | pass more hlog hplaces _ =>
        rw [hlog] at hsplit
        have hnot : .ended dependent status ∉ more := by
          intro hmem
          cases hplaces _ hmem
        obtain ⟨rest, hbefore⟩ := split_of_append hsplit hnot
        exact hordered.ordered before rest dependent status hbefore
    | assign _ hlog =>
        rw [hlog] at hsplit
        obtain ⟨rest, hbefore⟩ := split_of_append hsplit (by simp)
        exact hordered.ordered before rest dependent status hbefore
    | @finish thread job hholds hlog _ =>
        rw [hlog] at hsplit
        rcases split_of_append_singleton hsplit with ⟨rfl, heq⟩ | ⟨rest, hbefore⟩
        · cases heq
          exact .inr ((hordered.waited thread _ hholds).imp_left fun hfirst => ⟨thread, hfirst⟩)
        · exact hordered.ordered before rest dependent status hbefore

theorem Declaring.workMoves (hsuccess : ∀ job, (S.outcome job).status = .success)
    (h : first.Declaring S) (hmoves : WorkMoves S.addDependencyPolicy first l) :
    l.Declaring S ∧ Ordered first l := by
  induction hmoves with
  | refl => exact ⟨h, ordered_refl⟩
  | tail _ hmove ih =>
      have hafter := ih.1.move hsuccess hmove.move
      exact ⟨hafter, ih.2.work ih.1 hafter hmove⟩

/-- A sequence that begins with every job on its way and without a cycle ends with an empty
list and the success of every job that was on its way. -/
theorem Declaring.maximal (hsuccess : ∀ job, (S.outcome job).status = .success)
    (h : first.Declaring S) (hacyclic : ∀ job, ¬ Relation.TransGen (Declared first.log) job job)
    (hdependees : ∀ dependent dependee, Declared first.log dependent dependee →
      first.OnItsWay S.addDependencyPolicy dependee)
    (hmoves : WorkMoves S.addDependencyPolicy first l)
    (hmaximal : Maximal S.addDependencyPolicy l) :
    l.assignments = [] ∧
      ∀ job, first.OnItsWay S.addDependencyPolicy job → .ended job .success ∈ l.log := by
  obtain ⟨hafter, hordered⟩ := h.workMoves hsuccess hmoves
  obtain ⟨hidle, hscan⟩ := hmaximal.idle
  have hway : ∀ job, first.OnItsWay S.addDependencyPolicy job →
      l.OnItsWay S.addDependencyPolicy job := by
    intro job hjob
    obtain ⟨place, hplace, hne⟩ := hjob.place h.conserved h.once
    obtain ⟨next, hnext, hne⟩ := hmoves.place hplace hne
    exact onItsWay_of_place hafter.conserved hafter.ends hnext hne
  have hempty : l.assignments = [] := by
    by_contra hne
    have hsame : Declared l.log = Declared first.log :=
      funext fun a => funext fun b => propext (hordered.declared a b)
    obtain ⟨job, hjob, hfree⟩ := hafter.exists_free (hsame ▸ hacyclic)
      (fun a b hdeclared => hway b (hdependees a b (hsame ▸ hdeclared)))
      (by simp [hidle]) hne
    -- the scan of the list has refused the job
    obtain ⟨-, -, hrefused⟩ := State.scan_eq_none
      (keptByRefusals_map (S := S) l.queuePolicies l.policyState.1) rfl (Prod.ext hscan rfl)
    obtain ⟨state, hmap, hrefuses⟩ := hrefused job hjob
    exact hrefuses (hafter.tracking.accepts hmap hfree)
  refine ⟨hempty, fun job hjob => ?_⟩
  rcases hway job hjob with hlisted | ⟨thread, phase, -, hwork⟩ | hended
  · rw [hempty] at hlisted
    cases hlisted
  · rw [hidle thread] at hwork
    cases hwork
  · exact hsuccess job ▸ hended

end Ledger

/-! ## Runs -/

section Runs

variable [DecidableEq T] {start : Start J (Option P) (Dependencies J × τ)}
  {s : State J (Option P) T (Dependencies J × τ) (PolicyCall J ε)}

theorem runs_declaring (hsuccess : ∀ job, (S.outcome job).status = .success)
    (hmap : start.policyState.1 = [])
    (honly : ∀ job, ∀ policy ∈ start.queuePolicies job, policy = none)
    (hrun : Runs S.addDependencyPolicy declaresBefore.Allows start s) :
    s.ledger.Declaring S := by
  have hmoves : Ledger.Moves S.addDependencyPolicy declaresBefore _ _ :=
    runs_moves (fun _ _ h => h) hrun
  refine Ledger.Declaring.moves hsuccess ?_ hmoves
  refine ⟨Ledger.conserved_init start, Ledger.endsKnown_init start, Ledger.endsOnce_init start,
    ?_, ?_⟩
  · refine ⟨?_, ?_, ?_, ?_⟩ <;> simp [State.ledger, init, hmap, WorkerPc.work?]
  · refine ⟨honly, ?_, ?_⟩ <;> simp [State.ledger, init, hmap, Declared]

/-- **Acyclic dependencies never get stuck.**  While no worker has a job, a job in the list is
accepted.  A sequence of assignments and completions hands out every job in the list once at
most, so it is finite; when it is maximal the list is empty and every job in it has succeeded;
and each job that was not with a worker before it ends after the jobs it depends on. -/
theorem acyclic_dependencies_progress (hsuccess : ∀ job, (S.outcome job).status = .success)
    (hmap : start.policyState.1 = [])
    (honly : ∀ job, ∀ policy ∈ start.queuePolicies job, policy = none)
    (hrun : Runs S.addDependencyPolicy declaresBefore.Allows start s)
    (hacyclic : ∀ job, ¬ Relation.TransGen (Declared s.log) job job)
    (hdependees : ∀ dependent dependee, Declared s.log dependent dependee →
      dependee ∈ s.assignments ∨ (∃ thread, (s.worker thread).pc.job? = some dependee) ∨
        .ended dependee .success ∈ s.log) :
    (s.assignments ≠ [] →
      (∀ thread job phase, (s.worker thread).pc = .busy job phase → phase = .returned) →
      ∃ job ∈ s.assignments, s.Accepts S.addDependencyPolicy job) ∧
    ∀ l, Ledger.WorkMoves S.addDependencyPolicy s.ledger l →
      (Ledger.Maximal S.addDependencyPolicy l →
        l.assignments = [] ∧ ∀ job ∈ s.assignments, .ended job .success ∈ l.log) ∧
      (∀ before after dependent status,
        l.log = before ++ .ended dependent status :: after → .ended dependent status ∉ s.log →
        (∀ thread, (s.worker thread).pc.job? ≠ some dependent) →
        ∀ dependee, Declared s.log dependent dependee → .ended dependee .success ∈ before) ∧
      (completions l.log).Nodup ∧
      (completions l.log).length ≤ (handedOut l.log).length ∧
      (handedOut l.log).length ≤ (handedOut s.log).length + s.assignments.length := by
  have hdeclaring := runs_declaring hsuccess hmap honly hrun
  have hway : ∀ dependent dependee, Declared s.log dependent dependee →
      s.ledger.OnItsWay S.addDependencyPolicy dependee := by
    intro dependent dependee hdeclared
    rcases hdependees dependent dependee hdeclared with hlisted | ⟨thread, hjob⟩ | hended
    · exact .inl hlisted
    · exact .inr (.inl ⟨thread, State.holds_ledger.mpr hjob⟩)
    · exact .inr (.inr ((hsuccess dependee).symm ▸ hended))
  refine ⟨fun hne hidle => ?_, fun l hmoves => ?_⟩
  · have hledger : ∀ thread job phase, s.ledger.work thread = some (job, phase) →
        phase = .returned := by
      intro thread job phase hwork
      exact hidle thread job phase (WorkerPc.work?_eq_some.mp hwork)
    obtain ⟨job, hjob, hfree⟩ := hdeclaring.exists_free hacyclic hway hledger hne
    exact ⟨job, hjob, hdeclaring.tracking.accepts rfl hfree⟩
  · obtain ⟨hafter, hordered⟩ := hdeclaring.workMoves hsuccess hmoves
    refine ⟨fun hmaximal => ?_, ?_, hafter.once.nodup, hafter.once.length_le hafter.ends, ?_⟩
    · obtain ⟨hempty, hended⟩ := hdeclaring.maximal hsuccess hacyclic hway hmoves hmaximal
      exact ⟨hempty, fun job hjob => hended job (.inl hjob)⟩
    · intro before after dependent status hlog hnew hnobody
      rcases hordered.ordered before after dependent status hlog with hold | ⟨thread, hholds⟩ | h
      · exact absurd hold hnew
      · exact absurd (State.holds_ledger.mp hholds) (hnobody thread)
      · exact h
    · have hcount := Ledger.WorkMoves.count hmoves
      exact (Nat.le_add_right _ _).trans hcount.le

omit [DecidableEq P] [DecidableEq T] in
/-- A worker that has a job was assigned it. -/
private theorem assigned_of_busy (h : s.ledger.Declaring S) {thread : ℕ} {job : J} {phase : Phase}
    (hpc : (s.worker thread).pc = .busy job phase) (hphase : phase ≠ .returned) :
    ∃ assignee, .assigned assignee job ∈ s.log := by
  have hwork : s.ledger.work thread = some (job, phase) := WorkerPc.work?_eq_some.mpr hpc
  cases hbefore : phase.beforeEnd with
  | true =>
      have hplace := (h.conserved.holds_iff thread job).mp ⟨phase, hbefore, hwork⟩
      obtain ⟨earlier, event, later, hlog, hmoves, -⟩ := exists_of_lastPlace hplace
      cases event with
      | assigned other moved =>
          cases hmoves
          have hmem : .assigned thread job ∈ s.ledger.log := by simp [hlog]
          exact ⟨thread, hmem⟩
      | _ => cases hmoves
  | false =>
      cases phase with
      | returned => exact absurd rfl hphase
      | freeing index =>
          have hended := h.ends.final job (h.ends.freeing thread job index hwork)
          exact (h.ends.outcome job _ hended).2
      | _ => cases hbefore

end Runs

end

/-- Job 1 depends on job 0, and stands before it in the list. -/
theorem acyclic_dependencies_progress_two_jobs :
    ∃ s : State ℕ (Option Unit) Unit (Dependencies ℕ × (Unit → ℕ)) (PolicyCall ℕ Empty),
      s.assignments = [1, 0] ∧
      (∃ job ∈ s.assignments, s.Accepts numbered.addDependencyPolicy job) ∧
      ∀ l, Ledger.WorkMoves numbered.addDependencyPolicy s.ledger l →
        Ledger.Maximal numbered.addDependencyPolicy l → l.assignments = [] := by
  obtain ⟨s, hrun, hlog, hassignments⟩ :
      ∃ s, Runs numbered.addDependencyPolicy DeclaresFirst (.plain ([], fun _ => 0)) s ∧ _ :=
    Library.exists_runWhere
      (fun s => s.log = [.configured (addDependency 1 0), .enqueued 0, .enqueued 1] ∧
        s.assignments = [1, 0])
      [.configure () (addDependency 1 0), .proceed (), .enqueue [some 0, some 1]]
      (by decide +kernel)
  have hallowed : Runs numbered.addDependencyPolicy declaresBefore.Allows _ s := hrun.mono
    fun s action h => by
      refine ⟨fun _ => h.1, fun ops hops => ⟨1, 0, by decide, (h.2 ops hops).1, ?_⟩⟩
      intro thread hmem
      simp [State.ledger, (h.2 ops hops).2] at hmem
  have honly : ∀ dependent dependee, Declared s.log dependent dependee →
      dependent = 1 ∧ dependee = 0 := by
    intro dependent dependee hdeclared
    simp only [Declared, hlog, addDependency] at hdeclared
    obtain ⟨hone, hzero, -⟩ : dependent = 1 ∧ dependee = 0 ∧ _ := by simpa using hdeclared
    exact ⟨hone, hzero⟩
  have hpath : ∀ a b, Relation.TransGen (Declared s.log) a b → a = 1 ∧ b = 0 := by
    intro a b hpath
    induction hpath with
    | single hdeclared => exact honly _ _ hdeclared
    | tail _ hdeclared ih => exact ⟨ih.1, (honly _ _ hdeclared).2⟩
  have hacyclic : ∀ job, ¬ Relation.TransGen (Declared s.log) job job := by
    intro job hcycle
    obtain ⟨hone, hzero⟩ := hpath job job hcycle
    rw [hone] at hzero
    cases hzero
  obtain ⟨haccepted, hsequences⟩ := acyclic_dependencies_progress (fun _ => rfl) rfl
    (by simp [Start.plain]) hallowed hacyclic fun dependent dependee hdeclared => by
      left
      rw [(honly _ _ hdeclared).2, hassignments]
      decide
  refine ⟨s, hassignments, haccepted (by simp [hassignments]) fun thread job phase hpc => ?_,
    fun l hmoves hmaximal => ((hsequences l hmoves).1 hmaximal).1⟩
  -- nothing was assigned
  by_contra hphase
  obtain ⟨assignee, hassigned⟩ := assigned_of_busy
    (runs_declaring (fun _ => rfl) rfl (by simp [Start.plain]) hallowed) hpc hphase
  simp [hlog] at hassigned

end ThreadWeaver.Weaver
