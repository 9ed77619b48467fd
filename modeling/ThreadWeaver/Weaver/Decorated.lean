import ThreadWeaver.Weaver.Renaming
import ThreadWeaver.Weaver.DependencyRelease

/-!
# Dependencies of decorated jobs

A decorator forwards the list of policies and the status to the job it decorates, so every
pointer of a chain leads to the same list.  The map of `DependencyPolicy` is kept under the
pointers themselves: `addDependency` enters those it is given, `canRun` and `free` look up the
one that the queue holds, the outermost of the chain.

Where programs declare dependencies with outermost pointers only, these are other names for the
jobs, and the weaver does with decorated jobs what it does with jobs.  An entry under another
pointer of a chain is not found: it neither keeps a dependent back nor goes with its dependee.
-/

namespace ThreadWeaver

/-- A pointer to one level of the chain of decorators around a job, which is level zero. -/
structure Pointer (J : Type*) where
  job : J
  level : ℕ
  deriving DecidableEq, Repr

section

variable {J P σ ε : Type*}

/-- The outermost of `depth job` decorators, which is enqueued. -/
def Pointer.outermost (depth : J → ℕ) (job : J) : Pointer J :=
  ⟨job, depth job⟩

/-- The pointer is the one that is enqueued. -/
def Pointer.IsOutermost (pointer : Pointer J) (depth : J → ℕ) : Prop :=
  pointer.level = depth pointer.job

theorem Pointer.IsOutermost.eq {pointer : Pointer J} {depth : J → ℕ}
    (h : pointer.IsOutermost depth) : outermost depth pointer.job = pointer :=
  congrArg (Pointer.mk pointer.job) h.symm

theorem Pointer.outermost_inj {depth : J → ℕ} {job other : J} :
    outermost depth job = outermost depth other ↔ job = other :=
  ⟨fun h => congrArg Pointer.job h, fun h => h ▸ rfl⟩

variable [DecidableEq J]

/-- The policies of a program together with `DependencyPolicy::instance()`, for decorated jobs:
`canRun` and `free` are given the outermost pointer. -/
def withPointerDependencies (depth : J → ℕ) (q : QueuePolicies J P σ) :
    QueuePolicies J (Option P) (Dependencies (Pointer J) × σ) where
  canRun
    | none, job, state => (!state.1.hasUnresolvedDependencies (.outermost depth job), state)
    | some policy, job, state =>
        ((q.canRun policy job state.2).1, state.1, (q.canRun policy job state.2).2)
  free
    | none, job, status, state =>
        if status = .success then
          (state.1.resolveDependencies (.outermost depth job), state.2)
        else state
    | some policy, job, status, state => (state.1, q.free policy job status state.2)
  release
    | none, _, state => state
    | some policy, job, state => (state.1, q.release policy job state.2)

/-- The map with every job under its outermost pointer. -/
def Dependencies.outermost (depth : J → ℕ) (map : Dependencies J) : Dependencies (Pointer J) :=
  map.map (Prod.map (.outermost depth) (.outermost depth))

omit [DecidableEq J] in
theorem Dependencies.outermost_injective (depth : J → ℕ) :
    Function.Injective (Prod.map (Pointer.outermost depth) (Pointer.outermost depth)) :=
  Function.Injective.prodMap (fun _ _ h => Pointer.outermost_inj.mp h)
    fun _ _ h => Pointer.outermost_inj.mp h

theorem Dependencies.hasUnresolvedDependencies_outermost (depth : J → ℕ)
    (map : Dependencies J) (job : J) :
    (map.outermost depth).hasUnresolvedDependencies (.outermost depth job) =
      map.hasUnresolvedDependencies job := by
  simp [hasUnresolvedDependencies, outermost, Function.comp_def, Pointer.outermost_inj]

theorem Dependencies.resolveDependencies_outermost (depth : J → ℕ) (map : Dependencies J)
    (job : J) :
    (map.outermost depth).resolveDependencies (.outermost depth job) =
      (map.resolveDependencies job).outermost depth := by
  simp [resolveDependencies, outermost, List.filter_map, Function.comp_def,
    Pointer.outermost_inj]

theorem Dependencies.removeDependency_outermost (depth : J → ℕ) (map : Dependencies J)
    (dependent dependee : J) :
    (map.outermost depth).removeDependency (.outermost depth dependent)
        (.outermost depth dependee) =
      (map.removeDependency dependent dependee).outermost depth := by
  have herase := List.map_erase (outermost_injective depth) (a := (dependent, dependee)) map
  exact herase.symm

/-- What a call does under outermost pointers. -/
def PolicyCall.outermost (depth : J → ℕ) : PolicyCall J ε → PolicyCall (Pointer J) ε
  | insert dependent dependee => .insert (.outermost depth dependent) (.outermost depth dependee)
  | remove dependent dependee => .remove (.outermost depth dependent) (.outermost depth dependee)
  | other call => .other call

/-- The state of the policies with every job under its outermost pointer. -/
def outermostState (depth : J → ℕ) (state : Dependencies J × σ) :
    Dependencies (Pointer J) × σ :=
  (state.1.outermost depth, state.2)

/-- Under outermost pointers the policies do the same. -/
theorem withPointerDependencies_renames (depth : J → ℕ) (q : QueuePolicies J P σ) :
    (withDependencies q).Renames (outermostState depth) (withPointerDependencies depth q) where
  canRun policy job state := by
    cases policy with
    | none =>
        simp [withDependencies, withPointerDependencies, outermostState,
          Dependencies.hasUnresolvedDependencies_outermost]
    | some policy => rfl
  free policy job status state := by
    cases policy with
    | none =>
        simp only [withDependencies, withPointerDependencies, outermostState]
        split
        · rw [Dependencies.resolveDependencies_outermost]
        · rfl
    | some policy => rfl
  release policy job state := by
    cases policy with
    | none => rfl
    | some policy => rfl

end

namespace Weaver

open Library (split_of_append)

variable {J P T σ τ ε : Type*} [DecidableEq J]

/-- A program that uses `DependencyPolicy` and decorates its jobs. -/
def Setup.decorate (depth : J → ℕ) (S : Setup J P τ ε) :
    Setup J (Option P) (Dependencies (Pointer J) × τ) (PolicyCall (Pointer J) ε) :=
  { S with
    policies := withPointerDependencies depth S.policies
    call := PolicyCall.apply S.call }

/-- `DependencyPolicy::addDependency` for pointers of any level. -/
def addPointerDependency (dependent dependee : Pointer J) :
    List (PolicyOp J (Option P) (PolicyCall (Pointer J) ε)) :=
  [.assignQueuePolicy dependent.job none, .assignQueuePolicy dependee.job none,
    .call (.insert dependent dependee)]

/-- The dependency was declared with these pointers. -/
def PointerDeclared (log : List (Event J (Option P) (PolicyCall (Pointer J) ε)))
    (dependent dependee : Pointer J) : Prop :=
  .configured (addPointerDependency dependent dependee) ∈ log

/-- The operation does not touch the map or take the policy from a job. -/
def PolicyOp.sparesPointers : PolicyOp J (Option P) (PolicyCall (Pointer J) ε) → Bool
  | .assignQueuePolicy _ _ => true
  | .removeQueuePolicy _ policy => policy.isSome
  | .call (.other _) => true
  | .call (.insert _ _) | .call (.remove _ _) => false

/-- The free of the dependency policy of the job is still to come. -/
def Ledger.FreeToCome (l : Ledger J (Option P) σ ε) (job : J) : Prop :=
  (∀ status, .ended job status ∉ l.log) ∨
    ∃ thread index, l.work thread = some (job, .freeing index) ∧
      none ∉ (l.queuePolicies job).take index

/-- The job has ended with success, and nobody frees its policies any more. -/
def Ledger.Freed (l : Ledger J P σ ε) (job : J) : Prop :=
  .ended job .success ∈ l.log ∧ ∀ thread index, l.work thread ≠ some (job, .freeing index)

section

variable [DecidableEq P]

/-- The program declares dependencies with outermost pointers, of jobs that were never assigned,
and spares the dependencies otherwise. -/
def declaresOutermost (depth : J → ℕ) :
    Discipline J (Option P) (Dependencies (Pointer J) × τ) (PolicyCall (Pointer J) ε) where
  onlyNew := True
  mayConfigure l ops := (∀ op ∈ ops, op.sparesPointers) ∨
    ∃ dependent dependee : Pointer J, dependent.job ≠ dependee.job ∧
      dependent.IsOutermost depth ∧ dependee.IsOutermost depth ∧
      ops = addPointerDependency dependent dependee ∧
      ∀ thread, .assigned thread dependent.job ∉ l.log

/-- The program declares dependencies with outermost pointers, on jobs whose free is still to
come. -/
def declaresOutermostInTime (depth : J → ℕ) :
    Discipline J (Option P) (Dependencies (Pointer J) × τ) (PolicyCall (Pointer J) ε) where
  onlyNew := True
  mayConfigure l ops := ∃ dependent dependee : Pointer J, dependent.job ≠ dependee.job ∧
    dependent.IsOutermost depth ∧ dependee.IsOutermost depth ∧
    ops = addPointerDependency dependent dependee ∧ l.FreeToCome dependee.job

/-! ## Outermost pointers are other names of the jobs -/

variable {depth : J → ℕ} {S : Setup J P τ ε}

omit [DecidableEq P] in
theorem decorate_renames (depth : J → ℕ) (S : Setup J P τ ε) :
    S.addDependencyPolicy.Renames (outermostState depth) (PolicyCall.outermost depth)
      (S.decorate depth) where
  priority := rfl
  outcome := rfl
  policies := withPointerDependencies_renames depth S.policies
  call called state := by
    cases called with
    | insert dependent dependee => rfl
    | remove dependent dependee =>
        exact Prod.ext (Dependencies.removeDependency_outermost depth state.1 dependent dependee)
          rfl
    | other call => rfl

omit [DecidableEq P] [DecidableEq J] in
theorem addPointerDependency_eq {dependent dependee : Pointer J}
    (hdependent : dependent.IsOutermost depth)
    (hdependee : dependee.IsOutermost depth) :
    (addPointerDependency dependent dependee :
        List (PolicyOp J (Option P) (PolicyCall (Pointer J) ε))) =
      (addDependency dependent.job dependee.job).map
        (PolicyOp.rename (PolicyCall.outermost depth)) := by
  simp [addPointerDependency, addDependency, PolicyOp.rename, PolicyCall.outermost,
    hdependent.eq, hdependee.eq]

omit [DecidableEq P] [DecidableEq J] in
/-- Operations that spare the dependencies are other names of such operations. -/
theorem exists_spares (depth : J → ℕ)
    {ops' : List (PolicyOp J (Option P) (PolicyCall (Pointer J) ε))}
    (hspares : ∀ op ∈ ops', op.sparesPointers) :
    ∃ ops : List (PolicyOp J (Option P) (PolicyCall J ε)),
      ops' = ops.map (PolicyOp.rename (PolicyCall.outermost depth)) ∧
        ∀ op ∈ ops, op.sparesDependencies := by
  -- one operation
  have hone : ∀ op' : PolicyOp J (Option P) (PolicyCall (Pointer J) ε), op'.sparesPointers →
      ∃ op : PolicyOp J (Option P) (PolicyCall J ε),
        op' = op.rename (PolicyCall.outermost depth) ∧ op.sparesDependencies := by
    intro op' hspare
    cases op' with
    | assignQueuePolicy job policy => exact ⟨.assignQueuePolicy job policy, rfl, rfl⟩
    | removeQueuePolicy job policy => exact ⟨.removeQueuePolicy job policy, rfl, hspare⟩
    | call called =>
        cases called with
        | other call => exact ⟨.call (.other call), rfl, rfl⟩
        | insert _ _ | remove _ _ => cases hspare
  induction ops' with
  | nil => exact ⟨[], rfl, by simp⟩
  | cons op' rest ih =>
      rw [List.forall_mem_cons] at hspares
      obtain ⟨op, rfl, hspare⟩ := hone op' hspares.1
      obtain ⟨ops, rfl, hrest⟩ := ih hspares.2
      exact ⟨op :: ops, rfl, List.forall_mem_cons.mpr ⟨hspare, hrest⟩⟩

omit [DecidableEq P] [DecidableEq J] in
theorem declaresOutermost_renames (depth : J → ℕ) :
    (declares : Discipline J (Option P) (Dependencies J × τ) (PolicyCall J ε)).Renames
      (outermostState depth) (PolicyCall.outermost depth) (declaresOutermost depth) where
  onlyNew := id
  mayConfigure l ops' hmay := by
    rcases hmay with hspares | ⟨dependent, dependee, hne, hdependent, hdependee, rfl, hnever⟩
    · obtain ⟨ops, hops, hspare⟩ := exists_spares depth hspares
      exact ⟨ops, hops, .inl hspare⟩
    · refine ⟨addDependency dependent.job dependee.job,
        addPointerDependency_eq hdependent hdependee,
        .inr ⟨dependent.job, dependee.job, hne, rfl, fun thread hmem => ?_⟩⟩
      exact hnever thread (List.mem_map.mpr ⟨_, hmem, rfl⟩)

section Names

variable {e : Dependencies J × τ → Dependencies (Pointer J) × τ}
  {g : PolicyCall J ε → PolicyCall (Pointer J) ε}
  {l : Ledger J (Option P) (Dependencies J × τ) (PolicyCall J ε)}

omit [DecidableEq P] [DecidableEq J] in
theorem mem_ended_rename {job : J} {status : Status} :
    .ended job status ∈ (l.rename e g).log ↔ .ended job status ∈ l.log := by
  rw [Ledger.mem_log_rename]
  constructor
  · rintro ⟨original, hmem, hname⟩
    cases original <;> cases hname
    exact hmem
  · exact fun hmem => ⟨_, hmem, rfl⟩

omit [DecidableEq P] [DecidableEq J] in
theorem freeToCome_rename {job : J} :
    (l.rename e g).FreeToCome job ↔ l.FreePending job :=
  or_congr (forall_congr' fun _ => not_congr mem_ended_rename) Iff.rfl

end Names

omit [DecidableEq P] [DecidableEq J] in
theorem declaresOutermostInTime_renames (depth : J → ℕ) :
    (declaresInTime : Discipline J (Option P) (Dependencies J × τ) (PolicyCall J ε)).Renames
      (outermostState depth) (PolicyCall.outermost depth) (declaresOutermostInTime depth) where
  onlyNew := id
  mayConfigure l ops' hmay := by
    obtain ⟨dependent, dependee, hne, hdependent, hdependee, rfl, hcomes⟩ := hmay
    exact ⟨addDependency dependent.job dependee.job,
      addPointerDependency_eq hdependent hdependee, dependent.job, dependee.job, hne, rfl,
      freeToCome_rename.mp hcomes⟩

omit [DecidableEq P] [DecidableEq J] in
theorem declared_rename {log : List (Event J (Option P) (PolicyCall J ε))} {dependent dependee : J}
    (hdeclared : Declared log dependent dependee) :
    PointerDeclared (log.map (Event.rename (PolicyCall.outermost depth)))
      (.outermost depth dependent) (.outermost depth dependee) :=
  List.mem_map.mpr ⟨_, hdeclared, rfl⟩

omit [DecidableEq P] [DecidableEq J] in
/-- What was declared under other names was declared with outermost pointers. -/
theorem declared_of_rename {log : List (Event J (Option P) (PolicyCall J ε))}
    {dependent dependee : Pointer J}
    (hdeclared : PointerDeclared (log.map (Event.rename (PolicyCall.outermost depth)))
      dependent dependee) : Declared log dependent.job dependee.job := by
  obtain ⟨event, hmem, hname⟩ := List.mem_map.mp hdeclared
  cases event with
  | configured ops =>
      rw [Event.rename, Event.configured.injEq] at hname
      simp only [addPointerDependency, List.map_eq_cons_iff, List.map_eq_nil_iff] at hname
      obtain ⟨first, _, rfl, hfirst, second, _, rfl, hsecond, third, _, rfl, hthird, rfl⟩ := hname
      cases first <;> cases hfirst
      cases second <;> cases hsecond
      cases third with
      | assignQueuePolicy _ _ | removeQueuePolicy _ _ => cases hthird
      | call called =>
          cases called with
          | remove _ _ | other _ => cases hthird
          | insert a b =>
              cases hthird
              exact hmem
  | _ => cases hname

/-! ## Runs -/

section Runs

variable [DecidableEq T] {start : Start J (Option P) (Dependencies (Pointer J) × τ)}
  {s : State J (Option P) T (Dependencies (Pointer J) × τ) (PolicyCall (Pointer J) ε)}

/-- The program before anything is declared, in the names of the jobs. -/
def Start.undecorated (start : Start J (Option P) (Dependencies (Pointer J) × τ)) :
    Start J (Option P) (Dependencies J × τ) where
  queuePolicies := start.queuePolicies
  nodup := start.nodup
  policyState := ([], start.policyState.2)

/-- **The weaver does with decorated jobs what it does with jobs**, in other names. -/
theorem runs_renamed {D : Discipline J (Option P) (Dependencies J × τ) (PolicyCall J ε)} {D'}
    (hD : D.Renames (outermostState depth) (PolicyCall.outermost depth) D')
    (hstart : start.policyState.1 = []) (hrun : Runs (S.decorate depth) D'.Allows start s) :
    ∃ l, Ledger.Moves S.addDependencyPolicy D
        (init (T := T) S.addDependencyPolicy start.undecorated).ledger l ∧
      s.ledger = l.rename (outermostState depth) (PolicyCall.outermost depth) := by
  have hinit : (init (T := T) (S.decorate depth) start).ledger =
      (init (T := T) S.addDependencyPolicy start.undecorated).ledger.rename
        (outermostState depth) (PolicyCall.outermost depth) := by
    have hstate : start.policyState = outermostState depth ([], start.policyState.2) :=
      Prod.ext hstart rfl
    simp only [State.ledger, init, Ledger.rename, Start.undecorated, List.map_nil,
      ← hstate]
  exact Ledger.moves_of_rename (decorate_renames depth S) hD
    (hinit ▸ runs_moves (fun _ _ h => h) hrun)

/-- **Decoration keeps dependencies that are declared with outermost pointers.**  A decorated
job is assigned after all jobs it was declared to depend on have ended with success.  If it is
declared before the dependee is freed, a dependency goes with the free of the dependee after a
success, and a job whose dependees have all been freed so is accepted. -/
theorem decorated_dependencies (hstart : start.policyState.1 = []) :
    (Runs (S.decorate depth) (declaresOutermost depth).Allows start s →
      ∀ before after thread job, s.log = before ++ .assigned thread job :: after →
        ∀ dependent dependee, PointerDeclared s.log dependent dependee → dependent.job = job →
          .ended dependee.job .success ∈ before) ∧
    (Runs (S.decorate depth) (declaresOutermostInTime depth).Allows start s →
      (∀ dependent dependee, s.ledger.Freed dependee.job →
        (dependent, dependee) ∉ s.policyState.1) ∧
      ∀ job, (∀ dependent dependee, PointerDeclared s.log dependent dependee →
          dependent.job = job → s.ledger.Freed dependee.job) →
        ((S.decorate depth).policies.canRun none job s.policyState).1 = true) := by
  refine ⟨fun hrun => ?_, fun hrun => ?_⟩
  · obtain ⟨l, hmoves, hledger⟩ :=
      runs_renamed (declaresOutermost_renames depth) hstart hrun
    have hlog : s.log = l.log.map (Event.rename (PolicyCall.outermost depth)) :=
      congrArg Ledger.log hledger
    have hinit : (init (T := T) S.addDependencyPolicy
        start.undecorated).ledger.DependenciesSafe := by
      refine ⟨?_, ?_, ?_, ?_⟩ <;> simp [State.ledger, init, Start.undecorated, Declared]
    obtain ⟨-, -, hsafe⟩ := Ledger.moves_safe (Ledger.conserved_init start.undecorated)
      (Ledger.endsKnown_init start.undecorated) hinit hmoves
    rintro before after thread job hsplit dependent dependee hdeclared rfl
    rw [hlog] at hsplit hdeclared
    obtain ⟨before, rest, hrest, rfl, hafter⟩ := List.map_eq_append_iff.mp hsplit
    obtain ⟨event, after, rfl, hevent, rfl⟩ := List.map_eq_cons_iff.mp hafter
    have hassigned : event = .assigned thread dependent.job := by
      cases event <;> cases hevent
      rfl
    subst hassigned
    exact List.mem_map.mpr
      ⟨_, hsafe.ordered before after thread dependent.job hrest dependee.job
        (declared_of_rename hdeclared), rfl⟩
  · obtain ⟨l, hmoves, hledger⟩ :=
      runs_renamed (declaresOutermostInTime_renames depth) hstart hrun
    have hlog : s.log = l.log.map (Event.rename (PolicyCall.outermost depth)) :=
      congrArg Ledger.log hledger
    have hmap : s.policyState.1 = l.policyState.1.outermost depth :=
      congrArg Prod.fst (congrArg Ledger.policyState hledger)
    have hinit : (init (T := T) S.addDependencyPolicy start.undecorated).ledger.ReleasingOn
        fun job => (S.outcome job).status = .success := by
      refine ⟨?_, ?_, ?_, ?_⟩ <;>
        simp [State.ledger, init, Start.undecorated, WorkerPc.work?]
    obtain ⟨-, hends, hreleasing⟩ := Ledger.moves_releasingOn (fun job h => h)
      (Ledger.conserved_init start.undecorated) (Ledger.endsKnown_init start.undecorated) hinit
      hmoves
    have hentries : ∀ entry ∈ s.policyState.1, ∃ dependent dependee,
        (dependent, dependee) ∈ l.policyState.1 ∧
          (Pointer.outermost depth dependent, Pointer.outermost depth dependee) = entry := by
      intro entry hentry
      rw [hmap] at hentry
      obtain ⟨⟨dependent, dependee⟩, hmem, rfl⟩ := List.mem_map.mp hentry
      exact ⟨dependent, dependee, hmem, rfl⟩
    have hgone : ∀ dependent dependee, (dependent, dependee) ∈ s.policyState.1 →
        ¬ s.ledger.Freed dependee.job := by
      intro dependent dependee hentry hfreed
      obtain ⟨a, b, hmem, heq⟩ := hentries _ hentry
      cases heq
      have hended : .ended b .success ∈ l.log := mem_ended_rename.mp (hledger ▸ hfreed.1)
      rcases hreleasing.pending a b hmem (hends.outcome _ _ hended).1.symm with
        hnever | ⟨thread, index, hfreeing, -⟩
      · exact hnever _ hended
      · exact hfreed.2 thread index (hledger ▸ hfreeing)
    refine ⟨fun dependent dependee hfreed hentry => hgone _ _ hentry hfreed, fun job hall => ?_⟩
    show (!s.policyState.1.hasUnresolvedDependencies (.outermost depth job)) = true
    rw [Bool.not_eq_true', ← Bool.not_eq_true, Dependencies.hasUnresolvedDependencies_iff]
    rintro ⟨pointer, hentry⟩
    obtain ⟨a, b, hmem, heq⟩ := hentries _ hentry
    obtain rfl : a = job := Pointer.outermost_inj.mp (congrArg Prod.fst heq)
    obtain rfl : Pointer.outermost depth b = pointer := congrArg Prod.snd heq
    refine hgone _ _ hentry (hall (.outermost depth a) _ ?_ rfl)
    rw [hlog]
    exact declared_rename (hreleasing.declared a b hmem)

end Runs

end

/-- The program declares with these pointers that one job depends on another, before it does
anything else. -/
def DeclaresPointers (dependent dependee : Pointer ℕ)
    (s : State ℕ (Option Unit) Unit (Dependencies (Pointer ℕ) × (Unit → ℕ))
      (PolicyCall (Pointer ℕ) Empty))
    (action : Act ℕ (Option Unit) Unit (PolicyCall (Pointer ℕ) Empty)) : Prop :=
  EnqueuesNew s action ∧
    ∀ ops ∈ action.ops?, ops = addPointerDependency dependent dependee ∧ s.log = []

instance (dependent dependee : Pointer ℕ)
    (s : State ℕ (Option Unit) Unit (Dependencies (Pointer ℕ) × (Unit → ℕ))
      (PolicyCall (Pointer ℕ) Empty))
    (action : Act ℕ (Option Unit) Unit (PolicyCall (Pointer ℕ) Empty)) :
    Decidable (DeclaresPointers dependent dependee s action) :=
  inferInstanceAs (Decidable (_ ∧ _))

/-- Jobs with one decorator each: the job 1 is assigned when the job 0 has ended. -/
theorem decorated_dependencies_pair :
    ∃ (s : State ℕ (Option Unit) Unit (Dependencies (Pointer ℕ) × (Unit → ℕ))
        (PolicyCall (Pointer ℕ) Empty))
      (before after : List (Event ℕ (Option Unit) (PolicyCall (Pointer ℕ) Empty))),
      s.log = before ++ .assigned 0 1 :: after ∧ .ended 0 .success ∈ before ∧
        ((numbered.decorate fun _ => 1).policies.canRun none 0 s.policyState).1 = true := by
  obtain ⟨s, hrun, hlog⟩ :
      ∃ s, Runs (numbered.decorate fun _ => 1) (DeclaresPointers ⟨1, 1⟩ ⟨0, 1⟩)
        (.plain ([], fun _ => 0)) s ∧ _ :=
    Library.exists_runWhere
      (fun s => s.log = [.configured (addPointerDependency ⟨1, 1⟩ ⟨0, 1⟩), .enqueued 0,
        .enqueued 1, .assigned 0 0, .ended 0 .success, .assigned 0 1])
      (List.flatten [[.setMaximumNumberOfThreads 1,
        .configure () (addPointerDependency ⟨1, 1⟩ ⟨0, 1⟩), .proceed (),
        .enqueue [some 0, some 1]], List.replicate 12 (.worker 0)])
      (by decide +kernel)
  have hsafe : Runs _ (declaresOutermost fun _ => 1).Allows _ s := hrun.mono fun s action h => by
    refine ⟨fun _ => h.1, fun ops hops => .inr ⟨⟨1, 1⟩, ⟨0, 1⟩, by decide, rfl, rfl,
      (h.2 ops hops).1, fun thread hmem => ?_⟩⟩
    simp [State.ledger, (h.2 ops hops).2] at hmem
  have hinTime : Runs _ (declaresOutermostInTime fun _ => 1).Allows _ s :=
    hrun.mono fun s action h => by
      refine ⟨fun _ => h.1, fun ops hops => ⟨⟨1, 1⟩, ⟨0, 1⟩, by decide, rfl, rfl,
        (h.2 ops hops).1, .inl fun status hmem => ?_⟩⟩
      simp [State.ledger, (h.2 ops hops).2] at hmem
  obtain ⟨before, after, hsplit⟩ :=
    List.append_of_mem (show .assigned 0 1 ∈ s.log by simp [hlog])
  have hended := (decorated_dependencies (by rfl)).1 hsafe before after 0 1 hsplit ⟨1, 1⟩ ⟨0, 1⟩
    (by simp [PointerDeclared, hlog]) rfl
  refine ⟨s, before, after, hsplit, hended, ((decorated_dependencies (by rfl)).2 hinTime).2 0 ?_⟩
  -- nothing was declared of the job 0
  intro dependent dependee hdeclared hjob
  simp [PointerDeclared, hlog, addPointerDependency, hjob] at hdeclared

/-- **The pointers of a declaration matter.**  Declared of the job behind the decorator, a
dependency does not keep the decorated job back; declared on the job behind the decorator, it is
not released. -/
theorem pointer_dependency_missed :
    (∃ s, Runs (T := Unit) (numbered.decorate fun _ => 1) (DeclaresPointers ⟨1, 0⟩ ⟨0, 1⟩)
        (.plain ([], fun _ => 0)) s ∧
      s.log = [.configured (addPointerDependency ⟨1, 0⟩ ⟨0, 1⟩), .enqueued 0, .enqueued 1,
        .assigned 0 1]) ∧
    ∃ s, Runs (T := Unit) (numbered.decorate fun _ => 1) (DeclaresPointers ⟨1, 1⟩ ⟨0, 0⟩)
        (.plain ([], fun _ => 0)) s ∧
      (s.log = [.configured (addPointerDependency ⟨1, 1⟩ ⟨0, 0⟩), .enqueued 0, .enqueued 1,
          .assigned 0 0, .ended 0 .success] ∧
        s.createdThreads = 1 ∧ (s.worker 0).pc = .waiting false ∧ s.assignments = [1] ∧
        ((numbered.decorate fun _ => 1).policies.canRun none 1 s.policyState).1 = false) :=
  ⟨Library.exists_runWhere _
      (List.flatten [[.setMaximumNumberOfThreads 1,
        .configure () (addPointerDependency ⟨1, 0⟩ ⟨0, 1⟩), .proceed (),
        .enqueue [some 0, some 1]], List.replicate 3 (.worker 0)])
      (by decide +kernel),
    Library.exists_runWhere _
      (List.flatten [[.setMaximumNumberOfThreads 1,
        .configure () (addPointerDependency ⟨1, 1⟩ ⟨0, 0⟩), .proceed (),
        .enqueue [some 0, some 1]], List.replicate 12 (.worker 0)])
      (by decide +kernel)⟩

end Weaver

end ThreadWeaver
