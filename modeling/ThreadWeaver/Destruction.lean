import ThreadWeaver.DependencyPairs

/-!
# The destruction of a job

`~Job` calls `destructed` on each of the policies of the job.  `DependencyPolicy::destructed`
resolves the dependencies on the job, but through the function that also serves the end of a
job, and that one does nothing for a job that has not succeeded.

`Released` is what the destruction of a job promises for the map.  It is kept by a job that
succeeded and by one nothing depends on, and by no other (`destroy_releases`).
-/

namespace ThreadWeaver

section

variable {J P σ : Type*} [DecidableEq J] [DecidableEq P]

/-- `QueuePolicy::destructed` of the policies `P` of a program, which sees the job with its last
status. -/
abbrev Destructed (J P σ : Type*) := P → J → Status → σ → σ

/-- The policies of a program together with `DependencyPolicy::instance()`, which is `none`. -/
def Destructed.withDependencies (destructed : Destructed J P σ) :
    Destructed J (Option P) (Dependencies J × σ)
  | none, job, status, state => (state.1.resolve job status, state.2)
  | some policy, job, status, state => (state.1, destructed policy job status state.2)

/-- `Job::~Job`: `destructed` of each policy the job carries. -/
def destroy {P σ : Type*} (destructed : Destructed J P σ) (policies : JobPolicies P) (job : J)
    (status : Status) (state : σ) : σ :=
  policies.list.foldl (fun state policy => destructed policy job status state) state

/-- `Job_Private::freeQueuePolicyResources`, from the end of a job. -/
def freeQueuePolicyResources {P σ : Type*} (q : QueuePolicies J P σ) (policies : JobPolicies P)
    (job : J) (status : Status) (state : σ) : σ :=
  policies.list.foldl (fun state policy => q.free policy job status state) state

/-- The map has no entry with the job as dependee, and the entries that do not mention it are
those it had. -/
structure Dependencies.Released (job : J) (before after : Dependencies J) : Prop where
  dependee : ∀ entry ∈ after, entry.2 ≠ job
  others : (after.filter fun entry => entry.1 ≠ job ∧ entry.2 ≠ job) =
    before.filter fun entry => entry.1 ≠ job ∧ entry.2 ≠ job

namespace Dependencies

theorem resolve_resolve (map : Dependencies J) (job : J) (status : Status) :
    (map.resolve job status).resolve job status = map.resolve job status := by
  unfold resolve
  split
  · simp [resolveDependencies]
  · rfl

theorem resolve_of_ne (map : Dependencies J) (job : J) {status : Status}
    (h : status ≠ .success) : map.resolve job status = map :=
  if_neg h

theorem resolve_released_iff {map : Dependencies J} {job : J} {status : Status} :
    Released job map (map.resolve job status) ↔
      status = .success ∨ ∀ entry ∈ map, entry.2 ≠ job := by
  constructor
  · intro hreleased
    by_cases hstatus : status = .success
    · exact .inl hstatus
    · have hdependee := hreleased.dependee
      rw [resolve_of_ne map job hstatus] at hdependee
      exact .inr hdependee
  · rintro (rfl | hnone)
    · refine ⟨fun entry hentry => ?_, ?_⟩
      · exact (mem_resolveDependencies.mp hentry).2
      · rw [resolve, if_pos rfl, resolveDependencies, List.filter_filter]
        refine List.filter_congr fun entry _ => ?_
        by_cases hentry : entry.2 = job <;> simp [hentry]
    · have hsame : map.resolve job status = map := by
        unfold resolve
        split
        · exact List.filter_eq_self.mpr fun entry hentry => by simpa using hnone entry hentry
        · rfl
      rw [hsame]
      exact ⟨hnone, rfl⟩

end Dependencies

/-- A loop over the policies of a job in which only the dependency policy touches the map: it
resolves the job, once or more. -/
private theorem foldl_map {act : Option P → Dependencies J × σ → Dependencies J × σ} {job : J}
    {status : Status} (hnone : ∀ state, (act none state).1 = state.1.resolve job status)
    (hsome : ∀ policy state, (act (some policy) state).1 = state.1) (policies : List (Option P))
    (state : Dependencies J × σ) :
    (policies.foldl (fun state policy => act policy state) state).1 =
      if none ∈ policies then state.1.resolve job status else state.1 := by
  induction policies generalizing state with
  | nil => rfl
  | cons policy rest ih =>
      rw [List.foldl_cons, ih]
      cases policy with
      | none =>
          rw [hnone, Dependencies.resolve_resolve]
          simp
      | some policy =>
          rw [hsome]
          simp

/-- What `~Job` leaves of the map. -/
theorem destroy_map (destructed : Destructed J P σ) (policies : JobPolicies (Option P)) (job : J)
    (status : Status) (state : Dependencies J × σ) :
    (destroy destructed.withDependencies policies job status state).1 =
      if none ∈ policies.list then state.1.resolve job status else state.1 :=
  foldl_map (fun _ => rfl) (fun _ _ => rfl) policies.list state

/-- What the end of a job leaves of the map. -/
theorem freeQueuePolicyResources_map (q : QueuePolicies J P σ) (policies : JobPolicies (Option P))
    (job : J) (status : Status) (state : Dependencies J × σ) :
    (freeQueuePolicyResources (withDependencies q) policies job status state).1 =
      if none ∈ policies.list then state.1.resolve job status else state.1 := by
  refine foldl_map (fun state => ?_) (fun _ _ => rfl) policies.list state
  unfold Dependencies.resolve
  simp only [withDependencies]
  split <;> rfl

/-! ## Histories -/

/-- What happens to the map: a call of the policy, a job that takes or drops another policy, the
end of a job with the status it has, and the destruction of a job. -/
inductive DependencyEvent (J P : Type*)
  | call (op : DependencyOp J)
  | assignQueuePolicy (job : J) (policy : P)
  | removeQueuePolicy (job : J) (policy : P)
  | ended (job : J) (status : Status)
  | destroyed (job : J) (status : Status)

namespace Declared

variable (q : QueuePolicies J P σ) (destructed : Destructed J P σ)

/-- What an event does to the map, the policies of the jobs and the state of the other
policies.  A job constructed later at the address of a destroyed one starts without
policies. -/
def step (state : Declared J P × σ) : DependencyEvent J P → Declared J P × σ
  | .call op => ((state.1.call op).2, state.2)
  | .assignQueuePolicy job policy =>
      let policies := (state.1.queuePolicies job).assignQueuePolicy (some policy)
      (⟨state.1.map, Function.update state.1.queuePolicies job policies⟩, state.2)
  | .removeQueuePolicy job policy =>
      let policies := (state.1.queuePolicies job).removeQueuePolicy (some policy)
      (⟨state.1.map, Function.update state.1.queuePolicies job policies⟩, state.2)
  | .ended job status =>
      let after := freeQueuePolicyResources (ThreadWeaver.withDependencies q)
        (state.1.queuePolicies job) job status (state.1.map, state.2)
      (⟨after.1, state.1.queuePolicies⟩, after.2)
  | .destroyed job status =>
      let after := destroy destructed.withDependencies (state.1.queuePolicies job) job status
        (state.1.map, state.2)
      (⟨after.1, Function.update state.1.queuePolicies job .empty⟩, after.2)

/-- The state after a history. -/
def after (state : Declared J P × σ) (events : List (DependencyEvent J P)) : Declared J P × σ :=
  events.foldl (step q destructed) state

theorem after_concat (state : Declared J P × σ) (events : List (DependencyEvent J P))
    (event : DependencyEvent J P) : after q destructed state (events ++ [event]) =
      step q destructed (after q destructed state events) event := by
  simp [after]

/-- No job is destroyed without success while another one depends on it. -/
def DestroysReleased (state : Declared J P × σ) (events : List (DependencyEvent J P)) : Prop :=
  ∀ before job status, before ++ [.destroyed job status] <+: events →
    status = .success ∨ ∀ entry ∈ (after q destructed state before).1.map, entry.2 ≠ job

end Declared

namespace DependencyEvent

/-- The event settles what depends on the job: its successful end, its destruction, or a call
that resolves it. -/
def Settles (event : DependencyEvent J P) (dependee : J) : Prop :=
  event = .call (.resolveDependencies dependee) ∨ event = .ended dependee .success ∨
    ∃ status, event = .destroyed dependee status

/-- What an event adds to the declared dependencies, or takes back of them. -/
def declare (declared : List (J × J)) : DependencyEvent J P → List (J × J)
  | .call (.addDependency dependent dependee _) => (dependent, dependee) :: declared
  | .call (.removeDependency dependent dependee) => declared.erase (dependent, dependee)
  | _ => declared

/-- The dependencies declared by a history, less those it has taken back. -/
def declarations (events : List (DependencyEvent J P)) : List (J × J) :=
  events.foldl declare []

omit [DecidableEq P] in
theorem declarations_concat (events : List (DependencyEvent J P)) (event : DependencyEvent J P) :
    declarations (events ++ [event]) = declare (declarations events) event := by
  simp [declarations]

/-- Whenever the dependency was declared, the dependee has been settled afterwards. -/
def Settled (events : List (DependencyEvent J P)) (dependent dependee : J) : Prop :=
  ∀ before after distinct,
    events = before ++ .call (.addDependency dependent dependee distinct) :: after →
      ∃ event ∈ after, event.Settles dependee

end DependencyEvent

/-! ## What is left in the map -/

namespace Declared

variable {q : QueuePolicies J P σ} {destructed : Destructed J P σ}

/-- After a history, the entries of the map are declared dependencies whose dependee carries the
policy and has not been settled since. -/
structure Pending (state : Declared J P) (events : List (DependencyEvent J P)) : Prop where
  carried : ∀ entry ∈ state.map, none ∈ (state.queuePolicies entry.2).list
  declared : ∀ entry, state.map.count entry ≤ (DependencyEvent.declarations events).count entry
  unsettled : ∀ entry ∈ state.map, ∃ before after distinct,
    events = before ++ .call (.addDependency entry.1 entry.2 distinct) :: after ∧
      ∀ event ∈ after, ¬ event.Settles entry.2

theorem mem_resolve {map : Dependencies J} {job : J} {status : Status} {entry : J × J}
    (h : entry ∈ map.resolve job status) :
    entry ∈ map ∧ (status = .success → entry.2 ≠ job) := by
  unfold Dependencies.resolve at h
  split at h
  · obtain ⟨hmem, hne⟩ := Dependencies.mem_resolveDependencies.mp h
    exact ⟨hmem, fun _ => hne⟩
  · rename_i hstatus
    exact ⟨h, fun hsuccess => absurd hsuccess hstatus⟩

/-- An entry in the map after an event has been declared by it, or was there and is not settled
by it. -/
theorem mem_step_map {state : Declared J P × σ} {event : DependencyEvent J P}
    (hcarried : ∀ entry ∈ state.1.map, none ∈ (state.1.queuePolicies entry.2).list)
    (hreleases : ∀ job status, event = .destroyed job status →
      status = .success ∨ ∀ entry ∈ state.1.map, entry.2 ≠ job)
    {entry : J × J} (hmem : entry ∈ (step q destructed state event).1.map) :
    (∃ distinct, event = .call (.addDependency entry.1 entry.2 distinct)) ∨
      entry ∈ state.1.map ∧ ¬ event.Settles entry.2 := by
  cases event with
  | call op =>
      cases op with
      | addDependency dependent dependee distinct =>
          rcases List.mem_cons.mp hmem with rfl | hold
          · exact .inl ⟨distinct, rfl⟩
          · exact .inr ⟨hold, by simp [DependencyEvent.Settles]⟩
      | removeDependency dependent dependee =>
          simp only [step, call, Dependencies.removeFirst_eq] at hmem
          exact .inr ⟨List.mem_of_mem_erase hmem, by simp [DependencyEvent.Settles]⟩
      | resolveDependencies job =>
          obtain ⟨hold, hne⟩ := Dependencies.mem_resolveDependencies.mp hmem
          exact .inr ⟨hold, by simp [DependencyEvent.Settles, hne.symm]⟩
  | assignQueuePolicy job policy => exact .inr ⟨hmem, by simp [DependencyEvent.Settles]⟩
  | removeQueuePolicy job policy => exact .inr ⟨hmem, by simp [DependencyEvent.Settles]⟩
  | ended job status =>
      simp only [step, freeQueuePolicyResources_map] at hmem
      have hold : entry ∈ state.1.map := by
        split at hmem
        · exact (mem_resolve hmem).1
        · exact hmem
      refine .inr ⟨hold, fun hsettles => ?_⟩
      obtain ⟨rfl, rfl⟩ : job = entry.2 ∧ status = .success := by
        simpa [DependencyEvent.Settles] using hsettles
      rw [if_pos (hcarried entry hold)] at hmem
      exact (mem_resolve hmem).2 rfl rfl
  | destroyed job status =>
      simp only [step, destroy_map] at hmem
      have hold : entry ∈ state.1.map := by
        split at hmem
        · exact (mem_resolve hmem).1
        · exact hmem
      refine .inr ⟨hold, fun hsettles => ?_⟩
      obtain rfl : job = entry.2 := by
        simpa [DependencyEvent.Settles] using hsettles
      rcases hreleases _ _ rfl with rfl | hnone
      · rw [if_pos (hcarried entry hold)] at hmem
        exact (mem_resolve hmem).2 rfl rfl
      · exact hnone entry hold rfl

/-- No event takes the policy from a dependee, but for its destruction. -/
theorem carried_step {state : Declared J P × σ} {event : DependencyEvent J P} {job : J}
    (h : none ∈ (state.1.queuePolicies job).list)
    (hsettles : ¬ event.Settles job) :
    none ∈ ((step q destructed state event).1.queuePolicies job).list := by
  cases event with
  | call op =>
      cases op with
      | addDependency dependent dependee distinct => exact mem_assign (mem_assign h)
      | removeDependency dependent dependee => exact h
      | resolveDependencies other => exact h
  | assignQueuePolicy other policy =>
      by_cases hother : job = other
      · subst hother
        simp [step, h]
      · simpa [step, Function.update_of_ne hother] using h
  | removeQueuePolicy other policy =>
      by_cases hother : job = other
      · subst hother
        simp [step, h]
      · simpa [step, Function.update_of_ne hother] using h
  | ended other status => exact h
  | destroyed other status =>
      have hother : job ≠ other := by
        rintro rfl
        exact hsettles (.inr (.inr ⟨status, rfl⟩))
      simpa [step, Function.update_of_ne hother] using h

/-- An event leaves no more entries of a pair than its declarations. -/
theorem count_step_map_le {state : Declared J P × σ} {events : List (DependencyEvent J P)}
    {entry : J × J}
    (h : state.1.map.count entry ≤ (DependencyEvent.declarations events).count entry)
    (event : DependencyEvent J P) :
    (step q destructed state event).1.map.count entry ≤
      (DependencyEvent.declarations (events ++ [event])).count entry := by
  have hresolve : ∀ job status, (state.1.map.resolve job status).count entry ≤
      state.1.map.count entry := by
    intro job status
    unfold Dependencies.resolve
    split
    · exact (List.filter_sublist ..).count_le entry
    · exact Nat.le_refl _
  rw [DependencyEvent.declarations_concat]
  cases event with
  | call op =>
      cases op with
      | addDependency dependent dependee distinct =>
          simp only [step, call, DependencyEvent.declare, List.count_cons]
          exact Nat.add_le_add_right h _
      | removeDependency dependent dependee =>
          simp only [step, call, Dependencies.removeFirst_eq, Dependencies.removeDependency,
            DependencyEvent.declare, List.count_erase]
          exact Nat.sub_le_sub_right h _
      | resolveDependencies job => exact ((List.filter_sublist ..).count_le entry).trans h
  | assignQueuePolicy job policy => exact h
  | removeQueuePolicy job policy => exact h
  | ended job status =>
      simp only [step, freeQueuePolicyResources_map]
      split
      · exact (hresolve job status).trans h
      · exact h
  | destroyed job status =>
      simp only [step, destroy_map]
      split
      · exact (hresolve job status).trans h
      · exact h

theorem DestroysReleased.mono {state : Declared J P × σ}
    {events before : List (DependencyEvent J P)} (h : DestroysReleased q destructed state events)
    (hpart : before <+: events) : DestroysReleased q destructed state before :=
  fun earlier job status hearlier => h earlier job status (hearlier.trans hpart)

theorem after_pending {queuePolicies : J → JobPolicies (Option P)} {other : σ}
    {events : List (DependencyEvent J P)}
    (h : DestroysReleased q destructed (start queuePolicies, other) events) :
    (after q destructed (start queuePolicies, other) events).1.Pending events := by
  induction events using List.reverseRecOn with
  | nil =>
      exact ⟨fun entry hentry => absurd hentry List.not_mem_nil, fun entry => Nat.zero_le _,
        fun entry hentry => absurd hentry List.not_mem_nil⟩
  | append_singleton events event ih =>
      have hbefore := ih (h.mono (List.prefix_append events [event]))
      have hcases := @mem_step_map J P σ _ _ q destructed _ event hbefore.carried
        (fun job status hevent => h events job status (hevent ▸ List.prefix_refl _))
      rw [after_concat]
      refine ⟨fun entry hentry => ?_, fun entry => ?_, fun entry hentry => ?_⟩
      · rcases hcases hentry with ⟨distinct, rfl⟩ | ⟨hold, hsettles⟩
        · exact mem_assign_self _ _
        · exact carried_step (hbefore.carried entry hold) hsettles
      · exact count_step_map_le (hbefore.declared entry) event
      · rcases hcases hentry with ⟨distinct, rfl⟩ | ⟨hold, hsettles⟩
        · exact ⟨events, [], distinct, rfl, fun event hevent => absurd hevent List.not_mem_nil⟩
        · obtain ⟨before, later, distinct, hevents, hlater⟩ := hbefore.unsettled entry hold
          refine ⟨before, later ++ [event], distinct, by simp [hevents], fun other hother => ?_⟩
          rcases List.mem_append.mp hother with hother | hother
          · exact hlater other hother
          · rwa [List.mem_singleton.mp hother]

omit [DecidableEq P] in
theorem Pending.canRun {state : Declared J P} {events : List (DependencyEvent J P)} {job : J}
    (h : state.Pending events)
    (hsettled : ∀ dependee, (job, dependee) ∈ DependencyEvent.declarations events →
      DependencyEvent.Settled events job dependee) : state.map.canRun job = true := by
  refine Dependencies.canRun_iff.mpr fun dependee hmem => ?_
  have hdeclared : (job, dependee) ∈ DependencyEvent.declarations events :=
    List.count_pos_iff.mp ((List.count_pos_iff.mpr hmem).trans_le (h.declared _))
  obtain ⟨before, later, distinct, hevents, hlater⟩ := h.unsettled _ hmem
  obtain ⟨event, hevent, hsettles⟩ := hsettled dependee hdeclared before later distinct hevents
  exact hlater event hevent hsettles

end Declared

/-- **Destruction releases dependents** of a job that succeeded and of a job nothing depends on,
and of no other job.  In a history in which only such jobs are destroyed, a job whose dependees
have all been settled is accepted. -/
theorem destroy_releases (q : QueuePolicies J P σ) (destructed : Destructed J P σ) :
    (∀ (policies : JobPolicies (Option P)) (job : J) (status : Status)
      (state : Dependencies J × σ), none ∈ policies.list →
        (Dependencies.Released job state.1
            (destroy destructed.withDependencies policies job status state).1 ↔
          status = .success ∨ ∀ entry ∈ state.1, entry.2 ≠ job)) ∧
      ∀ (queuePolicies : J → JobPolicies (Option P)) (other : σ)
        (events : List (DependencyEvent J P)),
        Declared.DestroysReleased q destructed (.start queuePolicies, other) events →
          ∀ job, (∀ dependee, (job, dependee) ∈ DependencyEvent.declarations events →
              DependencyEvent.Settled events job dependee) →
            (Declared.after q destructed (.start queuePolicies, other) events).1.map.canRun job =
              true := by
  refine ⟨fun policies job status state hcarries => ?_,
    fun queuePolicies other events hreleases job hsettled => ?_⟩
  · rw [destroy_map, if_pos hcarries]
    exact Dependencies.resolve_released_iff
  · exact (Declared.after_pending hreleases).canRun hsettled

/-- A job that succeeds and is destroyed: its dependent may run. -/
theorem destroy_releases_success :
    Dependencies.Released 1 [(0, 1)]
        (destroy (Destructed.withDependencies fun (_ : Unit) (_ : ℕ) _ (state : Unit) => state)
          (JobPolicies.empty.assignQueuePolicy none) 1 .success ([(0, 1)], ())).1 ∧
      (Declared.after ⟨fun (_ : Unit) (_ : ℕ) state => (true, state), fun _ _ _ state => state,
          fun _ _ state => state⟩ (fun _ _ _ state => state) (.start fun _ => .empty, ())
        [.call (.addDependency 0 1 (by decide)), .ended 1 .success,
          .destroyed 1 .success]).1.map.canRun 0 = true := by
  refine ⟨?_, ?_⟩
  · exact ((destroy_releases ⟨fun (_ : Unit) (_ : ℕ) state => (true, state),
      fun _ _ _ state => state, fun _ _ state => state⟩ _).1 _ 1 .success ([(0, 1)], ())
        (by simp)).mpr (.inl rfl)
  · refine (destroy_releases _ _).2 _ () _ ?_ 0 ?_
    · intro before job status hpart
      have hmem := hpart.subset (List.mem_append_right before (List.mem_singleton.mpr rfl))
      simp only [List.mem_cons, reduceCtorEq, DependencyEvent.destroyed.injEq, List.not_mem_nil,
        or_false, false_or] at hmem
      exact .inl hmem.2
    · intro dependee hdeclared before later distinct hevents
      obtain rfl : dependee = 1 := by
        simpa [DependencyEvent.declarations, DependencyEvent.declare] using hdeclared
      cases before with
      | nil =>
          obtain rfl : [.ended 1 .success, .destroyed 1 .success] = later := by
            simpa using hevents
          exact ⟨.ended 1 .success, by simp, .inr (.inl rfl)⟩
      | cons first rest =>
          rcases rest with _ | ⟨second, _ | ⟨third, rest⟩⟩ <;> simp at hevents

/-- A job that is destroyed after it has failed, with another one that depends on it. -/
theorem not_released_failed : ¬ Dependencies.Released 1 [(0, 1)]
    (destroy (Destructed.withDependencies fun (_ : Unit) (_ : ℕ) _ (state : Unit) => state)
      (JobPolicies.empty.assignQueuePolicy none) 1 .failed ([(0, 1)], ())).1 := by
  intro hreleased
  exact hreleased.dependee (0, 1) (by decide) rfl

end

end ThreadWeaver
