import ThreadWeaver.Collection.Locking
import ThreadWeaver.Collection.Ready
import ThreadWeaver.ResourceRestrictionPolicy

/-!
# Resource restrictions in nested work

The queue policies of the program are objects of `ResourceRestrictionPolicy`, which any of its jobs
may carry, plain jobs, Collections and Sequences alike.  The customers of a restriction are the jobs
that carry it, have been handed to a worker and have not been freed of their policies, each of them
once, and never more than the cap.

A collection is freed twice: when it is cleaned up and when its end runs.  The second time its
restrictions do not find it among their customers any more, since a job that has been executed is
not executed again.  And it may be freed early, when a stop subtracts its last element from the
counter; from then on it is no customer, though it has not come to its end.
-/

namespace ThreadWeaver

namespace Collection

variable {J P T R σ : Type*}

theorem withBlocker_undoneUpTo {q : QueuePolicies J P σ} {R : σ → σ → Prop}
    (h : q.UndoneUpTo R) : (withBlocker q).UndoneUpTo R where
  equivalence := h.equivalence
  canRun policy job _ _ hstate := by
    cases policy with
    | none => exact ⟨rfl, hstate⟩
    | some policy => exact h.canRun policy job hstate
  release {policy} _ _ _ hstate := by
    cases policy with
    | none => exact hstate
    | some policy => exact h.release hstate
  accepted {policy} _ _ haccepts := by
    cases policy with
    | none => cases haccepts
    | some policy => exact h.accepted haccepts
  refused {policy} _ _ hrefuses := by
    cases policy with
    | none => exact h.equivalence.refl _
    | some policy => exact h.refused hrefuses
  comm {policy other} _ _ := by
    cases policy with
    | none => exact h.equivalence.refl _
    | some policy =>
        cases other with
        | none => exact h.equivalence.refl _
        | some other => exact h.comm

/-! ## Jobs that have been freed -/

/-- The queue policies of the job have been freed. -/
def Data.IsFreed (d : Data J P T σ) (job : J) : Prop :=
  .cleanedUp job ∈ d.log ∨ ∃ status, .ended job status ∈ d.log

/-- The job has been handed to a worker and has not been freed of its policies. -/
def Data.Occupies (d : Data J P T σ) (job : J) : Prop :=
  (d.place job).isAssigned = true ∧ ¬ d.IsFreed job

theorem Frees.unique {d : Data J P T σ} {op : Op J} {job other : J} {status status' : Status}
    (h : Frees d op job status) (h' : Frees d op other status') : other = job ∧ status' = status := by
  cases h <;> cases h' <;> exact ⟨rfl, rfl⟩

section Exec

variable [DecidableEq J] [DecidableEq P] {F : Forest J P σ} {s : State J P T σ}
  {thread : Thread T} {op : Op J} {rest : List (Op J)}

/-- **Inversion.**  Jobs are freed when it is recorded that they were cleaned up or have ended. -/
theorem exec_isFreed (F : Forest J P σ) (thread : Thread T) (op : Op J) (d : Data J P T σ)
    (job : J) : (exec F thread op d).1.IsFreed job ↔
      d.IsFreed job ∨ ∃ status, Frees d op job status := by
  constructor
  · rintro (hcleaned | ⟨status, hended⟩)
    · rcases exec_mem_log F thread op d hcleaned with hold | hnew
      · exact .inl (.inl hold)
      · cases hnew with
        | cleanedUp hlast => exact .inr ⟨_, .countDown hlast⟩
        | cleanedUpLast hlast => exact .inr ⟨_, .checkLast hlast⟩
    · rcases exec_mem_log F thread op d hended with hold | hnew
      · exact .inl (.inr ⟨status, hold⟩)
      · cases hnew
        exact .inr ⟨_, .defaultEnd⟩
  · have hlog := exec_log F thread op d
    rintro ((hcleaned | ⟨status, hended⟩) | ⟨status, hfrees⟩)
    · exact .inl (hlog ▸ List.mem_append_left _ hcleaned)
    · exact .inr ⟨status, hlog ▸ List.mem_append_left _ hended⟩
    · cases hfrees with
      | countDown hlast | checkLast hlast =>
          refine .inl ?_
          rw [hlog]
          simp [Op.events, hlast]
      | defaultEnd =>
          refine .inr ⟨d.status job, ?_⟩
          rw [hlog]
          exact List.mem_append_right _ List.mem_cons_self

/-- **Inversion.**  The job that a worker takes is handed to it, and no other. -/
theorem State.Sound.exec_isAssigned_iff (hs : s.Sound F) (hstack : s.stack thread = op :: rest)
    (hfree : ∀ mutex, wants F op = some mutex → s.data.holder mutex = none) (job : J) :
    ((exec F thread op s.data).1.place job).isAssigned = true ↔
      (s.data.place job).isAssigned = true ∨
        s.data.canBeExecuted F job = true ∧ ∃ candidates, op = .takeFirst (job :: candidates) := by
  constructor
  · intro hafter
    rcases hs.exec_isAssigned hstack hfree hafter with hbefore | ⟨-, hcan, hop⟩
    · exact .inl hbefore
    · exact .inr ⟨hcan, hop⟩
  · rintro (hbefore | ⟨hcan, candidates, rfl⟩)
    · rcases hs.exec_place hstack hfree job with hsame | hmoves
      · rw [hsame]
        exact hbefore
      · exact hmoves.isAssigned hbefore
    · simp [exec, hcan, Data.unlock, Data.assign, Data.record, Data.moveTo, Place.isAssigned]

/-- A collection that is cleaned up has been executed. -/
theorem State.Sound.exec_cleanedUp (hs : s.Sound F) (hstack : s.stack thread = op :: rest)
    {job : J} (hmem : .cleanedUp job ∈ (exec F thread op s.data).1.log) :
    .cleanedUp job ∈ s.data.log ∨ F.kind job ≠ .plain ∧ s.data.opened job = true := by
  rcases exec_mem_log F thread op s.data hmem with hold | hnew
  · exact .inl hold
  refine .inr ?_
  obtain ⟨hone, status, hfrees, hne⟩ : s.data.jobCounter job = 1 ∧ ∃ status,
      Frees s.data op job status ∧ op ≠ .defaultEnd job := by
    cases hnew with
    | cleanedUp hone => exact ⟨hone, _, .countDown hone, by simp⟩
    | cleanedUpLast hone => exact ⟨hone, _, .checkLast hone, by simp⟩
  constructor
  · rcases hs.of_frees hstack hfrees with ⟨hend, -⟩ | ⟨hkind, -⟩
    · exact absurd hend hne
    · exact hkind
  · by_contra hnot
    have hcounter := hs.books.unopened job (Bool.eq_false_of_not_eq_true hnot)
    simp only [Data.books] at hcounter
    omega

end Exec

/-! ## The customers of the restrictions -/

section Restricted

variable [DecidableEq J] [DecidableEq R]

/-- The queue policies of the program are resource restrictions. -/
def Forest.withRestrictions (R : Type*) [DecidableEq R] (F : Forest J P σ) :
    Forest J R (R → Restriction J) :=
  { F with policies := (restrictions J R).policies }

/-- The restrictions that the jobs carry, each without customers. -/
def restricting (cap : R → ℤ) (carries : J → List R) (hnodup : ∀ job, (carries job).Nodup) :
    Weaver.Start J R (R → Restriction J) where
  queuePolicies := carries
  nodup := hnodup
  policyState restriction := ⟨cap restriction, []⟩

/-- A free takes the job out of the customers of the restrictions that it carries. -/
theorem free_restrictions (job : J) (status : Status) {policies : List (Option R)}
    (hnodup : policies.Nodup) (state : R → Restriction J) (restriction : R) :
    policies.foldl (fun state policy =>
        (withBlocker (restrictions J R).policies).free policy job status state) state restriction =
      if some restriction ∈ policies then (state restriction).free job else state restriction := by
  induction policies generalizing state with
  | nil => rfl
  | cons policy rest ih =>
      rw [List.nodup_cons] at hnodup
      rw [List.foldl_cons, ih hnodup.2]
      cases policy with
      | none => simp [withBlocker]
      | some other =>
          by_cases heq : other = restriction
          · subst heq
            rw [if_neg hnodup.1, if_pos List.mem_cons_self]
            simp [withBlocker, PolicyObjects.policies, restrictions]
          · have hne : restriction ≠ other := fun h => heq h.symm
            simp [withBlocker, PolicyObjects.policies, restrictions, hne]

/-- The restrictions have the right customers, and not more than their caps. -/
structure State.Restricted (F : Forest J P σ) (cap : R → ℤ) (carries : J → List R)
    (s : State J R T (R → Restriction J)) : Prop where
  fixed : ∀ restriction, (s.data.policyState restriction).cap = cap restriction
  room : ∀ restriction,
    ((s.data.policyState restriction).customers.length : ℤ) ≤ cap restriction
  nodup : ∀ restriction, (s.data.policyState restriction).customers.Nodup
  customers : ∀ restriction job, job ∈ (s.data.policyState restriction).customers ↔
    restriction ∈ carries job ∧ s.data.Occupies job
  freed : ∀ job, s.data.IsFreed job → (s.data.place job).isAssigned = true
  cleaned : ∀ job, .cleanedUp job ∈ s.data.log → F.kind job ≠ .plain

variable {F : Forest J P σ} {cap : R → ℤ} {carries : J → List R}
  {hnodup : ∀ job, (carries job).Nodup} {s next : State J R T (R → Restriction J)}
  {thread : Thread T} {op : Op J} {rest : List (Op J)}

/-- A job that is accepted becomes a customer of the restrictions that it carries, and all of them
have room for it. -/
theorem askPolicies_accepted {job : J} {d : Data J R T (R → Restriction J)}
    (hlist : d.queuePolicies job = (carries job).map some) (hnodup : (carries job).Nodup)
    (hcan : d.canBeExecuted (F.withRestrictions R) job = true) (restriction : R) :
    (d.askPolicies (F.withRestrictions R) job).policyState restriction =
        (if restriction ∈ carries job then ((d.policyState restriction).canRun job).2
          else d.policyState restriction) ∧
      (restriction ∈ carries job → ((d.policyState restriction).canRun job).1 = true) := by
  have hask : (d.askPolicies (F.withRestrictions R) job).policyState =
      ((withBlocker (restrictions J R).policies).canBeExecuted (d.queuePolicies job) job
        d.policyState).2 := rfl
  have haccepts : (restrictions J R).policies.Accepts (carries job) job d.policyState := by
    unfold Data.canBeExecuted at hcan
    rw [hlist, withBlocker_canBeExecuted] at hcan
    exact hcan
  rw [hask, hlist, withBlocker_canBeExecuted]
  exact ⟨PolicyObjects.accepted_apply hnodup _ haccepts restriction,
    fun hmem => (PolicyObjects.accepts hnodup _).mp haccepts restriction hmem⟩

theorem askPolicies_refused {job : J} {d : Data J R T (R → Restriction J)}
    (hcan : d.canBeExecuted (F.withRestrictions R) job ≠ true) (restriction : R) :
    ((d.askPolicies (F.withRestrictions R) job).policyState restriction).Same
      (d.policyState restriction) :=
  (withBlocker_undoneUpTo restrictions_undoneUpTo).of_refused hcan restriction

namespace State.Restricted

omit [DecidableEq J] [DecidableEq R] in
theorem of_same (h : s.Restricted F cap carries)
    (hsame : ∀ restriction,
      (next.data.policyState restriction).Same (s.data.policyState restriction))
    (hassigned : ∀ job, (next.data.place job).isAssigned = (s.data.place job).isAssigned)
    (hfreed : ∀ job, next.data.IsFreed job ↔ s.data.IsFreed job)
    (hcleaned : ∀ job, .cleanedUp job ∈ next.data.log → F.kind job ≠ .plain) :
    next.Restricted F cap carries where
  fixed restriction := (hsame restriction).1.trans (h.fixed restriction)
  room restriction := by
    rw [(hsame restriction).2.length_eq]
    exact h.room restriction
  nodup restriction := (hsame restriction).2.nodup_iff.mpr (h.nodup restriction)
  customers restriction job := by
    rw [(hsame restriction).2.mem_iff, h.customers]
    unfold Data.Occupies
    rw [hassigned, hfreed]
  freed job hjob := by
    rw [hassigned]
    exact h.freed job ((hfreed job).mp hjob)
  cleaned := hcleaned

omit [DecidableEq J] in
theorem of_accepted (h : s.Restricted F cap carries) {job : J}
    (hnew : (s.data.place job).isAssigned = false)
    (hstate : ∀ restriction, next.data.policyState restriction =
      if restriction ∈ carries job then ((s.data.policyState restriction).canRun job).2
        else s.data.policyState restriction)
    (haccepts : ∀ restriction ∈ carries job,
      ((s.data.policyState restriction).canRun job).1 = true)
    (hassigned : ∀ other, (next.data.place other).isAssigned = true ↔
      (s.data.place other).isAssigned = true ∨ other = job)
    (hlog : ∀ other, next.data.IsFreed other ↔ s.data.IsFreed other)
    (hcleaned : ∀ job, .cleanedUp job ∈ next.data.log → F.kind job ≠ .plain) :
    next.Restricted F cap carries := by
  have hnot : ∀ restriction, job ∉ (s.data.policyState restriction).customers := by
    intro restriction hmem
    have hold := ((h.customers restriction job).mp hmem).2.1
    rw [hnew] at hold
    cases hold
  have hunfreed : ¬ s.data.IsFreed job := by
    intro hfreed
    rw [h.freed job hfreed] at hnew
    cases hnew
  refine ⟨fun restriction => ?_, fun restriction => ?_, fun restriction => ?_,
    fun restriction other => ?_, fun other hfreed => ?_, hcleaned⟩
  · rw [hstate]
    split
    · rename_i hmem
      rw [(Restriction.canRun_eq (haccepts restriction hmem)).2]
      exact h.fixed restriction
    · exact h.fixed restriction
  · rw [hstate]
    split
    · rename_i hmem
      obtain ⟨hroom, hmore⟩ := Restriction.canRun_eq (haccepts restriction hmem)
      rw [hmore, List.length_append, List.length_singleton]
      rw [h.fixed] at hroom
      omega
    · exact h.room restriction
  · rw [hstate]
    split
    · rename_i hmem
      rw [(Restriction.canRun_eq (haccepts restriction hmem)).2]
      refine List.nodup_append.mpr ⟨h.nodup restriction, List.nodup_singleton job, ?_⟩
      intro other hother new hnew heq
      rw [List.mem_singleton] at hnew
      exact hnot restriction (hnew ▸ heq ▸ hother)
    · exact h.nodup restriction
  · have hoccupies : next.data.Occupies other ↔ s.data.Occupies other ∨ other = job := by
      unfold Data.Occupies
      rw [hassigned, hlog]
      constructor
      · rintro ⟨hold | rfl, hunfreed⟩
        · exact .inl ⟨hold, hunfreed⟩
        · exact .inr rfl
      · rintro (⟨hold, hunfreed⟩ | rfl)
        · exact ⟨.inl hold, hunfreed⟩
        · exact ⟨.inr rfl, hunfreed⟩
    rw [hstate, hoccupies]
    split
    · rename_i hmem
      rw [(Restriction.canRun_eq (haccepts restriction hmem)).2, List.mem_append,
        List.mem_singleton, h.customers]
      constructor
      · rintro (⟨hcarries, hold⟩ | rfl)
        · exact ⟨hcarries, .inl hold⟩
        · exact ⟨hmem, .inr rfl⟩
      · rintro ⟨hcarries, hold | rfl⟩
        · exact .inl ⟨hcarries, hold⟩
        · exact .inr rfl
    · rename_i hmem
      rw [h.customers]
      constructor
      · exact fun hold => ⟨hold.1, .inl hold.2⟩
      · rintro ⟨hcarries, hold | rfl⟩
        · exact ⟨hcarries, hold⟩
        · exact absurd hcarries hmem
  · rw [hassigned]
    exact .inl (h.freed other ((hlog other).mp hfreed))

theorem of_freed (h : s.Restricted F cap carries) {job : J}
    (hstate : ∀ restriction, next.data.policyState restriction =
      if restriction ∈ carries job then (s.data.policyState restriction).free job
        else s.data.policyState restriction)
    (hjob : (s.data.place job).isAssigned = true)
    (hassigned : ∀ other, (next.data.place other).isAssigned = (s.data.place other).isAssigned)
    (hfreed : ∀ other, next.data.IsFreed other ↔ s.data.IsFreed other ∨ other = job)
    (hcleaned : ∀ job, .cleanedUp job ∈ next.data.log → F.kind job ≠ .plain) :
    next.Restricted F cap carries := by
  refine ⟨fun restriction => ?_, fun restriction => ?_, fun restriction => ?_,
    fun restriction other => ?_, fun other hother => ?_, hcleaned⟩
  · rw [hstate]
    split <;> exact h.fixed restriction
  · have hroom := h.room restriction
    rw [hstate]
    split
    · have hless : ((s.data.policyState restriction).customers.erase job).length ≤
          (s.data.policyState restriction).customers.length := List.length_erase_le
      simp only [Restriction.free]
      omega
    · exact hroom
  · rw [hstate]
    split
    · exact (h.nodup restriction).erase job
    · exact h.nodup restriction
  · have hoccupies : next.data.Occupies other ↔ s.data.Occupies other ∧ other ≠ job := by
      unfold Data.Occupies
      rw [hassigned, hfreed, not_or, and_assoc]
    rw [hstate, hoccupies]
    split
    · simp only [Restriction.free]
      rw [(h.nodup restriction).mem_erase_iff, h.customers]
      tauto
    · rename_i hnot
      rw [h.customers]
      constructor
      · rintro ⟨hcarries, hold⟩
        exact ⟨hcarries, hold, fun heq => hnot (heq ▸ hcarries)⟩
      · exact fun hold => ⟨hold.1, hold.2.1⟩
  · rw [hassigned]
    rcases (hfreed other).mp hother with hold | rfl
    · exact h.freed other hold
    · exact hjob

end State.Restricted

theorem State.Restricted.exec (h : s.Restricted F cap carries)
    (hs : s.Sound (F.withRestrictions R)) (ho : s.OwnPolicies (F.withRestrictions R)
      (restricting cap carries hnodup))
    (hk : s.PoliciesKept (restricting cap carries hnodup)) (hstack : s.stack thread = op :: rest)
    (hfree : ∀ mutex, wants (F.withRestrictions R) op = some mutex → s.data.holder mutex = none)
    {stack : Thread T → List (Op J)} :
    State.Restricted F cap carries
      ⟨(Collection.exec (F.withRestrictions R) thread op s.data).1, stack⟩ := by
  have hassigned := hs.exec_isAssigned_iff hstack hfree
  have hfreed := exec_isFreed (F.withRestrictions R) thread op s.data
  have hcleaned : ∀ job,
      .cleanedUp job ∈ (Collection.exec (F.withRestrictions R) thread op s.data).1.log →
        F.kind job ≠ .plain := by
    intro job hmem
    rcases hs.exec_cleanedUp hstack hmem with hold | hnew
    · exact h.cleaned job hold
    · exact hnew.1
  rcases exec_policies (F.withRestrictions R) thread op s.data with
    ⟨hstate, -, hsearch, hnone⟩ | ⟨job, candidates, rfl, hstate, -⟩ |
      ⟨job, status, hfrees, hstate, -⟩
  · refine h.of_same (fun restriction => ?_) (fun other => ?_) (fun other => ?_) hcleaned
    · dsimp only
      rw [hstate]
      exact ⟨rfl, .refl _⟩
    · rw [Bool.eq_iff_iff, hassigned]
      simp [hsearch]
    · dsimp only
      rw [hfreed]
      simp [hnone]
  · have hsame : ∀ other, (Collection.exec (F.withRestrictions R) thread
        (.takeFirst (job :: candidates)) s.data).1.IsFreed other ↔ s.data.IsFreed other := by
      intro other
      rw [hfreed, or_iff_left]
      rintro ⟨status, hfrees⟩
      cases hfrees
    by_cases hcan : s.data.canBeExecuted (F.withRestrictions R) job = true
    · have hlist : s.data.queuePolicies job = (carries job).map some :=
        ho.eq_of_unblocked (Data.notMem_of_canBeExecuted hcan)
      have hasked := askPolicies_accepted hlist (hnodup job) hcan
      refine h.of_accepted ?_ (fun restriction => ?_) (fun restriction => (hasked restriction).2)
        (fun other => ?_) hsame hcleaned
      · rw [hs.queued_of_candidate hstack]
        rfl
      · dsimp only
        rw [hstate]
        exact (hasked restriction).1
      · rw [hassigned]
        refine or_congr_right ⟨?_, ?_⟩
        · rintro ⟨-, others, heq⟩
          cases heq
          rfl
        · rintro rfl
          exact ⟨hcan, candidates, rfl⟩
    · refine h.of_same (fun restriction => ?_) (fun other => ?_) hsame hcleaned
      · dsimp only
        rw [hstate]
        exact askPolicies_refused hcan restriction
      · rw [Bool.eq_iff_iff, hassigned, or_iff_left]
        rintro ⟨hother, others, heq⟩
        cases heq
        exact hcan hother
  · have hjob : (s.data.place job).isAssigned = true := by
      rcases hs.of_frees hstack hfrees with ⟨-, hplace⟩ | ⟨-, hplace, -⟩
      · rw [hplace]
        rfl
      · exact hplace
    refine h.of_freed (fun restriction => ?_) hjob (fun other => ?_) (fun other => ?_) hcleaned
    · dsimp only
      rw [hstate]
      refine (free_restrictions job status (hk.nodup job) _ restriction).trans ?_
      exact if_congr (hk.own job restriction) rfl rfl
    · rw [Bool.eq_iff_iff, hassigned, or_iff_left]
      rintro ⟨-, others, rfl⟩
      cases hfrees
    · dsimp only
      rw [hfreed]
      refine or_congr_right ⟨?_, ?_⟩
      · rintro ⟨status', hother⟩
        exact (hfrees.unique hother).1
      · rintro rfl
        exact ⟨status, hfrees⟩

variable [DecidableEq T] {ok : State J R T (R → Restriction J) → Act J T → Prop}

theorem runs_restricted (hcap : ∀ restriction, 0 ≤ cap restriction)
    (run : Runs (F.withRestrictions R) ok (restricting cap carries hnodup) s) :
    s.Restricted F cap carries := by
  induction run with
  | refl =>
      refine ⟨fun _ => rfl, hcap, fun _ => List.nodup_nil, fun restriction job => ?_, ?_, ?_⟩
      · constructor
        · exact fun hmem => absurd hmem List.not_mem_nil
        · exact fun hmem => absurd hmem.2.1 (by simp [init, Place.isAssigned, Place.isStarted])
      · intro job hfreed
        simp [Data.IsFreed, init] at hfreed
      · intro job hmem
        simp [init] at hmem
  | tail run _ hstep ih =>
      have hs := runs_sound run
      refine step_rule ih ?_ ?_ ?_ hstep
      · intro thread _ hran
        obtain ⟨op, rest, hstack, hfree, rfl⟩ := State.runThread_eq_some hran
        exact ih.exec hs (runs_ownPolicies run) (runs_paired run).1 hstack hfree
      · intro caller jobs _ hjobs
        refine ih.of_same (fun _ => ⟨rfl, .refl _⟩) (fun job => ?_) (fun _ => Iff.rfl) ih.cleaned
        by_cases hmem : job ∈ jobs
        · simp [State.takeUp, hmem, (hjobs job hmem).2, Place.isAssigned, Place.isStarted]
        · simp [State.takeUp, hmem]
      · intro before caller hbefore hbegin
        obtain ⟨-, rfl⟩ := State.beginCall_eq_some hbegin
        exact ⟨hbefore.fixed, hbefore.room, hbefore.nodup, hbefore.customers, hbefore.freed,
          hbefore.cleaned⟩

omit [DecidableEq R] [DecidableEq T] in
theorem State.Restricted.occupies_iff (h : s.Restricted F cap carries)
    (hrecorded : s.data.books.Recorded) {job : J} (hplain : F.kind job = .plain) :
    s.data.Occupies job ↔
      (s.data.place job).isAssigned = true ∧ (s.data.place job).isEnded = false := by
  have hended : (s.data.place job).isEnded = true ↔ ∃ status, .ended job status ∈ s.data.log :=
    hrecorded.isEnded_iff
  unfold Data.Occupies Data.IsFreed
  rw [not_or, ← hended, Bool.not_eq_true]
  constructor
  · exact fun hoccupies => ⟨hoccupies.1, hoccupies.2.2⟩
  · exact fun hplace => ⟨hplace.1, fun hcleaned => h.cleaned job hcleaned hplain, hplace.2⟩

/-- **In nested work the caps of restrictions are kept and no slot is lost.**  In every run, also
where `stop` and `requestAbort` are called, the customers of a restriction are the jobs that carry
it, have been handed to a worker and have not been freed, each once.  So never more plain jobs that
carry it are executed than its cap allows, and it has no customers while nobody occupies it. -/
theorem nested_restriction_kept (hcap : ∀ restriction, 0 ≤ cap restriction)
    (run : Runs (F.withRestrictions R) ok (restricting cap carries hnodup) s) (restriction : R) :
    (s.data.policyState restriction).cap = cap restriction ∧
      (s.data.policyState restriction).customers.Nodup ∧
      (∀ job, job ∈ (s.data.policyState restriction).customers ↔
        restriction ∈ carries job ∧ s.data.Occupies job) ∧
      (∀ jobs : Finset J, (∀ job ∈ jobs, F.kind job = .plain ∧ restriction ∈ carries job ∧
        (s.data.place job).isAssigned = true ∧ (s.data.place job).isEnded = false) →
          (jobs.card : ℤ) ≤ cap restriction) ∧
      ((∀ job, restriction ∈ carries job → ¬ s.data.Occupies job) →
        (s.data.policyState restriction).customers = []) := by
  have h := runs_restricted hcap run
  refine ⟨h.fixed restriction, h.nodup restriction, h.customers restriction, fun jobs hjobs => ?_,
    fun hnone => ?_⟩
  · have hsubset : jobs ⊆ (s.data.policyState restriction).customers.toFinset := by
      intro job hjob
      obtain ⟨hplain, hcarries, hplace⟩ := hjobs job hjob
      rw [List.mem_toFinset, h.customers]
      exact ⟨hcarries, (h.occupies_iff (runs_recorded run) hplain).mpr hplace⟩
    have hcard := Finset.card_le_card hsubset
    rw [List.toFinset_card_of_nodup (h.nodup restriction)] at hcard
    have hroom := h.room restriction
    omega
  · refine List.eq_nil_iff_forall_not_mem.mpr fun job hmem => ?_
    obtain ⟨hcarries, hoccupies⟩ := (h.customers restriction job).mp hmem
    exact hnone job hcarries hoccupies

end Restricted

/-- The two carry a restriction to one job: while a worker executes the first of them, another one
goes through the queue in vain. -/
theorem nested_restriction_kept_twins : ∃ s : State (Fin 3) Unit Unit (Unit → Restriction (Fin 3)),
    s.data.place 1 = .held .executing (.worker 0) ∧
      s.stack (.worker 1) = [.takeFirst []] ∧ s.data.assignments = [2] ∧
        (1 ∈ (s.data.policyState ()).customers ↔ s.data.Occupies 1) ∧
        ∀ jobs : Finset (Fin 3), (∀ job ∈ jobs, twins.kind job = .plain ∧
          () ∈ (![[], [()], [()]] : Fin 3 → List Unit) job ∧
          (s.data.place job).isAssigned = true ∧ (s.data.place job).isEnded = false) →
            (jobs.card : ℤ) ≤ 1 := by
  obtain ⟨s, run, ⟨hplace, hstack, hlist⟩, -⟩ :=
    exists_runs (twins.withRestrictions Unit) (fun _ _ => True)
      (restricting (fun _ => 1) ![[], [()], [()]] (by decide))
      (fun s : State (Fin 3) Unit Unit (Unit → Restriction (Fin 3)) =>
        s.data.place 1 = .held .executing (.worker 0) ∧
          s.stack (.worker 1) = [.takeFirst []] ∧ s.data.assignments = [2])
      (List.flatten [[.enqueue () [0]], List.replicate 3 (.run (.caller ())),
        List.replicate 17 (.run (.worker 0)), List.replicate 2 (.run (.worker 1))])
      (by decide +kernel)
  have hkept := nested_restriction_kept (fun _ => by decide) run ()
  exact ⟨s, hplace, hstack, hlist, (hkept.2.2.1 1).trans (and_iff_right (by decide)),
    hkept.2.2.2.1⟩

end Collection

end ThreadWeaver
