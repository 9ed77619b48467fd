import ThreadWeaver.Collection.Nesting
import ThreadWeaver.Collection.Release
import ThreadWeaver.Collection.Restriction

/-!
# Dependencies of nested work

Collections and Sequences are jobs, so they may depend on other jobs and others on them.  The
dependency policy knows nothing of elements: it keeps the one job of a dependency waiting in the
queue until the other one is freed with success, which for a collection is its `finalCleanup`.

What this says of everything that is nested in the two follows from the ways of collections: the
elements of the dependent are enqueued when it is executed, and when the dependee is cleaned up
nothing below it is executed any more (if it is not released early).  So a dependency puts all that
is below the dependee before all that is below the dependent, `dependencies_order_nests`.
-/

namespace ThreadWeaver.Collection

open Library (Ordered)

variable {J P T σ : Type*} [DecidableEq J]

section Map

variable {F : Forest J P σ} {start : Weaver.Start J (Option P) (Dependencies J × σ)}
  {s next : State J (Option P) T (Dependencies J × σ)} {thread : Thread T} {op : Op J}
  {rest : List (Op J)} {entry : J × J} {job dependent dependee : J} {status : Status}

/-- A free resolves the dependencies on a job that carries the policy and has succeeded. -/
theorem mem_freeQueuePolicies (policies : List (Option (Option P)))
    (state : Dependencies J × σ) :
    entry ∈ (policies.foldl (fun state policy =>
        (withBlocker F.addDependencyPolicy.policies).free policy job status state) state).1 ↔
      entry ∈ state.1 ∧ ¬ (some none ∈ policies ∧ status = .success ∧ entry.2 = job) := by
  induction policies generalizing state with
  | nil => simp
  | cons policy policies ih =>
      rw [List.foldl_cons, ih]
      cases policy with
      | none =>
          have hkeeps : ((withBlocker F.addDependencyPolicy.policies).free none job status state).1 =
            state.1 := rfl
          rw [hkeeps]
          simp
      | some policy =>
          cases policy with
          | some policy =>
              have hkeeps : ((withBlocker F.addDependencyPolicy.policies).free (some (some policy))
                job status state).1 = state.1 := rfl
              rw [hkeeps]
              simp
          | none =>
              have hresolves : ((withBlocker F.addDependencyPolicy.policies).free (some none)
                  job status state) =
                if status = .success then (state.1.resolveDependencies job, state.2) else state := rfl
              rw [hresolves]
              split
              · rw [Dependencies.mem_resolveDependencies]
                simp only [List.mem_cons, true_or, true_and]
                tauto
              · simp_all

variable [DecidableEq P]

/-- **Inversion.**  Only a free with success resolves dependencies. -/
theorem exec_mem_dependencies (hk : s.PoliciesKept start) :
    entry ∈ (exec F.addDependencyPolicy thread op s.data).1.policyState.1 ↔
      entry ∈ s.data.policyState.1 ∧
        ¬ (Frees s.data op entry.2 .success ∧ none ∈ start.queuePolicies entry.2) := by
  rcases exec_policies F.addDependencyPolicy thread op s.data with
    ⟨hsame, -, -, hnone⟩ | ⟨job, candidates, rfl, hasked, -⟩ | ⟨job, status, hfrees, hfreed, -⟩
  · rw [hsame]
    simp [hnone]
  · rw [hasked, askPolicies_map]
    have hnone : ¬ Frees s.data (.takeFirst (job :: candidates)) entry.2 .success := nofun
    simp [hnone]
  · rw [hfreed, mem_freeQueuePolicies, hk.own]
    refine and_congr_right fun _ => not_congr ⟨?_, ?_⟩
    · rintro ⟨hpolicy, rfl, rfl⟩
      exact ⟨hfrees, hpolicy⟩
    · rintro ⟨hother, hpolicy⟩
      obtain ⟨rfl, rfl⟩ := hfrees.unique hother
      exact ⟨hpolicy, rfl, rfl⟩

/-- The map keeps what the program has declared until the dependees are freed with success. -/
structure State.Depending (F : Forest J P σ)
    (start : Weaver.Start J (Option P) (Dependencies J × σ))
    (s : State J (Option P) T (Dependencies J × σ)) : Prop where
  declared : ∀ entry ∈ s.data.policyState.1, entry ∈ start.policyState.1
  resolved : ∀ entry ∈ start.policyState.1, entry ∉ s.data.policyState.1 →
    .cleanedUp entry.2 ∈ s.data.log ∨ .ended entry.2 .success ∈ s.data.log
  unresolved : ∀ entry ∈ s.data.policyState.1, none ∈ start.queuePolicies entry.2 →
    .ended entry.2 .success ∉ s.data.log
  accepted : ∀ dependent dependee, Depends start dependent dependee →
    (s.data.place dependent).isAssigned = true → (dependent, dependee) ∉ s.data.policyState.1
  cleaned : ∀ job, .cleanedUp job ∈ s.data.log →
    F.kind job ≠ .plain ∧ s.data.opened job = true

namespace State.Depending

theorem exec (hd : s.Depending F start) (hs : s.Sound F.addDependencyPolicy)
    (hk : s.PoliciesKept start) (hstack : s.stack thread = op :: rest)
    (hfree : ∀ mutex, wants F.addDependencyPolicy op = some mutex → s.data.holder mutex = none)
    {stack : Thread T → List (Op J)} :
    State.Depending F start
      ⟨(Collection.exec F.addDependencyPolicy thread op s.data).1, stack⟩ := by
  have hmap : ∀ entry,
      entry ∈ (Collection.exec F.addDependencyPolicy thread op s.data).1.policyState.1 ↔
        entry ∈ s.data.policyState.1 ∧
          ¬ (Frees s.data op entry.2 .success ∧ none ∈ start.queuePolicies entry.2) :=
    fun _ => exec_mem_dependencies hk
  refine ⟨fun entry hentry => ?_, fun entry hentry hnot => ?_, fun entry hentry hpolicy hended => ?_,
    fun dependent dependee hdepends hassigned hentry => ?_, fun job hcleaned => ?_⟩
  · exact hd.declared entry ((hmap entry).mp hentry).1
  · -- the entry goes now, and its dependee is recorded, or it has gone before
    dsimp only at hnot ⊢
    rw [exec_log]
    by_cases hbefore : entry ∈ s.data.policyState.1
    · obtain ⟨hfrees, -⟩ : Frees s.data op entry.2 .success ∧ none ∈ start.queuePolicies entry.2 := by
        by_contra hkeeps
        exact hnot ((hmap entry).mpr ⟨hbefore, hkeeps⟩)
      generalize hstatus : Status.success = status at hfrees ⊢
      cases hfrees with
      | countDown hone | checkLast hone => simp [Op.events, hone]
      | defaultEnd => simp [Op.events]
    · exact (hd.resolved entry hentry hbefore).imp (List.mem_append_left _)
        (List.mem_append_left _)
  · obtain ⟨hbefore, hkeeps⟩ := (hmap entry).mp hentry
    rcases exec_mem_log F.addDependencyPolicy thread op s.data hended with hold | hnew
    · exact hd.unresolved entry hbefore hpolicy hold
    · refine hkeeps ⟨?_, hpolicy⟩
      generalize hstatus : Status.success = status at hnew ⊢
      cases hnew
      exact .defaultEnd
  · have hbefore := ((hmap _).mp hentry).1
    rcases (hs.exec_isAssigned_iff hstack hfree dependent).mp hassigned with hold | ⟨hcan, -⟩
    · exact hd.accepted dependent dependee hdepends hold hbefore
    · have hpolicy : some none ∈ s.data.queuePolicies dependent :=
        (hk.own dependent none).mpr hdepends.1
      exact notMem_of_canBeExecuted hpolicy hcan hbefore
  · rcases hs.exec_cleanedUp hstack hcleaned with hold | ⟨hkind, hopened⟩
    · obtain ⟨hkind, hopened⟩ := hd.cleaned job hold
      exact ⟨hkind, hs.exec_opened hstack hfree hopened⟩
    · exact ⟨hkind, hs.exec_opened hstack hfree hopened⟩

end State.Depending

variable [DecidableEq T]
  {ok : State J (Option P) T (Dependencies J × σ) → Act J T → Prop}

theorem runs_depending (run : Runs F.addDependencyPolicy ok start s) : s.Depending F start := by
  induction run with
  | refl =>
      refine ⟨fun _ => id, fun entry hentry hnot => absurd hentry hnot, fun _ _ _ => ?_,
        fun _ _ _ hassigned => ?_, fun _ hcleaned => ?_⟩
      · exact List.not_mem_nil
      · cases hassigned
      · exact absurd hcleaned List.not_mem_nil
  | @tail mid last act run _ hstep ih =>
      refine step_rule ih ?_ ?_ ?_ hstep
      · intro thread _ hran
        obtain ⟨op, rest, hstack, hfree, rfl⟩ := State.runThread_eq_some hran
        exact ih.exec (runs_sound run) (runs_paired run).1 hstack hfree
      · intro caller jobs _ hjobs
        refine ⟨ih.declared, ih.resolved, ih.unresolved,
          fun dependent dependee hdepends hassigned => ?_, ih.cleaned⟩
        refine ih.accepted dependent dependee hdepends ?_
        by_cases hmem : dependent ∈ jobs
        · simp [State.takeUp, hmem, Place.isAssigned, Place.isStarted] at hassigned
        · simpa [State.takeUp, hmem] using hassigned
      · intro before caller hbefore hbegin
        obtain ⟨-, rfl⟩ := State.beginCall_eq_some hbegin
        exact ⟨hbefore.declared, hbefore.resolved, hbefore.unresolved, hbefore.accepted,
          hbefore.cleaned⟩

end Map

/-! ## What is nested in the two -/

/-- What begins below a job that depends on another one begins after that one has been cleaned up
or has ended with success, and after everything below it has ended; and what begins below the
other one begins before everything below the job that depends on it. -/
def AfterDependees (F : Forest J P σ) (start : Weaver.Start J (Option P) (Dependencies J × σ))
    (before : List (Event J T)) : Event J T → Prop
  | .started job => ∀ dependent dependee, Depends start dependent dependee →
      (F.Under dependent job →
        (if F.kind dependee = .plain then .ended dependee .success ∈ before
          else .cleanedUp dependee ∈ before) ∧
        ∀ inner, F.Under dependee inner → inner ≠ dependee → NotRunning before inner) ∧
      (F.Under dependee job → ∀ inner, F.Under dependent inner → .started inner ∉ before)
  | _ => True

section Nests

variable {F : Forest J P σ} {start : Weaver.Start J (Option P) (Dependencies J × σ)}
  {s : State J (Option P) T (Dependencies J × σ)} {thread : Thread T} {op : Op J}
  {rest : List (Op J)} {event : Event J T} {job dependent dependee inner : J}

theorem State.Depending.released (hd : s.Depending F start)
    (hreleased : s.data.books.Released F.addDependencyPolicy)
    (hrecorded : s.data.books.Recorded) (hdepends : Depends start dependent dependee)
    (hassigned : (s.data.place dependent).isAssigned = true) :
    if F.kind dependee = .plain then .ended dependee .success ∈ s.data.log
      else .cleanedUp dependee ∈ s.data.log := by
  have hgone := hd.accepted dependent dependee hdepends hassigned
  split
  · rename_i hplain
    refine (hd.resolved _ hdepends.2 hgone).resolve_left fun hcleaned => ?_
    exact (hd.cleaned dependee hcleaned).1 hplain
  · rename_i hkind
    rcases hd.resolved _ hdepends.2 hgone with hcleaned | hended
    · exact hcleaned
    · have hplace : (s.data.books.place dependee).isEnded = true :=
        hrecorded.isEnded_iff.mpr ⟨_, hended⟩
      exact hreleased.isOver dependee hkind (Place.isOver_of_isEnded hplace)

theorem State.Depending.ended_of_released (hd : s.Depending F start)
    (hs : s.Sound F.addDependencyPolicy)
    (hreleased : s.data.books.Released F.addDependencyPolicy)
    (hrecorded : s.data.books.Recorded)
    (hgone : if F.kind dependee = .plain then .ended dependee .success ∈ s.data.log
      else .cleanedUp dependee ∈ s.data.log) (hunder : F.Under dependee inner)
    (hassigned : (s.data.place inner).isAssigned = true) :
    (s.data.place inner).isStarted = true ∧
      (inner ≠ dependee → (s.data.place inner).isEnded = true) := by
  rcases Relation.ReflTransGen.cases_head hunder with rfl | ⟨element, hparent, hinner⟩
  · refine ⟨?_, fun hne => absurd rfl hne⟩
    split at hgone
    · have hended : (s.data.place dependee).isEnded = true :=
        hrecorded.isEnded_iff.mpr ⟨_, hgone⟩
      exact Place.isStarted_of_isEnded hended
    · exact Place.isStarted_of_isLate (hs.books.late dependee (hd.cleaned dependee hgone).2)
  · -- the collection has been cleaned up, so its elements are past
    rw [if_neg (Books.Lawful.kind_ne_plain hparent)] at hgone
    have hpast := hreleased.past dependee hgone element hparent
    have helement := hs.assigned_of_under hinner hassigned
    have hended : (s.data.place element).isEnded = true := by
      simp only [Data.books] at hpast
      cases hplace : s.data.place element with
      | held stage thread =>
          cases stage <;>
            simp_all [Place.isPast, Place.isAssigned, Place.isStarted, Place.isEnded]
      | _ => simp_all [Place.isPast, Place.isAssigned, Place.isStarted, Place.isEnded]
    have hall := hs.ended_of_under hinner hended hassigned
    exact ⟨Place.isStarted_of_isEnded hall, fun _ => hall⟩

variable [DecidableEq P] [DecidableEq T]

theorem afterDependees_of_records
    (run : Runs F.addDependencyPolicy (NotReleasedEarly F.addDependencyPolicy) start s)
    (hstack : s.stack thread = op :: rest)
    (hrecords : Records F.addDependencyPolicy s.data thread op event) :
    AfterDependees F start s.data.log event := by
  have hs := runs_sound run
  have hd := runs_depending run
  have hreleased := runs_released run
  have hrecorded := runs_recorded run
  cases hrecords with
  | @started job =>
      intro dependent dependee hdepends
      have hplace : s.data.place job = .held .assigned thread :=
        hs.place_eq (hstack ▸ List.mem_cons_self) List.mem_cons_self
      have hassigned : (s.data.place job).isAssigned = true := by
        rw [hplace]
        rfl
      refine ⟨fun hunder => ?_, fun hunder inner hinner hstarted => ?_⟩
      · have hgone := hd.released hreleased hrecorded hdepends
          (hs.assigned_of_under hunder hassigned)
        refine ⟨hgone, fun inner hinner hne => (runs_notRunning_iff run).mpr fun hstarted => ?_⟩
        exact (hd.ended_of_released hs hreleased hrecorded hgone hinner
          (Place.isAssigned_of_isStarted hstarted)).2 hne
      · -- the dependee has been released, so nothing below it can begin any more
        have hbegun := Place.isAssigned_of_isStarted ((runs_started run).mp hstarted)
        have hgone := hd.released hreleased hrecorded hdepends (hs.assigned_of_under hinner hbegun)
        have hjob := (hd.ended_of_released hs hreleased hrecorded hgone hunder hassigned).1
        rw [hplace] at hjob
        cases hjob
  | _ => trivial

/-- **A dependency orders everything that is nested in the two jobs**, in every run in which no
collection is released early: what is below the dependee is executed before what is below the job
that depends on it. -/
theorem dependencies_order_nests
    (run : Runs F.addDependencyPolicy (NotReleasedEarly F.addDependencyPolicy) start s) :
    Ordered (AfterDependees F start) s.data.log :=
  runs_ordered run fun _ _ _ _ _ run hstack hrecords =>
    afterDependees_of_records run hstack hrecords

end Nests

/-! ## Dependees that fail -/

section Success

/-- A Sequence that stops itself keeps the status that it restores afterwards. -/
def State.Restoring (s : State J P T σ) : Prop :=
  ∀ thread collection job status, .restoreStatus collection job status ∈ s.stack thread →
    s.data.status collection = status

variable [DecidableEq P] [DecidableEq T] {F : Forest J P σ} {start : Weaver.Start J P σ}
  {s : State J P T σ} {thread : Thread T} {op : Op J} {rest : List (Op J)}
  {collection job : J} {status : Status}

namespace State.Restoring

omit [DecidableEq P] [DecidableEq T] in
/-- Cleaning up a Sequence that stops itself leaves its status, which is not success. -/
theorem finalStatus_eq (hr : s.Restoring) (hc : s.Calm F start) (hf : s.Finishing F)
    (habort : s.data.shouldAbort collection = false)
    (hop : .restoreStatus collection job status ∈ s.stack thread) :
    s.data.finalStatus collection = s.data.status collection ∧
      s.data.status collection ≠ .success := by
  obtain ⟨-, hparent, hstatus, hshort⟩ := hc.reporting.restores thread collection job status hop
  have hplace : s.data.place job = .held .reporting thread := by
    rcases hc.sound.of_completing hop (fun _ => Iff.rfl) rfl with ⟨rfl, -⟩ | ⟨-, -, hplace⟩
    · exact absurd hparent (fun h => F.ne_of_parent h rfl)
    · exact hplace
  have hcarried := hr thread collection job status hop
  have hfinished : 3 < status.toNat := by
    rw [← hstatus]
    exact Status.isFinished_iff.mp (hf.status job (by rw [hplace]; rfl))
  have hdone : ¬ status.toNat < Status.success.toNat := by
    change ¬ status.toNat < 4
    omega
  rw [hcarried]
  refine ⟨?_, hshort⟩
  simp only [Data.finalStatus, habort, hcarried, Bool.false_eq_true, if_false, if_neg hdone]

theorem exec (hr : s.Restoring) (hc : s.Calm F start) (hf : s.Finishing F)
    (habort : ∀ collection, s.data.shouldAbort collection = false)
    (hstack : s.stack thread = op :: rest) :
    State.Restoring ⟨(Collection.exec F thread op s.data).1,
      Function.update s.stack thread ((Collection.exec F thread op s.data).2 ++ rest)⟩ := by
  intro other collection job status hmem
  have hs := hc.sound
  have hop : op ∈ s.stack thread := by
    rw [hstack]
    exact List.mem_cons_self
  rcases State.mem_exec hstack hmem with ⟨rfl, hcalls⟩ | ⟨hold, hbelow⟩
  · generalize hrestore : Op.restoreStatus collection job status = later at hcalls
    cases hcalls with
    | restoreStatus hkind hstatus =>
        obtain ⟨rfl, rfl, rfl⟩ := Op.restoreStatus.inj hrestore
        simp [Collection.exec, hkind, hstatus, Data.setStatus, Data.unlock]
    | _ => cases hrestore
  · dsimp only
    have hcarried := hr other collection job status hold
    rcases exec_status F thread op s.data collection with hsame | hsets
    · exact hsame.trans hcarried
    have hlate := hs.late_of_completing hold (fun _ => Iff.rfl) rfl
    obtain ⟨hkind, hparent, -⟩ := hc.reporting.restores other collection job status hold
    have ht := hc.inTurn collection hkind
    obtain ⟨-, -, hplace⟩ := (hs.of_completing hold (fun _ => Iff.rfl) rfl).resolve_left
      fun h => F.ne_of_parent hparent h.1
    -- nothing else of the Sequence is completed at the same time
    have hother : ∀ {head : J}, op.completes? = some (collection, head) → False := by
      intro head hcompletes
      have hturn := (ht.completing thread op head hop hcompletes).trans
        (ht.completing other _ job hold rfl).symm
      obtain ⟨hconcerns, stage, hjobs⟩ := hs.of_completes hop hcompletes
      obtain rfl := F.turn_inj hconcerns (.inr hparent) hturn
      have howes : (head, Stage.reporting) ∈ (Op.restoreStatus collection head status).jobs := by
        simp [Op.jobs, F.ne_of_parent hparent]
      obtain ⟨rfl, -⟩ := hs.jobs.thread_unique hop hjobs hold howes
      have heq := hs.jobs.op_unique hop hjobs hold howes
      exact hs.notMem_rest hstack hjobs (heq ▸ hbelow rfl)
    generalize (Collection.exec F thread op s.data).1.status collection = after at hsets ⊢
    cases hsets with
    | enqueueJob | setRunning | run =>
        rw [hs.place_eq hop List.mem_cons_self] at hlate
        cases hlate
    | setStatus =>
        rw [(hs.of_setStatus hop).2] at hlate
        cases hlate
    | update | restore => exact (hother rfl).elim
    | @countDown _ head hone =>
        have hcounting := ht.counting thread head hop
        have hcompleting := ht.completing other _ job hold rfl
        exfalso
        rcases hs.of_completing hop (fun _ => Iff.rfl) rfl with
          ⟨rfl, -, hclosing⟩ | ⟨hhead, -, hreporting⟩
        · have htwo := hs.books.two_le_of_closing hclosing hparent
            (by simp [Data.books, hplace]) (by simp [Data.books, hplace, Place.isCounted])
          simp only [Data.books] at htwo
          omega
        · have htwo := hs.two_le_counter hold hhead (fun heq => by rw [heq] at hcounting; omega)
            (by simp [hreporting]) (by simp [hreporting, Place.isCounted])
          omega
    | checkLast =>
        exact (hr.finalStatus_eq hc hf (habort collection) hold).1.trans hcarried
    | takeAt =>
        rcases (hs.of_takeAt hop).2 with htaken | htaken <;>
        · rw [htaken] at hlate
          cases hlate

end State.Restoring

theorem runs_restoring (run : Runs F Undisturbed start s) : s.Restoring := by
  induction run with
  | refl =>
      intro thread collection job status hop
      cases thread <;> simp [init] at hop
  | @tail mid last act run _ hstep ih =>
      have habort := (Outside.runs_called (run.mono Outside.nobody_allows)).2
      refine step_rule ih ?_ (fun _ _ _ _ => ih) ?_ hstep
      · intro thread _ hran
        obtain ⟨op, rest, hstack, -, rfl⟩ := State.runThread_eq_some hran
        exact ih.exec (runs_calm run) (runs_finishing run)
          (fun collection => Bool.eq_false_of_not_eq_true (habort collection)) hstack
      · intro before caller hbefore hbegin thread collection job status hop
        obtain ⟨-, rfl⟩ := State.beginCall_eq_some hbegin
        dsimp only at hop ⊢
        by_cases heq : thread = .caller caller
        · rw [heq, Function.update_self] at hop
          cases act <;> simp [Act.ops] at hop
        · rw [Function.update_of_ne heq] at hop
          exact hbefore thread collection job status hop

omit [DecidableEq P] [DecidableEq T] in
/-- A Sequence that is cleaned up by `dequeueElements` stops itself. -/
theorem State.Calm.restores_of_checkLast (hc : s.Calm F start)
    (hstack : s.stack thread = .checkLast collection :: rest)
    (hone : s.data.jobCounter collection = 1) :
    ∃ job status, .restoreStatus collection job status ∈ s.stack thread := by
  have hcalled := hc.called thread
  rw [hstack] at hcalled
  rcases hcalled.1.resolve_left id with htakeAt | ⟨job, status, below, hbelow⟩
  · -- it has been executed, so it is not being taken out of the queue
    have hopened : s.data.opened collection = true := by
      by_contra hnot
      have hcounter := hc.sound.books.unopened collection (Bool.eq_false_of_not_eq_true hnot)
      simp only [Data.books] at hcounter
      omega
    have hlate := hc.sound.books.late collection hopened
    simp only [Data.books] at hlate
    rcases (hc.sound.of_takeAt (hstack ▸ List.mem_cons_of_mem _ htakeAt)).2 with htaken | htaken <;>
    · rw [htaken] at hlate
      cases hlate
  · refine ⟨job, status, ?_⟩
    rw [hstack, hbelow]
    simp

/-- In a run that nobody disturbs no collection is released early. -/
theorem runs_notReleasedEarly (run : Runs F Undisturbed start s) :
    Runs F (NotReleasedEarly F) start s := by
  refine run.mono_of_run fun mid act last before _ _ op hop => ?_
  cases act with
  | run thread =>
      obtain ⟨rest, hstack⟩ := List.head?_eq_some_iff.mp hop
      refine Bool.eq_false_of_not_eq_true fun hearly => ?_
      cases op with
      | checkLast collection =>
          obtain ⟨hone, hrestores, -⟩ := of_decide_eq_true hearly
          obtain ⟨job, status, hrestore⟩ := (runs_calm before).restores_of_checkLast hstack hone
          have hnot := hrestores _ hrestore
          simp [Op.restores] at hnot
      | _ => cases hearly
  | enqueue | stop | requestAbort | finish => cases hop

omit [DecidableEq T] in
theorem State.Restoring.of_frees (hr : s.Restoring) (hc : s.Calm F start) (hf : s.Finishing F)
    (habort : ∀ collection, s.data.shouldAbort collection = false)
    (hstack : s.stack thread = op :: rest) (hfrees : Frees s.data op job .success) :
    ((Collection.exec F thread op s.data).1.place job).isOver = true ∧
      (Collection.exec F thread op s.data).1.status job = .success := by
  generalize hstatus : Status.success = status at hfrees ⊢
  cases hfrees with
  | @countDown _ other hone =>
      rw [exec_countDown_last hone]
      constructor
      · simp [Data.unlock, Data.moveTo, Place.isOver]
      · have hfinal : (s.data.count job other).finalStatus job = s.data.finalStatus job := rfl
        simp [Data.unlock, Data.moveTo, Data.finalCleanup, Data.record,
          Data.freeQueuePolicyResources, Data.recordCalls, Data.setStatus, hfinal]
  | checkLast hone =>
      obtain ⟨completed, carried, hop⟩ := hc.restores_of_checkLast hstack hone
      obtain ⟨hfinal, hshort⟩ := hr.finalStatus_eq hc hf (habort job) hop
      exact absurd (hfinal.symm.trans hstatus.symm) hshort
  | defaultEnd =>
      simp only [Collection.exec]
      cases F.parent job <;>
        simp [Data.moveTo, Data.freeQueuePolicyResources, Data.recordCalls, Data.record,
          Place.isOver]

end Success

section Failed

variable [DecidableEq P] [DecidableEq T] {F : Forest J P σ}
  {start : Weaver.Start J (Option P) (Dependencies J × σ)}
  {s : State J (Option P) T (Dependencies J × σ)} {entry : J × J} {job failed : J}
  {status : Status}

theorem runs_fulfilled (run : Runs F.addDependencyPolicy Undisturbed start s)
    (hentry : entry ∈ start.policyState.1) (hgone : entry ∉ s.data.policyState.1) :
    (s.data.place entry.2).isOver = true ∧ s.data.status entry.2 = .success := by
  induction run with
  | refl => exact absurd hentry hgone
  | @tail mid last act run _ hstep ih =>
      have hs := runs_sound run
      have habort := (Outside.runs_called (run.mono Outside.nobody_allows)).2
      revert hgone
      refine step_rule (I := fun next => entry ∉ next.data.policyState.1 →
        (next.data.place entry.2).isOver = true ∧ next.data.status entry.2 = .success) ih ?_ ?_ ?_
        hstep
      · intro thread _ hran hgone
        obtain ⟨op, rest, hstack, hfree, rfl⟩ := State.runThread_eq_some hran
        by_cases hbefore : entry ∈ mid.data.policyState.1
        · have hfrees : Frees mid.data op entry.2 .success := by
            by_contra hkeeps
            exact hgone ((exec_mem_dependencies (runs_paired run).1).mpr
              ⟨hbefore, fun h => hkeeps h.1⟩)
          exact (runs_restoring run).of_frees (runs_calm run) (runs_finishing run)
            (fun collection => Bool.eq_false_of_not_eq_true (habort collection)) hstack hfrees
        · obtain ⟨hover, hstatus⟩ := ih hbefore
          refine ⟨?_, (hs.exec_status_of_over hstack hover).trans hstatus⟩
          rcases hs.exec_place hstack hfree entry.2 with hsame | hmoves
          · exact hsame ▸ hover
          · exact hmoves.isOver hover
      · intro caller jobs _ hjobs hgone
        obtain ⟨hover, hstatus⟩ := ih hgone
        have hmem : entry.2 ∉ jobs := by
          intro hmem
          rw [(hjobs entry.2 hmem).2] at hover
          cases hover
        simpa [State.takeUp, hmem] using ⟨hover, hstatus⟩
      · intro before caller hbefore hbegin
        obtain ⟨-, rfl⟩ := State.beginCall_eq_some hbegin
        exact hbefore

/-- The job, or a collection around it, depends on another one. -/
def Needs (F : Forest J P σ) (start : Weaver.Start J (Option P) (Dependencies J × σ))
    (job dependee : J) : Prop :=
  ∃ dependent, F.Under dependent job ∧ Depends start dependent dependee

omit [DecidableEq J] [DecidableEq P] [DecidableEq T] in
theorem Place.isStarted_of_isOver {place : Place T} (h : place.isOver = true) :
    place.isStarted = true := by
  cases place with
  | held stage thread => cases stage <;> first | rfl | cases h
  | reported => rfl
  | _ => cases h

theorem runs_needs (run : Runs F.addDependencyPolicy Undisturbed start s) {dependee : J}
    (hneeds : Needs F start job dependee) (hstarted : .started job ∈ s.data.log) :
    (s.data.place dependee).isOver = true ∧ s.data.status dependee = .success := by
  obtain ⟨dependent, hunder, hdepends⟩ := hneeds
  have hbegun := Place.isAssigned_of_isStarted ((runs_started run).mp hstarted)
  have hassigned := (runs_sound run).assigned_of_under hunder hbegun
  exact runs_fulfilled run hdepends.2
    ((runs_depending run).accepted dependent dependee hdepends hassigned)

/-- **A job that fails holds up whatever needs it**, directly or through others, in runs that nobody
disturbs: the dependents of the job, the dependents of these and everything nested in them never
begin. -/
theorem failed_dependees_block (run : Runs F.addDependencyPolicy Undisturbed start s)
    (hended : .ended failed status ∈ s.data.log) (hshort : status ≠ .success)
    (hneeds : Relation.TransGen (Needs F start) job failed) : .started job ∉ s.data.log := by
  induction hneeds using Relation.TransGen.head_induction_on with
  | single hneeds =>
      intro hstarted
      have hsuccess := (runs_needs run hneeds hstarted).2
      exact hshort (((runs_ended run).mp hended).2.symm.trans hsuccess)
  | head hneeds _ ih =>
      intro hstarted
      have hover := (runs_needs run hneeds hstarted).1
      exact ih ((runs_started run).mpr (Place.isStarted_of_isOver hover))

end Failed

/-- A Collection of one plain job, which ends with `outcome`, and a Collection of two. -/
def twoCollections (outcome : Outcome) (houtcome : outcome.status.isFinished) :
    Forest (Fin 5) Empty Unit :=
  .numbered ![.collection, .plain, .collection, .plain, .plain]
    ![none, some 0, none, some 2, some 2] (by decide)
    (fun job => if job = 1 then outcome else .returned)
    (fun job => by
      split
      · exact houtcome
      · rfl)
    noPolicies

/-- The second Collection depends on the first one. -/
def secondAfterFirst : Weaver.Start (Fin 5) (Option Empty) (Dependencies (Fin 5) × Unit) where
  queuePolicies := ![[none], [], [none], [], []]
  nodup := by decide
  policyState := ([(2, 0)], ())

/-- The Collections are enqueued together, and an element of the second one begins after the
first one has been cleaned up. -/
theorem dependencies_order_nests_twoCollections :
    ∃ s : State (Fin 5) (Option Empty) Unit (Dependencies (Fin 5) × Unit),
      .started 3 ∈ s.data.log ∧
        Ordered (AfterDependees (twoCollections .returned rfl) secondAfterFirst) s.data.log := by
  obtain ⟨s, run, hstarted, -⟩ :=
    exists_runs (T := Unit) (twoCollections .returned rfl).addDependencyPolicy
      (NotReleasedEarly (twoCollections .returned rfl).addDependencyPolicy) secondAfterFirst
      (fun s => .started 3 ∈ s.data.log)
      (List.flatten [[.enqueue () [2, 0]], List.replicate 4 (.run (.caller ())),
        List.replicate 45 (.run (.worker 0))]) (by decide +kernel)
  exact ⟨s, hstarted, dependencies_order_nests run⟩

/-- The element of the first Collection fails, and the elements of the second one do not begin. -/
theorem failed_dependees_block_twoCollections :
    ∃ s : State (Fin 5) (Option Empty) Unit (Dependencies (Fin 5) × Unit),
      s.data.assignments = [2] ∧ s.data.active = 0 ∧ .ended 0 .failed ∈ s.data.log ∧
        .started 3 ∉ s.data.log := by
  obtain ⟨s, run, ⟨hlist, hactive, hended⟩, -⟩ :=
    exists_runs (T := Unit) (twoCollections .jobFailed rfl).addDependencyPolicy Undisturbed
      secondAfterFirst
      (fun s => s.data.assignments = [2] ∧ s.data.active = 0 ∧ .ended 0 .failed ∈ s.data.log)
      (List.flatten [[.enqueue () [2, 0]], List.replicate 4 (.run (.caller ())),
        List.replicate 40 (.run (.worker 0))]) (by decide +kernel)
  refine ⟨s, hlist, hactive, hended, failed_dependees_block run hended (by decide) ?_⟩
  exact .single ⟨2, .single (by decide), by decide, by decide⟩

end ThreadWeaver.Collection
