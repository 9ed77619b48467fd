import ThreadWeaver.Attempt
import ThreadWeaver.Library.Arrivals
import ThreadWeaver.Weaver.Conservation

/-!
# The order of the list

The list of waiting jobs is sorted by falling priority, and jobs of equal priority stand in
the order in which they were enqueued.  When each of these jobs was enqueued is read off the
log; for a job that was dequeued and enqueued again the last enqueueing counts.

With policies whose release undoes their `canRun`, a refused attempt leaves what no answer
distinguishes from the state before.  So the scan asks every candidate about the same state, and
the job it hands out comes first among all those that could run.
-/

namespace ThreadWeaver.Weaver

open Library (Arrivals Precedes Traffic)

variable {J P T σ ε : Type*}

/-! ## The order -/

/-- An enqueueing brings a job into the list; a dequeueing and an assignment take it out. -/
def traffic : Traffic (Event J P ε) J where
  arrives
    | .enqueued job => some job
    | _ => none
  leaves
    | .dequeued job | .assigned _ job => some job
    | _ => none

/-- The jobs stand in the list by falling priority and, among equals, in the order of their
enqueueings. -/
def Ledger.InOrder (priority : J → ℤ) (l : Ledger J P σ ε) : Prop :=
  Library.InOrder traffic priority l.log l.assignments

section Moves

variable [DecidableEq J] [DecidableEq P] {S : Setup J P σ ε} {D : Discipline J P σ ε}
  {l l' : Ledger J P σ ε}

theorem move_inOrder (h : l.InOrder S.priority) (hmove : Ledger.Move S D l l') :
    l'.InOrder S.priority := by
  have hsilent : Library.InOrder traffic S.priority (l.log ++ []) l.assignments :=
    Library.InOrder.note h (by simp)
  rw [List.append_nil] at hsilent
  cases hmove with
  | note event hnote =>
      refine Library.InOrder.note h fun other hother => ?_
      rw [List.mem_singleton.mp hother]
      cases event <;> first | rfl | cases hnote
  | enqueue job _ => exact Library.InOrder.arrive h rfl
  | takeOut job hmem =>
      obtain ⟨front, back, -, hlist, hrest⟩ := List.exists_erase_eq hmem
      show Library.InOrder traffic S.priority _ (l.assignments.erase job)
      rw [hrest]
      exact Library.InOrder.leave h hlist rfl rfl
  | clear =>
      refine Library.InOrder.leaveAll h ?_ fun job hmem => ?_
      · simp [traffic]
      · exact ⟨.dequeued job, List.mem_map_of_mem hmem, rfl⟩
  | refuse hscan =>
      rw [State.scan_eq_none_rest hscan]
      exact hsilent
  | assign thread _ hscan =>
      obtain ⟨front, back, hlist, rfl⟩ := State.scan_eq_some_split hscan
      exact Library.InOrder.leave h hlist rfl rfl
  | prepare _ | begin _ | run _ | free _ _ | freed _ _ | leave _ => exact hsilent
  | finish _ | configure _ _ => exact Library.InOrder.note h (by simp [traffic])

/-- **The list is in order in every reachable state.** -/
theorem runs_inOrder [DecidableEq T] {ok : State J P T σ ε → Act J P T ε → Prop}
    {start : Start J P σ} {s : State J P T σ ε} (hrun : Runs S ok start s) :
    s.ledger.InOrder S.priority := by
  have hmoves : Ledger.Moves S _ _ _ :=
    runs_moves (fun _ _ _ => Discipline.none_allows _ _) hrun
  have hinit : (init (T := T) S start).ledger.InOrder S.priority := Library.InOrder.nil
  generalize s.ledger = l at hmoves
  induction hmoves with
  | refl => exact hinit
  | tail _ hmove ih => exact move_inOrder ih hmove

end Moves

/-! ### The last enqueueing -/

/-- A job that is in the list has neither been enqueued nor left since its last enqueueing. -/
theorem Ledger.Conserved.last_enqueued [DecidableEq J] {l : Ledger J P σ ε} (h : l.Conserved)
    {job : J} (hmem : job ∈ l.assignments) :
    ∃ last, traffic.ArrivesAt l.log last job ∧ ∀ later > last,
      ¬ traffic.ArrivesAt l.log later job ∧ ¬ traffic.LeavesAt l.log later job := by
  obtain ⟨earlier, event, rest, hlog, hevent, hrest⟩ :=
    exists_of_lastPlace ((h.mem_iff job).mp hmem)
  have hlater : ∀ later > earlier.length, ∀ other, l.log[later]? = some other → other ∈ rest := by
    intro later hlater other hother
    rw [hlog, List.getElem?_append_right hlater.le,
      ← Nat.succ_pred_eq_of_pos (Nat.sub_pos_of_lt hlater), List.getElem?_cons_succ] at hother
    exact List.mem_of_getElem? hother
  refine ⟨earlier.length, ⟨event, by simp [hlog], ?_⟩, fun later hgt => ⟨?_, ?_⟩⟩
  · cases event <;> cases hevent
    rfl
  · rintro ⟨other, hother, harrives⟩
    refine hrest other (hlater later hgt other hother) .listed ?_
    cases other <;> first | cases harrives; rfl | cases harrives
  · rintro ⟨other, hother, hleaves⟩
    cases other with
    | dequeued moved =>
        cases hleaves
        exact hrest _ (hlater later hgt _ hother) .dequeued rfl
    | assigned thread moved =>
        cases hleaves
        exact hrest _ (hlater later hgt _ hother) (.assigned thread) rfl
    | _ => cases hleaves

theorem Ledger.Conserved.not_enqueued_after [DecidableEq J] {priority : J → ℤ}
    {l : Ledger J P σ ε} (h : l.Conserved) {arrivals : List (ℕ × J)}
    (harrivals : Arrivals traffic priority l.log arrivals)
    (hmap : arrivals.map Prod.snd = l.assignments) {arrival : ℕ × J} (hmem : arrival ∈ arrivals)
    {later : ℕ} (hlater : arrival.1 < later) : l.log[later]? ≠ some (.enqueued arrival.2) := by
  intro hagain
  have hlisted : arrival.2 ∈ l.assignments := hmap ▸ List.mem_map_of_mem hmem
  obtain ⟨last, hlast, hnone⟩ := h.last_enqueued hlisted
  obtain rfl := harrivals.eq_of_last (hmap ▸ h.nodup) hmem hlast hnone
  exact (hnone later hlater).1 ⟨_, hagain, rfl⟩

/-! ## The job that is handed out -/

section Assignment

/-- When `takeFirstAvailableJobOrSuspendOrWait` returns a job, the scan has found it, in the
list and with the policies as they were before. -/
theorem scan_of_reply {S : Setup J P σ ε} {thread : ℕ}
    {threadWasBusy suspendIfInactive justReturning : Bool} {s : State J P T σ ε} {job : J}
    (hreply : (s.takeFirstAvailableJobOrSuspendOrWait S thread threadWasBusy suspendIfInactive
      justReturning).1 = .job job) :
    (State.scan S s.queuePolicies s.assignments s.policyState).1 = some job := by
  obtain ⟨hassignments, hqueuePolicies, hpolicyState⟩ := s.ledger_enterTakeFirst threadWasBusy
  rw [← hassignments, ← hqueuePolicies, ← hpolicyState]
  unfold State.takeFirstAvailableJobOrSuspendOrWait at hreply
  dsimp only at hreply
  split at hreply
  · cases hreply
  · split at hreply
    · cases hreply
    · split at hreply
      · cases hreply
      · split at hreply
        · rename_i found hfound
          cases hreply
          exact hfound
        · cases hreply

variable [DecidableEq J] [DecidableEq P] {S : Setup J P σ ε}

omit [DecidableEq P] in
/-- A worker that has just been handed a job got it from the scan. -/
theorem scan_of_workerStep {thread : ℕ} {s next : State J P T σ ε} {job : J}
    (hstep : workerStep S thread s = some next)
    (hassigned : (next.worker thread).pc = .busy job .assigned) :
    (State.scan S s.queuePolicies s.assignments s.policyState).1 = some job := by
  cases hpc : (s.worker thread).pc with
  | dispatched id wasBusy =>
      cases id with
      | workingHard =>
          simp only [workerStep, hpc, Option.ite_none_right_eq_some, Option.some.injEq] at hstep
          rw [← hstep.2, State.workingHardApplyForWork] at hassigned
          split at hassigned
          · rename_i found hreply
            simp only [State.pc_returnTo, WorkerPc.busy.injEq, and_true] at hassigned
            exact scan_of_reply (hassigned ▸ hreply)
          all_goals simp at hassigned
      | suspending =>
          simp only [workerStep, hpc, Option.ite_none_right_eq_some, Option.some.injEq] at hstep
          rw [← hstep.2, State.suspendingApplyForWork] at hassigned
          split at hassigned <;> simp at hassigned
      | suspended | inConstruction | shuttingDown | destructed =>
          simp only [workerStep, hpc, Option.some.injEq] at hstep
          rw [← hstep] at hassigned
          simp at hassigned
  | waitForAvailableJob wasBusy =>
      simp only [workerStep, hpc, Option.some.injEq] at hstep
      rw [← hstep, State.pc_moveTo] at hassigned
      split at hassigned <;> cases hassigned
  | busy held phase =>
      cases phase with
      | freeing index =>
          simp only [workerStep, hpc] at hstep
          split at hstep
          all_goals
            rw [← Option.some.inj hstep, State.pc_moveTo] at hassigned
            cases hassigned
      | assigned | executing | running | ending | returned =>
          simp only [workerStep, hpc, Option.some.injEq] at hstep
          rw [← hstep, State.pc_moveTo] at hassigned
          cases hassigned
  | applyForWork wasBusy =>
      simp only [workerStep, hpc, Option.some.injEq] at hstep
      simp [← hstep] at hassigned
  | started | blockThread wasBusy | woken wasBusy =>
      simp only [workerStep, hpc, Option.some.injEq] at hstep
      rw [← hstep, State.pc_moveTo] at hassigned
      cases hassigned
  | waiting wasBusy | exited => simp [workerStep, hpc] at hstep

/-! ### No policy is twice in a list of policies -/

theorem nodup_applyPolicyOps (ops : List (PolicyOp J P ε)) {policies : (J → List P) × σ}
    (h : ∀ job, (policies.1 job).Nodup) (job : J) :
    ((ops.foldl (State.applyPolicyOp S) policies).1 job).Nodup := by
  induction ops generalizing policies with
  | nil => exact h job
  | cons op rest ih =>
      refine ih fun other => ?_
      cases op with
      | assignQueuePolicy changed policy =>
          simp only [State.applyPolicyOp, Function.update_apply]
          split
          · exact State.nodup_assignQueuePolicy policy (h changed)
          · exact h other
      | removeQueuePolicy changed policy =>
          simp only [State.applyPolicyOp, Function.update_apply]
          split
          · exact State.nodup_removeQueuePolicy policy (h changed)
          · exact h other
      | call call => exact h other

theorem runs_nodup_queuePolicies [DecidableEq T] {ok : State J P T σ ε → Act J P T ε → Prop}
    {start : Start J P σ} {s : State J P T σ ε} (hrun : Runs S ok start s) (job : J) :
    (s.queuePolicies job).Nodup := by
  have hmoves : Ledger.Moves S _ _ _ :=
    runs_moves (fun _ _ _ => Discipline.none_allows _ _) hrun
  suffices h : ∀ job, (s.ledger.queuePolicies job).Nodup from h job
  have hinit : ∀ job, ((init (T := T) S start).ledger.queuePolicies job).Nodup :=
    start.nodup
  generalize s.ledger = l at hmoves
  induction hmoves with
  | refl => exact hinit
  | tail _ hmove ih =>
      cases hmove with
      | configure ops _ => exact nodup_applyPolicyOps ops ih
      | _ => exact ih

/-! ### Priority and age decide -/

end Assignment

section Objects

variable {τ : P → Type*} [DecidableEq P] {S : Setup J P (∀ p, τ p) ε}

/-- All policies of the job accept it. -/
def AllAccept (o : PolicyObjects J τ) (s : State J P T (∀ p, τ p) ε) (job : J) : Prop :=
  ∀ p ∈ s.queuePolicies job, (o.canRun p job (s.policyState p)).1 = true

/-- The job in the list that precedes every other whose policies all accept. -/
def IsNext (o : PolicyObjects J τ) (priority : J → ℤ) (s : State J P T (∀ p, τ p) ε) (job : J) :
    Prop :=
  ∃ arrivals, Arrivals traffic priority s.log arrivals ∧ arrivals.map Prod.snd = s.assignments ∧
    ∃ arrival ∈ arrivals, arrival.2 = job ∧ AllAccept o s job ∧
      ∀ other ∈ arrivals, AllAccept o s other.2 →
        other = arrival ∨ Precedes priority arrival other

/-- With independent policies whose release undoes their `canRun`, the scan finds the first
job that could run. -/
theorem isNext_of_scan {o : PolicyObjects J τ} {R : ∀ p, τ p → τ p → Prop}
    (hundo : o.ReleaseUndoes R) (hpolicies : S.policies = o.policies)
    {s : State J P T (∀ p, τ p) ε} (hnodup : ∀ job, (s.queuePolicies job).Nodup)
    (horder : s.ledger.InOrder S.priority) {job : J}
    (hscan : (State.scan S s.queuePolicies s.assignments s.policyState).1 = some job) :
    IsNext o S.priority s job := by
  have hundone := hundo.undoneUpTo
  rw [← hpolicies] at hundone
  -- what refused attempts have left answers as the state before the scan does
  have haccept : ∀ candidate state, (∀ p, R p (state p) (s.policyState p)) →
      (S.policies.Accepts (s.queuePolicies candidate) candidate state ↔
        AllAccept o s candidate) := by
    intro candidate state hsame
    rw [hundone.accepts candidate _ hsame, hpolicies]
    exact PolicyObjects.accepts (hnodup candidate) s.policyState
  have hkept : State.KeptByRefusals S s.queuePolicies
      fun state => ∀ p, R p (state p) (s.policyState p) :=
    fun _ _ hsame hrefused => hundone.equivalence.trans (hundone.of_refused hrefused) hsame
  obtain ⟨front, back, before, hlist, -, hbefore, haccepts, -, hfront⟩ :=
    State.scan_eq_some hkept (hundone.equivalence.refl s.policyState) (Prod.ext hscan rfl)
  obtain ⟨arrivals, harrivals, hmap⟩ := horder
  have hmap' : arrivals.map Prod.snd = front ++ job :: back := hmap.trans hlist
  obtain ⟨ahead, rest, rfl, hahead, hrest⟩ := List.map_eq_append_iff.mp hmap'
  obtain ⟨arrival, behind, rfl, rfl, -⟩ := List.map_eq_cons_iff.mp hrest
  refine ⟨_, harrivals, hmap, arrival, by simp, rfl, (haccept _ _ hbefore).mp haccepts, ?_⟩
  intro other hother haccepted
  rcases List.mem_append.mp hother with hother | hother
  · -- the scan has refused the jobs before the one it found
    have hmem : other.2 ∈ front := hahead ▸ List.mem_map_of_mem hother
    obtain ⟨state, hsame, hrefused⟩ := hfront other.2 hmem
    exact absurd ((haccept _ state hsame).mpr haccepted) hrefused
  · rcases List.mem_cons.mp hother with rfl | hother
    · exact .inl rfl
    · have hordered := (List.pairwise_append.mp harrivals.ordered).2.1
      exact .inr ((List.pairwise_cons.mp hordered).1 other hother)

end Objects

/-- **Jobs are scheduled by priority and, among equals, first come first served.**  The list
is in order in every reachable state, by the last enqueueing of each job where jobs are enqueued in
`Status_New` only, as `enqueue_p` asserts.  And with independent policies whose release undoes
their `canRun` every assignment hands out the job that precedes all others that could run. -/
theorem priority_fifo [DecidableEq J] [DecidableEq P] [DecidableEq T] :
    (∀ {σ : Type*} (S : Setup J P σ ε) (start : Start J P σ) (s : State J P T σ ε),
      Runs S (fun _ _ => True) start s → s.ledger.InOrder S.priority) ∧
    (∀ {σ : Type*} (S : Setup J P σ ε) (start : Start J P σ) (s : State J P T σ ε),
      Runs S EnqueuesNew start s → ∀ arrivals, Arrivals traffic S.priority s.log arrivals →
        arrivals.map Prod.snd = s.assignments → ∀ arrival ∈ arrivals, ∀ later > arrival.1,
          s.log[later]? ≠ some (.enqueued arrival.2)) ∧
    ∀ {τ : P → Type*} (o : PolicyObjects J τ) (R : ∀ p, τ p → τ p → Prop)
      (S : Setup J P (∀ p, τ p) ε) (start : Start J P (∀ p, τ p))
      (s next : State J P T (∀ p, τ p) ε) (thread : ℕ) (job : J),
      o.ReleaseUndoes R → S.policies = o.policies → Runs S (fun _ _ => True) start s →
      step S s (.worker thread) = some next → (next.worker thread).pc = .busy job .assigned →
      IsNext o S.priority s job := by
  refine ⟨fun S start s hrun => runs_inOrder hrun, ?_, ?_⟩
  · intro σ S start s hrun arrivals harrivals hmap arrival hmem later hlater
    exact (runs_conserved (fun _ _ h => h) hrun).not_enqueued_after harrivals hmap hmem hlater
  · intro τ o R S start s next thread job hundo hpolicies hrun hstep hassigned
    simp only [step, Option.ite_none_right_eq_some] at hstep
    exact isNext_of_scan hundo hpolicies (runs_nodup_queuePolicies hrun) (runs_inOrder hrun)
      (scan_of_workerStep hstep.2 hassigned)

/-! ### A run in which blocked jobs stand first -/

/-- Jobs with the policies of this library, one restriction among them; those from 2 on go
first. -/
def restricted : Setup ℕ (PolicyObject Unit Empty) ((p : PolicyObject Unit Empty) → p.State ℕ)
    Empty where
  priority job := if 2 ≤ job then 1 else 0
  outcome _ := .returned
  outcome_isFinished := numbered.outcome_isFinished
  policies := (policyObjects ℕ Unit Empty).policies
  call _ state := state
  idealThreadCount := 1
  aboutToBeDequeued _ := []
  hookRank _ := 0
  hookRank_lt := numbered.hookRank_lt

/-- No dependencies, and room for one customer. -/
def oneCustomer : (p : PolicyObject Unit Empty) → p.State ℕ
  | .dependency => ([] : List (ℕ × ℕ))
  | .restriction _ => ({ cap := 1, customers := [] } : Restriction ℕ)
  | .blocker _ => PUnit.unit

/-- Job 3 has taken the only place of the restriction, so job 2 is blocked.  Jobs 0 and 1 are
enqueued in this order, but job 0 is dequeued and enqueued again, so job 1 is handed out. -/
theorem priority_fifo_blocked :
    ∃ s : State ℕ (PolicyObject Unit Empty) Unit ((p : PolicyObject Unit Empty) → p.State ℕ) Empty,
      s.assignments = [2, 1, 0] ∧ s.ledger.InOrder restricted.priority ∧
        (∀ arrivals, Arrivals traffic restricted.priority s.log arrivals →
          arrivals.map Prod.snd = s.assignments → ∀ arrival ∈ arrivals, ∀ later > arrival.1,
            s.log[later]? ≠ some (.enqueued arrival.2)) ∧
        IsNext (policyObjects ℕ Unit Empty) restricted.priority s 1 := by
  obtain ⟨s, hrun, hlist, hgoal⟩ :
      ∃ s : State ℕ (PolicyObject Unit Empty) Unit ((p : PolicyObject Unit Empty) → p.State ℕ)
        Empty, Runs restricted EnqueuesNew (.plain oneCustomer) s ∧ _ :=
    Library.exists_runWhere
      (fun s => s.assignments = [2, 1, 0] ∧ (step restricted s (.worker 1)).any
        fun next => decide ((next.worker 1).pc = .busy 1 .assigned))
      [.configure () [.assignQueuePolicy 3 (.restriction ()), .assignQueuePolicy 2 (.restriction ())],
        .proceed (), .enqueue [some 3], .worker 0, .worker 0, .worker 0,
        .enqueue [some 0, some 1, some 2], .dequeue 0, .enqueue [some 0], .worker 1, .worker 1]
      (by decide)
  obtain ⟨next, hstep, hassigned⟩ : ∃ next, step restricted s (.worker 1) = some next ∧
      (next.worker 1).pc = .busy 1 .assigned := by
    simpa [Option.any_eq_true] using hgoal
  have hany := hrun.mono fun _ _ _ => trivial
  obtain ⟨horder, hlast, hnext⟩ := priority_fifo.{0, 0, 0, 0, 0, 0, 0} (J := ℕ)
    (P := PolicyObject Unit Empty) (T := Unit) (ε := Empty)
  exact ⟨s, hlist, horder restricted _ s hany, hlast restricted _ s hrun,
    hnext (policyObjects ℕ Unit Empty) _ restricted _ s next 1 1 policyObjects_releaseUndoes rfl hany
      hstep hassigned⟩

end ThreadWeaver.Weaver
