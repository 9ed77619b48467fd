import ThreadWeaver.Collection.Inversion

/-!
# Pairing

The queue policies of a job are asked by `canBeExecuted`, and given back by its rollback, by
`defaultEnd`, and for a collection by `finalCleanup` as well.  A plain job gives back what it
has acquired exactly once.  A collection that has policies of its own frees each of them in
`finalCleanup` and once more in `defaultEnd`.

`policy_pairing` says that the calls for a job pair if the job is plain or has no policies of
its own, and that for a job that has ended they do so only then.
-/

namespace ThreadWeaver.Collection

open QueuePolicies (outstanding outstanding_append)
open Weaver.State (assignQueuePolicy removeQueuePolicy)

variable {J P T σ : Type*} [DecidableEq J]

/-- The policies of a job are those that the program has given it and, until the job is
handed to a worker, the blocker. -/
structure State.PoliciesKept (start : Weaver.Start J P σ) (s : State J P T σ) : Prop where
  nodup : ∀ job, (s.data.queuePolicies job).Nodup
  own : ∀ job policy, some policy ∈ s.data.queuePolicies job ↔ policy ∈ start.queuePolicies job
  unblocked : ∀ job, (s.data.place job).isAssigned = true → none ∉ s.data.queuePolicies job

omit [DecidableEq J] in
theorem Data.notMem_of_canBeExecuted {F : Forest J P σ} {d : Data J P T σ} {job : J}
    (hcan : d.canBeExecuted F job = true) : none ∉ d.queuePolicies job := by
  intro hmem
  obtain ⟨asked, -, hcanRun⟩ :=
    QueuePolicies.canRun_of_accepts (I := fun _ => True) (fun _ _ => id) trivial hcan hmem
  cases hcanRun

theorem State.Sound.of_assignBlocker {F : Forest J P σ} {s : State J P T σ} {thread : Thread T}
    {element : J} (hs : s.Sound F) (hop : .assignBlocker element ∈ s.stack thread) :
    s.data.place element = .held .pending thread := by
  obtain ⟨ops, rest, hsplit, jobs, hmem, helement⟩ := hs.fits hop
  have henqueue : .enqueue jobs ∈ s.stack thread := by
    rw [hsplit]
    exact List.mem_append_right _ (List.mem_cons_of_mem _ hmem)
  exact hs.place_eq henqueue (List.mem_map.mpr ⟨element, helement, rfl⟩)

section Step

variable [DecidableEq P] {F : Forest J P σ} {start : Weaver.Start J P σ}
  {s next : State J P T σ} {thread : Thread T} {op : Op J} {rest : List (Op J)} {job : J}

theorem State.PoliciesKept.exec (hk : s.PoliciesKept start) (hs : s.Sound F)
    (hstack : s.stack thread = op :: rest)
    (hfree : ∀ mutex, wants F op = some mutex → s.data.holder mutex = none)
    {stack : Thread T → List (Op J)} :
    State.PoliciesKept start ⟨(exec F thread op s.data).1, stack⟩ := by
  have hop : op ∈ s.stack thread := by
    rw [hstack]
    exact List.mem_cons_self
  refine ⟨fun job => ?_, fun job policy => ?_, fun job hassigned => ?_⟩
  · dsimp only
    rcases exec_queuePolicies F thread op s.data job with hsame | ⟨-, hnew⟩ | ⟨-, hnew⟩
    · rw [hsame]
      exact hk.nodup job
    · rw [hnew]
      exact Weaver.State.nodup_assignQueuePolicy none (hk.nodup job)
    · rw [hnew]
      exact Weaver.State.nodup_removeQueuePolicy none (hk.nodup job)
  · dsimp only
    rw [← hk.own job policy]
    rcases exec_queuePolicies F thread op s.data job with hsame | ⟨-, hnew⟩ | ⟨-, hnew⟩
    · rw [hsame]
    · rw [hnew, Weaver.State.mem_assignQueuePolicy]
      simp
    · rw [hnew]
      exact Weaver.State.mem_removeQueuePolicy_of_ne (by simp)
  · have hbefore : none ∉ s.data.queuePolicies job := by
      rcases hs.exec_isAssigned hstack hfree hassigned with hbefore | ⟨-, hcan, -⟩
      · exact hk.unblocked job hbefore
      · exact Data.notMem_of_canBeExecuted hcan
    dsimp only at hassigned ⊢
    rcases exec_queuePolicies F thread op s.data job with hsame | ⟨rfl, -⟩ | ⟨-, hnew⟩
    · rwa [hsame]
    · -- a job that is blocked has not been handed to a worker, and is not by this operation
      have hsame : (Collection.exec F thread (.assignBlocker job) s.data).1.place job =
          s.data.place job := rfl
      rw [hsame, hs.of_assignBlocker hop] at hassigned
      cases hassigned
    · rw [hnew]
      exact fun hmem => hbefore (Weaver.State.mem_of_mem_removeQueuePolicy hmem)

/-- What the calls for a job amount to.  A plain job has one acceptance outstanding from its
assignment to its end; a collection without policies of its own never has one; one with
policies of its own has none when its end begins, and frees them again. -/
structure State.Paired (F : Forest J P σ) (start : Weaver.Start J P σ) (s : State J P T σ) :
    Prop where
  plain : ∀ job policy, F.kind job = .plain → outstanding policy false (s.data.calls job) =
    some (decide (policy ∈ s.data.queuePolicies job) && (s.data.place job).isAssigned &&
      !(s.data.place job).isEnded)
  bare : ∀ collection policy, F.kind collection ≠ .plain →
    start.queuePolicies collection = [] →
      outstanding policy false (s.data.calls collection) = some false
  isOver : ∀ collection policy, F.kind collection ≠ .plain →
    policy ∈ start.queuePolicies collection → (s.data.place collection).isOver = true →
      outstanding (some policy) false (s.data.calls collection) ≠ some true
  twice : ∀ collection policy, F.kind collection ≠ .plain →
    policy ∈ start.queuePolicies collection → (s.data.place collection).isEnded = true →
      outstanding (some policy) false (s.data.calls collection) = none

omit [DecidableEq P] in
/-- A job is freed when its end runs, and a collection before that, when it has been handed
to a worker and its end has not begun. -/
theorem State.Sound.of_frees (hs : s.Sound F) (hstack : s.stack thread = op :: rest)
    {status : Status} (hfrees : Frees s.data op job status) :
    op = .defaultEnd job ∧ s.data.place job = .held .ending thread ∨
      F.kind job ≠ .plain ∧ (s.data.place job).isAssigned = true ∧
        (s.data.place job).isOver = false := by
  have hop : op ∈ s.stack thread := by
    rw [hstack]
    exact List.mem_cons_self
  cases hfrees with
  | @countDown collection other hone =>
      right
      rcases hs.of_completing hop (fun _ => Iff.rfl) rfl with
        ⟨rfl, hkind, hplace⟩ | ⟨hparent, -, hplace⟩
      · rw [hplace]
        exact ⟨hkind, rfl, rfl⟩
      · have hwaiting : s.data.place job = .waiting :=
          hs.books.waiting_of_last hparent (by simp [Data.books, hplace, Place.isCounted])
            (by simp [Data.books, hplace]) hone
        rw [hwaiting]
        exact ⟨Books.Lawful.kind_ne_plain hparent, rfl, rfl⟩
  | checkLast hone =>
      right
      obtain ⟨-, -, -, hkind, -⟩ := hs.fits hop
      have hopened : s.data.books.opened job = true := by
        by_contra hnot
        have hle := hs.books.unopened job (by simpa using hnot)
        simp only [Data.books] at hle
        omega
      have hlate := hs.books.late job hopened
      have hover : (s.data.place job).isOver = false := by
        by_contra hyes
        have hzero := (hs.books.isOver job hkind ((Bool.not_eq_false _).mp hyes)).2
        simp only [Data.books] at hzero
        omega
      refine ⟨hkind, ?_, hover⟩
      exact Place.isAssigned_of_isStarted (Place.isStarted_of_isLate hlate)
  | defaultEnd => exact .inl ⟨rfl, hs.place_eq hop List.mem_cons_self⟩

/-- What an operation means for the calls of policies for a job: nothing, an attempt to
execute it, or a free. -/
theorem State.Sound.exec_calls (hs : s.Sound F) (hstack : s.stack thread = op :: rest)
    (hfree : ∀ mutex, wants F op = some mutex → s.data.holder mutex = none) (job : J) :
    let after := (exec F thread op s.data).1
    (after.calls job = s.data.calls job ∧
      (after.place job).isAssigned = (s.data.place job).isAssigned ∧
      (after.place job).isEnded = (s.data.place job).isEnded ∧
      (F.kind job ≠ .plain → (after.place job).isOver = true →
        (s.data.place job).isOver = true)) ∨
    (s.data.place job = .queued ∧
      after.calls job = s.data.calls job ++
        (withBlocker F.policies).calls job (s.data.queuePolicies job) s.data.policyState ∧
      after.queuePolicies job = s.data.queuePolicies job ∧
      (after.place job).isAssigned = s.data.canBeExecuted F job ∧
      (after.place job).isOver = false) ∨
    (after.calls job = s.data.calls job ++ (s.data.queuePolicies job).map .free ∧
      (s.data.place job).isAssigned = true ∧
      ((s.data.place job).isEnded = false ∧ (after.place job).isEnded = true ∧
          (s.data.place job).isOver = true ∨
        F.kind job ≠ .plain ∧ (after.place job).isEnded = false)) := by
  intro after
  have hop : op ∈ s.stack thread := by
    rw [hstack]
    exact List.mem_cons_self
  have hmoved := hs.exec_place hstack hfree job
  rcases exec_policies F thread op s.data with
    ⟨-, hsame, hask, hfrees⟩ | ⟨head, candidates, rfl, -, hasked⟩ | ⟨head, status, hfrees, -, hfreed⟩
  · refine .inl ⟨congrFun hsame job, ?_⟩
    rcases hmoved with hplace | hmoves
    · exact ⟨congrArg _ hplace, congrArg _ hplace, fun _ h => hplace ▸ h⟩
    · generalize s.data.place job = before at hmoves ⊢
      generalize after.place job = place at hmoves ⊢
      cases hmoves with
      | assigned => exact absurd rfl (hask _ _)
      | ended | reporting => exact absurd .defaultEnd (hfrees _ _)
      | endingSelf _ hone | endingElement _ hone => exact absurd (.countDown hone) (hfrees _ _)
      | ending hplain => exact ⟨rfl, rfl, fun hkind => absurd hplain hkind⟩
      | _ => exact ⟨rfl, rfl, fun _ => id⟩
  · by_cases heq : job = head
    · subst heq
      have hqueued := hs.queued_of_candidate hstack
      refine .inr (.inl ⟨hqueued, ?_, ?_, ?_⟩)
      · rw [hasked]
        exact Function.update_self _ _ _
      · simp only [after, exec]
        split <;> rfl
      · by_cases hcan : s.data.canBeExecuted F job = true
        · have hplace : after.place job = .held .assigned thread := by
            simp only [after, exec, if_pos hcan]
            exact Function.update_self _ _ _
          rw [hplace, hcan]
          exact ⟨rfl, rfl⟩
        · have hplace : after.place job = .queued := by
            simp only [after, exec, if_neg hcan]
            exact hqueued
          rw [hplace, Bool.eq_false_of_not_eq_true hcan]
          exact ⟨rfl, rfl⟩
    · have hplace : after.place job = s.data.place job := by
        rcases hmoved with hplace | hmoves
        · exact hplace
        · exfalso
          generalize s.data.place job = before at hmoves
          generalize (exec F thread (.takeFirst (head :: candidates)) s.data).1.place job = place
            at hmoves
          cases hmoves
          exact heq rfl
      refine .inl ⟨?_, congrArg _ hplace, congrArg _ hplace, fun _ h => hplace ▸ h⟩
      rw [hasked]
      exact Function.update_of_ne heq _ _
  · by_cases heq : job = head
    · subst heq
      refine .inr (.inr ⟨?_, ?_⟩)
      · rw [hfreed]
        exact Function.update_self _ _ _
      · rcases hs.of_frees hstack hfrees with ⟨rfl, hplace⟩ | ⟨hkind, hassigned, hover⟩
        · refine ⟨by rw [hplace]; rfl, .inl ⟨by rw [hplace]; rfl, ?_, by rw [hplace]; rfl⟩⟩
          simp only [after, exec]
          split <;> simp [Data.moveTo, Place.isEnded]
        · refine ⟨hassigned, .inr ⟨hkind, ?_⟩⟩
          rcases hmoved with hplace | hmoves
          · rw [hplace]
            refine Bool.eq_false_iff.mpr fun hended => ?_
            rw [Place.isOver_of_isEnded hended] at hover
            cases hover
          · generalize s.data.place job = before at hmoves hover
            generalize after.place job = place at hmoves ⊢
            cases hmoves with
            | ended | reporting | reported => cases hover
            | _ => rfl
    · refine .inl ⟨?_, ?_⟩
      · rw [hfreed]
        exact Function.update_of_ne heq _ _
      · rcases hmoved with hplace | hmoves
        · exact ⟨congrArg _ hplace, congrArg _ hplace, fun _ h => hplace ▸ h⟩
        · generalize s.data.place job = before at hmoves ⊢
          generalize after.place job = place at hmoves ⊢
          cases hfrees with
          | countDown hone =>
              cases hmoves with
              | endingSelf | endingElement => exact absurd rfl heq
              | _ => exact ⟨rfl, rfl, fun _ => id⟩
          | checkLast => cases hmoves
          | defaultEnd =>
              cases hmoves <;> exact absurd rfl heq

omit [DecidableEq J] [DecidableEq P] in
theorem State.PoliciesKept.eq_nil (hk : s.PoliciesKept start)
    (hbare : start.queuePolicies job = []) (hassigned : (s.data.place job).isAssigned = true) :
    s.data.queuePolicies job = [] := by
  refine List.eq_nil_iff_forall_not_mem.mpr fun policy hmem => ?_
  cases policy with
  | none => exact hk.unblocked job hassigned hmem
  | some policy =>
      have hown := (hk.own job policy).mp hmem
      rw [hbare] at hown
      cases hown

theorem outstanding_freed {policy : P} {policies : List P} {calls : List (Call P)}
    (hnodup : policies.Nodup) (hmem : policy ∈ policies) :
    outstanding policy false (calls ++ policies.map .free) =
      (outstanding policy false calls).bind fun held => if held then some false else none := by
  rw [outstanding_append]
  congr 1
  funext held
  exact QueuePolicies.outstanding_giveBack (.inl fun _ => rfl) hnodup hmem

/-- **An operation keeps the calls of policies paired**, but for the second free of a
collection. -/
theorem State.Paired.exec (hp : s.Paired F start) (hk : s.PoliciesKept start) (hs : s.Sound F)
    (hstack : s.stack thread = op :: rest)
    (hfree : ∀ mutex, wants F op = some mutex → s.data.holder mutex = none)
    {stack : Thread T → List (Op J)} :
    State.Paired F start ⟨(exec F thread op s.data).1, stack⟩ := by
  have hk' : State.PoliciesKept start ⟨(Collection.exec F thread op s.data).1, stack⟩ :=
    hk.exec hs hstack hfree
  have hcalls := fun job => hs.exec_calls hstack hfree job
  refine ⟨fun job policy hkind => ?_, fun job policy hkind hbare => ?_,
    fun job policy hkind hown hover => ?_, fun job policy hkind hown hended => ?_⟩
  · dsimp only
    rcases hcalls job with ⟨hsame, hassigned, hended, -⟩ |
      ⟨hqueued, hasked, hpolicies, hassigned, hover⟩ | ⟨hfreed, hassigned, hends⟩
    · rw [hsame, hassigned, hended, hp.plain job policy hkind]
      cases hplace : (s.data.place job).isAssigned with
      | false => simp
      | true =>
          -- the blocker has gone, and the other policies stay
          have hmem : policy ∈ (Collection.exec F thread op s.data).1.queuePolicies job ↔
              policy ∈ s.data.queuePolicies job := by
            cases policy with
            | none =>
                have hbefore := hk.unblocked job hplace
                have hafter := hk'.unblocked job (hassigned.trans hplace)
                exact ⟨fun h => absurd h hafter, fun h => absurd h hbefore⟩
            | some policy => exact (hk'.own job policy).trans (hk.own job policy).symm
          simp only [hmem]
    · have hbefore := hp.plain job policy hkind
      have hplace : (s.data.place job).isAssigned = false := by
        rw [hqueued]
        rfl
      have hended : ((Collection.exec F thread op s.data).1.place job).isEnded = false := by
        refine Bool.eq_false_iff.mpr fun hended => ?_
        rw [Place.isOver_of_isEnded hended] at hover
        cases hover
      rw [hplace, Bool.and_false, Bool.false_and] at hbefore
      rw [hasked, outstanding_append, hbefore, Option.bind_some, hpolicies, hassigned, hended,
        QueuePolicies.outstanding_calls (hk.nodup job), Bool.not_false, Bool.and_true]
      rfl
    · rcases hends with ⟨hbefore, hafter, -⟩ | ⟨hnot, -⟩
      · rw [hfreed, hafter, Bool.not_true, Bool.and_false]
        have hheld := hp.plain job policy hkind
        rw [hassigned, hbefore, Bool.not_false, Bool.and_true, Bool.and_true] at hheld
        by_cases hmem : policy ∈ s.data.queuePolicies job
        · rw [outstanding_freed (hk.nodup job) hmem, hheld]
          simp [hmem]
        · rw [outstanding_append, hheld, Option.bind_some,
            QueuePolicies.outstanding_map_of_notMem (fun _ => .inr (.inl rfl)) hmem]
          simp [hmem]
      · exact absurd hkind hnot
  · have hbefore := hp.bare job policy hkind hbare
    dsimp only
    rcases hcalls job with ⟨hsame, -⟩ | ⟨-, hasked, -⟩ | ⟨hfreed, hassigned, -⟩
    · rw [hsame]
      exact hbefore
    · -- only the blocker is there to be asked
      have hrefused : policy ∈ s.data.queuePolicies job → s.data.canBeExecuted F job = false := by
        intro hmem
        cases policy with
        | none => exact Bool.eq_false_of_not_eq_true fun hcan =>
            Data.notMem_of_canBeExecuted hcan hmem
        | some policy =>
            have hown := (hk.own job policy).mp hmem
            rw [hbare] at hown
            cases hown
      rw [hasked, outstanding_append, hbefore, Option.bind_some,
        QueuePolicies.outstanding_calls (hk.nodup job)]
      congr 1
      by_cases hmem : policy ∈ s.data.queuePolicies job
      · exact (Bool.and_eq_false_iff.mpr (.inr (hrefused hmem)))
      · rw [decide_eq_false hmem, Bool.false_and]
    · rw [hfreed, hk.eq_nil hbare hassigned, List.map_nil, List.append_nil]
      exact hbefore
  · dsimp only at hover ⊢
    rcases hcalls job with ⟨hsame, -, -, hbefore⟩ | ⟨-, -, -, -, hnot⟩ | ⟨hfreed, -⟩
    · rw [hsame]
      exact hp.isOver job policy hkind hown (hbefore hkind hover)
    · rw [hnot] at hover
      cases hover
    · rw [hfreed, outstanding_freed (hk.nodup job) ((hk.own job policy).mpr hown)]
      rcases outstanding (some policy) false (s.data.calls job) with _ | (_ | _) <;> simp
  · dsimp only at hended ⊢
    rcases hcalls job with ⟨hsame, -, hbefore, -⟩ | ⟨-, -, -, -, hnot⟩ | ⟨hfreed, -, hends⟩
    · rw [hsame]
      exact hp.twice job policy hkind hown (hbefore ▸ hended)
    · rw [Place.isOver_of_isEnded hended] at hnot
      cases hnot
    · rcases hends with ⟨-, -, hover⟩ | ⟨-, hnot⟩
      · -- the end of the collection frees what has been freed when it began
        have hbefore := hp.isOver job policy hkind hown hover
        rw [hfreed, outstanding_freed (hk.nodup job) ((hk.own job policy).mpr hown)]
        rcases hcase : outstanding (some policy) false (s.data.calls job) with _ | (_ | _)
        · rfl
        · rfl
        · exact absurd hcase hbefore
      · rw [hnot] at hended
        cases hended

variable [DecidableEq T]

theorem runs_paired {ok : State J P T σ → Act J T → Prop} (run : Runs F ok start s) :
    s.PoliciesKept start ∧ s.Paired F start := by
  induction run with
  | refl =>
      refine ⟨⟨fun job => ?_, fun job policy => ?_, fun job hassigned => ?_⟩, ⟨?_, ?_, ?_, ?_⟩⟩
      · exact (start.nodup job).map (Option.some_injective P)
      · simp [init]
      · cases hassigned
      all_goals
        simp [init, outstanding, Place.isAssigned, Place.isStarted, Place.isOver, Place.isEnded]
  | @tail mid last act run hok hstep ih =>
      obtain ⟨hk, hp⟩ := ih
      have hcall : ∀ {caller ops}, mid.beginCall caller ops = some last →
          last.PoliciesKept start ∧ last.Paired F start := by
        intro caller ops hbegin
        obtain ⟨-, rfl⟩ := State.beginCall_eq_some hbegin
        exact ⟨⟨hk.nodup, hk.own, hk.unblocked⟩, ⟨hp.plain, hp.bare, hp.isOver, hp.twice⟩⟩
      cases act with
      | run thread =>
          obtain ⟨op, rest, hstack, hfree, rfl⟩ := State.runThread_eq_some hstep
          exact ⟨hk.exec (runs_sound run) hstack hfree,
            hp.exec hk (runs_sound run) hstack hfree⟩
      | enqueue caller jobs =>
          simp only [step] at hstep
          split at hstep
          · rename_i hguard
            obtain ⟨-, rfl⟩ := State.beginCall_eq_some hstep
            have hplace : ∀ job,
                ((mid.takeUp (.caller caller) jobs).data.place job).isAssigned =
                    (mid.data.place job).isAssigned ∧
                  ((mid.takeUp (.caller caller) jobs).data.place job).isOver =
                    (mid.data.place job).isOver ∧
                  ((mid.takeUp (.caller caller) jobs).data.place job).isEnded =
                    (mid.data.place job).isEnded := by
              intro job
              simp only [State.takeUp]
              by_cases hmem : job ∈ jobs
              · rw [if_pos hmem, (hguard.2 job hmem).2]
                exact ⟨rfl, rfl, rfl⟩
              · rw [if_neg hmem]
                exact ⟨rfl, rfl, rfl⟩
            refine ⟨⟨hk.nodup, hk.own, fun job hassigned => ?_⟩, fun job policy hkind => ?_,
              hp.bare, fun job policy hkind hown hover => ?_,
              fun job policy hkind hown hended => ?_⟩
            · exact hk.unblocked job ((hplace job).1 ▸ hassigned)
            · have hbefore := hp.plain job policy hkind
              rw [← (hplace job).1, ← (hplace job).2.2] at hbefore
              exact hbefore
            · exact hp.isOver job policy hkind hown ((hplace job).2.1 ▸ hover)
            · exact hp.twice job policy hkind hown ((hplace job).2.2 ▸ hended)
          · cases hstep
      | stop caller collection =>
          simp only [step] at hstep
          split at hstep
          · cases hstep
          · exact hcall hstep
      | requestAbort caller job => exact hcall hstep
      | finish caller => exact hcall hstep

/-- The calls of the policy for the job pair: each acceptance is followed by one free or
release before the next, and nothing is freed or released without one; no acceptance is
outstanding when the job has ended. -/
def State.Pairs (s : State J P T σ) (job : J) (policy : Option P) : Prop :=
  ∃ held, outstanding policy false (s.data.calls job) = some held ∧
    ((∃ status, .ended job status ∈ s.data.log) → held = false)

/-- **The calls of queue policies pair** for plain jobs and for collections without policies
of their own, and for no other job that has ended. -/
theorem policy_pairing {ok : State J P T σ → Act J T → Prop} (run : Runs F ok start s) (job : J) :
    (F.kind job = .plain ∨ start.queuePolicies job = [] → ∀ policy, s.Pairs job policy) ∧
      ((∃ status, .ended job status ∈ s.data.log) → (∀ policy, s.Pairs job policy) →
        F.kind job = .plain ∨ start.queuePolicies job = []) := by
  obtain ⟨-, hp⟩ := runs_paired run
  have hended : (s.data.place job).isEnded = true ↔
      ∃ status, .ended job status ∈ s.data.log := (runs_recorded run).isEnded_iff
  constructor
  · intro hcondition policy
    by_cases hkind : F.kind job = .plain
    · refine ⟨_, hp.plain job policy hkind, fun hlog => ?_⟩
      rw [show (s.data.place job).isEnded = true from hended.mpr hlog, Bool.not_true,
        Bool.and_false]
    · exact ⟨false, hp.bare job policy hkind (hcondition.resolve_left hkind), fun _ => rfl⟩
  · intro hlog hpairs
    by_contra hnot
    rw [not_or] at hnot
    obtain ⟨policy, hown⟩ := List.exists_mem_of_ne_nil _ hnot.2
    obtain ⟨held, hheld, -⟩ := hpairs (some policy)
    rw [hp.twice job policy hnot.1 hown (hended.mpr hlog)] at hheld
    cases hheld

end Step

/-- The collection and its element have the policy. -/
def admittedStart : Weaver.Start (Fin 2) Unit Unit where
  queuePolicies _ := [()]
  nodup := by decide
  policyState := ()

/-- The policy of the element is asked and freed once. -/
theorem policy_pairing_element : ∃ s : State (Fin 2) Unit Unit Unit,
    Runs admittedPair Undisturbed admittedStart s ∧
      s.data.calls 1 = [.canRun (some ()) true, .free (some ())] ∧ s.Pairs 1 (some ()) := by
  obtain ⟨s, run, hcalls, -⟩ :=
    exists_runs admittedPair Undisturbed admittedStart
      (fun s : State (Fin 2) Unit Unit Unit =>
        s.data.calls 1 = [.canRun (some ()) true, .free (some ())])
      (List.flatten [[.enqueue () [0]], List.replicate 3 (.run (.caller ())),
        List.replicate 26 (.run (.worker 0))]) (by decide +kernel)
  exact ⟨s, run, hcalls, (policy_pairing run 1).1 (.inl rfl) (some ())⟩

/-- The policy of the collection is freed twice. -/
theorem policy_freed_twice :
    ¬ ∀ s : State (Fin 2) Unit Unit Unit, Runs admittedPair Undisturbed admittedStart s →
      ∀ job policy, s.Pairs job policy := by
  intro hclaim
  obtain ⟨s, run, hcalls, -⟩ :=
    exists_runs admittedPair Undisturbed admittedStart
      (fun s : State (Fin 2) Unit Unit Unit => s.data.calls 0 =
        [.canRun (some ()) true, .free (some ()), .free (some ())])
      (List.flatten [[.enqueue () [0]], List.replicate 3 (.run (.caller ())),
        List.replicate 26 (.run (.worker 0))]) (by decide +kernel)
  obtain ⟨held, hheld, -⟩ := hclaim s run 0 (some ())
  rw [hcalls] at hheld
  cases hheld

end ThreadWeaver.Collection
