import Mathlib.Data.Finset.Card
import ThreadWeaver.Collection.Undisturbed

/-!
# Idle means that everything is done

The weaver is idle when its queue is empty and no worker is active.  A worker is active from the
time it takes a job out of the queue to the next time it applies for work, and in between it
executes the job, completes it in the collection that it is an element of, and so on outwards as
far as collections come to their end.  So when the weaver is idle no job is with a worker, and
none is in the queue; a collection that still waits would wait for an element that waits itself,
and one of these would have no elements.
-/

namespace ThreadWeaver.Collection

open Library (Ordered Stacked)

variable {J P T σ : Type*} [DecidableEq J]

/-- Everything that has been enqueued has ended once or has been dequeued after an unsuccessful
element of its Sequence, and every collection that has been started has ended once. -/
def AllDone (F : Forest J P σ) (log : List (Event J T)) : Prop :=
  (∀ job, .enqueued job ∈ log → log.countP (Event.isEndOf job) = 1 ∨
    ∃ before after, log = before ++ .dequeued job :: after ∧ StoppedAfter F before job) ∧
  ∀ collection, F.kind collection ≠ .plain → .started collection ∈ log →
    log.countP (Event.isEndOf collection) = 1

/-- The signal `finished`, or the return of `finish`. -/
def Event.isFinish : Event J T → Bool
  | finished | finishReturned _ => true
  | _ => false

/-! ## Active workers -/

/-- The operations of a call of `enqueue` or `finish`. -/
def Op.isCall : Op J → Bool
  | enqueue _ | enqueueJob _ | unlock .weaver | finish => true
  | _ => false

/-- The worker has no job. -/
def IsFree (stack : List (Op J)) : Prop :=
  stack = [.applyForWork false] ∨ ∃ candidates, stack = [.takeFirst candidates]

/-- The operations of a worker that looks for a job. -/
def Op.looksForJob : Op J → Bool
  | applyForWork _ | takeFirst _ => true
  | _ => false

/-- The active count is the number of workers that have to report back. -/
def State.Counts (s : State J P T σ) : Prop :=
  ∃ busy : Finset ℕ,
    (∀ number, number ∈ busy ↔ .applyForWork true ∈ s.stack (.worker number)) ∧
      s.data.active = busy.card

/-- The workers that are not active have no job, and the other threads call `enqueue` and
`finish`. -/
structure State.Staffed (s : State J P T σ) : Prop where
  workers : ∀ number, .applyForWork true ∈ s.stack (.worker number) ∨
    IsFree (s.stack (.worker number))
  callers : ∀ caller, ∀ op ∈ s.stack (.caller caller), op.isCall = true
  active : ∃ busy : Finset ℕ,
    (∀ number, number ∈ busy ↔ .applyForWork true ∈ s.stack (.worker number)) ∧
      s.data.active = busy.card

section Exec

variable [DecidableEq P]

/-- **Inversion.**  What an operation does to the number of active workers. -/
theorem exec_active (F : Forest J P σ) (thread : Thread T) (op : Op J) (d : Data J P T σ) :
    (exec F thread op d).1.active = d.active ∧ op ≠ .applyForWork true ∧
        .applyForWork true ∉ (exec F thread op d).2 ∨
      (exec F thread op d).1.active = d.active - 1 ∧ op = .applyForWork true ∧
        .applyForWork true ∉ (exec F thread op d).2 ∨
      (exec F thread op d).1.active = d.active + 1 ∧
        .applyForWork true ∈ (exec F thread op d).2 ∧ ∃ candidates, op = .takeFirst candidates := by
  have hnone : (∀ candidates, op ≠ .takeFirst candidates) →
      .applyForWork true ∉ (exec F thread op d).2 := by
    intro hne hmem
    generalize hlater : Op.applyForWork true = later at hmem
    cases exec_calls F thread op d hmem with
    | applyForWork => exact hne _ rfl
    | wait => cases hlater
    | _ => cases hlater
  cases op with
  | applyForWork wasBusy =>
      cases wasBusy with
      | false => exact .inl ⟨rfl, by simp, hnone (by simp)⟩
      | true => exact .inr (.inl ⟨rfl, rfl, hnone (by simp)⟩)
  | takeFirst candidates =>
      cases candidates with
      | nil => exact .inl ⟨rfl, by simp, by simp [exec]⟩
      | cons job candidates =>
          by_cases hcan : d.canBeExecuted F job = true
          · refine .inr (.inr ⟨?_, ?_, _, rfl⟩)
            · simp only [exec, if_pos hcan]
              rfl
            · simp [exec, hcan]
          · refine .inl ⟨?_, by simp, by simp [exec, hcan]⟩
            simp only [exec, if_neg hcan]
            rfl
  | processCompletedElement _ _ | elementFinished _ _ | dequeueElement _ _ _ =>
      refine .inl ⟨?_, by simp, hnone (by simp)⟩
      simp only [exec]
      split
      · split <;> rfl
      · rfl
  | finish | execute _ | run _ | defaultEnd _ | dequeueSelf _ | aboutToBeDequeued _
  | countDown _ _ | checkLast _ =>
      refine .inl ⟨?_, by simp, hnone (by simp)⟩
      simp only [exec]
      split <;> rfl
  | _ => exact .inl ⟨rfl, by simp, hnone (by simp)⟩

end Exec

section Staffed

variable [DecidableEq P] [DecidableEq T] {F : Forest J P σ} {s next : State J P T σ}
  {thread : Thread T}

/-- A worker that takes a job is counted, and one that reports back is not any more. -/
theorem State.Counts.runThread (hcounts : s.Counts)
    (halone : ∀ op rest, s.stack thread = op :: rest → op.looksForJob = true →
      rest = [] ∧ ∃ number, thread = .worker number)
    (h : s.runThread F thread = some next) : next.Counts := by
  obtain ⟨op, rest, hstack, hfree, rfl⟩ := State.runThread_eq_some h
  have hother : ∀ {other}, other ≠ thread →
      Function.update s.stack thread ((exec F thread op s.data).2 ++ rest) other =
        s.stack other := fun hne => Function.update_of_ne hne _ _
  have hmine : Function.update s.stack thread ((exec F thread op s.data).2 ++ rest) thread =
      (exec F thread op s.data).2 ++ rest := Function.update_self _ _ _
  obtain ⟨busy, hbusy, hactive⟩ := hcounts
  unfold State.Counts
  dsimp only
  rcases exec_active F thread op s.data with
    ⟨hsame, hne, hnot⟩ | ⟨hless, rfl, hnot⟩ | ⟨hmore, hnew, candidates, rfl⟩
  · refine ⟨busy, fun number => ?_, hsame.trans hactive⟩
    rw [hbusy]
    by_cases heq : .worker number = thread
    · subst heq
      rw [hmine, hstack]
      simp [hnot, Ne.symm hne]
    · rw [hother heq]
  · obtain ⟨rfl, number, rfl⟩ := halone _ _ hstack rfl
    have hmem : number ∈ busy := (hbusy number).mpr (hstack ▸ List.mem_cons_self)
    refine ⟨busy.erase number, fun other => ?_, ?_⟩
    · by_cases heq : other = number
      · subst heq
        rw [hmine]
        simpa using hnot
      · rw [hother (by simpa using heq), ← hbusy, Finset.mem_erase]
        simp [heq]
    · have hcard := Finset.card_erase_of_mem hmem
      have hpositive := Finset.card_pos.mpr ⟨number, hmem⟩
      omega
  · obtain ⟨rfl, number, rfl⟩ := halone _ _ hstack rfl
    have hnot : number ∉ busy := by
      rw [hbusy, hstack]
      simp
    refine ⟨insert number busy, fun other => ?_, ?_⟩
    · by_cases heq : other = number
      · subst heq
        rw [hmine]
        simpa using hnew
      · rw [hother (by simpa using heq), ← hbusy, Finset.mem_insert]
        simp [heq]
    · rw [hmore, hactive, Finset.card_insert_of_notMem hnot]
      simp

omit [DecidableEq P] [DecidableEq T] in
theorem State.Sound.rest_of_search (hs : s.Sound F) {op : Op J} {rest : List (Op J)}
    (hstack : s.stack thread = op :: rest) (hsearch : op.looksForJob = true) : rest = [] := by
  have hlayout := hs.layout thread
  rw [hstack] at hlayout
  cases op with
  | applyForWork _ | takeFirst _ => exact hlayout.1
  | _ => cases hsearch

theorem State.Staffed.runThread (hw : s.Staffed) (hs : s.Sound F)
    (h : s.runThread F thread = some next) : next.Staffed := by
  -- an operation that searches the queue or applies for work is alone on the stack of a worker
  have halone : ∀ op rest, s.stack thread = op :: rest → op.looksForJob = true →
      rest = [] ∧ ∃ number, thread = .worker number := by
    intro op rest hstack hsearch
    refine ⟨hs.rest_of_search hstack hsearch, ?_⟩
    cases thread with
    | worker number => exact ⟨number, rfl⟩
    | caller caller =>
        have hcall := hw.callers caller op (hstack ▸ List.mem_cons_self)
        cases op with
        | applyForWork _ | takeFirst _ => cases hcall
        | _ => cases hsearch
  have hcounts : next.Counts := State.Counts.runThread hw.active halone h
  obtain ⟨op, rest, hstack, hfree, rfl⟩ := State.runThread_eq_some h
  have hop : op ∈ s.stack thread := by
    rw [hstack]
    exact List.mem_cons_self
  have hother : ∀ {other}, other ≠ thread →
      Function.update s.stack thread ((exec F thread op s.data).2 ++ rest) other =
        s.stack other := fun hne => Function.update_of_ne hne _ _
  have hmine : Function.update s.stack thread ((exec F thread op s.data).2 ++ rest) thread =
      (exec F thread op s.data).2 ++ rest := Function.update_self _ _ _
  refine ⟨fun number => ?_, fun caller below hbelow => ?_, hcounts⟩
  · dsimp only
    by_cases heq : .worker number = thread
    · subst heq
      rw [hmine]
      have hworker := hw.workers number
      rw [hstack] at hworker
      rcases hworker with hbusy | hfree'
      · rcases List.mem_cons.mp hbusy with rfl | hrest
        · obtain ⟨rfl, -⟩ := halone _ _ hstack rfl
          exact .inr (.inr ⟨_, rfl⟩)
        · exact .inl (List.mem_append_right _ hrest)
      · rcases hfree' with hwait | ⟨candidates, hsearch⟩
        · obtain ⟨rfl, rfl⟩ := List.cons.inj hwait
          exact .inr (.inr ⟨_, rfl⟩)
        · obtain ⟨rfl, rfl⟩ := List.cons.inj hsearch
          cases candidates with
          | nil => exact .inr (.inl rfl)
          | cons job candidates =>
              by_cases hcan : s.data.canBeExecuted F job = true
              · exact .inl (by simp [exec, hcan])
              · exact .inr (.inr ⟨candidates, by simp [exec, hcan]⟩)
    · rw [hother heq]
      exact hw.workers number
  · dsimp only at hbelow
    by_cases heq : .caller caller = thread
    · subst heq
      rw [hmine] at hbelow
      rcases List.mem_append.mp hbelow with hnew | hrest
      · have hcall := hw.callers caller op hop
        cases exec_calls F _ op s.data hnew with
        | enqueueJob | unlockEnqueue | finish => rfl
        | _ => cases hcall
      · exact hw.callers caller below (hstack ▸ List.mem_cons_of_mem _ hrest)
    · rw [hother heq] at hbelow
      exact hw.callers caller below hbelow

theorem State.Staffed.step (hw : s.Staffed) (hs : s.Sound F) {act : Act J T}
    (hok : Undisturbed s act) (h : step F s act = some next) : next.Staffed := by
  refine step_rule hw (fun _ _ => hw.runThread hs) ?_ ?_ h
  · exact fun _ _ _ _ => ⟨hw.workers, hw.callers, hw.active⟩
  · intro before caller hbefore hbegin
    obtain ⟨-, rfl⟩ := State.beginCall_eq_some hbegin
    have hworker : ∀ number, Function.update before.stack (.caller caller) act.ops (.worker number) =
        before.stack (.worker number) := fun number => Function.update_of_ne (by simp) _ _
    refine ⟨fun number => ?_, fun other op hop => ?_, ?_⟩
    · simp only [hworker]
      exact hbefore.workers number
    · dsimp only at hop
      by_cases heq : other = caller
      · rw [heq, Function.update_self] at hop
        cases act with
        | run thread => cases hop
        | enqueue _ jobs | finish _ =>
            obtain rfl := List.mem_singleton.mp hop
            rfl
        | stop | requestAbort => exact hok.elim
      · rw [Function.update_of_ne (by simpa using heq)] at hop
        exact hbefore.callers other op hop
    · simp only [hworker]
      exact hbefore.active

theorem runs_staffed {start : Weaver.Start J P σ} (run : Runs F Undisturbed start s) :
    s.Staffed := by
  induction run with
  | refl =>
      refine ⟨fun number => .inr (.inl rfl), fun caller op h => ?_, ∅, fun number => ?_, ?_⟩
      · cases h
      · simp [init]
      · simp [init]
  | tail run hok hstep ih => exact ih.step (runs_sound run) hok hstep

/-! ## Idle states -/

omit [DecidableEq J] [DecidableEq P] [DecidableEq T] in
theorem State.Staffed.isFree_of_idle (hw : s.Staffed) (hidle : s.data.active = 0) (number : ℕ) :
    IsFree (s.stack (.worker number)) := by
  obtain ⟨busy, hbusy, hactive⟩ := hw.active
  have hnone : busy = ∅ := by
    rw [← Finset.card_eq_zero]
    omega
  refine (hw.workers number).resolve_left fun hyes => ?_
  rw [← hbusy, hnone] at hyes
  cases hyes

omit [DecidableEq P] [DecidableEq T] in
/-- When no worker is active, jobs are with threads that enqueue them. -/
theorem State.Staffed.held_of_idle (hw : s.Staffed) (hs : s.Sound F)
    (hidle : s.data.active = 0) {job : J} {stage : Stage}
    (hplace : s.data.place job = .held stage thread) :
    stage = .pending ∧ F.parent job = none := by
  obtain ⟨op, hop, hjobs⟩ := hs.op_of_held hplace
  cases thread with
  | worker number =>
      exfalso
      rcases hw.isFree_of_idle hidle number with hwait | ⟨candidates, hsearch⟩
      · rw [hwait] at hop
        obtain rfl := List.mem_singleton.mp hop
        cases hjobs
      · rw [hsearch] at hop
        obtain rfl := List.mem_singleton.mp hop
        cases hjobs
  | caller caller =>
      obtain ⟨ops, rest, hsplit, hfits⟩ := hs.fits hop
      have hnoelement : ∀ {collection}, F.OpenedBelow job rest →
          F.parent job ≠ some collection := by
        intro collection hopened hparent
        have hmem : .processCompletedElement collection collection ∈ s.stack (.caller caller) := by
          rw [hsplit]
          exact List.mem_append_right _ (List.mem_cons_of_mem _ (hopened collection hparent))
        cases hw.callers caller _ hmem
      have hcall := hw.callers caller op hop
      cases op with
      | enqueue jobs =>
          obtain ⟨head, hmem, heq⟩ := List.mem_map.mp hjobs
          cases heq
          exact ⟨rfl, Option.eq_none_iff_forall_ne_some.mpr fun _ => hnoelement (hfits _ hmem)⟩
      | enqueueJob head =>
          obtain ⟨rfl, rfl⟩ := Prod.mk.inj (List.mem_singleton.mp hjobs)
          exact ⟨rfl, Option.eq_none_iff_forall_ne_some.mpr fun _ => hnoelement hfits.2⟩
      | unlock mutex => cases hjobs
      | finish => cases hjobs
      | _ => cases hcall

/-- In an idle state no collection waits: the elements of a collection that waits are not
with a worker and not in the queue, so one of them waits itself. -/
theorem runs_not_waiting_of_idle {start : Weaver.Start J P σ} (run : Runs F Undisturbed start s)
    (hidle : s.data.isIdleP = true) (collection : J) :
    s.data.place collection ≠ .waiting := by
  simp only [Data.isIdleP, Bool.and_eq_true, List.isEmpty_iff, beq_iff_eq] at hidle
  have hs := runs_sound run
  suffices hall : ∀ height collection, F.height collection < height →
      s.data.place collection ≠ .waiting from hall _ collection (Nat.lt_succ_self _)
  intro height
  induction height with
  | zero => exact fun _ h => absurd h (Nat.not_lt_zero _)
  | succ height ih =>
      intro collection hheight hwaiting
      refine runs_not_waiting ((runs_orderly run).waiting _ hwaiting) (runs_nothingMissed run collection)
        (fun element hmem => ?_) hwaiting
      have hparent := (F.mem_elements _ _).mp hmem
      cases hplace : s.data.place element with
      | held stage thread =>
          have hnone := ((runs_staffed run).held_of_idle hs hidle.2 hplace).2
          rw [hparent] at hnone
          cases hnone
      | queued =>
          have hlisted := hs.queued element hplace
          rw [hidle.1] at hlisted
          cases hlisted
      | waiting =>
          exact absurd hplace (ih element (by have := F.height_lt _ _ hparent; omega))
      | _ => rfl

/-- In an idle state everything is done. -/
theorem runs_allDone {start : Weaver.Start J P σ} (run : Runs F Undisturbed start s)
    (hidle : s.data.isIdleP = true) : AllDone F s.data.log := by
  have hs := runs_sound run
  have ho := runs_orderly run
  have hends : ∀ {job}, s.data.place job = .reported →
      s.data.log.countP (Event.isEndOf job) = 1 := by
    intro job hplace
    have hcount := (runs_recorded run).ends job
    rw [show s.data.books.place job = .reported from hplace] at hcount
    exact hcount
  have hwaiting := runs_not_waiting_of_idle run hidle
  simp only [Data.isIdleP, Bool.and_eq_true, List.isEmpty_iff, beq_iff_eq] at hidle
  have hnotheld : ∀ {job stage thread}, s.data.place job = .held stage thread →
      stage = .pending := fun hplace => ((runs_staffed run).held_of_idle hs hidle.2 hplace).1
  have hnotqueued : ∀ {job}, s.data.place job ≠ .queued := by
    intro job hplace
    have hlisted := hs.queued job hplace
    rw [hidle.1] at hlisted
    cases hlisted
  constructor
  · intro job hmem
    obtain ⟨hfresh, hpending⟩ := ho.enqueued job hmem
    cases hplace : s.data.place job with
    | fresh => exact absurd hplace hfresh
    | held stage thread =>
        obtain rfl := hnotheld hplace
        exact absurd hplace (hpending thread)
    | queued => exact absurd hplace hnotqueued
    | waiting => exact absurd hplace (hwaiting job)
    | reported => exact .inl (hends hplace)
    | lost => exact absurd hplace (ho.kept job).1
    | discounted =>
        obtain ⟨before, after, hsplit⟩ := List.append_of_mem
          (ho.dequeued job (by rw [hplace]; rfl))
        exact .inr ⟨before, after, hsplit, ho.stopped before _ after hsplit job rfl⟩
  · intro collection _ hmem
    have hstarted := (runs_recorded run).started collection hmem
    rw [show s.data.books.place collection = s.data.place collection from rfl] at hstarted
    cases hplace : s.data.place collection with
    | held stage thread =>
        obtain rfl := hnotheld hplace
        rw [hplace] at hstarted
        cases hstarted
    | waiting => exact absurd hplace (hwaiting collection)
    | reported => exact hends hplace
    | _ =>
        rw [hplace] at hstarted
        cases hstarted

omit [DecidableEq P] [DecidableEq T] in
/-- What is done was so before the event that says it. -/
theorem AllDone.of_concat {log : List (Event J T)} {event : Event J T}
    (h : AllDone F (log ++ [event])) (hfinish : event.isFinish = true) : AllDone F log := by
  have hends : ∀ job, (log ++ [event]).countP (Event.isEndOf job) =
      log.countP (Event.isEndOf job) := by
    intro job
    cases event with
    | finished | finishReturned => simp [Event.isEndOf]
    | _ => cases hfinish
  refine ⟨fun job hmem => ?_, fun collection hkind hmem => ?_⟩
  · rcases h.1 job (List.mem_append_left _ hmem) with hended | ⟨before, after, hsplit, hafter⟩
    · exact .inl (hends job ▸ hended)
    · refine .inr ?_
      obtain ⟨rest, hlog⟩ := Library.split_of_append hsplit (by
        intro hin
        obtain rfl := List.mem_singleton.mp hin
        cases hfinish)
      exact ⟨before, rest, hlog, hafter⟩
  · exact hends collection ▸ h.2 collection hkind (List.mem_append_left _ hmem)

/-- **Idle means that everything is done**, for jobs nested to any depth: whenever the weaver is
idle, every job that has been enqueued has ended, or was dequeued after an unsuccessful element of
its Sequence, and every collection that has been started has ended once.  `finish` returns and
`finished` is emitted only when this is so. -/
theorem idle_means_done {start : Weaver.Start J P σ} (run : Runs F Undisturbed start s) :
    (s.data.isIdleP = true → AllDone F s.data.log) ∧
      Ordered (fun before event => event.isFinish = true → AllDone F before) s.data.log := by
  refine ⟨runs_allDone run, ?_⟩
  induction run with
  | refl => exact Ordered.nil
  | @tail mid last act run hok hstep ih =>
      have hdone := runs_allDone (run.tail hok hstep)
      refine step_rule (I := fun after => (after.data.isIdleP = true → AllDone F after.data.log) →
        Ordered (fun before event => event.isFinish = true → AllDone F before) after.data.log)
        (fun _ => ih) ?_ ?_ ?_ hstep hdone
      · rintro thread rfl hran hdone
        obtain ⟨op, rest, hstack, -, rfl⟩ := State.runThread_eq_some hran
        dsimp only at hdone ⊢
        rcases exec_records F thread op mid.data with hsame | ⟨event, hrecords, hlog⟩
        · rw [hsame]
          exact ih
        · rw [hlog] at hdone ⊢
          refine ih.concat fun hfinish => (hdone ?_).of_concat hfinish
          cases hrecords with
          | finished hempty hlast =>
              simp [exec, Data.decActiveThreadCount, Data.lock, Data.isIdleP, hlast,
                List.isEmpty_iff.mp hempty]
          | finishReturned hidle =>
              simp only [exec, if_pos hidle]
              exact hidle
          | _ => cases hfinish
      · exact fun _ _ _ _ _ => ih
      · intro before caller hbefore hbegin
        obtain ⟨-, rfl⟩ := State.beginCall_eq_some hbegin
        exact hbefore

end Staffed

/-- The Sequence is executed by one worker; its second element is dequeued. -/
theorem idle_means_done_failing : ∃ s : State (Fin 3) Empty Unit Unit,
    Runs failing Undisturbed (.plain ()) s ∧ s.data.isIdleP = true ∧
      .dequeued 2 ∈ s.data.log ∧ AllDone failing s.data.log := by
  obtain ⟨s, run, ⟨hidle, hdequeued⟩, -⟩ :=
    exists_runs failing Undisturbed (.plain ())
      (fun s : State (Fin 3) Empty Unit Unit => s.data.isIdleP = true ∧ .dequeued 2 ∈ s.data.log)
      (List.flatten [[.enqueue () [0]], List.replicate 3 (.run (.caller ())),
        List.replicate 49 (.run (.worker 0))]) (by decide +kernel)
  exact ⟨s, run, hidle, hdequeued, (idle_means_done run).1 hidle⟩

end ThreadWeaver.Collection
