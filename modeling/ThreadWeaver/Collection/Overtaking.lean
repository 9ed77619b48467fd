import ThreadWeaver.Collection.Pooled
import ThreadWeaver.Collection.Release

/-!
# Nobody is overtaken

A worker goes through the queue from its front, under the weaver mutex, and takes the first job that
is accepted.  The policies themselves may change in the meantime, since jobs that end free theirs
without the weaver mutex; so what a job that has been passed over can say is that it was refused
when the worker came to it, and that the worker has kept the mutex ever since.
-/

namespace ThreadWeaver.Collection

open Library (RunWhere)

variable {J P T σ : Type*} [DecidableEq J] [DecidableEq P] [DecidableEq T]

/-- The thread keeps the weaver mutex. -/
def Keeps (ok : State J P T σ → Act J T → Prop) (thread : Thread T) (s : State J P T σ)
    (act : Act J T) : Prop :=
  ok s act ∧ s.data.holder .weaver = some thread

/-- The worker came to the job, which was refused, and has kept the weaver mutex since then. -/
def State.PassedOver (F : Forest J P σ) (ok : State J P T σ → Act J T → Prop)
    (start : Weaver.Start J P σ) (s : State J P T σ) (thread : Thread T) (job : J) : Prop :=
  ∃ mid candidates, Runs F ok start mid ∧ RunWhere (step F) (Keeps ok thread) mid s ∧
    mid.stack thread = [.takeFirst (job :: candidates)] ∧ mid.data.canBeExecuted F job = false

section Runs

variable {F : Forest J P σ} {ok : State J P T σ → Act J T → Prop} {start : Weaver.Start J P σ}
  {s next : State J P T σ} {thread : Thread T} {job : J}

theorem State.PassedOver.tail (h : s.PassedOver F ok start thread job) {act : Act J T}
    (hok : Keeps ok thread s act) (hstep : step F s act = some next) :
    next.PassedOver F ok start thread job := by
  obtain ⟨mid, candidates, run, hkeeps, hstack, hrefused⟩ := h
  exact ⟨mid, candidates, run, hkeeps.tail hok hstep, hstack, hrefused⟩

theorem step_assignments (hs : s.Sound F) {act : Act J T} (hstep : step F s act = some next) :
    next.data.assignments = s.data.assignments ∨ s.data.holder .weaver = some act.thread := by
  refine step_rule (I := fun after => after.data.assignments = s.data.assignments ∨
    s.data.holder .weaver = some act.thread) (.inl rfl) ?_ (fun _ _ _ _ => .inl rfl) ?_ hstep
  · rintro thread rfl hran
    obtain ⟨op, rest, hstack, -, rfl⟩ := State.runThread_eq_some hran
    exact hs.exec_assignments hstack
  · intro before caller hbefore hbegin
    obtain ⟨-, rfl⟩ := State.beginCall_eq_some hbegin
    exact hbefore

/-- A worker that goes through the queue has passed over what is ahead. -/
theorem runs_passedOver (run : Runs F ok start s) {candidates : List J}
    (hscan : s.stack thread = [.takeFirst candidates]) :
    ∃ refused, s.data.assignments = refused ++ candidates ∧
      ∀ other ∈ refused, s.PassedOver F ok start thread other := by
  induction run generalizing candidates with
  | refl => cases thread <;> simp [init] at hscan
  | @tail mid last act run hok hstep ih =>
      have hs := runs_sound run
      have hholder : ∀ {candidates}, mid.stack thread = [.takeFirst candidates] →
          mid.data.holder .weaver = some thread := fun {candidates} hstack =>
        hs.holder_eq ⟨.takeFirst candidates, hstack ▸ List.mem_singleton.mpr rfl,
          List.mem_singleton.mpr rfl⟩
      by_cases hthread : thread = act.thread
      · cases act with
        | run runner =>
            obtain rfl : thread = runner := hthread
            obtain ⟨op, rest, hstack, -, rfl⟩ := State.runThread_eq_some hstep
            dsimp only at hscan ⊢
            rw [Function.update_self] at hscan
            have hmem : .takeFirst candidates ∈ (exec F thread op mid.data).2 ++ rest := by
              rw [hscan]
              exact List.mem_singleton.mpr rfl
            rcases List.mem_append.mp hmem with hnew | hold
            · rcases takeFirst_of_mem_exec hnew with ⟨wasBusy, rfl, rfl⟩ | ⟨job, rfl, hrefused⟩
              · refine ⟨[], ?_, fun _ hmem => absurd hmem List.not_mem_nil⟩
                cases wasBusy <;> rfl
              · -- one more job has been passed over
                have halone := (hs.scanning thread _ (hstack ▸ List.mem_cons_self)).1
                obtain ⟨refused, hsplit, hpassed⟩ := ih halone
                have hkeeps : Keeps ok thread mid (.run thread) := ⟨hok, hholder halone⟩
                refine ⟨refused ++ [job], ?_, fun other hother => ?_⟩
                · simp only [exec, hrefused, Bool.false_eq_true, if_false]
                  rw [List.append_assoc]
                  exact hsplit
                · rcases List.mem_append.mp hother with hother | hother
                  · exact (hpassed other hother).tail hkeeps hstep
                  · obtain rfl := List.mem_singleton.mp hother
                    exact ⟨mid, candidates, run, .single hkeeps hstep, halone, hrefused⟩
            · have halone := (hs.scanning thread candidates
                (hstack ▸ List.mem_cons_of_mem _ hold)).1
              rw [hstack] at halone
              obtain ⟨-, rfl⟩ := List.cons.inj halone
              cases hold
        | enqueue caller _ | stop caller _ | requestAbort caller _ | finish caller =>
            obtain rfl : thread = .caller caller := hthread
            have hsearches := (runs_pooled (run.tail hok hstep)).searches caller
              (.takeFirst candidates) (hscan ▸ List.mem_singleton.mpr rfl)
            cases hsearches
      · have hstack := (step_stack_of_ne F hstep hthread).symm.trans hscan
        have hsame : last.data.assignments = mid.data.assignments := by
          refine (step_assignments hs hstep).resolve_right fun hother => ?_
          rw [hholder hstack] at hother
          exact hthread (Option.some.inj hother)
        obtain ⟨refused, hsplit, hpassed⟩ := ih hstack
        exact ⟨refused, hsame.trans hsplit, fun other hmem =>
          (hpassed other hmem).tail ⟨hok, hholder hstack⟩ hstep⟩

/-- **Nobody is overtaken**, whatever the nesting and wherever `stop` and `requestAbort` are called:
when a worker is handed a job, every job ahead of it in the queue has been passed over, refused by
its policies while this worker has had the weaver mutex; and no job behind it has a higher
priority. -/
theorem no_overtaking (run : Runs F ok start s) (hstep : step F s (.run thread) = some next)
    (hassigned : next.data.log = s.data.log ++ [.assigned thread job]) :
    ∃ refused behind, s.data.assignments = refused ++ job :: behind ∧
      next.data.assignments = refused ++ behind ∧
      (∀ other ∈ refused, s.PassedOver F ok start thread other) ∧
      ∀ other ∈ behind, F.priority other ≤ F.priority job := by
  have hs := runs_sound run
  have hsorted := (runs_pooled run).sorted
  obtain ⟨op, rest, hstack, -, rfl⟩ := State.runThread_eq_some hstep
  dsimp only at hassigned ⊢
  obtain ⟨candidates, rfl, hcan⟩ : ∃ candidates, op = .takeFirst (job :: candidates) ∧
      s.data.canBeExecuted F job = true := by
    rcases exec_records F thread op s.data with hsame | ⟨event, hrecords, hlog⟩
    · simp [hsame] at hassigned
    · obtain rfl : event = .assigned thread job := by simpa [hlog] using hassigned
      cases hrecords with
      | @assigned _ candidates hcan => exact ⟨candidates, rfl, hcan⟩
  obtain ⟨refused, hsplit, hpassed⟩ :=
    runs_passedOver run (hs.scanning thread _ (hstack ▸ List.mem_cons_self)).1
  refine ⟨refused, candidates, hsplit, ?_, hpassed, fun other hother => ?_⟩
  · have hnodup := hs.nodup
    rw [hsplit, List.nodup_append] at hnodup
    have hnot : job ∉ refused := fun hmem => hnodup.2.2 job hmem job List.mem_cons_self rfl
    have herase : (exec F thread (.takeFirst (job :: candidates)) s.data).1.assignments =
        s.data.assignments.erase job := by
      simp [exec, hcan, Data.unlock, Data.assign, Data.record, Data.moveTo, Data.askPolicies,
        Data.recordCalls]
    rw [herase, hsplit, List.erase_append_right _ hnot, List.erase_cons_head]
  · rw [hsplit, List.pairwise_append, List.pairwise_cons] at hsorted
    exact hsorted.2.1.1 other hother

end Runs

/-- The job ahead depends on the collection and is passed over. -/
theorem no_overtaking_jobAfterPair :
    ∃ s next : State (Fin 3) (Option Empty) Unit (Dependencies (Fin 3) × Unit),
      next.data.log = s.data.log ++ [.assigned (.worker 0) 0] ∧ s.data.assignments = [2, 0] ∧
        s.PassedOver pairAndJob.addDependencyPolicy (fun _ _ => True) jobAfterPair
          (.worker 0) 2 := by
  obtain ⟨s, run, ⟨hlist, hassigned⟩, -⟩ :=
    exists_runs pairAndJob.addDependencyPolicy (fun _ _ => True) jobAfterPair
      (fun s : State (Fin 3) (Option Empty) Unit (Dependencies (Fin 3) × Unit) =>
        s.data.assignments = [2, 0] ∧
          (step pairAndJob.addDependencyPolicy s (.run (.worker 0))).any (fun next =>
            decide (next.data.log = s.data.log ++ [Event.assigned (.worker 0) (0 : Fin 3)])) = true)
      (List.flatten [[.enqueue () [2, 0]], List.replicate 4 (.run (.caller ())),
        List.replicate 2 (.run (.worker 0))]) (by decide +kernel)
  obtain ⟨next, hstep, hdecided⟩ := (Option.any_eq_true _ _).mp hassigned
  have hlog := of_decide_eq_true hdecided
  obtain ⟨refused, behind, hsplit, -, hpassed, -⟩ := no_overtaking run hstep hlog
  refine ⟨s, next, hlog, hlist, hpassed 2 ?_⟩
  rw [hlist] at hsplit
  cases refused with
  | nil => cases hsplit
  | cons first rest =>
      obtain ⟨rfl, -⟩ := List.cons.inj hsplit
      exact List.mem_cons_self

end ThreadWeaver.Collection
