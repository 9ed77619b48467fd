import ThreadWeaver.Weaver.Step

/-!
# The state object and the callers

Which steps change the state object of the weaver, and where the threads stand that are in a
call to the queue.  Without `shutDown` the weaver is never destructed.
-/

namespace ThreadWeaver.Weaver

variable {J P T σ ε : Type*}

namespace State

/-- The state object and the positions of the callers. -/
def control (s : State J P T σ ε) : StateId × (T → CallerPc) := (s.stateId, s.caller)

section

variable (s : State J P T σ ε)

@[simp] theorem control_moveTo (thread : ℕ) (pc : WorkerPc J) :
    (s.moveTo thread pc).control = s.control := rfl

@[simp] theorem control_returnTo (thread : ℕ) (pc : WorkerPc J) :
    (s.returnTo thread pc).control = s.control := rfl

@[simp] theorem control_record (event : Event J P ε) : (s.record event).control = s.control := rfl

@[simp] theorem control_reschedule : s.reschedule.control = s.control := rfl

@[simp] theorem control_deleteExpiredThreads : s.deleteExpiredThreads.control = s.control := rfl

@[simp] theorem control_adjustActiveThreadCount (diff : ℤ) :
    (s.adjustActiveThreadCount diff).control = s.control := rfl

@[simp] theorem control_adjustInventory (n : ℕ) : (s.adjustInventory n).control = s.control := by
  unfold adjustInventory
  induction min (s.inventoryMax - s.inventory.length) n with
  | zero => rfl
  | succ k ih =>
      rw [Function.iterate_succ_apply']
      exact ih

theorem control_enterTakeFirst (threadWasBusy : Bool) :
    (s.enterTakeFirst threadWasBusy).control = s.control := by
  unfold enterTakeFirst
  dsimp only
  split <;> simp

@[simp] theorem control_setMaximumNumberOfThreadsP (cap : ℕ) :
    (s.setMaximumNumberOfThreadsP cap).control = s.control := by
  unfold setMaximumNumberOfThreadsP
  rw [control_reschedule]
  split
  · rw [control_adjustInventory]
    rfl
  · rfl

/-- `setState_p` leaves the weaver in the state it is given. -/
theorem control_setStateP (id : StateId) : (s.setStateP id).control = (id, s.caller) := by
  unfold setStateP
  split
  · rename_i heq
    rw [← heq]
    rfl
  · cases id <;> rfl

end

section Keeps

variable [DecidableEq J] (S : Setup J P σ ε) {I : State J P T σ ε → Prop}

/-- What taking a single job out of the list keeps, dequeueing a job keeps, whatever its hook
dequeues. -/
theorem dequeueNested_keeps (htake : ∀ job s, I s → I (s.takeOut job)) (depth : ℕ) (job : J)
    {s : State J P T σ ε} (h : I s) : I (s.dequeueNested S depth job).2 := by
  induction depth generalizing job s with
  | zero =>
      unfold dequeueNested
      split
      · exact htake job s h
      · exact h
  | succ depth ih =>
      have hhook : ∀ (others : List J) {s : State J P T σ ε}, I s →
          I (others.foldl (fun s other => (s.dequeueNested S depth other).2) s) := by
        intro others
        induction others with
        | nil => exact fun h => h
        | cons other rest ihrest => exact fun h => ihrest (ih other h)
      unfold dequeueNested
      split
      · exact htake job _ (hhook _ h)
      · exact h

theorem dequeueP_keeps (htake : ∀ job s, I s → I (s.takeOut job)) (job : J)
    {s : State J P T σ ε} (h : I s) : I (s.dequeueP S job).2 :=
  dequeueNested_keeps S htake _ job h

theorem runHook_keeps (htake : ∀ job s, I s → I (s.takeOut job)) (job : J)
    {s : State J P T σ ε} (h : I s) : I (s.runHook S job) := by
  unfold runHook
  induction S.aboutToBeDequeued job generalizing s with
  | nil => exact h
  | cons other rest ih => exact ih (dequeueP_keeps S htake other h)

theorem dequeueLoop_keeps (htake : ∀ job s, I s → I (s.takeOut job)) (fuel index : ℕ)
    {s : State J P T σ ε} (h : I s) : I (s.dequeueLoop S fuel index) := by
  induction fuel generalizing index s with
  | zero => exact h
  | succ fuel ih =>
      unfold dequeueLoop
      split
      · exact h
      · exact ih _ (runHook_keeps S htake _ h)

end Keeps

section Queue

variable [DecidableEq J] (S : Setup J P σ ε) (s : State J P T σ ε)

@[simp] theorem control_enqueueP (jobs : List (Option J)) :
    (s.enqueueP S jobs).control = s.control := by
  unfold enqueueP
  generalize jobs.length = n
  induction jobs generalizing s with
  | nil => rfl
  | cons head rest ih =>
      refine (ih _).trans ?_
      cases head with
      | none => rfl
      | some job => exact control_adjustInventory s n

@[simp] theorem control_dequeueP (job : J) : (s.dequeueP S job).2.control = s.control :=
  dequeueP_keeps S (I := fun next => next.control = s.control) (fun _ _ h => h) job rfl

@[simp] theorem control_dequeueAllP : (s.dequeueAllP S).control = s.control :=
  dequeueLoop_keeps S (I := fun next => next.control = s.control) (fun _ _ h => h) _ _ rfl

omit [DecidableEq J] in
/-- `takeFirstAvailableJobOrSuspendOrWait` leaves the state object alone or suspends the
weaver. -/
theorem control_takeFirstAvailableJobOrSuspendOrWait (thread : ℕ)
    (threadWasBusy suspendIfInactive justReturning : Bool) :
    let taken := s.takeFirstAvailableJobOrSuspendOrWait S thread threadWasBusy suspendIfInactive
      justReturning
    taken.2.control = s.control ∨
      s.stateId = .suspending ∧ suspendIfInactive ∧ taken.2.control = (.suspended, s.caller) := by
  have hcontrol := s.control_enterTakeFirst threadWasBusy
  unfold takeFirstAvailableJobOrSuspendOrWait
  dsimp only
  generalize s.enterTakeFirst threadWasBusy = s₁ at hcontrol
  split
  · rename_i hsuspend
    right
    have hid : s₁.stateId = s.stateId := congrArg Prod.fst hcontrol
    have hcaller : s₁.caller = s.caller := congrArg Prod.snd hcontrol
    refine ⟨hid ▸ hsuspend.2.2, hsuspend.1, ?_⟩
    rw [control_setStateP, hcaller]
  · left
    split
    · exact hcontrol
    · split
      · exact hcontrol
      · split
        · exact hcontrol
        · exact hcontrol

end Queue

end State

/-! ## Steps -/

section Steps

variable [DecidableEq J] [DecidableEq P] {S : Setup J P σ ε} {s next : State J P T σ ε}

omit [DecidableEq P] in
/-- A worker changes the state object only to suspend a weaver that is suspending. -/
theorem workerStep_control {thread : ℕ} (hstep : workerStep S thread s = some next) :
    next.control = s.control ∨
      s.stateId = .suspending ∧ next.control = (.suspended, s.caller) := by
  unfold workerStep at hstep
  split at hstep
  case h_3 wasBusy _ =>
      -- the working weaver
      rw [Option.ite_none_right_eq_some] at hstep
      rw [← Option.some.inj hstep.2]
      have htake := s.control_takeFirstAvailableJobOrSuspendOrWait S thread wasBusy false false
      have hcontrol : (s.workingHardApplyForWork S thread wasBusy).control =
          (s.takeFirstAvailableJobOrSuspendOrWait S thread wasBusy false false).2.control := by
        unfold State.workingHardApplyForWork
        dsimp only
        split <;> rfl
      rw [hcontrol]
      exact htake.imp_right fun h => ⟨h.1, h.2.2⟩
  case h_4 wasBusy _ =>
      -- the suspending weaver
      rw [Option.ite_none_right_eq_some] at hstep
      rw [← Option.some.inj hstep.2]
      have htake := s.control_takeFirstAvailableJobOrSuspendOrWait S thread wasBusy true true
      have hcontrol : (s.suspendingApplyForWork S thread wasBusy).control =
          (s.takeFirstAvailableJobOrSuspendOrWait S thread wasBusy true true).2.control := by
        unfold State.suspendingApplyForWork
        dsimp only
        split <;> rfl
      rw [hcontrol]
      exact htake.imp_right fun h => ⟨h.1, h.2.2⟩
  case h_17 =>
      split at hstep <;> exact .inl (Option.some.inj hstep ▸ rfl)
  all_goals first
    | exact .inl (Option.some.inj hstep ▸ rfl)
    | cases hstep

/-! ## The weaver is not destructed -/

/-- The caller is not in a call that destructs the weaver. -/
def CallerPc.keepsQueue : CallerPc → Bool
  | .shutDown _ => false
  | .setState id => id ≠ .destructed
  | .idle | .reschedule | .finish => true

variable [DecidableEq T]

omit [DecidableEq J] [DecidableEq P] in
theorem control_beginCall {caller : T} {pc : CallerPc} (h : beginCall caller pc s = some next) :
    s.caller caller = .idle ∧ next.control = (s.stateId, Function.update s.caller caller pc) := by
  unfold beginCall at h
  split at h
  · rename_i hidle
    rw [← Option.some.inj h]
    exact ⟨hidle, rfl⟩
  · cases h

/-- The weaver can be used, and no thread is shutting it down. -/
structure State.Usable (s : State J P T σ ε) : Prop where
  not_destructed : s.stateId ≠ .destructed
  keepsQueue : ∀ caller, (s.caller caller).keepsQueue

omit [DecidableEq J] [DecidableEq P] in
private theorem usable_update (h : s.Usable) {caller : T} (pc : CallerPc) (hpc : pc.keepsQueue)
    {id : StateId} (hid : id ≠ .destructed)
    (hcontrol : next.control = (id, Function.update s.caller caller pc)) : next.Usable := by
  have hstateId : next.stateId = id := congrArg Prod.fst hcontrol
  have hcaller : next.caller = Function.update s.caller caller pc := congrArg Prod.snd hcontrol
  refine ⟨hstateId ▸ hid, fun other => ?_⟩
  rw [hcaller, Function.update_apply]
  split
  · exact hpc
  · exact h.keepsQueue other

omit [DecidableEq J] [DecidableEq P] [DecidableEq T] in
private theorem usable_of_control_eq (h : s.Usable) (hcontrol : next.control = s.control) :
    next.Usable := by
  have hstateId : next.stateId = s.stateId := congrArg Prod.fst hcontrol
  have hcaller : next.caller = s.caller := congrArg Prod.snd hcontrol
  exact ⟨hstateId ▸ h.not_destructed, hcaller ▸ h.keepsQueue⟩

omit [DecidableEq J] [DecidableEq P] [DecidableEq T] in
private theorem control_unlessDestructed {f : State J P T σ ε → State J P T σ ε}
    (h : (f s).control = s.control) : (unlessDestructed f s).control = s.control := by
  unfold unlessDestructed
  split
  · rfl
  · exact h

/-- The step begins to shut the weaver down. -/
def Act.isShutDown : Act J P T ε → Bool
  | .shutDown _ => true
  | _ => false

/-- The weaver stays usable as long as nobody begins to shut it down. -/
theorem State.Usable.step (h : s.Usable) {action : Act J P T ε}
    (haction : action.isShutDown = false) (hstep : step S s action = some next) :
    next.Usable := by
  cases action with
  | enqueue jobs =>
      rw [← Option.some.inj hstep]
      exact usable_of_control_eq h (control_unlessDestructed (State.control_enqueueP S s jobs))
  | dequeue job =>
      rw [← Option.some.inj hstep, State.dequeue_snd]
      exact usable_of_control_eq h (control_unlessDestructed (State.control_dequeueP S s job))
  | dequeueAll =>
      rw [← Option.some.inj hstep]
      exact usable_of_control_eq h (control_unlessDestructed (State.control_dequeueAllP S s))
  | setMaximumNumberOfThreads cap =>
      rw [← Option.some.inj hstep]
      exact usable_of_control_eq h
        (control_unlessDestructed (State.control_setMaximumNumberOfThreadsP s cap))
  | requestAbort =>
      rw [← Option.some.inj hstep]
      exact usable_of_control_eq h (control_unlessDestructed rfl)
  | reschedule =>
      rw [← Option.some.inj hstep]
      exact usable_of_control_eq h rfl
  | suspend caller =>
      refine usable_update h _ ?_ h.not_destructed (control_beginCall hstep).2
      split <;> rfl
  | resume caller =>
      refine usable_update h _ ?_ h.not_destructed (control_beginCall hstep).2
      split <;> rfl
  | finish caller =>
      refine usable_update h _ ?_ h.not_destructed (control_beginCall hstep).2
      split <;> rfl
  | shutDown caller => cases haction
  | configure caller ops =>
      obtain ⟨begun, hbegun, rfl⟩ := Option.map_eq_some_iff.mp hstep
      exact usable_update h .reschedule rfl h.not_destructed (control_beginCall hbegun).2
  | configureFromJob thread ops =>
      simp only [Weaver.step] at hstep
      split at hstep
      · rw [← Option.some.inj hstep]
        exact usable_of_control_eq h rfl
      · cases hstep
  | proceed caller =>
      have hkeeps := h.keepsQueue caller
      simp only [Weaver.step, callerStep] at hstep
      split at hstep
      · cases hstep
      · rename_i id hcaller
        rw [hcaller] at hkeeps
        rw [← Option.some.inj hstep]
        exact usable_update h .idle rfl (of_decide_eq_true hkeeps)
          (State.control_setStateP _ id)
      · rw [← Option.some.inj hstep]
        exact usable_update h .idle rfl h.not_destructed rfl
      · rw [Option.ite_none_right_eq_some] at hstep
        rw [← Option.some.inj hstep.2]
        exact usable_update h .idle rfl h.not_destructed rfl
      · rename_i rest hcaller
        rw [hcaller] at hkeeps
        cases hkeeps
  | timeout caller =>
      simp only [Weaver.step, Option.ite_none_right_eq_some, Option.some.injEq] at hstep
      exact usable_of_control_eq h (hstep.2 ▸ rfl)
  | worker thread =>
      simp only [Weaver.step, Option.ite_none_right_eq_some] at hstep
      rcases workerStep_control hstep.2 with hcontrol | ⟨_, hcontrol⟩
      · exact usable_of_control_eq h hcontrol
      · have hcaller : next.caller = s.caller := congrArg Prod.snd hcontrol
        have hstateId : next.stateId = .suspended := congrArg Prod.fst hcontrol
        exact ⟨by simp [hstateId], hcaller ▸ h.keepsQueue⟩

/-- In a run in which nobody shuts the weaver down it is never destructed. -/
theorem runs_usable {ok : State J P T σ ε → Act J P T ε → Prop} {start : Start J P σ}
    (hok : ∀ s action, ok s action → action.isShutDown = false)
    (hrun : Runs S ok start s) : s.Usable :=
  hrun.invariant (I := State.Usable) ⟨by simp [init], fun _ => rfl⟩
    fun _ _ _ h haction hstep => h.step (hok _ _ haction) hstep

end Steps

end ThreadWeaver.Weaver
