import ThreadWeaver.Weaver.Inventory

/-!
# Shutting down

`suspend` and `resume` decide about a transition when they read the state pointer, and make
it later.  When nobody stands in between as the weaver enters `ShuttingDown`, it goes on to
`Destructed` and nowhere else, because from then on the state objects ignore both.
-/

namespace ThreadWeaver.Weaver

variable {J P T σ ε : Type*}

/-- The weaver has entered `ShuttingDown`, and not yet `Destructed`. -/
def ShutDownPc.isLate : ShutDownPc → Bool
  | .acquire | .finish | .suspend | .setSuspending | .setShuttingDown => false
  | .reschedule | .collect | .join _ | .setDestructed => true

/-- The caller has read the state pointer and is about to change the state object. -/
def CallerPc.isStale : CallerPc → Bool
  | setState _ => true
  | _ => false

/-- One thread shuts the weaver down. -/
def OneShutDown (s : State J P T σ ε) (action : Act J P T ε) : Prop :=
  action.isShutDown → ∀ caller, (s.caller caller).shutsDown = false

instance [Fintype T] (s : State J P T σ ε) (action : Act J P T ε) :
    Decidable (OneShutDown s action) :=
  inferInstanceAs (Decidable (_ → ∀ _, _))

/-- No call of `suspend` or `resume` is under way when the weaver enters `ShuttingDown`. -/
def EntersUndisturbed (s : State J P T σ ε) (action : Act J P T ε) : Prop :=
  OneShutDown s action ∧
    ∀ caller, action = .proceed caller → s.caller caller = .shutDown .setShuttingDown →
      ∀ other, (s.caller other).isStale = false

instance [Fintype T] [DecidableEq J] [DecidableEq P] [DecidableEq T] [DecidableEq ε]
    (s : State J P T σ ε) (action : Act J P T ε) : Decidable (EntersUndisturbed s action) :=
  inferInstanceAs (Decidable (_ ∧ ∀ _, _))

/-- At most one thread shuts the weaver down, it has done so as far as the state object says,
and nobody is about to change the state object any more. -/
structure State.Closing (s : State J P T σ ε) : Prop where
  alone : ∀ caller other, (s.caller caller).shutsDown → (s.caller other).shutsDown →
    caller = other
  late : ∀ caller rest, s.caller caller = .shutDown rest → rest.isLate →
    s.stateId = .shuttingDown
  closing : s.stateId = .shuttingDown →
    ∃ caller rest, s.caller caller = .shutDown rest ∧ rest.isLate
  closed : s.stateId = .destructed → ∀ caller, (s.caller caller).shutsDown = false
  settled : s.stateId = .shuttingDown ∨ s.stateId = .destructed →
    ∀ caller, (s.caller caller).isStale = false
  requests : ∀ caller id, s.caller caller = .setState id → id = .workingHard ∨ id = .suspending

/-- The state object has not been taken back. -/
def State.Onward (s next : State J P T σ ε) : Prop :=
  (s.stateId = .shuttingDown → next.stateId = .shuttingDown ∨ next.stateId = .destructed) ∧
    (s.stateId = .destructed → next.stateId = .destructed)

theorem State.Onward.trans {s mid next : State J P T σ ε} (hmid : s.Onward mid)
    (hnext : mid.Onward next) : s.Onward next := by
  refine ⟨fun hid => ?_, fun hid => hnext.2 (hmid.2 hid)⟩
  rcases hmid.1 hid with hshutting | hdestructed
  · exact hnext.1 hshutting
  · exact .inr (hnext.2 hdestructed)

section Steps

variable [DecidableEq J] [DecidableEq P] [DecidableEq T] {S : Setup J P σ ε}
  {start : Start J P σ} {s next : State J P T σ ε} {action : Act J P T ε}

omit [DecidableEq J] [DecidableEq P] [DecidableEq T] in
private theorem closing_of_control_eq (h : s.Closing) (hcontrol : next.control = s.control) :
    next.Closing ∧ s.Onward next := by
  have hid : next.stateId = s.stateId := congrArg Prod.fst hcontrol
  have hcaller : next.caller = s.caller := congrArg Prod.snd hcontrol
  refine ⟨⟨hcaller ▸ h.alone, ?_, ?_, ?_, ?_, hcaller ▸ h.requests⟩, ?_⟩
  · rw [hid, hcaller]
    exact h.late
  · rw [hid, hcaller]
    exact h.closing
  · rw [hid, hcaller]
    exact h.closed
  · rw [hid, hcaller]
    exact h.settled
  · exact ⟨fun h => .inl (hid.trans h), fun h => hid.trans h⟩

omit [DecidableEq J] [DecidableEq P] in
/-- A caller that is not in `shutDown` begins or ends another call. -/
private theorem closing_of_caller (h : s.Closing) {caller : T} {pc : CallerPc}
    (hbefore : (s.caller caller).shutsDown = false) (hpc : pc.shutsDown = false)
    (hid : next.stateId = s.stateId) (hcaller : next.caller = Function.update s.caller caller pc)
    (hstale : pc.isStale → ¬ (s.stateId = .shuttingDown ∨ s.stateId = .destructed))
    (hrequests : ∀ id, pc = .setState id → id = .workingHard ∨ id = .suspending) :
    next.Closing ∧ s.Onward next := by
  have hother : ∀ {other rest}, next.caller other = .shutDown rest →
      s.caller other = .shutDown rest := by
    intro other rest hother
    rw [hcaller, Function.update_apply] at hother
    split at hother
    · rw [hother] at hpc
      cases hpc
    · exact hother
  have hshuts : ∀ {other}, (next.caller other).shutsDown → (s.caller other).shutsDown := by
    intro other hshuts
    cases hat : next.caller other <;> rw [hat] at hshuts <;> try cases hshuts
    rw [hother hat]
    rfl
  refine ⟨⟨fun _ _ h₁ h₂ => h.alone _ _ (hshuts h₁) (hshuts h₂), ?_, ?_, ?_, ?_, ?_⟩, ?_⟩
  · exact fun other rest hat hlate => hid.trans (h.late other rest (hother hat) hlate)
  · intro hshutting
    obtain ⟨other, rest, hat, hlate⟩ := h.closing (hid.symm.trans hshutting)
    refine ⟨other, rest, ?_, hlate⟩
    have hne : other ≠ caller := by
      rintro rfl
      rw [hat] at hbefore
      cases hbefore
    rw [hcaller, Function.update_of_ne hne, hat]
  · intro hdestructed other
    have hnone := h.closed (hid.symm.trans hdestructed) other
    exact Bool.eq_false_iff.mpr fun hyes => by simp [hshuts hyes] at hnone
  · intro hover other
    rw [hid] at hover
    rw [hcaller, Function.update_apply]
    split
    · exact Bool.eq_false_iff.mpr fun hyes => hstale hyes hover
    · exact h.settled hover other
  · intro other id hat
    rw [hcaller, Function.update_apply] at hat
    split at hat
    · exact hrequests id hat
    · exact h.requests other id hat
  · exact ⟨fun h => .inl (hid.trans h), fun h => hid.trans h⟩

omit [DecidableEq J] [DecidableEq P] in
/-- The thread that shuts the weaver down takes a step. -/
private theorem closing_of_shutDown (h : s.Closing) {caller : T} {pc : CallerPc}
    (hothers : ∀ other, other ≠ caller → (s.caller other).shutsDown = false)
    (hcaller : next.caller = Function.update s.caller caller pc)
    (hlate : next.stateId = .shuttingDown ↔ ∃ later, pc = .shutDown later ∧ later.isLate)
    (hclosed : next.stateId = .destructed → pc.shutsDown = false) (hpc : pc.isStale = false)
    (hsettled : next.stateId = .shuttingDown ∨ next.stateId = .destructed →
      ∀ other, (s.caller other).isStale = false) : next.Closing := by
  have hself : ∀ {other}, (next.caller other).shutsDown → other = caller := by
    intro other hyes
    by_contra hne
    rw [hcaller, Function.update_of_ne hne, hothers other hne] at hyes
    cases hyes
  refine ⟨fun _ _ h₁ h₂ => (hself h₁).trans (hself h₂).symm, ?_, ?_, ?_, ?_, ?_⟩
  · intro other later hat hislate
    obtain rfl := hself (by rw [hat]; rfl : (next.caller other).shutsDown = true)
    rw [hcaller, Function.update_self] at hat
    exact hlate.mpr ⟨later, hat, hislate⟩
  · intro hshutting
    obtain ⟨later, hat, hislate⟩ := hlate.mp hshutting
    exact ⟨caller, later, by rw [hcaller, Function.update_self, hat], hislate⟩
  · intro hdestructed other
    rw [hcaller, Function.update_apply]
    split
    · exact hclosed hdestructed
    · rename_i hne
      exact hothers other hne
  · intro hover other
    rw [hcaller, Function.update_apply]
    split
    · exact hpc
    · exact hsettled hover other
  · intro other id hat
    rw [hcaller, Function.update_apply] at hat
    split at hat
    · rw [hat] at hpc
      cases hpc
    · exact h.requests other id hat

omit [DecidableEq J] [DecidableEq P] [DecidableEq T] in
/-- Before the weaver enters `ShuttingDown` it is in another state. -/
private theorem not_over_of_early (h : s.Closing) {caller : T} {rest : ShutDownPc}
    (hcaller : s.caller caller = .shutDown rest) (hearly : rest.isLate = false) :
    s.stateId ≠ .shuttingDown ∧ s.stateId ≠ .destructed := by
  have hshuts : (s.caller caller).shutsDown := by
    rw [hcaller]
    rfl
  constructor
  · intro hid
    obtain ⟨other, later, hother, hlate⟩ := h.closing hid
    obtain rfl := h.alone caller other hshuts (by rw [hother]; rfl)
    rw [hcaller] at hother
    cases hother
    rw [hearly] at hlate
    cases hlate
  · intro hid
    rw [h.closed hid caller] at hshuts
    cases hshuts

omit [DecidableEq P] in
private theorem State.Closing.shutDownStep (h : s.Closing) {caller : T} {rest : ShutDownPc}
    (hcaller : s.caller caller = .shutDown rest)
    (hundisturbed : rest = .setShuttingDown → ∀ other, (s.caller other).isStale = false)
    (hstep : Weaver.shutDownStep caller s rest = some next) : next.Closing ∧ s.Onward next := by
  have hothers : ∀ other, other ≠ caller → (s.caller other).shutsDown = false := by
    intro other hne
    refine Bool.eq_false_iff.mpr fun hyes => hne ?_
    exact h.alone other caller hyes (by rw [hcaller]; rfl)
  -- the state object stays, and the thread is as late as it was
  have hsame : ∀ {next : State J P T σ ε} {later : ShutDownPc}, next.stateId = s.stateId →
      next.caller = Function.update s.caller caller (.shutDown later) →
      later.isLate = rest.isLate → next.Closing ∧ s.Onward next := by
    intro next later hid hnext hsame
    refine ⟨closing_of_shutDown h hothers hnext ?_ ?_ rfl ?_, ?_⟩
    · rw [hid]
      constructor
      · intro hshutting
        refine ⟨later, rfl, ?_⟩
        by_contra hearly
        rw [hsame, Bool.not_eq_true] at hearly
        exact (not_over_of_early h hcaller hearly).1 hshutting
      · rintro ⟨_, heq, hlate⟩
        cases heq
        exact h.late caller rest hcaller (hsame ▸ hlate)
    · intro hdestructed
      have hnone := h.closed (hid ▸ hdestructed) caller
      rw [hcaller] at hnone
      cases hnone
    · exact fun hover => h.settled (hid ▸ hover)
    · exact ⟨fun h => .inl (hid.trans h), fun h => hid.trans h⟩
  cases rest with
  | acquire | finish =>
      simp only [Weaver.shutDownStep, Option.ite_none_right_eq_some, Option.some.injEq] at hstep
      rw [← hstep.2]
      exact hsame rfl rfl rfl
  | suspend =>
      rw [← Option.some.inj hstep]
      refine hsame rfl rfl ?_
      split <;> rfl
  | setSuspending =>
      rw [← Option.some.inj hstep]
      have hnot := not_over_of_early h hcaller rfl
      refine ⟨closing_of_shutDown h hothers (State.caller_setStateP _ _) ?_ ?_ rfl ?_, ?_⟩
      · simp [ShutDownPc.isLate]
      · simp
      · simp
      · exact ⟨fun h => absurd h hnot.1, fun h => absurd h hnot.2⟩
  | setShuttingDown =>
      rw [← Option.some.inj hstep]
      have hnot := not_over_of_early h hcaller rfl
      refine ⟨closing_of_shutDown h hothers (State.caller_setStateP _ _) ?_ ?_ rfl ?_, ?_⟩
      · simp [ShutDownPc.isLate]
      · simp
      · exact fun _ => hundisturbed rfl
      · exact ⟨fun h => absurd h hnot.1, fun h => absurd h hnot.2⟩
  | reschedule =>
      rw [← Option.some.inj hstep]
      exact hsame rfl rfl rfl
  | collect =>
      simp only [Weaver.shutDownStep] at hstep
      split at hstep
      · rw [← Option.some.inj hstep]
        exact hsame rfl rfl rfl
      · rw [← Option.some.inj hstep]
        exact hsame rfl rfl rfl
  | join thread =>
      simp only [Weaver.shutDownStep] at hstep
      split at hstep
      · rw [← Option.some.inj hstep]
        exact hsame rfl rfl rfl
      · rw [← Option.some.inj hstep]
        exact closing_of_control_eq h rfl
  | setDestructed =>
      rw [← Option.some.inj hstep]
      have hshutting := h.late caller _ hcaller rfl
      refine ⟨closing_of_shutDown h hothers (State.caller_setStateP _ _) ?_ ?_ rfl ?_, ?_⟩
      · simp
      · exact fun _ => rfl
      · exact fun _ => h.settled (.inl hshutting)
      · exact ⟨fun _ => .inr (State.stateId_setStateP _ _), fun _ => State.stateId_setStateP _ _⟩

omit [DecidableEq J] [DecidableEq P] [DecidableEq T] in
/-- The state object changes between states in which the weaver is not over. -/
private theorem closing_of_change (h : s.Closing)
    (hbefore : ¬ (s.stateId = .shuttingDown ∨ s.stateId = .destructed))
    (hafter : ¬ (next.stateId = .shuttingDown ∨ next.stateId = .destructed))
    (hcaller : ∀ caller, next.caller caller = s.caller caller ∨ next.caller caller = .idle) :
    next.Closing ∧ s.Onward next := by
  rw [not_or] at hbefore hafter
  have hshuts : ∀ {caller rest}, next.caller caller = .shutDown rest →
      s.caller caller = .shutDown rest := by
    intro caller rest hat
    rcases hcaller caller with hsame | hidle
    · exact hsame ▸ hat
    · rw [hidle] at hat
      cases hat
  refine ⟨⟨?_, ?_, ?_, ?_, ?_, ?_⟩, fun h => absurd h hbefore.1, fun h => absurd h hbefore.2⟩
  · intro caller other hyes hyes'
    refine h.alone caller other ?_ ?_
    · rcases hcaller caller with hsame | hidle
      · exact hsame ▸ hyes
      · rw [hidle] at hyes
        cases hyes
    · rcases hcaller other with hsame | hidle
      · exact hsame ▸ hyes'
      · rw [hidle] at hyes'
        cases hyes'
  · exact fun caller rest hat hlate =>
      absurd (h.late caller rest (hshuts hat) hlate) hbefore.1
  · exact fun hid => absurd hid hafter.1
  · exact fun hid => absurd hid hafter.2
  · exact fun hover => (hover.elim hafter.1 hafter.2).elim
  · intro caller id hat
    rcases hcaller caller with hsame | hidle
    · exact h.requests caller id (hsame ▸ hat)
    · rw [hidle] at hat
      cases hat

theorem State.Closing.step (h : s.Closing) (hok : EntersUndisturbed s action)
    (hstep : Weaver.step S s action = some next) : next.Closing ∧ s.Onward next := by
  cases step_turn hstep with
  | enqueue jobs _ =>
      obtain ⟨k, hcall⟩ := s.queueCall_enqueueP S jobs
      exact closing_of_control_eq h (Prod.ext hcall.stateId hcall.caller)
  | call hcall _ _ => exact closing_of_control_eq h (Prod.ext hcall.stateId hcall.caller)
  | resize cap _ =>
      obtain ⟨k, hcall, -⟩ := s.queueCall_setMaximumNumberOfThreadsP cap
      exact closing_of_control_eq h (Prod.ext hcall.stateId hcall.caller)
  | @begin _ caller pc _ hbegins hbegun =>
      have hidle : (s.caller caller).shutsDown = false := by
        rw [hbegun.idle]
        rfl
      rcases Act.begins_pc hbegins with rfl | rfl | rfl | ⟨rfl, hid⟩ | ⟨rfl, hid⟩ | ⟨rfl, rfl, hid⟩
      · exact closing_of_caller h hidle rfl hbegun.stateId hbegun.caller (by simp [CallerPc.isStale])
          (by simp)
      · exact closing_of_caller h hidle rfl hbegun.stateId hbegun.caller (by simp [CallerPc.isStale])
          (by simp)
      · exact closing_of_caller h hidle rfl hbegun.stateId hbegun.caller (by simp [CallerPc.isStale])
          (by simp)
      · exact closing_of_caller h hidle rfl hbegun.stateId hbegun.caller (fun _ => by simp [hid])
          (by simp)
      · exact closing_of_caller h hidle rfl hbegun.stateId hbegun.caller
          (fun _ => by rcases hid with hid | hid <;> simp [hid]) (by simp)
      · -- the only thread that shuts the weaver down begins
        rw [not_or] at hid
        refine ⟨closing_of_shutDown h (fun other _ => hok.1 rfl other) hbegun.caller ?_ ?_ rfl ?_,
          ?_⟩
        · simp [hbegun.stateId, hid.1, ShutDownPc.isLate]
        · exact fun hdestructed => absurd (hbegun.stateId ▸ hdestructed) hid.2
        · rw [hbegun.stateId]
          exact h.settled
        · exact ⟨fun h => absurd h hid.1, fun h => absurd h hid.2⟩
  | @setState caller id hcaller =>
      refine closing_of_change h (fun hover => ?_) ?_ fun other => ?_
      · have hsettled := h.settled hover caller
        rw [hcaller] at hsettled
        cases hsettled
      · rw [State.stateId_setStateP]
        rcases h.requests caller id hcaller with rfl | rfl <;> simp
      · rw [State.caller_setStateP]
        by_cases hself : other = caller
        · exact .inr (by simp [State.setCaller, hself])
        · exact .inl (by simp [State.setCaller, hself])
  | @reschedule caller hcaller =>
      exact closing_of_caller h (by rw [hcaller]; rfl) rfl rfl rfl (by simp [CallerPc.isStale])
        (by simp)
  | @finish caller hcaller _ =>
      exact closing_of_caller h (by rw [hcaller]; rfl) rfl rfl rfl (by simp [CallerPc.isStale])
        (by simp)
  | @shutDown caller rest _ hcaller hstep =>
      refine h.shutDownStep hcaller ?_ hstep
      rintro rfl
      exact hok.2 caller rfl hcaller
  | worker hthread hturn =>
      simp only [Weaver.step, Option.ite_none_right_eq_some] at hstep
      rcases workerStep_control hstep.2 with hcontrol | ⟨hid, hcontrol⟩
      · exact closing_of_control_eq h hcontrol
      · have hsuspended : next.stateId = .suspended := congrArg Prod.fst hcontrol
        have hcaller : next.caller = s.caller := congrArg Prod.snd hcontrol
        exact closing_of_change h (by simp [hid]) (by simp [hsuspended])
          fun caller => .inl (congrFun hcaller caller)

theorem runs_closing (hrun : Runs S EntersUndisturbed start s) : s.Closing := by
  refine hrun.invariant (I := State.Closing) ?_ fun _ _ _ h hok hstep => (h.step hok hstep).1
  refine ⟨?_, ?_, ?_, ?_, fun _ _ => rfl, ?_⟩
  · intro caller other hyes
    cases hyes
  · intro caller rest hat
    cases hat
  · intro hid
    cases hid
  · intro hid
    cases hid
  · intro caller id hat
    cases hat

/-- **Shutting down is final** when no call of `suspend` or `resume` is under way as the weaver
enters `ShuttingDown`: from there it gets only to `Destructed`, which it does not leave, and
the threads are collected in `ShuttingDown`. -/
theorem shutDown_final (hrun : Runs S EntersUndisturbed start s)
    (hlater : Library.RunWhere (Weaver.step S) EntersUndisturbed s next) :
    (s.stateId = .shuttingDown → next.stateId = .shuttingDown ∨ next.stateId = .destructed) ∧
      (s.stateId = .destructed → next.stateId = .destructed) ∧
      ∀ caller thread, s.caller caller = .shutDown (.join thread) → s.stateId = .shuttingDown := by
  have honward : next.Closing ∧ s.Onward next := by
    induction hlater with
    | refl => exact ⟨runs_closing hrun, .inl, id⟩
    | tail _ hok hstep ih =>
        obtain ⟨hclosing, hmid⟩ := ih
        obtain ⟨hclosing', hlast⟩ := hclosing.step hok hstep
        exact ⟨hclosing', hmid.trans hlast⟩
  exact ⟨honward.2.1, honward.2.2, fun caller thread hcaller =>
    (runs_closing hrun).late caller _ hcaller rfl⟩

/-- Where the condition fails, the weaver leaves `ShuttingDown` for the state object that another
call is about to set. -/
theorem shutDown_left {caller other : T} {id : StateId} (hne : other ≠ caller)
    (hcaller : s.caller caller = .shutDown .setShuttingDown)
    (hother : s.caller other = .setState id) :
    ∃ mid last, Weaver.step S s (.proceed caller) = some mid ∧ mid.stateId = .shuttingDown ∧
      Weaver.step S mid (.proceed other) = some last ∧ last.stateId = id := by
  let mid := State.setStateP .shuttingDown (s.setCaller caller (.shutDown .reschedule))
  have hmid : mid.caller other = .setState id := by
    rw [State.caller_setStateP]
    simp [State.setCaller, hne, hother]
  refine ⟨mid, State.setStateP id (mid.setCaller other .idle), ?_, ?_, ?_, ?_⟩
  · simp only [Weaver.step, callerStep, hcaller, shutDownStep]
    rfl
  · exact State.stateId_setStateP _ _
  · simp only [Weaver.step, callerStep, hmid]
  · exact State.stateId_setStateP _ _

end Steps

/-- One thread shuts the weaver down while another one suspends and resumes it, before and after
the weaver has entered `ShuttingDown`. -/
theorem shutDown_final_destructed : ∃ s next : State ℕ Unit Bool (Unit → ℕ) Empty,
    s.caller false = .shutDown (.join 0) ∧ .stateChanged .suspending ∈ s.log ∧
      .stateChanged .workingHard ∈ s.log ∧ s.stateId = .shuttingDown ∧
      (next.stateId = .shuttingDown ∨ next.stateId = .destructed) ∧
      next.log.getLast? = some (.stateChanged .destructed) := by
  obtain ⟨s, next, hrun, ⟨hcaller, hsuspending, hresumed⟩, hlater, hlog⟩ :
      ∃ s next : State ℕ Unit Bool (Unit → ℕ) Empty,
        Runs numbered EntersUndisturbed (.plain fun _ => 0) s ∧ _ ∧
          Library.RunWhere (step numbered) EntersUndisturbed s next ∧ _ :=
    Library.exists_runWhere_later
      (fun s => s.caller false = .shutDown (.join 0) ∧ .stateChanged .suspending ∈ s.log ∧
        .stateChanged .workingHard ∈ s.log)
      (fun s => s.log.getLast? = some (.stateChanged .destructed))
      [.setMaximumNumberOfThreads 1, .enqueue [some 0], .dequeue 0, .worker 0, .worker 0,
        .worker 0, .suspend true, .shutDown false, .proceed true, .proceed false, .resume true,
        .proceed true, .proceed false, .proceed false, .proceed false, .resume true,
        .proceed true, .proceed false, .suspend true, .proceed false, .proceed false]
      [.resume true, .worker 0, .worker 0, .worker 0, .proceed false, .proceed false,
        .proceed false] (by decide)
  obtain ⟨honward, -, hassertion⟩ := shutDown_final hrun hlater
  have hid := hassertion false 0 hcaller
  exact ⟨s, next, hcaller, hsuspending, hresumed, hid, honward hid, hlog⟩

/-- **A stale suspension takes the weaver out of `ShuttingDown`.**  `suspend` has read the
pointer to `WorkingHard`, the weaver enters `ShuttingDown`, and the suspension is made while
the threads are collected. -/
theorem shutDown_undone : ∃ s next : State ℕ Unit Bool (Unit → ℕ) Empty,
    Runs numbered OneShutDown (.plain fun _ => 0) s ∧ s.stateId = .shuttingDown ∧
      Library.RunWhere (step numbered) OneShutDown s next ∧ next.stateId = .suspending ∧
      next.caller false = .shutDown (.join 0) := by
  obtain ⟨s, next, hrun, hid, hlater, hnext, hcaller⟩ :
      ∃ s next : State ℕ Unit Bool (Unit → ℕ) Empty,
        Runs numbered OneShutDown (.plain fun _ => 0) s ∧ _ ∧
          Library.RunWhere (step numbered) OneShutDown s next ∧ _ :=
    Library.exists_runWhere_later
      (fun s => s.stateId = .shuttingDown)
      (fun s => s.stateId = .suspending ∧ s.caller false = .shutDown (.join 0))
      [.setMaximumNumberOfThreads 1, .enqueue [some 0], .dequeue 0, .worker 0, .worker 0,
        .worker 0, .suspend true, .shutDown false, .proceed false, .proceed false,
        .proceed false, .proceed false, .proceed false]
      [.proceed false, .proceed false, .proceed true] (by decide)
  exact ⟨s, next, hrun, hid, hlater, hnext, hcaller⟩

end ThreadWeaver.Weaver
