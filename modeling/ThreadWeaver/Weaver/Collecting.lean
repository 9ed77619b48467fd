import ThreadWeaver.Weaver.ShutDown

/-!
# Collecting the threads

Every thread the weaver has created is in the inventory, in the list of expired threads, in
the hands of the thread that shuts the weaver down, or deleted, and in one of these places
only.  The shutdown empties the inventory and leaves the expired threads where they are.
-/

namespace ThreadWeaver.Weaver

variable {J P T σ ε : Type*}

/-- The call suspends or resumes the weaver. -/
def Act.requestsState : Act J P T ε → Bool
  | .suspend _ | .resume _ => true
  | _ => false

/-- The call creates threads or shuts the weaver down. -/
def Act.changesCrew : Act J P T ε → Bool
  | .enqueue _ | .setMaximumNumberOfThreads _ | .shutDown _ => true
  | _ => false

/-- Nobody suspends or resumes, and while a thread shuts the weaver down no other does, nothing
is enqueued and the maximum stays. -/
def ShutsDownAlone (s : State J P T σ ε) (action : Act J P T ε) : Prop :=
  action.requestsState = false ∧
    (action.changesCrew → ∀ caller, (s.caller caller).shutsDown = false)

instance [Fintype T] (s : State J P T σ ε) (action : Act J P T ε) :
    Decidable (ShutsDownAlone s action) :=
  inferInstanceAs (Decidable (_ ∧ (_ → ∀ _, _)))

namespace State

variable {s next : State J P T σ ε}

/-- The thread has been waited for and deleted once. -/
def Collected (s : State J P T σ ε) (thread : ℕ) : Prop :=
  (s.worker thread).pc = .exited ∧ s.deletedThreads.count thread = 1

/-- Where the threads are; those in `joining` have been taken from the inventory and are waited
for. -/
structure Places (s : State J P T σ ε) (joining : List ℕ) : Prop where
  places : (s.inventory ++ joining ++ s.gone).Perm
    (List.range s.createdThreads)
  joined : ∀ caller thread, s.caller caller = .shutDown (.join thread) → joining = [thread]
  joins : ∀ thread ∈ joining, ∃ caller, s.caller caller = .shutDown (.join thread)
  finished : ∀ thread ∈ s.gone, (s.worker thread).pc = .exited
  emptied : ∀ caller, s.caller caller = .shutDown .setDestructed → s.inventory = []

end State

section Steps

variable [DecidableEq J] [DecidableEq P] [DecidableEq T] {S : Setup J P σ ε}
  {start : Start J P σ} {s next : State J P T σ ε} {action : Act J P T ε} {joining : List ℕ}

omit [DecidableEq J] [DecidableEq P] [DecidableEq T] in
/-- Threads are hired or the expired ones deleted, and nobody takes a thread from the
inventory. -/
private theorem State.Places.of_hires (h : s.Places joining) {k : ℕ}
    (hhires : State.Hires k next s) (hgone : next.gone.Perm s.gone)
    (hexited : ∀ thread, (s.worker thread).pc = .exited → (next.worker thread).pc = .exited)
    (hjoin : ∀ caller thread,
      next.caller caller = .shutDown (.join thread) ↔ s.caller caller = .shutDown (.join thread))
    (hemptied : ∀ caller, next.caller caller = .shutDown .setDestructed → next.inventory = []) :
    next.Places joining where
  places := by
    have hold := h.places
    rw [List.perm_iff_count] at hold hgone ⊢
    intro thread
    have hold := hold thread
    have hgone := hgone thread
    rw [hhires.inventory, hhires.createdThreads, List.range_eq_range', List.range'_append_1.symm,
      ← List.range_eq_range']
    simp only [List.count_append, Nat.zero_add] at hold hgone ⊢
    omega
  joined caller thread hat := h.joined caller thread ((hjoin caller thread).mp hat)
  joins thread hthread := by
    obtain ⟨caller, hat⟩ := h.joins thread hthread
    exact ⟨caller, (hjoin caller thread).mpr hat⟩
  finished thread hthread := hexited thread (h.finished thread (hgone.mem_iff.mp hthread))
  emptied := hemptied

omit [DecidableEq J] [DecidableEq P] in
private theorem joins_update {caller : T} {pc : CallerPc}
    (hcaller : next.caller = Function.update s.caller caller pc)
    (hpc : ∀ thread, pc ≠ .shutDown (.join thread))
    (hbefore : ∀ thread, s.caller caller ≠ .shutDown (.join thread)) (other : T) (thread : ℕ) :
    next.caller other = .shutDown (.join thread) ↔ s.caller other = .shutDown (.join thread) := by
  rw [hcaller, Function.update_apply]
  split
  · rename_i heq
    subst heq
    exact iff_of_false (hpc thread) (hbefore thread)
  · rfl

omit [DecidableEq J] [DecidableEq P] [DecidableEq T] in
/-- A call to the queue; while the weaver is shut down it creates no threads. -/
private theorem State.Places.queueCall (h : s.Places joining) {k : ℕ}
    (hcall : State.QueueCall k next s)
    (hidle : k = 0 ∨ ∀ caller, (s.caller caller).shutsDown = false) : next.Places joining := by
  refine h.of_hires hcall.hires (hcall.gone ▸ .refl _)
    (fun thread => (hcall.wakes.exited thread).mpr) ?_ ?_
  · intro caller thread
    rw [hcall.caller]
  · intro caller hat
    rw [hcall.caller] at hat
    rcases hidle with rfl | hidle
    · rw [hcall.hires.inventory, List.range'_zero, List.append_nil]
      exact h.emptied caller hat
    · have hshuts := hidle caller
      rw [hat] at hshuts
      cases hshuts

omit [DecidableEq J] [DecidableEq P] in
/-- A caller moves on, and the threads stay where they are. -/
private theorem State.Places.callerMoves (h : s.Places joining) {caller : T} {pc : CallerPc}
    (hcaller : next.caller = Function.update s.caller caller pc)
    (hbefore : ∀ thread, s.caller caller ≠ .shutDown (.join thread))
    (hpc : ∀ thread, pc ≠ .shutDown (.join thread))
    (hemptied : pc = .shutDown .setDestructed → s.inventory = [])
    (hcrew : next.inventory = s.inventory ∧ next.inventoryMax = s.inventoryMax ∧
      next.createdThreads = s.createdThreads)
    (hgone : next.gone = s.gone) (hwakes : next.WakesFrom s) : next.Places joining := by
  obtain ⟨hinventory, hmax, hcreated⟩ := hcrew
  refine h.of_hires (k := 0) ⟨by simp [hinventory], hcreated, hmax, Nat.zero_le _⟩
    (hgone ▸ .refl _) (fun thread => (hwakes.exited thread).mpr)
    (joins_update hcaller hpc hbefore) ?_
  intro other hat
  rw [hcaller, Function.update_apply] at hat
  rw [hinventory]
  split at hat
  · exact hemptied hat
  · exact h.emptied other hat

omit [DecidableEq J] [DecidableEq P] [DecidableEq T] in
private theorem State.Places.joining_eq_nil (h : s.Places joining) (hclosing : s.Closing)
    {caller : T} {rest : ShutDownPc} (hcaller : s.caller caller = .shutDown rest)
    (hrest : ∀ thread, rest ≠ .join thread) : joining = [] := by
  refine List.eq_nil_iff_forall_not_mem.mpr fun thread hthread => ?_
  obtain ⟨other, hother⟩ := h.joins thread hthread
  obtain rfl := hclosing.alone caller other (by rw [hcaller]; rfl) (by rw [hother]; rfl)
  rw [hcaller] at hother
  exact hrest thread (CallerPc.shutDown.inj hother)

omit [DecidableEq P] in
private theorem State.Places.shutDownStep (h : s.Places joining) (hclosing : s.Closing)
    {caller : T} {rest : ShutDownPc} (hcaller : s.caller caller = .shutDown rest)
    (hstep : Weaver.shutDownStep caller s rest = some next) : ∃ joining, next.Places joining := by
  cases rest with
  | acquire | finish =>
      simp only [Weaver.shutDownStep, Option.ite_none_right_eq_some, Option.some.injEq] at hstep
      rw [← hstep.2]
      exact ⟨joining, h.callerMoves rfl (by simp [hcaller]) (by simp) (by simp) ⟨rfl, rfl, rfl⟩ rfl
        (.inl rfl)⟩
  | suspend =>
      rw [← Option.some.inj hstep]
      refine ⟨joining, h.callerMoves rfl (by simp [hcaller]) ?_ ?_ ⟨rfl, rfl, rfl⟩ rfl (.inl rfl)⟩
      · split <;> simp
      · split <;> simp
  | setSuspending | setShuttingDown | setDestructed =>
      rw [← Option.some.inj hstep]
      exact ⟨joining, h.callerMoves (State.caller_setStateP _ _) (by simp [hcaller]) (by simp)
        (by simp) ⟨State.inventory_setStateP _ _, State.inventoryMax_setStateP _ _,
          State.createdThreads_setStateP _ _⟩ (State.gone_setStateP _ _)
        (State.wakesFrom_setStateP (s.setCaller _ _) _)⟩
  | reschedule =>
      rw [← Option.some.inj hstep]
      exact ⟨joining, h.callerMoves rfl (by simp [hcaller]) (by simp) (by simp) ⟨rfl, rfl, rfl⟩ rfl
        (.inr rfl)⟩
  | collect =>
      have hnobody := h.joining_eq_nil hclosing hcaller (by simp)
      simp only [Weaver.shutDownStep] at hstep
      split at hstep
      · rename_i hempty
        rw [← Option.some.inj hstep]
        exact ⟨joining, h.callerMoves rfl (by simp [hcaller]) (by simp) (fun _ => hempty)
          ⟨rfl, rfl, rfl⟩ rfl (.inl rfl)⟩
      · -- the first thread of the inventory is now waited for
        rename_i thread rest hinventory
        rw [← Option.some.inj hstep]
        have hself : ∀ {other pc}, Function.update s.caller caller (.shutDown (.join thread)) other =
            .shutDown pc → pc.isLate → pc = .join thread := by
          intro other pc hat hlate
          by_cases heq : other = caller
          · rw [heq, Function.update_self] at hat
            exact (CallerPc.shutDown.inj hat).symm
          · rw [Function.update_of_ne heq] at hat
            exact absurd (hclosing.alone other caller (by rw [hat]; rfl) (by rw [hcaller]; rfl)) heq
        refine ⟨[thread], ?_, ?_, ?_, h.finished, ?_⟩
        · have hplaces := h.places
          rw [hnobody, hinventory, List.append_nil] at hplaces
          refine List.Perm.trans ?_ hplaces
          exact (List.perm_append_singleton thread rest).append_right _
        · intro other thread' hat
          rw [ShutDownPc.join.inj (hself hat rfl)]
        · intro thread' hthread
          rw [List.mem_singleton.mp hthread]
          exact ⟨caller, Function.update_self ..⟩
        · intro other hat
          cases hself hat rfl
  | join thread =>
      simp only [Weaver.shutDownStep] at hstep
      split at hstep
      · rename_i hexited
        rw [← Option.some.inj hstep]
        have hjoining := h.joined caller thread hcaller
        have hnone : ∀ {other pc}, Function.update s.caller caller (.shutDown .collect) other =
            .shutDown pc → pc = .collect := by
          intro other pc hat
          by_cases heq : other = caller
          · rw [heq, Function.update_self] at hat
            exact (CallerPc.shutDown.inj hat).symm
          · rw [Function.update_of_ne heq] at hat
            exact absurd (hclosing.alone other caller (by rw [hat]; rfl) (by rw [hcaller]; rfl)) heq
        have hgone : State.gone (State.record (.deleted thread)
            (s.setCaller caller (.shutDown .collect))) = s.gone ++ [thread] := by
          rw [State.gone, State.deletedThreads_append rfl, ← List.append_assoc]
          rfl
        refine ⟨[], ?_, ?_, by simp, ?_, ?_⟩
        · have hplaces := h.places
          rw [hjoining, List.append_assoc] at hplaces
          rw [hgone, List.append_nil]
          exact (List.perm_append_comm.append_left s.inventory).trans hplaces
        · intro other thread' hat
          cases hnone hat
        · intro other hother
          rw [hgone, List.mem_append, List.mem_singleton] at hother
          rcases hother with hother | rfl
          · exact h.finished other hother
          · exact hexited
        · intro other hat
          cases hnone hat
      · rw [← Option.some.inj hstep]
        exact ⟨joining, h.queueCall s.queueCall_reschedule (.inl rfl)⟩

omit [DecidableEq J] [DecidableEq P] [DecidableEq T] in
private theorem State.Places.mem (h : s.Places joining) {thread : ℕ}
    (hcreated : thread < s.createdThreads) (hpc : (s.worker thread).pc ≠ .exited) :
    thread ∈ s.inventory ∨ thread ∈ joining := by
  have hmem := h.places.mem_iff.mpr (List.mem_range.mpr hcreated)
  rw [List.mem_append, List.mem_append] at hmem
  exact hmem.resolve_right fun hgone => hpc (h.finished thread hgone)

omit [DecidableEq J] [DecidableEq P] [DecidableEq T] in
private theorem State.Places.workerTurn (h : s.Places joining) (hclosing : s.Closing)
    {thread : ℕ} (hcreated : thread < s.createdThreads) (hturn : WorkerTurn S thread s next)
    (hcaller : next.caller = s.caller) : next.Places joining := by
  obtain ⟨hpc, worker, hworker⟩ := hturn.worker
  have hothers : ∀ other, (s.worker other).pc = .exited → (next.worker other).pc = .exited := by
    intro other hother
    have hne : other ≠ thread := by
      rintro rfl
      exact hpc hother
    rw [hworker, Function.update_of_ne hne, hother]
  -- while there is a worker to take a step the inventory is not known to be empty
  have hbusy : ∀ caller, s.caller caller ≠ .shutDown .setDestructed := by
    intro caller hat
    rcases h.mem hcreated hpc with hmem | hmem
    · rw [h.emptied caller hat] at hmem
      cases hmem
    · rw [h.joining_eq_nil hclosing hat (by simp)] at hmem
      cases hmem
  rcases hturn.crew with hexpires | ⟨k, hhires, hgone⟩
  · have hmem : thread ∈ s.inventory := by
      refine (h.mem hcreated hpc).resolve_right fun hmem => ?_
      obtain ⟨caller, hat⟩ := h.joins thread hmem
      have hid := hclosing.late caller _ hat rfl
      rw [hexpires.workingHard] at hid
      cases hid
    have hnodup : s.inventory.Nodup :=
      (h.places.nodup_iff.mpr List.nodup_range).of_append_left.of_append_left
    have hinventory : s.inventory.Perm (thread :: next.inventory) := by
      have herase : next.inventory = s.inventory.erase thread := by
        rw [hexpires.inventory, hnodup.erase_eq_filter]
        simp only [ne_eq, decide_not]
        rfl
      rw [herase]
      exact List.perm_cons_erase hmem
    refine ⟨?_, ?_, ?_, ?_, fun caller hat => absurd (hcaller ▸ hat) (hbusy caller)⟩
    · have hplaces := h.places
      rw [hexpires.createdThreads]
      rw [List.perm_iff_count] at hplaces ⊢
      intro other
      have hplaces := hplaces other
      have hinventory := hinventory.count_eq other
      have hgone := hexpires.gone.count_eq other
      simp only [List.count_append, List.count_cons] at hplaces hinventory hgone ⊢
      omega
    · rw [hcaller]
      exact h.joined
    · rw [hcaller]
      exact h.joins
    · intro other hother
      rcases List.mem_cons.mp (hexpires.gone.mem_iff.mp hother) with rfl | hother
      · exact hexpires.exited
      · exact hothers other (h.finished other hother)
  · exact h.of_hires hhires hgone hothers (fun caller thread => by rw [hcaller])
      fun caller hat => absurd (hcaller ▸ hat) (hbusy caller)

/-- Nobody stands between reading the state pointer and changing the state object. -/
def State.Calm (s : State J P T σ ε) : Prop := ∀ caller, (s.caller caller).isStale = false

omit [DecidableEq J] [DecidableEq P] [DecidableEq T] in
private theorem ShutsDownAlone.entersUndisturbed (hok : ShutsDownAlone s action) (hcalm : s.Calm) :
    EntersUndisturbed s action := by
  refine ⟨fun hshuts => hok.2 ?_, fun _ _ _ => hcalm⟩
  cases action <;> first | rfl | cases hshuts

omit [DecidableEq J] [DecidableEq P] in
private theorem calm_update (hcalm : s.Calm) {caller : T} {pc : CallerPc}
    (hcaller : next.caller = Function.update s.caller caller pc) (hpc : pc.isStale = false) :
    next.Calm := by
  intro other
  rw [hcaller, Function.update_apply]
  split
  · exact hpc
  · exact hcalm other

omit [DecidableEq P] in
/-- The thread that shuts the weaver down changes the state object itself. -/
private theorem State.Calm.shutDownStep (hcalm : s.Calm) {caller : T} {rest : ShutDownPc}
    (hcaller : s.caller caller = .shutDown rest)
    (hstep : Weaver.shutDownStep caller s rest = some next) : next.Calm := by
  cases rest with
  | acquire | finish =>
      simp only [Weaver.shutDownStep, Option.ite_none_right_eq_some, Option.some.injEq] at hstep
      rw [← hstep.2]
      exact calm_update hcalm rfl rfl
  | suspend | reschedule =>
      rw [← Option.some.inj hstep]
      exact calm_update hcalm rfl rfl
  | setSuspending | setShuttingDown | setDestructed =>
      rw [← Option.some.inj hstep]
      exact calm_update hcalm (State.caller_setStateP _ _) rfl
  | collect =>
      simp only [Weaver.shutDownStep] at hstep
      split at hstep
      · exact Option.some.inj hstep ▸ calm_update hcalm rfl rfl
      · exact Option.some.inj hstep ▸ calm_update hcalm rfl rfl
  | join thread =>
      simp only [Weaver.shutDownStep] at hstep
      split at hstep
      · exact Option.some.inj hstep ▸ calm_update hcalm rfl rfl
      · exact Option.some.inj hstep ▸ hcalm

private theorem State.Calm.step (hcalm : s.Calm) (hok : ShutsDownAlone s action)
    (hstep : Weaver.step S s action = some next) : next.Calm := by
  have hsame : next.caller = s.caller → next.Calm := by
    intro hcaller caller
    rw [hcaller]
    exact hcalm caller
  cases step_turn hstep with
  | enqueue jobs _ =>
      obtain ⟨k, hcall⟩ := s.queueCall_enqueueP S jobs
      exact hsame hcall.caller
  | call hcall _ _ => exact hsame hcall.caller
  | resize cap _ =>
      obtain ⟨k, hcall, -⟩ := s.queueCall_setMaximumNumberOfThreadsP cap
      exact hsame hcall.caller
  | @begin _ caller pc _ hbegins hbegun =>
      refine calm_update hcalm hbegun.caller ?_
      cases action with
      | suspend _ | resume _ => cases hok.1
      | finish _ | shutDown _ =>
          obtain ⟨-, rfl⟩ := Prod.mk.inj (Option.some.inj hbegins)
          split <;> rfl
      | configure _ _ =>
          obtain ⟨-, rfl⟩ := Prod.mk.inj (Option.some.inj hbegins)
          rfl
      | enqueue _ | dequeue _ | dequeueAll | setMaximumNumberOfThreads _ | requestAbort
      | reschedule | configureFromJob _ _ | proceed _ | timeout _ | worker _ => cases hbegins
  | @setState caller id hcaller =>
      have hstale := hcalm caller
      rw [hcaller] at hstale
      cases hstale
  | reschedule _ | finish _ _ => exact calm_update hcalm rfl rfl
  | shutDown hcaller hstep => exact hcalm.shutDownStep hcaller hstep
  | worker hthread hturn =>
      simp only [Weaver.step, Option.ite_none_right_eq_some] at hstep
      rcases workerStep_control hstep.2 with hcontrol | ⟨-, hcontrol⟩
      · exact hsame (congrArg Prod.snd hcontrol)
      · exact hsame (congrArg Prod.snd hcontrol)

private theorem State.Places.step (h : s.Places joining) (hclosing : s.Closing) (hcalm : s.Calm)
    (hok : ShutsDownAlone s action) (hstep : Weaver.step S s action = some next) :
    ∃ joining, next.Places joining := by
  cases step_turn hstep with
  | enqueue jobs _ =>
      obtain ⟨k, hcall⟩ := s.queueCall_enqueueP S jobs
      exact ⟨joining, h.queueCall hcall (.inr (hok.2 rfl))⟩
  | call hcall _ _ => exact ⟨joining, h.queueCall hcall (.inl rfl)⟩
  | resize cap _ =>
      obtain ⟨k, hcall, -⟩ := s.queueCall_setMaximumNumberOfThreadsP cap
      have hplaces : State.Places { s with inventoryMax := cap } joining :=
        ⟨h.places, h.joined, h.joins, h.finished, h.emptied⟩
      exact ⟨joining, hplaces.queueCall hcall (.inr (hok.2 rfl))⟩
  | @begin _ caller pc _ hbegins hbegun =>
      have hgone : next.gone = s.gone := by
        have hdeleted : next.deletedThreads = s.deletedThreads := by
          rcases hbegun.log with hlog | ⟨ops, hlog⟩
          · rw [State.deletedThreads, hlog, State.deletedThreads]
          · exact State.deletedThreads_eq hlog (by simp [Event.deletedThread?])
        rw [State.gone, hbegun.expiredThreads, hdeleted, State.gone]
      refine ⟨joining, h.callerMoves hbegun.caller (by simp [hbegun.idle]) ?_ ?_ hbegun.crew hgone
        (.inl hbegun.worker)⟩
      · rcases Act.begins_pc hbegins with rfl | rfl | rfl | ⟨rfl, -⟩ | ⟨rfl, -⟩ | ⟨rfl, -⟩ <;> simp
      · rcases Act.begins_pc hbegins with rfl | rfl | rfl | ⟨rfl, -⟩ | ⟨rfl, -⟩ | ⟨rfl, -⟩ <;> simp
  | @setState caller id hcaller =>
      have hstale := hcalm caller
      rw [hcaller] at hstale
      cases hstale
  | reschedule hcaller =>
      exact ⟨joining, h.callerMoves rfl (by simp [hcaller]) (by simp) (by simp) ⟨rfl, rfl, rfl⟩ rfl
        (.inr rfl)⟩
  | finish hcaller _ =>
      exact ⟨joining, h.callerMoves rfl (by simp [hcaller]) (by simp) (by simp) ⟨rfl, rfl, rfl⟩ rfl
        (.inl rfl)⟩
  | shutDown hcaller hstep => exact h.shutDownStep hclosing hcaller hstep
  | worker hthread hturn =>
      simp only [Weaver.step, Option.ite_none_right_eq_some] at hstep
      have hcaller : next.caller = s.caller := by
        rcases workerStep_control hstep.2 with hcontrol | ⟨-, hcontrol⟩
        · exact congrArg Prod.snd hcontrol
        · exact congrArg Prod.snd hcontrol
      exact ⟨joining, h.workerTurn hclosing hthread hturn hcaller⟩

theorem runs_places (hrun : Runs S ShutsDownAlone start s) :
    s.Closing ∧ s.Calm ∧ ∃ joining, s.Places joining := by
  induction hrun with
  | refl =>
      refine ⟨runs_closing .refl, fun _ => rfl, [], ?_, ?_, ?_, ?_, ?_⟩
      · exact .refl _
      · intro caller thread hat
        cases hat
      · intro thread hthread
        cases hthread
      · intro thread hthread
        cases hthread
      · exact fun _ _ => rfl
  | tail _ hok hstep ih =>
      obtain ⟨hclosing, hcalm, joining, hplaces⟩ := ih
      exact ⟨(hclosing.step (hok.entersUndisturbed hcalm) hstep).1, hcalm.step hok hstep,
        hplaces.step hclosing hcalm hok hstep⟩

/-- The weaver becomes `Destructed` in the last step of the shutdown. -/
private theorem destructed_of_step (hcalm : s.Calm)
    (hstep : Weaver.step S s action = some next) (hbefore : s.stateId ≠ .destructed)
    (hafter : next.stateId = .destructed) :
    ∃ caller, s.caller caller = .shutDown .setDestructed ∧
      next = (s.setCaller caller .idle).setStateP .destructed := by
  have hsame : next.stateId ≠ s.stateId := fun hid => hbefore (hid ▸ hafter)
  cases step_turn hstep with
  | enqueue jobs _ =>
      obtain ⟨k, hcall⟩ := s.queueCall_enqueueP S jobs
      exact absurd hcall.stateId hsame
  | call hcall _ _ => exact absurd hcall.stateId hsame
  | resize cap _ =>
      obtain ⟨k, hcall, -⟩ := s.queueCall_setMaximumNumberOfThreadsP cap
      exact absurd hcall.stateId hsame
  | begin _ hbegun => exact absurd hbegun.stateId hsame
  | @setState caller id hcaller =>
      have hstale := hcalm caller
      rw [hcaller] at hstale
      cases hstale
  | reschedule _ | finish _ _ => exact absurd rfl hsame
  | @shutDown caller rest _ hcaller hstep =>
      cases rest with
      | acquire | finish =>
          simp only [shutDownStep, Option.ite_none_right_eq_some, Option.some.injEq] at hstep
          exact absurd (hstep.2 ▸ rfl) hsame
      | suspend | reschedule => exact absurd (Option.some.inj hstep ▸ rfl) hsame
      | setSuspending | setShuttingDown =>
          rw [← Option.some.inj hstep, State.stateId_setStateP] at hafter
          cases hafter
      | setDestructed => exact ⟨caller, hcaller, (Option.some.inj hstep).symm⟩
      | collect | join =>
          simp only [shutDownStep] at hstep
          split at hstep
          · exact absurd (Option.some.inj hstep ▸ rfl) hsame
          · exact absurd (Option.some.inj hstep ▸ rfl) hsame
  | worker hthread hturn =>
      simp only [Weaver.step, Option.ite_none_right_eq_some] at hstep
      rcases workerStep_control hstep.2 with hcontrol | ⟨-, hcontrol⟩
      · exact absurd (congrArg Prod.fst hcontrol) hsame
      · have hsuspended : next.stateId = .suspended := congrArg Prod.fst hcontrol
        rw [hsuspended] at hafter
        cases hafter

/-- **Shutting down collects the threads** that are in the inventory: when the weaver becomes
`Destructed`, every thread it has ever created has exited and has been deleted once, if and only
if no thread is left in the list of the expired ones. -/
theorem threads_collected (hrun : Runs S ShutsDownAlone start s) :
    (∀ thread ∈ s.deletedThreads, (s.worker thread).pc = .exited) ∧
      ∀ action next, ShutsDownAlone s action → Weaver.step S s action = some next →
        s.stateId ≠ .destructed → next.stateId = .destructed →
        ((∀ thread < next.createdThreads, next.Collected thread) ↔ s.expiredThreads = []) := by
  obtain ⟨hclosing, hcalm, joining, hplaces⟩ := runs_places hrun
  refine ⟨fun thread hthread => hplaces.finished thread (List.mem_append_right _ hthread), ?_⟩
  intro action next _ hstep hbefore hafter
  obtain ⟨caller, hcaller, rfl⟩ := destructed_of_step hcalm hstep hbefore hafter
  have hgone : s.gone.Perm (List.range s.createdThreads) := by
    have hperm := hplaces.places
    rwa [hplaces.emptied caller hcaller, hplaces.joining_eq_nil hclosing hcaller (by simp),
      List.nil_append, List.nil_append] at hperm
  have hdeleted : State.deletedThreads ((s.setCaller caller .idle).setStateP .destructed) =
      s.deletedThreads := State.deletedThreads_setStateP _ _
  have honce : ∀ thread < s.createdThreads,
      s.expiredThreads.count thread + s.deletedThreads.count thread = 1 := by
    intro thread hthread
    rw [← List.count_append]
    exact (hgone.count_eq thread).trans
      (List.count_eq_one_of_mem List.nodup_range (List.mem_range.mpr hthread))
  rw [State.createdThreads_setStateP]
  constructor
  · intro hcollected
    refine List.eq_nil_iff_forall_not_mem.mpr fun thread hthread => ?_
    have hcreated : thread < s.createdThreads :=
      List.mem_range.mp (hgone.mem_iff.mp (List.mem_append_left _ hthread))
    have hcount := (hcollected thread hcreated).2
    have hpos := List.count_pos_iff.mpr hthread
    have honce := honce thread hcreated
    rw [hdeleted] at hcount
    omega
  · intro hexpired thread hthread
    have honce := honce thread hthread
    have hmem : thread ∈ s.gone := hgone.mem_iff.mpr (List.mem_range.mpr hthread)
    refine ⟨?_, ?_⟩
    · rw [State.worker_setStateP _ _ rfl]
      exact hplaces.finished thread hmem
    · rwa [hdeleted, ← Nat.zero_add (List.count ..), ← List.count_nil (a := thread), ← hexpired]

end Steps

/-- One worker leaves as the maximum is lowered and is deleted by the other, which is collected
by the shutdown. -/
theorem threads_collected_both : ∃ next : State ℕ Unit Unit (Unit → ℕ) Empty,
    next.stateId = .destructed ∧ next.createdThreads = 2 ∧ ∀ thread < 2, next.Collected thread := by
  obtain ⟨s, hrun, hcaller, hid, hexpired, hcreated⟩ :
      ∃ s : State ℕ Unit Unit (Unit → ℕ) Empty,
        Runs numbered ShutsDownAlone (.plain fun _ => 0) s ∧ _ :=
    Library.exists_runWhere
      (fun s => s.caller () = .shutDown .setDestructed ∧ s.stateId = .shuttingDown ∧
        s.expiredThreads = [] ∧ s.createdThreads = 2)
      [.setMaximumNumberOfThreads 2, .enqueue [some 0], .worker 0, .worker 0, .worker 0,
        .setMaximumNumberOfThreads 1, .worker 1, .worker 1, .worker 1, .worker 0, .worker 0,
        .worker 0, .worker 0, .worker 0, .worker 0, .worker 0, .worker 0, .shutDown (),
        .proceed (), .proceed (), .proceed (), .proceed (), .proceed (), .proceed (),
        .proceed (), .worker 0, .worker 0, .worker 0, .proceed (), .proceed ()] (by decide)
  have hstep : step numbered s (.proceed ()) =
      some ((s.setCaller () .idle).setStateP .destructed) := by
    simp only [step, callerStep, hcaller, shutDownStep]
  have hafter := State.stateId_setStateP (s.setCaller () .idle) .destructed
  have hiff := (threads_collected hrun).2 (.proceed ()) _ ⟨rfl, fun h => by cases h⟩ hstep
    (by simp [hid]) hafter
  rw [State.createdThreads_setStateP] at hiff
  exact ⟨_, hafter, (State.createdThreads_setStateP _ _).trans hcreated,
    hcreated ▸ hiff.mpr hexpired⟩

/-- **A thread that has expired last is not collected.**  The only worker leaves after the
maximum has been set to 0, and the weaver is destructed without deleting it. -/
theorem threads_left : ∃ s : State ℕ Unit Unit (Unit → ℕ) Empty,
    Runs numbered ShutsDownAlone (.plain fun _ => 0) s ∧ s.stateId = .destructed ∧
      s.createdThreads = 1 ∧ s.expiredThreads = [0] ∧ ¬ s.Collected 0 := by
  obtain ⟨s, hrun, hid, hcreated, hexpired, hdeleted⟩ :
      ∃ s : State ℕ Unit Unit (Unit → ℕ) Empty,
        Runs numbered ShutsDownAlone (.plain fun _ => 0) s ∧ _ :=
    Library.exists_runWhere
      (fun s => s.stateId = .destructed ∧ s.createdThreads = 1 ∧ s.expiredThreads = [0] ∧
        s.deletedThreads = [])
      [.setMaximumNumberOfThreads 1, .enqueue [some 0], .worker 0, .worker 0, .worker 0,
        .setMaximumNumberOfThreads 0, .worker 0, .worker 0, .worker 0, .worker 0, .worker 0,
        .worker 0, .worker 0, .worker 0, .shutDown (), .proceed (), .proceed (), .proceed (),
        .proceed (), .proceed (), .proceed (), .proceed (), .proceed ()] (by decide)
  refine ⟨s, hrun, hid, hcreated, hexpired, fun hcollected => ?_⟩
  have honce := hcollected.2
  rw [hdeleted] at honce
  cases honce

end ThreadWeaver.Weaver
