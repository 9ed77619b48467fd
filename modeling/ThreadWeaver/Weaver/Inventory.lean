import ThreadWeaver.Weaver.Active

/-!
# The thread inventory

Threads are created by whoever enqueues, raises the maximum or applies for work, and leave
the inventory one at a time when it has outgrown its maximum.  Creation stays below the
maximum, the workers that hold a job are in the inventory, and a weaver that may have threads
and has something to do has one.
-/

namespace ThreadWeaver.Weaver

variable {J P T σ ε : Type*}

namespace State

variable {s next : State J P T σ ε}

/-! ## Creation -/

/-- Threads were created only while there was room for them. -/
def CreatesInRoom (s next : State J P T σ ε) : Prop :=
  next.createdThreads = s.createdThreads ∨
    next.inventory = s.inventory ++
        List.range' s.createdThreads (next.createdThreads - s.createdThreads) ∧
      next.inventory.length ≤ next.inventoryMax

theorem Hires.createsInRoom {k : ℕ} {before : State J P T σ ε} (h : Hires k next before)
    (hinventory : before.inventory = s.inventory)
    (hcreated : before.createdThreads = s.createdThreads) : s.CreatesInRoom next := by
  have hcount := h.createdThreads
  rcases h.length_le with rfl | hlength
  · exact .inl (by omega)
  · refine .inr ⟨?_, hlength⟩
    have hnew : next.createdThreads - s.createdThreads = k := by omega
    rw [h.inventory, hinventory, hcreated, hnew]

end State

section Steps

variable [DecidableEq J] [DecidableEq P] [DecidableEq T] {S : Setup J P σ ε}
  {start : Start J P σ} {s next : State J P T σ ε} {action : Act J P T ε}

omit [DecidableEq J] [DecidableEq P] [DecidableEq T] in
private theorem WorkerTurn.createsInRoom {thread : ℕ} (hturn : WorkerTurn S thread s next) :
    s.CreatesInRoom next := by
  rcases hturn.crew with hexpires | ⟨k, hhires, -⟩
  · exact .inl hexpires.createdThreads
  · exact hhires.createsInRoom rfl rfl

/-- **Threads are created only where there is room.** -/
theorem step_createsInRoom (hstep : step S s action = some next) : s.CreatesInRoom next := by
  cases step_turn hstep with
  | enqueue jobs _ =>
      obtain ⟨k, hcall⟩ := s.queueCall_enqueueP S jobs
      exact hcall.hires.createsInRoom rfl rfl
  | call hcall _ _ => exact hcall.hires.createsInRoom rfl rfl
  | resize cap _ =>
      obtain ⟨k, hcall, -⟩ := s.queueCall_setMaximumNumberOfThreadsP cap
      exact hcall.hires.createsInRoom rfl rfl
  | begin _ hbegun => exact .inl hbegun.crew.2.2
  | setState _ => exact .inl (State.createdThreads_setStateP _ _)
  | reschedule _ | finish _ _ => exact .inl rfl
  | @shutDown caller rest _ _ hstep =>
      left
      cases rest with
      | acquire | finish =>
          simp only [shutDownStep, Option.ite_none_right_eq_some, Option.some.injEq] at hstep
          exact hstep.2 ▸ rfl
      | suspend | reschedule => exact Option.some.inj hstep ▸ rfl
      | setSuspending | setShuttingDown | setDestructed =>
          rw [← Option.some.inj hstep]
          exact State.createdThreads_setStateP _ _
      | collect | join =>
          simp only [shutDownStep] at hstep
          split at hstep
          · exact Option.some.inj hstep ▸ rfl
          · exact Option.some.inj hstep ▸ rfl
  | worker _ hturn => exact hturn.createsInRoom

/-! ## The invariant -/

/-- The threads that have not exited are in the inventory, each once. -/
structure State.Listed (s : State J P T σ ε) : Prop where
  nodup : s.inventory.Nodup
  created : ∀ thread ∈ s.inventory, thread < s.createdThreads
  listed : ∀ thread < s.createdThreads, thread ∈ s.inventory ∨ (s.worker thread).pc = .exited

/-- The inventory is not empty while there is something to do and threads may be there. -/
structure State.Manned (s : State J P T σ ε) : Prop extends s.Listed where
  staffed : 0 < s.inventoryMax → s.assignments ≠ [] → s.inventory ≠ []

omit [DecidableEq J] [DecidableEq P] [DecidableEq T] in
@[simp] theorem Worker.exited_wake (worker : Worker J) :
    worker.wake.pc = .exited ↔ worker.pc = .exited := by
  obtain ⟨pc, activations⟩ := worker
  cases pc <;> simp [Worker.wake]

omit [DecidableEq J] [DecidableEq P] [DecidableEq T] in
theorem State.WakesFrom.exited (h : next.WakesFrom s) (thread : ℕ) :
    (next.worker thread).pc = .exited ↔ (s.worker thread).pc = .exited := by
  rcases h with hworker | hworker
  · rw [hworker]
  · rw [hworker, Worker.exited_wake]

omit [DecidableEq J] [DecidableEq P] [DecidableEq T] in
/-- Threads are hired, and nobody leaves. -/
private theorem listed_of_hires (h : s.Listed) {k : ℕ} (hhires : State.Hires k next s)
    (hexited : ∀ thread, (s.worker thread).pc = .exited → (next.worker thread).pc = .exited) :
    next.Listed where
  nodup := by
    rw [hhires.inventory]
    refine List.nodup_append.mpr ⟨h.nodup, List.nodup_range', ?_⟩
    rintro old hold new hnew rfl
    have hlt := h.created old hold
    rw [List.mem_range'_1] at hnew
    omega
  created thread hthread := by
    rw [hhires.createdThreads]
    rw [hhires.inventory, List.mem_append, List.mem_range'_1] at hthread
    rcases hthread with hold | hnew
    · have hlt := h.created thread hold
      omega
    · omega
  listed thread hthread := by
    rw [hhires.inventory, List.mem_append, List.mem_range'_1]
    rw [hhires.createdThreads] at hthread
    by_cases hold : thread < s.createdThreads
    · exact (h.listed thread hold).imp .inl (hexited thread)
    · exact .inl (.inr ⟨by omega, hthread⟩)

omit [DecidableEq J] [DecidableEq P] [DecidableEq T] in
/-- The list of jobs and the inventory after threads have been hired. -/
private theorem staffed_of_hires (h : s.Manned) {k : ℕ} (hhires : State.Hires k next s)
    (hassignments : next.assignments.Sublist s.assignments) :
    0 < next.inventoryMax → next.assignments ≠ [] → next.inventory ≠ [] := by
  intro hmax hjobs
  rw [hhires.inventoryMax] at hmax
  rw [hhires.inventory]
  refine List.append_ne_nil_of_left_ne_nil (h.staffed hmax ?_) _
  rintro hempty
  rw [hempty] at hassignments
  exact hjobs (List.sublist_nil.mp hassignments)

omit [DecidableEq J] [DecidableEq P] [DecidableEq T] in
private theorem State.Manned.workerTurn (h : s.Manned) {thread : ℕ}
    (hturn : WorkerTurn S thread s next) : next.Manned := by
  obtain ⟨hpc, worker, hworker⟩ := hturn.worker
  have hothers : ∀ other ≠ thread, next.worker other = s.worker other := fun other hne => by
    rw [hworker, Function.update_of_ne hne]
  rcases hturn.crew with hexpires | ⟨k, hhires, -⟩
  · refine ⟨⟨hexpires.inventory ▸ h.nodup.filter _, ?_, ?_⟩, ?_⟩
    · intro other hother
      rw [hexpires.inventory] at hother
      exact hexpires.createdThreads ▸ h.created other (List.mem_of_mem_filter hother)
    · intro other hother
      rw [hexpires.createdThreads] at hother
      by_cases heq : other = thread
      · exact .inr (heq ▸ hexpires.exited)
      · rw [hexpires.inventory, hothers other heq, List.mem_filter]
        exact (h.listed other hother).imp_left fun hmem => ⟨hmem, by simpa using heq⟩
    · -- one of at least two threads leaves
      intro hmax _ hempty
      rw [hexpires.inventory] at hempty
      rw [hexpires.inventoryMax] at hmax
      have hall : ∀ other ∈ s.inventory, other = thread := by
        simpa [List.filter_eq_nil_iff] using hempty
      have hlength : s.inventory.length ≤ [thread].length :=
        (h.nodup.subperm fun other hother => by simp [hall other hother]).length_le
      have houtgrown := hexpires.outgrown
      simp only [List.length_singleton] at hlength
      omega
  · refine ⟨listed_of_hires h.toListed hhires ?_, staffed_of_hires h hhires hturn.sublist⟩
    intro other hother
    have hne : other ≠ thread := by
      rintro rfl
      exact hpc hother
    rw [hothers other hne]
    exact hother

omit [DecidableEq J] [DecidableEq P] [DecidableEq T] in
private theorem listed_of_call (h : s.Listed) {k : ℕ} (hcall : State.QueueCall k next s) :
    next.Listed :=
  listed_of_hires h hcall.hires fun thread => (hcall.wakes.exited thread).mpr

/-- Calls do not make a thread leave. -/
theorem State.Manned.step (h : s.Manned) (husable : s.Usable)
    (hstep : Weaver.step S s action = some next) : next.Manned := by
  have hsame : ∀ {next : State J P T σ ε}, next.inventory = s.inventory →
      next.inventoryMax = s.inventoryMax → next.createdThreads = s.createdThreads →
      next.WakesFrom s → next.assignments = s.assignments → next.Manned := by
    intro next hinventory hmax hcreated hwakes hassignments
    refine ⟨⟨hinventory ▸ h.nodup, ?_, ?_⟩, ?_⟩
    · rw [hinventory, hcreated]
      exact h.created
    · intro thread hthread
      rw [hinventory]
      exact (h.listed thread (hcreated ▸ hthread)).imp_right (hwakes.exited thread).mpr
    · rw [hinventory, hmax, hassignments]
      exact h.staffed
  cases step_turn hstep with
  | enqueue jobs _ =>
      obtain ⟨k, hcall⟩ := s.queueCall_enqueueP S jobs
      rcases s.inventory_enqueueP S jobs with hnothing | hmanned
      · rw [hnothing]
        exact h
      · exact ⟨listed_of_call h.toListed hcall,
          fun hmax _ => hmanned (hcall.hires.inventoryMax ▸ hmax)⟩
  | call hcall hsublist _ =>
      exact ⟨listed_of_call h.toListed hcall, staffed_of_hires h hcall.hires hsublist⟩
  | resize cap _ =>
      obtain ⟨k, hcall, hassignments, hfirst⟩ := s.queueCall_setMaximumNumberOfThreadsP cap
      have hlisted : State.Listed { s with inventoryMax := cap } := ⟨h.nodup, h.created, h.listed⟩
      refine ⟨listed_of_call hlisted hcall, fun hmax hjobs => ?_⟩
      rw [hcall.hires.inventoryMax] at hmax
      rw [hassignments] at hjobs
      -- raised from 0, the maximum brings a thread; otherwise there was one
      rcases Nat.eq_zero_or_pos s.inventoryMax with hzero | hpos
      · exact hfirst hzero hmax
      · rw [hcall.hires.inventory]
        exact List.append_ne_nil_of_left_ne_nil (h.staffed hpos hjobs) _
  | begin _ hbegun =>
      exact hsame hbegun.crew.1 hbegun.crew.2.1 hbegun.crew.2.2 (.inl hbegun.worker)
        hbegun.assignments
  | @setState caller id _ =>
      exact hsame (State.inventory_setStateP _ _) (State.inventoryMax_setStateP _ _)
        (State.createdThreads_setStateP _ _) (State.wakesFrom_setStateP (s.setCaller _ _) _)
        (State.assignments_setStateP _ _)
  | reschedule _ => exact hsame rfl rfl rfl (.inr rfl) rfl
  | finish _ _ => exact hsame rfl rfl rfl (.inl rfl) rfl
  | @shutDown caller rest _ hcaller _ =>
      have hkeeps := husable.keepsQueue caller
      rw [hcaller] at hkeeps
      cases hkeeps
  | worker _ hturn => exact h.workerTurn hturn

/-- Nobody shuts the weaver down. -/
def KeepsRunning (_ : State J P T σ ε) (action : Act J P T ε) : Prop :=
  action.isShutDown = false

instance (s : State J P T σ ε) (action : Act J P T ε) : Decidable (KeepsRunning s action) :=
  inferInstanceAs (Decidable (_ = _))

theorem runs_manned (hrun : Runs S KeepsRunning start s) : s.Manned := by
  induction hrun with
  | refl => exact ⟨⟨List.nodup_nil, by simp [init], by simp [init]⟩, by simp [init]⟩
  | tail hrun _ hstep ih => exact ih.step (runs_usable (fun _ _ h => h) hrun) hstep

/-- As long as nobody shuts the weaver down everybody may enqueue. -/
theorem runs_accounted_of_keepsRunning (hrun : Runs S KeepsRunning start s) : s.Accounted := by
  suffices h : s.Accounted ∧ s.Usable from h.1
  induction hrun with
  | refl => exact ⟨runs_accounted .refl, ⟨by simp [init], fun _ => rfl⟩⟩
  | tail hrun hok hstep ih =>
      obtain ⟨haccounted, husable⟩ := ih
      refine ⟨haccounted.step ?_ hstep, husable.step hok hstep⟩
      rintro - ⟨caller, hcaller⟩
      have hkeeps := husable.keepsQueue caller
      rw [CallerPc.keepsQueue_eq_false hcaller] at hkeeps
      cases hkeeps

/-- **The thread inventory.**  Threads are created only while the inventory is below its
maximum; jobs are handed out only while it has not outgrown it, and to threads in it; and it
is not empty while jobs are queued and threads may be there. -/
theorem thread_inventory (hrun : Runs S KeepsRunning start s) :
    (∀ action next, KeepsRunning s action → Weaver.step S s action = some next →
      s.CreatesInRoom next ∧
        ∀ thread job, s.Emits next (.assigned thread job) →
          s.inventory.length ≤ s.inventoryMax) ∧
      s.active ≤ s.inventory.length ∧
      (0 < s.inventoryMax → s.assignments ≠ [] → s.inventory ≠ []) := by
  have hmanned := runs_manned hrun
  have haccounted := runs_accounted_of_keepsRunning hrun
  refine ⟨?_, ?_, hmanned.staffed⟩
  · intro action next _ hstep
    exact ⟨step_createsInRoom hstep, fun thread job hemits =>
      (haccounted.justified hstep hemits).2⟩
  · -- whoever owes a report has not exited
    have hsubset : s.owing ⊆ s.inventory.toFinset := by
      intro thread hthread
      obtain ⟨hcreated, howes⟩ := State.mem_owing.mp hthread
      rcases hmanned.listed thread hcreated with hmem | hexited
      · exact List.mem_toFinset.mpr hmem
      · rw [hexited] at howes
        cases howes
    rw [haccounted.tallied.active]
    exact_mod_cast (Finset.card_le_card hsubset).trans s.inventory.toFinset_card_le

end Steps

/-- The last worker has left, a job is enqueued, and raising the maximum brings a worker. -/
theorem thread_inventory_raised : ∃ s : State ℕ Unit Unit (Unit → ℕ) Empty,
    s.inventoryMax = 1 ∧ s.assignments = [1] ∧ (s.worker 0).pc = .exited ∧
      s.inventory ≠ [] ∧ s.active ≤ s.inventory.length := by
  obtain ⟨s, hrun, hmax, hlist, hexited⟩ : ∃ s : State ℕ Unit Unit (Unit → ℕ) Empty,
      Runs numbered KeepsRunning (.plain fun _ => 0) s ∧ _ :=
    Library.exists_runWhere
      (fun s => s.inventoryMax = 1 ∧ s.assignments = [1] ∧ (s.worker 0).pc = .exited)
      [.setMaximumNumberOfThreads 1, .enqueue [some 0], .dequeue 0,
        .setMaximumNumberOfThreads 0, .worker 0, .worker 0, .worker 0, .enqueue [some 1],
        .setMaximumNumberOfThreads 1] (by decide)
  obtain ⟨-, hactive, hstaffed⟩ := thread_inventory hrun
  exact ⟨s, hmax, hlist, hexited, hstaffed (by omega) (by simp [hlist]), hactive⟩

end ThreadWeaver.Weaver
