import ThreadWeaver.Collection.Restriction
import ThreadWeaver.Collection.Work
import ThreadWeaver.Library.Fair

/-!
# What has been enqueued is done

A fair schedule of the callers and of a pool of workers, in which nobody makes a new call, does
everything that has been enqueued: from some time on the weaver is idle, everything is done and
every `finish` has returned.  There is at least one worker in the pool, and those that are not in it
have no job.  The queue policies of the program are assumed to accept the jobs that are ready when
no worker is active.

A worker that finds nothing asks again; that it is woken for it again and again is part of the
fairness.  So some thread can always go on, and there is a fair schedule from every state.

All but finitely many steps only look for something to do.  While nothing else is done, the weaver
mutex is free again and again, since a worker that goes through the queue comes to its end.  A
thread that had anything else to do would be able to do it then, or wait for one that is; so there
is none, and no worker is active.  If there were jobs in the queue one of them would be accepted,
and a worker that goes through the queue would come to it.
-/

namespace ThreadWeaver.Collection

open Filter
open Library (Stacked RunWhere FairSchedule)

variable {J P T σ : Type*}

/-! ## Steps that look for something to do -/

/-- The operations of a thread that looks for something to do. -/
def Op.isSearch : Op J → Bool
  | applyForWork wasBusy => !wasBusy
  | takeFirst _ | finish => true
  | _ => false

/-- The number of jobs that a worker has still to look at. -/
def scanLength : List (Op J) → ℕ
  | [.takeFirst candidates] => candidates.length + 1
  | _ => 0

/-- The queue, the active count, the places of the jobs, their policies and their mutexes are the
same, and so are the jobs that have been freed of their policies. -/
structure Data.Agrees (d d' : Data J P T σ) : Prop where
  assignments : d'.assignments = d.assignments
  active : d'.active = d.active
  place : d'.place = d.place
  queuePolicies : d'.queuePolicies = d.queuePolicies
  holder : ∀ job, d'.holder (.job job) = d.holder (.job job)
  freed : ∀ job, d'.IsFreed job ↔ d.IsFreed job

theorem Data.Agrees.refl (d : Data J P T σ) : d.Agrees d :=
  ⟨rfl, rfl, rfl, rfl, fun _ => rfl, fun _ => Iff.rfl⟩

theorem Data.Agrees.trans {d d' d'' : Data J P T σ} (h : d.Agrees d') (h' : d'.Agrees d'') :
    d.Agrees d'' where
  assignments := h'.assignments.trans h.assignments
  active := h'.active.trans h.active
  place := h'.place.trans h.place
  queuePolicies := h'.queuePolicies.trans h.queuePolicies
  holder job := (h'.holder job).trans (h.holder job)
  freed job := (h'.freed job).trans (h.freed job)

section Exec

variable [DecidableEq J] {F : Forest J P σ} {s : State J P T σ} {d : Data J P T σ}
  {thread : Thread T} {op : Op J} {rest : List (Op J)} {job : J}

theorem Op.isSearch_of_polls (h : op.polls F d = true) : op.isSearch = true := by
  cases op with
  | applyForWork wasBusy => exact h
  | takeFirst candidates | finish => rfl
  | _ => cases h

/-- Who looks for something to do leaves everything as it is. -/
theorem exec_agrees [DecidableEq P] (thread : Thread T) (h : op.polls F d = true) :
    d.Agrees (exec F thread op d).1 := by
  cases op with
  | applyForWork wasBusy =>
      cases wasBusy with
      | true => cases h
      | false => exact ⟨rfl, rfl, rfl, rfl, fun job => by simp [exec, Data.lock], fun _ => Iff.rfl⟩
  | takeFirst candidates =>
      cases candidates with
      | nil => exact ⟨rfl, rfl, rfl, rfl, fun job => by simp [exec, Data.unlock], fun _ => Iff.rfl⟩
      | cons job candidates =>
          have hcan : d.canBeExecuted F job = false := by simpa [Op.polls] using h
          simp only [exec, hcan]
          exact ⟨rfl, rfl, rfl, rfl, fun _ => rfl, fun _ => Iff.rfl⟩
  | finish =>
      simp only [exec]
      split
      · refine ⟨rfl, rfl, rfl, rfl, fun _ => rfl, fun job => ?_⟩
        simp [Data.IsFreed, Data.record]
      · exact .refl d
  | _ => cases h

/-- Who looks for something to do has no mutex but that of the weaver. -/
theorem State.Sound.not_isSearch (hs : s.Sound F)
    (hrests : Stacked (Rests F s.data.place) (s.stack thread))
    (hstack : s.stack thread = op :: rest)
    (hholder : s.data.holder (.job job) = some thread) : op.isSearch = false := by
  have hreleases := hs.releases_of_holder hholder
  have hfits := hs.layout thread
  rw [hstack, releases_cons_iff] at hreleases
  rw [hstack] at hrests hfits
  refine Bool.eq_false_of_not_eq_true fun hsearch => ?_
  cases op with
  | applyForWork wasBusy =>
      have hrest : rest = [] := hfits.1
      rcases hreleases with hlocks | ⟨later, hlater, -⟩
      · cases hlocks
      · rw [hrest] at hlater
        cases hlater
  | takeFirst candidates =>
      have hrest : rest = [] := hfits.1
      rcases hreleases with hlocks | ⟨later, hlater, -⟩
      · cases List.mem_singleton.mp hlocks
      · rw [hrest] at hlater
        cases hlater
  | finish =>
      rcases hreleases with hlocks | hbelow
      · cases hlocks
      · exact hrests.1 _ hbelow
  | _ => cases hsearch

end Exec

theorem Data.IsReady.of_agrees {d d' : Data J P T σ} {job : J} (h : d.IsReady job)
    (hagrees : d.Agrees d') : d'.IsReady job := by
  unfold Data.IsReady
  rwa [hagrees.place, hagrees.queuePolicies]

/-- The policies that the program has given to the jobs accept a job that is ready, when no worker
is active. -/
def AdmitsWhenIdle [DecidableEq J] [DecidableEq P] (F : Forest J P σ)
    (start : Weaver.Start J P σ) (T : Type*) [DecidableEq T] : Prop :=
  ∀ s : State J P T σ, Runs F Undisturbed start s → s.data.active = 0 →
    ∀ job, s.data.IsReady job →
      (F.policies.canBeExecuted (start.queuePolicies job) job s.data.policyState).1 = true

/-- The job is ready, and its policies accept it as long as nothing is done. -/
structure State.Offers [DecidableEq J] [DecidableEq P] [DecidableEq T] (F : Forest J P σ)
    (start : Weaver.Start J P σ) (s : State J P T σ) (ready : J) : Prop where
  isReady : s.data.IsReady ready
  accepts : ∀ s' : State J P T σ, Runs F Undisturbed start s' → s.data.Agrees s'.data →
    (F.policies.canBeExecuted (start.queuePolicies ready) ready s'.data.policyState).1 = true

theorem State.Offers.of_agrees [DecidableEq J] [DecidableEq P] [DecidableEq T] {F : Forest J P σ}
    {start : Weaver.Start J P σ} {s s' : State J P T σ} {ready : J} (h : s.Offers F start ready)
    (hagrees : s.data.Agrees s'.data) : s'.Offers F start ready where
  isReady := h.isReady.of_agrees hagrees
  accepts later run hlater := h.accepts later run (hagrees.trans hlater)

/-- When no worker is active and jobs are in the queue, there is a job that will be accepted. -/
def State.Finds [DecidableEq J] [DecidableEq P] [DecidableEq T] (F : Forest J P σ)
    (start : Weaver.Start J P σ) (s : State J P T σ) : Prop :=
  s.data.active = 0 → s.data.assignments ≠ [] → ∃ ready, s.Offers F start ready

/-- It is so in every state. -/
def FindsWhenIdle [DecidableEq J] [DecidableEq P] (F : Forest J P σ)
    (start : Weaver.Start J P σ) (T : Type*) [DecidableEq T] : Prop :=
  ∀ s : State J P T σ, Runs F Undisturbed start s → s.Finds F start

theorem AdmitsWhenIdle.finds [DecidableEq J] [DecidableEq P] [DecidableEq T] {F : Forest J P σ}
    {start : Weaver.Start J P σ} (hadmits : AdmitsWhenIdle F start T) :
    FindsWhenIdle F start T := by
  intro s run hidle hne
  obtain ⟨job, hmem⟩ := List.exists_mem_of_ne_nil _ hne
  obtain ⟨ready, hready⟩ := runs_exists_isReady run hidle hmem
  refine ⟨ready, hready, fun s' run' hagrees => ?_⟩
  exact hadmits s' run' (hagrees.active.trans hidle) ready (hready.of_agrees hagrees)

/-- Workers do not wait for the end of all work. -/
theorem runs_finish [DecidableEq J] [DecidableEq P] [DecidableEq T] {F : Forest J P σ}
    {start : Weaver.Start J P σ} {s : State J P T σ} {ok : State J P T σ → Act J T → Prop}
    (run : Runs F ok start s) (number : ℕ) : .finish ∉ s.stack (.worker number) := by
  induction run with
  | refl => simp [init]
  | @tail mid last act _ _ hstep ih =>
      refine step_rule (I := fun s => .finish ∉ s.stack (.worker number)) ih ?_
        (fun _ _ _ _ => ih) ?_ hstep
      · intro thread _ hran
        obtain ⟨op, rest, hstack, -, rfl⟩ := State.runThread_eq_some hran
        intro hfinish
        rcases State.mem_exec hstack hfinish with ⟨rfl, hcalls⟩ | ⟨hbefore, -⟩
        · generalize heq : Op.finish = later at hcalls
          cases hcalls with
          | finish => exact ih (hstack ▸ List.mem_cons_self)
          | _ => cases heq
        · exact ih hbefore
      · intro before caller hbefore hbegin
        obtain ⟨-, rfl⟩ := State.beginCall_eq_some hbegin
        have hne : (.worker number : Thread T) ≠ .caller caller := by simp
        dsimp only
        rwa [Function.update_of_ne hne]

/-- A thread goes on. -/
theorem Runs.runThread [DecidableEq J] [DecidableEq P] [DecidableEq T] {F : Forest J P σ}
    {start : Weaver.Start J P σ} {s next : State J P T σ} {thread : Thread T}
    (run : Runs F Undisturbed start s) (h : step F s (.run thread) = some next) :
    Runs F Undisturbed start next :=
  .tail run (show Undisturbed s (.run thread) from trivial) h

/-! ## Fair schedules exist -/

theorem Thread.countable [Countable T] : Countable (Thread T) := by
  let sum : Thread T → ℕ ⊕ T := fun thread => thread.rec .inl .inr
  refine Function.Injective.countable (f := sum) ?_
  rintro (number | caller) (number' | caller') h <;> simp_all [sum]

/-- The threads of a program with a pool of workers: these workers and the callers. -/
def crew (pool : Set ℕ) : Set (Thread T) :=
  {thread | ∀ number, thread = .worker number → number ∈ pool}

@[simp] theorem worker_mem_crew {pool : Set ℕ} {number : ℕ} :
    (.worker number : Thread T) ∈ crew pool ↔ number ∈ pool := by
  simp [crew]

@[simp] theorem caller_mem_crew {pool : Set ℕ} {caller : T} : .caller caller ∈ crew pool := by
  simp [crew]

/-- The workers that are not in the pool have no job and do not look for one. -/
def State.OthersRest (pool : Set ℕ) (s : State J P T σ) : Prop :=
  ∀ number, number ∉ pool → s.stack (.worker number) = [.applyForWork false]

namespace State.OthersRest

variable {pool : Set ℕ} {s next : State J P T σ} {thread : Thread T}

theorem stack_eq (h : s.OthersRest pool) (hnot : thread ∉ crew pool) :
    s.stack thread = [.applyForWork false] := by
  obtain ⟨number, hworker⟩ := not_forall.mp hnot
  obtain ⟨rfl, hnumber⟩ := Classical.not_imp.mp hworker
  exact h number hnumber

theorem runThread [DecidableEq J] [DecidableEq P] [DecidableEq T] {F : Forest J P σ}
    (h : s.OthersRest pool) (hmem : thread ∈ crew pool)
    (hstep : step F s (.run thread) = some next) : next.OthersRest pool := by
  intro number hnumber
  rw [step_stack_of_ne F hstep]
  · exact h number hnumber
  · rintro heq
    exact hnumber (hmem number heq.symm)

/-- Nobody waits for a worker that rests. -/
theorem mem_crew_of_waitsFor [DecidableEq J] {F : Forest J P σ} (h : s.OthersRest pool)
    (hs : s.Sound F) {before : Thread T} (hwaits : s.WaitsFor F before thread) :
    thread ∈ crew pool := by
  by_contra hnot
  obtain ⟨-, -, mutex, -, -, hholder⟩ := hwaits
  obtain ⟨later, hlater, hreleases⟩ := hs.releases_of_holder hholder
  rw [h.stack_eq hnot] at hlater
  cases List.mem_singleton.mp hlater
  cases hreleases

end State.OthersRest

/-- The threads go on for ever in a run that nobody disturbs, and they can do so fairly. -/
theorem runs_exists_fairSchedule [DecidableEq J] [DecidableEq P] [DecidableEq T] [Countable T]
    {F : Forest J P σ} {start : Weaver.Start J P σ} {s : State J P T σ} {pool : Set ℕ}
    (hpool : pool.Nonempty) (run : Runs F Undisturbed start s) (hrest : s.OthersRest pool) :
    ∃ (states : ℕ → State J P T σ) (threads : ℕ → Thread T), states 0 = s ∧
      FairSchedule (fun s thread => step F s (.run thread)) (crew pool) states threads := by
  have hcountable : Countable (Thread T) := Thread.countable
  refine Library.exists_fairSchedule
    (I := fun mid => Runs F Undisturbed start mid ∧ mid.OthersRest pool) ?_
    (fun _ _ _ hmem hmid hstep => ⟨hmid.1.runThread hstep, hmid.2.runThread hmem hstep⟩)
    ⟨run, hrest⟩
  rintro mid ⟨hmid, hothers⟩
  obtain ⟨number, hnumber⟩ := hpool
  have hne : mid.stack (.worker number) ≠ [] := by
    rcases (runs_staffed hmid).workers number with hbusy | hfree | ⟨candidates, hfree⟩
    · exact List.ne_nil_of_mem hbusy
    · simp [hfree]
    · simp [hfree]
  obtain ⟨ready, hpath, hready⟩ := runs_exists_ready hmid hne
  refine ⟨ready, ?_, hready⟩
  rcases Relation.ReflTransGen.cases_tail hpath with rfl | ⟨before, -, hwaits⟩
  · exact worker_mem_crew.mpr hnumber
  · exact hothers.mem_crew_of_waitsFor (runs_sound hmid) hwaits

/-! ## Schedules in which nothing else is done -/

/-- A fair schedule, from a run that nobody disturbs, in which the threads do nothing but look for
something to do. -/
structure Searching [DecidableEq J] [DecidableEq P] [DecidableEq T] (F : Forest J P σ)
    (start : Weaver.Start J P σ) (pool : Set ℕ) (states : ℕ → State J P T σ)
    (threads : ℕ → Thread T) : Prop where
  nonempty : pool.Nonempty
  schedule : FairSchedule (fun s thread => step F s (.run thread)) (crew pool) states threads
  run : Runs F Undisturbed start (states 0)
  rest : (states 0).OthersRest pool
  polls : ∀ i, (states i).Polls F (threads i)

namespace Searching

variable [DecidableEq J] [DecidableEq P] [DecidableEq T] {F : Forest J P σ}
  {start : Weaver.Start J P σ} {pool : Set ℕ} {states : ℕ → State J P T σ}
  {threads : ℕ → Thread T} {thread other : Thread T} {op : Op J} {rest : List (Op J)}

theorem reached (h : Searching F start pool states threads) (i : ℕ) :
    Runs F Undisturbed start (states i) :=
  h.schedule.invariant h.run (fun _ _ _ _ run hstep => run.runThread hstep) i

theorem rests (h : Searching F start pool states threads) (i : ℕ) : (states i).OthersRest pool :=
  h.schedule.invariant h.rest (fun _ _ _ hmem hrest hstep => hrest.runThread hmem hstep) i

theorem tail (h : Searching F start pool states threads) (n : ℕ) :
    Searching F start pool (fun i => states (n + i)) (fun i => threads (n + i)) where
  nonempty := h.nonempty
  schedule := h.schedule.tail n
  run := h.reached n
  rest := h.rests n
  polls i := h.polls (n + i)

/-- The step that is done at a time. -/
theorem step_eq (h : Searching F start pool states threads) (i : ℕ) :
    ∃ op rest, (states i).stack (threads i) = op :: rest ∧ op.polls F (states i).data = true ∧
      (∀ mutex, wants F op = some mutex → (states i).data.holder mutex = none) ∧
      states (i + 1) = ⟨(exec F (threads i) op (states i).data).1,
        Function.update (states i).stack (threads i)
          ((exec F (threads i) op (states i).data).2 ++ rest)⟩ := by
  obtain ⟨op, rest, hstack, hfree, hnext⟩ := State.runThread_eq_some (h.schedule.steps i)
  exact ⟨op, rest, hstack, h.polls i op (by rw [hstack]; rfl), hfree, hnext⟩

theorem stack_of_ne (h : Searching F start pool states threads) {i : ℕ} (hne : thread ≠ threads i) :
    (states (i + 1)).stack thread = (states i).stack thread := by
  obtain ⟨op, rest, -, -, -, hnext⟩ := h.step_eq i
  rw [hnext]
  exact Function.update_of_ne hne _ _

/-- Between its steps the stack of a thread stays as it is. -/
theorem stack_of_waits (h : Searching F start pool states threads) {n i : ℕ} (hle : n ≤ i)
    (hnot : ∀ j, n ≤ j → j < i → threads j ≠ thread) :
    (states i).stack thread = (states n).stack thread := by
  induction i, hle using Nat.le_induction with
  | base => rfl
  | succ i hle ih =>
      rw [h.stack_of_ne (hnot i hle (by omega)).symm]
      exact ih fun j hj hlt => hnot j hj (by omega)

theorem agrees (h : Searching F start pool states threads) (i : ℕ) :
    (states 0).data.Agrees (states i).data := by
  induction i with
  | zero => exact .refl _
  | succ i ih =>
      obtain ⟨op, rest, -, hpolls, -, hnext⟩ := h.step_eq i
      rw [hnext]
      exact ih.trans (exec_agrees (threads i) hpolls)

/-- A thread that has anything else to do does nothing. -/
theorem stack_of_working (h : Searching F start pool states threads)
    (hstack : (states 0).stack thread = op :: rest) (hop : op.isSearch = false) (i : ℕ) :
    (states i).stack thread = op :: rest ∧ threads i ≠ thread := by
  have hnot : ∀ {i}, (states i).stack thread = op :: rest → threads i ≠ thread := by
    rintro i hbefore rfl
    obtain ⟨head, below, hhead, hpolls, -, -⟩ := h.step_eq i
    rw [hbefore] at hhead
    cases hhead
    rw [Op.isSearch_of_polls hpolls] at hop
    cases hop
  induction i with
  | zero => exact ⟨hstack, hnot hstack⟩
  | succ i ih =>
      have hafter := (h.stack_of_ne ih.2.symm).trans ih.1
      exact ⟨hafter, hnot hafter⟩

/-! ### The weaver mutex is free again and again -/

/-- A worker that goes through the queue does not take the next job. -/
theorem takeFirst_step (h : Searching F start pool states threads) {i : ℕ} {job : J}
    {candidates : List J} (hstack : (states i).stack (threads i) = [.takeFirst (job :: candidates)]) :
    (states i).data.canBeExecuted F job = false ∧
      (states (i + 1)).stack (threads i) = [.takeFirst candidates] := by
  obtain ⟨op, rest, hhead, hpolls, -, hnext⟩ := h.step_eq i
  rw [hstack] at hhead
  cases hhead
  have hcan : (states i).data.canBeExecuted F job = false := by simpa [Op.polls] using hpolls
  refine ⟨hcan, ?_⟩
  rw [hnext]
  simp [exec, hcan]

/-- While the weaver mutex is not free, the worker that has it goes through the queue. -/
theorem scans_of_held (h : Searching F start pool states threads)
    (hheld : ∀ i, (states i).data.holder .weaver ≠ none) (i : ℕ) :
    ∃ job candidates, (states i).stack (threads i) = [.takeFirst (job :: candidates)] := by
  obtain ⟨op, rest, hstack, hpolls, hfree, hnext⟩ := h.step_eq i
  cases op with
  | applyForWork wasBusy => exact absurd (hfree .weaver rfl) (hheld i)
  | finish => exact absurd (hfree .weaver rfl) (hheld i)
  | takeFirst candidates =>
      cases candidates with
      | nil =>
          refine absurd ?_ (hheld (i + 1))
          rw [hnext]
          simp [exec, Data.unlock]
      | cons job candidates =>
          have hfits := (runs_sound (h.reached i)).layout (threads i)
          rw [hstack] at hfits
          have hrest : rest = [] := hfits.1
          exact ⟨job, candidates, hrest ▸ hstack⟩
  | _ => cases hpolls

theorem exists_free (h : Searching F start pool states threads) :
    ∃ i, (states i).data.holder .weaver = none := by
  by_contra hnone
  have hheld : ∀ i, (states i).data.holder .weaver ≠ none := fun i hfree => hnone ⟨i, hfree⟩
  have hlt : ∀ i, scanLength ((states (i + 1)).stack (threads (i + 1))) <
      scanLength ((states i).stack (threads i)) := by
    intro i
    obtain ⟨job, candidates, hstack⟩ := h.scans_of_held hheld i
    obtain ⟨-, hafter⟩ := h.takeFirst_step hstack
    obtain ⟨job', candidates', hstack'⟩ := h.scans_of_held hheld (i + 1)
    -- there is one worker that has the mutex
    have hsound := runs_sound (h.reached (i + 1))
    have hholder : ∀ {thread candidates},
        (states (i + 1)).stack thread = [.takeFirst candidates] →
        (states (i + 1)).data.holder .weaver = some thread := by
      intro thread candidates hscan
      refine hsound.holder_eq ⟨.takeFirst candidates, ?_, List.mem_singleton.mpr rfl⟩
      rw [hscan]
      exact List.mem_singleton.mpr rfl
    have hsame : threads (i + 1) = threads i :=
      Option.some.inj ((hholder hstack').symm.trans (hholder hafter))
    rw [hsame, hafter, hstack]
    simp [scanLength]
  exact Library.not_frequently_of_work (fun i => scanLength ((states i).stack (threads i)))
    (fun i => (hlt i).le) (Frequently.of_forall hlt)

theorem frequently_free (h : Searching F start pool states threads) :
    ∃ᶠ i in atTop, (states i).data.holder .weaver = none := by
  rw [frequently_atTop]
  intro n
  obtain ⟨i, hfree⟩ := (h.tail n).exists_free
  exact ⟨n + i, Nat.le_add_right n i, hfree⟩

/-! ### Nobody has anything else to do -/

/-- A thread that has anything else to do can do it when the weaver mutex is free, or waits for one
that can. -/
theorem isSearch_of_head (h : Searching F start pool states threads)
    (hstack : (states 0).stack thread = op :: rest) : op.isSearch = true := by
  by_contra hop
  obtain ⟨n, hfree⟩ := h.exists_free
  -- who is waited for has anything else to do as well
  have hworking : ∀ {other}, Relation.ReflTransGen ((states n).WaitsFor F) thread other →
      ∃ op rest, (states n).stack other = op :: rest ∧ op.isSearch = false := by
    intro other hpath
    induction hpath with
    | refl => exact ⟨op, rest, (h.stack_of_working hstack (by simpa using hop) n).1, by simpa using hop⟩
    | @tail before after _ hwaits _ =>
        obtain ⟨-, -, mutex, -, -, hholder⟩ := hwaits
        have hsound := runs_sound (h.reached n)
        have hrests := runs_rests (runs_uncrossed (h.reached n)).1 after
        obtain ⟨later, hlater, -⟩ := hsound.releases_of_holder hholder
        obtain ⟨head, below, hhead⟩ := List.exists_cons_of_ne_nil (List.ne_nil_of_mem hlater)
        cases mutex with
        | weaver =>
            rw [hfree] at hholder
            cases hholder
        | job job => exact ⟨head, below, hhead, hsound.not_isSearch hrests hhead hholder⟩
  have hne : (states n).stack thread ≠ [] := by
    rw [(h.stack_of_working hstack (by simpa using hop) n).1]
    simp
  obtain ⟨ready, hpath, hcan⟩ := runs_exists_ready (h.reached n) hne
  obtain ⟨head, below, hhead, hnot⟩ := hworking hpath
  obtain ⟨next, hnext⟩ := Option.isSome_iff_exists.mp hcan
  obtain ⟨head', below', hhead', hmutex, -⟩ := State.runThread_eq_some hnext
  rw [hhead] at hhead'
  cases hhead'
  have hlater := h.tail n
  have henabled : ∃ᶠ i in atTop, (step F (states (n + i)) (.run ready)).isSome = true := by
    refine hlater.frequently_free.mono fun i hweaver => ?_
    have hkept := (hlater.stack_of_working hhead hnot i).1
    refine State.isSome_runThread (by rw [hkept]; simp) fun other hwaits => ?_
    obtain ⟨op', rest', mutex, hsame, hwants, hholder⟩ := hwaits
    rw [hkept] at hsame
    cases hsame
    cases mutex with
    | weaver =>
        rw [hweaver] at hholder
        cases hholder
    | job job =>
        have hagrees : (states (n + i)).data.holder (.job job) = (states n).data.holder (.job job) :=
          (hlater.agrees i).holder job
        rw [hagrees, hmutex _ hwants] at hholder
        cases hholder
  have hmem : ready ∈ crew pool := by
    by_contra hother
    rw [(h.rests n).stack_eq hother] at hhead
    cases hhead
    cases hnot
  obtain ⟨i, -, hacts, -⟩ := hlater.schedule.exists_next hmem henabled 0
  exact (hlater.stack_of_working hhead hnot i).2 hacts

/-- The workers have no job. -/
theorem isFree (h : Searching F start pool states threads) (number : ℕ) :
    IsFree ((states 0).stack (.worker number)) := by
  rcases (runs_staffed h.run).workers number with hbusy | hfree
  · exfalso
    obtain ⟨op, rest, hstack⟩ := List.exists_cons_of_ne_nil (List.ne_nil_of_mem hbusy)
    have hop := h.isSearch_of_head hstack
    have hfits := (runs_sound h.run).layout (.worker number)
    have hfinish := runs_finish h.run number
    rw [hstack] at hbusy hfits hfinish
    cases op with
    | applyForWork wasBusy =>
        have hrest : rest = [] := hfits.1
        rw [hrest] at hbusy
        cases List.mem_singleton.mp hbusy
        cases hop
    | takeFirst candidates =>
        have hrest : rest = [] := hfits.1
        rw [hrest] at hbusy
        cases List.mem_singleton.mp hbusy
    | finish => exact hfinish List.mem_cons_self
    | _ => cases hop
  · exact hfree

theorem active_eq_zero (h : Searching F start pool states threads) : (states 0).data.active = 0 := by
  obtain ⟨busy, hbusy, hactive⟩ := (runs_staffed h.run).active
  have hnone : busy = ∅ := by
    refine Finset.eq_empty_of_forall_notMem fun number hmem => ?_
    have hyes := (hbusy number).mp hmem
    rcases h.isFree number with hfree | ⟨candidates, hfree⟩ <;>
    · rw [hfree] at hyes
      cases List.mem_singleton.mp hyes
  rw [hactive, hnone]
  rfl

/-- A worker gets to go on again and again. -/
theorem frequently_worker (h : Searching F start pool states threads) (number : ℕ) :
    ∃ᶠ i in atTop, (states i).stack (.worker number) = [.applyForWork false] ∧
      (step F (states i) (.run (.worker number))).isSome = true := by
  refine h.frequently_free.mono fun i hweaver => ?_
  have hstack : (states i).stack (.worker number) = [.applyForWork false] := by
    rcases (h.tail i).isFree number with hfree | ⟨candidates, hscan⟩
    · exact hfree
    · have hholder := (runs_sound (h.reached i)).holder_eq
        (⟨.takeFirst candidates, hscan ▸ List.mem_singleton.mpr rfl, List.mem_singleton.mpr rfl⟩ :
          Releases .weaver ((states i).stack (.worker number)))
      rw [hweaver] at hholder
      cases hholder
  refine ⟨hstack, State.isSome_runThread (by rw [hstack]; simp) fun other hwaits => ?_⟩
  obtain ⟨op, rest, mutex, hsame, hwants, hholder⟩ := hwaits
  rw [hstack] at hsame
  cases hsame
  cases hwants
  rw [hweaver] at hholder
  cases hholder

/-! ### A worker that goes through the queue comes to a job that is accepted -/

/-- The worker comes to the job. -/
theorem not_scans (h : Searching F start pool states threads) {number : ℕ} {candidates : List J}
    {ready : J} (hoffers : (states 0).Offers F start ready) (hmem : ready ∈ candidates) :
    (states 0).stack (.worker number) ≠ [.takeFirst candidates] := by
  induction candidates generalizing states threads with
  | nil => cases hmem
  | cons job candidates ih =>
      intro hstack
      have hnumber : (.worker number : Thread T) ∈ crew pool := by
        by_contra hother
        rw [h.rest.stack_eq hother] at hstack
        cases hstack
      obtain ⟨i, -, hacts, hnot⟩ := h.schedule.exists_next hnumber
        ((h.frequently_worker number).mono fun _ => And.right) 0
      have hkept := h.stack_of_waits (Nat.zero_le i) hnot
      rw [hstack, ← hacts] at hkept
      obtain ⟨hrefused, hafter⟩ := h.takeFirst_step hkept
      have hstays := hoffers.of_agrees (h.agrees i)
      rcases List.mem_cons.mp hmem with rfl | hrest
      · have hcan := (runs_ownPolicies (h.reached i)).canBeExecuted_eq (F := F) hstays.isReady.2
        rw [hrefused, hstays.accepts (states i) (h.reached i) (.refl _)] at hcan
        cases hcan
      · rw [hacts] at hafter
        exact ih (h.tail (i + 1)) (hoffers.of_agrees (h.agrees (i + 1))) hrest hafter

/-- Nothing is left in the queue. -/
theorem assignments_eq_nil (h : Searching F start pool states threads)
    (hfinds : (states 0).Finds F start) : (states 0).data.assignments = [] := by
  by_contra hne
  obtain ⟨ready, hoffers⟩ := hfinds h.active_eq_zero hne
  obtain ⟨number, hnumber⟩ := h.nonempty
  obtain ⟨n, -, hwaits, -⟩ := frequently_atTop.mp (h.frequently_worker number) 0
  obtain ⟨i, hle, hacts, hnot⟩ := h.schedule.exists_next (worker_mem_crew.mpr hnumber)
    ((h.frequently_worker number).mono fun _ => And.right) n
  have hkept := (h.stack_of_waits hle hnot).trans hwaits
  obtain ⟨op, rest, hstack, -, -, hnext⟩ := h.step_eq i
  rw [hacts, hkept] at hstack
  cases hstack
  -- the worker begins with all of the queue
  have hscan : (states (i + 1)).stack (.worker number) =
      [.takeFirst (states i).data.assignments] := by
    rw [hnext, hacts]
    simp [exec, Data.lock]
  have hlisted : ready ∈ (states i).data.assignments := by
    rw [(h.agrees i).assignments]
    exact (runs_sound h.run).queued ready hoffers.isReady.1
  exact (h.tail (i + 1)).not_scans (hoffers.of_agrees (h.agrees (i + 1))) hlisted hscan

theorem isIdleP (h : Searching F start pool states threads) (hfinds : (states 0).Finds F start) :
    (states 0).data.isIdleP = true := by
  simp [Data.isIdleP, h.assignments_eq_nil hfinds, h.active_eq_zero]

/-! ### Every call returns -/

/-- A thread that has nothing to do stays so. -/
theorem stack_of_nil (h : Searching F start pool states threads)
    (hnil : (states 0).stack thread = []) (i : ℕ) : (states i).stack thread = [] := by
  induction i with
  | zero => exact hnil
  | succ i ih =>
      rw [h.stack_of_ne, ih]
      rintro rfl
      obtain ⟨op, rest, hstack, -⟩ := h.step_eq i
      rw [ih] at hstack
      cases hstack

/-- A caller that has anything to do waits for the end of all work. -/
theorem caller_stack (h : Searching F start pool states threads) {caller : T}
    (hne : (states 0).stack (.caller caller) ≠ []) :
    ∃ rest, (states 0).stack (.caller caller) = .finish :: rest := by
  obtain ⟨op, rest, hstack⟩ := List.exists_cons_of_ne_nil hne
  have hop := h.isSearch_of_head hstack
  have hcall := (runs_staffed h.run).callers caller op (hstack ▸ List.mem_cons_self)
  cases op with
  | finish => exact ⟨rest, hstack⟩
  | applyForWork wasBusy | takeFirst candidates => cases hcall
  | _ => cases hop

theorem exists_returned (h : Searching F start pool states threads)
    (hfinds : ∀ i, (states i).Finds F start) (caller : T) :
    ∃ i, (states i).stack (.caller caller) = [] := by
  generalize hstack : (states 0).stack (.caller caller) = stack
  induction stack generalizing states threads with
  | nil => exact ⟨0, hstack⟩
  | cons op rest ih =>
      by_contra hnever
      have hwaits : ∀ i, ∃ rest, (states i).stack (.caller caller) = .finish :: rest :=
        fun i => (h.tail i).caller_stack fun hnil => hnever ⟨i, hnil⟩
      have henabled : ∃ᶠ i in atTop, (step F (states i) (.run (.caller caller))).isSome = true := by
        refine h.frequently_free.mono fun i hweaver => ?_
        obtain ⟨below, hbelow⟩ := hwaits i
        refine State.isSome_runThread (by rw [hbelow]; simp) fun other hblocked => ?_
        obtain ⟨op', rest', mutex, hsame, hwants, hholder⟩ := hblocked
        rw [hbelow] at hsame
        cases hsame
        cases hwants
        rw [hweaver] at hholder
        cases hholder
      obtain ⟨i, -, hacts, hnot⟩ := h.schedule.exists_next caller_mem_crew henabled 0
      have hkept := (h.stack_of_waits (Nat.zero_le i) hnot).trans hstack
      obtain ⟨below, hbelow⟩ := hwaits i
      obtain ⟨head, last, hhead, -, -, hnext⟩ := h.step_eq i
      rw [hacts, hkept] at hhead
      rw [hkept] at hbelow
      cases hhead
      cases hbelow
      have hidle : (states i).data.isIdleP = true := (h.tail i).isIdleP (hfinds i)
      have hafter : (states (i + 1)).stack (.caller caller) = rest := by
        rw [hnext, hacts]
        simp [exec, hidle]
      obtain ⟨j, hreturned⟩ := ih (h.tail (i + 1)) (fun j => hfinds (i + 1 + j)) hafter
      exact hnever ⟨i + 1 + j, hreturned⟩

end Searching

/-! ## Fair schedules -/

section Fair

variable [DecidableEq J] [DecidableEq P] [DecidableEq T] {F : Forest J P σ}
  {start : Weaver.Start J P σ} {s : State J P T σ} {pool : Set ℕ} {states : ℕ → State J P T σ}
  {threads : ℕ → Thread T}

/-- From some time on nothing is done but looking for something to do. -/
theorem exists_searching [Fintype J] (hpool : pool.Nonempty)
    (run : Runs F Undisturbed start (states 0)) (hrest : (states 0).OthersRest pool)
    (hschedule : FairSchedule (fun s thread => step F s (.run thread)) (crew pool) states threads) :
    ∃ n, Searching F start pool (fun i => states (n + i)) (fun i => threads (n + i)) := by
  have hwork := runs_work run rfl hschedule.steps
  have hpolls : ∀ᶠ i in atTop, (states i).Polls F (threads i) := by
    have hnot := Library.not_frequently_of_work (fun i => (states i).work F) fun i => (hwork i).1
    refine (not_frequently.mp hnot).mono fun i hnotless => ?_
    by_contra hworks
    exact hnotless ((hwork i).2 hworks)
  obtain ⟨n, hn⟩ := eventually_atTop.mp hpolls
  have hreached : ∀ i, Runs F Undisturbed start (states i) :=
    hschedule.invariant run fun _ _ _ _ run hstep => run.runThread hstep
  have hrests : ∀ i, (states i).OthersRest pool :=
    hschedule.invariant hrest fun _ _ _ hmem hrest hstep => hrest.runThread hmem hstep
  exact ⟨n, hpool, hschedule.tail n, hreached n, hrests n,
    fun i => hn (n + i) (Nat.le_add_right n i)⟩

/-- A program whose jobs are found drains. -/
theorem drains_of_finds [Fintype J] (hpool : pool.Nonempty)
    (run : Runs F Undisturbed start (states 0)) (hrest : (states 0).OthersRest pool)
    (hschedule : FairSchedule (fun s thread => step F s (.run thread)) (crew pool) states threads)
    (hfinds : ∀ i, Runs F Undisturbed start (states i) → (states i).Finds F start) :
    (∀ᶠ i in atTop, (states i).data.isIdleP = true ∧ AllDone F (states i).data.log) ∧
      ∀ caller, ∀ᶠ i in atTop, (states i).stack (.caller caller) = [] := by
  obtain ⟨n, hn⟩ := exists_searching hpool run hrest hschedule
  have hlater : ∀ k, (states (n + k)).Finds F start := fun k => hfinds _ (hn.reached k)
  constructor
  · refine eventually_atTop.mpr ⟨n, fun i hle => ?_⟩
    obtain ⟨k, rfl⟩ := Nat.exists_eq_add_of_le hle
    have hidle : (states (n + k)).data.isIdleP = true := (hn.tail k).isIdleP (hlater k)
    exact ⟨hidle, runs_allDone (hn.reached k) hidle⟩
  · intro caller
    obtain ⟨m, hreturned⟩ := hn.exists_returned hlater caller
    refine eventually_atTop.mpr ⟨n + m, fun i hle => ?_⟩
    obtain ⟨k, rfl⟩ := Nat.exists_eq_add_of_le hle
    rw [Nat.add_assoc]
    exact (hn.tail m).stack_of_nil hreturned k

/-- **In fair schedules everything that has been enqueued is done**, by however many workers there
are.  Nobody has called `stop` or `requestAbort` and no new call is made; the policies of the
program accept what is ready when no worker is active.  Then from some time on the weaver is idle
and everything has ended, or has been dequeued after an unsuccessful element of its Sequence, and
every call of `enqueue` and `finish` returns. -/
theorem fair_schedule_drains [Fintype J] (hpool : pool.Nonempty)
    (run : Runs F Undisturbed start s) (hrest : s.OthersRest pool)
    (hadmits : AdmitsWhenIdle F start T) (hstart : states 0 = s)
    (hschedule : FairSchedule (fun s thread => step F s (.run thread)) (crew pool)
      states threads) :
    (∀ᶠ i in atTop, (states i).data.isIdleP = true ∧ AllDone F (states i).data.log) ∧
      ∀ caller, ∀ᶠ i in atTop, (states i).stack (.caller caller) = [] :=
  drains_of_finds hpool (hstart ▸ run) (hstart ▸ hrest) hschedule fun i => hadmits.finds (states i)

end Fair

/-- The Sequence of which the first element fails is enqueued and waited for; two workers
execute it. -/
theorem fair_schedule_drains_failing : ∃ (s : State (Fin 3) Empty Unit Unit)
    (states : ℕ → State (Fin 3) Empty Unit Unit), s.data.assignments = [0] ∧
      s.stack (.caller ()) = [.finish] ∧ states 0 = s ∧
      (∀ᶠ i in atTop, (states i).data.isIdleP = true ∧ AllDone failing (states i).data.log) ∧
      ∀ᶠ i in atTop, (states i).stack (.caller ()) = [] := by
  obtain ⟨s, run, ⟨hlist, hfinish⟩, hframe⟩ :=
    exists_runs failing Undisturbed (.plain ())
      (fun s : State (Fin 3) Empty Unit Unit => s.data.assignments = [0] ∧
        s.stack (.caller ()) = [.finish])
      (List.flatten [[.enqueue () [0]], List.replicate 3 (.run (.caller ())), [.finish ()]])
      (by decide +kernel)
  have hpool : ({0, 1} : Set ℕ).Nonempty := ⟨0, by simp⟩
  have hrest : s.OthersRest {0, 1} := fun number _ => hframe (.worker number) (by simp [Act.thread])
  obtain ⟨states, threads, hstart, hschedule⟩ := runs_exists_fairSchedule hpool run hrest
  have hdrains := fair_schedule_drains hpool run hrest (fun _ _ _ _ _ => rfl) hstart hschedule
  exact ⟨s, states, hlist, hfinish, hstart, hdrains.1, hdrains.2 ()⟩

end ThreadWeaver.Collection
