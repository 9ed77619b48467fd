import ThreadWeaver.Collection.Progress

/-!
# An idle pool finds work

The jobs in the queue that carry the blocker of their Sequence cannot be assigned, whatever their
own policies say.  They do not hold up the queue: when no worker is active and nobody has called
`stop` or `requestAbort`, one of the jobs in the queue is not blocked, and it is its own policies
alone that decide whether it is assigned.

A job that is blocked is an element of a Sequence that waits.  A Sequence that waits has an element
that has the turn, and this one is in the queue, where it is not blocked, or waits itself for its
own elements.  Going inwards one comes to a job in the queue.
-/

namespace ThreadWeaver.Collection

open Weaver.State (assignQueuePolicy removeQueuePolicy)

variable {J P T σ : Type*}

/-! ## The policies of a job -/

theorem withBlocker_acquire (q : QueuePolicies J P σ) (job : J) (policies : List P) (state : σ) :
    (withBlocker q).acquire job (policies.map some) state =
      ((q.acquire job policies state).1.map some, (q.acquire job policies state).2) := by
  induction policies generalizing state with
  | nil => rfl
  | cons policy rest ih =>
      have hcanRun : (withBlocker q).canRun (some policy) job state = q.canRun policy job state :=
        rfl
      simp only [List.map_cons, QueuePolicies.acquire, hcanRun, ih]
      split <;> rfl

theorem withBlocker_canBeExecuted (q : QueuePolicies J P σ) (job : J) (policies : List P)
    (state : σ) :
    (withBlocker q).canBeExecuted (policies.map some) job state =
      q.canBeExecuted policies job state := by
  have hrelease : ∀ (acquired : List P) (state : σ),
      (withBlocker q).releaseAll job (acquired.map some) state =
        q.releaseAll job acquired state := by
    intro acquired state
    simp only [QueuePolicies.releaseAll, List.foldl_map]
    rfl
  simp only [QueuePolicies.canBeExecuted, withBlocker_acquire, hrelease]

section Lists

variable [DecidableEq P] {policies : List P} {policy : P}

theorem removeQueuePolicy_of_notMem (h : policy ∉ policies) :
    removeQueuePolicy policies policy = policies :=
  List.erase_of_not_mem h

theorem removeQueuePolicy_append (h : policy ∉ policies) :
    removeQueuePolicy (policies ++ [policy]) policy = policies := by
  unfold removeQueuePolicy
  rw [List.erase_append_right _ h, List.erase_cons_head, List.append_nil]

end Lists

section OwnPolicies

/-- The policies of a job are its own in their order, and after them the blocker of its
Sequence. -/
structure State.OwnPolicies (F : Forest J P σ) (start : Weaver.Start J P σ)
    (s : State J P T σ) : Prop where
  blocks : ∀ thread element, .assignBlocker element ∈ s.stack thread →
    ∃ collection, F.parent element = some collection ∧ F.kind collection = .sequence
  policies : ∀ job, s.data.queuePolicies job = (start.queuePolicies job).map some ∨
    s.data.queuePolicies job = (start.queuePolicies job).map some ++ [none] ∧
      ∃ collection, F.parent job = some collection ∧ F.kind collection = .sequence

namespace State.OwnPolicies

variable {F : Forest J P σ} {start : Weaver.Start J P σ} {s : State J P T σ} {job : J}

theorem eq_of_unblocked (ho : s.OwnPolicies F start) (h : none ∉ s.data.queuePolicies job) :
    s.data.queuePolicies job = (start.queuePolicies job).map some := by
  refine (ho.policies job).resolve_right fun hblocked => h ?_
  rw [hblocked.1]
  exact List.mem_append_right _ (List.mem_singleton.mpr rfl)

theorem of_blocked (ho : s.OwnPolicies F start) (h : none ∈ s.data.queuePolicies job) :
    ∃ collection, F.parent job = some collection ∧ F.kind collection = .sequence := by
  rcases ho.policies job with hown | hblocked
  · rw [hown] at h
    simp at h
  · exact hblocked.2

theorem canBeExecuted_eq [DecidableEq J] (ho : s.OwnPolicies F start) (h : none ∉ s.data.queuePolicies job) :
    s.data.canBeExecuted F job =
      (F.policies.canBeExecuted (start.queuePolicies job) job s.data.policyState).1 := by
  unfold Data.canBeExecuted
  rw [ho.eq_of_unblocked h, withBlocker_canBeExecuted]

end State.OwnPolicies

variable [DecidableEq J] [DecidableEq P] [DecidableEq T] {F : Forest J P σ}
  {start : Weaver.Start J P σ} {s next : State J P T σ} {ok : State J P T σ → Act J T → Prop}

theorem State.OwnPolicies.runThread (ho : s.OwnPolicies F start) {thread : Thread T}
    (h : s.runThread F thread = some next) : next.OwnPolicies F start := by
  obtain ⟨op, rest, hstack, -, rfl⟩ := State.runThread_eq_some h
  refine ⟨fun other element hmem => ?_, fun job => ?_⟩
  · rcases State.mem_exec hstack hmem with ⟨-, hcalls⟩ | ⟨hbefore, -⟩
    · generalize heq : Op.assignBlocker element = later at hcalls
      cases hcalls with
      | @assignBlocker collection _ _ _ hkind hparent =>
          obtain rfl := Op.assignBlocker.inj heq
          exact ⟨collection, hparent, hkind⟩
      | _ => cases heq
    · exact ho.blocks other element hbefore
  · have hbefore := ho.policies job
    dsimp only
    rcases exec_queuePolicies F thread op s.data job with hsame | ⟨rfl, hassign⟩ | ⟨rfl, hremove⟩
    · rwa [hsame]
    · have helement := ho.blocks thread job (hstack ▸ List.mem_cons_self)
      rw [hassign]
      refine .inr ⟨?_, helement⟩
      rcases hbefore with hown | ⟨hblocked, -⟩
      · simp [hown, assignQueuePolicy]
      · simp [hblocked, assignQueuePolicy]
    · rw [hremove]
      refine .inl ?_
      rcases hbefore with hown | ⟨hblocked, -⟩
      · rw [hown]
        exact removeQueuePolicy_of_notMem (by simp)
      · rw [hblocked]
        exact removeQueuePolicy_append (by simp)

/-- **In every run a job keeps its own policies.** -/
theorem runs_ownPolicies (run : Runs F ok start s) : s.OwnPolicies F start := by
  induction run with
  | refl =>
      refine ⟨fun thread element hmem => ?_, fun job => .inl rfl⟩
      cases thread <;> simp [init] at hmem
  | @tail mid last act _ _ hstep ih =>
      refine step_rule ih (fun _ _ => ih.runThread) (fun _ _ _ _ => ⟨ih.blocks, ih.policies⟩) ?_ hstep
      intro before caller hbefore hbegin
      have hnew : ∀ {element}, .assignBlocker element ∉ act.ops := by
        cases act <;> simp [Act.ops]
      have hmem : ∀ {op : Op J} {thread}, op ∈ last.stack thread →
          op ∈ act.ops ∨ op ∈ before.stack thread := State.mem_or_of_beginCall hbegin
      obtain ⟨-, rfl⟩ := State.beginCall_eq_some hbegin
      refine ⟨fun thread element helement => ?_, hbefore.policies⟩
      exact hbefore.blocks thread element ((hmem helement).resolve_left hnew)

end OwnPolicies

/-! ## The job that is not blocked -/

section Ready

variable [DecidableEq J]

/-- The job waits in the queue and is not blocked. -/
def Data.IsReady (d : Data J P T σ) (job : J) : Prop :=
  d.place job = .queued ∧ none ∉ d.queuePolicies job

namespace State.Calm

variable {F : Forest J P σ} {start : Weaver.Start J P σ} {s : State J P T σ}
  {collection element : J}

theorem not_held (hc : s.Calm F start) (hidle : s.data.active = 0)
    (hparent : F.parent element = some collection) {stage : Stage} {thread : Thread T} :
    s.data.place element ≠ .held stage thread := by
  intro hplace
  have hnone := (hc.staffed.held_of_idle hc.sound hidle hplace).2
  rw [hparent] at hnone
  cases hnone

theorem notMem_of_idle (hc : s.Calm F start) (hidle : s.data.active = 0) {thread : Thread T}
    {op : Op J} (hcall : op.isCall = false) (hwait : op ≠ .applyForWork false)
    (hsearch : ∀ candidates, op ≠ .takeFirst candidates) : op ∉ s.stack thread := by
  intro hop
  cases thread with
  | worker number =>
      rcases hc.staffed.isFree_of_idle hidle number with hfree | ⟨candidates, hfree⟩
      · rw [hfree] at hop
        exact hwait (List.mem_singleton.mp hop)
      · rw [hfree] at hop
        exact hsearch candidates (List.mem_singleton.mp hop)
  | caller caller =>
      rw [hc.staffed.callers caller op hop] at hcall
      cases hcall

/-- The element of a Sequence that has the turn, when no worker is active. -/
theorem place_of_turn (hc : s.Calm F start) (hidle : s.data.active = 0)
    (hkind : F.kind collection = .sequence) (hwaiting : s.data.place collection = .waiting)
    (hparent : F.parent element = some collection)
    (hturn : F.turn collection element = s.data.completed collection) :
    s.data.IsReady element ∨ s.data.place element = .waiting ∨
      s.data.place element = .discounted := by
  obtain ⟨-, hb, hcounting⟩ := hc.blocking collection hkind
  cases hplace : s.data.place element with
  | fresh =>
      have hopened : s.data.books.opened collection = true :=
        hc.opened collection (by simp [hkind]) (by rw [hwaiting]; rfl)
      have hnone := (hc.sound.books.fresh _ _ hparent).mp hplace
      rw [hopened] at hnone
      cases hnone
  | held stage thread => exact absurd hplace (hc.not_held hidle hparent)
  | queued =>
      refine .inl ⟨hplace, fun hblocked => ?_⟩
      obtain ⟨thread, hremove⟩ := hb.reached element hparent hturn.le hblocked
      exact hc.notMem_of_idle hidle rfl (by simp) (by simp) hremove
  | waiting => exact .inr (.inl rfl)
  | reported =>
      have hcompleted : s.data.hasCompleted collection element = true := by
        simp [Data.hasCompleted, F.ne_of_parent hparent, hplace, Place.isReported]
      have hpassed := hcounting.counted element (.inr hparent) hcompleted
      omega
  | discounted => exact .inr (.inr rfl)
  | lost => exact absurd hplace (hc.orderly.kept element).1

/-- A Sequence that waits has an element that has the turn, if one of them is not settled. -/
theorem exists_turn (hc : s.Calm F start) (hidle : s.data.active = 0)
    (hkind : F.kind collection = .sequence) (hwaiting : s.data.place collection = .waiting)
    (hparent : F.parent element = some collection)
    (hunsettled : (s.data.place element).isUnsettled = true) :
    ∃ first, F.parent first = some collection ∧
      F.turn collection first = s.data.completed collection := by
  obtain ⟨-, -, hcounting⟩ := hc.blocking collection hkind
  have hself : s.data.hasCompleted collection collection = true := by
    simp [Data.hasCompleted, hwaiting, Place.isLate, Place.isClosing]
  have hpos := hcounting.counted collection (.inl ⟨rfl, by simp [hkind]⟩) hself
  rw [F.turn_self] at hpos
  -- the element has not been passed
  have hle : s.data.completed collection ≤ F.turn collection element := by
    by_contra hlt
    rcases hcounting.passed element (.inr hparent) (by omega) with hcompleted | ⟨thread, hcount⟩
    · rw [Data.hasCompleted, if_neg (F.ne_of_parent hparent)] at hcompleted
      cases hplace : s.data.place element with
      | reported =>
          rw [hplace] at hunsettled
          cases hunsettled
      | _ =>
          rw [hplace] at hcompleted
          cases hcompleted
    · exact hc.notMem_of_idle hidle rfl (by simp) (by simp) hcount
  have hlength := F.turn_le_length (.inr hparent)
  have hindex : s.data.completed collection - 1 < (F.elements collection).length := by omega
  refine ⟨(F.elements collection)[s.data.completed collection - 1], ?_, ?_⟩
  · exact (F.mem_elements _ _).mp (List.getElem_mem hindex)
  · rw [F.turn_of_getElem? (List.getElem?_eq_getElem hindex)]
    omega

end State.Calm

variable [DecidableEq P] [DecidableEq T] {F : Forest J P σ} {start : Weaver.Start J P σ}
  {s : State J P T σ} {job : J}

/-- **Under a collection that waits there is a job that is ready**, when no worker is active. -/
theorem runs_isReady_under (run : Runs F Undisturbed start s) (hidle : s.data.active = 0)
    {collection : J} (hwaiting : s.data.place collection = .waiting) :
    ∃ ready, F.Under collection ready ∧ s.data.IsReady ready := by
  have hc := runs_calm run
  induction hheight : F.height collection using Nat.strong_induction_on generalizing collection with
  | _ height ih =>
      have hinner : ∀ element, F.parent element = some collection →
          s.data.place element = .waiting →
          ∃ ready, F.Under collection ready ∧ s.data.IsReady ready := by
        intro element hparent hplace
        have hlt := F.height_lt element collection hparent
        obtain ⟨ready, hunder, hready⟩ := ih _ (by omega) hplace rfl
        exact ⟨ready, .head hparent hunder, hready⟩
      have hkind := hc.orderly.waiting collection hwaiting
      -- the end of the collection has not been missed, so something is still to be counted
      obtain ⟨element, hmem, hunsettled⟩ : ∃ element ∈ F.elements collection,
          (s.data.place element).isUnsettled = true := by
        by_contra hnone
        refine runs_not_waiting hkind (runs_nothingMissed run collection) ?_ hwaiting
        exact fun element hmem => Bool.eq_false_of_not_eq_true fun h => hnone ⟨element, hmem, h⟩
      have hparent := (F.mem_elements _ _).mp hmem
      cases hplace : s.data.place element with
      | waiting => exact hinner element hparent hplace
      | held stage thread => exact absurd hplace (hc.not_held hidle hparent)
      | queued =>
          by_cases hblocked : none ∈ s.data.queuePolicies element
          · obtain ⟨owner, howner, hsequence⟩ := (runs_ownPolicies run).of_blocked hblocked
            cases howner.symm.trans hparent
            obtain ⟨first, hfirst, hturn⟩ :=
              hc.exists_turn hidle hsequence hwaiting hparent hunsettled
            rcases hc.place_of_turn hidle hsequence hwaiting hfirst hturn with
              hready | hwaits | hdiscounted
            · exact ⟨first, .single hfirst, hready⟩
            · exact hinner first hfirst hwaits
            · -- what is taken out of the queue of a Sequence leaves nothing behind
              have hh := runs_halting run hsequence
              obtain ⟨before, hbefore, hlt, hshort⟩ :=
                hh.removed first hfirst (by rw [hdiscounted]; rfl)
              rcases hh.passed before hbefore (by omega) with hsucceeded | hnone
              · exact absurd hsucceeded.2 hshort.2
              · have henqueued := hnone element hparent
                rw [hplace] at henqueued
                cases henqueued
          · exact ⟨element, .single hparent, hplace, hblocked⟩
      | _ =>
          rw [hplace] at hunsettled
          cases hunsettled

/-- A job that waits in the queue for its turn is an element of a Sequence that waits. -/
theorem waiting_of_blocked (run : Runs F Undisturbed start s) (hidle : s.data.active = 0)
    (hplace : s.data.place job = .queued) (hblocked : none ∈ s.data.queuePolicies job) :
    ∃ collection, F.parent job = some collection ∧ F.kind collection = .sequence ∧
      s.data.place collection = .waiting := by
  have hc := runs_calm run
  obtain ⟨collection, hparent, hkind⟩ := (runs_ownPolicies run).of_blocked hblocked
  refine ⟨collection, hparent, hkind, ?_⟩
  have hopened := ((hc.blocking collection hkind).2.1.known job hparent hblocked).1
  have hlate := hc.sound.books.late collection hopened
  have hover := hc.sound.books.not_over hparent
    (by simp [Data.books, hplace, Place.isCounted])
  simp only [Data.books] at hlate hover
  cases howner : s.data.place collection with
  | waiting => rfl
  | held stage thread =>
      obtain rfl := (hc.staffed.held_of_idle hc.sound hidle howner).1
      rw [howner] at hlate
      cases hlate
  | reported =>
      rw [howner] at hover
      cases hover
  | _ =>
      rw [howner] at hlate
      cases hlate

theorem runs_exists_isReady (run : Runs F Undisturbed start s) (hidle : s.data.active = 0)
    (hmem : job ∈ s.data.assignments) : ∃ ready, s.data.IsReady ready := by
  have hc := runs_calm run
  have hplace : s.data.place job = .queued := by
    rcases hc.sound.listed job hmem with hqueued | ⟨thread, htakeAt⟩
    · exact hqueued
    · exact absurd htakeAt (hc.notMem_of_idle hidle rfl (by simp) (by simp))
  by_cases hblocked : none ∈ s.data.queuePolicies job
  · obtain ⟨collection, -, -, hwaiting⟩ := waiting_of_blocked run hidle hplace hblocked
    obtain ⟨ready, -, hready⟩ := runs_isReady_under run hidle hwaiting
    exact ⟨ready, hready⟩
  · exact ⟨job, hplace, hblocked⟩

/-- **Blockers do not hold up the queue.**  Where nobody calls `stop` or `requestAbort` from
outside, whenever no worker is active and there are jobs in the queue, one of these carries no
blocker: its policies are those that the program has given it, and it is accepted if they accept
it. -/
theorem idle_pool_finds_work (run : Runs F Undisturbed start s) (hidle : s.data.active = 0)
    (hne : s.data.assignments ≠ []) :
    ∃ ready ∈ s.data.assignments,
      s.data.queuePolicies ready = (start.queuePolicies ready).map some ∧
        s.data.canBeExecuted F ready =
          (F.policies.canBeExecuted (start.queuePolicies ready) ready s.data.policyState).1 := by
  obtain ⟨job, hmem⟩ := List.exists_mem_of_ne_nil _ hne
  obtain ⟨ready, hqueued, hunblocked⟩ := runs_exists_isReady run hidle hmem
  have ho := runs_ownPolicies run
  exact ⟨ready, (runs_sound run).queued ready hqueued, ho.eq_of_unblocked hunblocked,
    ho.canBeExecuted_eq hunblocked⟩

end Ready

/-- The Sequence has been executed; its first element is ready and the second one is blocked. -/
theorem idle_pool_finds_work_failing : ∃ s : State (Fin 3) Empty Unit Unit,
    Runs failing Undisturbed (.plain ()) s ∧ s.data.active = 0 ∧ s.data.assignments = [1, 2] ∧
      none ∈ s.data.queuePolicies 2 ∧ ∃ ready ∈ s.data.assignments,
        s.data.queuePolicies ready = [] ∧ s.data.canBeExecuted failing ready = true := by
  obtain ⟨s, run, ⟨hidle, hlist, hblocked⟩, -⟩ :=
    exists_runs failing Undisturbed (.plain ())
      (fun s : State (Fin 3) Empty Unit Unit => s.data.active = 0 ∧
        s.data.assignments = [1, 2] ∧ none ∈ s.data.queuePolicies 2)
      (List.flatten [[.enqueue () [0]], List.replicate 3 (.run (.caller ())),
        List.replicate 19 (.run (.worker 0))]) (by decide +kernel)
  obtain ⟨ready, hmem, hpolicies, hcan⟩ :=
    idle_pool_finds_work run hidle (by rw [hlist]; simp)
  exact ⟨s, run, hidle, hlist, hblocked, ready, hmem, hpolicies, hcan⟩

end ThreadWeaver.Collection
