import ThreadWeaver.Collection.Turns

/-!
# A Sequence halts at the first element that does not succeed

When nobody calls `stop` or `requestAbort`, an element that does not succeed has the elements that
wait taken out of the queue before the turn goes on to the next one.  So an element is executed
only if all elements before it have ended with success, whatever is dequeued comes after an element
that did not succeed, and the Sequence itself ends with the status of that one, or with success if
there is none.
-/

namespace ThreadWeaver.Collection

open Library (Stacked)

variable {J P T σ : Type*} [DecidableEq J]

omit [DecidableEq J] in
theorem Moves.isEnded {F : Forest J P σ} {d : Data J P T σ} {thread : Thread T} {op : Op J}
    {job : J} {before after : Place T} (h : Moves F d thread op job before after)
    (hended : before.isEnded = true) : after.isEnded = true := by
  cases h with
  | reported => rfl
  | _ => cases hended

/-- The job has ended with success. -/
def Data.Succeeded (d : Data J P T σ) (job : J) : Prop :=
  (d.place job).isEnded = true ∧ d.status job = .success

/-- The job has ended without success. -/
def Data.FellShort (d : Data J P T σ) (job : J) : Prop :=
  (d.place job).isEnded = true ∧ d.status job ≠ .success

/-- No element of the collection waits in the queue. -/
def Data.NoneWaits (F : Forest J P σ) (d : Data J P T σ) (collection : J) : Prop :=
  ∀ element, F.parent element = some collection → (d.place element).isEnqueued = false

/-- The collection has the status of an element that fell short, or of success when all of its
elements have succeeded. -/
def Data.Decided (F : Forest J P σ) (d : Data J P T σ) (collection : J) : Prop :=
  (∀ element, F.parent element = some collection → d.Succeeded element) ∧
      d.status collection = .success ∨
    ∃ element, F.parent element = some collection ∧ d.FellShort element ∧
      d.status collection = d.status element

/-- A Sequence goes on from an element only if this has succeeded or nothing waits behind it. -/
structure State.Halting (F : Forest J P σ) (collection : J) (s : State J P T σ) : Prop where
  swept : ∀ thread job status, .restoreStatus collection job status ∈ s.stack thread →
    ∀ element, F.parent element = some collection →
      (s.data.place element).isEnqueued = true →
      ∃ op ∈ s.stack thread, op.Sweeps collection element
  stopped : ∀ thread job, .advance collection job ∈ s.stack thread →
    job = collection ∨ s.data.status job = .success ∨ s.data.NoneWaits F collection
  passed : ∀ element, F.parent element = some collection →
    F.turn collection element < s.data.completed collection →
    s.data.Succeeded element ∨ s.data.NoneWaits F collection
  before : ∀ element later, F.parent element = some collection →
    F.parent later = some collection → F.turn collection element < F.turn collection later →
    (s.data.place later).isAssigned = true → s.data.Succeeded element
  removed : ∀ element, F.parent element = some collection →
    (s.data.place element).isRemoved = true → ∃ job, F.parent job = some collection ∧
      F.turn collection job < F.turn collection element ∧ s.data.FellShort job
  carried : ∀ thread job, .advance collection job ∈ s.stack thread ∨
    .countDown collection job ∈ s.stack thread →
    s.data.status collection = if job = collection ∨ s.data.status job = .success then .running
      else s.data.status job
  isOver : (s.data.place collection).isOver = true → s.data.Decided F collection

section Exec

variable [DecidableEq P] {F : Forest J P σ} {s : State J P T σ} {thread other : Thread T}
  {op below : Op J} {rest : List (Op J)} {collection element job : J} {status : Status}

namespace State.Sound

theorem exec_isEnded (hs : s.Sound F) (hstack : s.stack thread = op :: rest)
    (hfree : ∀ mutex, wants F op = some mutex → s.data.holder mutex = none)
    (h : (s.data.place job).isEnded = true) :
    ((exec F thread op s.data).1.place job).isEnded = true ∧
      (exec F thread op s.data).1.status job = s.data.status job := by
  refine ⟨?_, hs.exec_status_of_over hstack (Place.isOver_of_isEnded h)⟩
  rcases hs.exec_place hstack hfree job with hsame | hmoves
  · exact hsame ▸ h
  · exact hmoves.isEnded h

theorem exec_succeeded (hs : s.Sound F) (hstack : s.stack thread = op :: rest)
    (hfree : ∀ mutex, wants F op = some mutex → s.data.holder mutex = none)
    (h : s.data.Succeeded job) : (exec F thread op s.data).1.Succeeded job := by
  obtain ⟨hended, hstatus⟩ := hs.exec_isEnded hstack hfree h.1
  exact ⟨hended, hstatus.trans h.2⟩

theorem exec_fellShort (hs : s.Sound F) (hstack : s.stack thread = op :: rest)
    (hfree : ∀ mutex, wants F op = some mutex → s.data.holder mutex = none)
    (h : s.data.FellShort job) : (exec F thread op s.data).1.FellShort job := by
  obtain ⟨hended, hstatus⟩ := hs.exec_isEnded hstack hfree h.1
  exact ⟨hended, hstatus ▸ h.2⟩

theorem exec_isEnqueued_of_late (hs : s.Sound F) (hstack : s.stack thread = op :: rest)
    (hfree : ∀ mutex, wants F op = some mutex → s.data.holder mutex = none)
    (hlate : (s.data.place collection).isLate = true) (hparent : F.parent element = some collection)
    (hafter : ((exec F thread op s.data).1.place element).isEnqueued = true) :
    (s.data.place element).isEnqueued = true := by
  rcases hs.exec_isEnqueued hstack hfree hparent hafter with hbefore | ⟨-, hplace, -⟩
  · exact hbefore
  · rw [hplace] at hlate
    cases hlate

theorem exec_noneWaits (hs : s.Sound F) (hstack : s.stack thread = op :: rest)
    (hfree : ∀ mutex, wants F op = some mutex → s.data.holder mutex = none)
    (hlate : (s.data.place collection).isLate = true) (h : s.data.NoneWaits F collection) :
    (exec F thread op s.data).1.NoneWaits F collection := by
  intro element hparent
  by_contra hnot
  have hbefore := hs.exec_isEnqueued_of_late hstack hfree hlate hparent (by simpa using hnot)
  rw [h element hparent] at hbefore
  cases hbefore

/-- Nobody but the thread that completes a job changes the status of a collection. -/
theorem exec_status_of_locked (hs : s.Sound F) (he : s.Enqueuing F)
    (hstack : s.stack thread = op :: rest)
    (hfree : ∀ mutex, wants F op = some mutex → s.data.holder mutex = none)
    (hlate : (s.data.place collection).isLate = true) (hbelow : below ∈ s.stack other)
    (hlocks : (.job collection, ()) ∈ below.locks) (hne : below ≠ op)
    (hkeeps : below ≠ .unlock (.job collection) ∧ below ≠ .resetApi collection) :
    (exec F thread op s.data).1.status collection = s.data.status collection := by
  have hop : op ∈ s.stack thread := by
    rw [hstack]
    exact List.mem_cons_self
  rcases exec_status F thread op s.data collection with hsame | hsets
  · exact hsame
  exfalso
  have hunique : ∀ {later : Op J}, later ∈ s.stack thread → (.job collection, ()) ∈ later.locks →
      below = later := by
    intro later hlater howes
    obtain ⟨rfl, -⟩ := hs.locks.thread_unique hlater howes hbelow hlocks
    exact hs.locks.op_unique hlater howes hbelow hlocks
  generalize (exec F thread op s.data).1.status collection = after at hsets
  cases hsets with
  | enqueueJob | setRunning | run =>
      rw [hs.place_eq hop List.mem_cons_self] at hlate
      cases hlate
  | setStatus =>
      rw [(hs.of_setStatus hop).2] at hlate
      cases hlate
  | update | countDown => exact hne (hunique hop (by simp [Op.locks]))
  | restore =>
      have hholder := hs.holder_eq ⟨below, hbelow, hlocks⟩
      rw [hfree _ rfl] at hholder
      cases hholder
  | checkLast =>
      rcases Loops.releases (he.loops thread) hop rfl with hunlock | hreset
      · exact hkeeps.1 (hunique hunlock (by simp [Op.locks]))
      · exact hkeeps.2 (hunique hreset (by simp [Op.locks]))
  | takeAt =>
      rcases (hs.of_takeAt hop).2 with htaken | htaken <;>
      · rw [htaken] at hlate
        cases hlate

end State.Sound

namespace State.Halting

omit [DecidableEq J] [DecidableEq P] in
theorem restores_of_sweeps (hcalled : (Outside.nobody F).Called op rest)
    (h : op.Sweeps collection element) :
    ∃ job status, .restoreStatus collection job status ∈ rest := by
  cases op with
  | stop owner | dequeueSelf owner | stopElements owner =>
      obtain rfl : owner = collection := h
      obtain ⟨job, status, below, rfl⟩ := hcalled.resolve_left id
      exact ⟨job, status, List.mem_cons_self⟩
  | dequeueElements owner locked =>
      cases locked with
      | true => exact h.elim
      | false =>
          obtain rfl : owner = collection := h
          obtain ⟨job, status, below, rfl⟩ := (hcalled rfl).resolve_left id
          exact ⟨job, status, by simp⟩
  | dequeueElement owner head locked =>
      cases locked with
      | true => exact h.elim
      | false =>
          obtain rfl : owner = collection := h.1
          exact (hcalled rfl).resolve_left id
  | _ => exact h.elim

variable [DecidableEq T]

theorem exec_swept (hh : s.Halting F collection) (hs : s.Sound F) (he : s.Enqueuing F)
    (hstack : s.stack thread = op :: rest)
    (hfree : ∀ mutex, wants F op = some mutex → s.data.holder mutex = none)
    (hmem : .restoreStatus collection job status ∈
      Function.update s.stack thread ((exec F thread op s.data).2 ++ rest) other)
    (hparent : F.parent element = some collection)
    (hafter : ((exec F thread op s.data).1.place element).isEnqueued = true) :
    ∃ later ∈ Function.update s.stack thread ((exec F thread op s.data).2 ++ rest) other,
      later.Sweeps collection element := by
  rcases State.mem_exec hstack hmem with ⟨rfl, hcalls⟩ | ⟨hold, -⟩
  · refine ⟨.stop collection, ?_, rfl⟩
    rw [Function.update_self]
    refine List.mem_append_left _ ?_
    generalize hrestore : Op.restoreStatus collection job status = later at hcalls
    cases hcalls with
    | restoreStatus hkind hstatus =>
        obtain ⟨rfl, rfl, rfl⟩ := Op.restoreStatus.inj hrestore
        simp [exec, hkind, hstatus]
    | _ => cases hrestore
  · have hlate := hs.late_of_completing hold (fun _ => Iff.rfl) rfl
    have hbefore := hs.exec_isEnqueued_of_late hstack hfree hlate hparent hafter
    have hsweeps := hh.swept other job status hold element hparent hbefore
    by_cases heq : other = thread
    · subst heq
      rw [Function.update_self]
      rcases exists_mem_of_next hstack hsweeps with hop | hlater
      · obtain ⟨later, hlater, hsweeps⟩ :=
          he.exec_sweeps hs hstack hfree hparent hop hbefore hafter
        exact ⟨later, List.mem_append_left _ hlater, hsweeps⟩
      · exact hlater
    · rwa [Function.update_of_ne heq]

omit [DecidableEq P] [DecidableEq T] in
theorem noneWaits_of_restores (hh : s.Halting F collection) (hs : s.Sound F)
    (ht : s.InTurn F collection)
    (hcalled : Stacked (Outside.nobody F).Called (s.stack thread))
    (hstack : s.stack thread = .restoreStatus collection job status :: rest) :
    s.data.NoneWaits F collection := by
  have hop : .restoreStatus collection job status ∈ s.stack thread := by
    rw [hstack]
    exact List.mem_cons_self
  intro element hparent
  by_contra hnot
  obtain ⟨sweeper, hmem, hsweeps⟩ :=
    hh.swept thread job status hop element hparent (by simpa using hnot)
  have hrest : sweeper ∈ rest := by
    rw [hstack] at hmem
    refine (List.mem_cons.mp hmem).resolve_left ?_
    rintro rfl
    exact hsweeps
  rw [hstack] at hcalled
  obtain ⟨ops, below, hsplit, hlies⟩ := hcalled.2.of_mem hrest
  -- the sweeper would lie on another completion of the same job
  obtain ⟨head, status', hbelow⟩ := restores_of_sweeps hlies hsweeps
  have hhead : .restoreStatus collection head status' ∈ rest := by
    rw [hsplit]
    exact List.mem_append_right _ (List.mem_cons_of_mem _ hbelow)
  have hhead' : .restoreStatus collection head status' ∈ s.stack thread := by
    rw [hstack]
    exact List.mem_cons_of_mem _ hhead
  obtain ⟨hjob, -⟩ := hs.of_completes hop rfl
  obtain ⟨hconcerns, -⟩ := hs.of_completes hhead' rfl
  have hturn := (ht.completing thread _ head hhead' rfl).trans
    (ht.completing thread _ job hop rfl).symm
  obtain rfl := F.turn_inj hconcerns hjob hturn
  have heq := hs.jobs.op_unique hop List.mem_cons_self hhead' List.mem_cons_self
  exact hs.notMem_rest hstack List.mem_cons_self (heq ▸ hhead)

omit [DecidableEq P] [DecidableEq T] in
theorem success_of_running (hs : s.Sound F) (hf : s.Finishing F)
    (hop : .processCompletedElement collection job ∈ s.stack thread)
    (hrunning : s.data.updatedStatus job = .running) :
    job = collection ∨ F.parent job = some collection ∧ s.data.Succeeded job := by
  rcases hs.of_completing hop (fun _ => Iff.rfl) rfl with ⟨heq, -⟩ | ⟨hparent, -, hplace⟩
  · exact .inl heq
  · refine .inr ⟨hparent, by rw [hplace]; rfl, ?_⟩
    have hfinished := hf.status job (by rw [hplace]; rfl)
    by_contra hne
    rw [Data.updatedStatus, if_neg hne] at hrunning
    rw [hrunning] at hfinished
    cases hfinished

theorem exec_stopped (hh : s.Halting F collection) (hs : s.Sound F) (hf : s.Finishing F)
    (ht : s.InTurn F collection) (hcalled : ∀ thread, Stacked (Outside.nobody F).Called (s.stack thread))
    (hstack : s.stack thread = op :: rest)
    (hfree : ∀ mutex, wants F op = some mutex → s.data.holder mutex = none)
    (hmem : .advance collection job ∈
      Function.update s.stack thread ((exec F thread op s.data).2 ++ rest) other) :
    job = collection ∨ (exec F thread op s.data).1.status job = .success ∨
      (exec F thread op s.data).1.NoneWaits F collection := by
  have hop : op ∈ s.stack thread := by
    rw [hstack]
    exact List.mem_cons_self
  rcases State.mem_exec hstack hmem with ⟨rfl, hcalls⟩ | ⟨hold, -⟩
  · generalize hadvance : Op.advance collection job = later at hcalls
    cases hcalls with
    | advance _ hrunning =>
        obtain ⟨rfl, rfl⟩ := Op.advance.inj hadvance
        refine (success_of_running hs hf hop hrunning).imp_right fun h => .inl ?_
        exact (hs.exec_succeeded hstack hfree h.2).2
    | advanceRestored =>
        obtain ⟨rfl, rfl⟩ := Op.advance.inj hadvance
        refine .inr (.inr ?_)
        exact hs.exec_noneWaits hstack hfree (hs.late_of_completing hop (fun _ => Iff.rfl) rfl)
          (hh.noneWaits_of_restores hs ht (hcalled other) hstack)
    | _ => cases hadvance
  · have hlate := hs.late_of_completing hold (fun _ => Iff.rfl) rfl
    rcases hs.of_completing hold (fun _ => Iff.rfl) rfl with ⟨heq, -⟩ | ⟨-, -, hplace⟩
    · exact .inl heq
    · have hstatus := hs.exec_status_of_over hstack (show (s.data.place job).isOver = true by
        rw [hplace]
        rfl)
      rw [hstatus]
      exact (hh.stopped other job hold).imp_right
        (Or.imp_right (hs.exec_noneWaits hstack hfree hlate))

omit [DecidableEq T] in
theorem exec_passed (hh : s.Halting F collection) (hs : s.Sound F) (ht : s.InTurn F collection)
    (hstack : s.stack thread = op :: rest)
    (hfree : ∀ mutex, wants F op = some mutex → s.data.holder mutex = none)
    (hparent : F.parent element = some collection)
    (hturn : F.turn collection element < (exec F thread op s.data).1.completed collection) :
    (exec F thread op s.data).1.Succeeded element ∨
      (exec F thread op s.data).1.NoneWaits F collection := by
  have hkeeps : s.data.Succeeded element ∨ s.data.NoneWaits F collection →
      (s.data.place collection).isLate = true → (exec F thread op s.data).1.Succeeded element ∨
        (exec F thread op s.data).1.NoneWaits F collection := fun h hlate =>
    h.imp (hs.exec_succeeded hstack hfree) (hs.exec_noneWaits hstack hfree hlate)
  rcases ht.exec_completed hs hstack with ⟨-, hsame⟩ | ⟨job, rfl, hnext⟩
  · rw [hsame] at hturn
    refine hkeeps (hh.passed element hparent hturn) ?_
    by_contra hnot
    have hzero := ht.fresh (by simpa using hnot)
    omega
  · obtain ⟨hconcerns, hjob, hlate, hplace⟩ := ht.advancing hs hstack
    refine hkeeps ?_ hlate
    rcases Nat.lt_or_ge (F.turn collection element) (s.data.completed collection) with hlt | hge
    · exact hh.passed element hparent hlt
    · obtain rfl := F.turn_inj (.inr hparent) hconcerns (by omega)
      have hne := F.ne_of_parent hparent
      have hplace := hplace.resolve_left fun h => hne h.1
      refine ((hh.stopped thread element (hstack ▸ List.mem_cons_self)).resolve_left hne).imp_left
        fun hsuccess => ⟨by rw [hplace]; rfl, hsuccess⟩

omit [DecidableEq T] in
/-- **An element is executed after those before it have succeeded.** -/
theorem exec_before (hh : s.Halting F collection) (hs : s.Sound F) (ht : s.InTurn F collection)
    (hstack : s.stack thread = op :: rest)
    (hfree : ∀ mutex, wants F op = some mutex → s.data.holder mutex = none) {later : J}
    (hparent : F.parent element = some collection) (hlater : F.parent later = some collection)
    (hturn : F.turn collection element < F.turn collection later)
    (hafter : ((exec F thread op s.data).1.place later).isAssigned = true) :
    (exec F thread op s.data).1.Succeeded element := by
  refine hs.exec_succeeded hstack hfree ?_
  rcases hs.exec_isAssigned hstack hfree hafter with hbefore | ⟨hqueued, hcan, -⟩
  · exact hh.before element later hparent hlater hturn hbefore
  · have hnow := ht.turn_of_canBeExecuted hs hlater hqueued hcan
    refine (hh.passed element hparent (hnow ▸ hturn)).resolve_right fun hnone => ?_
    have hwaits := hnone later hlater
    rw [hqueued] at hwaits
    cases hwaits

omit [DecidableEq T] in
/-- **What is taken out comes after an element that fell short.** -/
theorem exec_removed (hh : s.Halting F collection) (hs : s.Sound F) (hr : s.Reporting F)
    (ht : s.InTurn F collection)
    (hcalled : ∀ thread, Stacked (Outside.nobody F).Called (s.stack thread))
    (hstack : s.stack thread = op :: rest)
    (hfree : ∀ mutex, wants F op = some mutex → s.data.holder mutex = none)
    (hparent : F.parent element = some collection)
    (hafter : ((exec F thread op s.data).1.place element).isRemoved = true) :
    ∃ job, F.parent job = some collection ∧ F.turn collection job < F.turn collection element ∧
      (exec F thread op s.data).1.FellShort job := by
  suffices hbefore : ∃ job, F.parent job = some collection ∧
      F.turn collection job < F.turn collection element ∧ s.data.FellShort job by
    obtain ⟨job, hjob, hturn, hfell⟩ := hbefore
    exact ⟨job, hjob, hturn, hs.exec_fellShort hstack hfree hfell⟩
  have hrest : ∀ {later : Op J}, later ∈ rest → later ∈ s.stack thread := fun hmem => by
    rw [hstack]
    exact List.mem_cons_of_mem _ hmem
  have hold := hh.removed element hparent
  rcases hs.exec_place hstack hfree element with hsame | hmoves
  · exact hold (hsame ▸ hafter)
  · generalize hplace : s.data.place element = before at hmoves hold
    generalize (exec F thread op s.data).1.place element = after at hafter hmoves
    cases hmoves with
    | taken howner =>
        cases howner.symm.trans hparent
        obtain ⟨job, status, hrestores⟩ := Outside.restores_of_nobody hstack (hcalled thread)
          (.inr (.inr (.inr ⟨element, .inl rfl⟩)))
        obtain ⟨-, hjob, hstatus, hne⟩ := hr.restores thread _ _ _ (hrest hrestores)
        have hnow := ht.completing thread _ job (hrest hrestores) rfl
        have hreporting : s.data.place job = .held .reporting thread := by
          rcases hs.of_completing (hrest hrestores) (fun _ => Iff.rfl) rfl with
            ⟨heq, -⟩ | ⟨-, -, hplace⟩
          · exact absurd heq (F.ne_of_parent hjob)
          · exact hplace
        refine ⟨job, hjob, ?_, by rw [hreporting]; rfl, hstatus ▸ hne⟩
        rw [hnow]
        by_contra hnot
        rcases Nat.lt_or_ge (F.turn collection element) (s.data.completed collection) with
          hlt | hge
        · rcases hh.passed element hparent hlt with hsucceeded | hnone
          · have hended := hsucceeded.1
            rw [hplace] at hended
            cases hended
          · have hwaits := hnone element hparent
            rw [hplace] at hwaits
            cases hwaits
        · obtain rfl := F.turn_inj (.inr hparent) (.inr hjob) (by omega)
          rw [hplace] at hreporting
          cases hreporting
    | leaving =>
        obtain ⟨job, status, hrestores⟩ :=
          Outside.restores_of_nobody hstack (hcalled thread) (.inr (.inl rfl))
        exact absurd (hs.queued element hplace) (hs.notMem_of_restores (hrest hrestores))
    | lost | discounted => exact hold rfl
    | _ => cases hafter

theorem exec_carried (hh : s.Halting F collection) (hs : s.Sound F) (he : s.Enqueuing F)
    (hr : s.Reporting F) (hf : s.Finishing F) (hkind : F.kind collection = .sequence)
    (hstack : s.stack thread = op :: rest)
    (hfree : ∀ mutex, wants F op = some mutex → s.data.holder mutex = none)
    (hmem : .advance collection job ∈
        Function.update s.stack thread ((exec F thread op s.data).2 ++ rest) other ∨
      .countDown collection job ∈
        Function.update s.stack thread ((exec F thread op s.data).2 ++ rest) other) :
    (exec F thread op s.data).1.status collection =
      if job = collection ∨ (exec F thread op s.data).1.status job = .success then .running
      else (exec F thread op s.data).1.status job := by
  have hop : op ∈ s.stack thread := by
    rw [hstack]
    exact List.mem_cons_self
  -- the Sequence has been counting the job before
  have hkeeps : ∀ {below : Op J}, below ∈ s.stack other → (other = thread → below ∈ rest) →
      (below = .advance collection job ∨ below = .countDown collection job) →
      (exec F thread op s.data).1.status collection =
        if job = collection ∨ (exec F thread op s.data).1.status job = .success then .running
        else (exec F thread op s.data).1.status job := by
    intro below hbelow hrest hcases
    have hcarried := hh.carried other job (by rcases hcases with rfl | rfl <;> simp [hbelow])
    have hjobs : below.jobs = [(job, if job = collection then .closing else .reporting)] := by
      rcases hcases with rfl | rfl <;> rfl
    have hfits : ∀ rest, Fits F below rest ↔ F.Concerns collection job := by
      rcases hcases with rfl | rfl <;> exact fun _ => Iff.rfl
    have hlocks : (.job collection, ()) ∈ below.locks := by
      rcases hcases with rfl | rfl <;> simp [Op.locks]
    have hne : below ≠ op := by
      rintro rfl
      obtain ⟨rfl, -⟩ := hs.locks.thread_unique hop hlocks hbelow hlocks
      exact hs.notMem_rest hstack (hjobs ▸ List.mem_cons_self) (hrest rfl)
    have hstatus := hs.exec_status_of_locked he hstack hfree
      (hs.late_of_completing hbelow hfits hjobs) hbelow hlocks hne
      (by rcases hcases with rfl | rfl <;> simp)
    rw [hstatus, hcarried]
    rcases hs.of_completing hbelow hfits hjobs with ⟨heq, -⟩ | ⟨-, -, hplace⟩
    · rw [if_pos (.inl heq), if_pos (.inl heq)]
    · rw [hs.exec_status_of_over hstack (by rw [hplace]; rfl)]
  rcases hmem with hmem | hmem
  · rcases State.mem_exec hstack hmem with ⟨rfl, hcalls⟩ | ⟨hold, hrest⟩
    · generalize hadvance : Op.advance collection job = later at hcalls
      cases hcalls with
      | advance _ hrunning =>
          obtain ⟨rfl, rfl⟩ := Op.advance.inj hadvance
          have hset : (exec F other (.processCompletedElement collection job) s.data).1.status =
              Function.update s.data.status collection (s.data.updatedStatus job) := by
            simp only [exec, if_pos hkind, if_pos hrunning]
            rfl
          have hcondition : job = collection ∨
              (exec F other (.processCompletedElement collection job) s.data).1.status job =
                .success :=
            (success_of_running hs hf hop hrunning).imp_right fun h =>
              (hs.exec_succeeded hstack hfree h.2).2
          rw [if_pos hcondition, hset, Function.update_self, hrunning]
      | advanceRestored =>
          obtain ⟨rfl, rfl⟩ := Op.advance.inj hadvance
          obtain ⟨-, hparent, rfl, hne⟩ := hr.restores other collection job _ hop
          have hstatus := hs.exec_status_of_over hstack (hs.ended_of_restores hop hparent)
          have hset : (exec F other (.restoreStatus collection job (s.data.status job))
              s.data).1.status collection = s.data.status job := Function.update_self _ _ _
          rw [hset, hstatus, if_neg]
          exact not_or.mpr ⟨F.ne_of_parent hparent, hne⟩
      | _ => cases hadvance
    · exact hkeeps hold hrest (.inl rfl)
  · rcases State.mem_exec hstack hmem with ⟨rfl, hcalls⟩ | ⟨hold, hrest⟩
    · generalize hcount : Op.countDown collection job = later at hcalls
      cases hcalls with
      | countDown hnot =>
          obtain ⟨rfl, rfl⟩ := Op.countDown.inj hcount
          exact absurd hkind hnot
      | countDownAdvanced =>
          obtain ⟨rfl, rfl⟩ := Op.countDown.inj hcount
          exact hh.carried other job (.inl hop)
      | _ => cases hcount
    · exact hkeeps hold hrest (.inr rfl)

omit [DecidableEq P] [DecidableEq T] in
theorem counted_of_last (hs : s.Sound F) (hop : .countDown collection job ∈ s.stack thread)
    (hone : s.data.jobCounter collection = 1) (hparent : F.parent element = some collection)
    (hne : element ≠ job) : (s.data.place element).isCounted = true := by
  by_contra hnot
  have hopened : s.data.books.opened collection = true := by
    by_contra hclosed
    have hle := hs.books.unopened collection (by simpa using hclosed)
    simp only [Data.books] at hle
    omega
  have hfresh : s.data.place element ≠ .fresh := by
    intro hfresh
    have hclosed := (hs.books.fresh collection element hparent).mp hfresh
    rw [hopened] at hclosed
    cases hclosed
  have hcounts : (s.data.books.place element).isCounted = false := Bool.eq_false_of_not_eq_true hnot
  have htwo : 2 ≤ s.data.jobCounter collection := by
    rcases hs.of_completing hop (fun _ => Iff.rfl) rfl with
      ⟨rfl, -, hplace⟩ | ⟨hjob, -, hplace⟩
    · exact hs.books.two_le_of_closing hplace hparent hfresh hcounts
    · refine hs.books.two_le_of_ne hjob ?_ ?_ hparent hne hcounts <;>
        simp [Data.books, hplace, Place.isCounted]
  omega

omit [DecidableEq T] in
/-- **The last job that is counted decides.** -/
theorem decided_of_last (hh : s.Halting F collection) (hs : s.Sound F) (hf : s.Finishing F)
    (ht : s.InTurn F collection) (habort : s.data.shouldAbort collection = false)
    (hstack : s.stack thread = .countDown collection job :: rest)
    (hfree : ∀ mutex, wants F (.countDown collection job) = some mutex →
      s.data.holder mutex = none)
    (hone : s.data.jobCounter collection = 1) :
    (exec F thread (.countDown collection job) s.data).1.Decided F collection := by
  have hop : .countDown collection job ∈ s.stack thread := by
    rw [hstack]
    exact List.mem_cons_self
  have hset : (exec F thread (.countDown collection job) s.data).1.status =
      Function.update s.data.status collection (s.data.finalStatus collection) := by
    rw [exec_countDown_last hone]
    rfl
  have hfinal : (exec F thread (.countDown collection job) s.data).1.status collection =
      s.data.finalStatus collection := by
    rw [hset, Function.update_self]
  have hcarried := hh.carried thread job (.inr hop)
  have hcounting := ht.counting thread job hop
  have hjob := hs.of_completing hop (fun _ => Iff.rfl) rfl
  by_cases hcase : job = collection ∨ s.data.status job = .success
  · -- an element that is counted has had its turn before the job
    have hearlier : ∀ {element}, F.parent element = some collection → element ≠ job →
        s.data.place element = .reported → s.data.Succeeded element := by
      intro element hparent hne hreported
      have hlt := ht.counted element hparent hreported
      rcases hjob with ⟨rfl, -⟩ | ⟨hjob, -, hplace⟩
      · rw [F.turn_self] at hcounting
        have hpos := F.turn_pos hparent
        omega
      · have hturn : F.turn collection element ≠ F.turn collection job :=
          fun heq => hne (F.turn_inj (.inr hparent) (.inr hjob) heq)
        exact hh.before element job hparent hjob (by omega) (by rw [hplace]; rfl)
    refine .inl ⟨fun element hparent => hs.exec_succeeded hstack hfree ?_, ?_⟩
    · by_cases heq : element = job
      · subst heq
        have hne := F.ne_of_parent hparent
        obtain ⟨-, -, hplace⟩ := hjob.resolve_left fun h => hne h.1
        exact ⟨by rw [hplace]; rfl, hcase.resolve_left hne⟩
      · have hcounted := counted_of_last hs hop hone hparent heq
        cases hplace : s.data.place element with
        | reported => exact hearlier hparent heq hplace
        | discounted =>
            obtain ⟨short, hshort, -, hended, hne⟩ :=
              hh.removed element hparent (by rw [hplace]; rfl)
            have hother : short ≠ job := by
              rintro rfl
              exact hne (hcase.resolve_left (F.ne_of_parent hshort))
            have hcounted := counted_of_last hs hop hone hshort hother
            cases hplace : s.data.place short with
            | reported => exact absurd (hearlier hshort hother hplace).2 hne
            | discounted =>
                rw [hplace] at hended
                cases hended
            | _ =>
                rw [hplace] at hcounted
                cases hcounted
        | _ =>
            rw [hplace] at hcounted
            cases hcounted
    · rw [if_pos hcase] at hcarried
      simp [hfinal, Data.finalStatus, habort, hcarried, Status.toNat]
  · obtain ⟨hself, hshort⟩ := not_or.mp hcase
    obtain ⟨hparent, -, hplace⟩ := hjob.resolve_left fun h => hself h.1
    have hover : (s.data.place job).isOver = true := by
      rw [hplace]
      rfl
    have hfinished : 3 < (s.data.status job).toNat :=
      Status.isFinished_iff.mp (hf.status job hover)
    rw [if_neg hcase] at hcarried
    refine .inr ⟨job, hparent, hs.exec_fellShort hstack hfree ⟨by rw [hplace]; rfl, hshort⟩, ?_⟩
    rw [hs.exec_status_of_over hstack hover, hfinal, Data.finalStatus, habort, hcarried]
    simp only [Bool.false_eq_true, if_false]
    refine if_neg ?_
    change ¬ (s.data.status job).toNat < 4
    omega

omit [DecidableEq T] in
theorem exec_decided (hs : s.Sound F) (hstack : s.stack thread = op :: rest)
    (hfree : ∀ mutex, wants F op = some mutex → s.data.holder mutex = none)
    (hover : (s.data.place collection).isOver = true) (h : s.data.Decided F collection) :
    (exec F thread op s.data).1.Decided F collection := by
  have hstatus := hs.exec_status_of_over hstack hover
  rcases h with ⟨hall, hsuccess⟩ | ⟨element, hparent, hshort, heq⟩
  · refine .inl ⟨fun element hparent => ?_, hstatus.trans hsuccess⟩
    exact hs.exec_succeeded hstack hfree (hall element hparent)
  · refine .inr ⟨element, hparent, hs.exec_fellShort hstack hfree hshort, ?_⟩
    rw [hstatus, heq, (hs.exec_isEnded hstack hfree hshort.1).2]

theorem runThread {next : State J P T σ} (hh : s.Halting F collection) (hs : s.Sound F)
    (he : s.Enqueuing F) (hr : s.Reporting F) (hf : s.Finishing F) (ht : s.InTurn F collection)
    (hcalled : ∀ thread, Stacked (Outside.nobody F).Called (s.stack thread))
    (habort : s.data.shouldAbort collection = false) (hkind : F.kind collection = .sequence)
    (h : s.runThread F thread = some next) : next.Halting F collection := by
  obtain ⟨op, rest, hstack, hfree, rfl⟩ := State.runThread_eq_some h
  refine ⟨fun other job status hmem element => ?_, fun other job hmem => ?_,
    fun element hparent => ?_, fun element later hparent hlater => ?_,
    fun element hparent => ?_, fun other job hmem => ?_, fun hover => ?_⟩
  · exact hh.exec_swept hs he hstack hfree hmem
  · exact hh.exec_stopped hs hf ht hcalled hstack hfree hmem
  · exact hh.exec_passed hs ht hstack hfree hparent
  · exact hh.exec_before hs ht hstack hfree hparent hlater
  · exact hh.exec_removed hs hr ht hcalled hstack hfree hparent
  · exact hh.exec_carried hs he hr hf hkind hstack hfree hmem
  · dsimp only at hover ⊢
    have hkeeps : (s.data.place collection).isOver = true →
        (exec F thread op s.data).1.Decided F collection :=
      fun hbefore => exec_decided hs hstack hfree hbefore (hh.isOver hbefore)
    rcases hs.exec_place hstack hfree collection with hsame | hmoves
    · exact hkeeps (hsame ▸ hover)
    · generalize s.data.place collection = before at hmoves hkeeps
      generalize (exec F thread op s.data).1.place collection = after at hover hmoves
      cases hmoves with
      | endingSelf _ hone => exact hh.decided_of_last hs hf ht habort hstack hfree hone
      | endingElement _ hone => exact hh.decided_of_last hs hf ht habort hstack hfree hone
      | ending hplain =>
          rw [hkind] at hplain
          cases hplain
      | ended | reporting | reported => exact hkeeps rfl
      | _ => cases hover

omit [DecidableEq P] [DecidableEq T] in
theorem takeUp (hh : s.Halting F collection) {jobs : List J}
    (hjobs : ∀ job ∈ jobs, F.parent job = none ∧ s.data.place job = .fresh) :
    (s.takeUp thread jobs).Halting F collection := by
  have hplace : ∀ {element}, F.parent element = some collection →
      (s.takeUp thread jobs).data.place element = s.data.place element :=
    fun hparent => State.takeUp_place hjobs hparent
  have hsucceeded : ∀ {element}, F.parent element = some collection →
      s.data.Succeeded element → (s.takeUp thread jobs).data.Succeeded element :=
    fun hparent h => ⟨(hplace hparent).symm ▸ h.1, h.2⟩
  have hfellShort : ∀ {element}, F.parent element = some collection →
      s.data.FellShort element → (s.takeUp thread jobs).data.FellShort element :=
    fun hparent h => ⟨(hplace hparent).symm ▸ h.1, h.2⟩
  have hnone : s.data.NoneWaits F collection → (s.takeUp thread jobs).data.NoneWaits F collection :=
    fun h element hparent => (hplace hparent).symm ▸ h element hparent
  refine ⟨fun other job status hmem element hparent hwaits => ?_, fun other job hmem => ?_,
    fun element hparent hturn => ?_, fun element later hparent hlater hturn hassigned => ?_,
    fun element hparent hremoved => ?_, hh.carried, fun hover => ?_⟩
  · rw [hplace hparent] at hwaits
    exact hh.swept other job status hmem element hparent hwaits
  · exact (hh.stopped other job hmem).imp_right (Or.imp_right hnone)
  · exact (hh.passed element hparent hturn).imp (hsucceeded hparent) hnone
  · rw [hplace hlater] at hassigned
    exact hsucceeded hparent (hh.before element later hparent hlater hturn hassigned)
  · rw [hplace hparent] at hremoved
    obtain ⟨job, hjob, hturn, hshort⟩ := hh.removed element hparent hremoved
    exact ⟨job, hjob, hturn, hfellShort hjob hshort⟩
  · have hbefore : (s.data.place collection).isOver = true := by
      simp only [State.takeUp] at hover
      split at hover
      · cases hover
      · exact hover
    rcases hh.isOver hbefore with ⟨hall, hsuccess⟩ | ⟨element, hparent, hshort, heq⟩
    · exact .inl ⟨fun element hparent => hsucceeded hparent (hall element hparent), hsuccess⟩
    · exact .inr ⟨element, hparent, hfellShort hparent hshort, heq⟩

omit [DecidableEq P] in
/-- A call that begins completes nothing. -/
theorem beginCall {next : State J P T σ} (hh : s.Halting F collection) {caller : T}
    {ops : List (Op J)} (h : s.beginCall caller ops = some next)
    (hops : ∀ op ∈ ops, op.completes? = none ∧ ∀ collection job, op ≠ .countDown collection job) :
    next.Halting F collection := by
  have hkeeps := State.mem_of_beginCall h
  have hold : ∀ {op thread}, op ∈ next.stack thread →
      (op.completes? ≠ none ∨ ∃ job, op = .countDown collection job) → op ∈ s.stack thread := by
    intro op thread hop hcases
    refine (State.mem_or_of_beginCall h hop).resolve_left fun hnew => ?_
    rcases hcases with hcompletes | ⟨job, hcount⟩
    · exact hcompletes (hops op hnew).1
    · exact (hops op hnew).2 collection job hcount
  obtain ⟨-, rfl⟩ := State.beginCall_eq_some h
  refine ⟨fun thread job status hop element hparent hwaits => ?_, fun thread job hop => ?_,
    hh.passed, hh.before, hh.removed, fun thread job hop => ?_, hh.isOver⟩
  · obtain ⟨sweeper, hsweeper, hsweeps⟩ :=
      hh.swept thread job status (hold hop (.inl (by simp [Op.completes?]))) element hparent hwaits
    exact ⟨sweeper, hkeeps thread _ hsweeper, hsweeps⟩
  · exact hh.stopped thread job (hold hop (.inl (by simp [Op.completes?])))
  · refine hh.carried thread job (hop.imp ?_ ?_)
    · exact fun hop => hold hop (.inl (by simp [Op.completes?]))
    · exact fun hop => hold hop (.inr ⟨job, rfl⟩)

end State.Halting

/-- **In runs that nobody disturbs every Sequence halts at the first element that falls
short.** -/
theorem runs_halting [DecidableEq T] {start : Weaver.Start J P σ}
    (run : Runs F Undisturbed start s) (hkind : F.kind collection = .sequence) :
    s.Halting F collection := by
  induction run with
  | refl =>
      refine ⟨fun thread job status hop => ?_, fun thread job hop => ?_, fun element hparent h => ?_,
        fun element later hparent hlater _ h => ?_, fun element hparent h => ?_,
        fun thread job hop => ?_, fun h => ?_⟩
      · cases thread <;> simp [init] at hop
      · cases thread <;> simp [init] at hop
      · cases h
      · cases h
      · cases h
      · cases thread <;> simp [init] at hop
      · cases h
  | @tail mid last act run _ hstep ih =>
      obtain ⟨hcalled, habort⟩ := Outside.runs_called (run.mono Outside.nobody_allows)
      have hflag : mid.data.shouldAbort collection = false :=
        Bool.eq_false_of_not_eq_true fun h => habort collection h
      refine step_rule ih (fun _ _ => ih.runThread (runs_sound run) (runs_enqueuing run)
        (runs_reporting run) (runs_finishing run) (runs_inTurn run hkind) hcalled hflag hkind)
        (fun _ _ _ => ih.takeUp) (fun _ _ hbefore hbegin => hbefore.beginCall hbegin ?_) hstep
      cases act <;> simp [Act.ops, Op.completes?]

end Exec

end ThreadWeaver.Collection
