import Mathlib.Data.Fintype.Basic
import Mathlib.Logic.Relation
import ThreadWeaver.Collection.Enqueued

/-!
# An abort goes through the tree

`requestAbort` of a collection sets the flag of the collection, stops it and goes on to those of
its elements whose status is at most `Status_Running`.  A collection that is `Shut` hands no
elements to the queue any more.  While the abort is under way every collection of the tree is
either still to be reached or shut, and then its elements are still to be taken out or none of
them waits; so when the abort has returned nothing in the tree waits, and nothing ever will.

The abort passes over an element whose status is higher.  A plain job may set its status itself
while it is in `run`, and the status of a collection says nothing about its elements: it is set by
the collection's own job and by each of its elements.  What the abort passes over is lost for it,
unless `run` of the plain job has ended or the end of the collection has begun.
-/

namespace ThreadWeaver.Collection

open Relation (ReflTransGen)
open Library (RunWhere)

variable {J P T σ : Type*}

/-- The job is in the tree of `root`. -/
def Forest.Under (F : Forest J P σ) (root job : J) : Prop :=
  ReflTransGen (fun collection element => F.parent element = some collection) root job

/-! ## Shut collections -/

/-- The job is dequeued, or about to be. -/
def Place.isRemoved : Place T → Bool
  | held .taken _ | held .leaving _ | discounted | lost => true
  | _ => false

/-- The job will not hand elements to the queue. -/
inductive Shut (F : Forest J P σ) (d : Data J P T σ) : J → Prop
  | aborted {job : J} : d.shouldAbort job = true → Shut F d job
  /-- it has handed them over before -/
  | late {job : J} : (d.place job).isLate = true → Shut F d job
  | removed {job collection : J} : F.parent job = some collection →
      (d.place job).isRemoved = true → Shut F d job
  /-- it is not handed over itself -/
  | fresh {job collection : J} : F.parent job = some collection → d.place job = .fresh →
      Shut F d collection → Shut F d job

theorem Moves.isLate {F : Forest J P σ} {d : Data J P T σ} {thread : Thread T} {op : Op J}
    {job : J} {before after : Place T} (h : Moves F d thread op job before after)
    (hlate : before.isLate = true) : after.isLate = true := by
  cases h with
  | ended | reporting | waiting | reported | endingSelf | endingElement => rfl
  | _ => cases hlate

theorem Moves.isOver {F : Forest J P σ} {d : Data J P T σ} {thread : Thread T} {op : Op J}
    {job : J} {before after : Place T} (h : Moves F d thread op job before after)
    (hover : before.isOver = true) : after.isOver = true := by
  cases h with
  | ended | reporting | reported => rfl
  | _ => cases hover

theorem Moves.isRemoved {F : Forest J P σ} {d : Data J P T σ} {thread : Thread T} {op : Op J}
    {job collection : J} {before after : Place T} (h : Moves F d thread op job before after)
    (hparent : F.parent job = some collection) (hremoved : before.isRemoved = true) :
    after.isRemoved = true := by
  cases h with
  | again hnone =>
      rw [hparent] at hnone
      cases hnone
  | lost | discounted => rfl
  | _ => cases hremoved

theorem State.takeUp_place [DecidableEq J] {F : Forest J P σ} {s : State J P T σ}
    {thread : Thread T} {jobs : List J} {element collection : J}
    (hjobs : ∀ job ∈ jobs, F.parent job = none ∧ s.data.place job = .fresh)
    (hparent : F.parent element = some collection) :
    (s.takeUp thread jobs).data.place element = s.data.place element := by
  refine if_neg fun hmem => ?_
  rw [(hjobs element hmem).1] at hparent
  cases hparent

namespace Shut

variable {F : Forest J P σ} {d : Data J P T σ} {collection element : J}

theorem not_opening (h : Shut F d collection) {thread : Thread T}
    (hplace : d.place collection = .held .executing thread)
    (hflag : d.shouldAbort collection = false) : False := by
  cases h with
  | aborted hyes =>
      rw [hyes] at hflag
      cases hflag
  | late hlate => simp [hplace, Place.isLate] at hlate
  | removed _ hremoved => simp [hplace, Place.isRemoved] at hremoved
  | fresh _ hfresh _ => simp [hplace] at hfresh

section Exec

variable [DecidableEq J] [DecidableEq P] {s : State J P T σ} {thread : Thread T} {op : Op J}
  {rest : List (Op J)}

/-- **A shut collection stays shut.** -/
theorem exec (h : Shut F s.data collection) (hs : s.Sound F) (hstack : s.stack thread = op :: rest)
    (hfree : ∀ mutex, wants F op = some mutex → s.data.holder mutex = none) :
    Shut F (Collection.exec F thread op s.data).1 collection := by
  induction h with
  | aborted hflag => exact .aborted (exec_shouldAbort F thread op hflag)
  | @late job hlate =>
      refine .late ?_
      rcases hs.exec_place hstack hfree job with hsame | hmoves
      · rwa [hsame]
      · exact hmoves.isLate hlate
  | @removed job owner hparent hremoved =>
      refine .removed hparent ?_
      rcases hs.exec_place hstack hfree job with hsame | hmoves
      · rwa [hsame]
      · exact hmoves.isRemoved hparent hremoved
  | @fresh job owner hparent hfresh hshut ih =>
      refine .fresh hparent ?_ ih
      rcases hs.exec_place hstack hfree job with hsame | hmoves
      · exact hsame.trans hfresh
      · rw [hfresh] at hmoves
        generalize (Collection.exec F thread op s.data).1.place job = after at hmoves
        cases hmoves with
        | pending howner hplace hflag =>
            cases howner.symm.trans hparent
            exact (hshut.not_opening hplace hflag).elim

theorem exec_isEnqueued (h : Shut F s.data collection) (hs : s.Sound F)
    (hstack : s.stack thread = op :: rest)
    (hfree : ∀ mutex, wants F op = some mutex → s.data.holder mutex = none)
    (hparent : F.parent element = some collection)
    (hafter : ((Collection.exec F thread op s.data).1.place element).isEnqueued = true) :
    (s.data.place element).isEnqueued = true := by
  rcases hs.exec_isEnqueued hstack hfree hparent hafter with hbefore | ⟨-, hplace, hflag⟩
  · exact hbefore
  · exact (h.not_opening hplace hflag).elim

end Exec

variable [DecidableEq J] {s : State J P T σ} {thread : Thread T} {jobs : List J}

theorem takeUp (h : Shut F s.data collection)
    (hjobs : ∀ job ∈ jobs, F.parent job = none ∧ s.data.place job = .fresh) :
    Shut F (s.takeUp thread jobs).data collection := by
  induction h with
  | aborted hflag => exact .aborted hflag
  | @late job hlate =>
      refine .late ?_
      have hnot : job ∉ jobs := by
        intro hmem
        rw [(hjobs job hmem).2] at hlate
        cases hlate
      simpa only [State.takeUp, if_neg hnot] using hlate
  | removed hparent hremoved =>
      refine .removed hparent ?_
      rwa [State.takeUp_place hjobs hparent]
  | fresh hparent hfresh _ ih =>
      exact .fresh hparent ((State.takeUp_place hjobs hparent).trans hfresh) ih

end Shut

/-! ## Collections that have come to their end -/

/-- The end of the job has begun, or it will hand no elements to the queue and has not done so. -/
def Data.Closed (F : Forest J P σ) (d : Data J P T σ) (job : J) : Prop :=
  (d.place job).isOver = true ∨ d.opened job = false ∧ Shut F d job

namespace State.Sound

variable [DecidableEq J] {F : Forest J P σ} {s : State J P T σ} {collection element : J}

/-- The elements of a closed collection are closed, and are counted or fresh. -/
theorem closed_element (hs : s.Sound F) (h : s.data.Closed F collection)
    (hparent : F.parent element = some collection) :
    s.data.Closed F element ∧
      ((s.data.place element).isCounted = true ∨ s.data.place element = .fresh) := by
  rcases h with hover | ⟨hopened, hshut⟩
  · have hcounted : (s.data.place element).isCounted = true := by
      by_contra hnot
      have := hs.books.not_over hparent (by simpa [Data.books] using hnot)
      rw [show (s.data.books.place collection).isOver = true from hover] at this
      cases this
    refine ⟨?_, .inl hcounted⟩
    cases hplace : s.data.place element with
    | reported => exact .inl (by rw [hplace]; rfl)
    | discounted =>
        refine .inr ⟨hs.books.not_opened ?_, .removed hparent ?_⟩
        · simp [Data.books, hplace, Place.isLate]
        · rw [hplace]
          rfl
    | _ =>
        rw [hplace] at hcounted
        cases hcounted
  · have hfresh : s.data.place element = .fresh := (hs.books.fresh _ _ hparent).mpr hopened
    refine ⟨.inr ⟨hs.books.not_opened ?_, .fresh hparent hfresh hshut⟩, .inr hfresh⟩
    simp [Data.books, hfresh, Place.isLate]

theorem closed_under (hs : s.Sound F) (h : s.data.Closed F collection)
    (hunder : F.Under collection element) : s.data.Closed F element := by
  induction hunder with
  | refl => exact h
  | tail _ hparent ih => exact (hs.closed_element ih hparent).1

end State.Sound

theorem Data.Closed.shut {F : Forest J P σ} {d : Data J P T σ} {job : J} (h : d.Closed F job) :
    Shut F d job := by
  rcases h with hover | ⟨-, hshut⟩
  · refine .late ?_
    cases hplace : d.place job with
    | held stage thread => cases stage <;> simp_all [Place.isOver, Place.isLate]
    | _ => simp_all [Place.isOver, Place.isLate]
  · exact hshut

/-! ## What an abort has still to do -/

/-- The abort will come to the job by this operation. -/
def Op.Reaches (F : Forest J P σ) (job : J) : Op J → Prop
  | requestAbort top | abortElement top => F.Under top job
  | abortElements top => F.Under top job ∧ top ≠ job
  | _ => False

/-- The operation takes the element out of the queue. -/
def Op.Sweeps (collection element : J) : Op J → Prop
  | stop owner | dequeueSelf owner | stopElements owner | dequeueElements owner false =>
      owner = collection
  | dequeueElement owner job false => owner = collection ∧ job = element
  | _ => False

section Exec

variable [DecidableEq J] [DecidableEq P] {F : Forest J P σ} {s : State J P T σ}
  {thread : Thread T} {op : Op J} {rest : List (Op J)} {job collection element : J}

/-- **An abort goes on to every job of the tree**, but for what it passes over. -/
theorem exec_reaches (thread : Thread T) (d : Data J P T σ) (h : op.Reaches F job) :
    (∃ later ∈ (exec F thread op d).2, later.Reaches F job) ∨ op = .requestAbort job ∨
      ∃ top, op = .abortElement top ∧ F.Under top job ∧
        Status.running.toNat < (d.status top).toNat := by
  cases op with
  | requestAbort top =>
      by_cases heq : top = job
      · subst heq
        exact .inr (.inl rfl)
      · refine .inl ⟨.abortElements top, ?_, h, heq⟩
        have hkind : F.kind top ≠ .plain := by
          rcases ReflTransGen.cases_head h with heq' | ⟨next, hparent, -⟩
          · exact absurd heq' heq
          · exact Books.Lawful.kind_ne_plain hparent
        simp [exec, hkind]
  | abortElements top =>
      obtain ⟨hunder, hne⟩ := h
      rcases ReflTransGen.cases_head hunder with heq | ⟨next, hparent, hnext⟩
      · exact absurd heq hne
      · refine .inl ⟨.abortElement next, ?_, hnext⟩
        simpa [exec] using (F.mem_elements _ _).mpr hparent
  | abortElement top =>
      by_cases hstatus : (d.status top).toNat ≤ Status.running.toNat
      · refine .inl ⟨.requestAbort top, ?_, h⟩
        simp [exec, hstatus]
      · exact .inr (.inr ⟨top, rfl, h, not_le.mp hstatus⟩)
  | _ => exact h.elim

/-- **A stop takes out what waits.** -/
theorem State.Enqueuing.exec_sweeps (he : s.Enqueuing F) (hs : s.Sound F)
    (hstack : s.stack thread = op :: rest)
    (hfree : ∀ mutex, wants F op = some mutex → s.data.holder mutex = none)
    (hparent : F.parent element = some collection) (h : op.Sweeps collection element)
    (hbefore : (s.data.place element).isEnqueued = true)
    (hafter : ((exec F thread op s.data).1.place element).isEnqueued = true) :
    ∃ later ∈ (exec F thread op s.data).2, later.Sweeps collection element := by
  have hapi := he.api collection element hparent hbefore
  cases op with
  | stop owner =>
      obtain rfl : owner = collection := h
      exact ⟨.dequeueSelf owner, by simp [exec, hapi], rfl⟩
  | dequeueSelf owner =>
      obtain rfl : owner = collection := h
      by_cases hmem : owner ∈ s.data.assignments
      · have hopened := hs.opened_of_enqueued hparent hbefore
        have hlate : (s.data.place owner).isLate = false := by
          rw [hs.queued_of_free (hfree _ rfl) hmem]
          rfl
        rw [show s.data.opened owner = false from hs.books.not_opened hlate] at hopened
        cases hopened
      · exact ⟨.stopElements owner, by simp [exec, hmem], rfl⟩
  | stopElements owner =>
      obtain rfl : owner = collection := h
      exact ⟨.dequeueElements owner false, by simp [exec], rfl⟩
  | dequeueElements owner locked =>
      cases locked with
      | true => exact h.elim
      | false =>
          obtain rfl : owner = collection := h
          refine ⟨.dequeueElement owner element false, ?_, rfl, rfl⟩
          simpa [exec, hapi] using (F.mem_elements _ _).mpr hparent
  | dequeueElement owner head locked =>
      cases locked with
      | true => exact h.elim
      | false =>
          obtain ⟨rfl, rfl⟩ := h
          rw [hs.dequeueElement_takes (he.loops thread) hstack hfree] at hafter
          cases hafter
  | _ => exact h.elim

end Exec

/-- The job is in `run`, or about to be. -/
def Place.isExecuting : Place T → Bool
  | held .executing _ => true
  | _ => false

/-- What an abort passes over has nothing left to be aborted: a plain job is not in `run`, and the
end of a collection has begun. -/
def Data.Harmless (F : Forest J P σ) (d : Data J P T σ) (element : J) : Prop :=
  if F.kind element = .plain then (d.place element).isExecuting = false
  else (d.place element).isOver = true

/-- The abort of the thread passes over no element because of its status, unless nothing is left to
be aborted there. -/
def PassesOverEnded [DecidableEq J] [DecidableEq T] (F : Forest J P σ) (thread : Thread T)
    (s : State J P T σ) (act : Act J T) : Prop :=
  act = .run thread → ∀ element, (s.stack thread).head? = some (.abortElement element) →
    Status.running.toNat < (s.data.status element).toNat → s.data.Harmless F element

instance (F : Forest J P σ) (d : Data J P T σ) (element : J) : Decidable (d.Harmless F element) :=
  inferInstanceAs (Decidable (if F.kind element = .plain then _ else _))

instance [Fintype J] [DecidableEq J] [DecidableEq T] (F : Forest J P σ) (thread : Thread T)
    (s : State J P T σ) (act : Act J T) : Decidable (PassesOverEnded F thread s act) :=
  inferInstanceAs (Decidable (_ → ∀ _, _ → _ → _))

theorem Data.Harmless.isOver {F : Forest J P σ} {d : Data J P T σ} {element : J}
    (h : d.Harmless F element) (hkind : F.kind element ≠ .plain) :
    (d.place element).isOver = true := by
  rwa [Data.Harmless, if_neg hkind] at h

theorem Data.Harmless.not_executing {F : Forest J P σ} {d : Data J P T σ} {element : J}
    (h : d.Harmless F element) (hkind : F.kind element = .plain) (worker : Thread T) :
    d.place element ≠ .held .executing worker := by
  rw [Data.Harmless, if_pos hkind] at h
  intro hplace
  rw [hplace] at h
  cases h

/-- The abort has still to come to the collection, or the collection is shut and its element is
still to be taken out of the queue if it waits there. -/
def State.Swept (F : Forest J P σ) (thread : Thread T) (collection element : J)
    (s : State J P T σ) : Prop :=
  (∃ op ∈ s.stack thread, op.Reaches F collection) ∨
    Shut F s.data collection ∧ ((s.data.place element).isEnqueued = true →
      ∃ op ∈ s.stack thread, op.Sweeps collection element)

/-- The job has been executed, or it has been asked to abort if the abort is not still to come
to it. -/
def State.Asked (F : Forest J P σ) (thread : Thread T) (job : J) (s : State J P T σ) : Prop :=
  (s.data.place job).isLate = true ∨
    (∃ worker, s.data.place job = .held .executing worker) ∧
      (s.data.shouldAbort job = true ∨ ∃ op ∈ s.stack thread, op.Reaches F job)

section Step

variable [DecidableEq J] [DecidableEq P] [DecidableEq T] {F : Forest J P σ}
  {s next : State J P T σ} {thread : Thread T} {collection element job : J}

omit [DecidableEq J] [DecidableEq P] [DecidableEq T] in
theorem exists_mem_of_next {stack rest new : List (Op J)} {op : Op J} {p : Op J → Prop}
    (hstack : stack = op :: rest) (h : ∃ below ∈ stack, p below) :
    p op ∨ ∃ below ∈ new ++ rest, p below := by
  obtain ⟨below, hmem, hp⟩ := h
  rw [hstack] at hmem
  rcases List.mem_cons.mp hmem with rfl | hmem
  · exact .inl hp
  · exact .inr ⟨below, List.mem_append_right _ hmem, hp⟩

/-- The next operation of the thread that aborts. -/
theorem State.Swept.runSelf (h : s.Swept F thread collection element) (hs : s.Sound F)
    (he : s.Enqueuing F) (hparent : F.parent element = some collection)
    (hok : PassesOverEnded F thread s (.run thread))
    (hstep : s.runThread F thread = some next) : next.Swept F thread collection element := by
  obtain ⟨op, rest, hstack, hfree, rfl⟩ := State.runThread_eq_some hstep
  simp only [State.Swept, Function.update_self]
  -- what the operation leaves of a collection that is shut
  have hshut : Shut F s.data collection → ((s.data.place element).isEnqueued = true →
      ∃ op ∈ s.stack thread, op.Sweeps collection element) →
      Shut F (exec F thread op s.data).1 collection ∧
        (((exec F thread op s.data).1.place element).isEnqueued = true →
          ∃ later ∈ (exec F thread op s.data).2 ++ rest, later.Sweeps collection element) := by
    intro hbefore hsweeps
    refine ⟨hbefore.exec hs hstack hfree, fun hafter => ?_⟩
    have hwaits := hbefore.exec_isEnqueued hs hstack hfree hparent hafter
    rcases exists_mem_of_next hstack (hsweeps hwaits) with hop | hlater
    · obtain ⟨later, hmem, hlater⟩ :=
        he.exec_sweeps hs hstack hfree hparent hop hwaits hafter
      exact ⟨later, List.mem_append_left _ hmem, hlater⟩
    · exact hlater
  rcases h with hreaches | ⟨hbefore, hsweeps⟩
  · rcases exists_mem_of_next hstack hreaches with hop | hlater
    · rcases exec_reaches thread s.data hop with
        ⟨later, hmem, hlater⟩ | rfl | ⟨top, rfl, hunder, hstatus⟩
      · exact .inl ⟨later, List.mem_append_left _ hmem, hlater⟩
      · have hkind : F.kind collection ≠ .plain := Books.Lawful.kind_ne_plain hparent
        refine .inr ⟨.aborted (by simp [exec]), fun _ => ⟨.stop collection, ?_, rfl⟩⟩
        simp [exec, hkind]
      · have hkind : F.kind top ≠ .plain := by
          rcases ReflTransGen.cases_head hunder with rfl | ⟨next, hnext, -⟩
          · exact Books.Lawful.kind_ne_plain hparent
          · exact Books.Lawful.kind_ne_plain hnext
        have hover := (hok rfl top (by rw [hstack]; rfl) hstatus).isOver hkind
        have hclosed := hs.closed_under (.inl hover) hunder
        refine .inr (hshut hclosed.shut fun hwaits => ?_)
        rcases (hs.closed_element hclosed hparent).2 with hcounted | hfresh
        · rw [Place.not_counted_of_isEnqueued hwaits] at hcounted
          cases hcounted
        · rw [hfresh] at hwaits
          cases hwaits
    · exact .inl hlater
  · exact .inr (hshut hbefore hsweeps)

theorem State.Swept.runOther (h : s.Swept F thread collection element) (hs : s.Sound F)
    (hparent : F.parent element = some collection) {other : Thread T} (hne : thread ≠ other)
    (hstep : s.runThread F other = some next) : next.Swept F thread collection element := by
  obtain ⟨op, rest, hstack, hfree, rfl⟩ := State.runThread_eq_some hstep
  simp only [State.Swept, Function.update_of_ne hne]
  rcases h with hreaches | ⟨hshut, hsweeps⟩
  · exact .inl hreaches
  · refine .inr ⟨hshut.exec hs hstack hfree, ?_⟩
    intro hafter
    exact hsweeps (hshut.exec_isEnqueued hs hstack hfree hparent hafter)

omit [DecidableEq J] [DecidableEq P] in
theorem State.mem_of_beginCall {caller : T} {ops : List (Op J)}
    (hstep : s.beginCall caller ops = some next) (thread : Thread T) :
    ∀ op ∈ s.stack thread, op ∈ next.stack thread := by
  intro op hop
  obtain ⟨hidle, rfl⟩ := State.beginCall_eq_some hstep
  have hne : thread ≠ .caller caller := by
    rintro rfl
    rw [hidle] at hop
    cases hop
  simpa only [Function.update_of_ne hne] using hop

omit [DecidableEq J] [DecidableEq P] in
theorem State.mem_or_of_beginCall {caller : T} {ops : List (Op J)}
    (hstep : s.beginCall caller ops = some next) {op : Op J} {thread : Thread T}
    (hop : op ∈ next.stack thread) : op ∈ ops ∨ op ∈ s.stack thread := by
  obtain ⟨-, rfl⟩ := State.beginCall_eq_some hstep
  dsimp only at hop
  by_cases heq : thread = .caller caller
  · rw [heq, Function.update_self] at hop
    exact .inl hop
  · rw [Function.update_of_ne heq] at hop
    exact .inr hop

/-- **A step of an abort leaves behind what it has still to do.** -/
theorem State.Swept.step (h : s.Swept F thread collection element) (hs : s.Sound F)
    (he : s.Enqueuing F) (hparent : F.parent element = some collection) {act : Act J T}
    (hok : PassesOverEnded F thread s act) (hstep : step F s act = some next) :
    next.Swept F thread collection element := by
  refine step_rule h ?_ ?_ ?_ hstep
  · rintro other rfl hran
    by_cases heq : thread = other
    · subst heq
      exact h.runSelf hs he hparent hok hran
    · exact h.runOther hs hparent heq hran
  · intro caller jobs _ hjobs
    rcases h with hreaches | ⟨hshut, hsweeps⟩
    · exact .inl hreaches
    · refine .inr ⟨hshut.takeUp hjobs, ?_⟩
      intro hwaits
      rw [State.takeUp_place hjobs hparent] at hwaits
      exact hsweeps hwaits
  · intro before caller hbefore hbegin
    have hmem := State.mem_of_beginCall hbegin thread
    obtain ⟨-, rfl⟩ := State.beginCall_eq_some hbegin
    rcases hbefore with ⟨op, hop, hreaches⟩ | ⟨hshut, hsweeps⟩
    · exact .inl ⟨op, hmem op hop, hreaches⟩
    · refine .inr ⟨hshut, ?_⟩
      intro hwaits
      obtain ⟨op, hop, hop'⟩ := hsweeps hwaits
      exact ⟨op, hmem op hop, hop'⟩

/-! ## Jobs that are executed -/

/-- The next operation of the thread that aborts. -/
theorem State.Asked.runThread (h : s.Asked F thread job) (hs : s.Sound F)
    (hplain : F.kind job = .plain) {other : Thread T}
    (hok : PassesOverEnded F thread s (.run other))
    (hstep : s.runThread F other = some next) : next.Asked F thread job := by
  obtain ⟨op, rest, hstack, hfree, rfl⟩ := State.runThread_eq_some hstep
  dsimp only [State.Asked]
  rcases h with hlate | ⟨⟨worker, hplace⟩, hasked⟩
  · refine .inl ?_
    rcases hs.exec_place hstack hfree job with hsame | hmoves
    · rwa [hsame]
    · exact hmoves.isLate hlate
  · have hafter : ((exec F other op s.data).1.place job).isLate = true ∨
        (exec F other op s.data).1.place job = .held .executing worker := by
      rcases hs.exec_place hstack hfree job with hsame | hmoves
      · exact .inr (hsame.trans hplace)
      · rw [hplace] at hmoves
        generalize (exec F other op s.data).1.place job = after at hmoves ⊢
        cases hmoves with
        | ending | closing => exact .inl rfl
    refine hafter.imp id fun hstays => ⟨⟨worker, hstays⟩, ?_⟩
    rcases hasked with hflag | hreaches
    · refine .inl ?_
      rcases exec_setsAbort F other op s.data with ⟨aborted, -, hset⟩ | hsame
      · rw [hset, Function.update_apply, hflag]
        exact ite_self _
      · rw [hsame]
        exact hflag
    · by_cases heq : thread = other
      · subst heq
        rw [Function.update_self]
        rcases exists_mem_of_next hstack hreaches with hop | hlater
        · rcases exec_reaches thread s.data hop with
            ⟨later, hmem, hlater⟩ | rfl | ⟨top, rfl, hunder, hstatus⟩
          · exact .inr ⟨later, List.mem_append_left _ hmem, hlater⟩
          · exact .inl (by simp [exec])
          · exfalso
            -- the abort passes over the job itself, or over a collection that it is below of
            rcases ReflTransGen.cases_tail hunder with rfl | ⟨owner, howner, hparent⟩
            · exact (hok rfl job (by rw [hstack]; rfl) hstatus).not_executing hplain worker hplace
            · have hkind : F.kind top ≠ .plain := by
                rcases ReflTransGen.cases_head howner with rfl | ⟨next, hnext, -⟩
                · exact Books.Lawful.kind_ne_plain hparent
                · exact Books.Lawful.kind_ne_plain hnext
              have hover := (hok rfl top (by rw [hstack]; rfl) hstatus).isOver hkind
              have hclosed := hs.closed_under (.inl hover) howner
              rcases (hs.closed_element hclosed hparent).2 with hcounted | hfresh
              · rw [hplace] at hcounted
                cases hcounted
              · rw [hplace] at hfresh
                cases hfresh
        · exact .inr hlater
      · rw [Function.update_of_ne heq]
        exact .inr hreaches

theorem State.Asked.step (h : s.Asked F thread job) (hs : s.Sound F)
    (hplain : F.kind job = .plain) {act : Act J T}
    (hok : PassesOverEnded F thread s act) (hstep : step F s act = some next) :
    next.Asked F thread job := by
  refine step_rule h ?_ ?_ ?_ hstep
  · rintro other rfl hran
    exact h.runThread hs hplain hok hran
  · intro caller jobs _ hjobs
    have hnot : s.data.place job ≠ .fresh → job ∉ jobs :=
      fun hne hmem => hne (hjobs job hmem).2
    rcases h with hlate | ⟨⟨worker, hplace⟩, hasked⟩
    · refine .inl ?_
      have hne : s.data.place job ≠ .fresh := by
        intro hfresh
        rw [hfresh] at hlate
        cases hlate
      simpa only [State.takeUp, if_neg (hnot hne)] using hlate
    · refine .inr ⟨⟨worker, ?_⟩, hasked⟩
      simpa only [State.takeUp, if_neg (hnot (by simp [hplace]))] using hplace
  · intro before caller hbefore hbegin
    have hmem := State.mem_of_beginCall hbegin thread
    obtain ⟨-, rfl⟩ := State.beginCall_eq_some hbegin
    rcases hbefore with hlate | ⟨hplace, hasked | ⟨op, hop, hreaches⟩⟩
    · exact .inl hlate
    · exact .inr ⟨hplace, .inl hasked⟩
    · exact .inr ⟨hplace, .inr ⟨op, hmem op hop, hreaches⟩⟩

/-! ## When the abort has returned -/

/-- The job has been handed to a worker. -/
def Data.WasAssigned (d : Data J P T σ) (job : J) : Prop :=
  ∃ thread, .assigned thread job ∈ d.log

/-- The collections of the tree are shut, and nothing in the tree waits. -/
def State.Settled (F : Forest J P σ) (root : J) (s : State J P T σ) : Prop :=
  ∀ collection element, F.Under root collection → F.parent element = some collection →
    Shut F s.data collection ∧ (s.data.place element).isEnqueued = false

variable {ok : State J P T σ → Act J T → Prop} {start : Weaver.Start J P σ}
  {called returned later : State J P T σ} {root : J}

theorem runs_trans {ok' : State J P T σ → Act J T → Prop} (hrun : Runs F ok start s)
    (hmore : RunWhere (step F) ok' s next) : Runs F (fun _ _ => True) start next :=
  (hrun.mono fun _ _ _ => trivial).trans (hmore.mono fun _ _ _ => trivial)

theorem runs_call (hrun : Runs F ok start s) {caller : T}
    (hcall : step F s (.requestAbort caller root) = some called) :
    Runs F (fun _ _ => True) start called :=
  (hrun.mono fun _ _ _ => trivial).tail trivial hcall

theorem runs_not_assigned (hrun : Runs F ok start s) (job : J)
    (hplace : (s.data.place job).isAssigned = false) : ¬ s.data.WasAssigned job := by
  rintro ⟨thread, hmem⟩
  have hassigned := (runs_recorded hrun).assigned job thread hmem
  rw [show s.data.books.place job = s.data.place job from rfl, hplace] at hassigned
  cases hassigned

theorem runs_swept (hrun : Runs F ok start called)
    (hstack : called.stack thread = [.requestAbort root])
    (habort : RunWhere (step F) (PassesOverEnded F thread) called s)
    (hunder : F.Under root collection) (hparent : F.parent element = some collection) :
    s.Swept F thread collection element := by
  induction habort with
  | refl => exact .inl ⟨.requestAbort root, by rw [hstack]; exact List.mem_cons_self, hunder⟩
  | tail hmore hok hstep ih =>
      have hbefore := runs_trans hrun hmore
      exact ih.step (runs_sound hbefore) (runs_enqueuing hbefore) hparent hok hstep

theorem runs_asked (hrun : Runs F ok start called)
    (hstack : called.stack thread = [.requestAbort root]) (hunder : F.Under root job)
    (hplain : F.kind job = .plain) {worker : Thread T}
    (hplace : called.data.place job = .held .executing worker)
    (habort : RunWhere (step F) (PassesOverEnded F thread) called s) :
    s.Asked F thread job := by
  induction habort with
  | refl =>
      refine .inr ⟨⟨worker, hplace⟩, .inr ⟨.requestAbort root, ?_, hunder⟩⟩
      rw [hstack]
      exact List.mem_cons_self
  | tail hmore hok hstep ih =>
      have hbefore := runs_trans hrun hmore
      exact ih.step (runs_sound hbefore) hplain hok hstep

/-- **Nothing in the tree waits any more, and nothing ever will.** -/
theorem State.Settled.step (h : s.Settled F root) (hs : s.Sound F) {act : Act J T}
    (hstep : step F s act = some next) : next.Settled F root := by
  refine step_rule h ?_ ?_ ?_ hstep
  · rintro thread rfl hran collection element hunder hparent
    obtain ⟨op, rest, hstack, hfree, rfl⟩ := State.runThread_eq_some hran
    obtain ⟨hshut, hwaits⟩ := h collection element hunder hparent
    refine ⟨hshut.exec hs hstack hfree, ?_⟩
    by_contra hafter
    rw [hshut.exec_isEnqueued hs hstack hfree hparent (by simpa using hafter)] at hwaits
    cases hwaits
  · intro caller jobs _ hjobs collection element hunder hparent
    obtain ⟨hshut, hwaits⟩ := h collection element hunder hparent
    exact ⟨hshut.takeUp hjobs, by rwa [State.takeUp_place hjobs hparent]⟩
  · intro before caller hbefore hbegin
    obtain ⟨-, rfl⟩ := State.beginCall_eq_some hbegin
    exact hbefore

/-- What a step records of a job being assigned. -/
theorem State.Sound.step_assigned (hs : s.Sound F) {act : Act J T}
    (hstep : Collection.step F s act = some next) (hafter : next.data.WasAssigned job) :
    s.data.WasAssigned job ∨ s.data.place job = .queued := by
  refine step_rule (I := fun after => after.data.WasAssigned job →
    s.data.WasAssigned job ∨ s.data.place job = .queued) (fun h => .inl h) ?_ ?_ ?_ hstep hafter
  · rintro thread rfl hran ⟨worker, hmem⟩
    obtain ⟨op, rest, hstack, -, rfl⟩ := State.runThread_eq_some hran
    rcases exec_mem_log F thread op s.data hmem with hold | hrecords
    · exact .inl ⟨worker, hold⟩
    · cases hrecords with
      | assigned => exact .inr (hs.queued_of_candidate hstack)
  · exact fun _ _ _ _ h => .inl h
  · intro before caller hbefore hbegin
    obtain ⟨-, rfl⟩ := State.beginCall_eq_some hbegin
    exact hbefore

theorem runs_settled (hrun : Runs F ok start returned) (hsettled : returned.Settled F root)
    {ok' : State J P T σ → Act J T → Prop} (hlater : RunWhere (step F) ok' returned later)
    (hunder : F.Under root collection) (hparent : F.parent job = some collection)
    (hnot : ¬ returned.data.WasAssigned job) :
    later.Settled F root ∧ ¬ later.data.WasAssigned job := by
  induction hlater with
  | refl => exact ⟨hsettled, hnot⟩
  | tail hmore _ hstep ih =>
      obtain ⟨hmid, hnone⟩ := ih
      have hs := runs_sound (runs_trans hrun hmore)
      refine ⟨hmid.step hs hstep, fun hassigned => ?_⟩
      rcases hs.step_assigned hstep hassigned with hbefore | hqueued
      · exact hnone hbefore
      · have hwaits := (hmid collection job hunder hparent).2
        rw [hqueued] at hwaits
        cases hwaits

/-- **An abort reaches the whole tree**, if it passes over no plain job that is in `run` and no
collection but those whose end has begun: when `requestAbort` of the root has returned, no plain
job of the tree that was not assigned by then is ever assigned, and every plain job of the tree
that was executed all the time has been asked to abort. -/
theorem abort_reaches_tree (hkind : F.kind root ≠ .plain) {caller : T}
    (hrun : Runs F ok start s) (hcall : step F s (.requestAbort caller root) = some called)
    (habort : RunWhere (step F) (PassesOverEnded F (.caller caller)) called returned)
    (hreturned : returned.stack (.caller caller) = [])
    (hlater : RunWhere (step F) (fun _ _ => True) returned later)
    (hunder : F.Under root job) (hplain : F.kind job = .plain) :
    (¬ returned.data.WasAssigned job → ¬ later.data.WasAssigned job) ∧
      ((∃ worker, called.data.place job = .held .executing worker) →
        (∃ worker, returned.data.place job = .held .executing worker) →
        returned.data.shouldAbort job = true) := by
  have hcalled := runs_call hrun hcall
  have hstack : called.stack (.caller caller) = [.requestAbort root] := by
    obtain ⟨-, rfl⟩ := State.beginCall_eq_some hcall
    exact Function.update_self _ _ _
  have hsettled : returned.Settled F root := by
    intro collection element howner hparent
    rcases runs_swept hcalled hstack habort howner hparent with
      ⟨op, hop, -⟩ | ⟨hshut, hsweeps⟩
    · rw [hreturned] at hop
      cases hop
    · refine ⟨hshut, ?_⟩
      by_contra hwaits
      obtain ⟨op, hop, -⟩ := hsweeps (by simpa using hwaits)
      rw [hreturned] at hop
      cases hop
  constructor
  · intro hnot
    rcases ReflTransGen.cases_tail hunder with rfl | ⟨collection, howner, hparent⟩
    · exact absurd hplain hkind
    · exact (runs_settled (runs_trans hcalled habort) hsettled hlater howner hparent hnot).2
  · rintro ⟨worker, hbefore⟩ ⟨worker', hafter⟩
    rcases runs_asked hcalled hstack hunder hplain hbefore habort with
      hlate | ⟨-, hflag | ⟨op, hop, -⟩⟩
    · rw [hafter] at hlate
      cases hlate
    · exact hflag
    · rw [hreturned] at hop
      cases hop

end Step

/-- A Collection `0` that contains a Collection `1` of two plain jobs, the first of which fails. -/
def nested : Forest (Fin 4) Empty Unit :=
  .numbered ![.collection, .collection, .plain, .plain] ![none, some 0, some 1, some 1]
    (by decide) ![.returned, .returned, .jobFailed, .returned] (by decide) noPolicies

theorem nested_under : nested.Under 0 2 ∧ nested.Under 0 3 := by
  have hinner : nested.Under 0 1 := .single rfl
  exact ⟨hinner.tail rfl, hinner.tail rfl⟩

/-- The root is enqueued and a worker takes some steps; then the root is aborted. -/
theorem exists_abort {J : Type*} [DecidableEq J] (F : Forest J Empty Unit) (root : J)
    (ok : State J Empty Unit Unit → Act J Unit → Prop) [∀ state act, Decidable (ok state act)]
    (steps : ℕ) (goal : State J Empty Unit Unit → State J Empty Unit Unit → Prop)
    (later : State J Empty Unit Unit → Prop) [∀ s s', Decidable (goal s s')]
    [DecidablePred later] (more rest : List (Act J Unit))
    (h : (Library.execute (step F) ok (init (.plain ()))
        (List.flatten [[.enqueue () [root]], List.replicate 3 (.run (.caller ())),
          List.replicate steps (.run (.worker 0))])).any (fun s =>
        (step F s (.requestAbort () root)).any fun called =>
          (Library.execute (step F) ok called more).any fun returned =>
            decide (goal called returned) && (Library.execute (step F) ok returned rest).any
              fun last => decide (later last)) = true) :
    ∃ s called returned last : State J Empty Unit Unit,
      Runs F ok (.plain ()) s ∧ step F s (.requestAbort () root) = some called ∧
        RunWhere (step F) ok called returned ∧ goal called returned ∧
        RunWhere (step F) ok returned last ∧ later last := by
  obtain ⟨s, hs, h⟩ := (Option.any_eq_true _ _).mp h
  obtain ⟨called, hcalled, h⟩ := (Option.any_eq_true _ _).mp h
  obtain ⟨returned, last, habort, hgoal, hlater, hlast⟩ :=
    Library.exists_runWhere_later (goal called) later more rest h
  exact ⟨s, called, returned, last, Library.runWhere_of_execute hs, hcalled, habort, hgoal, hlater,
    hlast⟩

/-- The first plain job is executed when the root is aborted, and the second one waits. -/
theorem abort_reaches_tree_nested : ∃ s called returned last : State (Fin 4) Empty Unit Unit,
    step nested s (.requestAbort () 0) = some called ∧ returned.stack (.caller ()) = [] ∧
      returned.data.shouldAbort 2 = true ∧ ¬ last.data.WasAssigned 3 := by
  obtain ⟨s, called, returned, last, hrun, hcall, habort, ⟨hbefore, hreturned, hafter, htaken⟩,
      hlater, -⟩ :=
    exists_abort nested 0 (PassesOverEnded nested (.caller ())) 35
      (fun called returned => called.data.place 2 = .held .executing (.worker 0) ∧
        returned.stack (.caller ()) = [] ∧
        returned.data.place 2 = .held .executing (.worker 0) ∧
        returned.data.place 3 = .discounted)
      (fun last => last.data.place 2 = .reported)
      (List.replicate 30 (.run (.caller ()))) (List.replicate 5 (.run (.worker 0)))
      (by decide +kernel)
  have hlater' : RunWhere (step nested) (fun _ _ => True) returned last :=
    hlater.mono fun _ _ _ => trivial
  have hnot := runs_not_assigned (runs_trans (runs_call hrun hcall) habort) 3
    (by rw [htaken]; rfl)
  refine ⟨s, called, returned, last, hcall, hreturned, ?_, ?_⟩
  · exact (abort_reaches_tree (by decide) hrun hcall habort hreturned hlater' nested_under.1
      (by decide)).2 ⟨_, hbefore⟩ ⟨_, hafter⟩
  · exact (abort_reaches_tree (by decide) hrun hcall habort hreturned hlater' nested_under.2
      (by decide)).1 hnot

/-- **An abort can pass over a collection whose elements wait.**  The first plain job has failed,
and its status is that of the inner collection when the root is aborted; the second plain job
stays in the queue and is executed. -/
theorem abort_passes_over : ¬ ∀ s called returned last : State (Fin 4) Empty Unit Unit,
    Runs nested (fun _ _ => True) (.plain ()) s →
    step nested s (.requestAbort () 0) = some called →
    RunWhere (step nested) (fun _ _ => True) called returned →
    returned.stack (.caller ()) = [] →
    RunWhere (step nested) (fun _ _ => True) returned last →
    ∀ job, nested.Under 0 job → nested.kind job = .plain →
      (¬ returned.data.WasAssigned job → ¬ last.data.WasAssigned job) ∧
        ((∃ worker, called.data.place job = .held .executing worker) →
          (∃ worker, returned.data.place job = .held .executing worker) →
          returned.data.shouldAbort job = true) := by
  intro hclaim
  obtain ⟨s, called, returned, last, hrun, hcall, habort, ⟨hreturned, hwaits⟩, hlater, hlast⟩ :=
    exists_abort nested 0 (fun _ _ => True) 40
      (fun _ returned => returned.stack (.caller ()) = [] ∧ returned.data.place 3 = .queued)
      (fun last => .assigned (.worker 0) 3 ∈ last.data.log)
      (List.replicate 11 (.run (.caller ()))) (List.replicate 2 (.run (.worker 0)))
      (by decide +kernel)
  have hnot := runs_not_assigned (runs_trans (runs_call hrun hcall) habort) 3
    (by rw [hwaits]; rfl)
  exact (hclaim s called returned last hrun hcall habort hreturned hlater 3 nested_under.2
    (by decide)).1 hnot ⟨_, hlast⟩

/-- **An abort can pass over a plain job that is in `run`.**  The element has set its status when
the Collection is aborted, and goes on without having been asked to abort. -/
theorem abort_passes_over_executed : ∃ s called returned : State (Fin 2) Empty Unit Unit,
    Runs failingItself (fun _ _ => True) (.plain ()) s ∧
      step failingItself s (.requestAbort () 0) = some called ∧
      RunWhere (step failingItself) (fun _ _ => True) called returned ∧
      returned.stack (.caller ()) = [] ∧ called.data.place 1 = .held .executing (.worker 0) ∧
      returned.data.place 1 = .held .executing (.worker 0) ∧
      returned.data.shouldAbort 1 = false := by
  obtain ⟨s, called, returned, -, hrun, hcall, habort, ⟨hbefore, hreturned, hafter, hflag⟩, -⟩ :=
    exists_abort failingItself 0 (fun _ _ => True) 20
      (fun called returned => called.data.place 1 = .held .executing (.worker 0) ∧
        returned.stack (.caller ()) = [] ∧
        returned.data.place 1 = .held .executing (.worker 0) ∧
        returned.data.shouldAbort 1 = false)
      (fun _ => True) (List.replicate 11 (.run (.caller ()))) [] (by decide +kernel)
  exact ⟨s, called, returned, hrun, hcall, habort, hreturned, hbefore, hafter, hflag⟩

end ThreadWeaver.Collection
