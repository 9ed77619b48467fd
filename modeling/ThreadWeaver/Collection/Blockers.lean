import ThreadWeaver.Collection.Turns
import ThreadWeaver.Library.UpTo

/-!
# The blockers of a Sequence

A Sequence hands all of its elements to the queue at once, with its blocker on each of them, and
takes the blocker from one more element with every job that it completes.  As long as nobody stops
it the blocked elements are those from a position on, and the position is the number of jobs that
it has completed, its own included.

A blocker points into its Sequence, so none may be left when the Sequence is gone.  The loop of
`dequeueElements` removes them all, whether it is reached from `stop` or from the destructor; and
before a Sequence comes to its end it has completed or dequeued every element, which removes the
blocker as well.  So an element is blocked only while its Sequence knows the queue.
-/

namespace ThreadWeaver.Collection

open Library (Stacked RunWhere)

variable {J P T σ : Type*}

/-! ## The destructor -/

/-- What threads do when collections can be destroyed. -/
inductive LifeAct (J T : Type*)
  | step (act : Act J T)
  | destroy (caller : T) (collection : J)
  deriving DecidableEq, Repr

/-- The thread that acts. -/
def LifeAct.thread : LifeAct J T → Thread T
  | step act => act.thread
  | destroy caller _ => .caller caller

section LifeStep

variable [DecidableEq J] [DecidableEq P] [DecidableEq T] (F : Forest J P σ)

/-- One step of the threads, or the call of `~Collection`: it takes the mutex, runs
`dequeueElements` if `api` is set, and releases the mutex, which is what is left of `stop` when the
collection is not in the queue itself. -/
def lifeStep (s : State J P T σ) : LifeAct J T → Option (State J P T σ)
  | .step act => step F s act
  | .destroy caller collection =>
      if F.kind collection = .plain then none else s.beginCall caller [.stopElements collection]

/-- The runs in which collections can be destroyed, whose steps satisfy `ok`. -/
abbrev LifeRuns (ok : State J P T σ → LifeAct J T → Prop) (start : Weaver.Start J P σ)
    (s : State J P T σ) : Prop :=
  RunWhere (lifeStep F) ok (init start) s

end LifeStep

section Step

variable [DecidableEq J] [DecidableEq P] {F : Forest J P σ} {s next : State J P T σ}
  {thread other : Thread T} {op later : Op J} {rest : List (Op J)} {collection element job : J}

/-- The operations that a call begins with. -/
def LifeAct.ops : LifeAct J T → List (Op J)
  | step act => act.ops
  | destroy _ collection => [.stopElements collection]

/-- The step rule for runs in which collections can be destroyed. -/
theorem lifeStep_rule [DecidableEq T] {I : State J P T σ → Prop} {act : LifeAct J T} (hI : I s)
    (hrun : ∀ thread, act = .step (.run thread) → s.runThread F thread = some next → I next)
    (htakeUp : ∀ (caller : T) (jobs : List J), jobs.Nodup →
      (∀ job ∈ jobs, F.parent job = none ∧ s.data.place job = .fresh) →
      I (s.takeUp (.caller caller) jobs))
    (hcall : ∀ before caller, I before → before.beginCall caller act.ops = some next → I next)
    (hstep : lifeStep F s act = some next) : I next := by
  cases act with
  | step act =>
      exact step_rule hI (fun thread heq => hrun thread (heq ▸ rfl)) htakeUp hcall hstep
  | destroy caller collection =>
      simp only [lifeStep] at hstep
      split at hstep
      · cases hstep
      · exact hcall s caller hI hstep

/-! ## What is known of every run -/

/-- What the earlier invariants say of a Sequence. -/
structure State.Sequencing (F : Forest J P σ) (collection : J) (s : State J P T σ) : Prop where
  sound : s.Sound F
  enqueuing : s.Enqueuing F
  finishing : s.Finishing F
  nodup : ∀ job, (s.data.queuePolicies job).Nodup
  unblocks : ∀ thread, Stacked (Unblocks F) (s.stack thread)
  inTurn : s.InTurn F collection

omit [DecidableEq P] in
theorem sequencing_init (start : Weaver.Start J P σ) (collection : J) :
    (init start : State J P T σ).Sequencing F collection where
  sound := sound_init start
  enqueuing := enqueuing_init start
  finishing := finishing_init start
  nodup job := (start.nodup job).map (Option.some_injective P)
  unblocks := unblocks_init
  inTurn := inTurn_init collection

theorem State.Sequencing.step [DecidableEq T] (hq : s.Sequencing F collection)
    (hkind : F.kind collection = .sequence) {act : LifeAct J T}
    (h : lifeStep F s act = some next) : next.Sequencing F collection := by
  have hnodup : ∀ job, (next.data.queuePolicies job).Nodup := by
    refine lifeStep_rule (I := fun next => ∀ job, (next.data.queuePolicies job).Nodup) hq.nodup
      ?_ (fun _ _ _ _ => hq.nodup) ?_ h
    · intro thread _ hran job
      obtain ⟨op, rest, -, -, rfl⟩ := State.runThread_eq_some hran
      dsimp only
      rcases exec_queuePolicies F thread op s.data job with hsame | ⟨-, hnew⟩ | ⟨-, hnew⟩
      · rw [hsame]
        exact hq.nodup job
      · rw [hnew]
        exact Weaver.State.nodup_assignQueuePolicy none (hq.nodup job)
      · rw [hnew]
        exact Weaver.State.nodup_removeQueuePolicy none (hq.nodup job)
    · intro before caller hbefore hbegin
      obtain ⟨-, rfl⟩ := State.beginCall_eq_some hbegin
      exact hbefore
  cases act with
  | step act =>
      exact ⟨hq.sound.step h, hq.enqueuing.step hq.sound h, hq.finishing.step hq.sound h, hnodup,
        unblocks_step hq.unblocks hq.sound h,
        hq.inTurn.step hq.sound hq.enqueuing hq.unblocks hkind h⟩
  | destroy caller owner =>
      simp only [lifeStep] at h
      split at h
      · cases h
      · rename_i howner
        refine ⟨hq.sound.beginCall h ⟨howner, trivial⟩ rfl rfl (by simp),
          hq.enqueuing.beginCall h (by simp [Op.loop?]), hq.finishing.beginCall h, hnodup,
          unblocks_beginCall hq.unblocks h (by simp [Stacked, Unblocks]),
          hq.inTurn.beginCall h (by simp [Op.completes?])⟩

omit [DecidableEq J] [DecidableEq P] in
theorem Books.Move.opened [DecidableEq J] {D : Books.Discipline J T} {b b' : Books J T}
    (h : Books.Move F D b b') (hopened : b.opened collection = true) :
    b'.opened collection = true := by
  cases h with
  | openElements _ _ =>
      simp only [Books.openElements, Function.update_apply]
      split
      · rfl
      · exact hopened
  | _ => exact hopened

theorem State.Sound.exec_opened (hs : s.Sound F) (hstack : s.stack thread = op :: rest)
    (hfree : ∀ mutex, wants F op = some mutex → s.data.holder mutex = none)
    (hopened : s.data.opened collection = true) :
    (exec F thread op s.data).1.opened collection = true := by
  rcases hs.exec_move hstack hfree (Books.Discipline.any_covers _ op) with hsame | hmove
  · exact (congrFun (congrArg Books.opened hsame) collection).trans hopened
  · exact hmove.opened hopened

namespace State.Sequencing

/-- **Inversion.**  An element that is blocked after an operation was blocked before, or the
operation is that of the loop of `prepareToEnqueueElements`. -/
theorem exec_blocked (hq : s.Sequencing F collection)
    (hafter : none ∈ (exec F thread op s.data).1.queuePolicies element) :
    none ∈ s.data.queuePolicies element ∧ op ≠ .removeBlocker element ∨
      op = .assignBlocker element := by
  rcases exec_queuePolicies F thread op s.data element with
    hsame | ⟨rfl, -⟩ | ⟨rfl, hnew⟩
  · refine .inl ⟨hsame ▸ hafter, ?_⟩
    rintro rfl
    have hnew : (exec F thread (.removeBlocker element) s.data).1.queuePolicies element =
        Weaver.State.removeQueuePolicy (s.data.queuePolicies element) none :=
      Function.update_self _ _ _
    rw [hnew] at hafter
    exact Weaver.State.notMem_removeQueuePolicy (hq.nodup element) hafter
  · exact .inr rfl
  · rw [hnew] at hafter
    exact absurd hafter (Weaver.State.notMem_removeQueuePolicy (hq.nodup element))

omit [DecidableEq P] in
theorem holder_of_removeBlocker (hq : s.Sequencing F collection)
    (hparent : F.parent element = some collection)
    (hop : .removeBlocker element ∈ s.stack thread) :
    s.data.holder (.job collection) = some thread := by
  obtain ⟨ops, below, hsplit, hreleases⟩ := (hq.unblocks thread).of_mem hop
  refine hq.sound.holder_eq ?_
  rw [hsplit]
  exact Layout.releases_append ops (Layout.releases_cons (hreleases collection hparent))

omit [DecidableEq P] in
theorem completes_of_assignBlocker (hq : s.Sequencing F collection)
    (hparent : F.parent element = some collection)
    (hop : .assignBlocker element ∈ s.stack thread) :
    .processCompletedElement collection collection ∈ s.stack thread := by
  obtain ⟨ops, below, hsplit, jobs, hmem, helement⟩ := hq.sound.fits hop
  have henqueue : .enqueue jobs ∈ s.stack thread := by
    rw [hsplit]
    exact List.mem_append_right _ (List.mem_cons_of_mem _ hmem)
  obtain ⟨ops', below', hsplit', hopened⟩ := hq.sound.fits henqueue
  rw [hsplit']
  exact List.mem_append_right _ (List.mem_cons_of_mem _ (hopened element helement _ hparent))

omit [DecidableEq P] in
theorem of_assignBlocker (hq : s.Sequencing F collection)
    (hparent : F.parent element = some collection)
    (hop : .assignBlocker element ∈ s.stack thread) :
    s.data.holder (.job collection) = some thread ∧ s.data.completed collection = 0 := by
  have hcompletes := hq.completes_of_assignBlocker hparent hop
  refine ⟨hq.sound.holder_eq ⟨_, hcompletes, by simp [Op.locks]⟩, ?_⟩
  have hturn := hq.inTurn.completing thread _ collection hcompletes rfl
  rw [F.turn_self] at hturn
  exact hturn.symm

omit [DecidableEq P] in
theorem opened_of_assignBlocker (hq : s.Sequencing F collection)
    (hparent : F.parent element = some collection)
    (hop : .assignBlocker element ∈ s.stack thread) :
    s.data.opened collection = true ∧ s.data.api collection = true := by
  have hplace : (s.data.place element).isEnqueued = true := by
    rw [hq.sound.of_assignBlocker hop]
    rfl
  exact ⟨hq.sound.opened_of_enqueued hparent hplace,
    hq.enqueuing.api collection element hparent hplace⟩

end State.Sequencing

/-! ## Where blockers are removed -/

/-- A blocker is removed in a turn of the loop of `dequeueElements` or before a job is counted
down, and an element that is discounted loses its blocker in the same turn. -/
def Unblocking (F : Forest J P σ) : Op J → List (Op J) → Prop
  | .removeBlocker element, rest => ∀ collection, F.parent element = some collection →
      .checkLast collection ∈ rest ∨ ∃ job, .countDown collection job ∈ rest
  | .discount collection element, rest =>
      F.kind collection = .sequence → .removeBlocker element ∈ rest
  | _, _ => True

theorem exec_unblocking (thread : Thread T) (d : Data J P T σ)
    (hlayout : Layout F (op :: rest)) (hloops : Stacked Loops (op :: rest))
    (h : Stacked (Unblocking F) (op :: rest)) :
    Stacked (Unblocking F) ((exec F thread op d).2 ++ rest) := by
  have hother : (∀ collection job, op ≠ .advance collection job) →
      (∀ collection element locked, op ≠ .dequeueElement collection element locked) →
      Stacked (Unblocking F) ((exec F thread op d).2 ++ rest) := by
    intro hadvance hturn
    refine Stacked.append (fun later hlater above => ?_) h.2
    have hcalls := exec_calls F thread op d hlater
    cases later with
    | removeBlocker element =>
        generalize hremove : Op.removeBlocker element = later at hcalls
        cases hcalls with
        | unblock => exact absurd rfl (hadvance _ _)
        | elementDequeued => exact absurd rfl (hturn _ _ _)
        | _ => cases hremove
    | discount collection element =>
        generalize hdiscount : Op.discount collection element = later at hcalls
        cases hcalls with
        | discount => exact absurd rfl (hturn _ _ _)
        | _ => cases hdiscount
    | _ => trivial
  cases op with
  | advance collection job =>
      simp only [exec, List.append_assoc]
      refine Stacked.append ?_ ⟨trivial, h.2⟩
      intro later hlater above
      obtain ⟨element, hmem, rfl⟩ := List.mem_map.mp hlater
      have hparent := (F.mem_elements _ _).mp
        (List.mem_of_getElem? (Option.mem_toList.mp hmem))
      intro owner howner
      cases howner.symm.trans hparent
      exact .inr ⟨job, List.mem_append_right _ List.mem_cons_self⟩
  | dequeueElement collection element locked =>
      obtain ⟨hparent, -⟩ := hlayout.1
      have hblocker : Stacked (Unblocking F) (elementDequeued F collection element ++ rest) := by
        unfold elementDequeued
        split
        · refine ⟨fun owner howner => ?_, h.2⟩
          cases howner.symm.trans hparent
          exact .inl hloops.1
        · exact h.2
      have hdiscount : Unblocking F (.discount collection element)
          (elementDequeued F collection element ++ rest) := by
        intro hkind
        simp [elementDequeued, hkind]
      simp only [exec]
      split
      · split
        · exact ⟨trivial, trivial, hdiscount, hblocker⟩
        · exact ⟨trivial, trivial, trivial, hdiscount, hblocker⟩
      · exact hblocker
  | _ => exact hother (by simp) (by simp)

/-! ## When an element is blocked -/

/-- A blocked element has a Sequence that knows the queue.  Its blocker is going to be removed when
the turn has come to it, when it has been discounted, and in a loop over the elements. -/
structure State.Blocking [DecidableEq J] (F : Forest J P σ) (collection : J)
    (s : State J P T σ) : Prop where
  unblocking : ∀ thread, Stacked (Unblocking F) (s.stack thread)
  known : ∀ element, F.parent element = some collection →
    none ∈ s.data.queuePolicies element →
    s.data.opened collection = true ∧ s.data.api collection = true
  listed : ∀ thread element, .checkLast collection ∈ s.stack thread →
    F.parent element = some collection → none ∈ s.data.queuePolicies element →
    (∃ locked, .dequeueElement collection element locked ∈ s.stack thread) ∨
      .removeBlocker element ∈ s.stack thread
  reached : ∀ element, F.parent element = some collection →
    F.turn collection element ≤ s.data.completed collection →
    none ∈ s.data.queuePolicies element → ∃ thread, .removeBlocker element ∈ s.stack thread
  discounted : ∀ element, F.parent element = some collection →
    s.data.place element = .discounted → none ∈ s.data.queuePolicies element →
    ∃ thread, .removeBlocker element ∈ s.stack thread
  ended : ∀ status, .ended collection status ∈ s.data.log →
    (s.data.place collection).isOver = true

namespace State.Blocking

omit [DecidableEq P] in
/-- No blocker is being removed when a job is counted down. -/
theorem notMem_of_countDown (hb : s.Blocking F collection) (hq : s.Sequencing F collection)
    (hstack : s.stack thread = .countDown collection job :: rest)
    (hparent : F.parent element = some collection) (other : Thread T) :
    .removeBlocker element ∉ s.stack other := by
  intro hremove
  have hop : .countDown collection job ∈ s.stack thread := by
    rw [hstack]
    exact List.mem_cons_self
  have hlocks : (.job collection, ()) ∈ (Op.countDown collection job).locks := by
    simp [Op.locks]
  -- it would be removed by the thread that counts the job down, further down on the stack
  have hholder := hq.sound.holder_eq ⟨_, hop, hlocks⟩
  rw [hq.holder_of_removeBlocker hparent hremove] at hholder
  obtain rfl := Option.some.inj hholder
  have hunblocking := hb.unblocking other
  rw [hstack] at hremove hunblocking
  have hrest : .removeBlocker element ∈ rest := by simpa using hremove
  obtain ⟨ops, below, hsplit, hbelow⟩ := hunblocking.2.of_mem hrest
  have hmem : ∀ {later : Op J}, later ∈ below → later ∈ rest := fun hlater => by
    rw [hsplit]
    exact List.mem_append_right _ (List.mem_cons_of_mem _ hlater)
  have hunique : ∀ {later : Op J}, later ∈ rest → (.job collection, ()) ∉ later.locks :=
    fun hlater howes => (hq.sound.locks.notMem_of_append
      (show s.stack other = [] ++ .countDown collection job :: rest from hstack) hlocks howes).2 hlater
  rcases hbelow collection hparent with hlast | ⟨head, hcount⟩
  · have hloops := hq.enqueuing.loops other
    rw [hstack] at hloops
    rcases Loops.releases hloops.2 (hmem hlast) rfl with hunlock | hreset
    · exact hunique hunlock (by simp [Op.locks])
    · exact hunique hreset (by simp [Op.locks])
  · exact hunique (hmem hcount) (by simp [Op.locks])

omit [DecidableEq P] in
/-- No blocker is left at the end of a loop over the elements. -/
theorem unblocked_of_checkLast (hb : s.Blocking F collection) (hq : s.Sequencing F collection)
    (hstack : s.stack thread = .checkLast collection :: rest)
    (hparent : F.parent element = some collection) :
    none ∉ s.data.queuePolicies element := by
  intro hblocked
  have hop : .checkLast collection ∈ s.stack thread := by
    rw [hstack]
    exact List.mem_cons_self
  have hloops := hq.enqueuing.loops thread
  have hunblocking := hb.unblocking thread
  rw [hstack] at hloops hunblocking
  obtain ⟨hreleases, hnone⟩ := hloops.1
  rcases hb.listed thread element hop hparent hblocked with ⟨locked, hturn⟩ | hremove
  · rw [hstack] at hturn
    exact hnone _ ((List.mem_cons.mp hturn).resolve_left (by simp)) rfl
  · rw [hstack] at hremove
    obtain ⟨ops, below, hsplit, hbelow⟩ :=
      hunblocking.2.of_mem ((List.mem_cons.mp hremove).resolve_left (by simp))
    have hmem : ∀ {later : Op J}, later ∈ below → later ∈ rest := fun hlater => by
      rw [hsplit]
      exact List.mem_append_right _ (List.mem_cons_of_mem _ hlater)
    rcases hbelow collection hparent with hlast | ⟨head, hcount⟩
    · exact hnone _ (hmem hlast) rfl
    · -- the mutex is released once
      have hcount' : .countDown collection head ∈ s.stack thread := by
        rw [hstack]
        exact List.mem_cons_of_mem _ (hmem hcount)
      have hlocks : (.job collection, ()) ∈ (Op.countDown collection head).locks := by
        simp [Op.locks]
      have hunique : ∀ {later : Op J}, later ∈ rest → (.job collection, ()) ∈ later.locks →
          later = .countDown collection head := fun hlater howes =>
        hq.sound.locks.op_unique hcount' hlocks (hstack ▸ List.mem_cons_of_mem _ hlater) howes
      rcases hreleases with hunlock | hreset
      · cases hunique hunlock (by simp [Op.locks])
      · cases hunique hreset (by simp [Op.locks])

theorem mem_removeBlocker [DecidableEq T] (hq : s.Sequencing F collection)
    (hstack : s.stack thread = op :: rest)
    (hafter : none ∈ (exec F thread op s.data).1.queuePolicies element)
    (hremove : .removeBlocker element ∈ s.stack other) :
    .removeBlocker element ∈
      Function.update s.stack thread ((exec F thread op s.data).2 ++ rest) other := by
  refine mem_update_stack hstack ?_ hremove
  rintro rfl
  rcases hq.exec_blocked hafter with ⟨-, hne⟩ | heq
  · exact hne rfl
  · cases heq

/-- An operation that clears `api` finds no element blocked. -/
theorem exec_known (hb : s.Blocking F collection) (hq : s.Sequencing F collection)
    (hstack : s.stack thread = op :: rest)
    (hfree : ∀ mutex, wants F op = some mutex → s.data.holder mutex = none)
    (hparent : F.parent element = some collection)
    (hafter : none ∈ (exec F thread op s.data).1.queuePolicies element) :
    (exec F thread op s.data).1.opened collection = true ∧
      (exec F thread op s.data).1.api collection = true := by
  have hop : op ∈ s.stack thread := by
    rw [hstack]
    exact List.mem_cons_self
  have hbefore : s.data.opened collection = true ∧ s.data.api collection = true := by
    rcases hq.exec_blocked hafter with ⟨hblocked, -⟩ | rfl
    · exact hb.known element hparent hblocked
    · exact hq.opened_of_assignBlocker hparent hop
  refine ⟨hq.sound.exec_opened hstack hfree hbefore.1, ?_⟩
  rcases exec_setsApi F thread op s.data collection with ⟨hsame, -⟩ | hsets
  · exact hsame.trans hbefore.2
  · have hblocked : none ∈ s.data.queuePolicies element := by
      rcases hq.exec_blocked hafter with ⟨hblocked, -⟩ | rfl
      · exact hblocked
      · generalize (exec F thread (.assignBlocker element) s.data).1.api collection = value at hsets
        cases hsets
    generalize (exec F thread op s.data).1.api collection = value at hsets ⊢
    cases hsets with
    | enqueueJob _ => rfl
    | @countDown _ job hone =>
        -- the element has been counted, or is counted now
        have hcounted := hq.sound.counted_of_countDown hstack hfree hone hparent
        have hdone : s.data.place element = .discounted ∨
            F.turn collection element ≤ s.data.completed collection := by
          rcases hq.sound.exec_place hstack hfree element with hsame | hmoves
          · rw [hsame] at hcounted
            cases hplace : s.data.place element with
            | reported => exact .inr (hq.inTurn.counted element hparent hplace).le
            | discounted => exact .inl rfl
            | _ =>
                rw [hplace] at hcounted
                cases hcounted
          · generalize s.data.place element = before at hmoves
            generalize (exec F thread (.countDown collection job) s.data).1.place element = after
              at hcounted hmoves
            cases hmoves with
            | reported _ =>
                have hcounting := hq.inTurn.counting thread element hop
                omega
            | _ => cases hcounted
        obtain ⟨other, hremove⟩ := hdone.elim (hb.discounted element hparent · hblocked)
          (hb.reached element hparent · hblocked)
        exact absurd hremove (hb.notMem_of_countDown hq hstack hparent other)
    | checkLast hone => exact absurd hblocked (hb.unblocked_of_checkLast hq hstack hparent)
    | resetApi =>
        -- a collection that is taken out of the queue itself has not been executed
        have hfits := hq.sound.layout thread
        rw [hstack] at hfits
        have htakeAt : .takeAt collection ∈ s.stack thread :=
          hstack ▸ List.mem_cons_of_mem _ hfits.1
        have hnone := (hq.sound.books.fresh _ _ hparent).mp
          (hq.sound.fresh_of_takeAt htakeAt hparent)
        rw [show s.data.opened collection = false from hnone] at hbefore
        cases hbefore.1

variable [DecidableEq T]

theorem exec_listed (hb : s.Blocking F collection) (hq : s.Sequencing F collection)
    (hkind : F.kind collection = .sequence) (hstack : s.stack thread = op :: rest)
    (hlast : .checkLast collection ∈
      Function.update s.stack thread ((exec F thread op s.data).2 ++ rest) other)
    (hparent : F.parent element = some collection)
    (hafter : none ∈ (exec F thread op s.data).1.queuePolicies element) :
    (∃ locked, .dequeueElement collection element locked ∈
        Function.update s.stack thread ((exec F thread op s.data).2 ++ rest) other) ∨
      .removeBlocker element ∈
        Function.update s.stack thread ((exec F thread op s.data).2 ++ rest) other := by
  have hop : op ∈ s.stack thread := by
    rw [hstack]
    exact List.mem_cons_self
  rcases State.mem_exec hstack hlast with ⟨rfl, hcalls⟩ | ⟨hold, -⟩
  · generalize heq : Op.checkLast collection = later at hcalls
    cases hcalls with
    | @checkLast owner locked hapi =>
        obtain rfl := Op.checkLast.inj heq
        refine .inl ⟨locked, ?_⟩
        rw [Function.update_self]
        refine List.mem_append_left _ ?_
        simpa [exec, hapi] using (F.mem_elements _ _).mpr hparent
    | _ => cases heq
  · have hblocked : none ∈ s.data.queuePolicies element := by
      rcases hq.exec_blocked hafter with ⟨hblocked, -⟩ | rfl
      · exact hblocked
      · exact absurd (hq.sound.of_assignBlocker hop)
          (hq.sound.not_pending (hq.enqueuing.loops other) hold rfl hparent thread)
    rcases hb.listed other element hold hparent hblocked with ⟨locked, hturn⟩ | hremove
    · by_cases hother : other = thread
      · subst hother
        by_cases heq : op = .dequeueElement collection element locked
        · subst heq
          refine .inr ?_
          rw [Function.update_self]
          refine List.mem_append_left _ ?_
          simp only [exec, elementDequeued, if_pos hkind]
          split
          · split <;> simp
          · simp
        · exact .inl ⟨locked, mem_update_stack hstack heq hturn⟩
      · refine .inl ⟨locked, ?_⟩
        rwa [Function.update_of_ne hother]
    · exact .inr (mem_removeBlocker hq hstack hafter hremove)

theorem exec_reached (hb : s.Blocking F collection) (hq : s.Sequencing F collection)
    (hstack : s.stack thread = op :: rest)
    (hparent : F.parent element = some collection)
    (hturn : F.turn collection element ≤ (exec F thread op s.data).1.completed collection)
    (hafter : none ∈ (exec F thread op s.data).1.queuePolicies element) :
    ∃ other, .removeBlocker element ∈
      Function.update s.stack thread ((exec F thread op s.data).2 ++ rest) other := by
  have hop : op ∈ s.stack thread := by
    rw [hstack]
    exact List.mem_cons_self
  have hpos := F.turn_pos hparent
  have hbefore : F.turn collection element ≤ s.data.completed collection →
      ∃ other, .removeBlocker element ∈
        Function.update s.stack thread ((exec F thread op s.data).2 ++ rest) other := by
    intro hturn'
    rcases hq.exec_blocked hafter with ⟨hblocked, -⟩ | rfl
    · obtain ⟨other, hremove⟩ := hb.reached element hparent hturn' hblocked
      exact ⟨other, mem_removeBlocker hq hstack hafter hremove⟩
    · have hzero := (hq.of_assignBlocker hparent hop).2
      omega
  rcases hq.inTurn.exec_completed hq.sound hstack with ⟨-, hsame⟩ | ⟨job, rfl, hnext⟩
  · exact hbefore (hsame ▸ hturn)
  · rcases Nat.lt_or_ge (s.data.completed collection) (F.turn collection element) with hlt | hge
    · -- the turn comes to the element
      refine ⟨thread, ?_⟩
      have hindex : (F.elements collection)[s.data.completed collection]? = some element := by
        have hmem := (F.mem_elements _ _).mpr hparent
        have hposition : s.data.completed collection = (F.elements collection).idxOf element := by
          rw [F.turn_element hparent] at hturn hlt
          omega
        rw [hposition, List.getElem?_eq_getElem (List.idxOf_lt_length_of_mem hmem),
          List.getElem_idxOf]
      rw [Function.update_self]
      simp [exec, hindex]
    · exact hbefore hge

theorem exec_discounted (hb : s.Blocking F collection) (hq : s.Sequencing F collection)
    (hkind : F.kind collection = .sequence) (hstack : s.stack thread = op :: rest)
    (hfree : ∀ mutex, wants F op = some mutex → s.data.holder mutex = none)
    (hparent : F.parent element = some collection)
    (hplace : (exec F thread op s.data).1.place element = .discounted)
    (hafter : none ∈ (exec F thread op s.data).1.queuePolicies element) :
    ∃ other, .removeBlocker element ∈
      Function.update s.stack thread ((exec F thread op s.data).2 ++ rest) other := by
  have hop : op ∈ s.stack thread := by
    rw [hstack]
    exact List.mem_cons_self
  rcases hq.sound.exec_place hstack hfree element with hsame | hmoves
  · have hblocked : none ∈ s.data.queuePolicies element := by
      rcases hq.exec_blocked hafter with ⟨hblocked, -⟩ | rfl
      · exact hblocked
      · rw [hsame, hq.sound.of_assignBlocker hop] at hplace
        cases hplace
    obtain ⟨other, hremove⟩ :=
      hb.discounted element hparent (hsame.symm.trans hplace) hblocked
    exact ⟨other, mem_removeBlocker hq hstack hafter hremove⟩
  · rw [hplace] at hmoves
    generalize s.data.place element = before at hmoves
    cases hmoves with
    | discounted howner =>
        cases howner.symm.trans hparent
        have hunblocking := hb.unblocking thread
        rw [hstack] at hunblocking
        refine ⟨thread, ?_⟩
        rw [Function.update_self]
        exact List.mem_append_right _ (hunblocking.1 hkind)

theorem runThread (hb : s.Blocking F collection) (hq : s.Sequencing F collection)
    (hkind : F.kind collection = .sequence) (h : s.runThread F thread = some next) :
    next.Blocking F collection := by
  obtain ⟨op, rest, hstack, hfree, rfl⟩ := State.runThread_eq_some h
  refine ⟨fun other => ?_, fun element hparent => hb.exec_known hq hstack hfree hparent,
    fun other element hlast => hb.exec_listed hq hkind hstack hlast,
    fun element hparent => hb.exec_reached hq hstack hparent,
    fun element hparent => hb.exec_discounted hq hkind hstack hfree hparent,
    fun status hended => ?_⟩
  · dsimp only
    by_cases heq : other = thread
    · subst heq
      rw [Function.update_self]
      have hlayout := hq.sound.layout other
      have hloops := hq.enqueuing.loops other
      have hunblocking := hb.unblocking other
      rw [hstack] at hlayout hloops hunblocking
      exact exec_unblocking other s.data hlayout hloops hunblocking
    · rw [Function.update_of_ne heq]
      exact hb.unblocking other
  · have hkeeps : (s.data.place collection).isOver = true →
        ((exec F thread op s.data).1.place collection).isOver = true := by
      intro hover
      rcases hq.sound.exec_place hstack hfree collection with hsame | hmoves
      · exact hsame ▸ hover
      · exact hmoves.isOver hover
    rcases exec_mem_log F thread op s.data hended with hold | hrecords
    · exact hkeeps (hb.ended status hold)
    · generalize hevent : Event.ended collection status = event at hrecords
      cases hrecords with
      | ended =>
          obtain ⟨rfl, -⟩ := Event.ended.inj hevent
          refine hkeeps ?_
          rw [hq.sound.place_eq (hstack ▸ List.mem_cons_self) List.mem_cons_self]
          rfl
      | _ => cases hevent

omit [DecidableEq P] [DecidableEq T] in
theorem takeUp (hb : s.Blocking F collection) {jobs : List J}
    (hjobs : ∀ job ∈ jobs, F.parent job = none ∧ s.data.place job = .fresh) :
    (s.takeUp thread jobs).Blocking F collection := by
  refine ⟨hb.unblocking, hb.known, hb.listed, hb.reached, fun element hparent hplace => ?_,
    fun status hended => ?_⟩
  · rw [State.takeUp_place hjobs hparent] at hplace
    exact hb.discounted element hparent hplace
  · have hover := hb.ended status hended
    have hnot : collection ∉ jobs := by
      intro hmem
      rw [(hjobs collection hmem).2] at hover
      cases hover
    simpa only [State.takeUp, if_neg hnot] using hover

omit [DecidableEq P] in
/-- A call that begins is in no loop. -/
theorem beginCall (hb : s.Blocking F collection) {caller : T} {ops : List (Op J)}
    (h : s.beginCall caller ops = some next) (hops : Stacked (Unblocking F) ops)
    (hloop : ∀ op ∈ ops, op.loop? = none) : next.Blocking F collection := by
  have hkeeps := State.mem_of_beginCall h
  have hmem : ∀ {op : Op J} {thread}, op ∈ next.stack thread →
      op ∈ ops ∨ op ∈ s.stack thread := State.mem_or_of_beginCall h
  obtain ⟨-, rfl⟩ := State.beginCall_eq_some h
  refine ⟨fun thread => ?_, hb.known, fun thread element hlast hparent hblocked => ?_,
    fun element hparent hturn hblocked => ?_, fun element hparent hplace hblocked => ?_, hb.ended⟩
  · dsimp only
    by_cases heq : thread = .caller caller
    · rw [heq, Function.update_self]
      exact hops
    · rw [Function.update_of_ne heq]
      exact hb.unblocking thread
  · have hold : .checkLast collection ∈ s.stack thread := by
      refine (hmem hlast).resolve_left fun hnew => ?_
      cases hloop _ hnew
    exact (hb.listed thread element hold hparent hblocked).imp
      (Exists.imp fun locked => hkeeps thread _) (hkeeps thread _)
  · obtain ⟨thread, hremove⟩ := hb.reached element hparent hturn hblocked
    exact ⟨thread, hkeeps thread _ hremove⟩
  · obtain ⟨thread, hremove⟩ := hb.discounted element hparent hplace hblocked
    exact ⟨thread, hkeeps thread _ hremove⟩

theorem step (hb : s.Blocking F collection) (hq : s.Sequencing F collection)
    (hkind : F.kind collection = .sequence) {act : LifeAct J T}
    (h : lifeStep F s act = some next) : next.Blocking F collection := by
  refine lifeStep_rule hb (fun _ _ => hb.runThread hq hkind) (fun _ _ _ => hb.takeUp) ?_ h
  intro before caller hbefore hbegin
  refine hbefore.beginCall hbegin ?_ ?_
  · cases act with
    | step act => cases act <;> simp [LifeAct.ops, Act.ops, Stacked, Unblocking]
    | destroy _ _ => simp [LifeAct.ops, Stacked, Unblocking]
  · cases act with
    | step act => cases act <;> simp [LifeAct.ops, Act.ops, Op.loop?]
    | destroy _ _ => simp [LifeAct.ops, Op.loop?]

end State.Blocking

/-! ## Before anybody stops the Sequence -/

/-- The collection whose elements are going to be taken out of the queue. -/
def Op.stops? : Op J → Option J
  | dequeueSelf collection | stopElements collection | dequeueElements collection false
  | dequeueElement collection _ false => some collection
  | _ => none

/-- Nobody stops the collection, and nobody destroys it. -/
def NotStopped (collection : J) (s : State J P T σ) : LifeAct J T → Prop
  | .step act => s.nextOp act ≠ some (.stop collection)
  | .destroy _ other => other ≠ collection

instance (collection : J) (s : State J P T σ) (act : LifeAct J T) :
    Decidable (NotStopped collection s act) := by
  cases act with
  | step act => exact inferInstanceAs (Decidable (_ ≠ _))
  | destroy _ other => exact inferInstanceAs (Decidable (other ≠ collection))

/-- The elements that the turn has not come to are blocked. -/
structure State.Unstopped (F : Forest J P σ) (collection : J) (s : State J P T σ) : Prop where
  quiet : ∀ thread op, op ∈ s.stack thread → op.stops? ≠ some collection
  removing : s.data.opened collection = true → ∀ thread element,
    F.parent element = some collection → .removeBlocker element ∈ s.stack thread →
    F.turn collection element ≤ s.data.completed collection
  blocked : s.data.opened collection = true → ∀ element, F.parent element = some collection →
    s.data.completed collection < F.turn collection element →
    (∃ thread, .assignBlocker element ∈ s.stack thread) ∨ none ∈ s.data.queuePolicies element

/-- **Inversion.**  A collection opens when its own job is completed. -/
theorem State.Sound.of_exec_opened (hs : s.Sound F) (hstack : s.stack thread = op :: rest)
    (hfree : ∀ mutex, wants F op = some mutex → s.data.holder mutex = none)
    (hparent : F.parent element = some collection)
    (hafter : (exec F thread op s.data).1.opened collection = true) :
    s.data.opened collection = true ∨ op = .elementFinished collection collection ∧
      s.data.place collection = .held .executing thread ∧
      s.data.shouldAbort collection = false := by
  have hlawful : (exec F thread op s.data).1.books.Lawful F := by
    rcases hs.exec_move hstack hfree (Books.Discipline.any_covers _ _) with hsame | hmove
    · exact hsame ▸ hs.books
    · exact hs.books.move hmove
  have hfresh := (hs.books.fresh _ _ hparent).mp
  have hfresh' : (exec F thread op s.data).1.place element ≠ .fresh := fun h => by
    have hnone := (hlawful.fresh _ _ hparent).mp h
    rw [show (exec F thread op s.data).1.opened collection = false from hnone] at hafter
    cases hafter
  rcases hs.exec_place hstack hfree element with hsame | hmoves
  · rw [hsame] at hfresh'
    exact .inl (hs.books.opened_of_ne_fresh hparent hfresh')
  · by_cases hbefore : s.data.place element = .fresh
    · rw [hbefore] at hmoves
      generalize (exec F thread op s.data).1.place element = after at hmoves
      cases hmoves with
      | pending howner hplace habort =>
          cases howner.symm.trans hparent
          exact .inr ⟨rfl, hplace, habort⟩
    · exact .inl (hs.books.opened_of_ne_fresh hparent hbefore)

namespace State.Unstopped

/-- Nothing begins to take out elements but a stop. -/
theorem exec_quiet [DecidableEq T] (hw : s.Unstopped F collection)
    (hstack : s.stack thread = op :: rest) (hstop : op ≠ .stop collection)
    (hmem : later ∈ Function.update s.stack thread ((exec F thread op s.data).2 ++ rest) other) :
    later.stops? ≠ some collection := by
  have hop : op ∈ s.stack thread := by
    rw [hstack]
    exact List.mem_cons_self
  rcases State.mem_exec hstack hmem with ⟨-, hcalls⟩ | ⟨hold, -⟩
  · intro hstops
    cases hcalls with
    | dequeueSelf _ =>
        cases hstops
        exact hstop rfl
    | stopElements _ | dequeueElements =>
        cases hstops
        exact hw.quiet thread _ hop rfl
    | @dequeueElement owner element locked _ _ =>
        cases locked with
        | true => cases hstops
        | false =>
            cases hstops
            exact hw.quiet thread _ hop rfl
    | _ => cases hstops
  · exact hw.quiet other later hold

theorem exec_removing [DecidableEq T] (hw : s.Unstopped F collection)
    (hq : s.Sequencing F collection) (hstack : s.stack thread = op :: rest)
    (hfree : ∀ mutex, wants F op = some mutex → s.data.holder mutex = none)
    (hopened : (exec F thread op s.data).1.opened collection = true)
    (hparent : F.parent element = some collection)
    (hmem : .removeBlocker element ∈
      Function.update s.stack thread ((exec F thread op s.data).2 ++ rest) other) :
    F.turn collection element ≤ (exec F thread op s.data).1.completed collection := by
  have hop : op ∈ s.stack thread := by
    rw [hstack]
    exact List.mem_cons_self
  have hbefore := hq.sound.of_exec_opened hstack hfree hparent hopened
  rcases State.mem_exec hstack hmem with ⟨-, hcalls⟩ | ⟨hold, -⟩
  · generalize hremove : Op.removeBlocker element = later at hcalls
    cases hcalls with
    | @unblock owner job head hget =>
        obtain rfl := Op.removeBlocker.inj hremove
        have howner := (F.mem_elements owner element).mp (List.mem_of_getElem? hget)
        cases howner.symm.trans hparent
        rcases hq.inTurn.exec_completed hq.sound hstack with ⟨hnot, -⟩ | ⟨-, -, hnext⟩
        · exact absurd rfl (hnot job)
        · rw [hnext, F.turn_of_getElem? hget]
    | @elementDequeued owner head locked _ =>
        obtain rfl := Op.removeBlocker.inj hremove
        obtain ⟨ops, below, hsplit, howner, -, hhook⟩ := hq.sound.fits hop
        cases howner.symm.trans hparent
        cases locked with
        | false => exact absurd rfl (hw.quiet thread _ hop)
        | true =>
            -- the Sequence itself is taken out of the queue
            have htakeAt : .takeAt collection ∈ s.stack thread := by
              rw [hsplit]
              exact List.mem_append_right _ (List.mem_cons_of_mem _ (hhook rfl).2)
            have hnone := (hq.sound.books.fresh _ _ hparent).mp
              (hq.sound.fresh_of_takeAt htakeAt hparent)
            rcases hbefore with hyes | ⟨heq, -⟩
            · rw [show s.data.opened collection = false from hnone] at hyes
              cases hyes
            · cases heq
    | _ => cases hremove
  · rcases hbefore with hyes | ⟨rfl, -⟩
    · have hturn := hw.removing hyes other element hparent hold
      rcases hq.inTurn.exec_completed hq.sound hstack with ⟨-, hsame⟩ | ⟨-, -, hnext⟩ <;> omega
    · have hholder := hq.holder_of_removeBlocker hparent hold
      rw [hfree _ rfl] at hholder
      cases hholder

theorem exec_blocked [DecidableEq T] (hw : s.Unstopped F collection)
    (hq : s.Sequencing F collection) (hkind : F.kind collection = .sequence)
    (hstack : s.stack thread = op :: rest)
    (hfree : ∀ mutex, wants F op = some mutex → s.data.holder mutex = none)
    (hopened : (exec F thread op s.data).1.opened collection = true)
    (hparent : F.parent element = some collection)
    (hturn : (exec F thread op s.data).1.completed collection < F.turn collection element) :
    (∃ other, .assignBlocker element ∈
        Function.update s.stack thread ((exec F thread op s.data).2 ++ rest) other) ∨
      none ∈ (exec F thread op s.data).1.queuePolicies element := by
  have hop : op ∈ s.stack thread := by
    rw [hstack]
    exact List.mem_cons_self
  rcases hq.sound.of_exec_opened hstack hfree hparent hopened with hyes | ⟨rfl, -, habort⟩
  · have hturn' : s.data.completed collection < F.turn collection element := by
      rcases hq.inTurn.exec_completed hq.sound hstack with ⟨-, hsame⟩ | ⟨-, -, hnext⟩ <;> omega
    have hne : op ≠ .removeBlocker element := by
      rintro rfl
      have := hw.removing hyes thread element hparent hop
      omega
    rcases hw.blocked hyes element hparent hturn' with ⟨other, hassign⟩ | hblocked
    · by_cases heq : op = .assignBlocker element
      · exact .inr (exec_mem_blocker thread s.data (.inr heq) hne)
      · exact .inl ⟨other, mem_update_stack hstack heq hassign⟩
    · exact .inr (exec_mem_blocker thread s.data (.inl hblocked) hne)
  · refine .inl ⟨thread, ?_⟩
    rw [Function.update_self]
    exact List.mem_append_left _ (hq.sound.assigns_of_opening hkind hop habort hparent)

theorem step [DecidableEq T] (hw : s.Unstopped F collection) (hq : s.Sequencing F collection)
    (hkind : F.kind collection = .sequence) {act : LifeAct J T}
    (hok : NotStopped collection s act) (h : lifeStep F s act = some next) :
    next.Unstopped F collection := by
  refine lifeStep_rule hw ?_ (fun _ _ _ _ => ⟨hw.quiet, hw.removing, hw.blocked⟩) ?_ h
  · rintro thread rfl hran
    obtain ⟨op, rest, hstack, hfree, rfl⟩ := State.runThread_eq_some hran
    have hstop : op ≠ .stop collection := by
      rintro rfl
      exact hok (by simp [State.nextOp, hstack])
    exact ⟨fun other later => hw.exec_quiet hstack hstop,
      fun hopened other element => hw.exec_removing hq hstack hfree hopened,
      fun hopened element => hw.exec_blocked hq hkind hstack hfree hopened⟩
  · intro before caller hbefore hbegin
    have hquiet : ∀ op ∈ act.ops, op.stops? ≠ some collection ∧
        ∀ element, op ≠ .removeBlocker element := by
      cases act with
      | step act => cases act <;> simp [LifeAct.ops, Act.ops, Op.stops?]
      | destroy _ other => simpa [LifeAct.ops, Op.stops?, NotStopped] using hok
    have hkeeps := State.mem_of_beginCall hbegin
    have hmem : ∀ {op : Op J} {thread}, op ∈ next.stack thread →
        op ∈ act.ops ∨ op ∈ before.stack thread := State.mem_or_of_beginCall hbegin
    obtain ⟨-, rfl⟩ := State.beginCall_eq_some hbegin
    refine ⟨fun thread op hop => ?_, fun hopened thread element hparent hop => ?_,
      fun hopened element hparent hturn => ?_⟩
    · rcases hmem hop with hnew | hold
      · exact (hquiet op hnew).1
      · exact hbefore.quiet thread op hold
    · rcases hmem hop with hnew | hold
      · exact absurd rfl ((hquiet _ hnew).2 element)
      · exact hbefore.removing hopened thread element hparent hold
    · exact (hbefore.blocked hopened element hparent hturn).imp_left
        (Exists.imp fun thread => hkeeps thread _)

end State.Unstopped

/-! ## How many jobs have been completed -/

/-- A collection has counted the element. -/
def Place.isReported : Place T → Bool
  | reported => true
  | _ => false

/-- The Sequence has completed the job, which is its own or one of its elements. -/
def Data.hasCompleted (collection : J) (d : Data J P T σ) (job : J) : Bool :=
  if job = collection then (d.place job).isLate && !(d.place job).isClosing
  else (d.place job).isReported

/-- The number of jobs that the Sequence has completed, its own included. -/
def Data.completions (F : Forest J P σ) (collection : J) (d : Data J P T σ) : ℕ :=
  (collection :: F.elements collection).countP (d.hasCompleted collection)

/-- `completed` counts the jobs of the Sequence in their order. -/
structure State.Counting (F : Forest J P σ) (collection : J) (s : State J P T σ) : Prop where
  passed : ∀ job, F.Concerns collection job →
    F.turn collection job < s.data.completed collection →
    s.data.hasCompleted collection job = true ∨ ∃ thread, .countDown collection job ∈ s.stack thread
  counted : ∀ job, F.Concerns collection job → s.data.hasCompleted collection job = true →
    F.turn collection job < s.data.completed collection
  bounded : s.data.completed collection ≤ (F.elements collection).length + 1

omit [DecidableEq P] in
theorem Forest.turn_le_length (h : F.Concerns collection job) :
    F.turn collection job ≤ (F.elements collection).length := by
  rcases h with ⟨rfl, -⟩ | hparent
  · rw [F.turn_self]
    exact Nat.zero_le _
  · rw [F.turn_element hparent]
    exact List.idxOf_lt_length_of_mem ((F.mem_elements _ _).mpr hparent)

namespace State.Sound

/-- A job that has been completed stays so. -/
theorem exec_hasCompleted (hs : s.Sound F) (hstack : s.stack thread = op :: rest)
    (hfree : ∀ mutex, wants F op = some mutex → s.data.holder mutex = none)
    (h : s.data.hasCompleted collection job = true) :
    (exec F thread op s.data).1.hasCompleted collection job = true := by
  unfold Data.hasCompleted at h ⊢
  rcases hs.exec_place hstack hfree job with hsame | hmoves
  · rwa [hsame]
  · generalize s.data.place job = before at h hmoves
    generalize (exec F thread op s.data).1.place job = after at hmoves ⊢
    by_cases heq : job = collection
    · rw [if_pos heq] at h ⊢
      cases hmoves with
      | ended | reporting | reported | endingElement => rfl
      | _ => cases h
    · rw [if_neg heq] at h
      cases hmoves <;> cases h

/-- A job has been completed when it has been counted down. -/
theorem exec_countDown_hasCompleted (d : Data J P T σ) :
    (exec F thread (.countDown collection job) d).1.hasCompleted collection job = true := by
  unfold Data.hasCompleted
  by_cases hlast : d.jobCounter collection - 1 = 0
  · have hplace : (exec F thread (.countDown collection job) d).1.place =
        Function.update (Function.update d.place job
          (if job = collection then .waiting else .reported)) collection
            (.held .ending thread) := by
      simp [exec, Data.count, Data.decJobCounter, Data.moveTo, hlast, Data.unlock,
        Data.finalCleanup, Data.freeQueuePolicyResources, Data.recordCalls, Data.record,
        Data.setStatus]
    rw [hplace]
    split
    · rename_i heq
      rw [heq, Function.update_self]
      rfl
    · rename_i hne
      rw [Function.update_of_ne hne, Function.update_self]
      rfl
  · have hplace : (exec F thread (.countDown collection job) d).1.place =
        Function.update d.place job (if job = collection then .waiting else .reported) := by
      simp [exec, Data.count, Data.decJobCounter, Data.moveTo, hlast, Data.unlock]
    rw [hplace, Function.update_self]
    split <;> rfl

/-- **Inversion.**  A job is completed when it is counted down. -/
theorem of_exec_hasCompleted (hs : s.Sound F) (hstack : s.stack thread = op :: rest)
    (hfree : ∀ mutex, wants F op = some mutex → s.data.holder mutex = none)
    (hjob : F.Concerns collection job)
    (h : (exec F thread op s.data).1.hasCompleted collection job = true) :
    s.data.hasCompleted collection job = true ∨ op = .countDown collection job := by
  unfold Data.hasCompleted at h ⊢
  rcases hs.exec_place hstack hfree job with hsame | hmoves
  · rw [hsame] at h
    exact .inl h
  · generalize s.data.place job = before at hmoves ⊢
    generalize (exec F thread op s.data).1.place job = after at h hmoves
    split at h
    · rename_i heq
      subst heq
      rw [if_pos rfl]
      cases hmoves with
      | ended | reporting | endingElement => exact .inl rfl
      | waiting | endingSelf => exact .inr rfl
      | reported => exact .inl rfl
      | ending hplain =>
          rcases hjob with ⟨-, hkind⟩ | hparent
          · exact absurd hplain hkind
          · exact absurd rfl (F.ne_of_parent hparent)
      | _ => cases h
    · rename_i hne
      have hparent := hjob.resolve_left fun h => hne h.1
      cases hmoves with
      | ended hnone =>
          rw [hparent] at hnone
          cases hnone
      | reported howner =>
          cases howner.symm.trans hparent
          exact .inr rfl
      | _ => cases h

end State.Sound

theorem State.Counting.step [DecidableEq T] (hc : s.Counting F collection)
    (hq : s.Sequencing F collection) {act : LifeAct J T} (h : lifeStep F s act = some next) :
    next.Counting F collection := by
  refine lifeStep_rule hc ?_ ?_ ?_ h
  · rintro thread rfl hran
    obtain ⟨op, rest, hstack, hfree, rfl⟩ := State.runThread_eq_some hran
    have hop : op ∈ s.stack thread := by
      rw [hstack]
      exact List.mem_cons_self
    have hcompleted := hq.inTurn.exec_completed hq.sound hstack
    refine ⟨fun job hjob hturn => ?_, fun job hjob hdone => ?_, ?_⟩
    · dsimp only at hturn ⊢
      have hbefore : F.turn collection job < s.data.completed collection →
          (exec F thread op s.data).1.hasCompleted collection job = true ∨
            ∃ other, .countDown collection job ∈
              Function.update s.stack thread ((exec F thread op s.data).2 ++ rest) other := by
        intro hturn'
        rcases hc.passed job hjob hturn' with hdone | ⟨other, hcount⟩
        · exact .inl (hq.sound.exec_hasCompleted hstack hfree hdone)
        · by_cases heq : op = .countDown collection job
          · subst heq
            exact .inl (State.Sound.exec_countDown_hasCompleted s.data)
          · exact .inr ⟨other, mem_update_stack hstack heq hcount⟩
      rcases hcompleted with ⟨-, hsame⟩ | ⟨head, rfl, hnext⟩
      · exact hbefore (hsame ▸ hturn)
      · obtain ⟨hhead, hnow, -⟩ := hq.inTurn.advancing hq.sound hstack
        rcases Nat.lt_or_ge (F.turn collection job) (s.data.completed collection) with hlt | hge
        · exact hbefore hlt
        · obtain rfl := F.turn_inj hjob hhead (by omega)
          refine .inr ⟨thread, ?_⟩
          rw [Function.update_self]
          exact List.mem_append_left _ (by simp [exec])
    · dsimp only at hdone ⊢
      rcases hq.sound.of_exec_hasCompleted hstack hfree hjob hdone with hbefore | rfl
      · have := hc.counted job hjob hbefore
        rcases hcompleted with ⟨-, hsame⟩ | ⟨-, -, hnext⟩ <;> omega
      · have := hq.inTurn.counting thread job hop
        rcases hcompleted with ⟨-, hsame⟩ | ⟨head, heq, -⟩
        · omega
        · cases heq
    · dsimp only
      have := hc.bounded
      rcases hcompleted with ⟨-, hsame⟩ | ⟨head, rfl, hnext⟩
      · omega
      · obtain ⟨hhead, hnow, -⟩ := hq.inTurn.advancing hq.sound hstack
        have := F.turn_le_length hhead
        omega
  · intro caller jobs _ hjobs
    -- what is taken up has not been completed
    have hsame : ∀ job, F.Concerns collection job →
        (s.takeUp (.caller caller) jobs).data.hasCompleted collection job =
          s.data.hasCompleted collection job := by
      intro job hjob
      by_cases hmem : job ∈ jobs
      · obtain ⟨hnone, hfresh⟩ := hjobs job hmem
        have hplace : (s.takeUp (.caller caller) jobs).data.place job =
            .held .pending (.caller caller) := if_pos hmem
        simp [Data.hasCompleted, hplace, hfresh, Place.isLate, Place.isReported]
      · have hplace : (s.takeUp (.caller caller) jobs).data.place job = s.data.place job :=
          if_neg hmem
        simp only [Data.hasCompleted, hplace]
    refine ⟨fun job hjob hturn => ?_, fun job hjob hdone => ?_, hc.bounded⟩
    · rw [hsame job hjob]
      exact hc.passed job hjob hturn
    · rw [hsame job hjob] at hdone
      exact hc.counted job hjob hdone
  · intro before caller hbefore hbegin
    have hkeeps := State.mem_of_beginCall hbegin
    obtain ⟨-, rfl⟩ := State.beginCall_eq_some hbegin
    refine ⟨fun job hjob hturn => ?_, hbefore.counted, hbefore.bounded⟩
    exact (hbefore.passed job hjob hturn).imp_right
      (Exists.imp fun thread => hkeeps thread _)

/-! ## Stop and destruction -/

/-- No element of the collection is blocked. -/
def Data.Unblocked (F : Forest J P σ) (d : Data J P T σ) (collection : J) : Prop :=
  ∀ element, F.parent element = some collection → none ∉ d.queuePolicies element

/-- The element is blocked or about to be. -/
def State.Blocks (element : J) (s : State J P T σ) : Prop :=
  none ∈ s.data.queuePolicies element ∨ ∃ thread, .assignBlocker element ∈ s.stack thread

/-- The operation removes the blocker of the element. -/
def Op.Clears (collection element : J) (op : Op J) : Prop :=
  op.Sweeps collection element ∨ op = .removeBlocker element

/-- The thread will have removed the blocker of the element when it has only `rest` left to do. -/
def State.Clearing (thread : Thread T) (rest : List (Op J)) (collection element : J)
    (s : State J P T σ) : Prop :=
  s.data.opened collection = true ∧ ∃ ops, s.stack thread = ops ++ rest ∧
    (s.Blocks element → ∃ op ∈ ops, op.Clears collection element)

/-- The thread has not returned yet to what it had to do before. -/
def InCall (thread : Thread T) (rest : List (Op J)) (s : State J P T σ) (act : LifeAct J T) :
    Prop :=
  act = .step (.run thread) → s.stack thread ≠ rest

instance [DecidableEq T] (thread : Thread T) (rest : List (Op J)) (s : State J P T σ)
    (act : LifeAct J T) : Decidable (InCall thread rest s act) :=
  inferInstanceAs (Decidable (_ → _))

/-- A Sequence blocks its elements once. -/
theorem State.Sequencing.of_exec_blocks [DecidableEq T] (hq : s.Sequencing F collection)
    (hstack : s.stack thread = op :: rest) (hparent : F.parent element = some collection)
    (hopened : s.data.opened collection = true)
    (h : State.Blocks element ⟨(exec F thread op s.data).1,
      Function.update s.stack thread ((exec F thread op s.data).2 ++ rest)⟩) :
    s.Blocks element := by
  have hop : op ∈ s.stack thread := by
    rw [hstack]
    exact List.mem_cons_self
  rcases h with hblocked | ⟨other, hassign⟩
  · rcases hq.exec_blocked hblocked with ⟨hbefore, -⟩ | rfl
    · exact .inl hbefore
    · exact .inr ⟨thread, hop⟩
  · rcases State.mem_exec hstack hassign with ⟨-, hcalls⟩ | ⟨hold, -⟩
    · exfalso
      generalize heq : Op.assignBlocker element = later at hcalls
      cases hcalls with
      | @assignBlocker owner job _ hself _ howner =>
          obtain rfl := Op.assignBlocker.inj heq
          cases howner.symm.trans hparent
          rcases hq.sound.of_elementFinished hop with ⟨rfl, -, hplace, -⟩ | ⟨-, -, -, hnot⟩
          · have hnone : s.data.opened job = false :=
              hq.sound.books.not_opened (by simp [Data.books, hplace, Place.isLate])
            rw [hnone] at hopened
            cases hopened
          · rw [hnot] at hself
            cases hself
      | _ => cases heq
    · exact .inr ⟨other, hold⟩

namespace State.Blocking

/-- **What a stop has still to do is done by its operations.** -/
theorem exec_clears [DecidableEq T] (hb : s.Blocking F collection)
    (hq : s.Sequencing F collection) (hkind : F.kind collection = .sequence)
    (hstack : s.stack thread = op :: rest)
    (hfree : ∀ mutex, wants F op = some mutex → s.data.holder mutex = none)
    (hparent : F.parent element = some collection) (hopened : s.data.opened collection = true)
    (h : op.Clears collection element)
    (hafter : State.Blocks element ⟨(exec F thread op s.data).1,
      Function.update s.stack thread ((exec F thread op s.data).2 ++ rest)⟩) :
    ∃ later ∈ (exec F thread op s.data).2, later.Clears collection element := by
  have hop : op ∈ s.stack thread := by
    rw [hstack]
    exact List.mem_cons_self
  have hapi : s.data.api collection = true := by
    rcases hq.of_exec_blocks hstack hparent hopened hafter with hblocked | ⟨other, hassign⟩
    · exact (hb.known element hparent hblocked).2
    · exact (hq.opened_of_assignBlocker hparent hassign).2
  rcases h with hsweeps | rfl
  · cases op with
    | stop owner =>
        obtain rfl : owner = collection := hsweeps
        exact ⟨.dequeueSelf owner, by simp [exec, hapi], .inl rfl⟩
    | dequeueSelf owner =>
        obtain rfl : owner = collection := hsweeps
        by_cases hmem : owner ∈ s.data.assignments
        · have hlate : (s.data.place owner).isLate = false := by
            rw [hq.sound.queued_of_free (hfree _ rfl) hmem]
            rfl
          rw [show s.data.opened owner = false from hq.sound.books.not_opened hlate] at hopened
          cases hopened
        · exact ⟨.stopElements owner, by simp [exec, hmem], .inl rfl⟩
    | stopElements owner =>
        obtain rfl : owner = collection := hsweeps
        exact ⟨.dequeueElements owner false, by simp [exec], .inl rfl⟩
    | dequeueElements owner locked =>
        cases locked with
        | true => exact hsweeps.elim
        | false =>
            obtain rfl : owner = collection := hsweeps
            refine ⟨.dequeueElement owner element false, ?_, .inl ⟨rfl, rfl⟩⟩
            simpa [exec, hapi] using (F.mem_elements _ _).mpr hparent
    | dequeueElement owner head locked =>
        cases locked with
        | true => exact hsweeps.elim
        | false =>
            obtain ⟨rfl, rfl⟩ := hsweeps
            refine ⟨.removeBlocker head, ?_, .inr rfl⟩
            simp only [exec, elementDequeued, if_pos hkind]
            split <;> simp
    | _ => exact hsweeps.elim
  · exfalso
    rcases hafter with hblocked | ⟨other, hassign⟩
    · rcases hq.exec_blocked hblocked with ⟨-, hne⟩ | heq
      · exact hne rfl
      · cases heq
    · rcases State.mem_exec hstack hassign with ⟨-, hcalls⟩ | ⟨hold, -⟩
      · cases hcalls
      · -- no blocker is removed while the elements are being blocked
        have hplace : (s.data.place element).isEnqueued = true := by
          rw [hq.sound.of_assignBlocker hold]
          rfl
        have hturn := F.turn_pos hparent
        have hzero := (hq.of_assignBlocker hparent hold).2
        exact (hq.inTurn.blocked element hparent hplace (by omega)).2 thread hop

end State.Blocking

omit [DecidableEq J] [DecidableEq P] in
theorem State.Blocks.of_beginCall [DecidableEq T] {caller : T} {act : LifeAct J T} (h : next.Blocks element)
    (hbegin : s.beginCall caller act.ops = some next) : s.Blocks element := by
  have hassign : .assignBlocker element ∉ act.ops := by
    cases act with
    | step act => cases act <;> simp [LifeAct.ops, Act.ops]
    | destroy _ _ => simp [LifeAct.ops]
  rcases h with hblocked | ⟨thread, hmem⟩
  · obtain ⟨-, rfl⟩ := State.beginCall_eq_some hbegin
    exact .inl hblocked
  · exact .inr ⟨thread, (State.mem_or_of_beginCall hbegin hmem).resolve_left hassign⟩

theorem State.Clearing.step [DecidableEq T] {below : List (Op J)}
    (h : s.Clearing thread below collection element) (hb : s.Blocking F collection)
    (hq : s.Sequencing F collection) (hkind : F.kind collection = .sequence)
    (hparent : F.parent element = some collection) {act : LifeAct J T}
    (hok : InCall thread below s act) (hstep : lifeStep F s act = some next) :
    next.Clearing thread below collection element := by
  obtain ⟨hopened, ops, hops, hclears⟩ := h
  refine lifeStep_rule (I := fun s => s.Clearing thread below collection element)
    ⟨hopened, ops, hops, hclears⟩ ?_ (fun _ _ _ _ => ⟨hopened, ops, hops, hclears⟩) ?_ hstep
  · rintro other rfl hran
    obtain ⟨op, rest, hstack, hfree, rfl⟩ := State.runThread_eq_some hran
    refine ⟨hq.sound.exec_opened hstack hfree hopened, ?_⟩
    have hbefore := hq.of_exec_blocks hstack hparent hopened
    dsimp only
    by_cases heq : other = thread
    · subst heq
      rw [Function.update_self]
      cases ops with
      | nil => exact absurd hops (hok rfl)
      | cons top ops =>
          rw [hstack] at hops
          obtain ⟨rfl, rfl⟩ := List.cons.inj hops
          refine ⟨(exec F other op s.data).2 ++ ops, (List.append_assoc _ _ _).symm, fun hafter => ?_⟩
          obtain ⟨clearer, hmem, hclearer⟩ := hclears (hbefore hafter)
          rcases List.mem_cons.mp hmem with rfl | hlater
          · obtain ⟨later, hnew, hlater⟩ :=
              hb.exec_clears hq hkind hstack hfree hparent hopened hclearer hafter
            exact ⟨later, List.mem_append_left _ hnew, hlater⟩
          · exact ⟨clearer, List.mem_append_right _ hlater, hclearer⟩
    · rw [Function.update_of_ne (Ne.symm heq)]
      exact ⟨ops, hops, fun hafter => hclears (hbefore hafter)⟩
  · rintro before caller ⟨hopened', ops', hops', hclears'⟩ hbegin
    have hbefore : next.Blocks element → before.Blocks element :=
      fun hafter => hafter.of_beginCall hbegin
    obtain ⟨hidle, rfl⟩ := State.beginCall_eq_some hbegin
    refine ⟨hopened', ?_⟩
    dsimp only
    by_cases heq : thread = .caller caller
    · subst heq
      rw [hidle] at hops'
      obtain ⟨rfl, rfl⟩ := List.append_eq_nil_iff.mp hops'.symm
      refine ⟨act.ops, by simp, fun hafter => ?_⟩
      obtain ⟨op, hmem, -⟩ := hclears' (hbefore hafter)
      cases hmem
    · rw [Function.update_of_ne heq]
      exact ⟨ops', hops', fun hafter => hclears' (hbefore hafter)⟩

theorem State.Sequencing.not_blocks [DecidableEq T] (hq : s.Sequencing F collection)
    (hparent : F.parent element = some collection) (hopened : s.data.opened collection = true)
    (h : ¬ s.Blocks element) {act : LifeAct J T} (hstep : lifeStep F s act = some next) :
    next.data.opened collection = true ∧ ¬ next.Blocks element := by
  refine lifeStep_rule (I := fun s => s.data.opened collection = true ∧ ¬ s.Blocks element)
    ⟨hopened, h⟩ ?_ (fun _ _ _ _ => ⟨hopened, h⟩) ?_ hstep
  · rintro thread rfl hran
    obtain ⟨op, rest, hstack, hfree, rfl⟩ := State.runThread_eq_some hran
    exact ⟨hq.sound.exec_opened hstack hfree hopened,
      fun hafter => h (hq.of_exec_blocks hstack hparent hopened hafter)⟩
  · rintro before caller ⟨hopened', hnot⟩ hbegin
    refine ⟨?_, fun hafter => hnot (hafter.of_beginCall hbegin)⟩
    obtain ⟨-, rfl⟩ := State.beginCall_eq_some hbegin
    exact hopened'

end Step

/-! ## Runs -/

section Runs

variable [DecidableEq J] [DecidableEq P] [DecidableEq T] {F : Forest J P σ}
  {s next : State J P T σ} {ok : State J P T σ → LifeAct J T → Prop} {start : Weaver.Start J P σ}
  {thread : Thread T} {collection element : J}

theorem lifeRuns_blocking (run : LifeRuns F ok start s) (hkind : F.kind collection = .sequence) :
    s.Sequencing F collection ∧ s.Blocking F collection ∧ s.Counting F collection := by
  induction run with
  | refl =>
      refine ⟨sequencing_init start collection, ⟨fun thread => ?_, ?_, ?_, ?_, ?_, ?_⟩, ?_, ?_, ?_⟩
      · cases thread <;> simp [init, Stacked, Unblocking]
      · simp [init]
      · simp [init]
      · simp [init]
      · simp [init]
      · simp [init]
      · simp [init]
      · simp [init, Data.hasCompleted, Place.isLate, Place.isReported]
      · exact Nat.zero_le _
  | tail run _ hstep ih =>
      obtain ⟨hq, hb, hc⟩ := ih
      exact ⟨hq.step hkind hstep, hb.step hq hkind hstep, hc.step hq hstep⟩

theorem lifeRuns_unstopped (run : LifeRuns F (NotStopped collection) start s)
    (hkind : F.kind collection = .sequence) : s.Unstopped F collection := by
  induction run with
  | refl =>
      refine ⟨fun thread op hop => ?_, fun h => ?_, fun h => ?_⟩
      · cases thread <;> simp only [init, List.mem_singleton, List.not_mem_nil] at hop
        subst hop
        simp [Op.stops?]
      · cases h
      · cases h
  | tail run hok hstep ih => exact ih.step (lifeRuns_blocking run hkind).1 hkind hok hstep

theorem lifeRuns_trans {ok' : State J P T σ → LifeAct J T → Prop} (run : LifeRuns F ok start s)
    (more : RunWhere (lifeStep F) ok' s next) : LifeRuns F (fun _ _ => True) start next :=
  (run.mono fun _ _ _ => trivial).trans (more.mono fun _ _ _ => trivial)

/-- Where the blockers are while nobody has the mutex of an opened Sequence. -/
theorem mem_blocker_iff (run : LifeRuns F (NotStopped collection) start s)
    (hkind : F.kind collection = .sequence) (hopened : s.data.opened collection = true)
    (hfree : s.data.holder (.job collection) = none)
    (hparent : F.parent element = some collection) :
    none ∈ s.data.queuePolicies element ↔
      s.data.completed collection < F.turn collection element := by
  obtain ⟨hq, hb, -⟩ := lifeRuns_blocking run hkind
  have hw := lifeRuns_unstopped run hkind
  constructor
  · intro hblocked
    by_contra hturn
    obtain ⟨thread, hremove⟩ := hb.reached element hparent (by omega) hblocked
    rw [hq.holder_of_removeBlocker hparent hremove] at hfree
    cases hfree
  · intro hturn
    refine (hw.blocked hopened element hparent hturn).resolve_left ?_
    rintro ⟨thread, hassign⟩
    rw [(hq.of_assignBlocker hparent hassign).1] at hfree
    cases hfree

theorem hasCompleted_iff (run : LifeRuns F ok start s) (hkind : F.kind collection = .sequence)
    (hfree : s.data.holder (.job collection) = none) {job : J}
    (hjob : F.Concerns collection job) :
    s.data.hasCompleted collection job = true ↔
      F.turn collection job < s.data.completed collection := by
  obtain ⟨hq, -, hc⟩ := lifeRuns_blocking run hkind
  refine ⟨hc.counted job hjob, fun hturn => ?_⟩
  refine (hc.passed job hjob hturn).resolve_right ?_
  rintro ⟨thread, hcount⟩
  have hholder : s.data.holder (.job collection) = some thread :=
    hq.sound.holder_eq ⟨_, hcount, by simp [Op.locks]⟩
  rw [hfree] at hholder
  cases hholder

theorem completed_eq (run : LifeRuns F ok start s) (hkind : F.kind collection = .sequence)
    (hfree : s.data.holder (.job collection) = none) :
    s.data.completed collection = s.data.completions F collection := by
  obtain ⟨-, -, hc⟩ := lifeRuns_blocking run hkind
  refine (Library.countP_of_getElem? (by simpa using hc.bounded) fun i job hget => ?_).symm
  cases i with
  | zero =>
      obtain rfl : collection = job := Option.some.inj hget
      rw [hasCompleted_iff run hkind hfree (.inl ⟨rfl, by simp [hkind]⟩), F.turn_self]
  | succ i =>
      have hparent := (F.mem_elements collection job).mp (List.mem_of_getElem? hget)
      rw [hasCompleted_iff run hkind hfree (.inr hparent), F.turn_of_getElem? hget]

theorem lifeRuns_clearing (hkind : F.kind collection = .sequence) (run : LifeRuns F ok start s)
    (hparent : F.parent element = some collection) {rest : List (Op J)}
    (h : s.Clearing thread rest collection element)
    (hcall : RunWhere (lifeStep F) (InCall thread rest) s next) :
    next.Clearing thread rest collection element := by
  induction hcall with
  | refl => exact h
  | tail more hok hstep ih =>
      obtain ⟨hq, hb, -⟩ := lifeRuns_blocking (lifeRuns_trans run more) hkind
      exact ih.step hb hq hkind hparent hok hstep

theorem lifeRuns_not_blocks (hkind : F.kind collection = .sequence) (run : LifeRuns F ok start s)
    (hparent : F.parent element = some collection) (hopened : s.data.opened collection = true)
    (h : ¬ s.Blocks element) {ok' : State J P T σ → LifeAct J T → Prop}
    (hlater : RunWhere (lifeStep F) ok' s next) :
    next.data.opened collection = true ∧ ¬ next.Blocks element := by
  induction hlater with
  | refl => exact ⟨hopened, h⟩
  | tail more _ hstep ih =>
      have hq := (lifeRuns_blocking (lifeRuns_trans run more) hkind).1
      exact hq.not_blocks hparent ih.1 ih.2 hstep

/-- A thread that has returned from a stop, or from the destructor, has left no element blocked,
and none is ever again. -/
theorem lifeRuns_unblocked (hkind : F.kind collection = .sequence) (run : LifeRuns F ok start s)
    (hopened : s.data.opened collection = true) {op : Op J} {rest : List (Op J)}
    (hop : op = .stop collection ∨ op = .stopElements collection)
    (hstack : s.stack thread = op :: rest) {returned later : State J P T σ}
    (hcall : RunWhere (lifeStep F) (InCall thread rest) s returned)
    (hreturned : returned.stack thread = rest)
    {ok' : State J P T σ → LifeAct J T → Prop} (hlater : RunWhere (lifeStep F) ok' returned later) :
    later.data.Unblocked F collection := by
  intro element hparent hblocked
  have hcalled : s.Clearing thread rest collection element := by
    refine ⟨hopened, [op], hstack, fun _ => ⟨op, List.mem_cons_self, .inl ?_⟩⟩
    rcases hop with rfl | rfl <;> exact rfl
  obtain ⟨hopened', ops, hops, hclears⟩ := lifeRuns_clearing hkind run hparent hcalled hcall
  have hnot : ¬ returned.Blocks element := by
    intro hblocks
    obtain ⟨clearer, hmem, -⟩ := hclears hblocks
    rw [hreturned] at hops
    rw [List.self_eq_append_left.mp hops] at hmem
    cases hmem
  exact (lifeRuns_not_blocks hkind (lifeRuns_trans run hcall) hparent hopened' hnot hlater).2
    (.inl hblocked)

/-- **The blockers of a Sequence.**  As long as nobody has stopped or destroyed it, and nobody has
its mutex, the blocked elements of a Sequence are those from the position on that is the number of
jobs completed so far; so at most one of the elements that are not blocked has not ended.  When the
Sequence has ended, and when a call of `stop` or of the destructor has returned, no element is
blocked any more. -/
theorem blocker_window (hkind : F.kind collection = .sequence) (start : Weaver.Start J P σ) :
    (∀ s : State J P T σ, LifeRuns F (NotStopped collection) start s →
      s.data.opened collection = true → s.data.holder (.job collection) = none →
      (∀ i element, (F.elements collection)[i]? = some element →
        (none ∈ s.data.queuePolicies element ↔ s.data.completions F collection ≤ i)) ∧
      ∀ element other, F.parent element = some collection → F.parent other = some collection →
        (s.data.place element).isEnded = false → (s.data.place other).isEnded = false →
        none ∉ s.data.queuePolicies element → none ∉ s.data.queuePolicies other →
        element = other) ∧
    (∀ (s : State J P T σ) status, LifeRuns F (fun _ _ => True) start s →
      .ended collection status ∈ s.data.log → s.data.Unblocked F collection) ∧
    ∀ (s returned later : State J P T σ) thread op rest, LifeRuns F (fun _ _ => True) start s →
      s.data.opened collection = true →
      op = .stop collection ∨ op = .stopElements collection → s.stack thread = op :: rest →
      RunWhere (lifeStep F) (InCall thread rest) s returned → returned.stack thread = rest →
      RunWhere (lifeStep F) (fun _ _ => True) returned later →
      later.data.Unblocked F collection := by
  refine ⟨fun s run hopened hfree => ⟨fun i element hget => ?_, ?_⟩, fun s status run hended => ?_,
    fun s returned later thread op rest run hopened hop hstack hcall hreturned hlater =>
      lifeRuns_unblocked hkind run hopened hop hstack hcall hreturned hlater⟩
  · have hparent := (F.mem_elements collection element).mp (List.mem_of_getElem? hget)
    rw [mem_blocker_iff run hkind hopened hfree hparent, F.turn_of_getElem? hget,
      completed_eq run hkind hfree]
    exact Nat.lt_succ_iff
  · intro element other hparent hparent' hended hended' hfreed hfreed'
    -- the turn is with an element that is not blocked and has not been completed
    have hturn : ∀ element, F.parent element = some collection →
        (s.data.place element).isEnded = false → none ∉ s.data.queuePolicies element →
        F.turn collection element = s.data.completed collection := by
      intro element hparent hended hfreed
      rw [mem_blocker_iff run hkind hopened hfree hparent] at hfreed
      have hdone := hasCompleted_iff run hkind hfree (.inr hparent)
      have hnot : s.data.hasCompleted collection element ≠ true := by
        intro hcompleted
        rw [Data.hasCompleted, if_neg (F.ne_of_parent hparent)] at hcompleted
        cases hplace : s.data.place element <;> simp_all [Place.isReported, Place.isEnded]
      rw [Ne, hdone] at hnot
      omega
    exact F.turn_inj (.inr hparent) (.inr hparent')
      ((hturn element hparent hended hfreed).trans (hturn other hparent' hended' hfreed').symm)
  · obtain ⟨hq, hb, -⟩ := lifeRuns_blocking run hkind
    intro element hparent hblocked
    have hover := (hq.finishing.api collection (hb.known element hparent hblocked).2).2
    rw [hb.ended status hended] at hover
    cases hover

end Runs

/-- When the Sequence has completed its own job the second element is blocked, and when it has been
stopped no element is. -/
theorem blocker_window_failing : ∃ s returned : State (Fin 3) Empty Unit Unit,
    s.data.completions failing 0 = 1 ∧ none ∈ s.data.queuePolicies 2 ∧
      s.stack (.caller ()) = [.stop 0] ∧ returned.stack (.caller ()) = [] ∧
      returned.data.Unblocked failing 0 := by
  have h : (Library.execute (lifeStep failing) (NotStopped 0) (init (.plain ()))
      (List.flatten [[.step (.enqueue () [0])], List.replicate 3 (.step (.run (.caller ()))),
        List.replicate 18 (.step (.run (.worker 0))), [.step (.stop () 0)]])).any (fun s =>
      decide (s.data.opened 0 = true ∧ s.data.holder (.job 0) = none ∧
        s.data.completions failing 0 = 1 ∧ s.stack (.caller ()) = [.stop 0]) &&
      (Library.execute (lifeStep failing) (InCall (.caller ()) []) s
        (List.replicate 18 (.step (.run (.caller ()))))).any fun returned =>
          decide (returned.stack (.caller ()) = [])) = true := by decide +kernel
  obtain ⟨s, hs, h⟩ := (Option.any_eq_true _ _).mp h
  obtain ⟨hgoal, h⟩ := Bool.and_eq_true_iff.mp h
  obtain ⟨hopened, hfree, hcount, hstack⟩ := of_decide_eq_true hgoal
  obtain ⟨returned, hcall, hreturned⟩ := (Option.any_eq_true _ _).mp h
  have hrun := Library.runWhere_of_execute hs
  have hreturned := of_decide_eq_true hreturned
  obtain ⟨hwindow, -, hstopped⟩ :=
    blocker_window (T := Unit) (F := failing) (by rfl : failing.kind 0 = .sequence) (.plain ())
  refine ⟨s, returned, hcount, ?_, hstack, hreturned, ?_⟩
  · exact ((hwindow s hrun hopened hfree).1 1 2 rfl).mpr hcount.le
  · exact hstopped s returned returned _ _ _ (hrun.mono fun _ _ _ => trivial) hopened (.inl rfl)
      hstack (Library.runWhere_of_execute hcall) hreturned .refl

end ThreadWeaver.Collection
