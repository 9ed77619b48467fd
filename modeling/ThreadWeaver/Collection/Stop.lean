import ThreadWeaver.Collection.Abort
import ThreadWeaver.Collection.RequestAbort

/-!
# A stop stops

`Collection::stop` drops the mutex of the collection, has the collection taken out of the queue,
and if it is not found there goes through the elements.  The queue looks for the pointer to the
collection itself, so it does not find a collection that it knows by the pointer of a decorator.

Going through the elements is enough if they have been handed to the queue, or if they never will
be.  In between, while the collection is still on its way, the stop takes out nothing and the
elements are handed over afterwards.  That is the whole condition: a stop that gets to the elements
of a collection which is not on its way, or has been asked to abort, stops the collection
(`stop_stops`).
-/

namespace ThreadWeaver.Collection

open Library (Custody RunWhere)

variable {J P T σ : Type*}

/-! ## What the queue finds -/

/-- The `dequeue` of a collection by its own `stop` does not find it. -/
def State.miss [DecidableEq J] [DecidableEq T] (thread : Thread T) (collection : J)
    (s : State J P T σ) : Option (State J P T σ) :=
  if s.data.holder .weaver = none then
    some { s with
      stack := Function.update s.stack thread
        (.stopElements collection :: (s.stack thread).tail) }
  else none

/-- One step of the threads where the queue knows the jobs by the pointers of a program. -/
def pointerStep [DecidableEq J] [DecidableEq P] [DecidableEq T] (G : Program J P σ)
    (s : State J P T σ) (act : Act J T) : Option (State J P T σ) :=
  match s.nextOp act with
  | some (.dequeueSelf collection) =>
      if G.pointer collection = .job collection then step G.toForest s act
      else s.miss act.thread collection
  | _ => step G.toForest s act

/-- The runs whose steps satisfy `ok`. -/
abbrev PointerRuns [DecidableEq J] [DecidableEq P] [DecidableEq T] (G : Program J P σ)
    (ok : State J P T σ → Act J T → Prop) (start : Weaver.Start J P σ) (s : State J P T σ) : Prop :=
  RunWhere (pointerStep G) ok (init start) s

/-! ## The conditions on the steps -/

/-- The call has not returned, and when it gets to the elements of the collection this is not on
its way, or has been asked to abort. -/
def StopsInTime [DecidableEq T] (caller : T) (collection : J) (s : State J P T σ)
    (act : Act J T) : Prop :=
  s.stack (.caller caller) ≠ [] ∧
    (act.thread = .caller caller →
      (s.stack (.caller caller)).head? = some (.dequeueElements collection false) →
      (s.data.place collection).isAhead = false ∨ s.data.shouldAbort collection = true)

instance [DecidableEq J] [DecidableEq T] (caller : T) (collection : J) (s : State J P T σ)
    (act : Act J T) : Decidable (StopsInTime caller collection s act) :=
  inferInstanceAs (Decidable (_ ∧ (_ → _ → _)))

/-- The collection is not put into the queue. -/
def NotEnqueued (collection : J) (s : State J P T σ) (act : Act J T) : Prop :=
  s.nextOp act ≠ some (.enqueueJob collection)

instance [DecidableEq J] (collection : J) (s : State J P T σ) (act : Act J T) :
    Decidable (NotEnqueued collection s act) :=
  inferInstanceAs (Decidable (¬ _))

section Step

variable [DecidableEq J] {F : Forest J P σ} {s next : State J P T σ}
  {thread other : Thread T} {collection element job : J} {op : Op J} {rest : List (Op J)}

/-! ## A collection that is not found -/

section Miss

variable [DecidableEq T]

/-- The state after the collection has not been found. -/
def State.missed (thread : Thread T) (collection : J) (rest : List (Op J)) (s : State J P T σ) :
    State J P T σ :=
  { s with stack := Function.update s.stack thread (.stopElements collection :: rest) }

omit [DecidableEq J] in
@[simp] theorem State.missed_stack_self :
    (s.missed thread collection rest).stack thread = .stopElements collection :: rest :=
  Function.update_self _ _ _

omit [DecidableEq J] in
theorem State.missed_stack_of_ne (hne : other ≠ thread) :
    (s.missed thread collection rest).stack other = s.stack other :=
  Function.update_of_ne hne _ _

omit [DecidableEq J] in
/-- Nothing but the call itself is replaced. -/
theorem State.mem_missed (hstack : s.stack thread = .dequeueSelf collection :: rest) {later : Op J}
    (hne : later ≠ .dequeueSelf collection) (hmem : later ∈ s.stack other) :
    later ∈ (s.missed thread collection rest).stack other := by
  by_cases heq : other = thread
  · subst heq
    rw [hstack] at hmem
    rw [State.missed_stack_self]
    exact List.mem_cons_of_mem _ ((List.mem_cons.mp hmem).resolve_left hne)
  · rwa [State.missed_stack_of_ne heq]

omit [DecidableEq J] in
theorem State.mem_of_missed (hstack : s.stack thread = .dequeueSelf collection :: rest)
    {later : Op J} (hne : later ≠ .stopElements collection)
    (hmem : later ∈ (s.missed thread collection rest).stack other) : later ∈ s.stack other := by
  by_cases heq : other = thread
  · subst heq
    rw [State.missed_stack_self] at hmem
    rw [hstack]
    exact List.mem_cons_of_mem _ ((List.mem_cons.mp hmem).resolve_left hne)
  · rwa [State.missed_stack_of_ne heq] at hmem

theorem State.Sound.missed (hs : s.Sound F)
    (hstack : s.stack thread = .dequeueSelf collection :: rest) :
    (s.missed thread collection rest).Sound F := by
  have hsplit : s.stack thread = [.dequeueSelf collection] ++ rest := hstack
  -- neither of the two operations has a mutex or a job in hand
  have hlocks : Custody Op.locks s.data.lockOwner
      (Function.update s.stack thread ([.stopElements collection] ++ rest)) :=
    hs.locks.keep hsplit rfl
  have hjobs : Custody Op.jobs s.data.jobOwner
      (Function.update s.stack thread ([.stopElements collection] ++ rest)) :=
    hs.jobs.keep hsplit rfl
  refine ⟨hs.keep rfl rfl rfl fun job => Exists.imp fun other => State.mem_missed hstack (by simp),
    fun other => ?_, hlocks, hjobs, hs.books, fun other candidates hop => ?_⟩
  · have hlayout := hs.layout thread
    rw [hstack] at hlayout
    by_cases heq : other = thread
    · rw [heq, State.missed_stack_self]
      exact hlayout
    · rw [State.missed_stack_of_ne heq]
      exact hs.layout other
  · obtain ⟨halone, hsub⟩ := hs.scanning other candidates
      (State.mem_of_missed hstack (by simp) hop)
    refine ⟨?_, hsub⟩
    by_cases heq : other = thread
    · subst heq
      rw [hstack] at halone
      cases halone
    · rwa [State.missed_stack_of_ne heq]

omit [DecidableEq J] in
theorem State.Enqueuing.missed (he : s.Enqueuing F)
    (hstack : s.stack thread = .dequeueSelf collection :: rest) :
    (s.missed thread collection rest).Enqueuing F := by
  refine ⟨fun other => ?_, fun other head element hop hparent hwaits => ?_, he.ahead, he.api⟩
  · have hloops := he.loops thread
    rw [hstack] at hloops
    by_cases heq : other = thread
    · rw [heq, State.missed_stack_self]
      exact ⟨trivial, hloops.2⟩
    · rw [State.missed_stack_of_ne heq]
      exact he.loops other
  · obtain ⟨locked, hturn⟩ := he.listed other head element
      (State.mem_of_missed hstack (by simp) hop) hparent hwaits
    exact ⟨locked, State.mem_missed hstack (by simp) hturn⟩

end Miss

variable [DecidableEq P] [DecidableEq T] {G : Program J P σ} {act : Act J T}

/-- **Step rule.**  A step is one of the collections, or a collection is not found. -/
theorem pointerStep_cases (h : pointerStep G s act = some next) :
    step G.toForest s act = some next ∨
      ∃ thread collection rest, s.stack thread = .dequeueSelf collection :: rest ∧
        next = s.missed thread collection rest := by
  unfold pointerStep at h
  split at h
  · rename_i collection hnext
    split at h
    · exact .inl h
    · cases act with
      | run thread =>
          obtain ⟨rest, hstack⟩ := List.head?_eq_some_iff.mp hnext
          simp only [State.miss, Act.thread, hstack, List.tail_cons, Option.ite_none_right_eq_some,
            Option.some.injEq] at h
          exact .inr ⟨thread, collection, rest, hstack, h.2.symm⟩
      | _ => cases hnext
  · exact .inl h

theorem pointerRuns_sound {ok : State J P T σ → Act J T → Prop} {start : Weaver.Start J P σ}
    (run : PointerRuns G ok start s) : s.Sound G.toForest ∧ s.Enqueuing G.toForest := by
  induction run with
  | refl => exact ⟨sound_init start, enqueuing_init start⟩
  | tail _ _ hstep ih =>
      rcases pointerStep_cases hstep with hbase | ⟨thread, collection, rest, hstack, rfl⟩
      · exact ⟨ih.1.step hbase, ih.2.step ih.1 hbase⟩
      · exact ⟨ih.1.missed hstack, ih.2.missed hstack⟩

/-! ## While the collection is stopped -/

/-- What the thread has to do until it goes through the elements. -/
def Approaches (collection : J) (stack : List (Op J)) : Prop :=
  stack = [.stop collection] ∨ stack = [.dequeueSelf collection] ∨
    stack = [.stopElements collection] ∨
    stack = [.dequeueElements collection false, .unlock (.job collection)]

/-- The call ends with an operation before which nobody else puts the collection into the queue. -/
def HoldsOff (collection : J) (stack : List (Op J)) : Prop :=
  stack = [] ∨ ∃ ops last, stack = ops ++ [last] ∧
    (last = .leave collection ∨ last = .unlock (.job collection))

/-- The collection does not hand elements to the queue before the call has returned. -/
def State.Barred (thread : Thread T) (collection : J) (s : State J P T σ) : Prop :=
  s.data.shouldAbort collection = true ∨ (s.data.place collection).isLate = true ∨
    (s.data.place collection).isAhead = false ∧ HoldsOff collection (s.stack thread)

/-- The thread has still to go through the elements, or the collection is barred and the elements
that wait are still to be taken out. -/
def State.Stopping (F : Forest J P σ) (thread : Thread T) (collection : J)
    (s : State J P T σ) : Prop :=
  Approaches collection (s.stack thread) ∨
    s.Barred thread collection ∧ ∀ element, F.parent element = some collection →
      (s.data.place element).isEnqueued = true →
      .dequeueElement collection element false ∈ s.stack thread

omit [DecidableEq T] in
theorem HoldsOff.exec (thread : Thread T) (d : Data J P T σ) (h : HoldsOff collection (op :: rest)) :
    HoldsOff collection ((Collection.exec F thread op d).2 ++ rest) := by
  rcases h with hnil | ⟨ops, last, hsplit, hlast⟩
  · cases hnil
  · cases ops with
    | nil =>
        obtain ⟨rfl, rfl⟩ := List.cons_eq_cons.mp hsplit
        rcases hlast with rfl | rfl <;> exact .inl rfl
    | cons head ops =>
        obtain ⟨rfl, rfl⟩ := List.cons_eq_cons.mp hsplit
        exact .inr ⟨(Collection.exec F thread op d).2 ++ ops, last, by simp, hlast⟩

omit [DecidableEq T] in
/-- A collection gets on its way when it is put into the queue. -/
theorem State.Sound.exec_isAhead (hs : s.Sound F) (hstack : s.stack thread = op :: rest)
    (hfree : ∀ mutex, wants F op = some mutex → s.data.holder mutex = none)
    (hahead : (s.data.place collection).isAhead = false) (hnot : op ≠ .enqueueJob collection) :
    ((exec F thread op s.data).1.place collection).isAhead = false := by
  rcases hs.exec_place hstack hfree collection with hsame | hmoves
  · rw [hsame, hahead]
  · generalize s.data.place collection = before at hmoves hahead
    generalize (exec F thread op s.data).1.place collection = after at hmoves ⊢
    cases hmoves with
    | enqueued => exact absurd rfl hnot
    | assigned | started => cases hahead
    | _ => rfl

namespace State.Barred

omit [DecidableEq J] [DecidableEq P] [DecidableEq T] in
theorem not_opening (h : s.Barred thread collection)
    (hplace : s.data.place collection = .held .executing other)
    (habort : s.data.shouldAbort collection = false) : False := by
  rcases h with hyes | hlate | ⟨hahead, -⟩
  · rw [hyes] at habort
    cases habort
  · rw [hplace] at hlate
    cases hlate
  · rw [hplace] at hahead
    cases hahead

omit [DecidableEq P] [DecidableEq T] in
/-- The thread keeps others from putting the collection into the queue. -/
theorem not_enqueued (hs : s.Sound F) (hholds : HoldsOff collection (s.stack thread))
    (hne : s.stack thread ≠ []) (hop : .enqueueJob collection ∈ s.stack other) :
    s.data.holder (.job collection) ≠ none := by
  obtain ⟨ops, last, hsplit, hlast⟩ := hholds.resolve_left hne
  have hmem : last ∈ s.stack thread := by simp [hsplit]
  rcases hlast with rfl | rfl
  · have hpending := hs.place_eq hop (show (collection, .pending) ∈ _ by simp [Op.jobs])
    rw [hs.place_eq hmem (show (collection, .leaving) ∈ _ by simp [Op.jobs])] at hpending
    cases hpending
  · rw [hs.holder_eq ⟨_, hmem, by simp [Op.locks]⟩]
    exact Option.some_ne_none _

theorem exec (h : s.Barred thread collection) (hs : s.Sound F) (hne : s.stack thread ≠ [])
    (hstack : s.stack other = op :: rest)
    (hfree : ∀ mutex, wants F op = some mutex → s.data.holder mutex = none) :
    State.Barred thread collection ⟨(Collection.exec F other op s.data).1,
      Function.update s.stack other ((Collection.exec F other op s.data).2 ++ rest)⟩ := by
  rcases h with habort | hlate | ⟨hahead, hholds⟩
  · exact .inl (exec_shouldAbort F other op habort)
  · refine .inr (.inl ?_)
    dsimp only
    rcases hs.exec_place hstack hfree collection with hsame | hmoves
    · rwa [hsame]
    · exact hmoves.isLate hlate
  · refine .inr (.inr ⟨hs.exec_isAhead hstack hfree hahead ?_, ?_⟩)
    · rintro rfl
      have hop : .enqueueJob collection ∈ s.stack other := by
        rw [hstack]
        exact List.mem_cons_self
      exact not_enqueued hs hholds hne hop (hfree _ rfl)
    · by_cases heq : thread = other
      · subst heq
        dsimp only
        rw [Function.update_self]
        rw [hstack] at hholds
        exact hholds.exec thread s.data
      · dsimp only
        rwa [Function.update_of_ne heq]

end State.Barred

omit [DecidableEq J] [DecidableEq P] [DecidableEq T] in
/-- A collection that does not know the queue is not on its way, and none of its elements waits. -/
theorem State.Enqueuing.of_not_api (he : s.Enqueuing F) (hkind : F.kind collection ≠ .plain)
    (hapi : s.data.api collection = false) :
    (s.data.place collection).isAhead = false ∧
      ∀ element, F.parent element = some collection →
        (s.data.place element).isEnqueued = false := by
  refine ⟨?_, fun element hparent => ?_⟩ <;> by_contra hnot
  · rw [he.ahead collection hkind (by simpa using hnot)] at hapi
    cases hapi
  · rw [he.api collection element hparent (by simpa using hnot)] at hapi
    cases hapi

namespace State.Stopping

/-- The next operation of the thread until it goes through the elements. -/
theorem exec_approaching (hs : s.Sound F) (he : s.Enqueuing F) (hkind : F.kind collection ≠ .plain)
    (hstack : s.stack thread = op :: rest)
    (hfree : ∀ mutex, wants F op = some mutex → s.data.holder mutex = none)
    (happroaches : Approaches collection (op :: rest))
    (hok : op = .dequeueElements collection false →
      (s.data.place collection).isAhead = false ∨ s.data.shouldAbort collection = true) :
    State.Stopping F thread collection ⟨(exec F thread op s.data).1,
      Function.update s.stack thread ((exec F thread op s.data).2 ++ rest)⟩ := by
  simp only [State.Stopping, State.Barred, Function.update_self]
  rcases happroaches with heq | heq | heq | heq <;> obtain ⟨rfl, rfl⟩ := List.cons_eq_cons.mp heq
  · -- `stop`
    cases hapi : s.data.api collection with
    | true => exact .inl (.inr (.inl (by simp [exec, hapi])))
    | false =>
        obtain ⟨hahead, hnone⟩ := he.of_not_api hkind hapi
        refine .inr ⟨.inr (.inr ⟨hahead, .inl (by simp [exec, hapi])⟩), fun element hparent h => ?_⟩
        rw [show (exec F thread (.stop collection) s.data).1.place element = s.data.place element
          from rfl, hnone element hparent] at h
        cases h
  · -- `dequeueSelf`
    by_cases hmem : collection ∈ s.data.assignments
    · have hqueued := hs.queued_of_free (hfree .weaver rfl) hmem
      have hleaving : (exec F thread (.dequeueSelf collection) s.data).1.place collection =
          .held .leaving thread := by
        simp only [exec, if_pos hmem]
        exact Function.update_self _ _ _
      refine .inr ⟨.inr (.inr ⟨by rw [hleaving]; rfl, .inr ⟨[.aboutToBeDequeued collection,
        .takeAt collection, .unlock .weaver], .leave collection, ?_, .inl rfl⟩⟩),
        fun element hparent hafter => ?_⟩
      · simp [exec, hmem]
      · rcases hs.exec_isEnqueued hstack hfree hparent hafter with hbefore | ⟨hnot, -⟩
        · have hopened := hs.opened_of_enqueued hparent hbefore
          have hnone := hs.books.not_opened (show (s.data.place collection).isLate = false by
            rw [hqueued]
            rfl)
          rw [show s.data.opened collection = false from hnone] at hopened
          cases hopened
        · cases hnot
    · exact .inl (.inr (.inr (.inl (by simp [exec, hmem]))))
  · -- `stopElements`
    exact .inl (.inr (.inr (.inr (by simp [exec]))))
  · -- `dequeueElements`
    cases hapi : s.data.api collection with
    | false =>
        obtain ⟨hahead, hnone⟩ := he.of_not_api hkind hapi
        refine .inr ⟨.inr (.inr ⟨hahead, .inr ⟨[], .unlock (.job collection), ?_, .inr rfl⟩⟩),
          fun element hparent h => ?_⟩
        · simp [exec, hapi]
        · rw [show (exec F thread (.dequeueElements collection false) s.data).1.place element =
            s.data.place element from rfl, hnone element hparent] at h
          cases h
    | true =>
        refine .inr ⟨?_, fun element hparent _ => ?_⟩
        · rcases hok rfl with hahead | habort
          · refine .inr (.inr ⟨hahead, .inr ⟨(F.elements collection).map
              (.dequeueElement collection · false) ++ [.checkLast collection],
              .unlock (.job collection), ?_, .inr rfl⟩⟩)
            simp [exec, hapi]
          · exact .inl habort
        · simpa [exec, hapi] using (F.mem_elements _ _).mpr hparent

theorem exec (h : s.Stopping F thread collection) (hs : s.Sound F) (he : s.Enqueuing F)
    (hkind : F.kind collection ≠ .plain) (hne : s.stack thread ≠ [])
    (hstack : s.stack other = op :: rest)
    (hfree : ∀ mutex, wants F op = some mutex → s.data.holder mutex = none)
    (hok : other = thread → op = .dequeueElements collection false →
      (s.data.place collection).isAhead = false ∨ s.data.shouldAbort collection = true) :
    State.Stopping F thread collection ⟨(Collection.exec F other op s.data).1,
      Function.update s.stack other ((Collection.exec F other op s.data).2 ++ rest)⟩ := by
  rcases h with happroaches | ⟨hbarred, hturns⟩
  · by_cases heq : other = thread
    · subst heq
      rw [hstack] at happroaches
      exact exec_approaching hs he hkind hstack hfree happroaches (hok rfl)
    · refine .inl ?_
      dsimp only
      rwa [Function.update_of_ne (Ne.symm heq)]
  · refine .inr ⟨hbarred.exec hs hne hstack hfree, fun element hparent hafter => ?_⟩
    rcases hs.exec_isEnqueued hstack hfree hparent hafter with hbefore | ⟨-, hplace, habort⟩
    · have hturn := hturns element hparent hbefore
      dsimp only
      by_cases heq : thread = other
      · subst heq
        rw [Function.update_self]
        rw [hstack] at hturn
        rcases List.mem_cons.mp hturn with rfl | hbelow
        · rw [hs.dequeueElement_takes (he.loops thread) hstack hfree] at hafter
          cases hafter
        · exact List.mem_append_right _ hbelow
      · rwa [Function.update_of_ne heq]
    · exact (hbarred.not_opening hplace habort).elim

omit [DecidableEq P] [DecidableEq T] in
theorem takeUp (h : s.Stopping F thread collection) {jobs : List J}
    (hjobs : ∀ job ∈ jobs, F.parent job = none ∧ s.data.place job = .fresh) :
    (s.takeUp other jobs).Stopping F thread collection := by
  refine h.imp id fun hbarred => ⟨?_, fun element hparent hwaits => ?_⟩
  · -- what is taken up is neither late nor on its way
    have hplace : (s.takeUp other jobs).data.place collection = s.data.place collection ∨
        s.data.place collection = .fresh ∧
          (s.takeUp other jobs).data.place collection = .held .pending other := by
      by_cases hmem : collection ∈ jobs
      · exact .inr ⟨(hjobs collection hmem).2, if_pos hmem⟩
      · exact .inl (if_neg hmem)
    rcases hplace with hsame | ⟨hfresh, hpending⟩
    · unfold State.Barred
      rw [hsame]
      exact hbarred.1
    · rcases hbarred.1 with habort | hlate | ⟨-, hholds⟩
      · exact .inl habort
      · rw [hfresh] at hlate
        cases hlate
      · refine .inr (.inr ⟨?_, hholds⟩)
        rw [hpending]
        rfl
  · rw [State.takeUp_place hjobs hparent] at hwaits
    exact hbarred.2 element hparent hwaits

omit [DecidableEq J] [DecidableEq P] in
theorem beginCall (h : s.Stopping F thread collection) (hne : s.stack thread ≠ []) {caller : T}
    {ops : List (Op J)} (hbegin : s.beginCall caller ops = some next) :
    next.Stopping F thread collection := by
  obtain ⟨hidle, rfl⟩ := State.beginCall_eq_some hbegin
  have hother : thread ≠ .caller caller := by
    rintro rfl
    exact hne hidle
  simp only [State.Stopping, State.Barred, Function.update_of_ne hother]
  exact h

/-- **A step while the collection is stopped.** -/
theorem step {caller : T} (h : s.Stopping F (.caller caller) collection) (hs : s.Sound F)
    (he : s.Enqueuing F) (hkind : F.kind collection ≠ .plain)
    (hok : StopsInTime caller collection s act) (hstep : Collection.step F s act = some next) :
    next.Stopping F (.caller caller) collection := by
  cases act with
  | run thread =>
      obtain ⟨op, rest, hstack, hfree, rfl⟩ := State.runThread_eq_some hstep
      refine h.exec hs he hkind hok.1 hstack hfree ?_
      rintro rfl rfl
      exact hok.2 rfl (by rw [hstack]; rfl)
  | enqueue other jobs =>
      simp only [Collection.step] at hstep
      split at hstep
      · rename_i hguard
        exact (h.takeUp hguard.2).beginCall hok.1 hstep
      · cases hstep
  | stop other head =>
      simp only [Collection.step] at hstep
      split at hstep
      · cases hstep
      · exact h.beginCall hok.1 hstep
  | requestAbort other job => exact h.beginCall hok.1 hstep
  | finish other => exact h.beginCall hok.1 hstep

omit [DecidableEq J] [DecidableEq P] in
/-- The collection is not found. -/
theorem missed {head : J} (h : s.Stopping F thread collection)
    (hstack : s.stack other = .dequeueSelf head :: rest) :
    (s.missed other head rest).Stopping F thread collection := by
  by_cases heq : thread = other
  · subst heq
    rcases h with happroaches | ⟨hbarred, hturns⟩
    · rw [hstack] at happroaches
      refine .inl ?_
      rw [State.missed_stack_self]
      rcases happroaches with hfirst | hfirst | hfirst | hfirst
      · cases hfirst
      · cases hfirst
        exact .inr (.inr (.inl rfl))
      · cases hfirst
      · cases hfirst
    · refine .inr ⟨hbarred.imp id (Or.imp id fun hahead => ⟨hahead.1, ?_⟩), fun element hparent h =>
        State.mem_missed hstack (by simp) (hturns element hparent h)⟩
      rw [State.missed_stack_self]
      have hholds := hahead.2
      rw [hstack] at hholds
      rcases hholds with hnil | ⟨ops, last, hsplit, hlast⟩
      · cases hnil
      · cases ops with
        | nil =>
            obtain ⟨rfl, -⟩ := List.cons_eq_cons.mp hsplit
            rcases hlast with hlast | hlast <;> cases hlast
        | cons first ops =>
            obtain ⟨-, rfl⟩ := List.cons_eq_cons.mp hsplit
            exact .inr ⟨.stopElements head :: ops, last, by simp, hlast⟩
  · simp only [State.Stopping, State.Barred, State.missed_stack_of_ne heq]
    exact h

end State.Stopping

/-! ## After the call has returned -/

/-- The collection does not hand elements to the queue unless it is put into the queue itself, and
none of its elements waits. -/
def Data.Stopped (F : Forest J P σ) (d : Data J P T σ) (collection : J) : Prop :=
  (d.shouldAbort collection = true ∨ (d.place collection).isLate = true ∨
    (d.place collection).isAhead = false) ∧
  ∀ element, F.parent element = some collection → (d.place element).isEnqueued = false

omit [DecidableEq J] [DecidableEq P] [DecidableEq T] in
/-- When the call has returned, the collection is stopped. -/
theorem State.Stopping.stopped (h : s.Stopping F thread collection)
    (hreturned : s.stack thread = []) : s.data.Stopped F collection := by
  rcases h with happroaches | ⟨hbarred, hturns⟩
  · rw [hreturned] at happroaches
    rcases happroaches with hfirst | hfirst | hfirst | hfirst <;> cases hfirst
  · refine ⟨hbarred.imp id (Or.imp id And.left), fun element hparent => ?_⟩
    by_contra hnot
    have hturn := hturns element hparent (by simpa using hnot)
    rw [hreturned] at hturn
    cases hturn

namespace Data.Stopped

omit [DecidableEq T] in
theorem exec (h : s.data.Stopped F collection) (hs : s.Sound F)
    (hstack : s.stack thread = op :: rest)
    (hfree : ∀ mutex, wants F op = some mutex → s.data.holder mutex = none)
    (hnot : op ≠ .enqueueJob collection) :
    (Collection.exec F thread op s.data).1.Stopped F collection := by
  obtain ⟨hshut, hnone⟩ := h
  constructor
  · rcases hshut with habort | hlate | hahead
    · exact .inl (exec_shouldAbort F thread op habort)
    · refine .inr (.inl ?_)
      rcases hs.exec_place hstack hfree collection with hsame | hmoves
      · rwa [hsame]
      · exact hmoves.isLate hlate
    · exact .inr (.inr (hs.exec_isAhead hstack hfree hahead hnot))
  · intro element hparent
    by_contra hafter
    rcases hs.exec_isEnqueued hstack hfree hparent (by simpa using hafter) with
      hbefore | ⟨-, hplace, habort⟩
    · rw [hnone element hparent] at hbefore
      cases hbefore
    · rcases hshut with hyes | hlate | hahead
      · rw [hyes] at habort
        cases habort
      · rw [hplace] at hlate
        cases hlate
      · rw [hplace] at hahead
        cases hahead

theorem step (h : s.data.Stopped F collection) (hs : s.Sound F)
    (hok : NotEnqueued collection s act) (hstep : Collection.step F s act = some next) :
    next.data.Stopped F collection := by
  refine step_rule (I := fun after : State J P T σ => after.data.Stopped F collection) h
    ?_ ?_ ?_ hstep
  · rintro thread rfl hran
    obtain ⟨op, rest, hstack, hfree, rfl⟩ := State.runThread_eq_some hran
    refine h.exec hs hstack hfree ?_
    rintro rfl
    exact hok (by simp [State.nextOp, hstack])
  · intro caller jobs _ hjobs
    refine ⟨?_, fun element hparent => ?_⟩
    · by_cases hmem : collection ∈ jobs
      · refine .inr (.inr ?_)
        simp only [State.takeUp, if_pos hmem]
        rfl
      · simpa only [State.takeUp, if_neg hmem] using h.1
    · rw [State.takeUp_place hjobs hparent]
      exact h.2 element hparent
  · intro before caller hbefore hbegin
    obtain ⟨-, rfl⟩ := State.beginCall_eq_some hbegin
    exact hbefore

end Data.Stopped

variable {ok ok' : State J P T σ → Act J T → Prop} {start : Weaver.Start J P σ} {caller : T}
  {called returned later : State J P T σ}

/-- A run and one that goes on from its end. -/
theorem pointerRuns_trans (hrun : PointerRuns G ok start s)
    (hmore : RunWhere (pointerStep G) ok' s next) : PointerRuns G (fun _ _ => True) start next :=
  (hrun.mono fun _ _ _ => trivial).trans (hmore.mono fun _ _ _ => trivial)

/-- While the collection is stopped. -/
theorem pointerRuns_stopping (hkind : G.kind collection ≠ .plain)
    (hrun : PointerRuns G ok start called)
    (hstack : called.stack (.caller caller) = [.stop collection])
    (hstop : RunWhere (pointerStep G) (StopsInTime caller collection) called s) :
    s.Stopping G.toForest (.caller caller) collection := by
  induction hstop with
  | refl => exact .inl (.inl hstack)
  | tail hmore hok hstep ih =>
      obtain ⟨hs, he⟩ := pointerRuns_sound (pointerRuns_trans hrun hmore)
      rcases pointerStep_cases hstep with hbase | ⟨thread, head, rest, hhead, rfl⟩
      · exact ih.step hs he hkind hok hbase
      · exact ih.missed hhead

/-- After the collection has been stopped. -/
theorem pointerRuns_stopped (hrun : PointerRuns G ok start returned)
    (hstopped : returned.data.Stopped G.toForest collection)
    (hlater : RunWhere (pointerStep G) (NotEnqueued collection) returned later)
    (hparent : G.parent element = some collection)
    (hnot : ¬ returned.data.WasAssigned element) :
    later.data.Stopped G.toForest collection ∧ ¬ later.data.WasAssigned element := by
  induction hlater with
  | refl => exact ⟨hstopped, hnot⟩
  | tail hmore hok hstep ih =>
      obtain ⟨hmid, hnone⟩ := ih
      obtain ⟨hs, -⟩ := pointerRuns_sound (pointerRuns_trans hrun hmore)
      rcases pointerStep_cases hstep with hbase | ⟨thread, head, rest, -, rfl⟩
      · refine ⟨hmid.step hs hok hbase, fun hassigned => ?_⟩
        rcases hs.step_assigned hbase hassigned with hbefore | hqueued
        · exact hnone hbefore
        · have hwaits := hmid.2 element hparent
          rw [hqueued] at hwaits
          cases hwaits
      · exact ⟨hmid, hnone⟩

/-- **A stop stops**, if it gets to the elements of the collection when this is not on its way, or
has been asked to abort: when it has returned, no element that was not assigned by then is ever
assigned, unless the collection is put into the queue again. -/
theorem stop_stops (hrun : PointerRuns G ok start s)
    (hcall : pointerStep G s (.stop caller collection) = some called)
    (hstop : RunWhere (pointerStep G) (StopsInTime caller collection) called returned)
    (hreturned : returned.stack (.caller caller) = [])
    (hlater : RunWhere (pointerStep G) (NotEnqueued collection) returned later)
    (hparent : G.parent element = some collection)
    (hnot : ¬ returned.data.WasAssigned element) : ¬ later.data.WasAssigned element := by
  have hcalled : PointerRuns G (fun _ _ => True) start called :=
    (hrun.mono fun _ _ _ => trivial).tail trivial hcall
  have hkind : G.kind collection ≠ .plain := Books.Lawful.kind_ne_plain hparent
  have hstack : called.stack (.caller caller) = [.stop collection] := by
    simp only [pointerStep, State.nextOp, Collection.step, if_neg hkind] at hcall
    obtain ⟨-, rfl⟩ := State.beginCall_eq_some hcall
    exact Function.update_self _ _ _
  have hstopped := (pointerRuns_stopping hkind hcalled hstack hstop).stopped hreturned
  exact (pointerRuns_stopped (pointerRuns_trans hcalled hstop) hstopped hlater hparent hnot).2

variable (G) in
/-- No stop of the collection lets an element slip through that was not assigned when the stop
returned. -/
def EveryStopStops (start : Weaver.Start J P σ) (caller : T) (collection element : J) : Prop :=
  ∀ s called returned last : State J P T σ, PointerRuns G (fun _ _ => True) start s →
    pointerStep G s (.stop caller collection) = some called →
    RunWhere (pointerStep G) (fun s _ => s.stack (.caller caller) ≠ []) called returned →
    returned.stack (.caller caller) = [] →
    RunWhere (pointerStep G) (NotEnqueued collection) returned last →
    ¬ returned.data.WasAssigned element → ¬ last.data.WasAssigned element

end Step

/-- The pair of a Collection and its element, without decorators. -/
def barePair : Program (Fin 2) Empty Unit where
  toForest := pair
  pointer := .job
  decorated_pointer _ := rfl

/-- The Collection is enqueued and a worker takes some steps; then the Collection is stopped. -/
theorem exists_stop_pair (G : Program (Fin 2) Empty Unit) (steps : ℕ)
    (stopOk laterOk : State (Fin 2) Empty Unit Unit → Act (Fin 2) Unit → Prop)
    [∀ state act, Decidable (stopOk state act)] [∀ state act, Decidable (laterOk state act)]
    (goal later : State (Fin 2) Empty Unit Unit → Prop) [DecidablePred goal] [DecidablePred later]
    (more rest : List (Act (Fin 2) Unit))
    (h : (Library.execute (pointerStep G) (fun _ _ => True) (init (.plain ()))
        (List.flatten [[.enqueue () [0]], List.replicate 3 (.run (.caller ())),
          List.replicate steps (.run (.worker 0))])).any (fun s =>
        (pointerStep G s (.stop () 0)).any fun called =>
          (Library.execute (pointerStep G) stopOk called more).any fun returned =>
            decide (goal returned) && (Library.execute (pointerStep G) laterOk returned rest).any
              fun last => decide (later last)) = true) :
    ∃ s called returned last : State (Fin 2) Empty Unit Unit,
      PointerRuns G (fun _ _ => True) (.plain ()) s ∧
        pointerStep G s (.stop () 0) = some called ∧
        RunWhere (pointerStep G) stopOk called returned ∧ goal returned ∧
        RunWhere (pointerStep G) laterOk returned last ∧ later last := by
  obtain ⟨s, hs, h⟩ := (Option.any_eq_true _ _).mp h
  obtain ⟨called, hcalled, h⟩ := (Option.any_eq_true _ _).mp h
  obtain ⟨returned, hreturned, h⟩ := (Option.any_eq_true _ _).mp h
  simp only [Bool.and_eq_true, decide_eq_true_eq] at h
  obtain ⟨last, hrun, hlast⟩ := Library.exists_runWhere later rest h.2
  exact ⟨s, called, returned, last, Library.runWhere_of_execute hs, hcalled,
    Library.runWhere_of_execute hreturned, h.1, hrun, hlast⟩

/-- The element waits in the queue when the Collection is stopped. -/
theorem stop_stops_pair : ∃ s called returned last : State (Fin 2) Empty Unit Unit,
    pointerStep barePair s (.stop () 0) = some called ∧ returned.stack (.caller ()) = [] ∧
      .dequeued 1 ∈ returned.data.log ∧ last.stack (.worker 0) = [.applyForWork false] ∧
      ¬ last.data.WasAssigned 1 := by
  obtain ⟨s, called, returned, last, hrun, hcall, hstop, ⟨hreturned, hlog⟩, hlater, hlast⟩ :=
    exists_stop_pair barePair 13 (StopsInTime () 0) (NotEnqueued 0)
      (fun returned => returned.stack (.caller ()) = [] ∧ returned.data.log = [.enqueued 0,
        .assigned (.worker 0) 0, .started 0, .enqueued 1, .dequeued 1])
      (fun last => last.stack (.worker 0) = [.applyForWork false])
      (List.replicate 11 (.run (.caller ()))) (List.replicate 2 (.run (.worker 0)))
      (by decide +kernel)
  have hnot : ¬ returned.data.WasAssigned 1 := by
    rintro ⟨thread, hmem⟩
    simp [hlog] at hmem
  exact ⟨s, called, returned, last, hcall, hreturned, by simp [hlog], hlast,
    stop_stops hrun hcall hstop hreturned hlater rfl hnot⟩

/-- **A stop can come too early.**  The Collection has been handed to a worker that does not
execute it yet, or it waits in the queue in its decorators: its element is assigned after the stop
has returned. -/
theorem not_stop_stops :
    ¬ EveryStopStops barePair (.plain ()) () 0 1 ∧
      ¬ EveryStopStops decoratedPair (.plain ()) () 0 1 := by
  -- an element that is not in the log has not been assigned
  have hnone : ∀ {s : State (Fin 2) Empty Unit Unit},
      (∀ event ∈ s.data.log, event = .enqueued 0 ∨ event = .assigned (.worker 0) 0) →
      ¬ s.data.WasAssigned 1 := by
    rintro s hlog ⟨thread, hmem⟩
    rcases hlog _ hmem with h | h <;> cases h
  constructor
  · intro hclaim
    obtain ⟨s, called, returned, last, hrun, hcall, hstop, ⟨hreturned, hlog⟩, hlater, hlast⟩ :=
      exists_stop_pair barePair 2 (fun s _ => s.stack (.caller ()) ≠ []) (NotEnqueued 0)
        (fun returned => returned.stack (.caller ()) = [] ∧ ∀ event ∈ returned.data.log,
          event = .enqueued 0 ∨ event = .assigned (.worker 0) 0)
        (fun last => .assigned (.worker 0) 1 ∈ last.data.log)
        (List.replicate 7 (.run (.caller ()))) (List.replicate 13 (.run (.worker 0)))
        (by decide +kernel)
    exact hclaim s called returned last hrun hcall hstop hreturned hlater (hnone hlog) ⟨_, hlast⟩
  · intro hclaim
    obtain ⟨s, called, returned, last, hrun, hcall, hstop, ⟨hreturned, hlog⟩, hlater, hlast⟩ :=
      exists_stop_pair decoratedPair 0 (fun s _ => s.stack (.caller ()) ≠ []) (NotEnqueued 0)
        (fun returned => returned.stack (.caller ()) = [] ∧ ∀ event ∈ returned.data.log,
          event = .enqueued 0 ∨ event = .assigned (.worker 0) 0)
        (fun last => .assigned (.worker 0) 1 ∈ last.data.log)
        (List.replicate 7 (.run (.caller ()))) (List.replicate 15 (.run (.worker 0)))
        (by decide +kernel)
    exact hclaim s called returned last hrun hcall hstop hreturned hlater (hnone hlog) ⟨_, hlast⟩

end ThreadWeaver.Collection
