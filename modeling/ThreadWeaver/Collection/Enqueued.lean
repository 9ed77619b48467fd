import ThreadWeaver.Collection.Completion

/-!
# What waits in the queue

The elements of a collection get to the queue once, by the thread that executes it, which keeps
the mutex of the collection until they are there.  As long as one of them waits, the collection
knows the queue: its `api` is reset when the last element has been counted, when the collection
leaves the queue itself, and at the end of a loop of `dequeueElements`, which has taken out every
element that waited.
-/

namespace ThreadWeaver.Collection

open Library (Stacked Custody)

variable {J P T σ : Type*}

/-- The job is in the queue or about to be put into it. -/
def Place.isEnqueued : Place T → Bool
  | held .pending _ | queued => true
  | _ => false

theorem Place.not_counted_of_isEnqueued {place : Place T} (h : place.isEnqueued = true) :
    place.isCounted = false := by
  cases place with
  | held _ _ | queued => rfl
  | _ => cases h

/-! ## The loop of `dequeueElements` -/

/-- The collection whose elements are gone through in `dequeueElements`. -/
def Op.loop? : Op J → Option J
  | dequeueElements collection _ | dequeueElement collection _ _ | checkLast collection =>
      some collection
  | _ => none

/-- The mutex of the collection is released further down, where there is no other loop over its
elements. -/
def Guarded (collection : J) (rest : List (Op J)) : Prop :=
  (.unlock (.job collection) ∈ rest ∨ .resetApi collection ∈ rest) ∧
    ∀ op ∈ rest, op.loop? ≠ some collection

/-- A loop keeps the mutex of the collection, and its turns lie on its end. -/
def Loops : Op J → List (Op J) → Prop
  | .dequeueElements collection _, rest | .checkLast collection, rest => Guarded collection rest
  | .dequeueElement collection _ _, rest => .checkLast collection ∈ rest
  | _, _ => True

theorem loops_of_none {op : Op J} {rest : List (Op J)} (h : op.loop? = none) : Loops op rest := by
  cases op with
  | dequeueElements _ _ | dequeueElement _ _ _ | checkLast _ => cases h
  | _ => trivial

theorem Loops.releases {stack : List (Op J)} {op : Op J} {collection : J}
    (h : Stacked Loops stack) (hop : op ∈ stack) (hloop : op.loop? = some collection) :
    .unlock (.job collection) ∈ stack ∨ .resetApi collection ∈ stack := by
  have hlast : ∀ {op : Op J} {rest : List (Op J)}, Guarded collection rest →
      (∃ ops, stack = ops ++ op :: rest) →
      .unlock (.job collection) ∈ stack ∨ .resetApi collection ∈ stack := by
    rintro op rest ⟨hreleases, -⟩ ⟨ops, rfl⟩
    refine hreleases.imp ?_ ?_ <;>
      exact fun hmem => List.mem_append_right _ (List.mem_cons_of_mem _ hmem)
  obtain ⟨ops, rest, hsplit, hfits⟩ := h.of_mem hop
  cases op with
  | dequeueElements other _ | checkLast other =>
      obtain rfl : other = collection := Option.some.inj hloop
      exact hlast hfits ⟨ops, hsplit⟩
  | dequeueElement other element _ =>
      obtain rfl : other = collection := Option.some.inj hloop
      have hmem : .checkLast other ∈ stack := by
        rw [hsplit]
        exact List.mem_append_right _ (List.mem_cons_of_mem _ hfits)
      obtain ⟨ops', rest', hsplit', hguarded⟩ := h.of_mem hmem
      exact hlast hguarded ⟨ops', hsplit'⟩
  | _ => cases hloop

section Exec

variable [DecidableEq J] [DecidableEq P] {F : Forest J P σ}

/-- Loops begin in `dequeueElements` only. -/
theorem exec_loop?_eq_none {thread : Thread T} {op : Op J} {d : Data J P T σ}
    (hstop : ∀ collection, op ≠ .stopElements collection)
    (helements : ∀ collection queueApiIsLocked, op ≠ .dequeueElements collection queueApiIsLocked)
    (hhook : ∀ job, op ≠ .aboutToBeDequeued job) :
    ∀ later ∈ (exec F thread op d).2, later.loop? = none := by
  cases op with
  | stopElements collection => exact absurd rfl (hstop collection)
  | dequeueElements collection locked => exact absurd rfl (helements collection locked)
  | aboutToBeDequeued job => exact absurd rfl (hhook job)
  | takeFirst candidates =>
      cases candidates with
      | nil => simp [exec, Op.loop?]
      | cons job candidates =>
          simp only [exec]
          split <;> simp [Op.loop?]
  | elementFinished collection job =>
      simp only [exec]
      split
      · split
        · simp [Op.loop?]
        · split <;> simp [Op.loop?, or_imp, forall_and]
      · simp [Op.loop?]
  | processCompletedElement collection job =>
      simp only [exec]
      split
      · split <;> simp [Op.loop?]
      · simp [Op.loop?]
  | dequeueElement collection element locked =>
      simp only [exec, elementDequeued]
      split <;> [split <;> split; split] <;> simp [Op.loop?]
  | enqueue _ | advance _ _ | abortElements _ =>
      simp [exec, Op.loop?, or_imp, forall_and]
  | setRunning job =>
      simp only [exec, setInRun]
      simp [Op.loop?, or_imp, forall_and]
  | elementStarted collection =>
      simp only [exec, beginElement]
      split <;> simp [Op.loop?, or_imp, forall_and]
  | execute job =>
      simp only [exec, beginElement]
      split <;> simp [Op.loop?, or_imp, forall_and]
  | finish | run _ | defaultEnd _ | countDown _ _ | stop _ | dequeueSelf _ | requestAbort _
  | abortElement _ =>
      simp only [exec]
      split <;> simp [Op.loop?]
  | _ => simp [exec, Op.loop?]

variable {s : State J P T σ} {thread : Thread T} {op : Op J} {rest : List (Op J)}
  {collection element : J}

/-- A loop begins only when its thread gets the mutex of the collection. -/
theorem State.Sound.exec_loops (hs : s.Sound F) (hstack : s.stack thread = op :: rest)
    (hfree : ∀ mutex, wants F op = some mutex → s.data.holder mutex = none)
    (h : Stacked Loops (s.stack thread)) :
    Stacked Loops ((exec F thread op s.data).2 ++ rest) := by
  have hnone : ∀ collection, s.data.holder (.job collection) = none →
      ∀ op ∈ rest, op.loop? ≠ some collection := by
    intro collection hholder below hbelow hloop
    have hmem : below ∈ s.stack thread := hstack ▸ List.mem_cons_of_mem _ hbelow
    have hreleases : Releases (.job collection) (s.stack thread) := by
      rcases Loops.releases h hmem hloop with hunlock | hreset
      · exact ⟨_, hunlock, by simp [Op.locks]⟩
      · exact ⟨_, hreset, by simp [Op.locks]⟩
    rw [hs.holder_eq hreleases] at hholder
    cases hholder
  rw [hstack] at h
  obtain ⟨hop, hrest⟩ := h
  have hother : (∀ collection, op ≠ .stopElements collection) →
      (∀ collection locked, op ≠ .dequeueElements collection locked) →
      (∀ job, op ≠ .aboutToBeDequeued job) →
      Stacked Loops ((exec F thread op s.data).2 ++ rest) := by
    intro hstop helements hhook
    refine Stacked.append (fun later hlater above => ?_) hrest
    exact loops_of_none (exec_loop?_eq_none hstop helements hhook later hlater)
  cases op with
  | stopElements collection =>
      refine ⟨⟨.inl List.mem_cons_self, ?_⟩, trivial, hrest⟩
      exact List.forall_mem_cons.mpr ⟨by simp [Op.loop?], hnone collection (hfree _ rfl)⟩
  | aboutToBeDequeued job =>
      by_cases hkind : F.kind job = .plain
      · simp only [exec, if_pos hkind]
        exact hrest
      · simp only [exec, if_neg hkind]
        have hfreed : s.data.holder (.job job) = none := hfree _ rfl
        refine ⟨⟨.inr List.mem_cons_self, ?_⟩, trivial, hrest⟩
        exact List.forall_mem_cons.mpr ⟨by simp [Op.loop?], hnone job hfreed⟩
  | dequeueElements collection locked =>
      simp only [exec]
      split
      · rw [List.append_assoc]
        exact Stacked.map_append (fun _ _ above => by simp [Loops]) ⟨hop, hrest⟩
      · exact hrest
  | _ => exact hother (by simp) (by simp) (by simp)

omit [DecidableEq P] in
/-- While a loop goes through the elements of a collection none of them is on its way to the
queue. -/
theorem State.Sound.not_pending (hs : s.Sound F) (h : Stacked Loops (s.stack thread))
    (hop : op ∈ s.stack thread) (hloop : op.loop? = some collection)
    (hparent : F.parent element = some collection) (other : Thread T) :
    s.data.place element ≠ .held .pending other := by
  intro hpending
  -- the thread that enqueues the element keeps the mutex of the collection as well
  have hcompletes := hs.of_pending hparent hpending
  have hlocks : (.job collection, ()) ∈
      (Op.processCompletedElement collection collection).locks := by simp [Op.locks]
  have hunique : ∀ later ∈ s.stack thread, (.job collection, ()) ∈ later.locks →
      later = .processCompletedElement collection collection := by
    intro later hlater howes
    obtain ⟨rfl, -⟩ := hs.locks.thread_unique hlater howes hcompletes hlocks
    exact hs.locks.op_unique hcompletes hlocks hlater howes
  rcases Loops.releases h hop hloop with hunlock | hreset
  · have heq := hunique _ hunlock (by simp [Op.locks])
    cases heq
  · have heq := hunique _ hreset (by simp [Op.locks])
    cases heq

omit [DecidableEq P] in
theorem State.Sound.late_of_counter (hs : s.Sound F) (hone : s.data.jobCounter collection = 1) :
    (s.data.place collection).isLate = true := by
  by_contra hnot
  have hnone := hs.books.not_opened (by simpa [Data.books] using hnot)
  have := hs.books.unopened collection hnone
  simp only [Data.books] at this
  omega

omit [DecidableEq P] in
theorem State.Sound.opened_of_enqueued (hs : s.Sound F)
    (hparent : F.parent element = some collection)
    (hplace : (s.data.place element).isEnqueued = true) :
    s.data.opened collection = true := by
  refine hs.books.opened_of_ne_fresh hparent fun hfresh => ?_
  rw [show s.data.place element = .fresh from hfresh] at hplace
  cases hplace

end Exec

/-! ## What waits -/

/-- A collection waits in the queue or is about to open. -/
def Place.isAhead : Place T → Bool
  | queued | held .assigned _ | held .executing _ => true
  | _ => false

/-- A loop goes through all that waits, and whatever waits knows the queue. -/
structure State.Enqueuing (F : Forest J P σ) (s : State J P T σ) : Prop where
  loops : ∀ thread, Stacked Loops (s.stack thread)
  listed : ∀ thread collection element, .checkLast collection ∈ s.stack thread →
    F.parent element = some collection → (s.data.place element).isEnqueued = true →
    ∃ locked, .dequeueElement collection element locked ∈ s.stack thread
  ahead : ∀ collection, F.kind collection ≠ .plain →
    (s.data.place collection).isAhead = true → s.data.api collection = true
  api : ∀ collection element, F.parent element = some collection →
    (s.data.place element).isEnqueued = true → s.data.api collection = true

section Step

variable [DecidableEq J] [DecidableEq P] {F : Forest J P σ} {s : State J P T σ}
  {thread : Thread T} {op : Op J} {rest : List (Op J)} {collection element : J}

/-- **Inversion.**  What waits after an operation waited before, or the operation is the one
that hands it to the queue. -/
theorem State.Sound.exec_isEnqueued (hs : s.Sound F) (hstack : s.stack thread = op :: rest)
    (hfree : ∀ mutex, wants F op = some mutex → s.data.holder mutex = none)
    (hparent : F.parent element = some collection)
    (hafter : ((exec F thread op s.data).1.place element).isEnqueued = true) :
    (s.data.place element).isEnqueued = true ∨
      op = .elementFinished collection collection ∧
        s.data.place collection = .held .executing thread ∧
        s.data.shouldAbort collection = false := by
  rcases hs.exec_place hstack hfree element with hsame | hmoves
  · exact .inl (hsame ▸ hafter)
  · generalize s.data.place element = before at hmoves ⊢
    generalize (exec F thread op s.data).1.place element = after at hafter hmoves
    cases hmoves with
    | enqueued => exact .inl rfl
    | pending howner hplace habort =>
        cases howner.symm.trans hparent
        exact .inr ⟨rfl, hplace, habort⟩
    | _ => cases hafter

/-- A turn of the loop leaves no element behind that waits. -/
theorem State.Sound.dequeueElement_takes (hs : s.Sound F) {locked : Bool}
    (hloops : Stacked Loops (s.stack thread))
    (hstack : s.stack thread = .dequeueElement collection element locked :: rest)
    (hfree : ∀ mutex, wants F (.dequeueElement collection element locked) = some mutex →
      s.data.holder mutex = none) :
    ((exec F thread (.dequeueElement collection element locked) s.data).1.place
      element).isEnqueued = false := by
  have hop : .dequeueElement collection element locked ∈ s.stack thread := by
    rw [hstack]
    exact List.mem_cons_self
  obtain ⟨-, -, -, hparent, -⟩ := hs.fits hop
  by_cases hmem : element ∈ s.data.assignments
  · cases locked with
    | true => exact absurd hmem (hs.notMem_of_hook hop rfl)
    | false =>
        have hplace : (exec F thread (.dequeueElement collection element false) s.data).1.place
            element = .held .taken thread := by
          simp only [exec, if_pos hmem]
          exact Function.update_self _ _ _
        rw [hplace]
        rfl
  · have hplace : (exec F thread (.dequeueElement collection element locked) s.data).1.place =
        s.data.place := by
      simp only [exec, if_neg hmem]
    rw [hplace]
    by_contra hyes
    cases hcase : s.data.place element with
    | queued => exact hmem (hs.queued element hcase)
    | held stage other =>
        cases stage with
        | pending => exact hs.not_pending hloops hop rfl hparent other hcase
        | _ => simp [hcase, Place.isEnqueued] at hyes
    | _ => simp [hcase, Place.isEnqueued] at hyes

theorem exec_checkLast {d : Data J P T σ} (hparent : F.parent element = some collection)
    (hlast : .checkLast collection ∈ (exec F thread op d).2) :
    ∃ locked, .dequeueElement collection element locked ∈ (exec F thread op d).2 := by
  have hnone : (∀ later ∈ (exec F thread op d).2, later.loop? = none) →
      ∃ locked, .dequeueElement collection element locked ∈ (exec F thread op d).2 := by
    intro hnone
    cases hnone _ hlast
  cases op with
  | stopElements head => simp [exec] at hlast
  | aboutToBeDequeued head =>
      simp only [exec] at hlast
      split at hlast <;> simp at hlast
  | dequeueElements head locked =>
      simp only [exec] at hlast ⊢
      split at hlast
      · rename_i hapi
        obtain rfl : collection = head := by simpa using hlast
        refine ⟨locked, ?_⟩
        simpa [hapi] using (F.mem_elements _ _).mpr hparent
      · cases hlast
  | _ => exact hnone (exec_loop?_eq_none (by simp) (by simp) (by simp))

omit [DecidableEq P] in
theorem State.Sound.not_opening (hs : s.Sound F) {other : Thread T} {below : Op J}
    (hloops : Stacked Loops (s.stack other)) (hbelow : below ∈ s.stack other)
    (hloop : below.loop? = some collection)
    (hfree : s.data.holder (.job collection) = none) : False := by
  have hreleases : Releases (.job collection) (s.stack other) := by
    rcases Loops.releases hloops hbelow hloop with hunlock | hreset
    · exact ⟨_, hunlock, by simp [Op.locks]⟩
    · exact ⟨_, hreset, by simp [Op.locks]⟩
  rw [hs.holder_eq hreleases] at hfree
  cases hfree

/-- When a collection comes to its end, all of its elements are counted. -/
theorem State.Sound.counted_of_countDown (hs : s.Sound F) {job : J}
    (hstack : s.stack thread = .countDown collection job :: rest)
    (hfree : ∀ mutex, wants F (.countDown collection job) = some mutex →
      s.data.holder mutex = none)
    (hone : s.data.jobCounter collection = 1) (hparent : F.parent element = some collection) :
    ((exec F thread (.countDown collection job) s.data).1.place element).isCounted = true := by
  have hover : ((exec F thread (.countDown collection job) s.data).1.place
      collection).isOver = true := by
    rw [exec_countDown_last hone]
    simp [Data.unlock, Data.moveTo, Place.isOver]
  have hlawful : (exec F thread (.countDown collection job) s.data).1.books.Lawful F := by
    rcases hs.exec_move hstack hfree (Books.Discipline.any_covers _ _) with hsame | hmove
    · exact hsame ▸ hs.books
    · exact hs.books.move hmove
  by_contra hnot
  have hnotOver := hlawful.not_over hparent (by simpa [Data.books] using hnot)
  rw [show (exec F thread (.countDown collection job) s.data).1.books.place =
    (exec F thread (.countDown collection job) s.data).1.place from rfl, hover] at hnotOver
  cases hnotOver

namespace State.Enqueuing

theorem exec_api (he : s.Enqueuing F) (hs : s.Sound F) (hstack : s.stack thread = op :: rest)
    (hfree : ∀ mutex, wants F op = some mutex → s.data.holder mutex = none)
    (hparent : F.parent element = some collection)
    (hafter : ((exec F thread op s.data).1.place element).isEnqueued = true) :
    (exec F thread op s.data).1.api collection = true := by
  have hop : op ∈ s.stack thread := by
    rw [hstack]
    exact List.mem_cons_self
  rcases hs.exec_isEnqueued hstack hfree hparent hafter with hbefore | ⟨rfl, hplace, -⟩
  · have hopened := hs.opened_of_enqueued hparent hbefore
    rcases exec_setsApi F thread op s.data collection with ⟨hsame, -⟩ | hsets
    · rw [hsame]
      exact he.api collection element hparent hbefore
    · generalize hvalue : (exec F thread op s.data).1.api collection = value at hsets ⊢
      cases hsets with
      | enqueueJob _ => rfl
      | @countDown _ job hone =>
          have hcounted := hs.counted_of_countDown hstack hfree hone hparent
          rw [Place.not_counted_of_isEnqueued hafter] at hcounted
          cases hcounted
      | checkLast hone =>
          obtain ⟨locked, hturn⟩ := he.listed thread collection element hop hparent hbefore
          have hloops := he.loops thread
          rw [hstack] at hturn hloops
          rcases List.mem_cons.mp hturn with heq | hturn
          · cases heq
          · exact absurd rfl (hloops.1.2 _ hturn)
      | resetApi =>
          have hlate : (s.data.place collection).isLate = false := by
            have hfits := hs.layout thread
            rw [hstack] at hfits
            have htakeAt : .takeAt collection ∈ s.stack thread :=
              hstack ▸ List.mem_cons_of_mem _ hfits.1
            rcases (hs.of_takeAt htakeAt).2 with hplace | hplace <;> rw [hplace] <;> rfl
          have hnone := hs.books.not_opened hlate
          rw [show s.data.opened collection = false from hnone] at hopened
          cases hopened
  · rcases exec_setsApi F thread (.elementFinished collection collection) s.data collection with
      ⟨hsame, -⟩ | hsets
    · rw [hsame]
      refine he.ahead collection (Books.Lawful.kind_ne_plain hparent) ?_
      rw [hplace]
      rfl
    · generalize (exec F thread (.elementFinished collection collection) s.data).1.api
        collection = value at hsets
      cases hsets

theorem exec_ahead (he : s.Enqueuing F) (hs : s.Sound F) (hstack : s.stack thread = op :: rest)
    (hfree : ∀ mutex, wants F op = some mutex → s.data.holder mutex = none)
    (hkind : F.kind collection ≠ .plain)
    (hafter : ((exec F thread op s.data).1.place collection).isAhead = true) :
    (exec F thread op s.data).1.api collection = true := by
  -- a collection that stays ahead keeps its `api`
  have hkeeps : (s.data.place collection).isAhead = true →
      (exec F thread op s.data).1.api collection = true := by
    intro hbefore
    have hlate : (s.data.place collection).isLate = false := by
      cases hplace : s.data.place collection with
      | held stage _ => cases stage <;> simp_all [Place.isAhead, Place.isLate]
      | _ => simp_all [Place.isAhead, Place.isLate]
    rcases exec_setsApi F thread op s.data collection with ⟨hsame, -⟩ | hsets
    · rw [hsame]
      exact he.ahead collection hkind hbefore
    · generalize (exec F thread op s.data).1.api collection = value at hsets ⊢
      cases hsets with
      | enqueueJob _ => rfl
      | countDown hone | checkLast hone =>
          rw [hs.late_of_counter hone] at hlate
          cases hlate
      | resetApi =>
          have hfits := hs.layout thread
          rw [hstack] at hfits
          have htakeAt : .takeAt collection ∈ s.stack thread :=
            hstack ▸ List.mem_cons_of_mem _ hfits.1
          rcases (hs.of_takeAt htakeAt).2 with hplace | hplace <;>
            simp [hplace, Place.isAhead] at hbefore
  rcases hs.exec_place hstack hfree collection with hsame | hmoves
  · exact hkeeps (hsame ▸ hafter)
  · generalize hbefore : s.data.place collection = before at hmoves
    generalize (exec F thread op s.data).1.place collection = after at hafter hmoves
    cases hmoves with
    | enqueued => simp [exec, Data.enqueueJob, hkind, Data.record, Data.moveTo, Data.setStatus]
    | assigned | started => exact hkeeps (by rw [hbefore]; rfl)
    | _ => cases hafter

variable [DecidableEq T]

theorem exec_listed (he : s.Enqueuing F) (hs : s.Sound F) (hstack : s.stack thread = op :: rest)
    (hfree : ∀ mutex, wants F op = some mutex → s.data.holder mutex = none)
    {other : Thread T} (hparent : F.parent element = some collection)
    (hlast : .checkLast collection ∈
      Function.update s.stack thread ((exec F thread op s.data).2 ++ rest) other)
    (hafter : ((exec F thread op s.data).1.place element).isEnqueued = true) :
    ∃ locked, .dequeueElement collection element locked ∈
      Function.update s.stack thread ((exec F thread op s.data).2 ++ rest) other := by
  -- the loop was there before
  have hold : .checkLast collection ∈ s.stack other →
      ∃ locked, .dequeueElement collection element locked ∈
        Function.update s.stack thread ((exec F thread op s.data).2 ++ rest) other := by
    intro hbefore
    rcases hs.exec_isEnqueued hstack hfree hparent hafter with hwaits | ⟨rfl, -, -⟩
    · obtain ⟨locked, hturn⟩ := he.listed other collection element hbefore hparent hwaits
      refine ⟨locked, ?_⟩
      by_cases hother : other = thread
      · subst hother
        refine mem_update_stack hstack ?_ hturn
        rintro rfl
        rw [hs.dequeueElement_takes (he.loops _) hstack hfree] at hafter
        cases hafter
      · rwa [Function.update_of_ne hother]
    · exact (hs.not_opening (he.loops other) hbefore rfl (hfree _ rfl)).elim
  by_cases hother : other = thread
  · subst hother
    rw [Function.update_self] at hlast
    rcases List.mem_append.mp hlast with hnew | hrest
    · obtain ⟨locked, hturn⟩ := exec_checkLast hparent hnew
      refine ⟨locked, ?_⟩
      rw [Function.update_self]
      exact List.mem_append_left _ hturn
    · exact hold (hstack ▸ List.mem_cons_of_mem _ hrest)
  · rw [Function.update_of_ne hother] at hlast
    exact hold hlast

theorem runThread {next : State J P T σ} (he : s.Enqueuing F) (hs : s.Sound F)
    (h : s.runThread F thread = some next) : next.Enqueuing F := by
  obtain ⟨op, rest, hstack, hfree, rfl⟩ := State.runThread_eq_some h
  refine ⟨fun other => ?_, ?_, ?_, ?_⟩
  · dsimp only
    by_cases hother : other = thread
    · rw [hother, Function.update_self]
      exact hs.exec_loops hstack hfree (he.loops thread)
    · rw [Function.update_of_ne hother]
      exact he.loops other
  · intro other collection element hlast hparent hafter
    exact he.exec_listed hs hstack hfree hparent hlast hafter
  · intro collection hkind hafter
    exact he.exec_ahead hs hstack hfree hkind hafter
  · intro collection element hparent hafter
    exact he.exec_api hs hstack hfree hparent hafter

omit [DecidableEq J] [DecidableEq P] in
theorem beginCall {next : State J P T σ} (he : s.Enqueuing F) {caller : T} {ops : List (Op J)}
    (h : s.beginCall caller ops = some next) (hops : ∀ op ∈ ops, op.loop? = none) :
    next.Enqueuing F := by
  obtain ⟨-, rfl⟩ := State.beginCall_eq_some h
  refine ⟨fun other => ?_, ?_, he.ahead, he.api⟩
  · dsimp only
    by_cases hother : other = .caller caller
    · rw [hother, Function.update_self, ← List.append_nil ops]
      exact Stacked.append (fun op hop _ => loops_of_none (hops op hop)) trivial
    · rw [Function.update_of_ne hother]
      exact he.loops other
  · intro other collection element hlast hparent hplace
    dsimp only at hlast ⊢
    by_cases hother : other = .caller caller
    · rw [hother, Function.update_self] at hlast
      cases hops _ hlast
    · rw [Function.update_of_ne hother] at hlast ⊢
      exact he.listed other collection element hlast hparent hplace

omit [DecidableEq P] [DecidableEq T] in
theorem takeUp (he : s.Enqueuing F) {jobs : List J}
    (hjobs : ∀ job ∈ jobs, F.parent job = none ∧ s.data.place job = .fresh) :
    (s.takeUp thread jobs).Enqueuing F := by
  have hplace : ∀ {job collection : J}, F.parent job = some collection →
      (s.takeUp thread jobs).data.place job = s.data.place job := by
    intro job collection hparent
    refine if_neg fun hmem => ?_
    rw [(hjobs job hmem).1] at hparent
    cases hparent
  refine ⟨he.loops, ?_, ?_, ?_⟩
  · intro other collection element hlast hparent hwaits
    rw [hplace hparent] at hwaits
    exact he.listed other collection element hlast hparent hwaits
  · intro collection hkind hahead
    simp only [State.takeUp] at hahead
    split at hahead
    · cases hahead
    · exact he.ahead collection hkind hahead
  · intro collection element hparent hwaits
    rw [hplace hparent] at hwaits
    exact he.api collection element hparent hwaits

theorem step {next : State J P T σ} (he : s.Enqueuing F) (hs : s.Sound F) {act : Act J T}
    (h : step F s act = some next) : next.Enqueuing F := by
  refine step_rule he (fun _ _ => he.runThread hs) (fun _ _ _ => he.takeUp)
    (fun _ _ hbefore hbegin => hbefore.beginCall hbegin ?_) h
  cases act <;> simp [Act.ops, Op.loop?]

end State.Enqueuing

omit [DecidableEq J] [DecidableEq P] in
theorem enqueuing_init (start : Weaver.Start J P σ) :
    (init start : State J P T σ).Enqueuing F where
  loops thread := by cases thread <;> simp [init, Stacked, Loops]
  listed thread collection element h := by cases thread <;> simp [init] at h
  ahead collection _ h := by cases h
  api collection element _ h := by cases h

/-- **In every run, what waits knows the queue.** -/
theorem runs_enqueuing [DecidableEq T] {ok : State J P T σ → Act J T → Prop} {start : Weaver.Start J P σ}
    (run : Runs F ok start s) : s.Enqueuing F := by
  induction run with
  | refl => exact enqueuing_init start
  | tail run _ hstep ih => exact ih.step (runs_sound run) hstep

end Step

end ThreadWeaver.Collection
