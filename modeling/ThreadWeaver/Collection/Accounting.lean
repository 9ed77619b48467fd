import ThreadWeaver.Collection.Dequeued

/-!
# The account of the elements

A collection that has opened counts on each of its elements until the element has been executed
or the collection has dequeued it.  When nobody is in the functions of the collection, such an
element is in the queue, or has been assigned and not been counted, or is gone
(`State.Sound.account`).  Elements are gone when something else than the collection takes them
out of the queue, and then the collection waits for them for ever.
-/

namespace ThreadWeaver.Collection

variable {J P T σ : Type*}

/-- The job has been assigned, and the collection that it is an element of has not counted it. -/
def Place.isAtWork : Place T → Bool
  | held .assigned _ | held .executing _ | held .closing _ | held .ending _
  | held .reporting _ | waiting => true
  | _ => false

namespace Data

variable [DecidableEq J] (F : Forest J P σ) (collection : J) (d : Data J P T σ)

/-- The elements of the collection that are in the queue. -/
def elementsInQueue : ℕ :=
  (F.elements collection).countP fun element => element ∈ d.assignments

/-- The elements of the collection that have been assigned and not been counted. -/
def elementsAtWork : ℕ :=
  (F.elements collection).countP fun element => (d.place element).isAtWork

/-- The elements of the collection that are gone. -/
def elementsGone : ℕ :=
  (F.elements collection).countP fun element =>
    (d.place element).isGone && element ∉ d.assignments

end Data

/-- What is counted is counted for one of three reasons. -/
private theorem countP_eq_add {p q r t : J → Bool} {jobs : List J}
    (h : ∀ job ∈ jobs, (p job).toNat = (q job).toNat + (r job).toNat + (t job).toNat) :
    jobs.countP p = jobs.countP q + jobs.countP r + jobs.countP t := by
  induction jobs with
  | nil => rfl
  | cons job rest ih =>
      rw [List.forall_mem_cons] at h
      have hone : ∀ f : J → Bool, (job :: rest).countP f = rest.countP f + (f job).toNat := by
        intro f
        rw [List.countP_cons]
        cases f job <;> rfl
      rw [hone, hone, hone, hone, ih h.2, h.1]
      omega

section Sound

variable [DecidableEq J] {F : Forest J P σ} {s : State J P T σ} {collection element : J}

namespace State.Sound

theorem place_of_mem (hs : s.Sound F) (hmem : element ∈ s.data.assignments) :
    s.data.place element = .queued ∨ (∃ thread, s.data.place element = .held .taken thread) ∨
      ∃ thread, s.data.place element = .held .leaving thread := by
  rcases hs.listed element hmem with hqueued | ⟨thread, htaken⟩
  · exact .inl hqueued
  · rcases (hs.of_takeAt htaken).2 with hplace | hplace
    · exact .inr (.inl ⟨thread, hplace⟩)
    · exact .inr (.inr ⟨thread, hplace⟩)

/-- An element of a collection that has opened is counted for one of four reasons, when nobody is
in the functions of the collection. -/
theorem account_element (hs : s.Sound F) (hopened : s.data.opened collection = true)
    (hfree : s.data.holder (.job collection) = none)
    (hparent : F.parent element = some collection) :
    (!(s.data.place element).isCounted).toNat =
      (decide (element ∈ s.data.assignments)).toNat + (s.data.place element).isAtWork.toNat +
        ((s.data.place element).isGone && element ∉ s.data.assignments).toNat := by
  -- a job that is where it cannot be in the queue
  have hnot : ∀ place, s.data.place element = place → place ≠ .queued →
      (∀ thread, place ≠ .held .taken thread) → (∀ thread, place ≠ .held .leaving thread) →
      element ∉ s.data.assignments := by
    rintro place rfl hqueued htaken hleaving hmem
    rcases hs.place_of_mem hmem with hplace | ⟨thread, hplace⟩ | ⟨thread, hplace⟩
    · exact hqueued hplace
    · exact htaken thread hplace
    · exact hleaving thread hplace
  cases hplace : s.data.place element with
  | fresh =>
      have hclosed := (hs.books.fresh collection element hparent).mp hplace
      rw [show s.data.books.opened collection = true from hopened] at hclosed
      cases hclosed
  | queued => simp [hs.queued element hplace, Place.isCounted, Place.isAtWork]
  | waiting | reported | discounted | lost =>
      simp [hnot _ hplace, Place.isCounted, Place.isAtWork, Place.isGone]
  | held stage thread =>
      cases stage with
      | pending =>
          have hreleases : Releases (.job collection) (s.stack thread) :=
            ⟨_, hs.of_pending hparent hplace, by simp [Op.locks]⟩
          rw [hs.holder_eq hreleases] at hfree
          cases hfree
      | taken =>
          rw [hs.of_taken hparent hplace] at hfree
          cases hfree
      | leaving =>
          by_cases hmem : element ∈ s.data.assignments <;>
            simp [hmem, Place.isCounted, Place.isAtWork, Place.isGone]
      | assigned | executing | closing | ending | reporting =>
          simp [hnot _ hplace, Place.isCounted, Place.isAtWork, Place.isGone]

/-- **What the counter of a collection counts**, when nobody is in the functions of the
collection. -/
theorem account (hs : s.Sound F) (hopened : s.data.opened collection = true)
    (hfree : s.data.holder (.job collection) = none) :
    s.data.jobCounter collection =
      s.data.elementsInQueue F collection + s.data.elementsAtWork F collection +
        s.data.elementsGone F collection + (s.data.place collection).isClosing.toNat := by
  have hcounter : s.data.jobCounter collection =
      s.data.books.outstanding F collection + (s.data.place collection).isClosing.toNat :=
    hs.books.counter collection hopened
  have houtstanding : s.data.books.outstanding F collection =
      s.data.elementsInQueue F collection + s.data.elementsAtWork F collection +
        s.data.elementsGone F collection :=
    countP_eq_add fun element hmem =>
      hs.account_element hopened hfree ((F.mem_elements _ _).mp hmem)
  rw [hcounter, houtstanding]
  push_cast
  rfl

end State.Sound

end Sound

/-! ## Runs with calls that dequeue -/

section Runs

variable [DecidableEq J] [DecidableEq P] [DecidableEq T] {G : Program J P σ}
  {ok : QueueState J P T σ → QueueAct J T → Prop} {start : Weaver.Start J P σ}
  {s : QueueState J P T σ} {st : State J P T σ} {collection : J}

namespace QueueState.Seen

omit [DecidableEq P] in
theorem data_eq (h : s.Seen st) : st.data = { s.inner.data with place := st.data.place } := by
  cases h <;> rfl

omit [DecidableEq P] in
theorem place_eq (h : s.Seen st) (job : J) : st.data.place job = s.inner.data.place job ∨
    job ∈ s.inner.data.assignments ∧ ∃ caller,
      st.data.place job = .held .leaving (.caller caller) ∧ s.inner.WaitsUnder caller job := by
  cases h with
  | quiet => exact .inl rfl
  | @hooked caller index inside _ _ _ hplace =>
      by_cases hmem : job ∈ s.inner.data.assignments.take index
      · exact .inr ⟨List.mem_of_mem_take hmem, caller, if_pos hmem, hplace job hmem⟩
      · exact .inl (if_neg hmem)

omit [DecidableEq P] in
theorem account_eq (h : s.Seen st) (F : Forest J P σ) (collection : J) :
    st.data.elementsInQueue F collection = s.inner.data.elementsInQueue F collection ∧
      st.data.elementsAtWork F collection = s.inner.data.elementsAtWork F collection ∧
      st.data.elementsGone F collection = s.inner.data.elementsGone F collection ∧
      (st.data.place collection).isClosing = (s.inner.data.place collection).isClosing := by
  have hassignments : st.data.assignments = s.inner.data.assignments := by rw [h.data_eq]
  have hjob : ∀ job, (st.data.place job).isAtWork = (s.inner.data.place job).isAtWork ∧
      (st.data.place job).isClosing = (s.inner.data.place job).isClosing ∧
      ((st.data.place job).isGone && decide (job ∉ s.inner.data.assignments)) =
        ((s.inner.data.place job).isGone && decide (job ∉ s.inner.data.assignments)) := by
    intro job
    rcases h.place_eq job with hsame | ⟨hmem, caller, hseen, hqueued | hheld⟩
    · simp [hsame]
    · simp [hseen, hqueued, hmem, Place.isAtWork, Place.isClosing]
    · simp [hseen, hheld]
  refine ⟨?_, ?_, ?_, (hjob collection).2.1⟩
  · unfold Data.elementsInQueue
    rw [hassignments]
  · unfold Data.elementsAtWork
    exact List.countP_congr fun element _ => by rw [(hjob element).1]
  · unfold Data.elementsGone
    rw [hassignments]
    exact List.countP_congr fun element _ => by rw [(hjob element).2.2]

end QueueState.Seen

/-- **The account of every run**: the counter of a collection that has opened is the number of
its elements in the queue, at work and gone, and one more until its own job is counted. -/
theorem queueRuns_account (hrun : QueueRuns G ok start s)
    (hopened : s.inner.data.opened collection = true)
    (hfree : s.inner.data.holder (.job collection) = none) :
    s.inner.data.jobCounter collection =
      s.inner.data.elementsInQueue G.toForest collection +
        s.inner.data.elementsAtWork G.toForest collection +
        s.inner.data.elementsGone G.toForest collection +
        (s.inner.data.place collection).isClosing.toNat := by
  obtain ⟨st, hseen, hs, -⟩ := queueRuns_seen (p := fun _ => False) hrun (by simp)
  obtain ⟨hqueue, hwork, hgone, hclosing⟩ := hseen.account_eq G.toForest collection
  have hdata := hseen.data_eq
  have hopened' : st.data.opened collection = true := by
    rw [hdata]
    exact hopened
  have hfree' : st.data.holder (.job collection) = none := by
    rw [hdata]
    exact hfree
  have haccount := hs.account hopened' hfree'
  rw [hqueue, hwork, hgone, hclosing, hdata] at haccount
  exact haccount

/-- No element of the collection is taken out of the queue other than by the collection. -/
def KeepsElements (G : Program J P σ) (collection : J) (s : QueueState J P T σ)
    (act : QueueAct J T) : Prop :=
  ∀ element ∈ G.elements collection, ¬ TakesOut s act element

instance (G : Program J P σ) (collection : J) (s : QueueState J P T σ) (act : QueueAct J T) :
    Decidable (KeepsElements G collection s act) := by
  unfold KeepsElements
  infer_instance

theorem elementsGone_eq_zero (hrun : QueueRuns G (KeepsElements G collection) start s) :
    s.inner.data.elementsGone G.toForest collection = 0 := by
  obtain ⟨st, hseen, -, hkept⟩ := queueRuns_seen (p := (· ∈ G.elements collection)) hrun
    fun state act hact => hact
  refine List.countP_eq_zero.mpr fun element helement => ?_
  rw [Bool.and_eq_true, decide_eq_true_eq]
  rintro ⟨hgone, hnot⟩
  refine hkept element helement (.inl ?_)
  rcases hseen.place_eq element with hsame | ⟨hmem, -⟩
  · rwa [hsame]
  · exact absurd hmem hnot

theorem queueRuns_jobCounter_nonneg (hrun : QueueRuns G ok start s)
    (hopened : s.inner.data.opened collection = true) :
    0 ≤ s.inner.data.jobCounter collection := by
  obtain ⟨st, hseen, hs, -⟩ := queueRuns_seen (p := fun _ => False) hrun (by simp)
  have hdata := hseen.data_eq
  have hopened' : st.data.opened collection = true := by
    rw [hdata]
    exact hopened
  have hcounter : st.data.jobCounter collection =
      st.data.books.outstanding G.toForest collection +
        (st.data.place collection).isClosing.toNat := hs.books.counter collection hopened'
  have hsame : st.data.jobCounter collection = s.inner.data.jobCounter collection := by
    rw [hdata]
  omega

/-- **The account of a collection whose elements are kept**: its counter is the number of its
elements in the queue and at work, and one more until its own job is counted. -/
theorem jobCounter_eq_of_keepsElements (hrun : QueueRuns G (KeepsElements G collection) start s)
    (hopened : s.inner.data.opened collection = true) :
    0 ≤ s.inner.data.jobCounter collection ∧
      (s.inner.data.holder (.job collection) = none →
        s.inner.data.jobCounter collection =
          s.inner.data.elementsInQueue G.toForest collection +
            s.inner.data.elementsAtWork G.toForest collection +
            (s.inner.data.place collection).isClosing.toNat) := by
  refine ⟨queueRuns_jobCounter_nonneg hrun hopened, fun hfree => ?_⟩
  have haccount := queueRuns_account hrun hopened hfree
  rw [elementsGone_eq_zero hrun] at haccount
  simpa using haccount

end Runs

/-- The Collection in a Collection and the plain jobs, in decorators. -/
def decoratedNest : Program (Fin 7) Empty Unit where
  toForest := nestAndJobs
  pointer job := .decorator (.job job)
  decorated_pointer _ := rfl

/-- The inner Collection is stopped while one of its elements is executed and two are in the queue,
and job `5` is dequeued, enqueued again and dequeued with everything in the queue. -/
theorem jobCounter_eq_of_keepsElements_nested : ∃ s : QueueState (Fin 7) Empty Unit Unit,
    s.inner.data.log.count (.dequeued 5) = 2 ∧
      .dequeued 3 ∈ s.inner.data.log ∧ .dequeued 4 ∈ s.inner.data.log ∧
      s.inner.data.elementsAtWork nestAndJobs 1 = 1 ∧ 0 ≤ s.inner.data.jobCounter 1 ∧
      s.inner.data.jobCounter 1 = s.inner.data.elementsInQueue nestAndJobs 1 +
        s.inner.data.elementsAtWork nestAndJobs 1 + (s.inner.data.place 1).isClosing.toNat := by
  obtain ⟨s, hrun, hopened, hfree, htaken, hthree, hfour, hwork⟩ :
      ∃ s : QueueState (Fin 7) Empty Unit Unit,
        QueueRuns decoratedNest (KeepsElements decoratedNest 1) (.plain ()) s ∧ _ :=
    Library.exists_runWhere
      (fun s => s.inner.data.opened 1 = true ∧ s.inner.data.holder (.job 1) = none ∧
        s.inner.data.log.count (.dequeued 5) = 2 ∧ .dequeued 3 ∈ s.inner.data.log ∧
        .dequeued 4 ∈ s.inner.data.log ∧ s.inner.data.elementsAtWork nestAndJobs 1 = 1)
      (List.flatten [[.inner (.enqueue () [0, 5])], List.replicate 4 (.inner (.run (.caller ()))),
        List.replicate 2 (.inner (.run (.worker 0))), [.setJob 0],
        List.replicate 11 (.inner (.run (.worker 0))), [.clearJob 0, .dequeue () 5],
        List.replicate 4 (.inner (.run (.caller ()))),
        List.replicate 2 (.inner (.run (.worker 0))), [.setJob 0],
        List.replicate 15 (.inner (.run (.worker 0))), [.clearJob 0],
        List.replicate 2 (.inner (.run (.worker 0))), [.setJob 0],
        List.replicate 3 (.inner (.run (.worker 0))), [.inner (.stop () 1)],
        List.replicate 17 (.inner (.run (.caller ()))), [.inner (.enqueue () [5])],
        List.replicate 3 (.inner (.run (.caller ()))),
        [.dequeueAll (), .proceed (), .inner (.run (.caller ())), .proceed (), .proceed ()]])
      (by decide +kernel)
  obtain ⟨hnonneg, haccount⟩ := jobCounter_eq_of_keepsElements hrun hopened
  exact ⟨s, htaken, hthree, hfour, hwork, hnonneg, haccount hfree⟩

/-- **`dequeue` of an element is not told to the collection.**  The element is neither in the
queue nor at work, and the collection counts on it for ever. -/
theorem not_jobCounter_eq : ¬ ∀ s : QueueState (Fin 2) Empty Unit Unit,
    QueueRuns decoratedPair (fun _ _ => True) (.plain ()) s → ∀ collection,
      s.inner.data.opened collection = true → s.inner.data.holder (.job collection) = none →
        s.inner.data.jobCounter collection = s.inner.data.elementsInQueue pair collection +
          s.inner.data.elementsAtWork pair collection +
          (s.inner.data.place collection).isClosing.toNat := by
  intro hall
  obtain ⟨s, hrun, hopened, hfree, hcounter, hnone⟩ : ∃ s : QueueState (Fin 2) Empty Unit Unit,
      QueueRuns decoratedPair (fun _ _ => True) (.plain ()) s ∧ _ :=
    Library.exists_runWhere
      (fun s => s.inner.data.opened 0 = true ∧ s.inner.data.holder (.job 0) = none ∧
        s.inner.data.jobCounter 0 = 1 ∧ s.inner.data.elementsInQueue pair 0 +
          s.inner.data.elementsAtWork pair 0 + (s.inner.data.place 0).isClosing.toNat = 0)
      (List.flatten [[.inner (.enqueue () [0])], List.replicate 3 (.inner (.run (.caller ()))),
        List.replicate 2 (.inner (.run (.worker 0))), [.setJob 0],
        List.replicate 11 (.inner (.run (.worker 0))), [.dequeue () 1],
        List.replicate 4 (.inner (.run (.caller ())))]) (by decide +kernel)
  have haccount := hall s hrun 0 hopened hfree
  omega

end ThreadWeaver.Collection
