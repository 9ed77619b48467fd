import ThreadWeaver.WrappedQueue

/-!
# Dequeueing and the memory of the jobs

`dequeue(job)` dequeues the elements of a collection before the collection itself, and the
elements of these before them.  `Dequeues` says what such calls leave alone: the jobs of a higher
rank stay in the list, and no counter changes but that of a collection that leaves the list after
an element of it.  `dequeueP_spec` is by induction on the depth of the nested hooks: the loop over
the elements first (`dequeueElements_foldl`), then the job itself (`leave`).
-/

namespace ThreadWeaver.WrappedQueue

variable {I J A : Type*} [DecidableEq I] {K : Interfaces I J}
  {once q mid next : WrappedQueue I J A} {job collection : J} {pointer : I}

/-! ## Dequeueing -/

/-- Jobs have been dequeued, none of them of rank `bound` or higher.  Of the `counted` jobs only
those have lost some of their counter that have been dequeued while an element of theirs was in
the list. -/
structure Dequeues (K : Interfaces I J) (bound : ℕ) (counted : J → Prop)
    (next q : WrappedQueue I J A) : Prop where
  sublist : next.assignments.Sublist q.assignments
  kept : ∀ pointer ∈ q.assignments, bound ≤ K.rank (K.decorated pointer) →
    pointer ∈ next.assignments
  assigned : next.assigned = q.assigned
  elements : ∀ job, (next.memory job).elements = (q.memory job).elements
  jobCounter : ∀ job, counted job →
    (next.Queued K job ∨ ¬ q.Queued K job ∨
      ∀ element ∈ (q.memory job).elements, element ∉ q.assignments) →
    (next.memory job).jobCounter = (q.memory job).jobCounter

namespace Dequeues

variable {bound higher : ℕ} {counted fewer : J → Prop}

omit [DecidableEq I] in
theorem refl (bound : ℕ) (counted : J → Prop) (q : WrappedQueue I J A) :
    Dequeues K bound counted q q :=
  ⟨.refl _, fun _ h _ => h, rfl, fun _ => rfl, fun _ _ _ => rfl⟩

omit [DecidableEq I] in
theorem mono (h : Dequeues K bound counted next q) (hbound : bound ≤ higher)
    (hcounted : ∀ job, fewer job → counted job) : Dequeues K higher fewer next q where
  sublist := h.sublist
  kept pointer hpointer hrank := h.kept pointer hpointer (hbound.trans hrank)
  assigned := h.assigned
  elements := h.elements
  jobCounter job hjob := h.jobCounter job (hcounted job hjob)

omit [DecidableEq I] in
theorem queued (h : Dequeues K bound counted next q) (hjob : next.Queued K job) :
    q.Queued K job :=
  let ⟨held, hheld, heq⟩ := hjob
  ⟨held, h.sublist.subset hheld, heq⟩

omit [DecidableEq I] in
theorem trans (hnext : Dequeues K bound counted next mid) (hmid : Dequeues K bound counted mid q) :
    Dequeues K bound counted next q where
  sublist := hnext.sublist.trans hmid.sublist
  kept pointer hpointer hrank := hnext.kept pointer (hmid.kept pointer hpointer hrank) hrank
  assigned := hnext.assigned.trans hmid.assigned
  elements job := (hnext.elements job).trans (hmid.elements job)
  jobCounter job hjob hcase := by
    have hfirst : (mid.memory job).jobCounter = (q.memory job).jobCounter :=
      hmid.jobCounter job hjob (hcase.imp_left hnext.queued)
    have hsecond : (next.memory job).jobCounter = (mid.memory job).jobCounter := by
      refine hnext.jobCounter job hjob (hcase.imp_right (Or.imp (mt hmid.queued) ?_))
      intro hnone element helement hmem
      rw [hmid.elements] at helement
      exact hnone element helement (hmid.sublist.subset hmem)
    exact hsecond.trans hfirst

omit [DecidableEq I] in
/-- What leaves the list alone does not dequeue. -/
theorem of_same (hlist : next.assignments = q.assignments)
    (hassigned : next.assigned = q.assigned)
    (helements : ∀ job, (next.memory job).elements = (q.memory job).elements)
    (hcounter : ∀ job, counted job →
      (next.memory job).jobCounter = (q.memory job).jobCounter) :
    Dequeues K bound counted next q where
  sublist := hlist ▸ .refl _
  kept _ hpointer _ := hlist ▸ hpointer
  assigned := hassigned
  elements := helements
  jobCounter job hjob _ := hcounter job hjob

end Dequeues

/-- What `dequeue(job)` does to a queue, and what it returns. -/
structure DequeueSpec (K : Interfaces I J) (once : WrappedQueue I J A) (pointer : I)
    (q : WrappedQueue I J A) (result : Bool × WrappedQueue I J A) : Prop where
  intact : Intact K once result.2
  found : pointer ∈ q.assignments →
    result.1 = true ∧ ¬ result.2.Queued K (K.decorated pointer)
  missed : pointer ∉ q.assignments → result = (false, q)
  dequeues : Dequeues K (K.rank (K.decorated pointer) + 1) (fun _ => True) result.2 q

variable [DecidableEq J] {dequeue : I → WrappedQueue I J A → Bool × WrappedQueue I J A}
  {element : I}

omit [DecidableEq I] in
theorem alike_modify {f : JobMemory I J A → JobMemory I J A} (hf : ∀ m, (f m).Alike m)
    (job other : J) (q : WrappedQueue I J A) :
    ((q.modify job f).memory other).Alike (q.memory other) := by
  by_cases hother : other = job
  · subst hother
    rw [modify_self]
    exact hf _
  · rw [modify_of_ne hother]
    exact .refl _

omit [DecidableEq I] in
/-- The turn of the loop, apart from the blocker. -/
theorem dequeueElement_alike (dequeue : I → WrappedQueue I J A → Bool × WrappedQueue I J A)
    (collection : J) (element : I) (q : WrappedQueue I J A) :
    (q.dequeueElement K dequeue collection element).assignments =
        (dequeue element q).2.assignments ∧
      (q.dequeueElement K dequeue collection element).assigned = (dequeue element q).2.assigned ∧
      ∀ job, ((q.dequeueElement K dequeue collection element).memory job).Alike
        ((dequeue element q).2.memory job) := by
  have hcount : ∀ (q : WrappedQueue I J A) (job : J),
      ((q.modify collection fun m => { m with jobCounter := m.jobCounter - 1 }).memory job).Alike
        (q.memory job) := by
    refine fun q job => alike_modify ?_ collection job q
    exact fun _ => ⟨rfl, rfl, rfl, rfl, rfl, rfl⟩
  have hunblock : ∀ (q : WrappedQueue I J A) (job : J),
      ((q.modify (K.decorated element) ({ · with isBlocked := false })).memory job).Alike
        (q.memory job) := by
    refine fun q job => alike_modify ?_ _ job q
    exact fun _ => ⟨rfl, rfl, rfl, rfl, rfl, rfl⟩
  unfold dequeueElement
  dsimp only
  split <;> split
  · exact ⟨rfl, rfl, fun job => (hunblock _ job).trans (hcount _ job)⟩
  · exact ⟨rfl, rfl, fun job => hunblock _ job⟩
  · exact ⟨rfl, rfl, fun job => hcount _ job⟩
  · exact ⟨rfl, rfl, fun job => .refl _⟩

omit [DecidableEq I] in
/-- The turn of the loop counts the element if it was found. -/
theorem dequeueElement_jobCounter
    (dequeue : I → WrappedQueue I J A → Bool × WrappedQueue I J A) (collection : J) (element : I)
    (q : WrappedQueue I J A) (job : J) :
    ((q.dequeueElement K dequeue collection element).memory job).jobCounter =
      ((dequeue element q).2.memory job).jobCounter -
        if job = collection ∧ (dequeue element q).1 then 1 else 0 := by
  have hunblock : ∀ q : WrappedQueue I J A,
      ((q.modify (K.decorated element) ({ · with isBlocked := false })).memory job).jobCounter =
        (q.memory job).jobCounter := by
    intro q
    by_cases hjob : job = K.decorated element
    · subst hjob
      rw [modify_self]
    · rw [modify_of_ne hjob]
  have hcount : ∀ q : WrappedQueue I J A,
      ((q.modify collection fun m => { m with jobCounter := m.jobCounter - 1 }).memory
          job).jobCounter =
        (q.memory job).jobCounter - if job = collection then 1 else 0 := by
    intro q
    by_cases hjob : job = collection
    · subst hjob
      rw [modify_self, if_pos rfl]
    · rw [modify_of_ne hjob, if_neg hjob, Int.sub_zero]
  unfold dequeueElement
  dsimp only
  split <;> split <;> simp_all

/-- One turn of the loop, for an element of a collection in the list. -/
theorem dequeueElement_spec {q : WrappedQueue I J A} (hcollection : q.Queued K collection)
    (hrank : K.rank (K.decorated element) < K.rank collection)
    (hspec : DequeueSpec K once element q (dequeue element q)) :
    Intact K once (q.dequeueElement K dequeue collection element) ∧
      Dequeues K (K.rank collection) (· ≠ collection)
        (q.dequeueElement K dequeue collection element) q ∧
      ((q.dequeueElement K dequeue collection element).memory collection).jobCounter =
        (q.memory collection).jobCounter - if element ∈ q.assignments then 1 else 0 := by
  obtain ⟨hlist, hassigned, halike⟩ :=
    dequeueElement_alike (K := K) dequeue collection element q
  have hcounter := dequeueElement_jobCounter (K := K) dequeue collection element q
  refine ⟨hspec.intact.of_alike hlist hassigned fun job => ⟨halike job, ?_⟩, ?_, ?_⟩
  · rw [hcounter]
    split <;> omega
  · refine Dequeues.trans (.of_same hlist hassigned (fun job => (halike job).elements) ?_)
      (hspec.dequeues.mono hrank fun _ _ => trivial)
    intro job hjob
    rw [hcounter, if_neg fun h => hjob h.1, Int.sub_zero]
  · have hqueued : (dequeue element q).2.Queued K collection := by
      obtain ⟨held, hheld, heq⟩ := hcollection
      exact ⟨held, hspec.dequeues.kept held hheld (by rw [heq]; exact hrank), heq⟩
    rw [hcounter, hspec.dequeues.jobCounter collection trivial (.inl hqueued)]
    by_cases hmem : element ∈ q.assignments
    · simp [hmem, (hspec.found hmem).1]
    · simp [hmem, hspec.missed hmem]

/-- **The loop of `dequeueElements`.** It counts as soon as an element is in the list, and only
then. -/
theorem dequeueElements_foldl (elements : List I)
    (hdequeue : ∀ element ∈ elements, ∀ q : WrappedQueue I J A, Intact K once q →
      DequeueSpec K once element q (dequeue element q))
    (hrank : ∀ element ∈ elements, K.rank (K.decorated element) < K.rank collection)
    {q : WrappedQueue I J A} (h : Intact K once q) (hcollection : q.Queued K collection) :
    let last := elements.foldl
      (fun q element => q.dequeueElement K dequeue collection element) q
    Intact K once last ∧ Dequeues K (K.rank collection) (· ≠ collection) last q ∧
      (last.memory collection).jobCounter ≤ (q.memory collection).jobCounter ∧
      ((last.memory collection).jobCounter = (q.memory collection).jobCounter ↔
        ∀ element ∈ elements, element ∉ q.assignments) := by
  induction elements generalizing q with
  | nil => exact ⟨h, .refl _ _ _, le_rfl, by simp⟩
  | cons element rest ih =>
      have hspec := hdequeue element List.mem_cons_self q h
      obtain ⟨hintact, hdequeues, hcounter⟩ :=
        dequeueElement_spec hcollection (hrank element List.mem_cons_self) hspec
      have hkept : (q.dequeueElement K dequeue collection element).Queued K collection := by
        obtain ⟨held, hheld, heq⟩ := hcollection
        exact ⟨held, hdequeues.kept held hheld (heq ▸ le_rfl), heq⟩
      obtain ⟨hlast, hrest, hle, hiff⟩ := ih
        (fun other hother => hdequeue other (List.mem_cons_of_mem element hother))
        (fun other hother => hrank other (List.mem_cons_of_mem element hother)) hintact hkept
      refine ⟨hlast, hrest.trans hdequeues, ?_, ?_⟩
      · rw [hcounter] at hle
        refine hle.trans ?_
        split <;> omega
      · by_cases hmem : element ∈ q.assignments
        · rw [hcounter, if_pos hmem] at hle
          refine ⟨fun heq => ?_, fun hnone => absurd hmem (hnone element List.mem_cons_self)⟩
          simp only [List.foldl_cons] at heq
          omega
        · have hsame : (q.dequeueElement K dequeue collection element).assignments =
              q.assignments := by
            rw [(dequeueElement_alike dequeue collection element q).1, hspec.missed hmem]
          rw [hcounter, if_neg hmem, Int.sub_zero, hsame] at hiff
          simpa [hmem] using hiff

/-- `Collection_Private::dequeueElements` of a collection in the list.  Its counter is not
positive, so that there is no `finalCleanup`. -/
theorem dequeueElements_spec
    (hdequeue : ∀ element ∈ (q.memory collection).elements, ∀ q : WrappedQueue I J A,
      Intact K once q → DequeueSpec K once element q (dequeue element q))
    (hrank : ∀ element ∈ (q.memory collection).elements,
      K.rank (K.decorated element) < K.rank collection)
    (h : Intact K once q) (hcollection : q.Queued K collection)
    (hkind : K.kind collection ≠ .plain) :
    Intact K once (q.dequeueElements K dequeue collection) ∧
      Dequeues K (K.rank collection) (· ≠ collection) (q.dequeueElements K dequeue collection) q ∧
      (((q.dequeueElements K dequeue collection).memory collection).jobCounter =
          (q.memory collection).jobCounter ↔
        ∀ element ∈ (q.memory collection).elements, element ∉ q.assignments) := by
  obtain ⟨hlast, hdequeues, hle, hiff⟩ :=
    dequeueElements_foldl (q.memory collection).elements hdequeue hrank h hcollection
  have hapi : (q.memory collection).api = true := by
    obtain ⟨number, -, halike⟩ := h.queued collection hcollection
    rw [halike.api, JobMemory.enqueued_api hkind]
  have hcounter := h.jobCounter collection (h.unassigned collection hcollection)
  have hsame : q.dequeueElements K dequeue collection = (q.memory collection).elements.foldl
      (fun q element => q.dequeueElement K dequeue collection element) q := by
    unfold dequeueElements
    rw [if_pos hapi]
    exact if_neg (by omega)
  rw [hsame]
  exact ⟨hlast, hdequeues, hiff⟩

/-- The end of `dequeue(job)`: the job has gone through its hook, except for its elements. -/
def leave (K : Interfaces I J) (pointer : I) (q : WrappedQueue I J A) : WrappedQueue I J A :=
  takeAt K pointer (if K.kind (K.decorated pointer) = .plain then q
    else q.modify (K.decorated pointer) (·.resetApi K))

theorem leave_self : (q.leave K pointer).memory (K.decorated pointer) =
    { (if K.kind (K.decorated pointer) = .plain then q.memory (K.decorated pointer)
        else (q.memory (K.decorated pointer)).resetApi K) with status := .new } := by
  unfold leave takeAt
  split <;> simp [modify]

theorem leave_of_ne (hne : job ≠ K.decorated pointer) :
    (q.leave K pointer).memory job = q.memory job := by
  unfold leave takeAt
  split <;> simp [modify, Function.update_of_ne hne]

theorem leave_assignments : (q.leave K pointer).assignments = q.assignments.erase pointer := by
  unfold leave takeAt
  split <;> rfl

theorem leave_assigned : (q.leave K pointer).assigned = q.assigned := by
  unfold leave takeAt
  split <;> rfl

theorem leave_elements (job : J) :
    ((q.leave K pointer).memory job).elements = (q.memory job).elements := by
  by_cases hne : job = K.decorated pointer
  · subst hne
    rw [leave_self]
    split <;> rfl
  · rw [leave_of_ne hne]

theorem leave_jobCounter (job : J) :
    ((q.leave K pointer).memory job).jobCounter = (q.memory job).jobCounter := by
  by_cases hne : job = K.decorated pointer
  · subst hne
    rw [leave_self]
    split <;> rfl
  · rw [leave_of_ne hne]

theorem Intact.leaves (hfresh : once.IsFresh K) (h : Intact K once q)
    (hmem : pointer ∈ q.assignments) : Intact K once (q.leave K pointer) := by
  obtain ⟨number, hnew, halike⟩ := h.queued (K.decorated pointer) ⟨pointer, hmem, rfl⟩
  refine h.leave hmem leave_assignments leave_assigned (fun job => leave_of_ne) ?_
    (leave_jobCounter _).le
  rw [leave_self]
  exact halike.dequeued (hfresh.bare _) hnew

/-- The hook of a job in the list, which dequeues its elements, and the end of `dequeue(job)`. -/
theorem aboutToBeDequeued_spec (dequeue : I → WrappedQueue I J A → Bool × WrappedQueue I J A)
    (hfresh : once.IsFresh K)
    (hdequeue : ∀ element, K.rank (K.decorated element) < K.rank (K.decorated pointer) →
      ∀ q : WrappedQueue I J A, Intact K once q →
        DequeueSpec K once element q (dequeue element q))
    (h : Intact K once q) (hmem : pointer ∈ q.assignments) :
    ∃ mid : WrappedQueue I J A,
      takeAt K pointer (q.aboutToBeDequeued K dequeue (K.decorated pointer)) =
        mid.leave K pointer ∧
      Intact K once mid ∧
      Dequeues K (K.rank (K.decorated pointer)) (· ≠ K.decorated pointer) mid q ∧
      ((mid.memory (K.decorated pointer)).jobCounter =
          (q.memory (K.decorated pointer)).jobCounter ↔
        ∀ element ∈ (q.memory (K.decorated pointer)).elements, element ∉ q.assignments) := by
  by_cases hkind : K.kind (K.decorated pointer) = .plain
  · refine ⟨q, by simp [leave, aboutToBeDequeued, hkind], h, .refl _ _ _, ?_⟩
    simp [h.elements, hfresh.elements_plain _ hkind]
  · have hrank : ∀ element ∈ (q.memory (K.decorated pointer)).elements,
        K.rank (K.decorated element) < K.rank (K.decorated pointer) := by
      rw [h.elements]
      exact hfresh.rank_lt _
    have helements := dequeueElements_spec
      (fun element helement q hq => hdequeue element (hrank element helement) q hq) hrank h
      ⟨pointer, hmem, rfl⟩ hkind
    exact ⟨q.dequeueElements K dequeue (K.decorated pointer),
      by simp [leave, aboutToBeDequeued, hkind], helements⟩

/-- The job itself leaves the list after its elements. -/
theorem dequeues_leave (h : Intact K once mid) (hmem : pointer ∈ q.assignments)
    (hdequeues : Dequeues K (K.rank (K.decorated pointer)) (· ≠ K.decorated pointer) mid q)
    (hcounter : (∀ element ∈ (q.memory (K.decorated pointer)).elements,
        element ∉ q.assignments) →
      (mid.memory (K.decorated pointer)).jobCounter =
        (q.memory (K.decorated pointer)).jobCounter) :
    Dequeues K (K.rank (K.decorated pointer) + 1) (fun _ => True) (mid.leave K pointer) q where
  sublist := by
    rw [leave_assignments]
    exact List.erase_sublist.trans hdequeues.sublist
  kept other hother hrank := by
    have hne : other ≠ pointer := by
      rintro rfl
      omega
    rw [leave_assignments]
    exact (List.mem_erase_of_ne hne).mpr (hdequeues.kept other hother (by omega))
  assigned := leave_assigned.trans hdequeues.assigned
  elements job := (leave_elements job).trans (hdequeues.elements job)
  jobCounter job _ hcase := by
    have hqueued : (mid.leave K pointer).Queued K job ↔
        mid.Queued K job ∧ job ≠ K.decorated pointer :=
      queued_erase h.nodup (hdequeues.kept pointer hmem le_rfl) leave_assignments
    rw [leave_jobCounter]
    by_cases hjob : job = K.decorated pointer
    · subst hjob
      rcases hcase with hcase | hcase | hcase
      · exact absurd rfl (hqueued.mp hcase).2
      · exact absurd ⟨pointer, hmem, rfl⟩ hcase
      · exact hcounter hcase
    · exact hdequeues.jobCounter job hjob (hcase.imp_left fun hcase => (hqueued.mp hcase).1)

/-- **`dequeue(job)`**, with hooks nested deeply enough. -/
theorem dequeueNested_spec (hfresh : once.IsFresh K) (depth : ℕ) (pointer : I)
    {q : WrappedQueue I J A} (h : Intact K once q)
    (hdepth : K.rank (K.decorated pointer) < depth) :
    DequeueSpec K once pointer q (q.dequeueNested K depth pointer) ∧
      (pointer ∈ q.assignments →
        (((q.dequeueNested K depth pointer).2.memory (K.decorated pointer)).jobCounter =
            (q.memory (K.decorated pointer)).jobCounter ↔
          ∀ element ∈ (q.memory (K.decorated pointer)).elements, element ∉ q.assignments)) := by
  induction depth generalizing pointer q with
  | zero => omega
  | succ depth ih =>
      unfold dequeueNested
      split
      · rename_i hmem
        obtain ⟨mid, hmid, hintact, hdequeues, hiff⟩ :=
          aboutToBeDequeued_spec (dequeueNested K depth) hfresh
            (fun element hrank q hq => (ih element hq (by omega)).1) h hmem
        have hkept : pointer ∈ mid.assignments := hdequeues.kept pointer hmem le_rfl
        rw [hmid]
        have hout : ¬ (mid.leave K pointer).Queued K (K.decorated pointer) := fun hqueued =>
          ((queued_erase hintact.nodup hkept leave_assignments).mp hqueued).2 rfl
        refine ⟨⟨hintact.leaves hfresh hkept, fun _ => ⟨rfl, hout⟩, fun hnot => absurd hmem hnot,
          dequeues_leave hintact hmem hdequeues hiff.mpr⟩, fun _ => ?_⟩
        rw [leave_jobCounter]
        exact hiff
      · rename_i hnot
        exact ⟨⟨h, fun hmem => absurd hmem hnot, fun _ => rfl, .refl _ _ _⟩,
          fun hmem => absurd hmem hnot⟩

/-- `Weaver::dequeue_p(JobPointer)`. -/
theorem dequeueP_spec (hfresh : once.IsFresh K) (h : Intact K once q) (pointer : I) :
    DequeueSpec K once pointer q (q.dequeueP K pointer) ∧
      (pointer ∈ q.assignments →
        (((q.dequeueP K pointer).2.memory (K.decorated pointer)).jobCounter =
            (q.memory (K.decorated pointer)).jobCounter ↔
          ∀ element ∈ (q.memory (K.decorated pointer)).elements, element ∉ q.assignments)) :=
  dequeueNested_spec hfresh _ pointer h (Nat.lt_succ_self _)

end ThreadWeaver.WrappedQueue
