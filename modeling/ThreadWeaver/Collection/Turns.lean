import ThreadWeaver.Collection.Undisturbed
import ThreadWeaver.Collection.Pairing

/-!
# The turns of a Sequence

A Sequence hands all of its elements to the queue at once, and blocks them.  `completed` counts
how far it has got: while it is at `n`, the turn is with the `n`-th of the jobs that it completes,
the first of which is its own.  The turn goes on when the job has been completed, and with it the
blocker of the next element; so one job at a time is on its way through the Sequence, in any run.

When nobody calls `stop` or `requestAbort`, an element that does not succeed has the elements that
wait taken out of the queue before the turn goes on, and no element after it is executed.
-/

namespace ThreadWeaver.Collection

open Library (Stacked)

variable {J P T σ : Type*}

/-! ## The order of the elements -/

section Turn

variable [DecidableEq J] (F : Forest J P σ)

/-- The value of `completed` at which a Sequence completes the job. -/
def Forest.turn (collection job : J) : ℕ :=
  if job = collection then 0 else (F.elements collection).idxOf job + 1

variable {F} {collection element other : J}

@[simp]
theorem Forest.turn_self : F.turn collection collection = 0 := if_pos rfl

theorem Forest.turn_element (h : F.parent element = some collection) :
    F.turn collection element = (F.elements collection).idxOf element + 1 :=
  if_neg (F.ne_of_parent h)

theorem Forest.turn_pos (h : F.parent element = some collection) :
    0 < F.turn collection element := by
  rw [F.turn_element h]
  exact Nat.succ_pos _

theorem Forest.turn_inj (h : F.Concerns collection element) (h' : F.Concerns collection other)
    (heq : F.turn collection element = F.turn collection other) : element = other := by
  rcases h with ⟨rfl, -⟩ | h <;> rcases h' with ⟨rfl, -⟩ | h'
  · rfl
  · have hpos := F.turn_pos h'
    rw [← heq, F.turn_self] at hpos
    exact absurd hpos (lt_irrefl 0)
  · have hpos := F.turn_pos h
    rw [heq, F.turn_self] at hpos
    exact absurd hpos (lt_irrefl 0)
  · rw [F.turn_element h, F.turn_element h'] at heq
    exact (List.idxOf_inj ((F.mem_elements _ _).mpr h)).mp (Nat.succ_injective heq)

theorem Forest.turn_of_getElem? {n : ℕ} (h : (F.elements collection)[n]? = some element) :
    F.turn collection element = n + 1 := by
  obtain ⟨hlt, heq⟩ := List.getElem?_eq_some_iff.mp h
  have hparent := (F.mem_elements collection element).mp (heq ▸ List.getElem_mem hlt)
  rw [F.turn_element hparent, ← heq, (F.elements_nodup collection).idxOf_getElem n hlt]

end Turn

/-! ## Whose turn it is -/

/-- A worker has the job, or the job is a collection that waits for its elements. -/
def Place.isActive : Place T → Bool
  | held .assigned _ | held .executing _ | held .closing _ | held .ending _ | waiting => true
  | _ => false

/-- The collection and the job that the operation is completing for it, until `completed` has
been counted up. -/
def Op.completes? : Op J → Option (J × J)
  | elementFinished collection job | processCompletedElement collection job
  | restoreStatus collection job _ | advance collection job => some (collection, job)
  | _ => none

/-- A blocker is removed under the mutex of the Sequence. -/
def Unblocks (F : Forest J P σ) : Op J → List (Op J) → Prop
  | .removeBlocker element, rest =>
      ∀ collection, F.parent element = some collection → Releases (.job collection) rest
  | _, _ => True

theorem exec_unblocks [DecidableEq J] [DecidableEq P] {F : Forest J P σ} {op : Op J}
    {rest : List (Op J)} (thread : Thread T) (d : Data J P T σ) (hlayout : Layout F (op :: rest))
    (h : Stacked (Unblocks F) (op :: rest)) :
    Stacked (Unblocks F) ((exec F thread op d).2 ++ rest) := by
  have hother : (∀ collection job, op ≠ .advance collection job) →
      Stacked (Unblocks F) ((exec F thread op d).2 ++ rest) := by
    intro hadvance
    refine Stacked.append (fun later hlater above => ?_) h.2
    cases later with
    | removeBlocker element =>
        have hcalls := exec_calls F thread op d hlater
        generalize hremove : Op.removeBlocker element = later at hcalls
        cases hcalls with
        | unblock => exact absurd rfl (hadvance _ _)
        | elementDequeued =>
            obtain rfl := Op.removeBlocker.inj hremove
            obtain ⟨hparent, hreleases, -⟩ := hlayout.1
            intro collection howner
            cases howner.symm.trans hparent
            exact Layout.releases_append above hreleases
        | _ => cases hremove
    | _ => trivial
  cases op with
  | advance collection job =>
      simp only [exec, List.append_assoc]
      refine Stacked.append ?_ ⟨trivial, h.2⟩
      intro later hlater above
      obtain ⟨element, hmem, rfl⟩ := List.mem_map.mp hlater
      have hparent := (F.mem_elements collection element).mp
        (List.mem_of_getElem? (Option.mem_toList.mp hmem))
      intro other howner
      cases howner.symm.trans hparent
      exact Layout.releases_append above ⟨.countDown collection job, List.mem_cons_self,
        by simp [Op.locks]⟩
  | _ => exact hother (by simp)

/-- The turn is with one job of the Sequence.  The elements after it wait and are blocked, and
those before it have been counted. -/
structure State.InTurn [DecidableEq J] (F : Forest J P σ) (collection : J) (s : State J P T σ) :
    Prop where
  fresh : (s.data.place collection).isLate = false → s.data.completed collection = 0
  blocked : ∀ element, F.parent element = some collection →
    (s.data.place element).isEnqueued = true →
    F.turn collection element ≠ s.data.completed collection →
    ((∃ thread, .assignBlocker element ∈ s.stack thread) ∨
      none ∈ s.data.queuePolicies element) ∧ ∀ thread, .removeBlocker element ∉ s.stack thread
  active : ∀ element, F.parent element = some collection →
    (s.data.place element).isActive = true →
    F.turn collection element = s.data.completed collection
  completing : ∀ thread op job, op ∈ s.stack thread → op.completes? = some (collection, job) →
    F.turn collection job = s.data.completed collection
  counting : ∀ thread job, .countDown collection job ∈ s.stack thread →
    s.data.completed collection = F.turn collection job + 1
  counted : ∀ element, F.parent element = some collection → s.data.place element = .reported →
    F.turn collection element < s.data.completed collection

theorem State.Sound.of_completes [DecidableEq J] {F : Forest J P σ} {s : State J P T σ}
    {thread : Thread T} {op : Op J} {collection job : J} (hs : s.Sound F)
    (hop : op ∈ s.stack thread) (h : op.completes? = some (collection, job)) :
    F.Concerns collection job ∧ ∃ stage, (job, stage) ∈ op.jobs := by
  obtain ⟨ops, rest, -, hfits⟩ := hs.fits hop
  cases op with
  | elementFinished _ _ | processCompletedElement _ _ | restoreStatus _ _ _ | advance _ _ =>
      obtain ⟨rfl, rfl⟩ := Prod.mk.inj (Option.some.inj h)
      exact ⟨hfits, _, List.mem_cons_self⟩
  | _ => cases h

section Blocker

variable [DecidableEq J] [DecidableEq P] {F : Forest J P σ} {s : State J P T σ}
  {thread : Thread T} {op : Op J} {collection element : J}

theorem exec_mem_blocker (thread : Thread T) (d : Data J P T σ)
    (h : none ∈ d.queuePolicies element ∨ op = .assignBlocker element)
    (hne : op ≠ .removeBlocker element) :
    none ∈ (exec F thread op d).1.queuePolicies element := by
  rcases h with hmem | rfl
  · rcases exec_queuePolicies F thread op d element with hsame | ⟨-, hnew⟩ | ⟨heq, -⟩
    · rwa [hsame]
    · exact hnew ▸ Weaver.State.mem_assignQueuePolicy.mpr (.inl rfl)
    · exact absurd heq hne
  · have hnew : (exec F thread (.assignBlocker element) d).1.queuePolicies element =
        Weaver.State.assignQueuePolicy (d.queuePolicies element) none :=
      Function.update_self _ _ _
    exact hnew ▸ Weaver.State.mem_assignQueuePolicy.mpr (.inl rfl)

theorem State.Sound.assigns_of_opening (hs : s.Sound F) (hkind : F.kind collection = .sequence)
    (hop : .elementFinished collection collection ∈ s.stack thread)
    (habort : s.data.shouldAbort collection = false)
    (hparent : F.parent element = some collection) :
    .assignBlocker element ∈
      (exec F thread (.elementFinished collection collection) s.data).2 := by
  have hself : s.data.selfIsExecuting collection = true := by
    rcases hs.of_elementFinished hop with ⟨-, -, -, hflag⟩ | ⟨hnot, -⟩
    · exact hflag
    · exact absurd rfl (F.ne_of_parent hnot)
  simpa [exec, Data.lock, Data.moveTo, hself, habort, hkind] using
    (F.mem_elements _ _).mpr hparent

end Blocker

namespace State.InTurn

variable [DecidableEq J] [DecidableEq P] {F : Forest J P σ} {s : State J P T σ}
  {thread : Thread T} {op : Op J} {rest : List (Op J)} {collection element job : J}

omit [DecidableEq P] in
/-- The turn is still with the job that a Sequence goes on from, and with no other. -/
theorem advancing (ht : s.InTurn F collection) (hs : s.Sound F)
    (hstack : s.stack thread = .advance collection job :: rest) :
    F.Concerns collection job ∧ F.turn collection job = s.data.completed collection ∧
      (s.data.place collection).isLate = true ∧
      ((job = collection ∧ s.data.place job = .held .closing thread) ∨
        s.data.place job = .held .reporting thread) := by
  have hop : .advance collection job ∈ s.stack thread := by
    rw [hstack]
    exact List.mem_cons_self
  obtain ⟨ops, below, -, hconcerns⟩ := hs.fits hop
  refine ⟨hconcerns, ht.completing thread _ job hop rfl,
    hs.late_of_completing hop (fun _ => Iff.rfl) rfl, ?_⟩
  rcases hs.of_completing hop (fun _ => Iff.rfl) rfl with ⟨rfl, -, hplace⟩ | ⟨-, -, hplace⟩
  · exact .inl ⟨rfl, hplace⟩
  · exact .inr hplace

/-- **The turn goes on in `advance` only.** -/
theorem exec_completed (ht : s.InTurn F collection) (hs : s.Sound F)
    (hstack : s.stack thread = op :: rest) :
    (∀ job, op ≠ .advance collection job) ∧
        (exec F thread op s.data).1.completed collection = s.data.completed collection ∨
      ∃ job, op = .advance collection job ∧
        (exec F thread op s.data).1.completed collection = s.data.completed collection + 1 := by
  rcases Collection.exec_completed F thread op s.data collection with
    hsame | ⟨job, rfl, hself, hzero⟩ | hadvance
  · exact .inl hsame
  · refine .inl ⟨by simp, ?_⟩
    have hop : .elementFinished collection job ∈ s.stack thread := by
      rw [hstack]
      exact List.mem_cons_self
    rcases hs.of_elementFinished hop with ⟨rfl, -, hplace, -⟩ | ⟨-, -, -, hnot⟩
    · rw [hzero, ht.fresh (by rw [hplace]; rfl)]
    · rw [hnot] at hself
      cases hself
  · exact .inr hadvance

/-- An element at which the turn has not arrived stays blocked. -/
theorem exec_blocked [DecidableEq T] (ht : s.InTurn F collection) (hs : s.Sound F)
    (he : s.Enqueuing F) (hu : ∀ thread, Stacked (Unblocks F) (s.stack thread))
    (hkind : F.kind collection = .sequence) (hstack : s.stack thread = op :: rest)
    (hfree : ∀ mutex, wants F op = some mutex → s.data.holder mutex = none)
    (hparent : F.parent element = some collection)
    (hafter : ((exec F thread op s.data).1.place element).isEnqueued = true)
    (hturn : F.turn collection element ≠ (exec F thread op s.data).1.completed collection) :
    ((∃ other, .assignBlocker element ∈
        Function.update s.stack thread ((exec F thread op s.data).2 ++ rest) other) ∨
      none ∈ (exec F thread op s.data).1.queuePolicies element) ∧
      ∀ other, .removeBlocker element ∉
        Function.update s.stack thread ((exec F thread op s.data).2 ++ rest) other := by
  have hop : op ∈ s.stack thread := by
    rw [hstack]
    exact List.mem_cons_self
  -- the blocker of the element is removed next when the turn arrives at it
  have hunblock : (∀ other, .removeBlocker element ∉ s.stack other) →
      ∀ other, .removeBlocker element ∉
        Function.update s.stack thread ((exec F thread op s.data).2 ++ rest) other := by
    intro hnone other hmem
    rcases State.mem_exec hstack hmem with ⟨-, hcalls⟩ | ⟨hold, -⟩
    · generalize hremove : Op.removeBlocker element = later at hcalls
      cases hcalls with
      | @unblock owner job head hget =>
          obtain rfl := Op.removeBlocker.inj hremove
          have howner := (F.mem_elements owner element).mp (List.mem_of_getElem? hget)
          cases howner.symm.trans hparent
          rcases ht.exec_completed hs hstack with ⟨hnot, -⟩ | ⟨-, -, hnext⟩
          · exact hnot _ rfl
          · exact hturn ((F.turn_of_getElem? hget).trans hnext.symm)
      | elementDequeued =>
          obtain rfl := Op.removeBlocker.inj hremove
          obtain ⟨-, -, -, howner, -⟩ := hs.fits hop
          rw [hs.dequeueElement_takes (he.loops thread) hstack hfree] at hafter
          cases hafter
      | _ => cases hremove
    · exact hnone other hold
  rcases hs.exec_isEnqueued hstack hfree hparent hafter with hbefore | ⟨rfl, hplace, habort⟩
  · -- the turn was not with the element before
    have hturn' : F.turn collection element ≠ s.data.completed collection := by
      intro heq
      rcases ht.exec_completed hs hstack with ⟨-, hsame⟩ | ⟨job, rfl, -⟩
      · exact hturn (heq.trans hsame.symm)
      · obtain ⟨hconcerns, hjob, -, hplace⟩ := ht.advancing hs hstack
        obtain rfl := F.turn_inj (.inr hparent) hconcerns (heq.trans hjob.symm)
        rcases hplace with ⟨-, hplace⟩ | hplace <;>
        · rw [hplace] at hbefore
          cases hbefore
    obtain ⟨hblocker, hnone⟩ := ht.blocked element hparent hbefore hturn'
    refine ⟨?_, hunblock hnone⟩
    have hne : op ≠ .removeBlocker element := by
      rintro rfl
      exact hnone thread hop
    rcases hblocker with ⟨other, hassign⟩ | hmem
    · by_cases heq : op = .assignBlocker element
      · exact .inr (exec_mem_blocker thread s.data (.inr heq) hne)
      · exact .inl ⟨other, mem_update_stack hstack heq hassign⟩
    · exact .inr (exec_mem_blocker thread s.data (.inl hmem) hne)
  · -- the Sequence opens and blocks all of its elements
    refine ⟨.inl ⟨thread, ?_⟩, hunblock fun other hmem => ?_⟩
    · rw [Function.update_self]
      exact List.mem_append_left _ (hs.assigns_of_opening hkind hop habort hparent)
    · obtain ⟨ops, below, hsplit, hreleases⟩ := (hu other).of_mem hmem
      have hheld : Releases (.job collection) (s.stack other) := by
        rw [hsplit]
        exact Layout.releases_append ops (Layout.releases_cons (hreleases collection hparent))
      have hholder := hs.holder_eq hheld
      rw [hfree _ rfl] at hholder
      cases hholder

omit [DecidableEq P] in
theorem turn_of_canBeExecuted (ht : s.InTurn F collection) (hs : s.Sound F)
    (hparent : F.parent element = some collection) (hplace : s.data.place element = .queued)
    (hcan : s.data.canBeExecuted F element = true) :
    F.turn collection element = s.data.completed collection := by
  by_contra hturn
  obtain ⟨⟨other, hassign⟩ | hmem, -⟩ :=
    ht.blocked element hparent (by rw [hplace]; rfl) hturn
  · rw [hs.of_assignBlocker hassign] at hplace
    cases hplace
  · exact Data.notMem_of_canBeExecuted hcan hmem

/-- The turn stays with an element that a worker has. -/
theorem exec_active (ht : s.InTurn F collection) (hs : s.Sound F)
    (hstack : s.stack thread = op :: rest)
    (hfree : ∀ mutex, wants F op = some mutex → s.data.holder mutex = none)
    (hparent : F.parent element = some collection)
    (hafter : ((exec F thread op s.data).1.place element).isActive = true) :
    F.turn collection element = (exec F thread op s.data).1.completed collection := by
  have hbefore : F.turn collection element = s.data.completed collection ∧
      ∀ stage, s.data.place element = .held stage thread → stage ≠ .reporting := by
    rcases hs.exec_place hstack hfree element with hsame | hmoves
    · rw [hsame] at hafter
      refine ⟨ht.active element hparent hafter, ?_⟩
      rintro stage hplace rfl
      rw [hplace] at hafter
      cases hafter
    · have hassigned : ((exec F thread op s.data).1.place element).isAssigned = true →
          (s.data.place element).isAssigned = true ∨ s.data.canBeExecuted F element = true :=
        fun h => (hs.exec_isAssigned hstack hfree h).imp_right fun h => h.2.1
      have hactive := ht.active element hparent
      generalize hplace : s.data.place element = before at hmoves hactive hassigned
      generalize (exec F thread op s.data).1.place element = after at hafter hmoves hassigned
      cases hmoves with
      | assigned =>
          have hcan := (hassigned rfl).resolve_left (by simp [Place.isAssigned, Place.isStarted])
          exact ⟨ht.turn_of_canBeExecuted hs hparent hplace hcan, by simp⟩
      | started | ending | closing | waiting | endingSelf | endingElement =>
          exact ⟨hactive rfl, by simp⟩
      | _ => cases hafter
  rcases ht.exec_completed hs hstack with ⟨-, hsame⟩ | ⟨job, rfl, -⟩
  · exact hbefore.1.trans hsame.symm
  · obtain ⟨hconcerns, hjob, -, hplace⟩ := ht.advancing hs hstack
    obtain rfl := F.turn_inj (.inr hparent) hconcerns (hbefore.1.trans hjob.symm)
    rcases hplace with ⟨heq, -⟩ | hplace
    · exact absurd heq (F.ne_of_parent hparent)
    · exact absurd rfl (hbefore.2 _ hplace)

/-- The turn stays with the job that is being completed. -/
theorem exec_completing [DecidableEq T] (ht : s.InTurn F collection) (hs : s.Sound F)
    (hstack : s.stack thread = op :: rest) {other : Thread T} {later : Op J}
    (hmem : later ∈
      Function.update s.stack thread ((exec F thread op s.data).2 ++ rest) other)
    (hlater : later.completes? = some (collection, job)) :
    F.turn collection job = (exec F thread op s.data).1.completed collection := by
  have hop : op ∈ s.stack thread := by
    rw [hstack]
    exact List.mem_cons_self
  have hcompletes : op.completes? = some (collection, job) → (∀ job, op ≠ .advance collection job) →
      F.turn collection job = (exec F thread op s.data).1.completed collection := by
    intro hcompletes hnot
    rcases ht.exec_completed hs hstack with ⟨-, hsame⟩ | ⟨head, rfl, -⟩
    · rw [hsame]
      exact ht.completing thread op job hop hcompletes
    · exact absurd rfl (hnot head)
  rcases State.mem_exec hstack hmem with ⟨rfl, hcalls⟩ | ⟨hold, hrest⟩
  · cases hcalls with
    | finishSelf hkind =>
        obtain ⟨rfl, rfl⟩ := Prod.mk.inj (Option.some.inj hlater)
        have hplace := hs.place_eq hop List.mem_cons_self
        rcases ht.exec_completed hs hstack with ⟨-, hsame⟩ | ⟨head, heq, -⟩
        · rw [hsame, ht.fresh (by rw [hplace]; rfl), F.turn_self]
        · cases heq
    | finishElement hparent =>
        obtain ⟨rfl, rfl⟩ := Prod.mk.inj (Option.some.inj hlater)
        have hplace := hs.place_eq hop List.mem_cons_self
        rcases ht.exec_completed hs hstack with ⟨-, hsame⟩ | ⟨head, heq, -⟩
        · exact (ht.active _ hparent (by rw [hplace]; rfl)).trans hsame.symm
        · cases heq
    | process | restoreStatus | advance | advanceRestored => exact hcompletes hlater (by simp)
    | _ => cases hlater
  · have hturn := ht.completing other later job hold hlater
    rcases ht.exec_completed hs hstack with ⟨-, hsame⟩ | ⟨head, rfl, -⟩
    · exact hturn.trans hsame.symm
    · -- the job that the Sequence goes on from is completed by one operation
      obtain ⟨hconcerns, hhead, -⟩ := ht.advancing hs hstack
      obtain ⟨hjob, stage, howes⟩ := hs.of_completes hold hlater
      obtain rfl := F.turn_inj hjob hconcerns (hturn.trans hhead.symm)
      obtain ⟨rfl, -⟩ := hs.jobs.thread_unique hop List.mem_cons_self hold howes
      have heq := hs.jobs.op_unique hop List.mem_cons_self hold howes
      exact absurd (heq ▸ hrest rfl) (hs.notMem_rest hstack List.mem_cons_self)

/-- The turn has just gone on when a job is counted. -/
theorem exec_counting [DecidableEq T] (ht : s.InTurn F collection) (hs : s.Sound F)
    (hkind : F.kind collection = .sequence) (hstack : s.stack thread = op :: rest)
    {other : Thread T} (hmem : .countDown collection job ∈
      Function.update s.stack thread ((exec F thread op s.data).2 ++ rest) other) :
    (exec F thread op s.data).1.completed collection = F.turn collection job + 1 := by
  have hop : op ∈ s.stack thread := by
    rw [hstack]
    exact List.mem_cons_self
  rcases State.mem_exec hstack hmem with ⟨rfl, hcalls⟩ | ⟨hold, -⟩
  · generalize hcount : Op.countDown collection job = later at hcalls
    cases hcalls with
    | countDown hnot =>
        obtain ⟨rfl, rfl⟩ := Op.countDown.inj hcount
        exact absurd hkind hnot
    | countDownAdvanced =>
        obtain ⟨rfl, rfl⟩ := Op.countDown.inj hcount
        rcases ht.exec_completed hs hstack with ⟨hnot, -⟩ | ⟨-, -, hnext⟩
        · exact absurd rfl (hnot job)
        · rw [hnext, ht.completing other _ job hop rfl]
    | _ => cases hcount
  · rcases ht.exec_completed hs hstack with ⟨-, hsame⟩ | ⟨head, rfl, -⟩
    · rw [hsame]
      exact ht.counting other job hold
    · -- both would have the mutex of the Sequence
      have hlocks : (.job collection, ()) ∈ (Op.advance collection head).locks := by
        simp [Op.locks]
      have hlocks' : (.job collection, ()) ∈ (Op.countDown collection job).locks := by
        simp [Op.locks]
      obtain ⟨rfl, -⟩ := hs.locks.thread_unique hop hlocks hold hlocks'
      cases hs.locks.op_unique hop hlocks hold hlocks'

theorem runThread [DecidableEq T] {next : State J P T σ} (ht : s.InTurn F collection)
    (hs : s.Sound F) (he : s.Enqueuing F)
    (hu : ∀ thread, Stacked (Unblocks F) (s.stack thread))
    (hkind : F.kind collection = .sequence) (h : s.runThread F thread = some next) :
    next.InTurn F collection := by
  obtain ⟨op, rest, hstack, hfree, rfl⟩ := State.runThread_eq_some h
  refine ⟨fun hlate => ?_, fun element hparent hafter hturn => ?_, fun element hparent => ?_,
    fun other later job hmem hlater => ?_, fun other job hmem => ?_,
    fun element hparent hreported => ?_⟩
  · have hbefore : (s.data.place collection).isLate = false := by
      rcases hs.exec_place hstack hfree collection with hsame | hmoves
      · exact hsame ▸ hlate
      · by_contra hnot
        have hafter := hmoves.isLate (by simpa using hnot)
        rw [hafter] at hlate
        cases hlate
    rcases ht.exec_completed hs hstack with ⟨-, hsame⟩ | ⟨head, rfl, -⟩
    · exact hsame.trans (ht.fresh hbefore)
    · rw [(ht.advancing hs hstack).2.2.1] at hbefore
      cases hbefore
  · exact ht.exec_blocked hs he hu hkind hstack hfree hparent hafter hturn
  · exact ht.exec_active hs hstack hfree hparent
  · exact ht.exec_completing hs hstack hmem hlater
  · exact ht.exec_counting hs hkind hstack hmem
  · have hbefore : F.turn collection element < s.data.completed collection := by
      dsimp only at hreported
      rcases hs.exec_place hstack hfree element with hsame | hmoves
      · exact ht.counted element hparent (hsame ▸ hreported)
      · rw [hreported] at hmoves
        generalize s.data.place element = before at hmoves
        cases hmoves with
        | ended hnone =>
            rw [hparent] at hnone
            cases hnone
        | reported howner =>
            cases howner.symm.trans hparent
            have hcounting := ht.counting thread element (hstack ▸ List.mem_cons_self)
            omega
    dsimp only
    rcases ht.exec_completed hs hstack with ⟨-, hsame⟩ | ⟨head, -, hnext⟩ <;> omega

omit [DecidableEq P] in
theorem takeUp (ht : s.InTurn F collection) {jobs : List J}
    (hjobs : ∀ job ∈ jobs, F.parent job = none ∧ s.data.place job = .fresh) :
    (s.takeUp thread jobs).InTurn F collection := by
  have hplace : ∀ {element}, F.parent element = some collection →
      (s.takeUp thread jobs).data.place element = s.data.place element :=
    fun hparent => State.takeUp_place hjobs hparent
  refine ⟨fun hlate => ht.fresh ?_, fun element hparent hafter => ?_,
    fun element hparent hafter => ?_, ht.completing, ht.counting, fun element hparent hafter => ?_⟩
  · simp only [State.takeUp] at hlate
    split at hlate
    · rename_i hmem
      rw [(hjobs collection hmem).2]
      rfl
    · exact hlate
  · rw [hplace hparent] at hafter
    exact ht.blocked element hparent hafter
  · rw [hplace hparent] at hafter
    exact ht.active element hparent hafter
  · rw [hplace hparent] at hafter
    exact ht.counted element hparent hafter

omit [DecidableEq P] in
/-- A call that begins has completed nothing. -/
theorem beginCall [DecidableEq T] {next : State J P T σ} (ht : s.InTurn F collection) {caller : T}
    {ops : List (Op J)} (h : s.beginCall caller ops = some next)
    (hops : ∀ op ∈ ops, op.completes? = none ∧ (∀ collection job, op ≠ .countDown collection job) ∧
      ∀ element, op ≠ .removeBlocker element) : next.InTurn F collection := by
  have hmem : ∀ {op thread}, op ∈ next.stack thread → op ∈ ops ∨ op ∈ s.stack thread :=
    State.mem_or_of_beginCall h
  have hkeeps := State.mem_of_beginCall h
  obtain ⟨-, rfl⟩ := State.beginCall_eq_some h
  refine ⟨ht.fresh, fun element hparent hafter hturn => ?_, ht.active,
    fun thread op job hop hcompletes => ?_, fun thread job hop => ?_, ht.counted⟩
  · obtain ⟨hblocker, hnone⟩ := ht.blocked element hparent hafter hturn
    refine ⟨?_, fun thread hop => ?_⟩
    · rcases hblocker with ⟨thread, hassign⟩ | hblocked
      · exact .inl ⟨thread, hkeeps thread _ hassign⟩
      · exact .inr hblocked
    · rcases hmem hop with hnew | hold
      · exact (hops _ hnew).2.2 element rfl
      · exact hnone thread hold
  · rcases hmem hop with hnew | hold
    · rw [(hops op hnew).1] at hcompletes
      cases hcompletes
    · exact ht.completing thread op job hold hcompletes
  · rcases hmem hop with hnew | hold
    · exact absurd rfl ((hops _ hnew).2.1 collection job)
    · exact ht.counting thread job hold

omit [DecidableEq P] in
/-- An element that has been handed to a worker is not after the turn. -/
theorem reached (ht : s.InTurn F collection) (hs : s.Sound F)
    (hparent : F.parent element = some collection)
    (hassigned : (s.data.place element).isAssigned = true) :
    F.turn collection element ≤ s.data.completed collection := by
  have hactive := ht.active element hparent
  cases hplace : s.data.place element with
  | held stage thread =>
      cases stage with
      | reporting =>
          obtain ⟨op, hop, howes⟩ := hs.op_of_held hplace
          obtain ⟨ops, rest, -, hfits⟩ := hs.fits hop
          -- the operation that has the element in hand completes it for this Sequence
          have hreports : ∀ {owner head stage}, F.Concerns owner head →
              (element, Stage.reporting) = (head, if head = owner then stage else .reporting) →
              stage ≠ .reporting → element = head ∧ owner = collection := by
            intro owner head stage hconcerns heq hstage
            obtain ⟨rfl, hreporting⟩ := Prod.mk.inj heq
            rcases hconcerns with ⟨rfl, -⟩ | howner
            · rw [if_pos rfl] at hreporting
              exact absurd hreporting.symm hstage
            · exact ⟨rfl, Option.some.inj (howner.symm.trans hparent)⟩
          cases op with
          | elementFinished _ _ | processCompletedElement _ _ | restoreStatus _ _ _
          | advance _ _ =>
              obtain ⟨rfl, rfl⟩ := hreports hfits (List.mem_singleton.mp howes) (by simp)
              exact (ht.completing thread _ element hop rfl).le
          | countDown _ _ =>
              obtain ⟨rfl, rfl⟩ := hreports hfits (List.mem_singleton.mp howes) (by simp)
              have hcounting := ht.counting thread element hop
              omega
          | _ => simp [Op.jobs] at howes
      | assigned | executing | closing | ending => exact (hactive (by rw [hplace]; rfl)).le
      | _ =>
          rw [hplace] at hassigned
          cases hassigned
  | waiting => exact (hactive (by rw [hplace]; rfl)).le
  | reported => exact (ht.counted element hparent hplace).le
  | _ =>
      rw [hplace] at hassigned
      cases hassigned

end State.InTurn

section Runs

variable [DecidableEq J] [DecidableEq P] [DecidableEq T] {F : Forest J P σ}
  {s next : State J P T σ} {ok : State J P T σ → Act J T → Prop} {start : Weaver.Start J P σ}

omit [DecidableEq J] [DecidableEq P] [DecidableEq T] in
theorem unblocks_init (thread : Thread T) :
    Stacked (Unblocks F) ((init start : State J P T σ).stack thread) := by
  cases thread <;> simp [init, Stacked, Unblocks]

omit [DecidableEq J] [DecidableEq P] in
theorem unblocks_beginCall (hu : ∀ thread, Stacked (Unblocks F) (s.stack thread)) {caller : T}
    {ops : List (Op J)} (h : s.beginCall caller ops = some next)
    (hops : Stacked (Unblocks F) ops) (thread : Thread T) :
    Stacked (Unblocks F) (next.stack thread) := by
  obtain ⟨-, rfl⟩ := State.beginCall_eq_some h
  dsimp only
  by_cases heq : thread = .caller caller
  · rw [heq, Function.update_self]
    exact hops
  · rw [Function.update_of_ne heq]
    exact hu thread

theorem unblocks_step (hu : ∀ thread, Stacked (Unblocks F) (s.stack thread)) (hs : s.Sound F)
    {act : Act J T} (h : step F s act = some next) (thread : Thread T) :
    Stacked (Unblocks F) (next.stack thread) := by
  revert thread
  refine step_rule (I := fun next => ∀ thread, Stacked (Unblocks F) (next.stack thread)) hu ?_
    (fun _ _ _ _ => hu) ?_ h
  · intro thread _ hran other
    obtain ⟨op, rest, hstack, -, rfl⟩ := State.runThread_eq_some hran
    dsimp only
    by_cases heq : other = thread
    · subst heq
      rw [Function.update_self]
      have hlayout := hs.layout other
      have hbefore := hu other
      rw [hstack] at hlayout hbefore
      exact exec_unblocks other s.data hlayout hbefore
    · rw [Function.update_of_ne heq]
      exact hu other
  · intro before caller hbefore hbegin
    refine unblocks_beginCall hbefore hbegin ?_
    cases act <;> simp [Act.ops, Stacked, Unblocks]

theorem runs_unblocks (run : Runs F ok start s) (thread : Thread T) :
    Stacked (Unblocks F) (s.stack thread) := by
  revert thread
  induction run with
  | refl => exact unblocks_init
  | tail run _ hstep ih => exact unblocks_step ih (runs_sound run) hstep

omit [DecidableEq P] [DecidableEq T] in
theorem inTurn_init (collection : J) : (init start : State J P T σ).InTurn F collection := by
  refine ⟨fun _ => rfl, fun _ _ h => ?_, fun _ _ h => ?_, fun thread op job hop h => ?_,
    fun thread job hop => ?_, fun _ _ h => ?_⟩
  · cases h
  · cases h
  · cases thread <;> simp only [init, List.mem_singleton, List.not_mem_nil] at hop
    subst hop
    cases h
  · cases thread <;> simp [init] at hop
  · cases h

theorem State.InTurn.step {collection : J} (ht : s.InTurn F collection) (hs : s.Sound F)
    (he : s.Enqueuing F) (hu : ∀ thread, Stacked (Unblocks F) (s.stack thread))
    (hkind : F.kind collection = .sequence) {act : Act J T} (h : step F s act = some next) :
    next.InTurn F collection := by
  refine step_rule ht (fun _ _ => ht.runThread hs he hu hkind) (fun _ _ _ => ht.takeUp)
    (fun _ _ hbefore hbegin => hbefore.beginCall hbegin ?_) h
  cases act <;> simp [Act.ops, Op.completes?]

/-- **In every run the turn is with one job of a Sequence.** -/
theorem runs_inTurn (run : Runs F ok start s) {collection : J}
    (hkind : F.kind collection = .sequence) : s.InTurn F collection := by
  induction run with
  | refl => exact inTurn_init collection
  | tail run _ hstep ih =>
      exact ih.step (runs_sound run) (runs_enqueuing run) (runs_unblocks run) hkind hstep

end Runs

end ThreadWeaver.Collection
