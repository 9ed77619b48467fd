import ThreadWeaver.Collection.Blockers
import ThreadWeaver.Collection.Deadlock
import ThreadWeaver.Collection.Halting
import ThreadWeaver.Collection.Idle

/-!
# Nested work that nobody disturbs makes progress

Two things could bring nested work to a standstill although nobody calls `stop` or `requestAbort`:
threads that wait for each other's mutexes, and a queue in which every job carries the blocker of
its Sequence.  Neither happens.

The mutexes of two nested collections are taken from the inside when the inner one begins, and from
the outside when a Sequence removes the blocker of an element, be it that the turn has come to this
element or that the Sequence stops itself.  While the blocker of an element is being removed, either
the element is blocked still or it is done (`Lifts`), so it is not about to begin.

When no worker is active, the collection that waits has an element that is queued or waits itself;
in a Sequence that is the one that has the turn, which is not blocked.  So going inwards from any
job in the queue one comes to a job in the queue that is not blocked.
-/

namespace ThreadWeaver.Collection

open Library (Stacked RunWhere)

variable {J P T σ : Type*}

/-! ## What is known of runs that nobody disturbs -/

section Calm

variable [DecidableEq J]

/-- What the earlier invariants say of runs that nobody disturbs. -/
structure State.Calm (F : Forest J P σ) (start : Weaver.Start J P σ) (s : State J P T σ) :
    Prop where
  sound : s.Sound F
  enqueuing : s.Enqueuing F
  reporting : s.Reporting F
  orderly : s.Orderly F
  staffed : s.Staffed
  called : ∀ thread, Stacked (Outside.nobody F).Called (s.stack thread)
  unblocks : ∀ thread, Stacked (Unblocks F) (s.stack thread)
  inTurn : ∀ collection, F.kind collection = .sequence → s.InTurn F collection
  blocking : ∀ collection, F.kind collection = .sequence →
    s.Sequencing F collection ∧ s.Blocking F collection ∧ s.Counting F collection
  opened : ∀ collection, F.kind collection ≠ .plain → (s.data.place collection).isLate = true →
    s.data.opened collection = true
  policies : s.PoliciesKept start

variable [DecidableEq P] [DecidableEq T] {F : Forest J P σ} {start : Weaver.Start J P σ}
  {s next : State J P T σ}

theorem Runs.life {ok : State J P T σ → Act J T → Prop} (run : Runs F ok start s) :
    LifeRuns F (fun _ _ => True) start s := by
  induction run with
  | refl => exact .refl
  | @tail mid last act _ _ hstep ih =>
      have hlife : lifeStep F mid (.step act) = some last := hstep
      exact .tail ih trivial hlife

theorem runs_calm (run : Runs F Undisturbed start s) : s.Calm F start where
  sound := runs_sound run
  enqueuing := runs_enqueuing run
  reporting := runs_reporting run
  orderly := runs_orderly run
  staffed := runs_staffed run
  called := (Outside.runs_called (run.mono Outside.nobody_allows)).1
  unblocks := runs_unblocks run
  inTurn _ hkind := runs_inTurn run hkind
  blocking _ hkind := lifeRuns_blocking run.life hkind
  opened collection hkind hlate :=
    (runs_unmissed hkind (runs_nothingMissed run collection)).opened hlate
  policies := (runs_paired run).1

end Calm

namespace State.Calm

variable [DecidableEq J] {F : Forest J P σ} {start : Weaver.Start J P σ} {s : State J P T σ}
  {thread other : Thread T} {collection element job inner outer : J} {status : Status}

theorem not_aborts (hc : s.Calm F start) {op : Op J} (hop : op ∈ s.stack thread)
    (habort : ∃ job, op = .requestAbort job ∨ op = .abortElements job ∨ op = .abortElement job) :
    False := by
  obtain ⟨ops, rest, -, hcalled⟩ := (hc.called thread).of_mem hop
  obtain ⟨job, rfl | rfl | rfl⟩ := habort <;> exact hcalled

theorem not_active_of_restores (hc : s.Calm F start)
    (hop : .restoreStatus collection job status ∈ s.stack thread)
    (hparent : F.parent element = some collection) :
    (s.data.place element).isActive = false := by
  obtain ⟨hkind, hjob, -⟩ := hc.reporting.restores thread collection job status hop
  have ht := hc.inTurn collection hkind
  refine Bool.eq_false_of_not_eq_true fun hactive => ?_
  have hturn := ht.active element hparent hactive
  rw [← ht.completing thread _ job hop rfl] at hturn
  obtain rfl := F.turn_inj (.inr hparent) (.inr hjob) hturn
  rcases hc.sound.of_completing hop (fun _ => Iff.rfl) rfl with ⟨rfl, -, -⟩ | ⟨-, -, hplace⟩
  · exact F.ne_of_parent hjob rfl
  · rw [hplace] at hactive
    cases hactive

/-- An element of a collection that has been executed is waiting, at work or done. -/
theorem of_late (hc : s.Calm F start) (hkind : F.kind collection ≠ .plain)
    (hlate : (s.data.place collection).isLate = true)
    (hparent : F.parent element = some collection)
    (henqueued : (s.data.place element).isEnqueued = false)
    (hactive : (s.data.place element).isActive = false) :
    (s.data.place element).isOver = true ∨ (s.data.place element).isRemoved = true := by
  have hfresh := (hc.sound.books.fresh _ _ hparent).not
  rw [show s.data.books.opened collection = true from hc.opened collection hkind hlate] at hfresh
  simp only [Data.books] at hfresh
  cases hplace : s.data.place element with
  | fresh => exact absurd hplace (hfresh.mpr (by simp))
  | held stage thread =>
      rw [hplace] at henqueued hactive
      cases stage with
      | reporting => exact .inl rfl
      | taken | leaving => exact .inr rfl
      | pending => cases henqueued
      | assigned | executing | closing | ending => cases hactive
  | queued =>
      rw [hplace] at henqueued
      cases henqueued
  | waiting =>
      rw [hplace] at hactive
      cases hactive
  | reported => exact .inl rfl
  | discounted | lost => exact .inr rfl

theorem not_pending (hc : s.Calm F start) (hkind : F.kind collection = .sequence)
    {op : Op J} (hop : op ∈ s.stack thread) (hcompletes : op.completes? = some (collection, job))
    (hne : job ≠ collection) (hparent : F.parent element = some collection)
    (other : Thread T) : s.data.place element ≠ .held .pending other := by
  intro hplace
  have ht := hc.inTurn collection hkind
  have hself := ht.completing other _ collection (hc.sound.of_pending hparent hplace) rfl
  have hconcerns := (hc.sound.of_completes hop hcompletes).1
  have hown : F.Concerns collection collection := .inl ⟨rfl, by simp [hkind]⟩
  exact hne (F.turn_inj hconcerns hown
    ((ht.completing thread op job hop hcompletes).trans hself.symm))

end State.Calm

/-! ## Blockers that are being removed -/

/-- While the blocker of an element is being removed, the element is done, or its Sequence is in
the queue or brings it the turn. -/
def Lifts (F : Forest J P σ) (d : Data J P T σ) : Op J → List (Op J) → Prop
  | .removeBlocker element, rest =>
      ∃ collection, F.parent element = some collection ∧ F.kind collection = .sequence ∧
        ((d.place element).isOver = true ∨ (d.place element).isRemoved = true ∨
          .takeAt collection ∈ rest ∨
          none ∈ d.queuePolicies element ∧ ∃ job below, rest = .countDown collection job :: below)
  | _, _ => True

/-- A blocker that is being removed belongs to an element that is not about to begin. -/
def State.Lifting (F : Forest J P σ) (s : State J P T σ) : Prop :=
  ∀ thread, Stacked (Lifts F s.data) (s.stack thread)

section Lifting

variable [DecidableEq J] [DecidableEq P] {F : Forest J P σ} {start : Weaver.Start J P σ}
  {s next : State J P T σ} {thread other : Thread T} {op : Op J} {ops rest : List (Op J)}
  {collection element job : J}

omit [DecidableEq P] in
/-- An element whose blocker is removed in a loop over the elements of its Sequence. -/
theorem State.Calm.lifts_of_loop (hc : s.Calm F start) (hkind : F.kind collection = .sequence)
    (hstack : s.stack thread = .dequeueElement collection element false :: rest)
    (hmem : element ∉ s.data.assignments) :
    (s.data.place element).isOver = true ∨ (s.data.place element).isRemoved = true := by
  have hop : .dequeueElement collection element false ∈ s.stack thread := by
    rw [hstack]
    exact List.mem_cons_self
  obtain ⟨-, -, -, hparent, -⟩ := hc.sound.fits hop
  obtain ⟨job, status, hrestores⟩ := Outside.restores_of_nobody hstack (hc.called thread)
    (.inr (.inr (.inr ⟨element, .inl rfl⟩)))
  have hrestores : .restoreStatus collection job status ∈ s.stack thread := by
    rw [hstack]
    exact List.mem_cons_of_mem _ hrestores
  have hne : job ≠ collection :=
    F.ne_of_parent (hc.reporting.restores thread collection job status hrestores).2.1
  refine hc.of_late (by simp [hkind]) ?_ hparent ?_ (hc.not_active_of_restores hrestores hparent)
  · exact hc.sound.late_of_completing hrestores (fun _ => Iff.rfl) rfl
  · have hpending := hc.not_pending hkind hrestores rfl hne hparent
    cases hplace : s.data.place element with
    | queued => exact absurd (hc.sound.queued element hplace) hmem
    | held stage other =>
        cases stage with
        | pending => exact absurd hplace (hpending other)
        | _ => rfl
    | _ => rfl

omit [DecidableEq P] in
/-- The element that has the next turn is blocked when the turn comes to it, or it is done. -/
theorem State.Calm.lifts_of_advance (hc : s.Calm F start) (hkind : F.kind collection = .sequence)
    (hop : .advance collection job ∈ s.stack thread)
    (hget : (F.elements collection)[s.data.completed collection]? = some element) :
    (s.data.place element).isOver = true ∨ (s.data.place element).isRemoved = true ∨
      none ∈ s.data.queuePolicies element := by
  have ht := hc.inTurn collection hkind
  have hparent := (F.mem_elements _ _).mp (List.mem_of_getElem? hget)
  have hturn := F.turn_of_getElem? hget
  have hjob := ht.completing thread _ job hop rfl
  by_cases henqueued : (s.data.place element).isEnqueued = true
  · rcases (ht.blocked element hparent henqueued (by omega)).1 with ⟨other, hassign⟩ | hblocked
    · -- the element is about to be handed over by the thread that completes the own job
      have hplace := hc.sound.of_assignBlocker hassign
      have hself := hc.sound.of_pending hparent hplace
      obtain rfl : job = collection := by
        by_contra hne
        exact hc.not_pending hkind hop rfl hne hparent other hplace
      have howes : (.job job, ()) ∈ (Op.advance job job).locks := List.mem_singleton.mpr rfl
      have howes' : (.job job, ()) ∈ (Op.processCompletedElement job job).locks :=
        List.mem_singleton.mpr rfl
      obtain ⟨rfl, -⟩ := hc.sound.locks.thread_unique hop howes hself howes'
      cases hc.sound.locks.op_unique hop howes hself howes'
    · exact .inr (.inr hblocked)
  · have hlate := hc.sound.late_of_completing hop (fun _ => Iff.rfl) rfl
    have hactive : (s.data.place element).isActive = false := by
      refine Bool.eq_false_of_not_eq_true fun hactive => ?_
      have hcompleted := ht.active element hparent hactive
      omega
    rcases hc.of_late (by simp [hkind]) hlate hparent (by simpa using henqueued) hactive with
      hover | hremoved
    · exact .inl hover
    · exact .inr (.inl hremoved)

omit [DecidableEq P] in
/-- A blocker is removed once when the turn comes to its element. -/
theorem State.Calm.notMem_of_unblock (hc : s.Calm F start)
    (hrests : Stacked (Rests F s.data.place) (s.stack thread))
    (hstack : s.stack thread = .removeBlocker element :: .countDown collection job :: rest)
    (hparent : F.parent element = some collection) (hkind : F.kind collection = .sequence) :
    .removeBlocker element ∉ rest ∧
      ∀ other, other ≠ thread → .removeBlocker element ∉ s.stack other := by
  have hq := (hc.blocking collection hkind).1
  have hholder := hq.holder_of_removeBlocker hparent (hstack ▸ List.mem_cons_self)
  constructor
  · intro hmem
    have hunblocks := hc.unblocks thread
    rw [hstack] at hunblocks hrests
    obtain ⟨ops, below, hsplit, hreleases⟩ := hunblocks.2.2.of_mem hmem
    refine hrests.2.1 (.job collection) ?_
    rw [hsplit]
    exact Layout.releases_append ops (Layout.releases_cons (hreleases collection hparent))
  · intro other hne hmem
    have hother := hq.holder_of_removeBlocker hparent hmem
    rw [hholder] at hother
    exact hne (Option.some.inj hother).symm

omit [DecidableEq P] in
theorem State.Calm.notMem_of_takeAt (hc : s.Calm F start) (hkind : F.kind collection = .sequence)
    (hparent : F.parent element = some collection) (hop : .takeAt collection ∈ s.stack thread) :
    none ∉ s.data.queuePolicies element := by
  intro hblocked
  have hopened := ((hc.blocking collection hkind).2.1.known element hparent hblocked).1
  have hfresh := hc.sound.fresh_of_takeAt hop hparent
  have hnone := (hc.sound.books.fresh _ _ hparent).mp hfresh
  rw [show s.data.books.opened collection = true from hopened] at hnone
  cases hnone

theorem State.Lifting.exec_mono (hl : s.Lifting F) (hc : s.Calm F start)
    (hrests : ∀ thread, Stacked (Rests F s.data.place) (s.stack thread))
    (hstack : s.stack thread = op :: rest)
    (hfree : ∀ mutex, wants F op = some mutex → s.data.holder mutex = none) {stack : List (Op J)}
    (hafter : stack = rest ∨ ∃ other, other ≠ thread ∧ stack = s.stack other)
    (hbefore : Stacked (Lifts F s.data) stack) :
    Stacked (Lifts F (exec F thread op s.data).1) stack := by
  refine hbefore.mono_of_mem fun later hlater below hlifts => ?_
  cases later with
  | removeBlocker element =>
      obtain ⟨collection, hparent, hkind, hcases⟩ := hlifts
      have hplace := hc.sound.exec_place hstack hfree element
      refine ⟨collection, hparent, hkind, ?_⟩
      rcases hcases with hover | hremoved | htakeAt | ⟨hblocked, hunder⟩
      · refine .inl ?_
        rcases hplace with hsame | hmoves
        · exact hsame ▸ hover
        · exact hmoves.isOver hover
      · refine .inr (.inl ?_)
        rcases hplace with hsame | hmoves
        · exact hsame ▸ hremoved
        · exact hmoves.isRemoved hparent hremoved
      · exact .inr (.inr (.inl htakeAt))
      · by_cases hop : op = .removeBlocker element
        · -- the blocker is removed by another operation than the one that is about to
          subst hop
          have hlift := hl thread
          rw [hstack] at hlift
          obtain ⟨owner, howner, -, hcases⟩ := hlift.1
          cases howner.symm.trans hparent
          rcases hcases with hover | hremoved | htakeAt | ⟨-, job, last, hrest⟩
          · exact .inl hover
          · exact .inr (.inl hremoved)
          · exact absurd hblocked (hc.notMem_of_takeAt hkind hparent
              (hstack ▸ List.mem_cons_of_mem _ htakeAt))
          · subst hrest
            obtain ⟨hnot, hothers⟩ := hc.notMem_of_unblock (hrests thread) hstack hparent hkind
            rcases hafter with rfl | ⟨other, hne, rfl⟩
            · exact absurd ((List.mem_cons.mp hlater).resolve_left (by simp)) hnot
            · exact absurd hlater (hothers other hne)
        · exact .inr (.inr (.inr
            ⟨exec_mem_blocker thread s.data (.inl hblocked) hop, hunder⟩))
  | _ => trivial

theorem State.Lifting.exec (hl : s.Lifting F) (hc : s.Calm F start)
    (hrests : ∀ thread, Stacked (Rests F s.data.place) (s.stack thread))
    (hstack : s.stack thread = op :: rest)
    (hfree : ∀ mutex, wants F op = some mutex → s.data.holder mutex = none) :
    Stacked (Lifts F (exec F thread op s.data).1) ((exec F thread op s.data).2 ++ rest) := by
  have hop : op ∈ s.stack thread := by
    rw [hstack]
    exact List.mem_cons_self
  have hlift := hl thread
  have hlies := hrests thread
  have hfits := hc.sound.layout thread
  rw [hstack] at hlift hlies hfits
  have hrest := hl.exec_mono hc hrests hstack hfree (.inl rfl) hlift.2
  have hother : (∀ collection job, op ≠ .advance collection job) →
      (∀ collection element locked, op ≠ .dequeueElement collection element locked) →
      Stacked (Lifts F (Collection.exec F thread op s.data).1)
        ((Collection.exec F thread op s.data).2 ++ rest) := by
    intro hadvance hturn
    refine Stacked.append (fun later hlater above => ?_) hrest
    have hcalls := exec_calls F thread op s.data hlater
    cases later with
    | removeBlocker element =>
        generalize hremove : Op.removeBlocker element = later at hcalls
        cases hcalls with
        | unblock => exact absurd rfl (hadvance _ _)
        | elementDequeued => exact absurd rfl (hturn _ _ _)
        | _ => cases hremove
    | _ => trivial
  cases op with
  | advance collection job =>
      have hkind := hlies.1.1
      simp only [Collection.exec, List.append_assoc] at hrest ⊢
      cases hget : (F.elements collection)[s.data.completed collection]? with
      | none => exact ⟨trivial, hrest⟩
      | some element =>
          have hparent := (F.mem_elements _ _).mp (List.mem_of_getElem? hget)
          refine ⟨⟨collection, hparent, hkind, ?_⟩, trivial, hrest⟩
          rcases hc.lifts_of_advance hkind hop hget with hover | hremoved | hblocked
          · exact .inl hover
          · exact .inr (.inl hremoved)
          · exact .inr (.inr (.inr ⟨hblocked, job, rest, rfl⟩))
  | dequeueElement collection element locked =>
      obtain ⟨hparent, -, hhook⟩ := hfits.1
      -- where the element is after the turn of the loop
      have hdone : F.kind collection = .sequence →
          ((Collection.exec F thread (.dequeueElement collection element locked) s.data).1.place
              element).isOver = true ∨
            ((Collection.exec F thread (.dequeueElement collection element locked) s.data).1.place
              element).isRemoved = true ∨ .takeAt collection ∈ rest := by
        intro hkind
        cases locked with
        | true => exact .inr (.inr (hhook rfl).2)
        | false =>
            by_cases hmem : element ∈ s.data.assignments
            · refine .inr (.inl ?_)
              simp [Collection.exec, hmem, Data.take, Data.record, Data.moveTo, Data.lock,
                Place.isRemoved]
            · have hsettled := hc.lifts_of_loop hkind hstack hmem
              simp only [Collection.exec, hmem, if_false]
              exact hsettled.imp_right .inl
      have hblocker : Stacked (Lifts F
          (Collection.exec F thread (.dequeueElement collection element locked) s.data).1)
          (elementDequeued F collection element ++ rest) := by
        unfold elementDequeued
        split
        · rename_i hkind
          refine ⟨⟨collection, hparent, hkind, ?_⟩, hrest⟩
          exact (hdone hkind).imp_right fun hlater => hlater.imp_right .inl
        · exact hrest
      generalize (Collection.exec F thread (.dequeueElement collection element locked)
        s.data).1 = after at hblocker
      simp only [Collection.exec]
      split
      · split
        · exact ⟨trivial, trivial, trivial, hblocker⟩
        · exact ⟨trivial, trivial, trivial, trivial, hblocker⟩
      · exact hblocker
  | _ => exact hother (by simp) (by simp)

variable [DecidableEq T]

theorem State.Lifting.runThread (hl : s.Lifting F) (hc : s.Calm F start)
    (hrests : ∀ thread, Stacked (Rests F s.data.place) (s.stack thread))
    (h : s.runThread F thread = some next) : next.Lifting F := by
  obtain ⟨op, rest, hstack, hfree, rfl⟩ := State.runThread_eq_some h
  intro other
  dsimp only
  by_cases heq : other = thread
  · subst heq
    rw [Function.update_self]
    exact hl.exec hc hrests hstack hfree
  · rw [Function.update_of_ne heq]
    exact hl.exec_mono hc hrests hstack hfree (.inr ⟨other, heq, rfl⟩) (hl other)

theorem State.Lifting.step (hl : s.Lifting F) (hc : s.Calm F start)
    (hrests : ∀ thread, Stacked (Rests F s.data.place) (s.stack thread)) {act : Act J T}
    (h : step F s act = some next) : next.Lifting F := by
  refine step_rule hl (fun _ _ => hl.runThread hc hrests) ?_ ?_ h
  · intro caller jobs _ hjobs thread
    refine (hl thread).mono_of_mem fun later _ below hlifts => ?_
    cases later with
    | removeBlocker element =>
        obtain ⟨collection, hparent, hkind, hcases⟩ := hlifts
        refine ⟨collection, hparent, hkind, ?_⟩
        rw [State.takeUp_place hjobs hparent]
        exact hcases
    | _ => trivial
  · intro before caller hbefore hbegin thread
    obtain ⟨-, rfl⟩ := State.beginCall_eq_some hbegin
    dsimp only
    by_cases heq : thread = .caller caller
    · rw [heq, Function.update_self]
      cases act <;> simp [Act.ops, Stacked, Lifts]
    · rw [Function.update_of_ne heq]
      exact hbefore thread

end Lifting

/-! ## Threads do not wait for each other -/

section Uncrossed

variable [DecidableEq J] {F : Forest J P σ} {start : Weaver.Start J P σ} {s : State J P T σ}
  {thread : Thread T} {inner outer : J} {rest : List (Op J)}

theorem State.Calm.not_restores (hc : s.Calm F start)
    (hlate : ∀ collection, F.kind collection ≠ .plain →
      (s.data.place collection).isLate = true → s.data.jobsStarted collection ≠ 0)
    (hzero : s.data.jobsStarted inner = 0) {job : J} {status : Status} :
    .restoreStatus inner job status ∉ s.stack thread := by
  intro hrestores
  have hkind := (hc.reporting.restores thread inner job status hrestores).1
  refine hlate inner (by simp [hkind]) ?_ hzero
  exact hc.sound.late_of_completing hrestores (fun _ => Iff.rfl) rfl

/-- The begin that a collection notifies first is that of its own job. -/
theorem State.Calm.executing_of_begins (hc : s.Calm F start)
    (hrests : Stacked (Rests F s.data.place) (s.stack thread))
    (hlate : ∀ collection, F.kind collection ≠ .plain →
      (s.data.place collection).isLate = true → s.data.jobsStarted collection ≠ 0)
    (hstack : s.stack thread = .elementStarted inner :: rest)
    (hzero : s.data.jobsStarted inner = 0) :
    s.data.place inner = .held .executing thread := by
  have hmem : ∀ {op}, op ∈ rest → op ∈ s.stack thread := by
    intro op hop
    rw [hstack]
    exact List.mem_cons_of_mem _ hop
  rw [hstack] at hrests
  rcases hrests.1.1 with hself | ⟨element, hparent, helement⟩
  · exact hc.sound.place_eq (hmem hself) (List.mem_singleton.mpr rfl)
  · -- an element begins after its collection has been executed
    have hplace : s.data.place element = .held .executing thread :=
      hc.sound.place_eq (hmem helement) (List.mem_singleton.mpr rfl)
    have hopened := hc.sound.books.opened_of_ne_fresh hparent (by simp [Data.books, hplace])
    refine absurd hzero (hlate inner (fun hplain => ?_) (hc.sound.books.late inner hopened))
    have helements := (F.mem_elements inner element).mpr hparent
    rw [F.elements_plain inner hplain] at helements
    cases helements

/-- **The steps of a run that nobody disturbs are uncrossed.** -/
theorem State.Calm.uncrossed (hc : s.Calm F start) (hl : s.Lifting F)
    (hrests : ∀ thread, Stacked (Rests F s.data.place) (s.stack thread))
    (hlate : ∀ collection, F.kind collection ≠ .plain →
      (s.data.place collection).isLate = true → s.data.jobsStarted collection ≠ 0)
    (act : Act J T) : Uncrossed F s act where
  begins thread inner outer _ hhead hzero hparent other := by
    obtain ⟨rest, hstack⟩ := List.head?_eq_some_iff.mp hhead
    have hplace := hc.executing_of_begins (hrests thread) hlate hstack hzero
    have hnotFresh : .takeAt outer ∉ s.stack other := by
      intro htakeAt
      rw [hc.sound.fresh_of_takeAt htakeAt hparent] at hplace
      cases hplace
    have hnotRestores : ∀ {job status}, .restoreStatus outer job status ∉ s.stack other := by
      intro job status hrestores
      have hactive := hc.not_active_of_restores hrestores hparent
      rw [hplace] at hactive
      cases hactive
    -- an operation that heads for the inner collection is on no stack
    have hnot : ∀ op ∈ s.stack other, ¬ op.HeadsFor F inner := by
      intro op hop hheads
      obtain ⟨above, below, hsplit, hcalled⟩ := (hc.called other).of_mem hop
      have hbelow : ∀ {later}, later ∈ below → later ∈ s.stack other := by
        intro later hlater
        rw [hsplit]
        exact List.mem_append_right _ (List.mem_cons_of_mem _ hlater)
      cases op with
      | requestAbort job | abortElement job | abortElements job => exact hcalled
      | stop job | dequeueSelf job | stopElements job =>
          obtain rfl := hheads
          obtain ⟨head, status, last, rfl⟩ := hcalled.resolve_left id
          exact hc.not_restores hlate hzero (hbelow List.mem_cons_self)
      | removeBlocker element =>
          obtain rfl := hheads
          obtain ⟨above', below', hsplit', owner, howner, -, hcases⟩ := (hl other).of_mem hop
          cases howner.symm.trans hparent
          rcases hcases with hover | hremoved | htakeAt | ⟨hblocked, -⟩
          · rw [hplace] at hover
            cases hover
          · rw [hplace] at hremoved
            cases hremoved
          · refine hnotFresh ?_
            rw [hsplit']
            exact List.mem_append_right _ (List.mem_cons_of_mem _ htakeAt)
          · exact hc.policies.unblocked element (by rw [hplace]; rfl) hblocked
      | dequeueElement collection element locked =>
          obtain ⟨rfl, -⟩ := hheads
          obtain ⟨_, below', hsplit', howner, -, hhook⟩ := hc.sound.fits hop
          cases howner.symm.trans hparent
          cases locked with
          | true =>
              refine hnotFresh ?_
              rw [hsplit']
              exact List.mem_append_right _ (List.mem_cons_of_mem _ (hhook rfl).2)
          | false =>
              obtain ⟨job, status, hrestores⟩ := (hcalled rfl).resolve_left id
              exact hnotRestores (hbelow hrestores)
      | _ => exact hheads
    exact Stacked.of_forall_mem fun op hop _ hheads => absurd hheads (hnot op hop)
  aborts thread outer _ hhead := by
    obtain ⟨rest, hstack⟩ := List.head?_eq_some_iff.mp hhead
    exact (hc.not_aborts (hstack ▸ List.mem_cons_self) ⟨outer, .inr (.inl rfl)⟩).elim
  stops thread outer _ hhead _ _ other inner hnotifies := by
    obtain ⟨rest, hstack⟩ := List.head?_eq_some_iff.mp hhead
    have hcalled := hc.called thread
    rw [hstack] at hcalled
    obtain ⟨job, status, below, rfl⟩ := (hcalled.1 rfl).resolve_left id
    obtain ⟨hparent, hplace⟩ := hc.sound.of_notifies (hrests other) hnotifies
    have hactive := hc.not_active_of_restores
      (hstack ▸ List.mem_cons_of_mem _ (List.mem_cons_of_mem _ List.mem_cons_self)) hparent
    rw [hplace] at hactive
    cases hactive
  unqueued thread outer _ hhead _ _ := by
    obtain ⟨rest, hstack⟩ := List.head?_eq_some_iff.mp hhead
    have hcalled := hc.called thread
    rw [hstack] at hcalled
    obtain ⟨job, status, below, rfl⟩ := (hcalled.1 rfl).resolve_left id
    have hrestores : .restoreStatus outer job status ∈ s.stack thread := by
      rw [hstack]
      exact List.mem_cons_of_mem _ (List.mem_cons_of_mem _ List.mem_cons_self)
    have hlater := hc.sound.late_of_completing hrestores (fun _ => Iff.rfl) rfl
    exact Place.isAssigned_of_isStarted (Place.isStarted_of_isLate hlater)

end Uncrossed

section Runs

variable [DecidableEq J] [DecidableEq P] [DecidableEq T] {F : Forest J P σ}
  {s next : State J P T σ} {start : Weaver.Start J P σ}

/-- **Nobody crosses anybody's way in a run that nobody disturbs.** -/
theorem runs_uncrossed (run : Runs F Undisturbed start s) :
    Runs F (Uncrossed F) start s ∧ s.Lifting F := by
  induction run with
  | refl =>
      refine ⟨.refl, fun thread => ?_⟩
      cases thread <;> simp [init, Stacked, Lifts]
  | @tail mid last act run hok hstep ih =>
      obtain ⟨hrun, hl⟩ := ih
      have hc := runs_calm run
      have hrests := runs_rests hrun
      refine ⟨hrun.tail ?_ hstep, hl.step hc hrests hstep⟩
      exact hc.uncrossed hl hrests (fun _ => runs_jobsStarted run) act

/-- The rank of the mutex that the thread waits for. -/
def State.waitRank (F : Forest J P σ) (s : State J P T σ) (thread : Thread T) : ℕ ×ₗ ℕ :=
  ((s.wanted F thread).map (s.data.rank F)).getD (toLex (0, 0))

/-- Who is waited for and waits waits for a mutex of a higher rank than who waits for it. -/
theorem runs_waitRank_lt (run : Runs F (Uncrossed F) start s) {first waiting holding last : Thread T}
    (hfirst : s.WaitsFor F first waiting) (hwaits : s.WaitsFor F waiting holding)
    (hlast : s.WaitsFor F holding last) : s.waitRank F holding < s.waitRank F waiting := by
  have hs := runs_sound run
  have hrests := runs_rests run
  have hrank : ∀ {thread op rest mutex}, s.stack thread = op :: rest → wants F op = some mutex →
      s.waitRank F thread = s.data.rank F mutex := by
    intro thread op rest mutex hstack hmutex
    simp [State.waitRank, State.wanted, hstack, hmutex]
  obtain ⟨-, -, mutex, -, -, hholder⟩ := hfirst
  obtain ⟨op, rest, wanted, hwaiting, hwants, hwanted⟩ := hwaits
  obtain ⟨later, below, next, hholding, hnext, -⟩ := hlast
  rw [hrank hwaiting hwants, hrank hholding hnext]
  have hlies := hrests holding
  rw [hholding] at hlies
  refine hs.rank_lt hholding hlies.1 hnext hwanted ?_
  rintro outer rfl
  exact (runs_apart run).not_waits hs hrests (runs_unblocks run) hholding hwanted hwaiting hwants
    hholder

omit [DecidableEq P] [DecidableEq T] in
theorem State.Sound.stack_ne_nil_of_waits (hs : s.Sound F) {thread other : Thread T}
    (h : s.WaitsFor F thread other) : s.stack other ≠ [] := by
  obtain ⟨op, rest, mutex, -, -, hholder⟩ := h
  obtain ⟨later, hmem, -⟩ := hs.releases_of_holder hholder
  exact List.ne_nil_of_mem hmem

theorem State.isSome_runThread {thread : Thread T}
    (hne : s.stack thread ≠ []) (hnot : ∀ other, ¬ s.WaitsFor F thread other) :
    (s.runThread F thread).isSome = true := by
  obtain ⟨op, rest, hstack⟩ := List.exists_cons_of_ne_nil hne
  have hfree : (wants F op).all (fun mutex => decide (s.data.holder mutex = none)) = true := by
    cases hwants : wants F op with
    | none => rfl
    | some mutex =>
        cases hholder : s.data.holder mutex with
        | none => simp [hholder]
        | some other => exact absurd ⟨op, rest, mutex, hstack, hwants, hholder⟩ (hnot other)
  simp [State.runThread, hstack, hfree]

/-- Whoever has something to do can go on or waits, through others, for a thread that can. -/
theorem runs_exists_ready (run : Runs F Undisturbed start s) {thread : Thread T}
    (hne : s.stack thread ≠ []) :
    ∃ ready, Relation.ReflTransGen (s.WaitsFor F) thread ready ∧
      (s.runThread F ready).isSome = true := by
  have hs := runs_sound run
  obtain ⟨ready, hpath, hlast⟩ := Library.exists_terminal_of_rank (r := s.WaitsFor F)
    (s.waitRank F) (fun _ _ _ _ => runs_waitRank_lt (runs_uncrossed run).1) thread
  refine ⟨ready, hpath, State.isSome_runThread ?_ hlast⟩
  rcases Relation.ReflTransGen.cases_tail hpath with rfl | ⟨before, -, hwaits⟩
  · exact hne
  · exact hs.stack_ne_nil_of_waits hwaits

/-- **Nested work that nobody disturbs does not deadlock.**  Where nobody calls `stop` or
`requestAbort` from outside, no threads wait for each other in a cycle, and every thread that has
something to do can go on or waits, through others, for one that can. -/
theorem undisturbed_progress (run : Runs F Undisturbed start s) :
    (∀ thread, ¬ Relation.TransGen (s.WaitsFor F) thread thread) ∧
      ∀ thread, s.stack thread ≠ [] →
        ∃ ready, Relation.ReflTransGen (s.WaitsFor F) thread ready ∧
          (s.runThread F ready).isSome = true := by
  refine ⟨fun thread => ?_, fun thread => runs_exists_ready run⟩
  exact Library.acyclic_of_rank (s.waitRank F)
    (fun _ _ _ _ => runs_waitRank_lt (runs_uncrossed run).1) thread

end Runs

/-- A worker that begins the inner Collection, of which it has the mutex, waits for that of the outer
one while another worker completes the job of the outer one. -/
theorem undisturbed_progress_nested : ∃ s : State (Fin 7) Empty Unit Unit,
    Runs nestAndJobs Undisturbed (.plain ()) s ∧ s.data.holder (.job 1) = some (.worker 1) ∧
      s.WaitsFor nestAndJobs (.worker 1) (.worker 0) ∧
      (∀ thread, ¬ Relation.TransGen (s.WaitsFor nestAndJobs) thread thread) ∧
      ∃ ready, Relation.ReflTransGen (s.WaitsFor nestAndJobs) (.worker 1) ready ∧
        (s.runThread nestAndJobs ready).isSome = true := by
  obtain ⟨s, run, ⟨hinner, hhead, houter⟩, -⟩ :=
    exists_runs nestAndJobs Undisturbed (.plain ())
      (fun s : State (Fin 7) Empty Unit Unit =>
        s.data.holder (.job 1) = some (.worker 1) ∧
          (s.stack (.worker 1)).head? = some (.elementStarted 0) ∧
          s.data.holder (.job 0) = some (.worker 0))
      (List.flatten [[.enqueue () [0]], List.replicate 3 (.run (.caller ())),
        List.replicate 11 (.run (.worker 0)), List.replicate 4 (.run (.worker 1))])
      (by decide +kernel)
  obtain ⟨hacyclic, hready⟩ := undisturbed_progress run
  have hne : s.stack (.worker 1) ≠ [] := by
    intro hnil
    rw [hnil] at hhead
    cases hhead
  exact ⟨s, run, hinner, State.waitsFor_of_head hhead rfl houter, hacyclic, hready _ hne⟩

end ThreadWeaver.Collection
