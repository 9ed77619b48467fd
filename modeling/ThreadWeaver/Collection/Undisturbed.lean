import ThreadWeaver.Collection.Outside
import ThreadWeaver.Collection.Abort
import ThreadWeaver.Library.History

/-!
# Runs that nobody disturbs

When no other thread calls `stop` or `requestAbort`, a Sequence that stops itself is the only
one to dequeue jobs.  It does so while it completes an element that has ended without success,
and that element is still counted on; so no collection misses its end, no collection leaves the
queue by its own `stop`, and whatever is dequeued comes after such an element.
-/

namespace ThreadWeaver.Collection

open Library (Stacked RunWhere Ordered)

variable {J P T σ : Type*} [DecidableEq J]

namespace Books.Lawful

variable {F : Forest J P σ} {b : Books J T} {collection element other : J} {thread : Thread T}

omit [DecidableEq J] in
/-- A collection that completes its own job counts on that and on its elements. -/
theorem two_le_of_closing (hb : b.Lawful F) (hplace : b.place collection = .held .closing thread)
    (hparent : F.parent element = some collection) (hfresh : b.place element ≠ .fresh)
    (hcounts : (b.place element).isCounted = false) : 2 ≤ b.jobCounter collection := by
  have hcounter := hb.counter collection (hb.opened_of_ne_fresh hparent hfresh)
  have hpos := outstanding_pos hparent hcounts
  rw [hplace] at hcounter
  simp only [Place.isClosing, Bool.toNat_true] at hcounter
  omega

theorem two_le_of_ne (hb : b.Lawful F) (hparent : F.parent element = some collection)
    (hfresh : b.place element ≠ .fresh) (hcounts : (b.place element).isCounted = false)
    (hother : F.parent other = some collection) (hne : other ≠ element)
    (hcounts' : (b.place other).isCounted = false) : 2 ≤ b.jobCounter collection := by
  have hcounter := hb.counter collection (hb.opened_of_ne_fresh hparent hfresh)
  have hupdate : ((b.countOff collection element .reported).outstanding F collection : ℤ) =
      b.outstanding F collection - 1 := outstanding_update hparent hcounts rfl
  have hsame : (b.countOff collection element .reported).place other = b.place other :=
    Function.update_of_ne hne _ _
  have hpos : 0 < (b.countOff collection element .reported).outstanding F collection :=
    outstanding_pos hother (by rw [hsame]; exact hcounts')
  omega

end Books.Lawful

section Sound

variable {F : Forest J P σ} {s : State J P T σ} {thread : Thread T} {op : Op J}
  {rest : List (Op J)} {collection element job : J} {status : Status}

theorem State.Sound.late_of_completing (hs : s.Sound F) (hop : op ∈ s.stack thread)
    (hfits : ∀ rest, Fits F op rest ↔ F.Concerns collection job)
    (hjobs : op.jobs = [(job, if job = collection then .closing else .reporting)]) :
    (s.data.place collection).isLate = true := by
  rcases hs.of_completing hop hfits hjobs with ⟨-, -, hplace⟩ | ⟨hparent, -, hplace⟩
  · rw [hplace]
    rfl
  · exact hs.books.late collection
      (hs.books.opened_of_ne_fresh hparent (by simp [Data.books, hplace]))

theorem State.Sound.two_le_counter (hs : s.Sound F)
    (hop : .restoreStatus collection job status ∈ s.stack thread)
    (hparent : F.parent element = some collection) (hne : element ≠ job)
    (hfresh : s.data.place element ≠ .fresh)
    (hcounts : (s.data.place element).isCounted = false) :
    2 ≤ s.data.jobCounter collection := by
  rcases hs.of_completing hop (fun _ => Iff.rfl) rfl with ⟨rfl, -, hplace⟩ | ⟨hjob, -, hplace⟩
  · exact hs.books.two_le_of_closing hplace hparent hfresh hcounts
  · refine hs.books.two_le_of_ne hjob ?_ ?_ hparent hne hcounts <;>
      simp [Data.books, hplace, Place.isCounted]

theorem State.Sound.notMem_of_restores (hs : s.Sound F)
    (hop : .restoreStatus collection job status ∈ s.stack thread) :
    collection ∉ s.data.assignments := by
  have hlate := hs.late_of_completing hop (fun _ => Iff.rfl) rfl
  intro hmem
  rcases hs.listed collection hmem with hplace | ⟨other, htakeAt⟩
  · rw [hplace] at hlate
    cases hlate
  · rcases (hs.of_takeAt htakeAt).2 with hplace | hplace <;>
    · rw [hplace] at hlate
      cases hlate

omit [DecidableEq J] in
/-- What a Sequence that stops itself is completing. -/
theorem Outside.restores_of_nobody (hstack : s.stack thread = op :: rest)
    (hcalled : Stacked (Outside.nobody F).Called (s.stack thread))
    (hop : op = .stop collection ∨ op = .dequeueSelf collection ∨ op = .stopElements collection ∨
      ∃ element, op = .dequeueElement collection element false ∨
        op = .discount collection element) :
    ∃ job status, .restoreStatus collection job status ∈ rest := by
  rw [hstack] at hcalled
  have hcall := hcalled.1
  rcases hop with rfl | rfl | rfl | ⟨element, rfl | rfl⟩
  · obtain ⟨job, status, below, rfl⟩ := hcall.resolve_left id
    exact ⟨job, status, List.mem_cons_self⟩
  · obtain ⟨job, status, below, rfl⟩ := hcall.resolve_left id
    exact ⟨job, status, List.mem_cons_self⟩
  · obtain ⟨job, status, below, rfl⟩ := hcall.resolve_left id
    exact ⟨job, status, List.mem_cons_self⟩
  · exact (hcall rfl).resolve_left id
  · exact hcall.resolve_left id

end Sound

section Runs

variable [DecidableEq P] [DecidableEq T] {F : Forest J P σ} {s : State J P T σ}
  {start : Weaver.Start J P σ}

/-- **Where nobody calls `stop` or `requestAbort`, every collection gets to its end.** -/
theorem runs_nothingMissed (run : Runs F Undisturbed start s) (collection : J) :
    Runs F (NothingMissed F collection) start s := by
  refine run.mono_of_run fun mid act next hmid _ _ op hop => ?_
  have hs := runs_sound hmid
  obtain ⟨hcalled, habort⟩ := Outside.runs_called (hmid.mono Outside.nobody_allows)
  cases act with
  | run thread =>
      have hhead : (mid.stack thread).head? = some op := hop
      obtain ⟨rest, hstack⟩ := List.head?_eq_some_iff.mp hhead
      have hmem : op ∈ mid.stack thread := by
        rw [hstack]
        exact List.mem_cons_self
      have hbelow : ∀ {below : Op J}, below ∈ rest → below ∈ mid.stack thread := by
        intro below hmem
        rw [hstack]
        exact List.mem_cons_of_mem _ hmem
      cases op with
      | elementFinished other job =>
          by_contra hmisses
          simp only [Op.misses, Bool.not_eq_false, decide_eq_true_eq] at hmisses
          exact habort collection hmisses.2.2
      | discount other element =>
          by_contra hmisses
          simp only [Op.misses, Bool.not_eq_false, decide_eq_true_eq] at hmisses
          obtain ⟨rfl, hone⟩ := hmisses
          obtain ⟨job, status, hrestores⟩ :=
            Outside.restores_of_nobody hstack (hcalled thread)
              (.inr (.inr (.inr ⟨element, .inr rfl⟩)))
          obtain ⟨-, -, -, hparent, -⟩ := hs.fits hmem
          have hplace : mid.data.place element = .held .taken thread :=
            hs.place_eq hmem (by simp [Op.jobs])
          have hne : element ≠ job := by
            rintro rfl
            rcases hs.of_completing (hbelow hrestores) (fun _ => Iff.rfl) rfl with
              ⟨rfl, -, hplace'⟩ | ⟨-, -, hplace'⟩ <;>
            · rw [hplace] at hplace'
              cases hplace'
          have htwo := hs.two_le_counter (hbelow hrestores) hparent hne (by simp [hplace])
            (by simp [hplace, Place.isCounted])
          omega
      | dequeueSelf other =>
          by_contra hmisses
          simp only [Op.misses, Bool.not_eq_false, decide_eq_true_eq] at hmisses
          obtain ⟨job, status, hrestores⟩ :=
            Outside.restores_of_nobody hstack (hcalled thread) (.inr (.inl rfl))
          exact hs.notMem_of_restores (hbelow hrestores) hmisses.2
      | _ => rfl
  | _ => cases hop

end Runs

/-! ## What is reported -/

/-- What the status of a job is while it is being completed: the own job of a collection
succeeds, the status of an element is that with which it has ended, and a Sequence stops itself
only for an element that did not succeed. -/
structure State.Reporting (F : Forest J P σ) (s : State J P T σ) : Prop where
  self : ∀ thread collection, .elementFinished collection collection ∈ s.stack thread ∨
    .processCompletedElement collection collection ∈ s.stack thread →
    s.data.status collection = .success
  ended : ∀ thread job, s.data.place job = .held .reporting thread →
    .ended job (s.data.status job) ∈ s.data.log
  restores : ∀ thread collection job status,
    .restoreStatus collection job status ∈ s.stack thread →
    F.kind collection = .sequence ∧ F.parent job = some collection ∧
      s.data.status job = status ∧ status ≠ .success

section Reporting

variable [DecidableEq P] {F : Forest J P σ} {s : State J P T σ} {thread other : Thread T}
  {op below : Op J} {rest : List (Op J)} {collection element job : J} {status : Status}

/-- The status of a collection is not touched between its own run and the completion of that. -/
theorem State.Sound.exec_status_self (hs : s.Sound F) (he : s.Enqueuing F)
    (hstack : s.stack thread = op :: rest)
    (hfree : ∀ mutex, wants F op = some mutex → s.data.holder mutex = none)
    (hbelow : below ∈ s.stack other) (hne : below ≠ op)
    (hcases : below = .elementFinished collection collection ∨
      below = .processCompletedElement collection collection) :
    (exec F thread op s.data).1.status collection = s.data.status collection := by
  have hop : op ∈ s.stack thread := by
    rw [hstack]
    exact List.mem_cons_self
  rcases exec_status F thread op s.data collection with hsame | hsets
  · exact hsame
  exfalso
  have hplace : s.data.place collection = .held .executing other ∨
      s.data.place collection = .held .closing other := by
    rcases hcases with rfl | rfl
    · exact .inl (hs.place_eq hbelow (by simp [Op.jobs]))
    · exact .inr (hs.place_eq hbelow (by simp [Op.jobs]))
  -- nobody else has the mutex of the collection
  have hlocked : (.job collection, ()) ∈ op.locks →
      below = .elementFinished collection collection := by
    intro howes
    rcases hcases with rfl | rfl
    · rfl
    · have hlocks : (.job collection, ()) ∈
          (Op.processCompletedElement collection collection).locks := by simp [Op.locks]
      obtain ⟨rfl, -⟩ := hs.locks.thread_unique hop howes hbelow hlocks
      exact absurd (hs.locks.op_unique hop howes hbelow hlocks) hne
  have hcompleting : ∀ {head : J}, (∀ rest, Fits F op rest ↔ F.Concerns collection head) →
      op.jobs = [(head, if head = collection then .closing else .reporting)] →
      below ≠ .elementFinished collection collection := by
    rintro head hconcerns hjobs rfl
    have hlate := hs.late_of_completing hop hconcerns hjobs
    rw [hs.place_eq hbelow (show (collection, Stage.executing) ∈ _ by simp [Op.jobs])] at hlate
    cases hlate
  generalize (exec F thread op s.data).1.status collection = after at hsets
  cases hsets with
  | enqueueJob =>
      have hpending := hs.place_eq hop List.mem_cons_self
      rcases hplace with h | h <;>
      · rw [h] at hpending
        cases hpending
  | setRunning | run =>
      have hexecuting := hs.place_eq hop List.mem_cons_self
      rcases hcases with rfl | rfl
      · have howes : (collection, Stage.executing) ∈
            (Op.elementFinished collection collection).jobs := by simp [Op.jobs]
        obtain ⟨rfl, -⟩ := hs.jobs.thread_unique hop List.mem_cons_self hbelow howes
        exact hne (hs.jobs.op_unique hop List.mem_cons_self hbelow howes)
      · rw [hs.place_eq hbelow (show (collection, Stage.closing) ∈ _ by simp [Op.jobs])]
          at hexecuting
        cases hexecuting
  | setStatus =>
      have hconcerns : F.Concerns collection collection := by
        obtain ⟨_, _, -, hfits⟩ := hs.fits hbelow
        rcases hcases with rfl | rfl <;> exact hfits
      exact hconcerns.kind_ne_plain (Forest.plain_of_statusInRun (hs.of_setStatus hop).1)
  | update | countDown =>
      exact hcompleting (fun _ => Iff.rfl) rfl (hlocked (by simp [Op.locks]))
  | restore =>
      refine hcompleting (fun _ => Iff.rfl) rfl (hcases.resolve_right ?_)
      rintro rfl
      have hreleases : Releases (.job collection) (s.stack other) :=
        ⟨_, hbelow, by simp [Op.locks]⟩
      have hholder := hs.holder_eq hreleases
      rw [hfree _ rfl] at hholder
      cases hholder
  | checkLast hone =>
      have hlate := hs.late_of_counter hone
      have hclosing : below = .processCompletedElement collection collection := by
        refine hcases.resolve_left ?_
        rintro rfl
        rw [hs.place_eq hbelow (show (collection, Stage.executing) ∈ _ by simp [Op.jobs])] at hlate
        cases hlate
      subst hclosing
      have hlocks : (.job collection, ()) ∈
          (Op.processCompletedElement collection collection).locks := by simp [Op.locks]
      have hunique : ∀ {later : Op J}, later ∈ s.stack thread →
          (.job collection, ()) ∈ later.locks →
          later = .processCompletedElement collection collection := by
        intro later hlater howes
        obtain ⟨rfl, -⟩ := hs.locks.thread_unique hlater howes hbelow hlocks
        exact hs.locks.op_unique hbelow hlocks hlater howes
      rcases Loops.releases (he.loops thread) hop rfl with hunlock | hreset
      · cases hunique hunlock (by simp [Op.locks])
      · cases hunique hreset (by simp [Op.locks])
  | takeAt =>
      rcases (hs.of_takeAt hop).2 with htaken | htaken <;> rcases hplace with h | h <;>
      · rw [h] at htaken
        cases htaken

omit [DecidableEq P] in
theorem State.Sound.notMem_rest (hs : s.Sound F) (hstack : s.stack thread = op :: rest)
    {stage : Stage} (howes : (job, stage) ∈ op.jobs) : op ∉ rest :=
  (hs.jobs.notMem_of_append (show s.stack thread = [] ++ op :: rest from hstack) howes howes).2

omit [DecidableEq P] in
theorem State.Sound.ended_of_restores (hs : s.Sound F)
    (hop : .restoreStatus collection job status ∈ s.stack thread)
    (hparent : F.parent job = some collection) : (s.data.place job).isOver = true := by
  rcases hs.of_completing hop (fun _ => Iff.rfl) rfl with ⟨rfl, -, -⟩ | ⟨-, -, hplace⟩
  · exact absurd (F.height_lt _ _ hparent) (lt_irrefl _)
  · rw [hplace]
    rfl

variable [DecidableEq T]

theorem State.Reporting.runThread {next : State J P T σ} (hr : s.Reporting F) (hs : s.Sound F)
    (he : s.Enqueuing F) (h : s.runThread F thread = some next) : next.Reporting F := by
  obtain ⟨op, rest, hstack, hfree, rfl⟩ := State.runThread_eq_some h
  have hop : op ∈ s.stack thread := by
    rw [hstack]
    exact List.mem_cons_self
  refine ⟨?_, ?_, ?_⟩
  · -- an operation that was there before and is not the one that is done
    have hold : ∀ {below : Op J} {other collection}, below ∈ s.stack other →
        (other = thread → below ∈ rest) → (below = .elementFinished collection collection ∨
          below = .processCompletedElement collection collection) →
        (exec F thread op s.data).1.status collection = .success := by
      intro below other collection hbelow hrest hcases
      have hne : below ≠ op := by
        rintro rfl
        have hjobs : ∃ stage, (collection, stage) ∈ below.jobs := by
          rcases hcases with rfl | rfl
          · exact ⟨.executing, by simp [Op.jobs]⟩
          · exact ⟨.closing, by simp [Op.jobs]⟩
        obtain ⟨stage, howes⟩ := hjobs
        obtain ⟨rfl, -⟩ := hs.jobs.thread_unique hop howes hbelow howes
        exact hs.notMem_rest hstack howes (hrest rfl)
      rw [hs.exec_status_self he hstack hfree hbelow hne hcases]
      refine hr.self other collection ?_
      rcases hcases with rfl | rfl
      · exact .inl hbelow
      · exact .inr hbelow
    intro other collection hmem
    rcases hmem with hmem | hmem
    · rcases State.mem_exec hstack hmem with ⟨-, hcalls⟩ | ⟨hbelow, hrest⟩
      · generalize hfinished : Op.elementFinished collection collection = later at hcalls
        cases hcalls with
        | finishSelf hkind =>
            obtain ⟨rfl, -⟩ := Op.elementFinished.inj hfinished
            simp [exec, hkind, Data.setStatus, Forest.runStatus, Outcome.status]
        | finishElement hparent =>
            obtain ⟨rfl, rfl⟩ := Op.elementFinished.inj hfinished
            exact absurd (F.height_lt _ _ hparent) (lt_irrefl _)
        | _ => cases hfinished
      · exact hold hbelow hrest (.inl rfl)
    · rcases State.mem_exec hstack hmem with ⟨rfl, hcalls⟩ | ⟨hbelow, hrest⟩
      · generalize hprocess : Op.processCompletedElement collection collection = later at hcalls
        cases hcalls with
        | process =>
            obtain ⟨rfl, rfl⟩ := Op.processCompletedElement.inj hprocess
            have hsame : (exec F other (.elementFinished collection collection) s.data).1.status =
                s.data.status := by
              simp only [exec]
              split
              · split <;> rfl
              · rfl
            rw [hsame]
            exact hr.self other collection (.inl hop)
        | _ => cases hprocess
      · exact hold hbelow hrest (.inr rfl)
  · intro other job hplace
    dsimp only at hplace ⊢
    rw [exec_log]
    rcases hs.exec_place hstack hfree job with hsame | hmoves
    · rw [hsame] at hplace
      rw [hs.exec_status_of_over hstack (by rw [hplace]; rfl)]
      exact List.mem_append_left _ (hr.ended other job hplace)
    · rw [hplace] at hmoves
      generalize hbefore : s.data.place job = before at hmoves
      cases hmoves with
      | reporting hparent =>
          rw [hs.exec_status_of_over hstack (by rw [hbefore]; rfl)]
          exact List.mem_append_right _ (List.mem_singleton.mpr rfl)
  · intro other collection job status hmem
    dsimp only at hmem ⊢
    rcases State.mem_exec hstack hmem with ⟨-, hcalls⟩ | ⟨hbelow, -⟩
    · cases hcalls with
      | restoreStatus hkind hstatus =>
          have hunsuccessful : s.data.status job ≠ .success := by
            intro hsuccess
            exact hstatus (if_pos hsuccess)
          have hupdated : s.data.updatedStatus job = s.data.status job := if_neg hunsuccessful
          rcases hs.of_completing hop (fun _ => Iff.rfl) rfl with
            ⟨rfl, -, -⟩ | ⟨hparent, -, hplace⟩
          · exact absurd (hr.self thread job (.inr hop)) hunsuccessful
          · refine ⟨hkind, hparent, ?_, hupdated ▸ hunsuccessful⟩
            rw [hs.exec_status_of_over hstack (by rw [hplace]; rfl), hupdated]
    · obtain ⟨hkind, hparent, hstatus, hne⟩ := hr.restores other collection job status hbelow
      refine ⟨hkind, hparent, ?_, hne⟩
      rw [hs.exec_status_of_over hstack (hs.ended_of_restores hbelow hparent), hstatus]

theorem State.Reporting.step {next : State J P T σ} (hr : s.Reporting F) (hs : s.Sound F)
    (he : s.Enqueuing F) {act : Act J T} (h : step F s act = some next) : next.Reporting F := by
  refine step_rule hr (fun _ _ => hr.runThread hs he) ?_ ?_ h
  · intro caller jobs _ hjobs
    refine ⟨hr.self, fun thread job hplace => hr.ended thread job ?_, hr.restores⟩
    simp only [State.takeUp] at hplace
    split at hplace
    · cases hplace
    · exact hplace
  · intro before caller hbefore hbegin
    have hnot : ∀ later ∈ act.ops, (∀ collection job, later ≠ .elementFinished collection job) ∧
        (∀ collection job, later ≠ .processCompletedElement collection job) ∧
        ∀ collection job status, later ≠ .restoreStatus collection job status := by
      cases act <;> simp [Act.ops]
    have hmem : ∀ {later : Op J} {thread}, later ∈ next.stack thread →
        later ∈ act.ops ∨ later ∈ before.stack thread := State.mem_or_of_beginCall hbegin
    obtain ⟨-, rfl⟩ := State.beginCall_eq_some hbegin
    refine ⟨fun thread collection hlater => hbefore.self thread collection ?_, hbefore.ended,
      fun thread collection job status hlater => hbefore.restores thread collection job status ?_⟩
    · rcases hlater with hlater | hlater
      · exact .inl ((hmem hlater).resolve_left fun h => (hnot _ h).1 _ _ rfl)
      · exact .inr ((hmem hlater).resolve_left fun h => (hnot _ h).2.1 _ _ rfl)
    · exact (hmem hlater).resolve_left fun h => (hnot _ h).2.2 _ _ _ rfl

/-- **In every run an element is reported with the status with which it has ended.** -/
theorem runs_reporting {ok : State J P T σ → Act J T → Prop} {start : Weaver.Start J P σ}
    (run : Runs F ok start s) : s.Reporting F := by
  induction run with
  | refl =>
      refine ⟨fun thread collection h => ?_, fun thread job h => ?_,
        fun thread collection job status h => ?_⟩
      · cases thread <;> simp [init] at h
      · cases h
      · cases thread <;> simp [init] at h
  | tail run _ hstep ih => exact ih.step (runs_sound run) (runs_enqueuing run) hstep

end Reporting

/-! ## What is dequeued -/

/-- The job is an element of a Sequence of which another element has ended without success. -/
def StoppedAfter (F : Forest J P σ) (log : List (Event J T)) (job : J) : Prop :=
  ∃ collection element status, F.parent job = some collection ∧
    F.kind collection = .sequence ∧ F.parent element = some collection ∧
    .ended element status ∈ log ∧ status ≠ .success

/-- Nothing leaves the queue by its own `stop` or comes back to the queue, and what is dequeued
comes after an unsuccessful element. -/
structure State.Orderly (F : Forest J P σ) (s : State J P T σ) : Prop where
  kept : ∀ job, s.data.place job ≠ .lost ∧ ∀ thread, s.data.place job ≠ .held .leaving thread
  waiting : ∀ job, s.data.place job = .waiting → F.kind job ≠ .plain
  enqueued : ∀ job, .enqueued job ∈ s.data.log →
    s.data.place job ≠ .fresh ∧ ∀ thread, s.data.place job ≠ .held .pending thread
  dequeued : ∀ job, (s.data.place job).isRemoved = true → .dequeued job ∈ s.data.log
  stopped : Ordered (fun before event => ∀ job, event = .dequeued job →
    StoppedAfter F before job) s.data.log

section Orderly

variable [DecidableEq P] {F : Forest J P σ} {s : State J P T σ} {thread : Thread T}
  {op : Op J} {rest : List (Op J)} {job : J}

omit [DecidableEq P] in
/-- A Sequence that stops itself does so after an unsuccessful element. -/
theorem State.Reporting.stoppedAfter (hr : s.Reporting F) (hs : s.Sound F)
    (hcalled : Stacked (Outside.nobody F).Called (s.stack thread))
    (hstack : s.stack thread = op :: rest) {event : Event J T}
    (hrecords : Records F s.data thread op event) (hevent : event = .dequeued job) :
    StoppedAfter F s.data.log job := by
  have hbelow : ∀ {below : Op J}, below ∈ rest → below ∈ s.stack thread := by
    intro below hmem
    rw [hstack]
    exact List.mem_cons_of_mem _ hmem
  cases hrecords with
  | dequeuedSelf hmem =>
      obtain rfl := Event.dequeued.inj hevent
      obtain ⟨head, status, hrestores⟩ :=
        Outside.restores_of_nobody hstack hcalled (.inr (.inl rfl))
      exact absurd hmem (hs.notMem_of_restores (hbelow hrestores))
  | @dequeued collection element locked hmem =>
      obtain rfl := Event.dequeued.inj hevent
      have hop : .dequeueElement collection element locked ∈ s.stack thread := by
        rw [hstack]
        exact List.mem_cons_self
      cases locked with
      | true => exact absurd hmem (hs.notMem_of_hook hop rfl)
      | false =>
          obtain ⟨head, status, hrestores⟩ := Outside.restores_of_nobody hstack hcalled
            (.inr (.inr (.inr ⟨element, .inl rfl⟩)))
          have hrestores := hbelow hrestores
          obtain ⟨hkind, hparent, hstatus, hne⟩ := hr.restores thread _ _ _ hrestores
          obtain ⟨-, -, -, helement, -⟩ := hs.fits hop
          refine ⟨collection, head, status, helement, hkind, hparent, ?_, hne⟩
          rcases hs.of_completing hrestores (fun _ => Iff.rfl) rfl with
            ⟨rfl, -, -⟩ | ⟨-, -, hplace⟩
          · exact absurd (F.height_lt _ _ hparent) (lt_irrefl _)
          · exact hstatus ▸ hr.ended thread head hplace
  | _ => cases hevent

variable [DecidableEq T]

theorem State.Orderly.runThread {next : State J P T σ} (ho : s.Orderly F) (hr : s.Reporting F)
    (hs : s.Sound F) (hcalled : ∀ thread, Stacked (Outside.nobody F).Called (s.stack thread))
    (h : s.runThread F thread = some next) : next.Orderly F := by
  obtain ⟨op, rest, hstack, hfree, rfl⟩ := State.runThread_eq_some h
  have hplace := fun job => hs.exec_place hstack hfree job
  have hlog : ∀ {event}, event ∈ s.data.log → event ∈ (exec F thread op s.data).1.log := by
    intro event hmem
    rw [exec_log]
    exact List.mem_append_left _ hmem
  refine ⟨fun job => ?_, fun job hwaiting => ?_, fun job hmem => ?_, fun job hremoved => ?_, ?_⟩
  · dsimp only
    rcases hplace job with hsame | hmoves
    · rw [hsame]
      exact ho.kept job
    · have hkept := (ho.kept job).2
      generalize hbefore : s.data.place job = before at hmoves
      generalize (exec F thread op s.data).1.place job = after at hmoves
      cases hmoves with
      | leaving =>
          obtain ⟨head, status, hrestores⟩ :=
            Outside.restores_of_nobody hstack (hcalled thread) (.inr (.inl rfl))
          exact absurd (hs.queued job hbefore)
            (hs.notMem_of_restores (hstack ▸ List.mem_cons_of_mem _ hrestores))
      | lost => exact absurd hbefore (hkept _)
      | _ => simp
  · dsimp only at hwaiting
    rcases hplace job with hsame | hmoves
    · exact ho.waiting job (hsame ▸ hwaiting)
    · rw [hwaiting] at hmoves
      generalize s.data.place job = before at hmoves
      cases hmoves with
      | waiting hkind => exact hkind
  · have hbefore : .enqueued job ∈ s.data.log → s.data.place job ≠ .fresh ∧
        ∀ thread, s.data.place job ≠ .held .pending thread := ho.enqueued job
    dsimp only
    rcases exec_mem_log F thread op s.data hmem with hold | hrecords
    · obtain ⟨hfresh, hpending⟩ := hbefore hold
      rcases hplace job with hsame | hmoves
      · rw [hsame]
        exact ⟨hfresh, hpending⟩
      · have hkept := (ho.kept job).2
        generalize hplace' : s.data.place job = before at hmoves hfresh hkept
        generalize (exec F thread op s.data).1.place job = after at hmoves
        cases hmoves with
        | pending => exact absurd rfl hfresh
        | again => exact absurd rfl (hkept _)
        | _ => simp
    · cases hrecords with
      | enqueued =>
          have hqueued : (exec F thread (.enqueueJob job) s.data).1.place job = .queued :=
            Function.update_self _ _ _
          rw [hqueued]
          simp
  · dsimp only at hremoved ⊢
    rcases hplace job with hsame | hmoves
    · exact hlog (ho.dequeued job (hsame ▸ hremoved))
    · have hbefore := ho.dequeued job
      generalize hplace' : s.data.place job = before at hmoves hbefore
      generalize (exec F thread op s.data).1.place job = after at hmoves hremoved
      cases hmoves with
      | taken =>
          have hmem := hs.queued job hplace'
          rw [exec_log]
          refine List.mem_append_right _ ?_
          simp [Op.events, hmem]
      | leaving =>
          have hmem := hs.queued job hplace'
          rw [exec_log]
          refine List.mem_append_right _ ?_
          simp [Op.events, hmem]
      | lost | discounted => exact hlog (hbefore rfl)
      | _ => cases hremoved
  · dsimp only
    rcases exec_records F thread op s.data with hsame | ⟨event, hrecords, hlog⟩
    · rw [hsame]
      exact ho.stopped
    · rw [hlog]
      exact ho.stopped.concat fun job hevent =>
        hr.stoppedAfter hs (hcalled thread) hstack hrecords hevent

theorem State.Orderly.step {next : State J P T σ} (ho : s.Orderly F) (hr : s.Reporting F)
    (hs : s.Sound F) (hcalled : ∀ thread, Stacked (Outside.nobody F).Called (s.stack thread))
    {act : Act J T} (h : step F s act = some next) : next.Orderly F := by
  refine step_rule ho (fun _ _ => ho.runThread hr hs hcalled) ?_ ?_ h
  · intro caller jobs _ hjobs
    have hnot : ∀ {job}, s.data.place job ≠ .fresh → job ∉ jobs :=
      fun hne hmem => hne (hjobs _ hmem).2
    refine ⟨fun job => ?_, fun job hwaiting => ?_, fun job hmem => ?_, fun job hremoved => ?_,
      ho.stopped⟩
    · simp only [State.takeUp]
      split
      · simp
      · exact ho.kept job
    · simp only [State.takeUp] at hwaiting
      split at hwaiting
      · cases hwaiting
      · exact ho.waiting job hwaiting
    · obtain ⟨hfresh, hpending⟩ := ho.enqueued job hmem
      simp only [State.takeUp, if_neg (hnot hfresh)]
      exact ⟨hfresh, hpending⟩
    · simp only [State.takeUp] at hremoved
      split at hremoved
      · cases hremoved
      · exact ho.dequeued job hremoved
  · intro before caller hbefore hbegin
    obtain ⟨-, rfl⟩ := State.beginCall_eq_some hbegin
    exact ⟨hbefore.kept, hbefore.waiting, hbefore.enqueued, hbefore.dequeued, hbefore.stopped⟩

theorem runs_orderly {start : Weaver.Start J P σ} (run : Runs F Undisturbed start s) :
    s.Orderly F := by
  induction run with
  | refl =>
      refine ⟨fun job => by simp [init], fun job h => ?_, fun job h => ?_, fun job h => ?_,
        Ordered.nil⟩ <;> cases h
  | tail run _ hstep ih =>
      exact ih.step (runs_reporting run) (runs_sound run)
        (Outside.runs_called (run.mono Outside.nobody_allows)).1 hstep

end Orderly

end ThreadWeaver.Collection
