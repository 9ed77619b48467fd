import ThreadWeaver.Collection.Idle
import ThreadWeaver.Collection.Leaves
import ThreadWeaver.Collection.Progress

/-!
# What a nest of jobs comes to

Collections and Sequences in each other are a program: a Sequence executes its elements one after
the other up to the first that falls short, and a Collection executes all of them.  An evaluation
(`Forest.Evaluation`) says of every job with which status it ends, if it is executed at all, by one
rule for each kind of job.  A Collection ends with the status of one of its elements, and it is not
said of which: that is where evaluations of the same nest differ.

Whatever the workers do, if nobody calls `stop` or `requestAbort`, what has happened when the weaver
is idle is an evaluation of the nest.  Where no plain job of a Collection fails there is only one, so
that the outcome does not depend on the number of threads and on their schedule.
-/

namespace ThreadWeaver.Collection

open Relation (ReflTransGen)
open Library (Stacked)

variable {J P T σ : Type*}

/-! ## Evaluations -/

/-- With which status the jobs end; those without one are not executed. -/
structure Forest.Evaluation (F : Forest J P σ) (result : J → Option Status) : Prop where
  plain : ∀ job status, F.kind job = .plain → result job = some status → status = F.runStatus job
  skipped : ∀ element collection, F.parent element = some collection →
    result collection = none → result element = none
  collection : ∀ collection status, F.kind collection = .collection →
    result collection = some status →
    (∀ element ∈ F.elements collection, result element ≠ none) ∧
      (F.elements collection = [] ∧ status = .success ∨
        ∃ element ∈ F.elements collection, result element = some status)
  sequence : ∀ collection status, F.kind collection = .sequence →
    result collection = some status →
    (∀ element ∈ F.elements collection, result element = some .success) ∧ status = .success ∨
      ∃ before element after, F.elements collection = before ++ element :: after ∧
        (∀ earlier ∈ before, result earlier = some .success) ∧ result element = some status ∧
        status ≠ .success ∧ ∀ later ∈ after, result later = none

namespace Forest.Evaluation

variable {F : Forest J P σ} {result : J → Option Status} {root job : J}

theorem eq_success (h : F.Evaluation result)
    (hleaves : ∀ leaf, F.Under root leaf → F.kind leaf = .plain → F.runStatus leaf = .success)
    {status : Status} (hroot : result root = some status) : status = .success := by
  induction root using F.induct generalizing status with
  | _ root ih =>
      have helement : ∀ element ∈ F.elements root, ∀ status, result element = some status →
          status = .success := by
        intro element hmem status hresult
        have hparent := (F.mem_elements _ _).mp hmem
        exact ih element hparent (fun leaf hunder => hleaves leaf (.head hparent hunder)) hresult
      cases hkind : F.kind root with
      | plain =>
          rw [h.plain root status hkind hroot]
          exact hleaves root .refl hkind
      | collection =>
          rcases (h.collection root status hkind hroot).2 with ⟨-, hsuccess⟩ | ⟨element, hmem, hend⟩
          · exact hsuccess
          · exact helement element hmem status hend
      | sequence =>
          rcases h.sequence root status hkind hroot with
            ⟨-, hsuccess⟩ | ⟨before, element, after, hsplit, -, hend, -⟩
          · exact hsuccess
          · refine helement element ?_ status hend
            rw [hsplit]
            exact List.mem_append_right _ List.mem_cons_self

theorem all_succeed (h : F.Evaluation result)
    (hleaves : ∀ leaf, F.Under root leaf → F.kind leaf = .plain → F.runStatus leaf = .success)
    (hroot : result root ≠ none) (hunder : F.Under root job) : result job = some .success := by
  have hsucceeds : ∀ {inner}, F.Under root inner → result inner ≠ none →
      result inner = some .success := by
    intro inner hinner hne
    obtain ⟨status, hstatus⟩ := Option.ne_none_iff_exists'.mp hne
    rw [hstatus, h.eq_success (fun leaf hleaf => hleaves leaf (hinner.trans hleaf)) hstatus]
  induction hunder with
  | refl => exact hsucceeds .refl hroot
  | @tail collection element habove hparent ih =>
      have hmem := (F.mem_elements collection element).mpr hparent
      refine hsucceeds (habove.tail hparent) ?_
      cases hkind : F.kind collection with
      | plain =>
          rw [F.elements_plain collection hkind] at hmem
          cases hmem
      | collection => exact (h.collection collection _ hkind ih).1 element hmem
      | sequence =>
          rcases h.sequence collection _ hkind ih with ⟨hall, -⟩ | ⟨_, _, _, _, _, _, hne, -⟩
          · simp [hall element hmem]
          · exact absurd rfl hne

theorem none_of_under (h : F.Evaluation result) (hroot : result root = none)
    (hunder : F.Under root job) : result job = none := by
  induction hunder with
  | refl => exact hroot
  | tail _ hparent ih => exact h.skipped _ _ hparent ih

theorem executed_iff (h : F.Evaluation result) (hkind : F.kind root = .sequence)
    (hroot : result root ≠ none) {before after : List J}
    (hsplit : F.elements root = before ++ job :: after) :
    result job ≠ none ↔ ∀ earlier ∈ before, result earlier = some .success := by
  obtain ⟨status, hstatus⟩ := Option.ne_none_iff_exists'.mp hroot
  rcases h.sequence root status hkind hstatus with
    ⟨hall, -⟩ | ⟨before', short, after', hsplit', hbefore, hshort, hne, hafter⟩
  · have hmem : job ∈ F.elements root := hsplit ▸ List.mem_append_right _ List.mem_cons_self
    refine iff_of_true (by simp [hall job hmem]) fun earlier hearlier => ?_
    exact hall earlier (hsplit ▸ List.mem_append_left _ hearlier)
  · rcases List.append_eq_append_iff.mp (hsplit.symm.trans hsplit') with
      ⟨middle, rfl, htail⟩ | ⟨middle, rfl, htail⟩
    · -- the job is not behind the element that falls short
      refine iff_of_true ?_ fun earlier hmem => hbefore earlier (List.mem_append_left _ hmem)
      cases middle with
      | nil =>
          obtain ⟨rfl, -⟩ := List.cons.inj htail
          simp [hshort]
      | cons first middle =>
          obtain ⟨rfl, -⟩ := List.cons.inj htail
          simp [hbefore job (List.mem_append_right _ List.mem_cons_self)]
    · cases middle with
      | nil =>
          obtain ⟨rfl, -⟩ := List.cons.inj htail
          refine iff_of_true (by simp [hshort]) fun earlier hmem => hbefore earlier ?_
          simpa using hmem
      | cons first middle =>
          obtain ⟨rfl, rfl⟩ := List.cons.inj htail
          have hnone := hafter job (List.mem_append_right _ List.mem_cons_self)
          refine iff_of_false (by simp [hnone]) fun hall => hne ?_
          have hsuccess := hall short (List.mem_append_right _ List.mem_cons_self)
          exact Option.some.inj (hshort.symm.trans hsuccess)

section Unique

variable {result' : J → Option Status}

theorem executed_congr (h : F.Evaluation result) (h' : F.Evaluation result')
    (hkind : F.kind root = .sequence) (hroot : result root ≠ none) (hroot' : result' root ≠ none)
    (hsame : ∀ element, F.parent element = some root →
      (result element = none ↔ result' element = none) → result element = result' element)
    (hparent : F.parent job = some root) : result job = none ↔ result' job = none := by
  obtain ⟨before, after, hsplit⟩ := List.append_of_mem ((F.mem_elements _ _).mpr hparent)
  induction hlength : before.length using Nat.strong_induction_on generalizing before after job with
  | _ n ih =>
      have hequal : ∀ earlier ∈ before, result earlier = result' earlier := by
        intro earlier hmem
        obtain ⟨ahead, between, rfl⟩ := List.append_of_mem hmem
        have howner : F.parent earlier = some root := by
          refine (F.mem_elements _ _).mp ?_
          simp [hsplit]
        have hahead : F.elements root = ahead ++ earlier :: (between ++ job :: after) := by
          simpa using hsplit
        refine hsame earlier howner (ih ahead.length ?_ howner ahead _ hahead rfl)
        simp [← hlength]
      refine not_iff_not.mp ?_
      calc result job ≠ none
          ↔ ∀ earlier ∈ before, result earlier = some .success := h.executed_iff hkind hroot hsplit
        _ ↔ ∀ earlier ∈ before, result' earlier = some .success :=
          forall₂_congr fun earlier hmem => by rw [hequal earlier hmem]
        _ ↔ result' job ≠ none := (h'.executed_iff hkind hroot' hsplit).symm

theorem sequence_congr (h : F.Evaluation result) (h' : F.Evaluation result')
    (hkind : F.kind root = .sequence) {status status' : Status}
    (hstatus : result root = some status) (hstatus' : result' root = some status')
    (hequal : ∀ element ∈ F.elements root, result element = result' element) :
    status = status' := by
  rcases h.sequence root status hkind hstatus with
    ⟨hall, rfl⟩ | ⟨before, short, after, hsplit, -, hshort, hne, -⟩
  · rcases h'.sequence root status' hkind hstatus' with
      ⟨-, rfl⟩ | ⟨before, short, after, hsplit, -, hshort, hne, -⟩
    · rfl
    · have hmem : short ∈ F.elements root := by simp [hsplit]
      rw [← hequal short hmem, hall short hmem] at hshort
      exact absurd (Option.some.inj hshort).symm hne
  · have hmem : short ∈ F.elements root := by simp [hsplit]
    rw [hequal short hmem] at hshort
    rcases h'.sequence root status' hkind hstatus' with
      ⟨hall, -⟩ | ⟨before', short', after', hsplit', hbefore, hshort', -, hafter⟩
    · rw [hall short hmem] at hshort
      exact absurd (Option.some.inj hshort).symm hne
    · rw [hsplit', List.mem_append, List.mem_cons] at hmem
      rcases hmem with hahead | rfl | hbehind
      · rw [hbefore short hahead] at hshort
        exact absurd (Option.some.inj hshort).symm hne
      · exact Option.some.inj (hshort.symm.trans hshort')
      · rw [hafter short hbehind] at hshort
        cases hshort

/-- **Evaluations of the same nest agree** where no job of a Collection fails. -/
theorem unique (h : F.Evaluation result) (h' : F.Evaluation result')
    (hcollections : ∀ collection leaf, F.Under root collection →
      F.kind collection = .collection → F.Under collection leaf → F.kind leaf = .plain →
      F.runStatus leaf = .success)
    (hroot : result root = none ↔ result' root = none) (hunder : F.Under root job) :
    result job = result' job := by
  induction root using F.induct generalizing job with
  | _ root ih =>
      by_cases hnone : result root = none
      · rw [h.none_of_under hnone hunder, h'.none_of_under (hroot.mp hnone) hunder]
      have hnone' := hroot.not.mp hnone
      obtain ⟨status, hstatus⟩ := Option.ne_none_iff_exists'.mp hnone
      obtain ⟨status', hstatus'⟩ := Option.ne_none_iff_exists'.mp hnone'
      have hbelow : ∀ {element inner}, F.parent element = some root →
          (result element = none ↔ result' element = none) → F.Under element inner →
          result inner = result' inner := fun hparent helement =>
        ih _ hparent (fun collection leaf hcollection =>
          hcollections collection leaf (.head hparent hcollection)) helement
      suffices hlocal : status = status' ∧ ∀ element, F.parent element = some root →
          (result element = none ↔ result' element = none) by
        rcases ReflTransGen.cases_head hunder with rfl | ⟨element, hparent, hinner⟩
        · rw [hstatus, hstatus', hlocal.1]
        · exact hbelow hparent (hlocal.2 element hparent) hinner
      cases hkind : F.kind root with
      | plain =>
          refine ⟨?_, fun element hparent => ?_⟩
          · rw [h.plain root _ hkind hstatus, h'.plain root _ hkind hstatus']
          · have hmem := (F.mem_elements _ _).mpr hparent
            rw [F.elements_plain root hkind] at hmem
            cases hmem
      | collection =>
          refine ⟨?_, fun element hparent => ?_⟩
          · have hleaves := fun leaf => hcollections root leaf .refl hkind
            rw [h.eq_success hleaves hstatus, h'.eq_success hleaves hstatus']
          · have hmem := (F.mem_elements _ _).mpr hparent
            exact iff_of_false ((h.collection root _ hkind hstatus).1 element hmem)
              ((h'.collection root _ hkind hstatus').1 element hmem)
      | sequence =>
          have helement : ∀ element, F.parent element = some root →
              (result element = none ↔ result' element = none) := fun element hparent =>
            h.executed_congr h' hkind hnone hnone'
              (fun other howner hsame => hbelow howner hsame .refl) hparent
          refine ⟨?_, helement⟩
          refine h.sequence_congr h' hkind hstatus hstatus' fun element hmem => ?_
          have hparent := (F.mem_elements _ _).mp hmem
          exact hbelow hparent (helement element hparent) .refl

end Unique

end Forest.Evaluation

/-! ## The status of a Collection -/

/-- What the status of a Collection is when it counts off an element, and when it ends. -/
structure State.Concluding [DecidableEq J] (F : Forest J P σ) (collection : J)
    (s : State J P T σ) : Prop where
  closing : (s.data.place collection).isClosing = true →
    ∀ element, F.parent element = some collection → s.data.place element ≠ .reported
  carried : ∀ thread job, .countDown collection job ∈ s.stack thread →
    s.data.status collection = if job = collection ∨ s.data.status job = .success then .running
      else s.data.status job
  isOver : (s.data.place collection).isOver = true →
    F.elements collection = [] ∧ s.data.status collection = .success ∨
      ∃ element ∈ F.elements collection, (s.data.place element).isEnded = true ∧
        s.data.status collection = s.data.status element

section Concluding

variable [DecidableEq J] [DecidableEq P] {F : Forest J P σ} {start : Weaver.Start J P σ}
  {s : State J P T σ} {thread other : Thread T} {op : Op J} {rest : List (Op J)}
  {collection element job : J}

omit [DecidableEq P] in
theorem State.Calm.op_of_closing (hc : s.Calm F start) (hkind : F.kind collection = .collection)
    (hrests : Stacked (Rests F s.data.place) (s.stack thread))
    (hplace : s.data.place collection = .held .closing thread) :
    .processCompletedElement collection collection ∈ s.stack thread ∨
      .countDown collection collection ∈ s.stack thread := by
  obtain ⟨op, hop, hjobs⟩ := hc.sound.op_of_held hplace
  have hself : ∀ {owner head : J},
      (collection, Stage.closing) ∈ [(head, if head = owner then Stage.closing else .reporting)] →
        owner = collection ∧ head = collection := by
    intro owner head hmem
    obtain ⟨rfl, hstage⟩ := Prod.mk.inj (List.mem_singleton.mp hmem)
    split at hstage
    · next heq => exact ⟨heq.symm, rfl⟩
    · cases hstage
  cases op with
  | processCompletedElement owner head =>
      obtain ⟨rfl, rfl⟩ := hself hjobs
      exact .inl hop
  | countDown owner head =>
      obtain ⟨rfl, rfl⟩ := hself hjobs
      exact .inr hop
  | restoreStatus owner head status =>
      obtain ⟨rfl, rfl⟩ := hself hjobs
      have hsequence := (hc.reporting.restores thread _ _ _ hop).1
      rw [hkind] at hsequence
      cases hsequence
  | advance owner head =>
      obtain ⟨rfl, rfl⟩ := hself hjobs
      obtain ⟨ops, below, -, hlies⟩ := hrests.of_mem hop
      have hsequence := hlies.1
      rw [hkind] at hsequence
      cases hsequence
  | elementFinished owner head =>
      obtain ⟨-, hstage⟩ := Prod.mk.inj (List.mem_singleton.mp hjobs)
      split at hstage <;> cases hstage
  | _ => simp [Op.jobs] at hjobs

namespace State.Concluding

/-- Nobody counts off an element before the Collection has counted off its own job. -/
theorem exec_closing (hh : s.Concluding F collection) (hc : s.Calm F start)
    (hkind : F.kind collection = .collection)
    (hrests : ∀ thread, Stacked (Rests F s.data.place) (s.stack thread))
    (hstack : s.stack thread = op :: rest)
    (hfree : ∀ mutex, wants F op = some mutex → s.data.holder mutex = none)
    (hclosing : ((exec F thread op s.data).1.place collection).isClosing = true)
    (hparent : F.parent element = some collection) :
    (exec F thread op s.data).1.place element ≠ .reported := by
  have hs := hc.sound
  have hop : op ∈ s.stack thread := by
    rw [hstack]
    exact List.mem_cons_self
  intro hreported
  have hbefore : (s.data.place collection).isClosing = true ∨
      op = .elementFinished collection collection := by
    rcases hs.exec_place hstack hfree collection with hsame | hmoves
    · exact .inl (hsame ▸ hclosing)
    · generalize (exec F thread op s.data).1.place collection = after at hclosing hmoves
      generalize s.data.place collection = before at hmoves
      cases hmoves with
      | closing => exact .inr rfl
      | _ => cases hclosing
  rcases hs.exec_place hstack hfree element with hsame | hmoves
  · rw [hsame] at hreported
    rcases hbefore with hbefore | rfl
    · exact hh.closing hbefore element hparent hreported
    · -- the elements are fresh until the own job is completed
      have hplace : s.data.place collection = .held .executing thread := by
        rcases hs.of_elementFinished hop with ⟨-, -, hplace, -⟩ | ⟨-, hne, -⟩
        · exact hplace
        · exact absurd rfl hne
      have hopened := hs.books.opened_of_ne_fresh hparent (by simp [Data.books, hreported])
      have hlate := hs.books.late collection hopened
      simp [Data.books, hplace, Place.isLate] at hlate
  · rw [hreported] at hmoves
    generalize s.data.place element = before at hmoves
    cases hmoves with
    | ended hnone =>
        rw [hparent] at hnone
        cases hnone
    | reported howner =>
        cases howner.symm.trans hparent
        have hbefore := hbefore.resolve_right (by simp)
        -- the thread that completes the own job keeps the mutex
        cases hplace : s.data.place collection with
        | held stage closer =>
            rw [hplace] at hbefore
            cases stage with
            | closing =>
                have hlocks : (.job collection, ()) ∈ (Op.countDown collection element).locks :=
                  List.mem_singleton.mpr rfl
                have hne := F.ne_of_parent hparent
                rcases hc.op_of_closing hkind (hrests closer) hplace with hlater | hlater
                · obtain ⟨rfl, -⟩ := hs.locks.thread_unique hop hlocks hlater hlocks
                  cases hs.locks.op_unique hop hlocks hlater hlocks
                · obtain ⟨rfl, -⟩ := hs.locks.thread_unique hop hlocks hlater hlocks
                  cases hs.locks.op_unique hop hlocks hlater hlocks
                  exact hne rfl
            | _ => cases hbefore
        | _ =>
            rw [hplace] at hbefore
            cases hbefore

/-- While a job is being counted off, the status of the Collection is that of the job, or
`Status_Running`. -/
theorem exec_carried [DecidableEq T] (hh : s.Concluding F collection) (hc : s.Calm F start)
    (hkind : F.kind collection = .collection)
    (hrests : ∀ thread, Stacked (Rests F s.data.place) (s.stack thread))
    (hstack : s.stack thread = op :: rest)
    (hfree : ∀ mutex, wants F op = some mutex → s.data.holder mutex = none)
    (hmem : .countDown collection job ∈
      Function.update s.stack thread ((exec F thread op s.data).2 ++ rest) other) :
    (exec F thread op s.data).1.status collection =
      if job = collection ∨ (exec F thread op s.data).1.status job = .success then .running
      else (exec F thread op s.data).1.status job := by
  have hs := hc.sound
  have hop : op ∈ s.stack thread := by
    rw [hstack]
    exact List.mem_cons_self
  rcases State.mem_exec hstack hmem with ⟨rfl, hcalls⟩ | ⟨hold, hrest⟩
  · generalize hcount : Op.countDown collection job = later at hcalls
    cases hcalls with
    | countDown hnot =>
        obtain ⟨rfl, rfl⟩ := Op.countDown.inj hcount
        have hset : (exec F other (.processCompletedElement collection job) s.data).1.status =
            Function.update s.data.status collection (s.data.updatedStatus job) := by
          simp only [exec, if_neg hnot]
          rfl
        rw [hset, Function.update_self, Data.updatedStatus]
        by_cases heq : job = collection
        · subst heq
          rw [if_pos (hc.reporting.self other job (.inr hop)), if_pos (.inl rfl)]
        · rw [Function.update_of_ne heq]
          simp [heq]
    | countDownAdvanced =>
        obtain ⟨rfl, rfl⟩ := Op.countDown.inj hcount
        obtain ⟨ops, below, -, hlies⟩ := (hrests other).of_mem hop
        have hsequence := hlies.1
        rw [hkind] at hsequence
        cases hsequence
    | _ => cases hcount
  · -- the Collection has been counting off the job before
    have hlocks : (.job collection, ()) ∈ (Op.countDown collection job).locks :=
      List.mem_singleton.mpr rfl
    have hne : .countDown collection job ≠ op := by
      rintro rfl
      obtain ⟨rfl, -⟩ := hs.locks.thread_unique hop hlocks hold hlocks
      exact hs.notMem_rest hstack List.mem_cons_self (hrest rfl)
    have hstatus := hs.exec_status_of_locked hc.enqueuing hstack hfree
      (hs.late_of_completing hold (fun _ => Iff.rfl) rfl) hold hlocks hne (by simp)
    rw [hstatus, hh.carried other job hold]
    rcases hs.of_completing hold (fun _ => Iff.rfl) rfl with ⟨heq, -⟩ | ⟨-, -, hplace⟩
    · rw [if_pos (.inl heq), if_pos (.inl heq)]
    · rw [hs.exec_status_of_over hstack (by rw [hplace]; rfl)]

end State.Concluding

omit [DecidableEq P] in
theorem State.Calm.not_removed (hc : s.Calm F start) (hkind : F.kind collection = .collection)
    (hparent : F.parent element = some collection) :
    (s.data.place element).isRemoved = false := by
  refine Bool.eq_false_of_not_eq_true fun hremoved => ?_
  obtain ⟨before, after, hsplit⟩ :=
    List.append_of_mem (hc.orderly.dequeued element hremoved)
  obtain ⟨owner, _, _, howner, hsequence, -⟩ := hc.orderly.stopped before _ after hsplit element rfl
  obtain rfl : owner = collection := Option.some.inj (howner.symm.trans hparent)
  rw [hkind] at hsequence
  cases hsequence

namespace State.Concluding

/-- **The job that is counted off last decides.** -/
theorem concluded_of_last (hh : s.Concluding F collection) (hc : s.Calm F start)
    (hf : s.Finishing F) (hkind : F.kind collection = .collection)
    (habort : s.data.shouldAbort collection = false)
    (hstack : s.stack thread = .countDown collection job :: rest)
    (hfree : ∀ mutex, wants F (.countDown collection job) = some mutex →
      s.data.holder mutex = none)
    (hone : s.data.jobCounter collection = 1) :
    F.elements collection = [] ∧
        (exec F thread (.countDown collection job) s.data).1.status collection = .success ∨
      ∃ element ∈ F.elements collection,
        ((exec F thread (.countDown collection job) s.data).1.place element).isEnded = true ∧
        (exec F thread (.countDown collection job) s.data).1.status collection =
          (exec F thread (.countDown collection job) s.data).1.status element := by
  have hs := hc.sound
  have hop : .countDown collection job ∈ s.stack thread := by
    rw [hstack]
    exact List.mem_cons_self
  have hfinal : (exec F thread (.countDown collection job) s.data).1.status collection =
      s.data.finalStatus collection := by
    rw [exec_countDown_last hone]
    exact Function.update_self _ _ _
  have hcarried := hh.carried thread job hop
  have hsucceeds : s.data.status collection = .running →
      s.data.finalStatus collection = .success := by
    intro hrunning
    simp [Data.finalStatus, habort, hrunning, Status.toNat]
  rcases hs.of_completing hop (fun _ => Iff.rfl) rfl with ⟨rfl, -, hplace⟩ | ⟨hparent, hne, hplace⟩
  · -- the elements would have been counted off before the own job
    refine .inl ⟨List.eq_nil_iff_forall_not_mem.mpr fun element hmem => ?_, ?_⟩
    · have hparent := (F.mem_elements _ _).mp hmem
      have hcounted := State.Halting.counted_of_last hs hop hone hparent (F.ne_of_parent hparent)
      have hremoved := hc.not_removed hkind hparent
      cases hwhere : s.data.place element with
      | reported => exact hh.closing (by rw [hplace]; rfl) element hparent hwhere
      | discounted =>
          rw [hwhere] at hremoved
          cases hremoved
      | _ =>
          rw [hwhere] at hcounted
          cases hcounted
    · rw [if_pos (.inl rfl)] at hcarried
      rw [hfinal, hsucceeds hcarried]
  · have hended : (s.data.place job).isEnded = true := by
      rw [hplace]
      rfl
    obtain ⟨hafter, hkept⟩ := hs.exec_isEnded hstack hfree hended
    refine .inr ⟨job, (F.mem_elements _ _).mpr hparent, hafter, ?_⟩
    rw [hfinal, hkept]
    by_cases hsuccess : s.data.status job = .success
    · rw [if_pos (.inr hsuccess)] at hcarried
      rw [hsucceeds hcarried, hsuccess]
    · rw [if_neg (not_or.mpr ⟨hne, hsuccess⟩)] at hcarried
      have hfinished : 3 < (s.data.status job).toNat :=
        Status.isFinished_iff.mp (hf.status job (Place.isOver_of_isEnded hended))
      have hdone : ¬ (s.data.status job).toNat < Status.success.toNat := by
        change ¬ (s.data.status job).toNat < 4
        omega
      simp only [Data.finalStatus, habort, hcarried, Bool.false_eq_true, if_false, if_neg hdone]

variable [DecidableEq T]

theorem runThread {next : State J P T σ} (hh : s.Concluding F collection) (hc : s.Calm F start)
    (hf : s.Finishing F) (hrests : ∀ thread, Stacked (Rests F s.data.place) (s.stack thread))
    (habort : s.data.shouldAbort collection = false) (hkind : F.kind collection = .collection)
    (h : s.runThread F thread = some next) : next.Concluding F collection := by
  have hs := hc.sound
  obtain ⟨op, rest, hstack, hfree, rfl⟩ := State.runThread_eq_some h
  refine ⟨fun hclosing element hparent => ?_, fun other job hmem => ?_, fun hover => ?_⟩
  · exact hh.exec_closing hc hkind hrests hstack hfree hclosing hparent
  · exact hh.exec_carried hc hkind hrests hstack hfree hmem
  · dsimp only at hover ⊢
    have hkeeps : (s.data.place collection).isOver = true →
        F.elements collection = [] ∧ (exec F thread op s.data).1.status collection = .success ∨
          ∃ element ∈ F.elements collection,
            ((exec F thread op s.data).1.place element).isEnded = true ∧
            (exec F thread op s.data).1.status collection =
              (exec F thread op s.data).1.status element := by
      intro hbefore
      have hstatus := hs.exec_status_of_over hstack hbefore
      rcases hh.isOver hbefore with ⟨hnil, hsuccess⟩ | ⟨element, hmem, hended, heq⟩
      · exact .inl ⟨hnil, hstatus.trans hsuccess⟩
      · obtain ⟨hafter, hkept⟩ := hs.exec_isEnded hstack hfree hended
        exact .inr ⟨element, hmem, hafter, by rw [hstatus, heq, hkept]⟩
    rcases hs.exec_place hstack hfree collection with hsame | hmoves
    · exact hkeeps (hsame ▸ hover)
    · generalize s.data.place collection = before at hmoves hkeeps
      generalize (exec F thread op s.data).1.place collection = after at hover hmoves
      cases hmoves with
      | endingSelf _ hone => exact hh.concluded_of_last hc hf hkind habort hstack hfree hone
      | endingElement _ hone => exact hh.concluded_of_last hc hf hkind habort hstack hfree hone
      | ending hplain =>
          rw [hkind] at hplain
          cases hplain
      | ended | reporting | reported => exact hkeeps rfl
      | _ => cases hover

omit [DecidableEq P] [DecidableEq T] in
theorem takeUp (hh : s.Concluding F collection) {jobs : List J}
    (hjobs : ∀ job ∈ jobs, F.parent job = none ∧ s.data.place job = .fresh) :
    (s.takeUp thread jobs).Concluding F collection := by
  have hplace : ∀ {element}, F.parent element = some collection →
      (s.takeUp thread jobs).data.place element = s.data.place element :=
    fun hparent => State.takeUp_place hjobs hparent
  have hsame : ∀ {p : Place T → Bool}, (∀ other, p (.held .pending other) = false) →
      p ((s.takeUp thread jobs).data.place collection) = true →
      p (s.data.place collection) = true := by
    intro p hpending h
    simp only [State.takeUp] at h
    split at h
    · rw [hpending] at h
      cases h
    · exact h
  refine ⟨fun hclosing element hparent => ?_, hh.carried, fun hover => ?_⟩
  · rw [hplace hparent]
    exact hh.closing (hsame (fun _ => rfl) hclosing) element hparent
  · rcases hh.isOver (hsame (fun _ => rfl) hover) with hnil | ⟨element, hmem, hended, heq⟩
    · exact .inl hnil
    · refine .inr ⟨element, hmem, ?_, heq⟩
      rwa [hplace ((F.mem_elements _ _).mp hmem)]

end State.Concluding

/-- **A Collection ends with the status of one of its elements**, or with success if it has none,
in runs that nobody disturbs. -/
theorem runs_concluding [DecidableEq T] (run : Runs F Undisturbed start s)
    (hkind : F.kind collection = .collection) : s.Concluding F collection := by
  induction run with
  | refl =>
      refine ⟨fun h => ?_, fun thread job hop => ?_, fun h => ?_⟩
      · cases h
      · cases thread <;> simp [init] at hop
      · cases h
  | @tail mid last act run _ hstep ih =>
      have habort := (Outside.runs_called (run.mono Outside.nobody_allows)).2 collection
      refine step_rule ih (fun _ _ => ih.runThread (runs_calm run) (runs_finishing run)
        (runs_rests (runs_uncrossed run).1) (Bool.eq_false_of_not_eq_true habort) hkind)
        (fun _ _ _ => ih.takeUp) (fun before caller hbefore hbegin => ?_) hstep
      have hold : ∀ thread job, .countDown collection job ∈ last.stack thread →
          .countDown collection job ∈ before.stack thread := by
        intro thread job hop
        refine (State.mem_or_of_beginCall hbegin hop).resolve_left ?_
        cases act <;> simp [Act.ops]
      obtain ⟨-, rfl⟩ := State.beginCall_eq_some hbegin
      exact ⟨hbefore.closing, fun thread job hop => hbefore.carried thread job (hold thread job hop),
        hbefore.isOver⟩

end Concluding

/-! ## What has happened is an evaluation -/

/-- The status with which the job has ended. -/
def result [DecidableEq J] (log : List (Event J T)) (job : J) : Option Status :=
  log.findSome? fun
    | .ended other status => if other = job then some status else none
    | _ => none

section Runs

variable [DecidableEq J] [DecidableEq P] [DecidableEq T] {F : Forest J P σ}
  {start : Weaver.Start J P σ} {s : State J P T σ} {collection element job : J} {status : Status}

theorem runs_result {ok : State J P T σ → Act J T → Prop} (run : Runs F ok start s) :
    result s.data.log job = some status ↔
      (s.data.place job).isEnded = true ∧ s.data.status job = status := by
  rw [← runs_ended run]
  constructor
  · intro hresult
    obtain ⟨event, hmem, hevent⟩ := List.exists_of_findSome?_eq_some hresult
    cases event with
    | ended other _ =>
        simp only [Option.ite_none_right_eq_some, Option.some.injEq] at hevent
        obtain ⟨rfl, rfl⟩ := hevent
        exact hmem
    | _ => cases hevent
  · intro hmem
    cases hresult : result s.data.log job with
    | none =>
        have hnone := List.findSome?_eq_none_iff.mp hresult _ hmem
        simp at hnone
    | some other =>
        obtain ⟨event, hother, hevent⟩ := List.exists_of_findSome?_eq_some hresult
        cases event with
        | ended last _ =>
            simp only [Option.ite_none_right_eq_some, Option.some.injEq] at hevent
            obtain ⟨rfl, rfl⟩ := hevent
            -- the job has one status
            rw [← ((runs_ended run).mp hother).2, ((runs_ended run).mp hmem).2]
        | _ => cases hevent

theorem runs_result_ne_none {ok : State J P T σ → Act J T → Prop} (run : Runs F ok start s) :
    result s.data.log job ≠ none ↔ (s.data.place job).isEnded = true := by
  rw [Option.ne_none_iff_exists']
  constructor
  · rintro ⟨status, hresult⟩
    exact ((runs_result run).mp hresult).1
  · exact fun hended => ⟨_, (runs_result run).mpr ⟨hended, rfl⟩⟩

theorem runs_place_of_idle (run : Runs F Undisturbed start s) (hidle : s.data.isIdleP = true)
    (hfresh : s.data.place job ≠ .fresh)
    (hpending : ∀ thread, s.data.place job = .held .pending thread → F.parent job ≠ none) :
    s.data.place job = .reported ∨ s.data.place job = .discounted := by
  have hs := runs_sound run
  have hwaiting := runs_not_waiting_of_idle run hidle job
  simp only [Data.isIdleP, Bool.and_eq_true, List.isEmpty_iff, beq_iff_eq] at hidle
  cases hplace : s.data.place job with
  | fresh => exact absurd hplace hfresh
  | held stage thread =>
      obtain ⟨rfl, hnone⟩ := (runs_staffed run).held_of_idle hs hidle.2 hplace
      exact absurd hnone (hpending thread hplace)
  | queued =>
      have hlisted := hs.queued job hplace
      rw [hidle.1] at hlisted
      cases hlisted
  | waiting => exact absurd hplace hwaiting
  | reported => exact .inl rfl
  | discounted => exact .inr rfl
  | lost => exact absurd hplace ((runs_orderly run).kept job).1

theorem runs_element_of_idle (run : Runs F Undisturbed start s) (hidle : s.data.isIdleP = true)
    (hended : (s.data.place collection).isEnded = true)
    (hparent : F.parent element = some collection) :
    s.data.place element = .reported ∨ s.data.place element = .discounted := by
  have hs := runs_sound run
  refine runs_place_of_idle run hidle ?_ fun thread _ => by simp [hparent]
  intro hfresh
  have hclosed := (hs.books.fresh collection element hparent).mp hfresh
  rw [(hs.books.isOver collection (Books.Lawful.kind_ne_plain hparent)
    (Place.isOver_of_isEnded hended)).1] at hclosed
  cases hclosed

theorem runs_ended_of_idle (run : Runs F Undisturbed start s) (hidle : s.data.isIdleP = true)
    (hassigned : (s.data.place job).isAssigned = true) : (s.data.place job).isEnded = true := by
  have hplace : s.data.place job = .reported ∨ s.data.place job = .discounted :=
    runs_place_of_idle run hidle
      (fun hfresh => by simp [hfresh, Place.isAssigned, Place.isStarted] at hassigned)
      (fun thread hpending => by simp [hpending, Place.isAssigned, Place.isStarted] at hassigned)
  rcases hplace with hreported | hdiscounted
  · rw [hreported]
    rfl
  · rw [hdiscounted] at hassigned
    cases hassigned

/-- A Sequence that has ended has been executed up to the first element that fell short. -/
theorem runs_sequence (run : Runs F Undisturbed start s) (hkind : F.kind collection = .sequence)
    (hended : (s.data.place collection).isEnded = true) :
    (∀ element ∈ F.elements collection, s.data.Succeeded element) ∧
        s.data.status collection = .success ∨
      ∃ before element after, F.elements collection = before ++ element :: after ∧
        (∀ earlier ∈ before, s.data.Succeeded earlier) ∧ s.data.FellShort element ∧
        s.data.status collection = s.data.status element ∧
        ∀ later ∈ after, (s.data.place later).isAssigned = false := by
  have hh := runs_halting run hkind
  rcases hh.isOver (Place.isOver_of_isEnded hended) with
    ⟨hall, hsuccess⟩ | ⟨element, hparent, hshort, heq⟩
  · exact .inl ⟨fun element hmem => hall element ((F.mem_elements _ _).mp hmem), hsuccess⟩
  · obtain ⟨before, after, hsplit⟩ := List.append_of_mem ((F.mem_elements _ _).mpr hparent)
    have hpairs := F.elements_pairwise collection
    rw [hsplit, List.pairwise_append, List.pairwise_cons] at hpairs
    have howner : ∀ {other}, other ∈ before ∨ other ∈ after → F.parent other = some collection := by
      intro other hmem
      refine (F.mem_elements _ _).mp ?_
      rcases hmem with hmem | hmem <;> simp [hsplit, hmem]
    have hassigned : (s.data.place element).isAssigned = true :=
      Place.isAssigned_of_isStarted (Place.isStarted_of_isEnded hshort.1)
    refine .inr ⟨before, element, after, hsplit, fun earlier hmem => ?_, hshort, heq,
      fun later hmem => ?_⟩
    · exact hh.before earlier element (howner (.inl hmem)) hparent
        (hpairs.2.2 earlier hmem element List.mem_cons_self) hassigned
    · refine Bool.eq_false_of_not_eq_true fun hlater => hshort.2 ?_
      exact (hh.before element later hparent (howner (.inr hmem)) (hpairs.2.1.1 later hmem)
        hlater).2

/-- When the weaver is idle, the statuses with which the jobs have ended are an evaluation. -/
theorem runs_evaluation (run : Runs F Undisturbed start s) (hidle : s.data.isIdleP = true) :
    F.Evaluation (result s.data.log) where
  plain job status hkind hresult := by
    obtain ⟨hended, rfl⟩ := (runs_result run).mp hresult
    exact runs_runStatus run hkind (Place.isOver_of_isEnded hended)
  skipped element collection hparent hnone := by
    by_contra hresult
    have hended := (runs_result_ne_none run).mp hresult
    have hunder : F.Under collection element := .single hparent
    have hassigned := (runs_sound run).assigned_of_under hunder
      (Place.isAssigned_of_isStarted (Place.isStarted_of_isEnded hended))
    exact (runs_result_ne_none run).mpr (runs_ended_of_idle run hidle hassigned) hnone
  collection collection status hkind hresult := by
    obtain ⟨hended, rfl⟩ := (runs_result run).mp hresult
    refine ⟨fun element hmem => ?_, ?_⟩
    · have hparent := (F.mem_elements _ _).mp hmem
      refine (runs_result_ne_none run).mpr ?_
      rcases runs_element_of_idle run hidle hended hparent with
        hreported | hdiscounted
      · rw [hreported]
        rfl
      · have hremoved := (runs_calm run).not_removed hkind hparent
        rw [hdiscounted] at hremoved
        cases hremoved
    · refine ((runs_concluding run hkind).isOver (Place.isOver_of_isEnded hended)).imp_right ?_
      rintro ⟨element, hmem, helement, heq⟩
      exact ⟨element, hmem, (runs_result run).mpr ⟨helement, heq.symm⟩⟩
  sequence collection status hkind hresult := by
    obtain ⟨hended, rfl⟩ := (runs_result run).mp hresult
    refine (runs_sequence run hkind hended).imp ?_ ?_
    · rintro ⟨hall, hsuccess⟩
      exact ⟨fun element hmem => (runs_result run).mpr (hall element hmem), hsuccess⟩
    · rintro ⟨before, element, after, hsplit, hbefore, hshort, heq, hafter⟩
      refine ⟨before, element, after, hsplit, fun earlier hmem => ?_, ?_, heq ▸ hshort.2,
        fun later hmem => ?_⟩
      · exact (runs_result run).mpr (hbefore earlier hmem)
      · exact (runs_result run).mpr ⟨hshort.1, heq.symm⟩
      · by_contra hne
        have hlater := (runs_result_ne_none run).mp hne
        have hassigned := hafter later hmem
        rw [Place.isAssigned_of_isStarted (Place.isStarted_of_isEnded hlater)] at hassigned
        cases hassigned

theorem runs_root_of_idle (run : Runs F Undisturbed start s) (hidle : s.data.isIdleP = true)
    (hroot : F.parent job = none) (hmem : .enqueued job ∈ s.data.log) :
    result s.data.log job ≠ none := by
  have ho := runs_orderly run
  obtain ⟨hfresh, hpending⟩ := ho.enqueued job hmem
  refine (runs_result_ne_none run).mpr ?_
  rcases runs_place_of_idle run hidle hfresh (fun thread h => absurd h (hpending thread)) with
    hreported | hdiscounted
  · rw [hreported]
    rfl
  · -- only elements of Sequences are dequeued
    obtain ⟨before, after, hsplit⟩ :=
      List.append_of_mem (ho.dequeued job (by rw [hdiscounted]; rfl))
    obtain ⟨_, _, _, hparent, -⟩ := ho.stopped before _ after hsplit job rfl
    rw [hroot] at hparent
    cases hparent

/-- **The weaver evaluates nests of jobs.**  Whenever it is idle in a run that nobody disturbs, the
statuses with which the jobs have ended are an evaluation of the nest, in which every job that was
enqueued has one; and if all plain jobs below it succeed, so has everything below it. -/
theorem idle_means_evaluated (run : Runs F Undisturbed start s) (hidle : s.data.isIdleP = true) :
    F.Evaluation (result s.data.log) ∧
      ∀ root, F.parent root = none → .enqueued root ∈ s.data.log →
        result s.data.log root ≠ none ∧
          ((∀ leaf, F.Under root leaf → F.kind leaf = .plain → F.runStatus leaf = .success) →
            ∀ job, F.Under root job → result s.data.log job = some .success) := by
  have hevaluation := runs_evaluation run hidle
  refine ⟨hevaluation, fun root hroot hmem => ?_⟩
  have hresult := runs_root_of_idle run hidle hroot hmem
  exact ⟨hresult, fun hleaves job hunder => hevaluation.all_succeed hleaves hresult hunder⟩

/-- **What a nest comes to does not depend on the schedule.**  Two runs that nobody disturbs, with
any numbers of threads, end every job of a nest with the same status if no plain job of a
Collection fails. -/
theorem same_results {T' : Type*} [DecidableEq T'] {start' : Weaver.Start J P σ}
    {s' : State J P T' σ} {root : J} (run : Runs F Undisturbed start s)
    (run' : Runs F Undisturbed start' s') (hidle : s.data.isIdleP = true)
    (hidle' : s'.data.isIdleP = true) (hroot : F.parent root = none)
    (hmem : .enqueued root ∈ s.data.log) (hmem' : .enqueued root ∈ s'.data.log)
    (hcollections : ∀ collection leaf, F.Under root collection →
      F.kind collection = .collection → F.Under collection leaf → F.kind leaf = .plain →
      F.runStatus leaf = .success)
    (hunder : F.Under root job) : result s.data.log job = result s'.data.log job := by
  have hevaluation := runs_evaluation run hidle
  refine hevaluation.unique (runs_evaluation run' hidle') hcollections ?_ hunder
  exact iff_of_false (runs_root_of_idle run hidle hroot hmem)
    (runs_root_of_idle run' hidle' hroot hmem')

end Runs

/-- The first element of the Sequence fails, and the second one is not executed. -/
theorem idle_means_evaluated_failing : ∃ s : State (Fin 3) Empty Unit Unit,
    Runs failing Undisturbed (.plain ()) s ∧ failing.Evaluation (result s.data.log) ∧
      result s.data.log 2 = none ∧ result s.data.log 0 ≠ none := by
  obtain ⟨s, run, ⟨hidle, henqueued, hnone⟩, -⟩ :=
    exists_runs failing Undisturbed (.plain ())
      (fun s : State (Fin 3) Empty Unit Unit =>
        s.data.isIdleP = true ∧ .enqueued 0 ∈ s.data.log ∧ result s.data.log 2 = none)
      (List.flatten [[.enqueue () [0]], List.replicate 3 (.run (.caller ())),
        List.replicate 49 (.run (.worker 0))]) (by decide +kernel)
  obtain ⟨hevaluation, hroots⟩ := idle_means_evaluated run hidle
  exact ⟨s, run, hevaluation, hnone, (hroots 0 rfl henqueued).1⟩

/-- The Collection and its element are executed by one worker, and by two. -/
theorem same_results_pair : ∃ s s' : State (Fin 2) Empty Unit Unit,
    Runs pair Undisturbed (.plain ()) s ∧ Runs pair Undisturbed (.plain ()) s' ∧
      .assigned (.worker 0) 1 ∈ s.data.log ∧ .assigned (.worker 1) 1 ∈ s'.data.log ∧
      result s.data.log 1 = result s'.data.log 1 := by
  obtain ⟨s, run, ⟨hidle, henqueued, hassigned⟩, -⟩ :=
    exists_runs pair Undisturbed (.plain ())
      (fun s : State (Fin 2) Empty Unit Unit =>
        s.data.isIdleP = true ∧ .enqueued 0 ∈ s.data.log ∧ .assigned (.worker 0) 1 ∈ s.data.log)
      (List.flatten [[.enqueue () [0]], List.replicate 3 (.run (.caller ())),
        List.replicate 27 (.run (.worker 0))]) (by decide +kernel)
  obtain ⟨s', run', ⟨hidle', henqueued', hassigned'⟩, -⟩ :=
    exists_runs pair Undisturbed (.plain ())
      (fun s : State (Fin 2) Empty Unit Unit =>
        s.data.isIdleP = true ∧ .enqueued 0 ∈ s.data.log ∧ .assigned (.worker 1) 1 ∈ s.data.log)
      (List.flatten [[.enqueue () [0]], List.replicate 3 (.run (.caller ())),
        List.replicate 13 (.run (.worker 0)), List.replicate 15 (.run (.worker 1)),
        List.replicate 2 (.run (.worker 0))]) (by decide +kernel)
  have hsuccess : ∀ leaf, pair.runStatus leaf = .success := by decide
  have hunder : pair.Under 0 1 := .single rfl
  exact ⟨s, s', run, run', hassigned, hassigned',
    same_results run run' hidle hidle' rfl henqueued henqueued' (fun _ leaf _ _ _ _ => hsuccess leaf)
      hunder⟩

end ThreadWeaver.Collection
