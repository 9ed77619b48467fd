import ThreadWeaver.Collection.Completion

/-!
# Calls from outside

`stop` is called by other threads, by a Sequence on itself while it completes an element
without success, and by `requestAbort`, which goes on to the elements.  An `Outside` says on
which jobs other threads may call the two; then the stop of any other collection is its own,
and lies on the operation that restores the status afterwards.

When nobody calls from outside, nothing is missed: the element that a Sequence is completing
when it stops itself is still counted on.
-/

namespace ThreadWeaver.Collection

open Library (Stacked)

variable {J P T σ : Type*}

/-- The jobs on which other threads may call `stop` and `requestAbort`.  To abort a job is to
stop it and to abort its elements. -/
structure Outside (F : Forest J P σ) where
  stops : J → Prop
  aborts : J → Prop
  stops_of_aborts : ∀ job, aborts job → stops job
  aborts_of_parent : ∀ element collection, F.parent element = some collection →
    aborts collection → aborts element

namespace Outside

variable {F : Forest J P σ}

/-- Nobody calls from outside. -/
def nobody (F : Forest J P σ) : Outside F where
  stops _ := False
  aborts _ := False
  stops_of_aborts _ := id
  aborts_of_parent _ _ _ := id

/-- The calls that other threads make are allowed. -/
def Allows (O : Outside F) (_ : State J P T σ) : Act J T → Prop
  | .stop _ collection => O.stops collection
  | .requestAbort _ job => O.aborts job
  | .run _ | .enqueue _ _ | .finish _ => True

theorem nobody_allows (s : State J P T σ) (act : Act J T) (h : Undisturbed s act) :
    (nobody F).Allows s act := by
  cases act with
  | stop | requestAbort => exact h
  | _ => trivial

/-- From where an operation of a stop or an abort has been called. -/
def Called (O : Outside F) : Op J → List (Op J) → Prop
  | .requestAbort job, _ | .abortElements job, _ | .abortElement job, _ => O.aborts job
  | .stop collection, rest | .dequeueSelf collection, rest | .stopElements collection, rest =>
      O.stops collection ∨ ∃ job status below, rest = .restoreStatus collection job status :: below
  | .dequeueElements collection queueApiIsLocked, rest =>
      queueApiIsLocked = false → O.stops collection ∨ ∃ job status below,
        rest = .unlock (.job collection) :: .restoreStatus collection job status :: below
  | .dequeueElement collection _ queueApiIsLocked, rest =>
      queueApiIsLocked = false → O.stops collection ∨
        ∃ job status, .restoreStatus collection job status ∈ rest
  | .discount collection _, rest =>
      O.stops collection ∨ ∃ job status, .restoreStatus collection job status ∈ rest
  | .checkLast collection, rest =>
      O.stops collection ∨ .takeAt collection ∈ rest ∨ ∃ job status below,
        rest = .unlock (.job collection) :: .restoreStatus collection job status :: below
  | _, _ => True

variable [DecidableEq J] [DecidableEq P] {O : Outside F} {op : Op J} {rest : List (Op J)}

/-- An operation calls the operations of stops and aborts from where they may be called. -/
theorem exec_called (thread : Thread T) (d : Data J P T σ) (hlayout : Layout F (op :: rest))
    (h : Stacked O.Called (op :: rest))
    (hhook : ∀ collection element, op = .dequeueElement collection element true →
      element ∉ d.assignments) :
    Stacked O.Called ((exec F thread op d).2 ++ rest) := by
  obtain ⟨hcalled, hrest⟩ := h
  cases op with
  | applyForWork wasBusy => exact ⟨trivial, hrest⟩
  | takeFirst candidates =>
      cases candidates with
      | nil => exact ⟨trivial, hrest⟩
      | cons job candidates =>
          simp only [exec]
          split
          · exact ⟨trivial, trivial, hrest⟩
          · exact ⟨trivial, hrest⟩
  | enqueue jobs =>
      simp only [exec, List.append_assoc]
      exact Stacked.map_append (fun _ _ _ => trivial) ⟨trivial, hrest⟩
  | finish =>
      simp only [exec]
      split
      · exact hrest
      · exact ⟨trivial, hrest⟩
  | execute job =>
      simp only [exec]
      split
      · rw [List.append_assoc]
        refine Stacked.append ?_ ⟨trivial, hrest⟩
        simp [beginElement, Called]
      · exact ⟨trivial, trivial, hrest⟩
  | elementStarted collection =>
      simp only [exec, List.append_assoc]
      refine Stacked.append ?_ ⟨trivial, hrest⟩
      split <;> simp [beginElement, Called]
  | run job =>
      simp only [exec]
      split <;> exact ⟨trivial, hrest⟩
  | defaultEnd job =>
      simp only [exec]
      split
      · exact hrest
      · exact ⟨trivial, hrest⟩
  | elementFinished collection job =>
      simp only [exec]
      split
      · split
        · exact ⟨trivial, hrest⟩
        · rw [List.append_assoc]
          refine Stacked.append ?_ ⟨trivial, trivial, hrest⟩
          split <;> simp [Called]
      · exact ⟨trivial, hrest⟩
  | processCompletedElement collection job =>
      simp only [exec]
      split
      · split
        · exact ⟨trivial, hrest⟩
        · exact ⟨.inr ⟨job, _, rest, rfl⟩, trivial, hrest⟩
      · exact ⟨trivial, hrest⟩
  | advance collection job =>
      simp only [exec, List.append_assoc]
      refine Stacked.append ?_ ⟨trivial, hrest⟩
      simp [Called]
  | countDown collection job =>
      simp only [exec]
      split
      · exact ⟨trivial, trivial, hrest⟩
      · exact hrest
  | stop collection =>
      simp only [exec]
      split
      · exact ⟨hcalled, hrest⟩
      · exact hrest
  | dequeueSelf collection =>
      simp only [exec]
      split
      · exact ⟨trivial, trivial, trivial, trivial, hrest⟩
      · exact ⟨hcalled, hrest⟩
  | stopElements collection =>
      refine ⟨fun _ => ?_, trivial, hrest⟩
      rcases hcalled with hstops | ⟨job, status, below, rfl⟩
      · exact .inl hstops
      · exact .inr ⟨job, status, below, rfl⟩
  | dequeueElements collection locked =>
      have hlast : O.Called (.checkLast collection) rest := by
        cases locked with
        | true => exact .inr (.inl (hlayout.1.2.2 rfl).2)
        | false => exact (hcalled rfl).imp id .inr
      simp only [exec]
      split
      · rw [List.append_assoc]
        refine Stacked.map_append (fun element _ above hlocked => ?_) ⟨hlast, hrest⟩
        rcases hcalled hlocked with hstops | ⟨job, status, below, rfl⟩
        · exact .inl hstops
        · exact .inr ⟨job, status, by simp⟩
      · exact hrest
  | dequeueElement collection element locked =>
      have hblocker : Stacked O.Called (elementDequeued F collection element ++ rest) := by
        refine Stacked.append ?_ hrest
        unfold elementDequeued
        split <;> simp [Called]
      simp only [exec]
      split
      · rename_i hmem
        cases locked with
        | true => exact absurd hmem (hhook collection element rfl)
        | false =>
            have hdiscount : O.Called (.discount collection element)
                (elementDequeued F collection element ++ rest) := by
              rcases hcalled rfl with hstops | ⟨job, status, hbelow⟩
              · exact .inl hstops
              · exact .inr ⟨job, status, List.mem_append_right _ hbelow⟩
            exact ⟨trivial, trivial, trivial, hdiscount, hblocker⟩
      · exact hblocker
  | aboutToBeDequeued job =>
      simp only [exec]
      split
      · exact hrest
      · exact ⟨fun hlocked => absurd hlocked (by simp), trivial, hrest⟩
  | requestAbort job =>
      simp only [exec]
      split
      · exact hrest
      · exact ⟨.inl (O.stops_of_aborts job hcalled), hcalled, hrest⟩
  | abortElements collection =>
      simp only [exec, List.append_assoc]
      refine Stacked.map_append (fun element hmem _ => ?_) ⟨trivial, hrest⟩
      exact O.aborts_of_parent _ _ ((F.mem_elements _ _).mp hmem) hcalled
  | abortElement element =>
      simp only [exec]
      split
      · exact ⟨hcalled, hrest⟩
      · exact hrest
  | setRunning job =>
      simp only [exec, setInRun, List.append_assoc]
      exact Stacked.map_append (fun _ _ _ => trivial) ⟨trivial, hrest⟩
  | restoreStatus collection job status => exact ⟨trivial, hrest⟩
  | _ => exact hrest

theorem exec_shouldAbort (thread : Thread T) (d : Data J P T σ) (op : Op J) (job : J)
    (h : (exec F thread op d).1.shouldAbort job = true) :
    d.shouldAbort job = true ∨ op = .requestAbort job := by
  rcases exec_setsAbort F thread op d with ⟨aborted, rfl, hafter⟩ | hsame
  · rw [hafter, Function.update_apply] at h
    split at h
    · rename_i heq
      exact .inr (by rw [heq])
    · exact .inl h
  · exact .inl (hsame ▸ h)

/-! ## Runs -/

variable [DecidableEq T] {s : State J P T σ} {start : Weaver.Start J P σ}

/-- **Stops and aborts are called from where they may be.** -/
theorem runs_called (run : Runs F O.Allows start s) :
    (∀ thread, Stacked O.Called (s.stack thread)) ∧
      ∀ job, s.data.shouldAbort job = true → O.aborts job := by
  induction run with
  | refl =>
      refine ⟨fun thread => ?_, fun job h => by cases h⟩
      cases thread <;> simp [init, Stacked, Called]
  | @tail mid last act run hok hstep ih =>
      obtain ⟨hcalled, habort⟩ := ih
      have hcall : ∀ {before : State J P T σ} {caller ops},
          before.stack = mid.stack → before.data.shouldAbort = mid.data.shouldAbort →
          before.beginCall caller ops = some last → Stacked O.Called ops →
          (∀ thread, Stacked O.Called (last.stack thread)) ∧
            ∀ job, last.data.shouldAbort job = true → O.aborts job := by
        intro before caller ops hstack hflag hbegin hops
        obtain ⟨-, rfl⟩ := State.beginCall_eq_some hbegin
        refine ⟨fun thread => ?_, fun job h => habort job (hflag ▸ h)⟩
        dsimp only
        by_cases heq : thread = .caller caller
        · rw [heq, Function.update_self]
          exact hops
        · rw [Function.update_of_ne heq, hstack]
          exact hcalled thread
      cases act with
      | run thread =>
          have hs := runs_sound run
          obtain ⟨op, rest, hstack, -, rfl⟩ := State.runThread_eq_some hstep
          have hlayout := hs.layout thread
          have hbefore := hcalled thread
          rw [hstack] at hlayout hbefore
          refine ⟨fun other => ?_, fun job h => ?_⟩
          · dsimp only
            by_cases heq : other = thread
            · rw [heq, Function.update_self]
              refine exec_called thread mid.data hlayout hbefore ?_
              rintro collection element rfl
              exact hs.notMem_of_hook (hstack ▸ List.mem_cons_self) rfl
            · rw [Function.update_of_ne heq]
              exact hcalled other
          · rcases exec_shouldAbort thread mid.data op job h with h | rfl
            · exact habort job h
            · exact hbefore.1
      | enqueue caller jobs =>
          simp only [step] at hstep
          split at hstep
          · have htaken : (mid.takeUp (.caller caller) jobs).stack = mid.stack := rfl
            exact hcall htaken rfl hstep ⟨trivial, trivial⟩
          · cases hstep
      | stop caller collection =>
          simp only [step] at hstep
          split at hstep
          · cases hstep
          · exact hcall rfl rfl hstep ⟨.inl hok, trivial⟩
      | requestAbort caller job => exact hcall rfl rfl hstep ⟨hok, trivial⟩
      | finish caller => exact hcall rfl rfl hstep ⟨trivial, trivial⟩

end Outside

end ThreadWeaver.Collection
