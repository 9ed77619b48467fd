import ThreadWeaver.Collection.Books
import ThreadWeaver.Library.Custody
import ThreadWeaver.Library.Stack

/-!
# The stacks of operations

What lies under an operation on the stack of a thread is what the thread has still to do
when the operation is done, so it says from where in the source the operation was reached:
under the turn of a loop lies the unlocking of the mutex that the loop is done under.
`Fits` says what lies under each operation; it holds on every stack of every run, whatever
the data are.

`Op.locks` and `Op.jobs` are the mutexes and the jobs that an operation gives back or hands
on.
-/

namespace ThreadWeaver.Collection

open Library (owed Stacked)

variable {J P T σ : Type*}

/-- The mutexes that an operation releases, or hands on to the operation that does. -/
def Op.locks : Op J → List (Mutex J × Unit)
  | takeFirst _ => [(.weaver, ())]
  | processCompletedElement collection _ | advance collection _ | countDown collection _
  | resetApi collection => [(.job collection, ())]
  | unlock mutex => [(mutex, ())]
  | _ => []

/-- The jobs that are in the hands of a thread by an operation. -/
def Op.jobs [DecidableEq J] : Op J → List (J × Stage)
  | enqueue jobs => jobs.map (·, .pending)
  | enqueueJob job => [(job, .pending)]
  | execute job => [(job, .assigned)]
  | setRunning job | run job => [(job, .executing)]
  | elementFinished collection job =>
      [(job, if job = collection then .executing else .reporting)]
  | processCompletedElement collection job | restoreStatus collection job _
  | advance collection job | countDown collection job =>
      [(job, if job = collection then .closing else .reporting)]
  | defaultEnd job => [(job, .ending)]
  | discount _ element => [(element, .taken)]
  | leave collection => [(collection, .leaving)]
  | _ => []

/-- The mutex is released further down. -/
def Releases (mutex : Mutex J) (stack : List (Op J)) : Prop :=
  ∃ op ∈ stack, (mutex, ()) ∈ op.locks

/-- The job is the own job of the collection or one of its elements. -/
def Forest.Concerns (F : Forest J P σ) (collection job : J) : Prop :=
  job = collection ∧ F.kind collection ≠ .plain ∨ F.parent job = some collection

theorem Forest.Concerns.kind_ne_plain {F : Forest J P σ} {collection job : J}
    (h : F.Concerns collection job) : F.kind collection ≠ .plain := by
  rcases h with ⟨-, hkind⟩ | hparent
  · exact hkind
  · exact Books.Lawful.kind_ne_plain hparent

/-- A collection that the job is an element of is completing its own job further down. -/
def Forest.OpenedBelow (F : Forest J P σ) (job : J) (rest : List (Op J)) : Prop :=
  ∀ collection, F.parent job = some collection →
    .processCompletedElement collection collection ∈ rest

/-- What lies under an operation. -/
def Fits (F : Forest J P σ) : Op J → List (Op J) → Prop
  | .applyForWork _, rest | .takeFirst _, rest => rest = []
  | .enqueue jobs, rest => ∀ job ∈ jobs, F.OpenedBelow job rest
  | .enqueueJob job, rest => Releases .weaver rest ∧ F.OpenedBelow job rest
  | .assignBlocker element, rest => ∃ jobs, .enqueue jobs ∈ rest ∧ element ∈ jobs
  | .elementFinished collection job, _ | .processCompletedElement collection job, _
  | .restoreStatus collection job _, _ | .advance collection job, _
  | .countDown collection job, _ => F.Concerns collection job
  | .stop collection, _ | .dequeueSelf collection, _ | .stopElements collection, _
  | .clearSelf collection, _ | .abortElements collection, _ => F.kind collection ≠ .plain
  | .dequeueElements collection queueApiIsLocked, rest =>
      F.kind collection ≠ .plain ∧ Releases (.job collection) rest ∧
        (queueApiIsLocked = true → Releases .weaver rest ∧ .takeAt collection ∈ rest)
  | .dequeueElement collection element queueApiIsLocked, rest =>
      F.parent element = some collection ∧ Releases (.job collection) rest ∧
        (queueApiIsLocked = true → Releases .weaver rest ∧ .takeAt collection ∈ rest)
  | .discount collection element, rest =>
      F.parent element = some collection ∧ Releases (.job collection) rest
  | .checkLast collection, rest =>
      F.kind collection ≠ .plain ∧ Releases (.job collection) rest
  | .aboutToBeDequeued job, rest => Releases .weaver rest ∧ .takeAt job ∈ rest
  | .resetApi collection, rest => .takeAt collection ∈ rest
  | .setStatus job status, rest => F.statusInRun job = some status ∧ .run job ∈ rest
  | .takeAt job, rest =>
      Releases .weaver rest ∧ ((∃ collection, .discount collection job ∈ rest) ∨
        .leave job ∈ rest)
  | _, _ => True

/-- Every operation of the stack lies on what it was reached from. -/
abbrev Layout (F : Forest J P σ) : List (Op J) → Prop :=
  Stacked (Fits F)

namespace Layout

variable {F : Forest J P σ} {op : Op J} {ops rest : List (Op J)} {mutex : Mutex J}

theorem releases_append (ops : List (Op J)) (h : Releases mutex rest) :
    Releases mutex (ops ++ rest) := by
  obtain ⟨op, hop, hlocks⟩ := h
  exact ⟨op, List.mem_append_right _ hop, hlocks⟩

theorem releases_cons (h : Releases mutex rest) : Releases mutex (op :: rest) :=
  releases_append [op] h

/-- What lies under an operation may be deeper than directly under it, but for the
operations of a worker that has no job. -/
theorem fits_append (h : Fits F op rest) (hrest : rest ≠ []) : Fits F op (ops ++ rest) := by
  cases op with
  | applyForWork wasBusy => exact absurd h hrest
  | takeFirst candidates => exact absurd h hrest
  | takeAt job =>
      refine ⟨releases_append _ h.1, ?_⟩
      rcases h.2 with ⟨collection, hmem⟩ | hmem
      · exact .inl ⟨collection, List.mem_append_right _ hmem⟩
      · exact .inr (List.mem_append_right _ hmem)
  | enqueue jobs =>
      exact fun job hjob collection hparent =>
        List.mem_append_right _ (h job hjob collection hparent)
  | enqueueJob job =>
      exact ⟨releases_append _ h.1, fun collection hparent =>
        List.mem_append_right _ (h.2 collection hparent)⟩
  | assignBlocker element =>
      obtain ⟨jobs, hmem, helement⟩ := h
      exact ⟨jobs, List.mem_append_right _ hmem, helement⟩
  | resetApi collection => exact List.mem_append_right _ h
  | setStatus job status => exact ⟨h.1, List.mem_append_right _ h.2⟩
  | checkLast collection => exact ⟨h.1, releases_append _ h.2⟩
  | discount collection element => exact ⟨h.1, releases_append _ h.2⟩
  | aboutToBeDequeued job => exact ⟨releases_append _ h.1, List.mem_append_right _ h.2⟩
  | dequeueElements collection locked =>
      exact ⟨h.1, releases_append _ h.2.1, fun hlocked =>
        ⟨releases_append _ (h.2.2 hlocked).1, List.mem_append_right _ (h.2.2 hlocked).2⟩⟩
  | dequeueElement collection element locked =>
      exact ⟨h.1, releases_append _ h.2.1, fun hlocked =>
        ⟨releases_append _ (h.2.2 hlocked).1, List.mem_append_right _ (h.2.2 hlocked).2⟩⟩
  | _ => exact h

/-- The turns of a loop. -/
theorem map_append {f : J → Op J} {elements : List J}
    (h : ∀ element ∈ elements, Fits F (f element) rest) (hne : rest ≠ [])
    (hrest : Layout F rest) : Layout F (elements.map f ++ rest) :=
  Stacked.map_append (fun element hmem _ => fits_append (h element hmem) hne) hrest

/-- Operations that may lie on anything. -/
theorem append_of_fits (h : ∀ op ∈ ops, ∀ below, Fits F op below) (hrest : Layout F rest) :
    Layout F (ops ++ rest) :=
  Stacked.append (fun op hop _ => h op hop _) hrest

variable [DecidableEq J] [DecidableEq P]

/-- **An operation leaves behind a stack that is laid out as its own was**, if a collection
opens with its own job. -/
theorem exec (thread : Thread T) (d : Data J P T σ) (h : Layout F (op :: rest))
    (hself : ∀ collection job, op = .elementFinished collection job →
      d.selfIsExecuting collection = true → job = collection) :
    Layout F ((exec F thread op d).2 ++ rest) := by
  obtain ⟨hfits, hrest⟩ := h
  cases op with
  | applyForWork wasBusy => exact ⟨hfits, hrest⟩
  | takeFirst candidates =>
      cases candidates with
      | nil => exact ⟨hfits, hrest⟩
      | cons job candidates =>
          simp only [Collection.exec]
          split
          · exact ⟨trivial, hfits, hrest⟩
          · exact ⟨hfits, hrest⟩
  | enqueue jobs =>
      simp only [Collection.exec, List.append_assoc]
      refine map_append (fun job hjob => ⟨?_, fun collection hparent => ?_⟩) (by simp)
        ⟨trivial, hrest⟩
      · exact ⟨_, List.mem_cons_self, List.mem_singleton.mpr rfl⟩
      · exact List.mem_append_right _ (hfits job hjob collection hparent)
  | finish =>
      simp only [Collection.exec]
      split
      · exact hrest
      · exact ⟨trivial, hrest⟩
  | execute job =>
      simp only [Collection.exec]
      split
      · rw [List.append_assoc]
        refine append_of_fits ?_ ⟨trivial, hrest⟩
        simp [beginElement, Fits]
      · exact ⟨trivial, trivial, hrest⟩
  | elementStarted collection =>
      simp only [Collection.exec, List.append_assoc]
      refine append_of_fits ?_ ⟨trivial, hrest⟩
      split <;> simp [beginElement, Fits]
  | run job =>
      simp only [Collection.exec]
      split
      · exact ⟨trivial, hrest⟩
      · rename_i hkind
        exact ⟨.inl ⟨rfl, hkind⟩, hrest⟩
  | defaultEnd job =>
      simp only [Collection.exec]
      cases hparent : F.parent job with
      | none => exact hrest
      | some collection => exact ⟨.inr hparent, hrest⟩
  | elementFinished collection job =>
      simp only [Collection.exec]
      split
      · rename_i hflag
        split
        · exact ⟨hfits, hrest⟩
        · obtain rfl := hself collection job rfl hflag
          have henqueue : Layout F ([.enqueue (F.elements job),
              .processCompletedElement job job] ++ rest) := by
            refine ⟨fun element helement owner hparent => ?_, hfits, hrest⟩
            rw [(F.mem_elements _ _).mp helement] at hparent
            cases hparent
            exact List.mem_cons_self
          rw [List.append_assoc]
          split
          · refine map_append (fun element helement => ?_) (by simp) henqueue
            exact ⟨_, List.mem_cons_self, helement⟩
          · exact henqueue
      · exact ⟨hfits, hrest⟩
  | processCompletedElement collection job =>
      simp only [Collection.exec]
      split
      · rename_i hkind
        split
        · exact ⟨hfits, hrest⟩
        · exact ⟨by simp [Fits, hkind], hfits, hrest⟩
      · exact ⟨hfits, hrest⟩
  | restoreStatus collection job status => exact ⟨hfits, hrest⟩
  | advance collection job =>
      simp only [Collection.exec, List.append_assoc]
      refine append_of_fits ?_ ⟨hfits, hrest⟩
      simp [Fits]
  | countDown collection job =>
      simp only [Collection.exec]
      split
      · refine ⟨trivial, ?_, hrest⟩
        rcases hfits with ⟨-, hkind⟩ | hparent
        · exact hkind
        · exact Books.Lawful.kind_ne_plain hparent
      · exact hrest
  | stop collection =>
      simp only [Collection.exec]
      split
      · exact ⟨hfits, hrest⟩
      · exact hrest
  | dequeueSelf collection =>
      simp only [Collection.exec]
      split
      · refine ⟨⟨?_, by simp⟩, ⟨?_, by simp⟩, trivial, trivial, hrest⟩ <;>
          exact ⟨.unlock .weaver, by simp, by simp [Op.locks]⟩
      · exact ⟨hfits, hrest⟩
  | stopElements collection =>
      refine ⟨⟨hfits, ⟨.unlock (.job collection), by simp, by simp [Op.locks]⟩, ?_⟩, trivial,
        hrest⟩
      intro hlocked
      cases hlocked
  | dequeueElements collection locked =>
      simp only [Collection.exec]
      split
      · rw [List.append_assoc]
        refine map_append (fun element hmem => ?_) (by simp) ⟨⟨hfits.1, hfits.2.1⟩, hrest⟩
        exact ⟨(F.mem_elements _ _).mp hmem, releases_cons hfits.2.1, fun hlocked =>
          ⟨releases_cons (hfits.2.2 hlocked).1, List.mem_cons_of_mem _ (hfits.2.2 hlocked).2⟩⟩
      · exact hrest
  | dequeueElement collection element locked =>
      have hblocker : Layout F (elementDequeued F collection element ++ rest) := by
        refine append_of_fits ?_ hrest
        unfold elementDequeued
        split <;> simp [Fits]
      obtain ⟨hparent, hreleases, hlocked⟩ := hfits
      have hdiscount := releases_append (elementDequeued F collection element) hreleases
      simp only [Collection.exec]
      split
      · split
        · rename_i hyes
          have hweaver := releases_append (elementDequeued F collection element)
            (hlocked hyes).1
          refine ⟨⟨releases_cons (releases_cons hweaver), by simp⟩,
            ⟨releases_cons hweaver, .inl ⟨collection, by simp⟩⟩, ⟨hparent, hdiscount⟩, hblocker⟩
        · refine ⟨⟨?_, by simp⟩, ⟨?_, .inl ⟨collection, by simp⟩⟩, trivial,
            ⟨hparent, hdiscount⟩, hblocker⟩ <;>
          exact ⟨.unlock .weaver, by simp, by simp [Op.locks]⟩
      · exact hblocker
  | aboutToBeDequeued job =>
      simp only [Collection.exec]
      split
      · exact hrest
      · rename_i hkind
        refine ⟨⟨hkind, ⟨.resetApi job, by simp, by simp [Op.locks]⟩, fun _ => ?_⟩, hfits.2,
          hrest⟩
        exact ⟨releases_cons hfits.1, List.mem_cons_of_mem _ hfits.2⟩
  | requestAbort job =>
      simp only [Collection.exec]
      split
      · exact hrest
      · rename_i hkind
        exact ⟨hkind, hkind, hrest⟩
  | abortElements collection =>
      simp only [Collection.exec, List.append_assoc]
      exact append_of_fits (by simp [Fits]) ⟨trivial, hrest⟩
  | abortElement element =>
      simp only [Collection.exec]
      split
      · exact ⟨trivial, hrest⟩
      · exact hrest
  | setRunning job =>
      simp only [Collection.exec, List.append_assoc, setInRun]
      have hrun : Layout F ([.run job] ++ rest) := ⟨trivial, hrest⟩
      refine Stacked.map_append (fun status hstatus others => ?_) hrun
      exact fits_append ⟨by simpa using hstatus, List.mem_cons_self⟩ (List.cons_ne_nil _ _)
  | _ => exact hrest

end Layout

end ThreadWeaver.Collection
