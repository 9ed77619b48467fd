import Mathlib.Data.Prod.Lex
import ThreadWeaver.Collection.Executors
import ThreadWeaver.Collection.Leaves

/-!
# What is held under an operation

Mutexes are taken in both directions along the nesting.  `Rests` says which of them a thread may
hold when it comes to an operation:

* an abort and a stop go inwards: what is held are mutexes of collections around the one they
  are at, and that of the next of them is;
* the elements are enqueued, blocked and unblocked under the mutex of their collection, and
  taken out of the queue under those of collections around them;
* the hooks of `dequeue` are called under the weaver mutex;
* nothing is held when a job is executed or has ended, but the begin of an inner collection is
  notified under its mutex, and only under that.

The weaver mutex is taken under the mutexes of collections that have been handed to a worker, and
the mutexes of jobs that have not been are taken under it.
-/

namespace ThreadWeaver.Collection

open Relation (ReflTransGen)
open Library (Stacked)

variable {J P T σ : Type*}

/-! ## Collections around a job -/

/-- The job is below `outer` in its tree. -/
def Forest.Around (F : Forest J P σ) (outer job : J) : Prop :=
  ∃ collection, F.parent job = some collection ∧ F.Under outer collection

namespace Forest

variable {F : Forest J P σ} {outer job collection : J}

theorem Under.height_le (h : F.Under outer job) : F.height job ≤ F.height outer := by
  induction h with
  | refl => exact le_rfl
  | tail _ hparent ih => exact (F.height_lt _ _ hparent).le.trans ih

theorem Around.height_lt (h : F.Around outer job) : F.height job < F.height outer := by
  obtain ⟨collection, hparent, hunder⟩ := h
  exact (F.height_lt _ _ hparent).trans_le hunder.height_le

theorem Around.under (h : F.Around outer job) : F.Under outer job := by
  obtain ⟨collection, hparent, hunder⟩ := h
  exact hunder.tail hparent

theorem around_of_parent (h : F.parent job = some collection) : F.Around collection job :=
  ⟨collection, h, .refl⟩

end Forest

/-! ## What is released further down -/

section Releases

variable {op : Op J} {ops rest : List (Op J)} {mutex : Mutex J}

theorem releases_cons_iff :
    Releases mutex (op :: rest) ↔ (mutex, ()) ∈ op.locks ∨ Releases mutex rest := by
  simp [Releases, or_and_right, exists_or]

theorem releases_append_iff :
    Releases mutex (ops ++ rest) ↔ Releases mutex ops ∨ Releases mutex rest := by
  simp [Releases, or_and_right, exists_or]

/-- Operations that release nothing. -/
theorem not_releases_of_locks (h : ∀ op ∈ ops, op.locks = []) : ¬ Releases mutex ops := by
  rintro ⟨op, hop, hlocks⟩
  rw [h op hop] at hlocks
  cases hlocks

theorem releases_append_of_locks (h : ∀ op ∈ ops, op.locks = []) :
    Releases mutex (ops ++ rest) ↔ Releases mutex rest := by
  rw [releases_append_iff, or_iff_right (not_releases_of_locks h)]

theorem releases_map_append {A : Type*} {f : A → Op J} {items : List A}
    (h : ∀ item, (f item).locks = []) :
    Releases mutex (items.map f ++ rest) ↔ Releases mutex rest := by
  refine releases_append_of_locks fun op hop => ?_
  obtain ⟨item, -, rfl⟩ := List.mem_map.mp hop
  exact h item

theorem releases_map_unlock {A : Type*} {f : A → Op J} {items : List A} {held : Mutex J}
    (h : ∀ item, (f item).locks = []) :
    Releases mutex (items.map f ++ ([.unlock held] ++ rest)) ↔
      mutex = held ∨ Releases mutex rest := by
  rw [releases_map_append h, List.singleton_append, releases_cons_iff]
  simp [Op.locks]

end Releases

/-- What a thread holds when it comes to an operation. -/
def Rests (F : Forest J P σ) (place : J → Place T) : Op J → List (Op J) → Prop
  | .execute _, rest | .setRunning _, rest | .run _, rest | .defaultEnd _, rest
  | .elementFinished _ _, rest | .processCompletedElement _ _, rest | .countDown _ _, rest
  | .clearSelf _, rest | .finish, rest => ∀ mutex, ¬ Releases mutex rest
  | .restoreStatus collection _ _, rest | .advance collection _, rest =>
      F.kind collection = .sequence ∧ ∀ mutex, ¬ Releases mutex rest
  | .elementStarted collection, rest =>
      (.setRunning collection ∈ rest ∨
        ∃ element, F.parent element = some collection ∧ .setRunning element ∈ rest) ∧
      ∀ mutex, Releases mutex rest → ∃ inner below, mutex = .job inner ∧
        F.parent inner = some collection ∧ rest = .unlock (.job inner) :: below ∧
        .setRunning inner ∈ below
  | .enqueue _, rest => ∀ mutex, Releases mutex rest →
      ∃ outer, mutex = .job outer ∧ (place outer).isAssigned = true
  | .enqueueJob _, rest => ∀ mutex, Releases mutex rest → mutex = .weaver ∨
      ∃ outer, mutex = .job outer ∧ (place outer).isAssigned = true
  | .assignBlocker element, rest => ∀ mutex, Releases mutex rest →
      ∃ outer, mutex = .job outer ∧ F.Around outer element
  | .removeBlocker element, rest => ∀ mutex, Releases mutex rest →
      (mutex = .weaver ∧ ∃ collection, F.parent element = some collection ∧
        .takeAt collection ∈ rest) ∨
      ∃ outer, mutex = .job outer ∧ F.Around outer element
  | .requestAbort job, rest | .abortElement job, rest | .stop job, rest
  | .stopElements job, rest | .abortElements job, rest => ∀ mutex, Releases mutex rest →
      ∃ collection outer, F.parent job = some collection ∧ Releases (.job collection) rest ∧
        mutex = .job outer ∧ F.Under outer collection
  | .dequeueSelf job, rest => ∀ mutex, Releases mutex rest →
      ∃ collection outer, F.parent job = some collection ∧ Releases (.job collection) rest ∧
        mutex = .job outer ∧ F.Under outer collection ∧ (place outer).isAssigned = true
  | .dequeueElements collection queueApiIsLocked, rest => ∀ mutex, Releases mutex rest →
      (mutex = .weaver ∧ queueApiIsLocked = true) ∨
      ∃ outer, mutex = .job outer ∧ F.Under outer collection
  | .dequeueElement collection _ queueApiIsLocked, rest => ∀ mutex, Releases mutex rest →
      (mutex = .weaver ∧ queueApiIsLocked = true) ∨
      ∃ outer, mutex = .job outer ∧ F.Under outer collection ∧
        (queueApiIsLocked = false → (place outer).isAssigned = true)
  | .aboutToBeDequeued job, rest => ∀ mutex, Releases mutex rest → mutex = .weaver ∨
      ∃ outer, mutex = .job outer ∧ F.Around outer job
  | _, _ => True

/-- Jobs only get further. -/
theorem Rests.mono {F : Forest J P σ} {place place' : J → Place T} {op : Op J} {rest : List (Op J)}
    (hassigned : ∀ job, (place job).isAssigned = true → (place' job).isAssigned = true)
    (h : Rests F place op rest) : Rests F place' op rest := by
  cases op with
  | enqueue jobs =>
      intro mutex hreleases
      obtain ⟨outer, hmutex, hplace⟩ := h mutex hreleases
      exact ⟨outer, hmutex, hassigned _ hplace⟩
  | enqueueJob job =>
      intro mutex hreleases
      refine (h mutex hreleases).imp_right ?_
      rintro ⟨outer, hmutex, hplace⟩
      exact ⟨outer, hmutex, hassigned _ hplace⟩
  | dequeueSelf job =>
      intro mutex hreleases
      obtain ⟨collection, outer, hparent, hheld, hmutex, hunder, hplace⟩ := h mutex hreleases
      exact ⟨collection, outer, hparent, hheld, hmutex, hunder, hassigned _ hplace⟩
  | dequeueElement collection element locked =>
      intro mutex hreleases
      refine (h mutex hreleases).imp_right ?_
      rintro ⟨outer, hmutex, hunder, hplace⟩
      exact ⟨outer, hmutex, hunder, fun hlocked => hassigned _ (hplace hlocked)⟩
  | _ => exact h

/-- A job that has been handed to a worker stays so. -/
theorem Moves.isAssigned {F : Forest J P σ} {d : Data J P T σ} {thread : Thread T} {op : Op J}
    {job : J} {before after : Place T} (h : Moves F d thread op job before after)
    (hassigned : before.isAssigned = true) : after.isAssigned = true := by
  cases h with
  | started | ending | closing | ended | reporting | waiting | reported | endingSelf
  | endingElement => rfl
  | _ => cases hassigned

/-! ## What is left to be done -/

section Left

variable {F : Forest J P σ} {place : J → Place T} {rest : List (Op J)}
  {collection element job : J}

/-- The begin of a job is notified before the job is running. -/
theorem stacked_beginElement
    (hheld : ∀ outer, F.parent job = some outer →
      Rests F place (.elementStarted outer) rest)
    (hrest : Stacked (Rests F place) rest) :
    Stacked (Rests F place) (beginElement F job ++ rest) := by
  cases hparent : F.parent job with
  | none => simpa [beginElement, hparent] using hrest
  | some outer =>
      simp only [beginElement, hparent]
      exact ⟨hheld outer hparent, hrest⟩

theorem stacked_enqueue {jobs : List J} (htop : Rests F place (.enqueue jobs) rest)
    (hrest : Stacked (Rests F place) rest) :
    Stacked (Rests F place) (jobs.map .enqueueJob ++ [.unlock .weaver] ++ rest) := by
  rw [List.append_assoc]
  refine Stacked.map_append_map (fun job _ others mutex hreleases => ?_) ⟨trivial, hrest⟩
  rw [releases_map_unlock (by simp [Op.locks])] at hreleases
  exact hreleases.imp_right (htop mutex)

/-- The elements are blocked and enqueued under the mutex of their collection alone. -/
theorem stacked_enqueueElements (hplace : (place collection).isAssigned = true)
    (htop : ∀ mutex, ¬ Releases mutex rest) (hrest : Stacked (Rests F place) rest) :
    Stacked (Rests F place)
      ((if F.kind collection = .sequence then (F.elements collection).map .assignBlocker else []) ++
        [.enqueue (F.elements collection), .processCompletedElement collection job] ++ rest) := by
  have hheld : ∀ mutex, Releases mutex (.processCompletedElement collection job :: rest) →
      mutex = .job collection := by
    intro mutex hreleases
    rcases releases_cons_iff.mp hreleases with hmutex | hbelow
    · simpa [Op.locks] using hmutex
    · exact absurd hbelow (htop mutex)
  have henqueue : Stacked (Rests F place) ([.enqueue (F.elements collection),
      .processCompletedElement collection job] ++ rest) :=
    ⟨fun mutex hreleases => ⟨collection, hheld mutex hreleases, hplace⟩, htop, hrest⟩
  rw [List.append_assoc]
  split
  · refine Stacked.map_append_map (fun element helement others mutex hreleases => ?_) henqueue
    rw [releases_map_append (by simp [Op.locks]), List.cons_append, releases_cons_iff]
      at hreleases
    refine ⟨collection, hheld mutex ?_,
      Forest.around_of_parent ((F.mem_elements _ _).mp helement)⟩
    simpa [Op.locks] using hreleases
  · exact henqueue

/-- The next element of a Sequence is unblocked under the mutex of the Sequence alone. -/
theorem stacked_advance {next : Option J}
    (hnext : ∀ element ∈ next, element ∈ F.elements collection)
    (htop : ∀ mutex, ¬ Releases mutex rest) (hrest : Stacked (Rests F place) rest) :
    Stacked (Rests F place)
      (next.toList.map .removeBlocker ++ [.countDown collection job] ++ rest) := by
  cases next with
  | none => exact ⟨htop, hrest⟩
  | some element =>
      have hparent := (F.mem_elements collection element).mp (hnext element rfl)
      refine ⟨fun mutex hreleases => .inr ⟨collection, ?_, Forest.around_of_parent hparent⟩, htop,
        hrest⟩
      rcases releases_cons_iff.mp hreleases with hmutex | hbelow
      · simpa [Op.locks] using hmutex
      · exact absurd hbelow (htop mutex)

/-- A collection in the queue is taken out of it under the mutexes of collections around it. -/
theorem stacked_dequeueSelf (htop : Rests F place (.dequeueSelf collection) rest)
    (hrest : Stacked (Rests F place) rest) :
    Stacked (Rests F place) ([.aboutToBeDequeued collection, .takeAt collection, .unlock .weaver,
      .leave collection] ++ rest) := by
  have hweaver : ∀ mutex, Releases mutex
      ([.takeAt collection, .unlock .weaver, .leave collection] ++ rest) ↔
      mutex = .weaver ∨ Releases mutex rest := by
    simp [releases_cons_iff, Op.locks]
  refine ⟨fun mutex hreleases => ?_, trivial, trivial, trivial, hrest⟩
  refine ((hweaver mutex).mp hreleases).imp_right fun hbelow => ?_
  obtain ⟨around, outer, hparent, -, hmutex, hunder, -⟩ := htop mutex hbelow
  exact ⟨outer, hmutex, around, hparent, hunder⟩

/-- The elements are taken out of the queue under the mutexes of collections around them, which
have been handed to a worker if the weaver mutex has to be taken. -/
theorem stacked_dequeueElements {queueApiIsLocked : Bool}
    (htop : Rests F place (.dequeueElements collection queueApiIsLocked) rest)
    (hassigned : queueApiIsLocked = false → F.elements collection ≠ [] →
      ∀ outer, F.Under outer collection → (place outer).isAssigned = true)
    (hrest : Stacked (Rests F place) rest) :
    Stacked (Rests F place)
      ((F.elements collection).map (.dequeueElement collection · queueApiIsLocked) ++
        [.checkLast collection] ++ rest) := by
  rw [List.append_assoc]
  refine Stacked.map_append_map (fun element helement others mutex hreleases => ?_)
    ⟨trivial, hrest⟩
  rw [releases_map_append (by simp [Op.locks]), List.singleton_append, releases_cons_iff]
    at hreleases
  have hbelow : Releases mutex rest := by simpa [Op.locks] using hreleases
  refine (htop mutex hbelow).imp_right ?_
  rintro ⟨outer, hmutex, hunder⟩
  exact ⟨outer, hmutex, hunder, fun hlocked =>
    hassigned hlocked (List.ne_nil_of_mem helement) outer hunder⟩

/-- A Sequence unblocks what it has taken out of the queue. -/
theorem stacked_elementDequeued {queueApiIsLocked : Bool}
    (htop : Rests F place (.dequeueElement collection element queueApiIsLocked) rest)
    (hparent : F.parent element = some collection)
    (hhook : queueApiIsLocked = true → .takeAt collection ∈ rest)
    (hrest : Stacked (Rests F place) rest) :
    Stacked (Rests F place) (elementDequeued F collection element ++ rest) := by
  unfold elementDequeued
  split
  · refine ⟨fun mutex hreleases => ?_, hrest⟩
    rcases htop mutex hreleases with ⟨hmutex, hlocked⟩ | ⟨outer, hmutex, hunder, -⟩
    · exact .inl ⟨hmutex, collection, hparent, hhook hlocked⟩
    · exact .inr ⟨outer, hmutex, collection, hparent, hunder⟩
  · exact hrest

/-- An element in the queue is taken out of it by a thread that has taken the weaver mutex. -/
theorem stacked_dequeueElement
    (htop : Rests F place (.dequeueElement collection element false) rest)
    (hparent : F.parent element = some collection)
    (hblocker : Stacked (Rests F place) (elementDequeued F collection element ++ rest)) :
    Stacked (Rests F place) ([.aboutToBeDequeued element, .takeAt element, .unlock .weaver,
      .discount collection element] ++ (elementDequeued F collection element ++ rest)) := by
  have hlocks : ∀ op ∈ elementDequeued F collection element, op.locks = [] := by
    unfold elementDequeued
    split <;> simp [Op.locks]
  have hweaver : ∀ mutex, Releases mutex
      ([.takeAt element, .unlock .weaver, .discount collection element] ++
        (elementDequeued F collection element ++ rest)) ↔
      mutex = .weaver ∨ Releases mutex rest := by
    simp [releases_cons_iff, releases_append_of_locks hlocks, Op.locks]
  refine ⟨fun mutex hreleases => ?_, trivial, trivial, trivial, hblocker⟩
  refine ((hweaver mutex).mp hreleases).imp_right fun hbelow => ?_
  rcases htop mutex hbelow with ⟨-, hlocked⟩ | ⟨outer, hmutex, hunder, -⟩
  · cases hlocked
  · exact ⟨outer, hmutex, collection, hparent, hunder⟩

/-- An abort goes inwards under the mutex of the collection. -/
theorem stacked_abortElements (htop : Rests F place (.abortElements collection) rest)
    (hrest : Stacked (Rests F place) rest) :
    Stacked (Rests F place) ((F.elements collection).map .abortElement ++
      [.unlock (.job collection)] ++ rest) := by
  rw [List.append_assoc]
  refine Stacked.map_append_map (fun element helement others mutex hreleases => ?_)
    ⟨trivial, hrest⟩
  have hparent := (F.mem_elements collection element).mp helement
  have hown : Releases (.job collection)
      (others.map .abortElement ++ ([.unlock (.job collection)] ++ rest)) :=
    Layout.releases_append _ ⟨_, List.mem_cons_self, by simp [Op.locks]⟩
  rw [releases_map_unlock (by simp [Op.locks])] at hreleases
  refine ⟨collection, ?_⟩
  rcases hreleases with rfl | hbelow
  · exact ⟨collection, hparent, hown, rfl, .refl⟩
  · obtain ⟨around, outer, howner, -, hmutex, hunder⟩ := htop mutex hbelow
    exact ⟨outer, hparent, hown, hmutex, hunder.tail howner⟩

end Left

section Exec

variable [DecidableEq J] [DecidableEq P] {F : Forest J P σ} {s : State J P T σ}
  {thread : Thread T} {op : Op J} {rest : List (Op J)}

omit [DecidableEq P] in
/-- No element of a collection is on its way to its execution before the own job of the collection
has begun. -/
theorem State.Sound.notMem_setRunning {collection element : J} (hs : s.Sound F)
    (hstarted : F.kind collection ≠ .plain →
      (s.data.place collection).isLate = true → s.data.jobsStarted collection ≠ 0)
    (hzero : s.data.jobsStarted collection = 0) (hparent : F.parent element = some collection) :
    .setRunning element ∉ s.stack thread := by
  intro hmem
  have hplace : s.data.place element = .held .executing thread :=
    hs.place_eq hmem (List.mem_singleton.mpr rfl)
  have hopened := hs.books.opened_of_ne_fresh hparent (by simp [Data.books, hplace])
  exact hstarted (Books.Lawful.kind_ne_plain hparent) (hs.books.late collection hopened) hzero

omit [DecidableEq P] in
/-- The first begin of a collection is passed on to the collection around it, under its mutex and
no other. -/
theorem State.Sound.stacked_elementStarted {collection : J} (hs : s.Sound F)
    (hstack : s.stack thread = .elementStarted collection :: rest)
    (hstarted : F.kind collection ≠ .plain →
      (s.data.place collection).isLate = true → s.data.jobsStarted collection ≠ 0)
    (hzero : s.data.jobsStarted collection = 0)
    (h : Stacked (Rests F s.data.place) (.elementStarted collection :: rest)) :
    Stacked (Rests F s.data.place)
      (beginElement F collection ++ ([.unlock (.job collection)] ++ rest)) := by
  obtain ⟨htop, hrest⟩ := h
  have hfirst : ∀ element, F.parent element = some collection → .setRunning element ∉ rest :=
    fun element hparent hmem =>
      hs.notMem_setRunning hstarted hzero hparent (hstack ▸ List.mem_cons_of_mem _ hmem)
  have hown : .setRunning collection ∈ rest := by
    rcases htop.1 with hown | ⟨element, hparent, helement⟩
    · exact hown
    · exact absurd helement (hfirst element hparent)
  have hnone : ∀ mutex, ¬ Releases mutex rest := by
    intro mutex hreleases
    obtain ⟨inner, below, -, hparent, rfl, helement⟩ := htop.2 mutex hreleases
    exact hfirst inner hparent (List.mem_cons_of_mem _ helement)
  refine stacked_beginElement (fun outer houter => ⟨?_, fun mutex hreleases => ?_⟩)
    ⟨trivial, hrest⟩
  · exact .inr ⟨collection, houter, List.mem_cons_of_mem _ hown⟩
  · rcases releases_cons_iff.mp hreleases with hmutex | hbelow
    · exact ⟨collection, rest, by simpa [Op.locks] using hmutex, houter, rfl, hown⟩
    · exact absurd hbelow (hnone mutex)

/-- **What an operation leaves to be done is come to with mutexes that may be held there**, if a
stop goes through the elements of no collection that waits in the queue. -/
theorem State.Sound.exec_rests (hs : s.Sound F) (hstack : s.stack thread = op :: rest)
    (hstarted : ∀ collection, F.kind collection ≠ .plain →
      (s.data.place collection).isLate = true → s.data.jobsStarted collection ≠ 0)
    (hfresh : ∀ job collection, F.parent job = some collection → s.data.api job = true →
      s.data.place job ≠ .fresh)
    (hassigned : ∀ collection, op = .dequeueElements collection false →
      s.data.api collection = true → F.elements collection ≠ [] →
      (s.data.place collection).isAssigned = true)
    (h : Stacked (Rests F s.data.place) (op :: rest)) :
    Stacked (Rests F s.data.place) ((exec F thread op s.data).2 ++ rest) := by
  have hop : op ∈ s.stack thread := by
    rw [hstack]
    exact List.mem_cons_self
  have hlayout := hs.layout thread
  rw [hstack] at hlayout
  obtain ⟨hfits, -⟩ := hlayout
  have hstacked := h
  obtain ⟨htop, hrest⟩ := h
  cases op with
  | applyForWork wasBusy => exact ⟨trivial, hrest⟩
  | takeFirst candidates =>
      obtain rfl : rest = [] := hfits
      cases candidates with
      | nil => exact ⟨trivial, trivial⟩
      | cons job candidates =>
          simp only [exec]
          split
          · exact ⟨fun mutex => not_releases_of_locks (by simp [Op.locks]), trivial, trivial⟩
          · exact ⟨trivial, trivial⟩
  | enqueue jobs => exact stacked_enqueue htop hrest
  | finish =>
      simp only [exec]
      split
      · exact hrest
      · exact ⟨htop, hrest⟩
  | execute job =>
      have hnone : ∀ mutex, ¬ Releases mutex (.setRunning job :: rest) := by
        intro mutex
        rw [releases_cons_iff]
        simpa [Op.locks] using htop mutex
      simp only [exec]
      split
      · rw [List.append_assoc]
        refine stacked_beginElement (fun outer houter => ⟨?_, fun mutex hreleases => ?_⟩)
          ⟨htop, hrest⟩
        · exact .inr ⟨job, houter, List.mem_cons_self⟩
        · exact absurd hreleases (hnone mutex)
      · refine ⟨⟨.inl List.mem_cons_self, fun mutex hreleases => ?_⟩, htop, hrest⟩
        exact absurd hreleases (hnone mutex)
  | elementStarted collection =>
      simp only [exec]
      by_cases hzero : s.data.jobsStarted collection = 0
      · rw [if_pos hzero, List.append_assoc]
        exact hs.stacked_elementStarted hstack (hstarted collection) hzero hstacked
      · rw [if_neg hzero]
        exact ⟨trivial, hrest⟩
  | setRunning job =>
      simp only [exec, setInRun, List.append_assoc]
      exact Stacked.map_append (fun _ _ _ => trivial) ⟨htop, hrest⟩
  | run job =>
      simp only [exec]
      split <;> exact ⟨htop, hrest⟩
  | defaultEnd job =>
      simp only [exec]
      cases F.parent job with
      | none => exact hrest
      | some collection => exact ⟨htop, hrest⟩
  | elementFinished collection job =>
      simp only [exec]
      split
      · rename_i hflag
        split
        · exact ⟨htop, hrest⟩
        · refine stacked_enqueueElements ?_ htop hrest
          rcases hs.of_elementFinished hop with ⟨-, -, hplace, -⟩ | ⟨-, -, -, hnot⟩
          · rw [hplace]
            rfl
          · cases hnot.symm.trans hflag
      · exact ⟨htop, hrest⟩
  | processCompletedElement collection job =>
      simp only [exec]
      split
      · rename_i hkind
        split
        · exact ⟨⟨hkind, htop⟩, hrest⟩
        · refine ⟨fun mutex hreleases => ?_, ⟨hkind, htop⟩, hrest⟩
          rcases releases_cons_iff.mp hreleases with hmutex | hbelow
          · simp [Op.locks] at hmutex
          · exact absurd hbelow (htop mutex)
      · exact ⟨htop, hrest⟩
  | restoreStatus collection job status => exact ⟨htop, hrest⟩
  | advance collection job =>
      exact stacked_advance (fun element hnext => List.mem_of_getElem? hnext) htop.2 hrest
  | countDown collection job =>
      simp only [exec]
      split
      · refine ⟨fun mutex hreleases => ?_, htop, hrest⟩
        rcases releases_cons_iff.mp hreleases with hmutex | hbelow
        · simp [Op.locks] at hmutex
        · exact htop mutex hbelow
      · exact hrest
  | stop collection =>
      simp only [exec]
      split
      · rename_i hapi
        refine ⟨fun mutex hreleases => ?_, hrest⟩
        obtain ⟨around, outer, hparent, hheld, hmutex, hunder⟩ := htop mutex hreleases
        have hopened := hs.books.opened_of_ne_fresh hparent (hfresh collection around hparent hapi)
        have hplace := Place.isAssigned_of_isStarted
          (Place.isStarted_of_isLate (hs.books.late around hopened))
        exact ⟨around, outer, hparent, hheld, hmutex, hunder, hs.assigned_of_under hunder hplace⟩
      · exact hrest
  | dequeueSelf collection =>
      simp only [exec]
      split
      · exact stacked_dequeueSelf htop hrest
      · refine ⟨fun mutex hreleases => ?_, hrest⟩
        obtain ⟨around, outer, hparent, hheld, hmutex, hunder, -⟩ := htop mutex hreleases
        exact ⟨around, outer, hparent, hheld, hmutex, hunder⟩
  | stopElements collection =>
      refine ⟨fun mutex hreleases => .inr ?_, trivial, hrest⟩
      rcases releases_cons_iff.mp hreleases with hmutex | hbelow
      · exact ⟨collection, by simpa [Op.locks] using hmutex, .refl⟩
      · obtain ⟨around, outer, hparent, -, hmutex, hunder⟩ := htop mutex hbelow
        exact ⟨outer, hmutex, hunder.tail hparent⟩
  | dequeueElements collection locked =>
      simp only [exec]
      split
      · rename_i hapi
        refine stacked_dequeueElements htop ?_ hrest
        rintro rfl hne outer hunder
        exact hs.assigned_of_under hunder (hassigned collection rfl hapi hne)
      · exact hrest
  | dequeueElement collection element locked =>
      obtain ⟨hparent, -, hhook⟩ := hfits
      have hblocker := stacked_elementDequeued htop hparent (fun hlocked => (hhook hlocked).2) hrest
      simp only [exec]
      split
      · rename_i hmem
        cases locked with
        | true => exact absurd hmem (hs.notMem_of_hook hop rfl)
        | false => exact stacked_dequeueElement htop hparent hblocker
      · exact hblocker
  | aboutToBeDequeued job =>
      simp only [exec]
      split
      · exact hrest
      · refine ⟨fun mutex hreleases => ?_, trivial, hrest⟩
        rcases releases_cons_iff.mp hreleases with hmutex | hbelow
        · exact .inr ⟨job, by simpa [Op.locks] using hmutex, .refl⟩
        · rcases htop mutex hbelow with hmutex | ⟨outer, hmutex, haround⟩
          · exact .inl ⟨hmutex, rfl⟩
          · exact .inr ⟨outer, hmutex, haround.under⟩
  | requestAbort job =>
      simp only [exec]
      split
      · exact hrest
      · refine ⟨fun mutex hreleases => ?_, htop, hrest⟩
        rcases releases_cons_iff.mp hreleases with hmutex | hbelow
        · simp [Op.locks] at hmutex
        · obtain ⟨around, outer, hparent, hheld, hmutex, hunder⟩ := htop mutex hbelow
          exact ⟨around, outer, hparent, Layout.releases_cons hheld, hmutex, hunder⟩
  | abortElements collection => exact stacked_abortElements htop hrest
  | abortElement element =>
      simp only [exec]
      split
      · exact ⟨htop, hrest⟩
      · exact hrest
  | _ => exact hrest

end Exec

/-! ## Runs -/

section Runs

variable [DecidableEq J] [DecidableEq P] [DecidableEq T] {F : Forest J P σ}
  {s : State J P T σ} {ok : State J P T σ → Act J T → Prop} {start : Weaver.Start J P σ}
  {collection job : J}

/-- The begin of a collection that has been executed has been counted. -/
theorem runs_jobsStarted (run : Runs F ok start s) (hkind : F.kind collection ≠ .plain)
    (hlate : (s.data.place collection).isLate = true) : s.data.jobsStarted collection ≠ 0 := by
  obtain ⟨x, hx, rfl⟩ := exists_execution run
  exact (((executions_hooked hx).counted collection).late hlate).1 hkind

/-- An element that has been given the queue is not fresh, and never will be again. -/
theorem runs_api (run : Runs F ok start s) (hparent : F.parent job = some collection)
    (hapi : s.data.api job = true) : s.data.place job ≠ .fresh := by
  induction run with
  | refl => cases hapi
  | @tail mid last act run _ hstep ih =>
      have hs := runs_sound run
      refine step_rule (I := fun next => next.data.api job = true → next.data.place job ≠ .fresh) ih
        ?_ ?_ ?_ hstep hapi
      · intro thread _ hran hafter
        obtain ⟨op, rest, hstack, hfree, rfl⟩ := State.runThread_eq_some hran
        dsimp only at hafter ⊢
        have hbefore : mid.data.api job = true → (exec F thread op mid.data).1.place job ≠ .fresh := by
          intro hbefore hfresh
          rcases hs.exec_place hstack hfree job with hsame | hmoves
          · exact ih hbefore (hsame ▸ hfresh)
          · rw [hfresh] at hmoves
            generalize mid.data.place job = place at hmoves
            cases hmoves with
            | again hnone =>
                rw [hparent] at hnone
                cases hnone
        rcases exec_setsApi F thread op mid.data job with ⟨hsame, -⟩ | hsets
        · exact hbefore (hsame ▸ hafter)
        · rw [hafter] at hsets
          cases hsets with
          | enqueueJob hkind =>
              simp [exec, Data.enqueueJob, Data.record, Data.moveTo, Data.setStatus]
      · intro caller jobs _ hjobs hafter
        rw [State.takeUp_place hjobs hparent]
        exact ih hafter
      · intro before caller hbefore hbegin
        obtain ⟨-, rfl⟩ := State.beginCall_eq_some hbegin
        exact hbefore

end Runs

/-! ## The order in which mutexes are taken -/

/-- First the jobs that have been handed to a worker, from the outside to the inside, then the
weaver mutex, then the other jobs. -/
def Data.rank (F : Forest J P σ) (d : Data J P T σ) : Mutex J → ℕ ×ₗ ℕ
  | .weaver => toLex (1, 0)
  | .job job => toLex (if (d.place job).isAssigned then 2 else 0, F.height job)

section Rank

variable {F : Forest J P σ} {d : Data J P T σ} {s : State J P T σ} {thread : Thread T} {op : Op J}
  {rest : List (Op J)} {job outer : J} {wanted mutex : Mutex J}

theorem Data.rank_lt_weaver (h : (d.place job).isAssigned = false) :
    d.rank F (.job job) < d.rank F .weaver := by
  simp [Data.rank, h, Prod.Lex.toLex_lt_toLex]

theorem Data.rank_weaver_lt (h : (d.place job).isAssigned = true) :
    d.rank F .weaver < d.rank F (.job job) := by
  simp [Data.rank, h, Prod.Lex.toLex_lt_toLex]

theorem Data.rank_lt_of_assigned (hjob : (d.place job).isAssigned = false)
    (houter : (d.place outer).isAssigned = true) :
    d.rank F (.job job) < d.rank F (.job outer) :=
  (Data.rank_lt_weaver hjob).trans (Data.rank_weaver_lt houter)

variable [DecidableEq J]

theorem State.Sound.rank_lt_of_around (hs : s.Sound F) (h : F.Around outer job) :
    s.data.rank F (.job job) < s.data.rank F (.job outer) := by
  simp only [Data.rank, Prod.Lex.toLex_lt_toLex]
  by_cases hjob : (s.data.place job).isAssigned = true
  · rw [if_pos hjob, if_pos (hs.assigned_of_under h.under hjob)]
    exact .inr ⟨rfl, h.height_lt⟩
  · rw [if_neg hjob]
    split
    · exact .inl Nat.two_pos
    · exact .inr ⟨rfl, h.height_lt⟩

/-- **The order is kept** by every thread that waits, but for those that notify a collection of
its begin. -/
theorem State.Sound.rank_lt (hs : s.Sound F) (hstack : s.stack thread = op :: rest)
    (h : Rests F s.data.place op rest) (hwants : wants F op = some wanted)
    (hholder : s.data.holder mutex = some thread)
    (hstarted : ∀ collection, op ≠ .elementStarted collection) :
    s.data.rank F wanted < s.data.rank F mutex := by
  have hop : op ∈ s.stack thread := by
    rw [hstack]
    exact List.mem_cons_self
  have hlayout := hs.layout thread
  rw [hstack] at hlayout
  obtain ⟨hfits, -⟩ := hlayout
  have hreleases := hs.releases_of_holder hholder
  rw [hstack, releases_cons_iff] at hreleases
  -- only the loop over the queue waits for a mutex and releases one itself
  have hbelow : op.locks = [] → Releases mutex rest := by
    intro hlocks
    rw [hlocks] at hreleases
    exact hreleases.resolve_left List.not_mem_nil
  cases op with
  | takeFirst candidates =>
      obtain rfl : rest = [] := hfits
      cases candidates with
      | nil => cases hwants
      | cons job candidates =>
          cases hwants
          obtain rfl : mutex = .weaver := by simpa [Op.locks, Releases] using hreleases
          refine Data.rank_lt_weaver ?_
          rw [hs.queued_of_candidate hstack]
          rfl
  | applyForWork wasBusy =>
      obtain rfl : rest = [] := hfits
      obtain ⟨later, hlater, -⟩ := hbelow rfl
      cases hlater
  | execute job | defaultEnd job | elementFinished collection job | clearSelf collection
  | finish => exact absurd (hbelow rfl) (h mutex)
  | restoreStatus collection job status => exact absurd (hbelow rfl) (h.2 mutex)
  | elementStarted collection => exact absurd rfl (hstarted collection)
  | enqueue jobs =>
      cases hwants
      obtain ⟨outer, rfl, houter⟩ := h mutex (hbelow rfl)
      exact Data.rank_weaver_lt houter
  | enqueueJob job =>
      cases hwants
      have hpending : (s.data.place job).isAssigned = false := by
        rw [hs.place_eq hop (List.mem_singleton.mpr rfl)]
        rfl
      rcases h mutex (hbelow rfl) with rfl | ⟨outer, rfl, houter⟩
      · exact Data.rank_lt_weaver hpending
      · exact Data.rank_lt_of_assigned hpending houter
  | assignBlocker element =>
      cases hwants
      obtain ⟨outer, rfl, haround⟩ := h mutex (hbelow rfl)
      exact hs.rank_lt_of_around haround
  | removeBlocker element =>
      cases hwants
      rcases h mutex (hbelow rfl) with ⟨rfl, collection, hparent, htakeAt⟩ | ⟨outer, rfl, haround⟩
      · refine Data.rank_lt_weaver ?_
        rw [hs.fresh_of_takeAt (hstack ▸ List.mem_cons_of_mem _ htakeAt) hparent]
        rfl
      · exact hs.rank_lt_of_around haround
  | stop job | stopElements job | abortElements job =>
      cases hwants
      obtain ⟨collection, outer, hparent, -, rfl, hunder⟩ := h mutex (hbelow rfl)
      exact hs.rank_lt_of_around ⟨collection, hparent, hunder⟩
  | dequeueSelf job =>
      cases hwants
      obtain ⟨collection, outer, -, -, rfl, -, houter⟩ := h mutex (hbelow rfl)
      exact Data.rank_weaver_lt houter
  | dequeueElement collection element locked =>
      cases locked with
      | true => cases hwants
      | false =>
          cases hwants
          rcases h mutex (hbelow rfl) with ⟨-, hlocked⟩ | ⟨outer, rfl, -, houter⟩
          · cases hlocked
          · exact Data.rank_weaver_lt (houter rfl)
  | aboutToBeDequeued job =>
      cases hwants
      rcases h mutex (hbelow rfl) with rfl | ⟨outer, rfl, haround⟩
      · refine Data.rank_lt_weaver ?_
        rcases (hs.of_takeAt (hstack ▸ List.mem_cons_of_mem _ hfits.2)).2 with hplace | hplace <;>
        · rw [hplace]
          rfl
      · exact hs.rank_lt_of_around haround
  | _ => cases hwants

end Rank

end ThreadWeaver.Collection
