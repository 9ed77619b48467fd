import Mathlib.Data.List.Infix
import ThreadWeaver.Collection.Abort
import ThreadWeaver.Collection.Locking
import ThreadWeaver.Library.Acyclic

/-!
# Deadlocks between nested collections

The begin of an inner collection is notified to the collection around it under the mutex of the
inner one, and waits for the mutex of the outer one.  `requestAbort` of the outer collection keeps
its mutex and waits for that of the inner one, and so does `stop` of a Sequence, which removes the
blocker of every element.  When both are under way the two threads wait for each other, so that
there is no order in which the mutexes are taken.

All other threads keep to one order (`State.Sound.rank_lt`), unless a stop goes through a
collection that has been enqueued again since it was found to be dequeued.  When neither happens,
a thread that notifies is on no cycle: whoever waits for the mutex it has and holds another one is
on its way inwards.
-/

namespace ThreadWeaver.Collection

open Library (Stacked)

variable {J P T σ : Type*}

/-! ## Inwards and outwards -/

/-- The thread waits for the mutex of `outer`, or is about to, to notify it of the begin of
`inner`, the mutex of which it holds. -/
def Notifies (inner outer : J) (stack : List (Op J)) : Prop :=
  [.elementStarted outer, .unlock (.job inner)] <:+: stack

/-- The operation comes to the mutex of the job from outside. -/
def Op.HeadsFor (F : Forest J P σ) (job : J) : Op J → Prop
  | requestAbort inner | abortElement inner | abortElements inner | stop inner
  | dequeueSelf inner | stopElements inner | removeBlocker inner => inner = job
  | dequeueElement collection element _ => element = job ∧ F.kind collection = .sequence
  | _ => False

/-- The thread does not come to the mutex of `inner` while it holds that of `outer`. -/
def Clear (F : Forest J P σ) (inner outer : J) : List (Op J) → Prop :=
  Stacked fun op rest => op.HeadsFor F inner → ¬ Releases (.job outer) rest

/-- The step does not bring two threads to each other's mutexes. -/
structure Uncrossed [DecidableEq J] (F : Forest J P σ) (s : State J P T σ) (act : Act J T) :
    Prop where
  /-- when the begin of a collection is notified, nobody is on the way to it from outside -/
  begins : ∀ thread inner outer, act = .run thread →
    (s.stack thread).head? = some (.elementStarted inner) → s.data.jobsStarted inner = 0 →
    F.parent inner = some outer → ∀ other, Clear F inner outer (s.stack other)
  /-- when an abort goes inwards, no begin of an element is being notified -/
  aborts : ∀ thread outer, act = .run thread →
    (s.stack thread).head? = some (.abortElements outer) →
    ∀ other inner, ¬ Notifies inner outer (s.stack other)
  /-- nor when a stop of a Sequence does -/
  stops : ∀ thread outer, act = .run thread →
    (s.stack thread).head? = some (.dequeueElements outer false) → s.data.api outer = true →
    F.kind outer = .sequence → ∀ other inner, ¬ Notifies inner outer (s.stack other)
  /-- a stop does not go through a collection that waits in the queue -/
  unqueued : ∀ thread outer, act = .run thread →
    (s.stack thread).head? = some (.dequeueElements outer false) → s.data.api outer = true →
    F.elements outer ≠ [] → (s.data.place outer).isAssigned = true

theorem infix_of_append {A : Type*} {a b : A} {ops rest : List A} (h : [a, b] <:+: ops ++ rest)
    (hnot : a ∉ ops) : [a, b] <:+: rest := by
  induction ops with
  | nil => exact h
  | cons op ops ih =>
      rw [List.mem_cons, not_or] at hnot
      rw [List.cons_append, List.infix_cons_iff] at h
      rcases h with hfirst | hlater
      · exact absurd (List.cons_prefix_cons.mp hfirst).1 hnot.1
      · exact ih hlater hnot.2

section Exec

variable [DecidableEq J] [DecidableEq P] {F : Forest J P σ} {s : State J P T σ}
  {thread : Thread T} {op : Op J} {rest : List (Op J)} {inner outer : J}

theorem exec_notifies (thread : Thread T) (d : Data J P T σ)
    (h : Notifies inner outer ((exec F thread op d).2 ++ rest)) :
    Notifies inner outer rest ∨
      op = .elementStarted inner ∧ d.jobsStarted inner = 0 ∧ F.parent inner = some outer := by
  by_cases hmem : .elementStarted outer ∈ (exec F thread op d).2
  · have hcalls := exec_calls F thread op d hmem
    generalize hstarted : Op.elementStarted outer = later at hcalls
    unfold Notifies at h ⊢
    cases hcalls with
    | beginElement hkind hparent =>
        obtain rfl := Op.elementStarted.inj hstarted
        simpa [exec, hkind, hparent, beginElement, List.infix_cons_iff] using h
    | beginSelf hkind =>
        obtain rfl := Op.elementStarted.inj hstarted
        simpa [exec, hkind, List.infix_cons_iff] using h
    | @callBegin collection _ hzero hparent =>
        obtain rfl := Op.elementStarted.inj hstarted
        simp only [exec, hzero, hparent, beginElement, if_true, Option.toList_some,
          List.map_cons, List.map_nil, List.cons_append, List.nil_append, List.infix_cons_iff,
          List.cons_prefix_cons] at h
        rcases h with ⟨-, heq, -⟩ | ⟨heq, -⟩ | hrest
        · cases heq
          exact .inr ⟨rfl, hzero, hparent⟩
        · cases heq
        · exact .inl hrest
    | _ => cases hstarted
  · exact .inl (infix_of_append h hmem)

omit [DecidableEq J] [DecidableEq P] in
theorem clear_of_not_releases {stack : List (Op J)} (h : ¬ Releases (.job outer) stack) :
    Clear F inner outer stack := by
  induction stack with
  | nil => trivial
  | cons op rest ih =>
      rw [releases_cons_iff, not_or] at h
      exact ⟨fun _ => h.2, ih h.2⟩

/-- **A thread turns inwards** in `abortElements`, in the loop of `dequeueElements` of a Sequence
and when a Sequence goes on to the next element. -/
theorem exec_clear (thread : Thread T) (hrests : Rests F s.data.place op rest)
    (hparent : F.parent inner = some outer) (h : Clear F inner outer (op :: rest)) :
    Clear F inner outer ((exec F thread op s.data).2 ++ rest) ∨ op = .abortElements outer ∨
      (∃ locked, op = .dequeueElements outer locked ∧ s.data.api outer = true ∧
        F.kind outer = .sequence) ∨
      ∃ job, op = .advance outer job ∧
        (F.elements outer)[s.data.completed outer]? = some inner := by
  have hne : (Mutex.job outer, ()) ≠ (Mutex.job inner, ()) := by
    intro heq
    obtain rfl : outer = inner := by simpa using heq
    exact F.ne_of_parent hparent rfl
  -- what is left to be done does not release the mutex of the outer collection
  have hfree : ¬ Releases (.job outer) rest →
      (∀ later, Calls F s.data op later → (.job outer, ()) ∉ later.locks) →
      Clear F inner outer ((exec F thread op s.data).2 ++ rest) := by
    intro hbelow hlocks
    refine clear_of_not_releases fun hreleases => ?_
    rcases releases_append_iff.mp hreleases with ⟨later, hlater, hmutex⟩ | hrest
    · exact hlocks later (exec_calls F thread op s.data hlater) hmutex
    · exact hbelow hrest
  by_cases hheads : op.HeadsFor F inner
  · refine .inl (hfree (h.1 hheads) fun later hcalls hmutex => ?_)
    cases hcalls with
    | unlockStopped | unlockAborted =>
        obtain rfl := hheads
        exact hne (List.mem_singleton.mp hmutex)
    | _ => first | exact hheads.elim | simp [Op.locks] at hmutex
  · by_cases hturns : ∃ later ∈ (exec F thread op s.data).2, later.HeadsFor F inner
    · obtain ⟨later, hlater, hinner⟩ := hturns
      have hcalls := exec_calls F thread op s.data hlater
      cases hcalls with
      | stopSelf =>
          obtain rfl := hinner
          refine .inl (hfree (hrests _) fun later hcalls hmutex => ?_)
          cases hcalls with
          | stopSelf | restoreStatus => cases hmutex
          | advance | countDown => exact hne (List.mem_singleton.mp hmutex)
      | abortElement howner =>
          obtain rfl := hinner
          cases howner.symm.trans hparent
          exact .inr (.inl rfl)
      | dequeueElement hapi howner =>
          obtain ⟨rfl, hkind⟩ := hinner
          cases howner.symm.trans hparent
          exact .inr (.inr (.inl ⟨_, rfl, hapi, hkind⟩))
      | @unblock collection job element hget =>
          obtain rfl := hinner
          have howner := (F.mem_elements _ _).mp (List.mem_of_getElem? hget)
          cases howner.symm.trans hparent
          exact .inr (.inr (.inr ⟨job, rfl, hget⟩))
      | elementDequeued hkind => exact absurd ⟨hinner, hkind⟩ hheads
      | dequeueSelf | stopElements | abortStop | abortElements | requestAbort =>
          exact absurd hinner hheads
      | _ => exact hinner.elim
    · refine .inl (Stacked.append (fun later hlater above hinner => ?_) h.2)
      exact absurd ⟨later, hlater, hinner⟩ hturns

end Exec

/-! ## Runs -/

section Runs

variable [DecidableEq J] [DecidableEq P] [DecidableEq T] {F : Forest J P σ}
  {s next : State J P T σ} {start : Weaver.Start J P σ} {thread other : Thread T}
  {inner outer : J}

/-- **Every operation is come to with mutexes that may be held there.** -/
theorem runs_rests (run : Runs F (Uncrossed F) start s) (thread : Thread T) :
    Stacked (Rests F s.data.place) (s.stack thread) := by
  revert thread
  induction run with
  | refl =>
      intro thread
      cases thread <;> simp [init, Stacked, Rests]
  | @tail mid last act run hok hstep ih =>
      have hs := runs_sound run
      refine step_rule (I := fun next => ∀ thread, Stacked (Rests F next.data.place)
        (next.stack thread)) ih ?_ ?_ ?_ hstep
      · rintro thread rfl hran other
        obtain ⟨op, rest, hstack, hfree, rfl⟩ := State.runThread_eq_some hran
        have hassigned : ∀ job, (mid.data.place job).isAssigned = true →
            ((exec F thread op mid.data).1.place job).isAssigned = true := by
          intro job hbefore
          rcases hs.exec_place hstack hfree job with hsame | hmoves
          · rwa [hsame]
          · exact hmoves.isAssigned hbefore
        refine Stacked.mono (fun _ _ => Rests.mono hassigned) ?_
        dsimp only
        by_cases heq : other = thread
        · subst heq
          rw [Function.update_self]
          refine hs.exec_rests hstack (fun _ => runs_jobsStarted run) (fun _ _ => runs_api run) ?_
            (hstack ▸ ih other)
          rintro collection rfl
          exact hok.unqueued other collection rfl (by rw [hstack]; rfl)
        · rw [Function.update_of_ne heq]
          exact ih other
      · intro caller jobs _ hjobs other
        refine Stacked.mono (fun _ _ => Rests.mono fun job hbefore => ?_) (ih other)
        simp only [State.takeUp]
        split
        · rename_i hmem
          rw [(hjobs job hmem).2] at hbefore
          cases hbefore
        · exact hbefore
      · intro before caller hbefore hbegin other
        obtain ⟨-, rfl⟩ := State.beginCall_eq_some hbegin
        dsimp only
        by_cases heq : other = .caller caller
        · rw [heq, Function.update_self]
          cases act <;> simp [Act.ops, Stacked, Rests, Releases]
        · rw [Function.update_of_ne heq]
          exact hbefore other

/-- No thread is on the way inwards through a collection to which the begin of the inner one is
being notified. -/
def State.Apart (F : Forest J P σ) (s : State J P T σ) : Prop :=
  ∀ thread inner outer, Notifies inner outer (s.stack thread) →
    ∀ other, Clear F inner outer (s.stack other)

omit [DecidableEq P] [DecidableEq T] in
/-- The inner collection is at the begin of its own job. -/
theorem State.Sound.of_notifies (hs : s.Sound F)
    (hrests : Stacked (Rests F s.data.place) (s.stack thread))
    (h : Notifies inner outer (s.stack thread)) :
    F.parent inner = some outer ∧ s.data.place inner = .held .executing thread := by
  obtain ⟨above, below, hstack⟩ := h
  rw [← hstack, List.append_assoc] at hrests
  obtain ⟨⟨-, hheld⟩, -⟩ := hrests.of_append
  obtain ⟨job, rest, hmutex, hparent, hbelow, hrunning⟩ := hheld (.job inner)
    ⟨_, List.mem_cons_self, by simp [Op.locks]⟩
  cases hmutex
  have hmem : .setRunning inner ∈ s.stack thread := by
    have hrest : rest = below := (List.cons.inj hbelow).2.symm
    rw [← hstack]
    exact List.mem_append_right _ (hrest ▸ hrunning)
  exact ⟨hparent, hs.place_eq hmem (List.mem_singleton.mpr rfl)⟩

/-- A step that brings nobody to each other's mutexes keeps the threads apart. -/
theorem State.Apart.runThread (h : s.Apart F) (hs : s.Sound F)
    (hrests : ∀ thread, Stacked (Rests F s.data.place) (s.stack thread))
    (hturn : ∀ collection, F.kind collection = .sequence → s.InTurn F collection)
    (hok : Uncrossed F s (.run thread)) (hran : s.runThread F thread = some next) :
    next.Apart F := by
  obtain ⟨op, rest, hstack, hfree, rfl⟩ := State.runThread_eq_some hran
  intro notifying inner outer hafter other
  have hhead : (s.stack thread).head? = some op := by
    rw [hstack]
    rfl
  have hnotifies : Notifies inner outer (s.stack notifying) ∨ op = .elementStarted inner ∧
      s.data.jobsStarted inner = 0 ∧ F.parent inner = some outer := by
    dsimp only at hafter
    by_cases heq : notifying = thread
    · subst heq
      rw [Function.update_self] at hafter
      refine (exec_notifies notifying s.data hafter).imp_left fun hrest => ?_
      rw [hstack]
      exact List.infix_cons hrest
    · rw [Function.update_of_ne heq] at hafter
      exact .inl hafter
  have hparent : F.parent inner = some outer := by
    rcases hnotifies with hbefore | ⟨-, -, hparent⟩
    · exact (hs.of_notifies (hrests notifying) hbefore).1
    · exact hparent
  have hclear : ∀ other, Clear F inner outer (s.stack other) := by
    rcases hnotifies with hbefore | ⟨rfl, hzero, -⟩
    · exact h notifying inner outer hbefore
    · exact hok.begins thread inner outer rfl hhead hzero hparent
  dsimp only
  by_cases heq : other = thread
  · subst heq
    rw [Function.update_self]
    have hlies := hrests other
    rw [hstack] at hlies
    have hbefore : (∀ collection, op ≠ .elementStarted collection) →
        Notifies inner outer (s.stack notifying) :=
      fun hop => hnotifies.resolve_right fun hnew => hop inner hnew.1
    rcases exec_clear other hlies.1 hparent (hstack ▸ hclear other) with
      hclear | rfl | ⟨locked, rfl, hapi, hkind⟩ | ⟨job, rfl, hget⟩
    · exact hclear
    · exact absurd (hbefore (by simp)) (hok.aborts other outer rfl hhead notifying inner)
    · cases locked with
      | false =>
          exact absurd (hbefore (by simp))
            (hok.stops other outer rfl hhead hapi hkind notifying inner)
      | true =>
          -- the outer collection is in the queue, and the inner one has not been enqueued
          have hfits := hs.layout other
          rw [hstack] at hfits
          have hfresh := hs.fresh_of_takeAt
            (hstack ▸ List.mem_cons_of_mem _ (hfits.1.2.2 rfl).2) hparent
          rw [(hs.of_notifies (hrests notifying) (hbefore (by simp))).2] at hfresh
          cases hfresh
    · -- the turn is with the inner collection already
      have hplace := (hs.of_notifies (hrests notifying) (hbefore (by simp))).2
      have hactive := (hturn outer hlies.1.1).active inner hparent (by rw [hplace]; rfl)
      have hnext := F.turn_of_getElem? hget
      omega
  · rw [Function.update_of_ne heq]
    exact hclear other

/-- **In every run whose steps are uncrossed the threads are apart.** -/
theorem runs_apart (run : Runs F (Uncrossed F) start s) : s.Apart F := by
  induction run with
  | refl =>
      intro thread inner outer h
      cases thread <;> simp [init, Notifies, List.infix_cons_iff] at h
  | @tail mid last act run hok hstep ih =>
      refine step_rule ih ?_ (fun _ _ _ _ => ih) ?_ hstep
      · rintro thread rfl hran
        exact ih.runThread (runs_sound run) (runs_rests run)
          (fun _ hkind => runs_inTurn run hkind) hok hran
      · intro before caller hbefore hbegin
        obtain ⟨-, rfl⟩ := State.beginCall_eq_some hbegin
        intro thread inner outer hafter other
        dsimp only at hafter ⊢
        have hnotifies : Notifies inner outer (before.stack thread) := by
          by_cases heq : thread = .caller caller
          · rw [heq, Function.update_self] at hafter
            cases act <;> simp [Act.ops, Notifies, List.infix_cons_iff] at hafter
          · rwa [Function.update_of_ne heq] at hafter
        by_cases heq : other = .caller caller
        · rw [heq, Function.update_self]
          refine clear_of_not_releases ?_
          cases act <;> simp [Act.ops, Releases, Op.locks]
        · rw [Function.update_of_ne heq]
          exact hbefore thread inner outer hnotifies other

/-! ## Cycles -/

/-- The mutex that the next operation of the thread takes. -/
def State.wanted (F : Forest J P σ) (s : State J P T σ) (thread : Thread T) : Option (Mutex J) :=
  (s.stack thread).head?.bind (wants F)

omit [DecidableEq P] [DecidableEq T] in
/-- Nobody who holds a mutex waits for the one that is held by a thread that notifies. -/
theorem State.Apart.not_waits (h : s.Apart F) (hs : s.Sound F)
    (hrests : ∀ thread, Stacked (Rests F s.data.place) (s.stack thread))
    (hunblocks : ∀ thread, Stacked (Unblocks F) (s.stack thread)) {notifying waiting : Thread T}
    {op : Op J} {rest below : List (Op J)} {wanted mutex : Mutex J}
    (hnotifying : s.stack notifying = .elementStarted outer :: below)
    (hwanted : s.data.holder wanted = some notifying)
    (hwaiting : s.stack waiting = op :: rest) (hwants : wants F op = some wanted)
    (hholder : s.data.holder mutex = some waiting) : False := by
  have hlies := hrests notifying
  rw [hnotifying] at hlies
  -- the thread that notifies holds the mutex of the inner collection only
  have hreleases := hs.releases_of_holder hwanted
  rw [hnotifying, releases_cons_iff] at hreleases
  obtain ⟨inner, stack, rfl, hparent, rfl, -⟩ :=
    hlies.1.2 wanted (hreleases.resolve_left List.not_mem_nil)
  have hnotifies : Notifies inner outer (s.stack notifying) := by
    rw [hnotifying]
    exact ⟨[], stack, rfl⟩
  have hplace := (hs.of_notifies (hrests notifying) hnotifies).2
  have hclear := h notifying inner outer hnotifies waiting
  have hunblock := hunblocks waiting
  have hrest := hrests waiting
  have hlayout := hs.layout waiting
  rw [hwaiting] at hclear hunblock hrest hlayout
  have hop : op ∈ s.stack waiting := by
    rw [hwaiting]
    exact List.mem_cons_self
  have hheld : op.locks = [] → Releases mutex rest := by
    intro hlocks
    have hreleases := hs.releases_of_holder hholder
    rw [hwaiting, releases_cons_iff, hlocks] at hreleases
    exact hreleases.resolve_left List.not_mem_nil
  -- the inner collection is at the begin of its own job
  cases op with
  | takeFirst candidates =>
      cases candidates with
      | nil => cases hwants
      | cons job candidates =>
          cases hwants
          rw [hs.queued_of_candidate hwaiting] at hplace
          cases hplace
  | execute job =>
      exact hrest.1 mutex (hheld rfl)
  | elementStarted collection =>
      cases hwants
      obtain ⟨element, stack, -, helement, hstack, hrunning⟩ := hrest.1.2 mutex (hheld rfl)
      have hmem : .setRunning element ∈ s.stack waiting := by
        rw [hwaiting, hstack]
        exact List.mem_cons_of_mem _ (List.mem_cons_of_mem _ hrunning)
      have hexecuting : s.data.place element = .held .executing waiting :=
        hs.place_eq hmem (List.mem_singleton.mpr rfl)
      have hlate := hs.books.late inner
        (hs.books.opened_of_ne_fresh helement (by simp [Data.books, hexecuting]))
      simp [Data.books, hplace, Place.isLate] at hlate
  | defaultEnd job | elementFinished collection job | clearSelf collection =>
      exact hrest.1 mutex (hheld rfl)
  | restoreStatus collection job status => exact hrest.1.2 mutex (hheld rfl)
  | assignBlocker element =>
      cases hwants
      rw [hs.of_assignBlocker hop] at hplace
      cases hplace
  | removeBlocker element =>
      cases hwants
      exact hclear.1 rfl (hunblock.1 outer hparent)
  | enqueueJob job =>
      cases hwants
      rw [hs.place_eq hop (List.mem_singleton.mpr rfl)] at hplace
      cases hplace
  | stop job | stopElements job | abortElements job =>
      cases hwants
      obtain ⟨collection, _, howner, hreleases, -⟩ := hrest.1 mutex (hheld rfl)
      cases howner.symm.trans hparent
      exact hclear.1 rfl hreleases
  | aboutToBeDequeued job =>
      cases hwants
      have htakeAt : .takeAt inner ∈ s.stack waiting := by
        rw [hwaiting]
        exact List.mem_cons_of_mem _ hlayout.1.2
      rcases (hs.of_takeAt htakeAt).2 with heq | heq <;>
      · rw [heq] at hplace
        cases hplace
  | dequeueElement collection element locked =>
      cases locked <;> cases hwants
  | _ => cases hwants

/-- **No deadlock.**  In every run in which no step brings two threads to each other's mutexes, no
threads wait for each other in a cycle. -/
theorem no_deadlock (run : Runs F (Uncrossed F) start s) (thread : Thread T) :
    ¬ Relation.TransGen (s.WaitsFor F) thread thread := by
  have hs := runs_sound run
  have hrests := runs_rests run
  refine Library.acyclic_of_rank
    (fun thread => ((s.wanted F thread).map (s.data.rank F)).getD (toLex (0, 0))) ?_ thread
  rintro _ waiting holding _ ⟨_, _, mutex, -, -, hholder⟩
    ⟨op, rest, wanted, hwaiting, hwants, hwanted⟩ ⟨op', rest', next, hholding, hnext, -⟩
  have hrank : ∀ {thread op rest mutex}, s.stack thread = op :: rest → wants F op = some mutex →
      ((s.wanted F thread).map (s.data.rank F)).getD (toLex (0, 0)) = s.data.rank F mutex := by
    intro thread op rest mutex hstack hmutex
    simp [State.wanted, hstack, hmutex]
  rw [hrank hwaiting hwants, hrank hholding hnext]
  refine hs.rank_lt hholding ?_ hnext hwanted ?_
  · have hlies := hrests holding
    rw [hholding] at hlies
    exact hlies.1
  · rintro outer rfl
    exact (runs_apart run).not_waits hs hrests (runs_unblocks run) hholding hwanted hwaiting
      hwants hholder

end Runs

section Decide

variable [DecidableEq J] {F : Forest J P σ} {s : State J P T σ} {thread other : Thread T}

omit [DecidableEq J] in
theorem State.waitsFor_of_head {op : Op J} {mutex : Mutex J}
    (hhead : (s.stack thread).head? = some op) (hwants : wants F op = some mutex)
    (hholder : s.data.holder mutex = some other) : s.WaitsFor F thread other := by
  obtain ⟨rest, hstack⟩ := List.head?_eq_some_iff.mp hhead
  exact ⟨op, rest, mutex, hstack, hwants, hholder⟩

/-- Whoever goes inwards or notifies a collection finds the mutexes that are next free, and a stop
goes through a collection that has been handed to a worker. -/
def Op.isUnhindered (F : Forest J P σ) (d : Data J P T σ) : Op J → Bool
  | elementStarted collection =>
      ∀ outer ∈ F.parent collection, (d.holder (.job outer)).isNone
  | abortElements collection =>
      ∀ element ∈ F.elements collection, (d.holder (.job element)).isNone
  | dequeueElements collection false =>
      (d.place collection).isAssigned ∧
        ∀ element ∈ F.elements collection, (d.holder (.job element)).isNone
  | _ => true

theorem State.Sound.not_notifies [DecidableEq P] [DecidableEq T] {inner outer : J}
    (hs : s.Sound F) (hfree : (s.data.holder (.job inner)).isNone) :
    ¬ Notifies inner outer (s.stack thread) := by
  intro hnotifies
  have hreleases : Releases (.job inner) (s.stack thread) :=
    ⟨.unlock (.job inner), hnotifies.subset (by simp), by simp [Op.locks]⟩
  rw [hs.holder_eq hreleases] at hfree
  cases hfree

theorem runs_uncrossed_of_unhindered [DecidableEq P] [DecidableEq T] {start : Weaver.Start J P σ}
    (run : Runs F (fun s act => ∀ op ∈ s.nextOp act, op.isUnhindered F s.data = true) start s) :
    Runs F (Uncrossed F) start s := by
  induction run with
  | refl => exact .refl
  | @tail mid last act run hok hstep ih =>
      have hs := runs_sound ih
      have hinner : ∀ {other inner outer}, (∀ element ∈ F.elements outer,
          (mid.data.holder (.job element)).isNone) → ¬ Notifies inner outer (mid.stack other) := by
        intro other inner outer hfree hnotifies
        have hparent := (hs.of_notifies (runs_rests ih other) hnotifies).1
        exact hs.not_notifies (hfree inner ((F.mem_elements _ _).mpr hparent)) hnotifies
      refine ih.tail ⟨?_, ?_, ?_, ?_⟩ hstep
      · rintro thread inner outer rfl hhead - hparent other
        have hfree := hok _ (Option.mem_def.mpr hhead)
        simp only [Op.isUnhindered, decide_eq_true_eq] at hfree
        refine clear_of_not_releases fun hreleases => ?_
        have hnone := hfree outer hparent
        rw [hs.holder_eq hreleases] at hnone
        cases hnone
      · rintro thread outer rfl hhead other inner
        have hfree := hok _ (Option.mem_def.mpr hhead)
        exact hinner (by simpa [Op.isUnhindered] using hfree)
      · rintro thread outer rfl hhead - - other inner
        have hfree := hok _ (Option.mem_def.mpr hhead)
        simp only [Op.isUnhindered, decide_eq_true_eq] at hfree
        exact hinner hfree.2
      · rintro thread outer rfl hhead - -
        have hfree := hok _ (Option.mem_def.mpr hhead)
        simp only [Op.isUnhindered, decide_eq_true_eq] at hfree
        exact hfree.1

end Decide

/-- The outer collection is aborted while an element of the inner one is executed: the worker waits
for the caller, and the caller for a worker that looks for a job. -/
theorem no_deadlock_nested : ∃ s : State (Fin 7) Empty Unit Unit,
    Runs nestAndJobs (Uncrossed nestAndJobs) (.plain ()) s ∧
      s.data.shouldAbort 0 = true ∧ s.data.shouldAbort 1 = true ∧
      s.WaitsFor nestAndJobs (.worker 0) (.caller ()) ∧
      s.WaitsFor nestAndJobs (.caller ()) (.worker 1) ∧
      ∀ thread, ¬ Relation.TransGen (s.WaitsFor nestAndJobs) thread thread := by
  obtain ⟨s, run, ⟨houter, hinner, hworker, hcaller, hjob, hweaver⟩, -⟩ :=
    exists_runs nestAndJobs
      (fun s act => ∀ op ∈ s.nextOp act, op.isUnhindered nestAndJobs s.data = true) (.plain ())
      (fun s : State (Fin 7) Empty Unit Unit =>
        s.data.shouldAbort 0 = true ∧ s.data.shouldAbort 1 = true ∧
          (s.stack (.worker 0)).head? = some (.elementFinished 1 2) ∧
          (s.stack (.caller ())).head? = some (.dequeueElement 1 3 false) ∧
          s.data.holder (.job 1) = some (.caller ()) ∧
          s.data.holder .weaver = some (.worker 1))
      (List.flatten [[.enqueue () [0]], List.replicate 3 (.run (.caller ())),
        List.replicate 38 (.run (.worker 0)), [.requestAbort () 0],
        List.replicate 16 (.run (.caller ())), [.run (.worker 1)]]) (by decide +kernel)
  have hrun := runs_uncrossed_of_unhindered run
  exact ⟨s, hrun, houter, hinner, State.waitsFor_of_head hworker rfl hjob,
    State.waitsFor_of_head hcaller rfl hweaver, no_deadlock hrun⟩

/-- **An abort of the outer collection and the begin of the inner one wait for each other.**  The
worker has the mutex of the inner collection `1` and notifies the root; the caller aborts the root,
has its mutex and comes to the inner collection. -/
theorem deadlock_nested : ¬ ∀ (s : State (Fin 4) Empty Unit Unit) (thread : Thread Unit),
    Runs nested (fun _ _ => True) (.plain ()) s →
    ¬ Relation.TransGen (s.WaitsFor nested) thread thread := by
  intro hclaim
  obtain ⟨s, run, ⟨hworker, hcaller, hinner, houter⟩, -⟩ :=
    exists_runs nested (fun _ _ => True) (.plain ())
      (fun s : State (Fin 4) Empty Unit Unit =>
        (s.stack (.worker 0)).head? = some (.elementStarted 0) ∧
          (s.stack (.caller ())).head? = some (.stop 1) ∧
          s.data.holder (.job 1) = some (.worker 0) ∧
          s.data.holder (.job 0) = some (.caller ()))
      (List.flatten [[.enqueue () [0]], List.replicate 3 (.run (.caller ())),
        List.replicate 17 (.run (.worker 0)), [.requestAbort () 0],
        List.replicate 11 (.run (.caller ()))]) (by decide +kernel)
  have hout : s.WaitsFor nested (.worker 0) (.caller ()) :=
    State.waitsFor_of_head hworker rfl houter
  have hin : s.WaitsFor nested (.caller ()) (.worker 0) :=
    State.waitsFor_of_head hcaller rfl hinner
  exact hclaim s (.worker 0) run (.tail (.single hout) hin)

/-- **A stop of a collection that has been enqueued again** keeps the mutex of a collection in the
queue and waits for the weaver mutex, while a worker that looks for a job has the one and waits for
the other.  Caller `1` dequeues the collection and enqueues it again while the `stop` of caller `0`
is between its `dequeue` and its loop. -/
theorem deadlock_enqueued_again : ¬ ∀ (s : State (Fin 2) Empty (Fin 2) Unit)
    (thread : Thread (Fin 2)), Runs pair (fun _ _ => True) (.plain ()) s →
    ¬ Relation.TransGen (s.WaitsFor pair) thread thread := by
  intro hclaim
  obtain ⟨s, run, ⟨hworker, hcaller, hweaver, hjob⟩, -⟩ :=
    exists_runs pair (fun _ _ => True) (.plain ())
      (fun s : State (Fin 2) Empty (Fin 2) Unit =>
        (s.stack (.worker 0)).head? = some (.takeFirst [0]) ∧
          (s.stack (.caller 0)).head? = some (.dequeueElement 0 1 false) ∧
          s.data.holder .weaver = some (.worker 0) ∧
          s.data.holder (.job 0) = some (.caller 0))
      (List.flatten [[.enqueue 1 [0]], List.replicate 3 (.run (.caller 1)),
        [.stop 0 0, .run (.caller 0), .stop 1 0], List.replicate 10 (.run (.caller 1)),
        [.run (.caller 0), .enqueue 1 [0]], List.replicate 3 (.run (.caller 1)),
        [.run (.caller 0), .run (.caller 0), .run (.worker 0)]]) (by decide +kernel)
  have hout : s.WaitsFor pair (.worker 0) (.caller 0) := State.waitsFor_of_head hworker rfl hjob
  have hin : s.WaitsFor pair (.caller 0) (.worker 0) := State.waitsFor_of_head hcaller rfl hweaver
  exact hclaim s (.worker 0) run (.tail (.single hout) hin)

end ThreadWeaver.Collection
