import ThreadWeaver.Collection.Handover
import ThreadWeaver.Collection.Moves

/-!
# Sound runs

Every step keeps a state sound, so every state of every run is sound.
-/

namespace ThreadWeaver.Collection

open Library (owed Custody)

variable {J P T σ : Type*} [DecidableEq J] [DecidableEq P] [DecidableEq T]
  {F : Forest J P σ} {s next : State J P T σ}

theorem State.runThread_eq_some {thread : Thread T} (h : s.runThread F thread = some next) :
    ∃ op rest, s.stack thread = op :: rest ∧
      (∀ mutex, wants F op = some mutex → s.data.holder mutex = none) ∧
      next = ⟨(exec F thread op s.data).1,
        Function.update s.stack thread ((exec F thread op s.data).2 ++ rest)⟩ := by
  unfold State.runThread at h
  cases hstack : s.stack thread with
  | nil => simp [hstack] at h
  | cons op rest =>
      simp only [hstack] at h
      split at h
      · rename_i hfree
        refine ⟨op, rest, rfl, ?_, (Option.some.inj h).symm⟩
        intro mutex hwants
        rw [hwants] at hfree
        simpa using hfree
      · cases h

omit [DecidableEq J] [DecidableEq P] in
theorem State.beginCall_eq_some {caller : T} {ops : List (Op J)}
    (h : s.beginCall caller ops = some next) :
    s.stack (.caller caller) = [] ∧
      next = { s with stack := Function.update s.stack (.caller caller) ops } := by
  unfold State.beginCall at h
  split at h
  · rename_i hidle
    exact ⟨hidle, (Option.some.inj h).symm⟩
  · cases h

/-- The operations that a call begins with. -/
def Act.ops : Act J T → List (Op J)
  | run _ => []
  | enqueue _ jobs => [.enqueue jobs]
  | stop _ collection => [.stop collection]
  | requestAbort _ job => [.requestAbort job]
  | finish _ => [.finish]

/-- **Step rule.**  What is kept by the next operation of a thread, by jobs being taken up and by
the beginning of a call is kept by every step. -/
theorem step_rule {I : State J P T σ → Prop} {act : Act J T} (hI : I s)
    (hrun : ∀ thread, act = .run thread → s.runThread F thread = some next → I next)
    (htakeUp : ∀ (caller : T) (jobs : List J), jobs.Nodup →
      (∀ job ∈ jobs, F.parent job = none ∧ s.data.place job = .fresh) →
      I (s.takeUp (.caller caller) jobs))
    (hcall : ∀ before caller, I before → before.beginCall caller act.ops = some next → I next)
    (hstep : step F s act = some next) : I next := by
  cases act with
  | run thread => exact hrun thread rfl hstep
  | enqueue caller jobs =>
      simp only [step] at hstep
      split at hstep
      · rename_i hguard
        exact hcall _ _ (htakeUp caller jobs hguard.1 hguard.2) hstep
      · cases hstep
  | stop caller collection =>
      simp only [step] at hstep
      split at hstep
      · cases hstep
      · exact hcall _ _ hI hstep
  | requestAbort caller job => exact hcall _ _ hI hstep
  | finish caller => exact hcall _ _ hI hstep

namespace State.Sound

theorem runThread (hs : s.Sound F) {thread : Thread T} (h : s.runThread F thread = some next) :
    next.Sound F := by
  obtain ⟨op, rest, hstack, hfree, rfl⟩ := runThread_eq_some h
  have hlayout := hs.layout thread
  rw [hstack] at hlayout
  refine ⟨hs.exec_placed hstack hfree, ?_, exec_locks hs.locks hstack hfree,
    hs.exec_jobs hstack hfree, ?_, hs.exec_scanning hstack hfree⟩
  · intro other
    dsimp only
    by_cases hother : other = thread
    · subst hother
      rw [Function.update_self]
      refine Layout.exec other s.data hlayout ?_
      rintro collection job rfl hflag
      rcases hs.of_elementFinished (hstack ▸ List.mem_cons_self) with ⟨heq, -⟩ | ⟨-, -, -, hnot⟩
      · exact heq
      · rw [hnot] at hflag
        cases hflag
    · rw [Function.update_of_ne hother]
      exact hs.layout other
  · rcases hs.exec_move hstack hfree (Books.Discipline.any_covers _ op) with hsame | hmove
    · rw [hsame]
      exact hs.books
    · exact hs.books.move hmove

omit [DecidableEq P] in
theorem beginCall (hs : s.Sound F) {caller : T} {ops : List (Op J)}
    (h : s.beginCall caller ops = some next) (hlayout : Layout F ops)
    (hlocks : owed Op.locks ops = []) (hjobs : owed Op.jobs ops = [])
    (hscan : ∀ candidates, .takeFirst candidates ∉ ops) : next.Sound F := by
  obtain ⟨hidle, rfl⟩ := beginCall_eq_some h
  have hstack : s.stack (.caller caller) = [] ++ [] := hidle
  have hmem : ∀ (op : Op J) other, op ∈ s.stack other →
      op ∈ Function.update s.stack (.caller caller) ops other := by
    intro op other hop
    have hne : other ≠ .caller caller := by
      rintro rfl
      rw [hidle] at hop
      cases hop
    rwa [Function.update_of_ne hne]
  refine ⟨hs.keep rfl rfl rfl fun job => Exists.imp fun other => hmem _ other, ?_, ?_, ?_, hs.books,
    ?_⟩
  · intro other
    dsimp only
    by_cases hother : other = .caller caller
    · rw [hother, Function.update_self]
      exact hlayout
    · rw [Function.update_of_ne hother]
      exact hs.layout other
  · rw [← List.append_nil ops]
    exact hs.locks.keep hstack hlocks
  · rw [← List.append_nil ops]
    exact hs.jobs.keep hstack hjobs
  · intro other candidates hop
    dsimp only at hop ⊢
    by_cases hother : other = .caller caller
    · rw [hother, Function.update_self] at hop
      exact absurd hop (hscan candidates)
    · rw [Function.update_of_ne hother] at hop ⊢
      exact hs.scanning other candidates hop

omit [DecidableEq P] in
theorem enqueue (hs : s.Sound F) {caller : T} {jobs : List J} (hnodup : jobs.Nodup)
    (hjobs : ∀ job ∈ jobs, F.parent job = none ∧ s.data.place job = .fresh)
    (h : (s.takeUp (.caller caller) jobs).beginCall caller [.enqueue jobs] = some next) :
    next.Sound F := by
  obtain ⟨hidle, rfl⟩ := beginCall_eq_some h
  have hstack : s.stack (.caller caller) = [] ++ [] := hidle
  have hmem : ∀ (op : Op J) other, op ∈ s.stack other →
      op ∈ Function.update s.stack (.caller caller) [.enqueue jobs] other := by
    intro op other hop
    have hne : other ≠ .caller caller := by
      rintro rfl
      rw [show s.stack (.caller caller) = [] from hidle] at hop
      cases hop
    rwa [Function.update_of_ne hne]
  have hplaced : (s.takeUp (.caller caller) jobs).data.Placed F
      (Function.update s.stack (.caller caller) [.enqueue jobs]) := by
    refine hs.pickUp (.caller caller) rfl rfl (fun job => ?_)
      fun job => Exists.imp fun other => hmem _ other
    by_cases hin : job ∈ jobs
    · exact .inr ⟨by simp [takeUp, hin], (hjobs job hin).2⟩
    · exact .inl (by simp [takeUp, hin])
  refine ⟨hplaced, ?_, ?_, ?_, hs.books.takeUp _ hjobs, ?_⟩
  · intro other
    dsimp only
    by_cases hother : other = .caller caller
    · rw [hother, Function.update_self]
      refine ⟨fun job hjob collection hparent => ?_, trivial⟩
      rw [(hjobs job hjob).1] at hparent
      cases hparent
    · rw [Function.update_of_ne hother]
      exact hs.layout other
  · rw [← List.append_nil [Op.enqueue jobs]]
    exact hs.locks.keep hstack rfl
  · rw [← List.append_nil [Op.enqueue jobs]]
    exact Data.pickUp_jobs hs.jobs hstack jobs hnodup (fun job hin => (hjobs job hin).2) rfl
      (by simp [owed, Op.jobs])
  · intro other candidates hop
    dsimp only at hop ⊢
    by_cases hother : other = .caller caller
    · rw [hother, Function.update_self] at hop
      simp at hop
    · rw [Function.update_of_ne hother] at hop ⊢
      exact hs.scanning other candidates hop

/-- **Every step keeps a state sound.** -/
theorem step (hs : s.Sound F) {act : Act J T} (h : step F s act = some next) :
    next.Sound F := by
  cases act with
  | run thread => exact hs.runThread h
  | enqueue caller jobs =>
      simp only [Collection.step] at h
      split at h
      · rename_i hguard
        exact hs.enqueue hguard.1 hguard.2 h
      · cases h
  | stop caller collection =>
      simp only [Collection.step] at h
      split at h
      · cases h
      · rename_i hkind
        exact hs.beginCall h ⟨hkind, trivial⟩ rfl rfl (by simp)
  | requestAbort caller job => exact hs.beginCall h ⟨trivial, trivial⟩ rfl rfl (by simp)
  | finish caller => exact hs.beginCall h ⟨trivial, trivial⟩ rfl rfl (by simp)

end State.Sound

omit [DecidableEq P] [DecidableEq T] in
theorem sound_init (start : Weaver.Start J P σ) :
    (init start : State J P T σ).Sound F where
  nodup := List.nodup_nil
  queued job h := by cases h
  listed job h := by cases h
  executing collection := by simp [init]
  layout thread := by cases thread <;> simp [init, Library.Stacked, Fits]
  locks := by
    refine Custody.empty fun thread => ?_
    cases thread <;> rfl
  jobs := by
    refine Custody.empty fun thread => ?_
    cases thread <;> rfl
  books :=
    { late := by simp [init, Data.books]
      fresh := by simp [init, Data.books]
      counter := by simp [init, Data.books]
      unopened := by simp [init, Data.books]
      isOver := by simp [init, Data.books, Place.isOver] }
  scanning thread candidates h := by cases thread <;> simp [init] at h

/-- **Every state of every run is sound.** -/
theorem runs_sound {ok : State J P T σ → Act J T → Prop} {start : Weaver.Start J P σ}
    (run : Runs F ok start s) : s.Sound F :=
  run.invariant (sound_init start) fun _ _ _ hs _ hstep => hs.step hstep

/-! ## Runs of the books -/

/-- The operation that an action is about to do. -/
def State.nextOp (s : State J P T σ) : Act J T → Option (Op J)
  | .run thread => (s.stack thread).head?
  | _ => none

/-- Every step is at most one move of the books. -/
theorem step_move {D : Books.Discipline J T} {act : Act J T} (hs : s.Sound F)
    (h : step F s act = some next) (hcovers : ∀ op ∈ s.nextOp act, D.Covers s.data op) :
    next.data.books = s.data.books ∨ Books.Move F D s.data.books next.data.books := by
  cases act with
  | run thread =>
      obtain ⟨op, rest, hstack, hfree, rfl⟩ := State.runThread_eq_some h
      exact hs.exec_move hstack hfree (hcovers op (by simp [State.nextOp, hstack]))
  | enqueue caller jobs =>
      simp only [step] at h
      split at h
      · rename_i hguard
        obtain ⟨-, rfl⟩ := State.beginCall_eq_some h
        exact .inr (.takeUp _ hguard.2)
      · cases h
  | stop caller collection =>
      simp only [step] at h
      split at h
      · cases h
      · obtain ⟨-, rfl⟩ := State.beginCall_eq_some h
        exact .inl rfl
  | requestAbort caller job =>
      obtain ⟨-, rfl⟩ := State.beginCall_eq_some h
      exact .inl rfl
  | finish caller =>
      obtain ⟨-, rfl⟩ := State.beginCall_eq_some h
      exact .inl rfl

/-- **Books rule.**  What holds of the books at the start and is kept by the moves of a
discipline that covers the steps of a run holds at its end. -/
theorem runs_books {D : Books.Discipline J T} {ok : State J P T σ → Act J T → Prop}
    {start : Weaver.Start J P σ} {I : Books J T → Prop} (run : Runs F ok start s)
    (hstart : I (init start : State J P T σ).data.books)
    (hcovers : ∀ state act, Runs F ok start state → ok state act →
      ∀ op ∈ state.nextOp act, D.Covers state.data op)
    (hmove : ∀ b b', b.Lawful F → I b → Books.Move F D b b' → I b') : I s.data.books := by
  induction run with
  | refl => exact hstart
  | tail run hok hstep ih =>
      have hs := runs_sound run
      rcases step_move hs hstep (hcovers _ _ run hok) with hsame | hmoved
      · rw [hsame]
        exact ih
      · exact hmove _ _ hs.books ih hmoved

end ThreadWeaver.Collection
