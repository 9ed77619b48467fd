import ThreadWeaver.Weaver.Ledger

/-!
# Weavers whose policies keep other names

Two programs may differ in nothing but the names under which their policies keep what they
know: the state of the policies of one is the image `e` of that of the other, and the answers
are the same.  Then the ledgers of the one are the images of the ledgers of the other, and what
is known of the one weaver holds of the other in the other names.
-/

namespace ThreadWeaver

variable {J P σ σ' : Type*}

namespace QueuePolicies

/-- The policies `q'` do in the image `e` of a state what `q` does in the state. -/
structure Renames (e : σ → σ') (q : QueuePolicies J P σ) (q' : QueuePolicies J P σ') : Prop where
  canRun : ∀ policy job state, q'.canRun policy job (e state) =
    ((q.canRun policy job state).1, e (q.canRun policy job state).2)
  free : ∀ policy job status state,
    q'.free policy job status (e state) = e (q.free policy job status state)
  release : ∀ policy job state, q'.release policy job (e state) = e (q.release policy job state)

namespace Renames

variable {e : σ → σ'} {q : QueuePolicies J P σ} {q' : QueuePolicies J P σ'}

theorem acquire (h : q.Renames e q') (job : J) (policies : List P) (state : σ) :
    q'.acquire job policies (e state) =
      ((q.acquire job policies state).1, (q.acquire job policies state).2.1,
        e (q.acquire job policies state).2.2) := by
  induction policies generalizing state with
  | nil => rfl
  | cons policy rest ih =>
      simp only [QueuePolicies.acquire, h.canRun]
      split
      · rw [ih]
      · rfl

theorem releaseAll (h : q.Renames e q') (job : J) (acquired : List P) (state : σ) :
    q'.releaseAll job acquired (e state) = e (q.releaseAll job acquired state) := by
  unfold QueuePolicies.releaseAll
  induction acquired generalizing state with
  | nil => rfl
  | cons policy rest ih => rw [List.foldl_cons, List.foldl_cons, h.release, ih]

theorem canBeExecuted (h : q.Renames e q') (policies : List P) (job : J) (state : σ) :
    q'.canBeExecuted policies job (e state) =
      ((q.canBeExecuted policies job state).1, e (q.canBeExecuted policies job state).2) := by
  simp only [QueuePolicies.canBeExecuted, h.acquire]
  split
  · rfl
  · rw [h.releaseAll]

end Renames

end QueuePolicies

namespace Weaver

variable {T ε ε' : Type*}

/-- The operation with the calls renamed. -/
def PolicyOp.rename (g : ε → ε') : PolicyOp J P ε → PolicyOp J P ε'
  | assignQueuePolicy job policy => .assignQueuePolicy job policy
  | removeQueuePolicy job policy => .removeQueuePolicy job policy
  | .call called => .call (g called)

/-- The event with the calls renamed. -/
def Event.rename (g : ε → ε') : Event J P ε → Event J P ε'
  | enqueued job => .enqueued job
  | dequeued job => .dequeued job
  | assigned thread job => .assigned thread job
  | ended job status => .ended job status
  | configured ops => .configured (ops.map (PolicyOp.rename g))
  | finished => .finished
  | suspended => .suspended
  | stateChanged id => .stateChanged id
  | deleted thread => .deleted thread

/-- The ledger in the other names. -/
def Ledger.rename (e : σ → σ') (g : ε → ε') (l : Ledger J P σ ε) : Ledger J P σ' ε' where
  assignments := l.assignments
  status := l.status
  queuePolicies := l.queuePolicies
  policyState := e l.policyState
  work := l.work
  log := l.log.map (Event.rename g)

/-- The program `S'` is the program `S` in other names. -/
structure Setup.Renames (e : σ → σ') (g : ε → ε') (S : Setup J P σ ε) (S' : Setup J P σ' ε') :
    Prop where
  priority : S'.priority = S.priority
  outcome : S'.outcome = S.outcome
  policies : S.policies.Renames e S'.policies
  call : ∀ call state, S'.call (g call) (e state) = e (S.call call state)

/-- The program `S'` keeps to `D'` only in the names of the program `S` that keeps to `D`. -/
structure Discipline.Renames (e : σ → σ') (g : ε → ε') (D : Discipline J P σ ε)
    (D' : Discipline J P σ' ε') : Prop where
  onlyNew : D.onlyNew → D'.onlyNew
  mayConfigure : ∀ l ops', D'.mayConfigure (Ledger.rename e g l) ops' →
    ∃ ops, ops' = ops.map (PolicyOp.rename g) ∧ D.mayConfigure l ops

variable {e : σ → σ'} {g : ε → ε'} {S : Setup J P σ ε} {S' : Setup J P σ' ε'}

theorem Setup.Renames.scan (h : S.Renames e g S') (queuePolicies : J → List P)
    (assignments : List J) (state : σ) :
    State.scan S' queuePolicies assignments (e state) =
      ((State.scan S queuePolicies assignments state).1,
        (State.scan S queuePolicies assignments state).2.1,
        e (State.scan S queuePolicies assignments state).2.2) := by
  induction assignments generalizing state with
  | nil => rfl
  | cons candidate rest ih =>
      simp only [State.scan, h.policies.canBeExecuted]
      split
      · rfl
      · rw [ih]

theorem Setup.Renames.applyPolicyOps [DecidableEq J] [DecidableEq P] (h : S.Renames e g S')
    (ops : List (PolicyOp J P ε)) (queuePolicies : J → List P) (state : σ) :
    (ops.map (PolicyOp.rename g)).foldl (State.applyPolicyOp S') (queuePolicies, e state) =
      ((ops.foldl (State.applyPolicyOp S) (queuePolicies, state)).1,
        e (ops.foldl (State.applyPolicyOp S) (queuePolicies, state)).2) := by
  induction ops generalizing queuePolicies state with
  | nil => rfl
  | cons op rest ih =>
      rw [List.map_cons, List.foldl_cons, List.foldl_cons]
      cases op with
      | assignQueuePolicy job policy | removeQueuePolicy job policy =>
          simp only [PolicyOp.rename, State.applyPolicyOp]
          exact ih _ _
      | call called =>
          simp only [PolicyOp.rename, State.applyPolicyOp, h.call]
          exact ih _ _

namespace Ledger

/-- A note is the name of itself. -/
theorem exists_note {event : Event J P ε'} (hnote : event.isNote) :
    ∃ note : Event J P ε, note.isNote ∧ note.rename g = event := by
  cases event with
  | finished => exact ⟨.finished, rfl, rfl⟩
  | suspended => exact ⟨.suspended, rfl, rfl⟩
  | stateChanged id => exact ⟨.stateChanged id, rfl, rfl⟩
  | deleted thread => exact ⟨.deleted thread, rfl, rfl⟩
  | enqueued _ | dequeued _ | assigned _ _ | ended _ _ | configured _ => cases hnote

/-- What has happened in the other names has happened. -/
theorem mem_log_rename {event : Event J P ε'} {l : Ledger J P σ ε} :
    event ∈ (l.rename e g).log ↔ ∃ original ∈ l.log, original.rename g = event :=
  List.mem_map

section

variable [DecidableEq J] [DecidableEq P] {D : Discipline J P σ ε} {D' : Discipline J P σ' ε'}

/-- A move of a renamed ledger is a renamed move. -/
theorem Move.of_rename (h : S.Renames e g S') (hD : D.Renames e g D') {l : Ledger J P σ ε}
    {l' : Ledger J P σ' ε'} (hmove : Move S' D' (l.rename e g) l') :
    ∃ next, Move S D l next ∧ l' = next.rename e g := by
  cases hmove with
  | note event hnote =>
      obtain ⟨note, hisNote, rfl⟩ := exists_note (g := g) hnote
      exact ⟨_, .note note hisNote, by simp [rename, record]⟩
  | enqueue job hnew =>
      refine ⟨_, .enqueue job fun honly => hnew (hD.onlyNew honly), ?_⟩
      simp [rename, h.priority, Event.rename]
  | takeOut job hmem => exact ⟨_, .takeOut job hmem, by simp [rename, Event.rename]⟩
  | clear =>
      refine ⟨_, .clear, ?_⟩
      simp [rename, Function.comp_def, Event.rename]
  | @refuse rest state hscan =>
      have hrenamed := (h.scan l.queuePolicies l.assignments l.policyState).symm.trans hscan
      simp only [Prod.mk.injEq] at hrenamed
      obtain ⟨hnone, rfl, rfl⟩ := hrenamed
      exact ⟨_, .refuse (Prod.ext hnone rfl), rfl⟩
  | @assign thread job rest state hidle hscan =>
      have hrenamed := (h.scan l.queuePolicies l.assignments l.policyState).symm.trans hscan
      simp only [Prod.mk.injEq] at hrenamed
      obtain ⟨hfound, rfl, rfl⟩ := hrenamed
      exact ⟨_, .assign thread hidle (Prod.ext hfound rfl), by simp [rename, Event.rename]⟩
  | prepare hwork => exact ⟨_, .prepare hwork, rfl⟩
  | begin hwork => exact ⟨_, .begin hwork, rfl⟩
  | @run thread job hwork =>
      refine ⟨_, .run hwork, ?_⟩
      simp [rename, setWork, h.outcome]
  | finish hwork => exact ⟨_, .finish hwork, by simp [rename, setWork, record, Event.rename]⟩
  | free hwork hpolicy =>
      refine ⟨_, .free hwork hpolicy, ?_⟩
      simp [rename, setWork, h.policies.free]
  | freed hwork hnone => exact ⟨_, .freed hwork hnone, rfl⟩
  | leave hwork => exact ⟨_, .leave hwork, rfl⟩
  | configure ops' hmay =>
      obtain ⟨ops, rfl, hallowed⟩ := hD.mayConfigure l ops' hmay
      refine ⟨_, .configure ops hallowed, ?_⟩
      simp [rename, h.applyPolicyOps, Event.rename]

/-- The moves of a renamed ledger are renamed moves. -/
theorem moves_of_rename (h : S.Renames e g S') (hD : D.Renames e g D')
    {l : Ledger J P σ ε} {l' : Ledger J P σ' ε'} (hmoves : Moves S' D' (l.rename e g) l') :
    ∃ last, Moves S D l last ∧ l' = last.rename e g := by
  induction hmoves with
  | refl => exact ⟨l, .refl, rfl⟩
  | tail _ hmove ih =>
      obtain ⟨middle, hmoves, rfl⟩ := ih
      obtain ⟨next, hnext, rfl⟩ := hmove.of_rename h hD
      exact ⟨next, hmoves.tail hnext, rfl⟩

end

end Ledger

end Weaver

end ThreadWeaver
