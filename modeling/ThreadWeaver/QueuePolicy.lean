import Mathlib.Logic.Function.Basic
import Mathlib.Data.List.Nodup
import ThreadWeaver.Job

/-!
# Queue policies

`QueuePolicy` is an interface that programs implement, so the policies are a parameter:
`QueuePolicies J P σ` gives what `canRun`, `free` and `release` of each policy object do to
the state `σ` of all policy objects.  `canBeExecuted` is
`Weaver_Private::canBeExecuted`, which asks the policies of a job one after the other and
releases those already acquired when one of them refuses.

The second half is about policies that share no state with one another (`ofObjects`).  If
the release of each undoes its `canRun`, a refused attempt leaves no trace, and an attempt
is accepted exactly if every policy accepts in the state before it.
-/

namespace ThreadWeaver

/-- The policy objects `P` of a program and what their methods do to the state `σ`.
`free` sees the status of the job, which `DependencyPolicy::free` reads. -/
structure QueuePolicies (J P σ : Type*) where
  canRun : P → J → σ → Bool × σ
  free : P → J → Status → σ → σ
  release : P → J → σ → σ

/-- One call of a method of a policy object. -/
inductive Call (P : Type*)
  | canRun (policy : P) (accepted : Bool)
  | free (policy : P)
  | release (policy : P)
  deriving DecidableEq, Repr

namespace QueuePolicies

variable {J P σ : Type*} (q : QueuePolicies J P σ)

/-! ## Acquiring and releasing -/

/-- The loop of `canBeExecuted` over the policies: those acquired, whether all of them
accepted, and the state after the calls. -/
def acquire (job : J) : List P → σ → List P × Bool × σ
  | [], state => ([], true, state)
  | policy :: rest, state =>
      let answer := q.canRun policy job state
      if answer.1 then
        let next := acquire job rest answer.2
        (policy :: next.1, next.2)
      else ([], false, answer.2)

/-- Release the acquired policies in the order in which they were acquired. -/
def releaseAll (job : J) (acquired : List P) (state : σ) : σ :=
  acquired.foldl (fun state policy => q.release policy job state) state

/-- `Weaver_Private::canBeExecuted`: the answer and the state it leaves. -/
def canBeExecuted (policies : List P) (job : J) (state : σ) : Bool × σ :=
  let attempt := q.acquire job policies state
  if attempt.2.1 then (true, attempt.2.2)
  else (false, q.releaseAll job attempt.1 attempt.2.2)

/-- The calls `canBeExecuted` makes, in order. -/
def calls (job : J) (policies : List P) (state : σ) : List (Call P) :=
  let attempt := q.acquire job policies state
  attempt.1.map (Call.canRun · true) ++
    if attempt.2.1 then []
    else (policies.drop attempt.1.length).head?.toList.map (Call.canRun · false) ++
      attempt.1.map Call.release

/-- The job would be accepted by `canBeExecuted`. -/
def Accepts (policies : List P) (job : J) (state : σ) : Prop :=
  (q.canBeExecuted policies job state).1 = true

instance (policies : List P) (job : J) (state : σ) : Decidable (q.Accepts policies job state) :=
  inferInstanceAs (Decidable (_ = _))

theorem acquire_prefix (job : J) (policies : List P) (state : σ) :
    (q.acquire job policies state).1 <+: policies := by
  induction policies generalizing state with
  | nil => simp [acquire]
  | cons policy rest ih =>
      simp only [acquire]
      split
      · exact List.cons_prefix_cons.mpr ⟨rfl, ih _⟩
      · exact List.nil_prefix

theorem acquire_eq_of_success (job : J) (policies : List P) (state : σ)
    (h : (q.acquire job policies state).2.1 = true) :
    (q.acquire job policies state).1 = policies := by
  induction policies generalizing state with
  | nil => rfl
  | cons policy rest ih =>
      simp only [acquire] at h ⊢
      split at h
      · rename_i haccepts
        rw [if_pos haccepts]
        exact congrArg (policy :: ·) (ih _ h)
      · cases h

theorem accepts_iff {job : J} {policies : List P} {state : σ} :
    q.Accepts policies job state ↔ (q.acquire job policies state).2.1 = true := by
  unfold Accepts canBeExecuted
  dsimp only
  split <;> simp_all

@[simp] theorem accepts_nil (job : J) (state : σ) : q.Accepts [] job state := rfl

/-! ## What an attempt keeps -/

section Keeps

variable {q} {I : σ → Prop} {job : J}

theorem acquire_keeps
    (hcanRun : ∀ policy state, I state → I (q.canRun policy job state).2)
    (policies : List P) {state : σ} (h : I state) : I (q.acquire job policies state).2.2 := by
  induction policies generalizing state with
  | nil => exact h
  | cons policy rest ih =>
      simp only [acquire]
      split
      · exact ih (hcanRun policy state h)
      · exact hcanRun policy state h

/-- What `canRun` and `release` keep, an attempt to execute a job keeps. -/
theorem canBeExecuted_keeps
    (hcanRun : ∀ policy state, I state → I (q.canRun policy job state).2)
    (hrelease : ∀ policy state, I state → I (q.release policy job state))
    (policies : List P) {state : σ} (h : I state) :
    I (q.canBeExecuted policies job state).2 := by
  have hacquired := acquire_keeps hcanRun policies h
  unfold canBeExecuted
  dsimp only
  split
  · exact hacquired
  · generalize (q.acquire job policies state).2.2 = after at hacquired
    generalize (q.acquire job policies state).1 = acquired
    unfold releaseAll
    induction acquired generalizing after with
    | nil => exact hacquired
    | cons policy rest ih => exact ih _ (hrelease policy after hacquired)

/-- When a job is accepted, each of its policies has accepted it in some state. -/
theorem canRun_of_accepts
    (hcanRun : ∀ policy state, I state → I (q.canRun policy job state).2)
    {policies : List P} {state : σ} (h : I state) (haccepts : q.Accepts policies job state)
    {policy : P} (hmem : policy ∈ policies) :
    ∃ asked, I asked ∧ (q.canRun policy job asked).1 = true := by
  rw [accepts_iff] at haccepts
  induction policies generalizing state with
  | nil => cases hmem
  | cons head rest ih =>
      simp only [acquire] at haccepts
      split at haccepts
      · rename_i hasked
        rcases List.mem_cons.mp hmem with rfl | hrest
        · exact ⟨state, h, hasked⟩
        · exact ih (hcanRun head state h) haccepts hrest
      · cases haccepts

end Keeps

/-! ## Whether calls pair -/

/-- The calls of one policy for a job, one after the other: whether an acceptance is
outstanding after them if one was before, or nothing if the policy has accepted twice, or
has been freed or released without an acceptance. -/
def outstanding [DecidableEq P] (policy : P) : Bool → List (Call P) → Option Bool
  | held, [] => some held
  | held, .canRun other accepted :: rest =>
      if other = policy ∧ accepted then
        if held then none else outstanding policy true rest
      else outstanding policy held rest
  | held, .free other :: rest | held, .release other :: rest =>
      if other = policy then
        if held then outstanding policy false rest else none
      else outstanding policy held rest

section Outstanding

attribute [local simp] outstanding

variable [DecidableEq P] {policy : P} {held : Bool} {policies : List P} {calls : List (Call P)}

theorem outstanding_append (more : List (Call P)) : outstanding policy held (calls ++ more) =
    (outstanding policy held calls).bind (outstanding policy · more) := by
  induction calls generalizing held with
  | nil => rfl
  | cons call rest ih =>
      cases call <;> simp only [List.cons_append, outstanding] <;> split <;> try split
      all_goals first | rfl | exact ih

theorem outstanding_map_of_notMem {call : P → Call P}
    (hcall : ∀ other, call other = .canRun other true ∨ call other = .free other ∨
      call other = .release other) (hnot : policy ∉ policies) :
    outstanding policy held (policies.map call) = some held := by
  induction policies with
  | nil => rfl
  | cons other rest ih =>
      rw [List.mem_cons, not_or] at hnot
      have hne : other ≠ policy := Ne.symm hnot.1
      rcases hcall other with heq | heq | heq <;>
        simp [heq, outstanding, hne, ih hnot.2]

theorem outstanding_canRun (hnodup : policies.Nodup) (hmem : policy ∈ policies) :
    outstanding policy false (policies.map (Call.canRun · true)) = some true := by
  obtain ⟨before, after, rfl⟩ := List.append_of_mem hmem
  have hnot := (List.nodup_cons.mp (List.nodup_middle.mp hnodup)).1
  rw [List.mem_append, not_or] at hnot
  rw [List.map_append, outstanding_append,
    outstanding_map_of_notMem (fun _ => .inl rfl) hnot.1]
  simp [outstanding, outstanding_map_of_notMem (fun _ => .inl rfl) hnot.2]

theorem outstanding_giveBack {call : P → Call P}
    (hcall : (∀ other, call other = .free other) ∨ ∀ other, call other = .release other)
    (hnodup : policies.Nodup) (hmem : policy ∈ policies) :
    outstanding policy held (policies.map call) = if held then some false else none := by
  obtain ⟨before, after, rfl⟩ := List.append_of_mem hmem
  have hnot := (List.nodup_cons.mp (List.nodup_middle.mp hnodup)).1
  rw [List.mem_append, not_or] at hnot
  have hcall' : ∀ other, call other = .canRun other true ∨ call other = .free other ∨
      call other = .release other := fun other =>
    .inr (hcall.imp (· other) (· other))
  rw [List.map_append, outstanding_append, outstanding_map_of_notMem hcall' hnot.1]
  have hafter : outstanding policy false (after.map call) = some false :=
    outstanding_map_of_notMem hcall' hnot.2
  rcases hcall with heq | heq <;> cases held <;> simp [heq policy, outstanding, hafter]

variable {q : QueuePolicies J P σ} {job : J} {state : σ}

/-- The calls of an attempt for one policy: an acceptance is outstanding after the attempt
if the job has been accepted, and none if it has been refused. -/
theorem outstanding_calls (hnodup : policies.Nodup) [Decidable (policy ∈ policies)] :
    outstanding policy false (q.calls job policies state) =
      some (decide (policy ∈ policies) && (q.canBeExecuted policies job state).1) := by
  unfold calls
  dsimp only
  by_cases haccepts : (q.acquire job policies state).2.1 = true
  · rw [acquire_eq_of_success q job policies state haccepts, if_pos haccepts, List.append_nil]
    have hyes : (q.canBeExecuted policies job state).1 = true := q.accepts_iff.mpr haccepts
    by_cases hmem : policy ∈ policies
    · simp [outstanding_canRun hnodup hmem, hmem, hyes]
    · simp [outstanding_map_of_notMem (fun _ => .inl rfl) hmem, hmem]
  · have hno : (q.canBeExecuted policies job state).1 = false :=
      Bool.eq_false_iff.mpr fun h => haccepts (q.accepts_iff.mp h)
    have hprefix := q.acquire_prefix job policies state
    have hacquired : (q.acquire job policies state).1.Nodup := hprefix.sublist.nodup hnodup
    simp only [if_neg haccepts]
    generalize (q.acquire job policies state).1 = acquired at hacquired
    have hrefused : ∀ held, outstanding policy held
        ((policies.drop acquired.length).head?.toList.map (Call.canRun · false)) = some held := by
      intro held
      cases (policies.drop acquired.length).head? <;> simp [outstanding]
    rw [outstanding_append]
    by_cases hmem : policy ∈ acquired
    · have hreleased : outstanding policy true (acquired.map Call.release) = some false :=
        outstanding_giveBack (.inr fun _ => rfl) hacquired hmem
      rw [outstanding_canRun hacquired hmem]
      simp only [outstanding_append, hrefused, hno, hreleased, Option.bind_some,
        Bool.and_false]
    · have hreleased : outstanding policy false (acquired.map Call.release) = some false :=
        outstanding_map_of_notMem (fun _ => .inr (.inr rfl)) hmem
      rw [outstanding_map_of_notMem (fun _ => .inl rfl) hmem]
      simp only [outstanding_append, hrefused, hno, hreleased, Option.bind_some,
        Bool.and_false]

end Outstanding

/-! ## Policies that leave no trace of a refused attempt -/

/-- The contract of `canBeExecuted`: after it returned false the resources are back, so
that it answers for every job as it did before. -/
def LeavesNoTrace (policies : J → List P) : Prop :=
  ∀ job state, ¬ q.Accepts (policies job) job state → ∀ other,
    q.Accepts (policies other) other (q.canBeExecuted (policies job) job state).2 ↔
      q.Accepts (policies other) other state

/-- Releases undo acceptances up to `R`, which no answer distinguishes, and a refusal takes
nothing. -/
structure UndoneUpTo (R : σ → σ → Prop) : Prop where
  equivalence : Equivalence R
  canRun : ∀ policy job {state state'}, R state state' →
    (q.canRun policy job state).1 = (q.canRun policy job state').1 ∧
      R (q.canRun policy job state).2 (q.canRun policy job state').2
  release : ∀ {policy job state state'}, R state state' →
    R (q.release policy job state) (q.release policy job state')
  accepted : ∀ {policy job state}, (q.canRun policy job state).1 = true →
    R (q.release policy job (q.canRun policy job state).2) state
  refused : ∀ {policy job state}, (q.canRun policy job state).1 = false →
    R (q.canRun policy job state).2 state
  comm : ∀ {policy other job state},
    R (q.release policy job (q.release other job state))
      (q.release other job (q.release policy job state))

namespace UndoneUpTo

variable {q} {R : σ → σ → Prop}

theorem acquire_success (h : q.UndoneUpTo R) (job : J) (policies : List P) {state state' : σ}
    (hstate : R state state') :
    (q.acquire job policies state).2.1 = (q.acquire job policies state').2.1 := by
  induction policies generalizing state state' with
  | nil => rfl
  | cons policy rest ih =>
      obtain ⟨hanswer, hafter⟩ := h.canRun policy job hstate
      simp only [acquire, hanswer]
      split
      · exact ih hafter
      · rfl

theorem accepts (h : q.UndoneUpTo R) (job : J) (policies : List P) {state state' : σ}
    (hstate : R state state') : q.Accepts policies job state ↔ q.Accepts policies job state' := by
  rw [accepts_iff, accepts_iff, h.acquire_success job policies hstate]

theorem releaseAll (h : q.UndoneUpTo R) (job : J) (acquired : List P) {state state' : σ}
    (hstate : R state state') :
    R (q.releaseAll job acquired state) (q.releaseAll job acquired state') := by
  induction acquired generalizing state state' with
  | nil => exact hstate
  | cons policy rest ih => exact ih (h.release hstate)

theorem releaseAll_release (h : q.UndoneUpTo R) (policy : P) (job : J) (acquired : List P)
    (state : σ) :
    R (q.releaseAll job acquired (q.release policy job state))
      (q.release policy job (q.releaseAll job acquired state)) := by
  induction acquired generalizing state with
  | nil => exact h.equivalence.refl _
  | cons other rest ih =>
      exact h.equivalence.trans (h.releaseAll job rest h.comm) (ih (q.release other job state))

theorem releaseAll_acquire (h : q.UndoneUpTo R) (job : J) (policies : List P) (state : σ) :
    R (q.releaseAll job (q.acquire job policies state).1 (q.acquire job policies state).2.2)
      state := by
  induction policies generalizing state with
  | nil => exact h.equivalence.refl _
  | cons policy rest ih =>
      simp only [acquire]
      split
      · rename_i haccepts
        have hrest := ih (q.canRun policy job state).2
        exact h.equivalence.trans (h.releaseAll_release policy job _ _)
          (h.equivalence.trans (h.release hrest) (h.accepted haccepts))
      · rename_i hrefuses
        exact h.refused (Bool.eq_false_iff.mpr hrefuses)

theorem of_refused (h : q.UndoneUpTo R) {policies : List P} {job : J} {state : σ}
    (hrefused : ¬ q.Accepts policies job state) :
    R (q.canBeExecuted policies job state).2 state := by
  rw [accepts_iff] at hrefused
  unfold canBeExecuted
  dsimp only
  rw [if_neg hrefused]
  exact h.releaseAll_acquire job policies state

theorem leavesNoTrace (h : q.UndoneUpTo R) (policies : J → List P) : q.LeavesNoTrace policies :=
  fun _ _ hrefused other => h.accepts other (policies other) (h.of_refused hrefused)

end UndoneUpTo

end QueuePolicies

/-! ## Policy objects with a state of their own -/

section Objects

variable {J P : Type*} [DecidableEq P] {τ : P → Type*}

/-- Policies that share no state: each object `p` has its own state `τ p`, and its methods
read and change nothing else. -/
structure PolicyObjects (J : Type*) (τ : P → Type*) where
  canRun : ∀ p, J → τ p → Bool × τ p
  free : ∀ p, J → Status → τ p → τ p
  release : ∀ p, J → τ p → τ p

namespace PolicyObjects

/-- The objects as the policies of a program, whose state is that of all of them. -/
def policies (o : PolicyObjects J τ) : QueuePolicies J P (∀ p, τ p) where
  canRun p job state :=
    ((o.canRun p job (state p)).1, Function.update state p (o.canRun p job (state p)).2)
  free p job status state := Function.update state p (o.free p job status (state p))
  release p job state := Function.update state p (o.release p job (state p))

/-- The release of every policy undoes its `canRun`, and a refusing `canRun` takes nothing, up to
what no answer of the policy distinguishes. -/
structure ReleaseUndoes (o : PolicyObjects J τ) (R : ∀ p, τ p → τ p → Prop) : Prop where
  equivalence : ∀ p, Equivalence (R p)
  canRun : ∀ p job {x y}, R p x y →
    (o.canRun p job x).1 = (o.canRun p job y).1 ∧ R p (o.canRun p job x).2 (o.canRun p job y).2
  release : ∀ p job {x y}, R p x y → R p (o.release p job x) (o.release p job y)
  accepted : ∀ p job {x}, (o.canRun p job x).1 = true →
    R p (o.release p job (o.canRun p job x).2) x
  refused : ∀ p job {x}, (o.canRun p job x).1 = false → R p (o.canRun p job x).2 x

variable {o : PolicyObjects J τ}

private theorem release_comm {p p' : P} (h : p' ≠ p) (job : J) (state : ∀ p, τ p) :
    o.policies.release p' job (o.policies.release p job state) =
      o.policies.release p job (o.policies.release p' job state) := by
  simp only [policies, Function.update_of_ne h, Function.update_of_ne h.symm]
  exact Function.update_comm h.symm _ _ _

/-- The objects are asked independently of one another. -/
theorem acquire_success {job : J} {ps : List P} (hnodup : ps.Nodup) (state : ∀ p, τ p) :
    (o.policies.acquire job ps state).2.1 = true ↔
      ∀ p ∈ ps, (o.canRun p job (state p)).1 = true := by
  induction ps generalizing state with
  | nil => simp [QueuePolicies.acquire]
  | cons policy rest ih =>
      rw [List.nodup_cons] at hnodup
      have hrest : ∀ x,
          (∀ p ∈ rest, (o.canRun p job (Function.update state policy x p)).1 = true) ↔
            ∀ p ∈ rest, (o.canRun p job (state p)).1 = true := by
        intro x
        refine forall₂_congr fun p hp => ?_
        rw [Function.update_of_ne (ne_of_mem_of_not_mem hp hnodup.1)]
      cases haccepts : (o.canRun policy job (state policy)).1 with
      | false => simp [QueuePolicies.acquire, policies, haccepts]
      | true =>
          have hih := ih hnodup.2
            (Function.update state policy (o.canRun policy job (state policy)).2)
          simp only [policies] at hih
          simp [QueuePolicies.acquire, policies, haccepts, hih, hrest]

theorem accepts {job : J} {ps : List P} (hnodup : ps.Nodup) (state : ∀ p, τ p) :
    o.policies.Accepts ps job state ↔ ∀ p ∈ ps, (o.canRun p job (state p)).1 = true := by
  rw [QueuePolicies.accepts_iff, acquire_success hnodup state]

/-- The loop touches no object that is not among the policies. -/
theorem acquire_of_notMem {job : J} {ps : List P} {state : ∀ p, τ p} {p : P} (h : p ∉ ps) :
    (o.policies.acquire job ps state).2.2 p = state p := by
  have hkeeps : ∀ policy ∈ ps, ∀ after : ∀ p, τ p,
      (o.policies.canRun policy job after).2 p = after p := by
    intro policy hpolicy after
    exact Function.update_of_ne (ne_of_mem_of_not_mem hpolicy h).symm _ _
  induction ps generalizing state with
  | nil => rfl
  | cons policy rest ih =>
      have hhead := hkeeps policy List.mem_cons_self state
      simp only [QueuePolicies.acquire]
      split
      · rw [ih (fun hmem => h (List.mem_cons_of_mem policy hmem))
          (fun other hother => hkeeps other (List.mem_cons_of_mem policy hother)), hhead]
      · exact hhead

/-- What the loop over the policies has done to each object: an acquired one has accepted, the
others are untouched, but for the one that refused. -/
theorem acquire_apply (job : J) {ps : List P} (hnodup : ps.Nodup) (state : ∀ p, τ p) (p : P) :
    (p ∈ (o.policies.acquire job ps state).1 → (o.canRun p job (state p)).1 = true ∧
        (o.policies.acquire job ps state).2.2 p = (o.canRun p job (state p)).2) ∧
      (p ∉ (o.policies.acquire job ps state).1 →
        (o.policies.acquire job ps state).2.2 p = state p ∨
          (o.canRun p job (state p)).1 = false ∧
            (o.policies.acquire job ps state).2.2 p = (o.canRun p job (state p)).2) := by
  induction ps generalizing state with
  | nil => simp [QueuePolicies.acquire]
  | cons policy rest ih =>
      rw [List.nodup_cons] at hnodup
      cases hanswer : (o.canRun policy job (state policy)).1 with
      | false =>
          simp only [QueuePolicies.acquire, policies, hanswer, Bool.false_eq_true, if_false]
          refine ⟨fun hmem => absurd hmem List.not_mem_nil, fun _ => ?_⟩
          by_cases hp : p = policy
          · subst hp
            exact .inr ⟨hanswer, by simp⟩
          · exact .inl (Function.update_of_ne hp _ _)
      | true =>
          have hasked : o.policies.canRun policy job state =
              (true, Function.update state policy (o.canRun policy job (state policy)).2) := by
            simp [policies, hanswer]
          simp only [QueuePolicies.acquire, hasked, if_true]
          obtain ⟨hacquired, hnot⟩ := ih hnodup.2
            (Function.update state policy (o.canRun policy job (state policy)).2)
          by_cases hp : p = policy
          · -- the rest of the list does not ask the head again
            subst hp
            have hrest : p ∉ (o.policies.acquire job rest
                (Function.update state p (o.canRun p job (state p)).2)).1 :=
              fun hmem => hnodup.1 ((o.policies.acquire_prefix job rest _).subset hmem)
            refine ⟨fun _ => ⟨hanswer, ?_⟩, fun hout => absurd List.mem_cons_self hout⟩
            rw [acquire_of_notMem hnodup.1, Function.update_self]
          · rw [Function.update_of_ne hp] at hacquired hnot
            simpa [List.mem_cons, hp] using And.intro hacquired hnot

theorem releaseAll_apply (job : J) {acquired : List P} (hnodup : acquired.Nodup)
    (state : ∀ p, τ p) (p : P) : o.policies.releaseAll job acquired state p =
      if p ∈ acquired then o.release p job (state p) else state p := by
  induction acquired generalizing state with
  | nil => rfl
  | cons policy rest ih =>
      rw [List.nodup_cons] at hnodup
      simp only [QueuePolicies.releaseAll, List.foldl_cons] at ih ⊢
      rw [ih hnodup.2]
      by_cases hp : p = policy
      · subst hp
        simp [policies, hnodup.1]
      · simp [policies, hp]

/-- **A refused attempt** has left each object alone, or asked it and been refused, or asked it and
released it. -/
theorem refused_apply {job : J} {ps : List P} (hnodup : ps.Nodup) (state : ∀ p, τ p)
    (hrefused : ¬ o.policies.Accepts ps job state) (p : P) :
    (o.policies.canBeExecuted ps job state).2 p = state p ∨
      (o.canRun p job (state p)).1 = false ∧
        (o.policies.canBeExecuted ps job state).2 p = (o.canRun p job (state p)).2 ∨
      (o.canRun p job (state p)).1 = true ∧
        (o.policies.canBeExecuted ps job state).2 p =
          o.release p job (o.canRun p job (state p)).2 := by
  rw [QueuePolicies.accepts_iff] at hrefused
  have hacquired := (o.policies.acquire_prefix job ps state).sublist.nodup hnodup
  obtain ⟨hin, hout⟩ := acquire_apply (o := o) job hnodup state p
  simp only [QueuePolicies.canBeExecuted, hrefused, Bool.false_eq_true, if_false,
    releaseAll_apply job hacquired]
  split
  · rename_i hmem
    obtain ⟨haccepted, hafter⟩ := hin hmem
    exact .inr (.inr ⟨haccepted, by rw [hafter]⟩)
  · rename_i hmem
    exact (hout hmem).imp_right .inl

theorem accepted_apply {job : J} {ps : List P} (hnodup : ps.Nodup) (state : ∀ p, τ p)
    (haccepts : o.policies.Accepts ps job state) (p : P) :
    (o.policies.canBeExecuted ps job state).2 p =
      if p ∈ ps then (o.canRun p job (state p)).2 else state p := by
  have hsuccess := (QueuePolicies.accepts_iff _).mp haccepts
  have hall := o.policies.acquire_eq_of_success job ps state hsuccess
  obtain ⟨hin, -⟩ := acquire_apply (o := o) job hnodup state p
  simp only [QueuePolicies.canBeExecuted, hsuccess, if_true]
  split
  · rename_i hmem
    exact (hin (by rwa [hall])).2
  · rename_i hmem
    exact acquire_of_notMem hmem

/-- Policies that share no state undo their acceptances together if each of them does. -/
theorem ReleaseUndoes.undoneUpTo {R : ∀ p, τ p → τ p → Prop} (h : o.ReleaseUndoes R) :
    o.policies.UndoneUpTo fun state state' => ∀ p, R p (state p) (state' p) where
  equivalence := {
    refl := fun state p => (h.equivalence p).refl (state p)
    symm := fun hsame p => (h.equivalence p).symm (hsame p)
    trans := fun hsame hsame' p => (h.equivalence p).trans (hsame p) (hsame' p) }
  canRun policy job {state state'} hsame := by
    obtain ⟨hanswer, hafter⟩ := h.canRun policy job (hsame policy)
    refine ⟨hanswer, fun p => ?_⟩
    by_cases hp : p = policy
    · subst hp
      simpa [policies] using hafter
    · simpa [policies, Function.update_of_ne hp] using hsame p
  release {policy job state state'} hsame p := by
    by_cases hp : p = policy
    · subst hp
      simpa [policies] using h.release p job (hsame p)
    · simpa [policies, Function.update_of_ne hp] using hsame p
  accepted {policy job state} haccepts p := by
    by_cases hp : p = policy
    · subst hp
      simpa [policies] using h.accepted p job haccepts
    · simpa [policies, Function.update_of_ne hp] using (h.equivalence p).refl (state p)
  refused {policy job state} hrefuses p := by
    by_cases hp : p = policy
    · subst hp
      simpa [policies] using h.refused p job hrefuses
    · simpa [policies, Function.update_of_ne hp] using (h.equivalence p).refl (state p)
  comm {policy other job state} p := by
    by_cases hpolicy : policy = other
    · subst hpolicy
      exact (h.equivalence p).refl _
    · rw [release_comm hpolicy]
      exact (h.equivalence p).refl _

end PolicyObjects

end Objects

/-! ## The policies of a job -/

/-- `Job_Private::queuePolicies`, a list that `assignQueuePolicy` keeps free of
duplicates. -/
structure JobPolicies (P : Type*) where
  list : List P
  nodup : list.Nodup

namespace JobPolicies

variable {P : Type*} [DecidableEq P]

/-- The policies of a job that has just been constructed. -/
def empty : JobPolicies P := ⟨[], List.nodup_nil⟩

/-- `Job::assignQueuePolicy`. -/
def assignQueuePolicy (policies : JobPolicies P) (policy : P) : JobPolicies P :=
  if h : policy ∈ policies.list then policies
  else
    { list := policies.list.concat policy
      nodup := policies.nodup.concat h }

/-- `Job::removeQueuePolicy`. -/
def removeQueuePolicy (policies : JobPolicies P) (policy : P) : JobPolicies P where
  list := policies.list.erase policy
  nodup := policies.nodup.erase policy

@[simp] theorem mem_assignQueuePolicy {policies : JobPolicies P} {policy other : P} :
    other ∈ (policies.assignQueuePolicy policy).list ↔ other ∈ policies.list ∨ other = policy := by
  unfold assignQueuePolicy
  split
  · rename_i hmem
    exact ⟨.inl, fun h => h.elim id fun heq => heq ▸ hmem⟩
  · simp

@[simp] theorem mem_removeQueuePolicy {policies : JobPolicies P} {policy other : P} :
    other ∈ (policies.removeQueuePolicy policy).list ↔
      other ≠ policy ∧ other ∈ policies.list :=
  policies.nodup.mem_erase_iff

end JobPolicies

/-- A policy that admits one job at a time. -/
def oneAtATime : PolicyObjects ℕ (fun _ : Unit => ℕ) where
  canRun _ _ running := if running = 0 then (true, 1) else (false, running)
  free _ _ _ _ := 0
  release _ _ _ := 0

theorem oneAtATime_releaseUndoes : oneAtATime.ReleaseUndoes fun _ => Eq where
  equivalence _ := ⟨fun _ => rfl, Eq.symm, Eq.trans⟩
  canRun _ _ _ _ h := h ▸ ⟨rfl, rfl⟩
  release _ _ _ _ _ := rfl
  accepted _ _ running h := by
    cases running with
    | zero => rfl
    | succ n => cases h
  refused _ _ running h := by
    cases running with
    | zero => cases h
    | succ n => rfl

end ThreadWeaver
