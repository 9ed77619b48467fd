import Mathlib.Logic.Relation

/-!
# Runs of a transition system

A transition system is given by a partial step function `step : S → A → Option S`.
`RunWhere step ok s s'` says that `s'` is reached from `s` by steps each of which
satisfies `ok`, a condition on the state before the step and on the action.  Statements
about every run take `ok` to be the condition they put on the steps.

Invariants are proved once, along `RunWhere.invariant`: one lemma about a single
step, and the induction over the run is done here.
-/

namespace Library

variable {S A : Type*}

/-- `s'` is reached from `s` by steps that all satisfy `ok`. -/
inductive RunWhere (step : S → A → Option S) (ok : S → A → Prop) (s : S) : S → Prop
  | refl : RunWhere step ok s s
  | tail {mid last : S} {action : A} : RunWhere step ok s mid → ok mid action →
      step mid action = some last → RunWhere step ok s last

namespace RunWhere

variable {step : S → A → Option S} {ok weaker : S → A → Prop} {s mid last : S}

theorem single {action : A} (hok : ok s action) (hstep : step s action = some last) :
    RunWhere step ok s last :=
  refl.tail hok hstep

theorem trans (first : RunWhere step ok s mid) (second : RunWhere step ok mid last) :
    RunWhere step ok s last := by
  induction second with
  | refl => exact first
  | tail _ hok hstep ih => exact ih.tail hok hstep

/-- A run whose steps satisfy a condition satisfies every weaker one. -/
theorem mono (h : ∀ state action, ok state action → weaker state action)
    (run : RunWhere step ok s last) : RunWhere step weaker s last := by
  induction run with
  | refl => exact refl
  | tail _ hok hstep ih => exact ih.tail (h _ _ hok) hstep

theorem mono_of_run (run : RunWhere step ok s last)
    (h : ∀ state action next, RunWhere step ok s state → ok state action →
      step state action = some next → weaker state action) : RunWhere step weaker s last := by
  induction run with
  | refl => exact refl
  | tail run hok hstep ih => exact ih.tail (h _ _ _ run hok hstep) hstep

/-- **Invariant rule.**  What holds at the start and is preserved by every step
that satisfies `ok` holds at the end of every run. -/
theorem invariant {I : S → Prop} (run : RunWhere step ok s last) (hstart : I s)
    (hpreserved : ∀ state action next, I state → ok state action →
      step state action = some next → I next) : I last := by
  induction run with
  | refl => exact hstart
  | tail _ hok hstep ih => exact hpreserved _ _ _ ih hok hstep

/-- **Simulation rule.**  When every step that satisfies `ok` is a sequence of moves of a
view of the state, so is every run. -/
theorem simulation {L : Type*} {view : S → L} {move : L → L → Prop}
    (run : RunWhere step ok s last)
    (hstep : ∀ state action next, ok state action → step state action = some next →
      Relation.ReflTransGen move (view state) (view next)) :
    Relation.ReflTransGen move (view s) (view last) := by
  induction run with
  | refl => exact .refl
  | tail _ hok htaken ih => exact ih.trans (hstep _ _ _ hok htaken)

end RunWhere

/-! ## Executing a list of actions -/

section Execute

variable (step : S → A → Option S) (ok : S → A → Prop) [∀ state action, Decidable (ok state action)]

/-- Take the actions one after the other, as long as they are enabled and satisfy `ok`. -/
def execute (s : S) : List A → Option S
  | [] => some s
  | action :: rest =>
      if ok s action then (step s action).bind fun next => execute next rest else none

variable {step ok}

theorem runWhere_of_execute {actions : List A} {s last : S}
    (h : execute step ok s actions = some last) : RunWhere step ok s last := by
  induction actions generalizing s with
  | nil =>
      simp only [execute, Option.some.injEq] at h
      exact h ▸ .refl
  | cons action rest ih =>
      simp only [execute] at h
      split at h
      · rename_i hok
        obtain ⟨next, hstep, hrest⟩ := Option.bind_eq_some_iff.mp h
        exact (RunWhere.single hok hstep).trans (ih hrest)
      · cases h

/-- A list of actions that executes to a state with a decidable property is a run
to such a state. -/
theorem exists_runWhere (goal : S → Prop) [DecidablePred goal] (actions : List A) {s : S}
    (h : (execute step ok s actions).any (fun last => decide (goal last)) = true) :
    ∃ last, RunWhere step ok s last ∧ goal last := by
  cases hlast : execute step ok s actions with
  | none => simp [hlast] at h
  | some last =>
      refine ⟨last, runWhere_of_execute hlast, ?_⟩
      simpa [hlast] using h

/-- The same for a run that goes on to a second state. -/
theorem exists_runWhere_later (goal later : S → Prop) [DecidablePred goal] [DecidablePred later]
    (actions more : List A) {s : S}
    (h : (execute step ok s actions).any (fun mid => decide (goal mid) &&
      (execute step ok mid more).any fun last => decide (later last)) = true) :
    ∃ mid last, RunWhere step ok s mid ∧ goal mid ∧ RunWhere step ok mid last ∧ later last := by
  cases hmid : execute step ok s actions with
  | none => simp [hmid] at h
  | some mid =>
      simp only [hmid, Option.any_some, Bool.and_eq_true, decide_eq_true_eq] at h
      obtain ⟨last, hrun, hlast⟩ := exists_runWhere later more h.2
      exact ⟨mid, last, runWhere_of_execute hmid, h.1, hrun, hlast⟩

end Execute

end Library
