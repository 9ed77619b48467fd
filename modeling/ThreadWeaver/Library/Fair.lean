import Mathlib.Algebra.Order.BigOperators.Group.Finset
import Mathlib.Order.Filter.AtTopBot.Basic
import Mathlib.Order.Filter.Cofinite
import Mathlib.Order.Interval.Finset.Nat
import ThreadWeaver.Library.Run
import ThreadWeaver.Library.Work

/-!
# Fair schedules

A transition system that goes on for ever, by the actions of a given set.  It is fair to an action
if the action is taken again and again where it is enabled again and again, however often it is
disabled in between.  What is left to be done cannot shrink again and again; so a fair schedule gets
past everything that shrinks.
-/

namespace Library

open Filter

variable {S A : Type*}

/-- A schedule of the actions `among` that never ends and that is fair to each of them. -/
structure FairSchedule (step : S → A → Option S) (among : Set A) (states : ℕ → S)
    (actions : ℕ → A) : Prop where
  mem : ∀ i, actions i ∈ among
  steps : ∀ i, step (states i) (actions i) = some (states (i + 1))
  fair : ∀ action ∈ among, (∃ᶠ i in atTop, (step (states i) action).isSome = true) →
    ∃ᶠ i in atTop, actions i = action

theorem not_frequently_of_work (work : ℕ → ℕ) (hle : ∀ i, work (i + 1) ≤ work i) :
    ¬ ∃ᶠ i in atTop, work (i + 1) < work i := by
  rw [Nat.frequently_atTop_iff_infinite, Set.not_infinite]
  exact (ncard_le_of_work work hle fun _ hi => hi).1

theorem frequently_add {p : ℕ → Prop} (n : ℕ) :
    (∃ᶠ i in atTop, p (n + i)) ↔ ∃ᶠ i in atTop, p i := by
  simp only [frequently_atTop]
  constructor
  · intro h m
    obtain ⟨i, hi, hp⟩ := h m
    exact ⟨n + i, by omega, hp⟩
  · intro h m
    obtain ⟨i, hi, hp⟩ := h (n + m)
    exact ⟨i - n, by omega, by rwa [Nat.add_sub_cancel' (by omega)]⟩

namespace FairSchedule

variable {step : S → A → Option S} {among : Set A} {states : ℕ → S} {actions : ℕ → A}

/-- **Invariant rule.**  What holds at the start and is kept by every step holds at any time. -/
theorem invariant {I : S → Prop} (h : FairSchedule step among states actions)
    (hstart : I (states 0))
    (hpreserved : ∀ s action next, action ∈ among → I s → step s action = some next → I next)
    (i : ℕ) : I (states i) := by
  induction i with
  | zero => exact hstart
  | succ i ih => exact hpreserved _ _ _ (h.mem i) ih (h.steps i)

theorem tail (h : FairSchedule step among states actions) (n : ℕ) :
    FairSchedule step among (fun i => states (n + i)) (fun i => actions (n + i)) where
  mem i := h.mem (n + i)
  steps i := h.steps (n + i)
  fair action hmem henabled := by
    rw [frequently_add n (p := fun i => actions i = action)]
    refine h.fair action hmem ?_
    rwa [frequently_add n (p := fun i => (step (states i) action).isSome = true)] at henabled

theorem exists_next (h : FairSchedule step among states actions) {action : A}
    (hmem : action ∈ among)
    (henabled : ∃ᶠ i in atTop, (step (states i) action).isSome = true) (n : ℕ) :
    ∃ i, n ≤ i ∧ actions i = action ∧ ∀ j, n ≤ j → j < i → actions j ≠ action := by
  classical
  have hexists : ∃ i, n ≤ i ∧ actions i = action :=
    frequently_atTop.mp (h.fair action hmem henabled) n
  refine ⟨Nat.find hexists, (Nat.find_spec hexists).1, (Nat.find_spec hexists).2, ?_⟩
  exact fun j hj hlt heq => Nat.find_min hexists hlt ⟨hj, heq⟩

end FairSchedule

/-! ## Fair schedules exist

The scheduler gives every action a number, the smaller of which goes first, and adds one to it each
time it takes the action.  An action that is passed over is passed over for one of the finitely many
actions whose numbers are not greater, and each of these only until its number is. -/

section Existence

variable {step : S → A → Option S} {among : Set A} {I : S → Prop} {s : S}

/-- The scheduler goes on for ever if some action is always enabled. -/
theorem exists_schedule [DecidableEq A] (number : A → ℕ)
    (henabled : ∀ s, I s → ∃ action ∈ among, (step s action).isSome = true)
    (hstep : ∀ s action next, action ∈ among → I s → step s action = some next → I next)
    (hs : I s) :
    ∃ (states : ℕ → S) (actions : ℕ → A) (turn : ℕ → A → ℕ), states 0 = s ∧ turn 0 = number ∧
      (∀ i, actions i ∈ among ∧ step (states i) (actions i) = some (states (i + 1))) ∧
      (∀ i, ∀ action ∈ among, (step (states i) action).isSome = true →
        turn i (actions i) ≤ turn i action) ∧
      ∀ i, turn (i + 1) = Function.update (turn i) (actions i) (turn i (actions i) + 1) := by
  have hnext : ∀ now : {now : S × (A → ℕ) // I now.1}, ∃ (action : A)
      (next : {next : S × (A → ℕ) // I next.1}),
        (action ∈ among ∧ step now.1.1 action = some next.1.1) ∧
        (∀ other ∈ among, (step now.1.1 other).isSome = true →
          now.1.2 action ≤ now.1.2 other) ∧
        next.1.2 = Function.update now.1.2 action (now.1.2 action + 1) := by
    rintro ⟨⟨s, turn⟩, hs⟩
    obtain ⟨action, ⟨hmem, haction⟩, hmin⟩ := (measure turn).wf.has_min
      {action | action ∈ among ∧ (step s action).isSome = true} (henabled s hs)
    obtain ⟨next, hnext⟩ := Option.isSome_iff_exists.mp haction
    refine ⟨action, ⟨(next, Function.update turn action (turn action + 1)),
      hstep s action next hmem hs hnext⟩, ⟨hmem, hnext⟩, fun other hother hcan => ?_, rfl⟩
    exact not_lt.mp (hmin other ⟨hother, hcan⟩)
  choose action next hsteps hmin hturn using hnext
  refine ⟨fun i => (next^[i] ⟨(s, number), hs⟩).1.1, fun i => action (next^[i] ⟨(s, number), hs⟩),
    fun i => (next^[i] ⟨(s, number), hs⟩).1.2, rfl, rfl, fun i => ?_, fun i => hmin _, fun i => ?_⟩
  · simp only [Function.iterate_succ_apply']
    exact hsteps _
  · simp only [Function.iterate_succ_apply']
    exact hturn _

/-- **There is a fair schedule** from every state from which some action is always enabled. -/
theorem exists_fairSchedule [Countable A]
    (henabled : ∀ s, I s → ∃ action ∈ among, (step s action).isSome = true)
    (hstep : ∀ s action next, action ∈ among → I s → step s action = some next → I next)
    (hs : I s) :
    ∃ (states : ℕ → S) (actions : ℕ → A), states 0 = s ∧
      FairSchedule step among states actions := by
  classical
  obtain ⟨number, hnumber⟩ := exists_injective_nat A
  obtain ⟨states, actions, turn, hstart, hzero, hsteps, hmin, hturn⟩ :=
    exists_schedule number henabled hstep hs
  refine ⟨states, actions, hstart, fun i => (hsteps i).1, fun i => (hsteps i).2,
    fun action hmem hagain => ?_⟩
  have hgrows : ∀ i other, turn i other ≤ turn (i + 1) other := by
    intro i other
    rw [hturn]
    by_cases heq : other = actions i
    · rw [heq, Function.update_self]
      exact Nat.le_succ _
    · rw [Function.update_of_ne heq]
  have hnumbers : ∀ i other, number other ≤ turn i other := by
    intro i other
    induction i with
    | zero => rw [hzero]
    | succ i ih => exact ih.trans (hgrows i other)
  by_contra hnot
  obtain ⟨n, hn⟩ := eventually_atTop.mp (not_frequently.mp hnot)
  have hsame : ∀ i, turn (n + i) action = turn n action := by
    intro i
    induction i with
    | zero => rfl
    | succ i ih =>
        have hother : action ≠ actions (n + i) := fun heq =>
          hn (n + i) (Nat.le_add_right n i) heq.symm
        rw [← Nat.add_assoc, hturn, Function.update_of_ne hother, ih]
  -- what goes before the action, each as often as its number allows
  have hfinite : {other | number other ≤ turn n action}.Finite :=
    (Set.finite_Iic (turn n action)).preimage hnumber.injOn
  refine not_frequently_of_work
    (fun i => ∑ other ∈ hfinite.toFinset, (turn n action + 1 - turn (n + i) other))
    (fun i => Finset.sum_le_sum fun other _ => ?_) ?_
  · have hle := hgrows (n + i) other
    rw [← Nat.add_assoc]
    omega
  · refine ((frequently_add n).mpr hagain).mono fun i henabled => ?_
    have hfirst := hmin (n + i) action hmem henabled
    rw [hsame] at hfirst
    refine Finset.sum_lt_sum (fun other _ => ?_) ⟨actions (n + i), ?_, ?_⟩
    · have hle := hgrows (n + i) other
      rw [← Nat.add_assoc]
      omega
    · rw [Set.Finite.mem_toFinset]
      exact (hnumbers (n + i) _).trans hfirst
    · rw [← Nat.add_assoc, hturn, Function.update_self]
      omega

end Existence

end Library
