import Mathlib.Logic.Relation
import ThreadWeaver.Library.Arrivals
import ThreadWeaver.Library.History

/-!
# Pools

A pool holds jobs that wait, and workers some of which are active.  A job arrives, is taken back,
or is handed to a worker, which is active until it retires.  The pool signals that it has run dry
when the last active worker retires and no job waits.

Three things are shown of every pool, whatever decides which job is handed out next:

* the jobs wait in the order of their priorities and, among equals, of their arrivals
  (`Reachable.inOrder`);
* as often as a job has arrived, it waits, has been taken back or has been handed out
  (`Reachable.balanced`);
* the signal is given when it should be and at no other time (`Reachable.signals`).

A program that keeps a list of jobs and a count of its workers has all three if its steps are moves
of a pool.
-/

namespace Library

/-- What happens in a pool. -/
inductive PoolEvent (J W : Type*)
  | arrived (job : J)
  | takenBack (job : J)
  | handedOut (worker : W) (job : J)
  | ranDry
  deriving DecidableEq, Repr

/-- The jobs that wait, the number of active workers, and what has happened. -/
structure Pool (J W : Type*) where
  waiting : List J
  active : ℕ
  history : List (PoolEvent J W)

namespace Pool

variable {J W : Type*} {priority : J → ℤ} {pool next : Pool J W} {job : J}

def empty : Pool J W :=
  ⟨[], 0, []⟩

/-- The ways in which a pool changes. -/
inductive Move (priority : J → ℤ) (pool : Pool J W) : Pool J W → Prop
  | arrive (job : J) :
      Move priority pool
        { pool with
          waiting := insertFromBack priority job pool.waiting
          history := pool.history ++ [.arrived job] }
  | takeBack {front back : List J} {job : J} : pool.waiting = front ++ job :: back →
      Move priority pool
        { pool with
          waiting := front ++ back
          history := pool.history ++ [.takenBack job] }
  | handOut (worker : W) {front back : List J} {job : J} :
      pool.waiting = front ++ job :: back →
      Move priority pool
        { waiting := front ++ back
          active := pool.active + 1
          history := pool.history ++ [.handedOut worker job] }
  | retire {others : ℕ} : pool.active = others + 1 →
      Move priority pool
        { pool with
          active := others
          history :=
            pool.history ++ if pool.waiting = [] ∧ others = 0 then [.ranDry] else [] }

/-- The pools that come out of the empty one. -/
abbrev Reachable (priority : J → ℤ) (pool : Pool J W) : Prop :=
  Relation.ReflTransGen (Move priority) empty pool

/-- **Pool rule.**  What holds of the empty pool and is kept by every move holds of every pool. -/
theorem Reachable.rule {I : Pool J W → Prop} (h : Reachable priority pool) (hempty : I empty)
    (hmove : ∀ before after, I before → Move priority before after → I after) : I pool := by
  induction h with
  | refl => exact hempty
  | tail _ hlast ih => exact hmove _ _ ih hlast

/-! ## The order in which jobs wait -/

/-- Jobs arrive, and leave when they are taken back or handed out. -/
def traffic : Traffic (PoolEvent J W) J where
  arrives
    | .arrived job => some job
    | _ => none
  leaves
    | .takenBack job | .handedOut _ job => some job
    | _ => none

/-- The jobs wait by falling priority and, among equals, first come first. -/
def InOrder (priority : J → ℤ) (pool : Pool J W) : Prop :=
  Library.InOrder traffic priority pool.history pool.waiting

/-- **The jobs wait by falling priority and, among equals, first come first.** -/
theorem Reachable.inOrder (h : Reachable priority pool) : InOrder priority pool := by
  refine h.rule Library.InOrder.nil fun before after hbefore hmove => ?_
  cases hmove with
  | arrive job => exact Library.InOrder.arrive hbefore rfl
  | takeBack hsplit | handOut worker hsplit =>
      exact Library.InOrder.leave hbefore hsplit rfl rfl
  | retire hactive =>
      refine Library.InOrder.note hbefore fun event hevent => ?_
      split at hevent
      · rw [List.mem_singleton.mp hevent]
        rfl
      · cases hevent

/-! ## Where the jobs have got -/

section Balanced

variable [DecidableEq J]

/-- The job arrives. -/
def isArrival (job : J) : PoolEvent J W → Bool
  | .arrived other => other = job
  | _ => false

/-- The job leaves those that wait. -/
def isLeave (job : J) : PoolEvent J W → Bool
  | .takenBack other | .handedOut _ other => other = job
  | _ => false

/-- As often as a job has arrived it waits or has left. -/
def Balanced (pool : Pool J W) : Prop :=
  ∀ job, pool.history.countP (isArrival job) =
    pool.waiting.count job + pool.history.countP (isLeave job)

/-- **No job is lost and none comes from nowhere.** -/
theorem Reachable.balanced (h : Reachable priority pool) : pool.Balanced := by
  refine h.rule (fun _ => rfl) fun before after hbefore hmove job => ?_
  have hjob := hbefore job
  cases hmove with
  | arrive other =>
      have hcount := (insertFromBack_perm priority other before.waiting).count_eq job
      simp only [List.count_cons, beq_iff_eq] at hcount
      simp only [List.countP_append, List.countP_cons, List.countP_nil, isArrival, isLeave,
        decide_eq_true_eq, hcount, hjob]
      simp
      omega
  | takeBack hsplit | handOut worker hsplit =>
      rw [hsplit] at hjob
      simp only [List.count_append, List.count_cons, beq_iff_eq] at hjob
      simp only [List.countP_append, List.countP_cons, List.countP_nil, List.count_append,
        isArrival, isLeave, decide_eq_true_eq, hjob]
      simp
      omega
  | retire hactive =>
      dsimp only
      split <;> simpa [isArrival, isLeave] using hjob

end Balanced

/-! ## The signal -/

/-- **When the pool signals that it has run dry**: jobs have been handed out since the last signal;
nothing waits and no worker is active until the next arrival; and where nothing waits and no worker
is active there has been a signal since the last job was handed out, or a job was taken back. -/
structure Signals (pool : Pool J W) : Prop where
  worked : Ordered (fun before event => event = .ranDry →
    ∃ earlier worker job later, before = earlier ++ .handedOut worker job :: later ∧
      .ranDry ∉ later) pool.history
  rests : ∀ before after, pool.history = before ++ .ranDry :: after →
    (∀ job, .arrived job ∉ after) → pool.waiting = [] ∧ pool.active = 0
  signalled : pool.waiting = [] → pool.active = 0 → ∀ before worker job after,
    pool.history = before ++ .handedOut worker job :: after →
    .ranDry ∈ after ∨ ∃ job, .takenBack job ∈ after

theorem split_of_concat {E : Type*} {log before after : List E} {event last : E}
    (h : log ++ [last] = before ++ event :: after) :
    event = last ∧ after = [] ∨ ∃ rest, after = rest ++ [last] ∧ log = before ++ event :: rest := by
  rcases List.eq_nil_or_concat after with rfl | ⟨rest, other, rfl⟩
  · exact .inl ⟨(List.singleton_injective (List.append_inj' h rfl).2).symm, rfl⟩
  · rw [List.concat_eq_append, ← List.cons_append, ← List.append_assoc] at h
    obtain ⟨hlog, hlast⟩ := List.append_inj' h rfl
    obtain rfl := List.singleton_injective hlast
    exact .inr ⟨rest, List.concat_eq_append, hlog⟩

/-- While a worker is active, a job has been handed out since the last signal. -/
def Works (pool : Pool J W) : Prop :=
  0 < pool.active → ∃ earlier worker job later,
    pool.history = earlier ++ .handedOut worker job :: later ∧ .ranDry ∉ later

theorem Works.move (h : pool.Works) (hmove : Move priority pool next) : next.Works := by
  intro hpos
  have hmore : ∀ event, event ≠ .ranDry → 0 < pool.active →
      ∃ earlier worker job later, pool.history ++ [event] =
        earlier ++ .handedOut worker job :: later ∧ .ranDry ∉ later := by
    intro event hne hactive
    obtain ⟨earlier, worker, job, later, hsplit, hnot⟩ := h hactive
    refine ⟨earlier, worker, job, later ++ [event], by simp [hsplit], ?_⟩
    simp [hnot, hne.symm]
  cases hmove with
  | arrive job => exact hmore _ (by simp) hpos
  | takeBack hsplit => exact hmore _ (by simp) hpos
  | handOut worker hsplit => exact ⟨pool.history, worker, _, [], rfl, List.not_mem_nil⟩
  | retire hactive =>
      dsimp only at hpos ⊢
      rw [if_neg (by omega), List.append_nil]
      exact h (by omega)

/-- Something else than a signal happens. -/
theorem Signals.concat {event : PoolEvent J W} (h : pool.Signals)
    (hhistory : next.history = pool.history ++ [event]) (hne : event ≠ .ranDry)
    (hdry : next.waiting = [] → next.active = 0 → ∃ job, event = .takenBack job)
    (hwaits : (∀ job, event ≠ .arrived job) → pool.waiting ≠ []) : next.Signals := by
  refine ⟨?_, fun before after hsplit hnone => ?_, fun hempty hidle before worker job after hsplit => ?_⟩
  · rw [hhistory]
    exact h.worked.concat fun heq => absurd heq hne
  · rw [hhistory] at hsplit
    rcases split_of_concat hsplit with ⟨heq, -⟩ | ⟨rest, rfl, hold⟩
    · exact absurd heq.symm hne
    · have hrest := h.rests before rest hold fun job hmem => hnone job (List.mem_append_left _ hmem)
      refine absurd hrest.1 (hwaits fun job heq => hnone job ?_)
      simp [heq]
  · obtain ⟨other, rfl⟩ := hdry hempty hidle
    rw [hhistory] at hsplit
    rcases split_of_concat hsplit with ⟨heq, -⟩ | ⟨rest, rfl, -⟩
    · cases heq
    · exact .inr ⟨other, by simp⟩

/-- A worker retires. -/
theorem Signals.retire {others : ℕ} (h : pool.Signals) (hworks : pool.Works)
    (hactive : pool.active = others + 1) :
    Signals { pool with
      active := others
      history := pool.history ++ if pool.waiting = [] ∧ others = 0 then [.ranDry] else [] } := by
  by_cases hdry : pool.waiting = [] ∧ others = 0
  · rw [if_pos hdry]
    refine ⟨h.worked.concat fun _ => hworks (by omega), fun _ _ _ _ => hdry,
      fun _ _ before worker job after hsplit => ?_⟩
    rcases split_of_concat hsplit with ⟨heq, -⟩ | ⟨rest, rfl, -⟩
    · cases heq
    · exact .inl (by simp)
  · rw [if_neg hdry, List.append_nil]
    refine ⟨h.worked, fun before after hsplit hnone => ?_, fun hempty hidle => ?_⟩
    · have hrest := h.rests before after hsplit hnone
      omega
    · exact absurd ⟨hempty, hidle⟩ hdry

theorem Signals.move (h : pool.Signals) (hworks : pool.Works) (hmove : Move priority pool next) :
    next.Signals := by
  cases hmove with
  | arrive job =>
      refine h.concat rfl (by simp) (fun hempty => ?_) fun hnot => absurd rfl (hnot job)
      exact absurd (mem_insertFromBack.mpr (.inl rfl)) (List.eq_nil_iff_forall_not_mem.mp hempty job)
  | takeBack hsplit => exact h.concat rfl (by simp) (fun _ _ => ⟨_, rfl⟩) fun _ => by simp [hsplit]
  | handOut worker hsplit =>
      refine h.concat rfl (by simp) (fun _ hidle => ?_) fun _ => by simp [hsplit]
      exact absurd hidle (Nat.succ_ne_zero _)
  | retire hactive => exact h.retire hworks hactive

/-- **The signal is given when it should be and at no other time.** -/
theorem Reachable.signals (h : Reachable priority pool) : pool.Signals := by
  refine (h.rule (I := fun pool => pool.Works ∧ pool.Signals) ⟨?_, ?_⟩ ?_).2
  · exact fun hpos => absurd hpos (Nat.lt_irrefl 0)
  · refine ⟨Ordered.nil, fun before after hsplit => ?_, fun _ _ before worker job after hsplit => ?_⟩
    · simp [empty] at hsplit
    · simp [empty] at hsplit
  · exact fun before after hbefore hmove =>
      ⟨hbefore.1.move hmove, hbefore.2.move hbefore.1 hmove⟩

end Pool

end Library
