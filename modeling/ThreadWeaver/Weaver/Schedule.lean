import ThreadWeaver.Weaver.Conservation
import ThreadWeaver.Weaver.Threads

/-!
# Sequences of assignments and completions

What the workers do while nobody calls the queue: they are handed jobs and bring them to their
end.  Such a sequence assigns a job once at most, so it is finite, and a job that is in the list
at its beginning stays in the list, is with a worker or has ended.
-/

namespace ThreadWeaver.Weaver

variable {J P T σ ε : Type*} [DecidableEq J] [DecidableEq P] {S : Setup J P σ ε}
  {D : Discipline J P σ ε} {l l' : Ledger J P σ ε}

/-- The job that is handed to a worker in the event. -/
def Event.assigns? : Event J P ε → Option J
  | .assigned _ job => some job
  | _ => none

/-- The job that ends in the event. -/
def Event.completes? : Event J P ε → Option J
  | .ended job _ => some job
  | _ => none

/-- The jobs that were handed to workers, in this order. -/
def handedOut (log : List (Event J P ε)) : List J :=
  log.filterMap Event.assigns?

/-- The jobs that have ended, in this order. -/
def completions (log : List (Event J P ε)) : List J :=
  log.filterMap Event.completes?

omit [DecidableEq J] [DecidableEq P] in
theorem completions_append (log more : List (Event J P ε)) :
    completions (log ++ more) = completions log ++ completions more :=
  List.filterMap_append

omit [DecidableEq J] [DecidableEq P] in
theorem handedOut_append (log more : List (Event J P ε)) :
    handedOut (log ++ more) = handedOut log ++ handedOut more :=
  List.filterMap_append

omit [DecidableEq J] [DecidableEq P] in
theorem mem_completions {log : List (Event J P ε)} {job : J} :
    job ∈ completions log ↔ ∃ status, .ended job status ∈ log := by
  rw [completions, List.mem_filterMap]
  constructor
  · rintro ⟨event, hevent, hcompletes⟩
    cases event with
    | ended other status =>
        cases hcompletes
        exact ⟨status, hevent⟩
    | _ => cases hcompletes
  · rintro ⟨status, hevent⟩
    exact ⟨_, hevent, rfl⟩

namespace Ledger

/-- A move that is not made by a call to the queue. -/
def WorkMove (S : Setup J P σ ε) (l l' : Ledger J P σ ε) : Prop :=
  Move S .none l l' ∧ ∃ more, l'.log = l.log ++ more ∧ ∀ event ∈ more, event.ofCall = false

/-- Any number of them: a sequence of assignments and completions. -/
abbrev WorkMoves (S : Setup J P σ ε) : Ledger J P σ ε → Ledger J P σ ε → Prop :=
  Relation.ReflTransGen (WorkMove S)

/-- The sequence that led here is maximal: no worker can be handed a job or get further with
the job it has. -/
def Maximal (S : Setup J P σ ε) (l : Ledger J P σ ε) : Prop :=
  ∀ l', WorkMove S l l' → l'.work = l.work

/-- What a move of the workers does to the jobs. -/
inductive Work (S : Setup J P σ ε) (l l' : Ledger J P σ ε) : Prop
  | pass (more : List (Event J P ε)) : l'.log = l.log ++ more →
      (∀ event ∈ more, event.place? = none) → l'.assignments = l.assignments → Work S l l'
  | assign {thread : ℕ} {job : J} :
      State.scan S l.queuePolicies l.assignments l.policyState =
        (some job, l'.assignments, l'.policyState) →
      l'.log = l.log ++ [.assigned thread job] → Work S l l'
  | finish {thread : ℕ} {job : J} : l.Holds thread job →
      l'.log = l.log ++ [.ended job (l.status job)] → l'.assignments = l.assignments → Work S l l'

/-! ## What a move of the workers does -/

omit [DecidableEq J] [DecidableEq P] in
/-- No call to the queue has added to the log. -/
private theorem more_unique {log : List (Event J P ε)} {event : Event J P ε}
    (h : ∃ more, log ++ [event] = log ++ more ∧ ∀ event ∈ more, event.ofCall = false) :
    event.ofCall = false := by
  obtain ⟨more, hlog, hmore⟩ := h
  rw [List.append_cancel_left_eq] at hlog
  exact hmore event (hlog ▸ List.mem_singleton.mpr rfl)

theorem WorkMove.work (h : WorkMove S l l') : Work S l l' := by
  obtain ⟨hmove, hmore⟩ := h
  cases hmove with
  | note event hnote =>
      refine .pass [event] rfl ?_ rfl
      intro other hother
      rw [List.mem_singleton.mp hother]
      cases event <;> first | rfl | cases hnote
  | enqueue job _ | takeOut job _ | configure ops _ => cases more_unique hmore
  | clear =>
      -- the list was empty
      obtain ⟨more, hlog, hcalls⟩ := hmore
      rw [List.append_cancel_left_eq] at hlog
      have hempty : l.assignments = [] := by
        refine List.eq_nil_iff_forall_not_mem.mpr fun job hjob => ?_
        have hcall := hcalls (.dequeued job) (hlog ▸ List.mem_map_of_mem hjob)
        cases hcall
      exact .pass [] (by simp [hempty]) (by simp) hempty.symm
  | refuse hscan => exact .pass [] (by simp) (by simp) (State.scan_eq_none_rest hscan)
  | assign thread _ hscan => exact .assign hscan rfl
  | prepare _ | begin _ | run _ | free _ _ | freed _ _ | leave _ =>
      exact .pass [] (List.append_nil _).symm (by simp) rfl
  | @finish thread job hwork => exact .finish ⟨.ending, rfl, hwork⟩ rfl rfl

/-- It is a move under any discipline. -/
theorem WorkMove.move (h : WorkMove S l l') : Move S D l l' := by
  obtain ⟨hmove, hmore⟩ := h
  refine hmove.mono ?_ ?_
  · intro job hlog
    rw [hlog] at hmore
    cases more_unique hmore
  · intro ops hlog
    rw [hlog] at hmore
    cases more_unique hmore

theorem WorkMoves.moves (h : WorkMoves S l l') : Moves S D l l' :=
  Relation.ReflTransGen.mono (fun _ _ (hmove : WorkMove S _ _) => hmove.move) _ _ h

/-- A worker that has a job can go on with it, or leave it behind. -/
theorem exists_workMove {thread : ℕ} {job : J} {phase : Phase}
    (hwork : l.work thread = some (job, phase)) :
    ∃ l', WorkMove S l l' ∧ l'.work ≠ l.work := by
  -- the move takes the thread to another phase
  suffices h : ∃ l', WorkMove S l l' ∧ l'.work thread ≠ l.work thread by
    obtain ⟨l', hmove, hne⟩ := h
    exact ⟨l', hmove, fun heq => hne (congrFun heq thread)⟩
  have hquiet : ∃ more : List (Event J P ε), l.log = l.log ++ more ∧
      ∀ event ∈ more, event.ofCall = false := ⟨[], by simp, by simp⟩
  cases phase with
  | assigned => exact ⟨_, ⟨.prepare hwork, hquiet⟩, by simp [setWork, hwork]⟩
  | executing => exact ⟨_, ⟨.begin hwork, hquiet⟩, by simp [setWork, hwork]⟩
  | running => exact ⟨_, ⟨.run hwork, hquiet⟩, by simp [setWork, hwork]⟩
  | ending =>
      refine ⟨_, ⟨.finish hwork, [_], rfl, ?_⟩, by simp [setWork, record, hwork]⟩
      simp [Event.ofCall]
  | freeing index =>
      cases hpolicy : (l.queuePolicies job)[index]? with
      | some policy => exact ⟨_, ⟨.free hwork hpolicy, hquiet⟩, by simp [setWork, hwork]⟩
      | none => exact ⟨_, ⟨.freed hwork hpolicy, hquiet⟩, by simp [setWork, hwork]⟩
  | returned => exact ⟨_, ⟨.leave hwork, hquiet⟩, by simp [setWork, hwork]⟩

/-- At the end of a maximal sequence no worker has a job, and none would be handed one. -/
theorem Maximal.idle (h : Maximal S l) : (∀ thread, l.work thread = none) ∧
    (State.scan S l.queuePolicies l.assignments l.policyState).1 = none := by
  have hidle : ∀ thread, l.work thread = none := by
    intro thread
    rw [Option.eq_none_iff_forall_ne_some]
    rintro ⟨job, phase⟩ hwork
    obtain ⟨l', hmove, hne⟩ := exists_workMove (S := S) hwork
    exact hne (h l' hmove)
  refine ⟨hidle, ?_⟩
  rw [Option.eq_none_iff_forall_ne_some]
  intro job hscan
  have hassign := h _ ⟨.assign 0 (hidle 0) (Prod.ext hscan rfl), [_], rfl, by simp [Event.ofCall]⟩
  have hsame := congrFun hassign 0
  simp [hidle 0] at hsame

/-! ## Where the jobs are -/

/-- The job is not lost: it is in the list, with a worker, or has ended with its outcome. -/
def OnItsWay (S : Setup J P σ ε) (l : Ledger J P σ ε) (job : J) : Prop :=
  job ∈ l.assignments ∨ (∃ thread, l.Holds thread job) ∨ .ended job (S.outcome job).status ∈ l.log

omit [DecidableEq P] in
theorem onItsWay_of_place (hconserved : l.Conserved) (hends : l.EndsKnown S) {job : J}
    {place : Place} (hplace : lastPlace job l.log = some place) (hne : place ≠ .dequeued) :
    l.OnItsWay S job := by
  cases place with
  | listed => exact .inl ((hconserved.mem_iff job).mpr hplace)
  | assigned thread => exact .inr (.inl ⟨thread, (hconserved.holds_iff thread job).mpr hplace⟩)
  | ended =>
      have hended := hends.final job hplace
      exact .inr (.inr ((hends.outcome job _ hended).1 ▸ hended))
  | dequeued => exact absurd rfl hne

omit [DecidableEq P] in
/-- The workers do not take a job off its way. -/
theorem Work.place (h : Work S l l') {job : J} {place : Place}
    (hplace : lastPlace job l.log = some place) (hne : place ≠ .dequeued) :
    ∃ next, lastPlace job l'.log = some next ∧ next ≠ .dequeued := by
  cases h with
  | pass more hlog hmore _ =>
      exact ⟨place, by rw [hlog, lastPlace_append_of_forall_none hmore, hplace], hne⟩
  | @assign thread moved _ hlog =>
      by_cases hmoved : job = moved
      · subst hmoved
        exact ⟨.assigned thread, by rw [hlog, lastPlace_append_self _ rfl], by simp⟩
      · exact ⟨place, by rw [hlog, lastPlace_append_of_ne _ rfl hmoved, hplace], hne⟩
  | @finish thread moved _ hlog _ =>
      by_cases hmoved : job = moved
      · subst hmoved
        exact ⟨.ended, by rw [hlog, lastPlace_append_self _ rfl], by simp⟩
      · exact ⟨place, by rw [hlog, lastPlace_append_of_ne _ rfl hmoved, hplace], hne⟩

theorem WorkMoves.place (h : WorkMoves S l l') {job : J} {place : Place}
    (hplace : lastPlace job l.log = some place) (hne : place ≠ .dequeued) :
    ∃ next, lastPlace job l'.log = some next ∧ next ≠ .dequeued := by
  induction h with
  | refl => exact ⟨place, hplace, hne⟩
  | tail _ hmove ih =>
      obtain ⟨next, hnext, hne⟩ := ih
      exact hmove.work.place hnext hne

/-! ## How often jobs are assigned and end -/

omit [DecidableEq J] [DecidableEq P] in
/-- Every assignment takes one job out of the list. -/
theorem Work.count (h : Work S l l') :
    (handedOut l'.log).length + l'.assignments.length =
      (handedOut l.log).length + l.assignments.length := by
  cases h with
  | pass more hlog hmore hassignments =>
      have hnone : handedOut more = [] := by
        rw [handedOut, List.filterMap_eq_nil_iff]
        intro event hevent
        have hplace := hmore event hevent
        cases event with
        | assigned _ _ => cases hplace
        | _ => rfl
      rw [hlog, hassignments, handedOut_append, hnone, List.append_nil]
  | @assign thread job hscan hlog =>
      obtain ⟨front, back, hlist, hrest⟩ := State.scan_eq_some_split hscan
      have hone : handedOut [(.assigned thread job : Event J P ε)] = [job] := rfl
      rw [hlog, hlist, hrest, handedOut_append, hone]
      simp only [List.length_append, List.length_cons, List.length_nil]
      omega
  | finish _ hlog hassignments =>
      rw [hlog, hassignments, handedOut_append]
      simp [handedOut, Event.assigns?]

theorem WorkMoves.count (h : WorkMoves S l l') :
    (handedOut l'.log).length + l'.assignments.length =
      (handedOut l.log).length + l.assignments.length := by
  induction h with
  | refl => rfl
  | tail _ hmove ih => exact hmove.work.count.trans ih

/-- A job ends once, and then it stays ended. -/
structure EndsOnce (l : Ledger J P σ ε) : Prop where
  nodup : (completions l.log).Nodup
  place : ∀ job ∈ completions l.log, lastPlace job l.log = some .ended

omit [DecidableEq P] in
/-- A move in which no job ends leaves the jobs that have ended where they are. -/
theorem EndsOnce.of_log (h : l.EndsOnce) (more : List (Event J P ε))
    (hlog : l'.log = l.log ++ more) (hended : ∀ job status, .ended job status ∉ more)
    (hplace : ∀ job, lastPlace job l.log = some .ended →
      lastPlace job l'.log = some .ended) : l'.EndsOnce := by
  have hnone : completions more = [] := by
    rw [completions, List.filterMap_eq_nil_iff]
    intro event hevent
    cases event with
    | ended job status => exact absurd hevent (hended job status)
    | _ => rfl
  have hsame : completions l'.log = completions l.log := by
    rw [hlog, completions_append, hnone, List.append_nil]
  refine ⟨hsame ▸ h.nodup, fun job hjob => hplace job (h.place job (hsame ▸ hjob))⟩

theorem EndsOnce.move (hconserved : l.Conserved) (h : l.EndsOnce) (hnew : D.onlyNew)
    (hmove : Move S D l l') : l'.EndsOnce := by
  -- a job that has ended is not the one that is moved
  have hmoved : ∀ {event : Event J P ε} {moved : J} (place : Place),
      event.place? = some (moved, place) → lastPlace moved l.log ≠ some .ended →
      ∀ job, lastPlace job l.log = some .ended →
        lastPlace job (l.log ++ [event]) = some .ended := by
    intro event moved place hevent hnot job hjob
    have hne : job ≠ moved := by
      rintro rfl
      exact hnot hjob
    rw [lastPlace_append_of_ne place hevent hne, hjob]
  have hlisted : ∀ job ∈ l.assignments, lastPlace job l.log ≠ some .ended := by
    intro job hjob
    rw [(hconserved.mem_iff job).mp hjob]
    simp
  cases hmove with
  | note event hnote =>
      refine h.of_log [event] rfl ?_ fun job hjob => ?_
      · intro job status hmem
        rw [← List.mem_singleton.mp hmem] at hnote
        cases hnote
      · refine (lastPlace_append_of_none ?_).trans hjob
        cases event <;> first | rfl | cases hnote
  | enqueue job hstatus =>
      refine h.of_log [.enqueued job] rfl (by simp) (hmoved .listed rfl ?_)
      intro hended
      exact hconserved.not_new job .ended hended (by simp) (hstatus hnew)
  | takeOut job hmem =>
      exact h.of_log [.dequeued job] rfl (by simp) (hmoved .dequeued rfl (hlisted job hmem))
  | clear =>
      refine h.of_log _ rfl (by simp) fun job hjob => ?_
      have hnot : job ∉ l.assignments := fun hmem => hlisted job hmem hjob
      rw [lastPlace_append_dequeued, if_neg hnot, hjob]
  | refuse _ => exact h.of_log [] (by simp) (by simp) fun _ => id
  | @assign thread job _ _ _ hscan =>
      obtain ⟨front, back, hlist, -⟩ := State.scan_eq_some_split hscan
      have hmem : job ∈ l.assignments := by simp [hlist]
      exact h.of_log [_] rfl (by simp) (hmoved (.assigned thread) rfl (hlisted job hmem))
  | prepare _ | begin _ | run _ | free _ _ | freed _ _ | leave _ =>
      exact h.of_log [] (List.append_nil _).symm (by simp) fun _ => id
  | @finish thread job hwork =>
      have hassigned : lastPlace job l.log = some (.assigned thread) :=
        (hconserved.holds_iff thread job).mp ⟨.ending, rfl, hwork⟩
      have hnot : job ∉ completions l.log := by
        intro hmem
        rw [h.place job hmem] at hassigned
        cases hassigned
      have hafter : completions (l.log ++ [.ended job (l.status job)]) =
          completions l.log ++ [job] := completions_append _ _
      constructor
      · show (completions (l.log ++ [.ended job (l.status job)])).Nodup
        rw [hafter, List.nodup_append_comm]
        exact List.nodup_cons.mpr ⟨hnot, h.nodup⟩
      · intro other hother
        change other ∈ completions (l.log ++ [.ended job (l.status job)]) at hother
        show lastPlace other (l.log ++ [.ended job (l.status job)]) = some .ended
        by_cases hjob : other = job
        · exact hjob ▸ lastPlace_append_self .ended rfl
        · rw [lastPlace_append_of_ne .ended rfl hjob]
          rw [hafter, List.mem_append, List.mem_singleton] at hother
          exact h.place other (hother.resolve_right hjob)
  | configure ops _ =>
      refine h.of_log [.configured ops] rfl (by simp) fun job hjob => ?_
      exact (lastPlace_append_of_none rfl).trans hjob

omit [DecidableEq P] in
/-- Only jobs that were handed to a worker end, each of them once. -/
theorem EndsOnce.length_le (h : l.EndsOnce) (hends : l.EndsKnown S) :
    (completions l.log).length ≤ (handedOut l.log).length := by
  refine (List.subperm_of_subset h.nodup fun job hjob => ?_).length_le
  obtain ⟨status, hended⟩ := mem_completions.mp hjob
  obtain ⟨-, thread, hassigned⟩ := hends.outcome job status hended
  rw [handedOut, List.mem_filterMap]
  exact ⟨_, hassigned, rfl⟩

omit [DecidableEq P] in
theorem endsOnce_init (start : Start J P σ) : (init (T := T) S start).ledger.EndsOnce :=
  ⟨List.nodup_nil, by simp [State.ledger, init, completions]⟩

omit [DecidableEq P] in
theorem OnItsWay.place (hconserved : l.Conserved) (honce : l.EndsOnce) {job : J}
    (h : l.OnItsWay S job) : ∃ place, lastPlace job l.log = some place ∧ place ≠ .dequeued := by
  rcases h with hlisted | ⟨thread, hholds⟩ | hended
  · exact ⟨.listed, (hconserved.mem_iff job).mp hlisted, by simp⟩
  · exact ⟨.assigned thread, (hconserved.holds_iff thread job).mp hholds, by simp⟩
  · exact ⟨.ended, honce.place job (mem_completions.mpr ⟨_, hended⟩), by simp⟩

end Ledger

/-! ## The steps of the workers -/

namespace Ledger

theorem Move.log (h : Move S D l l') : ∃ more, l'.log = l.log ++ more := by
  cases h with
  | note event _ => exact ⟨[event], rfl⟩
  | enqueue job _ => exact ⟨[.enqueued job], rfl⟩
  | takeOut job _ => exact ⟨[.dequeued job], rfl⟩
  | clear => exact ⟨_, rfl⟩
  | refuse _ | prepare _ | begin _ | run _ | free _ _ | freed _ _ | leave _ =>
      exact ⟨[], (List.append_nil _).symm⟩
  | assign _ _ _ | finish _ => exact ⟨[_], rfl⟩
  | configure ops _ => exact ⟨[.configured ops], rfl⟩

theorem Moves.log (h : Moves S D l l') : ∃ more, l'.log = l.log ++ more := by
  induction h with
  | refl => exact ⟨[], (List.append_nil _).symm⟩
  | tail _ hmove ih =>
      obtain ⟨first, hfirst⟩ := ih
      obtain ⟨second, hsecond⟩ := hmove.log
      exact ⟨first ++ second, by rw [hsecond, hfirst, List.append_assoc]⟩

/-- Moves among whose events is none of a call are moves of the workers. -/
theorem Moves.workMoves (h : Moves S .none l l')
    (hmore : ∃ more, l'.log = l.log ++ more ∧ ∀ event ∈ more, event.ofCall = false) :
    WorkMoves S l l' := by
  induction h using Relation.ReflTransGen.head_induction_on with
  | refl => exact .refl
  | head hmove hrest ih =>
      obtain ⟨first, hfirst⟩ := hmove.log
      obtain ⟨second, hsecond⟩ := Moves.log hrest
      obtain ⟨more, hlog, hcalls⟩ := hmore
      obtain rfl : first ++ second = more := by
        rw [hsecond, hfirst, List.append_assoc, List.append_cancel_left_eq] at hlog
        exact hlog
      rw [List.forall_mem_append] at hcalls
      exact .head ⟨hmove, first, hfirst, hcalls.1⟩ (ih ⟨second, hsecond, hcalls.2⟩)

end Ledger

/-- **What the workers do in the weaver is such a sequence.** -/
theorem workMoves_of_worker [DecidableEq T] {thread : ℕ} {s next : State J P T σ ε}
    (hstep : step S s (.worker thread) = some next) :
    Ledger.WorkMoves S s.ledger next.ledger := by
  have hmoves : Ledger.Moves S .none s.ledger next.ledger :=
    step_moves (Discipline.none_allows s _) hstep
  simp only [step, Option.ite_none_right_eq_some] at hstep
  obtain ⟨events, hlog, hevents⟩ := (workerStep_turn hstep.2).events
  exact Ledger.Moves.workMoves hmoves ⟨events, hlog, fun event h => (hevents event h).1⟩

end ThreadWeaver.Weaver
