import ThreadWeaver.ResourceRestrictionPolicy
import ThreadWeaver.Weaver.Conservation
import ThreadWeaver.Weaver.Inventory

/-!
# Resource restrictions over whole runs

The customers of a restriction are the jobs that carry it, were assigned, and have not been
freed of it.  Refused attempts give back what they have taken.  The loop that frees the
policies of a job goes through the list by index, so a policy that is removed behind it can make
it pass over the restriction.
-/

namespace ThreadWeaver.Weaver

variable {J P T τ ε : Type*} [DecidableEq J]

/-- A program that uses one `ResourceRestrictionPolicy` besides its own policies. -/
def Setup.addRestriction (S : Setup J P τ ε) :
    Setup J (Option P) (Restriction J × τ) (RestrictionCall J ε) :=
  { S with
    policies := withRestriction S.policies
    call := RestrictionCall.apply S.call }

/-- The restriction is among the policies of the job and has not been freed yet. -/
def Phase.yetToFree (policies : List (Option P)) : Phase → Prop
  | freeing index => none ∈ policies.drop index
  | returned => False
  | assigned | executing | running | ending => none ∈ policies

/-- A worker has been handed the job, which carries the restriction and has not been freed of
it. -/
def IsCustomer (work : ℕ → Option (J × Phase)) (queuePolicies : J → List (Option P)) (job : J) :
    Prop :=
  ∃ thread phase, work thread = some (job, phase) ∧ phase.yetToFree (queuePolicies job)

/-- The customers as they should be. -/
def State.HoldsRestriction (s : State J (Option P) T (Restriction J × τ) (RestrictionCall J ε))
    (job : J) : Prop :=
  ∃ thread phase, (s.worker thread).pc = .busy job phase ∧ phase.yetToFree (s.queuePolicies job)

section

variable [DecidableEq P] {S : Setup J P τ ε}

/-- The operation assigns the restriction to jobs in `Status_New` only, removes no policy from a
job so that the restriction is not freed any more, and leaves the cap. -/
def Ledger.Respects (l : Ledger J (Option P) (Restriction J × τ) (RestrictionCall J ε))
    (queuePolicies : J → List (Option P)) : PolicyOp J (Option P) (RestrictionCall J ε) → Prop
  | .assignQueuePolicy job policy => policy = none → l.status job = .new
  | .removeQueuePolicy job policy =>
      ∀ thread phase, l.work thread = some (job, phase) → phase.yetToFree (queuePolicies job) →
        phase.yetToFree (State.removeQueuePolicy (queuePolicies job) policy)
  | .call (.setCap _) => False
  | .call (.destructed job) => ∀ thread phase, l.work thread ≠ some (job, phase)
  | .call (.other _) => True

/-- All operations of a list do so, one after the other. -/
def Ledger.RespectsAll (S : Setup J P τ ε)
    (l : Ledger J (Option P) (Restriction J × τ) (RestrictionCall J ε)) :
    (J → List (Option P)) × Restriction J × τ →
      List (PolicyOp J (Option P) (RestrictionCall J ε)) → Prop
  | _, [] => True
  | policies, op :: rest =>
      l.Respects policies.1 op ∧
        l.RespectsAll S (State.applyPolicyOp S.addRestriction policies op) rest

/-- The program enqueues jobs in `Status_New`, and its operations respect the restriction. -/
def keepsRestriction (S : Setup J P τ ε) :
    Discipline J (Option P) (Restriction J × τ) (RestrictionCall J ε) where
  onlyNew := True
  mayConfigure l ops := l.RespectsAll S (l.queuePolicies, l.policyState) ops

omit [DecidableEq J] [DecidableEq P] in
theorem Phase.mem_of_yetToFree {queuePolicies : List (Option P)} {phase : Phase}
    (h : phase.yetToFree queuePolicies) : none ∈ queuePolicies := by
  cases phase with
  | freeing index => exact List.mem_of_mem_drop h
  | returned => exact h.elim
  | assigned | executing | running | ending => exact h

omit [DecidableEq J] [DecidableEq P] in
theorem Phase.yetToFree_of_beforeEnd {queuePolicies : List (Option P)} {phase : Phase}
    (hphase : phase.beforeEnd) (hmem : none ∈ queuePolicies) : phase.yetToFree queuePolicies := by
  cases phase with
  | freeing _ | returned => cases hphase
  | assigned | executing | running | ending => exact hmem

/-! ## The invariant -/

/-- The restriction has the right customers, and not more than its cap. -/
structure Booked (cap : ℤ) (work : ℕ → Option (J × Phase))
    (policies : (J → List (Option P)) × Restriction J × τ) : Prop where
  lists : ∀ job, (policies.1 job).Nodup
  fixed : policies.2.1.cap = cap
  room : (policies.2.1.customers.length : ℤ) ≤ cap
  nodup : policies.2.1.customers.Nodup
  mem_iff : ∀ job, job ∈ policies.2.1.customers ↔ IsCustomer work policies.1 job

variable {cap : ℤ} {work work' : ℕ → Option (J × Phase)}
  {policies : (J → List (Option P)) × Restriction J × τ}

omit [DecidableEq J] [DecidableEq P] in
/-- A policy other than the restriction is appended. -/
theorem Phase.yetToFree_append {queuePolicies : List (Option P)} {policy : P} {phase : Phase} :
    phase.yetToFree (queuePolicies ++ [some policy]) ↔ phase.yetToFree queuePolicies := by
  have hother : ∀ policies : List (Option P), (none : Option P) ∈ policies ++ [some policy] ↔
      none ∈ policies := by
    intro policies
    simp
  cases phase with
  | freeing index =>
      simp only [Phase.yetToFree, List.drop_append]
      constructor
      · intro hmem
        refine (List.mem_append.mp hmem).resolve_right fun hmem => ?_
        cases List.mem_singleton.mp (List.mem_of_mem_drop hmem)
      · exact List.mem_append_left _
  | returned => rfl
  | assigned | executing | running | ending => exact hother queuePolicies

theorem sublist_removeQueuePolicy (queuePolicies : List P) (policy : P) :
    (State.removeQueuePolicy queuePolicies policy).Sublist queuePolicies :=
  List.erase_sublist

omit [DecidableEq J] in
theorem Phase.yetToFree_of_remove {queuePolicies : List (Option P)} {policy : Option P}
    {phase : Phase} (h : phase.yetToFree (State.removeQueuePolicy queuePolicies policy)) :
    phase.yetToFree queuePolicies := by
  have hsublist := sublist_removeQueuePolicy queuePolicies policy
  cases phase with
  | freeing index => exact (hsublist.drop index).subset h
  | returned => exact h
  | assigned | executing | running | ending => exact hsublist.subset h

omit [DecidableEq J] [DecidableEq P] in
theorem Booked.of_lists (h : Booked cap work policies) {queuePolicies : J → List (Option P)}
    (hlists : ∀ job, (queuePolicies job).Nodup)
    (hphase : ∀ job thread phase, work thread = some (job, phase) →
      (phase.yetToFree (queuePolicies job) ↔ phase.yetToFree (policies.1 job))) :
    Booked cap work (queuePolicies, policies.2) := by
  refine ⟨hlists, h.fixed, h.room, h.nodup, fun job => (h.mem_iff job).trans ?_⟩
  exact exists₂_congr fun thread phase =>
    and_congr_right fun hwork => (hphase job thread phase hwork).symm

theorem Booked.applyPolicyOp {l : Ledger J (Option P) (Restriction J × τ) (RestrictionCall J ε)}
    (hnew : ∀ job, l.status job = .new → ∀ thread phase, l.work thread = some (job, phase) →
      phase = .returned)
    (h : Booked cap l.work policies) {op : PolicyOp J (Option P) (RestrictionCall J ε)}
    (hop : l.Respects policies.1 op) :
    Booked cap l.work (State.applyPolicyOp S.addRestriction policies op) := by
  cases op with
  | assignQueuePolicy changed policy =>
      refine h.of_lists ?_ ?_
      · intro job
        rw [Function.update_apply]
        split
        · exact State.nodup_assignQueuePolicy policy (h.lists changed)
        · exact h.lists job
      · intro job thread phase hwork
        rw [Function.update_apply]
        split
        · rename_i heq
          subst heq
          cases policy with
          | none =>
              rw [hnew job (hop rfl) thread phase hwork]
              exact Iff.rfl
          | some policy =>
              unfold State.assignQueuePolicy
              split
              · rfl
              · exact Phase.yetToFree_append
        · rfl
  | removeQueuePolicy changed policy =>
      refine h.of_lists ?_ ?_
      · intro job
        rw [Function.update_apply]
        split
        · exact State.nodup_removeQueuePolicy policy (h.lists changed)
        · exact h.lists job
      · intro job thread phase hwork
        rw [Function.update_apply]
        split
        · rename_i heq
          subst heq
          exact ⟨Phase.yetToFree_of_remove, hop thread phase hwork⟩
        · rfl
  | call call =>
      cases call with
      | setCap _ => exact hop.elim
      | other _ => exact ⟨h.lists, h.fixed, h.room, h.nodup, h.mem_iff⟩
      | destructed job =>
          -- the job is no customer
          have hnot : job ∉ policies.2.1.customers := by
            rw [h.mem_iff]
            rintro ⟨thread, phase, hwork, -⟩
            exact hop thread phase hwork
          have hsame : policies.2.1.free job = policies.2.1 := by
            rw [Restriction.free, List.erase_of_not_mem hnot]
          have hafter : State.applyPolicyOp S.addRestriction policies (.call (.destructed job)) =
              policies := by
            show (policies.1, policies.2.1.free job, policies.2.2) = policies
            rw [hsame]
          rw [hafter]
          exact h

namespace Ledger

variable {l l' : Ledger J (Option P) (Restriction J × τ) (RestrictionCall J ε)}

/-- The restriction is kept, and no two workers have the same job. -/
structure Restricted (cap : ℤ) (l : Ledger J (Option P) (Restriction J × τ) (RestrictionCall J ε)) :
    Prop where
  alone : ∀ thread other job phase phase', l.work thread = some (job, phase) →
    l.work other = some (job, phase') → phase ≠ .returned → phase' ≠ .returned → thread = other
  booked : Booked cap l.work (l.queuePolicies, l.policyState)

omit [DecidableEq P] in
private theorem returned_of_new (hconserved : l.Conserved)
    (hends : l.EndsKnown S.addRestriction) {job : J} (hnew : l.status job = .new) (thread : ℕ)
    (phase : Phase) (hwork : l.work thread = some (job, phase)) : phase = .returned := by
  cases phase with
  | returned => rfl
  | assigned | executing | running | ending =>
      exact absurd ⟨_, rfl, hwork⟩ ((hconserved.of_new hnew).2 thread)
  | freeing index =>
      have hended := hends.final job (hends.freeing thread job index hwork)
      have hstatus := (hends.outcome _ _ hended).1
      have hfinished := S.outcome_isFinished job
      rw [hnew] at hstatus
      rw [show (S.outcome job).status = .new from hstatus.symm] at hfinished
      cases hfinished

omit [DecidableEq P] in
private theorem returned_of_listed (hconserved : l.Conserved)
    (hends : l.EndsKnown S.addRestriction) {job : J} (hmem : job ∈ l.assignments) (thread : ℕ)
    (phase : Phase) (hwork : l.work thread = some (job, phase)) : phase = .returned := by
  cases phase with
  | returned => rfl
  | assigned | executing | running | ending =>
      exact absurd ⟨_, rfl, hwork⟩ (hconserved.not_holds hmem thread)
  | freeing index =>
      have hended := hends.freeing thread job index hwork
      rw [(hconserved.mem_iff job).mp hmem] at hended
      cases hended

omit [DecidableEq J] [DecidableEq P] in
/-- A worker moves on with its job. -/
private theorem Restricted.of_turn (h : l.Restricted cap) {thread : ℕ}
    {turn : Option (J × Phase)} (hwork : l'.work = Function.update l.work thread turn)
    (hpolicies : l'.queuePolicies = l.queuePolicies)
    (hstate : l'.policyState.1 = l.policyState.1)
    (hphase : ∀ job phase, turn = some (job, phase) → phase ≠ .returned →
      ∃ phase, l.work thread = some (job, phase) ∧ phase ≠ .returned)
    (hsame : ∀ job, (∃ phase, turn = some (job, phase) ∧ phase.yetToFree (l.queuePolicies job)) ↔
      ∃ phase, l.work thread = some (job, phase) ∧ phase.yetToFree (l.queuePolicies job)) :
    l'.Restricted cap where
  alone first second job phase phase' hfirst hsecond hne hne' := by
    -- both had the job before
    have hbefore : ∀ other phase, l'.work other = some (job, phase) → phase ≠ .returned →
        ∃ phase, l.work other = some (job, phase) ∧ phase ≠ .returned := by
      intro other phase hother hne
      rw [hwork, Function.update_apply] at hother
      split at hother
      · rename_i heq
        exact heq ▸ hphase job phase hother hne
      · exact ⟨phase, hother, hne⟩
    obtain ⟨_, hold, hne⟩ := hbefore first phase hfirst hne
    obtain ⟨_, hold', hne'⟩ := hbefore second phase' hsecond hne'
    exact h.alone first second job _ _ hold hold' hne hne'
  booked := by
    obtain ⟨hlists, hfixed, hroom, hnodup, hmem⟩ := h.booked
    rw [hpolicies]
    refine ⟨hlists, by rw [hstate, hfixed], by rw [hstate]; exact hroom,
      by rw [hstate]; exact hnodup, fun job => ?_⟩
    rw [hstate]
    refine (hmem job).trans ?_
    rw [hwork]
    constructor
    · rintro ⟨other, phase, hother, hfree⟩
      by_cases heq : other = thread
      · subst heq
        obtain ⟨phase, hturn, hfree⟩ := (hsame job).mpr ⟨phase, hother, hfree⟩
        exact ⟨other, phase, (Function.update_self ..).trans hturn, hfree⟩
      · exact ⟨other, phase, (Function.update_of_ne heq ..).trans hother, hfree⟩
    · rintro ⟨other, phase, hother, hfree⟩
      rw [Function.update_apply] at hother
      split at hother
      · obtain ⟨phase, hturn, hfree⟩ := (hsame job).mp ⟨phase, hother, hfree⟩
        exact ⟨thread, phase, hturn, hfree⟩
      · exact ⟨other, phase, hother, hfree⟩

private theorem keptByRefusals_customers (queuePolicies : J → List (Option P))
    (restriction : Restriction J) :
    State.KeptByRefusals S.addRestriction queuePolicies fun state =>
      state.1.cap = restriction.cap ∧ state.1.customers.Perm restriction.customers := by
  rintro candidate state ⟨hcap, hperm⟩ hrefused
  obtain ⟨hcap', hperm'⟩ := withRestriction_refused (q := S.policies) hrefused
  exact ⟨hcap'.trans hcap, hperm'.trans hperm⟩

omit [DecidableEq J] [DecidableEq P] in
private theorem Restricted.of_perm (h : l.Restricted cap) (hwork : l'.work = l.work)
    (hpolicies : l'.queuePolicies = l.queuePolicies)
    (hcap : l'.policyState.1.cap = l.policyState.1.cap)
    (hperm : l'.policyState.1.customers.Perm l.policyState.1.customers) : l'.Restricted cap where
  alone := hwork ▸ h.alone
  booked := by
    obtain ⟨hlists, hfixed, hroom, hnodup, hmem⟩ := h.booked
    rw [hwork, hpolicies]
    refine ⟨hlists, hcap.trans hfixed, ?_, hperm.nodup_iff.mpr hnodup, fun job => ?_⟩
    · rw [hperm.length_eq]
      exact hroom
    · exact hperm.mem_iff.trans (hmem job)

/-- The assigned job becomes a customer if it carries the restriction. -/
private theorem Restricted.assign (hconserved : l.Conserved)
    (hends : l.EndsKnown S.addRestriction) (h : l.Restricted cap) {thread : ℕ} {job : J}
    {rest : List J} {state : Restriction J × τ} {event : Event J (Option P) (RestrictionCall J ε)}
    (hidle : l.work thread = none)
    (hscan : State.scan S.addRestriction l.queuePolicies l.assignments l.policyState =
      (some job, rest, state)) :
    Restricted cap { l with
      assignments := rest
      policyState := state
      work := Function.update l.work thread (some (job, .assigned))
      log := l.log ++ [event] } := by
  obtain ⟨front, back, before, hlist, _, ⟨hcap, hperm⟩, haccepts, hstate, _⟩ :=
    State.scan_eq_some (keptByRefusals_customers (S := S) l.queuePolicies l.policyState.1)
      ⟨rfl, .refl _⟩ hscan
  obtain ⟨hlists, hfixed, hroom, hnodup, hmem⟩ := h.booked
  obtain ⟨hcap', hcustomers, hspace⟩ : state.1.cap = before.1.cap ∧
      state.1.customers =
        before.1.customers ++ (if none ∈ l.queuePolicies job then [job] else []) ∧
      (none ∈ l.queuePolicies job → (before.1.customers.length : ℤ) < before.1.cap) := by
    rw [hstate]
    exact withRestriction_accepted (q := S.policies) (hlists job) haccepts
  have hnobody : ∀ other phase, l.work other = some (job, phase) → phase = .returned :=
    returned_of_listed hconserved hends (by simp [hlist])
  have hnot : job ∉ before.1.customers := by
    rw [hperm.mem_iff]
    intro hcustomer
    obtain ⟨other, phase, hwork, hfree⟩ := (hmem job).mp hcustomer
    rw [hnobody other phase hwork] at hfree
    exact hfree
  refine ⟨?_, hlists, hcap'.trans (hcap.trans hfixed), ?_, ?_, ?_⟩
  · intro first second shared phase phase' hfirst hsecond hne hne'
    by_cases heq : first = thread
    · by_cases heq' : second = thread
      · exact heq.trans heq'.symm
      · obtain ⟨rfl, rfl⟩ : job = shared ∧ Phase.assigned = phase := by simpa [heq] using hfirst
        exact absurd (hnobody second phase' ((Function.update_of_ne heq' ..).symm.trans hsecond))
          hne'
    · by_cases heq' : second = thread
      · obtain ⟨rfl, rfl⟩ : job = shared ∧ Phase.assigned = phase' := by simpa [heq'] using hsecond
        exact absurd (hnobody first phase ((Function.update_of_ne heq ..).symm.trans hfirst)) hne
      · exact h.alone first second shared phase phase'
          ((Function.update_of_ne heq ..).symm.trans hfirst)
          ((Function.update_of_ne heq' ..).symm.trans hsecond) hne hne'
  · show (state.1.customers.length : ℤ) ≤ cap
    have hlength := hperm.length_eq
    have hfixed' : l.policyState.1.cap = cap := hfixed
    have hroom' : (l.policyState.1.customers.length : ℤ) ≤ cap := hroom
    rw [hcustomers, List.length_append]
    split
    · rename_i hcarries
      have hspace := hspace hcarries
      rw [List.length_singleton]
      omega
    · rw [List.length_nil]
      omega
  · show state.1.customers.Nodup
    rw [hcustomers]
    split
    · exact List.nodup_append.mpr ⟨hperm.nodup_iff.mpr hnodup, List.nodup_singleton job,
        by simpa using fun other hother (heq : other = job) => hnot (heq ▸ hother)⟩
    · rw [List.append_nil]
      exact hperm.nodup_iff.mpr hnodup
  · intro other
    show other ∈ state.1.customers ↔ _
    have hbefore : other ∈ before.1.customers ↔ IsCustomer l.work l.queuePolicies other :=
      hperm.mem_iff.trans (hmem other)
    rw [hcustomers, List.mem_append, hbefore]
    constructor
    · rintro (⟨holder, phase, hwork, hfree⟩ | hnew)
      · have hne : holder ≠ thread := by
          rintro rfl
          rw [hidle] at hwork
          cases hwork
        exact ⟨holder, phase, (Function.update_of_ne hne ..).trans hwork, hfree⟩
      · split at hnew
        · rename_i hcarries
          rw [List.mem_singleton.mp hnew]
          exact ⟨thread, .assigned, Function.update_self .., hcarries⟩
        · cases hnew
    · rintro ⟨holder, phase, hwork, hfree⟩
      by_cases heq : holder = thread
      · obtain ⟨rfl, rfl⟩ : job = other ∧ Phase.assigned = phase := by simpa [heq] using hwork
        have hcarries : none ∈ l.queuePolicies job := hfree
        right
        rw [if_pos hcarries]
        exact List.mem_singleton.mpr rfl
      · exact .inl ⟨holder, phase, (Function.update_of_ne heq ..).symm.trans hwork, hfree⟩

omit [DecidableEq P] in
/-- The restriction is freed: the job is no customer any more. -/
private theorem Restricted.free (h : l.Restricted cap) {thread index : ℕ} {job : J}
    (hwork : l.work thread = some (job, .freeing index))
    (hpolicy : (l.queuePolicies job)[index]? = some none) :
    Restricted cap { l.setWork thread (some (job, .freeing (index + 1))) with
      policyState := (l.policyState.1.free job, l.policyState.2) } := by
  obtain ⟨hlists, hfixed, hroom, hnodup, hmem⟩ := h.booked
  obtain ⟨hlt, hget⟩ := List.getElem?_eq_some_iff.mp hpolicy
  have hdrop : (l.queuePolicies job).drop index = none :: (l.queuePolicies job).drop (index + 1) := by
    rw [List.drop_eq_getElem_cons hlt, hget]
  -- the restriction stands in the list once
  have hgone : none ∉ (l.queuePolicies job).drop (index + 1) := by
    have hrest : ((l.queuePolicies job).drop index).Nodup :=
      (List.drop_sublist index _).nodup (hlists job)
    rw [hdrop] at hrest
    exact (List.nodup_cons.mp hrest).1
  refine ⟨?_, hlists, hfixed, ?_, hnodup.erase job, ?_⟩
  · intro first second shared phase phase' hfirst hsecond hne hne'
    have hbefore : ∀ other phase, (l.setWork thread (some (job, .freeing (index + 1)))).work other =
        some (shared, phase) → phase ≠ .returned →
        ∃ phase, l.work other = some (shared, phase) ∧ phase ≠ .returned := by
      intro other phase hother hne
      by_cases heq : other = thread
      · obtain ⟨rfl, -⟩ : job = shared ∧ Phase.freeing (index + 1) = phase := by
          simpa [setWork, heq] using hother
        exact ⟨.freeing index, heq ▸ hwork, by simp⟩
      · exact ⟨phase, (Function.update_of_ne heq ..).symm.trans hother, hne⟩
    obtain ⟨_, hold, hne⟩ := hbefore first phase hfirst hne
    obtain ⟨_, hold', hne'⟩ := hbefore second phase' hsecond hne'
    exact h.alone first second shared _ _ hold hold' hne hne'
  · have hlength := List.length_erase_le (a := job) (l := l.policyState.1.customers)
    show ((l.policyState.1.customers.erase job).length : ℤ) ≤ cap
    have hroom' : (l.policyState.1.customers.length : ℤ) ≤ cap := hroom
    omega
  · intro other
    show other ∈ l.policyState.1.customers.erase job ↔ _
    have hbefore : other ∈ l.policyState.1.customers ↔ IsCustomer l.work l.queuePolicies other :=
      hmem other
    rw [List.Nodup.mem_erase_iff hnodup, hbefore]
    constructor
    · rintro ⟨hne, holder, phase, hholder, hfree⟩
      have hother : holder ≠ thread := by
        rintro rfl
        rw [hwork] at hholder
        cases hholder
        exact hne rfl
      exact ⟨holder, phase, (Function.update_of_ne hother ..).trans hholder, hfree⟩
    · rintro ⟨holder, phase, hholder, hfree⟩
      by_cases hother : holder = thread
      · obtain ⟨rfl, rfl⟩ : job = other ∧ Phase.freeing (index + 1) = phase := by
          simpa [setWork, hother] using hholder
        exact absurd hfree hgone
      · have hheld : l.work holder = some (other, phase) :=
          (Function.update_of_ne hother ..).symm.trans hholder
        refine ⟨?_, holder, phase, hheld, hfree⟩
        rintro rfl
        refine hother (h.alone holder thread other phase _ hheld hwork ?_ (by simp))
        rintro rfl
        exact hfree

theorem Restricted.move (hconserved : l.Conserved) (hends : l.EndsKnown S.addRestriction)
    (h : l.Restricted cap) (hmove : Move S.addRestriction (keepsRestriction S) l l') :
    l'.Restricted cap := by
  cases hmove with
  | note _ _ | enqueue _ _ | takeOut _ _ | clear => exact ⟨h.alone, h.booked⟩
  | refuse hscan =>
      obtain ⟨_, ⟨hcap, hperm⟩, _⟩ := State.scan_eq_none
        (keptByRefusals_customers (S := S) l.queuePolicies l.policyState.1) ⟨rfl, .refl _⟩ hscan
      exact h.of_perm rfl rfl hcap hperm
  | assign thread hidle hscan => exact h.assign hconserved hends hidle hscan
  | prepare hwork | begin hwork | run hwork | finish hwork =>
      refine h.of_turn rfl rfl rfl ?_ ?_
      · rintro job phase heq -
        cases heq
        exact ⟨_, hwork, by simp⟩
      · intro job
        rw [hwork]
        simp [Phase.yetToFree]
  | leave hwork =>
      refine h.of_turn rfl rfl rfl (by simp) fun job => ?_
      rw [hwork]
      simp [Phase.yetToFree]
  | @free thread job index policy hwork hpolicy =>
      cases policy with
      | none => exact h.free hwork hpolicy
      | some policy =>
          refine h.of_turn rfl rfl rfl ?_ ?_
          · rintro other phase heq -
            cases heq
            exact ⟨_, hwork, by simp⟩
          · intro other
            obtain ⟨hlt, hget⟩ := List.getElem?_eq_some_iff.mp hpolicy
            rw [hwork]
            constructor
            · rintro ⟨phase, heq, hfree⟩
              cases heq
              exact ⟨_, rfl, by
                rw [Phase.yetToFree, List.drop_eq_getElem_cons hlt]
                exact List.mem_cons_of_mem _ hfree⟩
            · rintro ⟨phase, heq, hfree⟩
              cases heq
              rw [Phase.yetToFree, List.drop_eq_getElem_cons hlt, hget] at hfree
              exact ⟨_, rfl, (List.mem_cons.mp hfree).resolve_left (by simp)⟩
  | @freed thread job index hwork hnone =>
      refine h.of_turn rfl rfl rfl ?_ ?_
      · rintro other phase heq hne
        cases heq
        exact absurd rfl hne
      · intro other
        have hend : (l.queuePolicies job).drop index = [] :=
          List.drop_eq_nil_of_le (List.getElem?_eq_none_iff.mp hnone)
        rw [hwork]
        constructor
        · rintro ⟨phase, heq, hfree⟩
          cases heq
          exact hfree.elim
        · rintro ⟨phase, heq, hfree⟩
          cases heq
          rw [Phase.yetToFree, hend] at hfree
          cases hfree
  | configure ops hmay =>
      have hnew : ∀ job, l.status job = .new → ∀ thread phase,
          l.work thread = some (job, phase) → phase = .returned :=
        fun job hnew => returned_of_new hconserved hends hnew
      have hfold : ∀ (ops : List (PolicyOp J (Option P) (RestrictionCall J ε)))
          (policies : (J → List (Option P)) × Restriction J × τ),
          l.RespectsAll S policies ops → Booked cap l.work policies →
          Booked cap l.work (ops.foldl (State.applyPolicyOp S.addRestriction) policies) := by
        intro ops
        induction ops with
        | nil => exact fun _ _ hbooked => hbooked
        | cons op rest ih =>
            exact fun policies hall hbooked => ih _ hall.2 (hbooked.applyPolicyOp hnew hall.1)
      exact ⟨h.alone, hfold ops _ hmay h.booked⟩

end Ledger

/-! ## Runs -/

section Runs

variable [DecidableEq T] {start : Start J (Option P) (Restriction J × τ)}
  {s : State J (Option P) T (Restriction J × τ) (RestrictionCall J ε)}

theorem runs_restricted (hcap : 0 ≤ cap) (hstart : start.policyState.1 = ⟨cap, []⟩)
    (hrun : Runs S.addRestriction (keepsRestriction S).Allows start s) :
    s.ledger.Conserved ∧ s.ledger.Restricted cap := by
  have hmoves : Ledger.Moves S.addRestriction (keepsRestriction S) _ _ :=
    runs_moves (fun _ _ h => h) hrun
  suffices h : s.ledger.Conserved ∧ s.ledger.EndsKnown S.addRestriction ∧
      s.ledger.Restricted cap from ⟨h.1, h.2.2⟩
  generalize s.ledger = l at hmoves
  induction hmoves with
  | refl =>
      refine ⟨Ledger.conserved_init start, Ledger.endsKnown_init start, ?_, start.nodup, ?_, ?_, ?_,
        ?_⟩
      · simp [State.ledger, init, WorkerPc.work?]
      · simp [State.ledger, init, hstart]
      · simpa [State.ledger, init, hstart] using hcap
      · simp [State.ledger, init, hstart]
      · simp [State.ledger, init, hstart, IsCustomer, WorkerPc.work?]
  | tail _ hmove ih =>
      obtain ⟨hconserved, hends, hrestricted⟩ := ih
      exact ⟨hconserved.move trivial hmove, hends.move hconserved trivial hmove,
        hrestricted.move hconserved hends hmove⟩

omit [DecidableEq J] [DecidableEq P] [DecidableEq T] in
theorem isCustomer_ledger {job : J} :
    IsCustomer s.ledger.work s.queuePolicies job ↔ s.HoldsRestriction job := by
  refine exists₂_congr fun thread phase => and_congr_left fun _ => ?_
  show (s.worker thread).pc.work? = _ ↔ _
  cases (s.worker thread).pc <;> simp [WorkerPc.work?]

/-- **The cap of a restriction is kept and no slot is lost**, as long as no policy is removed from
a job so that the restriction is not freed any more: the customers are the jobs that carry the
restriction, were assigned and have not been freed of it, each once.  So at most as many as the
cap are executed at the same time, and there are none while nobody has such a job. -/
theorem restriction_kept (hcap : 0 ≤ cap) (hstart : start.policyState.1 = ⟨cap, []⟩)
    (hrun : Runs S.addRestriction (keepsRestriction S).Allows start s) :
    s.policyState.1.customers.Nodup ∧
    (∀ job, job ∈ s.policyState.1.customers ↔ s.HoldsRestriction job) ∧
    (∀ jobs : Finset J, (∀ job ∈ jobs, none ∈ s.queuePolicies job ∧
      ∃ thread, (s.worker thread).pc.job? = some job) → (jobs.card : ℤ) ≤ cap) ∧
    ((∀ job, none ∈ s.queuePolicies job → ∀ thread phase,
      (s.worker thread).pc ≠ .busy job phase) → s.policyState.1.customers = []) := by
  obtain ⟨hlists, hfixed, hroom, hnodup, hmem⟩ := (runs_restricted hcap hstart hrun).2.booked
  have hcustomers : ∀ job, job ∈ s.policyState.1.customers ↔ s.HoldsRestriction job :=
    fun job => (hmem job).trans isCustomer_ledger
  refine ⟨hnodup, hcustomers, ?_, ?_⟩
  · intro jobs hjobs
    have hsubset : jobs ⊆ s.policyState.1.customers.toFinset := by
      intro job hjob
      obtain ⟨hcarries, thread, hjob⟩ := hjobs job hjob
      rw [List.mem_toFinset, hcustomers]
      cases hpc : (s.worker thread).pc with
      | busy held phase =>
          rw [hpc] at hjob
          simp only [WorkerPc.job?, Option.ite_none_right_eq_some, Option.some.injEq] at hjob
          obtain ⟨hbefore, rfl⟩ := hjob
          exact ⟨thread, phase, hpc, Phase.yetToFree_of_beforeEnd hbefore hcarries⟩
      | started | applyForWork _ | dispatched _ _ | waitForAvailableJob _ | blockThread _
      | waiting _ | woken _ | exited =>
          rw [hpc] at hjob
          cases hjob
    have hcard := (Finset.card_le_card hsubset).trans (List.toFinset_card_le _)
    have hroom' : (s.policyState.1.customers.length : ℤ) ≤ cap := hroom
    omega
  · intro hnobody
    refine List.eq_nil_iff_forall_not_mem.mpr fun job hjob => ?_
    obtain ⟨thread, phase, hpc, hfree⟩ := (hcustomers job).mp hjob
    exact hnobody job (Phase.mem_of_yetToFree hfree) thread phase hpc

end Runs

end

/-- The program changes policies in one way only. -/
def ChangesOnly (ops : List (PolicyOp ℕ (Option Unit) (RestrictionCall ℕ Empty)))
    (s : State ℕ (Option Unit) Unit (Restriction ℕ × (Unit → ℕ)) (RestrictionCall ℕ Empty))
    (action : Act ℕ (Option Unit) Unit (RestrictionCall ℕ Empty)) : Prop :=
  KeepsRunning s action ∧ EnqueuesNew s action ∧ ∀ changed ∈ action.ops?, changed = ops

instance (ops : List (PolicyOp ℕ (Option Unit) (RestrictionCall ℕ Empty)))
    (s : State ℕ (Option Unit) Unit (Restriction ℕ × (Unit → ℕ)) (RestrictionCall ℕ Empty))
    (action : Act ℕ (Option Unit) Unit (RestrictionCall ℕ Empty)) :
    Decidable (ChangesOnly ops s action) :=
  inferInstanceAs (Decidable (_ ∧ _ ∧ _))

/-- Two jobs are given a restriction to one: job 1 has the slot, and job 0 waits for it. -/
theorem restriction_kept_one_slot :
    ∃ s : State ℕ (Option Unit) Unit (Restriction ℕ × (Unit → ℕ)) (RestrictionCall ℕ Empty),
      (s.worker 0).pc = .busy 1 .running ∧ (s.worker 1).pc = .waiting false ∧
        s.assignments = [0] ∧ s.HoldsRestriction 1 ∧ s.policyState.1.customers.Nodup ∧
        ∀ jobs : Finset ℕ, (∀ job ∈ jobs, none ∈ s.queuePolicies job ∧
          ∃ thread, (s.worker thread).pc.job? = some job) → (jobs.card : ℤ) ≤ 1 := by
  obtain ⟨s, hrun, hbusy, hwaits, hlist, hcustomers⟩ :
      ∃ s : State ℕ (Option Unit) Unit (Restriction ℕ × (Unit → ℕ)) (RestrictionCall ℕ Empty),
        Runs numbered.addRestriction
          (fun s action =>
            ChangesOnly [.assignQueuePolicy 0 none, .assignQueuePolicy 1 none] s action ∧
              (action.ops?.isSome → s.status 0 = .new ∧ s.status 1 = .new))
          (.plain (⟨1, []⟩, fun _ => 0)) s ∧ _ :=
    Library.exists_runWhere
      (fun s => (s.worker 0).pc = .busy 1 .running ∧ (s.worker 1).pc = .waiting false ∧
        s.assignments = [0] ∧ s.policyState.1.customers = [1])
      [.setMaximumNumberOfThreads 2,
        .configure () [.assignQueuePolicy 0 none, .assignQueuePolicy 1 none], .proceed (),
        .enqueue [some 0, some 1], .worker 0, .worker 0, .worker 0, .worker 0, .worker 0,
        .worker 1, .worker 1, .worker 1] (by decide +kernel)
  have hallowed : Runs numbered.addRestriction (keepsRestriction numbered).Allows _ s :=
    hrun.mono fun s action h => by
      refine ⟨fun _ => h.1.2.1, fun ops hops => ?_⟩
      have hnew := h.2 (by rw [hops]; rfl)
      rw [h.1.2.2 ops hops]
      exact ⟨fun _ => hnew.1, fun _ => hnew.2, trivial⟩
  obtain ⟨hnodup, hmem, hcard, -⟩ := restriction_kept (by decide) rfl hallowed
  exact ⟨s, hbusy, hwaits, hlist, (hmem 1).mp (by simp [hcustomers]), hnodup, hcard⟩

/-- Jobs that carry a policy of their own and after it a restriction to one job. -/
def Start.carrying : Start ℕ (Option Unit) (Restriction ℕ × (Unit → ℕ)) where
  queuePolicies _ := [some (), none]
  nodup _ := by decide
  policyState := (⟨1, []⟩, fun _ => 0)

/-- **A slot can be lost.**  While the policies of job 0 are freed the one that has been freed
already is removed, and the loop passes over the restriction. -/
theorem restriction_leaked :
    ∃ s : State ℕ (Option Unit) Unit (Restriction ℕ × (Unit → ℕ)) (RestrictionCall ℕ Empty),
      Runs numbered.addRestriction (ChangesOnly [.removeQueuePolicy 0 (some ())]) .carrying s ∧
        s.policyState.1.customers = [0] ∧ .ended 0 .success ∈ s.log ∧
        ∀ job thread phase, (s.worker thread).pc ≠ .busy job phase := by
  obtain ⟨s, hrun, hcustomers, hended, hcreated, hpc⟩ :
      ∃ s : State ℕ (Option Unit) Unit (Restriction ℕ × (Unit → ℕ)) (RestrictionCall ℕ Empty),
        Runs numbered.addRestriction (ChangesOnly [.removeQueuePolicy 0 (some ())]) .carrying s ∧
          _ :=
    Library.exists_runWhere
      (fun s => s.policyState.1.customers = [0] ∧ .ended 0 .success ∈ s.log ∧
        s.createdThreads = 1 ∧ (s.worker 0).pc = .applyForWork true)
      (List.flatten [[.setMaximumNumberOfThreads 1, .enqueue [some 0]],
        List.replicate 8 (.worker 0),
        [.configure () [.removeQueuePolicy 0 (some ())], .proceed (), .worker 0, .worker 0]])
      (by decide +kernel)
  refine ⟨s, hrun, hcustomers, hended, fun job thread phase hbusy => ?_⟩
  cases thread with
  | zero =>
      rw [hpc] at hbusy
      cases hbusy
  | succ thread =>
      have hstarted := (runs_accounted_of_keepsRunning (hrun.mono fun _ _ h => h.1)).tallied.started
        (thread + 1) (by omega)
      rw [hstarted] at hbusy
      cases hbusy

end ThreadWeaver.Weaver
