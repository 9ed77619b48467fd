import Mathlib.Data.Int.Notation
import Mathlib.Data.List.Nodup
import ThreadWeaver.QueuePolicy

/-!
# The resource restriction policy

`ResourceRestrictionPolicy` keeps the jobs it has let through as its customers, at most as
many as its cap.  `free`, `release` and `destructed` take one occurrence of the job out of
them.

The policy is one object among those of a program.  `withRestriction q` adds it, as `none`,
to the policies `q` of a program, which cannot see its customers.
-/

namespace ThreadWeaver

/-- `ResourceRestrictionPolicy::Private`. -/
structure Restriction (J : Type*) where
  cap : ℤ
  customers : List J
  deriving DecidableEq, Repr

namespace Restriction

variable {J : Type*}

/-- `ResourceRestrictionPolicy::canRun`. -/
def canRun (job : J) (restriction : Restriction J) : Bool × Restriction J :=
  if (restriction.customers.length : ℤ) < restriction.cap then
    (true, { restriction with customers := restriction.customers ++ [job] })
  else (false, restriction)

/-- `ResourceRestrictionPolicy::free`, which `release` and `destructed` call. -/
def free [DecidableEq J] (job : J) (restriction : Restriction J) : Restriction J :=
  { restriction with customers := restriction.customers.erase job }

/-- `ResourceRestrictionPolicy::setCap`. -/
def setCap (cap : ℤ) (restriction : Restriction J) : Restriction J :=
  { restriction with cap := cap }

theorem canRun_eq {job : J} {restriction : Restriction J}
    (h : (restriction.canRun job).1 = true) :
    (restriction.customers.length : ℤ) < restriction.cap ∧
      (restriction.canRun job).2 =
        { restriction with customers := restriction.customers ++ [job] } := by
  unfold canRun at h ⊢
  split at h
  · rename_i hroom
    exact ⟨hroom, by rw [if_pos hroom]⟩
  · cases h

theorem canRun_refused {job : J} {restriction : Restriction J}
    (h : (restriction.canRun job).1 = false) : (restriction.canRun job).2 = restriction := by
  unfold canRun at h ⊢
  split at h
  · cases h
  · rename_i hfull
    rw [if_neg hfull]

end Restriction

/-- The calls on policy objects that a program makes by itself: `setCap`, `destructed` from the
destructor of a job, and its own `ε` on its own policies. -/
inductive RestrictionCall (J ε : Type*)
  | setCap (cap : ℤ)
  | destructed (job : J)
  | other (call : ε)
  deriving DecidableEq, Repr

section

variable {J P σ ε : Type*} [DecidableEq J]

/-- The policies of a program together with one `ResourceRestrictionPolicy`, which is
`none`. -/
def withRestriction (q : QueuePolicies J P σ) : QueuePolicies J (Option P) (Restriction J × σ) where
  canRun
    | none, job, state => ((state.1.canRun job).1, (state.1.canRun job).2, state.2)
    | some policy, job, state =>
        ((q.canRun policy job state.2).1, state.1, (q.canRun policy job state.2).2)
  free
    | none, job, _, state => (state.1.free job, state.2)
    | some policy, job, status, state => (state.1, q.free policy job status state.2)
  release
    | none, job, state => (state.1.free job, state.2)
    | some policy, job, state => (state.1, q.release policy job state.2)

/-- What a call does to the state of the policies. -/
def RestrictionCall.apply (other : ε → σ → σ) :
    RestrictionCall J ε → Restriction J × σ → Restriction J × σ
  | setCap cap, state => (state.1.setCap cap, state.2)
  | destructed job, state => (state.1.free job, state.2)
  | .other call, state => (state.1, other call state.2)

variable [DecidableEq P] {q : QueuePolicies J P σ}

/-- The loop of an attempt adds the job to the customers for every acquisition of the policy, and
only below the cap. -/
theorem withRestriction_acquire (job : J) (policies : List (Option P))
    (state : Restriction J × σ) :
    ((withRestriction q).acquire job policies state).2.2.1.cap = state.1.cap ∧
      ((withRestriction q).acquire job policies state).2.2.1.customers = state.1.customers ++
        List.replicate (((withRestriction q).acquire job policies state).1.count none) job := by
  induction policies generalizing state with
  | nil => simp [QueuePolicies.acquire]
  | cons policy rest ih =>
      cases haccepts : ((withRestriction q).canRun policy job state).1 with
      | false =>
          have hsame : ((withRestriction q).canRun policy job state).2.1 = state.1 := by
            cases policy with
            | none => exact Restriction.canRun_refused haccepts
            | some policy => rfl
          simp [QueuePolicies.acquire, haccepts, hsame]
      | true =>
          obtain ⟨hcap, hcustomers⟩ := ih ((withRestriction q).canRun policy job state).2
          simp only [QueuePolicies.acquire, haccepts, if_true]
          rw [hcap, hcustomers]
          cases policy with
          | none =>
              have haccepts' : (state.1.canRun job).1 = true := haccepts
              have hstate : ((withRestriction q).canRun none job state).2.1 =
                  { state.1 with customers := state.1.customers ++ [job] } :=
                (Restriction.canRun_eq haccepts').2
              rw [hstate, List.count_cons_self, List.replicate_succ]
              simp
          | some policy =>
              have hstate : ((withRestriction q).canRun (some policy) job state).2.1 =
                  state.1 := rfl
              rw [hstate, List.count_cons_of_ne (by simp)]
              exact ⟨rfl, rfl⟩

/-- Releasing takes the job out of the customers for every policy released. -/
theorem withRestriction_releaseAll {job : J} {acquired : List (Option P)}
    {state : Restriction J × σ} {customers : List J}
    (h : state.1.customers.Perm (customers ++ List.replicate (acquired.count none) job)) :
    ((withRestriction q).releaseAll job acquired state).1.cap = state.1.cap ∧
      ((withRestriction q).releaseAll job acquired state).1.customers.Perm customers := by
  induction acquired generalizing state with
  | nil => simpa [QueuePolicies.releaseAll] using h
  | cons policy rest ih =>
      rw [QueuePolicies.releaseAll, List.foldl_cons]
      cases policy with
      | none =>
          have hone : (state.1.customers.erase job).Perm
              (customers ++ List.replicate (rest.count none) job) := by
            rw [List.count_cons_self, List.replicate_succ] at h
            have herased := (h.trans List.perm_middle).erase job
            rwa [List.erase_cons_head] at herased
          exact ih hone
      | some policy =>
          rw [List.count_cons_of_ne (by simp)] at h
          exact ih h

theorem withRestriction_refused {job : J} {policies : List (Option P)}
    {state : Restriction J × σ} (hrefused : ¬ (withRestriction q).Accepts policies job state) :
    ((withRestriction q).canBeExecuted policies job state).2.1.cap = state.1.cap ∧
      ((withRestriction q).canBeExecuted policies job state).2.1.customers.Perm
        state.1.customers := by
  rw [QueuePolicies.accepts_iff] at hrefused
  obtain ⟨hcap, hcustomers⟩ := withRestriction_acquire (q := q) job policies state
  unfold QueuePolicies.canBeExecuted
  dsimp only
  rw [if_neg hrefused]
  obtain ⟨hcap', hperm⟩ := withRestriction_releaseAll (q := q) (.of_eq hcustomers)
  exact ⟨hcap'.trans hcap, hperm⟩

/-- An accepted attempt makes the job a customer if it has the policy, and there was room. -/
theorem withRestriction_accepted {job : J} {policies : List (Option P)}
    {state : Restriction J × σ} (hnodup : policies.Nodup)
    (haccepts : (withRestriction q).Accepts policies job state) :
    ((withRestriction q).canBeExecuted policies job state).2.1.cap = state.1.cap ∧
      ((withRestriction q).canBeExecuted policies job state).2.1.customers =
        state.1.customers ++ (if none ∈ policies then [job] else []) ∧
      (none ∈ policies → (state.1.customers.length : ℤ) < state.1.cap) := by
  have hacquired := QueuePolicies.accepts_iff _ |>.mp haccepts
  obtain ⟨hcap, hcustomers⟩ := withRestriction_acquire (q := q) job policies state
  have hafter : ((withRestriction q).canBeExecuted policies job state).2 =
      ((withRestriction q).acquire job policies state).2.2 := by
    unfold QueuePolicies.canBeExecuted
    dsimp only
    rw [if_pos hacquired]
  rw [hafter]
  refine ⟨hcap, ?_, fun hmem => ?_⟩
  · rw [hcustomers, QueuePolicies.acquire_eq_of_success _ _ _ _ hacquired]
    split
    · rename_i hmem
      rw [List.count_eq_one_of_mem hnodup hmem, List.replicate_one]
    · rename_i hnot
      rw [List.count_eq_zero_of_not_mem hnot, List.replicate_zero]
  · -- the policies asked before this one take no customer away
    have hkeeps : ∀ policy (asked : Restriction J × σ),
        asked.1.cap = state.1.cap ∧ state.1.customers.length ≤ asked.1.customers.length →
        ((withRestriction q).canRun policy job asked).2.1.cap = state.1.cap ∧
          state.1.customers.length ≤
            ((withRestriction q).canRun policy job asked).2.1.customers.length := by
      rintro policy asked ⟨hcap, hlength⟩
      cases policy with
      | some policy => exact ⟨hcap, hlength⟩
      | none =>
          cases haccepts : (asked.1.canRun job).1 with
          | false =>
              have hsame := Restriction.canRun_refused haccepts
              simp only [withRestriction, hsame]
              exact ⟨hcap, hlength⟩
          | true =>
              have hmore := (Restriction.canRun_eq haccepts).2
              simp only [withRestriction, hmore, List.length_append]
              exact ⟨hcap, by omega⟩
    obtain ⟨asked, ⟨hcap, hlength⟩, hcanRun⟩ := QueuePolicies.canRun_of_accepts
      (I := fun asked : Restriction J × σ => asked.1.cap = state.1.cap ∧
        state.1.customers.length ≤ asked.1.customers.length)
      hkeeps ⟨rfl, Nat.le_refl _⟩ haccepts hmem
    have hroom := (Restriction.canRun_eq hcanRun).1
    omega

end

/-! ## Several restrictions -/

section

variable {J R : Type*} [DecidableEq J] [DecidableEq R]

variable (J R) in
/-- Several restrictions, each with customers of its own. -/
def restrictions : PolicyObjects J fun _ : R => Restriction J where
  canRun _ job restriction := restriction.canRun job
  free _ job _ restriction := restriction.free job
  release _ job restriction := restriction.free job

/-- The customers of both are the same, in whatever order. -/
def Restriction.Same (restriction other : Restriction J) : Prop :=
  restriction.cap = other.cap ∧ restriction.customers.Perm other.customers

namespace Restriction

omit [DecidableEq J] in
theorem same_equivalence : Equivalence (Same (J := J)) where
  refl _ := ⟨rfl, .refl _⟩
  symm h := ⟨h.1.symm, h.2.symm⟩
  trans h h' := ⟨h.1.trans h'.1, h.2.trans h'.2⟩

variable {restriction other : Restriction J} (job : J)

omit [DecidableEq J] in
theorem Same.canRun (h : restriction.Same other) :
    (restriction.canRun job).1 = (other.canRun job).1 ∧
      (restriction.canRun job).2.Same (other.canRun job).2 := by
  obtain ⟨hcap, hperm⟩ := h
  simp only [Restriction.canRun, hcap, hperm.length_eq]
  split
  · exact ⟨rfl, rfl, hperm.append_right [job]⟩
  · exact ⟨rfl, hcap, hperm⟩

theorem Same.free (h : restriction.Same other) : (restriction.free job).Same (other.free job) :=
  ⟨h.1, h.2.erase job⟩

theorem same_free_canRun (haccepts : (restriction.canRun job).1 = true) :
    ((restriction.canRun job).2.free job).Same restriction := by
  rw [(canRun_eq haccepts).2]
  refine ⟨rfl, ?_⟩
  have herased := (List.perm_append_singleton job restriction.customers).erase job
  rwa [List.erase_cons_head] at herased

omit [DecidableEq J] in
theorem same_canRun {job : J} (hrefuses : (restriction.canRun job).1 = false) :
    (restriction.canRun job).2.Same restriction := by
  rw [canRun_refused hrefuses]
  exact same_equivalence.refl restriction

end Restriction

omit [DecidableEq R] in
theorem restrictions_releaseUndoes :
    (restrictions J R).ReleaseUndoes fun _ => Restriction.Same where
  equivalence _ := Restriction.same_equivalence
  canRun _ job _ _ h := h.canRun job
  release _ job _ _ h := h.free job
  accepted _ job _ haccepts := Restriction.same_free_canRun job haccepts
  refused _ _ _ hrefuses := Restriction.same_canRun hrefuses

theorem restrictions_undoneUpTo : (restrictions J R).policies.UndoneUpTo
    fun state state' => ∀ restriction, (state restriction).Same (state' restriction) :=
  restrictions_releaseUndoes.undoneUpTo

end

end ThreadWeaver
