import ThreadWeaver.Collection.Fair

/-!
# Ranks of resource restrictions

A Collection that carries a restriction holds its slot while it waits for its elements.  If these
need the same slot nobody gets any further: the collection waits for an element that waits for the
collection.  The same happens around a longer cycle of collections.

Resources that are taken in the order of their ranks are safe.  Suppose that the restrictions of a
job rank above those of the collections around it, and consider a restriction without room when no
worker is active.  Its customers are collections that wait.  Under each of them a job is ready, and
if that is not accepted, a restriction of a higher rank has no room.  There are finitely many
restrictions, so one of these jobs is accepted.
-/

namespace ThreadWeaver.Collection

open Filter
open Library (FairSchedule)

variable {J P T R σ : Type*} [DecidableEq J] [DecidableEq R] [DecidableEq T]

/-- The restrictions of a job rank above those of the collections around it. -/
def Forest.Ranks (F : Forest J P σ) (rank : R → ℕ) (carries : J → List R) : Prop :=
  ∀ collection job, F.Around collection job →
    ∀ outer ∈ carries collection, ∀ inner ∈ carries job, rank outer < rank inner

section

variable {F : Forest J P σ} {cap : R → ℤ} {carries : J → List R}
  {hnodup : ∀ job, (carries job).Nodup} {s : State J R T (R → Restriction J)} {job : J}

theorem waiting_of_occupies
    (run : Runs (F.withRestrictions R) Undisturbed (restricting cap carries hnodup) s)
    (hidle : s.data.active = 0) (hoccupies : s.data.Occupies job) :
    s.data.place job = .waiting := by
  obtain ⟨hassigned, hunfreed⟩ := hoccupies
  have hended : (s.data.place job).isEnded ≠ true := by
    intro hended
    have hlog : ∃ status, .ended job status ∈ s.data.log :=
      (runs_recorded run).isEnded_iff.mp hended
    exact hunfreed (.inr hlog)
  cases hplace : s.data.place job with
  | waiting => rfl
  | held stage thread =>
      obtain ⟨rfl, -⟩ := (runs_staffed run).held_of_idle (runs_sound run) hidle hplace
      rw [hplace] at hassigned
      cases hassigned
  | reported =>
      rw [hplace] at hended
      exact absurd rfl hended
  | fresh | queued | discounted | lost =>
      rw [hplace] at hassigned
      cases hassigned

theorem offers_of_room (hcap : ∀ restriction, 1 ≤ cap restriction)
    (run : Runs (F.withRestrictions R) Undisturbed (restricting cap carries hnodup) s)
    (hready : s.data.IsReady job) (hroom : ∀ restriction ∈ carries job,
      ((s.data.policyState restriction).customers.length : ℤ) < cap restriction) :
    s.Offers (F.withRestrictions R) (restricting cap carries hnodup) job where
  isReady := hready
  accepts s' run' hagrees := by
    have hcap' : ∀ restriction, 0 ≤ cap restriction := fun restriction =>
      le_trans Int.one_nonneg (hcap restriction)
    have hbefore := runs_restricted hcap' run
    have hafter := runs_restricted hcap' run'
    refine (PolicyObjects.accepts (hnodup job) _).mpr fun restriction hmem => ?_
    have hoccupies : ∀ other, s'.data.Occupies other ↔ s.data.Occupies other := by
      intro other
      unfold Data.Occupies
      rw [hagrees.place, hagrees.freed]
    have hperm : (s'.data.policyState restriction).customers.Perm
        (s.data.policyState restriction).customers := by
      refine (List.perm_ext_iff_of_nodup (hafter.nodup restriction)
        (hbefore.nodup restriction)).mpr fun other => ?_
      rw [hafter.customers, hbefore.customers, hoccupies]
    have hlt : ((s'.data.policyState restriction).customers.length : ℤ) <
        (s'.data.policyState restriction).cap := by
      rw [hafter.fixed, hperm.length_eq]
      exact hroom restriction hmem
    simp only [restrictions, Restriction.canRun, if_pos hlt]

/-- Under a restriction without room a job is accepted, or a restriction of a higher rank has no
room either. -/
theorem Forest.Ranks.offers_or_higher {rank : R → ℕ} (hranks : F.Ranks rank carries)
    (hcap : ∀ restriction, 1 ≤ cap restriction)
    (run : Runs (F.withRestrictions R) Undisturbed (restricting cap carries hnodup) s)
    (hidle : s.data.active = 0) {full : R}
    (hfull : cap full ≤ (s.data.policyState full).customers.length) :
    (∃ ready, s.Offers (F.withRestrictions R) (restricting cap carries hnodup) ready) ∨
      ∃ higher, rank full < rank higher ∧
        cap higher ≤ (s.data.policyState higher).customers.length := by
  have hrestricted := runs_restricted (fun restriction =>
    le_trans Int.one_nonneg (hcap restriction)) run
  -- a customer is a collection that waits, and under it a job is ready
  obtain ⟨collection, hcustomer⟩ : ∃ collection,
      collection ∈ (s.data.policyState full).customers := by
    apply List.exists_mem_of_length_pos
    have hone := hcap full
    omega
  obtain ⟨hcarries, hoccupies⟩ := (hrestricted.customers full collection).mp hcustomer
  have hwaiting := waiting_of_occupies run hidle hoccupies
  obtain ⟨ready, hunder, hready⟩ := runs_isReady_under run hidle hwaiting
  have haround : F.Around collection ready := by
    rcases hunder.cases_tail with heq | ⟨last, hlast, hparent⟩
    · have hqueued : s.data.place ready = .queued := hready.1
      rw [heq, hwaiting] at hqueued
      cases hqueued
    · exact ⟨last, hparent, hlast⟩
  by_cases hroom : ∀ restriction ∈ carries ready,
      ((s.data.policyState restriction).customers.length : ℤ) < cap restriction
  · exact .inl ⟨ready, offers_of_room hcap run hready hroom⟩
  · simp only [not_forall, not_lt] at hroom
    obtain ⟨higher, hmem, hnone⟩ := hroom
    exact .inr ⟨higher, hranks collection ready haround full hcarries higher hmem, hnone⟩

/-- **Ranked restrictions do not hold up the queue.** -/
theorem Forest.Ranks.finds [Finite R] {rank : R → ℕ} (hranks : F.Ranks rank carries)
    (hcap : ∀ restriction, 1 ≤ cap restriction) :
    FindsWhenIdle (F.withRestrictions R) (restricting cap carries hnodup) T := by
  intro s run hidle hne
  obtain ⟨job, hmem⟩ := List.exists_mem_of_ne_nil _ hne
  obtain ⟨ready, hready⟩ := runs_exists_isReady run hidle hmem
  by_cases hroom : ∀ restriction ∈ carries ready,
      ((s.data.policyState restriction).customers.length : ℤ) < cap restriction
  · exact ⟨ready, offers_of_room hcap run hready hroom⟩
  · simp only [not_forall, not_lt] at hroom
    obtain ⟨restriction, -, hnone⟩ := hroom
    -- of the restrictions without room, one has the highest rank
    obtain ⟨full, hfull, hhighest⟩ := Set.exists_max_image
      {full | cap full ≤ (s.data.policyState full).customers.length} rank (Set.toFinite _)
      ⟨restriction, hnone⟩
    rcases hranks.offers_or_higher hcap run hidle hfull with hoffers | ⟨higher, hlt, hnone'⟩
    · exact hoffers
    · exact absurd (hhighest higher hnone') (not_le_of_gt hlt)

variable {pool : Set ℕ} {states : ℕ → State J R T (R → Restriction J)} {threads : ℕ → Thread T}

/-- **Nested work with ranked restrictions is done.**  Any jobs of a forest may carry restrictions
with caps of at least one, if those of a job rank above those of the collections around it.  When
nobody has called `stop` or `requestAbort` and no new call is made, every fair schedule of the
callers and of a pool of workers reaches a time from which on the weaver is idle and everything
enqueued has ended or was dequeued after an unsuccessful element of its Sequence; every call
returns. -/
theorem ranked_restrictions_drain [Fintype J] [Finite R] {rank : R → ℕ}
    (hranks : F.Ranks rank carries) (hcap : ∀ restriction, 1 ≤ cap restriction)
    (hpool : pool.Nonempty)
    (run : Runs (F.withRestrictions R) Undisturbed (restricting cap carries hnodup) s)
    (hrest : s.OthersRest pool) (hstart : states 0 = s)
    (hschedule : FairSchedule (fun s thread => step (F.withRestrictions R) s (.run thread))
      (crew pool) states threads) :
    (∀ᶠ i in atTop, (states i).data.isIdleP = true ∧
        AllDone (F.withRestrictions R) (states i).data.log) ∧
      ∀ caller, ∀ᶠ i in atTop, (states i).stack (.caller caller) = [] :=
  drains_of_finds hpool (hstart ▸ run) (hstart ▸ hrest) hschedule fun i =>
    hranks.finds hcap (states i)

end

/-- Without the ranks work gets stuck: a Collection and its element carry a restriction to one. -/
theorem restriction_not_found :
    ¬ FindsWhenIdle (pair.withRestrictions Unit)
      (restricting (fun _ => 1) (fun _ => [()]) fun _ => List.nodup_singleton ()) Unit := by
  intro hfinds
  obtain ⟨s, run, ⟨hidle, hlist, hroom⟩, -⟩ :=
    exists_runs (pair.withRestrictions Unit) Undisturbed
      (restricting (fun _ => 1) (fun _ => [()]) fun _ => List.nodup_singleton ())
      (fun s : State (Fin 2) Unit Unit (Unit → Restriction (Fin 2)) => s.data.active = 0 ∧
        s.data.assignments = [1] ∧ ∀ job, ((restrictions (Fin 2) Unit).policies.canBeExecuted [()] job
          s.data.policyState).1 = false)
      (List.flatten [[.enqueue () [0]], List.replicate 3 (.run (.caller ())),
        List.replicate 14 (.run (.worker 0))]) (by decide +kernel)
  obtain ⟨ready, hoffers⟩ := hfinds s run hidle (by simp [hlist])
  have haccepts := hoffers.accepts s run (.refl _)
  exact absurd haccepts (by simpa [Forest.withRestrictions, restricting] using hroom ready)

/-- The Collection carries a restriction, and its elements share one of a higher rank; there are two
workers. -/
theorem ranked_restrictions_drain_twins :
    ∃ (s : State (Fin 3) (Fin 2) Unit (Fin 2 → Restriction (Fin 3)))
      (states : ℕ → State (Fin 3) (Fin 2) Unit (Fin 2 → Restriction (Fin 3))),
      s.data.assignments = [0] ∧ s.stack (.caller ()) = [.finish] ∧ states 0 = s ∧
        (∀ᶠ i in atTop, (states i).data.isIdleP = true ∧
          AllDone (twins.withRestrictions (Fin 2)) (states i).data.log) ∧
        ∀ᶠ i in atTop, (states i).stack (.caller ()) = [] := by
  let carries : Fin 3 → List (Fin 2) := ![[0], [1], [1]]
  let start : Weaver.Start (Fin 3) (Fin 2) (Fin 2 → Restriction (Fin 3)) :=
    restricting (fun _ => 1) carries (by decide)
  have hranks : twins.Ranks (fun restriction : Fin 2 => restriction.val) carries := by
    rintro outer job ⟨collection, hparent, hunder⟩
    have hroot : ∀ job collection : Fin 3, twins.parent job = some collection →
        collection = 0 ∧ ∀ outer ∈ carries 0, ∀ inner ∈ carries job, outer.val < inner.val := by
      decide
    obtain ⟨rfl, hlt⟩ := hroot job collection hparent
    have houter : outer = 0 := by
      have hle : 3 - 0 ≤ 3 - outer.val := hunder.height_le
      omega
    rw [houter]
    exact hlt
  obtain ⟨s, run, ⟨hlist, hfinish⟩, hframe⟩ :=
    exists_runs (twins.withRestrictions (Fin 2)) Undisturbed start
      (fun s : State (Fin 3) (Fin 2) Unit (Fin 2 → Restriction (Fin 3)) =>
        s.data.assignments = [0] ∧ s.stack (.caller ()) = [.finish])
      (List.flatten [[.enqueue () [0]], List.replicate 3 (.run (.caller ())), [.finish ()]])
      (by decide +kernel)
  have hpool : ({0, 1} : Set ℕ).Nonempty := ⟨0, by simp⟩
  have hrest : s.OthersRest {0, 1} := fun number _ => hframe (.worker number) (by simp [Act.thread])
  obtain ⟨states, threads, hstart, hschedule⟩ := runs_exists_fairSchedule hpool run hrest
  have hdrains := ranked_restrictions_drain hranks (fun _ => Int.le_refl 1) hpool run hrest hstart
    hschedule
  exact ⟨s, states, hlist, hfinish, hstart, hdrains.1, hdrains.2 ()⟩

end ThreadWeaver.Collection
