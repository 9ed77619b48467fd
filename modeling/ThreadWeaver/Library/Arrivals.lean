import Mathlib.Algebra.Order.Group.Nat
import ThreadWeaver.Library.Insertion

/-!
# The order of arrival

Jobs arrive and leave, as a history says, and those that wait do so by falling priority and, among
equals, first come first.  When a job that waits has arrived is read off the history: an arrival is
a job together with a position in the history at which it arrived.

A job that has left may arrive again, and then it is the new arrival that counts.  So an arrival is
that of a job that waits only if every later arrival of the same job waits too, or the job has left
since.  Where no job arrives that waits already, this is the last arrival of the job
(`Arrivals.eq_of_last`).
-/

namespace Library

variable {E J : Type*}

/-- The job that arrives with an event, and the one that leaves. -/
structure Traffic (E J : Type*) where
  arrives : E → Option J
  leaves : E → Option J

namespace Traffic

variable (traffic : Traffic E J) {history more : List E} {position : ℕ} {job : J}

/-- The job arrives at this position of the history. -/
def ArrivesAt (history : List E) (position : ℕ) (job : J) : Prop :=
  ∃ event, history[position]? = some event ∧ traffic.arrives event = some job

/-- The job leaves at this position of the history. -/
def LeavesAt (history : List E) (position : ℕ) (job : J) : Prop :=
  ∃ event, history[position]? = some event ∧ traffic.leaves event = some job

variable {traffic}

theorem ArrivesAt.lt_length (h : traffic.ArrivesAt history position job) :
    position < history.length := by
  obtain ⟨event, hevent, -⟩ := h
  exact (List.getElem?_eq_some_iff.mp hevent).1

theorem ArrivesAt.append (h : traffic.ArrivesAt history position job) (more : List E) :
    traffic.ArrivesAt (history ++ more) position job := by
  have hlt := h.lt_length
  obtain ⟨event, hevent, harrives⟩ := h
  exact ⟨event, by rw [List.getElem?_append_left hlt, hevent], harrives⟩

theorem LeavesAt.append (h : traffic.LeavesAt history position job) (more : List E) :
    traffic.LeavesAt (history ++ more) position job := by
  obtain ⟨event, hevent, hleaves⟩ := h
  have hlt := (List.getElem?_eq_some_iff.mp hevent).1
  exact ⟨event, by rw [List.getElem?_append_left hlt, hevent], hleaves⟩

theorem ArrivesAt.of_append (h : traffic.ArrivesAt (history ++ more) position job)
    (hmore : ∀ event ∈ more, traffic.arrives event ≠ some job) :
    traffic.ArrivesAt history position job := by
  obtain ⟨event, hevent, harrives⟩ := h
  rcases Nat.lt_or_ge position history.length with hlt | hge
  · rw [List.getElem?_append_left hlt] at hevent
    exact ⟨event, hevent, harrives⟩
  · rw [List.getElem?_append_right hge] at hevent
    exact absurd harrives (hmore event (List.mem_of_getElem? hevent))

theorem leavesAt_append {event : E} (hmem : event ∈ more)
    (hleaves : traffic.leaves event = some job) :
    ∃ left ≥ history.length, traffic.LeavesAt (history ++ more) left job := by
  obtain ⟨index, hindex⟩ := List.mem_iff_getElem?.mp hmem
  refine ⟨history.length + index, Nat.le_add_right _ _, event, ?_, hleaves⟩
  rw [List.getElem?_append_right (Nat.le_add_right _ _), Nat.add_sub_cancel_left, hindex]

end Traffic

/-- The arrival goes before the other: the priority of the job is higher, or it is the same and the
job arrived earlier. -/
def Precedes (priority : J → ℤ) (arrival other : ℕ × J) : Prop :=
  priority other.2 < priority arrival.2 ∨
    priority other.2 = priority arrival.2 ∧ arrival.1 < other.1

/-- The arrivals of the jobs that wait, in order.  The job has arrived where it says, and a later
arrival of the same job waits too or the job has left since. -/
structure Arrivals (traffic : Traffic E J) (priority : J → ℤ) (history : List E)
    (arrivals : List (ℕ × J)) : Prop where
  ordered : arrivals.Pairwise (Precedes priority)
  arrived : ∀ arrival ∈ arrivals, traffic.ArrivesAt history arrival.1 arrival.2
  last : ∀ arrival ∈ arrivals, ∀ later > arrival.1, traffic.ArrivesAt history later arrival.2 →
    (later, arrival.2) ∈ arrivals ∨ ∃ left > later, traffic.LeavesAt history left arrival.2

/-- The jobs wait in the order of their arrivals. -/
def InOrder (traffic : Traffic E J) (priority : J → ℤ) (history : List E) (waiting : List J) :
    Prop :=
  ∃ arrivals, Arrivals traffic priority history arrivals ∧ arrivals.map Prod.snd = waiting

variable {traffic : Traffic E J} {priority : J → ℤ} {history more : List E}

namespace Arrivals

variable {arrivals fewer : List (ℕ × J)}

/-- Some of the jobs leave, and none arrives. -/
theorem leave (h : Arrivals traffic priority history arrivals) (hsub : fewer.Sublist arrivals)
    (hnone : ∀ event ∈ more, traffic.arrives event = none)
    (hleft : ∀ arrival ∈ arrivals, arrival ∉ fewer →
      ∃ event ∈ more, traffic.leaves event = some arrival.2) :
    Arrivals traffic priority (history ++ more) fewer where
  ordered := h.ordered.sublist hsub
  arrived arrival hmem := (h.arrived arrival (hsub.subset hmem)).append more
  last arrival hmem later hlater hagain := by
    have hbefore : traffic.ArrivesAt history later arrival.2 := by
      refine hagain.of_append fun event hevent => ?_
      simp [hnone event hevent]
    rcases h.last arrival (hsub.subset hmem) later hlater hbefore with hwaits | ⟨left, hgt, hleaves⟩
    · by_cases hfewer : (later, arrival.2) ∈ fewer
      · exact .inl hfewer
      · obtain ⟨event, hevent, hleaves⟩ := hleft _ hwaits hfewer
        obtain ⟨left, hge, hleaves⟩ : ∃ left ≥ history.length,
            traffic.LeavesAt (history ++ more) left arrival.2 :=
          Traffic.leavesAt_append hevent hleaves
        exact .inr ⟨left, hbefore.lt_length.trans_le hge, hleaves⟩
    · exact .inr ⟨left, hgt, hleaves.append more⟩

/-- A job arrives and is inserted from the back. -/
theorem arrive (h : Arrivals traffic priority history arrivals) {event : E} {job : J}
    (hevent : traffic.arrives event = some job) :
    Arrivals traffic priority (history ++ [event])
      (insertFromBack (priority ∘ Prod.snd) (history.length, job) arrivals) where
  ordered := by
    have hearlier : ∀ arrival ∈ arrivals, arrival.1 < history.length := fun arrival hmem =>
      (h.arrived arrival hmem).lt_length
    refine pairwise_insertFromBack ?_ h.ordered ?_ ?_
    · intro arrival other hprecedes
      simp only [Function.comp_apply]
      rcases hprecedes with hlt | ⟨heq, -⟩
      · exact hlt.le
      · exact heq.le
    · intro arrival hmem hle
      rcases lt_or_eq_of_le hle with hlt | heq
      · exact .inl hlt
      · exact .inr ⟨heq, hearlier arrival hmem⟩
    · exact fun arrival _ hlt => .inl hlt
  arrived arrival hmem := by
    rcases mem_insertFromBack.mp hmem with rfl | hmem
    · exact ⟨event, by simp, hevent⟩
    · exact (h.arrived arrival hmem).append _
  last arrival hmem later hlater hagain := by
    rw [mem_insertFromBack]
    rcases Nat.lt_or_ge later history.length with hlt | hge
    · -- an arrival before the new one
      have hbefore : traffic.ArrivesAt history later arrival.2 := by
        obtain ⟨other, hother, harrives⟩ := hagain
        rw [List.getElem?_append_left hlt] at hother
        exact ⟨other, hother, harrives⟩
      rcases mem_insertFromBack.mp hmem with rfl | hmem
      · exact absurd hlater (Nat.lt_asymm hlt)
      · rcases h.last arrival hmem later hlater hbefore with hwaits | ⟨left, hgt, hleaves⟩
        · exact .inl (.inr hwaits)
        · exact .inr ⟨left, hgt, hleaves.append _⟩
    · -- the new one
      have hlast : later = history.length := by
        have := hagain.lt_length
        rw [List.length_append, List.length_singleton] at this
        omega
      subst hlast
      obtain ⟨other, hother, harrives⟩ := hagain
      rw [List.getElem?_concat_length, Option.some.injEq] at hother
      rw [← hother, hevent, Option.some.injEq] at harrives
      exact .inl (.inl (by rw [harrives]))

/-- **The arrival of a job is its last one**, if no job waits twice and this one has not left
since. -/
theorem eq_of_last (h : Arrivals traffic priority history arrivals)
    (hnodup : (arrivals.map Prod.snd).Nodup) {position : ℕ} {job : J}
    (hmem : (position, job) ∈ arrivals) {last : ℕ} (hlast : traffic.ArrivesAt history last job)
    (hlater : ∀ later > last, ¬ traffic.ArrivesAt history later job ∧
      ¬ traffic.LeavesAt history later job) : position = last := by
  rcases Nat.lt_trichotomy position last with hlt | rfl | hgt
  · rcases h.last _ hmem last hlt hlast with hwaits | ⟨left, hgt, hleaves⟩
    · have hsame := List.inj_on_of_nodup_map hnodup hmem hwaits rfl
      exact congrArg Prod.fst hsame
    · exact absurd hleaves (hlater left hgt).2
  · rfl
  · exact absurd (h.arrived _ hmem) (hlater position hgt).1

end Arrivals

namespace InOrder

variable {waiting : List J} {event : E} {job : J}

theorem nil : InOrder traffic priority ([] : List E) [] :=
  ⟨[], ⟨List.Pairwise.nil, by simp, by simp⟩, rfl⟩

theorem arrive (h : InOrder traffic priority history waiting)
    (hevent : traffic.arrives event = some job) :
    InOrder traffic priority (history ++ [event]) (insertFromBack priority job waiting) := by
  obtain ⟨arrivals, harrivals, rfl⟩ := h
  exact ⟨_, harrivals.arrive hevent, (insertFromBack_map _ _ _).symm⟩

theorem note (h : InOrder traffic priority history waiting)
    (hnone : ∀ event ∈ more, traffic.arrives event = none) :
    InOrder traffic priority (history ++ more) waiting := by
  obtain ⟨arrivals, harrivals, rfl⟩ := h
  exact ⟨arrivals, harrivals.leave (List.Sublist.refl _) hnone fun _ hmem hnot =>
    absurd hmem hnot, rfl⟩

/-- One job leaves. -/
theorem leave {front back : List J} (h : InOrder traffic priority history waiting)
    (hwaiting : waiting = front ++ job :: back) (hnone : traffic.arrives event = none)
    (hevent : traffic.leaves event = some job) :
    InOrder traffic priority (history ++ [event]) (front ++ back) := by
  obtain ⟨arrivals, harrivals, hmap⟩ := h
  obtain ⟨before, rest, rfl, rfl, hrest⟩ := List.map_eq_append_iff.mp (hmap.trans hwaiting)
  obtain ⟨arrival, after, rfl, rfl, rfl⟩ := List.map_eq_cons_iff.mp hrest
  refine ⟨before ++ after, harrivals.leave ?_ ?_ ?_, List.map_append⟩
  · exact (List.sublist_cons_self _ _).append_left before
  · simpa using hnone
  · intro other hmem hnot
    have hother : other = arrival := by
      simp only [List.mem_append, List.mem_cons] at hmem hnot
      tauto
    exact ⟨event, List.mem_singleton_self _, by rw [hevent, hother]⟩

theorem leaveAll (h : InOrder traffic priority history waiting)
    (hnone : ∀ event ∈ more, traffic.arrives event = none)
    (hevent : ∀ job ∈ waiting, ∃ event ∈ more, traffic.leaves event = some job) :
    InOrder traffic priority (history ++ more) [] := by
  obtain ⟨arrivals, harrivals, rfl⟩ := h
  refine ⟨[], harrivals.leave (List.nil_sublist _) hnone fun arrival hmem _ => ?_, rfl⟩
  exact hevent arrival.2 (List.mem_map_of_mem hmem)

end InOrder

end Library
