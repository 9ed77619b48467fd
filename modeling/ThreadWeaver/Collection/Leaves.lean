import ThreadWeaver.Collection.Halting
import ThreadWeaver.Library.UpTo

/-!
# The leaves of nested Sequences

The plain jobs in a tree of Sequences, from left to right, are what the tree is for.  In runs that
nobody disturbs they are executed in this order, each after the end of the one before it, up to and
including the first one that does not succeed; the Sequences above that one end with its status,
and the Sequences that end before with success.
-/

namespace ThreadWeaver.Collection

open Relation (ReflTransGen)
open Library (Ordered upToFirst)

variable {J P T σ : Type*}

/-! ## Trees -/

section Tree

variable (F : Forest J P σ)

/-- No job of the tree is a plain Collection. -/
def Forest.Sequential (root : J) : Prop :=
  ∀ job, F.Under root job → F.kind job ≠ .collection

/-- The leaves of a tree of at most this height. -/
def Forest.leavesWithin : ℕ → J → List J
  | 0, _ => []
  | height + 1, job =>
      if F.kind job = .plain then [job] else (F.elements job).flatMap (leavesWithin height)

/-- The plain jobs of the tree, from left to right. -/
def Forest.leaves (root : J) : List J :=
  F.leavesWithin (F.height root + 1) root

/-- The job succeeds when it is executed. -/
def Forest.succeeds (job : J) : Bool :=
  F.runStatus job = .success

/-- The status with which a job of the tree ends: that of the first leaf of the tree that does not
succeed if it contains this one, and success otherwise. -/
def Forest.endStatus [DecidableEq J] (root job : J) : Status :=
  match (F.leaves root).find? fun leaf => !F.succeeds leaf with
  | none => .success
  | some first => if first ∈ F.leaves job then F.runStatus first else .success

attribute [local simp] Forest.leavesWithin

variable {F} {root job element leaf : J}

/-- Induction over the nesting. -/
theorem Forest.induct {motive : J → Prop}
    (h : ∀ job, (∀ element, F.parent element = some job → motive element) → motive job)
    (job : J) : motive job := by
  suffices hall : ∀ height job, F.height job < height → motive job from
    hall _ job (Nat.lt_succ_self _)
  intro height
  induction height with
  | zero => exact fun _ hlt => absurd hlt (Nat.not_lt_zero _)
  | succ height ih =>
      intro job hlt
      refine h job fun element hparent => ih element ?_
      have := F.height_lt _ _ hparent
      omega

theorem Forest.leavesWithin_congr {n m : ℕ} (hn : F.height job < n) (hm : F.height job < m) :
    F.leavesWithin n job = F.leavesWithin m job := by
  induction n generalizing m job with
  | zero => exact absurd hn (Nat.not_lt_zero _)
  | succ n ih =>
      cases m with
      | zero => exact absurd hm (Nat.not_lt_zero _)
      | succ m =>
          simp only [Forest.leavesWithin]
          split
          · rfl
          · refine List.flatMap_congr fun element hmem => ?_
            have := F.height_lt _ _ ((F.mem_elements _ _).mp hmem)
            exact ih (by omega) (by omega)

theorem Forest.leaves_plain (h : F.kind job = .plain) : F.leaves job = [job] :=
  if_pos h

theorem Forest.leaves_eq (h : F.kind job ≠ .plain) :
    F.leaves job = (F.elements job).flatMap F.leaves := by
  rw [Forest.leaves, Forest.leavesWithin, if_neg h]
  refine List.flatMap_congr fun element hmem => ?_
  have := F.height_lt _ _ ((F.mem_elements _ _).mp hmem)
  exact Forest.leavesWithin_congr this (Nat.lt_succ_self _)

theorem Forest.mem_leaves : leaf ∈ F.leaves root ↔ F.Under root leaf ∧ F.kind leaf = .plain := by
  induction root using Forest.induct (F := F) with
  | h root ih =>
      by_cases hkind : F.kind root = .plain
      · rw [Forest.leaves_plain hkind, List.mem_singleton]
        constructor
        · rintro rfl
          exact ⟨.refl, hkind⟩
        · rintro ⟨hunder, -⟩
          rcases ReflTransGen.cases_head hunder with heq | ⟨element, hparent, -⟩
          · exact heq.symm
          · have hmem := (F.mem_elements _ _).mpr hparent
            rw [F.elements_plain root hkind] at hmem
            cases hmem
      · rw [Forest.leaves_eq hkind, List.mem_flatMap]
        constructor
        · rintro ⟨element, hmem, hleaf⟩
          have hparent := (F.mem_elements _ _).mp hmem
          obtain ⟨hunder, hplain⟩ := (ih element hparent).mp hleaf
          exact ⟨.head hparent hunder, hplain⟩
        · rintro ⟨hunder, hplain⟩
          rcases ReflTransGen.cases_head hunder with rfl | ⟨element, hparent, hnext⟩
          · exact absurd hplain hkind
          · exact ⟨element, (F.mem_elements _ _).mpr hparent, (ih element hparent).mpr ⟨hnext, hplain⟩⟩

theorem Forest.Sequential.under (h : F.Sequential root) (hunder : F.Under root job) :
    F.Sequential job := fun _ hjob => h _ (hunder.trans hjob)

theorem Forest.Sequential.of_parent (h : F.Sequential root) (hparent : F.parent element = some root) :
    F.Sequential element := h.under (.single hparent)

theorem Forest.Sequential.kind (h : F.Sequential root) (hkind : F.kind root ≠ .plain) :
    F.kind root = .sequence := by
  have hnot := h root .refl
  cases hcase : F.kind root with
  | plain => exact absurd hcase hkind
  | collection => exact absurd hcase hnot
  | sequence => rfl

end Tree

/-! ## What the state says about a tree -/

section State

variable [DecidableEq J] {F : Forest J P σ} {s : State J P T σ} {root job element leaf : J}

theorem State.Sound.assigned_of_under (hs : s.Sound F) (h : F.Under root job)
    (hassigned : (s.data.place job).isAssigned = true) :
    (s.data.place root).isAssigned = true := by
  induction h using ReflTransGen.head_induction_on with
  | refl => exact hassigned
  | @head collection element hparent _ ih =>
      have hfresh : s.data.books.place element ≠ .fresh := by
        intro hfresh
        rw [show s.data.place element = .fresh from hfresh] at ih
        cases ih
      have hlate := hs.books.late collection (hs.books.opened_of_ne_fresh hparent hfresh)
      exact Place.isAssigned_of_isStarted (Place.isStarted_of_isLate hlate)

/-- What has been executed below a collection that has ended has ended. -/
theorem State.Sound.ended_of_under (hs : s.Sound F) (h : F.Under root job)
    (hended : (s.data.place root).isEnded = true)
    (hassigned : (s.data.place job).isAssigned = true) :
    (s.data.place job).isEnded = true := by
  induction h using ReflTransGen.head_induction_on with
  | refl => exact hended
  | @head collection element hparent hunder ih =>
      refine ih ?_
      have hcounted : (s.data.place element).isCounted = true := by
        by_contra hnot
        have hover := hs.books.not_over hparent (Bool.eq_false_of_not_eq_true hnot)
        rw [show (s.data.books.place collection).isOver = true from
          Place.isOver_of_isEnded hended] at hover
        cases hover
      have helement := hs.assigned_of_under hunder hassigned
      cases hplace : s.data.place element with
      | reported => rfl
      | discounted =>
          rw [hplace] at helement
          cases helement
      | _ =>
          rw [hplace] at hcounted
          cases hcounted

theorem Forest.elements_pairwise (F : Forest J P σ) (collection : J) :
    (F.elements collection).Pairwise
      fun earlier later => F.turn collection earlier < F.turn collection later := by
  refine List.pairwise_iff_getElem.mpr fun i j hi hj hlt => ?_
  rw [F.turn_of_getElem? (List.getElem?_eq_getElem hi),
    F.turn_of_getElem? (List.getElem?_eq_getElem hj)]
  omega

variable [DecidableEq P] [DecidableEq T] {start : Weaver.Start J P σ}

/-- The leaves of a tree that has succeeded have succeeded. -/
theorem runs_succeeded (run : Runs F Undisturbed start s) (htree : F.Sequential root)
    (h : s.data.Succeeded root) : ∀ leaf ∈ F.leaves root, s.data.Succeeded leaf := by
  induction root using Forest.induct (F := F) with
  | h root ih =>
      by_cases hkind : F.kind root = .plain
      · rw [Forest.leaves_plain hkind]
        simpa using h
      · rw [Forest.leaves_eq hkind]
        intro leaf hmem
        obtain ⟨element, helement, hleaf⟩ := List.mem_flatMap.mp hmem
        have hparent := (F.mem_elements _ _).mp helement
        rcases (runs_halting run (htree.kind hkind)).isOver (Place.isOver_of_isEnded h.1) with
          ⟨hall, -⟩ | ⟨short, -, hshort, heq⟩
        · exact ih element hparent (htree.of_parent hparent) (hall element hparent) leaf hleaf
        · exact absurd (heq ▸ h.2) hshort.2

/-- A tree that fell short has the status of a leaf that did. -/
theorem runs_fellShort (run : Runs F Undisturbed start s) (htree : F.Sequential root)
    (h : s.data.FellShort root) :
    ∃ leaf ∈ F.leaves root, s.data.FellShort leaf ∧
      s.data.status root = s.data.status leaf := by
  induction root using Forest.induct (F := F) with
  | h root ih =>
      by_cases hkind : F.kind root = .plain
      · rw [Forest.leaves_plain hkind]
        exact ⟨root, List.mem_cons_self, h, rfl⟩
      · rcases (runs_halting run (htree.kind hkind)).isOver (Place.isOver_of_isEnded h.1) with
          ⟨-, hsuccess⟩ | ⟨short, hparent, hshort, heq⟩
        · exact absurd hsuccess h.2
        · obtain ⟨leaf, hleaf, hfell, hstatus⟩ :=
            ih short hparent (htree.of_parent hparent) hshort
          refine ⟨leaf, ?_, hfell, heq.trans hstatus⟩
          rw [Forest.leaves_eq hkind]
          exact List.mem_flatMap.mpr ⟨short, (F.mem_elements _ _).mpr hparent, hleaf⟩

/-- **A leaf is executed after those to its left have succeeded.** -/
theorem runs_leaves (run : Runs F Undisturbed start s) (htree : F.Sequential root) :
    (F.leaves root).Pairwise fun earlier leaf =>
      (s.data.place leaf).isAssigned = true → s.data.Succeeded earlier := by
  induction root using Forest.induct (F := F) with
  | h root ih =>
      by_cases hkind : F.kind root = .plain
      · rw [Forest.leaves_plain hkind]
        exact List.pairwise_singleton _ _
      · rw [Forest.leaves_eq hkind]
        refine List.pairwise_flatMap.mpr ⟨fun element hmem => ?_, ?_⟩
        · have hparent := (F.mem_elements _ _).mp hmem
          exact ih element hparent (htree.of_parent hparent)
        · refine (F.elements_pairwise root).imp_of_mem ?_
          intro earlier later hearlier hlater hturn x hx y hy hassigned
          have hparent := (F.mem_elements _ _).mp hearlier
          -- the element above the leaf has been handed to a worker as well
          have habove := (runs_sound run).assigned_of_under (Forest.mem_leaves.mp hy).1 hassigned
          have hsucceeded := (runs_halting run (htree.kind hkind)).before earlier later hparent
            ((F.mem_elements _ _).mp hlater) hturn habove
          exact runs_succeeded run (htree.of_parent hparent) hsucceeded x hx

/-- The status of a plain job is that with which it was executed. -/
theorem runs_runStatus {ok : State J P T σ → Act J T → Prop} (run : Runs F ok start s)
    (hplain : F.kind job = .plain) (hover : (s.data.place job).isOver = true) :
    s.data.status job = F.runStatus job := by
  revert hover
  induction run with
  | refl => exact fun hover => by cases hover
  | @tail mid last act run _ hstep ih =>
      refine step_rule (I := fun next => (next.data.place job).isOver = true →
        next.data.status job = F.runStatus job) ih ?_ ?_ ?_ hstep
      · intro thread _ hran hover
        have hs := runs_sound run
        obtain ⟨op, rest, hstack, hfree, rfl⟩ := State.runThread_eq_some hran
        dsimp only at hover ⊢
        have hkeeps : (mid.data.place job).isOver = true →
            (exec F thread op mid.data).1.status job = F.runStatus job :=
          fun hbefore => (hs.exec_status_of_over hstack hbefore).trans (ih hbefore)
        rcases hs.exec_place hstack hfree job with hsame | hmoves
        · exact hkeeps (hsame ▸ hover)
        · generalize mid.data.place job = before at hmoves hkeeps
          generalize (exec F thread op mid.data).1.place job = after at hover hmoves
          cases hmoves with
          | ending => simp [exec, hplain, Data.moveTo, Data.setStatus]
          | endingSelf hkind => exact absurd hplain hkind
          | endingElement hparent => exact absurd hplain (Books.Lawful.kind_ne_plain hparent)
          | ended | reporting | reported => exact hkeeps rfl
          | _ => cases hover
      · intro caller jobs _ hjobs hover
        refine ih ?_
        simp only [State.takeUp] at hover
        split at hover
        · cases hover
        · exact hover
      · intro before caller hbefore hbegin
        obtain ⟨-, rfl⟩ := State.beginCall_eq_some hbegin
        exact hbefore

/-- A job that has ended has the status that is recorded. -/
theorem runs_ended {ok : State J P T σ → Act J T → Prop} (run : Runs F ok start s)
    {status : Status} : .ended job status ∈ s.data.log ↔
      (s.data.place job).isEnded = true ∧ s.data.status job = status := by
  have hstatus : ∀ {status}, .ended job status ∈ s.data.log → s.data.status job = status := by
    clear status
    induction run with
    | refl => exact fun hmem => by cases hmem
    | @tail mid last act run _ hstep ih =>
        refine step_rule (I := fun next => ∀ {status}, .ended job status ∈ next.data.log →
          next.data.status job = status) ih ?_ (fun _ _ _ _ => ih) ?_ hstep
        · intro thread _ hran status hmem
          have hs := runs_sound run
          obtain ⟨op, rest, hstack, hfree, rfl⟩ := State.runThread_eq_some hran
          rcases exec_mem_log F thread op mid.data hmem with hold | hrecords
          · have hended : (mid.data.place job).isEnded = true :=
              (runs_recorded run).isEnded_iff.mpr ⟨status, hold⟩
            exact (hs.exec_isEnded hstack hfree hended).2.trans (ih hold)
          · cases hrecords with
            | ended =>
                have hplace := hs.place_eq (hstack ▸ List.mem_cons_self) List.mem_cons_self
                exact hs.exec_status_of_over hstack (by rw [hplace]; rfl)
        · intro before caller hbefore hbegin
          obtain ⟨-, rfl⟩ := State.beginCall_eq_some hbegin
          exact hbefore
  have hended : (s.data.place job).isEnded = true ↔ ∃ status, .ended job status ∈ s.data.log :=
    (runs_recorded run).isEnded_iff
  constructor
  · exact fun hmem => ⟨hended.mpr ⟨status, hmem⟩, hstatus hmem⟩
  · rintro ⟨hplace, rfl⟩
    obtain ⟨status, hmem⟩ := hended.mp hplace
    rwa [hstatus hmem]

theorem runs_succeeds (run : Runs F Undisturbed start s) (hleaf : leaf ∈ F.leaves root)
    (hended : (s.data.place leaf).isEnded = true) :
    s.data.status leaf = F.runStatus leaf ∧
      (F.succeeds leaf = true ↔ s.data.status leaf = .success) := by
  have hstatus := runs_runStatus run (Forest.mem_leaves.mp hleaf).2
    (Place.isOver_of_isEnded hended)
  rw [Forest.succeeds, hstatus, decide_eq_true_eq]
  exact ⟨rfl, Iff.rfl⟩

theorem runs_split (run : Runs F Undisturbed start s) (htree : F.Sequential root)
    (hleaf : leaf ∈ F.leaves root) (hassigned : (s.data.place leaf).isAssigned = true) :
    ∃ left right, F.leaves root = left ++ leaf :: right ∧
      (∀ earlier ∈ left, s.data.Succeeded earlier) ∧
      (¬ s.data.Succeeded leaf → ∀ later ∈ right, (s.data.place later).isAssigned = false) := by
  obtain ⟨left, right, hsplit⟩ := List.append_of_mem hleaf
  have hpairs := runs_leaves run htree
  rw [hsplit, List.pairwise_append, List.pairwise_cons] at hpairs
  obtain ⟨-, ⟨hright, -⟩, hcross⟩ := hpairs
  refine ⟨left, right, hsplit, fun earlier hmem => ?_, fun hnot later hmem => ?_⟩
  · exact hcross earlier hmem leaf List.mem_cons_self hassigned
  · exact Bool.eq_false_of_not_eq_true fun hlater => hnot (hright later hmem hlater)

end State

/-! ## What the log says about a tree -/

/-- The leaf of the tree that begins to be executed. -/
def Event.leaf? [DecidableEq J] (F : Forest J P σ) (root : J) : Event J T → Option J
  | started job => if job ∈ F.leaves root then some job else none
  | _ => none

/-- The leaves of the tree that have been executed, in the order in which they were. -/
def startedLeaves [DecidableEq J] (F : Forest J P σ) (root : J) (log : List (Event J T)) :
    List J :=
  log.filterMap (Event.leaf? F root)

section Log

variable [DecidableEq J] [DecidableEq P] [DecidableEq T] {F : Forest J P σ}
  {s : State J P T σ} {start : Weaver.Start J P σ} {root job leaf : J}

omit [DecidableEq J] [DecidableEq P] [DecidableEq T] in
theorem Place.isStarted_of_isEnded {place : Place T} (h : place.isEnded = true) :
    place.isStarted = true := by
  cases place with
  | held stage thread => cases stage <;> first | rfl | cases h
  | reported => rfl
  | _ => cases h

omit [DecidableEq T] in
theorem State.Sound.exec_isStarted {thread : Thread T} {op : Op J} {rest : List (Op J)}
    (hs : s.Sound F) (hstack : s.stack thread = op :: rest)
    (hfree : ∀ mutex, wants F op = some mutex → s.data.holder mutex = none)
    (hne : op ≠ .execute job) :
    ((exec F thread op s.data).1.place job).isStarted = (s.data.place job).isStarted := by
  rcases hs.exec_place hstack hfree job with hsame | hmoves
  · rw [hsame]
  · generalize s.data.place job = before at hmoves ⊢
    generalize (exec F thread op s.data).1.place job = after at hmoves ⊢
    cases hmoves with
    | started => exact absurd rfl hne
    | _ => rfl

/-- The executed leaves, from left to right. -/
theorem runs_startedLeaves (run : Runs F Undisturbed start s) (htree : F.Sequential root) :
    startedLeaves F root s.data.log =
      (F.leaves root).filter fun leaf => (s.data.place leaf).isStarted := by
  induction run with
  | refl => simp [startedLeaves, init, Place.isStarted]
  | @tail mid last act run _ hstep ih =>
      refine step_rule (I := fun next => startedLeaves F root next.data.log =
        (F.leaves root).filter fun leaf => (next.data.place leaf).isStarted) ih ?_ ?_ ?_ hstep
      · intro thread _ hran
        have hs := runs_sound run
        obtain ⟨op, rest, hstack, hfree, rfl⟩ := State.runThread_eq_some hran
        dsimp only
        by_cases hexecute : ∃ job, op = .execute job
        · obtain ⟨job, rfl⟩ := hexecute
          have hlog : (exec F thread (.execute job) mid.data).1.log =
              mid.data.log ++ [.started job] := by
            rw [exec_log]
            rfl
          have hplace : (exec F thread (.execute job) mid.data).1.place =
              Function.update mid.data.place job (.held .executing thread) := by
            simp only [exec]
            split <;> rfl
          have hassigned : mid.data.place job = .held .assigned thread :=
            hs.place_eq (hstack ▸ List.mem_cons_self) List.mem_cons_self
          rw [hlog, hplace, startedLeaves, List.filterMap_append, ← startedLeaves, ih]
          by_cases hmem : job ∈ F.leaves root
          · obtain ⟨left, right, hsplit, hleft, hright⟩ :=
              runs_split run htree hmem (by rw [hassigned]; rfl)
            have hnot : ¬ mid.data.Succeeded job := by
              rintro ⟨hended, -⟩
              rw [hassigned] at hended
              cases hended
            have hleft' : ∀ earlier ∈ left, earlier ≠ job := by
              rintro earlier hearlier rfl
              exact hnot (hleft earlier hearlier)
            have hright' : ∀ later ∈ right, later ≠ job := by
              rintro later hlater rfl
              have hno := hright hnot later hlater
              rw [hassigned] at hno
              cases hno
            have hbefore : ∀ earlier ∈ left, (mid.data.place earlier).isStarted = true :=
              fun earlier hearlier => Place.isStarted_of_isEnded (hleft earlier hearlier).1
            have hafter : ∀ later ∈ right, (mid.data.place later).isStarted = false := by
              intro later hlater
              refine Bool.eq_false_of_not_eq_true fun hyes => ?_
              have hno := hright hnot later hlater
              rw [Place.isAssigned_of_isStarted hyes] at hno
              cases hno
            rw [hsplit, Library.filter_of_split hbefore hafter, Library.filter_of_split]
            · simp [hassigned, Place.isStarted, Event.leaf?, hmem]
            · intro earlier hearlier
              rw [Function.update_of_ne (hleft' earlier hearlier)]
              exact hbefore earlier hearlier
            · intro later hlater
              rw [Function.update_of_ne (hright' later hlater)]
              exact hafter later hlater
          · have hnone : List.filterMap (Event.leaf? F root) [Event.started (T := T) job] = [] := by
              simp [Event.leaf?, hmem]
            rw [hnone, List.append_nil]
            refine List.filter_congr fun leaf hleaf => ?_
            rw [Function.update_of_ne (by rintro rfl; exact hmem hleaf)]
        · have hnot : ∀ job, op ≠ .execute job := fun job heq => hexecute ⟨job, heq⟩
          have hstarted : ∀ leaf, ((exec F thread op mid.data).1.place leaf).isStarted =
              (mid.data.place leaf).isStarted :=
            fun leaf => hs.exec_isStarted hstack hfree (hnot leaf)
          simp only [hstarted]
          rw [← ih]
          rcases exec_records F thread op mid.data with hsame | ⟨event, hrecords, hlog⟩
          · rw [hsame]
          · have hleaf : Event.leaf? F root event = none := by
              cases hrecords with
              | started => exact absurd rfl (hnot _)
              | _ => rfl
            rw [hlog, startedLeaves, List.filterMap_append, ← startedLeaves]
            simp [hleaf]
      · intro caller jobs _ hjobs
        rw [show (mid.takeUp (.caller caller) jobs).data.log = mid.data.log from rfl, ih]
        refine List.filter_congr fun leaf _ => ?_
        simp only [State.takeUp]
        split
        · rename_i hmem
          rw [(hjobs leaf hmem).2]
          rfl
        · rfl
      · intro before caller hbefore hbegin
        obtain ⟨-, rfl⟩ := State.beginCall_eq_some hbegin
        exact hbefore

/-- A leaf begins after the end of all leaves to its left. -/
theorem runs_leaves_after (run : Runs F Undisturbed start s) (htree : F.Sequential root) :
    Ordered (fun before event => ∀ left leaf right, event = .started leaf →
      F.leaves root = left ++ leaf :: right →
      ∀ earlier ∈ left, .ended earlier .success ∈ before) s.data.log := by
  induction run with
  | refl => exact Ordered.nil
  | @tail mid last act run _ hstep ih =>
      refine step_rule (I := fun next => Ordered (fun before event => ∀ left leaf right,
        event = .started leaf → F.leaves root = left ++ leaf :: right →
        ∀ earlier ∈ left, .ended earlier .success ∈ before) next.data.log) ih ?_
        (fun _ _ _ _ => ih) ?_ hstep
      · intro thread _ hran
        obtain ⟨op, rest, hstack, -, rfl⟩ := State.runThread_eq_some hran
        dsimp only
        rcases exec_records F thread op mid.data with hsame | ⟨event, hrecords, hlog⟩
        · rw [hsame]
          exact ih
        · rw [hlog]
          refine ih.concat ?_
          rintro left leaf right rfl hsplit earlier hearlier
          cases hrecords with
          | started =>
              have hassigned : (mid.data.place leaf).isAssigned = true := by
                rw [(runs_sound run).place_eq (hstack ▸ List.mem_cons_self) List.mem_cons_self]
                rfl
              have hpairs := runs_leaves run htree
              rw [hsplit, List.pairwise_append] at hpairs
              exact (runs_ended run).mpr
                (hpairs.2.2 earlier hearlier leaf List.mem_cons_self hassigned)
      · intro before caller hbefore hbegin
        obtain ⟨-, rfl⟩ := State.beginCall_eq_some hbegin
        exact hbefore

/-- When the tree has ended, the leaves up to the first one that does not succeed have been
executed. -/
theorem runs_upToFirst (run : Runs F Undisturbed start s) (htree : F.Sequential root)
    (hended : (s.data.place root).isEnded = true) :
    startedLeaves F root s.data.log = upToFirst F.succeeds (F.leaves root) := by
  rw [runs_startedLeaves run htree]
  by_cases hsuccess : s.data.status root = .success
  · have hall := runs_succeeded run htree ⟨hended, hsuccess⟩
    rw [Library.upToFirst_of_forall, List.filter_eq_self.mpr]
    · exact fun leaf hleaf => Place.isStarted_of_isEnded (hall leaf hleaf).1
    · intro leaf hleaf
      exact (runs_succeeds run hleaf (hall leaf hleaf).1).2.mpr (hall leaf hleaf).2
  · obtain ⟨leaf, hleaf, hshort, -⟩ := runs_fellShort run htree ⟨hended, hsuccess⟩
    have hstarted := Place.isStarted_of_isEnded hshort.1
    obtain ⟨left, right, hsplit, hleft, hright⟩ :=
      runs_split run htree hleaf (Place.isAssigned_of_isStarted hstarted)
    have hfails : F.succeeds leaf = false := by
      refine Bool.eq_false_of_not_eq_true fun hyes => ?_
      exact hshort.2 ((runs_succeeds run hleaf hshort.1).2.mp hyes)
    rw [hsplit, Library.filter_of_split, Library.upToFirst_append _ hfails, if_pos hstarted]
    · intro earlier hearlier
      have hmem : earlier ∈ F.leaves root := hsplit ▸ List.mem_append_left _ hearlier
      exact (runs_succeeds run hmem (hleft earlier hearlier).1).2.mpr (hleft earlier hearlier).2
    · exact fun earlier hearlier => Place.isStarted_of_isEnded (hleft earlier hearlier).1
    · intro later hlater
      refine Bool.eq_false_of_not_eq_true fun hyes => ?_
      have hno := hright (fun h => hshort.2 h.2) later hlater
      rw [Place.isAssigned_of_isStarted hyes] at hno
      cases hno

/-- A job of the tree that has ended has ended with what its leaves say. -/
theorem runs_endStatus (run : Runs F Undisturbed start s) (htree : F.Sequential root)
    (hunder : F.Under root job) (hended : (s.data.place job).isEnded = true) :
    s.data.status job = F.endStatus root job := by
  by_cases hsuccess : s.data.status job = .success
  · rw [hsuccess, Forest.endStatus]
    split
    · rfl
    · rename_i first hfirst
      split
      · rename_i hmem
        have hleaf := runs_succeeded run (htree.under hunder) ⟨hended, hsuccess⟩ first hmem
        rw [← (runs_succeeds run hmem hleaf.1).1, hleaf.2]
      · rfl
  · obtain ⟨leaf, hleaf, hshort, hstatus⟩ :=
      runs_fellShort run (htree.under hunder) ⟨hended, hsuccess⟩
    have hroot : leaf ∈ F.leaves root := by
      obtain ⟨hbelow, hplain⟩ := Forest.mem_leaves.mp hleaf
      exact Forest.mem_leaves.mpr ⟨hunder.trans hbelow, hplain⟩
    have hstarted := Place.isStarted_of_isEnded hshort.1
    obtain ⟨left, right, hsplit, hleft, -⟩ :=
      runs_split run htree hroot (Place.isAssigned_of_isStarted hstarted)
    have hfails : F.succeeds leaf = false := by
      refine Bool.eq_false_of_not_eq_true fun hyes => ?_
      exact hshort.2 ((runs_succeeds run hleaf hshort.1).2.mp hyes)
    have hsucceeds : ∀ earlier ∈ left, F.succeeds earlier = true := by
      intro earlier hearlier
      have hmem : earlier ∈ F.leaves root := hsplit ▸ List.mem_append_left _ hearlier
      exact (runs_succeeds run hmem (hleft earlier hearlier).1).2.mpr (hleft earlier hearlier).2
    simp only [Forest.endStatus, hsplit, Library.find?_append_not hsucceeds hfails, if_pos hleaf]
    rw [hstatus, (runs_succeeds run hleaf hshort.1).1]

/-- **Nested Sequences run as a prefix in order.**  The leaves of a tree of Sequences are executed
from left to right, each after the end of those before it.  When the root has ended, those up to
and including the first one that does not succeed have been executed, and every Sequence above
that one has ended with its status; a Sequence of the tree that has ended otherwise has ended with
success. -/
theorem nested_sequences (htree : F.Sequential root) (run : Runs F Undisturbed start s) :
    startedLeaves F root s.data.log <+: F.leaves root ∧
      Ordered (fun before event => ∀ left leaf right, event = .started leaf →
        F.leaves root = left ++ leaf :: right →
        ∀ earlier ∈ left, .ended earlier .success ∈ before) s.data.log ∧
      (∀ status, .ended root status ∈ s.data.log →
        startedLeaves F root s.data.log = upToFirst F.succeeds (F.leaves root) ∧
          ∀ first, (F.leaves root).find? (fun leaf => !F.succeeds leaf) = some first →
            ∀ job, F.Under root job → first ∈ F.leaves job →
              .ended job (F.runStatus first) ∈ s.data.log) ∧
      ∀ job status, F.Under root job → .ended job status ∈ s.data.log →
        status = F.endStatus root job := by
  refine ⟨?_, runs_leaves_after run htree, fun status hroot => ?_, fun job status hunder hjob => ?_⟩
  · rw [runs_startedLeaves run htree]
    refine Library.filter_prefix ((runs_leaves run htree).imp fun h hstarted => ?_)
    exact Place.isStarted_of_isEnded (h (Place.isAssigned_of_isStarted hstarted)).1
  · have hended := ((runs_ended run).mp hroot).1
    have hstarted := runs_upToFirst run htree hended
    refine ⟨hstarted, fun first hfirst job hunder hleaf => ?_⟩
    -- the leaf has been executed, so the Sequences above it have ended
    have hmem : first ∈ startedLeaves F root s.data.log :=
      hstarted ▸ Library.mem_upToFirst_of_find? hfirst
    rw [runs_startedLeaves run htree] at hmem
    have hassigned := (runs_sound run).assigned_of_under (Forest.mem_leaves.mp hleaf).1
      (Place.isAssigned_of_isStarted (List.mem_filter.mp hmem).2)
    have hjob := (runs_sound run).ended_of_under hunder hended hassigned
    have hstatus := runs_endStatus run htree hunder hjob
    simp only [Forest.endStatus, hfirst, if_pos hleaf] at hstatus
    exact (runs_ended run).mpr ⟨hjob, hstatus⟩
  · obtain ⟨hended, rfl⟩ := (runs_ended run).mp hjob
    exact runs_endStatus run htree hunder hended

end Log

/-- A Sequence `0` of a Sequence `1` and a plain job `4`; the second of the elements of `1`
fails. -/
def nestedFailing : Forest (Fin 6) Empty Unit :=
  .numbered ![.sequence, .sequence, .plain, .plain, .plain, .plain]
    ![none, some 0, some 1, some 1, some 1, some 0] (by decide)
    ![.returned, .returned, .returned, .jobFailed, .returned, .returned] (by decide) noPolicies

/-- Two of the four leaves are executed. -/
theorem nested_sequences_failing : ∃ s : State (Fin 6) Empty Unit Unit,
    Runs nestedFailing Undisturbed (.plain ()) s ∧ .ended 0 .failed ∈ s.data.log ∧
      startedLeaves nestedFailing 0 s.data.log = [2, 3] ∧ .ended 1 .failed ∈ s.data.log := by
  obtain ⟨s, run, hroot, -⟩ :=
    exists_runs nestedFailing Undisturbed (.plain ())
      (fun s : State (Fin 6) Empty Unit Unit => .ended 0 .failed ∈ s.data.log)
      (List.flatten [[.enqueue () [0]], List.replicate 3 (.run (.caller ())),
        List.replicate 160 (.run (.worker 0))]) (by decide +kernel)
  have hkinds : ∀ job, nestedFailing.kind job ≠ .collection := by decide
  have htree : nestedFailing.Sequential 0 := fun job _ => hkinds job
  obtain ⟨-, -, hended, -⟩ := nested_sequences htree run
  obtain ⟨hstarted, hpath⟩ := hended _ hroot
  refine ⟨s, run, hroot, hstarted.trans (by decide), ?_⟩
  exact hpath 3 (by decide) 1 (.single (by decide)) (by decide)

end ThreadWeaver.Collection
