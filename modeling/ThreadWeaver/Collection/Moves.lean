import ThreadWeaver.Collection.Custody

/-!
# Steps as moves of the books

In a sound state an operation is at most one move of the books, so what a run does to the
books can be proved about moves.
-/

namespace ThreadWeaver.Collection

variable {J P T σ : Type*} [DecidableEq J] [DecidableEq P]

/-- The discipline allows what the operation does. -/
def Books.Discipline.Covers (D : Books.Discipline J T) (d : Data J P T σ) : Op J → Prop
  | .elementFinished collection _ =>
      d.selfIsExecuting collection = true → d.shouldAbort collection = true →
        D.mayClose collection
  | .dequeueSelf collection => collection ∈ d.assignments → D.mayLeave collection
  | .discount collection element => D.mayDiscount d.books collection element
  | .checkLast collection => d.jobCounter collection = 1 → D.mayCleanUp d.books collection
  | _ => True

omit [DecidableEq J] [DecidableEq P] in
theorem Books.Discipline.any_covers (d : Data J P T σ) (op : Op J) :
    (Discipline.any : Discipline J T).Covers d op := by
  cases op <;> simp [Discipline.any, Discipline.Covers]

namespace State.Sound

variable {F : Forest J P σ} {s : State J P T σ} {thread : Thread T} {op : Op J}
  {rest : List (Op J)}

/-- **Every operation is at most one move of the books.** -/
theorem exec_move {D : Books.Discipline J T} (hs : s.Sound F)
    (hstack : s.stack thread = op :: rest)
    (hfree : ∀ mutex, wants F op = some mutex → s.data.holder mutex = none)
    (hcovers : D.Covers s.data op) :
    (exec F thread op s.data).1.books = s.data.books ∨
      Books.Move F D s.data.books (exec F thread op s.data).1.books := by
  have hop : op ∈ s.stack thread := by
    rw [hstack]
    exact List.mem_cons_self
  have hfits : Fits F op rest := by
    have hlayout := hs.layout thread
    rw [hstack] at hlayout
    exact hlayout.1
  -- one job goes on
  have hgoes : ∀ (job : J) (place place' : Place T) (events : List (Event J T)),
      s.data.place job = place → Books.Goes F job place place' events → D.mayGo job place' →
      (exec F thread op s.data).1.books = s.data.books.goTo job place' events →
      (exec F thread op s.data).1.books = s.data.books ∨
        Books.Move F D s.data.books (exec F thread op s.data).1.books := by
    intro job place place' events hplace hgoes hmay hbooks
    rw [hbooks]
    refine .inr (.goes ?_ hmay)
    rw [show s.data.books.place job = place from hplace]
    exact hgoes
  cases op with
  | applyForWork wasBusy =>
      cases wasBusy with
      | false => exact .inl rfl
      | true =>
          by_cases hlast : s.data.assignments.isEmpty ∧ s.data.active - 1 = 0
          · refine .inr ?_
            have hbooks : (exec F thread (.applyForWork true) s.data).1.books =
                { s.data.books with log := s.data.books.log ++ [.finished] } := by
              simp [exec, Data.books, Data.decActiveThreadCount, Data.lock, hlast]
            rw [hbooks]
            exact .finished
          · exact .inl (congrArg
              (Books.mk s.data.place s.data.opened s.data.jobCounter) (if_neg hlast))
  | takeFirst candidates =>
      cases candidates with
      | nil => exact .inl rfl
      | cons job candidates =>
          by_cases hcan : s.data.canBeExecuted F job = true
          · refine hgoes job _ _ _ (hs.queued_of_candidate hstack) (.assigned thread) trivial ?_
            simp only [exec, if_pos hcan]
            rfl
          · refine .inl ?_
            simp only [exec, if_neg hcan]
            rfl
  | enqueueJob job =>
      exact hgoes job _ _ _ (hs.place_eq hop (by simp [Op.jobs])) (.enqueued thread)
        trivial rfl
  | finish =>
      by_cases hidle : s.data.isIdleP = true
      · refine .inr ?_
        simp only [exec, if_pos hidle]
        exact .finishReturned thread
      · refine .inl ?_
        simp only [exec, if_neg hidle]
  | execute job =>
      refine hgoes job _ _ _ (hs.place_eq hop (by simp [Op.jobs])) (.started thread)
        trivial ?_
      simp only [exec]
      split <;> rfl
  | run job =>
      by_cases hkind : F.kind job = .plain
      · refine hgoes job _ _ [] (hs.place_eq hop (by simp [Op.jobs])) (.ending thread hkind)
          trivial ?_
        simp [exec, hkind, Data.books, Data.moveTo, Data.setStatus, Books.goTo]
      · refine .inl ?_
        simp only [exec, if_neg hkind]
        rfl
  | defaultEnd job =>
      have hplace : s.data.place job = .held .ending thread :=
        hs.place_eq hop (by simp [Op.jobs])
      cases hparent : F.parent job with
      | none =>
          refine hgoes job _ _ _ hplace (.ended thread (s.data.status job) hparent) trivial ?_
          simp only [exec, hparent]
          rfl
      | some collection =>
          refine hgoes job _ _ _ hplace
            (.reporting thread (s.data.status job) collection hparent) trivial ?_
          simp only [exec, hparent]
          rfl
  | elementFinished collection job =>
      rcases hs.of_elementFinished hop with ⟨rfl, hkind, hplace, hflag⟩ | ⟨-, -, -, hflag⟩
      · by_cases habort : s.data.shouldAbort job = true
        · refine hgoes job _ _ [] hplace (.closing thread hkind) (hcovers hflag habort) ?_
          simp [exec, hflag, habort, Data.lock, Data.moveTo, Data.books, Books.goTo]
        · refine .inr ?_
          have hbooks : (exec F thread (.elementFinished job job) s.data).1.books =
              s.data.books.openElements F thread job := by
            simp [exec, hflag, habort, Data.lock, Data.moveTo, Data.enqueueElements, Data.books,
              Books.openElements]
          rw [hbooks]
          exact .openElements hkind hplace
      · refine .inl ?_
        simp [exec, hflag, Data.lock, Data.books]
  | processCompletedElement collection job =>
      refine .inl ?_
      simp only [exec]
      split
      · split <;> rfl
      · rfl
  | countDown collection job =>
      by_cases hlast : s.data.jobCounter collection - 1 = 0
      · have hexec : (exec F thread (.countDown collection job) s.data).1.books =
            (s.data.books.countOff collection job
              (if job = collection then .waiting else .reported)).goTo collection
                (.held .ending thread) [.cleanedUp collection] := by
          simp [exec, Data.count, Data.decJobCounter, Data.moveTo, hlast, Data.unlock,
            Data.finalCleanup, Data.freeQueuePolicyResources, Data.recordCalls, Data.record,
            Data.setStatus, Data.books, Books.goTo, Books.countOff]
        rcases hs.of_completing hop (fun _ => Iff.rfl) rfl with
          ⟨rfl, -, hplace⟩ | ⟨hparent, hne, hplace⟩
        · rw [hexec, if_pos rfl]
          exact .inr (.endSelf hplace hlast)
        · rw [hexec, if_neg hne]
          exact .inr (.endElement hparent hplace hlast)
      · have hexec : (exec F thread (.countDown collection job) s.data).1.books =
            s.data.books.countOff collection job
              (if job = collection then .waiting else .reported) := by
          simp [exec, Data.count, Data.decJobCounter, Data.moveTo, hlast, Data.unlock,
            Data.books, Books.countOff]
        rcases hs.of_completing hop (fun _ => Iff.rfl) rfl with
          ⟨rfl, -, hplace⟩ | ⟨hparent, hne, hplace⟩
        · rw [hexec, if_pos rfl]
          exact .inr (.countSelf hplace hlast)
        · rw [hexec, if_neg hne]
          exact .inr (.countElement hparent hplace hlast)
  | dequeueSelf collection =>
      by_cases hmem : collection ∈ s.data.assignments
      · refine hgoes collection _ _ _ (hs.queued_of_free (hfree _ rfl) hmem)
          (.leaving thread hfits) (hcovers hmem) ?_
        simp only [exec, if_pos hmem]
        rfl
      · refine .inl ?_
        simp only [exec, if_neg hmem]
  | leave collection =>
      have hplace : s.data.place collection = .held .leaving thread :=
        hs.place_eq hop (by simp [Op.jobs])
      by_cases hparent : F.parent collection = none
      · refine hgoes collection _ _ [] hplace (.again thread hparent) trivial ?_
        simp [exec, hparent, Data.moveTo, Data.books, Books.goTo]
      · refine hgoes collection _ _ [] hplace (.lost thread hparent) trivial ?_
        simp [exec, hparent, Data.moveTo, Data.books, Books.goTo]
  | dequeueElement collection element locked =>
      by_cases hmem : element ∈ s.data.assignments
      · cases locked with
        | true => exact absurd hmem (hs.notMem_of_hook hop rfl)
        | false =>
            refine hgoes element _ _ _ (hs.queued_of_free (hfree _ rfl) hmem)
              (.taken thread (by simp [hfits.1])) trivial ?_
            simp only [exec, if_pos hmem]
            rfl
      · refine .inl ?_
        simp only [exec, if_neg hmem]
  | discount collection element =>
      exact .inr (.discount hfits.1 (hs.place_eq hop (by simp [Op.jobs])) hcovers)
  | checkLast collection =>
      by_cases hlast : s.data.jobCounter collection = 1
      · refine .inr ?_
        simp only [exec, if_pos hlast]
        exact .cleanUp hlast (hcovers hlast)
      · refine .inl ?_
        simp only [exec, if_neg hlast]
  | aboutToBeDequeued job =>
      refine .inl ?_
      simp only [exec]
      split <;> rfl
  | _ => exact .inl rfl

end State.Sound

end ThreadWeaver.Collection
