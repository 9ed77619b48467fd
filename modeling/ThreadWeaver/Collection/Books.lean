import ThreadWeaver.Collection.Step

/-!
# The books of the collections

What a collection is for, apart from mutexes and threads: its elements go to the queue, are
executed or dequeued, and are counted, and when the last one has been counted the
collection comes to its end.  `Books` is the part of the state that says how far each job
has got, what the counters are and what has happened; `Move` lists the ways in which it
changes.  `Books.Lawful` is what the counters mean; every move keeps it.
-/

namespace ThreadWeaver.Collection

variable {J P T σ : Type*}

namespace Place

/-- The collection that the job is an element of does not count on it any more. -/
def isCounted : Place T → Bool
  | reported | discounted => true
  | _ => false

/-- The own job of a collection has been executed and is being completed. -/
def isClosing : Place T → Bool
  | held .closing _ => true
  | _ => false

/-- The own job of a collection has been executed. -/
def isLate : Place T → Bool
  | held .closing _ | held .ending _ | held .reporting _ | waiting | reported => true
  | _ => false

/-- The end of the job has begun. -/
def isOver : Place T → Bool
  | held .ending _ | held .reporting _ | reported => true
  | _ => false

end Place

/-- How far the jobs have got, what the collections have counted and what has happened. -/
structure Books (J T : Type*) where
  place : J → Place T
  opened : J → Bool
  jobCounter : J → ℤ
  log : List (Event J T)

/-- The books of a state. -/
def Data.books (d : Data J P T σ) : Books J T where
  place := d.place
  opened := d.opened
  jobCounter := d.jobCounter
  log := d.log

namespace Books

variable [DecidableEq J]

/-- The job has got to `place`, which is recorded by `events`. -/
def goTo (job : J) (place : Place T) (events : List (Event J T)) (b : Books J T) : Books J T :=
  { b with
    place := Function.update b.place job place
    log := b.log ++ events }

/-- The job has been counted off. -/
def countOff (collection job : J) (place : Place T) (b : Books J T) : Books J T :=
  { b with
    place := Function.update b.place job place
    jobCounter := Function.update b.jobCounter collection (b.jobCounter collection - 1) }

variable (F : Forest J P σ)

/-- The elements of a collection are in the hands of the thread that executed it. -/
def openElements (thread : Thread T) (collection : J) (b : Books J T) : Books J T :=
  { b with
    place := fun job =>
      if job ∈ F.elements collection then .held .pending thread
      else Function.update b.place collection (.held .closing thread) job
    opened := Function.update b.opened collection true
    jobCounter :=
      Function.update b.jobCounter collection (((F.elements collection).length : ℤ) + 1) }

/-- The elements that the collection counts on. -/
def outstanding (collection : J) (b : Books J T) : ℕ :=
  (F.elements collection).countP fun element => !(b.place element).isCounted

/-- The way of one job from place to place, with the events that record it. -/
inductive Goes (job : J) : Place T → Place T → List (Event J T) → Prop
  | enqueued (thread) : Goes job (.held .pending thread) .queued [.enqueued job]
  | assigned (thread) : Goes job .queued (.held .assigned thread) [.assigned thread job]
  | started (thread) :
      Goes job (.held .assigned thread) (.held .executing thread) [.started job]
  | closing (thread) : F.kind job ≠ .plain →
      Goes job (.held .executing thread) (.held .closing thread) []
  | ending (thread) : F.kind job = .plain →
      Goes job (.held .executing thread) (.held .ending thread) []
  | ended (thread) (status) : F.parent job = none →
      Goes job (.held .ending thread) .reported [.ended job status]
  | reporting (thread) (status) (collection) : F.parent job = some collection →
      Goes job (.held .ending thread) (.held .reporting thread) [.ended job status]
  | taken (thread) : F.parent job ≠ none →
      Goes job .queued (.held .taken thread) [.dequeued job]
  | leaving (thread) : F.kind job ≠ .plain →
      Goes job .queued (.held .leaving thread) [.dequeued job]
  | lost (thread) : F.parent job ≠ none → Goes job (.held .leaving thread) .lost []
  | again (thread) : F.parent job = none → Goes job (.held .leaving thread) .fresh []

/-- What a run may do, beyond what every run does in every state: complete the own job of a
collection that has been aborted, take a collection out of the queue in its own `stop`,
subtract a dequeued element from the counter, clean up in `dequeueElements`. -/
structure Discipline (J T : Type*) where
  mayClose : J → Prop
  mayLeave : J → Prop
  mayDiscount : Books J T → J → J → Prop
  mayCleanUp : Books J T → J → Prop

/-- Anything may happen. -/
def Discipline.any : Discipline J T where
  mayClose _ := True
  mayLeave _ := True
  mayDiscount _ _ _ := True
  mayCleanUp _ _ := True

/-- A job may get to a place outside of the moves that have their own condition. -/
def Discipline.mayGo (D : Discipline J T) (job : J) : Place T → Prop
  | .held .closing _ => D.mayClose job
  | .held .leaving _ => D.mayLeave job
  | _ => True

/-- The ways in which the books change, under a discipline. -/
inductive Move (D : Discipline J T) (b : Books J T) : Books J T → Prop
  | goes {job : J} {place : Place T} {events : List (Event J T)} :
      Goes F job (b.place job) place events → D.mayGo job place →
      Move D b (b.goTo job place events)
  | takeUp (thread : Thread T) {jobs : List J} :
      (∀ job ∈ jobs, F.parent job = none ∧ b.place job = .fresh) →
      Move D b { b with
        place := fun job => if job ∈ jobs then .held .pending thread else b.place job }
  | openElements {thread : Thread T} {collection : J} :
      F.kind collection ≠ .plain → b.place collection = .held .executing thread →
      Move D b (b.openElements F thread collection)
  /-- a collection counts its own job -/
  | countSelf {thread : Thread T} {collection : J} :
      b.place collection = .held .closing thread → b.jobCounter collection - 1 ≠ 0 →
      Move D b (b.countOff collection collection .waiting)
  | countElement {thread : Thread T} {collection job : J} : F.parent job = some collection →
      b.place job = .held .reporting thread → b.jobCounter collection - 1 ≠ 0 →
      Move D b (b.countOff collection job .reported)
  /-- a collection without elements comes to its end -/
  | endSelf {thread : Thread T} {collection : J} :
      b.place collection = .held .closing thread → b.jobCounter collection - 1 = 0 →
      Move D b ((b.countOff collection collection .waiting).goTo collection
        (.held .ending thread) [.cleanedUp collection])
  /-- a collection comes to its end with the last of its elements -/
  | endElement {thread : Thread T} {collection job : J} : F.parent job = some collection →
      b.place job = .held .reporting thread → b.jobCounter collection - 1 = 0 →
      Move D b ((b.countOff collection job .reported).goTo collection
        (.held .ending thread) [.cleanedUp collection])
  | discount {thread : Thread T} {collection job : J} : F.parent job = some collection →
      b.place job = .held .taken thread → D.mayDiscount b collection job →
      Move D b (b.countOff collection job .discounted)
  /-- `finalCleanup` in `dequeueElements` -/
  | cleanUp {collection : J} : b.jobCounter collection = 1 → D.mayCleanUp b collection →
      Move D b { b with log := b.log ++ [.cleanedUp collection] }
  | finished : Move D b { b with log := b.log ++ [.finished] }
  | finishReturned (thread : Thread T) :
      Move D b { b with log := b.log ++ [.finishReturned thread] }

/-! ## What the counters mean -/

/-- Elements are known to the queue only after their collection has been executed and has
opened; from then on the counter is the number of elements that the collection counts on,
and one more as long as its own job is being completed; the end begins at zero. -/
structure Lawful (b : Books J T) : Prop where
  late : ∀ collection, b.opened collection = true → (b.place collection).isLate = true
  fresh : ∀ collection element, F.parent element = some collection →
    (b.place element = .fresh ↔ b.opened collection = false)
  counter : ∀ collection, b.opened collection = true → b.jobCounter collection =
    b.outstanding F collection + (b.place collection).isClosing.toNat
  unopened : ∀ collection, b.opened collection = false → b.jobCounter collection ≤ 0
  isOver : ∀ collection, F.kind collection ≠ .plain → (b.place collection).isOver = true →
    b.opened collection = true ∧ b.jobCounter collection = 0

variable {F} {b : Books J T} {job collection : J} {place : Place T}
  {events : List (Event J T)}

/-- A job gets from one place to another without its collection taking notice. -/
structure Passes (F : Forest J P σ) (job : J) (before place : Place T) : Prop where
  ne_fresh : before ≠ .fresh
  counted : before.isCounted = false
  closing : before.isClosing = false
  root_of_counted : place.isCounted = true → F.parent job = none
  root_of_fresh : place = .fresh → F.parent job = none
  late : before.isLate = true → place.isLate = true ∧ place.isClosing = false
  isOver : place.isOver = true → before.isOver = true ∨ F.kind job = .plain

omit [DecidableEq J] in
theorem Goes.passes {before : Place T} (h : Goes F job before place events) :
    Passes F job before place := by
  constructor <;> cases h <;> simp_all [Place.isCounted, Place.isClosing, Place.isLate, Place.isOver]

omit [DecidableEq J] in
theorem outstanding_congr {b' : Books J T}
    (h : ∀ element, F.parent element = some collection →
      (b'.place element).isCounted = (b.place element).isCounted) :
    b'.outstanding F collection = b.outstanding F collection := by
  refine List.countP_congr fun element hmem => ?_
  rw [h element ((F.mem_elements _ _).mp hmem)]

/-- When one element is counted, one outstanding element is missing. -/
theorem outstanding_update (hparent : F.parent job = some collection)
    (hbefore : (b.place job).isCounted = false) (hplace : place.isCounted = true) :
    ((b.countOff collection job place).outstanding F collection : ℤ) =
      b.outstanding F collection - 1 := by
  have hmem : job ∈ F.elements collection := (F.mem_elements _ _).mpr hparent
  have hcount : ∀ elements : List J, elements.Nodup → job ∈ elements →
      (elements.countP fun element =>
        !(Function.update b.place job place element).isCounted) + 1 =
        elements.countP fun element => !(b.place element).isCounted := by
    intro elements
    induction elements with
    | nil => simp
    | cons element rest ih =>
        intro hnodup hin
        rw [List.nodup_cons] at hnodup
        by_cases heq : element = job
        · subst heq
          have hrest : (rest.countP fun other =>
              !(Function.update b.place element place other).isCounted) =
              rest.countP fun other => !(b.place other).isCounted := by
            refine List.countP_congr fun other hother => ?_
            rw [Function.update_of_ne (ne_of_mem_of_not_mem hother hnodup.1)]
          simp [hbefore, hplace, hrest]
        · have hin' : job ∈ rest := by simpa [Ne.symm heq] using hin
          have hih := ih hnodup.2 hin'
          simp only [List.countP_cons, Function.update_of_ne heq] at hih ⊢
          omega
  have := hcount _ (F.elements_nodup collection) hmem
  simp only [outstanding, countOff]
  omega

omit [DecidableEq J] in
theorem outstanding_pos {element : J} (hparent : F.parent element = some collection)
    (h : (b.place element).isCounted = false) : 0 < b.outstanding F collection := by
  rw [outstanding, List.countP_pos_iff]
  exact ⟨element, (F.mem_elements _ _).mpr hparent, by simp [h]⟩

namespace Lawful

omit [DecidableEq J] in
theorem opened_of_ne_fresh (hb : b.Lawful F) (hparent : F.parent job = some collection)
    (h : b.place job ≠ .fresh) : b.opened collection = true := by
  by_contra hnot
  exact h ((hb.fresh _ _ hparent).mpr (by simpa using hnot))

omit [DecidableEq J] in
theorem not_opened (hb : b.Lawful F) (h : (b.place collection).isLate = false) :
    b.opened collection = false := by
  by_contra hnot
  rw [hb.late collection (by simpa using hnot)] at h
  cases h

omit [DecidableEq J] in
theorem not_over (hb : b.Lawful F) (hparent : F.parent job = some collection)
    (h : (b.place job).isCounted = false) : (b.place collection).isOver = false := by
  by_contra hnot
  have hkind : F.kind collection ≠ .plain := by
    intro hplain
    have hmem := (F.mem_elements _ _).mpr hparent
    rw [F.elements_plain _ hplain] at hmem
    cases hmem
  obtain ⟨hopened, hzero⟩ := hb.isOver collection hkind (by simpa using hnot)
  have hcounter := hb.counter collection hopened
  have hpos := outstanding_pos hparent h
  omega

omit [DecidableEq J] in
theorem kind_ne_plain (hparent : F.parent job = some collection) :
    F.kind collection ≠ .plain := by
  intro hplain
  have hmem := (F.mem_elements _ _).mpr hparent
  rw [F.elements_plain _ hplain] at hmem
  cases hmem

omit [DecidableEq J] in
/-- Jobs have passed from place to place. -/
theorem of_passes {b' : Books J T} (hb : b.Lawful F) (hopened : b'.opened = b.opened)
    (hcounter : b'.jobCounter = b.jobCounter)
    (hplace : ∀ job, b'.place job = b.place job ∨ Passes F job (b.place job) (b'.place job)) :
    b'.Lawful F := by
  have houtstanding : ∀ c, b'.outstanding F c = b.outstanding F c := by
    intro c
    refine outstanding_congr fun element hparent => ?_
    rcases hplace element with hsame | hpasses
    · rw [hsame]
    · rw [hpasses.counted]
      by_contra hnot
      have hnone := hpasses.root_of_counted (by simpa using hnot)
      rw [hparent] at hnone
      cases hnone
  refine ⟨?_, ?_, ?_, ?_, ?_⟩
  · intro c hc
    rw [hopened] at hc
    rcases hplace c with hsame | hpasses
    · rw [hsame]
      exact hb.late c hc
    · exact (hpasses.late (hb.late c hc)).1
  · intro c element hparent
    rw [hopened]
    rcases hplace element with hsame | hpasses
    · rw [hsame]
      exact hb.fresh c element hparent
    · have hc := hb.opened_of_ne_fresh hparent hpasses.ne_fresh
      simp only [hc, Bool.true_eq_false, iff_false]
      intro hnow
      have hnone := hpasses.root_of_fresh hnow
      rw [hparent] at hnone
      cases hnone
  · intro c hc
    rw [hopened] at hc
    rw [hcounter, houtstanding, hb.counter c hc]
    rcases hplace c with hsame | hpasses
    · rw [hsame]
    · rw [hpasses.closing, (hpasses.late (hb.late c hc)).2]
  · intro c hc
    rw [hopened] at hc
    rw [hcounter]
    exact hb.unopened c hc
  · intro c hkind hover
    rw [hopened, hcounter]
    rcases hplace c with hsame | hpasses
    · rw [hsame] at hover
      exact hb.isOver c hkind hover
    · exact hb.isOver c hkind ((hpasses.isOver hover).resolve_right hkind)

theorem goTo (hb : b.Lawful F) (hgoes : Goes F job (b.place job) place events) :
    (b.goTo job place events).Lawful F := by
  refine hb.of_passes rfl rfl fun other => ?_
  by_cases heq : other = job
  · subst heq
    refine .inr ?_
    simpa only [Books.goTo, Function.update_self] using hgoes.passes
  · exact .inl (Function.update_of_ne heq _ _)

/-- A collection counts an element. -/
theorem countElement (hb : b.Lawful F) (hparent : F.parent job = some collection)
    (hbefore : (b.place job).isCounted = false) (hcounted : place.isCounted = true)
    (hfresh : b.place job ≠ .fresh)
    (hlate : (b.place job).isLate = true → place.isLate = true)
    (hclosing : (b.place job).isClosing = false)
    (hover : place.isOver = true → (b.place job).isOver = true) :
    (b.countOff collection job place).Lawful F := by
  have hne : collection ≠ job := by
    intro heq
    have hlt := F.height_lt job collection hparent
    rw [heq] at hlt
    exact lt_irrefl _ hlt
  have hopened := hb.opened_of_ne_fresh hparent hfresh
  have hplaceNe : place ≠ .fresh := by
    rintro rfl
    cases hcounted
  have hplaceClosing : place.isClosing = false := by
    cases place <;> simp_all [Place.isCounted, Place.isClosing]
  refine ⟨?_, ?_, ?_, ?_, ?_⟩
  · intro c hc
    by_cases heq : c = job
    · subst heq
      simp only [countOff, Function.update_self]
      exact hlate (hb.late c hc)
    · simpa only [countOff, Function.update_of_ne heq] using hb.late c hc
  · intro c element hc
    by_cases heq : element = job
    · subst heq
      rw [hparent] at hc
      cases hc
      simp [countOff, hopened, hplaceNe]
    · simpa only [countOff, Function.update_of_ne heq] using hb.fresh c element hc
  · intro c hc
    have hcounter := hb.counter c hc
    by_cases heq : c = collection
    · subst heq
      rw [outstanding_update hparent hbefore hcounted]
      simp only [countOff, Function.update_self, Function.update_of_ne hne]
      omega
    · have hout : (b.countOff collection job place).outstanding F c = b.outstanding F c := by
        refine outstanding_congr fun element helement => ?_
        by_cases hjob : element = job
        · subst hjob
          rw [hparent] at helement
          cases helement
          exact absurd rfl heq
        · simp only [countOff, Function.update_of_ne hjob]
      rw [hout]
      by_cases hjob : c = job
      · subst hjob
        rw [hclosing] at hcounter
        simpa only [countOff, Function.update_of_ne heq, Function.update_self,
          hplaceClosing] using hcounter
      · simpa only [countOff, Function.update_of_ne heq, Function.update_of_ne hjob]
          using hcounter
  · intro c hc
    have hne' : c ≠ collection := by
      rintro rfl
      rw [show b.opened c = false from hc] at hopened
      cases hopened
    simpa only [countOff, Function.update_of_ne hne'] using hb.unopened c hc
  · intro c hkind hc
    have hne' : c ≠ collection := by
      rintro rfl
      rw [show (b.countOff c job place).place c = b.place c from Function.update_of_ne hne _ _,
        hb.not_over hparent hbefore] at hc
      cases hc
    simp only [countOff, Function.update_of_ne hne']
    by_cases hjob : c = job
    · subst hjob
      simp only [countOff, Function.update_self] at hc
      exact hb.isOver c hkind (hover hc)
    · simp only [countOff, Function.update_of_ne hjob] at hc
      exact hb.isOver c hkind hc

/-- A collection counts its own job. -/
theorem countSelf {thread : Thread T} (hb : b.Lawful F)
    (hplace : b.place collection = .held .closing thread) :
    (b.countOff collection collection .waiting).Lawful F := by
  have hout : ∀ c, (b.countOff collection collection .waiting).outstanding F c =
      b.outstanding F c := by
    intro c
    refine outstanding_congr fun element _ => ?_
    by_cases heq : element = collection
    · subst heq
      simp [countOff, hplace, Place.isCounted]
    · simp only [countOff, Function.update_of_ne heq]
  refine ⟨?_, ?_, ?_, ?_, ?_⟩
  · intro c hc
    by_cases heq : c = collection
    · subst heq
      simp [countOff, Place.isLate]
    · simpa only [countOff, Function.update_of_ne heq] using hb.late c hc
  · intro c element hc
    have hfresh := hb.fresh c element hc
    by_cases heq : element = collection
    · subst heq
      simpa [countOff, hplace] using hfresh
    · simpa only [countOff, Function.update_of_ne heq] using hfresh
  · intro c hc
    have hcounter := hb.counter c hc
    rw [hout]
    by_cases heq : c = collection
    · subst heq
      rw [hplace] at hcounter
      simp only [countOff, Function.update_self, Place.isClosing] at hcounter ⊢
      simp only [Bool.toNat_true, Bool.toNat_false] at hcounter ⊢
      omega
    · simpa only [countOff, Function.update_of_ne heq] using hcounter
  · intro c hc
    have hcounter := hb.unopened c hc
    by_cases heq : c = collection
    · subst heq
      simp only [countOff, Function.update_self]
      omega
    · simpa only [countOff, Function.update_of_ne heq] using hcounter
  · intro c hkind hc
    by_cases heq : c = collection
    · subst heq
      simp [countOff, Place.isOver] at hc
    · simp only [countOff, Function.update_of_ne heq] at hc ⊢
      exact hb.isOver c hkind hc

/-- A collection that counts on nothing comes to its end. -/
theorem toEnding {thread : Thread T} (hb : b.Lawful F)
    (hplace : b.place collection = .waiting) (hopened : b.opened collection = true)
    (hzero : b.jobCounter collection = 0) :
    (b.goTo collection (.held .ending thread) events).Lawful F := by
  have hout : ∀ c, (b.goTo collection (.held .ending thread) events).outstanding F c =
      b.outstanding F c := by
    intro c
    refine outstanding_congr fun element _ => ?_
    by_cases heq : element = collection
    · subst heq
      simp [Books.goTo, hplace, Place.isCounted]
    · simp only [Books.goTo, Function.update_of_ne heq]
  refine ⟨?_, ?_, ?_, hb.unopened, ?_⟩
  · intro c hc
    by_cases heq : c = collection
    · subst heq
      simp [Books.goTo, Place.isLate]
    · simpa only [Books.goTo, Function.update_of_ne heq] using hb.late c hc
  · intro c element hc
    have hfresh := hb.fresh c element hc
    by_cases heq : element = collection
    · subst heq
      simpa [Books.goTo, hplace] using hfresh
    · simpa only [Books.goTo, Function.update_of_ne heq] using hfresh
  · intro c hc
    have hcounter := hb.counter c hc
    rw [hout]
    by_cases heq : c = collection
    · subst heq
      rw [hplace] at hcounter
      simpa [Books.goTo, Place.isClosing] using hcounter
    · simpa only [Books.goTo, Function.update_of_ne heq] using hcounter
  · intro c hkind hc
    by_cases heq : c = collection
    · subst heq
      exact ⟨hopened, hzero⟩
    · simp only [Books.goTo, Function.update_of_ne heq] at hc
      exact hb.isOver c hkind hc

theorem takeUp (hb : b.Lawful F) (thread : Thread T) {jobs : List J}
    (hjobs : ∀ job ∈ jobs, F.parent job = none ∧ b.place job = .fresh) :
    Lawful F { b with
      place := fun job => if job ∈ jobs then .held .pending thread else b.place job } := by
  have hunopened : ∀ job ∈ jobs, b.opened job = false := by
    intro job hmem
    refine hb.not_opened ?_
    rw [(hjobs job hmem).2]
    rfl
  have hnot : ∀ c, b.opened c = true → c ∉ jobs := by
    intro c hc hmem
    rw [hunopened c hmem] at hc
    cases hc
  have hnotElement : ∀ c element, F.parent element = some c → element ∉ jobs := by
    intro c element hc hmem
    rw [(hjobs element hmem).1] at hc
    cases hc
  refine ⟨?_, ?_, ?_, hb.unopened, ?_⟩
  · intro c hc
    simpa only [if_neg (hnot c hc)] using hb.late c hc
  · intro c element hc
    simpa only [if_neg (hnotElement c element hc)] using hb.fresh c element hc
  · intro c hc
    rw [outstanding_congr (b := b) fun element helement => by
      simp only [if_neg (hnotElement c element helement)]]
    simpa only [if_neg (hnot c hc)] using hb.counter c hc
  · intro c hkind hc
    by_cases hmem : c ∈ jobs
    · simp [hmem, Place.isOver] at hc
    · simp only [if_neg hmem] at hc
      exact hb.isOver c hkind hc

/-- A collection opens: all of its elements are outstanding, and its own job. -/
theorem openElements {thread : Thread T} (hb : b.Lawful F)
    (hplace : b.place collection = .held .executing thread) :
    (b.openElements F thread collection).Lawful F := by
  have hself : collection ∉ F.elements collection := by
    intro hmem
    exact F.ne_of_parent ((F.mem_elements _ _).mp hmem) rfl
  have hunopened : b.opened collection = false := by
    refine hb.not_opened ?_
    rw [hplace]
    rfl
  have hfresh : ∀ element ∈ F.elements collection, b.place element = .fresh :=
    fun element hmem => (hb.fresh _ _ ((F.mem_elements _ _).mp hmem)).mpr hunopened
  have hother : ∀ {c element}, F.parent element = some c → c ≠ collection →
      element ∉ F.elements collection := by
    intro c element hc hne hmem
    rw [(F.mem_elements _ _).mp hmem] at hc
    exact hne (Option.some.inj hc).symm
  have hnotLate : ∀ c, (b.place c).isLate = true → c ∉ F.elements collection := by
    intro c hc hmem
    rw [hfresh c hmem] at hc
    cases hc
  have hout : ∀ c, c ≠ collection →
      (b.openElements F thread collection).outstanding F c = b.outstanding F c := by
    intro c hne
    refine outstanding_congr fun element helement => ?_
    simp only [Books.openElements, if_neg (hother helement hne)]
    by_cases heq : element = collection
    · subst heq
      simp [hplace, Place.isCounted]
    · rw [Function.update_of_ne heq]
  refine ⟨?_, ?_, ?_, ?_, ?_⟩
  · intro c hc
    by_cases heq : c = collection
    · subst heq
      simp [Books.openElements, hself, Place.isLate]
    · simp only [Books.openElements, Function.update_of_ne heq] at hc
      have hlate := hb.late c hc
      simpa only [Books.openElements, if_neg (hnotLate c hlate), Function.update_of_ne heq]
        using hlate
  · intro c element hc
    by_cases heq : c = collection
    · subst heq
      simp [Books.openElements, (F.mem_elements _ _).mpr hc]
    · have hfresh' := hb.fresh c element hc
      simp only [Books.openElements, Function.update_of_ne heq, if_neg (hother hc heq)]
      by_cases helement : element = collection
      · subst helement
        simpa [hplace] using hfresh'
      · rwa [Function.update_of_ne helement]
  · intro c hc
    by_cases heq : c = collection
    · subst heq
      have hall : (b.openElements F thread c).outstanding F c = (F.elements c).length := by
        refine List.countP_eq_length.mpr fun element hmem => ?_
        simp [Books.openElements, hmem, Place.isCounted]
      rw [hall]
      simp [Books.openElements, hself, Place.isClosing]
    · simp only [Books.openElements, Function.update_of_ne heq] at hc
      have hlate := hb.late c hc
      rw [hout c heq]
      simpa only [Books.openElements, if_neg (hnotLate c hlate), Function.update_of_ne heq]
        using hb.counter c hc
  · intro c hc
    by_cases heq : c = collection
    · subst heq
      simp [Books.openElements] at hc
    · simp only [Books.openElements, Function.update_of_ne heq] at hc ⊢
      exact hb.unopened c hc
  · intro c hkind hc
    by_cases heq : c = collection
    · subst heq
      simp [Books.openElements, hself, Place.isOver] at hc
    · by_cases hmem : c ∈ F.elements collection
      · simp [Books.openElements, hmem, Place.isOver] at hc
      · simp only [Books.openElements, if_neg hmem, Function.update_of_ne heq] at hc ⊢
        exact hb.isOver c hkind hc

omit [DecidableEq J] in
theorem of_log (hb : b.Lawful F) (log : List (Event J T)) : Lawful F { b with log := log } :=
  ⟨hb.late, hb.fresh, hb.counter, hb.unopened, hb.isOver⟩

omit [DecidableEq J] in
/-- The place of a collection whose counter is about to reach zero by an element. -/
theorem waiting_of_last (hb : b.Lawful F) (hparent : F.parent job = some collection)
    (hcounted : (b.place job).isCounted = false) (hfresh : b.place job ≠ .fresh)
    (hlast : b.jobCounter collection = 1) : b.place collection = .waiting := by
  have hopened := hb.opened_of_ne_fresh hparent hfresh
  have hlate := hb.late collection hopened
  have hover := hb.not_over hparent hcounted
  have hcounter := hb.counter collection hopened
  have hpos := outstanding_pos hparent hcounted
  cases hplace : b.place collection with
  | held stage thread =>
      cases stage with
      | closing =>
          simp only [hplace, Place.isClosing, Bool.toNat_true] at hcounter
          omega
      | _ => simp [hplace, Place.isLate, Place.isOver] at hlate hover
  | waiting => rfl
  | _ => simp [hplace, Place.isLate, Place.isOver] at hlate hover

/-- **Every move keeps the books lawful.** -/
theorem move {D : Discipline J T} {b' : Books J T} (hb : b.Lawful F) (h : Move F D b b') :
    b'.Lawful F := by
  cases h with
  | goes hgoes _ => exact hb.goTo hgoes
  | takeUp thread hjobs => exact hb.takeUp thread hjobs
  | openElements _ hplace => exact hb.openElements hplace
  | countSelf hplace _ => exact hb.countSelf hplace
  | countElement hparent hplace _ =>
      apply hb.countElement hparent <;> simp [hplace, Place.isCounted, Place.isLate,
        Place.isClosing, Place.isOver]
  | @endSelf thread c hplace hlast =>
      have hopened : b.opened c = true := by
        by_contra hnot
        have := hb.unopened c (by simpa using hnot)
        omega
      refine (hb.countSelf hplace).toEnding ?_ hopened ?_
      · simp [countOff]
      · simpa [countOff] using hlast
  | @endElement thread c job hparent hplace hlast =>
      have hne : c ≠ job := by
        intro heq
        have hlt := F.height_lt job c hparent
        rw [heq] at hlt
        exact lt_irrefl _ hlt
      have hcounted : (b.place job).isCounted = false := by simp [hplace, Place.isCounted]
      have hfresh : b.place job ≠ .fresh := by simp [hplace]
      have hwaiting := hb.waiting_of_last hparent hcounted hfresh (by omega)
      refine toEnding ?_ ?_ (hb.opened_of_ne_fresh hparent hfresh) ?_
      · apply hb.countElement hparent <;> simp [hplace, Place.isCounted, Place.isLate,
          Place.isClosing, Place.isOver]
      · simpa [countOff, Function.update_of_ne hne] using hwaiting
      · simpa [countOff] using hlast
  | discount hparent hplace _ =>
      apply hb.countElement hparent <;> simp [hplace, Place.isCounted, Place.isLate,
        Place.isClosing, Place.isOver]
  | cleanUp _ _ => exact hb.of_log _
  | finished => exact hb.of_log _
  | finishReturned _ => exact hb.of_log _

end Lawful

end Books

end ThreadWeaver.Collection
