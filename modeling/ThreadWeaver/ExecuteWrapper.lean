import Mathlib.Logic.Function.Basic
import Mathlib.Tactic.Common

/-!
# Executors as pointers

The executors of a job are a chain of objects, each with an atomic pointer to the next one.
`addJob` pushes a `CollectionExecuteWrapper` onto the chain of the element, enqueueing a
collection pushes its `selfExecuteWrapper` and a `CollectionExecuteWrapper` of its own, and
dequeueing pops these two and deletes the second.  Here the chain is memory: the pointer in
`Job_Private`, the link of the self wrapper, and the wrappers that have been allocated, by
their addresses.

`aboutToBeDequeued_aboutToBeQueued` is an equation of such memories, so nothing is left behind
and no link differs.
-/

namespace ThreadWeaver

/-! ## The chain of a job -/

/-- A pointer in the chain of a job.  No wrapper is in the chains of two jobs. -/
inductive ExecutorPointer (A : Type*)
  | defaultExecutor
  /-- an executor of the program, which wraps no other one -/
  | executor (address : A)
  /-- the `selfExecuteWrapper` of the job, a collection -/
  | selfExecuteWrapper
  /-- a wrapper that has been allocated -/
  | wrapper (number : ℕ)
  deriving DecidableEq, Repr

/-- An `ExecuteWrapper` that has been allocated: the `CollectionExecuteWrapper` of a
collection, or one of another class that passes every call on, as `DebugExecuteWrapper`
does. -/
structure ExecuteWrapper (J A : Type*) where
  collection : Option J
  wrapped : Option (ExecutorPointer A)
  deriving DecidableEq, Repr

/-- The executors of a job: `executor` in `Job_Private`, the pointer in the self wrapper of a
collection, and the wrappers that have been allocated for the job. -/
structure ExecutorChain (J A : Type*) where
  executor : ExecutorPointer A
  selfWrapped : Option (ExecutorPointer A)
  heap : ℕ → Option (ExecuteWrapper J A)

/-- What a call to the first executor of a chain calls. -/
inductive ExecutorCall (J A : Type*)
  | defaultBegin
  | run
  | defaultEnd
  | elementStarted (collection : J)
  | elementFinished (collection : J)
  | begin (address : A)
  | execute (address : A)
  | «end» (address : A)
  /-- the self wrapper stores the job and the thread -/
  | store
  /-- a call through a null pointer or to a wrapper that has been deleted -/
  | dangling
  deriving DecidableEq, Repr

namespace ExecutorChain

variable {J A : Type*}

/-- `Job::setExecutor`. -/
def setExecutor (executor : Option (ExecutorPointer A)) (chain : ExecutorChain J A) :
    ExecutorChain J A :=
  { chain with executor := executor.getD .defaultExecutor }

/-- `wrapped` of an executor. -/
def wrapped (pointer : ExecutorPointer A) (chain : ExecutorChain J A) :
    Option (ExecutorPointer A) :=
  match pointer with
  | .selfExecuteWrapper => chain.selfWrapped
  | .wrapper number => (chain.heap number).bind ExecuteWrapper.wrapped
  | .defaultExecutor | .executor _ => none

def setWrapped (pointer : ExecutorPointer A) (link : Option (ExecutorPointer A))
    (chain : ExecutorChain J A) : ExecutorChain J A :=
  match pointer with
  | .selfExecuteWrapper => { chain with selfWrapped := link }
  | .wrapper number =>
      { chain with
        heap := Function.update chain.heap number
          ((chain.heap number).map fun wrapper => { wrapper with wrapped := link }) }
  | .defaultExecutor | .executor _ => chain

/-- `wrapper->wrap(job->setExecutor(wrapper))`. -/
def wrap (pointer : ExecutorPointer A) (chain : ExecutorChain J A) : ExecutorChain J A :=
  (chain.setExecutor (some pointer)).setWrapped pointer (some chain.executor)

/-- `ExecuteWrapper::unwrap`. -/
def unwrap (pointer : ExecutorPointer A) (chain : ExecutorChain J A) : ExecutorChain J A :=
  (chain.setWrapped pointer none).setExecutor (chain.wrapped pointer)

/-- `new CollectionExecuteWrapper` at an address, and `setCollection`. -/
def newWrapper (collection : J) (number : ℕ) (chain : ExecutorChain J A) : ExecutorChain J A :=
  { chain with heap := Function.update chain.heap number (some ⟨some collection, none⟩) }

/-- `ownedByJob` of the executor at a pointer. -/
def ownedByJob (pointer : ExecutorPointer A) (chain : ExecutorChain J A) : Bool :=
  match pointer with
  | .wrapper number => (chain.heap number).any fun wrapper => wrapper.collection.isSome
  | _ => false

/-- `delete` of a wrapper, whose destructor deletes the wrapper it points to, and so on along a
chain of the given length. -/
def deleteWrapper : ℕ → ExecutorPointer A → ExecutorChain J A → ExecutorChain J A
  | length, .wrapper number, chain =>
      let next := chain.wrapped (.wrapper number)
      let chain := { chain with heap := Function.update chain.heap number none }
      match length, next with
      | length + 1, some next =>
          if chain.ownedByJob next then chain.deleteWrapper length next else chain
      | _, _ => chain
  | _, _, chain => chain

/-- What `Collection::aboutToBeQueued_locked` does with the chain. -/
def aboutToBeQueued (collection : J) (number : ℕ) (chain : ExecutorChain J A) :
    ExecutorChain J A :=
  let chain := chain.wrap .selfExecuteWrapper
  let chain := chain.newWrapper collection number
  chain.wrap (.wrapper number)

/-- What `Collection::aboutToBeDequeued_locked` does with the chain. -/
def aboutToBeDequeued (length : ℕ) (chain : ExecutorChain J A) : ExecutorChain J A :=
  let wrapper := chain.executor
  let chain := (chain.unwrap wrapper).deleteWrapper length wrapper
  chain.unwrap .selfExecuteWrapper

/-- What `Collection::addJob` does with the chain of the element. -/
def addedTo (collection : J) (number : ℕ) (chain : ExecutorChain J A) : ExecutorChain J A :=
  (chain.newWrapper collection number).wrap (.wrapper number)

/-- **Dequeueing takes back what enqueueing does to the chain**, whatever the chain is and
however far destructors follow it. -/
theorem aboutToBeDequeued_aboutToBeQueued {chain : ExecutorChain J A} {number : ℕ}
    (collection : J) (length : ℕ) (hself : chain.selfWrapped = none)
    (hnew : chain.heap number = none) :
    (chain.aboutToBeQueued collection number).aboutToBeDequeued length = chain := by
  obtain ⟨executor, selfWrapped, heap⟩ := chain
  obtain rfl : selfWrapped = none := hself
  have hfree : Function.update heap number none = heap := by
    rw [← hnew]
    exact Function.update_eq_self number heap
  -- the wrapper has been unwrapped when it is deleted, so that its destructor stops there
  cases length <;>
    simp [aboutToBeQueued, aboutToBeDequeued, wrap, unwrap, setExecutor, setWrapped, wrapped,
      newWrapper, deleteWrapper, hfree]

/-- The asserts of `Collection::aboutToBeDequeued_locked` about the executors hold. -/
theorem executor_aboutToBeQueued (collection : J) (number : ℕ) (chain : ExecutorChain J A) :
    (chain.aboutToBeQueued collection number).executor = .wrapper number ∧
      (chain.aboutToBeQueued collection number).heap number =
        some ⟨some collection, some .selfExecuteWrapper⟩ := by
  constructor
  · rfl
  · simp [aboutToBeQueued, wrap, setExecutor, setWrapped, newWrapper]

/-- `addJob` takes the address from the free ones. -/
theorem heap_addedTo {chain : ExecutorChain J A} {collection : J} {number other : ℕ} :
    (chain.addedTo collection number).heap other = none ↔
      other ≠ number ∧ chain.heap other = none := by
  by_cases hother : other = number
  · subst hother
    simp [addedTo, newWrapper, wrap, setExecutor, setWrapped]
  · simp [addedTo, newWrapper, wrap, setExecutor, setWrapped, hother]

/-! ## Calls along a chain -/

/-- `begin` of the executor at a pointer, along a chain of the given length.  That of a
`CollectionExecuteWrapper` calls the executor in it twice. -/
def begin (chain : ExecutorChain J A) : ℕ → Option (ExecutorPointer A) → List (ExecutorCall J A)
  | 0, _ => []
  | _, none => [.dangling]
  | _, some .defaultExecutor => [.defaultBegin]
  | _, some (.executor address) => [.begin address]
  | _, some .selfExecuteWrapper => [.store]
  | length + 1, some (.wrapper number) =>
      match chain.heap number with
      | none => [.dangling]
      | some wrapper =>
          let inner := chain.begin length wrapper.wrapped
          match wrapper.collection with
          | none => inner
          | some collection => inner ++ .elementStarted collection :: inner

/-- `execute` of the executor at a pointer. -/
def execute (chain : ExecutorChain J A) :
    ℕ → Option (ExecutorPointer A) → List (ExecutorCall J A)
  | 0, _ => []
  | _, none => [.dangling]
  | _, some .defaultExecutor => [.run]
  | _, some (.executor address) => [.execute address]
  | length + 1, some .selfExecuteWrapper => chain.execute length chain.selfWrapped
  | length + 1, some (.wrapper number) =>
      match chain.heap number with
      | none => [.dangling]
      | some wrapper => chain.execute length wrapper.wrapped

/-- `end` of the executor at a pointer. -/
def «end» (chain : ExecutorChain J A) : ℕ → Option (ExecutorPointer A) → List (ExecutorCall J A)
  | 0, _ => []
  | _, none => [.dangling]
  | _, some .defaultExecutor => [.defaultEnd]
  | _, some (.executor address) => [.end address]
  | _, some .selfExecuteWrapper => [.store]
  | length + 1, some (.wrapper number) =>
      match chain.heap number with
      | none => [.dangling]
      | some wrapper =>
          chain.end length wrapper.wrapped ++
            (wrapper.collection.map ExecutorCall.elementFinished).toList

/-- `CollectionSelfExecuteWrapper::callBegin`. -/
def callBegin (length : ℕ) (chain : ExecutorChain J A) : List (ExecutorCall J A) :=
  chain.begin length chain.selfWrapped

/-- `CollectionSelfExecuteWrapper::callEnd`. -/
def callEnd (length : ℕ) (chain : ExecutorChain J A) : List (ExecutorCall J A) :=
  chain.end length chain.selfWrapped

end ExecutorChain

end ThreadWeaver
