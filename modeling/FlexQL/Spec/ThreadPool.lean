import FlexQL.Lib.Steps
import FlexQL.Ref.ThreadPool
import Mathlib.Algebra.BigOperators.Group.Finset.Basic
import Mathlib.Data.Fintype.Basic

/-!
# What the thread pool is for

`Pool` has one step for each critical section. A submission adds its task or is
refused, a worker takes the first task, ends or finds nothing to do, and the
flag is set at some point. What was accepted, taken and finished can be read
off the steps.

`Stranded` is about the pool as it is: the last notification has been made,
there is nothing to do, and a worker is asleep.
-/

namespace FlexQL.Spec

open Lib FlexQL.Ref

/-- What a worker has in hand. -/
inductive Hand (τ : Type) where
  | idle
  | running (task : τ)
  | returned

/-- The pool between two critical sections. -/
structure Pool (n : Nat) (τ : Type) where
  tasks : List τ
  stop : Bool
  workers : Fin n → Hand τ

namespace Pool

variable {n : Nat} {τ : Type}

def new (n : Nat) (τ : Type) : Pool n τ := ⟨[], false, fun _ => .idle⟩

inductive Event (n : Nat) (τ : Type) where
  /-- `submit` adds the task. -/
  | accept (task : τ)
  /-- `submit` throws. -/
  | reject (task : τ)
  /-- A worker takes the task. -/
  | take (w : Fin n) (task : τ)
  /-- A worker returns. -/
  | leave (w : Fin n)
  /-- A worker has nothing to do yet. -/
  | rest (w : Fin n)
  /-- The task of a worker has returned. -/
  | finish (w : Fin n) (task : τ)
  /-- `shutdown` sets the flag. -/
  | store

inductive Step : Pool n τ → Event n τ → Pool n τ → Prop where
  | accept {s : Pool n τ} {task : τ} : s.stop = false →
      Step s (.accept task) { s with tasks := s.tasks ++ [task] }
  | reject {s : Pool n τ} {task : τ} : s.stop = true → Step s (.reject task) s
  | take {s : Pool n τ} {w : Fin n} {task : τ} {tasks : List τ} : s.workers w = .idle →
      s.tasks = task :: tasks →
      Step s (.take w task)
        { s with tasks := tasks, workers := Function.update s.workers w (.running task) }
  | leave {s : Pool n τ} {w : Fin n} : s.workers w = .idle → s.tasks = [] → s.stop = true →
      Step s (.leave w) { s with workers := Function.update s.workers w .returned }
  | rest {s : Pool n τ} {w : Fin n} : s.workers w = .idle → s.tasks = [] → s.stop = false →
      Step s (.rest w) s
  | finish {s : Pool n τ} {w : Fin n} {task : τ} : s.workers w = .running task →
      Step s (.finish w task) { s with workers := Function.update s.workers w .idle }
  | store {s : Pool n τ} : Step s .store { s with stop := true }

/-- The tasks accepted in a run, in order. -/
def accepted (l : List (Event n τ)) : List τ :=
  l.filterMap fun
    | .accept task => some task
    | _ => none

/-- The tasks taken from the queue, in order. -/
def dequeued (l : List (Event n τ)) : List τ :=
  l.filterMap fun
    | .take _ task => some task
    | _ => none

/-- The tasks that have been run, in the order they ended. -/
def finished (l : List (Event n τ)) : List τ :=
  l.filterMap fun
    | .finish _ task => some task
    | _ => none

/-- The tasks a worker has in hand. -/
def tasksOf : Hand τ → Multiset τ
  | .running task => {task}
  | _ => 0

/-- The tasks that are being run. -/
def inHand (s : Pool n τ) : Multiset τ := ∑ w, tasksOf (s.workers w)

end Pool

variable {n : Nat} {τ : Type}

/-- Nothing will wake the worker: `notify_all` has been called, no
`notify_one` is to come, and there is no task that one is to come for. -/
structure Stranded (s : ThreadPool n τ) (w : Fin n) : Prop where
  notified : s.shutdown = .notified
  tasks : s.tasks = []
  notices : s.notices = 0
  quiet : ∀ task, s.mutex ≠ .submitting task
  waiting : s.workers w = .waiting

/-- No worker is on its way to sleep when `notify_all` is called. -/
def Prompt (s : ThreadPool n τ) : ThreadPool.Event n τ → Prop
  | .notifyAll => ∀ w, s.mutex ≠ .dozing w
  | _ => True

/-- The steps at which this is so. -/
def PromptStep (s : ThreadPool n τ) (e : ThreadPool.Event n τ) (s' : ThreadPool n τ) : Prop :=
  ThreadPool.Step s e s' ∧ Prompt s e

/-- What a worker of the pool has in hand. -/
def handOf : Worker τ → Hand τ
  | .ready => .idle
  | .waiting => .idle
  | .running task => .running task
  | .returned => .returned

/-- The task that is being added. -/
def adding : Holder n τ → List τ
  | .submitting task => [task]
  | _ => []

/-- The pool as its critical sections see it: a submission has taken place
when it has found the flag unset. -/
def poolOf (s : ThreadPool n τ) : Pool n τ :=
  ⟨s.tasks ++ adding s.mutex, s.stop, fun w => handOf (s.workers w)⟩

/-- The critical section that a step decides. -/
def sectionOf : ThreadPool.Event n τ → Option (Pool.Event n τ)
  | .test w false => some (.rest w)
  | .leave w => some (.leave w)
  | .take w task => some (.take w task)
  | .finish w task => some (.finish w task)
  | .refuse task => some (.reject task)
  | .approve task => some (.accept task)
  | .store => some .store
  | _ => none

end FlexQL.Spec
