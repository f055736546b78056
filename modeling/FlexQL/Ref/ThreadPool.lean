import Mathlib.Data.Fin.Basic
import Mathlib.Logic.Function.Basic

/-!
# The thread pool (`thread_pool.h`, `thread_pool.cpp`)

The threads are the workers, those that submit tasks and the one that shuts
the pool down; `shutdown_called_` lets no second one through. They share the
queue and the flag `stop_`. The queue is read and written under
`queue_mutex_`, the flag is written without it.

`cv_.wait(lock, pred)` evaluates the predicate with the mutex held, and if it
is false gives the mutex up and goes to sleep in one step. A worker that is
woken, by a notification or for no reason, takes the mutex and evaluates the
predicate again. A notification wakes workers that are asleep when it is made
and is lost otherwise.

A step is what one thread does between two points where another can see the
difference.
-/

namespace FlexQL.Ref

/-- Where a worker is. -/
inductive Worker (τ : Type) where
  /-- It wants the mutex, or has it. -/
  | ready
  /-- Asleep in `cv_.wait`. -/
  | waiting
  /-- In `task()`. -/
  | running (task : τ)
  /-- Its thread has ended. -/
  | returned

/-- Who holds `queue_mutex_`, and what it does next. -/
inductive Holder (n : Nat) (τ : Type) where
  | free
  /-- The worker evaluates the predicate. -/
  | testing (w : Fin n)
  /-- The predicate was false: the worker gives the mutex up and sleeps. -/
  | dozing (w : Fin n)
  /-- The predicate was true: the worker returns or takes a task. -/
  | deciding (w : Fin n)
  /-- The submitter has found `stop_` unset: it adds its task. -/
  | submitting (task : τ)

/-- Where the thread is that shuts the pool down. -/
inductive Shutdown where
  | before
  | stored
  | notified
  | joined

/-- `ThreadPool` with `n` workers, and where its threads are. -/
structure ThreadPool (n : Nat) (τ : Type) where
  tasks : List τ
  stop : Bool
  mutex : Holder n τ
  workers : Fin n → Worker τ
  /-- The submitters that have added their task and not called `notify_one`. -/
  notices : Nat
  shutdown : Shutdown

namespace ThreadPool

variable {n : Nat} {τ : Type}

/-- The constructor. -/
def new (n : Nat) (τ : Type) : ThreadPool n τ where
  tasks := []
  stop := false
  mutex := .free
  workers := fun _ => .ready
  notices := 0
  shutdown := .before

/-- The worker is somewhere else. -/
def move (s : ThreadPool n τ) (w : Fin n) (place : Worker τ) : ThreadPool n τ :=
  { s with workers := Function.update s.workers w place }

/-- What `notify_all` does to a worker. -/
def awake : Worker τ → Worker τ
  | .waiting => .ready
  | place => place

/-- The steps of the threads. -/
inductive Event (n : Nat) (τ : Type) where
  /-- `std::unique_lock<std::mutex> lock(queue_mutex_)`, or the lock again
  behind a wait. -/
  | lock (w : Fin n)
  /-- `stop_.load() || !tasks_.empty()` -/
  | test (w : Fin n) (result : Bool)
  /-- The wait begins. -/
  | doze (w : Fin n)
  /-- The wait ends for no reason. -/
  | wake (w : Fin n)
  /-- `if (stop_.load() && tasks_.empty()) return;` -/
  | leave (w : Fin n)
  /-- `task = std::move(tasks_.front()); tasks_.pop();` -/
  | take (w : Fin n) (task : τ)
  /-- `task()` has returned. -/
  | finish (w : Fin n) (task : τ)
  /-- `submit` has found the flag set, and throws. -/
  | refuse (task : τ)
  /-- `submit` has found the flag unset. -/
  | approve (task : τ)
  /-- `tasks_.emplace(...)` -/
  | push (task : τ)
  /-- `cv_.notify_one()`, and the worker it wakes. -/
  | notifyOne (woken : Option (Fin n))
  /-- `stop_.store(true)` -/
  | store
  /-- `cv_.notify_all()` -/
  | notifyAll
  /-- The last `worker.join()` has returned. -/
  | join

/-- One step of one thread. -/
inductive Step : ThreadPool n τ → Event n τ → ThreadPool n τ → Prop where
  | lock {s : ThreadPool n τ} {w : Fin n} : s.mutex = .free → s.workers w = .ready →
      Step s (.lock w) { s with mutex := .testing w }
  | pass {s : ThreadPool n τ} {w : Fin n} : s.mutex = .testing w →
      (s.stop || !s.tasks.isEmpty) = true →
      Step s (.test w true) { s with mutex := .deciding w }
  | fail {s : ThreadPool n τ} {w : Fin n} : s.mutex = .testing w →
      (s.stop || !s.tasks.isEmpty) = false →
      Step s (.test w false) { s with mutex := .dozing w }
  | doze {s : ThreadPool n τ} {w : Fin n} : s.mutex = .dozing w →
      Step s (.doze w) { s.move w .waiting with mutex := .free }
  | wake {s : ThreadPool n τ} {w : Fin n} : s.workers w = .waiting →
      Step s (.wake w) (s.move w .ready)
  | leave {s : ThreadPool n τ} {w : Fin n} : s.mutex = .deciding w →
      (s.stop && s.tasks.isEmpty) = true →
      Step s (.leave w) { s.move w .returned with mutex := .free }
  | take {s : ThreadPool n τ} {w : Fin n} {task : τ} {tasks : List τ} :
      s.mutex = .deciding w → (s.stop && s.tasks.isEmpty) = false → s.tasks = task :: tasks →
      Step s (.take w task) { s.move w (.running task) with mutex := .free, tasks := tasks }
  | finish {s : ThreadPool n τ} {w : Fin n} {task : τ} : s.workers w = .running task →
      Step s (.finish w task) (s.move w .ready)
  | refuse {s : ThreadPool n τ} {task : τ} : s.mutex = .free → s.stop = true →
      Step s (.refuse task) s
  | approve {s : ThreadPool n τ} {task : τ} : s.mutex = .free → s.stop = false →
      Step s (.approve task) { s with mutex := .submitting task }
  | push {s : ThreadPool n τ} {task : τ} : s.mutex = .submitting task →
      Step s (.push task)
        { s with mutex := .free, tasks := s.tasks ++ [task], notices := s.notices + 1 }
  | notifyOne {s : ThreadPool n τ} {w : Fin n} {notices : Nat} : s.notices = notices + 1 →
      s.workers w = .waiting →
      Step s (.notifyOne (some w)) { s.move w .ready with notices := notices }
  | notifyNone {s : ThreadPool n τ} {notices : Nat} : s.notices = notices + 1 →
      (∀ w, s.workers w ≠ .waiting) →
      Step s (.notifyOne none) { s with notices := notices }
  | store {s : ThreadPool n τ} : s.shutdown = .before →
      Step s .store { s with stop := true, shutdown := .stored }
  | notifyAll {s : ThreadPool n τ} : s.shutdown = .stored →
      Step s .notifyAll
        { s with workers := fun w => awake (s.workers w), shutdown := .notified }
  | join {s : ThreadPool n τ} : s.shutdown = .notified → (∀ w, s.workers w = .returned) →
      Step s .join { s with shutdown := .joined }

end ThreadPool

end FlexQL.Ref
