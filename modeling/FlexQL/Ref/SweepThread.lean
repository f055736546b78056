import FlexQL.Lib.Steps

/-!
# The thread of the sweeper (`ttl_manager.cpp`, `database.cpp`)

`TTLManager::start` sets `running_` and makes a thread that runs `sweep_loop`;
`stop` clears `running_`, notifies the thread and joins it. The database calls
them from `start`, `stop` and its destructor, which takes a snapshot behind
`stop`. All of these are called by the thread that owns the database.

`cv_.wait_for(lock, d, pred)` is a loop: while the predicate is false the
thread waits, for a notification, for the time to pass or for no reason; when
the time has passed the predicate is evaluated once more and the wait is over
whatever it says. `mutex_` is locked by nobody but this thread. `running_` is
set and cleared without it, so a notification may come when nobody waits.
-/

namespace FlexQL.Ref

/-- `sweep_thread_`, and where its thread is in `sweep_loop`. -/
inductive SweepPlace where
  /-- There is no thread: it has not been made, or has been joined. -/
  | none
  /-- `while (running_.load())` -/
  | top
  /-- At the predicate of the wait, before or after the time has passed. -/
  | testing (timedOut : Bool)
  /-- In the wait. -/
  | waiting
  /-- `if (!running_.load()) break;` -/
  | checking
  /-- In `sweep_now`. -/
  | sweeping
  /-- Returned, and not joined. -/
  | returned
  deriving DecidableEq, Repr

/-- Where the owner of the database is; in `stop`, whether the destructor has
called it. -/
inductive OwnerPlace where
  | idle
  /-- In `TTLManager::start`, with `running_` set. -/
  | starting
  /-- In `TTLManager::stop`, with `running_` cleared. -/
  | stopping (final : Bool)
  /-- In `TTLManager::stop`, behind the notification. -/
  | joining (final : Bool)
  /-- In the snapshot of the destructor. -/
  | snapshot
  | destroyed
  /-- A thread was assigned to `sweep_thread_` while it had one:
  `std::terminate` -/
  | terminated
  deriving DecidableEq, Repr

/-- The flags `running_` and `started_`, and the two threads. -/
structure SweepService where
  running : Bool
  started : Bool
  sweeper : SweepPlace
  owner : OwnerPlace
  deriving DecidableEq, Repr

namespace SweepService

def new : SweepService := ⟨false, false, .none, .idle⟩

inductive Event where
  /-- `Database::start` -/
  | start
  /-- `sweep_thread_ = std::thread(...)` -/
  | create
  /-- `Database::stop`, or its call in the destructor -/
  | stop (final : Bool)
  /-- `cv_.notify_all()` -/
  | notify
  /-- `sweep_thread_.join()` returns, or there is nothing to join. -/
  | join
  /-- The snapshot of the destructor is done. -/
  | destroy
  /-- The sweeper reads `running_` at the top of its loop. -/
  | load
  /-- It evaluates the predicate. -/
  | test
  /-- It is woken by nobody. -/
  | wake
  /-- The time has passed. -/
  | timeout
  /-- It reads `running_` behind the wait. -/
  | check
  /-- `sweep_now()` -/
  | sweep
  deriving DecidableEq, Repr

/-- The step is one of the sweeper. -/
def Event.ofSweeper : Event → Bool
  | .load | .test | .wake | .timeout | .check | .sweep => true
  | _ => false

/-- Where the owner is behind `stop`. -/
def stopped (final : Bool) : OwnerPlace := if final then .snapshot else .idle

/-- What `notify_all` does to the sweeper. -/
def awake : SweepPlace → SweepPlace
  | .waiting => .testing false
  | place => place

/-- The steps of the owner. -/
inductive OwnerStep : SweepService → Event → SweepService → Prop where
  /-- `started_` is set already. -/
  | startAgain {s : SweepService} : s.owner = .idle → s.started = true → OwnerStep s .start s
  | start {s : SweepService} : s.owner = .idle → s.started = false → s.running = false →
      OwnerStep s .start { s with running := true, owner := .starting }
  /-- `compare_exchange_strong` fails. -/
  | startRunning {s : SweepService} : s.owner = .idle → s.started = false → s.running = true →
      OwnerStep s .start { s with started := true }
  | create {s : SweepService} : s.owner = .starting → s.sweeper = .none →
      OwnerStep s .create { s with started := true, sweeper := .top, owner := .idle }
  | createOver {s : SweepService} : s.owner = .starting → s.sweeper ≠ .none →
      OwnerStep s .create { s with owner := .terminated }
  /-- `started_` is not set. -/
  | stopAgain {s : SweepService} {final : Bool} : s.owner = .idle → s.started = false →
      OwnerStep s (.stop final) { s with owner := stopped final }
  | stop {s : SweepService} {final : Bool} : s.owner = .idle → s.started = true →
      s.running = true →
      OwnerStep s (.stop final) { s with running := false, owner := .stopping final }
  /-- `compare_exchange_strong` fails. -/
  | stopStopped {s : SweepService} {final : Bool} : s.owner = .idle → s.started = true →
      s.running = false →
      OwnerStep s (.stop final) { s with started := false, owner := stopped final }
  | notify {s : SweepService} {final : Bool} : s.owner = .stopping final →
      OwnerStep s .notify { s with sweeper := awake s.sweeper, owner := .joining final }
  | join {s : SweepService} {final : Bool} : s.owner = .joining final →
      s.sweeper = .returned ∨ s.sweeper = .none →
      OwnerStep s .join { s with started := false, sweeper := .none, owner := stopped final }
  | destroy {s : SweepService} : s.owner = .snapshot →
      OwnerStep s .destroy { s with owner := .destroyed }

/-- The steps of the sweeper. -/
inductive SweeperStep : SweepService → Event → SweepService → Prop where
  | load {s : SweepService} : s.sweeper = .top →
      SweeperStep s .load { s with sweeper := if s.running then .testing false else .returned }
  | test {s : SweepService} : s.sweeper = .testing false →
      SweeperStep s .test { s with sweeper := if s.running then .waiting else .checking }
  | testTimedOut {s : SweepService} : s.sweeper = .testing true →
      SweeperStep s .test { s with sweeper := .checking }
  | wake {s : SweepService} : s.sweeper = .waiting →
      SweeperStep s .wake { s with sweeper := .testing false }
  | timeout {s : SweepService} : s.sweeper = .waiting →
      SweeperStep s .timeout { s with sweeper := .testing true }
  | check {s : SweepService} : s.sweeper = .checking →
      SweeperStep s .check { s with sweeper := if s.running then .sweeping else .returned }
  | sweep {s : SweepService} : s.sweeper = .sweeping →
      SweeperStep s .sweep { s with sweeper := .top }

/-- A step of one of the two. -/
def Step (s : SweepService) (e : Event) (s' : SweepService) : Prop :=
  OwnerStep s e s' ∨ SweeperStep s e s'

end SweepService

end FlexQL.Ref
