import FlexQL.Proofs.Shutdown
import Mathlib.Algebra.BigOperators.Group.Finset.Piecewise

/-!
# No task waits for a sleeping worker

`submit` wakes one worker, or none if none sleeps. While a worker sleeps, every
task in the queue has a worker of its own that is up, or a notification that is
on its way: a worker falls asleep only when the queue is empty, and one that
takes a task takes one from the queue. So the first task can always be taken,
without a wake-up for no reason, unless all workers are busy.
-/

namespace FlexQL.Proofs

open Lib FlexQL.Ref FlexQL.Spec

variable {n : Nat} {τ : Type} {s s' : ThreadPool n τ} {e : ThreadPool.Event n τ}
  {l : List (ThreadPool.Event n τ)}

/-- The worker is up and has nothing in hand. -/
def isReady : Worker τ → Bool
  | .ready => true
  | _ => false

/-- The workers that are up and have nothing in hand. -/
def readyWorkers (s : ThreadPool n τ) : Nat := ∑ w, (isReady (s.workers w)).toNat

theorem readyWorkers_update (workers : Fin n → Worker τ) (w : Fin n) (place : Worker τ) :
    ∑ v, (isReady (Function.update workers w place v)).toNat + (isReady (workers w)).toNat =
      ∑ v, (isReady (workers v)).toNat + (isReady place).toNat := by
  have hcomp : ∀ v, (isReady (Function.update workers w place v)).toNat =
      Function.update (fun v => (isReady (workers v)).toNat) w (isReady place).toNat v :=
    fun v => Function.apply_update (fun _ p => (isReady p).toNat) workers w place v
  simp only [hcomp]
  rw [Finset.sum_update_of_mem (Finset.mem_univ w),
    ← Finset.add_sum_erase Finset.univ (fun v => (isReady (workers v)).toNat) (Finset.mem_univ w),
    Finset.sdiff_singleton_eq_erase]
  omega

/-- The workers that are ready, after one of them has moved. -/
theorem readyWorkers_move (s : ThreadPool n τ) (w : Fin n) (place : Worker τ) :
    readyWorkers (s.move w place) + (isReady (s.workers w)).toNat =
      readyWorkers s + (isReady place).toNat := readyWorkers_update s.workers w place

/-- Every task has a worker that is up, or a notification on its way, unless
nobody sleeps. -/
def Attended (s : ThreadPool n τ) : Prop :=
  s.tasks.length ≤ s.notices + readyWorkers s ∨ ∀ w, s.workers w ≠ .waiting

theorem attended_of_nil (h : s.tasks = []) : Attended s := .inl (by rw [h]; exact Nat.zero_le _)

/-- A worker that gets up adds to those that are ready. -/
theorem Attended.rise (h : Attended s) {w : Fin n} {notices : Nat} (hw : s.workers w = .waiting)
    (hle : s.notices ≤ notices + 1) : Attended { s.move w .ready with notices := notices } := by
  have hmove := readyWorkers_move s w .ready
  rw [hw] at hmove
  simp only [isReady, Bool.toNat_false, Bool.toNat_true] at hmove
  rcases h with h | h
  · refine .inl ?_
    show s.tasks.length ≤ notices + readyWorkers (s.move w .ready)
    omega
  · exact absurd hw (h w)

/-- A worker that moves on and does not fall asleep; if it was ready there is a
task less. -/
theorem Attended.move (h : Attended s) {w : Fin n} {place : Worker τ} {tasks : List τ}
    {mutex : Holder n τ} (hplace : place ≠ .waiting)
    (hle : tasks.length + (isReady (s.workers w)).toNat ≤
      s.tasks.length + (isReady place).toNat) :
    Attended { s.move w place with mutex := mutex, tasks := tasks } := by
  have hmove := readyWorkers_move s w place
  rcases h with h | h
  · refine .inl ?_
    show tasks.length ≤ s.notices + readyWorkers (s.move w place)
    omega
  · exact .inr fun v => ne_waiting_update (h v) hplace

theorem Attended.step (h : Attended s) (ho : Orderly s) (hstep : ThreadPool.Step s e s') :
    Attended s' := by
  cases hstep with
  | lock => exact h
  | pass => exact h
  | fail => exact h
  | doze hmutex => exact attended_of_nil (ho.dozing _ hmutex)
  | wake hw => exact h.rise hw (Nat.le_succ _)
  | leave hmutex hleave =>
      exact attended_of_nil (List.isEmpty_iff.1 (Bool.and_eq_true_iff.1 hleave).2)
  | @take w task tasks hmutex hstay htasks =>
      have hready := ho.inside w (by rw [hmutex]; rfl)
      refine h.move (by simp) ?_
      rw [hready, htasks]
      exact Nat.le_refl _
  | @finish w task hrunning =>
      refine h.move (by simp) ?_
      rw [hrunning]
      exact Nat.le_succ _
  | refuse => exact h
  | approve => exact h
  | push =>
      refine h.imp_left fun hle => ?_
      show (s.tasks ++ [_]).length ≤ s.notices + 1 + readyWorkers s
      rw [List.length_append, List.length_singleton]
      omega
  | notifyOne hnotices hw => exact h.rise hw (Nat.le_of_eq hnotices)
  | notifyNone hnotices hnone => exact .inr hnone
  | store => exact h
  | notifyAll => exact .inr fun w => by dsimp only; cases s.workers w <;> simp [ThreadPool.awake]
  | join => exact h

theorem attended_run (h : Steps ThreadPool.Step (ThreadPool.new n τ) l s) : Attended s := by
  refine (h.invariant (P := fun _ s => Orderly s ∧ Attended s)
    ⟨orderly_new, attended_of_nil rfl⟩ ?_).2
  intro _ s e s' hs hstep
  exact ⟨hs.1.step hstep, hs.2.step hs.1 hstep⟩

/-! ## The first task can be taken -/

/-- The steps on the way of a task to a worker: nothing else is submitted or
finished, and nobody wakes for no reason. -/
def onTheWay : ThreadPool.Event n τ → Bool
  | .lock _ | .test _ _ | .push _ | .notifyOne _ | .take _ _ => true
  | _ => false

/-- The first task of the queue is taken, by steps on its way. -/
def Takes (s : ThreadPool n τ) (task : τ) : Prop :=
  ∃ w l s', Steps ThreadPool.Step s (l ++ [.take w task]) s' ∧ ∀ e ∈ l, onTheWay e = true

theorem Takes.cons {task : τ} (h : Takes s' task) (hstep : ThreadPool.Step s e s')
    (he : onTheWay e = true) : Takes s task := by
  obtain ⟨w, l, s₁, hrun, hl⟩ := h
  exact ⟨w, e :: l, s₁, .cons hstep hrun, List.forall_mem_cons.2 ⟨he, hl⟩⟩

theorem stays_of_cons {task : τ} {tasks : List τ} (htasks : s.tasks = task :: tasks) :
    (s.stop && s.tasks.isEmpty) = false ∧ (s.stop || !s.tasks.isEmpty) = true := by
  simp [htasks]

theorem takes_of_deciding {w : Fin n} {task : τ} {tasks : List τ} (hmutex : s.mutex = .deciding w)
    (htasks : s.tasks = task :: tasks) : Takes s task :=
  ⟨w, [], _, .single (.take hmutex (stays_of_cons htasks).1 htasks),
    fun _ he => absurd he List.not_mem_nil⟩

theorem takes_of_testing {w : Fin n} {task : τ} {tasks : List τ} (hmutex : s.mutex = .testing w)
    (htasks : s.tasks = task :: tasks) : Takes s task :=
  (takes_of_deciding (s := { s with mutex := .deciding w }) rfl htasks).cons
    (.pass hmutex (stays_of_cons htasks).2) rfl

theorem takes_of_ready {w : Fin n} {task : τ} {tasks : List τ} (hfree : s.mutex = .free)
    (hready : s.workers w = .ready) (htasks : s.tasks = task :: tasks) : Takes s task :=
  (takes_of_testing (s := { s with mutex := .testing w }) rfl htasks).cons
    (.lock hfree hready) rfl

theorem readyWorkers_eq_zero (h : ∀ w, s.workers w ≠ .ready) : readyWorkers s = 0 := by
  refine Finset.sum_eq_zero fun w _ => ?_
  cases hw : s.workers w with
  | ready => exact absurd hw (h w)
  | _ => rfl

/-- Nobody has the mutex: a worker that is up takes it, or one is woken. -/
theorem Attended.takes_of_free (h : Attended s) (hended : Ended (poolOf s))
    (hfree : s.mutex = .free) {task : τ} {tasks : List τ} (htasks : s.tasks = task :: tasks) :
    (∀ w, ∃ task', s.workers w = .running task') ∨ Takes s task := by
  by_cases hready : ∃ w, s.workers w = .ready
  · obtain ⟨w, hw⟩ := hready
    exact .inr (takes_of_ready hfree hw htasks)
  have hnone : ∀ w, s.workers w ≠ .ready := fun w hw => hready ⟨w, hw⟩
  by_cases hwaiting : ∃ w, s.workers w = .waiting
  · obtain ⟨w, hw⟩ := hwaiting
    obtain ⟨notices, hnotices⟩ : ∃ notices, s.notices = notices + 1 := by
      have hle := h.resolve_right fun hup => hup w hw
      rw [htasks, readyWorkers_eq_zero hnone, List.length_cons] at hle
      exact ⟨s.notices - 1, by omega⟩
    refine .inr ((takes_of_ready (s := { s.move w .ready with notices := notices }) (w := w)
      hfree ?_ htasks).cons (.notifyOne hnotices hw) rfl)
    exact Function.update_self w _ _
  · refine .inl fun w => ?_
    cases hw : s.workers w with
    | ready => exact absurd hw (hnone w)
    | waiting => exact absurd ⟨w, hw⟩ hwaiting
    | running task' => exact ⟨task', rfl⟩
    | returned =>
        have hempty := (hended w (congrArg handOf hw)).2
        rw [poolOf_tasks (by rw [hfree]; rfl), htasks] at hempty
        exact absurd hempty (by simp)

/-- Whatever the threads have done: while a worker sleeps, each task in the
queue has a worker that is up or a notification on its way; and the first task
can be taken before anything else ends or is submitted, unless every worker is
busy with a task. -/
theorem first_task_taken (h : Steps ThreadPool.Step (ThreadPool.new n τ) l s) :
    (∀ w, s.workers w = .waiting → s.tasks.length ≤ s.notices + readyWorkers s) ∧
      ∀ task tasks, s.tasks = task :: tasks →
        (∀ w, ∃ task', s.workers w = .running task') ∨ Takes s task := by
  have hattended := attended_run h
  have hended := pool_ended_run (threadPool_refines h)
  refine ⟨fun w hw => hattended.resolve_right fun hup => hup w hw, fun task tasks htasks => ?_⟩
  cases hmutex : s.mutex with
  | free => exact hattended.takes_of_free hended hmutex htasks
  | testing w => exact .inr (takes_of_testing hmutex htasks)
  | deciding w => exact .inr (takes_of_deciding hmutex htasks)
  | dozing w =>
      have hempty := (orderly_run h).dozing w hmutex
      rw [htasks] at hempty
      exact absurd hempty (by simp)
  | submitting task' =>
      have hpush := ThreadPool.Step.push hmutex
      have hfirst : s.tasks ++ [task'] = task :: (tasks ++ [task']) := by rw [htasks]; rfl
      refine ((attended_run (h.snoc hpush)).takes_of_free
        (pool_ended_run (threadPool_refines (h.snoc hpush))) rfl hfirst).imp_right fun htakes => ?_
      exact htakes.cons hpush rfl

/-- The only worker sleeps, and the task has just been added. -/
theorem first_task_taken_asleep : ∃ l, ∃ s : ThreadPool 1 Nat,
    Steps ThreadPool.Step (ThreadPool.new 1 Nat) l s ∧ s.workers 0 = .waiting ∧ s.tasks = [7] ∧
      (∀ w, s.workers w = .waiting → s.tasks.length ≤ s.notices + readyWorkers s) ∧
      ∀ task tasks, s.tasks = task :: tasks →
        (∀ w, ∃ task', s.workers w = .running task') ∨ Takes s task :=
  have hrun : Steps ThreadPool.Step (ThreadPool.new 1 Nat)
      [.lock 0, .test 0 false, .doze 0, .approve 7, .push 7] _ :=
    .cons (.lock rfl rfl) <| .cons (.fail rfl rfl) <| .cons (.doze rfl) <|
      .cons (.approve rfl rfl) <| .single (.push rfl)
  ⟨_, _, hrun, rfl, rfl, first_task_taken hrun⟩

end FlexQL.Proofs
