import FlexQL.Spec.ThreadPool

/-!
# The thread pool

A step of `Pool` moves tasks from one place to the next: into the queue, from
its front into a hand, and out of the hand. So what was accepted is what was
taken with what is in the queue, in this order, and what was taken is what was
finished with what is in hand. A worker returns only when the flag is set and
the queue is empty, and both stay so.

The threads of `ThreadPool` do nothing else than these steps.
-/

namespace FlexQL.Proofs

open Lib FlexQL.Ref FlexQL.Spec

variable {n : Nat} {τ : Type}

/-! ## The pool of critical sections -/

section Pools

open Spec.Pool

variable {s s' : Pool n τ} {e : Pool.Event n τ} {l : List (Pool.Event n τ)}

/-- A task goes into the queue at its end and leaves it at its front. -/
theorem pool_queue (h : Pool.Step s e s') : s.tasks ++ accepted [e] = dequeued [e] ++ s'.tasks := by
  cases h with
  | take _ htasks => exact (List.append_nil _).trans htasks
  | accept => rfl
  | reject => exact List.append_nil _
  | leave => exact List.append_nil _
  | rest => exact List.append_nil _
  | finish => exact List.append_nil _
  | store => exact List.append_nil _

/-- The hands after one of them has changed. -/
theorem inHand_update (s : Pool n τ) (w : Fin n) (hand : Hand τ) (tasks : List τ) :
    inHand { s with tasks := tasks, workers := Function.update s.workers w hand } +
      tasksOf (s.workers w) = inHand s + tasksOf hand := by
  have hrest : ∑ v ∈ Finset.univ.erase w, tasksOf (Function.update s.workers w hand v) =
      ∑ v ∈ Finset.univ.erase w, tasksOf (s.workers v) := by
    refine Finset.sum_congr rfl fun v hv => ?_
    rw [Function.update_of_ne (Finset.ne_of_mem_erase hv)]
  rw [Spec.Pool.inHand, Spec.Pool.inHand, ← Finset.add_sum_erase _ _ (Finset.mem_univ w),
    ← Finset.add_sum_erase (Finset.univ) (fun v => tasksOf (s.workers v)) (Finset.mem_univ w),
    hrest]
  dsimp only
  rw [Function.update_self]
  ac_rfl

/-- A task that was taken is in hand until it is finished. -/
theorem pool_inHand (h : Pool.Step s e s') :
    inHand s + (dequeued [e] : Multiset τ) = inHand s' + (finished [e] : Multiset τ) := by
  cases h with
  | @take w task tasks hidle htasks =>
      have hupdate := inHand_update s w (.running task) tasks
      rw [hidle] at hupdate
      exact hupdate.symm
  | @leave w hidle =>
      have hupdate := inHand_update s w .returned s.tasks
      rw [hidle] at hupdate
      exact hupdate.symm
  | @finish w task hrunning =>
      have hupdate := inHand_update s w .idle s.tasks
      rw [hrunning] at hupdate
      exact hupdate.symm
  | accept => rfl
  | reject => rfl
  | rest => rfl
  | store => rfl

theorem accepted_append (l l' : List (Pool.Event n τ)) :
    accepted (l ++ l') = accepted l ++ accepted l' := List.filterMap_append

theorem dequeued_append (l l' : List (Pool.Event n τ)) :
    dequeued (l ++ l') = dequeued l ++ dequeued l' := List.filterMap_append

theorem finished_append (l l' : List (Pool.Event n τ)) :
    finished (l ++ l') = finished l ++ finished l' := List.filterMap_append

theorem pool_queue_run (h : Steps Pool.Step (Pool.new n τ) l s) :
    accepted l = dequeued l ++ s.tasks := by
  refine h.invariant (P := fun l s => accepted l = dequeued l ++ s.tasks) rfl ?_
  intro l s e s' hl hstep
  rw [accepted_append, dequeued_append, hl, List.append_assoc, List.append_assoc, pool_queue hstep]

theorem inHand_new : inHand (Pool.new n τ) = 0 := Finset.sum_eq_zero fun _ _ => rfl

theorem pool_inHand_run (h : Steps Pool.Step (Pool.new n τ) l s) :
    (dequeued l : Multiset τ) = inHand s + (finished l : Multiset τ) := by
  refine h.invariant
    (P := fun l s => (dequeued l : Multiset τ) = inHand s + (finished l : Multiset τ)) ?_ ?_
  · rw [inHand_new]
    rfl
  · intro l s e s' hl hstep
    rw [dequeued_append, finished_append, ← Multiset.coe_add, ← Multiset.coe_add, hl,
      add_right_comm, pool_inHand hstep]
    ac_rfl

/-- Once the flag is set nothing is accepted. -/
theorem pool_stopped (h : Pool.Step s e s') (hstop : s.stop = true) :
    s'.stop = true ∧ accepted [e] = [] := by
  cases h with
  | accept hopen => exact absurd (hstop.symm.trans hopen) nofun
  | reject => exact ⟨hstop, rfl⟩
  | take => exact ⟨hstop, rfl⟩
  | leave => exact ⟨hstop, rfl⟩
  | rest => exact ⟨hstop, rfl⟩
  | finish => exact ⟨hstop, rfl⟩
  | store => exact ⟨rfl, rfl⟩

theorem pool_stopped_run (hstop : s.stop = true) (h : Steps Pool.Step s l s') :
    s'.stop = true ∧ accepted l = [] := by
  refine h.invariant (P := fun l s => s.stop = true ∧ accepted l = []) ⟨hstop, rfl⟩ ?_
  intro l s e s' ⟨hs, hl⟩ hstep
  obtain ⟨hs', he⟩ := pool_stopped hstep hs
  exact ⟨hs', by rw [accepted_append, hl, he]; rfl⟩

/-- A worker that has returned has seen the end. -/
def Ended (s : Pool n τ) : Prop :=
  ∀ w, s.workers w = .returned → s.stop = true ∧ s.tasks = []

theorem Ended.step (h : Ended s) (hstep : Pool.Step s e s') : Ended s' := by
  intro v hv
  cases hstep with
  | accept hopen =>
      exact absurd ((h v hv).1.symm.trans hopen) nofun
  | reject => exact h v hv
  | @take w task tasks hidle htasks =>
      dsimp only at hv
      rw [Function.update_apply] at hv
      split at hv
      · exact absurd hv nofun
      · exact absurd (htasks.symm.trans (h v hv).2) nofun
  | leave hidle htasks hstop => exact ⟨hstop, htasks⟩
  | rest => exact h v hv
  | @finish w task hrunning =>
      dsimp only at hv
      rw [Function.update_apply] at hv
      split at hv
      · exact absurd hv nofun
      · exact h v hv
  | store => exact ⟨rfl, (h v hv).2⟩

theorem ended_new : Ended (Pool.new n τ) := by
  intro w hw
  have hidle : Hand.idle = (Hand.returned : Hand τ) := hw
  exact absurd hidle nofun

theorem pool_ended_run (h : Steps Pool.Step (Pool.new n τ) l s) : Ended s :=
  h.invariant (P := fun _ s => Ended s) ended_new fun _ _ _ _ hs hstep => hs.step hstep

/-- However the critical sections follow each other: the tasks are taken in
the order they were accepted, each once, and what was taken has been run or is
in hand. When all workers have returned, there is nothing in the queue, the
flag is set, nothing will be accepted, and all that was accepted has been
run. -/
theorem pool_runs_accepted (hn : 1 ≤ n) (h : Steps Pool.Step (Pool.new n τ) l s) :
    accepted l = dequeued l ++ s.tasks ∧
    (dequeued l : Multiset τ) = inHand s + (finished l : Multiset τ) ∧
    ((∀ w, s.workers w = .returned) → s.tasks = [] ∧ s.stop = true ∧
      (∀ l' s', Steps Pool.Step s l' s' → accepted l' = []) ∧ (finished l).Perm (accepted l)) := by
  have hqueue := pool_queue_run h
  have hhand := pool_inHand_run h
  refine ⟨hqueue, hhand, fun hall => ?_⟩
  obtain ⟨hstop, htasks⟩ := pool_ended_run h ⟨0, hn⟩ (hall _)
  refine ⟨htasks, hstop, fun l' s' hrun => (pool_stopped_run hstop hrun).2, ?_⟩
  have hnone : inHand s = 0 := by
    refine Finset.sum_eq_zero fun w _ => ?_
    rw [hall w]
    rfl
  rw [hnone, zero_add] at hhand
  rw [hqueue, htasks, List.append_nil]
  exact (Multiset.coe_eq_coe.mp hhand).symm

/-- One worker: a task accepted just before the flag is set is still run. -/
theorem pool_runs_accepted_late : ∃ s : Pool 1 Nat,
    Steps Pool.Step (Pool.new 1 Nat)
      [.rest 0, .accept 7, .store, .reject 8, .take 0 7, .finish 0 7, .leave 0] s ∧
    s.tasks = [] ∧ s.stop = true ∧ ∀ l' s', Steps Pool.Step s l' s' → accepted l' = [] := by
  obtain ⟨s, hrun, hall⟩ : ∃ s : Pool 1 Nat, Steps Pool.Step (Pool.new 1 Nat)
      [.rest 0, .accept 7, .store, .reject 8, .take 0 7, .finish 0 7, .leave 0] s ∧
      s.workers 0 = .returned :=
    ⟨_, .cons (.rest rfl rfl rfl) <| .cons (.accept rfl) <| .cons .store <|
      .cons (.reject rfl) <| .cons (.take rfl rfl) <| .cons (.finish rfl) <|
      .cons (.leave rfl rfl rfl) .nil, rfl⟩
  obtain ⟨-, -, hreturned⟩ := pool_runs_accepted (by decide) hrun
  obtain ⟨htasks, hstop, hclosed, -⟩ := hreturned fun w => Subsingleton.elim 0 w ▸ hall
  exact ⟨s, hrun, htasks, hstop, hclosed⟩

end Pools

/-! ## The threads -/

section Threads

variable {s s' : ThreadPool n τ} {e : ThreadPool.Event n τ} {l : List (ThreadPool.Event n τ)}

/-- The worker that has the mutex. -/
def workerOf : Holder n τ → Option (Fin n)
  | .testing w => some w
  | .dozing w => some w
  | .deciding w => some w
  | _ => none

/-- What the threads rely on: a worker with the mutex is neither asleep nor
elsewhere, and what its predicate has told it still holds. -/
structure Orderly (s : ThreadPool n τ) : Prop where
  inside : ∀ w, workerOf s.mutex = some w → s.workers w = .ready
  dozing : ∀ w, s.mutex = .dozing w → s.tasks = []
  deciding : ∀ w, s.mutex = .deciding w → (s.stop || !s.tasks.isEmpty) = true
  stored : s.shutdown ≠ .before → s.stop = true

/-- With no worker at the mutex there is little to rely on. -/
theorem orderly_outside (hnone : workerOf s.mutex = none)
    (hstored : s.shutdown ≠ .before → s.stop = true) : Orderly s := by
  refine ⟨fun w hw => ?_, fun w hw => ?_, fun w hw => ?_, hstored⟩
  · exact absurd (hnone.symm.trans hw) nofun
  · rw [hw] at hnone
    exact absurd hnone nofun
  · rw [hw] at hnone
    exact absurd hnone nofun

theorem orderly_new : Orderly (ThreadPool.new n τ) := orderly_outside rfl fun h => absurd rfl h

/-- Where the other workers are does not matter to the one that has the
mutex. -/
theorem update_ready {workers : Fin n → Worker τ} {w v : Fin n} {place : Worker τ}
    (hv : workers v = .ready) (hw : w = v → place = .ready) :
    Function.update workers w place v = .ready := by
  rw [Function.update_apply]
  split
  · next heq => exact hw heq.symm
  · exact hv

theorem Orderly.step (h : Orderly s) (hstep : ThreadPool.Step s e s') : Orderly s' := by
  cases hstep with
  | @lock w hfree hready =>
      refine ⟨fun v hv => ?_, fun _ hd => absurd hd nofun, fun _ hd => absurd hd nofun, h.stored⟩
      exact Option.some.inj hv ▸ hready
  | @pass w hmutex hpass =>
      refine ⟨fun v hv => h.inside v ?_, fun _ hd => absurd hd nofun, fun _ _ => hpass, h.stored⟩
      rw [hmutex]
      exact hv
  | @fail w hmutex hfail =>
      refine ⟨fun v hv => h.inside v ?_, fun _ _ => ?_, fun _ hd => absurd hd nofun, h.stored⟩
      · rw [hmutex]
        exact hv
      · exact List.isEmpty_iff.mp (by simpa using (Bool.or_eq_false_iff.mp hfail).2)
  | doze => exact orderly_outside rfl h.stored
  | wake hwaiting =>
      exact ⟨fun v hv => update_ready (h.inside v hv) fun _ => rfl, h.dozing, h.deciding, h.stored⟩
  | leave => exact orderly_outside rfl h.stored
  | take => exact orderly_outside rfl h.stored
  | finish hrunning =>
      exact ⟨fun v hv => update_ready (h.inside v hv) fun _ => rfl, h.dozing, h.deciding, h.stored⟩
  | refuse => exact h
  | approve => exact orderly_outside rfl h.stored
  | push => exact orderly_outside rfl h.stored
  | notifyOne hnotices hwaiting =>
      exact ⟨fun v hv => update_ready (h.inside v hv) fun _ => rfl, h.dozing, h.deciding, h.stored⟩
  | notifyNone => exact ⟨h.inside, h.dozing, h.deciding, h.stored⟩
  | store => exact ⟨h.inside, h.dozing, fun _ _ => rfl, fun _ => rfl⟩
  | notifyAll hstored =>
      refine ⟨fun v hv => ?_, h.dozing, h.deciding, fun _ => h.stored (hstored ▸ nofun)⟩
      dsimp only
      rw [h.inside v hv]
      rfl
  | join hnotified =>
      exact ⟨h.inside, h.dozing, h.deciding, fun _ => h.stored (hnotified ▸ nofun)⟩

theorem orderly_run (h : Steps ThreadPool.Step (ThreadPool.new n τ) l s) : Orderly s :=
  h.invariant (P := fun _ s => Orderly s) orderly_new fun _ _ _ _ hs hstep => hs.step hstep

/-- A worker that does not return finds a task: `tasks_.front()` is not called
on an empty queue. -/
theorem Orderly.decides (h : Orderly s) {w : Fin n} (hmutex : s.mutex = .deciding w)
    (hstay : (s.stop && s.tasks.isEmpty) = false) : ∃ task tasks, s.tasks = task :: tasks := by
  have htest := h.deciding w hmutex
  cases htasks : s.tasks with
  | nil =>
      rw [htasks] at htest hstay
      simp_all
  | cons task tasks => exact ⟨task, tasks, rfl⟩

theorem poolOf_move (s : ThreadPool n τ) (w : Fin n) (place : Worker τ) :
    (poolOf (s.move w place)).workers = Function.update (poolOf s).workers w (handOf place) :=
  Function.comp_update handOf s.workers w place

/-- A worker that wakes or falls asleep has nothing in hand all along. -/
theorem poolOf_move_idle {w : Fin n} {place : Worker τ} (hw : handOf (s.workers w) = .idle)
    (hplace : handOf place = .idle) : (poolOf (s.move w place)).workers = (poolOf s).workers := by
  rw [poolOf_move, hplace, ← hw]
  exact Function.update_eq_self w (poolOf s).workers

theorem handOf_awake (place : Worker τ) : handOf (ThreadPool.awake place) = handOf place := by
  cases place <;> rfl

theorem pool_ext {t t' : Pool n τ} (htasks : t.tasks = t'.tasks) (hstop : t.stop = t'.stop)
    (hworkers : t.workers = t'.workers) : t = t' := by
  cases t
  cases t'
  subst htasks hstop hworkers
  rfl

/-- Steps between which nothing shows. -/
theorem steps_of_eq {t t' : Pool n τ} (htasks : t'.tasks = t.tasks) (hstop : t'.stop = t.stop)
    (hworkers : t'.workers = t.workers) : Steps Pool.Step t [] t' :=
  pool_ext htasks hstop hworkers ▸ .nil

theorem step_of_eq {t t₁ t' : Pool n τ} {e : Pool.Event n τ} (h : Pool.Step t e t₁)
    (htasks : t'.tasks = t₁.tasks) (hstop : t'.stop = t₁.stop)
    (hworkers : t'.workers = t₁.workers) : Steps Pool.Step t [e] t' :=
  pool_ext htasks hstop hworkers ▸ .single h

theorem poolOf_tasks (hnone : adding s.mutex = []) : (poolOf s).tasks = s.tasks := by
  rw [poolOf, hnone, List.append_nil]

/-- A step of a thread is a critical section or does not show. -/
theorem Orderly.poolOf_step (h : Orderly s) (hstep : ThreadPool.Step s e s') :
    Steps Pool.Step (poolOf s) (sectionOf e).toList (poolOf s') := by
  have hmutex_tasks : ∀ {m : Holder n τ}, s.mutex = m → adding m = [] →
      (poolOf s).tasks = s.tasks := fun hm hnone => poolOf_tasks (hm ▸ hnone)
  have hinside : ∀ {w : Fin n}, workerOf s.mutex = some w → (poolOf s).workers w = .idle :=
    fun {w} hw => congrArg handOf (h.inside w hw)
  cases hstep with
  | lock hfree =>
      exact steps_of_eq ((List.append_nil _).trans (hmutex_tasks hfree rfl).symm) rfl rfl
  | pass hmutex =>
      exact steps_of_eq ((List.append_nil _).trans (hmutex_tasks hmutex rfl).symm) rfl rfl
  | @fail w hmutex hfail =>
      obtain ⟨hopen, hempty⟩ := Bool.or_eq_false_iff.mp hfail
      have htasks : s.tasks = [] := List.isEmpty_iff.mp (by simpa using hempty)
      have hseen := hmutex_tasks hmutex rfl
      exact step_of_eq (.rest (hinside (by rw [hmutex]; rfl)) (hseen.trans htasks) hopen)
        ((List.append_nil _).trans hseen.symm) rfl rfl
  | @doze w hmutex =>
      exact steps_of_eq ((List.append_nil _).trans (hmutex_tasks hmutex rfl).symm) rfl
        (poolOf_move_idle (hinside (by rw [hmutex]; rfl)) rfl)
  | wake hwaiting =>
      exact steps_of_eq rfl rfl (poolOf_move_idle (by rw [hwaiting]; rfl) rfl)
  | @leave w hmutex hleave =>
      obtain ⟨hstop, hempty⟩ := Bool.and_eq_true_iff.mp hleave
      have hseen := hmutex_tasks hmutex rfl
      exact step_of_eq
        (.leave (hinside (by rw [hmutex]; rfl)) (hseen.trans (List.isEmpty_iff.mp hempty)) hstop)
        ((List.append_nil _).trans hseen.symm) rfl (poolOf_move s w .returned)
  | @take w task tasks hmutex hstay htasks =>
      exact step_of_eq
        (.take (hinside (by rw [hmutex]; rfl)) ((hmutex_tasks hmutex rfl).trans htasks))
        (List.append_nil _) rfl (poolOf_move s w (.running task))
  | @finish w task hrunning =>
      exact step_of_eq (.finish (congrArg handOf hrunning)) rfl rfl (poolOf_move s w .ready)
  | refuse hfree hstop => exact .single (.reject hstop)
  | @approve task hfree hopen =>
      refine step_of_eq (.accept hopen) ?_ rfl rfl
      rw [hmutex_tasks hfree rfl]
      rfl
  | push hmutex =>
      refine steps_of_eq ?_ rfl rfl
      rw [poolOf, poolOf, hmutex]
      exact List.append_nil _
  | notifyOne hnotices hwaiting =>
      exact steps_of_eq rfl rfl (poolOf_move_idle (by rw [hwaiting]; rfl) rfl)
  | notifyNone => exact .nil
  | store => exact .single .store
  | notifyAll => exact steps_of_eq rfl rfl (funext fun w => handOf_awake (s.workers w))
  | join => exact .nil

/-- Every run of the threads is one of the critical sections. -/
theorem threadPool_refines (h : Steps ThreadPool.Step (ThreadPool.new n τ) l s) :
    Steps Pool.Step (Pool.new n τ) (l.filterMap sectionOf) (poolOf s) := by
  obtain ⟨t, ⟨-, rfl⟩, hrun⟩ := h.simulates
    (R := fun s t => Orderly s ∧ t = poolOf s) (f := sectionOf)
    (fun s t e s' ⟨hs, ht⟩ hstep => ⟨poolOf s', ⟨hs.step hstep, rfl⟩, ht ▸ hs.poolOf_step hstep⟩)
    ⟨orderly_new, rfl⟩
  exact hrun

end Threads

end FlexQL.Proofs
