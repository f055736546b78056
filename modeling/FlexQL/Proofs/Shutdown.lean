import FlexQL.Proofs.ThreadPool

/-!
# Shutting the pool down

`shutdown` sets the flag without the mutex. A worker that has evaluated its
predicate before that and found nothing to do is on its way to sleep; if
`notify_all` comes before it gets there, it sleeps for good, and `shutdown`
waits for it. If no worker is on its way at that moment, none ever sleeps
again: the flag is set, so every predicate is true.
-/

namespace FlexQL.Proofs

open Lib FlexQL.Ref FlexQL.Spec

variable {n : Nat} {τ : Type} {s s' : ThreadPool n τ} {e : ThreadPool.Event n τ}
  {l : List (ThreadPool.Event n τ)}

/-- After `notify_all` nobody sleeps. -/
def Roused (s : ThreadPool n τ) : Prop :=
  s.shutdown = .notified → ∀ w, s.workers w ≠ .waiting ∧ s.mutex ≠ .dozing w

theorem ne_waiting_update {workers : Fin n → Worker τ} {w v : Fin n} {place : Worker τ}
    (hv : workers v ≠ .waiting) (hplace : place ≠ .waiting) :
    Function.update workers w place v ≠ .waiting := by
  rw [Function.update_apply]
  split
  · exact hplace
  · exact hv

/-- Steps other than `notify_all` itself keep everybody up. -/
theorem Roused.step (h : Roused s) (ho : Orderly s) (hstep : ThreadPool.Step s e s')
    (hprompt : Prompt s e) : Roused s' := by
  intro hlate v
  cases hstep with
  | lock => exact ⟨(h hlate v).1, nofun⟩
  | pass => exact ⟨(h hlate v).1, nofun⟩
  | fail hmutex hfail =>
      -- the flag is set by now, so the predicate is true
      have hstop := ho.stored (by rw [show s.shutdown = .notified from hlate]; nofun)
      rw [hstop] at hfail
      exact absurd hfail nofun
  | doze hmutex => exact absurd hmutex (h hlate _).2
  | wake => exact ⟨ne_waiting_update (h hlate v).1 nofun, (h hlate v).2⟩
  | leave => exact ⟨ne_waiting_update (h hlate v).1 nofun, nofun⟩
  | take => exact ⟨ne_waiting_update (h hlate v).1 nofun, nofun⟩
  | finish => exact ⟨ne_waiting_update (h hlate v).1 nofun, (h hlate v).2⟩
  | refuse => exact h hlate v
  | approve => exact ⟨(h hlate v).1, nofun⟩
  | push => exact ⟨(h hlate v).1, nofun⟩
  | notifyOne => exact ⟨ne_waiting_update (h hlate v).1 nofun, (h hlate v).2⟩
  | notifyNone => exact h hlate v
  | store => exact absurd hlate nofun
  | notifyAll => exact ⟨by dsimp only; cases s.workers v <;> nofun, hprompt v⟩
  | join => exact absurd hlate nofun

theorem roused_new : Roused (ThreadPool.new n τ) := fun h => absurd h nofun

theorem roused_run (h : Steps PromptStep (ThreadPool.new n τ) l s) : Roused s := by
  refine (h.invariant (P := fun _ s => Orderly s ∧ Roused s) ⟨orderly_new, roused_new⟩ ?_).2
  intro _ s e s' ⟨ho, hr⟩ ⟨hstep, hprompt⟩
  exact ⟨ho.step hstep, hr.step ho hstep hprompt⟩

theorem Roused.not_stranded (h : Roused s) (w : Fin n) : ¬ Stranded s w := fun hs =>
  (h hs.notified w).1 hs.waiting

/-- `notify_all` has been called. -/
def Late (s : ThreadPool n τ) : Prop := s.shutdown = .notified ∨ s.shutdown = .joined

/-- It is not called again. -/
theorem Late.step (h : Late s) (hstep : ThreadPool.Step s e s') : Late s' ∧ Prompt s e := by
  cases hstep with
  | store hbefore => rcases h with h | h <;> exact absurd (hbefore.symm.trans h) nofun
  | notifyAll hstored => rcases h with h | h <;> exact absurd (hstored.symm.trans h) nofun
  | join => exact ⟨.inr rfl, trivial⟩
  | _ => exact ⟨h, trivial⟩

theorem roused_after (hr : Roused s) (ho : Orderly s) (hlate : Late s)
    (h : Steps ThreadPool.Step s l s') : Roused s' := by
  refine (h.invariant (P := fun _ s => Orderly s ∧ Roused s ∧ Late s) ⟨ho, hr, hlate⟩ ?_).2.1
  intro _ s e s' ⟨ho, hr, hlate⟩ hstep
  obtain ⟨hlate', hprompt⟩ := hlate.step hstep
  exact ⟨ho.step hstep, hr.step ho hstep hprompt, hlate'⟩

/-- With everybody up, the notifications that are still to come are lost. -/
theorem notices_lost (k : Nat) (hk : s.notices = k) (hup : ∀ w, s.workers w ≠ .waiting) :
    ∃ l, Steps ThreadPool.Step s l { s with notices := 0 } := by
  induction k generalizing s with
  | zero =>
      refine ⟨[], ?_⟩
      rw [← hk]
      exact .nil
  | succ k ih =>
      obtain ⟨l, hrun⟩ := ih (s := { s with notices := k }) rfl hup
      exact ⟨_, .cons (.notifyNone hk hup) hrun⟩

/-- A worker that is on its way to sleep when `notify_all` is called can miss
it. -/
theorem Orderly.strands (ho : Orderly s) {w : Fin n} (hmutex : s.mutex = .dozing w)
    (hstep : ThreadPool.Step s .notifyAll s') :
    ∃ l s'', Steps ThreadPool.Step s' l s'' ∧ Stranded s'' w := by
  cases hstep with
  | notifyAll hstored =>
      obtain ⟨l, hlost⟩ := notices_lost (s := { s with
        workers := fun v => ThreadPool.awake (s.workers v), shutdown := .notified }) _ rfl
        fun v => by dsimp only; cases s.workers v <;> nofun
      refine ⟨_, _, hlost.snoc (.doze hmutex), rfl, ho.dozing w hmutex, rfl, nofun, ?_⟩
      exact Function.update_self w _ _

/-- A worker that nothing will wake stays asleep unless it wakes for no
reason. -/
theorem stranded_stays {w : Fin n} (ho : Orderly s) (h : Stranded s w)
    (hstep : ThreadPool.Step s e s') (hasleep : e ≠ .wake w) : Stranded s' w := by
  have hstop := ho.stored (by rw [h.notified]; nofun)
  have hother : ∀ {v : Fin n} {place : Worker τ}, s.workers v ≠ .waiting →
      Function.update s.workers v place w = .waiting := by
    intro v place hv
    rw [Function.update_of_ne fun heq : w = v => hv (heq ▸ h.waiting)]
    exact h.waiting
  have hinside : ∀ {v : Fin n}, workerOf s.mutex = some v → s.workers v ≠ .waiting := by
    intro v hv
    rw [ho.inside v hv]
    nofun
  cases hstep with
  | lock => exact { h with quiet := nofun }
  | pass => exact { h with quiet := nofun }
  | fail => exact { h with quiet := nofun }
  | doze hmutex =>
      exact { h with quiet := nofun, waiting := hother (hinside (by rw [hmutex]; rfl)) }
  | @wake v hwaiting =>
      refine { h with waiting := ?_ }
      rw [ThreadPool.move]
      dsimp only
      rw [Function.update_of_ne fun heq : w = v => hasleep (heq ▸ rfl)]
      exact h.waiting
  | leave hmutex =>
      exact { h with quiet := nofun, waiting := hother (hinside (by rw [hmutex]; rfl)) }
  | take _ _ htasks => exact absurd (htasks.symm.trans h.tasks) nofun
  | finish hrunning => exact { h with waiting := hother (by rw [hrunning]; nofun) }
  | refuse => exact h
  | approve _ hopen => exact absurd (hstop.symm.trans hopen) nofun
  | push hmutex => exact absurd hmutex (h.quiet _)
  | notifyOne hnotices => exact absurd (hnotices.symm.trans h.notices) nofun
  | notifyNone hnotices => exact absurd (hnotices.symm.trans h.notices) nofun
  | store hbefore => exact absurd (hbefore.symm.trans h.notified) nofun
  | notifyAll hstored => exact absurd (hstored.symm.trans h.notified) nofun
  | join _ hall => exact absurd ((hall w).symm.trans h.waiting) nofun

/-- So `shutdown`, which waits for it, does not return. -/
theorem stranded_forever {w : Fin n} (ho : Orderly s) (h : Stranded s w)
    (hrun : Steps (fun s e s' => ThreadPool.Step s e s' ∧ e ≠ .wake w) s l s') :
    Stranded s' w ∧ s'.shutdown ≠ .joined := by
  have hs := (hrun.invariant (P := fun _ s => Orderly s ∧ Stranded s w) ⟨ho, h⟩
    fun _ s e s' ⟨ho, h⟩ ⟨hstep, hasleep⟩ =>
      ⟨ho.step hstep, stranded_stays ho h hstep hasleep⟩).2
  refine ⟨hs, ?_⟩
  rw [hs.notified]
  nofun

/-- A run in which no worker is on its way to sleep when `notify_all` is called
leaves nobody behind. If one is, there is a continuation that leaves somebody
behind. -/
theorem shutdown_strands_none_iff :
    (∀ (l : List (ThreadPool.Event n τ)) (s : ThreadPool n τ) (w : Fin n),
      Steps PromptStep (ThreadPool.new n τ) l s → ¬ Stranded s w) ∧
    ∀ (l : List (ThreadPool.Event n τ)) (s s' : ThreadPool n τ),
      Steps ThreadPool.Step (ThreadPool.new n τ) l s → ThreadPool.Step s .notifyAll s' →
      ((∀ l' s'' w, Steps ThreadPool.Step s' l' s'' → ¬ Stranded s'' w) ↔
        ∀ w, s.mutex ≠ .dozing w) := by
  refine ⟨fun l s w h => (roused_run h).not_stranded w, fun l s s' hrun hstep => ?_⟩
  have ho := orderly_run hrun
  constructor
  · intro hnone w hmutex
    obtain ⟨l', s'', hrun', hstranded⟩ := ho.strands hmutex hstep
    exact hnone l' s'' w hrun' hstranded
  · intro hprompt l' s'' w hrun'
    have hbefore : Roused s := by
      cases hstep with
      | notifyAll hstored => exact fun hlate => absurd (hstored.symm.trans hlate) nofun
    have hlate : Late s' := by
      cases hstep with
      | notifyAll => exact .inl rfl
    exact (roused_after (hbefore.step ho hstep hprompt) (ho.step hstep) hlate
      hrun').not_stranded w

/-- A worker that is asleep already is woken. -/
theorem shutdown_strands_none_asleep : ∃ s : ThreadPool 1 Unit,
    Steps PromptStep (ThreadPool.new 1 Unit)
      [.lock 0, .test 0 false, .doze 0, .store, .notifyAll] s ∧ ∀ w, ¬ Stranded s w := by
  obtain ⟨s, hrun⟩ : ∃ s : ThreadPool 1 Unit, Steps PromptStep (ThreadPool.new 1 Unit)
      [.lock 0, .test 0 false, .doze 0, .store, .notifyAll] s :=
    ⟨_, .cons ⟨.lock rfl rfl, trivial⟩ <| .cons ⟨.fail rfl rfl, trivial⟩ <|
      .cons ⟨.doze rfl, trivial⟩ <| .cons ⟨.store rfl, trivial⟩ <|
      .cons ⟨.notifyAll rfl, fun _ => nofun⟩ .nil⟩
  exact ⟨s, hrun, fun w => shutdown_strands_none_iff.1 _ s w hrun⟩

/-- A worker that has found nothing to do and is not asleep yet sleeps
through. -/
theorem shutdown_strands_one : ∃ s : ThreadPool 1 Unit,
    Steps ThreadPool.Step (ThreadPool.new 1 Unit)
      [.lock 0, .test 0 false, .store, .notifyAll, .doze 0] s ∧ Stranded s 0 :=
  ⟨_, .cons (.lock rfl rfl) <| .cons (.fail rfl rfl) <| .cons (.store rfl) <|
    .cons (.notifyAll rfl) <| .cons (.doze rfl) .nil, ⟨rfl, rfl, rfl, nofun, rfl⟩⟩

end FlexQL.Proofs
