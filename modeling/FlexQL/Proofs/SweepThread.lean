import FlexQL.Ref.SweepThread

/-!
# The sweeper starts and stops

There is a thread exactly while the service is started, so that none is ever
made over another, and none is left when `stop` has returned. `stop` returns:
once `running_` is cleared the sweeper has at most three steps left, whether it
hears the notification or not, because its wait ends by the clock.
-/

namespace FlexQL.Proofs

open Lib FlexQL.Ref SweepService

variable {s s' : SweepService} {e : Event} {l : List Event}

/-- The thread is in its loop. -/
def inLoop : SweepPlace → Bool
  | .none | .returned => false
  | _ => true

/-- The flags and the sweeper, by where the owner is. -/
def Coherent (s : SweepService) : Prop :=
  match s.owner with
  | .idle => s.running = s.started ∧ (s.running = true → inLoop s.sweeper = true) ∧
      (s.running = false → s.sweeper = .none)
  | .starting => s.running = true ∧ s.sweeper = .none
  | .stopping _ => s.running = false ∧ s.sweeper ≠ .none
  | .joining _ => s.running = false ∧ s.sweeper ≠ .none
  | .snapshot => s.running = false ∧ s.started = false ∧ s.sweeper = .none
  | .destroyed => s.running = false ∧ s.started = false ∧ s.sweeper = .none
  | .terminated => False

theorem owner_side (h : OwnerStep s e s') : e.ofSweeper = false := by
  cases h <;> rfl

theorem sweeper_side (h : SweeperStep s e s') : e.ofSweeper = true := by
  cases h <;> rfl

/-- What a step of the sweeper leaves alone, and where it takes the sweeper. -/
theorem sweeper_step (h : SweeperStep s e s') :
    s'.running = s.running ∧ s'.started = s.started ∧ s'.owner = s.owner ∧
      inLoop s.sweeper = true ∧ s'.sweeper ≠ .none ∧
      (s.running = true → inLoop s'.sweeper = true) := by
  cases h with
  | load h => cases s.running <;> simp [h, inLoop]
  | test h => cases s.running <;> simp [h, inLoop]
  | testTimedOut h => simp [h, inLoop]
  | wake h => simp [h, inLoop]
  | timeout h => simp [h, inLoop]
  | check h => cases s.running <;> simp [h, inLoop]
  | sweep h => simp [h, inLoop]

theorem sweeper_there (h : SweeperStep s e s') : s.sweeper ≠ .none := by
  intro hnone
  obtain ⟨-, -, -, hin, -⟩ := sweeper_step h
  rw [hnone] at hin
  exact absurd hin (by decide)

/-- A step of the sweeper, seen from the owner. -/
theorem Coherent.sweeper (h : Coherent s) (hstep : SweeperStep s e s') : Coherent s' := by
  obtain ⟨hrunning, hstarted, howner, -, hthere, hstays⟩ := sweeper_step hstep
  have hnone := sweeper_there hstep
  unfold Coherent at h ⊢
  rw [howner, hrunning, hstarted]
  split at h
  · exact ⟨h.1, hstays, fun hr => absurd (h.2.2 hr) hnone⟩
  · exact absurd h.2 hnone
  · exact ⟨h.1, hthere⟩
  · exact ⟨h.1, hthere⟩
  · exact absurd h.2.2 hnone
  · exact absurd h.2.2 hnone
  · exact h

/-- Behind `stop` nothing runs. -/
theorem coherent_stopped {final : Bool} (howner : s.owner = stopped final)
    (hrunning : s.running = false) (hstarted : s.started = false) (hnone : s.sweeper = .none) :
    Coherent s := by
  unfold Coherent
  rw [howner]
  cases final with
  | false => exact ⟨hrunning.trans hstarted.symm, fun h => by simp [hrunning] at h, fun _ => hnone⟩
  | true => exact ⟨hrunning, hstarted, hnone⟩

theorem awake_ne_none {place : SweepPlace} (h : place ≠ .none) : awake place ≠ .none := by
  cases place with
  | none => exact absurd rfl h
  | _ => simp [awake]

theorem Coherent.owner (h : Coherent s) (hstep : OwnerStep s e s') : Coherent s' := by
  have hplace := h
  unfold Coherent at hplace
  cases hstep with
  | startAgain => exact h
  | start howner hstarted hrunning =>
      rw [howner] at hplace
      exact ⟨rfl, hplace.2.2 hrunning⟩
  | startRunning howner hstarted hrunning =>
      rw [howner] at hplace
      exact absurd (hplace.1.symm.trans hrunning) (by rw [hstarted]; decide)
  | create howner hnone =>
      rw [howner] at hplace
      exact ⟨hplace.1, fun _ => rfl, fun hr => absurd (hplace.1.symm.trans hr) (by decide)⟩
  | createOver howner hsome =>
      rw [howner] at hplace
      exact absurd hplace.2 hsome
  | stopAgain howner hstarted =>
      rw [howner] at hplace
      have hrunning := hplace.1.trans hstarted
      exact coherent_stopped rfl hrunning hstarted (hplace.2.2 hrunning)
  | stop howner hstarted hrunning =>
      rw [howner] at hplace
      have hin := hplace.2.1 hrunning
      exact ⟨rfl, fun hnone => absurd (hnone ▸ hin) (by decide)⟩
  | stopStopped howner hstarted hrunning =>
      rw [howner] at hplace
      exact coherent_stopped rfl hrunning rfl (hplace.2.2 hrunning)
  | notify howner =>
      rw [howner] at hplace
      exact ⟨hplace.1, awake_ne_none hplace.2⟩
  | join howner hreturned =>
      rw [howner] at hplace
      exact coherent_stopped rfl hplace.1 rfl rfl
  | destroy howner =>
      rw [howner] at hplace
      exact hplace

theorem coherent_new : Coherent SweepService.new :=
  coherent_stopped (show SweepService.new.owner = stopped false from rfl) rfl rfl rfl

theorem coherent_run (h : Steps Step SweepService.new l s) : Coherent s :=
  h.invariant (P := fun _ s => Coherent s) coherent_new fun _ _ _ _ h hstep =>
    hstep.elim h.owner h.sweeper

/-- Nothing runs, and nothing will until the next `start`. -/
def AtRest (s : SweepService) : Prop :=
  s.sweeper = .none ∧ s.started = false ∧
    (s.owner = .idle ∨ s.owner = .snapshot ∨ s.owner = .destroyed)

theorem AtRest.stopped {final : Bool} (h : AtRest s) :
    AtRest { s with owner := stopped final } := by
  cases final with
  | false => exact ⟨h.1, h.2.1, .inl rfl⟩
  | true => exact ⟨h.1, h.2.1, .inr (.inl rfl)⟩

theorem AtRest.step (h : AtRest s) (hstep : Step s e s') (hstart : e ≠ .start) :
    AtRest s' ∧ e.ofSweeper = false := by
  rcases hstep with howns | hsweeps
  · refine ⟨?_, owner_side howns⟩
    obtain ⟨hnone, hstarted, howner⟩ := h
    cases howns with
    | startAgain => exact absurd rfl hstart
    | start => exact absurd rfl hstart
    | startRunning => exact absurd rfl hstart
    | create h => simp [h] at howner
    | createOver h => simp [h] at howner
    | stopAgain => exact AtRest.stopped ⟨hnone, hstarted, howner⟩
    | stop _ h => exact absurd (hstarted.symm.trans h) (by decide)
    | stopStopped _ h => exact absurd (hstarted.symm.trans h) (by decide)
    | notify h => simp [h] at howner
    | join h => simp [h] at howner
    | destroy => exact ⟨hnone, hstarted, .inr (.inr rfl)⟩
  · exact absurd h.1 (sweeper_there hsweeps)

theorem AtRest.run (h : AtRest s) (hrun : Steps Step s l s') (hstart : .start ∉ l) :
    ∀ e ∈ l, e.ofSweeper = false := by
  have hsteps := hrun.restrict (P := (· ≠ .start)) fun e he heq => hstart (heq ▸ he)
  refine (Steps.invariant (P := fun l s => AtRest s ∧ ∀ e ∈ l, e.ofSweeper = false)
    ⟨h, fun e he => absurd he List.not_mem_nil⟩ ?_ hsteps).2
  intro l₁ s₁ e s₂ hinv hstep
  obtain ⟨hrest, hside⟩ := hinv.1.step hstep.1 hstep.2
  refine ⟨hrest, fun e' he' => ?_⟩
  rcases List.mem_append.1 he' with he' | he'
  · exact hinv.2 e' he'
  · rw [List.mem_singleton.1 he']
    exact hside

/-- Outside of `start` and `stop` the service is at rest unless it is started. -/
theorem Coherent.atRest (h : Coherent s)
    (hs : s.owner = .idle ∧ s.started = false ∨ s.owner = .snapshot) : AtRest s := by
  unfold Coherent at h
  rcases hs with ⟨howner, hstarted⟩ | howner
  · rw [howner] at h
    exact ⟨h.2.2 (h.1.trans hstarted), hstarted, .inl howner⟩
  · rw [howner] at h
    exact ⟨h.2.2, h.2.1, .inr (.inl howner)⟩

/-- However the owner's calls and the sweeper's steps fall together, no thread
is made over one that runs; and from where the service is not started, or the
destructor takes its snapshot, the sweeper does nothing before the next `start`. -/
theorem sweeps_only_while_started {l₁ l₂ : List Event} {s₁ s₂ : SweepService}
    (h₁ : Steps Step SweepService.new l₁ s₁) (h₂ : Steps Step s₁ l₂ s₂) :
    s₁.owner ≠ .terminated ∧
      (s₁.owner = .idle ∧ s₁.started = false ∨ s₁.owner = .snapshot → .start ∉ l₂ →
        ∀ e ∈ l₂, e.ofSweeper = false) := by
  have hcoherent := coherent_run h₁
  refine ⟨fun howner => ?_, fun hs hstart => (hcoherent.atRest hs).run h₂ hstart⟩
  unfold Coherent at hcoherent
  rw [howner] at hcoherent
  exact hcoherent

/-- The service is started and the destructor stops it while the sweeper waits. -/
theorem run_stopping : Steps Step SweepService.new
    [.start, .create, .load, .test, .stop true] ⟨false, true, .waiting, .stopping true⟩ :=
  .cons (.inl (.start rfl rfl rfl)) <| .cons (.inl (.create rfl rfl)) <|
    .cons (.inr (.load rfl)) <| .cons (.inr (.test rfl)) <| .single (.inl (.stop rfl rfl rfl))

/-- The sweeper hears it. -/
theorem run_heard : Steps Step ⟨false, true, .waiting, .stopping true⟩
    [.notify, .test, .check] ⟨false, true, .returned, .joining true⟩ :=
  .cons (.inl (.notify rfl)) <| .cons (.inr (.test rfl)) <| .single (.inr (.check rfl))

theorem sweeps_only_while_started_heard :
    ∃ l₁ s₁, Steps Step SweepService.new l₁ s₁ ∧ s₁.owner = .snapshot ∧
      s₁.owner ≠ .terminated ∧
      (s₁.owner = .idle ∧ s₁.started = false ∨ s₁.owner = .snapshot → .start ∉ [Event.destroy] →
        ∀ e ∈ [Event.destroy], e.ofSweeper = false) :=
  have hjoined := (run_stopping.trans run_heard).snoc (.inl (@OwnerStep.join _ true rfl (.inl rfl)))
  ⟨_, _, hjoined, rfl, sweeps_only_while_started hjoined (.single (.inl (.destroy rfl)))⟩

/-! ## `stop` returns -/

/-- `stop` is under way and the thread has not been joined. -/
def Stopping (final : Bool) (s : SweepService) : Prop :=
  s.running = false ∧ s.sweeper ≠ .none ∧ (s.owner = .stopping final ∨ s.owner = .joining final)

/-- The steps the sweeper has left once `running_` is cleared. -/
def stepsLeft : SweepPlace → Nat
  | .none | .returned => 0
  | .top | .checking => 1
  | .testing _ | .sweeping => 2
  | .waiting => 3

/-- The sweeps it has left. -/
def sweepsLeft : SweepPlace → Nat
  | .sweeping => 1
  | _ => 0

theorem stepsLeft_awake (place : SweepPlace) : stepsLeft (awake place) ≤ stepsLeft place := by
  cases place <;> simp [awake, stepsLeft]

theorem sweepsLeft_awake (place : SweepPlace) : sweepsLeft (awake place) = sweepsLeft place := by
  cases place <;> rfl

/-- The owner's only step before the join is the notification. -/
theorem Stopping.owner_step {final : Bool} (h : Stopping final s) (hstep : OwnerStep s e s')
    (hjoin : e ≠ .join) :
    s' = { s with sweeper := awake s.sweeper, owner := .joining final } := by
  obtain ⟨-, -, howner⟩ := h
  have hne : ∀ place : OwnerPlace, place ≠ .stopping final → place ≠ .joining final →
      s.owner ≠ place := by
    rintro place hstopping hjoining rfl
    exact howner.elim hstopping hjoining
  have hidle := hne .idle (by simp) (by simp)
  cases hstep with
  | startAgain h => exact absurd h hidle
  | start h => exact absurd h hidle
  | startRunning h => exact absurd h hidle
  | create h => exact absurd h (hne _ (by simp) (by simp))
  | createOver h => exact absurd h (hne _ (by simp) (by simp))
  | stopAgain h => exact absurd h hidle
  | stop h => exact absurd h hidle
  | stopStopped h => exact absurd h hidle
  | notify h =>
      rw [h] at howner
      obtain rfl : _ = final := by simpa using howner
      rfl
  | join => exact absurd rfl hjoin
  | destroy h => exact absurd h (hne _ (by simp) (by simp))

/-- Each step of the sweeper is one less to take, and only a sweep that had
begun is finished. -/
theorem sweeper_step_left (h : SweeperStep s e s') (hrunning : s.running = false) :
    stepsLeft s'.sweeper + 1 ≤ stepsLeft s.sweeper ∧
      sweepsLeft s'.sweeper + (if e == .sweep then 1 else 0) ≤ sweepsLeft s.sweeper := by
  cases h with
  | load h => simp [h, hrunning, stepsLeft, sweepsLeft]
  | test h => simp [h, hrunning, stepsLeft, sweepsLeft]
  | testTimedOut h => simp [h, stepsLeft, sweepsLeft]
  | wake h => simp [h, stepsLeft, sweepsLeft]
  | timeout h => simp [h, stepsLeft, sweepsLeft]
  | check h => simp [h, hrunning, stepsLeft, sweepsLeft]
  | sweep h => simp [h, stepsLeft, sweepsLeft]

theorem Stopping.step {final : Bool} (h : Stopping final s) (hstep : Step s e s')
    (hjoin : e ≠ .join) :
    Stopping final s' ∧
      stepsLeft s'.sweeper + (if e.ofSweeper then 1 else 0) ≤ stepsLeft s.sweeper ∧
      sweepsLeft s'.sweeper + (if e == .sweep then 1 else 0) ≤ sweepsLeft s.sweeper := by
  rcases hstep with howns | hsweeps
  · have hside := owner_side howns
    have hnot : e ≠ .sweep := fun heq => absurd (heq ▸ hside) (by decide)
    rw [h.owner_step howns hjoin, beq_false_of_ne hnot, hside]
    exact ⟨⟨h.1, awake_ne_none h.2.1, .inr rfl⟩, stepsLeft_awake _,
      Nat.le_of_eq (sweepsLeft_awake _)⟩
  · obtain ⟨hrunning, -, howner, -, hthere, -⟩ := sweeper_step hsweeps
    rw [sweeper_side hsweeps]
    refine ⟨⟨hrunning.trans h.1, hthere, ?_⟩, sweeper_step_left hsweeps h.1⟩
    rw [howner]
    exact h.2.2

theorem Stopping.run {final : Bool} (h : Stopping final s) (hrun : Steps Step s l s')
    (hjoin : .join ∉ l) :
    Stopping final s' ∧ l.countP Event.ofSweeper ≤ stepsLeft s.sweeper ∧
      l.countP (· == .sweep) ≤ sweepsLeft s.sweeper := by
  have hsteps := hrun.restrict (P := (· ≠ .join)) fun e he heq => hjoin (heq ▸ he)
  have hleft := hsteps.countP_le (R := Stopping final) (q := fun s => stepsLeft s.sweeper)
    (p := Event.ofSweeper) (fun _ _ _ hR hstep => (hR.step hstep.1 hstep.2).imp_right And.left) h
  have hsweeps := hsteps.countP_le (R := Stopping final) (q := fun s => sweepsLeft s.sweeper)
    (p := (· == .sweep)) (fun _ _ _ hR hstep => (hR.step hstep.1 hstep.2).imp_right And.right) h
  exact ⟨hleft.1, by omega, by omega⟩

/-- A sweeper that has not returned can go on. -/
theorem sweeper_can_step (hnone : s.sweeper ≠ .none) (hreturned : s.sweeper ≠ .returned) :
    ∃ e s', e.ofSweeper = true ∧ Step s e s' := by
  cases hplace : s.sweeper with
  | none => exact absurd hplace hnone
  | top => exact ⟨.load, _, rfl, .inr (.load hplace)⟩
  | testing timedOut =>
      cases timedOut with
      | false => exact ⟨.test, _, rfl, .inr (.test hplace)⟩
      | true => exact ⟨.test, _, rfl, .inr (.testTimedOut hplace)⟩
  | waiting => exact ⟨.timeout, _, rfl, .inr (.timeout hplace)⟩
  | checking => exact ⟨.check, _, rfl, .inr (.check hplace)⟩
  | sweeping => exact ⟨.sweep, _, rfl, .inr (.sweep hplace)⟩
  | returned => exact absurd hplace hreturned

theorem stepsLeft_le (place : SweepPlace) : stepsLeft place ≤ 3 := by
  cases place <;> simp [stepsLeft]

theorem sweepsLeft_le (place : SweepPlace) : sweepsLeft place ≤ 1 := by
  cases place <;> simp [sweepsLeft]

/-- When the sweeper has returned the owner goes through by itself. -/
theorem Stopping.returns {final : Bool} (h : Stopping final s) (hreturned : s.sweeper = .returned) :
    ∃ l s', Steps Step s l s' ∧ (∀ e ∈ l, e.ofSweeper = false) ∧ s'.owner = stopped final := by
  rcases h.2.2 with howner | howner
  · refine ⟨[.notify, .join], _, .cons (.inl (.notify howner))
      (.single (.inl (.join rfl (.inl ?_)))), ?_, rfl⟩
    · simp [hreturned, awake]
    · decide
  · exact ⟨[.join], _, .single (.inl (.join howner (.inl hreturned))), by decide, rfl⟩

end FlexQL.Proofs
