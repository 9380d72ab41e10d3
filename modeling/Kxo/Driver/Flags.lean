import Kxo.Driver.Rounds

/-!
# Kxo — the end flag (`src/main.c`)

`end` stops the driver in two places: the timer callback does not arm the timer again, and a finish
item leaves its game DONE. Both wait for the full release that puts everything back. A client that
is not the last, and any store to `kxo_state`, lower the flag without doing so.
-/

namespace Kxo

variable {σ : Type}

/-! ## The timer

The callback arms the timer again unless `end` is raised. `timerLost` is a history variable: a
callback has ended with `end` raised, and no first open has armed the timer since. -/

/-- While a client is connected and nothing stops the driver, the timer is armed. -/
def Controls.TimerArmed (c : Controls) : Prop :=
  1 ≤ c.openCnt → c.kxoStopWork = false → c.endFlag = '0' → c.timer = true

/-- With a client connected, the timer is armed unless a callback has run under `end`. -/
structure Controls.TimerKnown (c : Controls) : Prop where
  stop : c.kxoStopWork = false
  timer : 1 ≤ c.openCnt → (c.timer = true ↔ c.timerLost = false)

namespace Controls.TimerKnown

variable {c c' : Controls} {e : Event}

/-- One step of the control words keeps what is known of the timer. -/
theorem step (h : c.TimerKnown) (hstep : ControlStep c e c') : c'.TimerKnown := by
  cases hstep with
  | timer stop _ htimer =>
    refine ⟨h.stop, fun hopen => ?_⟩
    have hlost : c.timerLost = false := (h.timer hopen).mp htimer
    cases stop <;> simp [hlost]
  | tasklet => exact h
  | work => exact h
  | store => exact ⟨h.stop, h.timer⟩
  | firstOpen => exact ⟨h.stop, fun _ => by simp⟩
  | nextOpen hcnt => exact ⟨h.stop, fun _ => h.timer (by omega)⟩
  | lastRelease => exact ⟨rfl, fun hopen => absurd hopen (by simp)⟩
  | release hmore => exact ⟨h.stop, fun _ => h.timer (by omega)⟩
  | read => exact h

/-- Where the timer is known, it is as it should be unless it was lost and `end` is low again. -/
theorem armed_iff (h : c.TimerKnown) :
    c.TimerArmed ↔ (c.endFlag = '0' → 1 ≤ c.openCnt → c.timerLost = false) := by
  constructor
  · intro harmed hend hopen
    exact (h.timer hopen).mp (harmed hopen h.stop hend)
  · intro hlost hopen _ hend
    exact (h.timer hopen).mpr (hlost hend hopen)

end Controls.TimerKnown

/-- A step does not lower `end` after the timer was lost. -/
def TimerNotLost (s : Driver σ) (e : Event) : Prop :=
  LowersEnd s e → 1 ≤ s.openCnt → s.timerLost = false

/-- The step lemma: a step keeps the timer exactly when it does not lower `end` after a loss. -/
theorem timerArmed_step {s : Driver σ} {c' : Controls} {e : Event} (h : s.controls.TimerKnown)
    (harmed : s.controls.TimerArmed) (hstep : ControlStep s.controls e c') :
    c'.TimerArmed ↔ TimerNotLost s e := by
  rw [(h.step hstep).armed_iff]
  have hbefore := h.armed_iff.mp harmed
  generalize hc : s.controls = c at *
  cases hstep with
  | timer stop hstop htimer =>
    refine ⟨fun _ => False.elim, fun _ hend hopen => ?_⟩
    -- `end` is low, so the callback armed the timer again
    have hlow : stop = false := by
      rw [hstop, h.stop]
      simpa using hend
    simp [hlow, hbefore hend hopen]
  | tasklet => exact ⟨fun _ => False.elim, fun _ => hbefore⟩
  | work => exact ⟨fun _ => False.elim, fun _ => hbefore⟩
  | store _ _ e => subst hc; exact Iff.rfl
  | firstOpen => exact ⟨fun _ => False.elim, fun _ _ _ => rfl⟩
  | nextOpen hcnt => exact ⟨fun _ => False.elim, fun _ hend _ => hbefore hend (by omega)⟩
  | lastRelease hlast =>
    subst hc
    refine ⟨fun _ (hmore : 1 < s.openCnt) => ?_, fun _ _ hopen => absurd hopen (by simp)⟩
    have hone : s.openCnt = 1 := hlast
    omega
  | release hmore =>
    subst hc
    refine ⟨fun hlost _ _ => hlost rfl ?_, fun hlost _ _ => hlost hmore (Nat.le_of_lt hmore)⟩
    exact Nat.le_sub_one_of_lt hmore
  | read => exact ⟨fun _ => False.elim, fun _ => hbefore⟩

/-- It is known in every reachable state. -/
theorem timerKnown_invariant (A : Agents σ) :
    (driverSystem A).Invariant fun s => AllOwned s ∧ s.controls.TimerKnown :=
  (allOwned_invariant A).and
    (by rintro s ⟨rnd, rfl⟩; exact ⟨rfl, fun hopen => absurd hopen (Nat.not_succ_le_zero 0)⟩)
    fun _ _ _ hown hknown hs => hknown.step (controls_step hown hs)

/-- **The timer is never lost while a client is connected**, in a run from `kxo_init`, exactly when
nothing lowers `end` for connected clients once a timer callback has run with it raised. -/
theorem timerArmed_iff (A : Agents σ) (rnd : Fin nGames → U32) {tr : List (Event × Driver σ)}
    (h : (driverSystem A).Run (driverInit A rnd) tr) :
    (∀ p ∈ tr, p.2.controls.TimerArmed) ↔
      ((driverSystem A).restrict TimerNotLost).Run (driverInit A rnd) tr :=
  h.forall_iff_restrict (timerKnown_invariant A)
    (fun _ _ _ hI harmed hs => timerArmed_step hI.2 harmed (controls_step hI.1 hs))
    ((timerKnown_invariant A).init _ ⟨rnd, rfl⟩) fun hopen => absurd hopen (Nat.not_succ_le_zero 0)

/-- Two clients open the device, the timer callback runs, one of them raises `end` and is gone. -/
def twoClientsTrace (s : Driver σ) : List (Event × Driver σ) :=
  let s₂ := kxoOpen (kxoOpen s)
  let s₃ := timerHandler s₂
  let s₄ := kxoStateStore '1' '1' '1' s₃
  [(.open, kxoOpen s), (.open, s₂), (.timer, s₃), (.store '1' '1' '1', s₄),
    (.release, releaseFlags { s₄ with openCnt := s₄.openCnt - 1 })]

/-- `end` was low when the callback ran, so the timer stays armed for the other client. -/
theorem timerArmed_iff_twoClients :
    (∀ p ∈ twoClientsTrace (driverInit concreteAgents fun _ => 0), p.2.controls.TimerArmed) ↔
      ((driverSystem concreteAgents).restrict TimerNotLost).Run
        (driverInit concreteAgents fun _ => 0)
        (twoClientsTrace (driverInit concreteAgents fun _ => 0)) := by
  refine timerArmed_iff concreteAgents (fun _ => 0) (.cons rfl (.cons rfl (.cons ⟨rfl, rfl⟩
    (.cons rfl (.cons ?_ (.nil _))))))
  have hcontrols := (frame_timerHandler
    (kxoOpen (kxoOpen (driverInit concreteAgents fun _ => 0)))).1
  have hcnt : (timerHandler (kxoOpen (kxoOpen
      (driverInit concreteAgents fun _ => 0)))).openCnt = 2 := congrArg Controls.openCnt hcontrols
  simp only [driverSystem, releaseStep, kxoStateStore, hcnt]
  exact ⟨by decide, trivial⟩

/-- A client opens the device and raises `end`, the timer callback runs, the client lowers `end`. -/
def lostTimerTrace (s : Driver σ) : List (Event × Driver σ) :=
  let s₁ := kxoOpen s
  let s₂ := kxoStateStore '1' '1' '1' s₁
  let s₃ := timerHandler s₂
  [(.open, s₁), (.store '1' '1' '1', s₂), (.timer, s₃),
    (.store '1' '1' '0', kxoStateStore '1' '1' '0' s₃)]

/-- The client is connected, nothing is stopped, and the timer is not armed. -/
theorem lostTimer_not_armed :
    (driverSystem concreteAgents).Run (driverInit concreteAgents fun _ => 0)
        (lostTimerTrace (driverInit concreteAgents fun _ => 0)) ∧
      ¬ ∀ p ∈ lostTimerTrace (driverInit concreteAgents fun _ => 0), p.2.controls.TimerArmed := by
  refine ⟨.cons rfl (.cons rfl (.cons ⟨rfl, rfl⟩ (.cons rfl (.nil _)))), fun hall => ?_⟩
  have htimer := (frame_timerHandler
    (kxoStateStore '1' '1' '1' (kxoOpen (driverInit concreteAgents fun _ => 0)))).1
  have harmed := hall _ (by
    simp only [lostTimerTrace, List.mem_cons]
    exact .inr (.inr (.inr (.inl rfl))))
  simp only [Driver.controls, Controls.mk.injEq] at htimer
  obtain ⟨_, hstop, hoff, _, hcnt⟩ := htimer
  have hon := harmed (Nat.le_of_eq hcnt.symm) hstop rfl
  exact absurd (hoff.symm.trans hon) (by decide)

/-! ## The finished games

`finishSkipped` is a history variable too: the finish item of a game has run under a raised `end`.
It says exactly which DONE games are stranded, so the condition of the result can be put on the
state before a step. -/

/-- A DONE game whose finish item is not queued. -/
def GameView.Stranded (v : GameView) : Prop := v.game.state = .done ∧ v.finish.pending = false

/-- The stranded games are those whose finish item has run under `end`. -/
def SkipsKnown (s : Driver σ) : Prop := ∀ i, (s.view i).Stranded ↔ s.finishSkipped i = true

section Skips

variable {A : Agents σ} {s s' : Driver σ}

/-- A game whose finish item is queued is not stranded. -/
theorem not_stranded_of_pending {v : GameView} (h : v.finish.pending = true) : ¬ v.Stranded := by
  rintro ⟨_, hnot⟩
  rw [h] at hnot
  exact absurd hnot (by decide)

/-- Nor is one that is READY. -/
theorem not_stranded_of_ready {v : GameView} (h : v.game.state = .ready) : ¬ v.Stranded :=
  fun hstranded => absurd (h.symm.trans hstranded.1) (by decide)

/-- Nor one that is BUSY. -/
theorem not_stranded_of_busy {v : GameView} (h : v.game.state = .busy) : ¬ v.Stranded :=
  fun hstranded => absurd (h.symm.trans hstranded.1) (by decide)

/-- Where neither side is stranded, or nothing changes, the skips stay known. -/
theorem SkipsKnown.of_same (h : SkipsKnown s) (hskip : s'.finishSkipped = s.finishSkipped)
    (hview : ∀ k, s'.view k = s.view k ∨ ¬ (s.view k).Stranded ∧ ¬ (s'.view k).Stranded) :
    SkipsKnown s' := by
  intro k
  rw [hskip, ← h k]
  rcases hview k with hsame | ⟨hbefore, hafter⟩
  · rw [hsame]
  · exact iff_of_false hafter hbefore

/-- **A work item keeps the skips known**, whatever the flags. -/
theorem SkipsKnown.workStep {w : WorkEvent} (h : SkipsKnown s) (hown : AllOwned s)
    (hstep : workStep A s w s') : SkipsKnown s' := by
  cases workStep_cases hstep with
  | @aiStart p i hpending _ =>
    refine h.of_same (frame_aiWorkStart p i s).2.1 fun k => ?_
    rw [view_aiWorkStart]
    by_cases hk : k = i
    · subst hk
      have hbusy := ((hown k).of_pending hpending).1
      refine .inr ⟨not_stranded_of_busy hbusy, ?_⟩
      rw [if_pos rfl]
      split
      · exact not_stranded_of_ready rfl
      · exact not_stranded_of_busy hbusy
    · exact .inl (if_neg hk)
  | @aiCommit p i copy move agents hrunning _ =>
    refine h.of_same (frame_aiWorkCommit p i copy move agents s).2.1 fun k => ?_
    rw [view_aiWorkCommit]
    by_cases hk : k = i
    · subst hk
      have hbusy := ((hown k).of_running hrunning).1
      refine .inr ⟨not_stranded_of_busy hbusy, ?_⟩
      rw [if_pos rfl]
      split <;> exact not_stranded_of_ready rfl
    · exact .inl (if_neg hk)
  | @drawboard i =>
    exact h.of_same (frame_drawboardWorkFunc i s).2.1 fun k => .inl (view_drawboardWorkFunc s i k)
  | @finish i rnd hpending =>
    obtain ⟨hdone, _, hidx, _⟩ := (hown i).of_finish hpending
    change (s.finishWorks i).gameIdx = i at hidx
    intro k
    rw [view_finishGameWorkFunc s A i rnd hidx, (frame_finishGameWorkFunc A i rnd s).2.1, hidx]
    by_cases hk : k = i
    · subst hk
      -- a queued finish item belongs to a game that was not skipped
      have hfalse : ¬ s.finishSkipped k = true := fun hskip =>
        not_stranded_of_pending hpending ((h k).mpr hskip)
      by_cases hend : s.endFlag = '0'
      · simp only [hend, if_true]
        exact iff_of_false (not_stranded_of_ready rfl) hfalse
      · simp only [hend, if_true, if_false]
        exact iff_of_true ⟨hdone, rfl⟩ (Function.update_self _ _ _)
    · rw [if_neg hk]
      split
      · exact h k
      · rw [Function.update_of_ne hk]
        exact h k

/-- The tasklet touches READY games only. -/
theorem SkipsKnown.tasklet (h : SkipsKnown s) : SkipsKnown (gameTaskletFunc s) := by
  refine h.of_same rfl fun k => ?_
  rw [view_gameTaskletFunc]
  split
  case isTrue hready =>
    exact .inr ⟨not_stranded_of_ready hready.2, not_stranded_of_busy rfl⟩
  case isFalse => exact .inl rfl

/-- The timer makes a game DONE and queues its finish item. -/
theorem SkipsKnown.timer (h : SkipsKnown s) : SkipsKnown (timerHandler s) := by
  refine h.of_same (frame_timerHandler s).2.1 fun k => ?_
  rw [view_timerHandler]
  split
  case isTrue hfin =>
    have hready := (of_decide_eq_true hfin).1
    exact .inr ⟨not_stranded_of_ready hready, not_stranded_of_pending rfl⟩
  case isFalse => exact .inl rfl

/-- The last release puts every DONE game back. -/
theorem SkipsKnown.release (h : SkipsKnown s) (hstep : releaseStep A s s') : SkipsKnown s' := by
  obtain ⟨-, t, -, rfl⟩ | ⟨-, rfl⟩ := releaseStep_cases hstep
  · intro k
    refine iff_of_false ?_ (by simp [releaseFlags, releaseDone])
    show ¬ ((releaseDone t).view k).Stranded
    rw [view_releaseDone]
    split
    case isTrue => exact not_stranded_of_ready rfl
    case isFalse hnot => exact fun hstranded => hnot hstranded.1
  · exact h

/-- Every step keeps the account of the skipped finish items. -/
theorem SkipsKnown.step {e : Event} (h : SkipsKnown s) (hown : AllOwned s)
    (hstep : (driverSystem A).step s e s') : SkipsKnown s' := by
  cases e with
  | timer => obtain ⟨_, rfl⟩ := hstep; exact h.timer
  | tasklet => obtain ⟨_, rfl⟩ := hstep; exact h.tasklet
  | work w => exact h.workStep hown hstep
  | store d r e => obtain rfl := hstep; exact h
  | «open» =>
    obtain rfl := hstep
    simp only [kxoOpen]
    split <;> exact h
  | release => exact h.release hstep
  | read count => obtain ⟨_, rfl⟩ := hstep; exact h

end Skips

/-- While nothing stops the driver, a DONE game has its finish item queued. -/
def NoneStranded (s : Driver σ) : Prop :=
  s.kxoStopWork = false → s.endFlag = '0' →
    ∀ i, (s.games i).state = .done → (s.finishWorks i).pending = true

/-- A step does not lower `end` over a game whose finish item ran with it raised. -/
def FinishNotSkipped (s : Driver σ) (e : Event) : Prop :=
  LowersEnd s e → ∀ i, s.finishSkipped i = false

/-- Where the skips are known, no game is stranded unless one was skipped and `end` is low again. -/
theorem SkipsKnown.none_iff {s : Driver σ} (h : SkipsKnown s)
    (hstop : s.kxoStopWork = false) :
    NoneStranded s ↔ (s.endFlag = '0' → ∀ i, s.finishSkipped i = false) := by
  have hskip : ∀ i, s.finishSkipped i = false ↔
      ((s.games i).state = .done → (s.finishWorks i).pending = true) := by
    intro i
    rw [← Bool.not_eq_true, ← h i, GameView.Stranded, not_and, Bool.not_eq_false]
    rfl
  simp only [hskip]
  exact ⟨fun hnone => hnone hstop, fun hnone _ => hnone⟩

/-- With `end` low, a work item skips no game. -/
theorem finishSkipped_workStep {A : Agents σ} {s s' : Driver σ} {w : WorkEvent}
    (hstep : workStep A s w s') (hend : s.endFlag = '0') : s'.finishSkipped = s.finishSkipped := by
  cases workStep_cases hstep with
  | aiStart => exact (frame_aiWorkStart _ _ s).2.1
  | aiCommit => exact (frame_aiWorkCommit _ _ _ _ _ s).2.1
  | drawboard => exact (frame_drawboardWorkFunc _ s).2.1
  | finish => rw [(frame_finishGameWorkFunc A _ _ s).2.1, if_pos hend]

/-- A step that does not lower `end` skips no game while it is low. -/
theorem finishSkipped_step {A : Agents σ} {s s' : Driver σ} {e : Event}
    (hstep : (driverSystem A).step s e s') (hnot : ¬ LowersEnd s e) (hend : s'.endFlag = '0')
    (hskip : s.endFlag = '0' → ∀ i, s.finishSkipped i = false) :
    ∀ i, s'.finishSkipped i = false := by
  cases e with
  | timer =>
    obtain ⟨_, rfl⟩ := hstep
    rw [(frame_timerHandler s).2.1]
    exact hskip ((congrArg Controls.endFlag (frame_timerHandler s).1).symm.trans hend)
  | tasklet => obtain ⟨_, rfl⟩ := hstep; exact hskip hend
  -- a finish item skips only with `end` set
  | work w =>
    have hlow : s.endFlag = '0' :=
      (congrArg Controls.endFlag (controls_workStep hstep)).symm.trans hend
    rw [finishSkipped_workStep hstep hlow]
    exact hskip hlow
  | store d r e =>
    obtain rfl := hstep
    exact absurd hend hnot
  | «open» =>
    obtain rfl := hstep
    simp only [kxoOpen] at hend ⊢
    split at hend
    case isTrue hfirst => rw [if_pos hfirst]; exact hskip hend
    case isFalse hmore => rw [if_neg hmore]; exact hskip hend
  -- the last release clears the marks; another one does not touch them
  | release =>
    obtain ⟨-, t, -, rfl⟩ | ⟨hmore, rfl⟩ := releaseStep_cases hstep
    · exact fun _ => rfl
    · exact absurd hmore hnot
  | read count => obtain ⟨_, rfl⟩ := hstep; exact hskip hend

/-- The step lemma: a step strands no game exactly when it does not lower `end` after a skip. -/
theorem noneStranded_step {A : Agents σ} {s s' : Driver σ} {e : Event}
    (hown : AllOwned s) (hknown : s.controls.TimerKnown) (h : SkipsKnown s) (hnone : NoneStranded s)
    (hstep : (driverSystem A).step s e s') : NoneStranded s' ↔ FinishNotSkipped s e := by
  have hstop : s'.kxoStopWork = false := (hknown.step (controls_step hown hstep)).stop
  rw [(h.step hown hstep).none_iff hstop]
  have hbefore := (h.none_iff hknown.stop).mp hnone
  by_cases hlow : LowersEnd s e
  · -- `end` is low after the step, and the skips are as they were
    have hafter : s'.endFlag = '0' ∧ s'.finishSkipped = s.finishSkipped := by
      cases e with
      | store d r e => obtain rfl := hstep; exact ⟨hlow, rfl⟩
      | release =>
        change releaseStep A s s' at hstep
        have hmore : 1 < s.openCnt := hlow
        rw [releaseStep, if_neg (by omega)] at hstep
        obtain ⟨_, rfl⟩ := hstep
        exact ⟨rfl, rfl⟩
      | _ => exact hlow.elim
    rw [hafter.2]
    exact ⟨fun hs _ => hs hafter.1, fun hs _ => hs hlow⟩
  · exact iff_of_true (fun hend => finishSkipped_step hstep hlow hend hbefore)
      fun hlow' => absurd hlow' hlow

/-- The account is right in every reachable state. -/
theorem skipsKnown_invariant (A : Agents σ) :
    (driverSystem A).Invariant fun s =>
      (AllOwned s ∧ s.controls.TimerKnown) ∧ SkipsKnown s :=
  (timerKnown_invariant A).and
    (by
      rintro s ⟨rnd, rfl⟩ i
      exact iff_of_false (not_stranded_of_ready rfl) (by simp [driverInit]))
    fun _ _ _ hI hknown hs => hknown.step hI.1 hs

/-- **No game is stranded in DONE**, in a run from `kxo_init`, exactly when nothing but the last
release lowers `end` once a finish item has run with it raised. -/
theorem noneStranded_iff (A : Agents σ) (rnd : Fin nGames → U32) {tr : List (Event × Driver σ)}
    (h : (driverSystem A).Run (driverInit A rnd) tr) :
    (∀ p ∈ tr, NoneStranded p.2) ↔
      ((driverSystem A).restrict FinishNotSkipped).Run (driverInit A rnd) tr :=
  h.forall_iff_restrict (skipsKnown_invariant A)
    (fun _ _ _ hI hnone hs => noneStranded_step hI.1.1 hI.1.2 hI.2 hnone hs)
    ((skipsKnown_invariant A).init _ ⟨rnd, rfl⟩)
    fun _ _ _ hdone => absurd hdone (by simp [driverInit])

/-- A client raises `end` and lowers it again, and then the finish item of the first game runs. -/
def pauseTrace (A : Agents σ) (s : Driver σ) : List (Event × Driver σ) :=
  let s₁ := kxoStateStore '1' '1' '1' s
  let s₂ := kxoStateStore '1' '1' '0' s₁
  [(.store '1' '1' '1', s₁), (.store '1' '1' '0', s₂),
    (.work (.finish firstGame 0), finishGameWorkFunc A firstGame 0 s₂)]

/-- The pause comes once the first game is won and its finish item queued. -/
theorem noneStranded_iff_won :
    ∃ tr : List (Event × Driver AgentState),
      tr.map Prod.fst = wonEvents ++
        [.store '1' '1' '1', .store '1' '1' '0', .work (.finish firstGame 0)] ∧
      (∃ p ∈ tr, (p.2.games firstGame).state = .done ∧
        (p.2.finishWorks firstGame).pending = true) ∧
      ((∀ p ∈ tr, NoneStranded p.2) ↔
        ((driverSystem concreteAgents).restrict FinishNotSkipped).Run
          (driverInit concreteAgents fun _ => learnersRnd) tr) := by
  obtain ⟨s, _, hexec, h, hfinish, _⟩ := learners_finished
  have hpending : (s.finishWorks firstGame).pending = true := congrArg FinishWork.pending hfinish
  have hpause : (driverSystem concreteAgents).Run s (pauseTrace concreteAgents s) :=
    .cons rfl (.cons rfl (.cons ⟨hpending, rfl⟩ (.nil _)))
  obtain ⟨tr, hrun, hevents, hlast⟩ := hexec.of_restrict.run (by simp [wonEvents]) hpause
  obtain ⟨p, hp, rfl⟩ := List.mem_map.mp hlast
  refine ⟨_, by rw [List.map_append, hevents]; rfl, ⟨p, List.mem_append_left _ hp, ?_, hpending⟩,
    noneStranded_iff concreteAgents (fun _ => learnersRnd) hrun⟩
  rw [h.game]

/-- Five rounds end the first game; the timer finds it finished; a client raises `end`, the finish
item runs, and the client lowers `end`. -/
def strandingEvents : List Event :=
  .open :: (gameEvents firstGame .o [5, 6, 9, 10, 1] ++
    [.timer, .store '1' '1' '1', .work (.finish firstGame 0), .store '1' '1' '0'])

/-- A finish item that runs with `end` raised strands its game, and so it stays when `end` is
lowered. -/
theorem not_noneStranded_of_skip (A : Agents σ) {s : Driver σ} {i : Fin nGames} (rnd : U32)
    (hidx : (s.finishWorks i).gameIdx = i) (hdone : (s.games i).state = .done)
    (hstop : s.kxoStopWork = false) (hend : s.endFlag ≠ '0') (d r : Char) :
    ¬ NoneStranded (kxoStateStore d r '0' (finishGameWorkFunc A i rnd s)) := by
  have hview := view_finishGameWorkFunc s A i rnd hidx i
  rw [if_pos rfl, if_neg hend] at hview
  have hstop' : (finishGameWorkFunc A i rnd s).kxoStopWork = false :=
    (congrArg Controls.kxoStopWork (frame_finishGameWorkFunc A i rnd s).1).trans hstop
  have hstate : ((finishGameWorkFunc A i rnd s).games i).state = .done :=
    (congrArg (fun v => v.game.state) hview).trans hdone
  have hfinish : ((finishGameWorkFunc A i rnd s).finishWorks i).pending = false :=
    congrArg (fun v => v.finish.pending) hview
  intro hnone
  have hpending : ((finishGameWorkFunc A i rnd s).finishWorks i).pending = true :=
    hnone hstop' rfl i hstate
  rw [hfinish] at hpending
  exact absurd hpending (by decide)

/-- The first game stays DONE, and nothing is queued for it. -/
theorem stranding_not_none :
    ∃ s, (driverSystem concreteAgents).Executes
        (driverInit concreteAgents fun _ => learnersRnd) strandingEvents s ∧ ¬ NoneStranded s := by
  obtain ⟨s, _, hexec, h, hfinish, _⟩ := learners_finished
  have hidx : (s.finishWorks firstGame).gameIdx = firstGame := congrArg FinishWork.gameIdx hfinish
  have hnot := not_noneStranded_of_skip concreteAgents (s := kxoStateStore '1' '1' '1' s) 0 hidx
    (congrArg AiGame.state h.game) h.stop (by simp [kxoStateStore]) '1' '1'
  have hpending : (s.finishWorks firstGame).pending = true := congrArg FinishWork.pending hfinish
  refine ⟨_, ?_, hnot⟩
  have hevents : strandingEvents = wonEvents ++
      [.store '1' '1' '1', .work (.finish firstGame 0), .store '1' '1' '0'] := by
    simp [strandingEvents, wonEvents]
  rw [hevents]
  exact hexec.of_restrict.append (.cons rfl (.cons ⟨hpending, rfl⟩ (.cons rfl (.nil _))))

end Kxo
