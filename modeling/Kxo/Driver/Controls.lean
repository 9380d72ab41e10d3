import Kxo.Driver.Games

/-!
# Kxo — the control words (`src/main.c`)

The end flag, the stop flag, the timer and the open count are written by the timer, by the clients
and by nobody else. `ControlStep` is the driver with everything but these left out.

* **`frame_aiWorkStart`** and its neighbours — what each handler leaves alone, one lemma a handler.
* **`controls_releaseStep`** — the last release: whatever work items run while it waits for them,
  the words are what it has set them to.
* **`controls_step`** — so every step of the driver is a `ControlStep`, and what is said of the
  flags and the timer (`Kxo.Driver.Flags`) is proved over that small system.
-/

namespace Kxo

variable {σ : Type}

/-! ## The control words

A record of the words and a projection of the driver onto it. -/

/-- What the work items and the tasklet leave alone. -/
structure Controls where
  endFlag : Char
  kxoStopWork : Bool
  timer : Bool
  timerLost : Bool
  openCnt : Nat

def Driver.controls (s : Driver σ) : Controls :=
  ⟨s.endFlag, s.kxoStopWork, s.timer, s.timerLost, s.openCnt⟩

/-! ## What each handler leaves alone

The control words and the two histories beside the games: one lemma a handler.
-/

/-- Starting an AI item, or letting it bail out. -/
theorem frame_aiWorkStart (p : Player) (i : Fin nGames) (s : Driver σ) :
    (aiWorkStart p i s).controls = s.controls ∧
      (aiWorkStart p i s).finishSkipped = s.finishSkipped ∧
      (aiWorkStart p i s).writes = s.writes := by
  unfold aiWorkStart
  split <;> exact ⟨rfl, rfl, rfl⟩

/-- Ending it: a board that was written onto is logged. -/
theorem frame_aiWorkCommit (p : Player) (i : Fin nGames) (copy : XoTable) (move : Int)
    (agents : σ) (s : Driver σ) :
    (aiWorkCommit p i copy move agents s).controls = s.controls ∧
      (aiWorkCommit p i copy move agents s).finishSkipped = s.finishSkipped ∧
      (aiWorkCommit p i copy move agents s).writes =
        if move ≠ -1 then (s.games i).xoTlb.table :: s.writes else s.writes := by
  by_cases hmove : move = -1
  · subst hmove
    exact ⟨rfl, rfl, rfl⟩
  · rw [if_pos hmove]
    simp only [aiWorkCommit, if_pos hmove]
    -- a learning agent's move is recorded as well
    split <;> exact ⟨rfl, rfl, rfl⟩

/-- Producing a record. -/
theorem frame_drawboardWorkFunc (i : Fin nGames) (s : Driver σ) :
    (drawboardWorkFunc i s).controls = s.controls ∧
      (drawboardWorkFunc i s).finishSkipped = s.finishSkipped ∧
      (drawboardWorkFunc i s).writes = s.writes := by
  simp only [drawboardWorkFunc]
  split
  · exact ⟨rfl, rfl, rfl⟩
  · split <;> exact ⟨rfl, rfl, rfl⟩

/-- Starting the next game. -/
theorem frame_restartGame (A : Agents σ) (j : Fin nGames) (win rnd : U32) (s : Driver σ) :
    (restartGame A j win rnd s).controls = s.controls ∧
      (restartGame A j win rnd s).finishSkipped = s.finishSkipped ∧
      (restartGame A j win rnd s).writes = s.writes := by
  simp only [restartGame]
  split <;> exact ⟨rfl, rfl, rfl⟩

/-- A finish item that sees `end` raised is noted, and does no more. -/
theorem frame_finishGameWorkFunc (A : Agents σ) (i : Fin nGames) (rnd : U32) (s : Driver σ) :
    (finishGameWorkFunc A i rnd s).controls = s.controls ∧
      (finishGameWorkFunc A i rnd s).finishSkipped =
        (if s.endFlag = '0' then s.finishSkipped
        else Function.update s.finishSkipped (s.finishWorks i).gameIdx true) ∧
      (finishGameWorkFunc A i rnd s).writes = s.writes := by
  by_cases hend : s.endFlag = '0'
  · rw [if_pos hend]
    simp only [finishGameWorkFunc]
    split <;> exact frame_restartGame A _ _ _ _
  · rw [if_neg hend]
    simp only [finishGameWorkFunc]
    split <;> exact ⟨rfl, rfl, rfl⟩

/-- The timer callback arms the timer again unless the driver is shutting down. -/
theorem frame_timerHandler (s : Driver σ) :
    (timerHandler s).controls = ⟨s.endFlag, s.kxoStopWork, !kxoShuttingDown s,
        s.timerLost || kxoShuttingDown s, s.openCnt⟩ ∧
      (timerHandler s).finishSkipped = s.finishSkipped ∧
      (timerHandler s).writes = s.writes := by
  simp only [timerHandler, kxoShuttingDown, timerGames]
  cases hshut : (s.kxoStopWork || decide (s.endFlag ≠ '0'))
  · split
    case isTrue => exact ⟨rfl, rfl, rfl⟩
    case isFalse hnone =>
      -- no game is unfinished, so the first one is finished
      rw [if_pos ⟨by decide, firstGame, fun h => hnone ⟨⟨firstGame, h⟩, by decide⟩⟩]
      exact ⟨rfl, rfl, rfl⟩
  · rw [if_neg fun h => h.2 rfl, if_neg fun h => h.1 rfl]
    exact ⟨rfl, rfl, rfl⟩

/-! ## The steps of the control words

Work items and the tasklet do not appear: to the control words they are steps in which nothing
happens. -/

/-- A work item leaves the control words alone. -/
theorem controls_workStep {A : Agents σ} {s s' : Driver σ} {w : WorkEvent}
    (h : workStep A s w s') : s'.controls = s.controls := by
  cases workStep_cases h with
  | aiStart => exact (frame_aiWorkStart _ _ s).1
  | aiCommit => exact (frame_aiWorkCommit _ _ _ _ _ s).1
  | drawboard => exact (frame_drawboardWorkFunc _ s).1
  | finish => exact (frame_finishGameWorkFunc A _ _ s).1

/-- The first half of the last release: the stop flag is set, the timer deleted, the count zero. -/
theorem controls_releaseStop (s : Driver σ) :
    (releaseStop s).controls = ⟨s.endFlag, true, false, s.timerLost, 0⟩ := by
  simp only [releaseStop]
  split <;> rfl

/-- A release lowers `end`; the last one leaves no client, and no stop flag either way. -/
theorem controls_releaseStep {A : Agents σ} {s s' : Driver σ} (hown : AllOwned s)
    (h : releaseStep A s s') :
    s.openCnt = 1 ∧ s'.controls = ⟨'0', false, false, s.timerLost, 0⟩ ∨
      1 < s.openCnt ∧
        s'.controls = ⟨'0', s.kxoStopWork, s.timer, s.timerLost, s.openCnt - 1⟩ := by
  obtain ⟨hlast, t, hflush, rfl⟩ | ⟨hmore, rfl⟩ := releaseStep_cases h
  · have hcontrols : t.controls = (releaseStop s).controls :=
      (hflush.keeps (P := fun t => t.controls = (releaseStop s).controls)
        (hown.of_steps view_releaseStop) rfl
        fun _ _ _ _ ht hstep => (controls_workStep hstep).trans ht).2
    rw [controls_releaseStop] at hcontrols
    refine .inl ⟨hlast, ?_⟩
    simp only [Driver.controls, Controls.mk.injEq] at hcontrols
    obtain ⟨_, _, htimer, hlost, hcnt⟩ := hcontrols
    simp only [Driver.controls, releaseFlags, releaseDone, htimer, hlost, hcnt]
  · exact .inr ⟨hmore, rfl⟩

/-- What a step of the driver does to the control words. -/
inductive ControlStep : Controls → Event → Controls → Prop where
  | timer {c : Controls} (stop : Bool) : stop = (c.kxoStopWork || decide (c.endFlag ≠ '0')) →
      c.timer = true →
      ControlStep c .timer { c with timer := !stop, timerLost := c.timerLost || stop }
  | tasklet (c : Controls) : ControlStep c .tasklet c
  | work (c : Controls) (w : WorkEvent) : ControlStep c (.work w) c
  | store (c : Controls) (d r e : Char) : ControlStep c (.store d r e) { c with endFlag := e }
  | firstOpen {c : Controls} : c.openCnt = 0 →
      ControlStep c .open { c with openCnt := 1, timer := true, timerLost := false }
  | nextOpen {c : Controls} : c.openCnt ≠ 0 →
      ControlStep c .open { c with openCnt := c.openCnt + 1 }
  | lastRelease {c : Controls} : c.openCnt = 1 →
      ControlStep c .release ⟨'0', false, false, c.timerLost, 0⟩
  | release {c : Controls} : 1 < c.openCnt →
      ControlStep c .release { c with endFlag := '0', openCnt := c.openCnt - 1 }
  | read (c : Controls) (count : Nat) : ControlStep c (.read count) c

/-- **Every step of the driver is a step of its control words.** -/
theorem controls_step {A : Agents σ} {s s' : Driver σ} {e : Event} (hown : AllOwned s)
    (h : (driverSystem A).step s e s') : ControlStep s.controls e s'.controls := by
  cases e with
  | timer =>
    obtain ⟨htimer, rfl⟩ := h
    rw [(frame_timerHandler s).1]
    exact .timer _ rfl htimer
  | tasklet => obtain ⟨_, rfl⟩ := h; exact .tasklet _
  | work w => rw [controls_workStep h]; exact .work _ w
  | store d r e => obtain rfl := h; exact .store _ d r e
  | «open» =>
    obtain rfl := h
    by_cases hcnt : s.openCnt = 0
    · have hopen : (kxoOpen s).controls =
          { s.controls with openCnt := 1, timer := true, timerLost := false } := by
        simp [kxoOpen, hcnt, Driver.controls]
      rw [hopen]
      exact .firstOpen hcnt
    · have hopen : (kxoOpen s).controls = { s.controls with openCnt := s.openCnt + 1 } := by
        simp [kxoOpen, hcnt, Driver.controls]
      rw [hopen]
      exact .nextOpen hcnt
  | release =>
    rcases controls_releaseStep hown h with ⟨hlast, hc⟩ | ⟨hmore, hc⟩
    · rw [hc]; exact .lastRelease hlast
    · rw [hc]; exact .release hmore
  | read count => obtain ⟨_, rfl⟩ := h; exact .read _ count

/-- A step that lowers `end` while it leaves every client but its own connected. -/
def LowersEnd (s : Driver σ) : Event → Prop
  | .store _ _ e => e = '0'
  | .release => 1 < s.openCnt
  | _ => False

end Kxo
