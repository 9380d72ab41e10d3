import Kxo.Driver.Rounds

/-!
# Kxo — work ownership (`src/main.c`)

The READY/BUSY/DONE word is what makes the reads at the start of an AI item safe: whoever holds the
game in BUSY or DONE is the only one with an item for it.
-/

namespace Kxo

variable {σ : Type}

/-- An item queued or running. -/
def AiWork.Active (w : AiWork) : Prop := w.pending = true ∨ w.running.isSome = true

/-- An idle item is neither queued nor running. -/
theorem AiWork.not_active_idle : ¬ AiWork.idle.Active := by simp [Active, idle]

/-- What an owner implies about the items of a game. -/
structure ItemsAgree (i : Fin nGames) (v : GameView) : Prop where
  /-- At most one of `ai_one`, `ai_two` and the finish item is queued or running. -/
  oneAi : ¬ ((v.work .o).Active ∧ (v.work .x).Active)
  aiOrFinish : ∀ p, ¬ ((v.work p).Active ∧ v.finish.pending = true)
  /-- An item running is not queued as well. -/
  once : ∀ p, ¬ ((v.work p).pending = true ∧ (v.work p).running.isSome = true)
  busy : v.game.state = .busy ↔ ∃ p, (v.work p).Active
  done : v.finish.pending = true → v.game.state = .done
  /-- What a running item copied is still there. -/
  current : ∀ p copy, (v.work p).running = some copy → copy = v.game.xoTlb
  /-- The outcome stored with a queued finish item is the board's. -/
  win : v.finish.pending = true → v.finish.gameIdx = i ∧ v.finish.win = checkWin v.game.xoTlb.table

/-- Each part follows from who owns the game: nobody, one AI item, or the finish item. -/
theorem Owned.itemsAgree {i : Fin nGames} {v : GameView} (h : Owned i v) : ItemsAgree i v := by
  have hidle : ∀ p, (v.work p).Active → v.work p ≠ .idle := by
    rintro p hp heq
    rw [heq] at hp
    exact AiWork.not_active_idle hp
  refine ⟨?_, ?_, ?_, ⟨?_, ?_⟩, fun hf => (h.of_finish hf).1,
    fun p copy hp => (h.of_running hp).2.2.1,
    fun hf => ⟨(h.of_finish hf).2.2.1, (h.of_finish hf).2.2.2.1⟩⟩
  · -- both would be the item of the player to move
    rintro ⟨ho, hx⟩
    obtain ⟨_, hto, _⟩ := h.of_work (hidle .o ho)
    obtain ⟨_, htx, _⟩ := h.of_work (hidle .x hx)
    exact absurd (hto.trans htx.symm) (by decide)
  · rintro p ⟨hp, hf⟩
    obtain ⟨_, _, _, _, hnot⟩ := h.of_work (hidle p hp)
    rw [hf] at hnot
    exact absurd hnot (by decide)
  · rintro p ⟨hpending, hrunning⟩
    obtain ⟨_, _, hwork | hwork, _⟩ := h.of_work (hidle p (.inl hpending))
    · rw [hwork] at hrunning
      simp at hrunning
    · rw [hwork] at hpending
      simp at hpending
  · intro hbusy
    refine ⟨v.game.turn, ?_⟩
    cases h with
    | ready hstate => rw [hstate] at hbusy; simp at hbusy
    | done hstate => rw [hstate] at hbusy; simp at hbusy
    | busy _ hmine =>
      rcases hmine with hmine | hmine <;> rw [hmine] <;> simp [AiWork.Active]
  · rintro ⟨p, hp⟩
    exact (h.of_work (hidle p hp)).1

/-- **Work ownership.** In every state the driver passes through, and for every game: at most one of
its AI items and its finish item is queued or running, and none twice; the game is BUSY just as long
as an AI item is, and that item works on the board as it stands; and it is DONE while the finish
item is queued, which has the outcome of the board. -/
theorem work_ownership (A : Agents σ) {s : Driver σ} (h : Passes A s) (i : Fin nGames) :
    ItemsAgree i (s.view i) :=
  (h.game (P := fun _ _ => True) (fun _ _ => trivial) (fun _ _ _ _ _ _ => trivial) i).1.itemsAgree

/-- The fifth move of the first game is being computed; and later, that game has been won. -/
theorem work_ownership_running :
    ∃ s t : Driver AgentState,
      (s.aiWork firstGame .o).running = some fourMovesTable ∧
      ItemsAgree firstGame (s.view firstGame) ∧
      t.finishWorks firstGame = ⟨true, firstGame, cellO⟩ ∧
      ItemsAgree firstGame (t.view firstGame) := by
  obtain ⟨s, _, _, hs, hplaying, _⟩ := learners_running
  obtain ⟨t, _, hexec, _, hfinish, _⟩ := learners_finished
  refine ⟨s, t, ?_, work_ownership concreteAgents (.reached ?_) firstGame, hfinish,
    work_ownership concreteAgents
      (.reached (hexec.of_restrict.reachable (.init ⟨_, rfl⟩))) firstGame⟩
  · rw [hplaying.work, runningItems, Function.update_self]
  · exact hs.of_restrict

end Kxo
