import Kxo.Driver.Rounds

/-!
# Kxo — the game record (`src/main.c`, `include/game.h`)

The attribute word, the board, the recorded moves and the player to move are four packed words that
two handlers and two reset paths update. `Coherent` says how they agree: the record, replayed on the
empty board, is the board.

* **`xoAttrSteps_xoSetAttrSteps`** and its neighbours — the step count in the attribute word, by the
  laws of `BitField`. A finished game's step count fits its five bits.
* **`replay`** — the board that the recorded moves lead to, O and X in turn; `replay_congr` says
  that only the moves up to the step count matter.
* **`CoherentInv.play`** — one move keeps the four words in agreement. The record has room for it,
  because each recorded move has taken a cell (`CoherentInv.steps_lt`).
* **`Passes.coherentInv`**, **`record_coherence`** — so do all handlers, in every state that the
  driver passes through, within the last release too.
-/

namespace Kxo

open BitField

variable {σ : Type}

/-! ## The attribute word

The macros of `game.h` as fields of a word. -/

/-- The game's number, as a field. -/
theorem xoAttrId_eq_get (attr : U32) : xoAttrId attr = get attr (ones 32 4) 0 := by
  have hmask : (0xf : U32) = ones 32 4 := by decide
  simp [xoAttrId, BitField.get, ← hmask]

/-- The step count, as a field. -/
theorem xoAttrSteps_eq_get (attr : U32) : xoAttrSteps attr = get attr (ones 32 5) 4 := by
  have hmask : (0x1f : U32) = ones 32 5 := by decide
  rw [xoAttrSteps, getBits, hmask]

/-- The agents, as a field. -/
theorem xoAttrAiAlg_eq_get (attr : U32) : xoAttrAiAlg attr = get attr (ones 32 4) 9 := by
  have hmask : (0xf : U32) = ones 32 4 := by decide
  rw [xoAttrAiAlg, getBits, hmask]

/-- The macro for the step count writes its field. -/
theorem xoSetAttrSteps_eq_set (attr steps : U32) :
    xoSetAttrSteps attr steps = BitField.set attr steps (ones 32 5) 4 := by
  have hmask : (0x1f : U32) = ones 32 5 := by decide
  rw [xoSetAttrSteps, setBits, hmask]

section SetSteps

variable (attr : U32) {steps : U32} (h : Fits steps 5)

include h

/-- It leaves the game's number. -/
theorem xoAttrId_xoSetAttrSteps : xoAttrId (xoSetAttrSteps attr steps) = xoAttrId attr := by
  rw [xoAttrId_eq_get, xoAttrId_eq_get, xoSetAttrSteps_eq_set]
  exact get_set_other attr (by omega) h (by omega)

/-- The step count is read as it was set. -/
theorem xoAttrSteps_xoSetAttrSteps : xoAttrSteps (xoSetAttrSteps attr steps) = steps := by
  rw [xoAttrSteps_eq_get, xoSetAttrSteps_eq_set]
  exact get_set_same attr (by omega) h

/-- It leaves the agents. -/
theorem xoAttrAiAlg_xoSetAttrSteps :
    xoAttrAiAlg (xoSetAttrSteps attr steps) = xoAttrAiAlg attr := by
  rw [xoAttrAiAlg_eq_get, xoAttrAiAlg_eq_get, xoSetAttrSteps_eq_set]
  exact get_set_other attr (by omega) h (by omega)

end SetSteps

/-- A remainder by three, as a word. -/
theorem umod_three_cases (x : U32) : x % 3 = 0 ∨ x % 3 = 1 ∨ x % 3 = 2 := by
  have hlt : (x % 3).toNat < 3 := by
    rw [BitVec.toNat_umod]
    exact Nat.mod_lt _ (by decide)
  have hcases : (x % 3).toNat = 0 ∨ (x % 3).toNat = 1 ∨ (x % 3).toNat = 2 := by omega
  rcases hcases with h | h | h
  · exact .inl (BitVec.eq_of_toNat_eq h)
  · exact .inr (.inl (BitVec.eq_of_toNat_eq h))
  · exact .inr (.inr (BitVec.eq_of_toNat_eq h))

/-- Two agent numbers, one of them shifted, fit four bits. -/
theorem fits_aiAlg (x y : U32) : Fits (x % (3 : U32) ||| ((y % (3 : U32)) <<< 2)) 4 := by
  rcases umod_three_cases x with hx | hx | hx <;> rcases umod_three_cases y with hy | hy | hy <;>
    rw [hx, hy] <;> decide

/-- A new game's attribute word is its number with the agents written into it. -/
theorem newAttr_eq_set (i : Fin nGames) (rnd : U32) :
    newAttr i rnd = BitField.set (BitVec.ofNat 32 i)
      (rnd % (3 : U32) ||| (((rnd >>> 16) % (3 : U32)) <<< 2)) (ones 32 4) 9 := by
  have hmask : (0xf : U32) = ones 32 4 := by decide
  rw [newAttr, xoSetAttrAiAlg, setBits, hmask]

/-- It has the game's number. -/
theorem xoAttrId_newAttr (i : Fin nGames) (rnd : U32) :
    xoAttrId (newAttr i rnd) = BitVec.ofNat 32 i := by
  rw [newAttr_eq_set, xoAttrId_eq_get, get_set_other _ (by omega) (fits_aiAlg _ _) (by omega),
    ← xoAttrId_eq_get]
  revert i
  decide

/-- And no steps. -/
theorem xoAttrSteps_newAttr (i : Fin nGames) (rnd : U32) : xoAttrSteps (newAttr i rnd) = 0 := by
  rw [newAttr_eq_set, xoAttrSteps_eq_get, get_set_other _ (by omega) (fits_aiAlg _ _) (by omega),
    ← xoAttrSteps_eq_get]
  revert i
  decide

/-! ## The record of moves

A word of sixteen fields, one for each move of a game. `replay` reads them in order. -/

/-- The recorded cells after one was written: sixteen disjoint fields of four bits. -/
theorem getRecordCell_setRecordCell (moves : U64) {m n k : Nat} (hm : m < nGrids) (hn : n < 16)
    (hk : k < 16) :
    getRecordCell (setRecordCell moves (BitVec.ofNat 64 m) n) k =
      if k = n then BitVec.ofNat 64 m else getRecordCell moves k := by
  have hmask : (0xf : U64) = ones 64 4 := by decide
  have hfits : Fits (BitVec.ofNat 64 m) 4 := by
    simp only [Fits, BitVec.toNat_ofNat, nGrids] at *
    omega
  simp only [getRecordCell, setRecordCell, getBits64, setBits64, hmask]
  split
  case isTrue h =>
    subst h
    exact get_set_same moves (by omega) hfits
  case isFalse h => exact get_set_other moves (by omega) hfits (by omega)

/-- Nothing recorded reads as cell 0. -/
@[simp] theorem getRecordCell_zero (k : Nat) : getRecordCell 0 k = 0 := by
  simp [getRecordCell, getBits64, BitField.get]

/-- Four bits hold a cell of the board. -/
theorem getRecordCell_lt (moves : U64) {k : Nat} (hk : k < 16) :
    (getRecordCell moves k).toNat < nGrids := by
  have hmask : (0xf : U64) = ones 64 4 := by decide
  have hfit := fits_get moves (k := 4) (n := k * 4) (by omega)
  rw [← hmask] at hfit
  exact hfit

/-- The player of the move with a given number. -/
def playerAt (k : Nat) : Player := if k % 2 = 0 then .o else .x

/-- The players move in turn. -/
theorem playerAt_succ (k : Nat) : playerAt (k + 1) = (playerAt k).opp := by
  unfold playerAt
  by_cases h : k % 2 = 0
  · rw [if_pos h, if_neg (by omega)]
    rfl
  · rw [if_neg h, if_pos (by omega)]
    rfl

/-- The board after the first `n` recorded moves, O and X alternating. -/
def replay (moves : U64) (n : Nat) : U32 :=
  (List.range n).foldl
    (fun table k => valSetCell table (getRecordCell moves k).toNat (playerAt k).cell) 0

/-- The board after one more recorded move. -/
theorem replay_succ (moves : U64) (n : Nat) :
    replay moves (n + 1) =
      valSetCell (replay moves n) (getRecordCell moves n).toNat (playerAt n).cell := by
  simp [replay, List.range_succ]

/-- The board depends on the moves replayed only. -/
theorem replay_congr {moves moves' : U64} {n : Nat}
    (h : ∀ k, k < n → getRecordCell moves k = getRecordCell moves' k) :
    replay moves n = replay moves' n := by
  induction n with
  | zero => rfl
  | succ n ih =>
    rw [replay_succ, replay_succ, ih fun k hk => h k (by omega), h n (by omega)]

/-! ## Cells played

The number of cells played bounds the step count, since every recorded move has taken one. -/

def playedCells (table : U32) : Nat :=
  ((List.range nGrids).filter fun i => tableGetCell table i ≠ cellEmpty).length

/-- Every cell is played or available. -/
theorem playedCells_add_availableMoves (table : U32) :
    playedCells table + (availableMoves table).length = nGrids := by
  have h := List.length_eq_length_filter_add
    (l := List.range nGrids) fun i => decide (tableGetCell table i = cellEmpty)
  rw [List.length_range] at h
  simp only [playedCells, availableMoves, ne_eq, decide_not]
  omega

/-- A move plays one more cell. -/
theorem playedCells_valSetCell {table : U32} {m : Nat} (p : Player)
    (hm : m ∈ availableMoves table) :
    playedCells (valSetCell table m p.cell) = playedCells table + 1 := by
  have hless := length_availableMoves_valSetCell hm p.fits_cell p.cell_ne_empty
  have h := playedCells_add_availableMoves table
  have h' := playedCells_add_availableMoves (valSetCell table m p.cell)
  omega

/-- No more cells are played than there are. -/
theorem playedCells_le (table : U32) : playedCells table ≤ nGrids := by
  have h := playedCells_add_availableMoves table
  omega

/-! ## Coherence

`Coherent` is what a reader of the record can rely on. `CoherentInv` adds what the induction needs:
each recorded cell is taken, so no cell is recorded twice. -/

/-- The step count of a record. -/
def stepsOf (x : XoTable) : Nat := (xoAttrSteps x.attr).toNat

/-- The four words of game `i` agree. -/
structure Coherent (i : Fin nGames) (x : XoTable) (turn : Player) : Prop where
  id : xoAttrId x.attr = BitVec.ofNat 32 i
  steps : stepsOf x = playedCells x.table
  steps_le : stepsOf x ≤ nGrids
  turn : turn = .o ↔ stepsOf x % 2 = 0
  distinct : ∀ j k, j < k → k < stepsOf x → getRecordCell x.moves j ≠ getRecordCell x.moves k
  later : ∀ k, stepsOf x ≤ k → k < 16 → getRecordCell x.moves k = 0
  replay : replay x.moves (stepsOf x) = x.table

/-- Coherence, and every recorded cell is taken. -/
structure CoherentInv (i : Fin nGames) (x : XoTable) (turn : Player) : Prop
    extends Coherent i x turn where
  taken : ∀ k, k < stepsOf x → tableGetCell x.table (getRecordCell x.moves k).toNat ≠ cellEmpty

/-- Who is to move follows from the step count. -/
theorem Coherent.turn_eq {i : Fin nGames} {x : XoTable} {turn : Player} (h : Coherent i x turn) :
    turn = playerAt (stepsOf x) := by
  have hiff := h.turn
  unfold playerAt
  cases turn with
  | o => rw [if_pos (hiff.mp rfl)]
  | x => rw [if_neg fun heven => by simpa using hiff.mpr heven]

/-- A new game is coherent: nothing is recorded and the board is empty. -/
theorem coherentInv_newAttr (i : Fin nGames) (rnd : U32) :
    CoherentInv i ⟨newAttr i rnd, 0, 0⟩ .o := by
  have hsteps : stepsOf ⟨newAttr i rnd, 0, 0⟩ = 0 := by
    rw [stepsOf, xoAttrSteps_newAttr]
    rfl
  refine ⟨⟨xoAttrId_newAttr i rnd, ?_, ?_, ?_, ?_, ?_, ?_⟩, ?_⟩
  · rw [hsteps]
    show 0 = playedCells 0
    decide
  · rw [hsteps]; exact Nat.zero_le _
  · rw [hsteps]; decide
  · rw [hsteps]; omega
  · intro k _ _
    exact getRecordCell_zero k
  · rw [hsteps]; rfl
  · rw [hsteps]; omega

/-! ## One move

What `ai_work_func` writes back: the step count, the board and the moves are computed from its copy
of the record, and the copy is current because nobody else writes while the item owns the game. -/

section Played

variable {i : Fin nGames} {x : XoTable} {p : Player} {m : Nat}

/-- With a move available there is room in the record. -/
theorem CoherentInv.steps_lt (h : CoherentInv i x p) (hm : m ∈ availableMoves x.table) :
    stepsOf x < nGrids := by
  have hplayed := playedCells_valSetCell p hm
  have hle := playedCells_le (valSetCell x.table m p.cell)
  have hsteps := h.steps
  omega

/-- And the new step count fits its field. -/
theorem fits_steps_succ {n : Nat} (hn : n < nGrids) : Fits (BitVec.ofNat 32 (n + 1)) 5 := by
  simp only [Fits, BitVec.toNat_ofNat, nGrids] at *
  omega

/-- A move is counted. -/
theorem CoherentInv.stepsOf_playedTable (h : CoherentInv i x p)
    (hm : m ∈ availableMoves x.table) :
    stepsOf (playedTable p x x.moves m) = stepsOf x + 1 := by
  have hlt := h.steps_lt hm
  show (xoAttrSteps (xoSetAttrSteps x.attr (BitVec.ofNat 32 (stepsOf x + 1)))).toNat = _
  rw [xoAttrSteps_xoSetAttrSteps _ (fits_steps_succ hlt), BitVec.toNat_ofNat]
  simp only [nGrids] at hlt
  omega

/-- The agents of a game stay the ones it was started with. -/
theorem CoherentInv.who_playedTable (h : CoherentInv i x p) (hm : m ∈ availableMoves x.table)
    (q : Player) : who (playedTable p x x.moves m).attr q = who x.attr q := by
  have halg : xoAttrAiAlg (playedTable p x x.moves m).attr = xoAttrAiAlg x.attr :=
    xoAttrAiAlg_xoSetAttrSteps _ (fits_steps_succ (h.steps_lt hm))
  cases q with
  | o => rw [who, who, halg]
  | x => rw [who, who, halg]

/-- It is recorded at its number, and the moves before it stay. -/
theorem CoherentInv.getRecordCell_playedTable (h : CoherentInv i x p)
    (hm : m ∈ availableMoves x.table) {k : Nat} (hk : k < 16) :
    getRecordCell (playedTable p x x.moves m).moves k =
      if k = stepsOf x then BitVec.ofNat 64 m else getRecordCell x.moves k :=
  getRecordCell_setRecordCell x.moves (lt_of_mem_availableMoves hm) (h.steps_lt hm) hk

/-- The boards before the move are those of the shorter record. -/
theorem CoherentInv.replay_playedTable_of_le (h : CoherentInv i x p)
    (hm : m ∈ availableMoves x.table) {n : Nat} (hn : n ≤ stepsOf x) :
    Kxo.replay (playedTable p x x.moves m).moves n = Kxo.replay x.moves n := by
  have hlt := h.steps_lt hm
  simp only [nGrids] at hlt
  refine replay_congr fun k hk => ?_
  rw [h.getRecordCell_playedTable hm (by omega), if_neg (by omega)]

/-- The board after the move is the one it wrote. -/
theorem CoherentInv.replay_playedTable (h : CoherentInv i x p)
    (hm : m ∈ availableMoves x.table) :
    Kxo.replay (playedTable p x x.moves m).moves (stepsOf x + 1) =
      valSetCell x.table m p.cell := by
  have hcell := lt_of_mem_availableMoves hm
  have hlt := h.steps_lt hm
  have hmNat : (BitVec.ofNat 64 m).toNat = m := by
    simp only [BitVec.toNat_ofNat, nGrids] at *
    omega
  rw [replay_succ, h.getRecordCell_playedTable hm hlt, if_pos rfl, hmNat, ← h.turn_eq,
    h.replay_playedTable_of_le hm (Nat.le_refl _), h.replay]

end Played

/-- **A move keeps the record coherent.** -/
theorem CoherentInv.play {i : Fin nGames} {x : XoTable} {p : Player} (h : CoherentInv i x p)
    {m : Nat} (hm : m ∈ availableMoves x.table) :
    CoherentInv i (playedTable p x x.moves m) p.opp := by
  have hlt := lt_of_mem_availableMoves hm
  have hn : stepsOf x < 16 := h.steps_lt hm
  have hsteps := h.stepsOf_playedTable hm
  have hrecord : ∀ k, k < 16 → getRecordCell (playedTable p x x.moves m).moves k =
      if k = stepsOf x then BitVec.ofNat 64 m else getRecordCell x.moves k :=
    fun k hk => h.getRecordCell_playedTable hm hk
  have hmNat : (BitVec.ofNat 64 m).toNat = m := by
    simp only [BitVec.toNat_ofNat, nGrids] at *
    omega
  have hempty := (mem_availableMoves.mp hm).2
  -- the cell was empty, so no earlier move was to it
  have hold : ∀ k, k < stepsOf x → getRecordCell x.moves k ≠ BitVec.ofNat 64 m := by
    intro k hk heq
    have htaken := h.taken k hk
    rw [heq, hmNat] at htaken
    exact htaken hempty
  -- the parts of `CoherentInv` in their order; the last is that every recorded cell is taken
  refine ⟨⟨?_, ?_, ?_, ?_, ?_, ?_, ?_⟩, ?_⟩
  · exact (xoAttrId_xoSetAttrSteps _ (fits_steps_succ hn)).trans h.id
  · rw [hsteps, h.steps]
    exact (playedCells_valSetCell p hm).symm
  · rw [hsteps]
    exact hn
  · rw [hsteps, h.turn_eq, ← playerAt_succ]
    unfold playerAt
    split <;> simp_all
  -- the new move differs from the old ones
  · intro j k hjk hk
    rw [hsteps] at hk
    rw [hrecord j (by omega), hrecord k (by omega), if_neg (by omega)]
    by_cases hkn : k = stepsOf x
    · rw [if_pos hkn]
      exact hold j (by omega)
    · rw [if_neg hkn]
      exact h.distinct j k hjk (by omega)
  -- behind it the nibbles are as they were
  · intro k hk hk16
    rw [hsteps] at hk
    rw [hrecord k hk16, if_neg (by omega)]
    exact h.later k (by omega) hk16
  · rw [hsteps, h.replay_playedTable hm]
    rfl
  · intro k hk
    rw [hsteps] at hk
    rw [hrecord k (by omega)]
    show tableGetCell (valSetCell x.table m p.cell) _ ≠ cellEmpty
    by_cases hkn : k = stepsOf x
    · rw [if_pos hkn, hmNat, tableGetCell_valSetCell_same _ hlt p.fits_cell]
      exact p.cell_ne_empty
    · rw [if_neg hkn]
      rw [tableGetCell_valSetCell _ (getRecordCell_lt x.moves (by omega)) p.fits_cell]
      split
      · exact p.cell_ne_empty
      · exact h.taken k (by omega)

/-- Every game in every state the driver passes through. -/
theorem Passes.coherentInv {A : Agents σ} {s : Driver σ} (h : Passes A s) (i : Fin nGames) :
    CoherentInv i (s.games i).xoTlb (s.games i).turn := by
  refine (h.game (P := fun k v => CoherentInv k v.game.xoTlb v.game.turn)
    (fun k rnd => coherentInv_newAttr k rnd) ?_ i).2
  intro k v v' hown hP hstep
  cases hstep with
  | @play p copy m hrunning hm =>
    obtain ⟨_, rfl, rfl, _⟩ := hown.of_running hrunning
    exact hP.play hm
  | restart rnd => exact coherentInv_newAttr k rnd
  | queue => exact hP
  | bail => exact hP
  | start => exact hP
  | giveUp => exact hP
  | finished => exact hP
  | skip => exact hP
  | reopen => exact hP

/-- **Game record coherence.** In every state the driver passes through the four words of every game
agree; and an AI item that writes a move records it at a step below sixteen, in the row of its own
game. -/
theorem record_coherence (A : Agents σ) {s : Driver σ} (h : Passes A s) (i : Fin nGames) :
    Coherent i (s.games i).xoTlb (s.games i).turn ∧
      ∀ p move copy s', workStep A s (.aiCommit p i move) s' → move ≠ -1 →
        (s.aiWork i p).running = some copy →
        stepsOf copy ≤ 15 ∧ (xoAttrId copy.attr).toNat = i := by
  have hinv := h.coherentInv i
  refine ⟨hinv.toCoherent, ?_⟩
  rintro p move copy s' ⟨copy', agents, hrunning', hmove, _⟩ hne hrunning
  obtain rfl : copy' = copy := Option.some.inj (hrunning'.symm.trans hrunning)
  have hown := (h.game (P := fun _ _ => True) (fun _ _ => trivial)
    (fun _ _ _ _ _ _ => trivial) i).1
  obtain ⟨_, _, hcopy, _⟩ := hown.of_running hrunning
  have hlegal : ∃ m, m ∈ availableMoves copy'.table ∧ move = (m : Int) := by
    rcases hmove with ⟨hgiveUp, _⟩ | hplays
    · exact absurd hgiveUp hne
    · exact (A.legal hplays).resolve_left hne
  obtain ⟨m, hm, _⟩ := hlegal
  have hplayed := playedCells_valSetCell p hm
  have hle := playedCells_le (valSetCell copy'.table m p.cell)
  have hsteps : stepsOf copy' = playedCells copy'.table := by rw [hcopy]; exact hinv.steps
  refine ⟨by simp only [nGrids] at hle; omega, ?_⟩
  rw [hcopy]
  show (xoAttrId (s.games i).xoTlb.attr).toNat = i
  rw [hinv.id, BitVec.toNat_ofNat]
  have hi : (i : Nat) < 9 := i.isLt
  omega

/-- Four moves of the first game are recorded, and the item that runs can write the fifth. -/
theorem record_coherence_running :
    ∃ s : Driver AgentState,
      stepsOf (s.games firstGame).xoTlb = 4 ∧
      (s.aiWork firstGame .o).running = some fourMovesTable ∧
      (∃ s', workStep concreteAgents s (.aiCommit .o firstGame 1) s') ∧
      Coherent firstGame (s.games firstGame).xoTlb (s.games firstGame).turn ∧
      ∀ p move copy s', workStep concreteAgents s (.aiCommit p firstGame move) s' → move ≠ -1 →
        (s.aiWork firstGame p).running = some copy →
        stepsOf copy ≤ 15 ∧ (xoAttrId copy.attr).toNat = firstGame := by
  obtain ⟨s, _, _, hs, hplaying, hplays⟩ := learners_running
  refine ⟨s, ?_, ?_, ⟨_, (hplaying.commit hplays).1⟩,
    record_coherence concreteAgents (.reached hs.of_restrict) firstGame⟩
  · rw [hplaying.game]
    decide +kernel
  · rw [hplaying.work, runningItems, Function.update_self]

end Kxo
