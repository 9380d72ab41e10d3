import Kxo.Lib.Reservoir
import Kxo.Rl.Values

/-!
# Kxo — ties in `play_rl` (`src/rl.c`)

The values `play_rl` compares do not depend on its random numbers: each look-up works on the store
the one before it has left. So its loop is a scan of a list of values, which keeps a fair choice
among the cells with the greatest.
-/

namespace Kxo

/-- Every value of the store is above the one `play_rl` starts from. -/
def AboveMin (s : RlStore) : Prop := ∀ pos p, rlFixedMin < (s.stBuff pos).scores p

/-- The values `play_rl` reads for some cells, with their cells. -/
def readValues (bucket : U32 → Nat) (table : U32) (player : Player) :
    List Nat → RlStore → List (Nat × Int)
  | [], _ => []
  | i :: cells, s =>
      let (pos, s) := findRlState bucket (valSetCell table i player.cell) s
      (i, (s.stBuff pos).scores player) :: readValues bucket table player cells s

/-- The cells with the greatest value read in a call of `play_rl`. -/
def bestCells (bucket : U32 → Nat) (table : U32) (player : Player) (s : RlStore) : List Nat :=
  Reservoir.best (readValues bucket table player (availableMoves table) s)

variable {bucket : U32 → Nat} {table : U32} {player : Player} {s : RlStore}

/-- A look-up keeps the values above the minimum: a new state starts above it too. -/
theorem AboveMin.findRlState (h : AboveMin s) (bucket : U32 → Nat) (table : U32) :
    AboveMin (Kxo.findRlState bucket table s).2 := by
  refine forall_slot_findRlState (Q := fun st => ∀ p, rlFixedMin < st.scores p)
    (fun _ => show rlFixedMin < 0 by decide) (fun table p => ?_) h bucket table
  have hle := (abs_le.mp (abs_initialValue_le table p)).1
  have hmin : rlFixedMin < -maxValue := by decide
  exact hmin.trans_le hle

/-! ## The values read

The random number decides which cell is kept, never what is looked up next. So the list of values
can be written down before any number is drawn. -/

/-- A value is read for each cell, in order. -/
theorem map_fst_readValues (cells : List Nat) (s : RlStore) :
    (readValues bucket table player cells s).map Prod.fst = cells := by
  induction cells generalizing s with
  | nil => rfl
  | cons i cells ih =>
    rw [readValues, List.map_cons]
    exact congrArg (i :: ·) (ih _)

/-- The best cells are moves that are available. -/
theorem bestCells_sublist (bucket : U32 → Nat) (table : U32) (player : Player) (s : RlStore) :
    (bestCells bucket table player s).Sublist (availableMoves table) := by
  have hsub := (List.filter_sublist (p := fun p => decide
    (∀ q ∈ readValues bucket table player (availableMoves table) s, q.2 ≤ p.2))
    (l := readValues bucket table player (availableMoves table) s)).map Prod.fst
  rwa [map_fst_readValues] at hsub

/-- One cell of the loop of `play_rl`. -/
theorem tryRlCell_step (rnd : Nat → Nat) {c : RlChoice} {st : Reservoir.State Nat Int}
    (hact : c.maxAct = st.kept) (hq : c.maxQ = st.value) (hcount : c.candidateCount = st.count)
    (i : Nat) :
    ∃ v, readValues bucket table player [i] c.store = [(i, v)] ∧
      (tryRlCell bucket rnd table player c i).maxAct = (Reservoir.step rnd st (i, v)).kept ∧
      (tryRlCell bucket rnd table player c i).maxQ = (Reservoir.step rnd st (i, v)).value ∧
      (tryRlCell bucket rnd table player c i).candidateCount =
        (Reservoir.step rnd st (i, v)).count := by
  refine ⟨((findRlState bucket (valSetCell table i player.cell) c.store).2.stBuff
    (findRlState bucket (valSetCell table i player.cell) c.store).1).scores player, rfl, ?_⟩
  simp only [tryRlCell, Reservoir.step, hq, hcount, hact]
  split
  · refine ⟨?_, rfl, rfl⟩
    split <;> rfl
  · split <;> exact ⟨rfl, rfl, rfl⟩

/-- The first cell's value, then those read on the store that its look-up leaves. -/
theorem readValues_cons (rnd : Nat → Nat) (i : Nat) (cells : List Nat) (c : RlChoice) :
    readValues bucket table player (i :: cells) c.store =
      readValues bucket table player [i] c.store ++
        readValues bucket table player cells (tryRlCell bucket rnd table player c i).store := by
  rw [tryRlCell_store]
  rfl

/-- **The loop of `play_rl` is a scan** of the values read. -/
theorem foldl_tryRlCell_scan (rnd : Nat → Nat) (cells : List Nat) {c : RlChoice}
    {st : Reservoir.State Nat Int} (hact : c.maxAct = st.kept) (hq : c.maxQ = st.value)
    (hcount : c.candidateCount = st.count) :
    (cells.foldl (tryRlCell bucket rnd table player) c).maxAct =
      ((readValues bucket table player cells c.store).foldl (Reservoir.step rnd) st).kept := by
  induction cells generalizing c st with
  | nil => exact hact
  | cons i cells ih =>
    obtain ⟨v, hread, hact', hq', hcount'⟩ := tryRlCell_step rnd hact hq hcount i
    rw [readValues_cons rnd, hread, List.foldl_cons, List.singleton_append, List.foldl_cons]
    exact ih hact' hq' hcount'

/-- **`play_rl` is a scan** from its first cell on, when the values are above the one it starts
from. -/
theorem AboveMin.playRl_found (h : AboveMin s) (bucket : U32 → Nat) (rnd : Nat → Nat)
    (player : Player) (hne : availableMoves table ≠ []) :
    ∃ c, Reservoir.Found rnd (readValues bucket table player (availableMoves table) s) c ∧
      (playRl bucket rnd table player s).1 = (c.kept : Int) := by
  obtain ⟨i, cells, hcells⟩ := List.exists_cons_of_ne_nil hne
  have habove := h.findRlState bucket (valSetCell table i player.cell)
  rw [playRl, hcells, List.foldl_cons, readValues, tryRlCell]
  generalize Kxo.findRlState bucket (valSetCell table i player.cell) s = found at habove ⊢
  dsimp only
  rw [if_neg (habove found.1 player).ne', if_pos (habove found.1 player)]
  exact ⟨_, Reservoir.found_foldl rnd (i, (found.2.stBuff found.1).scores player) _,
    foldl_tryRlCell_scan rnd cells rfl rfl rfl⟩

/-! ## The choice

By `Reservoir`: of the residues of the random numbers, each of the best cells is chosen by as many.
-/

/-- **`play_rl` picks a best move and breaks ties fairly.** With all values above `RL_FIXED_MIN` it
gives up exactly on a board without an empty cell, and plays an empty cell of the greatest value it
has read; of several, the one their residues choose, where each is chosen by as many combinations of
residues as any other. -/
theorem playRl_fair (bucket : U32 → Nat) (table : U32) (player : Player)
    (h : ∀ pos p, rlFixedMin < (s.stBuff pos).scores p) :
    (∀ rnd, (playRl bucket rnd table player s).1 = -1 ↔ availableMoves table = []) ∧
    (∀ rnd, availableMoves table ≠ [] → ∃ i ∈ bestCells bucket table player s,
      i ∈ availableMoves table ∧ (playRl bucket rnd table player s).1 = (i : Int)) ∧
    ∀ n (cells : Fin (n + 1) → Nat), bestCells bucket table player s = List.ofFn cells →
      (∀ rnd, (playRl bucket rnd table player s).1 =
        (cells (Reservoir.chosen n (Reservoir.residues rnd cells)) : Int)) ∧
      ∀ i, Fintype.card { ρ : (j : Fin n) → Fin (j + 2) //
        cells (Reservoir.chosen n ρ) = cells i } = n.factorial := by
  have hmin : AboveMin s := h
  -- where there is a move, the one played is a candidate
  have hplay : ∀ rnd, availableMoves table ≠ [] → ∃ i ∈ bestCells bucket table player s,
      i ∈ availableMoves table ∧ (playRl bucket rnd table player s).1 = (i : Int) := by
    intro rnd hne
    obtain ⟨c, hfound, hact⟩ := hmin.playRl_found bucket rnd player hne
    exact ⟨c.kept, hfound.kept_mem, (bestCells_sublist _ _ _ _).subset hfound.kept_mem, hact⟩
  refine ⟨fun rnd => ⟨fun hnone => ?_, fun hnil => ?_⟩, hplay, fun n cells hcells =>
    ⟨fun rnd => ?_, fun i => ?_⟩⟩
  · by_contra hne
    obtain ⟨i, _, _, hact⟩ := hplay rnd hne
    omega
  · rw [playRl, hnil]
    rfl
  · have hne : availableMoves table ≠ [] := by
      intro hnil
      rw [bestCells, hnil] at hcells
      simp [readValues, Reservoir.best] at hcells
    obtain ⟨c, hfound, hact⟩ := hmin.playRl_found bucket rnd player hne
    rw [hact, hfound.kept_eq hcells]
  · have hnodup : (List.ofFn cells).Nodup :=
      hcells ▸ (nodup_availableMoves table).sublist (bestCells_sublist bucket table player s)
    exact Reservoir.card_chosen_cands (List.nodup_ofFn.mp hnodup) i

/-- The first move of all, after module load. -/
theorem playRl_fair_init :
    (∀ rnd, (playRl (fun _ => 0) rnd 0 .o initRlAgent).1 = -1 ↔ availableMoves 0 = []) ∧
    (∀ rnd, availableMoves 0 ≠ [] → ∃ i ∈ bestCells (fun _ => 0) 0 .o initRlAgent,
      i ∈ availableMoves 0 ∧ (playRl (fun _ => 0) rnd 0 .o initRlAgent).1 = (i : Int)) ∧
    ∀ n (cells : Fin (n + 1) → Nat), bestCells (fun _ => 0) 0 .o initRlAgent = List.ofFn cells →
      (∀ rnd, (playRl (fun _ => 0) rnd 0 .o initRlAgent).1 =
        (cells (Reservoir.chosen n (Reservoir.residues rnd cells)) : Int)) ∧
      ∀ i, Fintype.card { ρ : (j : Fin n) → Fin (j + 2) //
        cells (Reservoir.chosen n ρ) = cells i } = n.factorial :=
  playRl_fair _ 0 .o fun _ _ => show rlFixedMin < 0 by decide

end Kxo
