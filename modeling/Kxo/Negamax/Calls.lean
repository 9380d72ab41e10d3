import Kxo.Negamax.Search
import Kxo.Spec.NegamaxCalls

/-!
# Kxo — the logged search, one move at a time

The loop of `negamaxLogged` in the form in which the board never changes, the three ways its calls
end, and what is left of it without the log: the search of `Kxo.Spec.Negamax`.

* **`tryMovesLogged_cons`** — one turn of the loop. The source sets the cell and takes it back; on
  an empty cell that is the board as it was (`valSetCell_undo`).
* **`negamaxLogged_rule`** — to prove something of a call, prove it of a finished board, of an
  answer from the table and of a call that tries its moves.
* **`negamaxLogged_hashValue`** — every call leaves `hash_value` as it found it: the word of a move
  is added twice.
* **`negamaxLogged_search`** — the log is only written. Without it the logged search is the search,
  if every allocation of a table entry succeeds.
-/

namespace Kxo

variable {sort : KernelSort} {zobristTable : ZobristWords} {alloc : Nat → Bool}

/-! ## One move, and the three ways a call ends

The equations of the recursion, each on the inputs that take its branch; the rule puts them
together. -/

section Calls

/-- What one turn of the loop searches. -/
def tryMoveLogged (zobristTable : ZobristWords) (child : LoggedChild) (player : Player)
    (table : U32) (m : Nat) (first : Bool) (alpha beta : Int) (s : LoggedSearch) :
    Int × LoggedSearch :=
  let (score, s) := searchMoveLogged child (valSetCell table m player.cell) player first alpha beta
    (s.xorHash (zobristTable m player))
  (score, (s.addHistory m score).xorHash (zobristTable m player))

/-- One turn of the loop: search the move, keep the better one, stop on a cutoff. -/
theorem tryMovesLogged_cons {child : LoggedChild} {player : Player} {table : U32} {m : Nat}
    (hm : m ∈ availableMoves table) (rest : List Nat) (first : Bool) (alpha beta : Int)
    (best : MoveT) (s : LoggedSearch) :
    tryMovesLogged zobristTable child player beta (m :: rest) first table alpha best s =
      let (score, s') := tryMoveLogged zobristTable child player table m first alpha beta s
      if beta ≤ max alpha score then (better best m score, s')
      else tryMovesLogged zobristTable child player beta rest false table (max alpha score)
        (better best m score) s' := by
  obtain ⟨hlt, hempty⟩ := mem_availableMoves.mp hm
  simp only [tryMovesLogged, tryMoveLogged, better, ← max_def_lt,
    valSetCell_undo hlt player.fits_cell hempty]
  rfl

variable {depth : Nat} {table : U32} {player : Player} {alpha beta : Int} {s : LoggedSearch}

/-- A call that tries its moves, up to its first move. -/
def LoggedSearch.expand (s : LoggedSearch) (table : U32) (depth : Nat) (player : Player)
    (alpha beta : Int) : LoggedSearch :=
  ((s.add (.enter (s.call table depth player))).record
    (.expand table depth player alpha beta)).add (.expand (s.call table depth player))

/-- The loop of a call that neither ends at once nor is answered from the table. -/
def visitNodeLogged (sort : KernelSort) (zobristTable : ZobristWords) (alloc : Nat → Bool)
    (depth : Nat) (table : U32) (player : Player) (alpha beta : Int) (s : LoggedSearch) :
    MoveT × LoggedSearch :=
  tryMovesLogged zobristTable (negamaxLogged sort zobristTable alloc depth) player beta
    (sort.sort (cmpMoves (s.expand table (depth + 1) player alpha beta).search)
      (availableMoves table))
    true table alpha ⟨-10000, -1⟩ (s.expand table (depth + 1) player alpha beta)

/-- A call at the end of its depth or of the game: the evaluation, and no move. -/
theorem negamaxLogged_finished (h : checkWin table ≠ cellEmpty) :
    negamaxLogged sort zobristTable alloc depth table player alpha beta s =
      (⟨getScore table player, -1⟩,
        (s.add (.enter (s.call table depth player))).leave (s.call table depth player)) := by
  cases depth with
  | zero => rfl
  | succ depth => rw [negamaxLogged, if_pos h]

/-- A call that the table answers. -/
theorem negamaxLogged_hit {score move : Int} (h : checkWin table = cellEmpty)
    (hget : zobristGet s.search.hashTable s.search.hashValue = some (score, move)) :
    negamaxLogged sort zobristTable alloc (depth + 1) table player alpha beta s =
      (⟨score, move⟩,
        (((s.add (.enter (s.call table (depth + 1) player))).record
          (.hit table (depth + 1) player alpha beta score)).add
            (.hit (s.call table (depth + 1) player) score move)).leave
              (s.call table (depth + 1) player)) := by
  have hget' : zobristGet (s.add (.enter (s.call table (depth + 1) player))).search.hashTable
      (s.add (.enter (s.call table (depth + 1) player))).search.hashValue = some (score, move) :=
    hget
  rw [negamaxLogged, if_neg (not_not.mpr h), hget']

/-- A call that tries its moves and stores what it has found. -/
theorem negamaxLogged_miss (h : checkWin table = cellEmpty)
    (hget : zobristGet s.search.hashTable s.search.hashValue = none) :
    negamaxLogged sort zobristTable alloc (depth + 1) table player alpha beta s =
      ((visitNodeLogged sort zobristTable alloc depth table player alpha beta s).1,
        ((visitNodeLogged sort zobristTable alloc depth table player alpha beta s).2.put alloc table
          (depth + 1) player
          (visitNodeLogged sort zobristTable alloc depth table player alpha beta s).1).leave
            (s.call table (depth + 1) player)) := by
  have hget' : zobristGet (s.add (.enter (s.call table (depth + 1) player))).search.hashTable
      (s.add (.enter (s.call table (depth + 1) player))).search.hashValue = none := hget
  rw [negamaxLogged, if_neg (not_not.mpr h), hget']
  rfl

/-- **The logged search's rule**, one case for each way a call ends. -/
theorem negamaxLogged_rule
    (P : Nat → U32 → Player → Int → Int → LoggedSearch → MoveT × LoggedSearch → Prop)
    (hleaf : ∀ depth table player alpha beta s, depth = 0 ∨ checkWin table ≠ cellEmpty →
      P depth table player alpha beta s (⟨getScore table player, -1⟩,
        (s.add (.enter (s.call table depth player))).leave (s.call table depth player)))
    (hhit : ∀ depth table player alpha beta s score move, checkWin table = cellEmpty →
      zobristGet s.search.hashTable s.search.hashValue = some (score, move) →
      P (depth + 1) table player alpha beta s (⟨score, move⟩,
        (((s.add (.enter (s.call table (depth + 1) player))).record
          (.hit table (depth + 1) player alpha beta score)).add
            (.hit (s.call table (depth + 1) player) score move)).leave
              (s.call table (depth + 1) player)))
    (hmiss : ∀ depth table player alpha beta s,
      (∀ t p a b s', P depth t p a b s' (negamaxLogged sort zobristTable alloc depth t p a b s')) →
      checkWin table = cellEmpty → zobristGet s.search.hashTable s.search.hashValue = none →
      P (depth + 1) table player alpha beta s
        ((visitNodeLogged sort zobristTable alloc depth table player alpha beta s).1,
          ((visitNodeLogged sort zobristTable alloc depth table player alpha beta s).2.put alloc
            table (depth + 1) player
            (visitNodeLogged sort zobristTable alloc depth table player alpha beta s).1).leave
              (s.call table (depth + 1) player)))
    (depth : Nat) :
    ∀ (table : U32) (player : Player) (alpha beta : Int) (s : LoggedSearch),
      P depth table player alpha beta s
        (negamaxLogged sort zobristTable alloc depth table player alpha beta s) := by
  induction depth with
  | zero =>
    intro table player alpha beta s
    exact hleaf 0 table player alpha beta s (.inl rfl)
  | succ depth ih =>
    intro table player alpha beta s
    -- a leaf, a board found in the table, or a node whose moves are tried
    by_cases hopen : checkWin table = cellEmpty
    · cases hget : zobristGet s.search.hashTable s.search.hashValue with
      | some entry =>
        obtain ⟨score, move⟩ := entry
        rw [negamaxLogged_hit hopen hget]
        exact hhit depth table player alpha beta s score move hopen hget
      | none =>
        rw [negamaxLogged_miss hopen hget]
        exact hmiss depth table player alpha beta s ih hopen hget
    · rw [negamaxLogged_finished hopen]
      exact hleaf (depth + 1) table player alpha beta s (.inr hopen)

end Calls

/-! ## `hash_value` is left as it was found

The source keeps the key in a global and updates it around each move. -/

section HashValue

variable {child : LoggedChild}

/-- One or two searches of a move. -/
theorem searchMoveLogged_hashValue
    (hchild : ∀ t p a b s, (child t p a b s).2.search.hashValue = s.search.hashValue)
    (table : U32) (player : Player) (first : Bool) (alpha beta : Int) (s : LoggedSearch) :
    (searchMoveLogged child table player first alpha beta s).2.search.hashValue =
      s.search.hashValue := by
  unfold searchMoveLogged
  split
  · exact hchild ..
  · dsimp only
    split
    · exact (hchild ..).trans (hchild ..)
    · exact hchild ..

/-- A move's word is added before its search and taken away after it. -/
theorem tryMoveLogged_hashValue
    (hchild : ∀ t p a b s, (child t p a b s).2.search.hashValue = s.search.hashValue)
    (player : Player) (table : U32) (m : Nat) (first : Bool) (alpha beta : Int)
    (s : LoggedSearch) :
    (tryMoveLogged zobristTable child player table m first alpha beta s).2.search.hashValue =
      s.search.hashValue :=
  (congrArg (· ^^^ zobristTable m player) (searchMoveLogged_hashValue hchild
    (valSetCell table m player.cell) player first alpha beta
      (s.xorHash (zobristTable m player)))).trans
        (xor_word_twice s.search.hashValue (zobristTable m player))

/-- The loop over the moves. Induction on the moves. -/
theorem tryMovesLogged_hashValue
    (hchild : ∀ t p a b s, (child t p a b s).2.search.hashValue = s.search.hashValue)
    (player : Player) (beta : Int) {table : U32} (moves : List Nat) :
    ∀ (first : Bool) (alpha : Int) (best : MoveT) (s : LoggedSearch),
      (∀ m ∈ moves, m ∈ availableMoves table) →
      (tryMovesLogged zobristTable child player beta moves first table alpha best
        s).2.search.hashValue = s.search.hashValue := by
  induction moves with
  | nil => intro first alpha best s _; rfl
  | cons m rest ih =>
    intro first alpha best s hsub
    have hmove := @tryMoveLogged_hashValue zobristTable child hchild player table m first alpha
      beta s
    rw [tryMovesLogged_cons (hsub m (by simp))]
    dsimp only
    split
    · exact hmove
    · exact (ih _ _ _ _ fun m' hm' => hsub m' (by simp [hm'])).trans hmove

/-- A call. Induction on its depth. -/
theorem negamaxLogged_hashValue (depth : Nat) :
    ∀ (table : U32) (player : Player) (alpha beta : Int) (s : LoggedSearch),
      (negamaxLogged sort zobristTable alloc depth table player alpha beta s).2.search.hashValue =
        s.search.hashValue := by
  refine negamaxLogged_rule
    (fun _ _ _ _ _ s r => r.2.search.hashValue = s.search.hashValue) ?_ ?_ ?_ depth
  · intro depth table player alpha beta s _
    rfl
  · intro depth table player alpha beta s score move _ _
    rfl
  · intro depth table player alpha beta s ih _ _
    exact tryMovesLogged_hashValue ih player beta _ true alpha _ _
      fun m hm => mem_sort_availableMoves.mp hm

end HashValue

/-! ## The search without its log

`SameSearch` relates a call of the logged search to one of the other. It is stated of the recursive
calls as a hypothesis, so the loop is compared once for all depths. -/

section Erasure

/-- The logged call does what the other does to the globals, and returns the same. -/
def SameSearch {α : Type} (r : α × LoggedSearch) (r' : α × SearchState) : Prop :=
  r.1 = r'.1 ∧ r.2.search = r'.2

/-- One or two searches of a move, without the log. -/
theorem searchMoveLogged_search {child : LoggedChild} {child' : ChildSearch}
    (hchild : ∀ t p a b s, SameSearch (child t p a b s) (child' t p a b s.search))
    (table : U32) (player : Player) (first : Bool) (alpha beta : Int) (s : LoggedSearch) :
    SameSearch (searchMoveLogged child table player first alpha beta s)
      (searchMove child' table player first alpha beta s.search) := by
  have hneg : ∀ t p a b s, SameSearch (-(child t p a b s).1.score, (child t p a b s).2)
      (-(child' t p a b s.search).1.score, (child' t p a b s.search).2) := by
    intro t p a b s
    obtain ⟨hmove, hsearch⟩ := hchild t p a b s
    exact ⟨by dsimp only; rw [hmove], hsearch⟩
  unfold searchMoveLogged searchMove
  cases first with
  | true => exact hneg ..
  | false =>
    obtain ⟨hmove, hsearch⟩ := hchild table player.opp (-alpha - 1) (-alpha) s
    simp only [Bool.false_eq_true, if_false, ← hmove, ← hsearch]
    split
    · exact hneg ..
    · exact ⟨rfl, rfl⟩

/-- The loop, without the log. Induction on the moves. -/
theorem tryMovesLogged_search {child : LoggedChild} {child' : ChildSearch}
    (hchild : ∀ t p a b s, SameSearch (child t p a b s) (child' t p a b s.search))
    (player : Player) (beta : Int) {table : U32} (moves : List Nat) :
    ∀ (first : Bool) (alpha : Int) (best : MoveT) (s : LoggedSearch),
      (∀ m ∈ moves, m ∈ availableMoves table) →
      SameSearch (tryMovesLogged zobristTable child player beta moves first table alpha best s)
        (tryMoves zobristTable child' player beta moves first table alpha best s.search) := by
  induction moves with
  | nil => intro first alpha best s _; exact ⟨rfl, rfl⟩
  | cons m rest ih =>
    intro first alpha best s hsub
    obtain ⟨hscore, hsearch⟩ := searchMoveLogged_search hchild (valSetCell table m player.cell)
      player first alpha beta (s.xorHash (zobristTable m player))
    -- the log changes nothing of a turn
    have hmove : SameSearch (tryMoveLogged zobristTable child player table m first alpha beta s)
        (tryMove zobristTable child' player table m first alpha beta s.search) := by
      refine ⟨hscore, ?_⟩
      show ((searchMoveLogged child (valSetCell table m player.cell) player first alpha beta
        (s.xorHash (zobristTable m player))).2.search.addHistory m
          (searchMoveLogged child (valSetCell table m player.cell) player first alpha beta
            (s.xorHash (zobristTable m player))).1).xorHash (zobristTable m player) = _
      rw [hsearch, hscore]
      rfl
    rw [tryMovesLogged_cons (hsub m (by simp)), tryMoves_cons zobristTable (hsub m (by simp))]
    obtain ⟨hscore, hsearch⟩ := hmove
    simp only [hscore, ← hsearch]
    split
    · exact ⟨rfl, rfl⟩
    · exact ih _ _ _ _ fun m' hm' => hsub m' (by simp [hm'])

/-- **With every allocation succeeding the logged search is the search.** -/
theorem negamaxLogged_search (depth : Nat) :
    ∀ (table : U32) (player : Player) (alpha beta : Int) (s : LoggedSearch),
      SameSearch (negamaxLogged sort zobristTable (fun _ => true) depth table player alpha beta s)
        (negamax sort zobristTable depth table player alpha beta s.search) := by
  refine negamaxLogged_rule (fun depth table player alpha beta s r =>
    SameSearch r (negamax sort zobristTable depth table player alpha beta s.search)) ?_ ?_ ?_ depth
  · intro depth table player alpha beta s hleaf
    cases depth with
    | zero => exact ⟨rfl, rfl⟩
    | succ depth =>
      rw [negamax_finished zobristTable (hleaf.resolve_left (Nat.succ_ne_zero depth))]
      exact ⟨rfl, rfl⟩
  · intro depth table player alpha beta s score move hopen hget
    rw [negamax_hit zobristTable hopen hget]
    exact ⟨rfl, rfl⟩
  · intro depth table player alpha beta s ih hopen hget
    obtain ⟨hbest, hsearch⟩ : SameSearch
        (visitNodeLogged sort zobristTable (fun _ => true) depth table player alpha beta s)
        (visitNode sort zobristTable depth table player alpha beta s.search) :=
      tryMovesLogged_search ih player beta _ true alpha _ _
        fun m hm => mem_sort_availableMoves.mp hm
    rw [negamax_miss zobristTable hopen hget]
    refine ⟨hbest, ?_⟩
    rw [← hbest, ← hsearch]
    rfl

/-- A round, without the log. -/
theorem deepenLogged_search (table : U32) (player : Player) (depth : Nat) (s : LoggedSearch) :
    (deepenLogged sort zobristTable (fun _ => true) table player depth s).1 =
        (deepen sort zobristTable table player depth s.search).1 ∧
      (deepenLogged sort zobristTable (fun _ => true) table player depth s).2.2.search =
        (deepen sort zobristTable table player depth s.search).2 := by
  obtain ⟨hmove, hsearch⟩ := @negamaxLogged_search sort zobristTable depth table player (-100000)
    100000 { s with log := [] }
  exact ⟨hmove, by simp only [deepenLogged, deepen, hsearch]⟩

/-- **With every allocation succeeding the logged `negamax_predict` is `negamax_predict`.** -/
theorem negamaxPredictLogged_search (table : U32) (player : Player) (s : LoggedSearch) :
    (negamaxPredictLogged sort zobristTable (fun _ => true) table player s).1 =
        (negamaxPredict sort zobristTable table player s.search).1 ∧
      (negamaxPredictLogged sort zobristTable (fun _ => true) table player s).2.2.search =
        (negamaxPredict sort zobristTable table player s.search).2 := by
  set start : LoggedSearch :=
    { s with search := { s.search with historyScoreSum := fun _ => 0, historyCount := fun _ => 0 } }
  -- one round after the other
  obtain ⟨_, h₂⟩ := @deepenLogged_search sort zobristTable table player 2 start
  set r₂ := deepenLogged sort zobristTable (fun _ => true) table player 2 start
  obtain ⟨_, h₄⟩ := @deepenLogged_search sort zobristTable table player 4 r₂.2.2
  set r₄ := deepenLogged sort zobristTable (fun _ => true) table player 4 r₂.2.2
  obtain ⟨hmove, h₆⟩ := @deepenLogged_search sort zobristTable table player 6 r₄.2.2
  rw [h₄, h₂] at hmove h₆
  have hdepths : searchDepths = [2, 4, 6] := by decide
  rw [negamaxPredictLogged, negamaxPredict, hdepths]
  exact ⟨congrArg MoveT.move hmove, h₆⟩

end Erasure

end Kxo
