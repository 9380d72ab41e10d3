import Kxo.Game.Board
import Kxo.Spec.Negamax

/-!
# Kxo — the search loop, one move at a time

`negamax` writes a move into the board and its word into `hash_value`, searches, and takes both
back. This module rewrites the loop to the form the proofs use, in which the board never changes,
gives the rules by which later modules argue about the loop and the search, and derives the facts
that hold of every search whatever it computes.

* **`tryMoves_cons`** — one turn of the loop; the undo of the source is proved away here, once.
* **`tryMoves_rule`** — the rule for the loop: an invariant of the moves to come, the window, the
  best move so far and the globals, which holds at the start and is kept by one turn.
* **`negamax_rule`** — the rule for a call: it ends on a finished board, with an answer from the
  table, or after its loop.
* **`negamax_suffix`** — the history variable only grows, so a condition on a search's trace is one
  on the trace of each part of it.
* **`negamax_bounded`**, **`negamax_legal`** — every score, returned or cached, stays within the
  evaluation's bound, and the move returned is legal.
-/

namespace Kxo

variable {sort : KernelSort} (zobristTable : ZobristWords) {child : ChildSearch}

/-- The word of a move, in and out. -/
theorem xor_word_twice (key word : U64) : key ^^^ word ^^^ word = key := by
  rw [BitVec.xor_assoc, BitVec.xor_self, BitVec.xor_zero]

namespace SearchState

/-- Recording an event puts it on the trace. -/
@[simp] theorem record_trace (st : SearchState) (e : SearchEvent) :
    (st.record e).trace = e :: st.trace := rfl

/-- And leaves the table alone. -/
@[simp] theorem record_hashTable (st : SearchState) (e : SearchEvent) :
    (st.record e).hashTable = st.hashTable := rfl

end SearchState

/-- The better of two moves; an equal score does not replace the earlier one. -/
def better (best : MoveT) (m : Nat) (score : Int) : MoveT :=
  if best.score < score then ⟨score, m⟩ else best

/-- The better of two moves has the greater score. -/
theorem better_score (best : MoveT) (m : Nat) (score : Int) :
    (better best m score).score = max best.score score := by
  unfold better
  split
  · rw [max_eq_right (by omega)]
  · rw [max_eq_left (by omega)]

/-- What one turn of the loop searches: the score of `m` and the state with `hash_value`
restored. -/
def tryMove (zobristTable : ZobristWords) (child : ChildSearch) (player : Player)
    (table : U32) (m : Nat) (first : Bool) (alpha beta : Int) (st : SearchState) :
    Int × SearchState :=
  let (score, st) := searchMove child (valSetCell table m player.cell) player first alpha beta
    (st.xorHash (zobristTable m player))
  (score, (st.addHistory m score).xorHash (zobristTable m player))

/-- The score of a turn is that of the move's search. -/
theorem tryMove_score (player : Player) (table : U32) (m : Nat) (first : Bool) (alpha beta : Int)
    (st : SearchState) : (tryMove zobristTable child player table m first alpha beta st).1 =
      (searchMove child (valSetCell table m player.cell) player first alpha beta
        (st.xorHash (zobristTable m player))).1 := rfl

/-- **One turn of the loop.** On an empty cell the board comes back unchanged. -/
theorem tryMoves_cons {player : Player} {table : U32} {m : Nat} (hm : m ∈ availableMoves table)
    (rest : List Nat) (first : Bool) (alpha beta : Int) (best : MoveT) (st : SearchState) :
    tryMoves zobristTable child player beta (m :: rest) first table alpha best st =
      let (score, st') := tryMove zobristTable child player table m first alpha beta st
      if beta ≤ max alpha score then (better best m score, st')
      else tryMoves zobristTable child player beta rest false table (max alpha score)
        (better best m score) st' := by
  obtain ⟨hlt, hempty⟩ := mem_availableMoves.mp hm
  simp only [tryMoves, tryMove, better, ← max_def_lt, valSetCell_undo hlt player.fits_cell hempty]
  rfl

/-- **The loop's rule.** What each turn keeps holds at the end, when no move is left or the window
is closed. -/
theorem tryMoves_rule (child : ChildSearch) {player : Player} {table : U32} (beta : Int)
    (I : List Nat → Bool → Int → MoveT → SearchState → Prop)
    (hstep : ∀ m rest first alpha best st, m ∈ availableMoves table →
      I (m :: rest) first alpha best st →
      I rest false
        (max alpha (tryMove zobristTable child player table m first alpha beta st).1)
        (better best m (tryMove zobristTable child player table m first alpha beta st).1)
        (tryMove zobristTable child player table m first alpha beta st).2)
    (moves : List Nat) :
    ∀ (first : Bool) (alpha : Int) (best : MoveT) (st : SearchState),
      (∀ m ∈ moves, m ∈ availableMoves table) → I moves first alpha best st →
      ∃ rest first' alpha', (first' = true → first = true ∧ moves = []) ∧
        (rest = [] ∨ beta ≤ alpha') ∧ I rest first' alpha'
          (tryMoves zobristTable child player beta moves first table alpha best st).1
          (tryMoves zobristTable child player beta moves first table alpha best st).2 := by
  induction moves with
  | nil =>
    intro first alpha best st _ hinv
    exact ⟨[], first, alpha, fun hfirst => ⟨hfirst, rfl⟩, .inl rfl, hinv⟩
  | cons m rest ih =>
    intro first alpha best st hsub hinv
    have hm := hsub m (by simp)
    have hnext := hstep m rest first alpha best st hm hinv
    rw [tryMoves_cons zobristTable hm]
    dsimp only
    split
    -- a cut ends the loop with the rest untried
    · rename_i hcut
      exact ⟨rest, false, _, Bool.noConfusion, .inr hcut, hnext⟩
    · obtain ⟨rest', first', alpha', hfirst, hend⟩ := ih false _ _ _
        (fun m' hm' => hsub m' (by simp [hm'])) hnext
      exact ⟨rest', first', alpha', fun h => Bool.noConfusion (hfirst h).1, hend⟩

/-! ## The three ways a call ends

The equations of the recursion, each on the inputs that take its branch. -/

/-- The loop of a call that neither ends at once nor is answered from the table. -/
def visitNode (sort : KernelSort) (zobristTable : ZobristWords) (depth : Nat) (table : U32)
    (player : Player) (alpha beta : Int) (st : SearchState) : MoveT × SearchState :=
  tryMoves zobristTable (negamax sort zobristTable depth) player beta
    (sort.sort (cmpMoves (st.record (.expand table (depth + 1) player alpha beta)))
      (availableMoves table))
    true table alpha ⟨-10000, -1⟩ (st.record (.expand table (depth + 1) player alpha beta))

/-- A call at the end of its depth or of the game: the evaluation, and no move. -/
theorem negamax_finished {depth : Nat} {table : U32} {player : Player} {alpha beta : Int}
    {st : SearchState} (h : checkWin table ≠ cellEmpty) :
    negamax sort zobristTable depth table player alpha beta st =
      (⟨getScore table player, -1⟩, st) := by
  cases depth with
  | zero => rfl
  | succ depth => rw [negamax, if_pos h]

/-- A call that the table answers. -/
theorem negamax_hit {depth : Nat} {table : U32} {player : Player} {alpha beta : Int}
    {st : SearchState} {score move : Int} (h : checkWin table = cellEmpty)
    (hget : zobristGet st.hashTable st.hashValue = some (score, move)) :
    negamax sort zobristTable (depth + 1) table player alpha beta st =
      (⟨score, move⟩, st.record (.hit table (depth + 1) player alpha beta score)) := by
  rw [negamax, if_neg (not_not.mpr h), hget]

/-- A call that tries its moves and stores what it has found. -/
theorem negamax_miss {depth : Nat} {table : U32} {player : Player} {alpha beta : Int}
    {st : SearchState} (h : checkWin table = cellEmpty)
    (hget : zobristGet st.hashTable st.hashValue = none) :
    negamax sort zobristTable (depth + 1) table player alpha beta st =
      ((visitNode sort zobristTable depth table player alpha beta st).1,
        (visitNode sort zobristTable depth table player alpha beta st).2.put
          (visitNode sort zobristTable depth table player alpha beta st).1) := by
  rw [negamax, if_neg (not_not.mpr h), hget]
  rfl

/-- Sorting neither adds a move nor loses one. -/
theorem mem_sort_availableMoves {cmp : Nat → Nat → Int} {table : U32} {m : Nat} :
    m ∈ sort.sort cmp (availableMoves table) ↔ m ∈ availableMoves table :=
  (sort.perm cmp (availableMoves table)).mem_iff

/-- Nor does it repeat one. -/
theorem nodup_sort_availableMoves {cmp : Nat → Nat → Int} {table : U32} :
    (sort.sort cmp (availableMoves table)).Nodup :=
  (sort.perm cmp (availableMoves table)).nodup_iff.mpr (nodup_availableMoves table)

/-- An open board has moves to sort. -/
theorem sort_availableMoves_ne_nil {cmp : Nat → Nat → Int} {table : U32}
    (h : checkWin table = cellEmpty) : sort.sort cmp (availableMoves table) ≠ [] := by
  obtain ⟨m, hm⟩ := exists_move_of_checkWin h
  exact List.ne_nil_of_mem (mem_sort_availableMoves.mpr hm)

/-- **The search's rule**, one case for each way a call ends. -/
theorem negamax_rule
    (P : Nat → U32 → Player → Int → Int → SearchState → MoveT × SearchState → Prop)
    (hleaf : ∀ depth table player alpha beta st, depth = 0 ∨ checkWin table ≠ cellEmpty →
      P depth table player alpha beta st (⟨getScore table player, -1⟩, st))
    (hhit : ∀ depth table player alpha beta st score move, checkWin table = cellEmpty →
      zobristGet st.hashTable st.hashValue = some (score, move) →
      P (depth + 1) table player alpha beta st
        (⟨score, move⟩, st.record (.hit table (depth + 1) player alpha beta score)))
    (hmiss : ∀ depth table player alpha beta st,
      (∀ t p a b s, P depth t p a b s (negamax sort zobristTable depth t p a b s)) →
      checkWin table = cellEmpty → zobristGet st.hashTable st.hashValue = none →
      P (depth + 1) table player alpha beta st
        ((visitNode sort zobristTable depth table player alpha beta st).1,
          (visitNode sort zobristTable depth table player alpha beta st).2.put
            (visitNode sort zobristTable depth table player alpha beta st).1))
    (depth : Nat) :
    ∀ (table : U32) (player : Player) (alpha beta : Int) (st : SearchState),
      P depth table player alpha beta st
        (negamax sort zobristTable depth table player alpha beta st) := by
  induction depth with
  | zero =>
    intro table player alpha beta st
    exact hleaf 0 table player alpha beta st (.inl rfl)
  | succ depth ih =>
    intro table player alpha beta st
    -- the three ways through a call
    by_cases hopen : checkWin table = cellEmpty
    · cases hget : zobristGet st.hashTable st.hashValue with
      | some entry =>
        obtain ⟨score, move⟩ := entry
        rw [negamax_hit zobristTable hopen hget]
        exact hhit depth table player alpha beta st score move hopen hget
      | none =>
        rw [negamax_miss zobristTable hopen hget]
        exact hmiss depth table player alpha beta st ih hopen hget
    · rw [negamax_finished zobristTable hopen]
      exact hleaf (depth + 1) table player alpha beta st (.inr hopen)

/-! ## The history variable only grows

The trace is a history variable: it records which positions were tried under which windows and which
answers the table gave, and no step of the search reads it. -/

/-- One or two searches of a move. -/
theorem searchMove_suffix
    (hchild : ∀ t p a b st, st.trace <:+ (child t p a b st).2.trace)
    (table : U32) (player : Player) (first : Bool) (alpha beta : Int) (st : SearchState) :
    st.trace <:+ (searchMove child table player first alpha beta st).2.trace := by
  unfold searchMove
  split
  · exact hchild ..
  · -- the null window alone, or followed by a second search
    dsimp only
    split
    · exact (hchild ..).trans (hchild ..)
    · exact hchild ..

/-- The loop over the moves. Induction on the moves. -/
theorem tryMoves_suffix
    (hchild : ∀ t p a b st, st.trace <:+ (child t p a b st).2.trace)
    (player : Player) (beta : Int) {table : U32} (moves : List Nat) :
    ∀ (first : Bool) (alpha : Int) (best : MoveT) (st : SearchState),
      (∀ m ∈ moves, m ∈ availableMoves table) →
      st.trace <:+
        (tryMoves zobristTable child player beta moves first table alpha best st).2.trace := by
  intro first alpha best st hsub
  obtain ⟨_, _, _, _, _, hend⟩ := tryMoves_rule zobristTable child beta
    (fun _ _ _ _ st' => st.trace <:+ st'.trace)
    (fun m rest first alpha best st' _ h => h.trans
      (searchMove_suffix hchild (valSetCell table m player.cell) player first alpha beta
        (st'.xorHash (zobristTable m player))))
    moves first alpha best st hsub List.suffix_rfl
  exact hend

/-- A call that tries its moves. -/
theorem visitNode_suffix {depth : Nat}
    (hchild : ∀ t p a b st,
      st.trace <:+ (negamax sort zobristTable depth t p a b st).2.trace)
    (table : U32) (player : Player) (alpha beta : Int) (st : SearchState) :
    st.trace <:+ (visitNode sort zobristTable depth table player alpha beta st).2.trace := by
  -- the call is recorded first, then its moves
  refine List.IsSuffix.trans (List.suffix_cons (.expand table (depth + 1) player alpha beta)
    st.trace) ?_
  have hloop := tryMoves_suffix zobristTable hchild player beta
    (sort.sort (cmpMoves (st.record (.expand table (depth + 1) player alpha beta)))
      (availableMoves table))
    true alpha ⟨-10000, -1⟩ (st.record (.expand table (depth + 1) player alpha beta))
    fun m hm => mem_sort_availableMoves.mp hm
  exact hloop

/-- Any call. Induction on its depth. -/
theorem negamax_suffix (depth : Nat) :
    ∀ (table : U32) (player : Player) (alpha beta : Int) (st : SearchState),
      st.trace <:+ (negamax sort zobristTable depth table player alpha beta st).2.trace := by
  refine negamax_rule zobristTable (fun _ _ _ _ _ st r => st.trace <:+ r.2.trace) ?_ ?_ ?_ depth
  · intro depth table player alpha beta st _
    exact List.suffix_rfl
  · intro depth table player alpha beta st score move _ _
    exact List.suffix_cons _ _
  · intro depth table player alpha beta st ih _ _
    exact visitNode_suffix zobristTable ih table player alpha beta st

/-! ## Every score stays within the evaluation's bound

Scores start as evaluations and only change sign, so the bound of `abs_getScore_le` holds of all.
The loop's initial best, `-10000`, does not survive the first move. -/

/-- Every cached score lies in `[-2400, 2400]`. -/
def TableBounded (t : ZobristTable) : Prop :=
  ∀ h, ∀ e ∈ t.chains h, |e.score| ≤ maxScore

/-- An empty table has no scores. -/
theorem tableBounded_clear : TableBounded zobristClear := by
  intro h e he
  simp [zobristClear] at he

/-- A put of a bounded score keeps the table bounded, whether its allocation succeeds or not. -/
theorem TableBounded.put {t : ZobristTable} (ht : TableBounded t) (alloc : Bool) (key : U64)
    {score : Int} (move : Int) (hs : |score| ≤ maxScore) :
    TableBounded (zobristPut alloc t key score move) := by
  unfold zobristPut
  split
  · intro h e he
    simp only at he
    split at he
    · rcases List.mem_cons.mp he with rfl | htail
      · exact hs
      · exact ht h e htail
    · exact ht h e he
  · exact ht

/-- What a bounded table answers is bounded. -/
theorem TableBounded.get {t : ZobristTable} (ht : TableBounded t) {key : U64} {score move : Int}
    (h : zobristGet t key = some (score, move)) : |score| ≤ maxScore := by
  obtain ⟨e, hfind, heq⟩ := Option.map_eq_some_iff.mp h
  have hmem := List.mem_of_find?_eq_some hfind
  cases heq
  exact ht _ e hmem

/-- What every call of `negamax` keeps: the table stays bounded and the score is. -/
def BoundedCall (result : Int × SearchState) : Prop :=
  |result.1| ≤ maxScore ∧ TableBounded result.2.hashTable

/-- One turn of the loop: a bounded score of the reply, with its sign turned. -/
theorem tryMove_bounded
    (hchild : ∀ t p a b st, TableBounded st.hashTable →
      |(child t p a b st).1.score| ≤ maxScore ∧ TableBounded (child t p a b st).2.hashTable)
    (player : Player) (table : U32) (m : Nat) (first : Bool) (alpha beta : Int)
    {st : SearchState} (hst : TableBounded st.hashTable) :
    BoundedCall (tryMove zobristTable child player table m first alpha beta st) := by
  have hneg : ∀ r : MoveT, |r.score| ≤ maxScore → |-r.score| ≤ maxScore := by
    intro r hr
    rwa [abs_neg]
  have hfirst := hchild (valSetCell table m player.cell) player.opp (-beta) (-alpha)
    (st.xorHash (zobristTable m player)) hst
  have hnull := hchild (valSetCell table m player.cell) player.opp (-alpha - 1) (-alpha)
    (st.xorHash (zobristTable m player)) hst
  unfold tryMove searchMove BoundedCall
  cases first with
  | true => exact ⟨hneg _ hfirst.1, hfirst.2⟩
  | false =>
    dsimp only
    rw [if_neg Bool.false_ne_true]
    split
    · -- the second search starts from the table the null window has left
      have hagain := hchild (valSetCell table m player.cell) player.opp (-beta)
        (-(-(child (valSetCell table m player.cell) player.opp (-alpha - 1) (-alpha)
          (st.xorHash (zobristTable m player))).1.score)) _ hnull.2
      exact ⟨hneg _ hagain.1, hagain.2⟩
    · exact ⟨hneg _ hnull.1, hnull.2⟩

/-- The loop's best move so far: bounded, and one of the moves of `all`. -/
structure GoodBest (all : List Nat) (best : MoveT) : Prop where
  bounded : |best.score| ≤ maxScore
  legal : ∃ m ∈ all, best.move = m

/-- The first move beats the `-10000` sentinel, and a later move replaces it only by another. -/
theorem GoodBest.better {all : List Nat} {best : MoveT} {m : Nat} {score : Int} (hm : m ∈ all)
    (hs : |score| ≤ maxScore) (hbest : best = ⟨-10000, -1⟩ ∨ GoodBest all best) :
    GoodBest all (better best m score) := by
  rw [abs_le] at hs
  unfold Kxo.better
  rcases hbest with rfl | hgood
  · -- the first move: every score is above the sentinel
    rw [if_pos (show (-10000 : Int) < score by unfold maxScore at hs; omega)]
    exact ⟨abs_le.mpr hs, m, hm, rfl⟩
  · split
    · exact ⟨abs_le.mpr hs, m, hm, rfl⟩
    · exact hgood

/-- The loop: from the first move on the best is one of the moves, with a bounded score. Induction
on the moves. -/
theorem tryMoves_bounded
    (hchild : ∀ t p a b st, TableBounded st.hashTable →
      |(child t p a b st).1.score| ≤ maxScore ∧ TableBounded (child t p a b st).2.hashTable)
    (player : Player) (beta : Int) {table : U32} {all : List Nat}
    (hall : ∀ m ∈ all, m ∈ availableMoves table) (moves : List Nat) :
    ∀ (first : Bool) (alpha : Int) (best : MoveT) (st : SearchState),
      (∀ m ∈ moves, m ∈ all) → TableBounded st.hashTable →
      (best = ⟨-10000, -1⟩ ∧ moves ≠ [] ∨ GoodBest all best) →
      GoodBest all (tryMoves zobristTable child player beta moves first table alpha best st).1 ∧
      TableBounded
        (tryMoves zobristTable child player beta moves first table alpha best st).2.hashTable := by
  induction moves with
  | nil =>
    intro first alpha best st _ hst hbest
    rcases hbest with ⟨_, hne⟩ | hgood
    · exact absurd rfl hne
    · exact ⟨hgood, hst⟩
  | cons m rest ih =>
    intro first alpha best st hsub hst hbest
    have hm : m ∈ all := hsub m (by simp)
    have hmove := tryMove_bounded zobristTable hchild player table m first alpha
      beta hst
    have hgood := GoodBest.better hm hmove.1 (hbest.imp_left And.left)
    rw [tryMoves_cons zobristTable (hall m hm)]
    dsimp only
    split
    -- cut or not, the best move so far is a good one
    · exact ⟨hgood, hmove.2⟩
    · exact ih _ _ _ _ (fun m' hm' => hsub m' (by simp [hm'])) hmove.2 (Or.inr hgood)

/-- The loop of an unfinished position: a legal best move with a bounded score. -/
theorem visitNode_bounded {depth : Nat}
    (hchild : ∀ t p a b st, TableBounded st.hashTable →
      |(negamax sort zobristTable depth t p a b st).1.score| ≤ maxScore ∧
      TableBounded (negamax sort zobristTable depth t p a b st).2.hashTable)
    {table : U32} (player : Player) (alpha beta : Int) {st : SearchState}
    (hopen : checkWin table = cellEmpty) (hst : TableBounded st.hashTable) :
    GoodBest (availableMoves table)
      (visitNode sort zobristTable depth table player alpha beta st).1 ∧
    TableBounded (visitNode sort zobristTable depth table player alpha beta st).2.hashTable := by
  apply tryMoves_bounded zobristTable hchild player beta (fun _ h => h)
  · exact fun m hm => mem_sort_availableMoves.mp hm
  · exact hst
  · exact Or.inl ⟨rfl, sort_availableMoves_ne_nil hopen⟩

/-- **Every score a search returns or caches lies in `[-2400, 2400]`.** -/
theorem negamax_bounded (depth : Nat) :
    ∀ (table : U32) (player : Player) (alpha beta : Int) (st : SearchState),
      TableBounded st.hashTable →
      |(negamax sort zobristTable depth table player alpha beta st).1.score| ≤ maxScore ∧
      TableBounded (negamax sort zobristTable depth table player alpha beta st).2.hashTable := by
  refine negamax_rule zobristTable (fun _ _ _ _ _ st r => TableBounded st.hashTable →
    |r.1.score| ≤ maxScore ∧ TableBounded r.2.hashTable) ?_ ?_ ?_ depth
  · intro depth table player alpha beta st _ hst
    exact ⟨abs_getScore_le table player, hst⟩
  · intro depth table player alpha beta st score move _ hget hst
    exact ⟨hst.get hget, hst⟩
  · intro depth table player alpha beta st ih hopen _ hst
    obtain ⟨hgood, htable⟩ := visitNode_bounded zobristTable ih player alpha beta hopen hst
    exact ⟨hgood.bounded, htable.put true _ _ hgood.bounded⟩

/-- On an unfinished board with an empty table, at depth one or more, the search returns one of the
board's empty cells. -/
theorem negamax_legal (depth : Nat) {table : U32} (player : Player) (alpha beta : Int)
    {st : SearchState} (hopen : checkWin table = cellEmpty) (hclear : st.hashTable = zobristClear) :
    ∃ m ∈ availableMoves table,
      (negamax sort zobristTable (depth + 1) table player alpha beta st).1.move = m := by
  have hget : zobristGet st.hashTable st.hashValue = none := by
    rw [hclear]
    rfl
  have hst : TableBounded st.hashTable := by
    rw [hclear]
    exact tableBounded_clear
  rw [negamax_miss zobristTable hopen hget]
  exact (visitNode_bounded zobristTable (negamax_bounded zobristTable depth) player alpha beta
    hopen hst).1.legal

end Kxo
