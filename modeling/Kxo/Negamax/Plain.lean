import Kxo.Lib.FailSoft
import Kxo.Negamax.Search
import Mathlib.Data.Finset.Max

/-!
# Kxo — the optimised search against plain negamax

`plain` is negamax with no window, no move order and no table. The search of `negamax.c` agrees
with it as long as the transposition table only answers with exact values: every other device
(null windows, second searches, fail-soft cutoffs, move ordering) is sound, which is the content of
`negamax_failSoft`. The table stores every score without the window it was found under, so its
answers are not always exact, and the agreement can fail.
-/

namespace Kxo

variable {sort : KernelSort} (zobristTable : ZobristWords)

/-! ## Plain negamax

The specification: the maximum of the negated values of the replies, to a fixed depth. -/

/-- Plain negamax to depth `d`. The maximum is over the empty cells; an unfinished board has one. -/
def plain : Nat → U32 → Player → Int
  | 0, table, player => getScore table player
  | d + 1, table, player =>
      if checkWin table ≠ cellEmpty then getScore table player
      else ((availableMoves table).map fun m =>
        -plain d (valSetCell table m player.cell) player.opp).max?.getD 0

/-- The value of a move to the player who makes it, with `d` plies left after it. -/
def moveValue (d : Nat) (table : U32) (player : Player) (m : Nat) : Int :=
  -plain d (valSetCell table m player.cell) player.opp

/-- At the end of its depth or of the game a board is worth its evaluation. -/
theorem plain_leaf {d : Nat} {table : U32} {player : Player}
    (h : d = 0 ∨ checkWin table ≠ cellEmpty) : plain d table player = getScore table player := by
  cases d with
  | zero => rfl
  | succ d => rw [plain, if_pos (h.resolve_left (Nat.succ_ne_zero d))]

/-- On an unfinished board plain negamax is the largest move value. -/
theorem plain_eq_of_isMax {d : Nat} {table : U32} {player : Player} {M : Int}
    (hopen : checkWin table = cellEmpty)
    (hmem : ∃ m ∈ availableMoves table, moveValue d table player m = M)
    (hle : ∀ m ∈ availableMoves table, moveValue d table player m ≤ M) :
    plain (d + 1) table player = M := by
  rw [plain, if_neg (not_not.mpr hopen)]
  have hmax : ((availableMoves table).map (moveValue d table player)).max? = some M := by
    rw [List.max?_eq_some_iff]
    refine ⟨List.mem_map.mpr hmem, ?_⟩
    intro v hv
    obtain ⟨m, hm, rfl⟩ := List.mem_map.mp hv
    exact hle m hm
  exact congrArg (Option.getD · 0) hmax

/-- A move is worth at most the position it is made in. -/
theorem moveValue_le_plain {d : Nat} {table : U32} {player : Player} {m : Nat}
    (hopen : checkWin table = cellEmpty) (hm : m ∈ availableMoves table) :
    moveValue d table player m ≤ plain (d + 1) table player := by
  rw [plain, if_neg (not_not.mpr hopen)]
  cases hmax : ((availableMoves table).map (moveValue d table player)).max? with
  | none =>
    rw [List.max?_eq_none_iff, List.map_eq_nil_iff] at hmax
    rw [hmax] at hm
    cases hm
  | some M =>
    refine le_of_le_of_eq ?_ (congrArg (Option.getD · 0) hmax).symm
    exact (List.max?_eq_some_iff.mp hmax).2 _ (List.mem_map.mpr ⟨m, hm, rfl⟩)

/-! ## Sound answers

What the table would have to answer. The condition is on the answers given during a search, so it
can be false of one search and true of another. -/

/-- A table answer is sound when a search under the asking call's window may return it. -/
def SearchEvent.Sound : SearchEvent → Prop
  | .hit table depth player alpha beta score =>
      FailSoft alpha beta (plain depth table player) score
  | .expand .. => True

instance : DecidablePred SearchEvent.Sound
  | .hit .. => inferInstanceAs (Decidable (FailSoft _ _ _ _))
  | .expand .. => isTrue trivial

/-- Every answer the table gave during a search is sound. -/
def HitsSound (trace : List SearchEvent) : Prop := ∀ e ∈ trace, e.Sound

instance (trace : List SearchEvent) : Decidable (HitsSound trace) :=
  inferInstanceAs (Decidable (∀ e ∈ trace, _))

/-- An earlier part of a search has sound answers if all of it has. -/
theorem HitsSound.of_suffix {t t' : List SearchEvent} (h : HitsSound t') (hsub : t <:+ t') :
    HitsSound t :=
  fun e he => h e (hsub.mem he)

/-! ## The move loop

The loop of a call keeps the best score and raises `alpha` with it. Its invariant is that of
`FailSoft.step`, over the moves done so far. -/

/-- The contract of a child search: its history only grows, its scores stay bounded, and while the
table's answers are sound its score is fail-soft for the plain value. -/
structure ChildSound (d : Nat) (child : ChildSearch) : Prop where
  grows : ∀ t p a b st, st.trace <:+ (child t p a b st).2.trace
  bounded : ∀ t p a b st, TableBounded st.hashTable →
    |(child t p a b st).1.score| ≤ maxScore ∧ TableBounded (child t p a b st).2.hashTable
  failSoft : ∀ t p a b st, TableBounded st.hashTable → a < b →
    HitsSound (child t p a b st).2.trace → FailSoft a b (plain d t p) (child t p a b st).1.score

/-- **One move.** Null window, second search or full window, the score bounds the move's value as
the window permits. -/
theorem tryMove_failSoft {d : Nat} {child : ChildSearch} (hchild : ChildSound d child)
    {player : Player} {table : U32} {m : Nat} {first : Bool} {alpha beta : Int} {st : SearchState}
    (hst : TableBounded st.hashTable) (hwin : alpha < beta)
    (hhits : HitsSound (tryMove zobristTable child player table m first alpha beta st).2.trace) :
    FailSoft alpha beta (moveValue d table player m)
      (tryMove zobristTable child player table m first alpha beta st).1 := by
  unfold moveValue
  unfold tryMove searchMove at hhits ⊢
  cases first with
  | true =>
    have h := hchild.failSoft (valSetCell table m player.cell) player.opp (-beta) (-alpha)
      (st.xorHash (zobristTable m player)) hst (by omega) hhits
    simpa using h.neg
  | false =>
    dsimp only at hhits ⊢
    rw [if_neg Bool.false_ne_true] at hhits ⊢
    -- the null window `(-alpha - 1, -alpha)` seen from above is `(alpha, alpha + 1)`
    have hnull : HitsSound (child (valSetCell table m player.cell) player.opp (-alpha - 1) (-alpha)
          (st.xorHash (zobristTable m player))).2.trace →
        FailSoft alpha (alpha + 1) (-plain d (valSetCell table m player.cell) player.opp)
          (-(child (valSetCell table m player.cell) player.opp (-alpha - 1) (-alpha)
            (st.xorHash (zobristTable m player))).1.score) := by
      intro hh
      have h := (hchild.failSoft (valSetCell table m player.cell) player.opp (-alpha - 1) (-alpha)
        (st.xorHash (zobristTable m player)) hst (by omega) hh).neg
      rwa [neg_neg, show -(-alpha - 1) = alpha + 1 from by omega] at h
    have hst' := (hchild.bounded (valSetCell table m player.cell) player.opp (-alpha - 1) (-alpha)
      (st.xorHash (zobristTable m player)) hst).2
    split at hhits
    case isTrue hin =>
      rw [if_pos hin]
      have hfirst := hnull (hhits.of_suffix (hchild.grows ..))
      have hagain := (hchild.failSoft _ _ _ _ _ hst' (by omega) hhits).neg
      rw [neg_neg, neg_neg] at hagain
      exact hfirst.of_research hin.1 hagain
    case isFalse hout =>
      rw [if_neg hout]
      exact (hnull hhits).of_null hwin hout

/-- What the loop has established after the moves `done`: `best` is fail-soft for their maximum,
and inside the window the best move attains it. -/
structure LoopInv (d : Nat) (table : U32) (player : Player) (alpha₀ beta : Int) (done : List Nat)
    (best : MoveT) : Prop where
  bound : ∃ M, (∃ m ∈ done, moveValue d table player m = M) ∧
    (∀ m ∈ done, moveValue d table player m ≤ M) ∧ FailSoft alpha₀ beta M best.score
  move : alpha₀ < best.score → best.score < beta →
    ∃ m ∈ done, best.move = m ∧ moveValue d table player m = best.score

/-- After the first move the loop has its score. -/
theorem LoopInv.first {d : Nat} {table : U32} {player : Player} {alpha₀ beta : Int} {m : Nat}
    {score : Int} (h : FailSoft alpha₀ beta (moveValue d table player m) score) :
    LoopInv d table player alpha₀ beta [m] ⟨score, m⟩ where
  bound := ⟨moveValue d table player m, by simp, by simp, h⟩
  move h1 h2 := ⟨m, by simp, rfl, (h.exact h1 h2).symm⟩

/-- After another move, which was searched under the window that the best so far leaves. -/
theorem LoopInv.step {d : Nat} {table : U32} {player : Player} {alpha₀ beta : Int}
    {done : List Nat} {best : MoveT} {m : Nat} {score : Int}
    (h : LoopInv d table player alpha₀ beta done best) (hopen : max alpha₀ best.score < beta)
    (hmove : FailSoft (max alpha₀ best.score) beta (moveValue d table player m) score) :
    LoopInv d table player alpha₀ beta (done ++ [m]) (better best m score) where
  bound := by
    obtain ⟨M, ⟨m₀, hm₀, hM⟩, hle, hsoft⟩ := h.bound
    refine ⟨max M (moveValue d table player m), ?_, ?_, ?_⟩
    · rcases le_total M (moveValue d table player m) with hlt | hlt
      · exact ⟨m, by simp, (max_eq_right hlt).symm⟩
      · exact ⟨m₀, by simp [hm₀], by rw [hM, max_eq_left hlt]⟩
    · intro m' hm'
      rcases List.mem_append.mp hm' with hdone | hnew
      · exact (hle m' hdone).trans (le_max_left _ _)
      · rw [List.mem_singleton.mp hnew]
        exact le_max_right _ _
    · rw [better_score]
      exact hsoft.step hopen hmove
  move h1 h2 := by
    unfold better at h1 h2 ⊢
    split at h1
    case isTrue hlt =>
      rw [if_pos hlt] at h2 ⊢
      exact ⟨m, by simp, rfl, (FailSoft.eq_of_step_lt hmove hlt h1 h2).symm⟩
    case isFalse hge =>
      rw [if_neg hge] at h2 ⊢
      obtain ⟨m₀, hm₀, hmv, hval⟩ := h.move h1 h2
      exact ⟨m₀, by simp [hm₀], hmv, hval⟩

/-- The loop's result is fail-soft for the moves it was given: when it breaks off, the moves it
leaves out can only raise a maximum that is already at or above `beta`. -/
def LoopSound (d : Nat) (table : U32) (player : Player) (alpha₀ beta : Int) (all : List Nat)
    (best : MoveT) : Prop :=
  ∀ V, (∃ m ∈ all, moveValue d table player m = V) →
    (∀ m ∈ all, moveValue d table player m ≤ V) →
    FailSoft alpha₀ beta V best.score ∧
    (alpha₀ < best.score → best.score < beta →
      ∃ m ∈ all, best.move = m ∧ moveValue d table player m = best.score)

/-- At the end of the loop, by a cutoff or because no move is left. -/
theorem LoopInv.sound {d : Nat} {table : U32} {player : Player} {alpha₀ beta : Int}
    {done rest : List Nat} {best : MoveT} (h : LoopInv d table player alpha₀ beta done best)
    (hwin : alpha₀ < beta) (hend : beta ≤ best.score ∨ rest = []) :
    LoopSound d table player alpha₀ beta (done ++ rest) best := by
  intro V hV hleV
  obtain ⟨M, ⟨m₀, hm₀, hM⟩, hle, hsoft⟩ := h.bound
  have hMV : M ≤ V := by
    rw [← hM]
    exact hleV m₀ (by simp [hm₀])
  refine ⟨?_, fun h1 h2 => ?_⟩
  · -- the loop broke off, or it saw every move
    rcases hend with hcut | rfl
    · exact hsoft.of_cutoff hwin hcut hMV
    · have hVM : V = M := by
        obtain ⟨m, hm, hmV⟩ := hV
        have := hle m (by simpa using hm)
        omega
      rwa [hVM]
  · obtain ⟨m, hm, hmv, hval⟩ := h.move h1 h2
    exact ⟨m, by simp [hm], hmv, hval⟩

/-- The loop from its second move on, the moves `done` being behind it. -/
theorem tryMoves_sound {d : Nat} {child : ChildSearch} (hchild : ChildSound d child)
    {player : Player} {table : U32} {alpha₀ beta : Int} (hwin : alpha₀ < beta) (moves : List Nat) :
    ∀ (done : List Nat) (best : MoveT) (st : SearchState), TableBounded st.hashTable →
      (∀ m ∈ moves, m ∈ availableMoves table) →
      LoopInv d table player alpha₀ beta done best → max alpha₀ best.score < beta →
      HitsSound (tryMoves zobristTable child player beta moves false table
        (max alpha₀ best.score) best st).2.trace →
      LoopSound d table player alpha₀ beta (done ++ moves)
        (tryMoves zobristTable child player beta moves false table (max alpha₀ best.score)
          best st).1 := by
  induction moves with
  | nil =>
    intro done best st _ _ hinv _ _
    exact hinv.sound hwin (Or.inr rfl)
  | cons m rest ih =>
    intro done best st hst hsub hinv hopen hhits
    have hrest : ∀ m' ∈ rest, m' ∈ availableMoves table := fun m' hm' => hsub m' (by simp [hm'])
    rw [tryMoves_cons zobristTable (hsub m (by simp))] at hhits ⊢
    dsimp only at hhits ⊢
    have hhitsMove : HitsSound (tryMove zobristTable child player table m false
        (max alpha₀ best.score) beta st).2.trace := by
      split at hhits
      · exact hhits
      · exact hhits.of_suffix (tryMoves_suffix zobristTable hchild.grows _ _ _ _ _ _ _ hrest)
    have hmove := tryMove_failSoft zobristTable hchild hst hopen hhitsMove
    have hst' := (tryMove_bounded zobristTable hchild.bounded player table m false
      (max alpha₀ best.score) beta hst).2
    have hstep := hinv.step hopen hmove
    -- the `alpha` of the next turn is the best score so far, as the invariant has it
    have hmax : max (max alpha₀ best.score) (tryMove zobristTable child player table m false
        (max alpha₀ best.score) beta st).1 = max alpha₀ (better best m (tryMove zobristTable child
          player table m false (max alpha₀ best.score) beta st).1).score := by
      rw [better_score, max_assoc]
    rw [hmax] at hhits ⊢
    rw [show done ++ m :: rest = (done ++ [m]) ++ rest by simp]
    split
    case isTrue hcut => exact hstep.sound hwin (Or.inl (by omega))
    case isFalse hgo =>
      rw [if_neg hgo] at hhits
      exact ih _ _ _ hst' hrest hstep (by omega) hhits

/-- The whole loop. Its first move is searched with the full window, and its score replaces the
`-10000` sentinel because every score is above it. -/
theorem tryMoves_sound_first {d : Nat} {child : ChildSearch} (hchild : ChildSound d child)
    {player : Player} {table : U32} {alpha beta : Int} {moves : List Nat} {st : SearchState}
    (hwin : alpha < beta) (hst : TableBounded st.hashTable) (hne : moves ≠ [])
    (hsub : ∀ m ∈ moves, m ∈ availableMoves table)
    (hhits : HitsSound
      (tryMoves zobristTable child player beta moves true table alpha ⟨-10000, -1⟩ st).2.trace) :
    LoopSound d table player alpha beta moves
      (tryMoves zobristTable child player beta moves true table alpha ⟨-10000, -1⟩ st).1 := by
  obtain ⟨m, rest, rfl⟩ := List.exists_cons_of_ne_nil hne
  have hrest : ∀ m' ∈ rest, m' ∈ availableMoves table := fun m' hm' => hsub m' (by simp [hm'])
  have hbounded := tryMove_bounded zobristTable hchild.bounded player table m true alpha beta hst
  -- the first score replaces the sentinel
  have hbest : better ⟨-10000, -1⟩ m
        (tryMove zobristTable child player table m true alpha beta st).1
      = ⟨(tryMove zobristTable child player table m true alpha beta st).1, m⟩ := by
    have hlow := (abs_le.mp hbounded.1).1
    unfold maxScore at hlow
    rw [better, if_pos (by dsimp only; omega)]
  rw [tryMoves_cons zobristTable (hsub m (by simp))] at hhits ⊢
  dsimp only at hhits ⊢
  rw [hbest] at hhits ⊢
  have hhitsMove :
      HitsSound (tryMove zobristTable child player table m true alpha beta st).2.trace := by
    split at hhits
    · exact hhits
    · exact hhits.of_suffix (tryMoves_suffix zobristTable hchild.grows _ _ _ _ _ _ _ hrest)
  have hinv := LoopInv.first (tryMove_failSoft zobristTable hchild hst hwin hhitsMove)
  split
  case isTrue hcut => exact hinv.sound hwin (Or.inl ((le_max_iff.mp hcut).resolve_left (by omega)))
  case isFalse hgo =>
    rw [if_neg hgo] at hhits
    exact tryMoves_sound zobristTable hchild hwin rest [m] _ _ hbounded.2 hrest hinv
      (not_le.mp hgo) hhits

/-- The largest move value of an unfinished board is attained. -/
theorem exists_isMax_moveValue (d : Nat) {table : U32} (player : Player)
    (hopen : checkWin table = cellEmpty) :
    ∃ V, (∃ m ∈ availableMoves table, moveValue d table player m = V) ∧
      ∀ m ∈ availableMoves table, moveValue d table player m ≤ V := by
  obtain ⟨m, hm, hmax⟩ := (availableMoves table).toFinset.exists_max_image
    (moveValue d table player)
    (by simpa [List.toFinset_nonempty_iff] using availableMoves_ne_nil hopen)
  exact ⟨_, ⟨m, by simpa using hm, rfl⟩, fun m' hm' => hmax m' (by simpa using hm')⟩

/-- An unfinished position, searched: the score is fail-soft for its plain value, and a score inside
the window comes with a move that attains it. -/
theorem visitNode_sound {d : Nat} (hchild : ChildSound d (negamax sort zobristTable d))
    {table : U32} {player : Player} {alpha beta : Int} {st : SearchState} (hwin : alpha < beta)
    (hopen : checkWin table = cellEmpty) (hst : TableBounded st.hashTable)
    (hhits : HitsSound (visitNode sort zobristTable d table player alpha beta st).2.trace) :
    FailSoft alpha beta (plain (d + 1) table player)
      (visitNode sort zobristTable d table player alpha beta st).1.score ∧
    (alpha < (visitNode sort zobristTable d table player alpha beta st).1.score →
      (visitNode sort zobristTable d table player alpha beta st).1.score < beta →
      ∃ m ∈ availableMoves table,
        (visitNode sort zobristTable d table player alpha beta st).1.move = m ∧
        moveValue d table player m =
          (visitNode sort zobristTable d table player alpha beta st).1.score) := by
  obtain ⟨V, ⟨m, hm, hV⟩, hle⟩ := exists_isMax_moveValue d player hopen
  have hbest : LoopSound d table player alpha beta
      (sort.sort (cmpMoves (st.record (.expand table (d + 1) player alpha beta)))
        (availableMoves table))
      (visitNode sort zobristTable d table player alpha beta st).1 :=
    tryMoves_sound_first zobristTable hchild hwin hst (sort_availableMoves_ne_nil hopen)
      (fun m hm => mem_sort_availableMoves.mp hm) hhits
  have hloop := hbest V ⟨m, mem_sort_availableMoves.mpr hm, hV⟩
    fun m hm => hle m (mem_sort_availableMoves.mp hm)
  rw [plain_eq_of_isMax hopen ⟨m, hm, hV⟩ hle]
  refine ⟨hloop.1, fun h1 h2 => ?_⟩
  obtain ⟨m', hm', hmv, hval⟩ := hloop.2 h1 h2
  exact ⟨m', mem_sort_availableMoves.mp hm', hmv, hval⟩

/-- **The search meets the fail-soft contract at every depth and window**, as long as the table's
answers do. Induction on the depth; a finished board returns the plain value itself. -/
theorem negamax_failSoft (depth : Nat) : ChildSound depth (negamax sort zobristTable depth) := by
  refine ⟨negamax_suffix zobristTable depth, negamax_bounded zobristTable depth, ?_⟩
  refine negamax_rule zobristTable (fun depth table player alpha beta st r =>
    TableBounded st.hashTable → alpha < beta → HitsSound r.2.trace →
      FailSoft alpha beta (plain depth table player) r.1.score) ?_ ?_ ?_ depth
  · intro depth table player alpha beta st hend _ _ _
    exact FailSoft.of_eq (plain_leaf hend).symm
  · intro depth table player alpha beta st score move _ _ _ _ hhits
    exact hhits (.hit table (depth + 1) player alpha beta score) (by simp)
  · intro depth table player alpha beta st ih hopen _ hst hwin hhits
    have hchild : ChildSound depth (negamax sort zobristTable depth) :=
      ⟨negamax_suffix zobristTable depth, negamax_bounded zobristTable depth, ih⟩
    exact (visitNode_sound zobristTable hchild hwin hopen hst hhits).1

end Kxo
