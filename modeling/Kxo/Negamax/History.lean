import Kxo.Negamax.Boards
import Kxo.Spec.NegamaxInts

/-!
# Kxo — the history tables do not overflow (`src/negamax.c`)

A call adds to the history of each cell once at most for the board whose moves it tries, and adds a
score within the evaluation's bound. So a cell has been counted no more often than boards have been
tried since the tables were reset, and its sum is bounded by its count (`HistoryInv`). A round tries
few enough boards for the three rounds together to leave the sums inside an `int`.

* **`HistoryInv`** — the invariant, with the calls that are still running as a number `pending` for
  each cell: the boards they try are in the trace already, their cells are not counted yet.
* **`Agrees`** — the checked search, in which every `int` is tested, goes through and does what the
  search without tests does. `negamaxInts_agrees` is the induction over the depth.
* **`predictBound_fits`** — the number of boards that three rounds can try, times the largest score.
* **`negamaxPredict_ints`** — so the tests never fail, in any call of `negamax_predict`.
-/

namespace Kxo

variable {sort : KernelSort} {zobristTable : ZobristWords}

/-! ## The history and the boards tried

An average is a quotient of a sum by its count, rounded towards zero, so it is within the bound of
one score. -/

/-- The test of a score, as a bound on its magnitude. -/
theorem inScore_iff {x : Int} : InScore x ↔ |x| ≤ maxScore := by
  rw [abs_le]
  exact Iff.rfl

/-- A test that holds lets its value through. -/
theorem checked_of {α : Type} {ok : Prop} [Decidable ok] (h : ok) (a : α) :
    checked ok a = some a := if_pos h

/-- The number of boards tried so far. -/
def SearchState.tries (st : SearchState) : Nat := (boardsTried st.trace).length

/-- Each cell has been counted at most once for a board tried since there were `start` of them, and
`pending` times less for the boards whose moves are being tried; and its scores are bounded. -/
structure HistoryInv (start : Nat) (pending : Nat → Nat) (st : SearchState) : Prop where
  table : TableBounded st.hashTable
  sum : ∀ m, |st.historyScoreSum m| ≤ maxScore * st.historyCount m
  count : ∀ m, st.historyCount m + pending m + start ≤ (st.tries : Int)

section Invariant

variable {start limit : Nat} {pending pending' : Nat → Nat} {st st' : SearchState}

/-- Fewer cells need to be set aside than were. -/
theorem HistoryInv.mono (h : HistoryInv start pending st) (hle : ∀ m, pending' m ≤ pending m) :
    HistoryInv start pending' st where
  table := h.table
  sum := h.sum
  count m := by
    have hm := h.count m
    have hpending := hle m
    omega

/-- No count is negative: its magnitude bounds a sum's. -/
theorem HistoryInv.count_nonneg (h : HistoryInv start pending st) (m : Nat) :
    0 ≤ st.historyCount m := by
  have hm := (abs_nonneg _).trans (h.sum m)
  unfold maxScore at hm
  omega

/-- The average that `cmp_moves` computes. -/
theorem abs_tdiv_le {s k c : Int} (hk : 0 ≤ k) (h : |s| ≤ k * c) : |s.tdiv c| ≤ k := by
  have hnat : s.natAbs ≤ c.natAbs * k.natAbs := by
    have habs := h.trans (le_abs_self (k * c))
    rw [Int.abs_eq_natAbs, Int.abs_eq_natAbs, Int.mul_comm] at habs
    rw [← Int.natAbs_mul]
    exact_mod_cast habs
  calc |s.tdiv c| = ((s.natAbs / c.natAbs : Nat) : Int) := by
        rw [Int.abs_eq_natAbs, Int.natAbs_tdiv]
        rfl
    _ ≤ (k.natAbs : Int) := by exact_mod_cast Nat.div_le_of_le_mul hnat
    _ = k := Int.natAbs_of_nonneg hk

/-- **`cmp_moves` does not overflow.** -/
theorem HistoryInv.inInt_cmpMoves (h : HistoryInv start pending st) (a b : Nat) :
    InInt (cmpMoves st a b) := by
  have hscore : ∀ i, |if st.historyCount i ≠ 0 then
      (st.historyScoreSum i).tdiv (st.historyCount i) else 0| ≤ maxScore := by
    intro i
    split
    · exact abs_tdiv_le (by decide) (h.sum i)
    · decide
  have ha := abs_le.mp (hscore a)
  have hb := abs_le.mp (hscore b)
  unfold InInt cmpMoves
  unfold maxScore at ha hb
  dsimp only
  omega

/-- **A score is added to the history of a cell** that has one pending. -/
theorem HistoryInv.addHistory {m : Nat} {score : Int}
    (h : HistoryInv start (fun k => pending k + if k = m then 1 else 0) st)
    (hlimit : st.tries ≤ start + limit) (hint : maxScore * limit < 2 ^ 31)
    (hscore : |score| ≤ maxScore) :
    st.addHistoryInts m score = some (st.addHistory m score) ∧
      HistoryInv start pending (st.addHistory m score) := by
  have hnonneg := h.count_nonneg m
  have hcount := h.count m
  rw [if_pos rfl] at hcount
  -- the try that is counted now was still pending
  have hle : st.historyCount m + 1 ≤ limit := by omega
  -- each try adds a score of at most `maxScore`
  have hsum : |st.historyScoreSum m + score| ≤ maxScore * (st.historyCount m + 1) := by
    have htri := abs_add_le (st.historyScoreSum m) score
    have hm := h.sum m
    unfold maxScore at *
    omega
  have hbound := abs_le.mp hsum
  refine ⟨checked_of ?_ _, h.table, fun k => ?_, fun k => ?_⟩
  · unfold InInt
    unfold maxScore at *
    omega
  · unfold SearchState.addHistory
    dsimp only
    split
    next hk => exact hk ▸ hsum
    next => exact h.sum k
  · have hk := h.count k
    have htries : (st.addHistory m score).tries = st.tries := rfl
    rw [htries]
    unfold SearchState.addHistory
    dsimp only
    split at hk
    next heq => rw [if_pos heq]; omega
    next hne => rw [if_neg hne]; omega

end Invariant

/-! ## The checked search is the search

The calls are compared pairwise, with the invariant at both ends. `limit` is how many boards may be
tried in all; the search stays below it by `Kxo.Negamax.Boards`. -/

section Search

/-- The checked call goes through, and keeps the invariant. -/
structure Agrees (start : Nat) (pending : Nat → Nat) {α : Type} (score : α → Int)
    (ints : Option (α × SearchState)) (r : α × SearchState) : Prop where
  eq : ints = some r
  inv : HistoryInv start pending r.2
  score : |score r.1| ≤ maxScore

/-- What the loop of a call relies on for the calls it makes. -/
structure ChildAgrees (start limit : Nat) (childInts : ChildInts) (child : ChildSearch) :
    Prop where
  later : ∀ t p a b st, st.trace <:+ (child t p a b st).2.trace
  agrees : ∀ t p a b st pending, HistoryInv start pending st →
    (child t p a b st).2.tries ≤ start + limit →
    Agrees start pending MoveT.score (childInts t p a b st) (child t p a b st)

variable {start limit : Nat} {pending : Nat → Nat} {childInts : ChildInts} {child : ChildSearch}
  {table : U32} {player : Player} {st : SearchState}

/-- A longer trace has at least as many boards. -/
theorem tries_le {st st' : SearchState} (h : st.trace <:+ st'.trace) : st.tries ≤ st'.tries :=
  (h.sublist.filterMap SearchEvent.tried).length_le

/-- One or two searches of a move. -/
theorem searchMoveInts_agrees (hchild : ChildAgrees start limit childInts child)
    (hinv : HistoryInv start pending st) (first : Bool) (alpha beta : Int)
    (hlimit : (searchMove child table player first alpha beta st).2.tries ≤ start + limit) :
    Agrees start pending id (searchMoveInts childInts table player first alpha beta st)
      (searchMove child table player first alpha beta st) := by
  unfold searchMove at hlimit ⊢
  unfold searchMoveInts
  cases first with
  | true =>
    obtain ⟨heq, hinv', hscore⟩ := hchild.agrees _ _ _ _ st pending hinv hlimit
    refine ⟨?_, hinv', by simpa using hscore⟩
    rw [if_pos rfl, heq]
    rfl
  | false =>
    rw [if_neg Bool.false_ne_true] at hlimit ⊢
    rw [if_neg Bool.false_ne_true]
    dsimp only at hlimit ⊢
    split at hlimit
    next hwindow =>
      -- the null window is followed by a second search
      obtain ⟨heq, hinv', -⟩ := hchild.agrees table player.opp (-alpha - 1) (-alpha) st pending hinv
        ((tries_le (hchild.later ..)).trans hlimit)
      obtain ⟨heq', hinv'', hscore⟩ := hchild.agrees _ _ _ _ _ pending hinv' hlimit
      refine ⟨?_, ?_, ?_⟩
      · rw [heq, if_pos hwindow]
        show (if _ then _ else _ : Option (Int × SearchState)) = _
        rw [if_pos hwindow, heq']
        rfl
      · rwa [if_pos hwindow]
      · rw [if_pos hwindow]
        simpa using hscore
    next hwindow =>
      obtain ⟨heq, hinv', hscore⟩ := hchild.agrees table player.opp (-alpha - 1) (-alpha) st pending
        hinv hlimit
      refine ⟨?_, ?_, ?_⟩
      · rw [heq, if_neg hwindow]
        exact if_neg hwindow
      · rwa [if_neg hwindow]
      · rw [if_neg hwindow]
        simpa using hscore

/-- One turn of the checked loop, up to the best move. -/
def tryMoveInts (zobristTable : ZobristWords) (child : ChildInts) (player : Player)
    (table : U32) (m : Nat) (first : Bool) (alpha beta : Int) (st : SearchState) :
    Option (Int × SearchState) := do
  let (score, st) ← searchMoveInts child (valSetCell table m player.cell) player first alpha beta
    (st.xorHash (zobristTable m player))
  let score ← checked (InScore score) score
  let st ← st.addHistoryInts m score
  some (score, st.xorHash (zobristTable m player))

/-- One turn of the checked loop. -/
theorem tryMovesInts_cons {m : Nat} (hm : m ∈ availableMoves table) (rest : List Nat)
    (first : Bool) (alpha beta : Int) (best : MoveT) (st : SearchState) :
    tryMovesInts zobristTable childInts player beta (m :: rest) first table alpha best st =
      (tryMoveInts zobristTable childInts player table m first alpha beta st).bind fun r =>
        (checked (InScore (better best m r.1).score) (better best m r.1)).bind fun best =>
          if beta ≤ max alpha r.1 then some (best, r.2)
          else tryMovesInts zobristTable childInts player beta rest false table (max alpha r.1) best
            r.2 := by
  obtain ⟨hlt, hempty⟩ := mem_availableMoves.mp hm
  simp only [tryMovesInts, tryMoveInts, better, ← max_def_lt,
    valSetCell_undo hlt player.fits_cell hempty, Option.bind_eq_bind, Option.bind_assoc,
    Option.bind_some]

/-- One turn agrees: the move's search, and the two history entries that it updates. -/
theorem tryMoveInts_agrees (hchild : ChildAgrees start limit childInts child)
    (hint : maxScore * limit < 2 ^ 31) {m : Nat}
    (hinv : HistoryInv start (fun k => pending k + if k = m then 1 else 0) st) (first : Bool)
    (alpha beta : Int)
    (hlimit : (tryMove zobristTable child player table m first alpha beta st).2.tries ≤
      start + limit) :
    Agrees start pending id (tryMoveInts zobristTable childInts player table m first alpha beta st)
      (tryMove zobristTable child player table m first alpha beta st) := by
  have hstart : HistoryInv start (fun k => pending k + if k = m then 1 else 0)
      (st.xorHash (zobristTable m player)) := ⟨hinv.table, hinv.sum, hinv.count⟩
  obtain ⟨heq, hinv', hscore⟩ := searchMoveInts_agrees hchild hstart first alpha beta hlimit
  rw [id_eq] at hscore
  obtain ⟨hadd, hadded⟩ := hinv'.addHistory hlimit hint hscore
  refine ⟨?_, ⟨hadded.table, hadded.sum, hadded.count⟩, hscore⟩
  rw [tryMoveInts, heq]
  simp only [Option.bind_eq_bind, Option.bind_some, checked_of (inScore_iff.mpr hscore), hadd]
  rfl

/-- **The loop.** Every move still to come is pending. -/
theorem tryMovesInts_agrees (hchild : ChildAgrees start limit childInts child)
    (hint : maxScore * limit < 2 ^ 31) (beta : Int) (moves : List Nat) :
    ∀ (first : Bool) (alpha : Int) (best : MoveT) (st : SearchState) (pending : Nat → Nat),
      moves.Nodup → (∀ m ∈ moves, m ∈ availableMoves table) →
      (best = ⟨-10000, -1⟩ ∨ GoodBest (availableMoves table) best) →
      HistoryInv start (fun k => pending k + if k ∈ moves then 1 else 0) st →
      (tryMoves zobristTable child player beta moves first table alpha best st).2.tries ≤
        start + limit →
      tryMovesInts zobristTable childInts player beta moves first table alpha best st =
          some (tryMoves zobristTable child player beta moves first table alpha best st) ∧
        HistoryInv start pending
          (tryMoves zobristTable child player beta moves first table alpha best st).2 := by
  induction moves with
  | nil =>
    intro first alpha best st pending _ _ _ hinv _
    exact ⟨rfl, hinv.mono fun m => by simp⟩
  | cons m rest ih =>
    intro first alpha best st pending hnodup hsub hbest hinv hlimit
    obtain ⟨hnotin, hnodup⟩ := List.nodup_cons.mp hnodup
    have hm := hsub m (by simp)
    have hsub' : ∀ m' ∈ rest, m' ∈ availableMoves table := fun m' hm' => hsub m' (by simp [hm'])
    -- the move on turn is one that will be tried, and so are the rest
    have hturn : HistoryInv start (fun k => (pending k + if k ∈ rest then 1 else 0) +
        if k = m then 1 else 0) st := hinv.mono fun k => by
      by_cases hk : k = m
      · simp [hk, hnotin]
      · simp [hk]
    rw [tryMoves_cons zobristTable hm] at hlimit ⊢
    rw [tryMovesInts_cons hm]
    -- a turn tries no more than the whole loop does
    have hlater : (tryMove zobristTable child player table m first alpha beta st).2.tries ≤
        start + limit := by
      -- whether a cut ends the loop here or not
      refine le_trans ?_ hlimit
      dsimp only
      split
      · exact Nat.le_refl _
      · exact tries_le (tryMoves_suffix zobristTable hchild.later player beta rest _ _ _ _ hsub')
    obtain ⟨heq, hinv', hscore⟩ := tryMoveInts_agrees hchild hint hturn first alpha beta hlater
    rw [id_eq] at hscore
    have hgood := GoodBest.better hm hscore hbest
    rw [heq]
    simp only [Option.bind_some, checked_of (inScore_iff.mpr hgood.bounded)]
    dsimp only at hlimit ⊢
    split
    -- at a cut the moves left over are not tried
    next hcut => exact ⟨rfl, hinv'.mono fun k => by omega⟩
    next hcut =>
      rw [if_neg hcut] at hlimit
      exact ih false _ _ _ pending hnodup hsub' (.inr hgood) hinv' hlimit

/-- The comparison of `cmp_moves` subtracts two averages, which are within an `int`. -/
theorem sortInts_eq (h : HistoryInv start pending st) (moves : List Nat) :
    sortInts sort st moves = some (sort.sort (cmpMoves st) moves) :=
  checked_of (fun a _ b _ => h.inInt_cmpMoves a b) _

/-- **The checked search is the search.** Induction on the depth. -/
theorem negamaxInts_agrees (hint : maxScore * limit < 2 ^ 31) (depth : Nat) :
    ChildAgrees start limit (negamaxInts sort zobristTable depth)
      (negamax sort zobristTable depth) := by
  refine ⟨negamax_suffix zobristTable depth, fun table player alpha beta st => ?_⟩
  refine negamax_rule zobristTable
    (fun depth table player alpha beta st r => ∀ pending, HistoryInv start pending st →
      r.2.tries ≤ start + limit → Agrees start pending MoveT.score
        (negamaxInts sort zobristTable depth table player alpha beta st) r)
    ?_ ?_ ?_ depth table player alpha beta st
  · intro depth table player alpha beta st hleaf pending hinv _
    have hscore := abs_getScore_le table player
    refine ⟨?_, hinv, hscore⟩
    cases depth with
    | zero => exact checked_of (inScore_iff.mpr hscore) _
    | succ depth =>
      rw [negamaxInts, if_pos (hleaf.resolve_left (Nat.succ_ne_zero depth))]
      exact checked_of (inScore_iff.mpr hscore) _
  · intro depth table player alpha beta st score move hopen hget pending hinv _
    have hscore : |score| ≤ maxScore := hinv.table.get hget
    refine ⟨?_, ⟨hinv.table, hinv.sum, hinv.count⟩, hscore⟩
    rw [negamaxInts, if_neg (not_not.mpr hopen), hget]
    exact checked_of (inScore_iff.mpr hscore) _
  · intro depth table player alpha beta st ih hopen hget pending hinv hlimit
    set st₀ := st.record (.expand table (depth + 1) player alpha beta)
    -- the board is counted as tried, and each of its moves is pending
    have hstart : HistoryInv start (fun k => pending k +
        if k ∈ sort.sort (cmpMoves st₀) (availableMoves table) then 1 else 0) st₀ := by
      refine ⟨hinv.table, hinv.sum, fun k => ?_⟩
      have hcount : st₀.historyCount k + pending k + start ≤ (st.tries : Int) := hinv.count k
      have htries : st₀.tries = st.tries + 1 := rfl
      split <;> omega
    obtain ⟨heq, hinv'⟩ := tryMovesInts_agrees ⟨negamax_suffix zobristTable depth, ih⟩ hint beta _
      true alpha ⟨-10000, -1⟩ st₀ pending nodup_sort_availableMoves
      (fun m hm => mem_sort_availableMoves.mp hm) (.inl rfl) hstart hlimit
    have hgood : GoodBest (availableMoves table)
        (visitNode sort zobristTable depth table player alpha beta st).1 :=
      (visitNode_bounded zobristTable (negamax_bounded zobristTable depth) player alpha beta hopen
        hinv.table).1
    refine ⟨?_, ⟨hinv'.table.put true _ _ hgood.bounded, hinv'.sum, hinv'.count⟩, hgood.bounded⟩
    rw [negamaxInts, if_neg (not_not.mpr hopen), hget]
    show (sortInts sort st₀ (availableMoves table)).bind _ = _
    rw [sortInts_eq hstart, Option.bind_some]
    show (tryMovesInts _ _ _ _ _ _ _ _ _ _).bind _ = _
    rw [heq]
    exact checked_of (inScore_iff.mpr hgood.bounded) _

end Search

/-! ## The rounds of `negamax_predict`

The history is reset once, before the first round, and goes on through all three. -/

section Rounds

variable {start : Nat} {table : U32} {player : Player}

/-- All that the rounds of one `negamax_predict` can try. -/
def predictBound : Nat := (searchDepths.map boardBound).sum

/-- The largest score for every board that three rounds can try stays inside an `int`. -/
theorem predictBound_fits : maxScore * predictBound < 2 ^ 31 := by decide +kernel

example : predictBound = 17 + 3617 + 571457 := by decide +kernel

/-- A round of `negamax_predict`, with what it leaves for the next. -/
theorem deepenInts_eq {depth : Nat} {st : SearchState} (hinv : HistoryInv start (fun _ => 0) st)
    (hhash : st.hashValue = 0) (hlimit : st.tries + boardBound depth ≤ start + predictBound) :
    deepenInts sort zobristTable table player depth st =
        some (deepen sort zobristTable table player depth st) ∧
      HistoryInv start (fun _ => 0) (deepen sort zobristTable table player depth st).2 ∧
      (deepen sort zobristTable table player depth st).2.hashValue = 0 ∧
      (deepen sort zobristTable table player depth st).2.tries ≤ st.tries + boardBound depth := by
  have hkey := (@negamax_tries sort zobristTable table player depth depth table player (-100000)
    100000 st [] (.of_zero hhash)).key
  have htries := @length_boardsTried_le sort zobristTable st depth table player (-100000) 100000
    hhash
  obtain ⟨heq, hinv', -⟩ := (negamaxInts_agrees predictBound_fits depth).agrees table player
    (-100000) 100000 st _ hinv (htries.trans hlimit)
  refine ⟨?_, ⟨tableBounded_clear, hinv'.sum, hinv'.count⟩, hkey.trans hhash, htries⟩
  rw [deepenInts, heq]
  rfl

/-- Rounds one after another, as long as the bound lasts. Induction on their depths. -/
theorem foldlM_deepenInts (depths : List Nat) :
    ∀ r : MoveT × SearchState, HistoryInv start (fun _ => 0) r.2 → r.2.hashValue = 0 →
      r.2.tries + (depths.map boardBound).sum ≤ start + predictBound →
      depths.foldlM (fun (_, st) depth => deepenInts sort zobristTable table player depth st) r =
        some (depths.foldl (fun (_, st) depth => deepen sort zobristTable table player depth st)
          r) := by
  induction depths with
  | nil => intro r _ _ _; rfl
  | cons depth rest ih =>
    intro r hinv hhash hlimit
    rw [List.map_cons, List.sum_cons] at hlimit
    obtain ⟨heq, hinv', hhash', htries⟩ := @deepenInts_eq sort zobristTable start table player depth
      r.2 hinv hhash (by omega)
    rw [List.foldlM_cons, List.foldl_cons]
    show (deepenInts sort zobristTable table player depth r.2).bind _ = _
    rw [heq]
    exact ih _ hinv' hhash' (by omega)

/-- **The move-ordering history cannot overflow.** Whatever the words are, one `negamax_predict`
whose allocations succeed goes through with its `int`s checked: every score returned, cached or
backed up is within the bound of the evaluation, every entry of the history stays inside an `int`,
and `cmp_moves` subtracts without overflow. -/
theorem negamaxPredict_ints {s : LoggedSearch} (hs : PredictReachable sort zobristTable s)
    (table : U32) (player : Player) :
    negamaxPredictInts sort zobristTable table player s.search =
      some (negamaxPredict sort zobristTable table player s.search) := by
  obtain ⟨hhash, hclear⟩ := hs.atRest
  set st : SearchState :=
    { s.search with historyScoreSum := fun _ => 0, historyCount := fun _ => 0 }
  have htable : TableBounded st.hashTable := by
    rw [show st.hashTable = zobristClear from hclear]
    exact tableBounded_clear
  have hinv : HistoryInv st.tries (fun _ => 0) st :=
    ⟨htable, fun _ => by simp [st], fun _ => by simp [st]⟩
  have hrounds := @foldlM_deepenInts sort zobristTable st.tries table player searchDepths
    (⟨0, -1⟩, st) hinv hhash (Nat.le_refl _)
  exact congrArg (fun rounds => rounds.bind fun r => some (r.1.move, r.2)) hrounds

end Rounds

/-- The first call after module load, on the empty board, with words that are all the same. -/
theorem negamaxPredict_ints_init :
    negamaxPredictInts stableSort (fun _ _ => 0) 0 .o negamaxInit.search =
      some (negamaxPredict stableSort (fun _ _ => 0) 0 .o negamaxInit.search) :=
  negamaxPredict_ints .init 0 .o

end Kxo
