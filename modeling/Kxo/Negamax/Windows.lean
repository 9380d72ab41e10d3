import Kxo.Negamax.Subproblems

/-!
# Kxo — scores kept without their window (`src/negamax.c`, `src/zobrist.c`)

`negamax` stores the score of every position it searches, but not the window `(alpha, beta)` it was
found under, and a call that finds an entry returns its score whatever its own window is. So a score
that was only a bound may be taken for a value. The plainest case is the second search of a move
(`negamax.c`, the call with `-score`): it is made to turn the null window's bound into a value,
finds the entry which the null window has just stored, and returns the bound.

`HitsSettled` says of a search that this never happens: the entry behind every answer was stored
under a window that, by the usual test of a bound, settles the window it is read under. It speaks of
windows and of the branch a call takes, and of no plain value. That such a search is right is the
content of this module: by induction over the search, every entry of the table meets the fail-soft
contract of the window it was stored under (`Found`), so every answer is sound, and the root call
returns the plain value with a move that attains it (`rootCall_eq_plain`).
-/

namespace Kxo

variable {sort : KernelSort} {zobristTable : ZobristWords}

/-! ## The branch that goes wrong

Whether the entry behind an answer settles the window it is read under is decided from windows and
the score alone, as a search that keeps the kind of a bound would decide it. -/

/-- The windows under which the moves of a position were tried. -/
def windowsTried (trace : List SearchEvent) (table : U32) (depth : Nat) (player : Player) :
    List (Int × Int) :=
  trace.filterMap fun
    | .expand t d p alpha beta =>
        if t = table ∧ d = depth ∧ p = player then some (alpha, beta) else none
    | .hit .. => none

/-- An answer from the table settles its call's window, under the window its position was searched
with: it is exact, or a bound on the right side. -/
def SearchEvent.Settled (trace : List SearchEvent) : SearchEvent → Prop
  | .hit table depth player alpha beta score =>
      ∀ w ∈ windowsTried trace table depth player,
        (FailSoft.Bound.of w.1 w.2 score).Settles alpha beta score
  | .expand .. => True

instance (trace : List SearchEvent) : DecidablePred (SearchEvent.Settled trace)
  | .hit table depth player alpha beta score =>
      inferInstanceAs (Decidable (∀ w ∈ windowsTried trace table depth player,
        (FailSoft.Bound.of w.1 w.2 score).Settles alpha beta score))
  | .expand .. => isTrue trivial

/-- No call is answered from the table by a bound that does not settle its window. -/
def HitsSettled (trace : List SearchEvent) : Prop := ∀ e ∈ trace, e.Settled trace

instance (trace : List SearchEvent) : Decidable (HitsSettled trace) :=
  inferInstanceAs (Decidable (∀ e ∈ trace, _))

/-- The windows are read off the trace. -/
theorem mem_windowsTried {trace : List SearchEvent} {table : U32} {depth : Nat} {player : Player}
    {alpha beta : Int} : (alpha, beta) ∈ windowsTried trace table depth player ↔
      .expand table depth player alpha beta ∈ trace := by
  unfold windowsTried
  rw [List.mem_filterMap]
  constructor
  · rintro ⟨e, he, hwin⟩
    cases e with
    | hit => cases hwin
    | expand t d p a b =>
      dsimp only at hwin
      split at hwin
      · rename_i hsame
        obtain ⟨rfl, rfl, rfl⟩ := hsame
        obtain ⟨rfl, rfl⟩ := Prod.mk.inj (Option.some.inj hwin)
        exact he
      · cases hwin
  · exact fun he => ⟨_, he, if_pos ⟨rfl, rfl, rfl⟩⟩

/-- What holds of a whole search holds of its beginning. -/
theorem HitsSettled.of_suffix {t t' : List SearchEvent} (h : HitsSettled t') (hsub : t <:+ t') :
    HitsSettled t := by
  intro e he
  have hlater := h e (hsub.mem he)
  cases e with
  | expand => trivial
  | hit table depth player alpha beta score =>
    rintro ⟨a, b⟩ hw
    exact hlater (a, b) (mem_windowsTried.mpr (hsub.mem (mem_windowsTried.mp hw)))

/-! ## The table during a search

`Found` goes along with the search. The windows under which an entry's position was tried are in the
trace, so nothing has to be kept in the table for the proof. -/

section Search

variable {root : U32} {p₀ : Player} {depth₀ : Nat}

variable (zobristTable root p₀ depth₀) in
/-- The invariant of a search whose answers settle their windows: they have all been sound, and
every entry that a call can find is fail-soft for a window its position was searched with. -/
structure Found (st : SearchState) : Prop where
  bounded : TableBounded st.hashTable
  sound : HitsSound st.trace
  entries : ∀ c added, CallPath zobristTable root p₀ depth₀ c added →
    ∀ score move, zobristGet st.hashTable c.hashValue = some (score, move) →
      ∃ w ∈ windowsTried st.trace c.table c.depth c.player,
        FailSoft w.1 w.2 (plain c.depth c.table c.player) score

variable (zobristTable root p₀ depth₀) in
/-- What a piece of a search leaves: the invariant, and `hash_value` as it was. -/
structure Leaves (st st' : SearchState) : Prop where
  found : Found zobristTable root p₀ depth₀ st'
  key : st'.hashValue = st.hashValue

variable (zobristTable root p₀ depth₀) in
/-- What the loop of a call relies on for the calls it makes. -/
structure ChildFound (child : ChildSearch) (depth : Nat) : Prop where
  grows : ∀ t p a b st, st.trace <:+ (child t p a b st).2.trace
  leaves : ∀ table player alpha beta st added,
    CallPath zobristTable root p₀ depth₀ ⟨table, depth, player, st.hashValue⟩ added →
    Found zobristTable root p₀ depth₀ st → alpha < beta →
    HitsSettled (child table player alpha beta st).2.trace →
    Leaves zobristTable root p₀ depth₀ st (child table player alpha beta st).2

variable {child : ChildSearch} {depth : Nat} {table : U32} {player : Player}
  {added : List (Nat × Player)} {st st' : SearchState} {alpha beta : Int}

/-- A cleared table and an empty trace. -/
theorem Found.start (hclear : st.hashTable = zobristClear) (htrace : st.trace = []) :
    Found zobristTable root p₀ depth₀ st where
  bounded := by
    rw [hclear]
    exact tableBounded_clear
  sound := by
    rw [htrace]
    exact List.forall_mem_nil _
  entries c added _ score move hget := by
    rw [hclear] at hget
    simp [zobristGet, zobristClear] at hget

/-- `hash_value` and the history tables are no part of it. -/
theorem Found.congr (h : Found zobristTable root p₀ depth₀ st)
    (htable : st'.hashTable = st.hashTable) (htrace : st'.trace = st.trace) :
    Found zobristTable root p₀ depth₀ st' where
  bounded := by
    rw [htable]
    exact h.bounded
  sound := by
    rw [htrace]
    exact h.sound
  entries := by
    rw [htable, htrace]
    exact h.entries

/-- A call that tries its moves leaves the table as it is until it returns. -/
theorem Found.expand (h : Found zobristTable root p₀ depth₀ st) :
    Found zobristTable root p₀ depth₀ (st.record (.expand table depth player alpha beta)) where
  bounded := h.bounded
  sound := List.forall_mem_cons.mpr ⟨trivial, h.sound⟩
  entries c cells hc score move hget := by
    obtain ⟨⟨a, b⟩, hw, hsoft⟩ := h.entries c cells hc score move hget
    refine ⟨(a, b), mem_windowsTried.mpr ?_, hsoft⟩
    exact List.mem_cons_of_mem _ (mem_windowsTried.mp hw)

/-- **An answer that settles its window is sound.** The entry it comes from is fail-soft for the
window it was stored under. -/
theorem Found.hit (h : Found zobristTable root p₀ depth₀ st)
    (hc : CallPath zobristTable root p₀ depth₀ ⟨table, depth, player, st.hashValue⟩ added)
    (hwin : alpha < beta) {score move : Int}
    (hget : zobristGet st.hashTable st.hashValue = some (score, move))
    (hset : HitsSettled (st.record (.hit table depth player alpha beta score)).trace) :
    Found zobristTable root p₀ depth₀ (st.record (.hit table depth player alpha beta score)) where
  bounded := h.bounded
  sound := by
    refine List.forall_mem_cons.mpr ⟨?_, h.sound⟩
    obtain ⟨⟨a, b⟩, hw, hsoft⟩ := h.entries _ added hc score move hget
    have hsettles := hset (.hit table depth player alpha beta score) (by simp) (a, b)
      (mem_windowsTried.mpr (List.mem_cons_of_mem _ (mem_windowsTried.mp hw)))
    exact hsoft.settles hwin hsettles
  entries c cells hc' score' move' hget' := by
    obtain ⟨⟨a, b⟩, hw, hsoft⟩ := h.entries c cells hc' score' move' hget'
    refine ⟨(a, b), mem_windowsTried.mpr ?_, hsoft⟩
    exact List.mem_cons_of_mem _ (mem_windowsTried.mp hw)

/-- A call that returns stores its score; the table is asked about other positions as before. -/
theorem Found.put (h : Found zobristTable root p₀ depth₀ st') (hkey : st'.hashValue = st.hashValue)
    (hz : ZobristDistinct zobristTable)
    (hc : CallPath zobristTable root p₀ depth₀ ⟨table, depth, player, st.hashValue⟩ added)
    (hwin : .expand table depth player alpha beta ∈ st'.trace) {best : MoveT}
    (hscore : |best.score| ≤ maxScore)
    (hsoft : FailSoft alpha beta (plain depth table player) best.score) :
    Found zobristTable root p₀ depth₀ (st'.put best) where
  bounded := h.bounded.put true _ _ hscore
  sound := h.sound
  entries c cells hc' score move hget := by
    simp only [SearchState.put, hkey] at hget
    by_cases hsame : st.hashValue = c.hashValue
    · -- the entry is the call's own
      obtain rfl := hc.eq_of_key hz hc' hsame
      rw [zobristGet_put_same] at hget
      obtain ⟨rfl, -⟩ := Prod.mk.inj (Option.some.inj hget)
      exact ⟨(alpha, beta), mem_windowsTried.mpr hwin, hsoft⟩
    · rw [zobristGet_put_ne _ hsame] at hget
      exact h.entries c cells hc' score move hget

/-! ## The search keeps it

The induction over the depth, with the hypothesis that the whole trace is settled; each part of the
search has a part of that trace. -/

/-- One or two searches of a move, under windows that are not empty. -/
theorem searchMove_leaves (hchild : ChildFound zobristTable root p₀ depth₀ child depth)
    (hst : Found zobristTable root p₀ depth₀ st)
    (hc : CallPath zobristTable root p₀ depth₀ ⟨table, depth, player.opp, st.hashValue⟩ added)
    {first : Bool} (hwin : alpha < beta)
    (hset : HitsSettled (searchMove child table player first alpha beta st).2.trace) :
    Leaves zobristTable root p₀ depth₀ st
      (searchMove child table player first alpha beta st).2 := by
  unfold searchMove at hset ⊢
  cases first with
  | true => exact hchild.leaves _ _ _ _ st added hc hst (by omega) hset
  | false =>
    dsimp only at hset ⊢
    rw [if_neg Bool.false_ne_true] at hset ⊢
    have hnull := hchild.leaves table player.opp (-alpha - 1) (-alpha) st added hc hst (by omega)
    split at hset
    case isTrue hin =>
      rw [if_pos hin]
      -- the second search is made with the same key
      have hfirst := hnull (hset.of_suffix (hchild.grows ..))
      rw [← hfirst.key] at hc
      have hagain := hchild.leaves _ _ _ _ _ added hc hfirst.found (by omega) hset
      exact ⟨hagain.found, hagain.key.trans hfirst.key⟩
    case isFalse hout =>
      rw [if_neg hout]
      exact hnull hset

/-- One turn of the loop: the move's word goes into the key and comes out again. -/
theorem tryMove_leaves (hchild : ChildFound zobristTable root p₀ depth₀ child depth)
    (hst : Found zobristTable root p₀ depth₀ st)
    (hc : CallPath zobristTable root p₀ depth₀ ⟨table, depth + 1, player, st.hashValue⟩ added)
    {m : Nat} (hm : m ∈ availableMoves table) {first : Bool} (hwin : alpha < beta)
    (hset : HitsSettled (tryMove zobristTable child player table m first alpha beta st).2.trace) :
    Leaves zobristTable root p₀ depth₀ st
      (tryMove zobristTable child player table m first alpha beta st).2 := by
  have hstart : Found zobristTable root p₀ depth₀ (st.xorHash (zobristTable m player)) :=
    hst.congr rfl rfl
  have hsearch := searchMove_leaves hchild hstart (hc.move hm) hwin hset
  refine ⟨hsearch.found.congr rfl rfl, ?_⟩
  exact (congrArg (· ^^^ zobristTable m player) hsearch.key).trans
    (xor_word_twice st.hashValue (zobristTable m player))

/-- The loop, by induction on the moves still to try; a window that closes ends it. -/
theorem tryMoves_leaves (hchild : ChildFound zobristTable root p₀ depth₀ child depth)
    (moves : List Nat) :
    ∀ (first : Bool) (alpha : Int) (best : MoveT) (st : SearchState),
      (∀ m ∈ moves, m ∈ availableMoves table) → Found zobristTable root p₀ depth₀ st →
      CallPath zobristTable root p₀ depth₀ ⟨table, depth + 1, player, st.hashValue⟩ added →
      alpha < beta →
      HitsSettled
        (tryMoves zobristTable child player beta moves first table alpha best st).2.trace →
      Leaves zobristTable root p₀ depth₀ st
        (tryMoves zobristTable child player beta moves first table alpha best st).2 := by
  induction moves with
  | nil =>
    intro first alpha best st _ hst _ _ _
    exact ⟨hst, rfl⟩
  | cons m rest ih =>
    intro first alpha best st hsub hst hc hwin hset
    have hm : m ∈ availableMoves table := hsub m (by simp)
    have hrest : ∀ m' ∈ rest, m' ∈ availableMoves table := fun m' hm' => hsub m' (by simp [hm'])
    rw [tryMoves_cons zobristTable hm] at hset ⊢
    dsimp only at hset ⊢
    split at hset
    case isTrue hcut =>
      rw [if_pos hcut]
      exact tryMove_leaves hchild hst hc hm hwin hset
    case isFalse hgo =>
      rw [if_neg hgo]
      -- what is recorded later stands before what this turn has recorded
      have hturn := tryMove_leaves hchild hst hc hm hwin
        (hset.of_suffix (tryMoves_suffix zobristTable hchild.grows _ _ _ _ _ _ _ hrest))
      have hlater := ih false _ _ _ hrest hturn.found (by rw [hturn.key]; exact hc) (by omega) hset
      exact ⟨hlater.found, hlater.key.trans hturn.key⟩

/-- An unfinished position, searched: its answers were sound, so its score is fail-soft for the
window, and the entry it stores with it. -/
theorem visitNode_leaves (hz : ZobristDistinct zobristTable)
    (hchild : ChildFound zobristTable root p₀ depth₀ (negamax sort zobristTable depth) depth)
    (hst : Found zobristTable root p₀ depth₀ st)
    (hc : CallPath zobristTable root p₀ depth₀ ⟨table, depth + 1, player, st.hashValue⟩ added)
    (hopen : checkWin table = cellEmpty) (hwin : alpha < beta)
    (hset : HitsSettled (visitNode sort zobristTable depth table player alpha beta st).2.trace) :
    Leaves zobristTable root p₀ depth₀ st
      ((visitNode sort zobristTable depth table player alpha beta st).2.put
        (visitNode sort zobristTable depth table player alpha beta st).1) := by
  have hloop : Leaves zobristTable root p₀ depth₀
      (st.record (.expand table (depth + 1) player alpha beta))
      (visitNode sort zobristTable depth table player alpha beta st).2 :=
    tryMoves_leaves hchild _ true alpha _ _ (fun m hm => mem_sort_availableMoves.mp hm) hst.expand
      hc hwin hset
  have hscore := (@visitNode_bounded sort zobristTable depth (negamax_bounded zobristTable depth)
    table player alpha beta st hopen hst.bounded).1.bounded
  have hsoft := (visitNode_sound zobristTable (negamax_failSoft zobristTable depth) hwin hopen
    hst.bounded hloop.found.sound).1
  -- the call has been written down before its moves were tried
  have hown : .expand table (depth + 1) player alpha beta ∈
      (visitNode sort zobristTable depth table player alpha beta st).2.trace := by
    have hgrows := tryMoves_suffix zobristTable hchild.grows player beta
      (sort.sort (cmpMoves (st.record (.expand table (depth + 1) player alpha beta)))
        (availableMoves table))
      true alpha ⟨-10000, -1⟩ (st.record (.expand table (depth + 1) player alpha beta))
      fun m hm => mem_sort_availableMoves.mp hm
    exact hgrows.mem (List.mem_cons_self ..)
  exact ⟨hloop.found.put hloop.key hz hc hown hscore hsoft, hloop.key⟩

/-- **Every call keeps the invariant**, as long as its answers settle their windows. -/
theorem negamax_leaves (hz : ZobristDistinct zobristTable) (depth : Nat) :
    ChildFound zobristTable root p₀ depth₀ (negamax sort zobristTable depth) depth := by
  refine ⟨negamax_suffix zobristTable depth, fun table player alpha beta st added => ?_⟩
  refine negamax_rule zobristTable (fun depth table player alpha beta st r => ∀ added,
    CallPath zobristTable root p₀ depth₀ ⟨table, depth, player, st.hashValue⟩ added →
    Found zobristTable root p₀ depth₀ st → alpha < beta → HitsSettled r.2.trace →
      Leaves zobristTable root p₀ depth₀ st r.2) ?_ ?_ ?_ depth table player alpha beta st added
  · intro depth table player alpha beta st _ added _ hst _ _
    exact ⟨hst, rfl⟩
  · intro depth table player alpha beta st score move _ hget added hc hst hwin hset
    exact ⟨hst.hit hc hwin hget hset, rfl⟩
  · intro depth table player alpha beta st ih hopen _ added hc hst hwin hset
    have hchild : ChildFound zobristTable root p₀ depth₀ (negamax sort zobristTable depth) depth :=
      ⟨negamax_suffix zobristTable depth, ih⟩
    exact visitNode_leaves hz hchild hst hc hopen hwin hset

end Search

/-! ## The root call

At the root the window is wider than any score, so fail-soft means exact. -/

/-- A search whose answers settle their windows is answered soundly throughout. -/
theorem rootCall_hitsSound (hz : ZobristDistinct zobristTable) {d : Nat} {table : U32}
    {player : Player} {historyScoreSum historyCount : Nat → Int}
    (hset : HitsSettled
      (rootCall sort zobristTable d table player historyScoreSum historyCount).2.trace) :
    HitsSound (rootCall sort zobristTable d table player historyScoreSum historyCount).2.trace := by
  have hroot := (@negamax_leaves sort zobristTable table player d hz d).leaves
    table player (-100000) 100000 (rootState historyScoreSum historyCount) [] (.of_zero rfl)
    (.start rfl rfl) (by omega) hset
  exact hroot.found.sound

/-- The state with older events behind its own. -/
def SearchState.after (st : SearchState) (older : List SearchEvent) : SearchState :=
  { st with trace := st.trace ++ older }

/-- A search that only adds to the trace. -/
def IgnoresTrace (child : ChildSearch) : Prop := ∀ t p a b st older,
  child t p a b (st.after older) = ((child t p a b st).1, (child t p a b st).2.after older)

/-- One or two searches of a move do not read the trace. -/
theorem searchMove_after {child : ChildSearch} (hchild : IgnoresTrace child) (table : U32)
    (player : Player) (first : Bool) (alpha beta : Int) (st : SearchState)
    (older : List SearchEvent) :
    searchMove child table player first alpha beta (st.after older) =
      ((searchMove child table player first alpha beta st).1,
        (searchMove child table player first alpha beta st).2.after older) := by
  unfold IgnoresTrace at hchild
  unfold searchMove
  cases first with
  | true => simp only [if_true, hchild]
  | false =>
    simp only [Bool.false_eq_true, if_false, hchild]
    split
    case isTrue hin => rfl
    case isFalse hout => rfl

/-- Nor does the loop. Induction on the moves. -/
theorem tryMoves_after {child : ChildSearch} (hchild : IgnoresTrace child) (player : Player)
    (beta : Int) (older : List SearchEvent) (moves : List Nat) :
    ∀ (first : Bool) (table : U32) (alpha : Int) (best : MoveT) (st : SearchState),
      tryMoves zobristTable child player beta moves first table alpha best (st.after older) =
        ((tryMoves zobristTable child player beta moves first table alpha best st).1,
          (tryMoves zobristTable child player beta moves first table alpha best st).2.after
            older) := by
  induction moves with
  | nil =>
    intro first table alpha best st
    rfl
  | cons m rest ih =>
    intro first table alpha best st
    have hmove := searchMove_after hchild (valSetCell table m player.cell) player first alpha beta
      (st.xorHash (zobristTable m player)) older
    have hword : (st.after older).xorHash (zobristTable m player) =
        (st.xorHash (zobristTable m player)).after older := rfl
    simp only [tryMoves, hword, hmove]
    generalize searchMove child (valSetCell table m player.cell) player first alpha beta
      (st.xorHash (zobristTable m player)) = r
    by_cases hcut : beta ≤ if alpha < r.1 then r.1 else alpha
    · rw [if_pos hcut, if_pos hcut]
      rfl
    · rw [if_neg hcut, if_neg hcut]
      exact ih _ _ _ _ ((r.2.addHistory m r.1).xorHash (zobristTable m player))

/-- Nor does any call. Induction on its depth. -/
theorem negamax_after (depth : Nat) : IgnoresTrace (negamax sort zobristTable depth) := by
  induction depth with
  | zero =>
    intro table player alpha beta st older
    rfl
  | succ depth ih =>
    intro table player alpha beta st older
    by_cases hopen : checkWin table = cellEmpty
    · cases hget : zobristGet st.hashTable st.hashValue with
      | some entry =>
        obtain ⟨score, move⟩ := entry
        rw [negamax_hit zobristTable hopen hget, negamax_hit zobristTable hopen]
        · rfl
        · exact hget
      | none =>
        rw [negamax_miss zobristTable hopen hget, negamax_miss zobristTable hopen]
        · have hloop := @tryMoves_after zobristTable _ ih player beta older
            (sort.sort (cmpMoves (st.record (.expand table (depth + 1) player alpha beta)))
              (availableMoves table)) true table alpha ⟨-10000, -1⟩
            (st.record (.expand table (depth + 1) player alpha beta))
          have hvisit : visitNode sort zobristTable depth table player alpha beta (st.after older) =
              ((visitNode sort zobristTable depth table player alpha beta st).1,
                (visitNode sort zobristTable depth table player alpha beta st).2.after older) :=
            hloop
          rw [hvisit]
          rfl
        · exact hget
    · rw [negamax_finished zobristTable hopen, negamax_finished zobristTable hopen]

/-! ## `negamax_predict`'s last round

The rounds before the last leave their mark in the history tables only.
-/

/-- The globals that the last round of `negamax_predict` starts with. -/
def beforeLastRound (sort : KernelSort) (zobristTable : ZobristWords) (table : U32)
    (player : Player) (st : SearchState) : SearchState :=
  searchDepths.dropLast.foldl (fun st depth => (deepen sort zobristTable table player depth st).2)
    { st with historyScoreSum := fun _ => 0, historyCount := fun _ => 0 }

/-- The root call of the last round, which gives the move. -/
def lastRound (sort : KernelSort) (zobristTable : ZobristWords) (table : U32) (player : Player)
    (st : SearchState) : MoveT × SearchState :=
  rootCall sort zobristTable maxSearchDepth table player
    (beforeLastRound sort zobristTable table player st).historyScoreSum
    (beforeLastRound sort zobristTable table player st).historyCount

end Kxo
