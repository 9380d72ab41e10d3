import Kxo.Game.Symmetry
import Kxo.Negamax.Windows

/-!
# Kxo — a win on the board (`src/negamax.c`, `include/util.h`)

`negamax` evaluates a finished board like any other, by `get_score`: a completed line is worth 100,
whoever moves next and however late it comes. So a win on the board is one evaluation among others,
and another cell may promise a greater one. What the move of `negamax_predict` is worth is said
twice:

* **`negamaxPredict_isMax`**: as long as the table's answers settle their windows
  (`Kxo/Negamax/Windows.lean`), the move has the greatest value that six plies of plain negamax see,
  so a win is passed over only for a cell worth at least as much;
* **`negamaxPredict_secures`**: whatever the table answers, the move leaves, after every reply, a
  line of play that ends on a board worth at least as much as the win. Every score that the search
  returns or caches is the evaluation of a board some line of play ends in (`negamax_attains`), and
  the root call prefers a cell to a winning one only when every reply to it has been tried.
-/

namespace Kxo

variable {sort : KernelSort} {zobristTable : ZobristWords}

/-! ## Lines of play

What the search sees of the game: at most so many moves, to a board that is finished or where the
depth ends. `Attains` says that a score is the evaluation of such a board. -/

/-- A line of play: at most `depth` moves from `table` in turn, up to a finished board, or as many
as that. -/
inductive PlayedOut : Nat → U32 → Player → U32 → Prop where
  | finished {depth : Nat} {table : U32} {player : Player} :
      checkWin table ≠ cellEmpty → PlayedOut depth table player table
  | horizon {table : U32} {player : Player} : PlayedOut 0 table player table
  | move {depth : Nat} {table final : U32} {player : Player} {m : Nat} :
      checkWin table = cellEmpty → m ∈ availableMoves table →
      PlayedOut depth (valSetCell table m player.cell) player.opp final →
      PlayedOut (depth + 1) table player final

/-- `v` is the evaluation, for `player`, of a board that some line of play ends in. -/
def Attains (depth : Nat) (table : U32) (player : Player) (v : Int) : Prop :=
  ∃ final, PlayedOut depth table player final ∧ getScore final player = v

/-- The cell completes a line of the player. -/
def Wins (table : U32) (player : Player) (m : Nat) : Prop :=
  m ∈ availableMoves table ∧ checkWin (valSetCell table m player.cell) = player.cell

instance (table : U32) (player : Player) (m : Nat) : Decidable (Wins table player m) :=
  inferInstanceAs (Decidable (_ ∧ _))

/-- Taking `m`, the player ends the game with an evaluation of at least `v`, or finds such a line of
play, of at most `depth` more moves, after every reply. -/
structure Secures (depth : Nat) (table : U32) (player : Player) (m : Nat) (v : Int) : Prop where
  finished : checkWin (valSetCell table m player.cell) ≠ cellEmpty →
    v ≤ getScore (valSetCell table m player.cell) player
  replies : checkWin (valSetCell table m player.cell) = cellEmpty →
    ∀ r ∈ availableMoves (valSetCell table m player.cell), ∃ final,
      PlayedOut depth (valSetCell (valSetCell table m player.cell) r player.opp.cell) player final ∧
        v ≤ getScore final player

section LinesOfPlay

variable {depth : Nat} {table final : U32} {player : Player} {m : Nat} {v : Int}

/-- Moves keep a board valid, and so do lines of play. -/
theorem PlayedOut.valid (h : PlayedOut depth table player final) (hvalid : ValidBoard table) :
    ValidBoard final := by
  induction h with
  | finished => exact hvalid
  | horizon => exact hvalid
  | move _ _ _ ih => exact ih (hvalid.valSetCell _ _)

/-- A finished board is the end of its only line of play. -/
theorem Attains.eq_of_finished (h : Attains depth table player v)
    (hend : checkWin table ≠ cellEmpty) : v = getScore table player := by
  obtain ⟨final, hplay, rfl⟩ := h
  cases hplay with
  | finished => rfl
  | horizon => rfl
  | move hopen => exact absurd hopen hend

/-- Where no move is made the board itself is the end of the line. -/
theorem Attains.leaf (hend : depth = 0 ∨ checkWin table ≠ cellEmpty) :
    Attains depth table player (getScore table player) := by
  rcases hend with rfl | hend
  · exact ⟨table, .horizon, rfl⟩
  · exact ⟨table, .finished hend, rfl⟩

/-- An evaluation after a move, seen by the player who makes it. -/
theorem Attains.move (hvalid : ValidBoard table) (hopen : checkWin table = cellEmpty)
    (hm : m ∈ availableMoves table)
    (h : Attains depth (valSetCell table m player.cell) player.opp (-v)) :
    Attains (depth + 1) table player v := by
  obtain ⟨final, hplay, hscore⟩ := h
  refine ⟨final, .move hopen hm hplay, ?_⟩
  rw [getScore_opp (hplay.valid (hvalid.valSetCell m player))] at hscore
  exact neg_inj.mp hscore

/-- What a line of play attains is an evaluation, and so bounded. -/
theorem Attains.bounded (h : Attains depth table player v) : |v| ≤ maxScore := by
  obtain ⟨final, _, rfl⟩ := h
  exact abs_getScore_le final player

/-- A win is worth its evaluation, at any depth. -/
theorem moveValue_of_wins (hvalid : ValidBoard table) (h : Wins table player m) :
    moveValue depth table player m = getScore (valSetCell table m player.cell) player := by
  have hend : checkWin (valSetCell table m player.cell) ≠ cellEmpty := by
    rw [h.2]
    exact player.cell_ne_empty
  rw [moveValue, plain_leaf (.inr hend), getScore_opp (hvalid.valSetCell m player), neg_neg]

/-- What secures a value secures a lower one. -/
theorem Secures.mono (h : Secures depth table player m v) {w : Int} (hle : w ≤ v) :
    Secures depth table player m w where
  finished hend := hle.trans (h.finished hend)
  replies hopen r hr := by
    obtain ⟨final, hplay, hscore⟩ := h.replies hopen r hr
    exact ⟨final, hplay, hle.trans hscore⟩

end LinesOfPlay

/-! ## Every score is the evaluation of a line of play

Returned, cached or read back, under any window: a score is never made up, only its sign is turned
on the way up. This needs nothing of the windows. -/

section Attained

variable {root : U32} {p₀ : Player} {depth₀ : Nat}

variable (zobristTable root p₀ depth₀) in
/-- Every entry that a call can find is the evaluation of a line of play from its board. -/
def TableAttains (t : ZobristTable) : Prop :=
  ∀ c added, CallPath zobristTable root p₀ depth₀ c added →
    ∀ score move, zobristGet t c.hashValue = some (score, move) →
      Attains c.depth c.table c.player score

variable (zobristTable root p₀ depth₀) in
/-- What a piece of a search does to the globals, when its calls are on boards with the cells
`added`: it changes the answers for such boards only. -/
structure Kept (added : List (Nat × Player)) (st st' : SearchState) : Prop where
  table : TableAttains zobristTable root p₀ depth₀ st'.hashTable
  key : st'.hashValue = st.hashValue
  frame : ∀ key, (∀ c added', CallPath zobristTable root p₀ depth₀ c added' → added ⊆ added' →
    c.hashValue ≠ key) → zobristGet st'.hashTable key = zobristGet st.hashTable key

variable {depth : Nat} {table : U32} {player : Player} {added added' : List (Nat × Player)}
  {st st' st'' : SearchState} {alpha beta : Int}

/-- A cleared table has no entries. -/
theorem TableAttains.of_clear {t : ZobristTable} (h : t = zobristClear) :
    TableAttains zobristTable root p₀ depth₀ t := by
  intro c added _ score move hget
  rw [h] at hget
  simp [zobristGet, zobristClear] at hget

/-- Every call is for a valid board. -/
theorem CallPath.valid (hvalid : ValidBoard root) {c : Call}
    (h : CallPath zobristTable root p₀ depth₀ c added) : ValidBoard c.table := by
  induction h with
  | root => exact hvalid
  | move _ _ ih => exact ih.valSetCell _ _

/-- Nothing is done. -/
theorem Kept.refl (ht : TableAttains zobristTable root p₀ depth₀ st.hashTable) :
    Kept zobristTable root p₀ depth₀ added st st :=
  ⟨ht, rfl, fun _ _ => rfl⟩

/-- One piece after another. -/
theorem Kept.trans (h : Kept zobristTable root p₀ depth₀ added st st')
    (h' : Kept zobristTable root p₀ depth₀ added st' st'') :
    Kept zobristTable root p₀ depth₀ added st st'' :=
  ⟨h'.table, h'.key.trans h.key, fun key hkey => (h'.frame key hkey).trans (h.frame key hkey)⟩

/-- Calls on boards with more cells are calls on boards with these. -/
theorem Kept.mono (h : Kept zobristTable root p₀ depth₀ added' st st') (hsub : added ⊆ added') :
    Kept zobristTable root p₀ depth₀ added st st' :=
  ⟨h.table, h.key, fun key hkey =>
    h.frame key fun c cells hc hcells => hkey c cells hc fun _ ha => hcells (hsub ha)⟩

/-- A call stores such an evaluation. -/
theorem Kept.put (h : Kept zobristTable root p₀ depth₀ added st st')
    (hz : ZobristDistinct zobristTable)
    (hc : CallPath zobristTable root p₀ depth₀ ⟨table, depth, player, st.hashValue⟩ added)
    {best : MoveT} (hbest : Attains depth table player best.score) :
    Kept zobristTable root p₀ depth₀ added st (st'.put best) where
  table c added' hc' score move hget := by
    simp only [SearchState.put, h.key] at hget
    by_cases hkey : st.hashValue = c.hashValue
    · -- the entry is the call's own
      obtain rfl := hc.eq_of_key hz hc' hkey
      rw [zobristGet_put_same] at hget
      obtain ⟨rfl, _⟩ := Prod.mk.inj (Option.some.inj hget)
      exact hbest
    · rw [zobristGet_put_ne _ hkey] at hget
      exact h.table c added' hc' score move hget
  key := h.key
  frame key hkey := by
    simp only [SearchState.put, h.key]
    rw [zobristGet_put_ne _ (hkey _ added hc fun _ ha => ha)]
    exact h.frame key hkey

variable (zobristTable root p₀ depth₀) in
/-- What the loop of a call relies on for the calls it makes. -/
def ChildAttains (child : ChildSearch) (depth : Nat) : Prop :=
  ∀ table player alpha beta st added,
    CallPath zobristTable root p₀ depth₀ ⟨table, depth, player, st.hashValue⟩ added →
    TableAttains zobristTable root p₀ depth₀ st.hashTable →
    Attains depth table player (child table player alpha beta st).1.score ∧
      Kept zobristTable root p₀ depth₀ added st (child table player alpha beta st).2

variable {child : ChildSearch}

/-- One or two searches of a move: the score returned last. -/
theorem searchMove_attains (hchild : ChildAttains zobristTable root p₀ depth₀ child depth)
    (ht : TableAttains zobristTable root p₀ depth₀ st.hashTable)
    (hc : CallPath zobristTable root p₀ depth₀ ⟨table, depth, player.opp, st.hashValue⟩ added)
    (first : Bool) (alpha beta : Int) :
    Attains depth table player.opp (-(searchMove child table player first alpha beta st).1) ∧
      Kept zobristTable root p₀ depth₀ added st
        (searchMove child table player first alpha beta st).2 := by
  unfold searchMove
  cases first with
  | true =>
    obtain ⟨hscore, hkept⟩ := hchild table player.opp (-beta) (-alpha) st added hc ht
    exact ⟨by simpa using hscore, hkept⟩
  | false =>
    obtain ⟨hscore, hkept⟩ := hchild table player.opp (-alpha - 1) (-alpha) st added hc ht
    dsimp only
    rw [if_neg Bool.false_ne_true]
    split
    · -- the second search finds the same key
      rw [← hkept.key] at hc
      obtain ⟨hscore', hkept'⟩ := hchild table player.opp (-beta) _ _ added hc hkept.table
      exact ⟨by simpa using hscore', hkept.trans hkept'⟩
    · exact ⟨by simpa using hscore, hkept⟩

/-- One turn of the loop. -/
theorem tryMove_attains (hchild : ChildAttains zobristTable root p₀ depth₀ child depth)
    (ht : TableAttains zobristTable root p₀ depth₀ st.hashTable)
    (hc : CallPath zobristTable root p₀ depth₀ ⟨table, depth + 1, player, st.hashValue⟩ added)
    {m : Nat} (hm : m ∈ availableMoves table) (first : Bool) (alpha beta : Int) :
    Attains depth (valSetCell table m player.cell) player.opp
        (-(tryMove zobristTable child player table m first alpha beta st).1) ∧
      Kept zobristTable root p₀ depth₀ ((m, player) :: added) st
        (tryMove zobristTable child player table m first alpha beta st).2 := by
  have hstart : TableAttains zobristTable root p₀ depth₀
      (st.xorHash (zobristTable m player)).hashTable := ht
  obtain ⟨hscore, hkept⟩ := searchMove_attains hchild hstart (hc.move hm) first alpha beta
  refine ⟨hscore, hkept.table, ?_, hkept.frame⟩
  -- the word of the move is taken out of the key again
  exact (congrArg (· ^^^ zobristTable m player) hkept.key).trans
    (xor_word_twice st.hashValue (zobristTable m player))

variable (zobristTable root p₀ depth₀) in
/-- The loop of a call with moves still to try: each of the others has been tried, and its score is
at most the best one. -/
structure Scored (depth : Nat) (table : U32) (player : Player) (added : List (Nat × Player))
    (alpha₀ : Int) (st₀ : SearchState) (rest : List Nat) (first : Bool) (alpha : Int) (best : MoveT)
    (st : SearchState) : Prop where
  kept : Kept zobristTable root p₀ depth₀ added st₀ st
  window : alpha ≤ max alpha₀ best.score
  attained : first = true ∧ best = ⟨-10000, -1⟩ ∨ ∃ m ∈ availableMoves table, best.move = m ∧
    Attains depth (valSetCell table m player.cell) player.opp (-best.score)
  tried : ∀ m ∈ availableMoves table, m ∈ rest ∨
    ∃ v ≤ best.score, Attains depth (valSetCell table m player.cell) player.opp (-v)

/-- Before the first move. -/
theorem Scored.start (ht : TableAttains zobristTable root p₀ depth₀ st.hashTable) (alpha : Int)
    {moves : List Nat} (hmoves : ∀ m ∈ availableMoves table, m ∈ moves) :
    Scored zobristTable root p₀ depth₀ depth table player added alpha st moves true alpha
      ⟨-10000, -1⟩ st :=
  ⟨.refl ht, le_max_left _ _, .inl ⟨rfl, rfl⟩, fun m hm => .inl (hmoves m hm)⟩

/-- One turn of the loop. -/
theorem Scored.step (hchild : ChildAttains zobristTable root p₀ depth₀ child depth)
    (hc : CallPath zobristTable root p₀ depth₀ ⟨table, depth + 1, player, st.hashValue⟩ added)
    {alpha₀ : Int} {m : Nat} {rest : List Nat} {first : Bool} {best : MoveT}
    (hm : m ∈ availableMoves table)
    (h : Scored zobristTable root p₀ depth₀ depth table player added alpha₀ st (m :: rest) first
      alpha best st') (beta : Int) :
    Scored zobristTable root p₀ depth₀ depth table player added alpha₀ st rest false
      (max alpha (tryMove zobristTable child player table m first alpha beta st').1)
      (better best m (tryMove zobristTable child player table m first alpha beta st').1)
      (tryMove zobristTable child player table m first alpha beta st').2 := by
  rw [← h.kept.key] at hc
  obtain ⟨hscore, hkept⟩ := tryMove_attains hchild h.kept.table hc hm first alpha beta
  generalize tryMove zobristTable child player table m first alpha beta st' = r at hscore hkept
  have hlow := abs_le.mp hscore.bounded
  refine ⟨h.kept.trans (hkept.mono (List.subset_cons_self _ _)), ?_, .inr ?_, fun m' hm' => ?_⟩
  · have hwindow := h.window
    rw [better_score]
    omega
  · -- the first move beats the sentinel
    unfold better
    rcases h.attained with ⟨_, rfl⟩ | hbest
    · unfold maxScore at hlow
      rw [if_pos (by dsimp only; omega)]
      exact ⟨m, hm, rfl, hscore⟩
    · split
      · exact ⟨m, hm, rfl, hscore⟩
      · exact hbest
  · rw [better_score]
    rcases h.tried m' hm' with hrest | ⟨v, hle, hv⟩
    · rcases List.mem_cons.mp hrest with rfl | hrest
      · exact .inr ⟨r.1, le_max_right _ _, hscore⟩
      · exact .inl hrest
    · exact .inr ⟨v, hle.trans (le_max_left _ _), hv⟩

variable (zobristTable root p₀ depth₀) in
/-- What the loop of a call returns: the score of a move; and if it lies below the window's end,
every move has been tried and none scored more. -/
structure NodeScored (depth : Nat) (table : U32) (player : Player) (added : List (Nat × Player))
    (alpha beta : Int) (st : SearchState) (r : MoveT × SearchState) : Prop where
  kept : Kept zobristTable root p₀ depth₀ added st r.2
  attained : ∃ m ∈ availableMoves table, r.1.move = m ∧
    Attains depth (valSetCell table m player.cell) player.opp (-r.1.score)
  tried : max alpha r.1.score < beta → ∀ m ∈ availableMoves table,
    ∃ v ≤ r.1.score, Attains depth (valSetCell table m player.cell) player.opp (-v)

/-- The whole loop of a call. `tryMoves_rule` with `Scored`. -/
theorem visitNode_scored
    (hchild : ChildAttains zobristTable root p₀ depth₀ (negamax sort zobristTable depth) depth)
    (ht : TableAttains zobristTable root p₀ depth₀ st.hashTable)
    (hc : CallPath zobristTable root p₀ depth₀ ⟨table, depth + 1, player, st.hashValue⟩ added)
    (hopen : checkWin table = cellEmpty) (alpha beta : Int) :
    NodeScored zobristTable root p₀ depth₀ depth table player added alpha beta st
      (visitNode sort zobristTable depth table player alpha beta st) := by
  set start := st.record (.expand table (depth + 1) player alpha beta)
  have hc' : CallPath zobristTable root p₀ depth₀ ⟨table, depth + 1, player, start.hashValue⟩
    added := hc
  have ht' : TableAttains zobristTable root p₀ depth₀ start.hashTable := ht
  have hloop₀ : Scored zobristTable root p₀ depth₀ depth table player added alpha start
      (sort.sort (cmpMoves start) (availableMoves table)) true alpha ⟨-10000, -1⟩ start :=
    .start ht' alpha fun m hm => mem_sort_availableMoves.mpr hm
  obtain ⟨rest, first, alpha', hfirst, hend, hloop⟩ := tryMoves_rule zobristTable
    (negamax sort zobristTable depth) beta
    (Scored zobristTable root p₀ depth₀ depth table player added alpha start)
    (fun m rest first alpha' best st' hm h => h.step hchild hc' hm beta) _ true alpha
    ⟨-10000, -1⟩ start (fun m hm => mem_sort_availableMoves.mp hm) hloop₀
  have hstarted : first ≠ true := fun h => sort_availableMoves_ne_nil hopen (hfirst h).2
  refine ⟨⟨hloop.kept.table, hloop.kept.key, hloop.kept.frame⟩,
    hloop.attained.resolve_left fun h => hstarted h.1, fun hwin m hm => ?_⟩
  refine (hloop.tried m hm).resolve_left fun hrest => ?_
  rcases hend with rfl | hcut
  · simp at hrest
  · exact absurd (hcut.trans hloop.window) (not_le_of_gt hwin)

/-- **Every score of a search is the evaluation of a line of play**, whatever the windows and the
answers of the table. -/
theorem negamax_attains (hz : ZobristDistinct zobristTable) (hvalid : ValidBoard root)
    (depth : Nat) :
    ChildAttains zobristTable root p₀ depth₀ (negamax sort zobristTable depth) depth := by
  have hrule := @negamax_rule sort zobristTable (fun depth table player _ _ st r => ∀ added,
    CallPath zobristTable root p₀ depth₀ ⟨table, depth, player, st.hashValue⟩ added →
    TableAttains zobristTable root p₀ depth₀ st.hashTable →
    Attains depth table player r.1.score ∧ Kept zobristTable root p₀ depth₀ added st r.2)
  refine hrule ?_ ?_ ?_ depth
  · intro depth table player alpha beta st hend added _ ht
    exact ⟨.leaf hend, .refl ht⟩
  · intro depth table player alpha beta st score move _ hget added hc ht
    exact ⟨ht _ added hc score move hget, ht, rfl, fun _ _ => rfl⟩
  · intro depth table player alpha beta st ih hopen _ added hc ht
    obtain ⟨hkept, ⟨m, hm, _, hscore⟩, _⟩ := visitNode_scored ih ht hc hopen alpha beta
    have hattains := hscore.move (hc.valid hvalid) hopen hm
    exact ⟨hattains, hkept.put hz hc hattains⟩

end Attained

/-! ## The root call

What a score of the root's loop promises of the game needs every reply to have been looked at. That
is so when the score lies above `alpha`: the move's search has then ended without a cutoff. And only
such a score takes the best's place, so only such a one can displace a winning cell. -/

section Root

/-- A call that tries its moves finds its answer afterwards. -/
theorem zobristGet_negamax_miss {depth : Nat} {table : U32} {player : Player} {alpha beta : Int}
    {st : SearchState} (h : checkWin table = cellEmpty)
    (hget : zobristGet st.hashTable st.hashValue = none) :
    zobristGet (negamax sort zobristTable (depth + 1) table player alpha beta st).2.hashTable
        (negamax sort zobristTable (depth + 1) table player alpha beta st).2.hashValue =
      some ((negamax sort zobristTable (depth + 1) table player alpha beta st).1.score,
        (negamax sort zobristTable (depth + 1) table player alpha beta st).1.move) := by
  rw [negamax_miss zobristTable h hget]
  exact zobristGet_put_same ..

/-- A move tried for the first time is scored by one call: its second search reads the answer
back. -/
theorem searchMove_miss {depth : Nat} {table : U32} {player : Player} {alpha beta : Int}
    {st : SearchState} (h : checkWin table = cellEmpty)
    (hget : zobristGet st.hashTable st.hashValue = none) (hwin : alpha < beta) (first : Bool) :
    ∃ a < -alpha, (searchMove (negamax sort zobristTable (depth + 1)) table player first alpha beta
        st).1 =
      -(negamax sort zobristTable (depth + 1) table player.opp a (-alpha) st).1.score := by
  unfold searchMove
  cases first with
  | true => exact ⟨-beta, by omega, rfl⟩
  | false =>
    refine ⟨-alpha - 1, by omega, ?_⟩
    dsimp only
    rw [if_neg Bool.false_ne_true]
    split
    · rw [negamax_hit zobristTable h (zobristGet_negamax_miss h hget)]
    · rfl

variable {depth : Nat} {table : U32} {player : Player} {st st₀ : SearchState} {alpha beta : Int}
  {m : Nat} {first : Bool}

/-- **What a score above the window promises**: the call that found it has tried every reply. -/
theorem tryMove_secures (hz : ZobristDistinct zobristTable) (hvalid : ValidBoard table)
    (ht : TableAttains zobristTable table player (depth + 2) st.hashTable)
    (hc : CallPath zobristTable table player (depth + 2)
      ⟨table, depth + 2, player, st.hashValue⟩ [])
    (hm : m ∈ availableMoves table)
    (hfresh : zobristGet st.hashTable (st.hashValue ^^^ zobristTable m player) = none)
    (hwin : alpha < beta)
    (hscore : alpha < (tryMove zobristTable (negamax sort zobristTable (depth + 1)) player table m
      first alpha beta st).1) :
    Secures depth table player m (tryMove zobristTable (negamax sort zobristTable (depth + 1))
      player table m first alpha beta st).1 where
  finished hend := by
    have hsearch := @negamax_attains sort zobristTable table player (depth + 2) hz hvalid
      (depth + 1)
    obtain ⟨hattains, _⟩ := tryMove_attains hsearch ht hc hm first alpha beta
    have heq := hattains.eq_of_finished hend
    rw [getScore_opp (hvalid.valSetCell m player)] at heq
    omega
  replies hopen r hr := by
    -- the call is made with the move's word in the key
    set start := st.xorHash (zobristTable m player)
    have hmiss : zobristGet start.hashTable start.hashValue = none := hfresh
    obtain ⟨a, ha, hsame⟩ := @searchMove_miss sort zobristTable depth
      (valSetCell table m player.cell) player alpha beta start hopen hmiss hwin first
    have hnode := @visitNode_scored sort zobristTable table player (depth + 2) depth
      (valSetCell table m player.cell) player.opp _ start (negamax_attains hz hvalid depth) ht
      (hc.move hm) hopen a (-alpha)
    rw [negamax_miss zobristTable hopen hmiss] at hsame
    dsimp only at hsame
    rw [tryMove_score, hsame] at hscore
    obtain ⟨v, hv, final, hplay, hfinal⟩ := hnode.tried (by omega) r hr
    rw [Player.opp_opp] at hplay hfinal
    refine ⟨final, hplay, ?_⟩
    rw [tryMove_score, hsame]
    omega

/-- The words of two moves differ: calls on boards with one are not found under the other. -/
theorem key_ne_of_move (hz : ZobristDistinct zobristTable) {depth₀ : Nat} {key : U64}
    (hroot : CallPath zobristTable table player depth₀ ⟨table, depth + 1, player, key⟩ [])
    {m m' : Nat} (hm' : m' ∈ availableMoves table) (hne : m ≠ m') {c : Call}
    {added : List (Nat × Player)}
    (hc : CallPath zobristTable table player depth₀ c added) (hsub : [(m, player)] ⊆ added) :
    c.hashValue ≠ key ^^^ zobristTable m' player := by
  intro hkey
  have hpath := hroot.move hm'
  obtain rfl := hc.eq_of_key hz hpath hkey
  have hmem := (hpath.mem_iff _).mpr ((hc.mem_iff _).mp (hsub (List.mem_singleton_self _)))
  exact hne (congrArg Prod.fst (List.mem_singleton.mp hmem))

variable (zobristTable) in
/-- The loop of the root call: the moves still to try have no entry yet, and the best one so far
secures its score. -/
structure SecuredLoop (depth : Nat) (table : U32) (player : Player) (st₀ : SearchState)
    (rest : List Nat) (first : Bool) (alpha : Int) (best : MoveT) (st : SearchState) : Prop where
  scored : Scored zobristTable table player (depth + 2) (depth + 1) table player [] (-100000) st₀
    rest first alpha best st
  fresh : ∀ m ∈ rest, m ∈ availableMoves table ∧
    zobristGet st.hashTable (st₀.hashValue ^^^ zobristTable m player) = none
  nodup : rest.Nodup
  low : alpha ≤ best.score
  secured : first = true ∧ best = ⟨-10000, -1⟩ ∨ ∃ m ∈ availableMoves table, best.move = m ∧
    Secures depth table player m best.score

/-- The window of the root call never closes. -/
theorem SecuredLoop.open {rest : List Nat} {best : MoveT}
    (h : SecuredLoop zobristTable depth table player st₀ rest first alpha best st) :
    alpha < 100000 := by
  refine lt_of_le_of_lt h.low ?_
  rcases h.scored.attained with ⟨_, rfl⟩ | ⟨m, _, _, hscore⟩
  · decide
  · have hbound := (abs_le.mp hscore.bounded).1
    unfold maxScore at hbound
    omega

/-- One move of the root. If it becomes the best, its score lies above the window and so is secured;
and its search leaves no entry under the keys of the moves to come. -/
theorem SecuredLoop.step (hz : ZobristDistinct zobristTable) (hvalid : ValidBoard table)
    (hc : CallPath zobristTable table player (depth + 2)
      ⟨table, depth + 2, player, st₀.hashValue⟩ [])
    {rest : List Nat} {best : MoveT}
    (h : SecuredLoop zobristTable depth table player st₀ (m :: rest) first alpha best st) :
    SecuredLoop zobristTable depth table player st₀ rest false
      (max alpha (tryMove zobristTable (negamax sort zobristTable (depth + 1)) player table m first
        alpha 100000 st).1)
      (better best m (tryMove zobristTable (negamax sort zobristTable (depth + 1)) player table m
        first alpha 100000 st).1)
      (tryMove zobristTable (negamax sort zobristTable (depth + 1)) player table m first alpha
        100000 st).2 := by
  have hsearch := @negamax_attains sort zobristTable table player (depth + 2) hz hvalid (depth + 1)
  obtain ⟨hm, hfresh⟩ := h.fresh m (by simp)
  obtain ⟨hnotin, hnodup⟩ := List.nodup_cons.mp h.nodup
  have hcall := hc
  rw [← h.scored.kept.key] at hcall hfresh
  obtain ⟨hscore, hkept⟩ := tryMove_attains hsearch h.scored.kept.table hcall hm first alpha 100000
  refine ⟨h.scored.step hsearch hc hm 100000, fun m' hm' => ?_, hnodup, ?_, .inr ?_⟩
  · -- the turn has changed the answers for boards with its own cell only
    obtain ⟨hmoves, hnone⟩ := h.fresh m' (List.mem_cons_of_mem _ hm')
    have hne : m ≠ m' := fun heq => hnotin (heq ▸ hm')
    refine ⟨hmoves, ?_⟩
    rw [hkept.frame _ fun c added hpath hsub => key_ne_of_move hz hc hmoves hne hpath hsub]
    exact hnone
  · rw [better_score]
    exact max_le_max_right _ h.low
  · unfold better
    split
    · -- a move that becomes the best one has scored above the window
      rename_i hbetter
      exact ⟨m, hm, rfl, tryMove_secures hz hvalid h.scored.kept.table hcall hm hfresh h.open
        (lt_of_le_of_lt h.low hbetter)⟩
    · rename_i hworse
      refine h.secured.resolve_left ?_
      rintro ⟨_, rfl⟩
      have hbound := (abs_le.mp hscore.bounded).2
      unfold maxScore at hbound
      dsimp only at hworse
      omega

/-- **What the root call returns**: a cell that secures at least the evaluation of every win on the
board. -/
theorem negamax_secures (hz : ZobristDistinct zobristTable) (hvalid : ValidBoard table)
    (hopen : checkWin table = cellEmpty) (hhash : st.hashValue = 0)
    (hclear : st.hashTable = zobristClear) :
    ∃ m ∈ availableMoves table,
      (negamax sort zobristTable (depth + 2) table player (-100000) 100000 st).1.move = m ∧
        ∀ w, Wins table player w →
          Secures depth table player m (getScore (valSetCell table w player.cell) player) := by
  have hget : ∀ key, zobristGet st.hashTable key = none := by
    intro key
    rw [hclear]
    rfl
  set start := st.record (.expand table (depth + 2) player (-100000) 100000)
  have hc : CallPath zobristTable table player (depth + 2)
      ⟨table, depth + 2, player, start.hashValue⟩ [] := .of_zero hhash
  have ht : TableAttains zobristTable table player (depth + 2) start.hashTable := .of_clear hclear
  have hmoves : ∀ m ∈ sort.sort (cmpMoves start) (availableMoves table), m ∈ availableMoves table :=
    fun m hm => mem_sort_availableMoves.mp hm
  have hscored : Scored zobristTable table player (depth + 2) (depth + 1) table player [] (-100000)
      start (sort.sort (cmpMoves start) (availableMoves table)) true (-100000) ⟨-10000, -1⟩ start :=
    .start ht _ fun m hm => mem_sort_availableMoves.mpr hm
  rw [negamax_miss zobristTable hopen (hget _)]
  obtain ⟨rest, first, alpha', hfirst, hend, hloop⟩ := tryMoves_rule zobristTable
    (negamax sort zobristTable (depth + 1)) 100000
    (SecuredLoop zobristTable depth table player start)
    (fun m rest first alpha best st' _ h => h.step hz hvalid hc) _ true (-100000) ⟨-10000, -1⟩ start
    hmoves ⟨hscored, fun m hm => ⟨hmoves m hm, hget _⟩, nodup_sort_availableMoves, by decide,
      .inl ⟨rfl, rfl⟩⟩
  have hstarted : first ≠ true := fun h => sort_availableMoves_ne_nil hopen (hfirst h).2
  obtain ⟨m, hm, hmove, hsecures⟩ := hloop.secured.resolve_left fun h => hstarted h.1
  refine ⟨m, hm, hmove, fun w hw => hsecures.mono ?_⟩
  -- the winning cell has been tried too
  obtain ⟨hmem, hwin⟩ := hw
  have hrest : w ∉ rest := by
    rcases hend with rfl | hcut
    · simp
    · exact absurd hloop.open (not_lt_of_ge hcut)
  obtain ⟨v, hle, hattains⟩ := (hloop.scored.tried w hmem).resolve_left hrest
  have heq := hattains.eq_of_finished (by rw [hwin]; exact player.cell_ne_empty)
  rw [getScore_opp (hvalid.valSetCell w player), neg_inj] at heq
  exact heq ▸ hle

end Root

/-! ## `negamax_predict`

The move returned is that of the last round. -/

section Predict

variable {table : U32} {player : Player} {st : SearchState}

/-- A round leaves `hash_value` zero and the table cleared. -/
theorem deepen_atRest (hz : ZobristDistinct zobristTable) (hvalid : ValidBoard table) (depth : Nat)
    (hhash : st.hashValue = 0) (hclear : st.hashTable = zobristClear) :
    (deepen sort zobristTable table player depth st).2.hashValue = 0 ∧
      (deepen sort zobristTable table player depth st).2.hashTable = zobristClear := by
  obtain ⟨_, hkept⟩ := @negamax_attains sort zobristTable table player depth hz hvalid depth table
    player (-100000) 100000 st [] (.of_zero hhash) (.of_clear hclear)
  exact ⟨hkept.key.trans hhash, rfl⟩

/-- **A win on the board is passed over only for as much.** `negamax_predict` returns an empty cell;
against every cell that completes a line, that cell ends the game with an evaluation at least as
great, or leaves such a line of play within the search's horizon after every reply. -/
theorem negamaxPredict_secures (hz : ZobristDistinct zobristTable) {s : LoggedSearch}
    (hs : PredictReachable sort zobristTable s) (player : Player) (hvalid : ValidBoard table)
    (hopen : checkWin table = cellEmpty) :
    ∃ m ∈ availableMoves table,
      (negamaxPredict sort zobristTable table player s.search).1 = m ∧
        ∀ w, Wins table player w → Secures (maxSearchDepth - 2) table player m
          (getScore (valSetCell table w player.cell) player) := by
  obtain ⟨hhash, hclear⟩ := hs.atRest
  set start : SearchState :=
    { s.search with historyScoreSum := fun _ => 0, historyCount := fun _ => 0 }
  -- the last of the three rounds decides
  obtain ⟨hhash₂, hclear₂⟩ := @deepen_atRest sort zobristTable table player start hz hvalid 2 hhash
    hclear
  obtain ⟨hhash₄, hclear₄⟩ := @deepen_atRest sort zobristTable table player _ hz hvalid 4 hhash₂
    hclear₂
  have hdepths : searchDepths = [2, 4, 6] := by decide
  rw [negamaxPredict, hdepths]
  exact negamax_secures hz hvalid hopen hhash₄ hclear₄

/-- Both replies to cell 2 leave X a board worth at least as much as the win on cell 5. -/
theorem negamaxPredict_secures_cell :
    Secures 4 0x594aa146 .x 2 (getScore (valSetCell 0x594aa146 5 cellX) .x) := by
  have hmove : (negamaxPredict stableSort bitWords 0x594aa146 .x negamaxInit.search).1 = 2 := by
    decide +kernel
  obtain ⟨m, _, hm, hsecures⟩ := @negamaxPredict_secures stableSort bitWords 0x594aa146
    zobristDistinct_bitWords negamaxInit .init .x (by decide +kernel) (by decide +kernel)
  obtain rfl : m = 2 := by omega
  exact hsecures 5 (by decide +kernel)

/-- The move of `negamax_predict` is that of the last round, run by itself. -/
theorem negamaxPredict_lastRound (hz : ZobristDistinct zobristTable) (hvalid : ValidBoard table)
    (player : Player) (hhash : st.hashValue = 0) (hclear : st.hashTable = zobristClear) :
    (negamaxPredict sort zobristTable table player st).1 =
      (lastRound sort zobristTable table player st).1.move := by
  set start : SearchState :=
    { st with historyScoreSum := fun _ => 0, historyCount := fun _ => 0 } with hstart
  obtain ⟨hhash₂, hclear₂⟩ := @deepen_atRest sort zobristTable table player start hz hvalid 2 hhash
    hclear
  obtain ⟨hhash₄, hclear₄⟩ := @deepen_atRest sort zobristTable table player _ hz hvalid 4 hhash₂
    hclear₂
  have hbefore : beforeLastRound sort zobristTable table player st =
      (deepen sort zobristTable table player 4
        (deepen sort zobristTable table player 2 start).2).2 := rfl
  have hdepths : searchDepths = [2, 4, 6] := by decide
  rw [lastRound, hbefore, negamaxPredict, hdepths, ← hstart]
  show (deepen sort zobristTable table player maxSearchDepth (deepen sort zobristTable table player
    4 (deepen sort zobristTable table player 2 start).2).2).1.move = _
  generalize (deepen sort zobristTable table player 4
    (deepen sort zobristTable table player 2 start).2).2 = st₄ at hhash₄ hclear₄ ⊢
  -- a root call's globals, but for the events of the rounds before
  have hsame : st₄ = (rootState st₄.historyScoreSum st₄.historyCount).after st₄.trace := by
    obtain ⟨sum, count, key, entries, events⟩ := st₄
    obtain rfl : key = 0 := hhash₄
    obtain rfl : entries = zobristClear := hclear₄
    rfl
  have hround := @negamax_after sort zobristTable maxSearchDepth table player (-100000) 100000
    (rootState st₄.historyScoreSum st₄.historyCount) st₄.trace
  rw [← hsame] at hround
  exact congrArg (fun r => r.1.move) hround

end Predict

end Kxo
