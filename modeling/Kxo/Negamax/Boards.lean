import Kxo.Negamax.Subproblems
import Mathlib.Data.Nat.Factorial.Basic

/-!
# Kxo — how many boards a round tries (`src/negamax.c`)

While a round lasts, a board whose moves have been tried stays in the table under its key, and a
board whose moves are being tried is one with more depth remaining. So no board is tried twice,
whatever the words are (`Tried.once`), and as every board tried lies fewer moves from the root than
the round is deep, there are no more of them than boards there.

* **`boardsAfter`**, **`boardBound`** — the boards some moves away from the root, and a bound on
  their number: each move takes one of the empty cells left.
* **`Tried`** — the events of a round, and what they say of the table at a point where the calls
  that still run have more than a certain depth remaining.
* **`Tries`** — what a piece of a search does, as a relation between two states, so that pieces
  compose. `negamax_tries` is the induction over the depth.
* **`length_boardsTried_le`** — the bound for a whole round.

Keys may collide here. A collision can only make the search try fewer boards.
-/

namespace Kxo

variable {sort : KernelSort} {zobristTable : ZobristWords}

/-! ## Boards so many moves away

The players move in turn, so who is to move follows from how many moves were made. -/

/-- The boards that `k` moves of the two players lead to, a board once for each way to it. -/
def boardsAfter (root : U32) (p₀ : Player) : Nat → List U32
  | 0 => [root]
  | k + 1 => (boardsAfter root p₀ k).flatMap fun table =>
      (availableMoves table).map fun m =>
        valSetCell table m (if k % 2 = 0 then p₀ else p₀.opp).cell

/-- Each move takes one empty cell, so boards that many moves away have as many fewer. -/
theorem length_availableMoves_boardsAfter {root table : U32} {p₀ : Player} {k : Nat}
    (h : table ∈ boardsAfter root p₀ k) :
    (availableMoves table).length + k = (availableMoves root).length := by
  induction k generalizing table with
  | zero => rw [List.mem_singleton.mp h, Nat.add_zero]
  | succ k ih =>
    obtain ⟨before, hbefore, hmove⟩ := List.mem_flatMap.mp h
    obtain ⟨m, hm, rfl⟩ := List.mem_map.mp hmove
    have hlen := length_availableMoves_valSetCell hm
      (if k % 2 = 0 then p₀ else p₀.opp).fits_cell (if k % 2 = 0 then p₀ else p₀.opp).cell_ne_empty
    have hk := ih hbefore
    omega

/-- So many moves in a row: as many as there are sequences of different cells. -/
theorem length_boardsAfter_le (root : U32) (p₀ : Player) (k : Nat) :
    (boardsAfter root p₀ k).length ≤ nGrids.descFactorial k := by
  induction k with
  | zero => exact Nat.le_refl 1
  | succ k ih =>
    have hmoves : ∀ n ∈ (boardsAfter root p₀ k).map fun table => (availableMoves table).length,
        n ≤ nGrids - k := by
      intro n hn
      obtain ⟨table, htable, rfl⟩ := List.mem_map.mp hn
      have hlen := length_availableMoves_boardsAfter htable
      have hroot := length_availableMoves_le root
      omega
    calc (boardsAfter root p₀ (k + 1)).length
        = ((boardsAfter root p₀ k).map fun table => (availableMoves table).length).sum := by
          simp [boardsAfter, List.length_flatMap]
      _ ≤ (boardsAfter root p₀ k).length * (nGrids - k) := by
          simpa using List.sum_le_card_nsmul _ (nGrids - k) hmoves
      _ ≤ nGrids.descFactorial k * (nGrids - k) := Nat.mul_le_mul_right _ ih
      _ = nGrids.descFactorial (k + 1) := by rw [Nat.descFactorial_succ, Nat.mul_comm]

/-- The number of boards fewer than `depth` moves away is at most this. -/
def boardBound (depth : Nat) : Nat := ((List.range depth).map nGrids.descFactorial).sum

/-- All boards fewer than `depth` moves away. -/
theorem length_boardsBefore_le (root : U32) (p₀ : Player) (depth : Nat) :
    ((List.range depth).flatMap (boardsAfter root p₀)).length ≤ boardBound depth := by
  rw [List.length_flatMap, boardBound]
  exact List.sum_le_sum fun k _ => length_boardsAfter_le root p₀ k

section Tried

variable {root : U32} {p₀ : Player} {depth₀ : Nat}

/-- The board of a call is as many moves from the root as cells were added. -/
theorem CallPath.mem_boardsAfter {c : Call} {added : List (Nat × Player)}
    (h : CallPath zobristTable root p₀ depth₀ c added) :
    c.table ∈ boardsAfter root p₀ added.length := by
  induction h with
  | root => exact List.mem_singleton.mpr rfl
  | @move table depth player key added m hpath hm ih =>
    have hplayer : player = if added.length % 2 = 0 then p₀ else p₀.opp := hpath.turn.2
    refine List.mem_flatMap.mpr ⟨table, ih, List.mem_map.mpr ⟨m, hm, ?_⟩⟩
    rw [← hplayer]

/-! ## Boards tried

The trace of a search, most recent event first. A board is tried when its call is neither finished
nor answered. -/

/-- The board whose moves are tried. -/
def SearchEvent.tried : SearchEvent → Option U32
  | .expand table _ _ _ _ => some table
  | .hit .. => none

def boardsTried (events : List SearchEvent) : List U32 := events.filterMap SearchEvent.tried

variable (zobristTable root p₀ depth₀) in
/-- The events of a round so far, and what they say of the table while the calls that run have more
than `depth` remaining. -/
structure Tried (before : List SearchEvent) (depth : Nat) (st : SearchState)
    (events : List SearchEvent) : Prop where
  trace : st.trace = events ++ before
  path : ∀ table d player a b, .expand table d player a b ∈ events →
    0 < d ∧ ∃ key added, CallPath zobristTable root p₀ depth₀ ⟨table, d, player, key⟩ added
  once : (boardsTried events).Nodup
  found : ∀ table d player a b, .expand table d player a b ∈ events → d ≤ depth →
    (zobristGet st.hashTable (xorKey zobristTable (addedCells root table))).isSome = true

variable {before events : List SearchEvent} {depth : Nat} {st st' st'' : SearchState}
  {table : U32} {player : Player} {added : List (Nat × Player)}

/-- No more boards are tried than there are within reach. -/
theorem Tried.length_le (h : Tried zobristTable root p₀ depth₀ before depth st events) :
    (boardsTried events).length ≤ boardBound depth₀ := by
  have hsub : boardsTried events ⊆ (List.range depth₀).flatMap (boardsAfter root p₀) := by
    intro t ht
    obtain ⟨e, he, htried⟩ := List.mem_filterMap.mp ht
    cases e with
    | hit => cases htried
    | expand table d player a b =>
      obtain rfl := Option.some.inj htried
      obtain ⟨hpos, key, added, hpath⟩ := h.path table d player a b he
      have hdepth : d + added.length = depth₀ := hpath.turn.1
      exact List.mem_flatMap.mpr
        ⟨added.length, List.mem_range.mpr (by omega), hpath.mem_boardsAfter⟩
  exact (List.subperm_of_subset h.once hsub).length_le.trans (length_boardsBefore_le root p₀ depth₀)

/-! ## The search tries no board twice

Every case leaves the invariant at the depth it was called with. The only one that adds a board is a
call that misses. -/

variable (zobristTable root p₀ depth₀) in
/-- What a piece of a search does, from one state to another, when its calls have `depth` or less
remaining. -/
structure Tries (depth : Nat) (st st' : SearchState) : Prop where
  key : st'.hashValue = st.hashValue
  kept : ∀ key, (zobristGet st.hashTable key).isSome = true →
    (zobristGet st'.hashTable key).isSome = true
  boards : ∀ before events, Tried zobristTable root p₀ depth₀ before depth st events →
    ∃ more, Tried zobristTable root p₀ depth₀ before depth st' (more ++ events) ∧
      ∀ table d player a b, .expand table d player a b ∈ more → d ≤ depth

/-- Nothing is done. -/
theorem Tries.refl (st : SearchState) : Tries zobristTable root p₀ depth₀ depth st st :=
  ⟨rfl, fun _ h => h, fun _ _ h => ⟨[], h, by simp⟩⟩

/-- One piece after another: the events of the second come on top of those of the first. -/
theorem Tries.trans (h : Tries zobristTable root p₀ depth₀ depth st st')
    (h' : Tries zobristTable root p₀ depth₀ depth st' st'') :
    Tries zobristTable root p₀ depth₀ depth st st'' where
  key := h'.key.trans h.key
  kept key hkey := h'.kept key (h.kept key hkey)
  boards before events htried := by
    obtain ⟨more, hmore, hdepth⟩ := h.boards before events htried
    obtain ⟨more', hmore', hdepth'⟩ := h'.boards before _ hmore
    refine ⟨more' ++ more, ?_, fun t d p a b hmem => ?_⟩
    · rwa [List.append_assoc]
    · rcases List.mem_append.mp hmem with hnew | hold
      · exact hdepth' t d p a b hnew
      · exact hdepth t d p a b hold

/-- The history tables and `hash_value` say nothing of the boards. -/
theorem Tried.congr (h : Tried zobristTable root p₀ depth₀ before depth st events)
    (htrace : st'.trace = st.trace) (htable : st'.hashTable = st.hashTable) :
    Tried zobristTable root p₀ depth₀ before depth st' events where
  trace := htrace.trans h.trace
  path := h.path
  once := h.once
  found t d p a b hmem hd := by
    rw [htable]
    exact h.found t d p a b hmem hd

/-- An answer from the table tries nothing. -/
theorem Tries.hit (alpha beta score : Int) : Tries zobristTable root p₀ depth₀ depth st
    (st.record (.hit table depth player alpha beta score)) where
  key := rfl
  kept _ hkey := hkey
  boards before events h := by
    refine ⟨[.hit table depth player alpha beta score], ⟨?_, ?_, ?_, ?_⟩, by simp⟩
    · rw [SearchState.record_trace, h.trace]
      rfl
    · exact fun t d p a b hmem => h.path t d p a b (by simpa using hmem)
    · exact h.once
    · exact fun t d p a b hmem => h.found t d p a b (by simpa using hmem)

variable (zobristTable root p₀ depth₀) in
/-- What the loop of a call relies on for the calls it makes. -/
def ChildTries (child : ChildSearch) (depth : Nat) : Prop :=
  ∀ table player alpha beta st added,
    CallPath zobristTable root p₀ depth₀ ⟨table, depth, player, st.hashValue⟩ added →
    Tries zobristTable root p₀ depth₀ depth st (child table player alpha beta st).2

variable {child : ChildSearch}

/-- One search of a move, or two with different windows: both are calls of the same position. -/
theorem searchMove_tries (hchild : ChildTries zobristTable root p₀ depth₀ child depth)
    (hc : CallPath zobristTable root p₀ depth₀ ⟨table, depth, player.opp, st.hashValue⟩ added)
    (first : Bool) (alpha beta : Int) :
    Tries zobristTable root p₀ depth₀ depth st
      (searchMove child table player first alpha beta st).2 := by
  unfold searchMove
  cases first with
  | true => exact hchild _ _ _ _ st added hc
  | false =>
    have hnull := hchild table player.opp (-alpha - 1) (-alpha) st added hc
    dsimp only
    rw [if_neg Bool.false_ne_true]
    split
    · -- the second search finds the same key
      refine hnull.trans (hchild _ _ _ _ _ added ?_)
      rw [hnull.key]
      exact hc
    · exact hnull

/-- One turn of the loop. -/
theorem tryMove_tries (hchild : ChildTries zobristTable root p₀ depth₀ child depth)
    (hc : CallPath zobristTable root p₀ depth₀ ⟨table, depth + 1, player, st.hashValue⟩ added)
    {m : Nat} (hm : m ∈ availableMoves table) (first : Bool) (alpha beta : Int) :
    Tries zobristTable root p₀ depth₀ depth st
      (tryMove zobristTable child player table m first alpha beta st).2 := by
  have hsearch : Tries zobristTable root p₀ depth₀ depth (st.xorHash (zobristTable m player))
      (searchMove child (valSetCell table m player.cell) player first alpha beta
        (st.xorHash (zobristTable m player))).2 :=
    searchMove_tries hchild (hc.move hm) first alpha beta
  refine ⟨?_, hsearch.kept, fun before events htried => ?_⟩
  · exact (congrArg (· ^^^ zobristTable m player) hsearch.key).trans
      (xor_word_twice st.hashValue (zobristTable m player))
  · obtain ⟨more, hmore, hdepth⟩ := hsearch.boards before events (htried.congr rfl rfl)
    exact ⟨more, hmore.congr rfl rfl, hdepth⟩

/-- The loop over the moves. Induction on the moves; each leaves `hash_value` as it was, so the next
is on a path from the root too. -/
theorem tryMoves_tries (hchild : ChildTries zobristTable root p₀ depth₀ child depth) (beta : Int)
    (moves : List Nat) (first : Bool) (alpha : Int) (best : MoveT)
    (hsub : ∀ m ∈ moves, m ∈ availableMoves table)
    (hc : CallPath zobristTable root p₀ depth₀ ⟨table, depth + 1, player, st.hashValue⟩ added) :
    Tries zobristTable root p₀ depth₀ depth st
      (tryMoves zobristTable child player beta moves first table alpha best st).2 := by
  obtain ⟨_, _, _, _, _, hend⟩ := tryMoves_rule zobristTable child beta
    (fun _ _ _ _ st' => Tries zobristTable root p₀ depth₀ depth st st')
    (fun m rest first alpha best st' hm h => by
      have hc' : CallPath zobristTable root p₀ depth₀ ⟨table, depth + 1, player, st'.hashValue⟩
          added := by
        rw [h.key]
        exact hc
      exact h.trans (tryMove_tries hchild hc' hm first alpha beta))
    moves first alpha best st hsub (.refl st)
  exact hend

/-- A put keeps every key that was answered. -/
theorem isSome_zobristGet_put {t : ZobristTable} {key : U64}
    (h : (zobristGet t key).isSome = true) (key' : U64) (score move : Int) :
    (zobristGet (zobristPut true t key' score move) key).isSome = true := by
  by_cases hkey : key' = key
  · rw [hkey, zobristGet_put_same]
    rfl
  · rwa [zobristGet_put_ne t hkey]

/-- **A call that misses tries a board that is new to the round.** -/
theorem Tried.expand {alpha beta : Int}
    (h : Tried zobristTable root p₀ depth₀ before (depth + 1) st events)
    (hc : CallPath zobristTable root p₀ depth₀ ⟨table, depth + 1, player, st.hashValue⟩ added)
    (hget : zobristGet st.hashTable st.hashValue = none) :
    Tried zobristTable root p₀ depth₀ before depth
      (st.record (.expand table (depth + 1) player alpha beta))
      (.expand table (depth + 1) player alpha beta :: events) where
  trace := by
    rw [SearchState.record_trace, h.trace]
    rfl
  path t d p a b hmem := by
    rcases List.mem_cons.mp hmem with heq | hmem
    · cases heq
      exact ⟨Nat.succ_pos depth, st.hashValue, added, hc⟩
    · exact h.path t d p a b hmem
  once := by
    refine List.nodup_cons.mpr ⟨fun hmem => ?_, h.once⟩
    obtain ⟨e, he, htried⟩ := List.mem_filterMap.mp hmem
    cases e with
    | hit => cases htried
    | expand t d p a b =>
      obtain rfl := Option.some.inj htried
      -- a call on the same board is the same call, and would be found
      obtain ⟨_, key, added', hc'⟩ := h.path t d p a b he
      obtain ⟨-, hd, -, -⟩ := Call.mk.inj (hc'.eq_of_table hc rfl)
      have hkey : st.hashValue = xorKey zobristTable (addedCells root t) := hc.key_addedCells.2
      have hfound := h.found t d p a b he (Nat.le_of_eq hd)
      rw [← hkey, hget] at hfound
      exact Bool.noConfusion hfound
  found t d p a b hmem hd := by
    rcases List.mem_cons.mp hmem with heq | hmem
    · cases heq
      exact absurd hd (Nat.not_succ_le_self depth)
    · exact h.found t d p a b hmem (Nat.le_succ_of_le hd)

/-- A call that tries its moves: its board is new, because the table has no answer for it, and when
the moves are done the answer is stored. -/
theorem visitNode_tries
    (hchild : ChildTries zobristTable root p₀ depth₀ (negamax sort zobristTable depth) depth)
    (hc : CallPath zobristTable root p₀ depth₀ ⟨table, depth + 1, player, st.hashValue⟩ added)
    (hget : zobristGet st.hashTable st.hashValue = none) (alpha beta : Int) (best : MoveT) :
    Tries zobristTable root p₀ depth₀ (depth + 1) st
      ((visitNode sort zobristTable depth table player alpha beta st).2.put best) := by
  set st₀ := st.record (.expand table (depth + 1) player alpha beta)
  have hloop : Tries zobristTable root p₀ depth₀ depth st₀
      (visitNode sort zobristTable depth table player alpha beta st).2 :=
    tryMoves_tries hchild beta _ true alpha _ (fun m hm => mem_sort_availableMoves.mp hm) hc
  generalize (visitNode sort zobristTable depth table player alpha beta st).2 = st₁ at hloop ⊢
  -- what is stored stays stored, by the loop and by the entry for this node
  have hkept : ∀ key, (zobristGet st.hashTable key).isSome = true →
      (zobristGet (st₁.put best).hashTable key).isSome = true := fun key hkey =>
    isSome_zobristGet_put (hloop.kept key hkey) _ _ _
  refine ⟨hloop.key, hkept, fun before events htried => ?_⟩
  obtain ⟨more, hmore, hdepth⟩ := hloop.boards before _ (htried.expand hc hget)
  refine ⟨more ++ [.expand table (depth + 1) player alpha beta], ?_, fun t d p a b hmem => ?_⟩
  · rw [List.append_assoc]
    refine ⟨hmore.trace, hmore.path, hmore.once, fun t d p a b hmem hd => ?_⟩
    rcases Nat.lt_or_ge depth d with hown | hbelow
    · -- the call itself, which has just stored its answer, or one from before
      rcases List.mem_append.mp hmem with hnew | hmem
      · exact absurd (hdepth t d p a b hnew) (by omega)
      · rcases List.mem_cons.mp hmem with heq | hmem
        · cases heq
          have hkey : st₁.hashValue = xorKey zobristTable (addedCells root table) :=
            hloop.key.trans hc.key_addedCells.2
          rw [← hkey, SearchState.put, zobristGet_put_same]
          rfl
        · exact hkept _ (htried.found t d p a b hmem hd)
    · exact isSome_zobristGet_put (hmore.found t d p a b hmem hbelow) _ _ _
  · rcases List.mem_append.mp hmem with hnew | hown
    · exact Nat.le_succ_of_le (hdepth t d p a b hnew)
    · cases List.mem_singleton.mp hown
      exact Nat.le_refl _

/-- **What every call does**, whatever the words are. -/
theorem negamax_tries (depth : Nat) :
    ChildTries zobristTable root p₀ depth₀ (negamax sort zobristTable depth) depth := by
  intro table player alpha beta st added
  refine negamax_rule zobristTable
    (fun depth table player _ _ st r => ∀ added,
      CallPath zobristTable root p₀ depth₀ ⟨table, depth, player, st.hashValue⟩ added →
      Tries zobristTable root p₀ depth₀ depth st r.2)
    ?_ ?_ ?_ depth table player alpha beta st added
  · intro depth table player alpha beta st _ added _
    exact .refl st
  · intro depth table player alpha beta st score move _ _ added _
    exact .hit alpha beta score
  · intro depth table player alpha beta st ih _ hget added hc
    exact visitNode_tries (fun t p a b s added => ih t p a b s added) hc hget alpha beta _

/-- **A round tries at most `boardBound` boards.** -/
theorem length_boardsTried_le (depth : Nat) (table : U32) (player : Player) (alpha beta : Int)
    (hhash : st.hashValue = 0) :
    (boardsTried (negamax sort zobristTable depth table player alpha beta st).2.trace).length ≤
      (boardsTried st.trace).length + boardBound depth := by
  have hstart : Tried zobristTable table player depth st.trace depth st [] :=
    ⟨rfl, by simp, List.nodup_nil, by simp⟩
  obtain ⟨more, hmore, -⟩ :=
    (negamax_tries depth table player alpha beta st [] (.of_zero hhash)).boards st.trace [] hstart
  have hlen := hmore.length_le
  rw [hmore.trace, boardsTried, List.filterMap_append, List.length_append, ← boardsTried,
    ← boardsTried]
  omega

end Tried

end Kxo
