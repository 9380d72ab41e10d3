import Kxo.Negamax.Plain
import Kxo.Negamax.Zobrist

/-!
# Kxo — the search at depth two

Two plies deep the table's answers are sound, whatever the board. A position one ply below the root
is searched over leaves, whose scores need no window; the root reads it back only after a
null-window search that failed low, and a search over leaves that fails low has tried every move.
With distinct keys no two positions share an entry (`visitNode_hitsSound_two`).

* **`LeafLoop`**, **`visitNode_leaf`** — a loop whose calls are leaves: nothing is asked of the
  table, and what it returns is the best score or a cutoff.
* **`OwnEntry`** — a call with depth one changes no entry but its own.
* **`searchMove_one`** — the first search of a move stores an entry and a second one reads it.
* **`RootLoop`** — between two moves of the root the moves to come have no entry yet.
-/

namespace Kxo

variable {sort : KernelSort} (zobristTable : ZobristWords)

/-! ## Keys

A key is the exclusive or of the words of the cells that were added. With random words different
sets of cells have different keys almost surely; here it is an assumption. -/

/-- The `hash_value` of a set of cells added since the root. -/
def xorKey (zobristTable : ZobristWords) (added : List (Nat × Player)) : U64 :=
  (added.map fun c => zobristTable c.1 c.2).foldr (· ^^^ ·) 0

/-- Different sets of added cells have different keys. -/
def ZobristDistinct (zobristTable : ZobristWords) : Prop :=
  ∀ added added' : List (Nat × Player), added.Nodup → added'.Nodup →
    (∀ c ∈ added, c.1 < nGrids) → (∀ c ∈ added', c.1 < nGrids) →
    xorKey zobristTable added = xorKey zobristTable added' → ∀ c, c ∈ added ↔ c ∈ added'

/-- Different cells have different words, as sets of one cell. -/
theorem ZobristDistinct.word_ne {zobristTable : ZobristWords} (hz : ZobristDistinct zobristTable)
    {m m' : Nat} (hm : m < nGrids) (hm' : m' < nGrids) (hne : m ≠ m') (player : Player) :
    zobristTable m player ≠ zobristTable m' player := by
  intro heq
  have h := hz [(m, player)] [(m', player)] (by simp) (by simp) (by simpa using hm)
    (by simpa using hm') (by simp [xorKey, heq]) (m, player)
  simp [hne] at h

/-! ## A search over leaves

A leaf returns its evaluation under any window and leaves everything as it was, so the loop is a
maximum with an early end. -/

/-- The call has left the table, the key and the events as they were. -/
structure SameTable (st st' : SearchState) : Prop where
  hashTable : st'.hashTable = st.hashTable
  hashValue : st'.hashValue = st.hashValue
  trace : st'.trace = st.trace

/-- One leaf after another. -/
theorem SameTable.trans {st st' st'' : SearchState} (h : SameTable st st')
    (h' : SameTable st' st'') : SameTable st st'' :=
  ⟨h'.hashTable.trans h.hashTable, h'.hashValue.trans h.hashValue, h'.trace.trans h.trace⟩

/-- Both searches of a move over leaves return its value. -/
theorem tryMove_leaf (player : Player) (table : U32) (m : Nat) (first : Bool) (alpha beta : Int)
    (st : SearchState) :
    (tryMove zobristTable (negamax sort zobristTable 0) player table m first alpha beta st).1 =
      moveValue 0 table player m ∧
    SameTable st
      (tryMove zobristTable (negamax sort zobristTable 0) player table m first
        alpha beta st).2 := by
  have hsearch : searchMove (negamax sort zobristTable 0) (valSetCell table m player.cell) player
      first alpha beta (st.xorHash (zobristTable m player)) =
        (moveValue 0 table player m, st.xorHash (zobristTable m player)) := by
    unfold searchMove
    split
    · rfl
    · dsimp only
      split <;> rfl
  unfold tryMove
  rw [hsearch]
  exact ⟨rfl, rfl, xor_word_twice st.hashValue (zobristTable m player), rfl⟩

/-- A loop over leaves: it keeps the best score, and what it leaves out it leaves out for a
cutoff. -/
structure LeafLoop (table : U32) (player : Player) (alpha beta : Int) (moves : List Nat)
    (best : MoveT) (st : SearchState) (result : MoveT × SearchState) : Prop where
  same : SameTable st result.2
  ge : best.score ≤ result.1.score
  attained : result.1.score = best.score ∨
    ∃ m ∈ moves, moveValue 0 table player m = result.1.score
  isMax : beta ≤ max alpha result.1.score ∨
    ∀ m ∈ moves, moveValue 0 table player m ≤ result.1.score

/-- The loop over leaves. Induction on the moves. -/
theorem tryMoves_leaf {player : Player} {beta : Int} {table : U32} (moves : List Nat) :
    ∀ (first : Bool) (alpha : Int) (best : MoveT) (st : SearchState),
      (∀ m ∈ moves, m ∈ availableMoves table) →
      LeafLoop table player alpha beta moves best st
        (tryMoves zobristTable (negamax sort zobristTable 0) player beta moves first table alpha
          best st) := by
  induction moves with
  | nil =>
    intro first alpha best st _
    exact ⟨⟨rfl, rfl, rfl⟩, le_rfl, Or.inl rfl, Or.inr (by simp)⟩
  | cons m rest ih =>
    intro first alpha best st hsub
    have hrest : ∀ m' ∈ rest, m' ∈ availableMoves table := fun m' hm' => hsub m' (by simp [hm'])
    obtain ⟨hscore, hsame⟩ :=
      @tryMove_leaf sort zobristTable player table m first alpha beta st
    rw [tryMoves_cons zobristTable (hsub m (by simp))]
    dsimp only
    rw [hscore]
    generalize (tryMove zobristTable (negamax sort zobristTable 0) player table m first alpha beta
      st).2 = st' at hsame ⊢
    -- from here on the turn's value is that of plain negamax
    have hbest := better_score best m (moveValue 0 table player m)
    have hattained : (better best m (moveValue 0 table player m)).score = best.score ∨
        moveValue 0 table player m = (better best m (moveValue 0 table player m)).score := by
      omega
    split
    -- a cut: the best score is at least `beta`
    case isTrue hcut =>
      refine ⟨hsame, ?_, hattained.imp_right fun h => ⟨m, by simp, h⟩, Or.inl ?_⟩
      · exact hbest ▸ le_max_left _ _
      · dsimp only
        omega
    -- no cut: the rest of the loop from the raised `alpha`
    case isFalse hgo =>
      have hloop := ih false (max alpha (moveValue 0 table player m))
        (better best m (moveValue 0 table player m)) st' hrest
      have hge := hloop.ge
      refine ⟨hsame.trans hloop.same, by omega, ?_, ?_⟩
      · rcases hloop.attained with heq | ⟨m', hm', hval⟩
        · rw [heq]
          exact hattained.imp_right fun h => ⟨m, by simp, h⟩
        · exact Or.inr ⟨m', by simp [hm'], hval⟩
      · refine hloop.isMax.imp (fun h => by omega) fun hle m' hm' => ?_
        rcases List.mem_cons.mp hm' with rfl | htail
        · omega
        · exact hle m' htail

/-- A position over leaves, searched: only its own event is new, and a score that is not above the
window is its plain value. -/
theorem visitNode_leaf {table : U32} {player : Player} {alpha beta : Int} {st : SearchState}
    (hopen : checkWin table = cellEmpty) :
    SameTable (st.record (.expand table 1 player alpha beta))
      (visitNode sort zobristTable 0 table player alpha beta st).2 ∧
    (alpha < beta → (visitNode sort zobristTable 0 table player alpha beta st).1.score ≤ alpha →
      (visitNode sort zobristTable 0 table player alpha beta st).1.score =
        plain 1 table player) := by
  have hloop : LeafLoop table player alpha beta
      (sort.sort (cmpMoves (st.record (.expand table 1 player alpha beta))) (availableMoves table))
      ⟨-10000, -1⟩ (st.record (.expand table 1 player alpha beta))
      (visitNode sort zobristTable 0 table player alpha beta st) :=
    tryMoves_leaf zobristTable _ true alpha _ _ fun m hm => mem_sort_availableMoves.mp hm
  refine ⟨hloop.same, fun hwin hlow => ?_⟩
  -- below `alpha` no cut has ended the loop, so every move was tried
  have hle : ∀ m ∈ availableMoves table, moveValue 0 table player m ≤
      (visitNode sort zobristTable 0 table player alpha beta st).1.score := by
    intro m hm
    exact hloop.isMax.resolve_left (by omega) m (mem_sort_availableMoves.mpr hm)
  refine (plain_eq_of_isMax hopen ?_ hle).symm
  rcases hloop.attained with hsentinel | ⟨m, hm, hval⟩
  · -- a move's value is above the `-10000` sentinel
    obtain ⟨m, hm⟩ := List.exists_mem_of_ne_nil _ (availableMoves_ne_nil hopen)
    have hmv := hle m hm
    have hlow := abs_le.mp (abs_getScore_le (valSetCell table m player.cell) player.opp)
    rw [hsentinel] at hmv
    unfold moveValue plain maxScore at *
    dsimp only at hmv
    omega
  · exact ⟨m, mem_sort_availableMoves.mp hm, hval⟩

/-! ## A move of the root

The first search of a move finds no entry under its key and leaves one there; a second search reads
this entry back.
-/

/-- The call has kept the key and the entries of all other keys, and its answers are sound. -/
structure OwnEntry (st st' : SearchState) : Prop where
  hits : HitsSound st.trace → HitsSound st'.trace
  hashValue : st'.hashValue = st.hashValue
  others : ∀ key, st.hashValue ≠ key → zobristGet st'.hashTable key = zobristGet st.hashTable key

/-- Nothing is done. -/
theorem OwnEntry.refl (st : SearchState) : OwnEntry st st := ⟨id, rfl, fun _ _ => rfl⟩

/-- One search of the position after another. -/
theorem OwnEntry.trans {st st' st'' : SearchState} (h : OwnEntry st st')
    (h' : OwnEntry st' st'') : OwnEntry st st'' where
  hits hst := h'.hits (h.hits hst)
  hashValue := h'.hashValue.trans h.hashValue
  others key hne := (h'.others key (h.hashValue ▸ hne)).trans (h.others key hne)

/-- The first search of a position finds nothing and leaves one entry. -/
theorem negamax_one_fresh {table : U32} {player : Player} {alpha beta : Int} {st : SearchState}
    (hfresh : zobristGet st.hashTable st.hashValue = none) :
    OwnEntry st (negamax sort zobristTable 1 table player alpha beta st).2 := by
  by_cases hopen : checkWin table = cellEmpty
  · rw [negamax_miss zobristTable hopen hfresh]
    have hsame := (@visitNode_leaf sort zobristTable table player alpha beta st hopen).1
    refine ⟨fun hst => ?_, hsame.hashValue, fun key hne => ?_⟩
    · show HitsSound (visitNode sort zobristTable 0 table player alpha beta st).2.trace
      rw [hsame.trace]
      exact List.forall_mem_cons.mpr ⟨trivial, hst⟩
    · have hkey : (visitNode sort zobristTable 0 table player alpha beta st).2.hashValue ≠ key :=
        hsame.hashValue ▸ hne
      exact (zobristGet_put_ne _ hkey _ _).trans (congrArg (zobristGet · key) hsame.hashTable)
  · rw [negamax_finished zobristTable hopen]
    exact .refl st

/-- A second search, after a first one that was not above its window. -/
theorem negamax_one_again {table : U32} {player : Player} {alpha beta : Int} {st : SearchState}
    (hfresh : zobristGet st.hashTable st.hashValue = none) (hwin : alpha < beta)
    (hlow : (negamax sort zobristTable 1 table player alpha beta st).1.score ≤ alpha)
    (alpha' beta' : Int) :
    OwnEntry (negamax sort zobristTable 1 table player alpha beta st).2
      (negamax sort zobristTable 1 table player alpha' beta'
        (negamax sort zobristTable 1 table player alpha beta st).2).2 := by
  by_cases hopen : checkWin table = cellEmpty
  · rw [negamax_miss zobristTable hopen hfresh] at hlow ⊢
    have hexact := (visitNode_leaf zobristTable hopen).2 hwin hlow
    rw [negamax_hit zobristTable hopen (zobristGet_put_same _ _ _ _)]
    refine ⟨fun hst => ?_, rfl, fun _ _ => rfl⟩
    exact List.forall_mem_cons.mpr ⟨FailSoft.of_eq hexact, hst⟩
  · rw [negamax_finished zobristTable hopen, negamax_finished zobristTable hopen]
    exact .refl st

/-- A move of the root, searched once or twice. -/
theorem searchMove_one {table : U32} {player : Player} {first : Bool} {alpha beta : Int}
    {st : SearchState} (hfresh : zobristGet st.hashTable st.hashValue = none) :
    OwnEntry st
      (searchMove (negamax sort zobristTable 1) table player first alpha beta st).2 := by
  unfold searchMove
  split
  · exact negamax_one_fresh zobristTable hfresh
  · dsimp only
    split
    case isTrue hin =>
      -- the null window failed low for the opponent
      exact (negamax_one_fresh zobristTable hfresh).trans
        (negamax_one_again zobristTable hfresh (by omega) (by omega) _ _)
    case isFalse => exact negamax_one_fresh zobristTable hfresh

/-- Between two moves of the root: the moves to come have no entry yet. -/
structure RootLoop (zobristTable : ZobristWords) (player : Player) (rest : List Nat)
    (st : SearchState) : Prop where
  hits : HitsSound st.trace
  hashValue : st.hashValue = 0
  fresh : ∀ m ∈ rest, zobristGet st.hashTable (zobristTable m player) = none

/-- One move of the root: its entry is new, and those of the moves to come stay absent. -/
theorem tryMove_root {table : U32} {player : Player} {m : Nat} {rest : List Nat} {first : Bool}
    {alpha beta : Int} {st : SearchState} (h : RootLoop zobristTable player (m :: rest) st)
    (hkey : ∀ m' ∈ rest, zobristTable m player ≠ zobristTable m' player) :
    RootLoop zobristTable player rest
      (tryMove zobristTable (negamax sort zobristTable 1) player table m first
        alpha beta st).2 := by
  have hword : (st.xorHash (zobristTable m player)).hashValue = zobristTable m player := by
    show st.hashValue ^^^ zobristTable m player = _
    rw [h.hashValue]
    exact BitVec.zero_xor
  have hfresh : zobristGet (st.xorHash (zobristTable m player)).hashTable
      (st.xorHash (zobristTable m player)).hashValue = none := by
    rw [hword]
    exact h.fresh m (by simp)
  have hown := @searchMove_one sort zobristTable (valSetCell table m player.cell) player first alpha
    beta _ hfresh
  refine ⟨hown.hits h.hits, ?_, fun m' hm' => ?_⟩
  · -- the word of the move is taken out of the key again
    exact (congrArg (· ^^^ zobristTable m player) (hown.hashValue.trans hword)).trans
      BitVec.xor_self
  · have hne : (st.xorHash (zobristTable m player)).hashValue ≠ zobristTable m' player := by
      rw [hword]
      exact hkey m' hm'
    exact (hown.others _ hne).trans (h.fresh m' (by simp [hm']))

/-- All moves of the root. Induction on the moves. -/
theorem tryMoves_root {player : Player} {beta : Int} {table : U32}
    (hkey : ∀ m ∈ availableMoves table, ∀ m' ∈ availableMoves table, m ≠ m' →
      zobristTable m player ≠ zobristTable m' player) (moves : List Nat) :
    ∀ (first : Bool) (alpha : Int) (best : MoveT) (st : SearchState),
      (∀ m ∈ moves, m ∈ availableMoves table) → moves.Nodup →
      RootLoop zobristTable player moves st →
      HitsSound (tryMoves zobristTable (negamax sort zobristTable 1) player beta moves first table
        alpha best st).2.trace := by
  intro first alpha best st hsub hnodup h
  obtain ⟨_, _, _, _, _, _, _, hend⟩ := tryMoves_rule zobristTable
      (negamax sort zobristTable 1) beta
    (fun rest _ _ _ st => (∀ m ∈ rest, m ∈ availableMoves table) ∧ rest.Nodup ∧
      RootLoop zobristTable player rest st)
    (by
      intro m rest _ _ _ _ hm ⟨hsub, hnodup, h⟩
      obtain ⟨hnotin, hnodup'⟩ := List.nodup_cons.mp hnodup
      have hrest : ∀ m' ∈ rest, m' ∈ availableMoves table := fun m' hm' => hsub m' (by simp [hm'])
      exact ⟨hrest, hnodup', tryMove_root zobristTable h fun m' hm' =>
        hkey m hm m' (hrest m' hm') (ne_of_mem_of_not_mem hm' hnotin).symm⟩)
    moves first alpha best st hsub ⟨hsub, hnodup, h⟩
  exact hend.hits

/-- **At depth two every answer is sound.** -/
theorem visitNode_hitsSound_two {zobristTable : ZobristWords} (hz : ZobristDistinct zobristTable)
    {table : U32} {player : Player} {alpha beta : Int} {st : SearchState}
    (hst : RootLoop zobristTable player (availableMoves table) st) :
    HitsSound (visitNode sort zobristTable 1 table player alpha beta st).2.trace := by
  have hperm := sort.perm (cmpMoves (st.record (.expand table 2 player alpha beta)))
    (availableMoves table)
  refine tryMoves_root zobristTable ?_ _ _ _ _ _ (fun m hm => hperm.mem_iff.mp hm)
    nodup_sort_availableMoves ⟨?_, hst.hashValue, fun m hm => ?_⟩
  · intro m hm m' hm' hne
    exact hz.word_ne (mem_availableMoves.mp hm).1 (mem_availableMoves.mp hm').1 hne player
  · exact List.forall_mem_cons.mpr ⟨trivial, hst.hits⟩
  · exact hst.fresh m (hperm.mem_iff.mp hm)

end Kxo
