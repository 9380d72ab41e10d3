import Kxo.Negamax.DepthTwo
import Mathlib.Data.List.Sort

/-!
# Kxo — the root call of the search

The root call starts with an empty table and `hash_value` zero, under a window wider than any score.
With sound table answers it returns the plain value and a move that attains it (`rootCall_agrees`);
at depth two the answers always are (`rootCall_hitsSound_two`). When they are at the depths below is
the subject of `Kxo/Negamax/Windows.lean`.

The module also fixes what concrete searches are run with: `zobrist_table` words with one bit each,
which have no colliding keys, and a stable sort.
-/

namespace Kxo

/-- The state of a root call: any history, empty table, `hash_value` zero. -/
def rootState (historyScoreSum historyCount : Nat → Int) : SearchState :=
  ⟨historyScoreSum, historyCount, 0, zobristClear, []⟩

/-- The root call `negamax(table, d, player, -100000, 100000)`. -/
def rootCall (sort : KernelSort) (zobristTable : ZobristWords) (d : Nat) (table : U32)
    (player : Player) (historyScoreSum historyCount : Nat → Int) : MoveT × SearchState :=
  negamax sort zobristTable d table player (-100000) 100000
    (rootState historyScoreSum historyCount)

/-- The result is the plain value, with a move that attains it. -/
def AgreesWithPlain (d : Nat) (table : U32) (player : Player) (result : MoveT) : Prop :=
  result.score = plain d table player ∧
  ∃ m ∈ availableMoves table, result.move = m ∧
    moveValue (d - 1) table player m = plain d table player

instance (d : Nat) (table : U32) (player : Player) (result : MoveT) :
    Decidable (AgreesWithPlain d table player result) :=
  inferInstanceAs (Decidable (_ ∧ _))

/-- At depth two the root call asks the table nothing it answers wrongly. -/
theorem rootCall_hitsSound_two {sort : KernelSort} {zobristTable : ZobristWords}
    (hz : ZobristDistinct zobristTable) {table : U32} (player : Player)
    (historyScoreSum historyCount : Nat → Int) (hopen : checkWin table = cellEmpty) :
    HitsSound
      (rootCall sort zobristTable 2 table player historyScoreSum historyCount).2.trace := by
  unfold rootCall
  rw [negamax_miss zobristTable hopen rfl]
  refine visitNode_hitsSound_two hz ⟨?_, rfl, fun _ _ => rfl⟩
  exact List.forall_mem_nil _

/-- A root call whose table answers are sound agrees with plain negamax: its window is wider than
any score, so fail-soft is exact. -/
theorem rootCall_agrees {sort : KernelSort} {zobristTable : ZobristWords} {d : Nat} {table : U32}
    {player : Player} {historyScoreSum historyCount : Nat → Int} (hd : 0 < d)
    (hopen : checkWin table = cellEmpty)
    (hhits : HitsSound
      (rootCall sort zobristTable d table player historyScoreSum historyCount).2.trace) :
    AgreesWithPlain d table player
      (rootCall sort zobristTable d table player historyScoreSum historyCount).1 := by
  obtain ⟨e, rfl⟩ : ∃ e, d = e + 1 := ⟨d - 1, by omega⟩
  have hst : TableBounded (rootState historyScoreSum historyCount).hashTable := tableBounded_clear
  -- an empty table has no answer, so the root position is searched
  have hget : zobristGet (rootState historyScoreSum historyCount).hashTable
      (rootState historyScoreSum historyCount).hashValue = none := rfl
  unfold rootCall at hhits ⊢
  rw [negamax_miss zobristTable hopen hget] at hhits ⊢
  have hsound := visitNode_sound zobristTable (negamax_failSoft zobristTable e) (by omega) hopen hst
    hhits
  have hin := abs_le.mp (@visitNode_bounded sort zobristTable e
    (negamax_bounded zobristTable e) table player (-100000) 100000 _ hopen hst).1.bounded
  unfold maxScore at hin
  have hscore := hsound.1.exact (by omega) (by omega)
  obtain ⟨m, hm, hmove, hval⟩ := hsound.2 (by omega) (by omega)
  exact ⟨hscore, m, hm, hmove, hval.trans hscore⟩

/-! ## A concrete search

Words with one bit each have no colliding keys. -/

/-- Bit `2 * m` for O on cell `m`, bit `2 * m + 1` for X. -/
def bitIndex (c : Nat × Player) : Nat := 2 * c.1 + (if c.2 = .x then 1 else 0)

/-- A choice of `zobrist_table` words with one bit each. -/
def bitWords : ZobristWords := fun m p => BitVec.twoPow 64 (bitIndex (m, p))

/-- Different cells have different bits. -/
theorem bitIndex_injective {c c' : Nat × Player} (h : bitIndex c = bitIndex c') : c = c' := by
  obtain ⟨m, p⟩ := c
  obtain ⟨m', p'⟩ := c'
  cases p <;> cases p' <;> simp [bitIndex] at h ⊢ <;> omega

/-- The bits of the words: each has its own and no other. -/
theorem getLsbD_bitWords {c c' : Nat × Player} (hc' : c'.1 < nGrids) :
    (bitWords c.1 c.2).getLsbD (bitIndex c') = decide (c = c') := by
  have hlt : bitIndex c' < 64 := by
    unfold bitIndex nGrids at *
    split <;> omega
  rw [bitWords, BitVec.getLsbD_twoPow]
  by_cases h : c = c'
  · simp [h, hlt]
  · have hne : bitIndex c ≠ bitIndex c' := fun heq => h (bitIndex_injective heq)
    simp [h, hne]

/-- Each added cell is a bit of its own in the key. -/
theorem getLsbD_xorKey_bitWords {added : List (Nat × Player)} (hnodup : added.Nodup)
    {c : Nat × Player} (hc : c.1 < nGrids) :
    (xorKey bitWords added).getLsbD (bitIndex c) = decide (c ∈ added) := by
  induction added with
  | nil => simp [xorKey]
  | cons a rest ih =>
    have ih' := ih (List.nodup_cons.mp hnodup).2
    unfold xorKey at ih' ⊢
    rw [List.map_cons, List.foldr_cons, BitVec.getLsbD_xor, ih', getLsbD_bitWords hc]
    by_cases ha : a = c
    · subst ha
      simp [(List.nodup_cons.mp hnodup).1]
    · simp [ha, Ne.symm ha]

/-- So different sets of cells have different keys: the key is the set. -/
theorem zobristDistinct_bitWords : ZobristDistinct bitWords := by
  intro added added' hn hn' hlt hlt' hkey c
  by_cases hc : c.1 < nGrids
  · have h := getLsbD_xorKey_bitWords hn hc
    rw [hkey, getLsbD_xorKey_bitWords hn' hc] at h
    simpa using h.symm
  · exact ⟨fun h => absurd (hlt c h) hc, fun h => absurd (hlt' c h) hc⟩

/-- A stable sort by the comparison. -/
def stableSort : KernelSort where
  sort cmp moves := moves.insertionSort fun a b => cmp a b ≤ 0
  perm _ _ := List.perm_insertionSort _ _

end Kxo
