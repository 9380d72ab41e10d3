import Kxo.Lib.WriteLog
import Kxo.Rl.Representation
import Kxo.Rl.Values

/-!
# Kxo — the store is a map that forgets (`src/rl-state.c`, `src/rl.c`)

Seen from outside, the store maps tables to pairs of scores: a table not stored has its initial
scores, a write changes one score of one table, and an operation on another table changes nothing
unless it evicts. Boards reach it as `unsigned` from `play_rl` and as `int` from
`update_state_value`.

* **`seenScores`** — what a call of `find_rl_state` would show, whether the table is stored or not.
* **`RlOp`**, **`playRl_ops`**, **`updateStateValue_ops`** — the agent's two functions are sequences
  of look-ups and writes, so what holds of all sequences holds of all use of the agent.
* **`RlRun`** — the store with a log of insertions and writes; `LogInv` says that they agree on
  every stored table.
* **`rl_forgetting`** — the scores seen are those last written since the table was inserted, or the
  initial ones; what another table's operation can do is to evict the table; and a board goes
  through `int` and back unchanged.
-/

namespace Kxo

open WriteLog

/-! ## Boards as signed words

`episode_moves` keeps boards as `int`, and a board with a piece in the last cell may be negative
there. The conversion back is modulo `2 ^ 32`. -/

/-- A board in an `int` of `episode_moves`. -/
def intOfTable (table : U32) : Int := table.toInt

/-- The `u32` parameter of `find_rl_state`, given an `int`. -/
def tableOfInt (hash : Int) : U32 := BitVec.ofInt 32 hash

/-- The two conversions give the board back, whatever its sign bit. -/
theorem tableOfInt_intOfTable (table : U32) : tableOfInt (intOfTable table) = table :=
  BitVec.ofInt_toInt

/-! ## The map

The store seen as a partial map, and the total one a caller sees. -/

/-- The scores `find_rl_state` gives a new table. -/
def initialScores (table : U32) (player : Player) : Int :=
  fixedMulS32 initialMutiplier (getScore table player)

/-- The stored scores of a table. -/
def storedScores (bucket : U32 → Nat) (s : RlStore) (table : U32) : Option (Player → Int) :=
  (s.lookup bucket table).map fun pos => (s.stBuff pos).scores

/-- The scores a call of `find_rl_state` shows. -/
def seenScores (bucket : U32 → Nat) (s : RlStore) (table : U32) : Player → Int :=
  let (pos, s) := findRlState bucket table s
  (s.stBuff pos).scores

variable {bucket : U32 → Nat} {s : RlStore}

/-- A position of the order list is found by the table it holds. -/
theorem StoreInv.storedScores_eq (h : StoreInv bucket s) {pos : Nat} (hpos : pos ∈ s.orders) :
    storedScores bucket s (s.stBuff pos).table = some (s.stBuff pos).scores := by
  rw [storedScores, h.lookup_eq_some.mpr ⟨hpos, rfl⟩]
  rfl

/-- A table has stored scores when the search finds it. -/
theorem storedScores_isSome {table : U32} :
    (storedScores bucket s table).isSome = true ↔ Stored bucket s table := by
  rw [storedScores, Option.isSome_map]
  rfl

/-- A slot of the buffer that holds a table, or none. -/
theorem StoreInv.slot_of_stored (h : StoreInv bucket s) {table : U32} {sc : Player → Int}
    (hsc : storedScores bucket s table = some sc) :
    ∃ pos ∈ s.orders, (s.stBuff pos).table = table ∧ (s.stBuff pos).scores = sc := by
  obtain ⟨pos, hfind, hpos⟩ := Option.map_eq_some_iff.mp hsc
  obtain ⟨hmem, htable⟩ := h.lookup_eq_some.mp hfind
  exact ⟨pos, hmem, htable, hpos⟩

/-! ## Look-ups

A hit changes nothing that is seen. A miss stores the initial scores, which were seen before, and
may evict other tables. -/

/-- What a call of `find_rl_state` returns: the slot of the table, with its stored scores or, when
it was not stored, its initial ones. -/
theorem StoreInv.findRlState_slot (h : StoreInv bucket s) (table : U32) :
    (findRlState bucket table s).1 ∈ (findRlState bucket table s).2.orders ∧
      ((findRlState bucket table s).2.stBuff (findRlState bucket table s).1).table = table ∧
      seenScores bucket s table = (storedScores bucket s table).getD (initialScores table) := by
  unfold seenScores
  cases hfind : s.lookup bucket table with
  | some pos =>
    obtain ⟨hpos, htable⟩ := h.lookup_eq_some.mp hfind
    rw [findRlState_hit hfind]
    refine ⟨by simp [RlStore.moveTail], htable, ?_⟩
    rw [storedScores, hfind]
    rfl
  | none =>
    rw [findRlState_miss hfind, storedScores, hfind]
    refine ⟨?_, ?_, ?_⟩
    · simp [RlStore.insert]
    · simp [RlStore.insert]
    · simp only [RlStore.insert, Function.update_self]
      rfl

/-- **The frame of a look-up.** A table other than the one looked up keeps its scores or is
evicted. -/
theorem StoreInv.storedScores_find_other (h : StoreInv bucket s) {table u : U32} (hu : u ≠ table)
    (hkept : Stored bucket (findRlState bucket table s).2 u) :
    storedScores bucket (findRlState bucket table s).2 u = storedScores bucket s u := by
  obtain ⟨hinv, _⟩ := findRlState_refines h table
  obtain ⟨sc, hsc⟩ := Option.isSome_iff_exists.mp (storedScores_isSome.mpr hkept)
  obtain ⟨pos, hpos, htable, hscores⟩ := hinv.slot_of_stored hsc
  rw [hsc]
  cases hfind : s.lookup bucket table with
  | some q =>
    rw [findRlState_hit hfind] at hpos htable hscores
    have hpos' : pos ∈ s.orders := by
      have hq := (h.lookup_eq_some.mp hfind).1
      simp only [RlStore.moveTail, List.mem_append, List.mem_filter, List.mem_singleton] at hpos
      rcases hpos with hpos | rfl
      · exact hpos.1
      · exact hq
    rw [← htable, ← hscores]
    exact (h.storedScores_eq hpos').symm
  | none =>
    obtain ⟨_, _, hroom⟩ := h.makeRoom
    rw [findRlState_miss hfind] at hpos htable hscores
    simp only [RlStore.insert] at hpos htable hscores
    -- the slot filled holds the table looked up, so `u` is in another one
    have hne : pos ≠ Kxo.findFirstZeroBit (Kxo.makeRoom s).stMap := by
      intro heq
      rw [heq, Function.update_self] at htable
      exact hu htable.symm
    rw [Function.update_of_ne hne] at htable hscores
    obtain ⟨hpos', hbuff⟩ := hroom pos ((List.mem_cons.mp hpos).resolve_left hne)
    rw [hbuff] at htable hscores
    rw [← htable, ← hscores]
    exact (h.storedScores_eq hpos').symm

/-- After a look-up the table is stored with the scores that were seen. -/
theorem StoreInv.storedScores_find_self (h : StoreInv bucket s) (table : U32) :
    storedScores bucket (findRlState bucket table s).2 table =
      some (seenScores bucket s table) := by
  obtain ⟨hinv, _⟩ := findRlState_refines h table
  obtain ⟨hpos, htable, _⟩ := h.findRlState_slot table
  have hself := hinv.storedScores_eq hpos
  rw [htable] at hself
  exact hself

/-- A look-up stores no other table. -/
theorem StoreInv.stored_of_find (h : StoreInv bucket s) {table u : U32} (hu : u ≠ table)
    (hkept : Stored bucket (findRlState bucket table s).2 u) : Stored bucket s u := by
  rw [← storedScores_isSome, ← h.storedScores_find_other hu hkept, storedScores_isSome]
  exact hkept

/-! ## Writes

Scores are written through a position that a look-up has just returned. -/

/-- A write changes no table, so the search finds what it found before. -/
theorem table_setScore (pos : Nat) (player : Player) (v : Int) (q : Nat) :
    ((s.setScore pos player v).stBuff q).table = (s.stBuff q).table := by
  by_cases hq : q = pos
  · subst hq
    simp [RlStore.setScore]
  · simp [RlStore.setScore, hq]

/-- A write of a score changes no table, so the search finds what it found. -/
theorem lookup_setScore (pos : Nat) (player : Player) (v : Int) (table : U32) :
    (s.setScore pos player v).lookup bucket table = s.lookup bucket table := by
  simp only [RlStore.lookup, table_setScore]
  rfl

/-- And it keeps the invariant. -/
theorem StoreInv.setScore (h : StoreInv bucket s) (pos : Nat) (player : Player) (v : Int) :
    StoreInv bucket (s.setScore pos player v) where
  nodup := h.nodup
  lt := h.lt
  map := h.map
  chain k p := by
    rw [table_setScore]
    exact h.chain k p
  inj p hp q hq := by
    rw [table_setScore, table_setScore]
    exact h.inj p hp q hq
  room := h.room

/-- The map after a write: one score of one table. -/
theorem StoreInv.storedScores_setScore (h : StoreInv bucket s) {pos : Nat} (hpos : pos ∈ s.orders)
    (player : Player) (v : Int) (u : U32) :
    storedScores bucket (s.setScore pos player v) u =
      if u = (s.stBuff pos).table then some (Function.update (s.stBuff pos).scores player v)
      else storedScores bucket s u := by
  rw [storedScores, lookup_setScore]
  split
  case isTrue hu =>
    subst hu
    rw [h.lookup_eq_some.mpr ⟨hpos, rfl⟩]
    simp [RlStore.setScore]
  case isFalse hu =>
    rw [storedScores]
    cases hfind : s.lookup bucket u with
    | none => rfl
    | some q =>
      have hq : q ≠ pos := by
        rintro rfl
        exact hu (h.lookup_eq_some.mp hfind).2.symm
      simp [RlStore.setScore, hq]

/-! ## Operations -/

/-- What the agent does with the store: look a board up, as `play_rl` does, or look one up through
an `int` and write one of its scores, as `update_state_value` does. -/
inductive RlOp where
  | lookup (table : U32)
  | write (afterStateHash : Int) (player : Player) (score : Int)

/-- The board an operation addresses. -/
def RlOp.table : RlOp → U32
  | .lookup table => table
  | .write afterStateHash _ _ => tableOfInt afterStateHash

def RlOp.run (bucket : U32 → Nat) (s : RlStore) (op : RlOp) : RlStore :=
  let (pos, s) := findRlState bucket op.table s
  match op with
  | .lookup _ => s
  | .write _ player score => s.setScore pos player score

/-! ## The agent's operations

`play_rl` looks boards up; `update_state_value` looks a board up and writes the new score to it. -/

/-- `play_rl` looks up the board after each of its moves. -/
theorem playRl_ops (bucket : U32 → Nat) (rnd : Nat → Nat) (table : U32) (player : Player)
    (s : RlStore) :
    (playRl bucket rnd table player s).2 =
      ((availableMoves table).map fun i => RlOp.lookup (valSetCell table i player.cell)).foldl
        (RlOp.run bucket) s := by
  have hloop : ∀ (moves : List Nat) (c : RlChoice),
      (moves.foldl (tryRlCell bucket rnd table player) c).store =
        (moves.map fun i => RlOp.lookup (valSetCell table i player.cell)).foldl
          (RlOp.run bucket) c.store := by
    intro moves
    induction moves with
    | nil => exact fun _ => rfl
    | cons i rest ih =>
      intro c
      rw [List.foldl_cons, ih, tryRlCell_store, List.map_cons, List.foldl_cons]
      rfl
  exact hloop _ _

/-- `update_state_value` writes through the logged boards, the last one first. -/
theorem updateStateValue_ops (bucket : U32 → Nat) (afterStateHash : Nat → U32) (reward : Nat → Int)
    (steps : Nat) (player : Player) (s : RlStore) :
    ∃ ops : List RlOp,
      updateStateValue bucket afterStateHash reward steps player s =
        ops.foldl (RlOp.run bucket) s ∧
      ∀ op ∈ ops, ∃ j score, j < steps ∧ afterStateHash j ≠ 0 ∧
        op = .write (intOfTable (afterStateHash j)) player score := by
  -- the loop goes down from the last step, so the induction is on the step it is at
  have hloop : ∀ (j : Nat) (next : Int) (s : RlStore), ∃ ops : List RlOp,
      updateLoop bucket afterStateHash reward player j next s = ops.foldl (RlOp.run bucket) s ∧
      ∀ op ∈ ops, ∃ i score, i < j ∧ afterStateHash i ≠ 0 ∧
        op = .write (intOfTable (afterStateHash i)) player score := by
    intro j
    induction j with
    | zero => exact fun _ s => ⟨[], rfl, by simp⟩
    | succ j ih =>
      intro next s
      rw [updateLoop]
      split
      case isTrue hlogged =>
        set r := stepUpdateStateValue bucket (afterStateHash j) (reward j) next player s with hr
        obtain ⟨ops, hrun, hops⟩ := ih r.1 r.2
        refine ⟨.write (intOfTable (afterStateHash j)) player r.1 :: ops, ?_, ?_⟩
        · rw [List.foldl_cons]
          refine hrun.trans (congrArg (List.foldl (RlOp.run bucket) · ops) ?_)
          rw [hr, RlOp.run, RlOp.table, tableOfInt_intOfTable]
          rfl
        · intro op hop
          rcases List.mem_cons.mp hop with rfl | hop
          · exact ⟨j, r.1, by omega, hlogged, rfl⟩
          · obtain ⟨i, score, hi, hrest⟩ := hops op hop
            exact ⟨i, score, by omega, hrest⟩
      case isFalse =>
        obtain ⟨ops, hrun, hops⟩ := ih next s
        refine ⟨ops, hrun, fun op hop => ?_⟩
        obtain ⟨i, score, hi, hrest⟩ := hops op hop
        exact ⟨i, score, by omega, hrest⟩
  exact hloop steps 0 s

/-! ## The log

Insertions are logged as well as writes, because an insertion after an eviction gives the table its
initial scores again. -/

/-- The store after some operations, with the log of insertions and writes, most recent first. -/
structure RlRun where
  store : RlStore
  log : List (Entry U32 Player Int)

def RlRun.op (bucket : U32 → Nat) (r : RlRun) (op : RlOp) : RlRun where
  store := op.run bucket r.store
  log :=
    let log := if (r.store.lookup bucket op.table).isSome then r.log else .insert op.table :: r.log
    match op with
    | .lookup _ => log
    | .write _ player score => .write op.table player score :: log

/-- The operations of a list, from module load on. -/
def runOps (bucket : U32 → Nat) (ops : List RlOp) : RlRun :=
  ops.foldl (RlRun.op bucket) ⟨initRlAgent, []⟩

/-- Every operation keeps the invariant. -/
theorem StoreInv.run (h : StoreInv bucket s) (op : RlOp) : StoreInv bucket (op.run bucket s) := by
  obtain ⟨hinv, _⟩ := findRlState_refines h op.table
  cases op with
  | lookup => exact hinv
  | write => exact hinv.setScore _ _ _

/-- **The frame of an operation.** It stores no table but its own, and a table it does not evict
keeps its scores. -/
theorem StoreInv.storedScores_run_other (h : StoreInv bucket s) {op : RlOp} {u : U32}
    (hu : u ≠ op.table) (hkept : Stored bucket (op.run bucket s) u) :
    Stored bucket s u ∧ storedScores bucket (op.run bucket s) u = storedScores bucket s u := by
  cases op with
  | lookup table => exact ⟨h.stored_of_find hu hkept, h.storedScores_find_other hu hkept⟩
  | write hash player score =>
    obtain ⟨hinv, _⟩ := findRlState_refines h (tableOfInt hash)
    obtain ⟨hpos, htable, _⟩ := h.findRlState_slot (tableOfInt hash)
    have hu' : u ≠ tableOfInt hash := hu
    have hscores := hinv.storedScores_setScore hpos player score u
    rw [htable, if_neg hu'] at hscores
    have hfound : Stored bucket (findRlState bucket (tableOfInt hash) s).2 u := by
      rw [Stored, ← lookup_setScore _ player score]
      exact hkept
    exact ⟨h.stored_of_find hu hfound, hscores.trans (h.storedScores_find_other hu hfound)⟩

/-- The log agrees with the store: every stored table has the scores last written. -/
structure LogInv (bucket : U32 → Nat) (r : RlRun) : Prop where
  store : StoreInv bucket r.store
  scores : ∀ t, Stored bucket r.store t →
    storedScores bucket r.store t = some (lastWritten initialScores r.log t)

/-- The look-up of an operation shows the scores the log has once the insertion is noted. -/
theorem LogInv.seenScores_eq {r : RlRun} (h : LogInv bucket r) (table : U32) :
    seenScores bucket r.store table = lastWritten initialScores
      (if (r.store.lookup bucket table).isSome then r.log else .insert table :: r.log) table := by
  obtain ⟨_, _, hseen⟩ := h.store.findRlState_slot table
  rw [hseen]
  split
  case isTrue hfound => rw [h.scores table hfound, Option.getD_some]
  case isFalse hfound =>
    have hnone : storedScores bucket r.store table = none := by
      rw [storedScores, Option.not_isSome_iff_eq_none.mp hfound]
      rfl
    rw [hnone, Option.getD_none, lastWritten_insert]

/-- The log of an operation on another table. -/
theorem lastWritten_op_other (r : RlRun) {op : RlOp} {u : U32} (hu : u ≠ op.table) :
    lastWritten initialScores (r.op bucket op).log u = lastWritten initialScores r.log u := by
  have hfind : lastWritten initialScores (if (r.store.lookup bucket op.table).isSome then r.log
      else .insert op.table :: r.log) u = lastWritten initialScores r.log u := by
    split
    · rfl
    · exact lastWritten_of_ne _ _ hu
  cases op with
  | lookup => exact hfind
  | write => exact (lastWritten_of_ne _ _ hu).trans hfind

/-- One operation and its log entries. -/
theorem LogInv.op {r : RlRun} (h : LogInv bucket r) (op : RlOp) :
    LogInv bucket (r.op bucket op) := by
  refine ⟨h.store.run op, fun u hu => ?_⟩
  by_cases hne : u = op.table
  · subst hne
    have hself := h.store.storedScores_find_self op.table
    rw [h.seenScores_eq] at hself
    cases op with
    | lookup => exact hself
    | write hash player score =>
      simp only [RlOp.table] at hself
      obtain ⟨hinv, _⟩ := findRlState_refines h.store (tableOfInt hash)
      obtain ⟨hpos, htable, _⟩ := h.store.findRlState_slot (tableOfInt hash)
      have hscores := hinv.storedScores_setScore hpos player score (tableOfInt hash)
      -- the slot written is the one the look-up returned
      rw [htable, if_pos rfl] at hscores
      refine hscores.trans ?_
      have hold := hinv.storedScores_eq hpos
      rw [htable, hself] at hold
      rw [← Option.some.inj hold]
      exact congrArg some (lastWritten_write _ _ _ _ _).symm
  · obtain ⟨hbefore, hsame⟩ := h.store.storedScores_run_other hne hu
    rw [lastWritten_op_other r hne, ← h.scores u hbefore]
    exact hsame

/-- Any operations from module load on. -/
theorem runOps_logInv (bucket : U32 → Nat) (ops : List RlOp) :
    LogInv bucket (runOps bucket ops) := by
  have hrun : ∀ r : RlRun, LogInv bucket r → LogInv bucket (ops.foldl (RlRun.op bucket) r) := by
    induction ops with
    | nil => exact fun r h => h
    | cons op rest ih => exact fun r h => ih _ (h.op op)
  refine hrun _ ⟨initRlAgent_storeInv bucket, fun t ht => ?_⟩
  simp [Stored, initRlAgent, RlStore.lookup] at ht

/-- **The store is a map with forgetting.** After any operations, with any hash function: a look-up
shows a stored table the scores last written since it was inserted, and any other table its initial
ones; an operation on another table leaves the scores shown for a table alone, unless it evicts it;
and a board addresses the same scores through an `int` as through an `unsigned`. -/
theorem rl_forgetting (bucket : U32 → Nat) (ops : List RlOp) (t : U32) :
    (Stored bucket (runOps bucket ops).store t →
      seenScores bucket (runOps bucket ops).store t =
        lastWritten initialScores (runOps bucket ops).log t) ∧
    (¬ Stored bucket (runOps bucket ops).store t →
      seenScores bucket (runOps bucket ops).store t =
        fun player => fixedMulS32 initialMutiplier (getScore t player)) ∧
    (∀ op : RlOp, t ≠ op.table →
      seenScores bucket (op.run bucket (runOps bucket ops).store) t =
          seenScores bucket (runOps bucket ops).store t ∨
        Stored bucket (runOps bucket ops).store t ∧
          ¬ Stored bucket (op.run bucket (runOps bucket ops).store) t) ∧
    findRlState bucket (tableOfInt (intOfTable t)) (runOps bucket ops).store =
      findRlState bucket t (runOps bucket ops).store := by
  have h := runOps_logInv bucket ops
  have hnone : ∀ r : RlStore, ¬ Stored bucket r t → storedScores bucket r t = none := by
    intro r hr
    rw [← storedScores_isSome] at hr
    exact Option.not_isSome_iff_eq_none.mp hr
  obtain ⟨_, _, hseen⟩ := h.store.findRlState_slot t
  refine ⟨fun hs => ?_, fun hs => ?_, fun op hop => ?_, by rw [tableOfInt_intOfTable]⟩
  · rw [hseen, h.scores t hs, Option.getD_some]
  · rw [hseen, hnone _ hs]
    rfl
  · obtain ⟨_, _, hseen'⟩ := (h.store.run op).findRlState_slot t
    -- another board's operation leaves the scores, or evicts the board
    by_cases hafter : Stored bucket (op.run bucket (runOps bucket ops).store) t
    · left
      rw [hseen, hseen', (h.store.storedScores_run_other hop hafter).2]
    · by_cases hbefore : Stored bucket (runOps bucket ops).store t
      · exact .inr ⟨hbefore, hafter⟩
      · left
        rw [hseen, hseen', hnone _ hbefore, hnone _ hafter]

end Kxo
