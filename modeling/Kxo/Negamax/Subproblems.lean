import Kxo.Negamax.Calls
import Kxo.Negamax.Root

/-!
# Kxo — what a transposition hit is for (`src/negamax.c`, `src/zobrist.c`)

The key of a position is the XOR of the words of the cells added since the root, and says neither
whose move it is nor how deep the search still goes. Both follow from the number of cells added,
since every call is reached from the root by moves of the two players in turn. So a key determines
its call, and an entry found was stored by the same call; when every allocation succeeds, a position
tried once is found in the table until the end of the round.

## The architecture

* **`CallPath`** — the calls that a search of `root` can make, with the cells added on the way, as
  an inductive relation over the moves. What a call's key, depth and player are is read off it:
  `CallPath.key`, `CallPath.turn`, `CallPath.cells`.
* **`CallPath.eq_of_key`** — two calls with the same key are the same call, if the words tell sets
  of cells apart; `CallPath.eq_of_table` is the same from the board instead of the key.
* **`RoundInv`** — what the log of a round says of the table whatever the allocations do: every
  entry was stored by a call of the log, every answer came from the same call's entry.
* **`OnceInv`**, **`Closed`** — what it says when every allocation succeeds: no board is tried
  twice. `Closed` names the exception, the calls that are still running.
* **`Searched`** — what a piece of a search does, from one state to another. It composes
  (`Searched.trans`), so each case of the recursion is proved alone and `negamaxLogged_spec` puts
  them together by induction on the depth.
* **`negamaxPredict_subproblems`** — the three rounds of every call of `negamax_predict`.
-/

namespace Kxo

variable {sort : KernelSort} {zobristTable : ZobristWords} {alloc : Nat → Bool}

/-! ## Cells added since the root

A position is seen as the set of cells it has beyond the root, each with its player. The order in
which they were added is lost, and the key does not depend on it. -/

/-- The cells of a board with their players. -/
def boardCells : List (Nat × Player) :=
  (List.range nGrids).flatMap fun i => [(i, Player.o), (i, Player.x)]

/-- The cells that `table` has beyond `root`. -/
def addedCells (root table : U32) : List (Nat × Player) :=
  boardCells.filter fun c =>
    tableGetCell root c.1 = cellEmpty ∧ tableGetCell table c.1 = c.2.cell

/-- `table` is `root` with cells added. -/
def Extends (root table : U32) : Prop :=
  ∀ i, i < nGrids →
    tableGetCell table i = tableGetCell root i ∨ ∃ p, (i, p) ∈ addedCells root table

/-- The cells of a board, once for each player. -/
theorem mem_boardCells {c : Nat × Player} : c ∈ boardCells ↔ c.1 < nGrids := by
  obtain ⟨i, p⟩ := c
  simp only [boardCells, List.mem_flatMap, List.mem_range, List.mem_cons, Prod.mk.injEq,
    List.not_mem_nil, or_false]
  constructor
  · rintro ⟨j, hj, ⟨rfl, _⟩ | ⟨rfl, _⟩⟩ <;> exact hj
  · intro hi
    cases p with
    | o => exact ⟨i, hi, .inl ⟨rfl, rfl⟩⟩
    | x => exact ⟨i, hi, .inr ⟨rfl, rfl⟩⟩

/-- A cell was added when the root has it empty and the table has a piece there. -/
theorem mem_addedCells {root table : U32} {c : Nat × Player} :
    c ∈ addedCells root table ↔ c.1 < nGrids ∧ tableGetCell root c.1 = cellEmpty ∧
      tableGetCell table c.1 = c.2.cell := by
  rw [addedCells, List.mem_filter, mem_boardCells, decide_eq_true_iff]

/-- No cell is listed twice. -/
theorem nodup_addedCells (root table : U32) : (addedCells root table).Nodup :=
  List.Nodup.filter _ (by decide)

/-- The key does not depend on the order of the cells. -/
theorem xorKey_perm {added added' : List (Nat × Player)} (h : added.Perm added') :
    xorKey zobristTable added = xorKey zobristTable added' := by
  refine (h.map _).foldr_eq' (fun x _ y _ z => ?_) 0
  rw [← BitVec.xor_assoc, ← BitVec.xor_assoc, BitVec.xor_comm y x]

/-! ## Paths from the root

A call's depth and player follow from how many cells were added, by induction on the path. So the
set of cells is all there is to know of a call. -/

section Paths

variable {root : U32} {p₀ : Player} {depth₀ : Nat}

/-- The calls a search of `root` can make, with the cells added on the way. -/
inductive CallPath (zobristTable : ZobristWords) (root : U32) (p₀ : Player) (depth₀ : Nat) :
    Call → List (Nat × Player) → Prop where
  | root : CallPath zobristTable root p₀ depth₀ ⟨root, depth₀, p₀, 0⟩ []
  | move {table : U32} {depth : Nat} {player : Player} {key : U64} {added : List (Nat × Player)}
      {m : Nat} : CallPath zobristTable root p₀ depth₀ ⟨table, depth + 1, player, key⟩ added →
      m ∈ availableMoves table →
      CallPath zobristTable root p₀ depth₀
        ⟨valSetCell table m player.cell, depth, player.opp, key ^^^ zobristTable m player⟩
        ((m, player) :: added)

namespace CallPath

variable {c c' : Call} {added added' : List (Nat × Player)}

/-- The call a round starts with. -/
theorem of_zero {key : U64} (h : key = 0) :
    CallPath zobristTable root p₀ depth₀ ⟨root, depth₀, p₀, key⟩ [] := by
  rw [h]
  exact .root

/-- The key of a call is that of the cells added. -/
theorem key (h : CallPath zobristTable root p₀ depth₀ c added) :
    c.hashValue = xorKey zobristTable added := by
  induction h with
  | root => rfl
  | move _ _ ih =>
    dsimp only at ih ⊢
    rw [ih, BitVec.xor_comm]
    rfl

/-- Remaining depth and player to move are those of the root, so many moves later. -/
theorem turn (h : CallPath zobristTable root p₀ depth₀ c added) :
    c.depth + added.length = depth₀ ∧
      c.player = if added.length % 2 = 0 then p₀ else p₀.opp := by
  induction h with
  | root => exact ⟨rfl, rfl⟩
  | @move table depth player key added m _ _ ih =>
    obtain ⟨hdepth, hplayer⟩ := ih
    dsimp only at hdepth hplayer ⊢
    rw [List.length_cons, hplayer]
    refine ⟨by omega, ?_⟩
    split
    · rw [if_neg (by omega)]
    · rw [if_pos (by omega), Player.opp_opp]

/-- The cells of the board are the added ones and those of the root. -/
theorem cells (h : CallPath zobristTable root p₀ depth₀ c added) :
    added.Nodup ∧ (∀ a ∈ added, a.1 < nGrids ∧ tableGetCell root a.1 = cellEmpty ∧
        tableGetCell c.table a.1 = a.2.cell) ∧
      ∀ i, i < nGrids → (∀ p, (i, p) ∉ added) →
        tableGetCell c.table i = tableGetCell root i := by
  induction h with
  | root => exact ⟨List.nodup_nil, by simp, fun _ _ _ => rfl⟩
  | @move table depth player key added m _ hm ih =>
    obtain ⟨hnodup, hadded, hothers⟩ := ih
    obtain ⟨hlt, hempty⟩ := mem_availableMoves.mp hm
    dsimp only at hadded hothers ⊢
    -- the cell of the move is not one of those added before, which are taken
    have hfresh : ∀ p, (m, p) ∉ added := by
      intro p hp
      obtain ⟨_, _, hcell⟩ := hadded (m, p) hp
      exact p.cell_ne_empty (hcell.symm.trans hempty)
    refine ⟨List.nodup_cons.mpr ⟨hfresh player, hnodup⟩, ?_, ?_⟩
    · intro a ha
      rcases List.mem_cons.mp ha with rfl | hbefore
      · exact ⟨hlt, (hothers m hlt hfresh).symm.trans hempty,
          tableGetCell_valSetCell_same table hlt player.fits_cell⟩
      · obtain ⟨hi, hroot, hcell⟩ := hadded a hbefore
        have hne : a.1 ≠ m := by
          intro heq
          exact hfresh a.2 (heq ▸ hbefore)
        exact ⟨hi, hroot,
          by rw [tableGetCell_valSetCell table hi player.fits_cell, if_neg hne]; exact hcell⟩
    · intro i hi hnot
      have hne : i ≠ m := by
        rintro rfl
        exact hnot player (by simp)
      rw [tableGetCell_valSetCell table hi player.fits_cell, if_neg hne]
      exact hothers i hi fun p hp => hnot p (by simp [hp])

/-- A path adds exactly the cells its board has beyond the root. -/
theorem mem_iff (h : CallPath zobristTable root p₀ depth₀ c added) (a : Nat × Player) :
    a ∈ added ↔ a ∈ addedCells root c.table := by
  obtain ⟨_, hadded, hothers⟩ := h.cells
  rw [mem_addedCells]
  constructor
  · exact hadded a
  · rintro ⟨hi, hroot, hcell⟩
    by_contra hnot
    have hnone : ∀ p, (a.1, p) ∉ added := by
      intro p hp
      obtain ⟨_, _, hcell'⟩ := hadded _ hp
      have hsame : p = a.2 := Player.eq_of_ne_opp fun hopp => by
        rw [hopp] at hcell'
        exact Player.cell_opp_ne a.2 (hcell'.symm.trans hcell)
      rw [hsame] at hp
      exact hnot hp
    have hempty := hothers a.1 hi hnone
    rw [hroot, hcell] at hempty
    exact a.2.cell_ne_empty hempty

/-- The cells added on the way are those that the board has beyond the root, in some order. -/
theorem perm_addedCells (h : CallPath zobristTable root p₀ depth₀ c added) :
    added.Perm (addedCells root c.table) :=
  (List.perm_ext_iff_of_nodup h.cells.1 (nodup_addedCells root c.table)).mpr h.mem_iff

/-- `hash_value` is the XOR of the words of exactly the cells added since the root. -/
theorem key_addedCells (h : CallPath zobristTable root p₀ depth₀ c added) :
    Extends root c.table ∧ c.hashValue = xorKey zobristTable (addedCells root c.table) := by
  refine ⟨fun i hi => ?_, h.key.trans (xorKey_perm h.perm_addedCells)⟩
  by_cases hadded : ∃ p, (i, p) ∈ added
  · obtain ⟨p, hp⟩ := hadded
    exact .inr ⟨p, (h.mem_iff _).mp hp⟩
  · exact .inl (h.cells.2.2 i hi fun p hp => hadded ⟨p, hp⟩)

/-- Paths that add the same cells end in the same call. -/
theorem eq_of_mem_iff (h : CallPath zobristTable root p₀ depth₀ c added)
    (h' : CallPath zobristTable root p₀ depth₀ c' added') (hmem : ∀ a, a ∈ added ↔ a ∈ added') :
    c = c' := by
  have hperm : added.Perm added' :=
    (List.perm_ext_iff_of_nodup h.cells.1 h'.cells.1).mpr hmem
  have hlen := hperm.length_eq
  obtain ⟨hdepth, hplayer⟩ := h.turn
  obtain ⟨hdepth', hplayer'⟩ := h'.turn
  have htable : c.table = c'.table := by
    refine eq_of_tableGetCell_eq fun i hi => ?_
    by_cases hadded : ∃ p, (i, p) ∈ added
    · obtain ⟨p, hp⟩ := hadded
      have hcell := (h.cells.2.1 _ hp).2.2
      have hcell' := (h'.cells.2.1 _ ((hmem _).mp hp)).2.2
      exact hcell.trans hcell'.symm
    · have hnot : ∀ p, (i, p) ∉ added := fun p hp => hadded ⟨p, hp⟩
      rw [h.cells.2.2 i hi hnot, h'.cells.2.2 i hi fun p hp => hnot p ((hmem _).mpr hp)]
  cases c
  cases c'
  simp only [Call.mk.injEq] at *
  refine ⟨htable, by omega, ?_, ?_⟩
  · rw [hplayer, hplayer', hlen]
  · exact h.key.trans ((xorKey_perm hperm).trans h'.key.symm)

/-- **A key determines its call.** -/
theorem eq_of_key (hz : ZobristDistinct zobristTable)
    (h : CallPath zobristTable root p₀ depth₀ c added)
    (h' : CallPath zobristTable root p₀ depth₀ c' added') (hkey : c.hashValue = c'.hashValue) :
    c = c' := by
  refine h.eq_of_mem_iff h' (hz added added' h.cells.1 h'.cells.1
    (fun a ha => (h.cells.2.1 a ha).1) (fun a ha => (h'.cells.2.1 a ha).1) ?_)
  rw [← h.key, ← h'.key, hkey]

/-- So does a board. -/
theorem eq_of_table (h : CallPath zobristTable root p₀ depth₀ c added)
    (h' : CallPath zobristTable root p₀ depth₀ c' added') (htable : c.table = c'.table) : c = c' :=
  h.eq_of_mem_iff h' fun a => by rw [h.mem_iff, h'.mem_iff, htable]

end CallPath

end Paths

/-! ## What the log says of the table

The log is a history variable, most recent event first. Each lemma says how one kind of event keeps
the invariants. -/

/-- An entry stored by the call. -/
def StoredIn (log : List CallEvent) (c : Call) : Prop :=
  ∃ score move, CallEvent.store c score move ∈ log

/-- The call is written down as one that begins, tries its moves or adds an entry. -/
def MadeIn (log : List CallEvent) (c : Call) : Prop :=
  .enter c ∈ log ∨ .expand c ∈ log ∨ StoredIn log c

/-- Whenever a call was answered from the table, it had stored the answer itself before. -/
def HitsOwn (log : List CallEvent) : Prop :=
  ∀ newer c score move older, log = newer ++ .hit c score move :: older →
    .store c score move ∈ older

/-- The board of a call that tries its moves. -/
def CallEvent.expanded : CallEvent → Option U32
  | .expand c => some c.table
  | _ => none

/-- A new event may be an answer only if the entry was stored before. -/
theorem HitsOwn.cons {log : List CallEvent} (h : HitsOwn log) {e : CallEvent}
    (he : ∀ c score move, e = .hit c score move → .store c score move ∈ log) :
    HitsOwn (e :: log) := by
  intro newer c score move older heq
  cases newer with
  | nil =>
    obtain ⟨rfl, rfl⟩ := List.cons.inj heq
    exact he c score move rfl
  | cons e' newer =>
    obtain ⟨_, hrest⟩ := List.cons.inj heq
    exact h newer c score move older hrest

/-- What was stored stays in the log. -/
theorem StoredIn.mono {log log' : List CallEvent} {c : Call} (h : StoredIn log c)
    (hsub : log ⊆ log') : StoredIn log' c := by
  obtain ⟨score, move, hmem⟩ := h
  exact ⟨score, move, hsub hmem⟩

section Invariant

variable (zobristTable) in
/-- What holds of the log of a round and of the table, whatever the allocations do. -/
structure RoundInv (root : U32) (p₀ : Player) (depth₀ : Nat) (log : List CallEvent)
    (t : ZobristTable) : Prop where
  paths : ∀ c, MadeIn log c → ∃ added, CallPath zobristTable root p₀ depth₀ c added
  restores : ∀ c key, .leave c key ∈ log → key = c.hashValue
  hits : HitsOwn log
  /-- Every entry of the table has been stored by a call with its key. -/
  entries : ∀ key score move, zobristGet t key = some (score, move) →
    ∃ c, .store c score move ∈ log ∧ c.hashValue = key

/-- What holds when every allocation succeeds: what was stored is found, and no board was tried
twice. -/
structure OnceInv (log : List CallEvent) (t : ZobristTable) : Prop where
  found : ∀ c, StoredIn log c → (zobristGet t c.hashValue).isSome = true
  once : (log.filterMap CallEvent.expanded).Nodup

/-- Every call that tries its moves has stored its answer, except those still running, which are
deeper than `depth`. -/
def Closed (depth : Nat) (log : List CallEvent) : Prop :=
  ∀ c, .expand c ∈ log → StoredIn log c ∨ depth < c.depth

variable {root : U32} {p₀ : Player} {depth₀ : Nat} {log : List CallEvent} {t : ZobristTable}

/-- An event that makes no call and stores nothing. -/
theorem RoundInv.add (h : RoundInv zobristTable root p₀ depth₀ log t) {e : CallEvent}
    (hpath : ∀ c, e = .enter c ∨ e = .expand c →
      ∃ added, CallPath zobristTable root p₀ depth₀ c added)
    (hstore : ∀ c score move, e ≠ .store c score move)
    (hhit : ∀ c score move, e = .hit c score move → .store c score move ∈ log)
    (hleave : ∀ c key, e = .leave c key → key = c.hashValue) :
    RoundInv zobristTable root p₀ depth₀ (e :: log) t where
  paths c hc := by
    rcases hc with hc | hc | ⟨score, move, hc⟩
    · rcases List.mem_cons.mp hc with heq | hc
      · exact hpath c (.inl heq.symm)
      · exact h.paths c (.inl hc)
    · rcases List.mem_cons.mp hc with heq | hc
      · exact hpath c (.inr heq.symm)
      · exact h.paths c (.inr (.inl hc))
    · rcases List.mem_cons.mp hc with heq | hc
      · exact absurd heq.symm (hstore c score move)
      · exact h.paths c (.inr (.inr ⟨score, move, hc⟩))
  restores c key hc := by
    rcases List.mem_cons.mp hc with heq | hc
    · exact hleave c key heq.symm
    · exact h.restores c key hc
  hits := h.hits.cons hhit
  entries key score move hget := by
    obtain ⟨c, hc, hkey⟩ := h.entries key score move hget
    exact ⟨c, List.mem_cons_of_mem _ hc, hkey⟩

/-- A call begins. -/
theorem RoundInv.enter (h : RoundInv zobristTable root p₀ depth₀ log t) {c : Call}
    {added : List (Nat × Player)} (hc : CallPath zobristTable root p₀ depth₀ c added) :
    RoundInv zobristTable root p₀ depth₀ (.enter c :: log) t := by
  refine h.add ?_ (by simp) (by simp) (by simp)
  rintro c' (heq | heq)
  · exact CallEvent.enter.inj heq ▸ ⟨added, hc⟩
  · cases heq

/-- A call begins to try its moves. -/
theorem RoundInv.expand (h : RoundInv zobristTable root p₀ depth₀ log t) {c : Call}
    {added : List (Nat × Player)} (hc : CallPath zobristTable root p₀ depth₀ c added) :
    RoundInv zobristTable root p₀ depth₀ (.expand c :: log) t := by
  refine h.add ?_ (by simp) (by simp) (by simp)
  rintro c' (heq | heq)
  · cases heq
  · exact CallEvent.expand.inj heq ▸ ⟨added, hc⟩

/-- A call is answered with an entry that it has stored itself. -/
theorem RoundInv.hit (h : RoundInv zobristTable root p₀ depth₀ log t) {c : Call} {score move : Int}
    (hstored : .store c score move ∈ log) :
    RoundInv zobristTable root p₀ depth₀ (.hit c score move :: log) t := by
  refine h.add ?_ (by simp) ?_ (by simp)
  · rintro c' (heq | heq) <;> cases heq
  · intro c' score' move' heq
    cases heq
    exact hstored

/-- A call returns, with `hash_value` as it found it. -/
theorem RoundInv.leave (h : RoundInv zobristTable root p₀ depth₀ log t) (c : Call) :
    RoundInv zobristTable root p₀ depth₀ (.leave c c.hashValue :: log) t := by
  refine h.add ?_ (by simp) (by simp) ?_
  · rintro c' (heq | heq) <;> cases heq
  · intro c' key heq
    cases heq
    rfl

/-- A call that stores its answer under its own key. -/
theorem RoundInv.store (h : RoundInv zobristTable root p₀ depth₀ log t) {c : Call}
    {added : List (Nat × Player)} (hc : CallPath zobristTable root p₀ depth₀ c added)
    (score move : Int) :
    RoundInv zobristTable root p₀ depth₀ (.store c score move :: log)
      (zobristPut true t c.hashValue score move) where
  paths c' hc' := by
    rcases hc' with hc' | hc' | ⟨score', move', hc'⟩
    · exact h.paths c' (.inl (by simpa using hc'))
    · exact h.paths c' (.inr (.inl (by simpa using hc')))
    · rcases List.mem_cons.mp hc' with heq | hc'
      · obtain ⟨rfl, _⟩ := CallEvent.store.inj heq
        exact ⟨added, hc⟩
      · exact h.paths c' (.inr (.inr ⟨score', move', hc'⟩))
  restores c' key hc' := h.restores c' key (by simpa using hc')
  hits := h.hits.cons fun _ _ _ heq => by cases heq
  entries key score' move' hget := by
    by_cases hkey : c.hashValue = key
    · subst hkey
      rw [zobristGet_put_same] at hget
      obtain ⟨rfl, rfl⟩ := Prod.mk.inj (Option.some.inj hget)
      exact ⟨c, List.mem_cons_self .., rfl⟩
    · rw [zobristGet_put_ne _ hkey] at hget
      obtain ⟨c', hc', hkey'⟩ := h.entries key score' move' hget
      exact ⟨c', List.mem_cons_of_mem _ hc', hkey'⟩

/-- An event that stores nothing and tries no board. -/
theorem OnceInv.add (h : OnceInv log t) {e : CallEvent}
    (hstore : ∀ c score move, e ≠ .store c score move) (hexpand : e.expanded = none) :
    OnceInv (e :: log) t where
  found c hc := by
    obtain ⟨score, move, hc⟩ := hc
    rcases List.mem_cons.mp hc with heq | hc
    · exact absurd heq.symm (hstore c score move)
    · exact h.found c ⟨score, move, hc⟩
  once := by
    rw [List.filterMap_cons_none hexpand]
    exact h.once

/-- A call begins. -/
theorem OnceInv.enter (h : OnceInv log t) (c : Call) : OnceInv (.enter c :: log) t :=
  h.add (by simp) rfl

/-- A call is answered. -/
theorem OnceInv.hit (h : OnceInv log t) (c : Call) (score move : Int) :
    OnceInv (.hit c score move :: log) t :=
  h.add (by simp) rfl

/-- A call returns. -/
theorem OnceInv.leave (h : OnceInv log t) (c : Call) (key : U64) :
    OnceInv (.leave c key :: log) t :=
  h.add (by simp) rfl

/-- A stored answer is found from now on. -/
theorem OnceInv.store (h : OnceInv log t) (c : Call) (score move : Int) :
    OnceInv (.store c score move :: log) (zobristPut true t c.hashValue score move) where
  found c' hc' := by
    by_cases hkey : c.hashValue = c'.hashValue
    · rw [← hkey, zobristGet_put_same]
      rfl
    · rw [zobristGet_put_ne _ hkey]
      obtain ⟨score', move', hc'⟩ := hc'
      rcases List.mem_cons.mp hc' with heq | hc'
      · exact absurd (congrArg Call.hashValue (CallEvent.store.inj heq).1.symm) hkey
      · exact h.found c' ⟨score', move', hc'⟩
  once := by
    rw [List.filterMap_cons_none rfl]
    exact h.once

/-- **A call that misses has not been tried before**: what was tried has stored its answer, or is
still running and deeper. -/
theorem OnceInv.expand (h : OnceInv log t) (hinv : RoundInv zobristTable root p₀ depth₀ log t)
    {c : Call} {added : List (Nat × Player)}
    (hc : CallPath zobristTable root p₀ depth₀ c added) (hclosed : Closed c.depth log)
    (hmiss : zobristGet t c.hashValue = none) : OnceInv (.expand c :: log) t where
  found c' hc' := by
    obtain ⟨score, move, hc'⟩ := hc'
    exact h.found c' ⟨score, move, by simpa using hc'⟩
  once := by
    have hboard : (CallEvent.expand c).expanded = some c.table := rfl
    rw [List.filterMap_cons_some hboard]
    refine List.nodup_cons.mpr ⟨fun hmem => ?_, h.once⟩
    obtain ⟨e, he, hexpanded⟩ := List.mem_filterMap.mp hmem
    cases e with
    | expand c' =>
      -- a call on the same board is the same call
      obtain ⟨added', hc'⟩ := hinv.paths c' (.inr (.inl he))
      obtain rfl : c' = c := hc'.eq_of_table hc (Option.some.inj hexpanded)
      rcases hclosed c' he with hstored | hdeeper
      · have hfound := h.found c' hstored
        rw [hmiss] at hfound
        exact Bool.noConfusion hfound
      · exact Nat.lt_irrefl _ hdeeper
    | enter => cases hexpanded
    | hit => cases hexpanded
    | store => cases hexpanded
    | leave => cases hexpanded

end Invariant

/-! ## The search keeps it

The induction over the search. A call that misses is the only one that tries a board: the table has
no entry for its key, so by `OnceInv.found` no call with this board has stored one, and by `Closed`
none is running, since those have more depth remaining. -/

section Search

variable {root : U32} {p₀ : Player} {depth₀ : Nat}

variable (zobristTable alloc root p₀ depth₀) in
/-- What a piece of a search does, from one state to another, when its calls have `depth` or less
remaining: it leaves `hash_value` as it found it; and with all allocations succeeding every call
that it tries has stored its answer at the end. -/
structure Searched (depth : Nat) (s s' : LoggedSearch) : Prop where
  inv : RoundInv zobristTable root p₀ depth₀ s'.log s'.search.hashTable
  key : s'.search.hashValue = s.search.hashValue
  later : s.log ⊆ s'.log
  once : (∀ n, alloc n = true) → OnceInv s.log s.search.hashTable → Closed depth s.log →
    OnceInv s'.log s'.search.hashTable ∧
      ∀ c, .expand c ∈ s'.log → .expand c ∈ s.log ∨ StoredIn s'.log c

variable {depth : Nat} {s s' s'' : LoggedSearch} {table : U32} {player : Player}
  {added : List (Nat × Player)}

/-- What was closed stays so, when all boards that were tried since are answered. -/
theorem Closed.later {log log' : List CallEvent} (h : Closed depth log) (hsub : log ⊆ log')
    (hnew : ∀ c, .expand c ∈ log' → .expand c ∈ log ∨ StoredIn log' c) : Closed depth log' := by
  intro c hc
  rcases hnew c hc with hold | hstored
  · exact (h c hold).imp_left fun hstored => hstored.mono hsub
  · exact .inl hstored

/-- One piece of a search after another. -/
theorem Searched.trans (h : Searched zobristTable alloc root p₀ depth₀ depth s s')
    (h' : Searched zobristTable alloc root p₀ depth₀ depth s' s'') :
    Searched zobristTable alloc root p₀ depth₀ depth s s'' where
  inv := h'.inv
  key := h'.key.trans h.key
  later := fun e he => h'.later (h.later he)
  once hall honce hclosed := by
    obtain ⟨honce', hnew⟩ := h.once hall honce hclosed
    obtain ⟨honce'', hnew'⟩ := h'.once hall honce' (hclosed.later h.later hnew)
    refine ⟨honce'', fun c hc => ?_⟩
    rcases hnew' c hc with hmid | hstored
    · exact (hnew c hmid).imp_right fun hstored => hstored.mono h'.later
    · exact .inr hstored

/-- A call that returns at once. -/
theorem Searched.leaf (hinv : RoundInv zobristTable root p₀ depth₀ s.log s.search.hashTable)
    (hc : CallPath zobristTable root p₀ depth₀ (s.call table depth player) added) :
    Searched zobristTable alloc root p₀ depth₀ depth s
      ((s.add (.enter (s.call table depth player))).leave (s.call table depth player)) where
  inv := (hinv.enter hc).leave _
  key := rfl
  later := fun e he => List.mem_cons_of_mem _ (List.mem_cons_of_mem _ he)
  once _ honce _ := by
    refine ⟨(honce.enter _).leave _ _, ?_⟩
    intro c hc
    exact .inl (by simpa [LoggedSearch.leave, LoggedSearch.add] using hc)

/-- **A call answered from the table** is answered by itself. -/
theorem Searched.hit (hz : ZobristDistinct zobristTable)
    (hinv : RoundInv zobristTable root p₀ depth₀ s.log s.search.hashTable)
    (hc : CallPath zobristTable root p₀ depth₀ (s.call table depth player) added)
    {score move : Int}
    (hget : zobristGet s.search.hashTable s.search.hashValue = some (score, move))
    (event : SearchEvent) :
    Searched zobristTable alloc root p₀ depth₀ depth s
      ((((s.add (.enter (s.call table depth player))).record event).add
        (.hit (s.call table depth player) score move)).leave (s.call table depth player)) where
  inv := by
    obtain ⟨c', hstored, hkey⟩ := hinv.entries _ score move hget
    -- the entry's key is the call's, and a key determines its call
    obtain ⟨added', hc'⟩ := hinv.paths c' (.inr (.inr ⟨score, move, hstored⟩))
    obtain rfl : c' = s.call table depth player := hc'.eq_of_key hz hc hkey
    exact ((hinv.enter hc).hit (List.mem_cons_of_mem _ hstored)).leave _
  key := rfl
  later := fun e he =>
    List.mem_cons_of_mem _ (List.mem_cons_of_mem _ (List.mem_cons_of_mem _ he))
  once _ honce _ := by
    refine ⟨((honce.enter _).hit _ _ _).leave _ _, ?_⟩
    intro c hc
    exact .inl (by simpa [LoggedSearch.leave, LoggedSearch.add, LoggedSearch.record] using hc)

variable (zobristTable alloc root p₀ depth₀) in
/-- What the loop of a call relies on for the calls it makes. -/
def ChildSpec (child : LoggedChild) (depth : Nat) : Prop :=
  ∀ table player alpha beta s added,
    CallPath zobristTable root p₀ depth₀ (s.call table depth player) added →
    RoundInv zobristTable root p₀ depth₀ s.log s.search.hashTable →
    Searched zobristTable alloc root p₀ depth₀ depth s (child table player alpha beta s).2

variable {child : LoggedChild}

/-- One or two searches of a move: both are calls of the same position. -/
theorem searchMoveLogged_spec
    (hchild : ChildSpec zobristTable alloc root p₀ depth₀ child depth)
    (hinv : RoundInv zobristTable root p₀ depth₀ s.log s.search.hashTable)
    (hc : CallPath zobristTable root p₀ depth₀ (s.call table depth player.opp) added) (first : Bool)
    (alpha beta : Int) :
    Searched zobristTable alloc root p₀ depth₀ depth s
      (searchMoveLogged child table player first alpha beta s).2 := by
  unfold searchMoveLogged
  cases first with
  | true => exact hchild _ _ _ _ s added hc hinv
  | false =>
    have hnull := hchild table player.opp (-alpha - 1) (-alpha) s added hc hinv
    dsimp only
    rw [if_neg Bool.false_ne_true]
    split
    · -- the second search finds the same key
      refine hnull.trans (hchild _ _ _ _ _ added ?_ hnull.inv)
      rw [LoggedSearch.call, hnull.key]
      exact hc
    · exact hnull

/-- One turn of the loop: the word of the move is taken out of the key again. -/
theorem tryMoveLogged_spec (hchild : ChildSpec zobristTable alloc root p₀ depth₀ child depth)
    (hinv : RoundInv zobristTable root p₀ depth₀ s.log s.search.hashTable)
    (hc : CallPath zobristTable root p₀ depth₀ (s.call table (depth + 1) player) added) {m : Nat}
    (hm : m ∈ availableMoves table) (first : Bool) (alpha beta : Int) :
    Searched zobristTable alloc root p₀ depth₀ depth s
      (tryMoveLogged zobristTable child player table m first alpha beta s).2 := by
  obtain ⟨hinv', hkey, hlater, honce⟩ := searchMoveLogged_spec hchild
    (s := s.xorHash (zobristTable m player)) hinv (hc.move hm) first alpha beta
  refine ⟨hinv', ?_, hlater, honce⟩
  exact (congrArg (· ^^^ zobristTable m player) hkey).trans
    (xor_word_twice s.search.hashValue (zobristTable m player))

/-- Nothing is done. -/
theorem Searched.refl (hinv : RoundInv zobristTable root p₀ depth₀ s.log s.search.hashTable) :
    Searched zobristTable alloc root p₀ depth₀ depth s s :=
  ⟨hinv, rfl, fun _ he => he, fun _ honce _ => ⟨honce, fun _ hc => .inl hc⟩⟩

/-- The loop over the moves. Induction on the moves; after each of them `hash_value` is back, so the
next is on a path from the root too. -/
theorem tryMovesLogged_spec (hchild : ChildSpec zobristTable alloc root p₀ depth₀ child depth)
    (beta : Int) (moves : List Nat) :
    ∀ (first : Bool) (alpha : Int) (best : MoveT) (s : LoggedSearch),
      (∀ m ∈ moves, m ∈ availableMoves table) →
      CallPath zobristTable root p₀ depth₀ (s.call table (depth + 1) player) added →
      RoundInv zobristTable root p₀ depth₀ s.log s.search.hashTable →
      Searched zobristTable alloc root p₀ depth₀ depth s
        (tryMovesLogged zobristTable child player beta moves first table alpha best s).2 := by
  induction moves with
  | nil => intro first alpha best s _ _ hinv; exact .refl hinv
  | cons m rest ih =>
    intro first alpha best s hsub hc hinv
    have hm := hsub m (by simp)
    have hmove := tryMoveLogged_spec hchild hinv hc hm first alpha beta
    rw [tryMovesLogged_cons hm]
    dsimp only
    split
    · exact hmove
    · refine hmove.trans (ih _ _ _ _ (fun m' hm' => hsub m' (by simp [hm'])) ?_ hmove.inv)
      rw [LoggedSearch.call, hmove.key]
      exact hc

/-- The boards tried before the loop of a call are its own and those tried before the call. -/
theorem mem_log_expand {c : Call}
    (hc : .expand c ∈ (s.expand table (depth + 1) player alpha beta).log) :
    c = s.call table (depth + 1) player ∨ .expand c ∈ s.log := by
  rcases List.mem_cons.mp hc with heq | hc
  · exact .inl (CallEvent.expand.inj heq)
  · exact .inr (by simpa [LoggedSearch.add, LoggedSearch.record] using hc)

/-- Beginning to try moves keeps the log. -/
theorem log_subset_expand : s.log ⊆ (s.expand table (depth + 1) player alpha beta).log :=
  fun _ he => List.mem_cons_of_mem _ (List.mem_cons_of_mem _ he)

/-- A call that runs is above those of its loop. -/
theorem Closed.expand (h : Closed (depth + 1) s.log) :
    Closed depth (s.expand table (depth + 1) player alpha beta).log := by
  intro c hc
  rcases mem_log_expand hc with rfl | hbefore
  · exact .inr (Nat.lt_succ_self depth)
  · exact (h c hbefore).imp (fun hstored => hstored.mono log_subset_expand) fun hdeeper => by omega

/-- **A call that tries its moves**: its board is new to the round, and its answer is stored under
its own key. -/
theorem Searched.visit (hchild : ChildSpec zobristTable alloc root p₀ depth₀
      (negamaxLogged sort zobristTable alloc depth) depth)
    (hinv : RoundInv zobristTable root p₀ depth₀ s.log s.search.hashTable)
    (hc : CallPath zobristTable root p₀ depth₀ (s.call table (depth + 1) player) added)
    (hget : zobristGet s.search.hashTable s.search.hashValue = none) (alpha beta : Int)
    (best : MoveT) :
    Searched zobristTable alloc root p₀ depth₀ (depth + 1) s
      (((visitNodeLogged sort zobristTable alloc depth table player alpha beta s).2.put alloc table
        (depth + 1) player best).leave (s.call table (depth + 1) player)) := by
  have hstart : RoundInv zobristTable root p₀ depth₀
      (s.expand table (depth + 1) player alpha beta).log s.search.hashTable :=
    (hinv.enter hc).expand hc
  have hloop : Searched zobristTable alloc root p₀ depth₀ depth
      (s.expand table (depth + 1) player alpha beta)
      (visitNodeLogged sort zobristTable alloc depth table player alpha beta s).2 :=
    tryMovesLogged_spec hchild beta _ true alpha _ _ (fun m hm => mem_sort_availableMoves.mp hm) hc
      hstart
  generalize (visitNodeLogged sort zobristTable alloc depth table player alpha beta s).2 = s₁
    at hloop ⊢
  have hkey : s₁.search.hashValue = s.search.hashValue := hloop.key
  have hold : s.log ⊆ s₁.log := fun e he => hloop.later (log_subset_expand he)
  cases halloc : alloc s₁.puts with
  | false =>
    -- the entry could not be allocated: the table is as the loop left it
    have hput : s₁.put alloc table (depth + 1) player best = { s₁ with puts := s₁.puts + 1 } := by
      simp [LoggedSearch.put, halloc, zobristPut]
    rw [hput]
    refine ⟨?_, hkey, fun e he => List.mem_cons_of_mem _ (hold he), fun hall => ?_⟩
    · show RoundInv zobristTable root p₀ depth₀ (.leave (s.call table (depth + 1) player)
        s₁.search.hashValue :: s₁.log) s₁.search.hashTable
      rw [hkey]
      exact hloop.inv.leave (s.call table (depth + 1) player)
    · rw [hall] at halloc
      exact Bool.noConfusion halloc
  | true =>
    set c := s.call table (depth + 1) player with hcdef
    have hput : s₁.put alloc table (depth + 1) player best =
        { search :=
            { s₁.search with
              hashTable := zobristPut true s₁.search.hashTable c.hashValue best.score best.move }
          puts := s₁.puts + 1
          log := .store c best.score best.move :: s₁.log } := by
      simp [LoggedSearch.put, LoggedSearch.call, halloc, hcdef, hkey]
    rw [hput]
    refine ⟨?_, hkey, fun e he => List.mem_cons_of_mem _ (List.mem_cons_of_mem _ (hold he)),
      fun hall honce hclosed => ?_⟩
    · show RoundInv zobristTable root p₀ depth₀ (.leave c s₁.search.hashValue ::
        .store c best.score best.move :: s₁.log)
          (zobristPut true s₁.search.hashTable c.hashValue best.score best.move)
      rw [hkey]
      exact (hloop.inv.store hc _ _).leave c
    · have honce' : OnceInv (s.expand table (depth + 1) player alpha beta).log s.search.hashTable :=
        (honce.enter c).expand (hinv.enter hc) hc
          (fun c' hc' => (hclosed c' (by simpa using hc')).imp_left fun hstored =>
            hstored.mono (List.subset_cons_self _ _)) hget
      obtain ⟨honce₁, hnew⟩ := hloop.once hall honce' hclosed.expand
      refine ⟨(honce₁.store c best.score best.move).leave _ _, fun c' hc' => ?_⟩
      have hlater : s₁.log ⊆ .leave c s₁.search.hashValue ::
          .store c best.score best.move :: s₁.log := fun e he =>
        List.mem_cons_of_mem _ (List.mem_cons_of_mem _ he)
      rcases hnew c' (by simpa [LoggedSearch.leave, LoggedSearch.add] using hc') with
        hstart' | hstored
      · rcases mem_log_expand hstart' with rfl | hbefore
        · exact .inr ⟨best.score, best.move, List.mem_cons_of_mem _ (List.mem_cons_self ..)⟩
        · exact .inl hbefore
      · exact .inr (hstored.mono hlater)

/-- **What every call does**, by induction on the remaining depth. -/
theorem negamaxLogged_spec (hz : ZobristDistinct zobristTable) (depth : Nat) :
    ChildSpec zobristTable alloc root p₀ depth₀ (negamaxLogged sort zobristTable alloc depth)
      depth := by
  intro table player alpha beta s
  refine negamaxLogged_rule (fun depth table player _ _ s r => ∀ added,
    CallPath zobristTable root p₀ depth₀ (s.call table depth player) added →
    RoundInv zobristTable root p₀ depth₀ s.log s.search.hashTable →
    Searched zobristTable alloc root p₀ depth₀ depth s r.2) ?_ ?_ ?_ depth table player alpha beta s
  · intro depth table player alpha beta s _ added hc hinv
    exact .leaf hinv hc
  · intro depth table player alpha beta s score move _ hget added hc hinv
    exact .hit hz hinv hc hget _
  · intro depth table player alpha beta s ih _ hget added hc hinv
    exact .visit ih hinv hc hget alpha beta _

end Search

/-! ## The rounds of `negamax_predict`

Each round starts with the table cleared and `hash_value` zero, so the log of a round is described
from its own start. -/

/-- What the log of a round shows. -/
structure Subproblems (zobristTable : ZobristWords) (root : U32) (log : List CallEvent) :
    Prop where
  /-- At every call `hash_value` is the XOR of the words of exactly the cells added. -/
  key : ∀ c, .enter c ∈ log →
    Extends root c.table ∧ c.hashValue = xorKey zobristTable (addedCells root c.table)
  /-- A call leaves it as it found it. -/
  restores : ∀ c key, .leave c key ∈ log → key = c.hashValue
  /-- An answer from the table was stored in the same round, by a call on the same table, with the
  same player to move and the same remaining depth. -/
  hits : ∀ newer c score move older, log = newer ++ .hit c score move :: older →
    ∃ c', .store c' score move ∈ older ∧ c'.table = c.table ∧ c'.player = c.player ∧
      c'.depth = c.depth

section Rounds

/-- The globals between the rounds and between the calls of `negamax_predict`. -/
def AtRest (s : LoggedSearch) : Prop :=
  s.search.hashValue = 0 ∧ s.search.hashTable = zobristClear

variable {table : U32} {player : Player} {s : LoggedSearch}

/-- A round: its log is as described, and the globals are at rest after it. -/
theorem deepenLogged_spec (hz : ZobristDistinct zobristTable) (hs : AtRest s) (depth : Nat) :
    Subproblems zobristTable table
        (deepenLogged sort zobristTable alloc table player depth s).2.1 ∧
      ((∀ n, alloc n = true) → ((deepenLogged sort zobristTable alloc table player depth
        s).2.1.filterMap CallEvent.expanded).Nodup) ∧
      AtRest (deepenLogged sort zobristTable alloc table player depth s).2.2 := by
  obtain ⟨hhash, hclear⟩ := hs
  have hpath : CallPath zobristTable table player depth
      (({ s with log := [] } : LoggedSearch).call table depth player) [] := .of_zero hhash
  -- a round begins with an empty table and an empty log, of which all is true
  have hempty : ∀ key, zobristGet s.search.hashTable key = none := by
    intro key
    rw [hclear]
    rfl
  have hinv : RoundInv zobristTable table player depth [] s.search.hashTable := by
    refine ⟨?_, by simp, ?_, ?_⟩
    · rintro c (hc | hc | ⟨_, _, hc⟩) <;> simp at hc
    · intro newer c score move older heq
      simp at heq
    · intro key score move hget
      rw [hempty] at hget
      cases hget
  obtain ⟨hlog, hkey, _, honce⟩ := @negamaxLogged_spec sort zobristTable alloc table player depth hz
    depth table player (-100000) 100000 { s with log := [] } [] hpath hinv
  refine ⟨⟨fun c hc => ?_, hlog.restores, ?_⟩, fun hall => ?_, hkey.trans hhash, rfl⟩
  · obtain ⟨added, hadded⟩ := hlog.paths c (.inl hc)
    exact hadded.key_addedCells
  · intro newer c score move older heq
    exact ⟨c, hlog.hits newer c score move older heq, rfl, rfl, rfl⟩
  · refine (honce hall ⟨?_, List.nodup_nil⟩ ?_).1.once
    · rintro c ⟨_, _, hc⟩
      simp at hc
    · intro c hc
      simp at hc

variable (zobristTable alloc table) in
/-- The log of a round, as this module describes it. -/
def GoodRound (log : List CallEvent) : Prop :=
  Subproblems zobristTable table log ∧
    ((∀ n, alloc n = true) → (log.filterMap CallEvent.expanded).Nodup)

/-- Rounds one after another. Induction on their depths. -/
theorem rounds_spec (hz : ZobristDistinct zobristTable) (depths : List Nat) :
    ∀ r : MoveT × List (List CallEvent) × LoggedSearch, AtRest r.2.2 →
      (∀ log ∈ r.2.1, GoodRound zobristTable alloc table log) →
      AtRest (depths.foldl (deepenRound sort zobristTable alloc table player) r).2.2 ∧
        (∀ log ∈ (depths.foldl (deepenRound sort zobristTable alloc table player) r).2.1,
          GoodRound zobristTable alloc table log) ∧
        (depths.foldl (deepenRound sort zobristTable alloc table player) r).2.1.length =
          r.2.1.length + depths.length := by
  induction depths with
  | nil => intro r hr hlogs; exact ⟨hr, hlogs, rfl⟩
  | cons depth rest ih =>
    intro r hr hlogs
    obtain ⟨hsub, honce, hr'⟩ := @deepenLogged_spec sort zobristTable alloc table player r.2.2 hz hr
      depth
    have hround : ∀ log ∈ (deepenRound sort zobristTable alloc table player r depth).2.1,
        GoodRound zobristTable alloc table log := by
      intro log hmem
      rcases List.mem_append.mp hmem with hold | hnew
      · exact hlogs log hold
      · obtain rfl := List.mem_singleton.mp hnew
        exact ⟨hsub, honce⟩
    obtain ⟨hrest, hgood, hlen⟩ := ih (deepenRound sort zobristTable alloc table player r depth) hr'
      hround
    refine ⟨hrest, hgood, ?_⟩
    rw [List.foldl_cons, hlen, deepenRound]
    simp only [List.length_append, List.length_cons, List.length_nil]
    omega

/-- The rounds of one call of `negamax_predict`, which resets the history first. -/
theorem negamaxPredictLogged_spec (hz : ZobristDistinct zobristTable) (hs : AtRest s) :
    AtRest (negamaxPredictLogged sort zobristTable alloc table player s).2.2 ∧
      (∀ log ∈ (negamaxPredictLogged sort zobristTable alloc table player s).2.1,
        GoodRound zobristTable alloc table log) ∧
      (negamaxPredictLogged sort zobristTable alloc table player s).2.1.length =
        searchDepths.length := by
  have h := @rounds_spec sort zobristTable alloc table player hz searchDepths (⟨0, -1⟩, [], { s with
      search := { s.search with historyScoreSum := fun _ => 0, historyCount := fun _ => 0 } }) hs
    (by simp)
  simpa [negamaxPredictLogged] using h

/-- A round leaves the globals at rest, whatever the words are. -/
theorem deepenRound_atRest {r : MoveT × List (List CallEvent) × LoggedSearch} (hr : AtRest r.2.2)
    (depth : Nat) : AtRest (deepenRound sort zobristTable alloc table player r depth).2.2 := by
  refine ⟨?_, rfl⟩
  exact (negamaxLogged_hashValue depth table player (-100000) 100000
    { r.2.2 with log := [] }).trans hr.1

/-- Whatever the words are. -/
theorem PredictReachable.atRest (h : PredictReachable sort zobristTable s) : AtRest s := by
  have hrounds : ∀ (alloc : Nat → Bool) (table : U32) (player : Player) (depths : List Nat)
      (r : MoveT × List (List CallEvent) × LoggedSearch), AtRest r.2.2 →
      AtRest (depths.foldl (deepenRound sort zobristTable alloc table player) r).2.2 := by
    intro alloc table player depths
    induction depths with
    | nil => intro r hr; exact hr
    | cons depth rest ih => intro r hr; exact ih _ (deepenRound_atRest hr depth)
  induction h with
  | init => exact ⟨rfl, rfl⟩
  | predict alloc table player _ ih => exact hrounds alloc table player searchDepths _ ih

/-- **A transposition hit is for the same subproblem.** In every round of every call of
`negamax_predict`, whatever the allocations do, `hash_value` is the key of the cells added since the
root, every call restores it, and every answer read from the table was stored in the same round by a
call on the same table with the same player and the same remaining depth; and when the allocations
succeed no position is expanded twice in a round. -/
theorem negamaxPredict_subproblems (hz : ZobristDistinct zobristTable)
    (hs : PredictReachable sort zobristTable s) (alloc : Nat → Bool) (table : U32)
    (player : Player) :
    (negamaxPredictLogged sort zobristTable alloc table player s).2.1.length =
        searchDepths.length ∧
      ∀ log ∈ (negamaxPredictLogged sort zobristTable alloc table player s).2.1,
        Subproblems zobristTable table log ∧
          ((∀ n, alloc n = true) → (log.filterMap CallEvent.expanded).Nodup) := by
  obtain ⟨_, hgood, hlen⟩ := @negamaxPredictLogged_spec sort zobristTable alloc table player s hz
    hs.atRest
  exact ⟨hlen, hgood⟩

end Rounds

/-- The first call after module load, on the empty board with one bit a word. -/
theorem negamaxPredict_subproblems_init :
    (negamaxPredictLogged stableSort bitWords (fun _ => true) 0 .o negamaxInit).2.1.length =
        searchDepths.length ∧
      ∀ log ∈ (negamaxPredictLogged stableSort bitWords (fun _ => true) 0 .o negamaxInit).2.1,
        Subproblems bitWords 0 log ∧ (log.filterMap CallEvent.expanded).Nodup := by
  obtain ⟨hlen, hrounds⟩ := negamaxPredict_subproblems zobristDistinct_bitWords .init
    (fun _ => true) 0 .o
  exact ⟨hlen, fun log hlog => ⟨(hrounds log hlog).1, (hrounds log hlog).2 fun _ => rfl⟩⟩

end Kxo
