import Kxo.Lib.Recency
import Kxo.Rl.Store
import Mathlib.Data.List.Induction

/-!
# Kxo — what eviction removes (`src/rl-state.c`)

A state found again moves to the tail of the order list, a new one goes to its head, and eviction
cuts at the head. So the list is two runs: the tables not found since they were inserted, youngest
first, then the tables found again, oldest first. Cutting at the head takes the youngest of the
first run before anything else.

* **`LookupRun`** — the store with a log of the look-ups: which table, and whether it was found.
* **`OrderInv`** — the order list is two runs of `Recency`, told apart by the last entry of the log.
  A hit appends to the second run (`OrderInv.findHit`), a miss puts its table in front of the first
  and may cut (`OrderInv.findMiss`).
* **`evictsOldest_iff`** — by `Recency.take_oldest_iff`: an eviction removes the least recently
  looked up tables exactly when every table not found since its insertion has been followed by
  look-ups of as many stored tables as stay.
* **`firstTables_not_evictsOldest`** — it does not when the store is filled by new tables alone:
  then the newest go first.
-/

namespace Kxo

open Recency

/-! ## Look-ups and their log

`runLookups` starts from module load. `Evicts` and `EvictsOldest` ask about one more call, and only
about the state before it. -/

/-- The store and the log of `find_rl_state` calls, most recent first: each table with whether the
search found it. -/
structure LookupRun where
  store : RlStore
  log : List (U32 × Bool)

/-- One call of `find_rl_state`. -/
def LookupRun.find (bucket : U32 → Nat) (r : LookupRun) (table : U32) : LookupRun :=
  ⟨(findRlState bucket table r.store).2, (table, (r.store.lookup bucket table).isSome) :: r.log⟩

/-- The calls of `find_rl_state` for a list of tables, from module load on. -/
def runLookups (bucket : U32 → Nat) (tables : List U32) : LookupRun :=
  tables.foldl (LookupRun.find bucket) ⟨initRlAgent, []⟩

/-- A table the search finds. -/
def Stored (bucket : U32 → Nat) (s : RlStore) (table : U32) : Prop :=
  (s.lookup bucket table).isSome = true

/-- A call for this table misses and finds the store full, so `clean_state` runs. -/
def Evicts (bucket : U32 → Nat) (s : RlStore) (table : U32) : Prop :=
  ¬ Stored bucket s table ∧ maxStates - 1 ≤ bitmapWeight s.stMap

/-- The call for `table` removes only tables whose last look-up came before the last look-up of
every table that stays. -/
def EvictsOldest (bucket : U32 → Nat) (r : LookupRun) (table : U32) : Prop :=
  ∀ removed kept, Stored bucket r.store removed →
    ¬ Stored bucket (r.find bucket table).store removed →
    Stored bucket r.store kept → Stored bucket (r.find bucket table).store kept →
    age r.log kept < age r.log removed

/-- The number of stored tables looked up after the last look-up of `table`. -/
def lookedUpAfter (r : LookupRun) (table : U32) : Nat :=
  (orderTables r.store).countP fun t => age r.log t < age r.log table

/-! ## The order list is two runs

Which of the runs a table is in is what the log says of its last look-up. Within a run the tables
are sorted by age, one way in the first and the other way in the second. -/

/-- The order list: tables whose last look-up missed, youngest first, then tables whose last look-up
hit, oldest first. -/
structure OrderInv (bucket : U32 → Nat) (r : LookupRun) (fresh found : List U32) : Prop where
  store : StoreInv bucket r.store
  order : orderTables r.store = fresh ++ found
  runs : TwoRuns (age r.log) fresh found
  missed : ∀ t ∈ fresh, last r.log t = some false
  hit : ∀ t ∈ found, last r.log t = some true

/-- Adding a look-up of another table shifts the ages of a list together. -/
theorem pairwise_age_cons (R : Nat → Nat → Prop) (hR : ∀ a b, R a b → R (a + 1) (b + 1))
    {log : List (U32 × Bool)} {l : List U32} {t : U32} (x : Bool) (ht : t ∉ l)
    (h : l.Pairwise fun a b => R (age log a) (age log b)) :
    l.Pairwise fun a b => R (age ((t, x) :: log) a) (age ((t, x) :: log) b) := by
  refine List.Pairwise.imp_of_mem ?_ h
  intro a b ha hb hab
  rw [age_cons_ne log x (ne_of_mem_of_not_mem ha ht),
    age_cons_ne log x (ne_of_mem_of_not_mem hb ht)]
  exact hR _ _ hab

/-- The table just looked up is the youngest. -/
theorem age_lt_cons {log : List (U32 × Bool)} {t u : U32} (x : Bool) (hu : u ≠ t) :
    age ((t, x) :: log) t < age ((t, x) :: log) u := by
  rw [age_cons_self, age_cons_ne log x hu]
  omega

/-- A table found: it leaves its run and becomes the youngest of the second. -/
theorem OrderInv.findHit {bucket : U32 → Nat} {r : LookupRun} {fresh found : List U32}
    (h : OrderInv bucket r fresh found) {t : U32} (ht : t ∈ fresh ++ found) :
    OrderInv bucket (r.find bucket t) (fresh.filter (· ≠ t)) (found.filter (· ≠ t) ++ [t]) := by
  obtain ⟨hstore, hrefine⟩ := findRlState_refines h.store t
  have hfound : (r.store.lookup bucket t).isSome = true :=
    h.store.lookup_isSome.mpr (h.order ▸ ht)
  have hnot : ∀ l : List U32, t ∉ l.filter (· ≠ t) := by simp
  refine ⟨hstore, ?_, ⟨?_, ?_⟩, ?_, ?_⟩
  · rw [LookupRun.find, hrefine, findOrder, h.order, if_pos ht, List.filter_append,
      List.append_assoc]
  -- the board leaves the run it was in, with the others a look-up older
  · exact pairwise_age_cons (· < ·) (fun _ _ => Nat.succ_lt_succ) _ (hnot fresh)
      (h.runs.young.filter _)
  -- and goes to the end of the boards found, as the youngest
  · rw [List.pairwise_append]
    refine ⟨?_, List.pairwise_singleton _ _, ?_⟩
    · exact pairwise_age_cons (· > ·) (fun _ _ => Nat.succ_lt_succ) _ (hnot found)
        (h.runs.old.filter _)
    · intro u hu v hv
      obtain rfl := List.mem_singleton.mp hv
      exact age_lt_cons _ (by simpa using (List.mem_filter.mp hu).2)
  · intro u hu
    obtain ⟨hu, hne⟩ := List.mem_filter.mp hu
    rw [LookupRun.find, last_cons_ne _ _ (by simpa using hne)]
    exact h.missed u hu
  · intro u hu
    rw [LookupRun.find]
    rcases List.mem_append.mp hu with hu | hu
    · obtain ⟨hu, hne⟩ := List.mem_filter.mp hu
      rw [last_cons_ne _ _ (by simpa using hne)]
      exact h.hit u hu
    · obtain rfl := List.mem_singleton.mp hu
      rw [last_cons_self, hfound]

/-- A table not found: it becomes the youngest of the first run, after a cut when the store is
full. -/
theorem OrderInv.findMiss {bucket : U32 → Nat} {r : LookupRun} {fresh found : List U32}
    (h : OrderInv bucket r fresh found) {t : U32} (ht : t ∉ fresh ++ found) {n : Nat}
    (horder : findOrder (fresh ++ found) t = t :: (fresh ++ found).drop n) :
    OrderInv bucket (r.find bucket t) (t :: fresh.drop n) (found.drop (n - fresh.length)) := by
  obtain ⟨hstore, hrefine⟩ := findRlState_refines h.store t
  have hfound : (r.store.lookup bucket t).isSome = false := by
    rw [← Bool.not_eq_true, h.store.lookup_isSome, h.order]
    exact ht
  -- the new board is in neither of the two runs that are left
  have hfresh : t ∉ fresh.drop n := fun hmem =>
    ht (List.mem_append_left _ (List.mem_of_mem_drop hmem))
  have hold : t ∉ found.drop (n - fresh.length) := fun hmem =>
    ht (List.mem_append_right _ (List.mem_of_mem_drop hmem))
  have hruns := h.runs.drop n
  refine ⟨hstore, ?_, ⟨?_, ?_⟩, ?_, ?_⟩
  · rw [LookupRun.find, hrefine, h.order, horder, List.drop_append, List.cons_append]
  · rw [List.pairwise_cons]
    refine ⟨fun u hu => age_lt_cons _ (ne_of_mem_of_not_mem hu hfresh), ?_⟩
    exact pairwise_age_cons (· < ·) (fun _ _ => Nat.succ_lt_succ) _ hfresh hruns.young
  · exact pairwise_age_cons (· > ·) (fun _ _ => Nat.succ_lt_succ) _ hold hruns.old
  · intro u hu
    rw [LookupRun.find]
    rcases List.mem_cons.mp hu with rfl | hu
    · rw [last_cons_self, hfound]
    · rw [last_cons_ne _ _ (ne_of_mem_of_not_mem hu hfresh)]
      exact h.missed u (List.mem_of_mem_drop hu)
  · intro u hu
    rw [LookupRun.find, last_cons_ne _ _ (ne_of_mem_of_not_mem hu hold)]
    exact h.hit u (List.mem_of_mem_drop hu)

/-- One call keeps the two runs, hit or miss. -/
theorem OrderInv.find {bucket : U32 → Nat} {r : LookupRun} {fresh found : List U32}
    (h : OrderInv bucket r fresh found) (t : U32) :
    ∃ fresh' found', OrderInv bucket (r.find bucket t) fresh' found' := by
  by_cases ht : t ∈ fresh ++ found
  · exact ⟨_, _, h.findHit ht⟩
  · by_cases hfull : maxStates - 1 ≤ (fresh ++ found).length
    · exact ⟨_, _, h.findMiss ht (by rw [findOrder, if_neg ht, if_pos hfull])⟩
    · exact ⟨_, _, h.findMiss (n := 0) ht (by rw [findOrder, if_neg ht, if_neg hfull]; rfl)⟩

/-- **Every run of look-ups** leaves the order list in two runs. -/
theorem runLookups_orderInv (bucket : U32 → Nat) (tables : List U32) :
    ∃ fresh found, OrderInv bucket (runLookups bucket tables) fresh found := by
  have hrun : ∀ (r : LookupRun), (∃ fresh found, OrderInv bucket r fresh found) →
      ∃ fresh found, OrderInv bucket (tables.foldl (LookupRun.find bucket) r) fresh found := by
    induction tables with
    | nil => exact fun r h => h
    | cons t rest ih =>
      rintro r ⟨fresh, found, h⟩
      exact ih _ (h.find t)
  refine hrun _ ⟨[], [], initRlAgent_storeInv bucket, rfl, ⟨.nil, .nil⟩, ?_, ?_⟩ <;> simp

/-! ## The tables removed

What the call removes is the head of the list, so the general fact about two runs applies as it
stands. -/

/-- What the call that evicts removes and keeps. -/
theorem stored_find_iff {bucket : U32 → Nat} {r : LookupRun} (h : StoreInv bucket r.store)
    {t u : U32} (hevicts : Evicts bucket r.store t) (hu : Stored bucket r.store u) :
    Stored bucket (r.find bucket t).store u ↔ u ∈ (orderTables r.store).drop cleanNStates := by
  obtain ⟨hstore, hrefine⟩ := findRlState_refines h t
  have ht : t ∉ orderTables r.store := fun hmem => hevicts.1 (h.lookup_isSome.mpr hmem)
  have hlen : (orderTables r.store).length = r.store.orders.length := by simp [orderTables]
  have hfull : maxStates - 1 ≤ (orderTables r.store).length := by
    rw [hlen, ← h.bitmapWeight]
    exact hevicts.2
  have hne : u ≠ t := fun heq => ht (heq ▸ h.lookup_isSome.mp hu)
  rw [Stored, LookupRun.find, hstore.lookup_isSome, hrefine, findOrder, if_neg ht, if_pos hfull,
    List.mem_cons]
  exact ⟨fun hor => hor.resolve_left hne, .inr⟩

/-- A list without repetition is its first `n` elements and, disjoint from them, the others. -/
theorem mem_take_iff {α : Type} {l : List α} (h : l.Nodup) (n : Nat) {a : α} :
    a ∈ l.take n ↔ a ∈ l ∧ a ∉ l.drop n := by
  have hdis : ∀ b ∈ l.take n, b ∉ l.drop n := by
    have h' := h
    rw [← List.take_append_drop n l, List.nodup_append] at h'
    exact fun b hb hb' => h'.2.2 b hb b hb' rfl
  constructor
  · exact fun ha => ⟨List.mem_of_mem_take ha, hdis a ha⟩
  · rintro ⟨ha, hnot⟩
    rw [← List.take_append_drop n l, List.mem_append] at ha
    exact ha.resolve_right hnot

/-- **When eviction is least recently used.** A call that evicts removes the least recently
looked-up tables exactly when every stored table whose last look-up inserted it has at least
`MAX_STATES - 1 - CLEAN_N_STATES` stored tables looked up after it. -/
theorem evictsOldest_iff (bucket : U32 → Nat) (tables : List U32) (table : U32)
    (hevicts : Evicts bucket (runLookups bucket tables).store table) :
    EvictsOldest bucket (runLookups bucket tables) table ↔
      ∀ t, Stored bucket (runLookups bucket tables).store t →
        last (runLookups bucket tables).log t = some false →
        maxStates - 1 - cleanNStates ≤ lookedUpAfter (runLookups bucket tables) t := by
  obtain ⟨fresh, found, h⟩ := runLookups_orderInv bucket tables
  generalize runLookups bucket tables = r at h hevicts ⊢
  -- the call evicts, so the store is full
  have hlen : (fresh ++ found).length = maxStates - 1 := by
    have hroom := h.store.room
    have hfull := hevicts.2
    rw [h.store.bitmapWeight] at hfull
    rw [← h.order, orderTables, List.length_map]
    omega
  have hstored : ∀ u, Stored bucket r.store u ↔ u ∈ fresh ++ found := by
    intro u
    rw [Stored, h.store.lookup_isSome, h.order]
  have hnodup : (fresh ++ found).Nodup := h.order ▸ h.store.nodup_orderTables
  -- removed and kept are the two sides of the cut
  have holdest : EvictsOldest bucket r table ↔
      ∀ u ∈ (fresh ++ found).take cleanNStates, ∀ k ∈ (fresh ++ found).drop cleanNStates,
        age r.log k < age r.log u := by
    constructor
    · intro hall u hu k hk
      obtain ⟨humem, hunot⟩ := (mem_take_iff hnodup _).mp hu
      have hus := (hstored u).mpr humem
      have hks := (hstored k).mpr (List.mem_of_mem_drop hk)
      refine hall u k hus ?_ hks ?_
      · rw [stored_find_iff h.store hevicts hus, h.order]
        exact hunot
      · rw [stored_find_iff h.store hevicts hks, h.order]
        exact hk
    · intro hall u k hus hunot hks hkin
      rw [stored_find_iff h.store hevicts hus, h.order] at hunot
      rw [stored_find_iff h.store hevicts hks, h.order] at hkin
      exact hall u ((mem_take_iff hnodup _).mpr ⟨(hstored u).mp hus, hunot⟩) k hkin
  rw [holdest, take_oldest_iff h.runs (by decide), hlen]
  unfold lookedUpAfter
  rw [h.order]
  constructor
  · intro hall t ht hlast
    rcases List.mem_append.mp ((hstored t).mp ht) with hfresh | hfound
    · exact hall t hfresh
    · rw [h.hit t hfound] at hlast
      simp at hlast
  · intro hall t ht
    exact hall t ((hstored t).mpr (List.mem_append_left _ ht)) (h.missed t ht)

/-! ## A store filled once

The tables `1, 2, ...`, with the kernel's hash function. Nothing is found again, so there is only
the first run. -/

/-- Distinct tables, none looked up twice, all enter at the head. -/
theorem runLookups_distinct (bucket : U32 → Nat) {tables : List U32} (hnodup : tables.Nodup)
    (hlen : tables.length ≤ maxStates - 1) :
    OrderInv bucket (runLookups bucket tables) tables.reverse [] := by
  induction tables using List.reverseRecOn with
  | nil => refine ⟨initRlAgent_storeInv bucket, rfl, ⟨.nil, .nil⟩, ?_, ?_⟩ <;> simp
  | append_singleton tables t ih =>
    obtain ⟨hnodup', _, hdis⟩ := List.nodup_append.mp hnodup
    have ht : t ∉ tables := fun hmem => hdis t hmem t (by simp) rfl
    rw [List.length_append, List.length_singleton] at hlen
    have hmiss : t ∉ tables.reverse ++ [] := by simpa using ht
    have hroom : ¬ maxStates - 1 ≤ (tables.reverse ++ []).length := by
      rw [List.append_nil, List.length_reverse]
      omega
    have hfind := (ih hnodup' (by omega)).findMiss hmiss (n := 0)
      (by rw [findOrder, if_neg hmiss, if_neg hroom]; rfl)
    rw [List.drop_zero, List.drop_nil] at hfind
    rw [runLookups, List.foldl_append, List.reverse_append]
    exact hfind

/-- The kernel's `hash_32` with `HT_BITS`. -/
def hash32 (value : U32) : U32 := (value * 0x61C88647) >>> (32 - htBits)

/-- The bucket the kernel computes: the key is hashed again inside the hash table. -/
def hashBucket (table : U32) : Nat := (hash32 (hash32 table)).toNat

/-- The tables `1, 2, .., MAX_STATES - 1`. -/
def firstTables : List U32 := (List.range (maxStates - 1)).map fun k => BitVec.ofNat 32 (k + 1)

def nextTable : U32 := BitVec.ofNat 32 (maxStates - 1 + 1)

/-- The tables differ as their numbers do, below `2 ^ 32`. -/
theorem firstTables_injOn {j k : Nat} (hj : j < maxStates) (hk : k < maxStates)
    (h : BitVec.ofNat 32 (j + 1) = BitVec.ofNat 32 (k + 1)) : j = k := by
  have hnat := congrArg BitVec.toNat h
  have hmax : maxStates = 16384 := by decide
  rw [BitVec.toNat_ofNat, BitVec.toNat_ofNat] at hnat
  omega

/-- No table occurs twice among them. -/
theorem nodup_firstTables : firstTables.Nodup := by
  refine List.Nodup.map_on (fun j hj k hk h => ?_) List.nodup_range
  rw [List.mem_range] at hj hk
  exact firstTables_injOn (by omega) (by omega) h

/-- They fill the store. -/
theorem length_firstTables : firstTables.length = maxStates - 1 := by simp [firstTables]

/-- After them the order list is one run, the last table first. -/
theorem firstTables_orderInv :
    OrderInv hashBucket (runLookups hashBucket firstTables) firstTables.reverse [] :=
  runLookups_distinct hashBucket nodup_firstTables (Nat.le_of_eq length_firstTables)

/-- One more table evicts. -/
theorem evicts_firstTables :
    Evicts hashBucket (runLookups hashBucket firstTables).store nextTable := by
  have h := firstTables_orderInv
  refine ⟨?_, ?_⟩
  · rw [Stored, h.store.lookup_isSome, h.order, List.append_nil, List.mem_reverse, firstTables,
      List.mem_map]
    rintro ⟨k, hk, heq⟩
    rw [List.mem_range] at hk
    have hlast : k = maxStates - 1 := firstTables_injOn (by omega) (by decide) heq
    omega
  · have hlen := congrArg List.length h.order
    rw [List.append_nil, List.length_reverse, length_firstTables, orderTables,
      List.length_map] at hlen
    exact Nat.le_of_eq (h.store.bitmapWeight.trans hlen).symm

/-- The condition, on the store that these tables fill. -/
theorem evictsOldest_iff_firstTables :
    EvictsOldest hashBucket (runLookups hashBucket firstTables) nextTable ↔
      ∀ t, Stored hashBucket (runLookups hashBucket firstTables).store t →
        last (runLookups hashBucket firstTables).log t = some false →
        maxStates - 1 - cleanNStates ≤ lookedUpAfter (runLookups hashBucket firstTables) t :=
  evictsOldest_iff hashBucket firstTables _ evicts_firstTables

/-- After the tables `1` to `16383`, each looked up once, the call for table `16384` removes the
table looked up last and keeps the one looked up first. -/
theorem firstTables_not_evictsOldest :
    Evicts hashBucket (runLookups hashBucket firstTables).store nextTable ∧
      ¬ EvictsOldest hashBucket (runLookups hashBucket firstTables) nextTable := by
  have hevicts := evicts_firstTables
  refine ⟨hevicts, fun hold => ?_⟩
  have h := firstTables_orderInv
  generalize runLookups hashBucket firstTables = r at h hold hevicts
  have hlen : firstTables.reverse.length = maxStates - 1 := by
    rw [List.length_reverse, length_firstTables]
  have hcut : cleanNStates < maxStates - 1 := by decide
  have hpos : 0 < cleanNStates := by decide
  have horder : orderTables r.store = firstTables.reverse := by rw [h.order, List.append_nil]
  have hnodup : (orderTables r.store).Nodup := h.store.nodup_orderTables
  -- the head of the list, and the first position behind the cut
  have hhead : 0 < firstTables.reverse.length := by omega
  have hkept : cleanNStates < firstTables.reverse.length := by omega
  have hstored : ∀ i (hi : i < firstTables.reverse.length),
      Stored hashBucket r.store firstTables.reverse[i] := by
    intro i hi
    rw [Stored, h.store.lookup_isSome, horder]
    exact List.getElem_mem hi
  have hgone : ¬ Stored hashBucket (r.find hashBucket nextTable).store firstTables.reverse[0] := by
    rw [stored_find_iff h.store hevicts (hstored 0 hhead)]
    refine ((mem_take_iff hnodup cleanNStates).mp ?_).2
    rw [horder]
    refine List.mem_of_getElem? (i := 0) ?_
    rw [List.getElem?_take, if_pos hpos, List.getElem?_eq_getElem hhead]
  have hstays : Stored hashBucket (r.find hashBucket nextTable).store
      firstTables.reverse[cleanNStates] := by
    rw [stored_find_iff h.store hevicts (hstored _ hkept), horder]
    refine List.mem_of_getElem? (i := 0) ?_
    rw [List.getElem?_drop, Nat.add_zero, List.getElem?_eq_getElem hkept]
  have hage := hold _ _ (hstored 0 hhead) hgone (hstored _ hkept) hstays
  have hyoung := List.pairwise_iff_getElem.mp h.runs.young 0 cleanNStates hhead hkept hpos
  omega

end Kxo
