import Kxo.Spec.Rl
import Mathlib.Data.List.Basic
import Mathlib.Data.List.Nodup
import Mathlib.Data.List.Perm.Subperm

/-!
# Kxo — the state store and its order list (`src/rl-state.c`)

The buffer, the bitmap, the hash chains and the order list describe one set of tables. On such a
store `find_rl_state` is an operation on the list of tables in order, `findOrder`: a table found
moves to the tail, a new one goes to the head, after the first `CLEAN_N_STATES` are cut when the
store is full.

## The architecture

* **`StoreInv`** — how the four structures agree. The order list is taken as the reference: the
  bitmap and the chains are described by what is in it.
* **`StoreInv.moveTail`**, **`StoreInv.cleanMany`**, **`StoreInv.insert`** — the three list
  operations of the source keep the invariant, and what each does to the list of tables in order.
* **`StoreInv.findFirstZeroBit`** — why an insertion finds a slot: one position is always left free,
  because the store is cleaned when it holds all but one.
* **`findRlState_refines`** — all of it together: `find_rl_state` keeps the invariant and does to
  the list of tables what `findOrder` says.

The hash function is a parameter. Nothing depends on how tables spread over the buckets.
-/

namespace Kxo

/-! ## The abstract store

The abstract store is a list of tables. What a hit or a miss does to it takes no bitmap and no chain
to say. -/

def orderTables (s : RlStore) : List U32 := s.orders.map fun pos => (s.stBuff pos).table

/-- What `find_rl_state` does to the tables in order. -/
def findOrder (tables : List U32) (table : U32) : List U32 :=
  if table ∈ tables then tables.filter (· ≠ table) ++ [table]
  else if maxStates - 1 ≤ tables.length then table :: tables.drop cleanNStates
  else table :: tables

/-! ## The invariant

That no two positions hold one table is what makes the search deterministic; that one position stays
free is what makes an insertion succeed. -/

/-- The four structures agree: the bitmap marks the positions in the list, the chain of a bucket
holds the positions of its tables, no table is there twice, and one position is always free. -/
structure StoreInv (bucket : U32 → Nat) (s : RlStore) : Prop where
  nodup : s.orders.Nodup
  lt : ∀ pos ∈ s.orders, pos < maxStates
  map : ∀ pos, s.stMap pos = true ↔ pos ∈ s.orders
  chain : ∀ h pos, pos ∈ s.states h ↔ pos ∈ s.orders ∧ bucket (s.stBuff pos).table = h
  inj : ∀ p ∈ s.orders, ∀ q ∈ s.orders, (s.stBuff p).table = (s.stBuff q).table → p = q
  room : s.orders.length ≤ maxStates - 1

/-- At module load nothing is stored and every bit is clear. -/
theorem initRlAgent_storeInv (bucket : U32 → Nat) : StoreInv bucket initRlAgent where
  nodup := List.nodup_nil
  lt := by simp [initRlAgent]
  map := by simp [initRlAgent]
  chain := by simp [initRlAgent]
  inj := by simp [initRlAgent]
  room := by simp [initRlAgent]

namespace StoreInv

variable {bucket : U32 → Nat} {s : RlStore}

/-- No table is stored twice. -/
theorem nodup_orderTables (h : StoreInv bucket s) : (orderTables s).Nodup :=
  List.Nodup.map_on h.inj h.nodup

/-- As many bits are set as the list has positions. -/
theorem bitmapWeight (h : StoreInv bucket s) : Kxo.bitmapWeight s.stMap = s.orders.length := by
  rw [Kxo.bitmapWeight, List.countP_eq_length_filter]
  refine List.Perm.length_eq ?_
  rw [List.perm_ext_iff_of_nodup (List.nodup_range.filter _) h.nodup]
  intro pos
  rw [List.mem_filter, List.mem_range, h.map]
  exact ⟨fun hp => hp.2, fun hp => ⟨h.lt pos hp, hp⟩⟩

/-- The search finds a table exactly when it is stored. -/
theorem lookup_eq_some (h : StoreInv bucket s) {table : U32} {pos : Nat} :
    s.lookup bucket table = some pos ↔ pos ∈ s.orders ∧ (s.stBuff pos).table = table := by
  constructor
  · intro hfind
    have hmem := List.mem_of_find?_eq_some hfind
    have htable := List.find?_some hfind
    exact ⟨((h.chain _ _).mp hmem).1, by simpa using htable⟩
  · rintro ⟨hmem, rfl⟩
    have hchain : pos ∈ s.states (bucket (s.stBuff pos).table) := (h.chain _ _).mpr ⟨hmem, rfl⟩
    cases hfind : s.lookup bucket (s.stBuff pos).table with
    | none =>
      have := List.find?_eq_none.mp hfind pos hchain
      simp at this
    | some q =>
      have hqmem := ((h.chain _ _).mp (List.mem_of_find?_eq_some hfind)).1
      have hq : (s.stBuff q).table = (s.stBuff pos).table := by simpa using List.find?_some hfind
      rw [h.inj q hqmem pos hmem hq]

/-- The search finds what is stored. -/
theorem lookup_isSome (h : StoreInv bucket s) {table : U32} :
    (s.lookup bucket table).isSome = true ↔ table ∈ orderTables s := by
  rw [Option.isSome_iff_exists, orderTables, List.mem_map]
  exact exists_congr fun pos => h.lookup_eq_some

/-- And misses what is not. -/
theorem lookup_eq_none (h : StoreInv bucket s) {table : U32} :
    s.lookup bucket table = none ↔ table ∉ orderTables s := by
  rw [← h.lookup_isSome]
  cases s.lookup bucket table <;> simp

/-! ## Moving to the tail

`list_move_tail`, after a hit. -/

/-- A move to the tail keeps the invariant: the list is permuted, nothing else is touched. -/
theorem moveTail (h : StoreInv bucket s) {pos : Nat} (hpos : pos ∈ s.orders) :
    StoreInv bucket (s.moveTail pos) := by
  have hmem : ∀ p, p ∈ (s.moveTail pos).orders ↔ p ∈ s.orders := by
    intro p
    simp only [RlStore.moveTail, List.mem_append, List.mem_filter, List.mem_singleton,
      decide_eq_true_eq]
    by_cases hp : p = pos
    · simp [hp, hpos]
    · simp [hp]
  have hperm : (s.moveTail pos).orders.Nodup := by
    simp only [RlStore.moveTail]
    rw [List.nodup_append]
    refine ⟨h.nodup.filter _, by simp, ?_⟩
    intro a ha b hb
    rw [List.mem_singleton] at hb
    subst hb
    simpa using (List.mem_filter.mp ha).2
  refine ⟨hperm, fun p hp => h.lt p ((hmem p).mp hp), fun p => ?_, fun k p => ?_,
    fun p hp q hq => h.inj p ((hmem p).mp hp) q ((hmem q).mp hq), ?_⟩
  · rw [hmem]; exact h.map p
  · rw [hmem]; exact h.chain k p
  · have hlen : (s.moveTail pos).orders.length = s.orders.length :=
      List.Perm.length_eq ((List.perm_ext_iff_of_nodup hperm h.nodup).mpr hmem)
    rw [hlen]
    exact h.room

/-- The table found goes to the end of the tables in order. -/
theorem orderTables_moveTail (h : StoreInv bucket s) {pos : Nat} (hpos : pos ∈ s.orders) :
    orderTables (s.moveTail pos) =
      (orderTables s).filter (· ≠ (s.stBuff pos).table) ++ [(s.stBuff pos).table] := by
  simp only [orderTables, RlStore.moveTail, List.map_append, List.map_cons, List.map_nil,
    List.filter_map]
  congr 2
  apply List.filter_congr
  intro p hp
  simp only [Function.comp_apply, ne_eq, decide_eq_decide, not_iff_not]
  exact ⟨fun heq => by rw [heq], fun heq => h.inj p hp pos hpos heq⟩

/-! ## Eviction

`clean_state` walks from the head of the order list and frees the first `CLEAN_N_STATES` entries.
The induction is over a number of entries, as the loop counts them. -/

/-- `clean_state` on the head of the list: its bit is cleared, it leaves its chain, and the rest of
the store does not move. -/
theorem cleanOne (h : StoreInv bucket s) {pos : Nat} {rest : List Nat}
    (hcons : s.orders = pos :: rest) :
    StoreInv bucket (Kxo.cleanOne s pos) ∧ (Kxo.cleanOne s pos).orders = rest ∧
      ∀ p ∈ rest, (Kxo.cleanOne s pos).stBuff p = s.stBuff p := by
  obtain ⟨hnot, hrest⟩ := List.nodup_cons.mp (hcons ▸ h.nodup)
  have horders : (Kxo.cleanOne s pos).orders = rest := by
    simp only [Kxo.cleanOne, hcons]
    rw [List.filter_cons_of_neg (by simp)]
    refine List.filter_eq_self.mpr fun p hp => ?_
    have hne : p ≠ pos := by rintro rfl; exact hnot hp
    simpa using hne
  -- what stays in the order list is all but the evicted slot
  have hmem : ∀ p, p ∈ rest ↔ p ∈ s.orders ∧ p ≠ pos := by
    intro p
    rw [hcons, List.mem_cons]
    constructor
    · intro hp
      exact ⟨.inr hp, fun heq => hnot (heq ▸ hp)⟩
    · rintro ⟨rfl | hp, hne⟩
      · exact absurd rfl hne
      · exact hp
  -- the other slots keep their states
  have hbuff : ∀ p, p ≠ pos → (Kxo.cleanOne s pos).stBuff p = s.stBuff p := by
    intro p hp
    simp [Kxo.cleanOne, hp]
  -- the bitmap, the chains and the room, each without the evicted slot
  refine ⟨⟨by rw [horders]; exact hrest, ?_, ?_, ?_, ?_, ?_⟩, horders,
    fun p hp => hbuff p ((hmem p).mp hp).2⟩
  · intro p hp
    rw [horders] at hp
    exact h.lt p ((hmem p).mp hp).1
  · intro p
    rw [horders, hmem]
    by_cases hp : p = pos
    · simp [Kxo.cleanOne, hp]
    · simp [Kxo.cleanOne, hp, h.map p]
  · intro k p
    rw [horders, hmem]
    simp only [Kxo.cleanOne, List.mem_filter, decide_eq_true_eq, h.chain k p]
    by_cases hp : p = pos
    · simp [hp]
    · simp [hp]
  · intro p hp q hq
    rw [horders] at hp hq
    obtain ⟨hp, hpne⟩ := (hmem p).mp hp
    obtain ⟨hq, hqne⟩ := (hmem q).mp hq
    rw [hbuff p hpne, hbuff q hqne]
    exact h.inj p hp q hq
  · rw [horders]
    have := h.room
    rw [hcons, List.length_cons] at this
    omega

/-- Any number of positions from the head, by induction on the number. -/
theorem cleanMany (h : StoreInv bucket s) (n : Nat) :
    StoreInv bucket ((s.orders.take n).foldl Kxo.cleanOne s) ∧
      orderTables ((s.orders.take n).foldl Kxo.cleanOne s) = (orderTables s).drop n := by
  induction n generalizing s with
  | zero => exact ⟨by simpa using h, by simp⟩
  | succ n ih =>
    cases hcons : s.orders with
    | nil => exact ⟨by simpa using h, by simp [orderTables, hcons]⟩
    | cons pos rest =>
      obtain ⟨hinv, horders, hbuff⟩ := h.cleanOne hcons
      obtain ⟨hinv', htables⟩ := ih hinv
      rw [horders] at hinv' htables
      rw [List.take_succ_cons, List.foldl_cons]
      refine ⟨hinv', htables.trans ?_⟩
      simp only [orderTables, horders, hcons, List.map_cons, List.drop_succ_cons]
      rw [List.map_congr_left fun p hp => by rw [hbuff p hp]]

/-- An eviction cuts the first `CLEAN_N_STATES` tables. -/
theorem cleanState (h : StoreInv bucket s) :
    StoreInv bucket (Kxo.cleanState s) ∧
      orderTables (Kxo.cleanState s) = (orderTables s).drop cleanNStates :=
  h.cleanMany cleanNStates

/-! ## Insertion

The slot is the first one whose bit is clear. It is in no chain, and what it held before is
overwritten. -/

/-- With a position to spare, `find_first_zero_bit` returns one. -/
theorem findFirstZeroBit (h : StoreInv bucket s) (hroom : s.orders.length < maxStates) :
    Kxo.findFirstZeroBit s.stMap < maxStates ∧ Kxo.findFirstZeroBit s.stMap ∉ s.orders := by
  -- fewer entries than positions: one is free
  have hfree : ∃ pos ∈ List.range maxStates, pos ∉ s.orders := by
    by_contra hall
    push Not at hall
    have hsub : (List.range maxStates).length ≤ s.orders.length :=
      (List.subperm_of_subset List.nodup_range hall).length_le
    rw [List.length_range] at hsub
    omega
  obtain ⟨pos, hrange, hpos⟩ := hfree
  cases hfind : (List.range maxStates).find? fun pos => !s.stMap pos with
  | none =>
    have := List.find?_eq_none.mp hfind pos hrange
    rw [Bool.not_eq_true, Bool.not_eq_false', h.map] at this
    exact absurd this hpos
  | some q =>
    have hq := List.find?_some hfind
    have hmem := List.mem_of_find?_eq_some hfind
    rw [Bool.not_eq_true'] at hq
    rw [Kxo.findFirstZeroBit, hfind, Option.getD_some]
    refine ⟨List.mem_range.mp hmem, fun hin => ?_⟩
    rw [(h.map q).mpr hin] at hq
    exact absurd hq (by simp)

/-- A new table goes to the head, into the slot of the first bit that is clear. -/
theorem insert (h : StoreInv bucket s) {table : U32} (hnew : table ∉ orderTables s)
    (hroom : s.orders.length < maxStates - 1) :
    StoreInv bucket (s.insert bucket table).2 ∧
      orderTables (s.insert bucket table).2 = table :: orderTables s := by
  obtain ⟨hlt, hfree⟩ := h.findFirstZeroBit (by omega)
  simp only [RlStore.insert]
  generalize Kxo.findFirstZeroBit s.stMap = pos at hlt hfree
  -- the position is new to the list, and so is the table
  have hne : ∀ p ∈ s.orders, p ≠ pos := fun p hp heq => hfree (heq ▸ hp)
  have hother : ∀ p ∈ s.orders, (s.stBuff p).table ≠ table := fun p hp heq =>
    hnew (List.mem_map.mpr ⟨p, hp, heq⟩)
  refine ⟨⟨List.nodup_cons.mpr ⟨hfree, h.nodup⟩, ?_, ?_, ?_, ?_, ?_⟩, ?_⟩
  · intro p hp
    rcases List.mem_cons.mp hp with rfl | hp
    · exact hlt
    · exact h.lt p hp
  · intro p
    by_cases hp : p = pos
    · simp [hp]
    · simp [hp, h.map p]
  · intro k p
    by_cases hk : k = bucket table
    · subst hk
      by_cases hp : p = pos
      · simp [hp]
      · simp [hp, h.chain]
    · by_cases hp : p = pos
      · subst hp
        simp [hk, Ne.symm hk, h.chain, hfree]
      · simp [hp, hk, h.chain]
  · intro p hp q hq
    rcases List.mem_cons.mp hp with hp | hp <;> rcases List.mem_cons.mp hq with hq | hq
    · exact fun _ => hp.trans hq.symm
    · simpa [hp, hne q hq] using fun heq => absurd heq.symm (hother q hq)
    · simpa [hq, hne p hp] using fun heq => absurd heq (hother p hp)
    · simpa [hne p hp, hne q hq] using h.inj p hp q hq
  · rw [List.length_cons]
    omega
  · simp only [orderTables, List.map_cons, Function.update_self]
    congr 1
    exact List.map_congr_left fun p hp => by simp [hne p hp]

end StoreInv

/-! ## The refinement -/

/-- **`find_rl_state` on the tables in order.** -/
theorem findRlState_refines {bucket : U32 → Nat} {s : RlStore} (h : StoreInv bucket s)
    (table : U32) :
    StoreInv bucket (findRlState bucket table s).2 ∧
      orderTables (findRlState bucket table s).2 = findOrder (orderTables s) table := by
  have hlen : (orderTables s).length = s.orders.length := by simp [orderTables]
  unfold findRlState findOrder
  cases hfind : s.lookup bucket table with
  | some pos =>
    obtain ⟨hpos, rfl⟩ := h.lookup_eq_some.mp hfind
    have hmem : (s.stBuff pos).table ∈ orderTables s := List.mem_map.mpr ⟨pos, hpos, rfl⟩
    rw [if_pos hmem]
    exact ⟨h.moveTail hpos, h.orderTables_moveTail hpos⟩
  | none =>
    have hnew := h.lookup_eq_none.mp hfind
    rw [if_neg hnew, hlen, h.bitmapWeight]
    dsimp only
    -- a full store is cleaned first, which leaves room
    by_cases hfull : maxStates - 1 ≤ s.orders.length
    · obtain ⟨hinv, htables⟩ := h.cleanState
      rw [if_pos hfull, if_pos hfull, ← htables]
      refine hinv.insert (fun hmem => hnew ?_) ?_
      · rw [htables] at hmem
        exact List.mem_of_mem_drop hmem
      · have hdrop := congrArg List.length htables
        rw [List.length_drop, hlen] at hdrop
        have hcleaned : (orderTables (cleanState s)).length = (cleanState s).orders.length := by
          simp [orderTables]
        have hclean : 0 < cleanNStates := by decide
        have hmax : 1 < maxStates := by decide
        have hroom := h.room
        omega
    · rw [if_neg hfull, if_neg hfull]
      exact h.insert hnew (by omega)

end Kxo
