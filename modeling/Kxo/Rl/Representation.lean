import Kxo.Rl.Eviction

/-!
# Kxo — bitmap, chains and order list, slot by slot (`src/rl-state.c`)

`StoreInv` says which positions the order list and the hash chains hold; here each structure is
counted. A slot whose bit is set occurs once in the order list and once in the chain of its own
table, a slot whose bit is clear occurs nowhere, and the slot a call fills is inside `st_buff`.

* **`ChainsNodup`** — the one thing that `StoreInv` leaves open: a chain might hold a slot twice. A
  new slot is linked into a chain only after `find_first_zero_bit` has found its bit clear.
* **`Represented`** — the four structures as counts.
* **`rl_representation`** — they describe one set of slots after any look-ups.
-/

namespace Kxo

/-! ## Making room

A miss on a full store cleans it first. `makeRoom` is the store after that step, so the slot of the
insertion can be spoken of. -/

/-- The store in which `find_rl_state` looks for a free slot: cleaned first when it is full. -/
def makeRoom (s : RlStore) : RlStore :=
  if maxStates - 1 ≤ bitmapWeight s.stMap then cleanState s else s

/-- A hit moves the slot to the tail and returns it. -/
theorem findRlState_hit {bucket : U32 → Nat} {s : RlStore} {table : U32} {pos : Nat}
    (h : s.lookup bucket table = some pos) :
    findRlState bucket table s = (pos, s.moveTail pos) := by
  rw [findRlState, h]

/-- A miss inserts, where there is room or room has been made. -/
theorem findRlState_miss {bucket : U32 → Nat} {s : RlStore} {table : U32}
    (h : s.lookup bucket table = none) :
    findRlState bucket table s = (makeRoom s).insert bucket table := by
  rw [findRlState, h]
  rfl

namespace StoreInv

variable {bucket : U32 → Nat} {s : RlStore}

/-- `clean_state` cuts the order list and leaves the other slots as they were. -/
theorem cleanMany_stBuff (h : StoreInv bucket s) (n : Nat) :
    ((s.orders.take n).foldl Kxo.cleanOne s).orders = s.orders.drop n ∧
      ∀ p ∈ s.orders.drop n, ((s.orders.take n).foldl Kxo.cleanOne s).stBuff p = s.stBuff p := by
  induction n generalizing s with
  | zero => exact ⟨by simp, fun _ _ => rfl⟩
  | succ n ih =>
    cases hcons : s.orders with
    | nil => exact ⟨by simpa using hcons, by simp⟩
    | cons pos rest =>
      obtain ⟨hinv, horders, hbuff⟩ := h.cleanOne hcons
      obtain ⟨horders', hbuff'⟩ := ih hinv
      rw [horders] at horders' hbuff'
      rw [List.take_succ_cons, List.foldl_cons, List.drop_succ_cons]
      exact ⟨horders', fun p hp => (hbuff' p hp).trans (hbuff p (List.mem_of_mem_drop hp))⟩

/-- After `makeRoom` a slot is free, and the tables that stay keep their slots. -/
theorem makeRoom (h : StoreInv bucket s) :
    StoreInv bucket (Kxo.makeRoom s) ∧ (Kxo.makeRoom s).orders.length < maxStates - 1 ∧
      (∀ p ∈ (Kxo.makeRoom s).orders, p ∈ s.orders ∧ (Kxo.makeRoom s).stBuff p = s.stBuff p) := by
  unfold Kxo.makeRoom
  rw [h.bitmapWeight]
  split
  · obtain ⟨horders, hbuff⟩ := h.cleanMany_stBuff cleanNStates
    refine ⟨h.cleanState.1, ?_, fun p hp => ?_⟩
    · have hclean : 0 < cleanNStates := by decide
      have hmax : 1 < maxStates := by decide
      have hroom := h.room
      rw [Kxo.cleanState, horders, List.length_drop]
      omega
    · rw [Kxo.cleanState, horders] at hp
      exact ⟨List.mem_of_mem_drop hp, hbuff p hp⟩
  · exact ⟨h, by omega, fun p hp => ⟨hp, rfl⟩⟩

end StoreInv

/-! ## Chains without repetition

An order list without repetition is part of `StoreInv`; for the chains it is an invariant of its
own. -/

/-- No hash chain holds a slot twice. -/
def ChainsNodup (s : RlStore) : Prop := ∀ h, (s.states h).Nodup

/-- Taking a slot out of its chain leaves no repetition. -/
theorem ChainsNodup.cleanOne {s : RlStore} (h : ChainsNodup s) (pos : Nat) :
    ChainsNodup (Kxo.cleanOne s pos) :=
  fun k => (h k).filter _

/-- Nor does taking out many. -/
theorem ChainsNodup.makeRoom {s : RlStore} (h : ChainsNodup s) : ChainsNodup (Kxo.makeRoom s) := by
  have hclean : ∀ (victims : List Nat) (t : RlStore), ChainsNodup t →
      ChainsNodup (victims.foldl Kxo.cleanOne t) := by
    intro victims
    induction victims with
    | nil => exact fun _ ht => ht
    | cons pos rest ih => exact fun t ht => ih _ (ht.cleanOne pos)
  unfold Kxo.makeRoom
  split
  · exact hclean _ s h
  · exact h

/-- The slot that is filled is in no chain before. -/
theorem ChainsNodup.insert {bucket : U32 → Nat} {s : RlStore} (h : ChainsNodup s)
    (hs : StoreInv bucket s) (hroom : s.orders.length < maxStates) (table : U32) :
    ChainsNodup (s.insert bucket table).2 := by
  obtain ⟨_, hfree⟩ := hs.findFirstZeroBit hroom
  intro k
  simp only [RlStore.insert]
  by_cases hk : k = bucket table
  · subst hk
    rw [Function.update_self]
    refine List.nodup_cons.mpr ⟨fun hmem => hfree ?_, h _⟩
    exact ((hs.chain _ _).mp hmem).1
  · rw [Function.update_of_ne hk]
    exact h k

/-- A call of `find_rl_state` keeps the chains without repetition. -/
theorem ChainsNodup.findRlState {bucket : U32 → Nat} {s : RlStore} (h : ChainsNodup s)
    (hs : StoreInv bucket s) (table : U32) :
    ChainsNodup (Kxo.findRlState bucket table s).2 := by
  cases hfind : s.lookup bucket table with
  | some pos =>
    rw [findRlState_hit hfind]
    exact h
  | none =>
    obtain ⟨hinv, hroom, _⟩ := hs.makeRoom
    rw [findRlState_miss hfind]
    exact h.makeRoom.insert hinv (by omega) table

/-- Both invariants, after any look-ups from module load on. Induction on the look-ups. -/
theorem runLookups_inv (bucket : U32 → Nat) (tables : List U32) :
    StoreInv bucket (runLookups bucket tables).store ∧
      ChainsNodup (runLookups bucket tables).store := by
  have hrun : ∀ r : LookupRun, StoreInv bucket r.store ∧ ChainsNodup r.store →
      StoreInv bucket (tables.foldl (LookupRun.find bucket) r).store ∧
        ChainsNodup (tables.foldl (LookupRun.find bucket) r).store := by
    induction tables with
    | nil => exact fun r h => h
    | cons t rest ih =>
      rintro r ⟨hs, hc⟩
      exact ih _ ⟨(findRlState_refines hs t).1, hc.findRlState hs t⟩
  exact hrun _ ⟨initRlAgent_storeInv bucket, fun _ => List.nodup_nil⟩

/-! ## The representation

Counts, so that nothing is said twice and nothing is lost. -/

/-- Bitmap, order list, hash chains and buffer describe one set of slots. -/
structure Represented (bucket : U32 → Nat) (s : RlStore) : Prop where
  orders : ∀ pos, s.orders.count pos = if s.stMap pos then 1 else 0
  chain : ∀ pos h, (s.states h).count pos =
    if s.stMap pos ∧ bucket (s.stBuff pos).table = h then 1 else 0
  distinct : ∀ p q, s.stMap p = true → s.stMap q = true →
    (s.stBuff p).table = (s.stBuff q).table → p = q
  lt : ∀ pos, s.stMap pos = true → pos < maxStates
  room : bitmapWeight s.stMap ≤ maxStates - 1

/-- From membership to counts: without repetition a list holds what it holds once. -/
theorem StoreInv.represented {bucket : U32 → Nat} {s : RlStore} (h : StoreInv bucket s)
    (hchains : ChainsNodup s) : Represented bucket s where
  orders pos := by
    rw [List.Nodup.count h.nodup]
    simp only [h.map]
  chain pos k := by
    rw [List.Nodup.count (hchains k)]
    simp only [h.chain, h.map]
  distinct p q hp hq := h.inj p ((h.map p).mp hp) q ((h.map q).mp hq)
  lt pos hpos := h.lt pos ((h.map pos).mp hpos)
  room := by
    rw [h.bitmapWeight]
    exact h.room

/-- A call fills or finds a slot of the buffer and writes no other place. -/
theorem StoreInv.findRlState_inside {bucket : U32 → Nat} {s : RlStore} (h : StoreInv bucket s)
    (table : U32) :
    (s.lookup bucket table = none → Kxo.findFirstZeroBit (Kxo.makeRoom s).stMap < maxStates) ∧
      (findRlState bucket table s).1 < maxStates ∧
      ∀ pos, maxStates ≤ pos → (findRlState bucket table s).2.stBuff pos = s.stBuff pos := by
  obtain ⟨hinv, hroom, _⟩ := h.makeRoom
  have hfree := (hinv.findFirstZeroBit (by omega)).1
  refine ⟨fun _ => hfree, ?_⟩
  cases hfind : s.lookup bucket table with
  | some pos =>
    rw [findRlState_hit hfind]
    exact ⟨h.lt pos (h.lookup_eq_some.mp hfind).1, fun _ _ => rfl⟩
  | none =>
    rw [findRlState_miss hfind]
    refine ⟨by simpa only [RlStore.insert] using hfree, fun pos hpos => ?_⟩
    have hkept : (Kxo.makeRoom s).stBuff pos = s.stBuff pos := by
      unfold Kxo.makeRoom
      split
      · -- `clean_state` clears slots of the order list, all inside the buffer
        have hclean : ∀ (victims : List Nat) (t : RlStore), (∀ p ∈ victims, p < maxStates) →
            (victims.foldl Kxo.cleanOne t).stBuff pos = t.stBuff pos := by
          intro victims
          induction victims with
          | nil => exact fun _ _ => rfl
          | cons p rest ih =>
            intro t hlt
            have hne : pos ≠ p := by
              have := hlt p (by simp)
              omega
            rw [List.foldl_cons, ih _ fun q hq => hlt q (by simp [hq])]
            exact Function.update_of_ne hne _ _
        exact hclean _ s fun p hp => h.lt p (List.mem_of_mem_take hp)
      · rfl
    have hne : pos ≠ Kxo.findFirstZeroBit (Kxo.makeRoom s).stMap := by omega
    simp only [RlStore.insert, Function.update_of_ne hne]
    exact hkept

/-- **The store's representation.** After any sequence of look-ups, with any hash function, the four
structures agree slot by slot, and the next call stays inside the buffer. -/
theorem rl_representation (bucket : U32 → Nat) (tables : List U32) :
    Represented bucket (runLookups bucket tables).store ∧
      ∀ table, ((runLookups bucket tables).store.lookup bucket table = none →
          findFirstZeroBit (makeRoom (runLookups bucket tables).store).stMap < maxStates) ∧
        (findRlState bucket table (runLookups bucket tables).store).1 < maxStates ∧
        ∀ pos, maxStates ≤ pos →
          (findRlState bucket table (runLookups bucket tables).store).2.stBuff pos =
            (runLookups bucket tables).store.stBuff pos := by
  obtain ⟨hinv, hchains⟩ := runLookups_inv bucket tables
  exact ⟨hinv.represented hchains, fun table => hinv.findRlState_inside table⟩

end Kxo
