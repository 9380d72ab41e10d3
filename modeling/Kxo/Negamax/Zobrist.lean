import Kxo.Spec.Negamax
import Mathlib.Data.List.Induction
import Mathlib.Logic.Function.Basic

/-!
# Kxo — the transposition table as a map (`src/zobrist.c`)

`zobrist_put` never replaces an entry: it adds one in front of its chain, where the scan of
`zobrist_get` meets it before the older ones of the key. Under any calls the table therefore answers
like a map that a put overwrites and a clear empties, with any keys in one chain and any allocation
failing.

* **`zobristGetInto`**, **`zobristClearChains`** — the functions with all that they read and write:
  the caller's variables, and the chains one after another. `zobristGetInto_eq` and
  `zobristClearChains_eq` connect them to the forms that the search uses.
* **`KeyMap`**, **`Represents`** — the map, and that the table answers as it does.
* **`represents_run`** — after any calls.
* **`zobristGet_latest`** — in the words of the log: an answer is the latest put of the key since
  the last clear whose allocation succeeded.
-/

namespace Kxo

/-! ## The functions with all their data

`zobrist_get` returns through pointers, and leaves the caller's variables alone when nothing is
found. -/

/-- The scan of `zobrist_get`: whether an entry has the key, and the caller's `*score` and
`*move`. -/
def zobristGetScan (key : U64) (score move : Int) : List ZobristEntry → Bool × Int × Int
  | [] => (false, score, move)
  | entry :: rest =>
      if entry.key = key then (true, entry.score, entry.move)
      else zobristGetScan key score move rest

/-- `zobrist_get(key, &score, &move)`, from what the caller's variables hold. -/
def zobristGetInto (t : ZobristTable) (key : U64) (score move : Int) : Bool × Int × Int :=
  if (t.chains (hash key)).isEmpty then (false, score, move)
  else zobristGetScan key score move (t.chains (hash key))

/-- The `while (!hlist_empty(...))` loop: the first entry is taken off as long as there is one. -/
def deleteEntries : List ZobristEntry → List ZobristEntry
  | [] => []
  | _ :: rest => deleteEntries rest

/-- One round of the `for` loop of `zobrist_clear`. -/
def clearChain (t : ZobristTable) (i : Nat) : ZobristTable :=
  ⟨fun h => if h = i then deleteEntries (t.chains h) else t.chains h⟩

/-- `zobrist_clear`, chain by chain. -/
def zobristClearChains (t : ZobristTable) : ZobristTable :=
  (List.range hashTableSize).foldl clearChain t

/-- A call on the table; a put comes with whether its `kmalloc` succeeds, a get with what the
caller's variables hold. -/
inductive ZobristCall where
  | put (alloc : Bool) (key : U64) (score move : Int)
  | get (key : U64) (score move : Int)
  | clear
  deriving DecidableEq, Repr

def ZobristCall.apply (t : ZobristTable) : ZobristCall → ZobristTable
  | .put alloc key score move => zobristPut alloc t key score move
  | .get _ _ _ => t
  | .clear => zobristClearChains t

/-- The table after some calls, from the one `zobrist_init` leaves. -/
def zobristRun (calls : List ZobristCall) : ZobristTable :=
  calls.foldl ZobristCall.apply zobristClear

/-! ## The map

What a caller may rely on. -/

/-- What the table stands for: at most one score and move a key. -/
abbrev KeyMap := U64 → Option (Int × Int)

def KeyMap.apply (m : KeyMap) : ZobristCall → KeyMap
  | .put true key score move => Function.update m key (some (score, move))
  | .put false _ _ _ => m
  | .get _ _ _ => m
  | .clear => fun _ => none

def keyMapRun (calls : List ZobristCall) : KeyMap := calls.foldl KeyMap.apply fun _ => none

/-- A put for the key has succeeded since the last clear, and this is the latest such. -/
def LatestPut (calls : List ZobristCall) (key : U64) (score move : Int) : Prop :=
  ∃ before after, calls = before ++ .put true key score move :: after ∧ .clear ∉ after ∧
    ∀ score' move', .put true key score' move' ∉ after

/-- The latest put, by the last call. -/
theorem latestPut_append {calls : List ZobristCall} {call : ZobristCall} {key : U64}
    {score move : Int} :
    LatestPut (calls ++ [call]) key score move ↔
      call = .put true key score move ∨
        call ≠ .clear ∧ (∀ score' move', call ≠ .put true key score' move') ∧
          LatestPut calls key score move := by
  constructor
  · rintro ⟨before, after, hsplit, hclear, hput⟩
    rcases after.eq_nil_or_concat with rfl | ⟨after, last, rfl⟩
    · exact .inl (List.singleton_inj.mp (List.append_inj' hsplit rfl).2)
    · rw [List.concat_eq_append] at hsplit hclear hput
      rw [← List.cons_append, ← List.append_assoc] at hsplit
      obtain ⟨hcalls, hlast⟩ := List.append_inj' hsplit rfl
      obtain rfl := List.singleton_inj.mp hlast
      refine .inr ⟨?_, fun score' move' => ?_, before, after, hcalls, ?_, fun score' move' => ?_⟩
      · rintro rfl
        exact hclear (by simp)
      · rintro rfl
        exact hput score' move' (by simp)
      · exact fun hmem => hclear (by simp [hmem])
      · exact fun hmem => hput score' move' (by simp [hmem])
  · rintro (rfl | ⟨hclear, hput, before, after, rfl, hclear', hput'⟩)
    · exact ⟨calls, [], rfl, by simp, by simp⟩
    · refine ⟨before, after ++ [call], by simp, ?_, fun score' move' => ?_⟩
      · simp [hclear', hclear.symm]
      · simp [hput', (hput score' move').symm]

/-- **The map holds, for each key, the latest put that succeeded since the last clear.** -/
theorem keyMapRun_eq_some_iff (calls : List ZobristCall) (key : U64) (score move : Int) :
    keyMapRun calls key = some (score, move) ↔ LatestPut calls key score move := by
  induction calls using List.reverseRecOn with
  | nil =>
    refine iff_of_false (by simp [keyMapRun]) ?_
    rintro ⟨before, after, hsplit, -⟩
    exact absurd hsplit (by simp)
  | append_singleton calls call ih =>
    have hrun : keyMapRun (calls ++ [call]) = (keyMapRun calls).apply call := by simp [keyMapRun]
    rw [hrun, latestPut_append, ← ih]
    cases call with
    | put alloc key' score' move' =>
      cases alloc with
      | false => simp [KeyMap.apply]
      | true =>
        by_cases hkey : key = key'
        · subst hkey
          simp [KeyMap.apply]
        · simp [KeyMap.apply, Function.update_of_ne hkey, Ne.symm hkey]
    | get => simp [KeyMap.apply]
    | clear => simp [KeyMap.apply]

/-! ## The table

Entries of different keys share a chain when their keys agree modulo the number of buckets. -/

/-- A put is found under its key: its entry is the first of the chain. -/
theorem zobristGet_put_same (t : ZobristTable) (key : U64) (score move : Int) :
    zobristGet (zobristPut true t key score move) key = some (score, move) := by
  simp [zobristGet, zobristPut]

/-- Under another key nothing changes, in the same chain or elsewhere. -/
theorem zobristGet_put_ne (t : ZobristTable) {key key' : U64} (hne : key ≠ key')
    (score move : Int) :
    zobristGet (zobristPut true t key score move) key' = zobristGet t key' := by
  unfold zobristGet zobristPut
  rw [if_pos rfl]
  dsimp only
  split
  · -- the entry may join the chain of `key'`, in front of what the look-up finds there
    rw [List.find?_cons_of_neg (by simpa using hne)]
  · rfl

/-- The loop deletes every entry. -/
theorem deleteEntries_eq_nil (chain : List ZobristEntry) : deleteEntries chain = [] := by
  induction chain with
  | nil => rfl
  | cons entry rest ih => exact ih

/-- What `zobrist_get` gives the caller: the entry found, or the variables as they were. -/
theorem zobristGetInto_eq (t : ZobristTable) (key : U64) (score move : Int) :
    zobristGetInto t key score move =
      match zobristGet t key with
      | some found => (true, found)
      | none => (false, score, move) := by
  have hscan : ∀ chain : List ZobristEntry, zobristGetScan key score move chain =
      match (chain.find? fun e => e.key = key).map fun e => (e.score, e.move) with
      | some found => (true, found)
      | none => (false, score, move) := by
    intro chain
    induction chain with
    | nil => rfl
    | cons entry rest ih =>
      rw [zobristGetScan]
      by_cases hkey : entry.key = key
      · rw [if_pos hkey, List.find?_cons_of_pos (by simpa using hkey)]
        rfl
      · rw [if_neg hkey, List.find?_cons_of_neg (by simpa using hkey), ih]
  rw [zobristGetInto, zobristGet]
  split
  case isTrue hempty =>
    rw [List.isEmpty_iff.mp hempty]
    rfl
  case isFalse => exact hscan _

/-- The chains of a table are those of the `HASH_TABLE_SIZE` buckets. -/
def InBuckets (t : ZobristTable) : Prop := ∀ h, hashTableSize ≤ h → t.chains h = []

/-- The rounds of `zobrist_clear` empty every bucket. -/
theorem zobristClearChains_eq {t : ZobristTable} (ht : InBuckets t) :
    zobristClearChains t = zobristClear := by
  have hrounds : ∀ n h, ((List.range n).foldl clearChain t).chains h =
      if h < n then [] else t.chains h := by
    intro n h
    induction n with
    | zero => rfl
    | succ n ih =>
      rw [List.range_succ, List.foldl_append, List.foldl_cons, List.foldl_nil, clearChain]
      dsimp only
      by_cases hn : h = n
      · rw [if_pos hn, if_pos (by omega), deleteEntries_eq_nil]
      · rw [if_neg hn, ih]
        congr 1
        exact propext (by omega)
  have hchains : (zobristClearChains t).chains = fun _ => [] := by
    funext h
    rw [zobristClearChains, hrounds]
    split
    · rfl
    · exact ht h (by omega)
  generalize zobristClearChains t = cleared at hchains
  cases cleared
  exact congrArg ZobristTable.mk hchains

/-- The table answers as the map does, for every key. -/
structure Represents (t : ZobristTable) (m : KeyMap) : Prop where
  buckets : InBuckets t
  get : ∀ key, zobristGet t key = m key

/-- **One call keeps the table a map.** -/
theorem Represents.apply {t : ZobristTable} {m : KeyMap} (h : Represents t m)
    (call : ZobristCall) : Represents (call.apply t) (m.apply call) := by
  cases call with
  | put alloc key score move =>
    cases alloc with
    | false => exact h
    | true =>
      refine ⟨fun i hi => ?_, fun key' => ?_⟩
      · have hlt : hash key < hashTableSize := Nat.mod_lt _ (by decide)
        have hne : i ≠ hash key := by omega
        show (if i = hash key then _ else t.chains i) = []
        rw [if_neg hne, h.buckets i hi]
      · show zobristGet (zobristPut true t key score move) key' = Function.update m key _ key'
        by_cases hkey : key' = key
        · subst hkey
          rw [zobristGet_put_same, Function.update_self]
        · rw [zobristGet_put_ne t (Ne.symm hkey), Function.update_of_ne hkey, h.get]
  | get => exact h
  | clear =>
    show Represents (zobristClearChains t) fun _ => none
    rw [zobristClearChains_eq h.buckets]
    exact ⟨fun _ _ => rfl, fun _ => rfl⟩

/-- After any calls the table answers as the map does. -/
theorem represents_run (calls : List ZobristCall) :
    Represents (zobristRun calls) (keyMapRun calls) := by
  have hrun : ∀ t m, Represents t m →
      Represents (calls.foldl ZobristCall.apply t) (calls.foldl KeyMap.apply m) := by
    induction calls with
    | nil => exact fun _ _ h => h
    | cons call rest ih => exact fun t m h => ih _ _ (h.apply call)
  exact hrun _ _ ⟨fun _ _ => rfl, fun _ => rfl⟩

/-- **The transposition table is a map.** After any calls, `zobrist_get` succeeds exactly when a put
for the key has succeeded since the last clear, with the score and move of the latest such put; and
where it fails, the caller's variables are as they were. -/
theorem zobristGet_latest (calls : List ZobristCall) (key : U64) (score move : Int) :
    ((zobristGetInto (zobristRun calls) key score move).1 = true ↔
      ∃ score' move', LatestPut calls key score' move') ∧
    (∀ score' move', LatestPut calls key score' move' →
      zobristGetInto (zobristRun calls) key score move = (true, score', move')) ∧
    ((zobristGetInto (zobristRun calls) key score move).1 = false →
      zobristGetInto (zobristRun calls) key score move = (false, score, move)) := by
  simp only [zobristGetInto_eq, (represents_run calls).get, ← keyMapRun_eq_some_iff]
  cases hfound : keyMapRun calls key with
  | none => simp
  | some found => simp [Prod.ext_iff]

/-- Two keys of one bucket, each with its latest put; a failed one does not count. -/
example :
    let calls := [.put true 1 10 2, .put true 100004 20 3, .put true 1 30 4, .put false 1 40 5]
    hash 1 = hash 100004 ∧ zobristGetInto (zobristRun calls) 1 0 0 = (true, 30, 4) ∧
      zobristGetInto (zobristRun calls) 100004 0 0 = (true, 20, 3) := by
  decide

end Kxo
