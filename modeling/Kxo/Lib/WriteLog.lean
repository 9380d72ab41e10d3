import Mathlib.Logic.Function.Basic

/-!
# Kxo — writes to a map that forgets

A map from keys to records may drop a key at any time and give it a default record when it is
inserted again. Its log, most recent first, keeps the insertions and the writes of single fields;
`lastWritten` reads a field off the log.
-/

namespace Kxo.WriteLog

variable {κ φ ν : Type*} [DecidableEq κ] [DecidableEq φ]

/-- An entry of the log: a key inserted with its default record, or one field of a key written. -/
inductive Entry (κ φ ν : Type*) where
  | insert (key : κ)
  | write (key : κ) (field : φ) (value : ν)

/-- The key of an entry. -/
def Entry.key : Entry κ φ ν → κ
  | insert key => key
  | write key _ _ => key

/-- The value last written to a field of a key since the key was last inserted. -/
def lastWritten (default : κ → φ → ν) : List (Entry κ φ ν) → κ → φ → ν
  | [], key, field => default key field
  | .insert k :: log, key, field =>
      if k = key then default key field else lastWritten default log key field
  | .write k f value :: log, key, field =>
      if k = key ∧ f = field then value else lastWritten default log key field

/-- An insertion gives every field of its key the default, whatever was written before. -/
theorem lastWritten_insert (default : κ → φ → ν) (log : List (Entry κ φ ν)) (key : κ) :
    lastWritten default (.insert key :: log) key = default key := by
  funext field
  rw [lastWritten, if_pos rfl]

/-- A write changes one field of its key. -/
theorem lastWritten_write (default : κ → φ → ν) (log : List (Entry κ φ ν)) (key : κ) (field : φ)
    (value : ν) :
    lastWritten default (.write key field value :: log) key =
      Function.update (lastWritten default log key) field value := by
  funext f
  by_cases hf : f = field
  · subst hf
    rw [lastWritten, if_pos ⟨rfl, rfl⟩, Function.update_self]
  · rw [lastWritten, if_neg fun h => hf h.2.symm, Function.update_of_ne hf]

/-- The frame: an entry of another key changes nothing. -/
theorem lastWritten_of_ne (default : κ → φ → ν) (log : List (Entry κ φ ν)) {e : Entry κ φ ν}
    {key : κ} (hne : key ≠ e.key) :
    lastWritten default (e :: log) key = lastWritten default log key := by
  funext field
  cases e with
  | insert k => rw [lastWritten, if_neg fun h => hne h.symm]
  | write k f value => rw [lastWritten, if_neg fun h => hne h.1.symm]

end Kxo.WriteLog
