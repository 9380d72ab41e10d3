import Kxo.Spec.Keyboard
import Mathlib.Data.List.Perm.Basic

/-!
# Kxo — lost key presses (`user/xo-user.c`)

A key press is a read of the attribute, an edit of the text and a write, with no lock over the
pair. A write puts back the whole record as its own read found it, so presses written in between
are lost. The record always is that of the surviving presses, made one after another; from this
follows when none was lost to the eye, and when an earlier Ctrl-Q is taken back.

* **`Key.apply`**, **`outcome`** — the record after one press and after the presses of a list. The
  order does not matter: Ctrl-P toggles `display`, Ctrl-Q sets `end`.
* **`listenKeyboard_sim`** — the handler, with its texts and buffers, is the read-modify-write
  schedule of the updates `pressKey`, as long as every write comes after a read of its call.
* **`listenKeyboard_attr`** — so the record is the outcome of the survivors, which are read off the
  schedule alone.
* **`LosesNone`** — the condition on keys, start and schedule; **`pressesKept_iff`** shows that it
  is exact.

A record whose `resume` is a blank or NUL is never understood by `sscanf`. Then no write has any
effect, and nothing is lost either.
-/

namespace Kxo

/-! ## One press

What the handler writes after a read, and what the driver makes of it: `sscanf` takes the written
text apart into the three characters, where `resume` is one it takes for a field. -/

/-- `display` and `end` are `'0'` or `'1'`. -/
structure KxoAttr.Flags (a : KxoAttr) : Prop where
  display : a.display = '0' ∨ a.display = '1'
  endFlag : a.endFlag = '0' ∨ a.endFlag = '1'

/-- A character that `%c` takes for a field. -/
def IsField (c : Char) : Prop := isspace c = false ∧ c.toNat ≠ 0

instance (c : Char) : Decidable (IsField c) := inferInstanceAs (Decidable (_ ∧ _))

def toggle (c : Char) : Char := if c = '0' then '1' else '0'

/-- The record the handler writes after reading `a`. -/
def Key.apply : Key → KxoAttr → KxoAttr
  | .ctrlP, a => { a with display := toggle a.display }
  | .ctrlQ, a => { a with endFlag := '1' }

variable {a b : KxoAttr} {key : Key}

/-- A flag is a character that `sscanf` reads as a field. -/
theorem isField_flag {c : Char} (hc : c = '0' ∨ c = '1') : IsField c := by
  rcases hc with rfl | rfl <;> decide

/-- A press keeps `display` and `end` flags. -/
theorem KxoAttr.Flags.apply (h : a.Flags) (key : Key) : (key.apply a).Flags := by
  cases key with
  | ctrlP =>
    refine ⟨?_, h.endFlag⟩
    show toggle a.display = '0' ∨ toggle a.display = '1'
    obtain hd | hd := h.display <;> rw [hd] <;> decide
  | ctrlQ => exact ⟨h.display, .inr rfl⟩

/-- Editing the text is editing the record: the handler flips or sets one character of what it has
read, and this is the text of the record after the press. -/
theorem edit_kxoStateShow (h : a.Flags) (key : Key) :
    key.edit a.kxoStateShow = (key.apply a).kxoStateShow := by
  cases key with
  | ctrlQ => rfl
  | ctrlP =>
    obtain hd | hd := h.display <;>
      simp only [KxoAttr.kxoStateShow, Key.edit, Key.apply, hd] <;> rfl

/-- **A record that was shown is stored as it was.** -/
theorem scanRecord_kxoStateShow (h : a.Flags) (hr : IsField a.resume) :
    scanRecord a.kxoStateShow = some (a.display, a.resume, a.endFlag) := by
  obtain ⟨_, hd⟩ := isField_flag h.display
  obtain ⟨hspace, he⟩ := isField_flag h.endFlag
  have hblank : isspace ' ' = true := rfl
  simp [scanRecord, KxoAttr.kxoStateShow, scanChar, hd, hr.1, hr.2, hspace, he, hblank]

/-- A blank or a NUL between the flags leaves too few fields. -/
theorem scanRecord_eq_none (h : a.Flags) (hr : ¬ IsField a.resume) :
    scanRecord a.kxoStateShow = none := by
  obtain ⟨_, hd⟩ := isField_flag h.display
  obtain ⟨hspace, he⟩ := isField_flag h.endFlag
  have hblank : isspace ' ' = true := rfl
  have hnewline : isspace '\n' = true := rfl
  by_cases hb : isspace a.resume = true
  · simp [scanRecord, KxoAttr.kxoStateShow, scanChar, hd, hb, hspace, he, hblank, hnewline]
  · have hnul : a.resume.toNat = 0 := by
      by_contra hne
      exact hr ⟨by simpa using hb, hne⟩
    simp [scanRecord, KxoAttr.kxoStateShow, scanChar, hd, hb, hnul, hblank]

/-- No key changes `resume`. -/
theorem Key.apply_resume (key : Key) (a : KxoAttr) : (key.apply a).resume = a.resume := by
  cases key <;> rfl

/-- What a write stores, over whatever is there. -/
theorem kxoStateStore_edit (h : a.Flags) (hr : IsField a.resume) (key : Key) (b : KxoAttr) :
    b.kxoStateStore (key.edit a.kxoStateShow) = key.apply a := by
  have hr' : IsField (key.apply a).resume := by rwa [key.apply_resume]
  rw [edit_kxoStateShow h, KxoAttr.kxoStateStore, scanRecord_kxoStateShow (h.apply key) hr']

/-- Where `sscanf` finds too few fields a write changes nothing. -/
theorem kxoStateStore_edit_of_not (h : a.Flags) (hr : ¬ IsField a.resume) (key : Key)
    (b : KxoAttr) : b.kxoStateStore (key.edit a.kxoStateShow) = b := by
  have hr' : ¬ IsField (key.apply a).resume := by rwa [key.apply_resume]
  rw [edit_kxoStateShow h, KxoAttr.kxoStateStore, scanRecord_eq_none (h.apply key) hr']

/-- A press that nothing interrupts is the update of the record. -/
theorem pressKey_eq (h : a.Flags) (hr : IsField a.resume) (key : Key) :
    pressKey key a = key.apply a := kxoStateStore_edit h hr key a

/-- A press that nothing interrupts changes nothing where writes are refused. -/
theorem pressKey_of_not (h : a.Flags) (hr : ¬ IsField a.resume) (key : Key) :
    pressKey key a = a := kxoStateStore_edit_of_not h hr key a

/-- A write through sysfs does to the driver what it does to the record. -/
theorem attrObj_kxoStateWrite {σ : Type} (buf : List Char) (s : Driver σ) :
    (kxoStateWrite buf s).attrObj = s.attrObj.kxoStateStore buf := by
  unfold kxoStateWrite KxoAttr.kxoStateStore
  cases scanRecord buf <;> rfl

/-! ## Presses one after another

The presses of a list leave a record that depends on how many Ctrl-P there are, odd or even, and
whether there is a Ctrl-Q. -/

/-- The record after the presses of a list, in any order. -/
def outcome (keys : Nat → Key) (l : List Nat) (a : KxoAttr) : KxoAttr where
  display := if l.countP (fun i => keys i = .ctrlP) % 2 = 1 then toggle a.display else a.display
  resume := a.resume
  endFlag := if ∃ i ∈ l, keys i = .ctrlQ then '1' else a.endFlag

variable {keys : Nat → Key} {l : List Nat}

/-- A second Ctrl-P takes the first back. -/
theorem toggle_toggle {c : Char} (hc : c = '0' ∨ c = '1') : toggle (toggle c) = c := by
  rcases hc with rfl | rfl <;> rfl

/-- A Ctrl-P is seen. -/
theorem toggle_ne {c : Char} (hc : c = '0' ∨ c = '1') : toggle c ≠ c := by
  rcases hc with rfl | rfl <;> decide

/-- One more press on top of those of a list. -/
theorem outcome_cons (h : a.Flags) (i : Nat) :
    outcome keys (i :: l) a = (keys i).apply (outcome keys l a) := by
  cases hkey : keys i with
  | ctrlQ => simp [outcome, Key.apply, hkey]
  | ctrlP =>
    rcases Nat.mod_two_eq_zero_or_one (l.countP fun i => keys i = .ctrlP) with hpar | hpar
    · have hnext : (l.countP (fun i => keys i = .ctrlP) + 1) % 2 = 1 := by omega
      simp [outcome, Key.apply, hkey, hpar, hnext]
    · have hnext : (l.countP (fun i => keys i = .ctrlP) + 1) % 2 = 0 := by omega
      simp [outcome, Key.apply, hkey, hpar, hnext, toggle_toggle h.display]

/-- The flags stay flags. -/
theorem outcome_flags (h : a.Flags) (l : List Nat) : (outcome keys l a).Flags := by
  induction l with
  | nil => simpa [outcome] using h
  | cons i l ih =>
    rw [outcome_cons h]
    exact ih.apply (keys i)

/-- The presses of a list, the last of the list first. -/
theorem foldr_pressKey (h : a.Flags) (hr : IsField a.resume) (l : List Nat) :
    l.foldr (fun i a => pressKey (keys i) a) a = outcome keys l a := by
  induction l with
  | nil => simp [outcome]
  | cons i l ih =>
    rw [List.foldr_cons, ih, outcome_cons h]
    exact pressKey_eq (outcome_flags h l) hr (keys i)

/-- Where writes are refused the presses of a list change nothing. -/
theorem foldr_pressKey_of_not (h : a.Flags) (hr : ¬ IsField a.resume) (l : List Nat) :
    l.foldr (fun i a => pressKey (keys i) a) a = a := by
  induction l with
  | nil => rfl
  | cons i l ih => rw [List.foldr_cons, ih, pressKey_of_not h hr]

/-- The outcome is that of the presses in any other order. -/
theorem outcome_perm {l' : List Nat} (hperm : l.Perm l') :
    outcome keys l a = outcome keys l' a := by
  simp only [outcome, hperm.countP_eq, hperm.mem_iff]

/-- **The order of the presses does not matter.** -/
theorem pressInOrder_eq (h : a.Flags) (hr : IsField a.resume) (order : List Nat) :
    pressInOrder keys order a = outcome keys order a := by
  rw [pressInOrder, List.foldl_eq_foldr_reverse, foldr_pressKey h hr]
  exact outcome_perm order.reverse_perm

/-- In no order do refused presses change the record. -/
theorem pressInOrder_of_not (h : a.Flags) (hr : ¬ IsField a.resume) (order : List Nat) :
    pressInOrder keys order a = a := by
  rw [pressInOrder, List.foldl_eq_foldr_reverse, foldr_pressKey_of_not h hr]

/-! ## Interleaved presses

The handler is related to a schedule of updates on the record itself. Its buffers hold texts, those
of the schedule hold records; a buffer shows the copy of its call from the read of the call on. -/

/-- Every write comes after a read of the same call. -/
def ReadFirst (steps : List (Rmw.Step Nat)) : Prop :=
  ∀ before i after, steps = before ++ .write i :: after → .read i ∈ before

/-- What holds of every write of a schedule holds of those of its beginning. -/
theorem ReadFirst.prefix {steps steps' : List (Rmw.Step Nat)} (h : ReadFirst (steps ++ steps')) :
    ReadFirst steps := by
  rintro before i after rfl
  apply h before i (after ++ steps')
  simp

/-- What a schedule from `a` can show: the flags stay flags, `resume` stays, and all stays where no
write is understood. -/
structure Shown (a x : KxoAttr) : Prop where
  flags : x.Flags
  resume : x.resume = a.resume
  same : ¬ IsField a.resume → x = a

/-- The record at the start. -/
theorem Shown.refl (h : a.Flags) : Shown a a := ⟨h, rfl, fun _ => rfl⟩

/-- A press keeps it: a press either edits one flag or is refused. -/
theorem Shown.pressKey {x : KxoAttr} (h : Shown a x) (key : Key) : Shown a (pressKey key x) := by
  by_cases hr : IsField a.resume
  · rw [pressKey_eq h.flags (by rwa [h.resume])]
    exact ⟨h.flags.apply key, (key.apply_resume x).trans h.resume, fun hnot => absurd hr hnot⟩
  · rw [pressKey_of_not h.flags (by rwa [h.resume])]
    exact h

/-- A write stores the press of what its call has read. -/
theorem Shown.store {x y : KxoAttr} (hx : Shown a x) (hy : Shown a y) (key : Key) :
    y.kxoStateStore (key.edit x.kxoStateShow) = Kxo.pressKey key x := by
  by_cases hr : IsField a.resume
  · have hrx : IsField x.resume := by rwa [hx.resume]
    rw [kxoStateStore_edit hx.flags hrx, pressKey_eq hx.flags hrx]
  · have hrx : ¬ IsField x.resume := by rwa [hx.resume]
    rw [kxoStateStore_edit_of_not hx.flags hrx, pressKey_of_not hx.flags hrx, hx.same hr,
      hy.same hr]

/-- The schedule as updates of the record. -/
def pressSchedule (keys : Nat → Key) (a : KxoAttr) (steps : List (Rmw.Step Nat)) :
    Rmw.Mem Nat KxoAttr :=
  Rmw.run (fun i a => pressKey (keys i) a) ⟨a, fun _ => a⟩ steps

/-- The record, and what each call has copied of it, are always shown from `a`. -/
theorem shown_pressSchedule (keys : Nat → Key) (h : a.Flags) (steps : List (Rmw.Step Nat)) :
    Shown a (pressSchedule keys a steps).value ∧
      ∀ i, Shown a ((pressSchedule keys a steps).copy i) :=
  Rmw.run_invariant (.refl h) (fun _ => .refl h) fun i _ _ hx => hx.pressKey (keys i)

/-- The record is the value of the schedule, and a buffer shows what its call has read. -/
theorem listenKeyboard_sim {s : Keyboard} (h : s.attr.Flags) {steps : List (Rmw.Step Nat)}
    (hfirst : ReadFirst steps) :
    (listenKeyboard keys s steps).attr = (pressSchedule keys s.attr steps).value ∧
      ∀ i, .read i ∈ steps →
        (listenKeyboard keys s steps).buf i =
          ((pressSchedule keys s.attr steps).copy i).kxoStateShow := by
  induction steps using List.reverseRecOn with
  | nil => exact ⟨rfl, fun i hi => by simp at hi⟩
  | append_singleton steps st ih =>
    obtain ⟨hattr, hbuf⟩ := ih hfirst.prefix
    obtain ⟨hvalue, hcopy⟩ := shown_pressSchedule keys h steps
    have hrun : listenKeyboard keys s (steps ++ [st]) =
        listenKeyboardStep keys (listenKeyboard keys s steps) st := List.foldl_append
    have hsched : pressSchedule keys s.attr (steps ++ [st]) =
        Rmw.step (fun i a => pressKey (keys i) a) (pressSchedule keys s.attr steps) st :=
      Rmw.run_append _ _ _ _
    rw [hrun, hsched]
    cases st with
    -- the buffer takes the text of the record, the schedule a copy of it
    | read i =>
      refine ⟨hattr, fun j hj => ?_⟩
      simp only [listenKeyboardStep, Rmw.step]
      rcases eq_or_ne j i with rfl | hne
      · rw [Function.update_self, Function.update_self, hattr]
      · rw [Function.update_of_ne hne, Function.update_of_ne hne]
        exact hbuf j (by simpa [hne] using hj)
    | write i =>
      have hread : .read i ∈ steps := hfirst steps i [] rfl
      refine ⟨?_, fun j hj => hbuf j (by simpa using hj)⟩
      show KxoAttr.kxoStateStore ((keys i).edit ((listenKeyboard keys s steps).buf i)) _ = _
      rw [hbuf i hread, hattr]
      exact (hcopy i).store hvalue (keys i)

/-- **The record is that of the surviving presses, one after another.** -/
theorem listenKeyboard_attr {s : Keyboard} (h : s.attr.Flags) {steps : List (Rmw.Step Nat)}
    (hfirst : ReadFirst steps) :
    (listenKeyboard keys s steps).attr =
      (Rmw.survivors steps).foldr (fun i a => pressKey (keys i) a) s.attr :=
  (listenKeyboard_sim h hfirst).1.trans (Rmw.value_run _ _ _)

/-! ## Schedules

An interleaving has of each call one read and then one write, so a write splits it in a known way.
-/

namespace Interleaving

variable {n : Nat} {steps : List (Rmw.Step Nat)}

/-- Where a call writes, it has read once before, and not since. -/
theorem filter_before (h : Interleaving n steps) {before after : List (Rmw.Step Nat)} {i : Nat}
    (heq : steps = before ++ .write i :: after) :
    i < n ∧ before.filter (fun st => st.id = i) = [.read i] := by
  have hi := h i
  rw [heq, List.filter_append, List.filter_cons_of_pos (by simp [Rmw.Step.id])] at hi
  by_cases hlt : i < n
  · rw [if_pos hlt] at hi
    refine ⟨hlt, ?_⟩
    cases hbefore : before.filter (fun st => st.id = i) with
    | nil => simp [hbefore] at hi
    | cons st rest =>
      rw [hbefore, List.cons_append, List.cons.injEq] at hi
      obtain ⟨rfl, hrest⟩ := hi
      -- the write is the second and last step of the call
      cases rest with
      | nil => rfl
      | cons st' rest => simp at hrest
  · simp [hlt] at hi

/-- Every write of an interleaving follows the read of its call. -/
theorem readFirst (h : Interleaving n steps) : ReadFirst steps := by
  intro before i after heq
  have hread : .read i ∈ before.filter (fun st => st.id = i) := by
    rw [(h.filter_before heq).2]
    simp
  exact (List.mem_filter.mp hread).1

/-- Only the calls below `n` write. -/
theorem lt_of_write (h : Interleaving n steps) {i : Nat} (hi : .write i ∈ steps) : i < n := by
  obtain ⟨before, after, heq⟩ := List.append_of_mem hi
  exact (h.filter_before heq).1

/-- Up to the end of a call. -/
theorem readFirst_upto (h : Interleaving n steps) {before between after : List (Rmw.Step Nat)}
    {i : Nat} (heq : steps = before ++ .read i :: between ++ .write i :: after) :
    ReadFirst (before ++ .read i :: between ++ [.write i]) := by
  have hall := h.readFirst
  rw [heq] at hall
  have hcut : ReadFirst (before ++ .read i :: between ++ [.write i] ++ after) := by
    simpa using hall
  exact hcut.prefix

/-- Between its two halves a call does nothing. -/
theorem not_read_between (h : Interleaving n steps) {before between after : List (Rmw.Step Nat)}
    {i : Nat} (heq : steps = before ++ .read i :: between ++ .write i :: after) :
    .read i ∉ between := by
  have hfilter := (h.filter_before heq).2
  rw [List.filter_append, List.filter_cons_of_pos (by simp [Rmw.Step.id])] at hfilter
  intro hmem
  have hin : .read i ∈ between.filter (fun st => st.id = i) :=
    List.mem_filter.mpr ⟨hmem, by simp [Rmw.Step.id]⟩
  have hlen := congrArg List.length hfilter
  have hpos := List.length_pos_of_mem hin
  simp at hlen
  omega

end Interleaving

/-! ## When no press is lost

The final record against that of the presses in some order, and `end` around the write of each
Ctrl-P. Both come down to which presses survive. -/

/-- The final record is that of the same presses one after another, and a Ctrl-P that was in
progress when a Ctrl-Q was written does not set `end` back to `'0'`. -/
structure PressesKept (keys : Nat → Key) (n : Nat) (s : Keyboard) (steps : List (Rmw.Step Nat)) :
    Prop where
  inOrder : ∃ order, order.Perm (List.range n) ∧
    (listenKeyboard keys s steps).attr = pressInOrder keys order s.attr
  quit : ∀ before i between after, steps = before ++ .read i :: between ++ .write i :: after →
    keys i = .ctrlP → (∃ j, keys j = .ctrlQ ∧ .write j ∈ between) →
    (listenKeyboard keys s (before ++ .read i :: between)).attr.endFlag ≠ '0' →
      (listenKeyboard keys s (before ++ .read i :: between ++ [.write i])).attr.endFlag ≠ '0'

/-- Some Ctrl-Q survives. -/
def QuitSurvives (keys : Nat → Key) (steps : List (Rmw.Step Nat)) : Prop :=
  ∃ i ∈ Rmw.survivors steps, keys i = .ctrlQ

/-- A Ctrl-P takes a Ctrl-Q back that was written after it had read. -/
def TakesBackQuit (keys : Nat → Key) (steps : List (Rmw.Step Nat)) : Prop :=
  ∃ before i between after, steps = before ++ .read i :: between ++ .write i :: after ∧
    keys i = .ctrlP ∧ (∃ j, keys j = .ctrlQ ∧ .write j ∈ between) ∧
    QuitSurvives keys (before ++ .read i :: between) ∧ ¬ QuitSurvives keys before

/-- Writes are refused anyway; or an even number of Ctrl-P are lost, and where `end` was `'0'` a
Ctrl-Q survives if there was one, and none was taken back. -/
def LosesNone (keys : Nat → Key) (n : Nat) (a : KxoAttr) (steps : List (Rmw.Step Nat)) : Prop :=
  ¬ IsField a.resume ∨
    ((Rmw.survivors steps).countP (fun i => keys i = .ctrlP) % 2 =
        (List.range n).countP (fun i => keys i = .ctrlP) % 2 ∧
      (a.endFlag = '1' ∨
        ((∃ i < n, keys i = .ctrlQ) → QuitSurvives keys steps) ∧ ¬ TakesBackQuit keys steps))

variable {n : Nat} {s : Keyboard} {steps : List (Rmw.Step Nat)}

/-- Choices between two different values agree if and only if their conditions do. -/
theorem ite_eq_ite_iff {p q : Prop} [Decidable p] [Decidable q] {x y : Char} (hne : x ≠ y) :
    (if p then x else y) = (if q then x else y) ↔ (p ↔ q) := by
  by_cases hp : p <;> by_cases hq : q <;> simp [hp, hq, hne, hne.symm]

/-- The games end if they were to end already, or by a Ctrl-Q of the list. -/
theorem endFlag_outcome (h : a.Flags) :
    (outcome keys l a).endFlag ≠ '0' ↔ a.endFlag = '1' ∨ ∃ i ∈ l, keys i = .ctrlQ := by
  have hne : ('1' : Char) ≠ '0' := by decide
  by_cases hquit : ∃ i ∈ l, keys i = .ctrlQ
  · simp only [outcome, if_pos hquit]
    exact ⟨fun _ => .inr hquit, fun _ => hne⟩
  · simp only [outcome, if_neg hquit]
    obtain he | he := h.endFlag <;> simp [he, hquit]

/-- **When two lists of presses end alike.** -/
theorem outcome_eq_iff (h : a.Flags) {l' : List Nat} :
    outcome keys l a = outcome keys l' a ↔
      l.countP (fun i => keys i = .ctrlP) % 2 = l'.countP (fun i => keys i = .ctrlP) % 2 ∧
        (a.endFlag = '1' ∨ ((∃ i ∈ l, keys i = .ctrlQ) ↔ ∃ i ∈ l', keys i = .ctrlQ)) := by
  have hpar : ∀ m k : Nat, (m % 2 = 1 ↔ k % 2 = 1) ↔ m % 2 = k % 2 := by
    intro m k
    omega
  simp only [outcome, KxoAttr.mk.injEq, true_and]
  rw [ite_eq_ite_iff (toggle_ne h.display), hpar]
  apply and_congr_right'
  obtain he | he := h.endFlag
  · rw [he, ite_eq_ite_iff (by decide)]
    simp
  · simp [he]

/-- The record after any part of the schedule, where writes are understood. -/
theorem attr_listenKeyboard (h : s.attr.Flags) (hr : IsField s.attr.resume)
    (hfirst : ReadFirst steps) :
    (listenKeyboard keys s steps).attr = outcome keys (Rmw.survivors steps) s.attr :=
  (listenKeyboard_attr h hfirst).trans (foldr_pressKey h hr _)

/-- The final record is that of the presses in some order. -/
theorem inOrder_iff (h : s.attr.Flags) (hr : IsField s.attr.resume)
    (hsteps : Interleaving n steps) :
    (∃ order, order.Perm (List.range n) ∧
        (listenKeyboard keys s steps).attr = pressInOrder keys order s.attr) ↔
      (Rmw.survivors steps).countP (fun i => keys i = .ctrlP) % 2 =
          (List.range n).countP (fun i => keys i = .ctrlP) % 2 ∧
        (s.attr.endFlag = '1' ∨ ((∃ i < n, keys i = .ctrlQ) → QuitSurvives keys steps)) := by
  have hall : (∃ order, order.Perm (List.range n) ∧
      (listenKeyboard keys s steps).attr = pressInOrder keys order s.attr) ↔
      outcome keys (Rmw.survivors steps) s.attr = outcome keys (List.range n) s.attr := by
    rw [attr_listenKeyboard h hr hsteps.readFirst]
    constructor
    · rintro ⟨order, hperm, heq⟩
      rw [heq, pressInOrder_eq h hr, outcome_perm hperm]
    · intro heq
      exact ⟨List.range n, .refl _, heq.trans (pressInOrder_eq h hr _).symm⟩
  rw [hall, outcome_eq_iff h]
  apply and_congr_right'
  apply or_congr_right
  -- only presses that were made survive
  have hmade : QuitSurvives keys steps → ∃ i ∈ List.range n, keys i = .ctrlQ := by
    rintro ⟨i, hi, hkey⟩
    exact ⟨i, List.mem_range.mpr (hsteps.lt_of_write (Rmw.write_mem_of_survivors hi)), hkey⟩
  constructor
  · rintro hiff ⟨i, hi, hkey⟩
    exact hiff.mpr ⟨i, List.mem_range.mpr hi, hkey⟩
  · intro himp
    refine ⟨hmade, ?_⟩
    rintro ⟨i, hi, hkey⟩
    exact himp ⟨i, List.mem_range.mp hi, hkey⟩

/-- `end` before and after the write of a Ctrl-P. -/
theorem quit_iff (h : s.attr.Flags) (hr : IsField s.attr.resume) (hsteps : Interleaving n steps)
    {before between after : List (Rmw.Step Nat)} {i : Nat}
    (heq : steps = before ++ .read i :: between ++ .write i :: after) (hkey : keys i = .ctrlP) :
    ((listenKeyboard keys s (before ++ .read i :: between)).attr.endFlag ≠ '0' →
        (listenKeyboard keys s (before ++ .read i :: between ++ [.write i])).attr.endFlag ≠ '0') ↔
      (s.attr.endFlag = '1' ∨
        (QuitSurvives keys (before ++ .read i :: between) → QuitSurvives keys before)) := by
  have hfirst := hsteps.readFirst_upto heq
  have hsurvivors : Rmw.survivors (before ++ .read i :: between ++ [.write i]) =
      i :: Rmw.survivors before := Rmw.survivors_write (hsteps.not_read_between heq)
  rw [attr_listenKeyboard h hr hfirst, attr_listenKeyboard h hr hfirst.prefix,
    hsurvivors, endFlag_outcome h, endFlag_outcome h]
  have hcons : (∃ j ∈ i :: Rmw.survivors before, keys j = .ctrlQ) ↔ QuitSurvives keys before := by
    simp [QuitSurvives, hkey]
  rw [hcons]
  show (s.attr.endFlag = '1' ∨ QuitSurvives keys (before ++ .read i :: between) → _) ↔ _
  tauto

/-- No Ctrl-P takes `end` back if and only if `end` was set from the start, or no schedule cut at
its write shows a Ctrl-Q taken back. -/
theorem quit_forall_iff (h : s.attr.Flags) (hr : IsField s.attr.resume)
    (hsteps : Interleaving n steps) :
    (∀ before i between after, steps = before ++ .read i :: between ++ .write i :: after →
      keys i = .ctrlP → (∃ j, keys j = .ctrlQ ∧ .write j ∈ between) →
      (listenKeyboard keys s (before ++ .read i :: between)).attr.endFlag ≠ '0' →
        (listenKeyboard keys s (before ++ .read i :: between ++ [.write i])).attr.endFlag ≠ '0') ↔
      (s.attr.endFlag = '1' ∨ ¬ TakesBackQuit keys steps) := by
  constructor
  · intro hall
    refine or_iff_not_imp_left.mpr fun hend => ?_
    rintro ⟨before, i, between, after, heq, hkey, hquit, hsurvives, hgone⟩
    have hkept := (quit_iff h hr hsteps heq hkey).mp (hall before i between after heq hkey hquit)
    exact hgone (hkept.resolve_left hend hsurvives)
  · intro hor before i between after heq hkey hquit
    apply (quit_iff h hr hsteps heq hkey).mpr
    refine hor.imp_right fun hnot hsurvives => ?_
    by_contra hgone
    exact hnot ⟨before, i, between, after, heq, hkey, hquit, hsurvives, hgone⟩

/-- Where no write is understood the record stays. -/
theorem attr_listenKeyboard_of_not (h : s.attr.Flags) (hr : ¬ IsField s.attr.resume)
    (hfirst : ReadFirst steps) : (listenKeyboard keys s steps).attr = s.attr :=
  (listenKeyboard_attr h hfirst).trans (foldr_pressKey_of_not h hr _)

/-- **When key presses are not lost.** For any keys, any start and every schedule of `n` calls:
the record ends as after the same presses in some order, and no Ctrl-P takes back a Ctrl-Q written
while it was in progress, exactly when `LosesNone` holds of the schedule and the start. -/
theorem pressesKept_iff (keys : Nat → Key) (h : s.attr.Flags) (hsteps : Interleaving n steps) :
    PressesKept keys n s steps ↔ LosesNone keys n s.attr steps := by
  by_cases hr : IsField s.attr.resume
  · have hboth : PressesKept keys n s steps ↔ _ ∧ _ :=
      ⟨fun hkept => ⟨hkept.inOrder, hkept.quit⟩, fun hkept => ⟨hkept.1, hkept.2⟩⟩
    rw [hboth, inOrder_iff h hr hsteps, quit_forall_iff h hr hsteps, and_assoc, ← or_and_left]
    exact ⟨.inr, fun hloses => hloses.resolve_left (not_not_intro hr)⟩
  · refine ⟨fun _ => .inl hr, fun _ => ⟨⟨List.range n, .refl _, ?_⟩, ?_⟩⟩
    · rw [attr_listenKeyboard_of_not h hr hsteps.readFirst, pressInOrder_of_not h hr]
    · rintro before i between after heq - -
      have hfirst := hsteps.readFirst_upto heq
      rw [attr_listenKeyboard_of_not h hr hfirst, attr_listenKeyboard_of_not h hr hfirst.prefix]
      exact id

/-- A Ctrl-P and a Ctrl-Q. -/
def twoKeys : Nat → Key
  | 0 => .ctrlP
  | _ => .ctrlQ

/-- A schedule of two calls, each with its read and then its write. -/
theorem interleaving_two {steps : List (Rmw.Step Nat)} (hlt : ∀ st ∈ steps, st.id < 2)
    (hzero : steps.filter (fun st => st.id = 0) = [.read 0, .write 0])
    (hone : steps.filter (fun st => st.id = 1) = [.read 1, .write 1]) : Interleaving 2 steps := by
  intro i
  match i with
  | 0 => exact hzero
  | 1 => exact hone
  | i + 2 =>
    rw [if_neg (by omega), List.filter_eq_nil_iff]
    intro st hst
    have hst' := hlt st hst
    simp
    omega

/-- Once `end` is `'1'`, a Ctrl-P around a Ctrl-Q loses nothing. -/
theorem pressesKept_ended :
    PressesKept twoKeys 2 ⟨⟨'1', '1', '1'⟩, fun _ => []⟩
      [.read 0, .read 1, .write 1, .write 0] := by
  apply (pressesKept_iff twoKeys ⟨.inr rfl, .inr rfl⟩ _).mpr
  · exact .inr ⟨by decide, .inl rfl⟩
  · exact interleaving_two (by decide) (by decide) (by decide)

/-- A Ctrl-P has read before a Ctrl-Q writes, and writes after it: `end` is `'0'` again, where the
presses in either order leave `'1'`. -/
theorem ctrlQ_lost :
    Interleaving 2 [.read 0, .read 1, .write 1, .write 0] ∧
      (listenKeyboard twoKeys ⟨⟨'1', '1', '0'⟩, fun _ => []⟩
        [.read 0, .read 1, .write 1, .write 0]).attr = ⟨'0', '1', '0'⟩ ∧
      (∀ order, order.Perm (List.range 2) →
        pressInOrder twoKeys order ⟨'1', '1', '0'⟩ = ⟨'0', '1', '1'⟩) ∧
      ¬ PressesKept twoKeys 2 ⟨⟨'1', '1', '0'⟩, fun _ => []⟩
        [.read 0, .read 1, .write 1, .write 0] := by
  have hflags : (KxoAttr.mk '1' '1' '0').Flags := ⟨.inr rfl, .inl rfl⟩
  have hfinal : (listenKeyboard twoKeys ⟨⟨'1', '1', '0'⟩, fun _ => []⟩
      [.read 0, .read 1, .write 1, .write 0]).attr = ⟨'0', '1', '0'⟩ := by decide
  have horder : ∀ order, order.Perm (List.range 2) →
      pressInOrder twoKeys order ⟨'1', '1', '0'⟩ = ⟨'0', '1', '1'⟩ := by
    intro order hperm
    rw [pressInOrder_eq hflags (by decide), outcome_perm hperm]
    decide
  refine ⟨interleaving_two (by decide) (by decide) (by decide), hfinal, horder, fun hkept => ?_⟩
  obtain ⟨order, hperm, heq⟩ := hkept.inOrder
  rw [hfinal, horder order hperm] at heq
  simp at heq

end Kxo
