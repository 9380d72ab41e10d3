import Kxo.Spec.Tui

/-!
# Kxo — the order of the TUI's output (`user/tui.c`)

Each writer takes its own way round a full buffer: `outbuf_write` writes large data directly and
makes room first for the rest, `outbuf_printf` tries, flushes and tries again. Both keep the buffer
below the threshold, and with it within its bounds, in every state. The order is kept as long as
buffering is not disabled. From then on `outbuf_write` writes directly, while `outbuf_printf` still
fills the buffer: a write overtakes the text in it.

* **`Outbuf.output`** — the bytes written and behind them the buffered ones. Writing out moves bytes
  from the second part to the first and changes nothing of the whole.
* **`account_stored`**, **`vsnprintf_fits`**, **`vsnprintf_within`** — what storing bytes behind the
  buffered ones does to it, and what an attempt without room does.
* **`outbufWrite_enabled`**, **`outbufPrintf_spec`** — one lemma a call: the output grows by what
  was passed.
* **`outbufKept_step`**, **`outbuf_ordered_iff`** — a step keeps the order if and only if it does
  not write past buffered bytes, and so does a run.
-/

namespace Kxo

namespace Outbuf

/-- The bytes handed to `write` and behind them the buffered ones. -/
def output (b : Outbuf) : List Byte := b.written ++ b.buffered

end Outbuf

/-! ## The parts of a call

Storing, counting and writing out, each with what it does to the output and the number of buffered
bytes. -/

section Parts

variable {b b' : Outbuf} {data text : List Byte} {offset n : Nat}

/-- With the count at 0 nothing is buffered. -/
theorem Outbuf.buffered_eq_nil (h : b.len = 0) : b.buffered = [] := by
  rw [Outbuf.buffered, h]
  rfl

/-- Writing the buffer out keeps the output, -/
theorem output_writeOut (b : Outbuf) : b.writeOut.output = b.output := by
  rw [Outbuf.output, Outbuf.buffered_eq_nil rfl, List.append_nil]
  rfl

/-- also where the buffer may be empty, -/
theorem output_writeOutAny (b : Outbuf) : b.writeOutAny.output = b.output := by
  rw [Outbuf.writeOutAny]
  split
  · exact output_writeOut b
  · rfl

/-- and leaves nothing buffered. -/
theorem len_writeOutAny (b : Outbuf) : b.writeOutAny.len = 0 := by
  rw [Outbuf.writeOutAny]
  split
  · rfl
  · omega

/-- Bytes stored behind the buffered ones, whatever follows them in the buffer, and counted. -/
theorem account_stored (b : Outbuf) (data rest : List Byte) :
    let b' := { b with buf := memcpy b.buf b.len (data ++ rest) }.account data.length
    b'.output = b.output ++ data ∧ b'.len < flushThreshold := by
  have hbuffered : bytesAt (memcpy b.buf b.len (data ++ rest)) 0 (b.len + data.length) =
      b.buffered ++ data := by
    have h := bytesAt_memcpy_append b.buf 0 b.len data rest
    rwa [Nat.zero_add] at h
  have houtput : b.written ++ bytesAt (memcpy b.buf b.len (data ++ rest)) 0 (b.len + data.length) =
      b.output ++ data := by
    rw [hbuffered, Outbuf.output, List.append_assoc]
  intro b'
  by_cases hfull : flushThreshold ≤ b.len + data.length
  · have hb' : b' = Outbuf.writeOut { b with
        buf := memcpy b.buf b.len (data ++ rest)
        len := b.len + data.length } := if_pos hfull
    rw [hb', output_writeOut]
    exact ⟨houtput, show 0 < flushThreshold by decide⟩
  · have hb' : b' = { b with
        buf := memcpy b.buf b.len (data ++ rest)
        len := b.len + data.length } := if_neg hfull
    rw [hb']
    exact ⟨houtput, not_le.mp hfull⟩

/-- Bytes that end inside the buffer are stored. -/
theorem store_eq_some (hfits : offset + data.length ≤ outbufSize) :
    b.store offset data = some { b with buf := memcpy b.buf offset data } := if_pos hfits

/-- `vsnprintf` behind the buffered bytes, with room for the whole text. -/
theorem vsnprintf_fits (h : text.length < n) (hfits : b.len + n ≤ outbufSize) :
    b.vsnprintf b.len n text =
      some ({ b with buf := memcpy b.buf b.len (text ++ [0]) }, text.length) := by
  have htake : text.take (n - 1) = text := List.take_of_length_le (by omega)
  have hstore : b.store b.len (text ++ [0]) =
      some { b with buf := memcpy b.buf b.len (text ++ [0]) } := store_eq_some (by simp; omega)
  rw [Outbuf.vsnprintf, if_neg (by omega), htake, hstore]
  rfl

/-- `vsnprintf` without room: what it stores lies behind the buffered bytes. -/
theorem vsnprintf_within (text : List Byte) (hfits : b.len + n ≤ outbufSize) :
    ∃ b', b.vsnprintf b.len n text = some (b', text.length) ∧ b'.output = b.output ∧
      b'.len = b.len := by
  by_cases hzero : n = 0
  · exact ⟨b, by rw [Outbuf.vsnprintf, if_pos hzero], rfl, rfl⟩
  · have hstore : b.store b.len (text.take (n - 1) ++ [0]) =
        some { b with buf := memcpy b.buf b.len (text.take (n - 1) ++ [0]) } :=
      store_eq_some (by simp; omega)
    have hbuffered : bytesAt (memcpy b.buf b.len (text.take (n - 1) ++ [0])) 0 b.len =
        bytesAt b.buf 0 b.len := bytesAt_congr fun k _ hk => memcpy_outside (.inl (by omega))
    refine ⟨{ b with buf := memcpy b.buf b.len (text.take (n - 1) ++ [0]) }, ?_, ?_, rfl⟩
    · rw [Outbuf.vsnprintf, if_neg hzero, hstore]
      rfl
    · exact congrArg (b.written ++ ·) hbuffered

end Parts

/-! ## One call

The branches of each function, under the bound on what is buffered that every call leaves. -/

section OneCall

variable {b : Outbuf} {data text : List Byte}

/-- With buffering disabled `outbuf_write` writes, whatever is still buffered. -/
theorem outbufWrite_disabled (hdisabled : b.disabled = true) :
    outbufWrite data b = some (b.safeWrite data) := if_pos hdisabled

/-- Else it adds its data to the output, in any of its branches, and leaves the buffer below the
threshold. -/
theorem outbufWrite_enabled (data : List Byte) (hdisabled : b.disabled = false) :
    ∃ b', outbufWrite data b = some b' ∧ b'.output = b.output ++ data ∧
      b'.len < flushThreshold := by
  rw [outbufWrite, if_neg (by simp [hdisabled])]
  split
  case isTrue =>
    -- the data are written directly, behind the buffer
    have hempty : b.writeOutAny.buffered = [] := Outbuf.buffered_eq_nil (len_writeOutAny b)
    have houtput := output_writeOutAny b
    rw [Outbuf.output, hempty, List.append_nil] at houtput
    refine ⟨_, rfl, ?_, (len_writeOutAny b).trans_lt (by decide)⟩
    show (b.writeOutAny.written ++ data) ++ b.writeOutAny.buffered = _
    rw [hempty, List.append_nil, houtput]
  case isFalse hsmall =>
    -- room is made first where the data do not fit behind the buffered bytes
    obtain ⟨b₁, hb₁, houtput, hfits⟩ :
        ∃ b₁, (if outbufSize < b.len + data.length then b.writeOut else b) = b₁ ∧
          b₁.output = b.output ∧ b₁.len + data.length ≤ outbufSize := by
      refine ⟨_, rfl, ?_⟩
      split
      · exact ⟨output_writeOut b, show 0 + data.length ≤ outbufSize by omega⟩
      · exact ⟨rfl, by omega⟩
    have hstored := account_stored b₁ data []
    rw [List.append_nil, houtput] at hstored
    refine ⟨_, ?_, hstored⟩
    rw [hb₁]
    dsimp only
    rw [store_eq_some hfits]
    rfl

/-- A text that does not fit behind the buffered bytes: the first attempt leaves these alone, and
the second finds the buffer empty. -/
theorem outbufPrintf_again (hlen : b.len < flushThreshold)
    (hfirst : outbufSize - b.len ≤ text.length) :
    ∃ b₂ : Outbuf, b₂.len = 0 ∧ b₂.output = b.output ∧
      outbufPrintf text b = (b₂.vsnprintf b₂.len outbufSize text).bind fun r =>
        if outbufSize ≤ r.2 then some { r.1 with disabled := true }
        else some (r.1.account r.2) := by
  have hsize : b.len + (outbufSize - b.len) ≤ outbufSize := by
    unfold flushThreshold outbufSize at *
    omega
  obtain ⟨b₁, hb₁, houtput, -⟩ := vsnprintf_within text hsize
  have hempty := len_writeOutAny b₁
  refine ⟨b₁.writeOutAny, hempty, (output_writeOutAny b₁).trans houtput, ?_⟩
  unfold outbufPrintf
  dsimp only
  rw [hb₁, hempty]
  exact if_pos hfirst

/-- A text of `OUTBUF_SIZE` bytes or more disables buffering, with the buffer written out. -/
theorem outbufPrintf_long (hlen : b.len < flushThreshold) (hlong : outbufSize ≤ text.length) :
    ∃ b', outbufPrintf text b = some b' ∧ b'.output = b.output ∧ b'.len = 0 ∧
      b'.disabled = true := by
  have hfirst : outbufSize - b.len ≤ text.length := by omega
  obtain ⟨b₂, hempty, houtput, hagain⟩ := outbufPrintf_again hlen hfirst
  obtain ⟨b₃, hb₃, houtput₃, hlen₃⟩ :=
    vsnprintf_within text (show b₂.len + outbufSize ≤ outbufSize by omega)
  refine ⟨{ b₃ with disabled := true }, ?_, houtput₃.trans houtput, hlen₃.trans hempty, rfl⟩
  rw [hagain, hb₃]
  exact if_pos hlong

/-- `outbuf_printf` does not look at `disabled`. -/
theorem outbufPrintf_spec (text : List Byte) (hlen : b.len < flushThreshold) :
    ∃ b', outbufPrintf text b = some b' ∧
      b'.output = b.output ++ (OutbufCall.outbufPrintf text).data ∧ b'.len < flushThreshold := by
  have hdata : (OutbufCall.outbufPrintf text).data =
      if outbufSize ≤ text.length then [] else text := rfl
  have hsize : b.len + (outbufSize - b.len) ≤ outbufSize := by
    unfold flushThreshold outbufSize at *
    omega
  by_cases hlong : outbufSize ≤ text.length
  · obtain ⟨b', hb', houtput, hempty, -⟩ := outbufPrintf_long hlen hlong
    refine ⟨b', hb', ?_, hempty.trans_lt (by decide)⟩
    rw [hdata, if_pos hlong, List.append_nil, houtput]
  · rw [hdata, if_neg hlong]
    by_cases hfirst : text.length < outbufSize - b.len
    · have hstored := account_stored b text [0]
      refine ⟨_, ?_, hstored⟩
      unfold outbufPrintf
      dsimp only
      rw [vsnprintf_fits hfirst hsize]
      exact if_neg (not_le.mpr hfirst)
    · obtain ⟨b₂, hempty, houtput, hagain⟩ := outbufPrintf_again hlen (not_lt.mp hfirst)
      have hstored := account_stored b₂ text [0]
      rw [houtput] at hstored
      refine ⟨_, ?_, hstored⟩
      rw [hagain, vsnprintf_fits (not_le.mp hlong) (by omega)]
      exact if_neg hlong

/-- **No call goes past the buffer's end, and each leaves the buffer below the threshold.** -/
theorem outbufCall_defined (call : OutbufCall) (hlen : b.len < flushThreshold) :
    ∃ b', outbufCall b call = some b' ∧ b'.len < flushThreshold := by
  cases call with
  | outbufWrite data =>
    cases hdisabled : b.disabled with
    | false =>
      obtain ⟨b', hb', -, hlen'⟩ := outbufWrite_enabled data hdisabled
      exact ⟨b', hb', hlen'⟩
    | true => exact ⟨_, outbufWrite_disabled hdisabled, hlen⟩
  | outbufPrintf text =>
    obtain ⟨b', hb', -, hlen'⟩ := outbufPrintf_spec text hlen
    exact ⟨b', hb', hlen'⟩
  | outbufFlush => exact ⟨_, rfl, (len_writeOutAny b).trans_lt (by decide)⟩

end OneCall

/-! ## Any sequence of calls

The system has a ghost: all bytes passed so far, with the texts of `OUTBUF_SIZE` bytes or more left
out, which the code drops. -/

/-- What has been handed to `write`, and behind it the buffer, is what has been passed, in order;
the buffer is below the threshold, and no call would go past its end. -/
structure OutbufKept (s : Outbuf × List Byte) : Prop where
  ordered : s.1.output = s.2
  bounded : s.1.len < flushThreshold
  defined : ∀ call, ∃ b', outbufCall s.1 call = some b'

/-- A direct write changes nothing by overtaking the buffered bytes. -/
def WritesInTurn (s : Outbuf × List Byte) (call : OutbufCall) : Prop :=
  ∀ data, call = .outbufWrite data → s.1.disabled = true →
    data ++ s.1.buffered = s.1.buffered ++ data

/-- The buffer is below the threshold in every reachable state, disabled or not. -/
theorem bounded_invariant : outbufSystem.Invariant fun s => s.1.len < flushThreshold where
  init s hs := by
    rw [hs]
    decide
  step s call s' hlen hstep := by
    obtain ⟨b', hb', hlen'⟩ := outbufCall_defined call hlen
    rwa [← Option.some.inj (hb'.symm.trans hstep.1)]

/-- **One call keeps the order** unless it writes directly past bytes in the buffer. -/
theorem outbufKept_step {s s' : Outbuf × List Byte} {call : OutbufCall}
    (hs : OutbufKept s) (hstep : outbufSystem.step s call s') :
    OutbufKept s' ↔ WritesInTurn s call := by
  obtain ⟨hcall, hpassed⟩ := hstep
  have hlen' : s'.1.len < flushThreshold :=
    bounded_invariant.step s call s' hs.bounded ⟨hcall, hpassed⟩
  -- bounds hold anyway, so it is a matter of the order
  have hkept : OutbufKept s' ↔ s'.1.output = s.1.output ++ call.data := by
    rw [hs.ordered, ← hpassed]
    exact ⟨OutbufKept.ordered, fun h => ⟨h, hlen', fun next =>
      (outbufCall_defined next hlen').imp fun _ => And.left⟩⟩
  rw [hkept]
  cases call with
  | outbufWrite data =>
    cases hdisabled : s.1.disabled with
    | false =>
      obtain ⟨b', hb', houtput, -⟩ := outbufWrite_enabled data hdisabled
      obtain rfl := Option.some.inj (hb'.symm.trans hcall)
      exact iff_of_true houtput fun _ _ htrue => absurd (hdisabled.symm.trans htrue) (by decide)
    | true =>
      have houtput : s'.1.output = s.1.written ++ (data ++ s.1.buffered) := by
        rw [← Option.some.inj ((outbufWrite_disabled hdisabled).symm.trans hcall)]
        exact List.append_assoc _ _ _
      rw [houtput, Outbuf.output, List.append_assoc, List.append_cancel_left_eq]
      exact ⟨fun h _ hsame _ => (OutbufCall.outbufWrite.inj hsame) ▸ h,
        fun h => h data rfl hdisabled⟩
  | outbufPrintf text =>
    obtain ⟨b', hb', houtput, -⟩ := outbufPrintf_spec text hs.bounded
    obtain rfl := Option.some.inj (hb'.symm.trans hcall)
    exact iff_of_true houtput fun _ hsame => nomatch hsame
  | outbufFlush =>
    have houtput : s'.1.output = s.1.output ++ OutbufCall.outbufFlush.data := by
      rw [← Option.some.inj hcall]
      exact (output_writeOutAny s.1).trans (List.append_nil _).symm
    exact iff_of_true houtput fun _ hsame => nomatch hsame

/-- **When the output keeps its order**: in a run, the property holds in every state exactly when no
`outbuf_write` finds buffering disabled and bytes in the buffer that its data may not overtake. -/
theorem outbuf_ordered_iff {s : Outbuf × List Byte} {tr : List (OutbufCall × Outbuf × List Byte)}
    (hinit : outbufSystem.init s) (hrun : outbufSystem.Run s tr) :
    (∀ p ∈ tr, OutbufKept p.2) ↔ (outbufSystem.restrict WritesInTurn).Run s tr := by
  have hlen := bounded_invariant.init s hinit
  refine hrun.forall_iff_restrict bounded_invariant
    (fun _ _ _ _ hs hstep => outbufKept_step hs hstep) hlen ⟨?_, hlen, fun call =>
      (outbufCall_defined call hlen).imp fun _ => And.left⟩
  rw [show s = (outbufInit, []) from hinit]
  rfl

/-- A text of 4096 bytes disables buffering, with nothing written or buffered. -/
theorem outbuf_disabling : ∃ text buf,
    outbufSystem.step (outbufInit, []) (.outbufPrintf text) (⟨buf, 0, true, []⟩, []) := by
  obtain ⟨text, htext⟩ : ∃ text : List Byte, text.length = outbufSize :=
    ⟨List.replicate outbufSize 65, List.length_replicate⟩
  have hdropped : (OutbufCall.outbufPrintf text).data = [] := if_pos htext.ge
  obtain ⟨⟨buf, len, disabled, written⟩, hprintf, houtput, hempty, hdisabled⟩ :=
    outbufPrintf_long (b := outbufInit) (by decide) htext.ge
  obtain rfl : len = 0 := hempty
  obtain rfl : disabled = true := hdisabled
  obtain rfl : written = [] := (List.append_nil written).symm.trans houtput
  exact ⟨text, buf, hprintf, by rw [hdropped]; rfl⟩

/-- Buffering disabled, a write, a `printf` and a flush. -/
theorem outbuf_ordered_iff_disabled : ∃ s tr, outbufSystem.init s ∧ outbufSystem.Run s tr ∧
    tr.length = 4 ∧ (∀ p ∈ tr, p.2.1.disabled = true) ∧
    ((∀ p ∈ tr, OutbufKept p.2) ↔ (outbufSystem.restrict WritesInTurn).Run s tr) := by
  obtain ⟨text, buf, hstep⟩ := outbuf_disabling
  have hrun : outbufSystem.Run (outbufInit, [])
      [(.outbufPrintf text, ⟨buf, 0, true, []⟩, []),
        (.outbufWrite [65], ⟨buf, 0, true, [65]⟩, [65]),
        (.outbufPrintf [66], ⟨memcpy buf 0 [66, 0], 1, true, [65]⟩, [65, 66]),
        (.outbufFlush, ⟨memcpy buf 0 [66, 0], 0, true, [65, 66]⟩, [65, 66])] :=
    .cons hstep (.cons ⟨rfl, rfl⟩ (.cons ⟨rfl, rfl⟩ (.cons ⟨rfl, rfl⟩ (.nil _))))
  exact ⟨_, _, rfl, hrun, rfl, by simp, outbuf_ordered_iff rfl hrun⟩

/-- A text of 4096 bytes disables buffering; of the two calls behind it, a `printf` and a write, the
second comes out first. -/
theorem outbuf_write_overtakes :
    ∃ s, outbufSystem.Reachable s ∧ ¬ OutbufKept s ∧
      s.2 = [66, 67] ∧ s.1.written = [67] ∧ s.1.buffered = [66] := by
  obtain ⟨text, buf, hstep⟩ := outbuf_disabling
  have hbuffered : outbufSystem.Reachable (⟨memcpy buf 0 [66, 0], 1, true, []⟩, [66]) :=
    .step (.step (.init rfl) hstep) (e := .outbufPrintf [66]) ⟨rfl, rfl⟩
  have hend : outbufSystem.Reachable (⟨memcpy buf 0 [66, 0], 1, true, [67]⟩, [66, 67]) :=
    .step hbuffered (e := .outbufWrite [67]) ⟨rfl, rfl⟩
  refine ⟨_, hend, fun h => ?_, rfl, rfl, rfl⟩
  exact absurd (show ([67, 66] : List Byte) = [66, 67] from h.ordered) (by decide)

end Kxo
