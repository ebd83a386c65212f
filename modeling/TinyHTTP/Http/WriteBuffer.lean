import TinyHTTP.Lib.Run
import TinyHTTP.Http.Conn

/-!
# TinyHTTP — the write buffer

`add_response` prints behind what is there, and finds out from the length that
`vsnprintf` returns whether the text has been cut off; then `m_write_idx` stays, and the
next text overwrites it. A length that is no `int` is returned as -1, for which there is
no test.

* `Holds.addResponse` — the array and `m_write_idx` are the list of `HttpConn.addResponse`.
* `addResponse_allOrNothing` — what any calls leave in the array.
-/

namespace TinyHTTP.Http

open TinyHTTP.Lib

-- ---------------------------------------------------------------------------
-- add_response
-- ---------------------------------------------------------------------------

/-- `m_write_buf` and `m_write_idx` -/
structure WriteBuffer where
  buf : Mem
  writeIdx : Int

/-- What `init()` leaves. -/
def WriteBuffer.init : WriteBuffer := ⟨fun _ => 0, 0⟩

/-- `vsnprintf(m + i, size, …)`, with the text that the format gives: at most `size` bytes are
written, the NUL included. A length that is no `int` is an error. -/
def vsnprintf (m : Mem) (i size : Nat) (text : List UInt8) : Mem × Int :=
  (if size = 0 then m else writeBytes m i (text.take (size - 1) ++ [0]),
    if text.length < 2 ^ 31 then text.length else -1)

def WriteBuffer.addResponse (b : WriteBuffer) (text : List UInt8) :
    Except Fault (WriteBuffer × Bool) :=
  if b.writeIdx ≥ writeBufferSize then .ok (b, false)
  else if b.writeIdx < 0 then .error .outOfBounds
  else
    let (buf, len) :=
      vsnprintf b.buf b.writeIdx.toNat (writeBufferSize - 1 - b.writeIdx.toNat) text
    if len ≥ writeBufferSize - 1 - b.writeIdx then .ok ({ b with buf := buf }, false)
    else .ok ({ buf := buf, writeIdx := b.writeIdx + len }, true)

-- ---------------------------------------------------------------------------
-- Any calls
-- ---------------------------------------------------------------------------

/-- The buffer, with the texts of the calls that have returned true. -/
structure ResponseRun where
  buffer : WriteBuffer
  added : List (List UInt8)

def ResponseRun.step (s : ResponseRun) (text : List UInt8) : Option ResponseRun :=
  match s.buffer.addResponse text with
  | .ok (b, true) => some ⟨b, s.added ++ [text]⟩
  | .ok (b, false) => some ⟨b, s.added⟩
  | .error _ => none

def ResponseStarted (s : ResponseRun) : Prop := s = ⟨.init, []⟩

/-- The texts that have been added stand in the buffer, and a call that adds nothing changes
nothing of them. -/
structure AllOrNothing (s : ResponseRun) : Prop where
  nonneg : 0 ≤ s.buffer.writeIdx
  le : s.buffer.writeIdx ≤ writeBufferSize - 2
  content : slice s.buffer.buf 0 s.buffer.writeIdx.toNat = s.added.flatten
  refused : ∀ text b, s.buffer.addResponse text = .ok (b, false) →
    b.writeIdx = s.buffer.writeIdx ∧
      slice b.buf 0 s.buffer.writeIdx.toNat = slice s.buffer.buf 0 s.buffer.writeIdx.toNat

-- ---------------------------------------------------------------------------
-- One call
-- ---------------------------------------------------------------------------

/-- The first `m_write_idx` bytes are this list. -/
structure Holds (b : WriteBuffer) (written : List UInt8) : Prop where
  writeIdx : b.writeIdx = written.length
  le : written.length ≤ writeBufferSize - 2
  content : slice b.buf 0 written.length = written

theorem holds_init : Holds .init [] := ⟨rfl, Nat.zero_le _, rfl⟩

/-- `vsnprintf` writes nothing in front of its place. -/
theorem slice_vsnprintf (m : Mem) (i size : Nat) (text : List UInt8) :
    slice (vsnprintf m i size text).1 0 i = slice m 0 i := by
  unfold vsnprintf
  dsimp only
  split
  · rfl
  · exact slice_congr (sameBelow_writeBytes m _ (Nat.le_refl i)) (Nat.zero_add i).le

/-- A text that is not cut off stands behind what is there. -/
theorem slice_vsnprintf_fits (m : Mem) (i : Nat) {size : Nat} {text : List UInt8}
    (h : text.length < size) :
    slice (vsnprintf m i size text).1 0 (i + text.length) = slice m 0 i ++ text := by
  have hne : size ≠ 0 := by omega
  have htake : text.take (size - 1) = text := List.take_of_length_le (by omega)
  have hnul : SameBelow (i + text.length) (writeBytes m i text)
      (writeBytes (writeBytes m i text) (i + text.length) [0]) :=
    sameBelow_writeBytes _ _ (Nat.le_refl _)
  simp only [vsnprintf, hne, if_false, htake]
  rw [writeBytes_append, slice_congr hnul (by omega)]
  exact slice_append m i text

/-- A call with a text whose length is an `int`. -/
theorem Holds.call {b : WriteBuffer} {written : List UInt8} (h : Holds b written)
    {text : List UInt8} (hlen : text.length < 2 ^ 31) : ∃ b',
    b.addResponse text =
        .ok (b', decide (text.length < writeBufferSize - 1 - written.length)) ∧
      Holds b' (if text.length < writeBufferSize - 1 - written.length then written ++ text
        else written) := by
  have hle := h.le
  have hidx := h.writeIdx
  have hsize : writeBufferSize = 1024 := rfl
  have hnat : b.writeIdx.toNat = written.length := by omega
  unfold WriteBuffer.addResponse
  rw [if_neg (by omega), if_neg (by omega), hnat]
  simp only [vsnprintf, hlen, if_true]
  by_cases hfit : text.length < writeBufferSize - 1 - written.length
  · rw [if_neg (by omega), if_pos hfit, decide_eq_true hfit]
    refine ⟨_, rfl, ?_, ?_, ?_⟩
    · rw [List.length_append]
      dsimp only
      omega
    · rw [List.length_append]
      omega
    · rw [List.length_append]
      exact (slice_vsnprintf_fits b.buf _ hfit).trans (congrArg (· ++ text) h.content)
  · rw [if_pos (by omega), if_neg hfit, decide_eq_false hfit]
    exact ⟨_, rfl, hidx, hle, (slice_vsnprintf b.buf _ _ text).trans h.content⟩

/-- **The array of `add_response` is the list of the connection object.** -/
theorem Holds.addResponse {b : WriteBuffer} {c : HttpConn} (h : Holds b c.writeBuf)
    {text : List UInt8} (hlen : text.length < 2 ^ 31) : ∃ b',
    b.addResponse text = .ok (b', (c.addResponse text).2) ∧
      Holds b' (c.addResponse text).1.writeBuf := by
  have hle := h.le
  have hsize : writeBufferSize = 1024 := rfl
  obtain ⟨b', hb', hholds⟩ := h.call hlen
  refine ⟨b', ?_⟩
  unfold HttpConn.addResponse
  rw [if_neg (by omega)]
  by_cases hfit : text.length < writeBufferSize - 1 - c.writeBuf.length
  · rw [if_neg (by omega), hb', decide_eq_true hfit]
    rw [if_pos hfit] at hholds
    exact ⟨rfl, hholds⟩
  · rw [if_pos (by omega), hb', decide_eq_false hfit]
    rw [if_neg hfit] at hholds
    exact ⟨rfl, hholds⟩

/-- A call that returns false leaves the place and all in front of it, whatever the text is. -/
theorem addResponse_refused {b b' : WriteBuffer} {text : List UInt8}
    (h : b.addResponse text = .ok (b', false)) : b'.writeIdx = b.writeIdx ∧
      slice b'.buf 0 b.writeIdx.toNat = slice b.buf 0 b.writeIdx.toNat := by
  unfold WriteBuffer.addResponse at h
  split at h
  · cases h
    exact ⟨rfl, rfl⟩
  split at h
  · cases h
  dsimp only at h
  split at h
  · cases h
    exact ⟨rfl, slice_vsnprintf ..⟩
  · cases h

/-- The length of a longer text is no `int`: the place moves back by one, and the call
returns true. -/
theorem Holds.overflow {b : WriteBuffer} {written : List UInt8} (h : Holds b written)
    {text : List UInt8} (hlen : 2 ^ 31 ≤ text.length) : ∃ b',
    b.addResponse text = .ok (b', true) ∧ b'.writeIdx = b.writeIdx - 1 := by
  have hle := h.le
  have hidx := h.writeIdx
  have hsize : writeBufferSize = 1024 := rfl
  unfold WriteBuffer.addResponse
  rw [if_neg (by omega), if_neg (by omega)]
  simp only [vsnprintf, not_lt.mpr hlen, if_false]
  rw [if_neg (by omega)]
  exact ⟨_, rfl, rfl⟩

-- ---------------------------------------------------------------------------
-- Runs
-- ---------------------------------------------------------------------------

theorem allOrNothing_iff {s : ResponseRun} :
    AllOrNothing s ↔ Holds s.buffer s.added.flatten := by
  have hsize : writeBufferSize = 1024 := rfl
  constructor
  · intro h
    have hle := h.le
    have hnonneg := h.nonneg
    have hlength : s.buffer.writeIdx.toNat = s.added.flatten.length := by
      rw [← h.content, length_slice]
    exact ⟨by omega, by omega, hlength ▸ h.content⟩
  · intro h
    have hle := h.le
    have hidx := h.writeIdx
    have hnat : s.buffer.writeIdx.toNat = s.added.flatten.length := by omega
    exact ⟨by omega, by omega, hnat ▸ h.content, fun _ _ => addResponse_refused⟩

/-- **One call.** It keeps all or nothing exactly if the length of its text is an `int`. -/
theorem AllOrNothing.step {s : ResponseRun} (h : AllOrNothing s) (text : List UInt8) :
    ∃ s', s.step text = some s' ∧ (AllOrNothing s' ↔ text.length < 2 ^ 31) := by
  have hholds := allOrNothing_iff.mp h
  unfold ResponseRun.step
  by_cases hlen : text.length < 2 ^ 31
  · obtain ⟨b', hb', hnext⟩ := hholds.call hlen
    rw [hb']
    by_cases hfit : text.length < writeBufferSize - 1 - s.added.flatten.length
    · rw [decide_eq_true hfit]
      rw [if_pos hfit] at hnext
      refine ⟨_, rfl, iff_of_true (allOrNothing_iff.mpr ?_) hlen⟩
      simpa using hnext
    · rw [decide_eq_false hfit]
      rw [if_neg hfit] at hnext
      exact ⟨_, rfl, iff_of_true (allOrNothing_iff.mpr hnext) hlen⟩
  · obtain ⟨b', hb', hidx⟩ := hholds.overflow (not_lt.mp hlen)
    rw [hb']
    refine ⟨_, rfl, iff_of_false (fun hnext => ?_) hlen⟩
    -- what has been added is longer than the buffer
    have hsize : writeBufferSize = 1024 := rfl
    have hlong := (allOrNothing_iff.mp hnext).le
    rw [List.flatten_append, List.length_append, List.flatten_singleton] at hlong
    omega

/-- **All or nothing.** In every run of `add_response` whose texts have lengths that are `int`s,
and a call from there goes on with it exactly if its text has one too. -/
theorem addResponse_allOrNothing {s : ResponseRun}
    (h : Reachable ResponseStarted ResponseRun.step (fun _ text => text.length < 2 ^ 31) s) :
    AllOrNothing s ∧ ∀ text, ∃ s', s.step text = some s' ∧
      (AllOrNothing s' ↔ text.length < 2 ^ 31) := by
  have hall : AllOrNothing s := by
    refine h.invariant ?_ ?_
    · rintro s rfl
      exact allOrNothing_iff.mpr holds_init
    · intro s text s' hs hlen hstep
      obtain ⟨t, ht, hiff⟩ := hs.step text
      obtain rfl : t = s' := Option.some.inj (ht.symm.trans hstep)
      exact hiff.mpr hlen
  exact ⟨hall, hall.step⟩

theorem responseStarted_init : ResponseStarted ⟨.init, []⟩ := rfl

/-- A content of 1100 bytes is refused; the empty line stands right behind the status line. -/
theorem addResponse_allOrNothing_refused : ∃ s : ResponseRun,
    s.added = [statusLine 200 ok200Title, crlf] ∧
      slice s.buffer.buf 0 s.buffer.writeIdx.toNat = statusLine 200 ok200Title ++ crlf ∧
      AllOrNothing s := by
  have hrun : (runSteps (guarded (fun _ text => decide (text.length < 2 ^ 31)) ResponseRun.step)
      ⟨.init, []⟩ [statusLine 200 ok200Title, List.replicate 1100 120, crlf]).map
      (fun s => s.added) = some [statusLine 200 ok200Title, crlf] := by
    decide +kernel
  obtain ⟨s, hs, hadded⟩ := Option.map_eq_some_iff.mp hrun
  have hreach := Reachable.of_guarded (fun _ _ h => of_decide_eq_true h)
    (.init responseStarted_init) hs
  have hall := (addResponse_allOrNothing hreach).1
  refine ⟨s, hadded, ?_, hall⟩
  rw [hall.content, hadded]
  rfl

/-- After a text of `2 ^ 31` bytes, `m_write_idx` is -1. -/
theorem not_allOrNothing : ¬ ∀ s, Reachable ResponseStarted ResponseRun.step (fun _ _ => True) s →
    AllOrNothing s := by
  intro hall
  have hlen : (List.replicate (2 ^ 31) (120 : UInt8)).length = 2 ^ 31 := List.length_replicate
  generalize List.replicate (2 ^ 31) (120 : UInt8) = text at hlen
  have hinit : AllOrNothing ⟨.init, []⟩ := hall _ (.init responseStarted_init)
  obtain ⟨s', hs', hiff⟩ := hinit.step text
  have hlt := hiff.mp (hall s' (.step text (.init responseStarted_init) trivial hs'))
  omega

end TinyHTTP.Http
