import TinyHTTP.Http.Answer

/-!
# TinyHTTP — sending a response

`write` sends the response with `writev` and keeps `m_iv` up to date from the
number of bytes sent so far. It shortens `m_iv[0].iov_len` by that total, not by
the last count, and compares the total with the shortened length: the second
partial write inside the head already goes wrong.

What `m_iv` describes depends on two numbers only, the bytes sent and the sum of
the totals after every `writev` (`SendState`); what is sent is right as long as
that sum does no harm (`HeadOk`).

* `send_exact` — when the bytes sent are those of the response.
-/

namespace TinyHTTP.Http

open TinyHTTP.Lib

/-- What `writev` returns. -/
inductive Writev where
  | sent (n : Nat)
  | eagain
  | error
  deriving DecidableEq, Repr

/-- Where a byte handed to the socket comes from: a place in the write buffer, or one relative to
`m_file_address`. -/
inductive Loc where
  | writeBuf (i : Nat)
  | file (i : Int)
  deriving DecidableEq, Repr

def Iovec.locs (v : Iovec) : List Loc :=
  match v.base with
  | .writeBuf i => (List.range v.len).map fun k => .writeBuf (i + k)
  | .file i => (List.range v.len).map fun k : Nat => .file (i + k)

/-- The bytes that `m_iv` describes. -/
def HttpConn.locs (c : HttpConn) : List Loc := c.iovecs.flatMap Iovec.locs

/-- The most that one `writev` takes. -/
def writevMax : Nat := 0x7ffff000

/-- The conversion of an `int` to `size_t`. -/
def toSizeT (x : Int) : Nat := (x % 2 ^ 64).toNat

def HttpConn.unmap (c : HttpConn) : HttpConn := { c with fileAddress := .null }

/-- What `write` does after a `writev` that has sent `n` bytes. -/
def HttpConn.advance (c : HttpConn) (n : Nat) : HttpConn :=
  let have_send := c.bytesHaveSend + n
  let to_send := c.bytesToSend - n
  let c := { c with bytesHaveSend := have_send, bytesToSend := to_send }
  if have_send ≥ c.iv0.len then
    { c with
      iv0 := ⟨c.iv0.base, 0⟩
      iv1 := ⟨.file (have_send - c.writeBuf.length), toSizeT to_send⟩ }
  else
    { c with iv0 := ⟨.writeBuf have_send.toNat, c.iv0.len - have_send.toNat⟩ }

/-- What a call of `write` leaves behind. -/
structure WriteResult where
  conn : HttpConn
  /-- what has been handed to the socket -/
  sent : List Loc
  /-- the `modfd`, if there is one -/
  armed : Option Interest
  ok : Bool

/-- Whether `writev` can send `n` bytes, and the two `int` counters stand it. -/
def HttpConn.CanSend (c : HttpConn) (n : Nat) : Prop :=
  1 ≤ n ∧ n ≤ c.locs.length ∧ n ≤ writevMax ∧ c.bytesHaveSend + n < 2 ^ 31 ∧
    -2 ^ 31 ≤ c.bytesToSend - n

instance (c : HttpConn) (n : Nat) : Decidable (c.CanSend n) :=
  inferInstanceAs (Decidable (_ ∧ _ ∧ _ ∧ _ ∧ _))

/-- The `while (1)` of `write`, over the results of its `writev` calls; `none` if they are not
those of one call. -/
def writeLoop : List Writev → HttpConn → Option WriteResult
  | [], _ => none
  | .eagain :: rest, c => if rest = [] then some ⟨c, [], some .epollout, true⟩ else none
  | .error :: rest, c => if rest = [] then some ⟨c.unmap, [], none, false⟩ else none
  | .sent n :: rest, c =>
    if c.CanSend n then
      let sent := c.locs.take n
      let c := c.advance n
      if c.bytesToSend ≤ 0 then
        if rest = [] then
          let c := c.unmap
          some ⟨if c.parser.linger then c.init else c, sent, some .epollin, c.parser.linger⟩
        else none
      else (writeLoop rest c).map fun r => { r with sent := sent ++ r.sent }
    else none

def HttpConn.write (c : HttpConn) (outs : List Writev) : Option WriteResult :=
  if c.bytesToSend = 0 then
    if outs = [] then some ⟨c.init, [], some .epollin, true⟩ else none
  else writeLoop outs c

/-- How far a response has got. -/
inductive Progress where
  | waiting
  | completed
  | failed
  deriving DecidableEq, Repr

/-- One call of `write` after another, until one completes the response or fails. -/
def sendRun : List (List Writev) → HttpConn → Option (List Loc × Progress)
  | [], _ => some ([], .waiting)
  | outs :: calls, c =>
    match c.write outs with
    | none => none
    | some r =>
      match r.armed with
      | some .epollout => (sendRun calls r.conn).map fun (sent, p) => (r.sent ++ sent, p)
      | some .epollin => if calls = [] then some (r.sent, .completed) else none
      | none => if calls = [] then some (r.sent, .failed) else none

-- ---------------------------------------------------------------------------
-- What should be sent
-- ---------------------------------------------------------------------------

/-- The `i`-th byte of a response with a head of `H` bytes. -/
def locAt (H i : Nat) : Loc := if i < H then .writeBuf i else .file (i - H)

/-- `n` bytes of the response, from the `i`-th on. -/
def segment (H i n : Nat) : List Loc := (List.range n).map fun k => locAt H (i + k)

/-- The response: `H` bytes of the write buffer, then `S` bytes of the file. -/
def response (H S : Nat) : List Loc :=
  (List.range H).map .writeBuf ++ (List.range S).map fun i => .file i

/-- The response that `process_write` has set up: a head, and a file of `S` bytes. -/
structure Prepared (c : HttpConn) (S : Nat) : Prop where
  head : 1 ≤ c.writeBuf.length
  haveSend : c.bytesHaveSend = 0
  toSend : c.bytesToSend = toInt32 (c.writeBuf.length + S)
  iv0 : c.iv0 = ⟨.writeBuf 0, c.writeBuf.length⟩
  iv1 : (S = 0 ∧ c.ivCount = 1) ∨ (0 < S ∧ c.ivCount = 2 ∧ c.iv1 = ⟨.file 0, S⟩)

/-- The counts of the successful `writev`s. -/
def counts (outs : List Writev) : List Nat :=
  outs.filterMap fun
    | .sent n => some n
    | _ => none

/-- The counts do no harm to a head of `H` bytes, after `c` bytes sent and `σ` as the sum of the
totals so far: unless the head is through, or `m_iv[0].iov_len` has its right value, nothing is
taken from behind it. -/
def HeadOk (H : Nat) : Nat → Nat → List Nat → Prop
  | _, _, [] => True
  | c, σ, n :: ns => (H ≤ c ∨ σ = c ∨ σ + n ≤ H) ∧ HeadOk H (c + n) (σ + (c + n)) ns

/-- The sum of the totals after the counts. -/
def sumOfTotals : Nat → Nat → List Nat → Nat
  | _, σ, [] => σ
  | c, σ, n :: ns => sumOfTotals (c + n) (σ + (c + n)) ns

theorem length_segment (H i n : Nat) : (segment H i n).length = n := by
  simp [segment]

theorem segment_append (H i m n : Nat) :
    segment H i (m + n) = segment H i m ++ segment H (i + m) n := by
  unfold segment
  rw [List.range_add, List.map_append, List.map_map]
  congr 1
  refine List.map_congr_left ?_
  intro k _
  simp only [Function.comp_apply, Nat.add_assoc]

theorem headOk_append (H : Nat) (ms ns : List Nat) (c σ : Nat) :
    HeadOk H c σ (ms ++ ns) ↔
      HeadOk H c σ ms ∧ HeadOk H (c + ms.sum) (sumOfTotals c σ ms) ns := by
  induction ms generalizing c σ with
  | nil => simp [HeadOk, sumOfTotals]
  | cons m ms ih =>
    rw [List.cons_append, HeadOk, HeadOk, ih, sumOfTotals, List.sum_cons, Nat.add_assoc c,
      and_assoc]

theorem segment_file {H i : Nat} (h : H ≤ i) (n : Nat) :
    segment H i n = (List.range n).map fun k => .file ((i : Int) - H + k) := by
  refine List.map_congr_left ?_
  intro k _
  rw [locAt, if_neg (by omega)]
  congr 1
  omega

theorem segment_writeBuf {H i n : Nat} (h : i + n ≤ H) :
    segment H i n = (List.range n).map fun k => .writeBuf (i + k) := by
  refine List.map_congr_left ?_
  intro k hk
  have := List.mem_range.mp hk
  rw [locAt, if_pos (by omega)]

theorem response_eq (H S : Nat) : response H S = segment H 0 (H + S) := by
  rw [segment_append, Nat.zero_add, segment_writeBuf (by omega), segment_file (Nat.le_refl H)]
  simp [response]

/-- What has been sent is a beginning of the response if it is the right segment. -/
theorem prefix_response {H S : Nat} {sent : List Loc} :
    sent <+: response H S ↔ sent = segment H 0 sent.length ∧ sent.length ≤ H + S := by
  rw [response_eq]
  constructor
  · intro h
    have hle := h.length_le
    rw [length_segment] at hle
    refine ⟨?_, hle⟩
    have hsplit := segment_append H 0 sent.length (H + S - sent.length)
    rw [show sent.length + (H + S - sent.length) = H + S by omega] at hsplit
    rw [hsplit, List.prefix_iff_eq_take, List.take_left' (length_segment ..)] at h
    exact h
  · rintro ⟨h, hle⟩
    have hsplit := segment_append H 0 sent.length (H + S - sent.length)
    rw [show sent.length + (H + S - sent.length) = H + S by omega, ← h] at hsplit
    exact ⟨_, hsplit.symm⟩

theorem locAt_inj {H i j : Nat} : locAt H i = locAt H j ↔ i = j := by
  refine ⟨fun h => ?_, fun h => by rw [h]⟩
  unfold locAt at h
  split at h
  · split at h
    · exact Loc.writeBuf.inj h
    · cases h
  · split at h
    · cases h
    · have := Loc.file.inj h
      omega

theorem segment_inj {H i j n : Nat} (hn : 1 ≤ n) : segment H i n = segment H j n ↔ i = j := by
  refine ⟨fun h => ?_, fun h => by rw [h]⟩
  obtain ⟨n, rfl⟩ : ∃ m, n = m + 1 := ⟨n - 1, by omega⟩
  unfold segment at h
  rw [List.range_succ_eq_map, List.map_cons, List.map_cons] at h
  exact locAt_inj.mp (List.cons_eq_cons.mp h).1

theorem take_segment {H i m n : Nat} (h : m ≤ n) : (segment H i n).take m = segment H i m := by
  obtain ⟨k, rfl⟩ : ∃ k, n = m + k := ⟨n - m, by omega⟩
  rw [segment_append, List.take_left' (length_segment ..)]

/-- What `process_write` sets up for an error. -/
theorem prepared_useWriteBuf {c : HttpConn} {status : Nat} {title form : List UInt8} {linger : Bool}
    (hsend : c.bytesHaveSend = 0)
    (hfit : (responseHead status title form.length linger).length + form.length <
      writeBufferSize - 1)
    (htext : c.writeBuf = responseHead status title form.length linger ++ form) :
    Prepared c.useWriteBuf 0 := by
  have hlen : c.writeBuf.length < 2 ^ 31 := by
    have hsize : writeBufferSize = 1024 := rfl
    rw [htext, List.length_append]
    omega
  refine ⟨?_, hsend, ?_, rfl, Or.inl ⟨rfl, rfl⟩⟩
  · show 1 ≤ c.writeBuf.length
    rw [htext, responseHead, List.length_append, List.length_append]
    simp only [crlf, List.length_cons]
    omega
  · have := toInt32_of_lt hlen
    show (c.writeBuf.length : Int) = toInt32 (c.writeBuf.length + (0 : Nat))
    rw [Int.natCast_zero, Int.add_zero, this]

/-- **What `process_write` sets up**: a head, and the file if it found one. -/
theorem prepared_processWrite {c c' : HttpConn} {code : HttpCode} (hbuf : c.writeBuf = [])
    (hsend : c.bytesHaveSend = 0) (h : c.processWrite code = (c', true)) :
    Prepared c' (if code = .fileRequest then c.fileStat.size else 0) := by
  cases code with
  | noRequest | getRequest | noResource | closedConnection => cases h
  | internalError =>
    obtain ⟨text, htext, hwrite⟩ := addError_ok hbuf 500 error500Title error500Form
      (fits_internalError _)
    obtain ⟨rfl, -⟩ := Prod.mk.inj (h.symm.trans hwrite)
    exact prepared_useWriteBuf hsend (fits_internalError _) htext
  | badRequest =>
    obtain ⟨text, htext, hwrite⟩ := addError_ok hbuf 404 error404Title error404Form
      (fits_badRequest _)
    obtain ⟨rfl, -⟩ := Prod.mk.inj (h.symm.trans hwrite)
    exact prepared_useWriteBuf hsend (fits_badRequest _) htext
  | forbiddenRequest =>
    obtain ⟨text, htext, hwrite⟩ := addError_ok hbuf 403 error403Title error403Form
      (fits_forbidden _)
    obtain ⟨rfl, -⟩ := Prod.mk.inj (h.symm.trans hwrite)
    exact prepared_useWriteBuf hsend (fits_forbidden _) htext
  | fileRequest =>
    by_cases hsize : c.fileStat.size = 0
    · have := processWrite_empty hsize
      rw [h] at this
      cases this
    · obtain ⟨head, hhead, hwrite⟩ := processWrite_file hbuf hsize
      obtain ⟨rfl, -⟩ := Prod.mk.inj (h.symm.trans hwrite)
      rw [if_pos rfl]
      refine ⟨?_, hsend, by dsimp only, rfl, Or.inr ⟨Nat.pos_of_ne_zero hsize, rfl, rfl⟩⟩
      show 1 ≤ head.length
      rw [hhead, responseHead, List.length_append, List.length_append]
      simp only [crlf, List.length_cons]
      omega

-- ---------------------------------------------------------------------------
-- The state of a response on its way
-- ---------------------------------------------------------------------------

/-- The object after `c` bytes of a response have been sent, where `σ` is the sum of the totals
after every `writev`, and `b` what `bytes_to_send` started from. -/
structure SendState (H S : Nat) (b : Int) (c σ : Nat) (conn : HttpConn) : Prop where
  head : conn.writeBuf.length = H
  haveSend : conn.bytesHaveSend = c
  toSend : conn.bytesToSend = b - c
  total_le : c ≤ σ
  file : (S = 0 ∧ conn.ivCount = 1) ∨ (0 < S ∧ conn.ivCount = 2)
  iovecs : (σ < H ∧ conn.iv0 = ⟨.writeBuf c, H - σ⟩ ∧ (0 < S → conn.iv1 = ⟨.file 0, S⟩)) ∨
    (H ≤ σ ∧ conn.iv0.len = 0 ∧ conn.iv1 = ⟨.file (c - H), toSizeT (b - c)⟩)

section
variable {H S : Nat} {b : Int} {c σ : Nat} {conn : HttpConn}

theorem Prepared.sendState {c : HttpConn} (h : Prepared c S) :
    SendState c.writeBuf.length S (toInt32 (c.writeBuf.length + S)) 0 0 c where
  head := rfl
  haveSend := h.haveSend
  toSend := by
    rw [h.toSend]
    omega
  total_le := Nat.le_refl 0
  file := by
    rcases h.iv1 with ⟨h₁, h₂⟩ | ⟨h₁, h₂, -⟩
    · exact Or.inl ⟨h₁, h₂⟩
    · exact Or.inr ⟨h₁, h₂⟩
  iovecs := by
    refine Or.inl ⟨h.head, h.iv0, fun hS => ?_⟩
    rcases h.iv1 with ⟨h₁, -⟩ | ⟨-, -, h₃⟩
    · omega
    · exact h₃

/-- **Step lemma.** -/
theorem SendState.advance (h : SendState H S b c σ conn) (n : Nat) :
    SendState H S b (c + n) (σ + (c + n)) (conn.advance n) := by
  have h₁ := h.haveSend
  have h₂ := h.toSend
  have h₃ := h.total_le
  have htotal : conn.bytesHaveSend + n = ((c + n : Nat) : Int) := by omega
  have hleft : conn.bytesToSend - n = b - ((c + n : Nat) : Int) := by omega
  have hhead := h.head
  unfold HttpConn.advance
  simp only [htotal, hleft]
  split
  · rename_i hge
    refine ⟨h.head, rfl, rfl, by omega, h.file, Or.inr ⟨?_, rfl, by rw [hhead]⟩⟩
    rcases h.iovecs with ⟨-, hiv, -⟩ | ⟨hσ, -, -⟩
    · rw [hiv] at hge
      simp only at hge
      omega
    · omega
  · rename_i hlt
    rcases h.iovecs with ⟨hσ, hiv, hfile⟩ | ⟨-, hiv, -⟩
    · rw [hiv] at hlt ⊢
      simp only at hlt
      refine ⟨h.head, rfl, rfl, by omega, h.file, Or.inl ⟨by omega, ?_, hfile⟩⟩
      simp only [Int.toNat_natCast, Nat.sub_sub]
    · omega

/-- What `m_iv` describes while the head counts as unsent. -/
theorem SendState.locs_head (h : SendState H S b c σ conn) (hσ : σ < H) :
    conn.locs = segment H c (H - σ) ++ segment H H S := by
  have htotal := h.total_le
  rcases h.iovecs with ⟨-, hiv, hfile⟩ | ⟨hge, -, -⟩
  · rw [segment_writeBuf (by omega), segment_file (Nat.le_refl H)]
    unfold HttpConn.locs HttpConn.iovecs
    rcases h.file with ⟨rfl, hcount⟩ | ⟨hS, hcount⟩
    · rw [hcount, hiv]
      simp [Iovec.locs]
    · rw [hcount, hiv, hfile hS]
      simp [Iovec.locs]
  · omega

/-- What it describes afterwards. -/
theorem SendState.locs_file (h : SendState H S b c σ conn) (hσ : H ≤ σ) :
    conn.locs = if S = 0 then [] else
      (List.range (toSizeT (b - c))).map fun k : Nat => .file ((c : Int) - H + k) := by
  rcases h.iovecs with ⟨hlt, -, -⟩ | ⟨-, hlen, hfile⟩
  · omega
  · have h₀ : conn.iv0.locs = [] := by
      unfold Iovec.locs
      rw [hlen]
      cases conn.iv0.base with
      | writeBuf i | file i => rfl
    unfold HttpConn.locs HttpConn.iovecs
    rcases h.file with ⟨rfl, hcount⟩ | ⟨hS, hcount⟩
    · rw [hcount]
      simp [h₀]
    · rw [hcount, if_neg (by omega)]
      simp only [List.take_succ_cons, List.take_zero, List.flatMap_cons, List.flatMap_nil, h₀,
        List.nil_append, List.append_nil, hfile]
      rfl

/-- **What one `writev` sends** is the right segment if the count does no harm. -/
theorem SendState.take_locs (h : SendState H S b c σ conn) {n : Nat} (hn : conn.CanSend n) :
    conn.locs.take n = segment H c n ↔ H ≤ c ∨ σ = c ∨ σ + n ≤ H := by
  obtain ⟨hpos, hle, -⟩ := hn
  have htotal := h.total_le
  by_cases hσ : σ < H
  · rw [h.locs_head hσ] at hle ⊢
    rw [List.length_append, length_segment, length_segment] at hle
    by_cases hfit : n ≤ H - σ
    · rw [List.take_append_of_le_length (by rw [length_segment]; exact hfit), take_segment hfit]
      exact iff_of_true rfl (by omega)
    · obtain ⟨m, rfl⟩ : ∃ m, n = (H - σ) + m := ⟨n - (H - σ), by omega⟩
      have htake : (segment H c (H - σ) ++ segment H H S).take (H - σ + m) =
          segment H c (H - σ) ++ segment H H m := by
        rw [List.take_append, length_segment,
          List.take_of_length_le (by rw [length_segment]; omega), Nat.add_sub_cancel_left,
          take_segment (by omega)]
      rw [htake, segment_append, List.append_cancel_left_eq, segment_inj (by omega)]
      omega
  · rw [h.locs_file (by omega)] at hle ⊢
    by_cases hS : S = 0
    · rw [if_pos hS] at hle
      simp only [List.length_nil] at hle
      omega
    · rw [if_neg hS] at hle ⊢
      rw [List.length_map, List.length_range] at hle
      rw [← List.map_take, List.take_range, Nat.min_eq_left hle]
      by_cases hc : H ≤ c
      · rw [segment_file hc]
        exact iff_of_true rfl (Or.inl hc)
      · refine iff_of_false (fun heq => ?_) (by omega)
        -- the first byte sent is not one of the write buffer
        obtain ⟨n, rfl⟩ : ∃ m, n = m + 1 := ⟨n - 1, by omega⟩
        unfold segment at heq
        rw [List.range_succ_eq_map, List.map_cons, List.map_cons] at heq
        have hfirst := (List.cons_eq_cons.mp heq).1
        rw [locAt, if_pos (by omega)] at hfirst
        cases hfirst

/-- What is described is never more than what is left, if the length of the response is an `int`. -/
theorem SendState.locs_le (h : SendState H S b c σ conn) (hb : b = ((H + S : Nat) : Int))
    (hsmall : b < 2 ^ 31) (hc : c ≤ H + S) : c + conn.locs.length ≤ H + S := by
  have htotal := h.total_le
  by_cases hσ : σ < H
  · rw [h.locs_head hσ, List.length_append, length_segment, length_segment]
    omega
  · rw [h.locs_file (by omega)]
    by_cases hS : S = 0
    · rw [if_pos hS]
      exact hc
    · rw [if_neg hS, List.length_map, List.length_range, toSizeT]
      omega

/-- No `writev` goes beyond the response, if its length is an `int`. -/
theorem SendState.canSend_le (h : SendState H S b c σ conn) {n : Nat} (hn : conn.CanSend n)
    (hb : b = ((H + S : Nat) : Int)) (hsmall : b < 2 ^ 31) (hc : c ≤ H + S) : c + n ≤ H + S := by
  obtain ⟨-, hle, -⟩ := hn
  have hlocs := h.locs_le hb hsmall hc
  omega

-- ---------------------------------------------------------------------------
-- Calls of write
-- ---------------------------------------------------------------------------

/-- What `sent` has to do with the counts `ns` of the `writev`s that sent it. -/
structure SentBy (H S : Nat) (b : Int) (c σ : Nat) (ns : List Nat) (sent : List Loc) : Prop where
  length : sent.length = ns.sum
  right : sent = segment H c ns.sum ↔ HeadOk H c σ ns
  small : c < 2 ^ 31 → c + ns.sum < 2 ^ 31
  bound : b = ((H + S : Nat) : Int) → b < 2 ^ 31 → c ≤ H + S → c + ns.sum ≤ H + S

theorem SentBy.nil : SentBy H S b c σ [] [] :=
  ⟨rfl, iff_of_true rfl trivial, fun h => h, fun _ _ h => h⟩

theorem SendState.sentBy (h : SendState H S b c σ conn) {n : Nat} (hn : conn.CanSend n) :
    SentBy H S b c σ [n] (conn.locs.take n) where
  length := by
    obtain ⟨-, hle, -⟩ := hn
    rw [List.length_take]
    simp only [List.sum_cons, List.sum_nil]
    omega
  right := by
    rw [List.sum_singleton, h.take_locs hn, HeadOk, HeadOk, and_true]
  small := by
    intro _
    obtain ⟨-, -, -, hsmall, -⟩ := hn
    rw [h.haveSend] at hsmall
    simp only [List.sum_cons, List.sum_nil]
    omega
  bound := by
    intro hb hsmall hc
    rw [List.sum_singleton]
    exact h.canSend_le hn hb hsmall hc

theorem SentBy.append {ms ns : List Nat} {sent sent' : List Loc}
    (h : SentBy H S b c σ ms sent)
    (h' : SentBy H S b (c + ms.sum) (sumOfTotals c σ ms) ns sent') :
    SentBy H S b c σ (ms ++ ns) (sent ++ sent') where
  length := by
    rw [List.length_append, List.sum_append, h.length, h'.length]
  right := by
    rw [List.sum_append, segment_append, headOk_append, ← h.right, ← h'.right]
    constructor
    · intro heq
      exact List.append_inj heq (by rw [h.length, length_segment])
    · rintro ⟨h₁, h₂⟩
      rw [← h₁, ← h₂]
  small := by
    intro hc
    have h₁ := h'.small (h.small hc)
    rw [List.sum_append]
    omega
  bound := by
    intro hb hsmall hc
    have h₁ := h'.bound hb hsmall (h.bound hb hsmall hc)
    rw [List.sum_append]
    omega

/-- How a call of `write` ends: the response is through, or what is left of it waits. -/
structure CallEnds (H S : Nat) (b : Int) (c σ : Nat) (ns : List Nat) (r : WriteResult) : Prop where
  sent : SentBy H S b c σ ns r.sent
  ends : (r.armed = some .epollin ∧ ns ≠ [] ∧ b ≤ ((c + ns.sum : Nat) : Int)) ∨
    ((ns = [] ∨ ((c + ns.sum : Nat) : Int) < b) ∧ (r.armed = none ∨
      (r.armed = some .epollout ∧
        SendState H S b (c + ns.sum) (sumOfTotals c σ ns) r.conn)))

/-- **One call**; induction on the results of its `writev`s. -/
theorem writeLoop_ends (h : SendState H S b c σ conn) {outs : List Writev} {r : WriteResult}
    (hr : writeLoop outs conn = some r) : CallEnds H S b c σ (counts outs) r := by
  induction outs generalizing c σ conn r with
  | nil => cases hr
  | cons out rest ih =>
    cases out with
    | eagain =>
      simp only [writeLoop] at hr
      split at hr
      · rename_i hrest
        obtain rfl := Option.some.inj hr
        rw [hrest]
        exact ⟨SentBy.nil, Or.inr ⟨Or.inl rfl, Or.inr ⟨rfl, h⟩⟩⟩
      · cases hr
    | error =>
      simp only [writeLoop] at hr
      split at hr
      · rename_i hrest
        obtain rfl := Option.some.inj hr
        rw [hrest]
        exact ⟨SentBy.nil, Or.inr ⟨Or.inl rfl, Or.inl rfl⟩⟩
      · cases hr
    | sent n =>
      have hcounts : counts (.sent n :: rest) = [n] ++ counts rest := rfl
      simp only [writeLoop] at hr
      split at hr
      · rename_i hn
        have hsent := h.sentBy hn
        have hstep := h.advance n
        have hleft := hstep.toSend
        split at hr
        · rename_i hdone
          split at hr
          · rename_i hrest
            obtain rfl := Option.some.inj hr
            rw [hrest]
            refine ⟨hsent, Or.inl ⟨rfl, List.cons_ne_nil _ _, ?_⟩⟩
            show b ≤ ((c + [n].sum : Nat) : Int)
            rw [List.sum_singleton]
            omega
          · cases hr
        · rename_i hmore
          rw [Option.map_eq_some_iff] at hr
          obtain ⟨r', hr', rfl⟩ := hr
          have hrest := ih hstep hr'
          rw [hcounts]
          have hsum : ([n] ++ counts rest).sum = n + (counts rest).sum := by simp
          refine ⟨hsent.append (by rw [List.sum_singleton]; exact hrest.sent), ?_⟩
          rw [hsum, ← Nat.add_assoc]
          rcases hrest.ends with ⟨harmed, -, hle⟩ | ⟨hlt, hends⟩
          · exact Or.inl ⟨harmed, List.cons_ne_nil _ _, hle⟩
          · refine Or.inr ⟨Or.inr ?_, hends⟩
            rcases hlt with hnil | hlt
            · rw [hnil, List.sum_nil]
              omega
            · exact hlt
      · cases hr

theorem counts_append (as bs : List Writev) : counts (as ++ bs) = counts as ++ counts bs :=
  List.filterMap_append

/-- **Any number of calls**; induction on the calls. -/
theorem sendRun_sent (h : SendState H S b c σ conn) {calls : List (List Writev)}
    {sent : List Loc} {p : Progress} (hr : sendRun calls conn = some (sent, p)) :
    SentBy H S b c σ (counts calls.flatten) sent ∧
      (p = .completed ↔ (calls ≠ [] ∧ b = c) ∨
        (counts calls.flatten ≠ [] ∧ b ≤ ((c + (counts calls.flatten).sum : Nat) : Int))) := by
  induction calls generalizing c σ conn sent p with
  | nil =>
    obtain ⟨rfl, rfl⟩ := Prod.mk.inj (Option.some.inj hr)
    exact ⟨SentBy.nil, by simp [counts]⟩
  | cons outs calls ih =>
    rw [List.flatten_cons, counts_append]
    have htoSend := h.toSend
    rw [sendRun] at hr
    cases hw : conn.write outs with
    | none => simp [hw] at hr
    | some r =>
      simp only [hw] at hr
      unfold HttpConn.write at hw
      split at hw
      · -- `bytes_to_send` is `0`: the call sends nothing and reports success
        rename_i hzero
        split at hw
        · rename_i houts
          obtain rfl := Option.some.inj hw
          simp only at hr
          split at hr
          · rename_i hcalls
            obtain ⟨rfl, rfl⟩ := Prod.mk.inj (Option.some.inj hr)
            rw [houts, hcalls]
            exact ⟨SentBy.nil, iff_of_true rfl (Or.inl ⟨List.cons_ne_nil _ _, by omega⟩)⟩
          · cases hr
        · cases hw
      · rename_i hne
        obtain ⟨hsent, hends⟩ := writeLoop_ends h hw
        rcases hends with ⟨harmed, hnil, hle⟩ | ⟨hlt, harmed | ⟨harmed, hstate⟩⟩
        · simp only [harmed] at hr
          split at hr
          · rename_i hcalls
            obtain ⟨rfl, rfl⟩ := Prod.mk.inj (Option.some.inj hr)
            rw [hcalls, List.flatten_nil, show counts [] = [] from rfl, List.append_nil]
            exact ⟨hsent, iff_of_true rfl (Or.inr ⟨hnil, hle⟩)⟩
          · cases hr
        · simp only [harmed] at hr
          split at hr
          · rename_i hcalls
            obtain ⟨rfl, rfl⟩ := Prod.mk.inj (Option.some.inj hr)
            rw [hcalls, List.flatten_nil, show counts [] = [] from rfl, List.append_nil]
            refine ⟨hsent, iff_of_false (by decide) ?_⟩
            rintro (⟨-, hb⟩ | ⟨hnil, hle⟩)
            · omega
            · have := hlt.resolve_left hnil
              omega
          · cases hr
        · simp only [harmed] at hr
          rw [Option.map_eq_some_iff] at hr
          obtain ⟨⟨sent', p'⟩, hr', heq⟩ := hr
          obtain ⟨rfl, rfl⟩ := Prod.mk.inj heq
          obtain ⟨hsent', hdone⟩ := ih hstate hr'
          refine ⟨hsent.append hsent', hdone.trans ?_⟩
          rw [List.sum_append, ← Nat.add_assoc, ne_eq (counts outs ++ _), List.append_eq_nil_iff]
          generalize counts outs = ms at hlt
          generalize counts calls.flatten = ns
          constructor
          · rintro (⟨-, hb⟩ | ⟨hnil, hle⟩)
            · rcases hlt with rfl | hlt
              · simp only [List.sum_nil] at hb
                omega
              · omega
            · exact Or.inr ⟨fun hc => hnil hc.2, hle⟩
          · rintro (⟨-, hb⟩ | ⟨hnil, hle⟩)
            · omega
            · refine Or.inr ⟨?_, hle⟩
              rintro rfl
              rcases hlt with rfl | hlt
              · exact hnil ⟨rfl, rfl⟩
              · simp only [List.sum_nil] at hle
                omega

end

-- ---------------------------------------------------------------------------
-- The response
-- ---------------------------------------------------------------------------

/-- The calls send a response of `H + S` bytes as they should: the counts do no harm to the head,
and the total is an `int`, or they do not get to the point where it matters that it is not. -/
def Undisturbed (H S : Nat) (calls : List (List Writev)) : Prop :=
  HeadOk H 0 0 (counts calls.flatten) ∧
    (H + S < 2 ^ 31 ∨ calls = [] ∨ (toInt32 (H + S) ≠ 0 ∧
      (counts calls.flatten = [] ∨ ((counts calls.flatten).sum : Int) < toInt32 (H + S))))

/-- **The send loop is exact**, that is, it has sent a beginning of the response and reports
completion just when it has sent all of it, if and only if the calls are `Undisturbed`. -/
theorem send_exact {c : HttpConn} {S : Nat} (h : Prepared c S) {calls : List (List Writev)}
    {sent : List Loc} {p : Progress} (hr : sendRun calls c = some (sent, p)) :
    (sent <+: response c.writeBuf.length S ∧
        (p = .completed ↔ sent = response c.writeBuf.length S)) ↔
      Undisturbed c.writeBuf.length S calls := by
  have hhead := h.head
  obtain ⟨hsent, hdone⟩ := sendRun_sent h.sendState hr
  have hlength := hsent.length
  have hsmall := hsent.small (by decide)
  have hbound := hsent.bound
  rw [prefix_response, hlength, hsent.right, hdone]
  -- all of the response has been sent if its length has
  have hall : HeadOk c.writeBuf.length 0 0 (counts calls.flatten) →
      (sent = response c.writeBuf.length S ↔
        (counts calls.flatten).sum = c.writeBuf.length + S) := by
    intro hok
    rw [response_eq]
    constructor
    · intro heq
      rw [← hlength, heq, length_segment]
    · intro hsum
      rw [← hsum]
      exact hsent.right.mpr hok
  have hnil : calls = [] → counts calls.flatten = [] := by
    rintro rfl
    rfl
  have hwrap := toInt32_lt ((c.writeBuf.length : Int) + S)
  have hint : c.writeBuf.length + S < 2 ^ 31 →
      toInt32 ((c.writeBuf.length : Int) + S) = ((c.writeBuf.length + S : Nat) : Int) := by
    intro hlt
    rw [← toInt32_of_lt hlt, Int.natCast_add]
  unfold Undisturbed
  generalize counts calls.flatten = ns at *
  generalize toInt32 ((c.writeBuf.length : Int) + S) = b at *
  by_cases hlt : c.writeBuf.length + S < 2 ^ 31
  · have hb := hint hlt
    have hle := hbound hb hwrap (Nat.zero_le _)
    constructor
    · rintro ⟨⟨hok, -⟩, -⟩
      exact ⟨hok, Or.inl hlt⟩
    · rintro ⟨hok, -⟩
      refine ⟨⟨hok, by omega⟩, ?_⟩
      rw [hall hok]
      constructor
      · rintro (⟨-, h0⟩ | ⟨-, hge⟩)
        · omega
        · omega
      · intro hsum
        refine Or.inr ⟨?_, by omega⟩
        rintro rfl
        rw [List.sum_nil] at hsum
        omega
  · constructor
    · rintro ⟨⟨hok, -⟩, hiff⟩
      rw [hall hok] at hiff
      -- completion would be reported too early
      have hnot : ¬ ((calls ≠ [] ∧ b = (0 : Nat)) ∨
          (ns ≠ [] ∧ b ≤ ((0 + ns.sum : Nat) : Int))) := by
        intro hc
        have := hiff.mp hc
        omega
      refine ⟨hok, Or.inr ?_⟩
      by_cases hcalls : calls = []
      · exact Or.inl hcalls
      · refine Or.inr ⟨fun h0 => hnot (Or.inl ⟨hcalls, h0⟩), ?_⟩
        by_cases hns : ns = []
        · exact Or.inl hns
        · refine Or.inr ?_
          by_contra hge
          exact hnot (Or.inr ⟨hns, by omega⟩)
    · rintro ⟨hok, hcase⟩
      refine ⟨⟨hok, by omega⟩, ?_⟩
      rw [hall hok]
      refine iff_of_false ?_ (by omega)
      rintro (⟨hcalls, h0⟩ | ⟨hns, hge⟩)
      · rcases hcase with h | h | ⟨hb, -⟩
        · omega
        · exact hcalls h
        · omega
      · rcases hcase with h | h | ⟨-, h | h⟩
        · omega
        · exact hns (hnil h)
        · exact hns h
        · omega

-- ---------------------------------------------------------------------------
-- A page of two bytes
-- ---------------------------------------------------------------------------

/-- The object for a file of two bytes, before `process_write`. -/
def pageConn : HttpConn :=
  { HttpConn.constructed with
    fileStat := ⟨2, true, false⟩
    fileAddress := .mapped (bytes "ok") }

def pageResponse : HttpConn := (pageConn.processWrite .fileRequest).1

theorem pageResponse_prepared : Prepared pageResponse 2 := by
  have hok : (pageConn.processWrite .fileRequest).2 = true := by decide +kernel
  have hwrite : pageConn.processWrite .fileRequest = (pageResponse, true) := Prod.ext rfl hok
  exact prepared_processWrite rfl rfl hwrite

/-- Two partial writes, one of them in the head. -/
theorem send_exact_page :
    sendRun [[.sent 30, .eagain], [.sent 27]] pageResponse = some (response 55 2, .completed) ∧
      ((response 55 2 <+: response pageResponse.writeBuf.length 2 ∧
          (Progress.completed = .completed ↔
            response 55 2 = response pageResponse.writeBuf.length 2)) ↔
        Undisturbed pageResponse.writeBuf.length 2 [[.sent 30, .eagain], [.sent 27]]) := by
  have hrun : sendRun [[.sent 30, .eagain], [.sent 27]] pageResponse =
      some (response 55 2, .completed) := by decide +kernel
  exact ⟨hrun, send_exact pageResponse_prepared hrun⟩

/-- Two partial writes in the head, and a third: it sends bytes from in front of the mapping. -/
theorem send_not_exact : ¬ ∀ (c : HttpConn) (S : Nat), Prepared c S →
    ∀ (calls : List (List Writev)) (sent : List Loc) (p : Progress),
      sendRun calls c = some (sent, p) →
        sent <+: response c.writeBuf.length S ∧
          (p = .completed ↔ sent = response c.writeBuf.length S) := by
  intro hall
  have hrun : sendRun [[.sent 20, .sent 20, .sent 1, .eagain]] pageResponse =
      some (segment 55 0 40 ++ [.file (-15)], .waiting) := by decide +kernel
  obtain ⟨hstart, -⟩ := hall pageResponse 2 pageResponse_prepared _ _ _ hrun
  have hno : ¬ segment 55 0 40 ++ [.file (-15)] <+: response pageResponse.writeBuf.length 2 := by
    decide +kernel
  exact hno hstart

end TinyHTTP.Http
