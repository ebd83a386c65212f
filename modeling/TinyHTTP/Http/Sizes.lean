import TinyHTTP.Http.Send

/-!
# TinyHTTP — the size of a file in `int`s

`st_size` has 64 bits. It becomes an `int` for `Content-length`, and again, with the
length of the head, for `bytes_to_send`; `write` counts in two `int`s.

* `Sending` — the objects that a response on its way goes through.
* `sizesExact_iff` — the sizes for which none of the numbers is wrong.
-/

namespace TinyHTTP.Http

open TinyHTTP.Lib

/-- What a `writev` of `m_iv` may return. -/
def HttpConn.Writable (c : HttpConn) (n : Nat) : Prop := 1 ≤ n ∧ n ≤ c.locs.length ∧ n ≤ writevMax

/-- `write` calls `writev`: at the start of the response unless there is nothing to send, and then
as long as something is left. -/
def HttpConn.Writes (c₀ c : HttpConn) : Prop :=
  (c = c₀ ∧ c.bytesToSend ≠ 0) ∨ 0 < c.bytesToSend

/-- The objects of a response that starts from `c₀`, after any counts. -/
inductive Sending (c₀ : HttpConn) : HttpConn → Prop
  | start : Sending c₀ c₀
  | sent {c : HttpConn} {n : Nat} (h : Sending c₀ c) (hwrites : c₀.Writes c)
      (hn : c.Writable n) : Sending c₀ (c.advance n)

/-- The numbers of a response with a file of `S` bytes: the header, the bytes to send, and the two
counters after every `writev`. -/
structure SizesExact (S : Nat) (linger : Bool) (c₀ : HttpConn) : Prop where
  contentLength : c₀.writeBuf = responseHead 200 ok200Title S linger
  toSend : c₀.bytesToSend = c₀.writeBuf.length + S
  /-- no count takes a counter out of the range of an `int` -/
  range : ∀ c n, Sending c₀ c → c₀.Writes c → c.Writable n → c.CanSend n
  total : ∀ c, Sending c₀ c →
    c.bytesHaveSend + c.bytesToSend = c₀.writeBuf.length + S ∧ 0 ≤ c.bytesToSend

-- ---------------------------------------------------------------------------
-- The head
-- ---------------------------------------------------------------------------

/-- The length of the head in front of a file whose size has ten digits. -/
def headLength (linger : Bool) : Nat := if linger then 69 else 64

theorem length_responseHead (S : Nat) (linger : Bool) :
    (responseHead 200 ok200Title S linger).length + 10 = headLength linger + (digits S).length := by
  have h₁ : (statusLine 200 ok200Title).length = 17 := by decide
  have h₂ : (bytes "Content-Length:").length = 15 := by decide
  have h₃ : (lingerLine linger).length + 46 = headLength linger := by
    cases linger <;> decide
  have h₄ : formatInt S = digits S := by
    rw [formatInt, if_neg (by omega)]
    rfl
  simp only [responseHead, contentLengthLine, List.length_append, h₁, h₂, h₄, crlf,
    List.length_cons, List.length_nil]
  omega

/-- The head is counted with ten digits: shorter sizes are far from the limit. -/
theorem head_fits {S : Nat} (hS : S < 2 ^ 31) (linger : Bool) :
    (responseHead 200 ok200Title S linger).length + S < 2 ^ 31 ↔
      S + headLength linger < 2 ^ 31 := by
  have hlen := length_responseHead S linger
  have hmax : (digits S).length ≤ 10 := (length_digits_iff (by decide)).mpr (by omega)
  have hroom : headLength linger ≤ 69 := by cases linger <;> decide
  by_cases hshort : S < 10 ^ 9
  · constructor <;> omega
  · have hten : ¬ (digits S).length ≤ 9 := fun h => hshort ((length_digits_iff (by decide)).mp h)
    have heq : (digits S).length = 10 := by omega
    constructor <;> omega

-- ---------------------------------------------------------------------------
-- The counters
-- ---------------------------------------------------------------------------

section
variable {c₀ c : HttpConn} {S : Nat}

/-- **The counters**: with a total that is an `int`, what has been sent and what is left stay in
their range, and no `writev` can send more than is left. -/
theorem Prepared.counters (h : Prepared c₀ S) (hfit : c₀.writeBuf.length + S < 2 ^ 31)
    (hc : Sending c₀ c) : ∃ k σ, k ≤ c₀.writeBuf.length + S ∧
      SendState c₀.writeBuf.length S ((c₀.writeBuf.length + S : Nat) : Int) k σ c := by
  have htotal : toInt32 (c₀.writeBuf.length + S) = ((c₀.writeBuf.length + S : Nat) : Int) := by
    have := toInt32_of_lt hfit
    rw [← this]
    congr 1
  induction hc with
  | start =>
    refine ⟨0, 0, Nat.zero_le _, ?_⟩
    have hstate := h.sendState
    rw [htotal] at hstate
    exact hstate
  | sent hc hwrites hn ih =>
    rename_i c n
    obtain ⟨k, σ, hk, hstate⟩ := ih
    have hlocs := hstate.locs_le rfl (by omega) hk
    obtain ⟨-, hle, -⟩ := hn
    exact ⟨k + n, σ + (k + n), by omega, hstate.advance n⟩

theorem Prepared.canSend (h : Prepared c₀ S) (hfit : c₀.writeBuf.length + S < 2 ^ 31)
    (hc : Sending c₀ c) {n : Nat} (hn : c.Writable n) : c.CanSend n := by
  obtain ⟨k, σ, hk, hstate⟩ := h.counters hfit hc
  have hlocs := hstate.locs_le rfl (by omega) hk
  have hhave := hstate.haveSend
  have hleft := hstate.toSend
  obtain ⟨hpos, hle, hmax⟩ := hn
  exact ⟨hpos, hle, hmax, by omega, by omega⟩

end

-- ---------------------------------------------------------------------------
-- The result
-- ---------------------------------------------------------------------------

theorem SizesExact.fits {S : Nat} {linger : Bool} {c₀ : HttpConn} (h : SizesExact S linger c₀)
    (hto : c₀.bytesToSend = toInt32 (c₀.writeBuf.length + S)) : S + headLength linger < 2 ^ 31 := by
  have hlt := toInt32_lt (c₀.writeBuf.length + S)
  rw [← hto, h.toSend] at hlt
  have hsmall : S < 2 ^ 31 := by omega
  refine (head_fits hsmall _).mp ?_
  rw [← h.contentLength]
  omega

/-- What `process_write` sets up for a file that has been asked for. -/
theorem Receiving.prepared {w w' : World} {c c' : HttpConn} (hc : Receiving c)
    (hread : c.processRead w = .ok (w', c', .fileRequest)) (hsize : 1 ≤ c'.fileStat.size) :
    Prepared (c'.processWrite .fileRequest).1 c'.fileStat.size ∧
      (c'.processWrite .fileRequest).1.writeBuf =
        responseHead 200 ok200Title (toInt32 c'.fileStat.size) c'.parser.linger := by
  have hsame := processRead_sameOutput hread
  have hbuf : c'.writeBuf = [] := hsame.writeBuf.trans hc.unsent.1
  have hsend : c'.bytesHaveSend = 0 := hsame.bytesHaveSend.trans hc.unsent.2
  obtain ⟨head, hhead, hwrite⟩ := processWrite_file hbuf (Nat.ne_of_gt hsize)
  have hprepared := prepared_processWrite hbuf hsend hwrite
  rw [if_pos rfl] at hprepared
  rw [hwrite]
  exact ⟨hprepared, hhead⟩

/-- **Sizes.** The numbers of a response with a file are right, and stay right in every state of
`write`, exactly if the size, with the 69 or 64 bytes of the head, is an `int`. -/
theorem sizesExact_iff {w w' : World} {c c' : HttpConn} (hc : Receiving c)
    (hread : c.processRead w = .ok (w', c', .fileRequest)) (hsize : 1 ≤ c'.fileStat.size) :
    SizesExact c'.fileStat.size c'.parser.linger (c'.processWrite .fileRequest).1 ↔
      c'.fileStat.size + headLength c'.parser.linger < 2 ^ 31 := by
  obtain ⟨hprepared, hhead⟩ := hc.prepared hread hsize
  generalize (c'.processWrite .fileRequest).1 = c₀ at hprepared hhead
  refine ⟨fun h => h.fits hprepared.toSend, fun h => ?_⟩
  have hsmall : c'.fileStat.size < 2 ^ 31 := by omega
  rw [toInt32_of_lt hsmall] at hhead
  have hfit : c₀.writeBuf.length + c'.fileStat.size < 2 ^ 31 := by
    rw [hhead]
    exact (head_fits hsmall _).mpr h
  refine ⟨hhead, ?_, fun c n hsent _ hn => hprepared.canSend hfit hsent hn, fun c hsent => ?_⟩
  · rw [hprepared.toSend]
    exact toInt32_of_lt hfit
  · obtain ⟨k, σ, hk, hstate⟩ := hprepared.counters hfit hsent
    have hhave := hstate.haveSend
    have hleft := hstate.toSend
    omega

/-- A world whose only file is a `/log.html` of `n` bytes. -/
def pageOfSize (n : Nat) (hn : 0 < n) : World where
  file := fun path =>
    if path = docRoot ++ bytes "/log.html" then
      some ⟨⟨n, true, false⟩, some (List.replicate n 97), by
        intro content h
        obtain rfl := Option.some.inj h
        exact ⟨List.length_replicate, hn⟩⟩
    else none
  users := fun _ => none
  mysqlQuery := fun _ => true

/-- The request for it, and the size that `stat` finds. -/
def sizeFound (n : Nat) (hn : 0 < n) : Option Nat :=
  match (HttpConn.received (bytes "GET /1 HTTP/1.1\r\n\r\n")).processRead (pageOfSize n hn) with
  | .ok (_, c, .fileRequest) => some c.fileStat.size
  | _ => none

theorem served_of_sizeFound {n m : Nat} {hn : 0 < n} (h : sizeFound n hn = some m) :
    ∃ w c, (HttpConn.received (bytes "GET /1 HTTP/1.1\r\n\r\n")).processRead (pageOfSize n hn) =
      .ok (w, c, .fileRequest) ∧ c.fileStat.size = m := by
  unfold sizeFound at h
  split at h
  · rename_i w c hread
    exact ⟨w, c, hread, Option.some.inj h⟩
  · cases h

theorem sizesExact_iff_page : ∃ w c,
    (HttpConn.received (bytes "GET /1 HTTP/1.1\r\n\r\n")).processRead
      (pageOfSize 1000 (by decide)) = .ok (w, c, .fileRequest) ∧
    SizesExact 1000 c.parser.linger (c.processWrite .fileRequest).1 := by
  have hfound : sizeFound 1000 (by decide) = some 1000 := by decide +kernel
  obtain ⟨w, c, hread, hsize⟩ := served_of_sizeFound hfound
  have hiff := sizesExact_iff (receiving_received _) hread (by omega)
  have hroom : headLength c.parser.linger ≤ 69 := by cases c.parser.linger <;> decide
  rw [hsize] at hiff
  exact ⟨w, c, hread, hiff.mpr (by omega)⟩

/-- 2 GiB are announced as a negative number. -/
theorem size_wraps : ¬ ∀ (w w' : World) (c c' : HttpConn), Receiving c →
    c.processRead w = .ok (w', c', .fileRequest) → 1 ≤ c'.fileStat.size →
    SizesExact c'.fileStat.size c'.parser.linger (c'.processWrite .fileRequest).1 := by
  intro hall
  have hfound : sizeFound (2 ^ 31) (by decide) = some (2 ^ 31) := by decide +kernel
  obtain ⟨w, c, hread, hsize⟩ := served_of_sizeFound hfound
  have hpos : 1 ≤ c.fileStat.size := by omega
  have hexact := hall _ w _ c (receiving_received _) hread hpos
  have hfits := hexact.fits ((receiving_received _).prepared hread hpos).1.toSend
  omega

end TinyHTTP.Http
