import TinyHTTP.Version02.RequestFields

/-!
# TinyHTTP — version_02: the bytes behind a block

`recv_http` parses its buffer, whose bytes behind the block that `recv` has written are
those of an earlier call of some function. `get_url_method` gets the number of bytes, but
the loop over the blanks and `strcasestr` do not look at it. The number is unsigned, so
the −1 of a failed `recv` is a very large one.

* `recvHttp_failed` — a failed `recv` never closes the socket.
* `recvHttp_own` — a block that decides the parse by itself.
* `staleFree_iff` — when the result is the same for all contents of the buffer.
-/

namespace TinyHTTP.Version02

open TinyHTTP.Lib
open TinyHTTP.Http (asString)

/-- What `recv` puts into a buffer of 10240 bytes. -/
structure Block where
  bytes : List UInt8
  nonempty : bytes ≠ []
  fits : bytes.length ≤ recvSize

/-- What `recv` does. -/
inductive Received where
  /-- −1 -/
  | failed
  /-- 0 -/
  | closed
  | data (block : Block)

/-- The result of `recv` as a `size_t`. -/
def Received.size : Received → Nat
  | .failed => 2 ^ 64 - 1
  | .closed => 0
  | .data block => block.bytes.length

/-- The buffer behind `recv`. -/
def Received.fill (stale : Mem) : Received → Mem
  | .failed | .closed => stale
  | .data block => writeBytes stale 0 block.bytes

/-- What becomes of the connection. -/
inductive Outcome where
  | close
  /-- `epoll_mod` for `EPOLLOUT`, with what has been recorded -/
  | rearm (r : HttpRequest)
  deriving DecidableEq, Repr

/-- `recv_http`, with `stale` in its buffer. -/
def recvHttp (stale : Mem) (received : Received) : Except Fault Outcome :=
  let n := received.size
  -- `n` is unsigned: the first branch is never taken
  if n < 0 then .ok .close
  else if n = 0 then .ok .close
  else (getUrlMethod (received.fill stale) n).map .rearm

/-- The result is the same for all contents of the buffer, and a failed `recv` closes. -/
structure StaleFree (received : Received) : Prop where
  same : ∃ outcome, ∀ stale, recvHttp stale received = .ok outcome
  failed : received = .failed → ∀ stale, recvHttp stale received = .ok .close

/-- The block decides the parse by itself. -/
structure OwnBytes (block : List UInt8) : Prop where
  method : (firstWord block).length < 32
  /-- there is a second word -/
  begins : fromSecond block ≠ []
  url : (secondWord block).length < 128
  /-- the second word ends before the buffer does -/
  ends : block.length - (fromSecond block).length + (secondWord block).length < recvSize
  /-- the search ends in the block -/
  search : 0 ∈ block ∨ findsWord (bytes "keep-alive") block = true

instance (block : List UInt8) : Decidable (OwnBytes block) :=
  decidable_of_iff ((firstWord block).length < 32 ∧ fromSecond block ≠ [] ∧
      (secondWord block).length < 128 ∧
      block.length - (fromSecond block).length + (secondWord block).length < recvSize ∧
      (0 ∈ block ∨ findsWord (bytes "keep-alive") block = true))
    ⟨fun ⟨hmethod, hbegins, hurl, hends, hsearch⟩ => ⟨hmethod, hbegins, hurl, hends, hsearch⟩,
      fun h => ⟨h.method, h.begins, h.url, h.ends, h.search⟩⟩

/-- The request in a block that decides the parse by itself. -/
def requestOf (block : Block) : HttpRequest where
  alive := findsWord (bytes "keep-alive") (asString block.bytes)
  method := asString (firstWord block.bytes)
  url := asString (secondWord block.bytes)

/-- What `recv` has returned decides by itself what becomes of the connection. -/
def Received.Own : Received → Prop
  | .failed => False
  | .closed => True
  | .data block => OwnBytes block.bytes

instance (received : Received) : Decidable received.Own :=
  match received with
  | .failed => inferInstanceAs (Decidable False)
  | .closed => inferInstanceAs (Decidable True)
  | .data block => inferInstanceAs (Decidable (OwnBytes block.bytes))

-- ---------------------------------------------------------------------------
-- The parse
-- ---------------------------------------------------------------------------

theorem recvHttp_failed (stale : Mem) : recvHttp stale .failed ≠ .ok .close := by
  have hsize : Received.failed.size = 2 ^ 64 - 1 := rfl
  unfold recvHttp
  rw [hsize, if_neg (by decide), if_neg (by decide)]
  intro h
  obtain ⟨r, -, hr⟩ := map_ok.mp h
  cases hr

theorem recvHttp_data (stale : Mem) (block : Block) :
    recvHttp stale (.data block) =
      (getUrlMethod (writeBytes stale 0 block.bytes) block.bytes.length).map .rearm := by
  have hpos : block.bytes.length ≠ 0 := fun h => block.nonempty (List.length_eq_zero_iff.mp h)
  unfold recvHttp Received.size Received.fill
  rw [if_neg (Nat.not_lt_zero _), if_neg hpos]

/-- Where the loop over the blanks ends: at the second word. -/
theorem skips_second {header : Mem} {block : List UInt8} (h : HoldsBlock header block) {i : Nat}
    (hskip : Skips header (firstWord block).length i) :
    if fromSecond block = [] then block.length ≤ i
    else i + (fromSecond block).length = block.length := by
  have hle : (firstWord block).length ≤ block.length := (List.takeWhile_prefix _).length_le
  have hi := hskip.dropWhile h.drop
  rw [List.length_drop, Nat.add_sub_cancel' hle, firstWord, drop_takeWhile] at hi
  exact hi

/-- A block that has a second word ends the loop over the blanks. -/
theorem skips_of_begins {header : Mem} {block : List UInt8} (h : HoldsBlock header block)
    (hbegins : fromSecond block ≠ []) : ∃ i, Skips header (firstWord block).length i := by
  have hword : (block.drop (firstWord block).length).dropWhile (fun b => b == 32) ≠ [] := by
    rw [firstWord, drop_takeWhile]
    exact hbegins
  obtain ⟨b, hb, hblank⟩ : ∃ b ∈ block.drop (firstWord block).length, ¬ (b == 32) = true := by
    simpa only [ne_eq, List.dropWhile_eq_nil_iff, not_forall, exists_prop] using hword
  obtain ⟨k, hk, rfl⟩ := List.getElem_of_mem hb
  refine exists_skips (Nat.le_add_right _ k) ?_
  rw [h.drop k hk]
  exact fun heq => hblank (beq_iff_eq.mpr heq)

/-- The search, whatever is in the buffer behind the block. -/
theorem strcasestr_block {header : Mem} {block : List UInt8} (h : HoldsBlock header block)
    (hfits : block.length ≤ recvSize)
    (hsearch : 0 ∈ block ∨ findsWord (bytes "keep-alive") block = true) :
    strcasestr header (bytes "keep-alive") recvSize 0 =
      .ok (findsWord (bytes "keep-alive") (asString block)) := by
  have hne : bytes "keep-alive" ≠ [] := by decide
  have hzero : ∀ c ∈ bytes "keep-alive", lower c ≠ 0 := by decide +kernel
  have hbytes : ∀ k (hk : k < block.length), header (0 + k) = block[k] := by
    intro k hk
    rw [Nat.zero_add]
    exact h k hk
  by_cases hnul : 0 ∈ block
  · obtain ⟨hstring, hlen⟩ := hasString_of_mem hbytes hnul
    exact strcasestr_string hstring hne hzero (Nat.lt_of_lt_of_le hlen hfits)
  · have hfinds := hsearch.resolve_left hnul
    have hnonzero : ∀ b ∈ block, b ≠ 0 := by
      rintro b hb rfl
      exact hnul hb
    have hall : asString block = block :=
      List.takeWhile_eq_self_iff.mpr fun b hb => decide_eq_true (hnonzero b hb)
    rw [hall, hfinds]
    exact strcasestr_found hne hbytes hnonzero hfits hfinds

/-- A block that decides the parse by itself. -/
theorem recvHttp_own {block : Block} (h : OwnBytes block.bytes) (stale : Mem) :
    recvHttp stale (.data block) = .ok (.rearm (requestOf block)) := by
  have hholds := holdsBlock_writeBytes stale block.bytes
  obtain ⟨i, hskip⟩ := skips_of_begins hholds h.begins
  have hi := skips_second hholds hskip
  rw [if_neg h.begins] at hi
  have hmethod := methodCopied_short hholds h.method
  have hurl := urlCopied_short hholds hskip h.url
  have hends := h.ends
  rw [recvHttp_data]
  refine map_ok.mpr ⟨_, getUrlMethod_ok_iff.mpr ⟨?_, i, ?_, ?_, ?_, ?_, ?_, ?_⟩, rfl⟩
  · rw [hmethod]
    exact h.method
  · rw [hmethod]
    exact hskip
  · rw [hurl]
    exact h.url
  · rw [hurl]
    omega
  · exact strcasestr_block hholds block.fits h.search
  · rw [hmethod]
    rfl
  · rw [hurl]
    rfl

/-- A block that is parsed with blanks behind it in all of the buffer. -/
theorem ownBytes_of_blanks {block : Block} {outcome : Outcome}
    (h : recvHttp (fun _ => 32) (.data block) = .ok outcome) : OwnBytes block.bytes := by
  have hholds := holdsBlock_writeBytes (fun _ => 32) block.bytes
  have hblank : ∀ k, block.bytes.length ≤ k →
      writeBytes (fun _ => 32) 0 block.bytes k = 32 := by
    intro k hk
    exact writeBytes_of_ge (by omega)
  rw [recvHttp_data] at h
  obtain ⟨r, hget, -⟩ := map_ok.mp h
  obtain ⟨hmethod, i, hskip, hurl, hends, halive, -, -⟩ := getUrlMethod_ok_iff.mp hget
  have hfirst : (firstWord block.bytes).length < 32 := by
    rw [methodCopied_eq hholds, List.length_take] at hmethod
    omega
  rw [methodCopied_short hholds hfirst] at hskip
  have hsecond : (secondWord block.bytes).length < 128 := by
    rw [urlCopied_eq hholds hskip, List.length_take] at hurl
    omega
  rw [urlCopied_short hholds hskip hsecond] at hends
  have hi := skips_second hholds hskip
  have hbegins : fromSecond block.bytes ≠ [] := by
    intro hnil
    rw [if_pos hnil] at hi
    exact hskip.stop (hblank i hi)
  rw [if_neg hbegins] at hi
  refine ⟨hfirst, hbegins, hsecond, by omega, ?_⟩
  -- the blanks behind the block are no part of the word
  refine strcasestr_ends (fun k hk => ?_) (fun k hk => hblank k ?_) (by decide) (by decide)
    (by decide +kernel) halive
  · rw [Nat.zero_add]
    exact hholds k hk
  · omega

-- ---------------------------------------------------------------------------
-- What depends on the bytes received
-- ---------------------------------------------------------------------------

/-- **When the parse depends only on the bytes received** -/
theorem staleFree_iff (received : Received) : StaleFree received ↔
    match received with
    | .failed => False
    | .closed => True
    | .data block => OwnBytes block.bytes := by
  cases received with
  | failed => exact iff_of_false (fun h => recvHttp_failed (fun _ => 0) (h.failed rfl _)) id
  | closed => exact iff_of_true ⟨⟨.close, fun _ => rfl⟩, nofun⟩ trivial
  | data block =>
    constructor
    · rintro ⟨⟨outcome, hsame⟩, -⟩
      exact ownBytes_of_blanks (hsame _)
    · exact fun h => ⟨⟨_, recvHttp_own h⟩, nofun⟩

/-- A failed `recv` does not close the socket. -/
theorem staleFree_failed : ¬ ∀ received, StaleFree received :=
  fun hall => recvHttp_failed (fun _ => 0) ((hall .failed).failed rfl _)

/-- A request of one line without `keep-alive`: the search goes on behind it. -/
example : ¬ OwnBytes (bytes "GET / HTTP/1.0\r\n\r\n") :=
  fun h => absurd h.search (by decide +kernel)

end TinyHTTP.Version02
