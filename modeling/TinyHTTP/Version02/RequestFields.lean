import TinyHTTP.Lib.CString
import TinyHTTP.Version02.HandleRequest

/-!
# TinyHTTP — version_02: the fields of a request

`get_url_method` copies up to 32 bytes into `method[32]` and up to 128 into `url[128]`,
and puts a NUL behind what it has copied. `send_http` joins the document root, the URL
and `index.html` in `path[128]`.

* `copied_skip` — a copy behind blanks.
* `getUrlMethod_ok_iff` — the fields are what the two loops have copied.
* `requestFits_iff` — when the words of a block, and the path, fit their arrays.
-/

namespace TinyHTTP.Version02

open TinyHTTP.Lib
open TinyHTTP.Http (asString slash)

-- ---------------------------------------------------------------------------
-- The loops of get_url_method
-- ---------------------------------------------------------------------------

/-- What the first loop writes to `method`, from index 0 on; the NUL goes behind it. -/
def methodCopied (header : Mem) (size : Nat) : List UInt8 := copied header (· == 32) size 32 0

/-- What the last loop writes to `url`, from index `i` of the block on. -/
def urlCopied (header : Mem) (size i : Nat) : List UInt8 := copied header (· == 32) size 128 i

/-- `while (header[i] == ' ') i++` goes from `i` to `j`. -/
structure Skips (header : Mem) (i j : Nat) : Prop where
  le : i ≤ j
  blank : ∀ k, i ≤ k → k < j → header k = 32
  stop : header j ≠ 32

/-- The block is at the front of the buffer. -/
def HoldsBlock (header : Mem) (block : List UInt8) : Prop :=
  ∀ k (hk : k < block.length), header k = block[k]

/-- The bytes before the first blank. -/
def firstWord (block : List UInt8) : List UInt8 := block.takeWhile fun b => !(b == 32)

/-- The block from its second word on. -/
def fromSecond (block : List UInt8) : List UInt8 :=
  (block.dropWhile fun b => !(b == 32)).dropWhile fun b => b == 32

/-- The bytes between the blanks behind the first word and the next one. -/
def secondWord (block : List UInt8) : List UInt8 := (fromSecond block).takeWhile fun b => !(b == 32)

/-- Where the loop ends: behind the blanks, or behind all of the bytes. -/
theorem Skips.dropWhile {m : Mem} {i j : Nat} {bs : List UInt8} (hskip : Skips m i j)
    (hbs : ∀ k (hk : k < bs.length), m (i + k) = bs[k]) :
    if bs.dropWhile (fun b => b == 32) = [] then i + bs.length ≤ j
    else j + (bs.dropWhile fun b => b == 32).length = i + bs.length := by
  induction bs generalizing i with
  | nil => exact hskip.le
  | cons b bs ih =>
    obtain ⟨hb, hrest⟩ := bytes_cons hbs
    by_cases hblank : b = 32
    · have hne : i ≠ j := by
        rintro rfl
        exact hskip.stop (hb.trans hblank)
      have hskip' : Skips m (i + 1) j :=
        ⟨Nat.lt_of_le_of_ne hskip.le hne, fun k hk => hskip.blank k (Nat.le_of_succ_le hk),
          hskip.stop⟩
      have htail := ih hskip' hrest
      rw [List.dropWhile_cons_of_pos (by simp [hblank]), List.length_cons]
      rwa [Nat.add_assoc, Nat.add_comm 1] at htail
    · -- the loop stops at once
      obtain rfl : i = j := by
        refine Nat.le_antisymm hskip.le (Nat.le_of_not_lt fun hlt => hblank ?_)
        rw [← hb]
        exact hskip.blank i (Nat.le_refl i) hlt
      rw [List.dropWhile_cons_of_neg (by simp [hblank]), if_neg (List.cons_ne_nil b bs)]

/-- A copy behind blanks takes from where they end. Behind the limit it takes nothing. -/
theorem copied_skip {m : Mem} {limit i j : Nat} (room : Nat) {bs : List UInt8}
    (hskip : Skips m i j) (hbs : ∀ k (hk : k < bs.length), m (i + k) = bs[k])
    (hlimit : i + bs.length = limit) : copied m (· == 32) limit room j =
      ((bs.dropWhile fun b => b == 32).takeWhile fun b => !(b == 32)).take room := by
  have hj := hskip.dropWhile hbs
  split at hj
  · rename_i hnil
    rw [copied_of_le (by omega), hnil, List.takeWhile_nil, List.take_nil]
  · have hdrop := drop_takeWhile (fun b => b == 32) bs
    have hlen := length_dropWhile (fun b => b == 32) bs
    refine copied_bytes (fun k hk => ?_) (by omega) (.inl (by omega))
    have hindex : j + k = i + ((bs.takeWhile fun b => b == 32).length + k) := by omega
    rw [hindex, hbs _ (by omega)]
    simp only [← hdrop, List.getElem_drop]

theorem HoldsBlock.drop {header : Mem} {block : List UInt8} (h : HoldsBlock header block) {i : Nat}
    (k : Nat) (hk : k < (block.drop i).length) : header (i + k) = (block.drop i)[k] := by
  rw [List.length_drop] at hk
  rw [h (i + k) (by omega), List.getElem_drop]

theorem methodCopied_eq {header : Mem} {block : List UInt8} (h : HoldsBlock header block) :
    methodCopied header block.length = (firstWord block).take 32 := by
  refine copied_bytes (fun k hk => ?_) (Nat.le_of_eq (Nat.zero_add _)) (.inl (Nat.zero_add _).symm)
  rw [Nat.zero_add]
  exact h k hk

/-- What goes to `url`, if the method has left room for its NUL. -/
theorem urlCopied_eq {header : Mem} {block : List UInt8} (h : HoldsBlock header block) {j : Nat}
    (hskip : Skips header (firstWord block).length j) :
    urlCopied header block.length j = (secondWord block).take 128 := by
  have hle : (firstWord block).length ≤ block.length := (List.takeWhile_prefix _).length_le
  have hcopied := copied_skip 128 hskip h.drop (by rw [List.length_drop, Nat.add_sub_cancel' hle])
  rw [firstWord, drop_takeWhile] at hcopied
  exact hcopied

theorem skipSpan_ok_iff {m : Mem} {size i j : Nat} :
    skipSpan m size i [32] = .ok j ↔ Skips m i j ∧ j < size := by
  constructor
  · intro h
    obtain ⟨hle, hsize, hstop, hblank⟩ := scanFrom_spec h
    refine ⟨⟨hle, fun k hk hlt => ?_, ?_⟩, hsize⟩
    · simpa using (hblank k hk hlt).2
    · rcases hstop with hnul | hstop
      · rw [hnul]
        decide
      · simpa using hstop
  · rintro ⟨hskip, hsize⟩
    have hle := hskip.le
    obtain ⟨j', hscan, hj'⟩ := scan_isSome (fun b => !List.contains [32] b) (size - i) hle
      (by omega) (.inr (by simpa using hskip.stop))
    obtain ⟨hle', -, hstop, -⟩ := scan_spec hscan
    -- before `j` there are only blanks
    obtain rfl : j' = j := by
      refine Nat.le_antisymm hj' (Nat.le_of_not_lt fun hlt => ?_)
      rw [hskip.blank j' hle' hlt] at hstop
      revert hstop
      decide
    rw [skipSpan, scanFrom, hscan]

/-- A byte that is no blank ends the loop. -/
theorem exists_skips {m : Mem} {i k : Nat} (hik : i ≤ k) (hk : m k ≠ 32) : ∃ j, Skips m i j := by
  obtain ⟨j, hscan, -⟩ := scan_isSome (fun b => !List.contains [32] b) (k + 1 - i) hik (by omega)
    (.inr (by simpa using hk))
  have hskip : skipSpan m (k + 1) i [32] = .ok j := by rw [skipSpan, scanFrom, hscan]
  exact ⟨j, (skipSpan_ok_iff.mp hskip).1⟩

/-- The fields are what the two loops have copied. -/
theorem getUrlMethod_ok_iff {header : Mem} {size : Nat} {r : HttpRequest} :
    getUrlMethod header size = .ok r ↔
      (methodCopied header size).length < 32 ∧
      ∃ i, Skips header (methodCopied header size).length i ∧
        (urlCopied header size i).length < 128 ∧
        i + (urlCopied header size i).length < recvSize ∧
        strcasestr header (bytes "keep-alive") recvSize 0 = .ok r.alive ∧
        r.method = asString (methodCopied header size) ∧
        r.url = asString (urlCopied header size i) := by
  unfold getUrlMethod
  constructor
  · intro h
    obtain ⟨method, hmethod, h⟩ := bind_ok.mp h
    obtain ⟨rfl, -⟩ := copyWhile_ok_iff.mp hmethod
    split at h
    · rename_i hroom
      obtain ⟨i, hskip, h⟩ := bind_ok.mp h
      obtain ⟨url, hurl, h⟩ := bind_ok.mp h
      obtain ⟨rfl, hend⟩ := copyWhile_ok_iff.mp hurl
      split at h
      · rename_i hurlroom
        obtain ⟨alive, halive, h⟩ := bind_ok.mp h
        cases h
        exact ⟨hroom, i, (skipSpan_ok_iff.mp hskip).1, hurlroom, hend, halive, rfl, rfl⟩
      · cases h
    · cases h
  · rintro ⟨hroom, i, hskip, hurlroom, hend, halive, hmethod, hurl⟩
    have hsize : i < recvSize := Nat.lt_of_le_of_lt (Nat.le_add_right ..) hend
    refine bind_ok.mpr ⟨methodCopied header size, copyWhile_ok_iff.mpr ⟨rfl, ?_⟩, ?_⟩
    · unfold recvSize
      omega
    rw [if_pos hroom]
    refine bind_ok.mpr ⟨i, skipSpan_ok_iff.mpr ⟨hskip, hsize⟩, ?_⟩
    refine bind_ok.mpr ⟨urlCopied header size i, copyWhile_ok_iff.mpr ⟨rfl, hend⟩, ?_⟩
    rw [if_pos hurlroom]
    refine bind_ok.mpr ⟨r.alive, halive, ?_⟩
    rw [← hmethod, ← hurl]
    rfl

-- ---------------------------------------------------------------------------
-- The path
-- ---------------------------------------------------------------------------

/-- How long the path of a URL is. -/
def pathLength (conf : ConfHttp) (url : List UInt8) : Nat :=
  conf.doc.length + url.length + if url.getLast? = some slash then 10 else 0

theorem sendHttp_isOk (conf : ConfHttp) (r : HttpRequest) :
    (∃ file, sendHttp conf r = .ok file) ↔
      (r.method.map lower = bytes "get" → r.url ≠ [] → pathLength conf r.url ≤ 127) := by
  have hindex : (bytes "index.html").length = 10 := by decide
  unfold sendHttp pathLength
  by_cases hget : r.method.map lower = bytes "get"
  · by_cases hurl : r.url = []
    · simp [hget, hurl]
    have hlast : (conf.doc ++ r.url).getLast? = r.url.getLast? := by
      rw [List.getLast?_append, List.getLast?_eq_some_getLast hurl, Option.some_or]
    rw [if_neg (not_not.mpr hget), if_neg hurl]
    dsimp only
    rw [hlast]
    by_cases hslash : r.url.getLast? = some slash
    · simp only [if_pos hslash, List.length_append, hindex]
      split <;> simp [hget, hurl] <;> omega
    · simp only [if_neg hslash, List.length_append]
      split <;> simp [hget, hurl] <;> omega
  · simp [hget]

/-- `conf` of `init_default_conf`. -/
def defaultConf : ConfHttp where
  doc := bytes "../doc"
  nonzero := by decide +kernel
  fits := by decide +kernel

/-- A URL of 122 bytes is too long for the default root, though `url` has room for it. -/
example : ¬ pathLength defaultConf (slash :: List.replicate 121 97) ≤ 127 := by decide +kernel

-- ---------------------------------------------------------------------------
-- What fits
-- ---------------------------------------------------------------------------

/-- The words of a block fit their arrays with their NULs, whatever is in the buffer behind the
block, and so does the path. -/
structure FieldsFit (conf : ConfHttp) (block : List UInt8) (header : Mem) : Prop where
  method : (methodCopied header block.length).length < 32
  url : ∀ i, Skips header (methodCopied header block.length).length i →
    (urlCopied header block.length i).length < 128
  path : ∀ i, Skips header (methodCopied header block.length).length i →
    ∀ alive, ∃ file, sendHttp conf {
      alive := alive
      method := asString (methodCopied header block.length)
      url := asString (urlCopied header block.length i) } = .ok file

def RequestFits (conf : ConfHttp) (block : List UInt8) : Prop :=
  ∀ header, HoldsBlock header block → FieldsFit conf block header

/-- The condition on the block. -/
structure ShortWords (conf : ConfHttp) (block : List UInt8) : Prop where
  method : (firstWord block).length < 32
  url : (secondWord block).length < 128
  path : (asString (firstWord block)).map lower = bytes "get" → asString (secondWord block) ≠ [] →
    pathLength conf (asString (secondWord block)) ≤ 127

theorem methodCopied_short {header : Mem} {block : List UInt8} (h : HoldsBlock header block)
    (hword : (firstWord block).length < 32) :
    methodCopied header block.length = firstWord block := by
  rw [methodCopied_eq h, List.take_of_length_le (Nat.le_of_lt hword)]

theorem urlCopied_short {header : Mem} {block : List UInt8} (h : HoldsBlock header block) {i : Nat}
    (hskip : Skips header (firstWord block).length i) (hword : (secondWord block).length < 128) :
    urlCopied header block.length i = secondWord block := by
  rw [urlCopied_eq h hskip, List.take_of_length_le (Nat.le_of_lt hword)]

/-- The buffer that `recv` has written to. -/
theorem holdsBlock_writeBytes (m : Mem) (block : List UInt8) :
    HoldsBlock (writeBytes m 0 block) block := by
  intro k hk
  have hbyte := @writeBytes_of_mem m 0 k block hk
  rwa [Nat.zero_add] at hbyte

/-- **When the fields of a request fit**: the first word has less than 32 bytes, the second less
than 128, and the path of a `GET` request less than 128 too. -/
theorem requestFits_iff (conf : ConfHttp) (block : List UInt8) :
    RequestFits conf block ↔ ShortWords conf block := by
  constructor
  · intro hfit
    have hholds := holdsBlock_writeBytes (fun _ => 0) block
    obtain ⟨hmethod, hurl, hpath⟩ := hfit _ hholds
    have hfirst : (firstWord block).length < 32 := by
      rw [methodCopied_eq hholds, List.length_take] at hmethod
      omega
    have hle : (firstWord block).length ≤ block.length := (List.takeWhile_prefix _).length_le
    -- the NUL behind the block ends the blanks
    have hend : writeBytes (fun _ => 0) 0 block block.length ≠ 32 := by
      rw [writeBytes_of_ge (Nat.le_of_eq (Nat.zero_add _))]
      decide
    obtain ⟨i, hskip⟩ := exists_skips hle hend
    rw [methodCopied_short hholds hfirst] at hurl hpath
    have hsecond : (secondWord block).length < 128 := by
      have hlen := hurl i hskip
      rw [urlCopied_eq hholds hskip, List.length_take] at hlen
      omega
    have hfile := hpath i hskip true
    rw [urlCopied_short hholds hskip hsecond, sendHttp_isOk] at hfile
    exact ⟨hfirst, hsecond, hfile⟩
  · rintro ⟨hmethod, hurl, hpath⟩ header hholds
    have hword := methodCopied_short hholds hmethod
    refine ⟨?_, ?_, ?_⟩
    · rw [hword]
      exact hmethod
    · intro i hskip
      rw [hword] at hskip
      rw [urlCopied_short hholds hskip hurl]
      exact hurl
    · intro i hskip alive
      rw [hword] at hskip ⊢
      rw [urlCopied_short hholds hskip hurl]
      exact (sendHttp_isOk conf _).mpr hpath

/-- A first word of 32 bytes: its NUL is written behind `method`. -/
theorem requestFits_long_word : ¬ ∀ (conf : ConfHttp) (block : List UInt8),
    1 ≤ block.length → block.length ≤ recvSize → RequestFits conf block := by
  intro hall
  have hfit := hall defaultConf (List.replicate 32 65) (by decide) (by decide +kernel)
  have hholds : HoldsBlock (fun _ => 65) (List.replicate 32 65) := by
    intro k hk
    rw [List.getElem_replicate]
  have hmethod := (hfit _ hholds).method
  rw [methodCopied_eq hholds] at hmethod
  revert hmethod
  decide +kernel

end TinyHTTP.Version02
