import TinyHTTP.Version01.CgiInput

/-!
# TinyHTTP — version_01: the strings of a request

`accept_request` copies the method and the URL of a request into arrays of 255 bytes and
the path into one of 512. `execute_cgi` prefixes the method, the query and the length with
names of variables, again into arrays of 255 bytes.

* `getLine_touched` — `get_line` fails where it touches a byte that is not in its buffer.
* `acceptRequest_line` — the strings of a line that has come to its end.
* `stringsFit_iff` — when all the strings of a request fit: the head has its blank line,
  and the query leaves room for `QUERY_STRING=`.
-/

namespace TinyHTTP.Version01

open TinyHTTP.Lib
open TinyHTTP.Http (asString cr lf slash)

-- ---------------------------------------------------------------------------
-- The buffer of get_line
-- ---------------------------------------------------------------------------

/-- The indices of `buf` that `get_line` touches. -/
def touched (size : Nat) (input : List UInt8) : List Int :=
  let line := (getLineLoop (size - 1) input).1
  let i : Int := line.length
  (List.range line.length).map Int.ofNat ++ [i - 1] ++
    (if line.getLast? = some lf then [i - 2] else []) ++
    -- the NUL
    [if line.drop (line.length - 2) = [cr, lf] then i - 1 else i]

/-- `get_line` needs one byte, and two where the second is a newline. -/
theorem getLine_isOk (buf : Mem) (size : Nat) (input : List UInt8) :
    (∃ r, getLine buf size input = .ok r) ↔
      (getLineLoop (size - 1) input).1 ≠ [] ∧ (getLineLoop (size - 1) input).1 ≠ [lf] := by
  unfold getLine
  generalize getLineLoop (size - 1) input = r
  obtain ⟨taken, rest⟩ := r
  dsimp only
  rcases List.eq_nil_or_concat' taken with rfl | ⟨front, b, rfl⟩
  · simp
  · have hlast : writeBytes buf 0 (front ++ [b]) front.length = b :=
      writeBytes_getElem? (by simp)
    have hlen : (front ++ [b]).length = front.length + 1 := by simp
    simp only [hlen, Nat.add_sub_cancel, Nat.add_one_ne_zero, if_false, hlast]
    by_cases hb : b = lf
    · subst hb
      rw [if_pos rfl]
      cases front with
      | nil => simp
      | cons c front =>
        rw [if_neg (by simp)]
        split <;> simp
    · rw [if_neg hb]
      simp [List.append_eq_singleton_iff, hb]

/-- `get_line` fails where it touches a byte that is not in its buffer. -/
theorem getLine_touched (buf : Mem) (size : Nat) (input : List UInt8) :
    (∃ r, getLine buf size input = .ok r) ↔ ∀ k ∈ touched size input, 0 ≤ k ∧ k < size := by
  have hroom := getLineLoop_length (size - 1) input
  rw [getLine_isOk]
  unfold touched
  generalize (getLineLoop (size - 1) input).1 = line at hroom ⊢
  simp only [List.mem_append, List.mem_map, List.mem_range, List.mem_singleton]
  rcases List.eq_nil_or_concat' line with rfl | ⟨front, b, rfl⟩
  · refine iff_of_false (fun h => h.1 rfl) fun h => ?_
    have hbefore := (h (-1) (.inl (.inl (.inr rfl)))).1
    omega
  rw [List.length_append, List.length_singleton] at hroom ⊢
  constructor
  · rintro ⟨-, hone⟩ k (((⟨j, hj, rfl⟩ | rfl) | hk) | rfl)
    · exact ⟨Int.natCast_nonneg j, by simp; omega⟩
    · omega
    · split at hk
      · rename_i hlf
        obtain rfl : b = lf := by simpa using hlf
        obtain rfl := List.mem_singleton.mp hk
        cases front with
        | nil => exact absurd rfl hone
        | cons c front =>
          rw [List.length_cons] at hroom ⊢
          omega
      · cases hk
    · split <;> omega
  · intro h
    refine ⟨by simp, fun hone => ?_⟩
    obtain ⟨rfl, rfl⟩ : front = [] ∧ b = lf := by
      simpa [List.append_eq_singleton_iff] using hone
    have hbefore := (h (-1) (.inl (.inr (by simp)))).1
    omega

-- ---------------------------------------------------------------------------
-- The environment of a script
-- ---------------------------------------------------------------------------

/-- A string in an array. -/
structure ArrayString where
  size : Nat
  text : List UInt8
  deriving DecidableEq, Repr

/-- There is room for the string and its NUL. -/
def ArrayString.Fits (s : ArrayString) : Prop := s.text.length + 1 ≤ s.size

instance (s : ArrayString) : Decidable s.Fits := inferInstanceAs (Decidable (_ ≤ _))

/-- `meth_env`, and `query_env` or `length_env`. -/
def scriptEnv (r : Request) (contentLength : Int) : Except Fault (List ArrayString) :=
  let methEnv : ArrayString := ⟨255, bytes "REQUEST_METHOD=" ++ r.method⟩
  if r.method = bytes "GET" then
    match r.queryString with
    | none => .error .nullPointer
    | some query => .ok [methEnv, ⟨255, bytes "QUERY_STRING=" ++ query⟩]
  else .ok [methEnv, ⟨255, bytes "CONTENT_LENGTH=" ++ formatInt contentLength⟩]

/-- The strings that `execute_cgi` builds of a request. -/
def cgiEnv (sys : System) (r : Request) (input : List UInt8) :
    Except Fault (List ArrayString) := do
  if r.method = bytes "GET" then
    let _ ← discardHeaders initialBuf 1 input
    if sys.fork then scriptEnv r (-1) else return []
  else
    let (buf, numchars, input) ← getLine initialBuf bufSize input
    let (_, contentLength, _) ← postHeaders buf numchars (-1) input
    if contentLength = -1 then return []
    else if sys.fork then scriptEnv r contentLength else return []

/-- The same strings, from `stat` on. -/
def answerEnv (sys : System) (buf : Mem) (numchars : Nat) (r : Request) (input : List UInt8) :
    Except Fault (List ArrayString) :=
  match sys.stat r.path with
  | none => (discardHeaders buf numchars input).map fun _ => []
  | some executable =>
    if r.cgi || executable then cgiEnv sys r input
    else (discardHeaders initialBuf 1 input).map fun _ => []

/-- All strings that `accept_request` and `execute_cgi` build of a request. -/
def requestStrings (sys : System) (garbage : Mem) (input : List UInt8) :
    Except Fault (List ArrayString) := do
  let (buf, numchars, _) ← getLine garbage bufSize input
  let method ← methodWord buf
  let (request, rest) ← acceptRequest garbage input
  match request with
  | none => return [⟨255, method⟩]
  | some r =>
    let url ← urlWord buf numchars method.length
    let env ← answerEnv sys buf numchars r rest
    return ⟨255, method⟩ :: ⟨255, url⟩ :: ⟨512, r.path⟩ :: env

/-- The strings are built where `execute_cgi` gets to its end. -/
theorem executeCgi_cgiEnv {sys : System} {r : Request} {input : List UInt8}
    (hquery : r.method = bytes "GET" → r.queryString.isSome) :
    (∃ calls, executeCgi sys r input = .ok calls) ↔ ∃ env, cgiEnv sys r input = .ok env := by
  unfold executeCgi cgiEnv
  by_cases hget : r.method = bytes "GET"
  · obtain ⟨query, hsome⟩ := Option.isSome_iff_exists.mp (hquery hget)
    simp only [if_pos hget, scriptEnv, hsome]
    cases discardHeaders initialBuf 1 input with
    | error e => simp [bind, Except.bind]
    | ok r => cases sys.fork <;> simp [bind, Except.bind, pure, Except.pure]
  · simp only [if_neg hget, scriptEnv]
    cases getLine initialBuf bufSize input with
    | error e => simp [bind, Except.bind]
    | ok line =>
      obtain ⟨buf, numchars, rest⟩ := line
      simp only [bind, Except.bind]
      cases postHeaders buf numchars (-1) rest with
      | error e => simp
      | ok head =>
        obtain ⟨calls, contentLength, body⟩ := head
        by_cases hnone : contentLength = -1
        · simp [hnone, pure, Except.pure]
        · cases sys.fork <;> simp [hnone, pure, Except.pure]

-- ---------------------------------------------------------------------------
-- The words of a line
-- ---------------------------------------------------------------------------

/-- The bytes of the line that go to `method`. -/
def methodOf (text : List UInt8) : List UInt8 := (text.takeWhile fun b => !isSpace b).take 254

/-- The bytes of the line that go to `url`. -/
def urlOf (text : List UInt8) : List UInt8 :=
  (((text.drop (methodOf text).length).dropWhile fun b => spaces.contains b).takeWhile
    fun b => !isSpace b).take 254

/-- What stands behind the first `?` of the URL. -/
def queryOf (text : List UInt8) : List UInt8 :=
  ((asString (urlOf text)).dropWhile fun b => b ≠ questionMark).drop 1

/-- A line that has come to its end, or fills the buffer. -/
structure Full (text : List UInt8) : Prop where
  length : text.length ≤ 1023
  ends : lf ∈ text ∨ text.length = 1023

theorem getLineLoop_full {room : Nat} {input : List UInt8} (h : (getLineLoop room input).2 ≠ []) :
    lf ∈ (getLineLoop room input).1 ∨ (getLineLoop room input).1.length = room := by
  induction room generalizing input with
  | zero => exact .inr rfl
  | succ room ih =>
    cases input with
    | nil => exact absurd rfl h
    | cons c input =>
      unfold getLineLoop at h ⊢
      split at h
      · rename_i hc
        rw [if_pos hc, hc]
        exact .inl (List.mem_singleton_self lf)
      · rename_i hc
        rw [if_neg hc]
        exact (ih h).imp (List.mem_cons_of_mem c) (congrArg Nat.succ)

/-- If something stays in the socket, the line is at its end. -/
theorem nextLine_full {input text rest : List UInt8} (h : nextLine input = some (text, rest))
    (hrest : rest ≠ []) : Full text := by
  have hroom := getLineLoop_length (bufSize - 1) input
  have hends := @getLineLoop_full (bufSize - 1) input
  unfold nextLine at h
  generalize getLineLoop (bufSize - 1) input = r at h hroom hends
  obtain ⟨taken, left⟩ := r
  simp only at h hroom hends
  split at h
  · cases h
  cases h
  unfold foldNewline
  split
  · refine ⟨?_, .inl (List.mem_append_right _ (List.mem_singleton_self lf))⟩
    rename_i hcrlf
    have hlen := congrArg List.length hcrlf
    simp only [List.length_drop, List.length_cons, List.length_nil] at hlen
    simp only [List.length_append, List.length_take, List.length_singleton]
    unfold bufSize at hroom
    omega
  · exact ⟨hroom, hends hrest⟩

/-- The copy to `method` keeps to its array, whatever is in the buffer. -/
theorem methodWord_ok (buf : Mem) : ∃ word, methodWord buf = .ok word ∧ word.length ≤ 254 := by
  have hlen := copied_length_le buf isSpace bufSize 254 0
  refine ⟨copied buf isSpace bufSize 254 0, copyWhile_ok_iff.mpr ⟨rfl, ?_⟩, hlen⟩
  unfold bufSize at hlen ⊢
  omega

theorem isSpace_lf : isSpace lf = true := rfl

theorem HoldsLine.methodWord {buf : Mem} {text : List UInt8} (h : HoldsLine buf text)
    (hfull : Full text) : methodWord buf = .ok (methodOf text) := by
  have hlen := hfull.length
  have hroom : (methodOf text).length ≤ 254 := List.length_take_le ..
  refine copyWhile_ok_iff.mpr ⟨copied_bytes ?_ ?_ ?_, ?_⟩
  · intro k hk
    rw [Nat.zero_add]
    exact h.byte k hk
  · unfold bufSize
    omega
  · rcases hfull.ends with hlf | hlong
    · exact .inr (.inr ⟨lf, hlf, isSpace_lf⟩)
    · exact .inr (.inl (by omega))
  · unfold bufSize
    omega

theorem methodOf_length_le (text : List UInt8) : (methodOf text).length ≤ text.length :=
  (List.length_take_le' ..).trans (List.takeWhile_prefix _).length_le

/-- The blanks in front of the URL. -/
theorem HoldsLine.skipSpan {buf : Mem} {text : List UInt8} (h : HoldsLine buf text)
    (hlen : text.length ≤ 1023) {i : Nat} (hi : i ≤ text.length) :
    skipSpan buf bufSize i spaces =
      .ok (i + ((text.drop i).takeWhile fun b => spaces.contains b).length) := by
  have hstring : HasString buf i (asString (text.drop i)) := by
    refine hasString_takeWhile ?_ ?_
    · intro k hk
      rw [List.length_drop] at hk
      rw [h.byte (i + k) (by omega), List.getElem_drop]
    · rw [List.length_drop, Nat.add_sub_cancel' hi]
      exact h.nul
  have hshort := asString_length_le (text.drop i)
  rw [List.length_drop] at hshort
  -- no blank is a NUL
  have hblanks : (asString (text.drop i)).takeWhile (fun b => spaces.contains b) =
      (text.drop i).takeWhile fun b => spaces.contains b := by
    rw [asString, List.takeWhile_takeWhile]
    refine congrArg (fun p => List.takeWhile p (text.drop i)) (funext fun b => ?_)
    by_cases hb : b = 0
    · subst hb
      rfl
    · simp [hb]
  rw [Lib.skipSpan, scanFrom_string _ hstring (by unfold bufSize; omega)]
  simp only [Bool.not_not, hblanks]

theorem HoldsLine.urlWord {buf : Mem} {text : List UInt8} (h : HoldsLine buf text)
    (hfull : Full text) :
    urlWord buf text.length (methodOf text).length = .ok (urlOf text) := by
  have hlen := hfull.length
  have hword := methodOf_length_le text
  have hskip := h.skipSpan hlen hword
  unfold Version01.urlWord urlOf
  rw [hskip, ← drop_takeWhile, List.drop_drop]
  generalize (methodOf text).length = i at hword hskip ⊢
  have hstart : i + ((text.drop i).takeWhile fun b => spaces.contains b).length ≤ text.length := by
    have hle := (List.takeWhile_prefix (fun b => spaces.contains b) (l := text.drop i)).length_le
    rw [List.length_drop] at hle
    omega
  generalize i + ((text.drop i).takeWhile fun b => spaces.contains b).length = j at hstart
  refine copyWhile_ok_iff.mpr ⟨copied_bytes ?_ ?_ ?_, ?_⟩
  · intro k hk
    rw [List.length_drop] at hk
    rw [h.byte (j + k) (by omega), List.getElem_drop]
  · rw [List.length_drop]
    omega
  · rw [List.length_drop]
    exact .inl (by omega)
  · have htake := List.length_take_le' 254 ((text.drop j).takeWhile fun b => !isSpace b)
    have hword := (List.takeWhile_prefix (fun b => !isSpace b) (l := text.drop j)).length_le
    rw [List.length_drop] at hword
    unfold bufSize
    omega

-- ---------------------------------------------------------------------------
-- accept_request
-- ---------------------------------------------------------------------------

/-- What `accept_request` makes of the line. -/
structure Accepted (text : List UInt8) (r : Request) : Prop where
  method : r.method = bytes "GET" ∨ r.method = bytes "POST"
  query : r.method = bytes "GET" → r.queryString = some (queryOf text)
  path : r.path.length + 1 ≤ 512

/-- `etc` and `index.html` leave room for the URL. -/
theorem buildPath_fits {url : List UInt8} (h : url.length ≤ 254) :
    ∃ path, buildPath url = .ok path ∧ path.length + 1 ≤ 512 := by
  have hetc : (bytes "etc").length = 3 := by decide
  have hindex : (bytes "index.html").length = 10 := by decide
  unfold buildPath
  dsimp only
  split
  · have hfits : (bytes "etc" ++ url ++ bytes "index.html").length + 1 ≤ 512 := by
      simp only [List.length_append, hetc, hindex]
      omega
    exact ⟨_, if_pos hfits, hfits⟩
  · have hfits : (bytes "etc" ++ url).length + 1 ≤ 512 := by
      rw [List.length_append, hetc]
      omega
    exact ⟨_, if_pos hfits, hfits⟩

theorem urlOf_length_le (text : List UInt8) : (urlOf text).length ≤ 254 := List.length_take_le ..

/-- The strings of a line that has come to its end. -/
theorem acceptRequest_line {garbage buf : Mem} {input text rest : List UInt8}
    (hline : getLine garbage bufSize input = .ok (buf, text.length, rest))
    (hholds : HoldsLine buf text) (hfull : Full text) (hsupported : Supported input) :
    ∃ r, acceptRequest garbage input = .ok (some r, rest) ∧ Accepted text r ∧
      r.method = firstWord input := by
  have hmethod := hholds.methodWord hfull
  have hknown := (supported_iff hline hmethod).mpr hsupported
  have hword : asString (methodOf text) = firstWord input := by
    rw [methodWord_eq hline hmethod, List.take_of_length_le]
    rcases hsupported with hget | hpost
    · rw [hget]
      decide
    · rw [hpost]
      decide
  have hurl : (asString (urlOf text)).length ≤ 254 :=
    (asString_length_le _).trans (urlOf_length_le text)
  unfold acceptRequest
  simp only [hline, hmethod, hholds.urlWord hfull, bind, Except.bind, pure, Except.pure]
  rw [if_neg (by simpa only [ne_eq, not_and_or, not_not] using hknown)]
  by_cases hget : asString (methodOf text) = bytes "GET"
  · have hshort := (List.takeWhile_prefix (fun b => decide (b ≠ questionMark))
      (l := asString (urlOf text))).length_le
    obtain ⟨path, hpath, hfits⟩ := buildPath_fits (hshort.trans hurl)
    simp only [if_pos hget, hpath]
    exact ⟨_, rfl, ⟨hknown, fun _ => rfl, hfits⟩, hword⟩
  · obtain ⟨path, hpath, hfits⟩ := buildPath_fits hurl
    simp only [if_neg hget, hpath]
    exact ⟨_, rfl, ⟨hknown, fun h => absurd h hget, hfits⟩, hword⟩

/-- A line whose method is not known. -/
theorem acceptRequest_unsupported {garbage buf : Mem} {input rest : List UInt8} {numchars : Nat}
    (hline : getLine garbage bufSize input = .ok (buf, numchars, rest))
    (hsupported : ¬ Supported input) : acceptRequest garbage input = .ok (none, rest) := by
  obtain ⟨word, hmethod, -⟩ := methodWord_ok buf
  have hunknown := mt (supported_iff hline hmethod).mp hsupported
  unfold acceptRequest
  simp only [hline, hmethod, bind, Except.bind]
  rw [if_pos (not_or.mp hunknown)]
  rfl

/-- The rest of the request is what `get_line` has left. -/
theorem acceptRequest_rest {garbage buf : Mem} {input rest rest' : List UInt8} {numchars : Nat}
    {request : Option Request} (hline : getLine garbage bufSize input = .ok (buf, numchars, rest))
    (h : acceptRequest garbage input = .ok (request, rest')) : rest' = rest := by
  unfold acceptRequest at h
  obtain ⟨⟨buf₁, numchars₁, rest₁⟩, hline₁, h⟩ := bind_ok.mp h
  rw [hline] at hline₁
  cases hline₁
  obtain ⟨word, -, h⟩ := bind_ok.mp h
  dsimp only at h
  split at h
  · cases h
    rfl
  obtain ⟨url, -, h⟩ := bind_ok.mp h
  split at h
  · obtain ⟨path, -, h⟩ := bind_ok.mp h
    cases h
    rfl
  · obtain ⟨path, -, h⟩ := bind_ok.mp h
    cases h
    rfl

-- ---------------------------------------------------------------------------
-- The strings of a script
-- ---------------------------------------------------------------------------

/-- `int` -/
def IsInt (x : Int) : Prop := -2 ^ 31 ≤ x ∧ x < 2 ^ 31

theorem headerLine_int {buf buf' : Mem} {contentLength contentLength' : Int}
    (hint : IsInt contentLength)
    (h : headerLine buf contentLength = .ok (buf', contentLength')) : IsInt contentLength' := by
  unfold headerLine at h
  obtain ⟨name, -, h⟩ := bind_ok.mp h
  split at h
  · obtain ⟨value, hvalue, h⟩ := bind_ok.mp h
    cases h
    obtain ⟨long, -, rfl⟩ := map_ok.mp hvalue
    exact ⟨le_toInt32 long, toInt32_lt long⟩
  · cases h
    exact hint

/-- The length is an `int`, whatever the head says. -/
theorem postHeaders_int {buf : Mem} {numchars : Nat} {contentLength length : Int}
    {input rest : List UInt8} {calls : List SockCall} (hint : IsInt contentLength)
    (h : postHeaders buf numchars contentLength input = .ok (calls, length, rest)) :
    IsInt length := by
  fun_induction postHeaders buf numchars contentLength input generalizing calls rest length with
  | case1 => cases h
  | case2 => cases h
  | case3 buf numchars contentLength input hcond buf' contentLength' hheader buf'' numchars' rest'
      hline ih =>
    obtain ⟨⟨tail, r⟩, hr, h⟩ := map_ok.mp h
    cases h
    exact ih (headerLine_int hint hheader) hr
  | case4 =>
    cases h
    exact hint

/-- The query leaves room for `QUERY_STRING=`. -/
def QueryFits (text : List UInt8) (r : Request) : Prop :=
  r.method = bytes "GET" → (queryOf text).length ≤ 241

theorem fits_append {size : Nat} {name value : List UInt8} :
    (⟨size, name ++ value⟩ : ArrayString).Fits ↔ name.length + value.length + 1 ≤ size := by
  unfold ArrayString.Fits
  rw [List.length_append]

theorem scriptEnv_fits {text : List UInt8} {r : Request} (haccepted : Accepted text r)
    (hquery : QueryFits text r) {contentLength : Int} (hint : IsInt contentLength) :
    ∃ env, scriptEnv r contentLength = .ok env ∧ ∀ s ∈ env, s.Fits := by
  have hmeth : (⟨255, bytes "REQUEST_METHOD=" ++ r.method⟩ : ArrayString).Fits := by
    rcases haccepted.method with hget | hpost
    · rw [hget]
      decide +kernel
    · rw [hpost]
      decide +kernel
  unfold scriptEnv
  by_cases hget : r.method = bytes "GET"
  · have hname : (bytes "QUERY_STRING=").length = 13 := by decide
    have hfits : (⟨255, bytes "QUERY_STRING=" ++ queryOf text⟩ : ArrayString).Fits := by
      have hlen := hquery hget
      rw [fits_append, hname]
      omega
    simp only [if_pos hget, haccepted.query hget]
    exact ⟨_, rfl, List.forall_mem_cons.mpr ⟨hmeth, by simpa using hfits⟩⟩
  · have hname : (bytes "CONTENT_LENGTH=").length = 15 := by decide
    have hfits :
        (⟨255, bytes "CONTENT_LENGTH=" ++ formatInt contentLength⟩ : ArrayString).Fits := by
      have hlen := length_formatInt_le hint.1 hint.2
      rw [fits_append, hname]
      omega
    simp only [if_neg hget]
    exact ⟨_, rfl, List.forall_mem_cons.mpr ⟨hmeth, by simpa using hfits⟩⟩

theorem goes_initialBuf : Goes initialBuf 1 := ⟨Nat.zero_lt_one, by decide⟩

theorem cgiEnv_fits {text input body : List UInt8} {r : Request} (sys : System)
    (haccepted : Accepted text r) (hquery : QueryFits text r) (hhead : skipHead input = some body) :
    ∃ env, cgiEnv sys r input = .ok env ∧ ∀ s ∈ env, s.Fits := by
  have hnone : ∃ env : List ArrayString, Except.ok (ε := Fault) [] = .ok env ∧ ∀ s ∈ env, s.Fits :=
    ⟨[], rfl, fun s hs => by cases hs⟩
  unfold cgiEnv
  by_cases hget : r.method = bytes "GET"
  · obtain ⟨calls, hdiscard⟩ := discardHeaders_drains goes_initialBuf hhead
    simp only [if_pos hget, hdiscard, bind, Except.bind]
    cases sys.fork with
    | true => exact scriptEnv_fits haccepted hquery ⟨by decide, by decide⟩
    | false => exact hnone
  · obtain ⟨buf, numchars, rest, calls, contentLength, hline, hpost⟩ :=
      (drains_iff_skipHead.mpr hhead).post
    have hint : IsInt contentLength := postHeaders_int ⟨by decide, by decide⟩ hpost
    simp only [if_neg hget, hline, hpost, bind, Except.bind]
    split
    · exact hnone
    · cases sys.fork with
      | true => exact scriptEnv_fits haccepted hquery hint
      | false => exact hnone

theorem answerEnv_fits {buf : Mem} {numchars : Nat} {text input body : List UInt8} {r : Request}
    (sys : System) (hgoes : Goes buf numchars) (haccepted : Accepted text r)
    (hquery : QueryFits text r) (hhead : skipHead input = some body) :
    ∃ env, answerEnv sys buf numchars r input = .ok env ∧ ∀ s ∈ env, s.Fits := by
  unfold answerEnv
  cases sys.stat r.path with
  | none =>
    obtain ⟨calls, hdiscard⟩ := discardHeaders_drains hgoes hhead
    exact ⟨[], map_ok.mpr ⟨_, hdiscard, rfl⟩, fun s hs => by cases hs⟩
  | some executable =>
    dsimp only
    split
    · exact cgiEnv_fits sys haccepted hquery hhead
    · obtain ⟨calls, hdiscard⟩ := discardHeaders_drains goes_initialBuf hhead
      exact ⟨[], map_ok.mpr ⟨_, hdiscard, rfl⟩, fun s hs => by cases hs⟩

-- ---------------------------------------------------------------------------
-- What fits
-- ---------------------------------------------------------------------------

/-- The strings of every run fit their arrays, and every byte that is touched is in its array. -/
def StringsFit (input : List UInt8) : Prop :=
  ∀ sys garbage, ∃ strings, requestStrings sys garbage input = .ok strings ∧
    ∀ s ∈ strings, s.Fits

/-- The line is there, a known method is followed by a whole head, and the query is no longer than
the name of its variable allows. -/
def RoomFor (input : List UInt8) : Prop :=
  ∃ text rest, nextLine input = some (text, rest) ∧
    (Supported input → (skipHead rest).isSome) ∧
    (firstWord input = bytes "GET" → (queryOf text).length ≤ 241)

/-- A request with another method has one string. -/
theorem requestStrings_unsupported {garbage buf : Mem} {input rest : List UInt8} {numchars : Nat}
    (sys : System) (hline : getLine garbage bufSize input = .ok (buf, numchars, rest))
    (hsupported : ¬ Supported input) :
    ∃ strings, requestStrings sys garbage input = .ok strings ∧ ∀ s ∈ strings, s.Fits := by
  obtain ⟨word, hmethod, hlen⟩ := methodWord_ok buf
  have haccept := acceptRequest_unsupported hline hsupported
  refine ⟨[⟨255, word⟩], ?_, ?_⟩
  · simp only [requestStrings, hline, hmethod, haccept, bind, Except.bind, pure, Except.pure]
  · intro s hs
    rw [List.mem_singleton.mp hs]
    exact Nat.succ_le_succ hlen

/-- The strings of a request whose line has come to its end. -/
theorem requestStrings_line {garbage buf : Mem} {input text rest : List UInt8} (sys : System)
    (hline : getLine garbage bufSize input = .ok (buf, text.length, rest))
    (hholds : HoldsLine buf text) (hfull : Full text) (hsupported : Supported input) :
    ∃ r, Accepted text r ∧ r.method = firstWord input ∧ requestStrings sys garbage input =
      (answerEnv sys buf text.length r rest).map fun env =>
        ⟨255, methodOf text⟩ :: ⟨255, urlOf text⟩ :: ⟨512, r.path⟩ :: env := by
  obtain ⟨r, haccept, haccepted, hmethod⟩ := acceptRequest_line hline hholds hfull hsupported
  refine ⟨r, haccepted, hmethod, ?_⟩
  simp only [requestStrings, hline, hholds.methodWord hfull, haccept, hholds.urlWord hfull, bind,
    Except.bind]
  cases answerEnv sys buf text.length r rest <;> rfl

/-- A line with a known method is not blank. -/
theorem Supported.goes {garbage buf : Mem} {input rest : List UInt8} {numchars : Nat}
    (hline : getLine garbage bufSize input = .ok (buf, numchars, rest)) (hpos : 0 < numchars)
    (h : Supported input) : Goes buf numchars := by
  refine ⟨hpos, Bool.eq_false_iff.mpr fun hblank => ?_⟩
  have hfirst : buf 0 = lf := by
    unfold isBlank at hblank
    rw [Bool.and_eq_true, beq_iff_eq] at hblank
    exact hblank.1
  obtain ⟨word, hmethod, -⟩ := methodWord_ok buf
  have hnil : word = [] := by
    have hstop : methodWord buf = .ok [] := by
      unfold methodWord copyWhile
      rw [if_neg (by decide), hfirst, if_pos (.inl isSpace_lf)]
    rw [hmethod] at hstop
    exact Except.ok.inj hstop
  have hword := (supported_iff hline hmethod).mpr h
  rw [hnil] at hword
  revert hword
  decide

/-- A run in which every file is a script. -/
def allScripts : System := { noFiles with stat := fun _ => some true }

/-- The head of a request that a run gets through has its blank line. -/
theorem skipHead_of_stringsFit {input text rest : List UInt8}
    (hnext : nextLine input = some (text, rest)) (hfit : StringsFit input)
    (hsupported : Supported input) : (skipHead rest).isSome := by
  have hread := getLine_nextLine initialBuf input
  rw [hnext] at hread
  obtain ⟨buf, hline, -⟩ := hread
  have hgoes : Goes buf text.length :=
    hsupported.goes hline (List.length_pos_iff.mpr (nextLine_spec hnext).1)
  obtain ⟨strings, hstrings, -⟩ := hfit noFiles initialBuf
  unfold requestStrings at hstrings
  obtain ⟨⟨buf₁, numchars, rest₁⟩, hline₁, hstrings⟩ := bind_ok.mp hstrings
  rw [hline] at hline₁
  cases hline₁
  obtain ⟨word, -, hstrings⟩ := bind_ok.mp hstrings
  obtain ⟨⟨request, rest'⟩, haccept, hstrings⟩ := bind_ok.mp hstrings
  obtain rfl := acceptRequest_rest hline haccept
  have hsome := (acceptRequest_method haccept).mpr hsupported
  cases request with
  | none => cases hsome
  | some r =>
    obtain ⟨url, -, hstrings⟩ := bind_ok.mp hstrings
    obtain ⟨env, henv, -⟩ := bind_ok.mp hstrings
    obtain ⟨⟨calls, body⟩, hdiscard, -⟩ := map_ok.mp henv
    have hrest := discardHeaders_rest hgoes rest'
    rw [hdiscard] at hrest
    rw [inBounds_ok.mp hrest.symm]
    rfl

/-- The query of a request whose head has its blank line is handed to a script in some run. -/
theorem query_of_stringsFit {input text rest : List UInt8}
    (hnext : nextLine input = some (text, rest)) (hfull : Full text) (hfit : StringsFit input)
    (hhead : (skipHead rest).isSome) (hget : firstWord input = bytes "GET") :
    (queryOf text).length ≤ 241 := by
  have hread := getLine_nextLine initialBuf input
  rw [hnext] at hread
  obtain ⟨buf, hline, hholds, -⟩ := hread
  obtain ⟨r, haccepted, hmethod, hrun⟩ :=
    requestStrings_line allScripts hline hholds hfull (Or.inl hget)
  obtain ⟨body, hbody⟩ := Option.isSome_iff_exists.mp hhead
  obtain ⟨calls, hdiscard⟩ := discardHeaders_drains goes_initialBuf hbody
  rw [hget] at hmethod
  have henv : answerEnv allScripts buf text.length r rest =
      .ok [⟨255, bytes "REQUEST_METHOD=" ++ r.method⟩,
        ⟨255, bytes "QUERY_STRING=" ++ queryOf text⟩] := by
    simp only [answerEnv, allScripts, Bool.or_true, if_true, cgiEnv, if_pos hmethod, hdiscard,
      scriptEnv, haccepted.query hmethod, bind, Except.bind]
    rfl
  obtain ⟨strings, hstrings, hfits⟩ := hfit allScripts initialBuf
  rw [hrun, henv] at hstrings
  cases hstrings
  have hquery := hfits ⟨255, bytes "QUERY_STRING=" ++ queryOf text⟩ (by simp)
  have hname : (bytes "QUERY_STRING=").length = 13 := by decide
  rw [fits_append, hname] at hquery
  omega

theorem full_of_skipHead {input text rest : List UInt8}
    (hnext : nextLine input = some (text, rest)) (hhead : (skipHead rest).isSome) : Full text := by
  refine nextLine_full hnext ?_
  rintro rfl
  have hnone : skipHead [] = none := skipHead_none rfl
  rw [hnone] at hhead
  cases hhead

/-- **When the strings of a request fit**: the line is there, behind a method that the server knows
there is the whole head, and the query has at most 241 bytes. -/
theorem stringsFit_iff (input : List UInt8) : StringsFit input ↔ RoomFor input := by
  constructor
  · intro hfit
    obtain ⟨strings, hstrings, -⟩ := hfit noFiles initialBuf
    obtain ⟨line, hline, -⟩ := bind_ok.mp hstrings
    have hread := getLine_nextLine initialBuf input
    cases hnext : nextLine input with
    | none =>
      rw [hnext, hline] at hread
      cases hread
    | some r =>
      obtain ⟨text, rest⟩ := r
      have hhead := skipHead_of_stringsFit hnext hfit
      refine ⟨text, rest, hnext, hhead, fun hget => ?_⟩
      exact query_of_stringsFit hnext (full_of_skipHead hnext (hhead (Or.inl hget))) hfit
        (hhead (Or.inl hget)) hget
  · rintro ⟨text, rest, hnext, hhead, hquery⟩ sys garbage
    have hread := getLine_nextLine garbage input
    rw [hnext] at hread
    obtain ⟨buf, hline, hholds, -⟩ := hread
    by_cases hsupported : Supported input
    · obtain ⟨body, hbody⟩ := Option.isSome_iff_exists.mp (hhead hsupported)
      have hfull := full_of_skipHead hnext (hhead hsupported)
      have hgoes : Goes buf text.length :=
        hsupported.goes hline (List.length_pos_iff.mpr (nextLine_spec hnext).1)
      obtain ⟨r, haccepted, hmethod, hrun⟩ :=
        requestStrings_line sys hline hholds hfull hsupported
      obtain ⟨env, henv, hfits⟩ :=
        answerEnv_fits sys hgoes haccepted (fun hget => hquery (hmethod ▸ hget)) hbody
      refine ⟨_, by rw [hrun, henv]; rfl, ?_⟩
      refine List.forall_mem_cons.mpr ⟨?_, List.forall_mem_cons.mpr ⟨?_,
        List.forall_mem_cons.mpr ⟨haccepted.path, hfits⟩⟩⟩
      · exact Nat.succ_le_succ (List.length_take_le ..)
      · exact Nat.succ_le_succ (urlOf_length_le text)
    · exact requestStrings_unsupported sys hline hsupported

/-- A client that closes at once: `buf[-1]` is read. -/
theorem stringsFit_closed : ¬ ∀ input, StringsFit input := by
  intro hall
  obtain ⟨strings, hstrings, -⟩ := hall [] noFiles initialBuf
  cases hstrings

/-- 241 bytes is not the most that a URL has room for. -/
example : (queryOf (bytes "GET /?" ++ List.replicate 242 97 ++ bytes " HTTP/1.1\n")).length =
    242 := by
  decide +kernel

end TinyHTTP.Version01
