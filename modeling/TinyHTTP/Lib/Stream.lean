import TinyHTTP.Lib.Message

/-!
# TinyHTTP — responses on a stream

A client reads one response after another from the bytes of a connection: lines up to
the blank one, and then as many bytes as the one `Content-Length` header says.

* `takeResponse_bytes` — it finds the response, and where the next one begins.
* `takeResponse_beginning` — it waits when not all of the response has come.
* `responsesOf_stream` — so it reads the responses that were sent, whatever they are.
* `responsesOf_begun` — and the first of them from a beginning of what was sent.
-/

namespace TinyHTTP.Lib

/-- The lines before the first blank one, and what is behind it; `line` has been read of the
first, in reverse. -/
def takeHead : List UInt8 → List UInt8 → Option (List (List UInt8) × List UInt8)
  | _, [] => none
  | line, 13 :: 10 :: rest =>
    if line = [] then some ([], rest)
    else (takeHead [] rest).map fun (ls, rest) => (line.reverse :: ls, rest)
  | line, b :: rest => takeHead (b :: line) rest

/-- The status and the reason of a status line. -/
def statusOfLine (line : List UInt8) : Option (Nat × List UInt8) :=
  if line.take 9 = bytes "HTTP/1.1 " then
    match (line.drop 9).dropWhile isDigit with
    | 32 :: reason => some (decimal ((line.drop 9).takeWhile isDigit), reason)
    | _ => none
  else none

/-- The response at the beginning of a stream, and what is behind it. -/
def takeResponse (xs : List UInt8) : Option (Response × List UInt8) :=
  match takeHead [] xs with
  | some (line :: headers, rest) =>
    match statusOfLine line, headers.filterMap lengthValue with
    | some (status, reason), [v] =>
      if v ≠ [] ∧ v.all isDigit ∧ decimal v ≤ rest.length then
        some (⟨status, reason, headers, rest.take (decimal v)⟩, rest.drop (decimal v))
      else none
    | _, _ => none
  | _ => none

/-- At most `n` responses, and what is left. -/
def takeResponses : Nat → List UInt8 → List Response × List UInt8
  | 0, xs => ([], xs)
  | n + 1, xs =>
    match takeResponse xs with
    | none => ([], xs)
    | some (r, rest) => ((takeResponses n rest).1.cons r, (takeResponses n rest).2)

/-- All that a client reads from a stream. A response has at least one byte. -/
def responsesOf (xs : List UInt8) : List Response × List UInt8 := takeResponses xs.length xs

/-- Not all of a response. -/
def Begins (xs : List UInt8) (r : Response) : Prop := xs <+: r.bytes ∧ xs ≠ r.bytes

-- ---------------------------------------------------------------------------
-- Lines
-- ---------------------------------------------------------------------------

theorem takeHead_line {l : List UInt8} (hl : NoBreak l) (acc rest : List UInt8) :
    takeHead acc (l ++ (lineEnd ++ rest)) =
      takeHead (l.reverse ++ acc) (lineEnd ++ rest) := by
  induction l generalizing acc with
  | nil => rfl
  | cons b l ih =>
    have hb : b ≠ 13 := (hl b (List.mem_cons_self ..)).1
    have hstep : takeHead acc (b :: (l ++ (lineEnd ++ rest))) =
        takeHead (b :: acc) (l ++ (lineEnd ++ rest)) := by
      rw [takeHead]
      intro rest' hb' _
      exact hb hb'
    rw [List.cons_append, hstep, ih fun c hc => hl c (List.mem_cons_of_mem _ hc)]
    simp

theorem takeHead_lines {ls : List (List UInt8)} (hls : ∀ l ∈ ls, l ≠ [] ∧ NoBreak l)
    (rest : List UInt8) : takeHead [] (lines ls ++ (lineEnd ++ rest)) = some (ls, rest) := by
  induction ls with
  | nil => rfl
  | cons l ls ih =>
    obtain ⟨hne, hl⟩ := hls l (List.mem_cons_self ..)
    rw [lines_cons, List.append_assoc, List.append_assoc, takeHead_line hl]
    simp only [List.append_nil, lineEnd, List.cons_append, List.nil_append, takeHead]
    rw [if_neg (by simpa using hne)]
    have hrest := ih fun k hk => hls k (List.mem_cons_of_mem _ hk)
    simp only [lineEnd, List.cons_append, List.nil_append] at hrest
    rw [hrest]
    simp

/-- More bytes do not change what has been found. -/
theorem takeHead_append {acc xs ys rest : List UInt8} {ls : List (List UInt8)}
    (h : takeHead acc xs = some (ls, rest)) : takeHead acc (xs ++ ys) = some (ls, rest ++ ys) := by
  fun_induction takeHead acc xs generalizing ls rest with
  | case1 => cases h
  | case2 rest' =>
    obtain ⟨rfl, rfl⟩ := Prod.mk.inj (Option.some.inj h)
    simp [takeHead]
  | case3 line rest' hline ih =>
    obtain ⟨⟨ls', r⟩, hrest, heq⟩ := Option.map_eq_some_iff.mp h
    obtain ⟨rfl, rfl⟩ := Prod.mk.inj heq
    simp only [List.cons_append, takeHead, if_neg hline, ih hrest, Option.map_some]
  | case4 line b xs hb ih =>
    rw [List.cons_append, takeHead, ih h]
    -- a line end that has come in part is none yet
    intro tail hb' htail
    cases xs with
    | nil => cases h
    | cons c xs =>
      rw [List.cons_append, List.cons.injEq] at htail
      exact hb xs hb' (by rw [htail.1])

theorem statusOfLine_statusLine (r : Response) :
    statusOfLine r.statusLine = some (r.status, r.reason) := by
  have hdrop : r.statusLine.drop 9 = digits r.status ++ 32 :: r.reason := by
    rw [Response.statusLine, List.append_assoc]
    exact List.drop_left' (by decide)
  have htake : r.statusLine.take 9 = bytes "HTTP/1.1 " := by
    rw [Response.statusLine, List.append_assoc]
    exact List.take_left' (by decide)
  have hrest : (digits r.status ++ 32 :: r.reason).dropWhile isDigit = 32 :: r.reason := by
    rw [List.dropWhile_append_of_pos fun b hb => isDigit_of_mem_digits hb,
      List.dropWhile_cons_of_neg (by decide)]
  rw [statusOfLine, if_pos htake, hdrop, hrest, takeWhile_digits, decimal_digits]
  rfl

-- ---------------------------------------------------------------------------
-- Responses
-- ---------------------------------------------------------------------------

theorem takeResponse_eq {xs rest : List UInt8} {r : Response}
    (h : takeResponse xs = some (r, rest)) : ∃ line headers tail v,
      takeHead [] xs = some (line :: headers, tail) ∧
      statusOfLine line = some (r.status, r.reason) ∧ headers.filterMap lengthValue = [v] ∧
      (v ≠ [] ∧ v.all isDigit ∧ decimal v ≤ tail.length) ∧
      r = ⟨r.status, r.reason, headers, tail.take (decimal v)⟩ ∧ rest = tail.drop (decimal v) := by
  unfold takeResponse at h
  split at h
  · rename_i line headers tail hhead
    split at h
    · rename_i status reason v hstatus hlength
      split at h
      · rename_i hv
        obtain ⟨rfl, rfl⟩ := Prod.mk.inj (Option.some.inj h)
        exact ⟨line, headers, tail, v, hhead, hstatus, hlength, hv, rfl, rfl⟩
      · cases h
    · cases h
  · cases h

/-- **A response is found on a stream**, with what is behind it. -/
theorem takeResponse_bytes {r : Response} (hr : r.Complete) (rest : List UInt8) :
    takeResponse (r.bytes ++ rest) = some (r, rest) := by
  obtain ⟨v, hv, hne, hdigits, hlength⟩ := hr.announces
  have hline : r.statusLine ≠ [] := by simp [Response.statusLine]
  have hall : ∀ l ∈ r.statusLine :: r.headers, l ≠ [] ∧ NoBreak l := by
    intro l hl
    rcases List.mem_cons.mp hl with rfl | hl
    · exact ⟨hline, noBreak_statusLine hr.reason⟩
    · exact hr.headers l hl
  have hhead : takeHead [] (r.bytes ++ rest) =
      some (r.statusLine :: r.headers, r.body ++ rest) := by
    rw [Response.bytes, List.append_assoc, List.append_assoc]
    exact takeHead_lines hall _
  have hbody : v ≠ [] ∧ v.all isDigit = true ∧ decimal v ≤ (r.body ++ rest).length := by
    refine ⟨hne, List.all_eq_true.mpr hdigits, ?_⟩
    rw [hlength, List.length_append]
    exact Nat.le_add_right ..
  simp only [takeResponse, hhead, statusOfLine_statusLine, hv]
  rw [if_pos hbody, hlength, List.take_left, List.drop_left]

/-- More bytes do not change a response that has been found. -/
theorem takeResponse_append {xs ys rest : List UInt8} {r : Response}
    (h : takeResponse xs = some (r, rest)) : takeResponse (xs ++ ys) = some (r, rest ++ ys) := by
  obtain ⟨line, headers, tail, v, hhead, hstatus, hlength, ⟨hne, hdigits, hle⟩, hr, rfl⟩ :=
    takeResponse_eq h
  have hbody : v ≠ [] ∧ v.all isDigit = true ∧ decimal v ≤ (tail ++ ys).length := by
    refine ⟨hne, hdigits, ?_⟩
    rw [List.length_append]
    omega
  simp only [takeResponse, takeHead_append hhead, hstatus, hlength, if_pos hbody,
    List.take_append_of_le_length hle, List.drop_append_of_le_length hle]
  rw [hr]

/-- **A response is not found before all of it has come.** -/
theorem takeResponse_beginning {xs : List UInt8} {r : Response} (hr : r.Complete)
    (h : Begins xs r) : takeResponse xs = none := by
  obtain ⟨⟨ys, hys⟩, hne⟩ := h
  cases htake : takeResponse xs with
  | none => rfl
  | some p =>
    obtain ⟨r', rest⟩ := p
    -- then it is all of it, with nothing behind
    have hall : takeResponse (xs ++ ys) = some (r', rest ++ ys) := takeResponse_append htake
    have hself := takeResponse_bytes hr []
    rw [List.append_nil, ← hys, hall, Option.some.injEq, Prod.mk.injEq, List.append_eq_nil_iff]
      at hself
    obtain ⟨-, -, rfl⟩ := hself
    rw [List.append_nil] at hys
    exact absurd hys hne

theorem takeResponses_of_none {xs : List UInt8} (h : takeResponse xs = none) (n : Nat) :
    takeResponses n xs = ([], xs) := by
  cases n with
  | zero => rfl
  | succ n => rw [takeResponses, h]

theorem bytes_pos (r : Response) : 1 ≤ r.bytes.length := by
  simp only [Response.bytes, List.length_append, lineEnd, List.length_cons]
  omega

/-- **The client reads what was sent**, up to a response of which it has a part. -/
theorem responsesOf_stream {rs : List Response} (hrs : ∀ r ∈ rs, r.Complete) {tail : List UInt8}
    (htail : takeResponse tail = none) :
    responsesOf (rs.flatMap Response.bytes ++ tail) = (rs, tail) := by
  have hfuel : ∀ n, rs.length ≤ n →
      takeResponses n (rs.flatMap Response.bytes ++ tail) = (rs, tail) := by
    induction rs with
    | nil => exact fun n _ => takeResponses_of_none htail n
    | cons r rs ih =>
      intro n hn
      cases n with
      | zero => cases hn
      | succ n =>
        have hrest := ih (fun r hr => hrs r (List.mem_cons_of_mem _ hr)) n
          (Nat.le_of_succ_le_succ hn)
        rw [List.flatMap_cons, List.append_assoc, takeResponses,
          takeResponse_bytes (hrs r (List.mem_cons_self ..))]
        simp only [hrest]
  refine hfuel _ ?_
  clear hfuel htail
  rw [List.length_append]
  refine Nat.le_add_right_of_le ?_
  induction rs with
  | nil => exact Nat.zero_le _
  | cons r rs ih =>
    have hpos := bytes_pos r
    have hle := ih fun r hr => hrs r (List.mem_cons_of_mem _ hr)
    rw [List.flatMap_cons, List.length_append, List.length_cons]
    omega

/-- **The client reads a beginning of what is sent.** -/
theorem responsesOf_begun {rs : List Response} (hrs : ∀ r ∈ rs, r.Complete) {xs : List UInt8}
    (h : xs <+: rs.flatMap Response.bytes) : ∃ k tail, responsesOf xs = (rs.take k, tail) := by
  have hsplit : ∃ k tail, xs = (rs.take k).flatMap Response.bytes ++ tail ∧
      takeResponse tail = none := by
    induction rs generalizing xs with
    | nil => exact ⟨0, [], List.prefix_nil.mp h, rfl⟩
    | cons r rs ih =>
      rw [List.forall_mem_cons] at hrs
      rw [List.flatMap_cons] at h
      rcases List.prefix_or_prefix_of_prefix h (List.prefix_append ..) with hpart | ⟨ys, rfl⟩
      · by_cases hall : xs = r.bytes
        · exact ⟨1, [], by simp [hall], rfl⟩
        · exact ⟨0, xs, by simp, takeResponse_beginning hrs.1 ⟨hpart, hall⟩⟩
      · rw [List.prefix_append_right_inj] at h
        obtain ⟨k, tail, rfl, htail⟩ := ih hrs.2 h
        refine ⟨k + 1, tail, ?_, htail⟩
        rw [List.take_succ_cons, List.flatMap_cons, List.append_assoc]
  obtain ⟨k, tail, rfl, htail⟩ := hsplit
  exact ⟨k, tail, responsesOf_stream (fun r hr => hrs r (List.mem_of_mem_take hr)) htail⟩

end TinyHTTP.Lib
