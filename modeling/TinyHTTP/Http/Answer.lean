import TinyHTTP.Lib.Message
import TinyHTTP.Http.Conn

/-!
# TinyHTTP — which requests are answered

What `process` should leave behind for a completed request is `Answered`: a
complete HTTP/1.1 response with the status of its outcome, described by the
iovecs and waiting for `EPOLLOUT`. `Answerable` says for which requests it does:
an error in the request is reported as 404, `NO_RESOURCE` has no `case`, an empty
file falls into `default`, and sizes are cut to `int`.

* `answered_iff` — `process` answers the answerable requests, and no others.
-/

namespace TinyHTTP.Http

open TinyHTTP.Lib

/-- The objects that are receiving a request. -/
inductive Receiving : HttpConn → Prop where
  | init (c : HttpConn) : Receiving c.init
  | read {c : HttpConn} (recv : Recv) : Receiving c → Receiving (c.readOnce recv).1
  | wait {w w' : World} {c c' : HttpConn} : Receiving c →
      c.process w = .ok (w', c', .modfd .epollin) → Receiving c'

/-- The status code that an outcome stands for. -/
def statusOf : HttpCode → Option Nat
  | .fileRequest => some 200
  | .badRequest => some 400
  | .forbiddenRequest => some 403
  | .noResource => some 404
  | .internalError => some 500
  | .noRequest | .getRequest | .closedConnection => none

/-- The bytes of one iovec, if they are in the write buffer or in the mapping. -/
def HttpConn.ioBytes (c : HttpConn) (v : Iovec) : Option (List UInt8) :=
  match v.base with
  | .writeBuf i =>
    if i + v.len ≤ c.writeBuf.length then some ((c.writeBuf.drop i).take v.len) else none
  | .file i =>
    match c.fileAddress with
    | .mapped content =>
      if 0 ≤ i ∧ i.toNat + v.len ≤ content.length then some ((content.drop i.toNat).take v.len)
      else none
    | .null | .mapFailed => none

/-- The bytes that `m_iv` describes. -/
def HttpConn.described (c : HttpConn) : Option (List UInt8) :=
  (c.iovecs.mapM c.ioBytes).map List.flatten

/-- The request has been answered. -/
structure Answered (code : HttpCode) (c : HttpConn) (effect : ProcessEffect) : Prop where
  armed : effect = .modfd .epollout
  toSend : 0 < c.bytesToSend
  response : ∃ r : Response, r.Complete ∧ statusOf code = some r.status ∧
    c.described = some r.bytes

/-- The head of a response, as `process_write` puts it together. -/
def responseHead (status : Nat) (title : List UInt8) (n : Int) (linger : Bool) : List UInt8 :=
  statusLine status title ++ contentLengthLine n ++ lingerLine linger ++ crlf

/-- The file is answered: with 403, or with all its bytes. -/
def FileNode.Answerable (node : FileNode) (linger : Bool) : Prop :=
  node.stat.othersRead = false ∨
    (node.stat.isDir = false ∧ node.mapping.isSome = true ∧
      (responseHead 200 ok200Title node.stat.size linger).length + node.stat.size < 2 ^ 31)

/-- The request is complete, and its file is there and answered. -/
def Answerable (w : World) (c : HttpConn) : Prop :=
  ∃ s w' s' real path node, Http.processRead c.parser = .ok (.doRequest, s) ∧
    resolve w s c.realFile = .ok (w', s', real) ∧ cstring real filenameLen 0 = .ok path ∧
    w'.file path = some node ∧ node.Answerable s'.linger

-- ---------------------------------------------------------------------------
-- Putting responses together
-- ---------------------------------------------------------------------------

theorem addResponse_ok {c : HttpConn} {text : List UInt8}
    (h : c.writeBuf.length + text.length < writeBufferSize - 1) :
    c.addResponse text = ({ c with writeBuf := c.writeBuf ++ text }, true) := by
  have hsize : writeBufferSize = 1024 := rfl
  unfold HttpConn.addResponse
  rw [if_neg (by omega), if_neg (by omega)]

/-- `add_status_line` and `add_headers`, where the head fits. -/
theorem addHead_ok {c : HttpConn} (hc : c.writeBuf = []) (status : Nat) (title : List UInt8)
    (n : Int) (h : (responseHead status title n c.parser.linger).length < writeBufferSize - 1) :
    (c.addStatusLine status title).1.addHeaders n =
      { c with writeBuf := responseHead status title n c.parser.linger } := by
  simp only [responseHead, List.length_append] at h
  rw [HttpConn.addStatusLine, addResponse_ok (by rw [hc, List.length_nil]; omega),
    HttpConn.addHeaders, HttpConn.addContentLength]
  rw [addResponse_ok (by simp only [hc, List.nil_append]; omega), HttpConn.addLinger]
  rw [addResponse_ok (by simp only [hc, List.nil_append, List.length_append]; omega),
    HttpConn.addBlankLine]
  rw [addResponse_ok (by simp only [hc, List.nil_append, List.length_append]; omega)]
  simp only [hc, List.nil_append, responseHead]

/-- The header lines of a response. -/
def responseHeaders (n : Int) (linger : Bool) : List (List UInt8) :=
  [bytes "Content-Length:" ++ formatInt n,
    bytes "Connection:" ++ if linger then bytes "keep-alive" else bytes "close"]

/-- The response that the bytes stand for. -/
theorem responseHead_bytes (status : Nat) (title : List UInt8) (n : Int) (linger : Bool)
    (body : List UInt8) : responseHead status title n linger ++ body =
      Response.bytes ⟨status, title, responseHeaders n linger, body⟩ := by
  have hend : crlf = lineEnd := rfl
  have hversion : bytes "HTTP/1.1 " = bytes "HTTP/1.1" ++ [32] := by decide
  simp [responseHead, responseHeaders, statusLine, contentLengthLine, lingerLine, Response.bytes,
    Response.statusLine, lines, hend, hversion]

theorem noBreak_formatInt (n : Int) : NoBreak (formatInt n) := by
  unfold formatInt
  split
  · have h45 : NoBreak [45] := by decide
    exact h45.append (noBreak_digits _)
  · exact noBreak_digits _

theorem separable_response (status : Nat) {title : List UInt8} (htitle : NoBreak title) (n : Int)
    (linger : Bool) (body : List UInt8) :
    Response.Separable ⟨status, title, responseHeaders n linger, body⟩ where
  reason := htitle
  headers := by
    have hname : NoBreak (bytes "Content-Length:") := by decide
    intro h hh
    simp only [responseHeaders, List.mem_cons, List.not_mem_nil, or_false] at hh
    rcases hh with rfl | rfl
    · exact ⟨List.append_ne_nil_of_left_ne_nil (by decide) _, hname.append (noBreak_formatInt n)⟩
    · cases linger
      · decide
      · decide

theorem lengthValue_headers (n : Int) (linger : Bool) :
    (responseHeaders n linger).filterMap lengthValue = [formatInt n] := by
  have hname : (bytes "Content-Length:").length = 15 := by decide
  have hlength : lengthValue (bytes "Content-Length:" ++ formatInt n) = some (formatInt n) := by
    unfold lengthValue
    rw [List.take_left' hname, List.drop_left' hname, if_pos (by decide)]
    have hblank : ∀ b ∈ formatInt n, b ≠ 32 := by
      intro b hb
      unfold formatInt at hb
      split at hb
      · rcases List.mem_cons.mp hb with rfl | hb
        · decide
        · rintro rfl
          exact absurd (isDigit_of_mem_digits hb) (by decide)
      · rintro rfl
        exact absurd (isDigit_of_mem_digits hb) (by decide)
    cases hf : formatInt n with
    | nil => rfl
    | cons b rest =>
      have hb := hblank b (by rw [hf]; exact List.mem_cons_self ..)
      rw [List.dropWhile_cons_of_neg (by simpa using hb)]
  have hconn : lengthValue (bytes "Connection:" ++ if linger then bytes "keep-alive"
      else bytes "close") = none := by
    cases linger
    · decide
    · decide
  rw [responseHeaders, List.filterMap_cons_some hlength, List.filterMap_cons_none hconn]
  rfl

/-- The response is complete if the number in its header is the length of its body. -/
theorem announces_iff (status : Nat) (title : List UInt8) (n : Int) (linger : Bool)
    (body : List UInt8) :
    Response.Announces ⟨status, title, responseHeaders n linger, body⟩ ↔ n = body.length := by
  unfold Response.Announces
  simp only [lengthValue_headers]
  constructor
  · rintro ⟨v, hv, -, hdigits, hdecimal⟩
    obtain rfl : formatInt n = v := by simpa using hv
    unfold formatInt at hdigits hdecimal
    split at hdigits
    · exact absurd (hdigits 45 (List.mem_cons_self ..)) (by decide)
    · rename_i hn
      rw [if_neg hn, decimal_digits] at hdecimal
      omega
  · rintro rfl
    have hformat : formatInt body.length = digits body.length := by
      rw [formatInt, if_neg (by omega), Int.natAbs_natCast]
    refine ⟨_, rfl, ?_, ?_, ?_⟩
    · rw [hformat]
      exact fun h => Nat.toDigits_ne_nil (List.map_eq_nil_iff.mp h)
    · rw [hformat]
      exact fun b hb => isDigit_of_mem_digits hb
    · rw [hformat, decimal_digits]

-- ---------------------------------------------------------------------------
-- One answer at a time
-- ---------------------------------------------------------------------------

/-- The write buffer as the only iovec. -/
theorem described_useWriteBuf (c : HttpConn) : c.useWriteBuf.described = some c.writeBuf := by
  simp [HttpConn.described, HttpConn.iovecs, HttpConn.useWriteBuf, HttpConn.ioBytes]

/-- What `process_write` makes of an error. -/
theorem addError_ok {c : HttpConn} (hc : c.writeBuf = []) (status : Nat) (title form : List UInt8)
    (hfit : (responseHead status title form.length c.parser.linger).length + form.length <
      writeBufferSize - 1) :
    ∃ text, text = responseHead status title form.length c.parser.linger ++ form ∧
      c.addError status title form = (HttpConn.useWriteBuf { c with writeBuf := text }, true) := by
  refine ⟨_, rfl, ?_⟩
  rw [HttpConn.addError, addHead_ok hc status title form.length (by omega), HttpConn.addContent,
    addResponse_ok (by simpa using hfit)]
  rfl

/-- An error is answered if it is reported with its own status. -/
theorem answered_useWriteBuf {c : HttpConn} {code : HttpCode} (status : Nat)
    {title : List UInt8} (htitle : NoBreak title) (linger : Bool) (form : List UInt8)
    (htext : c.writeBuf = responseHead status title form.length linger ++ form) :
    Answered code c.useWriteBuf (.modfd .epollout) ↔ statusOf code = some status := by
  have hdescribed := described_useWriteBuf c
  have hsep := separable_response status htitle form.length linger form
  have hpos : 0 < c.writeBuf.length := by
    rw [htext, responseHead, List.length_append, List.length_append]
    simp only [crlf, List.length_cons]
    omega
  rw [htext, responseHead_bytes] at hdescribed
  constructor
  · rintro ⟨-, -, r, hr, hstatus, hr'⟩
    rw [hdescribed, Option.some.injEq] at hr'
    obtain rfl := Response.bytes_inj hsep hr.toSeparable hr'
    exact hstatus
  · intro hstatus
    refine ⟨rfl, ?_, _, ⟨hsep, (announces_iff ..).mpr rfl⟩, hstatus, hdescribed⟩
    show (0 : Int) < c.writeBuf.length
    omega

/-- The head of a file fits. -/
theorem length_fileHead (x : Int) (linger : Bool) :
    (responseHead 200 ok200Title (toInt32 x) linger).length ≤ 70 := by
  have h₁ : (statusLine 200 ok200Title).length = 17 := by decide
  have h₂ : (bytes "Content-Length:").length = 15 := by decide
  have h₃ : (lingerLine linger).length ≤ 23 := by
    cases linger
    · decide
    · decide
  have h₄ := length_formatInt_le (le_toInt32 x) (toInt32_lt x)
  simp only [responseHead, contentLengthLine, List.length_append, h₁, h₂, crlf, List.length_cons,
    List.length_nil]
  omega

/-- What `process_write` makes of a file that is not empty. -/
theorem processWrite_file {c : HttpConn} (hc : c.writeBuf = []) (hsize : c.fileStat.size ≠ 0) :
    ∃ head, head = responseHead 200 ok200Title (toInt32 c.fileStat.size) c.parser.linger ∧
      c.processWrite .fileRequest = ({ c with
        writeBuf := head
        iv0 := ⟨.writeBuf 0, head.length⟩
        iv1 := ⟨.file 0, c.fileStat.size⟩
        ivCount := 2
        bytesToSend := toInt32 (head.length + c.fileStat.size) }, true) := by
  have hlen := length_fileHead c.fileStat.size c.parser.linger
  have hfit : (responseHead 200 ok200Title (toInt32 c.fileStat.size) c.parser.linger).length <
      writeBufferSize - 1 := by
    have hbuf : writeBufferSize = 1024 := rfl
    omega
  refine ⟨_, rfl, ?_⟩
  have hstatus : (c.addStatusLine 200 ok200Title).1.fileStat = c.fileStat := by
    unfold HttpConn.addStatusLine HttpConn.addResponse
    split
    · rfl
    split
    · rfl
    · rfl
  unfold HttpConn.processWrite
  simp only [hstatus, if_pos hsize, addHead_ok hc 200 ok200Title _ hfit]

/-- An empty file is not answered. -/
theorem processWrite_empty {c : HttpConn} (hsize : c.fileStat.size = 0) :
    (c.processWrite .fileRequest).2 = false := by
  have hstatus : (c.addStatusLine 200 ok200Title).1.fileStat = c.fileStat := by
    unfold HttpConn.addStatusLine HttpConn.addResponse
    split
    · rfl
    split
    · rfl
    · rfl
  unfold HttpConn.processWrite
  simp only [hstatus, if_neg (not_not_intro hsize)]

/-- The iovecs of a file. -/
theorem described_file {c : HttpConn} (h₀ : c.iv0 = ⟨.writeBuf 0, c.writeBuf.length⟩)
    (h₁ : c.iv1 = ⟨.file 0, c.fileStat.size⟩) (hcount : c.ivCount = 2) :
    c.described = match c.fileAddress with
      | .mapped content =>
        if c.fileStat.size ≤ content.length then
          some (c.writeBuf ++ content.take c.fileStat.size)
        else none
      | .null | .mapFailed => none := by
  have hbuf : c.ioBytes c.iv0 = some c.writeBuf := by
    rw [h₀]
    simp [HttpConn.ioBytes]
  have hiovecs : c.iovecs = [c.iv0, c.iv1] := by
    rw [HttpConn.iovecs, hcount]
    rfl
  rw [HttpConn.described, hiovecs, List.mapM_cons, hbuf, List.mapM_cons]
  cases hfile : c.fileAddress with
  | null | mapFailed =>
    have hnone : c.ioBytes c.iv1 = none := by
      rw [h₁]
      simp [HttpConn.ioBytes, hfile]
    rw [hnone]
    rfl
  | mapped content =>
    by_cases hle : c.fileStat.size ≤ content.length
    · have hsome : c.ioBytes c.iv1 = some (content.take c.fileStat.size) := by
        rw [h₁]
        simp [HttpConn.ioBytes, hfile, hle]
      rw [hsome]
      simp [hle]
    · have hnone : c.ioBytes c.iv1 = none := by
        rw [h₁]
        simp [HttpConn.ioBytes, hfile, hle]
      rw [hnone]
      simp [hle]

/-- **A file is answered** if it is mapped and its size, with the head, is an `int`. -/
theorem answered_file {c : HttpConn} (hc : c.writeBuf = []) (hsize : c.fileStat.size ≠ 0)
    (node : FileNode) (hstat : c.fileStat = node.stat) (hfile : c.fileAddress = node.mmap) :
    Answered .fileRequest (c.processWrite .fileRequest).1 (.modfd .epollout) ↔
      node.mapping.isSome = true ∧
        (responseHead 200 ok200Title c.fileStat.size c.parser.linger).length + c.fileStat.size <
          2 ^ 31 := by
  obtain ⟨head, hhead, hresult⟩ := processWrite_file hc hsize
  have hlen := length_fileHead c.fileStat.size c.parser.linger
  rw [hresult]
  have htitle : NoBreak ok200Title := by decide
  unfold FileNode.mmap at hfile
  cases hmapping : node.mapping with
  | none =>
    have hfile' : c.fileAddress = .mapFailed := by rw [hfile, hmapping]
    constructor
    · rintro ⟨-, -, r, -, -, hr⟩
      rw [described_file rfl rfl rfl] at hr
      simp only [hfile'] at hr
      cases hr
    · rintro ⟨h, -⟩
      cases h
  | some content =>
    have hfile' : c.fileAddress = .mapped content := by rw [hfile, hmapping]
    have hcontent : content.length = c.fileStat.size := by
      rw [hstat]
      exact (node.mapping_length content hmapping).1
    have hdescribed : HttpConn.described { c with
        writeBuf := head
        iv0 := ⟨.writeBuf 0, head.length⟩
        iv1 := ⟨.file 0, c.fileStat.size⟩
        ivCount := 2
        bytesToSend := toInt32 (head.length + c.fileStat.size) } =
        some (head ++ content) := by
      rw [described_file rfl rfl rfl]
      simp only [hfile']
      rw [if_pos (by omega), List.take_of_length_le (by omega)]
    have hsep := separable_response 200 htitle (toInt32 c.fileStat.size) c.parser.linger content
    constructor
    · rintro ⟨-, hsend, r, hr, -, hr'⟩
      -- the announced length is the size, which is therefore an `int`
      rw [hdescribed, Option.some.injEq, hhead, responseHead_bytes] at hr'
      obtain rfl := Response.bytes_inj hsep hr.toSeparable hr'
      have hint := (announces_iff ..).mp hr.announces
      rw [hcontent] at hint
      have hlt : c.fileStat.size < 2 ^ 31 := by
        have := toInt32_lt c.fileStat.size
        omega
      rw [hint] at hhead hlen
      rw [← hhead] at hlen ⊢
      refine ⟨rfl, ?_⟩
      by_contra hge
      dsimp only at hsend
      unfold toInt32 at hsend
      rw [Int.bmod_def] at hsend
      omega
    · rintro ⟨-, hlt⟩
      have hint : toInt32 c.fileStat.size = c.fileStat.size := toInt32_of_lt (by omega)
      rw [hint] at hhead hsep
      rw [← hhead] at hlt
      refine ⟨rfl, ?_, _, ⟨hsep, (announces_iff ..).mpr ?_⟩, rfl, ?_⟩
      · dsimp only
        have := toInt32_of_lt hlt
        rw [Int.natCast_add] at this
        rw [this]
        omega
      · rw [hcontent]
      · rw [hdescribed, hhead, responseHead_bytes]

-- ---------------------------------------------------------------------------
-- process
-- ---------------------------------------------------------------------------

theorem turn_code {st : LineStatus} {s s' : Parser} {code : HttpCode}
    (h : turn st s = .ok (.stop (.code code) s')) : code = .noRequest ∨ code = .badRequest := by
  have hhandle : ∀ {t : Parser}, handleLine t = .ok (.stop (.code code) s') →
      code = .badRequest := by
    intro t ht
    unfold handleLine at ht
    split at ht
    · obtain ⟨r, -, hr⟩ := map_ok.mp ht
      unfold requestLineTurn at hr
      split at hr
      · cases hr
        rfl
      · cases hr
    · obtain ⟨r, -, hr⟩ := map_ok.mp ht
      unfold headerTurn at hr
      split at hr
      · cases hr
        rfl
      split at hr
      · cases hr
      · cases hr
    · obtain ⟨r, -, hr⟩ := map_ok.mp ht
      unfold contentTurn at hr
      split at hr
      · cases hr
      · cases hr
  unfold turn at h
  split at h
  · exact Or.inr (hhandle h)
  · generalize parseLine s = p at h
    obtain ⟨lineStatus, t⟩ := p
    cases lineStatus with
    | lineOk => exact Or.inr (hhandle h)
    | lineBad | lineOpen =>
      cases h
      exact Or.inl rfl

/-- The parser answers `NO_REQUEST` or `BAD_REQUEST` on its own. -/
theorem processReadLoop_code {fuel : Nat} {st : LineStatus} {s s' : Parser} {code : HttpCode}
    (h : processReadLoop fuel st s = .ok (.code code, s')) :
    code = .noRequest ∨ code = .badRequest := by
  induction fuel generalizing st s with
  | zero =>
    cases h
    exact Or.inl rfl
  | succ fuel ih =>
    rw [processReadLoop, bind_ok] at h
    obtain ⟨t, ht, h⟩ := h
    cases t with
    | again st' s₁ => exact ih h
    | stop r s₁ =>
      obtain ⟨rfl, rfl⟩ : r = .code code ∧ s₁ = s' := by
        cases h
        exact ⟨rfl, rfl⟩
      exact turn_code ht

/-- How `process_read` gets to its code. -/
theorem processRead_cases {w w' : World} {c c' : HttpConn} {code : HttpCode}
    (h : c.processRead w = .ok (w', c', code)) :
    (∃ s, Http.processRead c.parser = .ok (.code code, s) ∧ c' = { c with parser := s }) ∨
    (∃ s s' real path, Http.processRead c.parser = .ok (.doRequest, s) ∧
      resolve w s c.realFile = .ok (w', s', real) ∧ cstring real filenameLen 0 = .ok path ∧
      HttpConn.openFile w' { c with parser := s', realFile := real } path = (c', code)) := by
  unfold HttpConn.processRead at h
  rw [bind_ok] at h
  obtain ⟨⟨r, s⟩, hr, h⟩ := h
  cases r with
  | code code' =>
    cases h
    exact Or.inl ⟨s, hr, rfl⟩
  | doRequest =>
    simp only [HttpConn.doRequest] at h
    rw [bind_ok] at h
    obtain ⟨⟨w₁, s', real⟩, hresolve, h⟩ := h
    rw [bind_ok] at h
    obtain ⟨path, hpath, h⟩ := h
    cases h
    exact Or.inr ⟨s, s', real, path, hr, hresolve, hpath, rfl⟩

/-- What has been written and sent of a response stays. -/
structure SameOutput (c c' : HttpConn) : Prop where
  writeBuf : c'.writeBuf = c.writeBuf
  bytesHaveSend : c'.bytesHaveSend = c.bytesHaveSend

theorem openFile_sameOutput (w : World) (c : HttpConn) (path : List UInt8) :
    SameOutput c (HttpConn.openFile w c path).1 := by
  unfold HttpConn.openFile
  split
  · exact ⟨rfl, rfl⟩
  · dsimp only
    split
    · exact ⟨rfl, rfl⟩
    split
    · exact ⟨rfl, rfl⟩
    · exact ⟨rfl, rfl⟩

theorem processRead_sameOutput {w w' : World} {c c' : HttpConn} {code : HttpCode}
    (h : c.processRead w = .ok (w', c', code)) : SameOutput c c' := by
  rcases processRead_cases h with ⟨s, -, rfl⟩ | ⟨s, s', real, path, -, -, -, hopen⟩
  · exact ⟨rfl, rfl⟩
  · have hsame := openFile_sameOutput w' { c with parser := s', realFile := real } path
    rw [hopen] at hsame
    exact ⟨hsame.writeBuf, hsame.bytesHaveSend⟩

/-- As long as a request is being received, the write buffer is empty and nothing has been sent. -/
theorem Receiving.unsent {c : HttpConn} (h : Receiving c) :
    c.writeBuf = [] ∧ c.bytesHaveSend = 0 := by
  induction h with
  | init c => exact ⟨rfl, rfl⟩
  | read recv _ ih => exact ih
  | wait _ hp ih =>
    unfold HttpConn.process at hp
    rw [bind_ok] at hp
    obtain ⟨⟨w₁, c₁, code⟩, hread, hp⟩ := hp
    by_cases hcode : code = .noRequest
    · simp only [HttpConn.answer, if_pos hcode] at hp
      cases hp
      have hsame := processRead_sameOutput hread
      exact ⟨hsame.writeBuf.trans ih.1, hsame.bytesHaveSend.trans ih.2⟩
    · simp only [HttpConn.answer, if_neg hcode] at hp
      generalize c₁.processWrite code = r at hp
      obtain ⟨c₂, ok⟩ := r
      cases ok with
      | false => cases hp
      | true => cases hp

theorem answer_ok {c : HttpConn} {code : HttpCode} (hcode : code ≠ .noRequest)
    (h : (c.processWrite code).2 = true) :
    c.answer code = ((c.processWrite code).1, .modfd .epollout) := by
  unfold HttpConn.answer
  rw [if_neg hcode]
  generalize c.processWrite code = r at h
  obtain ⟨c', ok⟩ := r
  obtain rfl : ok = true := h
  rfl

theorem answer_failed {c : HttpConn} {code : HttpCode} (hcode : code ≠ .noRequest)
    (h : (c.processWrite code).2 = false) : (c.answer code).2 = .closeConn := by
  unfold HttpConn.answer
  rw [if_neg hcode]
  generalize c.processWrite code = r at h
  obtain ⟨c', ok⟩ := r
  obtain rfl : ok = false := h
  rfl

theorem not_answered_closeConn {code : HttpCode} {c : HttpConn} :
    ¬ Answered code c .closeConn := by
  rintro ⟨h, -, -⟩
  cases h

theorem fits_badRequest (linger : Bool) :
    (responseHead 404 error404Title error404Form.length linger).length + error404Form.length <
      writeBufferSize - 1 := by
  decide +kernel +revert

theorem fits_forbidden (linger : Bool) :
    (responseHead 403 error403Title error403Form.length linger).length + error403Form.length <
      writeBufferSize - 1 := by
  decide +kernel +revert

theorem fits_internalError (linger : Bool) :
    (responseHead 500 error500Title error500Form.length linger).length + error500Form.length <
      writeBufferSize - 1 := by
  decide +kernel +revert

/-- An error in the request is reported as 404. -/
theorem not_answered_badRequest {c : HttpConn} (hc : c.writeBuf = []) :
    ¬ Answered .badRequest (c.answer .badRequest).1 (c.answer .badRequest).2 := by
  obtain ⟨text, htext, hwrite⟩ := addError_ok hc 404 error404Title error404Form (fits_badRequest _)
  have hcase : c.processWrite .badRequest = c.addError 404 error404Title error404Form := rfl
  rw [← hcase] at hwrite
  rw [answer_ok (by decide) (by rw [hwrite]), hwrite]
  dsimp only
  intro h
  have hstatus := (answered_useWriteBuf 404 (by decide) _ _ htext).mp h
  exact absurd hstatus (by decide)

theorem answered_forbidden {c : HttpConn} (hc : c.writeBuf = []) :
    Answered .forbiddenRequest (c.answer .forbiddenRequest).1 (c.answer .forbiddenRequest).2 := by
  obtain ⟨text, htext, hwrite⟩ := addError_ok hc 403 error403Title error403Form (fits_forbidden _)
  have hcase : c.processWrite .forbiddenRequest = c.addError 403 error403Title error403Form := rfl
  rw [← hcase] at hwrite
  rw [answer_ok (by decide) (by rw [hwrite]), hwrite]
  dsimp only
  exact (answered_useWriteBuf 403 (by decide) _ _ htext).mpr rfl

/-- The answers to a request that has reached `stat`. -/
theorem answered_openFile {w : World} {c c' : HttpConn} {path : List UInt8} {code : HttpCode}
    (hc : c.writeBuf = []) (h : HttpConn.openFile w c path = (c', code)) :
    Answered code (c'.answer code).1 (c'.answer code).2 ↔
      ∃ node, w.file path = some node ∧ node.Answerable c.parser.linger := by
  unfold HttpConn.openFile at h
  cases hnode : w.file path with
  | none =>
    simp only [hnode, Prod.mk.injEq] at h
    obtain ⟨rfl, rfl⟩ := h
    rw [answer_failed (by decide) rfl]
    simp [not_answered_closeConn]
  | some node =>
    simp only [hnode] at h
    have hone : (∃ node', some node = some node' ∧ node'.Answerable c.parser.linger) ↔
        node.Answerable c.parser.linger := by simp
    rw [hone, FileNode.Answerable]
    split at h
    · rename_i hread
      obtain ⟨rfl, rfl⟩ := Prod.mk.inj h
      exact iff_of_true (answered_forbidden hc) (Or.inl hread)
    rename_i hread
    split at h
    · rename_i hdir
      obtain ⟨rfl, rfl⟩ := Prod.mk.inj h
      refine iff_of_false (not_answered_badRequest hc) ?_
      rintro (h | ⟨h, -⟩)
      · exact hread h
      · rw [hdir] at h
        cases h
    rename_i hdir
    obtain ⟨rfl, rfl⟩ := Prod.mk.inj h
    by_cases hsize : node.stat.size = 0
    · rw [answer_failed (by decide) (processWrite_empty hsize)]
      refine iff_of_false not_answered_closeConn ?_
      rintro (h | ⟨-, h, -⟩)
      · exact hread h
      · obtain ⟨content, hcontent⟩ := Option.isSome_iff_exists.mp h
        have := (node.mapping_length content hcontent).2
        omega
    · obtain ⟨head, -, hresult⟩ := processWrite_file (c := { c with
          fileStat := node.stat
          fileAddress := node.mmap }) hc hsize
      have hanswer := answered_file (c := { c with
          fileStat := node.stat
          fileAddress := node.mmap }) hc hsize node rfl rfl
      rw [answer_ok (by decide) (by rw [hresult]), hanswer]
      simp [hread, hdir]

theorem process_of_processRead {w w' : World} {c c' : HttpConn} {code : HttpCode}
    (h : c.processRead w = .ok (w', c', code)) :
    c.process w = .ok (w', (c'.answer code).1, (c'.answer code).2) := by
  unfold HttpConn.process
  rw [h]
  rfl

/-- **Every completed request is answered** if and only if it is answerable. -/
theorem answered_iff {w w' : World} {c c' : HttpConn} {code : HttpCode} (hc : Receiving c)
    (hread : c.processRead w = .ok (w', c', code)) (hcode : code ≠ .noRequest) :
    (∃ c'' effect, c.process w = .ok (w', c'', effect) ∧ Answered code c'' effect) ↔
      Answerable w c := by
  have hprocess : (∃ c'' effect, c.process w = .ok (w', c'', effect) ∧ Answered code c'' effect) ↔
      Answered code (c'.answer code).1 (c'.answer code).2 := by
    rw [process_of_processRead hread]
    constructor
    · rintro ⟨c'', effect, h, hans⟩
      cases h
      exact hans
    · exact fun hans => ⟨_, _, rfl, hans⟩
  rw [hprocess]
  have hbuf := (processRead_sameOutput hread).writeBuf.trans hc.unsent.1
  rcases processRead_cases hread with ⟨s, hparse, rfl⟩ | ⟨s, s', real, path, hparse, hresolve,
    hpath, hopen⟩
  · -- the parser has found an error
    obtain rfl : code = .badRequest := (processReadLoop_code hparse).resolve_left hcode
    refine iff_of_false (not_answered_badRequest hbuf) ?_
    rintro ⟨s', w₁, s₁, real, path, node, hdo, -⟩
    rw [hparse] at hdo
    cases hdo
  · rw [answered_openFile (c := { c with parser := s', realFile := real }) hc.unsent.1 hopen]
    constructor
    · rintro ⟨node, hnode, hans⟩
      exact ⟨s, w', s', real, path, node, hparse, hresolve, hpath, hnode, hans⟩
    · rintro ⟨s₁, w₁, s₂, real₁, path₁, node, hdo, hres, hpath₁, hnode, hans⟩
      rw [hparse] at hdo
      cases hdo
      rw [hresolve] at hres
      cases hres
      rw [hpath] at hpath₁
      cases hpath₁
      exact ⟨node, hnode, hans⟩

-- ---------------------------------------------------------------------------
-- A site with one page
-- ---------------------------------------------------------------------------

def logPage : FileNode where
  stat := ⟨2, true, false⟩
  mapping := some (bytes "ok")
  mapping_length := by
    intro content h
    obtain rfl := Option.some.inj h
    decide

/-- A world whose only file is `/log.html`, without users. -/
def onePage : World where
  file := fun path => if path = docRoot ++ bytes "/log.html" then some logPage else none
  users := fun _ => none
  mysqlQuery := fun _ => true

/-- A fresh object that has received `bs`. -/
def HttpConn.received (bs : List UInt8) : HttpConn :=
  (HttpConn.constructed.init.readOnce (.data bs)).1

theorem receiving_received (bs : List UInt8) : Receiving (HttpConn.received bs) :=
  .read _ (.init _)

/-- The code that `process_read` returns. -/
def HttpConn.codeOf (w : World) (c : HttpConn) : Option HttpCode :=
  match c.processRead w with
  | .ok (_, _, code) => some code
  | .error _ => none

theorem processRead_of_codeOf {w : World} {c : HttpConn} {code : HttpCode}
    (h : c.codeOf w = some code) : ∃ w' c', c.processRead w = .ok (w', c', code) := by
  unfold HttpConn.codeOf at h
  split at h
  · rename_i w' c' code' hread
    obtain rfl := Option.some.inj h
    exact ⟨w', c', hread⟩
  · cases h

/-- The page is there. -/
theorem answered_iff_logPage : ∃ w' c',
    (HttpConn.received (bytes "GET /1 HTTP/1.1\r\n\r\n")).processRead onePage =
      .ok (w', c', .fileRequest) ∧
    ((∃ c'' effect, (HttpConn.received (bytes "GET /1 HTTP/1.1\r\n\r\n")).process onePage =
        .ok (w', c'', effect) ∧ Answered .fileRequest c'' effect) ↔
      Answerable onePage (HttpConn.received (bytes "GET /1 HTTP/1.1\r\n\r\n"))) := by
  have hcode : (HttpConn.received (bytes "GET /1 HTTP/1.1\r\n\r\n")).codeOf onePage =
      some .fileRequest := by decide +kernel
  obtain ⟨w', c', hread⟩ := processRead_of_codeOf hcode
  exact ⟨w', c', hread, answered_iff (receiving_received _) hread (by decide)⟩

/-- Any other is not answered at all. -/
theorem missing_file_not_answered : ¬ ∀ (w w' : World) (c c' : HttpConn) (code : HttpCode),
    Receiving c → c.processRead w = .ok (w', c', code) → code ≠ .noRequest →
      ∃ c'' effect, c.process w = .ok (w', c'', effect) ∧ Answered code c'' effect := by
  intro hall
  have hcode : (HttpConn.received (bytes "GET /a HTTP/1.1\r\n\r\n")).codeOf onePage =
      some .noResource := by decide +kernel
  obtain ⟨w', c', hread⟩ := processRead_of_codeOf hcode
  obtain ⟨c'', effect, hprocess, hans⟩ :=
    hall onePage w' _ c' .noResource (receiving_received _) hread (by decide)
  rw [process_of_processRead hread, answer_failed (by decide) rfl] at hprocess
  cases hprocess
  exact not_answered_closeConn hans

end TinyHTTP.Http
