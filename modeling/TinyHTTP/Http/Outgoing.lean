import TinyHTTP.Http.Isolation
import TinyHTTP.Http.RequestedFile

/-!
# TinyHTTP — a response on its way

`process` prepares a response in an object: the head, and the body of an error, in the
write buffer, a file in its mapping. Each call of `write` then hands parts of the two to
the socket; here are the bytes.

* `process_carries` — what `process` arms a connection for is a response that announces
  its length.
* `Outgoing.stream_eq` — the calls of `write` put a beginning of it on the wire.
-/

namespace TinyHTTP.Http

open TinyHTTP.Lib

/-- The byte that is taken from a location. -/
def HttpConn.byteAt (c : HttpConn) : Loc → Option UInt8
  | .writeBuf i => c.writeBuf[i]?
  | .file i =>
    match c.fileAddress with
    | .mapped content => if 0 ≤ i then content[i.toNat]? else none
    | .null | .mapFailed => none

/-- A response that is being sent: the object that `process_write` has prepared, and the results
of the `writev` calls of each `write`. Neither the write buffer nor the mapping changes
meanwhile. -/
structure Outgoing where
  conn : HttpConn
  calls : List (List Writev)

/-- The bytes on the wire. -/
def Outgoing.stream (s : Outgoing) : Option (List UInt8) :=
  (sendRun s.calls s.conn).bind fun (sent, _) => sent.mapM s.conn.byteAt

/-- The files that are sent can be mapped, and have a size that fits the counters of `write`. -/
def World.Servable (w : World) : Prop :=
  ∀ path node, w.file path = some node → node.stat.othersRead = true → node.stat.isDir = false →
    node.stat.size ≠ 0 → node.mapping.isSome = true ∧ node.stat.size + 70 < 2 ^ 31

/-- The response to a request whose path is in `m_real_file`; `none` closes the connection. -/
def World.respond (w : World) (path : List UInt8) (keep : Bool) : Option Response :=
  match w.file path with
  | none => none
  | some node =>
    if node.stat.othersRead = false then
      some ⟨403, error403Title, responseHeaders error403Form.length keep, error403Form⟩
    else if node.stat.isDir = true then
      some ⟨404, error404Title, responseHeaders error404Form.length keep, error404Form⟩
    else if node.stat.size = 0 then none
    else node.mapping.map fun content =>
      ⟨200, ok200Title, responseHeaders content.length keep, content⟩

/-- Nothing of a response is in the object. -/
def HttpConn.Unsent (c : HttpConn) : Prop := c.writeBuf = [] ∧ c.bytesHaveSend = 0

/-- The object is ready to send the response: the head, and the body of an error, are in the write
buffer, a file is mapped. -/
structure Carries (c : HttpConn) (r : Response) : Prop where
  complete : r.Complete
  headers : r.headers = responseHeaders r.body.length c.parser.linger
  kind : (r.status = 200 ∧ c.fileAddress = .mapped r.body) ∨
    (r.status = 403 ∧ r.body = error403Form) ∨ (r.status = 404 ∧ r.body = error404Form)
  small : r.bytes.length < 2 ^ 31
  parts : ∃ file, r.bytes = c.writeBuf ++ file ∧ Prepared c file.length ∧
    (file ≠ [] → c.fileAddress = .mapped file)

-- ---------------------------------------------------------------------------
-- What process prepares
-- ---------------------------------------------------------------------------

/-- `process` reads, and answers what it has read. -/
theorem process_ok_iff {w w' : World} {c d : HttpConn} {effect : ProcessEffect} :
    c.process w = .ok (w', d, effect) ↔
      ∃ c₁ code, c.processRead w = .ok (w', c₁, code) ∧ c₁.answer code = (d, effect) := by
  unfold HttpConn.process
  rw [bind_ok]
  constructor
  · rintro ⟨⟨w₁, c₁, code⟩, hread, h⟩
    cases h
    exact ⟨c₁, code, hread, rfl⟩
  · rintro ⟨c₁, code, hread, hanswer⟩
    refine ⟨⟨w', c₁, code⟩, hread, ?_⟩
    dsimp only
    rw [hanswer]
    rfl

/-- Only the users change. -/
theorem check_file {w w' : World} {flag : UInt8} {name password page : List UInt8}
    (h : w.check flag name password = .ok (w', page)) : w'.file = w.file := by
  unfold World.check at h
  split at h
  · split at h
    · have hregister := Except.ok.inj h
      unfold World.register at hregister
      split at hregister
      · exact (Prod.mk.inj hregister).1 ▸ rfl
      · exact (Prod.mk.inj hregister).1 ▸ rfl
    · cases h
  · exact (Prod.mk.inj (Except.ok.inj h)).1 ▸ rfl

/-- A registration changes the users, and no file. -/
theorem resolve_file {w w' : World} {s s' : Parser} {real real' : Mem}
    (h : resolve w s real = .ok (w', s', real')) : w'.file = w.file := by
  unfold resolve at h
  dsimp only at h
  split at h
  · cases h
  · rename_i url hurl
    obtain ⟨p, hp, h⟩ := bind_ok.mp h
    cases p with
    | none => cases h
    | some p =>
      obtain ⟨⟨w₁, s₁, real₁⟩, hbranch, h⟩ := bind_ok.mp h
      obtain ⟨real₂, -, h⟩ := bind_ok.mp h
      cases h
      unfold cgiBranch at hbranch
      split at hbranch
      · obtain ⟨rest, text, name, password, page, -, -, -, -, hcheck, -⟩ := cgiRequest_ok hbranch
        exact check_file hcheck
      · cases hbranch
        rfl

/-- `process` leaves the files alone. -/
theorem process_file {w w' : World} {c c' : HttpConn} {effect : ProcessEffect}
    (h : c.process w = .ok (w', c', effect)) : w'.file = w.file := by
  obtain ⟨c₁, code, hread, -⟩ := process_ok_iff.mp h
  rcases processRead_cases hread with ⟨s, hparse, -⟩ | ⟨s, s', real, path, -, hresolve, -, -⟩
  · unfold HttpConn.processRead at hread
    rw [hparse] at hread
    cases hread
    rfl
  · exact resolve_file hresolve

theorem World.Servable.congr {w w' : World} (h : w.Servable) (hfile : w'.file = w.file) :
    w'.Servable := by
  intro path node hnode
  rw [hfile] at hnode
  exact h path node hnode

/-- An error page. -/
theorem carries_addError {c : HttpConn} (hc : c.Unsent) {status : Nat}
    {title form : List UInt8} (htitle : NoBreak title)
    (hkind : (status = 403 ∧ form = error403Form) ∨ (status = 404 ∧ form = error404Form))
    (hfit : (responseHead status title form.length c.parser.linger).length + form.length <
      writeBufferSize - 1) :
    (c.addError status title form).2 = true ∧ Carries (c.addError status title form).1
      ⟨status, title, responseHeaders form.length c.parser.linger, form⟩ := by
  obtain ⟨hbuf, hsend⟩ := hc
  obtain ⟨text, htext, hwrite⟩ := addError_ok hbuf status title form hfit
  rw [hwrite]
  have hsep := separable_response status htitle form.length c.parser.linger form
  refine ⟨rfl, ⟨hsep, (announces_iff ..).mpr rfl⟩, rfl, .inr hkind, ?_, [], ?_, ?_, ?_⟩
  · have hbuffer : writeBufferSize = 1024 := rfl
    rw [← responseHead_bytes, List.length_append]
    omega
  · rw [List.append_nil, ← responseHead_bytes, ← htext]
    rfl
  · exact prepared_useWriteBuf hsend hfit htext
  · exact fun h => absurd rfl h

/-- The page of a bad request has the status of a missing file. -/
theorem carries_badRequest {c : HttpConn} (hc : c.Unsent) :
    (c.processWrite .badRequest).2 = true ∧ Carries (c.processWrite .badRequest).1
      ⟨404, error404Title, responseHeaders error404Form.length c.parser.linger, error404Form⟩ :=
  carries_addError hc (by decide) (.inr ⟨rfl, rfl⟩) (fits_badRequest _)

theorem carries_forbidden {c : HttpConn} (hc : c.Unsent) :
    (c.processWrite .forbiddenRequest).2 = true ∧ Carries (c.processWrite .forbiddenRequest).1
      ⟨403, error403Title, responseHeaders error403Form.length c.parser.linger, error403Form⟩ :=
  carries_addError hc (by decide) (.inl ⟨rfl, rfl⟩) (fits_forbidden _)

/-- A file. -/
theorem carries_file {c : HttpConn} (hc : c.Unsent) {content : List UInt8}
    (hfile : c.fileAddress = .mapped content) (hsize : content.length = c.fileStat.size)
    (hne : c.fileStat.size ≠ 0) (hsmall : c.fileStat.size + 70 < 2 ^ 31) :
    (c.processWrite .fileRequest).2 = true ∧ Carries (c.processWrite .fileRequest).1
      ⟨200, ok200Title, responseHeaders content.length c.parser.linger, content⟩ := by
  obtain ⟨hbuf, hsend⟩ := hc
  obtain ⟨head, hhead, hwrite⟩ := processWrite_file hbuf hne
  have hprepared := prepared_processWrite hbuf hsend hwrite
  rw [hwrite]
  rw [if_pos rfl] at hprepared
  have hlen := length_fileHead c.fileStat.size c.parser.linger
  rw [← hhead] at hlen
  rw [toInt32_of_lt (by omega), ← hsize] at hhead
  have hsep := separable_response 200 (show NoBreak ok200Title by decide) content.length
    c.parser.linger content
  refine ⟨rfl, ⟨hsep, (announces_iff ..).mpr rfl⟩, rfl, .inl ⟨rfl, hfile⟩, ?_, content, ?_, ?_,
    fun _ => hfile⟩
  · rw [← responseHead_bytes, ← hhead, List.length_append]
    omega
  · rw [← responseHead_bytes, ← hhead]
  · rw [hsize]
    exact hprepared

/-- **What comes of a path**: the response that is due is ready, or the connection is closed. -/
theorem openFile_carries {w : World} {c c₁ : HttpConn} {path : List UInt8} {code : HttpCode}
    (hc : c.Unsent) (hserv : w.Servable) (h : HttpConn.openFile w c path = (c₁, code)) :
    (∀ r, w.respond path c.parser.linger = some r →
      (c₁.processWrite code).2 = true ∧ Carries (c₁.processWrite code).1 r) ∧
    (w.respond path c.parser.linger = none → (c₁.processWrite code).2 = false) := by
  unfold HttpConn.openFile at h
  unfold World.respond
  cases hnode : w.file path with
  | none =>
    simp only [hnode] at h
    obtain ⟨rfl, rfl⟩ := Prod.mk.inj h
    exact ⟨(fun r hr => by cases hr), fun _ => rfl⟩
  | some node =>
    simp only [hnode] at h
    dsimp only
    have hunsent : HttpConn.Unsent { c with fileStat := node.stat } := hc
    by_cases hread : node.stat.othersRead = false
    · rw [if_pos hread] at h
      obtain ⟨rfl, rfl⟩ := Prod.mk.inj h
      rw [if_pos hread]
      exact ⟨fun r hr => Option.some.inj hr ▸ carries_forbidden hunsent, fun hr => by cases hr⟩
    rw [if_neg hread] at h
    rw [if_neg hread]
    by_cases hdir : node.stat.isDir = true
    · rw [if_pos hdir] at h
      obtain ⟨rfl, rfl⟩ := Prod.mk.inj h
      rw [if_pos hdir]
      exact ⟨fun r hr => Option.some.inj hr ▸ carries_badRequest hunsent, fun hr => by cases hr⟩
    rw [if_neg hdir] at h
    rw [if_neg hdir]
    obtain ⟨rfl, rfl⟩ := Prod.mk.inj h
    by_cases hempty : node.stat.size = 0
    · rw [if_pos hempty]
      exact ⟨(fun r hr => by cases hr), fun _ => processWrite_empty hempty⟩
    rw [if_neg hempty]
    obtain ⟨hmapped, hsmall⟩ := hserv path node hnode (by simpa using hread)
      (by simpa using hdir) hempty
    obtain ⟨content, hcontent⟩ := Option.isSome_iff_exists.mp hmapped
    obtain ⟨hlength, -⟩ := node.mapping_length content hcontent
    have haddress : node.mmap = .mapped content := by simp only [FileNode.mmap, hcontent]
    rw [hcontent]
    have hcarries := carries_file
      (c := { c with fileStat := node.stat, fileAddress := node.mmap }) hc haddress hlength hempty
      hsmall
    exact ⟨fun r hr => Option.some.inj hr ▸ hcarries, fun hr => by cases hr⟩

/-- **What is armed for `EPOLLOUT` is a response.** -/
theorem process_carries {w w' : World} {c c' : HttpConn} (hc : c.Unsent) (hserv : w.Servable)
    (h : c.process w = .ok (w', c', .modfd .epollout)) : ∃ r, Carries c' r := by
  obtain ⟨c₁, code, hread, hanswer⟩ := process_ok_iff.mp h
  have hcode : code ≠ .noRequest := by
    rintro rfl
    rw [HttpConn.answer, if_pos rfl] at hanswer
    cases hanswer
  have hok : (c₁.processWrite code).2 = true := by
    by_contra hfail
    have hclose := answer_failed hcode (Bool.eq_false_iff.mpr hfail)
    rw [hanswer] at hclose
    cases hclose
  obtain rfl : (c₁.processWrite code).1 = c' := by
    rw [answer_ok hcode hok] at hanswer
    exact (Prod.mk.inj hanswer).1
  rcases processRead_cases hread with ⟨s, hparse, rfl⟩ | ⟨s, s', real, path, -, hresolve, -, hopen⟩
  · obtain rfl : code = .badRequest := (processReadLoop_code hparse).resolve_left hcode
    have hunsent : HttpConn.Unsent { c with parser := s } := hc
    exact ⟨_, (carries_badRequest hunsent).2⟩
  · have hunsent : HttpConn.Unsent { c with parser := s', realFile := real } := hc
    generalize ({ c with parser := s', realFile := real } : HttpConn) = d at hopen hunsent
    obtain ⟨hresponse, hclosed⟩ := openFile_carries hunsent
      (hserv.congr (resolve_file hresolve)) hopen
    cases hdue : w'.respond path d.parser.linger with
    | none =>
      rw [hclosed hdue] at hok
      cases hok
    | some r => exact ⟨r, (hresponse r hdue).2⟩

/-- A response has a status line at least. -/
theorem Carries.toSend {c : HttpConn} {r : Response} (h : Carries c r) : c.bytesToSend ≠ 0 := by
  obtain ⟨file, hbytes, hprepared, -⟩ := h.parts
  have hsmall := h.small
  have hhead := hprepared.head
  rw [hbytes, List.length_append] at hsmall
  rw [hprepared.toSend, ← Int.natCast_add, toInt32_of_lt hsmall]
  omega

/-- `m_iv` describes the response. -/
theorem Carries.described {c : HttpConn} {r : Response} (h : Carries c r) :
    c.described = some r.bytes := by
  obtain ⟨file, hbytes, hprepared, hmapped⟩ := h.parts
  have hhead : c.ioBytes c.iv0 = some c.writeBuf := by
    rw [hprepared.iv0]
    simp [HttpConn.ioBytes]
  rw [hbytes, HttpConn.described, HttpConn.iovecs]
  rcases hprepared.iv1 with ⟨hnone, hcount⟩ | ⟨hpos, hcount, hfile⟩
  · obtain rfl := List.eq_nil_of_length_eq_zero hnone
    rw [hcount]
    simp [hhead]
  · have hmap := hmapped (List.ne_nil_of_length_pos hpos)
    have hbody : c.ioBytes c.iv1 = some file := by
      rw [hfile]
      simp [HttpConn.ioBytes, hmap]
    rw [hcount]
    simp [hhead, hbody]

theorem unsent_readOnce {c : HttpConn} (h : c.Unsent) (recv : Recv) :
    (c.readOnce recv).1.Unsent := h

/-- A request that is not complete is answered by nothing. -/
theorem unsent_wait {w w' : World} {c c' : HttpConn} (hc : c.Unsent)
    (h : c.process w = .ok (w', c', .modfd .epollin)) : c'.Unsent := by
  obtain ⟨c₁, code, hread, hanswer⟩ := process_ok_iff.mp h
  by_cases hcode : code = .noRequest
  · rw [HttpConn.answer, if_pos hcode] at hanswer
    obtain ⟨rfl, -⟩ := Prod.mk.inj hanswer
    have hsame := processRead_sameOutput hread
    exact ⟨hsame.writeBuf.trans hc.1, hsame.bytesHaveSend.trans hc.2⟩
  · cases hok : (c₁.processWrite code).2 with
    | true =>
      rw [answer_ok hcode hok] at hanswer
      cases hanswer
    | false =>
      have hclose := answer_failed hcode hok
      rw [hanswer] at hclose
      cases hclose

-- ---------------------------------------------------------------------------
-- What the calls of write send
-- ---------------------------------------------------------------------------

/-- `mapM` succeeds when it does at every place. -/
theorem mapM_eq_some {α β : Type} {f : α → Option β} {xs : List α} {ys : List β} :
    xs.mapM f = some ys ↔ List.Forall₂ (fun x y => f x = some y) xs ys := by
  induction xs generalizing ys with
  | nil =>
    rw [List.mapM_nil, List.forall₂_nil_left_iff]
    exact ⟨fun h => (Option.some.inj h).symm, fun h => congrArg some h.symm⟩
  | cons x xs ih =>
    rw [List.mapM_cons, List.forall₂_cons_left_iff]
    constructor
    · intro h
      obtain ⟨y, hy, h⟩ := Option.bind_eq_some_iff.mp h
      obtain ⟨ys', hys, h⟩ := Option.bind_eq_some_iff.mp h
      exact ⟨y, ys', hy, ih.mp hys, (Option.some.inj h).symm⟩
    · rintro ⟨y, ys', hy, hys, rfl⟩
      rw [hy, ih.mpr hys]
      rfl

/-- The bytes that are taken from a beginning of the response. -/
theorem byteAt_segment {c : HttpConn} {file : List UInt8}
    (hmapped : file ≠ [] → c.fileAddress = .mapped file) {n : Nat}
    (hn : n ≤ (c.writeBuf ++ file).length) :
    (segment c.writeBuf.length 0 n).mapM c.byteAt = some ((c.writeBuf ++ file).take n) := by
  rw [mapM_eq_some, List.forall₂_iff_get]
  refine ⟨by rw [length_segment, List.length_take_of_le hn], fun i hi hi' => ?_⟩
  rw [length_segment] at hi
  simp only [List.get_eq_getElem, segment, List.getElem_map, List.getElem_range, Nat.zero_add,
    List.getElem_take, locAt]
  split
  · rename_i hhead
    simp only [HttpConn.byteAt, List.getElem?_eq_getElem hhead, List.getElem_append_left hhead]
  · rename_i hhead
    have hlt : i - c.writeBuf.length < file.length := by
      rw [List.length_append] at hn
      omega
    have hfile : file ≠ [] := List.ne_nil_of_length_pos (by omega)
    have hindex : ((i : Int) - (c.writeBuf.length : Int)).toNat = i - c.writeBuf.length := by omega
    simp only [HttpConn.byteAt, hmapped hfile, hindex, List.getElem?_eq_getElem hlt]
    rw [if_pos (by omega), List.getElem_append_right (by omega)]

/-- The calls go through the response from its beginning, and report completion at its end. -/
theorem sendRun_begins {c : HttpConn} {S : Nat} (h : Prepared c S)
    (hsmall : c.writeBuf.length + S < 2 ^ 31) {calls : List (List Writev)} {sent : List Loc}
    {p : Progress} (hok : HeadOk c.writeBuf.length 0 0 (counts calls.flatten))
    (hr : sendRun calls c = some (sent, p)) :
    sent = segment c.writeBuf.length 0 sent.length ∧ sent.length ≤ c.writeBuf.length + S ∧
      (p = .completed ↔ sent.length = c.writeBuf.length + S) := by
  have hhead := h.head
  obtain ⟨hsent, hdone⟩ := sendRun_sent h.sendState hr
  have hint : toInt32 ((c.writeBuf.length : Int) + S) = ((c.writeBuf.length + S : Nat) : Int) := by
    rw [← toInt32_of_lt hsmall, Int.natCast_add]
  have hle := hsent.bound hint (toInt32_lt _) (Nat.zero_le _)
  rw [hsent.length]
  refine ⟨hsent.right.mpr hok, by omega, hdone.trans ?_⟩
  rw [hint]
  constructor
  · rintro (⟨-, h0⟩ | ⟨-, hge⟩) <;> omega
  · intro hsum
    refine .inr ⟨fun hnil => ?_, by omega⟩
    rw [hnil, List.sum_nil] at hsum
    omega

/-- **The calls put a beginning of the response on the wire**, and report completion when it is all
of it. -/
theorem Outgoing.stream_eq {s : Outgoing} {r : Response} (h : Carries s.conn r)
    (hok : HeadOk s.conn.writeBuf.length 0 0 (counts s.calls.flatten)) {sent : List Loc}
    {p : Progress} (hr : sendRun s.calls s.conn = some (sent, p)) :
    ∃ stream, s.stream = some stream ∧ stream <+: r.bytes ∧
      (p = .completed ↔ stream = r.bytes) := by
  obtain ⟨file, hbytes, hprepared, hmapped⟩ := h.parts
  have hsmall := h.small
  rw [hbytes, List.length_append] at hsmall
  obtain ⟨hsegment, hle, hdone⟩ := sendRun_begins hprepared hsmall hok hr
  have hn : sent.length ≤ (s.conn.writeBuf ++ file).length := by
    rw [List.length_append]
    exact hle
  have htake := byteAt_segment hmapped hn
  refine ⟨(s.conn.writeBuf ++ file).take sent.length, ?_, ?_, ?_⟩
  · simp only [Outgoing.stream, hr, Option.bind_some]
    rw [← htake, ← hsegment]
  · rw [hbytes]
    exact List.take_prefix ..
  · rw [hdone, hbytes, List.take_eq_self_iff, List.length_append]
    exact ⟨fun hall => hall.ge, fun hge => Nat.le_antisymm hle hge⟩

end TinyHTTP.Http
