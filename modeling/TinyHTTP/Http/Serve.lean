import TinyHTTP.Http.FormBody
import TinyHTTP.Http.Wire

/-!
# TinyHTTP — what the server is for

Without its buffers it is a site with accounts: a link is answered with the file of its
page, a form with the page that says how the login or the registration went, and a
registration adds an account. It answers request after request, until one does not keep
the connection or its file cannot be sent (`World.answers`). The connection of `http_conn`
does that, however the bytes of the requests are cut into segments, as far as no cut is
inside a form where the parser would lose it.

* `resolve_link`, `resolve_form` — the path that `do_request` looks up.
* `session_visit` — a request is answered with the last of its segments.
* `site_served` — a client reads the answers to its requests.
-/

namespace TinyHTTP.Http

open TinyHTTP.Lib

/-- What a user does. -/
inductive Visit where
  | link (g : Get)
  | form (f : Form)

def Visit.ask : Visit → Ask
  | .link g => g.toAsk
  | .form f => f.toAsk

/-- The name of the file for a page. -/
def fileOf (page : List UInt8) : List UInt8 :=
  (flagPage (flagOf page)).getD (page.take urlRoom)

/-- The accounts after a form, and the page that answers. -/
def World.submit (w : World) (f : Form) : World × List UInt8 :=
  if flagOf f.page = 51 then w.register f.name f.password else (w, w.login f.name f.password)

/-- The accounts after a request, and the name of the file that answers. -/
def World.visit (w : World) : Visit → World × List UInt8
  | .link g => (w, fileOf g.page)
  | .form f => w.submit f

def World.answer (w : World) (v : Visit) : Option Response :=
  (w.visit v).1.respond (docRoot ++ (w.visit v).2) v.ask.keeps

/-- The answers to one request after another. -/
def World.answers : World → List Visit → List Response
  | _, [] => []
  | w, v :: vs =>
    match w.answer v with
    | none => []
    | some r => if v.ask.keeps then r :: (w.visit v).1.answers vs else [r]

/-- The request in segments, each with the calls of `write` that would follow it, and no cut inside
a body where the scan would move. -/
structure Delivers (group : List (List UInt8 × List (List Writev))) (v : Visit) : Prop where
  bytes : (group.map Prod.fst).flatten = v.ask.request.bytes
  segs : ∀ step ∈ group, step.1 ≠ []
  cuts : ∀ p q, group.map Prod.fst = p ++ q → q ≠ [] →
    v.ask.request.head.length < p.flatten.length →
      Harmless v.ask.request.body (p.flatten.length - v.ask.request.head.length)

/-- A request in one segment. -/
theorem delivers_whole {v : Visit} {calls : List (List Writev)} (hne : v.ask.request.bytes ≠ []) :
    Delivers [(v.ask.request.bytes, calls)] v where
  bytes := by simp
  segs := by simpa using hne
  cuts := by
    intro p q hsplit hq hlt
    cases p with
    | nil => exact absurd hlt (Nat.not_lt_zero _)
    | cons a p =>
      obtain ⟨-, -, rfl⟩ : a = _ ∧ p = [] ∧ q = [] := by simpa using hsplit.symm
      exact absurd rfl hq

/-- The head and the body in a segment each. -/
theorem delivers_apart {v : Visit} {calls₁ calls₂ : List (List Writev)}
    (hhead : v.ask.request.head ≠ []) (hbody : v.ask.request.body ≠ []) :
    Delivers [(v.ask.request.head, calls₁), (v.ask.request.body, calls₂)] v where
  bytes := by simp [Request.bytes]
  segs := by simpa using ⟨hhead, hbody⟩
  cuts := by
    intro p q hsplit hq hlt
    rcases p with _ | ⟨a, _ | ⟨b, p⟩⟩
    · exact absurd hlt (Nat.not_lt_zero _)
    · obtain ⟨rfl, -⟩ : v.ask.request.head = a ∧ _ := by simpa using hsplit
      simp at hlt
    · obtain ⟨-, -, -, rfl⟩ : a = _ ∧ b = _ ∧ p = [] ∧ q = [] := by simpa using hsplit.symm
      exact absurd rfl hq

-- ---------------------------------------------------------------------------
-- The file of a page
-- ---------------------------------------------------------------------------

theorem byte_headD {m : Mem} {i : Nat} {h : List UInt8} (hs : HasString m i h) :
    m i = h.headD 0 := by
  cases h with
  | nil => exact hs.nul
  | cons b h => exact hs.byte 0 (Nat.zero_lt_succ _)

/-- `*(p + 1)`, where `p` is the last slash. -/
theorem strrchr_page {m : Mem} {u : Nat} {page : List UInt8}
    (hstr : cstring m readBufferSize u = .ok page) (hslash : slash ∈ page) :
    ∃ p, strrchr m readBufferSize u slash = .ok (some p) ∧ m (p + 1) = flagOf page := by
  obtain ⟨k, hk⟩ : ∃ k, page.reverse.idxOf? slash = some k :=
    Option.isSome_iff_exists.mp (List.isSome_idxOf?.mpr (List.mem_reverse.mpr hslash))
  obtain ⟨hlt, hat, hbefore⟩ := List.idxOf?_eq_some_iff.mp hk
  have hlen : k < page.length := by
    rw [List.length_reverse] at hlt
    exact hlt
  have hsplit : page.reverse = page.reverse.take k ++ slash :: page.reverse.drop (k + 1) := by
    rw [← hat, List.getElem_cons_drop, List.take_append_drop]
  have hlast : (page.reverse.takeWhile fun b => !(b == slash)) = page.reverse.take k := by
    have hspan := span_append (p := fun b => !(b == slash)) (a := page.reverse.take k)
      (b := slash :: page.reverse.drop (k + 1)) (fun b hb => ?_) (fun b hb => ?_)
    · rw [← hsplit] at hspan
      exact hspan.1
    · obtain ⟨j, hj, rfl⟩ := List.mem_iff_getElem.mp hb
      rw [List.length_take] at hj
      rw [List.getElem_take]
      simpa using hbefore j (by omega)
    · obtain rfl : slash = b := Option.some.inj hb
      simp
  obtain ⟨hstring, -⟩ := hasString_cstring hstr
  have hflag := byte_headD (hstring.drop (k := page.length - k) (by omega))
  have hrest : page.drop (page.length - k) = (page.reverse.take k).reverse := by
    rw [List.take_reverse, List.reverse_reverse]
  refine ⟨u + (page.length - 1 - k), ?_, ?_⟩
  · rw [strrchr, hstr]
    simp only [bind, Except.bind, hk, Option.map_some]
    rfl
  · rw [flagOf, hlast, ← hrest, ← hflag]
    exact congrArg m (by omega)

/-- **The path of a link.** -/
theorem resolve_link {w : World} {s : Parser} {u : Nat} {page : List UInt8} {keep : Bool}
    (ha : Asks s u page keep false) (hslash : slash ∈ page) :
    ∃ real, resolve w s (fun _ => 0) = .ok (w, s, real) ∧
      cstring real filenameLen 0 = .ok (docRoot ++ fileOf page) := by
  obtain ⟨p, hp, hflag⟩ := strrchr_page ha.page hslash
  have hcgi (flag : UInt8) : ¬ s.IsCgi flag := by
    rintro ⟨hcgi, -⟩
    rw [ha.cgi] at hcgi
    cases hcgi
  have hbranch (real : Mem) : cgiBranch w s real u p = .ok (w, s, real) := if_neg (hcgi _)
  have hpage := fun b hb => (hasString_cstring ha.page).1.nonzero b hb
  have hresolve (real : Mem) (h : pageFile s (writeBytes (fun _ => 0) 0 (docRoot ++ [0])) u p =
      .ok real) : resolve w s (fun _ => 0) = .ok (w, s, real) :=
    resolve_of ha.url hp (hbranch _) h
  cases hfixed : flagPage (s.readBuf (p + 1)) with
  | some fixed =>
    have hchosen : FileChosen w s page (s.readBuf (p + 1)) fixed fixed.length :=
      .page (hcgi _) hfixed
    obtain ⟨-, hnonzero, hpos, hroom⟩ := hchosen.fits hpage
    refine ⟨_, hresolve _ (by unfold pageFile; rw [hfixed]), ?_⟩
    rw [cstring_realFile hnonzero hpos hroom (.inr rfl), List.take_length, fileOf, ← hflag, hfixed]
    rfl
  | none =>
    have hchosen : FileChosen w s page (s.readBuf (p + 1)) page urlRoom := .url (hcgi _) hfixed
    obtain ⟨-, hnonzero, hpos, hroom⟩ := hchosen.fits hpage
    refine ⟨_, hresolve _ (by unfold pageFile; rw [hfixed, ha.page]; rfl), ?_⟩
    show cstring (strncpy _ docRoot.length page urlRoom) filenameLen 0 = _
    rw [cstring_realFile hnonzero hpos hroom (.inr rfl), fileOf, ← hflag, hfixed]
    rfl

/-- What a form does is what `do_request` does with its name and its password. -/
theorem check_form (w : World) (f : Form) :
    w.check (flagOf f.page) f.name f.password = .ok (w.submit f) := by
  unfold World.check World.submit
  split
  · rename_i hflag
    have hfit : (sqlInsert f.name f.password).length + 1 ≤ 200 := by
      have hle := f.sqlFits hflag
      rw [sqlInsert_length]
      omega
    rw [if_pos hfit]
  · rfl

/-- **The path of a form.** -/
theorem resolve_form {w : World} {f : Form} {s : Parser} {u : Nat} (h : f.Complete s u) :
    ∃ s' real, resolve w s (fun _ => 0) = .ok ((w.submit f).1, s', real) ∧
      cstring real filenameLen 0 = .ok (docRoot ++ (w.submit f).2) ∧ s'.linger = f.keeps := by
  have ha := h.holds.asks
  have hbody := h.body
  have hroom := f.room
  have hlength := f.length_bytes
  have hurl := h.holds.url_le
  have hlen := @loginBody_length f.name f.password
  rw [← f.body] at hlen
  obtain ⟨p, hp, hflag⟩ := strrchr_page ha.page f.slash_mem
  have hcgi : s.IsCgi (s.readBuf (p + 1)) := ⟨ha.cgi, hflag ▸ f.kind⟩
  have hcred : credentials s.readBuf f.request.head.length = .ok (f.name, f.password) := by
    refine credentials_body h.string ?_ ?_ ?_ f.nameClean f.passwordClean f.nameFits f.passwordFits
    · rw [← f.body]
      exact h.nul
    · rw [← f.body]
      omega
    · rw [← f.body, Parser.body, h.string]
      exact hbody
  have hcheck := check_form w f
  rw [← hflag] at hcheck
  generalize w.submit f = answer at hcheck ⊢
  obtain ⟨w', page⟩ := answer
  have hpage := check_page hcheck
  have hshort := pages_short hpage
  obtain ⟨s', hresolve⟩ := resolve_cgi ha.url ha.page hp hcgi f.pathFits h.string hcred hcheck
    (by omega) (fun _ => 0)
  have hurlRoom : urlRoom = 169 ∧ docRoot.length + urlRoom < filenameLen := by decide
  refine ⟨s', _, hresolve, ?_, ?_⟩
  · rw [cstring_realFile (pages_fit hpage).2.2 (by omega) hurlRoom.2 (.inl (by omega)),
      List.take_of_length_le (by omega)]
  · obtain ⟨buf, hbuf, -⟩ := resolve_buffer hresolve
    rw [show s' = { s with readBuf := buf } from hbuf]
    exact ha.linger

theorem visit_file (w : World) (v : Visit) : (w.visit v).1.file = w.file := by
  cases v with
  | link g => rfl
  | form f => exact check_file (check_form w f)

-- ---------------------------------------------------------------------------
-- One request
-- ---------------------------------------------------------------------------

/-- **The answer is prepared**, or the connection is closed. -/
theorem process_resolved {w w' : World} {c : HttpConn} {t t' : Parser} {real : Mem}
    {path : List UInt8} (hc : c.Unsent) (hserv : w'.Servable)
    (hrun : Http.processRead c.parser = .ok (.doRequest, t))
    (hresolve : resolve w t c.realFile = .ok (w', t', real))
    (hpath : cstring real filenameLen 0 = .ok path) :
    (∀ r, w'.respond path t'.linger = some r → ∃ c',
      c.process w = .ok (w', c', .modfd .epollout) ∧ Carries c' r ∧
        c'.parser.linger = t'.linger) ∧
    (w'.respond path t'.linger = none → ∃ c', c.process w = .ok (w', c', .closeConn)) := by
  obtain ⟨d, hd⟩ : ∃ d : HttpConn, d = { c with parser := t', realFile := real } := ⟨_, rfl⟩
  have hunsent : d.Unsent := by
    rw [hd]
    exact hc
  have hlinger : d.parser.linger = t'.linger := by rw [hd]
  obtain ⟨c₁, code, hopen⟩ : ∃ c₁ code, HttpConn.openFile w' d path = (c₁, code) := ⟨_, _, rfl⟩
  have hread : c.processRead w = .ok (w', c₁, code) := by
    unfold HttpConn.processRead HttpConn.doRequest
    simp only [hrun, hresolve, hpath, bind, Except.bind]
    rw [← hd, hopen]
    rfl
  have hcode : code ≠ .noRequest := by
    have hne := openFile_code w' d path
    rw [hopen] at hne
    exact hne
  have hparser : (c₁.answer code).1.parser.linger = t'.linger := by
    have hsame := parser_openFile w' d path
    rw [hopen] at hsame
    rw [parser_answer, hsame, hlinger]
  obtain ⟨hresponse, hclosed⟩ := openFile_carries hunsent hserv hopen
  rw [hlinger] at hresponse hclosed
  constructor
  · intro r hr
    obtain ⟨hok, hcarries⟩ := hresponse r hr
    have hanswer := answer_ok hcode hok
    rw [hanswer] at hparser
    exact ⟨_, process_ok_iff.mpr ⟨c₁, code, hread, hanswer⟩, hcarries, hparser⟩
  · intro hnone
    have hclose := answer_failed hcode (hclosed hnone)
    exact ⟨_, process_ok_iff.mpr ⟨c₁, code, hread, Prod.ext rfl hclose⟩⟩

/-- The segments up to the last one are waited behind, and it is the last one that is answered. -/
structure LastSegment (w : World) (c : HttpConn) (group : List (List UInt8 × List (List Writev)))
    (p : Parser) (seg : List UInt8) (calls : List (List Writev)) (t : Parser) : Prop where
  mem : calls ∈ group.map Prod.snd
  read : HttpConn.readOnce { c with parser := p } (.data seg) =
    ({ c with parser := p.deliver seg }, true)
  run : Http.processRead (p.deliver seg) = .ok (.doRequest, t)
  session : ∀ rest, session w c (group ++ rest) =
    session w { c with parser := p } ((seg, calls) :: rest)

section
variable {w : World} {c : HttpConn} {seg : List UInt8} {calls : List (List Writev)}
variable {group : List (List UInt8 × List (List Writev))}

theorem lastSegment_one {t : Parser} (hseg : seg ≠ [])
    (hfit : c.parser.readIdx + seg.length ≤ readBufferSize)
    (hrun : Http.processRead (c.parser.deliver seg) = .ok (.doRequest, t)) :
    LastSegment w c [(seg, calls)] c.parser seg calls t :=
  ⟨List.mem_cons_self .., HttpConn.readOnce_data hseg hfit, hrun, fun _ => rfl⟩

/-- A segment is waited behind. -/
theorem LastSegment.cons {p' p t : Parser} {seg' : List UInt8} {calls' : List (List Writev)}
    (h : LastSegment w { c with parser := p' } group p seg' calls' t) (hseg : seg ≠ [])
    (hfit : c.parser.readIdx + seg.length ≤ readBufferSize)
    (hwait : Http.processRead (c.parser.deliver seg) = .ok (.code .noRequest, p')) :
    LastSegment w c ((seg, calls) :: group) p seg' calls' t := by
  refine ⟨List.mem_cons_of_mem _ h.mem, h.read, h.run, fun rest => ?_⟩
  have hsession := h.session rest
  rw [← hsession, List.cons_append, Http.session, HttpConn.readOnce_data hseg hfit]
  dsimp only
  rw [process_wait w hwait]

/-- A link; induction on the segments. -/
theorem lastSegment_link {t : Parser} (hinv : HeadInv c.parser)
    (hne : group ≠ []) (hsegs : ∀ step ∈ group, step.1 ≠ [])
    (hfit : c.parser.readIdx + (group.map Prod.fst).flatten.length ≤ readBufferSize)
    (hrun : headRun (c.parser.deliver (group.map Prod.fst).flatten) = .ok (.stop .doRequest, t))
    (hall : t.checkedIdx = t.readIdx) :
    ∃ p seg calls, LastSegment w c group p seg calls t := by
  induction group generalizing c with
  | nil => exact absurd rfl hne
  | cons step group ih =>
    obtain ⟨seg, calls⟩ := step
    rw [List.forall_mem_cons] at hsegs
    rw [List.map_cons, List.flatten_cons, List.length_append, ← Nat.add_assoc] at hfit
    rw [List.map_cons, List.flatten_cons] at hrun
    have hseg : seg ≠ [] := hsegs.1
    have hfit₁ : c.parser.readIdx + seg.length ≤ readBufferSize := Nat.le_of_add_right_le hfit
    have hinv₁ := hinv.deliver hfit₁
    cases group with
    | nil =>
      rw [List.map_nil, List.flatten_nil, List.append_nil] at hrun
      exact ⟨_, _, _, lastSegment_one hseg hfit₁ (processRead_stop hinv₁ hrun)⟩
    | cons next group =>
      have hmore : ((next :: group).map Prod.fst).flatten ≠ [] := by
        rw [List.map_cons, List.flatten_cons]
        exact List.append_ne_nil_of_left_ne_nil (hsegs.2 next (List.mem_cons_self ..)) _
      have hcompleted : c.parser.CompletedBy (seg ++ ((next :: group).map Prod.fst).flatten) :=
        ⟨t, hrun, hall⟩
      obtain ⟨s', hwait⟩ := hcompleted.piece hinv hmore (by
        rw [List.length_append, ← Nat.add_assoc]
        exact hfit)
      have hres := headRun_deliver hinv₁ _ hfit
      rw [hwait] at hres
      cases hres with
      | done _ _ _ he => exact absurd rfl he
      | wait _ hinv' _ hread' hrun' =>
        rw [deliver_append, hrun'] at hrun
        have hfit' : s'.readIdx + ((next :: group).map Prod.fst).flatten.length ≤
            readBufferSize := by
          rw [hread']
          exact hfit
        obtain ⟨p, seg', calls', hlast⟩ := ih (c := { c with parser := s' }) hinv'
          (List.cons_ne_nil _ _) hsegs.2 hfit' hrun
        exact ⟨p, seg', calls', hlast.cons hseg hfit₁ (processRead_stop hinv₁ hwait)⟩

/-- A form; induction on the segments. -/
theorem lastSegment_form {f : Form} {n : Nat} (h : Awaits f n c.parser) (hne : group ≠ [])
    (hsegs : ∀ step ∈ group, step.1 ≠ [])
    (hrest : (group.map Prod.fst).flatten = f.request.bytes.drop n)
    (hcuts : ∀ p q, group.map Prod.fst = p ++ q → q ≠ [] →
      f.request.head.length < n + p.flatten.length →
        Harmless f.request.body (n + p.flatten.length - f.request.head.length)) :
    ∃ p seg calls t u, LastSegment w c group p seg calls t ∧ f.Complete t u := by
  induction group generalizing c n with
  | nil => exact absurd rfl hne
  | cons step group ih =>
    obtain ⟨seg, calls⟩ := step
    rw [List.forall_mem_cons] at hsegs
    change seg ++ (group.map Prod.fst).flatten = f.request.bytes.drop n at hrest
    have hseg : seg ≠ [] := hsegs.1
    have hroom := f.room
    have hlen := congrArg List.length hrest
    rw [List.length_append, List.length_drop] at hlen
    have hpos : 0 < seg.length := List.length_pos_iff.mpr hseg
    have hfit : c.parser.readIdx + seg.length ≤ readBufferSize := by
      rw [h.readIdx]
      omega
    cases group with
    | nil =>
      rw [List.map_nil, List.flatten_nil, List.append_nil] at hrest
      obtain ⟨t, u, hrun, hcomplete⟩ := awaits_last h (by omega)
      rw [← hrest] at hrun
      exact ⟨_, _, _, t, u, lastSegment_one hseg hfit hrun, hcomplete⟩
    | cons next group =>
      have hmore : ((next :: group).map Prod.fst).flatten ≠ [] := by
        rw [List.map_cons, List.flatten_cons]
        exact List.append_ne_nil_of_left_ne_nil (hsegs.2 next (List.mem_cons_self ..)) _
      have hpos' := List.length_pos_iff.mpr hmore
      have hsegment : (f.request.bytes.drop n).take seg.length = seg := by
        rw [← hrest, List.take_left]
      have hcut := hcuts [seg] ((next :: group).map Prod.fst) rfl (by simp)
      rw [List.flatten_singleton] at hcut
      obtain ⟨p', hwait, h'⟩ := awaits_step (m := seg.length) h (by omega) hcut
      rw [hsegment] at hwait
      have hrest' : ((next :: group).map Prod.fst).flatten =
          f.request.bytes.drop (n + seg.length) := by
        rw [← List.drop_drop, ← hrest, List.drop_left]
      obtain ⟨p, seg', calls', t, u, hlast, hcomplete⟩ := ih (c := { c with parser := p' }) h'
        (List.cons_ne_nil _ _) hsegs.2 hrest' fun pre q hpq hq hlt => by
          have hlater := hcuts (seg :: pre) q (by rw [List.map_cons, hpq]; rfl) hq
          rw [List.flatten_cons, List.length_append, ← Nat.add_assoc] at hlater
          exact hlater hlt
      exact ⟨p, seg', calls', t, u, hlast.cons hseg hfit hwait, hcomplete⟩

/-- Either way, `do_request` looks up the path of the answer. -/
theorem lastSegment_visit {v : Visit} (w : World) (hc : c.Ready) (hd : Delivers group v) :
    ∃ p seg calls t t' real, LastSegment w c group p seg calls t ∧
      resolve w t (fun _ => 0) = .ok ((w.visit v).1, t', real) ∧
      cstring real filenameLen 0 = .ok (docRoot ++ (w.visit v).2) ∧ t'.linger = v.ask.keeps := by
  obtain ⟨d, htwin⟩ := hc
  have hparser : c.parser = d.parser.init := htwin.parser
  have hne : group ≠ [] := by
    rintro rfl
    have hlen := congrArg List.length hd.bytes
    simp [Request.bytes, Request.head, crlf] at hlen
  cases v with
  | link g =>
    have hbytes : (group.map Prod.fst).flatten = g.request.bytes := hd.bytes
    obtain ⟨t, u, hrun, hall, hasks⟩ := headRun_get g d.parser
    rw [← hparser, ← hbytes] at hrun
    have hfit : c.parser.readIdx + (group.map Prod.fst).flatten.length ≤ readBufferSize := by
      rw [hparser, hbytes]
      show 0 + g.request.bytes.length ≤ readBufferSize
      rw [Nat.zero_add]
      exact g.fits
    obtain ⟨p, seg, calls, hlast⟩ := lastSegment_link (w := w) (hparser ▸ headInv_init d.parser)
      hne hd.segs hfit hrun hall
    obtain ⟨real, hresolve, hpath⟩ := resolve_link (w := w) hasks g.slash_mem
    exact ⟨p, seg, calls, t, t, real, hlast, hresolve, hpath, hasks.linger⟩
  | form f =>
    have hbytes : (group.map Prod.fst).flatten = f.request.bytes.drop 0 := hd.bytes
    obtain ⟨p, seg, calls, t, u, hlast, hcomplete⟩ := lastSegment_form (w := w) (n := 0)
      (hparser ▸ awaits_init f d.parser) hne hd.segs hbytes fun pre q hpq hq => by
        rw [Nat.zero_add]
        exact hd.cuts pre q hpq hq
    obtain ⟨t', real, hresolve, hpath, hlinger⟩ := resolve_form (w := w) hcomplete
    exact ⟨p, seg, calls, t, t', real, hlast, hresolve, hpath, hlinger⟩

/-- The response is being sent, with these results of `writev`, and the session goes on when it has
been. -/
structure Sends (w : World) (c : HttpConn) (group : List (List UInt8 × List (List Writev)))
    (r : Response) (keep : Bool) (w' : World) (c' : HttpConn) (calls : List (List Writev)) :
    Prop where
  mem : calls ∈ group.map Prod.snd
  carries : Carries c' r
  linger : c'.parser.linger = keep
  stays : ∀ c'' rest, c'.after calls = some c'' →
    Http.session w c (group ++ rest) = (Http.session w' c'' rest).map (⟨c', calls⟩ :: ·)
  ends : ∀ rest, c'.after calls = none →
    Http.session w c (group ++ rest) = (sendRun calls c').map fun _ => [⟨c', calls⟩]

/-- **A request is answered** with the last of its segments. -/
theorem session_visit {v : Visit} (hc : c.Ready) (hserv : w.Servable) (hd : Delivers group v) :
    (∀ r, w.answer v = some r →
      ∃ c' calls, Sends w c group r v.ask.keeps (w.visit v).1 c' calls) ∧
    (w.answer v = none → ∀ rest, Http.session w c (group ++ rest) = some []) := by
  obtain ⟨p, seg, calls, t, t', real, hlast, hresolve, hpath, hlinger⟩ := lastSegment_visit w hc hd
  have hreal : c.realFile = fun _ => 0 := by
    obtain ⟨d, htwin⟩ := hc
    exact congrArg HttpConn.realFile htwin.eq
  have hunsent : HttpConn.Unsent { c with parser := p.deliver seg } := hc.unsent
  rw [← hreal] at hresolve
  obtain ⟨hresponse, hclosed⟩ := process_resolved hunsent (hserv.congr (visit_file w v)) hlast.run
    hresolve hpath
  rw [hlinger] at hresponse hclosed
  have hstep (rest : List (List UInt8 × List (List Writev))) := hlast.session rest
  constructor
  · intro r hr
    obtain ⟨c', hprocess, hcarries, hkeep⟩ := hresponse r hr
    refine ⟨c', calls, hlast.mem, hcarries, hkeep, fun c'' rest hafter => ?_,
      fun rest hafter => ?_⟩
    · rw [hstep, Http.session, hlast.read]
      dsimp only
      rw [hprocess]
      dsimp only
      rw [hafter]
    · rw [hstep, Http.session, hlast.read]
      dsimp only
      rw [hprocess]
      dsimp only
      rw [hafter]
  · intro hnone rest
    obtain ⟨c', hprocess⟩ := hclosed hnone
    rw [hstep, Http.session, hlast.read]
    dsimp only
    rw [hprocess]

end

-- ---------------------------------------------------------------------------
-- One request after another
-- ---------------------------------------------------------------------------

theorem respond_complete {w : World} {path : List UInt8} {keep : Bool} {r : Response}
    (h : w.respond path keep = some r) : r.Complete := by
  have hcomplete (status : Nat) {title : List UInt8} (htitle : NoBreak title)
      (body : List UInt8) :
      Response.Complete ⟨status, title, responseHeaders body.length keep, body⟩ :=
    ⟨separable_response status htitle body.length keep body, (announces_iff ..).mpr rfl⟩
  unfold World.respond at h
  split at h
  · cases h
  split at h
  · exact Option.some.inj h ▸ hcomplete 403 (by decide) error403Form
  split at h
  · exact Option.some.inj h ▸ hcomplete 404 (by decide) error404Form
  split at h
  · cases h
  · obtain ⟨content, -, rfl⟩ := Option.map_eq_some_iff.mp h
    exact hcomplete 200 (by decide) content

theorem answers_complete (w : World) (vs : List Visit) : ∀ r ∈ w.answers vs, r.Complete := by
  induction vs generalizing w with
  | nil => exact fun r hr => absurd hr List.not_mem_nil
  | cons v vs ih =>
    intro r hr
    rw [World.answers] at hr
    split at hr
    · exact absurd hr List.not_mem_nil
    · rename_i r₁ hanswer
      have hr₁ := respond_complete hanswer
      split at hr
      · rcases List.mem_cons.mp hr with rfl | hr
        · exact hr₁
        · exact ih _ r hr
      · rw [List.mem_singleton] at hr
        exact hr ▸ hr₁

/-- Every response has been sent. -/
def AllSent (ss : List Outgoing) : Prop :=
  ∀ s ∈ ss, ∃ sent, sendRun s.calls s.conn = some (sent, .completed)

/-- No count of `writev` spoils a head. -/
def HeadsKept (ss : List Outgoing) : Prop :=
  ∀ s ∈ ss, HeadOk s.conn.writeBuf.length 0 0 (counts s.calls.flatten)

/-- **Requests in turn**; induction on the requests. -/
theorem session_visits {w : World} {c : HttpConn} {vs : List Visit}
    {groups : List (List (List UInt8 × List (List Writev)))} (hc : c.Ready) (hserv : w.Servable)
    (hd : List.Forall₂ Delivers groups vs) :
    (∀ ss, session w c groups.flatten = some ss → HeadsKept ss →
      ∃ stream, wire ss = some stream ∧ stream <+: (w.answers vs).flatMap Response.bytes ∧
        (AllSent ss → stream = (w.answers vs).flatMap Response.bytes)) ∧
    (session w c groups.flatten = none → ∃ calls ∈ groups.flatten.map Prod.snd,
      ∃ r ∈ w.answers vs, ∃ c', Carries c' r ∧ sendRun calls c' = none) := by
  induction hd generalizing w c with
  | nil =>
    refine ⟨fun ss hss _ => ?_, fun hnone => by cases hnone⟩
    obtain rfl := Option.some.inj hss
    exact ⟨[], rfl, List.prefix_rfl, fun _ => rfl⟩
  | @cons group v groups vs hd _ ih =>
    obtain ⟨hanswered, hclosed⟩ := session_visit hc hserv hd
    rw [List.flatten_cons, World.answers]
    cases hanswer : w.answer v with
    | none =>
      rw [hclosed hanswer]
      refine ⟨fun ss hss _ => ?_, fun hnone => by cases hnone⟩
      obtain rfl := Option.some.inj hss
      exact ⟨[], rfl, List.prefix_rfl, fun _ => rfl⟩
    | some r =>
      obtain ⟨c', calls, hsends⟩ := hanswered r hanswer
      dsimp only
      cases hafter : c'.after calls with
      | some c'' =>
        -- the response has been sent, and the connection stays
        obtain ⟨⟨sent, hsent⟩, hkeep, hc''⟩ := after_eq hsends.carries.toSend hafter
        rw [hsends.linger] at hkeep
        rw [if_pos hkeep, hsends.stays c'' _ hafter]
        obtain ⟨hrest, hnone⟩ := ih hc'' (hserv.congr (visit_file w v))
        constructor
        · intro ss hss hheads
          obtain ⟨ss', hss', rfl⟩ := Option.map_eq_some_iff.mp hss
          rw [HeadsKept, List.forall_mem_cons] at hheads
          obtain ⟨stream', hwire, hpart, hall⟩ := hrest ss' hss' hheads.2
          obtain ⟨stream, hstream, -, hdone⟩ :=
            Outgoing.stream_eq (s := ⟨c', calls⟩) hsends.carries hheads.1 hsent
          obtain rfl := hdone.mp rfl
          refine ⟨_, wire_cons hstream hwire, ?_, fun hsent => ?_⟩
          · rw [List.flatMap_cons, List.prefix_append_right_inj]
            exact hpart
          · rw [AllSent, List.forall_mem_cons] at hsent
            rw [List.flatMap_cons, hall hsent.2]
        · intro hss
          obtain ⟨calls', hmem, r', hr', h⟩ := hnone (Option.map_eq_none_iff.mp hss)
          refine ⟨calls', ?_, r', List.mem_cons_of_mem _ hr', h⟩
          rw [List.map_append]
          exact List.mem_append_right _ hmem
      | none =>
        -- it is the last one, and maybe only a part has been sent
        rw [hsends.ends _ hafter]
        generalize hlater : (w.visit v).1.answers vs = later
        have hmem : r ∈ if v.ask.keeps then r :: later else [r] := by
          split <;> exact List.mem_cons_self ..
        have hfirst : r.bytes <+: (if v.ask.keeps then r :: later else [r]).flatMap
            Response.bytes := by
          split <;> exact List.prefix_append ..
        constructor
        · intro ss hss hheads
          obtain ⟨⟨sent, p⟩, hsent, rfl⟩ := Option.map_eq_some_iff.mp hss
          obtain ⟨stream, hstream, hpart, hdone⟩ := Outgoing.stream_eq (s := ⟨c', calls⟩)
            hsends.carries (hheads _ (List.mem_cons_self ..)) hsent
          have hwire := wire_cons hstream (show wire [] = some [] from rfl)
          rw [List.append_nil] at hwire
          refine ⟨stream, hwire, hpart.trans hfirst, fun hall => ?_⟩
          obtain ⟨sent', hsent'⟩ := hall _ (List.mem_cons_self ..)
          have hkeep : v.ask.keeps = false := by
            by_contra hkeep
            rw [Bool.not_eq_false] at hkeep
            obtain ⟨c'', hstays⟩ := after_completed hsends.carries.toSend
              (hsends.linger.trans hkeep) hsent'
            rw [hafter] at hstays
            cases hstays
          obtain ⟨-, rfl⟩ := Prod.mk.inj (Option.some.inj (hsent.symm.trans hsent'))
          rw [hkeep, hdone.mp rfl]
          simp
        · intro hss
          refine ⟨calls, ?_, r, hmem, c', hsends.carries, Option.map_eq_none_iff.mp hss⟩
          rw [List.map_append]
          exact List.mem_append_left _ hsends.mem

def formLine (path : List UInt8) : Tokens :=
  ⟨bytes "POST", [32], path, [32], bytes "HTTP/1.1"⟩

/-- The form on `register.html`, filled in. -/
def registration : Form where
  request := ⟨(formLine (bytes "/3")).text,
    [bytes "Connection: keep-alive", bytes "Content-length: 19"],
    loginBody (bytes "u1") (bytes "pw")⟩
  parts := formLine (bytes "/3")
  path := bytes "/3"
  hasPath := ⟨⟨rfl, by decide +kernel, by decide +kernel, by decide +kernel, by decide +kernel,
    rfl⟩, by decide +kernel, rfl⟩
  lineClean := by decide +kernel
  headerClean := by decide +kernel
  length := by decide +kernel
  fits := by decide +kernel
  method := by decide +kernel
  name := bytes "u1"
  password := bytes "pw"
  body := rfl
  kind := by decide +kernel
  nameClean := by decide +kernel
  passwordClean := by decide +kernel
  nameFits := by decide +kernel
  passwordFits := by decide +kernel
  sqlFits := by decide +kernel
  pathFits := by decide +kernel
  room := by decide +kernel

/-- And the one on `log.html`. -/
def login : Form where
  request := ⟨(formLine (bytes "/2")).text, [bytes "Content-length: 19"],
    loginBody (bytes "u1") (bytes "pw")⟩
  parts := formLine (bytes "/2")
  path := bytes "/2"
  hasPath := ⟨⟨rfl, by decide +kernel, by decide +kernel, by decide +kernel, by decide +kernel,
    rfl⟩, by decide +kernel, rfl⟩
  lineClean := by decide +kernel
  headerClean := by decide +kernel
  length := by decide +kernel
  fits := by decide +kernel
  method := by decide +kernel
  name := bytes "u1"
  password := bytes "pw"
  body := rfl
  kind := by decide +kernel
  nameClean := by decide +kernel
  passwordClean := by decide +kernel
  nameFits := by decide +kernel
  passwordFits := by decide +kernel
  sqlFits := by decide +kernel
  pathFits := by decide +kernel
  room := by decide +kernel

/-- A page of one byte. -/
def shortPage (b : UInt8) : FileNode where
  stat := ⟨1, true, false⟩
  mapping := some [b]
  mapping_length := by
    rintro content h
    obtain rfl := Option.some.inj h
    exact ⟨rfl, Nat.one_pos⟩

/-- Two pages, and no accounts. -/
def twoPages : World where
  file := fun path =>
    if path = docRoot ++ bytes "/log.html" then some (shortPage 108)
    else if path = docRoot ++ bytes "/welcome.html" then some (shortPage 119)
    else none
  users := fun _ => none
  mysqlQuery := fun _ => true

theorem twoPages_servable : twoPages.Servable := by
  intro path node hnode _ _ _
  simp only [twoPages] at hnode
  split at hnode
  · obtain rfl := Option.some.inj hnode
    exact ⟨rfl, by decide⟩
  split at hnode
  · obtain rfl := Option.some.inj hnode
    exact ⟨rfl, by decide⟩
  · cases hnode

/-- Who has registered is welcome. -/
example : (twoPages.answers [.form registration, .form login]).map Response.body =
    [[108], [119]] := by
  decide +kernel

/-- The head and the body of the registration come one after the other. -/
def registerAndLogin : List (List (List UInt8 × List (List Writev))) :=
  [[(registration.request.head, []), (registration.request.body, [[.sent 61]])],
    [(login.request.bytes, [[.sent 55, .eagain], [.sent 1]])]]

end TinyHTTP.Http
