import TinyHTTP.Lib.Stream
import TinyHTTP.Http.KeepAlive
import TinyHTTP.Http.Send

/-!
# TinyHTTP — what the client reads

`Converses` says which responses the server prepares. Here are the bytes: each call of
`write` hands parts of the write buffer and of the mapping to the socket, the client
sees one stream, and it takes the responses apart by the lengths they announce.

* `process_carries` — what `process` arms a connection for is a response that announces
  its length.
* `Outgoing.stream_eq` — the calls of `write` put a beginning of it on the wire.
* `client_reads` — so the client reads response after response, and each as it was sent.
-/

namespace TinyHTTP.Http

open TinyHTTP.Lib

def wire (ss : List Outgoing) : Option (List UInt8) := (ss.mapM Outgoing.stream).map List.flatten

/-- The object that is left when the calls have sent a response, and the connection stays. -/
def HttpConn.after : List (List Writev) → HttpConn → Option HttpConn
  | [], _ => none
  | outs :: calls, c =>
    match c.write outs with
    | some ⟨c, _, some .epollout, _⟩ => c.after calls
    | some ⟨c, _, some .epollin, true⟩ => if calls = [] then some c else none
    | _ => none

/-- One `read_once` and one `process` for each segment of the client, and the calls of `write` for
each response. `none` is a run that C++ leaves undefined. -/
def session : World → HttpConn → List (List UInt8 × List (List Writev)) → Option (List Outgoing)
  | _, _, [] => some []
  | w, c, (seg, calls) :: rest =>
    match c.readOnce (.data seg) with
    | (_, false) => some []
    | (c, true) =>
      match c.process w with
      | .error _ => none
      | .ok (_, _, .closeConn) => some []
      | .ok (w, c, .modfd .epollin) => session w c rest
      | .ok (w, c, .modfd .epollout) =>
        match c.after calls with
        | some c' => (session w c' rest).map (⟨c, calls⟩ :: ·)
        | none => (sendRun calls c).map fun _ => [⟨c, calls⟩]

/-- What the client has of the responses: each one in full, and of the last one maybe a part. A
response that another one follows keeps the connection. -/
inductive Heard : List Outgoing → List Response → List UInt8 → Prop
  | nothing : Heard [] [] []
  | part {s : Outgoing} {r : Response} {tail : List UInt8} (h : Carries s.conn r)
      (htail : Begins tail r) : Heard [s] [] tail
  | full {s : Outgoing} {ss : List Outgoing} {r : Response} {rs : List Response}
      {tail : List UInt8} (h : Carries s.conn r) (hkeep : ss ≠ [] → s.conn.parser.linger = true)
      (hrest : Heard ss rs tail) : Heard (s :: ss) (r :: rs) tail

-- ---------------------------------------------------------------------------
-- Runs
-- ---------------------------------------------------------------------------

/-- An object is left for the next request when the response has been sent, and the request asked
for it. -/
theorem after_eq {calls : List (List Writev)} {c c' : HttpConn} (hne : c.bytesToSend ≠ 0)
    (h : c.after calls = some c') : (∃ sent, sendRun calls c = some (sent, .completed)) ∧
      c.parser.linger = true ∧ c'.Ready := by
  induction calls generalizing c with
  | nil => cases h
  | cons outs calls ih =>
    simp only [HttpConn.after] at h
    split at h
    · rename_i c₁ sent ok hwrite
      have hloop := hwrite
      rw [HttpConn.write, if_neg hne] at hloop
      obtain ⟨hparser, hmore, -⟩ := (writeLoop_leaves hne hloop).again rfl
      obtain ⟨⟨sent', hsent⟩, hlinger, hready⟩ := ih hmore h
      have hlinger' : c.parser.linger = true := by
        rw [← show c₁.parser = c.parser from hparser]
        exact hlinger
      refine ⟨⟨sent ++ sent', ?_⟩, hlinger', hready⟩
      simp only [sendRun, hwrite, hsent, Option.map_some]
    · rename_i c₁ sent hwrite
      have hloop := hwrite
      rw [HttpConn.write, if_neg hne] at hloop
      obtain ⟨hok, htwin⟩ := (writeLoop_leaves hne hloop).done rfl
      split at h
      · rename_i hlast
        obtain rfl := Option.some.inj h
        refine ⟨⟨sent, ?_⟩, hok.symm, c.unmap, htwin rfl⟩
        simp only [sendRun, hwrite, if_pos hlast]
      · cases h
    · cases h

/-- And so it is when the response has been sent and the request asked for it. -/
theorem after_completed {calls : List (List Writev)} {c : HttpConn} {sent : List Loc}
    (hne : c.bytesToSend ≠ 0) (hlinger : c.parser.linger = true)
    (h : sendRun calls c = some (sent, .completed)) : ∃ c', c.after calls = some c' := by
  induction calls generalizing c sent with
  | nil => cases h
  | cons outs calls ih =>
    rw [sendRun] at h
    split at h
    · cases h
    rename_i r hwrite
    obtain ⟨c₁, sent₁, armed, ok⟩ := r
    have hloop := hwrite
    rw [HttpConn.write, if_neg hne] at hloop
    simp only [HttpConn.after, hwrite]
    split at h
    · rename_i harmed
      obtain rfl : armed = some .epollout := harmed
      obtain ⟨⟨sent', p⟩, hsent, hp⟩ := Option.map_eq_some_iff.mp h
      obtain ⟨-, rfl⟩ := Prod.mk.inj hp
      obtain ⟨hparser, hmore, -⟩ := (writeLoop_leaves hne hloop).again rfl
      exact ih hmore (by rw [hparser]; exact hlinger) hsent
    · rename_i harmed
      obtain rfl : armed = some .epollin := harmed
      split at h
      · rename_i hlast
        obtain ⟨hok, -⟩ := (writeLoop_leaves hne hloop).done rfl
        obtain rfl : ok = true := hok.trans hlinger
        exact ⟨c₁, if_pos hlast⟩
      · cases h
    · split at h
      · cases h
      · cases h

theorem wire_cons {s : Outgoing} {ss : List Outgoing} {x y : List UInt8} (hs : s.stream = some x)
    (hss : wire ss = some y) : wire (s :: ss) = some (x ++ y) := by
  obtain ⟨xs, hxs, rfl⟩ := Option.map_eq_some_iff.mp hss
  rw [wire, List.mapM_cons, hs, hxs]
  rfl

theorem session_heard {plan : List (List UInt8 × List (List Writev))} {w : World} {c : HttpConn}
    {ss : List Outgoing} (hc : c.Unsent) (hserv : w.Servable) (hrun : session w c plan = some ss)
    (hok : ∀ s ∈ ss, HeadOk s.conn.writeBuf.length 0 0 (counts s.calls.flatten)) :
    ∃ rs tail, wire ss = some (rs.flatMap Response.bytes ++ tail) ∧ Heard ss rs tail := by
  have hempty : ∃ rs tail, wire [] = some (rs.flatMap Response.bytes ++ tail) ∧
      Heard [] rs tail := ⟨[], [], rfl, .nothing⟩
  induction plan generalizing w c ss with
  | nil =>
    obtain rfl := Option.some.inj hrun
    exact hempty
  | cons step plan ih =>
    obtain ⟨seg, calls⟩ := step
    rw [session] at hrun
    split at hrun
    · obtain rfl := Option.some.inj hrun
      exact hempty
    rename_i c₁ hread
    have hc₁ : c₁.Unsent := by
      have hunsent := unsent_readOnce hc (.data seg)
      rw [hread] at hunsent
      exact hunsent
    split at hrun
    · cases hrun
    · obtain rfl := Option.some.inj hrun
      exact hempty
    · rename_i w' c₂ hprocess
      exact ih (unsent_wait hc₁ hprocess) (hserv.congr (process_file hprocess)) hrun hok
    · rename_i w' c₂ hprocess
      obtain ⟨r, hcarries⟩ := process_carries hc₁ hserv hprocess
      split at hrun
      · -- the response has been sent, and the connection stays
        rename_i c₃ hafter
        obtain ⟨ss', hrest, rfl⟩ := Option.map_eq_some_iff.mp hrun
        obtain ⟨⟨sent, hsent⟩, hkeep, hc₃⟩ := after_eq hcarries.toSend hafter
        obtain ⟨stream, hstream, -, hdone⟩ :=
          Outgoing.stream_eq (s := ⟨c₂, calls⟩) hcarries (hok _ (List.mem_cons_self ..)) hsent
        obtain rfl := hdone.mp rfl
        have hserv' := hserv.congr (process_file hprocess)
        obtain ⟨rs, tail, hwire, hheard⟩ := ih hc₃.unsent hserv' hrest
          fun s hs => hok s (List.mem_cons_of_mem _ hs)
        refine ⟨r :: rs, tail, ?_, .full hcarries (fun _ => hkeep) hheard⟩
        rw [wire_cons hstream hwire, List.flatMap_cons, List.append_assoc]
      · -- it is the last one, and maybe only a part has been sent
        obtain ⟨⟨sent, p⟩, hsent, rfl⟩ := Option.map_eq_some_iff.mp hrun
        obtain ⟨stream, hstream, hpart, -⟩ :=
          Outgoing.stream_eq (s := ⟨c₂, calls⟩) hcarries (hok _ (List.mem_cons_self ..)) hsent
        have hwire := wire_cons hstream (show wire [] = some [] from rfl)
        rw [List.append_nil] at hwire
        by_cases hall : stream = r.bytes
        · refine ⟨[r], [], ?_, .full hcarries (fun h => absurd rfl h) .nothing⟩
          rw [hwire, hall]
          simp
        · exact ⟨[], stream, hwire, .part hcarries ⟨hpart, hall⟩⟩

theorem Heard.complete {ss : List Outgoing} {rs : List Response} {tail : List UInt8}
    (h : Heard ss rs tail) : (∀ r ∈ rs, r.Complete) ∧ takeResponse tail = none := by
  induction h with
  | nothing => exact ⟨fun _ h => (List.not_mem_nil h).elim, rfl⟩
  | part h htail =>
    exact ⟨fun _ h => (List.not_mem_nil h).elim, takeResponse_beginning h.complete htail⟩
  | full h _ _ ih =>
    refine ⟨fun r hr => ?_, ih.2⟩
    rcases List.mem_cons.mp hr with rfl | hr
    · exact h.complete
    · exact ih.1 r hr

/-- **The client reads what the server prepared**: whatever it sends in whatever segments, and
however much each `writev` takes, as long as no count spoils a head, the stream of a connection
falls apart into the responses of `process_write`, each with its own body, and a beginning of the
one that is being sent. -/
theorem client_reads {plan : List (List UInt8 × List (List Writev))} {w : World} {c : HttpConn}
    {ss : List Outgoing} (hserv : w.Servable) (hrun : session w c.init plan = some ss)
    (hok : ∀ s ∈ ss, HeadOk s.conn.writeBuf.length 0 0 (counts s.calls.flatten)) :
    ∃ stream rs tail, wire ss = some stream ∧ responsesOf stream = (rs, tail) ∧
      Heard ss rs tail := by
  obtain ⟨rs, tail, hwire, hheard⟩ := session_heard ⟨rfl, rfl⟩ hserv hrun hok
  obtain ⟨hcomplete, htail⟩ := hheard.complete
  exact ⟨_, rs, tail, hwire, responsesOf_stream hcomplete htail, hheard⟩

/-- The page twice, and of the second response the first thirty bytes. -/
theorem client_reads_two : ∃ ss, ss.length = 2 ∧
    session onePage HttpConn.constructed.init
      [(keepAliveRequest, [[.sent 62]]), (keepAliveRequest, [[.sent 30, .eagain]])] = some ss ∧
    ∃ stream rs tail, wire ss = some stream ∧ responsesOf stream = (rs, tail) ∧
      Heard ss rs tail := by
  have hval : (session onePage HttpConn.constructed.init
      [(keepAliveRequest, [[.sent 62]]), (keepAliveRequest, [[.sent 30, .eagain]])]).map
      (fun ss => ss.map fun s => (s.conn.writeBuf.length, counts s.calls.flatten)) =
        some [(60, [62]), (60, [30])] := by
    decide +kernel
  obtain ⟨ss, hss, hheads⟩ := Option.map_eq_some_iff.mp hval
  have hlen := congrArg List.length hheads
  rw [List.length_map] at hlen
  refine ⟨ss, hlen, hss, client_reads onePage_servable hss fun s hs => ?_⟩
  have hmem := List.mem_map_of_mem (f := fun s : Outgoing =>
    (s.conn.writeBuf.length, counts s.calls.flatten)) hs
  rw [hheads] at hmem
  simp only [List.mem_cons, List.not_mem_nil, or_false, Prod.mk.injEq] at hmem
  rcases hmem with ⟨hhead, hcounts⟩ | ⟨hhead, hcounts⟩
  · rw [hhead, hcounts]
    exact ⟨.inr (.inl rfl), trivial⟩
  · rw [hhead, hcounts]
    exact ⟨.inr (.inl rfl), trivial⟩

end TinyHTTP.Http
