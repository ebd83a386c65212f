import TinyHTTP.Lib.Run
import TinyHTTP.Version02.FileReply
import TinyHTTP.Version02.StaleBytes

/-!
# TinyHTTP — version_02: one connection

What `recv_http` and `send_http` do with one socket, as an automaton: it waits for a
block, has a request to answer, or is closed. The two functions take turns, as the
registration with epoll lets only one of them at a time look at the socket.

The buffer of `recv_http` is not cleared, so what another connection has left there may
decide the parse of a block, and a failed `recv` is answered from there alone. The results
are about connections whose blocks decide their parse by themselves.

* `dialogue_exchanges` — one reply for each block, in the order of the blocks and computed
  from the block alone; the first request without `keep-alive` is the last one.
-/

namespace TinyHTTP.Version02

open TinyHTTP.Lib

/-- What is to be done with a connection next. -/
inductive Life where
  /-- wait for a block -/
  | reading
  /-- answer the request -/
  | writing (r : HttpRequest)
  | closed
  deriving DecidableEq

/-- A connection, with what `recv` has returned on it and what has been sent. -/
structure Dialogue where
  life : Life
  taken : List Received
  sent : List UInt8

inductive DialogueLabel where
  /-- `recv_http`, with `stale` in its buffer -/
  | recv (stale : Mem) (received : Received)
  /-- `send_http` -/
  | send (files : List UInt8 → Found) (io : Outcomes)

/-- What is left to do behind `recv_http`. -/
def Outcome.life : Outcome → Life
  | .close => .closed
  | .rearm r => .writing r

/-- What is left to do behind `send_http`. -/
def Afterwards.life : Afterwards → Life
  | .epollIn => .reading
  | .close => .closed

/-- A connection that has been accepted. -/
def Dialogue.start : Dialogue := ⟨.reading, [], []⟩

def Dialogue.step (conf : ConfHttp) (d : Dialogue) : DialogueLabel → Option Dialogue
  | .recv stale received =>
    match d.life, recvHttp stale received with
    | .reading, .ok outcome => some { d with life := outcome.life, taken := d.taken ++ [received] }
    | _, _ => none
  | .send files io =>
    match d.life with
    | .writing r =>
      match sendHttpReply conf r files io with
      | .ok (reply, after) => some { d with life := after.life, sent := d.sent ++ reply.sent }
      | .error _ => none
    | _ => none

/-- The runs of one connection. -/
def Dialogue.Runs (conf : ConfHttp) : Dialogue → Prop :=
  Reachable (· = Dialogue.start) (Dialogue.step conf) fun _ _ => True

/-- A block and the reply to it, with what the file system and the socket have answered. -/
structure Exchange where
  block : Block
  files : List UInt8 → Found
  io : Outcomes
  reply : Reply

/-- The block decides the parse by itself, and the reply is what `send_http` makes of the request in
it. -/
structure Exchange.Valid (conf : ConfHttp) (e : Exchange) : Prop where
  own : OwnBytes e.block.bytes
  answered : sendHttpReply conf (requestOf e.block) e.files e.io =
    .ok (e.reply, checkAlive (requestOf e.block).alive)

/-- What has been received in some exchanges. -/
def received (es : List Exchange) : List Received := es.map fun e => .data e.block

/-- The exchanges of a connection, up to now. -/
structure Dialogue.Exchanges (conf : ConfHttp) (d : Dialogue) (es : List Exchange) : Prop where
  valid : ∀ e ∈ es, e.Valid conf
  sent : d.sent = es.flatMap fun e => e.reply.sent
  /-- only the last request may be without `keep-alive` -/
  alive : ∀ e ∈ es.dropLast, (requestOf e.block).alive = true
  /-- what has been received, and what is to be done -/
  taken : match d.life with
    | .reading => d.taken = received es ∧ ∀ e ∈ es, (requestOf e.block).alive = true
    | .writing r => ∃ block, d.taken = received es ++ [.data block] ∧ r = requestOf block ∧
        ∀ e ∈ es, (requestOf e.block).alive = true
    | .closed =>
        (d.taken = received es ++ [.closed] ∧ ∀ e ∈ es, (requestOf e.block).alive = true) ∨
        d.taken = received es ∧ ∃ e, es.getLast? = some e ∧ (requestOf e.block).alive = false

section
variable {conf : ConfHttp} {d d' : Dialogue}

/-- A block is read only while none is waiting to be answered. -/
theorem dialogue_recv {stale : Mem} {received : Received}
    (h : d.step conf (.recv stale received) = some d') :
    d.life = .reading ∧ ∃ outcome, recvHttp stale received = .ok outcome ∧
      d' = { d with life := outcome.life, taken := d.taken ++ [received] } := by
  unfold Dialogue.step at h
  dsimp only at h
  split at h
  · rename_i hlife hrecv
    cases h
    exact ⟨hlife, _, hrecv, rfl⟩
  · cases h

/-- The reply is to the block that was read last. -/
theorem dialogue_send {files : List UInt8 → Found} {io : Outcomes}
    (h : d.step conf (.send files io) = some d') :
    ∃ r reply after, d.life = .writing r ∧ sendHttpReply conf r files io = .ok (reply, after) ∧
      d' = { d with life := after.life, sent := d.sent ++ reply.sent } := by
  unfold Dialogue.step at h
  dsimp only at h
  split at h
  · rename_i hlife
    split at h
    · rename_i hreply
      cases h
      exact ⟨_, _, _, hlife, hreply, rfl⟩
    · cases h
  · cases h

/-- What `recv_http` makes of what decides by itself. -/
theorem recvHttp_ownReceived {received : Received} (hown : received.Own) {stale : Mem}
    {outcome : Outcome} (hrecv : recvHttp stale received = .ok outcome) :
    received = .closed ∧ outcome = .close ∨
      ∃ block, received = .data block ∧ outcome = .rearm (requestOf block) := by
  cases received with
  | failed => exact hown.elim
  | closed =>
    cases hrecv
    exact .inl ⟨rfl, rfl⟩
  | data block =>
    rw [recvHttp_own hown] at hrecv
    cases hrecv
    exact .inr ⟨block, rfl, rfl⟩

/-- A block that is read is answered later: the exchanges are the same until then. -/
theorem Dialogue.Exchanges.recv {es : List Exchange} (h : d.Exchanges conf es)
    (hlife : d.life = .reading) {stale : Mem} {received : Received} {outcome : Outcome}
    (hown : received.Own) (hrecv : recvHttp stale received = .ok outcome) :
    Dialogue.Exchanges conf { d with life := outcome.life, taken := d.taken ++ [received] } es := by
  obtain ⟨hvalid, hsent, halive, htaken⟩ := h
  rw [hlife] at htaken
  obtain ⟨htaken, hall⟩ := htaken
  refine ⟨hvalid, hsent, halive, ?_⟩
  rcases recvHttp_ownReceived hown hrecv with ⟨rfl, rfl⟩ | ⟨block, rfl, rfl⟩
  · exact .inl ⟨congrArg (· ++ [.closed]) htaken, hall⟩
  · exact ⟨block, congrArg (· ++ [.data block]) htaken, rfl, hall⟩

/-- A reply completes one more exchange, the one of its block. -/
theorem Dialogue.Exchanges.send {es : List Exchange} (h : d.Exchanges conf es)
    (hown : ∀ received ∈ d.taken, received.Own) {r : HttpRequest} (hlife : d.life = .writing r)
    {files : List UInt8 → Found} {io : Outcomes} {reply : Reply} {after : Afterwards}
    (hreply : sendHttpReply conf r files io = .ok (reply, after)) :
    ∃ e, Dialogue.Exchanges conf { d with life := after.life, sent := d.sent ++ reply.sent }
      (es ++ [e]) := by
  obtain ⟨hvalid, hsent, halive, htaken⟩ := h
  rw [hlife] at htaken
  obtain ⟨block, htaken, rfl, hall⟩ := htaken
  obtain ⟨rfl, -⟩ := sendHttpReply_ret hreply
  have hblock : OwnBytes block.bytes :=
    hown (.data block) (htaken ▸ List.mem_append_right _ (List.mem_singleton_self _))
  have hreceived : received (es ++ [⟨block, files, io, reply⟩]) = received es ++ [.data block] :=
    List.map_append
  refine ⟨⟨block, files, io, reply⟩, ?_, ?_, ?_, ?_⟩
  · intro e he
    rcases List.mem_append.mp he with he | he
    · exact hvalid e he
    · obtain rfl := List.mem_singleton.mp he
      exact ⟨hblock, hreply⟩
  · rw [hsent, List.flatMap_append]
    simp
  · rw [List.dropLast_concat]
    exact hall
  · cases hr : (requestOf block).alive with
    | true =>
      refine ⟨htaken.trans hreceived.symm, fun e he => ?_⟩
      rcases List.mem_append.mp he with he | he
      · exact hall e he
      · obtain rfl := List.mem_singleton.mp he
        exact hr
    | false => exact .inr ⟨htaken.trans hreceived.symm, _, List.getLast?_concat, hr⟩

/-- **The replies on one connection**: one for each block, in order and computed from the block, and
nothing is said behind the reply to a request without `keep-alive`. -/
theorem dialogue_exchanges (h : d.Runs conf) (hown : ∀ received ∈ d.taken, received.Own) :
    ∃ es, d.Exchanges conf es := by
  induction h with
  | init h =>
    subst h
    exact ⟨[], fun e he => absurd he List.not_mem_nil, rfl, fun e he => absurd he List.not_mem_nil,
      rfl, fun e he => absurd he List.not_mem_nil⟩
  | step l _ _ hs ih =>
    cases l with
    | recv stale received =>
      obtain ⟨hlife, outcome, hrecv, rfl⟩ := dialogue_recv hs
      obtain ⟨es, hes⟩ := ih fun r hr => hown r (List.mem_append_left _ hr)
      have hlast := hown received (List.mem_append_right _ (List.mem_singleton_self _))
      exact ⟨es, hes.recv hlife hlast hrecv⟩
    | send files io =>
      obtain ⟨r, reply, after, hlife, hreply, rfl⟩ := dialogue_send hs
      obtain ⟨es, hes⟩ := ih hown
      obtain ⟨e, he⟩ := hes.send hown hlife hreply
      exact ⟨es ++ [e], he⟩

end

end TinyHTTP.Version02
