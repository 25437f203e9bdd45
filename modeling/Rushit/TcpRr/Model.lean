import Mathlib.Data.Int.Notation
import Mathlib.Data.Nat.Notation
/-!
# Request and response over TCP

`tcp_rr.c`: a client flow sends a request, waits for the response and
begins again; a server flow does the converse. Both are driven by epoll:
`client_events` and `server_events` look at one event of a flow at a
time, issue at most one `write` or `read`, and move the interest in the
epoll set between the two.

What a call to `write` or `read` returns is an argument; -1 is an error,
`EAGAIN` included. The two byte streams between the flows are FIFO
queues of a bounded capacity, and each byte carries the number of the
transaction it was sent for.
-/

namespace Rushit

namespace TcpRr

/-- The options the flows read; both sides have the sizes, and each its
own buffer. `check_options` asks that the sizes are positive. -/
structure Options where
  requestSize : ℤ
  responseSize : ℤ
  bufferSize : ℤ
  requestSize_pos : 0 < requestSize
  responseSize_pos : 0 < responseSize
  bufferSize_pos : 0 < bufferSize

/-- A set of `EPOLLIN`, `EPOLLOUT` and `EPOLLRDHUP`. -/
structure Events where
  epollin : Bool
  epollout : Bool
  epollrdhup : Bool
  deriving DecidableEq

/-- `struct flow`, with the interest it is registered for in the epoll
set. -/
structure Flow where
  bytesRead : ℤ
  bytesToRead : ℤ
  bytesToWrite : ℤ
  transactions : ℕ
  events : Events

/-- The system call an event leads to. -/
inductive Call
  | delflow
  /-- `write`, and whether `MSG_MORE` is set. -/
  | write (toWrite : ℤ) (more : Bool)
  | read (toRead : ℤ)
  /-- No bit is set that is looked at. -/
  | none
  deriving DecidableEq

/-- A count capped by the buffer size. -/
def capped (opts : Options) (n : ℤ) : ℤ := if n > opts.bufferSize then opts.bufferSize else n

theorem capped_le (opts : Options) (n : ℤ) : capped opts n ≤ n := by
  unfold capped; split <;> omega

theorem capped_pos (opts : Options) {n : ℤ} (hn : 0 < n) : 0 < capped opts n := by
  have hbuf := opts.bufferSize_pos
  unfold capped; split <;> omega

/-- The `do_write` of what is left to write. -/
def writeCall (opts : Options) (flow : Flow) : Call :=
  .write (capped opts flow.bytesToWrite) (flow.bytesToWrite > opts.bufferSize)

/-- The `do_read` of what is left to read. -/
def readCall (opts : Options) (flow : Flow) : Call := .read (capped opts flow.bytesToRead)

/-- After `do_write` returned `numBytes`; `done` is what follows the last
byte. -/
def wrote (numBytes : ℤ) (done : Flow → Flow) (flow : Flow) : Flow :=
  if numBytes = -1 then flow
  else
    let flow := { flow with bytesToWrite := flow.bytesToWrite - numBytes }
    if flow.bytesToWrite > 0 then flow else done flow

/-- After `do_read` returned `numBytes`: the flow is deleted where the
peer has closed. -/
def hasRead (numBytes : ℤ) (done : Flow → Flow) (flow : Flow) : Option Flow :=
  if numBytes = -1 then some flow
  else if numBytes = 0 then Option.none
  else
    let flow := { flow with
      bytesRead := flow.bytesRead + numBytes, bytesToRead := flow.bytesToRead - numBytes }
    if flow.bytesToRead > 0 then some flow else some (done flow)

/-! ## The client -/

/-- A new client flow of `run_client`; `epoll_events` gives both
directions. -/
def clientFlow (opts : Options) : Flow where
  bytesRead := 0
  bytesToRead := 0
  bytesToWrite := opts.requestSize
  transactions := 0
  events := ⟨true, true, true⟩

/-- The call `client_events` makes for an event of the flow. -/
def clientCall (opts : Options) (flow : Flow) (ev : Events) : Call :=
  if ev.epollrdhup then .delflow
  else if ev.epollout then writeCall opts flow
  else if ev.epollin then readCall opts flow
  else .none

/-- Successfully sent request, now wait for response. -/
def requestSent (opts : Options) (flow : Flow) : Flow :=
  { flow with events := ⟨true, false, true⟩, bytesToRead := opts.responseSize }

/-- Successfully read resp., now wait to send request. -/
def responseRead (opts : Options) (flow : Flow) : Flow :=
  { flow with
    transactions := flow.transactions + 1, events := ⟨false, true, true⟩
    bytesToWrite := opts.requestSize }

/-- The loop body of `client_events`; none where the flow is deleted. -/
def clientEvents (opts : Options) (flow : Flow) (ev : Events) (numBytes : ℤ) : Option Flow :=
  if ev.epollrdhup then Option.none
  else if ev.epollout then some (wrote numBytes (requestSent opts) flow)
  else if ev.epollin then hasRead numBytes (responseRead opts) flow
  else some flow

/-! ## The server -/

/-- A new server flow of `server_accept`. -/
def serverFlow (opts : Options) : Flow where
  bytesRead := 0
  bytesToRead := opts.requestSize
  bytesToWrite := 0
  transactions := 0
  events := ⟨true, false, true⟩

/-- The call `server_events` makes for an event of the flow: reading
comes first. -/
def serverCall (opts : Options) (flow : Flow) (ev : Events) : Call :=
  if ev.epollrdhup then .delflow
  else if ev.epollin then readCall opts flow
  else if ev.epollout then writeCall opts flow
  else .none

/-- Successfully read request, now send a response. -/
def requestRead (opts : Options) (flow : Flow) : Flow :=
  { flow with events := ⟨false, true, true⟩, bytesToWrite := opts.responseSize }

/-- Successfully write response, now read a request. -/
def responseSent (opts : Options) (flow : Flow) : Flow :=
  { flow with
    transactions := flow.transactions + 1, events := ⟨true, false, true⟩
    bytesToRead := opts.requestSize }

/-- The loop body of `server_events`, where `epoll_ctl` succeeds; none
where the flow is deleted. -/
def serverEvents (opts : Options) (flow : Flow) (ev : Events) (numBytes : ℤ) : Option Flow :=
  if ev.epollrdhup then Option.none
  else if ev.epollin then hasRead numBytes (requestRead opts) flow
  else if ev.epollout then some (wrote numBytes (responseSent opts) flow)
  else some flow

/-! ## The connection -/

/-- The two ends of a connection: their options, which agree on the
sizes, and the capacities of the two streams. -/
structure Connection where
  client : Options
  server : Options
  requestSize_eq : server.requestSize = client.requestSize
  responseSize_eq : server.responseSize = client.responseSize
  requestCap : ℕ
  responseCap : ℕ
  requestCap_pos : 0 < requestCap
  responseCap_pos : 0 < responseCap

/-- The two flows, unless deleted, and the bytes under way. -/
structure Exchange where
  client : Option Flow
  server : Option Flow
  /-- From client to server, the byte to be read next first. -/
  requests : List ℕ
  /-- From server to client. -/
  responses : List ℕ

/-- A connection that was just set up. -/
def Exchange.start (cn : Connection) : Exchange :=
  ⟨some (clientFlow cn.client), some (serverFlow cn.server), [], []⟩

inductive Side
  | client
  | server
  deriving DecidableEq

/-- One side handles the event `ev`, and its call returns `numBytes`. -/
structure Step where
  side : Side
  ev : Events
  numBytes : ℤ

/-- What epoll reports while the peer has not hung up: bits the flow is
registered for, and `EPOLLIN` only where bytes are waiting. -/
def Reported (interest ev : Events) (waiting : List ℕ) : Prop :=
  ev.epollrdhup = false ∧ (ev.epollout = true → interest.epollout = true) ∧
    (ev.epollin = true → interest.epollin = true ∧ waiting ≠ [])

/-- What a call can return while the peer has not hung up: -1, or a
count that is within what was asked for, the room in the outgoing stream
and the bytes waiting; `read` returns 0 only where nothing was asked
for. -/
def Returns (waiting outgoing : List ℕ) (cap : ℕ) : Call → ℤ → Prop
  | .write toWrite _, n => n = -1 ∨ (0 ≤ n ∧ n ≤ toWrite ∧ n + outgoing.length ≤ cap)
  | .read toRead, n => n = -1 ∨ (0 ≤ n ∧ n ≤ toRead ∧ n ≤ waiting.length ∧ (n = 0 → toRead = 0))
  | _, _ => True

/-- The outgoing stream after a call; `k` is the transaction of the
flow. -/
def sent (k : ℕ) (outgoing : List ℕ) : Call → ℤ → List ℕ
  | .write _ _, n => outgoing ++ List.replicate n.toNat k
  | _, _ => outgoing

/-- The incoming stream after a call. -/
def taken (waiting : List ℕ) : Call → ℤ → List ℕ
  | .read _, n => waiting.drop n.toNat
  | _, _ => waiting

/-- **One step**: either side handles one event. -/
def step (cn : Connection) (s : Exchange) (e : Step) (s' : Exchange) : Prop :=
  match e.side with
  | .client => ∃ c, s.client = some c ∧ Reported c.events e.ev s.responses ∧
      Returns s.responses s.requests cn.requestCap (clientCall cn.client c e.ev) e.numBytes ∧
      s' = { s with
        client := clientEvents cn.client c e.ev e.numBytes
        requests := sent c.transactions s.requests (clientCall cn.client c e.ev) e.numBytes
        responses := taken s.responses (clientCall cn.client c e.ev) e.numBytes }
  | .server => ∃ v, s.server = some v ∧ Reported v.events e.ev s.requests ∧
      Returns s.requests s.responses cn.responseCap (serverCall cn.server v e.ev) e.numBytes ∧
      s' = { s with
        server := serverEvents cn.server v e.ev e.numBytes
        requests := taken s.requests (serverCall cn.server v e.ev) e.numBytes
        responses := sent v.transactions s.responses (serverCall cn.server v e.ev) e.numBytes }

end TcpRr

end Rushit
