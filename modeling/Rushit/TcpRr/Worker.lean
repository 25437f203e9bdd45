import Mathlib.Algebra.Order.Floor.Ring
import Mathlib.Data.Rat.Floor
import Rushit.Common.Run
import Rushit.Sample.Model
import Rushit.TcpRr.Model
/-!
# The workers

The worker threads of `tcp_rr.c` with all their flows: what
`client_events` and `server_events` do for one event, now with the
counters of the thread, the latencies (`track_write_time`,
`track_finish_time`) and the samples (`interval_collect`, `add_sample`).
`Turn` is what a handler reads and writes; on the bytes of the flow the
handlers are those of `Rushit.TcpRr.Model`.

The clock readings, what a call returns and whether `epoll_ctl` fails
are part of the label of a step. The threads share nothing but
`time_start`. A flow that `delflow` was called for stays in the list of
its thread, marked as deleted: it takes no further part, but its
transactions were counted. The flow of the listening socket, which never
reads or writes, is left out. The arithmetic on intervals is exact, where
that of the source is in doubles and `last_time` is cut to nanoseconds.
-/

namespace Rushit

namespace TcpRr

/-- The options of a run. `check_options` asks for a thread and a
positive interval. -/
structure RunOptions extends Options where
  client : Bool
  numThreads : ℕ
  numFlows : ℕ
  /-- In seconds. -/
  interval : ℚ
  numThreads_pos : 0 < numThreads
  interval_pos : 0 < interval

/-- `struct flow` as a whole, with its `itv->last_time` in seconds, which
is 0 until it is initialised. -/
structure FlowState where
  id : ℕ
  flow : Flow
  writeTime : Timespec
  latency : Numlist ℚ
  lastTime : ℚ
  deleted : Bool

/-- What a handler reads and writes: the flow, of its thread
`transactions` and `samples`, and `*time_start`, which is 0 until it is
initialised. -/
structure Turn where
  flow : FlowState
  transactions : ℕ
  samples : List Sample
  timeStart : ℚ

/-- The readings of `CLOCK_MONOTONIC` in `track_write_time`,
`track_finish_time` and `interval_collect`. -/
structure Clock where
  write : Timespec
  finish : Timespec
  now : Timespec

/-- `addflow` -/
def addflow (id : ℕ) (flow : Flow) : FlowState :=
  ⟨id, flow, .atSecond 0, .create, 0, false⟩

namespace Turn

/-- The bytes, transactions and events of the flow. -/
def withFlow (t : Turn) (flow : Flow) : Turn := { t with flow := { t.flow with flow := flow } }

/-- `delflow` -/
def delflow (t : Turn) : Turn := { t with flow := { t.flow with deleted := true } }

/-! ## Samples -/

/-- `ensure_initialized` -/
def ensureInitialized (now : Timespec) (t : Turn) : Turn :=
  if t.flow.lastTime = 0 then
    let timeStart := if t.timeStart = 0 then now.seconds else t.timeStart
    { t with flow := { t.flow with lastTime := timeStart }, timeStart := timeStart }
  else t

/-- `add_sample`: the latencies go to the sample, and the flow gets a new
list. -/
def addSample (tid : ℕ) (ts : Timespec) (t : Turn) : Turn :=
  { t with
    flow := { t.flow with latency := .create }
    samples := ⟨tid, t.flow.id, t.flow.flow.bytesRead, t.flow.flow.transactions,
      t.flow.latency, ts⟩ :: t.samples }

/-- `get_next_time` -/
def getNextTime (seconds duration : ℚ) (t : Turn) : Turn :=
  { t with flow := { t.flow with
    lastTime := t.flow.lastTime + ⌊duration / seconds⌋ * seconds } }

/-- `interval_collect`, in exact arithmetic -/
def intervalCollect (seconds : ℚ) (tid : ℕ) (now : Timespec) (t : Turn) : Turn :=
  let t := t.ensureInitialized now
  let duration := now.seconds - t.flow.lastTime
  if duration < seconds then t
  else (t.addSample tid now).getNextTime seconds duration

/-! ## Latencies -/

/-- `track_write_time` -/
def trackWriteTime (opts : Options) (clock : Clock) (t : Turn) : Turn :=
  if t.flow.flow.bytesToWrite = opts.requestSize then
    { t with flow := { t.flow with writeTime := clock.write } }
  else t

/-- `track_finish_time` -/
def trackFinishTime (clock : Clock) (t : Turn) : Turn :=
  { t with flow := { t.flow with
    latency := t.flow.latency.add (secondsBetween t.flow.writeTime clock.finish) } }

/-- `t->transactions++` and `flow->transactions++` -/
def count (t : Turn) : Turn :=
  { t.withFlow { t.flow.flow with transactions := t.flow.flow.transactions + 1 } with
    transactions := t.transactions + 1 }

/-! ## The handlers -/

/-- After `do_write` returned `numBytes`; `done` is what follows the last
byte. -/
def wrote (numBytes : ℤ) (done : Turn → Turn) (t : Turn) : Turn :=
  if numBytes = -1 then t
  else
    let t := t.withFlow { t.flow.flow with bytesToWrite := t.flow.flow.bytesToWrite - numBytes }
    if t.flow.flow.bytesToWrite > 0 then t else done t

/-- After `do_read` returned `numBytes`. -/
def hasRead (numBytes : ℤ) (done : Turn → Turn) (t : Turn) : Turn :=
  if numBytes = -1 then t
  else if numBytes = 0 then t.delflow
  else
    let t := t.withFlow { t.flow.flow with
      bytesRead := t.flow.flow.bytesRead + numBytes
      bytesToRead := t.flow.flow.bytesToRead - numBytes }
    if t.flow.flow.bytesToRead > 0 then t else done t

/-- Successfully sent request, now wait for response. -/
def requestSent (opts : Options) (t : Turn) : Turn :=
  t.withFlow { t.flow.flow with
    events := ⟨true, false, true⟩, bytesToRead := opts.responseSize }

/-- Successfully read resp., now wait to send request. -/
def responseRead (opts : RunOptions) (tid : ℕ) (clock : Clock) (t : Turn) : Turn :=
  -- the latency is added before the sample takes the list
  let t := (t.count.trackFinishTime clock).intervalCollect opts.interval tid clock.now
  t.withFlow { t.flow.flow with
    events := ⟨false, true, true⟩, bytesToWrite := opts.requestSize }

/-- The loop body of `client_events`. -/
def clientEvents (opts : RunOptions) (tid : ℕ) (ev : Events) (numBytes : ℤ) (clock : Clock)
    (t : Turn) : Turn :=
  if ev.epollrdhup then t.delflow
  else if ev.epollout then
    (t.trackWriteTime opts.toOptions clock).wrote numBytes (requestSent opts.toOptions)
  else if ev.epollin then t.hasRead numBytes (responseRead opts tid clock)
  else t

/-- Successfully read request, now send a response; where `epoll_ctl`
fails, the flow is dropped. -/
def requestRead (opts : Options) (ctlFails : Bool) (t : Turn) : Turn :=
  if ctlFails then t.delflow
  else t.withFlow { t.flow.flow with
    events := ⟨false, true, true⟩, bytesToWrite := opts.responseSize }

/-- Successfully write response, now read a request; where `epoll_ctl`
fails, the flow is dropped. -/
def responseSent (opts : RunOptions) (tid : ℕ) (clock : Clock) (ctlFails : Bool) (t : Turn) :
    Turn :=
  let t := t.count.intervalCollect opts.interval tid clock.now
  if ctlFails then t.delflow
  else t.withFlow { t.flow.flow with
    events := ⟨true, false, true⟩, bytesToRead := opts.requestSize }

/-- The loop body of `server_events`, for a flow that is connected. -/
def serverEvents (opts : RunOptions) (tid : ℕ) (ev : Events) (numBytes : ℤ) (clock : Clock)
    (ctlFails : Bool) (t : Turn) : Turn :=
  if ev.epollrdhup then t.delflow
  else if ev.epollin then t.hasRead numBytes (requestRead opts.toOptions ctlFails)
  else if ev.epollout then t.wrote numBytes (responseSent opts tid clock ctlFails)
  else t

end Turn

/-! ## The threads -/

/-- `struct thread` -/
structure Worker where
  index : ℕ
  nextFlowId : ℕ
  transactions : ℕ
  /-- The sample taken last first. -/
  samples : List Sample
  flows : List FlowState

/-- `flows_in_thread` -/
def flowsInThread (numFlows numThreads tid : ℕ) : ℕ :=
  if tid < numFlows % numThreads then numFlows / numThreads + 1 else numFlows / numThreads

/-- A thread when its events begin: `run_client` has made the flows of a
client, and `run_server` has given the first number to the listening
socket. -/
def Worker.start (opts : RunOptions) (index : ℕ) : Worker where
  index := index
  nextFlowId := if opts.client then 0 else 1
  transactions := 0
  samples := []
  flows := if opts.client then
    (List.range (flowsInThread opts.numFlows opts.numThreads index)).map fun i =>
      addflow i (clientFlow opts.toOptions)
    else []

/-- `server_accept` -/
def Worker.accept (opts : RunOptions) (w : Worker) : Worker :=
  { w with
    flows := w.flows ++ [addflow w.nextFlowId (serverFlow opts.toOptions)]
    nextFlowId := w.nextFlowId + 1 }

/-- A thread after a turn with its flow at `j`. -/
def Worker.put (w : Worker) (j : ℕ) (t : Turn) : Worker :=
  { w with transactions := t.transactions, samples := t.samples, flows := w.flows.set j t.flow }

/-- The threads, and what they share. -/
structure Workers where
  threads : List Worker
  timeStart : ℚ

namespace Workers

/-- Before the first event. -/
def start (opts : RunOptions) : Workers :=
  ⟨(List.range opts.numThreads).map (Worker.start opts), 0⟩

inductive Label
  /-- Thread `i` accepts a connection. -/
  | accept (i : ℕ)
  /-- Thread `i` handles the event `ev` of its flow at `j`; the call
  returns `numBytes`. -/
  | event (i j : ℕ) (ev : Events) (numBytes : ℤ) (ctlFails : Bool) (clock : Clock)

/-- The handler of the side. -/
def handler (opts : RunOptions) (tid : ℕ) (ev : Events) (numBytes : ℤ) (clock : Clock)
    (ctlFails : Bool) : Turn → Turn :=
  if opts.client then Turn.clientEvents opts tid ev numBytes clock
  else Turn.serverEvents opts tid ev numBytes clock ctlFails

/-- The call the handler makes. -/
def call (opts : RunOptions) (flow : Flow) (ev : Events) : Call :=
  if opts.client then clientCall opts.toOptions flow ev else serverCall opts.toOptions flow ev

/-- A call returns -1, or a count that is within what was asked for. -/
def Yields : Call → ℤ → Prop
  | .write toWrite _, n => n = -1 ∨ (0 ≤ n ∧ n ≤ toWrite)
  | .read toRead, n => n = -1 ∨ (0 ≤ n ∧ n ≤ toRead)
  | _, _ => True

/-- epoll reports what a flow is registered for, and that the peer has
hung up. -/
def Registered (interest ev : Events) : Prop :=
  (ev.epollout = true → interest.epollout = true) ∧ (ev.epollin = true → interest.epollin = true)

/-- **One step**: a thread handles one event, or accepts. -/
def step (opts : RunOptions) (s : Workers) (l : Label) (s' : Workers) : Prop :=
  match l with
  | .accept i => ∃ w, opts.client = false ∧ s.threads[i]? = some w ∧
      s' = { s with threads := s.threads.set i (w.accept opts) }
  | .event i j ev numBytes ctlFails clock => ∃ w f,
      s.threads[i]? = some w ∧ w.flows[j]? = some f ∧ f.deleted = false ∧
      Registered f.flow.events ev ∧ Yields (call opts f.flow ev) numBytes ∧
      0 < clock.now.seconds ∧
      ∃ t, t = handler opts w.index ev numBytes clock ctlFails
          ⟨f, w.transactions, w.samples, s.timeStart⟩ ∧
        s' = ⟨s.threads.set i (w.put j t), t.timeStart⟩

end Workers

/-! ## Two flows -/

theorem one_second_pos : (0 : ℚ) < 1 := zero_lt_one

/-- One client thread with two flows, and one byte each way. -/
def pairOptions : RunOptions where
  requestSize := 1
  responseSize := 1
  bufferSize := 1
  requestSize_pos := Int.one_pos
  responseSize_pos := Int.one_pos
  bufferSize_pos := Int.one_pos
  client := true
  numThreads := 1
  numFlows := 2
  interval := 1
  numThreads_pos := Nat.one_pos
  interval_pos := one_second_pos

/-- The clocks at a full second. -/
def Clock.atSecond (sec : ℤ) : Clock := ⟨.atSecond sec, .atSecond sec, .atSecond sec⟩

/-- The flow at `j` sends its request at once. -/
def sends (j : ℕ) (sec : ℤ) : Workers.Label :=
  .event 0 j ⟨false, true, false⟩ 1 false (.atSecond sec)

/-- The flow at `j` reads its response at once. -/
def receives (j : ℕ) (sec : ℤ) : Workers.Label :=
  .event 0 j ⟨true, false, false⟩ 1 false (.atSecond sec)

/-- A flow after `n` transactions, before its next request. -/
def beforeWrite (id n : ℕ) (writeTime : Timespec) (latency : Numlist ℚ) (lastTime : ℚ) :
    FlowState :=
  ⟨id, ⟨n, 0, 1, n, ⟨decide (n = 0), true, true⟩⟩, writeTime, latency, lastTime, false⟩

/-- A flow after `n` transactions, before its next response. -/
def beforeRead (id n : ℕ) (writeTime : Timespec) (latency : Numlist ℚ) (lastTime : ℚ) :
    FlowState :=
  ⟨id, ⟨n, 1, 0, n, ⟨true, false, true⟩⟩, writeTime, latency, lastTime, false⟩

/-- The thread of the two flows. -/
def pairOf (transactions : ℕ) (samples : List Sample) (timeStart : ℚ) (f g : FlowState) : Workers :=
  ⟨[⟨0, 0, transactions, samples, [f, g]⟩], timeStart⟩

/-- A latency of a transaction within a second. -/
def within (sec : ℤ) : ℚ := secondsBetween (.atSecond sec) (.atSecond sec)

variable {id n transactions : ℕ} {writeTime : Timespec} {latency : Numlist ℚ} {lastTime : ℚ}
variable {samples : List Sample}

/-- The first transaction of the run sets `time_start`. -/
theorem receives_first : Turn.clientEvents pairOptions 0 ⟨true, false, false⟩ 1 (.atSecond 1)
      ⟨beforeRead id n (.atSecond 1) latency 0, transactions, samples, 0⟩ =
    ⟨beforeWrite id (n + 1) (.atSecond 1) (latency.add (within 1)) 1, transactions + 1,
      samples, 1⟩ := by
  norm_num [Turn.clientEvents, Turn.hasRead, Turn.responseRead, Turn.count, Turn.trackFinishTime,
    Turn.intervalCollect, Turn.ensureInitialized, Turn.withFlow, Timespec.seconds, pairOptions,
    beforeRead, beforeWrite, Clock.atSecond, Timespec.atSecond, within]

/-- One second later a sample is due. -/
theorem receives_sample (h : lastTime = 0 ∨ lastTime = 1) :
    Turn.clientEvents pairOptions 0 ⟨true, false, false⟩ 1 (.atSecond 2)
      ⟨beforeRead id n (.atSecond 2) latency lastTime, transactions, samples, 1⟩ =
    ⟨beforeWrite id (n + 1) (.atSecond 2) .create 2, transactions + 1,
      ⟨0, id, n + 1, n + 1, latency.add (within 2), .atSecond 2⟩ :: samples, 1⟩ := by
  rcases h with rfl | rfl <;>
    norm_num [Turn.clientEvents, Turn.hasRead, Turn.responseRead, Turn.count, Turn.trackFinishTime,
      Turn.intervalCollect, Turn.ensureInitialized, Turn.addSample, Turn.getNextTime,
      Turn.withFlow, Timespec.seconds, pairOptions, beforeRead, beforeWrite, Clock.atSecond,
      Timespec.atSecond, within]

/-- The second flow, as `run_client` makes it. -/
def pairSecond : FlowState := addflow 1 (clientFlow pairOptions.toOptions)

/-- What the first flow records after two transactions. -/
def pairSample₁ : Sample :=
  ⟨0, 0, 2, 2, (Numlist.create.add (within 1)).add (within 2), .atSecond 2⟩

/-- What the second flow records after one, at the same second. -/
def pairSample₂ : Sample := ⟨0, 1, 1, 1, Numlist.create.add (within 2), .atSecond 2⟩

/-- Both flows have recorded a sample. -/
def pairEnd : Workers := pairOf 3 [pairSample₂, pairSample₁] 1
  (beforeWrite 0 2 (.atSecond 2) .create 2) (beforeWrite 1 1 (.atSecond 2) .create 2)

/-- A flow of the two may send. -/
theorem registered_beforeWrite : Workers.Registered
    (beforeWrite id n writeTime latency lastTime).flow.events ⟨false, true, false⟩ :=
  ⟨fun _ => rfl, nofun⟩

theorem registered_beforeRead : Workers.Registered
    (beforeRead id n writeTime latency lastTime).flow.events ⟨true, false, false⟩ :=
  ⟨nofun, fun _ => rfl⟩

/-- **A run of two flows**, whose samples are of one instant. -/
theorem pair_run : Run (Workers.step pairOptions) (Workers.start pairOptions)
    [sends 0 1, receives 0 1, sends 0 2, receives 0 2, sends 1 2, receives 1 2] pairEnd := by
  have h₁ : 0 < (Timespec.atSecond 1).seconds := by
    rw [Timespec.seconds_atSecond]
    norm_num
  have h₂ : 0 < (Timespec.atSecond 2).seconds := by
    rw [Timespec.seconds_atSecond]
    norm_num
  have hone : (1 : ℤ) = -1 ∨ (0 ≤ (1 : ℤ) ∧ (1 : ℤ) ≤ 1) := .inr ⟨by decide, by decide⟩
  exact .cons (t := pairOf 0 [] 0 (beforeRead 0 0 (.atSecond 1) .create 0) pairSecond)
      ⟨_, _, rfl, rfl, rfl, registered_beforeWrite, hone, h₁, _, rfl, rfl⟩ <|
    .cons (t := pairOf 1 [] 1
        (beforeWrite 0 1 (.atSecond 1) (Numlist.create.add (within 1)) 1) pairSecond)
      ⟨_, _, rfl, rfl, rfl, registered_beforeRead, hone, h₁, _, receives_first.symm, rfl⟩ <|
    .cons (t := pairOf 1 [] 1
        (beforeRead 0 1 (.atSecond 2) (Numlist.create.add (within 1)) 1) pairSecond)
      ⟨_, _, rfl, rfl, rfl, registered_beforeWrite, hone, h₂, _, rfl, rfl⟩ <|
    .cons (t := pairOf 2 [pairSample₁] 1 (beforeWrite 0 2 (.atSecond 2) .create 2) pairSecond)
      ⟨_, _, rfl, rfl, rfl, registered_beforeRead, hone, h₂, _,
        (receives_sample (.inr rfl)).symm, rfl⟩ <|
    .cons (t := pairOf 2 [pairSample₁] 1 (beforeWrite 0 2 (.atSecond 2) .create 2)
        (beforeRead 1 0 (.atSecond 2) .create 0))
      ⟨_, _, rfl, rfl, rfl, registered_beforeWrite, hone, h₂, _, rfl, rfl⟩ <|
    .single ⟨_, _, rfl, rfl, rfl, registered_beforeRead, hone, h₂, _,
      (receives_sample (.inl rfl)).symm, rfl⟩

end TcpRr

end Rushit
