import Rushit.Common.Run
import Rushit.Flow.Local
/-!
# The threads and their flows

`run_client` and `run_server` of `workload.c` as they make, watch and
free flows, and `free_worker_threads`, which frees the samples, for any
number of threads that share one memory. What a workload adds is its
handler of events (`Workload`), which is known to do on memory what it
does on values.

epoll reports what it watches, each descriptor at most once in one
`epoll_wait`, and its reports are handled one by one; the thread may
delete flows and accept connections in between, and the addresses and
descriptors that become free may be handed out again at once. A
descriptor that another thread closes is forgotten (`forget`). The
arrays of `run_client` and `run_server` are left out, which no other
function frees.
-/

namespace Rushit

namespace Flow

open Ram (Fault Malloc deref Returns)
open TcpRr (Events FlowState Turn Worker Workers)

/-- A workload as the loop of a thread sees it. -/
structure Workload where
  /-- What epoll reports of a flow. -/
  Mask : Type
  /-- What the calls for an event return, and the clock. -/
  Outcome : Type
  client : Bool
  /-- The handler tells the listening socket apart. -/
  accepts : Bool
  /-- `flows_in_thread` -/
  connections : ℕ → ℕ
  /-- What a connection begins with. -/
  bytesToRead : ℤ
  bytesToWrite : ℤ
  events : Events
  /-- What may be reported where epoll watches for the events. -/
  registered : Events → Mask → Prop
  /-- What the calls may return for a flow with so much to read and to
  write. -/
  yields : ℤ → ℤ → Mask → Outcome → Prop
  /-- The loop body of `process_events` for the flow at an address. -/
  handle : ℕ → Mask → Outcome → Malloc Object → ℕ → State → Except Fault State
  /-- What it does to the flow and its thread. -/
  turn : ℕ → Mask → Outcome → Turn → Turn
  simulates : ∀ tid mask o al, Simulates (handle tid mask o al) (turn tid mask o)
  /-- A handler that takes the listening socket for a flow deletes none. -/
  keeps : client = false → accepts = false → ∀ tid mask o, Keeps (turn tid mask o)

inductive Phase
  /-- The flows are being made. -/
  | setup
  /-- The thread waits at the barrier. -/
  | ready
  | running
  /-- The thread has returned. -/
  | done
  /-- `free_worker_threads` has freed its samples. -/
  | freed
  deriving DecidableEq

/-- The main thread has not passed the barrier. -/
def Phase.early : Phase → Bool
  | .setup | .ready => true
  | _ => false

/-- A thread, with the local variables of `run_client` and
`run_server`. -/
structure Thread (W : Workload) where
  index : ℕ
  phase : Phase
  stopEfd : ℕ
  fdListen : Option ℕ
  stopFl : Option ℕ
  listenFl : Option ℕ
  stop : Bool
  /-- The connections that `run_client` has made. -/
  made : ℕ
  nextFlowId : ℕ
  transactions : ℕ
  samples : Option ℕ
  epoll : List Interest
  /-- The events that are still to be handled. -/
  batch : List (ℕ × W.Mask)

structure System (W : Workload) where
  threads : List (Thread W)
  ram : Ram Object
  timeStart : ℚ

variable {W : Workload}

namespace Thread

def start (W : Workload) (index stopEfd : ℕ) : Thread W :=
  ⟨index, .setup, stopEfd, none, none, none, false, 0, 0, 0, none, [], []⟩

/-- What the thread sees. -/
def state (t : Thread W) (ram : Ram Object) (timeStart : ℚ) : State :=
  ⟨ram, t.epoll, t.transactions, t.samples, timeStart⟩

/-- What the thread has of it afterwards. -/
def store (t : Thread W) (st : State) : Thread W :=
  { t with epoll := st.epoll, transactions := st.transactions, samples := st.samples }

/-- `addflow`, and what the callers assign then. -/
def newFlow (al : Malloc Object) (fd flowId : ℕ) (bytesToRead bytesToWrite : ℤ) (events : Events)
    (st : State) : Except Fault (ℕ × State) := do
  let (p, st) ← st.addflow al fd flowId events
  -- `interval_create`
  let (r, st) := st.malloc al (.interval 0)
  let st ← st.update p fun flow =>
    { flow with bytesToRead := bytesToRead, bytesToWrite := bytesToWrite, itv := some r }
  pure (p, st)

/-- What a thread does next. -/
inductive Action (W : Workload)
  /-- The flow of the stop event. -/
  | addStop (al : Malloc Object)
  /-- The flow of the listening socket. -/
  | listen (fd : ℕ) (al : Malloc Object)
  /-- One connection of `run_client`. -/
  | connect (fd : ℕ) (al : Malloc Object)
  | ready
  /-- `epoll_wait` returns. -/
  | wait (batch : List (ℕ × W.Mask))
  /-- The next event is handled; `accepted` is what `accept` returns. -/
  | event (accepted : Option ℕ) (o : W.Outcome) (al : Malloc Object)
  /-- Another thread closes the descriptor. -/
  | forget (fd : ℕ)
  /-- What follows the loop. -/
  | leave

/-- `server_accept` -/
def accept (t : Thread W) (accepted : Option ℕ) (al : Malloc Object) (st : State) :
    Except Fault (Thread W × State) :=
  match accepted with
  | none => pure (t, st)
  | some fd => do
    let (_, st) ← newFlow al fd t.nextFlowId W.bytesToRead W.bytesToWrite W.events st
    pure ({ t with nextFlowId := t.nextFlowId + 1 }, st)

/-- The next event of `process_events`: the stop event ends it. -/
def processEvent (t : Thread W) (accepted : Option ℕ) (o : W.Outcome) (al : Malloc Object)
    (st : State) : Except Fault (Thread W × State) :=
  match t.batch with
  | [] => pure (t, st)
  | (p, mask) :: batch => do
    let t := { t with batch := batch }
    let flow ← st.flow p
    if flow.fd = t.stopEfd then pure ({ t with stop := true, batch := [] }, st)
    else if W.accepts ∧ t.fdListen = some flow.fd then t.accept accepted al st
    else
      let st ← W.handle t.index mask o al p st
      pure (t, st)

/-- After the loop: `delflow(listen_fl)` of a server, and
`free(stop_fl)`. -/
def finish (t : Thread W) (st : State) : Except Fault (Thread W × State) := do
  let st ← if W.client then pure st else do
    let p ← deref t.listenFl
    st.delflow p
  let p ← deref t.stopFl
  let st ← st.free p
  -- `do_close(epfd)`
  pure ({ t with phase := .done, stopFl := none, listenFl := none }, { st with epoll := [] })

/-- What the thread does to itself and to memory. -/
def act (t : Thread W) (st : State) : Action W → Except Fault (Thread W × State)
  | .addStop al =>
    let (p, st) := st.addflowLite al t.stopEfd ⟨true, false, false⟩
    pure ({ t with stopFl := some p }, st)
  | .listen fd al => do
    let (p, st) ← newFlow al fd t.nextFlowId 0 0 ⟨true, false, false⟩ st
    pure ({ t with fdListen := some fd, listenFl := some p, nextFlowId := t.nextFlowId + 1 }, st)
  | .connect fd al => do
    let (_, st) ← newFlow al fd t.made W.bytesToRead W.bytesToWrite W.events st
    pure ({ t with made := t.made + 1 }, st)
  | .ready => pure ({ t with phase := .ready }, st)
  | .wait batch => pure ({ t with batch := batch }, st)
  | .event accepted o al => t.processEvent accepted o al st
  | .forget fd => pure (t, { st with epoll := st.epoll.filter fun e => e.fd ≠ fd })
  | .leave => t.finish st

/-- A descriptor that a call returns: not one that is open. -/
def Fresh (t : Thread W) (fd : ℕ) : Prop :=
  fd ≠ t.stopEfd ∧ t.fdListen ≠ some fd ∧ fd ∉ t.epoll.map Interest.fd

/-- What `epoll_wait` may return: reports of descriptors that are
watched, no two of one. -/
def Reports (epoll : List Interest) (batch : List (ℕ × W.Mask)) : Prop :=
  ∃ es : List (Interest × W.Mask), (es.map Prod.fst).Nodup ∧
    (∀ e ∈ es, e.1 ∈ epoll ∧ W.registered e.1.events e.2) ∧
    batch = es.map fun e => (e.1.ptr, e.2)

/-- **When the thread can do it**: where the code gets to it, and what
the calls may return. -/
def Allowed (t : Thread W) (st : State) : Action W → Prop
  | .addStop _ => t.phase = .setup ∧ t.stopFl = none ∧ (W.client ∨ t.listenFl.isSome)
  | .listen fd _ => t.phase = .setup ∧ W.client = false ∧ t.listenFl = none ∧ t.Fresh fd
  | .connect fd _ => t.phase = .setup ∧ W.client ∧ t.stopFl.isSome ∧
      t.made < W.connections t.index ∧ t.Fresh fd
  | .ready => t.phase = .setup ∧ t.stopFl.isSome ∧ (W.client → t.made = W.connections t.index)
  | .wait batch => t.phase = .running ∧ t.stop = false ∧ t.batch = [] ∧ Reports t.epoll batch
  | .event accepted o _ => t.phase = .running ∧ ∃ p mask batch, t.batch = (p, mask) :: batch ∧
      (∀ fd, accepted = some fd → t.Fresh fd) ∧
      ∀ flow, st.flow p = .ok flow → W.yields flow.bytesToRead flow.bytesToWrite mask o
  | .forget fd => t.phase = .running ∧ fd ≠ t.stopEfd ∧ t.fdListen ≠ some fd
  | .leave => t.phase = .running ∧ t.stop ∧ t.batch = []

end Thread

namespace System

def start (W : Workload) (stopEfds : List ℕ) : System W :=
  ⟨stopEfds.mapIdx (Thread.start W), .empty, 0⟩

inductive Label (W : Workload)
  | act (i : ℕ) (a : Thread.Action W)
  /-- All threads are at the barrier. -/
  | barrier
  /-- `free_samples` for thread `i`, after all were joined. -/
  | freeSamples (i : ℕ)

/-- When the system can do it. -/
def Enabled (s : System W) : Label W → Prop
  | .act i a => ∃ t, s.threads[i]? = some t ∧ t.Allowed (t.state s.ram s.timeStart) a
  | .barrier => ∀ t ∈ s.threads, t.phase = .ready
  | .freeSamples i => (∃ t, s.threads[i]? = some t ∧ t.phase = .done) ∧
      ∀ t ∈ s.threads, t.phase = .done ∨ t.phase = .freed

/-- What happens then, unless there is a fault. -/
def exec (s : System W) : Label W → Except Fault (System W)
  | .act i a =>
    match s.threads[i]? with
    | none => pure s
    | some t => do
      let (t, st) ← t.act (t.state s.ram s.timeStart) a
      pure ⟨s.threads.set i (t.store st), st.ram, st.timeStart⟩
  | .barrier => pure { s with threads := s.threads.map fun t => { t with phase := .running } }
  | .freeSamples i =>
    match s.threads[i]? with
    | none => pure s
    | some t => do
      let ram ← State.freeSamples s.ram.cells.entries.length t.samples s.ram
      pure { s with ram := ram, threads := s.threads.set i { t with phase := .freed } }

/-- **One step** of one thread, or of the main thread. -/
def step (s : System W) (l : Label W) (s' : System W) : Prop := s.Enabled l ∧ s.exec l = .ok s'

end System

/-! ## The same on values -/

namespace Workload

/-- A connection with its number. -/
def newFlow (W : Workload) (id : ℕ) : FlowState :=
  TcpRr.addflow id ⟨0, W.bytesToRead, W.bytesToWrite, 0, { W.events with epollrdhup := true }⟩

/-- The flow of the listening socket. -/
def listenFlow (id : ℕ) : FlowState := TcpRr.addflow id ⟨0, 0, 0, 0, ⟨true, false, true⟩⟩

/-- What a thread does to its flows. -/
inductive Change (W : Workload)
  | listen
  | connect
  | accept
  /-- An event of the flow at `j` is handled. -/
  | event (j : ℕ) (mask : W.Mask) (o : W.Outcome)
  /-- The flow of the listening socket is deleted. -/
  | close

/-- When it does it. -/
def Change.phase : Change W → Phase
  | .listen | .connect => .setup
  | _ => .running

/-- One more flow in the thread. -/
def push (f : FlowState) (w : Worker) : Worker := { w with flows := w.flows ++ [f] }

/-- `next_flow_id++` -/
def number (w : Worker) : Worker := { w with nextFlowId := w.nextFlowId + 1 }

/-- **What a thread does**, with `*time_start`. The first flow of a
server is that of the listening socket. -/
def change (W : Workload) (w : Worker) (timeStart : ℚ) (c : Change W) (r : Worker × ℚ) : Prop :=
  match c with
  | .listen => W.client = false ∧ w.flows = [] ∧
      r = (number (push (listenFlow w.nextFlowId) w), timeStart)
  | .connect => W.client ∧ w.flows.length < W.connections w.index ∧
      r = (push (W.newFlow w.flows.length) w, timeStart)
  | .accept => W.client = false ∧ W.accepts ∧ w.flows ≠ [] ∧
      r = (number (push (W.newFlow w.nextFlowId) w), timeStart)
  | .event j mask o => ∃ f, w.flows[j]? = some f ∧ f.deleted = false ∧
      (W.client = false → W.accepts → j ≠ 0) ∧ W.registered f.flow.events mask ∧
      W.yields f.flow.bytesToRead f.flow.bytesToWrite mask o ∧
      ∃ t, t = W.turn w.index mask o ⟨f, w.transactions, w.samples, timeStart⟩ ∧
        r = (w.put j t, t.timeStart)
  | .close => ∃ f, W.client = false ∧ w.flows[0]? = some f ∧ f.deleted = false ∧
      r = ({ w with flows := w.flows.set 0 { f with deleted := true } }, timeStart)

/-- The threads on values, and whether they have passed the barrier. -/
structure Values where
  threads : List Worker
  timeStart : ℚ
  started : Bool

/-- Before anything is done. -/
def Values.start (n : ℕ) : Values :=
  ⟨(List.range n).map fun i => ⟨i, 0, 0, [], []⟩, 0, false⟩

/-- A thread that has made its flows. -/
def Complete (W : Workload) (w : Worker) : Prop :=
  (W.client → w.flows.length = W.connections w.index) ∧ (W.client = false → w.flows ≠ [])

inductive Label (W : Workload)
  | act (i : ℕ) (c : Change W)
  | barrier

/-- **One step** on values. -/
def step (W : Workload) (v : Values) (l : Label W) (v' : Values) : Prop :=
  match l with
  | .act i c => ∃ w r, v.threads[i]? = some w ∧ c.phase.early = !v.started ∧
      W.change w v.timeStart c r ∧ v' = { v with threads := v.threads.set i r.1, timeStart := r.2 }
  | .barrier => v.started = false ∧ (∀ w ∈ v.threads, W.Complete w) ∧
      v' = { v with started := true }

end Workload

end Flow

end Rushit
