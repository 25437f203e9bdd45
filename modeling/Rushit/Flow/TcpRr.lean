import Rushit.Flow.Follow
import Rushit.Flow.Lifetime
import Rushit.TcpRr.Turn
/-!
# The flows of `tcp_rr`

`client_events` and `server_events` of `tcp_rr.c` on memory, as they
follow the pointer that epoll hands back. They do what those of
`Rushit.TcpRr.Worker` do on values, so that a run of the threads in
memory is a run of the threads there.
-/

namespace Rushit

namespace Flow

open Ram (Fault Malloc deref Returns)
open TcpRr (Events FlowState Turn Clock Options RunOptions Worker Workers)

namespace State

/-- `track_write_time` -/
def trackWriteTime (opts : Options) (clock : Clock) (p : ℕ) (s : State) : Except Fault State := do
  let flow ← s.flow p
  if flow.bytesToWrite = opts.requestSize then
    s.update p fun flow => { flow with writeTime := clock.write }
  else pure s

/-- `track_finish_time` -/
def trackFinishTime (clock : Clock) (p : ℕ) (s : State) : Except Fault State := do
  let flow ← s.flow p
  s.numlistAdd flow.latency (secondsBetween flow.writeTime clock.finish)

/-- `t->transactions++` and `flow->transactions++` -/
def count (p : ℕ) (s : State) : Except Fault State :=
  { s with transactions := s.transactions + 1 }.update p fun flow =>
    { flow with transactions := flow.transactions + 1 }

/-- After `do_write` returned `numBytes`. -/
def wrote (numBytes : ℤ) (done : ℕ → State → Except Fault State) (p : ℕ) (s : State) :
    Except Fault State :=
  if numBytes = -1 then pure s
  else do
    let s ← s.update p fun flow => { flow with bytesToWrite := flow.bytesToWrite - numBytes }
    let flow ← s.flow p
    if flow.bytesToWrite > 0 then pure s else done p s

/-- After `do_read` returned `numBytes`. -/
def hasRead (numBytes : ℤ) (done : ℕ → State → Except Fault State) (p : ℕ) (s : State) :
    Except Fault State :=
  if numBytes = -1 then pure s
  else if numBytes = 0 then s.delflow p
  else do
    let s ← s.update p fun flow => { flow with
      bytesRead := flow.bytesRead + numBytes, bytesToRead := flow.bytesToRead - numBytes }
    let flow ← s.flow p
    if flow.bytesToRead > 0 then pure s else done p s

/-- Successfully sent request, now wait for response. -/
def requestSent (opts : Options) (p : ℕ) (s : State) : Except Fault State := do
  let s ← s.epollMod p ⟨true, false, true⟩
  s.update p fun flow => { flow with bytesToRead := opts.responseSize }

/-- Successfully read resp., now wait to send request. -/
def responseRead (opts : RunOptions) (tid : ℕ) (clock : Clock) (al : Malloc Object) (p : ℕ)
    (s : State) : Except Fault State := do
  let s ← s.count p
  let s ← s.trackFinishTime clock p
  let s ← s.intervalCollect al opts.interval tid clock.now p
  let s ← s.epollMod p ⟨false, true, true⟩
  s.update p fun flow => { flow with bytesToWrite := opts.requestSize }

/-- The loop body of `client_events`. -/
def clientEvents (opts : RunOptions) (tid : ℕ) (ev : Events) (numBytes : ℤ) (clock : Clock)
    (al : Malloc Object) (p : ℕ) (s : State) : Except Fault State :=
  if ev.epollrdhup then s.delflow p
  else if ev.epollout then do
    let s ← s.trackWriteTime opts.toOptions clock p
    s.wrote numBytes (fun p s => s.requestSent opts.toOptions p) p
  else if ev.epollin then
    s.hasRead numBytes (fun p s => s.responseRead opts tid clock al p) p
  else pure s

/-- Successfully read request, now send a response. -/
def requestRead (opts : Options) (ctlFails : Bool) (p : ℕ) (s : State) : Except Fault State :=
  if ctlFails then s.delflow p
  else do
    let s ← s.epollMod p ⟨false, true, true⟩
    s.update p fun flow => { flow with bytesToWrite := opts.responseSize }

/-- Successfully write response, now read a request. -/
def responseSent (opts : RunOptions) (tid : ℕ) (clock : Clock) (ctlFails : Bool)
    (al : Malloc Object) (p : ℕ) (s : State) : Except Fault State := do
  let s ← s.count p
  let s ← s.intervalCollect al opts.interval tid clock.now p
  if ctlFails then s.delflow p
  else do
    let s ← s.epollMod p ⟨true, false, true⟩
    s.update p fun flow => { flow with bytesToRead := opts.requestSize }

/-- The loop body of `server_events`, for a flow that is connected. -/
def serverEvents (opts : RunOptions) (tid : ℕ) (ev : Events) (numBytes : ℤ) (clock : Clock)
    (ctlFails : Bool) (al : Malloc Object) (p : ℕ) (s : State) : Except Fault State :=
  if ev.epollrdhup then s.delflow p
  else if ev.epollin then
    s.hasRead numBytes (fun p s => s.requestRead opts.toOptions ctlFails p) p
  else if ev.epollout then
    s.wrote numBytes (fun p s => s.responseSent opts tid clock ctlFails al p) p
  else pure s

end State

/-! ## What they do -/

variable {opts : Options} {clock : Clock} {n : ℤ} {done : ℕ → State → Except Fault State}
variable {done' : Turn → Turn} {tid : ℕ} {ctlFails : Bool} {ev : Events} {al : Malloc Object}

theorem keeps_trackWriteTime : Keeps (Turn.trackWriteTime opts clock) := by
  intro t
  unfold Turn.trackWriteTime
  split <;> rfl

theorem keeps_trackFinishTime : Keeps (Turn.trackFinishTime clock) := fun _ => rfl

theorem keeps_count : Keeps Turn.count := fun _ => rfl

theorem simulates_trackWriteTime :
    Simulates (State.trackWriteTime opts clock) (Turn.trackWriteTime opts clock) := by
  intro p fd r rest before s t hlive hl
  obtain ⟨latency, hflow⟩ := hl.flow hlive
  refine .of_bind hflow ?_
  unfold Turn.trackWriteTime
  by_cases hsize : t.flow.flow.bytesToWrite = opts.requestSize
  · simp only [object, hsize, if_true]
    exact simulates_update (u := fun flow => { flow with writeTime := clock.write })
      (c := fun f => { f with writeTime := clock.write }) (fun _ _ => rfl)
      (fun _ => ⟨rfl, rfl, rfl, rfl⟩) p fd r rest before s t hlive hl
  · simp only [object, hsize, if_false]
    exact .pure hl

theorem simulates_trackFinishTime :
    Simulates (State.trackFinishTime clock) (Turn.trackFinishTime clock) :=
  simulates_numlistAdd (fun flow => secondsBetween flow.writeTime clock.finish)
    (fun f => secondsBetween f.writeTime clock.finish) fun _ _ => rfl

theorem simulates_count : Simulates State.count Turn.count := by
  intro p fd r rest before s t hlive hl
  have hupdate := simulates_update
    (u := fun flow => { flow with transactions := flow.transactions + 1 })
    (c := fun f => { f with flow := { f.flow with transactions := f.flow.transactions + 1 } })
    (fun _ _ => rfl) (fun _ => ⟨rfl, rfl, rfl, rfl⟩)
  exact hupdate p fd r rest before { s with transactions := s.transactions + 1 }
    { t with transactions := t.transactions + 1 } hlive
    ⟨hl.holds, congrArg Nat.succ hl.transactions, hl.timeStart, hl.own, hl.others, hl.fds⟩

/-- **A write**, and what follows it. -/
theorem simulates_wrote (hdone : Simulates done done') :
    Simulates (State.wrote n done) (Turn.wrote n done') := by
  intro p fd r rest before s t hlive hl
  unfold State.wrote Turn.wrote
  split
  · exact .pure hl
  · have hupdate := simulates_update
      (u := fun flow => { flow with bytesToWrite := flow.bytesToWrite - n })
      (c := fun f => { f with flow := { f.flow with bytesToWrite := f.flow.bytesToWrite - n } })
      (fun _ _ => rfl) (fun _ => ⟨rfl, rfl, rfl, rfl⟩)
    refine (hupdate p fd r rest before s t hlive hl).bind fun s' hl' => ?_
    obtain ⟨latency, hflow⟩ := hl'.flow hlive
    refine .of_bind hflow ?_
    dsimp only [object, Turn.withFlow]
    split
    · exact .pure hl'
    · exact hdone p fd r rest before s' _ hlive hl'

/-- **A read**, and what follows it. -/
theorem simulates_hasRead (hdone : Simulates done done') :
    Simulates (State.hasRead n done) (Turn.hasRead n done') := by
  intro p fd r rest before s t hlive hl
  unfold State.hasRead Turn.hasRead
  split
  · exact .pure hl
  split
  · exact simulates_delflow p fd r rest before s t hlive hl
  · have hupdate := simulates_update
      (u := fun flow => { flow with
        bytesRead := flow.bytesRead + n, bytesToRead := flow.bytesToRead - n })
      (c := fun f => { f with flow := { f.flow with
        bytesRead := f.flow.bytesRead + n, bytesToRead := f.flow.bytesToRead - n } })
      (fun _ _ => rfl) (fun _ => ⟨rfl, rfl, rfl, rfl⟩)
    refine (hupdate p fd r rest before s t hlive hl).bind fun s' hl' => ?_
    obtain ⟨latency, hflow⟩ := hl'.flow hlive
    refine .of_bind hflow ?_
    dsimp only [object, Turn.withFlow]
    split
    · exact .pure hl'
    · exact hdone p fd r rest before s' _ hlive hl'

/-- **The other direction is waited for.** -/
theorem simulates_await {u : FlowObject → FlowObject} {c : TcpRr.Flow → TcpRr.Flow}
    (events : Events)
    (hu : ∀ pl (f : FlowState), u (object pl f) = object pl { f with flow := c f.flow })
    (hc : ∀ f, (c f).events = f.events) :
    Simulates (fun p s => s.epollMod p events >>= State.update p u)
      fun t => t.withFlow (c { t.flow.flow with events := events }) :=
  (simulates_epollMod events).comp (fun _ => rfl)
    (simulates_update (c := fun f => { f with flow := c f.flow }) hu
      fun f => ⟨rfl, rfl, rfl, hc f.flow⟩)

theorem simulates_requestSent :
    Simulates (fun p s => s.requestSent opts p) (Turn.requestSent opts) :=
  simulates_await (c := fun f => { f with bytesToRead := opts.responseSize }) _
    (fun _ _ => rfl) fun _ => rfl

theorem simulates_requestRead :
    Simulates (fun p s => s.requestRead opts ctlFails p) (Turn.requestRead opts ctlFails) := by
  unfold State.requestRead Turn.requestRead
  cases ctlFails with
  | true => exact simulates_delflow
  | false =>
    exact simulates_await (c := fun f => { f with bytesToWrite := opts.responseSize }) _
      (fun _ _ => rfl) fun _ => rfl

variable {opts : RunOptions}

/-- What is counted and recorded when a response was read. -/
theorem simulates_responseRead : Simulates (fun p s => s.responseRead opts tid clock al p)
    (Turn.responseRead opts tid clock) := by
  have hawait := simulates_await (u := fun flow => { flow with bytesToWrite := opts.requestSize })
    (c := fun f => { f with bytesToWrite := opts.requestSize }) ⟨false, true, true⟩
    (fun _ _ => rfl) fun _ => rfl
  exact simulates_count.comp keeps_count <|
    simulates_trackFinishTime.comp keeps_trackFinishTime <|
    (simulates_intervalCollect al opts.interval tid clock.now).comp keeps_intervalCollect hawait

theorem simulates_responseSent :
    Simulates (fun p s => s.responseSent opts tid clock ctlFails al p)
      (Turn.responseSent opts tid clock ctlFails) := by
  have hcollect := simulates_intervalCollect al opts.interval tid clock.now
  cases ctlFails with
  | true =>
    exact simulates_count.comp keeps_count (hcollect.comp keeps_intervalCollect simulates_delflow)
  | false =>
    have hawait := simulates_await (u := fun flow => { flow with bytesToRead := opts.requestSize })
      (c := fun f => { f with bytesToRead := opts.requestSize }) ⟨true, false, true⟩
      (fun _ _ => rfl) fun _ => rfl
    exact simulates_count.comp keeps_count (hcollect.comp keeps_intervalCollect hawait)

/-- **`client_events`** -/
theorem simulates_clientEvents : Simulates (State.clientEvents opts tid ev n clock al)
    (Turn.clientEvents opts tid ev n clock) := by
  unfold State.clientEvents Turn.clientEvents
  by_cases hup : ev.epollrdhup = true
  · simp only [hup, if_true]
    exact simulates_delflow
  by_cases hout : ev.epollout = true
  · simp only [hup, hout, if_true]
    exact simulates_trackWriteTime.comp keeps_trackWriteTime
      (simulates_wrote simulates_requestSent)
  by_cases hin : ev.epollin = true
  · simp only [hup, hout, hin, if_true]
    exact simulates_hasRead simulates_responseRead
  · simp only [hup, hout, hin]
    exact .pure

/-- **`server_events`** -/
theorem simulates_serverEvents : Simulates (State.serverEvents opts tid ev n clock ctlFails al)
    (Turn.serverEvents opts tid ev n clock ctlFails) := by
  unfold State.serverEvents Turn.serverEvents
  by_cases hup : ev.epollrdhup = true
  · simp only [hup, if_true]
    exact simulates_delflow
  by_cases hin : ev.epollin = true
  · simp only [hup, hin, if_true]
    exact simulates_hasRead simulates_requestRead
  by_cases hout : ev.epollout = true
  · simp only [hup, hin, hout, if_true]
    exact simulates_wrote simulates_responseSent
  · simp only [hup, hin, hout]
    exact .pure

/-! ## The threads -/

/-- What the calls for an event return, and the clock. -/
structure RrOutcome where
  numBytes : ℤ
  ctlFails : Bool
  clock : Clock

/-- `tcp_rr` as the loop of a thread sees it. -/
def tcpRr (opts : RunOptions) : Workload where
  Mask := Events
  Outcome := RrOutcome
  client := opts.client
  accepts := !opts.client
  connections := TcpRr.flowsInThread opts.numFlows opts.numThreads
  bytesToRead := if opts.client then 0 else opts.requestSize
  bytesToWrite := if opts.client then opts.requestSize else 0
  events := ⟨true, opts.client, false⟩
  registered := Workers.Registered
  yields r w ev o := Workers.Yields (Workers.call opts ⟨0, r, w, 0, ⟨false, false, false⟩⟩ ev)
    o.numBytes ∧ 0 < o.clock.now.seconds
  handle tid ev o al p s :=
    if opts.client then s.clientEvents opts tid ev o.numBytes o.clock al p
    else s.serverEvents opts tid ev o.numBytes o.clock o.ctlFails al p
  turn tid ev o := Workers.handler opts tid ev o.numBytes o.clock o.ctlFails
  simulates tid ev o al := by
    unfold Workers.handler
    cases opts.client with
    | true => exact simulates_clientEvents
    | false => exact simulates_serverEvents
  keeps hserver haccepts := by simp [hserver] at haccepts

/-- The flows of connections, without that of the listening socket. -/
def strip (opts : RunOptions) (u : Worker) : Worker :=
  { u with flows := (tcpRr opts).connected u }

/-- **A turn of a flow** is one of the worker. -/
theorem strip_put {u : Worker} {j : ℕ} {f : FlowState} {t : Turn} (hf : u.flows[j]? = some f)
    (hj : opts.client = false → j ≠ 0) : ∃ k, (strip opts u).flows[k]? = some f ∧
      strip opts (u.put j t) = (strip opts u).put k t := by
  cases hclient : opts.client with
  | true =>
    refine ⟨j, ?_, ?_⟩
    · simpa [strip, Workload.connected, tcpRr, hclient] using hf
    · simp [strip, Workload.connected, tcpRr, hclient, Worker.put]
  | false =>
    obtain ⟨k, rfl⟩ := Nat.exists_eq_succ_of_ne_zero (hj hclient)
    refine ⟨k, ?_, ?_⟩
    · simpa [strip, Workload.connected, tcpRr, hclient, List.getElem?_tail] using hf
    · cases hflows : u.flows with
      | nil => simp [hflows] at hf
      | cons f' fs => simp [strip, Workload.connected, tcpRr, hclient, Worker.put, hflows]

/-- **A change of a thread that runs** is a step of the worker, or
none. -/
theorem strip_change {l : List Worker} {timeStart : ℚ} {i : ℕ} {u : Worker}
    {c : Workload.Change (tcpRr opts)} {r : Worker × ℚ} (hi : l[i]? = some (strip opts u))
    (hc : c.phase.early = false) (hchange : (tcpRr opts).change u timeStart c r) :
    ∃ ls, Run (Workers.step opts) ⟨l, timeStart⟩ ls ⟨l.set i (strip opts r.1), r.2⟩ := by
  cases c with
  | listen => cases hc
  | connect => cases hc
  | accept =>
    obtain ⟨hserver, -, hne, rfl⟩ := hchange
    have hserver : opts.client = false := hserver
    refine ⟨[.accept i], .single ⟨strip opts u, hserver, hi, ?_⟩⟩
    obtain ⟨f, fs, hflows⟩ := List.exists_cons_of_ne_nil hne
    simp [strip, Workload.connected, tcpRr, hserver, Workload.number, Workload.push, hflows,
      Worker.accept, Workload.newFlow, TcpRr.serverFlow]
  | event j ev o =>
    obtain ⟨f, hf, hlive, hj, hreg, ⟨hyields, hnow⟩, t, ht, rfl⟩ := hchange
    obtain ⟨k, hk, hput⟩ := strip_put (t := t) hf fun hserver =>
      hj hserver (by simp [tcpRr, hserver])
    refine ⟨[.event i k ev o.numBytes o.ctlFails o.clock],
      .single ⟨strip opts u, f, hi, hk, hlive, hreg, hyields, hnow, t, ht, ?_⟩⟩
    rw [hput]
  | close =>
    obtain ⟨f, hserver, hf, hlive, rfl⟩ := hchange
    have hserver : opts.client = false := hserver
    obtain ⟨f', fs, hflows⟩ := List.exists_cons_of_ne_nil (l := u.flows) (by
      rintro hnil
      simp [hnil] at hf)
    have hsame : strip opts { u with flows := u.flows.set 0 { f with deleted := true } } =
        strip opts u := by
      simp [strip, Workload.connected, tcpRr, hserver, hflows]
    refine ⟨[], ?_⟩
    simp only [hsame]
    obtain ⟨hlt, heq⟩ := List.getElem?_eq_some_iff.mp hi
    rw [← heq, List.set_getElem_self hlt]
    exact .refl _

/-- The workers as they begin. -/
theorem strip_worker (i : ℕ) : strip opts ((tcpRr opts).worker i) = Worker.start opts i := by
  cases hclient : opts.client with
  | true =>
    simp [strip, Workload.connected, Workload.worker, Workload.newFlow, tcpRr, hclient,
      Worker.start, TcpRr.clientFlow]
  | false => simp [strip, Workload.connected, Workload.worker, tcpRr, hclient, Worker.start]

/-- Once the barrier is passed, a run of the threads is one of the
workers. -/
theorem follows_workers {n : ℕ} {v : Workload.Values} {ls : List (Workload.Label (tcpRr opts))}
    (hn : n = opts.numThreads) (hrun : Run (tcpRr opts).step (Workload.Values.start n) ls v)
    (hstarted : v.started = true) : ∃ ls', Run (Workers.step opts) (Workers.start opts) ls'
      ⟨v.threads.map (strip opts), v.timeStart⟩ := by
  obtain ⟨ls', hrun'⟩ := Workload.follows Workers.mk (strip opts)
    (fun _ _ _ _ _ _ hi hc hchange => strip_change hi hc hchange) hrun hstarted
  simp only [strip_worker, hn] at hrun'
  exact ⟨ls', hrun'⟩

/-- **`tcp_rr` in memory is `tcp_rr` on values.** In every run there is
no fault, and once the threads have passed the barrier, what they have
in memory is what workers have after a run. -/
theorem tcpRr_refines {stopEfds : List ℕ} {ls : List (System.Label (tcpRr opts))}
    {s : System (tcpRr opts)} (hn : stopEfds.length = opts.numThreads)
    (hrun : Run System.step (System.start (tcpRr opts) stopEfds) ls s) :
    s.Safe ∧ ∃ v, Rep s v ∧ (v.started → ∃ ls',
      Run (Workers.step opts) (Workers.start opts) ls'
        ⟨v.threads.map (strip opts), v.timeStart⟩) := by
  obtain ⟨ls', v, hv, hrep⟩ := exists_run hrun
  exact ⟨hrep.safe, v, hrep, follows_workers hn hv⟩

/-! ## Two flows -/

/-- A thread makes two flows, and the first sends its request. -/
def pairLabels : List (System.Label (tcpRr TcpRr.pairOptions)) :=
  let al := Malloc.above Object
  [.act 0 (.addStop al), .act 0 (.connect 4 al), .act 0 (.connect 5 al), .act 0 .ready, .barrier,
    .act 0 (.wait [(2, ⟨false, true, false⟩)]),
    .act 0 (.event none ⟨1, false, .atSecond 1⟩ al)]

/-- Then the stop event ends the loop, and its flow is the first that was
made. -/
def pairRest : List (System.Label (tcpRr TcpRr.pairOptions)) :=
  let al := Malloc.above Object
  [.act 0 (.wait [(1, ⟨true, false, false⟩)]), .act 0 (.event none ⟨-1, false, .atSecond 1⟩ al),
    .act 0 .leave, .freeSamples 0]

/-- The flow at 2 is the first that is connected. -/
theorem pair_runs : ∃ s s',
    Run System.step (System.start (tcpRr TcpRr.pairOptions) [3]) pairLabels s ∧
      Run System.step s pairRest s' ∧ ∀ t ∈ s'.threads, t.phase = .freed := by
  have hone : (1 : ℤ) = -1 ∨ (0 ≤ (1 : ℤ) ∧ (1 : ℤ) ≤ 1) := .inr ⟨by decide, by decide⟩
  have hclock : 0 < (Timespec.atSecond 1).seconds := by
    rw [Timespec.seconds_atSecond]
    norm_num
  have hwritable : (tcpRr TcpRr.pairOptions).registered ⟨true, true, true⟩ ⟨false, true, false⟩ :=
    ⟨fun _ => rfl, nofun⟩
  have hstop : (tcpRr TcpRr.pairOptions).registered ⟨true, false, false⟩ ⟨true, false, false⟩ :=
    ⟨nofun, fun _ => rfl⟩
  refine ⟨_, _, .cons ⟨⟨_, rfl, rfl, rfl, .inl rfl⟩, rfl⟩ <|
    .cons ⟨⟨_, rfl, rfl, rfl, rfl, Nat.zero_lt_two, by decide, nofun, by decide⟩, rfl⟩ <|
    .cons ⟨⟨_, rfl, rfl, rfl, rfl, Nat.one_lt_two, by decide, nofun, by decide⟩, rfl⟩ <|
    .cons ⟨⟨_, rfl, rfl, rfl, fun _ => rfl⟩, rfl⟩ <|
    .cons ⟨?_, rfl⟩ <|
    .cons ⟨⟨_, rfl, rfl, rfl, rfl,
      [(⟨4, 2, ⟨true, true, true⟩⟩, ⟨false, true, false⟩)], ?_, ?_, rfl⟩, rfl⟩ <|
    .single ⟨⟨_, rfl, rfl, 2, _, _, rfl, nofun, ?_⟩, rfl⟩,
    .cons ⟨⟨_, rfl, rfl, rfl, rfl,
      [(⟨3, 1, ⟨true, false, false⟩⟩, ⟨true, false, false⟩)], ?_, ?_, rfl⟩, rfl⟩ <|
    .cons ⟨⟨_, rfl, rfl, 1, _, _, rfl, nofun, ?_⟩, rfl⟩ <|
    .cons ⟨⟨_, rfl, rfl, rfl, rfl⟩, rfl⟩ <|
    .single ⟨⟨⟨_, rfl, rfl⟩, ?_⟩, rfl⟩, ?_⟩
  · intro t ht
    obtain rfl := List.mem_singleton.mp ht
    rfl
  · exact List.nodup_singleton _
  · rintro _ he
    rw [List.mem_singleton.mp he]
    exact ⟨List.mem_cons_of_mem _ List.mem_cons_self, hwritable⟩
  · rintro flow hflow
    cases hflow
    exact ⟨hone, hclock⟩
  · exact List.nodup_singleton _
  · rintro _ he
    rw [List.mem_singleton.mp he]
    exact ⟨List.mem_cons_of_mem _ (List.mem_cons_of_mem _ List.mem_cons_self), hstop⟩
  · rintro flow hflow
    cases hflow
    exact ⟨.inl rfl, hclock⟩
  · intro t ht
    obtain rfl := List.mem_singleton.mp ht
    exact .inl rfl
  · intro t ht
    obtain rfl := List.mem_singleton.mp ht
    rfl

/-- Two flows, and memory is used as it should be. -/
theorem tcpRr_refines_pair : ∃ s,
    Run System.step (System.start (tcpRr TcpRr.pairOptions) [3]) pairLabels s ∧ s.Safe ∧
      ∃ v, Rep s v ∧ (v.started → ∃ ls',
        Run (Workers.step TcpRr.pairOptions) (Workers.start TcpRr.pairOptions) ls'
          ⟨v.threads.map (strip TcpRr.pairOptions), v.timeStart⟩) :=
  pair_runs.imp fun _ hruns => hruns.elim fun _ hrun => ⟨hrun.1, tcpRr_refines rfl hrun.1⟩

/-- **What `tcp_rr` does not free.** When the samples of all threads are
freed, what is left are the three objects of each connection that no
event has deleted, of which the list of latencies with its blocks is one,
and nothing else. -/
theorem tcpRr_leftOver {stopEfds : List ℕ} {ls : List (System.Label (tcpRr opts))}
    {s : System (tcpRr opts)} (hn : stopEfds.length = opts.numThreads)
    (hrun : Run System.step (System.start (tcpRr opts) stopEfds) ls s)
    (hfreed : ∀ t ∈ s.threads, t.phase = .freed) :
    ∃ ls' w, Run (Workers.step opts) (Workers.start opts) ls' w ∧
      s.LeftOver (w.threads.flatMap Worker.flows) := by
  obtain ⟨ls', v, hv, hrep⟩ := exists_run hrun
  have hne : v.threads ≠ [] := by
    have hlength := Workload.length_threads hv
    rintro hnil
    rw [hnil, List.length_nil, hn] at hlength
    exact opts.numThreads_pos.ne hlength
  obtain ⟨ls'', hrun'⟩ := follows_workers hn hv (hrep.started hne hfreed)
  refine ⟨ls'', _, hrun', ?_⟩
  have hflows : (v.threads.map (strip opts)).flatMap Worker.flows =
      v.threads.flatMap (tcpRr opts).connected := List.flatMap_map ..
  rw [hflows]
  exact hrep.leftOver hfreed

/-- The two flows are left, which no event has deleted. -/
theorem tcpRr_leftOver_pair : ∃ s,
    Run System.step (System.start (tcpRr TcpRr.pairOptions) [3]) (pairLabels ++ pairRest) s ∧
      ∃ ls' w, Run (Workers.step TcpRr.pairOptions) (Workers.start TcpRr.pairOptions) ls' w ∧
        s.LeftOver (w.threads.flatMap Worker.flows) := by
  obtain ⟨s, s', hrun, hrest, hfreed⟩ := pair_runs
  exact ⟨s', hrun.append hrest, tcpRr_leftOver rfl (hrun.append hrest) hfreed⟩

end Flow

end Rushit
