import Rushit.Flow.Follow
import Rushit.Flow.Lifetime
import Rushit.Stream.Workers
/-!
# The flows of `tcp_stream` and `udp_stream`

`process_events` of `tcp_stream.c` and of `udp_stream.c` on memory, as
it follows the pointer that epoll hands back: three directions one after
the other, each of which may be driven until its call fails. They do
what those of `Rushit.Stream.Workers` do on values.
-/

namespace Rushit

namespace Flow

open Ram (Fault Malloc deref Returns)
open TcpRr (FlowState Turn Worker)
open Rushit.Stream (RunOptions Call Direction Handled Mask counts wanted handleEvent)

/-- What a call returns, and the clock. -/
abbrev Results := List (ℤ × Timespec)

namespace State

/-- `flow->bytes_read += num_bytes`, `flow->transactions++` and
`interval_collect`. -/
def transferred (opts : RunOptions) (tid : ℕ) (n : ℤ) (now : Timespec) (al : Malloc Object)
    (p : ℕ) (s : State) : Except Fault State := do
  let s ← s.update p fun flow => { flow with
    bytesRead := flow.bytesRead + n, transactions := flow.transactions + 1 }
  s.intervalCollect al opts.interval tid now p

/-- What follows a call that returned `n`. -/
def called (opts : RunOptions) (tid : ℕ) (dir : Direction) (n : ℤ) (now : Timespec)
    (al : Malloc Object) (p : ℕ) (s : State) : Except Fault State :=
  if counts opts.workload dir n then s.transferred opts tid n now al p else pure s

/-- The calls for one direction: `again` is whether the handler jumps
back after each call, `eof` whether a 0 deletes the flow, and `next` is
the direction that follows. -/
def drive (opts : RunOptions) (tid : ℕ) (al : Malloc Object) (dir : Direction) (again eof : Bool)
    (next : Results → ℕ → State → Except Fault State) :
    Results → ℕ → State → Except Fault State
  | [], _, s => pure s
  | (n, now) :: results, p, s => do
    -- the call is passed `flow->fd`
    let _ ← s.flow p
    if n = -1 then pure s
    else if eof ∧ n = 0 then s.delflow p
    else
      let s ← s.called opts tid dir n now al p
      if again then drive opts tid al dir again eof next results p s else next results p s

/-- One direction of a handler. -/
def serve (opts : RunOptions) (tid : ℕ) (al : Malloc Object) (dir : Direction)
    (wanted again eof : Bool) (next : Results → ℕ → State → Except Fault State)
    (results : Results) (p : ℕ) (s : State) : Except Fault State :=
  if wanted then s.drive opts tid al dir again eof next results p else next results p s

/-- The end of the loop body. -/
def finish (_ : Results) (_ : ℕ) (s : State) : Except Fault State := pure s

/-- The loop body of `process_events` of `tcp_stream.c`. -/
def tcpEvent (opts : RunOptions) (tid : ℕ) (mask : Mask) (al : Malloc Object)
    (results : Results) (p : ℕ) (s : State) : Except Fault State :=
  if mask.epollrdhup then s.delflow p
  else
    s.serve opts tid al .read (wanted opts.toOptions mask .read) opts.edgeTrigger true
      (fun results p s =>
        s.serve opts tid al .write (wanted opts.toOptions mask .write) opts.edgeTrigger false
          (fun results p s =>
            s.serve opts tid al .readerr (wanted opts.toOptions mask .readerr) false false
              finish results p) results p) results p

/-- The loop body of `process_events` of `udp_stream.c`. -/
def udpEvent (opts : RunOptions) (tid : ℕ) (mask : Mask) (al : Malloc Object)
    (results : Results) (p : ℕ) (s : State) : Except Fault State :=
  s.serve opts tid al .read (wanted opts.toOptions mask .read) opts.edgeTrigger false
    (fun results p s =>
      s.serve opts tid al .write (wanted opts.toOptions mask .write) opts.edgeTrigger false
        (fun results p s =>
          s.serve opts tid al .readerr (wanted opts.toOptions mask .readerr) opts.edgeTrigger false
            finish results p) results p) results p

/-- `process_events` for one event of a flow. -/
def streamEvent (opts : RunOptions) (tid : ℕ) (mask : Mask) (results : Results)
    (al : Malloc Object) (p : ℕ) (s : State) : Except Fault State :=
  match opts.workload with
  | .tcp => s.tcpEvent opts tid mask al results p
  | .udp => s.udpEvent opts tid mask al results p

end State

/-! ## The same on values -/

namespace Values

/-- The calls for one direction. -/
def drive (opts : RunOptions) (tid : ℕ) (dir : Direction) (again eof : Bool)
    (next : Results → Turn → Turn) : Results → Turn → Turn
  | [] => id
  | (n, now) :: results =>
    if n = -1 then id
    else if eof ∧ n = 0 then Turn.delflow
    else
      let after := if again then drive opts tid dir again eof next results else next results
      fun t => after (Stream.called opts tid dir n now t)

def serve (opts : RunOptions) (tid : ℕ) (dir : Direction) (wanted again eof : Bool)
    (next : Results → Turn → Turn) (results : Results) : Turn → Turn :=
  if wanted then drive opts tid dir again eof next results else next results

def finish (_ : Results) : Turn → Turn := id

def tcpEvent (opts : RunOptions) (tid : ℕ) (mask : Mask) (results : Results) : Turn → Turn :=
  if mask.epollrdhup then Turn.delflow
  else
    serve opts tid .read (wanted opts.toOptions mask .read) opts.edgeTrigger true
      (serve opts tid .write (wanted opts.toOptions mask .write) opts.edgeTrigger false
        (serve opts tid .readerr (wanted opts.toOptions mask .readerr) false false finish))
      results

def udpEvent (opts : RunOptions) (tid : ℕ) (mask : Mask) (results : Results) : Turn → Turn :=
  serve opts tid .read (wanted opts.toOptions mask .read) opts.edgeTrigger false
    (serve opts tid .write (wanted opts.toOptions mask .write) opts.edgeTrigger false
      (serve opts tid .readerr (wanted opts.toOptions mask .readerr) opts.edgeTrigger false finish))
    results

def streamEvent (opts : RunOptions) (tid : ℕ) (mask : Mask) (results : Results) : Turn → Turn :=
  match opts.workload with
  | .tcp => tcpEvent opts tid mask results
  | .udp => udpEvent opts tid mask results

end Values

section Simulates

variable {opts : RunOptions} {tid : ℕ} {dir : Direction} {n : ℤ} {now : Timespec}
variable {al : Malloc Object} {wanted again eof : Bool} {mask : Mask} {results : Results}
variable {next : Results → ℕ → State → Except Fault State} {next' : Results → Turn → Turn}

theorem keeps_called : Keeps (Stream.called opts tid dir n now) := by
  intro t
  unfold Stream.called
  split
  · exact keeps_intervalCollect _
  · rfl

/-- **What follows a call.** -/
theorem simulates_called : Simulates (fun p s => s.called opts tid dir n now al p)
    (Stream.called opts tid dir n now) := by
  unfold State.called Stream.called
  split
  · exact (simulates_update (u := fun flow => { flow with
      bytesRead := flow.bytesRead + n, transactions := flow.transactions + 1 })
      (c := fun f => { f with flow := { f.flow with
        bytesRead := f.flow.bytesRead + n, transactions := f.flow.transactions + 1 } })
      (fun _ _ => rfl) fun _ => ⟨rfl, rfl, rfl, rfl⟩).comp (fun _ => rfl)
      (simulates_intervalCollect al opts.interval tid now)
  · exact .pure

/-- A function that looks at the flow first. -/
theorem Simulates.of_flow {f : ℕ → State → Except Fault State} {g : Turn → Turn}
    (h : Simulates f g) : Simulates (fun p s => do let _ ← s.flow p; f p s) g := by
  intro p fd r rest before s t hlive hl
  obtain ⟨latency, hflow⟩ := hl.flow hlive
  exact .of_bind hflow (h p fd r rest before s t hlive hl)

/-- **The calls for one direction**, by induction on what they return. -/
theorem simulates_drive (hnext : ∀ results, Simulates (next results) (next' results)) :
    Simulates (fun p s => s.drive opts tid al dir again eof next results p)
      (Values.drive opts tid dir again eof next' results) := by
  induction results with
  | nil => exact .pure
  | cons result results ih =>
    obtain ⟨n, now⟩ := result
    unfold State.drive Values.drive
    refine .of_flow ?_
    by_cases hfailed : n = -1
    · simp only [hfailed, if_true]
      exact .pure
    by_cases hclosed : eof = true ∧ n = 0
    · obtain ⟨rfl, rfl⟩ := hclosed
      exact simulates_delflow
    simp only [hclosed, hfailed, if_false]
    refine simulates_called.comp keeps_called ?_
    cases again with
    | true => exact ih
    | false => exact hnext results

theorem simulates_serve (hnext : ∀ results, Simulates (next results) (next' results)) :
    Simulates (fun p s => s.serve opts tid al dir wanted again eof next results p)
      (Values.serve opts tid dir wanted again eof next' results) := by
  unfold State.serve Values.serve
  cases wanted with
  | true => exact simulates_drive hnext
  | false => exact hnext results

theorem simulates_finish : ∀ results, Simulates (State.finish results) (Values.finish results) :=
  fun _ => .pure

/-- **`process_events`** of both. -/
theorem simulates_streamEvent : Simulates (State.streamEvent opts tid mask results al)
    (Values.streamEvent opts tid mask results) := by
  unfold State.streamEvent Values.streamEvent
  cases opts.workload with
  | tcp =>
    unfold State.tcpEvent Values.tcpEvent
    by_cases hup : mask.epollrdhup = true
    · simp only [hup, if_true]
      exact simulates_delflow
    · simp only [hup]
      exact simulates_serve fun _ => simulates_serve fun _ => simulates_serve simulates_finish
  | udp =>
    exact simulates_serve fun _ => simulates_serve fun _ => simulates_serve simulates_finish

/-! ## A flow that is kept -/

theorem keeps_drive (hnext : ∀ results, Keeps (next' results)) :
    Keeps (Values.drive opts tid dir again false next' results) := by
  induction results with
  | nil => exact fun _ => rfl
  | cons result results ih =>
    obtain ⟨n, now⟩ := result
    unfold Values.drive
    by_cases hfailed : n = -1
    · rw [if_pos hfailed]
      exact fun _ => rfl
    · rw [if_neg hfailed, if_neg (by simp)]
      refine keeps_called.comp ?_
      cases again with
      | true => exact ih
      | false => exact hnext results

theorem keeps_serve (hnext : ∀ results, Keeps (next' results)) (results : Results) :
    Keeps (Values.serve opts tid dir wanted again false next' results) := by
  unfold Values.serve
  cases wanted with
  | true => exact keeps_drive hnext
  | false => exact hnext results

/-- **`udp_stream` deletes no flow.** -/
theorem keeps_udp (hudp : opts.workload = .udp) (tid : ℕ) (mask : Mask) (results : Results) :
    Keeps (Values.streamEvent opts tid mask results) := by
  unfold Values.streamEvent
  rw [hudp]
  exact keeps_serve (keeps_serve (keeps_serve fun _ _ => rfl)) results

end Simulates

/-! ## The threads -/

/-- `tcp_stream` or `udp_stream` as the loop of a thread sees it. Only
`tcp_stream` tells the listening socket apart. -/
def stream (opts : RunOptions) : Workload where
  Mask := Mask
  Outcome := Results
  client := opts.client
  accepts := opts.workload = .tcp
  connections := TcpRr.flowsInThread opts.numFlows opts.numThreads
  bytesToRead := 0
  bytesToWrite := 0
  events := ⟨opts.enableRead, opts.enableWrite, false⟩
  registered events mask := (mask.epollin → events.epollin) ∧ (mask.epollout → events.epollout) ∧
    (mask.epollrdhup → events.epollrdhup)
  yields _ _ mask results := (∀ r ∈ results, -1 ≤ r.1 ∧ 0 < r.2.seconds) ∧
    (handleEvent opts.workload opts.toOptions mask (results.map Prod.fst)).isSome
  handle tid mask results al p s := s.streamEvent opts tid mask results al p
  turn := Values.streamEvent opts
  simulates tid mask results al := simulates_streamEvent
  keeps hserver haccepts tid mask results := by
    refine keeps_udp ?_ tid mask results
    cases hw : opts.workload with
    | tcp => simp [hw] at haccepts
    | udp => rfl

/-! ## Event by event -/

/-- What follows calls, one after the other. -/
def replay (opts : RunOptions) (tid : ℕ) (calls : List (Call × Timespec)) (t : Turn) : Turn :=
  calls.foldl (fun t c => Stream.called opts tid c.1.dir c.1.ret c.2 t) t

section Replay

variable {opts : RunOptions} {tid : ℕ} {dir : Direction} {wanted again eof : Bool} {mask : Mask}
variable {results : Results} {next : List ℤ → Option Handled} {next' : Results → Turn → Turn}
variable {h : Handled} {len : ℤ}

/-- **A handler is its calls**, and whether it deletes the flow. -/
def Replays (opts : RunOptions) (tid : ℕ) (results : Results) (h : Handled) (g : Turn → Turn) :
    Prop :=
  ∃ calls : List (Call × Timespec), h.calls = calls.map Prod.fst ∧
    (∀ c ∈ calls, (c.1.ret, c.2) ∈ results) ∧
    ∀ t, g t = if h.deleted then (replay opts tid calls t).delflow else replay opts tid calls t

/-- No call is made. -/
theorem replays_nil (deleted : Bool) : Replays opts tid results ⟨deleted, []⟩
    (if deleted then Turn.delflow else id) :=
  ⟨[], rfl, nofun, fun t => by cases deleted <;> rfl⟩

/-- One more call before those. -/
theorem Replays.cons {g : Turn → Turn} (hg : Replays opts tid results h g) (dir : Direction)
    (len n : ℤ) (now : Timespec) : Replays opts tid ((n, now) :: results)
      ⟨h.deleted, ⟨dir, len, n⟩ :: h.calls⟩ fun t => g (Stream.called opts tid dir n now t) := by
  obtain ⟨calls, hcalls, hmem, heq⟩ := hg
  refine ⟨(⟨dir, len, n⟩, now) :: calls, by rw [hcalls]; rfl, fun c hc => ?_, fun t => heq _⟩
  rcases List.mem_cons.mp hc with rfl | hc
  · exact List.mem_cons_self
  · exact List.mem_cons_of_mem _ (hmem c hc)

/-- A call that is not counted changes nothing. -/
theorem Replays.uncounted {g : Turn → Turn} {n : ℤ} {now : Timespec}
    (hg : Replays opts tid results h g) (hn : counts opts.workload dir n = false) :
    Replays opts tid ((n, now) :: results) ⟨h.deleted, ⟨dir, len, n⟩ :: h.calls⟩ g := by
  have hcons := hg.cons dir len n now
  have hsame : (fun t => g (Stream.called opts tid dir n now t)) = g := by
    funext t
    rw [Stream.called, hn]
    rfl
  rwa [hsame] at hcons

/-- A call that fails is not counted. -/
theorem counts_failed (w : Stream.Workload) : counts w dir (-1) = false := by
  cases w <;> cases dir <;> rfl

/-- A call that succeeds is followed by the next, or by the direction
that follows. -/
theorem serve_cons {n : ℤ} {rs : List ℤ} (hfailed : n ≠ -1) (hclosed : ¬ (eof = true ∧ n = 0)) :
    Stream.serve dir len true again eof next (n :: rs) =
      (if again then Stream.serve dir len true again eof next rs else next rs).map
        fun h => ⟨h.deleted, ⟨dir, len, n⟩ :: h.calls⟩ := by
  cases again with
  | false => simp [Stream.serve, Stream.drive, hfailed, hclosed]
  | true =>
    simp only [Stream.serve, Stream.drive, hfailed, hclosed, if_true, if_false]
    cases hdrive : Stream.drive true eof rs with
    | none => rfl
    | some d =>
      obtain ⟨exit, used, rest⟩ := d
      cases exit with
      | failed => rfl
      | closed => rfl
      | done => simp [Function.comp_def]

/-- **One direction**, by induction on what the calls return. -/
theorem replays_drive (heof : eof = true → counts opts.workload dir 0 = false)
    (hnext : ∀ results h, next (results.map Prod.fst) = some h →
      Replays opts tid results h (next' results))
    (hserve : Stream.serve dir len true again eof next (results.map Prod.fst) = some h) :
    Replays opts tid results h (Values.drive opts tid dir again eof next' results) := by
  induction results generalizing h with
  | nil => cases hserve
  | cons result results ih =>
    obtain ⟨n, now⟩ := result
    rw [List.map_cons] at hserve
    unfold Values.drive
    by_cases hfailed : n = -1
    · subst hfailed
      obtain rfl : ⟨false, [⟨dir, len, -1⟩]⟩ = h := Option.some.inj hserve
      exact (replays_nil false).uncounted (counts_failed _)
    by_cases hclosed : eof = true ∧ n = 0
    · obtain ⟨rfl, rfl⟩ := hclosed
      obtain rfl : ⟨true, [⟨dir, len, 0⟩]⟩ = h := Option.some.inj hserve
      exact (replays_nil true).uncounted (heof rfl)
    rw [serve_cons hfailed hclosed, Option.map_eq_some_iff] at hserve
    obtain ⟨h, hrest, rfl⟩ := hserve
    rw [if_neg hfailed, if_neg hclosed]
    refine Replays.cons ?_ dir len n now
    cases again with
    | true => exact ih hrest
    | false => exact hnext results h hrest

theorem replays_serve (heof : eof = true → counts opts.workload dir 0 = false)
    (hnext : ∀ results h, next (results.map Prod.fst) = some h →
      Replays opts tid results h (next' results)) (results : Results) (h : Handled)
    (hserve : Stream.serve dir len wanted again eof next (results.map Prod.fst) = some h) :
    Replays opts tid results h (Values.serve opts tid dir wanted again eof next' results) := by
  unfold Values.serve
  cases wanted with
  | true => exact replays_drive heof hnext hserve
  | false => exact hnext results h hserve

theorem replays_finish (results : Results) (h : Handled)
    (hfinish : Stream.finish (results.map Prod.fst) = some h) :
    Replays opts tid results h (Values.finish results) := by
  obtain rfl : ⟨false, []⟩ = h := Option.some.inj hfinish
  exact replays_nil false

/-- **`process_events`** makes the calls of `handleEvent`. -/
theorem replays_streamEvent (tid : ℕ)
    (hevent : handleEvent opts.workload opts.toOptions mask (results.map Prod.fst) = some h) :
    Replays opts tid results h (Values.streamEvent opts tid mask results) := by
  have hnever : ∀ dir, false = true → counts opts.workload dir 0 = false :=
    fun _ h => absurd h Bool.false_ne_true
  unfold Values.streamEvent
  cases hw : opts.workload with
  | tcp =>
    have hzero : true = true → counts opts.workload .read 0 = false := fun _ => by rw [hw]; rfl
    rw [hw] at hevent
    change Stream.tcpEvent opts.toOptions mask (results.map Prod.fst) = some h at hevent
    change Replays opts tid results h (Values.tcpEvent opts tid mask results)
    unfold Stream.tcpEvent at hevent
    unfold Values.tcpEvent
    by_cases hup : mask.epollrdhup = true
    · rw [if_pos hup] at hevent ⊢
      obtain rfl : ⟨true, []⟩ = h := Option.some.inj hevent
      exact replays_nil true
    · rw [if_neg hup] at hevent ⊢
      exact replays_serve hzero (replays_serve (hnever _) (replays_serve (hnever _) replays_finish))
        results h hevent
  | udp =>
    rw [hw] at hevent
    change Stream.udpEvent opts.toOptions mask (results.map Prod.fst) = some h at hevent
    unfold Stream.udpEvent at hevent
    exact replays_serve (hnever _)
      (replays_serve (hnever _) (replays_serve (hnever _) replays_finish)) results h hevent

end Replay

/-! ## The threads on values -/

section View

variable {opts : RunOptions} {tid i j : ℕ} {dir : Direction} {n : ℤ} {now : Timespec}
variable {f : FlowState} {u : Worker} {t : Turn} {r : Worker × ℚ}
variable {c : Workload.Change (stream opts)}
variable {calls : List (Call × Timespec)} {threads : List Stream.Thread} {timeStart : ℚ}

/-- What every flow is watched for. -/
def interest (opts : RunOptions) : TcpRr.Events := ⟨opts.enableRead, opts.enableWrite, true⟩

/-- A flow with the interest of all. -/
def plain (opts : RunOptions) (t : Turn) : Turn :=
  t.withFlow { t.flow.flow with events := interest opts }

/-- The flow at `j`: a server closes the flow of its listening socket
when its events are over. -/
def seen (opts : RunOptions) (j : ℕ) (f : FlowState) : FlowState :=
  { f with
    flow := { f.flow with events := interest opts }
    deleted := f.deleted && (opts.client || j != 0) }

/-- A thread between events. -/
def view (opts : RunOptions) (u : Worker) : Stream.Thread :=
  ⟨{ u with flows := u.flows.mapIdx (seen opts) }, none⟩

/-- No call looks at the interest. -/
theorem called_plain : Stream.called opts tid dir n now (plain opts t) =
    plain opts (Stream.called opts tid dir n now t) := by
  have hinit : ∀ t : Turn, (plain opts t).ensureInitialized now =
      plain opts (t.ensureInitialized now) := by
    intro t
    by_cases hlast : t.flow.lastTime = 0 <;>
      simp [Turn.ensureInitialized, plain, Turn.withFlow, hlast]
  have hcollect : ∀ t : Turn, (plain opts t).intervalCollect opts.interval tid now =
      plain opts (t.intervalCollect opts.interval tid now) := by
    intro t
    unfold Turn.intervalCollect
    rw [hinit]
    generalize t.ensureInitialized now = t
    by_cases hdue : now.seconds - t.flow.lastTime < opts.interval <;>
      simp [plain, Turn.withFlow, Turn.addSample, Turn.getNextTime, hdue]
  have hadd : (plain opts t).withFlow { (plain opts t).flow.flow with
        bytesRead := (plain opts t).flow.flow.bytesRead + n
        transactions := (plain opts t).flow.flow.transactions + 1 } =
      plain opts (t.withFlow { t.flow.flow with
        bytesRead := t.flow.flow.bytesRead + n
        transactions := t.flow.flow.transactions + 1 }) := rfl
  unfold Stream.called
  split
  · unfold Stream.transferred
    rw [hadd]
    exact hcollect _
  · rfl

theorem replay_plain : replay opts tid calls (plain opts t) =
    plain opts (replay opts tid calls t) := by
  induction calls generalizing t with
  | nil => rfl
  | cons c calls ih =>
    show replay opts tid calls (Stream.called opts tid c.1.dir c.1.ret c.2 (plain opts t)) = _
    rw [called_plain]
    exact ih

theorem keeps_replay : Keeps (replay opts tid calls) := by
  induction calls with
  | nil => exact fun _ => rfl
  | cons c calls ih => exact keeps_called.comp ih

/-- **The calls of an event**, one step each. -/
theorem run_calls {w : Worker} {deletes : Bool}
    (hth : threads[i]? = some ⟨w, some ⟨j, calls.map Prod.fst, deletes⟩⟩)
    (hf : w.flows[j]? = some f) (hclocks : ∀ c ∈ calls, 0 < c.2.seconds)
    (ht : t = replay opts w.index calls ⟨f, w.transactions, w.samples, timeStart⟩) :
    Run (Stream.Workers.step opts) ⟨threads, timeStart⟩ (calls.map fun c => .call i c.2)
      ⟨threads.set i ⟨w.put j t, some ⟨j, [], deletes⟩⟩, t.timeStart⟩ := by
  induction calls generalizing w f threads timeStart with
  | nil =>
    obtain ⟨hi, hget⟩ := List.getElem?_eq_some_iff.mp hth
    obtain ⟨hj, rfl⟩ := List.getElem?_eq_some_iff.mp hf
    have hsame : w.put j t = w := by
      rw [ht]
      show { w with flows := w.flows.set j w.flows[j] } = w
      rw [List.set_getElem_self]
    have hset : threads.set i ⟨w.put j t, some ⟨j, [], deletes⟩⟩ = threads := by
      rw [hsame]
      exact (congrArg (threads.set i) hget).symm.trans (List.set_getElem_self hi)
    rw [hset, ht]
    exact .refl _
  | cons c calls ih =>
    obtain ⟨call, now⟩ := c
    have hi := (List.getElem?_eq_some_iff.mp hth).1
    have hj := (List.getElem?_eq_some_iff.mp hf).1
    -- the turn after the first of the calls
    obtain ⟨t₁, ht₁⟩ : ∃ t₁, t₁ = Stream.called opts w.index call.dir call.ret now
      ⟨f, w.transactions, w.samples, timeStart⟩ := ⟨_, rfl⟩
    have hafter : t = replay opts (w.put j t₁).index calls
        ⟨t₁.flow, (w.put j t₁).transactions, (w.put j t₁).samples, t₁.timeStart⟩ := by
      rw [ht, ht₁]
      rfl
    have hrest := ih (List.getElem?_set_self (l := threads) hi) (List.getElem?_set_self hj)
      (fun c hc => hclocks c (List.mem_cons_of_mem _ hc)) hafter
    have hput : (w.put j t₁).put j t = w.put j t := by
      simp [Worker.put, List.set_set]
    rw [List.set_set, hput] at hrest
    exact .cons ⟨_, j, call, _, deletes, f, t₁, hth, rfl, hf, hclocks _ List.mem_cons_self, ht₁,
      rfl⟩ hrest

/-- A flow that is there. -/
theorem seen_live (hlive : f.deleted = false) (t : Turn) :
    plain opts { t with flow := f } = { t with flow := seen opts j f } := by
  simp [plain, Turn.withFlow, seen, hlive]

/-- **An event of a flow** is its calls, one step each. -/
theorem run_event {mask : Mask} {results : Results} (hi : threads[i]? = some (view opts u))
    (hf : u.flows[j]? = some f) (hlive : f.deleted = false)
    (hj : opts.client = false → opts.workload = .tcp → j ≠ 0)
    (hresults : ∀ r ∈ results, -1 ≤ r.1 ∧ 0 < r.2.seconds)
    (hsome : (handleEvent opts.workload opts.toOptions mask (results.map Prod.fst)).isSome)
    (ht : t = Values.streamEvent opts u.index mask results
      ⟨f, u.transactions, u.samples, timeStart⟩) :
    ∃ ls, Run (Stream.Workers.step opts) ⟨threads, timeStart⟩ ls
      ⟨threads.set i (view opts (u.put j t)), t.timeStart⟩ := by
  obtain ⟨h, hevent⟩ := Option.isSome_iff_exists.mp hsome
  obtain ⟨calls, hcalls, hmem, heq⟩ := replays_streamEvent u.index hevent
  have hlt := (List.getElem?_eq_some_iff.mp hi).1
  have hget : (view opts u).worker.flows[j]? = some (seen opts j f) := by
    simp [view, List.getElem?_mapIdx, hf]
  -- the flow of the listening socket of a server is not deleted
  have hdeletes : (h.deleted && (opts.client || j != 0)) = h.deleted := by
    cases hclient : opts.client with
    | true => simp
    | false =>
      cases hw : opts.workload with
      | tcp => simp [hj hclient hw]
      | udp =>
        have hkeeps := keeps_udp hw u.index mask results
          ⟨f, u.transactions, u.samples, timeStart⟩
        rw [heq, hlive] at hkeeps
        cases hdel : h.deleted with
        | false => rfl
        | true => simp [hdel, Turn.delflow] at hkeeps
  obtain ⟨t', ht'⟩ : ∃ t', t' = replay opts u.index calls
    ⟨f, u.transactions, u.samples, timeStart⟩ := ⟨_, rfl⟩
  have hplain : plain opts t' = replay opts u.index calls
      ⟨seen opts j f, u.transactions, u.samples, timeStart⟩ := by
    rw [ht', ← replay_plain]
    exact congrArg _ (seen_live hlive ⟨f, u.transactions, u.samples, timeStart⟩)
  have hbegin : Stream.Workers.step opts ⟨threads, timeStart⟩
      (.event i j mask (results.map Prod.fst))
      ⟨threads.set i ⟨(view opts u).worker, some ⟨j, h.calls, h.deleted⟩⟩, timeStart⟩ := by
    refine ⟨view opts u, seen opts j f, h, hi, rfl, hget, ?_, fun hw hc => hj hc hw, ?_, hevent,
      rfl⟩
    · simp [seen, hlive]
    · simpa using fun n now hr => (hresults (n, now) hr).1
  rw [hcalls] at hbegin
  have hcall := run_calls (List.getElem?_set_self (l := threads)
      (a := ⟨(view opts u).worker, some ⟨j, _, h.deleted⟩⟩) hlt) hget
    (fun c hc => (hresults _ (hmem c hc)).2) hplain
  rw [List.set_set] at hcall
  have hend : Stream.Workers.step opts
      ⟨threads.set i ⟨(view opts u).worker.put j (plain opts t'), some ⟨j, [], h.deleted⟩⟩,
        (plain opts t').timeStart⟩ (.done i)
      ⟨threads.set i (view opts (u.put j t)), t.timeStart⟩ := by
    refine ⟨_, j, h.deleted, (plain opts t').flow, List.getElem?_set_self hlt, rfl, ?_, ?_⟩
    · exact List.getElem?_set_self (List.getElem?_eq_some_iff.mp hget).1
    · have hseen : seen opts j t.flow = { (plain opts t').flow with
          deleted := (plain opts t').flow.deleted || h.deleted } := by
        have hkept : t'.flow.deleted = false := by
          rw [ht']
          exact (keeps_replay _).trans hlive
        rw [ht, heq, ← ht']
        cases hdel : h.deleted with
        | false => simp [seen, plain, Turn.withFlow, hkept]
        | true =>
          rw [hdel, Bool.true_and] at hdeletes
          simp [seen, plain, Turn.withFlow, Turn.delflow, hdeletes]
      have hsame : t.transactions = t'.transactions ∧ t.samples = t'.samples ∧
          t.timeStart = t'.timeStart := by
        rw [ht, heq, ← ht']
        cases h.deleted <;> exact ⟨rfl, rfl, rfl⟩
      simp [Stream.Workers.put, view, Worker.put, List.mapIdx_set, List.set_set, hseen, hsame,
        plain, Turn.withFlow]
  exact ⟨_, .cons hbegin (hcall.append (.single hend))⟩

/-- A flow that was just made. -/
theorem seen_newFlow (id : ℕ) :
    seen opts j ((stream opts).newFlow id) = Stream.addflow opts id := by
  simp [seen, Workload.newFlow, stream, Stream.addflow, TcpRr.addflow, interest]

/-- **A change of a thread that runs** is a few steps there. -/
theorem view_change (hi : threads[i]? = some (view opts u)) (hc : c.phase.early = false)
    (hchange : (stream opts).change u timeStart c r) :
    ∃ ls, Run (Stream.Workers.step opts) ⟨threads, timeStart⟩ ls
      ⟨threads.set i (view opts r.1), r.2⟩ := by
  cases c with
  | listen => cases hc
  | connect => cases hc
  | accept =>
    obtain ⟨hserver, htcp, hne, rfl⟩ := hchange
    refine ⟨[.accept i], .single ⟨view opts u, of_decide_eq_true htcp, hserver, hi, rfl, ?_⟩⟩
    simp [view, Workload.number, Workload.push, Stream.Thread.accept, Stream.Workers.put,
      List.mapIdx_append, seen_newFlow]
  | event j mask results =>
    obtain ⟨f, hf, hlive, hj, -, ⟨hresults, hsome⟩, t, ht, rfl⟩ := hchange
    exact run_event hi hf hlive (fun hserver htcp => hj hserver (decide_eq_true htcp)) hresults
      hsome ht
  | close =>
    obtain ⟨f, hserver, hf, hlive, rfl⟩ := hchange
    have hserver : opts.client = false := hserver
    have hsame : view opts { u with flows := u.flows.set 0 { f with deleted := true } } =
        view opts u := by
      obtain ⟨hlt, rfl⟩ := List.getElem?_eq_some_iff.mp hf
      have hseen : seen opts 0 { u.flows[0] with deleted := true } = seen opts 0 u.flows[0] := by
        simp [seen, hserver]
      simp only [view, List.mapIdx_set, hseen]
      rw [← List.mapIdx_set, List.set_getElem_self]
    refine ⟨[], ?_⟩
    simp only [hsame]
    obtain ⟨hlt, heq⟩ := List.getElem?_eq_some_iff.mp hi
    rw [← heq, List.set_getElem_self hlt]
    exact .refl _

/-- The threads as they begin. -/
theorem view_worker (i : ℕ) : view opts ((stream opts).worker i) = Stream.Thread.start opts i := by
  cases hclient : opts.client with
  | true =>
    have hflows : ((List.range ((stream opts).connections i)).map (stream opts).newFlow).mapIdx
        (seen opts) = (List.range ((stream opts).connections i)).map (Stream.addflow opts) :=
      List.ext_getElem (by simp) fun k _ _ => by simp [seen_newFlow]
    simp only [view, Workload.worker, Stream.Thread.start, hclient, if_true,
      show (stream opts).client = true from hclient, hflows]
    rfl
  | false =>
    simp [view, Workload.worker, Stream.Thread.start, hclient,
      show (stream opts).client = false from hclient, seen, Workload.listenFlow, Stream.addflow,
      TcpRr.addflow, interest]

end View

/-- **The stream workloads in memory are those on values.** In every run
there is no fault, and once the threads have passed the barrier, what
they have in memory is what the threads of `Rushit.Stream.Workers` have
after a run. -/
theorem stream_refines {opts : RunOptions} {stopEfds : List ℕ}
    {ls : List (System.Label (stream opts))} {s : System (stream opts)}
    (hn : stopEfds.length = opts.numThreads)
    (hrun : Run System.step (System.start (stream opts) stopEfds) ls s) :
    s.Safe ∧ ∃ v, Rep s v ∧ (v.started → ∃ ls',
      Run (Stream.Workers.step opts) (Stream.Workers.start opts) ls'
        ⟨v.threads.map (view opts), v.timeStart⟩) := by
  obtain ⟨ls', v, hv, hrep⟩ := exists_run hrun
  refine ⟨hrep.safe, v, hrep, fun hstarted => ?_⟩
  obtain ⟨ls'', hrun'⟩ := Workload.follows Stream.Workers.mk (view opts)
    (fun _ _ _ _ _ _ hi hc hchange => view_change hi hc hchange) hv hstarted
  simp only [view_worker, hn] at hrun'
  exact ⟨ls'', hrun'⟩

/-! ## One flow -/

/-- A thread makes one flow, which is then closed from the other end. -/
def readerLabels : List (System.Label (stream Stream.readerOptions)) :=
  let al := Malloc.above Object
  [.act 0 (.addStop al), .act 0 (.connect 4 al), .act 0 .ready, .barrier,
    .act 0 (.wait [(2, ⟨true, false, false, false⟩)]),
    .act 0 (.event none [(0, .atSecond 1)] al)]

theorem readerLabels_run :
    ∃ s, Run System.step (System.start (stream Stream.readerOptions) [3]) readerLabels s := by
  have hclock : 0 < (Timespec.atSecond 1).seconds := by
    rw [Timespec.seconds_atSecond]
    norm_num
  have hreadable : (stream Stream.readerOptions).registered ⟨true, false, true⟩
      ⟨true, false, false, false⟩ := ⟨fun _ => rfl, nofun, nofun⟩
  refine ⟨_, .cons ⟨⟨_, rfl, rfl, rfl, .inl rfl⟩, rfl⟩ <|
    .cons ⟨⟨_, rfl, rfl, rfl, rfl, Nat.zero_lt_one, by decide, nofun, by decide⟩, rfl⟩ <|
    .cons ⟨⟨_, rfl, rfl, rfl, fun _ => rfl⟩, rfl⟩ <|
    .cons ⟨?_, rfl⟩ <|
    .cons ⟨⟨_, rfl, rfl, rfl, rfl,
      [(⟨4, 2, ⟨true, false, true⟩⟩, ⟨true, false, false, false⟩)], ?_, ?_, rfl⟩, rfl⟩ <|
    .single ⟨⟨_, rfl, rfl, 2, _, _, rfl, nofun, ?_⟩, rfl⟩⟩
  · intro t ht
    obtain rfl := List.mem_singleton.mp ht
    rfl
  · exact List.nodup_singleton _
  · rintro _ he
    rw [List.mem_singleton.mp he]
    exact ⟨List.mem_cons_self, hreadable⟩
  · rintro flow -
    refine ⟨fun r hr => ?_, rfl⟩
    rw [List.mem_singleton.mp hr]
    exact ⟨by decide, hclock⟩

/-- A flow that is closed, and memory is used as it should be. -/
theorem stream_refines_reader : ∃ s,
    Run System.step (System.start (stream Stream.readerOptions) [3]) readerLabels s ∧ s.Safe ∧
      ∃ v, Rep s v ∧ (v.started → ∃ ls',
        Run (Stream.Workers.step Stream.readerOptions) (Stream.Workers.start Stream.readerOptions)
          ls' ⟨v.threads.map (view Stream.readerOptions), v.timeStart⟩) :=
  readerLabels_run.imp fun _ hrun => ⟨hrun, stream_refines rfl hrun⟩

end Flow

end Rushit
