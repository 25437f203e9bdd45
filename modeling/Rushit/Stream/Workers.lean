import Rushit.Stream.Events
import Rushit.TcpRr.Recording
/-!
# The workers of the stream workloads

The threads of `tcp_stream` and `udp_stream` with all their flows. Which
calls `process_events` makes for an event does not depend on the flow
(`Rushit.Stream.Events`); here is what follows each of them, with the
counters of the flow and the samples (`interval_collect`, `add_sample`),
on the flows and threads of `Rushit.TcpRr.Worker`.

A step is one call of one thread, so that the threads interleave within
an event as well. They share nothing but `time_start`. On the server the
flow with the number 0 is that of the listening socket: `tcp_stream`
accepts from it, and `udp_stream` reads from it as from any other.
-/

namespace Rushit

namespace Stream

open TcpRr (FlowState Turn Worker)

/-- The options of a run; `check_options` asks for a thread and a
positive interval. -/
structure RunOptions extends Options where
  workload : Workload
  client : Bool
  numThreads : ℕ
  numFlows : ℕ
  /-- In seconds. -/
  interval : ℚ
  numThreads_pos : 0 < numThreads
  interval_pos : 0 < interval

/-- `addflow` for a socket of the workload. Nothing is left to read or
write at a count, and the interest never changes. -/
def addflow (opts : RunOptions) (id : ℕ) : FlowState :=
  TcpRr.addflow id ⟨0, 0, 0, 0, ⟨opts.enableRead, opts.enableWrite, true⟩⟩

/-- The calls whose bytes are counted: `tcp_stream` counts what it reads,
and `udp_stream` what it writes as well. A 0 that `tcp_stream` reads
deletes the flow. -/
def counts : Workload → Direction → ℤ → Bool
  | .tcp, .read, n => n ≠ -1 ∧ n ≠ 0
  | .udp, .read, n => n ≠ -1
  | .udp, .write, n => n ≠ -1
  | _, _, _ => false

/-- `flow->bytes_read += num_bytes`, `flow->transactions++` and
`interval_collect`. -/
def transferred (opts : RunOptions) (tid : ℕ) (n : ℤ) (now : Timespec) (t : Turn) : Turn :=
  (t.withFlow { t.flow.flow with
    bytesRead := t.flow.flow.bytesRead + n
    transactions := t.flow.flow.transactions + 1 }).intervalCollect opts.interval tid now

/-- What follows a call that returned `n`. -/
def called (opts : RunOptions) (tid : ℕ) (dir : Direction) (n : ℤ) (now : Timespec) (t : Turn) :
    Turn :=
  if counts opts.workload dir n then transferred opts tid n now t else t

/-! ## The threads -/

/-- An event that is being handled: the flow it is of, the calls that
are still to be made, and whether the flow is deleted then. -/
structure Pending where
  flow : ℕ
  calls : List Call
  deletes : Bool

structure Thread where
  worker : Worker
  pending : Option Pending

/-- A thread when its events begin: `run_client` has made the flows of a
client, and `run_server` that of the listening socket. -/
def Thread.start (opts : RunOptions) (index : ℕ) : Thread where
  worker :=
    { index := index
      nextFlowId := if opts.client then 0 else 1
      transactions := 0
      samples := []
      flows := if opts.client then
        (List.range (TcpRr.flowsInThread opts.numFlows opts.numThreads index)).map (addflow opts)
        else [addflow opts 0] }
  pending := none

/-- `server_accept` of `tcp_stream.c` -/
def Thread.accept (opts : RunOptions) (th : Thread) : Thread :=
  { th with worker := { th.worker with
    flows := th.worker.flows ++ [addflow opts th.worker.nextFlowId]
    nextFlowId := th.worker.nextFlowId + 1 } }

/-- The threads, and what they share. -/
structure Workers where
  threads : List Thread
  timeStart : ℚ

namespace Workers

/-- Before the first event. -/
def start (opts : RunOptions) : Workers :=
  ⟨(List.range opts.numThreads).map (Thread.start opts), 0⟩

/-- The lists of samples of the threads. -/
def samples (s : Workers) : List (List Sample) := s.threads.map fun th => th.worker.samples

inductive Label
  /-- Thread `i` accepts a connection. -/
  | accept (i : ℕ)
  /-- Thread `i` turns to an event of its flow at `j`; its calls are to
  return `results`. -/
  | event (i j : ℕ) (mask : Mask) (results : List ℤ)
  /-- A call for the event returns, and the clock reads `now`. -/
  | call (i : ℕ) (now : Timespec)
  /-- The event is over. -/
  | done (i : ℕ)

/-- Thread `i` is to be `th` now. -/
def put (s : Workers) (i : ℕ) (th : Thread) : Workers := { s with threads := s.threads.set i th }

/-- The turn of a flow of the worker. -/
def turn (s : Workers) (w : Worker) (f : FlowState) : Turn :=
  ⟨f, w.transactions, w.samples, s.timeStart⟩

/-- **One step** of one thread. The calls of `tcp_stream` do not go to
the listening socket; a call returns -1 or a count. -/
def step (opts : RunOptions) (s : Workers) (l : Label) (s' : Workers) : Prop :=
  match l with
  | .accept i => ∃ th, opts.workload = .tcp ∧ opts.client = false ∧ s.threads[i]? = some th ∧
      th.pending = none ∧ s' = s.put i (th.accept opts)
  | .event i j mask results => ∃ th f h, s.threads[i]? = some th ∧ th.pending = none ∧
      th.worker.flows[j]? = some f ∧ f.deleted = false ∧
      (opts.workload = .tcp → opts.client = false → j ≠ 0) ∧ (∀ n ∈ results, -1 ≤ n) ∧
      handleEvent opts.workload opts.toOptions mask results = some h ∧
      s' = s.put i { th with pending := some ⟨j, h.calls, h.deleted⟩ }
  | .call i now => ∃ th j c calls deletes f t, s.threads[i]? = some th ∧
      th.pending = some ⟨j, c :: calls, deletes⟩ ∧ th.worker.flows[j]? = some f ∧
      0 < now.seconds ∧ t = called opts th.worker.index c.dir c.ret now (s.turn th.worker f) ∧
      s' = ⟨s.threads.set i ⟨th.worker.put j t, some ⟨j, calls, deletes⟩⟩, t.timeStart⟩
  | .done i => ∃ th j deletes f, s.threads[i]? = some th ∧
      th.pending = some ⟨j, [], deletes⟩ ∧ th.worker.flows[j]? = some f ∧
      s' = s.put i ⟨{ th.worker with
        flows := th.worker.flows.set j { f with deleted := f.deleted || deletes } }, none⟩

end Workers

/-! ## Two flows -/

/-- A client of `tcp_stream` with one thread and one flow, which reads. -/
def readerOptions : RunOptions where
  enableRead := true
  enableWrite := false
  edgeTrigger := false
  bufferSize := 8
  workload := .tcp
  client := true
  numThreads := 1
  numFlows := 1
  interval := 1
  numThreads_pos := Nat.one_pos
  interval_pos := TcpRr.one_second_pos

/-- The same with two threads, and a flow for each. -/
def readersOptions : RunOptions :=
  { readerOptions with numThreads := 2, numFlows := 2, numThreads_pos := Nat.two_pos }

/-- The flow of a thread after `n` reads. -/
def readerFlow (bytesRead : ℤ) (n : ℕ) (lastTime : ℚ) : FlowState :=
  ⟨0, ⟨bytesRead, 0, 0, n, ⟨true, false, true⟩⟩, .atSecond 0, .create, lastTime, false⟩

/-- A thread between two events of its flow. -/
def reader (i : ℕ) (f : FlowState) (samples : List Sample) : Thread :=
  ⟨⟨i, 0, 0, samples, [f]⟩, none⟩

/-- Thread `i` reads `n` bytes, and then looks at the clock. -/
def reads (i : ℕ) (n sec : ℤ) : List Workers.Label :=
  [.event i 0 ⟨true, false, false, false⟩ [n], .call i (.atSecond sec), .done i]

/-- The threads of the two flows. -/
def readersOf (f g : FlowState) (xs ys : List Sample) (timeStart : ℚ) : Workers :=
  ⟨[reader 0 f xs, reader 1 g ys], timeStart⟩

/-- The samples of the thread at 0, the last one first. -/
def readerSamples : List Sample := [.atSecond 0 0 12 3 3, .atSecond 0 0 8 2 2]

/-- The samples of the thread at 1. -/
def otherSamples : List Sample := [.atSecond 1 0 6 2 3, .atSecond 1 0 4 1 2]

/-- Both flows have recorded two samples. -/
def readersEnd : Workers :=
  readersOf (readerFlow 12 3 3) (readerFlow 6 2 3) readerSamples otherSamples 1

variable {n n' i : ℕ} {b b' m sec : ℤ} {last last' timeStart timeStart' : ℚ}
variable {samples samples' : List Sample} {threads : List Thread}

/-- The first read of all sets `time_start`. -/
theorem called_first (hm : 0 < m) :
    called readersOptions i .read m (.atSecond 1) ⟨readerFlow b n 0, 0, samples, 0⟩ =
      ⟨readerFlow (b + m) (n + 1) 1, 0, samples, 1⟩ := by
  have hcounts : counts readersOptions.workload .read m = true :=
    decide_eq_true ⟨by omega, by omega⟩
  rw [called, if_pos hcounts]
  norm_num [transferred, Turn.intervalCollect, Turn.ensureInitialized, Turn.withFlow,
    Timespec.seconds, readersOptions, readerOptions, readerFlow, Timespec.atSecond]

/-- One second after the last time of the flow, or after `time_start`
where it has none, a sample is due. -/
theorem called_sample (hm : 0 < m) (hlast : last' = sec)
    (hdue : last = 0 ∧ last' = 2 ∨ last ≠ 0 ∧ last' = last + 1) :
    called readersOptions i .read m (.atSecond sec) ⟨readerFlow b n last, 0, samples, 1⟩ =
      ⟨readerFlow (b + m) (n + 1) last', 0, .atSecond i 0 (b + m) (n + 1) sec :: samples, 1⟩ := by
  have hcounts : counts readersOptions.workload .read m = true :=
    decide_eq_true ⟨by omega, by omega⟩
  rw [called, if_pos hcounts]
  rcases hdue with ⟨rfl, htwo⟩ | ⟨hne, hnext⟩
  · have hsec : (sec : ℚ) = 2 := hlast.symm.trans htwo
    norm_num [transferred, Turn.intervalCollect, Turn.ensureInitialized, Turn.addSample,
      Turn.getNextTime, Turn.withFlow, Timespec.seconds, readersOptions, readerOptions, readerFlow,
      Timespec.atSecond, Sample.atSecond, hsec, htwo]
  · have hsec : (sec : ℚ) = last + 1 := hlast.symm.trans hnext
    norm_num [transferred, Turn.intervalCollect, Turn.ensureInitialized, Turn.addSample,
      Turn.getNextTime, Turn.withFlow, Timespec.seconds, readersOptions, readerOptions, readerFlow,
      Timespec.atSecond, Sample.atSecond, hsec, hnext, hne]

/-- **One read** of a thread, in three steps. -/
theorem run_reads (hm : 0 < m) (hsec : 0 < sec)
    (hth : threads[i]? = some (reader i (readerFlow b n last) samples))
    (hcalled : called readersOptions i .read m (.atSecond sec)
      ⟨readerFlow b n last, 0, samples, timeStart⟩ =
        ⟨readerFlow b' n' last', 0, samples', timeStart'⟩) :
    Run (Workers.step readersOptions) ⟨threads, timeStart⟩ (reads i m sec)
      ⟨threads.set i (reader i (readerFlow b' n' last') samples'), timeStart'⟩ := by
  have hi := (List.getElem?_eq_some_iff.mp hth).1
  have hclock : 0 < (Timespec.atSecond sec).seconds := by
    rw [Timespec.seconds_atSecond]
    exact_mod_cast hsec
  have hevent : handleEvent readersOptions.workload readersOptions.toOptions
      ⟨true, false, false, false⟩ [m] = some ⟨false, [⟨.read, 8, m⟩]⟩ := by
    have hfailed : m ≠ -1 := by omega
    simp [handleEvent, tcpEvent, readersOptions, readerOptions, serve, drive, wanted, finish,
      hm.ne', hfailed]
  refine .cons (t := ⟨threads.set i
      ⟨⟨i, 0, 0, samples, [readerFlow b n last]⟩, some ⟨0, [⟨.read, 8, m⟩], false⟩⟩, timeStart⟩)
    ⟨_, _, _, hth, rfl, rfl, rfl, fun _ h => absurd h (by decide), by simp; omega, hevent, rfl⟩ ?_
  refine .cons (t := ⟨threads.set i
      ⟨⟨i, 0, 0, samples', [readerFlow b' n' last']⟩, some ⟨0, [], false⟩⟩, timeStart'⟩)
    ⟨_, _, _, _, _, _, _, List.getElem?_set_self hi, rfl, rfl, hclock, hcalled.symm, ?_⟩ ?_
  · rw [List.set_set]
    rfl
  · refine .single ⟨_, _, _, _, List.getElem?_set_self hi, rfl, rfl, ?_⟩
    rw [Workers.put, List.set_set]
    rfl

/-- **A run of two flows**: that of thread 0 reads 5, 3 and 4 bytes, and
that of thread 1 in between 4 and 2. -/
theorem readers_run : Run (Workers.step readersOptions) (Workers.start readersOptions)
    (reads 0 5 1 ++ (reads 1 4 2 ++ (reads 0 3 2 ++ (reads 0 4 3 ++ reads 1 2 3))))
    readersEnd := by
  have h₁ : Run (Workers.step readersOptions) (Workers.start readersOptions) (reads 0 5 1)
      (readersOf (readerFlow 5 1 1) (readerFlow 0 0 0) [] [] 1) :=
    run_reads (by decide) (by decide) rfl (called_first (by decide))
  have h₂ : Run (Workers.step readersOptions)
      (readersOf (readerFlow 5 1 1) (readerFlow 0 0 0) [] [] 1) (reads 1 4 2)
      (readersOf (readerFlow 5 1 1) (readerFlow 4 1 2) [] [.atSecond 1 0 4 1 2] 1) :=
    run_reads (by decide) (by decide) rfl
      (called_sample (by decide) (by norm_num) (by norm_num))
  have h₃ : Run (Workers.step readersOptions)
      (readersOf (readerFlow 5 1 1) (readerFlow 4 1 2) [] [.atSecond 1 0 4 1 2] 1) (reads 0 3 2)
      (readersOf (readerFlow 8 2 2) (readerFlow 4 1 2) [.atSecond 0 0 8 2 2]
        [.atSecond 1 0 4 1 2] 1) :=
    run_reads (by decide) (by decide) rfl
      (called_sample (by decide) (by norm_num) (by norm_num))
  have h₄ : Run (Workers.step readersOptions)
      (readersOf (readerFlow 8 2 2) (readerFlow 4 1 2) [.atSecond 0 0 8 2 2]
        [.atSecond 1 0 4 1 2] 1) (reads 0 4 3)
      (readersOf (readerFlow 12 3 3) (readerFlow 4 1 2) readerSamples
        [.atSecond 1 0 4 1 2] 1) :=
    run_reads (by decide) (by decide) rfl
      (called_sample (by decide) (by norm_num) (by norm_num))
  have h₅ : Run (Workers.step readersOptions)
      (readersOf (readerFlow 12 3 3) (readerFlow 4 1 2) readerSamples
        [.atSecond 1 0 4 1 2] 1) (reads 1 2 3) readersEnd :=
    run_reads (by decide) (by decide) rfl
      (called_sample (by decide) (by norm_num) (by norm_num))
  exact h₁.append (h₂.append (h₃.append (h₄.append h₅)))

end Stream

end Rushit
