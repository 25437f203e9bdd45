import Mathlib.Algebra.Order.Floor.Semiring
import Mathlib.Tactic.Linarith
import Rushit.TcpRr.Worker
/-!
# What a turn can do

On the bytes of the flow a handler of the workers is the one of
`Rushit.TcpRr.Model` (`clientEvents_flow`, `serverEvents_flow`). What the
statistics are made of, its `Record`, stays as it is, unless a
transaction is completed: then it is counted once, and
`interval_collect` may take a sample (`Turn.Outcome`).

An invariant of the threads is proved for one turn and one connection
accepted, and holds in every run (`Workers.invariant`).
-/

namespace Rushit

namespace TcpRr

/-- The part of a turn that the statistics are made of. -/
structure Record where
  id : ℕ
  /-- The transactions of the flow. -/
  count : ℕ
  latency : Numlist ℚ
  lastTime : ℚ
  /-- The transactions of the thread. -/
  transactions : ℕ
  samples : List Sample
  timeStart : ℚ

def Turn.record (t : Turn) : Record where
  id := t.flow.id
  count := t.flow.flow.transactions
  latency := t.flow.latency
  lastTime := t.flow.lastTime
  transactions := t.transactions
  samples := t.samples
  timeStart := t.timeStart

namespace Turn

variable {opts : RunOptions} {tid : ℕ} {ev : Events} {n : ℤ} {clock : Clock} {ctlFails : Bool}
variable {seconds : ℚ} {now : Timespec} {t u : Turn}

@[simp] theorem record_trackWriteTime (opts : Options) :
    (t.trackWriteTime opts clock).record = t.record := by
  unfold trackWriteTime
  split <;> rfl

@[simp] theorem flow_trackWriteTime (opts : Options) :
    (t.trackWriteTime opts clock).flow.flow = t.flow.flow := by
  unfold trackWriteTime
  split <;> rfl

/-- Taking a sample leaves the bytes alone. -/
@[simp] theorem flow_intervalCollect :
    (t.intervalCollect seconds tid now).flow.flow = t.flow.flow := by
  have hinit : (t.ensureInitialized now).flow.flow = t.flow.flow := by
    unfold ensureInitialized
    split <;> rfl
  unfold intervalCollect
  dsimp only
  split
  · exact hinit
  · exact hinit

/-! ## The bytes -/

/-- A write, on the bytes. -/
theorem wrote_flow {done : Turn → Turn} (done' : Flow → Flow)
    (hdone : ∀ u, (done u).flow.deleted = false → (done u).flow.flow = done' u.flow.flow)
    (h : (t.wrote n done).flow.deleted = false) :
    (t.wrote n done).flow.flow = TcpRr.wrote n done' t.flow.flow := by
  unfold wrote at h ⊢
  unfold TcpRr.wrote
  by_cases hn : n = -1
  · rw [if_pos hn, if_pos hn]
  · rw [if_neg hn] at h ⊢
    rw [if_neg hn]
    by_cases hleft : t.flow.flow.bytesToWrite - n > 0
    · have hlt : n < t.flow.flow.bytesToWrite := by omega
      simp [withFlow, hlt]
    · have hcond : ¬ (t.withFlow { t.flow.flow with
          bytesToWrite := t.flow.flow.bytesToWrite - n }).flow.flow.bytesToWrite > 0 := hleft
      dsimp only at h ⊢
      rw [if_neg hcond] at h ⊢
      rw [if_neg hleft]
      exact hdone _ h

/-- A read, on the bytes. -/
theorem hasRead_flow {done : Turn → Turn} (done' : Flow → Flow)
    (hdone : ∀ u, (done u).flow.deleted = false → (done u).flow.flow = done' u.flow.flow)
    (h : (t.hasRead n done).flow.deleted = false) :
    TcpRr.hasRead n done' t.flow.flow = some (t.hasRead n done).flow.flow := by
  unfold hasRead at h ⊢
  unfold TcpRr.hasRead
  by_cases hn : n = -1
  · rw [if_pos hn, if_pos hn]
  · rw [if_neg hn] at h ⊢
    rw [if_neg hn]
    by_cases hzero : n = 0
    · -- the peer has closed, and the flow is deleted
      rw [if_pos hzero] at h
      cases h
    · rw [if_neg hzero] at h ⊢
      rw [if_neg hzero]
      by_cases hleft : t.flow.flow.bytesToRead - n > 0
      · have hlt : n < t.flow.flow.bytesToRead := by omega
        simp [withFlow, hlt]
      · have hcond : ¬ (t.withFlow { t.flow.flow with
            bytesRead := t.flow.flow.bytesRead + n
            bytesToRead := t.flow.flow.bytesToRead - n }).flow.flow.bytesToRead > 0 := hleft
        dsimp only at h ⊢
        rw [if_neg hcond] at h ⊢
        rw [if_neg hleft]
        exact congrArg some (hdone _ h).symm

/-- **The client's handler, on the bytes.** -/
theorem clientEvents_flow (h : (t.clientEvents opts tid ev n clock).flow.deleted = false) :
    TcpRr.clientEvents opts.toOptions t.flow.flow ev n =
      some (t.clientEvents opts tid ev n clock).flow.flow := by
  unfold clientEvents at h ⊢
  unfold TcpRr.clientEvents
  by_cases hup : ev.epollrdhup = true
  · rw [if_pos hup] at h
    cases h
  · rw [if_neg hup] at h ⊢
    rw [if_neg hup]
    by_cases hout : ev.epollout = true
    · rw [if_pos hout] at h ⊢
      rw [if_pos hout, wrote_flow (TcpRr.requestSent opts.toOptions) (fun _ _ => rfl) h,
        flow_trackWriteTime]
    · rw [if_neg hout] at h ⊢
      rw [if_neg hout]
      by_cases hin : ev.epollin = true
      · rw [if_pos hin] at h ⊢
        rw [if_pos hin]
        refine hasRead_flow _ (fun u _ => ?_) h
        unfold responseRead
        dsimp only [withFlow]
        rw [flow_intervalCollect]
        rfl
      · rw [if_neg hin, if_neg hin]

/-- **The server's handler, on the bytes.** -/
theorem serverEvents_flow
    (h : (t.serverEvents opts tid ev n clock ctlFails).flow.deleted = false) :
    TcpRr.serverEvents opts.toOptions t.flow.flow ev n =
      some (t.serverEvents opts tid ev n clock ctlFails).flow.flow := by
  unfold serverEvents at h ⊢
  unfold TcpRr.serverEvents
  by_cases hup : ev.epollrdhup = true
  · rw [if_pos hup] at h
    cases h
  · rw [if_neg hup] at h ⊢
    rw [if_neg hup]
    by_cases hin : ev.epollin = true
    · rw [if_pos hin] at h ⊢
      rw [if_pos hin]
      refine hasRead_flow _ (fun u hu => ?_) h
      unfold requestRead at hu ⊢
      cases ctlFails with
      | true => cases hu
      | false => rfl
    · rw [if_neg hin] at h ⊢
      rw [if_neg hin]
      by_cases hout : ev.epollout = true
      · rw [if_pos hout] at h ⊢
        rw [if_pos hout, wrote_flow (TcpRr.responseSent opts.toOptions) ?_ h]
        intro u hu
        unfold responseSent at hu ⊢
        cases ctlFails with
        | true => cases hu
        | false =>
          dsimp only [withFlow]
          rw [if_neg Bool.false_ne_true, flow_intervalCollect]
          rfl
      · rw [if_neg hout, if_neg hout]

end Turn

/-! ## The record -/

/-- A transaction is counted; a client has one more latency. -/
structure Counted (client : Bool) (r r' : Record) : Prop where
  id : r'.id = r.id
  count : r'.count = r.count + 1
  transactions : r'.transactions = r.transactions + 1
  latency : r'.latency.size = r.latency.size + if client then 1 else 0
  lastTime : r'.lastTime = r.lastTime
  samples : r'.samples = r.samples
  timeStart : r'.timeStart = r.timeStart

/-- Whether a sample is taken. -/
inductive Sampled (seconds : ℚ) (tid : ℕ) (r r' : Record) : Prop
  | no (samples : r'.samples = r.samples) (latency : r'.latency = r.latency)
      (lastTime : r.lastTime ≠ 0 → r'.lastTime = r.lastTime)
  /-- At least an interval has passed, and the next sample is not taken
  before the next interval has. -/
  | yes (sample : Sample) (samples : r'.samples = sample :: r.samples)
      (latency : r'.latency = .create) (tid : sample.tid = tid) (flowId : sample.flowId = r.id)
      (count : sample.transactions = r.count) (latencies : sample.latency = r.latency)
      (due : r.lastTime ≠ 0 → r.lastTime + seconds ≤ sample.time)
      (next : sample.time < r'.lastTime + seconds)

/-- `interval_collect`, on the record. -/
structure Collects (seconds : ℚ) (tid : ℕ) (r r' : Record) : Prop where
  id : r'.id = r.id
  count : r'.count = r.count
  transactions : r'.transactions = r.transactions
  timeStart : 0 ≤ r'.timeStart
  lastTime : 0 < r'.lastTime
  sampled : Sampled seconds tid r r'

/-- **What a turn does to the record.** -/
inductive Outcome (seconds : ℚ) (tid : ℕ) (client : Bool) (r r' : Record) : Prop
  | quiet (same : r' = r)
  | completed (mid : Record) (counted : Counted client r mid)
      (collects : Collects seconds tid mid r')

namespace Turn

variable {opts : RunOptions} {tid : ℕ} {ev : Events} {n : ℤ} {clock : Clock} {ctlFails : Bool}
variable {seconds : ℚ} {now : Timespec} {t u : Turn}

/-- `ensure_initialized`, with a clock that is past 0. -/
theorem ensureInitialized_spec (hnow : 0 < now.seconds) (hlast : 0 ≤ t.flow.lastTime)
    (hstart : 0 ≤ t.timeStart) :
    (t.ensureInitialized now).record = { t.record with
      lastTime := (t.ensureInitialized now).flow.lastTime
      timeStart := (t.ensureInitialized now).timeStart } ∧
    0 < (t.ensureInitialized now).flow.lastTime ∧ 0 ≤ (t.ensureInitialized now).timeStart ∧
    (t.flow.lastTime ≠ 0 → (t.ensureInitialized now).flow.lastTime = t.flow.lastTime) := by
  unfold ensureInitialized
  by_cases hzero : t.flow.lastTime = 0
  · rw [if_pos hzero]
    -- neither the clock nor `time_start` is 0 where it is taken over
    have hpos : 0 < (if t.timeStart = 0 then now.seconds else t.timeStart) := by
      by_cases h₀ : t.timeStart = 0
      · rw [if_pos h₀]
        exact hnow
      · rw [if_neg h₀]
        exact lt_of_le_of_ne hstart (Ne.symm h₀)
    exact ⟨rfl, hpos, hpos.le, fun hne => absurd hzero hne⟩
  · rw [if_neg hzero]
    exact ⟨rfl, lt_of_le_of_ne hlast (Ne.symm hzero), hstart, fun _ => rfl⟩

/-- The whole intervals in a duration of at least one. -/
theorem floor_intervals {d : ℚ} (hs : 0 < seconds) (hd : seconds ≤ d) :
    0 ≤ (⌊d / seconds⌋ : ℚ) * seconds ∧ d < (⌊d / seconds⌋ : ℚ) * seconds + seconds := by
  have hnonneg : 0 ≤ ⌊d / seconds⌋ := Int.floor_nonneg.mpr (div_nonneg (hs.le.trans hd) hs.le)
  have hlt := Int.lt_floor_add_one (d / seconds)
  rw [div_lt_iff₀ hs] at hlt
  refine ⟨mul_nonneg (by exact_mod_cast hnonneg) hs.le, ?_⟩
  linarith

/-- `interval_collect`, with a clock that is past 0. -/
theorem collects_intervalCollect (hs : 0 < seconds) (hnow : 0 < now.seconds)
    (hlast : 0 ≤ t.flow.lastTime) (hstart : 0 ≤ t.timeStart) :
    Collects seconds tid t.record (t.intervalCollect seconds tid now).record := by
  obtain ⟨hinit, hlast₀, htime₀, hsame⟩ := ensureInitialized_spec hnow hlast hstart
  have hid := congrArg Record.id hinit
  have hcount := congrArg Record.count hinit
  have htrans := congrArg Record.transactions hinit
  have hlatency := congrArg Record.latency hinit
  have hsamples := congrArg Record.samples hinit
  unfold intervalCollect
  dsimp only
  by_cases hdue : now.seconds - (t.ensureInitialized now).flow.lastTime < seconds
  · rw [if_pos hdue]
    exact ⟨hid, hcount, htrans, htime₀, hlast₀, .no hsamples hlatency hsame⟩
  · rw [if_neg hdue]
    -- `last_time` goes on by the whole intervals that have passed
    obtain ⟨hstep, hnext⟩ := floor_intervals hs (not_lt.mp hdue)
    refine ⟨hid, hcount, htrans, htime₀, ?_, .yes
      ⟨tid, (t.ensureInitialized now).flow.id, (t.ensureInitialized now).flow.flow.bytesRead,
        (t.ensureInitialized now).flow.flow.transactions, (t.ensureInitialized now).flow.latency,
        now⟩ (congrArg _ hsamples) rfl rfl hid hcount hlatency ?_ ?_⟩
    · exact add_pos_of_pos_of_nonneg hlast₀ hstep
    · intro hne
      have heq := hsame hne
      show t.flow.lastTime + seconds ≤ now.seconds
      linarith
    · show now.seconds < (t.ensureInitialized now).flow.lastTime +
        (⌊(now.seconds - (t.ensureInitialized now).flow.lastTime) / seconds⌋ : ℚ) * seconds +
          seconds
      linarith

/-- A write that is not the last one is quiet. -/
theorem wrote_record (done : Turn → Turn) : (t.wrote n done).record = t.record ∨
    ∃ u, u.record = t.record ∧ t.wrote n done = done u := by
  unfold wrote
  by_cases hn : n = -1
  · rw [if_pos hn]
    exact .inl rfl
  · rw [if_neg hn]
    dsimp only
    split
    · exact .inl rfl
    · exact .inr ⟨_, by rfl, rfl⟩

/-- A read that is not the last one is quiet. -/
theorem hasRead_record (done : Turn → Turn) : (t.hasRead n done).record = t.record ∨
    ∃ u, u.record = t.record ∧ t.hasRead n done = done u := by
  unfold hasRead
  by_cases hn : n = -1
  · rw [if_pos hn]
    exact .inl rfl
  · rw [if_neg hn]
    by_cases hzero : n = 0
    · rw [if_pos hzero]
      exact .inl rfl
    · rw [if_neg hzero]
      dsimp only
      split
      · exact .inl rfl
      · exact .inr ⟨_, by rfl, rfl⟩

/-- Where nothing of the record has changed its times have not. -/
theorem nonneg_of_record {u : Turn} (hu : u.record = t.record) (hlast : 0 ≤ t.flow.lastTime)
    (hstart : 0 ≤ t.timeStart) : 0 ≤ u.flow.lastTime ∧ 0 ≤ u.timeStart := by
  have hlast' : u.flow.lastTime = t.flow.lastTime := congrArg Record.lastTime hu
  have hstart' : u.timeStart = t.timeStart := congrArg Record.timeStart hu
  rw [hlast', hstart']
  exact ⟨hlast, hstart⟩

theorem clientEvents_outcome (hnow : 0 < clock.now.seconds) (hlast : 0 ≤ t.flow.lastTime)
    (hstart : 0 ≤ t.timeStart) : Outcome opts.interval tid true t.record
      (t.clientEvents opts tid ev n clock).record := by
  unfold clientEvents
  split
  · exact .quiet rfl
  split
  · rcases wrote_record (t := t.trackWriteTime opts.toOptions clock) (n := n)
      (requestSent opts.toOptions) with h | ⟨u, hu, h⟩
    · exact .quiet (h.trans (record_trackWriteTime _))
    · rw [h]
      exact .quiet (hu.trans (record_trackWriteTime _))
  split
  · rcases hasRead_record (t := t) (n := n) (responseRead opts tid clock) with h | ⟨u, hu, h⟩
    · exact .quiet h
    · rw [h]
      obtain ⟨hlast', hstart'⟩ := nonneg_of_record hu hlast hstart
      -- the response is complete: its latency is added before the sample
      refine .completed (u.count.trackFinishTime clock).record ?_
        (collects_intervalCollect opts.interval_pos hnow hlast' hstart')
      rw [← hu]
      exact ⟨rfl, rfl, rfl, Numlist.size_add _ _, rfl, rfl, rfl⟩
  · exact .quiet rfl

theorem serverEvents_outcome (hnow : 0 < clock.now.seconds) (hlast : 0 ≤ t.flow.lastTime)
    (hstart : 0 ≤ t.timeStart) : Outcome opts.interval tid false t.record
      (t.serverEvents opts tid ev n clock ctlFails).record := by
  unfold serverEvents
  split
  · exact .quiet rfl
  split
  · rcases hasRead_record (t := t) (n := n) (requestRead opts.toOptions ctlFails)
      with h | ⟨u, hu, h⟩
    · exact .quiet h
    · rw [h]
      cases ctlFails <;> exact .quiet hu
  split
  · rcases wrote_record (t := t) (n := n) (responseSent opts tid clock ctlFails)
      with h | ⟨u, hu, h⟩
    · exact .quiet h
    · rw [h]
      obtain ⟨hlast', hstart'⟩ := nonneg_of_record hu hlast hstart
      -- the response is sent: counted, and no latency with it
      have hcollects : Collects opts.interval tid u.count.record _ :=
        collects_intervalCollect opts.interval_pos hnow hlast' hstart'
      have hcounted : Counted false t.record u.count.record := by
        rw [← hu]
        exact ⟨rfl, rfl, rfl, rfl, rfl, rfl, rfl⟩
      cases ctlFails <;> exact .completed _ hcounted hcollects
  · exact .quiet rfl

end Turn

namespace Workers

variable {opts : RunOptions} {s s' : Workers} {ls : List Label}

/-- **What a handler does to the record.** -/
theorem handler_outcome (tid : ℕ) (ev : Events) (n : ℤ) {clock : Clock} (ctlFails : Bool) (t : Turn)
    (hnow : 0 < clock.now.seconds) (hlast : 0 ≤ t.flow.lastTime) (hstart : 0 ≤ t.timeStart) :
    Outcome opts.interval tid opts.client t.record
      (handler opts tid ev n clock ctlFails t).record := by
  unfold handler
  cases opts.client with
  | true => exact Turn.clientEvents_outcome hnow hlast hstart
  | false => exact Turn.serverEvents_outcome hnow hlast hstart

/-- The times that are kept are never negative. -/
theorem outcome_nonneg {seconds : ℚ} {tid : ℕ} {client : Bool} {r r' : Record}
    (h : Outcome seconds tid client r r') (hlast : 0 ≤ r.lastTime) (hstart : 0 ≤ r.timeStart) :
    0 ≤ r'.lastTime ∧ 0 ≤ r'.timeStart := by
  cases h with
  | quiet same =>
    rw [same]
    exact ⟨hlast, hstart⟩
  | completed mid _ collects => exact ⟨collects.lastTime.le, collects.timeStart⟩

/-- The state of a thread before its first event. -/
theorem start_threads {i : ℕ} {w : Worker} (h : (start opts).threads[i]? = some w) :
    w = Worker.start opts i := by
  have hmap : ((List.range opts.numThreads).map (Worker.start opts))[i]? = some w := h
  rw [List.getElem?_map] at hmap
  by_cases hi : i < opts.numThreads
  · rw [List.getElem?_range hi] at hmap
    exact (Option.some.inj hmap).symm
  · rw [List.getElem?_eq_none (by simpa using hi)] at hmap
    cases hmap

/-- A flow that was just made has seen no time. -/
theorem start_lastTime {i : ℕ} {f : FlowState} (h : f ∈ (Worker.start opts i).flows) :
    f.lastTime = 0 := by
  unfold Worker.start at h
  dsimp only at h
  split at h
  · obtain ⟨k, -, rfl⟩ := List.mem_map.mp h
    rfl
  · cases h

/-- An entry after one was replaced. -/
theorem getElem?_set_cases {α : Type} {l : List α} {i k : ℕ} {a b : α}
    (h : (l.set i a)[k]? = some b) : (k = i ∧ b = a) ∨ (k ≠ i ∧ l[k]? = some b) := by
  rw [List.getElem?_set] at h
  by_cases hk : i = k
  · rw [if_pos hk] at h
    split at h
    · exact .inl ⟨hk.symm, (Option.some.inj h).symm⟩
    · cases h
  · rw [if_neg hk] at h
    exact .inr ⟨Ne.symm hk, h⟩

/-- There are always as many threads. -/
theorem length_threads (hrun : Run (step opts) (start opts) ls s) :
    s.threads.length = opts.numThreads := by
  refine hrun.preserves (I := fun s => s.threads.length = opts.numThreads) ?_ (by simp [start])
  intro s l s' hs hstep
  cases l with
  | accept i =>
    obtain ⟨w, -, -, rfl⟩ := hstep
    rw [List.length_set]
    exact hs
  | event i j ev n ctlFails clock =>
    obtain ⟨w, f, -, -, -, -, -, -, t, -, rfl⟩ := hstep
    rw [List.length_set]
    exact hs

/-- **The invariant rule for the threads**: what holds of a thread before
its first event, and is kept by each connection it accepts and each turn
of a live flow of it, holds of the thread in every run. -/
theorem invariant {P : ℕ → Worker → Prop} (hstart : ∀ i, P i (Worker.start opts i))
    (haccept : ∀ i w, opts.client = false → P i w → P i (w.accept opts))
    (hevent : ∀ i w j f ev n ctlFails clock timeStart, P i w → w.flows[j]? = some f →
      f.deleted = false → Registered f.flow.events ev → Yields (call opts f.flow ev) n →
      Outcome opts.interval w.index opts.client
        (Turn.mk f w.transactions w.samples timeStart).record
        (handler opts w.index ev n clock ctlFails
          ⟨f, w.transactions, w.samples, timeStart⟩).record →
      P i (w.put j (handler opts w.index ev n clock ctlFails
        ⟨f, w.transactions, w.samples, timeStart⟩)))
    (hrun : Run (step opts) (start opts) ls s) : ∀ i w, s.threads[i]? = some w → P i w := by
  -- the times of the flows and `time_start` are carried along
  have hall := hrun.preserves (I := fun s => 0 ≤ s.timeStart ∧ ∀ i w, s.threads[i]? = some w →
    P i w ∧ ∀ f ∈ w.flows, 0 ≤ f.lastTime) ?_ ?_
  · exact fun i w hw => (hall.2 i w hw).1
  · rintro s l s' ⟨htime, hthreads⟩ hstep
    cases l with
    | accept i =>
      obtain ⟨w, hserver, hw, rfl⟩ := hstep
      refine ⟨htime, fun k v hv => ?_⟩
      rcases getElem?_set_cases hv with ⟨rfl, rfl⟩ | ⟨-, hv⟩
      · obtain ⟨hP, hlast⟩ := hthreads k w hw
        refine ⟨haccept k w hserver hP, fun f hf => ?_⟩
        rcases List.mem_append.mp hf with hf | hf
        · exact hlast f hf
        · rw [List.mem_singleton.mp hf]
          exact le_rfl
      · exact hthreads k v hv
    | event i j ev n ctlFails clock =>
      obtain ⟨w, f, hw, hf, hlive, hreg, hy, hnow, t, rfl, rfl⟩ := hstep
      obtain ⟨hP, hlast⟩ := hthreads i w hw
      have hlastf := hlast f (List.mem_of_getElem? hf)
      have hout : Outcome opts.interval w.index opts.client _ (handler opts _ _ _ _ _ _).record :=
        handler_outcome w.index ev n ctlFails ⟨f, w.transactions, w.samples, s.timeStart⟩
          hnow hlastf htime
      obtain ⟨hlast', htime'⟩ := outcome_nonneg hout hlastf htime
      refine ⟨htime', fun k v hv => ?_⟩
      rcases getElem?_set_cases hv with ⟨rfl, rfl⟩ | ⟨-, hv⟩
      · refine ⟨hevent k w j f ev n ctlFails clock s.timeStart hP hf hlive hreg hy hout,
          fun g hg => ?_⟩
        rcases List.mem_or_eq_of_mem_set hg with hg | rfl
        · exact hlast g hg
        · exact hlast'
      · exact hthreads k v hv
  · refine ⟨le_rfl, fun i w hw => ?_⟩
    rw [start_threads hw]
    exact ⟨hstart i, fun f hf => (start_lastTime hf).ge⟩

end Workers

end TcpRr

end Rushit
