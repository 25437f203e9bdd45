import Rushit.Stream.Workers
/-!
# What the stream workers record

A call that is counted adds to the bytes of its flow and may take a
sample (`Transferred`); any other leaves the records alone. So along a
flow time, bytes and transactions of the samples rise, no flow has two
samples of one instant, and no counter is negative (`Recorded`), in every
run (`Workers.recorded`).
-/

namespace Rushit

namespace Stream

open TcpRr (FlowState Turn Worker)

variable {opts : RunOptions} {tid : ℕ} {dir : Direction} {n : ℤ} {now : Timespec} {t : Turn}
variable {i j : ℕ} {w : Worker} {f g : FlowState} {x : Sample} {th : Thread} {timeStart : ℚ}
variable {calls : List Call} {deletes : Bool} {pending : Option Pending}

/-! ## One call -/

/-- Whether a sample is taken of the flow `f`, which it then agrees with
in number, bytes and transactions. -/
inductive Sampling (seconds : ℚ) (tid : ℕ) (f : FlowState) (samples : List Sample) (t : Turn) : Prop
  | no (samples : t.samples = samples) (lastTime : f.lastTime ≠ 0 → t.flow.lastTime = f.lastTime)
  | yes (x : Sample) (samples : t.samples = x :: samples) (tid : x.tid = tid)
      (flowId : x.flowId = t.flow.id) (bytesRead : x.bytesRead = t.flow.flow.bytesRead)
      (transactions : x.transactions = t.flow.flow.transactions)
      (due : f.lastTime ≠ 0 → f.lastTime + seconds ≤ x.time)
      (next : x.time < t.flow.lastTime + seconds)

/-- **What a call that is counted does**, when it returned `n`. -/
structure Transferred (opts : RunOptions) (tid : ℕ) (n : ℤ) (f : FlowState) (samples : List Sample)
    (t : Turn) : Prop where
  id : t.flow.id = f.id
  bytesRead : t.flow.flow.bytesRead = f.flow.bytesRead + n
  transactions : t.flow.flow.transactions = f.flow.transactions + 1
  timeStart : 0 ≤ t.timeStart
  lastTime : 0 < t.flow.lastTime
  sampling : Sampling opts.interval tid f samples t

/-- A sample that is taken has the bytes of the flow. -/
theorem bytesRead_intervalCollect {seconds : ℚ}
    (h : (t.intervalCollect seconds tid now).samples = x :: t.samples) :
    x.bytesRead = t.flow.flow.bytesRead := by
  have hinit : (t.ensureInitialized now).samples = t.samples ∧
      (t.ensureInitialized now).flow.flow = t.flow.flow := by
    unfold Turn.ensureInitialized
    split <;> exact ⟨rfl, rfl⟩
  unfold Turn.intervalCollect at h
  dsimp only at h
  split at h
  · rw [hinit.1] at h
    exact absurd (congrArg List.length h) (by simp)
  · have hx := (List.cons.inj h).1
    rw [← hx]
    exact congrArg TcpRr.Flow.bytesRead hinit.2

theorem transferred_spec (hnow : 0 < now.seconds) (hlast : 0 ≤ t.flow.lastTime)
    (hstart : 0 ≤ t.timeStart) :
    Transferred opts tid n t.flow t.samples (transferred opts tid n now t) := by
  have hc : TcpRr.Collects opts.interval tid (t.withFlow { t.flow.flow with
      bytesRead := t.flow.flow.bytesRead + n
      transactions := t.flow.flow.transactions + 1 }).record
      (transferred opts tid n now t).record :=
    Turn.collects_intervalCollect opts.interval_pos hnow hlast hstart
  have hflow : (transferred opts tid n now t).flow.flow = { t.flow.flow with
      bytesRead := t.flow.flow.bytesRead + n
      transactions := t.flow.flow.transactions + 1 } := Turn.flow_intervalCollect
  refine ⟨hc.id, by rw [hflow], by rw [hflow], hc.timeStart, hc.lastTime, ?_⟩
  cases hc.sampled with
  | no samples latency lastTime => exact .no samples lastTime
  | yes x samples latency tid flowId count latencies due next =>
    have hbytes : x.bytesRead = t.flow.flow.bytesRead + n := bytesRead_intervalCollect samples
    exact .yes x samples tid (flowId.trans hc.id.symm) (by rw [hbytes, hflow])
      (count.trans hc.count.symm) due next

/-- **What any call does.** -/
theorem called_cases (hn : -1 ≤ n) (hnow : 0 < now.seconds) (hlast : 0 ≤ t.flow.lastTime)
    (hstart : 0 ≤ t.timeStart) : called opts tid dir n now t = t ∨
      0 ≤ n ∧ Transferred opts tid n t.flow t.samples (called opts tid dir n now t) := by
  unfold called
  cases hc : counts opts.workload dir n with
  | false => exact .inl rfl
  | true =>
    -- a call that failed is not counted
    have hne : n ≠ -1 := by
      rintro rfl
      unfold counts at hc
      split at hc <;> simp at hc
    exact .inr ⟨by omega, transferred_spec hnow hlast hstart⟩

/-! ## A thread -/

/-- **What is recorded** by the thread at `i`. -/
structure Recorded (opts : RunOptions) (i : ℕ) (w : Worker) : Prop where
  index : w.index = i
  nextFlowId : opts.client = false → w.nextFlowId = w.flows.length
  ids : ∀ (j : ℕ) (f : FlowState), w.flows[j]? = some f → f.id = j
  nonneg : ∀ f ∈ w.flows, 0 ≤ f.flow.bytesRead ∧ 0 ≤ f.lastTime
  tid : ∀ x ∈ w.samples, x.tid = i
  /-- Each sample is of a flow, which has read as much since. -/
  owner : ∀ x ∈ w.samples, ∃ f, w.flows[x.flowId]? = some f ∧ 0 ≤ x.bytesRead ∧
    x.bytesRead ≤ f.flow.bytesRead ∧ x.transactions ≤ f.flow.transactions ∧ f.lastTime ≠ 0 ∧
    x.time < f.lastTime + opts.interval
  /-- A sample is later than the older ones of its flow, and no less has
  been read. -/
  rising : w.samples.Pairwise fun x y => y.flowId = x.flowId →
    y.time < x.time ∧ y.bytesRead ≤ x.bytesRead ∧ y.transactions < x.transactions

namespace Recorded

/-- The flows that are made at the start. -/
theorem getElem?_start (h : (Thread.start opts i).worker.flows[j]? = some f) :
    f = addflow opts j := by
  have hmem : (if opts.client then
      (List.range (TcpRr.flowsInThread opts.numFlows opts.numThreads i)).map (addflow opts)
      else [addflow opts 0])[j]? = some f := h
  split at hmem
  · rw [List.getElem?_map] at hmem
    obtain ⟨k, hk, rfl⟩ := Option.map_eq_some_iff.mp hmem
    obtain ⟨_, hk⟩ := List.getElem?_eq_some_iff.mp hk
    rw [List.getElem_range] at hk
    rw [hk]
  · cases j with
    | zero => exact (Option.some.inj hmem).symm
    | succ j => cases hmem

theorem start (opts : RunOptions) (i : ℕ) : Recorded opts i (Thread.start opts i).worker where
  index := rfl
  nextFlowId hserver := by simp [Thread.start, hserver]
  ids j f hf := by rw [getElem?_start hf]; rfl
  nonneg f hf := by
    obtain ⟨j, hj⟩ := List.mem_iff_getElem?.mp hf
    rw [getElem?_start hj]
    exact ⟨le_rfl, le_rfl⟩
  tid x hx := absurd hx List.not_mem_nil
  owner x hx := absurd hx List.not_mem_nil
  rising := List.Pairwise.nil

/-- A connection gets a number of its own. -/
theorem accept (hserver : opts.client = false) (h : Recorded opts i th.worker) :
    Recorded opts i (th.accept opts).worker where
  index := h.index
  nextFlowId _ := by
    have hlen : (th.accept opts).worker.flows.length = th.worker.flows.length + 1 :=
      List.length_append
    rw [hlen, ← h.nextFlowId hserver]
    rfl
  ids j f hf := by
    have hf : (th.worker.flows ++ [addflow opts th.worker.nextFlowId])[j]? = some f := hf
    rcases lt_trichotomy j th.worker.flows.length with hj | rfl | hj
    · rw [List.getElem?_append_left hj] at hf
      exact h.ids j f hf
    · rw [List.getElem?_append_right le_rfl, Nat.sub_self] at hf
      rw [← Option.some.inj hf]
      exact h.nextFlowId hserver
    · rw [List.getElem?_eq_none (by rw [List.length_append]; exact hj)] at hf
      cases hf
  nonneg f hf := by
    rcases List.mem_append.mp hf with hf | hf
    · exact h.nonneg f hf
    · rw [List.mem_singleton.mp hf]
      exact ⟨le_rfl, le_rfl⟩
  tid := h.tid
  owner x hx := by
    obtain ⟨f, hf, hx⟩ := h.owner x hx
    refine ⟨f, ?_, hx⟩
    show (th.worker.flows ++ [_])[x.flowId]? = some f
    rw [List.getElem?_append_left (List.getElem?_eq_some_iff.mp hf).1, hf]
  rising := h.rising

/-- A flow that stays as it is but for being deleted. -/
theorem delete (h : Recorded opts i w) (hf : w.flows[j]? = some f) :
    Recorded opts i { w with
      flows := w.flows.set j { f with deleted := f.deleted || deletes } } where
  index := h.index
  nextFlowId hserver := by
    rw [List.length_set]
    exact h.nextFlowId hserver
  ids k g hg := by
    rcases TcpRr.Workers.getElem?_set_cases hg with ⟨rfl, rfl⟩ | ⟨-, hg⟩
    · exact h.ids k f hf
    · exact h.ids k g hg
  nonneg g hg := by
    rcases List.mem_or_eq_of_mem_set hg with hg | rfl
    · exact h.nonneg g hg
    · exact h.nonneg f (List.mem_of_getElem? hf)
  tid := h.tid
  owner x hx := by
    obtain ⟨g, hg, hx⟩ := h.owner x hx
    by_cases hj : x.flowId = j
    · subst hj
      obtain rfl := Option.some.inj (hf.symm.trans hg)
      exact ⟨_, List.getElem?_set_self (List.getElem?_eq_some_iff.mp hf).1, hx⟩
    · exact ⟨g, by rw [List.getElem?_set, if_neg (Ne.symm hj), hg], hx⟩
  rising := h.rising

/-- The flow of a sample, after the flow at `j` went on. -/
theorem owner_put (h : Recorded opts i w) (hf : w.flows[j]? = some f)
    (ht : Transferred opts w.index n f w.samples t) (hn : 0 ≤ n)
    (hlast : f.lastTime ≠ 0 → f.lastTime ≤ t.flow.lastTime) (hx : x ∈ w.samples) :
    ∃ g, (w.put j t).flows[x.flowId]? = some g ∧ 0 ≤ x.bytesRead ∧
      x.bytesRead ≤ g.flow.bytesRead ∧ x.transactions ≤ g.flow.transactions ∧ g.lastTime ≠ 0 ∧
      x.time < g.lastTime + opts.interval := by
  obtain ⟨g, hg, hnonneg, hbytes, htrans, hne, htime⟩ := h.owner x hx
  by_cases hj : x.flowId = j
  · subst hj
    obtain rfl := Option.some.inj (hf.symm.trans hg)
    refine ⟨t.flow, Worker.getElem?_put_self hf, hnonneg, ?_, ?_, ht.lastTime.ne', ?_⟩
    · rw [ht.bytesRead]
      omega
    · rw [ht.transactions]
      omega
    · have hle := hlast hne
      linarith
  · exact ⟨g, by rw [Worker.getElem?_put_of_ne hj, hg], hnonneg, hbytes, htrans, hne, htime⟩

/-- The flows after a call that was counted. -/
theorem nonneg_put (h : Recorded opts i w) (hf : w.flows[j]? = some f)
    (ht : Transferred opts w.index n f w.samples t) (hn : 0 ≤ n) :
    ∀ g ∈ (w.put j t).flows, 0 ≤ g.flow.bytesRead ∧ 0 ≤ g.lastTime := by
  intro g hg
  rcases List.mem_or_eq_of_mem_set hg with hg | rfl
  · exact h.nonneg g hg
  · have hf0 := (h.nonneg f (List.mem_of_getElem? hf)).1
    rw [ht.bytesRead]
    exact ⟨by omega, ht.lastTime.le⟩

/-- **One call keeps the recording.** -/
theorem put (h : Recorded opts i w) (hf : w.flows[j]? = some f) (hn : 0 ≤ n)
    (ht : Transferred opts w.index n f w.samples t) : Recorded opts i (w.put j t) := by
  have hids : ∀ (k : ℕ) (g : FlowState), (w.put j t).flows[k]? = some g → g.id = k := by
    intro k g hg
    rcases Worker.getElem?_put hg with ⟨rfl, rfl⟩ | ⟨-, hg⟩
    · rw [ht.id]
      exact h.ids k f hf
    · exact h.ids k g hg
  have hnext : opts.client = false → (w.put j t).nextFlowId = (w.put j t).flows.length := by
    intro hserver
    show w.nextFlowId = (w.flows.set j t.flow).length
    rw [List.length_set]
    exact h.nextFlowId hserver
  cases ht.sampling with
  | no samples lastTime =>
    have hsame : ∀ y, y ∈ (w.put j t).samples ↔ y ∈ w.samples := fun y => by
      show y ∈ t.samples ↔ _
      rw [samples]
    refine ⟨h.index, hnext, hids, h.nonneg_put hf ht hn, fun y hy => h.tid y ((hsame y).mp hy),
      fun y hy => h.owner_put hf ht hn (fun hne => (lastTime hne).ge) ((hsame y).mp hy), ?_⟩
    show t.samples.Pairwise _
    rw [samples]
    exact h.rising
  | yes x samples tid flowId bytesRead transactions due next =>
    have hmem : ∀ y, y ∈ (w.put j t).samples ↔ y = x ∨ y ∈ w.samples := fun y => by
      show y ∈ t.samples ↔ _
      rw [samples, List.mem_cons]
    have hxj : x.flowId = j := by rw [flowId, ht.id, h.ids j f hf]
    -- `last_time` never goes back
    have hlast : f.lastTime ≠ 0 → f.lastTime ≤ t.flow.lastTime := by
      intro hne
      have hdue := due hne
      linarith
    have hf0 := (h.nonneg f (List.mem_of_getElem? hf)).1
    refine ⟨h.index, hnext, hids, h.nonneg_put hf ht hn, fun y hy => ?_, fun y hy => ?_, ?_⟩
    · rcases (hmem y).mp hy with rfl | hy
      · rw [tid, h.index]
      · exact h.tid y hy
    · rcases (hmem y).mp hy with rfl | hy
      · refine ⟨t.flow, by rw [hxj]; exact Worker.getElem?_put_self hf, ?_, bytesRead.le,
          transactions.le, ht.lastTime.ne', next⟩
        rw [bytesRead, ht.bytesRead]
        omega
      · exact h.owner_put hf ht hn hlast hy
    · show t.samples.Pairwise _
      rw [samples, List.pairwise_cons]
      refine ⟨fun y hy hyx => ?_, h.rising⟩
      -- the older samples of the flow were due before it
      obtain ⟨g, hg, -, hbytes, htrans, hne, htime⟩ := h.owner y hy
      rw [hyx, hxj, hf] at hg
      obtain rfl := Option.some.inj hg
      have hdue := due hne
      refine ⟨by linarith, ?_, ?_⟩
      · rw [bytesRead, ht.bytesRead]
        omega
      · rw [transactions, ht.transactions]
        omega

end Recorded

/-! ## All threads -/

/-- The calls that are still to be made return -1 or a count. -/
def Yields (pending : Option Pending) : Prop := ∀ p ∈ pending, ∀ c ∈ p.calls, -1 ≤ c.ret

namespace Workers

variable {s s' : Workers} {ls : List Label}

/-- The state of a thread before its first event. -/
theorem start_threads (h : (start opts).threads[i]? = some th) : th = Thread.start opts i := by
  have hmap : ((List.range opts.numThreads).map (Thread.start opts))[i]? = some th := h
  rw [List.getElem?_map] at hmap
  by_cases hi : i < opts.numThreads
  · rw [List.getElem?_range hi] at hmap
    exact (Option.some.inj hmap).symm
  · rw [List.getElem?_eq_none (by simpa using hi)] at hmap
    cases hmap

/-- What holds in every run. -/
structure Inv (opts : RunOptions) (s : Workers) : Prop where
  timeStart : 0 ≤ s.timeStart
  length : s.threads.length = opts.numThreads
  threads : ∀ (i : ℕ) (th : Thread), s.threads[i]? = some th →
    Recorded opts i th.worker ∧ Yields th.pending

theorem Inv.start (opts : RunOptions) : Inv opts (start opts) where
  timeStart := le_rfl
  length := by simp [Workers.start]
  threads i th h := by
    rw [start_threads h]
    exact ⟨.start opts i, fun p hp => nomatch hp⟩

/-- One thread goes on. -/
theorem Inv.put (h : Inv opts s) {timeStart : ℚ} (htime : 0 ≤ timeStart)
    (hrec : Recorded opts i th.worker) (hy : Yields th.pending) :
    Inv opts ⟨s.threads.set i th, timeStart⟩ where
  timeStart := htime
  length := by rw [List.length_set]; exact h.length
  threads k th' hk := by
    rcases TcpRr.Workers.getElem?_set_cases hk with ⟨rfl, rfl⟩ | ⟨-, hk⟩
    · exact ⟨hrec, hy⟩
    · exact h.threads k th' hk

/-- **One step keeps the invariant.** -/
theorem Inv.step {l : Label} (h : Inv opts s) (hs : step opts s l s') : Inv opts s' := by
  cases l with
  | accept i =>
    obtain ⟨th, -, hserver, hth, hidle, rfl⟩ := hs
    obtain ⟨hrec, hy⟩ := h.threads i th hth
    exact h.put h.timeStart (hrec.accept hserver) hy
  | event i j mask results =>
    obtain ⟨th, f, hd, hth, -, -, -, -, hres, hh, rfl⟩ := hs
    refine h.put h.timeStart (h.threads i th hth).1 ?_
    rintro p ⟨⟩ c hc
    exact hres _ (handleEvent_calls hh c hc).2
  | call i now =>
    obtain ⟨th, j, call, calls, deletes, f, t, hth, hp, hf, hnow, rfl, rfl⟩ := hs
    obtain ⟨hrec, hy⟩ := h.threads i th hth
    have hn : -1 ≤ call.ret := hy _ hp call List.mem_cons_self
    have hlast := (hrec.nonneg f (List.mem_of_getElem? hf)).2
    have hy' : Yields (some ⟨j, calls, deletes⟩) := by
      rintro p ⟨⟩ c hc
      exact hy _ hp c (List.mem_cons_of_mem _ hc)
    have hcases := @called_cases opts th.worker.index call.dir call.ret now (s.turn th.worker f) hn
      hnow hlast h.timeStart
    rcases hcases with heq | ⟨hn, ht⟩
    · -- nothing was counted
      rw [heq]
      refine h.put h.timeStart ?_ hy'
      have hsame : th.worker.put j (s.turn th.worker f) = th.worker := by
        show ({ th.worker with flows := th.worker.flows.set j f } : Worker) = th.worker
        have hset : th.worker.flows.set j f = th.worker.flows := by
          obtain ⟨hlt, hget⟩ := List.getElem?_eq_some_iff.mp hf
          rw [← hget]
          exact List.set_getElem_self hlt
        rw [hset]
      rw [hsame]
      exact hrec
    · exact h.put ht.timeStart (hrec.put hf hn ht) hy'
  | done i =>
    obtain ⟨th, j, deletes, f, hth, -, hf, rfl⟩ := hs
    refine h.put h.timeStart ((h.threads i th hth).1.delete hf) ?_
    rintro p ⟨⟩

/-- **The invariant holds in every run.** -/
theorem Inv.of_run (hrun : Run (Workers.step opts) (Workers.start opts) ls s) : Inv opts s :=
  hrun.preserves (fun _ _ _ h hs => h.step hs) (.start opts)

end Workers

end Stream

end Rushit
