import Rushit.TcpRr.Accounting
/-!
# What the workers record

The flows of a thread have numbers of their own, each sample is of one
of them, and along a flow both the time and the transactions of the
samples rise (`Worker.Recorded`). The next sample of a flow is not due
before a whole interval after `last_time`, which is later than the last
sample; so no flow has two samples of one instant.

For a client, the latencies of a sample are those of the transactions
since the sample before, and those of the transactions since the last
sample are still with the flow (`latencies_accounted`).
-/

namespace Rushit

namespace TcpRr

/-- The number of the first flow. -/
def firstId (opts : RunOptions) : ℕ := if opts.client then 0 else 1

/-- The flows of the thread at `i` are numbered from the first one on. -/
structure Worker.Numbered (opts : RunOptions) (i : ℕ) (w : Worker) : Prop where
  index : w.index = i
  nextFlowId : opts.client = false → w.nextFlowId = w.flows.length + firstId opts
  ids : ∀ (j : ℕ) (f : FlowState), w.flows[j]? = some f → f.id = j + firstId opts

/-- **What is recorded** by the thread at `i`. -/
structure Worker.Recorded (opts : RunOptions) (i : ℕ) (w : Worker) : Prop extends
    w.Numbered opts i where
  tid : ∀ x ∈ w.samples, x.tid = i
  /-- Each sample is of a flow. -/
  owner : ∀ x ∈ w.samples, ∃ (j : ℕ) (f : FlowState), w.flows[j]? = some f ∧ x.flowId = f.id
  pos : ∀ x ∈ w.samples, 0 < x.transactions
  /-- A sample is later than the older ones of its flow, and more has
  been done. -/
  rising : w.samples.Pairwise fun x y => y.flowId = x.flowId →
    y.time < x.time ∧ y.transactions < x.transactions
  flow : ∀ (j : ℕ) (f : FlowState), w.flows[j]? = some f → ∀ x ∈ w.samples, x.flowId = f.id →
    x.transactions ≤ f.flow.transactions ∧ f.lastTime ≠ 0 ∧ x.time < f.lastTime + opts.interval

variable {opts : RunOptions} {i j : ℕ} {w : Worker} {f g : FlowState} {t : Turn} {x : Sample}
variable {timeStart : ℚ}

/-- The flows of a thread after a turn. -/
theorem Worker.getElem?_put {k : ℕ} (h : (w.put j t).flows[k]? = some g) :
    (k = j ∧ g = t.flow) ∨ (k ≠ j ∧ w.flows[k]? = some g) :=
  Workers.getElem?_set_cases h

/-- The flow of the turn, after it. -/
theorem Worker.getElem?_put_self (hf : w.flows[j]? = some f) :
    (w.put j t).flows[j]? = some t.flow := by
  have hlt : j < w.flows.length := (List.getElem?_eq_some_iff.mp hf).1
  show (w.flows.set j t.flow)[j]? = some t.flow
  rw [List.getElem?_set_self hlt]

theorem Worker.getElem?_put_of_ne {k : ℕ} (hk : k ≠ j) :
    (w.put j t).flows[k]? = w.flows[k]? := by
  show (w.flows.set j t.flow)[k]? = _
  rw [List.getElem?_set, if_neg fun e => hk e.symm]

/-- A turn does not number the flows anew. -/
theorem Worker.Numbered.put (h : w.Numbered opts i) (hf : w.flows[j]? = some f)
    (hid : t.flow.id = f.id) : (w.put j t).Numbered opts i where
  index := h.index
  nextFlowId hserver := by
    show w.nextFlowId = (w.flows.set j t.flow).length + firstId opts
    rw [List.length_set]
    exact h.nextFlowId hserver
  ids k g hg := by
    rcases Worker.getElem?_put hg with ⟨rfl, rfl⟩ | ⟨-, hg⟩
    · rw [hid]
      exact h.ids k f hf
    · exact h.ids k g hg

/-- Flows are told apart by their numbers. -/
theorem Worker.Numbered.eq_of_id {k : ℕ} (h : w.Numbered opts i) (hf : w.flows[j]? = some f)
    (hg : w.flows[k]? = some g) (hid : f.id = g.id) : j = k := by
  have hj := h.ids j f hf
  have hk := h.ids k g hg
  omega

namespace Worker.Recorded

/-- A sample has its owner after a turn, too. -/
theorem owner_put (h : w.Recorded opts i) (hf : w.flows[j]? = some f) (hid : t.flow.id = f.id)
    (hx : x ∈ w.samples) :
    ∃ (k : ℕ) (g : FlowState), (w.put j t).flows[k]? = some g ∧ x.flowId = g.id := by
  obtain ⟨k, g, hg, hown⟩ := h.owner x hx
  by_cases hk : k = j
  · subst hk
    obtain rfl := Option.some.inj (hf.symm.trans hg)
    exact ⟨k, t.flow, Worker.getElem?_put_self hf, hown.trans hid.symm⟩
  · exact ⟨k, g, by rw [Worker.getElem?_put_of_ne hk, hg], hown⟩

theorem start (opts : RunOptions) (i : ℕ) : (Worker.start opts i).Recorded opts i where
  index := rfl
  nextFlowId hserver := by simp [Worker.start, firstId, hserver]
  ids j f hf := by
    unfold Worker.start at hf
    unfold firstId
    cases hc : opts.client with
    | true =>
      simp only [hc, if_true, List.getElem?_map] at hf
      obtain ⟨k, hk, rfl⟩ := Option.map_eq_some_iff.mp hf
      obtain ⟨_, hk⟩ := List.getElem?_eq_some_iff.mp hk
      rw [List.getElem_range] at hk
      exact hk.symm
    | false => simp [hc] at hf
  tid x hx := absurd hx List.not_mem_nil
  owner x hx := absurd hx List.not_mem_nil
  pos x hx := absurd hx List.not_mem_nil
  rising := List.Pairwise.nil
  flow j f hf x hx := absurd hx List.not_mem_nil

/-- The flows after a connection was accepted. -/
theorem getElem?_accept {k : ℕ} (h : (w.accept opts).flows[k]? = some g) :
    w.flows[k]? = some g ∨ (k = w.flows.length ∧
      g = addflow w.nextFlowId (serverFlow opts.toOptions)) := by
  have h : (w.flows ++ [addflow w.nextFlowId (serverFlow opts.toOptions)])[k]? = some g := h
  rcases lt_trichotomy k w.flows.length with hk | hk | hk
  · rw [List.getElem?_append_left hk] at h
    exact .inl h
  · subst hk
    rw [List.getElem?_append_right le_rfl, Nat.sub_self] at h
    exact .inr ⟨rfl, (Option.some.inj h).symm⟩
  · rw [List.getElem?_eq_none (by rw [List.length_append]; exact hk)] at h
    cases h

/-- A connection gets a number of its own. -/
theorem accept (hserver : opts.client = false) (h : w.Recorded opts i) :
    (w.accept opts).Recorded opts i where
  index := h.index
  nextFlowId _ := by
    have hnext := h.nextFlowId hserver
    show w.nextFlowId + 1 = (w.flows ++ [_]).length + firstId opts
    rw [List.length_append, hnext, List.length_singleton]
    omega
  ids j f hf := by
    rcases getElem?_accept hf with hf | ⟨rfl, rfl⟩
    · exact h.ids j f hf
    · exact h.nextFlowId hserver
  tid := h.tid
  owner x hx := by
    obtain ⟨j, f, hf, hid⟩ := h.owner x hx
    have hlt : j < w.flows.length := (List.getElem?_eq_some_iff.mp hf).1
    refine ⟨j, f, ?_, hid⟩
    show (w.flows ++ [_])[j]? = some f
    rw [List.getElem?_append_left hlt, hf]
  pos := h.pos
  rising := h.rising
  flow j f hf x hx hid := by
    rcases getElem?_accept hf with hf | ⟨rfl, rfl⟩
    · exact h.flow j f hf x hx hid
    · -- no sample can be of a flow that was just made
      obtain ⟨k, g, hg, hown⟩ := h.owner x hx
      have hlt : k < w.flows.length := (List.getElem?_eq_some_iff.mp hg).1
      have hk := h.ids k g hg
      have hnext := h.nextFlowId hserver
      have hid : x.flowId = w.nextFlowId := hid
      omega

/-- A turn that takes no sample. -/
theorem put_same (h : w.Recorded opts i) (hf : w.flows[j]? = some f)
    (hid : t.flow.id = f.id) (hcount : f.flow.transactions ≤ t.flow.flow.transactions)
    (hsamples : t.samples = w.samples)
    (hlast : f.lastTime ≠ 0 → t.flow.lastTime = f.lastTime) : (w.put j t).Recorded opts i where
  toNumbered := h.toNumbered.put hf hid
  tid x hx := h.tid x (by rw [← hsamples]; exact hx)
  owner x hx := h.owner_put hf hid (by rw [← hsamples]; exact hx)
  pos x hx := h.pos x (by rw [← hsamples]; exact hx)
  rising := by
    show t.samples.Pairwise _
    rw [hsamples]
    exact h.rising
  flow k g hg x hx hown := by
    have hx' : x ∈ w.samples := by rw [← hsamples]; exact hx
    rcases Worker.getElem?_put hg with ⟨rfl, rfl⟩ | ⟨-, hg⟩
    · obtain ⟨hle, hne, hlt⟩ := h.flow k f hf x hx' (hown.trans hid)
      rw [hlast hne]
      exact ⟨hle.trans hcount, hne, hlt⟩
    · exact h.flow k g hg x hx' hown

/-- A turn that takes a sample. -/
theorem put_sample (h : w.Recorded opts i) (hf : w.flows[j]? = some f)
    (hid : t.flow.id = f.id) (hcount : t.flow.flow.transactions = f.flow.transactions + 1)
    (hsamples : t.samples = x :: w.samples) (htid : x.tid = w.index) (hown : x.flowId = f.id)
    (hx : x.transactions = t.flow.flow.transactions)
    (hdue : f.lastTime ≠ 0 → f.lastTime + opts.interval ≤ x.time) (hlast : t.flow.lastTime ≠ 0)
    (hnext : x.time < t.flow.lastTime + opts.interval) : (w.put j t).Recorded opts i := by
  have hmem : ∀ y, y ∈ (w.put j t).samples ↔ y = x ∨ y ∈ w.samples := by
    intro y
    show y ∈ t.samples ↔ _
    rw [hsamples, List.mem_cons]
  -- the older samples of the flow are older, and counted less
  have hold : ∀ y ∈ w.samples, y.flowId = f.id →
      y.time < x.time ∧ y.transactions < x.transactions := by
    intro y hy hyid
    obtain ⟨hle, hne, hlt⟩ := h.flow j f hf y hy hyid
    exact ⟨hlt.trans_le (hdue hne), by omega⟩
  refine ⟨h.toNumbered.put hf hid, fun y hy => ?_, fun y hy => ?_, fun y hy => ?_, ?_,
    fun k g hg y hy hyid => ?_⟩
  · rcases (hmem y).mp hy with rfl | hy
    · rw [htid, h.index]
    · exact h.tid y hy
  · rcases (hmem y).mp hy with rfl | hy
    · exact ⟨j, t.flow, Worker.getElem?_put_self hf, hown.trans hid.symm⟩
    · exact h.owner_put hf hid hy
  · rcases (hmem y).mp hy with rfl | hy
    · omega
    · exact h.pos y hy
  · show t.samples.Pairwise _
    rw [hsamples, List.pairwise_cons]
    exact ⟨fun y hy hyid => hold y hy (hyid.trans hown), h.rising⟩
  · rcases Worker.getElem?_put hg with ⟨rfl, rfl⟩ | ⟨hk, hg⟩
    · rcases (hmem y).mp hy with rfl | hy
      · exact ⟨hx.le, hlast, hnext⟩
      · obtain ⟨hlt, hless⟩ := hold y hy (hyid.trans hid)
        exact ⟨by omega, hlast, hlt.trans hnext⟩
    · rcases (hmem y).mp hy with rfl | hy
      · exact absurd (h.eq_of_id hg hf (hyid.symm.trans hown)) hk
      · exact h.flow k g hg y hy hyid

/-- **One turn keeps the recording.** -/
theorem turn (h : w.Recorded opts i) (hf : w.flows[j]? = some f)
    (hout : Outcome opts.interval w.index opts.client
      (Turn.mk f w.transactions w.samples timeStart).record t.record) :
    (w.put j t).Recorded opts i := by
  cases hout with
  | quiet same =>
    exact h.put_same hf (congrArg Record.id same) (congrArg Record.count same).ge
      (congrArg Record.samples same) fun _ => congrArg Record.lastTime same
  | completed mid counted collects =>
    have hid : t.flow.id = f.id := collects.id.trans counted.id
    have hcount : t.flow.flow.transactions = f.flow.transactions + 1 :=
      collects.count.trans counted.count
    have hlast : mid.lastTime = f.lastTime := counted.lastTime
    cases collects.sampled with
    | no samples latency lastTime =>
      refine h.put_same hf hid (by omega) (samples.trans counted.samples) fun hne => ?_
      exact (lastTime (by rw [hlast]; exact hne)).trans hlast
    | yes x samples latency tid flowId count latencies due next =>
      rw [hlast] at due
      -- the sample has the number and the count of the flow
      refine h.put_sample hf hid hcount ?_ tid (flowId.trans counted.id)
        (count.trans collects.count.symm) due collects.lastTime.ne' next
      rw [counted.samples] at samples
      exact samples

/-- Of two samples of a flow the later one counts more. -/
theorem transactions_lt {y : Sample} (h : w.Recorded opts i) (hx : x ∈ w.samples)
    (hy : y ∈ w.samples) (hflow : x.flowId = y.flowId) (htime : x.time < y.time) :
    x.transactions < y.transactions := by
  have hpair := List.pairwise_iff_getElem.mp h.rising
  obtain ⟨a, ha, rfl⟩ := List.mem_iff_getElem.mp hx
  obtain ⟨b, hb, rfl⟩ := List.mem_iff_getElem.mp hy
  rcases lt_trichotomy a b with hab | rfl | hab
  · exact absurd (hpair a b ha hb hab hflow.symm).1 htime.not_gt
  · exact absurd htime (lt_irrefl _)
  · exact (hpair b a hb ha hab hflow).2

end Worker.Recorded

/-- **Every thread records so, in every run.** -/
theorem Workers.recorded {s : Workers} {ls : List Workers.Label}
    (hrun : Run (Workers.step opts) (Workers.start opts) ls s) :
    ∀ (i : ℕ) (w : Worker), s.threads[i]? = some w → w.Recorded opts i := by
  refine Workers.invariant (fun i => .start opts i) (fun i w hserver h => h.accept hserver) ?_ hrun
  intro i w j f ev n ctlFails clock timeStart h hf _ _ _ hout
  exact h.turn hf hout

end TcpRr

end Rushit
