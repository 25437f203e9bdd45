import Rushit.TcpRr.Recording
/-!
# No latency is lost

A client adds one latency to the list of the flow for each transaction,
and a sample takes the list over. So the latencies of a sample are those
of the transactions since the sample before, and the list of the flow
has those since the last sample, however the blocks of the lists are
filled (`latencies_accounted`).
-/

namespace Rushit

namespace TcpRr

/-- The samples of a flow, the last first. -/
def samplesOf (id : ℕ) (samples : List Sample) : List Sample :=
  samples.filter fun x => x.flowId = id

/-- **The samples of a flow** in the order of recording. -/
def Worker.samplesOf (w : Worker) (id : ℕ) : List Sample := (TcpRr.samplesOf id w.samples).reverse

/-- The transactions of the `k`-th sample, and 0 for `k = 0`. -/
def transactionsAt (samples : List Sample) : ℕ → ℕ
  | 0 => 0
  | k + 1 => (samples[k]?.map Sample.transactions).getD 0

/-- The transactions of the last sample, which comes first. -/
def lastTransactions : List Sample → ℕ
  | [] => 0
  | x :: _ => x.transactions

/-- Each sample has the latencies since the one before. -/
def Latencies : List Sample → Prop
  | [] => True
  | x :: older => x.latency.size + lastTransactions older = x.transactions ∧ Latencies older

variable {opts : RunOptions} {i j : ℕ} {w : Worker} {f : FlowState} {t : Turn} {x : Sample}
variable {samples : List Sample} {timeStart : ℚ}

/-- The transactions of earlier samples do not depend on later ones. -/
theorem transactionsAt_append {k : ℕ} (hk : k ≤ samples.length) :
    transactionsAt (samples ++ [x]) k = transactionsAt samples k := by
  cases k with
  | zero => rfl
  | succ k =>
    show ((samples ++ [x])[k]?.map _).getD 0 = _
    rw [List.getElem?_append_left hk]
    rfl

theorem transactionsAt_length :
    transactionsAt samples.reverse samples.length = lastTransactions samples := by
  cases samples with
  | nil => rfl
  | cons x older =>
    have hlast : (older.reverse ++ [x])[older.length]? = some x := by
      rw [List.getElem?_append_right (by rw [List.length_reverse]), List.length_reverse,
        Nat.sub_self]
      rfl
    show ((x :: older).reverse[older.length]?.map _).getD 0 = x.transactions
    rw [List.reverse_cons, hlast]
    rfl

/-- The latencies of the `k`-th sample. -/
theorem Latencies.getElem? (h : Latencies samples) {k : ℕ}
    (hk : samples.reverse[k]? = some x) :
    x.latency.size + transactionsAt samples.reverse k = x.transactions := by
  induction samples with
  | nil => cases hk
  | cons y older ih =>
    obtain ⟨hy, hold⟩ := h
    rw [List.reverse_cons] at hk ⊢
    have hlen : older.reverse.length = older.length := List.length_reverse
    rcases lt_trichotomy k older.length with hlt | heq | hgt
    · rw [List.getElem?_append_left (by omega)] at hk
      rw [transactionsAt_append (by omega)]
      exact ih hold hk
    · -- `y` is the last sample of the list
      rw [heq, List.getElem?_append_right (by omega), hlen, Nat.sub_self] at hk
      obtain rfl : y = x := Option.some.inj hk
      rw [heq, transactionsAt_append (by omega), transactionsAt_length]
      exact hy
    · rw [List.getElem?_eq_none (by rw [List.length_append, hlen]; exact hgt)] at hk
      cases hk

/-- **No latency is lost**, of any flow of the thread. -/
def Worker.Accounted (w : Worker) : Prop :=
  ∀ (j : ℕ) (f : FlowState), w.flows[j]? = some f → Latencies (TcpRr.samplesOf f.id w.samples) ∧
    f.latency.size + lastTransactions (TcpRr.samplesOf f.id w.samples) = f.flow.transactions

theorem Worker.Accounted.start (hclient : opts.client = true) (i : ℕ) :
    (Worker.start opts i).Accounted := by
  intro j f hf
  have hmem := List.mem_of_getElem? hf
  simp only [Worker.start, hclient, if_true] at hmem
  obtain ⟨k, -, rfl⟩ := List.mem_map.mp hmem
  exact ⟨trivial, rfl⟩

/-- A sample goes to the list of its flow. -/
theorem samplesOf_cons_self (hx : x.flowId = f.id) :
    TcpRr.samplesOf f.id (x :: samples) = x :: TcpRr.samplesOf f.id samples := by
  simp [TcpRr.samplesOf, hx]

theorem samplesOf_cons_of_ne (hx : x.flowId ≠ f.id) :
    TcpRr.samplesOf f.id (x :: samples) = TcpRr.samplesOf f.id samples := by
  simp [TcpRr.samplesOf, hx]

/-- A turn that takes no sample: as many latencies are added as
transactions are counted. -/
theorem Worker.Accounted.put_same (h : w.Accounted) (hf : w.flows[j]? = some f) {d : ℕ}
    (hid : t.flow.id = f.id) (hcount : t.flow.flow.transactions = f.flow.transactions + d)
    (hsize : t.flow.latency.size = f.latency.size + d) (hsamples : t.samples = w.samples) :
    (w.put j t).Accounted := by
  intro k g hg
  have heq : (w.put j t).samples = w.samples := hsamples
  rw [heq]
  rcases Worker.getElem?_put hg with ⟨rfl, rfl⟩ | ⟨-, hg⟩
  · obtain ⟨hlat, hleft⟩ := h k f hf
    rw [hid]
    exact ⟨hlat, by omega⟩
  · exact h k g hg

/-- A turn that takes a sample: the list of the flow goes to the sample. -/
theorem Worker.Accounted.put_sample (h : w.Accounted) (hrec : w.Recorded opts i)
    (hf : w.flows[j]? = some f) (hid : t.flow.id = f.id)
    (hcount : t.flow.flow.transactions = f.flow.transactions + 1)
    (hsamples : t.samples = x :: w.samples) (hown : x.flowId = f.id)
    (hx : x.transactions = t.flow.flow.transactions) (hsize : x.latency.size = f.latency.size + 1)
    (hnew : t.flow.latency = .create) : (w.put j t).Accounted := by
  intro k g hg
  have heq : (w.put j t).samples = x :: w.samples := hsamples
  rw [heq]
  rcases Worker.getElem?_put hg with ⟨rfl, rfl⟩ | ⟨hk, hg⟩
  · obtain ⟨hlat, hleft⟩ := h k f hf
    rw [hid, samplesOf_cons_self hown, hnew, Numlist.size_create]
    refine ⟨⟨by omega, hlat⟩, ?_⟩
    show 0 + x.transactions = _
    omega
  · -- the sample is of another flow
    have hne : x.flowId ≠ g.id := by
      intro hxg
      exact hk (hrec.eq_of_id hg hf (hxg.symm.trans hown))
    rw [samplesOf_cons_of_ne hne]
    exact h k g hg

/-- **One turn loses no latency.** -/
theorem Worker.Accounted.turn (hclient : opts.client = true) (h : w.Accounted)
    (hrec : w.Recorded opts i) (hf : w.flows[j]? = some f)
    (hout : Outcome opts.interval w.index opts.client
      (Turn.mk f w.transactions w.samples timeStart).record t.record) : (w.put j t).Accounted := by
  cases hout with
  | quiet same =>
    have hcount : t.flow.flow.transactions = f.flow.transactions + 0 := congrArg Record.count same
    have hsize : t.flow.latency.size = f.latency.size + 0 :=
      congrArg (fun r : Record => r.latency.size) same
    exact h.put_same hf (congrArg Record.id same) hcount hsize (congrArg Record.samples same)
  | completed mid counted collects =>
    have hid : t.flow.id = f.id := collects.id.trans counted.id
    have hcount : t.flow.flow.transactions = f.flow.transactions + 1 :=
      collects.count.trans counted.count
    have hsize : mid.latency.size = f.latency.size + 1 := by
      have := counted.latency
      rw [if_pos hclient] at this
      exact this
    cases collects.sampled with
    | no samples latency _ =>
      refine h.put_same hf hid hcount ?_ (samples.trans counted.samples)
      have hlat : t.flow.latency = mid.latency := latency
      rw [hlat, hsize]
    | yes x samples latency tid flowId count latencies due next =>
      refine h.put_sample hrec hf hid hcount ?_ (flowId.trans counted.id)
        (count.trans collects.count.symm) (by rw [latencies, hsize]) latency
      rw [counted.samples] at samples
      exact samples

/-- **The latencies are accounted for.** In every run of a client, the
`k`-th sample of a flow holds as many latencies as there were
transactions since the sample before, and the list that is still with
the flow holds those since the last sample. -/
theorem latencies_accounted {s : Workers} {ls : List Workers.Label} (hclient : opts.client = true)
    (hrun : Run (Workers.step opts) (Workers.start opts) ls s) :
    ∀ w ∈ s.threads, ∀ f ∈ w.flows,
      (∀ k x, (w.samplesOf f.id)[k]? = some x →
        x.latency.size + transactionsAt (w.samplesOf f.id) k = x.transactions) ∧
      (f.deleted = false → f.latency.size +
        transactionsAt (w.samplesOf f.id) (w.samplesOf f.id).length = f.flow.transactions) := by
  intro w hw f hf
  obtain ⟨i, hi⟩ := List.mem_iff_getElem?.mp hw
  obtain ⟨j, hj⟩ := List.mem_iff_getElem?.mp hf
  -- a sample is told by the number of its flow, so both go together
  have hall := Workers.invariant (P := fun i w => w.Recorded opts i ∧ w.Accounted)
    (fun i => ⟨.start opts i, .start hclient i⟩)
    (fun i w hserver _ => by rw [hclient] at hserver; cases hserver)
    (fun i w j f ev n ctlFails clock timeStart h hf _ _ _ hout =>
      ⟨h.1.turn hf hout, h.2.turn hclient h.1 hf hout⟩) hrun i w hi
  obtain ⟨hlat, hleft⟩ := hall.2 j f hj
  refine ⟨fun k x hx => hlat.getElem? hx, fun _ => ?_⟩
  unfold Worker.samplesOf
  rw [List.length_reverse, transactionsAt_length]
  exact hleft

/-- Two flows of one thread: the first had two transactions when its
sample was taken, the second one. -/
theorem latencies_accounted_pair :
    pairSample₁.latency.size = 2 ∧ pairSample₂.latency.size = 1 := by
  have hpair := latencies_accounted rfl pair_run _ (List.mem_singleton_self _)
  exact ⟨(hpair (beforeWrite 0 2 (.atSecond 2) .create 2) (by simp)).1 0 pairSample₁ rfl,
    (hpair (beforeWrite 1 1 (.atSecond 2) .create 2) (by simp)).1 0 pairSample₂ rfl⟩

end TcpRr

end Rushit
