import Mathlib.Algebra.BigOperators.Group.List.Basic
import Rushit.TcpRr.Turn
/-!
# The byte accounting of the workers

Whatever the calls return, and whatever the peer does, a live flow is in
one of its two phases: what it has read is a whole number of responses
(requests) but for what it still expects, and the interest it is
registered for is that of the phase (`ClientWrites`, `ClientReads`,
`ServerReads`, `ServerWrites`). The handlers of the workers are on the
bytes those of `Rushit.TcpRr.Model`, where the step is proved.

The transactions of a thread are those of its flows, deleted or not.
-/

namespace Rushit

namespace TcpRr

/-! ## The phases -/

/-- A client that sends a request. The first time it is registered for
both directions. -/
structure ClientWrites (opts : Options) (flow : Flow) : Prop where
  interest : flow.events = ⟨decide (flow.transactions = 0), true, true⟩
  pos : 0 < flow.bytesToWrite
  le : flow.bytesToWrite ≤ opts.requestSize
  bytesRead : flow.bytesRead = flow.transactions * opts.responseSize
  idle : flow.bytesToRead = 0

/-- A client that waits for a response. -/
structure ClientReads (opts : Options) (flow : Flow) : Prop where
  interest : flow.events = ⟨true, false, true⟩
  pos : 0 < flow.bytesToRead
  le : flow.bytesToRead ≤ opts.responseSize
  bytesRead : flow.bytesRead + flow.bytesToRead = (flow.transactions + 1) * opts.responseSize

/-- A server that waits for a request. -/
structure ServerReads (opts : Options) (flow : Flow) : Prop where
  interest : flow.events = ⟨true, false, true⟩
  pos : 0 < flow.bytesToRead
  le : flow.bytesToRead ≤ opts.requestSize
  bytesRead : flow.bytesRead + flow.bytesToRead = (flow.transactions + 1) * opts.requestSize

/-- A server that sends a response. -/
structure ServerWrites (opts : Options) (flow : Flow) : Prop where
  interest : flow.events = ⟨false, true, true⟩
  pos : 0 < flow.bytesToWrite
  le : flow.bytesToWrite ≤ opts.responseSize
  bytesRead : flow.bytesRead = (flow.transactions + 1) * opts.requestSize

variable {opts : Options} {flow flow' : Flow} {ev : Events} {n : ℤ}

theorem clientWrites_start (opts : Options) : ClientWrites opts (clientFlow opts) where
  interest := rfl
  pos := opts.requestSize_pos
  le := le_rfl
  bytesRead := by simp [clientFlow]
  idle := rfl

theorem serverReads_start (opts : Options) : ServerReads opts (serverFlow opts) where
  interest := rfl
  pos := opts.requestSize_pos
  le := le_rfl
  bytesRead := by simp [serverFlow]

/-- What a write can lead to. -/
theorem wrote_cases (done : Flow → Flow) (hpos : 0 < flow.bytesToWrite)
    (hn : n = -1 ∨ (0 ≤ n ∧ n ≤ capped opts flow.bytesToWrite)) :
    (∃ k, 0 < k ∧ k ≤ flow.bytesToWrite ∧ wrote n done flow = { flow with bytesToWrite := k }) ∨
      wrote n done flow = done { flow with bytesToWrite := 0 } := by
  rcases hn with rfl | ⟨h₀, hle⟩
  · exact .inl ⟨flow.bytesToWrite, hpos, le_rfl, rfl⟩
  · -- what is asked for is no more than what is left
    have hcap := capped_le opts flow.bytesToWrite
    have hne : n ≠ -1 := by omega
    unfold wrote
    rw [if_neg hne]
    by_cases hleft : flow.bytesToWrite - n > 0
    · left
      exact ⟨flow.bytesToWrite - n, hleft, by omega, if_pos hleft⟩
    · right
      have hzero : flow.bytesToWrite - n = 0 := by omega
      rw [hzero]
      exact if_neg (by show ¬ (0 : ℤ) > 0; omega)

/-- What a read can lead to. -/
theorem hasRead_cases (done : Flow → Flow)
    (hn : n = -1 ∨ (0 ≤ n ∧ n ≤ capped opts flow.bytesToRead)) :
    hasRead n done flow = none ∨ hasRead n done flow = some flow ∨
      (∃ k, 0 < k ∧ k ≤ flow.bytesToRead ∧ hasRead n done flow = some { flow with
        bytesRead := flow.bytesRead + (flow.bytesToRead - k), bytesToRead := k }) ∨
      (0 < flow.bytesToRead ∧ hasRead n done flow = some (done { flow with
        bytesRead := flow.bytesRead + flow.bytesToRead, bytesToRead := 0 })) := by
  rcases hn with rfl | ⟨h₀, hle⟩
  · exact .inr (.inl rfl)
  · -- what is asked for is no more than what is left
    have hcap := capped_le opts flow.bytesToRead
    have hne : n ≠ -1 := by omega
    unfold hasRead
    rw [if_neg hne]
    by_cases hzero : n = 0
    · exact .inl (if_pos hzero)
    · right; right
      rw [if_neg hzero]
      by_cases hleft : flow.bytesToRead - n > 0
      · left
        refine ⟨flow.bytesToRead - n, hleft, by omega, ?_⟩
        rw [sub_sub_cancel]
        exact if_pos hleft
      · right
        have hall : n = flow.bytesToRead := by omega
        refine ⟨by omega, ?_⟩
        rw [hall, sub_self]
        exact if_neg (by show ¬ (0 : ℤ) > 0; omega)

/-- A client that has written is still at it, or waits for the response. -/
theorem ClientWrites.wrote (h : ClientWrites opts flow)
    (hn : n = -1 ∨ (0 ≤ n ∧ n ≤ capped opts flow.bytesToWrite)) :
    ClientWrites opts (wrote n (requestSent opts) flow) ∨
      ClientReads opts (wrote n (requestSent opts) flow) := by
  rcases wrote_cases (requestSent opts) h.pos hn with ⟨k, hk, hle, heq⟩ | heq
  · rw [heq]
    exact .inl ⟨h.interest, hk, hle.trans h.le, h.bytesRead, h.idle⟩
  · rw [heq]
    refine .inr ⟨rfl, opts.responseSize_pos, le_rfl, ?_⟩
    show flow.bytesRead + opts.responseSize = (flow.transactions + 1) * opts.responseSize
    rw [h.bytesRead]
    ring

/-- A client that has read is still at it, or sends the next request. -/
theorem ClientReads.hasRead (h : ClientReads opts flow)
    (hn : n = -1 ∨ (0 ≤ n ∧ n ≤ capped opts flow.bytesToRead))
    (hf : hasRead n (responseRead opts) flow = some flow') :
    ClientWrites opts flow' ∨ ClientReads opts flow' := by
  rcases hasRead_cases (responseRead opts) hn with heq | heq | ⟨k, hk, hle, heq⟩ | ⟨-, heq⟩
  · rw [heq] at hf
    cases hf
  · rw [heq] at hf
    obtain rfl := Option.some.inj hf
    exact .inr h
  · rw [heq] at hf
    obtain rfl := Option.some.inj hf
    refine .inr ⟨h.interest, hk, hle.trans h.le, ?_⟩
    show flow.bytesRead + (flow.bytesToRead - k) + k = _
    rw [← h.bytesRead]
    ring
  · rw [heq] at hf
    obtain rfl := Option.some.inj hf
    -- the last byte of a response: it is counted
    refine .inl ⟨rfl, opts.requestSize_pos, le_rfl, ?_, rfl⟩
    show flow.bytesRead + flow.bytesToRead =
      ((flow.transactions + 1 : ℕ) : ℤ) * opts.responseSize
    rw [h.bytesRead]
    push_cast
    rfl

/-- A client that reads while it writes has no room for a byte. -/
theorem ClientWrites.hasRead (h : ClientWrites opts flow)
    (hn : n = -1 ∨ (0 ≤ n ∧ n ≤ capped opts flow.bytesToRead))
    (hf : hasRead n (responseRead opts) flow = some flow') : ClientWrites opts flow' := by
  have hidle := h.idle
  rcases hasRead_cases (responseRead opts) hn with heq | heq | ⟨k, hk, hle, -⟩ | ⟨hpos, -⟩
  · rw [heq] at hf
    cases hf
  · rw [heq] at hf
    obtain rfl := Option.some.inj hf
    exact h
  · omega
  · omega

/-- **A client keeps its accounts**, whatever the event and the result. -/
theorem clientEvents_accounts (h : ClientWrites opts flow ∨ ClientReads opts flow)
    (hreg : Workers.Registered flow.events ev)
    (hn : Workers.Yields (clientCall opts flow ev) n)
    (hf : clientEvents opts flow ev n = some flow') :
    ClientWrites opts flow' ∨ ClientReads opts flow' := by
  unfold clientCall at hn
  unfold clientEvents at hf
  by_cases hup : ev.epollrdhup = true
  · rw [if_pos hup] at hf
    cases hf
  rw [if_neg hup] at hf hn
  by_cases hout : ev.epollout = true
  · rw [if_pos hout] at hf hn
    obtain rfl := Option.some.inj hf
    rcases h with hw | hr
    · exact hw.wrote hn
    · -- not registered for this
      have := hreg.1 hout
      rw [hr.interest] at this
      cases this
  rw [if_neg hout] at hf hn
  by_cases hin : ev.epollin = true
  · rw [if_pos hin] at hf hn
    rcases h with hw | hr
    · exact .inl (hw.hasRead hn hf)
    · exact hr.hasRead hn hf
  · rw [if_neg hin] at hf
    obtain rfl := Option.some.inj hf
    exact h

/-- A server that has read is still at it, or sends the response. -/
theorem ServerReads.hasRead (h : ServerReads opts flow)
    (hn : n = -1 ∨ (0 ≤ n ∧ n ≤ capped opts flow.bytesToRead))
    (hf : hasRead n (requestRead opts) flow = some flow') :
    ServerReads opts flow' ∨ ServerWrites opts flow' := by
  rcases hasRead_cases (requestRead opts) hn with heq | heq | ⟨k, hk, hle, heq⟩ | ⟨-, heq⟩
  · rw [heq] at hf
    cases hf
  · rw [heq] at hf
    obtain rfl := Option.some.inj hf
    exact .inl h
  · rw [heq] at hf
    obtain rfl := Option.some.inj hf
    refine .inl ⟨h.interest, hk, hle.trans h.le, ?_⟩
    show flow.bytesRead + (flow.bytesToRead - k) + k = _
    rw [← h.bytesRead]
    ring
  · rw [heq] at hf
    obtain rfl := Option.some.inj hf
    exact .inr ⟨rfl, opts.responseSize_pos, le_rfl, h.bytesRead⟩

/-- A server that has written is still at it, or waits for a request. -/
theorem ServerWrites.wrote (h : ServerWrites opts flow)
    (hn : n = -1 ∨ (0 ≤ n ∧ n ≤ capped opts flow.bytesToWrite)) :
    ServerReads opts (wrote n (responseSent opts) flow) ∨
      ServerWrites opts (wrote n (responseSent opts) flow) := by
  rcases wrote_cases (responseSent opts) h.pos hn with ⟨k, hk, hle, heq⟩ | heq
  · rw [heq]
    exact .inr ⟨h.interest, hk, hle.trans h.le, h.bytesRead⟩
  · rw [heq]
    refine .inl ⟨rfl, opts.requestSize_pos, le_rfl, ?_⟩
    show flow.bytesRead + opts.requestSize =
      ((flow.transactions + 1 : ℕ) + 1 : ℤ) * opts.requestSize
    rw [h.bytesRead]
    push_cast
    ring

/-- **A server keeps its accounts**, whatever the event and the result. -/
theorem serverEvents_accounts (h : ServerReads opts flow ∨ ServerWrites opts flow)
    (hreg : Workers.Registered flow.events ev)
    (hn : Workers.Yields (serverCall opts flow ev) n)
    (hf : serverEvents opts flow ev n = some flow') :
    ServerReads opts flow' ∨ ServerWrites opts flow' := by
  unfold serverCall at hn
  unfold serverEvents at hf
  by_cases hup : ev.epollrdhup = true
  · rw [if_pos hup] at hf
    cases hf
  rw [if_neg hup] at hf hn
  by_cases hin : ev.epollin = true
  · rw [if_pos hin] at hf hn
    rcases h with hr | hw
    · exact hr.hasRead hn hf
    · -- not registered for this
      have := hreg.2 hin
      rw [hw.interest] at this
      cases this
  rw [if_neg hin] at hf hn
  by_cases hout : ev.epollout = true
  · rw [if_pos hout] at hf hn
    obtain rfl := Option.some.inj hf
    rcases h with hr | hw
    · -- not registered for this
      have := hreg.1 hout
      rw [hr.interest] at this
      cases this
    · exact hw.wrote hn
  · rw [if_neg hout] at hf
    obtain rfl := Option.some.inj hf
    exact h

/-! ## Runs -/

/-- **A flow keeps its accounts**, by its side. -/
def Accounts (opts : RunOptions) (flow : Flow) : Prop :=
  (opts.client = true → ClientWrites opts.toOptions flow ∨ ClientReads opts.toOptions flow) ∧
    (opts.client = false → ServerReads opts.toOptions flow ∨ ServerWrites opts.toOptions flow)

/-- A turn that leaves its flow alive leaves it with its accounts. -/
theorem Accounts.handler {opts : RunOptions} {tid : ℕ} {clock : Clock} {ctlFails : Bool} {t : Turn}
    (h : Accounts opts t.flow.flow) (hreg : Workers.Registered t.flow.flow.events ev)
    (hn : Workers.Yields (Workers.call opts t.flow.flow ev) n)
    (hlive : (Workers.handler opts tid ev n clock ctlFails t).flow.deleted = false) :
    Accounts opts (Workers.handler opts tid ev n clock ctlFails t).flow.flow := by
  unfold Workers.handler at hlive ⊢
  unfold Workers.call at hn
  constructor
  · intro hc
    rw [if_pos hc] at hn hlive ⊢
    exact clientEvents_accounts (h.1 hc) hreg hn (Turn.clientEvents_flow hlive)
  · intro hc
    have hne : ¬ opts.client = true := by simp [hc]
    rw [if_neg hne] at hn hlive ⊢
    exact serverEvents_accounts (h.2 hc) hreg hn (Turn.serverEvents_flow hlive)

/-- Flow and thread count the same transactions. -/
theorem Outcome.counts {seconds : ℚ} {tid : ℕ} {client : Bool} {r r' : Record}
    (h : Outcome seconds tid client r r') :
    ∃ d, r'.count = r.count + d ∧ r'.transactions = r.transactions + d := by
  cases h with
  | quiet same =>
    rw [same]
    exact ⟨0, rfl, rfl⟩
  | completed mid counted collects =>
    refine ⟨1, ?_, ?_⟩
    · rw [collects.count, counted.count]
    · rw [collects.transactions, counted.transactions]

/-- The sum of a list after one summand was raised. -/
theorem sum_set_add {l : List ℕ} {j a d : ℕ} (h : l[j]? = some a) :
    (l.set j (a + d)).sum = l.sum + d := by
  induction l generalizing j with
  | nil => cases h
  | cons b l ih =>
    cases j with
    | zero =>
      obtain rfl : b = a := Option.some.inj h
      rw [List.set_cons_zero, List.sum_cons, List.sum_cons]
      omega
    | succ j =>
      rw [List.set_cons_succ, List.sum_cons, List.sum_cons, ih h]
      omega

/-- The transactions of the flows of a thread, deleted ones included. -/
def Worker.flowTransactions (w : Worker) : ℕ := (w.flows.map fun f => f.flow.transactions).sum

/-- A turn adds to them what it adds to its flow. -/
theorem Worker.flowTransactions_put {w : Worker} {j d : ℕ} {f : FlowState} {t : Turn}
    (hf : w.flows[j]? = some f) (ht : t.flow.flow.transactions = f.flow.transactions + d) :
    (w.put j t).flowTransactions = w.flowTransactions + d := by
  have hj : (w.flows.map fun f => f.flow.transactions)[j]? = some f.flow.transactions := by
    rw [List.getElem?_map, hf]
    rfl
  show ((w.flows.set j t.flow).map fun f => f.flow.transactions).sum = _
  rw [List.map_set, ht, sum_set_add hj]
  rfl

/-- The flows of a thread that starts keep their accounts, and have
counted nothing. -/
theorem Worker.start_accounts (opts : RunOptions) (i : ℕ) :
    (∀ f ∈ (Worker.start opts i).flows, Accounts opts f.flow) ∧
      (Worker.start opts i).flowTransactions = 0 := by
  unfold Worker.flowTransactions Worker.start
  cases hc : opts.client with
  | true =>
    refine ⟨fun f hf => ?_, ?_⟩
    · obtain ⟨k, -, rfl⟩ := List.mem_map.mp hf
      exact ⟨fun _ => .inl (clientWrites_start opts.toOptions), by simp [hc]⟩
    · refine List.sum_eq_zero fun x hx => ?_
      obtain ⟨f, hf, rfl⟩ := List.mem_map.mp hx
      obtain ⟨k, -, rfl⟩ := List.mem_map.mp hf
      rfl
  | false => exact ⟨by simp, rfl⟩

variable {opts : RunOptions} {s : Workers} {ls : List Workers.Label}

/-- **The live flows keep their accounts**, in every run. -/
theorem Workers.flow_accounts (hrun : Run (Workers.step opts) (Workers.start opts) ls s) :
    ∀ (i : ℕ) (w : Worker), s.threads[i]? = some w →
      ∀ f ∈ w.flows, f.deleted = false → Accounts opts f.flow := by
  refine Workers.invariant (fun i f hf _ => (Worker.start_accounts opts i).1 f hf) ?_ ?_ hrun
  · intro i w hserver h f hf hlive
    rcases List.mem_append.mp hf with hf | hf
    · exact h f hf hlive
    · rw [List.mem_singleton.mp hf]
      exact ⟨by simp [hserver], fun _ => .inl (serverReads_start opts.toOptions)⟩
  · intro i w j f ev n ctlFails clock timeStart h hf hlive hreg hn _ g hg hglive
    rcases List.mem_or_eq_of_mem_set hg with hg | rfl
    · exact h g hg hglive
    · exact Accounts.handler (h f (List.mem_of_getElem? hf) hlive) hreg hn hglive

/-- **The transactions of a thread are those of its flows**, in every
run. -/
theorem Workers.transactions_eq (hrun : Run (Workers.step opts) (Workers.start opts) ls s) :
    ∀ (i : ℕ) (w : Worker), s.threads[i]? = some w → w.transactions = w.flowTransactions := by
  refine Workers.invariant (fun i => (Worker.start_accounts opts i).2.symm) ?_ ?_ hrun
  · intro i w _ h
    show w.transactions = ((w.flows ++ [_]).map _).sum
    rw [List.map_append, List.sum_append, h]
    rfl
  · intro i w j f ev n ctlFails clock timeStart h hf _ _ _ hout
    obtain ⟨d, hcount, htrans⟩ := hout.counts
    have htrans : (w.put j _).transactions = w.transactions + d := htrans
    rw [htrans, Worker.flowTransactions_put hf hcount, h]

/-- **The byte accounting.** In every run each live flow is in one of its
phases, is registered for that phase, and has its bytes accounted for;
and the transactions of a thread are those of all its flows. -/
theorem byte_accounting (hrun : Run (Workers.step opts) (Workers.start opts) ls s) :
    ∀ w ∈ s.threads, (∀ f ∈ w.flows, f.deleted = false → Accounts opts f.flow) ∧
      w.transactions = w.flowTransactions := by
  intro w hw
  obtain ⟨i, hi⟩ := List.mem_iff_getElem?.mp hw
  exact ⟨Workers.flow_accounts hrun i w hi, Workers.transactions_eq hrun i w hi⟩

/-- Two flows of one thread, after three transactions. -/
theorem byte_accounting_pair :
    Accounts pairOptions (beforeWrite 0 2 (.atSecond 2) .create 2).flow ∧
      Accounts pairOptions (beforeWrite 1 1 (.atSecond 2) .create 2).flow ∧
      pairEnd.threads.map Worker.transactions = pairEnd.threads.map Worker.flowTransactions := by
  refine ⟨?_, ?_, List.map_congr_left fun w hw => (byte_accounting pair_run w hw).2⟩
  · exact (byte_accounting pair_run _ (List.mem_singleton_self _)).1 _ (by simp) rfl
  · exact (byte_accounting pair_run _ (List.mem_singleton_self _)).1 _ (by simp) rfl

end TcpRr

end Rushit
