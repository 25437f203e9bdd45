import Rushit.Common.Run
import Rushit.TcpRr.Model
import Mathlib.Data.List.Basic
/-!
# The two flows in lockstep

A transaction has four phases: the client sends the request, the request
is on its way, the server sends the response, the response is on its
way. In each of them the counters of the two flows and the bytes under
way add up (`Lockstep`), and every step stays in its phase or goes on to
the next. What is outstanding, what is read and that something can
always be done follow from the phase.
-/

namespace Rushit

namespace TcpRr

variable {opts : Options} {flow c v : Flow} {ev : Events} {n : ℤ} {k : ℕ}
variable {waiting outgoing : List ℕ} {cap : ℕ} {cn : Connection} {s s' : Exchange}

/-! ## What a call returns, and what follows -/

/-- A write fails, or takes some of what is left and fits. -/
theorem returns_write (h : Returns waiting outgoing cap (writeCall opts flow) n) :
    n = -1 ∨ ∃ k : ℕ, n = k ∧ (k : ℤ) ≤ flow.bytesToWrite := by
  rcases h with h | ⟨h₀, hle, -⟩
  · exact .inl h
  · have hcap := capped_le opts flow.bytesToWrite
    obtain ⟨k, rfl⟩ := Int.eq_ofNat_of_zero_le h₀
    exact .inr ⟨k, rfl, by omega⟩

/-- A read fails, or gets some of what is expected and waiting. -/
theorem returns_read (hpos : 0 < flow.bytesToRead)
    (h : Returns waiting outgoing cap (readCall opts flow) n) :
    n = -1 ∨ ∃ k : ℕ, n = k ∧ 0 < k ∧ (k : ℤ) ≤ flow.bytesToRead ∧ k ≤ waiting.length := by
  rcases h with h | ⟨h₀, hle, hlen, hzero⟩
  · exact .inl h
  · have hcap := capped_le opts flow.bytesToRead
    have hcap' := capped_pos opts hpos
    obtain ⟨k, rfl⟩ := Int.eq_ofNat_of_zero_le h₀
    refine .inr ⟨k, rfl, ?_, by omega, by omega⟩
    by_contra hk
    have := hzero (by omega)
    omega

@[simp] theorem wrote_neg_one (done : Flow → Flow) : wrote (-1) done flow = flow := rfl

theorem wrote_of_lt (done : Flow → Flow) (h : (k : ℤ) < flow.bytesToWrite) :
    wrote k done flow = { flow with bytesToWrite := flow.bytesToWrite - k } := by
  unfold wrote
  rw [if_neg (by omega), if_pos (by show flow.bytesToWrite - (k : ℤ) > 0; omega)]

theorem wrote_of_eq (done : Flow → Flow) (h : (k : ℤ) = flow.bytesToWrite) :
    wrote k done flow = done { flow with bytesToWrite := 0 } := by
  unfold wrote
  rw [if_neg (by omega), if_neg (by show ¬ flow.bytesToWrite - (k : ℤ) > 0; omega)]
  congr
  omega

theorem hasRead_of_lt (done : Flow → Flow) (hk : 0 < k) (h : (k : ℤ) < flow.bytesToRead) :
    hasRead k done flow = some { flow with
      bytesRead := flow.bytesRead + k, bytesToRead := flow.bytesToRead - k } := by
  unfold hasRead
  rw [if_neg (by omega), if_neg (by omega),
    if_pos (by show flow.bytesToRead - (k : ℤ) > 0; omega)]

theorem hasRead_of_eq (done : Flow → Flow) (hk : 0 < k) (h : (k : ℤ) = flow.bytesToRead) :
    hasRead k done flow = some (done { flow with
      bytesRead := flow.bytesRead + k, bytesToRead := 0 }) := by
  unfold hasRead
  rw [if_neg (by omega), if_neg (by omega),
    if_neg (by show ¬ flow.bytesToRead - (k : ℤ) > 0; omega)]
  congr
  omega

/-! ## What a step can do -/

/-- The flow is registered for writing, with bytes left to write. -/
structure Writing (flow : Flow) : Prop where
  epollout : flow.events.epollout = true
  pos : 0 < flow.bytesToWrite

/-- The flow is registered for reading only, with bytes left to read. -/
structure Reading (flow : Flow) : Prop where
  epollin : flow.events.epollin = true
  epollout : flow.events.epollout = false
  pos : 0 < flow.bytesToRead

/-- There is more to write after a part of it. -/
theorem Writing.more (hw : Writing flow) (h : (k : ℤ) < flow.bytesToWrite) :
    Writing { flow with bytesToWrite := flow.bytesToWrite - k } := by
  have hpos : 0 < flow.bytesToWrite - k := by omega
  exact ⟨hw.epollout, hpos⟩

/-- There is more to read after a part of it. -/
theorem Reading.more (hr : Reading flow) (h : (k : ℤ) < flow.bytesToRead) :
    Reading { flow with
      bytesRead := flow.bytesRead + k, bytesToRead := flow.bytesToRead - k } := by
  have hpos : 0 < flow.bytesToRead - k := by omega
  exact ⟨hr.epollin, hr.epollout, hpos⟩

/-- A client in its write phase, with nothing to read, writes or does
nothing. -/
theorem client_writing (hc : s.client = some c) (hresp : s.responses = [])
    (hs : step cn s ⟨.client, ev, n⟩ s') :
    s' = s ∨ ∃ k : ℕ, (k : ℤ) ≤ c.bytesToWrite ∧ s' = { s with
      client := some (wrote k (requestSent cn.client) c)
      requests := s.requests ++ List.replicate k c.transactions } := by
  obtain ⟨c', hc', ⟨hup, -, hin⟩, hret, rfl⟩ := hs
  obtain rfl := Option.some.inj (hc.symm.trans hc')
  have hup : ev.epollrdhup = false := hup
  -- nothing has come back that could be reported
  have hno : ev.epollin = false := by
    by_contra hne
    exact (hin (by simpa using hne)).2 hresp
  cases hout : ev.epollout with
  | true =>
    have hcall : clientCall cn.client c ev = writeCall cn.client c := by
      simp [clientCall, hup, hout]
    have hdone : clientEvents cn.client c ev n = some (wrote n (requestSent cn.client) c) := by
      simp [clientEvents, hup, hout]
    simp only [hcall, hdone] at hret ⊢
    rcases returns_write hret with rfl | ⟨k, rfl, hk⟩
    · left
      simp [writeCall, sent, taken, ← hc]
    · exact .inr ⟨k, hk, by simp [writeCall, sent, taken]⟩
  | false =>
    left
    simp [clientCall, clientEvents, hup, hout, hno, sent, taken, ← hc]

/-- A client in its read phase reads or does nothing. -/
theorem client_reading (hc : s.client = some c) (hr : Reading c)
    (hs : step cn s ⟨.client, ev, n⟩ s') :
    s' = s ∨ ∃ k : ℕ, 0 < k ∧ (k : ℤ) ≤ c.bytesToRead ∧ k ≤ s.responses.length ∧ s' = { s with
      client := hasRead k (responseRead cn.client) c
      responses := s.responses.drop k } := by
  obtain ⟨c', hc', ⟨hup, hout, -⟩, hret, rfl⟩ := hs
  obtain rfl := Option.some.inj (hc.symm.trans hc')
  have hup : ev.epollrdhup = false := hup
  -- the flow is not registered for writing
  have hno : ev.epollout = false := by
    by_contra hne
    have := hout (by simpa using hne)
    rw [hr.epollout] at this
    cases this
  cases hin : ev.epollin with
  | true =>
    have hcall : clientCall cn.client c ev = readCall cn.client c := by
      simp [clientCall, hup, hno, hin]
    have hdone : clientEvents cn.client c ev n = hasRead n (responseRead cn.client) c := by
      simp [clientEvents, hup, hno, hin]
    simp only [hcall, hdone] at hret ⊢
    rcases returns_read hr.pos hret with rfl | ⟨k, rfl, hk, hle, hlen⟩
    · left
      simp [readCall, sent, taken, hasRead, ← hc]
    · exact .inr ⟨k, hk, hle, hlen, by simp [readCall, sent, taken]⟩
  | false =>
    left
    simp [clientCall, clientEvents, hup, hno, hin, sent, taken, ← hc]

/-- A server in its write phase writes or does nothing. -/
theorem server_writing (hv : s.server = some v) (hin : v.events.epollin = false)
    (hs : step cn s ⟨.server, ev, n⟩ s') :
    s' = s ∨ ∃ k : ℕ, (k : ℤ) ≤ v.bytesToWrite ∧ s' = { s with
      server := some (wrote k (responseSent cn.server) v)
      responses := s.responses ++ List.replicate k v.transactions } := by
  obtain ⟨v', hv', ⟨hup, -, hrep⟩, hret, rfl⟩ := hs
  obtain rfl := Option.some.inj (hv.symm.trans hv')
  have hup : ev.epollrdhup = false := hup
  -- the flow is not registered for reading
  have hno : ev.epollin = false := by
    by_contra hne
    have := (hrep (by simpa using hne)).1
    rw [hin] at this
    cases this
  cases hout : ev.epollout with
  | true =>
    have hcall : serverCall cn.server v ev = writeCall cn.server v := by
      simp [serverCall, hup, hno, hout]
    have hdone : serverEvents cn.server v ev n = some (wrote n (responseSent cn.server) v) := by
      simp [serverEvents, hup, hno, hout]
    simp only [hcall, hdone] at hret ⊢
    rcases returns_write hret with rfl | ⟨k, rfl, hk⟩
    · left
      simp [writeCall, sent, taken, ← hv]
    · exact .inr ⟨k, hk, by simp [writeCall, sent, taken]⟩
  | false =>
    left
    simp [serverCall, serverEvents, hup, hout, hno, sent, taken, ← hv]

/-- A server in its read phase reads or does nothing. -/
theorem server_reading (hv : s.server = some v) (hr : Reading v)
    (hs : step cn s ⟨.server, ev, n⟩ s') :
    s' = s ∨ ∃ k : ℕ, 0 < k ∧ (k : ℤ) ≤ v.bytesToRead ∧ k ≤ s.requests.length ∧ s' = { s with
      server := hasRead k (requestRead cn.server) v
      requests := s.requests.drop k } := by
  obtain ⟨v', hv', ⟨hup, hout, -⟩, hret, rfl⟩ := hs
  obtain rfl := Option.some.inj (hv.symm.trans hv')
  have hup : ev.epollrdhup = false := hup
  -- the flow is not registered for writing
  have hno : ev.epollout = false := by
    by_contra hne
    have := hout (by simpa using hne)
    rw [hr.epollout] at this
    cases this
  cases hin : ev.epollin with
  | true =>
    have hcall : serverCall cn.server v ev = readCall cn.server v := by
      simp [serverCall, hup, hin]
    have hdone : serverEvents cn.server v ev n = hasRead n (requestRead cn.server) v := by
      simp [serverEvents, hup, hin]
    simp only [hcall, hdone] at hret ⊢
    rcases returns_read hr.pos hret with rfl | ⟨k, rfl, hk, hle, hlen⟩
    · left
      simp [readCall, sent, taken, hasRead, ← hv]
    · exact .inr ⟨k, hk, hle, hlen, by simp [readCall, sent, taken]⟩
  | false =>
    left
    simp [serverCall, serverEvents, hup, hno, hin, sent, taken, ← hv]

/-! ## The phases of a transaction -/

/-- **The flows in lockstep**, by the phase of the transaction. -/
inductive Lockstep (cn : Connection) (c v : Flow) (requests responses : List ℕ) : Prop
  /-- The client sends its request. -/
  | request (hc : Writing c) (hv : Reading v) (idle : c.bytesToRead = 0)
      (count : v.transactions = c.transactions)
      (left : v.bytesToRead = c.bytesToWrite + requests.length)
      (size : v.bytesToRead ≤ cn.client.requestSize) (own : ∀ b ∈ requests, b = c.transactions)
      (none : responses = [])
  /-- The request is sent, and not read to its end. -/
  | requestSent (hc : Reading c) (hv : Reading v) (expect : c.bytesToRead = cn.client.responseSize)
      (count : v.transactions = c.transactions) (left : v.bytesToRead = requests.length)
      (size : v.bytesToRead ≤ cn.client.requestSize) (own : ∀ b ∈ requests, b = c.transactions)
      (none : responses = [])
  /-- The server sends its response. -/
  | response (hc : Reading c) (hv : Writing v) (hin : v.events.epollin = false)
      (idle : v.bytesToRead = 0) (count : v.transactions = c.transactions)
      (left : c.bytesToRead = v.bytesToWrite + responses.length)
      (size : c.bytesToRead ≤ cn.client.responseSize) (own : ∀ b ∈ responses, b = c.transactions)
      (none : requests = [])
  /-- The response is sent, and not read to its end. -/
  | responseSent (hc : Reading c) (hv : Reading v) (expect : v.bytesToRead = cn.client.requestSize)
      (count : v.transactions = c.transactions + 1) (left : c.bytesToRead = responses.length)
      (size : c.bytesToRead ≤ cn.client.responseSize) (own : ∀ b ∈ responses, b = c.transactions)
      (none : requests = [])

/-- Both flows are there, in lockstep. -/
def Exchange.InLockstep (cn : Connection) (s : Exchange) : Prop :=
  ∃ c v, s.client = some c ∧ s.server = some v ∧ Lockstep cn c v s.requests s.responses

theorem inLockstep_start (cn : Connection) : (Exchange.start cn).InLockstep cn := by
  have hQ := cn.client.requestSize_pos
  have heq := cn.requestSize_eq
  refine ⟨_, _, rfl, rfl, .request ⟨rfl, hQ⟩ ⟨rfl, rfl, ?_⟩ rfl rfl ?_ ?_ (by simp [Exchange.start])
    rfl⟩
  · show 0 < cn.server.requestSize
    omega
  · show cn.server.requestSize = cn.client.requestSize + (0 : ℕ)
    omega
  · show cn.server.requestSize ≤ cn.client.requestSize
    omega

/-- The bytes added for a transaction are its own. -/
theorem own_append {l : List ℕ} {t : ℕ} (hl : ∀ b ∈ l, b = t) (k : ℕ) :
    ∀ b ∈ l ++ List.replicate k t, b = t := by
  intro b hb
  rcases List.mem_append.mp hb with hb | hb
  · exact hl b hb
  · exact List.eq_of_mem_replicate hb

theorem own_drop {l : List ℕ} {t : ℕ} (hl : ∀ b ∈ l, b = t) (k : ℕ) : ∀ b ∈ l.drop k, b = t :=
  fun b hb => hl b (List.mem_of_mem_drop hb)

/-- **A step of the client** stays in the phase or begins the next. -/
theorem Lockstep.client (hc : s.client = some c) (hv : s.server = some v)
    (h : Lockstep cn c v s.requests s.responses) (hs : step cn s ⟨.client, ev, n⟩ s') :
    s'.InLockstep cn := by
  have hstay : s.InLockstep cn := ⟨c, v, hc, hv, h⟩
  cases h with
  | request hw hr idle count left size own none =>
    rcases client_writing hc none hs with rfl | ⟨k, hk, rfl⟩
    · exact hstay
    by_cases hlt : (k : ℤ) < c.bytesToWrite
    · refine ⟨_, v, congrArg some (wrote_of_lt _ hlt), hv,
        .request (hw.more hlt) hr idle count ?_ size (own_append own k) none⟩
      simp only [List.length_append, List.length_replicate]
      omega
    · -- the last byte of the request
      have hk : (k : ℤ) = c.bytesToWrite := by omega
      have hR := cn.client.responseSize_pos
      refine ⟨_, v, congrArg some (wrote_of_eq _ hk), hv,
        .requestSent ⟨rfl, rfl, hR⟩ hr rfl count ?_ size (own_append own k) none⟩
      simp only [List.length_append, List.length_replicate]
      omega
  | requestSent hr hr' expect count left size own none =>
    rcases client_reading hc hr hs with rfl | ⟨k, hpos, -, hlen, -⟩
    · exact hstay
    · -- there is nothing to read yet
      rw [none] at hlen
      simp at hlen
      omega
  | response hr hw hin idle count left size own none =>
    have hpos := hw.pos
    rcases client_reading hc hr hs with rfl | ⟨k, hk, hle, hlen, rfl⟩
    · exact hstay
    -- the server has not sent all of it, so this is not the last read
    have hlt : (k : ℤ) < c.bytesToRead := by omega
    refine ⟨_, v, hasRead_of_lt _ hk hlt, hv, .response (hr.more hlt) hw hin idle count ?_ ?_
      (own_drop own k) none⟩
    · simp only [List.length_drop]
      omega
    · show c.bytesToRead - k ≤ _
      omega
  | responseSent hr hr' expect count left size own none =>
    rcases client_reading hc hr hs with rfl | ⟨k, hk, hle, hlen, rfl⟩
    · exact hstay
    by_cases hlt : (k : ℤ) < c.bytesToRead
    · refine ⟨_, v, hasRead_of_lt _ hk hlt, hv, .responseSent (hr.more hlt) hr' expect count ?_ ?_
        (own_drop own k) none⟩
      · simp only [List.length_drop]
        omega
      · show c.bytesToRead - k ≤ _
        omega
    · -- the last byte of the response: the next transaction begins
      have heq : (k : ℤ) = c.bytesToRead := by omega
      have hdrop : s.responses.drop k = [] := List.drop_eq_nil_of_le (by omega)
      refine ⟨_, v, hasRead_of_eq _ hk heq, hv, .request ⟨rfl, cn.client.requestSize_pos⟩ hr' rfl
        count ?_ (by omega) (by simp [none]) hdrop⟩
      simp [responseRead, none, expect]

/-- **A step of the server** stays in the phase or begins the next. -/
theorem Lockstep.server (hc : s.client = some c) (hv : s.server = some v)
    (h : Lockstep cn c v s.requests s.responses) (hs : step cn s ⟨.server, ev, n⟩ s') :
    s'.InLockstep cn := by
  have hstay : s.InLockstep cn := ⟨c, v, hc, hv, h⟩
  cases h with
  | request hw hr idle count left size own none =>
    have hpos := hw.pos
    rcases server_reading hv hr hs with rfl | ⟨k, hk, hle, hlen, rfl⟩
    · exact hstay
    -- the client has not sent all of it, so this is not the last read
    have hlt : (k : ℤ) < v.bytesToRead := by omega
    refine ⟨c, _, hc, hasRead_of_lt _ hk hlt, .request hw (hr.more hlt) idle count ?_ ?_
      (own_drop own k) none⟩
    · simp only [List.length_drop]
      omega
    · show v.bytesToRead - k ≤ _
      omega
  | requestSent hr hr' expect count left size own none =>
    rcases server_reading hv hr' hs with rfl | ⟨k, hk, hle, hlen, rfl⟩
    · exact hstay
    by_cases hlt : (k : ℤ) < v.bytesToRead
    · refine ⟨c, _, hc, hasRead_of_lt _ hk hlt, .requestSent hr (hr'.more hlt) expect count ?_ ?_
        (own_drop own k) none⟩
      · simp only [List.length_drop]
        omega
      · show v.bytesToRead - k ≤ _
        omega
    · -- the last byte of the request
      have heq : (k : ℤ) = v.bytesToRead := by omega
      have hdrop : s.requests.drop k = [] := List.drop_eq_nil_of_le (by omega)
      have hR := cn.server.responseSize_pos
      have hsize := cn.responseSize_eq
      refine ⟨c, _, hc, hasRead_of_eq _ hk heq, .response hr ⟨rfl, hR⟩ rfl rfl count ?_
        (by omega) (by simp [none]) hdrop⟩
      simp [requestRead, none, expect, hsize]
  | response hr hw hin idle count left size own none =>
    rcases server_writing hv hin hs with rfl | ⟨k, hk, rfl⟩
    · exact hstay
    by_cases hlt : (k : ℤ) < v.bytesToWrite
    · refine ⟨c, _, hc, congrArg some (wrote_of_lt _ hlt),
        .response hr (hw.more hlt) hin idle count ?_ size
          (count ▸ own_append (count ▸ own) k) none⟩
      simp only [List.length_append, List.length_replicate]
      omega
    · -- the last byte of the response
      have heq : (k : ℤ) = v.bytesToWrite := by omega
      have hQ := cn.server.requestSize_pos
      have hsize := cn.requestSize_eq
      refine ⟨c, _, hc, congrArg some (wrote_of_eq _ heq), .responseSent hr ⟨rfl, rfl, hQ⟩ hsize
        (congrArg (· + 1) count) ?_ size (count ▸ own_append (count ▸ own) k) none⟩
      simp only [List.length_append, List.length_replicate]
      omega
  | responseSent hr hr' expect count left size own none =>
    rcases server_reading hv hr' hs with rfl | ⟨k, hpos, -, hlen, -⟩
    · exact hstay
    · -- there is nothing to read yet
      rw [none] at hlen
      simp at hlen
      omega

/-- **Every step keeps the flows in lockstep.** -/
theorem Exchange.InLockstep.step {e : Step} (h : s.InLockstep cn) (hs : TcpRr.step cn s e s') :
    s'.InLockstep cn := by
  obtain ⟨c, v, hc, hv, h⟩ := h
  obtain ⟨side, ev, n⟩ := e
  cases side with
  | client => exact h.client hc hv hs
  | server => exact h.server hc hv hs

/-! ## What is under way, and what is read -/

/-- What is under way belongs to the transaction the client is in, and is
no more than the other side still expects of it. -/
structure Outstanding (cn : Connection) (c v : Flow) (requests responses : List ℕ) : Prop where
  requests_own : ∀ b ∈ requests, b = c.transactions ∧ b = v.transactions
  requests_left : (requests.length : ℤ) ≤ v.bytesToRead
  request_size : v.bytesToRead ≤ cn.client.requestSize
  responses_own : ∀ b ∈ responses, b = c.transactions
  responses_left : (responses.length : ℤ) ≤ c.bytesToRead
  response_size : c.bytesToRead ≤ cn.client.responseSize

theorem Lockstep.outstanding {requests responses : List ℕ}
    (h : Lockstep cn c v requests responses) : Outstanding cn c v requests responses := by
  have hQ := cn.client.requestSize_pos
  have hR := cn.client.responseSize_pos
  cases h with
  | request hw hr idle count left size own none =>
    have hpos := hw.pos
    subst none
    exact ⟨fun b hb => ⟨own b hb, (own b hb).trans count.symm⟩, by omega, size, by simp,
      by simp [idle], by omega⟩
  | requestSent hr hr' expect count left size own none =>
    have hpos := hr.pos
    subst none
    exact ⟨fun b hb => ⟨own b hb, (own b hb).trans count.symm⟩, by omega, size, by simp,
      by simp; omega, by omega⟩
  | response hr hw hin idle count left size own none =>
    have hpos := hw.pos
    subst none
    exact ⟨by simp, by simp [idle], by omega, own, by omega, size⟩
  | responseSent hr hr' expect count left size own none =>
    have hpos := hr'.pos
    subst none
    exact ⟨by simp, by simp; omega, by omega, own, by omega, size⟩

/-- A read asks for something and for no more than is left of the
message, and what it can get belongs to the transaction `k`. -/
def ReadsOwn (left : ℤ) (k : ℕ) (waiting : List ℕ) (call : Call) : Prop :=
  ∀ m, call = .read m → 0 < m ∧ m ≤ left ∧ ∀ b ∈ waiting.take m.toNat, b = k

theorem readsOwn_of_reading (opts : Options) (hr : Reading flow) {k : ℕ}
    (hown : ∀ b ∈ waiting, b = k) :
    ReadsOwn flow.bytesToRead k waiting (readCall opts flow) := by
  rintro m hm
  cases hm
  exact ⟨capped_pos opts hr.pos, capped_le opts _, fun b hb => hown b (List.mem_of_mem_take hb)⟩

/-- The client reads where epoll reports bytes only. -/
theorem clientCall_read {m : ℤ} (h : clientCall opts flow ev = .read m) :
    ev.epollin = true ∧ clientCall opts flow ev = readCall opts flow := by
  unfold clientCall at h ⊢
  split at h
  · cases h
  · split at h
    · cases h
    · split at h
      · rename_i hup hout hin
        exact ⟨hin, by rw [if_neg hup, if_neg hout, if_pos hin]⟩
      · cases h

/-- So does the server. -/
theorem serverCall_read {m : ℤ} (h : serverCall opts flow ev = .read m) :
    ev.epollin = true ∧ serverCall opts flow ev = readCall opts flow := by
  unfold serverCall at h ⊢
  split at h
  · cases h
  · split at h
    · rename_i hup hin
      exact ⟨hin, by rw [if_neg hup, if_pos hin]⟩
    · split at h
      · cases h
      · cases h

/-- **What the client reads is the response it waits for.** -/
theorem Lockstep.client_reads {requests responses : List ℕ}
    (h : Lockstep cn c v requests responses) (hrep : Reported c.events ev responses) :
    ReadsOwn c.bytesToRead c.transactions responses (clientCall cn.client c ev) := by
  intro m hm
  obtain ⟨hin, hcall⟩ := clientCall_read hm
  obtain ⟨-, hwaiting⟩ := hrep.2.2 hin
  rw [hcall] at hm
  have hown := h.outstanding.responses_own
  cases h with
  | request hw hr idle count left size own none => exact absurd none hwaiting
  | requestSent hr hr' expect count left size own none => exact absurd none hwaiting
  | response hr hw hin idle count left size own none => exact readsOwn_of_reading _ hr hown m hm
  | responseSent hr hr' expect count left size own none =>
    exact readsOwn_of_reading _ hr hown m hm

/-- **What the server reads is the request it waits for.** -/
theorem Lockstep.server_reads {requests responses : List ℕ}
    (h : Lockstep cn c v requests responses) (hrep : Reported v.events ev requests) :
    ReadsOwn v.bytesToRead v.transactions requests (serverCall cn.server v ev) := by
  intro m hm
  obtain ⟨hin, hcall⟩ := serverCall_read hm
  obtain ⟨-, hwaiting⟩ := hrep.2.2 hin
  rw [hcall] at hm
  have hown : ∀ b ∈ requests, b = v.transactions := fun b hb =>
    (h.outstanding.requests_own b hb).2
  cases h with
  | request hw hr idle count left size own none => exact readsOwn_of_reading _ hr hown m hm
  | requestSent hr hr' expect count left size own none =>
    exact readsOwn_of_reading _ hr' hown m hm
  | response hr hw hin idle count left size own none => exact absurd none hwaiting
  | responseSent hr hr' expect count left size own none => exact absurd none hwaiting

/-! ## Progress -/

/-- A side in its write phase with room in its stream, or a side in its
read phase with bytes waiting. -/
inductive Exchange.Ready (cn : Connection) (s : Exchange) : Prop
  | clientWrites {c : Flow} (client : s.client = some c) (phase : Writing c)
      (room : s.requests.length < cn.requestCap)
  | clientReads {c : Flow} (client : s.client = some c) (phase : Reading c)
      (waiting : s.responses ≠ [])
  | serverWrites {v : Flow} (server : s.server = some v) (phase : Writing v)
      (room : s.responses.length < cn.responseCap)
  | serverReads {v : Flow} (server : s.server = some v) (phase : Reading v)
      (waiting : s.requests ≠ [])

/-- The call that the side of a step makes for its event. -/
def Exchange.call (cn : Connection) (s : Exchange) (e : Step) : Call :=
  match e.side with
  | .client => s.client.elim .none fun c => clientCall cn.client c e.ev
  | .server => s.server.elim .none fun v => serverCall cn.server v e.ev

/-- A write or a read of at least one byte. -/
def Call.Moves : Call → ℤ → Prop
  | .write _ _, n => 0 < n
  | .read _, n => 0 < n
  | _, _ => False

/-- Some step moves a byte. -/
def Exchange.CanMove (cn : Connection) (s : Exchange) : Prop :=
  ∃ e s', step cn s e s' ∧ (s.call cn e).Moves e.numBytes

/-- **A side that is ready moves a byte** where epoll reports what it is
registered for. -/
theorem Exchange.Ready.canMove (h : s.Ready cn) : s.CanMove cn := by
  cases h with
  | @clientWrites c hc hw hroom =>
    have hpos := capped_pos cn.client hw.pos
    have hcall : clientCall cn.client c ⟨false, true, false⟩ = writeCall cn.client c := rfl
    refine ⟨⟨.client, ⟨false, true, false⟩, 1⟩, _,
      ⟨c, hc, ⟨rfl, fun _ => hw.epollout, by simp⟩, .inr ⟨by decide, ?_, ?_⟩, rfl⟩, ?_⟩
    · show 1 ≤ capped cn.client c.bytesToWrite
      omega
    · show 1 + (s.requests.length : ℤ) ≤ cn.requestCap
      omega
    · simp [Exchange.call, hc, hcall, writeCall, Call.Moves]
  | @clientReads c hc hr hne =>
    have hpos := capped_pos cn.client hr.pos
    have hlen := List.length_pos_iff.mpr hne
    have hcall : clientCall cn.client c ⟨true, false, false⟩ = readCall cn.client c := rfl
    refine ⟨⟨.client, ⟨true, false, false⟩, 1⟩, _,
      ⟨c, hc, ⟨rfl, by simp, fun _ => ⟨hr.epollin, hne⟩⟩, .inr ⟨by decide, ?_, ?_, by simp⟩, rfl⟩,
      ?_⟩
    · show 1 ≤ capped cn.client c.bytesToRead
      omega
    · show 1 ≤ (s.responses.length : ℤ)
      omega
    · simp [Exchange.call, hc, hcall, readCall, Call.Moves]
  | @serverWrites v hv hw hroom =>
    have hpos := capped_pos cn.server hw.pos
    have hcall : serverCall cn.server v ⟨false, true, false⟩ = writeCall cn.server v := rfl
    refine ⟨⟨.server, ⟨false, true, false⟩, 1⟩, _,
      ⟨v, hv, ⟨rfl, fun _ => hw.epollout, by simp⟩, .inr ⟨by decide, ?_, ?_⟩, rfl⟩, ?_⟩
    · show 1 ≤ capped cn.server v.bytesToWrite
      omega
    · show 1 + (s.responses.length : ℤ) ≤ cn.responseCap
      omega
    · simp [Exchange.call, hv, hcall, writeCall, Call.Moves]
  | @serverReads v hv hr hne =>
    have hpos := capped_pos cn.server hr.pos
    have hlen := List.length_pos_iff.mpr hne
    have hcall : serverCall cn.server v ⟨true, false, false⟩ = readCall cn.server v := rfl
    refine ⟨⟨.server, ⟨true, false, false⟩, 1⟩, _,
      ⟨v, hv, ⟨rfl, by simp, fun _ => ⟨hr.epollin, hne⟩⟩, .inr ⟨by decide, ?_, ?_, by simp⟩, rfl⟩,
      ?_⟩
    · show 1 ≤ capped cn.server v.bytesToRead
      omega
    · show 1 ≤ (s.requests.length : ℤ)
      omega
    · simp [Exchange.call, hv, hcall, readCall, Call.Moves]

/-- Nothing is reported to a side that waits for bytes. -/
theorem Reported.none_of_waiting {interest : Events} (h : Reported interest ev [])
    (hout : interest.epollout = false) : ev = ⟨false, false, false⟩ := by
  obtain ⟨hup, hev, hin⟩ := h
  obtain ⟨epollin, epollout, epollrdhup⟩ := ev
  have hnoin : epollin = false := Bool.eq_false_iff.mpr fun h => (hin h).2 rfl
  have hnoout : epollout = false :=
    Bool.eq_false_iff.mpr fun h => Bool.eq_false_iff.mp hout (hev h)
  rw [hnoin, hnoout, show epollrdhup = false from hup]

/-- What could go wrong: two sides that both wait for bytes cannot move. -/
theorem not_canMove_of_waiting (hc : s.client = some c) (hv : s.server = some v)
    (hcout : c.events.epollout = false) (hvout : v.events.epollout = false)
    (hreq : s.requests = []) (hresp : s.responses = []) : ¬ s.CanMove cn := by
  rintro ⟨⟨side, ev, n⟩, s', hs, hmoves⟩
  cases side with
  | client =>
    obtain ⟨c', hc', hrep, -, -⟩ := hs
    obtain rfl := Option.some.inj (hc.symm.trans hc')
    obtain rfl := Reported.none_of_waiting (hresp ▸ hrep) hcout
    simp [Exchange.call, hc, clientCall, Call.Moves] at hmoves
  | server =>
    obtain ⟨v', hv', hrep, -, -⟩ := hs
    obtain rfl := Option.some.inj (hv.symm.trans hv')
    obtain rfl := Reported.none_of_waiting (hreq ▸ hrep) hvout
    simp [Exchange.call, hv, serverCall, Call.Moves] at hmoves

/-- **The flows never wait for each other.** Where the sender's stream is
full, the other side has something to read. -/
theorem Lockstep.ready (hc : s.client = some c) (hv : s.server = some v)
    (h : Lockstep cn c v s.requests s.responses) : s.Ready cn := by
  have hne : ∀ {l : List ℕ} {cap : ℕ}, 0 < cap → ¬ l.length < cap → l ≠ [] := by
    rintro l cap hpos hfull rfl
    exact hfull hpos
  cases h with
  | request hw hr idle count left size own none =>
    -- where the stream is full the other side can read from it
    by_cases hroom : s.requests.length < cn.requestCap
    · exact .clientWrites hc hw hroom
    · exact .serverReads hv hr (hne cn.requestCap_pos hroom)
  | requestSent hr hr' expect count left size own none =>
    have hpos := hr'.pos
    -- what is left to read has been sent
    refine Exchange.Ready.serverReads hv hr' (List.length_pos_iff.mp ?_)
    omega
  | response hr hw hin idle count left size own none =>
    by_cases hroom : s.responses.length < cn.responseCap
    · exact .serverWrites hv hw hroom
    · exact .clientReads hc hr (hne cn.responseCap_pos hroom)
  | responseSent hr hr' expect count left size own none =>
    have hpos := hr.pos
    refine Exchange.Ready.clientReads hc hr (List.length_pos_iff.mp ?_)
    omega

theorem Lockstep.transactions {requests responses : List ℕ}
    (h : Lockstep cn c v requests responses) :
    c.transactions ≤ v.transactions ∧ v.transactions ≤ c.transactions + 1 := by
  cases h <;> omega

/-- **Request and response stay in lockstep**, for every interleaving of
the two sides and every way their calls return: the server is at most one
transaction ahead, nothing of a later message is under way or read, no
read is empty, and a side is ready at any time and can move a byte. -/
theorem exchange_in_lockstep {es : List Step}
    (hrun : Run (step cn) (Exchange.start cn) es s) :
    ∃ c v, s.client = some c ∧ s.server = some v ∧
      (c.transactions ≤ v.transactions ∧ v.transactions ≤ c.transactions + 1) ∧
      Outstanding cn c v s.requests s.responses ∧
      (∀ ev, Reported c.events ev s.responses →
        ReadsOwn c.bytesToRead c.transactions s.responses (clientCall cn.client c ev)) ∧
      (∀ ev, Reported v.events ev s.requests →
        ReadsOwn v.bytesToRead v.transactions s.requests (serverCall cn.server v ev)) ∧
      s.Ready cn ∧ s.CanMove cn := by
  obtain ⟨c, v, hc, hv, h⟩ := hrun.preserves (fun _ _ _ hi hs => hi.step hs) (inLockstep_start cn)
  exact ⟨c, v, hc, hv, h.transactions, h.outstanding, fun _ => h.client_reads,
    fun _ => h.server_reads, h.ready hc hv, (h.ready hc hv).canMove⟩

/-! ### Two bytes through a stream of one -/

/-- Requests of two bytes, responses of one, streams of one. -/
def narrow : Connection where
  client := ⟨2, 1, 8, by decide, by decide, by decide⟩
  server := ⟨2, 1, 8, by decide, by decide, by decide⟩
  requestSize_eq := rfl
  responseSize_eq := rfl
  requestCap := 1
  responseCap := 1
  requestCap_pos := by decide
  responseCap_pos := by decide

/-- The client has filled its stream, so it is the server that moves. -/
theorem exchange_in_lockstep_narrow :
    ∃ s : Exchange, s.requests = [0] ∧ s.Ready narrow ∧ s.CanMove narrow := by
  have hrun : ∃ s : Exchange, Run (step narrow) (Exchange.start narrow)
      [⟨.client, ⟨false, true, false⟩, 1⟩] s ∧ s.requests = [0] :=
    ⟨_, .cons ⟨_, rfl, ⟨rfl, by decide, by decide⟩, .inr (by decide), rfl⟩ (.refl _), rfl⟩
  obtain ⟨s, hrun, hreq⟩ := hrun
  obtain ⟨c, v, -, -, -, -, -, -, hready, hmove⟩ := exchange_in_lockstep hrun
  exact ⟨s, hreq, hready, hmove⟩

end TcpRr

end Rushit
