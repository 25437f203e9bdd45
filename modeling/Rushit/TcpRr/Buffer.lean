import Rushit.Script.PacketHook
import Rushit.Stream.Events
import Rushit.TcpRr.Turn
import Rushit.Workload.Options
/-!
# Nothing is read or written past the buffer

What a hook or a system call returns may be anything here, also more
than was asked for: `do_write` and the calls like it only make -1 of what
is negative. A flow of `tcp_rr` then still has a count that is not
negative in the direction that it is registered for, and so never asks
for more than the buffer has (`lengths_within_buffer`). The count in the
other direction may be negative, but epoll does not report that one.
-/

namespace Rushit

namespace TcpRr

/-- The options of the threads, once they are checked. -/
def RunOptions.ofOpts (opts : Workload.Opts) (h : Workload.AcceptedTcpRr opts) : RunOptions where
  requestSize := opts.requestSize.toInt
  responseSize := opts.responseSize.toInt
  bufferSize := opts.bufferSize.toInt
  requestSize_pos := h.requestSize
  responseSize_pos := h.responseSize
  bufferSize_pos := h.bufferSize
  client := opts.client
  numThreads := opts.numThreads.toInt.toNat
  numFlows := opts.numFlows.toInt.toNat
  interval := opts.interval
  numThreads_pos := Int.pos_iff_toNat_pos.mp h.numThreads
  interval_pos := h.interval

/-- The length that a call passes. -/
def Call.length : Call → Option ℤ
  | .write toWrite _ => some toWrite
  | .read toRead => some toRead
  | _ => Option.none

namespace Workers

/-- What `do_read` or `do_write` returns: `hook` is what the hook
returns, and `ret` what the system call does. -/
def transferred (hook ret : ℤ) : ℤ := (Script.orPlain hook 0 fun errno => ⟨ret, errno⟩).value

inductive AnyLabel
  /-- Thread `i` accepts a connection. -/
  | accept (i : ℕ)
  /-- Thread `i` handles the event `ev` of its flow at `j`. -/
  | event (i j : ℕ) (ev : Events) (hook ret : ℤ) (ctlFails : Bool) (clock : Clock)

/-- **One step, whatever the calls return.** -/
def anyStep (opts : RunOptions) (s : Workers) (l : AnyLabel) (s' : Workers) : Prop :=
  match l with
  | .accept i => ∃ w, opts.client = false ∧ s.threads[i]? = some w ∧
      s' = { s with threads := s.threads.set i (w.accept opts) }
  | .event i j ev hook ret ctlFails clock => ∃ w f,
      s.threads[i]? = some w ∧ w.flows[j]? = some f ∧ f.deleted = false ∧
      Registered f.flow.events ev ∧
      ∃ t, t = handler opts w.index ev (transferred hook ret) clock ctlFails
          ⟨f, w.transactions, w.samples, s.timeStart⟩ ∧
        s' = ⟨s.threads.set i (w.put j t), t.timeStart⟩

end Workers

/-! ## The counts -/

/-- The larger of the two sizes. -/
def Options.most (opts : Options) : ℤ := max opts.requestSize opts.responseSize

/-- **The counts of a flow** fit the buffer in the directions it is
registered for. -/
structure Fits (opts : Options) (flow : Flow) : Prop where
  write : flow.events.epollout = true → 0 ≤ flow.bytesToWrite ∧ flow.bytesToWrite ≤ opts.most
  read : flow.events.epollin = true → 0 ≤ flow.bytesToRead ∧ flow.bytesToRead ≤ opts.most

variable {opts : Options} {flow flow' : Flow} {ev : Events} {n : ℤ}

theorem fits_client (opts : Options) : Fits opts (clientFlow opts) where
  write _ := ⟨opts.requestSize_pos.le, le_max_left _ _⟩
  read _ := ⟨le_rfl, opts.requestSize_pos.le.trans (le_max_left _ _)⟩

theorem fits_server (opts : Options) : Fits opts (serverFlow opts) where
  write := nofun
  read _ := ⟨opts.requestSize_pos.le, le_max_left _ _⟩

/-- After a write of any count. -/
theorem Fits.wrote (h : Fits opts flow) (hn : -1 ≤ n) (hout : flow.events.epollout = true)
    {done : Flow → Flow} (hdone : ∀ f, Fits opts (done f)) :
    Fits opts (TcpRr.wrote n done flow) := by
  unfold TcpRr.wrote
  dsimp only
  split_ifs with hfail hleft
  · exact h
  · -- some is left, and no more than before
    obtain ⟨-, hle⟩ := h.write hout
    have hless : flow.bytesToWrite - n ≤ opts.most := by omega
    exact ⟨fun _ => ⟨hleft.le, hless⟩, h.read⟩
  · exact hdone _

/-- After a read of any count. -/
theorem Fits.hasRead (h : Fits opts flow) (hn : -1 ≤ n) (hin : flow.events.epollin = true)
    {done : Flow → Flow} (hdone : ∀ f, Fits opts (done f))
    (hread : TcpRr.hasRead n done flow = some flow') : Fits opts flow' := by
  unfold TcpRr.hasRead at hread
  dsimp only at hread
  split_ifs at hread with hfail hzero hleft
  · cases hread
    exact h
  · cases hread
    obtain ⟨-, hle⟩ := h.read hin
    have hless : flow.bytesToRead - n ≤ opts.most := by omega
    exact ⟨h.write, fun _ => ⟨hleft.le, hless⟩⟩
  · cases hread
    exact hdone _

theorem fits_requestSent (opts : Options) (f : Flow) : Fits opts (requestSent opts f) where
  write := nofun
  read _ := ⟨opts.responseSize_pos.le, le_max_right _ _⟩

theorem fits_responseRead (opts : Options) (f : Flow) : Fits opts (responseRead opts f) where
  write _ := ⟨opts.requestSize_pos.le, le_max_left _ _⟩
  read := nofun

theorem fits_requestRead (opts : Options) (f : Flow) : Fits opts (requestRead opts f) where
  write _ := ⟨opts.responseSize_pos.le, le_max_right _ _⟩
  read := nofun

theorem fits_responseSent (opts : Options) (f : Flow) : Fits opts (responseSent opts f) where
  write := nofun
  read _ := ⟨opts.requestSize_pos.le, le_max_left _ _⟩

/-- **The client's handler keeps the counts.** -/
theorem Fits.clientEvents (h : Fits opts flow) (hreg : Workers.Registered flow.events ev)
    (hn : -1 ≤ n) (heq : clientEvents opts flow ev n = some flow') : Fits opts flow' := by
  unfold TcpRr.clientEvents at heq
  split_ifs at heq with hup hout hin
  · cases heq
    exact h.wrote hn (hreg.1 hout) (fits_requestSent opts)
  · exact h.hasRead hn (hreg.2 hin) (fits_responseRead opts) heq
  · cases heq
    exact h

/-- **The server's handler keeps the counts.** -/
theorem Fits.serverEvents (h : Fits opts flow) (hreg : Workers.Registered flow.events ev)
    (hn : -1 ≤ n) (heq : serverEvents opts flow ev n = some flow') : Fits opts flow' := by
  unfold TcpRr.serverEvents at heq
  split_ifs at heq with hup hin hout
  · exact h.hasRead hn (hreg.2 hin) (fits_requestRead opts) heq
  · cases heq
    exact h.wrote hn (hreg.1 hout) (fits_responseSent opts)
  · cases heq
    exact h

/-- **What a call asks for** is capped, of a count that fits. -/
theorem Fits.length {opts : RunOptions} (h : Fits opts.toOptions flow)
    (hreg : Workers.Registered flow.events ev) {len : ℤ}
    (hlen : (Workers.call opts flow ev).length = some len) :
    0 ≤ len ∧ len ≤ opts.most ∧ len ≤ opts.bufferSize := by
  have hbuf := opts.bufferSize_pos
  have hcap : ∀ {k : ℤ}, 0 ≤ k ∧ k ≤ opts.most → 0 ≤ capped opts.toOptions k ∧
      capped opts.toOptions k ≤ opts.most ∧ capped opts.toOptions k ≤ opts.bufferSize := by
    intro k hk
    unfold capped
    split_ifs <;> omega
  unfold Workers.call clientCall serverCall at hlen
  split_ifs at hlen with hclient hup hout hin hup hin hout
  · cases hlen
  · cases hlen
    exact hcap (h.write (hreg.1 hout))
  · cases hlen
    exact hcap (h.read (hreg.2 hin))
  · cases hlen
  · cases hlen
  · cases hlen
    exact hcap (h.read (hreg.2 hin))
  · cases hlen
    exact hcap (h.write (hreg.1 hout))
  · cases hlen

/-! ## Every run -/

theorem Workers.transferred_ge (hook ret : ℤ) : -1 ≤ transferred hook ret := by
  unfold transferred Script.orPlain
  dsimp only
  -- whatever it is of the three, -1 is made of what is negative
  have hge : ∀ n : ℤ, -1 ≤ if n < 0 then -1 else n := by
    intro n
    split_ifs <;> omega
  exact hge _

/-- **A turn keeps the counts**, whatever its call returned. -/
theorem Fits.handler {opts : RunOptions} {tid : ℕ} {clock : Clock} {ctlFails : Bool} {t : Turn}
    (h : Fits opts.toOptions t.flow.flow) (hreg : Workers.Registered t.flow.flow.events ev)
    (hn : -1 ≤ n)
    (hlive : (Workers.handler opts tid ev n clock ctlFails t).flow.deleted = false) :
    Fits opts.toOptions (Workers.handler opts tid ev n clock ctlFails t).flow.flow := by
  unfold Workers.handler at hlive ⊢
  split_ifs at hlive ⊢ with hclient
  · exact h.clientEvents hreg hn (Turn.clientEvents_flow hlive)
  · exact h.serverEvents hreg hn (Turn.serverEvents_flow hlive)

/-- The live flows of a thread. -/
def Worker.Fits (opts : RunOptions) (w : Worker) : Prop :=
  ∀ f ∈ w.flows, f.deleted = false → TcpRr.Fits opts.toOptions f.flow

theorem Worker.fits_start (opts : RunOptions) (i : ℕ) : (Worker.start opts i).Fits opts := by
  intro f hf _
  unfold Worker.start at hf
  dsimp only at hf
  split_ifs at hf
  · obtain ⟨k, -, rfl⟩ := List.mem_map.mp hf
    exact fits_client opts.toOptions
  · cases hf

theorem Worker.Fits.accept {opts : RunOptions} {w : Worker} (h : w.Fits opts) :
    (w.accept opts).Fits opts := by
  intro f hf hlive
  rcases List.mem_append.mp hf with hf | hf
  · exact h f hf hlive
  · rw [List.mem_singleton.mp hf]
    exact fits_server opts.toOptions

theorem Worker.Fits.put {opts : RunOptions} {w : Worker} {j : ℕ} {t : Turn} (h : w.Fits opts)
    (ht : t.flow.deleted = false → TcpRr.Fits opts.toOptions t.flow.flow) :
    (w.put j t).Fits opts := by
  intro f hf hlive
  rcases List.mem_or_eq_of_mem_set hf with hf | rfl
  · exact h f hf hlive
  · exact ht hlive

namespace Workers

variable {runOpts : RunOptions} {s s' : Workers} {l : AnyLabel} {ls : List AnyLabel}

/-- **One step keeps the counts** of all flows. -/
theorem anyStep_fits (hstep : anyStep runOpts s l s')
    (h : ∀ (i : ℕ) (w : Worker), s.threads[i]? = some w → w.Fits runOpts) :
    ∀ (i : ℕ) (w : Worker), s'.threads[i]? = some w → w.Fits runOpts := by
  intro k v hv
  cases l with
  | accept i =>
    obtain ⟨w, -, hw, rfl⟩ := hstep
    rcases getElem?_set_cases hv with ⟨-, rfl⟩ | ⟨-, hv⟩
    · exact (h i w hw).accept
    · exact h k v hv
  | event i j ev hook ret ctlFails clock =>
    obtain ⟨w, f, hw, hf, hlive, hreg, t, rfl, rfl⟩ := hstep
    rcases getElem?_set_cases hv with ⟨-, rfl⟩ | ⟨-, hv⟩
    · refine (h i w hw).put fun hlive' => ?_
      have hfits := h i w hw f (List.mem_of_getElem? hf) hlive
      exact Fits.handler (t := ⟨f, w.transactions, w.samples, s.timeStart⟩) hfits hreg
        (transferred_ge hook ret) hlive'
    · exact h k v hv

theorem anyRun_fits (hrun : Run (anyStep runOpts) (start runOpts) ls s) :
    ∀ (i : ℕ) (w : Worker), s.threads[i]? = some w → w.Fits runOpts := by
  refine hrun.preserves
    (I := fun s => ∀ (i : ℕ) (w : Worker), s.threads[i]? = some w → w.Fits runOpts)
    (fun _ _ _ h hstep => anyStep_fits hstep h) fun i w hw => ?_
  rw [start_threads hw]
  exact Worker.fits_start runOpts i

end Workers

/-! ## The streams -/

/-- The options that the handlers of a stream read. -/
def streamOptions (opts : Workload.Opts) (enableRead enableWrite edgeTrigger : Bool) :
    Stream.Options where
  enableRead := enableRead
  enableWrite := enableWrite
  edgeTrigger := edgeTrigger
  bufferSize := opts.bufferSize.toInt

/-- The calls of a stream ask for all of the buffer. -/
theorem stream_lengths {opts : Workload.Opts} {w : Stream.Workload}
    {enableRead enableWrite edgeTrigger : Bool} {events : List Stream.Event}
    {handled : List Stream.Handled} (hreq : opts.requestSize = 0) (hresp : opts.responseSize = 0)
    (hbuf : 0 < opts.bufferSize.toInt)
    (hp : Stream.processEvents w (streamOptions opts enableRead enableWrite edgeTrigger) events =
      some handled) :
    ∀ h ∈ handled, ∀ c ∈ h.calls, 0 ≤ c.len ∧ c.len ≤ Workload.bufAlloc opts := by
  intro h hh c hc
  have hlen : c.len = opts.bufferSize.toInt := Stream.processEvents_len hp h hh c hc
  rw [hlen, Workload.bufAlloc_stream hreq hresp hbuf]
  exact ⟨hbuf.le, le_rfl⟩

/-- **No call asks for more than the buffer has**, nor for a negative
length: with options that `tcp_rr` accepts, in every run of its threads
and whatever the calls of that run returned; and with those that the
streams accept, at every call that they make for their events. -/
theorem lengths_within_buffer (opts : Workload.Opts) (somaxconn : Int32) :
    (∀ (h : Workload.checkOptionsTcpRr opts somaxconn = .ok ()) (ls : List Workers.AnyLabel)
        (s : Workers), Run (Workers.anyStep (.ofOpts opts (Workload.accepted_tcpRr h)))
        (Workers.start (.ofOpts opts (Workload.accepted_tcpRr h))) ls s →
      ∀ (i : ℕ) (w : Worker) (f : FlowState) (ev : Events) (len : ℤ),
        s.threads[i]? = some w → f ∈ w.flows → f.deleted = false →
        Workers.Registered f.flow.events ev →
        (Workers.call (.ofOpts opts (Workload.accepted_tcpRr h)) f.flow ev).length = some len →
        0 ≤ len ∧ len ≤ Workload.bufAlloc opts) ∧
    (opts.requestSize = 0 → opts.responseSize = 0 →
      (Workload.checkOptionsTcpStream opts somaxconn = .ok () →
        ∀ enableRead enableWrite edgeTrigger events handled,
          Stream.processEvents .tcp (streamOptions opts enableRead enableWrite edgeTrigger)
            events = some handled →
          ∀ h ∈ handled, ∀ c ∈ h.calls, 0 ≤ c.len ∧ c.len ≤ Workload.bufAlloc opts) ∧
      (Workload.checkOptionsUdpStream opts = .ok () →
        ∀ enableRead enableWrite edgeTrigger events handled,
          Stream.processEvents .udp (streamOptions opts enableRead enableWrite edgeTrigger)
            events = some handled →
          ∀ h ∈ handled, ∀ c ∈ h.calls, 0 ≤ c.len ∧ c.len ≤ Workload.bufAlloc opts)) := by
  refine ⟨fun h ls s hrun i w f ev len hw hf hlive hreg hlen => ?_, fun hreq hresp => ⟨?_, ?_⟩⟩
  · have hfits := Workers.anyRun_fits hrun i w hw f hf hlive
    obtain ⟨hnonneg, hmost, hbuf⟩ := hfits.length hreg hlen
    exact ⟨hnonneg, Workload.le_bufAlloc (Workload.accepted_tcpRr h) hmost hbuf⟩
  · exact fun h _ _ _ _ _ hp => stream_lengths hreq hresp (Workload.accepted_tcpStream h) hp
  · exact fun h _ _ _ _ _ hp => stream_lengths hreq hresp (Workload.accepted_udpStream h) hp

/-- The options of a client with one flow and requests of three bytes. -/
def narrowOpts : Workload.Opts where
  minRto := 0
  maxevents := 1
  numFlows := 1
  numThreads := 1
  testLength := 1
  bufferSize := 2
  listenBacklog := 128
  requestSize := 3
  responseSize := 1
  client := true
  interval := 1
  maxPacingRate := 0
  localHost := Option.none

theorem narrowOpts_tcpRr : Workload.checkOptionsTcpRr narrowOpts 128 = .ok () := by
  decide

theorem narrowOpts_tcpStream :
    Workload.checkOptionsTcpStream { narrowOpts with requestSize := 0, responseSize := 0 } 128 =
      .ok () := by
  decide

theorem narrowOpts_udpStream :
    Workload.checkOptionsUdpStream { narrowOpts with requestSize := 0, responseSize := 0 } =
      .ok () := by
  decide

theorem lengths_within_buffer_narrow :
    (0 ≤ (2 : ℤ) ∧ (2 : ℤ) ≤ Workload.bufAlloc narrowOpts) ∧
    (0 ≤ (2 : ℤ) ∧
      (2 : ℤ) ≤ Workload.bufAlloc { narrowOpts with requestSize := 0, responseSize := 0 }) ∧
    (0 ≤ (2 : ℤ) ∧
      (2 : ℤ) ≤ Workload.bufAlloc { narrowOpts with requestSize := 0, responseSize := 0 }) := by
  refine ⟨?_, ?_, ?_⟩
  · -- the first write, of a request that is longer than the buffer
    have hwriting : Workers.Registered (clientFlow (RunOptions.ofOpts narrowOpts
        (Workload.accepted_tcpRr narrowOpts_tcpRr)).toOptions).events ⟨false, true, false⟩ :=
      ⟨fun _ => rfl, nofun⟩
    exact (lengths_within_buffer narrowOpts 128).1 narrowOpts_tcpRr [] _ (.refl _) 0
      (Worker.start (.ofOpts narrowOpts (Workload.accepted_tcpRr narrowOpts_tcpRr)) 0)
      (addflow 0 (clientFlow (RunOptions.ofOpts narrowOpts
        (Workload.accepted_tcpRr narrowOpts_tcpRr)).toOptions))
      ⟨false, true, false⟩ 2 rfl (List.mem_singleton.mpr rfl) rfl hwriting rfl
  · exact ((lengths_within_buffer { narrowOpts with requestSize := 0, responseSize := 0 } 128).2
      rfl rfl).1 narrowOpts_tcpStream true true true
      [⟨.flow, ⟨false, false, true, false⟩, [7]⟩] [⟨false, [⟨.readerr, 2, 7⟩]⟩] (by decide)
      ⟨false, [⟨.readerr, 2, 7⟩]⟩ (List.mem_singleton.mpr rfl) ⟨.readerr, 2, 7⟩
      (List.mem_singleton.mpr rfl)
  · exact ((lengths_within_buffer { narrowOpts with requestSize := 0, responseSize := 0 } 128).2
      rfl rfl).2 narrowOpts_udpStream true true false
      [⟨.flow, ⟨true, false, false, false⟩, [7]⟩] [⟨false, [⟨.read, 2, 7⟩]⟩] (by decide)
      ⟨false, [⟨.read, 2, 7⟩]⟩ (List.mem_singleton.mpr rfl) ⟨.read, 2, 7⟩
      (List.mem_singleton.mpr rfl)

end TcpRr

end Rushit
