import Mathlib.Algebra.Group.Int.Defs
import Mathlib.Algebra.Group.Nat.Defs
import Mathlib.Algebra.Order.Field.Rat
/-!
# The options, and the buffer of a thread

The three programs check their options before a thread starts
(`check_options` of `tcp_rr_main.c`, `tcp_stream_main.c` and
`udp_stream_main.c`), and a thread allocates one buffer for all that it
reads and writes (`buf_alloc` of `workload.c`). The sizes are an `int`
each, and the size of the buffer is a `size_t`.
-/

namespace Rushit

namespace Workload

/-- `struct options`, as far as it is checked. -/
structure Opts where
  minRto : Int32
  maxevents : Int32
  numFlows : Int32
  numThreads : Int32
  testLength : Int32
  bufferSize : Int32
  listenBacklog : Int32
  requestSize : Int32
  responseSize : Int32
  client : Bool
  interval : ℚ
  maxPacingRate : Int64
  localHost : Option String

/-- A row of `CHECK`s: the program ends with the text of the first that
fails. -/
def checkAll : List (Bool × String) → Except String Unit
  | [] => .ok ()
  | (cond, text) :: checks => if cond then checkAll checks else .error text

/-- `check_options` of `tcp_rr_main.c`; `somaxconn` is what the file in
`/proc` has. -/
def checkOptionsTcpRr (opts : Opts) (somaxconn : Int32) : Except String Unit :=
  checkAll [
    (opts.testLength ≥ 1, "Test length must be at least 1 second."),
    (opts.maxevents ≥ 1, "Number of epoll events must be positive."),
    (opts.numFlows ≥ 1, "There must be at least 1 flow."),
    (opts.numThreads ≥ 1, "There must be at least 1 thread."),
    (!opts.client || opts.numFlows ≥ opts.numThreads,
      "There should not be less flows than threads."),
    (opts.requestSize > 0, "Request size must be positive."),
    (opts.responseSize > 0, "Response size must be positive."),
    (opts.interval > 0, "Interval must be positive."),
    (opts.minRto ≥ 0, "TCP_MIN_RTO must be positive."),
    -- the right side is unsigned, and so is the comparison
    (opts.minRto.toUInt32 < ((1 : UInt32) <<< 31) / 1000000,
      "TCP_MIN_RTO * 1,000,000 must be less than 2^31 (nanoseconds)."),
    (opts.maxPacingRate ≥ 0, "Max pacing rate must be non-negative."),
    (opts.maxPacingRate ≤ 4294967295, "Max pacing rate cannot exceed 32 bits."),
    (opts.bufferSize > 0, "Buffer size must be positive."),
    (opts.client || opts.localHost.isNone, "local_host may only be set for clients."),
    (opts.listenBacklog ≤ somaxconn,
      "listen() backlog cannot exceed /proc/sys/net/core/somaxconn")]

/-- `check_options` of `tcp_stream_main.c` -/
def checkOptionsTcpStream (opts : Opts) (somaxconn : Int32) : Except String Unit :=
  checkAll [
    (opts.maxevents ≥ 1, "Number of epoll events must be positive."),
    (opts.numFlows ≥ 1, "There must be at least 1 flow."),
    (opts.numThreads ≥ 1, "There must be at least 1 thread."),
    (!opts.client || opts.numFlows ≥ opts.numThreads,
      "There should not be less flows than threads."),
    (opts.testLength ≥ 1, "Test length must be at least 1 second."),
    (opts.bufferSize > 0, "Buffer size must be positive."),
    (opts.interval > 0, "Interval must be positive."),
    (opts.minRto ≥ 0, "TCP_MIN_RTO must be positive."),
    (opts.minRto.toUInt32 < ((1 : UInt32) <<< 31) / 1000000,
      "TCP_MIN_RTO * 1,000,000 must be less than 2^31 (nanoseconds)."),
    (opts.maxPacingRate ≥ 0, "Max pacing rate must be non-negative."),
    (opts.maxPacingRate ≤ 4294967295, "Max pacing rate cannot exceed 32 bits."),
    (opts.client || opts.localHost.isNone, "local_host may only be set for clients."),
    (opts.listenBacklog ≤ somaxconn,
      "listen() backlog cannot exceed /proc/sys/net/core/somaxconn")]

/-- `check_options` of `udp_stream_main.c` -/
def checkOptionsUdpStream (opts : Opts) : Except String Unit :=
  checkAll [
    (opts.maxevents ≥ 1, "Number of epoll events must be positive."),
    (opts.numFlows ≥ 1, "There must be at least 1 flow."),
    (opts.numThreads ≥ 1, "There must be at least 1 thread."),
    (!opts.client || opts.numFlows ≥ opts.numThreads,
      "There should not be less flows than threads."),
    (opts.testLength ≥ 1, "Test length must be at least 1 second."),
    (opts.bufferSize > 0, "Buffer size must be positive."),
    (opts.interval > 0, "Interval must be positive."),
    (opts.client || opts.localHost.isNone, "local_host may only be set for clients.")]

/-- The conversion of an `int` to a `size_t`. -/
def toSizeT (n : Int32) : ℕ := (n.toInt % 2 ^ 64).toNat

/-- The `alloc_size` of `buf_alloc`. -/
def bufAlloc (opts : Opts) : ℕ :=
  let allocSize := toSizeT opts.requestSize
  let allocSize := if allocSize < toSizeT opts.responseSize then toSizeT opts.responseSize
    else allocSize
  -- request/response sizes are zero for stream workloads
  if allocSize = 0 ∨ allocSize > toSizeT opts.bufferSize then toSizeT opts.bufferSize
  else allocSize

variable {opts : Opts} {somaxconn : Int32}

/-- **What is accepted passes every check.** -/
theorem checkAll_eq_ok {checks : List (Bool × String)} :
    checkAll checks = .ok () ↔ ∀ c ∈ checks, c.1 = true := by
  induction checks with
  | nil => simp [checkAll]
  | cons c checks ih =>
    obtain ⟨cond, text⟩ := c
    cases cond with
    | false => simp [checkAll]
    | true => simpa [checkAll] using ih

theorem toInt_pos {n : Int32} : decide (n > 0) = true ↔ 0 < n.toInt := by
  rw [decide_eq_true_iff, gt_iff_lt, Int32.lt_iff_toInt_lt, Int32.toInt_zero]

/-- What the threads of `tcp_rr` need of their options. -/
structure AcceptedTcpRr (opts : Opts) : Prop where
  requestSize : 0 < opts.requestSize.toInt
  responseSize : 0 < opts.responseSize.toInt
  bufferSize : 0 < opts.bufferSize.toInt
  numThreads : 0 < opts.numThreads.toInt
  interval : 0 < opts.interval

theorem accepted_tcpRr (h : checkOptionsTcpRr opts somaxconn = .ok ()) : AcceptedTcpRr opts := by
  have hall := checkAll_eq_ok.mp h
  simp only [List.forall_mem_cons] at hall
  obtain ⟨-, -, -, hthreads, -, hreq, hresp, hinterval, -, -, -, -, hbuf, -⟩ := hall
  refine ⟨toInt_pos.mp hreq, toInt_pos.mp hresp, toInt_pos.mp hbuf, ?_, of_decide_eq_true hinterval⟩
  have hone : (1 : Int32).toInt ≤ opts.numThreads.toInt :=
    Int32.le_iff_toInt_le.mp (of_decide_eq_true hthreads)
  exact lt_of_lt_of_le (by decide) hone

theorem accepted_tcpStream (h : checkOptionsTcpStream opts somaxconn = .ok ()) :
    0 < opts.bufferSize.toInt := by
  have hall := checkAll_eq_ok.mp h
  simp only [List.forall_mem_cons] at hall
  obtain ⟨-, -, -, -, -, hbuf, -⟩ := hall
  exact toInt_pos.mp hbuf

theorem accepted_udpStream (h : checkOptionsUdpStream opts = .ok ()) :
    0 < opts.bufferSize.toInt := by
  have hall := checkAll_eq_ok.mp h
  simp only [List.forall_mem_cons] at hall
  obtain ⟨-, -, -, -, -, hbuf, -⟩ := hall
  exact toInt_pos.mp hbuf

/-- The conversion keeps a size that is not negative. -/
theorem toSizeT_eq {n : Int32} (hn : 0 ≤ n.toInt) : (toSizeT n : ℤ) = n.toInt := by
  have hlt := n.toInt_lt
  rw [toSizeT, Int.toNat_of_nonneg (Int.emod_nonneg _ (by decide)), Int.emod_eq_of_lt hn (by omega)]

/-- **The buffer is as large as what is capped by `buffer_size`** of a
request or of a response. -/
theorem le_bufAlloc (h : AcceptedTcpRr opts) {n : ℤ}
    (hn : n ≤ max opts.requestSize.toInt opts.responseSize.toInt)
    (hbuf : n ≤ opts.bufferSize.toInt) : n ≤ bufAlloc opts := by
  have hreq := toSizeT_eq h.requestSize.le
  have hresp := toSizeT_eq h.responseSize.le
  have hsize := toSizeT_eq h.bufferSize.le
  unfold bufAlloc
  dsimp only
  split_ifs <;> omega

/-- A stream has all of `buffer_size`. -/
theorem bufAlloc_stream (hreq : opts.requestSize = 0) (hresp : opts.responseSize = 0)
    (hbuf : 0 < opts.bufferSize.toInt) : (bufAlloc opts : ℤ) = opts.bufferSize.toInt := by
  have hzero : toSizeT 0 = 0 := rfl
  unfold bufAlloc
  rw [hreq, hresp, hzero]
  exact toSizeT_eq hbuf.le

end Workload

end Rushit
