import Rushit.Sample.Loop
import Rushit.TcpRr.Recording
/-!
# The report of the workers

`report_stats` of `tcp_rr.c`, up to `report_latency`. Its arithmetic is
that of `unsigned long`, and it divides without looking at what it
divides by.

What the workers record (`Recordable`) is what makes the arithmetic
exact: along a flow the counters rise, so that no subtraction wraps, and
all of them together are no more than the transactions of the threads
(`report_stats_exact`). It does not keep the samples from being of one
instant, and then there is nothing to divide by (`denominators_iff`).
-/

namespace Rushit

namespace TcpRr

/-- Addition of `unsigned long`. -/
def add64 (a b : ℕ) : ℕ := (a + b) % 2 ^ 64

/-- Subtraction of `unsigned long`. -/
def sub64 (a b : ℕ) : ℕ := (a + 2 ^ 64 - b) % 2 ^ 64

/-- Transactions, in the row of the thread; `assert` looks at the row. -/
def tally (numThreads : ℕ) : Tally ℕ where
  row := Sample.tid
  count := Sample.transactions
  add := add64
  sub := sub64
  toDouble := Nat.cast
  check s := decide (0 ≤ s.tid ∧ s.tid < numThreads)

/-- A quotient of two doubles, where it is a number. -/
def divide (a b : ℚ) : Option ℚ := if b = 0 then none else some (a / b)

/-- What is printed, but for the latencies. -/
inductive Report
  /-- no sample collected -/
  | noSample (numTransactions : ℕ)
  /-- insufficient number of samples -/
  | insufficient (numTransactions numSamples : ℕ)
  | stats (numTransactions numSamples : ℕ) (throughput : Option ℚ)
      (correlation : Option Correlation) (timeEnd : Timespec)

/-- The loop of `report_stats`, after `j` iterations. -/
def loopAfter (threads : List Worker) (first : Sample) (rest : List Sample) (j : ℕ) :
    Option (Loop ℕ) :=
  Loop.run (tally threads.length) (rowWidths (threads.map Worker.samples)) first (rest.take j)

/-- **`report_stats`**, where `qsort` returned `samples`: no result where
an assertion fails or an access to `per_flow` is out of bounds. -/
def reportStats (threads : List Worker) (samples : List Sample) : Option Report :=
  let numTransactions := threads.foldl (fun total w => add64 total w.transactions) 0
  match samples with
  | [] => some (.noSample numTransactions)
  -- one sample spans no time
  | [_] => some (.insufficient numTransactions 1)
  | first :: rest => do
    let st ← loopAfter threads first rest rest.length
    let sums := st.sums
    return .stats numTransactions (first :: rest).length (divide sums.total sums.duration)
      (if sums.sumXx * sums.sumYy = 0 then none
        else some ⟨sums.sumXy, sums.sumXx * sums.sumYy⟩)
      ((first :: rest).getLast (List.cons_ne_nil _ _)).timestamp

/-! ## What is recorded -/

/-- **What the workers can record**: the thread at `i` has the identifier
`i`, and along a flow time and counters rise. -/
structure Recordable (threads : List (List Sample)) : Prop where
  tid : ∀ (i : ℕ) (samples : List Sample), threads[i]? = some samples →
    ∀ x ∈ samples, x.tid = i
  pos : ∀ x ∈ threads.flatten, 0 < x.transactions
  distinct : (tally threads.length).Distinct threads.flatten
  rising : ∀ x ∈ threads.flatten, ∀ y ∈ threads.flatten,
    (tally threads.length).key x = (tally threads.length).key y → x.time < y.time →
      x.transactions < y.transactions

/-- The lists of samples of the threads. -/
def Workers.samples (s : Workers) : List (List Sample) := s.threads.map Worker.samples

variable {opts : RunOptions} {s : Workers} {ls : List Workers.Label}
variable {threads : List (List Sample)} {samples arr rest seen : List Sample} {first x y : Sample}
variable {i : ℕ}

theorem Workers.getElem?_samples (h : s.samples[i]? = some samples) :
    ∃ w, s.threads[i]? = some w ∧ w.samples = samples := by
  unfold Workers.samples at h
  rw [List.getElem?_map] at h
  exact Option.map_eq_some_iff.mp h

/-- Each sample is of a thread. -/
theorem Workers.mem_samples (h : x ∈ s.samples.flatten) :
    ∃ (i : ℕ) (w : Worker), s.threads[i]? = some w ∧ x ∈ w.samples := by
  obtain ⟨i, samples, hi, hx⟩ := mem_flatten.mp h
  obtain ⟨w, hw, rfl⟩ := Workers.getElem?_samples hi
  exact ⟨i, w, hw, hx⟩

/-- No flow has two samples of one instant. -/
theorem Workers.distinct (hrun : Run (Workers.step opts) (Workers.start opts) ls s) (n : ℕ) :
    (tally n).Distinct s.samples.flatten := by
  have hrec := Workers.recorded hrun
  refine List.pairwise_flatten.mpr ⟨fun samples hmem => ?_, ?_⟩
  · obtain ⟨i, hi⟩ := List.mem_iff_getElem?.mp hmem
    obtain ⟨w, hw, rfl⟩ := Workers.getElem?_samples hi
    refine (hrec i w hw).rising.imp fun hxy hkey => ?_
    exact (hxy (congrArg Prod.snd hkey).symm).1.ne'
  · -- threads have rows of their own
    rw [List.pairwise_iff_getElem]
    intro i j hi hj hij x hx y hy hkey
    obtain ⟨w, hw, hwx⟩ := Workers.getElem?_samples (List.getElem?_eq_getElem hi)
    obtain ⟨v, hv, hvy⟩ := Workers.getElem?_samples (List.getElem?_eq_getElem hj)
    have hxi := (hrec i w hw).tid x (by rw [hwx]; exact hx)
    have hyj := (hrec j v hv).tid y (by rw [hvy]; exact hy)
    have heq : x.tid = y.tid := congrArg Prod.fst hkey
    omega

/-- **What the workers record can be recorded.** -/
theorem Workers.recordable (hrun : Run (Workers.step opts) (Workers.start opts) ls s) :
    Recordable s.samples := by
  have hrec := Workers.recorded hrun
  refine ⟨fun i samples hi x hx => ?_, fun x hx => ?_, Workers.distinct hrun _,
    fun x hx y hy hkey htime => ?_⟩
  · obtain ⟨w, hw, rfl⟩ := Workers.getElem?_samples hi
    exact (hrec i w hw).tid x hx
  · obtain ⟨i, w, hw, hx⟩ := Workers.mem_samples hx
    exact (hrec i w hw).pos x hx
  · obtain ⟨i, w, hw, hx⟩ := Workers.mem_samples hx
    obtain ⟨j, v, hv, hy⟩ := Workers.mem_samples hy
    have hxi := (hrec i w hw).tid x hx
    have hyj := (hrec j v hv).tid y hy
    have htid : x.tid = y.tid := congrArg Prod.fst hkey
    -- samples of one flow are of one thread
    obtain rfl : i = j := by omega
    obtain rfl := Option.some.inj (hw.symm.trans hv)
    exact (hrec i w hw).transactions_lt hx hy (congrArg Prod.snd hkey) htime

/-! ## The counters -/

/-- A difference that does not wrap. -/
theorem sub64_of_le {a b : ℕ} (hba : b ≤ a) (ha : a < 2 ^ 64) : sub64 a b = a - b := by
  unfold sub64
  omega

/-- A sum that does not wrap. -/
theorem add64_of_lt {a b : ℕ} (h : a + b < 2 ^ 64) : add64 a b = a + b := Nat.mod_eq_of_lt h

namespace Recordable

/-- Along a flow no counter is more than the latest one. -/
theorem transactions_le_latest (h : Recordable threads) (hseen : seen ⊆ threads.flatten)
    (hx : x ∈ seen) : x.transactions ≤
      (tally threads.length).latest seen ((tally threads.length).key x) := by
  have hkey : (tally threads.length).key x ∈ Latest.keys (tally threads.length).key seen :=
    Latest.mem_keys.mpr ⟨x, hx, rfl⟩
  obtain ⟨y, hy, hyx, hmax, hval⟩ :=
    Latest.latest_spec Sample.time (tally threads.length).count hkey
  have hval : (tally threads.length).latest seen _ = y.transactions := hval
  rw [hval]
  rcases (hmax x hx rfl).lt_or_eq with hlt | heq
  · exact (h.rising x (hseen hx) y (hseen hy) hyx.symm hlt).le
  · have hxy : x = y := h.distinct.eq_of_eq (hseen hx) (hseen hy) hyx.symm heq
    rw [hxy]

/-- No counter is more than all of them together. -/
theorem transactions_le_total (h : Recordable threads) (hseen : seen ⊆ threads.flatten)
    (hx : x ∈ seen) : x.transactions ≤ (tally threads.length).total seen :=
  (h.transactions_le_latest hseen hx).trans (Latest.latest_le_total _)

/-- The accesses are in bounds, and the assertions hold. -/
theorem inBounds (h : Recordable threads) (hx : x ∈ threads.flatten) :
    (0 ≤ x.tid ∧ x.tid < threads.length) ∧
      Grid.InBounds (rowWidths threads) x.tid x.flowId := by
  obtain ⟨i, samples, hi, hx⟩ := mem_flatten.mp hx
  obtain ⟨hlt, -⟩ := List.getElem?_eq_some_iff.mp hi
  rw [h.tid i samples hi x hx, inBounds_row]
  exact ⟨⟨by omega, by omega⟩, samples, hi, maxFlowId_le_iff.mp le_rfl x hx⟩

theorem check (h : Recordable threads) (hx : x ∈ threads.flatten) :
    (tally threads.length).check x = true ∧
      Grid.InBounds (rowWidths threads) ((tally threads.length).row x) x.flowId :=
  ⟨decide_eq_true (h.inBounds hx).1, (h.inBounds hx).2⟩

/-- **The arithmetic is exact** as long as the totals are in range. -/
theorem exact (h : Recordable threads) (hq : Qsorted threads.flatten arr)
    (hfew : ∀ seen, seen ⊆ threads.flatten → (tally threads.length).total seen < 2 ^ 64) :
    (tally threads.length).Exact arr := by
  have hsub : ∀ seen, seen <+: arr → seen ⊆ threads.flatten := fun seen hpre x hx =>
    hq.perm.mem_iff.mp (hpre.subset hx)
  refine ⟨fun pre y hpre => ?_, fun first pre hpre => ?_⟩
  · have hinc := h.distinct.increasing hq
    have hlt := hfew _ (hsub _ hpre)
    have hltpre := hfew _ (hsub _ ((List.prefix_append pre [y]).trans hpre))
    have hle : (tally threads.length).latest pre ((tally threads.length).key y) ≤
        (tally threads.length).total pre := Latest.latest_le_total _
    obtain ⟨suf, rfl⟩ := hpre
    rw [List.append_assoc] at hinc
    have hnext : (tally threads.length).total (pre ++ [y]) +
        (tally threads.length).latest pre ((tally threads.length).key y) =
          (tally threads.length).total pre + y.transactions :=
      Latest.total_concat (tally threads.length).count hinc.newest
    show add64 (sub64 _ _) y.transactions = _
    -- neither operation wraps
    rw [sub64_of_le hle hltpre, add64_of_lt (by omega)]
    omega
  · have hle := h.transactions_le_total (hsub _ hpre) (List.mem_cons_self ..)
    show ((sub64 _ first.transactions : ℕ) : ℚ) = _ - _
    rw [sub64_of_le hle (hfew _ (hsub _ hpre)), Nat.cast_sub hle]
    rfl

end Recordable

/-- What the flows of the threads have counted. -/
def Workers.counters (s : Workers) : List ((ℤ × ℕ) × ℕ) :=
  s.threads.flatMap fun w =>
    w.flows.map fun f => (((w.index : ℤ), f.id), f.flow.transactions)

/-- **All counters together** are no more than the transactions of the
threads, whatever samples are looked at. -/
theorem Workers.total_le (hrun : Run (Workers.step opts) (Workers.start opts) ls s)
    (hseen : seen ⊆ s.samples.flatten) (n : ℕ) :
    (tally n).total seen ≤ (s.threads.map Worker.transactions).sum := by
  have hsum : (s.counters.map Prod.snd).sum = (s.threads.map Worker.transactions).sum := by
    unfold Workers.counters
    rw [List.map_flatMap, List.flatMap_def, List.sum_flatten, List.map_map]
    refine congrArg List.sum (List.map_congr_left fun w hw => ?_)
    obtain ⟨i, hi⟩ := List.mem_iff_getElem?.mp hw
    rw [Workers.transactions_eq hrun i w hi, Worker.flowTransactions, Function.comp_apply,
      List.map_map]
    rfl
  rw [← hsum]
  refine Latest.total_le_sum fun k hk => ?_
  obtain ⟨x, hx, rfl, -, hval⟩ := Latest.latest_spec Sample.time (tally n).count hk
  rw [hval]
  obtain ⟨i, w, hw, hx⟩ := Workers.mem_samples (hseen hx)
  have hrec := Workers.recorded hrun i w hw
  obtain ⟨j, f, hf, hown⟩ := hrec.owner x hx
  refine ⟨f.flow.transactions, ?_, (hrec.flow j f hf x hx hown).1⟩
  refine List.mem_flatMap.mpr ⟨w, List.mem_of_getElem? hw, List.mem_map.mpr
    ⟨f, List.mem_of_getElem? hf, ?_⟩⟩
  show (((w.index : ℤ), f.id), _) = ((x.tid, x.flowId), _)
  rw [hrec.tid x hx, hrec.index, hown]

/-! ## The report -/

/-- The loop of the report, over what the workers have recorded. -/
theorem loopAfter_sees (hrun : Run (Workers.step opts) (Workers.start opts) ls s)
    (hfew : (s.threads.map Worker.transactions).sum < 2 ^ 64)
    (hq : Qsorted s.samples.flatten (first :: rest)) (j : ℕ) :
    ∃ st, loopAfter s.threads first rest j = some st ∧
      st.Sees (tally s.threads.length) (first :: rest.take j)
        ((tally s.threads.length).sums first (rest.take j)) := by
  have hlen : s.samples.length = s.threads.length := List.length_map _
  have hrec := Workers.recordable hrun
  have hex := hrec.exact hq fun seen hseen => (Workers.total_le hrun hseen _).trans_lt hfew
  have hall := Loop.run_take_sees hrec.distinct hq hex (fun x hx => hrec.check hx) j
  rw [hlen] at hall
  exact hall

/-- What is subtracted is no more than what it is subtracted from, at
every iteration. -/
theorem loopAfter_no_wrap (hrun : Run (Workers.step opts) (Workers.start opts) ls s)
    (hfew : (s.threads.map Worker.transactions).sum < 2 ^ 64)
    (hq : Qsorted s.samples.flatten (first :: rest)) (j : ℕ) :
    ∃ st, loopAfter s.threads first rest j = some st ∧ first.transactions ≤ st.currentTotal ∧
      ∀ x, rest[j]? = some x → ∃ old, st.perFlow.read x.tid x.flowId = some old ∧
        old ≤ st.currentTotal := by
  have hlen : s.samples.length = s.threads.length := List.length_map _
  have hrec := Workers.recordable hrun
  obtain ⟨st, hst, hsees⟩ := loopAfter_sees hrun hfew hq j
  have hseen : first :: rest.take j ⊆ s.samples.flatten := fun x hx => by
    refine hq.perm.mem_iff.mp ?_
    rcases List.mem_cons.mp hx with rfl | hx
    · exact List.mem_cons_self
    · exact List.mem_cons_of_mem _ (List.mem_of_mem_take hx)
  refine ⟨st, hst, ?_, fun x hx => ?_⟩
  · have hle := hrec.transactions_le_total hseen List.mem_cons_self
    rw [hlen] at hle
    rw [hsees.total]
    exact hle
  · have hmem : x ∈ s.samples.flatten :=
      hq.perm.mem_iff.mp (List.mem_cons_of_mem _ (List.mem_of_getElem? hx))
    have hin : Grid.InBounds st.perFlow.widths x.tid x.flowId := by
      rw [Loop.widths_run hst]
      exact (hrec.inBounds hmem).2
    refine ⟨_, hsees.cells _ _ hin, ?_⟩
    rw [hsees.total]
    exact Latest.latest_le_total _

/-- There is a report, whatever was recorded. -/
theorem reportStats_isSome (hrun : Run (Workers.step opts) (Workers.start opts) ls s)
    (hfew : (s.threads.map Worker.transactions).sum < 2 ^ 64)
    (hq : Qsorted s.samples.flatten arr) : (reportStats s.threads arr).isSome := by
  match arr with
  | [] => rfl
  | [_] => rfl
  | first :: second :: rest =>
    obtain ⟨st, hst, -⟩ := loopAfter_sees hrun hfew hq (second :: rest).length
    simp only [reportStats, hst]
    rfl

/-- **The report is exact.** Whatever the workers have recorded, every
access of `report_stats` is in bounds, no subtraction wraps, and the work
reported is the sum of the latest counters less the first one. -/
theorem report_stats_exact (hrun : Run (Workers.step opts) (Workers.start opts) ls s)
    (hfew : (s.threads.map Worker.transactions).sum < 2 ^ 64)
    (hq : Qsorted s.samples.flatten arr) :
    (reportStats s.threads arr).isSome ∧
    (∀ x ∈ arr, (0 ≤ x.tid ∧ x.tid < opts.numThreads) ∧
      Grid.InBounds (rowWidths s.samples) x.tid x.flowId) ∧
    ∀ first rest, arr = first :: rest →
      (∀ j ≤ rest.length, ∃ st, loopAfter s.threads first rest j = some st ∧
        first.transactions ≤ st.currentTotal ∧
        ∀ x, rest[j]? = some x → ∃ old, st.perFlow.read x.tid x.flowId = some old ∧
          old ≤ st.currentTotal) ∧
      ∃ st, loopAfter s.threads first rest rest.length = some st ∧
        (sub64 st.currentTotal first.transactions : ℤ) =
          (tally s.threads.length).total s.samples.flatten - first.transactions := by
  have hlen : s.samples.length = s.threads.length := List.length_map _
  have hrec := Workers.recordable hrun
  refine ⟨reportStats_isSome hrun hfew hq, fun x hx => ?_, ?_⟩
  · have hin := hrec.inBounds (hq.perm.mem_iff.mp hx)
    rw [hlen, Workers.length_threads hrun] at hin
    exact hin
  · rintro first rest rfl
    refine ⟨fun j _ => loopAfter_no_wrap hrun hfew hq j, ?_⟩
    obtain ⟨st, hst, hsees⟩ := loopAfter_sees hrun hfew hq rest.length
    have hdist := hrec.distinct
    have hle := hrec.transactions_le_total (fun _ hx => hx) (hq.perm.mem_iff.mp List.mem_cons_self)
    rw [hlen] at hdist hle
    have htotal : st.currentTotal = (tally s.threads.length).total s.samples.flatten := by
      rw [hsees.total, List.take_length, hdist.total_perm hq.perm]
    have hlt := (Workers.total_le hrun (fun _ hx => hx) s.threads.length).trans_lt hfew
    refine ⟨st, hst, ?_⟩
    rw [htotal, sub64_of_le hle hlt]
    exact Nat.cast_sub hle

/-- The samples of the two flows, sorted. -/
theorem qsorted_pair : Qsorted pairEnd.samples.flatten [pairSample₁, pairSample₂] :=
  ⟨.swap _ _ _, by decide⟩

/-- Two flows of one thread, with a sample each. -/
theorem report_stats_exact_pair :
    (reportStats pairEnd.threads [pairSample₁, pairSample₂]).isSome ∧
    (∀ x ∈ [pairSample₁, pairSample₂], (0 ≤ x.tid ∧ x.tid < pairOptions.numThreads) ∧
      Grid.InBounds (rowWidths pairEnd.samples) x.tid x.flowId) ∧
    (∀ j ≤ 1, ∃ st, loopAfter pairEnd.threads pairSample₁ [pairSample₂] j = some st ∧
      pairSample₁.transactions ≤ st.currentTotal ∧
      ∀ x, [pairSample₂][j]? = some x → ∃ old, st.perFlow.read x.tid x.flowId = some old ∧
        old ≤ st.currentTotal) ∧
    ∃ st, loopAfter pairEnd.threads pairSample₁ [pairSample₂] 1 = some st ∧
      (sub64 st.currentTotal pairSample₁.transactions : ℤ) =
        (tally pairEnd.threads.length).total pairEnd.samples.flatten -
          pairSample₁.transactions := by
  obtain ⟨hsome, hin, hloop⟩ := report_stats_exact pair_run (by decide) qsorted_pair
  exact ⟨hsome, hin, hloop pairSample₁ [pairSample₂] rfl⟩

/-! ## The denominators -/

/-- A report whose throughput and correlation coefficient are defined. -/
def Report.Defined : Report → Prop
  | .stats _ _ throughput correlation _ => throughput.isSome ∧ correlation.isSome
  | _ => False

/-- The work after the first iteration is not 0, even where the sum of
the counters is out of range. -/
theorem Recordable.first_work (h : Recordable threads) (hx : first ∈ threads.flatten)
    (hy : x ∈ threads.flatten) (hle : first.time ≤ x.time)
    (hsame : (tally threads.length).key x = (tally threads.length).key first → first.time ≠ x.time)
    (hfirst : first.transactions < 2 ^ 64) (hlong : x.transactions < 2 ^ 64) :
    sub64 (add64 (sub64 first.transactions
      (if (tally threads.length).key x = (tally threads.length).key first then
        first.transactions else 0)) x.transactions) first.transactions ≠ 0 := by
  have hpos := h.pos x hy
  unfold sub64 add64
  by_cases hkey : (tally threads.length).key x = (tally threads.length).key first
  · -- the counters of a flow rise
    have hlt := h.rising first hx x hy hkey.symm (lt_of_le_of_ne hle (hsame hkey))
    rw [if_pos hkey]
    omega
  · rw [if_neg hkey]
    omega

/-- **What is divided by** is not 0 where time has passed. -/
theorem Recordable.denominators_ne_zero (h : Recordable threads)
    (hlong : ∀ x ∈ threads.flatten, x.transactions < 2 ^ 64)
    (hq : Qsorted threads.flatten (first :: x :: rest)) {st : Loop ℕ}
    (hst : Loop.run (tally threads.length) (rowWidths threads) first (x :: rest) = some st)
    (hdur : st.sums.duration ≠ 0) : st.sums.sumXx * st.sums.sumYy ≠ 0 := by
  refine mul_ne_zero ?_ ?_
  · -- the square of the last duration is among those added up
    have hsquare : st.sums.duration ^ 2 ≤ st.sums.sumXx := by
      rw [Loop.run_duration hst, Loop.run_sumXx hst]
      refine List.single_le_sum (fun d hd => ?_) _ (List.mem_map.mpr
        ⟨(first :: x :: rest).getLast (List.cons_ne_nil _ _), ?_, rfl⟩)
      · obtain ⟨y, -, rfl⟩ := List.mem_map.mp hd
        exact sq_nonneg _
      · rw [List.getLast_cons (List.cons_ne_nil _ _)]
        exact List.getLast_mem _
    exact ((sq_pos_of_ne_zero hdur).trans_le hsquare).ne'
  · have hmem : ∀ y ∈ first :: x :: rest, y ∈ threads.flatten := fun y hy =>
      hq.perm.mem_iff.mp hy
    have hx := hmem x (by simp)
    have hfirst := hmem first (by simp)
    have hinc := List.pairwise_cons.mp (h.distinct.increasing hq)
    have hwork := h.first_work hfirst hx (hq.head_le hx)
      (fun hkey => (hinc.1 x (by simp) hkey.symm).ne) (hlong first hfirst) (hlong x hx)
    have hsquare := Loop.run_sumYy hst
    exact ((sq_pos_of_ne_zero (Nat.cast_ne_zero.mpr hwork)).trans_le hsquare).ne'

/-- **When the report is defined.** Of two samples or more, what
`report_stats` divides by is not 0 exactly where the samples are not all
of one instant. -/
theorem denominators_iff (hrun : Run (Workers.step opts) (Workers.start opts) ls s)
    (hlong : ∀ x ∈ s.samples.flatten, x.transactions < 2 ^ 64)
    (hq : Qsorted s.samples.flatten (first :: x :: rest)) :
    ∃ st report, loopAfter s.threads first (x :: rest) (x :: rest).length = some st ∧
      reportStats s.threads (first :: x :: rest) = some report ∧
      ((st.sums.duration ≠ 0 ∧ st.sums.sumXx * st.sums.sumYy ≠ 0) ↔
        ¬ OneInstant s.samples.flatten) ∧
      (report.Defined ↔ ¬ OneInstant s.samples.flatten) := by
  have hlen : s.samples.length = s.threads.length := List.length_map _
  have hrec := Workers.recordable hrun
  obtain ⟨st, hst⟩ := (Loop.run_isSome_iff (tally s.samples.length) (rowWidths s.samples)
    first (x :: rest)).mpr fun y hy => hrec.check (hq.perm.mem_iff.mp hy)
  have hloop : loopAfter s.threads first (x :: rest) (x :: rest).length = some st := by
    unfold loopAfter
    rw [List.take_length, ← hlen]
    exact hst
  -- the sorted samples span the time from the earliest to the latest
  have hdur : st.sums.duration = 0 ↔ OneInstant s.samples.flatten := by
    rw [Loop.run_duration hst, secondsBetween_eq, sub_eq_zero,
      oneInstant_iff (earliest_head hq) (last_getLast hq)]
    rfl
  have hiff : (st.sums.duration ≠ 0 ∧ st.sums.sumXx * st.sums.sumYy ≠ 0) ↔
      ¬ OneInstant s.samples.flatten := by
    rw [← hdur]
    exact ⟨And.left, fun hne => ⟨hne, hrec.denominators_ne_zero hlong hq hst hne⟩⟩
  refine ⟨st, _, hloop, by simp only [reportStats, hloop]; rfl, hiff, ?_⟩
  rw [← hiff]
  simp [Report.Defined, divide]

/-- Two samples of one instant. -/
theorem denominators_iff_pair : ∃ st report,
    loopAfter pairEnd.threads pairSample₁ [pairSample₂] 1 = some st ∧
    reportStats pairEnd.threads [pairSample₁, pairSample₂] = some report ∧
    ((st.sums.duration ≠ 0 ∧ st.sums.sumXx * st.sums.sumYy ≠ 0) ↔
      ¬ OneInstant pairEnd.samples.flatten) ∧
    (report.Defined ↔ ¬ OneInstant pairEnd.samples.flatten) :=
  denominators_iff pair_run (by decide) qsorted_pair

/-- **No time has passed** between the samples of two flows: the report
divides by 0. -/
theorem divides_by_zero : ¬ ∀ (opts : RunOptions) (s : Workers) (ls : List Workers.Label)
    (first second : Sample) (rest : List Sample),
    Run (Workers.step opts) (Workers.start opts) ls s →
    (∀ x ∈ s.samples.flatten, x.transactions < 2 ^ 64) →
    Qsorted s.samples.flatten (first :: second :: rest) →
    ∃ st, loopAfter s.threads first (second :: rest) (second :: rest).length = some st ∧
      st.sums.duration ≠ 0 ∧ st.sums.sumXx * st.sums.sumYy ≠ 0 := by
  intro h
  obtain ⟨st, hst, hdur, -⟩ := h _ _ _ _ _ _ pair_run (by decide) qsorted_pair
  have hzero : (loopAfter pairEnd.threads pairSample₁ [pairSample₂] 1).map
      (fun st => st.sums.duration) = some 0 := by decide +kernel
  have hst : loopAfter pairEnd.threads pairSample₁ [pairSample₂] 1 = some st := hst
  rw [hst] at hzero
  exact hdur (Option.some.inj hzero)

end TcpRr

end Rushit
