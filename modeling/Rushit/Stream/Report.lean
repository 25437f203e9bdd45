import Mathlib.Algebra.BigOperators.Fin
import Rushit.Common.Related
import Rushit.Stream.Correlation
import Rushit.Stream.Recording
/-!
# The report of the stream workloads

`report_stream_stats` computes the statistics of all samples, and with
`calculate_stream_stats_per_thread` those of each thread alone. What the
workers record (`Recordable`) keeps every access to `per_flow` in bounds,
the throughput from being negative and the correlation coefficient in
`[0, 1]`, in either (`stream_report`), and the two agree: samples and
bytes of the threads add up to those of the whole (`report_adds_up`).
All of it is in exact arithmetic, where the source has doubles.
-/

namespace Rushit

namespace Stream

open Loop

/-- `calculate_stream_stats_per_thread`, where `qsort` returned `arrs`
for the threads. -/
def calculateStreamStatsPerThread (threads arrs : List (List Sample)) : Option (List Stats) :=
  (threads.zip arrs).mapM fun p => calculateStreamStats [p.1] p.2

/-- The `current_total` that the loop ends with, which is 0 where there
is no sample. -/
def finalTotal (threads : List (List Sample)) : List Sample → Option ℤ
  | [] => some 0
  | first :: rest => (loopAfter threads first rest rest.length).map Loop.currentTotal

/-- The same for each thread alone. -/
def finalTotalPerThread (threads arrs : List (List Sample)) : Option (List ℤ) :=
  (threads.zip arrs).mapM fun p => finalTotal [p.1] p.2

/-- **What the workers can record**: the thread at `i` has the identifier
`i`, and along a flow time and bytes rise. -/
structure Recordable (threads : List (List Sample)) : Prop where
  ids : OwnIds threads
  nonneg : ∀ samples ∈ threads, ∀ x ∈ samples, 0 ≤ x.bytesRead
  distinct : ∀ samples ∈ threads, samples.Pairwise fun x y => x.flowId = y.flowId → x.time ≠ y.time
  rising : ∀ samples ∈ threads, ∀ x ∈ samples, ∀ y ∈ samples, x.flowId = y.flowId →
    x.time ≤ y.time → x.bytesRead ≤ y.bytesRead

variable {opts : RunOptions} {s : Workers} {ls : List Workers.Label}
variable {threads arrs : List (List Sample)} {samples arr rest : List Sample} {first x y : Sample}
variable {stats : Stats} {i j : ℕ} {st : Loop ℤ}

/-! ## What is recorded -/

/-- Of two samples of a flow the later one has no less. -/
theorem Recorded.bytesRead_le {w : TcpRr.Worker} (h : Recorded opts i w) (hx : x ∈ w.samples)
    (hy : y ∈ w.samples) (hflow : x.flowId = y.flowId) (htime : x.time ≤ y.time) :
    x.bytesRead ≤ y.bytesRead := by
  have hpair := List.pairwise_iff_getElem.mp h.rising
  obtain ⟨a, ha, rfl⟩ := List.mem_iff_getElem.mp hx
  obtain ⟨b, hb, rfl⟩ := List.mem_iff_getElem.mp hy
  rcases lt_trichotomy a b with hab | rfl | hab
  · exact absurd (hpair a b ha hb hab hflow.symm).1 htime.not_gt
  · exact le_rfl
  · exact (hpair b a hb ha hab hflow).2.1

theorem Workers.getElem?_samples (h : s.samples[i]? = some samples) :
    ∃ th, s.threads[i]? = some th ∧ th.worker.samples = samples := by
  unfold Workers.samples at h
  rw [List.getElem?_map] at h
  exact Option.map_eq_some_iff.mp h

/-- **What the workers record can be recorded.** -/
theorem Workers.recordable (hrun : Run (Workers.step opts) (Workers.start opts) ls s) :
    Recordable s.samples := by
  have hinv := Workers.Inv.of_run hrun
  have hrec : ∀ samples ∈ s.samples, ∃ i w, Recorded opts i w ∧ w.samples = samples := by
    intro samples hmem
    obtain ⟨i, hi⟩ := List.mem_iff_getElem?.mp hmem
    obtain ⟨th, hth, hw⟩ := Workers.getElem?_samples hi
    exact ⟨i, th.worker, (hinv.threads i th hth).1, hw⟩
  refine ⟨.inl fun i samples hi x hx => ?_, fun samples hs x hx => ?_, fun samples hs => ?_,
    fun samples hs x hx y hy => ?_⟩
  · obtain ⟨th, hth, rfl⟩ := Workers.getElem?_samples hi
    exact (hinv.threads i th hth).1.tid x hx
  · obtain ⟨i, w, hw, rfl⟩ := hrec samples hs
    obtain ⟨f, -, hnonneg, -⟩ := hw.owner x hx
    exact hnonneg
  · obtain ⟨i, w, hw, rfl⟩ := hrec samples hs
    exact hw.rising.imp fun hxy hflow => (hxy hflow.symm).1.ne'
  · obtain ⟨i, w, hw, rfl⟩ := hrec samples hs
    exact hw.bytesRead_le hx hy

namespace Recordable

/-- A thread alone. -/
theorem single (h : Recordable threads) (hs : samples ∈ threads) : Recordable [samples] where
  ids := .inr rfl
  nonneg _ hmem := by
    rw [List.mem_singleton.mp hmem]
    exact h.nonneg samples hs
  distinct _ hmem := by
    rw [List.mem_singleton.mp hmem]
    exact h.distinct samples hs
  rising _ hmem := by
    rw [List.mem_singleton.mp hmem]
    exact h.rising samples hs

/-- The flow of a sample is told by the position of its thread. -/
theorem key_eq (h : Recordable threads) (hi : threads[i]? = some samples) (hx : x ∈ samples) :
    (tally threads.length).key x = ((i : ℤ), x.flowId) := by
  rw [Tally.key, h.ids.row hi hx]

/-- Threads share no flow. -/
theorem keys_ne (h : Recordable threads) : threads.Pairwise fun xs ys => ∀ x ∈ xs, ∀ y ∈ ys,
    (tally threads.length).key x ≠ (tally threads.length).key y := by
  rw [List.pairwise_iff_getElem]
  intro i j hi hj hij x hx y hy heq
  rw [h.key_eq (List.getElem?_eq_getElem hi) hx, h.key_eq (List.getElem?_eq_getElem hj) hy] at heq
  have hrow := congrArg Prod.fst heq
  omega

/-- No flow has two samples of one instant. -/
theorem distinct_tally (h : Recordable threads) :
    (tally threads.length).Distinct (collectSamples threads) := by
  refine List.pairwise_flatten.mpr ⟨fun samples hs => ?_, ?_⟩
  · exact (h.distinct samples hs).imp fun hxy hkey => hxy (congrArg Prod.snd hkey)
  · exact h.keys_ne.imp fun hne x hx y hy hkey => absurd hkey (hne x hx y hy)

/-- Samples of one flow are of one thread. -/
theorem bytesRead_le (h : Recordable threads) (hx : x ∈ collectSamples threads)
    (hy : y ∈ collectSamples threads)
    (hkey : (tally threads.length).key x = (tally threads.length).key y)
    (htime : x.time ≤ y.time) : x.bytesRead ≤ y.bytesRead := by
  obtain ⟨i, xs, hi, hx⟩ := mem_flatten.mp hx
  obtain ⟨j, ys, hj, hy⟩ := mem_flatten.mp hy
  rw [h.key_eq hi hx, h.key_eq hj hy] at hkey
  obtain ⟨hrow, hflow⟩ := Prod.mk.inj hkey
  obtain rfl : i = j := by exact_mod_cast hrow
  obtain rfl := Option.some.inj (hi.symm.trans hj)
  exact h.rising xs (List.mem_of_getElem? hi) x hx y hy hflow htime

/-- **Sorted, the counters grow.** -/
theorem growing (h : Recordable threads) (hq : Qsorted (collectSamples threads) arr) :
    Growing threads.length arr where
  nonneg x hx := by
    obtain ⟨samples, hs, hx⟩ := List.mem_flatten.mp (hq.perm.mem_iff.mp hx)
    exact h.nonneg samples hs x hx
  mono := by
    refine (List.pairwise_iff_forall_sublist.mpr fun {x y} hxy => ⟨?_, ?_⟩).imp
      (R := fun x y => (x ∈ arr ∧ y ∈ arr) ∧ x.time ≤ y.time)
      fun {x y} hxy hkey => h.bytesRead_le (hq.perm.mem_iff.mp hxy.1.1)
        (hq.perm.mem_iff.mp hxy.1.2) hkey hxy.2
    · exact ⟨hxy.subset (by simp), hxy.subset (by simp)⟩
    · exact List.pairwise_iff_forall_sublist.mp hq.times hxy

end Recordable

/-! ## The statistics -/

/-- What can be reported: nothing of it is negative, and the coefficient
is no more than 1. -/
structure Sound (stats : Stats) : Prop where
  throughput : 0 ≤ stats.throughput
  correlation_nonneg : 0 ≤ stats.correlation.value
  correlation_le_one : stats.correlation.value ≤ 1

/-- Where no counter decreases, the bytes in the end are no less than at
the start. -/
theorem sums_total_nonneg {n : ℤ} {ws : List ℕ} (hgrow : Growing n (first :: rest))
    (h : Loop.run (tally n) ws first rest = some st) : 0 ≤ st.sums.total := by
  obtain ⟨st₀, hstart, hfold⟩ := run_eq_some h
  obtain ⟨hcells, htotal⟩ := start_cells hstart
  obtain ⟨hfirst, hrest⟩ := List.pairwise_cons.mp hgrow.mono
  rcases foldlM_last hfold with ⟨-, rfl⟩ | hmem
  · rw [(start_eq_some hstart).2.2.2]
    exact le_rfl
  · refine points_nonneg hcells (fun x hx => ?_) hrest htotal.ge _ hmem
    by_cases hkey : (tally n).key x = (tally n).key first
    · rw [hkey, Function.update_self]
      exact hfirst x hx hkey.symm
    · rw [Function.update_of_ne hkey]
      exact hgrow.nonneg x (List.mem_cons_of_mem _ hx)

/-- The throughput is not negative. -/
theorem report_throughput_nonneg
    (hsorted : (first :: rest).Pairwise fun x y => compareSamples x y ≤ 0)
    (hgrow : Growing threads.length (first :: rest))
    (h : Loop.run (tally threads.length) (rowWidths threads) first rest = some st) :
    0 ≤ (report first rest st.sums).throughput := by
  have hdur : 0 ≤ st.sums.duration := by
    rw [run_duration h]
    exact secondsBetween_nonneg hsorted (List.getLast_mem _)
  show 0 ≤ if st.sums.duration = 0 ∨ st.sums.total = 0 then 0 else _
  split_ifs
  · exact le_rfl
  · exact div_nonneg (sums_total_nonneg hgrow h) hdur

namespace Recordable

/-- **There is a result, and it is sound.** -/
theorem sound (h : Recordable threads) (hq : Qsorted (collectSamples threads) arr) :
    ∃ stats, calculateStreamStats threads arr = some stats ∧ Sound stats ∧
      stats.numSamples = (collectSamples threads).length := by
  obtain ⟨stats, hstats⟩ := Option.isSome_iff_exists.mp
    ((calculateStreamStats_isSome_iff hq).mpr fun x hx => h.ids.inBounds hx)
  refine ⟨stats, hstats, ?_, ?_⟩
  · cases arr with
    | nil =>
      obtain rfl : Stats.zero = stats := Option.some.inj hstats
      refine ⟨le_rfl, ?_, ?_⟩
      · rw [value_zero]
      · rw [value_zero]
        exact zero_le_one
    | cons first rest =>
      obtain ⟨st, hrun, rfl⟩ := calculateStreamStats_cons hstats
      have hgrow := h.growing hq
      exact ⟨report_throughput_nonneg hq.sorted hgrow hrun,
        report_value_nonneg (sumXy_nonneg hq.sorted hgrow hrun),
        (abs_le.mp (abs_report_le (sumXy_le hrun))).2⟩
  · rw [← hq.perm.length_eq]
    cases arr with
    | nil =>
      obtain rfl : Stats.zero = stats := Option.some.inj hstats
      rfl
    | cons first rest =>
      obtain ⟨st, -, rfl⟩ := calculateStreamStats_cons hstats
      rfl

/-- The running total ends with the sum over the flows. -/
theorem finalTotal_eq (h : Recordable threads) (hq : Qsorted (collectSamples threads) arr) :
    finalTotal threads arr = some ((tally threads.length).total (collectSamples threads)) := by
  cases arr with
  | nil =>
    rw [List.perm_nil.mp hq.perm.symm]
    rfl
  | cons first rest =>
    obtain ⟨st, hst, hsees⟩ := loopAfter_sees h.distinct_tally hq (fun x hx => h.ids.inBounds hx)
      rest.length
    rw [List.take_length] at hsees
    rw [finalTotal, hst, Option.map_some, hsees.total, h.distinct_tally.total_perm hq.perm]

/-- A thread alone ends with the same total. -/
theorem finalTotal_single (h : Recordable threads) (hi : threads[i]? = some samples)
    (hq : Qsorted samples arr) :
    finalTotal [samples] arr = some ((tally threads.length).total samples) := by
  have hone := h.single (List.mem_of_getElem? hi)
  have hcollect : collectSamples [samples] = samples := List.append_nil samples
  have hone' : [samples][0]? = some samples := rfl
  rw [hone.finalTotal_eq (by rw [hcollect]; exact hq), hcollect]
  refine congrArg some (Latest.total_rename (φ := fun k => (0, k.2)) (fun x hx => ?_) ?_)
  · rw [h.key_eq hi hx]
    exact hone.key_eq hone' hx
  · -- the row is the same for all
    intro k hk k' hk' heq
    obtain ⟨x, hx, rfl⟩ := Latest.mem_keys.mp hk
    obtain ⟨y, hy, rfl⟩ := Latest.mem_keys.mp hk'
    simp only [h.key_eq hi hx, h.key_eq hi hy, Prod.mk.injEq, true_and] at heq ⊢
    exact heq

/-- **The totals of the threads add up.** -/
theorem total_eq_sum (h : Recordable threads) :
    (tally threads.length).total (collectSamples threads) =
      (threads.map (tally threads.length).total).sum :=
  Latest.total_flatten h.keys_ne

end Recordable

/-! ## All threads, and each -/

/-- The end is the instant of any last sample. -/
theorem endTime_eq (hq : Qsorted (collectSamples threads) arr)
    (h : calculateStreamStats threads arr = some stats) (hx : Last (collectSamples threads) x) :
    stats.endTime = x.timestamp := by
  cases arr with
  | nil => exact absurd (hq.perm.mem_iff.mpr hx.1) List.not_mem_nil
  | cons first rest =>
    obtain ⟨st, -, rfl⟩ := calculateStreamStats_cons h
    have hlast := last_getLast hq
    exact Timespec.seconds_injective (le_antisymm (hx.2 _ hlast.1) (hlast.2 _ hx.1))

/-- Some sample is a last one, where there are samples. -/
theorem exists_last (hx : x ∈ samples) : ∃ y, Last samples y := by
  obtain ⟨arr, hq⟩ := exists_qsorted samples
  cases arr with
  | nil => exact absurd (hq.perm.mem_iff.mpr hx) List.not_mem_nil
  | cons first rest => exact ⟨_, last_getLast hq⟩

/-- What is reported of a thread alone. -/
structure OfThread (samples : List Sample) (st : Stats) : Prop where
  sound : Sound st
  numSamples : st.numSamples = samples.length
  endTime : ∀ x, Last samples x → st.endTime = x.timestamp

/-- **The statistics of each thread.** -/
theorem Recordable.perThread (h : Recordable threads) (hqs : List.Forall₂ Qsorted threads arrs) :
    ∃ per, calculateStreamStatsPerThread threads arrs = some per ∧
      List.Forall₂ OfThread threads per := by
  have hone : ∀ p ∈ threads.zip arrs, ∃ st, calculateStreamStats [p.1] p.2 = some st ∧
      OfThread p.1 st := by
    intro p hp
    have hcollect : collectSamples [p.1] = p.1 := List.append_nil p.1
    have hq : Qsorted (collectSamples [p.1]) p.2 := by
      rw [hcollect]
      exact (List.forall₂_iff_zip.mp hqs).2 hp
    obtain ⟨st, hst, hsound, hnum⟩ := (h.single (List.of_mem_zip hp).1).sound hq
    rw [hcollect] at hnum
    exact ⟨st, hst, hsound, hnum, fun x hx => endTime_eq hq hst (by rw [hcollect]; exact hx)⟩
  obtain ⟨per, hper, hall⟩ := exists_mapM hone
  exact ⟨per, hper, forall₂_of_zip hqs.length_eq hall⟩

/-- **The report is sound**, in exact arithmetic. In every run of the
workers of a stream workload, whatever arrays `qsort` returns, no access of
`calculate_stream_stats` is out of bounds, neither for all threads nor
for one alone; no throughput it computes is negative, and every
correlation coefficient is in `[0, 1]`. -/
theorem stream_report (hrun : Run (Workers.step opts) (Workers.start opts) ls s)
    (hq : Qsorted (collectSamples s.samples) arr) (hqs : List.Forall₂ Qsorted s.samples arrs) :
    ∃ stats per, calculateStreamStats s.samples arr = some stats ∧
      calculateStreamStatsPerThread s.samples arrs = some per ∧ per.length = opts.numThreads ∧
      Sound stats ∧ ∀ st ∈ per, Sound st := by
  have hrec := Workers.recordable hrun
  obtain ⟨stats, hstats, hsound, -⟩ := hrec.sound hq
  obtain ⟨per, hper, hall⟩ := hrec.perThread hqs
  have hlen : s.samples.length = opts.numThreads := by
    rw [Workers.samples, List.length_map]
    exact (Workers.Inv.of_run hrun).length
  refine ⟨stats, per, hstats, hper, hall.length_eq.symm.trans hlen, hsound, fun st hst => ?_⟩
  obtain ⟨samples, -, h⟩ := forall₂_mem_right hall hst
  exact h.sound

/-- The samples of two flows by time, two of each instant. -/
def readerArr : List Sample :=
  [.atSecond 0 0 8 2 2, .atSecond 1 0 4 1 2, .atSecond 1 0 6 2 3, .atSecond 0 0 12 3 3]

/-- What `qsort` returns for each thread. -/
def readerArrs : List (List Sample) :=
  [[.atSecond 0 0 8 2 2, .atSecond 0 0 12 3 3], [.atSecond 1 0 4 1 2, .atSecond 1 0 6 2 3]]

theorem qsorted_reader : Qsorted (collectSamples readersEnd.samples) readerArr :=
  ⟨(List.perm_append_singleton _ [_, _, _]).trans (.cons _ (.cons _ (.swap _ _ _))), by decide⟩

theorem qsorted_reader_thread : List.Forall₂ Qsorted readersEnd.samples readerArrs :=
  .cons ⟨.swap _ _ _, by decide⟩ (.cons ⟨.swap _ _ _, by decide⟩ .nil)

theorem stream_report_reader : ∃ stats per,
    calculateStreamStats readersEnd.samples readerArr = some stats ∧
      calculateStreamStatsPerThread readersEnd.samples readerArrs = some per ∧
      per.length = readersOptions.numThreads ∧ Sound stats ∧ ∀ st ∈ per, Sound st :=
  stream_report readers_run qsorted_reader qsorted_reader_thread

/-- The bytes that the flows of a thread have read. -/
def Thread.bytesRead (th : Thread) : ℤ := (th.worker.flows.map fun f => f.flow.bytesRead).sum

/-- The bytes of the flow at `j`. -/
def Thread.bytesAt (th : Thread) (j : ℕ) : ℤ :=
  (th.worker.flows[j]?.map fun f => f.flow.bytesRead).getD 0

theorem Thread.bytesRead_eq (th : Thread) :
    th.bytesRead = ∑ j ∈ Finset.range th.worker.flows.length, th.bytesAt j := by
  rw [Thread.bytesRead, ← Fin.sum_univ_fun_getElem, Finset.sum_range]
  refine Finset.sum_congr rfl fun j _ => ?_
  rw [Thread.bytesAt, List.getElem?_eq_getElem j.isLt]
  rfl

/-- **What is counted was read.** -/
theorem Recorded.total_le {th : Thread} {n : ℤ} (h : Recorded opts i th.worker)
    (hkey : ∀ x ∈ th.worker.samples, (tally n).key x = ((i : ℤ), x.flowId)) :
    (tally n).total th.worker.samples ≤ th.bytesRead := by
  have hrename : (tally n).total th.worker.samples =
      Latest.total Sample.flowId Sample.time Sample.bytesRead th.worker.samples :=
    Latest.total_rename (φ := fun j => ((i : ℤ), j)) hkey
      fun j _ j' _ heq => congrArg Prod.snd heq
  rw [hrename, th.bytesRead_eq]
  refine Latest.total_le_sum_of_subset (fun j hj => ?_) (fun j hj => ?_) fun j hj => ?_
  · obtain ⟨x, hx, rfl⟩ := Latest.mem_keys.mp hj
    obtain ⟨f, hf, -⟩ := h.owner x hx
    exact Finset.mem_range.mpr (List.getElem?_eq_some_iff.mp hf).1
  · -- the latest sample of a flow has no more than the flow
    obtain ⟨x, hx, rfl, -, heq⟩ := Latest.latest_spec Sample.time Sample.bytesRead hj
    obtain ⟨f, hf, -, hle, -⟩ := h.owner x hx
    rw [heq, Thread.bytesAt, hf]
    exact hle
  · obtain ⟨f, hf⟩ : ∃ f, th.worker.flows[j]? = some f :=
      ⟨_, List.getElem?_eq_getElem (Finset.mem_range.mp hj)⟩
    rw [Thread.bytesAt, hf]
    exact (h.nonneg f (List.mem_of_getElem? hf)).1

/-- The final totals of the threads. -/
theorem Recordable.totals (h : Recordable threads) (hqs : List.Forall₂ Qsorted threads arrs) :
    finalTotalPerThread threads arrs = some (threads.map (tally threads.length).total) := by
  have hone : ∀ p ∈ threads.zip arrs, ∃ total, finalTotal [p.1] p.2 = some total ∧
      (tally threads.length).total p.1 = total := by
    intro p hp
    obtain ⟨i, hi⟩ := List.mem_iff_getElem?.mp (List.of_mem_zip hp).1
    exact ⟨_, h.finalTotal_single hi ((List.forall₂_iff_zip.mp hqs).2 hp), rfl⟩
  obtain ⟨totals, htotals, hall⟩ := exists_mapM hone
  have heq : List.Forall₂ (fun xs total => (tally threads.length).total xs = total)
      threads totals :=
    forall₂_of_zip hqs.length_eq hall
  rw [← List.forall₂_map_left_iff (R := Eq), List.forall₂_eq_eq_eq] at heq
  rw [heq]
  exact htotals

/-- The ends of the threads, and that of the whole. -/
theorem Recordable.endTime (hq : Qsorted (collectSamples threads) arr)
    (hstats : calculateStreamStats threads arr = some stats) {per : List Stats}
    (hall : List.Forall₂ OfThread threads per)
    (hnum : stats.numSamples = (collectSamples threads).length) :
    (∀ st ∈ per, st.numSamples ≠ 0 → st.endTime.seconds ≤ stats.endTime.seconds) ∧
    (stats.numSamples ≠ 0 → ∃ st ∈ per, st.numSamples ≠ 0 ∧ st.endTime = stats.endTime) := by
  refine ⟨fun st hst hne => ?_, fun hne => ?_⟩
  · obtain ⟨samples, hs, hst⟩ := forall₂_mem_right hall hst
    rw [hst.numSamples] at hne
    obtain ⟨x, hx⟩ := List.exists_mem_of_length_pos (Nat.pos_of_ne_zero hne)
    obtain ⟨y, hy⟩ := exists_last hx
    obtain ⟨z, hz⟩ := exists_last (List.mem_flatten.mpr ⟨samples, hs, hx⟩)
    rw [hst.endTime y hy, endTime_eq hq hstats hz]
    exact hz.2 y (List.mem_flatten.mpr ⟨samples, hs, hy.1⟩)
  · rw [hnum] at hne
    obtain ⟨x, hx⟩ := List.exists_mem_of_length_pos (Nat.pos_of_ne_zero hne)
    obtain ⟨z, hz⟩ := exists_last hx
    obtain ⟨samples, hs, hzs⟩ := List.mem_flatten.mp hz.1
    -- the last of all is the last of its thread
    have hlast : Last samples z :=
      ⟨hzs, fun y hy => hz.2 y (List.mem_flatten.mpr ⟨samples, hs, hy⟩)⟩
    obtain ⟨st, hst, hof⟩ := forall₂_mem_left hall hs
    refine ⟨st, hst, ?_, (hof.endTime z hlast).trans (endTime_eq hq hstats hz).symm⟩
    rw [hof.numSamples]
    exact (List.length_pos_of_mem hzs).ne'

/-- **The parts add up.** In every run the samples, and the bytes that
the running total ends with, are over all threads the sum of what they
are for each thread alone; no thread has more bytes than its flows have
read; and the end of the whole is the latest end of a thread. -/
theorem report_adds_up (hrun : Run (Workers.step opts) (Workers.start opts) ls s)
    (hq : Qsorted (collectSamples s.samples) arr) (hqs : List.Forall₂ Qsorted s.samples arrs) :
    ∃ stats per total totals, calculateStreamStats s.samples arr = some stats ∧
      calculateStreamStatsPerThread s.samples arrs = some per ∧
      finalTotal s.samples arr = some total ∧
      finalTotalPerThread s.samples arrs = some totals ∧
      stats.numSamples = (per.map Stats.numSamples).sum ∧ total = totals.sum ∧
      List.Forall₂ (fun th total => total ≤ th.bytesRead) s.threads totals ∧
      (∀ st ∈ per, st.numSamples ≠ 0 → st.endTime.seconds ≤ stats.endTime.seconds) ∧
      (stats.numSamples ≠ 0 → ∃ st ∈ per, st.numSamples ≠ 0 ∧ st.endTime = stats.endTime) := by
  have hrec := Workers.recordable hrun
  obtain ⟨stats, hstats, -, hnum⟩ := hrec.sound hq
  obtain ⟨per, hper, hall⟩ := hrec.perThread hqs
  refine ⟨stats, per, _, _, hstats, hper, hrec.finalTotal_eq hq, hrec.totals hqs, ?_,
    hrec.total_eq_sum, ?_, Recordable.endTime hq hstats hall hnum⟩
  · have hlens : per.map Stats.numSamples = s.samples.map List.length := by
      have heq : List.Forall₂ (fun samples st => samples.length = Stats.numSamples st)
          s.samples per := hall.imp fun _ _ h => h.numSamples.symm
      rw [← List.forall₂_map_right_iff (R := fun samples m => List.length samples = m),
        ← List.forall₂_map_left_iff (R := Eq), List.forall₂_eq_eq_eq] at heq
      exact heq.symm
    rw [hlens, hnum, collectSamples, List.length_flatten]
  · rw [List.forall₂_map_right_iff, Workers.samples, List.forall₂_map_right_iff,
      List.forall₂_same]
    intro th hth
    obtain ⟨i, hi⟩ := List.mem_iff_getElem?.mp hth
    refine ((Workers.Inv.of_run hrun).threads i th hi).1.total_le fun x hx => ?_
    have hsamples : s.samples[i]? = some th.worker.samples := by
      rw [Workers.samples, List.getElem?_map, hi]
      rfl
    exact hrec.key_eq hsamples hx

theorem report_adds_up_reader : ∃ stats per total totals,
    calculateStreamStats readersEnd.samples readerArr = some stats ∧
      calculateStreamStatsPerThread readersEnd.samples readerArrs = some per ∧
      finalTotal readersEnd.samples readerArr = some total ∧
      finalTotalPerThread readersEnd.samples readerArrs = some totals ∧
      stats.numSamples = (per.map Stats.numSamples).sum ∧ total = totals.sum ∧
      List.Forall₂ (fun th total => total ≤ th.bytesRead) readersEnd.threads totals ∧
      (∀ st ∈ per, st.numSamples ≠ 0 → st.endTime.seconds ≤ stats.endTime.seconds) ∧
      (stats.numSamples ≠ 0 → ∃ st ∈ per, st.numSamples ≠ 0 ∧ st.endTime = stats.endTime) :=
  report_adds_up readers_run qsorted_reader qsorted_reader_thread

end Stream

end Rushit
