import Rushit.Sample.Loop
/-!
# The statistics of the stream workloads

`calculate_stream_stats` of `workload.c`, in exact arithmetic. Its
arguments are the lists of samples of the threads, and the array that
`qsort` made of all of them.

Samples go to row `tid % num_threads`. Where that is the position of the
thread (`OwnIds`) and no two timestamps are equal, the result is a
function of the set of samples (`stream_stats`).
-/

namespace Rushit

namespace Stream

/-- `struct stats` -/
structure Stats where
  numSamples : ℕ
  throughput : ℚ
  correlation : Correlation
  endTime : Timespec
  deriving DecidableEq

def Stats.zero : Stats := ⟨0, 0, ⟨0, 0⟩, .atSecond 0⟩

/-- `collect_samples` up to `qsort`. -/
def collectSamples (threads : List (List Sample)) : List Sample := threads.flatten

/-- Bytes read, in row `tid % num_threads`. -/
def tally (numThreads : ℤ) : Tally ℤ where
  row s := s.tid.tmod numThreads
  count := Sample.bytesRead
  add := (· + ·)
  sub := (· - ·)
  toDouble := Int.cast
  check _ := true

/-- What is reported once the loop has ended. -/
def report (first : Sample) (rest : List Sample) (sums : Sums) : Stats where
  numSamples := (first :: rest).length
  throughput := if sums.duration = 0 ∨ sums.total = 0 then 0 else sums.total / sums.duration
  correlation := if sums.duration = 0 ∨ sums.total = 0 then ⟨0, 0⟩
    else ⟨sums.sumXy, sums.sumXx * sums.sumYy⟩
  endTime := ((first :: rest).getLast (List.cons_ne_nil _ _)).timestamp

/-- **`calculate_stream_stats`**, where `qsort` returned `samples`: no
result where an access to `per_flow` is out of bounds. -/
def calculateStreamStats (threads : List (List Sample)) (samples : List Sample) : Option Stats :=
  match samples with
  | [] => some .zero
  | first :: rest => do
    let st ← Loop.run (tally threads.length) (rowWidths threads) first rest
    return report first rest st.sums

/-- The loop variables of `calculate_stream_stats` after `j` iterations. -/
def loopAfter (threads : List (List Sample)) (first : Sample) (rest : List Sample) (j : ℕ) :
    Option (Loop ℤ) :=
  Loop.run (tally threads.length) (rowWidths threads) first (rest.take j)

/-- **Thread `i` has the identifier `i`**, or there is one thread. -/
def OwnIds (threads : List (List Sample)) : Prop :=
  (∀ (i : ℕ) (samples : List Sample), threads[i]? = some samples → ∀ s ∈ samples, s.tid = i) ∨
    threads.length = 1

/-! ## Rows -/

variable {threads threads' : List (List Sample)} {samples arr arr' rest : List Sample}
variable {first s : Sample} {i : ℕ}

/-- **Own identifiers are positions**: the samples of a thread go to the
row that was allocated for it. -/
theorem OwnIds.row (h : OwnIds threads) (hi : threads[i]? = some samples) (hs : s ∈ samples) :
    (tally threads.length).row s = i := by
  have hlt : i < threads.length := (List.getElem?_eq_some_iff.mp hi).1
  rcases h with hid | hone
  · have htid := hid i samples hi s hs
    show s.tid.tmod threads.length = i
    rw [htid]
    exact Int.tmod_eq_of_lt (by omega) (by exact_mod_cast hlt)
  · have hi0 : i = 0 := by omega
    show s.tid.tmod threads.length = i
    rw [hone, hi0]
    exact Int.tmod_one s.tid

/-- With own identifiers every access is in bounds. -/
theorem OwnIds.inBounds (h : OwnIds threads) (hs : s ∈ collectSamples threads) :
    Grid.InBounds (rowWidths threads) ((tally threads.length).row s) s.flowId := by
  obtain ⟨i, samples, hi, hs⟩ := mem_flatten.mp hs
  rw [h.row hi hs, inBounds_row]
  exact ⟨samples, hi, maxFlowId_le_iff.mp le_rfl s hs⟩

/-! ## The loop -/

theorem distinct_of_nodup {k : ℤ} (h : (samples.map Sample.timestamp).Nodup) :
    (tally k).Distinct samples := by
  have hne : samples.Pairwise fun x y => x.timestamp ≠ y.timestamp := List.pairwise_map.mp h
  refine List.Pairwise.imp ?_ hne
  intro x y hxy _ htime
  exact hxy (Timespec.seconds_injective htime)

/-- Bytes are counted exactly. -/
theorem tally_exact {k : ℤ} (h : (tally k).Increasing arr) : (tally k).Exact arr := by
  refine ⟨?_, ?_⟩
  · rintro pre s ⟨suf, rfl⟩
    rw [List.append_assoc] at h
    have hnext := Latest.total_concat (tally k).count h.newest
    show (tally k).total pre - (tally k).latest pre ((tally k).key s) + (tally k).count s = _
    unfold Tally.total Tally.latest
    omega
  · intro first pre _
    exact Int.cast_sub _ _

/-- **The statistics of sorted samples**, told without the grid. -/
def summary (numThreads : ℤ) : List Sample → Stats
  | [] => .zero
  | first :: rest => report first rest ((tally numThreads).sums first rest)

/-- There is a result exactly where every access is in bounds. -/
theorem calculateStreamStats_isSome_iff (hq : Qsorted (collectSamples threads) arr) :
    (calculateStreamStats threads arr).isSome ↔ ∀ s ∈ collectSamples threads,
      Grid.InBounds (rowWidths threads) ((tally threads.length).row s) s.flowId := by
  have hmem : ∀ s, s ∈ collectSamples threads ↔ s ∈ arr := fun s => hq.perm.mem_iff.symm
  simp only [hmem]
  cases arr with
  | nil => simp [calculateStreamStats]
  | cons first rest =>
    have hrun := Loop.run_isSome_iff (tally threads.length) (rowWidths threads) first rest
    have hcheck : ∀ s, (tally threads.length).check s = true := fun _ => rfl
    simp only [hcheck, true_and] at hrun
    rw [← hrun]
    simp only [calculateStreamStats]
    cases Loop.run (tally threads.length) (rowWidths threads) first rest <;> simp

/-- **`calculate_stream_stats` refines the summary**, where every access
is in bounds. -/
theorem calculateStreamStats_eq (hdist : (tally threads.length).Distinct (collectSamples threads))
    (hq : Qsorted (collectSamples threads) arr)
    (hin : ∀ s ∈ collectSamples threads,
      Grid.InBounds (rowWidths threads) ((tally threads.length).row s) s.flowId) :
    calculateStreamStats threads arr = some (summary threads.length arr) := by
  have hinc := hdist.increasing hq
  cases arr with
  | nil => rfl
  | cons first rest =>
    obtain ⟨st, hst⟩ := (Loop.run_isSome_iff _ _ _ _).mpr fun s hs =>
      ⟨rfl, hin s (hq.perm.mem_iff.mp hs)⟩
    have hsees := Loop.run_sees hinc (tally_exact hinc) hst
    simp only [calculateStreamStats, hst, Option.bind_eq_bind, Option.bind_some, summary,
      hsees.sums]
    rfl

/-- The loop variables at any iteration. -/
theorem loopAfter_sees (hdist : (tally threads.length).Distinct (collectSamples threads))
    (hq : Qsorted (collectSamples threads) (first :: rest))
    (hin : ∀ s ∈ collectSamples threads,
      Grid.InBounds (rowWidths threads) ((tally threads.length).row s) s.flowId) (j : ℕ) :
    ∃ st, loopAfter threads first rest j = some st ∧
      st.Sees (tally threads.length) (first :: rest.take j)
        ((tally threads.length).sums first (rest.take j)) :=
  Loop.run_take_sees hdist hq (tally_exact (hdist.increasing hq)) (fun s hs => ⟨rfl, hin s hs⟩) j

/-- The total at the end of the loop. -/
theorem sums_total (n : ℤ) (first : Sample) (rest : List Sample) :
    ((tally n).sums first rest).total =
      ((tally n).total (first :: rest) - first.bytesRead : ℤ) := by
  rw [Tally.sums_total]
  exact (Int.cast_sub _ _).symm

/-! ## What is reported -/

/-- **What `calculate_stream_stats` makes of the samples** of `threads`,
sorted as `arr`. -/
structure Described (threads : List (List Sample)) (arr : List Sample) (stats : Stats) :
    Prop where
  /-- A flow is told by the position of its thread and its own number. -/
  flows : ∀ (i : ℕ) (samples : List Sample), threads[i]? = some samples →
    ∀ s ∈ samples, (tally threads.length).key s = ((i : ℤ), s.flowId)
  numSamples : stats.numSamples = (threads.map List.length).sum
  endTime : ∀ last, Last (collectSamples threads) last → stats.endTime = last.timestamp
  /-- At every iteration the running total is over the flows seen. -/
  current : ∀ first rest, arr = first :: rest → ∀ j ≤ rest.length, ∃ st,
    loopAfter threads first rest j = some st ∧
    st.currentTotal = (tally threads.length).total (arr.take (j + 1))
  /-- At the end the total is over all flows, less what the earliest
  sample had. -/
  total : ∀ first rest, arr = first :: rest → Earliest (collectSamples threads) first ∧ ∃ st,
    loopAfter threads first rest rest.length = some st ∧ st.sums.total =
      ((tally threads.length).total (collectSamples threads) - first.bytesRead : ℤ)
  throughput : ∀ first last, Earliest (collectSamples threads) first →
    Last (collectSamples threads) last →
    ∀ bytes : ℤ, bytes = (tally threads.length).total (collectSamples threads) - first.bytesRead →
    ∀ duration : ℚ, duration = secondsBetween first.timestamp last.timestamp →
    stats.throughput = if duration = 0 ∨ bytes = 0 then 0 else bytes / duration

/-- With distinct timestamps a sample is known by its instant. -/
theorem eq_of_time_eq (hdist : (samples.map Sample.timestamp).Nodup) {x y : Sample}
    (hx : x ∈ samples) (hy : y ∈ samples) (h : x.time = y.time) : x = y :=
  List.inj_on_of_nodup_map hdist hx hy (Timespec.seconds_injective h)

/-- The first sample is the earliest one, and the last the latest one. -/
theorem head_eq (hdist : ((collectSamples threads).map Sample.timestamp).Nodup)
    (hq : Qsorted (collectSamples threads) (first :: rest)) {x : Sample}
    (hx : Earliest (collectSamples threads) x) : first = x :=
  eq_of_time_eq hdist (earliest_head hq).1 hx.1 ((earliest_head hq).time_eq hx)

theorem getLast_eq (hdist : ((collectSamples threads).map Sample.timestamp).Nodup)
    (hq : Qsorted (collectSamples threads) (first :: rest)) {x : Sample}
    (hx : Last (collectSamples threads) x) :
    (first :: rest).getLast (List.cons_ne_nil _ _) = x :=
  eq_of_time_eq hdist (last_getLast hq).1 hx.1
    (le_antisymm (hx.2 _ (last_getLast hq).1) ((last_getLast hq).2 _ hx.1))

/-- The throughput is that of the work between the earliest sample and
the latest one. -/
theorem summary_throughput (hdist : ((collectSamples threads).map Sample.timestamp).Nodup)
    (hq : Qsorted (collectSamples threads) (first :: rest)) {last : Sample}
    (hlast : Last (collectSamples threads) last) {bytes : ℤ}
    (hbytes : bytes = (tally threads.length).total (collectSamples threads) - first.bytesRead)
    {duration : ℚ} (hduration : duration = secondsBetween first.timestamp last.timestamp) :
    (summary threads.length (first :: rest)).throughput =
      if duration = 0 ∨ bytes = 0 then 0 else bytes / duration := by
  have htotal : ((tally threads.length).sums first rest).total = bytes := by
    rw [sums_total, (distinct_of_nodup hdist).total_perm hq.perm, ← hbytes]
  have hdur : ((tally threads.length).sums first rest).duration = duration := by
    rw [Tally.sums_duration, getLast_eq hdist hq hlast, hduration]
  show (if _ = (0 : ℚ) ∨ _ = (0 : ℚ) then (0 : ℚ) else _ / _) = _
  rw [htotal, hdur]
  simp only [Int.cast_eq_zero]

/-- **The summary is the one described.** -/
theorem described_summary (hids : OwnIds threads)
    (hdist : ((collectSamples threads).map Sample.timestamp).Nodup)
    (hq : Qsorted (collectSamples threads) arr) :
    Described threads arr (summary threads.length arr) := by
  have hflows : (tally threads.length).Distinct (collectSamples threads) :=
    distinct_of_nodup hdist
  have hin : ∀ s ∈ collectSamples threads, _ := fun s hs => hids.inBounds hs
  refine ⟨fun i samples hi s hs => ?_, ?_, fun last hlast => ?_, ?_, ?_,
    fun first last hfirst hlast bytes hbytes duration hduration => ?_⟩
  · show ((tally threads.length).row s, s.flowId) = _
    rw [hids.row hi hs]
  · have hlen : (summary threads.length arr).numSamples = arr.length := by
      cases arr <;> rfl
    rw [hlen, hq.perm.length_eq, collectSamples, List.length_flatten]
  · cases arr with
    | nil => exact absurd (hq.perm.mem_iff.mpr hlast.1) List.not_mem_nil
    | cons first rest => exact congrArg Sample.timestamp (getLast_eq hdist hq hlast)
  · rintro first rest rfl j hj
    obtain ⟨st, hst, hsees⟩ := loopAfter_sees hflows hq hin j
    exact ⟨st, hst, hsees.total⟩
  · rintro first rest rfl
    obtain ⟨st, hst⟩ := loopAfter_sees hflows hq hin rest.length
    have hall := hst.2.sums
    rw [List.take_length] at hall
    refine ⟨earliest_head hq, st, hst.1, ?_⟩
    rw [hall, sums_total, hflows.total_perm hq.perm]
  · cases arr with
    | nil => exact absurd (hq.perm.mem_iff.mpr hfirst.1) List.not_mem_nil
    | cons head rest =>
      obtain rfl := head_eq hdist hq hfirst
      exact summary_throughput hdist hq hlast hbytes hduration

/-- **The statistics of a stream.** Where each thread has its own
identifier and no two samples have one timestamp, the result is the one
described, and it is a function of the samples: neither their order in
the lists nor `qsort` matter. -/
theorem stream_stats (hids : OwnIds threads)
    (hdist : ((collectSamples threads).map Sample.timestamp).Nodup)
    (hq : Qsorted (collectSamples threads) arr) :
    ∃ stats, calculateStreamStats threads arr = some stats ∧ Described threads arr stats ∧
      ∀ threads' arr', OwnIds threads' → threads'.length = threads.length →
        (collectSamples threads').Perm (collectSamples threads) →
        Qsorted (collectSamples threads') arr' →
        calculateStreamStats threads' arr' = some stats := by
  have hflows : (tally threads.length).Distinct (collectSamples threads) :=
    distinct_of_nodup hdist
  refine ⟨summary threads.length arr,
    calculateStreamStats_eq hflows hq fun s hs => hids.inBounds hs,
    described_summary hids hdist hq, fun threads' arr' hids' hlen hperm hq' => ?_⟩
  have hq'' : Qsorted (collectSamples threads) arr' := ⟨hq'.perm.trans hperm, hq'.sorted⟩
  have hflows' : (tally threads'.length).Distinct (collectSamples threads') := by
    rw [hlen]
    exact hflows.perm hperm.symm
  rw [calculateStreamStats_eq hflows' hq' fun s hs => hids'.inBounds hs, hlen,
    hq''.unique hdist hq]

/-- Two threads, of which the first has two flows, with their samples
taken in turn. -/
def turns : List (List Sample) :=
  [[.atSecond 0 0 50 0 4, .atSecond 0 1 5 0 2, .atSecond 0 0 10 0 1],
    [.atSecond 1 0 30 0 5, .atSecond 1 0 20 0 3]]

/-- The samples by time. -/
def turnsSorted : List Sample :=
  [.atSecond 0 0 10 0 1, .atSecond 0 1 5 0 2, .atSecond 1 0 20 0 3, .atSecond 0 0 50 0 4,
    .atSecond 1 0 30 0 5]

theorem ownIds_turns : OwnIds turns := by
  refine .inl fun i samples hi => ?_
  rcases i with _ | _ | i
  · obtain rfl := Option.some.inj hi
    decide
  · obtain rfl := Option.some.inj hi
    decide
  · cases hi

theorem qsorted_turns : Qsorted (collectSamples turns) turnsSorted :=
  ⟨.trans (.cons _ (.cons _ (.swap _ _ _))) ((List.reverse_perm [_, _, _]).append (.swap _ _ _)),
    by decide⟩

theorem stream_stats_turns : ∃ stats, calculateStreamStats turns turnsSorted = some stats ∧
    Described turns turnsSorted stats := by
  obtain ⟨stats, hstats, hd, -⟩ := stream_stats ownIds_turns (by decide) qsorted_turns
  exact ⟨stats, hstats, hd⟩

end Stream

end Rushit
