import Rushit.Common.Fold
import Rushit.Common.Latest
import Rushit.Common.Grid
import Rushit.Sample.Model
/-!
# The loop over the sorted samples

`calculate_stream_stats` and `report_stats` go over the sorted samples
in the same way: a grid keeps the last counter of each flow, and a
running total of the cells is kept by subtracting the counter that a
sample replaces and adding its own. What differs is a `Tally`: the row a
sample goes to, the counter it is read for, the arithmetic on that
counter, and whether the row is asserted to be there.

The loop refines `sums`, which says what is accumulated without a grid:
as long as the arithmetic is exact (`Tally.Exact`), the running total is
the `Latest.total` of the samples seen (`Loop.run_sees`).
-/

namespace Rushit

/-- What the loop accumulates from the durations and the totals. -/
structure Sums where
  duration : ℚ
  total : ℚ
  sumXy : ℚ
  sumXx : ℚ
  sumYy : ℚ
  deriving DecidableEq

def Sums.zero : Sums := ⟨0, 0, 0, 0, 0⟩

/-- The sums after one more sample. -/
def Sums.add (sums : Sums) (duration total : ℚ) : Sums where
  duration := duration
  total := total
  sumXy := sums.sumXy + duration * total
  sumXx := sums.sumXx + duration * duration
  sumYy := sums.sumYy + total * total

/-- A correlation coefficient `num / sqrt(sq)`, kept as a pair so that it
can be computed. -/
structure Correlation where
  num : ℚ
  sq : ℚ
  deriving DecidableEq

/-- How a report counts. -/
structure Tally (M : Type) where
  row : Sample → ℤ
  count : Sample → M
  add : M → M → M
  sub : M → M → M
  toDouble : M → ℚ
  /-- The assertion on the row, where there is one. -/
  check : Sample → Bool

/-- The cell of a sample. -/
def Tally.key {M : Type} (T : Tally M) (s : Sample) : ℤ × ℕ := (T.row s, s.flowId)

/-- The variables of the loop. -/
structure Loop (M : Type) where
  perFlow : Grid M
  currentTotal : M
  sums : Sums

/-- `max_flow_id`, from 0 on. -/
def maxFlowId (samples : List Sample) : ℕ :=
  samples.foldl (fun maxFlowId p => if p.flowId > maxFlowId then p.flowId else maxFlowId) 0

/-- How the rows are allocated, one for each thread. -/
def rowWidths (threads : List (List Sample)) : List ℕ :=
  threads.map fun samples => maxFlowId samples + 1

namespace Loop

variable {M : Type}

/-- The loop variables before the first iteration: the first sample has
been entered into a grid of zeros. -/
def start [Zero M] (T : Tally M) (ws : List ℕ) (first : Sample) : Option (Loop M) := do
  guard (T.check first)
  let perFlow ← (Grid.filled 0 ws).write (T.row first) first.flowId (T.count first)
  return ⟨perFlow, T.count first, .zero⟩

/-- The loop body. -/
def next (T : Tally M) (first : Sample) (st : Loop M) (s : Sample) : Option (Loop M) := do
  guard (T.check s)
  let old ← st.perFlow.read (T.row s) s.flowId
  let currentTotal := T.sub st.currentTotal old
  let perFlow ← st.perFlow.write (T.row s) s.flowId (T.count s)
  let new ← perFlow.read (T.row s) s.flowId
  let currentTotal := T.add currentTotal new
  let duration := secondsBetween first.timestamp s.timestamp
  let total := T.toDouble (T.sub currentTotal (T.count first))
  return ⟨perFlow, currentTotal, st.sums.add duration total⟩

/-- The loop: no result where an access is out of bounds or an assertion
fails. -/
def run [Zero M] (T : Tally M) (ws : List ℕ) (first : Sample) (rest : List Sample) :
    Option (Loop M) := do
  rest.foldlM (next T first) (← start T ws first)

end Loop

/-! ## Rows -/

/-- The rows are wide enough for what they are allocated for. -/
theorem maxFlowId_le_iff {samples : List Sample} {m : ℕ} :
    maxFlowId samples ≤ m ↔ ∀ s ∈ samples, s.flowId ≤ m := by
  have key : ∀ k, samples.foldl (fun k p => if p.flowId > k then p.flowId else k) k ≤ m ↔
      k ≤ m ∧ ∀ s ∈ samples, s.flowId ≤ m := by
    induction samples with
    | nil => simp
    | cons p samples ih =>
      intro k
      rw [List.foldl_cons, ih, List.forall_mem_cons, ← and_assoc]
      refine and_congr_left fun _ => ?_
      split <;> omega
  have h := key 0
  simpa [maxFlowId] using h

/-- The samples of all threads. -/
theorem mem_flatten {threads : List (List Sample)} {s : Sample} : s ∈ threads.flatten ↔
    ∃ (i : ℕ) (samples : List Sample), threads[i]? = some samples ∧ s ∈ samples := by
  rw [List.mem_flatten]
  constructor
  · rintro ⟨samples, hmem, hs⟩
    obtain ⟨i, hi⟩ := List.mem_iff_getElem?.mp hmem
    exact ⟨i, samples, hi, hs⟩
  · rintro ⟨i, samples, hi, hs⟩
    exact ⟨samples, List.mem_of_getElem? hi, hs⟩

/-- The width of a row. -/
theorem inBounds_row {threads : List (List Sample)} {i f : ℕ} :
    Grid.InBounds (rowWidths threads) (i : ℤ) f ↔
    ∃ samples, threads[i]? = some samples ∧ f ≤ maxFlowId samples := by
  unfold Grid.InBounds rowWidths
  rw [Int.toNat_natCast, List.getD_eq_getElem?_getD, List.getElem?_map]
  cases threads[i]? with
  | none => simp
  | some samples =>
    simp only [Option.map_some, Option.getD_some, Option.some.injEq, exists_eq_left',
      Nat.lt_succ_iff, Int.natCast_nonneg, true_and]

/-! ## What the loop computes -/

section Abstract

variable {M : Type}

/-- No flow has two samples at one instant. -/
def Tally.Distinct (T : Tally M) : List Sample → Prop := Latest.Distinct T.key Sample.time

/-- Each sample is later than those of its flow before it. -/
def Tally.Increasing (T : Tally M) : List Sample → Prop := Latest.Increasing T.key Sample.time

/-- Sorted samples come in order within each flow. -/
theorem Tally.Distinct.increasing {T : Tally M} {samples arr : List Sample}
    (h : T.Distinct samples) (hq : Qsorted samples arr) : T.Increasing arr :=
  Latest.Distinct.increasing (Latest.Distinct.perm h hq.perm.symm) hq.times

variable [AddCommMonoid M]

/-- The latest counter of each flow. -/
def Tally.latest (T : Tally M) : List Sample → ℤ × ℕ → M := Latest.latest T.key Sample.time T.count

/-- The sum over the flows of the latest counter. -/
def Tally.total (T : Tally M) : List Sample → M := Latest.total T.key Sample.time T.count

/-- The work done once the samples `seen` have been seen. -/
def Tally.work (T : Tally M) (first : Sample) (seen : List Sample) : ℚ :=
  T.toDouble (T.total seen) - T.toDouble (T.count first)

/-- The sums after `rest`, where `seen` were seen before. -/
def Tally.sumsFrom (T : Tally M) (first : Sample) : List Sample → List Sample → Sums → Sums
  | _, [], sums => sums
  | seen, s :: rest, sums => T.sumsFrom first (seen ++ [s]) rest
      (sums.add (secondsBetween first.timestamp s.timestamp) (T.work first (seen ++ [s])))

/-- **What is accumulated** over the samples after the first one. -/
def Tally.sums (T : Tally M) (first : Sample) (rest : List Sample) : Sums :=
  T.sumsFrom first [first] rest .zero

/-- The arithmetic is exact on the samples, taken in this order. -/
structure Tally.Exact (T : Tally M) (samples : List Sample) : Prop where
  current : ∀ pre s, pre ++ [s] <+: samples →
    T.add (T.sub (T.total pre) (T.latest pre (T.key s))) (T.count s) = T.total (pre ++ [s])
  work : ∀ first pre, first :: pre <+: samples →
    T.toDouble (T.sub (T.total (first :: pre)) (T.count first)) = T.work first (first :: pre)

theorem Tally.Exact.of_isPrefix {T : Tally M} {xs ys : List Sample} (h : T.Exact ys)
    (hxy : xs <+: ys) : T.Exact xs :=
  ⟨fun pre s hp => h.current pre s (hp.trans hxy), fun f pre hp => h.work f pre (hp.trans hxy)⟩

/-- The sum over the flows does not depend on the order. -/
theorem Tally.Distinct.total_perm {T : Tally M} {samples arr : List Sample}
    (h : T.Distinct samples) (hp : arr.Perm samples) : T.total arr = T.total samples :=
  (Latest.total_perm h hp.symm).symm

/-- The last duration is that of the last sample. -/
theorem Tally.sumsFrom_last (T : Tally M) (first : Sample) (seen rest : List Sample)
    (sums : Sums) :
    (rest = [] ∧ T.sumsFrom first seen rest sums = sums) ∨ ∃ pre s, rest = pre ++ [s] ∧
      (T.sumsFrom first seen rest sums).duration = secondsBetween first.timestamp s.timestamp ∧
      (T.sumsFrom first seen rest sums).total = T.work first (seen ++ rest) := by
  induction rest generalizing seen sums with
  | nil => exact .inl ⟨rfl, rfl⟩
  | cons s rest ih =>
    right
    rw [Tally.sumsFrom]
    rcases ih (seen ++ [s]) _ with ⟨rfl, h⟩ | ⟨pre, l, rfl, hd, ht⟩
    · -- `s` is the last sample
      refine ⟨[], s, rfl, ?_, ?_⟩
      · rw [h]; rfl
      · rw [h]; rfl
    · refine ⟨s :: pre, l, rfl, hd, ?_⟩
      rw [ht, List.append_assoc]
      rfl

/-- After one sample the total is its counter. -/
theorem Tally.total_singleton {T : Tally M} {s : Sample} : T.total [s] = T.count s := by
  have hnew : ∀ x ∈ ([] : List Sample), T.key x = T.key s → x.time < s.time := by simp
  have htotal := Latest.total_concat T.count hnew
  rw [List.nil_append, Latest.latest_nil, Latest.total_nil, add_zero, zero_add] at htotal
  exact htotal

/-- The total at the end is the work done in all. -/
theorem Tally.sums_total {T : Tally M} {first : Sample} {rest : List Sample} :
    (T.sums first rest).total = T.work first (first :: rest) := by
  rcases T.sumsFrom_last first [first] rest .zero
    with ⟨rfl, h⟩ | ⟨pre, l, -, -, ht⟩
  · rw [Tally.sums, h, Tally.work, Tally.total_singleton, sub_self]
    rfl
  · exact ht

/-- The duration at the end is that from the first sample to the last. -/
theorem Tally.sums_duration {T : Tally M} {first : Sample} {rest : List Sample} :
    (T.sums first rest).duration = secondsBetween first.timestamp
      ((first :: rest).getLast (List.cons_ne_nil _ _)).timestamp := by
  rcases T.sumsFrom_last first [first] rest .zero
    with ⟨rfl, h⟩ | ⟨pre, l, rfl, hd, -⟩
  · rw [Tally.sums, h, secondsBetween_eq]
    simp [Sums.zero]
  · have hl : (first :: (pre ++ [l])).getLast (List.cons_ne_nil _ _) = l := by
      simp
    rw [hl]
    exact hd

end Abstract

/-! ## The loop refines it -/

namespace Loop

variable {M : Type} {T : Tally M} {ws : List ℕ} {first s : Sample} {rest seen : List Sample}
variable {st st' : Loop M}

/-- What one iteration does. -/
theorem next_eq_some (h : next T first st s = some st') : ∃ old,
    T.check s = true ∧ st.perFlow.read (T.row s) s.flowId = some old ∧
    st.perFlow.write (T.row s) s.flowId (T.count s) = some st'.perFlow ∧
    st'.currentTotal = T.add (T.sub st.currentTotal old) (T.count s) ∧
    st'.sums = st.sums.add (secondsBetween first.timestamp s.timestamp)
      (T.toDouble (T.sub st'.currentTotal (T.count first))) := by
  unfold next at h
  cases hc : T.check s with
  | false => simp [hc] at h
  | true =>
    cases hr : st.perFlow.read (T.row s) s.flowId with
    | none => simp [hc, hr] at h
    | some old =>
      cases hw : st.perFlow.write (T.row s) s.flowId (T.count s) with
      | none => simp [hc, hr, hw] at h
      | some perFlow =>
        -- the cell that was just written is read back
        have hnew : perFlow.read (T.row s) s.flowId = some (T.count s) := by
          rw [Grid.read_write hw]
          simp
        simp only [hc, hr, hw, hnew, guard_true, Option.pure_def, Option.bind_eq_bind,
          Option.bind_some, Option.some.injEq] at h
        subst h
        exact ⟨old, rfl, rfl, rfl, rfl, rfl⟩

/-- An iteration succeeds exactly where its sample is within the grid. -/
theorem next_isSome_iff (first : Sample) : (∃ st', next T first st s = some st') ↔
    T.check s = true ∧ Grid.InBounds st.perFlow.widths (T.row s) s.flowId := by
  constructor
  · rintro ⟨st', h⟩
    obtain ⟨old, hc, -, hw, -⟩ := next_eq_some h
    exact ⟨hc, Grid.write_isSome_iff.mp ⟨_, hw⟩⟩
  · rintro ⟨hc, hin⟩
    obtain ⟨perFlow, hw⟩ := Grid.write_isSome_iff (v := T.count s).mpr hin
    have hnew : perFlow.read (T.row s) s.flowId = some (T.count s) := by
      rw [Grid.read_write hw]
      simp
    cases hr : st.perFlow.read (T.row s) s.flowId with
    | none => exact absurd hin (Grid.read_eq_none_iff.mp hr)
    | some old => simp [next, hc, hr, hw, hnew]

/-- What the initialisation does. -/
theorem start_eq_some [Zero M] (h : start T ws first = some st) : T.check first = true ∧
    (Grid.filled 0 ws).write (T.row first) first.flowId (T.count first) = some st.perFlow ∧
    st.currentTotal = T.count first ∧ st.sums = .zero := by
  unfold start at h
  cases hc : T.check first with
  | false => simp [hc] at h
  | true =>
    cases hw : (Grid.filled 0 ws).write (T.row first) first.flowId (T.count first) with
    | none => simp [hc, hw] at h
    | some perFlow =>
      simp only [hc, hw, guard_true, Option.pure_def, Option.bind_eq_bind, Option.bind_some,
        Option.some.injEq] at h
      subst h
      exact ⟨rfl, rfl, rfl, rfl⟩

theorem widths_start [Zero M] (h : start T ws first = some st) : st.perFlow.widths = ws := by
  obtain ⟨-, hw, -⟩ := start_eq_some h
  exact (Grid.widths_write hw).trans Grid.widths_filled

theorem start_isSome_iff [Zero M] : (∃ st, start T ws first = some st) ↔
    T.check first = true ∧ Grid.InBounds ws (T.row first) first.flowId := by
  have hin := Grid.write_isSome_iff (t := Grid.filled 0 ws) (i := T.row first)
    (j := first.flowId) (v := T.count first)
  rw [Grid.widths_filled] at hin
  constructor
  · rintro ⟨st, h⟩
    obtain ⟨hc, hw, -⟩ := start_eq_some h
    exact ⟨hc, hin.mp ⟨_, hw⟩⟩
  · rintro ⟨hc, h⟩
    obtain ⟨perFlow, hw⟩ := hin.mpr h
    exact ⟨_, by simp only [start, hc, hw, guard_true, Option.pure_def, Option.bind_eq_bind,
      Option.bind_some]; rfl⟩

/-- The iterations succeed exactly where their samples are within the
grid, whose widths do not change. -/
theorem foldlM_isSome_iff (T : Tally M) (first : Sample) (rest : List Sample) (st : Loop M) :
    (∃ st', rest.foldlM (next T first) st = some st') ↔
    ∀ s ∈ rest, T.check s = true ∧ Grid.InBounds st.perFlow.widths (T.row s) s.flowId := by
  induction rest generalizing st with
  | nil => simp
  | cons s rest ih =>
    rw [List.forall_mem_cons, ← next_isSome_iff first, List.foldlM_cons]
    cases hn : next T first st s with
    | none => simp
    | some st' =>
      obtain ⟨old, -, -, hw, -⟩ := next_eq_some hn
      have hst' := ih st'
      rw [Grid.widths_write hw] at hst'
      simpa using hst'

/-- **The loop runs to its end** exactly where every sample is within the
grid as it was allocated. -/
theorem run_isSome_iff [Zero M] (T : Tally M) (ws : List ℕ) (first : Sample) (rest : List Sample) :
    (∃ st, run T ws first rest = some st) ↔
    ∀ s ∈ first :: rest, T.check s = true ∧ Grid.InBounds ws (T.row s) s.flowId := by
  rw [List.forall_mem_cons, ← start_isSome_iff]
  unfold run
  cases hs : start T ws first with
  | none => simp
  | some st =>
    have hfold := foldlM_isSome_iff T first rest st
    rw [widths_start hs] at hfold
    simpa using hfold

/-- The grid keeps its widths. -/
theorem widths_foldlM (h : rest.foldlM (next T first) st = some st') :
    st'.perFlow.widths = st.perFlow.widths := by
  induction rest generalizing st with
  | nil =>
    cases h
    rfl
  | cons s rest ih =>
    obtain ⟨mid, hn, h⟩ := foldlM_cons_eq_some.mp h
    obtain ⟨old, -, -, hw, -⟩ := next_eq_some hn
    exact (ih h).trans (Grid.widths_write hw)

/-- A run is an initialisation and the iterations. -/
theorem run_eq_some [Zero M] (h : run T ws first rest = some st') :
    ∃ st, start T ws first = some st ∧ rest.foldlM (next T first) st = some st' := by
  unfold run at h
  cases hs : start T ws first with
  | none => rw [hs] at h; cases h
  | some st =>
    rw [hs] at h
    exact ⟨st, rfl, h⟩

theorem widths_run [Zero M] (h : run T ws first rest = some st) : st.perFlow.widths = ws := by
  obtain ⟨st₀, hs, hfold⟩ := run_eq_some h
  exact (widths_foldlM hfold).trans (widths_start hs)

/-! ## The sums, whatever the arithmetic -/

/-- What the iterations add: the squares of the durations, and of the
totals. -/
theorem foldlM_sums (h : rest.foldlM (next T first) st = some st') :
    st'.sums.sumXx = st.sums.sumXx +
      (rest.map fun s => secondsBetween first.timestamp s.timestamp ^ 2).sum ∧
    st.sums.sumYy ≤ st'.sums.sumYy := by
  induction rest generalizing st with
  | nil =>
    cases h
    simp
  | cons s rest ih =>
    obtain ⟨mid, hn, h⟩ := foldlM_cons_eq_some.mp h
    obtain ⟨hxx, hyy⟩ := ih h
    obtain ⟨old, -, -, -, -, hsums⟩ := next_eq_some hn
    have hmidx : mid.sums.sumXx =
        st.sums.sumXx + secondsBetween first.timestamp s.timestamp ^ 2 := by
      rw [hsums, sq]
      rfl
    have hmidy : st.sums.sumYy ≤ mid.sums.sumYy := by
      rw [hsums]
      exact le_add_of_nonneg_right (mul_self_nonneg _)
    refine ⟨?_, hmidy.trans hyy⟩
    rw [hxx, hmidx, List.map_cons, List.sum_cons]
    ring

/-- The duration is that of the last sample, however the counters are
kept. -/
theorem run_duration [Zero M] (h : run T ws first rest = some st) :
    st.sums.duration = secondsBetween first.timestamp
      ((first :: rest).getLast (List.cons_ne_nil _ _)).timestamp := by
  obtain ⟨st₀, hs, hfold⟩ := run_eq_some h
  rcases List.eq_nil_or_concat' rest with rfl | ⟨init, l, rfl⟩
  · obtain rfl : st₀ = st := Option.some.inj hfold
    obtain ⟨-, -, -, hsums⟩ := start_eq_some hs
    rw [hsums, secondsBetween_eq]
    exact (sub_self _).symm
  · rw [List.foldlM_append] at hfold
    cases hi : init.foldlM (next T first) st₀ with
    | none => rw [hi] at hfold; cases hfold
    | some mid =>
      rw [hi] at hfold
      have hlast : next T first mid l = some st := by simpa using hfold
      obtain ⟨old, -, -, -, -, hsums⟩ := next_eq_some hlast
      have hl : (first :: (init ++ [l])).getLast (List.cons_ne_nil _ _) = l := by simp
      rw [hsums, hl]
      rfl

/-- The squares of the durations add up. -/
theorem run_sumXx [Zero M] (h : run T ws first rest = some st) : st.sums.sumXx =
    (rest.map fun s => secondsBetween first.timestamp s.timestamp ^ 2).sum := by
  obtain ⟨st₀, hs, hfold⟩ := run_eq_some h
  obtain ⟨-, -, -, hsums⟩ := start_eq_some hs
  rw [(foldlM_sums hfold).1, hsums]
  exact zero_add _

/-- The square of the work after the first iteration is among those that
add up. There the cell of the sample is that of the first one, or still
0. -/
theorem run_sumYy [Zero M] (h : run T ws first (s :: rest) = some st) :
    T.toDouble (T.sub (T.add (T.sub (T.count first)
      (if T.key s = T.key first then T.count first else 0)) (T.count s)) (T.count first)) ^ 2 ≤
      st.sums.sumYy := by
  obtain ⟨st₀, hs, hfold⟩ := run_eq_some h
  obtain ⟨-, hw, ht, hzero⟩ := start_eq_some hs
  obtain ⟨st₁, hn, hfold⟩ := foldlM_cons_eq_some.mp hfold
  obtain ⟨old, -, hr, -, ht', hsums⟩ := next_eq_some hn
  have hin : Grid.InBounds st₀.perFlow.widths (T.row s) s.flowId :=
    ((next_isSome_iff first).mp ⟨st₁, hn⟩).2
  -- before the first iteration only the cell of `first` is not 0
  have hcell := Grid.holds_filled.write hw _ _ hin
  rw [hr] at hcell
  have hold : old = if T.key s = T.key first then T.count first else 0 := by
    rw [Option.some.inj hcell, Function.update_apply]
    rfl
  refine le_of_eq_of_le ?_ (foldlM_sums hfold).2
  rw [hsums, hzero, ht', ht, hold, sq]
  exact (zero_add _).symm

section Refinement

variable [AddCommMonoid M]

/-- The loop variables say what has been seen. -/
structure Sees (st : Loop M) (T : Tally M) (seen : List Sample) (sums : Sums) : Prop where
  cells : st.perFlow.Holds (T.latest seen)
  total : st.currentTotal = T.total seen
  sums : st.sums = sums

theorem start_sees (h : start T ws first = some st) : Sees st T [first] .zero := by
  obtain ⟨-, hw, ht, hs⟩ := start_eq_some h
  have hnew : ∀ x ∈ ([] : List Sample), T.key x = T.key first → x.time < first.time := by simp
  refine ⟨?_, ?_, hs⟩
  · have hcells := Grid.holds_filled.write hw
    have hlatest := Latest.latest_concat T.count hnew
    rw [List.nil_append] at hlatest
    unfold Tally.latest
    rw [hlatest]
    exact hcells
  · rw [ht, Tally.total_singleton]

/-- **One iteration** takes one more sample into account. -/
theorem Sees.next {sums : Sums} {seen : List Sample} (hsees : Sees st T seen sums)
    (h : next T first st s = some st')
    (hnew : ∀ x ∈ seen, T.key x = T.key s → x.time < s.time)
    (hcur : T.add (T.sub (T.total seen) (T.latest seen (T.key s))) (T.count s) =
      T.total (seen ++ [s]))
    (hwork : T.toDouble (T.sub (T.total (seen ++ [s])) (T.count first)) =
      T.work first (seen ++ [s])) :
    Sees st' T (seen ++ [s])
      (sums.add (secondsBetween first.timestamp s.timestamp) (T.work first (seen ++ [s]))) := by
  obtain ⟨old, hc, hr, hw, ht, hs⟩ := next_eq_some h
  have hin : Grid.InBounds st.perFlow.widths (T.row s) s.flowId :=
    ((next_isSome_iff first).mp ⟨st', h⟩).2
  -- the cell that is replaced holds the latest counter of the flow
  have hold : old = T.latest seen (T.key s) := by
    have := hsees.cells _ _ hin
    rw [hr] at this
    exact Option.some.inj this
  have htotal : st'.currentTotal = T.total (seen ++ [s]) := by
    rw [ht, hold, hsees.total, hcur]
  refine ⟨?_, htotal, ?_⟩
  · have hcells := hsees.cells.write hw
    unfold Tally.latest at hcells ⊢
    rw [Latest.latest_concat T.count hnew]
    exact hcells
  · rw [hs, hsees.sums, htotal, hwork]

/-- All iterations. -/
theorem Sees.foldlM {sums : Sums} (hsees : Sees st T (first :: seen) sums)
    (hinc : T.Increasing (first :: seen ++ rest)) (hex : T.Exact (first :: seen ++ rest))
    (h : rest.foldlM (Loop.next T first) st = some st') :
    Sees st' T (first :: seen ++ rest) (T.sumsFrom first (first :: seen) rest sums) := by
  induction rest generalizing st seen sums with
  | nil =>
    cases h
    rw [List.append_nil]
    exact hsees
  | cons s rest ih =>
    obtain ⟨mid, hn, h⟩ := foldlM_cons_eq_some.mp h
    have hsplit : first :: seen ++ s :: rest = first :: (seen ++ [s]) ++ rest := by simp
    have hpre : first :: seen ++ [s] <+: first :: seen ++ s :: rest := ⟨rest, by simp⟩
    have hmid := hsees.next hn hinc.newest (hex.current _ _ hpre)
      (hex.work first (seen ++ [s]) hpre)
    rw [hsplit] at hinc hex ⊢
    exact ih hmid hinc hex h

/-- **The loop refines the sums**: at its end the grid has the latest
counters of the samples, the running total is the sum over the flows,
and what was accumulated is what `sums` says. -/
theorem run_sees (hinc : T.Increasing (first :: rest)) (hex : T.Exact (first :: rest))
    (h : run T ws first rest = some st) : Sees st T (first :: rest) (T.sums first rest) := by
  obtain ⟨st₀, hs, hfold⟩ := run_eq_some h
  have h₀ : Sees st₀ T (first :: []) .zero := start_sees hs
  have hall : Sees st T (first :: [] ++ rest) (T.sumsFrom first (first :: []) rest .zero) :=
    h₀.foldlM hinc hex hfold
  exact hall

/-- **The loop at any iteration**, over the sorted samples. -/
theorem run_take_sees {samples : List Sample} (hdist : T.Distinct samples)
    (hq : Qsorted samples (first :: rest)) (hex : T.Exact (first :: rest))
    (hin : ∀ s ∈ samples, T.check s = true ∧ Grid.InBounds ws (T.row s) s.flowId) (j : ℕ) :
    ∃ st, run T ws first (rest.take j) = some st ∧
      Sees st T (first :: rest.take j) (T.sums first (rest.take j)) := by
  have hpre : first :: rest.take j <+: first :: rest :=
    List.cons_prefix_cons.mpr ⟨rfl, List.take_prefix j rest⟩
  have hinc := hdist.increasing hq
  have hex := hex.of_isPrefix hpre
  obtain ⟨suf, hsuf⟩ := hpre
  rw [← hsuf] at hinc
  obtain ⟨st, hst⟩ := (run_isSome_iff T ws first (rest.take j)).mpr fun s hs =>
    hin s (hq.perm.mem_iff.mp (by rw [← hsuf]; exact List.mem_append_left _ hs))
  exact ⟨st, hst, run_sees hinc.left hex hst⟩

end Refinement

end Loop

end Rushit
