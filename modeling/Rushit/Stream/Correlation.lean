import Mathlib.Analysis.Real.Sqrt
import Rushit.Common.Origin
import Rushit.Stream.Stats
/-!
# The correlation coefficient

Each iteration of `calculate_stream_stats` adds a point: the time since
the first sample, and the running total since then. The coefficient is
that of the points, taken about the origin. It is in `[-1, 1]`, since the
mixed sum is bounded by the others, and not negative where no counter
decreases (`correlation_bounds`).

Flows are told apart by row and number, as the loop tells them.
-/

namespace Rushit

/-- The coefficient as a real number, where the loop divides. It is
exact: what the loop computes in doubles may be rounded to above 1. -/
noncomputable def Correlation.value (c : Correlation) : ℝ := (c.num : ℝ) / √(c.sq : ℝ)

variable {c : Correlation}

/-- **A coefficient is in `[-1, 1]`** where the square of its numerator is
at most what is under the root. -/
theorem Correlation.abs_value_le (h : c.num ^ 2 ≤ c.sq) : |c.value| ≤ 1 := by
  have hcast : (c.num : ℝ) ^ 2 ≤ (c.sq : ℝ) := by exact_mod_cast h
  rw [Correlation.value, abs_div, abs_of_nonneg (Real.sqrt_nonneg _)]
  exact div_le_one_of_le₀ (Real.abs_le_sqrt hcast) (Real.sqrt_nonneg _)

theorem Correlation.value_nonneg (h : 0 ≤ c.num) : 0 ≤ c.value :=
  div_nonneg (by exact_mod_cast h) (Real.sqrt_nonneg _)

/-- **And it is 1** where they are equal, and the numerator is positive. -/
theorem Correlation.value_eq_one_iff : c.value = 1 ↔ 0 < c.num ∧ c.num ^ 2 = c.sq := by
  constructor
  · intro h
    have hroot : √(c.sq : ℝ) ≠ 0 := fun h0 => by
      rw [Correlation.value, h0, div_zero] at h
      exact zero_ne_one h
    have heq : (c.num : ℝ) = √(c.sq : ℝ) := by rwa [Correlation.value, div_eq_one_iff_eq hroot] at h
    have hpos : 0 < √(c.sq : ℝ) := lt_of_le_of_ne (Real.sqrt_nonneg _) hroot.symm
    refine ⟨by rw [← heq] at hpos; exact_mod_cast hpos, ?_⟩
    have hsq : (c.num : ℝ) ^ 2 = (c.sq : ℝ) := by
      rw [heq, Real.sq_sqrt (Real.sqrt_pos.mp hpos).le]
    exact_mod_cast hsq
  · rintro ⟨hpos, hsq⟩
    have hposR : (0 : ℝ) < (c.num : ℝ) := by exact_mod_cast hpos
    have hsqR : (c.sq : ℝ) = (c.num : ℝ) ^ 2 := by exact_mod_cast hsq.symm
    rw [Correlation.value, hsqR, Real.sqrt_sq hposR.le, div_self hposR.ne']

namespace Loop

variable {M : Type} {T : Tally M} {ws : List ℕ} {first s : Sample} {rest : List Sample}
variable {st st' : Loop M}

/-! ## The points of the loop -/

/-- Each sample with the total after it. -/
def history (T : Tally M) (first : Sample) : Loop M → List Sample → List (Sample × ℚ)
  | _, [] => []
  | st, s :: rest =>
    match next T first st s with
    | none => []
    | some st' => (s, st'.sums.total) :: history T first st' rest

/-- The point of a sample. -/
def point (first : Sample) (p : Sample × ℚ) : ℚ × ℚ :=
  (secondsBetween first.timestamp p.1.timestamp, p.2)

/-- The points of all iterations. -/
def points (T : Tally M) (first : Sample) (st : Loop M) (rest : List Sample) : List (ℚ × ℚ) :=
  (history T first st rest).map (point first)

theorem history_cons (h : next T first st s = some st') :
    history T first st (s :: rest) = (s, st'.sums.total) :: history T first st' rest := by
  rw [history, h]

/-- Every sample has its point. -/
theorem map_fst_history (h : rest.foldlM (next T first) st = some st') :
    (history T first st rest).map Prod.fst = rest := by
  induction rest generalizing st with
  | nil => rfl
  | cons s rest ih =>
    obtain ⟨mid, hn, h⟩ := foldlM_cons_eq_some.mp h
    rw [history_cons hn, List.map_cons, ih h]

/-- **The sums are those of the points.** -/
theorem foldlM_sums_points (h : rest.foldlM (next T first) st = some st') :
    st'.sums.sumXy = st.sums.sumXy + Origin.sumXy (points T first st rest) ∧
    st'.sums.sumXx = st.sums.sumXx + Origin.sumXx (points T first st rest) ∧
    st'.sums.sumYy = st.sums.sumYy + Origin.sumYy (points T first st rest) := by
  induction rest generalizing st with
  | nil =>
    cases h
    simp [points, history]
  | cons s rest ih =>
    obtain ⟨mid, hn, h⟩ := foldlM_cons_eq_some.mp h
    obtain ⟨hxy, hxx, hyy⟩ := ih h
    obtain ⟨old, -, -, -, -, hsums⟩ := next_eq_some hn
    have htotal : mid.sums.total = T.toDouble (T.sub mid.currentTotal (T.count first)) := by
      rw [hsums]
      rfl
    rw [points, history_cons hn, List.map_cons, Origin.sumXy_cons, Origin.sumXx_cons,
      Origin.sumYy_cons, hxy, hxx, hyy, ← points, htotal, hsums]
    exact ⟨add_assoc _ _ _, add_assoc _ _ _, add_assoc _ _ _⟩

/-- The duration and the total at the end are those of the last point. -/
theorem foldlM_last (h : rest.foldlM (next T first) st = some st') :
    (rest = [] ∧ st' = st) ∨ (st'.sums.duration, st'.sums.total) ∈ points T first st rest := by
  induction rest generalizing st with
  | nil =>
    cases h
    exact .inl ⟨rfl, rfl⟩
  | cons s rest ih =>
    right
    obtain ⟨mid, hn, h⟩ := foldlM_cons_eq_some.mp h
    rw [points, history_cons hn, List.map_cons]
    rcases ih h with ⟨rfl, rfl⟩ | hmem
    · obtain ⟨old, -, -, -, -, hsums⟩ := next_eq_some hn
      refine List.mem_cons.mpr (.inl (Prod.ext ?_ rfl))
      rw [hsums]
      rfl
    · exact List.mem_cons_of_mem _ hmem

/-- **A run and its points.** -/
theorem run_points [Zero M] (h : run T ws first rest = some st') : ∃ st,
    start T ws first = some st ∧ rest.foldlM (next T first) st = some st' ∧
    st'.sums.sumXy = Origin.sumXy (points T first st rest) ∧
    st'.sums.sumXx = Origin.sumXx (points T first st rest) ∧
    st'.sums.sumYy = Origin.sumYy (points T first st rest) ∧
    (st'.sums.duration = 0 ∨
      (st'.sums.duration, st'.sums.total) ∈ points T first st rest) := by
  obtain ⟨st, hstart, hfold⟩ := run_eq_some h
  obtain ⟨-, -, -, hzero⟩ := start_eq_some hstart
  obtain ⟨hxy, hxx, hyy⟩ := foldlM_sums_points hfold
  rw [hzero] at hxy hxx hyy
  refine ⟨st, hstart, hfold, hxy.trans (zero_add _), hxx.trans (zero_add _),
    hyy.trans (zero_add _), ?_⟩
  rcases foldlM_last hfold with ⟨-, rfl⟩ | hmem
  · rw [hzero]
    exact .inl rfl
  · exact .inr hmem

/-- The first coordinate is the time since the first sample. -/
theorem mem_points {p : ℚ × ℚ} (h : p ∈ points T first st rest)
    (hrun : rest.foldlM (next T first) st = some st') :
    ∃ s ∈ rest, p.1 = secondsBetween first.timestamp s.timestamp := by
  obtain ⟨⟨s, total⟩, hmem, rfl⟩ := List.mem_map.mp h
  have hs := List.mem_map_of_mem (f := Prod.fst) hmem
  rw [map_fst_history hrun] at hs
  exact ⟨s, hs, rfl⟩

end Loop

namespace Stream

open Loop

variable {threads : List (List Sample)} {arr rest : List Sample} {first s : Sample}
variable {st st' : Loop ℤ} {stats : Stats} {n : ℤ}

/-- **No counter decreases**, and none is negative. The cells are told
apart by row and number, which under the precondition of `workload.h`
that the threads are numbered in sequence is by flow. -/
structure Growing (n : ℤ) (arr : List Sample) : Prop where
  nonneg : ∀ s ∈ arr, 0 ≤ s.bytesRead
  mono : arr.Pairwise fun x y => (tally n).key x = (tally n).key y → x.bytesRead ≤ y.bytesRead

/-- What an iteration does to the cells and the running total. -/
theorem next_cells {f : ℤ × ℕ → ℤ} (hf : st.perFlow.Holds f)
    (h : next (tally n) first st s = some st') :
    st'.perFlow.Holds (Function.update f ((tally n).key s) s.bytesRead) ∧
    st'.currentTotal = st.currentTotal - f ((tally n).key s) + s.bytesRead ∧
    st'.sums.total = ((st'.currentTotal - first.bytesRead : ℤ) : ℚ) := by
  obtain ⟨old, -, hr, hw, ht, hsums⟩ := next_eq_some h
  have hin : Grid.InBounds st.perFlow.widths ((tally n).row s) s.flowId :=
    ((next_isSome_iff first).mp ⟨st', h⟩).2
  have hold : old = f ((tally n).key s) := by
    have hcell := hf _ _ hin
    rw [hr] at hcell
    exact Option.some.inj hcell
  refine ⟨hf.write hw, ht.trans (by rw [hold]; rfl), ?_⟩
  rw [hsums]
  rfl

/-- **The running total does not decrease** where no counter does. -/
theorem points_nonneg {f : ℤ × ℕ → ℤ} (hf : st.perFlow.Holds f)
    (hcells : ∀ s ∈ rest, f ((tally n).key s) ≤ s.bytesRead)
    (hmono : rest.Pairwise fun x y =>
      (tally n).key x = (tally n).key y → x.bytesRead ≤ y.bytesRead)
    (hcur : first.bytesRead ≤ st.currentTotal) :
    ∀ p ∈ points (tally n) first st rest, 0 ≤ p.2 := by
  induction rest generalizing st f with
  | nil => exact fun p hp => nomatch hp
  | cons s rest ih =>
    intro p hp
    cases hn : next (tally n) first st s with
    | none =>
      rw [points, history, hn] at hp
      cases hp
    | some mid =>
      obtain ⟨hmid, htotal, hsum⟩ := next_cells hf hn
      have hs := hcells s List.mem_cons_self
      have hcur' : first.bytesRead ≤ mid.currentTotal := by omega
      rw [points, history_cons hn, List.map_cons] at hp
      rcases List.mem_cons.mp hp with rfl | hp
      · show 0 ≤ mid.sums.total
        rw [hsum]
        exact_mod_cast sub_nonneg.mpr hcur'
      · refine ih hmid (fun x hx => ?_) (List.pairwise_cons.mp hmono).2 hcur' p hp
        by_cases hkey : (tally n).key x = (tally n).key s
        · rw [hkey, Function.update_self]
          exact (List.pairwise_cons.mp hmono).1 x hx hkey.symm
        · rw [Function.update_of_ne hkey]
          exact hcells x (List.mem_cons_of_mem _ hx)

/-- Before the iterations only the cell of the first sample is not 0. -/
theorem start_cells {ws : List ℕ} (h : start (tally n) ws first = some st) :
    st.perFlow.Holds (Function.update (fun _ => 0) ((tally n).key first) first.bytesRead) ∧
      st.currentTotal = first.bytesRead := by
  obtain ⟨-, hw, ht, -⟩ := start_eq_some h
  exact ⟨Grid.holds_filled.write hw, ht⟩

/-- The time since the first sample is not negative. -/
theorem secondsBetween_nonneg (hsorted : (first :: rest).Pairwise fun x y => compareSamples x y ≤ 0)
    (hs : s ∈ first :: rest) : 0 ≤ secondsBetween first.timestamp s.timestamp := by
  rw [secondsBetween_eq, sub_nonneg]
  rcases List.mem_cons.mp hs with rfl | hs
  · exact le_rfl
  · exact compareSamples_nonpos.mp ((List.pairwise_cons.mp hsorted).1 s hs)

/-- **Every duration is non-negative**, after any number of iterations. -/
theorem duration_nonneg (hsorted : (first :: rest).Pairwise fun x y => compareSamples x y ≤ 0)
    (h : Loop.run (tally threads.length) (rowWidths threads) first rest = some st) (j : ℕ) :
    ∃ stj, loopAfter threads first rest j = some stj ∧ 0 ≤ stj.sums.duration := by
  have hall := (run_isSome_iff _ _ _ _).mp ⟨st, h⟩
  have hsub : ∀ s ∈ first :: rest.take j, s ∈ first :: rest := fun s hs =>
    List.cons_subset_cons first (List.take_subset j rest) hs
  obtain ⟨stj, hrun⟩ := (run_isSome_iff _ _ first (rest.take j)).mpr fun s hs => hall s (hsub s hs)
  refine ⟨stj, hrun, ?_⟩
  rw [run_duration hrun]
  exact secondsBetween_nonneg hsorted (hsub _ (List.getLast_mem _))

/-- **The guard keeps the sums away from 0.** -/
theorem sums_pos (h : Loop.run (tally n) ws first rest = some st) (hd : st.sums.duration ≠ 0)
    (ht : st.sums.total ≠ 0) : 0 < st.sums.sumXx ∧ 0 < st.sums.sumYy := by
  obtain ⟨st₀, -, -, -, hxx, hyy, hlast⟩ := run_points h
  have hmem := hlast.resolve_left hd
  rw [hxx, hyy]
  exact ⟨(mul_self_pos.mpr hd).trans_le (Origin.mul_self_le_sumXx hmem),
    (mul_self_pos.mpr ht).trans_le (Origin.mul_self_le_sumYy hmem)⟩

theorem sumXy_le (h : Loop.run (tally n) ws first rest = some st) :
    st.sums.sumXy ^ 2 ≤ st.sums.sumXx * st.sums.sumYy := by
  obtain ⟨st₀, -, -, hxy, hxx, hyy, -⟩ := run_points h
  rw [hxy, hxx, hyy]
  exact Origin.sq_sumXy_le _

/-- Where no counter decreases the mixed sum is not negative. -/
theorem sumXy_nonneg (hsorted : (first :: rest).Pairwise fun x y => compareSamples x y ≤ 0)
    (hgrow : Growing n (first :: rest)) (h : Loop.run (tally n) ws first rest = some st) :
    0 ≤ st.sums.sumXy := by
  obtain ⟨st₀, hstart, hfold, hxy, -⟩ := run_points h
  obtain ⟨hcells, htotal⟩ := start_cells hstart
  obtain ⟨hfirst, hrest⟩ := List.pairwise_cons.mp hgrow.mono
  rw [hxy]
  refine Origin.sumXy_nonneg fun p hp => ⟨?_, ?_⟩
  · obtain ⟨s, hs, hp⟩ := mem_points hp hfold
    rw [hp]
    exact secondsBetween_nonneg hsorted (List.mem_cons_of_mem _ hs)
  · refine points_nonneg hcells (fun s hs => ?_) hrest htotal.ge p hp
    by_cases hkey : (tally n).key s = (tally n).key first
    · rw [hkey, Function.update_self]
      exact hfirst s hs hkey.symm
    · rw [Function.update_of_ne hkey]
      exact hgrow.nonneg s (List.mem_cons_of_mem _ hs)

/-- A result comes from a run. -/
theorem calculateStreamStats_cons (h : calculateStreamStats threads (first :: rest) = some stats) :
    ∃ st, Loop.run (tally threads.length) (rowWidths threads) first rest = some st ∧
      stats = report first rest st.sums := by
  obtain ⟨st, hrun, hst⟩ := Option.bind_eq_some_iff.mp h
  exact ⟨st, hrun, (Option.some.inj hst).symm⟩

theorem report_correlation (sums : Sums) : (report first rest sums).correlation =
    if sums.duration = 0 ∨ sums.total = 0 then ⟨0, 0⟩ else ⟨sums.sumXy, sums.sumXx * sums.sumYy⟩ :=
  rfl

/-- What is reported is in `[-1, 1]`. -/
theorem abs_report_le {sums : Sums} (h : sums.sumXy ^ 2 ≤ sums.sumXx * sums.sumYy) :
    |(report first rest sums).correlation.value| ≤ 1 := by
  refine Correlation.abs_value_le ?_
  rw [report_correlation]
  split_ifs
  · exact (zero_pow two_ne_zero).le
  · exact h

theorem report_value_nonneg {sums : Sums} (h : 0 ≤ sums.sumXy) :
    0 ≤ (report first rest sums).correlation.value := by
  refine Correlation.value_nonneg ?_
  rw [report_correlation]
  split_ifs
  · exact le_rfl
  · exact h

/-- Without samples the coefficient is 0. -/
theorem value_zero : Stats.zero.correlation.value = 0 := by
  simp [Stats.zero, Correlation.value]

/-- **The bounds of the coefficient**, for sorted samples. -/
theorem correlation_bounds (threads : List (List Sample)) (arr : List Sample)
    (hsorted : arr.Pairwise fun x y => compareSamples x y ≤ 0) (stats : Stats)
    (h : calculateStreamStats threads arr = some stats) :
    (∀ first rest, arr = first :: rest → ∃ st,
      Loop.run (tally threads.length) (rowWidths threads) first rest = some st ∧
      stats = report first rest st.sums ∧
      (∀ j ≤ rest.length, ∃ stj, loopAfter threads first rest j = some stj ∧
        0 ≤ stj.sums.duration) ∧
      (¬ (st.sums.duration = 0 ∨ st.sums.total = 0) → 0 < st.sums.sumXx ∧ 0 < st.sums.sumYy) ∧
      st.sums.sumXy * st.sums.sumXy ≤ st.sums.sumXx * st.sums.sumYy) ∧
    (-1 ≤ stats.correlation.value ∧ stats.correlation.value ≤ 1) ∧
    (Growing threads.length arr → 0 ≤ stats.correlation.value) := by
  cases arr with
  | nil =>
    obtain rfl : Stats.zero = stats := Option.some.inj h
    rw [value_zero]
    exact ⟨fun first rest hnil => (nomatch hnil), ⟨by norm_num, by norm_num⟩, fun _ => le_rfl⟩
  | cons first rest =>
    obtain ⟨st, hrun, rfl⟩ := calculateStreamStats_cons h
    have hle := sumXy_le hrun
    refine ⟨?_, abs_le.mp (abs_report_le hle), fun hgrow => ?_⟩
    · rintro first' rest' heq
      obtain ⟨rfl, rfl⟩ := List.cons.inj heq
      refine ⟨st, hrun, rfl, fun j _ => duration_nonneg hsorted hrun j, fun hguard => ?_, ?_⟩
      · obtain ⟨hd, ht⟩ := not_or.mp hguard
        exact sums_pos hrun hd ht
      · rw [← sq]
        exact hle
    · exact report_value_nonneg (sumXy_nonneg hsorted hgrow hrun)

/-- A flow that reads 10 bytes, and 30 more. -/
theorem correlation_bounds_one_flow : ∃ stats,
    calculateStreamStats [[.atSecond 0 0 10 0 1, .atSecond 0 0 40 0 2]]
      [.atSecond 0 0 10 0 1, .atSecond 0 0 40 0 2] = some stats ∧
    0 ≤ stats.correlation.value ∧ stats.correlation.value ≤ 1 := by
  obtain ⟨stats, hstats⟩ : ∃ stats,
      calculateStreamStats [[.atSecond 0 0 10 0 1, .atSecond 0 0 40 0 2]]
        [.atSecond 0 0 10 0 1, .atSecond 0 0 40 0 2] = some stats :=
    Option.isSome_iff_exists.mp (by decide)
  obtain ⟨-, hrange, hgrow⟩ := correlation_bounds _ _ (by decide) stats hstats
  exact ⟨stats, hstats, hgrow ⟨by decide, by decide⟩, hrange.2⟩

end Stream

end Rushit
