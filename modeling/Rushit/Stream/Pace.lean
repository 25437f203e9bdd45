import Rushit.Stream.Correlation
/-!
# Flows of equal pace

All flows read at one constant rate from one instant on. The samples of a
flow are then on a line, but the running total counts each of the other
flows only up to its own last sample. So all points are on a line through
the origin exactly where a single flow has every sample that is later
than the start (`correlation_eq_one_iff`).
-/

namespace Rushit

namespace Stream

open Loop

/-- **Equal and constant pace**: `rate` bytes a second from `t0` on, which
is when the first sample is taken. -/
structure EqualPace (arr : List Sample) (rate t0 : ℚ) : Prop where
  rate_pos : 0 < rate
  pace : ∀ s ∈ arr, (s.bytesRead : ℚ) = rate * (s.time - t0)
  first : ∀ s ∈ arr.head?, s.time = t0

/-- Only the cell `k` is not 0, and it is the running total. -/
def OneCell (st : Loop ℤ) (k : ℤ × ℕ) : Prop :=
  ∃ f, st.perFlow.Holds f ∧ f k = st.currentTotal ∧ ∀ k', k' ≠ k → f k' = 0

variable {threads : List (List Sample)} {arr rest : List Sample} {first s : Sample}
variable {st st' : Loop ℤ} {stats : Stats} {n : ℤ} {k : ℤ × ℕ} {rate t0 a : ℚ}

/-! ## One iteration -/

/-- A sample of the cell's own flow. -/
theorem OneCell.next_self (h : OneCell st k) (hn : next (tally n) first st s = some st')
    (hkey : (tally n).key s = k) : OneCell st' k ∧ st'.currentTotal = s.bytesRead := by
  obtain ⟨f, hf, hk, hother⟩ := h
  obtain ⟨hf', htotal, -⟩ := next_cells hf hn
  rw [hkey, hk, sub_self, zero_add] at htotal
  rw [hkey] at hf'
  refine ⟨⟨_, hf', by rw [Function.update_self, htotal], fun k' hk' => ?_⟩, htotal⟩
  rw [Function.update_of_ne hk']
  exact hother k' hk'

/-- **A sample of another flow** adds to the total. -/
theorem OneCell.next_other (h : OneCell st k) (hn : next (tally n) first st s = some st')
    (hkey : (tally n).key s ≠ k) : st'.currentTotal = st.currentTotal + s.bytesRead := by
  obtain ⟨f, hf, -, hother⟩ := h
  obtain ⟨-, htotal, -⟩ := next_cells hf hn
  rw [htotal, hother _ hkey, sub_zero]

/-- A sample before anything was read changes nothing. -/
theorem OneCell.next_idle (h : OneCell st k) (hn : next (tally n) first st s = some st')
    (hcur : st.currentTotal = 0) (hs : s.bytesRead = 0) :
    OneCell st' k ∧ st'.currentTotal = 0 := by
  obtain ⟨f, hf, hk, hother⟩ := h
  obtain ⟨hf', htotal, -⟩ := next_cells hf hn
  have hzero : ∀ k', f k' = 0 := fun k' => by
    by_cases hk' : k' = k
    · rw [hk', hk, hcur]
    · exact hother k' hk'
  have htotal' : st'.currentTotal = 0 := by rw [htotal, hcur, hzero, hs]; rfl
  have hcells : ∀ k', Function.update f ((tally n).key s) s.bytesRead k' = 0 := fun k' => by
    rw [Function.update_apply]
    split_ifs
    · exact hs
    · exact hzero k'
  exact ⟨⟨_, hf', by rw [hcells, htotal'], fun k' _ => hcells k'⟩, htotal'⟩

/-! ## All iterations -/

/-- **One flow alone**: the total is the counter of the last sample. -/
theorem history_of_one (h : OneCell st k) (hfirst : first.bytesRead = 0)
    (hcur : 0 ≤ st.currentTotal) (hle : ∀ s ∈ rest, st.currentTotal ≤ s.bytesRead)
    (hsorted : rest.Pairwise fun x y => x.bytesRead ≤ y.bytesRead)
    (hone : ∀ s ∈ rest, 0 < s.bytesRead → (tally n).key s = k) :
    ∀ p ∈ history (tally n) first st rest, p.2 = p.1.bytesRead := by
  induction rest generalizing st with
  | nil => exact fun p hp => nomatch hp
  | cons s rest ih =>
    intro p hp
    cases hn : next (tally n) first st s with
    | none =>
      rw [history, hn] at hp
      cases hp
    | some mid =>
      have hs := hle s List.mem_cons_self
      -- the total is that of the sample
      have hmid : OneCell mid k ∧ mid.currentTotal = s.bytesRead := by
        rcases (hcur.trans hs).eq_or_lt with hzero | hpos
        · have hidle := h.next_idle hn (by omega) hzero.symm
          exact ⟨hidle.1, hidle.2.trans hzero⟩
        · exact h.next_self hn (hone s List.mem_cons_self hpos)
      obtain ⟨f, hf, -⟩ := h
      obtain ⟨-, -, hsum⟩ := next_cells hf hn
      rw [history_cons hn] at hp
      rcases List.mem_cons.mp hp with rfl | hp
      · show mid.sums.total = _
        rw [hsum, hmid.2, hfirst, sub_zero]
      · exact ih hmid.1 (by omega) (fun x hx => by
          rw [hmid.2]
          exact (List.pairwise_cons.mp hsorted).1 x hx) (List.pairwise_cons.mp hsorted).2
          (fun x hx => hone x (List.mem_cons_of_mem _ hx)) p hp

/-- **A second flow shows**: once a flow has read something, the total is
the counter of the last sample only as long as no other flow has one. -/
theorem key_eq_of_history (h : OneCell st k) (hfirst : first.bytesRead = 0)
    (hcur : 0 < st.currentTotal) (hpos : ∀ s ∈ rest, 0 < s.bytesRead)
    (hrun : rest.foldlM (next (tally n) first) st = some st')
    (hline : ∀ p ∈ history (tally n) first st rest, p.2 = p.1.bytesRead) :
    ∀ s ∈ rest, (tally n).key s = k := by
  induction rest generalizing st with
  | nil => exact fun s hs => nomatch hs
  | cons s rest ih =>
    obtain ⟨mid, hn, hrun⟩ := foldlM_cons_eq_some.mp hrun
    rw [history_cons hn] at hline
    have hkey : (tally n).key s = k := by
      by_contra hne
      have htotal := h.next_other hn hne
      obtain ⟨f, hf, -⟩ := h
      obtain ⟨-, -, hsum⟩ := next_cells hf hn
      have hs : mid.sums.total = s.bytesRead := hline _ List.mem_cons_self
      rw [hsum, hfirst, sub_zero, htotal, Int.cast_inj] at hs
      omega
    obtain ⟨hmid, htotal⟩ := h.next_self hn hkey
    intro x hx
    rcases List.mem_cons.mp hx with rfl | hx
    · exact hkey
    · exact ih hmid (by rw [htotal]; exact hpos s List.mem_cons_self)
        (fun y hy => hpos y (List.mem_cons_of_mem _ hy)) hrun
        (fun p hp => hline p (List.mem_cons_of_mem _ hp)) x hx

/-- **On a line there is one flow.** Where the totals are a multiple of
the counters, all samples with something read are of one flow. -/
theorem one_of_history (h : ∀ k, OneCell st k) (hfirst : first.bytesRead = 0)
    (hcur : st.currentTotal = 0) (hnonneg : ∀ s ∈ rest, 0 ≤ s.bytesRead)
    (hsorted : rest.Pairwise fun x y => x.bytesRead ≤ y.bytesRead)
    (hrun : rest.foldlM (next (tally n) first) st = some st')
    (hline : ∀ p ∈ history (tally n) first st rest, p.2 = a * p.1.bytesRead) :
    ∀ x ∈ rest, ∀ y ∈ rest, 0 < x.bytesRead → 0 < y.bytesRead →
      (tally n).key x = (tally n).key y := by
  induction rest generalizing st with
  | nil => exact fun x hx => nomatch hx
  | cons s rest ih =>
    obtain ⟨mid, hn, hrun⟩ := foldlM_cons_eq_some.mp hrun
    rw [history_cons hn] at hline
    obtain ⟨hhead, htail⟩ := List.pairwise_cons.mp hsorted
    rcases (hnonneg s List.mem_cons_self).eq_or_lt with hzero | hpos
    · -- nothing was read yet
      have hmid := fun k => (h k).next_idle hn hcur hzero.symm
      have hrest := ih (fun k => (hmid k).1) (hmid (0, 0)).2
        (fun x hx => hnonneg x (List.mem_cons_of_mem _ hx)) htail hrun
        fun p hp => hline p (List.mem_cons_of_mem _ hp)
      intro x hx y hy hxpos hypos
      rcases List.mem_cons.mp hx with rfl | hx
      · omega
      rcases List.mem_cons.mp hy with rfl | hy
      · omega
      exact hrest x hx y hy hxpos hypos
    · obtain ⟨hmid, htotal⟩ := (h ((tally n).key s)).next_self hn rfl
      obtain ⟨f, hf, -⟩ := h ((tally n).key s)
      obtain ⟨-, -, hsum⟩ := next_cells hf hn
      -- the multiple is 1
      have hs : mid.sums.total = a * s.bytesRead := hline _ List.mem_cons_self
      rw [hsum, hfirst, sub_zero, htotal] at hs
      have hne : (s.bytesRead : ℚ) ≠ 0 := by exact_mod_cast hpos.ne'
      have ha : a = 1 := mul_right_cancel₀ hne (by rw [← hs, one_mul])
      have hall := key_eq_of_history hmid hfirst (by omega)
        (fun x hx => hpos.trans_le (hhead x hx)) hrun fun p hp => by
          rw [hline p (List.mem_cons_of_mem _ hp), ha, one_mul]
      have hkey : ∀ x ∈ s :: rest, (tally n).key x = (tally n).key s := by
        intro x hx
        rcases List.mem_cons.mp hx with rfl | hx
        · rfl
        · exact hall x hx
      intro x hx y hy _ _
      rw [hkey x hx, hkey y hy]

/-! ## The coefficient -/

/-- Something was read exactly after the start. -/
theorem EqualPace.bytesRead_pos_iff (h : EqualPace arr rate t0) (hs : s ∈ arr) :
    0 < s.bytesRead ↔ t0 < s.time := by
  rw [← Int.cast_pos (R := ℚ), h.pace s hs, mul_pos_iff_of_pos_left h.rate_pos, sub_pos]

/-- Later samples have read as much, or more. -/
theorem EqualPace.bytesRead_le_iff (h : EqualPace arr rate t0) {x y : Sample} (hx : x ∈ arr)
    (hy : y ∈ arr) : x.bytesRead ≤ y.bytesRead ↔ x.time ≤ y.time := by
  rw [← Int.cast_le (R := ℚ), h.pace x hx, h.pace y hy, mul_le_mul_iff_right₀ h.rate_pos,
    sub_le_sub_iff_right]

/-- What a run makes of sorted samples of equal pace. -/
structure PacedRun (n : ℤ) (first : Sample) (rest : List Sample) (rate : ℚ) (st st' : Loop ℤ) :
    Prop where
  fold : rest.foldlM (next (tally n) first) st = some st'
  cells : ∀ k, OneCell st k
  total : st.currentTotal = 0
  zero : first.bytesRead = 0
  sorted : rest.Pairwise fun x y => x.bytesRead ≤ y.bytesRead
  nonneg : ∀ s ∈ rest, 0 ≤ s.bytesRead
  point : ∀ s ∈ rest, (s.bytesRead : ℚ) = rate * secondsBetween first.timestamp s.timestamp

theorem EqualPace.paced {ws : List ℕ} (h : EqualPace (first :: rest) rate t0)
    (hsorted : (first :: rest).Pairwise fun x y => compareSamples x y ≤ 0)
    (hstart : start (tally n) ws first = some st)
    (hfold : rest.foldlM (next (tally n) first) st = some st') :
    PacedRun n first rest rate st st' := by
  have ht0 : first.time = t0 := h.first first rfl
  have hzero : first.bytesRead = 0 := by
    have hpace := h.pace first List.mem_cons_self
    rw [ht0, sub_self, mul_zero] at hpace
    exact_mod_cast hpace
  obtain ⟨hhead, htail⟩ := List.pairwise_cons.mp hsorted
  have hmem : ∀ {s}, s ∈ rest → s ∈ first :: rest := fun hs => List.mem_cons_of_mem _ hs
  obtain ⟨hcells, htotal⟩ := start_cells hstart
  have hall : ∀ k,
      Function.update (fun _ => (0 : ℤ)) ((tally n).key first) first.bytesRead k = 0 := by
    intro k
    rw [Function.update_apply, hzero, ite_self]
  refine ⟨hfold, fun k => ⟨_, hcells, by rw [hall, htotal, hzero], fun k' _ => hall k'⟩,
    htotal.trans hzero, hzero, ?_, fun s hs => ?_, fun s hs => ?_⟩
  · refine htail.imp_of_mem fun hx hy hxy => ?_
    exact (h.bytesRead_le_iff (hmem hx) (hmem hy)).mpr (compareSamples_nonpos.mp hxy)
  · rw [← hzero]
    exact (h.bytesRead_le_iff List.mem_cons_self (hmem hs)).mpr
      (compareSamples_nonpos.mp (hhead s hs))
  · rw [h.pace s (hmem hs), secondsBetween_eq, ← ht0]
    rfl

variable {ws : List ℕ}

/-- The points of one flow are on the line of its rate. -/
theorem PacedRun.line (h : PacedRun n first rest rate st st')
    (hone : ∀ s ∈ rest, 0 < s.bytesRead → (tally n).key s = k) :
    ∀ p ∈ points (tally n) first st rest, p.2 = rate * p.1 := by
  intro p hp
  obtain ⟨⟨s, total⟩, hmem, rfl⟩ := List.mem_map.mp hp
  have htotal := history_of_one (h.cells k) h.zero h.total.ge
    (fun s hs => by rw [h.total]; exact h.nonneg s hs) h.sorted hone _ hmem
  have hs := List.mem_map_of_mem (f := Prod.fst) hmem
  rw [map_fst_history h.fold] at hs
  exact htotal.trans (h.point s hs)

/-- **Points on a line are those of one flow.** -/
theorem PacedRun.one (h : PacedRun n first rest rate st st') (hrate : rate ≠ 0) {c : ℚ}
    (hline : ∀ p ∈ points (tally n) first st rest, p.2 = c * p.1) :
    ∀ x ∈ rest, ∀ y ∈ rest, 0 < x.bytesRead → 0 < y.bytesRead →
      (tally n).key x = (tally n).key y := by
  refine one_of_history (a := c / rate) h.cells h.zero h.total h.nonneg h.sorted h.fold
    fun p hp => ?_
  have hs := List.mem_map_of_mem (f := Prod.fst) hp
  rw [map_fst_history h.fold] at hs
  have hpoint : p.2 = c * secondsBetween first.timestamp p.1.timestamp :=
    hline _ (List.mem_map_of_mem hp)
  rw [hpoint, h.point _ hs, ← mul_assoc, div_mul_cancel₀ _ hrate]

/-- Where the time that has passed is not 0, some sample is later than the
start. -/
theorem PacedRun.later (h : PacedRun n first rest rate st st')
    (hpace : EqualPace (first :: rest) rate t0) {p : ℚ × ℚ}
    (hp : p ∈ points (tally n) first st rest)
    (hne : p.1 ≠ 0) : ∃ s ∈ rest, t0 < s.time := by
  obtain ⟨s, hs, hdur⟩ := mem_points hp h.fold
  rw [hdur, secondsBetween_eq, sub_ne_zero] at hne
  have hle : first.time ≤ s.time :=
    (hpace.bytesRead_le_iff List.mem_cons_self (List.mem_cons_of_mem first hs)).mp
      (by rw [h.zero]; exact h.nonneg s hs)
  have ht0 : first.time = t0 := hpace.first first rfl
  exact ⟨s, hs, ht0 ▸ lt_of_le_of_ne hle hne.symm⟩

/-- The time that has passed at the end, where some sample is later than
the first one. -/
theorem duration_pos (hsorted : (first :: rest).Pairwise fun x y => compareSamples x y ≤ 0)
    (hrun : Loop.run (tally n) ws first rest = some st') (hs : s ∈ first :: rest)
    (hlater : first.time < s.time) : 0 < st'.sums.duration := by
  have hend := last_getLast (⟨.refl _, hsorted⟩ : Qsorted (first :: rest) (first :: rest))
  rw [run_duration hrun, secondsBetween_eq, sub_pos]
  exact hlater.trans_le (hend.2 s hs)

/-- **The coefficient of flows of equal pace is 1 exactly where all
samples later than the start are of one flow**, and there is one. -/
theorem correlation_eq_one_iff (threads : List (List Sample)) (arr : List Sample) (rate t0 : ℚ)
    (hsorted : arr.Pairwise fun x y => compareSamples x y ≤ 0) (htwo : 2 ≤ arr.length)
    (hpace : EqualPace arr rate t0) (stats : Stats)
    (h : calculateStreamStats threads arr = some stats) :
    stats.correlation.value = 1 ↔ ∃ s ∈ arr, t0 < s.time ∧ ∀ s' ∈ arr, t0 < s'.time →
      (tally threads.length).key s' = (tally threads.length).key s := by
  cases arr with
  | nil => exact absurd htwo (by decide)
  | cons first rest =>
    obtain ⟨st', hrun, rfl⟩ := calculateStreamStats_cons h
    obtain ⟨st, hstart, hfold, hxy, hxx, hyy, hlast⟩ := run_points hrun
    have hp := hpace.paced hsorted hstart hfold
    have ht0 : first.time = t0 := hpace.first first rfl
    -- the first sample is not later than the start
    have hrest : ∀ s ∈ first :: rest, t0 < s.time → s ∈ rest := by
      intro s hs hlater
      rcases List.mem_cons.mp hs with rfl | hs
      · exact absurd hlater ht0.le.not_gt
      · exact hs
    have hpos : ∀ s ∈ rest, 0 < s.bytesRead ↔ t0 < s.time := fun s hs =>
      hpace.bytesRead_pos_iff (List.mem_cons_of_mem _ hs)
    rw [Correlation.value_eq_one_iff, report_correlation]
    constructor
    · rintro ⟨hnum, hsq⟩
      by_cases hguard : st'.sums.duration = 0 ∨ st'.sums.total = 0
      · rw [if_pos hguard] at hnum
        exact absurd hnum (lt_irrefl _)
      rw [if_neg hguard] at hsq
      obtain ⟨hd, ht⟩ := not_or.mp hguard
      have hXx := (sums_pos hrun hd ht).1
      dsimp only at hsq
      rw [hxy, hxx, hyy] at hsq
      rw [hxx] at hXx
      -- the points are on a line
      have hline := (Origin.sq_sumXy_eq_iff hXx).mp hsq
      have hone := hp.one (c := Origin.sumXy (points (tally threads.length) first st rest) /
        Origin.sumXx (points (tally threads.length) first st rest)) hpace.rate_pos.ne'
        fun p hp => by rw [div_mul_eq_mul_div, eq_div_iff hXx.ne', hline p hp, mul_comm]
      obtain ⟨s, hs, hlater⟩ := hp.later hpace (hlast.resolve_left hd) hd
      exact ⟨s, List.mem_cons_of_mem _ hs, hlater, fun s' hs' hlater' =>
        hone s' (hrest s' hs' hlater') s hs ((hpos s' (hrest s' hs' hlater')).mpr hlater')
          ((hpos s hs).mpr hlater)⟩
    · rintro ⟨s, hs, hlater, hkeys⟩
      have hline := hp.line (k := (tally threads.length).key s) fun x hx hxpos =>
        hkeys x (List.mem_cons_of_mem _ hx) ((hpos x hx).mp hxpos)
      have hd := (duration_pos hsorted hrun hs (ht0 ▸ hlater)).ne'
      have htotal : st'.sums.total = rate * st'.sums.duration := hline _ (hlast.resolve_left hd)
      have hguard : ¬ (st'.sums.duration = 0 ∨ st'.sums.total = 0) := by
        rw [not_or, htotal]
        exact ⟨hd, mul_ne_zero hpace.rate_pos.ne' hd⟩
      have hXx := (sums_pos hrun hd (not_or.mp hguard).2).1
      obtain ⟨hlxy, hlyy⟩ := Origin.sums_of_line hline
      rw [hxx] at hXx
      rw [if_neg hguard]
      dsimp only
      rw [hxy, hxx, hyy, hlxy, hlyy]
      exact ⟨mul_pos hpace.rate_pos hXx, by ring⟩

/-- Two flows, sampled in turn, that both read one byte a second. -/
def twoFlows : List Sample :=
  [.atSecond 0 0 0 0 0, .atSecond 0 1 1 0 1, .atSecond 0 0 2 0 2, .atSecond 0 1 3 0 3]

/-- One of them alone. -/
def oneFlow : List Sample := [.atSecond 0 0 0 0 0, .atSecond 0 0 2 0 2]

theorem equalPace_oneFlow : EqualPace oneFlow 1 0 := by
  refine ⟨one_pos, ?_, ?_⟩
  · simp [oneFlow, Sample.atSecond, Sample.time, Timespec.seconds_atSecond]
  · simp [oneFlow, Sample.atSecond, Sample.time, Timespec.seconds_atSecond]

theorem equalPace_twoFlows : EqualPace twoFlows 1 0 := by
  refine ⟨one_pos, ?_, ?_⟩
  · simp [twoFlows, Sample.atSecond, Sample.time, Timespec.seconds_atSecond]
  · simp [twoFlows, Sample.atSecond, Sample.time, Timespec.seconds_atSecond]

theorem correlation_eq_one_iff_oneFlow : ∃ stats,
    calculateStreamStats [oneFlow] oneFlow = some stats ∧ (stats.correlation.value = 1 ↔
      ∃ s ∈ oneFlow, 0 < s.time ∧ ∀ s' ∈ oneFlow, 0 < s'.time →
        (tally 1).key s' = (tally 1).key s) := by
  obtain ⟨stats, hstats⟩ : ∃ stats, calculateStreamStats [oneFlow] oneFlow = some stats :=
    Option.isSome_iff_exists.mp (by decide)
  exact ⟨stats, hstats, correlation_eq_one_iff [oneFlow] oneFlow 1 0 (by decide) (by decide)
    equalPace_oneFlow stats hstats⟩

/-- **Two flows of equal pace** do not have the coefficient 1: their
points are `(1, 1)`, `(2, 3)` and `(3, 5)`. -/
theorem correlation_not_one : ¬ ∀ (threads : List (List Sample)) (arr : List Sample) (rate t0 : ℚ),
    Qsorted threads.flatten arr → 2 ≤ arr.length → EqualPace arr rate t0 → ∀ stats,
      calculateStreamStats threads arr = some stats → stats.correlation.value = 1 := by
  intro h
  have hq : Qsorted [twoFlows].flatten twoFlows := ⟨.refl _, by decide⟩
  obtain ⟨stats, hstats⟩ : ∃ stats, calculateStreamStats [twoFlows] twoFlows = some stats :=
    Option.isSome_iff_exists.mp (by decide)
  have hvalue := h [twoFlows] twoFlows 1 0 hq (by decide) equalPace_twoFlows stats hstats
  have hpair : (calculateStreamStats [twoFlows] twoFlows).map Stats.correlation =
      some ⟨22, 490⟩ := by decide +kernel
  rw [hstats, Option.map_some, Option.some.injEq] at hpair
  rw [hpair, Correlation.value_eq_one_iff] at hvalue
  norm_num at hvalue

end Stream

end Rushit
