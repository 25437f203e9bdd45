import Rushit.Stream.Stats
/-!
# Samples with one timestamp

`qsort` is not stable, so samples of one timestamp may come in any
order. The total over all flows does not depend on it, but what is
subtracted is the counter of whichever sample comes first. So the
throughput is the same for all orders where the earliest samples agree
on that counter, and where they do not it is the same only if no time
has passed (`throughput_of_ties`).

Flows are told apart by row and number.
-/

namespace Rushit

namespace Stream

/-- The throughput that is reported. -/
def throughput (threads : List (List Sample)) (arr : List Sample) : Option ℚ :=
  (calculateStreamStats threads arr).map Stats.throughput

/-- The samples at the earliest timestamp have read the same number of
bytes. -/
def FirstAgree (samples : List Sample) : Prop :=
  ∀ x y, Earliest samples x → Earliest samples y → x.bytesRead = y.bytesRead

variable {threads : List (List Sample)} {samples arr a b rest : List Sample} {first x y l : Sample}

/-- An earliest sample may come first. -/
theorem exists_qsorted_first (h : Earliest samples x) : ∃ rest, Qsorted samples (x :: rest) := by
  obtain ⟨before, after, rfl⟩ := List.append_of_mem h.1
  obtain ⟨rest, hperm, hsorted⟩ := exists_qsorted (before ++ after)
  have hall : (x :: rest).Perm (before ++ x :: after) :=
    (hperm.cons x).trans List.perm_middle.symm
  refine ⟨rest, hall, List.pairwise_cons.mpr ⟨fun y hy => ?_, hsorted⟩⟩
  exact compareSamples_nonpos.mpr (h.2 y (hall.mem_iff.mp (List.mem_cons_of_mem x hy)))

/-- **What the throughput depends on**: the first sample, and the instant
of the last. -/
theorem throughput_eq (hdist : (tally threads.length).Distinct (collectSamples threads))
    (hin : ∀ s ∈ collectSamples threads,
      Grid.InBounds (rowWidths threads) ((tally threads.length).row s) s.flowId)
    (hq : Qsorted (collectSamples threads) (first :: rest)) (hl : Last (collectSamples threads) l) :
    throughput threads (first :: rest) = some
      (((tally threads.length).total (collectSamples threads) - first.bytesRead : ℤ) /
        (l.time - first.time)) := by
  have hend := last_getLast hq
  have htime : ((first :: rest).getLast (List.cons_ne_nil _ _)).time = l.time :=
    le_antisymm (hl.2 _ hend.1) (hend.2 _ hl.1)
  have hdur : ((tally threads.length).sums first rest).duration = l.time - first.time := by
    rw [Tally.sums_duration, secondsBetween_eq, ← htime]
    rfl
  have htotal := sums_total threads.length first rest
  rw [hdist.total_perm hq.perm] at htotal
  rw [throughput, calculateStreamStats_eq hdist hq hin, Option.map_some, summary, report]
  dsimp only
  rw [hdur, htotal]
  congr 1
  split
  · -- a 0 is reported where there is nothing to divide, which is what division gives
    next h =>
    rcases h with h | h
    · rw [h, div_zero]
    · rw [h, zero_div]
  · rfl

/-- Without a result there is no throughput, whatever the order. -/
theorem throughput_eq_none (hin : ¬ ∀ s ∈ collectSamples threads,
      Grid.InBounds (rowWidths threads) ((tally threads.length).row s) s.flowId)
    (hq : Qsorted (collectSamples threads) arr) : throughput threads arr = none := by
  have h := mt (calculateStreamStats_isSome_iff hq).mp hin
  rw [Option.not_isSome_iff_eq_none] at h
  rw [throughput, h]
  rfl

/-- Where it does not matter which of the earliest samples comes first,
the order does not matter. -/
theorem throughput_eq_of_agree
    (hdist : (tally threads.length).Distinct (collectSamples threads))
    (hcond : FirstAgree (collectSamples threads) ∨ OneInstant (collectSamples threads))
    (ha : Qsorted (collectSamples threads) a) (hb : Qsorted (collectSamples threads) b) :
    throughput threads a = throughput threads b := by
  by_cases hin : ∀ s ∈ collectSamples threads,
      Grid.InBounds (rowWidths threads) ((tally threads.length).row s) s.flowId
  · cases a with
    | nil =>
      have hnil : b = [] := List.perm_nil.mp (hb.perm.trans ha.perm.symm)
      rw [hnil]
    | cons x resta =>
      cases b with
      | nil => exact absurd (ha.perm.trans hb.perm.symm) (by simp)
      | cons y restb =>
        have hx := earliest_head ha
        have hy := earliest_head hb
        have hl := last_getLast ha
        -- only the first sample can differ
        rw [throughput_eq hdist hin ha hl, throughput_eq hdist hin hb hl, hx.time_eq hy]
        rcases hcond with hagree | hone
        · rw [hagree x y hx hy]
        · -- no time has passed, so that both are 0
          have hzero : ((x :: resta).getLast (List.cons_ne_nil _ _)).time - y.time = 0 :=
            sub_eq_zero.mpr ((oneInstant_iff hy hl).mp hone)
          rw [hzero, div_zero, div_zero]
  · rw [throughput_eq_none hin ha, throughput_eq_none hin hb]

/-- Where it does matter, and time has passed, two orders differ. -/
theorem exists_throughput_ne
    (hdist : (tally threads.length).Distinct (collectSamples threads))
    (hin : ∀ s ∈ collectSamples threads,
      Grid.InBounds (rowWidths threads) ((tally threads.length).row s) s.flowId)
    (hagree : ¬ FirstAgree (collectSamples threads))
    (hone : ¬ OneInstant (collectSamples threads)) :
    ∃ a b, Qsorted (collectSamples threads) a ∧ Qsorted (collectSamples threads) b ∧
      throughput threads a ≠ throughput threads b := by
  obtain ⟨x, y, hx, hy, hne⟩ : ∃ x y, Earliest (collectSamples threads) x ∧
      Earliest (collectSamples threads) y ∧ x.bytesRead ≠ y.bytesRead := by
    simpa [FirstAgree] using hagree
  obtain ⟨resta, ha⟩ := exists_qsorted_first hx
  obtain ⟨restb, hb⟩ := exists_qsorted_first hy
  refine ⟨_, _, ha, hb, fun heq => hne ?_⟩
  have hl := last_getLast ha
  rw [throughput_eq hdist hin ha hl, throughput_eq hdist hin hb hl, hx.time_eq hy] at heq
  have hpos : ((x :: resta).getLast (List.cons_ne_nil _ _)).time - y.time ≠ 0 := fun hzero =>
    hone ((oneInstant_iff hy hl).mpr (sub_eq_zero.mp hzero))
  have hnum := (div_left_inj' hpos).mp (Option.some.inj heq)
  have hint := Int.cast_injective (α := ℚ) hnum
  omega

/-- **Ties.** The throughput is the same for every order that `qsort` may
choose if the earliest samples have read the same number of bytes, or
all samples are of one instant; otherwise two orders give different
throughputs, where every access is in bounds. -/
theorem throughput_of_ties (hdist : (tally threads.length).Distinct (collectSamples threads)) :
    (FirstAgree (collectSamples threads) ∨ OneInstant (collectSamples threads) →
      ∀ a b, Qsorted (collectSamples threads) a → Qsorted (collectSamples threads) b →
        throughput threads a = throughput threads b) ∧
    ((∀ s ∈ collectSamples threads,
        Grid.InBounds (rowWidths threads) ((tally threads.length).row s) s.flowId) →
      ¬ (FirstAgree (collectSamples threads) ∨ OneInstant (collectSamples threads)) →
      ∃ a b, Qsorted (collectSamples threads) a ∧ Qsorted (collectSamples threads) b ∧
        throughput threads a ≠ throughput threads b) := by
  constructor
  · exact fun hcond a b ha hb => throughput_eq_of_agree hdist hcond ha hb
  · intro hin hcond
    rw [not_or] at hcond
    exact exists_throughput_ne hdist hin hcond.1 hcond.2

/-- Three flows, two of which have a sample at the first instant. -/
def tied : List (List Sample) :=
  [[.atSecond 0 0 30 0 2, .atSecond 0 0 10 0 1], [.atSecond 1 0 50 0 3, .atSecond 1 1 10 0 1]]

/-- They come first, in either order, and have read as much. -/
theorem throughput_of_ties_tied :
    throughput tied [.atSecond 0 0 10 0 1, .atSecond 1 1 10 0 1, .atSecond 0 0 30 0 2,
        .atSecond 1 0 50 0 3] =
      throughput tied [.atSecond 1 1 10 0 1, .atSecond 0 0 10 0 1, .atSecond 0 0 30 0 2,
        .atSecond 1 0 50 0 3] := by
  have hdist : (tally tied.length).Distinct (collectSamples tied) := by
    unfold Tally.Distinct Latest.Distinct
    decide +kernel
  have hten : ∀ x, Earliest (collectSamples tied) x → x.bytesRead = 10 := by
    rintro x ⟨hx, hle⟩
    have hone := hle (.atSecond 0 0 10 0 1) (by simp [collectSamples, tied])
    simp only [collectSamples, tied, List.flatten_cons, List.flatten_nil, List.append_nil,
      List.cons_append, List.nil_append, List.mem_cons, List.not_mem_nil, or_false] at hx
    rcases hx with rfl | rfl | rfl | rfl
    · norm_num [Sample.atSecond, Sample.time, Timespec.seconds_atSecond] at hone
    · rfl
    · norm_num [Sample.atSecond, Sample.time, Timespec.seconds_atSecond] at hone
    · rfl
  have hqsorted : Qsorted (collectSamples tied) [.atSecond 0 0 10 0 1, .atSecond 1 1 10 0 1,
      .atSecond 0 0 30 0 2, .atSecond 1 0 50 0 3] :=
    ⟨.trans (.trans (.cons _ (.swap _ _ _)) (.swap _ _ _)) (.cons _ (.cons _ (.swap _ _ _))),
      by decide⟩
  exact (throughput_of_ties hdist).1
    (.inl fun x y hx hy => (hten x hx).trans (hten y hy).symm) _ _ hqsorted
    ⟨.trans (.swap _ _ _) hqsorted.perm, by decide⟩

/-- **Two orders of the same samples**: one flow had read 10 bytes when
the other had read 20. -/
theorem tie_decides : ¬ ∀ (threads : List (List Sample)) (a b : List Sample),
    (tally threads.length).Distinct (collectSamples threads) →
    Qsorted (collectSamples threads) a → Qsorted (collectSamples threads) b →
    throughput threads a = throughput threads b := by
  intro h
  have hdist : (tally 2).Distinct
      (collectSamples [[.atSecond 0 0 10 0 1, .atSecond 0 0 30 0 2], [.atSecond 1 0 20 0 1]]) := by
    unfold Tally.Distinct Latest.Distinct
    decide +kernel
  have ha : Qsorted
      (collectSamples [[.atSecond 0 0 10 0 1, .atSecond 0 0 30 0 2], [.atSecond 1 0 20 0 1]])
      [.atSecond 0 0 10 0 1, .atSecond 1 0 20 0 1, .atSecond 0 0 30 0 2] :=
    ⟨.cons _ (.swap _ _ _), by decide⟩
  have hb : Qsorted
      (collectSamples [[.atSecond 0 0 10 0 1, .atSecond 0 0 30 0 2], [.atSecond 1 0 20 0 1]])
      [.atSecond 1 0 20 0 1, .atSecond 0 0 10 0 1, .atSecond 0 0 30 0 2] :=
    ⟨(List.Perm.swap _ _ _).trans (.cons _ (.swap _ _ _)), by decide⟩
  have heq := h [[.atSecond 0 0 10 0 1, .atSecond 0 0 30 0 2], [.atSecond 1 0 20 0 1]] _ _ hdist
    ha hb
  exact absurd heq (by decide +kernel)

end Stream

end Rushit
