import Mathlib.Data.List.Sort
import Mathlib.Algebra.Order.Field.Rat
import Mathlib.Tactic.Linarith
import Mathlib.Tactic.NormNum
import Mathlib.Tactic.Ring
import Rushit.Sample.Numlist
/-!
# Samples

`sample.c`: a sample is what a flow had done at one instant. The samples
of all threads are sorted by `compare_samples` before they are reported.
`qsort` may leave samples of one timestamp in any order, so what it
returns is a relation (`Qsorted`).

The time in seconds is a rational number, so that the arithmetic on it
is exact. The `rusage` of a sample is left out, since it is printed only.
-/

namespace Rushit

/-- `struct timespec`, normalised. -/
structure Timespec where
  sec : ℤ
  nsec : ℕ
  nsec_lt : nsec < 1000000000
  deriving DecidableEq

/-- A full second. -/
def Timespec.atSecond (sec : ℤ) : Timespec := ⟨sec, 0, by decide⟩

/-- `to_seconds` -/
def Timespec.seconds (a : Timespec) : ℚ := a.sec + a.nsec / 1000000000

/-- `seconds_between` -/
def secondsBetween (a b : Timespec) : ℚ :=
  ((b.sec - a.sec : ℤ) : ℚ) + ((b.nsec - a.nsec : ℤ) : ℚ) / 1000000000

/-- `struct sample`. Flows are numbered from 0 on by `run_client` and by
`next_flow_id`. -/
structure Sample where
  tid : ℤ
  flowId : ℕ
  /-- Count of bytes read. -/
  bytesRead : ℤ
  /-- Count of reads (client) or writes (server). -/
  transactions : ℕ
  /-- Time from write to read for each transaction. -/
  latency : Numlist ℚ
  timestamp : Timespec

/-- A sample taken at a full second, with no latencies. -/
def Sample.atSecond (tid : ℤ) (flowId : ℕ) (bytesRead : ℤ) (transactions : ℕ) (sec : ℤ) :
    Sample :=
  ⟨tid, flowId, bytesRead, transactions, .create, .atSecond sec⟩

/-- The time of a sample. -/
def Sample.time (s : Sample) : ℚ := s.timestamp.seconds

/-- `compare_samples` -/
def compareSamples (x y : Sample) : ℤ :=
  if x.timestamp.sec < y.timestamp.sec then -1
  else if x.timestamp.sec > y.timestamp.sec then 1
  else if x.timestamp.nsec < y.timestamp.nsec then -1
  else if x.timestamp.nsec > y.timestamp.nsec then 1
  else 0

/-- **What `qsort` may return** for the samples. -/
structure Qsorted (samples sorted : List Sample) : Prop where
  perm : sorted.Perm samples
  sorted : sorted.Pairwise fun x y => compareSamples x y ≤ 0

/-- No sample is earlier. -/
def Earliest (samples : List Sample) (s : Sample) : Prop :=
  s ∈ samples ∧ ∀ x ∈ samples, s.time ≤ x.time

/-- No sample is later. -/
def Last (samples : List Sample) (s : Sample) : Prop :=
  s ∈ samples ∧ ∀ x ∈ samples, x.time ≤ s.time

/-- All samples have one timestamp. -/
def OneInstant (samples : List Sample) : Prop :=
  ∀ x ∈ samples, ∀ y ∈ samples, x.timestamp = y.timestamp

variable {a b : Timespec} {x y first : Sample} {samples sorted sorted' rest : List Sample}

theorem Timespec.seconds_atSecond (sec : ℤ) : (Timespec.atSecond sec).seconds = sec := by
  simp [Timespec.seconds, Timespec.atSecond]

theorem secondsBetween_eq (a b : Timespec) : secondsBetween a b = b.seconds - a.seconds := by
  simp only [secondsBetween, Timespec.seconds]
  push_cast
  ring

/-- Seconds decide before nanoseconds do. -/
theorem Timespec.seconds_le_iff :
    a.seconds ≤ b.seconds ↔ a.sec < b.sec ∨ (a.sec = b.sec ∧ a.nsec ≤ b.nsec) := by
  -- in whole nanoseconds
  have key : a.seconds ≤ b.seconds ↔
      a.sec * 1000000000 + a.nsec ≤ b.sec * 1000000000 + (b.nsec : ℤ) := by
    have hcast : ∀ t : Timespec,
        t.seconds = ((t.sec * 1000000000 + t.nsec : ℤ) : ℚ) / 1000000000 := by
      intro t
      simp only [Timespec.seconds]
      push_cast
      ring
    rw [hcast, hcast, div_le_div_iff_of_pos_right (by norm_num), Int.cast_le]
  have ha := a.nsec_lt
  have hb := b.nsec_lt
  rw [key]
  omega

/-- Different timestamps are different instants. -/
theorem Timespec.seconds_injective : Function.Injective Timespec.seconds := by
  intro a b h
  have hab := Timespec.seconds_le_iff.mp h.le
  have hba := Timespec.seconds_le_iff.mp h.ge
  obtain ⟨sa, na, ha⟩ := a
  obtain ⟨sb, nb, hb⟩ := b
  have hs : sa = sb := by simp only at hab hba; omega
  have hn : na = nb := by simp only at hab hba; omega
  subst hs hn
  rfl

/-- `compare_samples` compares the instants. -/
theorem compareSamples_nonpos : compareSamples x y ≤ 0 ↔ x.time ≤ y.time := by
  rw [Sample.time, Sample.time, Timespec.seconds_le_iff]
  unfold compareSamples
  split_ifs <;> omega

theorem Qsorted.times (h : Qsorted samples sorted) :
    sorted.Pairwise fun x y => x.time ≤ y.time :=
  h.sorted.imp fun hxy => compareSamples_nonpos.mp hxy

/-- `qsort` has something to return. -/
theorem exists_qsorted (samples : List Sample) : ∃ sorted, Qsorted samples sorted := by
  let le : Sample → Sample → Bool := fun x y => decide (x.time ≤ y.time)
  refine ⟨samples.mergeSort le, samples.mergeSort_perm le, ?_⟩
  have hsort : (samples.mergeSort le).Pairwise fun x y => le x y :=
    List.pairwise_mergeSort
      (fun x y z hxy hyz => by simp only [le, decide_eq_true_eq] at *; exact hxy.trans hyz)
      (fun x y => by simp only [le, Bool.or_eq_true, decide_eq_true_eq]; exact le_total _ _) samples
  exact hsort.imp fun hxy => compareSamples_nonpos.mpr (by simpa [le] using hxy)

/-- The first of the sorted samples is among the earliest. -/
theorem Qsorted.head_le (h : Qsorted samples (x :: sorted)) (hy : y ∈ samples) :
    x.time ≤ y.time := by
  rcases List.mem_cons.mp (h.perm.mem_iff.mpr hy) with rfl | hy
  · exact le_rfl
  · exact (List.pairwise_cons.mp h.times).1 y hy

/-- The sorted samples begin with the earliest and end with the latest. -/
theorem earliest_head (hq : Qsorted samples (first :: rest)) : Earliest samples first :=
  ⟨hq.perm.mem_iff.mp (by simp), fun _ hx => hq.head_le hx⟩

theorem last_getLast (hq : Qsorted samples (first :: rest)) :
    Last samples ((first :: rest).getLast (List.cons_ne_nil _ _)) := by
  refine ⟨hq.perm.mem_iff.mp (List.getLast_mem _), fun x hx => ?_⟩
  have hx := hq.perm.mem_iff.mpr hx
  have htimes := hq.times
  obtain ⟨init, l, hl⟩ : ∃ init l, first :: rest = init ++ [l] :=
    ⟨_, _, (List.dropLast_append_getLast (List.cons_ne_nil _ _)).symm⟩
  simp only [hl, List.getLast_append_singleton] at hx htimes ⊢
  rcases List.mem_append.mp hx with hx | hx
  · exact (List.pairwise_append.mp htimes).2.2 x hx l (by simp)
  · rw [List.mem_singleton.mp hx]

/-- **The span decides** whether all samples are of one instant. -/
theorem oneInstant_iff (hx : Earliest samples x) (hy : Last samples y) :
    OneInstant samples ↔ y.time = x.time := by
  constructor
  · intro h
    exact congrArg Timespec.seconds (h y hy.1 x hx.1)
  · intro h u hu v hv
    -- every sample lies between the two
    have hfirst : ∀ w ∈ samples, w.time = x.time := fun w hw =>
      le_antisymm ((hy.2 w hw).trans h.le) (hx.2 w hw)
    exact Timespec.seconds_injective ((hfirst u hu).trans (hfirst v hv).symm)

/-- Two earliest samples are of one instant. -/
theorem Earliest.time_eq (hx : Earliest samples x) (hy : Earliest samples y) : x.time = y.time :=
  le_antisymm (hx.2 y hy.1) (hy.2 x hx.1)

/-- **With distinct timestamps there is one order.** -/
theorem Qsorted.unique (hdist : (samples.map Sample.timestamp).Nodup)
    (h : Qsorted samples sorted) (h' : Qsorted samples sorted') : sorted = sorted' := by
  refine (h.perm.trans h'.perm.symm).eq_of_pairwise ?_ h.times h'.times
  intro x y hx hy hxy hyx
  have hts : x.timestamp = y.timestamp := Timespec.seconds_injective (le_antisymm hxy hyx)
  exact List.inj_on_of_nodup_map hdist (h.perm.mem_iff.mp hx) (h'.perm.mem_iff.mp hy) hts

end Rushit
