import Mathlib.Tactic.Linarith
import Mathlib.Tactic.NormNum
import Mathlib.Tactic.Positivity
import Rushit.Interval.Model
/-!
# The grid of the samples

With an interval of whole nanoseconds nothing is rounded: the next
`last_time` is the last one and a whole number of intervals
(`getNextTime_eq`), in which the reading of the clock lies. So every
`last_time` stays a whole number of intervals after `time_start`, which
is set once, and no flow has two samples in one cell of that grid
(`on_grid`).
-/

namespace Rushit

namespace Interval

/-- The time of so many nanoseconds. -/
def Time.ofNs (n : ℤ) : Time := ⟨n / 1000000000, n % 1000000000⟩

/-- The interval in seconds. -/
def inSeconds (nanoseconds : ℕ) : ℚ := nanoseconds / 1000000000

/-- The cell of the grid that a time lies in. -/
def cell (I : ℕ) (timeStart ts : Time) : ℤ := (ts.ns - timeStart.ns) / I

variable {I : ℕ} {now lastTime timeStart ts : Time} {n : ℤ}

/-! ## Nanoseconds -/

@[simp] theorem ns_ofNs : (Time.ofNs n).ns = n := by
  simp only [Time.ofNs, Time.ns]
  omega

theorem valid_ofNs (hn : 0 < n) : (Time.ofNs n).Valid where
  nonneg := Int.emod_nonneg n (by decide)
  lt := Int.emod_lt_of_pos n (by decide)
  pos := by rwa [ns_ofNs]

theorem isUninitialized_iff : isUninitialized ts = true ↔ ts = uninitialized := by
  obtain ⟨sec, nsec⟩ := ts
  simp [isUninitialized, uninitialized]

/-- A valid time is not taken for one that is not initialised. -/
theorem Time.Valid.initialized (h : ts.Valid) : isUninitialized ts = false := by
  have hpos := h.pos
  by_contra hne
  rw [Bool.not_eq_false, isUninitialized_iff] at hne
  rw [hne] at hpos
  exact lt_irrefl 0 hpos

theorem toSeconds_eq (a : Time) : toSeconds a = (a.ns : ℚ) / 1000000000 := by
  simp only [toSeconds, Time.ns]
  push_cast
  ring

theorem secondsBetween_eq (a b : Time) :
    secondsBetween a b = ((b.ns - a.ns : ℤ) : ℚ) / 1000000000 := by
  simp only [secondsBetween, Time.ns]
  push_cast
  ring

theorem intPart_of_nonneg {x : ℚ} (hx : 0 ≤ x) : intPart x = ⌊x⌋ := if_pos hx

/-- The quotient of two durations, rounded down, is that of the
nanoseconds. -/
theorem floor_div_inSeconds (n : ℤ) (I : ℕ) :
    ⌊(n : ℚ) / 1000000000 / inSeconds I⌋ = n / I := by
  rw [inSeconds, div_div_div_cancel_right₀ (by norm_num)]
  exact Rat.floor_intCast_div_natCast n I

/-- **The split into seconds and nanoseconds is exact.** -/
theorem split_exact (hn : 0 ≤ n) :
    (⟨intPart ((n : ℚ) / 1000000000),
      intPart (((n : ℚ) / 1000000000 - intPart ((n : ℚ) / 1000000000)) * 1000000000)⟩ : Time) =
      Time.ofNs n := by
  have hnonneg : (0 : ℚ) ≤ (n : ℚ) / 1000000000 := by positivity
  have hsec : intPart ((n : ℚ) / 1000000000) = n / 1000000000 := by
    rw [intPart_of_nonneg hnonneg]
    exact_mod_cast Rat.floor_intCast_div_natCast n 1000000000
  have hfrac : ((n : ℚ) / 1000000000 - (n / 1000000000 : ℤ)) * 1000000000 =
      ((n % 1000000000 : ℤ) : ℚ) := by
    have hsplit : (n : ℚ) = (1000000000 * (n / 1000000000) + n % 1000000000 : ℤ) := by
      exact_mod_cast (Int.mul_ediv_add_emod n 1000000000).symm
    rw [sub_mul, div_mul_cancel₀ _ (by norm_num : (1000000000 : ℚ) ≠ 0)]
    nth_rewrite 1 [hsplit]
    push_cast
    ring
  have hmod : (0 : ℚ) ≤ ((n % 1000000000 : ℤ) : ℚ) := by
    exact_mod_cast Int.emod_nonneg n (by decide)
  rw [hsec, hfrac, intPart_of_nonneg hmod, Int.floor_intCast, Time.ofNs]

/-- **The next `last_time`** is a whole number of intervals later. -/
theorem getNextTime_eq (hI : 0 < I) (hlast : 0 ≤ lastTime.ns) (hle : lastTime.ns ≤ now.ns) :
    getNextTime (inSeconds I) (secondsBetween lastTime now) lastTime =
      Time.ofNs (lastTime.ns + (now.ns - lastTime.ns) / I * I) := by
  have hk : 0 ≤ (now.ns - lastTime.ns) / (I : ℤ) :=
    Int.ediv_nonneg (by omega) (Int.natCast_nonneg I)
  have hnonneg : 0 ≤ lastTime.ns + (now.ns - lastTime.ns) / I * I := by positivity
  have htime : toSeconds lastTime +
      ⌊secondsBetween lastTime now / inSeconds I⌋ * inSeconds I =
      ((lastTime.ns + (now.ns - lastTime.ns) / I * I : ℤ) : ℚ) / 1000000000 := by
    rw [toSeconds_eq, secondsBetween_eq, floor_div_inSeconds, inSeconds]
    push_cast
    ring
  rw [getNextTime, htime]
  exact split_exact hnonneg

/-- **When a sample is due**: the interval is over. -/
theorem collect_eq (hI : 0 < I) (hlast : 0 ≤ lastTime.ns) :
    collect (inSeconds I) now lastTime =
      if now.ns < lastTime.ns + I then (false, lastTime)
      else (true, Time.ofNs (lastTime.ns + (now.ns - lastTime.ns) / I * I)) := by
  have hdue : secondsBetween lastTime now < inSeconds I ↔ now.ns < lastTime.ns + I := by
    rw [secondsBetween_eq, inSeconds, div_lt_div_iff_of_pos_right (by norm_num)]
    constructor
    · intro h
      have h : now.ns - lastTime.ns < (I : ℤ) := by exact_mod_cast h
      omega
    · intro h
      have h : now.ns - lastTime.ns < (I : ℤ) := by omega
      exact_mod_cast h
  unfold collect
  by_cases hnow : now.ns < lastTime.ns + I
  · rw [if_pos hnow, if_pos (hdue.mpr hnow)]
  · rw [if_neg hnow, if_neg (mt hdue.mp hnow), getNextTime_eq hI hlast (by omega)]

/-! ## The invariant -/

/-- **A flow on the grid**: it is not initialised and has no sample, or
its `last_time` begins a cell and no sample is in a later one, nor two in
one. -/
def FlowOnGrid (I : ℕ) (timeStart lastTime : Time) (samples : List Time) : Prop :=
  (lastTime = uninitialized ∧ samples = []) ∨
    (timeStart.Valid ∧ lastTime.Valid ∧ ∃ k : ℤ, lastTime.ns = timeStart.ns + k * I ∧
      (samples.map (cell I timeStart)).Pairwise (· > ·) ∧ ∀ x ∈ samples, cell I timeStart x ≤ k)

/-- What holds of a thread between any two steps. -/
structure ThreadOnGrid (I : ℕ) (timeStart : Time) (t : Thread) : Prop where
  flows : ∀ j lastTime, t.lastTime j = some lastTime →
    FlowOnGrid I timeStart lastTime (t.samples j)
  absent : ∀ j, t.lastTime j = none → t.samples j = []
  clockRead : ∀ j now, t.stage = .clockRead j now → now.Valid
  started : ∀ j now, t.stage = .started j now → now.Valid ∧ timeStart.Valid

/-- What holds between any two steps. -/
structure OnGrid (I : ℕ) (s : State) : Prop where
  timeStart : s.timeStart = uninitialized ∨ s.timeStart.Valid
  threads : ∀ i, ThreadOnGrid I s.timeStart (s.threads i)

variable {samples : List Time} {s s' : State} {t : Thread} {i j : ℕ} {l : Label}
variable {ls : List Label}

theorem not_valid_uninitialized : ¬ uninitialized.Valid := fun h => lt_irrefl 0 h.pos

theorem setTimeStart_cases (now lastTime timeStart : Time) :
    setTimeStart now lastTime timeStart = timeStart ∨
      (timeStart = uninitialized ∧ lastTime = uninitialized ∧
        setTimeStart now lastTime timeStart = now) := by
  unfold setTimeStart
  split_ifs with hlast hstart
  · exact .inr ⟨isUninitialized_iff.mp hstart, isUninitialized_iff.mp hlast, rfl⟩
  · exact .inl rfl
  · exact .inl rfl

/-- Before `time_start` is set, no flow is initialised, nor is it after
another thread has set it. -/
theorem ThreadOnGrid.timeStart_set (h : ThreadOnGrid I uninitialized t) (ts : Time) :
    ThreadOnGrid I ts t where
  flows j lastTime hj := (h.flows j lastTime hj).imp id fun hk =>
    absurd hk.1 not_valid_uninitialized
  absent := h.absent
  clockRead := h.clockRead
  started j now hst := absurd (h.started j now hst).2 not_valid_uninitialized

/-- Where the critical section is passed, the flow is initialised. -/
theorem FlowOnGrid.initialized (h : FlowOnGrid I timeStart lastTime samples)
    (hstart : timeStart.Valid) :
    (setLastTime timeStart lastTime).Valid ∧
      FlowOnGrid I timeStart (setLastTime timeStart lastTime) samples := by
  rcases h with ⟨rfl, rfl⟩ | ⟨-, hlast, hk⟩
  · have hset : setLastTime timeStart uninitialized = timeStart := by
      simp [setLastTime, isUninitialized, uninitialized]
    rw [hset]
    exact ⟨hstart, .inr ⟨hstart, hstart, 0, by simp, .nil, nofun⟩⟩
  · have hsame : setLastTime timeStart lastTime = lastTime := by
      simp [setLastTime, hlast.initialized]
    rw [hsame]
    exact ⟨hlast, .inr ⟨hstart, hlast, hk⟩⟩

/-- **A sample that is due** lies in the cell that the next `last_time`
begins. -/
theorem FlowOnGrid.advance (hI : 0 < I) (h : FlowOnGrid I timeStart base samples)
    (hbase : base.Valid) (hdue : base.ns + I ≤ now.ns) :
    let next := Time.ofNs (base.ns + (now.ns - base.ns) / I * I)
    next.ns ≤ now.ns ∧ now.ns < next.ns + I ∧ FlowOnGrid I timeStart next (now :: samples) := by
  intro next
  obtain ⟨hstart, -, k, hk, hpair, hle⟩ := h.resolve_left fun hunset =>
    not_valid_uninitialized (hunset.1 ▸ hbase)
  have hI' : (0 : ℤ) < I := Int.natCast_pos.mpr hI
  have hd : 1 ≤ (now.ns - base.ns) / (I : ℤ) := by
    rw [Int.le_ediv_iff_mul_le hI']
    omega
  have hmul := Int.mul_ediv_self_le (x := now.ns - base.ns) (k := (I : ℤ)) hI'.ne'
  have hlt := Int.lt_mul_ediv_self_add (x := now.ns - base.ns) hI'
  rw [mul_comm (I : ℤ)] at hmul hlt
  have hns : next.ns = base.ns + (now.ns - base.ns) / I * I := ns_ofNs
  have hcell : cell I timeStart now = k + (now.ns - base.ns) / I := by
    have hsplit : now.ns - timeStart.ns = k * I + (now.ns - base.ns) := by omega
    rw [cell, hsplit, Int.add_comm, Int.add_mul_ediv_right _ _ hI'.ne', Int.add_comm]
  refine ⟨by omega, by omega, .inr ⟨hstart, ?_, k + (now.ns - base.ns) / I, ?_, ?_, ?_⟩⟩
  · have hpos := hbase.pos
    have hnonneg : 0 ≤ (now.ns - base.ns) / (I : ℤ) * I := by positivity
    exact valid_ofNs (by omega)
  · rw [hns, hk]
    ring
  · -- the samples before it are in earlier cells
    rw [List.map_cons, List.pairwise_cons]
    refine ⟨fun c hc => ?_, hpair⟩
    obtain ⟨x, hx, rfl⟩ := List.mem_map.mp hc
    have hxk := hle x hx
    omega
  · intro x hx
    rcases List.mem_cons.mp hx with rfl | hx
    · exact hcell.le
    · have hxk := hle x hx
      omega

/-- **A call of a flow on the grid**, from where its `last_time` is
initialised. -/
theorem FlowOnGrid.collect (now : Time) (hI : 0 < I) (h : FlowOnGrid I timeStart lastTime samples)
    (hstart : timeStart.Valid) :
    let base := setLastTime timeStart lastTime
    let r := Interval.collect (inSeconds I) now base
    (now.ns < base.ns + I ∧ r = (false, base) ∧ FlowOnGrid I timeStart base samples) ∨
      (base.ns + I ≤ now.ns ∧ r.1 = true ∧ r.2.ns ≤ now.ns ∧ now.ns < r.2.ns + I ∧
        FlowOnGrid I timeStart r.2 (now :: samples)) := by
  intro base r
  obtain ⟨hbase, hgrid⟩ := h.initialized hstart
  have hr : r = if now.ns < base.ns + I then (false, base)
      else (true, Time.ofNs (base.ns + (now.ns - base.ns) / I * I)) := collect_eq hI hbase.pos.le
  by_cases hnow : now.ns < base.ns + I
  · exact .inl ⟨hnow, hr.trans (if_pos hnow), hgrid⟩
  · rw [if_neg hnow] at hr
    have hdue : base.ns + I ≤ now.ns := not_lt.mp hnow
    rw [hr]
    exact .inr ⟨hdue, rfl, hgrid.advance hI hbase hdue⟩

/-- A step of one thread that leaves `time_start`. -/
theorem OnGrid.setThread (h : OnGrid I s) (ht : ThreadOnGrid I s.timeStart t) :
    OnGrid I (s.setThread i t) where
  timeStart := h.timeStart
  threads k := by
    by_cases hk : k = i
    · subst hk
      show ThreadOnGrid I s.timeStart (Function.update s.threads k t k)
      rwa [Function.update_self]
    · show ThreadOnGrid I s.timeStart (Function.update s.threads i t k)
      rw [Function.update_of_ne hk]
      exact h.threads k

/-- The flows of a thread after a change to one of them. -/
theorem ThreadOnGrid.update {lastTime' : Time} {samples' : List Time}
    (h : ThreadOnGrid I timeStart t) (hj : FlowOnGrid I timeStart lastTime' samples') :
    ThreadOnGrid I timeStart { t with
      stage := .idle, lastTime := Function.update t.lastTime j (some lastTime')
      samples := Function.update t.samples j samples' } where
  flows k last hk := by
    by_cases hkj : k = j
    · subst hkj
      simp only [Function.update_self, Option.some.injEq] at hk ⊢
      exact hk ▸ hj
    · simp only [Function.update_of_ne hkj] at hk ⊢
      exact h.flows k last hk
  absent k hk := by
    by_cases hkj : k = j
    · subst hkj
      simp [Function.update_self] at hk
    · simp only [Function.update_of_ne hkj] at hk ⊢
      exact h.absent k hk
  clockRead := nofun
  started := nofun

/-- A new flow is not initialised. -/
theorem ThreadOnGrid.create (h : ThreadOnGrid I timeStart t) (hnone : t.lastTime j = none) :
    ThreadOnGrid I timeStart
      { t with lastTime := Function.update t.lastTime j (some uninitialized) } where
  flows k last hk := by
    by_cases hkj : k = j
    · subst hkj
      simp only [Function.update_self, Option.some.injEq] at hk
      exact .inl ⟨hk.symm, h.absent k hnone⟩
    · simp only [Function.update_of_ne hkj] at hk
      exact h.flows k last hk
  absent k hk := by
    by_cases hkj : k = j
    · subst hkj
      simp [Function.update_self] at hk
    · simp only [Function.update_of_ne hkj] at hk
      exact h.absent k hk
  clockRead := h.clockRead
  started := h.started

/-- A thread that is past the critical section has a flow on the grid. -/
theorem OnGrid.flow (h : OnGrid I s) {lastTime : Time}
    (hstage : (s.threads i).stage = .started j now)
    (hflow : (s.threads i).lastTime j = some lastTime) :
    FlowOnGrid I s.timeStart lastTime ((s.threads i).samples j) ∧ s.timeStart.Valid :=
  ⟨(h.threads i).flows j lastTime hflow, ((h.threads i).started j now hstage).2⟩

/-- The thread is past the critical section. -/
theorem ThreadOnGrid.started_of (h : ThreadOnGrid I timeStart t) (hnow : now.Valid)
    (hstart : timeStart.Valid) : ThreadOnGrid I timeStart { t with stage := .started j now } where
  flows := h.flows
  absent := h.absent
  clockRead := nofun
  started k now' hst := by
    obtain ⟨-, rfl⟩ := Stage.started.inj hst
    exact ⟨hnow, hstart⟩

/-- **The critical section** leaves all threads on the grid, also those
whose flows another thread finds `time_start` set for. -/
theorem OnGrid.ensureInitialized (h : OnGrid I s) {lastTime : Time}
    (hstage : (s.threads i).stage = .clockRead j now)
    (hflow : (s.threads i).lastTime j = some lastTime) :
    OnGrid I { s.setThread i { s.threads i with stage := .started j now } with
      timeStart := setTimeStart now lastTime s.timeStart } := by
  have hnow := (h.threads i).clockRead j now hstage
  rcases setTimeStart_cases now lastTime s.timeStart with hsame | ⟨hunset, rfl, hset⟩
  · -- `time_start` is set already, by this thread or another
    have hvalid : s.timeStart.Valid := by
      rcases h.timeStart with hunset | hvalid
      · rcases (h.threads i).flows j lastTime hflow with ⟨rfl, -⟩ | ⟨hvalid, -⟩
        · rw [hunset] at hsame ⊢
          have hnow' : now = uninitialized := hsame
          exact absurd (hnow' ▸ hnow) not_valid_uninitialized
        · exact hvalid
      · exact hvalid
    rw [hsame]
    exact h.setThread ((h.threads i).started_of hnow hvalid)
  · rw [hset]
    refine ⟨.inr hnow, fun k => ?_⟩
    have hk := (hunset ▸ h.threads k).timeStart_set now
    by_cases hki : k = i
    · subst hki
      show ThreadOnGrid I now (Function.update s.threads k _ k)
      rw [Function.update_self]
      exact hk.started_of hnow hnow
    · show ThreadOnGrid I now (Function.update s.threads i _ k)
      rwa [Function.update_of_ne hki]

/-- **A step stays on the grid.** -/
theorem OnGrid.step (hI : 0 < I) (h : OnGrid I s) (hstep : step (inSeconds I) s l s') :
    OnGrid I s' := by
  cases l with
  | create i j =>
    obtain ⟨hnone, rfl⟩ := hstep
    exact h.setThread ((h.threads i).create hnone)
  | clockGettime i j now =>
    obtain ⟨-, -, hnow, -, rfl⟩ := hstep
    have ht := h.threads i
    refine h.setThread ⟨ht.flows, ht.absent, fun k now' hst => ?_, nofun⟩
    obtain ⟨-, rfl⟩ := Stage.clockRead.inj hst
    exact hnow
  | ensureInitialized i =>
    obtain ⟨j, now, lastTime, hstage, hflow, rfl⟩ := hstep
    exact h.ensureInitialized hstage hflow
  | collect i =>
    obtain ⟨j, now, lastTime, hstage, hflow, r, rfl, rfl⟩ := hstep
    obtain ⟨hgrid, hstart⟩ := h.flow hstage hflow
    rcases hgrid.collect now hI hstart with ⟨-, hr, hnew⟩ | ⟨-, hr, -, -, hnew⟩
    · refine h.setThread ?_
      rw [hr]
      have hsame : (s.threads i).samples =
          Function.update (s.threads i).samples j ((s.threads i).samples j) :=
        (Function.update_eq_self j _).symm
      show ThreadOnGrid I s.timeStart { s.threads i with
        stage := .idle
        lastTime := Function.update _ j (some _)
        samples := (s.threads i).samples }
      rw [hsame]
      exact (h.threads i).update hnew
    · refine h.setThread ?_
      rw [if_pos hr]
      exact (h.threads i).update hnew

theorem onGrid_start (I : ℕ) : OnGrid I start where
  timeStart := .inl rfl
  threads _ := ⟨nofun, fun _ _ => rfl, nofun, nofun⟩

theorem onGrid_run (hI : 0 < I) (hrun : Run (step (inSeconds I)) start ls s) : OnGrid I s :=
  hrun.preserves (fun _ _ _ h hstep => h.step hI hstep) (onGrid_start I)

/-- **`time_start` does not change** once it is set. -/
theorem timeStart_step {seconds : ℚ} (hstep : step seconds s l s')
    (hset : s.timeStart ≠ uninitialized) : s'.timeStart = s.timeStart := by
  cases l with
  | create i j =>
    obtain ⟨-, rfl⟩ := hstep
    rfl
  | clockGettime i j now =>
    obtain ⟨-, -, -, -, rfl⟩ := hstep
    rfl
  | ensureInitialized i =>
    obtain ⟨j, now, lastTime, -, -, rfl⟩ := hstep
    rcases setTimeStart_cases now lastTime s.timeStart with hsame | ⟨hunset, -, -⟩
    · exact hsame
    · exact absurd hunset hset
  | collect i =>
    obtain ⟨j, now, lastTime, -, -, r, -, rfl⟩ := hstep
    rfl

/-! ## Every run -/

/-- A time lies in the cell `k` of the grid. -/
def InCell (I : ℕ) (timeStart : Time) (k : ℤ) (ts : Time) : Prop :=
  timeStart.ns + k * I ≤ ts.ns ∧ ts.ns < timeStart.ns + (k + 1) * I

theorem InCell.cell_eq {k : ℤ} (h : InCell I timeStart k ts) : cell I timeStart ts = k := by
  obtain ⟨hle, hlt⟩ := h
  rw [add_mul, one_mul] at hlt
  have hI : (0 : ℤ) < I := by omega
  refine le_antisymm (Int.lt_add_one_iff.mp ?_) ?_
  · rw [cell, Int.ediv_lt_iff_lt_mul hI, add_mul, one_mul]
    omega
  · rw [cell, Int.le_ediv_iff_mul_le hI]
    omega

/-- **What the grid means** for the flows of all threads. -/
structure Sampled (I : ℕ) (s : State) : Prop where
  /-- A `last_time` is a whole number of intervals after `time_start`. -/
  lastTime : ∀ i j lastTime, (s.threads i).lastTime j = some lastTime →
    lastTime ≠ uninitialized →
      s.timeStart ≠ uninitialized ∧ (I : ℤ) ∣ lastTime.ns - s.timeStart.ns
  /-- No cell has two samples of a flow. -/
  samples : ∀ i j, ((s.threads i).samples j).Pairwise fun x y =>
    ∀ k, ¬ (InCell I s.timeStart k x ∧ InCell I s.timeStart k y)

/-- **What a call does**, where its reading is `now` and `lastTime` is
initialised: a sample is recorded if the interval is over, and then only. -/
structure Collected (I : ℕ) (now lastTime lastTime' : Time) (samples samples' : List Time) :
    Prop where
  recorded : samples' = now :: samples ↔ lastTime.ns + I ≤ now.ns
  otherwise : samples' = now :: samples ∨ samples' = samples ∧ lastTime' = lastTime
  next : samples' = now :: samples → lastTime'.ns ≤ now.ns ∧ now.ns < lastTime'.ns + I

theorem OnGrid.sampled (h : OnGrid I s) : Sampled I s where
  lastTime i j lastTime hj hset := by
    rcases (h.threads i).flows j lastTime hj with ⟨hunset, -⟩ | ⟨hstart, -, k, hk, -⟩
    · exact absurd hunset hset
    · refine ⟨fun hunset => not_valid_uninitialized (hunset ▸ hstart), k, ?_⟩
      rw [hk]
      ring
  samples i j := by
    cases hj : (s.threads i).lastTime j with
    | none =>
      rw [(h.threads i).absent j hj]
      exact .nil
    | some lastTime =>
      rcases (h.threads i).flows j lastTime hj with ⟨-, hnil⟩ | ⟨-, -, k, -, hpair, -⟩
      · rw [hnil]
        exact .nil
      · refine (List.pairwise_map.mp hpair).imp fun hgt c hc => ?_
        rw [hc.1.cell_eq, hc.2.cell_eq] at hgt
        exact lt_irrefl c hgt

/-- The rest of a call, in a state that a run leads to. -/
theorem OnGrid.collected (hI : 0 < I) (h : OnGrid I s) {lastTime : Time}
    (hstage : (s.threads i).stage = .started j now)
    (hflow : (s.threads i).lastTime j = some lastTime)
    (hstep : Interval.step (inSeconds I) s (.collect i) s') :
    ∃ lastTime', (s'.threads i).lastTime j = some lastTime' ∧
      Collected I now (setLastTime s.timeStart lastTime) lastTime'
        ((s.threads i).samples j) ((s'.threads i).samples j) := by
  obtain ⟨j', now', last, hstage', hflow', r, rfl, rfl⟩ := hstep
  obtain ⟨rfl, rfl⟩ := Stage.started.inj (hstage.symm.trans hstage')
  obtain rfl := Option.some.inj (hflow.symm.trans hflow')
  obtain ⟨hgrid, hstart⟩ := h.flow hstage hflow
  have hne : (s.threads i).samples j ≠ now :: (s.threads i).samples j :=
    (List.cons_ne_self _ _).symm
  refine ⟨(Interval.collect (inSeconds I) now (setLastTime s.timeStart lastTime)).2,
    by simp [State.setThread], ?_⟩
  rcases hgrid.collect now hI hstart with ⟨hnow, hr, -⟩ | ⟨hnow, hr, hle, hlt, -⟩
  · simp only [State.setThread, Function.update_self, hr, Bool.false_eq_true, if_false]
    exact ⟨⟨fun e => absurd e hne, fun hle => absurd hnow (not_lt.mpr hle)⟩, .inr ⟨rfl, rfl⟩,
      fun e => absurd e hne⟩
  · simp only [State.setThread, Function.update_self, hr, if_true]
    exact ⟨⟨fun _ => hnow, fun _ => rfl⟩, .inl rfl, fun _ => ⟨hle, hlt⟩⟩

/-- **The samples of all flows lie on one grid**, in every run of any
number of threads: `time_start` does not change once it is set, the
`last_time` of a flow is always on the grid, a call records a sample
exactly when the interval is over, and no flow has two in one cell. -/
theorem on_grid (hI : 0 < I) (hrun : Run (step (inSeconds I)) start ls s) :
    (∀ ls' s', Run (step (inSeconds I)) s ls' s' → s.timeStart ≠ uninitialized →
      s'.timeStart = s.timeStart) ∧
    Sampled I s ∧
    ∀ i j now lastTime s', (s.threads i).stage = .started j now →
      (s.threads i).lastTime j = some lastTime → step (inSeconds I) s (.collect i) s' →
      ∃ lastTime', (s'.threads i).lastTime j = some lastTime' ∧
        Collected I now (setLastTime s.timeStart lastTime) lastTime'
          ((s.threads i).samples j) ((s'.threads i).samples j) := by
  have h := onGrid_run hI hrun
  refine ⟨fun ls' s' hrun' hset => ?_, h.sampled, fun i j now lastTime s' hstage hflow hstep =>
    h.collected hI hstage hflow hstep⟩
  refine hrun'.preserves (I := fun r => r.timeStart = s.timeStart) ?_ rfl
  exact fun r l r' hr hstep => (timeStart_step hstep (hr ▸ hset)).trans hr

/-- Two calls of one flow, a second apart. -/
def twoCalls : List Label :=
  [.create 0 0, .clockGettime 0 0 ⟨1, 0⟩, .ensureInitialized 0, .collect 0,
    .clockGettime 0 0 ⟨2, 0⟩, .ensureInitialized 0, .collect 0]

theorem exists_twoCalls : ∃ s, Run (step (inSeconds 1)) start twoCalls s := by
  have hone : (⟨1, 0⟩ : Time).Valid := ⟨by decide, by decide, by decide⟩
  have htwo : (⟨2, 0⟩ : Time).Valid := ⟨by decide, by decide, by decide⟩
  refine ⟨_, .cons ⟨rfl, rfl⟩ <| .cons ⟨rfl, ⟨_, rfl⟩, hone, by decide, rfl⟩ <|
    .cons ⟨_, _, _, rfl, rfl, rfl⟩ <| .cons ⟨_, _, _, rfl, rfl, _, rfl, rfl⟩ <|
    .cons ⟨rfl, ⟨_, rfl⟩, htwo, by decide, rfl⟩ <| .cons ⟨_, _, _, rfl, rfl, rfl⟩ <|
    .single ⟨_, _, _, rfl, rfl, _, rfl, rfl⟩⟩

theorem on_grid_twoCalls : ∃ s, Run (step (inSeconds 1)) start twoCalls s ∧ Sampled 1 s :=
  let ⟨s, hrun⟩ := exists_twoCalls
  ⟨s, hrun, (on_grid Nat.one_pos hrun).2.1⟩

end Interval

end Rushit
