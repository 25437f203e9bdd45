import Mathlib.Data.Nat.ModEq
import Rushit.Stream.Stats
/-!
# Identifiers that do not start at 0

The samples of thread `k` carry `start + k` and go to row
`(start + k) % num_threads`, while row `k` is as wide as thread `k`
needs. Each thread still has a row of its own, but not the one that was
allocated for it. As the rotation moves all rows at once, every thread
fits into the row it gets only if it gets one of the same width
(`accesses_in_bounds_iff`).
-/

namespace Rushit

namespace Stream

/-- **The identifiers form a sequence** from `start` on. -/
def ConsecutiveIds (start : ℕ) (threads : List (List Sample)) : Prop :=
  ∀ (k : ℕ) (samples : List Sample), threads[k]? = some samples →
    ∀ s ∈ samples, s.tid = start + k

/-- Two threads never share a row. -/
def OwnRows (threads : List (List Sample)) : Prop :=
  ∀ (i j : ℕ) (xs ys : List Sample), threads[i]? = some xs → threads[j]? = some ys →
    ∀ x ∈ xs, ∀ y ∈ ys,
      (tally threads.length).row x = (tally threads.length).row y → i = j

/-- The samples of the thread at position `k`. -/
def samplesAt (threads : List (List Sample)) (k : ℕ) : List Sample := threads.getD k []

variable {start k n : ℕ} {threads : List (List Sample)} {samples : List Sample} {s : Sample}

/-- A rotation of `n` positions is one to one. -/
theorem rotate_injOn (start n : ℕ) :
    Set.InjOn (fun k => (start + k) % n) (Finset.range n : Set ℕ) := by
  intro a ha b hb hab
  have hmod : start + a ≡ start + b [MOD n] := hab
  exact (Nat.ModEq.add_left_cancel' start hmod).eq_of_lt_of_lt (by simpa using ha)
    (by simpa using hb)

/-- **A rotation cannot raise every value**: where none falls, none
rises, for their sum stays the same. -/
theorem eq_of_le_rotate {f : ℕ → ℕ} (h : ∀ k < n, f k ≤ f ((start + k) % n)) :
    ∀ k < n, f k = f ((start + k) % n) := by
  have hmaps : Set.MapsTo (fun k => (start + k) % n) (Finset.range n : Set ℕ)
      (Finset.range n : Set ℕ) := by
    intro k hk
    have hk : k < n := by simpa using hk
    have hlt := Nat.mod_lt (start + k) (by omega : n > 0)
    simpa using hlt
  -- a rotation permutes the values, so their sum stays
  have hsum : ∑ k ∈ Finset.range n, f k = ∑ k ∈ Finset.range n, f ((start + k) % n) :=
    (Finset.sum_nbij (fun k => (start + k) % n) hmaps (rotate_injOn start n)
      (Finset.surjOn_of_injOn_of_card_le _ hmaps (rotate_injOn start n) le_rfl)
      fun _ _ => rfl).symm
  have hle : ∀ k ∈ Finset.range n, f k ≤ f ((start + k) % n) :=
    fun k hk => h k (Finset.mem_range.mp hk)
  intro k hk
  exact (Finset.sum_eq_sum_iff_of_le hle).mp hsum k (Finset.mem_range.mpr hk)

/-- The row a thread's samples go to. -/
theorem ConsecutiveIds.row (h : ConsecutiveIds start threads) (hk : threads[k]? = some samples)
    (hs : s ∈ samples) : (tally threads.length).row s = ((start + k) % threads.length : ℕ) := by
  show s.tid.tmod threads.length = _
  rw [h k samples hk s hs, Int.tmod_eq_emod_of_nonneg (by omega)]
  push_cast
  rfl

/-- Each thread has a row of its own, whatever `start` is. -/
theorem ConsecutiveIds.ownRows (h : ConsecutiveIds start threads) : OwnRows threads := by
  intro i j xs ys hi hj x hx y hy hrow
  rw [h.row hi hx, h.row hj hy, Nat.cast_inj] at hrow
  exact rotate_injOn start threads.length (by simpa using (List.getElem?_eq_some_iff.mp hi).1)
    (by simpa using (List.getElem?_eq_some_iff.mp hj).1) hrow

/-- Every access is in bounds exactly where no thread has a flow beyond
those of the thread whose row it gets. -/
theorem ConsecutiveIds.inBounds_iff (h : ConsecutiveIds start threads) :
    (∀ s ∈ collectSamples threads,
      Grid.InBounds (rowWidths threads) ((tally threads.length).row s) s.flowId) ↔
    ∀ k < threads.length, maxFlowId (samplesAt threads k) ≤
      maxFlowId (samplesAt threads ((start + k) % threads.length)) := by
  have hfit : ∀ k samples, threads[k]? = some samples → ∀ s ∈ samples,
      (Grid.InBounds (rowWidths threads) ((tally threads.length).row s) s.flowId ↔
        s.flowId ≤ maxFlowId (samplesAt threads ((start + k) % threads.length))) := by
    intro k samples hk s hs
    have hlt : (start + k) % threads.length < threads.length := Nat.mod_lt _ (by
      have hlt := (List.getElem?_eq_some_iff.mp hk).1
      omega)
    rw [h.row hk hs, inBounds_row, samplesAt, List.getD_eq_getElem?_getD,
      List.getElem?_eq_getElem hlt]
    simp
  constructor
  · intro hall k hk
    rw [maxFlowId_le_iff]
    intro s hs
    have hsome : threads[k]? = some (samplesAt threads k) := by
      rw [samplesAt, List.getD_eq_getElem?_getD, List.getElem?_eq_getElem hk]
      rfl
    exact (hfit k _ hsome s hs).mp (hall s (mem_flatten.mpr ⟨k, _, hsome, hs⟩))
  · intro hall s hs
    obtain ⟨k, samples, hk, hs⟩ := mem_flatten.mp hs
    have hat : samplesAt threads k = samples := by
      rw [samplesAt, List.getD_eq_getElem?_getD, hk]
      rfl
    rw [hfit k samples hk s hs]
    have hle := hall k (List.getElem?_eq_some_iff.mp hk).1
    rw [hat] at hle
    exact maxFlowId_le_iff.mp hle s hs

/-- **Which threads fit into the rows they get.** With consecutive
identifiers each thread has a row of its own, and every access is in
bounds if and only if the largest flow number of a thread is that of the
thread whose row it gets. -/
theorem accesses_in_bounds_iff (hids : ConsecutiveIds start threads) :
    ((∀ arr, Qsorted (collectSamples threads) arr → (calculateStreamStats threads arr).isSome) ∧
      OwnRows threads) ↔
    ∀ k < threads.length, maxFlowId (samplesAt threads k) =
      maxFlowId (samplesAt threads ((start + k) % threads.length)) := by
  constructor
  · rintro ⟨hall, -⟩
    obtain ⟨arr, hq⟩ := exists_qsorted (collectSamples threads)
    have hin := (calculateStreamStats_isSome_iff hq).mp (hall arr hq)
    exact eq_of_le_rotate (f := fun k => maxFlowId (samplesAt threads k))
      (hids.inBounds_iff.mp hin)
  · intro heq
    refine ⟨fun arr hq => ?_, hids.ownRows⟩
    rw [calculateStreamStats_isSome_iff hq, hids.inBounds_iff]
    exact fun k hk => (heq k hk).le

/-- Threads 1 and 2, with one sample each. -/
theorem shifted_ids (flowId : ℕ) :
    ConsecutiveIds 1 [[.atSecond 1 0 10 0 1], [.atSecond 2 flowId 20 0 2]] := by
  intro k samples hk s hs
  match k, hk with
  | 0, rfl => rw [List.mem_singleton.mp hs]; rfl
  | 1, rfl => rw [List.mem_singleton.mp hs]; rfl

theorem accesses_in_bounds_shifted :
    (∀ arr, Qsorted (collectSamples [[.atSecond 1 0 10 0 1], [.atSecond 2 0 20 0 2]]) arr →
      (calculateStreamStats [[.atSecond 1 0 10 0 1], [.atSecond 2 0 20 0 2]] arr).isSome) ∧
    OwnRows [[.atSecond 1 0 10 0 1], [.atSecond 2 0 20 0 2]] :=
  (accesses_in_bounds_iff (shifted_ids 0)).mpr (by decide)

/-- **A row that is too short**: threads 1 and 2 swap rows, and the
second has one flow more. -/
theorem row_too_short : ¬ ∀ (start : ℕ) (threads : List (List Sample)), 0 < threads.length →
    ConsecutiveIds start threads →
    (∀ arr, Qsorted (collectSamples threads) arr → (calculateStreamStats threads arr).isSome) ∧
      OwnRows threads := by
  intro h
  have hq : Qsorted (collectSamples [[.atSecond 1 0 10 0 1], [.atSecond 2 1 20 0 2]])
      [.atSecond 1 0 10 0 1, .atSecond 2 1 20 0 2] := ⟨.refl _, by decide⟩
  have hsome := (h 1 _ (by decide) (shifted_ids 1)).1 _ hq
  exact absurd hsome (by decide)

end Stream

end Rushit
