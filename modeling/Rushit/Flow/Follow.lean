import Rushit.Flow.System
/-!
# What a workload makes of its threads

Until the barrier the threads make their flows, and what they have then
is known (`Workload.worker`): a client has its connections, and a server
the flow of the listening socket. From there on each thread changes one
flow at a time. Where each change of a thread is a few steps of another
model of it, a run of the threads is a run of that model (`follows`).
-/

namespace Rushit

namespace Flow

open TcpRr (Worker)

namespace Workload

variable {W : Workload} {v v' : Values} {n i : ℕ} {u : Worker} {c : Change W} {r : Worker × ℚ}

/-- A thread when the barrier is passed. -/
def worker (W : Workload) (index : ℕ) : Worker where
  index := index
  nextFlowId := if W.client then 0 else 1
  transactions := 0
  samples := []
  flows := if W.client then (List.range (W.connections index)).map W.newFlow else [listenFlow 0]

/-- The threads when the barrier is passed. -/
def begun (W : Workload) (n : ℕ) : Values := ⟨(List.range n).map W.worker, 0, true⟩

/-- A thread that is making its flows. -/
def Making (W : Workload) (i : ℕ) (u : Worker) : Prop :=
  if W.client then ∃ k, u = ⟨i, 0, 0, [], (List.range k).map W.newFlow⟩
  else u = ⟨i, 0, 0, [], []⟩ ∨ u = ⟨i, 1, 0, [], [listenFlow 0]⟩

/-- **Making a flow.** -/
theorem Making.change (hu : Making W i u) (hc : c.phase = .setup) (hchange : W.change u 0 c r) :
    Making W i r.1 ∧ r.2 = 0 := by
  cases c with
  | listen =>
    obtain ⟨hserver, hflows, rfl⟩ := hchange
    simp only [Making, hserver, Bool.false_eq_true, if_false] at hu ⊢
    rcases hu with rfl | rfl
    · exact ⟨.inr rfl, trivial⟩
    · cases hflows
  | connect =>
    obtain ⟨hclient, hlt, rfl⟩ := hchange
    simp only [Making, hclient, if_true] at hu ⊢
    obtain ⟨k, rfl⟩ := hu
    refine ⟨⟨k + 1, ?_⟩, trivial⟩
    simp [push, List.range_succ]
  | accept => cases hc
  | event j mask o => cases hc
  | close => cases hc

/-- **A thread that has made its flows.** -/
theorem Making.eq_worker (hu : Making W i u) (hcomplete : W.Complete u) : u = W.worker i := by
  obtain ⟨hall, hsome⟩ := hcomplete
  cases hclient : W.client with
  | true =>
    simp only [Making, hclient, if_true] at hu
    obtain ⟨k, rfl⟩ := hu
    have hk := hall hclient
    simp only [List.length_map, List.length_range] at hk
    subst hk
    simp [worker, hclient]
  | false =>
    simp only [Making, hclient, Bool.false_eq_true, if_false] at hu
    rcases hu with rfl | rfl
    · exact absurd rfl (hsome hclient)
    · simp [worker, hclient]

/-- Until the barrier the flows are made; then the threads have run. -/
def Reaches (W : Workload) (n : ℕ) (v : Values) : Prop :=
  if v.started then ∃ ls, Run W.step (W.begun n) ls v
  else v.timeStart = 0 ∧ v.threads.length = n ∧ ∀ i u, v.threads[i]? = some u → Making W i u

theorem reaches_start (W : Workload) (n : ℕ) : Reaches W n (Values.start n) := by
  refine ⟨rfl, by simp [Values.start], fun i u hu => ?_⟩
  rw [Values.start, List.getElem?_map] at hu
  obtain ⟨j, hj, rfl⟩ := Option.map_eq_some_iff.mp hu
  obtain ⟨-, rfl⟩ := List.getElem?_eq_some_iff.mp hj
  rw [List.getElem_range]
  unfold Making
  split
  · exact ⟨0, rfl⟩
  · exact .inl rfl

/-- **One step.** -/
theorem Reaches.step {l : Label W} (h : Reaches W n v) (hstep : W.step v l v') :
    Reaches W n v' := by
  cases hstarted : v.started with
  | true =>
    have hstarted' : v'.started = true := by
      cases l with
      | act i c =>
        obtain ⟨u, r, -, -, -, rfl⟩ := hstep
        exact hstarted
      | barrier => exact absurd (hstarted.symm.trans hstep.1) Bool.true_eq_false.mp
    simp only [Reaches, hstarted, hstarted', if_true] at h ⊢
    obtain ⟨ls, hrun⟩ := h
    exact ⟨ls ++ [l], hrun.append (.single hstep)⟩
  | false =>
    simp only [Reaches, hstarted, Bool.false_eq_true, if_false] at h
    obtain ⟨htime, hlength, hmaking⟩ := h
    cases l with
    | act i c =>
      obtain ⟨u, r, hi, hphase, hchange, rfl⟩ := hstep
      simp only [Reaches, hstarted, Bool.false_eq_true, if_false]
      have hsetup : c.phase = .setup := by
        rw [hstarted] at hphase
        cases c <;> first | rfl | cases hphase
      rw [htime] at hchange
      obtain ⟨hmade, htime'⟩ := (hmaking i u hi).change hsetup hchange
      refine ⟨htime', (List.length_set ..).trans hlength, fun k u' hu' => ?_⟩
      rw [List.getElem?_set] at hu'
      split at hu'
      · rename_i hk
        split at hu'
        · rw [← Option.some.inj hu', ← hk]
          exact hmade
        · cases hu'
      · exact hmaking k u' hu'
    | barrier =>
      obtain ⟨-, hcomplete, rfl⟩ := hstep
      refine ⟨[], ?_⟩
      have hthreads : v.threads = (List.range n).map W.worker := by
        refine List.ext_getElem (by simp [hlength]) fun i hi _ => ?_
        rw [(hmaking i _ (List.getElem?_eq_getElem hi)).eq_worker
          (hcomplete _ (List.getElem_mem hi))]
        simp
      rw [hthreads, htime]
      exact .refl _

/-- There are always as many threads. -/
theorem length_threads {ls : List (Label W)} (hrun : Run W.step (Values.start n) ls v) :
    v.threads.length = n := by
  refine hrun.preserves (I := fun v => v.threads.length = n) ?_ (by simp [Values.start])
  rintro v l v' hlength hstep
  cases l with
  | act i c =>
    obtain ⟨u, r, -, -, -, rfl⟩ := hstep
    exact (List.length_set ..).trans hlength
  | barrier =>
    obtain ⟨-, -, rfl⟩ := hstep
    exact hlength

/-- **Threads that have passed the barrier have run** from where they
had made their flows. -/
theorem exists_run_begun {ls : List (Label W)} (hrun : Run W.step (Values.start n) ls v)
    (hstarted : v.started = true) : ∃ ls', Run W.step (W.begun n) ls' v := by
  have hreaches := hrun.preserves (fun _ _ _ h hs => Reaches.step h hs) (reaches_start W n)
  unfold Reaches at hreaches
  rwa [if_pos hstarted] at hreaches

section Follows

variable {α State Label : Type} {step : State → Label → State → Prop}

/-- **Another model of the threads follows**: each change of a thread
that runs is a few steps of what `view` makes of it. -/
theorem follows (mk : List α → ℚ → State) (view : Worker → α)
    (hchange : ∀ l timeStart i u c r, l[i]? = some (view u) → c.phase.early = false →
      W.change u timeStart c r →
      ∃ ls, Run step (mk l timeStart) ls (mk (l.set i (view r.1)) r.2))
    {ls : List (Workload.Label W)} (hrun : Run W.step (Values.start n) ls v)
    (hstarted : v.started = true) :
    ∃ ls', Run step (mk ((List.range n).map fun i => view (W.worker i)) 0) ls'
      (mk (v.threads.map view) v.timeStart) := by
  obtain ⟨ls', hrun'⟩ := exists_run_begun hrun hstarted
  have hinv := hrun'.preserves (I := fun v => v.started = true ∧ ∃ ls',
    Run step (mk ((List.range n).map fun i => view (W.worker i)) 0) ls'
      (mk (v.threads.map view) v.timeStart)) ?_ ⟨rfl, [], ?_⟩
  · exact hinv.2
  · rintro v l v' ⟨hstarted, ls', hrun⟩ hstep
    cases l with
    | act i c =>
      obtain ⟨u, r, hi, hphase, hc, rfl⟩ := hstep
      refine ⟨hstarted, ?_⟩
      rw [hstarted] at hphase
      obtain ⟨ls'', hrun''⟩ := hchange (v.threads.map view) v.timeStart i u c r
        (by rw [List.getElem?_map, hi]; rfl) hphase hc
      rw [← List.map_set] at hrun''
      exact ⟨ls' ++ ls'', hrun.append hrun''⟩
    | barrier => exact absurd (hstarted.symm.trans hstep.1) Bool.true_eq_false.mp
  · rw [begun, List.map_map]
    exact .refl _

end Follows

end Workload

end Flow

end Rushit
