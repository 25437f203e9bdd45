import Mathlib.Algebra.BigOperators.Group.Finset.Basic
import Mathlib.Algebra.Order.BigOperators.Group.Finset
import Rushit.Thread.Order
/-!
# The program comes to its end

However the threads are interleaved, the main thread can still get to the
end of its program, without `LOG_FATAL` (`can_finish`): no thread is left
behind at the barrier, and no stop event is lost. When it is there, each
worker was created, run, joined and freed once (`each_worker_once`),
whatever the script does.
-/

namespace Rushit

namespace Thread

open Finset

variable {n : ℕ} {opts : Options} {s s' t : State} {l : Label} {ls : List Label}
variable {c : Call} {rest : List Call} {w v : ℕ} {p : Phase} {each : ℕ → Call}

/-! ## Getting on -/

/-- How many steps a worker has still to take. -/
def Phase.left : Phase → ℕ
  | .absent => 6
  | .setup => 5
  | .arrived => 4
  | .unlocked => 3
  | .running => 2
  | .closing => 1
  | .returned => 0
  | .joined => 0

/-- The same for all threads. -/
def State.left (n : ℕ) (s : State) : ℕ := s.main.length + ∑ w ∈ range n, (s.worker w).left

theorem sum_left_update_le (h : p.left ≤ (s.worker w).left) :
    ∑ v ∈ range n, (Function.update s.worker w p v).left ≤ ∑ v ∈ range n, (s.worker v).left := by
  refine sum_le_sum fun v _ => ?_
  by_cases hv : v = w
  · subst hv
    rwa [Function.update_self]
  · rw [Function.update_of_ne hv]

theorem sum_left_update_lt (hw : w < n) (h : p.left < (s.worker w).left) :
    ∑ v ∈ range n, (Function.update s.worker w p v).left < ∑ v ∈ range n, (s.worker v).left := by
  refine sum_lt_sum (fun v _ => ?_) ⟨w, mem_range.mpr hw, by rwa [Function.update_self]⟩
  by_cases hv : v = w
  · subst hv
    rw [Function.update_self]
    exact h.le
  · rw [Function.update_of_ne hv]

/-- A call of the main thread. -/
theorem left_call (h : Inv n s) (hmain : s.main = c :: rest) (hcan : s.CanCall n c) :
    State.left n { s.call c with main := rest } < s.left n := by
  have hlen : s.main.length = rest.length + 1 := by rw [hmain, List.length_cons]
  have hsum : ∑ v ∈ range n, ((s.call c).worker v).left ≤ ∑ v ∈ range n, (s.worker v).left := by
    cases c with
    | pthreadCreate w =>
      have habs : s.worker w = .absent := (h.absent w).mpr fun _ => by simp [hmain]
      exact sum_left_update_le (by rw [habs]; decide)
    | pthreadJoin w =>
      have hret : s.worker w = .returned := hcan
      exact sum_left_update_le (by rw [hret]; decide)
    | _ => exact le_rfl
  show rest.length + ∑ v ∈ range n, ((s.call c).worker v).left < s.main.length + _
  omega

/-- Worker `w` can go on. -/
theorem exists_act (hexited : s.exited = false) (hw : w < n) {a : Action}
    (ha : s.act n w a = some s') (hp : s'.worker = Function.update s.worker w p)
    (hmain : s'.main = s.main) (h : p.left < (s.worker w).left) :
    ∃ l s', step n s l s' ∧ l ≠ .exit ∧ s'.exited = s.exited ∧ s'.left n < s.left n := by
  have hex : s'.exited = s.exited := by
    rcases State.act_cases ha with ⟨rfl, -⟩ | ⟨-, rfl⟩ | ⟨-, -, -, -, rfl⟩ <;> rfl
  refine ⟨.worker w a, s', ⟨hexited, ha⟩, nofun, hex, ?_⟩
  have hlt := sum_left_update_lt hw h
  unfold State.left
  rw [hp, hmain]
  omega

/-- A worker that was not created is still to be created. -/
theorem Inv.ne_absent (h : Inv n s) (hw : w < n) (hc : .pthreadCreate w ∉ s.main) :
    s.worker w ≠ .absent :=
  fun he => hc ((h.absent w).mp he hw)

/-- Not all have got to the barrier: one is on its way. -/
theorem exists_setup (h : Inv n s) (hmain : s.main = .barrierReturn :: rest)
    (hne : s.arrived ≠ n + 1) : ∃ w < n, s.worker w = .setup := by
  have hord := h.order
  rw [hmain] at hord
  obtain ⟨hreturn, harrive, hcreate⟩ := hord.1.passed rfl
  have harr := h.arrived
  rw [if_neg (by simp [hmain, harrive])] at harr
  obtain ⟨w, hw⟩ : (early n s.worker).Nonempty := by
    rw [← card_pos]
    omega
  obtain ⟨hlt, hearly⟩ := mem_early.mp hw
  refine ⟨w, hlt, hearly.resolve_left (h.ne_absent hlt ?_)⟩
  simp [hmain, hcreate w]

/-- **The threads are never stuck.** -/
theorem exists_step (h : Inv n s) (hexited : s.exited = false) (hmain : s.main = c :: rest) :
    ∃ l s', step n s l s' ∧ l ≠ .exit ∧ s'.exited = s.exited ∧ s'.left n < s.left n := by
  by_cases hcan : s.CanCall n c
  · refine ⟨.main c, _, ⟨hexited, rest, hmain, hcan, rfl⟩, nofun, ?_, left_call h hmain hcan⟩
    cases c <;> rfl
  have hord := h.order
  rw [hmain] at hord
  -- the main thread waits at the barrier, or for a worker
  cases c with
  | barrierReturn =>
    obtain ⟨w, hw, hsetup⟩ := exists_setup h hmain hcan
    exact exists_act hexited hw (State.act_barrierArrive hsetup) rfl rfl (by rw [hsetup]; decide)
  | pthreadJoin w =>
    obtain ⟨hw, hjoin, hcreate, htell, hreturn⟩ := hord.1.join w rfl
    have htold : s.told w = true := (h.told w hw).resolve_left (by simp [hmain, htell])
    have harr : s.arrived = n + 1 := h.passed.resolve_left (by simp [hmain, hreturn])
    have hthere := h.ne_absent hw (by simp [hmain, hcreate])
    have hnot : s.worker w ≠ .joined := fun he => (h.joined w hw).mp he (by simp [hmain])
    cases hphase : s.worker w with
    | absent => exact absurd hphase hthere
    | setup =>
      exact exists_act hexited hw (State.act_barrierArrive hphase) rfl rfl
        (by rw [hphase]; decide)
    | arrived =>
      exact exists_act hexited hw (State.act_barrierReturn hphase harr) rfl rfl
        (by rw [hphase]; decide)
    | running =>
      exact exists_act hexited hw (State.act_stop hphase htold) rfl rfl
        (by rw [hphase]; decide)
    | unlocked =>
      exact exists_act hexited hw (State.act_readTimeStart hphase) rfl rfl
        (by rw [hphase]; decide)
    | closing =>
      exact exists_act hexited hw (State.act_leave hphase) rfl rfl
        (by rw [hphase]; decide)
    | returned => exact absurd hphase hcan
    | joined => exact absurd hphase hnot
  | _ => exact absurd trivial hcan

/-- When the main thread is at its end, all workers were joined. -/
theorem Inv.all_joined (h : Inv n s) (hmain : s.main = []) (hw : w < n) : s.worker w = .joined :=
  (h.joined w hw).mpr (by simp [hmain])

theorem exists_finish (h : Inv n s) (hexited : s.exited = false) :
    ∃ ls t, Run (step n) s ls t ∧ .exit ∉ ls ∧ t.main = [] ∧ ∀ w < n, t.worker w = .joined := by
  induction hleft : s.left n using Nat.strong_induction_on generalizing s with
  | h m ih =>
    cases hmain : s.main with
    | nil => exact ⟨[], s, .refl s, List.not_mem_nil, hmain, fun w => h.all_joined hmain⟩
    | cons c rest =>
      obtain ⟨l, s', hs, hne, hex, hlt⟩ := exists_step h hexited hmain
      obtain ⟨ls, t, hrun, hexit, ht⟩ := ih _ (hleft ▸ hlt) (h.step hs) (hex.trans hexited) rfl
      refine ⟨l :: ls, t, .cons hs hrun, ?_, ht⟩
      rw [List.mem_cons, not_or]
      exact ⟨hne.symm, hexit⟩

/-- **The program can always come to its end.** For every number of
threads and every script, which returns as its hooks do, wherever a run
has got to without `LOG_FATAL`, the threads can go on until the main
thread has made all its calls and every worker was joined. -/
theorem can_finish (hrun : Run (step opts.numThreads) (State.start opts) ls s)
    (hexited : s.exited = false) : ∃ ls' t, Run (step opts.numThreads) s ls' t ∧ .exit ∉ ls' ∧
      t.main = [] ∧ ∀ w < opts.numThreads, t.worker w = .joined :=
  exists_finish (.of_run hrun) hexited

/-- The main thread of two is at the barrier, and no worker is. -/
theorem can_finish_pair : ∃ s, s.main.head? = some .barrierReturn ∧ s.arrived = 1 ∧
    ∃ ls t, Run (step 2) s ls t ∧ .exit ∉ ls ∧ t.main = [] ∧ ∀ w < 2, t.worker w = .joined := by
  have hrun : Run (step (Options.mk 2 none).numThreads) (State.start ⟨2, none⟩)
      [.main .scriptEngineCreate, .main .controlPlaneStart, .main (.createWorker 0),
        .main (.createWorker 1), .main (.pushData 0), .main (.pushData 1),
        .main (.pthreadCreate 0), .main (.pthreadCreate 1), .main .barrierArrive] _ :=
    .cons ⟨rfl, _, rfl, trivial, rfl⟩ <| .cons ⟨rfl, _, rfl, trivial, rfl⟩ <|
      .cons ⟨rfl, _, rfl, trivial, rfl⟩ <| .cons ⟨rfl, _, rfl, trivial, rfl⟩ <|
      .cons ⟨rfl, _, rfl, trivial, rfl⟩ <| .cons ⟨rfl, _, rfl, trivial, rfl⟩ <|
      .cons ⟨rfl, _, rfl, trivial, rfl⟩ <| .cons ⟨rfl, _, rfl, trivial, rfl⟩ <|
      .single ⟨rfl, _, rfl, trivial, rfl⟩
  exact ⟨_, rfl, rfl, can_finish hrun rfl⟩

/-! ## At the end -/

/-- The calls that the main thread has made. -/
def mainCalls (ls : List Label) : List Call :=
  ls.filterMap fun
    | .main c => some c
    | _ => none

/-- **The main thread keeps to its program.** -/
theorem mainCalls_append (hrun : Run (step opts.numThreads) (State.start opts) ls s) :
    mainCalls ls ++ s.main = runMainThread opts := by
  refine hrun.history (I := fun ls s => mainCalls ls ++ s.main = runMainThread opts) ?_ rfl
  rintro ls s l s' h ⟨-, hs⟩
  rw [← h, mainCalls, List.filterMap_append]
  cases l with
  | main c =>
    obtain ⟨rest, hmain, -, rfl⟩ := hs
    rw [hmain]
    simp [mainCalls]
  | worker w a =>
    have hmain : s'.main = s.main := by
      rcases State.act_cases hs with ⟨rfl, -⟩ | ⟨-, rfl⟩ | ⟨-, -, -, -, rfl⟩ <;> rfl
    rw [hmain]
    simp [mainCalls]
  | exit =>
    obtain rfl := hs
    simp [mainCalls]

theorem count_forThreads (hinj : Function.Injective each) (hw : w < n) :
    (forThreads n each).count (each w) = 1 := by
  rw [forThreads, List.count_map_of_injective _ _ hinj]
  exact List.count_eq_one_of_mem List.nodup_range (List.mem_range.mpr hw)

theorem count_forThreads_of_ne (h : ∀ v, each v ≠ c) : (forThreads n each).count c = 0 := by
  rw [List.count_eq_zero, mem_forThreads]
  rintro ⟨v, -, hv⟩
  exact h v hv

/-- What the main thread does about worker `w`, in this order. -/
def lifetime (w : ℕ) : List Call :=
  [.createWorker w, .pushData w, .pthreadCreate w, .barrierReturn, .eventfdWrite w,
    .pthreadJoin w, .pullData w, .reportStats, .freeWorker w]

/-- The whole program, with the calls of the script. -/
theorem runMainThread_eq (opts : Options) : ∃ before after,
    runMainThread opts = .scriptEngineCreate :: .controlPlaneStart ::
      (forThreads opts.numThreads .createWorker ++ (before ++
        (runWorkerThreads opts.numThreads ++ (after ++ (.controlPlaneStop :: .reportRusage ::
          .reportStats :: (forThreads opts.numThreads .freeWorker ++ [.scriptEngineDestroy])))))) ∧
      (∀ c ∈ before, c.OfScript) ∧ ∀ c ∈ after, c.OfScript := by
  obtain ⟨before, after, heq, hb, ha⟩ := exists_runThreads opts
  refine ⟨before, after, ?_, hb, ha⟩
  rw [runMainThread, heq, List.append_assoc, List.append_assoc]

/-- The calls of a worker's life are in the program, in their order. -/
theorem lifetime_sublist (opts : Options) (hw : w < opts.numThreads) :
    (lifetime w).Sublist (runMainThread opts) := by
  obtain ⟨before, after, heq, -, -⟩ := runMainThread_eq opts
  have hone : ∀ each : ℕ → Call, [each w].Sublist (forThreads opts.numThreads each) :=
    fun each => List.singleton_sublist.mpr (mem_forThreads.mpr ⟨w, hw, rfl⟩)
  have hrun : [.pushData w, .pthreadCreate w, .barrierReturn, .eventfdWrite w, .pthreadJoin w,
      .pullData w].Sublist (runWorkerThreads opts.numThreads) := by
    refine (hone .pushData).append ((hone .pthreadCreate).append ?_)
    refine .cons _ (.cons_cons _ (.cons _ (.cons _ (.cons _ ?_))))
    exact (hone .eventfdWrite).append ((hone .pthreadJoin).append (hone .pullData))
  rw [heq]
  refine .cons _ (.cons _ ((hone .createWorker).append ?_))
  refine (hrun.append ?_).trans (List.sublist_append_right before _)
  refine .trans ?_ (List.sublist_append_right after _)
  exact .cons _ (.cons _ (.cons_cons _ ((hone .freeWorker).trans (List.sublist_append_left _ _))))

/-- **Each of them is there once.** -/
theorem count_lifetime (opts : Options) (hw : w < opts.numThreads) :
    ∀ c ∈ lifetime w, (runMainThread opts).count c = 1 := by
  obtain ⟨before, after, heq, hb, ha⟩ := runMainThread_eq opts
  intro c hc
  have hscript : ∀ cs : List Call, (∀ d ∈ cs, d.OfScript) → cs.count c = 0 := by
    intro cs hcs
    rw [List.count_eq_zero]
    intro hmem
    rcases hcs c hmem with rfl | rfl <;> simp [lifetime] at hc
  have hself : ∀ each : ℕ → Call, each.Injective →
      (forThreads opts.numThreads each).count (each w) = 1 := fun each h => count_forThreads h hw
  rw [heq]
  simp only [runWorkerThreads, List.count_append, List.count_cons, List.count_nil, hscript _ hb,
    hscript _ ha]
  simp only [lifetime, List.mem_cons, List.not_mem_nil, or_false] at hc
  rcases hc with rfl | rfl | rfl | rfl | rfl | rfl | rfl | rfl | rfl
  all_goals simp [count_forThreads_of_ne, hself .createWorker fun _ _ => Call.createWorker.inj,
    hself .pushData fun _ _ => Call.pushData.inj,
    hself .pthreadCreate fun _ _ => Call.pthreadCreate.inj,
    hself .eventfdWrite fun _ _ => Call.eventfdWrite.inj,
    hself .pthreadJoin fun _ _ => Call.pthreadJoin.inj,
    hself .pullData fun _ _ => Call.pullData.inj,
    hself .freeWorker fun _ _ => Call.freeWorker.inj]

/-- **Each worker lives once.** For every number of threads and every
script, whether it calls `run` or not and however often: in a run in
which the main thread gets to its end, each worker was set up, created,
told to stop, joined, pulled from and freed once, in this order, and has
returned. -/
theorem each_worker_once (hrun : Run (step opts.numThreads) (State.start opts) ls s)
    (hmain : s.main = []) (hw : w < opts.numThreads) : (lifetime w).Sublist (mainCalls ls) ∧
      (∀ c ∈ lifetime w, (mainCalls ls).count c = 1) ∧ s.worker w = .joined := by
  have hcalls := mainCalls_append hrun
  rw [hmain, List.append_nil] at hcalls
  rw [hcalls]
  exact ⟨lifetime_sublist opts hw, count_lifetime opts hw, (Inv.of_run hrun).all_joined hmain hw⟩

/-- One thread, whose script calls `run` twice. -/
theorem each_worker_once_script : ∃ ls s, Run (step 1) (State.start ⟨1, some [.run, .run]⟩) ls s ∧
    (lifetime 0).Sublist (mainCalls ls) ∧ (∀ c ∈ lifetime 0, (mainCalls ls).count c = 1) ∧
      s.worker 0 = .joined := by
  obtain ⟨ls, s, hrun, -, hmain, -⟩ :=
    exists_finish (.start ⟨1, some [.run, .run]⟩) rfl
  exact ⟨ls, s, hrun,
    each_worker_once hrun hmain (by decide)⟩

end Thread

end Rushit
