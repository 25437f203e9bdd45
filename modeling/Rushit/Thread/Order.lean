import Mathlib.Data.Finset.Card
import Mathlib.Data.Finset.Range
import Mathlib.Tactic.SplitIfs
import Rushit.Thread.Model
/-!
# The order of the calls

The main thread creates and joins each worker once, whatever the script
does: its calls are those of `run_worker_threads` between others that
have nothing to do with the workers (`exists_runMainThread`). So what may
follow a call is known (`Ordered`), and the state of every worker, of the
barrier and of the stop events is known from the calls still to be made
(`Inv`).
-/

namespace Rushit

namespace Thread

variable {n : ℕ} {opts : Options} {s s' : State} {l : Label} {ls : List Label}
variable {c d : Call} {rest before after post : List Call} {w v : ℕ} {a : Action}
variable {each : ℕ → Call} {script : List ScriptAction}

/-! ## The program -/

@[simp] theorem mem_forThreads : c ∈ forThreads n each ↔ ∃ w < n, each w = c := by
  simp [forThreads]

/-- The calls that have nothing to do with the workers running. -/
def Call.Apart : Call → Prop
  | .pthreadCreate _ => False
  | .barrierArrive => False
  | .barrierReturn => False
  | .eventfdWrite _ => False
  | .pthreadJoin _ => False
  | _ => True

/-- None of the calls that have to do with the workers. -/
theorem not_mem_of_apart (h : ∀ c ∈ post, c.Apart) :
    (∀ w, .pthreadCreate w ∉ post) ∧ .barrierArrive ∉ post ∧ .barrierReturn ∉ post ∧
      (∀ w, .eventfdWrite w ∉ post) ∧ ∀ w, .pthreadJoin w ∉ post :=
  ⟨fun _ hc => h _ hc, fun hc => h _ hc, fun hc => h _ hc, fun _ hc => h _ hc, fun _ hc => h _ hc⟩

/-- The calls that come from the script. -/
def Call.OfScript (c : Call) : Prop := c = .lua ∨ c = .emptyCollectors

theorem Call.OfScript.apart (h : c.OfScript) : c.Apart := by
  rcases h with rfl | rfl <;> trivial

/-- After `run` the script goes on alone. -/
theorem ofScript_of_mem_runScript (h : c ∈ runScript n false script) : c.OfScript := by
  induction script with
  | nil => cases h
  | cons act script ih =>
    cases act with
    | lua => exact (List.mem_cons.mp h).elim .inl ih
    | run => exact ih h

/-- **The workers are run once**, whether the script calls `run` or not,
and however often. -/
theorem exists_runScript (n : ℕ) (script : List ScriptAction) : ∃ before after,
    runScript n true script = before ++ (runWorkerThreads n ++ after) ∧
      (∀ c ∈ before, c.OfScript) ∧ ∀ c ∈ after, c.OfScript := by
  induction script with
  | nil =>
    refine ⟨[.emptyCollectors], [], (List.append_nil _).symm, ?_, by simp⟩
    simp [Call.OfScript]
  | cons act script ih =>
    cases act with
    | lua =>
      obtain ⟨before, after, heq, hb, ha⟩ := ih
      refine ⟨.lua :: before, after, congrArg (List.cons _) heq, ?_, ha⟩
      intro c hc
      rcases List.mem_cons.mp hc with rfl | hc
      · exact .inl rfl
      · exact hb c hc
    | run =>
      refine ⟨[.emptyCollectors], runScript n false script, rfl, ?_,
        fun c => ofScript_of_mem_runScript⟩
      simp [Call.OfScript]

theorem exists_runThreads (opts : Options) : ∃ before after,
    runThreads opts = before ++ (runWorkerThreads opts.numThreads ++ after) ∧
      (∀ c ∈ before, c.OfScript) ∧ ∀ c ∈ after, c.OfScript := by
  unfold runThreads
  split
  · exact exists_runScript _ _
  · exact ⟨[], [], (List.append_nil _).symm, by simp, by simp⟩

/-- **The program of the main thread**, around `run_worker_threads`. -/
theorem exists_runMainThread (opts : Options) : ∃ before after,
    runMainThread opts = before ++ (runWorkerThreads opts.numThreads ++ after) ∧
      (∀ c ∈ before, c.Apart) ∧ ∀ c ∈ after, c.Apart := by
  obtain ⟨before, after, heq, hb, ha⟩ := exists_runThreads opts
  refine ⟨.scriptEngineCreate :: .controlPlaneStart ::
      (forThreads opts.numThreads .createWorker ++ before),
    after ++ (.controlPlaneStop :: .reportRusage :: .reportStats ::
      (forThreads opts.numThreads .freeWorker ++ [.scriptEngineDestroy])), ?_, ?_, ?_⟩
  · rw [runMainThread, heq]
    simp only [List.cons_append, List.append_assoc]
  · intro c hc
    simp only [List.mem_cons, List.mem_append, mem_forThreads] at hc
    rcases hc with rfl | rfl | ⟨w, -, rfl⟩ | hc
    · trivial
    · trivial
    · trivial
    · exact (hb c hc).apart
  · intro c hc
    simp only [List.mem_cons, List.mem_append, mem_forThreads, List.not_mem_nil, or_false] at hc
    rcases hc with hc | rfl | rfl | rfl | ⟨w, -, rfl⟩ | rfl
    · exact (ha c hc).apart
    all_goals trivial

/-! ## What may follow a call -/

/-- The calls that use what worker `w` uses, apart from `rusage_start`. -/
def Call.Excludes (w : ℕ) : Call → Prop
  | .scriptEngineCreate => True
  | .createWorker v => v = w
  | .lua => True
  | .emptyCollectors => True
  | .pullData _ => True
  | .reportRusage => True
  | .reportStats => True
  | .freeWorker v => v = w
  | .scriptEngineDestroy => True
  | _ => False

/-- What is known of the calls that follow `c`. -/
structure Follows (n : ℕ) (c : Call) (rest : List Call) : Prop where
  excludes : ∀ w, c.Excludes w → .pthreadCreate w ∈ rest ∨ .pthreadJoin w ∉ rest
  create : ∀ w, c = .pthreadCreate w → w < n ∧ .pthreadCreate w ∉ rest ∧ .pthreadJoin w ∈ rest ∧
    .barrierReturn ∈ rest
  arrive : c = .barrierArrive → .barrierArrive ∉ rest ∧ .barrierReturn ∈ rest
  passed : c = .barrierReturn → .barrierReturn ∉ rest ∧ .barrierArrive ∉ rest ∧
    ∀ w, .pthreadCreate w ∉ rest
  tell : ∀ w, c = .eventfdWrite w → .eventfdWrite w ∉ rest
  join : ∀ w, c = .pthreadJoin w → w < n ∧ .pthreadJoin w ∉ rest ∧ .pthreadCreate w ∉ rest ∧
    .eventfdWrite w ∉ rest ∧ .barrierReturn ∉ rest

/-- Every call of the list is followed by what may follow it. -/
def Ordered (n : ℕ) : List Call → Prop
  | [] => True
  | c :: rest => Follows n c rest ∧ Ordered n rest

/-- A call that has nothing to do with the workers running. -/
theorem Follows.of_apart (hc : c.Apart)
    (h : ∀ w, c.Excludes w → .pthreadCreate w ∈ rest ∨ .pthreadJoin w ∉ rest) :
    Follows n c rest where
  excludes := h
  create := by rintro w rfl; exact hc.elim
  arrive := by rintro rfl; exact hc.elim
  passed := by rintro rfl; exact hc.elim
  tell := by rintro w rfl; exact hc.elim
  join := by rintro w rfl; exact hc.elim

theorem ordered_append (h : ∀ before c after, rest = before ++ c :: after →
      Follows n c (after ++ post)) (hpost : Ordered n post) : Ordered n (rest ++ post) := by
  induction rest with
  | nil => exact hpost
  | cons c rest ih =>
    refine ⟨h [] c rest rfl, ih fun before d after heq => ?_⟩
    exact h (c :: before) d after (congrArg (List.cons c) heq)

/-- The same call for every thread: it is followed by those for the
threads after it. -/
theorem ordered_forThreads
    (h : ∀ w < n, ∀ later : List ℕ, (∀ v ∈ later, w < v ∧ v < n) →
      Follows n (each w) (later.map each ++ post)) (hpost : Ordered n post) :
    Ordered n (forThreads n each ++ post) := by
  refine ordered_append (fun before c after heq => ?_) hpost
  obtain ⟨l₁, l₂, hrange, -, hmap⟩ := List.map_eq_append_iff.mp heq
  obtain ⟨w, later, rfl, rfl, rfl⟩ := List.map_eq_cons_iff.mp hmap
  have hw : w ∈ List.range n := by simp [hrange]
  refine h w (List.mem_range.mp hw) later fun v hv => ⟨?_, ?_⟩
  · have hsorted : (l₁ ++ w :: later).Pairwise (· < ·) := hrange ▸ List.pairwise_lt_range
    exact List.rel_of_pairwise_cons (List.pairwise_append.mp hsorted).2.1 hv
  · exact List.mem_range.mp (by simp [hrange, hv])

theorem ordered_of_apart (h : ∀ c ∈ rest, c.Apart)
    (hjoin : ∀ w, .pthreadCreate w ∈ post ∨ .pthreadJoin w ∉ post) (hpost : Ordered n post) :
    Ordered n (rest ++ post) := by
  refine ordered_append (fun before c after heq => ?_) hpost
  have hmem : ∀ d ∈ after, d.Apart := fun d hd => h d (by simp [heq, hd])
  refine .of_apart (h c (by simp [heq])) fun w _ => ?_
  rcases hjoin w with hc | hj
  · exact .inl (List.mem_append_right _ hc)
  · refine .inr fun hmem' => ?_
    rcases List.mem_append.mp hmem' with hd | hd
    · exact (hmem _ hd).elim
    · exact hj hd

/-- The calls after the workers have been joined. -/
theorem ordered_pull (h : ∀ c ∈ post, c.Apart) : Ordered n (forThreads n .pullData ++ post) := by
  have happart : ∀ c ∈ forThreads n .pullData, c.Apart := by
    intro c hc
    obtain ⟨w, -, rfl⟩ := mem_forThreads.mp hc
    trivial
  refine ordered_of_apart happart (fun w => .inr fun hj => (h _ hj).elim) ?_
  rw [← List.append_nil post]
  exact ordered_of_apart h (fun w => .inr List.not_mem_nil) trivial

theorem ordered_join (h : ∀ c ∈ post, c.Apart) :
    Ordered n (forThreads n .pthreadJoin ++ (forThreads n .pullData ++ post)) := by
  refine ordered_forThreads (fun w hw later hlater => ?_) (ordered_pull h)
  refine ⟨fun _ h => h.elim, nofun, nofun, nofun, nofun, ?_⟩
  rintro v ⟨⟩
  obtain ⟨hcreate, harrive, hreturn, htell, hjoin⟩ := not_mem_of_apart h
  refine ⟨hw, ?_, ?_, ?_, ?_⟩
  · simp only [List.mem_append, List.mem_map, mem_forThreads, not_or, Call.pthreadJoin.injEq]
    refine ⟨?_, by simp, hjoin w⟩
    rintro ⟨u, hu, heq⟩
    exact absurd (hlater u hu).1 (by omega)
  all_goals simp [hcreate, htell, hreturn]

theorem ordered_tell (h : ∀ c ∈ post, c.Apart) : Ordered n (forThreads n .eventfdWrite ++
    (forThreads n .pthreadJoin ++ (forThreads n .pullData ++ post))) := by
  refine ordered_forThreads (fun w hw later hlater => ?_) (ordered_join h)
  refine ⟨fun _ h => h.elim, nofun, nofun, nofun, ?_, nofun⟩
  rintro v ⟨⟩
  obtain ⟨hcreate, harrive, hreturn, htell, hjoin⟩ := not_mem_of_apart h
  simp only [List.mem_append, List.mem_map, mem_forThreads, not_or, Call.eventfdWrite.injEq]
  refine ⟨?_, by simp, by simp, htell w⟩
  rintro ⟨u, hu, heq⟩
  exact absurd (hlater u hu).1 (by omega)

/-- **`run_worker_threads`, and what follows.** -/
theorem ordered_runWorkerThreads (h : ∀ c ∈ post, c.Apart) :
    Ordered n (runWorkerThreads n ++ post) := by
  obtain ⟨hcreate, harrive, hreturn, htell, hjoin⟩ := not_mem_of_apart h
  have htail := ordered_tell (n := n) h
  have hmid : Ordered n (.barrierArrive :: .barrierReturn :: .getrusageStart :: .waitUntilDone ::
      .getrusageEnd :: (forThreads n .eventfdWrite ++
        (forThreads n .pthreadJoin ++ (forThreads n .pullData ++ post)))) := by
    refine ⟨⟨fun _ h => h.elim, nofun, fun _ => ?_, nofun, nofun, nofun⟩,
      ⟨fun _ h => h.elim, nofun, nofun, fun _ => ?_, nofun, nofun⟩,
      .of_apart trivial fun _ h => h.elim, .of_apart trivial fun _ h => h.elim,
      .of_apart trivial fun _ h => h.elim, htail⟩
    all_goals simp [hcreate, harrive, hreturn]
  have hworkers : Ordered n (forThreads n .pthreadCreate ++ (.barrierArrive :: .barrierReturn ::
      .getrusageStart :: .waitUntilDone :: .getrusageEnd :: (forThreads n .eventfdWrite ++
        (forThreads n .pthreadJoin ++ (forThreads n .pullData ++ post))))) := by
    refine ordered_forThreads (fun w hw later hlater => ?_) hmid
    refine ⟨fun _ h => h.elim, ?_, nofun, nofun, nofun, nofun⟩
    rintro v ⟨⟩
    refine ⟨hw, ?_, by simp [hw], by simp⟩
    simp only [List.mem_append, List.mem_map, List.mem_cons, mem_forThreads, not_or,
      Call.pthreadCreate.injEq]
    refine ⟨?_, by simp, by simp, by simp, by simp, by simp, by simp, by simp, by simp, hcreate w⟩
    rintro ⟨u, hu, heq⟩
    exact absurd (hlater u hu).1 (by omega)
  have heq : runWorkerThreads n ++ post = forThreads n .pushData ++
      (forThreads n .pthreadCreate ++ (.barrierArrive :: .barrierReturn :: .getrusageStart ::
        .waitUntilDone :: .getrusageEnd :: (forThreads n .eventfdWrite ++
          (forThreads n .pthreadJoin ++ (forThreads n .pullData ++ post))))) := by
    simp only [runWorkerThreads, List.append_assoc, List.cons_append]
  rw [heq]
  refine ordered_of_apart (fun c hc => ?_) (fun w => ?_) hworkers
  · obtain ⟨w, -, rfl⟩ := mem_forThreads.mp hc
    trivial
  · by_cases hw : w < n
    · exact .inl (List.mem_append_left _ (mem_forThreads.mpr ⟨w, hw, rfl⟩))
    · simp [hw, hjoin]

/-- **The program is ordered.** -/
theorem ordered_runMainThread (opts : Options) :
    Ordered opts.numThreads (runMainThread opts) := by
  obtain ⟨before, after, heq, hb, ha⟩ := exists_runMainThread opts
  rw [heq]
  refine ordered_of_apart hb (fun w => ?_) (ordered_runWorkerThreads ha)
  by_cases hw : w < opts.numThreads
  · exact .inl (by simp [runWorkerThreads, hw])
  · obtain ⟨-, -, -, -, hjoin⟩ := not_mem_of_apart ha
    exact .inr (by simp [runWorkerThreads, hw, hjoin])

/-! ## What the calls tell -/

/-- The worker has not got to the barrier. -/
def Phase.Early (p : Phase) : Prop := p = .absent ∨ p = .setup

instance (p : Phase) : Decidable p.Early := inferInstanceAs (Decidable (_ ∨ _))

/-- The worker has got to the barrier and was not joined. -/
def Phase.Late (p : Phase) : Prop := ¬ p.Early ∧ p ≠ .joined

instance (p : Phase) : Decidable p.Late := inferInstanceAs (Decidable (_ ∧ _))

/-- The workers that have not got to the barrier. -/
def early (n : ℕ) (worker : ℕ → Phase) : Finset ℕ :=
  (Finset.range n).filter fun w => (worker w).Early

theorem mem_early {worker : ℕ → Phase} : w ∈ early n worker ↔ w < n ∧ (worker w).Early := by
  rw [early, Finset.mem_filter, Finset.mem_range]

/-- A worker that stays on its side of the barrier. -/
theorem early_update {worker : ℕ → Phase} {p : Phase} (h : p.Early ↔ (worker w).Early) :
    early n (Function.update worker w p) = early n worker := by
  ext v
  rw [mem_early, mem_early]
  by_cases hv : v = w
  · subst hv
    rw [Function.update_self, h]
  · rw [Function.update_of_ne hv]

/-- A worker that gets to the barrier. -/
theorem early_update_of_not {worker : ℕ → Phase} {p : Phase} (h : ¬ p.Early) :
    early n (Function.update worker w p) = (early n worker).erase w := by
  ext v
  rw [Finset.mem_erase, mem_early, mem_early]
  by_cases hv : v = w
  · subst hv
    rw [Function.update_self]
    simp [h]
  · rw [Function.update_of_ne hv]
    simp [hv]

/-- **What holds in every run.** -/
structure Inv (n : ℕ) (s : State) : Prop where
  order : Ordered n s.main
  absent : ∀ w, s.worker w = .absent ↔ (w < n → .pthreadCreate w ∈ s.main)
  joined : ∀ w < n, s.worker w = .joined ↔ .pthreadJoin w ∉ s.main
  told : ∀ w < n, .eventfdWrite w ∈ s.main ∨ s.told w = true
  /-- All get to the barrier once. -/
  arrived : s.arrived + (if .barrierArrive ∈ s.main then 1 else 0) + (early n s.worker).card = n + 1
  passed : .barrierReturn ∈ s.main ∨ s.arrived = n + 1

theorem Inv.start (opts : Options) : Inv opts.numThreads (State.start opts) where
  order := ordered_runMainThread opts
  absent w := by
    obtain ⟨before, after, heq, -⟩ := exists_runMainThread opts
    simp only [State.start, heq, runWorkerThreads, true_iff]
    intro hw
    simp [hw]
  joined w hw := by
    obtain ⟨before, after, heq, -⟩ := exists_runMainThread opts
    simp [State.start, heq, runWorkerThreads, hw]
  told w hw := by
    obtain ⟨before, after, heq, -⟩ := exists_runMainThread opts
    simp [State.start, heq, runWorkerThreads, hw]
  arrived := by
    obtain ⟨before, after, heq, -⟩ := exists_runMainThread opts
    simp [State.start, early, Phase.Early, heq, runWorkerThreads]
    omega
  passed := by
    obtain ⟨before, after, heq, -⟩ := exists_runMainThread opts
    simp [State.start, heq, runWorkerThreads]

section Actions

theorem State.act_barrierArrive (h : s.worker w = .setup) : s.act n w .barrierArrive =
    some { s.setWorker w .arrived with arrived := s.arrived + 1 } := by
  unfold State.act
  rw [h]

theorem State.act_barrierReturn (h : s.worker w = .arrived) (hall : s.arrived = n + 1) :
    s.act n w .barrierReturn = some (s.setWorker w .running) := by
  unfold State.act
  rw [h]
  exact if_pos hall

theorem State.act_lock {writes : Bool} (h : s.worker w = .running)
    (hwrites : writes = !s.initialized) : s.act n w (.lock writes) =
      some { s.setWorker w .unlocked with initialized := true } := by
  unfold State.act
  rw [h]
  exact if_pos hwrites

theorem State.act_readTimeStart (h : s.worker w = .unlocked) :
    s.act n w .readTimeStart = some (s.setWorker w .running) := by
  unfold State.act
  rw [h]

theorem State.act_stop (h : s.worker w = .running) (htold : s.told w = true) :
    s.act n w .stop = some (s.setWorker w .closing) := by
  unfold State.act
  rw [h]
  exact if_pos htold

theorem State.act_leave (h : s.worker w = .closing) :
    s.act n w .leave = some (s.setWorker w .returned) := by
  unfold State.act
  rw [h]

end Actions

/-- **What an action of a worker does**: nothing that matters here, or
the worker gets to the barrier, or it goes on from there. -/
theorem State.act_cases (h : s.act n w a = some s') : s' = s ∧ s.worker w ≠ .absent ∧
      s.worker w ≠ .joined ∨
    s.worker w = .setup ∧ s' = { s.setWorker w .arrived with arrived := s.arrived + 1 } ∨
    ∃ p b, (s.worker w).Late ∧ p.Late ∧ s' = { s.setWorker w p with initialized := b } := by
  have hstay : ∀ p, p.Late → (s.worker w).Late → some (s.setWorker w p) = some s' →
      ∃ p b, (s.worker w).Late ∧ p.Late ∧ s' = { s.setWorker w p with initialized := b } :=
    fun p hp hw heq => ⟨p, s.initialized, hw, hp, (Option.some.inj heq).symm⟩
  unfold State.act at h
  split at h
  all_goals rename_i hw
  · exact .inl ⟨(Option.some.inj h).symm, by rw [hw]; decide, by rw [hw]; decide⟩
  · exact .inl ⟨(Option.some.inj h).symm, by rw [hw]; decide, by rw [hw]; decide⟩
  · exact .inl ⟨(Option.some.inj h).symm, by rw [hw]; decide, by rw [hw]; decide⟩
  · exact .inr (.inl ⟨hw, (Option.some.inj h).symm⟩)
  · split_ifs at h
    exact .inr (.inr (hstay _ (by decide) (by rw [hw]; decide) h))
  · split_ifs at h
    exact .inr (.inr ⟨.unlocked, true, by rw [hw]; decide, by decide, (Option.some.inj h).symm⟩)
  · exact .inr (.inr (hstay _ (by decide) (by rw [hw]; decide) h))
  · exact .inl ⟨(Option.some.inj h).symm, by rw [hw]; decide, by rw [hw]; decide⟩
  · split_ifs at h
    exact .inr (.inr (hstay _ (by decide) (by rw [hw]; decide) h))
  · exact .inr (.inr (hstay _ (by decide) (by rw [hw]; decide) h))
  · cases h

namespace Inv

/-- A worker that is not there was not created yet. -/
theorem lt_of_ne_absent (h : Inv n s) (hw : s.worker w ≠ .absent) :
    w < n ∧ .pthreadCreate w ∉ s.main := by
  by_contra hcon
  exact hw ((h.absent w).mpr fun hlt => by_contra fun hc => hcon ⟨hlt, hc⟩)

/-- The calls that have nothing to do with the workers running. -/
theorem apart (h : Inv n s) (hmain : s.main = c :: rest) (hc : c.Apart) :
    Inv n { s with main := rest } := by
  have hmem : ∀ d : Call, ¬ d.Apart → (d ∈ s.main ↔ d ∈ rest) := by
    intro d hd
    rw [hmain, List.mem_cons, or_iff_right]
    rintro rfl
    exact hd hc
  refine ⟨(hmain ▸ h.order).2, fun w => ?_, fun w hw => ?_, fun w hw => ?_, ?_, ?_⟩
  · rw [← hmem _ id]
    exact h.absent w
  · rw [← hmem _ id]
    exact h.joined w hw
  · rw [← hmem _ id]
    exact h.told w hw
  · have harr := h.arrived
    rw [if_congr (hmem .barrierArrive id) rfl rfl] at harr
    exact harr
  · rw [← hmem _ id]
    exact h.passed

theorem pthreadCreate (h : Inv n s) (hmain : s.main = .pthreadCreate w :: rest) :
    Inv n { s.setWorker w .setup with main := rest } := by
  have hord := h.order
  rw [hmain] at hord
  obtain ⟨hw, hnot, hjoin, hreturn⟩ := hord.1.create w rfl
  have habs : s.worker w = .absent := (h.absent w).mpr fun _ => by simp [hmain]
  refine ⟨hord.2, fun v => ?_, fun v hv => ?_, fun v hv => ?_, ?_, .inl hreturn⟩
  · by_cases hvw : v = w
    · subst hvw
      simp [State.setWorker, hw, hnot]
    · have hv := h.absent v
      simpa [State.setWorker, hmain, hvw] using hv
  · by_cases hvw : v = w
    · subst hvw
      simp [State.setWorker, hjoin]
    · have hj := h.joined v hv
      simpa [State.setWorker, hmain, hvw] using hj
  · have ht := h.told v hv
    simpa [State.setWorker, hmain] using ht
  · have harr := h.arrived
    rw [← early_update (w := w) (p := .setup) (by rw [habs]; decide)] at harr
    simpa [State.setWorker, hmain] using harr

theorem barrierArrive (h : Inv n s) (hmain : s.main = .barrierArrive :: rest) :
    Inv n { s with arrived := s.arrived + 1, main := rest } := by
  have hord := h.order
  rw [hmain] at hord
  obtain ⟨hnot, hreturn⟩ := hord.1.arrive rfl
  refine ⟨hord.2, fun v => ?_, fun v hv => ?_, fun v hv => ?_, ?_, .inl hreturn⟩
  · simpa [hmain] using h.absent v
  · simpa [hmain] using h.joined v hv
  · simpa [hmain] using h.told v hv
  · have harr := h.arrived
    simp only [hmain, List.mem_cons_self, if_true] at harr
    simp only [hnot, if_false]
    exact harr

theorem barrierReturn (h : Inv n s) (hmain : s.main = .barrierReturn :: rest)
    (harrived : s.arrived = n + 1) : Inv n { s with main := rest } := by
  have hord := h.order
  rw [hmain] at hord
  refine ⟨hord.2, fun v => ?_, fun v hv => ?_, fun v hv => ?_, ?_, .inr harrived⟩
  · simpa [hmain] using h.absent v
  · simpa [hmain] using h.joined v hv
  · simpa [hmain] using h.told v hv
  · simpa [hmain] using h.arrived

theorem eventfdWrite (h : Inv n s) (hmain : s.main = .eventfdWrite w :: rest) :
    Inv n { s with told := Function.update s.told w true, main := rest } := by
  have hord := h.order
  rw [hmain] at hord
  refine ⟨hord.2, fun v => ?_, fun v hv => ?_, fun v hv => ?_, ?_, ?_⟩
  · simpa [hmain] using h.absent v
  · simpa [hmain] using h.joined v hv
  · by_cases hvw : v = w
    · subst hvw
      exact .inr (Function.update_self ..)
    · simpa [hmain, hvw] using h.told v hv
  · simpa [hmain] using h.arrived
  · simpa [hmain] using h.passed

theorem pthreadJoin (h : Inv n s) (hmain : s.main = .pthreadJoin w :: rest)
    (hret : s.worker w = .returned) : Inv n { s.setWorker w .joined with main := rest } := by
  have hord := h.order
  rw [hmain] at hord
  obtain ⟨hw, hnot, hcreate, -⟩ := hord.1.join w rfl
  refine ⟨hord.2, fun v => ?_, fun v hv => ?_, fun v hv => ?_, ?_, ?_⟩
  · by_cases hvw : v = w
    · subst hvw
      simp [State.setWorker, hw, hcreate]
    · have hv := h.absent v
      simpa [State.setWorker, hmain, hvw] using hv
  · by_cases hvw : v = w
    · subst hvw
      simp [State.setWorker, hnot]
    · have hj := h.joined v hv
      simpa [State.setWorker, hmain, hvw] using hj
  · have ht := h.told v hv
    simpa [State.setWorker, hmain] using ht
  · have harr := h.arrived
    rw [← early_update (w := w) (p := .joined) (by rw [hret]; decide)] at harr
    simpa [State.setWorker, hmain] using harr
  · have hp := h.passed
    simpa [State.setWorker, hmain] using hp

/-- **A call of the main thread.** -/
theorem call (h : Inv n s) (hmain : s.main = c :: rest) (hcan : s.CanCall n c) :
    Inv n { s.call c with main := rest } := by
  by_cases hc : c.Apart
  · have hsame : s.call c = s := by
      cases c <;> first | rfl | exact hc.elim
    rw [hsame]
    exact h.apart hmain hc
  · cases c with
    | pthreadCreate w => exact h.pthreadCreate hmain
    | barrierArrive => exact h.barrierArrive hmain
    | barrierReturn => exact h.barrierReturn hmain hcan
    | eventfdWrite w => exact h.eventfdWrite hmain
    | pthreadJoin w => exact h.pthreadJoin hmain hcan
    | _ => exact absurd trivial hc

/-- **An action of a worker.** -/
theorem act (h : Inv n s) (ha : s.act n w a = some s') : Inv n s' := by
  rcases State.act_cases ha with ⟨rfl, -⟩ | ⟨hw, rfl⟩ | ⟨p, b, hw, hp, rfl⟩
  · exact h
  · -- the worker gets to the barrier
    have hlt := (h.lt_of_ne_absent (w := w) (by rw [hw]; decide)).1
    have hmem : w ∈ early n s.worker := mem_early.mpr ⟨hlt, by rw [hw]; decide⟩
    have hcard := Finset.card_erase_add_one hmem
    have harr := h.arrived
    refine ⟨h.order, fun v => ?_, fun v hv => ?_, h.told, ?_, ?_⟩
    · by_cases hvw : v = w
      · subst hvw
        have habs := h.absent v
        simpa [State.setWorker, hw] using habs
      · simpa [State.setWorker, hvw] using h.absent v
    · by_cases hvw : v = w
      · subst hvw
        have hj := h.joined v hv
        simpa [State.setWorker, hw] using hj
      · simpa [State.setWorker, hvw] using h.joined v hv
    · show s.arrived + 1 + (if .barrierArrive ∈ s.main then 1 else 0) +
        (early n (Function.update s.worker w .arrived)).card = n + 1
      rw [early_update_of_not (by decide)]
      omega
    · refine h.passed.imp_right fun hall => ?_
      omega
  · have hne : s.worker w ≠ .absent ∧ s.worker w ≠ .joined := ⟨fun he => hw.1 (.inl he), hw.2⟩
    have hpne : p ≠ .absent ∧ p ≠ .joined := ⟨fun he => hp.1 (.inl he), hp.2⟩
    refine ⟨h.order, fun v => ?_, fun v hv => ?_, h.told, ?_, h.passed⟩
    · by_cases hvw : v = w
      · subst hvw
        have habs := h.absent v
        simpa [State.setWorker, hne.1, hpne.1] using habs
      · simpa [State.setWorker, hvw] using h.absent v
    · by_cases hvw : v = w
      · subst hvw
        have hj := h.joined v hv
        simpa [State.setWorker, hne.2, hpne.2] using hj
      · simpa [State.setWorker, hvw] using h.joined v hv
    · show s.arrived + _ + (early n (Function.update s.worker w p)).card = n + 1
      rw [early_update (iff_of_false hp.1 hw.1)]
      exact h.arrived

/-- **One step keeps the invariant.** -/
theorem step (h : Inv n s) (hs : step n s l s') : Inv n s' := by
  obtain ⟨-, hs⟩ := hs
  cases l with
  | main c =>
    obtain ⟨rest, hmain, hcan, rfl⟩ := hs
    exact h.call hmain hcan
  | worker w a => exact h.act hs
  | exit =>
    obtain rfl := hs
    exact ⟨h.order, h.absent, h.joined, h.told, h.arrived, h.passed⟩

/-- **The invariant holds in every run.** -/
theorem of_run (hrun : Run (Thread.step opts.numThreads) (State.start opts) ls s) :
    Inv opts.numThreads s :=
  hrun.preserves (fun _ _ _ h hs => h.step hs) (.start opts)

end Inv

end Thread

end Rushit
