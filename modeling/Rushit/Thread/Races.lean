import Rushit.Thread.Order
/-!
# The threads do not race

Two steps of different threads that use the same memory, and not both
only read it, are ordered by what synchronises (`race_free`): the main
thread uses what a worker uses before it creates it or after it has
joined it, and of the workers the first one to have the mutex writes
`time_start`. The exception is the main thread's own `getrusage` into
`rusage_start`, which a worker may write just then (`rusage_race`).
-/

namespace Rushit

namespace Thread

variable {n : ℕ} {opts : Options} {s s' t : State} {l x y : Label} {ls : List Label}
variable {c : Call} {cs rest : List Call} {w v i j k : ℕ} {a b : Action} {ws : List ℕ}

/-! ## What the steps taken tell -/

/-- **What is known from the steps taken.** -/
structure History (ls : List Label) (s : State) : Prop where
  created : ∀ w, s.worker w ≠ .absent ↔ .main (.pthreadCreate w) ∈ ls
  joined : ∀ w, s.worker w = .joined ↔ .main (.pthreadJoin w) ∈ ls
  initialized : s.initialized = true ↔ ∃ w b, .worker w (.lock b) ∈ ls
  unlocked : ∀ w, s.worker w = .unlocked → ∃ b, .worker w (.lock b) ∈ ls

namespace History

theorem start (opts : Options) : History [] (State.start opts) where
  created w := by simp [State.start]
  joined w := by simp [State.start]
  initialized := by simp [State.start]
  unlocked w h := by cases h

/-- A step that none of this depends on. -/
theorem same (h : History ls s) (hworker : s'.worker = s.worker)
    (hinit : s'.initialized = s.initialized) (hcreate : ∀ w, l ≠ .main (.pthreadCreate w))
    (hjoin : ∀ w, l ≠ .main (.pthreadJoin w)) (hlock : ∀ w b, l ≠ .worker w (.lock b)) :
    History (ls ++ [l]) s' where
  created w := by simp [hworker, h.created w, (hcreate w).symm]
  joined w := by simp [hworker, h.joined w, (hjoin w).symm]
  initialized := by
    rw [hinit, h.initialized]
    simp [fun w b => (hlock w b).symm]
  unlocked w hw := by
    rw [hworker] at hw
    obtain ⟨b, hb⟩ := h.unlocked w hw
    exact ⟨b, List.mem_append_left _ hb⟩

/-- Worker `w` goes on, in the loop or out of it. -/
theorem worker {p : Phase} (h : History ls s) (hw : s.worker w ≠ .absent ∧ s.worker w ≠ .joined)
    (hp : p ≠ .absent ∧ p ≠ .joined) (hinit : s'.initialized = true ↔
      ∃ v b, .worker v (.lock b) ∈ ls ++ [.worker w a])
    (hlock : p = .unlocked → ∃ b, a = .lock b)
    (hs' : s'.worker = Function.update s.worker w p) : History (ls ++ [.worker w a]) s' where
  created v := by
    by_cases hv : v = w
    · subst hv
      simp [hs', hp.1, ← h.created v, hw.1]
    · simp [hs', hv, ← h.created v]
  joined v := by
    by_cases hv : v = w
    · subst hv
      simp [hs', hp.2, ← h.joined v, hw.2]
    · simp [hs', hv, ← h.joined v]
  initialized := hinit
  unlocked v hv := by
    by_cases hvw : v = w
    · subst hvw
      rw [hs', Function.update_self] at hv
      obtain ⟨b, rfl⟩ := hlock hv
      exact ⟨b, by simp⟩
    · rw [hs', Function.update_of_ne hvw] at hv
      obtain ⟨b, hb⟩ := h.unlocked v hv
      exact ⟨b, List.mem_append_left _ hb⟩

/-- **A call of the main thread.** -/
theorem call (h : History ls s) (hinv : Inv n s) (hmain : s.main = c :: rest)
    (hcan : s.CanCall n c) : History (ls ++ [.main c]) { s.call c with main := rest } := by
  have hinit : s.initialized = true ↔ ∃ v b, .worker v (.lock b) ∈ ls ++ [.main c] := by
    rw [h.initialized]
    simp
  cases c with
  | pthreadCreate w =>
    have habs : s.worker w = .absent := (hinv.absent w).mpr fun _ => by simp [hmain]
    refine ⟨fun v => ?_, fun v => ?_, hinit, fun v hv => ?_⟩
    all_goals by_cases hvw : v = w
    · subst hvw
      simp [State.call, State.setWorker]
    · simp [State.call, State.setWorker, hvw, h.created v]
    · subst hvw
      have hj := h.joined v
      simpa [State.call, State.setWorker, habs] using hj
    · simp [State.call, State.setWorker, hvw, h.joined v]
    · subst hvw
      simp [State.call, State.setWorker] at hv
    · simp only [State.call, State.setWorker, Function.update_of_ne hvw] at hv
      obtain ⟨b, hb⟩ := h.unlocked v hv
      exact ⟨b, List.mem_append_left _ hb⟩
  | pthreadJoin w =>
    have hret : s.worker w = .returned := hcan
    refine ⟨fun v => ?_, fun v => ?_, hinit, fun v hv => ?_⟩
    all_goals by_cases hvw : v = w
    · subst hvw
      have hc := h.created v
      simpa [State.call, State.setWorker, hret] using hc
    · simp [State.call, State.setWorker, hvw, h.created v]
    · subst hvw
      simp [State.call, State.setWorker]
    · simp [State.call, State.setWorker, hvw, h.joined v]
    · subst hvw
      simp [State.call, State.setWorker] at hv
    · simp only [State.call, State.setWorker, Function.update_of_ne hvw] at hv
      obtain ⟨b, hb⟩ := h.unlocked v hv
      exact ⟨b, List.mem_append_left _ hb⟩
  | _ =>
    refine h.same rfl rfl (fun w => ?_) (fun w => ?_) fun w b => ?_
    all_goals simp

/-- **An action of a worker.** -/
theorem act (h : History ls s) (ha : s.act n w a = some s') :
    History (ls ++ [.worker w a]) s' := by
  have hkeep : (∀ b, a ≠ .lock b) →
      (s.initialized = true ↔ ∃ v b, .worker v (.lock b) ∈ ls ++ [.worker w a]) := by
    intro hne
    rw [h.initialized]
    simp [fun b => (hne b).symm]
  unfold State.act at ha
  split at ha
  all_goals rename_i hw
  · obtain rfl := Option.some.inj ha
    exact h.same rfl rfl nofun nofun nofun
  · obtain rfl := Option.some.inj ha
    exact h.same rfl rfl nofun nofun nofun
  · obtain rfl := Option.some.inj ha
    exact h.same rfl rfl nofun nofun nofun
  · obtain rfl := Option.some.inj ha
    exact h.worker (p := .arrived) (by simp [hw]) (by decide) (hkeep nofun) nofun rfl
  · split_ifs at ha
    obtain rfl := Option.some.inj ha
    exact h.worker (p := .running) (by simp [hw]) (by decide) (hkeep nofun) nofun rfl
  · split_ifs at ha
    obtain rfl := Option.some.inj ha
    exact h.worker (p := .unlocked) (by simp [hw]) (by decide)
      ⟨fun _ => ⟨w, _, List.mem_append_right _ (List.mem_singleton.mpr rfl)⟩, fun _ => rfl⟩
      (fun _ => ⟨_, rfl⟩) rfl
  · obtain rfl := Option.some.inj ha
    exact h.worker (p := .running) (by simp [hw]) (by decide) (hkeep nofun) nofun rfl
  · obtain rfl := Option.some.inj ha
    exact h.same rfl rfl nofun nofun nofun
  · split_ifs at ha
    obtain rfl := Option.some.inj ha
    exact h.worker (p := .closing) (by simp [hw]) (by decide) (hkeep nofun) nofun rfl
  · obtain rfl := Option.some.inj ha
    exact h.worker (p := .returned) (by simp [hw]) (by decide) (hkeep nofun) nofun rfl
  · cases ha

/-- **What is known in every run.** -/
theorem of_run (hrun : Run (step opts.numThreads) (State.start opts) ls s) :
    Inv opts.numThreads s ∧ History ls s := by
  refine hrun.history (I := fun ls s => Inv opts.numThreads s ∧ History ls s) ?_
    ⟨.start opts, .start opts⟩
  rintro ls s l s' ⟨hinv, h⟩ hs
  refine ⟨hinv.step hs, ?_⟩
  obtain ⟨-, hs⟩ := hs
  cases l with
  | main c =>
    obtain ⟨rest, hmain, hcan, rfl⟩ := hs
    exact h.call hinv hmain hcan
  | worker w a => exact h.act hs
  | exit =>
    obtain rfl := hs
    exact h.same rfl rfl nofun nofun nofun

end History

/-! ## Two steps that conflict -/

/-- A worker that takes a step is there, and was not joined. -/
theorem State.act_worker (ha : s.act n w a = some s') :
    s.worker w ≠ .absent ∧ s.worker w ≠ .joined := by
  rcases State.act_cases ha with ⟨-, h⟩ | ⟨h, -⟩ | ⟨-, -, h, -⟩
  · exact h
  · rw [h]
    decide
  · exact ⟨fun he => h.1 (.inl he), h.2⟩

/-- What the main thread uses of a worker. -/
theorem excludes_of_conflict (h : Conflict (.main c) (.worker w a)) (hc : c ≠ .getrusageStart) :
    c.Excludes w := by
  obtain ⟨-, r, x, y, hx, hy, hwrite⟩ := h
  cases c <;> cases a <;> cases r <;>
    simp_all [Label.uses, Call.uses, Action.uses, Call.Excludes]

/-- **The main thread comes before the worker**: it creates the worker
in between. -/
theorem main_worker (hrun : Run (step opts.numThreads) (State.start opts) ls s) (hij : i < j)
    (hx : ls[i]? = some (.main c)) (hy : ls[j]? = some (.worker w a)) (hc : c.Excludes w) :
    threads.HappensBefore ls i j := by
  obtain ⟨u, u', hbefore, ⟨-, rest, hmain, hcan, -⟩, -⟩ := hrun.getElem? hx
  obtain ⟨v, v', hbefore', ⟨-, hact⟩, -⟩ := hrun.getElem? hy
  obtain ⟨hinv, hist⟩ := History.of_run hbefore
  obtain ⟨hinv', hist'⟩ := History.of_run hbefore'
  obtain ⟨hthere, hnot⟩ := State.act_worker hact
  have hlt := (hinv'.lt_of_ne_absent hthere).1
  have hne : c ≠ .pthreadCreate w ∧ c ≠ .pthreadJoin w := by
    constructor <;> rintro rfl <;> exact hc.elim
  -- the worker was not there yet, as it has not been joined since
  have habs : .main (.pthreadCreate w) ∉ ls.take i := by
    have hord := hinv.order
    rw [hmain] at hord
    rw [← hist.created w, not_not]
    rcases hord.1.excludes w hc with hcreate | hjoin
    · exact (hinv.absent w).mpr fun _ => by simp [hmain, hcreate]
    · have hj : u.worker w = .joined :=
        (hinv.joined w hlt).mpr (by simp [hmain, hjoin, hne.2.symm])
      refine absurd ((hist'.joined w).mpr ?_) hnot
      exact (List.take_subset_take_left ls hij.le) ((hist.joined w).mp hj)
  obtain ⟨k, hk⟩ := List.mem_iff_getElem?.mp ((hist'.created w).mp hthere)
  rw [List.getElem?_take] at hk
  split_ifs at hk with hkj
  have hik : i < k := by
    rcases lt_trichotomy i k with h | rfl | h
    · exact h
    · rw [hx] at hk
      exact absurd (Label.main.inj (Option.some.inj hk)) hne.1
    · refine absurd (List.mem_iff_getElem?.mpr ⟨k, ?_⟩) habs
      rw [List.getElem?_take, if_pos h, hk]
  exact .handover hik hkj hx hk hy rfl (.create w a)

/-- **The worker comes before the main thread**, which joins it in
between. -/
theorem worker_main (hrun : Run (step opts.numThreads) (State.start opts) ls s) (hij : i < j)
    (hx : ls[i]? = some (.worker w a)) (hy : ls[j]? = some (.main c)) (hc : c.Excludes w) :
    threads.HappensBefore ls i j := by
  obtain ⟨u, u', hbefore, ⟨-, hact⟩, -⟩ := hrun.getElem? hx
  obtain ⟨v, v', hbefore', ⟨-, rest, hmain, hcan, -⟩, -⟩ := hrun.getElem? hy
  obtain ⟨hinv, hist⟩ := History.of_run hbefore
  obtain ⟨hinv', hist'⟩ := History.of_run hbefore'
  obtain ⟨hthere, hnot⟩ := State.act_worker hact
  have hlt := (hinv.lt_of_ne_absent hthere).1
  have hne : c ≠ .pthreadJoin w := by
    rintro rfl
    exact hc.elim
  -- it was created, so it has been joined
  have hthere' : v.worker w ≠ .absent :=
    (hist'.created w).mpr (List.take_subset_take_left ls hij.le ((hist.created w).mp hthere))
  have hjoined : v.worker w = .joined := by
    have hord := hinv'.order
    rw [hmain] at hord
    rcases hord.1.excludes w hc with hcreate | hjoin
    · refine absurd ?_ (hinv'.lt_of_ne_absent hthere').2
      simp [hmain, hcreate]
    · exact (hinv'.joined w hlt).mpr (by simp [hmain, hjoin, hne.symm])
  obtain ⟨k, hk⟩ := List.mem_iff_getElem?.mp ((hist'.joined w).mp hjoined)
  rw [List.getElem?_take] at hk
  split_ifs at hk with hkj
  have hik : i < k := by
    rcases lt_trichotomy i k with h | rfl | h
    · exact h
    · rw [hx] at hk
      cases hk
    · refine absurd ((hist.joined w).mpr (List.mem_iff_getElem?.mpr ⟨k, ?_⟩)) hnot
      rw [List.getElem?_take, if_pos h, hk]
  exact .acquired hik hkj hx hk hy (.join w a) rfl

/-- `ensure_initialized` writes only what was not initialized. -/
theorem State.lock_eq {writes : Bool} (ha : s.act n w (.lock writes) = some s') :
    writes = !s.initialized := by
  unfold State.act at ha
  split at ha <;> simp_all

theorem State.unlocked_of_act (ha : s.act n w .readTimeStart = some s') :
    s.worker w = .unlocked := by
  unfold State.act at ha
  split at ha <;> simp_all

/-- **A worker reads `time_start` after the one that wrote it**: it has
had the mutex since. -/
theorem write_read (hrun : Run (step opts.numThreads) (State.start opts) ls s) (hvw : v ≠ w)
    (hx : ls[i]? = some (.worker v (.lock true)))
    (hy : ls[j]? = some (.worker w .readTimeStart)) : threads.HappensBefore ls i j := by
  obtain ⟨u, u', hbefore, ⟨-, hact⟩, -⟩ := hrun.getElem? hx
  obtain ⟨r, r', hbefore', ⟨-, hact'⟩, -⟩ := hrun.getElem? hy
  have hfirst := (History.of_run hbefore).2.initialized
  obtain ⟨b, hb⟩ := (History.of_run hbefore').2.unlocked w (State.unlocked_of_act hact')
  obtain ⟨k, hk⟩ := List.mem_iff_getElem?.mp hb
  rw [List.getElem?_take] at hk
  split_ifs at hk with hkj
  have hik : i < k := by
    rcases lt_trichotomy i k with h | rfl | h
    · exact h
    · rw [hx] at hk
      exact absurd (Label.worker.inj (Option.some.inj hk)).1 hvw
    · -- it was not initialized before
      have hinit : u.initialized = true := by
        refine hfirst.mpr ⟨w, b, List.mem_iff_getElem?.mpr ⟨k, ?_⟩⟩
        rw [List.getElem?_take, if_pos h, hk]
      have hwrites := State.lock_eq hact
      rw [hinit] at hwrites
      cases hwrites
  exact .acquired hik hkj hx hk hy (.mutex v w true b) rfl

/-- No worker has read `time_start` before it is written. -/
theorem not_read_write (hrun : Run (step opts.numThreads) (State.start opts) ls s) (hij : i < j)
    (hx : ls[i]? = some (.worker v .readTimeStart)) : ls[j]? ≠ some (.worker w (.lock true)) := by
  intro hy
  obtain ⟨u, u', hbefore, ⟨-, hact⟩, -⟩ := hrun.getElem? hx
  obtain ⟨r, r', hbefore', ⟨-, hact'⟩, -⟩ := hrun.getElem? hy
  obtain ⟨b, hb⟩ := (History.of_run hbefore).2.unlocked v (State.unlocked_of_act hact)
  have hinit : r.initialized = true := (History.of_run hbefore').2.initialized.mpr
    ⟨v, b, List.take_subset_take_left ls hij.le hb⟩
  have hwrites := State.lock_eq hact'
  rw [hinit] at hwrites
  cases hwrites

/-- What two workers can conflict on. -/
theorem workers_conflict (h : Conflict (.worker v a) (.worker w b)) : v ≠ w ∧
    ((∃ p q, a = .lock p ∧ b = .lock q) ∨ (a = .lock true ∧ b = .readTimeStart) ∨
      (a = .readTimeStart ∧ b = .lock true)) := by
  obtain ⟨hne, r, x, y, hx, hy, hwrite⟩ := h
  have hvw : v ≠ w := fun heq => hne (congrArg some heq)
  refine ⟨hvw, ?_⟩
  cases a <;> cases b <;> cases r <;> simp_all [Label.uses, Action.uses]
  -- one of the two writes `time_start`
  · rename_i writes
    cases writes <;> simp_all
  · rename_i writes
    cases writes <;> simp_all

/-- **The threads do not race.** In every run, for every number of
threads and every script, two steps of different threads that use the
same memory, and not both only read it, are ordered by happens-before:
the Lua states of the engine and of the slaves, the lists of samples,
`time_start` and what the workers write to `rusage_start`. Left out is
the `getrusage` of the main thread into `rusage_start`. -/
theorem race_free (hrun : Run (step opts.numThreads) (State.start opts) ls s) (hij : i < j)
    (hx : ls[i]? = some x) (hy : ls[j]? = some y) (h : Conflict x y)
    (hxr : x ≠ .main .getrusageStart) (hyr : y ≠ .main .getrusageStart) :
    threads.HappensBefore ls i j := by
  cases x with
  | exit =>
    obtain ⟨-, r, a, b, hr, -⟩ := h
    cases hr
  | main c =>
    cases y with
    | exit =>
      obtain ⟨-, r, a, b, -, hr, -⟩ := h
      cases hr
    | main d => exact absurd rfl h.1
    | worker w b =>
      exact main_worker hrun hij hx hy
        (excludes_of_conflict h fun hc => hxr (congrArg Label.main hc))
  | worker v a =>
    cases y with
    | exit =>
      obtain ⟨-, r, a, b, -, hr, -⟩ := h
      cases hr
    | main d =>
      have hsymm : Conflict (.main d) (.worker v a) := by
        obtain ⟨hne, r, p, q, hp, hq, hwrite⟩ := h
        exact ⟨hne.symm, r, q, p, hq, hp, hwrite.symm⟩
      exact worker_main hrun hij hx hy
        (excludes_of_conflict hsymm fun hc => hyr (congrArg Label.main hc))
    | worker w b =>
      obtain ⟨hvw, ⟨p, q, rfl, rfl⟩ | ⟨rfl, rfl⟩ | ⟨rfl, rfl⟩⟩ := workers_conflict h
      · exact .sync hij hx hy (.mutex v w p q)
      · exact write_read hrun hvw hx hy
      · exact absurd hy (not_read_write hrun hij hx)

/-- One thread, whose worker fires a hook as soon as it is there. -/
theorem race_free_hook : threads.HappensBefore
    [.main .scriptEngineCreate, .main .controlPlaneStart, .main (.createWorker 0),
      .main (.pushData 0), .main (.pthreadCreate 0), .worker 0 .hook] 2 5 := by
  have hrun : Run (step (Options.mk 1 none).numThreads) (State.start ⟨1, none⟩)
      [.main .scriptEngineCreate, .main .controlPlaneStart, .main (.createWorker 0),
        .main (.pushData 0), .main (.pthreadCreate 0), .worker 0 .hook] _ :=
    .cons ⟨rfl, _, rfl, trivial, rfl⟩ <| .cons ⟨rfl, _, rfl, trivial, rfl⟩ <|
      .cons ⟨rfl, _, rfl, trivial, rfl⟩ <| .cons ⟨rfl, _, rfl, trivial, rfl⟩ <|
      .cons ⟨rfl, _, rfl, trivial, rfl⟩ <| .single ⟨rfl, rfl⟩
  exact race_free hrun (by decide) rfl rfl
    ⟨nofun, .slave 0, .write, .write, rfl, rfl, .inl rfl⟩ nofun nofun

/-! ## The race for `rusage_start` -/

/-- Nothing but the calls still to be made and the workers differ. -/
structure Same (s t : State) : Prop where
  initialized : t.initialized = s.initialized
  exited : t.exited = s.exited

/-- Calls that have nothing to do with the workers are made one after the
other. -/
theorem run_apart (hs : s.exited = false) (hmain : s.main = cs ++ rest)
    (h : ∀ c ∈ cs, c.Apart) : ∃ t, Run (step n) s (cs.map .main) t ∧ Same s t ∧ t.main = rest ∧
      t.worker = s.worker ∧ t.arrived = s.arrived := by
  induction cs generalizing s with
  | nil => exact ⟨s, .refl s, ⟨rfl, rfl⟩, hmain, rfl, rfl⟩
  | cons c cs ih =>
    have hc := h c List.mem_cons_self
    have hcall : s.call c = s ∧ s.CanCall n c := by
      cases c <;> first | exact ⟨rfl, trivial⟩ | exact hc.elim
    obtain ⟨t, hrun, hsame, hrest, hworker, harr⟩ := ih (s := { s with main := cs ++ rest })
      hs rfl fun d hd => h d (List.mem_cons_of_mem c hd)
    refine ⟨t, .cons ⟨hs, cs ++ rest, hmain, hcall.2, ?_⟩ hrun, ⟨hsame.1, hsame.2⟩, hrest,
      hworker, harr⟩
    rw [hcall.1]

/-- The workers are created. -/
theorem run_create (hs : s.exited = false) (hmain : s.main = ws.map .pthreadCreate ++ rest) :
    ∃ t, Run (step n) s (ws.map fun w => .main (.pthreadCreate w)) t ∧ Same s t ∧
      t.main = rest ∧ (∀ w ∈ ws, t.worker w = .setup) ∧ (∀ w ∉ ws, t.worker w = s.worker w) ∧
      t.arrived = s.arrived := by
  induction ws generalizing s with
  | nil => exact ⟨s, .refl s, ⟨rfl, rfl⟩, hmain, by simp, fun _ _ => rfl, rfl⟩
  | cons w ws ih =>
    obtain ⟨t, hrun, hsame, hrest, hin, hout, harr⟩ :=
      ih (s := { s.setWorker w .setup with main := ws.map .pthreadCreate ++ rest }) hs rfl
    refine ⟨t, .cons ⟨hs, _, hmain, trivial, rfl⟩ hrun, ⟨hsame.1, hsame.2⟩, hrest,
      fun v hv => ?_, fun v hv => ?_, harr⟩
    · by_cases hvws : v ∈ ws
      · exact hin v hvws
      · obtain rfl := (List.mem_cons.mp hv).resolve_right hvws
        rw [hout v hvws]
        exact Function.update_self ..
    · obtain ⟨hne, hvws⟩ := List.ne_and_not_mem_of_not_mem_cons hv
      rw [hout v hvws]
      exact Function.update_of_ne hne ..

/-- The workers get to the barrier. -/
theorem run_arrive (hs : s.exited = false) (hws : ws.Nodup) (h : ∀ w ∈ ws, s.worker w = .setup) :
    ∃ t, Run (step n) s (ws.map fun w => .worker w .barrierArrive) t ∧ Same s t ∧
      t.main = s.main ∧ (∀ w ∈ ws, t.worker w = .arrived) ∧ (∀ w ∉ ws, t.worker w = s.worker w) ∧
      t.arrived = s.arrived + ws.length := by
  induction ws generalizing s with
  | nil => exact ⟨s, .refl s, ⟨rfl, rfl⟩, rfl, by simp, fun _ _ => rfl, rfl⟩
  | cons w ws ih =>
    obtain ⟨hw, hws⟩ := List.nodup_cons.mp hws
    have hact := State.act_barrierArrive (n := n) (h w List.mem_cons_self)
    have hset : ∀ v ∈ ws, (s.setWorker w .arrived).worker v = .setup := by
      intro v hv
      have hne : v ≠ w := fun heq => hw (heq ▸ hv)
      refine (Function.update_of_ne hne ..).trans ?_
      exact h v (List.mem_cons_of_mem w hv)
    obtain ⟨t, hrun, hsame, hmain, hin, hout, harr⟩ :=
      ih (s := { s.setWorker w .arrived with arrived := s.arrived + 1 }) hs hws hset
    refine ⟨t, .cons ⟨hs, hact⟩ hrun, ⟨hsame.1, hsame.2⟩, hmain, fun v hv => ?_, fun v hv => ?_, ?_⟩
    · by_cases hvws : v ∈ ws
      · exact hin v hvws
      · obtain rfl := (List.mem_cons.mp hv).resolve_right hvws
        rw [hout v hvws]
        exact Function.update_self ..
    · obtain ⟨hne, hvws⟩ := List.ne_and_not_mem_of_not_mem_cons hv
      rw [hout v hvws]
      exact Function.update_of_ne hne ..
    · rw [harr, List.length_cons, Nat.add_right_comm]
      rfl

/-- **Up to the race**: all have passed the barrier that matter. -/
theorem run_to_race (opts : Options) (hn : 0 < opts.numThreads) : ∃ ls s rest,
    Run (step opts.numThreads) (State.start opts) ls s ∧ s.main = .getrusageStart :: rest ∧
      s.worker 0 = .running ∧ s.initialized = false ∧ s.exited = false := by
  obtain ⟨before, after, heq, hb, -⟩ := exists_runMainThread opts
  have hpush : ∀ c ∈ before ++ forThreads opts.numThreads .pushData, c.Apart := by
    intro c hc
    rcases List.mem_append.mp hc with hc | hc
    · exact hb c hc
    · obtain ⟨w, -, rfl⟩ := mem_forThreads.mp hc
      trivial
  obtain ⟨rest, hmain⟩ : ∃ rest, (State.start opts).main =
      (before ++ forThreads opts.numThreads .pushData) ++
        ((List.range opts.numThreads).map .pthreadCreate ++
          (.barrierArrive :: .barrierReturn :: .getrusageStart :: rest)) := by
    refine ⟨.waitUntilDone :: .getrusageEnd :: (forThreads opts.numThreads .eventfdWrite ++
      (forThreads opts.numThreads .pthreadJoin ++
        (forThreads opts.numThreads .pullData ++ after))), ?_⟩
    show runMainThread opts = _
    simp only [heq, runWorkerThreads, forThreads, List.append_assoc, List.cons_append]
  obtain ⟨s₁, hrun₁, hsame₁, hmain₁, -, harr₁⟩ :=
    run_apart (n := opts.numThreads) (s := State.start opts) rfl hmain hpush
  obtain ⟨s₂, hrun₂, hsame₂, hmain₂, hin₂, -, harr₂⟩ :=
    run_create (n := opts.numThreads) hsame₁.exited hmain₁
  have hex₂ : s₂.exited = false := hsame₂.exited.trans hsame₁.exited
  obtain ⟨s₃, hrun₃, hsame₃, hmain₃, hin₃, -, harr₃⟩ :=
    run_arrive (n := opts.numThreads) hex₂ List.nodup_range hin₂
  have hex₃ : s₃.exited = false := hsame₃.exited.trans hex₂
  have harr : s₃.arrived = opts.numThreads := by
    rw [harr₃, harr₂, harr₁, List.length_range]
    exact Nat.zero_add _
  -- the main thread gets to the barrier as the last one
  rw [hmain₂] at hmain₃
  have hzero : s₃.worker 0 = .arrived := hin₃ 0 (List.mem_range.mpr hn)
  have hact : ({ s₃ with
      arrived := s₃.arrived + 1
      main := .getrusageStart :: rest } : State).act opts.numThreads 0 .barrierReturn =
      some { s₃.setWorker 0 .running with
        arrived := s₃.arrived + 1, main := .getrusageStart :: rest } := by
    exact State.act_barrierReturn hzero (congrArg (· + 1) harr)
  have hfull : s₃.arrived + 1 = opts.numThreads + 1 := by rw [harr]
  have hlast : Run (step opts.numThreads) s₃ [.main .barrierArrive, .main .barrierReturn,
      .worker 0 .barrierReturn] { s₃.setWorker 0 .running with
        arrived := s₃.arrived + 1, main := .getrusageStart :: rest } :=
    .cons ⟨hex₃, _, hmain₃, trivial, rfl⟩ <| .cons ⟨hex₃, _, rfl, hfull, rfl⟩ <|
      .single ⟨hex₃, hact⟩
  have hworker : (s₃.setWorker 0 .running).worker 0 = .running := by
    simp [State.setWorker]
  refine ⟨_, _, rest, hrun₁.append (hrun₂.append (hrun₃.append hlast)), rfl, hworker, ?_, hex₃⟩
  exact hsame₃.initialized.trans (hsame₂.initialized.trans hsame₁.initialized)

/-- **The main thread races for `rusage_start`.** For every number of
threads and every script, which returns as its hooks do, there is a run
in which the main thread's `getrusage` into `rusage_start` and the one of
a worker that initializes `time_start` follow each other, and nothing
orders them. -/
theorem rusage_race (opts : Options) (hn : 0 < opts.numThreads) :
    ∃ ls s i, Run (step opts.numThreads) (State.start opts) ls s ∧
      ls[i]? = some (.main .getrusageStart) ∧ ls[i + 1]? = some (.worker 0 (.lock true)) ∧
      Conflict (.main .getrusageStart) (.worker 0 (.lock true)) ∧
      ¬ threads.HappensBefore ls i (i + 1) := by
  obtain ⟨ls, s, rest, hrun, hmain, hworker, hinit, hexited⟩ := run_to_race opts hn
  have hact : ({ s with main := rest } : State).act opts.numThreads 0 (.lock true) =
      some { s.setWorker 0 .unlocked with main := rest, initialized := true } := by
    exact State.act_lock hworker (by rw [hinit]; rfl)
  have hboth : Run (step opts.numThreads) s [.main .getrusageStart, .worker 0 (.lock true)]
      { s.setWorker 0 .unlocked with main := rest, initialized := true } :=
    .cons ⟨hexited, rest, hmain, trivial, rfl⟩ <| .single ⟨hexited, hact⟩
  have hfirst : (ls ++ [.main .getrusageStart, .worker 0 (.lock true)])[ls.length]? =
      some (.main .getrusageStart) := by simp
  have hsecond : (ls ++ [.main .getrusageStart, .worker 0 (.lock true)])[ls.length + 1]? =
      some (.worker 0 (.lock true)) := by simp
  refine ⟨_, _, ls.length, hrun.append hboth, hfirst, hsecond,
    ⟨nofun, .rusageStart, .write, .write, rfl, rfl, .inl rfl⟩, fun hhb => ?_⟩
  rcases hhb.adjacent hfirst hsecond with hagent | hsync
  · cases hagent
  · cases hsync

/-- Two threads, and a script that calls `run` twice. -/
theorem rusage_race_pair : ∃ ls s i,
    Run (step 2) (State.start ⟨2, some [.lua, .run, .lua, .run]⟩) ls s ∧
      ls[i]? = some (.main .getrusageStart) ∧ ls[i + 1]? = some (.worker 0 (.lock true)) ∧
      Conflict (.main .getrusageStart) (.worker 0 (.lock true)) ∧
      ¬ threads.HappensBefore ls i (i + 1) :=
  rusage_race ⟨2, some [.lua, .run, .lua, .run]⟩ (by decide)

end Thread

end Rushit
