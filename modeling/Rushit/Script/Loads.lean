import Rushit.Script.System
import Rushit.Serialize.Walk
/-!
# What the slaves have loaded

A slave loads a hook when it first fires. Next to the system stands a
list for each slave, of the hooks it has loaded, in that order; the code
keeps no such list. The cache of a slave is what the walk through its
list has noted, in every state a run reaches.
-/

namespace Rushit

namespace Script

open Lua Serialize

/-- The hook that firing `hid` makes the slave load: one that it has not
loaded before. -/
def Slave.toLoad (se : Engine) (ss : Slave) (hid : HookId) : List SFunction :=
  if ss.hookKeys hid = none then (se.hooks hid).toList else []

/-- The hooks that each slave has loaded, after a step from `s`. -/
def loadsAfter (s : System) (loads : List (List SFunction)) : Action → List (List SFunction)
  | .slave _ => loads ++ [[]]
  | .fire i hid =>
    match s.slaves[i]? with
    | some ss => loads.modify i (· ++ ss.toLoad s.engine hid)
    | none => loads
  | _ => loads

/-- A step of the system, with the lists. -/
def stepLoads (al : Allocator) (p : System × List (List SFunction)) (a : Action)
    (q : System × List (List SFunction)) : Prop :=
  step al p.1 a q.1 ∧ q.2 = loadsAfter p.1 p.2 a

variable {al : Allocator} {n : ℕ} {s s' : System} {loads loads' : List (List SFunction)}
variable {as : List Action}

/-- A step gives its lists. -/
theorem run_cons {a : Action} {q : System × List (List SFunction)} (hstep : step al s a s')
    (h : Run (stepLoads al) (s', loadsAfter s loads a) as q) :
    Run (stepLoads al) (s, loads) (a :: as) q :=
  .cons ⟨hstep, rfl⟩ h

/-- **Every run has its lists.** -/
theorem run_stepLoads (h : Run (step al) s as s') (loads : List (List SFunction)) :
    ∃ loads', Run (stepLoads al) (s, loads) as (s', loads') := by
  induction h generalizing loads with
  | refl s => exact ⟨loads, .refl _⟩
  | @cons s t u a as hstep _ ih =>
    obtain ⟨loads', hrun⟩ := ih (loadsAfter s loads a)
    exact ⟨loads', run_cons hstep hrun⟩

/-- A run with lists is a run. -/
theorem run_of_stepLoads {p q : System × List (List SFunction)} (h : Run (stepLoads al) p as q) :
    Run (step al) p.1 as q.1 := by
  induction h with
  | refl p => exact .refl p.1
  | cons hstep _ ih => exact .cons hstep.1 ih

/-- The slave has loaded these hooks, which the engine has. -/
structure Slave.HasLoaded (se : Engine) (ss : Slave) (fs : List SFunction) : Prop where
  walked : Walked ss.target (walk fs)
  hooks : ∀ f ∈ fs, ∃ hid, se.hooks hid = some f

/-- Every slave has loaded what stands in its list. -/
def System.Loaded (s : System) (loads : List (List SFunction)) : Prop :=
  List.Forall₂ (Slave.HasLoaded s.engine) s.slaves loads

/-- Lua code maps nothing, and what is recorded stays. -/
theorem Walked.mutated {cap : Site → Addr → Prop} {σ σ' : Target} {c : Copies} (h : Walked σ c)
    (hv : Valid cap σ) (hm : Mutated σ σ') : Walked σ' c where
  objects := by rw [hm.objectMap, h.objects]
  cells := by rw [hm.upvalueMap, h.cells]
  places := by
    rw [hm.collectorMap]
    refine h.places.imp fun r p hr => ?_
    obtain ⟨w, st⟩ := p
    obtain ⟨hw, hat⟩ := hr
    cases st with
    | upvalue c =>
      obtain ⟨i, hmap, hk⟩ := hat
      exact ⟨hw, i, by rw [hm.upvalueMap]; exact hmap, hk⟩
    | entry a k =>
      obtain ⟨⟨hmapped, -, hcached⟩, hk⟩ := hat
      obtain ⟨t, ht⟩ := hv.table_of_cached hmapped hcached
      obtain ⟨t', ht'⟩ := hm.table _ t hcached ht
      exact ⟨hw, ⟨by rw [hm.objectMap]; exact hmapped, Heap.live_of_lookup ht',
        by rw [hm.objectTbl, hcached]⟩, hk⟩

/-- Running a hook's body loads nothing. -/
theorem Slave.HasLoaded.mutated {se : Engine} {ss : Slave} {fs : List SFunction} {h : Heap}
    (hl : ss.HasLoaded se fs) (hok : ss.Ok se) (hm : Mutated ss.target (ss.target.withHeap h)) :
    Slave.HasLoaded se { ss with target := ss.target.withHeap h } fs :=
  ⟨Walked.mutated hl.walked hok.1 hm, hl.hooks⟩

/-- One slave changes, and its list with it. -/
theorem System.Loaded.modify (h : s.Loaded loads) {i : ℕ} {ss ss' : Slave}
    (hss : s.slaves[i]? = some ss) (g : List SFunction → List SFunction)
    (hnew : ∀ fs, ss.HasLoaded s.engine fs → ss'.HasLoaded s.engine (g fs)) :
    System.Loaded ⟨s.engine, s.slaves.set i ss'⟩ (loads.modify i g) := by
  show List.Forall₂ (Slave.HasLoaded s.engine) (s.slaves.set i ss') (loads.modify i g)
  have hall : List.Forall₂ (Slave.HasLoaded s.engine) s.slaves loads := h
  clear h
  generalize s.slaves = l at hall hss
  induction hall generalizing i with
  | nil => cases hss
  | @cons ss₁ fs l ls hhd htl ih =>
    cases i with
    | zero =>
      obtain rfl := Option.some.inj hss
      exact .cons (hnew fs hhd) htl
    | succ i => exact .cons hhd (ih hss)

/-- `push_hook` loads the hook where it was not loaded before. -/
theorem Slave.HasLoaded.pushHook {se : Engine} {ss ss' : Slave} {hid : HookId} {v : Option Value}
    {fs : List SFunction} (h : ss.HasLoaded se fs)
    (hpush : Script.pushHook al se hid ss = .ok (v, ss')) :
    ss'.HasLoaded se (fs ++ ss.toLoad se hid) := by
  unfold Script.pushHook at hpush
  split at hpush
  · rename_i key hkey
    cases hpush
    simpa [toLoad, hkey] using h
  · rename_i hkey
    rw [toLoad, if_pos hkey]
    split at hpush
    · rename_i hnone
      cases hpush
      simpa [hnone] using h
    · rename_i f hf
      obtain ⟨⟨key, σ⟩, hload, hret⟩ := bind_eq_ok.mp hpush
      cases hret
      rw [hf, Option.toList_some]
      refine ⟨?_, fun g hg => ?_⟩
      · rw [walk_append]
        exact deserializeFunction_walked h.walked hload
      · rcases List.mem_append.mp hg with hg | hg
        · exact h.hooks g hg
        · exact ⟨hid, by rw [List.mem_singleton.mp hg]; exact hf⟩

/-- Only the hooks matter of the engine. -/
theorem System.Loaded.of_hooks (h : s.Loaded loads) {se : Engine}
    (hhooks : ∀ hid f, s.engine.hooks hid = some f → se.hooks hid = some f) :
    System.Loaded ⟨se, s.slaves⟩ loads :=
  List.Forall₂.imp (fun _ _ hl => ⟨hl.walked, fun f hf => by
    obtain ⟨hid, hhid⟩ := hl.hooks f hf
    exact ⟨hid, hhooks hid f hhid⟩⟩) h

/-- **Every step keeps the lists.** -/
theorem System.Loaded.step {p q : System × List (List SFunction)} {a : Action}
    (h : p.1.Loaded p.2) (hi : p.1.Inv) (hs : stepLoads al p a q) : q.1.Loaded q.2 := by
  obtain ⟨s, loads⟩ := p
  obtain ⟨s', loads'⟩ := q
  obtain ⟨⟨hallow, n, hexec⟩, rfl⟩ := hs
  cases a with
  | script h' =>
    cases hexec
    exact h.of_hooks fun _ _ hf => hf
  | collect v =>
    obtain ⟨w, e, he, rfl⟩ := exec_collect hexec
    cases he
    exact h.of_hooks fun _ _ hf => hf
  | register runMode hid v =>
    obtain ⟨e, he, rfl⟩ := exec_register hexec
    rcases storeHook_hooks he with rfl | ⟨a, f, -, hnone, rfl⟩
    · exact h
    · refine h.of_hooks fun hid' g hg => ?_
      have hne : hid' ≠ hid := by
        rintro rfl
        rw [hnone] at hg
        cases hg
      simp only [hne, if_false]
      exact hg
  | slave h' =>
    cases hexec
    exact List.rel_append h (.cons ⟨Walked.start h', fun _ hf => (List.not_mem_nil hf).elim⟩ .nil)
  | fire i hid =>
    obtain ⟨ss, v, ss', hss, hpush, rfl⟩ := exec_fire hexec
    rw [loadsAfter, hss]
    exact h.modify hss (· ++ ss.toLoad s.engine hid) fun fs hl => hl.pushHook hpush
  | body i h' =>
    obtain ⟨ss, hss, rfl⟩ := exec_body hexec
    have hid : (loads.modify i fun fs => fs) = loads := List.modify_id i loads
    have hmod := h.modify hss (fun fs => fs) fun fs hl =>
      hl.mutated (hi.slaves ss (List.mem_of_getElem? hss)) (hallow ss hss)
    rw [hid] at hmod
    exact hmod
  | empty =>
    obtain ⟨e, he, rfl⟩ := exec_empty hexec
    obtain ⟨h', rfl, -⟩ := emptyCollectors_suffix he
    exact h.of_hooks fun _ _ hf => hf
  | pull i =>
    obtain ⟨ss, e, -, he, rfl⟩ := exec_pull hexec
    obtain ⟨h', rfl, -⟩ := scriptEnginePullData_suffix he
    exact h.of_hooks fun _ _ hf => hf

/-- **In every state a run reaches, a slave has loaded its list.** -/
theorem System.Loaded.of_run {h : Heap} {isClient : Bool}
    (hrun : Run (stepLoads al) (System.create h isClient, []) as (s, loads)) : s.Loaded loads :=
  (hrun.preserves (I := fun p => p.1.Inv ∧ p.1.Loaded p.2)
    (fun _ _ _ hi hs => ⟨hi.1.step hs.1, hi.2.step hi.1 hs⟩) ⟨System.Inv.create h isClient, .nil⟩).2

end Script

end Rushit
