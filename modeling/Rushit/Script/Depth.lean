import Rushit.Script.Invoke
import Rushit.Common.Fold
import Mathlib.Data.Fintype.Card
/-!
# How deep a slave's stack gets

Loading a hook leaves the hook on the stack, and nothing takes it off
again. Everything else an invocation pushes it takes off: so the stack
grows with the hooks, of which there are five, and not with the packets
(`stack_effects`).
-/

namespace Rushit

namespace Script

open Lua Serialize

variable {al : Allocator} {se : Engine} {env : Env} {hid : HookId} {r : ℤ}
  {M M' : Machine} {ss ss' ss₁ : SlaveState} {σ : Target} {s : Stack}

/-! ## Calls -/

/-- A call replaces the function and its arguments by one value. -/
theorem stack_of_pcall (vs : List Value) {f : Value} {nargs : ℕ} {err : Option LuaError}
    (hM : M.stack = vs ++ f :: s) (hvs : vs.length = nargs)
    (h : pcall env M nargs = .ok (err, M')) : ∃ v, M'.stack = v :: s := by
  have hdrop : M.stack.drop nargs = f :: s := by rw [hM, ← hvs, List.drop_left]
  unfold pcall at h
  rw [hdrop] at h
  dsimp only at h
  split at h
  · cases h; exact ⟨_, rfl⟩
  · cases h; exact ⟨_, rfl⟩

/-- A field is pushed over the values already there. -/
theorem stack_of_getfield {i : ℕ} {name : LuaString} (h : getfield env M i name = .ok M') :
    ∃ v, M'.stack = v :: M.stack := by
  obtain ⟨v, -, h⟩ := bind_eq_ok.mp h
  obtain ⟨w, -, h⟩ := bind_eq_ok.mp h
  cases h
  exact ⟨w, rfl⟩

theorem stack_of_pop {n : ℕ} (vs : List Value) (hM : M.stack = vs ++ s) (hvs : vs.length = n)
    (h : M.pop n = .ok M') : M'.stack = s := by
  obtain ⟨s', hs', h⟩ := bind_eq_ok.mp h
  cases h
  obtain ⟨ws, hws, hM'⟩ := Stack.pop_eq_some.mp (orFault_eq_ok.mp hs')
  exact (List.append_inj (hM'.symm.trans hM) (hws.trans hvs.symm)).2

/-- An error is not the result 0. -/
theorem errnoLua_pos (e : LuaError) : 0 < errnoLua e := by
  cases e <;> decide

/-- **`push_cpointer` leaves one value where it succeeds.** -/
theorem stack_of_pushCpointer {proto : LuaString} {ptr : Addr}
    (h : pushCpointer env M proto ptr = .ok (0, M')) : ∃ v, M'.stack = v :: M.stack := by
  have hne : ∀ {e : LuaError} {N : Machine},
      (pure (-errnoLua e, N) : Except Fault (ℤ × Machine)) ≠ .ok (0, M') := by
    intro e N heq
    have hpos := errnoLua_pos e
    have hzero : -errnoLua e = 0 := congrArg Prod.fst (Except.ok.inj heq)
    omega
  obtain ⟨⟨err, M₁⟩, hreq, h⟩ := bind_eq_ok.mp h
  obtain ⟨ffi, hffi⟩ := stack_of_pcall [.string (literal "ffi")] rfl rfl hreq
  cases err with
  | some e => exact (hne h).elim
  | none =>
    obtain ⟨M₂, hcast, h⟩ := bind_eq_ok.mp h
    obtain ⟨cast, hcast⟩ := stack_of_getfield hcast
    obtain ⟨M₃, htypeof, h⟩ := bind_eq_ok.mp h
    obtain ⟨typeof, htypeof⟩ := stack_of_getfield htypeof
    obtain ⟨⟨err, M₄⟩, hcall, h⟩ := bind_eq_ok.mp h
    have hM₃ : (M₃.push (.string proto)).stack =
        [.string proto] ++ typeof :: cast :: ffi :: M.stack := by
      rw [Machine.push, htypeof, hcast, hffi]
      rfl
    obtain ⟨ctype, hctype⟩ := stack_of_pcall [.string proto] hM₃ rfl hcall
    cases err with
    | some e =>
      obtain ⟨M₅, -, h⟩ := bind_eq_ok.mp h
      exact (hne h).elim
    | none =>
      obtain ⟨⟨err, M₅⟩, hcall, h⟩ := bind_eq_ok.mp h
      have hM₄ : (M₄.push (.lightuserdata ptr)).stack =
          [.lightuserdata ptr, ctype] ++ cast :: ffi :: M.stack := by
        rw [Machine.push, hctype]
        rfl
      obtain ⟨v, hv⟩ := stack_of_pcall [.lightuserdata ptr, ctype] hM₄ rfl hcall
      cases err with
      | some e =>
        obtain ⟨M₆, -, h⟩ := bind_eq_ok.mp h
        exact (hne h).elim
      | none =>
        obtain ⟨M₆, hremove, h⟩ := bind_eq_ok.mp h
        cases h
        obtain ⟨s', hs', hM'⟩ := bind_eq_ok.mp hremove
        rw [hv] at hs'
        cases hs'
        cases hM'
        exact ⟨v, rfl⟩

/-- Both kinds of hooks get as many arguments as they are called
with. -/
theorem stack_of_pushArgs {i : Invocation} (h : i.pushArgs env M = .ok (0, M')) :
    ∃ vs : List Value, vs.length = i.nargs ∧ M'.stack = vs ++ M.stack := by
  have hsocket : ∀ {sockfd : ℤ} {ai : Addr}, pushSocketArgs env sockfd ai M = .ok (0, M') →
      ∃ vs : List Value, vs.length = 2 ∧ M'.stack = vs ++ M.stack := by
    intro sockfd ai h
    obtain ⟨v, hv⟩ := stack_of_pushCpointer h
    exact ⟨[v, _], rfl, hv⟩
  have hpacket : ∀ {sockfd : ℤ} {msg : Addr} {flags : ℤ},
      pushPacketArgs env sockfd msg flags M = .ok (0, M') →
      ∃ vs : List Value, vs.length = 3 ∧ M'.stack = vs ++ M.stack := by
    intro sockfd msg flags h
    obtain ⟨⟨err, M₁⟩, hptr, h⟩ := bind_eq_ok.mp h
    cases h
    obtain ⟨v, hv⟩ := stack_of_pushCpointer hptr
    exact ⟨[_, v, _], rfl, congrArg (List.cons _) hv⟩
  cases i with
  | socket sockfd ai => exact hsocket h
  | close sockfd ai => exact hsocket h
  | sendmsg sockfd msg flags => exact hpacket h
  | recvmsg sockfd msg flags => exact hpacket h
  | recverr sockfd msg flags => exact hpacket h

/-! ## The hooks loaded -/

instance : Fintype HookId where
  elems := {.socket, .close, .sendmsg, .recvmsg, .recverr}
  complete hid := by cases hid <;> decide

/-- The hooks that `ss'` has loaded and `ss` has not. -/
def loadedSince (ss ss' : SlaveState) : Finset HookId :=
  Finset.univ.filter fun hid => ss.hookKeys hid = none ∧ ss'.hookKeys hid ≠ none

@[simp] theorem mem_loadedSince :
    hid ∈ loadedSince ss ss' ↔ ss.hookKeys hid = none ∧ ss'.hookKeys hid ≠ none := by
  simp [loadedSince]

/-- The stack of `ss'` is that of `ss` with one value for each hook that
was loaded since. -/
structure StackGrown (ss ss' : SlaveState) : Prop where
  keeps : ∀ hid, ss.hookKeys hid ≠ none → ss'.hookKeys hid ≠ none
  stack : ∃ fs, ss'.L.stack = fs ++ ss.L.stack ∧ fs.length = (loadedSince ss ss').card

namespace StackGrown

theorem refl (ss : SlaveState) : StackGrown ss ss where
  keeps _ h := h
  stack := by
    have hnone : loadedSince ss ss = ∅ := by
      ext hid
      simp
    exact ⟨[], rfl, by simp [hnone]⟩

theorem trans (h : StackGrown ss ss₁) (h' : StackGrown ss₁ ss') : StackGrown ss ss' where
  keeps hid hkey := h'.keeps hid (h.keeps hid hkey)
  stack := by
    obtain ⟨fs, hfs, hcard⟩ := h.stack
    obtain ⟨fs', hfs', hcard'⟩ := h'.stack
    have hunion : loadedSince ss ss' = loadedSince ss ss₁ ∪ loadedSince ss₁ ss' := by
      ext hid
      simp only [Finset.mem_union, mem_loadedSince]
      have hkeep := h.keeps hid
      have hkeep' := h'.keeps hid
      tauto
    have hdisj : Disjoint (loadedSince ss ss₁) (loadedSince ss₁ ss') := by
      rw [Finset.disjoint_left]
      intro hid h₁ h₂
      exact (mem_loadedSince.mp h₁).2 (mem_loadedSince.mp h₂).1
    refine ⟨fs' ++ fs, by rw [hfs', hfs, List.append_assoc], ?_⟩
    rw [List.length_append, hcard, hcard', hunion, Finset.card_union_of_disjoint hdisj,
      Nat.add_comm]

/-- Only the stack and the keys matter. -/
theorem congr (h : StackGrown ss ss₁) (hstack : ss'.L.stack = ss₁.L.stack)
    (hkeys : ss'.hookKeys = ss₁.hookKeys) : StackGrown ss ss' where
  keeps := by rw [hkeys]; exact h.keeps
  stack := by
    have hloaded : loadedSince ss ss' = loadedSince ss ss₁ := by simp only [loadedSince, hkeys]
    rw [hstack, hloaded]
    exact h.stack

end StackGrown

theorem deserializeFunction_eq (M : Machine) (f : SFunction) :
    M.deserializeFunction al f =
      (fun r => (r.1, ⟨r.2, .function r.1 :: M.stack⟩)) <$> pushFunction al f M.target :=
  Machine.pushFunction_pushed f

/-- **Loading a hook leaves it on the stack.** -/
theorem stack_of_deserializeFunction {f : SFunction} {key : Addr}
    (h : M.deserializeFunction al f = .ok (key, M')) : M'.stack = .function key :: M.stack := by
  rw [deserializeFunction_eq] at h
  cases hpush : pushFunction al f M.target with
  | error e => rw [hpush] at h; cases h
  | ok r => rw [hpush] at h; cases h; rfl

/-- A hook that is not loaded yet is loaded, and another one is not
touched. -/
theorem stackGrown_of_hookKey {key : Addr} (h : ss.hookKey al se hid = .ok (some (key, ss'))) :
    StackGrown ss ss' := by
  unfold SlaveState.hookKey at h
  cases hkey : ss.hookKeys hid with
  | some k =>
    rw [hkey] at h
    cases h
    exact StackGrown.refl ss
  | none =>
    rw [hkey] at h
    obtain ⟨r, hr, h⟩ := bind_eq_ok.mp h
    cases hf : se.hooks hid with
    | none =>
      rw [hf] at hr
      cases hr
      cases h
    | some f =>
      rw [hf] at hr
      obtain ⟨⟨k, M⟩, hM, hr⟩ := bind_eq_ok.mp hr
      cases hr
      cases h
      have hloaded : loadedSince ss ⟨M, fun i => if i = hid then some key else
          ss.hookKeys i⟩ = {hid} := by
        ext i
        rw [mem_loadedSince, Finset.mem_singleton]
        dsimp only
        split
        · rename_i heq
          subst heq
          simp [hkey]
        · rename_i hne
          simp only [hne, iff_false]
          exact fun hand => hand.2 hand.1
      refine ⟨fun i hi => ?_, [.function key], stack_of_deserializeFunction hM, ?_⟩
      · dsimp only
        split
        · simp
        · exact hi
      · rw [hloaded]; rfl

/-- `push_hook` pushes the hook, unless there is none. -/
theorem pushHook_cases (h : ss.pushHook al se hid = .ok (r, ss')) :
    (r = -ehookempty ∧ ss' = ss) ∨
      r = 0 ∧ ∃ ss₁ v, StackGrown ss ss₁ ∧ ss'.L.stack = v :: ss₁.L.stack ∧
        ss'.hookKeys = ss₁.hookKeys := by
  obtain ⟨o, ho, h⟩ := bind_eq_ok.mp h
  cases o with
  | none =>
    cases h
    exact .inl ⟨rfl, rfl⟩
  | some p =>
    obtain ⟨key, ss₁⟩ := p
    cases h
    exact .inr ⟨rfl, ss₁, _, stackGrown_of_hookKey ho, rfl, rfl⟩

/-- `call_hook` takes the hook and its arguments off the stack. -/
theorem stack_of_callHook {nargs : ℕ} {vs : List Value} {f : Value}
    (hss : ss.L.stack = vs ++ f :: s) (hvs : vs.length = nargs)
    (h : ss.callHook env nargs = .ok (r, ss')) :
    ss'.L.stack = s ∧ ss'.hookKeys = ss.hookKeys := by
  obtain ⟨⟨err, M⟩, hcall, h⟩ := bind_eq_ok.mp h
  obtain ⟨w, hw⟩ := stack_of_pcall vs hss hvs hcall
  cases err with
  | some e => cases h
  | none =>
    obtain ⟨v, -, h⟩ := bind_eq_ok.mp h
    obtain ⟨M', hpop, h⟩ := bind_eq_ok.mp h
    cases h
    exact ⟨stack_of_pop [w] hw rfl hpop, rfl⟩

/-- **One invocation** leaves the hook it loads, if it loads one. -/
theorem stackGrown_of_run {i : Invocation} (hffi : i.FfiSucceeds al se env ss)
    (h : i.run al se env ss = .ok (r, ss')) : StackGrown ss ss' := by
  rw [Invocation.run_eq] at h
  obtain ⟨⟨err, ss₁⟩, hpush, hrun⟩ := bind_eq_ok.mp h
  rcases pushHook_cases hpush with ⟨rfl, rfl⟩ | ⟨rfl, ss₂, f, hgrown, hstack, hkeys⟩
  · cases hrun
    exact StackGrown.refl _
  · obtain ⟨⟨err, M⟩, hargs, hcall⟩ := bind_eq_ok.mp hrun
    obtain ⟨M', hok⟩ := hffi ss₁ hpush
    rw [hok] at hargs
    cases hargs
    obtain ⟨vs, hvs, hM⟩ := stack_of_pushArgs hok
    rw [hstack] at hM
    obtain ⟨hstack', hkeys'⟩ := stack_of_callHook hM hvs hcall
    exact hgrown.congr hstack' (hkeys'.trans hkeys)

/-- **Any number of invocations** leaves the hooks they load. -/
theorem Invoked.stackGrown {is : List (Env × Invocation)} (h : Invoked al se ss is ss') :
    StackGrown ss ss' := by
  induction h with
  | nil ss => exact StackGrown.refl ss
  | cons ffi run _ ih => exact (stackGrown_of_run ffi run).trans ih

/-! ## Which invocations return -/

/-- Every call from the C code succeeds. -/
structure Env.Succeeds (env : Env) : Prop where
  getfield : ∀ σ v name, ∃ w, env.getfield σ v name = some w
  call : ∀ σ f args, ∃ v, (env.call σ f args).result = .ok v

theorem Env.Succeeds.pcall (henv : env.Succeeds) (vs : List Value) {nargs : ℕ}
    (hvs : vs.length = nargs) (σ : Target) (f : Value) (s : Stack) :
    ∃ σ' v, pcall env ⟨σ, vs ++ f :: s⟩ nargs = .ok (none, ⟨σ', v :: s⟩) := by
  have hdrop : (vs ++ f :: s).drop nargs = f :: s := by rw [← hvs, List.drop_left]
  obtain ⟨v, hv⟩ := henv.call σ f ((vs ++ f :: s).take nargs).reverse
  unfold Script.pcall
  dsimp only
  rw [hdrop]
  dsimp only
  rw [hv]
  exact ⟨_, v, rfl⟩

theorem Env.Succeeds.pushCpointer (henv : env.Succeeds) (proto : LuaString) (ptr : Addr)
    (M : Machine) : ∃ σ' v, pushCpointer env M proto ptr = .ok (0, ⟨σ', v :: M.stack⟩) := by
  have hfield : ∀ {N : Machine} {i : ℕ} {v : Value} (name : LuaString), N.index i = .ok v →
      ∃ w, Script.getfield env N i name = .ok (N.push w) := by
    intro N i v name hv
    obtain ⟨w, hw⟩ := henv.getfield N.target v name
    exact ⟨w, bind_eq_ok.mpr ⟨v, hv, bind_eq_ok.mpr ⟨w, orFault_eq_ok.mpr hw, rfl⟩⟩⟩
  obtain ⟨σ₁, ffi, hffi⟩ := henv.pcall [.string (literal "ffi")] rfl M.target
    (env.getglobal M.target (literal "require")) M.stack
  obtain ⟨cast, hcast⟩ := hfield (N := ⟨σ₁, ffi :: M.stack⟩) (i := 1) (literal "cast") rfl
  obtain ⟨typeof, htypeof⟩ := hfield (N := ⟨σ₁, cast :: ffi :: M.stack⟩) (i := 2)
    (literal "typeof") rfl
  obtain ⟨σ₂, ctype, hctype⟩ := henv.pcall [.string proto] rfl σ₁ typeof
    (cast :: ffi :: M.stack)
  obtain ⟨σ₃, v, hv⟩ := henv.pcall [.lightuserdata ptr, ctype] rfl σ₂ cast
    (ffi :: M.stack)
  refine ⟨σ₃, v, bind_eq_ok.mpr ⟨_, hffi, ?_⟩⟩
  refine bind_eq_ok.mpr ⟨_, hcast, bind_eq_ok.mpr ⟨_, htypeof, ?_⟩⟩
  exact bind_eq_ok.mpr ⟨_, hctype, bind_eq_ok.mpr ⟨_, hv, rfl⟩⟩

theorem Env.Succeeds.pushArgs (henv : env.Succeeds) (i : Invocation) (M : Machine) :
    ∃ M', i.pushArgs env M = .ok (0, M') := by
  have hpacket : ∀ sockfd msg flags, ∃ M', pushPacketArgs env sockfd msg flags M = .ok (0, M') := by
    intro sockfd msg flags
    obtain ⟨σ, v, h⟩ := henv.pushCpointer (literal "struct msghdr *") msg (pushinteger M sockfd)
    exact ⟨_, bind_eq_ok.mpr ⟨_, h, rfl⟩⟩
  have hsocket : ∀ sockfd ai, ∃ M', pushSocketArgs env sockfd ai M = .ok (0, M') := by
    intro sockfd ai
    obtain ⟨σ, v, h⟩ := henv.pushCpointer (literal "struct addrinfo *") ai (pushinteger M sockfd)
    exact ⟨_, h⟩
  cases i with
  | socket sockfd ai => exact hsocket sockfd ai
  | close sockfd ai => exact hsocket sockfd ai
  | sendmsg sockfd msg flags => exact hpacket sockfd msg flags
  | recvmsg sockfd msg flags => exact hpacket sockfd msg flags
  | recverr sockfd msg flags => exact hpacket sockfd msg flags

theorem Env.Succeeds.callHook (henv : env.Succeeds) {vs : List Value} {nargs : ℕ} {f : Value}
    (hvs : vs.length = nargs) (hss : ss.L.stack = vs ++ f :: s) :
    ∃ p, ss.callHook env nargs = .ok p := by
  obtain ⟨σ', v, hcall⟩ := henv.pcall vs hvs ss.L.target f s
  rw [← hss] at hcall
  exact ⟨_, bind_eq_ok.mpr ⟨_, hcall, rfl⟩⟩

/-- The slave without its stack. -/
def SlaveState.slave (ss : SlaveState) : Slave := ⟨ss.L.target, ss.hookKeys⟩

/-- What `push_hook` did: the hook on top, if it pushed one. -/
def hookOnTop (p : ℤ × SlaveState) : Option Value × Slave :=
  (if p.1 = 0 then p.2.L.stack.head? else none, p.2.slave)

/-- **`push_hook` on the stack is `push_hook` of the model.** -/
theorem hookOnTop_pushHook (ss : SlaveState) (hid : HookId) :
    hookOnTop <$> ss.pushHook al se hid = pushHook al se hid ss.slave := by
  unfold SlaveState.pushHook SlaveState.hookKey pushHook SlaveState.slave
  dsimp only
  cases hkey : ss.hookKeys hid with
  | some key => rfl
  | none =>
    cases hf : se.hooks hid with
    | none => rfl
    | some f =>
      change hookOnTop <$> (((ss.L.deserializeFunction al f >>= _) >>= _) >>= _) = _
      rw [deserializeFunction_eq, bind_map_left, bind_assoc, bind_assoc, map_bind]
      exact bind_congr fun r => rfl

/-- **An invocation returns just where its hook loads**, if the calls it
makes succeed: no function of the C code reaches below the stack. -/
theorem run_returns_iff (henv : env.Succeeds) (i : Invocation) (ss : SlaveState) :
    (∃ p, i.run al se env ss = .ok p) ↔ ∃ p, pushHook al se i.hid ss.slave = .ok p := by
  rw [← hookOnTop_pushHook, Invocation.run_eq]
  constructor
  · rintro ⟨p, h⟩
    obtain ⟨q, hpush, -⟩ := bind_eq_ok.mp h
    exact ⟨hookOnTop q, by rw [hpush]; rfl⟩
  · rintro ⟨p, h⟩
    cases hpush : ss.pushHook al se i.hid with
    | error e => rw [hpush] at h; cases h
    | ok q =>
      obtain ⟨err, ss₁⟩ := q
      rcases pushHook_cases hpush with ⟨rfl, -⟩ | ⟨rfl, ss₂, f, -, hstack, -⟩
      · exact ⟨_, bind_eq_ok.mpr ⟨_, hpush, rfl⟩⟩
      · obtain ⟨M, hM⟩ := henv.pushArgs i ss₁.L
        obtain ⟨vs, hvs, hMs⟩ := stack_of_pushArgs hM
        rw [hstack] at hMs
        obtain ⟨p, hp⟩ : ∃ p, SlaveState.callHook env ⟨M, ss₁.hookKeys⟩ i.nargs = .ok p :=
          henv.callHook hvs hMs
        exact ⟨p, bind_eq_ok.mpr ⟨_, hpush, bind_eq_ok.mpr ⟨_, hM, hp⟩⟩⟩

/-! ## The result -/

/-- **What is left on the stack.** After any number of invocations whose
calls succeed a slave's stack has one value more for each hook loaded
since, so at most as many as there are hooks. Whatever the value and the
cache, `push_object` leaves one value on what was there,
`set_shared_upvalue` leaves what was there, and so does
`serialize_value`: each does what the function of the model does, on any
stack. -/
theorem stack_effects (al : Allocator) :
    (∀ (se : Engine) (ss ss' : SlaveState) (is : List (Env × Invocation)),
      Invoked al se ss is ss' →
        ss'.L.stack.length = ss.L.stack.length + (loadedSince ss ss').card ∧
          ss'.L.stack.length ≤ ss.L.stack.length + Fintype.card HookId) ∧
    (∀ (v : SValue) (σ : Target) (s : Stack),
      Machine.pushObject al v ⟨σ, s⟩ = (fun r => ⟨r.2, r.1 :: s⟩) <$> pushObject al v σ) ∧
    (∀ (f id : Addr) (number : ℕ) (collectorId : Option Addr) (v : SValue) (σ : Target) (s : Stack),
      Machine.setSharedUpvalue ⟨σ, .function f :: s⟩ f id number collectorId
          (fun M => Machine.pushObject al v M) =
        (fun σ' => ⟨σ', .function f :: s⟩) <$>
          setSharedUpvalue f id number collectorId (fun σ => pushObject al v σ) σ) ∧
    ∀ (n : ℕ) (v : Value) (σ : Target) (s : Stack),
      Machine.serializeValue ⟨σ, v :: s⟩ n =
        (fun sv => (sv, ⟨σ, v :: s⟩)) <$> serializeValue σ.heap n v := by
  refine ⟨fun se ss ss' is h => ?_, Machine.pushObject_pushed, ?_, ?_⟩
  · obtain ⟨fs, hfs, hcard⟩ := h.stackGrown.stack
    have hlength : ss'.L.stack.length = ss.L.stack.length + (loadedSince ss ss').card := by
      rw [hfs, List.length_append, hcard, Nat.add_comm]
    exact ⟨hlength, by rw [hlength]; exact Nat.add_le_add_left (Finset.card_le_univ _) _⟩
  · intro f id number collectorId v σ s
    exact Machine.setSharedUpvalue_of_push (Machine.pushObject_pushed v) id number collectorId σ s
  · intro n v σ s
    exact Machine.serializeObject_keeps σ n v s

/-- The `ffi` library, as `require` returns it. -/
def ffiLib : Table where
  entries := [(.string (literal "cast"), .function 3), (.string (literal "typeof"), .function 4)]
  collector := false
  nodup := by decide
  keyable := by simp [Value.keyable]
  value_ne_nil := by simp

/-- A heap with `require` and the library. -/
def ffiHeap : Heap := [(4, .cfunction), (3, .cfunction), (2, .table ffiLib), (1, .cfunction)]

/-- The message of a call that fails. -/
def callFailed (σ : Target) : Called :=
  ⟨.error (.errRun, .string (literal "bad argument")), σ.heap, σ.objectTbl⟩

/-- What a call returns, with nothing else changed. -/
def callReturns (σ : Target) (v : Value) : Called := ⟨.ok v, σ.heap, σ.objectTbl⟩

/-- A Lua state with that library. Any other function is a hook for
packets, which returns the 8 bytes that it sends. -/
def Env.ffi : Env where
  getglobal _ name := if name = literal "require" then .function 1 else .nil
  getfield σ v name :=
    match v with
    | .table a => (σ.heap.table? a).map fun t => t.rawget (.string name)
    | _ => none
  call σ f args :=
    match f, args with
    | .function 1, [.string name] =>
      if name = literal "ffi" then callReturns σ (.table 2) else callFailed σ
    | .function 3, [.cdata _, .lightuserdata p] => callReturns σ (.cdata p)
    | .function 4, [.string _] => callReturns σ (.cdata 5)
    | .function _, [.number _, .cdata _, .number _] => callReturns σ (.ofNat 8)
    | _, _ => callFailed σ
  tointeger v :=
    match v with
    | .number (.finite q) => .number (q.num.tdiv q.den)
    | _ => .other

/-- `ffi.cast(ffi.typeof(proto), ptr)`, where the library is in place. -/
theorem pushCpointer_ffi {M : Machine} (h : M.target.heap.table? 2 = some ffiLib)
    (proto : LuaString) (ptr : Addr) :
    pushCpointer Env.ffi M proto ptr = .ok (0, M.push (.cdata ptr)) := by
  have hfield : ∀ (s : Stack) (i : ℕ) (name : LuaString),
      (⟨M.target, s⟩ : Machine).index i = .ok (.table 2) →
      getfield Env.ffi ⟨M.target, s⟩ i name =
        .ok ⟨M.target, ffiLib.rawget (.string name) :: s⟩ := by
    intro s i name hi
    refine bind_eq_ok.mpr ⟨_, hi, bind_eq_ok.mpr ⟨_, orFault_eq_ok.mpr ?_, rfl⟩⟩
    show (M.target.heap.table? 2).map _ = _
    rw [h]
    rfl
  refine bind_eq_ok.mpr ⟨(none, ⟨M.target, .table 2 :: M.stack⟩), rfl, ?_⟩
  refine bind_eq_ok.mpr ⟨_, hfield _ 1 (literal "cast") rfl, ?_⟩
  refine bind_eq_ok.mpr ⟨_, hfield _ 2 (literal "typeof") rfl, ?_⟩
  refine bind_eq_ok.mpr
    ⟨(none, ⟨M.target, .cdata 5 :: .function 3 :: .table 2 :: M.stack⟩), rfl, ?_⟩
  exact bind_eq_ok.mpr ⟨(none, ⟨M.target, .cdata ptr :: .table 2 :: M.stack⟩), rfl, rfl⟩

/-- **A packet** goes to the hook that is pushed, which returns 8. -/
theorem sendmsg_ffi {ss ss₁ : SlaveState} {f : Addr} {s : Stack} (sockfd flags : ℤ) (msg : Addr)
    (hpush : ss.pushHook al se .sendmsg = .ok (0, ss₁))
    (hlib : ss₁.L.target.heap.table? 2 = some ffiLib)
    (hstack : ss₁.L.stack = .function (f + 5) :: s) :
    (Invocation.sendmsg sockfd msg flags).FfiSucceeds al se Env.ffi ss ∧
      (Invocation.sendmsg sockfd msg flags).run al se Env.ffi ss =
        .ok (8, ⟨⟨ss₁.L.target, s⟩, ss₁.hookKeys⟩) := by
  have hargs : pushPacketArgs Env.ffi sockfd msg flags ss₁.L =
      .ok (0, pushinteger ((pushinteger ss₁.L sockfd).push (.cdata msg)) flags) :=
    bind_eq_ok.mpr ⟨_, pushCpointer_ffi (M := pushinteger ss₁.L sockfd) hlib _ _, rfl⟩
  refine ⟨fun ss' h => ?_, bind_eq_ok.mpr ⟨_, hpush, bind_eq_ok.mpr ⟨_, hargs, ?_⟩⟩⟩
  · obtain ⟨-, rfl⟩ := Prod.mk.inj (Except.ok.inj (hpush.symm.trans h))
    exact ⟨_, hargs⟩
  · obtain ⟨⟨σ, stack⟩, keys⟩ := ss₁
    obtain rfl : stack = .function (f + 5) :: s := hstack
    rfl

/-- Two packets, with a hook for them, and a socket with none. -/
theorem stack_effects_two_packets :
    let f : SFunction := ⟨7, ⟨[27], 0⟩, .nil⟩
    let se : Engine := { scriptEngineCreate [] true with
      hooks := fun hid => if hid = .sendmsg then some f else none }
    let ss : SlaveState := ⟨⟨(scriptSlaveCreate ffiHeap).target, [.nil]⟩, fun _ => none⟩
    let is := [Invocation.sendmsg 3 100 0, .close 3 200, .sendmsg 3 100 0]
    ∃ ss', Invoked .above se ss (is.map (Env.ffi, ·)) ss' ∧ ss'.L.stack.length = 2 := by
  intro f se ss is
  have hrun : Invoked .above se ss (is.map (Env.ffi, ·)) _ :=
    .cons (sendmsg_ffi 3 0 100 rfl rfl rfl).1 (sendmsg_ffi 3 0 100 rfl rfl rfl).2 <|
    -- there is no hook for closing
    .cons (fun ss' h => by cases h) rfl <|
    .cons (sendmsg_ffi 3 0 100 rfl rfl rfl).1 (sendmsg_ffi 3 0 100 rfl rfl rfl).2 (.nil _)
  exact ⟨_, hrun, ((stack_effects .above).1 se ss _ _ hrun).1.trans rfl⟩

end Script

end Rushit
