import Rushit.Serialize.Model
import Rushit.Lua.Heap
/-!
# What loading adds to a Lua state

Loading a tree never fails on a tree the serialiser can produce, and it
only adds: objects, cells and mappings that were there stay as they are
(`Ext`). `Valid` is what the maps of an `upvalue_cache` promise about
the state they index: every object mapping points to an object in the
object table, every upvalue mapping to an upvalue its function has,
every collector mapping to an upvalue or a table entry.

Nothing here asks where the trees come from: hooks serialised at
different times, with whatever ids, load through one cache alike.
-/

namespace Rushit

namespace Serialize

open Lua

/-! ## Trees -/

/-- Where the serialiser can find a collector wrapper: in an upvalue, or
in a table entry. -/
inductive Site
  | upvalue (id : Addr)
  | entry (table : Addr) (key : SValue)

/-- A key that `copy_value` copies as it is. -/
def SValue.Scalar : SValue → Prop
  | .boolean _ => True
  | .number _ => True
  | .string s => strdup s = s
  | _ => False

/-- A site whose wrapper can be recorded. -/
def Site.Scalar : Site → Prop
  | .upvalue _ => True
  | .entry _ key => key.Scalar

/-- A serialised value that can be a table key. -/
def SValue.keyable : SValue → Bool
  | .number .nan => false
  | _ => true

/-- The wrappers at the sites `cap` allows, and at none else. -/
def Captures (cap : Site → Addr → Prop) (s : Site) (collectorId : Option Addr) : Prop :=
  ∀ w, collectorId = some w → cap s w

mutual

/-- `c` is the id of an upvalue somewhere in the tree. -/
def SValue.Mentions (c : Addr) : SValue → Prop
  | .boolean _ => False
  | .number _ => False
  | .string _ => False
  | .function _ _ upvalues => upvalues.Mentions c
  | .table _ entries => entries.Mentions c

def SUpvalues.Mentions (c : Addr) : SUpvalues → Prop
  | .nil => False
  | .cons id _ value _ next => c = id ∨ value.Mentions c ∨ next.Mentions c

def SEntries.Mentions (c : Addr) : SEntries → Prop
  | .nil => False
  | .cons key value _ next => key.Mentions c ∨ value.Mentions c ∨ next.Mentions c

end

mutual

/-- A tree as the serialiser builds it: upvalues numbered downwards from
the number the prototype declares, none inside its own value, keys that
can be keys, and wrappers only where `cap` has them and under scalar
keys. -/
def SValue.Sound (cap : Site → Addr → Prop) : SValue → Prop
  | .boolean _ => True
  | .number _ => True
  | .string _ => True
  | .function _ code upvalues => upvalues.Sound cap code.sizeuv
  | .table id entries => entries.Sound cap id

/-- The upvalue list, from upvalue `n` down. -/
def SUpvalues.Sound (cap : Site → Addr → Prop) : SUpvalues → ℕ → Prop
  | .nil, n => n = 0
  | .cons id number value collectorId next, n =>
    ∃ m, n = m + 1 ∧ number = n ∧ value.Sound cap ∧ ¬ value.Mentions id ∧
      Captures cap (.upvalue id) collectorId ∧ next.Sound cap m

/-- The entry list of the table `id`. -/
def SEntries.Sound (cap : Site → Addr → Prop) : SEntries → Addr → Prop
  | .nil, _ => True
  | .cons key value collectorId next, id =>
    key.Sound cap ∧ key.keyable = true ∧ value.Sound cap ∧
      (collectorId ≠ none → key.Scalar) ∧ Captures cap (.entry id key) collectorId ∧
      next.Sound cap id

end

mutual

/-- The tree has the wrapper `w` at the site `s`. -/
def SValue.Wraps (s : Site) (w : Addr) : SValue → Prop
  | .boolean _ => False
  | .number _ => False
  | .string _ => False
  | .function _ _ upvalues => upvalues.Wraps s w
  | .table id entries => entries.Wraps s w id

def SUpvalues.Wraps (s : Site) (w : Addr) : SUpvalues → Prop
  | .nil => False
  | .cons id _ value collectorId next =>
    (s = .upvalue id ∧ collectorId = some w) ∨ value.Wraps s w ∨ next.Wraps s w

def SEntries.Wraps (s : Site) (w : Addr) : SEntries → Addr → Prop
  | .nil, _ => False
  | .cons key value collectorId next, id =>
    (s = .entry id key ∧ collectorId = some w) ∨ key.Wraps s w ∨ value.Wraps s w ∨
      next.Wraps s w id

end

/-! ## The invariant of the maps -/

/-- `a` is a table or a closure, and the object table returns it under
its address. -/
def Target.IsObject (σ : Target) (a : Addr) : Prop :=
  (∃ t, σ.heap.lookup a = some (.table t) ∧ σ.objectTbl.lookup a = some (.table a)) ∨
    ∃ c, σ.heap.lookup a = some (.closure c) ∧ σ.objectTbl.lookup a = some (.function a)

/-- Upvalue `i` of the function `f` is there, and the object table
returns `f` under its address. -/
def Target.HasUpvalue (σ : Target) (f : Addr) (i : ℕ) : Prop :=
  σ.objectTbl.lookup f = some (.function f) ∧
    ∃ x w, σ.heap.upvalueid f i = some x ∧ σ.heap.lookup x = some (.cell w)

/-- **What the maps of an `upvalue_cache` promise.** -/
structure Valid (cap : Site → Addr → Prop) (σ : Target) : Prop where
  object : ∀ a a', (a, a') ∈ σ.objectMap → σ.IsObject a'
  upvalue : ∀ c f i, (c, f, i) ∈ σ.upvalueMap → σ.HasUpvalue f i
  collector : ∀ w o k, (w, o, k) ∈ σ.collectorMap →
    (∃ c i, cap (.upvalue c) w ∧ (c, o, i) ∈ σ.upvalueMap ∧ k = .number (.ofNat i)) ∨
    ∃ a, cap (.entry a k) w ∧ k.Scalar ∧ (a, o) ∈ σ.objectMap ∧
      ∃ t, σ.heap.lookup o = some (.table t)

/-- **The state only grew.** What `own` does not exempt is unchanged in
the heap and in the object table; new mappings lead to new objects, and
the new upvalue mappings have keys in `new`. -/
structure Ext (own new : Addr → Prop) (σ σ' : Target) : Prop where
  heap : ∀ x, σ.heap.Live x → ¬ own x → σ'.heap.lookup x = σ.heap.lookup x
  live : ∀ x, σ.heap.Live x → σ'.heap.Live x
  objectTbl : ∀ x, σ.heap.Live x → σ'.objectTbl.lookup x = σ.objectTbl.lookup x
  slots : ∀ c f i, (c, f, i) ∈ σ.upvalueMap → σ'.heap.upvalueid f i = σ.heap.upvalueid f i
  objectMap : ∃ l, σ'.objectMap = l ++ σ.objectMap ∧ ∀ p ∈ l, ¬ σ.heap.Live p.2
  upvalueMap : ∃ l, σ'.upvalueMap = l ++ σ.upvalueMap ∧
    ∀ p ∈ l, new p.1 ∧ (¬ σ.heap.Live p.2.1 ∨ own p.2.1) ∧
      ∃ x, σ'.heap.upvalueid p.2.1 p.2.2 = some x ∧ (¬ σ.heap.Live x ∨ own x)
  collectorMap : σ.collectorMap <:+ σ'.collectorMap

namespace Ext

variable {own own' new new' : Addr → Prop} {σ σ₁ σ₂ : Target}

protected theorem refl (own new : Addr → Prop) (σ : Target) : Ext own new σ σ where
  heap _ _ _ := rfl
  live _ h := h
  objectTbl _ _ := rfl
  slots _ _ _ _ := rfl
  objectMap := ⟨[], rfl, by simp⟩
  upvalueMap := ⟨[], rfl, by simp⟩
  collectorMap := List.suffix_refl _

/-- What is exempted and what may be new can be widened. -/
theorem mono (h : Ext own new σ σ₁) (hown : ∀ x, own x → own' x ∨ ¬ σ.heap.Live x)
    (hnew : ∀ c, new c → new' c) : Ext own' new' σ σ₁ where
  heap x hx hox := h.heap x hx fun ho => (hown x ho).elim hox (· hx)
  live := h.live
  objectTbl := h.objectTbl
  slots := h.slots
  objectMap := h.objectMap
  upvalueMap := by
    obtain ⟨l, hl, hp⟩ := h.upvalueMap
    refine ⟨l, hl, fun p hpl => ?_⟩
    obtain ⟨h₁, h₂, x, hx, h₃⟩ := hp p hpl
    exact ⟨hnew _ h₁, h₂.elim .inl fun ho => (hown _ ho).symm, x, hx,
      h₃.elim .inl fun ho => (hown _ ho).symm⟩
  collectorMap := h.collectorMap

theorem mem_objectMap (h : Ext own new σ σ₁) {p : Addr × Addr} (hp : p ∈ σ.objectMap) :
    p ∈ σ₁.objectMap := by
  obtain ⟨l, hl, -⟩ := h.objectMap
  rw [hl]; exact List.mem_append_right l hp

theorem mem_upvalueMap (h : Ext own new σ σ₁) {p : Addr × Addr × ℕ} (hp : p ∈ σ.upvalueMap) :
    p ∈ σ₁.upvalueMap := by
  obtain ⟨l, hl, -⟩ := h.upvalueMap
  rw [hl]; exact List.mem_append_right l hp

/-- **Extensions compose.** The second may write to what the first
created. -/
theorem trans (h₁ : Ext own new σ σ₁) (h₂ : Ext own' new σ₁ σ₂)
    (hown : ∀ x, own' x → own x ∨ ¬ σ.heap.Live x) : Ext own new σ σ₂ where
  heap x hx hox := by
    rw [h₂.heap x (h₁.live x hx) fun ho => (hown x ho).elim hox (· hx), h₁.heap x hx hox]
  live x hx := h₂.live x (h₁.live x hx)
  objectTbl x hx := by rw [h₂.objectTbl x (h₁.live x hx), h₁.objectTbl x hx]
  slots c f i hm := by rw [h₂.slots c f i (h₁.mem_upvalueMap hm), h₁.slots c f i hm]
  objectMap := by
    obtain ⟨l₁, e₁, p₁⟩ := h₁.objectMap
    obtain ⟨l₂, e₂, p₂⟩ := h₂.objectMap
    refine ⟨l₂ ++ l₁, by rw [e₂, e₁, List.append_assoc], fun p hp => ?_⟩
    rcases List.mem_append.mp hp with hp | hp
    · exact fun hl => p₂ p hp (h₁.live _ hl)
    · exact p₁ p hp
  upvalueMap := by
    obtain ⟨l₁, e₁, p₁⟩ := h₁.upvalueMap
    obtain ⟨l₂, e₂, p₂⟩ := h₂.upvalueMap
    have back : ∀ y, (¬ σ₁.heap.Live y ∨ own' y) → ¬ σ.heap.Live y ∨ own y := fun y hy =>
      hy.elim (fun hl => .inl fun hl' => hl (h₁.live _ hl')) fun ho => (hown y ho).symm
    refine ⟨l₂ ++ l₁, by rw [e₂, e₁, List.append_assoc], fun p hp => ?_⟩
    rcases List.mem_append.mp hp with hp | hp
    · obtain ⟨hn, hf, x, hx, hxl⟩ := p₂ p hp
      exact ⟨hn, back _ hf, x, hx, back x hxl⟩
    · obtain ⟨hn, hf, x, hx, hxl⟩ := p₁ p hp
      refine ⟨hn, hf, x, ?_, hxl⟩
      rw [h₂.slots p.1 p.2.1 p.2.2 (by rw [e₁]; exact List.mem_append_left _ hp), hx]
  collectorMap := h₁.collectorMap.trans h₂.collectorMap

end Ext

end Serialize

end Rushit
