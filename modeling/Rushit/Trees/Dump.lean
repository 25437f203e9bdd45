import Rushit.Trees.Shape
/-!
# Dumping into memory

`serialize_object` allocates the tree that it makes on values, and
nothing else. It fails where and as it fails there.
-/

namespace Rushit

namespace Trees

open Lua
open Ram (Malloc Stop access forEach Returns Mirrors)
open Serialize (SValue SUpvalues SEntries SFunction)

/-- The tree is in memory beside what there is. -/
def MadeValue (k : Cells) (sv : SValue) (r : CValue × Ram Cell) : Prop :=
  ∃ l, ValueAt sv r.1 l ∧ r.2.Holds (l ++ k)

def MadeUpvalues (k : Cells) (us : SUpvalues) (r : Option ℕ × Ram Cell) : Prop :=
  ∃ l, UpvaluesAt us r.1 l ∧ r.2.Holds (l ++ k)

def MadeEntries (k : Cells) (es : SEntries) (r : Option ℕ × Ram Cell) : Prop :=
  ∃ l, EntriesAt es r.1 l ∧ r.2.Holds (l ++ k)

def MadeFunction (k : Cells) (f : SFunction) (r : ℕ × Ram Cell) : Prop :=
  MadeValue k f.toSValue (.function r.1, r.2)

variable {h : Heap} {al : Malloc Cell} {k : Cells} {m : Ram Cell} {n : ℕ} {v : Value} {a : Addr}

section Rec

variable {rec : Value → Except Serialize.Fault SValue}
variable {rec' : Value → Ram Cell → Except Ends (CValue × Ram Cell)}

/-- **One entry** more. -/
theorem dumpTableEntry_mirrors {es : SEntries} {r : Option ℕ × Ram Cell} {e : Value × Value}
    (hrec : ∀ v m k, m.Holds k → Mirrors (rec v) (rec' v m) (MadeValue k))
    (hr : MadeEntries k es r) :
    Mirrors (do
      let slot := h.unwrapCollectorMaybe e.2
      let value ← rec slot.value
      let key ← rec e.1
      pure (SEntries.cons key value slot.collector es)) (dumpTableEntry h al rec' r e)
      (MadeEntries k) := by
  obtain ⟨lh, hes, hm⟩ := hr
  unfold dumpTableEntry
  obtain ⟨p, m₁, hp, hm₁⟩ := hm.exists_malloc al (.entry ⟨r.1, .nil, .nil, none⟩)
  simp only [hp]
  refine .of_returns (Ram.Holds.modify (l := []) hm₁ rfl _).access fun m₂ hm₂ => ?_
  refine (hrec _ m₂ _ hm₂).bind ?_
  rintro sv ⟨cv, m₃⟩ ⟨lv, hsv, hm₃⟩
  refine .of_returns (hm₃.modify rfl _).access fun m₄ hm₄ => ?_
  refine (hrec _ m₄ _ hm₄).bind ?_
  rintro sk ⟨ck, m₅⟩ ⟨lk, hsk, hm₅⟩
  rw [← List.append_assoc] at hm₅
  refine .of_returns (hm₅.modify rfl _).access fun m₆ hm₆ => .pure ?_
  refine ⟨_, ⟨_, _, ck, cv, lk, lv, lh, rfl, hsk, hsv, hes, rfl⟩, hm₆.perm ?_⟩
  refine List.perm_middle.trans (.of_eq ?_)
  simp

/-- **`dump_table_entries`** -/
theorem dumpTableEntries_mirrors {entries : List (Value × Value)}
    (hrec : ∀ v m k, m.Holds k → Mirrors (rec v) (rec' v m) (MadeValue k)) (hm : m.Holds k) :
    Mirrors (Serialize.dumpTableEntries h rec entries) (dumpTableEntries h al rec' entries m)
      (MadeEntries k) :=
  Mirrors.foldlM (fun _ _ _ _ hr => dumpTableEntry_mirrors hrec hr) ⟨[], ⟨rfl, rfl⟩, hm⟩

/-- **`serialize_table`** -/
theorem serializeTable_mirrors
    (hrec : ∀ v m k, m.Holds k → Mirrors (rec v) (rec' v m) (MadeValue k)) (hm : m.Holds k) :
    Mirrors (Serialize.serializeTable h rec a) (serializeTable h al rec' a m) (MadeValue k) := by
  unfold Serialize.serializeTable serializeTable
  obtain ⟨p, m₁, hp, hm₁⟩ := hm.exists_malloc al (.table ⟨a, none⟩)
  simp only [hp]
  cases ht : h.table? a with
  | none => exact .error
  | some t =>
    refine (dumpTableEntries_mirrors hrec hm₁).bind ?_
    rintro es ⟨entries, m₂⟩ ⟨le, hes, hm₂⟩
    refine .of_returns (hm₂.modify rfl _).access fun m₃ hm₃ => .pure ?_
    exact ⟨_, ⟨_, entries, le, rfl, hes, rfl⟩, hm₃.perm List.perm_middle⟩

/-- **One upvalue** more, and what follows. -/
theorem serializeUpvalue_mirrors {us : SUpvalues} {head : Option ℕ} {i : ℕ} {id : Addr}
    {f : SUpvalues → Except Serialize.Fault SUpvalues}
    {g : Option ℕ × Ram Cell → Except Ends (Option ℕ × Ram Cell)}
    (hrec : ∀ v m k, m.Holds k → Mirrors (rec v) (rec' v m) (MadeValue k))
    (hr : MadeUpvalues k us (head, m))
    (hfg : ∀ us r, MadeUpvalues k us r → Mirrors (f us) (g r) (MadeUpvalues k)) :
    Mirrors (do
      let slot := h.unwrapCollectorMaybe v
      let value ← rec slot.value
      f (.cons id i value slot.collector us))
      (serializeUpvalue h al rec' id i v head m >>= g) (MadeUpvalues k) := by
  obtain ⟨lh, hus, hm⟩ := hr
  unfold serializeUpvalue
  simp only [bind_assoc]
  obtain ⟨p, m₁, hp, hm₁⟩ := hm.exists_malloc al (.upvalue ⟨none, id, i, .nil, none⟩)
  simp only [hp]
  refine .of_returns (Ram.Holds.modify (l := []) hm₁ rfl _).access fun m₂ hm₂ => ?_
  refine (hrec _ m₂ _ hm₂).bind ?_
  rintro sv ⟨cv, m₃⟩ ⟨lv, hsv, hm₃⟩
  refine .of_returns (hm₃.modify rfl _).access fun m₄ hm₄ => ?_
  refine .of_returns (hm₄.modify rfl _).access fun m₅ hm₅ => hfg _ _ ?_
  refine ⟨_, ⟨_, head, cv, lv, lh, rfl, hsv, hus, rfl⟩, hm₅.perm ?_⟩
  refine List.perm_middle.trans (.of_eq ?_)
  simp

/-- **`serialize_upvalues`**, by induction on the upvalues. -/
theorem serializeUpvalues_mirrors {xs : List Addr} {i : ℕ} {us : SUpvalues} {head : Option ℕ}
    (hrec : ∀ v m k, m.Holds k → Mirrors (rec v) (rec' v m) (MadeValue k))
    (hr : MadeUpvalues k us (head, m)) :
    Mirrors (Serialize.serializeUpvalues h rec xs i us)
      (serializeUpvalues h al rec' xs i head m) (MadeUpvalues k) := by
  induction xs generalizing i us head m with
  | nil => exact .pure hr
  | cons x xs ih =>
    unfold Serialize.serializeUpvalues serializeUpvalues
    cases hx : h.cell? x with
    | none => exact .error
    | some v => exact serializeUpvalue_mirrors hrec hr fun us r hr => ih hr

/-- **`serialize_function`** -/
theorem serializeFunctionWith_mirrors
    (hrec : ∀ v m k, m.Holds k → Mirrors (rec v) (rec' v m) (MadeValue k)) (hm : m.Holds k) :
    Mirrors (Serialize.serializeFunctionWith h rec a) (serializeFunctionWith h al rec' a m)
      (MadeFunction k) := by
  unfold Serialize.serializeFunctionWith serializeFunctionWith
  obtain ⟨p, m₁, hp, hm₁⟩ := hm.exists_malloc al (.function ⟨a, none, none⟩)
  simp only [hp]
  cases ha : h.lookup a with
  | none => exact .error
  | some o =>
    cases o with
    | table t => exact .error
    | cell v => exact .error
    | cfunction => exact .error
    | closure c =>
      obtain ⟨q, m₂, hq, hm₂⟩ := hm₁.exists_malloc al (.code c.proto)
      simp only [hq]
      refine .of_returns (Ram.Holds.modify (l := [_]) hm₂ rfl _).access fun m₃ hm₃ => ?_
      have hnil : MadeUpvalues _ .nil (none, m₃) := ⟨[], ⟨rfl, rfl⟩, hm₃⟩
      refine (serializeUpvalues_mirrors hrec hnil).bind ?_
      rintro us ⟨upvalues, m₄⟩ ⟨lu, hus, hm₄⟩
      have hm₅ : m₄.Holds ((lu ++ [⟨q, .code c.proto⟩]) ++
          ⟨p, .function ⟨a, some q, none⟩⟩ :: k) := by
        rw [List.append_assoc]
        exact hm₄
      refine .of_returns (hm₅.modify rfl _).access fun m₆ hm₆ => .pure ?_
      refine ⟨_, ⟨p, q, upvalues, lu, rfl, hus, rfl⟩, hm₆.perm ?_⟩
      exact List.perm_middle.trans (.cons _ (by simp))

end Rec

/-- **`serialize_object`**, by induction on the fuel. -/
theorem serializeObject_mirrors (hm : m.Holds k) :
    Mirrors (Serialize.serializeObject h n v) (serializeObject h al n v m) (MadeValue k) := by
  induction n generalizing v m k with
  | zero => exact .error
  | succ n ih =>
    cases v with
    | nil => exact .error
    | number x => exact .pure ⟨[], ⟨rfl, rfl⟩, hm⟩
    | boolean b => exact .pure ⟨[], ⟨rfl, rfl⟩, hm⟩
    | string s => exact .pure ⟨_, ⟨_, rfl, rfl⟩, hm.malloc al (.string (Serialize.strdup s))⟩
    | table a => exact serializeTable_mirrors (fun _ _ _ => ih) hm
    | function a =>
      refine (serializeFunctionWith_mirrors (fun _ _ _ => ih) hm).bind ?_
      rintro f ⟨p, m'⟩ hf
      exact .pure hf
    | userdata a => exact .error
    | thread a => exact .error
    | lightuserdata a => exact .error
    | cdata a => exact .error

/-- **`serialize_function`**, as called from outside. -/
theorem serializeFunction_mirrors (hm : m.Holds k) :
    Mirrors (Serialize.serializeFunction h n a) (serializeFunction h al n a m) (MadeFunction k) :=
  serializeFunctionWith_mirrors (fun _ _ _ => serializeObject_mirrors) hm

/-- A `struct svalue` that was allocated. -/
def MadeSvalue (k : Cells) (sv : SValue) (r : ℕ × Ram Cell) : Prop :=
  ∃ c l, ValueAt sv c l ∧ r.2.Holds (⟨r.1, .value c⟩ :: (l ++ k))

/-- **`serialize_value`** -/
theorem serializeValue_mirrors (hm : m.Holds k) :
    Mirrors (Serialize.serializeValue h n v) (serializeValue h al n v m) (MadeSvalue k) := by
  unfold Serialize.serializeValue serializeValue
  obtain ⟨p, m₁, hp, hm₁⟩ := hm.exists_malloc al (.value .nil)
  simp only [hp]
  rw [← bind_pure (Serialize.serializeObject h n v)]
  refine (serializeObject_mirrors hm₁).bind ?_
  rintro sv ⟨c, m₂⟩ ⟨l, hsv, hm₂⟩
  refine .of_returns (hm₂.write _).access fun m₃ hm₃ => .pure ?_
  exact ⟨c, l, hsv, hm₃.perm List.perm_middle⟩

end Trees

end Rushit
