import Rushit.Script.Pull
/-!
# Strings with NUL bytes

`serialize_object` copies a string with `strdup`, which ends it at its
first NUL byte; of a function's bytecode it keeps the length. So a value
comes back from `serialize_value` and `deserialize_value` as it was
exactly where no string in it has a NUL byte (`restores_iff`). Where one
has, the string comes back shorter, and of two keys that become equal
one is lost.
-/

namespace Rushit

namespace Lua

variable {G G' H : Graph} {R R' : Corr} {v v' w : Value}

/-! ## A table and its copy -/

theorem lookup_of_plain_table {h : Heap} {a : Addr} {es : List (Value × Slot)}
    (ha : h.plain a = some (.table es)) :
    ∃ t, h.lookup a = some (.table t) ∧ t.entries.map (fun e => (e.1, ⟨e.2, none⟩)) = es := by
  unfold Heap.plain at ha
  split at ha
  · rename_i t ht
    exact ⟨t, ht, by simpa using ha⟩
  all_goals simp at ha

/-- **What the copy of a table holds**: as many entries, and each string
under the string it was under. -/
theorem SameValue.table {h h' : Heap} {a : Addr} {t : Table}
    (hsame : SameValue h.plain (.table a) h'.plain w) (ht : h.table? a = some t) :
    ∃ a' t', w = .table a' ∧ h'.table? a' = some t' ∧ t'.entries.length = t.entries.length ∧
      ∀ k s : LuaString, t.rawget (.string k) = .string s → t'.rawget (.string k) = .string s := by
  obtain ⟨R, hR, a', rfl, ha'⟩ := hsame
  have hplain : h.plain a = some (.table (t.entries.map fun e => (e.1, ⟨e.2, none⟩))) := by
    simp [Heap.plain, Heap.table?_eq_some.mp ht]
  obtain ⟨n, n', hn, hn', hnode⟩ := hR.obj a a' ha'
  obtain rfl := Option.some.inj (hn.symm.trans hplain)
  cases n' with
  | table es' =>
    obtain ⟨t', ht', rfl⟩ := lookup_of_plain_table hn'
    obtain ⟨l, hperm, hl⟩ := hnode
    refine ⟨a', t', rfl, Heap.table?_eq_some.mpr ht', ?_, fun k s hks => ?_⟩
    · simpa using hperm.length_eq.symm.trans hl.length_eq.symm
    · have hfind : (Value.string k, Value.string s) ∈ t.entries := by
        unfold Table.rawget at hks
        cases hl : t.entries.lookup (.string k) with
        | none => rw [hl] at hks; cases hks
        | some u =>
          rw [hl] at hks
          obtain rfl : u = .string s := hks
          exact mem_of_lookup hl
      -- its counterpart is an entry of the copy
      obtain ⟨e', he', hek, hev⟩ := forall₂_mem_left hl (List.mem_map_of_mem hfind)
      obtain ⟨⟨k', s'⟩, hd, rfl⟩ := List.mem_map.mp (hperm.subset he')
      obtain rfl : k' = .string k := hek
      obtain rfl : s' = .string s := hev
      rw [Table.rawget, lookup_of_mem_nodup t'.nodup hd]; rfl
  | closure c => exact hnode.elim
  | cell s => exact hnode.elim

end Lua

namespace Script

open Lua Serialize

variable {al : Allocator} {h : Heap} {v : Value} {n : Node}

/-- **The same value, of the same strings**: `v'` in one heap unfolds to
what `v` in the other does; a string is the same string, and a table has
as many entries and each string under the string it was under. -/
structure GivenBack (h : Heap) (v : Value) (h' : Heap) (v' : Value) : Prop where
  same : SameValue h.plain v h'.plain v'
  string : ∀ s, v = .string s → v' = .string s
  table : ∀ a t, v = .table a → h.table? a = some t → ∃ a' t', v' = .table a' ∧
    h'.table? a' = some t' ∧ t'.entries.length = t.entries.length ∧
    ∀ k s : LuaString, t.rawget (.string k) = .string s → t'.rawget (.string k) = .string s

theorem GivenBack.of_same {h' : Heap} {v' : Value} (hs : SameValue h.plain v h'.plain v') :
    GivenBack h v h' v' where
  same := hs
  string s := by
    rintro rfl
    obtain ⟨R, -, hv⟩ := hs
    exact hv
  table a t := by
    rintro rfl ht
    exact hs.table ht

/-- **Serialising and deserialising gives the value back**:
`serialize_value` returns, and what it returns loads into any Lua state
as the value. -/
def Restores (al : Allocator) (h : Heap) (v : Value) : Prop :=
  (Returns fun n => serializeValue h n v) ∧
    ∀ n t, serializeValue h n v = .ok t → ∀ h₀, ∃ v' σ,
      deserializeValue al t (Target.start h₀) = .ok (v', σ) ∧ GivenBack h v σ.heap v'

/-! ## What loads -/

/-- **A serialised value without wrappers loads**, into any Lua state: its
content, each string cut. -/
theorem deserializeValue_inv (al : Allocator) (hu : h.captured.AllFrom v Node.Unwrapped)
    {t : SValue} (ht : t.Expands h.captured v) (h₀ : Heap) :
    Regular (reachable h [v]) ∧ ∃ v' σ, deserializeValue al t (Target.start h₀) = .ok (v', σ) ∧
      Inv (reachable h [v]) noOne σ ∧ σ.corr.Val (cut v) v' := by
  have hG : Regular (reachable h [v]) := regular_reachable fun w hw b m hb hm => by
    obtain rfl := List.mem_singleton.mp hw
    exact (hu b m hb hm).scalarKeys
  have hexp : t.Expands (reachable h [v]) v := expands_reachable ht (List.mem_singleton.mpr rfl)
  obtain ⟨v', σ, hok, -, -⟩ := pushObject_grown al t (hexp.sound hG) (Target.start h₀)
    (Valid.start _ h₀)
  exact ⟨hG, v', σ, hok,
    pushObject_inv hG al t hexp _ (Valid.start _ h₀) (Inv.start _ noOne h₀) hok⟩

/-! ## When a value is given back -/

/-- **A value is given back exactly where no string in it has a NUL byte**
and no cycle is reached. -/
theorem restores_iff (al : Allocator) (h : Heap) (v : Value) (hs : h.captured.SupportedFrom v)
    (hu : h.captured.AllFrom v Node.Unwrapped) :
    Restores al h v ↔
      h.captured.AcyclicFrom v ∧ v.NulFree ∧ h.captured.AllFrom v Node.NulFree := by
  constructor
  · rintro ⟨⟨N, hN⟩, hload⟩
    obtain ⟨t, ht⟩ := hN N le_rfl
    have hexp := serializeObject_expands ht
    obtain ⟨v', σ, hok, hgiven⟩ := hload N t ht []
    obtain ⟨-, v'', σ', hok', hinv, hval⟩ := deserializeValue_inv al hu hexp []
    obtain ⟨rfl, rfl⟩ : v' = v'' ∧ σ = σ' := by simpa [hok] using hok'
    obtain ⟨R, hR, hRv⟩ := hgiven.same
    -- the copy is an image of the value and of the value cut
    obtain ⟨hfree, hall⟩ := hR.nulFree hinv.agree hRv hval (nulFree_cut v)
      fun a n ha => nulFree_loaded ha
    exact ⟨acyclicFrom_of_expands hexp, hfree, fun b n hb hn =>
      hall b n (reachFrom_plain hu hb) (plain_of_captured hn (hu b n hb hn))⟩
  · rintro ⟨hac, hfree, hall⟩
    refine ⟨(dumps_of_founded hs fun a ha => founded_of_acyclicFrom hac ha).returns,
      fun n t ht h₀ => ?_⟩
    obtain ⟨hG, v', σ, hok, hinv, hval⟩ :=
      deserializeValue_inv al hu (serializeObject_expands ht) h₀
    rw [cut_eq_self hfree] at hval
    have hplain : ∀ a n, reachable h [v] a = some n → h.plain a = some n ∧ n.NulFree := by
      intro a n ha
      obtain ⟨w, hw, hr, hn⟩ := reachable_eq_some ha
      obtain rfl := List.mem_singleton.mp hw
      exact ⟨plain_of_captured hn (hu a n hr hn), hall a n hr hn⟩
    have hagree : Agree h.plain σ.heap.plain σ.corr :=
      (agree_of_nulFree hG (fun a n ha => (hplain a n ha).2) hinv.agree).of_le
        fun a n ha => (hplain a n ha).1
    exact ⟨v', σ, hok, .of_same ⟨σ.corr, hagree, hval⟩⟩

/-! ### Two keys that differ after a NUL byte -/

/-- `{[a] = "x", [b] = "y"}`. -/
def twoKeys (a b : LuaString) (hne : a ≠ b) : Heap :=
  [(1, .table ⟨[(.string a, .string [120]), (.string b, .string [121])], false,
    by simpa using hne, by simp [Value.keyable], by simp⟩)]

/-- Two keys that differ before. -/
theorem restores_iff_two_keys : Restores .above (twoKeys [97] [98] (by decide)) (.table 1) ↔
    (twoKeys [97] [98] (by decide)).captured.AcyclicFrom (.table 1) ∧ (Value.table 1).NulFree ∧
      (twoKeys [97] [98] (by decide)).captured.AllFrom (.table 1) Node.NulFree :=
  restores_iff .above _ _ ⟨by decide, Graph.allFrom_of_keys (by decide)⟩
    (Graph.allFrom_of_keys (by decide))

/-- **Of two keys `a\0b` and `a\0c` one is lost.** -/
theorem two_keys_merged : ¬ ∀ (al : Allocator) (h : Heap) (v : Value),
    h.captured.SupportedFrom v → h.captured.AcyclicFrom v →
    h.captured.AllFrom v Node.Unwrapped → Restores al h v := by
  intro hall
  let h := twoKeys [97, 0, 98] [97, 0, 99] (by decide)
  have hok : serializeValue h 2 (.table 1) = .ok (.table 1 (.cons (.string [97]) (.string [121])
      none (.cons (.string [97]) (.string [120]) none .nil))) := rfl
  obtain ⟨-, hload⟩ := hall .above h (.table 1) ⟨by decide, Graph.allFrom_of_keys (by decide)⟩
    (acyclicFrom_of_expands (serializeObject_expands hok)) (Graph.allFrom_of_keys (by decide))
  obtain ⟨v', σ, hload, hgiven⟩ := hload 2 _ hok []
  obtain ⟨a', t', rfl, ht', hlen, -⟩ := hgiven.table 1 _ rfl rfl
  cases hload
  cases ht'
  cases hlen

end Script

end Rushit
