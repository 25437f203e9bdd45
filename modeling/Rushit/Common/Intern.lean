import Mathlib.Data.Finset.Card
/-!
# Keys numbered as they appear

A table that looks a key up and appends it when it is new holds the keys
in the order of their first appearance. No key is held twice, exactly the
keys asked for are held, and so there are as many places as distinct keys.
-/

namespace Rushit

variable {κ : Type*} [DecidableEq κ]

/-- A key that has no place yet takes the next one. -/
def intern (keys : List κ) (k : κ) : List κ :=
  if k ∈ keys then keys else keys ++ [k]

/-- The places after all keys were asked for. -/
def internAll (ks : List κ) : List κ := ks.foldl intern []

/-- Where a key is, and the number of keys when it has no place. -/
def place (keys : List κ) (k : κ) : ℕ := keys.idxOf k

variable {keys ks : List κ} {k k' : κ}

theorem intern_of_mem (h : k ∈ keys) : intern keys k = keys := if_pos h

theorem intern_of_notMem (h : k ∉ keys) : intern keys k = keys ++ [k] := if_neg h

@[simp] theorem mem_intern : k' ∈ intern keys k ↔ k' ∈ keys ∨ k' = k := by
  by_cases h : k ∈ keys
  · rw [intern_of_mem h]
    exact ⟨.inl, fun hk => hk.elim id fun heq => heq ▸ h⟩
  · simp [intern_of_notMem h]

theorem nodup_intern (h : keys.Nodup) : (intern keys k).Nodup := by
  by_cases hk : k ∈ keys
  · rwa [intern_of_mem hk]
  · rw [intern_of_notMem hk]
    exact List.nodup_append.mpr ⟨h, List.nodup_singleton k, fun a ha b hb hab => by
      rw [List.mem_singleton.mp hb] at hab
      exact hk (hab ▸ ha)⟩

/-- A key is at its place. -/
theorem getElem?_place (h : k ∈ keys) : keys[place keys k]? = some k := List.getElem?_idxOf h

theorem place_lt (h : k ∈ keys) : place keys k < keys.length := List.idxOf_lt_length_of_mem h

theorem place_of_notMem (h : k ∉ keys) : place keys k = keys.length := List.idxOf_eq_length h

theorem place_cons_self : place (k :: keys) k = 0 := List.idxOf_cons_self

theorem place_cons_of_ne (h : k' ≠ k) : place (k' :: keys) k = place keys k + 1 :=
  List.idxOf_cons_ne keys h

/-- A key that was new has its place afterwards. -/
theorem getElem?_intern_self : (intern keys k)[place keys k]? = some k := by
  by_cases hk : k ∈ keys
  · rw [intern_of_mem hk]
    exact getElem?_place hk
  · rw [intern_of_notMem hk, place_of_notMem hk]
    exact List.getElem?_concat_length

/-- **Every other place is as it was.** -/
theorem getElem?_intern_of_ne {j : ℕ} (hj : j ≠ place keys k) :
    (intern keys k)[j]? = keys[j]? := by
  by_cases hk : k ∈ keys
  · rw [intern_of_mem hk]
  · rw [place_of_notMem hk] at hj
    rw [intern_of_notMem hk]
    rcases Nat.lt_or_gt_of_ne hj with hlt | hgt
    · exact List.getElem?_append_left hlt
    · rw [List.getElem?_eq_none (by simp; omega), List.getElem?_eq_none (by omega)]

theorem length_intern :
    (intern keys k).length = if k ∈ keys then keys.length else keys.length + 1 := by
  unfold intern
  split <;> simp

@[simp] theorem internAll_nil : internAll ([] : List κ) = [] := rfl

@[simp] theorem internAll_concat : internAll (ks ++ [k]) = intern (internAll ks) k := by
  simp [internAll]

/-- Exactly the keys asked for are held. -/
theorem mem_internAll : k ∈ internAll ks ↔ k ∈ ks := by
  induction ks using List.reverseRecOn with
  | nil => simp
  | append_singleton ks a ih => simp [ih]

theorem nodup_internAll : (internAll ks).Nodup := by
  induction ks using List.reverseRecOn with
  | nil => exact List.nodup_nil
  | append_singleton ks a ih =>
    rw [internAll_concat]
    exact nodup_intern ih

/-- No key has two places. -/
theorem eq_of_getElem?_internAll {i j : ℕ} (hi : (internAll ks)[i]? = some k)
    (hj : (internAll ks)[j]? = some k) : i = j :=
  (List.getElem?_inj (List.getElem?_eq_some_iff.mp hi).1 nodup_internAll).mp (hi.trans hj.symm)

/-- **As many places as distinct keys.** -/
theorem length_internAll : (internAll ks).length = ks.toFinset.card := by
  have hset : (internAll ks).toFinset = ks.toFinset := by
    ext k
    simp [mem_internAll]
  rw [← hset, List.toFinset_card_of_nodup nodup_internAll]

end Rushit
