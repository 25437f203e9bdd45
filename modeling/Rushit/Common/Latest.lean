import Mathlib.Algebra.BigOperators.Group.Finset.Basic
import Mathlib.Algebra.Order.BigOperators.Group.Finset
import Mathlib.Data.List.MinMax
import Mathlib.Logic.Function.Basic
import Mathlib.Tactic.Abel
/-!
# The latest value under each key

Entries carry a key, a time and a value. `latest` is the value of the
newest entry under a key, and `total` the sum of these over the keys
there are. Both are read off the entries whatever their order, as long
as no two entries of one key have the same time.

Where the entries are taken one after the other and each is newer than
those before it under its key (`Increasing`), `latest` is updated at one
key by each entry, and `total` by the difference.
-/

namespace Rushit

namespace Latest

variable {E K T M : Type*} {key : E → K} {time : E → T} {xs ys : List E} {e x : E}

/-! ## Entries in order -/

/-- No two entries of one key have the same time. -/
def Distinct (key : E → K) (time : E → T) (xs : List E) : Prop :=
  xs.Pairwise fun x y => key x = key y → time x ≠ time y

theorem Distinct.perm (h : Distinct key time xs) (hp : xs.Perm ys) : Distinct key time ys :=
  (hp.pairwise_iff fun hxy hkey htime => hxy hkey.symm htime.symm).mp h

/-- An entry is known by its key and its time. -/
theorem Distinct.eq_of_eq (h : Distinct key time xs) (hx : x ∈ xs) {y : E} (hy : y ∈ xs)
    (hkey : key x = key y) (htime : time x = time y) : x = y := by
  by_contra hne
  have hsymm : Std.Symm fun x y : E => key x = key y → time x ≠ time y :=
    ⟨fun a b hab hk ht => hab hk.symm ht.symm⟩
  exact List.Pairwise.forall h hx hy hne hkey htime

variable [LinearOrder T]

/-- Each entry is newer than the ones before it under its key. -/
def Increasing (key : E → K) (time : E → T) (xs : List E) : Prop :=
  xs.Pairwise fun x y => key x = key y → time x < time y

/-- The condition under which an entry may be added. -/
theorem Increasing.newest (h : Increasing key time (xs ++ e :: ys)) :
    ∀ x ∈ xs, key x = key e → time x < time e := by
  intro x hx
  exact (List.pairwise_append.mp h).2.2 x hx e (by simp)

/-- What a prefix has is in order too. -/
theorem Increasing.left (h : Increasing key time (xs ++ ys)) : Increasing key time xs :=
  (List.pairwise_append.mp h).1

/-- Entries that are in the order of time are in order. -/
theorem Distinct.increasing (h : Distinct key time xs)
    (htimes : xs.Pairwise fun x y => time x ≤ time y) : Increasing key time xs :=
  (htimes.and h).imp fun hxy hkey => lt_of_le_of_ne hxy.1 (hxy.2 hkey)

/-! ## The latest value -/

variable [DecidableEq K] [AddCommMonoid M]

section

variable (key : E → K) (time : E → T) (val : E → M)

/-- The value of the newest entry under `k`, or 0 where there is none. -/
def latest (xs : List E) (k : K) : M :=
  ((xs.filter fun x => key x = k).argmax time).elim 0 val

/-- The keys there are. -/
def keys (xs : List E) : Finset K := (xs.map key).toFinset

/-- The sum of the latest values. -/
def total (xs : List E) : M := ∑ k ∈ keys key xs, latest key time val xs k

end

variable {val : E → M} {k : K}

theorem mem_keys : k ∈ keys key xs ↔ ∃ x ∈ xs, key x = k := by simp [keys]

theorem keys_concat : keys key (xs ++ [e]) = insert (key e) (keys key xs) := by
  ext k
  simp only [Finset.mem_insert, mem_keys, List.mem_append, List.mem_singleton]
  constructor
  · rintro ⟨x, hx | rfl, rfl⟩
    · exact .inr ⟨x, hx, rfl⟩
    · exact .inl rfl
  · rintro (rfl | ⟨x, hx, rfl⟩)
    · exact ⟨e, .inr rfl, rfl⟩
    · exact ⟨x, .inl hx, rfl⟩

@[simp] theorem latest_nil : latest key time val [] k = 0 := rfl

@[simp] theorem total_nil : total key time val [] = 0 := rfl

/-- What has not been seen counts 0. -/
theorem latest_of_not_mem (h : k ∉ keys key xs) : latest key time val xs k = 0 := by
  have hnil : xs.filter (fun x => key x = k) = [] := by
    rw [List.filter_eq_nil_iff]
    intro x hx hk
    exact h (mem_keys.mpr ⟨x, hx, by simpa using hk⟩)
  rw [latest, hnil]
  rfl

/-- The latest value is that of an entry no other under the key is newer
than. -/
theorem latest_spec (time : E → T) (val : E → M) (h : k ∈ keys key xs) : ∃ x ∈ xs, key x = k ∧
    (∀ y ∈ xs, key y = k → time y ≤ time x) ∧ latest key time val xs k = val x := by
  obtain ⟨x₀, hx₀, hk₀⟩ := mem_keys.mp h
  cases hmax : (xs.filter fun x => key x = k).argmax time with
  | none =>
    rw [List.argmax_eq_none, List.filter_eq_nil_iff] at hmax
    exact absurd (by simpa using hk₀) (hmax x₀ hx₀)
  | some x =>
    have hx := List.mem_filter.mp (List.argmax_mem hmax)
    refine ⟨x, hx.1, by simpa using hx.2, fun y hy hk => ?_, by rw [latest, hmax]; rfl⟩
    exact List.le_of_mem_argmax (List.mem_filter.mpr ⟨hy, by simpa using hk⟩) hmax

/-- **One more entry**, newer than those under its key. -/
theorem latest_concat (val : E → M) (he : ∀ x ∈ xs, key x = key e → time x < time e) :
    latest key time val (xs ++ [e]) = Function.update (latest key time val xs) (key e) (val e) := by
  funext k
  by_cases hk : k = key e
  · subst hk
    rw [Function.update_self, latest, List.filter_append]
    have hf : [e].filter (fun x => key x = key e) = [e] := by simp
    rw [hf, List.argmax_concat]
    cases hmax : (xs.filter fun x => key x = key e).argmax time with
    | none => rfl
    | some c =>
      have hc := List.mem_filter.mp (List.argmax_mem hmax)
      have hlt : time c < time e := he c hc.1 (by simpa using hc.2)
      simp [hlt]
  · rw [Function.update_of_ne hk, latest, List.filter_append]
    have hf : [e].filter (fun x => key x = k) = [] := by simp [Ne.symm hk]
    rw [hf, List.append_nil]
    rfl

/-- **The running total**: the entry's value replaces the one it
supersedes. -/
theorem total_concat (val : E → M) (he : ∀ x ∈ xs, key x = key e → time x < time e) :
    total key time val (xs ++ [e]) + latest key time val xs (key e) =
      total key time val xs + val e := by
  -- the other keys keep their latest value
  have hrest : ∀ s : Finset K, key e ∉ s →
      ∑ k ∈ s, latest key time val (xs ++ [e]) k = ∑ k ∈ s, latest key time val xs k := by
    intro s hs
    refine Finset.sum_congr rfl fun k hk => ?_
    have hne : k ≠ key e := fun h => hs (by rw [← h]; exact hk)
    rw [latest_concat val he, Function.update_of_ne hne]
  have hself : latest key time val (xs ++ [e]) (key e) = val e := by
    rw [latest_concat val he, Function.update_self]
  unfold total
  rw [keys_concat]
  by_cases hmem : key e ∈ keys key xs
  · rw [Finset.insert_eq_of_mem hmem, ← Finset.add_sum_erase _ _ hmem, hself,
      hrest _ (Finset.notMem_erase _ _), ← Finset.add_sum_erase (keys key xs) _ hmem]
    abel
  · rw [Finset.sum_insert hmem, hself, hrest _ hmem, latest_of_not_mem hmem]
    abel

/-- **The order does not matter.** -/
theorem latest_perm (hdist : Distinct key time xs) (hperm : xs.Perm ys) :
    latest key time val xs = latest key time val ys := by
  funext k
  have hkeys : k ∈ keys key xs ↔ k ∈ keys key ys := by simp [mem_keys, hperm.mem_iff]
  by_cases hk : k ∈ keys key xs
  · obtain ⟨x, hx, hkx, hmaxx, hvx⟩ := latest_spec time val hk
    obtain ⟨y, hy, hky, hmaxy, hvy⟩ := latest_spec time val (hkeys.mp hk)
    have hy' : y ∈ xs := hperm.mem_iff.mpr hy
    -- each is the latest of its list, so they are of one time
    have htime : time x = time y :=
      le_antisymm (hmaxy x (hperm.mem_iff.mp hx) hkx) (hmaxx y hy' hky)
    rw [hvx, hvy, hdist.eq_of_eq hx hy' (hkx.trans hky.symm) htime]
  · rw [latest_of_not_mem hk, latest_of_not_mem (fun h => hk (hkeys.mpr h))]

theorem total_perm (hdist : Distinct key time xs) (hperm : xs.Perm ys) :
    total key time val xs = total key time val ys := by
  have hkeys : keys key xs = keys key ys := by
    ext k
    simp [mem_keys, hperm.mem_iff]
  rw [total, total, hkeys, latest_perm hdist hperm]

/-! ## Several lists -/

/-- Entries under other keys do not matter. -/
theorem latest_append_left (h : k ∉ keys key ys) :
    latest key time val (xs ++ ys) k = latest key time val xs k := by
  have hnil : ys.filter (fun y => key y = k) = [] := by
    rw [List.filter_eq_nil_iff]
    intro y hy hk
    exact h (mem_keys.mpr ⟨y, hy, by simpa using hk⟩)
  rw [latest, latest, List.filter_append, hnil, List.append_nil]

theorem latest_append_right (h : k ∉ keys key xs) :
    latest key time val (xs ++ ys) k = latest key time val ys k := by
  have hnil : xs.filter (fun x => key x = k) = [] := by
    rw [List.filter_eq_nil_iff]
    intro x hx hk
    exact h (mem_keys.mpr ⟨x, hx, by simpa using hk⟩)
  rw [latest, latest, List.filter_append, hnil, List.nil_append]

/-- Lists that share no key are summed up on their own. -/
theorem total_append (h : ∀ x ∈ xs, ∀ y ∈ ys, key x ≠ key y) :
    total key time val (xs ++ ys) = total key time val xs + total key time val ys := by
  have hdisj : Disjoint (keys key xs) (keys key ys) := by
    rw [Finset.disjoint_left]
    intro k hkx hky
    obtain ⟨x, hx, rfl⟩ := mem_keys.mp hkx
    obtain ⟨y, hy, heq⟩ := mem_keys.mp hky
    exact h x hx y hy heq.symm
  have hkeys : keys key (xs ++ ys) = keys key xs ∪ keys key ys := by
    ext k
    simp [keys]
  rw [total, hkeys, Finset.sum_union hdisj]
  refine congrArg₂ (· + ·) (Finset.sum_congr rfl fun k hk => ?_)
    (Finset.sum_congr rfl fun k hk => ?_)
  · exact latest_append_left (Finset.disjoint_left.mp hdisj hk)
  · exact latest_append_right (Finset.disjoint_right.mp hdisj hk)

/-- **The total of many lists** that share no key is the sum of their
totals. -/
theorem total_flatten {xss : List (List E)}
    (h : xss.Pairwise fun xs ys => ∀ x ∈ xs, ∀ y ∈ ys, key x ≠ key y) :
    total key time val xss.flatten = (xss.map (total key time val)).sum := by
  induction xss with
  | nil => rfl
  | cons xs xss ih =>
    obtain ⟨hhead, htail⟩ := List.pairwise_cons.mp h
    rw [List.flatten_cons, List.map_cons, List.sum_cons, ← ih htail]
    refine total_append fun x hx y hy => ?_
    obtain ⟨ys, hys, hy⟩ := List.mem_flatten.mp hy
    exact hhead ys hys x hx y hy

/-- **Keys may be renamed**, as long as they stay apart. -/
theorem total_rename {K' : Type*} [DecidableEq K'] {key' : E → K'} {φ : K → K'}
    (hφ : ∀ x ∈ xs, key' x = φ (key x)) (hinj : Set.InjOn φ (keys key xs)) :
    total key' time val xs = total key time val xs := by
  have hkeys : keys key' xs = (keys key xs).image φ := by
    ext k'
    simp only [mem_keys, Finset.mem_image]
    constructor
    · rintro ⟨x, hx, rfl⟩
      exact ⟨key x, ⟨x, hx, rfl⟩, (hφ x hx).symm⟩
    · rintro ⟨k, ⟨x, hx, rfl⟩, rfl⟩
      exact ⟨x, hx, hφ x hx⟩
  rw [total, hkeys, Finset.sum_image hinj]
  refine Finset.sum_congr rfl fun k hk => ?_
  -- the entries under the new name are those under the old one
  have hfilter : xs.filter (fun x => key' x = φ k) = xs.filter fun x => key x = k := by
    refine List.filter_congr fun x hx => ?_
    rw [hφ x hx, decide_eq_decide]
    exact ⟨fun heq => hinj (mem_keys.mpr ⟨x, hx, rfl⟩) hk heq, fun heq => by rw [heq]⟩
  rw [latest, latest, hfilter]

/-- **The total is bounded** by values that no latest value exceeds. -/
theorem total_le_sum_of_subset [PartialOrder M] [IsOrderedAddMonoid M] {S : Finset K} {b : K → M}
    (hsub : keys key xs ⊆ S) (hle : ∀ k ∈ keys key xs, latest key time val xs k ≤ b k)
    (hb : ∀ k ∈ S, 0 ≤ b k) : total key time val xs ≤ ∑ k ∈ S, b k :=
  (Finset.sum_le_sum hle).trans
    (Finset.sum_le_sum_of_subset_of_nonneg hsub fun k hk _ => hb k hk)

/-! ## Counters -/

/-- No latest value exceeds the total. -/
theorem latest_le_total {count : E → ℕ} (k : K) :
    latest key time count xs k ≤ total key time count xs := by
  by_cases hk : k ∈ keys key xs
  · exact Finset.single_le_sum (f := latest key time count xs) (fun _ _ => Nat.zero_le _) hk
  · rw [latest_of_not_mem hk]
    exact Nat.zero_le _

/-- **The total is bounded** by a list that has, for each key, a value
that is no less. -/
theorem total_le_sum {count : E → ℕ} {l : List (K × ℕ)}
    (h : ∀ k ∈ keys key xs, ∃ v, (k, v) ∈ l ∧ latest key time count xs k ≤ v) :
    total key time count xs ≤ (l.map Prod.snd).sum := by
  suffices hall : ∀ S : Finset K,
      (∀ k ∈ S, ∃ v, (k, v) ∈ l ∧ latest key time count xs k ≤ v) →
      ∑ k ∈ S, latest key time count xs k ≤ (l.map Prod.snd).sum from hall _ h
  clear h
  induction l with
  | nil =>
    intro S hS
    rw [Finset.sum_eq_zero]
    · exact Nat.zero_le _
    · intro k hk
      obtain ⟨v, hv, -⟩ := hS k hk
      cases hv
  | cons p l ih =>
    intro S hS
    rw [List.map_cons, List.sum_cons]
    by_cases hp : latest key time count xs p.1 ≤ p.2
    · -- `p` accounts for its own key
      have hrest := ih (S.erase p.1) fun k hk => by
        obtain ⟨hne, hk⟩ := Finset.mem_erase.mp hk
        obtain ⟨v, hv, hle⟩ := hS k hk
        rcases List.mem_cons.mp hv with rfl | hv
        · exact absurd rfl hne
        · exact ⟨v, hv, hle⟩
      by_cases hmem : p.1 ∈ S
      · rw [← Finset.add_sum_erase S _ hmem]
        omega
      · rw [Finset.erase_eq_of_notMem hmem] at hrest
        omega
    · -- `p` accounts for none
      have hrest := ih S fun k hk => by
        obtain ⟨v, hv, hle⟩ := hS k hk
        rcases List.mem_cons.mp hv with rfl | hv
        · exact absurd hle hp
        · exact ⟨v, hv, hle⟩
      omega

end Latest

end Rushit
