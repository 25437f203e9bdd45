import Rushit.Control.Model
import Mathlib.Data.List.Basic
/-!
# The secret and the network

The network delivers what a peer sends in pieces of its choosing, and
`ctrl_accept` reads once. The buffer is zeroed before and the length of
the read is not looked at, so a first piece without the terminating zero
matches as well as one with it, and a piece that is shorter does not
match, whatever follows it. `authenticates_iff` says when that makes a
difference.
-/

namespace Rushit

namespace Control

variable {bytes : Message} {reads : List Message}

/-- What the first `read` returns, of the pieces in which a stream
arrives: nothing where the peer sends nothing and is done. -/
def firstRead (reads : List Message) : Message := reads.headD []

/-- The secret without its terminating zero. -/
def secretText : Message := controlPortSecret.dropLast

theorem firstRead_prefix (reads : List Message) : firstRead reads <+: reads.flatten := by
  cases reads with
  | nil => exact List.nil_prefix
  | cons r rs => exact List.prefix_append r rs.flatten

/-- Only the last byte of the secret is zero. -/
theorem drop_eq_zeros : ∀ n < secretSize,
    controlPortSecret.drop n = List.replicate (secretSize - n) 0 → n = secretText.length := by
  decide

/-- **What matches**: the secret, whatever follows it, and the secret
without its zero. -/
theorem matchesSecret_iff :
    matchesSecret bytes = true ↔ bytes = secretText ∨ controlPortSecret <+: bytes := by
  have hlen : controlPortSecret.length = secretSize := rfl
  rw [matchesSecret, beq_iff_eq]
  rcases Nat.lt_or_ge bytes.length secretSize with hlt | hge
  · have hzeros : (bytes ++ List.replicate (bufSize - bytes.length) 0).take secretSize =
        bytes ++ List.replicate (secretSize - bytes.length) 0 := by
      have hmin : secretSize - bytes.length ≤ bufSize - bytes.length :=
        Nat.sub_le_sub_right (by decide) _
      rw [List.take_append, List.take_of_length_le (by omega), List.take_replicate,
        Nat.min_eq_left hmin]
    have hnot : ¬ controlPortSecret <+: bytes := fun hp => by
      have := hp.length_le
      omega
    rw [hzeros, or_iff_left hnot]
    constructor
    · intro heq
      have hdrop : controlPortSecret.drop bytes.length =
          List.replicate (secretSize - bytes.length) 0 := by
        rw [← heq, List.drop_left]
      have htake : controlPortSecret.take bytes.length = bytes := by
        rw [← heq, List.take_left]
      rw [← htake, drop_eq_zeros _ hlt hdrop]
      rfl
    · rintro rfl
      decide
  · have htake : (bytes ++ List.replicate (bufSize - bytes.length) 0).take secretSize =
        bytes.take secretSize := List.take_append_of_le_length hge
    rw [htake, ← hlen]
    constructor
    · intro heq
      exact .inr (heq ▸ List.take_prefix _ _)
    · rintro (rfl | hp)
      · exact absurd hge (by decide)
      · exact (List.prefix_iff_eq_take.mp hp).symm

theorem controlPortSecret_eq : controlPortSecret = secretText ++ [0] := rfl

/-- A stream that begins with the text begins with the secret where a
zero follows. -/
theorem secret_prefix_iff {stream : Message} (h : secretText <+: stream) :
    controlPortSecret <+: stream ↔ stream[secretText.length]? = some 0 := by
  obtain ⟨rest, rfl⟩ := h
  rw [controlPortSecret_eq, List.prefix_append_right_inj,
    List.getElem?_append_right (Nat.le_refl _), Nat.sub_self]
  cases rest with
  | nil => simp
  | cons r rest => simp [eq_comm]

/-- **When the decision is that of the stream.** However the network cuts
a stream into `reads`, `ctrl_accept` authenticates it just if it begins
with the secret, but for a first read of the secret without its zero,
where no zero follows, and a first read that ends before the text of the
secret does. -/
theorem authenticates_iff (reads : List Message) :
    (matchesSecret (firstRead reads) = true ↔ controlPortSecret <+: reads.flatten) ↔
      (firstRead reads = secretText → reads.flatten[secretText.length]? = some 0) ∧
      ((firstRead reads).length < secretText.length →
        ¬ controlPortSecret <+: reads.flatten) := by
  have hfirst := firstRead_prefix reads
  have hsize : controlPortSecret.length = secretText.length + 1 := rfl
  rw [matchesSecret_iff]
  rcases Nat.lt_trichotomy (firstRead reads).length secretText.length with hlt | heq | hgt
  · -- too short to match
    have htext : firstRead reads ≠ secretText := fun h => by rw [h] at hlt; omega
    have hnot : ¬ controlPortSecret <+: firstRead reads := fun hp => by
      have := hp.length_le
      omega
    simp [htext, hnot, hlt]
  · have hnot : ¬ controlPortSecret <+: firstRead reads := fun hp => by
      have := hp.length_le
      omega
    by_cases htext : firstRead reads = secretText
    · have hiff := secret_prefix_iff (htext ▸ hfirst)
      simp [htext, hiff]
    · have hno : ¬ controlPortSecret <+: reads.flatten := fun hp => by
        have hpre : firstRead reads <+: controlPortSecret :=
          List.prefix_of_prefix_length_le hfirst hp (by omega)
        rw [List.prefix_iff_eq_take.mp hpre, heq] at htext
        exact htext rfl
      simp [htext, hnot, hno]
  · have htext : firstRead reads ≠ secretText := fun h => by rw [h] at hgt; omega
    have hiff : controlPortSecret <+: firstRead reads ↔ controlPortSecret <+: reads.flatten :=
      ⟨fun hp => hp.trans hfirst, fun hp => List.prefix_of_prefix_length_le hp hfirst (by omega)⟩
    simp [htext, hiff, Nat.not_lt.mpr (Nat.le_of_lt hgt)]

/-- A stream that is one zero short of the secret, and the secret in two
pieces. -/
theorem short_read_decides :
    ¬ (matchesSecret (firstRead [secretText]) = true ↔
      controlPortSecret <+: [secretText].flatten) ∧
    ¬ (matchesSecret (firstRead [[110], controlPortSecret.tail]) = true ↔
      controlPortSecret <+: [[110], controlPortSecret.tail].flatten) := by
  decide

end Control

end Rushit
