import Mathlib

/-!
# Free-running ring indices

The producer and the consumer of a ring count in machine words and never reset their counts: an
index is a number below the word size `M`, its slot is the remainder by a depth that divides `M`.
`ahead M head tail` is how far the producer is in front of the consumer.
-/

namespace Lib

/-- The steps from `tail` up to `head`. -/
def ahead (M head tail : ℕ) : ℕ := (head + (M - tail)) % M

namespace RingIndex

variable {M depth head tail n k : ℕ}

/-! ## Distances -/

theorem add_ahead (ht : tail < M) (hh : head < M) : (tail + ahead M head tail) % M = head := by
  rw [ahead, Nat.add_mod_mod, show tail + (head + (M - tail)) = head + M by omega,
    Nat.add_mod_right, Nat.mod_eq_of_lt hh]

theorem ahead_lt (ht : tail < M) : ahead M head tail < M := Nat.mod_lt _ (by omega)

theorem ahead_add (ht : tail < M) (hn : n < M) : ahead M ((tail + n) % M) tail = n := by
  rw [ahead, Nat.mod_add_mod, show tail + n + (M - tail) = n + M by omega, Nat.add_mod_right,
    Nat.mod_eq_of_lt hn]

theorem ahead_self (ht : tail < M) : ahead M tail tail = 0 := by
  rw [ahead, show tail + (M - tail) = M by omega, Nat.mod_self]

/-- The producer goes on. -/
theorem ahead_push (ht : tail < M) (hh : head < M) (hn : ahead M head tail + n < M) :
    ahead M ((head + n) % M) tail = ahead M head tail + n := by
  have hhead := add_ahead ht hh
  have hsplit : (head + n) % M = (tail + (ahead M head tail + n)) % M := by
    rw [← Nat.add_assoc, ← Nat.mod_add_mod (tail + ahead M head tail), hhead]
  rw [hsplit, ahead_add ht hn]

/-- The consumer goes on. -/
theorem ahead_pop (ht : tail < M) (hh : head < M) (hk : k ≤ ahead M head tail) :
    ahead M head ((tail + k) % M) = ahead M head tail - k := by
  have hpos : 0 < M := by omega
  have hlt := @ahead_lt M head tail ht
  have hhead := add_ahead ht hh
  have hsplit : head = ((tail + k) % M + (ahead M head tail - k)) % M := by
    rw [Nat.mod_add_mod, Nat.add_assoc, show k + (ahead M head tail - k) = ahead M head tail by omega,
      hhead]
  conv_lhs => rw [hsplit]
  exact ahead_add (Nat.mod_lt _ hpos) (by omega)

/-! ## Slots -/

/-- The slot of an index that is counted from `tail`. -/
theorem slot_add (hd : depth ∣ M) (ht : tail < M) (hh : head < M) (n : ℕ) :
    (head + n) % M % depth = (tail + (ahead M head tail + n)) % depth := by
  have hhead : head % depth = (tail + ahead M head tail) % depth := by
    rw [← Nat.mod_mod_of_dvd (tail + _) hd, add_ahead ht hh]
  rw [Nat.mod_mod_of_dvd _ hd, ← Nat.add_assoc, ← Nat.mod_add_mod head, hhead, Nat.mod_add_mod]

/-- An index meets the slot of `tail` when its distance is a multiple of the depth. -/
theorem slot_eq_tail_iff (hd : depth ∣ M) (ht : tail < M) (hh : head < M) :
    (head + n) % M % depth = tail % depth ↔ depth ∣ ahead M head tail + n := by
  rw [slot_add hd ht hh]
  constructor
  · intro h
    have hmod : tail + (ahead M head tail + n) ≡ tail + 0 [MOD depth] := h
    exact Nat.modEq_zero_iff_dvd.mp (Nat.ModEq.add_left_cancel' tail hmod)
  · intro h
    exact (Nat.ModEq.refl tail).add (Nat.modEq_zero_iff_dvd.mpr h)

/-- While less than a ring is ahead, a new index has a slot of its own. -/
theorem slot_free (hd : depth ∣ M) (ht : tail < M) (hh : head < M)
    (hn : ahead M head tail + n < depth) (hk : k < ahead M head tail) :
    (tail + k) % M % depth ≠ (head + n) % M % depth := by
  rw [slot_add hd ht hh, Nat.mod_mod_of_dvd _ hd]
  intro h
  have hmod : k ≡ ahead M head tail + n [MOD depth] := Nat.ModEq.add_left_cancel' tail h
  have heq := hmod.eq_of_lt_of_lt (by omega) hn
  omega

/-! ## Ranges -/

/-- Two ranges within one ring's length do not meet when each is laid out in one piece from its
slot on. -/
theorem ranges_apart {s t a b : ℕ} (hst : s + a ≤ t) (hring : t + b ≤ s + depth) :
    s % depth + a ≤ t % depth ∨ t % depth + b ≤ s % depth := by
  have hs' := Nat.div_add_mod s depth
  have ht' := Nat.div_add_mod t depth
  rcases Nat.lt_trichotomy (t / depth) (s / depth + 1) with hlt | heq | hgt
  · have hle : depth * (t / depth) ≤ depth * (s / depth) := Nat.mul_le_mul_left _ (by omega)
    left
    omega
  · rw [heq, Nat.mul_add, Nat.mul_one] at ht'
    right
    omega
  · have hle : depth * (s / depth + 2) ≤ depth * (t / depth) := Nat.mul_le_mul_left _ hgt
    rw [Nat.mul_add] at hle
    have hpos : s % depth < depth ∨ depth = 0 := by
      rcases Nat.eq_zero_or_pos depth with h | h
      · exact Or.inr h
      · exact Or.inl (Nat.mod_lt _ h)
    omega

end RingIndex

end Lib
