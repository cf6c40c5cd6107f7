import Mathlib

/-!
# Streams of messages

Messages `0, 1, 2, …` of given lengths, written one after the other into a stream. `placeOf len m` is
the place of message `m`, and `streamAt` reads the stream by place. A `window` of the stream is what
a FIFO channel holds between the place of its reader and the place of its writer.
-/

namespace Lib

variable {α : Type} (len : ℕ → ℕ)

/-- Where message `m` begins. -/
def placeOf (m : ℕ) : ℕ := ∑ k ∈ Finset.range m, len k

@[simp] theorem placeOf_zero : placeOf len 0 = 0 := rfl

theorem placeOf_succ (m : ℕ) : placeOf len (m + 1) = placeOf len m + len m := Finset.sum_range_succ _ _

theorem placeOf_mono {m n : ℕ} (h : m ≤ n) : placeOf len m ≤ placeOf len n :=
  Finset.sum_le_sum_of_subset (Finset.range_mono h)

/-- The message that holds place `p`. -/
def messageAt (p : ℕ) : ℕ := Nat.findGreatest (fun m => placeOf len m ≤ p) p

/-- Element `p` of the stream of the messages `content`. -/
def streamAt (content : ℕ → ℕ → α) (p : ℕ) : α :=
  content (messageAt len p) (p - placeOf len (messageAt len p))

/-- The stream from place `a` up to place `b`. -/
def window (content : ℕ → ℕ → α) (a b : ℕ) : List α :=
  (List.range' a (b - a)).map (streamAt len content)

variable {len}

/-- Messages that are not empty take at least a place each. -/
theorem le_placeOf (hpos : ∀ m, 0 < len m) (m : ℕ) : m ≤ placeOf len m := by
  induction m with
  | zero => exact Nat.zero_le _
  | succ m ih =>
    have hm := hpos m
    rw [placeOf_succ]
    omega

/-- A place inside a message belongs to it. -/
theorem messageAt_placeOf_add (hpos : ∀ m, 0 < len m) {m k : ℕ} (hk : k < len m) :
    messageAt len (placeOf len m + k) = m := by
  unfold messageAt
  have hle : m ≤ Nat.findGreatest (fun n => placeOf len n ≤ placeOf len m + k) (placeOf len m + k) :=
    Nat.le_findGreatest ((le_placeOf hpos m).trans (Nat.le_add_right _ _)) (Nat.le_add_right _ _)
  have hspec : placeOf len (Nat.findGreatest (fun n => placeOf len n ≤ placeOf len m + k)
      (placeOf len m + k)) ≤ placeOf len m + k :=
    Nat.findGreatest_spec (P := fun n => placeOf len n ≤ placeOf len m + k) (Nat.zero_le _)
      (by rw [placeOf_zero]; exact Nat.zero_le _)
  -- the next message begins behind the place
  rcases Nat.lt_or_ge m (Nat.findGreatest (fun n => placeOf len n ≤ placeOf len m + k)
      (placeOf len m + k)) with hlt | hge
  · have hnext := placeOf_mono len (Nat.succ_le_of_lt hlt)
    rw [Nat.succ_eq_add_one, placeOf_succ] at hnext
    omega
  · omega

theorem streamAt_placeOf_add (hpos : ∀ m, 0 < len m) (content : ℕ → ℕ → α) {m k : ℕ}
    (hk : k < len m) : streamAt len content (placeOf len m + k) = content m k := by
  unfold streamAt
  rw [messageAt_placeOf_add hpos hk, Nat.add_sub_cancel_left]

@[simp] theorem length_window (content : ℕ → ℕ → α) (a b : ℕ) :
    (window len content a b).length = b - a := by
  rw [window, List.length_map, List.length_range']

@[simp] theorem window_self (content : ℕ → ℕ → α) (a : ℕ) :
    window len content a a = [] := by
  rw [window, Nat.sub_self]
  rfl

/-- Two windows, one behind the other. -/
theorem window_append (content : ℕ → ℕ → α) {a mid b : ℕ} (h₁ : a ≤ mid) (h₂ : mid ≤ b) :
    window len content a mid ++ window len content mid b = window len content a b := by
  unfold window
  rw [← List.map_append]
  have hsplit : List.range' a (mid - a) ++ List.range' mid (b - mid)
      = List.range' a (b - a) := by
    rw [show b - a = (mid - a) + (b - mid) by omega, ← List.range'_append,
      Nat.one_mul, show a + (mid - a) = mid by omega]
  rw [hsplit]

/-- A window inside one message. -/
theorem window_message (hpos : ∀ m, 0 < len m) (content : ℕ → ℕ → α) {m off k : ℕ}
    (h : off + k ≤ len m) :
    window len content (placeOf len m + off) (placeOf len m + off + k)
      = (List.range k).map fun j => content m (off + j) := by
  unfold window
  rw [Nat.add_sub_cancel_left, List.range'_eq_map_range, List.map_map]
  apply List.map_congr_left
  intro j hj
  have hj := List.mem_range.mp hj
  show streamAt len content (placeOf len m + off + j) = _
  rw [Nat.add_assoc, streamAt_placeOf_add hpos _ (by omega)]

/-- What a reader takes from the front of a window. -/
theorem take_window (content : ℕ → ℕ → α) {a b k : ℕ} (h : a + k ≤ b) :
    (window len content a b).take k = window len content a (a + k) := by
  rw [← window_append content (Nat.le_add_right a k) h]
  have hlen : (window len content a (a + k)).length = k := by
    rw [length_window]
    omega
  exact List.take_left' hlen

/-- A window without its beginning. -/
theorem drop_window (content : ℕ → ℕ → α) {a b k : ℕ} (h : a + k ≤ b) :
    (window len content a b).drop k = window len content (a + k) b := by
  rw [← window_append content (Nat.le_add_right a k) h]
  have hlen : (window len content a (a + k)).length = k := by
    rw [length_window]
    omega
  exact List.drop_left' hlen

end Lib
