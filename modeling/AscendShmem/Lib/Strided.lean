import AscendShmem.Lib.Exec

/-!
# Loops shared by strides

`forLoop` is the loop `for (; more; next) body` of a program, whose counter is a word of the
machine. Several workers share an index space when worker `b` takes the indices
`b, b + stride, b + 2 * stride, …`. Together they reach every index (`Strided.visits`), but each of
them comes to an end only if its counter reaches the bound before it wraps around for good:
`exists_ge_stride_iff` says when.
-/

namespace Lib

namespace Exec

variable {σ α : Type}

/-- `for (; more a; a = next a) body a`; the fuel bounds the tests of the condition. -/
def forLoop (more : α → Prop) [DecidablePred more] (next : α → α) (body : α → Exec σ Unit) :
    ℕ → α → Exec σ Unit
  | 0, _ => .error .outOfFuel
  | fuel + 1, a =>
    if more a then do
      body a
      forLoop more next body fuel (next a)
    else .ok ()

/-- The loop from `a` ends after `n` passes that all went through. -/
structure EndsAfter (more : α → Prop) (next : α → α) (body : α → Exec σ Unit) (a : α) (n : ℕ) :
    Prop where
  ends : ¬ more (next^[n] a)
  more : ∀ k < n, more (next^[k] a)
  body : ∀ k < n, body (next^[k] a) = .ok ()

variable {more : α → Prop} [DecidablePred more] {next : α → α} {body : α → Exec σ Unit}

/-- The loop succeeds exactly if it ends within the turns given. -/
theorem forLoop_eq_ok {fuel : ℕ} {a : α} :
    forLoop more next body fuel a = .ok () ↔ ∃ n < fuel, EndsAfter more next body a n := by
  induction fuel generalizing a with
  | zero =>
    constructor
    · intro h
      cases h
    · rintro ⟨n, hn, -⟩
      exact absurd hn (Nat.not_lt_zero n)
  | succ fuel ih =>
    unfold forLoop
    by_cases ha : more a
    · rw [if_pos ha, bind_eq_ok]
      constructor
      · rintro ⟨_, hbody, hrest⟩
        obtain ⟨n, hn, h⟩ := ih.mp hrest
        refine ⟨n + 1, Nat.succ_lt_succ hn, h.ends, ?_, ?_⟩
        · intro k hk
          cases k with
          | zero => exact ha
          | succ k => exact h.more k (by omega)
        · intro k hk
          cases k with
          | zero => exact hbody
          | succ k => exact h.body k (by omega)
      · rintro ⟨n, hn, h⟩
        cases n with
        | zero => exact absurd ha h.ends
        | succ n =>
          refine ⟨(), h.body 0 (Nat.succ_pos n), ih.mpr ⟨n, by omega, h.ends, ?_, ?_⟩⟩
          · intro k hk
            exact h.more (k + 1) (by omega)
          · intro k hk
            exact h.body (k + 1) (by omega)
    · rw [if_neg ha]
      refine ⟨fun _ => ⟨0, Nat.succ_pos fuel, ha, ?_, ?_⟩, fun _ => rfl⟩
      · intro k hk
        exact absurd hk (Nat.not_lt_zero k)
      · intro k hk
        exact absurd hk (Nat.not_lt_zero k)

omit [DecidablePred more] in
/-- A loop whose passes go through ends at the first index that is out of its bound. -/
theorem exists_endsAfter {a : α} (hbody : ∀ b, more b → body b = .ok ())
    (hend : ∃ n, ¬ more (next^[n] a)) : ∃ n, EndsAfter more next body a n := by
  classical
  have hfirst := Nat.find_spec hend
  have hbefore : ∀ k < Nat.find hend, more (next^[k] a) := fun k hk =>
    not_not.mp (Nat.find_min hend hk)
  exact ⟨Nat.find hend, hfirst, hbefore, fun k hk => hbody _ (hbefore k hk)⟩

end Exec

/-! ## Words -/

/-- Every step of `stride` modulo `m` reaches an index from `count` on, whichever worker it starts
from, exactly when the last multiple of the common divisor does. -/
theorem exists_ge_stride_iff {stride m count : ℕ} (hm : 0 < m) (hstride : 0 < stride) :
    (∀ b < stride, ∃ k, count ≤ (b + k * stride) % m) ↔ count + Nat.gcd stride m ≤ m := by
  have hdvd : Nat.gcd stride m ∣ m := Nat.gcd_dvd_right stride m
  have hpos : 0 < Nat.gcd stride m := Nat.gcd_pos_of_pos_left m hstride
  constructor
  · intro h
    obtain ⟨k, hk⟩ := h 0 hstride
    rw [Nat.zero_add] at hk
    -- worker 0 only sees multiples of the common divisor
    have hmult : Nat.gcd stride m ∣ k * stride % m :=
      (Nat.dvd_mod_iff hdvd).mpr ((Nat.gcd_dvd_left stride m).mul_left k)
    have hlt : k * stride % m < m := Nat.mod_lt _ hm
    obtain ⟨q, hq⟩ := hmult
    obtain ⟨r, hr⟩ := hdvd
    rw [hq] at hk hlt
    have hqr : q + 1 ≤ r := by
      have : Nat.gcd stride m * q < Nat.gcd stride m * r := by omega
      exact Nat.lt_of_mul_lt_mul_left this
    have hle := Nat.mul_le_mul_left (Nat.gcd stride m) hqr
    rw [Nat.mul_add, Nat.mul_one] at hle
    omega
  · intro h b _
    rcases Nat.lt_or_ge (Nat.gcd stride m) m with hlt | hge
    · obtain ⟨j, -, hj⟩ := Nat.exists_mul_mod_eq_gcd hlt
      obtain ⟨r, hr⟩ := id hdvd
      -- as many steps as bring worker `b` to its residue behind the last multiple
      have hsteps : ∃ c, b + Nat.gcd stride m * c
          = (m - Nat.gcd stride m + b % Nat.gcd stride m) + m * (b / Nat.gcd stride m) := by
        have hsplit := Nat.div_add_mod b (Nat.gcd stride m)
        obtain ⟨s, rfl⟩ : ∃ s, r = s + 1 := by
          refine ⟨r - 1, ?_⟩
          have hne : r ≠ 0 := by
            rintro rfl
            omega
          omega
        have hlast : m - Nat.gcd stride m = Nat.gcd stride m * s := by
          rw [Nat.mul_succ] at hr
          omega
        refine ⟨s + s * (b / Nat.gcd stride m), ?_⟩
        rw [hlast]
        calc b + Nat.gcd stride m * (s + s * (b / Nat.gcd stride m))
            = Nat.gcd stride m * (b / Nat.gcd stride m) + b % Nat.gcd stride m
              + Nat.gcd stride m * (s + s * (b / Nat.gcd stride m)) := by rw [hsplit]
          _ = Nat.gcd stride m * s + b % Nat.gcd stride m
              + Nat.gcd stride m * (s + 1) * (b / Nat.gcd stride m) := by ring
          _ = Nat.gcd stride m * s + b % Nat.gcd stride m + m * (b / Nat.gcd stride m) := by
            rw [← hr]
      obtain ⟨c, hc⟩ := hsteps
      refine ⟨j * c, ?_⟩
      have hmod : (b + j * c * stride) % m = m - Nat.gcd stride m + b % Nat.gcd stride m := by
        have hsame : j * c * stride % m = Nat.gcd stride m * c % m := by
          rw [show j * c * stride = stride * j * c by ring, Nat.mul_mod, hj, Nat.mul_mod_mod]
        rw [Nat.add_mod, hsame, ← Nat.add_mod, hc, Nat.add_mul_mod_self_left]
        have hres := Nat.mod_lt b hpos
        exact Nat.mod_eq_of_lt (by omega)
      rw [hmod]
      omega
    · exact ⟨0, by omega⟩

/-- A loop over words: the counter starts at some number, steps by `stride` modulo `m` and stops
at the bound `count`. -/
structure Strided {α : Type} (value : α → ℕ) (more : α → Prop) (next : α → α)
    (stride m count : ℕ) : Prop where
  stride_pos : 0 < stride
  stride_lt : stride < m
  count_le : count ≤ m
  more_iff : ∀ a, more a ↔ value a < count
  next_eq : ∀ a, value (next a) = (value a + stride) % m

namespace Strided

open Exec

variable {σ α : Type} {value : α → ℕ} {more : α → Prop} {next : α → α} {stride m count : ℕ}

/-- After `k` turns the variable is `k` strides on, modulo its width. -/
theorem iterate_eq (h : Strided value more next stride m count) {a : α} (ha : value a < m)
    (k : ℕ) : value (next^[k] a) = (value a + k * stride) % m := by
  induction k with
  | zero => rw [Nat.zero_mul, Nat.add_zero, Nat.mod_eq_of_lt ha, Function.iterate_zero_apply]
  | succ k ih =>
    rw [Function.iterate_succ_apply', h.next_eq, ih, Nat.mod_add_mod, Nat.succ_mul, Nat.add_assoc]

variable {body : α → Exec σ Unit}

/-- Before a loop can end it has passed all indices of its worker below the bound. -/
theorem visits (h : Strided value more next stride m count) {start : ℕ → α}
    (hstart : ∀ b < stride, value (start b) = b)
    (hends : ∀ b < stride, ∃ n, EndsAfter more next body (start b) n) {i : ℕ} (hi : i < count) :
    ∃ a, value a = i ∧ body a = .ok () := by
  have hb : i % stride < stride := Nat.mod_lt i h.stride_pos
  obtain ⟨n, hn⟩ := hends (i % stride) hb
  have hvalue : ∀ k ≤ i / stride, value (next^[k] (start (i % stride))) = i % stride + k * stride := by
    intro k hk
    have hstep := Nat.mul_le_mul_right stride hk
    have hdiv := Nat.mod_add_div' i stride
    have hlt := h.count_le
    have hstride := h.stride_lt
    rw [h.iterate_eq (by rw [hstart _ hb]; omega), hstart _ hb, Nat.mod_eq_of_lt (by omega)]
  have hle : i / stride < n := by
    by_contra hge
    apply hn.ends
    have hstep := Nat.mul_le_mul_right stride (Nat.le_of_not_lt hge)
    have hdiv := Nat.mod_add_div' i stride
    rw [h.more_iff, hvalue n (Nat.le_of_not_lt hge)]
    omega
  refine ⟨next^[i / stride] (start (i % stride)), ?_, hn.body _ hle⟩
  rw [hvalue _ (le_refl _), Nat.mod_add_div']

/-- If no pass fails, all workers come to an end exactly when the bound leaves room for the last
step before the wrap. -/
theorem ends_iff (h : Strided value more next stride m count) {start : ℕ → α}
    (hstart : ∀ b < stride, value (start b) = b)
    (hbody : ∀ a, value a < count → body a = .ok ()) :
    (∀ b < stride, ∃ n, EndsAfter more next body (start b) n) ↔
      count + Nat.gcd stride m ≤ m := by
  have hm : 0 < m := by
    have hpos := h.stride_pos
    have hlt := h.stride_lt
    omega
  have hout : ∀ b < stride, ∀ n,
      ¬ more (next^[n] (start b)) ↔ count ≤ (b + n * stride) % m := by
    intro b hb n
    have hlt := h.stride_lt
    rw [h.more_iff, h.iterate_eq (by rw [hstart b hb]; omega), hstart b hb, Nat.not_lt]
  rw [← exists_ge_stride_iff hm h.stride_pos]
  refine forall_congr' fun b => forall_congr' fun hb => ?_
  constructor
  · rintro ⟨n, hn⟩
    exact ⟨n, (hout b hb n).mp hn.ends⟩
  · rintro ⟨n, hn⟩
    exact exists_endsAfter (fun a ha => hbody a ((h.more_iff a).mp ha)) ⟨n, (hout b hb n).mpr hn⟩

end Strided

end Lib
