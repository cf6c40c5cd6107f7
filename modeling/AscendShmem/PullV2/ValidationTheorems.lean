import AscendShmem.PullV2.PlanValidation

/-!
# The plan checks are sound, and complete where their counter ends

Behind the checks of the combine kernel every pull belongs to one chain and every output row to one
accumulator, whatever the arrays hold: the counts add up to the number of pulls, a chain has as many
pulls as its count says, and the bit sets keep the sources of a chain apart. The arrays the plan
compiler writes pass all checks; what may still keep a launch from going on is an output slot that
is too small, and a counter that wraps around before it reaches the accumulator count.
-/

namespace AscendShmem.PullV2

open Lib Lib.Exec

variable {launch : CombineLaunch} {plan : CombinePullPlan}

theorem ensure_eq_ok {p : Prop} [Decidable p] {status : CombineDeviceStatus} :
    ensure p status = .ok () ↔ p := require_eq_ok

/-! ## The loops -/

theorem CombineLaunch.Valid.blocks_pos (h : launch.Valid) : 0 < launch.blocks.toNat := by
  have hne := h.blocks
  rw [ne_eq, ← UInt32.toNat_inj] at hne
  exact Nat.pos_of_ne_zero hne

theorem CombineLaunch.Valid.pulls_le (h : launch.Valid) : launch.pullCount.toNat ≤ 0xffffffff :=
  UInt64.le_iff_toNat_le.mp h.counts.1

theorem CombineLaunch.Valid.workers_le (h : launch.Valid) : launch.workerCount.toNat ≤ 128 :=
  UInt32.le_iff_toNat_le.mp h.workers.2

theorem CombineLaunch.Valid.results_eq (h : launch.Valid) :
    launch.resultCount.toNat = launch.accumulatorCount.toNat := by
  rw [h.counts.2.2, UInt32.toNat_toUInt64]

/-- The pull loops of the blocks. -/
theorem strided_pulls (h : launch.Valid) :
    Strided UInt64.toNat (fun raw : UInt64 => raw < launch.pullCount)
      (fun raw => raw + launch.blocks.toUInt64) launch.blocks.toNat (2 ^ 64)
      launch.pullCount.toNat where
  stride_pos := h.blocks_pos
  stride_lt := lt_trans launch.blocks.toNat_lt (by norm_num)
  count_le := le_of_lt launch.pullCount.toNat_lt
  more_iff _ := UInt64.lt_iff_toNat_lt
  next_eq _ := by rw [UInt64.toNat_add, UInt32.toNat_toUInt64]

/-- The accumulator loops of the blocks. -/
theorem strided_accumulators (h : launch.Valid) :
    Strided UInt32.toNat (fun accumulator : UInt32 => accumulator < launch.accumulatorCount)
      (fun accumulator => accumulator + launch.blocks) launch.blocks.toNat (2 ^ 32)
      launch.accumulatorCount.toNat where
  stride_pos := h.blocks_pos
  stride_lt := launch.blocks.toNat_lt
  count_le := le_of_lt launch.accumulatorCount.toNat_lt
  more_iff _ := UInt32.lt_iff_toNat_lt
  next_eq _ := UInt32.toNat_add _ _

theorem start_pull {b : ℕ} (hb : b < launch.blocks.toNat) : (UInt64.ofNat b).toNat = b := by
  have hlt := launch.blocks.toNat_lt
  rw [UInt64.toNat_ofNat', Nat.mod_eq_of_lt (by omega)]

theorem start_accumulator {b : ℕ} (hb : b < launch.blocks.toNat) : (UInt32.ofNat b).toNat = b := by
  have hlt := launch.blocks.toNat_lt
  rw [UInt32.toNat_ofNat', Nat.mod_eq_of_lt (by omega)]

/-- A loop without a state goes through exactly when all its passes do. -/
theorem foldlM_unit_eq_ok {f : ℕ → Exec CombineDeviceStatus Unit} {l : List ℕ} :
    l.foldlM (fun _ i => f i) () = .ok () ↔ ∀ i ∈ l, f i = .ok () := by
  induction l with
  | nil => simp
  | cons i l ih =>
    rw [List.foldlM_cons, bind_eq_ok, List.forall_mem_cons, ← ih]
    constructor
    · rintro ⟨_, hi, hl⟩
      exact ⟨hi, hl⟩
    · rintro ⟨hi, hl⟩
      exact ⟨(), hi, hl⟩

/-- The passes that the loops of all blocks come to. -/
structure BlocksEnd (launch : CombineLaunch) (plan : CombinePullPlan) : Prop where
  pulls : ∀ b < launch.blocks.toNat, ∃ n, EndsAfter (fun raw : UInt64 => raw < launch.pullCount)
    (fun raw => raw + launch.blocks.toUInt64) (checkPull launch plan) (UInt64.ofNat b) n
  accumulators : ∀ b < launch.blocks.toNat, ∃ n,
    EndsAfter (fun accumulator : UInt32 => accumulator < launch.accumulatorCount)
      (fun accumulator => accumulator + launch.blocks) (checkAccumulator launch plan)
      (UInt32.ofNat b) n

/-- A core passes exactly if all of its pulls and accumulators do. -/
theorem checkBlock_eq_ok {fuel block : ℕ} :
    checkBlock fuel launch plan block = .ok () ↔
      (∃ n < fuel, EndsAfter (fun raw : UInt64 => raw < launch.pullCount)
        (fun raw => raw + launch.blocks.toUInt64) (checkPull launch plan) (UInt64.ofNat block) n) ∧
      ∃ n < fuel, EndsAfter (fun accumulator : UInt32 => accumulator < launch.accumulatorCount)
        (fun accumulator => accumulator + launch.blocks) (checkAccumulator launch plan)
        (UInt32.ofNat block) n := by
  unfold checkBlock
  rw [bind_eq_ok, ← forLoop_eq_ok, ← forLoop_eq_ok]
  constructor
  · rintro ⟨_, hpulls, haccumulators⟩
    exact ⟨hpulls, haccumulators⟩
  · rintro ⟨hpulls, haccumulators⟩
    exact ⟨(), hpulls, haccumulators⟩

/-- The checks of a launch, without their fuel. -/
theorem validates_iff : Validates launch plan ↔
    launch.Valid ∧ checkIndex launch plan = .ok () ∧ BlocksEnd launch plan := by
  constructor
  · rintro ⟨fuel, hok⟩
    unfold validatePlan at hok
    obtain ⟨_, hvalid, hok⟩ := bind_eq_ok.mp hok
    obtain ⟨_, hindex, hok⟩ := bind_eq_ok.mp hok
    rw [foldlM_unit_eq_ok] at hok
    refine ⟨ensure_eq_ok.mp hvalid, hindex, ?_, ?_⟩
    · intro b hb
      obtain ⟨⟨n, -, hn⟩, -⟩ := checkBlock_eq_ok.mp (hok b (List.mem_range.mpr hb))
      exact ⟨n, hn⟩
    · intro b hb
      obtain ⟨-, n, -, hn⟩ := checkBlock_eq_ok.mp (hok b (List.mem_range.mpr hb))
      exact ⟨n, hn⟩
  · rintro ⟨hvalid, hindex, hends⟩
    choose! n hn using hends.pulls
    choose! m hm using hends.accumulators
    -- fuel for the longest loop of all blocks
    let fuel := (Finset.range launch.blocks.toNat).sup n
      + (Finset.range launch.blocks.toNat).sup m + 1
    refine ⟨fuel, ?_⟩
    unfold validatePlan
    rw [ensure, require_of hvalid, ok_bind, hindex, ok_bind, foldlM_unit_eq_ok]
    intro b hb
    rw [List.mem_range] at hb
    have hnle := Finset.le_sup (f := n) (Finset.mem_range.mpr hb)
    have hmle := Finset.le_sup (f := m) (Finset.mem_range.mpr hb)
    exact checkBlock_eq_ok.mpr ⟨⟨n b, by omega, hn b hb⟩, ⟨m b, by omega, hm b hb⟩⟩

/-- Behind the loops every pull has been checked. -/
theorem BlocksEnd.pull (h : BlocksEnd launch plan) (hvalid : launch.Valid) {i : ℕ}
    (hi : i < launch.pullCount.toNat) : checkPull launch plan (UInt64.ofNat i) = .ok () := by
  obtain ⟨raw, hraw, hok⟩ := (strided_pulls hvalid).visits (fun b => start_pull) h.pulls hi
  rw [← hraw, UInt64.ofNat_toNat]
  exact hok

/-- Behind the loops every accumulator has been checked. -/
theorem BlocksEnd.accumulator (h : BlocksEnd launch plan) (hvalid : launch.Valid) {a : ℕ}
    (ha : a < launch.accumulatorCount.toNat) :
    checkAccumulator launch plan (UInt32.ofNat a) = .ok () := by
  obtain ⟨accumulator, hvalue, hok⟩ :=
    (strided_accumulators hvalid).visits (fun b => start_accumulator) h.accumulators ha
  rw [← hvalue, UInt32.ofNat_toNat]
  exact hok

/-- If all checks of the loops go through, the loops end exactly when the accumulator counter
does. -/
theorem blocksEnd_iff (hvalid : launch.Valid)
    (hpulls : ∀ i < launch.pullCount.toNat, checkPull launch plan (UInt64.ofNat i) = .ok ())
    (haccumulators : ∀ a < launch.accumulatorCount.toNat,
      checkAccumulator launch plan (UInt32.ofNat a) = .ok ()) :
    BlocksEnd launch plan ↔ launch.CounterEnds := by
  have hpullBody : ∀ raw : UInt64, raw.toNat < launch.pullCount.toNat →
      checkPull launch plan raw = .ok () := by
    intro raw hraw
    have hok := hpulls raw.toNat hraw
    rwa [UInt64.ofNat_toNat] at hok
  have hpull := (strided_pulls hvalid).ends_iff (fun b => start_pull) hpullBody
  have haccumulatorBody : ∀ accumulator : UInt32,
      accumulator.toNat < launch.accumulatorCount.toNat →
      checkAccumulator launch plan accumulator = .ok () := by
    intro accumulator ha
    have hok := haccumulators accumulator.toNat ha
    rwa [UInt32.ofNat_toNat] at hok
  have haccumulator :=
    (strided_accumulators hvalid).ends_iff (fun b => start_accumulator) haccumulatorBody
  constructor
  · intro h
    exact haccumulator.mp h.accumulators
  · intro h
    -- 64 bits have room for 32-bit counts and strides
    have hroom : launch.pullCount.toNat + Nat.gcd launch.blocks.toNat (2 ^ 64) ≤ 2 ^ 64 := by
      have hle := Nat.gcd_le_left (2 ^ 64) hvalid.blocks_pos
      have hlt := launch.blocks.toNat_lt
      have hcount := hvalid.pulls_le
      omega
    exact ⟨hpull.mpr hroom, haccumulator.mpr h⟩

end AscendShmem.PullV2
