import AscendShmem.PullV2.FaithfulPlan

/-!
# The reduction of a tile

`ReduceAccumulatorTile` with `FindReadyContributor` and one task of
`ReduceTwoContributorTaskRange` (`inc_dc_pull_combine_v2_device_kernel.cpp`) as step relations:
between two steps of the kernel a READY flag may be set and another core may fail. A pass of a
scan may find the time over at any moment.
-/

namespace AscendShmem.PullV2

open Lib

/-! ## The sources seen -/

/-- `seen_low` and `seen_high` -/
structure SeenSources where
  low : UInt64
  high : UInt64

namespace SeenSources

/-- No source has been seen. -/
def none : SeenSources := ⟨0, 0⟩

/-- The bit of a source in its word. -/
def bit (source : UInt32) : UInt64 := 1 <<< (source &&& 63).toUInt64

/-- `SeenSource` -/
def seen (m : SeenSources) (source : UInt32) : Bool :=
  if source < 64 then m.low &&& bit source ≠ 0 else m.high &&& bit source ≠ 0

/-- `MarkSource` -/
def mark (m : SeenSources) (source : UInt32) : SeenSources :=
  if source < 64 then { m with low := m.low ||| bit source }
  else { m with high := m.high ||| bit source }

theorem toNat_bit (source : UInt32) : (bit source).toNat = 2 ^ (source.toNat % 64) := by
  have hmask : (source &&& 63).toNat = source.toNat % 64 := by
    rw [UInt32.toNat_and]
    exact Nat.and_two_pow_sub_one_eq_mod source.toNat 6
  have hlt : source.toNat % 64 < 64 := Nat.mod_lt _ (by norm_num)
  have hpow : 2 ^ (source.toNat % 64) < 2 ^ 64 := Nat.pow_lt_pow_right (by norm_num) hlt
  rw [bit, UInt64.toNat_shiftLeft, UInt32.toNat_toUInt64, hmask, Nat.mod_eq_of_lt hlt]
  show 1 <<< _ % 2 ^ 64 = _
  rw [Nat.one_shiftLeft, Nat.mod_eq_of_lt hpow]

/-- Testing the word tests the bit of the source. -/
theorem and_bit_ne_zero (word : UInt64) (source : UInt32) :
    word &&& bit source ≠ 0 ↔ word.toNat.testBit (source.toNat % 64) = true := by
  rw [ne_eq, ← UInt64.toNat_inj, UInt64.toNat_and, toNat_bit, Nat.and_two_pow]
  cases word.toNat.testBit (source.toNat % 64) with
  | false => simp
  | true => simp

/-- The word and the bit of a source below 128 belong to it alone. -/
theorem seen_mark {m : SeenSources} {s t : UInt32} (hs : s.toNat < 128) (ht : t.toNat < 128) :
    (m.mark s).seen t = true ↔ s = t ∨ m.seen t = true := by
  have hbit : ∀ word : UInt64, (word ||| bit s) &&& bit t ≠ 0 ↔
      s.toNat % 64 = t.toNat % 64 ∨ word &&& bit t ≠ 0 := by
    intro word
    rw [and_bit_ne_zero, and_bit_ne_zero, UInt64.toNat_or, toNat_bit, Nat.testBit_or,
      Nat.testBit_two_pow, Bool.or_eq_true, decide_eq_true_iff]
    exact or_comm
  have heq : s = t ↔ s.toNat = t.toNat := UInt32.toNat_inj.symm
  have hslow : s < 64 ↔ s.toNat < 64 := UInt32.lt_iff_toNat_lt
  have htlow : t < 64 ↔ t.toNat < 64 := UInt32.lt_iff_toNat_lt
  unfold mark seen
  by_cases hs64 : s < 64
  · have hslt := hslow.mp hs64
    rw [if_pos hs64]
    by_cases ht64 : t < 64
    · have htlt := htlow.mp ht64
      rw [if_pos ht64, if_pos ht64, decide_eq_true_iff, decide_eq_true_iff, hbit]
      apply or_congr _ Iff.rfl
      rw [heq]
      omega
    · have htle := mt htlow.mpr ht64
      rw [if_neg ht64, if_neg ht64]
      have hne : ¬ s = t := by
        rw [heq]
        omega
      exact (or_iff_right hne).symm
  · have hsle := mt hslow.mpr hs64
    rw [if_neg hs64]
    by_cases ht64 : t < 64
    · have htlt := htlow.mp ht64
      rw [if_pos ht64, if_pos ht64]
      have hne : ¬ s = t := by
        rw [heq]
        omega
      exact (or_iff_right hne).symm
    · have htle := mt htlow.mpr ht64
      rw [if_neg ht64, if_neg ht64, decide_eq_true_iff, decide_eq_true_iff, hbit]
      apply or_congr _ Iff.rfl
      rw [heq]
      omega

theorem seen_none (s : UInt32) : none.seen s = false := by
  unfold none seen
  split
  · simp
  · simp

end SeenSources

/-! ## The generic path -/

/-- One tile of one accumulator; `load` reads its elements from the row at an offset of a source's
partials. -/
structure TileTask (α : Type) where
  plan : CombinePullPlan
  accumulator : ℕ
  rowBytes : UInt64
  load : UInt32 → UInt64 → α
  zero : α
  add : α → α → α

/-- Where `ReduceAccumulatorTile` is: before a pass of `FindReadyContributor`, at an index of the
pass, behind the last contributor, or behind its return. -/
inductive TilePc
  | pass
  | scan (index : Option ℕ)
  | put
  | done (ok : Bool)
deriving DecidableEq

/-- The state of a tile on the generic path. -/
structure TileState (α : Type) where
  ready : UInt32 → Bool
  failed : Bool
  pc : TilePc
  seen : SeenSources
  processed : ℕ
  /-- the contributor that was pulled and is not added yet -/
  current : Option (ℕ × α)
  acc : α
  /-- the contributors in the order in which they were added -/
  added : List ℕ
  output : Option α

namespace TileTask

variable {α : Type} (T : TileTask α)

/-- The first pull of the accumulator's chain. -/
def head : Option ℕ := nextIn T.plan.accumulatorHeads T.accumulator

/-- How many contributors the accumulator has. -/
def expected : ℕ :=
  match T.plan.accumulatorContributorCounts[T.accumulator]? with
  | none => 0
  | some count => count.toNat

/-- The offset of a row in its slot, if it does not wrap. -/
def rowOffset (op : CombinePullOp) : Option UInt64 := checkedMulU64ByU32 T.rowBytes op.sourceRow

/-- The row of the result has an offset. -/
def resultFits : Bool :=
  match T.plan.accumulatorResultIndex[T.accumulator]? with
  | none => false
  | some index =>
    match T.plan.results[index.toNat]? with
    | none => false
    | some op => (checkedMulU64ByU32 T.rowBytes op.ownerRow).isSome

/-- The tile before its first pass. -/
def start (ready : UInt32 → Bool) : TileState α where
  ready := ready
  failed := false
  pc := if T.expected ≠ 0 then .pass else .put
  seen := SeenSources.none
  processed := 0
  current := none
  acc := T.zero
  added := []
  output := none

/-- `Add(acc, acc, contribution)` -/
def addCurrent (st : TileState α) : TileState α :=
  match st.current with
  | none => st
  | some (i, x) =>
    { st with acc := T.add st.acc x, added := st.added ++ [i], current := none }

/-- The contributor that was found is pulled while the one before it is added. -/
def take (st : TileState α) (i : ℕ) (op : CombinePullOp) : TileState α :=
  match T.rowOffset op with
  | none => { st with failed := true, pc := .done false }
  | some offset =>
    { T.addCurrent st with
      seen := st.seen.mark op.sourceRank
      processed := st.processed + 1
      current := some (i, T.load op.sourceRank offset)
      pc := if st.processed + 1 < T.expected then .pass else .put }

/-- No contributor was found. -/
def giveUp (st : TileState α) : TileState α :=
  { T.addCurrent st with failed := true, pc := .done false }

/-- The result is written if it fits. -/
def putResult (st : TileState α) : TileState α :=
  if T.resultFits then
    { T.addCurrent st with output := some (T.addCurrent st).acc, pc := .done true }
  else { T.addCurrent st with failed := true, pc := .done false }

/-- One step of a tile, or of the rest of the device. -/
inductive Step : TileState α → TileState α → Prop
  /-- the polling core of a source accepts its READY -/
  | arrive (st source) : Step st { st with ready := Function.update st.ready source true }
  /-- another core fails -/
  | fail (st) : Step st { st with failed := true }
  | pass {st} (h : st.pc = .pass) : Step st { st with pc := .scan T.head }
  /-- the spin cap is reached -/
  | expire {st} (h : st.pc = .pass) : Step st (T.giveUp st)
  | skip {st i op} (h : st.pc = .scan (some i)) (hop : T.plan.pulls[i]? = some op)
    (hskip : st.seen.seen op.sourceRank = true ∨ st.ready op.sourceRank = false) :
    Step st { st with pc := .scan (nextIn T.plan.pullNext i) }
  | take {st i op} (h : st.pc = .scan (some i)) (hop : T.plan.pulls[i]? = some op)
    (hunseen : st.seen.seen op.sourceRank = false) (hready : st.ready op.sourceRank = true) :
    Step st (T.take st i op)
  | again {st} (h : st.pc = .scan none) (hok : st.failed = false) : Step st { st with pc := .pass }
  | stop {st} (h : st.pc = .scan none) (hfailed : st.failed = true) : Step st (T.giveUp st)
  | put {st} (h : st.pc = .put) : Step st (T.putResult st)

/-- A run with the states from which it steps. -/
inductive Run : TileState α → List (TileState α) → TileState α → Prop
  | nil (st) : Run st [] st
  | cons {st st' st'' ts} (h : T.Step st st') (rest : Run st' ts st'') : Run st (st :: ts) st''

end TileTask

/-! ## The two-contributor path -/

/-- Where a tile of the two-contributor path is. -/
inductive PairPc
  | waitFirst
  | waitSecond
  | add
  | done (ok : Bool)
deriving DecidableEq

/-- The state of a tile on the two-contributor path. -/
structure PairState (α : Type) where
  ready : UInt32 → Bool
  failed : Bool
  pc : PairPc
  input0 : Option (ℕ × α)
  input1 : Option (ℕ × α)
  /-- the contributors in the order in which they were added -/
  added : List ℕ
  output : Option α

/-- The tile before it waits. -/
def PairState.start {α : Type} (ready : UInt32 → Bool) : PairState α where
  ready := ready
  failed := false
  pc := .waitFirst
  input0 := none
  input1 := none
  added := []
  output := none

namespace TileTask

variable {α : Type} (T : TileTask α)

/-- `Add(output, input0, input1)` and the PUT behind it. -/
def addPair (st : PairState α) (x y : ℕ × α) : PairState α :=
  if T.resultFits then
    { st with added := [x.1, y.1], output := some (T.add x.2 y.2), pc := .done true }
  else { st with added := [x.1, y.1], failed := true, pc := .done false }

/-- One step of such a tile. -/
inductive PairStep : PairState α → PairState α → Prop
  | arrive (st source) : PairStep st { st with ready := Function.update st.ready source true }
  | fail (st) : PairStep st { st with failed := true }
  /-- the status of the wave is bad, the spin cap is reached or an offset overflows -/
  | giveUp {st} (h : st.pc = .waitFirst ∨ st.pc = .waitSecond) :
    PairStep st { st with failed := true, pc := .done false }
  | first {st i op offset} (h : st.pc = .waitFirst) (hi : T.head = some i)
    (hop : T.plan.pulls[i]? = some op) (hready : st.ready op.sourceRank = true)
    (hoffset : T.rowOffset op = some offset) :
    PairStep st { st with input0 := some (i, T.load op.sourceRank offset), pc := .waitSecond }
  | second {st i j op offset} (h : st.pc = .waitSecond) (hi : T.head = some i)
    (hj : nextIn T.plan.pullNext i = some j) (hop : T.plan.pulls[j]? = some op)
    (hready : st.ready op.sourceRank = true) (hoffset : T.rowOffset op = some offset) :
    PairStep st { st with input1 := some (j, T.load op.sourceRank offset), pc := .add }
  | add {st x y} (h : st.pc = .add) (hx : st.input0 = some x) (hy : st.input1 = some y) :
    PairStep st (T.addPair st x y)

/-- Steps one after the other. -/
inductive PairRun : PairState α → PairState α → Prop
  | refl (st) : PairRun st st
  | tail {st st' st''} (run : PairRun st st') (h : T.PairStep st' st'') : PairRun st st''

end TileTask

end AscendShmem.PullV2
