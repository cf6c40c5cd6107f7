import AscendShmem.PullV2.PlannedWave

/-!
# The PUTs of a dispatch wave

What the relay and the metadata publication of the dispatch kernel write into the destination
arrays of the workers. A launch writes one ring slot of each array, `[s * stride, (s + 1) * stride)`.
The launch is checked against the bytes of the capacities; the PUTs are rounded up to cache lines,
except those of the uniform relay, whose rows are whole lines.

A wave whose phases stop before the end makes some of the PUTs listed here.
-/

namespace AscendShmem.PullV2

open Lib Lib.Exec

/-! ## PUTs -/

/-- The arrays of a destination region. -/
inductive DestinationArray where
  | hidden
  | rows
  | assignments
  | expertCounts
deriving DecidableEq, Repr

/-- The stride of an array's slots. -/
def DispatchLaunch.slotStride (launch : DispatchLaunch) : DestinationArray → UInt64
  | .hidden => launch.destinationHiddenSlotStride
  | .rows => launch.destinationRowsSlotStride
  | .assignments => launch.destinationAssignmentsSlotStride
  | .expertCounts => launch.destinationExpertCountsSlotStride

/-- A remote PUT: the array, the worker, the first byte behind the base of the ring slot, and the
length. -/
structure RemotePut where
  array : DestinationArray
  destination : ℕ
  offset : ℕ
  bytes : ℕ
deriving DecidableEq, Repr

/-- Every byte of the PUT lies in the ring slot of the launch. -/
def RemotePut.InSlot (launch : DispatchLaunch) (put : RemotePut) : Prop :=
  ∀ o ∈ Set.Ico put.offset (put.offset + put.bytes),
    strideByte (launch.slotStride put.array) launch.ringSlot o
      ∈ strideSlice (launch.slotStride put.array) launch.ringSlot

/-- `(bytes + kPullDispatchAlignment - 1u) & ~(kPullDispatchAlignment - 1u)` -/
def roundLine (bytes : UInt64) : UInt64 := (bytes + 64 - 1) &&& ~~~(64 - 1)

/-- `kMaxChunk` -/
def kMaxChunk : ℕ := 0x7fffffc0

/-- `PutGmRange` -/
def putGmRange (array : DestinationArray) (destination offset bytes : ℕ) : List RemotePut :=
  if bytes = 0 then []
  else
    ⟨array, destination, offset, min bytes kMaxChunk⟩ ::
      putGmRange array destination (offset + min bytes kMaxChunk) (bytes - min bytes kMaxChunk)
termination_by bytes
decreasing_by
  have hchunk : 0 < kMaxChunk := by decide
  omega

/-- `PutGmRangeAligned` -/
def putGmRangeAligned (array : DestinationArray) (destination : ℕ) (bytes : UInt64) :
    List RemotePut :=
  let full := bytes &&& ~~~(64 - 1)
  (if full ≠ 0 then putGmRange array destination 0 full.toNat else []) ++
    if bytes - full ≠ 0 then putGmRange array destination full.toNat 64 else []

/-! ## Relay -/

/-- `kUbSlotBytes` -/
def kUbSlotBytes : UInt32 := 12 * 1024
/-- `kMaxHiddenTileBytes` -/
def kMaxHiddenTileBytes : UInt32 := 8 * 1024

/-- `RelayTileBytes` -/
def relayTileBytes (contributors channelsPerSource : UInt32) : UInt32 :=
  if contributors = 0 then kMaxHiddenTileBytes
  else if channelsPerSource ≤ 3 ∧ contributors = 2 then 6 * 1024
  else
    let inFlightBudget := if channelsPerSource ≤ 4 then 16 * 1024 else kUbSlotBytes
    let bytes := (inFlightBudget / contributors) &&& ~~~(kPullDispatchAlignment - 1)
    let bytes := if bytes > kMaxHiddenTileBytes then kMaxHiddenTileBytes else bytes
    if bytes < kPullDispatchAlignment then kPullDispatchAlignment else bytes

/-- `uniform_producers_per_source` -/
def DispatchLaunch.uniformProducersPerSource (launch : DispatchLaunch) : UInt32 :=
  let sidebandBegin := launch.activeParserBlocks - launch.workerCount
  let producerBegin := launch.requiredChannels.toUInt32
  let available := if producerBegin ≤ sidebandBegin then sidebandBegin - producerBegin else 0
  let perSource := if launch.workerCount = 0 then 0 else available / launch.workerCount
  if perSource > 2 then 2 else perSource

/-- Not `uniform_fast`, or rows that are no whole lines: block zero relays packed rows. -/
def DispatchLaunch.PackedRelay (launch : DispatchLaunch) (uniformHints : Bool) : Prop :=
  ¬ (uniformHints = true ∧ launch.uniformProducersPerSource ≠ 0) ∨ launch.rowBytes % 64 ≠ 0

instance (launch : DispatchLaunch) (uniformHints : Bool) :
    Decidable (launch.PackedRelay uniformHints) := inferInstanceAs (Decidable (_ ∨ _))

/-- `RelayDestinationPackedSafe` for one destination. -/
def relayDestinationPackedSafe (launch : DispatchLaunch) (plan : WavePlan) (d : ℕ) :
    List RemotePut :=
  let logicalBytes := mulU64ByU32 launch.rowBytes (UInt32.ofNat (plan.destinationRowCounts d))
  putGmRange .hidden d 0 (roundLine logicalBytes).toNat

/-- The first row a destination has from source `s`. -/
def WavePlan.firstRow (plan : WavePlan) (s d : ℕ) : ℕ :=
  plan.destinationPrefix[s]?.elim 0 fun rows => rows d

/-- `destination_byte_base` -/
def relayBase (launch : DispatchLaunch) (plan : WavePlan) (s : ℕ) (assignment : AssignmentRecord) :
    ℕ :=
  (mulU64ByU32 launch.rowBytes
    (UInt32.ofNat (plan.firstRow s assignment.destinationRank.toNat))).toNat

/-- One tile of a source to one destination. -/
def relayTile (launch : DispatchLaunch) (plan : WavePlan) (s : ℕ) (sourceBytes tileBytes : UInt64)
    (tile : ℕ) (assignment : AssignmentRecord) : RemotePut :=
  ⟨.hidden, assignment.destinationRank.toNat,
    relayBase launch plan s assignment + tile * tileBytes.toNat,
    min tileBytes.toNat (sourceBytes.toNat - tile * tileBytes.toNat)⟩

/-- The tiles of a channel: from `channel` on, `channels_per_source` apart. -/
def channelTiles (channel channels tiles : ℕ) : List ℕ :=
  (List.range tiles).filter fun tile => tile % channels = channel

/-- `RelayUniformDestinations` for source `s` on one channel. The bodies for one, two and four
destinations and the generic one make the same transfers. -/
def relayUniformDestinations (launch : DispatchLaunch) (plan : WavePlan) (source : ParsedSource)
    (s channel : ℕ) : List RemotePut :=
  match source.tokens[0]? with
  | none => []
  | some first =>
    let assignments := source.assignmentsOf first
    let sourceBytes := mulU64ByU32 launch.rowBytes source.header.tokenCount
    if first.assignmentCount = 0 then []
    else if sourceBytes < 64 then
      if channel = 0 then
        assignments.flatMap fun assignment =>
          putGmRange .hidden assignment.destinationRank.toNat
            (relayBase launch plan s assignment) sourceBytes.toNat
      else []
    else
      let tileBytes := (relayTileBytes first.assignmentCount launch.channelsPerSource).toUInt64
      let tiles := (sourceBytes + tileBytes - 1) / tileBytes
      (channelTiles channel launch.channelsPerSource.toNat tiles.toNat).flatMap fun tile =>
        assignments.map (relayTile launch plan s sourceBytes tileBytes tile)

/-- The PUTs of hidden rows. -/
def hiddenPuts (launch : DispatchLaunch) (srcs : List ParsedSource) (plan : WavePlan) :
    List RemotePut :=
  if launch.PackedRelay plan.totals.uniformHints then
    (List.range launch.workerCount.toNat).flatMap (relayDestinationPackedSafe launch plan)
  else
    (List.range launch.requiredChannels.toNat).flatMap fun block =>
      srcs[block % launch.workerCount.toNat]?.elim [] fun source =>
        relayUniformDestinations launch plan source (block % launch.workerCount.toNat)
          (block / launch.workerCount.toNat)

/-! ## Metadata -/

/-- The metadata of one destination: the sideband of a uniform wave and the last publication of any
other send it in the same way. -/
def metadataPuts (launch : DispatchLaunch) (plan : WavePlan) (d : ℕ) : List RemotePut :=
  let rows := UInt64.ofNat (plan.destinationRowCounts d)
  let assignments := UInt64.ofNat (plan.destinationAssignmentCounts d)
  (if rows ≠ 0 then putGmRange .rows d 0 (roundLine (rows * destinationRowBytes)).toNat else []) ++
    (if assignments ≠ 0 then
      putGmRange .assignments d 0 (roundLine (assignments * expertAssignmentBytes)).toNat
    else []) ++
    putGmRangeAligned .expertCounts d (launch.expertCount.toUInt64 * 4)

/-- The PUTs of a wave into the destination arrays. -/
def wavePuts (launch : DispatchLaunch) (srcs : List ParsedSource) (plan : WavePlan) :
    List RemotePut :=
  hiddenPuts launch srcs plan ++
    (List.range launch.workerCount.toNat).flatMap (metadataPuts launch plan)

/-! ## Ranges in the slot -/

section Ranges

variable {launch : DispatchLaunch} {array : DestinationArray} {d offset bytes : ℕ}

/-- Rounding up to a line, if it does not wrap. -/
theorem roundLine_toNat {x : UInt64} (h : x.toNat + 64 ≤ 2 ^ 64) :
    (roundLine x).toNat = alignUp x.toNat := by
  have hsum : (x + 64 - 1).toNat = x.toNat + 63 := by
    rw [UInt64.toNat_sub, UInt64.toNat_add]
    show (2 ^ 64 - 1 + (x.toNat + 64) % 2 ^ 64) % 2 ^ 64 = _
    omega
  unfold roundLine alignUp
  rw [and_not_63_toNat, hsum]

/-- A PUT inside the words of the address space stays in the slot when it ends below the stride. -/
theorem RemotePut.inSlot_iff {put : RemotePut} (h : put.offset + put.bytes ≤ 2 ^ 64) :
    put.InSlot launch ↔
      put.bytes = 0 ∨ put.offset + put.bytes ≤ (launch.slotStride put.array).toNat := by
  unfold RemotePut.InSlot
  constructor
  · intro hall
    rcases Nat.eq_zero_or_pos put.bytes with hzero | hpos
    · exact Or.inl hzero
    · have hlast := hall (put.offset + put.bytes - 1) ⟨by omega, by omega⟩
      rw [strideByte_mem_slice (by omega)] at hlast
      exact Or.inr (by omega)
  · intro hends o ho
    obtain ⟨hlo, hhi⟩ := ho
    rw [strideByte_mem_slice (by omega)]
    omega

/-- The chunks of a range stay in the slot when the range does. -/
theorem putGmRange_inSlot (h : offset + bytes ≤ 2 ^ 64) :
    (∀ put ∈ putGmRange array d offset bytes, put.InSlot launch) ↔
      bytes = 0 ∨ offset + bytes ≤ (launch.slotStride array).toNat := by
  have hpos : 0 < kMaxChunk := by decide
  -- one chunk at a time
  induction bytes using Nat.strong_induction_on generalizing offset with
  | _ bytes ih =>
    rw [putGmRange]
    by_cases hzero : bytes = 0
    · rw [if_pos hzero]
      constructor
      · exact fun _ => Or.inl hzero
      · intro _ put hput
        cases hput
    · have hchunk : 0 < min bytes kMaxChunk := by omega
      have hsum : offset + min bytes kMaxChunk + (bytes - min bytes kMaxChunk) ≤ 2 ^ 64 := by
        omega
      have hrest : (∀ put ∈ putGmRange array d (offset + min bytes kMaxChunk)
            (bytes - min bytes kMaxChunk), put.InSlot launch) ↔
          bytes - min bytes kMaxChunk = 0 ∨ offset + min bytes kMaxChunk
            + (bytes - min bytes kMaxChunk) ≤ (launch.slotStride array).toNat :=
        ih (bytes - min bytes kMaxChunk) (by omega) hsum
      have hfirst : (RemotePut.mk array d offset (min bytes kMaxChunk)).InSlot launch ↔
          min bytes kMaxChunk = 0 ∨
            offset + min bytes kMaxChunk ≤ (launch.slotStride array).toNat :=
        RemotePut.inSlot_iff (show offset + min bytes kMaxChunk ≤ 2 ^ 64 by omega)
      rw [if_neg hzero, List.forall_mem_cons, hrest, hfirst]
      omega

theorem putGmRange_inSlot_base {x : UInt64} :
    (∀ put ∈ putGmRange array d 0 x.toNat, put.InSlot launch) ↔ x ≤ launch.slotStride array := by
  have hx := x.toNat_lt
  rw [putGmRange_inSlot (by omega), UInt64.le_iff_toNat_le]
  omega

/-- The tail of an aligned range is a whole line. -/
theorem putGmRangeAligned_inSlot {x : UInt64} (h : x.toNat + 64 ≤ 2 ^ 64) :
    (∀ put ∈ putGmRangeAligned array d x, put.InSlot launch) ↔
      roundLine x ≤ launch.slotStride array := by
  have hfull := and_not_63_toNat x
  have hround := roundLine_toNat h
  unfold putGmRangeAligned
  simp only []
  generalize x &&& ~~~(64 - 1) = full at hfull ⊢
  have hle : full ≤ x := UInt64.le_iff_toNat_le.mpr (by omega)
  have hzero : full ≠ 0 ↔ full.toNat ≠ 0 := by
    rw [Ne, ← UInt64.toNat_inj]
    rfl
  have hrest : x - full ≠ 0 ↔ x.toNat % 64 ≠ 0 := by
    rw [Ne, ← UInt64.toNat_inj, UInt64.toNat_sub_of_le _ _ hle, hfull]
    show ¬ x.toNat - x.toNat / 64 * 64 = 0 ↔ _
    omega
  have hfront : (∀ put ∈ (if full ≠ 0 then putGmRange array d 0 full.toNat else []),
      put.InSlot launch) ↔ full ≤ launch.slotStride array := by
    by_cases hne : full ≠ 0
    · rw [if_pos hne, putGmRange_inSlot_base]
    · have heq : full.toNat = 0 := not_not.mp (hzero.not.mp hne)
      rw [if_neg hne, UInt64.le_iff_toNat_le, heq]
      exact ⟨fun _ => Nat.zero_le _, fun _ put hput => by cases hput⟩
  have htail : (∀ put ∈ (if x - full ≠ 0 then putGmRange array d full.toNat 64 else []),
      put.InSlot launch) ↔
      (x.toNat % 64 ≠ 0 → full.toNat + 64 ≤ (launch.slotStride array).toNat) := by
    by_cases hne : x - full ≠ 0
    · have hmod := hrest.mp hne
      rw [if_pos hne, putGmRange_inSlot (by omega)]
      constructor
      · intro h _
        omega
      · intro h
        exact Or.inr (h hmod)
    · have hmod := hrest.not.mp hne
      rw [if_neg hne]
      exact ⟨fun _ h => absurd h hmod, fun _ put hput => by cases hput⟩
  rw [List.forall_mem_append, hfront, htail, UInt64.le_iff_toNat_le, UInt64.le_iff_toNat_le,
    hround]
  unfold alignUp
  omega

end Ranges

/-! ## Rows below the capacity -/

/-- The tokens of the wave that go to worker `d`. -/
def waveRows (srcs : List ParsedSource) (d : ℕ) : ℕ := (taken d (ownerOrder srcs)).1

/-- The assignments of the wave at worker `d`. -/
def waveAssignments (srcs : List ParsedSource) (d : ℕ) : ℕ := (taken d (ownerOrder srcs)).2

section Rows

variable {launch : DispatchLaunch} {srcs : List ParsedSource} {source : ParsedSource} {s d : ℕ}

/-- The checked product is the product of the numbers. -/
theorem productFits_iff {value bound : UInt64} {factor : UInt32} :
    productFits value factor bound ↔ value.toNat * factor.toNat ≤ bound.toNat := by
  unfold productFits
  rw [Option.any_eq_true]
  constructor
  · intro h
    obtain ⟨product, hproduct, hle⟩ := h
    rw [checkedMulU64ByU32_eq_some.mp hproduct]
    exact UInt64.le_iff_toNat_le.mp (of_decide_eq_true hle)
  · intro h
    have hbound := bound.toNat_lt
    have hword : (UInt64.ofNat (value.toNat * factor.toNat)).toNat = value.toNat * factor.toNat := by
      rw [UInt64.toNat_ofNat', Nat.mod_eq_of_lt (by omega)]
    refine ⟨UInt64.ofNat (value.toNat * factor.toNat), checkedMulU64ByU32_eq_some.mpr hword.symm, ?_⟩
    apply decide_eq_true
    rw [UInt64.le_iff_toNat_le, hword]
    exact h

/-- A word of at most 32 bits keeps its value in 32 bits. -/
theorem toUInt32_toNat_of_le {x : UInt64} (h : x ≤ 0xffffffff) : x.toUInt32.toNat = x.toNat := by
  have h : x.toNat ≤ 0xffffffff := UInt64.le_iff_toNat_le.mp h
  rw [UInt64.toNat_toUInt32, Nat.mod_eq_of_lt (by omega)]

theorem rowCapacity_lt (hvalid : launch.Valid) : launch.destinationRowCapacity.toNat < 2 ^ 32 := by
  have h : launch.destinationRowCapacity.toNat ≤ 0xffffffff :=
    UInt64.le_iff_toNat_le.mp hvalid.destinationRows.2
  omega

theorem assignmentCapacity_lt (hvalid : launch.Valid) :
    launch.destinationAssignmentCapacity.toNat < 2 ^ 32 := by
  have h : launch.destinationAssignmentCapacity.toNat ≤ 0xffffffff :=
    UInt64.le_iff_toNat_le.mp hvalid.destinationAssignments.2
  omega

/-- The rows of the capacity fit into the slot. -/
theorem hiddenSlot_le (hvalid : launch.Valid) :
    launch.rowBytes.toNat * launch.destinationRowCapacity.toNat
      ≤ launch.destinationHiddenSlotStride.toNat := by
  have h := productFits_iff.mp hvalid.hiddenSlot
  rwa [toUInt32_toNat_of_le hvalid.destinationRows.2] at h

theorem waveRows_le (hplanned : Planned launch srcs) (hd : d < launch.workerCount.toNat) :
    waveRows srcs d ≤ launch.destinationRowCapacity.toNat := by
  have h := hplanned.room.rows d hd
  unfold DispatchLaunch.cells at h
  rwa [cellsOf_rows] at h

theorem waveAssignments_le (hplanned : Planned launch srcs) (hd : d < launch.workerCount.toNat) :
    waveAssignments srcs d ≤ launch.destinationAssignmentCapacity.toNat := by
  have h := hplanned.room.assignments d hd
  unfold DispatchLaunch.cells at h
  rwa [cellsOf_assignments] at h

theorem destinationRowCounts_eq : (wavePlanOf launch srcs).destinationRowCounts d = waveRows srcs d :=
  cellsOf_rows _ _ _ _

theorem destinationAssignmentCounts_eq :
    (wavePlanOf launch srcs).destinationAssignmentCounts d = waveAssignments srcs d :=
  cellsOf_assignments _ _ _ _

theorem firstRow_eq (hs : s ≤ srcs.length) :
    (wavePlanOf launch srcs).firstRow s d = waveRows (srcs.take s) d := by
  unfold WavePlan.firstRow wavePlanOf
  rw [getElem?_tableOf (by omega)]
  exact cellsOf_rows _ _ _ _

/-- A token takes no more than all tokens. -/
theorem need_le_taken {vs : List RoutedToken} {v : RoutedToken} (hv : v ∈ vs) :
    (need d v).1 ≤ (taken d vs).1 := by
  obtain ⟨pre, post, hsplit⟩ := List.append_of_mem hv
  rw [hsplit, taken_append]
  show _ ≤ (taken d pre).1 + (total (need d) (v :: post)).1
  rw [total_cons, Prod.fst_add]
  omega

/-- A destination of the first token of a uniform source has all of its tokens. -/
theorem Uniform.taken_eq {workers : ℕ} (h : source.Uniform workers) {first : TokenRecord}
    (hfirst : source.tokens[0]? = some first) {a : AssignmentRecord}
    (ha : a ∈ source.assignmentsOf first) (hd : a.destinationRank.toNat < workers) :
    (taken a.destinationRank.toNat source.routed).1 = source.header.tokenCount.toNat := by
  rcases h _ hd with hzero | hall
  · -- the first token has a row there
    have hmem : source.routedToken first ∈ source.routed :=
      List.mem_map_of_mem (List.mem_of_getElem? hfirst)
    have hle := need_le_taken (d := a.destinationRank.toNat) hmem
    have hgroup : (source.routedToken first).group a.destinationRank.toNat ≠ [] := by
      apply List.ne_nil_of_mem
      exact List.mem_filter.mpr ⟨ha, decide_eq_true rfl⟩
    rw [hzero] at hle
    unfold need at hle
    rw [if_neg hgroup] at hle
    exact absurd hle (Nat.not_succ_le_zero 0)
  · exact congrArg Prod.fst hall

/-- The rows a uniform source has at a destination of its first token end below the capacity. -/
theorem uniform_rows_le (hplanned : Planned launch srcs) (hs : srcs[s]? = some source)
    (hhint : source.header.uniformHint = true) {first : TokenRecord}
    (hfirst : source.tokens[0]? = some first) {a : AssignmentRecord}
    (ha : a ∈ source.assignmentsOf first) :
    waveRows (srcs.take s) a.destinationRank.toNat + source.header.tokenCount.toNat
      ≤ launch.destinationRowCapacity.toNat := by
  have hmem := List.mem_of_getElem? hs
  have hd : a.destinationRank.toNat < launch.workerCount.toNat :=
    (hplanned.scanned source hmem).destination_lt
      (List.mem_map_of_mem (List.mem_of_getElem? hfirst)) ha
  have hall := Uniform.taken_eq (hplanned.hints source hmem hhint) hfirst ha hd
  have hrows := waveRows_le hplanned hd
  have hsplit : ownerOrder srcs
      = ownerOrder (srcs.take s) ++ (source.routed ++ ownerOrder (srcs.drop (s + 1))) := by
    unfold ownerOrder
    rw [← List.flatMap_cons, ← List.flatMap_append, ← (take_succ_of_getElem? hs).2]
  unfold waveRows at hrows ⊢
  rw [hsplit, taken_append, taken_append, Prod.fst_add, Prod.fst_add, hall] at hrows
  omega

end Rows

/-! ## The slots of a wave -/

section Wave

variable {launch : DispatchLaunch} {srcs : List ParsedSource} {source : ParsedSource} {s d : ℕ}

/-- A product of a row size and a number of rows below the capacity does not wrap. -/
theorem rowBytes_mul (hvalid : launch.Valid) {n : ℕ}
    (hn : n ≤ launch.destinationRowCapacity.toNat) :
    (mulU64ByU32 launch.rowBytes (UInt32.ofNat n)).toNat = launch.rowBytes.toNat * n := by
  have hslot := hiddenSlot_le hvalid
  have hcapacity := rowCapacity_lt hvalid
  have hstride := launch.destinationHiddenSlotStride.toNat_lt
  have hle : launch.rowBytes.toNat * n
      ≤ launch.rowBytes.toNat * launch.destinationRowCapacity.toNat := Nat.mul_le_mul_left _ hn
  rw [mulU64ByU32_toNat, UInt32.toNat_ofNat', Nat.mod_eq_of_lt (a := n) (by omega),
    Nat.mod_eq_of_lt (by omega)]

/-- A tile begins inside the bytes of its source. -/
theorem tile_lt {sourceBytes tileBytes : UInt64} {tile : ℕ}
    (h : tile < ((sourceBytes + tileBytes - 1) / tileBytes).toNat) :
    tile * tileBytes.toNat < sourceBytes.toNat := by
  have hs := sourceBytes.toNat_lt
  have ht := tileBytes.toNat_lt
  rw [UInt64.toNat_div, UInt64.toNat_sub, UInt64.toNat_add] at h
  have hnum : (2 ^ 64 - 1 + (sourceBytes.toNat + tileBytes.toNat) % 2 ^ 64) % 2 ^ 64
      ≤ sourceBytes.toNat + tileBytes.toNat - 1 ∨ sourceBytes.toNat + tileBytes.toNat = 0 := by
    omega
  have hpos : tileBytes.toNat ≠ 0 := by
    intro hzero
    rw [hzero, Nat.div_zero] at h
    omega
  have hle : (tile + 1) * tileBytes.toNat
      ≤ (2 ^ 64 - 1 + (sourceBytes.toNat + tileBytes.toNat) % 2 ^ 64) % 2 ^ 64 :=
    (Nat.mul_le_mul_right _ h).trans (Nat.div_mul_le_self _ _)
  rw [Nat.add_mul, Nat.one_mul] at hle
  omega

/-- The uniform relay writes whole rows below the capacity. -/
theorem relayUniform_inSlot (hvalid : launch.Valid) (hplanned : Planned launch srcs)
    (hs : srcs[s]? = some source) (hhint : source.header.uniformHint = true) (channel : ℕ) :
    ∀ put ∈ relayUniformDestinations launch (wavePlanOf launch srcs) source s channel,
      put.InSlot launch := by
  have hslot := hiddenSlot_le hvalid
  have hstride := launch.destinationHiddenSlotStride.toNat_lt
  have hslt := (List.getElem?_eq_some_iff.mp hs).1
  unfold relayUniformDestinations
  match hfirst : source.tokens[0]? with
  | none =>
    intro put hput
    cases hput
  | some first =>
    -- where the rows of the source begin and end at each destination of its first token
    have hrows : ∀ a ∈ source.assignmentsOf first,
        relayBase launch (wavePlanOf launch srcs) s a
            + (mulU64ByU32 launch.rowBytes source.header.tokenCount).toNat
          ≤ launch.destinationHiddenSlotStride.toNat := by
      intro a ha
      have hle := uniform_rows_le hplanned hs hhint hfirst ha
      have htokens := rowBytes_mul hvalid (n := source.header.tokenCount.toNat) (by omega)
      rw [UInt32.ofNat_toNat] at htokens
      unfold relayBase
      rw [firstRow_eq (by omega), rowBytes_mul hvalid (by omega), htokens, ← Nat.mul_add]
      exact (Nat.mul_le_mul_left _ hle).trans hslot
    simp only []
    split
    · intro put hput
      cases hput
    split
    · split
      · intro put hput
        obtain ⟨a, ha, hput⟩ := List.mem_flatMap.mp hput
        have hle := hrows a ha
        exact (putGmRange_inSlot (by omega)).mpr (Or.inr hle) put hput
      · intro put hput
        cases hput
    · intro put hput
      obtain ⟨tile, htile, hput⟩ := List.mem_flatMap.mp hput
      obtain ⟨a, ha, rfl⟩ := List.mem_map.mp hput
      have hle := hrows a ha
      have hlt := tile_lt (List.mem_range.mp (List.mem_filter.mp htile).1)
      have hend : (relayTile launch (wavePlanOf launch srcs) s
          (mulU64ByU32 launch.rowBytes source.header.tokenCount)
          (relayTileBytes first.assignmentCount launch.channelsPerSource).toUInt64 tile a).offset
          + (relayTile launch (wavePlanOf launch srcs) s
          (mulU64ByU32 launch.rowBytes source.header.tokenCount)
          (relayTileBytes first.assignmentCount launch.channelsPerSource).toUInt64 tile a).bytes
          ≤ launch.destinationHiddenSlotStride.toNat := by
        unfold relayTile
        simp only []
        omega
      apply (RemotePut.inSlot_iff (by omega)).mpr
      exact Or.inr hend

/-- The rounded transfers of a wave fit into the strides of the ring slots. -/
structure RoundedFits (launch : DispatchLaunch) (srcs : List ParsedSource) : Prop where
  /-- only where block zero relays packed rows -/
  hidden : launch.PackedRelay (srcs.all fun source => source.header.uniformHint) →
    ∀ d < launch.workerCount.toNat,
      roundLine (mulU64ByU32 launch.rowBytes (UInt32.ofNat (waveRows srcs d)))
        ≤ launch.destinationHiddenSlotStride
  rows : ∀ d < launch.workerCount.toNat,
    alignUp (40 * waveRows srcs d) ≤ launch.destinationRowsSlotStride.toNat
  assignments : ∀ d < launch.workerCount.toNat,
    alignUp (32 * waveAssignments srcs d) ≤ launch.destinationAssignmentsSlotStride.toNat
  experts : alignUp (4 * launch.expertCount.toNat)
    ≤ launch.destinationExpertCountsSlotStride.toNat

/-- The hidden rows of a wave. -/
theorem hiddenPuts_inSlot (hvalid : launch.Valid) (hplanned : Planned launch srcs) :
    (∀ put ∈ hiddenPuts launch srcs (wavePlanOf launch srcs), put.InSlot launch) ↔
      (launch.PackedRelay (srcs.all fun source => source.header.uniformHint) →
        ∀ d < launch.workerCount.toNat,
          roundLine (mulU64ByU32 launch.rowBytes (UInt32.ofNat (waveRows srcs d)))
            ≤ launch.destinationHiddenSlotStride) := by
  have hhints : (wavePlanOf launch srcs).totals.uniformHints
      = srcs.all fun source => source.header.uniformHint := rfl
  unfold hiddenPuts
  rw [hhints]
  by_cases hpacked : launch.PackedRelay (srcs.all fun source => source.header.uniformHint)
  · rw [if_pos hpacked]
    constructor
    · intro hall _ d hd
      have hput : ∀ put ∈ relayDestinationPackedSafe launch (wavePlanOf launch srcs) d,
          put.InSlot launch := fun put hput =>
        hall put (List.mem_flatMap.mpr ⟨d, List.mem_range.mpr hd, hput⟩)
      unfold relayDestinationPackedSafe at hput
      rw [destinationRowCounts_eq] at hput
      exact putGmRange_inSlot_base.mp hput
    · intro hall put hput
      obtain ⟨d, hd, hput⟩ := List.mem_flatMap.mp hput
      unfold relayDestinationPackedSafe at hput
      rw [destinationRowCounts_eq] at hput
      exact putGmRange_inSlot_base.mpr (hall hpacked d (List.mem_range.mp hd)) put hput
  · rw [if_neg hpacked]
    constructor
    · intro _ hcontra
      exact absurd hcontra hpacked
    · intro _ put hput
      obtain ⟨block, hblock, hput⟩ := List.mem_flatMap.mp hput
      -- not packed: every source has its hint
      unfold DispatchLaunch.PackedRelay at hpacked
      rw [not_or, not_not] at hpacked
      have hall := List.all_eq_true.mp hpacked.1.1
      match hs : srcs[block % launch.workerCount.toNat]? with
      | none =>
        rw [hs] at hput
        cases hput
      | some source =>
        rw [hs] at hput
        exact relayUniform_inSlot hvalid hplanned hs (hall source (List.mem_of_getElem? hs)) _
          put hput

/-- The metadata of one destination. -/
theorem metadataPuts_inSlot (hvalid : launch.Valid) (hplanned : Planned launch srcs)
    (hd : d < launch.workerCount.toNat) :
    (∀ put ∈ metadataPuts launch (wavePlanOf launch srcs) d, put.InSlot launch) ↔
      alignUp (40 * waveRows srcs d) ≤ launch.destinationRowsSlotStride.toNat ∧
      alignUp (32 * waveAssignments srcs d) ≤ launch.destinationAssignmentsSlotStride.toNat ∧
      alignUp (4 * launch.expertCount.toNat)
        ≤ launch.destinationExpertCountsSlotStride.toNat := by
  have hrows := (waveRows_le hplanned hd).trans_lt (rowCapacity_lt hvalid)
  have hassignments := (waveAssignments_le hplanned hd).trans_lt (assignmentCapacity_lt hvalid)
  have hexperts := launch.expertCount.toNat_lt
  -- a count of at most 32 bits, in records of a few bytes
  have hbytes : ∀ (n : ℕ) (size : UInt64), n < 2 ^ 32 → size.toNat ≤ 64 →
      (roundLine (UInt64.ofNat n * size)).toNat = alignUp (size.toNat * n) := by
    intro n size hn hsize
    have hmul : n * size.toNat ≤ 2 ^ 32 * 64 := Nat.mul_le_mul (by omega) hsize
    have hprod : (UInt64.ofNat n * size).toNat = size.toNat * n := by
      rw [UInt64.toNat_mul, UInt64.toNat_ofNat', Nat.mod_eq_of_lt (a := n) (by omega),
        Nat.mod_eq_of_lt (by omega), Nat.mul_comm]
    rw [roundLine_toNat (by rw [hprod, Nat.mul_comm]; omega), hprod]
  have hcount : ∀ (array : DestinationArray) (n : ℕ) (size : UInt64), n < 2 ^ 32 →
      size.toNat ≤ 64 →
      ((∀ put ∈ (if UInt64.ofNat n ≠ 0 then
          putGmRange array d 0 (roundLine (UInt64.ofNat n * size)).toNat else []),
        put.InSlot launch) ↔ alignUp (size.toNat * n) ≤ (launch.slotStride array).toNat) := by
    intro array n size hn hsize
    have hzero : UInt64.ofNat n ≠ 0 ↔ n ≠ 0 := by
      rw [Ne, ← UInt64.toNat_inj, UInt64.toNat_ofNat', Nat.mod_eq_of_lt (by omega)]
      rfl
    by_cases hne : n = 0
    · rw [if_neg (hzero.not.mpr (not_not.mpr hne)), hne, Nat.mul_zero]
      exact ⟨fun _ => Nat.zero_le _, fun _ put hput => by cases hput⟩
    · rw [if_pos (hzero.mpr hne), putGmRange_inSlot_base, UInt64.le_iff_toNat_le,
        hbytes n size hn hsize]
  have hfour : (launch.expertCount.toUInt64 * 4).toNat = 4 * launch.expertCount.toNat := by
    rw [UInt64.toNat_mul, UInt32.toNat_toUInt64]
    show launch.expertCount.toNat * 4 % 2 ^ 64 = _
    omega
  have hround : (roundLine (launch.expertCount.toUInt64 * 4)).toNat
      = alignUp (4 * launch.expertCount.toNat) := by
    rw [roundLine_toNat (by omega), hfour]
  unfold metadataPuts
  rw [destinationRowCounts_eq, destinationAssignmentCounts_eq]
  simp only []
  rw [List.forall_mem_append, List.forall_mem_append,
    hcount .rows _ destinationRowBytes hrows (by decide),
    hcount .assignments _ expertAssignmentBytes hassignments (by decide),
    putGmRangeAligned_inSlot (by omega), UInt64.le_iff_toNat_le, hround, and_assoc]
  rfl

/-- The PUTs of a planned wave stay in the ring slot of the launch exactly when the rounded
transfers fit into its strides. -/
theorem wave_puts_in_slot_iff {plan : WavePlan} (hvalid : launch.Valid)
    (hready : WaveReady launch srcs) (hplan : planWave launch srcs = .ok plan) :
    (∀ put ∈ wavePuts launch srcs plan, put.InSlot launch) ↔ RoundedFits launch srcs := by
  obtain ⟨hplanned, rfl⟩ := Ends.of_ok (planWave_ends hvalid hready) hplan
  have hworkers : 2 ≤ launch.workerCount.toNat := UInt32.le_iff_toNat_le.mp hvalid.workers.1
  unfold wavePuts
  rw [List.forall_mem_append, hiddenPuts_inSlot hvalid hplanned]
  have hmetadata : (∀ put ∈ (List.range launch.workerCount.toNat).flatMap
        (metadataPuts launch (wavePlanOf launch srcs)), put.InSlot launch) ↔
      ∀ d < launch.workerCount.toNat,
        ∀ put ∈ metadataPuts launch (wavePlanOf launch srcs) d, put.InSlot launch := by
    constructor
    · intro hall d hd put hput
      exact hall put (List.mem_flatMap.mpr ⟨d, List.mem_range.mpr hd, hput⟩)
    · intro hall put hput
      obtain ⟨d, hd, hput⟩ := List.mem_flatMap.mp hput
      exact hall d (List.mem_range.mp hd) put hput
  rw [hmetadata]
  constructor
  · intro hall
    have hdest := fun d hd => (metadataPuts_inSlot hvalid hplanned hd).mp (hall.2 d hd)
    exact ⟨hall.1, fun d hd => (hdest d hd).1, fun d hd => (hdest d hd).2.1,
      (hdest 0 (by omega)).2.2⟩
  · intro hfits
    refine ⟨hfits.hidden, fun d hd => ?_⟩
    exact (metadataPuts_inSlot hvalid hplanned hd).mpr
      ⟨hfits.rows d hd, hfits.assignments d hd, hfits.experts⟩

end Wave

/-- One token of worker 0 for itself; worker 1 has none. -/
def sampleWave : List ParsedSource :=
  [{ header := sampleHeader
     tokens := [{ assignmentCount := 1 }]
     assignments := [{}] },
    { header :=
      { sampleHeader with
        sourceRank := 1
        tokenCount := 0
        assignmentCount := 0
        assignmentsOffset := 128
        hiddenOffset := 128
        packetBytes := 128 } }]

/-- Two ready sources are a ready wave. -/
theorem waveReady_of_two {launch : DispatchLaunch} {x y : ParsedSource}
    (hworkers : launch.workerCount = 2) (hx : SourceReady launch 0 x) (hy : SourceReady launch 1 y) :
    WaveReady launch [x, y] where
  length := by
    rw [hworkers]
    rfl
  source r source h := by
    match r with
    | 0 =>
      cases h
      exact hx
    | 1 =>
      cases h
      exact hy
    | r + 2 => cases h

/-- A plan that is there. -/
theorem exists_plan {launch : DispatchLaunch} {srcs : List ParsedSource}
    (h : (planWave launch srcs).toOption.isSome = true) :
    ∃ plan, planWave launch srcs = .ok plan := by
  match hplan : planWave launch srcs with
  | .ok plan => exact ⟨plan, rfl⟩
  | .error e =>
    rw [hplan] at h
    cases h

/-- The sample wave with strides that are wide enough. -/
theorem wave_puts_in_slot_iff_sample : ∃ plan, planWave sampleLaunch sampleWave = .ok plan ∧
    ∀ put ∈ wavePuts sampleLaunch sampleWave plan, put.InSlot sampleLaunch := by
  obtain ⟨plan, hplan⟩ : ∃ plan, planWave sampleLaunch sampleWave = .ok plan :=
    exists_plan (by decide +kernel)
  have hready : WaveReady sampleLaunch sampleWave :=
    waveReady_of_two rfl ⟨by decide +kernel, rfl, rfl⟩ ⟨by decide +kernel, rfl, rfl⟩
  exact ⟨plan, hplan, (wave_puts_in_slot_iff (by decide +kernel) hready hplan).mpr
    ⟨fun _ => by decide +kernel, by decide +kernel, by decide +kernel, by decide +kernel⟩⟩

/-- The sample launch with destination rows as close as the check allows. -/
def narrowRowsLaunch : DispatchLaunch := { sampleLaunch with destinationRowsSlotStride := 40 }

/-- The launch is accepted and the wave is planned, and the PUT of its one destination row writes 24
bytes of the next ring slot. -/
theorem narrow_rows_not_in_slot : narrowRowsLaunch.Valid ∧ WaveReady narrowRowsLaunch sampleWave ∧
    ∃ plan, planWave narrowRowsLaunch sampleWave = .ok plan ∧
      ¬ ∀ put ∈ wavePuts narrowRowsLaunch sampleWave plan, put.InSlot narrowRowsLaunch := by
  have hvalid : narrowRowsLaunch.Valid := by decide +kernel
  have hready : WaveReady narrowRowsLaunch sampleWave :=
    waveReady_of_two rfl ⟨by decide +kernel, rfl, rfl⟩ ⟨by decide +kernel, rfl, rfl⟩
  obtain ⟨plan, hplan⟩ : ∃ plan, planWave narrowRowsLaunch sampleWave = .ok plan :=
    exists_plan (by decide +kernel)
  refine ⟨hvalid, hready, plan, hplan, fun hall => ?_⟩
  obtain ⟨hplanned, rfl⟩ := Ends.of_ok (planWave_ends hvalid hready) hplan
  have hmetadata := (metadataPuts_inSlot hvalid hplanned (d := 0) (by decide)).mp
    fun put hput => hall put
      (List.mem_append_right _ (List.mem_flatMap.mpr ⟨0, by decide, hput⟩))
  exact absurd hmetadata.1 (by decide +kernel)

end AscendShmem.PullV2
