import AscendShmem.Lib.Run
import AscendShmem.VmmSegment.Lifecycle

/-!
# Failed and successful allocations

`AllocLocalMemory` advances the counters and enters the slice between two driver calls. It is atomic,
and its slices lie side by side in the range of the rank, exactly as long as the sum of `size` and
`allocatedSize_` is not one that wraps into the range and nothing fails behind `HalMemCreate`.
-/

namespace AscendShmem.VmmSegment

open Lib

/-! ## The segment with its exports -/

/-- What `ExportInner` serializes. -/
structure SliceExport where
  info : MemExportInfo
  mappingOffset : ℕ
  sliceIndex : ℕ

/-- The segment, its `exportMap_`, and the slices that were handed out and not released since. -/
structure Exporting where
  segment : Segment
  exportMap : ℕ → Option SliceExport
  live : List MemSlice

variable (c : Config)

/-- What is exported for a slice. -/
def Config.sliceExport (slice : MemSlice) (handle localVirtualBase : ℕ) : SliceExport where
  info := ⟨hbmSliceExportInfoMagic, c.rankId, slice.size, c.superPodId, c.serverId, c.logicDeviceId,
    handle⟩
  mappingOffset := wrap (slice.vAddress + (2 ^ 64 - localVirtualBase))
  sliceIndex := slice.index

/-- What an allocation leaves in `exportMap_`: `ExportInner` makes an entry, before the mapping. -/
def Config.allocExports (size : ℕ) (reply : AllocReply) (x : Exporting) : ℕ → Option SliceExport :=
  match c.allocLocalMemory size reply x.segment with
  | some (_, some slice, s) =>
    if c.shared ∧ reply.exported ∧ reply.translated ∧ reply.attributed ∧ reply.serialized then
      Function.update x.exportMap slice.index
        ((s.slices.find slice.index).map fun pos =>
          c.sliceExport slice pos.2.handle (s.reservedVirtualAddresses.getD c.rankId 0))
    else x.exportMap
  | _ => x.exportMap

/-- `AllocLocalMemory`, with its entries of the table. -/
def Config.alloc (size : ℕ) (reply : AllocReply) (x : Exporting) : Option Exporting :=
  (c.allocLocalMemory size reply x.segment).map fun r =>
    { segment := r.2.2
      exportMap := c.allocExports size reply x
      live := if r.1 = .success then x.live ++ r.2.1.toList else x.live }

/-- `ReleaseSliceMemory`, with the entries that it leaves. -/
def Exporting.release (x : Exporting) (slice : Option MemSlice) : Exporting :=
  { x with
    segment := (x.segment.releaseSliceMemory slice).2
    live := if (x.segment.releaseSliceMemory slice).1 = .success then
      x.live.filter (some · ≠ slice) else x.live }

/-- `Export` of a slice. -/
def Config.exportSlice (x : Exporting) : Option MemSlice → Result × Option SliceExport
  | none => (.invalidParam, none)
  | some slice =>
    if ¬ c.shared then (.success, none)
    else
      match x.segment.slices.find slice.index with
      | none => (.invalidParam, none)
      | some pos =>
        if pos.2.slice ≠ slice then (.invalidParam, none)
        else
          match x.exportMap slice.index with
          | some exInfo => (.success, some exInfo)
          | none => (.innerError, none)

/-- A call on slices. -/
inductive SliceCall where
  | allocLocalMemory (size : ℕ) (reply : AllocReply)
  | releaseSliceMemory (slice : Option MemSlice)
  | exportSlice (slice : Option MemSlice)

/-- The state after a call. -/
def Config.sliceStep (x : Exporting) : SliceCall → Option Exporting
  | .allocLocalMemory size reply => c.alloc size reply x
  | .releaseSliceMemory slice => some (x.release slice)
  | .exportSlice _ => some x

/-! ## The property of a call -/

/-- The slices share no byte. -/
def MemSlice.Apart (a b : MemSlice) : Prop :=
  a.vAddress + a.size ≤ b.vAddress ∨ b.vAddress + b.size ≤ a.vAddress

/-- What an allocation answers, hands out and leaves behind. -/
structure Config.AllocGood (base size : ℕ) (x x' : Exporting) (result : Result)
    (slice : Option MemSlice) : Prop where
  admission : result = .invalidParam ↔
    ¬ (size % deviceLargePageSize = 0 ∧ size + x.segment.allocatedSize ≤ c.reserveAlignedSize)
  failed : result ≠ .success →
    x'.segment.allocatedSize = x.segment.allocatedSize ∧
    x'.segment.sliceCount = x.segment.sliceCount ∧ x'.segment.slices = x.segment.slices ∧
    x'.exportMap = x.exportMap ∧ slice = none
  placed : result = .success → ∃ a, slice = some a ∧ a.size = size ∧
    base ≤ a.vAddress ∧ a.vAddress + a.size ≤ base + c.reserveAlignedSize ∧
    ∀ b ∈ x.live, a.Apart b

/-- The call is all or nothing. -/
def Config.Good (base : ℕ) (x : Exporting) : SliceCall → Prop
  | .allocLocalMemory size reply => ∃ result slice s x',
    c.allocLocalMemory size reply x.segment = some (result, slice, s) ∧ c.alloc size reply x = some x' ∧
      c.AllocGood base size x x' result slice
  | _ => True

/-- The sum is not one that wraps into the range, and behind `HalMemCreate` nothing fails. -/
def Config.NoFailure (x : Exporting) : SliceCall → Prop
  | .allocLocalMemory size reply => size % deviceLargePageSize = 0 →
    (2 ^ 64 ≤ size + x.segment.allocatedSize →
      c.reserveAlignedSize < wrap (size + x.segment.allocatedSize)) ∧
    (size + x.segment.allocatedSize ≤ c.reserveAlignedSize → reply.created = true →
      c.exports reply = true ∧ reply.mapped = true)
  | _ => True

/-- The range of the rank is reserved at `base`, and the slices handed out lie below
`allocatedSize_`. -/
structure Config.Reserved (base : ℕ) (x : Exporting) : Prop where
  based : x.segment.globalVirtualAddress ≠ 0
  own : x.segment.reservedVirtualAddresses[c.rankId]? = some base
  fits : base + c.reserveAlignedSize < 2 ^ 64
  allocated : x.segment.allocatedSize ≤ c.reserveAlignedSize
  live : ∀ b ∈ x.live, base ≤ b.vAddress ∧ b.vAddress + b.size ≤ base + x.segment.allocatedSize

section Theorems

variable {c} {base size : ℕ} {reply : AllocReply} {x : Exporting} {s : Segment}

theorem alloc_of_not_admitted (h : size % deviceLargePageSize ≠ 0 ∨
    c.reserveAlignedSize < wrap (size + s.allocatedSize)) :
    c.allocLocalMemory size reply s = some (.invalidParam, none, s) := if_pos h

theorem alloc_of_not_created (hpage : size % deviceLargePageSize = 0)
    (hfits : wrap (size + s.allocatedSize) ≤ c.reserveAlignedSize) (hbased : s.globalVirtualAddress ≠ 0)
    (hbase : s.reservedVirtualAddresses[c.rankId]? = some base) (hcreated : reply.created = false) :
    c.allocLocalMemory size reply s = some (.dlFuncFailed, none, s) := by
  unfold Config.allocLocalMemory
  rw [if_neg (by simp [hpage, hfits]), if_neg hbased, hbase]
  simp [hcreated]

/-- A slice that is entered is found. -/
theorem Segment.find_enter (s : Segment) (slice : MemSlice) :
    ∃ pos, (s.enter slice).slices.find slice.index = some pos := by
  cases hfind : s.slices.find slice.index with
  | none =>
    refine ⟨_, OrderedSet.find_eq_some.mpr ⟨(OrderedSet.mem_emplace ?_).mpr (.inl rfl), rfl⟩⟩
    exact OrderedSet.find_eq_none.mp hfind
  | some pos =>
    obtain ⟨hmem, hkey⟩ := OrderedSet.find_eq_some.mp hfind
    refine ⟨pos, OrderedSet.find_eq_some.mpr ⟨?_, hkey⟩⟩
    rw [Segment.enter, OrderedSet.emplace_of_mem ⟨pos, hmem, hkey⟩]
    exact hmem

/-- An allocation that gets a handle enters its slice, and succeeds when the export and the mapping
do. -/
theorem alloc_of_created (hpage : size % deviceLargePageSize = 0)
    (hfits : wrap (size + s.allocatedSize) ≤ c.reserveAlignedSize) (hbased : s.globalVirtualAddress ≠ 0)
    (hbase : s.reservedVirtualAddresses[c.rankId]? = some base) (hcreated : reply.created = true)
    {slice : MemSlice} (hslice : slice = ⟨s.objects, s.sliceCount, wrap (base + s.allocatedSize), size⟩) :
    ∃ r calls, c.allocLocalMemory size reply s = some (r, some slice, (s.enter slice).call calls) ∧
      r ≠ .invalidParam ∧ (r = .success ↔ c.exports reply = true ∧ reply.mapped = true) := by
  obtain ⟨pos, hfind⟩ := s.find_enter slice
  rcases c.exportInner_of_find reply hfind with ⟨r, calls, hexport, hr, _⟩
  unfold Config.allocLocalMemory
  rw [if_neg (by simp [hpage, hfits]), if_neg hbased, hbase]
  simp only [hcreated, not_true_eq_false, if_false, ← hslice, hexport]
  cases r with
  | success =>
    have hexports := hr.mp rfl
    cases hmapped : reply.mapped with
    | true =>
      refine ⟨.success, calls ++ [.memMap slice.vAddress s.handles true], ?_, by decide,
        by simp [hexports]⟩
      simp [Segment.call, hslice]
    | false =>
      refine ⟨.dlFuncFailed, calls ++ [.memMap slice.vAddress s.handles false, .memRelease s.handles],
        ?_, by decide, by simp⟩
      simp [Segment.call, hslice]
  | _ =>
    have hexports : ¬ c.exports reply = true := fun h => absurd (hr.mpr h) (by decide)
    refine ⟨.innerError, calls ++ [.memRelease s.handles], ?_, by decide, by simp [hexports]⟩
    simp [Segment.call]

theorem alignUp_lt (val al : ℕ) : alignUp val al < 2 ^ 64 :=
  lt_of_le_of_lt Nat.and_le_left (Nat.mod_lt _ (Nat.two_pow_pos 64))

theorem wrap_of_lt {n : ℕ} (h : n < 2 ^ 64) : wrap n = n := Nat.mod_eq_of_lt h

/-- A slice at the old end of the allocated part lies above all that were handed out. -/
theorem Config.Reserved.apart (h : c.Reserved base x) {a : MemSlice}
    (ha : a.vAddress = base + x.segment.allocatedSize) : ∀ b ∈ x.live, a.Apart b := by
  intro b hb
  exact .inr (ha ▸ (h.live b hb).2)

/-- A call that fails before it gets a handle leaves everything as it was. -/
theorem good_of_unchanged {r : Result}
    (halloc : c.allocLocalMemory size reply x.segment = some (r, none, x.segment))
    (hr : r ≠ .success) (hadmission : r = .invalidParam ↔
      ¬ (size % deviceLargePageSize = 0 ∧ size + x.segment.allocatedSize ≤ c.reserveAlignedSize)) :
    c.Good base x (.allocLocalMemory size reply) := by
  refine ⟨r, none, x.segment, _, halloc, by rw [Config.alloc, halloc]; rfl, hadmission, fun _ => ?_,
    fun hsuccess => absurd hsuccess hr⟩
  refine ⟨rfl, rfl, rfl, ?_, rfl⟩
  simp [Config.allocExports, halloc]

/-- A call that gets a handle is good exactly when it succeeds. -/
theorem good_iff_of_created (h : c.Reserved base x) (hpage : size % deviceLargePageSize = 0)
    (hfits : size + x.segment.allocatedSize ≤ c.reserveAlignedSize) (hcreated : reply.created = true) :
    c.Good base x (.allocLocalMemory size reply) ↔ c.exports reply = true ∧ reply.mapped = true := by
  have haligned : c.reserveAlignedSize < 2 ^ 64 := alignUp_lt _ _
  have hneed : wrap (size + x.segment.allocatedSize) = size + x.segment.allocatedSize :=
    wrap_of_lt (hfits.trans_lt haligned)
  have haddress : wrap (base + x.segment.allocatedSize) = base + x.segment.allocatedSize :=
    wrap_of_lt ((Nat.add_le_add_left h.allocated base).trans_lt h.fits)
  obtain ⟨r, calls, halloc, hvalid, hsuccess⟩ :=
    alloc_of_created hpage (hneed.trans_le hfits) h.based h.own hcreated rfl
  rw [← hsuccess]
  constructor
  · rintro ⟨r', slice, s, x', halloc', hstep, hgood⟩
    rw [halloc, Option.some.injEq, Prod.mk.injEq, Prod.mk.injEq] at halloc'
    obtain ⟨rfl, rfl, rfl⟩ := halloc'
    by_contra hfailed
    exact Option.some_ne_none _ (hgood.failed hfailed).2.2.2.2
  · rintro rfl
    refine ⟨_, _, _, _, halloc, by rw [Config.alloc, halloc]; rfl, ?_, fun hne => absurd rfl hne, ?_⟩
    · exact ⟨fun heq => absurd heq hvalid, fun hnot => absurd ⟨hpage, hfits⟩ hnot⟩
    · refine fun _ => ⟨_, rfl, rfl, ?_, ?_, h.apart haddress⟩
      · rw [haddress]
        exact Nat.le_add_right _ _
      · rw [haddress]
        dsimp only
        omega

/-- An allocation is good exactly when no sum wraps into the range and nothing fails behind
`HalMemCreate`. -/
theorem good_iff (x : Exporting) (call : SliceCall) (h : c.Reserved base x) :
    c.Good base x call ↔ c.NoFailure x call := by
  cases call with
  | releaseSliceMemory slice => exact Iff.rfl
  | exportSlice slice => exact Iff.rfl
  | allocLocalMemory size reply =>
    have haligned : c.reserveAlignedSize < 2 ^ 64 := alignUp_lt _ _
    by_cases hpage : size % deviceLargePageSize = 0
    case neg =>
      refine iff_of_true (good_of_unchanged (alloc_of_not_admitted (.inl hpage)) (by decide) ?_)
        fun hzero => absurd hzero hpage
      exact iff_of_true rfl fun hadmitted => hpage hadmitted.1
    case pos =>
    rcases Nat.lt_or_ge c.reserveAlignedSize (wrap (size + x.segment.allocatedSize)) with habove | hfits
    · have hlarge : ¬ size + x.segment.allocatedSize ≤ c.reserveAlignedSize := fun hle =>
        absurd (wrap_of_lt (hle.trans_lt haligned) ▸ habove) (Nat.not_lt.mpr hle)
      refine iff_of_true (good_of_unchanged (alloc_of_not_admitted (.inr habove)) (by decide) ?_)
        fun _ => ⟨fun _ => habove, fun hle => absurd hle hlarge⟩
      exact iff_of_true rfl fun hadmitted => hlarge hadmitted.2
    rcases Nat.lt_or_ge (size + x.segment.allocatedSize) (2 ^ 64) with hlt | hwraps
    · have hneed := wrap_of_lt hlt
      have hfits' : size + x.segment.allocatedSize ≤ c.reserveAlignedSize := hneed ▸ hfits
      cases hcreated : reply.created with
      | true =>
        rw [good_iff_of_created h hpage hfits' hcreated]
        exact ⟨fun hdone _ => ⟨fun hge => absurd hge (Nat.not_le.mpr hlt), fun _ _ => hdone⟩,
          fun hcond => (hcond hpage).2 hfits' hcreated⟩
      | false =>
        refine iff_of_true (good_of_unchanged
            (alloc_of_not_created hpage hfits h.based h.own hcreated) (by decide) ?_)
          fun _ => ⟨fun hge => absurd hge (Nat.not_le.mpr hlt),
            fun _ htrue => absurd (hcreated.symm.trans htrue) Bool.false_ne_true⟩
        exact iff_of_false (by decide) fun hnot => hnot ⟨hpage, hfits'⟩
    · -- the wrapped sum is admitted
      have hlarge : ¬ size + x.segment.allocatedSize ≤ c.reserveAlignedSize := fun hle =>
        absurd (hle.trans_lt haligned) (Nat.not_lt.mpr hwraps)
      refine iff_of_false ?_ fun hcond => absurd ((hcond hpage).1 hwraps) (Nat.not_lt.mpr hfits)
      rintro ⟨r, slice, s, x', halloc, _, hgood⟩
      have hrefused := hgood.admission.mpr fun hadmitted => hlarge hadmitted.2
      cases hcreated : reply.created with
      | true =>
        obtain ⟨r', calls, halloc', hvalid, _⟩ :=
          alloc_of_created hpage hfits h.based h.own hcreated rfl
        rw [halloc', Option.some.injEq, Prod.mk.injEq] at halloc
        exact hvalid (halloc.1.trans hrefused)
      | false =>
        rw [alloc_of_not_created hpage hfits h.based h.own hcreated, Option.some.injEq,
          Prod.mk.injEq] at halloc
        exact absurd (halloc.1.trans hrefused) (by decide)

/-- An allocation leaves the segment alone, or it enters a slice. -/
theorem alloc_cases (h : c.Reserved base x) (size : ℕ) (reply : AllocReply) :
    (∃ r, c.allocLocalMemory size reply x.segment = some (r, none, x.segment) ∧ r ≠ .success) ∨
    (size % deviceLargePageSize = 0 ∧
      wrap (size + x.segment.allocatedSize) ≤ c.reserveAlignedSize ∧
      ∃ r slice calls, slice.vAddress = wrap (base + x.segment.allocatedSize) ∧ slice.size = size ∧
        c.allocLocalMemory size reply x.segment
          = some (r, some slice, (x.segment.enter slice).call calls)) := by
  by_cases hpage : size % deviceLargePageSize = 0
  case neg => exact .inl ⟨_, alloc_of_not_admitted (.inl hpage), by decide⟩
  case pos =>
  rcases Nat.lt_or_ge c.reserveAlignedSize (wrap (size + x.segment.allocatedSize)) with habove | hfits
  · exact .inl ⟨_, alloc_of_not_admitted (.inr habove), by decide⟩
  · cases hcreated : reply.created with
    | true =>
      obtain ⟨r, calls, halloc, _⟩ := alloc_of_created hpage hfits h.based h.own hcreated rfl
      exact .inr ⟨hpage, hfits, r, _, calls, rfl, rfl, halloc⟩
    | false => exact .inl ⟨_, alloc_of_not_created hpage hfits h.based h.own hcreated, by decide⟩

/-- A release changes neither the range nor what is allocated of it. -/
theorem releaseSliceMemory_range (s : Segment) (slice : Option MemSlice) :
    (s.releaseSliceMemory slice).2.globalVirtualAddress = s.globalVirtualAddress ∧
    (s.releaseSliceMemory slice).2.reservedVirtualAddresses = s.reservedVirtualAddresses ∧
    (s.releaseSliceMemory slice).2.allocatedSize = s.allocatedSize := by
  unfold Segment.releaseSliceMemory
  split
  case h_1 => exact ⟨rfl, rfl, rfl⟩
  case h_2 =>
    split
    case h_1 => exact ⟨rfl, rfl, rfl⟩
    case h_2 =>
      split
      case isTrue => exact ⟨rfl, rfl, rfl⟩
      case isFalse => exact ⟨rfl, rfl, rfl⟩

/-- A call keeps the reservation. -/
theorem reserved_step (x : Exporting) (call : SliceCall) (x' : Exporting) (h : c.Reserved base x)
    (hcond : c.NoFailure x call) (hstep : c.sliceStep x call = some x') : c.Reserved base x' := by
  cases call with
  | exportSlice slice =>
    cases hstep
    exact h
  | releaseSliceMemory slice =>
    cases hstep
    obtain ⟨hglobal, hreserved, hallocated⟩ := releaseSliceMemory_range x.segment slice
    refine ⟨hglobal ▸ h.based, (congrArg (·[c.rankId]?) hreserved).trans h.own, h.fits, hallocated.trans_le h.allocated,
      fun b hb => ?_⟩
    -- a release only takes entries away
    have hold : b ∈ x.live := by
      simp only [Exporting.release] at hb
      split at hb
      case isTrue => exact (List.mem_filter.mp hb).1
      case isFalse => exact hb
    have hbound := h.live b hold
    simp only [Exporting.release, hallocated]
    exact hbound
  | allocLocalMemory size reply =>
    obtain ⟨r, slice, s, x'', halloc, hstep', hgood⟩ := (good_iff x _ h).mpr hcond
    obtain rfl := Option.some.inj (hstep.symm.trans hstep')
    rw [Config.sliceStep, Config.alloc, halloc] at hstep
    cases hstep
    rcases alloc_cases h size reply with ⟨r', halloc', hfailed⟩ | ⟨hpage, hfits, r', a, calls, ha, hsize, halloc'⟩
    · rw [halloc', Option.some.injEq, Prod.mk.injEq, Prod.mk.injEq] at halloc
      obtain ⟨rfl, rfl, rfl⟩ := halloc
      refine ⟨h.based, h.own, h.fits, h.allocated, fun b hb => h.live b ?_⟩
      dsimp only at hb
      rwa [if_neg hfailed] at hb
    · rw [halloc', Option.some.injEq, Prod.mk.injEq, Prod.mk.injEq] at halloc
      obtain ⟨rfl, rfl, rfl⟩ := halloc
      -- without a failing call the allocation was admitted
      have hsuccess : r' = .success := by
        by_contra hfailed
        exact Option.some_ne_none _ (hgood.failed hfailed).2.2.2.2
      have hadmitted := not_not.mp (mt hgood.admission.mpr (by rw [hsuccess]; decide))
      have haligned : c.reserveAlignedSize < 2 ^ 64 := alignUp_lt _ _
      -- the admitted size fits the window, so the sum does not wrap
      have hnew : ((x.segment.enter a).call calls).allocatedSize = x.segment.allocatedSize + size := by
        have hsum : ((x.segment.enter a).call calls).allocatedSize
            = wrap (x.segment.allocatedSize + a.size) := rfl
        rw [hsum, hsize, wrap_of_lt (by omega)]
      refine ⟨h.based, h.own, h.fits, ?_, fun b hb => ?_⟩
      · rw [hnew]
        omega
      · dsimp only at hb ⊢
        rw [if_pos hsuccess] at hb
        rw [hnew]
        rcases List.mem_append.mp hb with hold | hlast
        · have hbound := h.live b hold
          omega
        · obtain rfl : b = a := by simpa using hlast
          have haddress : wrap (base + x.segment.allocatedSize) = base + x.segment.allocatedSize :=
            wrap_of_lt ((Nat.add_le_add_left h.allocated base).trans_lt h.fits)
          omega

end Theorems

/-- In every run on a reserved segment the allocations are atomic, their slices lie apart in the range
of the rank and the admission is exact, as long as and only as long as no sum of `size` and
`allocatedSize_` wraps into the range and nothing fails behind `HalMemCreate`. -/
theorem alloc_atomic_iff (c : Config) {base : ℕ} {x : Exporting} (h : c.Reserved base x)
    (calls : List SliceCall) :
    Always c.sliceStep (c.Good base) x calls ↔ Always c.sliceStep c.NoFailure x calls :=
  always_iff reserved_step good_iff h

/-! ## A reserved segment -/

/-- What `ReserveMemorySpace` makes of any segment, if the driver's range ends below `2 ^ 64`. -/
theorem reserved_of_reserveMemorySpace {c : Config} {s₀ s : Segment} (hs₀ : Accounts c s₀)
    {address : Bool} {reply : ReserveReply} {base : ℕ}
    (hreserve : c.reserveMemorySpace address reply s₀ = (.success, s))
    (hbase : s.reservedVirtualAddresses[c.rankId]? = some base)
    (hfits : base + c.reserveAlignedSize < 2 ^ 64) : c.Reserved base ⟨s, fun _ => none, []⟩ := by
  have haccounts : Accounts c s := by
    have hafter := hs₀.reserveMemorySpace address reply
    rwa [hreserve] at hafter
  have hbased : s.globalVirtualAddress ≠ 0 := by
    intro hzero
    rw [haccounts.based.mp hzero] at hbase
    cases hbase
  have hallocated : s.allocatedSize = 0 := by
    unfold Config.reserveMemorySpace at hreserve
    split at hreserve
    case isTrue => cases hreserve
    case isFalse =>
      split at hreserve
      case isTrue => cases hreserve
      case isFalse =>
        split at hreserve
        case isTrue => cases hreserve
        case isFalse =>
          split at hreserve
          case isTrue => cases hreserve
          case isFalse =>
            split at hreserve
            case h_1 =>
              cases hreserve
              rfl
            case h_2 => cases hreserve
  exact ⟨hbased, hbase, hfits, hallocated ▸ Nat.zero_le _, fun b hb => nomatch hb⟩

/-- Two ranks in one reservation. -/
def pairReserved : Result × Segment :=
  pairConfig.reserveMemorySpace true ⟨some hybmGvmStartAddr, fun _ _ => none⟩ .init

theorem pair_reserved : pairConfig.Reserved hybmGvmStartAddr ⟨pairReserved.2, fun _ => none, []⟩ := by
  have hsuccess : pairReserved.1 = .success := by decide +kernel
  exact reserved_of_reserveMemorySpace .init (Prod.ext hsuccess rfl) (by decide +kernel)
    (by decide +kernel)

/-- An allocation of one page of which the mapping may fail. -/
def onePage (mapped : Bool) : SliceCall :=
  .allocLocalMemory deviceLargePageSize ⟨true, true, true, true, true, mapped⟩

/-- An allocation of one page. -/
theorem alloc_atomic_pair : Always pairConfig.sliceStep (pairConfig.Good hybmGvmStartAddr)
    ⟨pairReserved.2, fun _ => none, []⟩ [onePage true] := by
  refine (alloc_atomic_iff pairConfig pair_reserved _).mpr ⟨fun _ => ⟨fun hwraps => ?_, fun _ _ => ?_⟩,
    fun _ _ => trivial⟩
  · exact absurd hwraps (by decide +kernel)
  · exact ⟨rfl, rfl⟩

/-- The mapping fails: the counters have advanced and the slice stays entered. -/
theorem not_atomic_failedMap : ¬ ∀ (c : Config) (base : ℕ) (x : Exporting), c.Reserved base x →
    ∀ calls, Always c.sliceStep (c.Good base) x calls := by
  intro hall
  have hgood := (hall _ _ _ pair_reserved [onePage false]).1
  have hdone := ((good_iff _ _ pair_reserved).mp hgood rfl).2 (by decide +kernel) rfl
  exact absurd hdone.2 (by decide)

end AscendShmem.VmmSegment
