import AscendShmem.Lib.Run
import AscendShmem.VmmSegment.Lifecycle

/-!
# Three encodings of the reserved ranges

The ranges of the ranks are written down three times: as a table of bases that `Mmap` reads, as the first
base and a multiple of the aligned size in `RemoveImported`, and as the first base and a total size in
`MemoryInRange`. The driver and its reservations are kept beside them, so that each can be compared with
what is reserved.

The table is always right. The other two are as long as the ranges lie one behind the other, and the
total is written by the reservation of one range for each rank only.
-/

namespace AscendShmem.VmmSegment.AddressTable

open Lib

/-! ## The segment with its total size -/

/-- A mapping of imported memory: the rank whose memory it is, and where it lies. -/
structure Mapping where
  rank : ℕ
  address : ℕ
  size : ℕ
  handle : ℕ

/-- The segment, `totalVirtualSize_`, and what the driver has: ranges as address and size, and the
mappings of imported memory. -/
structure Layout where
  segment : Segment
  totalVirtualSize : ℕ
  reservations : List (ℕ × ℕ)
  mappings : List Mapping

/-- Nothing is reserved or mapped. -/
def Layout.init : Layout := ⟨Segment.init, 0, [], []⟩

variable (c : Config)

/-- What is reserved for all ranks. -/
def totalReservedSize : ℕ := wrap (c.rankCnt * c.reserveAlignedSize)

/-- `ReserveMemorySpace`; the total is updated behind the loop over the ranks. -/
def reserveMemorySpace (address : Bool) (reply : ReserveReply) (x : Layout) : Layout :=
  match c.reserveMemorySpace address reply x.segment with
  | (.success, s) =>
    if c.socType = .ascend950 ∨ totalReservedSize c < hybmMaxSingleReserveSize then
      { x with
        segment := s
        reservations := [(s.globalVirtualAddress, totalReservedSize c)] }
    else
      { x with
        segment := s
        totalVirtualSize := wrap (x.totalVirtualSize + totalReservedSize c)
        reservations := s.reservedVirtualAddresses.map fun va => (va, c.reserveAlignedSize) }
  | (_, s) => { x with segment := s }

/-- `UnReserveMemorySpace` -/
def unReserveMemorySpace (x : Layout) : Option Layout :=
  x.segment.unReserveMemorySpace.map fun s =>
    { x with
      segment := s
      totalVirtualSize := 0
      reservations := [] }

/-- The loop of `Mmap` with the sizes that are mapped. -/
def mmapImports (reply : ℕ → MmapReply) :
    ℕ → List MemExportInfo → Layout → Option (Result × Layout)
  | _, [], x => some (.success, x)
  | i, im :: rest, x =>
    if im.rankId = c.rankId then mmapImports reply (i + 1) rest x
    else
      match x.segment.reservedVirtualAddresses[im.rankId]? with
      | none => none
      | some remoteAddress =>
        if (x.segment.mappedMem.find remoteAddress).isSome then mmapImports reply (i + 1) rest x
        else if ¬ c.canMapRemote im then mmapImports reply (i + 1) rest x
        else if ¬ (reply i).imported then some (.innerError, x)
        else
          let handle := x.segment.handles
          let s := { x.segment.call
              [.memImport handle, .memMap remoteAddress handle (reply i).mapped] with
            handles := x.segment.handles + 1 }
          if ¬ (reply i).mapped then
            some (.innerError, { x with segment := s.call [.memRelease handle] })
          else
            mmapImports reply (i + 1) rest
              { x with
                segment := { s with mappedMem := s.mappedMem.emplace (remoteAddress, handle) }
                mappings := x.mappings ++ [⟨im.rankId, remoteAddress, im.size, handle⟩] }

/-- `Mmap` -/
def mmap (reply : ℕ → MmapReply) (x : Layout) : Option (Result × Layout) :=
  if ¬ c.shared then some (.success, x)
  else
    match mmapImports c reply 0 x.segment.imports x with
    | some (.success, x) => some (.success, { x with segment := { x.segment with imports := [] } })
    | r => r

/-- Behind an operation that leaves the segment `s`: the mappings that it has not unmapped. -/
def Layout.unmapped (x : Layout) (s : Segment) : Layout :=
  { x with
    segment := s
    mappings := x.mappings.filter fun m =>
      DriverCall.memUnmap m.address ∉ s.log.drop x.segment.log.length }

/-- `MemoryInRange` -/
def Layout.memoryInRange (x : Layout) (start size : ℕ) : Bool :=
  if start < x.segment.globalVirtualAddress then false
  else if wrap (x.segment.globalVirtualAddress + x.totalVirtualSize) < wrap (start + size) then false
  else true

/-- The segment after mapping the imports. -/
theorem mmapImports_segment (reply : ℕ → MmapReply) (i : ℕ) (imports : List MemExportInfo)
    (x : Layout) :
    (mmapImports c reply i imports x).map (fun r => (r.1, r.2.segment))
      = c.mmapImports reply i imports x.segment := by
  induction imports generalizing i x with
  | nil => rfl
  | cons im rest ih =>
    rw [mmapImports, Config.mmapImports]
    by_cases hown : im.rankId = c.rankId
    · rw [if_pos hown, if_pos hown]
      exact ih (i + 1) x
    rw [if_neg hown, if_neg hown]
    cases x.segment.reservedVirtualAddresses[im.rankId]? with
    | none => rfl
    | some remoteAddress =>
      dsimp only
      by_cases hfound : (x.segment.mappedMem.find remoteAddress).isSome
      · rw [if_pos hfound, if_pos hfound]
        exact ih (i + 1) x
      by_cases hreach : ¬ c.canMapRemote im
      · rw [if_neg hfound, if_neg hfound, if_pos hreach, if_pos hreach]
        exact ih (i + 1) x
      rw [if_neg hfound, if_neg hfound, if_neg hreach, if_neg hreach]
      cases (reply i).imported with
      | false => rfl
      | true =>
        cases (reply i).mapped with
        | false => rfl
        | true => exact ih (i + 1) _

/-- A call of the segment, or a query. -/
inductive LayoutCall where
  | call (call : Call)
  | memoryInRange (start size : ℕ)

/-- The layout after a call. -/
def step (x : Layout) : LayoutCall → Option Layout
  | .memoryInRange _ _ => some x
  | .call (.reserveMemorySpace address reply) => some (reserveMemorySpace c address reply x)
  | .call .unReserveMemorySpace => unReserveMemorySpace x
  | .call (.mmap reply) => (mmap c reply x).map Prod.snd
  | .call .unmap => some (x.unmapped (c.unmap x.segment))
  | .call (.removeImported ranks) => some (x.unmapped (c.removeImported ranks x.segment).2)
  | .call call => (c.step x.segment call).map fun s => { x with segment := s }

/-- The segment takes the calls as it does without the record beside it. -/
theorem step_segment (x : Layout) (call : Call) :
    (step c x (.call call)).map Layout.segment = c.step x.segment call := by
  cases call with
  | reserveMemorySpace address reply =>
    show some (reserveMemorySpace c address reply x).segment
      = some (c.reserveMemorySpace address reply x.segment).2
    unfold reserveMemorySpace
    split
    · rename_i hreserve
      rw [hreserve]
      split <;> rfl
    · rename_i hreserve
      rw [hreserve]
  | mmap reply =>
    show ((mmap c reply x).map Prod.snd).map Layout.segment
      = (c.mmap reply x.segment).map Prod.snd
    have hloop := mmapImports_segment c reply 0 x.segment.imports x
    unfold mmap Config.mmap
    split
    · rfl
    · rw [← hloop]
      cases mmapImports c reply 0 x.segment.imports x with
      | none => rfl
      | some r =>
        obtain ⟨result, after⟩ := r
        cases result <;> rfl
  | unReserveMemorySpace => simp [step, unReserveMemorySpace, Config.step, Function.comp_def]
  | unmap => rfl
  | removeImported ranks => rfl
  | _ => simp [step, Config.step, Function.comp_def]

/-! ## The property of a call -/

/-- An address is in reserved space. -/
def Covers (reservations : List (ℕ × ℕ)) (a : ℕ) : Prop :=
  ∃ r ∈ reservations, r.1 ≤ a ∧ a < r.1 + r.2

/-- A range begins in reserved space, or at its end, and every byte of it is reserved. -/
def Lies (reservations : List (ℕ × ℕ)) (start size : ℕ) : Prop :=
  (∃ r ∈ reservations, r.1 ≤ start ∧ start ≤ r.1 + r.2) ∧
  ∀ a, start ≤ a → a < start + size → Covers reservations a

/-- What `Mmap` maps for a rank is at the base of the rank, and inside of what is reserved for it. -/
structure MmapGood (x x' : Layout) : Prop where
  mapped : ∃ new, x'.mappings = x.mappings ++ new ∧ ∀ m ∈ new,
    x.segment.reservedVirtualAddresses[m.rank]? = some m.address ∧ m.size ≤ c.reserveAlignedSize ∧
    Lies x.reservations m.address m.size

/-- `RemoveImported` unmaps and releases the mappings of these ranks. -/
structure RemoveGood (ranks : List ℕ) (x x' : Layout) : Prop where
  kept : x'.mappings = x.mappings.filter fun m => m.rank ∉ ranks
  calls : ∃ calls, x'.segment.log = x.segment.log ++ calls ∧
    calls.Perm ((x.mappings.filter fun m => m.rank ∈ ranks).flatMap fun m =>
      unmapAndRelease m.address m.handle)

/-- A query answers if the range lies in a reservation. -/
def Good (x : Layout) : LayoutCall → Prop
  | .memoryInRange start size => x.memoryInRange start size = true ↔ Lies x.reservations start size
  | .call (.mmap reply) => ∃ r, mmap c reply x = some r ∧ MmapGood c x r.2
  | .call (.removeImported ranks) =>
    if c.shared ∧ ∀ rank ∈ ranks, rank < c.rankCnt then
      RemoveGood ranks x (x.unmapped (c.removeImported ranks x.segment).2)
    else (c.removeImported ranks x.segment).2 = x.segment
  | _ => True

/-! ## The condition -/

/-- The ranges of the ranks lie one behind the other. -/
def Contiguous (s : Segment) : Prop :=
  s.globalVirtualAddress + c.rankCnt * c.reserveAlignedSize < 2 ^ 64 ∧
  ∀ rank < c.rankCnt, s.reservedVirtualAddresses[rank]?
    = some (s.globalVirtualAddress + rank * c.reserveAlignedSize)

/-- Neither the sizes nor a block that the driver returns wrap; nothing is mapped when the ranges are
given back; what is imported names a rank and fits its range; and the formulas from the first base are
asked only where the ranges lie one behind the other, the one with the total not about memory in a
single block. -/
def Keeps (x : Layout) : LayoutCall → Prop
  | .memoryInRange start size =>
    start + size < 2 ^ 64 ∧
    (x.segment.globalVirtualAddress = 0 → 0 < start + size) ∧
    (x.segment.globalVirtualAddress ≠ 0 → Contiguous c x.segment) ∧
    (x.segment.singleReservation → Lies x.reservations start size →
      start = x.segment.globalVirtualAddress ∧ size = 0)
  | .call (.reserveMemorySpace _ reply) =>
    0 < c.reserveAlignedSize ∧ c.rankCnt * c.reserveAlignedSize < 2 ^ 64 ∧
    ∀ base, reply.single = some base → base + c.rankCnt * c.reserveAlignedSize < 2 ^ 64
  | .call .unReserveMemorySpace => x.mappings = []
  | .call (.mmap _) => c.shared → ∀ im ∈ x.segment.imports, im.rankId ≠ c.rankId →
    im.rankId < x.segment.reservedVirtualAddresses.length ∧
    (c.canMapRemote im → im.size ≤ c.reserveAlignedSize)
  | .call (.removeImported _) =>
    x.segment.globalVirtualAddress ≠ 0 → Contiguous c x.segment
  | _ => True

/-! ## What the other calls keep -/

section Frames

variable {c} {s s' : Segment}

/-- The table, the first base, the flag and the mappings are the same. -/
structure Same (s s' : Segment) : Prop where
  global : s'.globalVirtualAddress = s.globalVirtualAddress
  table : s'.reservedVirtualAddresses = s.reservedVirtualAddresses
  single : s'.singleReservation = s.singleReservation
  mapped : s'.mappedMem = s.mappedMem

theorem Same.refl (s : Segment) : Same s s := ⟨rfl, rfl, rfl, rfl⟩

theorem Same.trans {s'' : Segment} (h : Same s s') (h' : Same s' s'') : Same s s'' :=
  ⟨h'.global.trans h.global, h'.table.trans h.table, h'.single.trans h.single,
    h'.mapped.trans h.mapped⟩

theorem same_call (calls : List DriverCall) : Same s (s.call calls) := ⟨rfl, rfl, rfl, rfl⟩

theorem same_importExInfo (allExInfo : List ImportReply) : Same s (c.importExInfo allExInfo s).2 := by
  unfold Config.importExInfo
  split
  · exact .refl s
  · split
    · exact .refl s
    · exact ⟨rfl, rfl, rfl, rfl⟩

theorem same_releaseSliceMemory (slice : Option MemSlice) : Same s (s.releaseSliceMemory slice).2 := by
  cases slice with
  | none => exact .refl s
  | some slice =>
    unfold Segment.releaseSliceMemory
    dsimp only
    split
    · exact .refl s
    · split
      · exact .refl s
      · exact ⟨rfl, rfl, rfl, rfl⟩

theorem same_releaseSlices {n : ℕ} (h : s.releaseSlices n = some s') : Same s s' := by
  induction n generalizing s with
  | zero =>
    obtain ⟨_, ⟨⟩⟩ := Option.ite_none_right_eq_some.mp h
    exact .refl _
  | succ n ih =>
    rw [Segment.releaseSlices] at h
    split at h
    · cases h
      exact .refl _
    · exact (same_releaseSliceMemory _).trans (ih h)

theorem same_exportInner {slice : MemSlice} {reply : AllocReply} {r : Result × Segment}
    (h : c.exportInner slice reply s = some r) : Same s r.2 := by
  unfold Config.exportInner at h
  split at h
  · cases h
    exact .refl s
  · split at h
    · cases h
    · split_ifs at h <;> (cases h; exact same_call _)

theorem same_allocLocalMemory {size : ℕ} {reply : AllocReply} {r : Result × Option MemSlice × Segment}
    (h : c.allocLocalMemory size reply s = some r) : Same s r.2.2 := by
  have henter : ∀ slice, Same s (s.enter slice) := fun _ => ⟨rfl, rfl, rfl, rfl⟩
  unfold Config.allocLocalMemory at h
  split at h
  · cases h
    exact .refl s
  split at h
  · cases h
    exact .refl s
  split at h
  · cases h
  dsimp only at h
  split at h
  · cases h
    exact .refl s
  split at h
  · cases h
  · rename_i after hexport
    have hafter := (henter _).trans (same_exportInner hexport)
    split at h
    · cases h
      exact hafter.trans ((same_call _).trans (same_call _))
    · cases h
      exact hafter.trans (same_call _)
  · rename_i hexport
    cases h
    exact ((henter _).trans (same_exportInner hexport)).trans (same_call _)

end Frames

/-! ## The invariant -/

section Invariant

variable {c} {x x' : Layout} {s s' : Segment}

/-- The ranges are reserved: in one block, which is sliced, or one for each rank. -/
structure Reserved (c : Config) (x : Layout) : Prop where
  based : x.segment.globalVirtualAddress ≠ 0
  length : x.segment.reservedVirtualAddresses.length = c.rankCnt
  size_pos : 0 < c.reserveAlignedSize
  ranks_pos : 0 < c.rankCnt
  total_lt : c.rankCnt * c.reserveAlignedSize < 2 ^ 64
  single : x.segment.singleReservation = true → Contiguous c x.segment ∧ x.totalVirtualSize = 0 ∧
    x.reservations = [(x.segment.globalVirtualAddress, c.rankCnt * c.reserveAlignedSize)]
  perPe : x.segment.singleReservation = false →
    x.totalVirtualSize = c.rankCnt * c.reserveAlignedSize ∧
    x.reservations = x.segment.reservedVirtualAddresses.map fun va => (va, c.reserveAlignedSize)

/-- Before a reservation and after it was given up. -/
structure Unreserved (x : Layout) : Prop where
  unbased : x.segment.globalVirtualAddress = 0
  table : x.segment.reservedVirtualAddresses = []
  single : x.segment.singleReservation = false
  total : x.totalVirtualSize = 0
  reservations : x.reservations = []

/-- The invariant of the layout. -/
structure Inv (c : Config) (x : Layout) : Prop where
  placed : Unreserved x ∨ Reserved c x
  mapped : x.segment.mappedMem.toList.Perm (x.mappings.map fun m => (m.address, m.handle))
  owned : ∀ m ∈ x.mappings,
    x.segment.reservedVirtualAddresses[m.rank]? = some m.address ∧ m.size ≤ c.reserveAlignedSize

theorem inv_layout_init : Inv c Layout.init :=
  ⟨.inl ⟨rfl, rfl, rfl, rfl, rfl⟩, List.Perm.refl _, fun _ hm => absurd hm List.not_mem_nil⟩

theorem placed_same (h : Unreserved x ∨ Reserved c x) (hglobal : s.globalVirtualAddress
    = x.segment.globalVirtualAddress) (htable : s.reservedVirtualAddresses
    = x.segment.reservedVirtualAddresses) (hsingle : s.singleReservation = x.segment.singleReservation)
    (mappings : List Mapping) :
    Unreserved ⟨s, x.totalVirtualSize, x.reservations, mappings⟩ ∨
      Reserved c ⟨s, x.totalVirtualSize, x.reservations, mappings⟩ := by
  rcases h with h | h
  · exact .inl ⟨hglobal.trans h.unbased, htable.trans h.table, hsingle.trans h.single, h.total,
      h.reservations⟩
  · refine .inr ⟨?_, ?_, h.size_pos, h.ranks_pos, h.total_lt, ?_, ?_⟩
    · exact hglobal ▸ h.based
    · exact htable ▸ h.length
    · intro hone
      simp only [Contiguous, hglobal, htable]
      exact h.single (hsingle ▸ hone)
    · intro hone
      simp only [htable]
      exact h.perPe (hsingle ▸ hone)

/-- A call that keeps the table and the mappings keeps the invariant. -/
theorem Inv.same (h : Inv c x) (hs : Same x.segment s) : Inv c { x with segment := s } := by
  refine ⟨placed_same h.placed hs.global hs.table hs.single _, ?_, ?_⟩
  · rw [hs.mapped]
    exact h.mapped
  · rw [hs.table]
    exact h.owned

/-! ### Reservations -/

/-- The address of a rank. -/
theorem rankAddresses_getElem? {alignedSize base n rank : ℕ} (hlt : base + n * alignedSize < 2 ^ 64)
    (hrank : rank < n) :
    (rankAddresses alignedSize base n)[rank]? = some (base + rank * alignedSize) := by
  induction n generalizing base rank with
  | zero => exact absurd hrank (Nat.not_lt_zero _)
  | succ n ih =>
    rw [Nat.succ_mul] at hlt
    cases rank with
    | zero => simp [rankAddresses]
    | succ rank =>
      have hwrap : wrap (base + alignedSize) = base + alignedSize := Nat.mod_eq_of_lt (by omega)
      rw [rankAddresses, hwrap, List.getElem?_cons_succ, ih (by omega) (Nat.lt_of_succ_lt_succ hrank),
        Nat.succ_mul]
      congr 1
      omega

theorem length_rankAddresses (alignedSize base n : ℕ) :
    (rankAddresses alignedSize base n).length = n := by
  induction n generalizing base with
  | zero => rfl
  | succ n ih => exact congrArg (· + 1) (ih _)

/-- How a reservation ends: without one, with one block, or with a range for each rank. -/
inductive EachPe (c : Config) (alignedSize total : ℕ) (reply : ReserveReply) (s : Segment) :
    Result × Segment → Prop
  | failed {r : Result} {s' : Segment} : r ≠ .success → Same s s' →
      EachPe c alignedSize total reply s (r, s')
  | block {s' : Segment} (base : ℕ) : c.socType = .ascend950 ∨ total < hybmMaxSingleReserveSize →
      reply.single = some base → base ≠ 0 →
      s'.reservedVirtualAddresses = rankAddresses alignedSize base c.rankCnt →
      s'.singleReservation = true → s'.mappedMem = s.mappedMem →
      EachPe c alignedSize total reply s (.success, s')
  | ranks {s' : Segment} : ¬ (c.socType = .ascend950 ∨ total < hybmMaxSingleReserveSize) →
      (∀ a ∈ s'.reservedVirtualAddresses, a ≠ 0) → s'.reservedVirtualAddresses.length = c.rankCnt →
      s'.singleReservation = s.singleReservation → s'.mappedMem = s.mappedMem →
      EachPe c alignedSize total reply s (.success, s')

/-- What reserving rank by rank does. -/
theorem eachPe (hnone : s.reservedVirtualAddresses = []) (alignedSize total expectSt : ℕ)
    (reply : ReserveReply) :
    EachPe c alignedSize total reply s
      (c.reserveEachPeMemorySpace alignedSize total expectSt reply s) := by
  unfold Config.reserveEachPeMemorySpace
  by_cases hrange : hybmDeviceMetaAddr < wrap (expectSt + total)
  · rw [if_pos hrange]
    exact .failed (by decide) (.refl s)
  rw [if_neg hrange]
  by_cases hone : c.socType = .ascend950 ∨ total < hybmMaxSingleReserveSize
  · rw [if_pos hone]
    cases hreply : reserved reply.single with
    | none => exact .failed (by decide) (.refl s)
    | some base =>
      obtain ⟨hsome, hbase⟩ := Option.filter_eq_some_iff.mp hreply
      refine .block base hone hsome (by simpa using hbase) ?_ rfl rfl
      simp [hnone]
  · rw [if_neg hone]
    obtain ⟨r, calls, addresses, heq, -, -, hgood, hbad⟩ := reservePerPe_spec alignedSize
      reply.perPe c.rankCnt 0 expectSt s (by simp [hnone])
    rw [heq]
    by_cases hr : r = .success
    · obtain ⟨hlength, hne⟩ := hgood hr
      rw [hnone, List.length_nil, Nat.zero_add] at hlength
      subst hr
      exact .ranks hone hne hlength rfl rfl
    · obtain rfl := hbad hr
      exact .failed hr ⟨rfl, hnone.symm, rfl, rfl⟩

/-- There are ranges already. -/
theorem reserve_refused (hbased : s.globalVirtualAddress ≠ 0) (address : Bool) (reply : ReserveReply) :
    ∃ r, r ≠ .success ∧ c.reserveMemorySpace address reply s = (r, s) := by
  unfold Config.reserveMemorySpace
  split
  · exact ⟨_, by decide, rfl⟩
  split
  · exact ⟨_, by decide, rfl⟩
  exact ⟨_, by decide, rfl⟩

/-- How `ReserveMemorySpace` ends. -/
inductive Reservation (c : Config) (reply : ReserveReply) (s : Segment) : Result × Segment → Prop
  | failed {r : Result} {s' : Segment} : r ≠ .success → Same s s' → Reservation c reply s (r, s')
  | block {s' : Segment} (base : ℕ) : c.socType = .ascend950 ∨
      totalReservedSize c < hybmMaxSingleReserveSize → reply.single = some base → base ≠ 0 →
      s'.globalVirtualAddress = base →
      s'.reservedVirtualAddresses = rankAddresses c.reserveAlignedSize base c.rankCnt →
      s'.singleReservation = true → s'.mappedMem = s.mappedMem → 0 < c.rankCnt →
      Reservation c reply s (.success, s')
  | ranks {s' : Segment} : ¬ (c.socType = .ascend950 ∨
      totalReservedSize c < hybmMaxSingleReserveSize) → s'.globalVirtualAddress ≠ 0 →
      s'.reservedVirtualAddresses.length = c.rankCnt →
      s'.singleReservation = s.singleReservation → s'.mappedMem = s.mappedMem → 0 < c.rankCnt →
      Reservation c reply s (.success, s')

/-- What a reservation does. -/
theorem reservation (hnone : s.reservedVirtualAddresses = []) (address : Bool) (reply : ReserveReply) :
    Reservation c reply s (c.reserveMemorySpace address reply s) := by
  have heach := eachPe (c := c) hnone c.reserveAlignedSize (wrap (c.rankCnt * c.reserveAlignedSize))
    hybmGvmStartAddr reply
  unfold Config.reserveMemorySpace
  split
  · exact .failed (by decide) (.refl s)
  split
  · exact .failed (by decide) (.refl s)
  split
  · exact .failed (by decide) (.refl s)
  split
  · exact .failed (by decide) (.refl s)
  rename_i hrank
  have hpos : 0 < c.rankCnt := Nat.zero_lt_of_lt (Nat.lt_of_not_le hrank)
  revert heach
  generalize c.reserveEachPeMemorySpace c.reserveAlignedSize
    (wrap (c.rankCnt * c.reserveAlignedSize)) hybmGvmStartAddr reply s = outcome
  rintro (@⟨r, s', hr, hsame⟩ | @⟨s', base, hone, hsingle, hbase, htable, hflag, hmem⟩ |
    @⟨s', hone, hne, hlength, hflag, hmem⟩)
  · cases r with
    | success => exact absurd rfl hr
    | _ => exact .failed (by decide) hsame
  · obtain ⟨n, hn⟩ := Nat.exists_eq_succ_of_ne_zero hpos.ne'
    refine .block base hone hsingle hbase ?_ htable hflag hmem hpos
    show s'.reservedVirtualAddresses.headD 0 = base
    rw [htable, hn]
    rfl
  · refine .ranks hone ?_ hlength hflag hmem hpos
    show s'.reservedVirtualAddresses.headD 0 ≠ 0
    cases htable : s'.reservedVirtualAddresses with
    | nil =>
      rw [htable, List.length_nil] at hlength
      exact absurd hlength hpos.ne
    | cons first rest => exact hne first (htable ▸ List.mem_cons_self)

/-- Ranges are reserved while there are none. -/
theorem Inv.reserveMemorySpace (h : Inv c x) (address : Bool) {reply : ReserveReply}
    (hsize : 0 < c.reserveAlignedSize) (htotal : c.rankCnt * c.reserveAlignedSize < 2 ^ 64)
    (hreal : ∀ base, reply.single = some base → base + c.rankCnt * c.reserveAlignedSize < 2 ^ 64) :
    Inv c (reserveMemorySpace c address reply x) := by
  have hwrap : totalReservedSize c = c.rankCnt * c.reserveAlignedSize := Nat.mod_eq_of_lt htotal
  rcases h.placed with hun | hres
  · have hnone : x.mappings = [] := by
      refine List.eq_nil_iff_forall_not_mem.mpr fun m hm => ?_
      have hown := (h.owned m hm).1
      rw [hun.table] at hown
      cases hown
    have hmapped := h.mapped
    have howned := h.owned
    unfold AddressTable.reserveMemorySpace
    cases hreserve : c.reserveMemorySpace address reply x.segment with
    | mk r s' =>
    have hcases := reservation (c := c) hun.table address reply
    rw [hreserve] at hcases
    cases hcases with
    | failed hr hsame =>
      cases r with
      | success => exact absurd rfl hr
      | _ => exact h.same hsame
    | block base hone hsingle hbase hglobal htable hflag hmem hpos =>
      simp only [if_pos hone]
      have hlt := hreal base hsingle
      have hcontiguous : Contiguous c s' := by
        refine ⟨by rw [hglobal]; exact hlt, fun rank hrank => ?_⟩
        rw [htable, hglobal, rankAddresses_getElem? hlt hrank]
      refine ⟨.inr ⟨hglobal ▸ hbase, ?_, hsize, hpos, htotal,
        fun _ => ⟨hcontiguous, hun.total, by rw [hwrap]⟩, fun hno => ?_⟩, ?_, ?_⟩
      · rw [htable, length_rankAddresses]
      · rw [hflag] at hno
        cases hno
      · rw [hmem]
        exact hmapped
      · rw [hnone]
        exact fun _ hm => absurd hm List.not_mem_nil
    | ranks hone hbased hlength hflag hmem hpos =>
      simp only [if_neg hone]
      refine ⟨.inr ⟨hbased, hlength, hsize, hpos, htotal, fun hyes => ?_, fun _ => ⟨?_, rfl⟩⟩, ?_, ?_⟩
      · rw [hflag, hun.single] at hyes
        cases hyes
      · rw [hun.total, Nat.zero_add, hwrap]
        exact Nat.mod_eq_of_lt htotal
      · rw [hmem]
        exact hmapped
      · rw [hnone]
        exact fun _ hm => absurd hm List.not_mem_nil
  · -- there are ranges already
    obtain ⟨r, hr, heq⟩ := reserve_refused (c := c) hres.based address reply
    rw [AddressTable.reserveMemorySpace, heq]
    cases r with
    | success => exact absurd rfl hr
    | _ => exact h

/-- Giving up the reservation keeps the invariant. -/
theorem Inv.unReserveMemorySpace (h : Inv c x) (hnone : x.mappings = [])
    (hx : unReserveMemorySpace x = some x') : Inv c x' := by
  obtain ⟨s, hs, rfl⟩ := Option.map_eq_some_iff.mp hx
  obtain ⟨mid, hmid, hdone⟩ := Option.bind_eq_some_iff.mp hs
  cases hdone
  refine ⟨.inl ⟨rfl, rfl, rfl, rfl, rfl⟩, ?_, ?_⟩
  · show mid.mappedMem.toList.Perm _
    rw [(same_releaseSlices hmid).mapped]
    exact h.mapped
  · rw [hnone]
    exact fun _ hm => absurd hm List.not_mem_nil

/-! ### Mappings -/

/-- What lies at the base of a rank and fits its range is in reserved space. -/
theorem Inv.lies (h : Inv c x) {rank address size : ℕ}
    (hrank : x.segment.reservedVirtualAddresses[rank]? = some address)
    (hsize : size ≤ c.reserveAlignedSize) : Lies x.reservations address size := by
  rcases h.placed with hun | hres
  · rw [hun.table] at hrank
    cases hrank
  obtain ⟨hlt, -⟩ := List.getElem?_eq_some_iff.mp hrank
  rw [hres.length] at hlt
  have hend : rank * c.reserveAlignedSize + c.reserveAlignedSize
      ≤ c.rankCnt * c.reserveAlignedSize := by
    rw [← Nat.succ_mul]
    exact Nat.mul_le_mul_right _ hlt
  cases hflag : x.segment.singleReservation with
  | true =>
    obtain ⟨hcontiguous, -, hreservations⟩ := hres.single hflag
    have haddress := Option.some.inj (hrank.symm.trans (hcontiguous.2 rank hlt))
    rw [hreservations]
    refine ⟨⟨_, List.mem_singleton.mpr rfl, ?_, ?_⟩, fun a hle ha =>
      ⟨_, List.mem_singleton.mpr rfl, ?_, ?_⟩⟩ <;> dsimp only <;> omega
  | false =>
    have hmem : (address, c.reserveAlignedSize) ∈ x.reservations := by
      rw [(hres.perPe hflag).2]
      exact List.mem_map.mpr ⟨address, List.mem_of_getElem? hrank, rfl⟩
    exact ⟨⟨_, hmem, le_refl _, Nat.le_add_right _ _⟩, fun a hle ha =>
      ⟨_, hmem, hle, ha.trans_le (Nat.add_le_add_left hsize _)⟩⟩

/-- One more mapping does. -/
theorem Inv.addMapping (h : Inv c x) {rank address size : ℕ}
    (hrank : x.segment.reservedVirtualAddresses[rank]? = some address)
    (hsize : size ≤ c.reserveAlignedSize) (hfree : x.segment.mappedMem.find address = none)
    (handle handles : ℕ) (calls : List DriverCall) :
    Inv c { x with
      segment := { x.segment.call calls with
        handles := handles
        mappedMem := x.segment.mappedMem.emplace (address, handle) }
      mappings := x.mappings ++ [⟨rank, address, size, handle⟩] } := by
  refine ⟨placed_same h.placed ?_ ?_ ?_ _, ?_, ?_⟩
  · rfl
  · rfl
  · rfl
  · refine (OrderedSet.perm_emplace (a := (address, handle)) hfree).trans ?_
    rw [List.map_append]
    exact (h.mapped.cons _).trans (List.perm_append_singleton _ _).symm
  · intro m hm
    rcases List.mem_append.mp hm with hm | hm
    · exact h.owned m hm
    · rw [List.mem_singleton.mp hm]
      exact ⟨hrank, hsize⟩

/-- What the loop of `Mmap` maps. -/
theorem Inv.mmapImports (h : Inv c x) (reply : ℕ → MmapReply) (i : ℕ) {imports : List MemExportInfo}
    (him : ∀ im ∈ imports, im.rankId ≠ c.rankId →
      im.rankId < x.segment.reservedVirtualAddresses.length ∧
      (c.canMapRemote im → im.size ≤ c.reserveAlignedSize)) :
    ∃ r new, mmapImports c reply i imports x = some r ∧ Inv c r.2 ∧
      r.2.mappings = x.mappings ++ new ∧ ∀ m ∈ new,
        x.segment.reservedVirtualAddresses[m.rank]? = some m.address ∧
        m.size ≤ c.reserveAlignedSize := by
  induction imports generalizing i x with
  | nil => exact ⟨_, [], rfl, h, (List.append_nil _).symm, fun _ hm => absurd hm List.not_mem_nil⟩
  | cons im rest ih =>
    -- an own slice, one that is mapped already, and one out of reach are skipped
    have hskip := ih h (i + 1) fun im' him' => him im' (List.mem_cons_of_mem _ him')
    -- a failure ends the loop and leaves what was mapped before
    have hstop : ∀ r : Result × Layout, Inv c r.2 → r.2.mappings = x.mappings →
        ∃ r' new, some r = some r' ∧ Inv c r'.2 ∧ r'.2.mappings = x.mappings ++ new ∧ ∀ m ∈ new,
          x.segment.reservedVirtualAddresses[m.rank]? = some m.address ∧
          m.size ≤ c.reserveAlignedSize := fun r hr hmappings =>
      ⟨r, [], rfl, hr, hmappings.trans (List.append_nil _).symm, fun _ hm => absurd hm List.not_mem_nil⟩
    rw [AddressTable.mmapImports]
    by_cases hown : im.rankId = c.rankId
    · rw [if_pos hown]
      exact hskip
    rw [if_neg hown]
    obtain ⟨hrank, hsize⟩ := him im List.mem_cons_self hown
    rw [List.getElem?_eq_getElem hrank]
    dsimp only
    split
    · exact hskip
    rename_i hfound
    split
    · exact hskip
    rename_i hreach
    split
    · exact hstop _ h rfl
    split
    · refine hstop _ ⟨placed_same h.placed ?_ ?_ ?_ _, h.mapped, h.owned⟩ rfl <;> rfl
    · have hat := List.getElem?_eq_getElem hrank
      have hfits := hsize (not_not.mp hreach)
      have hfree := Option.not_isSome_iff_eq_none.mp hfound
      obtain ⟨r, new, hr, hinv, hmappings, hnew⟩ := ih
        (h.addMapping hat hfits hfree x.segment.handles (x.segment.handles + 1)
          [.memImport x.segment.handles, .memMap _ x.segment.handles (reply i).mapped]) (i + 1)
        (fun im' him' => him im' (List.mem_cons_of_mem _ him'))
      refine ⟨r, _, hr, hinv, hmappings.trans (List.append_assoc _ _ _), ?_⟩
      intro m hm
      rcases List.mem_append.mp hm with hm | hm
      · rw [List.mem_singleton.mp hm]
        exact ⟨hat, hfits⟩
      · exact hnew m hm

theorem Inv.mmap (h : Inv c x) (reply : ℕ → MmapReply) (him : c.shared → ∀ im ∈ x.segment.imports,
      im.rankId ≠ c.rankId → im.rankId < x.segment.reservedVirtualAddresses.length ∧
      (c.canMapRemote im → im.size ≤ c.reserveAlignedSize)) :
    ∃ r, mmap c reply x = some r ∧ Inv c r.2 ∧ MmapGood c x r.2 := by
  unfold AddressTable.mmap
  split_ifs with hshared
  · obtain ⟨⟨result, after⟩, new, hr, hinv, hmappings, hnew⟩ :=
      h.mmapImports reply 0 (him (by simpa using hshared))
    have hgood : MmapGood c x after := ⟨new, hmappings, fun m hm =>
      ⟨(hnew m hm).1, (hnew m hm).2, h.lies (hnew m hm).1 (hnew m hm).2⟩⟩
    rw [hr]
    cases result with
    | success =>
      refine ⟨_, rfl, ⟨placed_same hinv.placed ?_ ?_ ?_ _, hinv.mapped, hinv.owned⟩, ⟨hgood.mapped⟩⟩
        <;> rfl
    | _ => exact ⟨_, rfl, hinv, hgood⟩
  · exact ⟨_, rfl, h, ⟨[], (List.append_nil _).symm, fun _ hm => absurd hm List.not_mem_nil⟩⟩

/-! ### Removed ranks -/

/-- What is unmapped for a list of ranks, and what is left. -/
structure Removed (c : Config) (x : Layout) (gone : List ℕ) (s : Segment) : Prop where
  global : s.globalVirtualAddress = x.segment.globalVirtualAddress
  table : s.reservedVirtualAddresses = x.segment.reservedVirtualAddresses
  single : s.singleReservation = x.segment.singleReservation
  left : s.mappedMem.toList.Perm
    ((x.mappings.filter fun m => m.rank ∉ gone).map fun m => (m.address, m.handle))
  calls : ∃ calls, s.log = x.segment.log ++ calls ∧
    calls.Perm ((x.mappings.filter fun m => m.rank ∈ gone).flatMap fun m =>
      unmapAndRelease m.address m.handle)

/-- In contiguous ranges, the window of a rank holds the base of this rank only. -/
theorem Contiguous.window (h : Contiguous c s) (hlength : s.reservedVirtualAddresses.length = c.rankCnt)
    (hpos : 0 < c.reserveAlignedSize) {rank rank' address : ℕ} (hrank : rank < c.rankCnt)
    (haddress : s.reservedVirtualAddresses[rank']? = some address) :
    (wrap (s.globalVirtualAddress + wrap (c.reserveAlignedSize * rank)) ≤ address ∧
      address < wrap (wrap (s.globalVirtualAddress + wrap (c.reserveAlignedSize * rank))
        + c.reserveAlignedSize)) ↔ rank' = rank := by
  obtain ⟨hlt', -⟩ := List.getElem?_eq_some_iff.mp haddress
  rw [hlength] at hlt'
  have hbase := Option.some.inj (haddress.symm.trans (h.2 rank' hlt'))
  have hend : ∀ r, r < c.rankCnt → r * c.reserveAlignedSize + c.reserveAlignedSize
      ≤ c.rankCnt * c.reserveAlignedSize := by
    intro r hr
    rw [← Nat.succ_mul]
    exact Nat.mul_le_mul_right _ hr
  have htotal := h.1
  have hthis := hend rank hrank
  have hmul : wrap (c.reserveAlignedSize * rank) = rank * c.reserveAlignedSize := by
    rw [Nat.mul_comm]
    exact Nat.mod_eq_of_lt (by omega)
  have hstart : wrap (s.globalVirtualAddress + rank * c.reserveAlignedSize)
      = s.globalVirtualAddress + rank * c.reserveAlignedSize := Nat.mod_eq_of_lt (by omega)
  have hstop : wrap (s.globalVirtualAddress + rank * c.reserveAlignedSize + c.reserveAlignedSize)
      = s.globalVirtualAddress + rank * c.reserveAlignedSize + c.reserveAlignedSize :=
    Nat.mod_eq_of_lt (by omega)
  rw [hmul, hstart, hstop, hbase]
  constructor
  · rintro ⟨hle, hlt⟩
    rcases Nat.lt_trichotomy rank' rank with hlower | heq | hupper
    · have hsteps := Nat.mul_le_mul_right c.reserveAlignedSize (Nat.succ_le_of_lt hlower)
      rw [Nat.succ_mul] at hsteps
      omega
    · exact heq
    · have hsteps := Nat.mul_le_mul_right c.reserveAlignedSize (Nat.succ_le_of_lt hupper)
      rw [Nat.succ_mul] at hsteps
      omega
  · rintro rfl
    omega

/-- The window of `RemoveImported` for a rank holds the mappings of this rank and no others. -/
def Windows (c : Config) (x : Layout) : Prop :=
  ∀ m ∈ x.mappings, ∀ rank < c.rankCnt,
    (wrap (x.segment.globalVirtualAddress + wrap (c.reserveAlignedSize * rank)) ≤ m.address ∧
      m.address < wrap (wrap (x.segment.globalVirtualAddress + wrap (c.reserveAlignedSize * rank))
        + c.reserveAlignedSize)) ↔ m.rank = rank

theorem Inv.reserved_of_mem (h : Inv c x) {m : Mapping} (hm : m ∈ x.mappings) : Reserved c x := by
  refine h.placed.resolve_left fun hun => ?_
  have hown := (h.owned m hm).1
  rw [hun.table] at hown
  cases hown

theorem Inv.rank_lt (h : Inv c x) {m : Mapping} (hm : m ∈ x.mappings) : m.rank < c.rankCnt := by
  rw [← (h.reserved_of_mem hm).length]
  exact (List.getElem?_eq_some_iff.mp (h.owned m hm).1).1

theorem Inv.windows (h : Inv c x)
    (hcontiguous : x.segment.globalVirtualAddress ≠ 0 → Contiguous c x.segment) : Windows c x := by
  intro m hm rank hrank
  have hres := h.reserved_of_mem hm
  exact (hcontiguous hres.based).window hres.length hres.size_pos hrank (h.owned m hm).1

/-- Removing a rank unmaps its window. -/
theorem Removed.removeRank (hwindows : Windows c x) {gone : List ℕ} (hs : Removed c x gone s)
    {rank : ℕ} (hrank : rank < c.rankCnt) :
    Removed c x (gone ++ [rank]) (c.removeRank s rank) := by
  have hwindow : ∀ m ∈ x.mappings, (wrap (s.globalVirtualAddress
      + wrap (c.reserveAlignedSize * rank)) ≤ m.address ∧ m.address
      < wrap (wrap (s.globalVirtualAddress + wrap (c.reserveAlignedSize * rank))
        + c.reserveAlignedSize)) ↔ m.rank = rank := by
    intro m hm
    rw [hs.global]
    exact hwindows m hm rank hrank
  obtain ⟨calls, hlog, hcalls⟩ := hs.calls
  revert hwindow
  simp only [Config.removeRank]
  generalize wrap (s.globalVirtualAddress + wrap (c.reserveAlignedSize * rank)) = start
  generalize wrap (start + c.reserveAlignedSize) = stop
  intro hwindow
  refine ⟨hs.global, hs.table, hs.single, ?_,
    calls ++ (s.mappedMem.range start stop).flatMap fun pd => unmapAndRelease pd.1 pd.2, ?_, ?_⟩
  · show (s.mappedMem.eraseRange start stop).toList.Perm _
    rw [OrderedSet.eraseRange_eq]
    refine (hs.left.filter _).trans ?_
    rw [List.filter_map, List.filter_filter]
    refine List.Perm.map _ (List.Perm.of_eq (List.filter_congr fun m hm => ?_))
    rw [Function.comp_apply, ← Bool.decide_and, decide_eq_decide, hwindow m hm, List.mem_append, List.mem_singleton,
      not_or, and_comm]
  · show s.log ++ _ = _
    rw [hlog, List.append_assoc]
  · have hnext : (s.mappedMem.range start stop).Perm
        ((x.mappings.filter fun m => m.rank = rank ∧ m.rank ∉ gone).map
          fun m => (m.address, m.handle)) := by
      rw [OrderedSet.range_eq]
      refine (hs.left.filter _).trans ?_
      rw [List.filter_map, List.filter_filter]
      refine List.Perm.map _ (List.Perm.of_eq (List.filter_congr fun m hm => ?_))
      rw [Function.comp_apply, ← Bool.decide_and, decide_eq_decide, hwindow m hm]
    refine (hcalls.append (hnext.flatMap_right _)).trans ?_
    rw [List.flatMap_map, ← List.flatMap_append]
    refine List.Perm.flatMap_right _ ?_
    refine List.Perm.trans (List.Perm.of_eq ?_)
      (List.filter_append_perm (fun m => decide (m.rank ∈ gone)) _)
    rw [List.filter_filter, List.filter_filter]
    congr 1 <;> refine List.filter_congr fun m _ => ?_ <;> by_cases hm : m.rank ∈ gone <;> simp [hm]

theorem Removed.ranks (hwindows : Windows c x) {ranks gone : List ℕ} (hs : Removed c x gone s)
    (hranks : ∀ rank ∈ ranks, rank < c.rankCnt) :
    Removed c x (gone ++ ranks) (ranks.foldl c.removeRank s) := by
  induction ranks generalizing gone s with
  | nil =>
    rw [List.append_nil]
    exact hs
  | cons rank ranks ih =>
    rw [← List.singleton_append, ← List.append_assoc]
    exact ih (hs.removeRank hwindows (hranks rank List.mem_cons_self))
      fun r hr => hranks r (List.mem_cons_of_mem _ hr)

theorem Inv.removed_nil (h : Inv c x) : Removed c x [] x.segment := by
  refine ⟨rfl, rfl, rfl, ?_, [], (List.append_nil _).symm, ?_⟩
  · simpa using h.mapped
  · simp

/-- The driver's mappings behind the removal of some ranks. -/
theorem Removed.unmapped (h : Inv c x) (hwindows : Windows c x) {ranks : List ℕ}
    (hs : Removed c x ranks s) :
    (x.unmapped s).mappings = x.mappings.filter fun m => m.rank ∉ ranks := by
  obtain ⟨calls, hlog, hcalls⟩ := hs.calls
  show x.mappings.filter _ = _
  refine List.filter_congr fun m hm => ?_
  rw [hlog, List.drop_left, decide_eq_decide, hcalls.mem_iff, not_iff_not, List.mem_flatMap]
  constructor
  · rintro ⟨other, hother, hunmap⟩
    obtain ⟨hother, hgone⟩ := List.mem_filter.mp hother
    have haddress : m.address = other.address := by simpa [unmapAndRelease] using hunmap
    have hwindow := (hwindows other hother other.rank (h.rank_lt hother)).mpr rfl
    rw [← haddress] at hwindow
    rw [(hwindows m hm other.rank (h.rank_lt hother)).mp hwindow]
    exact of_decide_eq_true hgone
  · intro hgone
    exact ⟨m, List.mem_filter.mpr ⟨hm, decide_eq_true hgone⟩, List.mem_cons_self⟩

/-- The mappings are those of the segment. -/
theorem Inv.unmapped_self (h : Inv c x) : Inv c (x.unmapped x.segment) := by
  have hkept : (x.unmapped x.segment).mappings = x.mappings := by
    show x.mappings.filter _ = _
    rw [List.drop_length]
    simp
  refine ⟨placed_same h.placed rfl rfl rfl _, ?_, ?_⟩
  · rw [hkept]
    exact h.mapped
  · rw [hkept]
    exact h.owned

/-- Removing ranks keeps the invariant. -/
theorem Inv.removeImported (h : Inv c x) (ranks : List ℕ)
    (hcontiguous : x.segment.globalVirtualAddress ≠ 0 → Contiguous c x.segment) :
    Inv c (x.unmapped (c.removeImported ranks x.segment).2) ∧
    Good c x (.call (.removeImported ranks)) := by
  have hwindows := h.windows hcontiguous
  by_cases hvalid : c.shared = true ∧ ∀ rank ∈ ranks, rank < c.rankCnt
  · have hremove : c.removeImported ranks x.segment = (.success, ranks.foldl c.removeRank x.segment) := by
      rw [Config.removeImported, if_neg (by rw [hvalid.1]; decide), if_neg]
      simpa using hvalid.2
    have hs : Removed c x ranks (ranks.foldl c.removeRank x.segment) :=
      h.removed_nil.ranks hwindows hvalid.2
    have hkept := hs.unmapped h hwindows
    simp only [Good, if_pos hvalid, hremove]
    refine ⟨⟨placed_same h.placed hs.global hs.table hs.single _, ?_, ?_⟩, ⟨hkept, hs.calls⟩⟩
    · rw [hkept]
      exact hs.left
    · intro m hm
      rw [hkept] at hm
      show (ranks.foldl c.removeRank x.segment).reservedVirtualAddresses[m.rank]? = _ ∧ _
      rw [hs.table]
      exact h.owned m (List.mem_filter.mp hm).1
  · have hremove : (c.removeImported ranks x.segment).2 = x.segment := by
      unfold Config.removeImported
      split
      · rfl
      · rename_i hshared
        rw [if_pos]
        have hbad : ¬ ∀ rank ∈ ranks, rank < c.rankCnt := fun hall => hvalid ⟨by simpa using hshared, hall⟩
        simpa using hbad
    simp only [Good, if_neg hvalid, hremove]
    exact ⟨h.unmapped_self, trivial⟩

theorem Inv.unmap (h : Inv c x) : Inv c (x.unmapped (c.unmap x.segment)) := by
  unfold Config.unmap
  split
  · exact h.unmapped_self
  · have hkept : ∀ s, s.log = x.segment.log ++ (x.segment.mappedMem.toList.flatMap fun pd =>
        unmapAndRelease pd.1 pd.2) → (x.unmapped s).mappings = [] := by
      intro s hlog
      show x.mappings.filter _ = _
      rw [hlog, List.drop_left, List.filter_eq_nil_iff]
      intro m hm
      have hmem : (m.address, m.handle) ∈ x.segment.mappedMem.toList :=
        h.mapped.mem_iff.mpr (List.mem_map.mpr ⟨m, hm, rfl⟩)
      simp only [decide_eq_true_eq, not_not]
      exact List.mem_flatMap.mpr ⟨_, hmem, List.mem_cons_self⟩
    refine ⟨placed_same h.placed ?_ ?_ ?_ _, ?_, ?_⟩
    · rfl
    · rfl
    · rfl
    · rw [hkept _ rfl]
      exact List.Perm.refl _
    · rw [hkept _ rfl]
      exact fun _ hm => absurd hm List.not_mem_nil

/-! ### Addresses in range -/

/-- In contiguous ranges, what is reserved begins at the first base and has the size of all ranges. -/
theorem Reserved.covers_iff (h : Reserved c x) (hcontiguous : Contiguous c x.segment) (a : ℕ) :
    Covers x.reservations a ↔ x.segment.globalVirtualAddress ≤ a ∧
      a < x.segment.globalVirtualAddress + c.rankCnt * c.reserveAlignedSize := by
  cases hflag : x.segment.singleReservation with
  | true =>
    rw [(h.single hflag).2.2]
    simp [Covers]
  | false =>
    rw [(h.perPe hflag).2]
    constructor
    · rintro ⟨r, hr, hle, hlt⟩
      obtain ⟨va, hva, rfl⟩ := List.mem_map.mp hr
      obtain ⟨rank, hrank⟩ := List.mem_iff_getElem?.mp hva
      have hcnt := (List.getElem?_eq_some_iff.mp hrank).1
      rw [h.length] at hcnt
      have hbase := Option.some.inj (hrank.symm.trans (hcontiguous.2 rank hcnt))
      have hend := Nat.mul_le_mul_right c.reserveAlignedSize (Nat.succ_le_of_lt hcnt)
      rw [Nat.succ_mul] at hend
      dsimp only at hle hlt
      omega
    · rintro ⟨hle, hlt⟩
      -- the rank whose range it is
      have hdiv := Nat.div_add_mod (a - x.segment.globalVirtualAddress) c.reserveAlignedSize
      have hmod := Nat.mod_lt (a - x.segment.globalVirtualAddress) h.size_pos
      have hcnt : (a - x.segment.globalVirtualAddress) / c.reserveAlignedSize < c.rankCnt :=
        Nat.div_lt_of_lt_mul (by rw [Nat.mul_comm]; omega)
      rw [Nat.mul_comm] at hdiv
      refine ⟨_, List.mem_map.mpr ⟨_, List.mem_of_getElem? (hcontiguous.2 _ hcnt), rfl⟩, ?_, ?_⟩
      · dsimp only
        omega
      · dsimp only
        omega

/-- A range lies in the reservation between its ends. -/
theorem Reserved.lies_iff (h : Reserved c x) (hcontiguous : Contiguous c x.segment) (start size : ℕ) :
    Lies x.reservations start size ↔ x.segment.globalVirtualAddress ≤ start ∧
      start + size ≤ x.segment.globalVirtualAddress + c.rankCnt * c.reserveAlignedSize := by
  have hcovers := h.covers_iff hcontiguous
  have hpos : 0 < c.rankCnt * c.reserveAlignedSize := Nat.mul_pos h.ranks_pos h.size_pos
  constructor
  · rintro ⟨⟨r, hr, hle, hend⟩, hbytes⟩
    -- a reservation is not empty, so its first and its last byte are covered
    have hsize : 0 < r.2 := by
      cases hflag : x.segment.singleReservation with
      | true =>
        rw [(h.single hflag).2.2] at hr
        rw [List.mem_singleton.mp hr]
        exact hpos
      | false =>
        rw [(h.perPe hflag).2] at hr
        obtain ⟨va, -, rfl⟩ := List.mem_map.mp hr
        exact h.size_pos
    have hfirst := (hcovers r.1).mp ⟨r, hr, le_refl _, by omega⟩
    have hlast := (hcovers (r.1 + r.2 - 1)).mp ⟨r, hr, by omega, by omega⟩
    refine ⟨hfirst.1.trans hle, ?_⟩
    rcases Nat.eq_zero_or_pos size with hzero | hsome
    · omega
    · have hbyte := (hcovers (start + size - 1)).mp (hbytes _ (by omega) (by omega))
      omega
  · rintro ⟨hle, hend⟩
    refine ⟨?_, fun a hstart hlt => (hcovers a).mpr ⟨hle.trans hstart, hlt.trans_le hend⟩⟩
    by_cases hlast : start = x.segment.globalVirtualAddress + c.rankCnt * c.reserveAlignedSize
    · obtain ⟨r, hr, hfrom, hto⟩ := (hcovers (start - 1)).mpr ⟨by omega, by omega⟩
      exact ⟨r, hr, by omega, by omega⟩
    · obtain ⟨r, hr, hfrom, hto⟩ := (hcovers start).mpr ⟨hle, by omega⟩
      exact ⟨r, hr, hfrom, hto.le⟩

/-- The query tests these. -/
theorem memoryInRange_iff {start size : ℕ} (hlt : start + size < 2 ^ 64)
    (hend : x.segment.globalVirtualAddress + x.totalVirtualSize < 2 ^ 64) :
    x.memoryInRange start size = true ↔ x.segment.globalVirtualAddress ≤ start ∧
      start + size ≤ x.segment.globalVirtualAddress + x.totalVirtualSize := by
  have hstart : wrap (start + size) = start + size := Nat.mod_eq_of_lt hlt
  have hstop : wrap (x.segment.globalVirtualAddress + x.totalVirtualSize)
      = x.segment.globalVirtualAddress + x.totalVirtualSize := Nat.mod_eq_of_lt hend
  rw [Layout.memoryInRange, hstart, hstop]
  split_ifs with hbelow hbehind
  · simp [hbelow]
  · simp
    omega
  · simp
    omega

theorem Inv.memoryInRange (h : Inv c x) {start size : ℕ}
    (hkeeps : Keeps c x (.memoryInRange start size)) : Good c x (.memoryInRange start size) := by
  obtain ⟨hlt, hsome, hcontiguous, hsingle⟩ := hkeeps
  show x.memoryInRange start size = true ↔ Lies x.reservations start size
  rcases h.placed with hun | hres
  · rw [memoryInRange_iff hlt (by rw [hun.unbased, hun.total]; decide), hun.unbased, hun.total,
      hun.reservations]
    refine ⟨fun hrange => absurd (hsome hun.unbased) (by omega), ?_⟩
    rintro ⟨⟨r, hr, -⟩, -⟩
    exact absurd hr List.not_mem_nil
  · have hranges := hcontiguous hres.based
    have hlies := hres.lies_iff hranges start size
    cases hflag : x.segment.singleReservation with
    | true =>
      have htotal := (hres.single hflag).2.1
      rw [memoryInRange_iff hlt (by rw [htotal]; have := hranges.1; omega), htotal]
      constructor
      · rintro ⟨hle, hend⟩
        exact hlies.mpr ⟨hle, by omega⟩
      · intro hin
        obtain ⟨rfl, rfl⟩ := hsingle hflag hin
        exact ⟨le_refl _, le_refl _⟩
    | false =>
      have htotal := (hres.perPe hflag).1
      rw [memoryInRange_iff hlt (by rw [htotal]; exact hranges.1), htotal, hlies]

end Invariant

/-! ## All calls -/

section Runs

variable {c} {x x' : Layout} {call : LayoutCall}

/-- A call keeps the invariant. -/
theorem inv_call (h : Inv c x) (hkeeps : Keeps c x call) (hstep : step c x call = some x') :
    Inv c x' := by
  cases call with
  | memoryInRange start size =>
    cases hstep
    exact h
  | call call =>
    cases call with
    | reserveMemorySpace address reply =>
      cases hstep
      exact h.reserveMemorySpace address hkeeps.1 hkeeps.2.1 hkeeps.2.2
    | unReserveMemorySpace => exact h.unReserveMemorySpace hkeeps hstep
    | allocLocalMemory size reply =>
      obtain ⟨s, hs, rfl⟩ := Option.map_eq_some_iff.mp hstep
      obtain ⟨r, hr, rfl⟩ := Option.map_eq_some_iff.mp hs
      exact h.same (same_allocLocalMemory hr)
    | registerMemory addr size =>
      cases hstep
      exact h.same ⟨rfl, rfl, rfl, rfl⟩
    | releaseSliceMemory slice =>
      cases hstep
      exact h.same (same_releaseSliceMemory slice)
    | importExInfo allExInfo =>
      cases hstep
      exact h.same (same_importExInfo allExInfo)
    | mmap reply =>
      obtain ⟨r, hr, rfl⟩ := Option.map_eq_some_iff.mp hstep
      obtain ⟨r', hr', hinv, -⟩ := h.mmap reply hkeeps
      rw [Option.some.inj (hr.symm.trans hr')]
      exact hinv
    | unmap =>
      cases hstep
      exact h.unmap
    | removeImported ranks =>
      cases hstep
      exact (h.removeImported ranks hkeeps).1

/-- A call is good. -/
theorem good_call (h : Inv c x) (hkeeps : Keeps c x call) : Good c x call := by
  cases call with
  | memoryInRange start size => exact h.memoryInRange hkeeps
  | call call =>
    cases call with
    | mmap reply =>
      obtain ⟨r, hr, -, hgood⟩ := h.mmap reply hkeeps
      exact ⟨r, hr, hgood⟩
    | removeImported ranks => exact (h.removeImported ranks hkeeps).2
    | _ => trivial

/-- In every sequence of calls that keeps to the condition, the three encodings agree with what is
reserved and mapped. -/
theorem addresses_agree (c : Config) (calls : List LayoutCall)
    (hkeeps : Always (step c) (Keeps c) Layout.init calls) :
    Always (step c) (Good c) Layout.init calls :=
  always_of_inv (fun _ _ _ h hk hs => inv_call h hk hs) (fun _ _ h hk => good_call h hk)
    inv_layout_init hkeeps

/-- Memory of the other rank is mapped, and removed again. -/
theorem addresses_agree_pair : Always (step pairConfig) (Good pairConfig) Layout.init
    [.call pairReserve, .call pairImport, .call (.mmap fun _ => ⟨true, true⟩),
      .call (.removeImported [1])] := by
  refine addresses_agree pairConfig _ ⟨⟨by decide +kernel, by decide +kernel, ?_⟩, fun x hx => ?_⟩
  · intro base hbase
    rw [← Option.some.inj hbase]
    decide +kernel
  obtain rfl := Option.some.inj hx
  refine ⟨trivial, fun x hx => ?_⟩
  obtain rfl := Option.some.inj hx
  refine ⟨fun _ => by decide +kernel, fun x hx => ⟨fun _ => ?_, fun _ _ => trivial⟩⟩
  rw [show x = (some x).getD Layout.init from rfl, ← hx]
  exact ⟨by decide +kernel, by decide +kernel⟩

/-- In one block of two ranges the first byte is not found: no total was written. -/
theorem not_inRange_block :
    ¬ ∀ (c : Config) (calls : List LayoutCall), Always (step c) (Good c) Layout.init calls := by
  intro hall
  obtain ⟨hgood, -⟩ :=
    (hall pairConfig [.call pairReserve, .memoryInRange hybmGvmStartAddr 1]).2 _ rfl
  have hreservations : (reserveMemorySpace pairConfig true ⟨some hybmGvmStartAddr, fun _ _ => none⟩
      .init).reservations = [(hybmGvmStartAddr, 2 ^ 31)] := by decide +kernel
  have hlies : Lies [(hybmGvmStartAddr, 2 ^ 31)] hybmGvmStartAddr 1 := by
    refine ⟨⟨_, List.mem_singleton.mpr rfl, le_refl _, Nat.le_add_right _ _⟩, fun a hle hlt =>
      ⟨_, List.mem_singleton.mpr rfl, hle, hlt.trans_le (Nat.add_le_add_left (by decide) _)⟩⟩
  have hfound := hgood.mpr (hreservations ▸ hlies)
  exact absurd hfound (by decide +kernel)

end Runs

end AscendShmem.VmmSegment.AddressTable
