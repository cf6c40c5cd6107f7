import Mathlib
import AscendShmem.Lib.Ledger
import AscendShmem.Lib.OrderedSet

/-!
# The VMM based memory segment

`HybmVmmBasedSegment`: one range of virtual addresses for each rank, physical memory created and
mapped for the local one, memory of the other ranks imported and mapped for theirs. What a driver
call answers is an input of the operation that makes it; a handle the driver returns is the number
of handles it returned before. An operation is `none` when it reads a vector past its end.
-/

namespace AscendShmem.VmmSegment

open Lib

/-! ## Constants and options -/

/-- `uint64_t` arithmetic. -/
def wrap (n : ℕ) : ℕ := n % 2 ^ 64

/-- `ALIGN_UP` -/
def alignUp (val al : ℕ) : ℕ := wrap (val + (al - 1)) &&& (2 ^ 64 - 1 - (al - 1))

/-- `DEVICE_LARGE_PAGE_SIZE` -/
def deviceLargePageSize : ℕ := 2 * 1024 * 1024

/-- `DEVMM_HEAP_SIZE` -/
def devmmHeapSize : ℕ := 2 ^ 30

/-- `HYBM_GVM_START_ADDR` -/
def hybmGvmStartAddr : ℕ := 0x140000000000

/-- `HYBM_MAX_SINGLE_RESERVE_SIZE` -/
def hybmMaxSingleReserveSize : ℕ := 128 * 1024 * 1024 * 1024

/-- `SVM_END_ADDR - HYBM_DEVICE_INFO_SIZE`. -/
def hybmDeviceMetaAddr : ℕ :=
  0x100000000000 + 0x80000000000 - 2 ^ 30 - (64 * 1024 * 511 + (128 * 511 + 128))

/-- `HBM_SLICE_EXPORT_INFO_MAGIC` -/
def hbmSliceExportInfoMagic : ℕ := 0xAABB1234FFFFEE01

/-- `invalidSuperPodId` -/
def invalidSuperPodId : ℕ := 0xFFFFFFFF

/-- `ASC910B_CONN_RANKS` -/
def asc910BConnRanks : ℕ := 8

/-- The results of the segment. -/
inductive Result where
  | success
  | invalidParam
  | innerError
  | mallocFailed
  | notInited
  | dlFuncFailed
  deriving DecidableEq

/-- The kind of memory. -/
inductive MemSegType where
  | hbm
  | dram
  deriving DecidableEq

/-- `AscendSocType` -/
inductive AscendSocType where
  | unknown
  | ascend910B
  | ascend910C
  | ascend950
  deriving DecidableEq

/-- `MemSegmentOptions` and the statics of `MemSegment`: they do not change. -/
structure Config where
  segType : MemSegType
  shared : Bool
  size : ℕ
  rankId : ℕ
  rankCnt : ℕ
  socType : AscendSocType
  superPodId : ℕ
  serverId : ℕ
  logicDeviceId : ℕ

/-- What is exported of a slice. -/
structure MemExportInfo where
  magic : ℕ
  rankId : ℕ
  size : ℕ
  superPodId : ℕ
  serverId : ℕ
  logicDeviceId : ℕ
  shareHandle : ℕ
  deriving DecidableEq

/-- A `MemSlice`. Two pointers to slices are equal when the slices are the same `object`. -/
structure MemSlice where
  object : ℕ
  index : ℕ
  vAddress : ℕ
  size : ℕ
  deriving DecidableEq

/-- `MemSliceStatus` -/
structure MemSliceStatus where
  slice : MemSlice
  handle : ℕ
  deriving DecidableEq

/-! ## The driver -/

/-- A call of the driver that takes or returns a handle or an address. -/
inductive DriverCall where
  | reserveAddress (address : ℕ)
  | releaseAddress (address : ℕ)
  | memCreate (handle : ℕ)
  | memImport (handle : ℕ)
  | memExport (handle : ℕ)
  | memMap (address handle : ℕ) (mapped : Bool)
  | memUnmap (address : ℕ)
  | memRelease (handle : ℕ)
  deriving DecidableEq

/-- What the driver answers while addresses are reserved: to the one reservation for all ranks, and
to the one of a rank at an expected address. `none` is an error code. -/
structure ReserveReply where
  single : Option ℕ
  perPe : ℕ → ℕ → Option ℕ

/-- What succeeds while local memory is allocated. -/
structure AllocReply where
  created : Bool
  exported : Bool
  translated : Bool
  attributed : Bool
  serialized : Bool
  mapped : Bool

/-- One exchanged info: what it deserializes to, and what `EnableRemotePeerAccess` returns for it. -/
structure ImportReply where
  info : Option MemExportInfo
  peerAccess : Result

/-- What the driver answers to a mapping. -/
structure MmapReply where
  imported : Bool
  mapped : Bool

/-! ## The segment -/

/-- The fields of the segment, and the calls of the driver. -/
structure Segment where
  imports : List MemExportInfo
  globalVirtualAddress : ℕ
  reservedVirtualAddresses : List ℕ
  allocatedSize : ℕ
  sliceCount : ℕ
  singleReservation : Bool
  slices : OrderedSet (Prod.fst : ℕ × MemSliceStatus → ℕ)
  mappedMem : OrderedSet (Prod.fst : ℕ × ℕ → ℕ)
  /-- The `MemSlice` objects made so far. -/
  objects : ℕ
  /-- The handles the driver returned so far. -/
  handles : ℕ
  log : List DriverCall

/-- The segment after its construction. -/
def Segment.init : Segment where
  imports := []
  globalVirtualAddress := 0
  reservedVirtualAddresses := []
  allocatedSize := 0
  sliceCount := 0
  singleReservation := false
  slices := OrderedSet.empty
  mappedMem := OrderedSet.empty
  objects := 0
  handles := 0
  log := []

/-- The segment after calls of the driver. -/
def Segment.call (s : Segment) (calls : List DriverCall) : Segment :=
  { s with log := s.log ++ calls }

/-- `HalMemUnmap` and `HalMemRelease`; what they return is ignored. -/
def unmapAndRelease (address handle : ℕ) : List DriverCall := [.memUnmap address, .memRelease handle]

variable (c : Config)

/-- `ValidateOptions` -/
def Config.validateOptions : Result :=
  if c.size = 0 ∨ c.size % deviceLargePageSize ≠ 0 then .invalidParam
  else if (2 ^ 64 - 1) / c.size < c.rankCnt then .invalidParam
  else .success

/-- The size of a rank's window. -/
def Config.reserveAlignedSize : ℕ := alignUp c.size devmmHeapSize

/-- The address of a successful reservation that is not null. -/
def reserved (reply : Option ℕ) : Option ℕ := reply.filter (· ≠ 0)

/-- The loop over the ranks of a large heap: `n` ranks are left, the next one is `i`. -/
def reservePerPe (alignedSize : ℕ) (reply : ℕ → ℕ → Option ℕ) :
    ℕ → ℕ → ℕ → Segment → Result × Segment
  | 0, _, _, s => (.success, s)
  | n + 1, i, curBase, s =>
    match reserved (reply i curBase) with
    | none =>
      (.mallocFailed,
        { s.call (s.reservedVirtualAddresses.map .releaseAddress) with
          reservedVirtualAddresses := [] })
    | some base =>
      reservePerPe alignedSize reply n (i + 1) (wrap (base + alignedSize))
        { s.call [.reserveAddress base] with
          reservedVirtualAddresses := s.reservedVirtualAddresses ++ [base] }

/-- The addresses of `n` ranks in one reservation. -/
def rankAddresses (alignedSize : ℕ) : ℕ → ℕ → List ℕ
  | _, 0 => []
  | currentAddr, n + 1 =>
    currentAddr :: rankAddresses alignedSize (wrap (currentAddr + alignedSize)) n

/-- `ReserveEachPeMemorySpace` -/
def Config.reserveEachPeMemorySpace (reserveAlignedSize totalReservedSize expectSt : ℕ)
    (reply : ReserveReply) (s : Segment) : Result × Segment :=
  if hybmDeviceMetaAddr < wrap (expectSt + totalReservedSize) then (.invalidParam, s)
  else if c.socType = .ascend950 ∨ totalReservedSize < hybmMaxSingleReserveSize then
    match reserved reply.single with
    | none => (.mallocFailed, s)
    | some base =>
      (.success,
        { s.call [.reserveAddress base] with
          reservedVirtualAddresses :=
            s.reservedVirtualAddresses ++ rankAddresses reserveAlignedSize base c.rankCnt
          singleReservation := true })
  else reservePerPe reserveAlignedSize reply.perPe c.rankCnt 0 expectSt s

/-- `ReserveMemorySpace`; `address` says whether the pointer for the result is there. -/
def Config.reserveMemorySpace (address : Bool) (reply : ReserveReply) (s : Segment) :
    Result × Segment :=
  if ¬ address then (.invalidParam, s)
  else if c.validateOptions ≠ .success then (.invalidParam, s)
  else if s.globalVirtualAddress ≠ 0 then (.innerError, s)
  else if c.rankCnt ≤ c.rankId then (.invalidParam, s)
  else
    match c.reserveEachPeMemorySpace c.reserveAlignedSize (wrap (c.rankCnt * c.reserveAlignedSize))
      hybmGvmStartAddr reply s with
    | (.success, s) =>
      (.success,
        { s with
          globalVirtualAddress := s.reservedVirtualAddresses.headD 0
          allocatedSize := 0
          sliceCount := 0 })
    | (_, s) => (.mallocFailed, s)

/-- `ReleaseSliceMemory` -/
def Segment.releaseSliceMemory (s : Segment) : Option MemSlice → Result × Segment
  | none => (.invalidParam, s)
  | some slice =>
    match s.slices.find slice.index with
    | none => (.invalidParam, s)
    | some pos =>
      if pos.2.slice ≠ slice then (.invalidParam, s)
      else
        (.success,
          { s.call (unmapAndRelease slice.vAddress pos.2.handle) with
            slices := s.slices.erase pos.1 })

/-- `while (!slices_.empty())`, for at most as many turns as there were slices. -/
def Segment.releaseSlices : ℕ → Segment → Option Segment
  | 0, s => if s.slices.toList = [] then some s else none
  | n + 1, s =>
    match s.slices.toList with
    | [] => some s
    | pos :: _ => (s.releaseSliceMemory (some pos.2.slice)).2.releaseSlices n

/-- The reservations the segment releases: one for all ranks, or one for each. -/
def Segment.reservations (s : Segment) : List ℕ :=
  if s.singleReservation then s.reservedVirtualAddresses.take 1 else s.reservedVirtualAddresses

/-- `UnReserveMemorySpace` -/
def Segment.unReserveMemorySpace (s : Segment) : Option Segment := do
  let s ← s.releaseSlices s.slices.toList.length
  some
    { s.call (s.reservations.map .releaseAddress) with
      reservedVirtualAddresses := []
      globalVirtualAddress := 0
      allocatedSize := 0
      sliceCount := 0
      singleReservation := false }

/-- `ExportInner`, as far as handles go. -/
def Config.exportInner (slice : MemSlice) (reply : AllocReply) (s : Segment) :
    Option (Result × Segment) :=
  if ¬ c.shared then some (.success, s)
  else
    match s.slices.find slice.index with
    | none => none
    | some pos =>
      let s := s.call [.memExport pos.2.handle]
      if ¬ reply.exported then some (.dlFuncFailed, s)
      else if ¬ reply.translated ∨ ¬ reply.attributed ∨ ¬ reply.serialized then some (.innerError, s)
      else some (.success, s)

/-- A created handle and its slice go into the table; `emplace` keeps an entry that is already under
the index. -/
def Segment.enter (s : Segment) (slice : MemSlice) : Segment :=
  { s.call [.memCreate s.handles] with
    allocatedSize := wrap (s.allocatedSize + slice.size)
    sliceCount := (s.sliceCount + 1) % 2 ^ 16
    objects := s.objects + 1
    handles := s.handles + 1
    slices := s.slices.emplace (slice.index, ⟨slice, s.handles⟩) }

/-- `AllocLocalMemory` -/
def Config.allocLocalMemory (size : ℕ) (reply : AllocReply) (s : Segment) :
    Option (Result × Option MemSlice × Segment) :=
  if size % deviceLargePageSize ≠ 0 ∨ c.reserveAlignedSize < wrap (size + s.allocatedSize) then
    some (.invalidParam, none, s)
  else if s.globalVirtualAddress = 0 then some (.notInited, none, s)
  else
    match s.reservedVirtualAddresses[c.rankId]? with
    | none => none
    | some localVirtualBase =>
      let allocAddr := wrap (localVirtualBase + s.allocatedSize)
      if ¬ reply.created then some (.dlFuncFailed, none, s)
      else
        let handle := s.handles
        let slice : MemSlice := ⟨s.objects, s.sliceCount, allocAddr, size⟩
        let s := s.enter slice
        match c.exportInner slice reply s with
        | none => none
        | some (.success, s) =>
          let s := s.call [.memMap allocAddr handle reply.mapped]
          if ¬ reply.mapped then
            some (.dlFuncFailed, some slice, s.call [.memRelease handle])
          else some (.success, some slice, s)
        | some (_, s) => some (.innerError, some slice, s.call [.memRelease handle])

/-- `RegisterMemory` -/
def Segment.registerMemory (addr size : ℕ) (s : Segment) : MemSlice × Segment :=
  (⟨s.objects, s.sliceCount, addr, size⟩,
    { s with
      sliceCount := (s.sliceCount + 1) % 2 ^ 16
      objects := s.objects + 1 })

/-- `CanLocalHostReaches` -/
def Config.canLocalHostReaches (superPodId serverId deviceId : ℕ) : Bool :=
  superPodId = c.superPodId ∧ serverId = c.serverId ∧ (c.socType ≠ .ascend910B ∨
    deviceId / asc910BConnRanks = c.logicDeviceId / asc910BConnRanks)

/-- `IsSdmaAccessible` of where an imported slice lies. -/
def Config.canMapRemote (rmi : MemExportInfo) : Bool :=
  if rmi.serverId = c.serverId then
    c.socType ≠ .ascend910B ∨
      rmi.logicDeviceId / asc910BConnRanks = c.logicDeviceId / asc910BConnRanks
  else if rmi.superPodId = invalidSuperPodId ∨ c.superPodId = invalidSuperPodId then false
  else rmi.superPodId = c.superPodId

/-- The loop of `Import`; `heapSize` is there from the second info on. -/
def Config.checkImports : Option ℕ → List ImportReply → Except Result (List MemExportInfo)
  | _, [] => .ok []
  | heapSize, reply :: rest =>
    match reply.info with
    | none => .error .invalidParam
    | some info =>
      if info.magic ≠ hbmSliceExportInfoMagic then .error .invalidParam
      else if heapSize.getD info.size ≠ info.size then .error .invalidParam
      else if c.segType = .hbm ∧ info.rankId ≠ c.rankId ∧
          c.canLocalHostReaches info.superPodId info.serverId info.logicDeviceId ∧
          reply.peerAccess ≠ .success then .error reply.peerAccess
      else do
        let rest ← Config.checkImports (some (heapSize.getD info.size)) rest
        .ok (info :: rest)

/-- `Import`. -/
def Config.importExInfo (allExInfo : List ImportReply) (s : Segment) : Result × Segment :=
  if ¬ c.shared then (.success, s)
  else
    match c.checkImports none allExInfo with
    | .error e => (e, s)
    | .ok desInfos => (.success, { s with imports := s.imports ++ desInfos })

/-- The loop of `Mmap` over what is left of `imports_`, the next one being number `i`. -/
def Config.mmapImports (reply : ℕ → MmapReply) :
    ℕ → List MemExportInfo → Segment → Option (Result × Segment)
  | _, [], s => some (.success, s)
  | i, im :: rest, s =>
    if im.rankId = c.rankId then Config.mmapImports reply (i + 1) rest s
    else
      match s.reservedVirtualAddresses[im.rankId]? with
      | none => none
      | some remoteAddress =>
        if (s.mappedMem.find remoteAddress).isSome then Config.mmapImports reply (i + 1) rest s
        else if ¬ c.canMapRemote im then Config.mmapImports reply (i + 1) rest s
        else if ¬ (reply i).imported then some (.innerError, s)
        else
          let handle := s.handles
          let s := { s.call [.memImport handle, .memMap remoteAddress handle (reply i).mapped] with
            handles := s.handles + 1 }
          if ¬ (reply i).mapped then some (.innerError, s.call [.memRelease handle])
          else
            Config.mmapImports reply (i + 1) rest
              { s with mappedMem := s.mappedMem.emplace (remoteAddress, handle) }

/-- `Mmap` -/
def Config.mmap (reply : ℕ → MmapReply) (s : Segment) : Option (Result × Segment) :=
  if ¬ c.shared then some (.success, s)
  else
    match c.mmapImports reply 0 s.imports s with
    | some (.success, s) => some (.success, { s with imports := [] })
    | r => r

/-- `Unmap` -/
def Config.unmap (s : Segment) : Segment :=
  if ¬ c.shared then s
  else
    { s.call (s.mappedMem.toList.flatMap fun pd => unmapAndRelease pd.1 pd.2) with
      mappedMem := OrderedSet.empty }

/-- What `RemoveImported` does for one rank. -/
def Config.removeRank (s : Segment) (rank : ℕ) : Segment :=
  let addr := wrap (s.globalVirtualAddress + wrap (c.reserveAlignedSize * rank))
  let stop := wrap (addr + c.reserveAlignedSize)
  { s.call ((s.mappedMem.range addr stop).flatMap fun pd => unmapAndRelease pd.1 pd.2) with
    mappedMem := s.mappedMem.eraseRange addr stop }

/-- `RemoveImported` -/
def Config.removeImported (ranks : List ℕ) (s : Segment) : Result × Segment :=
  if ¬ c.shared then (.success, s)
  else if ranks.any fun rank => c.rankCnt ≤ rank then (.invalidParam, s)
  else (.success, ranks.foldl c.removeRank s)

/-! ## Runs -/

/-- A call of the segment. -/
inductive Call where
  | reserveMemorySpace (address : Bool) (reply : ReserveReply)
  | unReserveMemorySpace
  | allocLocalMemory (size : ℕ) (reply : AllocReply)
  | registerMemory (addr size : ℕ)
  | releaseSliceMemory (slice : Option MemSlice)
  | importExInfo (allExInfo : List ImportReply)
  | mmap (reply : ℕ → MmapReply)
  | unmap
  | removeImported (ranks : List ℕ)

/-- The segment after a call. -/
def Config.step (s : Segment) : Call → Option Segment
  | .reserveMemorySpace address reply => some (c.reserveMemorySpace address reply s).2
  | .unReserveMemorySpace => s.unReserveMemorySpace
  | .allocLocalMemory size reply => (c.allocLocalMemory size reply s).map fun r => r.2.2
  | .registerMemory addr size => some (s.registerMemory addr size).2
  | .releaseSliceMemory slice => some (s.releaseSliceMemory slice).2
  | .importExInfo allExInfo => some (c.importExInfo allExInfo s).2
  | .mmap reply => (c.mmap reply s).map Prod.snd
  | .unmap => some (c.unmap s)
  | .removeImported ranks => some (c.removeImported ranks s).2

/-- The segment after a sequence of calls. -/
def Config.run (s : Segment) (calls : List Call) : Option Segment := calls.foldlM c.step s

end AscendShmem.VmmSegment
