import Mathlib

/-!
# The teams of one PE

`shmem_team.cpp`: a pool of teams and a 64-bit mask of the used pool entries, one copy on every PE.
A team is an arithmetic progression of global PE numbers; `pe_mapping` lists them in its first half
and inverts the list in its second half.

Numbers are C `int`s. `none` is undefined behaviour: an `int` that overflows, an index outside an
array, a shift by the width of the mask or more, a division by zero.
-/

namespace AscendShmem.Teams

/-- `ACLSHMEM_MAX_PES` -/
def maxPes : ℤ := 16384

/-- `ACLSHMEM_MAX_TEAMS` -/
def maxTeams : ℕ := 2048

/-- `ACLSHMEM_TEAM_INVALID` -/
def teamInvalid : ℤ := -1

/-- `ACLSHMEM_TEAM_WORLD` -/
def teamWorld : ℤ := 0

/-- `ACLSHMEM_SUCCESS` -/
def success : ℤ := 0

/-- `ACLSHMEM_INVALID_PARAM` -/
def invalidParam : ℤ := -1

/-- `ACLSHMEM_INNER_ERROR` -/
def innerError : ℤ := -4

/-- `ACLSHMEM_NOT_SUPPORTED` -/
def notSupported : ℤ := -100

/-- The result of an `int` operation. -/
def int32 (n : ℤ) : Option ℤ := if -2 ^ 31 ≤ n ∧ n < 2 ^ 31 then some n else none

/-- `aclshmemx_team_t`; `peMapping` has `2 * ACLSHMEM_MAX_PES` entries. -/
structure Team where
  mype : ℤ
  start : ℤ
  stride : ℤ
  size : ℤ
  teamIdx : ℤ
  peMapping : ℤ → ℤ

/-- `pe_mapping[i] = v`. -/
def store (peMapping : ℤ → ℤ) (i v : ℤ) : Option (ℤ → ℤ) :=
  if 0 ≤ i ∧ i < 2 * maxPes then some (Function.update peMapping i v) else none

/-- What one process holds: `g_instance_ctx`, `g_state`, `g_team_mask` and the team pool. -/
structure PeState where
  /-- `g_instance_ctx->id` -/
  instanceId : ℤ
  /-- `g_state.is_aclshmem_initialized` -/
  initialized : Bool
  /-- `g_aclshmem_team_pool != nullptr` -/
  poolAllocated : Bool
  mype : ℤ
  npes : ℤ
  teamMask : BitVec 64
  teamPool : ℤ → Team
  /-- `g_state.team_pools`, the copies in device memory -/
  devicePools : ℤ → Option Team

/-- What a call meets outside this code: the bytes its uninitialised `my_team` lies on, and whether
the device runtime carries out `device_team_update` and `update_device_state`. -/
structure Host where
  stack : ℤ → ℤ
  teamUpdate : Bool
  stateUpdate : Bool

/-! ## The mask -/

/-- `(g_team_mask >> i) & 1`. -/
def maskBit (mask : BitVec 64) (i : ℤ) : Option Bool :=
  if 0 ≤ i ∧ i < 64 then some (mask.getLsbD i.toNat) else none

/-- `1ULL << i`. -/
def bit (i : ℤ) : BitVec 64 := BitVec.twoPow 64 i.toNat

/-- The loop of `first_free_idx_fetch` from `i` on, with `fuel` entries to go. -/
def firstFreeFrom (mask : BitVec 64) : ℕ → ℤ → Option (ℤ × BitVec 64)
  | 0, _ => some (-1, mask)
  | fuel + 1, i => do
    let used ← maskBit mask i
    if used then firstFreeFrom mask fuel (i + 1) else some (i, mask ||| bit i)

/-- `first_free_idx_fetch`: the index and the new mask. -/
def firstFreeIdxFetch (mask : BitVec 64) : Option (ℤ × BitVec 64) :=
  firstFreeFrom mask maxTeams 0

/-- `is_valid_team` -/
def PeState.isValidTeam (s : PeState) (team : ℤ) : Option Bool :=
  if s.initialized ∧ s.poolAllocated ∧ 0 ≤ team ∧ team < maxTeams then maskBit s.teamMask team
  else some false

/-! ## Splitting -/

/-- `aclshmem_team_destroy`; it says nothing to its caller. -/
def PeState.destroy (s : PeState) (team : ℤ) : Option PeState := do
  let valid ← s.isValidTeam team
  if valid then
    some { s with
      devicePools := Function.update s.devicePools team none
      teamMask := s.teamMask ^^^ bit team }
  else some s

/-- The arguments of `aclshmem_team_split_strided`. -/
structure SplitArgs where
  parentTeam : ℤ
  peStart : ℤ
  peStride : ℤ
  peSize : ℤ
deriving DecidableEq, Repr

/-- What a split returns, what it leaves behind `new_team`, and the state. -/
structure SplitResult where
  ret : ℤ
  newTeam : Option ℤ
  state : PeState

/-- `aclshmem_team_split_strided_precheck`; `newTeam` is `none` for the null pointer. -/
def PeState.splitStridedPrecheck (s : PeState) (a : SplitArgs) (newTeam : Option ℤ) :
    Option (ℤ × Option ℤ) :=
  match newTeam with
  | none => some (invalidParam, none)
  | some _ => do
    let valid ← s.isValidTeam a.parentTeam
    if !valid then some (invalidParam, some teamInvalid)
    else if maxPes ≤ a.peStart ∨ maxPes ≤ a.peStride ∨ maxPes < a.peSize then
      some (invalidParam, some teamInvalid)
    else some (success, some teamInvalid)

/-- The loop that fills `my_team.pe_mapping`, after `n` rounds. -/
def fillMapping (stack : ℤ → ℤ) (start stride : ℤ) : ℕ → Option (ℤ → ℤ)
  | 0 => some stack
  | n + 1 => do
    let peMapping ← fillMapping stack start stride n
    let offset ← int32 (n * stride)
    let tempGlobalPe ← int32 (start + offset)
    let peMapping ← store peMapping n tempGlobalPe
    let inverse ← int32 (tempGlobalPe + maxPes)
    store peMapping inverse n

/-- The end of `aclshmem_team_split_strided`: the team gets a pool entry, or loses it again. -/
def PeState.enroll (s : PeState) (myTeam : Team) (host : Host) (newTeam : Option ℤ) :
    Option SplitResult := do
  let (teamIdx, teamMask) ← firstFreeIdxFetch s.teamMask
  let s := { s with teamMask := teamMask }
  if teamIdx = -1 then some ⟨innerError, newTeam, s⟩
  else
    let myTeam := { myTeam with teamIdx := teamIdx }
    let s := { s with teamPool := Function.update s.teamPool teamIdx myTeam }
    if !host.teamUpdate then
      let s ← s.destroy teamIdx
      some ⟨innerError, newTeam, s⟩
    else
      let s := { s with devicePools := Function.update s.devicePools teamIdx (some myTeam) }
      if !host.stateUpdate then
        let s ← s.destroy teamIdx
        some ⟨innerError, newTeam, s⟩
      else some ⟨success, some teamIdx, s⟩

/-- `aclshmem_team_split_strided` -/
def PeState.splitStrided (s : PeState) (a : SplitArgs) (host : Host) (newTeam : Option ℤ) :
    Option SplitResult := do
  if s.instanceId ≠ 0 then some ⟨notSupported, newTeam, s⟩
  else
    let (ret, newTeam) ← s.splitStridedPrecheck a newTeam
    if ret ≠ success then some ⟨ret, newTeam, s⟩
    else
      let srcTeam := s.teamPool a.parentTeam
      if a.peStart < 0 ∨ srcTeam.size ≤ a.peStart ∨ a.peSize ≤ 0 ∨ srcTeam.size < a.peSize ∨
          a.peStride < 1 then
        some ⟨invalidParam, newTeam, s⟩
      else
        let globalPe := srcTeam.mype
        let globalPeStart := srcTeam.peMapping a.peStart
        let globalPeStride ← int32 (srcTeam.stride * a.peStride)
        let reach ← int32 (globalPeStride * (a.peSize - 1))
        let globalPeEnd ← int32 (globalPeStart + reach)
        if s.npes ≤ globalPeStart ∨ s.npes ≤ globalPeEnd then some ⟨invalidParam, newTeam, s⟩
        else
          let distance ← int32 (globalPe - globalPeStart)
          if globalPeStride = 0 then none
          else
            let mype := distance.tdiv globalPeStride
            if globalPe < globalPeStart ∨ distance.tmod globalPeStride ≠ 0 ∨ a.peSize ≤ mype then
              -- this PE is not a member of the new team
              some ⟨success, newTeam, s⟩
            else
              let peMapping ← fillMapping host.stack globalPeStart globalPeStride a.peSize.toNat
              s.enroll ⟨mype, globalPeStart, globalPeStride, a.peSize, -1, peMapping⟩ host newTeam

/-! ## The world -/

/-- `aclshmemi_team_populate_pe_mappings_from_constant_stride`, first loop. -/
def constantStride (peMapping : ℤ → ℤ) (start stride : ℤ) : ℕ → Option (ℤ → ℤ)
  | 0 => some peMapping
  | n + 1 => do
    let peMapping ← constantStride peMapping start stride n
    let offset ← int32 (n * stride)
    let globalPeIndex ← int32 (start + offset)
    store peMapping n globalPeIndex

/-- `aclshmemi_team_populate_from_world_pe_mapping` -/
def invertMapping (peMapping : ℤ → ℤ) : ℕ → Option (ℤ → ℤ)
  | 0 => some peMapping
  | n + 1 => do
    let peMapping ← invertMapping peMapping n
    let inverse ← int32 (peMapping n + maxPes)
    store peMapping inverse n

/-- A pool entry before its first use. -/
def Team.blank : Team where
  mype := -1
  start := -1
  stride := -1
  size := -1
  teamIdx := -1
  peMapping := fun i => if i = 0 then -1 else 0

/-- The first instance of a process after `aclshmemi_team_init(rank, size)` and the initialisation
around it have succeeded. -/
def PeState.init (rank size : ℤ) : Option PeState := do
  let peMapping ← constantStride Team.blank.peMapping 0 1 size.toNat
  let peMapping ← invertMapping peMapping size.toNat
  let world : Team := ⟨rank, 0, 1, size, teamWorld, peMapping⟩
  some {
    instanceId := 0
    initialized := true
    poolAllocated := true
    mype := rank
    npes := size
    teamMask := bit teamWorld
    teamPool := Function.update (fun _ => Team.blank) teamWorld world
    devicePools := Function.update (fun _ => none) teamWorld (some world) }

end AscendShmem.Teams
