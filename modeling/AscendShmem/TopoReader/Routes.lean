import AscendShmem.Lib.Bytes
import AscendShmem.TopoReader.EidIndexes

/-!
# Routes to the peers

`BuildSyncEndpoints` sends every rank the endpoints of all ranks, `TopoQuerier` finds from them a local
and a remote index for a peer, and `PrepareOpenDevice` checks the remote one and makes an endpoint for the
local one. MessagePack is a parameter with its round trip.
-/

namespace AscendShmem.TopoReader

open Lib

/-- `MeshTopoEdge` -/
structure MeshTopoEdge where
  localA : UInt32
  localB : UInt32
  localAPorts : List String
  localBPorts : List String

/-- What `TopoQuerier` reads of a topology file. -/
structure TopoInfo where
  meshTopoEdges : List MeshTopoEdge

/-- `SyncEndpoint` -/
structure SyncEndpoint where
  netLayer : UInt32
  netInstanceId : String
  planeId : String
  ports : List String
  eidIndex : UInt32
deriving DecidableEq

/-- The MessagePack texts of a list of endpoints; the format counts in at most 32 bits. -/
structure Msgpack where
  toMsgpack : List SyncEndpoint → List UInt8
  fromMsgpack : List UInt8 → Option (List SyncEndpoint)
  fromMsgpack_toMsgpack : ∀ endpoints, (toMsgpack endpoints).length < 2 ^ 32 →
    fromMsgpack (toMsgpack endpoints) = some endpoints
  toMsgpack_ne_nil : ∀ endpoints, toMsgpack endpoints ≠ []

/-! ## The exchange -/

/-- The endpoint of an entry. -/
def syncEndpoint (entry : EidEntry) : SyncEndpoint :=
  ⟨entry.rankAddr.addr.levelInfo.netLayer, entry.rankAddr.addr.levelInfo.netInstanceId,
    entry.rankAddr.addr.planeId, entry.rankAddr.addr.ports, entry.eidIndex⟩

/-- The endpoints a rank sends. -/
def localEndpoints (root : RootInfo) : List SyncEndpoint :=
  root.eidIndexToRankAddr.toList.map syncEndpoint

/-- `BuildSyncEndpoints` on all ranks: what it gives to each of them. `allgather` takes the number of
bytes as an `int`; where a text has more there is no result to speak of. -/
def buildSyncEndpoints (codec : Msgpack) (roots : List RootInfo) : Option (List (List SyncEndpoint)) :=
  let blobs := roots.map fun root => codec.toMsgpack (localEndpoints root)
  let maxLen := (blobs.map List.length).foldl max 0
  let recvBuf := blobs.flatMap fun blob => blob ++ List.replicate (maxLen - blob.length) 0
  if 2 ^ 31 ≤ maxLen then none
  else if maxLen = 0 then none
  else (blobs.map List.length).zipIdx.mapM fun p =>
    if p.1 = 0 then some [] else codec.fromMsgpack (slice recvBuf (p.2 * maxLen) p.1)

/-! ## Routes -/

/-- `TopoQuerier` -/
structure TopoQuerier where
  rootInfo : RootInfo
  topoInfo : TopoInfo
  myRank : ℕ
  rankToLocalId : List UInt32
  rankIdxToSyncEndpoint : List (List SyncEndpoint)

/-- What `GetEidRoute` returns. -/
structure EidRoute where
  localEidIndex : UInt32
  localEidRaw : EidData
  remoteEidIndex : UInt32
deriving DecidableEq

/-- The instance of a rank on a layer. -/
def netInstanceIdAt (rankIdxToSyncEndpoint : List (List SyncEndpoint)) (rank : ℕ) (netLayer : UInt32) :
    String :=
  match rankIdxToSyncEndpoint[rank]? with
  | none => ""
  | some endpoints =>
    ((endpoints.find? fun endpoint => endpoint.netLayer = netLayer).map SyncEndpoint.netInstanceId).getD ""

/-- `ResolveEidIndexByPort` -/
def resolveEidIndexByPort (endpoints : List SyncEndpoint) (port : String) (netLayer : UInt32) :
    Option UInt32 :=
  (endpoints.find? fun endpoint => endpoint.netLayer = netLayer ∧ port ∈ endpoint.ports).map
    SyncEndpoint.eidIndex

/-- `ResolveLocalEidByPort` -/
def resolveLocalEidByPort (root : RootInfo) (localPort : String) : Option (UInt32 × EidData) :=
  (root.portsToRankAddr.find localPort).bind fun portItem =>
    (root.eidIndexToRankAddr.toList.find? fun item =>
      item.rankAddr.object = portItem.rankAddr.object).map fun item =>
        (item.eidIndex, portItem.rankAddr.addr.eidData)

/-- `ResolveLocalEidByIndex` -/
def resolveLocalEidByIndex (root : RootInfo) (eidIndex : UInt32) : Option EidData :=
  (root.eidIndexToRankAddr.find eidIndex.toNat).map fun item => item.rankAddr.addr.eidData

/-- The ports of an edge between two local ids, seen from the first. -/
def edgePorts (myLocalId peerLocalId : UInt32) (edge : MeshTopoEdge) : Option (String × String) :=
  match edge.localAPorts, edge.localBPorts with
  | portA :: _, portB :: _ =>
    if edge.localA = myLocalId ∧ edge.localB = peerLocalId then some (portA, portB)
    else if edge.localB = myLocalId ∧ edge.localA = peerLocalId then some (portB, portA)
    else none
  | _, _ => none

/-- The ports of the first such edge, where neither is empty. -/
def meshPorts (topoInfo : TopoInfo) (myLocalId peerLocalId : UInt32) : Option (String × String) :=
  (topoInfo.meshTopoEdges.findSome? (edgePorts myLocalId peerLocalId)).bind fun ports =>
    if ports.1 = "" ∨ ports.2 = "" then none else some ports

namespace TopoQuerier

variable (querier : TopoQuerier) (targetRank : ℕ)

/-- `GetEidRouteMesh1D` -/
def getEidRouteMesh1D : Option EidRoute :=
  let myInstance := netInstanceIdAt querier.rankIdxToSyncEndpoint querier.myRank 0
  let targetInstance := netInstanceIdAt querier.rankIdxToSyncEndpoint targetRank 0
  if myInstance = "" ∨ myInstance ≠ targetInstance then none
  else do
    let myLocalId ← querier.rankToLocalId[querier.myRank]?
    let peerLocalId ← querier.rankToLocalId[targetRank]?
    let ports ← meshPorts querier.topoInfo myLocalId peerLocalId
    let found ← resolveLocalEidByPort querier.rootInfo ports.1
    let peerEndpoints ← querier.rankIdxToSyncEndpoint[targetRank]?
    let remoteEidIndex ← resolveEidIndexByPort peerEndpoints ports.2 0
    some ⟨found.1, found.2, remoteEidIndex⟩

/-- Two endpoints on one plane. -/
def Shares (mine peer : SyncEndpoint) : Prop :=
  mine.netLayer = peer.netLayer ∧ mine.netInstanceId = peer.netInstanceId ∧
    mine.planeId = peer.planeId ∧ mine.netInstanceId ≠ ""

instance (mine peer : SyncEndpoint) : Decidable (Shares mine peer) :=
  inferInstanceAs (Decidable (_ ∧ _ ∧ _ ∧ _))

/-- `GetEidRouteClos` -/
def getEidRouteClos : Option EidRoute := do
  let myEndpoints ← querier.rankIdxToSyncEndpoint[querier.myRank]?
  let peerEndpoints ← querier.rankIdxToSyncEndpoint[targetRank]?
  let pair ← myEndpoints.findSome? fun mine =>
    (peerEndpoints.find? fun peer => Shares mine peer).map fun peer => (mine, peer)
  let localEidRaw ← resolveLocalEidByIndex querier.rootInfo pair.1.eidIndex
  some ⟨pair.1.eidIndex, localEidRaw, pair.2.eidIndex⟩

/-- `GetEidRoute` -/
def getEidRoute : Option EidRoute :=
  (querier.getEidRouteMesh1D targetRank).orElse fun _ => querier.getEidRouteClos targetRank

end TopoQuerier

/-! ## Opening a device -/

/-- An endpoint handle with the EID that it was created for. -/
structure Endpoint where
  eidIndex : UInt32
  eid : EidData
deriving DecidableEq

/-- The endpoints are ordered by their index. -/
def Endpoint.key (endpoint : Endpoint) : ℕ := endpoint.eidIndex.toNat

/-- What `PrepareOpenDevice` fills in. -/
structure Device where
  endpoints : OrderedSet Endpoint.key
  peerEidIndexMap : List (ℕ × UInt32)
  peerRemoteEidIndexMap : List (ℕ × UInt32)

/-- A device without endpoints. -/
def Device.init : Device := ⟨OrderedSet.empty, [], []⟩

/-- Why the routes are not prepared. -/
inductive PrepareError where
  | noEidSlots
  | endpointsNotGathered
  | noRoute (peer : ℕ)
  | remoteEid (peer : ℕ) (remoteEidIndex : UInt32)
  | createEndpoint (peer : ℕ)
deriving DecidableEq

/-- `CreateEndpoint`; `hcomm` says which endpoints the library creates. -/
def Device.createEndpoint (device : Device) (hcomm : Endpoint → Bool) (endpoint : Endpoint) :
    Option Device :=
  if (device.endpoints.find endpoint.key).isSome then some device
  else if hcomm endpoint then some { device with endpoints := device.endpoints.assign endpoint }
  else none

/-- Both indexes of a route are remembered for the peer. -/
def Device.setRoute (device : Device) (peer : ℕ) (route : EidRoute) : Device :=
  { device with
    peerEidIndexMap := device.peerEidIndexMap ++ [(peer, route.localEidIndex)]
    peerRemoteEidIndexMap := device.peerRemoteEidIndexMap ++ [(peer, route.remoteEidIndex)] }

/-- The loop over the peers. -/
def connectPeers (querier : TopoQuerier) (hcomm : Endpoint → Bool) (maxEidCount : UInt32) :
    List ℕ → Device → Device × Option PrepareError
  | [], device => (device, none)
  | peer :: rest, device =>
    if peer = querier.myRank then connectPeers querier hcomm maxEidCount rest device
    else match querier.getEidRoute peer with
      | none => (device, some (.noRoute peer))
      | some route =>
        if maxEidCount ≤ route.remoteEidIndex then
          (device, some (.remoteEid peer route.remoteEidIndex))
        else match (device.setRoute peer route).createEndpoint hcomm
            ⟨route.localEidIndex, route.localEidRaw⟩ with
          | none => (device.setRoute peer route, some (.createEndpoint peer))
          | some device => connectPeers querier hcomm maxEidCount rest device

/-- A rank with a root-info document that was accepted. -/
structure Rank (platform : Platform) where
  rootInfoJson : Json
  phyId : UInt32
  topoInfo : TopoInfo
  rootInfo : RootInfo
  accepted : parseRootInfoJson platform rootInfoJson phyId = some rootInfo

variable {platform : Platform}

/-- The largest count of the ranks. -/
def maxEidCount (ranks : List (Rank platform)) : UInt32 :=
  (ranks.map fun rank => rank.rootInfo.totalEidCount).foldl max 0

/-- The querier of a rank. -/
def querier (ranks : List (Rank platform)) (gathered : List (List SyncEndpoint)) (me : Rank platform)
    (myRank : ℕ) : TopoQuerier :=
  ⟨me.rootInfo, me.topoInfo, myRank, ranks.map fun rank => rank.rootInfo.localId, gathered⟩

/-- `PrepareOpenDevice` on one rank, from the results of `ParseRootInfo` and `ParseTopoInfo`. -/
def prepareOpenDevice (codec : Msgpack) (hcomm : Endpoint → Bool) (ranks : List (Rank platform))
    (me : Rank platform) (myRank : ℕ) : Device × Option PrepareError :=
  if maxEidCount ranks = 0 then (Device.init, some .noEidSlots)
  else match buildSyncEndpoints codec (ranks.map Rank.rootInfo) with
    | none => (Device.init, some .endpointsNotGathered)
    | some gathered =>
      connectPeers (querier ranks gathered me myRank) hcomm (maxEidCount ranks)
        (List.range ranks.length) Device.init

end AscendShmem.TopoReader
