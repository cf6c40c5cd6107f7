import AscendShmem.Lib.Msgpack
import AscendShmem.TopoReader.Routes

/-!
# The MessagePack text of the endpoints

A list of endpoints as an array of maps with the fields in the order of their names: an instance of what
`BuildSyncEndpoints` asks of the library.
-/

namespace AscendShmem.TopoReader

open Lib Lib.Msgpack

/-- The head of a map with five members. -/
def mapOfFive : UInt8 := 0x85

/-- An unsigned number in MessagePack. -/
def putUint (n : UInt32) : List UInt8 := putHead uintHead n.toNat

/-- It is read back. -/
def getUint (bytes : List UInt8) : Option (UInt32 × List UInt8) :=
  (getHead uintHead bytes).map fun p => (UInt32.ofNat p.1, p.2)

/-- An endpoint in MessagePack, a map of five members. -/
def putEndpoint (endpoint : SyncEndpoint) : List UInt8 :=
  [mapOfFive] ++ (putString "eidIndex" ++ (putUint endpoint.eidIndex ++
    (putString "netInstanceId" ++ (putString endpoint.netInstanceId ++
    (putString "netLayer" ++ (putUint endpoint.netLayer ++
    (putString "planeId" ++ (putString endpoint.planeId ++
    (putString "ports" ++ putArray putString endpoint.ports)))))))))

/-- A member of this name. -/
def getMember {α : Type} (key : String) (get : List UInt8 → Option (α × List UInt8))
    (bytes : List UInt8) : Option (α × List UInt8) :=
  (getString bytes).bind fun p => if p.1 = key then get p.2 else none

/-- It is read back, in this order of the members. -/
def getEndpoint (bytes : List UInt8) : Option (SyncEndpoint × List UInt8) := do
  if bytes.head? ≠ some mapOfFive then none
  else
    let eidIndex ← getMember "eidIndex" getUint bytes.tail
    let netInstanceId ← getMember "netInstanceId" getString eidIndex.2
    let netLayer ← getMember "netLayer" getUint netInstanceId.2
    let planeId ← getMember "planeId" getString netLayer.2
    let ports ← getMember "ports" (getArray getString) planeId.2
    some (⟨netLayer.1, netInstanceId.1, planeId.1, ports.1, eidIndex.1⟩, ports.2)

theorem takesOff_uint (n : UInt32) : TakesOff getUint (putUint n) n := by
  intro rest
  rw [putUint, getUint, takesOff_head uintHead n.toNat_lt, Option.map_some, UInt32.ofNat_toNat]

theorem getMember_of_takesOff {α : Type} {key : String} (hkey : (putString key).length < 2 ^ 32)
    {get : List UInt8 → Option (α × List UInt8)} {bytes : List UInt8} {a : α}
    (h : TakesOff get bytes a) (rest : List UInt8) :
    getMember key get (putString key ++ (bytes ++ rest)) = some (a, rest) := by
  rw [getMember, takesOff_string hkey, Option.bind_some, if_pos rfl, h]

theorem takesOff_ports {ports : List String} (h : (putArray putString ports).length < 2 ^ 32) :
    TakesOff (getArray getString) (putArray putString ports) ports := by
  have hlen := length_le_of_putArray putString_ne_nil ports
  refine takesOff_array (by omega) fun port hport => takesOff_string ?_
  exact (length_le_putArray putString hport).trans_lt h

theorem takesOff_endpoint {endpoint : SyncEndpoint} (h : (putEndpoint endpoint).length < 2 ^ 32) :
    TakesOff getEndpoint (putEndpoint endpoint) endpoint := by
  intro rest
  simp only [putEndpoint, List.length_append] at h
  have hinstance : TakesOff getString (putString endpoint.netInstanceId) endpoint.netInstanceId :=
    takesOff_string (by omega)
  have hplane : TakesOff getString (putString endpoint.planeId) endpoint.planeId :=
    takesOff_string (by omega)
  have hports : TakesOff (getArray getString) (putArray putString endpoint.ports) endpoint.ports :=
    takesOff_ports (by omega)
  simp only [putEndpoint, List.append_assoc]
  rw [getEndpoint, List.singleton_append, if_neg (by simp), List.tail_cons]
  simp only [getMember_of_takesOff (show (putString "eidIndex").length < 2 ^ 32 by decide)
      (takesOff_uint _),
    getMember_of_takesOff (show (putString "netInstanceId").length < 2 ^ 32 by decide) hinstance,
    getMember_of_takesOff (show (putString "netLayer").length < 2 ^ 32 by decide) (takesOff_uint _),
    getMember_of_takesOff (show (putString "planeId").length < 2 ^ 32 by decide) hplane,
    getMember_of_takesOff (show (putString "ports").length < 2 ^ 32 by decide) hports,
    Option.bind_eq_bind, Option.bind_some]

theorem putEndpoint_ne_nil (endpoint : SyncEndpoint) : putEndpoint endpoint ≠ [] :=
  List.cons_ne_nil _ _

/-- The MessagePack texts of lists of endpoints. -/
def endpointTexts : Msgpack where
  toMsgpack := putArray putEndpoint
  fromMsgpack bytes := (getArray getEndpoint bytes).map Prod.fst
  fromMsgpack_toMsgpack endpoints h := by
    have hlen := length_le_of_putArray putEndpoint_ne_nil endpoints
    have htakes : TakesOff (getArray getEndpoint) (putArray putEndpoint endpoints) endpoints :=
      takesOff_array (by omega) fun endpoint hmem =>
        takesOff_endpoint ((length_le_putArray putEndpoint hmem).trans_lt h)
    have hread := htakes []
    rw [List.append_nil] at hread
    rw [hread, Option.map_some]
  toMsgpack_ne_nil endpoints := by
    rcases endpoints with _ | ⟨endpoint, rest⟩
    · decide
    · refine List.append_ne_nil_of_right_ne_nil _ ?_
      rw [List.flatMap_cons]
      exact List.append_ne_nil_of_left_ne_nil (putEndpoint_ne_nil endpoint) _

end AscendShmem.TopoReader
