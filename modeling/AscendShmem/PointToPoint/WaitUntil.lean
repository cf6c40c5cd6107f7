import AscendShmem.Lib.Loop

/-!
# Waiting for one or for some of several elements

`aclshmemi_wait_until_any`, `aclshmemi_wait_until_some` and their vector forms. The elements are
written by other PEs while the call runs, so the memory is not a state of the call: `ivars t i` is
what element `i` holds when the call reads an element for the `t`-th time, counted from 0, and every
schedule of remote writes is such a function. The elements read are kept in order, so that the
position of a read is its moment.
-/

namespace AscendShmem.PointToPoint

open Lib

/-- `SIZE_MAX` -/
def sizeMax : UInt64 := 0xffffffffffffffff

/-- `ACLSHMEM_CMP_EQ` -/
def cmpEq : ℤ := 0

/-- `ACLSHMEM_CMP_NE` -/
def cmpNe : ℤ := 1

/-- `ACLSHMEM_CMP_GT` -/
def cmpGt : ℤ := 2

/-- `ACLSHMEM_CMP_GE` -/
def cmpGe : ℤ := 3

/-- `ACLSHMEM_CMP_LT` -/
def cmpLt : ℤ := 4

/-- `ACLSHMEM_CMP_LE` -/
def cmpLe : ℤ := 5

variable {α : Type} [BEq α] [LT α] [LE α] [DecidableLT α] [DecidableLE α]

/-- `aclshmemi_test` on the value it reads. -/
def test (value : α) (cmp : ℤ) (cmpValue : α) : ℕ :=
  if cmp = cmpEq then (value == cmpValue).toNat
  else if cmp = cmpNe then (value != cmpValue).toNat
  else if cmp = cmpGt then (decide (cmpValue < value)).toNat
  else if cmp = cmpGe then (decide (cmpValue ≤ value)).toNat
  else if cmp = cmpLt then (decide (value < cmpValue)).toNat
  else if cmp = cmpLe then (decide (value ≤ cmpValue)).toNat
  else 0

/-- The arguments of a call. `cmpValue i` is what element `i` is compared with: one value for all
elements, or `cmp_values[i]`. -/
structure Call (α : Type) where
  nelems : UInt64
  /-- a null pointer, or a word for each element -/
  status : Option (UInt64 → ℤ)
  cmp : ℤ
  cmpValue : UInt64 → α

/-- The array of indices that the caller passes, a slot of 8 bytes for each element. -/
structure IndexArray (nelems : UInt64) where
  address : ℕ
  fits : address + 8 * nelems.toNat ≤ 2 ^ 64

/-- What each read of the call finds in each element. -/
abbrev Memory (α : Type) := ℕ → UInt64 → α

namespace Call

variable (call : Call α) (ivars : Memory α)

/-- `!status || status[idx] == 0` -/
def enabled (idx : UInt64) : Bool :=
  match call.status with
  | none => true
  | some status => status idx == 0

/-- The comparison of element `idx` holds at moment `t`. -/
def Satisfied (t : ℕ) (idx : UInt64) : Prop := test (ivars t idx) call.cmp (call.cmpValue idx) = 1

instance (t : ℕ) (idx : UInt64) : Decidable (call.Satisfied ivars t idx) :=
  inferInstanceAs (Decidable (_ = 1))

/-! ## The search for a first element -/

/-- The index, the flag that an element is enabled, and the elements read. -/
structure Search where
  idx : UInt64
  needCheck : Bool
  reads : List UInt64

/-- How the search ends: with an element, or with `none` where all are masked. -/
structure Found where
  idx : Option UInt64
  reads : List UInt64

/-- One turn of the `while (true)` that all four functions start with. -/
def turn (s : Search) : Found ⊕ Search :=
  let needCheck := s.needCheck || call.enabled s.idx
  let reads := if call.enabled s.idx then s.reads ++ [s.idx] else s.reads
  if call.enabled s.idx ∧ call.Satisfied ivars s.reads.length s.idx then .inl ⟨some s.idx, reads⟩
  else if s.idx + 1 = call.nelems ∧ !needCheck then .inl ⟨none, reads⟩
  else .inr ⟨(s.idx + 1) % call.nelems, needCheck, reads⟩

/-- The search before its first turn. -/
def searchStart : Search := ⟨0, false, []⟩

/-! ## Any -/

/-- What `wait_until_any` returns, and the elements it read. -/
structure AnyResult where
  idx : UInt64
  reads : List UInt64

/-- The body shared by the calls that wait for any element. -/
def waitUntilAny (fuel : ℕ) : Option AnyResult :=
  if call.nelems = 0 then some ⟨sizeMax, []⟩
  else (loop (call.turn ivars) fuel searchStart).map fun found =>
    ⟨found.idx.getD sizeMax, found.reads⟩

/-! ## Some -/

/-- `indices j` is what the call wrote to slot `j`, if it wrote there. -/
structure SomeResult where
  numMatched : UInt64
  indices : UInt64 → Option UInt64
  reads : List UInt64

/-- `indices[num_matched++] = idx` -/
def SomeResult.push (s : SomeResult) (idx : UInt64) : SomeResult :=
  { s with numMatched := s.numMatched + 1
           indices := Function.update s.indices s.numMatched (some idx) }

/-- Nothing is written yet. -/
def SomeResult.after (reads : List UInt64) : SomeResult := ⟨0, fun _ => none, reads⟩

/-- The test of one element in the second loop of `wait_until_some`. -/
def visit (s : SomeResult) (idx : UInt64) : SomeResult :=
  if call.enabled idx then
    let read := { s with reads := s.reads ++ [idx] }
    if call.Satisfied ivars s.reads.length idx then read.push idx else read
  else s

/-- The second loop, from the element after `startIdx` once around. -/
def sweep (startIdx : UInt64) (s : SomeResult) : SomeResult :=
  (List.range' 1 (call.nelems.toNat - 1)).foldl
    (fun s i => call.visit ivars s ((startIdx + UInt64.ofNat i) % call.nelems)) s

/-- The body shared by the calls that wait for some elements. -/
def waitUntilSome (fuel : ℕ) : Option SomeResult :=
  if call.nelems = 0 then some (.after [])
  else (loop (call.turn ivars) fuel searchStart).map fun found =>
    match found.idx with
    | none => .after found.reads
    | some startIdx => call.sweep ivars startIdx ((SomeResult.after found.reads).push startIdx)

end Call

/-! ## The four functions -/

section

variable (ivars : Memory α) (nelems : UInt64) (status : Option (UInt64 → ℤ)) (cmp : ℤ) (fuel : ℕ)

/-- `aclshmemi_wait_until_any` -/
def aclshmemiWaitUntilAny (cmpValue : α) : Option Call.AnyResult :=
  Call.waitUntilAny ⟨nelems, status, cmp, fun _ => cmpValue⟩ ivars fuel

/-- `aclshmemi_wait_until_any_vector` -/
def aclshmemiWaitUntilAnyVector (cmpValues : UInt64 → α) : Option Call.AnyResult :=
  Call.waitUntilAny ⟨nelems, status, cmp, cmpValues⟩ ivars fuel

/-- `aclshmemi_wait_until_some` -/
def aclshmemiWaitUntilSome (_indices : IndexArray nelems) (cmpValue : α) :
    Option Call.SomeResult :=
  Call.waitUntilSome ⟨nelems, status, cmp, fun _ => cmpValue⟩ ivars fuel

/-- `aclshmemi_wait_until_some_vector` -/
def aclshmemiWaitUntilSomeVector (_indices : IndexArray nelems) (cmpValues : UInt64 → α) :
    Option Call.SomeResult :=
  Call.waitUntilSome ⟨nelems, status, cmp, cmpValues⟩ ivars fuel

end

end AscendShmem.PointToPoint
