import Mathlib
import AscendShmem.VmmSegment.Segment

/-!
# The lifecycle of handles and addresses

The tables of the segment are the ledger of what it holds: every slice and every mapped rank stands
for a mapping and a handle, every reservation for an address. Each operation edits the tables and
calls the driver in step, with one exception: an allocation whose export or mapping fails releases
the handle and leaves the slice in its table.
-/

namespace AscendShmem.VmmSegment

open Lib

/-! ## What a log of driver calls must satisfy -/

/-- Calls that hand a handle to the driver. -/
def DriverCall.Uses (h : ℕ) (d : DriverCall) : Prop :=
  d = .memExport h ∨ d = .memRelease h ∨ ∃ a mapped, d = .memMap a h mapped

/-- `HalMemMap` succeeds at an address. -/
def DriverCall.Maps (a : ℕ) : DriverCall → Bool
  | .memMap b _ mapped => a = b ∧ mapped
  | _ => false

/-- At every moment: no handle was released twice or used after its release, no reservation was
released more often than it was made, and every address unmapped was mapped. -/
structure Lifecycle (log : List DriverCall) : Prop where
  releasedOnce : ∀ h, log.count (.memRelease h) ≤ 1
  unusedAfter : ∀ pre h post, log = pre ++ .memRelease h :: post → ∀ d ∈ post, ¬ d.Uses h
  addressOnce : ∀ a, log.count (.releaseAddress a) ≤ log.count (.reserveAddress a)
  mapped : ∀ pre a post, log = pre ++ .memUnmap a :: post →
    pre.count (.memUnmap a) < pre.countP (DriverCall.Maps a)

/-- After a teardown: every handle obtained was released once, and every reservation. -/
structure TornDown (log : List DriverCall) : Prop where
  handles : ∀ h, .memCreate h ∈ log ∨ .memImport h ∈ log → log.count (.memRelease h) = 1
  addresses : ∀ a, log.count (.releaseAddress a) = log.count (.reserveAddress a)

/-! ## The ledger behind the log -/

/-- What the driver hands out. -/
inductive Resource where
  | address (a : ℕ)
  | mapping (a : ℕ)
  | handle (h : ℕ)
  deriving DecidableEq

/-- What a call takes or gives back. -/
def DriverCall.ops : DriverCall → List (LedgerOp Resource)
  | .reserveAddress a => [.acquire (.address a)]
  | .releaseAddress a => [.release (.address a)]
  | .memCreate h => [.acquire (.handle h)]
  | .memImport h => [.acquire (.handle h)]
  | .memExport h => [.use (.handle h)]
  | .memMap a h mapped => .use (.handle h) :: if mapped then [.acquire (.mapping a)] else []
  | .memUnmap a => [.release (.mapping a)]
  | .memRelease h => [.release (.handle h)]

/-- The handle a call returns. -/
def DriverCall.obtained : DriverCall → Option ℕ
  | .memCreate h => some h
  | .memImport h => some h
  | _ => none

/-- The ledger of a log. -/
def ledger (log : List DriverCall) : List (LedgerOp Resource) := log.flatMap DriverCall.ops

section Log

variable {log pre post : List DriverCall}

@[simp] theorem ledger_cons (d : DriverCall) (log : List DriverCall) :
    ledger (d :: log) = d.ops ++ ledger log := rfl

@[simp] theorem ledger_nil : ledger [] = [] := rfl

@[simp] theorem ledger_append (pre post : List DriverCall) :
    ledger (pre ++ post) = ledger pre ++ ledger post := List.flatMap_append

/-- A kind of call that is one kind of entry is counted by it. -/
theorem count_ledger {op : LedgerOp Resource} {p : DriverCall → Bool}
    (h : ∀ d : DriverCall, d.ops.count op = if p d then 1 else 0) (log : List DriverCall) :
    (ledger log).count op = log.countP p := by
  induction log with
  | nil => rfl
  | cons d log ih => rw [ledger_cons, List.count_append, h, ih, List.countP_cons, add_comm]

/-- How often a handle is released. -/
theorem count_release_handle (h : ℕ) :
    (ledger log).count (.release (.handle h)) = log.count (.memRelease h) := by
  apply count_ledger
  intro d
  cases d with
  | memMap a k mapped => cases mapped <;> simp [DriverCall.ops]
  | _ => simp [DriverCall.ops, List.count_singleton]

/-- How often an address is released. -/
theorem count_release_address (a : ℕ) :
    (ledger log).count (.release (.address a)) = log.count (.releaseAddress a) := by
  apply count_ledger
  intro d
  cases d with
  | memMap a k mapped => cases mapped <;> simp [DriverCall.ops]
  | _ => simp [DriverCall.ops, List.count_singleton]

/-- How often it is reserved. -/
theorem count_acquire_address (a : ℕ) :
    (ledger log).count (.acquire (.address a)) = log.count (.reserveAddress a) := by
  apply count_ledger
  intro d
  cases d with
  | memMap a k mapped => cases mapped <;> simp [DriverCall.ops]
  | _ => simp [DriverCall.ops, List.count_singleton]

/-- How often a mapping is undone. -/
theorem count_release_mapping (a : ℕ) :
    (ledger log).count (.release (.mapping a)) = log.count (.memUnmap a) := by
  apply count_ledger
  intro d
  cases d with
  | memMap a k mapped => cases mapped <;> simp [DriverCall.ops]
  | _ => simp [DriverCall.ops, List.count_singleton]

/-- How often it is made. -/
theorem count_acquire_mapping (a : ℕ) :
    (ledger log).count (.acquire (.mapping a)) = log.countP (DriverCall.Maps a) := by
  apply count_ledger
  intro d
  cases d with
  | memMap b k mapped =>
    by_cases hab : a = b
    · subst hab
      cases mapped <;> simp [DriverCall.ops, DriverCall.Maps]
    · cases mapped <;> simp [DriverCall.ops, DriverCall.Maps, hab, Ne.symm hab]
  | _ => simp [DriverCall.ops, DriverCall.Maps]

/-- How often a handle is obtained. -/
theorem count_acquire_handle (h : ℕ) :
    (ledger log).count (.acquire (.handle h)) = (log.filterMap DriverCall.obtained).count h := by
  rw [List.count_filterMap]
  apply count_ledger
  intro d
  cases d with
  | memMap a k mapped => cases mapped <;> simp [DriverCall.ops, DriverCall.obtained]
  | memCreate k => simp [DriverCall.ops, DriverCall.obtained, List.count_singleton]
  | memImport k => simp [DriverCall.ops, DriverCall.obtained, List.count_singleton]
  | _ => simp [DriverCall.ops, DriverCall.obtained]

variable {held : Multiset Resource} {n : ℕ}

/-- A log whose ledger plays through, with fresh handles, keeps the lifecycle. -/
theorem lifecycle_of_play (hplay : Ledger.play 0 (ledger log) = some held)
    (hfresh : log.filterMap DriverCall.obtained = List.range n) : Lifecycle log := by
  have honce : ∀ h, (ledger log).count (.acquire (.handle h)) ≤ 1 := by
    intro h
    rw [count_acquire_handle, hfresh]
    exact List.nodup_iff_count_le_one.mp List.nodup_range h
  refine ⟨?_, ?_, ?_, ?_⟩
  · intro h
    rw [← count_release_handle]
    exact (Ledger.count_release_le hplay _).trans (honce h)
  · rintro pre h post rfl d hd huses
    rw [ledger_append, ledger_cons] at hplay honce
    have hafter : ∀ op ∈ ledger post, op ≠ .use (.handle h) ∧ op ≠ .release (.handle h) :=
      fun op hop => Ledger.not_after_release hplay (honce h) hop
    have hmem : ∀ op ∈ d.ops, op ∈ ledger post := fun op hop => List.mem_flatMap.mpr ⟨d, hd, hop⟩
    rcases huses with rfl | rfl | ⟨a, mapped, rfl⟩
    · exact (hafter _ (hmem _ List.mem_cons_self)).1 rfl
    · exact (hafter _ (hmem _ List.mem_cons_self)).2 rfl
    · exact (hafter _ (hmem _ List.mem_cons_self)).1 rfl
  · intro a
    rw [← count_release_address, ← count_acquire_address]
    exact Ledger.count_release_le hplay _
  · rintro pre a post rfl
    rw [ledger_append, ledger_cons] at hplay
    rw [← count_release_mapping, ← count_acquire_mapping]
    exact Ledger.released_lt hplay (Or.inr rfl)

/-- When nothing is held any more, everything was released. -/
theorem tornDown_of_play (hplay : Ledger.play 0 (ledger log) = some 0)
    (hfresh : log.filterMap DriverCall.obtained = List.range n) : TornDown log := by
  constructor
  · intro h hobtained
    have hcount := Ledger.count_acquire hplay (.handle h)
    rw [count_acquire_handle, hfresh, count_release_handle, Multiset.count_zero] at hcount
    have hmem : h ∈ log.filterMap DriverCall.obtained := by
      rw [List.mem_filterMap]
      rcases hobtained with hin | hin
      · exact ⟨_, hin, rfl⟩
      · exact ⟨_, hin, rfl⟩
    rw [hfresh] at hmem
    rw [List.count_eq_one_of_mem List.nodup_range hmem] at hcount
    omega
  · intro a
    have hcount := Ledger.count_acquire hplay (.address a)
    rw [count_acquire_address, count_release_address, Multiset.count_zero] at hcount
    omega

end Log

/-! ## The tables are the ledger -/

/-- A mapping and the handle mapped there. -/
def mappedResources (address handle : ℕ) : List Resource := [.mapping address, .handle handle]

/-- What a slice holds. -/
def sliceResources (pos : ℕ × MemSliceStatus) : List Resource :=
  mappedResources pos.2.slice.vAddress pos.2.handle

/-- What an import holds. -/
def importResources (pd : ℕ × ℕ) : List Resource := mappedResources pd.1 pd.2

/-- The slices by their index. -/
abbrev Slices := OrderedSet (Prod.fst : ℕ × MemSliceStatus → ℕ)

/-- The imports by their address. -/
abbrev Imports := OrderedSet (Prod.fst : ℕ × ℕ → ℕ)

/-- What the tables of the segment stand for. -/
def holdings (slices : Slices) (mappedMem : Imports) (reservations : List ℕ) : Multiset Resource :=
  (slices.toList.flatMap sliceResources : Multiset Resource) +
    (mappedMem.toList.flatMap importResources : Multiset Resource) +
    (reservations.map Resource.address : Multiset Resource)

/-- What the segment holds. -/
def Segment.held (s : Segment) : Multiset Resource := holdings s.slices s.mappedMem s.reservations

section Holdings

variable {slices : Slices} {mappedMem rest : Imports} {reservations : List ℕ}

/-- Imports that are gone are no longer held. -/
theorem holdings_of_perm {gone : List (ℕ × ℕ)} (h : mappedMem.toList.Perm (gone ++ rest.toList)) :
    holdings slices mappedMem reservations
      = (gone.flatMap importResources : Multiset Resource) + holdings slices rest reservations := by
  have hsplit := Multiset.coe_eq_coe.mpr (h.flatMap_right importResources)
  rw [List.flatMap_append, ← Multiset.coe_add] at hsplit
  rw [holdings, hsplit, holdings]
  abel

/-- A new import is held. -/
theorem holdings_emplace_import {address handle : ℕ} (h : mappedMem.find address = none) :
    holdings slices (mappedMem.emplace (address, handle)) reservations
      = .mapping address ::ₘ .handle handle ::ₘ holdings slices mappedMem reservations := by
  have hsplit := Multiset.coe_eq_coe.mpr
    ((OrderedSet.perm_emplace (a := (address, handle)) h).flatMap_right importResources)
  rw [List.flatMap_cons, ← Multiset.coe_add, importResources, mappedResources,
    ← Multiset.cons_coe, ← Multiset.cons_coe, Multiset.coe_nil] at hsplit
  rw [holdings, hsplit, holdings]
  simp only [← Multiset.singleton_add]
  abel

/-- A new slice is held. -/
theorem holdings_emplace_slice (pos : ℕ × MemSliceStatus) (h : slices.find pos.1 = none) :
    holdings (slices.emplace pos) mappedMem reservations
      = .mapping pos.2.slice.vAddress ::ₘ .handle pos.2.handle ::ₘ
        holdings slices mappedMem reservations := by
  have hsplit := Multiset.coe_eq_coe.mpr
    ((OrderedSet.perm_emplace (a := pos) h).flatMap_right sliceResources)
  rw [List.flatMap_cons, ← Multiset.coe_add, sliceResources, mappedResources,
    ← Multiset.cons_coe, ← Multiset.cons_coe, Multiset.coe_nil] at hsplit
  rw [holdings, hsplit, holdings]
  simp only [← Multiset.singleton_add]
  abel

/-- An erased slice was held. -/
theorem holdings_erase_slice {pos : ℕ × MemSliceStatus} (h : pos ∈ slices) :
    holdings slices mappedMem reservations
      = (sliceResources pos : Multiset Resource) +
        holdings (slices.erase pos.1) mappedMem reservations := by
  have hsplit := Multiset.coe_eq_coe.mpr
    ((OrderedSet.perm_erase h).flatMap_right sliceResources)
  rw [List.flatMap_cons, ← Multiset.coe_add] at hsplit
  rw [holdings, hsplit, holdings]
  abel

theorem handle_mem_holdings {pos : ℕ × MemSliceStatus} (h : pos ∈ slices) :
    .handle pos.2.handle ∈ holdings slices mappedMem reservations := by
  rw [holdings_erase_slice h]
  exact Multiset.mem_add.mpr (Or.inl (List.mem_cons_of_mem _ List.mem_cons_self))

end Holdings

theorem ledger_unmapAndRelease (address handle : ℕ) :
    ledger (unmapAndRelease address handle) = (mappedResources address handle).map .release := rfl

/-- Unmapping and releasing the entries of a table. -/
theorem ledger_flatMap_unmapAndRelease {α : Type} (l : List α) (address handle : α → ℕ) :
    ledger (l.flatMap fun a => unmapAndRelease (address a) (handle a))
      = (l.flatMap fun a => mappedResources (address a) (handle a)).map .release := by
  induction l with
  | nil => rfl
  | cons a l ih =>
    rw [List.flatMap_cons, List.flatMap_cons, ledger_append, ih, ledger_unmapAndRelease,
      List.map_append]

/-- Releasing addresses gives them back. -/
theorem ledger_map_releaseAddress (l : List ℕ) :
    ledger (l.map .releaseAddress) = (l.map Resource.address).map .release := by
  induction l with
  | nil => rfl
  | cons a l ih =>
    rw [List.map_cons, ledger_cons, ih]
    rfl

/-- The invariant of the segment. -/
structure Accounts (c : Config) (s : Segment) : Prop where
  ledger : Ledger.play 0 (ledger s.log) = some s.held
  issued : s.log.filterMap DriverCall.obtained = List.range s.handles
  based : s.globalVirtualAddress = 0 ↔ s.reservedVirtualAddresses = []
  single : s.reservedVirtualAddresses = [] → s.singleReservation = false
  ranks : s.reservedVirtualAddresses ≠ [] → c.rankId < s.reservedVirtualAddresses.length
  indexed : ∀ pos ∈ s.slices, pos.1 = pos.2.slice.index
  unshared : c.shared = false → s.mappedMem = OrderedSet.empty

variable {c : Config} {s : Segment}

/-- The accounts are right at the start. -/
theorem Accounts.init : Accounts c Segment.init where
  ledger := by simp [Segment.init, Segment.held, holdings, Segment.reservations, OrderedSet.empty]
  issued := rfl
  based := by simp [Segment.init]
  single := fun _ => rfl
  ranks := by simp [Segment.init]
  indexed := fun pos h => absurd h (OrderedSet.not_mem_empty pos)
  unshared := fun _ => rfl

namespace Accounts

/-- Calls that take the tables to other tables. -/
theorem play_call (h : Accounts c s) {calls : List DriverCall} {held : Multiset Resource}
    (hplay : Ledger.play s.held (VmmSegment.ledger calls) = some held) :
    Ledger.play 0 (VmmSegment.ledger (s.log ++ calls)) = some held := by
  rw [ledger_append, Ledger.play_append h.ledger, hplay]

/-- Calls that obtain no handle. -/
theorem issued_call (h : Accounts c s) {calls : List DriverCall}
    (hnone : calls.filterMap DriverCall.obtained = []) :
    (s.log ++ calls).filterMap DriverCall.obtained = List.range s.handles := by
  rw [List.filterMap_append, h.issued, hnone, List.append_nil]

end Accounts

/-! ## The operations -/

/-- Unmapping obtains no handle. -/
theorem obtained_unmapAndRelease {α : Type} (l : List α) (address handle : α → ℕ) :
    (l.flatMap fun a => unmapAndRelease (address a) (handle a)).filterMap DriverCall.obtained
      = [] := by
  rw [List.filterMap_eq_nil_iff]
  intro d hd
  obtain ⟨a, -, ha⟩ := List.mem_flatMap.mp hd
  rcases List.mem_pair.mp ha with rfl | rfl
  · rfl
  · rfl

theorem obtained_releaseAddress (l : List ℕ) :
    (l.map .releaseAddress).filterMap DriverCall.obtained = [] := by
  rw [List.filterMap_eq_nil_iff]
  intro d hd
  obtain ⟨a, -, rfl⟩ := List.mem_map.mp hd
  rfl

/-- Unmapping some entries of the table of imports and keeping the others. -/
theorem Accounts.dropImports (h : Accounts c s) {gone : List (ℕ × ℕ)}
    {rest : OrderedSet (Prod.fst : ℕ × ℕ → ℕ)} (hperm : s.mappedMem.toList.Perm (gone ++ rest.toList))
    (hshared : c.shared = true) :
    Accounts c { s.call (gone.flatMap fun pd => unmapAndRelease pd.1 pd.2) with
      mappedMem := rest } := by
  refine ⟨?_, ?_, h.based, h.single, h.ranks, h.indexed, ?_⟩
  · apply h.play_call
    rw [ledger_flatMap_unmapAndRelease]
    rw [Segment.held, holdings_of_perm hperm]
    exact Ledger.play_releases _
  · exact h.issued_call (obtained_unmapAndRelease _ _ _)
  · intro hprivate
    rw [hshared] at hprivate
    cases hprivate

/-- Unmapping all keeps the accounts. -/
theorem Accounts.unmap (h : Accounts c s) : Accounts c (c.unmap s) := by
  unfold Config.unmap
  split
  · exact h
  · rename_i hshared
    exact h.dropImports (by simp [OrderedSet.empty]) (by simpa using hshared)

theorem Accounts.removeImported (h : Accounts c s) (ranks : List ℕ) :
    Accounts c (c.removeImported ranks s).2 := by
  unfold Config.removeImported
  split
  · exact h
  rename_i hshared
  split
  · exact h
  clear * - h hshared
  induction ranks generalizing s with
  | nil => exact h
  | cons rank ranks ih =>
    exact ih (h.dropImports (OrderedSet.perm_range _ _ _) (by simpa using hshared))

theorem Accounts.importExInfo (h : Accounts c s) (allExInfo : List ImportReply) :
    Accounts c (c.importExInfo allExInfo s).2 := by
  unfold Config.importExInfo
  split
  · exact h
  split
  · exact h
  · exact ⟨h.ledger, h.issued, h.based, h.single, h.ranks, h.indexed, h.unshared⟩

theorem Accounts.registerMemory (h : Accounts c s) (addr size : ℕ) :
    Accounts c (s.registerMemory addr size).2 :=
  ⟨h.ledger, h.issued, h.based, h.single, h.ranks, h.indexed, h.unshared⟩

/-! ### Slices -/

/-- The entry of a slice goes with its mapping and its handle. -/
theorem Accounts.dropSlice (h : Accounts c s) {pos : ℕ × MemSliceStatus} (hpos : pos ∈ s.slices) :
    Accounts c { s.call (unmapAndRelease pos.2.slice.vAddress pos.2.handle) with
      slices := s.slices.erase pos.1 } := by
  refine ⟨?_, h.issued_call rfl, h.based, h.single, h.ranks, ?_, h.unshared⟩
  · apply h.play_call
    rw [ledger_unmapAndRelease]
    rw [Segment.held, holdings_erase_slice hpos]
    exact Ledger.play_releases _
  · intro other hother
    exact h.indexed other (OrderedSet.mem_erase.mp hother).1

theorem Accounts.releaseSliceMemory (h : Accounts c s) (slice : Option MemSlice) :
    Accounts c (s.releaseSliceMemory slice).2 := by
  cases slice with
  | none => exact h
  | some slice =>
    cases hfind : s.slices.find slice.index with
    | none =>
      simp only [Segment.releaseSliceMemory, hfind]
      exact h
    | some pos =>
      by_cases hsame : pos.2.slice = slice
      · subst hsame
        simp only [Segment.releaseSliceMemory, hfind, ne_eq, not_true_eq_false, if_false]
        exact h.dropSlice (OrderedSet.find_eq_some.mp hfind).1
      · simp only [Segment.releaseSliceMemory, hfind, ne_eq, hsame, not_false_eq_true, if_true]
        exact h

/-- The slice of the first entry is the one its index finds. -/
theorem Accounts.release_first (h : Accounts c s) {pos : ℕ × MemSliceStatus}
    {rest : List (ℕ × MemSliceStatus)} (hfirst : s.slices.toList = pos :: rest) :
    (s.releaseSliceMemory (some pos.2.slice)).2.slices.toList.length = rest.length := by
  have hpos : pos ∈ s.slices := by
    rw [OrderedSet.mem_def, hfirst]
    exact List.mem_cons_self
  have hfind : s.slices.find pos.2.slice.index = some pos :=
    OrderedSet.find_eq_some.mpr ⟨hpos, h.indexed pos hpos⟩
  simp only [Segment.releaseSliceMemory, hfind, ne_eq, not_true_eq_false, if_false]
  have hlength := (OrderedSet.perm_erase hpos).length_eq
  rw [hfirst, List.length_cons, List.length_cons] at hlength
  exact (Nat.succ.inj hlength).symm

/-- The loop of `UnReserveMemorySpace` empties the table of slices. -/
theorem Accounts.releaseSlices {n : ℕ} (h : Accounts c s) (hn : s.slices.toList.length = n) :
    ∃ s', s.releaseSlices n = some s' ∧ Accounts c s' ∧ s'.slices.toList = [] ∧
      s'.mappedMem = s.mappedMem := by
  induction n generalizing s with
  | zero =>
    have hnil := List.length_eq_zero_iff.mp hn
    exact ⟨s, by simp [Segment.releaseSlices, hnil], h, hnil, rfl⟩
  | succ n ih =>
    cases hlist : s.slices.toList with
    | nil =>
      rw [hlist] at hn
      cases hn
    | cons pos rest =>
      have hlength := h.release_first hlist
      rw [hlist, List.length_cons] at hn
      rcases ih (h.releaseSliceMemory (some pos.2.slice)) (by omega) with
        ⟨s', hs', haccounts, hempty, hmapped⟩
      refine ⟨s', by simp only [Segment.releaseSlices, hlist, hs'], haccounts, hempty, ?_⟩
      rw [hmapped]
      unfold Segment.releaseSliceMemory
      dsimp only
      split
      · rfl
      · split <;> rfl

/-- After `UnReserveMemorySpace` only imported memory is held. -/
theorem Accounts.unReserveMemorySpace (h : Accounts c s) :
    ∃ s', s.unReserveMemorySpace = some s' ∧ Accounts c s' ∧
      s'.held = (s.mappedMem.toList.flatMap importResources : Multiset Resource) := by
  rcases h.releaseSlices rfl with ⟨s', hs', haccounts, hempty, hmapped⟩
  refine ⟨_, by rw [Segment.unReserveMemorySpace, hs']; rfl, ?_, ?_⟩
  · refine ⟨?_, haccounts.issued_call (obtained_releaseAddress _), by simp, fun _ => rfl,
      fun hne => absurd rfl hne, haccounts.indexed, haccounts.unshared⟩
    apply haccounts.play_call
    rw [ledger_map_releaseAddress]
    have hheld : s'.held = (s'.reservations.map Resource.address : Multiset Resource) +
        (s'.mappedMem.toList.flatMap importResources : Multiset Resource) := by
      rw [Segment.held, holdings, hempty]
      show (0 : Multiset Resource) + _ + _ = _
      abel
    rw [hheld, Ledger.play_releases]
    simp [Segment.held, holdings, Segment.reservations, Segment.call, hempty]
  · simp [Segment.held, holdings, Segment.reservations, Segment.call, hempty, hmapped]

/-! ### Reservations -/

/-- The loop over the ranks ends with one reservation for each, or has released what it made. -/
theorem reservePerPe_spec (alignedSize : ℕ) (reply : ℕ → ℕ → Option ℕ) (n i curBase : ℕ)
    (s : Segment) (hpos : ∀ a ∈ s.reservedVirtualAddresses, a ≠ 0) :
    ∃ r calls addresses,
      reservePerPe alignedSize reply n i curBase s =
        (r, { s.call calls with reservedVirtualAddresses := addresses }) ∧
      calls.filterMap DriverCall.obtained = [] ∧
      (∀ held : Multiset Resource,
        Ledger.play ((s.reservedVirtualAddresses.map Resource.address : Multiset Resource) + held)
          (ledger calls) = some ((addresses.map Resource.address : Multiset Resource) + held)) ∧
      (r = .success → addresses.length = s.reservedVirtualAddresses.length + n ∧
        ∀ a ∈ addresses, a ≠ 0) ∧ (r ≠ .success → addresses = []) := by
  induction n generalizing i curBase s with
  | zero =>
    refine ⟨.success, [], s.reservedVirtualAddresses, ?_, rfl, fun _ => rfl, fun _ => ⟨rfl, hpos⟩,
      fun hne => absurd rfl hne⟩
    rw [reservePerPe, Segment.call, List.append_nil]
  | succ n ih =>
    cases hreply : reserved (reply i curBase) with
    -- a reservation that fails gives all of those before it back
    | none =>
      refine ⟨.mallocFailed, s.reservedVirtualAddresses.map .releaseAddress, [], ?_,
        obtained_releaseAddress _, ?_, fun hr => absurd hr (by decide), fun _ => rfl⟩
      · rw [reservePerPe, hreply]
      · intro held
        rw [ledger_map_releaseAddress, Ledger.play_releases]
        simp
    | some base =>
      have hbase : base ≠ 0 := by simpa using (Option.filter_eq_some_iff.mp hreply).2
      rcases ih (i + 1) (wrap (base + alignedSize))
        { s.call [.reserveAddress base] with
          reservedVirtualAddresses := s.reservedVirtualAddresses ++ [base] }
        (by
          intro a ha
          rcases List.mem_append.mp ha with ha | ha
          · exact hpos a ha
          · rwa [List.mem_singleton.mp ha]) with
        ⟨r, calls, addresses, heq, hobtained, hplay, hgood, hbad⟩
      refine ⟨r, .reserveAddress base :: calls, addresses, ?_, hobtained, ?_, ?_, hbad⟩
      · rw [reservePerPe, hreply]
        dsimp only
        rw [heq]
        simp [Segment.call]
      · intro held
        -- what is acquired here is held during the rest of the loop
        have hrest := hplay held
        rw [List.map_append, ← Multiset.coe_add] at hrest
        rw [ledger_cons, DriverCall.ops, List.singleton_append, Ledger.play_acquire, ← hrest]
        congr 1
        rw [List.map_singleton, Multiset.coe_singleton, ← Multiset.singleton_add]
        abel
      · intro hr
        have hlength := (hgood hr).1
        rw [List.length_append, List.length_singleton] at hlength
        exact ⟨by omega, (hgood hr).2⟩

/-- Reservations, made or given back, while there were none. -/
theorem Accounts.reserve (h : Accounts c s) (hnone : s.reservedVirtualAddresses = [])
    {calls : List DriverCall} (hobtained : calls.filterMap DriverCall.obtained = [])
    {addresses : List ℕ} {single : Bool}
    (hplay : ∀ held : Multiset Resource, Ledger.play held (VmmSegment.ledger calls)
      = some (((if single then addresses.take 1 else addresses).map Resource.address :
          Multiset Resource) + held))
    (hpos : ∀ a ∈ addresses.head?, a ≠ 0) (hsingle : addresses = [] → single = false)
    (hranks : addresses ≠ [] → c.rankId < addresses.length) (allocatedSize sliceCount : ℕ) :
    Accounts c { s.call calls with
      reservedVirtualAddresses := addresses
      singleReservation := single
      globalVirtualAddress := addresses.headD 0
      allocatedSize := allocatedSize
      sliceCount := sliceCount } := by
  refine ⟨?_, h.issued_call hobtained, ?_, hsingle, hranks, h.indexed, h.unshared⟩
  · apply h.play_call
    rw [hplay]
    have hnothing : s.reservations = [] := by simp [Segment.reservations, hnone]
    rw [Segment.held, hnothing]
    show some (_ + (_ + _ + (0 : Multiset Resource))) = some (_ + _ + (_ : Multiset Resource))
    rw [add_zero, add_comm]
    rfl
  · cases addresses with
    | nil => simp
    | cons a rest => simpa using hpos a rfl

/-- The first rank has the base address. -/
theorem rankAddresses_cons {alignedSize base n : ℕ} (hn : 0 < n) :
    ∃ rest, rankAddresses alignedSize base n = base :: rest ∧ rest.length + 1 = n := by
  have hlength : ∀ n base, (rankAddresses alignedSize base n).length = n := by
    intro n
    induction n with
    | zero => exact fun _ => rfl
    | succ n ih => exact fun base => congrArg (· + 1) (ih _)
  obtain ⟨m, rfl⟩ := Nat.exists_eq_succ_of_ne_zero hn.ne'
  exact ⟨_, rfl, congrArg (· + 1) (hlength m _)⟩

/-- A successful reservation, with the address of the first rank as the base; a failed one leaves
nothing behind. -/
theorem Accounts.reserveEachPeMemorySpace (h : Accounts c s) (hbased : s.globalVirtualAddress = 0)
    (hrank : c.rankId < c.rankCnt) (reserveAlignedSize totalReservedSize expectSt : ℕ)
    (reply : ReserveReply) :
    ∃ r s', c.reserveEachPeMemorySpace reserveAlignedSize totalReservedSize expectSt reply s
        = (r, s') ∧
      (r = .success → Accounts c { s' with
        globalVirtualAddress := s'.reservedVirtualAddresses.headD 0
        allocatedSize := 0
        sliceCount := 0 }) ∧ (r ≠ .success → Accounts c s') := by
  have hnone : s.reservedVirtualAddresses = [] := h.based.mp hbased
  unfold Config.reserveEachPeMemorySpace
  by_cases hrange : hybmDeviceMetaAddr < wrap (expectSt + totalReservedSize)
  · rw [if_pos hrange]
    exact ⟨_, _, rfl, fun hr => absurd hr (by decide), fun _ => h⟩
  rw [if_neg hrange]
  -- one reservation for all ranks
  by_cases hone : c.socType = .ascend950 ∨ totalReservedSize < hybmMaxSingleReserveSize
  · rw [if_pos hone]
    cases hreply : reserved reply.single with
    | none => exact ⟨_, _, rfl, fun hr => absurd hr (by decide), fun _ => h⟩
    | some base =>
      have hbase : base ≠ 0 := by simpa using (Option.filter_eq_some_iff.mp hreply).2
      obtain ⟨rest, hrest, hlength⟩ := @rankAddresses_cons reserveAlignedSize base c.rankCnt
        (Nat.zero_lt_of_lt hrank)
      refine ⟨_, _, rfl, fun _ => ?_, fun hr => absurd rfl hr⟩
      simp only [hnone, List.nil_append, hrest]
      apply h.reserve hnone rfl
      · intro held
        rfl
      · intro a ha
        rwa [← Option.some.inj ha]
      · intro hnil
        cases hnil
      · intro _
        rw [List.length_cons]
        omega
  · rw [if_neg hone]
    -- one reservation for each rank
    rcases reservePerPe_spec reserveAlignedSize reply.perPe c.rankCnt 0 expectSt s
      (by simp [hnone]) with ⟨r, calls, addresses, heq, hobtained, hplay, hgood, hbad⟩
    rw [heq]
    refine ⟨_, _, rfl, ?_, ?_⟩
    · intro hr
      have hlength := (hgood hr).1
      rw [hnone, List.length_nil, Nat.zero_add] at hlength
      have hreserve : Accounts c { s.call calls with
          reservedVirtualAddresses := addresses
          singleReservation := false
          globalVirtualAddress := addresses.headD 0
          allocatedSize := 0
          sliceCount := 0 } := by
        apply h.reserve hnone hobtained _
          (fun a ha => (hgood hr).2 a (List.mem_of_mem_head? ha)) (fun _ => rfl)
        · intro _
          rw [hlength]
          exact hrank
        · intro held
          have hcalls := hplay held
          rw [hnone] at hcalls
          simpa using hcalls
      rw [← h.single hnone] at hreserve
      exact hreserve
    · intro hr
      obtain rfl := hbad hr
      have hreserve : Accounts c { s.call calls with
          reservedVirtualAddresses := []
          singleReservation := false
          globalVirtualAddress := ([] : List ℕ).headD 0
          allocatedSize := s.allocatedSize
          sliceCount := s.sliceCount } := by
        apply h.reserve hnone hobtained _ (by simp) (fun _ => rfl) (fun hne => absurd rfl hne)
        intro held
        have hcalls := hplay held
        rw [hnone] at hcalls
        simpa using hcalls
      rw [← h.single hnone, List.headD_nil, ← hbased] at hreserve
      exact hreserve

/-- A reservation keeps the accounts. -/
theorem Accounts.reserveMemorySpace (h : Accounts c s) (address : Bool) (reply : ReserveReply) :
    Accounts c (c.reserveMemorySpace address reply s).2 := by
  unfold Config.reserveMemorySpace
  by_cases haddress : ¬ address = true
  · rw [if_pos haddress]
    exact h
  rw [if_neg haddress]
  by_cases hvalid : c.validateOptions ≠ .success
  · rw [if_pos hvalid]
    exact h
  rw [if_neg hvalid]
  by_cases hbased : s.globalVirtualAddress ≠ 0
  · rw [if_pos hbased]
    exact h
  rw [if_neg hbased]
  by_cases hrank : c.rankCnt ≤ c.rankId
  · rw [if_pos hrank]
    exact h
  rw [if_neg hrank]
  rcases h.reserveEachPeMemorySpace (of_not_not hbased) (Nat.lt_of_not_le hrank)
    c.reserveAlignedSize (wrap (c.rankCnt * c.reserveAlignedSize)) hybmGvmStartAddr reply with
    ⟨r, s', heq, hgood, hbad⟩
  rw [heq]
  cases r with
  | success => exact hgood rfl
  | _ => exact hbad (by decide)

/-! ### Imported memory -/

/-- Calls that obtain the next handle. -/
theorem Accounts.issued_next (h : Accounts c s) {calls : List DriverCall}
    (hone : calls.filterMap DriverCall.obtained = [s.handles]) :
    (s.log ++ calls).filterMap DriverCall.obtained = List.range (s.handles + 1) := by
  rw [List.filterMap_append, h.issued, hone, List.range_succ]

/-- An imported handle goes with its mapping into the table. -/
theorem Accounts.addImport (h : Accounts c s) (hshared : c.shared = true) {address : ℕ}
    (hfree : s.mappedMem.find address = none) :
    Accounts c { s.call [.memImport s.handles, .memMap address s.handles true] with
      handles := s.handles + 1
      mappedMem := s.mappedMem.emplace (address, s.handles) } := by
  refine ⟨?_, h.issued_next rfl, h.based, h.single, h.ranks, h.indexed, ?_⟩
  · apply h.play_call
    show Ledger.play s.held [.acquire (.handle s.handles), .use (.handle s.handles),
      .acquire (.mapping address)] = _
    rw [Ledger.play_acquire, Ledger.play_use_cons, Ledger.play_acquire, Ledger.play_nil]
    exact congrArg some (holdings_emplace_import hfree).symm
  · intro hprivate
    rw [hshared] at hprivate
    cases hprivate

/-- An import that cannot be mapped is released. -/
theorem Accounts.failImport (h : Accounts c s) (address : ℕ) :
    Accounts c { s.call [.memImport s.handles, .memMap address s.handles false,
      .memRelease s.handles] with
      handles := s.handles + 1 } := by
  refine ⟨?_, h.issued_next rfl, h.based, h.single, h.ranks, h.indexed, h.unshared⟩
  apply h.play_call
  show Ledger.play s.held [.acquire (.handle s.handles), .use (.handle s.handles),
    .release (.handle s.handles)] = _
  rw [Ledger.play_acquire, Ledger.play_use_cons, Ledger.play_release, Ledger.play_nil]
  rfl

theorem Accounts.mmapImports (hshared : c.shared = true) (reply : ℕ → MmapReply) {i : ℕ}
    {imports : List MemExportInfo} (h : Accounts c s) {r : Result × Segment}
    (hmmap : c.mmapImports reply i imports s = some r) : Accounts c r.2 := by
  induction imports generalizing i s with
  | nil =>
    rw [Config.mmapImports, Option.some.injEq] at hmmap
    rw [← hmmap]
    exact h
  | cons im rest ih =>
    rw [Config.mmapImports] at hmmap
    by_cases hself : im.rankId = c.rankId
    · rw [if_pos hself] at hmmap
      exact ih h hmmap
    rw [if_neg hself] at hmmap
    cases hremote : s.reservedVirtualAddresses[im.rankId]? with
    | none =>
      rw [hremote] at hmmap
      cases hmmap
    | some address =>
      simp only [hremote] at hmmap
      by_cases hmapped : (s.mappedMem.find address).isSome = true
      · rw [if_pos hmapped] at hmmap
        exact ih h hmmap
      rw [if_neg hmapped] at hmmap
      by_cases hreach : ¬ c.canMapRemote im = true
      · rw [if_pos hreach] at hmmap
        exact ih h hmmap
      rw [if_neg hreach] at hmmap
      by_cases himported : ¬ (reply i).imported = true
      · rw [if_pos himported, Option.some.injEq] at hmmap
        rw [← hmmap]
        exact h
      rw [if_neg himported] at hmmap
      cases hmap : (reply i).mapped with
      | false =>
        simp only [hmap, Bool.false_eq_true, not_false_eq_true, if_true, Option.some.injEq] at hmmap
        rw [← hmmap]
        have hfail := h.failImport address
        rw [show ∀ a b d : DriverCall, [a, b, d] = [a, b] ++ [d] from fun _ _ _ => rfl,
          Segment.call, ← List.append_assoc] at hfail
        exact hfail
      | true =>
        simp only [hmap, not_true_eq_false, if_false] at hmmap
        exact ih (h.addImport hshared (by simpa using hmapped)) hmmap

theorem Accounts.mmap (h : Accounts c s) {reply : ℕ → MmapReply} {r : Result × Segment}
    (hmmap : c.mmap reply s = some r) : Accounts c r.2 := by
  unfold Config.mmap at hmmap
  by_cases hshared : c.shared = true
  swap
  · rw [if_pos hshared, Option.some.injEq] at hmmap
    rw [← hmmap]
    exact h
  rw [if_neg (by simpa using hshared)] at hmmap
  split at hmmap
  · rename_i s' heq
    have hmapped := Accounts.mmapImports hshared reply h heq
    rw [← Option.some.inj hmmap]
    exact ⟨hmapped.ledger, hmapped.issued, hmapped.based, hmapped.single, hmapped.ranks,
      hmapped.indexed, hmapped.unshared⟩
  · exact Accounts.mmapImports hshared reply h hmmap

/-! ### Local memory -/

/-- All that `ExportInner` calls succeeds, or there is nothing to export. -/
def Config.exports (c : Config) (reply : AllocReply) : Bool :=
  ! c.shared || (reply.exported && reply.translated && reply.attributed && reply.serialized)

/-- An allocation gets as far as a handle. -/
def Config.obtains (c : Config) (s : Segment) (size : ℕ) (reply : AllocReply) : Prop :=
  size % deviceLargePageSize = 0 ∧ wrap (size + s.allocatedSize) ≤ c.reserveAlignedSize ∧
    s.globalVirtualAddress ≠ 0 ∧ reply.created = true

/-- An allocation that obtains a handle exports and maps it if the index of its slice is free, and
fails to if that index is taken. -/
def Config.Keeps (c : Config) (s : Segment) : Call → Prop
  | .allocLocalMemory size reply => c.obtains s size reply →
    (s.slices.find s.sliceCount = none ↔ c.exports reply = true ∧ reply.mapped = true)
  | _ => True

/-- The export of a slice that is entered. -/
theorem Config.exportInner_of_find {slice : MemSlice} (reply : AllocReply)
    {pos : ℕ × MemSliceStatus} (hfind : s.slices.find slice.index = some pos) :
    ∃ r calls, c.exportInner slice reply s = some (r, s.call calls) ∧
      (r = .success ↔ c.exports reply = true) ∧ (calls = [] ∨ calls = [.memExport pos.2.handle]) := by
  unfold Config.exportInner Config.exports
  cases hshared : c.shared with
  | false =>
    refine ⟨.success, [], ?_, by simp, Or.inl rfl⟩
    simp [Segment.call]
  | true =>
    simp only [not_true_eq_false, if_false, hfind]
    by_cases hexported : reply.exported = true
    · rw [if_neg (by simpa using hexported)]
      by_cases hrest : ¬ reply.translated = true ∨ ¬ reply.attributed = true ∨
          ¬ reply.serialized = true
      · rw [if_pos hrest]
        refine ⟨_, _, rfl, ?_, Or.inr rfl⟩
        simp only [hexported]
        grind
      · rw [if_neg hrest]
        refine ⟨_, _, rfl, ?_, Or.inr rfl⟩
        simp only [hexported]
        grind
    · rw [if_pos hexported]
      refine ⟨_, _, rfl, ?_, Or.inr rfl⟩
      simp [hexported]

/-- What an allocation does once it has a handle. -/
theorem Config.allocLocalMemory_of_obtains {size base : ℕ} {reply : AllocReply}
    (hobtains : c.obtains s size reply) (hbase : s.reservedVirtualAddresses[c.rankId]? = some base)
    {slice : MemSlice}
    (hslice : slice = ⟨s.objects, s.sliceCount, wrap (base + s.allocatedSize), size⟩)
    {pos : ℕ × MemSliceStatus} (hfind : (s.enter slice).slices.find slice.index = some pos) :
    ∃ r calls, (calls = [] ∨ calls = [.memExport pos.2.handle]) ∧
      c.allocLocalMemory size reply s = some (r, some slice, (s.enter slice).call (calls ++
        if c.exports reply = true then
          .memMap slice.vAddress s.handles reply.mapped ::
            if reply.mapped = true then [] else [.memRelease s.handles]
        else [.memRelease s.handles])) := by
  rcases hobtains with ⟨hpage, hfits, hbased, hcreated⟩
  rcases c.exportInner_of_find reply hfind with ⟨r, calls, hexport, hr, hcalls⟩
  unfold Config.allocLocalMemory
  rw [if_neg (by simp [hpage, hfits]), if_neg hbased, hbase]
  simp only [hcreated, not_true_eq_false, if_false, ← hslice, hexport]
  cases r with
  | success =>
    rw [if_pos (hr.mp rfl)]
    cases hmapped : reply.mapped with
    | true =>
      refine ⟨.success, calls, hcalls, ?_⟩
      simp [Segment.call, hslice]
    | false =>
      refine ⟨.dlFuncFailed, calls, hcalls, ?_⟩
      simp [Segment.call, hslice]
  | _ =>
    rw [if_neg fun hexports => absurd (hr.mpr hexports) (by decide)]
    refine ⟨.innerError, calls, hcalls, ?_⟩
    simp [Segment.call]

/-- An allocation that obtains no memory leaves the segment as it is. -/
theorem Config.allocLocalMemory_of_not_obtains {size : ℕ} {reply : AllocReply}
    (h : ¬ c.obtains s size reply) {r : Result × Option MemSlice × Segment}
    (hr : c.allocLocalMemory size reply s = some r) : r.2.2 = s := by
  unfold Config.allocLocalMemory at hr
  by_cases hsize : size % deviceLargePageSize ≠ 0 ∨
      c.reserveAlignedSize < wrap (size + s.allocatedSize)
  · rw [if_pos hsize, Option.some.injEq] at hr
    rw [← hr]
  rw [if_neg hsize] at hr
  by_cases hbased : s.globalVirtualAddress = 0
  · rw [if_pos hbased, Option.some.injEq] at hr
    rw [← hr]
  rw [if_neg hbased] at hr
  cases hbase : s.reservedVirtualAddresses[c.rankId]? with
  | none =>
    rw [hbase] at hr
    cases hr
  | some base =>
    have hcreated : ¬ reply.created = true := by
      intro hcreated
      rw [not_or, not_not, not_lt] at hsize
      exact h ⟨hsize.1, hsize.2, hbased, hcreated⟩
    simp only [hbase] at hr
    rw [if_pos hcreated, Option.some.injEq] at hr
    rw [← hr]

/-- Exporting a handle that is held. -/
theorem play_export {held : Multiset Resource} {calls : List DriverCall} {handle : ℕ}
    (hcalls : calls = [] ∨ calls = [.memExport handle]) (hheld : .handle handle ∈ held) :
    Ledger.play held (ledger calls) = some held := by
  rcases hcalls with rfl | rfl
  · rfl
  · exact Ledger.play_use hheld

theorem obtained_export {calls : List DriverCall} {handle : ℕ}
    (hcalls : calls = [] ∨ calls = [.memExport handle]) :
    calls.filterMap DriverCall.obtained = [] := by
  rcases hcalls with rfl | rfl <;> rfl

/-- A new slice that is exported and mapped. -/
theorem Accounts.enterFree (h : Accounts c s) {slice : MemSlice} {calls : List DriverCall}
    (hfree : s.slices.find slice.index = none)
    (hcalls : calls = [] ∨ calls = [.memExport s.handles]) :
    Accounts c ((s.enter slice).call (calls ++ [.memMap slice.vAddress s.handles true])) := by
  refine ⟨?_, ?_, h.based, h.single, h.ranks, ?_, h.unshared⟩
  · show Ledger.play 0 (VmmSegment.ledger ((s.log ++ [.memCreate s.handles]) ++ _)) = _
    rw [List.append_assoc]
    apply h.play_call
    rw [ledger_append, ledger_append]
    show Ledger.play s.held ([.acquire (.handle s.handles)] ++ (_ ++ _)) = _
    rw [List.singleton_append, Ledger.play_acquire,
      Ledger.play_append (play_export hcalls (Multiset.mem_cons_self _ _))]
    show Ledger.play _ [.use (Resource.handle s.handles), .acquire (.mapping slice.vAddress)] = _
    rw [Ledger.play_use_cons, Ledger.play_acquire, Ledger.play_nil]
    exact congrArg some
      (holdings_emplace_slice (slice.index, ⟨slice, s.handles⟩) hfree).symm
  · show ((s.log ++ [DriverCall.memCreate s.handles]) ++ _).filterMap DriverCall.obtained = _
    rw [List.append_assoc]
    apply h.issued_next
    rw [List.filterMap_append, List.filterMap_append, obtained_export hcalls]
    rfl
  · intro pos hpos
    rcases (OrderedSet.mem_emplace (OrderedSet.find_eq_none.mp hfree)).mp hpos with rfl | hin
    · rfl
    · exact h.indexed pos hin

/-- A new slice under an index that is taken, released again. -/
theorem Accounts.enterTaken (h : Accounts c s) {slice : MemSlice} {pos : ℕ × MemSliceStatus}
    (hfind : s.slices.find slice.index = some pos) {calls mapping : List DriverCall}
    (hcalls : calls = [] ∨ calls = [.memExport pos.2.handle])
    (hmapping : mapping = [] ∨ mapping = [.memMap slice.vAddress s.handles false]) :
    Accounts c ((s.enter slice).call (calls ++ (mapping ++ [.memRelease s.handles]))) := by
  have hslices : (s.enter slice).slices = s.slices :=
    OrderedSet.emplace_of_mem ⟨pos, OrderedSet.find_eq_some.mp hfind⟩
  refine ⟨?_, ?_, h.based, h.single, h.ranks, ?_, h.unshared⟩
  · show Ledger.play 0 (VmmSegment.ledger ((s.log ++ [.memCreate s.handles]) ++ _))
      = some (holdings (s.enter slice).slices _ _)
    rw [hslices, List.append_assoc]
    apply h.play_call
    rw [ledger_append, ledger_append]
    show Ledger.play s.held ([.acquire (.handle s.handles)] ++ (_ ++ _)) = _
    have hheld : .handle pos.2.handle ∈ .handle s.handles ::ₘ s.held :=
      Multiset.mem_cons_of_mem (handle_mem_holdings (OrderedSet.find_eq_some.mp hfind).1)
    rw [List.singleton_append, Ledger.play_acquire,
      Ledger.play_append (play_export hcalls hheld)]
    rcases hmapping with rfl | rfl
    · exact Ledger.play_release
    · show Ledger.play _ [.use (Resource.handle s.handles), .release (.handle s.handles)] = _
      rw [Ledger.play_use_cons]
      exact Ledger.play_release
  · show ((s.log ++ [DriverCall.memCreate s.handles]) ++ _).filterMap DriverCall.obtained = _
    rw [List.append_assoc]
    apply h.issued_next
    rw [List.filterMap_append, List.filterMap_append, obtained_export hcalls]
    rcases hmapping with rfl | rfl <;> rfl
  · show ∀ other ∈ (s.enter slice).slices, _
    rw [hslices]
    exact h.indexed

/-- An allocation keeps the accounts. -/
theorem Accounts.allocLocalMemory (h : Accounts c s) {size : ℕ} {reply : AllocReply}
    (hkeeps : c.Keeps s (.allocLocalMemory size reply)) {r : Result × Option MemSlice × Segment}
    (hr : c.allocLocalMemory size reply s = some r) : Accounts c r.2.2 := by
  by_cases hobtains : c.obtains s size reply
  swap
  · rw [c.allocLocalMemory_of_not_obtains hobtains hr]
    exact h
  have hne : s.reservedVirtualAddresses ≠ [] := fun hnil => hobtains.2.2.1 (h.based.mpr hnil)
  obtain ⟨base, hbase⟩ : ∃ base, s.reservedVirtualAddresses[c.rankId]? = some base :=
    ⟨_, List.getElem?_eq_getElem (h.ranks hne)⟩
  have hiff := hkeeps hobtains
  let slice : MemSlice := ⟨s.objects, s.sliceCount, wrap (base + s.allocatedSize), size⟩
  cases hfind : s.slices.find s.sliceCount with
  | none =>
    obtain ⟨hexports, hmapped⟩ := hiff.mp hfind
    have hentered : (s.enter slice).slices.find slice.index
        = some (s.sliceCount, ⟨slice, s.handles⟩) := by
      rw [OrderedSet.find_eq_some]
      refine ⟨?_, rfl⟩
      exact (OrderedSet.mem_emplace (OrderedSet.find_eq_none.mp hfind)).mpr (Or.inl rfl)
    rcases c.allocLocalMemory_of_obtains hobtains hbase rfl hentered with ⟨code, calls, hcalls, heq⟩
    rw [hr, if_pos hexports, if_pos hmapped, hmapped, Option.some.injEq] at heq
    rw [heq]
    exact h.enterFree hfind hcalls
  | some pos =>
    have hkept : (s.enter slice).slices.find slice.index = some pos := by
      have hslices : (s.enter slice).slices = s.slices :=
        OrderedSet.emplace_of_mem ⟨pos, OrderedSet.find_eq_some.mp hfind⟩
      rw [hslices]
      exact hfind
    rcases c.allocLocalMemory_of_obtains hobtains hbase rfl hkept with ⟨code, calls, hcalls, heq⟩
    have hfails : ¬ (c.exports reply = true ∧ reply.mapped = true) := by
      intro hboth
      rw [hiff.mpr hboth] at hfind
      cases hfind
    rw [hr, Option.some.injEq] at heq
    rw [heq]
    by_cases hexports : c.exports reply = true
    · have hmapped : reply.mapped = false := by simpa [hexports] using hfails
      rw [if_pos hexports, hmapped, if_neg (by decide)]
      exact h.enterTaken hfind hcalls (Or.inr rfl)
    · rw [if_neg hexports]
      exact h.enterTaken hfind hcalls (Or.inl rfl)

/-! ## Runs -/

/-- Every call keeps the tables and the ledger together. -/
theorem Accounts.step (h : Accounts c s) {call : Call} (hkeeps : c.Keeps s call) {s' : Segment}
    (hstep : c.step s call = some s') : Accounts c s' := by
  cases call with
  | reserveMemorySpace address reply =>
    rw [← Option.some.inj hstep]
    exact h.reserveMemorySpace address reply
  | unReserveMemorySpace =>
    rcases h.unReserveMemorySpace with ⟨s'', hs'', haccounts, _⟩
    rw [← Option.some.inj (hs''.symm.trans hstep)]
    exact haccounts
  | allocLocalMemory size reply =>
    rcases Option.map_eq_some_iff.mp hstep with ⟨r, hr, rfl⟩
    exact h.allocLocalMemory hkeeps hr
  | registerMemory addr size =>
    rw [← Option.some.inj hstep]
    exact h.registerMemory addr size
  | releaseSliceMemory slice =>
    rw [← Option.some.inj hstep]
    exact h.releaseSliceMemory slice
  | importExInfo allExInfo =>
    rw [← Option.some.inj hstep]
    exact h.importExInfo allExInfo
  | mmap reply =>
    rcases Option.map_eq_some_iff.mp hstep with ⟨r, hr, rfl⟩
    exact h.mmap hr
  | unmap =>
    rw [← Option.some.inj hstep]
    exact h.unmap
  | removeImported ranks =>
    rw [← Option.some.inj hstep]
    exact h.removeImported ranks

/-- Every call of a sequence keeps its tables. -/
def Config.KeepsAll (c : Config) (s : Segment) : List Call → Prop
  | [] => True
  | call :: rest => c.Keeps s call ∧
    match c.step s call with
    | none => True
    | some s' => c.KeepsAll s' rest

instance (c : Config) (s : Segment) (size : ℕ) (reply : AllocReply) :
    Decidable (c.obtains s size reply) :=
  inferInstanceAs (Decidable (_ ∧ _ ∧ _ ∧ _))

instance (c : Config) (s : Segment) : (call : Call) → Decidable (c.Keeps s call)
  | .allocLocalMemory size reply =>
    inferInstanceAs (Decidable (c.obtains s size reply → (_ ↔ _ ∧ _)))
  | .reserveMemorySpace _ _ => isTrue trivial
  | .unReserveMemorySpace => isTrue trivial
  | .registerMemory _ _ => isTrue trivial
  | .releaseSliceMemory _ => isTrue trivial
  | .importExInfo _ => isTrue trivial
  | .mmap _ => isTrue trivial
  | .unmap => isTrue trivial
  | .removeImported _ => isTrue trivial

instance Config.decidableKeepsAll (c : Config) :
    (s : Segment) → (calls : List Call) → Decidable (c.KeepsAll s calls)
  | _, [] => isTrue trivial
  | s, call :: rest =>
    have : Decidable (match c.step s call with
        | none => True
        | some s' => c.KeepsAll s' rest) :=
      match c.step s call with
      | none => isTrue trivial
      | some s' => Config.decidableKeepsAll c s' rest
    inferInstanceAs (Decidable (_ ∧ _))

theorem Accounts.run (h : Accounts c s) {calls : List Call} (hkeeps : c.KeepsAll s calls)
    {s' : Segment} (hrun : c.run s calls = some s') : Accounts c s' := by
  induction calls generalizing s with
  | nil =>
    rw [← Option.some.inj hrun]
    exact h
  | cons call rest ih =>
    rw [Config.run, List.foldlM_cons] at hrun
    rcases Option.bind_eq_some_iff.mp hrun with ⟨mid, hstep, hrest⟩
    have hlater := hkeeps.2
    rw [hstep] at hlater
    exact ih (h.step hkeeps.1 hstep) hlater hrest

theorem Accounts.lifecycle (h : Accounts c s) : Lifecycle s.log :=
  lifecycle_of_play h.ledger h.issued

/-- `Unmap` and then `UnReserveMemorySpace` give everything back. -/
theorem Accounts.teardown (h : Accounts c s) :
    ∃ s', c.run s [.unmap, .unReserveMemorySpace] = some s' ∧ Lifecycle s'.log ∧ TornDown s'.log := by
  rcases h.unmap.unReserveMemorySpace with ⟨s', hs', haccounts, hheld⟩
  have hnone : (c.unmap s).mappedMem = OrderedSet.empty := by
    unfold Config.unmap
    split
    · rename_i hshared
      exact h.unshared (by simpa using hshared)
    · rfl
  rw [hnone] at hheld
  refine ⟨s', ?_, haccounts.lifecycle, tornDown_of_play ?_ haccounts.issued⟩
  · show ((c.unmap s).unReserveMemorySpace >>= pure) = some s'
    rw [hs']
    rfl
  · rw [haccounts.ledger, hheld]
    rfl

/-- As long as every allocation keeps its tables, no handle is released twice or used after its
release, no reservation is released twice and only mapped addresses are unmapped; and after a
teardown everything was released once. -/
theorem handles_lifecycle (c : Config) (calls : List Call) (s : Segment)
    (hkeeps : c.KeepsAll .init calls) (hrun : c.run .init calls = some s) :
    Lifecycle s.log ∧
      ∃ s', c.run s [.unmap, .unReserveMemorySpace] = some s' ∧ Lifecycle s'.log ∧ TornDown s'.log :=
  ⟨(Accounts.init.run hkeeps hrun).lifecycle, (Accounts.init.run hkeeps hrun).teardown⟩

/-- Two ranks with a heap of one gigabyte each. -/
def pairConfig : Config where
  segType := .hbm
  shared := true
  size := 2 ^ 30
  rankId := 0
  rankCnt := 2
  socType := .ascend910C
  superPodId := 0
  serverId := 0
  logicDeviceId := 0

/-- The reservation of the sample segment. -/
def pairReserve : Call :=
  .reserveMemorySpace true ⟨some hybmGvmStartAddr, fun _ _ => none⟩

/-- An allocation of one page. -/
def pairAlloc (mapped : Bool) : Call :=
  .allocLocalMemory deviceLargePageSize ⟨true, true, true, true, true, mapped⟩

/-- An import from rank 1. -/
def pairImport : Call :=
  .importExInfo [⟨some ⟨hbmSliceExportInfoMagic, 1, deviceLargePageSize, 0, 0, 1, 7⟩, .success⟩]

/-- Two ranks that map each other. -/
theorem handles_lifecycle_pair :
    ∃ s, pairConfig.run .init [pairReserve, pairAlloc true, pairImport, .mmap fun _ => ⟨true, true⟩]
        = some s ∧ s.handles = 2 ∧ Lifecycle s.log ∧
      ∃ s', pairConfig.run s [.unmap, .unReserveMemorySpace] = some s' ∧ Lifecycle s'.log ∧
        TornDown s'.log := by
  obtain ⟨s, hrun, hhandles⟩ := (Option.any_eq_true (fun s : Segment => s.handles == 2)
    (pairConfig.run .init
      [pairReserve, pairAlloc true, pairImport, .mmap fun _ => ⟨true, true⟩])).mp (by decide +kernel)
  exact ⟨s, hrun, by simpa using hhandles, handles_lifecycle pairConfig _ s (by decide +kernel) hrun⟩

/-- The mapping of an allocation fails, and the segment is torn down: the handle is released by the
allocation and again with its slice, at an address that was never mapped. -/
theorem not_lifecycle_failedMap :
    ¬ ∀ (c : Config) (calls : List Call) (s : Segment), c.run .init calls = some s →
      Lifecycle s.log := by
  intro h
  obtain ⟨s, hrun, htwice⟩ := (Option.any_eq_true
    (fun s : Segment => s.log.count (.memRelease 0) == 2)
    (pairConfig.run .init [pairReserve, pairAlloc false, .unmap, .unReserveMemorySpace])).mp
      (by decide +kernel)
  have honce := (h _ _ s hrun).releasedOnce 0
  rw [beq_iff_eq] at htwice
  omega

end AscendShmem.VmmSegment
