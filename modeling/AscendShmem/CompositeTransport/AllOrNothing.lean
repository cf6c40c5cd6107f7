import AscendShmem.CompositeTransport.Managers
import AscendShmem.Lib.Run

/-!
# The composite opens, registers and connects all or nothing

Between two calls either all managers of the order are in place or none is, and those in place hold the
same regions. A failing call puts this back: the managers it has opened are closed in reverse order, a
region it has registered is given back by the managers that took it. That needs a region that is new to
them and an `OpenDevice` that finds no manager in place.
-/

namespace AscendShmem.CompositeTransport

open Lib

/-! ## The property of a call -/

/-- The manager that the call opens. -/
def SubCall.opened : SubCall → Option ℕ
  | .openDevice id _ => some id
  | _ => none

/-- The manager that the call closes. -/
def SubCall.closed : SubCall → Option ℕ
  | .closeDevice id => some id
  | _ => none

/-- The manager that has accepted the region. -/
def SubCall.accepted : SubCall → Option ℕ
  | .registerMemoryRegion id _ ret => if ret = aclshmemSuccess then some id else none
  | _ => none

/-- The manager that is asked to drop the region. -/
def SubCall.unregistered : SubCall → Option ℕ
  | .unregisterMemoryRegion id _ => some id
  | _ => none

/-- The managers in place for some types. -/
def State.placed (s : State) (types : List TransportType) : List ℕ :=
  (types.filterMap s.managers).map Manager.id

/-- The managers in place hold the same regions. -/
def State.Agree (s : State) : Prop :=
  ∀ type type' m m', s.managers type = some m → s.managers type' = some m' → m.regions = m'.regions

/-- Every manager ever opened is in place or has been closed once. -/
def ClosedOnce (order : List TransportType) (s : State) : Prop :=
  ∀ id, (s.log.filterMap SubCall.closed).count id
    = if id ∈ s.log.filterMap SubCall.opened ∧ id ∉ s.placed order then 1 else 0

/-- The manager held no such region. -/
def State.Newly (s : State) (addr id : ℕ) : Prop :=
  ∀ type m, s.managers type = some m → m.id = id → addr ∉ m.regions

/-- What a call leaves that answers `ret` and makes the sub-calls `calls`. -/
def CallGood (order : List TransportType) (s s' : State) (ret : Result) (calls : List SubCall) :
    Call → Prop
  | .openDevice _ => ret ≠ aclshmemSuccess → (∀ type, s'.managers type = none) ∧
    calls.filterMap SubCall.closed = (calls.filterMap SubCall.opened).reverse
  | .closeDevice _ => (∀ type, s'.managers type = none) ∧
    calls.filterMap SubCall.closed = (s.placed order).reverse
  | .connect .. | .connectWithOptions .. => ret ≠ aclshmemSuccess →
    (∀ type, s'.managers type = none) ∧ calls.filterMap SubCall.closed = (s.placed order).reverse
  | .registerMemoryRegion addr _ _ =>
    (ret ≠ aclshmemSuccess → s'.managers = s.managers ∧
      (calls.filterMap SubCall.unregistered).Nodup ∧
      ∀ id, id ∈ calls.filterMap SubCall.unregistered ↔
        id ∈ calls.filterMap SubCall.accepted ∧ s.Newly addr id) ∧
    (ret = aclshmemSuccess → ∀ type m, s'.managers type = some m → addr ∈ m.regions)
  | .unregisterMemoryRegion addr _ => ret = aclshmemSuccess →
    ∀ type m, s'.managers type = some m → addr ∉ m.regions

/-- What the call leaves: every manager closed at most once, agreement behind a success, and the
calls of the managers that the promise allows. -/
def Good (order : List TransportType) (s : State) (call : Call) : Prop :=
  let r := run order s call
  ClosedOnce order r.2 ∧ (r.1 = aclshmemSuccess → r.2.Agree) ∧
    ∃ calls, r.2.log = s.log ++ calls ∧ CallGood order s r.2 r.1 calls call

/-- No device is opened twice; when a region is registered again no manager behind the first one
refuses; a manager gives back a new region that it has taken; a region is given back by all managers or
by none. -/
def Keeps (order : List TransportType) (s : State) : Call → Prop
  | .openDevice _ => ∀ type, s.managers type = none
  | .registerMemoryRegion addr accept undo =>
    ((∃ type m, s.managers type = some m ∧ addr ∈ m.regions) → accept 0 = aclshmemSuccess →
      ∀ i < order.length, accept i = aclshmemSuccess) ∧
    ∀ k < order.length, accept k ≠ aclshmemSuccess → (∀ i < k, accept i = aclshmemSuccess) →
      ∀ i < k, (undo i).gone
  | .unregisterMemoryRegion _ reply =>
    (∀ i < order.length, (reply i).gone) ∨ ∀ i < order.length, ¬ (reply i).gone
  | _ => True

/-! ## Managers of a list -/

section Lists

variable {order types : List TransportType} {s : State}

theorem placed_congr {s' : State} (h : ∀ type ∈ types, s'.managers type = s.managers type) :
    s'.placed types = s.placed types := by
  rw [State.placed, State.placed, List.filterMap_congr h]

theorem placed_append (s : State) (front back : List TransportType) :
    s.placed (front ++ back) = s.placed front ++ s.placed back := by
  rw [State.placed, List.filterMap_append, List.map_append]
  rfl

theorem placed_reverse (s : State) (types : List TransportType) :
    s.placed types.reverse = (s.placed types).reverse := by
  rw [State.placed, List.filterMap_reverse, List.map_reverse]
  rfl

theorem placed_eq_nil (h : ∀ type ∈ types, s.managers type = none) : s.placed types = [] := by
  rw [State.placed, List.filterMap_eq_nil_iff.mpr h]
  rfl

theorem placed_cons_none {type : TransportType} (h : s.managers type = none)
    (types : List TransportType) : s.placed (type :: types) = s.placed types := by
  rw [State.placed, List.filterMap_cons_none h]
  rfl

theorem placed_cons_some {type : TransportType} {m : Manager} (h : s.managers type = some m)
    (types : List TransportType) : s.placed (type :: types) = m.id :: s.placed types := by
  rw [State.placed, List.filterMap_cons_some h]
  rfl

theorem closeAt_none {type : TransportType} (h : s.managers type = none) : s.closeAt type = s := by
  rw [State.closeAt, h]

/-- Managers are closed one after the other. -/
theorem foldl_closeAt (hnodup : types.Nodup) (s : State) : types.foldl State.closeAt s =
    { s with
      managers := fun type => if type ∈ types then none else s.managers type
      log := s.log ++ (s.placed types).map .closeDevice } := by
  induction types generalizing s with
  | nil => simp [State.placed]
  | cons type types ih =>
    obtain ⟨hnot, hrest⟩ := List.nodup_cons.mp hnodup
    rw [List.foldl_cons, ih hrest]
    cases htype : s.managers type with
    | none =>
      rw [closeAt_none htype, placed_cons_none htype]
      congr 1
      funext t
      by_cases ht : t = type
      · simp [ht, hnot, htype]
      · simp [ht]
    | some m =>
      have hplaced : (s.closeAt type).placed types = s.placed types := by
        refine placed_congr fun t ht => ?_
        have hne : t ≠ type := by
          rintro rfl
          exact hnot ht
        simp only [State.closeAt, htype, State.call, State.put]
        exact Function.update_of_ne hne _ _
      rw [hplaced, placed_cons_some htype]
      simp only [State.closeAt, htype, State.call, State.put]
      congr 1
      · funext t
        by_cases ht : t = type
        · simp [ht]
        · simp [ht]
      · simp

/-- `CloseDevice` closes what `CloseManagersReverse` closes. -/
theorem closeLoop_eq (reply : TransportType → Result) (types : List TransportType) (result : Result)
    (s : State) : (closeLoop reply types result s).2 = types.foldl State.closeAt s := by
  induction types generalizing result s with
  | nil => rfl
  | cons type types ih =>
    rw [List.foldl_cons, closeLoop]
    cases htype : s.managers type with
    | none =>
      dsimp only
      rw [ih, closeAt_none htype]
    | some m =>
      dsimp only
      rw [ih]

end Lists

/-! ## The invariant -/

/-- What holds at all times, also while a call runs. -/
structure Core (order : List TransportType) (s : State) : Prop where
  off : ∀ type ∉ order, s.managers type = none
  nodup : (s.placed order).Nodup
  placed : ∀ id ∈ s.placed order, id ∈ s.log.filterMap SubCall.opened
  opened : ∀ id ∈ s.log.filterMap SubCall.opened, id < s.created
  closed : ClosedOnce order s

/-- What holds between two calls. -/
structure Inv (order : List TransportType) (s : State) : Prop where
  core : Core order s
  whole : (∀ type, s.managers type = none) ∨ ∀ type ∈ order, (s.managers type).isSome
  agree : s.Agree

section Invariant

variable {order : List TransportType} {s : State}

theorem inv_init (order : List TransportType) : Inv order .init where
  core := {
    off _ _ := rfl
    nodup := by rw [placed_eq_nil fun _ _ => rfl]; exact List.nodup_nil
    placed := by rw [placed_eq_nil fun _ _ => rfl]; exact fun _ h => nomatch h
    opened _ h := nomatch h
    closed _ := rfl }
  whole := .inl fun _ => rfl
  agree _ _ _ _ h := nomatch h

/-- The managers are closed in reverse order and none is left in place. -/
theorem closeAll_eq (hnodup : order.Nodup) (hoff : ∀ type ∉ order, s.managers type = none) :
    order.reverse.foldl State.closeAt s =
      { s with
        managers := fun _ => none
        log := s.log ++ (s.placed order).reverse.map .closeDevice } := by
  rw [foldl_closeAt (List.nodup_reverse.mpr hnodup), placed_reverse]
  congr 1
  funext type
  by_cases htype : type ∈ order
  · simp [htype]
  · simp [htype, hoff type htype]

theorem opened_closes (ids : List ℕ) : (ids.map SubCall.closeDevice).filterMap SubCall.opened = [] :=
  List.filterMap_eq_nil_iff.mpr fun call hcall => by
    obtain ⟨id, _, rfl⟩ := List.mem_map.mp hcall
    rfl

theorem closed_closes (ids : List ℕ) : (ids.map SubCall.closeDevice).filterMap SubCall.closed = ids := by
  rw [List.filterMap_map]
  exact List.filterMap_some

/-- All managers closed. -/
theorem Core.closeAll (h : Core order s) (connected : Bool) : Core order
    { s with
      managers := fun _ => none
      connected := connected
      log := s.log ++ (s.placed order).reverse.map .closeDevice } where
  off _ _ := rfl
  nodup := by rw [placed_eq_nil fun _ _ => rfl]; exact List.nodup_nil
  placed := by rw [placed_eq_nil fun _ _ => rfl]; exact fun _ h => nomatch h
  opened id hid := by
    rw [List.filterMap_append, opened_closes, List.append_nil] at hid
    exact h.opened id hid
  closed id := by
    have hnone (log : List SubCall) :
        State.placed ⟨fun _ => none, connected, s.created, log⟩ order = [] :=
      placed_eq_nil fun _ _ => rfl
    rw [List.filterMap_append, List.filterMap_append, opened_closes, closed_closes, List.append_nil,
      List.count_append, List.count_reverse, h.closed id, hnone]
    by_cases hplaced : id ∈ s.placed order
    · rw [List.count_eq_one_of_mem h.nodup hplaced, if_neg fun hboth => hboth.2 hplaced,
        if_pos ⟨h.placed id hplaced, List.not_mem_nil⟩]
    · rw [List.count_eq_zero_of_not_mem hplaced]
      simp [hplaced]

/-- A call that only adds other calls than opening and closing, and keeps the managers' numbers. -/
theorem Core.of_same (h : Core order s) {s' : State} {calls : List SubCall}
    (hlog : s'.log = s.log ++ calls) (hcreated : s'.created = s.created)
    (hids : ∀ type, (s'.managers type).map Manager.id = (s.managers type).map Manager.id)
    (hopened : calls.filterMap SubCall.opened = []) (hclosed : calls.filterMap SubCall.closed = []) :
    Core order s' := by
  have hplaced : s'.placed order = s.placed order := by
    rw [State.placed, State.placed, List.map_filterMap, List.map_filterMap]
    exact List.filterMap_congr fun type _ => hids type
  have hlog' : s'.log.filterMap SubCall.opened = s.log.filterMap SubCall.opened := by
    rw [hlog, List.filterMap_append, hopened, List.append_nil]
  constructor
  case off =>
    intro type htype
    have hid := hids type
    rw [h.off type htype] at hid
    exact Option.map_eq_none_iff.mp hid
  case nodup => exact hplaced ▸ h.nodup
  case placed =>
    rw [hplaced, hlog']
    exact h.placed
  case opened =>
    rw [hlog', hcreated]
    exact h.opened
  case closed =>
    intro id
    rw [hplaced, hlog', ← h.closed id, hlog, List.filterMap_append, hclosed, List.append_nil]

/-! ## Opening and closing -/

/-- All managers in place are closed once, in reverse order, and none is left. -/
theorem closeManagersReverse_spec (hnodup : order.Nodup) (h : Core order s) :
    Inv order (closeManagersReverse order s) ∧
      (∀ type, (closeManagersReverse order s).managers type = none) ∧
      (closeManagersReverse order s).log = s.log ++ (s.placed order).reverse.map .closeDevice := by
  rw [closeManagersReverse, closeAll_eq hnodup h.off]
  exact ⟨⟨h.closeAll false, .inl fun _ => rfl, fun _ _ _ _ hm => (nomatch hm)⟩, fun _ => rfl, rfl⟩

theorem openAt_managers (s : State) (type : TransportType) :
    (s.openAt type).managers = Function.update s.managers type (some ⟨s.created, ∅⟩) := rfl

/-- A manager is put into an empty place. -/
theorem placed_openAt_perm (hnodup : order.Nodup) {type : TransportType} (htype : type ∈ order)
    (hnone : s.managers type = none) :
    ((s.openAt type).placed order).Perm (s.created :: s.placed order) := by
  obtain ⟨front, back, rfl⟩ := List.append_of_mem htype
  obtain ⟨hfront, hback⟩ : type ∉ front ∧ type ∉ back := by
    rw [List.nodup_middle, List.nodup_cons, List.mem_append, not_or] at hnodup
    exact hnodup.1
  have hsame : ∀ types : List TransportType, type ∉ types →
      (s.openAt type).placed types = s.placed types := by
    refine fun types hnot => placed_congr fun t ht => ?_
    rw [openAt_managers]
    exact Function.update_of_ne (ne_of_mem_of_not_mem ht hnot) _ _
  rw [placed_append, placed_append, placed_cons_some (Function.update_self ..),
    placed_cons_none hnone, hsame front hfront, hsame back hback]
  exact List.perm_middle

/-- A new manager in an empty place keeps the counts of openings and closings. -/
theorem Core.openAt (h : Core order s) (hnodup : order.Nodup) {type : TransportType}
    (htype : type ∈ order) (hnone : s.managers type = none) : Core order (s.openAt type) := by
  have hperm := placed_openAt_perm hnodup htype hnone
  have hopened : (s.openAt type).log.filterMap SubCall.opened
      = s.log.filterMap SubCall.opened ++ [s.created] := List.filterMap_append
  have hclosed : (s.openAt type).log.filterMap SubCall.closed = s.log.filterMap SubCall.closed :=
    List.filterMap_append.trans (List.append_nil _)
  have hfresh : s.created ∉ s.log.filterMap SubCall.opened := fun hid =>
    Nat.lt_irrefl _ (h.opened _ hid)
  constructor
  case off =>
    intro t ht
    rw [openAt_managers, Function.update_of_ne (ne_of_mem_of_not_mem htype ht).symm]
    exact h.off t ht
  case nodup =>
    exact hperm.nodup_iff.mpr (List.nodup_cons.mpr ⟨fun hid => hfresh (h.placed _ hid), h.nodup⟩)
  case placed =>
    intro id hid
    rw [hopened]
    rcases List.mem_cons.mp (hperm.mem_iff.mp hid) with rfl | hold
    · exact List.mem_append_right _ (List.mem_singleton_self _)
    · exact List.mem_append_left _ (h.placed id hold)
  case opened =>
    intro id hid
    rw [hopened] at hid
    rcases List.mem_append.mp hid with hold | hnew
    · exact Nat.lt_succ_of_lt (h.opened id hold)
    · rw [List.mem_singleton.mp hnew]
      exact Nat.lt_succ_self _
  case closed =>
    intro id
    rw [hclosed, hopened, h.closed id]
    simp only [hperm.mem_iff, List.mem_cons, List.mem_append]
    by_cases hid : id = s.created
    · simp [hid, hfresh]
    · simp [hid]

/-- A manager that did not open, and was closed. -/
theorem Core.failed (h : Core order s) (ret : Result) : Core order
    { s.call [.openDevice s.created ret, .closeDevice s.created] with created := s.created + 1 } := by
  have hopened : (s.call [.openDevice s.created ret, .closeDevice s.created]).log.filterMap
      SubCall.opened = s.log.filterMap SubCall.opened ++ [s.created] := List.filterMap_append
  have hclosed : (s.call [.openDevice s.created ret, .closeDevice s.created]).log.filterMap
      SubCall.closed = s.log.filterMap SubCall.closed ++ [s.created] := List.filterMap_append
  have hfresh : s.created ∉ s.log.filterMap SubCall.opened := fun hid =>
    Nat.lt_irrefl _ (h.opened _ hid)
  refine ⟨h.off, h.nodup, fun id hid => ?_, fun id hid => ?_, fun id => ?_⟩
  · exact hopened ▸ List.mem_append_left _ (h.placed id hid)
  · rcases List.mem_append.mp (hopened ▸ hid) with hold | hnew
    · exact Nat.lt_succ_of_lt (h.opened id hold)
    · rw [List.mem_singleton.mp hnew]
      exact Nat.lt_succ_self _
  · have hplaced : id ∈ s.placed order → id ≠ s.created := fun hid heq =>
      hfresh (heq ▸ h.placed id hid)
    change List.count id (List.filterMap SubCall.closed (s.call _).log)
      = if id ∈ List.filterMap SubCall.opened (s.call _).log ∧ id ∉ s.placed order then 1 else 0
    rw [hopened, hclosed, List.count_append, h.closed id]
    simp only [List.mem_append, List.mem_singleton]
    by_cases hid : id = s.created
    · have hnot : s.created ∉ s.placed order := fun hmem => hplaced (hid ▸ hmem) hid
      simp [hid, hfresh, hnot]
    · simp [hid, Ne.symm hid]

/-- The managers opened for a list of types. -/
theorem foldl_openAt (hnodup : order.Nodup) {types : List TransportType} (h : Core order s)
    (hsub : ∀ type ∈ types, type ∈ order) (htypes : types.Nodup)
    (hnone : ∀ type ∈ types, s.managers type = none) :
    Core order (types.foldl State.openAt s) ∧
      (types.foldl State.openAt s).placed types = List.range' s.created types.length ∧
      (∀ type ∉ types, (types.foldl State.openAt s).managers type = s.managers type) ∧
      (∀ type ∈ types, ∃ id, (types.foldl State.openAt s).managers type = some ⟨id, ∅⟩) ∧
      (types.foldl State.openAt s).created = s.created + types.length ∧
      (types.foldl State.openAt s).log = s.log ++
        (List.range' s.created types.length).map (.openDevice · aclshmemSuccess) := by
  induction types generalizing s with
  | nil => exact ⟨h, rfl, fun _ _ => rfl, fun _ hmem => (nomatch hmem), rfl, (List.append_nil _).symm⟩
  | cons type types ih =>
    obtain ⟨hnot, hrest⟩ := List.nodup_cons.mp htypes
    have htype := hnone type List.mem_cons_self
    have hothers : ∀ t ∈ types, (s.openAt type).managers t = none := by
      intro t ht
      rw [openAt_managers, Function.update_of_ne (ne_of_mem_of_not_mem ht hnot)]
      exact hnone t (List.mem_cons_of_mem _ ht)
    obtain ⟨hcore, hplaced, hsame, hnew, hcreated, hlog⟩ :=
      ih (h.openAt hnodup (hsub type List.mem_cons_self) htype)
        (fun t ht => hsub t (List.mem_cons_of_mem _ ht)) hrest hothers
    have hhead : (types.foldl State.openAt (s.openAt type)).managers type
        = some ⟨s.created, ∅⟩ := (hsame type hnot).trans (Function.update_self ..)
    rw [List.foldl_cons]
    refine ⟨hcore, ?_, fun t ht => ?_, fun t ht => ?_, ?_, ?_⟩
    · rw [placed_cons_some hhead, hplaced, List.length_cons, List.range'_succ]
      rfl
    · rw [List.mem_cons, not_or] at ht
      rw [hsame t ht.2, openAt_managers, Function.update_of_ne ht.1]
    · rcases List.mem_cons.mp ht with rfl | hmem
      · exact ⟨_, hhead⟩
      · exact hnew t hmem
    · rw [hcreated, List.length_cons]
      change s.created + 1 + types.length = _
      omega
    · rw [hlog, List.length_cons, List.range'_succ, List.map_cons]
      exact (List.append_assoc ..).trans rfl

/-- What the loop of `OpenDevice` does: it opens the managers of a front of the list, and where one is
not made or does not open, this one is closed and all that are in place. -/
theorem openLoop_cases (order : List TransportType) (reply : ℕ → OpenReply) (i : ℕ) (types : List TransportType) (s : State) :
    openLoop order reply i types s = (aclshmemSuccess, types.foldl State.openAt s) ∨
    ∃ front back ret, types = front ++ back ∧ ret ≠ aclshmemSuccess ∧
      (openLoop order reply i types s
          = (ret, closeManagersReverse order (front.foldl State.openAt s)) ∨
        openLoop order reply i types s = (ret, closeManagersReverse order
          { (front.foldl State.openAt s).call
              [.openDevice (front.foldl State.openAt s).created ret,
                .closeDevice (front.foldl State.openAt s).created] with
            created := (front.foldl State.openAt s).created + 1 })) := by
  induction types generalizing i s with
  | nil => exact .inl rfl
  | cons type types ih =>
    rw [openLoop]
    split
    case isTrue => exact .inr ⟨[], type :: types, _, rfl, by decide, .inl rfl⟩
    case isFalse =>
      split
      case isTrue hret => exact .inr ⟨[], type :: types, _, rfl, hret, .inr rfl⟩
      case isFalse =>
        rcases ih (i + 1) (s.openAt type) with hopen | ⟨front, back, ret, rfl, hret, hfail⟩
        · exact .inl hopen
        · exact .inr ⟨type :: front, back, ret, rfl, hret, hfail⟩

/-- Either all managers are opened, or the ones that were are closed again in reverse order. -/
theorem openDevice_good (hnodup : order.Nodup) (h : Inv order s) (hnone : ∀ type, s.managers type = none)
    (reply : ℕ → OpenReply) :
    Inv order (openDevice order reply s).2 ∧ Good order s (.openDevice reply) := by
  -- opening a front of the order changes the managers of this front only
  have hfront : ∀ front back, order = front ++ back → _ := fun front back horder =>
    foldl_openAt hnodup h.core (fun type hmem => horder ▸ List.mem_append_left _ hmem)
      (hnodup.sublist (horder ▸ List.sublist_append_left _ _)) fun type _ => hnone type
  -- the managers are numbered in the order of the types
  have hids : ∀ front back, order = front ++ back →
      (front.foldl State.openAt s).placed order = List.range' s.created front.length := by
    intro front back horder
    obtain ⟨_, hplaced, hsame, _⟩ := hfront front back horder
    have hback : (front.foldl State.openAt s).placed back = [] := placed_eq_nil fun type hmem => by
      rw [hsame type fun hmem' => ?_, hnone]
      rw [horder] at hnodup
      exact (List.disjoint_of_nodup_append hnodup) hmem' hmem
    rw [horder, placed_append, hplaced, hback, List.append_nil]
  have hopenedIds : ∀ n k, ((List.range' n k).map (SubCall.openDevice · aclshmemSuccess)).filterMap
      SubCall.opened = List.range' n k := by
    intro n k
    rw [List.filterMap_map]
    exact List.filterMap_some
  have hclosedIds : ∀ n k, ((List.range' n k).map (SubCall.openDevice · aclshmemSuccess)).filterMap
      SubCall.closed = [] := by
    intro n k
    rw [List.filterMap_map]
    exact List.filterMap_eq_nil_iff.mpr fun _ _ => rfl
  simp only [Good, run, openDevice]
  rcases openLoop_cases order reply 0 order s with
    hopen | ⟨front, back, ret, horder, hret, hclose | hclose⟩
  -- every manager is opened, and holds no region yet
  · obtain ⟨hcore, _, hsame, hnew, _, hlog⟩ := hfront order [] (List.append_nil _).symm
    have hempty : ∀ type m, (order.foldl State.openAt s).managers type = some m → m.regions = ∅ := by
      intro type m hm
      by_cases htype : type ∈ order
      · obtain ⟨id, hid⟩ := hnew type htype
        rw [Option.some.inj (hm.symm.trans hid)]
      · rw [hsame type htype, hnone type] at hm
        cases hm
    have hagree : (order.foldl State.openAt s).Agree := fun type type' m m' hm hm' =>
      (hempty type m hm).trans (hempty type' m' hm').symm
    rw [hopen]
    refine ⟨⟨hcore, .inr fun type htype => ?_, hagree⟩, hcore.closed, fun _ => hagree, _, hlog,
      fun hne => absurd rfl hne⟩
    obtain ⟨id, hid⟩ := hnew type htype
    rw [hid]
    rfl
  -- a manager is not created: those before it are closed
  · obtain ⟨hcore, _, _, _, _, hlog⟩ := hfront front back horder
    obtain ⟨hinv, hmanagers, hlog'⟩ := closeManagersReverse_spec hnodup hcore
    rw [hclose]
    refine ⟨hinv, hinv.core.closed, fun hsuccess => absurd hsuccess hret, _,
      hlog'.trans (by rw [hlog, List.append_assoc]), fun _ => ⟨hmanagers, ?_⟩⟩
    rw [List.filterMap_append, List.filterMap_append, hopenedIds, hclosedIds, opened_closes, closed_closes,
      hids front back horder, List.append_nil, List.nil_append]
  -- a manager is created and does not open: it is closed before the others
  · obtain ⟨hcore, _, _, _, hcreated, hlog⟩ := hfront front back horder
    obtain ⟨hinv, hmanagers, hlog'⟩ := closeManagersReverse_spec hnodup (hcore.failed ret)
    rw [hclose]
    let failing : List SubCall := [.openDevice (front.foldl State.openAt s).created ret,
      .closeDevice (front.foldl State.openAt s).created]
    have hcalls : (closeManagersReverse order { (front.foldl State.openAt s).call failing with
        created := (front.foldl State.openAt s).created + 1 }).log
        = s.log ++ ((List.range' s.created front.length).map (.openDevice · aclshmemSuccess) ++
          (failing ++ (List.range' s.created front.length).reverse.map .closeDevice)) := by
      rw [← List.append_assoc, ← List.append_assoc, ← hlog, ← hids front back horder]
      exact hlog'
    refine ⟨hinv, hinv.core.closed, fun hsuccess => absurd hsuccess hret, _, hcalls,
      fun _ => ⟨hmanagers, ?_⟩⟩
    rw [List.filterMap_append, List.filterMap_append, List.filterMap_append, List.filterMap_append,
      hopenedIds, hclosedIds, opened_closes, closed_closes, List.append_nil, List.nil_append,
      List.reverse_append]
    rfl

theorem closeDevice_eq (reply : TransportType → Result) (s : State) :
    (closeDevice order reply s).2 = closeManagersReverse order s := by
  rw [closeDevice, closeManagersReverse, closeLoop_eq]

/-- `CloseDevice` closes what is in place. -/
theorem closeDevice_good (hnodup : order.Nodup) (h : Inv order s) (reply : TransportType → Result) :
    Inv order (closeDevice order reply s).2 ∧ Good order s (.closeDevice reply) := by
  obtain ⟨hinv, hmanagers, hlog⟩ := closeManagersReverse_spec hnodup h.core
  simp only [Good, run, closeDevice_eq]
  refine ⟨hinv, hinv.core.closed, fun _ => hinv.agree, _, hlog, hmanagers, ?_⟩
  rw [closed_closes]

/-! ## Connecting -/

/-- What the loop of `Connect` does: it calls the managers in place, and closes all after a failure. -/
theorem connectLoop_cases (order : List TransportType) (reply : ℕ → Result)
    (close : TransportType → Result) (i : ℕ) (types : List TransportType) (s : State) :
    ∃ calls : List SubCall, calls.filterMap SubCall.opened = [] ∧ calls.filterMap SubCall.closed = [] ∧
      (connectLoop order reply close i types s = (aclshmemSuccess, s.call calls) ∨
      ∃ ret, ret ≠ aclshmemSuccess ∧ connectLoop order reply close i types s
        = (ret, closeManagersReverse order (s.call calls))) := by
  induction types generalizing i s with
  | nil =>
    refine ⟨[], rfl, rfl, .inl ?_⟩
    rw [State.call, List.append_nil]
    rfl
  | cons type types ih =>
    rw [connectLoop]
    cases htype : s.managers type with
    | none => exact ih (i + 1) s
    | some m =>
      dsimp only
      split
      case isTrue hret =>
        refine ⟨[.connect m.id (reply i)], rfl, rfl, .inr ⟨reply i, hret, ?_⟩⟩
        rw [closeDevice_eq]
      case isFalse =>
        obtain ⟨calls, hopened, hclosed, hcases⟩ := ih (i + 1) (s.call [.connect m.id (reply i)])
        refine ⟨.connect m.id (reply i) :: calls, hopened, hclosed, ?_⟩
        have hcall : (s.call [.connect m.id (reply i)]).call calls
            = s.call (.connect m.id (reply i) :: calls) := by
          simp [State.call]
        rw [← hcall]
        exact hcases

theorem inv_call (h : Inv order s) {calls : List SubCall}
    (hopened : calls.filterMap SubCall.opened = []) (hclosed : calls.filterMap SubCall.closed = [])
    (connected : Bool) : Inv order { s.call calls with connected := connected } :=
  ⟨h.core.of_same rfl rfl (fun _ => rfl) hopened hclosed, h.whole, h.agree⟩

/-- A refused connection closes all managers. -/
theorem connect_good (hnodup : order.Nodup) (h : Inv order s) (reply : ℕ → Result)
    (close : TransportType → Result) :
    Inv order (connect order reply close s).2 ∧ Good order s (.connect reply close) := by
  simp only [Good, run, connect]
  obtain ⟨calls, hopened, hclosed, hconnect | ⟨ret, hret, hconnect⟩⟩ :=
    connectLoop_cases order reply close 0 order s
  · have hinv := inv_call h hopened hclosed s.connected
    rw [hconnect]
    exact ⟨hinv, hinv.core.closed, fun _ => hinv.agree, calls, rfl, fun hne => absurd rfl hne⟩
  · obtain ⟨hinv, hmanagers, hlog⟩ :=
      closeManagersReverse_spec hnodup (inv_call h hopened hclosed s.connected).core
    rw [hconnect]
    refine ⟨hinv, hinv.core.closed, fun hsuccess => absurd hsuccess hret, _,
      hlog.trans (List.append_assoc ..), fun _ => ⟨hmanagers, ?_⟩⟩
    rw [List.filterMap_append, hclosed, closed_closes]
    rfl

/-- A refused connection closes all managers. -/
theorem connectWithOptions_good (hnodup : order.Nodup) (h : Inv order s) (reply : ℕ → Result)
    (close : TransportType → Result) :
    Inv order (connectWithOptions order reply close s).2 ∧
      Good order s (.connectWithOptions reply close) := by
  simp only [Good, run, connectWithOptions]
  obtain ⟨calls, hopened, hclosed, hconnect | ⟨ret, hret, hconnect⟩⟩ :=
    connectLoop_cases order reply close 0 order s
  · have hinv := inv_call h hopened hclosed true
    rw [hconnect]
    exact ⟨hinv, hinv.core.closed, fun _ => hinv.agree, calls, rfl, fun hne => absurd rfl hne⟩
  · obtain ⟨hinv, hmanagers, hlog⟩ :=
      closeManagersReverse_spec hnodup (inv_call h hopened hclosed s.connected).core
    rw [hconnect]
    dsimp only
    rw [if_neg hret]
    refine ⟨hinv, hinv.core.closed, fun hsuccess => absurd hsuccess hret, _,
      hlog.trans (List.append_assoc ..), fun _ => ⟨hmanagers, ?_⟩⟩
    rw [List.filterMap_append, hclosed, closed_closes]
    rfl

/-! ## Regions -/

/-- The regions of the managers for some types are changed. -/
def mapAt (f : Finset ℕ → Finset ℕ) (types : List TransportType)
    (managers : TransportType → Option Manager) : TransportType → Option Manager :=
  fun type => if type ∈ types then
    (managers type).map fun m => { m with regions := f m.regions } else managers type

/-- The managers stay, whatever their regions become. -/
theorem mapAt_ids (f : Finset ℕ → Finset ℕ) (types : List TransportType)
    (managers : TransportType → Option Manager) (type : TransportType) :
    (mapAt f types managers type).map Manager.id = (managers type).map Manager.id := by
  unfold mapAt
  split
  case isTrue => cases managers type <;> rfl
  case isFalse => rfl

theorem mapAt_nil (f : Finset ℕ → Finset ℕ) (managers : TransportType → Option Manager) :
    mapAt f [] managers = managers := rfl

/-- One type after the other. -/
theorem mapAt_cons {type : TransportType} {types : List TransportType} (hnot : type ∉ types)
    (f : Finset ℕ → Finset ℕ) {managers : TransportType → Option Manager} {m : Manager}
    (hm : managers type = some m) :
    mapAt f types (Function.update managers type (some { m with regions := f m.regions }))
      = mapAt f (type :: types) managers := by
  funext t
  unfold mapAt
  by_cases ht : t = type
  · subst ht
    simp [hnot, hm]
  · simp [ht]

theorem mapAt_cons_none {type : TransportType} (types : List TransportType)
    (f : Finset ℕ → Finset ℕ) {managers : TransportType → Option Manager}
    (hnone : managers type = none) : mapAt f (type :: types) managers = mapAt f types managers := by
  funext t
  unfold mapAt
  by_cases ht : t = type
  · subst ht
    simp [hnone]
  · simp [ht]

/-- A region that is new is taken and given back. -/
theorem mapAt_erase_insert {addr : ℕ} (types : List TransportType)
    {managers : TransportType → Option Manager}
    (hnew : ∀ type m, managers type = some m → addr ∉ m.regions) :
    mapAt (Finset.erase · addr) types.reverse (mapAt (insert addr) types managers) = managers := by
  funext t
  unfold mapAt
  by_cases ht : t ∈ types
  · cases hm : managers t with
    | none => simp [ht]
    | some m => simp [ht, Finset.erase_insert (hnew t m hm)]
  · simp [ht]

/-- What the answer leaves of the regions of a manager. -/
theorem unregisterAt_eq {type : TransportType} {m : Manager} (hm : s.managers type = some m)
    (addr : ℕ) (reply : UnregisterReply) :
    s.unregisterAt type addr reply = (s.put type (some { m with
      regions := (if reply.gone then (Finset.erase · addr) else id) m.regions })).call
        [.unregisterMemoryRegion m.id addr] := by
  rw [State.unregisterAt, hm]
  cases hgone : reply.gone
  case false => simp
  case true => simp

/-- No manager is removed. -/
theorem isSome_unregisterAt (s : State) (type : TransportType) (addr : ℕ) (reply : UnregisterReply)
    (t : TransportType) : ((s.unregisterAt type addr reply).managers t).isSome
      = (s.managers t).isSome := by
  cases hm : s.managers type with
  | none => rw [State.unregisterAt, hm]
  | some m =>
    rw [unregisterAt_eq hm]
    by_cases ht : t = type
    · subst ht
      simp [State.call, State.put, hm]
    · simp [State.call, State.put, ht]

/-- The managers of a list give a region back, all of them or none. -/
theorem unregisterAll_eq (addr : ℕ) {reply : ℕ → UnregisterReply} {gone : Bool} {i : ℕ}
    {types : List TransportType} (hnodup : types.Nodup)
    (hgone : ∀ j < types.length, (reply (i + j)).gone = gone) (s : State) :
    unregisterAll addr reply i types s = { s with
      managers := mapAt (if gone then (Finset.erase · addr) else id) types s.managers
      log := s.log ++ (s.placed types).map (.unregisterMemoryRegion · addr) } := by
  induction types generalizing i s with
  | nil => simp [unregisterAll, mapAt_nil, State.placed]
  | cons type types ih =>
    obtain ⟨hnot, hrest⟩ := List.nodup_cons.mp hnodup
    have hhead : (reply i).gone = gone := hgone 0 (Nat.succ_pos _)
    have hgone' : ∀ j < types.length, (reply (i + 1 + j)).gone = gone := by
      intro j hj
      rw [Nat.add_assoc, Nat.add_comm 1 j]
      exact hgone (j + 1) (Nat.succ_lt_succ hj)
    rw [unregisterAll, ih hrest hgone']
    cases hm : s.managers type with
    | none =>
      rw [State.unregisterAt, hm]
      dsimp only
      rw [mapAt_cons_none types _ hm, placed_cons_none hm]
    | some m =>
      have hplaced : (s.unregisterAt type addr (reply i)).placed types = s.placed types := by
        refine placed_congr fun t ht => ?_
        rw [unregisterAt_eq hm]
        exact Function.update_of_ne (ne_of_mem_of_not_mem ht hnot) _ _
      rw [hplaced, placed_cons_some hm, unregisterAt_eq hm, hhead,
        ← mapAt_cons hnot _ hm]
      simp [State.call, State.put]

/-- The result is collected on the way and changes no state. -/
theorem unregisterLoop_state (addr : ℕ) (reply : ℕ → UnregisterReply) (i : ℕ)
    (types : List TransportType) (result : Result) (s : State) :
    (unregisterLoop addr reply i types result s).2 = unregisterAll addr reply i types s := by
  induction types generalizing i result s with
  | nil => rfl
  | cons type types ih =>
    rw [unregisterLoop, unregisterAll]
    cases htype : s.managers type with
    | none =>
      dsimp only
      rw [ih, State.unregisterAt, htype]
    | some m =>
      dsimp only
      rw [ih]

/-- A call that returns success has been answered so by every manager in place. -/
theorem unregisterLoop_success {addr : ℕ} {reply : ℕ → UnregisterReply} {i : ℕ}
    {types : List TransportType} {result : Result} {s : State}
    (h : (unregisterLoop addr reply i types result s).1 = aclshmemSuccess)
    (hplaced : ∀ type ∈ types, (s.managers type).isSome) :
    result = aclshmemSuccess ∧ ∀ j < types.length, (reply (i + j)).ret = aclshmemSuccess := by
  induction types generalizing i result s with
  | nil => exact ⟨h, fun _ hj => absurd hj (Nat.not_lt_zero _)⟩
  | cons type types ih =>
    obtain ⟨m, hm⟩ := Option.isSome_iff_exists.mp (hplaced type List.mem_cons_self)
    rw [unregisterLoop, hm] at h
    obtain ⟨hresult, hrest⟩ := ih h fun t ht => by
      rw [isSome_unregisterAt]
      exact hplaced t (List.mem_cons_of_mem _ ht)
    have hboth : result = aclshmemSuccess ∧ (reply i).ret = aclshmemSuccess := by
      split at hresult
      case isTrue hfailed => exact absurd hresult hfailed.1
      case isFalse hfailed =>
        refine ⟨hresult, ?_⟩
        by_contra hret
        exact hfailed ⟨hret, hresult⟩
    refine ⟨hboth.1, fun j hj => ?_⟩
    cases j with
    | zero => exact hboth.2
    | succ j =>
      rw [Nat.add_comm j 1, ← Nat.add_assoc]
      exact hrest j (Nat.lt_of_succ_lt_succ hj)

/-- A region set behind the map is that of a manager before it. -/
theorem mem_mapAt {f : Finset ℕ → Finset ℕ} {types : List TransportType}
    {managers : TransportType → Option Manager} (hoff : ∀ type ∉ types, managers type = none)
    {type : TransportType} {m' : Manager} (hm : mapAt f types managers type = some m') :
    ∃ m, managers type = some m ∧ m'.regions = f m.regions := by
  unfold mapAt at hm
  split at hm
  case isTrue =>
    obtain ⟨n, hn, rfl⟩ := Option.map_eq_some_iff.mp hm
    exact ⟨n, hn, rfl⟩
  case isFalse hnot =>
    rw [hoff type hnot] at hm
    cases hm

/-- The same change at all managers. -/
theorem inv_mapAt (h : Inv order s) {types : List TransportType} (htypes : ∀ type, type ∈ types ↔ type ∈ order)
    (f : Finset ℕ → Finset ℕ) {calls : List SubCall} (hopened : calls.filterMap SubCall.opened = [])
    (hclosed : calls.filterMap SubCall.closed = []) :
    Inv order { s with managers := mapAt f types s.managers, log := s.log ++ calls } := by
  have hoff : ∀ type ∉ types, s.managers type = none := fun type hnot =>
    h.core.off type fun hmem => hnot ((htypes type).mpr hmem)
  refine ⟨h.core.of_same rfl rfl (mapAt_ids f types s.managers) hopened hclosed, ?_, ?_⟩
  · rcases h.whole with hnone | hplaced
    · refine .inl fun type => ?_
      have hids := mapAt_ids f types s.managers type
      rw [hnone type] at hids
      exact Option.map_eq_none_iff.mp hids
    · refine .inr fun type htype => ?_
      rw [← Option.isSome_map, mapAt_ids, Option.isSome_map]
      exact hplaced type htype
  · intro type type' m m' hm hm'
    obtain ⟨n, hn, hregions⟩ := mem_mapAt hoff hm
    obtain ⟨n', hn', hregions'⟩ := mem_mapAt hoff hm'
    rw [hregions, hregions', h.agree _ _ _ _ hn hn']

theorem opened_unregisters (ids : List ℕ) (addr : ℕ) :
    (ids.map (SubCall.unregisterMemoryRegion · addr)).filterMap SubCall.opened = [] :=
  List.filterMap_eq_nil_iff.mpr fun call hcall => by
    obtain ⟨id, _, rfl⟩ := List.mem_map.mp hcall
    rfl

theorem closed_unregisters (ids : List ℕ) (addr : ℕ) :
    (ids.map (SubCall.unregisterMemoryRegion · addr)).filterMap SubCall.closed = [] :=
  List.filterMap_eq_nil_iff.mpr fun call hcall => by
    obtain ⟨id, _, rfl⟩ := List.mem_map.mp hcall
    rfl

/-- If all obey or none does, the managers agree afterwards. -/
theorem unregisterMemoryRegion_good (hnodup : order.Nodup) (h : Inv order s) {addr : ℕ}
    {reply : ℕ → UnregisterReply} (hkeeps : Keeps order s (.unregisterMemoryRegion addr reply)) :
    Inv order (unregisterMemoryRegion order addr reply s).2 ∧
      Good order s (.unregisterMemoryRegion addr reply) := by
  obtain ⟨gone, hgone⟩ : ∃ gone, ∀ j < order.reverse.length, (reply (0 + j)).gone = gone := by
    rw [List.length_reverse]
    rcases hkeeps with hall | hnone
    · exact ⟨true, fun j hj => by rw [Nat.zero_add, hall j hj]⟩
    · exact ⟨false, fun j hj => by rw [Nat.zero_add, Bool.eq_false_iff.mpr (hnone j hj)]⟩
  have hstate := unregisterAll_eq addr (List.nodup_reverse.mpr hnodup) hgone s
  rw [← unregisterLoop_state addr reply 0 order.reverse aclshmemSuccess s] at hstate
  have hinv := inv_mapAt h (fun type => List.mem_reverse) (if gone then (Finset.erase · addr) else id)
    (opened_unregisters (s.placed order.reverse) addr) (closed_unregisters _ _)
  rw [← hstate] at hinv
  refine ⟨hinv, hinv.core.closed, fun _ => hinv.agree, _, congrArg State.log hstate,
    fun hsuccess type m hm => ?_⟩
  have hm' : mapAt (if gone then (Finset.erase · addr) else id) order.reverse s.managers type = some m :=
    (congrFun (congrArg State.managers hstate) type).symm.trans hm
  obtain ⟨n, hn, hregions⟩ := mem_mapAt (fun t hnot => h.core.off t (mt List.mem_reverse.mpr hnot)) hm'
  -- a manager is in place, so all are, and all have answered with success
  have htype : type ∈ order := by
    by_contra hnot
    rw [h.core.off type hnot] at hn
    cases hn
  have hplaced : ∀ t ∈ order.reverse, (s.managers t).isSome := by
    rcases h.whole with hnone | hplaced
    · rw [hnone type] at hn
      cases hn
    · exact fun t ht => hplaced t (List.mem_reverse.mp ht)
  have hpos : 0 < order.reverse.length :=
    List.length_pos_of_mem (List.mem_reverse.mpr htype)
  have hret := (unregisterLoop_success hsuccess hplaced).2 0 hpos
  have htrue : gone = true := by
    rw [← hgone 0 hpos, UnregisterReply.gone, hret]
    rfl
  rw [hregions, htrue]
  exact Finset.notMem_erase addr n.regions

/-- The managers of a list take a region. -/
def State.take (s : State) (addr : ℕ) (types : List TransportType) : State :=
  { s with
    managers := mapAt (insert addr) types s.managers
    log := s.log ++ (s.placed types).map (.registerMemoryRegion · addr aclshmemSuccess) }

theorem take_nil (s : State) (addr : ℕ) : s.take addr [] = s := by
  simp [State.take, mapAt_nil, State.placed]

/-- A manager that accepts is the next of those that have taken the region. -/
theorem take_cons {type : TransportType} {types : List TransportType} (hnot : type ∉ types) {m : Manager}
    (hm : s.managers type = some m) (addr : ℕ) :
    (s.registerAt type m addr aclshmemSuccess).take addr types = s.take addr (type :: types) := by
  have hplaced : (s.registerAt type m addr aclshmemSuccess).placed types = s.placed types := by
    refine placed_congr fun t ht => ?_
    exact Function.update_of_ne (ne_of_mem_of_not_mem ht hnot) _ _
  rw [State.take, hplaced, State.take, placed_cons_some hm, ← mapAt_cons hnot _ hm]
  simp [State.registerAt, State.call, State.put]

/-- Without managers nothing is asked. -/
theorem registerLoop_none {addr : ℕ} {accept : ℕ → Result} {undo : ℕ → UnregisterReply} {i : ℕ}
    {types registered : List TransportType} (hnone : ∀ type, s.managers type = none) :
    registerLoop addr accept undo i types registered s = (aclshmemSuccess, s) := by
  induction types generalizing i with
  | nil => rfl
  | cons type types ih =>
    rw [registerLoop, hnone]
    exact ih

/-- What the loop of `RegisterMemoryRegion` does: all managers take the region, or those of a front do
and give it back when the next one refuses. -/
theorem registerLoop_cases (addr : ℕ) (accept : ℕ → Result) (undo : ℕ → UnregisterReply) (i : ℕ)
    {types : List TransportType} (registered : List TransportType) (htypes : types.Nodup)
    (hplaced : ∀ type ∈ types, (s.managers type).isSome) :
    registerLoop addr accept undo i types registered s = (aclshmemSuccess, s.take addr types) ∨
    ∃ front type back m, types = front ++ type :: back ∧ s.managers type = some m ∧
      (∀ j < front.length, accept (i + j) = aclshmemSuccess) ∧
      accept (i + front.length) ≠ aclshmemSuccess ∧
      registerLoop addr accept undo i types registered s = (accept (i + front.length),
        unregisterAll addr undo 0 (registered ++ front).reverse
          ((s.take addr front).registerAt type m addr (accept (i + front.length)))) := by
  induction types generalizing i registered s with
  | nil => exact .inl (by rw [take_nil]; rfl)
  | cons type types ih =>
    obtain ⟨hnot, hrest⟩ := List.nodup_cons.mp htypes
    obtain ⟨m, hm⟩ := Option.isSome_iff_exists.mp (hplaced type List.mem_cons_self)
    rw [registerLoop, hm]
    dsimp only
    split
    -- this manager refuses, and those before it give the region back
    case isTrue hret =>
      refine .inr ⟨[], type, types, m, rfl, hm, fun _ hj => absurd hj (Nat.not_lt_zero _), hret, ?_⟩
      rw [List.append_nil, take_nil]
      rfl
    case isFalse hret =>
      have hsuccess : accept i = aclshmemSuccess := not_not.mp hret
      rw [hsuccess]
      have hsame : ∀ t ∈ types,
          (s.registerAt type m addr aclshmemSuccess).managers t = s.managers t := fun t ht =>
        Function.update_of_ne (ne_of_mem_of_not_mem ht hnot) _ _
      -- this manager accepts, and the induction says what becomes of the rest
      rcases ih (i + 1) (registered ++ [type])
        (s := s.registerAt type m addr aclshmemSuccess) hrest
        (fun t ht => hsame t ht ▸ hplaced t (List.mem_cons_of_mem _ ht)) with
        hall | ⟨front, t, back, n, rfl, hn, hbefore, hfails, heq⟩
      · exact .inl (hall.trans (by rw [take_cons hnot hm]))
      · have hfront : type ∉ front := fun hmem => hnot (List.mem_append_left _ hmem)
        have hindex : i + 1 + front.length = i + (type :: front).length := by
          rw [List.length_cons]
          omega
        have hn' : s.managers t = some n :=
          (hsame t (List.mem_append_right _ List.mem_cons_self)).symm.trans hn
        refine .inr ⟨type :: front, t, back, n, rfl, hn', fun j hj => ?_, hindex ▸ hfails, ?_⟩
        · cases j with
          | zero => exact hsuccess
          | succ j =>
            rw [Nat.add_comm j 1, ← Nat.add_assoc]
            exact hbefore j (Nat.lt_of_succ_lt_succ hj)
        · rw [heq, take_cons hfront hm, hindex, List.append_assoc]
          rfl

/-- A sub-call of none of the kinds that `kind` reads. -/
theorem filterMap_map_none {kind : SubCall → Option ℕ} {make : ℕ → SubCall}
    (h : ∀ id, kind (make id) = none) (ids : List ℕ) : (ids.map make).filterMap kind = [] :=
  List.filterMap_eq_nil_iff.mpr fun call hcall => by
    obtain ⟨id, _, rfl⟩ := List.mem_map.mp hcall
    exact h id

theorem filterMap_map_some {kind : SubCall → Option ℕ} {make : ℕ → SubCall}
    (h : ∀ id, kind (make id) = some id) (ids : List ℕ) : (ids.map make).filterMap kind = ids := by
  rw [List.filterMap_map, show kind ∘ make = some from funext h]
  exact List.filterMap_some

/-- The sub-calls of a registration that is taken back. -/
def undone (ids : List ℕ) (id addr : ℕ) (ret : Result) : List SubCall :=
  ids.map (.registerMemoryRegion · addr aclshmemSuccess) ++
    (.registerMemoryRegion id addr ret :: ids.reverse.map (.unregisterMemoryRegion · addr))

theorem unregistered_undone (ids : List ℕ) (id addr : ℕ) (ret : Result) :
    (undone ids id addr ret).filterMap SubCall.unregistered = ids.reverse := by
  rw [undone, List.filterMap_append, filterMap_map_none fun _ => rfl,
    List.filterMap_cons_none rfl, filterMap_map_some fun _ => rfl]
  rfl

theorem accepted_undone (ids : List ℕ) (id addr : ℕ) {ret : Result} (hret : ret ≠ aclshmemSuccess) :
    (undone ids id addr ret).filterMap SubCall.accepted = ids := by
  have hrefused : (SubCall.registerMemoryRegion id addr ret).accepted = none := if_neg hret
  rw [undone, List.filterMap_append, filterMap_map_some fun _ => by rw [SubCall.accepted, if_pos rfl],
    List.filterMap_cons_none hrefused, filterMap_map_none fun _ => rfl, List.append_nil]

/-- A registration that is rolled back opens and closes nothing. -/
theorem filterMap_undone_none {kind : SubCall → Option ℕ}
    (htake : ∀ id addr ret, kind (.registerMemoryRegion id addr ret) = none)
    (hgive : ∀ id addr, kind (.unregisterMemoryRegion id addr) = none) (ids : List ℕ) (id addr : ℕ)
    (ret : Result) : (undone ids id addr ret).filterMap kind = [] := by
  rw [undone, List.filterMap_append, filterMap_map_none fun _ => htake _ _ _,
    List.filterMap_cons_none (htake _ _ _), filterMap_map_none fun _ => hgive _ _, List.append_nil]

/-- The front of the order takes a region, the next manager refuses it, and it is given back. -/
theorem register_undone (hnodup : order.Nodup) {front back : List TransportType} {type : TransportType}
    (horder : order = front ++ type :: back) {m : Manager} (hm : s.managers type = some m) {addr : ℕ}
    {ret : Result} (hret : ret ≠ aclshmemSuccess) {undo : ℕ → UnregisterReply}
    (hundo : ∀ j < front.length, (undo j).gone)
    (hnew : front ≠ [] → ∀ t n, s.managers t = some n → addr ∉ n.regions) :
    unregisterAll addr undo 0 front.reverse ((s.take addr front).registerAt type m addr ret)
      = s.call (undone (s.placed front) m.id addr ret) := by
  have hfront : front.Nodup := hnodup.sublist (horder ▸ List.sublist_append_left _ _)
  have hnot : type ∉ front := by
    rw [horder, List.nodup_middle, List.nodup_cons, List.mem_append, not_or] at hnodup
    exact hnodup.1.1
  have hrefused : (s.take addr front).registerAt type m addr ret
      = (s.take addr front).call [.registerMemoryRegion m.id addr ret] := by
    have hsame : Function.update (mapAt (insert addr) front s.managers) type (some m)
        = mapAt (insert addr) front s.managers := by
      refine Function.update_eq_self_iff.mpr ?_
      rw [mapAt, if_neg hnot, hm]
    rw [State.registerAt, if_neg hret, State.put]
    exact congrArg (fun managers => State.call { s.take addr front with managers := managers } _) hsame
  have hids : ((s.take addr front).call [.registerMemoryRegion m.id addr ret]).placed front.reverse
      = (s.placed front).reverse := by
    rw [placed_reverse, State.placed, State.placed, List.map_filterMap, List.map_filterMap]
    exact congrArg List.reverse
      (List.filterMap_congr fun t _ => mapAt_ids (insert addr) front s.managers t)
  have hrestored : mapAt (Finset.erase · addr) front.reverse (mapAt (insert addr) front s.managers)
      = s.managers := by
    rcases List.eq_nil_or_concat front with rfl | hfront'
    · rfl
    · refine mapAt_erase_insert front (hnew ?_)
      obtain ⟨init, last, rfl⟩ := hfront'
      simp
  have hgone : ∀ j < front.reverse.length, (undo (0 + j)).gone = true := by
    intro j hj
    rw [List.length_reverse] at hj
    rw [Nat.zero_add]
    exact hundo j hj
  rw [hrefused, unregisterAll_eq addr (List.nodup_reverse.mpr hfront) hgone, hids, if_pos rfl]
  simp only [State.take, State.call, hrestored, undone]
  simp

/-- Under the condition a refused region is dropped by those that had newly taken it. -/
theorem registerMemoryRegion_good (hnodup : order.Nodup) (h : Inv order s) {addr : ℕ}
    {accept : ℕ → Result} {undo : ℕ → UnregisterReply}
    (hkeeps : Keeps order s (.registerMemoryRegion addr accept undo)) :
    Inv order (registerMemoryRegion order addr accept undo s).2 ∧
      Good order s (.registerMemoryRegion addr accept undo) := by
  simp only [Good, run, registerMemoryRegion]
  rcases h.whole with hnone | hplaced
  · rw [registerLoop_none hnone]
    refine ⟨h, h.core.closed, fun _ => h.agree, [], (List.append_nil _).symm,
      fun hne => absurd rfl hne, fun _ type m hm => ?_⟩
    rw [hnone type] at hm
    cases hm
  · rcases registerLoop_cases addr accept undo 0 [] hnodup hplaced with hall | ⟨front, type, back, m, horder, hm, hbefore, hfails, heq⟩
    · have hinv : Inv order (s.take addr order) := inv_mapAt h (fun _ => Iff.rfl) (insert addr)
        (filterMap_map_none (fun _ => rfl) _) (filterMap_map_none (fun _ => rfl) _)
      rw [hall]
      refine ⟨hinv, hinv.core.closed, fun _ => hinv.agree, _, rfl, fun hne => absurd rfl hne,
        fun _ t n hn => ?_⟩
      obtain ⟨n', _, hregions⟩ := mem_mapAt h.core.off hn
      rw [hregions]
      exact Finset.mem_insert_self addr n'.regions
    · simp only [Nat.zero_add] at hbefore hfails heq
      have hlt : front.length < order.length := by
        rw [horder, List.length_append, List.length_cons]
        omega
      have hnew : front ≠ [] → ∀ t n, s.managers t = some n → addr ∉ n.regions := by
        intro hne t n hn hmem
        -- a region that is there already would be refused by no manager behind the first
        exact hfails (hkeeps.1 ⟨t, n, hn, hmem⟩ (hbefore 0 (List.length_pos_iff.mpr hne)) _ hlt)
      rw [List.nil_append] at heq
      rw [heq, register_undone hnodup horder hm hfails (hkeeps.2 _ hlt hfails hbefore) hnew]
      have hinv := inv_call h
        (filterMap_undone_none (fun _ _ _ => rfl) (fun _ _ => rfl) (s.placed front) m.id addr
          (accept front.length))
        (filterMap_undone_none (fun _ _ _ => rfl) (fun _ _ => rfl) (s.placed front) m.id addr _)
        s.connected
      refine ⟨hinv, hinv.core.closed, fun hsuccess => absurd hsuccess hfails, _, rfl,
        fun _ => ⟨rfl, ?_, fun id => ?_⟩, fun hsuccess => absurd hsuccess hfails⟩
      · have hids := h.core.nodup
        rw [horder, placed_append] at hids
        rw [unregistered_undone]
        exact List.nodup_reverse.mpr hids.of_append_left
      · rw [unregistered_undone, accepted_undone _ _ _ hfails, List.mem_reverse]
        refine ⟨fun hid => ⟨hid, fun t n hn _ => hnew (fun hnil => ?_) t n hn⟩, fun hboth => hboth.1⟩
        rw [hnil] at hid
        cases hid

/-- Every call that meets the condition has the property and keeps the invariant. -/
theorem good_step (hnodup : order.Nodup) (s : State) (call : Call) (h : Inv order s)
    (hkeeps : Keeps order s call) : Inv order (run order s call).2 ∧ Good order s call := by
  cases call with
  | openDevice reply => exact openDevice_good hnodup h hkeeps reply
  | closeDevice reply => exact closeDevice_good hnodup h reply
  | registerMemoryRegion addr accept undo => exact registerMemoryRegion_good hnodup h hkeeps
  | unregisterMemoryRegion addr reply => exact unregisterMemoryRegion_good hnodup h hkeeps
  | connect reply close => exact connect_good hnodup h reply close
  | connectWithOptions reply close => exact connectWithOptions_good hnodup h reply close

end Invariant

/-- In a run of the composite in which no device is opened over another, no manager behind the first one
refuses a region that is registered again, a new region can be given back and the managers give a region
back alike, every call is all or nothing and every manager ever opened is in place or closed once. -/
theorem all_or_nothing {order : List TransportType} (hnodup : order.Nodup) (calls : List Call)
    (hkeeps : Always (step order) (Keeps order) .init calls) :
    Always (step order) (Good order) .init calls := by
  refine always_of_inv ?_ (fun s call h hcall => (good_step hnodup s call h hcall).2) (inv_init order) hkeeps
  intro s call s' h hcall hstep
  rw [← Option.some.inj hstep]
  exact (good_step hnodup s call h hcall).1

/-- Two managers. -/
def twoTypes : List TransportType := [.hccp, .udma]

/-- Both managers are created and open their devices. -/
def openBoth : Call := .openDevice fun _ => ⟨true, aclshmemSuccess⟩

/-- A region is registered; the second manager answers `ret`. -/
def registerBoth (ret : Result) : Call :=
  .registerMemoryRegion 7 (fun i => if i = 1 then ret else aclshmemSuccess) fun _ => ⟨aclshmemSuccess, false⟩

/-- A new region that the second manager refuses. -/
theorem all_or_nothing_refused :
    Always (step twoTypes) (Good twoTypes) .init [openBoth, registerBoth (-1)] := by
  refine all_or_nothing (by decide) _ ⟨fun _ => rfl, fun s hs => ⟨⟨?_, fun _ _ _ _ _ _ => rfl⟩,
    fun _ _ => trivial⟩⟩
  rintro ⟨type, m, hm, hmem⟩
  rw [← Option.some.inj hs] at hm
  cases type <;> cases hm <;> exact absurd hmem (Finset.notMem_empty 7)

/-- A region that is registered already, and that the second manager refuses: the first one loses it. -/
theorem not_good_again : ¬ ∀ (order : List TransportType) (calls : List Call),
    Always (step order) (Good order) .init calls := by
  intro hall
  have hrun := hall twoTypes [openBoth, registerBoth aclshmemSuccess, registerBoth (-1)]
  obtain ⟨_, _, calls, _, hgood⟩ := ((hrun.2 _ rfl).2 _ rfl).1
  have hsame := congrFun (hgood.1 (by decide)).1 .hccp
  exact absurd hsame (by decide)

end AscendShmem.CompositeTransport
