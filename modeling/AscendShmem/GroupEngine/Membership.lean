import Mathlib
import AscendShmem.GroupEngine.Dynamic

/-!
# Membership of a dynamic group

One rank at a time holds the event key. The dynamic size changes once in an event, when the rank
that holds the key adds to it, so a listener that reads it before knows the version and the size
that the event leads to. Nothing makes it read before: the members agree when every listener does.
-/

namespace AscendShmem.GroupEngine

open ConfigStore

namespace Dynamic

/-! ## What must hold -/

/-- Between a successful `TryCasEventKey` and the removal of the event key. -/
def Pc.inEvent : Pc → Bool
  | .joinRead => true
  | .joinUpdate _ => true
  | .joinAdd => true
  | .leaveAdd => true
  | .leaveUpdate _ => true
  | .remove _ => true
  | _ => false

/-- The rank has joined and not left: `joined_`, which is written just after the event key is
removed. -/
def Rank.member (rank : Rank) : Bool :=
  match rank.pc with
  | .finish join => join
  | _ => rank.joined

/-- One event at a time; and when there is none and its members have handled the last one, the
group agrees on its version and its size. -/
structure Agreed (group : Finset ℕ) (s : System) : Prop where
  exclusive : ∀ r q, (s.ranks r).pc.inEvent = true → (s.ranks q).pc.inEvent = true → r = q
  version : s.store listenEventKey = none →
    (∀ r ∈ group, (s.ranks r).member = true → (s.ranks r).handled = s.events) →
    ∀ r ∈ group, ∀ q ∈ group, (s.ranks r).member = true → (s.ranks q).member = true →
      (s.ranks r).groupVersion = (s.ranks q).groupVersion
  size : s.store listenEventKey = none →
    (∀ r ∈ group, (s.ranks r).member = true → (s.ranks r).handled = s.events) →
    ∀ r ∈ group, (s.ranks r).member = true →
      (s.ranks r).rankSize = (group.filter fun q => (s.ranks q).member = true).card

/-! ## When it holds -/

/-- The rank's version and size count: from what it writes in `GroupJoin` up to its `Add` in
`GroupLeave`. -/
def Rank.settled (rank : Rank) : Bool :=
  match rank.pc with
  | .joinAdd => true
  | .leaveUpdate _ => false
  | .remove join => join
  | .finish join => join
  | _ => rank.joined

/-- A try that creates the event key is not the last one, and neither the version nor the size is
at its end. -/
def KeepsMain (timeoutMs : ℕ) (s : System) (r : ℕ) : Prop :=
  match (s.ranks r).pc with
  | .tryCas _ casTimes prev => s.store listenEventKey = none → casTimes < casLimit timeoutMs →
      (prev = [] → casTimes + 1 < casLimit timeoutMs) ∧ s.events + 1 < 2 ^ 31 ∧
        s.size + 1 < 2 ^ 30
  | _ => True

/-- The filter drops an event only when the rank has handled it; and what a listener writes down it
has read before the event added to the dynamic size, and no later event of the rank itself has come
between. -/
def KeepsListen (s : System) (r : ℕ) : Prop :=
  match (s.ranks r).listener with
  | .notified event value => (s.ranks r).settled = true → (s.ranks r).joined = true →
      value = (s.ranks r).prevEvent → event ≤ (s.ranks r).handled
  | .applying event reads _ _ => (s.ranks r).settled = true →
      reads + 1 = event ∧ (s.ranks r).handled < event
  | _ => True

/-- What an operation needs so that the members agree. -/
def Keeps (timeoutMs : ℕ → ℕ) (s : System) : Action → Prop
  | .main r => KeepsMain (timeoutMs r) s r
  | .listen r => KeepsListen s r
  | _ => True

/-! ## Values -/

theorem eventValue_ne_nil (join : Bool) (r : ℕ) : eventValue join r ≠ [] := List.cons_ne_nil _ _

theorem eventValue_inj {j k : Bool} {r q : ℕ} (hr : r < 2 ^ 32) (hq : q < 2 ^ 32)
    (h : eventValue j r = eventValue k q) : j = k ∧ r = q := by
  obtain ⟨hhead, htail⟩ := List.cons.inj h
  refine ⟨?_, toDecimal_inj hr hq htail⟩
  cases j <;> cases k <;> first | rfl | exact absurd hhead (by decide)

/-- A version and a size are read back from their number. -/
theorem split_number {version size : ℕ} (hv : version < 2 ^ 31) (hs : size < 2 ^ 30) :
    splitSizeAndVersion (version * 2 ^ 30 + size) = ((version : ℤ), (size : ℤ)) := by
  have hmod : ((version : ℤ) * 2 ^ 30 + size) % 2 ^ 64 = version * 2 ^ 30 + size :=
    Int.emod_eq_of_lt (by omega) (by omega)
  have hdiv : ((version : ℤ) * 2 ^ 30 + size) / 2 ^ 30 = version := by omega
  have hrem : ((version : ℤ) * 2 ^ 30 + size) % 2 ^ 30 = size := by omega
  have hint : (version : ℤ).bmod (2 ^ 32) = version := by
    rw [Int.bmod_def, Int.emod_eq_of_lt (by omega) (by omega), if_pos (by omega)]
  rw [splitSizeAndVersion, hmod, hdiv, hrem, hint]

theorem toUint32_of_lt {n : ℕ} (h : n < 2 ^ 32) : toUint32 n = n := by
  rw [toUint32, Int.emod_eq_of_lt (by omega) (by omega), Int.toNat_natCast]

/-! ## Counting -/

/-- The rank is in the dynamic size. -/
def Rank.counted (rank : Rank) : Bool :=
  match rank.pc with
  | .leaveUpdate _ => false
  | .remove join => join
  | .finish join => join
  | _ => rank.joined

/-- How many ranks the dynamic size counts. -/
def count (group : Finset ℕ) (ranks : ℕ → Rank) : ℕ :=
  (group.filter fun r => (ranks r).counted = true).card

/-- One rank changes. -/
theorem count_update {group : Finset ℕ} {r : ℕ} (hr : r ∈ group) (ranks : ℕ → Rank) (rank : Rank) :
    count group (Function.update ranks r rank) + (ranks r).counted.toNat
      = count group ranks + rank.counted.toNat := by
  have hsum : ∀ f : ℕ → Rank, count group f
      = (f r).counted.toNat + ∑ q ∈ group.erase r, (f q).counted.toNat := by
    intro f
    rw [count, Finset.card_filter, ← Finset.add_sum_erase group _ hr]
    congr 1
    · cases (f r).counted <;> rfl
    · apply Finset.sum_congr rfl
      intro q _
      cases (f q).counted <;> rfl
  have hrest : ∑ q ∈ group.erase r, (Function.update ranks r rank q).counted.toNat
      = ∑ q ∈ group.erase r, (ranks q).counted.toNat := by
    apply Finset.sum_congr rfl
    intro q hq
    rw [Function.update_of_ne (Finset.ne_of_mem_erase hq)]
  rw [hsum, hsum ranks, hrest, Function.update_self]
  omega

theorem count_congr {group : Finset ℕ} {ranks ranks' : ℕ → Rank}
    (h : ∀ r, (ranks' r).counted = (ranks r).counted) : count group ranks' = count group ranks := by
  simp only [count, h]

/-- A rank of the group that is counted. -/
theorem count_pos {group : Finset ℕ} {r : ℕ} (hr : r ∈ group) {ranks : ℕ → Rank}
    (h : (ranks r).counted = true) : 0 < count group ranks :=
  Finset.card_pos.mpr ⟨r, Finset.mem_filter.mpr ⟨hr, h⟩⟩

/-! ## The invariant -/

/-- Whether an operation belongs to `GroupJoin` or to `GroupLeave`. -/
def Pc.call : Pc → Option Bool
  | .returned => none
  | .tryCas join _ _ => some join
  | .joinRead => some true
  | .joinUpdate _ => some true
  | .joinAdd => some true
  | .leaveAdd => some false
  | .leaveUpdate _ => some false
  | .remove join => some join
  | .finish join => some join

/-- The rank that has created the event key may be at this operation. -/
def Pc.Holds (limit : ℕ) : Pc → Prop
  | .tryCas _ casTimes _ => casTimes < limit
  | pc => pc.inEvent = true

/-- The event has added to the dynamic size. -/
def Pc.added : Pc → Bool
  | .leaveUpdate _ => true
  | .remove _ => true
  | _ => false

/-- What a listener knows of the last event. -/
def Listener.Ok (events size : ℕ) (lastEvent : Bytes) : Listener → Prop
  | .notified event value => event ≤ events ∧ (event = events → value = lastEvent)
  | .reading event value => event ≤ events ∧ (event = events → value = lastEvent)
  | .applying event reads groupVersion rankSize => event ≤ events ∧
      (event = events → reads + 1 = event → groupVersion = events ∧ rankSize = some size)
  | _ => True

/-- What a rank knows; `number` is the dynamic size. -/
structure Rank.Ok (events size : ℕ) (lastEvent : Bytes) (number : ℤ) (rank : Rank) : Prop where
  joined : ∀ join, rank.pc.call = some join → rank.joined = !join
  tmp : ∀ tmp, rank.pc = .joinUpdate tmp → tmp = number
  handled : rank.handled ≤ events
  settled : rank.settled = true → rank.handled = events →
    rank.groupVersion = events ∧ rank.rankSize = size
  listener : rank.listener.Ok events size lastEvent

/-- How many events have added to the dynamic size, and the size that the last one leads to. -/
def Counts (added join : Bool) (events adds size counted : ℕ) : Prop :=
  if added = true then adds = events ∧ size = counted
  else adds + 1 = events ∧ if join = true then size = counted + 1 else size + 1 = counted

section Inv

variable (group : Finset ℕ) (timeoutMs : ℕ → ℕ)

/-- Rank `r` holds the event key. -/
structure Held (s : System) (r : ℕ) (join : Bool) : Prop where
  key : s.store listenEventKey = some (.bytes (eventValue join r))
  last : s.lastEvent = eventValue join r
  call : (s.ranks r).pc.call = some join
  holds : (s.ranks r).pc.Holds (casLimit (timeoutMs r))
  others : ∀ q, q ≠ r → (s.ranks q).pc.inEvent = false
  counts : Counts (s.ranks r).pc.added join s.events s.adds s.size (count group s.ranks)

/-- Nobody holds the event key. -/
structure Free (s : System) : Prop where
  key : s.store listenEventKey = none
  others : ∀ q, (s.ranks q).pc.inEvent = false
  adds : s.adds = s.events
  size : s.size = count group s.ranks

/-- The dynamic size. -/
def System.number (s : System) : ℤ := s.adds * 2 ^ 30 + count group s.ranks

/-- The invariant: the ranks know what the store says, and at most one of them holds the event key.
-/
structure Inv (s : System) : Prop where
  outside : ∀ r, r ∉ group → s.ranks r = Rank.init
  ranks : ∀ r, (s.ranks r).Ok s.events s.size s.lastEvent (s.number group)
  event : Free group s ∨ ∃ r ∈ group, ∃ join, Held group timeoutMs s r join
  dynamicSize : s.store dynamicSizeKey = none ∧ s.number group = 0 ∨
    s.store dynamicSizeKey = some (.number (s.number group))
  events_lt : s.events < 2 ^ 31
  size_lt : s.size < 2 ^ 30
  count_lt : count group s.ranks < 2 ^ 30

end Inv

variable {group : Finset ℕ} {timeoutMs : ℕ → ℕ} {s : System} {r : ℕ}

/-- In the beginning nobody has joined and nobody holds the event key. -/
theorem Inv.init : Inv group timeoutMs System.init := by
  have hcount : count group System.init.ranks = 0 := by
    rw [count, Finset.card_eq_zero, Finset.filter_eq_empty_iff]
    intro q _
    exact Bool.false_ne_true
  have hnumber : System.init.number group = 0 := by
    rw [System.number, hcount]
    rfl
  refine ⟨fun _ _ => rfl, fun q => ?_, Or.inl ⟨rfl, fun _ => rfl, rfl, hcount.symm⟩,
    Or.inl ⟨rfl, hnumber⟩, by decide, by decide, by rw [hcount]; decide⟩
  constructor
  · intro join hcall
    cases hcall
  · intro tmp hpc
    cases hpc
  · exact le_refl 0
  · intro hsettled
    cases hsettled
  · trivial

/-- Outside an event a rank does not depend on the number in the store. -/
theorem Rank.Ok.of_number {events size : ℕ} {lastEvent : Bytes} {number : ℤ} {rank : Rank}
    (h : rank.Ok events size lastEvent number) (hpc : rank.pc.inEvent = false) (number' : ℤ) :
    rank.Ok events size lastEvent number' := by
  refine ⟨h.joined, ?_, h.handled, h.settled, h.listener⟩
  intro tmp htmp
  rw [htmp] at hpc
  cases hpc

theorem Held.inEvent_or {join : Bool} (h : Held group timeoutMs s r join) {q : ℕ}
    (hq : (s.ranks q).pc.inEvent = true) : q = r := by
  by_contra hne
  rw [h.others q hne] at hq
  cases hq

/-- A rank in an event holds the event key. -/
theorem Inv.held (h : Inv group timeoutMs s) (hpc : (s.ranks r).pc.inEvent = true) :
    ∃ join, Held group timeoutMs s r join := by
  rcases h.event with hfree | ⟨q, _, join, hheld⟩
  · rw [hfree.others r] at hpc
    cases hpc
  · rw [hheld.inEvent_or hpc]
    exact ⟨join, hheld⟩

/-! ## Steps beside the event key -/

/-- A rank changes: its call stands still, or it does not hold the event key. -/
theorem Inv.update (h : Inv group timeoutMs s) (hr : r ∈ group) {rank : Rank}
    (hrank : rank.Ok s.events s.size s.lastEvent (s.number group))
    (hcounted : rank.counted = (s.ranks r).counted)
    (hpc : rank.pc = (s.ranks r).pc ∨
      rank.pc.inEvent = false ∧ ∀ join, ¬ Held group timeoutMs s r join) :
    Inv group timeoutMs (s.setRank r rank) := by
  have hcount : count group (Function.update s.ranks r rank) = count group s.ranks := by
    have hupdate := count_update hr s.ranks rank
    rw [hcounted] at hupdate
    omega
  have hnumber : (s.setRank r rank).number group = s.number group := by
    rw [System.number, System.number, System.setRank, hcount]
  refine ⟨?_, ?_, ?_, ?_, h.events_lt, h.size_lt, ?_⟩
  · intro q hq
    have hne : q ≠ r := fun heq => hq (heq ▸ hr)
    exact (Function.update_of_ne hne _ _).trans (h.outside q hq)
  · intro q
    rw [hnumber]
    show (Function.update s.ranks r rank q).Ok _ _ _ _
    by_cases hq : q = r
    · rw [hq, Function.update_self]
      exact hrank
    · rw [Function.update_of_ne hq]
      exact h.ranks q
  · have hothers : ∀ q, (s.ranks q).pc.inEvent = false →
        (Function.update s.ranks r rank q).pc.inEvent = false := by
      intro q hold
      by_cases hq : q = r
      · rw [hq, Function.update_self]
        rcases hpc with hsame | ⟨hout, _⟩
        · rw [hsame, ← hq]
          exact hold
        · exact hout
      · rw [Function.update_of_ne hq]
        exact hold
    -- either there is no event, or the holder of its key stands still
    rcases h.event with hnone | ⟨q, hq, join, hheld⟩
    · left
      exact ⟨hnone.key, fun p => hothers p (hnone.others p), hnone.adds,
        hnone.size.trans hcount.symm⟩
    · right
      have hsame : (Function.update s.ranks r rank q).pc = (s.ranks q).pc := by
        by_cases hqr : q = r
        · subst hqr
          rw [Function.update_self]
          rcases hpc with hsame | ⟨_, hfree⟩
          · exact hsame
          · exact absurd hheld (hfree join)
        · rw [Function.update_of_ne hqr]
      refine ⟨q, hq, join, hheld.key, hheld.last, ?_, ?_, ?_, ?_⟩
      · exact (congrArg Pc.call hsame).trans hheld.call
      · show (Function.update s.ranks r rank q).pc.Holds _
        rw [hsame]
        exact hheld.holds
      · exact fun p hp => hothers p (hheld.others p hp)
      · show Counts (Function.update s.ranks r rank q).pc.added join s.events s.adds s.size
          (count group (Function.update s.ranks r rank))
        rw [hsame, hcount]
        exact hheld.counts
  · rw [hnumber]
    exact h.dynamicSize
  · show count group (Function.update s.ranks r rank) < _
    rw [hcount]
    exact h.count_lt

/-! ## Steps of the rank that holds the event key -/

/-- The rank that holds the event key goes on in its event. -/
theorem Inv.update_holder (h : Inv group timeoutMs s) (hr : r ∈ group) {join : Bool}
    (hheld : Held group timeoutMs s r join) {rank : Rank} {store : Store} {adds : ℕ}
    (hkey : store listenEventKey = s.store listenEventKey) (hcall : rank.pc.call = some join)
    (hholds : rank.pc.Holds (casLimit (timeoutMs r)))
    (hcounts : Counts rank.pc.added join s.events adds s.size
      (count group (Function.update s.ranks r rank)))
    (hsize : store dynamicSizeKey = none ∧
        (adds * 2 ^ 30 + count group (Function.update s.ranks r rank) : ℤ) = 0 ∨
      store dynamicSizeKey
        = some (.number (adds * 2 ^ 30 + count group (Function.update s.ranks r rank))))
    (hrank : rank.Ok s.events s.size s.lastEvent
      (adds * 2 ^ 30 + count group (Function.update s.ranks r rank)))
    (hlt : count group (Function.update s.ranks r rank) < 2 ^ 30) :
    Inv group timeoutMs
      { s with
        ranks := Function.update s.ranks r rank
        store := store
        adds := adds } := by
  refine ⟨?_, ?_, Or.inr ⟨r, hr, join, ?_, hheld.last, ?_, ?_, ?_, ?_⟩, hsize, h.events_lt,
    h.size_lt, hlt⟩
  · intro q hq
    have hne : q ≠ r := fun heq => hq (heq ▸ hr)
    exact (Function.update_of_ne hne _ _).trans (h.outside q hq)
  · intro q
    show (Function.update s.ranks r rank q).Ok _ _ _ _
    by_cases hq : q = r
    · rw [hq, Function.update_self]
      exact hrank
    · rw [Function.update_of_ne hq]
      exact (h.ranks q).of_number (hheld.others q hq) _
  · exact hkey.trans hheld.key
  · show (Function.update s.ranks r rank r).pc.call = _
    rw [Function.update_self]
    exact hcall
  · show (Function.update s.ranks r rank r).pc.Holds _
    rw [Function.update_self]
    exact hholds
  · intro q hq
    show (Function.update s.ranks r rank q).pc.inEvent = false
    rw [Function.update_of_ne hq]
    exact hheld.others q hq
  · show Counts (Function.update s.ranks r rank r).pc.added join s.events adds s.size _
    rw [Function.update_self]
    exact hcounts

/-- A rank goes on to another operation. -/
theorem Rank.Ok.goto {events size : ℕ} {lastEvent : Bytes} {number : ℤ} {rank : Rank} {pc : Pc}
    (h : rank.Ok events size lastEvent number) (hcall : pc.call = none ∨ pc.call = rank.pc.call)
    (htmp : ∀ tmp, pc = .joinUpdate tmp → tmp = number)
    (hsettled : { rank with pc := pc }.settled = true → rank.settled = true) :
    Rank.Ok events size lastEvent number { rank with pc := pc } := by
  refine ⟨?_, htmp, h.handled, fun hs => h.settled (hsettled hs), h.listener⟩
  intro join hjoin
  have hjoin' : pc.call = some join := hjoin
  rcases hcall with hnone | hsame
  · rw [hnone] at hjoin'
    cases hjoin'
  · exact h.joined join (hsame.symm.trans hjoin')

/-! ## The event key -/

@[simp] theorem Rank.notify_pc (event : ℕ) (value : Bytes) (rank : Rank) :
    (rank.notify event value).pc = rank.pc := by
  unfold Rank.notify
  split <;> rfl

@[simp] theorem Rank.notify_counted (event : ℕ) (value : Bytes) (rank : Rank) :
    (rank.notify event value).counted = rank.counted := by
  unfold Rank.notify
  split <;> rfl

/-- Nobody has handled an event that is just created. -/
theorem Rank.Ok.notify {events size : ℕ} {lastEvent : Bytes} {number : ℤ} {rank : Rank}
    (h : rank.Ok events size lastEvent number) (size' : ℕ) (value : Bytes) :
    (rank.notify (events + 1) value).Ok (events + 1) size' value number := by
  have hhandled := h.handled
  have hlistener := h.listener
  have hbefore : ∀ l : Listener, l.Ok events size lastEvent → l.Ok (events + 1) size' value := by
    intro l hl
    cases l with
    | notified event v => exact ⟨by have := hl.1; omega, fun heq => by have := hl.1; omega⟩
    | reading event v => exact ⟨by have := hl.1; omega, fun heq => by have := hl.1; omega⟩
    | applying event reads v sz => exact ⟨by have := hl.1; omega, fun heq => by have := hl.1; omega⟩
    | _ => trivial
  unfold Rank.notify
  split
  · refine ⟨h.joined, h.tmp, ?_, ?_, ?_⟩
    · exact hhandled.trans (Nat.le_succ _)
    · intro _ heq
      have heq' : rank.handled = events + 1 := heq
      omega
    · exact ⟨le_refl _, fun _ => rfl⟩
  · exact ⟨h.joined, h.tmp, hhandled.trans (Nat.le_succ _), fun _ heq => by omega,
      hbefore _ hlistener⟩

/-- A try of a call that finds no event key creates it. -/
theorem Inv.create (h : Inv group timeoutMs s) (hr : r ∈ group) {join : Bool} {casTimes : ℕ}
    {prev : Bytes} (hpc : (s.ranks r).pc = .tryCas join casTimes prev)
    (hnone : s.store listenEventKey = none) (hlimit : casTimes < casLimit (timeoutMs r))
    (hevents : s.events + 1 < 2 ^ 31) (hsize : s.size + 1 < 2 ^ 30) :
    (s.casEvent join r).1 = [] ∧ Inv group timeoutMs (s.casEvent join r).2 ∧
      Held group timeoutMs (s.casEvent join r).2 r join ∧
      ((s.casEvent join r).2.ranks r).pc = .tryCas join casTimes prev := by
  -- there is no event key, so no rank is in an event
  have hfree : Free group s := by
    rcases h.event with hfree | ⟨q, _, j, hheld⟩
    · exact hfree
    · rw [hheld.key] at hnone
      cases hnone
  have hcas : s.store.cas listenEventKey [] (eventValue join r)
      = ([], s.store.set listenEventKey (eventValue join r)) := by
    simp [Store.cas, hnone]
  have hjoined := (h.ranks r).joined join (by rw [hpc]; rfl)
  have hcounted : (s.ranks r).counted = !join := by
    rw [Rank.counted, hpc]
    exact hjoined
  have hcount : count group (fun q => (s.ranks q).notify (s.events + 1) (eventValue join r))
      = count group s.ranks := count_congr fun q => Rank.notify_counted _ _ _
  have hadds := hfree.adds
  have hfsize := hfree.size
  have hlt := h.count_lt
  have hstep : (s.casEvent join r) = ([], { s with
      ranks := fun q => (s.ranks q).notify (s.events + 1) (eventValue join r)
      store := s.store.set listenEventKey (eventValue join r)
      events := s.events + 1
      lastEvent := eventValue join r
      size := if join then s.size + 1 else s.size - 1 }) := by
    simp [System.casEvent, hcas, hnone]
  have hheld : Held group timeoutMs (s.casEvent join r).2 r join := by
    rw [hstep]
    refine ⟨?_, rfl, ?_, ?_, ?_, ?_⟩
    · show s.store.set listenEventKey (eventValue join r) listenEventKey = _
      rw [Store.set, Function.update_self]
    · show ((s.ranks r).notify _ _).pc.call = _
      rw [Rank.notify_pc, hpc]
      rfl
    · show ((s.ranks r).notify _ _).pc.Holds _
      rw [Rank.notify_pc, hpc]
      exact hlimit
    · intro q _
      show ((s.ranks q).notify _ _).pc.inEvent = false
      rw [Rank.notify_pc]
      exact hfree.others q
    · show Counts ((s.ranks r).notify _ _).pc.added join (s.events + 1) s.adds _
        (count group fun q => (s.ranks q).notify _ _)
      rw [Rank.notify_pc, hpc, hcount]
      show Counts false join _ _ _ _
      -- the new holder has not added to the dynamic size yet
      rw [Counts, if_neg Bool.false_ne_true]
      refine ⟨by rw [hadds], ?_⟩
      cases join with
      | true => exact congrArg (· + 1) hfsize
      | false =>
        have hpos := count_pos hr hcounted
        show s.size - 1 + 1 = _
        omega
  refine ⟨by rw [hstep], ?_, hheld, ?_⟩
  · have hnumber : (s.casEvent join r).2.number group = s.number group := by
      rw [hstep, System.number, System.number, hcount]
    refine ⟨?_, ?_, Or.inr ⟨r, hr, join, hheld⟩, ?_, ?_, ?_, ?_⟩
    · intro q hq
      rw [hstep]
      show (s.ranks q).notify _ _ = _
      rw [h.outside q hq]
      rfl
    · intro q
      rw [hnumber, hstep]
      exact (h.ranks q).notify _ _
    · rw [hnumber, hstep]
      have hget : s.store.set listenEventKey (eventValue join r) dynamicSizeKey
          = s.store dynamicSizeKey := Function.update_of_ne (by decide) _ _
      dsimp only
      rw [hget]
      exact h.dynamicSize
    · rw [hstep]
      exact hevents
    · rw [hstep]
      show (if join then s.size + 1 else s.size - 1) < _
      split <;> omega
    · rw [hstep]
      show count group (fun q => (s.ranks q).notify _ _) < _
      rw [hcount]
      exact hlt
  · rw [hstep]
    show ((s.ranks r).notify _ _).pc = _
    rw [Rank.notify_pc, hpc]

/-- The rank that holds the event key goes on without the store. -/
theorem Inv.holder_goes (h : Inv group timeoutMs s) (hr : r ∈ group) {join : Bool}
    (hheld : Held group timeoutMs s r join) {rank : Rank} (hcall : rank.pc.call = some join)
    (hholds : rank.pc.Holds (casLimit (timeoutMs r)))
    (hadded : rank.pc.added = (s.ranks r).pc.added)
    (hcounted : rank.counted = (s.ranks r).counted)
    (hrank : rank.Ok s.events s.size s.lastEvent (s.number group)) :
    Inv group timeoutMs (s.setRank r rank) := by
  have hcount : count group (Function.update s.ranks r rank) = count group s.ranks := by
    have hupdate := count_update hr s.ranks rank
    rw [hcounted] at hupdate
    omega
  apply h.update_holder hr hheld rfl hcall hholds
  · rw [hadded, hcount]
    exact hheld.counts
  · rw [hcount]
    exact h.dynamicSize
  · rw [hcount]
    exact hrank
  · rw [hcount]
    exact h.count_lt

/-- The first operation after the event key is taken. -/
def Pc.taken (join : Bool) : Pc := if join = true then .joinRead else .leaveAdd

/-- A rank tries for the event key and gets it, or sees whose it is. -/
theorem tryCas_inv (hgroup : ∀ q ∈ group, q < 2 ^ 32) (h : Inv group timeoutMs s) (hr : r ∈ group)
    {join : Bool} {casTimes : ℕ} {prev : Bytes}
    (hpc : (s.ranks r).pc = .tryCas join casTimes prev)
    (hkeeps : KeepsMain (timeoutMs r) s r) :
    Inv group timeoutMs (tryCasEventKey (timeoutMs r) s r join casTimes prev) := by
  rw [KeepsMain, hpc] at hkeeps
  have hjoined := (h.ranks r).joined join (by rw [hpc]; rfl)
  have hok : ∀ {t : System}, (t.ranks r).Ok t.events t.size t.lastEvent (t.number group) →
      (t.ranks r).pc = .tryCas join casTimes prev → ∀ pc : Pc,
      pc = .returned ∨ pc = Pc.taken join ∨ (∃ c p, pc = .tryCas join c p) →
      Rank.Ok t.events t.size t.lastEvent (t.number group) { t.ranks r with pc := pc } ∧
        ({ t.ranks r with pc := pc } : Rank).counted = (t.ranks r).counted := by
    intro t ht htpc pc hcases
    have hsettled : (t.ranks r).settled = (t.ranks r).joined := by rw [Rank.settled, htpc]
    have hcounted : (t.ranks r).counted = (t.ranks r).joined := by rw [Rank.counted, htpc]
    rcases hcases with rfl | rfl | ⟨c, p, rfl⟩
    · exact ⟨ht.goto (Or.inl rfl) (fun tmp htmp => nomatch htmp) (fun hs => hsettled.trans hs),
        hcounted.symm⟩
    · cases join
      · exact ⟨ht.goto (Or.inr (by rw [htpc]; rfl)) (fun tmp htmp => nomatch htmp)
          (fun hs => hsettled.trans hs), hcounted.symm⟩
      · exact ⟨ht.goto (Or.inr (by rw [htpc]; rfl)) (fun tmp htmp => nomatch htmp)
          (fun hs => hsettled.trans hs), hcounted.symm⟩
    · exact ⟨ht.goto (Or.inr (by rw [htpc]; rfl)) (fun tmp htmp => nomatch htmp)
        (fun hs => hsettled.trans hs), hcounted.symm⟩
  rw [tryCasEventKey]
  by_cases hlimit : casTimes < casLimit (timeoutMs r)
  · rw [if_pos hlimit]
    cases hkey : s.store listenEventKey with
    | none =>
      obtain ⟨hprev, hevents, hsize⟩ := hkeeps hkey hlimit
      obtain ⟨hold, hcreated, hheld, hsame⟩ := h.create hr hpc hkey hlimit hevents hsize
      generalize s.casEvent join r = cas at hold hcreated hheld hsame
      obtain ⟨old, t⟩ := cas
      have hold' : old = [] := hold
      subst hold'
      have hne : ([] : Bytes) ≠ eventValue join r := (eventValue_ne_nil join r).symm
      dsimp only at hcreated hheld hsame ⊢
      rw [if_neg hne]
      -- the next try finds the value and takes the key
      have hretry : ∀ c p, c < casLimit (timeoutMs r) →
          Inv group timeoutMs (t.goto r (.tryCas join c p)) := by
        intro c p hc
        obtain ⟨hrank, hcounted⟩ := hok (hcreated.ranks r) hsame (.tryCas join c p)
          (Or.inr (Or.inr ⟨c, p, rfl⟩))
        exact hcreated.holder_goes hr hheld rfl hc (by rw [hsame]; rfl) hcounted hrank
      by_cases hreset : ([] : Bytes) ≠ prev
      · rw [if_pos hreset]
        exact hretry 0 [] (by omega)
      · rw [if_neg hreset]
        exact hretry (casTimes + 1) prev (hprev (not_not.mp hreset).symm)
    | some value =>
      rcases h.event with hfree | ⟨q, hq, j, hheld⟩
      · rw [hfree.key] at hkey
        cases hkey
      have hvalue : value = .bytes (eventValue j q) := by
        rw [hheld.key] at hkey
        exact (Option.some.inj hkey).symm
      have hcas : s.casEvent join r = (eventValue j q, s) := by
        have hne : ([] : Bytes) ≠ eventValue j q := (eventValue_ne_nil j q).symm
        have hstore : s.store.cas listenEventKey [] (eventValue join r)
            = (eventValue j q, s.store) := by
          rw [Store.cas, hkey, hvalue]
          exact if_neg hne
        rw [System.casEvent, hstore, hkey]
      rw [hcas]
      dsimp only
      by_cases htaken : eventValue j q = eventValue join r
      · obtain ⟨rfl, rfl⟩ := eventValue_inj (hgroup q hq) (hgroup r hr) htaken
        rw [if_pos rfl]
        obtain ⟨hrank, hcounted⟩ := hok (h.ranks q) hpc (Pc.taken j) (Or.inr (Or.inl rfl))
        apply h.holder_goes hr hheld _ _ _ hcounted hrank
        · cases j <;> rfl
        · cases j <;> rfl
        · rw [hpc]
          cases j <;> rfl
      · rw [if_neg htaken]
        have hfree : ∀ k, ¬ Held group timeoutMs s r k := by
          intro k hk
          have hcall := hk.call
          rw [hpc] at hcall
          obtain rfl : join = k := Option.some.inj hcall
          have hkeys := hk.key
          rw [hheld.key] at hkeys
          exact htaken (Value.bytes.inj (Option.some.inj hkeys))
        have hretry : ∀ c p, Inv group timeoutMs (s.goto r (.tryCas join c p)) := by
          intro c p
          obtain ⟨hrank, hcounted⟩ := hok (h.ranks r) hpc (.tryCas join c p)
            (Or.inr (Or.inr ⟨c, p, rfl⟩))
          exact h.update hr hrank hcounted (Or.inr ⟨rfl, hfree⟩)
        split
        · exact hretry 0 _
        · exact hretry _ _
  · rw [if_neg hlimit]
    obtain ⟨hrank, hcounted⟩ := hok (h.ranks r) hpc .returned (Or.inl rfl)
    apply h.update hr hrank hcounted (Or.inr ⟨rfl, _⟩)
    intro k hk
    have hholds := hk.holds
    rw [hpc] at hholds
    exact hlimit hholds

/-! ## The dynamic size -/

theorem Pc.holds_of_inEvent (limit : ℕ) {pc : Pc} (h : pc.inEvent = true) : pc.Holds limit := by
  cases pc <;> first | exact h | cases h

/-- The store adds to the number it has. -/
theorem Inv.add (h : Inv group timeoutMs s) (n : ℤ) :
    s.store.add dynamicSizeKey n = some (s.number group + n, Function.update s.store dynamicSizeKey
      (some (.number (s.number group + n)))) := by
  rcases h.dynamicSize with ⟨hnone, hzero⟩ | hsome
  · rw [Store.add, hnone, hzero, zero_add]
  · rw [Store.add, hsome]
    rfl

/-- The key of the dynamic size is not the event key. -/
theorem update_dynamicSize (store : Store) (value : Option Value) :
    Function.update store dynamicSizeKey value listenEventKey = store listenEventKey :=
  Function.update_of_ne (by decide) _ _

/-- The rank that joins reads the number. -/
theorem joinRead_inv (h : Inv group timeoutMs s) (hr : r ∈ group) (hpc : (s.ranks r).pc = .joinRead)
    {s' : System} (hstep : mainStep (timeoutMs r) s r = some s') : Inv group timeoutMs s' := by
  obtain ⟨join, hheld⟩ := h.held (r := r) (by rw [hpc]; rfl)
  have hcall := hheld.call
  rw [hpc] at hcall
  obtain rfl : true = join := Option.some.inj hcall
  rw [mainStep, hpc] at hstep
  dsimp only at hstep
  rw [h.add, Option.map_some, Option.some.injEq] at hstep
  rw [← hstep]
  have hrank : Rank.Ok s.events s.size s.lastEvent (s.number group)
      { s.ranks r with pc := .joinUpdate (s.number group + 0) } := by
    apply (h.ranks r).goto (Or.inr (by rw [hpc]; rfl))
    · intro tmp htmp
      rw [← Pc.joinUpdate.inj htmp, add_zero]
    · intro hs
      rw [Rank.settled, hpc]
      exact hs
  have hcount : count group (Function.update s.ranks r
      { s.ranks r with pc := .joinUpdate (s.number group + 0) }) = count group s.ranks := by
    have hupdate := count_update hr s.ranks { s.ranks r with pc := .joinUpdate (s.number group + 0) }
    have hsame : ({ s.ranks r with pc := .joinUpdate (s.number group + 0) } : Rank).counted
        = (s.ranks r).counted := by rw [Rank.counted, Rank.counted, hpc]
    rw [hsame] at hupdate
    omega
  have hcounts := hheld.counts
  rw [hpc] at hcounts
  apply h.update_holder hr hheld (update_dynamicSize _ _) rfl (Pc.holds_of_inEvent _ rfl)
  · rw [hcount]
    exact hcounts
  · right
    rw [Function.update_self, hcount, add_zero]
    rfl
  · rw [hcount]
    exact hrank
  · rw [hcount]
    exact h.count_lt

/-- The rank that joins writes down what its event leads to. -/
theorem joinUpdate_inv (h : Inv group timeoutMs s) (hr : r ∈ group) {tmp : ℤ}
    (hpc : (s.ranks r).pc = .joinUpdate tmp) :
    Inv group timeoutMs (s.setRank r ((s.ranks r).joinUpdate tmp s.events)) := by
  obtain ⟨join, hheld⟩ := h.held (r := r) (by rw [hpc]; rfl)
  have hcall := hheld.call
  rw [hpc] at hcall
  obtain rfl : true = join := Option.some.inj hcall
  have hcounts := hheld.counts
  rw [hpc] at hcounts
  obtain ⟨hadds, hsize⟩ : s.adds + 1 = s.events ∧ s.size = count group s.ranks + 1 := hcounts
  have hevents := h.events_lt
  have hlt := h.size_lt
  have htmp := (h.ranks r).tmp tmp hpc
  have hsplit : splitSizeAndVersion tmp = ((s.adds : ℤ), (count group s.ranks : ℤ)) := by
    rw [htmp, System.number]
    exact split_number (by omega) h.count_lt
  apply h.holder_goes hr hheld rfl (Pc.holds_of_inEvent _ rfl)
  · rw [hpc]
    rfl
  · show (s.ranks r).joined = _
    rw [Rank.counted, hpc]
  · refine ⟨?_, fun tmp htmp => (nomatch htmp), le_refl _, ?_, (h.ranks r).listener⟩
    · intro join hjoin
      obtain rfl : true = join := Option.some.inj hjoin
      exact (h.ranks r).joined true (by rw [hpc]; rfl)
    · intro _ _
      show (splitSizeAndVersion tmp).1 + 1 = _ ∧ toUint32 ((splitSizeAndVersion tmp).2 + 1) = _
      rw [hsplit]
      refine ⟨by dsimp only; omega, ?_⟩
      have hnat : ((count group s.ranks : ℤ) + 1) = ((count group s.ranks + 1 : ℕ) : ℤ) := by
        push_cast
        rfl
      dsimp only
      rw [hnat, toUint32_of_lt (by omega), hsize]

/-- A rank adds its event to the dynamic size. -/
theorem add_inv (h : Inv group timeoutMs s) (hr : r ∈ group) {join : Bool}
    (hheld : Held group timeoutMs s r join) (hadded : (s.ranks r).pc.added = false) {pc : Pc}
    {increment : ℤ} (hincrement : increment = 2 ^ 30 + if join = true then 1 else -1)
    (hcall : pc.call = some join) (hpcIn : pc.inEvent = true)
    (hpcAdded : pc.added = true) (hcounted : ({ s.ranks r with pc := pc } : Rank).counted = join)
    (hbefore : (s.ranks r).counted = !join) (htmp : ∀ tmp, pc ≠ .joinUpdate tmp)
    (hsettled : ({ s.ranks r with pc := pc } : Rank).settled = true → (s.ranks r).settled = true) :
    Inv group timeoutMs
      { s with
        ranks := Function.update s.ranks r { s.ranks r with pc := pc }
        store := Function.update s.store dynamicSizeKey (some (.number (s.number group + increment)))
        adds := s.adds + 1 } := by
  have hcounts := hheld.counts
  rw [hadded, Counts, if_neg Bool.false_ne_true] at hcounts
  obtain ⟨hadds, hsize⟩ := hcounts
  have hupdate := count_update hr s.ranks { s.ranks r with pc := pc }
  rw [hcounted, hbefore] at hupdate
  have hlt := h.size_lt
  generalize hnew : count group (Function.update s.ranks r { s.ranks r with pc := pc }) = counted'
    at hupdate
  -- the group size was changed by the event; the holder is counted from here on
  have hsizeNew : s.size = counted' := by
    cases join with
    | true =>
      have hone : counted' + 0 = count group s.ranks + 1 := hupdate
      have hleads : s.size = count group s.ranks + 1 := hsize
      omega
    | false =>
      have hone : counted' + 1 = count group s.ranks + 0 := hupdate
      have hleads : s.size + 1 = count group s.ranks := hsize
      omega
  have hnumber : s.number group + increment = ((s.adds + 1 : ℕ) : ℤ) * 2 ^ 30 + counted' := by
    rw [System.number, hincrement]
    cases join with
    | true =>
      have hone : counted' + 0 = count group s.ranks + 1 := hupdate
      rw [if_pos rfl]
      push_cast
      omega
    | false =>
      have hone : counted' + 1 = count group s.ranks + 0 := hupdate
      rw [if_neg Bool.false_ne_true]
      push_cast
      omega
  have hrank : Rank.Ok s.events s.size s.lastEvent (s.number group) { s.ranks r with pc := pc } :=
    (h.ranks r).goto (Or.inr (hcall.trans hheld.call.symm))
      (fun tmp heq => absurd heq (htmp tmp)) hsettled
  apply h.update_holder hr hheld (update_dynamicSize _ _) hcall (Pc.holds_of_inEvent _ hpcIn)
  · rw [hpcAdded, Counts, if_pos rfl, hnew]
    exact ⟨hadds, hsizeNew⟩
  · right
    rw [Function.update_self, hnumber, hnew]
  · refine ⟨hrank.joined, fun tmp heq => absurd heq (htmp tmp), hrank.handled, hrank.settled,
      hrank.listener⟩
  · omega

/-- The rank that joins adds a version and itself. -/
theorem joinAdd_inv (h : Inv group timeoutMs s) (hr : r ∈ group) (hpc : (s.ranks r).pc = .joinAdd)
    {s' : System} (hstep : mainStep (timeoutMs r) s r = some s') : Inv group timeoutMs s' := by
  obtain ⟨join, hheld⟩ := h.held (r := r) (by rw [hpc]; rfl)
  have hcall := hheld.call
  rw [hpc] at hcall
  obtain rfl : true = join := Option.some.inj hcall
  have hjoined := (h.ranks r).joined true (by rw [hpc]; rfl)
  rw [mainStep, hpc] at hstep
  dsimp only at hstep
  rw [h.add, Option.map_some, Option.some.injEq] at hstep
  rw [← hstep]
  apply add_inv h hr hheld (by rw [hpc]; rfl) rfl rfl rfl rfl rfl
  · rw [Rank.counted, hpc]
    exact hjoined
  · intro tmp htmp
    cases htmp
  · intro _
    rw [Rank.settled, hpc]

/-- The rank that leaves adds a version and takes itself away. -/
theorem leaveAdd_inv (h : Inv group timeoutMs s) (hr : r ∈ group)
    (hpc : (s.ranks r).pc = .leaveAdd) {s' : System}
    (hstep : mainStep (timeoutMs r) s r = some s') : Inv group timeoutMs s' := by
  obtain ⟨join, hheld⟩ := h.held (r := r) (by rw [hpc]; rfl)
  have hcall := hheld.call
  rw [hpc] at hcall
  obtain rfl : false = join := Option.some.inj hcall
  have hjoined := (h.ranks r).joined false (by rw [hpc]; rfl)
  rw [mainStep, hpc] at hstep
  dsimp only at hstep
  rw [h.add, Option.map_some, Option.some.injEq] at hstep
  rw [← hstep]
  apply add_inv h hr hheld (by rw [hpc]; rfl) rfl rfl rfl rfl rfl
  · rw [Rank.counted, hpc]
    exact hjoined
  · intro tmp htmp
    cases htmp
  · intro hsettled
    cases hsettled

/-- The rank that leaves writes the version down. -/
theorem leaveUpdate_inv (h : Inv group timeoutMs s) (hr : r ∈ group) {tmpVal : ℤ}
    (hpc : (s.ranks r).pc = .leaveUpdate tmpVal) (groupVersion : ℤ) :
    Inv group timeoutMs (s.setRank r { s.ranks r with
      groupVersion := groupVersion
      pc := .remove false }) := by
  obtain ⟨join, hheld⟩ := h.held (r := r) (by rw [hpc]; rfl)
  have hcall := hheld.call
  rw [hpc] at hcall
  obtain rfl : false = join := Option.some.inj hcall
  apply h.holder_goes hr hheld rfl (Pc.holds_of_inEvent _ rfl)
  · rw [hpc]
    rfl
  · rw [Rank.counted, Rank.counted, hpc]
  · refine ⟨?_, fun tmp htmp => (nomatch htmp), (h.ranks r).handled, fun hs => (nomatch hs),
      (h.ranks r).listener⟩
    intro join hjoin
    obtain rfl : false = join := Option.some.inj hjoin
    exact (h.ranks r).joined false (by rw [hpc]; rfl)

/-- The event is over when its key is removed. -/
theorem remove_inv (h : Inv group timeoutMs s) (hr : r ∈ group) {join : Bool}
    (hpc : (s.ranks r).pc = .remove join) :
    Inv group timeoutMs
      (System.goto { s with store := s.store.remove listenEventKey } r (.finish join)) := by
  obtain ⟨join', hheld⟩ := h.held (r := r) (by rw [hpc]; rfl)
  -- the holder has added its event and is counted already
  have hcounts := hheld.counts
  rw [hpc] at hcounts
  obtain ⟨hadds, hsize⟩ : s.adds = s.events ∧ s.size = count group s.ranks := hcounts
  have hcount : count group (Function.update s.ranks r { s.ranks r with pc := .finish join })
      = count group s.ranks := by
    have hupdate := count_update hr s.ranks { s.ranks r with pc := .finish join }
    have hsame : ({ s.ranks r with pc := .finish join } : Rank).counted = (s.ranks r).counted := by
      rw [Rank.counted, Rank.counted, hpc]
    rw [hsame] at hupdate
    omega
  have hnumber : (System.goto { s with store := s.store.remove listenEventKey } r
      (.finish join)).number group = s.number group := by
    show (s.adds * 2 ^ 30 + count group (Function.update s.ranks r _) : ℤ) = _
    rw [hcount, System.number]
  have hget : s.store.remove listenEventKey dynamicSizeKey = s.store dynamicSizeKey :=
    Function.update_of_ne (by decide) _ _
  refine ⟨?_, ?_, Or.inl ⟨?_, ?_, hadds, hsize.trans hcount.symm⟩, ?_, h.events_lt, h.size_lt, ?_⟩
  · intro q hq
    have hne : q ≠ r := fun heq => hq (heq ▸ hr)
    exact (Function.update_of_ne hne _ _).trans (h.outside q hq)
  · intro q
    rw [hnumber]
    show (Function.update s.ranks r { s.ranks r with pc := .finish join } q).Ok _ _ _ _
    by_cases hq : q = r
    · rw [hq, Function.update_self]
      apply (h.ranks r).goto (Or.inr (by rw [hpc]; rfl))
      · intro tmp htmp
        cases htmp
      · intro hs
        rw [Rank.settled, hpc]
        exact hs
    · rw [Function.update_of_ne hq]
      exact h.ranks q
  · show s.store.remove listenEventKey listenEventKey = none
    rw [Store.remove, Function.update_self]
  · intro q
    show (Function.update s.ranks r { s.ranks r with pc := .finish join } q).pc.inEvent = false
    by_cases hq : q = r
    · rw [hq, Function.update_self]
      rfl
    · rw [Function.update_of_ne hq]
      exact hheld.others q hq
  · rw [hnumber]
    show s.store.remove listenEventKey dynamicSizeKey = none ∧ _ ∨
      s.store.remove listenEventKey dynamicSizeKey = _
    rw [hget]
    exact h.dynamicSize
  · show count group (Function.update s.ranks r _) < _
    rw [hcount]
    exact h.count_lt

/-- The event key is removed, and the call returns. -/
theorem finish_inv (h : Inv group timeoutMs s) (hr : r ∈ group) {join : Bool}
    (hpc : (s.ranks r).pc = .finish join) :
    Inv group timeoutMs (s.setRank r { s.ranks r with
      joined := join
      pc := .returned }) := by
  have hrank := h.ranks r
  apply h.update hr
  · refine ⟨fun j hj => (nomatch hj), fun tmp htmp => (nomatch htmp), hrank.handled, ?_,
      hrank.listener⟩
    intro hsettled
    apply hrank.settled
    rw [Rank.settled, hpc]
    exact hsettled
  · rw [Rank.counted, Rank.counted, hpc]
  · right
    refine ⟨rfl, fun j hj => ?_⟩
    have hholds := hj.holds
    rw [hpc] at hholds
    cases hholds

/-- A step of a caller's thread keeps the invariant. -/
theorem mainStep_inv (hgroup : ∀ q ∈ group, q < 2 ^ 32) (h : Inv group timeoutMs s) (hr : r ∈ group)
    (hkeeps : KeepsMain (timeoutMs r) s r) {s' : System}
    (hstep : mainStep (timeoutMs r) s r = some s') : Inv group timeoutMs s' := by
  cases hpc : (s.ranks r).pc with
  | returned =>
    rw [mainStep, hpc] at hstep
    cases hstep
  | tryCas join casTimes prev =>
    rw [mainStep, hpc] at hstep
    rw [← Option.some.inj hstep]
    exact tryCas_inv hgroup h hr hpc hkeeps
  | joinRead => exact joinRead_inv h hr hpc hstep
  | joinUpdate tmp =>
    rw [mainStep, hpc] at hstep
    rw [← Option.some.inj hstep]
    exact joinUpdate_inv h hr hpc
  | joinAdd => exact joinAdd_inv h hr hpc hstep
  | leaveAdd => exact leaveAdd_inv h hr hpc hstep
  | leaveUpdate tmpVal =>
    rw [mainStep, hpc] at hstep
    rw [← Option.some.inj hstep]
    exact leaveUpdate_inv h hr hpc _
  | remove join =>
    rw [mainStep, hpc] at hstep
    rw [← Option.some.inj hstep]
    exact remove_inv h hr hpc
  | finish join =>
    rw [mainStep, hpc] at hstep
    rw [← Option.some.inj hstep]
    exact finish_inv h hr hpc

/-- A call begins. -/
theorem call_inv (h : Inv group timeoutMs s) (hr : r ∈ group) {join : Bool} {s' : System}
    (hstep : call s r join = some s') : Inv group timeoutMs s' := by
  unfold call at hstep
  split at hstep
  · rename_i hpc
    by_cases hjoined : (s.ranks r).joined = join
    · rw [if_pos hjoined] at hstep
      rw [← Option.some.inj hstep]
      exact h
    · rw [if_neg hjoined] at hstep
      rw [← Option.some.inj hstep]
      have hrank := h.ranks r
      apply h.update hr
      · refine ⟨?_, fun tmp htmp => (nomatch htmp), hrank.handled, ?_, hrank.listener⟩
        · intro j hj
          obtain rfl : join = j := Option.some.inj hj
          show (s.ranks r).joined = _
          cases hb : (s.ranks r).joined <;> cases join <;> first | rfl | exact absurd hb hjoined
        · intro hsettled
          apply hrank.settled
          rw [Rank.settled, hpc]
          exact hsettled
      · rw [Rank.counted, Rank.counted, hpc]
      · right
        refine ⟨rfl, fun j hj => ?_⟩
        have hholds := hj.holds
        rw [hpc] at hholds
        cases hholds
  · cases hstep

/-! ## Listening -/

/-- The event key holds the last event. -/
theorem Inv.key_eq (h : Inv group timeoutMs s) {value : Value}
    (hkey : s.store listenEventKey = some value) : value.text = s.lastEvent := by
  rcases h.event with hfree | ⟨q, _, j, hheld⟩
  · rw [hfree.key] at hkey
    cases hkey
  · rw [hheld.key] at hkey
    rw [← Option.some.inj hkey, hheld.last]
    rfl

theorem sizeAfter_join (r : ℕ) (size : ℤ) :
    sizeAfter (eventValue true r).head? size = some (toUint32 (size + 1)) := if_pos rfl

theorem sizeAfter_leave (r : ℕ) (size : ℤ) :
    sizeAfter (eventValue false r).head? size = some (toUint32 (size - 1)) := by
  show sizeAfter (some 76) size = _
  rw [sizeAfter, if_neg (by decide), if_pos rfl]

/-- A listener that reads the dynamic size before the event adds to it knows what the event leads
to. -/
theorem Inv.readSize_ok (h : Inv group timeoutMs s) {event : ℕ} {value : Bytes} {number : Value}
    (hevent : event ≤ s.events) (hvalue : event = s.events → value = s.lastEvent)
    (hnumber : s.store dynamicSizeKey = some number) :
    (readSize event value s.adds number.text).Ok s.events s.size s.lastEvent := by
  unfold readSize
  by_cases hdigits : isDigitText number.text = true
  · rw [if_pos hdigits]
    cases hread : strToLong number.text with
    | none => trivial
    | some n =>
      refine ⟨hevent, fun hlast hearly => ?_⟩
      have hlt := h.count_lt
      have hslt := h.size_lt
      have helt := h.events_lt
      have hnum : number = .number (s.number group) := by
        rcases h.dynamicSize with ⟨hnone, _⟩ | hsome
        · rw [hnone] at hnumber
          cases hnumber
        · rw [hsome] at hnumber
          exact (Option.some.inj hnumber).symm
      have hn : n = s.number group := by
        have hback := @strToLong_toDecimal (s.number group) (by rw [System.number]; omega)
          (by rw [System.number]; omega)
        rw [hnum, Value.text, hback] at hread
        exact (Option.some.inj hread).symm
      have hsplit : splitSizeAndVersion n = ((s.adds : ℤ), (count group s.ranks : ℤ)) := by
        rw [hn, System.number]
        exact split_number (by omega) hlt
      -- an early read of the last event: its holder has not added yet
      rcases h.event with hfree | ⟨q, _, j, hheld⟩
      · have hadds := hfree.adds
        omega
      · have hcounts := hheld.counts
        rw [Counts] at hcounts
        split at hcounts
        · omega
        obtain ⟨_, hleads⟩ := hcounts
        rw [hvalue hlast, hheld.last, hsplit]
        refine ⟨by dsimp only; omega, ?_⟩
        dsimp only
        cases j with
        | true =>
          have hsize : s.size = count group s.ranks + 1 := hleads
          have hnat : (count group s.ranks : ℤ) + 1 = (s.size : ℤ) := by omega
          rw [sizeAfter_join, hnat, toUint32_of_lt (by omega)]
        | false =>
          have hsize : s.size + 1 = count group s.ranks := hleads
          have hnat : (count group s.ranks : ℤ) - 1 = (s.size : ℤ) := by omega
          rw [sizeAfter_leave, hnat, toUint32_of_lt (by omega)]
  · rw [if_neg hdigits]
    trivial

/-- A listener goes on to another operation. -/
theorem Inv.listen (h : Inv group timeoutMs s) (hr : r ∈ group) {listener : Listener}
    (hok : listener.Ok s.events s.size s.lastEvent) :
    Inv group timeoutMs (s.listen r listener) :=
  h.update hr ⟨(h.ranks r).joined, (h.ranks r).tmp, (h.ranks r).handled, (h.ranks r).settled, hok⟩
    rfl (Or.inl rfl)

/-- A listener wakes with the event it was told. -/
theorem wake_inv (h : Inv group timeoutMs s) (hr : r ∈ group) {event : ℕ} {value : Bytes}
    (hlistener : (s.ranks r).listener = .notified event value) (hkeeps : KeepsListen s r) :
    Inv group timeoutMs (s.setRank r ((s.ranks r).wake event value)) := by
  rw [KeepsListen, hlistener] at hkeeps
  have hrank := h.ranks r
  have hok := hrank.listener
  rw [hlistener] at hok
  unfold Rank.wake
  by_cases hwake : (s.ranks r).joined = true ∧ wellFormed value = true
  · rw [if_pos hwake]
    by_cases hprev : value = (s.ranks r).prevEvent
    · rw [if_pos hprev]
      refine h.update hr ⟨hrank.joined, hrank.tmp, max_le hrank.handled hok.1, ?_, trivial⟩ rfl
        (Or.inl rfl)
      intro hsettled hmax
      have hle := hkeeps hsettled hwake.1 hprev
      have hmax' : max (s.ranks r).handled event = s.events := hmax
      rw [max_eq_left hle] at hmax'
      exact hrank.settled hsettled hmax'
    · rw [if_neg hprev]
      exact h.update hr ⟨hrank.joined, hrank.tmp, hrank.handled, hrank.settled, hok⟩ rfl (Or.inl rfl)
  · rw [if_neg hwake]
    exact h.update hr ⟨hrank.joined, hrank.tmp, hrank.handled, hrank.settled, trivial⟩ rfl
      (Or.inl rfl)

/-- A listener writes down version and size. -/
theorem apply_inv (h : Inv group timeoutMs s) (hr : r ∈ group) {event reads : ℕ} {groupVersion : ℤ}
    {rankSize : Option ℕ}
    (hlistener : (s.ranks r).listener = .applying event reads groupVersion rankSize)
    (hkeeps : KeepsListen s r) :
    Inv group timeoutMs (s.setRank r ((s.ranks r).apply event groupVersion rankSize)) := by
  rw [KeepsListen, hlistener] at hkeeps
  have hrank := h.ranks r
  have hok := hrank.listener
  rw [hlistener] at hok
  refine h.update hr ⟨hrank.joined, hrank.tmp, max_le hrank.handled hok.1, ?_, trivial⟩ rfl
    (Or.inl rfl)
  intro hsettled hmax
  obtain ⟨hearly, hnew⟩ := hkeeps hsettled
  have hmax' : max (s.ranks r).handled event = s.events := hmax
  rw [max_eq_right hnew.le] at hmax'
  obtain ⟨hversion, hsize⟩ := hok.2 hmax' hearly
  refine ⟨hversion, ?_⟩
  show rankSize.getD _ = _
  rw [hsize]
  rfl

/-- A step of a listener keeps the invariant. -/
theorem listenStep_inv (h : Inv group timeoutMs s) (hr : r ∈ group) (hkeeps : KeepsListen s r)
    {s' : System} (hstep : listenStep s r = some s') : Inv group timeoutMs s' := by
  cases hlistener : (s.ranks r).listener with
  | top =>
    rw [listenStep, hlistener] at hstep
    rw [← Option.some.inj hstep]
    split
    · exact h.listen hr trivial
    · exact h
  | watch =>
    rw [listenStep, hlistener] at hstep
    dsimp only at hstep
    cases hkey : s.store listenEventKey with
    | none =>
      rw [hkey] at hstep
      rw [← Option.some.inj hstep]
      exact h.listen hr trivial
    | some value =>
      rw [hkey] at hstep
      rw [← Option.some.inj hstep]
      exact h.listen hr ⟨le_refl _, fun _ => h.key_eq hkey⟩
  | waiting =>
    rw [listenStep, hlistener] at hstep
    cases hstep
  | notified event value =>
    rw [listenStep, hlistener] at hstep
    rw [← Option.some.inj hstep]
    exact wake_inv h hr hlistener hkeeps
  | reading event value =>
    rw [listenStep, hlistener] at hstep
    rcases Option.map_eq_some_iff.mp hstep with ⟨number, hnumber, rfl⟩
    have hok := (h.ranks r).listener
    rw [hlistener] at hok
    exact h.listen hr (h.readSize_ok hok.1 hok.2 hnumber)
  | applying event reads groupVersion rankSize =>
    rw [listenStep, hlistener] at hstep
    rw [← Option.some.inj hstep]
    exact apply_inv h hr hlistener hkeeps

/-! ## Runs -/

/-- Every action that meets the conditions keeps the invariant. -/
theorem step_inv (hgroup : ∀ q ∈ group, q < 2 ^ 32) (h : Inv group timeoutMs s) {a : Action}
    (hkeeps : Keeps timeoutMs s a) {s' : System} (hstep : step group timeoutMs s a = some s') :
    Inv group timeoutMs s' := by
  unfold step at hstep
  by_cases hr : a.rank ∈ group
  · rw [if_pos hr] at hstep
    cases a with
    | join r => exact call_inv h hr hstep
    | leave r => exact call_inv h hr hstep
    | main r => exact mainStep_inv hgroup h hr hkeeps hstep
    | listen r => exact listenStep_inv h hr hkeeps hstep
  · rw [if_neg hr] at hstep
    cases hstep

/-- When there is no event and all members have handled the last one, they agree. -/
theorem Inv.agreed (h : Inv group timeoutMs s) : Agreed group s := by
  have hmember : s.store listenEventKey = none → ∀ q,
      (s.ranks q).counted = (s.ranks q).member ∧
        ((s.ranks q).member = true → (s.ranks q).settled = true) ∧
        s.size = count group s.ranks := by
    intro hnone q
    rcases h.event with hfree | ⟨p, _, j, hheld⟩
    · have hout := hfree.others q
      refine ⟨?_, ?_, hfree.size⟩
      · rw [Rank.counted, Rank.member]
        cases hpc : (s.ranks q).pc <;> rw [hpc] at hout <;> first | rfl | cases hout
      · rw [Rank.settled, Rank.member]
        cases hpc : (s.ranks q).pc <;> rw [hpc] at hout <;> first | exact id | cases hout
    · rw [hheld.key] at hnone
      cases hnone
  constructor
  · intro r q hr hq
    obtain ⟨join, hheld⟩ := h.held hr
    exact (hheld.inEvent_or hq).symm
  · intro hnone hhandled r hr q hq hmr hmq
    have hsr := (h.ranks r).settled ((hmember hnone r).2.1 hmr) (hhandled r hr hmr)
    have hsq := (h.ranks q).settled ((hmember hnone q).2.1 hmq) (hhandled q hq hmq)
    rw [hsr.1, hsq.1]
  · intro hnone hhandled r hr hmr
    have hsr := (h.ranks r).settled ((hmember hnone r).2.1 hmr) (hhandled r hr hmr)
    rw [hsr.2, (hmember hnone r).2.2, count]
    congr 1
    apply Finset.filter_congr
    intro q _
    rw [(hmember hnone q).1]

/-- Every operation of a schedule has what it needs. -/
def KeepsAll (group : Finset ℕ) (timeoutMs : ℕ → ℕ) (s : System) : List Action → Prop
  | [] => True
  | a :: rest => Keeps timeoutMs s a ∧
    match step group timeoutMs s a with
    | none => True
    | some s' => KeepsAll group timeoutMs s' rest

/-- Every run whose actions meet the conditions keeps the invariant. -/
theorem run_inv (hgroup : ∀ q ∈ group, q < 2 ^ 32) (h : Inv group timeoutMs s)
    {schedule : List Action} (hkeeps : KeepsAll group timeoutMs s schedule) {s' : System}
    (hrun : run group timeoutMs s schedule = some s') : Inv group timeoutMs s' := by
  induction schedule generalizing s with
  | nil =>
    rw [← Option.some.inj hrun]
    exact h
  | cons a rest ih =>
    rw [run, List.foldlM_cons] at hrun
    rcases Option.bind_eq_some_iff.mp hrun with ⟨mid, hstep, hrest⟩
    have hlater := hkeeps.2
    rw [hstep] at hlater
    exact ih (step_inv hgroup h hkeeps.1 hstep) hlater hrest

instance (timeoutMs : ℕ) (s : System) (r : ℕ) : Decidable (KeepsMain timeoutMs s r) :=
  have : Decidable (match (s.ranks r).pc with
      | .tryCas _ casTimes prev => s.store listenEventKey = none →
          casTimes < casLimit timeoutMs → (prev = [] → casTimes + 1 < casLimit timeoutMs) ∧
            s.events + 1 < 2 ^ 31 ∧ s.size + 1 < 2 ^ 30
      | _ => True) :=
    match (s.ranks r).pc with
    | .tryCas _ _ _ => inferInstanceAs (Decidable (_ = none → _ → (_ → _) ∧ _ ∧ _))
    | .returned => isTrue trivial
    | .joinRead => isTrue trivial
    | .joinUpdate _ => isTrue trivial
    | .joinAdd => isTrue trivial
    | .leaveAdd => isTrue trivial
    | .leaveUpdate _ => isTrue trivial
    | .remove _ => isTrue trivial
    | .finish _ => isTrue trivial
  this

instance (s : System) (r : ℕ) : Decidable (KeepsListen s r) :=
  have : Decidable (match (s.ranks r).listener with
      | .notified event value => (s.ranks r).settled = true → (s.ranks r).joined = true →
          value = (s.ranks r).prevEvent → event ≤ (s.ranks r).handled
      | .applying event reads _ _ => (s.ranks r).settled = true →
          reads + 1 = event ∧ (s.ranks r).handled < event
      | _ => True) :=
    match (s.ranks r).listener with
    | .notified _ _ => inferInstanceAs (Decidable (_ → _ → _ → _))
    | .applying _ _ _ _ => inferInstanceAs (Decidable (_ → _ ∧ _))
    | .top => isTrue trivial
    | .watch => isTrue trivial
    | .waiting => isTrue trivial
    | .reading _ _ => isTrue trivial
  this

instance (timeoutMs : ℕ → ℕ) (s : System) : (a : Action) → Decidable (Keeps timeoutMs s a)
  | .main r => inferInstanceAs (Decidable (KeepsMain (timeoutMs r) s r))
  | .listen r => inferInstanceAs (Decidable (KeepsListen s r))
  | .join _ => isTrue trivial
  | .leave _ => isTrue trivial

instance decidableKeepsAll (group : Finset ℕ) (timeoutMs : ℕ → ℕ) :
    (s : System) → (schedule : List Action) → Decidable (KeepsAll group timeoutMs s schedule)
  | _, [] => isTrue trivial
  | s, a :: rest =>
    have : Decidable (match step group timeoutMs s a with
        | none => True
        | some s' => KeepsAll group timeoutMs s' rest) :=
      match step group timeoutMs s a with
      | none => isTrue trivial
      | some s' => decidableKeepsAll group timeoutMs s' rest
    inferInstanceAs (Decidable (_ ∧ _))

/-- A dynamic group agrees on its members when its listeners read the dynamic size in time. -/
theorem run_agreed (group : Finset ℕ) (timeoutMs : ℕ → ℕ) (hgroup : ∀ r ∈ group, r < 2 ^ 32)
    (schedule : List Action) (s : System) (hkeeps : KeepsAll group timeoutMs .init schedule)
    (hrun : run group timeoutMs .init schedule = some s) : Agreed group s :=
  (run_inv hgroup .init hkeeps hrun).agreed

/-- A rank joins, and nothing else happens. -/
def joinAlone (r : ℕ) : List Action := .join r :: List.replicate 7 (.main r)

/-- Rank 0 joins and watches; rank 1 creates its event, of which the listener of rank 0 reads the
dynamic size at once. -/
def earlyRead : List Action :=
  joinAlone 0 ++ [.listen 0, .listen 0, .join 1, .main 1, .listen 0, .listen 0, .listen 0]
    ++ List.replicate 6 (.main 1)

/-- Rank 1 joins while rank 0 is a member; both end with version 2. -/
theorem run_agreed_earlyRead :
    ∃ s, run {0, 1} (fun _ => 1000) .init earlyRead = some s ∧
      ((s.ranks 0).groupVersion = 2 ∧ (s.ranks 1).groupVersion = 2) ∧ Agreed {0, 1} s := by
  obtain ⟨s, hrun, hversions⟩ := (Option.any_eq_true
    (fun s : System => (s.ranks 0).groupVersion == 2 && (s.ranks 1).groupVersion == 2)
    (run {0, 1} (fun _ => 1000) .init earlyRead)).mp (by decide +kernel)
  simp only [Bool.and_eq_true, beq_iff_eq] at hversions
  exact ⟨s, hrun, hversions, run_agreed {0, 1} (fun _ => 1000) (by decide) earlyRead s
    (by decide +kernel) hrun⟩

/-- Rank 0 joins and watches, rank 1 joins, and only then the listener of rank 0 runs. -/
def lateRead : List Action :=
  joinAlone 0 ++ [.listen 0, .listen 0] ++ joinAlone 1 ++ [.listen 0, .listen 0, .listen 0]

/-- Rank 0 adds the event of rank 1 to a version and a size that have it already. -/
theorem not_agreed_lateRead :
    ¬ ∀ (group : Finset ℕ) (timeoutMs : ℕ → ℕ), (∀ r ∈ group, r < 2 ^ 32) →
      ∀ (schedule : List Action) (s : System),
        run group timeoutMs .init schedule = some s → Agreed group s := by
  intro h
  obtain ⟨s, hrun, hs⟩ := (Option.any_eq_true
    (fun s : System => (s.store listenEventKey).isNone &&
      (s.ranks 0).handled == s.events && (s.ranks 1).handled == s.events &&
      (s.ranks 0).member && (s.ranks 1).member &&
      (s.ranks 0).groupVersion == 3 && (s.ranks 1).groupVersion == 2)
    (run {0, 1} (fun _ => 1000) .init lateRead)).mp (by decide +kernel)
  simp only [Bool.and_eq_true, beq_iff_eq, Option.isNone_iff_eq_none] at hs
  obtain ⟨⟨⟨⟨⟨⟨hnone, hfirst⟩, hsecond⟩, hzero⟩, hone⟩, hthree⟩, htwo⟩ := hs
  have hhandled : ∀ r ∈ ({0, 1} : Finset ℕ), (s.ranks r).handled = s.events := by
    intro r hr
    rcases Finset.mem_insert.mp hr with rfl | hr
    · exact hfirst
    · rw [Finset.mem_singleton.mp hr]
      exact hsecond
  have hagreed := (h {0, 1} (fun _ => 1000) (by decide) lateRead s hrun).version hnone
    (fun r hr _ => hhandled r hr) 0 (by decide) 1 (by decide) hzero hone
  rw [hthree, htwo] at hagreed
  cases hagreed

end Dynamic

end AscendShmem.GroupEngine
