import AscendShmem.ConfigStore.Waiters

/-!
# The two indexes of the waiters

`timedWaiters_` lists the waiters with a timeout by deadline, `keyWaiters_` lists all waiters by key.
Whoever wakes a key takes its waiters out of both. The timer takes what it finds due out of the first
only, and it stops at the first bucket it meets that is not due, in a map without an order. So the
buckets are sound along every run (`Run.timerIndex`), and all of the indexes are sound along the runs
in which the timer never finds a waiter due, and no others.
-/

namespace AscendShmem.ConfigStore

/-- The request with the context `ctx` asked for a timeout. -/
def Timed (ts : List Transition) (ctx : ℕ) : Prop :=
  ∃ t ∈ ts, ∃ order now message, t.event = .request order now message ∧ t.before.received = ctx ∧
    0 < message.userDef

/-- Both indexes agree with the waiters. -/
structure IndexesSound (ts : List Transition) (s : Server) : Prop where
  timed_live : ∀ deadline ids, s.timedWaiters deadline = some ids → ∀ id ∈ ids,
    ∃ w, s.waitCtx id = some w ∧ w.timeoutMs = deadline
  key_live : ∀ key ids, s.keyWaiters key = some ids → ∀ id ∈ ids,
    ∃ w, s.waitCtx id = some w ∧ w.key = key
  timed_once : ∀ id w, s.waitCtx id = some w → Timed ts w.reqCtx →
    ∃! deadline, ∃ ids, s.timedWaiters deadline = some ids ∧ id ∈ ids
  timed_nonempty : ∀ deadline ids, s.timedWaiters deadline = some ids → ids.Nonempty
  key_nonempty : ∀ key ids, s.keyWaiters key = some ids → ids.Nonempty

/-- No waiter with a timeout has its deadline at or before `timestamp`. -/
def NoneOverdue (ts : List Transition) (timestamp : ℤ) (s : Server) : Prop :=
  ∀ id w, s.waitCtx id = some w → Timed ts w.reqCtx → timestamp < w.timeoutMs

/-- The indexes are sound in every state of the run, and no scan leaves an overdue waiter. -/
def SoundAlong (ts : List Transition) : Prop :=
  IndexesSound [] Server.init ∧ ∀ pre t post, ts = pre ++ t :: post →
    IndexesSound (pre ++ [t]) t.after.server ∧ ∀ order timestamp, t.event = .timer order timestamp →
      NoneOverdue (pre ++ [t]) timestamp t.after.server

/-- If the step is a scan, no deadline has come. -/
def Transition.FindsNoneDue (t : Transition) : Prop :=
  ∀ order timestamp, t.event = .timer order timestamp →
    ∀ deadline ids, t.before.server.timedWaiters deadline = some ids → timestamp < deadline

/-! ## What a request does to the server -/

/-- A request leaves the waiters alone, wakes those of a key, or is parked. -/
theorem Server.receiveMessage_cases {s : Server} {order : Order} {now : ℤ} {ctx : ℕ}
    {request : SmemMessage} {out : Outcome}
    (h : s.receiveMessage order now ctx request = some out) :
    (∃ kvStore, out.server = { s with kvStore := kvStore }) ∨
      (∃ key value, out.server = (s.takeWaiters order key).2.put key value) ∨
      ∃ timeoutMs key, out.server = s.park timeoutMs ctx key request.userDef := by
  -- the branches that answer at once, with an error or a value
  have hkept : (∃ kvStore, s = { s with kvStore := kvStore }) := ⟨s.kvStore, rfl⟩
  unfold receiveMessage at h
  split at h
  · rw [← Option.some.inj h, setHandler]
    split
    · split
      · exact .inl hkept
      · dsimp only
        split
        · exact .inr (.inl ⟨_, _, rfl⟩)
        · exact .inl ⟨_, rfl⟩
    · exact .inl hkept
  · unfold getHandler at h
    split at h
    · split at h
      · cases h
        exact .inl hkept
      · split at h
        · cases h
          exact .inl hkept
        · split at h
          · cases h
            exact .inl hkept
          · split at h
            · cases h
              exact .inl hkept
            · split at h
              · cases h
              · cases h
                exact .inr (.inr ⟨_, _, rfl⟩)
    · cases h
      exact .inl hkept
  · unfold addHandler at h
    split at h
    · split at h
      · cases h
        exact .inl hkept
      · split at h
        · cases h
          exact .inl hkept
        · split at h
          · cases h
            exact .inl hkept
          · split at h
            · cases h
              exact .inr (.inl ⟨_, _, rfl⟩)
            · split at h
              · cases h
                exact .inl hkept
              · dsimp only at h
                split at h
                · cases h
                · cases h
                  exact .inl ⟨_, rfl⟩
    · cases h
      exact .inl hkept
  · rw [← Option.some.inj h, removeHandler]
    split
    · split
      · exact .inl hkept
      · split
        · exact .inl hkept
        · exact .inl ⟨_, rfl⟩
    · exact .inl hkept
  · rw [← Option.some.inj h, appendHandler]
    split
    · split
      · exact .inl hkept
      · dsimp only
        split
        · exact .inl ⟨_, rfl⟩
        · exact .inr (.inl ⟨_, _, rfl⟩)
    · exact .inl hkept
  · rw [← Option.some.inj h, casHandler]
    split
    · split
      · exact .inl hkept
      · dsimp only
        split
        · split
          · exact .inl ⟨_, rfl⟩
          · exact .inl hkept
        · split
          · rw [takeWaiters_put]
            exact .inr (.inl ⟨_, _, rfl⟩)
          · exact .inl hkept
    · exact .inl hkept
  · rw [← Option.some.inj h]
    exact .inl hkept

/-! ## The buckets -/

/-- The buckets hold the waiters with a timeout, but for the ids that a scan has taken out of them and
not yet out of `waitCtx_`. -/
structure TimerIndex (timed : ℕ → Prop) (taken : Finset ℕ) (s : Server) : Prop where
  live : ∀ {deadline ids id}, s.timedWaiters deadline = some ids → id ∈ ids →
    id ∉ taken ∧ ∃ w, s.waitCtx id = some w ∧ w.timeoutMs = deadline ∧ timed w.reqCtx
  listed : ∀ {id w}, s.waitCtx id = some w → timed w.reqCtx → id ∉ taken →
    ∃ ids, s.timedWaiters w.timeoutMs = some ids ∧ id ∈ ids
  nonempty : ∀ {deadline ids}, s.timedWaiters deadline = some ids → ids.Nonempty

namespace TimerIndex

variable {timed timed' : ℕ → Prop} {taken : Finset ℕ} {s : Server}

theorem init : TimerIndex timed taken Server.init where
  live h := by cases h
  listed h := by cases h
  nonempty h := by cases h

/-- Only the waiters of the server matter. -/
theorem of_timed (h : TimerIndex timed taken s)
    (heq : ∀ id w, s.waitCtx id = some w → (timed' w.reqCtx ↔ timed w.reqCtx)) :
    TimerIndex timed' taken s where
  live hbucket hid := by
    obtain ⟨hnot, w, hw, hdeadline, htimed⟩ := h.live hbucket hid
    exact ⟨hnot, w, hw, hdeadline, (heq _ w hw).mpr htimed⟩
  listed hw htimed := h.listed hw ((heq _ _ hw).mp htimed)
  nonempty hbucket := h.nonempty hbucket

theorem of_kvStore (h : TimerIndex timed taken s) (kvStore : Bytes → Option Bytes)
    (keyWaiters : Bytes → Option (Finset ℕ)) :
    TimerIndex timed taken { s with kvStore := kvStore, keyWaiters := keyWaiters } :=
  ⟨h.live, h.listed, h.nonempty⟩

theorem leaveBucket_of_none {buckets : ℤ → Option (Finset ℕ)} {w : StoreWaitContext}
    (h : buckets w.timeoutMs = none) : Server.leaveBucket buckets w = buckets := by
  simp only [Server.leaveBucket, h]

/-- The waiter leaves its bucket, which is erased when it is empty. -/
theorem leaveBucket_of_some {buckets : ℤ → Option (Finset ℕ)} {w : StoreWaitContext}
    {bucket : Finset ℕ} (h : buckets w.timeoutMs = some bucket) :
    Server.leaveBucket buckets w = Function.update buckets w.timeoutMs
      (if bucket.erase w.id = ∅ then none else some (bucket.erase w.id)) := by
  simp only [Server.leaveBucket, h]
  split <;> rfl

/-- What `leaveBucket` leaves of a bucket. -/
theorem leaveBucket_eq_some {buckets : ℤ → Option (Finset ℕ)} {w : StoreWaitContext} {deadline : ℤ}
    {ids : Finset ℕ} (h : Server.leaveBucket buckets w deadline = some ids) :
    ∃ old, buckets deadline = some old ∧
      ((deadline = w.timeoutMs ∧ ids = old.erase w.id ∧ ids.Nonempty) ∨
        (deadline ≠ w.timeoutMs ∧ ids = old)) := by
  cases hbucket : buckets w.timeoutMs with
  | none =>
    rw [leaveBucket_of_none hbucket] at h
    have hne : deadline ≠ w.timeoutMs := by
      rintro rfl
      exact absurd (hbucket.symm.trans h) (by simp)
    exact ⟨ids, h, .inr ⟨hne, rfl⟩⟩
  | some bucket =>
    rw [leaveBucket_of_some hbucket] at h
    by_cases hdeadline : deadline = w.timeoutMs
    · rw [hdeadline, Function.update_self] at h
      split at h
      · cases h
      · rename_i hempty
        rw [Option.some.injEq] at h
        exact ⟨bucket, hdeadline ▸ hbucket,
          .inl ⟨hdeadline, h.symm, h ▸ Finset.nonempty_iff_ne_empty.mpr hempty⟩⟩
    · rw [Function.update_of_ne hdeadline] at h
      exact ⟨ids, h, .inr ⟨hdeadline, rfl⟩⟩

/-- An id that is not the one that leaves stays in its bucket. -/
theorem leaveBucket_mem {buckets : ℤ → Option (Finset ℕ)} {w : StoreWaitContext} {deadline : ℤ}
    {old : Finset ℕ} {id : ℕ} (hold : buckets deadline = some old) (hid : id ∈ old)
    (hne : id ≠ w.id) : ∃ ids, Server.leaveBucket buckets w deadline = some ids ∧ id ∈ ids := by
  cases hbucket : buckets w.timeoutMs with
  | none => exact ⟨old, by rw [leaveBucket_of_none hbucket, hold], hid⟩
  | some bucket =>
    rw [leaveBucket_of_some hbucket]
    by_cases hdeadline : deadline = w.timeoutMs
    · rw [hdeadline, hbucket, Option.some.injEq] at hold
      have hmem : id ∈ bucket.erase w.id := Finset.mem_erase.mpr ⟨hne, hold ▸ hid⟩
      rw [hdeadline, Function.update_self, if_neg (Finset.ne_empty_of_mem hmem)]
      exact ⟨_, rfl, hmem⟩
    · exact ⟨old, by rw [Function.update_of_ne hdeadline, hold], hid⟩

/-- A waiter is taken out of its bucket too. -/
theorem getOutWaiter (h : TimerIndex timed taken s)
    (hids : ∀ id w, s.waitCtx id = some w → w.id = id) (id : ℕ) :
    TimerIndex timed taken (s.getOutWaiter id).2 := by
  unfold Server.getOutWaiter
  split
  · exact h
  · rename_i gone hgone
    have hid : gone.id = id := hids id gone hgone
    refine ⟨fun {deadline ids i} hbucket hi => ?_, fun {i w} hw htimed hnot => ?_,
      fun {deadline ids} hbucket => ?_⟩
    · obtain ⟨old, hold, hcase⟩ := leaveBucket_eq_some hbucket
      have hi' : i ∈ old := by
        rcases hcase with ⟨-, rfl, -⟩ | ⟨-, rfl⟩
        · exact Finset.mem_of_mem_erase hi
        · exact hi
      obtain ⟨hnot, w, hw, hdeadline, htimed⟩ := h.live hold hi'
      -- the one that leaves is in no other bucket than the one that it leaves
      have hne : i ≠ id := by
        rintro rfl
        rw [hgone, Option.some.injEq] at hw
        rcases hcase with ⟨-, rfl, -⟩ | ⟨hother, -⟩
        · exact Finset.ne_of_mem_erase hi hid.symm
        · exact hother (hdeadline.symm.trans (by rw [hw]))
      refine ⟨hnot, w, ?_, hdeadline, htimed⟩
      show Function.update s.waitCtx id none i = some w
      rw [Function.update_of_ne hne, hw]
    · have hw' : Function.update s.waitCtx id none i = some w := hw
      have hne : i ≠ id := by
        rintro rfl
        rw [Function.update_self] at hw'
        cases hw'
      rw [Function.update_of_ne hne] at hw'
      obtain ⟨ids, hbucket, hi⟩ := h.listed hw' htimed hnot
      exact leaveBucket_mem hbucket hi (hid ▸ hne)
    · obtain ⟨old, hold, hcase⟩ := leaveBucket_eq_some hbucket
      rcases hcase with ⟨-, -, hsome⟩ | ⟨-, rfl⟩
      · exact hsome
      · exact h.nonempty hold

theorem getOutWaiters (h : TimerIndex timed taken s)
    (hids : ∀ id w, s.waitCtx id = some w → w.id = id) (ids : List ℕ) :
    TimerIndex timed taken (s.getOutWaiters ids).2 := by
  induction ids generalizing s with
  | nil => exact h
  | cons id ids ih =>
    refine ih (h.getOutWaiter hids id) fun i w hw => ?_
    have hw : (s.getOutWaiter id).2.waitCtx i = some w := hw
    rw [Server.getOutWaiter_waitCtx] at hw
    by_cases hi : i = id
    · rw [hi, Function.update_self] at hw
      cases hw
    · rw [Function.update_of_ne hi] at hw
      exact hids i w hw

/-- A key whose waiters are woken has none. -/
theorem takeWaiters (h : TimerIndex timed taken s)
    (hids : ∀ id w, s.waitCtx id = some w → w.id = id) (order : Order) (key : Bytes) :
    TimerIndex timed taken (s.takeWaiters order key).2 := by
  unfold Server.takeWaiters
  split
  · exact h
  · exact (h.getOutWaiters hids _).of_kvStore _ _

/-- A scan moves the waiters of the buckets it erases to those it takes. -/
theorem collect {timestamp : ℤ} {buckets buckets' : ℤ → Option (Finset ℕ)} {ids ids' : Finset ℕ}
    (hcollect : CollectTimeouts timestamp buckets ids buckets' ids')
    (h : TimerIndex timed ids { s with timedWaiters := buckets }) :
    TimerIndex timed ids' { s with timedWaiters := buckets' } := by
  induction hcollect with
  | empty hnone => exact h
  | notDue hbegin hlt => exact h
  | @due buckets ids t bucket buckets' ids' hbegin hle rest ih =>
    apply ih
    refine ⟨fun {deadline left i} hleft hi => ?_, fun {i w} hw htimed hnot => ?_,
      fun {deadline left} hleft => ?_⟩
    · have hleft : Function.update buckets t none deadline = some left := hleft
      have hne : deadline ≠ t := by
        rintro rfl
        rw [Function.update_self] at hleft
        cases hleft
      rw [Function.update_of_ne hne] at hleft
      obtain ⟨hnot, w, hw, hdeadline, htimed⟩ := h.live hleft hi
      refine ⟨fun hmem => ?_, w, hw, hdeadline, htimed⟩
      rcases Finset.mem_union.mp hmem with hmem | hmem
      · exact hnot hmem
      · obtain ⟨-, w', hw', hdeadline', -⟩ := h.live hbegin hmem
        have hsame : w' = w := Option.some.inj (hw'.symm.trans hw)
        exact hne (hdeadline.symm.trans (hsame ▸ hdeadline'))
    · rw [Finset.mem_union, not_or] at hnot
      obtain ⟨left, hleft, hi⟩ := h.listed hw htimed hnot.1
      have hleft : buckets w.timeoutMs = some left := hleft
      have hne : w.timeoutMs ≠ t := by
        intro heq
        rw [heq, hbegin, Option.some.injEq] at hleft
        exact hnot.2 (hleft ▸ hi)
      exact ⟨left, (Function.update_of_ne hne _ _).trans hleft, hi⟩
    · have hleft : Function.update buckets t none deadline = some left := hleft
      have hne : deadline ≠ t := by
        rintro rfl
        rw [Function.update_self] at hleft
        cases hleft
      rw [Function.update_of_ne hne] at hleft
      exact h.nonempty hleft

/-- A scan: the buckets that are due go first, their waiters after them. -/
theorem scan {timestamp : ℤ} {buckets : ℤ → Option (Finset ℕ)} {ids : Finset ℕ} {order : Order}
    (h : TimerIndex timed ∅ s) (hids : ∀ id w, s.waitCtx id = some w → w.id = id)
    (hcollect : CollectTimeouts timestamp s.timedWaiters ∅ buckets ids) :
    TimerIndex timed ∅ (({ s with timedWaiters := buckets }).getOutWaitersInLock order ids).2 := by
  have hafter := (collect hcollect h).getOutWaiters hids (order.toList ids)
  refine ⟨fun hbucket hi => ?_, fun {i w} hw htimed _ => ?_, hafter.nonempty⟩
  · exact ⟨Finset.notMem_empty _, (hafter.live hbucket hi).2⟩
  · refine hafter.listed hw htimed fun hi => ?_
    have hgone : (Server.getOutWaiters { s with timedWaiters := buckets } (order.toList ids)).2.waitCtx
        i = some w := hw
    rw [Server.getOutWaiters_waitCtx, if_pos ((order.mem_toList ids i).mpr hi)] at hgone
    cases hgone

/-- The new id is in the bucket of its deadline, if there is a timeout; all others are where they
were. -/
theorem park_bucket {timeoutMs userDef deadline : ℤ} {ctx id : ℕ} {key : Bytes} :
    (∃ ids, (s.park timeoutMs ctx key userDef).timedWaiters deadline = some ids ∧ id ∈ ids) ↔
      (id = s.idGen ∧ deadline = timeoutMs ∧ 0 < userDef) ∨
        ∃ ids, s.timedWaiters deadline = some ids ∧ id ∈ ids := by
  show (∃ ids, (if 0 < userDef then Function.update s.timedWaiters (timeoutMs)
      (some (insert s.idGen ((s.timedWaiters (timeoutMs)).getD ∅))) else s.timedWaiters) deadline
        = some ids ∧ id ∈ ids) ↔ _
  by_cases hpos : 0 < userDef
  · rw [if_pos hpos]
    by_cases hdeadline : deadline = timeoutMs
    · rw [hdeadline, Function.update_self]
      cases hbucket : s.timedWaiters (timeoutMs) with
      | none => simp [hpos]
      | some old => simp [hpos]
    · rw [Function.update_of_ne hdeadline]
      simp [hdeadline]
  · rw [if_neg hpos]
    simp [hpos]

/-- A bucket never is empty. -/
theorem park_nonempty {timeoutMs userDef deadline : ℤ} {ctx : ℕ} {key : Bytes} {ids : Finset ℕ}
    (h : ∀ {deadline ids}, s.timedWaiters deadline = some ids → ids.Nonempty)
    (hids : (s.park timeoutMs ctx key userDef).timedWaiters deadline = some ids) : ids.Nonempty := by
  have hids : (if 0 < userDef then Function.update s.timedWaiters (timeoutMs)
      (some (insert s.idGen ((s.timedWaiters (timeoutMs)).getD ∅))) else s.timedWaiters) deadline
        = some ids := hids
  split at hids
  · by_cases hdeadline : deadline = timeoutMs
    · rw [hdeadline, Function.update_self, Option.some.injEq] at hids
      exact hids ▸ Finset.insert_nonempty _ _
    · rw [Function.update_of_ne hdeadline] at hids
      exact h hids
  · exact h hids

/-- A new waiter with a timeout is in the bucket of its deadline. -/
theorem park {timeoutMs userDef : ℤ} {ctx : ℕ} {key : Bytes} (h : TimerIndex timed ∅ s)
    (hids : ∀ id w, s.waitCtx id = some w → id ≠ s.idGen)
    (hold : ∀ id w, s.waitCtx id = some w → (timed' w.reqCtx ↔ timed w.reqCtx))
    (hnew : timed' ctx ↔ 0 < userDef) : TimerIndex timed' ∅ (s.park timeoutMs ctx key userDef) := by
  have hnewCtx : (s.park timeoutMs ctx key userDef).waitCtx s.idGen
      = some ⟨s.idGen, timeoutMs, key, ctx⟩ := Function.update_self ..
  have holdCtx : ∀ id, id ≠ s.idGen → (s.park timeoutMs ctx key userDef).waitCtx id = s.waitCtx id :=
    fun id hid => Function.update_of_ne hid _ _
  refine ⟨fun {deadline ids i} hbucket hi => ⟨Finset.notMem_empty _, ?_⟩, fun {i w} hw htimed _ => ?_,
    fun {deadline ids} hbucket => park_nonempty h.nonempty hbucket⟩
  · rcases park_bucket.mp ⟨ids, hbucket, hi⟩ with ⟨rfl, rfl, hpos⟩ | ⟨old, hold', hi⟩
    · exact ⟨_, hnewCtx, rfl, hnew.mpr hpos⟩
    · obtain ⟨-, w, hw, hdeadline, htimed⟩ := h.live hold' hi
      exact ⟨w, (holdCtx i (hids i w hw)).trans hw, hdeadline, (hold i w hw).mpr htimed⟩
  · rw [park_bucket]
    by_cases hi : i = s.idGen
    · rw [hi, hnewCtx, Option.some.injEq] at hw
      subst hw
      exact .inl ⟨hi, rfl, hnew.mp htimed⟩
    · rw [holdCtx i hi] at hw
      exact .inr (h.listed hw ((hold i w hw).mp htimed) (Finset.notMem_empty _))

end TimerIndex

/-! ## The keys -/

/-- The ids under a key are those of its waiters. -/
structure KeyIndex (s : Server) : Prop where
  live : ∀ {key ids id}, s.keyWaiters key = some ids → id ∈ ids →
    ∃ w, s.waitCtx id = some w ∧ w.key = key
  nonempty : ∀ {key ids}, s.keyWaiters key = some ids → ids.Nonempty

namespace KeyIndex

variable {s : Server}

theorem init : KeyIndex Server.init where
  live h := by cases h
  nonempty h := by cases h

theorem takeWaiters (h : KeyIndex s) (order : Order) (key : Bytes) :
    KeyIndex (s.takeWaiters order key).2 := by
  have hother : ∀ {key' ids}, (s.takeWaiters order key).2.keyWaiters key' = some ids →
      key' ≠ key ∧ s.keyWaiters key' = some ids := by
    intro key' ids hids
    rw [Server.takeWaiters_keyWaiters] at hids
    by_cases hkey : key' = key
    · rw [hkey, Function.update_self] at hids
      cases hids
    · rw [Function.update_of_ne hkey] at hids
      exact ⟨hkey, hids⟩
  refine ⟨fun {key' ids id} hids hid => ?_, fun {key' ids} hids => h.nonempty (hother hids).2⟩
  obtain ⟨hne, hids⟩ := hother hids
  obtain ⟨w, hw, hkey⟩ := h.live hids hid
  refine ⟨w, ?_, hkey⟩
  rw [Server.takeWaiters_waitCtx, if_neg, hw]
  -- a waiter of another key is not registered under the key that is created
  intro hmem
  unfold Server.registered at hmem
  cases hkeyIds : s.keyWaiters key with
  | none =>
    rw [hkeyIds] at hmem
    exact absurd hmem (Finset.notMem_empty _)
  | some keyIds =>
    rw [hkeyIds] at hmem
    obtain ⟨w', hw', hkey'⟩ := h.live hkeyIds hmem
    have hsame : w' = w := Option.some.inj (hw'.symm.trans hw)
    exact hne (hkey.symm.trans (hsame ▸ hkey'))

/-- A new waiter is under its key. -/
theorem park {timeoutMs userDef : ℤ} {ctx : ℕ} {key : Bytes} (h : KeyIndex s)
    (hids : ∀ id w, s.waitCtx id = some w → id ≠ s.idGen) :
    KeyIndex (s.park timeoutMs ctx key userDef) := by
  have holdCtx : ∀ id w, s.waitCtx id = some w →
      (s.park timeoutMs ctx key userDef).waitCtx id = some w :=
    fun id w hw => (Function.update_of_ne (hids id w hw) _ _).trans hw
  have hregistered : ∀ {id}, id ∈ (s.keyWaiters key).getD ∅ →
      ∃ w, s.waitCtx id = some w ∧ w.key = key := by
    intro id hid
    cases hkeyIds : s.keyWaiters key with
    | none =>
      rw [hkeyIds] at hid
      exact absurd hid (Finset.notMem_empty _)
    | some keyIds =>
      rw [hkeyIds] at hid
      exact h.live hkeyIds hid
  refine ⟨fun {key' ids id} hids' hid => ?_, fun {key' ids} hids' => ?_⟩
  · have hids' : Function.update s.keyWaiters key
        (some (insert s.idGen ((s.keyWaiters key).getD ∅))) key' = some ids := hids'
    by_cases hkey : key' = key
    · rw [hkey, Function.update_self, Option.some.injEq] at hids'
      rw [hkey]
      rcases Finset.mem_insert.mp (hids' ▸ hid) with rfl | hid
      · exact ⟨_, Function.update_self .., rfl⟩
      · obtain ⟨w, hw, hwkey⟩ := hregistered hid
        exact ⟨w, holdCtx id w hw, hwkey⟩
    · rw [Function.update_of_ne hkey] at hids'
      obtain ⟨w, hw, hwkey⟩ := h.live hids' hid
      exact ⟨w, holdCtx id w hw, hwkey⟩
  · have hids' : Function.update s.keyWaiters key
        (some (insert s.idGen ((s.keyWaiters key).getD ∅))) key' = some ids := hids'
    by_cases hkey : key' = key
    · rw [hkey, Function.update_self, Option.some.injEq] at hids'
      exact hids' ▸ Finset.insert_nonempty _ _
    · rw [Function.update_of_ne hkey] at hids'
      exact h.nonempty hids'

end KeyIndex

/-! ## Along a run -/

theorem Run.eq_of_nil {s s' : System} (h : Run s [] s') : s' = s := by
  generalize hts : ([] : List Transition) = ts at h
  cases h with
  | nil => rfl
  | cons => cases hts

/-- A run at one of its steps. -/
theorem Run.split {s s' : System} {pre post : List Transition} {t : Transition}
    (h : Run s (pre ++ t :: post) s') : Run s pre t.before ∧ t.Valid ∧ Run t.after post s' := by
  induction pre generalizing s with
  | nil =>
    cases h with
    | cons ht rest => exact ⟨Run.nil _, ht, rest⟩
  | cons first pre ih =>
    cases h with
    | cons hfirst rest =>
      obtain ⟨hpre, ht, hpost⟩ := ih rest
      exact ⟨Run.cons hfirst hpre, ht, hpost⟩

/-- A run with a step behind it. -/
theorem Run.snoc {s : System} {ts : List Transition} {t : Transition} (h : Run s ts t.before)
    (ht : t.Valid) : Run s (ts ++ [t]) t.after := by
  generalize hlast : t.before = last at h
  induction h with
  | nil s =>
    subst hlast
    exact Run.cons ht (Run.nil _)
  | cons hfirst rest ih => exact Run.cons hfirst (ih hlast)

/-- Requests are numbered as they come. -/
theorem Run.received_lt {s s' : System} {ts : List Transition} (h : Run s ts s') :
    s.received ≤ s'.received ∧ ∀ t ∈ ts, ∀ order now message, t.event = .request order now message →
      t.before.received < s'.received := by
  induction h with
  | nil s => exact ⟨Nat.le_refl _, fun t ht => absurd ht List.not_mem_nil⟩
  | @cons t ts s' ht rest ih =>
    obtain ⟨hle, hrest⟩ := ih
    obtain ⟨before, event, replies, after⟩ := t
    have hstep : before.received ≤ after.received ∧ ∀ order now message,
        event = .request order now message → before.received < after.received := by
      cases (show Step before event replies after from ht) with
      | request h => exact ⟨Nat.le_succ _, fun _ _ _ _ => Nat.lt_succ_self _⟩
      | timer h => exact ⟨Nat.le_refl _, fun _ _ _ hevent => by cases hevent⟩
    refine ⟨hstep.1.trans hle, fun t' ht' order now message hevent => ?_⟩
    rcases List.mem_cons.mp ht' with rfl | ht'
    · exact (hstep.2 order now message hevent).trans_le hle
    · exact hrest t' ht' order now message hevent

theorem timed_append {ts : List Transition} {t : Transition} {ctx : ℕ} :
    Timed (ts ++ [t]) ctx ↔ Timed ts ctx ∨ ∃ order now message,
      t.event = .request order now message ∧ t.before.received = ctx ∧ 0 < message.userDef := by
  simp [Timed, or_and_right, exists_or]

theorem Inv.ids {s : System} (hinv : Inv s) : ∀ id w, s.server.waitCtx id = some w → id ≠ s.server.idGen :=
  fun _ _ hw => Nat.ne_of_lt (hinv.id_lt hw)

/-- A step keeps the buckets. -/
theorem Run.timerIndex_step {ts : List Transition} {t : Transition} (h : Run System.init ts t.before)
    (ht : t.Valid) (hindex : TimerIndex (Timed ts) ∅ t.before.server) :
    TimerIndex (Timed (ts ++ [t])) ∅ t.after.server := by
  have hinv := h.inv inv_init
  have hbefore := h.received_lt.2
  obtain ⟨before, event, replies, after⟩ := t
  have hids : ∀ id w, before.server.waitCtx id = some w → w.id = id := fun _ _ => hinv.id_eq
  -- the requests of the waiters are behind
  have hold : ∀ id w, before.server.waitCtx id = some w →
      (Timed (ts ++ [⟨before, event, replies, after⟩]) w.reqCtx ↔ Timed ts w.reqCtx) := by
    intro id w hw
    rw [timed_append]
    refine or_iff_left fun hlast => ?_
    obtain ⟨order, now, message, -, hctx, -⟩ := hlast
    exact absurd hctx.symm (Nat.ne_of_lt (hinv.ctx_lt hw))
  cases (show Step before event replies after from ht) with
  | @request order now message out hout =>
    have hkept := hindex.of_timed hold
    rcases Server.receiveMessage_cases hout with ⟨kvStore, hserver⟩ | ⟨key, value, hserver⟩ |
        ⟨timeoutMs, key, hserver⟩
    · rw [show (System.mk out.server (before.received + 1)).server = _ from hserver]
      exact hkept.of_kvStore _ _
    · rw [show (System.mk out.server (before.received + 1)).server = _ from hserver]
      exact (hkept.takeWaiters hids order key).of_kvStore _ _
    · rw [show (System.mk out.server (before.received + 1)).server = _ from hserver]
      refine hindex.park hinv.ids hold ?_
      rw [timed_append]
      constructor
      · rintro (⟨t, ht, order', now', message', hevent, hctx, -⟩ | ⟨order', now', message', hevent, -, hpos⟩)
        · exact absurd hctx (Nat.ne_of_lt (hbefore t ht _ _ _ hevent))
        · cases hevent
          exact hpos
      · exact fun hpos => .inr ⟨order, now, message, rfl, rfl, hpos⟩
  | timer hcollect =>
    exact TimerIndex.of_timed (hindex.scan hids hcollect) fun id w hw => hold id w (by
      have hw := hw
      unfold Server.getOutWaitersInLock at hw
      rw [Server.getOutWaiters_waitCtx] at hw
      split at hw
      · cases hw
      · exact hw)

/-- The buckets are sound in every reachable state. -/
theorem Run.timerIndex {s : System} {ts : List Transition} (h : Run System.init ts s) :
    TimerIndex (Timed ts) ∅ s.server := by
  induction ts using List.reverseRecOn generalizing s with
  | nil =>
    rw [h.eq_of_nil]
    exact TimerIndex.init
  | append_singleton ts t ih =>
    obtain ⟨hts, ht, hlast⟩ := h.split
    rw [hlast.eq_of_nil]
    exact hts.timerIndex_step ht (ih hts)

/-- A scan that finds nothing due does nothing. -/
theorem CollectTimeouts.none_due {timestamp : ℤ} {timed timed' : ℤ → Option (Finset ℕ)}
    {ids ids' : Finset ℕ} (h : CollectTimeouts timestamp timed ids timed' ids')
    (hnone : ∀ deadline bucket, timed deadline = some bucket → timestamp < deadline) :
    timed' = timed ∧ ids' = ids := by
  cases h with
  | empty h => exact ⟨rfl, rfl⟩
  | notDue hbegin h => exact ⟨rfl, rfl⟩
  | due hbegin h rest => exact absurd h (not_le.mpr (hnone _ _ hbegin))

/-- A scan that finds nobody takes nobody out. -/
theorem getOutWaitersInLock_empty (s : Server) (order : Order) :
    (s.getOutWaitersInLock order ∅).2 = s := by
  have hempty : order.toList ∅ = [] := by
    rw [List.eq_nil_iff_forall_not_mem]
    exact fun id hid => absurd ((order.mem_toList ∅ id).mp hid) (Finset.notMem_empty id)
  rw [Server.getOutWaitersInLock, hempty]
  rfl

/-- A step whose scan finds nothing due keeps the index of the keys. -/
theorem KeyIndex.step {t : Transition} (ht : t.Valid) (hinv : Inv t.before)
    (hnone : t.FindsNoneDue) (h : KeyIndex t.before.server) : KeyIndex t.after.server := by
  obtain ⟨before, event, replies, after⟩ := t
  cases (show Step before event replies after from ht) with
  | @request order now message out hout =>
    rcases Server.receiveMessage_cases hout with ⟨kvStore, hserver⟩ | ⟨key, value, hserver⟩ |
        ⟨timeoutMs, key, hserver⟩
    · rw [show (System.mk out.server (before.received + 1)).server = _ from hserver]
      exact ⟨h.live, h.nonempty⟩
    · rw [show (System.mk out.server (before.received + 1)).server = _ from hserver]
      exact ⟨(h.takeWaiters order key).live, (h.takeWaiters order key).nonempty⟩
    · rw [show (System.mk out.server (before.received + 1)).server = _ from hserver]
      exact h.park hinv.ids
  | @timer order timestamp timed ids hcollect =>
    obtain ⟨rfl, rfl⟩ := hcollect.none_due (hnone order timestamp rfl)
    rw [show (System.server ⟨_, _⟩) = _ from getOutWaitersInLock_empty before.server order]
    exact h

/-- Without a due scan the keys hold registered waiters only. -/
theorem Run.keyIndex {s : System} {ts : List Transition} (h : Run System.init ts s)
    (hnone : ∀ t ∈ ts, t.FindsNoneDue) : KeyIndex s.server := by
  induction ts using List.reverseRecOn generalizing s with
  | nil =>
    rw [h.eq_of_nil]
    exact KeyIndex.init
  | append_singleton ts t ih =>
    obtain ⟨hts, ht, hlast⟩ := h.split
    rw [hlast.eq_of_nil]
    exact (ih hts fun t ht => hnone t (List.mem_append_left _ ht)).step ht (hts.inv inv_init)
      (hnone t (List.mem_append_right _ (List.mem_singleton_self t)))

/-- Both indexes, from what holds of each. -/
theorem IndexesSound.of_indexes {ts : List Transition} {s : Server}
    (htimer : TimerIndex (Timed ts) ∅ s) (hkey : KeyIndex s) : IndexesSound ts s where
  timed_live deadline ids hids id hid := by
    obtain ⟨-, w, hw, hdeadline, -⟩ := htimer.live hids hid
    exact ⟨w, hw, hdeadline⟩
  key_live key ids hids id hid := hkey.live hids hid
  timed_once id w hw htimed := by
    obtain ⟨ids, hids, hid⟩ := htimer.listed hw htimed (Finset.notMem_empty _)
    refine ⟨w.timeoutMs, ⟨ids, hids, hid⟩, ?_⟩
    rintro deadline ⟨ids', hids', hid'⟩
    obtain ⟨-, w', hw', hdeadline, -⟩ := htimer.live hids' hid'
    rw [← hdeadline, Option.some.inj (hw'.symm.trans hw)]
  timed_nonempty deadline ids hids := htimer.nonempty hids
  key_nonempty key ids hids := hkey.nonempty hids

/-- A scan at or behind a deadline leaves the waiter, or its id under its key. -/
theorem Run.none_due_of_sound {ts : List Transition} {t : Transition}
    (h : Run System.init ts t.before) (ht : t.Valid)
    (hsound : IndexesSound (ts ++ [t]) t.after.server)
    (hoverdue : ∀ order timestamp, t.event = .timer order timestamp →
      NoneOverdue (ts ++ [t]) timestamp t.after.server) : t.FindsNoneDue := by
  intro order timestamp hevent deadline bucket hbucket
  have hinv := h.inv inv_init
  obtain ⟨id, hid⟩ := h.timerIndex.nonempty hbucket
  obtain ⟨-, w, hw, rfl, htimed⟩ := h.timerIndex.live hbucket hid
  have hstill : Timed (ts ++ [t]) w.reqCtx := timed_append.mpr (.inl htimed)
  have hoverdue := hoverdue order timestamp hevent id w
  obtain ⟨before, event, replies, after⟩ := t
  cases (show Step before event replies after from ht) with
  | request h => cases hevent
  | @timer order' timestamp' timed ids hcollect =>
    have hafter : (({ before.server with timedWaiters := timed }).getOutWaitersInLock order'
        ids).2.waitCtx id = if id ∈ order'.toList ids then none else some w := by
      rw [Server.getOutWaitersInLock, Server.getOutWaiters_waitCtx, ← hw]
    by_cases hgone : id ∈ order'.toList ids
    · -- taken out, but the set of its key is as it was
      rw [if_pos hgone] at hafter
      have hmem := hinv.mem_registered hw
      unfold Server.registered at hmem
      cases hkeyIds : before.server.keyWaiters w.key with
      | none =>
        rw [hkeyIds] at hmem
        exact absurd hmem (Finset.notMem_empty _)
      | some keyIds =>
        rw [hkeyIds] at hmem
        have hframe := Server.getOutWaiters_frame { before.server with timedWaiters := timed }
          (order'.toList ids)
        have hkept : (({ before.server with timedWaiters := timed }).getOutWaitersInLock order'
            ids).2.keyWaiters w.key = some keyIds := by
          rw [Server.getOutWaitersInLock, hframe.2.1, ← hkeyIds]
        obtain ⟨w', hw', -⟩ := hsound.key_live w.key keyIds hkept id hmem
        exact absurd (hafter.symm.trans hw') (by simp)
    · rw [if_neg hgone] at hafter
      exact hoverdue hafter hstill

/-- The indexes are sound along a run, with no overdue waiter behind a scan, exactly when no scan
of it finds a bucket due. -/
theorem indexes_sound_iff {s : System} {ts : List Transition} (h : Run System.init ts s) :
    SoundAlong ts ↔ ∀ t ∈ ts, t.FindsNoneDue := by
  constructor
  · rintro ⟨-, hsound⟩ t ht
    obtain ⟨pre, post, rfl⟩ := List.append_of_mem ht
    obtain ⟨hpre, hvalid, -⟩ := h.split
    obtain ⟨hindexes, hoverdue⟩ := hsound pre t post rfl
    exact hpre.none_due_of_sound hvalid hindexes hoverdue
  · intro hnone
    refine ⟨.of_indexes (TimerIndex.init) KeyIndex.init, fun pre t post hts => ?_⟩
    rw [hts] at h hnone
    obtain ⟨hpre, hvalid, -⟩ := h.split
    have hrun : Run System.init (pre ++ [t]) t.after := hpre.snoc hvalid
    have hkey := hrun.keyIndex fun t' ht' => hnone t' (by
      rcases List.mem_append.mp ht' with ht' | ht'
      · exact List.mem_append_left _ ht'
      · rw [List.mem_singleton.mp ht']
        exact List.mem_append_right _ List.mem_cons_self)
    refine ⟨.of_indexes hrun.timerIndex hkey, fun order timestamp hevent id w hw htimed => ?_⟩
    have hdue := hnone t (List.mem_append_right _ List.mem_cons_self) order timestamp hevent
    have hsame : t.after.server = t.before.server := by
      obtain ⟨before, event, replies, after⟩ := t
      cases (show Step before event replies after from hvalid) with
      | request h => cases hevent
      | @timer order' timestamp' timed ids hcollect =>
        cases hevent
        obtain ⟨rfl, rfl⟩ := hcollect.none_due hdue
        exact getOutWaitersInLock_empty before.server order
    obtain ⟨ids, hids, -⟩ := hrun.timerIndex.listed hw htimed (Finset.notMem_empty _)
    rw [hsame] at hids
    exact hdue _ _ hids

/-- A GET that waits and the SET that wakes it. -/
theorem indexes_sound_sample : SoundAlong [sampleGet, sampleSet] := by
  refine (indexes_sound_iff sample_run).mpr fun t ht order timestamp hevent => ?_
  rcases List.mem_cons.mp ht with rfl | ht
  · cases hevent
  · rw [List.mem_singleton.mp ht] at hevent
    cases hevent

/-! ## A scan that stops too early -/

/-- A GET with a timeout of 5 ms parks. -/
def shortGet : Transition where
  before := System.init
  event := .request sortedOrder 0 ⟨.get, 5, [sampleKey], []⟩
  replies := []
  after := ⟨Server.init.park 5 0 sampleKey 5, 1⟩

/-- Another one with 100 ms. -/
def longGet : Transition where
  before := shortGet.after
  event := .request sortedOrder 0 ⟨.get, 100, [sampleKey], []⟩
  replies := []
  after := ⟨shortGet.after.server.park 100 1 sampleKey 100, 2⟩

/-- The scan after 50 ms meets the second bucket first. -/
def earlyScan : Transition where
  before := longGet.after
  event := .timer sortedOrder 50
  replies := Server.timeoutReplies (longGet.after.server.getOutWaitersInLock sortedOrder ∅).1
  after := ⟨(longGet.after.server.getOutWaitersInLock sortedOrder ∅).2, 2⟩

/-- Two GETs of one key, and a scan when the first one is due. -/
theorem earlyScan_run : Run System.init [shortGet, longGet, earlyScan] earlyScan.after := by
  have hshort : shortGet.Valid := by
    have hout : Server.init.receiveMessage sortedOrder 0 0 ⟨.get, 5, [sampleKey], []⟩ =
        some ⟨aclshmemSuccess, [], Server.init.park 5 0 sampleKey 5⟩ := by
      rfl
    exact Step.request (s := System.init) hout
  have hlong : longGet.Valid := by
    have hout : shortGet.after.server.receiveMessage sortedOrder 0 1 ⟨.get, 100, [sampleKey], []⟩ =
        some ⟨aclshmemSuccess, [], shortGet.after.server.park 100 1 sampleKey 100⟩ := by
      rfl
    exact Step.request (s := shortGet.after) hout
  have hscan : earlyScan.Valid := by
    have hbucket : longGet.after.server.timedWaiters 100 = some {2} := by decide
    exact Step.timer (s := longGet.after) (.notDue hbucket (by decide))
  exact .cons hshort (.cons hlong (.cons hscan (.nil _)))

/-- The scan leaves the id of a waiter it has answered under the key. -/
theorem earlyScan_leaves_overdue :
    ¬ ∀ (s : System) (ts : List Transition), Run System.init ts s → SoundAlong ts := by
  intro h
  have hoverdue := ((h _ _ earlyScan_run).2 [shortGet, longGet] earlyScan [] rfl).2 sortedOrder 50 rfl
  have hwaiter : earlyScan.after.server.waitCtx 1 = some ⟨1, 5, sampleKey, 0⟩ := by
    show (longGet.after.server.getOutWaitersInLock sortedOrder ∅).2.waitCtx 1 = _
    rw [getOutWaitersInLock_empty]
    rfl
  have htimed : Timed ([shortGet, longGet] ++ [earlyScan]) 0 :=
    ⟨shortGet, by simp, sortedOrder, 0, _, rfl, rfl, by decide⟩
  exact absurd (hoverdue 1 _ hwaiter htimed) (by decide)

end AscendShmem.ConfigStore
