import AscendShmem.ConfigStore.Server

/-!
# Waiting GETs

What a step can do to the GETs that wait: `Effect` lists it once. From it come the invariant of the
three indexes and, along a run, that each request is answered at most once.
-/

namespace AscendShmem.ConfigStore

namespace Server

/-! ## Taking waiters out -/

/-- Taking a waiter out leaves the store and the keys. -/
theorem getOutWaiter_frame (s : Server) (id : ℕ) :
    (s.getOutWaiter id).2.kvStore = s.kvStore ∧ (s.getOutWaiter id).2.keyWaiters = s.keyWaiters ∧
      (s.getOutWaiter id).2.idGen = s.idGen := by
  unfold getOutWaiter
  split
  · exact ⟨rfl, rfl, rfl⟩
  · exact ⟨rfl, rfl, rfl⟩

theorem getOutWaiter_waitCtx (s : Server) (id : ℕ) :
    (s.getOutWaiter id).2.waitCtx = Function.update s.waitCtx id none := by
  unfold getOutWaiter
  split
  · rename_i h
    rw [← h, Function.update_eq_self]
  · rfl

theorem getOutWaiter_fst (s : Server) (id : ℕ) :
    (s.getOutWaiter id).1 = ((s.waitCtx id).map StoreWaitContext.reqCtx).toList := by
  unfold getOutWaiter
  split
  · rename_i h
    rw [h]
    rfl
  · rename_i w h
    rw [h]
    rfl

/-- Taking waiters out leaves the store and the keys. -/
theorem getOutWaiters_frame (s : Server) (ids : List ℕ) :
    (s.getOutWaiters ids).2.kvStore = s.kvStore ∧ (s.getOutWaiters ids).2.keyWaiters = s.keyWaiters ∧
      (s.getOutWaiters ids).2.idGen = s.idGen := by
  induction ids generalizing s with
  | nil => exact ⟨rfl, rfl, rfl⟩
  | cons id ids ih =>
    have hfirst := getOutWaiter_frame s id
    have hrest := ih (s.getOutWaiter id).2
    exact ⟨hrest.1.trans hfirst.1, hrest.2.1.trans hfirst.2.1, hrest.2.2.trans hfirst.2.2⟩

/-- None of them is registered any more. -/
theorem getOutWaiters_waitCtx (s : Server) (ids : List ℕ) (i : ℕ) :
    (s.getOutWaiters ids).2.waitCtx i = if i ∈ ids then none else s.waitCtx i := by
  induction ids generalizing s with
  | nil => rfl
  | cons id ids ih =>
    show ((s.getOutWaiter id).2.getOutWaiters ids).2.waitCtx i = _
    rw [ih, getOutWaiter_waitCtx]
    by_cases hi : i = id
    · rw [hi, Function.update_self, ite_self, if_pos List.mem_cons_self]
    · rw [Function.update_of_ne hi]
      simp only [List.mem_cons, hi, false_or]

/-- The contexts taken out, in the order of the loop. -/
theorem getOutWaiters_fst (s : Server) {ids : List ℕ} (h : ids.Nodup) :
    (s.getOutWaiters ids).1 =
      ids.filterMap fun i => (s.waitCtx i).map StoreWaitContext.reqCtx := by
  induction ids generalizing s with
  | nil => rfl
  | cons id ids ih =>
    have hnodup := List.nodup_cons.mp h
    show (s.getOutWaiter id).1 ++ ((s.getOutWaiter id).2.getOutWaiters ids).1 = _
    rw [ih _ hnodup.2, getOutWaiter_fst, getOutWaiter_waitCtx, List.filterMap_cons]
    have hrest : (ids.filterMap fun i =>
        (Function.update s.waitCtx id none i).map StoreWaitContext.reqCtx) =
        ids.filterMap fun i => (s.waitCtx i).map StoreWaitContext.reqCtx := by
      apply List.filterMap_congr
      intro i hi
      have hne : i ≠ id := fun heq => hnodup.1 (heq ▸ hi)
      rw [Function.update_of_ne hne]
    rw [hrest]
    cases (s.waitCtx id).map StoreWaitContext.reqCtx with
    | none => rfl
    | some ctx => rfl

/-- The ids registered under a key. -/
def registered (s : Server) (key : Bytes) : Finset ℕ := (s.keyWaiters key).getD ∅

/-- Waking the waiters of a key leaves the store. -/
theorem takeWaiters_frame (s : Server) (order : Order) (key : Bytes) :
    (s.takeWaiters order key).2.kvStore = s.kvStore ∧
      (s.takeWaiters order key).2.idGen = s.idGen := by
  unfold takeWaiters
  split
  · exact ⟨rfl, rfl⟩
  · rename_i ids h
    have hframe := getOutWaiters_frame s (order.toList ids)
    exact ⟨hframe.1, hframe.2.2⟩

theorem takeWaiters_waitCtx (s : Server) (order : Order) (key : Bytes) (i : ℕ) :
    (s.takeWaiters order key).2.waitCtx i = if i ∈ s.registered key then none else s.waitCtx i := by
  unfold takeWaiters registered
  split
  · rename_i h
    rw [h]
    exact (if_neg (Finset.notMem_empty i)).symm
  · rename_i ids h
    rw [h]
    show (s.getOutWaiters (order.toList ids)).2.waitCtx i = _
    rw [getOutWaiters_waitCtx]
    simp only [order.mem_toList, Option.getD_some]

/-- The key has no waiters. -/
theorem takeWaiters_keyWaiters (s : Server) (order : Order) (key : Bytes) :
    (s.takeWaiters order key).2.keyWaiters = Function.update s.keyWaiters key none := by
  unfold takeWaiters
  split
  · rename_i h
    rw [← h, Function.update_eq_self]
  · rename_i ids h
    show Function.update (s.getOutWaiters (order.toList ids)).2.keyWaiters key none = _
    rw [(getOutWaiters_frame s _).2.1]

/-- The requests of those under the key, each once. -/
theorem takeWaiters_fst (s : Server) (order : Order) (key : Bytes) :
    ∃ ids : List ℕ, ids.Nodup ∧ (∀ i, i ∈ ids ↔ i ∈ s.registered key) ∧
      (s.takeWaiters order key).1 =
        ids.filterMap fun i => (s.waitCtx i).map StoreWaitContext.reqCtx := by
  unfold takeWaiters registered
  split
  · rename_i h
    rw [h]
    exact ⟨[], List.nodup_nil, fun i => by simp, rfl⟩
  · rename_i ids h
    rw [h]
    exact ⟨order.toList ids, order.nodup ids, order.mem_toList ids,
      getOutWaiters_fst s (order.nodup ids)⟩

/-- Nobody is registered under the key. -/
theorem registered_takeWaiters (s : Server) (order : Order) (key key' : Bytes) :
    (s.takeWaiters order key).2.registered key' = if key' = key then ∅ else s.registered key' := by
  unfold registered
  rw [takeWaiters_keyWaiters]
  by_cases hkey : key' = key
  · rw [hkey, Function.update_self, if_pos rfl]
    rfl
  · rw [Function.update_of_ne hkey, if_neg hkey]

/-- `kvStore_` and the waiters do not meet, so CAS may store before it wakes. -/
theorem takeWaiters_put (s : Server) (order : Order) (key key' value : Bytes) :
    (s.put key' value).takeWaiters order key =
      ((s.takeWaiters order key).1, (s.takeWaiters order key).2.put key' value) := by
  have hone : ∀ (s : Server) (id : ℕ), (s.put key' value).getOutWaiter id =
      ((s.getOutWaiter id).1, (s.getOutWaiter id).2.put key' value) := by
    intro s id
    have hctx : (s.put key' value).waitCtx id = s.waitCtx id := rfl
    unfold getOutWaiter
    rw [hctx]
    cases s.waitCtx id with
    | none => rfl
    | some w => rfl
  have hall : ∀ (ids : List ℕ) (s : Server), (s.put key' value).getOutWaiters ids =
      ((s.getOutWaiters ids).1, (s.getOutWaiters ids).2.put key' value) := by
    intro ids
    induction ids with
    | nil => intro s; rfl
    | cons id ids ih =>
      intro s
      simp only [getOutWaiters, hone, ih]
  have hkeys : (s.put key' value).keyWaiters key = s.keyWaiters key := rfl
  unfold takeWaiters
  rw [hkeys]
  cases s.keyWaiters key with
  | none => rfl
  | some ids =>
    simp only [getOutWaitersInLock, hall]
    rfl

end Server

/-! ## What a step can do -/

/-- The waiters stay, the key is created under its waiters, a GET is parked or waiters time out. -/
inductive Effect (s : System) : List Reply → System → Prop
  | stay {replies : List Reply} {kvStore}
    (hreplies : replies = [] ∨ ∃ r, r.ctx = s.received ∧ replies = [r])
    (hkv : ∀ key, s.server.kvStore key = none → kvStore key = none) :
    Effect s replies ⟨{ s.server with kvStore := kvStore }, s.received + 1⟩
  | create {order key value woken} {r : Reply} (habsent : s.server.kvStore key = none)
    (hr : r.ctx = s.received) :
    Effect s (r :: Server.wakeupWaiters (s.server.takeWaiters order key).1 woken)
      ⟨(s.server.takeWaiters order key).2.put key value, s.received + 1⟩
  | park {timeoutMs key userDef} (habsent : s.server.kvStore key = none) :
    Effect s [] ⟨s.server.park timeoutMs s.received key userDef, s.received + 1⟩
  | timeout {timed order ids} :
    Effect s
      (Server.timeoutReplies
        (({ s.server with timedWaiters := timed }).getOutWaitersInLock order ids).1)
      ⟨(({ s.server with timedWaiters := timed }).getOutWaitersInLock order ids).2, s.received⟩

namespace Effect

variable {s : System}

/-- Nothing but a reply to the request itself. -/
theorem reject (code : Result) (body : Body) :
    Effect s [⟨s.received, code, body⟩] ⟨s.server, s.received + 1⟩ :=
  stay (Or.inr ⟨_, rfl, rfl⟩) fun _ h => h

theorem silent : Effect s [] ⟨s.server, s.received + 1⟩ := stay (Or.inl rfl) fun _ h => h

/-- A key that exists gets a new value. -/
theorem update {key value old : Bytes} (h : s.server.kvStore key = some old) (code : Result)
    (body : Body) :
    Effect s [⟨s.received, code, body⟩] ⟨s.server.put key value, s.received + 1⟩ := by
  apply stay (Or.inr ⟨_, rfl, rfl⟩)
  intro key' habsent
  have hne : key' ≠ key := by
    intro heq
    rw [heq, h] at habsent
    cases habsent
  rw [Function.update_of_ne hne, habsent]

/-- What a SET does to store and waiters. -/
theorem of_set (order : Order) (request : SmemMessage) :
    Effect s (s.server.setHandler order s.received request).replies
      ⟨(s.server.setHandler order s.received request).server, s.received + 1⟩ := by
  unfold Server.setHandler
  split
  · split
    · exact silent
    · dsimp only
      split
      · rename_i habsent
        exact create habsent rfl
      · rename_i old hold
        exact update hold _ _
  · exact reject _ _

/-- What a GET does to store and waiters. -/
theorem of_get {now : ℤ} {request : SmemMessage} {out : Outcome}
    (h : s.server.getHandler now s.received request = some out) :
    Effect s out.replies ⟨out.server, s.received + 1⟩ := by
  unfold Server.getHandler at h
  split at h
  · split at h
    · cases h
      exact silent
    · split at h
      · cases h
        exact reject _ _
      · rename_i habsent
        split at h
        · cases h
          exact reject _ _
        · split at h
          · cases h
            exact silent
          · split at h
            · cases h
            · cases h
              exact park habsent
  · cases h
    exact reject _ _

/-- What an ADD does to store and waiters. -/
theorem of_add {order : Order} {request : SmemMessage} {out : Outcome}
    (h : s.server.addHandler order s.received request = some out) :
    Effect s out.replies ⟨out.server, s.received + 1⟩ := by
  unfold Server.addHandler at h
  split at h
  · split at h
    · cases h
      exact silent
    · split at h
      · cases h
        exact silent
      · split at h
        · cases h
          exact reject _ _
        · split at h
          · rename_i habsent
            cases h
            exact create habsent rfl
          · rename_i old hold
            split at h
            · cases h
              exact silent
            · dsimp only at h
              split at h
              · cases h
              · cases h
                exact update hold _ _
  · cases h
    exact reject _ _

/-- What a REMOVE does to store and waiters. -/
theorem of_remove (request : SmemMessage) :
    Effect s (s.server.removeHandler s.received request).replies
      ⟨(s.server.removeHandler s.received request).server, s.received + 1⟩ := by
  unfold Server.removeHandler
  split
  · rename_i key _ _
    split
    · exact silent
    · split
      · exact reject _ _
      · apply stay (Or.inr ⟨_, rfl, rfl⟩)
        intro key' habsent
        by_cases hkey : key' = key
        · rw [hkey, Function.update_self]
        · rw [Function.update_of_ne hkey, habsent]
  · exact reject _ _

/-- What an APPEND does to store and waiters. -/
theorem of_append (order : Order) (request : SmemMessage) :
    Effect s (s.server.appendHandler order s.received request).replies
      ⟨(s.server.appendHandler order s.received request).server, s.received + 1⟩ := by
  unfold Server.appendHandler
  split
  · split
    · exact silent
    · dsimp only
      split
      · rename_i old hold
        exact update hold _ _
      · rename_i habsent
        exact create habsent rfl
  · exact reject _ _

/-- What a CAS does to store and waiters. -/
theorem of_cas (order : Order) (request : SmemMessage) :
    Effect s (s.server.casHandler order s.received request).replies
      ⟨(s.server.casHandler order s.received request).server, s.received + 1⟩ := by
  unfold Server.casHandler
  split
  · split
    · exact silent
    · dsimp only
      split
      · rename_i old hold
        split
        · exact update hold _ _
        · exact reject _ _
      · rename_i habsent
        split
        · rw [Server.takeWaiters_put]
          exact create habsent rfl
        · exact reject _ _
  · exact reject _ _

end Effect

/-- Every step has one of the effects. -/
theorem Step.effect {s s' : System} {e : Event} {replies : List Reply} (h : Step s e replies s') :
    Effect s replies s' := by
  cases h with
  | @request order now message out h =>
    unfold Server.receiveMessage at h
    split at h
    · cases h
      exact Effect.of_set order message
    · exact Effect.of_get h
    · exact Effect.of_add h
    · cases h
      exact Effect.of_remove message
    · cases h
      exact Effect.of_append order message
    · cases h
      exact Effect.of_cas order message
    · cases h
      exact Effect.reject _ _
  | timer h => exact Effect.timeout

/-! ## The invariant of the indexes -/

/-- Every waiter is one parked request, its key is absent and its id is registered under that key
and no other. -/
structure Inv (s : System) : Prop where
  id_eq : ∀ {id w}, s.server.waitCtx id = some w → w.id = id
  id_lt : ∀ {id w}, s.server.waitCtx id = some w → id < s.server.idGen
  ctx_lt : ∀ {id w}, s.server.waitCtx id = some w → w.reqCtx < s.received
  ctx_inj : ∀ {id id' w w'}, s.server.waitCtx id = some w → s.server.waitCtx id' = some w' →
    w.reqCtx = w'.reqCtx → id = id'
  absent : ∀ {id w}, s.server.waitCtx id = some w → s.server.kvStore w.key = none
  mem_registered : ∀ {id w}, s.server.waitCtx id = some w → id ∈ s.server.registered w.key
  registered_lt : ∀ {key id}, id ∈ s.server.registered key → id < s.server.idGen
  key_eq : ∀ {key id w}, id ∈ s.server.registered key → s.server.waitCtx id = some w → w.key = key

theorem inv_init : Inv System.init where
  id_eq h := by cases h
  id_lt h := by cases h
  ctx_lt h := by cases h
  ctx_inj h := by cases h
  absent h := by cases h
  mem_registered h := by cases h
  registered_lt h := absurd h (Finset.notMem_empty _)
  key_eq h := absurd h (Finset.notMem_empty _)

/-- The invariant survives when waiters leave and the ids registered under other keys stay. -/
theorem Inv.of_leave {s s' : System} (hinv : Inv s)
    (hleave : ∀ id w, s'.server.waitCtx id = some w → s.server.waitCtx id = some w)
    (hkv : ∀ id w, s'.server.waitCtx id = some w → s'.server.kvStore w.key = none)
    (hregistered : ∀ key id, id ∈ s'.server.registered key → id ∈ s.server.registered key)
    (hkeep : ∀ id w, s'.server.waitCtx id = some w → id ∈ s'.server.registered w.key)
    (hidGen : s'.server.idGen = s.server.idGen) (hreceived : s.received ≤ s'.received) :
    Inv s' where
  id_eq h := hinv.id_eq (hleave _ _ h)
  id_lt h := by
    rw [hidGen]
    exact hinv.id_lt (hleave _ _ h)
  ctx_lt h := Nat.lt_of_lt_of_le (hinv.ctx_lt (hleave _ _ h)) hreceived
  ctx_inj h h' hctx := hinv.ctx_inj (hleave _ _ h) (hleave _ _ h') hctx
  absent h := hkv _ _ h
  mem_registered h := hkeep _ _ h
  registered_lt h := by
    rw [hidGen]
    exact hinv.registered_lt (hregistered _ _ h)
  key_eq h hw := hinv.key_eq (hregistered _ _ h) (hleave _ _ hw)

/-- A waiter that `takeWaiters` left behind waits for another key. -/
theorem Inv.key_ne {s : System} (hinv : Inv s) {key : Bytes} {id : ℕ} {w : StoreWaitContext}
    (hw : s.server.waitCtx id = some w) (hid : id ∉ s.server.registered key) : w.key ≠ key := by
  intro heq
  have hmem := hinv.mem_registered hw
  rw [heq] at hmem
  exact hid hmem

/-- A key is created and its waiters are woken. -/
theorem inv_create {s : System} (hinv : Inv s) (order : Order) (key value : Bytes) :
    Inv ⟨(s.server.takeWaiters order key).2.put key value, s.received + 1⟩ := by
  have hframe := s.server.takeWaiters_frame order key
  have hleft : ∀ id w, (s.server.takeWaiters order key).2.waitCtx id = some w →
      s.server.waitCtx id = some w ∧ w.key ≠ key := by
    intro id w h
    rw [Server.takeWaiters_waitCtx] at h
    split at h
    · cases h
    · rename_i hid
      exact ⟨h, hinv.key_ne h hid⟩
  apply hinv.of_leave
  · intro id w h
    exact (hleft id w h).1
  · intro id w h
    have hw := hleft id w h
    show Function.update (s.server.takeWaiters order key).2.kvStore key (some value) w.key = none
    rw [Function.update_of_ne hw.2, hframe.1]
    exact hinv.absent hw.1
  · intro key' id h
    have h' : id ∈ (s.server.takeWaiters order key).2.registered key' := h
    rw [Server.registered_takeWaiters] at h'
    split at h'
    · exact absurd h' (Finset.notMem_empty _)
    · exact h'
  · intro id w h
    have hw := hleft id w h
    show id ∈ (s.server.takeWaiters order key).2.registered w.key
    rw [Server.registered_takeWaiters, if_neg hw.2]
    exact hinv.mem_registered hw.1
  · exact hframe.2
  · exact Nat.le_succ _

/-- The parked GET is the only new waiter, under a fresh id. -/
theorem park_waitCtx {s : Server} {timeoutMs userDef : ℤ} {ctx id : ℕ} {key : Bytes}
    {w : StoreWaitContext} (h : (s.park timeoutMs ctx key userDef).waitCtx id = some w) :
    (id = s.idGen ∧ w = ⟨s.idGen, timeoutMs, key, ctx⟩) ∨
      (id ≠ s.idGen ∧ s.waitCtx id = some w) := by
  have h' : Function.update s.waitCtx s.idGen (some ⟨s.idGen, timeoutMs, key, ctx⟩) id = some w := h
  by_cases hid : id = s.idGen
  · rw [hid, Function.update_self] at h'
    exact Or.inl ⟨hid, (Option.some.inj h').symm⟩
  · rw [Function.update_of_ne hid] at h'
    exact Or.inr ⟨hid, h'⟩

/-- A new waiter is under its key. -/
theorem park_registered (s : Server) (timeoutMs userDef : ℤ) (ctx : ℕ) (key key' : Bytes) :
    (s.park timeoutMs ctx key userDef).registered key' =
      if key' = key then insert s.idGen (s.registered key) else s.registered key' := by
  show (Function.update s.keyWaiters key _ key').getD ∅ = _
  by_cases hkey : key' = key
  · rw [hkey, Function.update_self, if_pos rfl]
    rfl
  · rw [Function.update_of_ne hkey, if_neg hkey]
    rfl

/-- A GET of an absent key is parked. -/
theorem inv_park {s : System} (hinv : Inv s) {timeoutMs userDef : ℤ} {key : Bytes}
    (habsent : s.server.kvStore key = none) :
    Inv ⟨s.server.park timeoutMs s.received key userDef, s.received + 1⟩ where
  id_eq h := by
    rcases park_waitCtx h with ⟨hid, hw⟩ | ⟨hid, hw⟩
    · rw [hid, hw]
    · exact hinv.id_eq hw
  id_lt h := by
    show _ < s.server.idGen + 1
    rcases park_waitCtx h with ⟨hid, hw⟩ | ⟨hid, hw⟩
    · rw [hid]
      exact Nat.lt_succ_self _
    · exact Nat.lt_succ_of_lt (hinv.id_lt hw)
  ctx_lt h := by
    rcases park_waitCtx h with ⟨hid, hw⟩ | ⟨hid, hw⟩
    · rw [hw]
      exact Nat.lt_succ_self _
    · exact Nat.lt_succ_of_lt (hinv.ctx_lt hw)
  ctx_inj h h' hctx := by
    rcases park_waitCtx h with ⟨hid, hw⟩ | ⟨hid, hw⟩
    · rcases park_waitCtx h' with ⟨hid', hw'⟩ | ⟨hid', hw'⟩
      · rw [hid, hid']
      · rw [hw] at hctx
        exact absurd hctx.symm (Nat.ne_of_lt (hinv.ctx_lt hw'))
    · rcases park_waitCtx h' with ⟨hid', hw'⟩ | ⟨hid', hw'⟩
      · rw [hw'] at hctx
        exact absurd hctx (Nat.ne_of_lt (hinv.ctx_lt hw))
      · exact hinv.ctx_inj hw hw' hctx
  absent h := by
    rcases park_waitCtx h with ⟨hid, hw⟩ | ⟨hid, hw⟩
    · rw [hw]
      exact habsent
    · exact hinv.absent hw
  mem_registered h := by
    rw [park_registered]
    rcases park_waitCtx h with ⟨hid, hw⟩ | ⟨hid, hw⟩
    · rw [hid, hw, if_pos rfl]
      exact Finset.mem_insert_self _ _
    · split
      · rename_i hkey
        have hmem := hinv.mem_registered hw
        rw [hkey] at hmem
        exact Finset.mem_insert_of_mem hmem
      · exact hinv.mem_registered hw
  registered_lt h := by
    rw [park_registered] at h
    show _ < s.server.idGen + 1
    split at h
    · rcases Finset.mem_insert.mp h with hid | hid
      · rw [hid]
        exact Nat.lt_succ_self _
      · exact Nat.lt_succ_of_lt (hinv.registered_lt hid)
    · exact Nat.lt_succ_of_lt (hinv.registered_lt h)
  key_eq h hw := by
    rw [park_registered] at h
    rcases park_waitCtx hw with ⟨hid, hw⟩ | ⟨hid, hw⟩
    · -- the fresh id is registered under its own key only
      split at h
      · rename_i hkey
        rw [hw]
        exact hkey.symm
      · rw [hid] at h
        exact absurd (hinv.registered_lt h) (lt_irrefl _)
    · split at h
      · rename_i hkey
        rcases Finset.mem_insert.mp h with heq | hmem
        · exact absurd heq hid
        · rw [hkey]
          exact hinv.key_eq hmem hw
      · exact hinv.key_eq h hw

/-- Every effect keeps the invariant. -/
theorem Effect.inv {s s' : System} {replies : List Reply} (h : Effect s replies s')
    (hinv : Inv s) : Inv s' := by
  cases h with
  | stay hreplies hkv =>
    exact hinv.of_leave (fun _ _ h => h) (fun _ _ h => hkv _ (hinv.absent h)) (fun _ _ h => h)
      (fun _ _ h => hinv.mem_registered h) rfl (Nat.le_succ _)
  | create habsent hr => exact inv_create hinv _ _ _
  | park habsent => exact inv_park hinv habsent
  | @timeout timed order ids =>
    have hframe := Server.getOutWaiters_frame { s.server with timedWaiters := timed } (order.toList ids)
    have hregistered : ∀ key, (({ s.server with timedWaiters := timed }).getOutWaitersInLock
        order ids).2.registered key = s.server.registered key := by
      intro key
      unfold Server.registered Server.getOutWaitersInLock
      rw [hframe.2.1]
    have hleft : ∀ id w, (({ s.server with timedWaiters := timed }).getOutWaitersInLock
        order ids).2.waitCtx id = some w → s.server.waitCtx id = some w := by
      intro id w h
      unfold Server.getOutWaitersInLock at h
      rw [Server.getOutWaiters_waitCtx] at h
      split at h
      · cases h
      · exact h
    apply hinv.of_leave hleft
    · intro id w h
      show (Server.getOutWaiters _ _).2.kvStore w.key = none
      rw [hframe.1]
      exact hinv.absent (hleft id w h)
    · intro key id h
      rw [hregistered] at h
      exact h
    · intro id w h
      rw [hregistered]
      exact hinv.mem_registered (hleft id w h)
    · exact hframe.2.2
    · exact Nat.le_refl _

theorem Run.inv {s s' : System} {ts : List Transition} (h : Run s ts s') (hinv : Inv s) : Inv s' := by
  induction h with
  | nil s => exact hinv
  | cons ht rest ih => exact ih (ht.effect.inv hinv)

/-- The invariant holds at every step of a run. -/
theorem Run.inv_mem {s s' : System} {ts : List Transition} (h : Run s ts s') (hinv : Inv s)
    {t : Transition} (ht : t ∈ ts) : Inv t.before ∧ t.Valid := by
  induction h with
  | nil s => cases ht
  | cons hvalid rest ih =>
    rcases List.mem_cons.mp ht with rfl | ht
    · exact ⟨hinv, hvalid⟩
    · exact ih (hvalid.effect.inv hinv) ht

/-! ## Answers -/

/-- The request may still be answered: it has not been received, or it is a parked GET. -/
def System.Open (s : System) (ctx : ℕ) : Prop :=
  s.received ≤ ctx ∨ ∃ id w, s.server.waitCtx id = some w ∧ w.reqCtx = ctx

/-- The contexts of the waiters among `ids`. -/
def Server.contexts (s : Server) (ids : List ℕ) : List ℕ :=
  ids.filterMap fun i => (s.waitCtx i).map StoreWaitContext.reqCtx

theorem Server.mem_contexts {s : Server} {ids : List ℕ} {ctx : ℕ} :
    ctx ∈ s.contexts ids ↔ ∃ id ∈ ids, ∃ w, s.waitCtx id = some w ∧ w.reqCtx = ctx := by
  simp only [Server.contexts, List.mem_filterMap, Option.map_eq_some_iff]

/-- Different waiters are for different requests. -/
theorem Inv.nodup_contexts {s : System} (hinv : Inv s) {ids : List ℕ} (h : ids.Nodup) :
    (s.server.contexts ids).Nodup := by
  apply h.filterMap
  intro id id' ctx hid hid'
  rcases Option.map_eq_some_iff.mp hid with ⟨w, hw, hctx⟩
  rcases Option.map_eq_some_iff.mp hid' with ⟨w', hw', hctx'⟩
  exact hinv.ctx_inj hw hw' (hctx.trans hctx'.symm)

/-- What the replies of a step do to the open requests. -/
structure Answers (s : System) (replies : List Reply) (s' : System) : Prop where
  nodup : (replies.map Reply.ctx).Nodup
  opened : ∀ ctx ∈ replies.map Reply.ctx, s.Open ctx
  closed : ∀ ctx ∈ replies.map Reply.ctx, ¬ s'.Open ctx
  mono : ∀ ctx, s'.Open ctx → s.Open ctx

theorem wakeupWaiters_ctx (waiters : List ℕ) (value : Bytes) :
    (Server.wakeupWaiters waiters value).map Reply.ctx = waiters := by
  unfold Server.wakeupWaiters
  rw [List.map_map]
  exact List.map_id _

theorem timeoutReplies_ctx (waiters : List ℕ) :
    (Server.timeoutReplies waiters).map Reply.ctx = waiters := by
  unfold Server.timeoutReplies
  rw [List.map_map]
  exact List.map_id _

/-- A context that was taken out is no longer open. -/
theorem Inv.not_open_of_left {s s' : System} (hinv : Inv s) {ids : List ℕ} {ctx : ℕ}
    (hctx : ctx ∈ s.server.contexts ids) (hreceived : s.received ≤ s'.received)
    (hleft : ∀ id w, s'.server.waitCtx id = some w → s.server.waitCtx id = some w ∧ id ∉ ids) :
    ¬ s'.Open ctx := by
  rcases Server.mem_contexts.mp hctx with ⟨id, hid, w, hw, heq⟩
  intro hopen
  rcases hopen with hle | ⟨id', w', hw', heq'⟩
  · have hlt := hinv.ctx_lt hw
    omega
  · have hstay := hleft id' w' hw'
    have hsame := hinv.ctx_inj hw hstay.1 (heq.trans heq'.symm)
    rw [hsame] at hid
    exact hstay.2 hid

/-- A request that did not leave a waiter is not open. -/
theorem Inv.not_open_received {s s' : System} (hinv : Inv s) (hreceived : s'.received = s.received + 1)
    (hleft : ∀ id w, s'.server.waitCtx id = some w → s.server.waitCtx id = some w) :
    ¬ s'.Open s.received := by
  intro hopen
  rcases hopen with hle | ⟨id, w, hw, heq⟩
  · omega
  · have hlt := hinv.ctx_lt (hleft id w hw)
    omega

/-- What is open later was open before. -/
theorem open_of_left {s s' : System} (hreceived : s.received ≤ s'.received)
    (hleft : ∀ id w, s'.server.waitCtx id = some w → s.server.waitCtx id = some w) {ctx : ℕ}
    (h : s'.Open ctx) : s.Open ctx := by
  rcases h with hle | ⟨id, w, hw, heq⟩
  · exact Or.inl (Nat.le_trans hreceived hle)
  · exact Or.inr ⟨id, w, hleft id w hw, heq⟩

/-- The creation of a key answers its request and the waiters it takes out. -/
theorem answers_create {s : System} (hinv : Inv s) {order : Order} {key value woken : Bytes}
    {r : Reply} (hr : r.ctx = s.received) :
    Answers s (r :: Server.wakeupWaiters (s.server.takeWaiters order key).1 woken)
      ⟨(s.server.takeWaiters order key).2.put key value, s.received + 1⟩ := by
  rcases s.server.takeWaiters_fst order key with ⟨ids, hnodup, hids, htaken⟩
  have hctxs : (r :: Server.wakeupWaiters (s.server.takeWaiters order key).1 woken).map Reply.ctx =
      s.received :: s.server.contexts ids := by
    rw [List.map_cons, wakeupWaiters_ctx, htaken, hr]
    rfl
  have hleft : ∀ id w, (s.server.takeWaiters order key).2.waitCtx id = some w →
      s.server.waitCtx id = some w ∧ id ∉ ids := by
    intro id w h
    rw [Server.takeWaiters_waitCtx] at h
    split at h
    · cases h
    · rename_i hid
      exact ⟨h, fun hmem => hid ((hids id).mp hmem)⟩
  constructor
  · rw [hctxs]
    apply List.nodup_cons.mpr
    constructor
    · intro hmem
      rcases Server.mem_contexts.mp hmem with ⟨id, hid, w, hw, heq⟩
      exact absurd heq (Nat.ne_of_lt (hinv.ctx_lt hw))
    · exact hinv.nodup_contexts hnodup
  · rw [hctxs]
    intro ctx hctx
    rcases List.mem_cons.mp hctx with rfl | hctx
    · exact Or.inl (Nat.le_refl _)
    · rcases Server.mem_contexts.mp hctx with ⟨id, hid, w, hw, heq⟩
      exact Or.inr ⟨id, w, hw, heq⟩
  · rw [hctxs]
    intro ctx hctx
    rcases List.mem_cons.mp hctx with rfl | hctx
    · exact hinv.not_open_received rfl fun id w h => (hleft id w h).1
    · exact hinv.not_open_of_left hctx (Nat.le_succ _) hleft
  · intro ctx h
    exact open_of_left (Nat.le_succ _) (fun id w h => (hleft id w h).1) h

/-- A scan answers the waiters it takes out. -/
theorem answers_timeout {s : System} (hinv : Inv s) {timed : ℤ → Option (Finset ℕ)} {order : Order}
    {ids : Finset ℕ} :
    Answers s
      (Server.timeoutReplies
        (({ s.server with timedWaiters := timed }).getOutWaitersInLock order ids).1)
      ⟨(({ s.server with timedWaiters := timed }).getOutWaitersInLock order ids).2, s.received⟩ := by
  have hctxs : (Server.timeoutReplies (({ s.server with timedWaiters := timed }).getOutWaitersInLock
      order ids).1).map Reply.ctx = s.server.contexts (order.toList ids) := by
    rw [timeoutReplies_ctx]
    exact Server.getOutWaiters_fst _ (order.nodup ids)
  have hleft : ∀ id w, (({ s.server with timedWaiters := timed }).getOutWaitersInLock
      order ids).2.waitCtx id = some w → s.server.waitCtx id = some w ∧ id ∉ order.toList ids := by
    intro id w h
    unfold Server.getOutWaitersInLock at h
    rw [Server.getOutWaiters_waitCtx] at h
    split at h
    · cases h
    · rename_i hid
      exact ⟨h, hid⟩
  constructor
  · rw [hctxs]
    exact hinv.nodup_contexts (order.nodup ids)
  · rw [hctxs]
    intro ctx hctx
    rcases Server.mem_contexts.mp hctx with ⟨id, hid, w, hw, heq⟩
    exact Or.inr ⟨id, w, hw, heq⟩
  · rw [hctxs]
    intro ctx hctx
    exact hinv.not_open_of_left hctx (Nat.le_refl _) hleft
  · intro ctx h
    rcases h with hle | ⟨id, w, hw, heq⟩
    · exact Or.inl hle
    · exact Or.inr ⟨id, w, (hleft id w hw).1, heq⟩

/-- A request that is answered or refused takes nobody out. -/
theorem answers_stay {s s' : System} (hinv : Inv s) {replies : List Reply}
    (hreplies : replies = [] ∨ ∃ r, r.ctx = s.received ∧ replies = [r])
    (hreceived : s'.received = s.received + 1)
    (hleft : ∀ id w, s'.server.waitCtx id = some w → s.server.waitCtx id = some w) :
    Answers s replies s' := by
  have hopen : ∀ ctx, s'.Open ctx → s.Open ctx := fun ctx => open_of_left (by omega) hleft
  rcases hreplies with rfl | ⟨r, hr, rfl⟩
  · exact ⟨List.nodup_nil, fun _ h => absurd h List.not_mem_nil,
      fun _ h => absurd h List.not_mem_nil, hopen⟩
  · have hctxs : [r].map Reply.ctx = [s.received] := by
      rw [List.map_singleton, hr]
    constructor
    · rw [hctxs]
      exact List.nodup_singleton _
    · rw [hctxs]
      intro ctx hctx
      rw [List.mem_singleton.mp hctx]
      exact Or.inl (Nat.le_refl _)
    · rw [hctxs]
      intro ctx hctx
      rw [List.mem_singleton.mp hctx]
      exact hinv.not_open_received hreceived hleft
    · exact hopen

/-- One step answers only requests that are open, and closes them. -/
theorem Effect.answers {s s' : System} {replies : List Reply} (h : Effect s replies s')
    (hinv : Inv s) : Answers s replies s' := by
  cases h with
  | stay hreplies hkv => exact answers_stay hinv hreplies rfl fun _ _ h => h
  | create habsent hr => exact answers_create hinv hr
  | @park timeoutMs key userDef habsent =>
    have hopen : ∀ ctx,
        System.Open ⟨s.server.park timeoutMs s.received key userDef, s.received + 1⟩ ctx →
          s.Open ctx := by
      intro ctx hopen
      rcases hopen with hle | ⟨id, w, hw, heq⟩
      · exact Or.inl (Nat.le_of_succ_le hle)
      · rcases park_waitCtx hw with ⟨hid, hw'⟩ | ⟨hid, hw'⟩
        · rw [hw'] at heq
          exact Or.inl (Nat.le_of_eq heq)
        · exact Or.inr ⟨id, w, hw', heq⟩
    exact ⟨List.nodup_nil, fun _ h => absurd h List.not_mem_nil,
      fun _ h => absurd h List.not_mem_nil, hopen⟩
  | timeout => exact answers_timeout hinv

/-- The contexts of all replies of a run. -/
def answered (ts : List Transition) : List ℕ := ts.flatMap fun t => t.replies.map Reply.ctx

/-- No request is answered twice, and only open ones are. -/
theorem Run.answered_nodup {s s' : System} {ts : List Transition} (h : Run s ts s') (hinv : Inv s) :
    (answered ts).Nodup ∧ ∀ ctx ∈ answered ts, s.Open ctx := by
  induction h with
  | nil s => exact ⟨List.nodup_nil, fun _ h => absurd h List.not_mem_nil⟩
  | @cons t ts s' ht rest ih =>
    have hanswers := ht.effect.answers hinv
    have hrest := ih (ht.effect.inv hinv)
    constructor
    · show (t.replies.map Reply.ctx ++ answered ts).Nodup
      apply hanswers.nodup.append hrest.1
      intro ctx hnow hlater
      exact hanswers.closed ctx hnow (hrest.2 ctx hlater)
    · intro ctx hctx
      rcases List.mem_append.mp (show ctx ∈ t.replies.map Reply.ctx ++ answered ts from hctx) with
        hnow | hlater
      · exact hanswers.opened ctx hnow
      · exact hanswers.mono ctx (hrest.2 ctx hlater)

/-! ## Wakeups -/

/-- A step that stores a key that was absent. -/
def Transition.Creates (t : Transition) (key : Bytes) : Prop :=
  t.before.server.kvStore key = none ∧ t.after.server.kvStore key ≠ none

/-- The step takes the waiter with this id out of `waitCtx_`. -/
def Transition.TakesOut (t : Transition) (id : ℕ) : Prop :=
  t.before.server.waitCtx id ≠ none ∧ t.after.server.waitCtx id = none

/-- The request with this context is a GET that waits on the key. -/
def System.Waits (s : System) (ctx : ℕ) (key : Bytes) : Prop :=
  ∃ id w, s.server.waitCtx id = some w ∧ w.reqCtx = ctx ∧ w.key = key

/-- Who creates a key is the creating effect on that key. -/
theorem Effect.of_creates {s s' : System} {replies : List Reply} (h : Effect s replies s')
    {key : Bytes} (hbefore : s.server.kvStore key = none) (hafter : s'.server.kvStore key ≠ none) :
    ∃ (order : Order) (value woken : Bytes) (r : Reply), r.ctx = s.received ∧
      replies = r :: Server.wakeupWaiters (s.server.takeWaiters order key).1 woken ∧
      s' = ⟨(s.server.takeWaiters order key).2.put key value, s.received + 1⟩ := by
  cases h with
  | stay hreplies hkv => exact absurd (hkv key hbefore) hafter
  | @create order key' value woken r habsent hr =>
    by_cases hkey : key = key'
    · rw [hkey]
      exact ⟨order, value, woken, r, hr, rfl, rfl⟩
    · have hsame : Function.update (s.server.takeWaiters order key').2.kvStore key' (some value) key =
          none := by
        rw [Function.update_of_ne hkey, (s.server.takeWaiters_frame order key').1, hbefore]
      exact absurd hsame hafter
  | park habsent => exact absurd hbefore hafter
  | @timeout timed order ids =>
    have hsame : (({ s.server with timedWaiters := timed }).getOutWaiters
        (order.toList ids)).2.kvStore key = none := by
      rw [(Server.getOutWaiters_frame _ _).1]
      exact hbefore
    exact absurd hsame hafter

/-- A registered waiter is under its key only. -/
theorem Inv.mem_registered_iff {s : System} (hinv : Inv s) {key : Bytes} {id : ℕ}
    {w : StoreWaitContext} (hw : s.server.waitCtx id = some w) :
    id ∈ s.server.registered key ↔ w.key = key := by
  constructor
  · intro hmem
    exact hinv.key_eq hmem hw
  · intro hkey
    rw [← hkey]
    exact hinv.mem_registered hw

/-- The creator of a key takes out the waiters of that key and no others. -/
theorem takesOut_iff {t : Transition} (ht : t.Valid) (hinv : Inv t.before) {key : Bytes}
    (hcreates : t.Creates key) (id : ℕ) :
    t.TakesOut id ↔ ∃ w, t.before.server.waitCtx id = some w ∧ w.key = key := by
  rcases ht.effect.of_creates hcreates.1 hcreates.2 with ⟨order, value, woken, r, hr, hreplies, hafter⟩
  have hwait : t.after.server.waitCtx id =
      if id ∈ t.before.server.registered key then none else t.before.server.waitCtx id := by
    rw [hafter]
    exact Server.takeWaiters_waitCtx _ _ _ _
  constructor
  · intro hout
    rcases Option.ne_none_iff_exists'.mp hout.1 with ⟨w, hw⟩
    have hgone := hout.2
    rw [hwait] at hgone
    split at hgone
    · rename_i hmem
      exact ⟨w, hw, hinv.key_eq hmem hw⟩
    · exact absurd hgone hout.1
  · intro hwaits
    rcases hwaits with ⟨w, hw, hkey⟩
    constructor
    · rw [hw]
      exact Option.some_ne_none w
    · rw [hwait, if_pos ((hinv.mem_registered_iff hw).mpr hkey)]

/-- The contexts that `takeWaiters` returns are those of the GETs that wait on the key. -/
theorem Inv.mem_takeWaiters {s : System} (hinv : Inv s) (order : Order) {key : Bytes} {ctx : ℕ} :
    ctx ∈ (s.server.takeWaiters order key).1 ↔ s.Waits ctx key := by
  rcases s.server.takeWaiters_fst order key with ⟨ids, hnodup, hids, htaken⟩
  rw [htaken]
  show ctx ∈ s.server.contexts ids ↔ _
  rw [Server.mem_contexts]
  constructor
  · intro h
    rcases h with ⟨id, hid, w, hw, heq⟩
    exact ⟨id, w, hw, heq, (hinv.mem_registered_iff hw).mp ((hids id).mp hid)⟩
  · intro h
    rcases h with ⟨id, w, hw, heq, hkey⟩
    exact ⟨id, (hids id).mpr ((hinv.mem_registered_iff hw).mpr hkey), w, hw, heq⟩

/-- It answers them, and nobody else but its own request. -/
theorem mem_answered_iff {t : Transition} (ht : t.Valid) (hinv : Inv t.before) {key : Bytes}
    (hcreates : t.Creates key) (ctx : ℕ) :
    ctx ∈ t.replies.map Reply.ctx ↔ ctx = t.before.received ∨ t.before.Waits ctx key := by
  rcases ht.effect.of_creates hcreates.1 hcreates.2 with ⟨order, value, woken, r, hr, hreplies, hafter⟩
  rw [hreplies, List.map_cons, wakeupWaiters_ctx, hr, List.mem_cons, hinv.mem_takeWaiters order]

/-- No wakeup is lost and none happens twice: a waiting GET is registered under its absent key, who
creates a key takes out and answers exactly the GETs that wait on it, and no request is answered
twice. -/
theorem no_lost_or_double_wakeup {s : System} {ts : List Transition} (h : Run System.init ts s) :
    (∀ id w, s.server.waitCtx id = some w → s.server.kvStore w.key = none ∧
      ∃ ids, s.server.keyWaiters w.key = some ids ∧ id ∈ ids) ∧
    (∀ t ∈ ts, ∀ key, t.Creates key →
      (∀ id, t.TakesOut id ↔ ∃ w, t.before.server.waitCtx id = some w ∧ w.key = key) ∧
      ∀ ctx, ctx ∈ t.replies.map Reply.ctx ↔ ctx = t.before.received ∨ t.before.Waits ctx key) ∧
    (answered ts).Nodup := by
  have hinv := h.inv inv_init
  constructor
  · intro id w hw
    apply And.intro (hinv.absent hw)
    have hmem := hinv.mem_registered hw
    unfold Server.registered at hmem
    cases hids : s.server.keyWaiters w.key with
    | none =>
      rw [hids] at hmem
      exact absurd hmem (Finset.notMem_empty _)
    | some ids =>
      rw [hids] at hmem
      exact ⟨ids, rfl, hmem⟩
  constructor
  · intro t ht key hcreates
    have hbefore := h.inv_mem inv_init ht
    exact ⟨takesOut_iff hbefore.2 hbefore.1 hcreates, mem_answered_iff hbefore.2 hbefore.1 hcreates⟩
  · exact (h.answered_nodup inv_init).1

/-! ## A GET that a SET wakes -/

/-- The loop visits the ids from the smallest. -/
def sortedOrder : Order where
  toList ids := ids.sort (· ≤ ·)
  nodup ids := Finset.sort_nodup ids (· ≤ ·)
  mem_toList _ _ := Finset.mem_sort (· ≤ ·)

/-- The key `k`. -/
def sampleKey : Bytes := [107]

/-- A GET without a timeout parks. -/
def sampleGet : Transition where
  before := System.init
  event := .request sortedOrder 0 ⟨.get, -1, [sampleKey], []⟩
  replies := []
  after := ⟨Server.init.park (-1) 0 sampleKey (-1), 1⟩

/-- A SET creates its key. -/
def sampleSet : Transition where
  before := sampleGet.after
  event := .request sortedOrder 5 ⟨.set, -1, [sampleKey], [[1]]⟩
  replies := (sampleGet.after.server.setHandler sortedOrder 1 ⟨.set, -1, [sampleKey], [[1]]⟩).replies
  after :=
    ⟨(sampleGet.after.server.setHandler sortedOrder 1 ⟨.set, -1, [sampleKey], [[1]]⟩).server, 2⟩

theorem sampleGet_valid : sampleGet.Valid := by
  have hout : Server.init.receiveMessage sortedOrder 0 0 ⟨.get, -1, [sampleKey], []⟩ =
      some ⟨aclshmemSuccess, [], Server.init.park (-1) 0 sampleKey (-1)⟩ := by
    rfl
  exact Step.request (s := System.init) hout

theorem sampleSet_valid : sampleSet.Valid := by
  apply Step.request (s := sampleGet.after)
  rfl

theorem sample_run : Run System.init [sampleGet, sampleSet] sampleSet.after :=
  Run.cons sampleGet_valid (Run.cons sampleSet_valid (Run.nil _))

/-- The SET answers itself and the GET, each once. -/
theorem no_lost_or_double_wakeup_sample :
    (∀ ctx, ctx ∈ sampleSet.replies.map Reply.ctx ↔ ctx = 1 ∨ sampleSet.before.Waits ctx sampleKey) ∧
      (answered [sampleGet, sampleSet]).Nodup := by
  have h := no_lost_or_double_wakeup sample_run
  have hcreates : sampleSet.Creates sampleKey := by
    constructor
    · rfl
    · intro habsent
      cases habsent
  exact ⟨(h.2.1 sampleSet (by simp) sampleKey hcreates).2, h.2.2⟩

end AscendShmem.ConfigStore
