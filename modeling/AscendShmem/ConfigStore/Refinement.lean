import AscendShmem.ConfigStore.Waiters

/-!
# The config store as an atomic map

The sequential specification: a map whose values are byte strings or numbers, and the GETs that
wait for a key. Run in the order of the critical sections it gives the successful replies of the
server, up to the APPENDs that create a key under a waiting GET.
-/

namespace AscendShmem.ConfigStore

/-! ## The specification -/

/-- A value: bytes, or the sum of the increments of a key that ADD created. -/
inductive Value
  | bytes (b : Bytes)
  | number (n : ℤ)

/-- The text of a value in the store. -/
def Value.text : Value → Bytes
  | .bytes b => b
  | .number n => toDecimal n

/-- What ADD adds to. -/
def Value.toNumber : Value → Option ℤ
  | .bytes b => strToLong b
  | .number n => some n

/-- An operation on the abstract store. -/
inductive Op
  | set (key value : Bytes)
  | get (key : Bytes) (wait : Bool)
  | add (key : Bytes) (n : ℤ)
  | remove (key : Bytes)
  | append (key value : Bytes)
  | cas (key expected exchange : Bytes)

/-- The operation on a key that is not too long. -/
def Op.keyed (key : Bytes) (op : Op) : Option Op :=
  if maxKeyLenServer < key.length then none else some op

/-- The operation that a well-formed message asks for. -/
def Op.ofMessage (m : SmemMessage) : Option Op :=
  match m.mt with
  | .set =>
    match m.keys, m.values with
    | [key], [value] => keyed key (.set key value)
    | _, _ => none
  | .get =>
    match m.keys, m.values with
    | [key], [] => keyed key (.get key (m.userDef ≠ 0 ∧ m.userDef ≤ 2 ^ 31 - 1))
    | _, _ => none
  | .add =>
    match m.keys, m.values with
    | [key], [value] =>
      match strToLong value with
      | none => none
      | some n => if value = toDecimal n then keyed key (.add key n) else none
    | _, _ => none
  | .remove =>
    match m.keys, m.values with
    | [key], [] => keyed key (.remove key)
    | _, _ => none
  | .append =>
    match m.keys, m.values with
    | [key], [value] => keyed key (.append key value)
    | _, _ => none
  | .cas =>
    match m.keys, m.values with
    | [key], [expected, exchange] => keyed key (.cas key expected exchange)
    | _, _ => none
  | .invalidMsg => none

/-- The map and the key that each parked GET waits for. -/
structure Spec where
  map : Bytes → Option Value
  pending : ℕ → Option Bytes

/-- An empty map and nobody waiting. -/
def Spec.init : Spec := ⟨fun _ => none, fun _ => none⟩

/-- The successful replies of a step. -/
abbrev Replies := ℕ → Option Body

/-- Nobody is answered. -/
def noReply : Replies := fun _ => none

/-- One request is answered. -/
def answer (ctx : ℕ) (body : Body) : Replies := fun c => if c = ctx then some body else none

namespace Spec

/-- A key gets a value. -/
def put (s : Spec) (key : Bytes) (value : Value) : Spec :=
  { s with map := Function.update s.map key (some value) }

/-- A new key answers every GET that waits for it with its value. -/
def create (s : Spec) (ctx : ℕ) (key : Bytes) (value : Value) (body : Body) : Spec × Replies :=
  ({ map := Function.update s.map key (some value)
     pending := fun c => if s.pending c = some key then none else s.pending c },
    fun c =>
      if c = ctx then some body
      else if s.pending c = some key then some (.packed (.response .get value.text))
      else none)

/-- What the abstract store does and replies. -/
def step (s : Spec) (ctx : ℕ) : Op → Spec × Replies
  | .set key value =>
    match s.map key with
    | none => s.create ctx key (.bytes value) (.text "success")
    | some _ => (s.put key (.bytes value), answer ctx (.text "success"))
  | .get key wait =>
    match s.map key with
    | some value => (s, answer ctx (.packed (.response .get value.text)))
    | none =>
      if wait then ({ s with pending := Function.update s.pending ctx (some key) }, noReply)
      else (s, noReply)
  | .add key n =>
    match s.map key with
    | none => s.create ctx key (.number n) (.number (toDecimal n))
    | some value =>
      match value.toNumber with
      | none => (s, noReply)
      | some m => (s.put key (.number (m + n)), answer ctx (.number (toDecimal (m + n))))
  | .remove key =>
    match s.map key with
    | none => (s, noReply)
    | some _ => ({ s with map := Function.update s.map key none }, answer ctx (.text "success"))
  | .append key value =>
    match s.map key with
    | none => s.create ctx key (.bytes value) (.number (toDecimal value.length))
    | some old =>
      (s.put key (.bytes (old.text ++ value)),
        answer ctx (.number (toDecimal (old.text ++ value).length)))
  | .cas key expected exchange =>
    match s.map key with
    | none =>
      if expected = [] then
        s.create ctx key (.bytes exchange) (.packed (.response .cas []))
      else (s, answer ctx (.packed (.response .cas [])))
    | some value =>
      if expected = value.text then
        (s.put key (.bytes exchange), answer ctx (.packed (.response .cas value.text)))
      else (s, answer ctx (.packed (.response .cas value.text)))

/-- A malformed message does nothing. -/
def request (s : Spec) (ctx : ℕ) (m : SmemMessage) : Spec × Replies :=
  match Op.ofMessage m with
  | none => (s, noReply)
  | some op => s.step ctx op

/-- These GETs no longer wait. -/
def expire (s : Spec) (ctxs : List ℕ) : Spec :=
  { s with pending := fun c => if c ∈ ctxs then none else s.pending c }

/-- The step of the specification at a transition; which GETs expire is up to the timer. -/
def next (s : Spec) (t : Transition) : Spec × Replies :=
  match t.event with
  | .request _ _ m => s.request t.before.received m
  | .timer _ _ => (s.expire (t.replies.map Reply.ctx), noReply)

end Spec

/-- The successful replies are those of the specification. -/
def Matches (replies : List Reply) (answers : Replies) : Prop :=
  ∀ ctx body, ⟨ctx, StoreErrorCode.success, body⟩ ∈ replies ↔ answers ctx = some body

/-- Every transition of a run has the replies of the specification, run along with it. -/
def MatchesAll : Spec → List Transition → Prop
  | _, [] => True
  | s, t :: ts => Matches t.replies (s.next t).2 ∧ MatchesAll (s.next t).1 ts

/-! ## The relation -/

/-- The server stores the texts of the map, and the same GETs wait. -/
structure Refines (s : System) (spec : Spec) : Prop where
  kvStore : ∀ key, s.server.kvStore key = (spec.map key).map Value.text
  range : ∀ {key n}, spec.map key = some (.number n) → -2 ^ 63 ≤ n ∧ n < 2 ^ 63
  pending : ∀ {ctx key}, spec.pending ctx = some key ↔ s.Waits ctx key

/-- A fresh server is an empty store. -/
theorem refines_init : Refines System.init Spec.init where
  kvStore key := rfl
  range h := by cases h
  pending := by
    intro ctx key
    constructor
    · intro h
      cases h
    · intro h
      rcases h with ⟨id, w, hw, _⟩
      cases hw

/-- Error replies answer nobody. -/
theorem matches_noReply {replies : List Reply}
    (h : ∀ r ∈ replies, r.code ≠ StoreErrorCode.success) : Matches replies noReply := by
  intro ctx body
  constructor
  · intro hmem
    exact absurd rfl (h _ hmem)
  · intro hnone
    cases hnone

theorem matches_nil : Matches [] noReply := matches_noReply fun _ h => absurd h List.not_mem_nil

/-- An error reply answers nobody. -/
theorem matches_reject {ctx : ℕ} {code : Result} {body : Body} (h : code ≠ StoreErrorCode.success) :
    Matches [⟨ctx, code, body⟩] noReply := by
  apply matches_noReply
  intro r hr
  rw [List.mem_singleton.mp hr]
  exact h

/-- A reply of success answers its request. -/
theorem matches_answer (ctx : ℕ) (body : Body) :
    Matches [⟨ctx, StoreErrorCode.success, body⟩] (answer ctx body) := by
  intro c b
  rw [List.mem_singleton, answer, Reply.mk.injEq]
  constructor
  · intro h
    rw [if_pos h.1, h.2.2]
  · intro h
    split at h
    · rename_i hc
      exact ⟨hc, rfl, (Option.some.inj h).symm⟩
    · cases h

namespace Refines

variable {s : System} {spec : Spec}

/-- A request that changes nothing. -/
theorem received (h : Refines s spec) : Refines ⟨s.server, s.received + 1⟩ spec :=
  ⟨h.kvStore, h.range, h.pending⟩

theorem map_none (h : Refines s spec) {key : Bytes} (hkv : s.server.kvStore key = none) :
    spec.map key = none := by
  rw [h.kvStore, Option.map_eq_none_iff] at hkv
  exact hkv

theorem map_some (h : Refines s spec) {key text : Bytes} (hkv : s.server.kvStore key = some text) :
    ∃ value, spec.map key = some value ∧ value.text = text := by
  rw [h.kvStore, Option.map_eq_some_iff] at hkv
  exact hkv

/-- What the server reads from a stored text is the number that the map keeps. -/
theorem toNumber (h : Refines s spec) {key : Bytes} {value : Value}
    (hvalue : spec.map key = some value) : strToLong value.text = value.toNumber := by
  cases value with
  | bytes b => rfl
  | number n =>
    have hrange := h.range hvalue
    exact strToLong_toDecimal hrange.1 hrange.2

/-- Storing a text refines storing a value with that text. -/
theorem kvStore_update (h : Refines s spec) (key : Bytes) (value : Option Value) (key' : Bytes) :
    Function.update s.server.kvStore key (value.map Value.text) key' =
      (Function.update spec.map key value key').map Value.text := by
  by_cases hkey : key' = key
  · rw [hkey, Function.update_self, Function.update_self]
  · rw [Function.update_of_ne hkey, Function.update_of_ne hkey, h.kvStore]

/-- Numbers of the map stay within `long`. -/
theorem range_update (h : Refines s spec) {key : Bytes} {value : Option Value}
    (hvalue : ∀ n, value = some (.number n) → -2 ^ 63 ≤ n ∧ n < 2 ^ 63) {key' : Bytes} {n : ℤ}
    (hn : Function.update spec.map key value key' = some (.number n)) : -2 ^ 63 ≤ n ∧ n < 2 ^ 63 := by
  by_cases hkey : key' = key
  · rw [hkey, Function.update_self] at hn
    exact hvalue n hn
  · rw [Function.update_of_ne hkey] at hn
    exact h.range hn

/-- A value stored on both sides. -/
theorem put (h : Refines s spec) (key : Bytes) (value : Value)
    (hvalue : ∀ n, value = .number n → -2 ^ 63 ≤ n ∧ n < 2 ^ 63) :
    Refines ⟨s.server.put key value.text, s.received + 1⟩ (spec.put key value) :=
  ⟨h.kvStore_update key (some value),
    fun hn => h.range_update (fun n heq => hvalue n (Option.some.inj heq)) hn, h.pending⟩

theorem erase (h : Refines s spec) (key : Bytes) :
    Refines ⟨{ s.server with kvStore := Function.update s.server.kvStore key none }, s.received + 1⟩
      { spec with map := Function.update spec.map key none } :=
  ⟨h.kvStore_update key none, fun hn => h.range_update (fun n heq => by cases heq) hn, h.pending⟩

/-- After a creation the GETs that waited on the key wait no longer, the others still do. -/
theorem waits_create (hinv : Inv s) (order : Order) (key value : Bytes) (n ctx : ℕ) (key' : Bytes) :
    System.Waits ⟨(s.server.takeWaiters order key).2.put key value, n⟩ ctx key' ↔
      s.Waits ctx key' ∧ key' ≠ key := by
  constructor
  · intro hwaits
    rcases hwaits with ⟨id, w, hw, hctx, hkey⟩
    have hw' : (s.server.takeWaiters order key).2.waitCtx id = some w := hw
    rw [Server.takeWaiters_waitCtx] at hw'
    split at hw'
    · cases hw'
    · rename_i hid
      have hne := hinv.key_ne hw' hid
      rw [hkey] at hne
      exact ⟨⟨id, w, hw', hctx, hkey⟩, hne⟩
  · intro h
    rcases h.1 with ⟨id, w, hw, hctx, hkey⟩
    have hid : id ∉ s.server.registered key := by
      intro hmem
      exact h.2 (hkey.symm.trans (hinv.key_eq hmem hw))
    have hw' : (s.server.takeWaiters order key).2.waitCtx id = some w := by
      rw [Server.takeWaiters_waitCtx, if_neg hid, hw]
    exact ⟨id, w, hw', hctx, hkey⟩

/-- A new key wakes those who wait for it, on both sides. -/
theorem create (h : Refines s spec) (hinv : Inv s) (order : Order) (key : Bytes) (value : Value)
    (body : Body) (hvalue : ∀ n, value = .number n → -2 ^ 63 ≤ n ∧ n < 2 ^ 63) :
    Refines ⟨(s.server.takeWaiters order key).2.put key value.text, s.received + 1⟩
      (spec.create s.received key value body).1 where
  kvStore key' := by
    show Function.update (s.server.takeWaiters order key).2.kvStore key (some value.text) key' = _
    rw [(s.server.takeWaiters_frame order key).1]
    exact h.kvStore_update key (some value) key'
  range hn := h.range_update (fun n heq => hvalue n (Option.some.inj heq)) hn
  pending := by
    intro ctx key'
    rw [waits_create hinv, ← h.pending]
    show (if spec.pending ctx = some key then none else spec.pending ctx) = some key' ↔ _
    constructor
    · intro hpending
      split at hpending
      · cases hpending
      · rename_i hne
        apply And.intro hpending
        intro heq
        rw [heq] at hpending
        exact hne hpending
    · intro hpending
      rw [if_neg, hpending.1]
      rw [hpending.1]
      intro heq
      exact hpending.2 (Option.some.inj heq)

/-- The creator's own reply is right; the waiters get the value if that is what they are woken
with. -/
theorem matches_create (h : Refines s spec) (hinv : Inv s) (order : Order) (key woken : Bytes)
    (value : Value) (body : Body) :
    Matches
      (⟨s.received, StoreErrorCode.success, body⟩ ::
        Server.wakeupWaiters (s.server.takeWaiters order key).1 woken)
      (spec.create s.received key value body).2 ↔
      woken = value.text ∨ ¬ ∃ ctx, s.Waits ctx key := by
  have hmem : ∀ ctx b, (⟨ctx, StoreErrorCode.success, b⟩ : Reply) ∈
      ⟨s.received, StoreErrorCode.success, body⟩ ::
        Server.wakeupWaiters (s.server.takeWaiters order key).1 woken ↔
      (ctx = s.received ∧ b = body) ∨
        (s.Waits ctx key ∧ b = .packed (.response .get woken)) := by
    intro ctx b
    rw [List.mem_cons, Reply.mk.injEq, Server.wakeupWaiters, List.mem_map]
    apply or_congr
    · exact and_congr_right fun _ => and_iff_right rfl
    · rw [← hinv.mem_takeWaiters order]
      constructor
      · intro hwaiter
        rcases hwaiter with ⟨c, hc, heq⟩
        rw [Reply.mk.injEq] at heq
        rw [← heq.1]
        exact ⟨hc, heq.2.2.symm⟩
      · intro hwaiter
        exact ⟨ctx, hwaiter.1, by rw [hwaiter.2]⟩
  -- a parked GET is an earlier request
  have hne : ∀ {ctx}, s.Waits ctx key → ctx ≠ s.received := by
    intro ctx hwaits
    rcases hwaits with ⟨id, w, hw, hctx, hkey⟩
    rw [← hctx]
    exact Nat.ne_of_lt (hinv.ctx_lt hw)
  have hanswer : ∀ {ctx}, s.Waits ctx key → (spec.create s.received key value body).2 ctx =
      some (.packed (.response .get value.text)) := by
    intro ctx hwaits
    show (if ctx = s.received then _ else if spec.pending ctx = some key then _ else _) = _
    rw [if_neg (hne hwaits), if_pos (h.pending.mpr hwaits)]
  constructor
  · intro hmatches
    by_cases hwaits : ∃ ctx, s.Waits ctx key
    · rcases hwaits with ⟨ctx, hwaits⟩
      have hsent := (hmatches ctx _).mp ((hmem ctx _).mpr (Or.inr ⟨hwaits, rfl⟩))
      rw [hanswer hwaits] at hsent
      injection hsent with hsent
      injection hsent with hsent
      injection hsent with _ _ _ hvalues
      injection hvalues with hvalue
      exact Or.inl hvalue.symm
    · exact Or.inr hwaits
  · intro hwoken ctx b
    rw [hmem]
    by_cases hown : ctx = s.received
    · have hreply : (spec.create s.received key value body).2 ctx = some body := by
        show (if ctx = s.received then _ else _) = _
        rw [if_pos hown]
      rw [hreply, Option.some.injEq]
      constructor
      · intro hb
        rcases hb with hb | hb
        · exact hb.2.symm
        · exact absurd hown (hne hb.1)
      · intro hb
        exact Or.inl ⟨hown, hb.symm⟩
    · by_cases hwaits : s.Waits ctx key
      · rw [hanswer hwaits, Option.some.injEq]
        have hsame : woken = value.text := by
          rcases hwoken with heq | hnone
          · exact heq
          · exact absurd ⟨ctx, hwaits⟩ hnone
        rw [hsame]
        constructor
        · intro hb
          rcases hb with hb | hb
          · exact absurd hb.1 hown
          · exact hb.2.symm
        · intro hb
          exact Or.inr ⟨hwaits, hb.symm⟩
      · have hreply : (spec.create s.received key value body).2 ctx = none := by
          show (if ctx = s.received then _ else if spec.pending ctx = some key then _ else _) = _
          rw [if_neg hown, if_neg (fun hpending => hwaits (h.pending.mp hpending))]
        rw [hreply]
        constructor
        · intro hb
          rcases hb with hb | hb
          · exact absurd hb.1 hown
          · exact absurd hb.1 hwaits
        · intro hb
          cases hb

/-- The parked GET waits, and the others as before. -/
theorem park (h : Refines s spec) (hinv : Inv s) {timeoutMs userDef : ℤ} {key : Bytes} :
    Refines ⟨s.server.park timeoutMs s.received key userDef, s.received + 1⟩
      { spec with pending := Function.update spec.pending s.received (some key) } where
  kvStore := h.kvStore
  range := h.range
  pending := by
    intro ctx key'
    have hwaits :
        System.Waits ⟨s.server.park timeoutMs s.received key userDef, s.received + 1⟩ ctx key' ↔
          (ctx = s.received ∧ key' = key) ∨ s.Waits ctx key' := by
      constructor
      · intro hwaits
        rcases hwaits with ⟨id, w, hw, hctx, hkey⟩
        rcases park_waitCtx hw with ⟨hid, hw'⟩ | ⟨hid, hw'⟩
        · rw [hw'] at hctx hkey
          exact Or.inl ⟨hctx.symm, hkey.symm⟩
        · exact Or.inr ⟨id, w, hw', hctx, hkey⟩
      · intro hwaits
        rcases hwaits with ⟨hctx, hkey⟩ | ⟨id, w, hw, hctx, hkey⟩
        · exact ⟨s.server.idGen, ⟨s.server.idGen, timeoutMs, key, s.received⟩,
            Function.update_self _ _ _, hctx.symm, hkey.symm⟩
        · have hid : id ≠ s.server.idGen := Nat.ne_of_lt (hinv.id_lt hw)
          have hw' : (s.server.park timeoutMs s.received key userDef).waitCtx id = some w :=
            (Function.update_of_ne hid _ _).trans hw
          exact ⟨id, w, hw', hctx, hkey⟩
    rw [hwaits]
    show Function.update spec.pending s.received (some key) ctx = some key' ↔ _
    by_cases hctx : ctx = s.received
    · rw [hctx, Function.update_self, Option.some.injEq]
      constructor
      · intro heq
        exact Or.inl ⟨rfl, heq.symm⟩
      · intro hor
        rcases hor with hor | ⟨id, w, hw, hctx', _⟩
        · exact hor.2.symm
        · exact absurd hctx' (Nat.ne_of_lt (hinv.ctx_lt hw))
    · rw [Function.update_of_ne hctx, h.pending]
      constructor
      · intro hold
        exact Or.inr hold
      · intro hor
        rcases hor with hor | hold
        · exact absurd hor.1 hctx
        · exact hold

/-- Waiters that time out leave both sides. -/
theorem timeout (h : Refines s spec) (hinv : Inv s) {timed : ℤ → Option (Finset ℕ)} {order : Order}
    {ids : Finset ℕ} :
    Refines ⟨(({ s.server with timedWaiters := timed }).getOutWaitersInLock order ids).2, s.received⟩
      (spec.expire ((Server.timeoutReplies
        (({ s.server with timedWaiters := timed }).getOutWaitersInLock order ids).1).map Reply.ctx))
    where
  kvStore key := by
    show (Server.getOutWaiters _ _).2.kvStore key = _
    rw [(Server.getOutWaiters_frame _ _).1]
    exact h.kvStore key
  range := h.range
  pending := by
    intro ctx key
    have htaken : (({ s.server with timedWaiters := timed }).getOutWaitersInLock order ids).1 =
        s.server.contexts (order.toList ids) := Server.getOutWaiters_fst _ (order.nodup ids)
    rw [timeoutReplies_ctx, htaken]
    show (if ctx ∈ s.server.contexts (order.toList ids) then none else spec.pending ctx) = some key ↔ _
    have hleft : ∀ id, (({ s.server with timedWaiters := timed }).getOutWaitersInLock
        order ids).2.waitCtx id = if id ∈ order.toList ids then none else s.server.waitCtx id :=
      fun id => Server.getOutWaiters_waitCtx _ _ id
    -- a context is pending still if its waiter did not time out; no other waiter has this context
    constructor
    · intro hpending
      split at hpending
      · cases hpending
      · rename_i hctx
        rcases h.pending.mp hpending with ⟨id, w, hw, hwctx, hkey⟩
        have hid : id ∉ order.toList ids :=
          fun hmem => hctx (Server.mem_contexts.mpr ⟨id, hmem, w, hw, hwctx⟩)
        have hw' := hleft id
        rw [if_neg hid, hw] at hw'
        exact ⟨id, w, hw', hwctx, hkey⟩
    · intro hwaits
      rcases hwaits with ⟨id, w, hw, hwctx, hkey⟩
      have hw' := (hleft id).symm.trans hw
      split at hw'
      · cases hw'
      · rename_i hid
        have hctx : ctx ∉ s.server.contexts (order.toList ids) := by
          intro hmem
          rcases Server.mem_contexts.mp hmem with ⟨id', hid', w', hw'', heq⟩
          have hsame := hinv.ctx_inj hw'' hw' (heq.trans hwctx.symm)
          rw [hsame] at hid'
          exact hid hid'
        rw [if_neg hctx]
        exact h.pending.mpr ⟨id, w, hw', hwctx, hkey⟩

end Refines

/-! ## The handlers -/

/-- The outcome of a handler is that of the specification. -/
def Simulates (s : System) (out : Outcome) (next : Spec × Replies) : Prop :=
  Refines ⟨out.server, s.received + 1⟩ next.1 ∧ Matches out.replies next.2

section

variable {s : System} {spec : Spec} {m : SmemMessage} (h : Refines s spec) (hinv : Inv s)

theorem request_eq {op : Op} (hop : Op.ofMessage m = some op) :
    spec.request s.received m = spec.step s.received op := by
  unfold Spec.request
  rw [hop]

include h

/-- A request that is turned down. -/
theorem simulates_reject (result : Result) {replies : List Reply}
    (hreplies : Matches replies noReply) (hop : Op.ofMessage m = none) :
    Simulates s ⟨result, replies, s.server⟩ (spec.request s.received m) := by
  unfold Spec.request
  rw [hop]
  exact ⟨h.received, hreplies⟩

include hinv

/-- SET does what the abstract store does. -/
theorem set_simulates (order : Order) (hmt : m.mt = .set) :
    Simulates s (s.server.setHandler order s.received m) (spec.request s.received m) := by
  unfold Server.setHandler
  split
  · rename_i key value hkeys hvalues
    have hop : Op.ofMessage m = Op.keyed key (.set key value) := by
      unfold Op.ofMessage
      simp only [hmt, hkeys, hvalues]
    split
    · rename_i hlen
      rw [Op.keyed, if_pos hlen] at hop
      exact simulates_reject h _ matches_nil hop
    · rename_i hlen
      rw [Op.keyed, if_neg hlen] at hop
      rw [request_eq hop]
      dsimp only [Spec.step]
      split
      · rename_i habsent
        rw [h.map_none habsent]
        exact ⟨h.create hinv order key (.bytes value) _ (fun n heq => by cases heq),
          (h.matches_create hinv order key value (.bytes value) _).mpr (Or.inl rfl)⟩
      · rename_i old hold
        rcases h.map_some hold with ⟨v, hv, htext⟩
        rw [hv]
        exact ⟨h.put key (.bytes value) (fun n heq => by cases heq), matches_answer _ _⟩
  · rename_i hshape
    have hop : Op.ofMessage m = none := by
      unfold Op.ofMessage
      simp only [hmt]
    exact simulates_reject h _ (matches_reject (by decide)) hop

/-- GET does what the abstract store does, parking included. -/
theorem get_simulates {now : ℤ} {out : Outcome} (hmt : m.mt = .get)
    (hout : s.server.getHandler now s.received m = some out) :
    Simulates s out (spec.request s.received m) := by
  unfold Server.getHandler at hout
  split at hout
  · rename_i key hkeys hvalues
    have hop : Op.ofMessage m =
        Op.keyed key (.get key (m.userDef ≠ 0 ∧ m.userDef ≤ 2 ^ 31 - 1)) := by
      unfold Op.ofMessage
      simp only [hmt, hkeys, hvalues]
    split at hout
    · rename_i hlen
      cases hout
      rw [Op.keyed, if_pos hlen] at hop
      exact simulates_reject h _ matches_nil hop
    · rename_i hlen
      rw [Op.keyed, if_neg hlen] at hop
      rw [request_eq hop]
      dsimp only [Spec.step]
      split at hout
      · rename_i value hvalue
        cases hout
        rcases h.map_some hvalue with ⟨v, hv, htext⟩
        rw [hv, hmt, ← htext]
        exact ⟨h.received, matches_answer _ _⟩
      · rename_i habsent
        rw [h.map_none habsent]
        dsimp only
        split at hout
        · rename_i hzero
          cases hout
          -- a zero timeout answers at once
          rw [if_neg (by simp [hzero])]
          exact ⟨h.received, matches_reject (by decide)⟩
        · rename_i hnonzero
          split at hout
          · rename_i hlarge
            cases hout
            -- a timeout above the int32 range is dropped without an answer
            rw [if_neg (by simp only [decide_eq_true_eq]; omega)]
            exact ⟨h.received, matches_nil⟩
          · rename_i hsmall
            rw [if_pos (by simp only [decide_eq_true_eq]; omega)]
            split at hout
            · cases hout
            · cases hout
              -- the GET waits
              exact ⟨h.park hinv, matches_nil⟩
  · rename_i hshape
    cases hout
    have hop : Op.ofMessage m = none := by
      unfold Op.ofMessage
      simp only [hmt]
    exact simulates_reject h _ (matches_reject (by decide)) hop

/-- ADD does what the abstract store does. -/
theorem add_simulates {order : Order} {out : Outcome} (hmt : m.mt = .add)
    (hout : s.server.addHandler order s.received m = some out) :
    Simulates s out (spec.request s.received m) := by
  unfold Server.addHandler at hout
  split at hout
  · rename_i key value hkeys hvalues
    have hop : Op.ofMessage m =
        match strToLong value with
        | none => none
        | some n => if value = toDecimal n then Op.keyed key (.add key n) else none := by
      unfold Op.ofMessage
      simp only [hmt, hkeys, hvalues]
    split at hout
    · rename_i hlen
      cases hout
      apply simulates_reject h _ matches_nil
      rw [hop]
      split
      · rfl
      · rw [Op.keyed, if_pos hlen, ite_self]
    · rename_i hlen
      split at hout
      · rename_i hnum
        cases hout
        rw [hnum] at hop
        exact simulates_reject h _ matches_nil hop
      · rename_i n hnum
        rw [hnum] at hop
        dsimp only at hop
        split at hout
        -- a number that is not written the way `to_string` writes it
        · rename_i htext
          cases hout
          rw [if_neg htext] at hop
          exact simulates_reject h _ (matches_reject (by decide)) hop
        · rename_i htext
          have hvalue : value = toDecimal n := not_not.mp htext
          rw [if_pos hvalue, Op.keyed, if_neg hlen] at hop
          rw [request_eq hop]
          have hrange := strToLong_range hnum
          dsimp only [Spec.step]
          split at hout
          -- a new key: its waiters are answered with the value
          · rename_i habsent
            rw [h.map_none habsent]
            cases hout
            rw [hvalue]
            exact ⟨h.create hinv order key (.number n) _ (fun n' heq => by cases heq; exact hrange),
              (h.matches_create hinv order key _ (.number n) _).mpr (Or.inl rfl)⟩
          · rename_i old hold
            rcases h.map_some hold with ⟨v, hv, hvtext⟩
            have hread := h.toNumber hv
            rw [hvtext] at hread
            rw [hv]
            -- an old value that is no number
            cases hnumber : strToLong old with
            | none =>
              rw [hnumber] at hout hread
              cases hout
              dsimp only
              rw [← hread]
              exact ⟨h.received, matches_nil⟩
            | some m' =>
              rw [hnumber] at hout hread
              dsimp only at hout ⊢
              rw [← hread]
              split at hout
              · cases hout
              -- the handler has a result, so the sum does not overflow
              · rename_i hfits
                cases hout
                exact ⟨h.put key (.number (m' + n)) (fun n' heq => by cases heq; omega),
                  matches_answer _ _⟩
  · rename_i hshape
    cases hout
    have hop : Op.ofMessage m = none := by
      unfold Op.ofMessage
      simp only [hmt]
    exact simulates_reject h _ (matches_reject (by decide)) hop

/-- CAS does what the abstract store does. -/
theorem cas_simulates (order : Order) (hmt : m.mt = .cas) :
    Simulates s (s.server.casHandler order s.received m) (spec.request s.received m) := by
  unfold Server.casHandler
  split
  · rename_i key expected exchange hkeys hvalues
    have hop : Op.ofMessage m = Op.keyed key (.cas key expected exchange) := by
      unfold Op.ofMessage
      simp only [hmt, hkeys, hvalues]
    split
    · rename_i hlen
      rw [Op.keyed, if_pos hlen] at hop
      exact simulates_reject h _ matches_nil hop
    · rename_i hlen
      rw [Op.keyed, if_neg hlen] at hop
      rw [request_eq hop]
      dsimp only [Spec.step]
      split
      · rename_i value hvalue
        rcases h.map_some hvalue with ⟨v, hv, htext⟩
        rw [hv, hmt, ← htext]
        dsimp only
        split
        · exact ⟨h.put key (.bytes exchange) (fun n heq => by cases heq), matches_answer _ _⟩
        · exact ⟨h.received, matches_answer _ _⟩
      · rename_i habsent
        rw [h.map_none habsent, hmt]
        dsimp only
        split
        · rw [Server.takeWaiters_put]
          exact ⟨h.create hinv order key (.bytes exchange) _ (fun n heq => by cases heq),
            (h.matches_create hinv order key exchange (.bytes exchange) _).mpr (Or.inl rfl)⟩
        · exact ⟨h.received, matches_answer _ _⟩
  · rename_i hshape
    have hop : Op.ofMessage m = none := by
      unfold Op.ofMessage
      simp only [hmt]
    exact simulates_reject h _ (matches_reject (by decide)) hop

omit hinv in
/-- REMOVE does what the abstract store does. -/
theorem remove_simulates (hmt : m.mt = .remove) :
    Simulates s (s.server.removeHandler s.received m) (spec.request s.received m) := by
  unfold Server.removeHandler
  split
  · rename_i key hkeys hvalues
    have hop : Op.ofMessage m = Op.keyed key (.remove key) := by
      unfold Op.ofMessage
      simp only [hmt, hkeys, hvalues]
    split
    · rename_i hlen
      rw [Op.keyed, if_pos hlen] at hop
      exact simulates_reject h _ matches_nil hop
    · rename_i hlen
      rw [Op.keyed, if_neg hlen] at hop
      rw [request_eq hop]
      dsimp only [Spec.step]
      split
      · rename_i habsent
        rw [h.map_none habsent]
        exact ⟨h.received, matches_reject (by decide)⟩
      · rename_i value hvalue
        rcases h.map_some hvalue with ⟨v, hv, htext⟩
        rw [hv]
        exact ⟨h.erase key, matches_answer _ _⟩
  · rename_i hshape
    have hop : Op.ofMessage m = none := by
      unfold Op.ofMessage
      simp only [hmt]
    exact simulates_reject h _ (matches_reject (by decide)) hop

/-- APPEND moves its value away before it wakes the waiters with it. -/
theorem append_simulates (order : Order) (hmt : m.mt = .append) :
    Refines ⟨(s.server.appendHandler order s.received m).server, s.received + 1⟩
      (spec.request s.received m).1 ∧
    (Matches (s.server.appendHandler order s.received m).replies (spec.request s.received m).2 ↔
      ¬ ∃ key value, m.keys = [key] ∧ m.values = [value] ∧ key.length ≤ maxKeyLenServer ∧
        value ≠ [] ∧ s.server.kvStore key = none ∧ ∃ ctx, s.Waits ctx key) := by
  -- outside the one bad branch, where nothing can be lost
  have hmatch : ∀ {replies answers}, Matches replies answers → (∀ key value, m.keys = [key] →
      m.values = [value] → key.length ≤ maxKeyLenServer → s.server.kvStore key ≠ none) →
      (Matches replies answers ↔ ¬ ∃ key value, m.keys = [key] ∧ m.values = [value] ∧
        key.length ≤ maxKeyLenServer ∧ value ≠ [] ∧ s.server.kvStore key = none ∧
        ∃ ctx, s.Waits ctx key) := by
    intro replies answers hmatches hpresent
    apply iff_of_true hmatches
    intro hlost
    rcases hlost with ⟨key, value, hkeys, hvalues, hlen, hne, habsent, hwaits⟩
    exact hpresent key value hkeys hvalues hlen habsent
  unfold Server.appendHandler
  split
  · rename_i key value hkeys hvalues
    have hop : Op.ofMessage m = Op.keyed key (.append key value) := by
      unfold Op.ofMessage
      simp only [hmt, hkeys, hvalues]
    have hkey : ∀ {key'}, m.keys = [key'] → key' = key := by
      intro key' heq
      rw [hkeys] at heq
      exact (List.singleton_injective heq).symm
    split
    · rename_i hlen
      rw [Op.keyed, if_pos hlen] at hop
      have hsim := simulates_reject h StoreErrorCode.invalidKey matches_nil hop
      apply And.intro hsim.1 (hmatch hsim.2 _)
      intro key' value' hkeys' hvalues' hlen'
      rw [hkey hkeys'] at hlen'
      exact absurd hlen (Nat.not_lt.mpr hlen')
    · rename_i hlen
      rw [Op.keyed, if_neg hlen] at hop
      rw [request_eq hop]
      dsimp only [Spec.step]
      split
      · rename_i old hold
        rcases h.map_some hold with ⟨v, hv, htext⟩
        rw [hv, ← htext]
        apply And.intro (h.put key (.bytes (v.text ++ value)) (fun n heq => by cases heq))
        apply hmatch (matches_answer _ _)
        intro key' value' hkeys' hvalues' hlen' habsent
        rw [hkey hkeys', hold] at habsent
        cases habsent
      · rename_i habsent
        rw [h.map_none habsent]
        apply And.intro (h.create hinv order key (.bytes value) _ (fun n heq => by cases heq))
        dsimp only
        -- the value has been moved away, so the waiters get an empty text
        rw [h.matches_create hinv order key [] (.bytes value)]
        constructor
        · intro hright hlost
          rcases hlost with ⟨key', value', hkeys', hvalues', hlen', hne, habsent', hwaits⟩
          rw [hvalues] at hvalues'
          rw [hkey hkeys'] at hwaits
          rcases hright with heq | hnone
          · exact hne ((List.singleton_injective hvalues').symm.trans heq.symm)
          · exact hnone hwaits
        · intro hkept
          by_cases hvalue : value = []
          · exact Or.inl hvalue.symm
          · apply Or.inr
            intro hwaits
            exact hkept ⟨key, value, hkeys, hvalues, Nat.not_lt.mp hlen, hvalue, habsent, hwaits⟩
  · rename_i hshape
    have hop : Op.ofMessage m = none := by
      unfold Op.ofMessage
      simp only [hmt]
    have hreject : Matches [⟨s.received, StoreErrorCode.invalidMessage,
        .text "invalid request: key & value should be one."⟩] noReply := matches_reject (by decide)
    have hsim := simulates_reject h smInvalidParam hreject hop
    apply And.intro hsim.1 (hmatch hsim.2 _)
    intro key value hkeys hvalues
    exact absurd hvalues (hshape key value hkeys)

end

/-! ## Runs -/

/-- An APPEND of a value that is not empty creates a key on which a GET waits. -/
def Transition.LosesValue (t : Transition) : Prop :=
  match t.event with
  | .request _ _ m => m.mt = .append ∧ ∃ key value, m.keys = [key] ∧ m.values = [value] ∧
      key.length ≤ maxKeyLenServer ∧ value ≠ [] ∧ t.before.server.kvStore key = none ∧
      ∃ ctx, t.before.Waits ctx key
  | .timer _ _ => False

/-- Every step refines the abstract store, and its replies match unless a value is lost. -/
theorem Step.simulates {s s' : System} {spec : Spec} {e : Event} {replies : List Reply}
    (hstep : Step s e replies s') (h : Refines s spec) (hinv : Inv s) :
    Refines s' (spec.next ⟨s, e, replies, s'⟩).1 ∧
      (Matches replies (spec.next ⟨s, e, replies, s'⟩).2 ↔
        ¬ Transition.LosesValue ⟨s, e, replies, s'⟩) := by
  cases hstep with
  | @request order now m out hout =>
    -- only APPEND can lose a value
    have hkept : ∀ {out : Outcome}, m.mt ≠ .append → Simulates s out (spec.request s.received m) →
        Refines ⟨out.server, s.received + 1⟩ (spec.request s.received m).1 ∧
          (Matches out.replies (spec.request s.received m).2 ↔
            ¬ Transition.LosesValue ⟨s, .request order now m, out.replies,
              ⟨out.server, s.received + 1⟩⟩) := by
      intro out hmt hsim
      exact ⟨hsim.1, iff_of_true hsim.2 fun hloses => hmt hloses.1⟩
    show Refines ⟨out.server, s.received + 1⟩ (spec.request s.received m).1 ∧ _
    unfold Server.receiveMessage at hout
    split at hout
    · rename_i hmt
      cases hout
      exact hkept (by rw [hmt]; decide) (set_simulates h hinv order hmt)
    · rename_i hmt
      exact hkept (by rw [hmt]; decide) (get_simulates h hinv hmt hout)
    · rename_i hmt
      exact hkept (by rw [hmt]; decide) (add_simulates h hinv hmt hout)
    · rename_i hmt
      cases hout
      exact hkept (by rw [hmt]; decide) (remove_simulates h hmt)
    · rename_i hmt
      cases hout
      have happend := append_simulates h hinv order hmt
      apply And.intro happend.1
      apply happend.2.trans (not_congr _)
      constructor
      · intro hloses
        exact ⟨hmt, hloses⟩
      · intro hloses
        exact hloses.2
    · rename_i hmt
      cases hout
      exact hkept (by rw [hmt]; decide) (cas_simulates h hinv order hmt)
    · rename_i hmt
      cases hout
      have hop : Op.ofMessage m = none := by
        unfold Op.ofMessage
        rw [hmt]
      exact hkept (by rw [hmt]; decide)
        (simulates_reject h _ (matches_reject (by decide)) hop)
  | timer hcollect =>
    apply And.intro (h.timeout hinv)
    apply iff_of_true _ not_false
    apply matches_noReply
    intro r hr
    rcases List.mem_map.mp hr with ⟨ctx, hctx, rfl⟩
    show StoreErrorCode.timeout ≠ StoreErrorCode.success
    decide

/-- The replies of a run match exactly if no step loses a value. -/
theorem Run.matchesAll_iff {s s' : System} {spec : Spec} {ts : List Transition} (h : Run s ts s')
    (hrefines : Refines s spec) (hinv : Inv s) :
    MatchesAll spec ts ↔ ∀ t ∈ ts, ¬ t.LosesValue := by
  induction h generalizing spec with
  | nil s => exact iff_of_true trivial fun t ht => absurd ht List.not_mem_nil
  | @cons t ts s' ht rest ih =>
    have hstep := Step.simulates ht hrefines hinv
    rw [List.forall_mem_cons]
    exact and_congr hstep.2 (ih hstep.1 (ht.effect.inv hinv))

/-- The successful replies of a run are those of the atomic map, in the order of the critical
sections, exactly when no APPEND creates a key with a non-empty value under a waiting GET. -/
theorem replies_match_iff {s : System} {ts : List Transition} (h : Run System.init ts s) :
    MatchesAll Spec.init ts ↔ ∀ t ∈ ts, ¬ t.LosesValue :=
  h.matchesAll_iff refines_init inv_init

/-- A GET that waits, and the SET that answers it. -/
theorem replies_match_sample : MatchesAll Spec.init [sampleGet, sampleSet] := by
  apply (replies_match_iff sample_run).mpr
  intro t ht hloses
  rcases List.mem_cons.mp ht with rfl | ht
  · cases hloses.1
  · rw [List.mem_singleton.mp ht] at hloses
    cases hloses.1

/-- An APPEND under the parked GET. -/
def sampleAppend : Transition where
  before := sampleGet.after
  event := .request sortedOrder 5 ⟨.append, -1, [sampleKey], [[1]]⟩
  replies :=
    (sampleGet.after.server.appendHandler sortedOrder 1 ⟨.append, -1, [sampleKey], [[1]]⟩).replies
  after :=
    ⟨(sampleGet.after.server.appendHandler sortedOrder 1 ⟨.append, -1, [sampleKey], [[1]]⟩).server, 2⟩

/-- The GET is answered with an empty value, the map holds the byte that was appended. -/
theorem append_loses_value :
    Run System.init [sampleGet, sampleAppend] sampleAppend.after ∧
      ¬ MatchesAll Spec.init [sampleGet, sampleAppend] := by
  constructor
  · have hvalid : sampleAppend.Valid := by
      apply Step.request (s := sampleGet.after)
      rfl
    exact Run.cons sampleGet_valid (Run.cons hvalid (Run.nil _))
  · intro hmatches
    have hsent : (⟨0, StoreErrorCode.success, .packed (.response .get [])⟩ : Reply) ∈
        sampleAppend.replies := by
      decide +kernel
    have hanswer := (hmatches.2.1 0 _).mp hsent
    have hspec : ((Spec.init.next sampleGet).1.next sampleAppend).2 0 =
        some (.packed (.response .get [1])) := by
      decide +kernel
    rw [hspec] at hanswer
    exact absurd hanswer (by decide)

/-! ## What ADD keeps -/

/-- ADDs of these increments on one key. -/
def Spec.addAll (s : Spec) (ctx : ℕ) (key : Bytes) : List ℤ → Spec
  | [] => s
  | n :: ns => ((s.step ctx (.add key n)).1).addAll ctx key ns

/-- Additions to a number add up. -/
theorem Spec.addAll_number (ctx : ℕ) (key : Bytes) (ns : List ℤ) {s : Spec} {m : ℤ}
    (h : s.map key = some (.number m)) :
    (s.addAll ctx key ns).map key = some (.number (m + ns.sum)) := by
  induction ns generalizing s m with
  | nil =>
    rw [List.sum_nil, add_zero]
    exact h
  | cons n ns ih =>
    have hstep : (s.step ctx (.add key n)).1.map key = some (.number (m + n)) := by
      simp only [Spec.step, h, Value.toNumber, Spec.put, Function.update_self]
    rw [List.sum_cons, ← add_assoc]
    exact ih hstep

end AscendShmem.ConfigStore
