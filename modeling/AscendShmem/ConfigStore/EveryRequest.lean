import AscendShmem.ConfigStore.UnpackReads
import AscendShmem.ConfigStore.Waiters

/-!
# Every request is answered or parked

`ReceiveMessageHandler` on the bytes of a request. What a handler does has one of four shapes: it
refuses with an error reply, it answers with success, it parks a GET, or it returns without a reply.
The last one is left to the number conversions of ADD and to the largest timeouts of GET; a sum of
ADD or a deadline of GET that overflows is undefined and counted with it.
-/

namespace AscendShmem.ConfigStore

open Lib

/-- What `Unpack` makes of the bytes. -/
def unpackRequest (data : Memory) (dataLen : ℕ) : Option SmemMessage :=
  (runUnpack data dataLen).result.bind fun (size, request) =>
    if size < 0 then none else some request

namespace Server

/-- `ReceiveMessageHandler`; `data` is `none` for a null pointer. -/
def receiveMessageHandler (s : Server) (order : Order) (now : ℤ) (ctx : ℕ) (data : Option Memory)
    (dataLen : ℕ) : Option Outcome :=
  match data with
  | none =>
    some ⟨smInvalidParam, [⟨ctx, StoreErrorCode.invalidMessage, .text "request no body"⟩], s⟩
  | some data =>
    match unpackRequest data dataLen with
    | none =>
      some ⟨aclshmemSmemError, [⟨ctx, StoreErrorCode.invalidMessage, .text "invalid request"⟩], s⟩
    | some request => s.receiveMessage order now ctx request

/-- The deadline of a GET in nanoseconds is beyond `int64_t`. -/
def DeadlineOverflows (now userDef : ℤ) : Prop :=
  userDef * 1000000 < -2 ^ 63 ∨ now + userDef * 1000000 < -2 ^ 63 ∨
    2 ^ 63 ≤ now + userDef * 1000000

/-- A GET of an absent key with a timeout beyond `int`, or with one whose deadline overflows. -/
def LongGet (s : Server) (now : ℤ) (request : SmemMessage) : Prop :=
  request.mt = .get ∧ ∃ key, request.keys = [key] ∧ request.values = [] ∧ s.kvStore key = none ∧
    (2 ^ 31 - 1 < request.userDef ∨
      request.userDef ≠ 0 ∧ DeadlineOverflows now request.userDef)

/-- An ADD whose value is not converted, or that meets a value that is not converted or with which
the sum is beyond `long`. -/
def BadAdd (s : Server) (request : SmemMessage) : Prop :=
  request.mt = .add ∧ ∃ key value, request.keys = [key] ∧ request.values = [value] ∧
    (strToLong value = none ∨ ∃ n, strToLong value = some n ∧ value = toDecimal n ∧
      ∃ old, s.kvStore key = some old ∧
        ∀ m, strToLong old = some m → m + n < -2 ^ 63 ∨ 2 ^ 63 ≤ m + n)

/-- A request that gets no answer. -/
def Dropped (s : Server) (now : ℤ) (request : SmemMessage) : Prop :=
  s.LongGet now request ∨ s.BadAdd request

/-- A GET that may wait: of one absent key, with a timeout. -/
structure MayWait (s : Server) (request : SmemMessage) (key : Bytes) : Prop where
  mt : request.mt = .get
  keys : request.keys = [key]
  values : request.values = []
  absent : s.kvStore key = none
  timeout : request.userDef ≠ 0

/-- What a handler can do. -/
inductive Shape (s : Server) (now : ℤ) (ctx : ℕ) (request : SmemMessage) : Outcome → Prop
  | refused {result code body} (h : code ≠ StoreErrorCode.success) :
    Shape s now ctx request ⟨result, [⟨ctx, code, body⟩], s⟩
  | done {result body replies server} (h : ∀ r ∈ replies, r.code = StoreErrorCode.success) :
    Shape s now ctx request ⟨result, ⟨ctx, StoreErrorCode.success, body⟩ :: replies, server⟩
  | parked {result timeoutMs key} (h : s.MayWait request key) :
    Shape s now ctx request ⟨result, [], s.park timeoutMs ctx key request.userDef⟩
  | silent {result} (h : s.Dropped now request) : Shape s now ctx request ⟨result, [], s⟩

theorem wakeupWaiters_code (waiters : List ℕ) (value : Bytes) :
    ∀ r ∈ wakeupWaiters waiters value, r.code = StoreErrorCode.success := by
  intro r hr
  obtain ⟨ctx, -, rfl⟩ := List.mem_map.mp hr
  rfl

section Handlers

variable {s : Server} {order : Order} {now : ℤ} {ctx : ℕ} {request : SmemMessage}

/-- A key that `Unpack` lets through passes the test of the handler. -/
theorem not_long_key {key : Bytes} (hsizes : ∀ key ∈ request.keys, key.length ≤ maxKeySize)
    (hkey : request.keys = [key]) : ¬ maxKeyLenServer < key.length :=
  Nat.not_lt.mpr (hsizes key (by rw [hkey]; exact List.mem_singleton_self key))

/-- A SET is answered. -/
theorem shape_set (hsizes : ∀ key ∈ request.keys, key.length ≤ maxKeySize) :
    Shape s now ctx request (s.setHandler order ctx request) := by
  unfold setHandler
  split
  · rename_i key value hkey hvalue
    rw [if_neg (not_long_key hsizes hkey)]
    dsimp only
    split
    · exact .done (wakeupWaiters_code _ _)
    · exact .done fun _ h => absurd h List.not_mem_nil
  · exact .refused (by decide)

/-- Below the test of `GetHandler` only the deadline itself can overflow. -/
theorem waitDeadline_eq_none {userDef : ℤ} (h : userDef ≤ 2 ^ 31 - 1) :
    waitDeadline now userDef = none ↔ DeadlineOverflows now userDef := by
  have hdelay : ¬ 2 ^ 63 ≤ userDef * 1000000 := by omega
  unfold waitDeadline DeadlineOverflows
  dsimp only
  split
  · rename_i hover
    exact iff_of_true rfl (by omega)
  · rename_i hfits
    exact iff_of_false (by simp) (by omega)

/-- A GET is answered or parked, or it is dropped. -/
theorem shape_get (hmt : request.mt = .get)
    (hsizes : ∀ key ∈ request.keys, key.length ≤ maxKeySize) :
    (∃ out, s.getHandler now ctx request = some out ∧ Shape s now ctx request out) ∨
      (s.getHandler now ctx request = none ∧ s.Dropped now request) := by
  unfold getHandler
  split
  · rename_i key hkey hvalue
    rw [if_neg (not_long_key hsizes hkey)]
    split
    · exact .inl ⟨_, rfl, .done fun _ h => absurd h List.not_mem_nil⟩
    · rename_i habsent
      split
      · exact .inl ⟨_, rfl, .refused (by decide)⟩
      · rename_i htimeout
        split
        · rename_i hlong
          exact .inl ⟨_, rfl, .silent (.inl ⟨hmt, key, hkey, hvalue, habsent, .inl hlong⟩)⟩
        · rename_i hshort
          split
          · rename_i hnone
            have hover := (waitDeadline_eq_none (not_lt.mp hshort)).mp hnone
            exact .inr ⟨rfl, .inl ⟨hmt, key, hkey, hvalue, habsent, .inr ⟨htimeout, hover⟩⟩⟩
          · exact .inl ⟨_, rfl, .parked ⟨hmt, hkey, hvalue, habsent, htimeout⟩⟩
  · exact .inl ⟨_, rfl, .refused (by decide)⟩

/-- A REMOVE is answered. -/
theorem shape_remove (hsizes : ∀ key ∈ request.keys, key.length ≤ maxKeySize) :
    Shape s now ctx request (s.removeHandler ctx request) := by
  unfold removeHandler
  split
  · rename_i key hkey hvalue
    rw [if_neg (not_long_key hsizes hkey)]
    split
    · exact .refused (by decide)
    · exact .done fun _ h => absurd h List.not_mem_nil
  · exact .refused (by decide)

/-- An APPEND is answered. -/
theorem shape_append (hsizes : ∀ key ∈ request.keys, key.length ≤ maxKeySize) :
    Shape s now ctx request (s.appendHandler order ctx request) := by
  unfold appendHandler
  split
  · rename_i key value hkey hvalue
    rw [if_neg (not_long_key hsizes hkey)]
    dsimp only
    split
    · exact .done fun _ h => absurd h List.not_mem_nil
    · exact .done (wakeupWaiters_code _ _)
  · exact .refused (by decide)

/-- A CAS is answered. -/
theorem shape_cas (hsizes : ∀ key ∈ request.keys, key.length ≤ maxKeySize) :
    Shape s now ctx request (s.casHandler order ctx request) := by
  unfold casHandler
  split
  · rename_i key expected exchange hkey hvalues
    rw [if_neg (not_long_key hsizes hkey)]
    dsimp only
    split
    · split
      · exact .done fun _ h => absurd h List.not_mem_nil
      · exact .done fun _ h => absurd h List.not_mem_nil
    · split
      · exact .done (wakeupWaiters_code _ _)
      · exact .done fun _ h => absurd h List.not_mem_nil
  · exact .refused (by decide)

/-- An ADD is answered, or it is dropped. -/
theorem shape_add (hmt : request.mt = .add)
    (hsizes : ∀ key ∈ request.keys, key.length ≤ maxKeySize) :
    (∃ out, s.addHandler order ctx request = some out ∧ Shape s now ctx request out) ∨
      (s.addHandler order ctx request = none ∧ s.Dropped now request) := by
  unfold addHandler
  split
  · rename_i key value hkey hvalue
    rw [if_neg (not_long_key hsizes hkey)]
    split
    · rename_i hnone
      exact .inl ⟨_, rfl, .silent (.inr ⟨hmt, key, value, hkey, hvalue, .inl hnone⟩)⟩
    · rename_i n hn
      split
      · exact .inl ⟨_, rfl, .refused (by decide)⟩
      · rename_i hdecimal
        have hdecimal := not_not.mp hdecimal
        split
        · exact .inl ⟨_, rfl, .done (wakeupWaiters_code _ _)⟩
        · rename_i old hold
          have hbad : (∀ m, strToLong old = some m → m + n < -2 ^ 63 ∨ 2 ^ 63 ≤ m + n) →
              s.Dropped now request := fun h =>
            .inr ⟨hmt, key, value, hkey, hvalue, .inr ⟨n, hn, hdecimal, old, hold, h⟩⟩
          split
          · rename_i hnone
            exact .inl ⟨_, rfl, .silent (hbad fun m hm => absurd (hm.symm.trans hnone) (by simp))⟩
          · rename_i m hm
            dsimp only
            split
            · rename_i hover
              refine .inr ⟨rfl, hbad fun m' hm' => ?_⟩
              rw [Option.some.inj (hm'.symm.trans hm)]
              exact hover
            · exact .inl ⟨_, rfl, .done fun _ h => absurd h List.not_mem_nil⟩
  · exact .inl ⟨_, rfl, .refused (by decide)⟩

/-- Every handler does one of the things that a handler can do. -/
theorem shape_receiveMessage (s : Server) (ctx : ℕ) (order : Order) (now : ℤ)
    (hsizes : ∀ key ∈ request.keys, key.length ≤ maxKeySize) :
    (∃ out, s.receiveMessage order now ctx request = some out ∧ Shape s now ctx request out) ∨
      (s.receiveMessage order now ctx request = none ∧ s.Dropped now request) := by
  unfold receiveMessage
  split
  · exact .inl ⟨_, rfl, shape_set hsizes⟩
  · rename_i hmt
    exact shape_get hmt hsizes
  · rename_i hmt
    exact shape_add hmt hsizes
  · exact .inl ⟨_, rfl, shape_remove hsizes⟩
  · exact .inl ⟨_, rfl, shape_append hsizes⟩
  · exact .inl ⟨_, rfl, shape_cas hsizes⟩
  · exact .inl ⟨_, rfl, .refused (by decide)⟩

/-- A request that is dropped leaves no trace. -/
theorem silent_of_dropped (hsizes : ∀ key ∈ request.keys, key.length ≤ maxKeySize)
    (h : s.Dropped now request) {out : Outcome}
    (hout : s.receiveMessage order now ctx request = some out) :
    out.replies = [] ∧ out.server = s := by
  rcases h with ⟨hmt, key, hkey, hvalue, habsent, hget⟩ | ⟨hmt, key, value, hkey, hvalue, hbad⟩
  · rw [receiveMessage, hmt] at hout
    simp only [getHandler, hkey, hvalue, habsent] at hout
    rw [if_neg (not_long_key hsizes hkey)] at hout
    by_cases hlong : 2 ^ 31 - 1 < request.userDef
    · rw [if_neg (by omega), if_pos hlong, Option.some.injEq] at hout
      exact ⟨by rw [← hout], by rw [← hout]⟩
    · obtain ⟨htimeout, hover⟩ := hget.resolve_left hlong
      rw [if_neg htimeout, if_neg hlong,
        (waitDeadline_eq_none (not_lt.mp hlong)).mpr hover] at hout
      exact absurd hout (by simp)
  · rw [receiveMessage, hmt] at hout
    simp only [addHandler, hkey, hvalue] at hout
    rw [if_neg (not_long_key hsizes hkey)] at hout
    rcases hbad with hnone | ⟨n, hn, hdecimal, old, hold, hover⟩
    · simp only [hnone, Option.some.injEq] at hout
      exact ⟨by rw [← hout], by rw [← hout]⟩
    · simp only [hn, hold] at hout
      rw [if_neg (not_not.mpr hdecimal)] at hout
      cases hm : strToLong old with
      | none =>
        simp only [hm, Option.some.injEq] at hout
        exact ⟨by rw [← hout], by rw [← hout]⟩
      | some m =>
        simp only [hm] at hout
        rw [if_pos (hover m hm)] at hout
        exact absurd hout (by simp)

end Handlers

/-- The request with the context `ctx` is registered as a waiter. -/
def Parked (s : Server) (ctx : ℕ) : Prop := ∃ id w, s.waitCtx id = some w ∧ w.reqCtx = ctx

/-- What is sent and registered for the request with the context `ctx`; `request` is what `Unpack`
made of its body. -/
structure Handled (s : Server) (ctx : ℕ) (request : Option SmemMessage) (out : Outcome) : Prop where
  /-- one reply, or else a waiter -/
  answered : ((out.replies.map Reply.ctx).count ctx = 1 ∧ ¬ out.server.Parked ctx) ∨
    ((out.replies.map Reply.ctx).count ctx = 0 ∧ out.server.Parked ctx)
  parked : out.server.Parked ctx → ∃ message key, request = some message ∧ s.MayWait message key
  /-- an error reply leaves the store and the indexes as they were -/
  unchanged : ∀ r ∈ out.replies, r.code ≠ StoreErrorCode.success → out.server = s

end Server

/-! ## In a reachable state -/

section Reachable

variable {s : System} {order : Order} {now : ℤ} {request : SmemMessage} {out : Outcome}

theorem Inv.not_parked (hinv : Inv s) : ¬ s.server.Parked s.received := by
  rintro ⟨id, w, hw, hctx⟩
  exact absurd hctx (Nat.ne_of_lt (hinv.ctx_lt hw))

/-- A reply to the request itself comes once, and then the request does not wait. -/
theorem Effect.answered_once {replies : List Reply} {server : Server} (hinv : Inv s)
    (h : Effect s replies ⟨server, s.received + 1⟩) (hmem : s.received ∈ replies.map Reply.ctx) :
    (replies.map Reply.ctx).count s.received = 1 ∧ ¬ server.Parked s.received := by
  have hanswers := h.answers hinv
  refine ⟨List.count_eq_one_of_mem hanswers.nodup hmem, fun hparked => ?_⟩
  exact hanswers.closed _ hmem (Or.inr hparked)

/-- A request that is not dropped is answered once or parked. -/
theorem Server.Shape.handled (hinv : Inv s) (h : s.server.Shape now s.received request out)
    (heffect : Effect s out.replies ⟨out.server, s.received + 1⟩)
    (hkept : ¬ s.server.Dropped now request) :
    s.server.Handled s.received (some request) out := by
  cases h with
  | refused hcode =>
    have honce := heffect.answered_once hinv List.mem_cons_self
    exact ⟨.inl honce, fun hparked => absurd hparked honce.2, fun _ _ _ => rfl⟩
  | done hcodes =>
    have honce := heffect.answered_once hinv List.mem_cons_self
    refine ⟨.inl honce, fun hparked => absurd hparked honce.2, fun r hr hcode => ?_⟩
    rcases List.mem_cons.mp hr with rfl | hr
    · exact absurd rfl hcode
    · exact absurd (hcodes r hr) hcode
  | @parked result timeoutMs key hwait =>
    refine ⟨.inr ⟨rfl, s.server.idGen, _, Function.update_self .., rfl⟩,
      fun _ => ⟨request, key, rfl, hwait⟩, fun r hr => absurd hr List.not_mem_nil⟩
  | silent hdropped => exact absurd hdropped hkept

/-- A request is handled exactly if it is not dropped. -/
theorem handled_iff_kept (hinv : Inv s)
    (hsizes : ∀ key ∈ request.keys, key.length ≤ maxKeySize) :
    (∃ out, s.server.receiveMessage order now s.received request = some out ∧
        s.server.Handled s.received (some request) out) ↔ ¬ s.server.Dropped now request := by
  constructor
  · rintro ⟨out, hout, hhandled⟩ hdropped
    obtain ⟨hreplies, hserver⟩ := Server.silent_of_dropped hsizes hdropped hout
    rcases hhandled.answered with ⟨hcount, -⟩ | ⟨-, hparked⟩
    · rw [hreplies] at hcount
      exact absurd hcount (by simp)
    · rw [hserver] at hparked
      exact hinv.not_parked hparked
  · intro hkept
    have hshape := s.server.shape_receiveMessage s.received order now hsizes
    rcases hshape with ⟨out, hout, hshape⟩ | ⟨-, hdropped⟩
    · have hstep := Step.request (s := s) hout
      exact ⟨out, hout, hshape.handled hinv hstep.effect hkept⟩
    · exact absurd hdropped hkept

theorem handled_refusal (hinv : Inv s) (result code : Result) (text : String) :
    s.server.Handled s.received none ⟨result, [⟨s.received, code, .text text⟩], s.server⟩ := by
  have honce := (Effect.reject code (.text text)).answered_once hinv List.mem_cons_self
  exact ⟨.inl honce, fun hparked => absurd hparked honce.2, fun _ _ _ => rfl⟩

/-- `Unpack` lets no long key through. -/
theorem unpackRequest_sizes {data : Memory} {dataLen : ℕ}
    (h : unpackRequest data dataLen = some request) :
    ∀ key ∈ request.keys, key.length ≤ maxKeySize := by
  obtain ⟨⟨size, message⟩, hresult, hmessage⟩ := Option.bind_eq_some_iff.mp h
  dsimp only at hmessage
  split at hmessage
  · exact absurd hmessage (by simp)
  · rw [← Option.some.inj hmessage]
    exact keys_le_of_runUnpack hresult

end Reachable

/-- In every reachable state every body is answered once or parked, unless `Unpack` makes of it a
request that is dropped. -/
theorem every_request_answered {s : System} {ts : List Transition} (h : Run System.init ts s)
    (order : Order) (now : ℤ) (data : Option Memory) (dataLen : ℕ) :
    (∃ out, s.server.receiveMessageHandler order now s.received data dataLen = some out ∧
        s.server.Handled s.received (data.bind fun data => unpackRequest data dataLen) out) ↔
      ∀ message, (data.bind fun data => unpackRequest data dataLen) = some message →
        ¬ s.server.Dropped now message := by
  have hinv := h.inv inv_init
  cases data with
  | none =>
    refine ⟨fun _ message hmessage => absurd hmessage (by simp), fun _ => ?_⟩
    exact ⟨_, rfl, handled_refusal hinv _ _ _⟩
  | some data =>
    simp only [Option.bind_some, Server.receiveMessageHandler]
    cases hrequest : unpackRequest data dataLen with
    | none =>
      refine ⟨fun _ message hmessage => absurd hmessage (by simp), fun _ => ?_⟩
      exact ⟨_, rfl, handled_refusal hinv _ _ _⟩
    | some request =>
      dsimp only
      rw [handled_iff_kept hinv (unpackRequest_sizes hrequest)]
      simp only [Option.some.injEq, forall_eq']

/-- The memory of a buffer with a packed message. -/
def packedMemory (message : SmemMessage) : Memory := fun i => (pack message).getD i 0

/-- A SET of one key. -/
def sampleSetMessage : SmemMessage := ⟨.set, -1, [sampleKey], [[1]]⟩

/-- A SET on a fresh server is answered. -/
theorem every_request_answered_sample :
    ∃ out, Server.init.receiveMessageHandler sortedOrder 0 0 (some (packedMemory sampleSetMessage)) 52
        = some out ∧
      Server.init.Handled 0 (unpackRequest (packedMemory sampleSetMessage) 52) out := by
  have hrequest : unpackRequest (packedMemory sampleSetMessage) 52 = some sampleSetMessage := by
    decide +kernel
  refine (every_request_answered (Run.nil System.init) sortedOrder 0
    (some (packedMemory sampleSetMessage)) 52).mpr fun message hmessage => ?_
  rw [Option.bind_some, hrequest, Option.some.injEq] at hmessage
  rw [← hmessage]
  rintro (⟨hmt, -⟩ | ⟨hmt, -⟩)
  · cases hmt
  · cases hmt

/-- A GET that would wait for more than 24 days. -/
def longGetMessage : SmemMessage := ⟨.get, 2 ^ 31, [sampleKey], []⟩

/-- A GET with a timeout above `INT_MAX` is neither answered nor parked. -/
theorem long_get_unanswered : ¬ ∀ (s : System) (ts : List Transition), Run System.init ts s →
    ∀ (order : Order) (now : ℤ) (data : Option Memory) (dataLen : ℕ), ∃ out,
      s.server.receiveMessageHandler order now s.received data dataLen = some out ∧
        s.server.Handled s.received (data.bind fun data => unpackRequest data dataLen) out := by
  intro h
  obtain ⟨out, hout, hhandled⟩ := h System.init [] (Run.nil _) sortedOrder 0
    (some (packedMemory longGetMessage)) 43
  have hrequest : unpackRequest (packedMemory longGetMessage) 43 = some longGetMessage := by
    decide +kernel
  have hsilent : out = ⟨aclshmemSmemError, [], Server.init⟩ := by
    simp only [Server.receiveMessageHandler, hrequest] at hout
    simpa [System.init, Server.receiveMessage, Server.getHandler, Server.init, longGetMessage,
      maxKeyLenServer, sampleKey, eq_comm] using hout
  rw [hsilent] at hhandled
  rcases hhandled.answered with ⟨hcount, -⟩ | ⟨-, id, w, hw, -⟩
  · exact absurd hcount (by simp)
  · cases hw

end AscendShmem.ConfigStore
