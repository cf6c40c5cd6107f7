import AscendShmem.ConfigStore.Client

/-!
# Requests of the client meet their responses

A context is at any time in at most one place: in the map, with one of the handlers, or finished.
Only its own call and `Unwatch` drop it, and `Unwatch` drops no blocking one. From this follow the
guarantees of a run: a call returns its own response or none, a watch is notified at most once, and
no caller waits for a context that nobody holds.
-/

namespace AscendShmem.ConfigStore.Client

open Lib

/-! ## One request -/

/-- What holds of a request that stands `m` times in the map, `t` times with the handlers of
responses and `b` times with those of a broken link; `u` says that it was unwatched. -/
structure Request.Ok (r : Request) (m t b : ℕ) (u : Prop) : Prop where
  once : m + t + b ≤ 1
  fresh : r.pc = .numbered → m + t + b = 0 ∧ r.responseInfo = none ∧ r.notices = [] ∧ ¬ u
  left : (∃ response, r.pc = .returned response) ∨ r.pc = .refused → m = 0
  unnotified : 0 < m + t + b → r.notices = []
  notifiedOnce : r.notices.length ≤ 1
  awaited : r.pc = .waiting ∨ r.pc = .registered → r.kind ≠ .watch →
    r.finished = true ∨ 0 < m + t + b
  unwatched : u → m + t + b = 0 ∧ r.notices = [] ∧ r.kind = .watch
  answered : r.responseInfo ≠ none → m + t + b = 0
  response : ∀ p, r.responseInfo = some p → p.seqNo = r.seqNo
  returned : ∀ p, r.pc = .returned (some p) → p.seqNo = r.seqNo
  notices : ∀ p, some p ∈ r.notices → p.seqNo = r.seqNo

namespace Request.Ok

variable {r : Request} {m t b : ℕ} {u : Prop}

/-- The thread of a request that has left the map, or need not leave it, goes on. -/
theorem goto (h : r.Ok m t b u) {pc : Pc} (hnew : pc ≠ .numbered)
    (hleft : (∃ response, pc = .returned response) ∨ pc = .refused → m = 0)
    (hawaited : pc = .waiting ∨ pc = .registered → r.pc = .waiting ∨ r.pc = .registered)
    (hreturned : ∀ p, pc = .returned (some p) → p.seqNo = r.seqNo) :
    ({ r with pc := pc } : Request).Ok m t b u where
  once := h.once
  fresh hpc := absurd hpc hnew
  left := hleft
  unnotified := h.unnotified
  notifiedOnce := h.notifiedOnce
  awaited hpc := h.awaited (hawaited hpc)
  unwatched := h.unwatched
  answered := h.answered
  response := h.response
  returned := hreturned
  notices := h.notices

/-- The context enters the map. -/
theorem register (h : r.Ok m t b u) (hpc : r.pc = .numbered) :
    ({ r with pc := .registered } : Request).Ok (m + 1) t b u := by
  obtain ⟨hzero, hresponse, hnotices, hu⟩ := h.fresh hpc
  exact {
    once := by omega
    fresh := fun hnew => by cases hnew
    left := fun hnew => by rcases hnew with ⟨_, hnew⟩ | hnew <;> cases hnew
    unnotified := fun _ => hnotices
    notifiedOnce := h.notifiedOnce
    awaited := fun _ _ => Or.inr (by omega)
    unwatched := fun hyes => absurd hyes hu
    answered := fun hyes => absurd hresponse hyes
    response := h.response
    returned := fun p hnew => by cases hnew
    notices := h.notices }

/-- The context leaves the map and is dropped by its own call. -/
theorem drop (h : r.Ok m t b u)
    (hpc : r.pc ≠ .waiting ∧ r.pc ≠ .registered) : r.Ok 0 t b u where
  once := by have := h.once; omega
  fresh hnew := by have := h.fresh hnew; exact ⟨by omega, this.2⟩
  left _ := rfl
  unnotified hheld := h.unnotified (by omega)
  notifiedOnce := h.notifiedOnce
  awaited hnew := (hnew.elim hpc.1 hpc.2).elim
  unwatched hu := by have := h.unwatched hu; exact ⟨by omega, this.2⟩
  answered hyes := by have := h.answered hyes; omega
  response := h.response
  returned := h.returned
  notices := h.notices

/-- The context leaves the map for the handlers. -/
theorem hand (h : r.Ok m t b u) {t' b' : ℕ} (hsum : m + t + b = t' + b') : r.Ok 0 t' b' u where
  once := by have := h.once; omega
  fresh hnew := by have := h.fresh hnew; exact ⟨by omega, this.2⟩
  left _ := rfl
  unnotified hheld := h.unnotified (by omega)
  notifiedOnce := h.notifiedOnce
  awaited hnew hkind := (h.awaited hnew hkind).imp id (by omega)
  unwatched hu := by have := h.unwatched hu; exact ⟨by omega, this.2⟩
  answered hyes := by have := h.answered hyes; omega
  response := h.response
  returned := h.returned
  notices := h.notices

/-- A handler finishes a blocking request. -/
theorem finish (h : r.Ok m t b u) {t' b' : ℕ} (hheld : m + t + b = m + t' + b' + 1)
    (hkind : r.kind ≠ .watch) {response : Option Response}
    (hown : ∀ p, response = some p → p.seqNo = r.seqNo) :
    ({ r with responseInfo := response, finished := true } : Request).Ok m t' b' u where
  once := by have := h.once; omega
  fresh hnew := by have := (h.fresh hnew).1; omega
  left hnew := h.left hnew
  unnotified hmore := by have := h.once; omega
  notifiedOnce := h.notifiedOnce
  awaited _ _ := Or.inl rfl
  unwatched hu := absurd (h.unwatched hu).2.2 hkind
  answered _ := by have := h.once; omega
  response := hown
  returned := h.returned
  notices := h.notices

/-- A handler notifies a watch. -/
theorem notify (h : r.Ok m t b u) {t' b' : ℕ} (hheld : m + t + b = m + t' + b' + 1)
    {notice : Option Response} (hown : ∀ p, notice = some p → p.seqNo = r.seqNo)
    (hkind : r.kind = .watch) :
    ({ r with notices := r.notices ++ [notice] } : Request).Ok m t' b' u := by
  have hnone := h.unnotified (by omega)
  exact {
    once := by have := h.once; omega
    fresh := fun hnew => by have := (h.fresh hnew).1; omega
    left := h.left
    unnotified := fun hmore => by have := h.once; omega
    notifiedOnce := by simp [hnone]
    awaited := fun _ hno => absurd hkind hno
    unwatched := fun hu => by have := (h.unwatched hu).1; omega
    answered := fun hyes => by have := h.answered hyes; omega
    response := h.response
    returned := h.returned
    notices := fun p hp => by
      rw [hnone, List.nil_append, List.mem_singleton] at hp
      exact hown p hp.symm }

/-- `Unwatch` drops a watch. -/
theorem unwatch (h : r.Ok m t b u) (hm : m ≠ 0) (hkind : r.kind = .watch) : r.Ok 0 t b True where
  once := by have := h.once; omega
  fresh hnew := by have := (h.fresh hnew).1; omega
  left _ := rfl
  unnotified hheld := h.unnotified (by omega)
  notifiedOnce := h.notifiedOnce
  awaited _ hno := absurd hkind hno
  unwatched _ := ⟨by have := h.once; omega, h.unnotified (by omega), hkind⟩
  answered hyes := by have := h.answered hyes; omega
  response := h.response
  returned := h.returned
  notices := h.notices

/-- The wait of a request ends at its timeout. -/
theorem timeout (h : r.Ok m t b u) :
    ({ r with responseInfo := none, finished := true, pc := .gotNull } : Request).Ok m t b u where
  once := h.once
  fresh hnew := by cases hnew
  left hnew := by rcases hnew with ⟨_, hnew⟩ | hnew <;> cases hnew
  unnotified := h.unnotified
  notifiedOnce := h.notifiedOnce
  awaited hnew := by rcases hnew with hnew | hnew <;> cases hnew
  unwatched := h.unwatched
  answered hyes := absurd rfl hyes
  response _ hnew := by cases hnew
  returned _ hnew := by cases hnew
  notices := h.notices

end Request.Ok

/-- A request that has just got its number. -/
theorem Request.ok_fresh (kind : Kind) (seqNo : ℕ) :
    (⟨kind, seqNo, .numbered, false, none, []⟩ : Request).Ok 0 0 0 False where
  once := by omega
  fresh _ := ⟨rfl, rfl, rfl, id⟩
  left hnew := by rcases hnew with ⟨_, hnew⟩ | hnew <;> cases hnew
  unnotified _ := rfl
  notifiedOnce := Nat.zero_le _
  awaited hnew := by rcases hnew with hnew | hnew <;> cases hnew
  unwatched := False.elim
  answered hyes := absurd rfl hyes
  response _ hnew := by cases hnew
  returned _ hnew := by cases hnew
  notices _ hp := absurd hp List.not_mem_nil

/-! ## The invariant -/

/-- How often the context of a request is in the map. -/
def State.inMap (s : State) (i : ℕ) : ℕ := (s.msgClientContext.map Prod.snd).count i

/-- How often the handlers of responses have it. -/
def State.inHand (s : State) (i : ℕ) : ℕ := (s.taken.map Prod.fst).count i

/-- The invariant: where the context of every request is, and what that says of the request. -/
structure Inv (s : State) : Prop where
  /-- the keys of the map are the numbers of the requests -/
  keys : ∀ entry ∈ s.msgClientContext, entry.2 < s.count ∧ entry.1 = (s.request entry.2).seqNo
  /-- a response is with the request that it answers -/
  taken : ∀ entry ∈ s.taken, entry.1 < s.count ∧ entry.2.seqNo = (s.request entry.1).seqNo
  broken : ∀ i ∈ s.broken, i < s.count
  unwatched : ∀ i ∈ s.unwatched, i < s.count
  numbers : ∀ i < s.count, (s.request i).seqNo < s.reqSeqGen
  distinct : ∀ i < s.count, ∀ j < s.count, (s.request i).seqNo = (s.request j).seqNo → i = j
  requests : ∀ i < s.count, (s.request i).Ok (s.inMap i) (s.inHand i) (s.broken.count i)
    (i ∈ s.unwatched)

theorem inv_init : Inv State.init where
  keys _ h := absurd h List.not_mem_nil
  taken _ h := absurd h List.not_mem_nil
  broken _ h := absurd h List.not_mem_nil
  unwatched _ h := absurd h List.not_mem_nil
  numbers _ h := absurd h (Nat.not_lt_zero _)
  distinct _ h := absurd h (Nat.not_lt_zero _)
  requests _ h := absurd h (Nat.not_lt_zero _)

section Steps

variable {s : State}

@[simp] theorem put_request_self (s : State) (i : ℕ) (r : Request) :
    (s.put i r).request i = r := Function.update_self ..

theorem put_request_of_ne (s : State) {i j : ℕ} (r : Request) (h : j ≠ i) :
    (s.put i r).request j = s.request j := Function.update_of_ne h ..

theorem seqNo_update {i : ℕ} {r : Request} (hseq : r.seqNo = (s.request i).seqNo) (j : ℕ) :
    (Function.update s.request i r j).seqNo = (s.request j).seqNo := by
  by_cases heq : j = i
  · rw [heq, Function.update_self, hseq]
  · rw [Function.update_of_ne heq]

/-- A change of one request that keeps its number, while handlers put down its context. -/
theorem Inv.release (h : Inv s) {i : ℕ} {r : Request} {taken : List (ℕ × Response)}
    {broken : List ℕ} (hseq : r.seqNo = (s.request i).seqNo) (htaken : ∀ e ∈ taken, e ∈ s.taken)
    (hbroken : ∀ j ∈ broken, j ∈ s.broken)
    (hothers : ∀ j ≠ i, (taken.map Prod.fst).count j = s.inHand j ∧
      broken.count j = s.broken.count j)
    (hok : r.Ok (s.inMap i) ((taken.map Prod.fst).count i) (broken.count i) (i ∈ s.unwatched)) :
    Inv (State.put { s with taken := taken, broken := broken } i r) := by
  have hsame := seqNo_update hseq
  refine ⟨fun entry hentry => ?_, fun entry hentry => ?_, fun j hj => h.broken j (hbroken j hj),
    h.unwatched, fun j hj => ?_, fun j hj k hk hnumber => ?_, fun j hj => ?_⟩
  · obtain ⟨hlt, hkey⟩ := h.keys entry hentry
    exact ⟨hlt, hkey.trans (hsame _).symm⟩
  · obtain ⟨hlt, hown⟩ := h.taken entry (htaken entry hentry)
    exact ⟨hlt, hown.trans (hsame _).symm⟩
  · exact (hsame j).trans_lt (h.numbers j hj)
  · exact h.distinct j hj k hk (by rw [← hsame j, ← hsame k]; exact hnumber)
  · change (Function.update s.request i r j).Ok (s.inMap j) ((taken.map Prod.fst).count j)
      (broken.count j) (j ∈ s.unwatched)
    by_cases heq : j = i
    · rw [heq, Function.update_self]
      exact hok
    · rw [Function.update_of_ne heq, (hothers j heq).1, (hothers j heq).2]
      exact h.requests j hj

/-- A change of one request that keeps its number. -/
theorem Inv.put (h : Inv s) {i : ℕ} {r : Request} (hseq : r.seqNo = (s.request i).seqNo)
    (hok : r.Ok (s.inMap i) (s.inHand i) (s.broken.count i) (i ∈ s.unwatched)) :
    Inv (s.put i r) :=
  h.release hseq (fun _ => id) (fun _ => id) (fun _ _ => ⟨rfl, rfl⟩) hok

/-- What is found is in the map under that key. -/
theorem Inv.find_mem {key i : ℕ} (hfind : s.find key = some i) : (key, i) ∈ s.msgClientContext := by
  obtain ⟨entry, hentry, rfl⟩ := Option.map_eq_some_iff.mp hfind
  have hkey := List.find?_some hentry
  rw [decide_eq_true_eq] at hkey
  rw [← hkey]
  exact List.mem_of_find?_eq_some hentry

/-- A key that is not found is the key of no entry. -/
theorem Inv.find_none {key : ℕ} (hfind : s.find key = none) :
    ∀ entry ∈ s.msgClientContext, entry.1 ≠ key := by
  intro entry hentry heq
  rw [State.find, Option.map_eq_none_iff, List.find?_eq_none] at hfind
  exact hfind entry hentry (decide_eq_true heq)

/-- Erasing the number of a request takes out its context and no other. -/
theorem Inv.inMap_erase (h : Inv s) {i : ℕ} (hi : i < s.count) (j : ℕ) (hj : j < s.count) :
    (s.erase (s.request i).seqNo).inMap j = if j = i then 0 else s.inMap j := by
  unfold State.inMap State.erase
  split
  case isTrue heq =>
    subst heq
    rw [List.count_eq_zero]
    intro hmem
    obtain ⟨entry, hentry, hsnd⟩ := List.mem_map.mp hmem
    obtain ⟨hentry, hkey⟩ := List.mem_filter.mp hentry
    have hnumber := (h.keys entry hentry).2
    rw [hsnd] at hnumber
    exact (of_decide_eq_true hkey) hnumber
  case isFalse hne =>
    rw [List.count_eq_countP, List.countP_map, List.countP_filter, List.count_eq_countP,
      List.countP_map]
    refine List.countP_congr fun entry hentry => ?_
    obtain ⟨hlt, hnumber⟩ := h.keys entry hentry
    have hkeep : entry.2 = j → entry.1 ≠ (s.request i).seqNo := by
      intro heq hsame
      rw [hnumber, heq] at hsame
      exact hne (h.distinct j hj i hi hsame)
    simpa using hkeep

/-- A context leaves the map. -/
theorem Inv.erase (h : Inv s) {i : ℕ} (hi : i < s.count)
    (hok : (s.request i).Ok 0 (s.inHand i) (s.broken.count i) (i ∈ s.unwatched)) :
    Inv (s.erase (s.request i).seqNo) := by
  refine ⟨fun entry hentry => h.keys entry (List.mem_filter.mp hentry).1, h.taken, h.broken,
    h.unwatched, h.numbers, h.distinct, fun j hj => ?_⟩
  rw [h.inMap_erase hi j hj]
  split
  case isTrue heq =>
    rw [heq]
    exact hok
  case isFalse => exact h.requests j hj

/-! ## The steps -/

theorem Inv.otherClient (h : Inv s) : Inv { s with reqSeqGen := s.reqSeqGen + 1 } :=
  ⟨h.keys, h.taken, h.broken, h.unwatched, fun i hi => (h.numbers i hi).trans (Nat.lt_succ_self _),
    h.distinct, h.requests⟩

/-- A request that begins is in no place. -/
theorem Inv.nowhere (h : Inv s) : s.inMap s.count = 0 ∧ s.inHand s.count = 0 ∧
    s.broken.count s.count = 0 ∧ s.count ∉ s.unwatched := by
  refine ⟨List.count_eq_zero.mpr fun hmem => ?_, List.count_eq_zero.mpr fun hmem => ?_,
    List.count_eq_zero.mpr fun hmem => ?_, fun hmem => ?_⟩
  · obtain ⟨entry, hentry, heq⟩ := List.mem_map.mp hmem
    exact absurd (h.keys entry hentry).1 (by omega)
  · obtain ⟨entry, hentry, heq⟩ := List.mem_map.mp hmem
    exact absurd (h.taken entry hentry).1 (by omega)
  · exact absurd (h.broken _ hmem) (lt_irrefl _)
  · exact absurd (h.unwatched _ hmem) (lt_irrefl _)

/-- A new request has a number that no context has. -/
theorem Inv.beginRequest (h : Inv s) (kind : Kind) (hfew : s.reqSeqGen < 2 ^ 32) :
    Inv (s.beginRequest kind) := by
  have hword : s.reqSeqGen % 2 ^ 32 = s.reqSeqGen := Nat.mod_eq_of_lt hfew
  have hself : (s.beginRequest kind).request s.count =
      ⟨kind, s.reqSeqGen % 2 ^ 32, .numbered, false, none, []⟩ := Function.update_self ..
  have hother : ∀ i < s.count, (s.beginRequest kind).request i = s.request i :=
    fun i hi => Function.update_of_ne (by omega) ..
  have hcases : ∀ i < s.count + 1, i < s.count ∨ i = s.count := fun i hi => by omega
  refine ⟨fun entry hentry => ?_, fun entry hentry => ?_, fun i hi => (h.broken i hi).trans
    (Nat.lt_succ_self _), fun i hi => (h.unwatched i hi).trans (Nat.lt_succ_self _),
    fun i hi => ?_, fun i hi j hj hsame => ?_, fun i hi => ?_⟩
  · obtain ⟨hlt, hkey⟩ := h.keys entry hentry
    rw [hother _ hlt]
    exact ⟨hlt.trans (Nat.lt_succ_self _), hkey⟩
  · obtain ⟨hlt, hown⟩ := h.taken entry hentry
    rw [hother _ hlt]
    exact ⟨hlt.trans (Nat.lt_succ_self _), hown⟩
  · rcases hcases i hi with hi | rfl
    · rw [hother i hi]
      exact (h.numbers i hi).trans (Nat.lt_succ_self _)
    · rw [hself, hword]
      exact Nat.lt_succ_self _
  · rcases hcases i hi with hi | rfl
    · have hlt := h.numbers i hi
      rcases hcases j hj with hj | rfl
      · rw [hother i hi, hother j hj] at hsame
        exact h.distinct i hi j hj hsame
      · rw [hother i hi, hself, hword] at hsame
        exact absurd hsame hlt.ne
    · rcases hcases j hj with hj | rfl
      · have hlt := h.numbers j hj
        rw [hother j hj, hself, hword] at hsame
        exact absurd hsame.symm hlt.ne
      · rfl
  · rcases hcases i hi with hi | rfl
    · rw [hother i hi]
      exact h.requests i hi
    · obtain ⟨hmap, hhand, hbroken, hunwatched⟩ := h.nowhere
      have hmap' : (s.beginRequest kind).inMap s.count = 0 := hmap
      have hhand' : (s.beginRequest kind).inHand s.count = 0 := hhand
      have hbroken' : (s.beginRequest kind).broken.count s.count = 0 := hbroken
      rw [hself, hmap', hhand', hbroken', show (s.count ∈ (s.beginRequest kind).unwatched) = False
        from eq_false hunwatched]
      exact Request.ok_fresh kind _

/-- The context enters the map. -/
theorem Inv.register (h : Inv s) {i : ℕ} (hat : s.At i .numbered) : Inv (s.register i) := by
  obtain ⟨hi, hpc⟩ := hat
  have hok := h.requests i hi
  have hnowhere := (hok.fresh hpc).1
  -- the number of a request that has no context in the map is the key of no entry
  have hfree : (s.find (s.request i).seqNo).isSome = false := by
    rw [Option.isSome_eq_false_iff, Option.isNone_iff_eq_none]
    cases hfind : s.find (s.request i).seqNo with
    | none => rfl
    | some j =>
      have hmem := Inv.find_mem hfind
      obtain ⟨hj, hkey⟩ := h.keys _ hmem
      have hzero : s.inMap i = 0 := by omega
      have hin : i ∈ s.msgClientContext.map Prod.snd :=
        List.mem_map.mpr ⟨_, hmem, h.distinct j hj i hi hkey.symm⟩
      exact absurd hin (List.count_eq_zero.mp hzero)
  have hregistered := hok.register hpc
  unfold State.register
  rw [hfree, if_neg Bool.false_ne_true]
  have hsame : ∀ j, ((s.goto i .registered).request j).seqNo = (s.request j).seqNo := by
    intro j
    by_cases heq : j = i
    · rw [heq, State.goto, put_request_self]
    · rw [State.goto, put_request_of_ne s _ heq]
  refine ⟨fun entry hentry => ?_, fun entry hentry => ?_, h.broken, h.unwatched, fun j hj => ?_,
    fun j hj k hk hnumber => ?_, fun j hj => ?_⟩
  · rcases List.mem_append.mp hentry with hentry | hentry
    · obtain ⟨hlt, hkey⟩ := h.keys entry hentry
      exact ⟨hlt, by rw [hkey]; exact (hsame _).symm⟩
    · rw [List.mem_singleton.mp hentry]
      exact ⟨hi, (hsame i).symm⟩
  · obtain ⟨hlt, hown⟩ := h.taken entry hentry
    exact ⟨hlt, by rw [hown]; exact (hsame _).symm⟩
  · exact (hsame j).trans_lt (h.numbers j hj)
  · exact h.distinct j hj k hk (by rw [← hsame j, ← hsame k]; exact hnumber)
  · have hcount : ((s.msgClientContext ++ [((s.request i).seqNo, i)]).map Prod.snd).count j =
        s.inMap j + if i = j then 1 else 0 := by
      rw [List.map_append, List.count_append, List.map_singleton, List.count_singleton']
      rfl
    change ((s.goto i .registered).request j).Ok
      (((s.msgClientContext ++ [((s.request i).seqNo, i)]).map Prod.snd).count j) (s.inHand j)
      (s.broken.count j) (j ∈ s.unwatched)
    rw [hcount]
    by_cases heq : j = i
    · rw [heq, if_pos rfl, State.goto, put_request_self]
      exact hregistered
    · rw [if_neg (Ne.symm heq), State.goto, put_request_of_ne s _ heq]
      exact h.requests j hj

theorem Inv.goto (h : Inv s) {i : ℕ} {pc : Pc}
    (hok : ({ s.request i with pc := pc } : Request).Ok (s.inMap i) (s.inHand i) (s.broken.count i)
      (i ∈ s.unwatched)) : Inv (s.goto i pc) := h.put rfl hok

/-- The request has been sent, or the send has failed. -/
theorem Inv.sent (h : Inv s) {i : ℕ} (hat : s.At i .registered) (ok : Bool) : Inv (s.sent i ok) := by
  obtain ⟨hi, hpc⟩ := hat
  have hok := h.requests i hi
  unfold State.sent
  split
  case isTrue =>
    split
    case h_1 =>
      refine h.goto (hok.goto (fun hnew => by cases hnew) (fun hnew => ?_)
        (fun _ => Or.inr hpc) fun p hnew => by cases hnew)
      rcases hnew with ⟨_, hnew⟩ | hnew <;> cases hnew
    case h_2 =>
      refine h.goto (hok.goto (fun hnew => by cases hnew) (fun hnew => ?_)
        (fun _ => Or.inr hpc) fun p hnew => by cases hnew)
      rcases hnew with ⟨_, hnew⟩ | hnew <;> cases hnew
  case isFalse =>
    refine h.goto (hok.goto (fun hnew => by cases hnew) (fun hnew => ?_)
      (fun _ => Or.inr hpc) fun p hnew => by cases hnew)
    rcases hnew with ⟨_, hnew⟩ | hnew <;> cases hnew

/-- The context of a request leaves the map with its own call, which returns without a response. -/
theorem Inv.eraseGoto (h : Inv s) {i : ℕ} {pc : Pc} (hi : i < s.count)
    (hold : (s.request i).pc ≠ .waiting ∧ (s.request i).pc ≠ .registered)
    (hnew : pc = .returned none ∨ pc = .refused) :
    Inv ((s.erase (s.request i).seqNo).goto i pc) := by
  have hok := (h.requests i hi).drop hold
  have herase := h.erase hi hok
  refine herase.goto ?_
  have hzero : (s.erase (s.request i).seqNo).inMap i = 0 := by
    rw [h.inMap_erase hi i hi, if_pos rfl]
  rw [hzero]
  refine hok.goto (fun hpc => ?_) (fun _ => rfl) (fun hpc => ?_) fun p hpc => ?_
  · rcases hnew with hnew | hnew <;> rw [hnew] at hpc <;> cases hpc
  · rcases hnew with hnew | hnew <;> rw [hnew] at hpc <;> rcases hpc with hpc | hpc <;> cases hpc
  · rcases hnew with hnew | hnew <;> rw [hnew] at hpc <;> cases hpc

/-- A failed send takes its context back, if it is still there. -/
theorem Inv.eraseFailed (h : Inv s) {i : ℕ} (hat : s.At i .sendFailed) : Inv (s.eraseFailed i) := by
  obtain ⟨hi, hpc⟩ := hat
  have hold : (s.request i).pc ≠ .waiting ∧ (s.request i).pc ≠ .registered := by simp [hpc]
  unfold State.eraseFailed
  split
  case h_1 => exact h.eraseGoto hi hold (Or.inl rfl)
  case h_2 => exact h.eraseGoto hi hold (Or.inr rfl)

theorem Inv.eraseNull (h : Inv s) {i : ℕ} (hat : s.At i .gotNull) : Inv (s.eraseNull i) :=
  h.eraseGoto hat.1 (by simp [hat.2]) (Or.inl rfl)

/-- The context that stands under a key. -/
theorem Inv.find_some (h : Inv s) {key i : ℕ} (hfind : s.find key = some i) :
    i < s.count ∧ key = (s.request i).seqNo ∧ s.inMap i ≠ 0 := by
  have hmem := Inv.find_mem hfind
  refine ⟨(h.keys _ hmem).1, (h.keys _ hmem).2, fun hzero => ?_⟩
  exact List.count_eq_zero.mp hzero (List.mem_map_of_mem hmem)

/-- The handler takes the context of the response out of the map, if there is one. -/
theorem Inv.receive (h : Inv s) (response : Response) : Inv (s.receive response) := by
  unfold State.receive
  split
  case h_1 => exact h
  case h_2 i hfind =>
    obtain ⟨hi, hkey, hin⟩ := h.find_some hfind
    have hok := h.requests i hi
    have hone : s.inMap i = 1 := by have := hok.once; omega
    rw [hkey]
    refine ⟨fun entry hentry => h.keys entry (List.mem_filter.mp hentry).1, fun entry hentry => ?_,
      h.broken, h.unwatched, h.numbers, h.distinct, fun j hj => ?_⟩
    · rcases List.mem_append.mp hentry with hentry | hentry
      · exact h.taken entry hentry
      · rw [List.mem_singleton.mp hentry]
        exact ⟨hi, hkey⟩
    · have hhand : ((s.taken ++ [(i, response)]).map Prod.fst).count j =
          s.inHand j + if i = j then 1 else 0 := by
        rw [List.map_append, List.count_append, List.map_singleton, List.count_singleton']
        rfl
      change (s.request j).Ok ((s.erase (s.request i).seqNo).inMap j)
        (((s.taken ++ [(i, response)]).map Prod.fst).count j) (s.broken.count j) (j ∈ s.unwatched)
      rw [hhand, h.inMap_erase hi j hj]
      by_cases heq : j = i
      · rw [heq, if_pos rfl, if_pos rfl]
        exact hok.hand (by omega)
      · rw [if_neg heq, if_neg (Ne.symm heq)]
        exact h.requests j hj

/-- The handler takes all contexts out of the map. -/
theorem Inv.linkBroken (h : Inv s) : Inv s.linkBroken := by
  refine ⟨fun _ hentry => absurd hentry List.not_mem_nil, h.taken, fun i hi => ?_, h.unwatched,
    h.numbers, h.distinct, fun i hi => ?_⟩
  · rcases List.mem_append.mp hi with hi | hi
    · exact h.broken i hi
    · obtain ⟨entry, hentry, rfl⟩ := List.mem_map.mp hi
      exact (h.keys entry hentry).1
  · change (s.request i).Ok 0 (s.inHand i)
      ((s.broken ++ s.msgClientContext.map Prod.snd).count i) (i ∈ s.unwatched)
    rw [List.count_append]
    refine (h.requests i hi).hand ?_
    rw [State.inMap]
    omega

/-- A watch is taken out of the map, or is gone. -/
theorem Inv.unwatch (h : Inv s) (wid : ℕ) : Inv (s.unwatch wid) := by
  unfold State.unwatch
  split
  case h_1 => exact h
  case h_2 i hfind =>
    obtain ⟨hi, hkey, hin⟩ := h.find_some hfind
    split
    case h_1 => exact h
    case h_2 hkind =>
      have hok := h.requests i hi
      rw [hkey]
      refine ⟨fun entry hentry => h.keys entry (List.mem_filter.mp hentry).1, h.taken, h.broken,
        fun j hj => ?_, h.numbers, h.distinct, fun j hj => ?_⟩
      · rcases List.mem_cons.mp hj with rfl | hj
        · exact hi
        · exact h.unwatched j hj
      · change (s.request j).Ok ((s.erase (s.request i).seqNo).inMap j) (s.inHand j)
          (s.broken.count j) (j ∈ i :: s.unwatched)
        rw [h.inMap_erase hi j hj]
        by_cases heq : j = i
        · rw [heq, if_pos rfl, show (i ∈ i :: s.unwatched) = True from eq_true List.mem_cons_self]
          exact hok.unwatch hin hkind
        · rw [if_neg heq, show (j ∈ i :: s.unwatched) = (j ∈ s.unwatched) by simp [heq]]
          exact h.requests j hj

/-- A handler has one context less in its hands. -/
theorem count_map_erase {α : Type} [BEq α] [LawfulBEq α] {f : α → ℕ} {l : List α} {a : α} (h : a ∈ l)
    (j : ℕ) : (l.map f).count j = ((l.erase a).map f).count j + if f a = j then 1 else 0 := by
  rw [((List.perm_cons_erase h).map f).count_eq, List.map_cons, List.count_cons]
  simp only [beq_iff_eq]

/-- The handler gives a context its response. -/
theorem Inv.setFinished (h : Inv s) {i : ℕ} {response : Response}
    (htaken : (i, response) ∈ s.taken) : Inv (s.setFinished i response) := by
  have hentry := h.taken _ htaken
  have hi : i < s.count := hentry.1
  have hown : ∀ p, some response = some p → p.seqNo = (s.request i).seqNo := by
    intro p hp
    rw [← Option.some.inj hp]
    exact hentry.2
  have hcount := fun j => count_map_erase (f := Prod.fst) htaken j
  have hsum : s.inMap i + s.inHand i + s.broken.count i = s.inMap i +
      ((s.taken.erase (i, response)).map Prod.fst).count i + s.broken.count i + 1 := by
    have hone := hcount i
    rw [if_pos rfl] at hone
    rw [State.inHand, hone]
    omega
  have hothers : ∀ j ≠ i, ((s.taken.erase (i, response)).map Prod.fst).count j = s.inHand j ∧
      s.broken.count j = s.broken.count j := by
    intro j hne
    have hsame := hcount j
    rw [if_neg (Ne.symm hne), Nat.add_zero] at hsame
    exact ⟨hsame.symm, rfl⟩
  have hmem : ∀ e ∈ s.taken.erase (i, response), e ∈ s.taken := fun _ => List.mem_of_mem_erase
  unfold State.setFinished
  split
  case h_1 timeoutMs hkind =>
    have hblocking : (s.request i).kind ≠ .watch := by simp [hkind]
    exact h.release rfl hmem (fun _ => id) hothers
      ((h.requests i hi).finish hsum hblocking hown)
  case h_2 hkind =>
    exact h.release rfl hmem (fun _ => id) hothers ((h.requests i hi).notify hsum hown hkind)

/-- The handler tells a context that the link is broken. -/
theorem Inv.setFailedFinish (h : Inv s) {i : ℕ} (hbroken : i ∈ s.broken) :
    Inv (s.setFailedFinish i) := by
  have hi := h.broken i hbroken
  have hown : ∀ p : Response, none = some p → p.seqNo = (s.request i).seqNo :=
    fun p hp => by cases hp
  have hcount : ∀ j, s.broken.count j = (s.broken.erase i).count j + if i = j then 1 else 0 := by
    intro j
    have hperm := count_map_erase (f := id) hbroken j
    rwa [List.map_id, List.map_id] at hperm
  have hsum : s.inMap i + s.inHand i + s.broken.count i = s.inMap i + s.inHand i +
      (s.broken.erase i).count i + 1 := by
    have hone := hcount i
    rw [if_pos rfl] at hone
    omega
  have hothers : ∀ j ≠ i, (s.taken.map Prod.fst).count j = s.inHand j ∧
      (s.broken.erase i).count j = s.broken.count j := by
    intro j hne
    have hsame := hcount j
    rw [if_neg (Ne.symm hne), Nat.add_zero] at hsame
    exact ⟨rfl, hsame.symm⟩
  have hmem : ∀ j ∈ s.broken.erase i, j ∈ s.broken := fun _ => List.mem_of_mem_erase
  unfold State.setFailedFinish
  split
  case h_1 timeoutMs hkind =>
    have hblocking : (s.request i).kind ≠ .watch := by simp [hkind]
    exact h.release rfl (fun _ => id) hmem hothers
      ((h.requests i hi).finish hsum hblocking hown)
  case h_2 hkind =>
    exact h.release rfl (fun _ => id) hmem hothers ((h.requests i hi).notify hsum hown hkind)

/-- A waiting call sees that it is finished. -/
theorem Inv.wakeUp (h : Inv s) {i : ℕ} (hat : s.At i .waiting) : Inv (s.wakeUp i) := by
  have hok := h.requests i hat.1
  unfold State.wakeUp
  split
  case h_1 =>
    refine h.goto (hok.goto (fun hnew => by cases hnew) (fun hnew => ?_) (fun hnew => ?_)
      fun p hnew => by cases hnew)
    · rcases hnew with ⟨_, hnew⟩ | hnew <;> cases hnew
    · rcases hnew with hnew | hnew <;> cases hnew
  case h_2 response hresponse =>
    -- the handler took the context out of the map before it stored the response
    have hgone := hok.answered (by simp [hresponse])
    refine h.goto (hok.goto (fun hnew => by cases hnew) (fun _ => by omega) (fun hnew => ?_)
      fun p hnew => ?_)
    · rcases hnew with hnew | hnew <;> cases hnew
    · rw [← Option.some.inj (Pc.returned.inj hnew)]
      exact hok.response response hresponse

theorem Inv.timeout (h : Inv s) {i : ℕ} (hat : s.At i .waiting) : Inv (s.timeout i) :=
  h.put rfl (h.requests i hat.1).timeout

theorem of_guard {P : Prop} [Decidable P] {next s' : State}
    (h : (if P then some next else none) = some s') : P ∧ next = s' := by
  rwa [Option.ite_none_right_eq_some, Option.some.injEq] at h

/-- Every event keeps the invariant as long as the numbers are not used up. -/
theorem Inv.step {s' : State} {e : Event} (h : Inv s) (hfew : s'.reqSeqGen ≤ 2 ^ 32)
    (hstep : step s e = some s') : Inv s' := by
  cases e with
  | otherClient =>
    rw [← Option.some.inj hstep]
    exact h.otherClient
  | begin kind =>
    rw [← Option.some.inj hstep] at hfew ⊢
    exact h.beginRequest kind hfew
  | register i =>
    obtain ⟨hat, rfl⟩ := of_guard hstep
    exact h.register hat
  | send i ok =>
    obtain ⟨hat, rfl⟩ := of_guard hstep
    exact h.sent hat ok
  | eraseFailed i =>
    obtain ⟨hat, rfl⟩ := of_guard hstep
    exact h.eraseFailed hat
  | receive response =>
    rw [← Option.some.inj hstep]
    exact h.receive response
  | setFinished i response =>
    obtain ⟨htaken, rfl⟩ := of_guard hstep
    exact h.setFinished htaken
  | linkBroken =>
    rw [← Option.some.inj hstep]
    exact h.linkBroken
  | setFailedFinish i =>
    obtain ⟨hbroken, rfl⟩ := of_guard hstep
    exact h.setFailedFinish hbroken
  | wakeUp i =>
    obtain ⟨hat, rfl⟩ := of_guard hstep
    exact h.wakeUp hat.1
  | timeout i =>
    obtain ⟨hat, rfl⟩ := of_guard hstep
    exact h.timeout hat.1
  | eraseNull i =>
    obtain ⟨hat, rfl⟩ := of_guard hstep
    exact h.eraseNull hat
  | unwatch wid =>
    rw [← Option.some.inj hstep]
    exact h.unwatch wid

/-! ## What no event undoes -/

/-- The request has its answer: a blocking one is finished, a watch notified. -/
def Request.Settled (r : Request) : Prop :=
  (r.kind ≠ .watch ∧ r.finished = true) ∨ r.notices ≠ []

/-- What becomes of a request that has been registered: it does not enter the map again, and a
request that a handler of a broken link has, or that is settled, remains so. -/
structure Onward (s s' : State) (i : ℕ) : Prop where
  lt : i < s'.count
  pc : (s'.request i).pc ≠ .numbered
  inMap : s'.inMap i ≤ s.inMap i
  settled : i ∈ s.broken ∨ (s.request i).Settled → i ∈ s'.broken ∨ (s'.request i).Settled

/-- A change of one request that takes nothing back. -/
theorem Onward.put {i : ℕ} (hi : i < s.count) (hpc : (s.request i).pc ≠ .numbered) {j : ℕ}
    {r : Request} {taken : List (ℕ × Response)} {broken : List ℕ}
    (hnew : i = j → r.pc ≠ .numbered)
    (hsettled : i = j → i ∈ s.broken ∨ (s.request i).Settled → i ∈ broken ∨ r.Settled)
    (hbroken : i ≠ j → i ∈ s.broken → i ∈ broken) :
    Onward s (State.put { s with taken := taken, broken := broken } j r) i := by
  have hrequest : ((State.put { s with taken := taken, broken := broken } j r).request i) =
      if i = j then r else s.request i := Function.update_apply ..
  refine ⟨hi, ?_, le_refl _, ?_⟩
  · rw [hrequest]
    split
    case isTrue heq => exact hnew heq
    case isFalse => exact hpc
  · rw [hrequest]
    split
    case isTrue heq => exact hsettled heq
    case isFalse hne => exact fun hold => hold.imp (hbroken hne) id

/-- A context less in the map. -/
theorem Onward.erase {s' : State} {i : ℕ} (key : ℕ) (h : Onward (s.erase key) s' i) :
    Onward s s' i := by
  refine ⟨h.lt, h.pc, h.inMap.trans ?_, h.settled⟩
  exact ((List.filter_sublist).map Prod.snd).count_le i

theorem Onward.goto {i : ℕ} (hi : i < s.count) (hpc : (s.request i).pc ≠ .numbered) {j : ℕ}
    {pc : Pc} (hnew : pc ≠ .numbered) : Onward s (s.goto j pc) i :=
  Onward.put hi hpc (fun _ => hnew) (fun heq => by subst heq; exact id) fun _ => id

/-- The call of a request erases its context and returns. -/
theorem Onward.eraseGoto {i : ℕ} (hi : i < s.count) (hpc : (s.request i).pc ≠ .numbered)
    (key : ℕ) {j : ℕ} {pc : Pc} (hnew : pc ≠ .numbered) :
    Onward s ((s.erase key).goto j pc) i :=
  Onward.erase key (Onward.goto (s := s.erase key) hi hpc hnew)

theorem Onward.refl {i : ℕ} (hi : i < s.count) (hpc : (s.request i).pc ≠ .numbered) :
    Onward s s i := ⟨hi, hpc, le_refl _, id⟩

/-- A new request is not one that was registered. -/
theorem Onward.beginRequest {i : ℕ} (hi : i < s.count) (hpc : (s.request i).pc ≠ .numbered)
    (kind : Kind) : Onward s (s.beginRequest kind) i := by
  have hsame : (s.beginRequest kind).request i = s.request i := Function.update_of_ne (by omega) ..
  refine ⟨hi.trans (Nat.lt_succ_self _), ?_, le_refl _, ?_⟩
  · rwa [hsame]
  · rw [hsame]
    exact id

/-- A registration is that of a request not registered before. -/
theorem Onward.register {i : ℕ} (hi : i < s.count) (hpc : (s.request i).pc ≠ .numbered) {j : ℕ}
    (hat : s.At j .numbered) : Onward s (s.register j) i := by
  have hgoto : Onward s (s.goto j .registered) i := Onward.goto hi hpc (by simp)
  have hne : j ≠ i := fun heq => hpc (heq ▸ hat.2)
  unfold State.register
  split
  case isTrue => exact hgoto
  case isFalse =>
    refine ⟨hgoto.lt, hgoto.pc, ?_, hgoto.settled⟩
    change ((s.msgClientContext ++ [((s.request j).seqNo, j)]).map Prod.snd).count i ≤ s.inMap i
    rw [List.map_append, List.count_append, List.map_singleton, List.count_singleton',
      if_neg hne, Nat.add_zero]
    exact le_refl _

/-- No step brings the context of a registered request back into the map. -/
theorem Onward.step {s' : State} {e : Event} {i : ℕ} (hi : i < s.count)
    (hpc : (s.request i).pc ≠ .numbered) (hstep : step s e = some s') : Onward s s' i := by
  cases e with
  | otherClient =>
    rw [← Option.some.inj hstep]
    exact ⟨hi, hpc, le_refl _, id⟩
  | begin kind =>
    rw [← Option.some.inj hstep]
    exact Onward.beginRequest hi hpc kind
  | register j =>
    obtain ⟨hat, rfl⟩ := of_guard hstep
    exact Onward.register hi hpc hat
  | send j ok =>
    obtain ⟨_, rfl⟩ := of_guard hstep
    unfold State.sent
    split
    · split <;> exact Onward.goto hi hpc (by simp)
    · exact Onward.goto hi hpc (by simp)
  | eraseFailed j =>
    obtain ⟨_, rfl⟩ := of_guard hstep
    unfold State.eraseFailed
    split <;> exact Onward.eraseGoto hi hpc _ (by simp)
  | receive response =>
    rw [← Option.some.inj hstep]
    unfold State.receive
    split
    · exact Onward.refl hi hpc
    · exact Onward.erase response.seqNo ⟨hi, hpc, le_refl _, id⟩
  | setFinished j response =>
    obtain ⟨_, rfl⟩ := of_guard hstep
    unfold State.setFinished
    split
    case h_1 timeoutMs hkind =>
      refine Onward.put hi hpc (fun heq => heq ▸ hpc) (fun heq _ => Or.inr (Or.inl ⟨?_, rfl⟩))
        fun _ => id
      simp [hkind]
    case h_2 =>
      exact Onward.put hi hpc (fun heq => heq ▸ hpc) (fun _ _ => Or.inr (Or.inr (by simp)))
        fun _ => id
  | linkBroken =>
    rw [← Option.some.inj hstep]
    exact ⟨hi, hpc, Nat.zero_le _, fun hold => hold.imp (List.mem_append_left _) id⟩
  | setFailedFinish j =>
    obtain ⟨_, rfl⟩ := of_guard hstep
    have hothers : i ≠ j → i ∈ s.broken → i ∈ s.broken.erase j :=
      fun hne hold => (List.mem_erase_of_ne hne).mpr hold
    unfold State.setFailedFinish
    split
    case h_1 timeoutMs hkind =>
      refine Onward.put hi hpc (fun heq => heq ▸ hpc) (fun _ _ => Or.inr (Or.inl ⟨?_, rfl⟩)) hothers
      simp [hkind]
    case h_2 =>
      exact Onward.put hi hpc (fun heq => heq ▸ hpc) (fun _ _ => Or.inr (Or.inr (by simp))) hothers
  | wakeUp j =>
    obtain ⟨_, rfl⟩ := of_guard hstep
    unfold State.wakeUp
    split <;> exact Onward.goto hi hpc (by simp)
  | timeout j =>
    obtain ⟨⟨_, hwait⟩, rfl⟩ := of_guard hstep
    refine Onward.put hi hpc (fun _ => by simp) (fun _ _ => Or.inr (Or.inl ⟨?_, rfl⟩)) fun _ => id
    -- only a blocking request has a timeout
    intro hwatch
    rw [State.timesOut, hwatch] at hwait
    cases hwait
  | eraseNull j =>
    obtain ⟨_, rfl⟩ := of_guard hstep
    exact Onward.eraseGoto hi hpc _ (by simp)
  | unwatch wid =>
    rw [← Option.some.inj hstep]
    unfold State.unwatch
    split
    · exact Onward.refl hi hpc
    · split
      · exact Onward.refl hi hpc
      · exact Onward.erase wid ⟨hi, hpc, le_refl _, id⟩

end Steps

/-! ## Whole runs -/

/-- No event gives a number back. -/
theorem reqSeqGen_le {s s' : State} {e : Event} (hstep : step s e = some s') :
    s.reqSeqGen ≤ s'.reqSeqGen := by
  cases e with
  | otherClient =>
    rw [← Option.some.inj hstep]
    exact Nat.le_succ _
  | begin kind =>
    rw [← Option.some.inj hstep]
    exact Nat.le_succ _
  -- no other event touches the counter
  | register i =>
    obtain ⟨_, rfl⟩ := of_guard hstep
    unfold State.register
    split <;> exact le_refl _
  | send i ok =>
    obtain ⟨_, rfl⟩ := of_guard hstep
    unfold State.sent
    split
    · split <;> exact le_refl _
    · exact le_refl _
  | eraseFailed i =>
    obtain ⟨_, rfl⟩ := of_guard hstep
    unfold State.eraseFailed
    split <;> exact le_refl _
  | receive response =>
    rw [← Option.some.inj hstep]
    unfold State.receive
    split <;> exact le_refl _
  | setFinished i response =>
    obtain ⟨_, rfl⟩ := of_guard hstep
    unfold State.setFinished
    split <;> exact le_refl _
  | linkBroken =>
    rw [← Option.some.inj hstep]
    exact le_refl _
  | setFailedFinish i =>
    obtain ⟨_, rfl⟩ := of_guard hstep
    unfold State.setFailedFinish
    split <;> exact le_refl _
  | wakeUp i =>
    obtain ⟨_, rfl⟩ := of_guard hstep
    unfold State.wakeUp
    split <;> exact le_refl _
  | timeout i =>
    obtain ⟨_, rfl⟩ := of_guard hstep
    exact le_refl _
  | eraseNull i =>
    obtain ⟨_, rfl⟩ := of_guard hstep
    exact le_refl _
  | unwatch wid =>
    rw [← Option.some.inj hstep]
    unfold State.unwatch
    split
    · exact le_refl _
    · split <;> exact le_refl _

/-- Every run within 2^32 numbers keeps the invariant. -/
theorem Inv.run {s s' : State} {es : List Event} (h : Inv s)
    (hrun : runEvents Client.step s es = some s') (hfew : s'.reqSeqGen ≤ 2 ^ 32) : Inv s' := by
  induction es generalizing s with
  | nil =>
    cases hrun
    exact h
  | cons e es ih =>
    obtain ⟨mid, hmid, hrest⟩ := runEvents_cons.mp hrun
    have hle : mid.reqSeqGen ≤ s'.reqSeqGen :=
      stays_runEvents (P := fun t => mid.reqSeqGen ≤ t.reqSeqGen)
        (fun _ _ _ ht hstep => ht.trans (reqSeqGen_le hstep)) (le_refl _) hrest
    exact ih (h.step (hle.trans hfew) hmid) hrest

/-- What a client promises its callers. -/
structure Matched (s : State) : Prop where
  /-- a call returns its own response or none -/
  own : ∀ i response, s.At i (.returned (some response)) → response.seqNo = (s.request i).seqNo
  /-- a call that has returned, or was refused, left no context behind -/
  cleaned : ∀ i, ((∃ response, s.At i (.returned response)) ∨ s.At i .refused) →
    ∀ key, (key, i) ∉ s.msgClientContext
  /-- a watch is notified at most once, with its own response or none -/
  notified : ∀ i < s.count, (s.request i).notices.length ≤ 1 ∧
    ∀ response, some response ∈ (s.request i).notices → response.seqNo = (s.request i).seqNo
  /-- a watch for which `Unwatch` has returned `SM_OK` is not notified, and nobody has its context -/
  unwatched : ∀ i ∈ s.unwatched, (s.request i).notices = [] ∧ s.inMap i = 0 ∧ s.inHand i = 0 ∧
    i ∉ s.broken
  /-- a caller waits only for a context that can still be finished, or is -/
  awaited : ∀ i, s.At i .waiting → (s.request i).kind ≠ .watch → (s.request i).finished = true ∨
    s.inMap i ≠ 0 ∨ s.inHand i ≠ 0 ∨ i ∈ s.broken

/-- The requests of a client meet their responses, in every interleaving of its callers, the
responses (late, repeated or unknown ones too), broken links, timeouts and `Unwatch`, as long as the
process has sent at most `2 ^ 32` requests. -/
theorem client_requests_matched {es : List Event} {s : State} (hrun : run es = some s)
    (hfew : s.reqSeqGen ≤ 2 ^ 32) : Matched s := by
  have h := inv_init.run hrun hfew
  refine ⟨fun i response hat => ?_, fun i hgone key hmem => ?_, fun i hi => ?_, fun i hi => ?_,
    fun i hat hkind => ?_⟩
  · exact (h.requests i hat.1).returned response hat.2
  · have hi : i < s.count := hgone.elim (fun ⟨_, hat⟩ => hat.1) fun hat => hat.1
    have hzero := (h.requests i hi).left (hgone.imp (fun ⟨response, hat⟩ => ⟨response, hat.2⟩)
      fun hat => hat.2)
    exact List.count_eq_zero.mp hzero (List.mem_map.mpr ⟨_, hmem, rfl⟩)
  · exact ⟨(h.requests i hi).notifiedOnce, (h.requests i hi).notices⟩
  · obtain ⟨hzero, hnotices, _⟩ := (h.requests i (h.unwatched i hi)).unwatched hi
    exact ⟨hnotices, by omega, by omega, List.count_eq_zero.mp (by omega)⟩
  · refine ((h.requests i hat.1).awaited (Or.inl hat.2) hkind).imp id fun hheld => ?_
    by_cases hbroken : i ∈ s.broken
    · exact Or.inr (Or.inr hbroken)
    · rw [List.count_eq_zero.mpr hbroken] at hheld
      omega

/-- A late response, a lost link and a watch that is dropped, after 2 requests. -/
def sampleRun : List Event :=
  [.begin (.blocking 1000), .begin .watch, .register 0, .register 1, .send 0 true, .send 1 true,
    .unwatch 1, .receive ⟨0, 0, []⟩, .timeout 0, .linkBroken, .setFinished 0 ⟨0, 0, []⟩, .eraseNull 0]

/-- Two calls and a watch, answered in another order. -/
theorem client_requests_matched_sample : ∃ s, run sampleRun = some s ∧ Matched s := by
  obtain ⟨s, hs⟩ := Option.isSome_iff_exists.mp
    (show (run sampleRun).isSome = true by decide +kernel)
  have hfew : (run sampleRun).all (fun s => s.reqSeqGen ≤ 2 ^ 32) = true := by decide +kernel
  rw [hs] at hfew
  exact ⟨s, hs, client_requests_matched hs (of_decide_eq_true hfew)⟩

/-- No run brings the context of a registered request back into the map. -/
theorem Onward.run {s s' : State} {es : List Event} {i : ℕ} (hi : i < s.count)
    (hpc : (s.request i).pc ≠ .numbered) (hrun : runEvents Client.step s es = some s') :
    Onward s s' i := by
  refine stays_runEvents (P := fun t => Onward s t i) (fun t e t' ht hstep => ?_)
    (Onward.refl hi hpc) hrun
  have hnext := Onward.step ht.lt ht.pc hstep
  exact ⟨hnext.lt, hnext.pc, hnext.inMap.trans ht.inMap, fun hold => hnext.settled (ht.settled hold)⟩

/-- A broken link releases every request that was registered before it: its context never stands in
the map again, a handler has it or it is answered, and when the handlers are through, no call that
was registered before still waits. -/
theorem link_broken_releases {before after : List Event} {s s' : State}
    (hbefore : run before = some s) (hafter : runEvents step s.linkBroken after = some s')
    (hfew : s'.reqSeqGen ≤ 2 ^ 32) {i : ℕ} (hi : i < s.count)
    (hregistered : (s.request i).pc ≠ .numbered) :
    (∀ key, (key, i) ∉ s'.msgClientContext) ∧
    (s.inMap i ≠ 0 → i ∈ s'.broken ∨ (s'.request i).Settled) ∧
    (s'.taken = [] → s'.broken = [] → s'.At i .waiting → (s'.request i).kind ≠ .watch →
      (s'.request i).finished = true) := by
  have hrun : run (before ++ Event.linkBroken :: after) = some s' :=
    runEvents_append.mpr ⟨s, hbefore, runEvents_cons.mpr ⟨s.linkBroken, rfl, hafter⟩⟩
  have h := inv_init.run hrun hfew
  have honward := Onward.run (s := s.linkBroken) hi hregistered hafter
  have hout : s'.inMap i = 0 := Nat.le_zero.mp honward.inMap
  refine ⟨fun key hmem => ?_, fun hin => honward.settled (Or.inl ?_), fun htaken hbroken hat hkind => ?_⟩
  · exact List.count_eq_zero.mp hout (List.mem_map.mpr ⟨_, hmem, rfl⟩)
  · exact List.mem_append_right _ (List.count_pos_iff.mp (Nat.pos_of_ne_zero hin))
  · refine ((h.requests i hat.1).awaited (Or.inl hat.2) hkind).resolve_right fun hheld => ?_
    rw [hout, State.inHand, htaken, hbroken] at hheld
    simp at hheld

/-- A call that waits when the link breaks. -/
theorem link_broken_releases_sample : ∃ s s', run (sampleRun.take 6) = some s ∧
    runEvents step s.linkBroken [.setFailedFinish 0, .setFailedFinish 1] = some s' ∧
    (∀ key, (key, 0) ∉ s'.msgClientContext) ∧
    (s.inMap 0 ≠ 0 → 0 ∈ s'.broken ∨ (s'.request 0).Settled) ∧
    (s'.taken = [] → s'.broken = [] → s'.At 0 .waiting → (s'.request 0).kind ≠ .watch →
      (s'.request 0).finished = true) := by
  obtain ⟨s, hs⟩ := Option.isSome_iff_exists.mp
    (show (run (sampleRun.take 6)).isSome = true by decide +kernel)
  have hregistered : (run (sampleRun.take 6)).all (fun s => 0 < s.count ∧
      (s.request 0).pc ≠ .numbered) = true := by decide +kernel
  have hafter : (run (sampleRun.take 6)).all (fun s => (runEvents step s.linkBroken
      [.setFailedFinish 0, .setFailedFinish 1]).any fun s' => s'.reqSeqGen ≤ 2 ^ 32) = true := by
    decide +kernel
  rw [hs] at hregistered hafter
  obtain ⟨s', hs', hfew⟩ := (Option.any_eq_true _ _).mp hafter
  obtain ⟨hi, hpc⟩ := of_decide_eq_true hregistered
  exact ⟨s, s', hs, hs', link_broken_releases hs hs' (of_decide_eq_true hfew) hi hpc⟩

end AscendShmem.ConfigStore.Client
