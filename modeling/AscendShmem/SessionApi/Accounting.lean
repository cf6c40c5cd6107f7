import Mathlib
import AscendShmem.Lib.Ledger
import AscendShmem.SessionApi.Calls

/-!
# What a session counts

The counter of a session is the number of live handles that carry its id. A dispatch makes a handle
live that was not, a combine or a release takes one that is; every other call, and every call that
fails, leaves all objects as they are.
-/

namespace AscendShmem.SessionApi

open Lib

/-- The live handles. -/
def Store.liveHandles (m : Store) : Set ℕ := {b | (m.batches b).live = true}

/-- The live handles a session has issued. -/
def Store.issued (m : Store) (s : ℕ) : Set ℕ :=
  {b | (m.batches b).live = true ∧ (m.batches b).sessionId = (m.sessions s).config.sessionId}

/-- What holds in every store a sequence of calls leads to. -/
structure Store.Sound (m : Store) : Prop where
  distinct : ∀ s t, (m.sessions s).initialized = true → (m.sessions t).initialized = true →
    (m.sessions s).config.sessionId = (m.sessions t).config.sessionId → s = t
  finite : m.liveHandles.Finite
  owned : ∀ b, (m.batches b).live = true → ∃ s, (m.sessions s).initialized = true ∧
    b ∈ m.issued s
  counted : ∀ s, (m.sessions s).initialized = true →
    (m.sessions s).liveBatches.toNat = (m.issued s).ncard
  idle : ∀ s, ¬ (m.sessions s).initialized = true → (m.sessions s).liveBatches = 0

/-! ## What a call does -/

/-- A dispatch that gets through. -/
structure Issues (m : Store) (s b : ℕ) (m' : Store) : Prop where
  initialized : (m.sessions s).initialized = true
  free : ¬ (m.batches b).live = true
  sessions : m'.sessions = Function.update m.sessions s
    { m.sessions s with liveBatches := (m.sessions s).liveBatches + 1 }
  batches : ∃ handle : BatchHandle, handle.live = true ∧
    handle.sessionId = (m.sessions s).config.sessionId ∧
    m'.batches = Function.update m.batches b handle

/-- A combine or a release that gets through. -/
structure Consumes (m : Store) (s b : ℕ) (m' : Store) : Prop where
  initialized : (m.sessions s).initialized = true
  issued : b ∈ m.issued s
  sessions : m'.sessions = Function.update m.sessions s
    { m.sessions s with liveBatches := (m.sessions s).liveBatches - 1 }
  batches : m'.batches = Function.update m.batches b { m.batches b with live := false }

/-- How a call ends in a sound store. -/
inductive Outcome (m : Store) (reply : Reply) : Call → Status × Store → Prop
  | unchanged {call : Call} {status : Status} (hcode : status.code ≠ .ok)
      (hbackend : status.code = .backendError → reply.code = .backendError) :
      Outcome m reply call (status, m)
  | created {a : CreateArgs} {s : ℕ} {session : SingleIncSession} (hs : a.session = some s)
      (hfresh : ¬ (m.sessions s).initialized = true) (hinit : session.initialized = true)
      (hid : session.config = a.config)
      (hcount : session.liveBatches = (m.sessions s).liveBatches) :
      Outcome m reply (.create a)
        (makeStatus .ok, { m with sessions := Function.update m.sessions s session })
  | destroyed {s : ℕ} (hinit : (m.sessions s).initialized = true)
      (hzero : (m.sessions s).liveBatches = 0) :
      Outcome m reply (.destroy (some s))
        (makeStatus .ok, { m with sessions := Function.update m.sessions s {} })
  | dispatched {a : DispatchArgs} {s b : ℕ} {m' : Store} (hs : a.session = some s)
      (hb : a.batch = some b) (h : Issues m s b m') :
      Outcome m reply (.dispatch a) (makeStatus .ok, m')
  | combined {a : CombineArgs} {s b : ℕ} {m' : Store} (hs : a.session = some s)
      (hb : a.batch = some b) (h : Consumes m s b m') :
      Outcome m reply (.combine a) (makeStatus .ok, m')
  | released {s b : ℕ} {m' : Store} (h : Consumes m s b m') :
      Outcome m reply (.release (some s) (some b)) (makeStatus .ok, m')

section Calls

variable {m : Store} {reply : Reply}

theorem Outcome.refused {call : Call} {code : StatusCode} (hcode : code ≠ .ok)
    (hbackend : code ≠ .backendError) : Outcome m reply call (makeStatus code, m) :=
  .unchanged hcode fun h => absurd h hbackend

theorem Outcome.failed {call : Call} (hcode : reply.code ≠ .ok) :
    Outcome m reply call (makeStatus reply.code, m) :=
  .unchanged hcode id

/-- What creating a session can do. -/
theorem singleIncCreate_outcome (a : CreateArgs) :
    Outcome m reply (.create a) (singleIncCreate m a reply) := by
  unfold singleIncCreate
  split
  · exact .refused (by decide) (by decide)
  rename_i s hs
  split
  · exact .refused (by decide) (by decide)
  rename_i hchecks
  split
  · rename_i hcode
    exact .failed hcode
  · exact .created hs (fun hinit => hchecks (Or.inl hinit)) rfl rfl rfl

/-- What destroying a session can do. -/
theorem singleIncDestroy_outcome (session : Pointer) :
    Outcome m reply (.destroy session) (singleIncDestroy m session reply) := by
  unfold singleIncDestroy
  split
  · exact .refused (by decide) (by decide)
  split
  · exact .refused (by decide) (by decide)
  rename_i hinit
  split
  · exact .refused (by decide) (by decide)
  rename_i hzero
  split
  · rename_i hcode
    exact .failed hcode
  · exact .destroyed (not_not.mp hinit) (not_not.mp hzero)

/-- How the buffers of a dispatch are refused. -/
theorem checkDispatchBuffers_code {session : SingleIncSession} {dtype : DataType}
    {input : Option DispatchInput} {output : Option DispatchOutput} {code : StatusCode}
    (h : checkDispatchBuffers session dtype input output = some code) :
    code = .invalidArgument ∨ code = .capacityExceeded := by
  unfold checkDispatchBuffers at h
  split at h
  · split at h
    · split at h
      · exact Or.inl (Option.some.inj h).symm
      split at h
      · exact Or.inl (Option.some.inj h).symm
      simp only at h
      split at h
      · exact Or.inr (Option.some.inj h).symm
      · cases h
    · exact Or.inl (Option.some.inj h).symm
  · split at h
    · exact Or.inl (Option.some.inj h).symm
    · cases h

/-- How the buffers of a combine are refused. -/
theorem checkCombineBuffers_code {session : SingleIncSession} {input : Option CombineInput}
    {output : Option CombineOutput} {code : StatusCode}
    (h : checkCombineBuffers session input output = some code) : code = .invalidArgument := by
  unfold checkCombineBuffers at h
  split at h
  · split at h
    · split at h
      · exact (Option.some.inj h).symm
      · cases h
    · exact (Option.some.inj h).symm
  · split at h
    · exact (Option.some.inj h).symm
    · cases h

/-- What a dispatch can do. -/
theorem dispatchAsync_outcome (a : DispatchArgs) :
    Outcome m reply (.dispatch a) (dispatchAsync m a reply) := by
  unfold dispatchAsync
  split
  swap
  · exact .refused (by decide) (by decide)
  rename_i s b c hs hb hc
  simp only
  split
  · exact .refused (by decide) (by decide)
  rename_i hchecks
  split
  · rename_i code hcode
    rcases checkDispatchBuffers_code hcode with hinvalid | hcapacity
    · rw [hinvalid]
      exact .refused (by decide) (by decide)
    · rw [hcapacity]
      exact .refused (by decide) (by decide)
  split
  · rename_i hcode
    exact .failed hcode
  · simp only [not_or, not_not] at hchecks
    exact .dispatched hs hb ⟨hchecks.1, hchecks.2.1, rfl, _, rfl, rfl, rfl⟩

/-- Behind a handle the session has issued, its counter is not zero. -/
theorem Store.Sound.liveBatches_ne_zero (h : m.Sound) {s b : ℕ}
    (hs : (m.sessions s).initialized = true) (hb : b ∈ m.issued s) :
    (m.sessions s).liveBatches ≠ 0 := by
  intro hzero
  have hcount := h.counted s hs
  rw [hzero] at hcount
  have hfinite : (m.issued s).Finite := h.finite.subset fun b hb => hb.1
  have hempty := (Set.ncard_eq_zero hfinite).mp hcount.symm
  rw [hempty] at hb
  exact hb

/-- Consuming an issued batch succeeds. -/
theorem Store.Sound.consume_eq (h : m.Sound) {s b : ℕ} (hs : (m.sessions s).initialized = true)
    (hb : b ∈ m.issued s) : (consume m s b).2 = true ∧ Consumes m s b (consume m s b).1 := by
  have hpos := h.liveBatches_ne_zero hs hb
  unfold consume
  simp only [if_neg hpos]
  exact ⟨trivial, hs, hb, rfl, rfl⟩

/-- What a combine can do. -/
theorem Store.Sound.combineAsync_outcome (h : m.Sound) (a : CombineArgs) :
    Outcome m reply (.combine a) (combineAsync m a reply) := by
  unfold combineAsync
  split
  swap
  · exact .refused (by decide) (by decide)
  rename_i s b hs hb
  simp only
  split
  · exact .refused (by decide) (by decide)
  rename_i hinit
  split
  · exact .refused (by decide) (by decide)
  rename_i hhandle
  split
  · exact .refused (by decide) (by decide)
  rename_i c hc
  split
  · exact .refused (by decide) (by decide)
  split
  · rename_i code hcode
    rw [checkCombineBuffers_code hcode]
    exact .refused (by decide) (by decide)
  split
  · rename_i hcode
    exact .failed hcode
  simp only [not_or, not_not] at hinit hhandle
  rcases h.consume_eq hinit hhandle with ⟨hcounted, hconsumes⟩
  rw [hcounted]
  exact .combined hs hb ⟨hconsumes.initialized, hconsumes.issued, hconsumes.sessions,
    hconsumes.batches⟩

/-- What a release can do. -/
theorem Store.Sound.batchRelease_outcome (h : m.Sound) (session batch : Pointer) :
    Outcome m reply (.release session batch) (batchRelease m session batch reply) := by
  unfold batchRelease
  split
  swap
  · exact .refused (by decide) (by decide)
  simp only
  split
  · exact .refused (by decide) (by decide)
  rename_i hhandle
  split
  · rename_i hcode
    exact .failed hcode
  simp only [not_or, not_not] at hhandle
  rcases h.consume_eq hhandle.1 hhandle.2 with ⟨hcounted, hconsumes⟩
  rw [hcounted]
  exact .released hconsumes

/-- What a call can do. -/
theorem Store.Sound.outcome (h : m.Sound) (call : Call) : Outcome m reply call (call.run m reply) := by
  cases call with
  | create a => exact singleIncCreate_outcome a
  | destroy session => exact singleIncDestroy_outcome session
  | dispatch a => exact dispatchAsync_outcome a
  | combine a => exact h.combineAsync_outcome a
  | release session batch => exact h.batchRelease_outcome session batch

end Calls

/-! ## One call keeps the count -/

section Step

variable {m m' : Store} {s t b : ℕ}

theorem Store.issued_subset (m : Store) (s : ℕ) : m.issued s ⊆ m.liveHandles := fun _ hb => hb.1

/-- Sessions with different ids share no handle. -/
theorem Store.not_issued_of_ne (hb : b ∈ m.issued s)
    (hne : (m.sessions t).config.sessionId ≠ (m.sessions s).config.sessionId) : b ∉ m.issued t :=
  fun ht => hne (ht.2.symm.trans hb.2)

/-- A field that the new session `s` shares with the old one stays the same in all sessions. -/
theorem update_session {α : Type} (field : SingleIncSession → α) (m : Store) (t : ℕ)
    {session : SingleIncSession} (h : field session = field (m.sessions s)) :
    field (Function.update m.sessions s session t) = field (m.sessions t) := by
  by_cases heq : t = s
  · rw [heq, Function.update_self]
    exact h
  · rw [Function.update_of_ne heq]

theorem Issues.config_eq (h : Issues m s b m') :
    (m'.sessions t).config = (m.sessions t).config := by
  rw [h.sessions]
  exact update_session SingleIncSession.config m t rfl

theorem Issues.initialized_eq (h : Issues m s b m') :
    (m'.sessions t).initialized = (m.sessions t).initialized := by
  rw [h.sessions]
  exact update_session SingleIncSession.initialized m t rfl

/-- The new batch is issued by its session. -/
theorem Issues.mem_issued (h : Issues m s b m') {c : ℕ} : c ∈ m'.issued t ↔
    (c = b ∧ (m.sessions s).config.sessionId = (m.sessions t).config.sessionId) ∨
      c ∈ m.issued t := by
  rcases h.batches with ⟨handle, hlive, hid, hbatches⟩
  show (m'.batches c).live = true ∧ (m'.batches c).sessionId = (m'.sessions t).config.sessionId ↔ _
  rw [h.config_eq, hbatches]
  by_cases heq : c = b
  · rw [heq, Function.update_self, hlive, hid]
    have hfree : b ∉ m.issued t := fun hb => h.free hb.1
    simp [hfree]
  · rw [Function.update_of_ne heq]
    exact (or_iff_right fun hc => heq hc.1).symm

theorem Issues.mem_live (h : Issues m s b m') {c : ℕ} :
    c ∈ m'.liveHandles ↔ c = b ∨ c ∈ m.liveHandles := by
  rcases h.batches with ⟨handle, hlive, hid, hbatches⟩
  show (m'.batches c).live = true ↔ _
  rw [hbatches]
  by_cases heq : c = b
  · rw [heq, Function.update_self]
    exact iff_of_true hlive (Or.inl rfl)
  · rw [Function.update_of_ne heq]
    exact (or_iff_right heq).symm

/-- Issuing keeps the invariant. -/
theorem Store.Sound.issue (hm : m.Sound) (h : Issues m s b m')
    (hfew : m'.liveHandles.ncard < 2 ^ 32) : m'.Sound := by
  have hfinite : m'.liveHandles.Finite := by
    have heq : m'.liveHandles = insert b m.liveHandles := Set.ext fun c => h.mem_live
    rw [heq]
    exact hm.finite.insert b
  constructor
  · intro u v hu hv heq
    rw [h.initialized_eq] at hu hv
    rw [h.config_eq, h.config_eq] at heq
    exact hm.distinct u v hu hv heq
  · exact hfinite
  · intro c hc
    rcases h.mem_live.mp hc with heq | hold
    · refine ⟨s, h.initialized_eq.trans h.initialized, h.mem_issued.mpr (Or.inl ⟨heq, rfl⟩)⟩
    · rcases hm.owned c hold with ⟨u, hu, hissued⟩
      exact ⟨u, h.initialized_eq.trans hu, h.mem_issued.mpr (Or.inr hissued)⟩
  · intro u hu
    rw [h.initialized_eq] at hu
    by_cases heq : u = s
    · -- the session that has issued the handle
      have hset : m'.issued s = insert b (m.issued s) := by
        ext c
        rw [h.mem_issued, Set.mem_insert_iff, and_iff_left rfl]
      have hfresh : b ∉ m.issued s := fun hb => h.free hb.1
      have hcard : (m'.issued s).ncard = (m.issued s).ncard + 1 := by
        rw [hset]
        exact Set.ncard_insert_of_notMem hfresh (hm.finite.subset (m.issued_subset s))
      have hle := Set.ncard_le_ncard (m'.issued_subset s) hfinite
      have hcount := hm.counted s h.initialized
      rw [heq, hcard, h.sessions, Function.update_self]
      show ((m.sessions s).liveBatches + 1).toNat = _
      rw [UInt32.toNat_add, hcount, UInt32.toNat_one, Nat.mod_eq_of_lt (by omega)]
    · -- any other session
      have hne : (m.sessions s).config.sessionId ≠ (m.sessions u).config.sessionId :=
        fun hid => heq (hm.distinct s u h.initialized hu hid).symm
      have hset : m'.issued u = m.issued u := by
        ext c
        rw [h.mem_issued]
        exact or_iff_right fun hc => hne hc.2
      rw [hset, h.sessions, Function.update_of_ne heq]
      exact hm.counted u hu
  · intro u hu
    rw [h.initialized_eq] at hu
    have heq : u ≠ s := fun heq => hu (heq ▸ h.initialized)
    rw [h.sessions, Function.update_of_ne heq]
    exact hm.idle u hu

theorem Consumes.config_eq (h : Consumes m s b m') :
    (m'.sessions t).config = (m.sessions t).config := by
  rw [h.sessions]
  exact update_session SingleIncSession.config m t rfl

theorem Consumes.initialized_eq (h : Consumes m s b m') :
    (m'.sessions t).initialized = (m.sessions t).initialized := by
  rw [h.sessions]
  exact update_session SingleIncSession.initialized m t rfl

/-- The batch is no longer issued. -/
theorem Consumes.mem_issued (h : Consumes m s b m') {c : ℕ} :
    c ∈ m'.issued t ↔ c ∈ m.issued t ∧ c ≠ b := by
  show (m'.batches c).live = true ∧ (m'.batches c).sessionId = (m'.sessions t).config.sessionId ↔ _
  rw [h.config_eq, h.batches]
  by_cases heq : c = b
  · rw [heq, Function.update_self]
    simp
  · rw [Function.update_of_ne heq]
    exact (and_iff_left heq).symm

theorem Consumes.mem_live (h : Consumes m s b m') {c : ℕ} :
    c ∈ m'.liveHandles ↔ c ∈ m.liveHandles ∧ c ≠ b := by
  show (m'.batches c).live = true ↔ _
  rw [h.batches]
  by_cases heq : c = b
  · rw [heq, Function.update_self]
    simp
  · rw [Function.update_of_ne heq]
    exact (and_iff_left heq).symm

/-- Consuming keeps the invariant. -/
theorem Store.Sound.consume (hm : m.Sound) (h : Consumes m s b m') : m'.Sound := by
  have hfinite := hm.finite.subset (m.issued_subset s)
  constructor
  · intro u v hu hv heq
    rw [h.initialized_eq] at hu hv
    rw [h.config_eq, h.config_eq] at heq
    exact hm.distinct u v hu hv heq
  · exact hm.finite.subset fun c hc => (h.mem_live.mp hc).1
  · intro c hc
    rcases h.mem_live.mp hc with ⟨hold, hne⟩
    rcases hm.owned c hold with ⟨u, hu, hissued⟩
    exact ⟨u, h.initialized_eq.trans hu, h.mem_issued.mpr ⟨hissued, hne⟩⟩
  · intro u hu
    rw [h.initialized_eq] at hu
    by_cases heq : u = s
    · have hset : m'.issued s = m.issued s \ {b} := by
        ext c
        rw [h.mem_issued, Set.mem_sdiff, Set.mem_singleton_iff]
      have hcard := Set.ncard_sdiff_singleton_add_one h.issued hfinite
      have hcount := hm.counted s h.initialized
      have hone : (1 : UInt32) ≤ (m.sessions s).liveBatches := by
        rw [UInt32.le_iff_toNat_le, hcount, UInt32.toNat_one]
        omega
      rw [heq, hset, h.sessions, Function.update_self]
      show ((m.sessions s).liveBatches - 1).toNat = _
      rw [UInt32.toNat_sub_of_le _ _ hone, hcount, UInt32.toNat_one]
      omega
    · have hne : (m.sessions u).config.sessionId ≠ (m.sessions s).config.sessionId :=
        fun hid => heq (hm.distinct u s hu h.initialized hid)
      have hset : m'.issued u = m.issued u := by
        ext c
        rw [h.mem_issued]
        apply and_iff_left_of_imp
        intro hc hcb
        rw [hcb] at hc
        exact Store.not_issued_of_ne h.issued hne hc
      rw [hset, h.sessions, Function.update_of_ne heq]
      exact hm.counted u hu
  · intro u hu
    rw [h.initialized_eq] at hu
    have heq : u ≠ s := fun heq => hu (heq ▸ h.initialized)
    rw [h.sessions, Function.update_of_ne heq]
    exact hm.idle u hu

/-- Creating a session whose id no other session has. -/
theorem Store.Sound.create (hm : m.Sound) {session : SingleIncSession}
    (hfresh : ¬ (m.sessions s).initialized = true) (hinit : session.initialized = true)
    (hcount : session.liveBatches = (m.sessions s).liveBatches)
    (hid : ∀ t, (m.sessions t).initialized = true →
      (m.sessions t).config.sessionId ≠ session.config.sessionId) :
    Store.Sound { m with sessions := Function.update m.sessions s session } := by
  have hself : Function.update m.sessions s session s = session := Function.update_self ..
  have hother : ∀ {t}, t ≠ s → Function.update m.sessions s session t = m.sessions t :=
    fun hne => Function.update_of_ne hne _ _
  have hold : ∀ {t}, (m.sessions t).initialized = true → t ≠ s :=
    fun ht heq => hfresh (heq ▸ ht)
  constructor
  · intro u v hu hv heq
    by_cases hus : u = s
    · by_cases hvs : v = s
      · rw [hus, hvs]
      · rw [hus] at heq
        simp only [hself, hother hvs] at hv heq
        exact absurd heq.symm (hid v hv)
    · by_cases hvs : v = s
      · rw [hvs] at heq
        simp only [hself, hother hus] at hu heq
        exact absurd heq (hid u hu)
      · simp only [hother hus, hother hvs] at hu hv heq
        exact hm.distinct u v hu hv heq
  · exact hm.finite
  · intro b hb
    rcases hm.owned b hb with ⟨u, hu, hissued⟩
    refine ⟨u, ?_, hb, ?_⟩
    · simp only [hother (hold hu)]
      exact hu
    · simp only [hother (hold hu)]
      exact hissued.2
  · intro u hu
    by_cases heq : u = s
    · -- no live handle carries the new id
      have hempty : Store.issued { m with sessions := Function.update m.sessions s session } s
          = ∅ := by
        apply Set.eq_empty_of_forall_notMem
        intro b hb
        rcases hm.owned b hb.1 with ⟨v, hv, hissued⟩
        have hsession : (m.batches b).sessionId = session.config.sessionId := by
          have hb2 := hb.2
          simp only [hself] at hb2
          exact hb2
        exact hid v hv (hissued.2.symm.trans hsession)
      rw [heq, hempty, Set.ncard_empty]
      simp only [hself]
      rw [hcount, hm.idle s hfresh]
      rfl
    · simp only [Store.issued, hother heq] at hu ⊢
      exact hm.counted u hu
  · intro u hu
    by_cases heq : u = s
    · rw [heq] at hu
      simp only [hself] at hu
      exact absurd hinit hu
    · simp only [hother heq] at hu ⊢
      exact hm.idle u hu

/-- Destroying a session without live handles. -/
theorem Store.Sound.destroy (hm : m.Sound) (hinit : (m.sessions s).initialized = true)
    (hzero : (m.sessions s).liveBatches = 0) : m.issued s = ∅ ∧
      Store.Sound { m with sessions := Function.update m.sessions s {} } := by
  have hself : Function.update m.sessions s ({} : SingleIncSession) s = {} :=
    Function.update_self ..
  have hother : ∀ {t}, t ≠ s →
      Function.update m.sessions s ({} : SingleIncSession) t = m.sessions t :=
    fun hne => Function.update_of_ne hne _ _
  -- the count of live handles is exact, so none was issued that is still live
  have hempty : m.issued s = ∅ := by
    have hcount := hm.counted s hinit
    rw [hzero] at hcount
    exact (Set.ncard_eq_zero (hm.finite.subset (m.issued_subset s))).mp hcount.symm
  have hleft : ∀ {t}, (Function.update m.sessions s ({} : SingleIncSession) t).initialized = true →
      t ≠ s := by
    intro t ht heq
    rw [heq, hself] at ht
    cases ht
  apply And.intro hempty
  constructor
  · intro u v hu hv heq
    have hus := hleft hu
    have hvs := hleft hv
    simp only [hother hus, hother hvs] at hu hv heq
    exact hm.distinct u v hu hv heq
  · exact hm.finite
  · intro b hb
    rcases hm.owned b hb with ⟨u, hu, hissued⟩
    -- a live handle belongs to another session
    have hus : u ≠ s := by
      intro heq
      rw [heq, hempty] at hissued
      exact hissued
    refine ⟨u, ?_, hb, ?_⟩
    · simp only [hother hus]
      exact hu
    · simp only [hother hus]
      exact hissued.2
  · intro u hu
    have hus := hleft hu
    simp only [Store.issued, hother hus] at hu ⊢
    exact hm.counted u hu
  · intro u hu
    by_cases heq : u = s
    · rw [heq]
      simp only [hself]
    · simp only [hother heq] at hu ⊢
      exact hm.idle u hu

end Step

/-! ## Sequences of calls -/

/-- Session ids are distinct: a session is created with an id no other session has. And fewer than
2^32 batches are live. -/
structure Admissible (m : Store) (call : Call) (reply : Reply) : Prop where
  distinct : ∀ a, call = .create a → (call.run m reply).1.code = .ok →
    ∀ s, (m.sessions s).initialized = true → (m.sessions s).config.sessionId ≠ a.config.sessionId
  few : (call.run m reply).2.liveHandles.ncard < 2 ^ 32

/-- What a call has to do. -/
structure Meets (m : Store) (call : Call) (reply : Reply) : Prop where
  counted : ∀ s, ((call.run m reply).2.sessions s).initialized = true →
    ((call.run m reply).2.sessions s).liveBatches.toNat = ((call.run m reply).2.issued s).ncard
  noUnderflow : (call.run m reply).1.code = .backendError → reply.code = .backendError
  idle : ∀ s, call = .destroy (some s) → (call.run m reply).1.code = .ok → m.issued s = ∅
  unchanged : (call.run m reply).1.code ≠ .ok → (call.run m reply).2 = m

/-- The handle a call issues or consumes. -/
def Call.log (m : Store) (reply : Reply) (call : Call) : List (LedgerOp ℕ) :=
  if (call.run m reply).1.code = .ok then
    match call with
    | .dispatch a => a.batch.toList.map .acquire
    | .combine a => a.batch.toList.map .release
    | .release _ batch => batch.toList.map .release
    | _ => []
  else []

/-- The batches issued and consumed in a run. -/
def Store.log (m : Store) : List (Call × Reply) → List (LedgerOp ℕ)
  | [] => []
  | (call, reply) :: calls => call.log m reply ++ (call.run m reply).2.log calls

/-- The live handles as a multiset. -/
def Holds (m : Store) (held : Multiset ℕ) : Prop :=
  ∀ b, held.count b = if (m.batches b).live then 1 else 0

section Runs

variable {m : Store} {call : Call} {reply : Reply} {calls : List (Call × Reply)}

/-- A call keeps the invariant. -/
theorem Store.Sound.step (hm : m.Sound) (hadm : Admissible m call reply) :
    (call.run m reply).2.Sound := by
  have houtcome : Outcome m reply call (call.run m reply) := hm.outcome call
  have hfew := hadm.few
  have hdistinct := hadm.distinct
  generalize call.run m reply = r at *
  cases houtcome with
  | unchanged hcode hbackend => exact hm
  | created hs hfresh hinit hid hcount =>
    apply hm.create hfresh hinit hcount
    rw [hid]
    exact hdistinct _ rfl rfl
  | destroyed hinit hzero => exact (hm.destroy hinit hzero).2
  | dispatched hs hb h => exact hm.issue h hfew
  | combined hs hb h => exact hm.consume h
  | released h => exact hm.consume h

/-- A call does what is claimed of it. -/
theorem Store.Sound.meets (hm : m.Sound) (hadm : Admissible m call reply) :
    Meets m call reply := by
  have hnext := hm.step hadm
  have houtcome : Outcome m reply call (call.run m reply) := hm.outcome call
  constructor
  · exact hnext.counted
  all_goals
    clear hadm hnext
    generalize call.run m reply = r at *
  · intro hcode
    cases houtcome with
    | unchanged _ hbackend => exact hbackend hcode
    | created => cases hcode
    | destroyed => cases hcode
    | dispatched => cases hcode
    | combined => cases hcode
    | released => cases hcode
  · intro s hcall hcode
    cases houtcome with
    | unchanged hfails => exact absurd hcode hfails
    | destroyed hinit hzero =>
      cases hcall
      exact (hm.destroy hinit hzero).1
    | created => cases hcall
    | dispatched => cases hcall
    | combined => cases hcall
    | released => cases hcall
  · intro hcode
    cases houtcome with
    | unchanged => rfl
    | created => exact absurd rfl hcode
    | destroyed => exact absurd rfl hcode
    | dispatched => exact absurd rfl hcode
    | combined => exact absurd rfl hcode
    | released => exact absurd rfl hcode

/-- An issued batch is held. -/
theorem Issues.holds {m' : Store} {s b : ℕ} (h : Issues m s b m') {held : Multiset ℕ}
    (hheld : Holds m held) : Holds m' (b ::ₘ held) := by
  rcases h.batches with ⟨handle, hlive, -, hbatches⟩
  intro c
  rw [hbatches]
  by_cases heq : c = b
  · rw [heq, Multiset.count_cons_self, hheld b, if_neg h.free, Function.update_self, if_pos hlive]
  · rw [Multiset.count_cons_of_ne heq, Function.update_of_ne heq]
    exact hheld c

/-- A consumed batch was held, and is no longer. -/
theorem Consumes.holds {m' : Store} {s b : ℕ} (h : Consumes m s b m') {held : Multiset ℕ}
    (hheld : Holds m held) : b ∈ held ∧ Holds m' (held.erase b) := by
  have hone : held.count b = 1 := by
    rw [hheld b, if_pos h.issued.1]
  constructor
  · exact Multiset.count_pos.mp (by omega)
  intro c
  rw [h.batches]
  by_cases heq : c = b
  · rw [heq, Multiset.count_erase_self, hone, Function.update_self]
    rfl
  · rw [Multiset.count_erase_of_ne heq, Function.update_of_ne heq]
    exact hheld c

/-- A call issues a handle that is not held or consumes one that is. -/
theorem Store.Sound.play_log (hm : m.Sound) {held : Multiset ℕ} (hheld : Holds m held) :
    ∃ held', Ledger.play held (call.log m reply) = some held' ∧
      Holds (call.run m reply).2 held' := by
  have houtcome : Outcome m reply call (call.run m reply) := hm.outcome call
  unfold Call.log
  generalize call.run m reply = r at *
  cases houtcome with
  | unchanged hcode =>
    rw [if_neg hcode]
    exact ⟨held, rfl, hheld⟩
  | created => exact ⟨held, rfl, hheld⟩
  | destroyed => exact ⟨held, rfl, hheld⟩
  | @dispatched a s b m' hs hb h =>
    refine ⟨b ::ₘ held, ?_, h.holds hheld⟩
    show Ledger.play held (a.batch.toList.map .acquire) = _
    rw [hb]
    rfl
  | @combined a s b m' hs hb h =>
    rcases h.holds hheld with ⟨hmem, hnext⟩
    refine ⟨held.erase b, ?_, hnext⟩
    show Ledger.play held (a.batch.toList.map .release) = _
    rw [hb]
    show Ledger.play held [.release b] = _
    rw [← Multiset.cons_erase hmem, Ledger.play_release, Multiset.erase_cons_head]
    rfl
  | @released s b m' h =>
    rcases h.holds hheld with ⟨hmem, hnext⟩
    refine ⟨held.erase b, ?_, hnext⟩
    show Ledger.play held [.release b] = _
    rw [← Multiset.cons_erase hmem, Ledger.play_release, Multiset.erase_cons_head]
    rfl

theorem Store.Sound.run (hm : m.Sound) {held : Multiset ℕ} (hheld : Holds m held)
    (hadm : m.EachCall Admissible calls) : m.EachCall Meets calls ∧
      ∃ held', Ledger.play held (m.log calls) = some held' ∧ Holds (m.run calls) held' := by
  induction calls generalizing m held with
  | nil => exact ⟨trivial, held, rfl, hheld⟩
  | cons first calls ih =>
    rcases first with ⟨call, reply⟩
    rcases hadm with ⟨hfirst, hrest⟩
    obtain ⟨next, hplay, hnext⟩ : ∃ held', Ledger.play held (call.log m reply) = some held' ∧
      Holds (call.run m reply).2 held' := hm.play_log hheld
    rcases ih (hm.step hfirst) hnext hrest with ⟨hmeets, held', hlater, hholds⟩
    refine ⟨⟨hm.meets hfirst, hmeets⟩, held', ?_, hholds⟩
    rw [Store.log, Ledger.play_append hplay]
    exact hlater

/-- The invariant holds at the start. -/
theorem sound_init : Store.init.Sound := by
  constructor
  · intro s t hs
    cases hs
  · exact Set.finite_empty.subset fun b hb => absurd hb Bool.false_ne_true
  · intro b hb
    cases hb
  · intro s hs
    cases hs
  · exact fun s _ => rfl

/-- Over every sequence of calls with distinct session ids and fewer than 2^32 live batches: the
counters are the numbers of live handles, no counter underflows, a session is destroyed only without
live handles, and a call that fails changes nothing. Every handle consumed was issued and not
consumed since, so it is consumed as often as it was issued, or once less if it is live. -/
theorem session_accounting (calls : List (Call × Reply))
    (hadm : Store.init.EachCall Admissible calls) : Store.init.EachCall Meets calls ∧
      (∃ held, Ledger.play 0 (Store.init.log calls) = some held ∧ Holds (Store.init.run calls) held) ∧
      ∀ b, (Store.init.log calls).count (.acquire b) = (Store.init.log calls).count (.release b) +
        if ((Store.init.run calls).batches b).live then 1 else 0 := by
  have hnone : Holds Store.init 0 := fun b => Multiset.count_zero b
  rcases sound_init.run hnone hadm with ⟨hmeets, held, hplay, hholds⟩
  refine ⟨hmeets, ⟨held, hplay, hholds⟩, fun b => ?_⟩
  have hcount := Ledger.count_acquire hplay b
  rw [Multiset.count_zero, zero_add, hholds b] at hcount
  exact hcount

end Runs

/-! ### A session on the INC rank -/

/-- Rank 2 next to two workers: it passes no buffers. -/
def sampleConfig : SessionConfig := ⟨1, 1, 2, 2, 2, 1, 1, 2, 1, 1⟩

/-- A backend with every operation. -/
def sampleBackend : BackendOps := ⟨some 1, some 1, some 1, some 1, some 1, some 1, some 1⟩

/-- A session is created, issues a batch, and cannot be destroyed until the batch is released. -/
def sampleCalls : List (Call × Reply) :=
  [(.create ⟨sampleConfig, sampleBackend, none, some 0⟩, ⟨.ok, {}, {}⟩),
    (.dispatch ⟨some 0, .fp32, ⟨1, 1, 0, 0, 0⟩, none, none, some 1, some 0, some 0⟩, ⟨.ok, {}, {}⟩),
    (.destroy (some 0), ⟨.ok, {}, {}⟩),
    (.release (some 0) (some 0), ⟨.ok, {}, {}⟩),
    (.destroy (some 0), ⟨.ok, {}, {}⟩)]

/-- A store in which no batch but one is live. -/
theorem ncard_liveHandles_lt {m : Store} (hm : ∀ b, b ≠ 0 → (m.batches b).live = false) :
    m.liveHandles.ncard < 2 ^ 32 := by
  have hsubset : m.liveHandles ⊆ {0} := by
    intro b hb
    by_contra hne
    have hdead := hm b hne
    rw [show (m.batches b).live = true from hb] at hdead
    cases hdead
  have hle := Set.ncard_le_ncard hsubset (Set.finite_singleton 0)
  rw [Set.ncard_singleton] at hle
  omega

/-- The sample calls are admissible. -/
theorem admissible_sample : Store.init.EachCall Admissible sampleCalls := by
  have hone : ∀ (x : BatchHandle) (b : ℕ), b ≠ 0 →
      Function.update (fun _ : ℕ => ({} : BatchHandle)) 0 x b = {} :=
    fun x b hb => by rw [Function.update_of_ne hb]
  have htwo : ∀ (x y : BatchHandle) (b : ℕ), b ≠ 0 →
      Function.update (Function.update (fun _ : ℕ => ({} : BatchHandle)) 0 x) 0 y b = {} :=
    fun x y b hb => by rw [Function.update_of_ne hb, Function.update_of_ne hb]
  refine ⟨⟨?_, ?_⟩, ⟨?_, ?_⟩, ⟨?_, ?_⟩, ⟨?_, ?_⟩, ⟨?_, ?_⟩, trivial⟩
  · intro a _ _ s hs
    cases hs
  · exact ncard_liveHandles_lt fun b _ => rfl
  · exact fun _ h => Call.noConfusion h
  · exact ncard_liveHandles_lt fun b hb => congrArg BatchHandle.live (hone _ b hb)
  · exact fun _ h => Call.noConfusion h
  · exact ncard_liveHandles_lt fun b hb => congrArg BatchHandle.live (hone _ b hb)
  · exact fun _ h => Call.noConfusion h
  · exact ncard_liveHandles_lt fun b hb => congrArg BatchHandle.live (htwo _ _ b hb)
  · exact fun _ h => Call.noConfusion h
  · exact ncard_liveHandles_lt fun b hb => congrArg BatchHandle.live (htwo _ _ b hb)

/-- A session that dispatches, combines and releases. -/
theorem session_accounting_sample : Store.init.EachCall Meets sampleCalls ∧
    (∃ held, Ledger.play 0 (Store.init.log sampleCalls) = some held ∧
      Holds (Store.init.run sampleCalls) held) ∧
    ∀ b, (Store.init.log sampleCalls).count (.acquire b) =
      (Store.init.log sampleCalls).count (.release b) +
        if ((Store.init.run sampleCalls).batches b).live then 1 else 0 :=
  session_accounting sampleCalls admissible_sample

/-- The first destroy finds the session busy, the second one goes through. -/
example : ((Store.init.run (sampleCalls.take 3)).sessions 0).initialized = true ∧
    ((Store.init.run sampleCalls).sessions 0).initialized = false := by decide +kernel

end AscendShmem.SessionApi
