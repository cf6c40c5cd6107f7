import Mathlib
import AscendShmem.GroupEngine.Store
import AscendShmem.Lib.Rendezvous

/-!
# Rounds of a group

`GroupBarrier` and `GroupAllGather` number their calls and use two keys a call: one that every
rank contributes to, and one that the last rank sets and all wait for. The first rank of a call
removes both keys of the call `REMOVE_INTERVAL` before.

Here is what both share: a rank's place in its calls, the keys with the history of what was set
and removed, and how they stand for a rendezvous (`Lib.Rendezvous`), slot for contribution key
and gate for wait key.
-/

namespace AscendShmem.GroupEngine

open ConfigStore Lib

/-! ## Ranks -/

/-- A rank: its serial number, a `uint32_t`, the number of its calls so far, and its next
operation. -/
structure Rank (P : Type) where
  sn : ℕ := 0
  calls : ℕ := 0
  pc : P

/-- The rank goes on to another operation of its call. -/
def Rank.goto {P : Type} (ranks : ℕ → Rank P) (r : ℕ) (pc : P) : ℕ → Rank P :=
  Function.update ranks r { ranks r with pc }

/-- The rank begins a call with operation `pc`. -/
def Rank.enter {P : Type} (ranks : ℕ → Rank P) (r : ℕ) (pc : P) : ℕ → Rank P :=
  Function.update ranks r ⟨((ranks r).sn + 1) % 2 ^ 32, (ranks r).calls + 1, pc⟩

/-- Where the ranks are once one of them has gone on. -/
theorem Rank.goto_apply {P : Type} (ranks : ℕ → Rank P) (r : ℕ) (pc : P) (q : ℕ) :
    Rank.goto ranks r pc q = if q = r then { ranks r with pc } else ranks q := by
  rw [Rank.goto, Function.update_apply]

/-- Where the ranks are once one of them has begun a call. -/
theorem Rank.enter_apply {P : Type} (ranks : ℕ → Rank P) (r : ℕ) (pc : P) (q : ℕ) :
    Rank.enter ranks r pc q
      = if q = r then ⟨((ranks r).sn + 1) % 2 ^ 32, (ranks r).calls + 1, pc⟩ else ranks q := by
  rw [Rank.enter, Function.update_apply]

/-- The ranks stand where the participants do; `phase` is the phase an operation stands for. -/
structure RanksRefine {P : Type} (phase : P → Rendezvous.Phase) (ranks : ℕ → Rank P)
    (a : Rendezvous.State) : Prop where
  participants : ∀ r, a.participants r = ⟨(ranks r).calls, phase (ranks r).pc⟩
  serial : ∀ r, (ranks r).sn = (ranks r).calls % 2 ^ 32

namespace RanksRefine

variable {P : Type} {phase : P → Rendezvous.Phase} {ranks : ℕ → Rank P} {a : Rendezvous.State}
  {r : ℕ}

theorem init {pc : P} (h : phase pc = .outside) :
    RanksRefine phase (fun _ => { pc := pc }) Rendezvous.State.init where
  participants := fun _ => by rw [h]; rfl
  serial := fun _ => rfl

/-- A rank and its participant go on together. -/
theorem goto (h : RanksRefine phase ranks a) (pc : P) :
    RanksRefine phase (Rank.goto ranks r pc) (a.goto r (phase pc)) := by
  constructor
  all_goals
    intro q
    by_cases hq : q = r
  · subst hq
    rw [Rendezvous.State.goto_self, Rank.goto, Function.update_self, h.participants]
  · rw [Rendezvous.State.goto_of_ne hq, Rank.goto, Function.update_of_ne hq, h.participants]
  · subst hq
    rw [Rank.goto, Function.update_self]
    exact h.serial q
  · rw [Rank.goto, Function.update_of_ne hq]
    exact h.serial q

/-- A rank and its participant enter together. -/
theorem enter (h : RanksRefine phase ranks a) {pc : P} (hpc : phase pc = .contribute) :
    RanksRefine phase (Rank.enter ranks r pc) (a.enter r) := by
  constructor
  all_goals
    intro q
    by_cases hq : q = r
  · subst hq
    rw [Rendezvous.State.enter_self, Rank.enter, Function.update_self, h.participants, hpc]
  · rw [Rendezvous.State.enter_of_ne hq, Rank.enter, Function.update_of_ne hq, h.participants]
  · subst hq
    rw [Rank.enter, Function.update_self]
    show ((ranks q).sn + 1) % 2 ^ 32 = ((ranks q).calls + 1) % 2 ^ 32
    rw [h.serial q]
    omega
  · rw [Rank.enter, Function.update_of_ne hq]
    exact h.serial q

theorem sn_eq (h : RanksRefine phase ranks a) (hcalls : (ranks r).calls < 2 ^ 32) :
    (ranks r).sn = (ranks r).calls := by
  rw [h.serial, Nat.mod_eq_of_lt hcalls]

theorem round_eq (h : RanksRefine phase ranks a) : (a.participants r).round = (ranks r).calls := by
  rw [h.participants]

theorem phase_eq (h : RanksRefine phase ranks a) :
    (a.participants r).phase = phase (ranks r).pc := by
  rw [h.participants]

end RanksRefine

/-- The calls are counted up. -/
theorem Rank.calls_le_goto {P : Type} (ranks : ℕ → Rank P) (r : ℕ) (pc : P) (q : ℕ) :
    (ranks q).calls ≤ (Rank.goto ranks r pc q).calls := by
  rw [Rank.goto, Function.update_apply]
  split
  · rename_i hq
    rw [hq]
  · exact le_refl _

/-- The calls are counted up. -/
theorem Rank.calls_le_enter {P : Type} (ranks : ℕ → Rank P) (r : ℕ) (pc : P) (q : ℕ) :
    (ranks q).calls ≤ (Rank.enter ranks r pc q).calls := by
  rw [Rank.enter, Function.update_apply]
  split
  · rename_i hq
    rw [hq]
    exact Nat.le_succ _
  · exact le_refl _

/-! ## Keys -/

/-- The store, and by serial number the ranks that have set the wait key and what was removed. -/
structure Keys where
  store : Store
  setters : ℕ → List ℕ
  addRemoved : ℕ → Bool
  waitRemoved : ℕ → Bool

/-- No key of any call. -/
def Keys.init : Keys := ⟨fun _ => none, fun _ => [], fun _ => false, fun _ => false⟩

section Keys

-- the group version, the same on all ranks, and the suffixes of the two keys
variable (v : ℤ) (add wait : Bytes)

/-- Removes the contribution key of a call. -/
def Keys.removeAdd (k : Keys) (sn : ℕ) : Keys :=
  { k with
    store := k.store.remove (groupKey v add sn)
    addRemoved := Function.update k.addRemoved sn true }

/-- Removes the wait key of a call. -/
def Keys.removeWait (k : Keys) (sn : ℕ) : Keys :=
  { k with
    store := k.store.remove (groupKey v wait sn)
    waitRemoved := Function.update k.waitRemoved sn true }

/-- Rank `r` sets the wait key of a call. -/
def Keys.setWait (k : Keys) (sn r : ℕ) : Keys :=
  { k with
    store := k.store.set (groupKey v wait sn) smemGroupSetStr
    setters := Function.update k.setters sn (k.setters sn ++ [r]) }

/-- The contribution keys hold the slots, as `encode` writes them, and the wait keys the gates. -/
structure KeysRefine (encode : ℕ → List ℕ → Value) (k : Keys) (a : Rendezvous.State) : Prop where
  add : ∀ m < 2 ^ 32, k.store (groupKey v add m) = (a.slots m).map (encode m)
  wait : ∀ m < 2 ^ 32, k.store (groupKey v wait m)
    = if a.gates m then some (.bytes smemGroupSetStr) else none
  setters : ∀ m, (k.setters m).length = a.opened m
  addRemoved : k.addRemoved = a.slotRemoved
  waitRemoved : k.waitRemoved = a.gateRemoved

end Keys

namespace KeysRefine

variable {v : ℤ} {add wait : Bytes} {encode : ℕ → List ℕ → Value} {k : Keys}
  {a : Rendezvous.State} {m r : ℕ}

theorem init : KeysRefine v add wait encode Keys.init Rendezvous.State.init where
  add := fun _ _ => rfl
  wait := fun _ _ => rfl
  setters := fun _ => rfl
  addRemoved := rfl
  waitRemoved := rfl

/-- The moves of the participants alone do not touch the keys. -/
theorem goto (h : KeysRefine v add wait encode k a) (phase : Rendezvous.Phase) :
    KeysRefine v add wait encode k (a.goto r phase) :=
  ⟨h.add, h.wait, h.setters, h.addRemoved, h.waitRemoved⟩

/-- Entering touches no key. -/
theorem enter (h : KeysRefine v add wait encode k a) :
    KeysRefine v add wait encode k (a.enter r) :=
  ⟨h.add, h.wait, h.setters, h.addRemoved, h.waitRemoved⟩

variable (hsuffix : add.length = wait.length ∧ add ≠ wait)

include hsuffix

/-- A contribution that the key's new value encodes. -/
theorem contribute (h : KeysRefine v add wait encode k a) (hm : m < 2 ^ 32) :
    KeysRefine v add wait encode { k with
      store := Function.update k.store (groupKey v add m)
        (some (encode m (a.contribution r m))) } (a.contribute r m) := by
  refine ⟨?_, ?_, h.setters, h.addRemoved, h.waitRemoved⟩
  · intro i hi
    show Function.update k.store (groupKey v add m) _ (groupKey v add i)
      = (Function.update a.slots m _ i).map (encode i)
    rw [update_groupKey hm hi, Function.update_apply]
    split
    · rename_i him
      rw [him]
      rfl
    · exact h.add i hi
  · intro i hi
    show Function.update k.store (groupKey v add m) _ (groupKey v wait i) = _
    rw [update_groupKey_of_ne hm hi hsuffix.1 hsuffix.2]
    exact h.wait i hi

/-- The add key of an earlier call is removed, and with it the slot. -/
theorem removeAdd (h : KeysRefine v add wait encode k a) (hm : m < 2 ^ 32) :
    KeysRefine v add wait encode (k.removeAdd v add m) (a.removeSlot m) := by
  refine ⟨?_, ?_, h.setters, ?_, h.waitRemoved⟩
  · intro i hi
    show Function.update k.store (groupKey v add m) none (groupKey v add i)
      = (Function.update a.slots m none i).map (encode i)
    rw [update_groupKey hm hi, Function.update_apply]
    split
    · rfl
    · exact h.add i hi
  · intro i hi
    show Function.update k.store (groupKey v add m) none (groupKey v wait i) = _
    rw [update_groupKey_of_ne hm hi hsuffix.1 hsuffix.2]
    exact h.wait i hi
  · show Function.update k.addRemoved m true = Function.update a.slotRemoved m true
    rw [h.addRemoved]

/-- The wait key of an earlier call is removed, and with it the gate. -/
theorem removeWait (h : KeysRefine v add wait encode k a) (hm : m < 2 ^ 32) :
    KeysRefine v add wait encode (k.removeWait v wait m) (a.removeGate m) := by
  refine ⟨?_, ?_, h.setters, h.addRemoved, ?_⟩
  · intro i hi
    show Function.update k.store (groupKey v wait m) none (groupKey v add i) = _
    rw [update_groupKey_of_ne hm hi hsuffix.1.symm hsuffix.2.symm]
    exact h.add i hi
  · intro i hi
    show Function.update k.store (groupKey v wait m) none (groupKey v wait i)
      = if Function.update a.gates m false i then _ else _
    rw [update_groupKey hm hi, Function.update_apply]
    split
    · rfl
    · exact h.wait i hi
  · show Function.update k.waitRemoved m true = Function.update a.gateRemoved m true
    rw [h.waitRemoved]

/-- The wait key is set, and with it the gate is open. -/
theorem setWait (h : KeysRefine v add wait encode k a) (hm : m < 2 ^ 32) :
    KeysRefine v add wait encode (k.setWait v wait m r) (a.openGate m) := by
  refine ⟨?_, ?_, ?_, h.addRemoved, h.waitRemoved⟩
  · intro i hi
    show Function.update k.store (groupKey v wait m) _ (groupKey v add i) = _
    rw [update_groupKey_of_ne hm hi hsuffix.1.symm hsuffix.2.symm]
    exact h.add i hi
  · intro i hi
    show Function.update k.store (groupKey v wait m) _ (groupKey v wait i)
      = if Function.update a.gates m true i then _ else _
    rw [update_groupKey hm hi, Function.update_apply]
    split
    · rfl
    · exact h.wait i hi
  · intro i
    show (Function.update k.setters m (k.setters m ++ [r]) i).length
      = Function.update a.opened m (a.opened m + 1) i
    rw [Function.update_apply, Function.update_apply]
    split
    · rw [List.length_append, h.setters]
      rfl
    · exact h.setters i

end KeysRefine

end AscendShmem.GroupEngine
