import Mathlib
import AscendShmem.ConfigStore.Refinement

/-!
# The store of a group engine

The group engines of all ranks share one config store. Here it is its sequential specification
without the parked GETs: a GET of a key that is not there does not return yet. The keys of a
group are named by the group's version, a serial number and what they are for.
-/

namespace AscendShmem.GroupEngine

open ConfigStore

/-- The map of the specification. -/
abbrev Store := Bytes → Option Value

namespace Store

variable (s : Store)

/-- `Add`: the sum and the new map, nothing when the value is not a number. -/
def add (key : Bytes) (increment : ℤ) : Option (ℤ × Store) :=
  match s key with
  | none => some (increment, Function.update s key (some (.number increment)))
  | some value =>
    match value.toNumber with
    | none => none
    | some m => some (m + increment, Function.update s key (some (.number (m + increment))))

/-- `Append`: the new length and the new map. -/
def append (key value : Bytes) : ℕ × Store :=
  match s key with
  | none => (value.length, Function.update s key (some (.bytes value)))
  | some old =>
    ((old.text ++ value).length, Function.update s key (some (.bytes (old.text ++ value))))

/-- `Set` -/
def set (key value : Bytes) : Store := Function.update s key (some (.bytes value))

/-- `Remove`, also of a key that is not there. -/
def remove (key : Bytes) : Store := Function.update s key none

/-- `Cas`: what is there before, and the new map. -/
def cas (key expected exchange : Bytes) : Bytes × Store :=
  match s key with
  | none => if expected = [] then ([], s.set key exchange) else ([], s)
  | some value =>
    if expected = value.text then (value.text, s.set key exchange) else (value.text, s)

section Spec

variable (pending : ℕ → Option Bytes) (ctx : ℕ) (key value : Bytes)

/-! The operations are those of the specification, and answer what it answers. -/

/-- `Add` as the server does it. -/
theorem add_eq (n : ℤ) : ((Spec.mk s pending).step ctx (.add key n)).1.map
      = ((s.add key n).map Prod.snd).getD s ∧
    ((Spec.mk s pending).step ctx (.add key n)).2 ctx
      = (s.add key n).map fun r => .number (toDecimal r.1) := by
  unfold Spec.step add
  cases hs : s key with
  | none => simp [hs, Spec.create]
  | some v =>
    cases hv : v.toNumber with
    | none => simp [hs, hv, noReply]
    | some m => simp [hs, hv, Spec.put, answer]

/-- `Append` as the server does it. -/
theorem append_eq : ((Spec.mk s pending).step ctx (.append key value)).1.map
      = (s.append key value).2 ∧
    ((Spec.mk s pending).step ctx (.append key value)).2 ctx
      = some (.number (toDecimal (s.append key value).1)) := by
  unfold Spec.step append
  cases hs : s key with
  | none => simp [hs, Spec.create]
  | some v => simp [hs, Spec.put, answer]

theorem set_eq : ((Spec.mk s pending).step ctx (.set key value)).1.map = s.set key value := by
  unfold Spec.step set
  cases hs : s key with
  | none => simp [hs, Spec.create]
  | some v => simp [hs, Spec.put]

/-- `Remove` as the server does it. -/
theorem remove_eq : ((Spec.mk s pending).step ctx (.remove key)).1.map = s.remove key := by
  unfold Spec.step remove
  cases hs : s key with
  | none =>
    funext k
    by_cases hk : k = key
    · subst hk
      simp [hs]
    · simp [hs, hk]
  | some v => simp [hs]

/-- `Cas` as the server does it. -/
theorem cas_eq (expected exchange : Bytes) :
    ((Spec.mk s pending).step ctx (.cas key expected exchange)).1.map
      = (s.cas key expected exchange).2 := by
  unfold Spec.step cas set
  cases hs : s key with
  | none =>
    by_cases he : expected = []
    · simp [hs, he, Spec.create]
    · simp [hs, he]
  | some v =>
    by_cases he : expected = v.text
    · simp [hs, he, Spec.put]
    · simp [hs, he]

end Spec

end Store

/-! ## Keys -/

/-- `SMEM_GROUP_SET_STR`, `ok`. -/
def smemGroupSetStr : Bytes := [111, 107]

/-- `REMOVE_INTERVAL`. -/
def removeInterval : ℕ := 2

/-- The key of serial number `sn`: the version, `_`, the serial number and the suffix. -/
def groupKey (groupVersion : ℤ) (suffix : Bytes) (sn : ℕ) : Bytes :=
  toDecimal groupVersion ++ [95] ++ toDecimal sn ++ suffix

theorem toDecimal_inj {m n : ℕ} (hm : m < 2 ^ 32) (hn : n < 2 ^ 32)
    (h : toDecimal m = toDecimal n) : m = n := by
  have hread := strToLong_toDecimal (n := (m : ℤ)) (by omega) (by omega)
  rw [h, strToLong_toDecimal (by omega) (by omega)] at hread
  exact (Int.ofNat.inj (Option.some.inj hread)).symm

/-- Keys of different calls and kinds are different. -/
theorem groupKey_inj {v : ℤ} {s t : Bytes} {m n : ℕ} (hlen : s.length = t.length)
    (hm : m < 2 ^ 32) (hn : n < 2 ^ 32) :
    groupKey v s m = groupKey v t n ↔ s = t ∧ m = n := by
  constructor
  · intro h
    rcases List.append_inj' h hlen with ⟨hfront, hsuffix⟩
    have hdigits := List.append_cancel_left hfront
    exact ⟨hsuffix, toDecimal_inj hm hn hdigits⟩
  · rintro ⟨rfl, rfl⟩
    rfl

/-- What an update at one key of a family does to the keys of that family. -/
theorem update_groupKey {v : ℤ} {suffix : Bytes} {m n : ℕ} (hm : m < 2 ^ 32) (hn : n < 2 ^ 32)
    (s : Store) (value : Option Value) :
    Function.update s (groupKey v suffix m) value (groupKey v suffix n)
      = if n = m then value else s (groupKey v suffix n) := by
  rw [Function.update_apply]
  by_cases h : n = m
  · rw [if_pos h, if_pos (by rw [h])]
  · rw [if_neg h, if_neg]
    intro heq
    exact h ((groupKey_inj rfl hn hm).mp heq).2

/-- Another family's keys stay as they are. -/
theorem update_groupKey_of_ne {v : ℤ} {t u : Bytes} {m n : ℕ} (hm : m < 2 ^ 32) (hn : n < 2 ^ 32)
    (hlen : t.length = u.length) (hne : t ≠ u) (s : Store) (value : Option Value) :
    Function.update s (groupKey v t m) value (groupKey v u n) = s (groupKey v u n) := by
  apply Function.update_of_ne
  intro heq
  exact hne ((groupKey_inj hlen.symm hn hm).mp heq).1.symm

end AscendShmem.GroupEngine
