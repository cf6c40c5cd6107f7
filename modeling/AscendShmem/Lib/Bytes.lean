import Mathlib
import AscendShmem.Lib.Exec

/-!
# Byte strings and fixed-size records

Little-endian integers, byte ranges of a buffer, and codecs of fixed-size records. A
`Codec` carries its own round trips, so a record assembled from integers with `pair` and
`map` needs no proof of its own, and an array of records (`encAll`, `decAll`) is read back
from any buffer that holds its bytes.
-/

namespace Lib

/-! ## Little-endian integers -/

/-- The `n` low bytes of `v`, least significant first. -/
def leBytes : ℕ → ℕ → List UInt8
  | 0, _ => []
  | n + 1, v => UInt8.ofNat v :: leBytes n (v / 256)

/-- The value of a little-endian byte string. -/
def leValue : List UInt8 → ℕ
  | [] => 0
  | b :: bs => b.toNat + 256 * leValue bs

@[simp] theorem length_leBytes (n v : ℕ) : (leBytes n v).length = n := by
  induction n generalizing v with
  | zero => rfl
  | succ n ih => simp [leBytes, ih]

/-- As many bytes hold a number modulo a power of 256. -/
theorem leValue_leBytes (n v : ℕ) : leValue (leBytes n v) = v % 256 ^ n := by
  induction n generalizing v with
  | zero => simp [leBytes, leValue, Nat.mod_one]
  | succ n ih =>
    have hb : (UInt8.ofNat v).toNat = v % 256 := by simp
    rw [leBytes, leValue, ih, hb, pow_succ', Nat.mod_mul]

/-- Bytes are the bytes of their number. -/
theorem leBytes_leValue (bs : List UInt8) : leBytes bs.length (leValue bs) = bs := by
  induction bs with
  | nil => rfl
  | cons b bs ih =>
    have hb : b.toNat < 256 := b.toNat_lt
    have hlow : UInt8.ofNat (b.toNat + 256 * leValue bs) = b := by
      apply UInt8.toNat_inj.mp
      rw [UInt8.toNat_ofNat']
      omega
    have hhigh : (b.toNat + 256 * leValue bs) / 256 = leValue bs := by omega
    rw [List.length_cons, leValue, leBytes, hlow, hhigh, ih]

/-- A number of so many bytes. -/
theorem leValue_lt (bs : List UInt8) : leValue bs < 256 ^ bs.length := by
  induction bs with
  | nil => simp [leValue]
  | cons b bs ih =>
    have hb : b.toNat < 256 := b.toNat_lt
    rw [leValue, List.length_cons, pow_succ']
    omega

/-! ## Byte ranges -/

/-- The bytes `[off, off + n)` of a buffer. -/
def slice (bs : List UInt8) (off n : ℕ) : List UInt8 := (bs.drop off).take n

theorem length_slice {bs : List UInt8} {off n : ℕ} (h : off + n ≤ bs.length) :
    (slice bs off n).length = n := by
  simp only [slice, List.length_take, List.length_drop]
  omega

theorem getElem?_slice {bs : List UInt8} {off n i : ℕ} (h : i < n) :
    (slice bs off n)[i]? = bs[off + i]? := by
  rw [slice, List.getElem?_take_of_lt h, List.getElem?_drop]

/-- Two ranges with the same bytes at every offset are equal. -/
theorem slice_congr {bs cs : List UInt8} {off n : ℕ}
    (h : ∀ i < n, bs[off + i]? = cs[off + i]?) : slice bs off n = slice cs off n := by
  apply List.ext_getElem?
  intro i
  by_cases hi : i < n
  · rw [getElem?_slice hi, getElem?_slice hi, h i hi]
  · rw [List.getElem?_eq_none, List.getElem?_eq_none] <;>
      simp only [slice, List.length_take, List.length_drop] <;> omega

theorem slice_append_left {bs : List UInt8} (cs : List UInt8) {off n : ℕ}
    (h : off + n ≤ bs.length) : slice (bs ++ cs) off n = slice bs off n :=
  slice_congr fun _ hi => List.getElem?_append_left (by omega)

/-- The bytes of equal ranges are equal. -/
theorem getElem?_of_slice_eq {bs cs : List UInt8} {off n i : ℕ}
    (h : slice bs off n = slice cs off n) (h1 : off ≤ i) (h2 : i < off + n) : bs[i]? = cs[i]? := by
  have hb : (slice bs off n)[i - off]? = bs[off + (i - off)]? := getElem?_slice (by omega)
  have hc : (slice cs off n)[i - off]? = cs[off + (i - off)]? := getElem?_slice (by omega)
  rw [Nat.add_sub_cancel' h1] at hb hc
  rw [← hb, ← hc, h]

theorem slice_add (bs : List UInt8) (off n m : ℕ) :
    slice bs off (n + m) = slice bs off n ++ slice bs (off + n) m := by
  rw [slice, slice, slice, List.take_add, List.drop_drop]

/-- `bs` with the bytes from `off` on overwritten by `src`. -/
def patch (bs : List UInt8) (off : ℕ) (src : List UInt8) : List UInt8 :=
  bs.take off ++ src ++ bs.drop (off + src.length)

@[simp] theorem length_patch {bs src : List UInt8} {off : ℕ} (h : off + src.length ≤ bs.length) :
    (patch bs off src).length = bs.length := by
  simp only [patch, List.length_append, List.length_take, List.length_drop]
  omega

theorem take_patch {bs src : List UInt8} {off : ℕ} (h : off ≤ bs.length) :
    (patch bs off src).take (off + src.length) = bs.take off ++ src := by
  have hlen : (bs.take off ++ src).length = off + src.length := by
    rw [List.length_append, List.length_take, Nat.min_eq_left h]
  rw [patch, ← hlen, List.take_left]

/-- What was written is read. -/
theorem slice_patch_self {bs src : List UInt8} {off : ℕ} (h : off + src.length ≤ bs.length) :
    slice (patch bs off src) off src.length = src := by
  have hlen : (bs.take off).length = off := by rw [List.length_take]; omega
  rw [slice, patch, List.append_assoc, List.drop_append_of_le_length (by omega),
    List.drop_of_length_le (by omega), List.nil_append,
    List.take_append_of_le_length (le_refl _), List.take_length]

/-- Inside the patch its bytes, outside the old ones. -/
theorem getElem?_patch {bs src : List UInt8} {off i : ℕ} (h : off + src.length ≤ bs.length) :
    (patch bs off src)[i]? =
      if off ≤ i ∧ i < off + src.length then src[i - off]? else bs[i]? := by
  have hlen : (bs.take off).length = off := by rw [List.length_take]; omega
  rw [patch]
  by_cases h1 : i < off
  · rw [if_neg (by omega), List.append_assoc, List.getElem?_append_left (by omega),
      List.getElem?_take_of_lt h1]
  · by_cases h2 : i < off + src.length
    · rw [if_pos ⟨by omega, h2⟩, List.getElem?_append_left (by rw [List.length_append]; omega),
        List.getElem?_append_right (by omega), hlen]
    · rw [if_neg (by omega), List.getElem?_append_right (by rw [List.length_append]; omega),
        List.getElem?_drop, List.length_append, hlen]
      congr 1
      omega

/-- A patch leaves a disjoint range as it was. -/
theorem slice_patch_disjoint {bs src : List UInt8} {off o n : ℕ}
    (h : off + src.length ≤ bs.length) (hd : o + n ≤ off ∨ off + src.length ≤ o) :
    slice (patch bs off src) o n = slice bs o n := by
  apply slice_congr
  intro i hi
  rw [getElem?_patch h, if_neg (by omega)]

namespace Exec

variable {σ : Type}

/-- `memcpy` out of a buffer. -/
def copyFrom (bs : List UInt8) (off n : ℕ) : Exec σ (List UInt8) :=
  if off + n ≤ bs.length then .ok (slice bs off n) else .error .outOfRange

/-- `memcpy` into a buffer. -/
def copyInto (bs : List UInt8) (off : ℕ) (src : List UInt8) : Exec σ (List UInt8) :=
  if off + src.length ≤ bs.length then .ok (patch bs off src) else .error .outOfRange

theorem copyFrom_of_le {bs : List UInt8} {off n : ℕ} (h : off + n ≤ bs.length) :
    (copyFrom bs off n : Exec σ _) = .ok (slice bs off n) := if_pos h

theorem copyFrom_eq_ok {bs out : List UInt8} {off n : ℕ} :
    (copyFrom bs off n : Exec σ _) = .ok out ↔ off + n ≤ bs.length ∧ out = slice bs off n := by
  unfold copyFrom
  split <;> simp [*, eq_comm]

/-- How a copy may end. -/
theorem Ends.copyFrom {bs : List UInt8} {off n : ℕ} {Q : List UInt8 → Prop} {E : σ → Prop}
    {F : Prop} (hq : off + n ≤ bs.length → Q (slice bs off n)) (hn : bs.length < off + n → F) :
    Ends (Exec.copyFrom bs off n) Q E F := by
  by_cases h : off + n ≤ bs.length
  · rw [copyFrom_of_le h]
    exact hq h
  · unfold Exec.copyFrom
    rw [if_neg h]
    exact hn (by omega)

theorem copyInto_of_le {bs src : List UInt8} {off : ℕ} (h : off + src.length ≤ bs.length) :
    (copyInto bs off src : Exec σ _) = .ok (patch bs off src) := if_pos h

end Exec

/-! ## Bytes at an offset -/

/-- The bytes `bs` stand in the memory from `off` on. -/
def BytesAt (memory : List UInt8) (off : ℕ) (bs : List UInt8) : Prop :=
  off + bs.length ≤ memory.length ∧ slice memory off bs.length = bs

/-- Two byte strings, one behind the other. -/
theorem bytesAt_append {memory bs cs : List UInt8} {off : ℕ} :
    BytesAt memory off (bs ++ cs) ↔
      BytesAt memory off bs ∧ BytesAt memory (off + bs.length) cs := by
  unfold BytesAt
  rw [List.length_append, slice_add]
  constructor
  · intro ⟨hend, heq⟩
    have hlen : (slice memory off bs.length).length = bs.length := length_slice (by omega)
    have hboth := List.append_inj heq hlen
    exact ⟨⟨by omega, hboth.1⟩, by omega, hboth.2⟩
  · intro ⟨⟨_, hbs⟩, hend, hcs⟩
    rw [hbs, hcs]
    exact ⟨by omega, rfl⟩

theorem bytesAt_zero {memory bs : List UInt8} :
    BytesAt memory 0 bs ↔ bs.length ≤ memory.length ∧ memory.take bs.length = bs := by
  unfold BytesAt slice
  rw [Nat.zero_add, List.drop_zero]

/-- The place of an entry among entries of one size. -/
theorem bytesAt_flatMap {α : Type} {f : α → List UInt8} {n k : ℕ} {l : List α} {a : α}
    (hf : ∀ b ∈ l, (f b).length = n) (h : l[k]? = some a) : BytesAt (l.flatMap f) (k * n) (f a) := by
  induction l generalizing k with
  | nil => simp at h
  | cons b l ih =>
    have hrest : ∀ c ∈ l, (f c).length = n := fun c hc => hf c (List.mem_cons_of_mem b hc)
    have hb : (f b).length = n := hf b List.mem_cons_self
    rw [List.flatMap_cons]
    cases k with
    | zero =>
      rw [List.getElem?_cons_zero, Option.some.injEq] at h
      subst h
      refine ⟨by rw [List.length_append]; omega, ?_⟩
      rw [Nat.zero_mul, slice, List.drop_zero, List.take_left]
    | succ k =>
      rw [List.getElem?_cons_succ] at h
      rcases ih hrest h with ⟨hend, hslice⟩
      have hoff : (k + 1) * n = (f b).length + k * n := by rw [hb, Nat.succ_mul, Nat.add_comm]
      refine ⟨by rw [List.length_append, hoff]; omega, ?_⟩
      rw [hoff, slice, ← List.drop_drop, List.drop_left]
      exact hslice

theorem bytesAt_nil {memory : List UInt8} {off : ℕ} :
    BytesAt memory off [] ↔ off ≤ memory.length := by
  unfold BytesAt slice
  rw [List.length_nil, Nat.add_zero, List.take_zero]
  exact and_iff_left rfl

/-- What a copy gives are the bytes there. -/
theorem Exec.copyFrom_eq_ok_iff {σ : Type} {memory out : List UInt8} {off n : ℕ} :
    (Exec.copyFrom memory off n : Exec σ _) = .ok out ↔
      BytesAt memory off out ∧ out.length = n := by
  rw [Exec.copyFrom_eq_ok]
  constructor
  · rintro ⟨hend, rfl⟩
    have hlen := length_slice hend
    unfold BytesAt
    rw [hlen]
    exact ⟨⟨hend, rfl⟩, rfl⟩
  · rintro ⟨⟨hend, heq⟩, rfl⟩
    exact ⟨hend, heq.symm⟩

/-! ## Codecs -/

/-- A fixed-size binary representation with both round trips. -/
structure Codec (α : Type) where
  size : ℕ
  enc : α → List UInt8
  dec : List UInt8 → α
  length_enc : ∀ a, (enc a).length = size
  dec_enc : ∀ a, dec (enc a) = a
  enc_dec : ∀ bs, bs.length = size → enc (dec bs) = bs

namespace Codec

variable {α β : Type}

/-- 16-bit little-endian words. -/
def u16 : Codec UInt16 where
  size := 2
  enc x := leBytes 2 x.toNat
  dec bs := UInt16.ofNat (leValue bs)
  length_enc _ := length_leBytes _ _
  dec_enc x := by
    have hx : x.toNat < 65536 := x.toNat_lt
    apply UInt16.toNat_inj.mp
    rw [leValue_leBytes, UInt16.toNat_ofNat']
    omega
  enc_dec bs h := by
    have hlt := leValue_lt bs
    rw [h] at hlt
    rw [UInt16.toNat_ofNat', Nat.mod_eq_of_lt (by omega), ← h, leBytes_leValue]

/-- 32-bit little-endian words. -/
def u32 : Codec UInt32 where
  size := 4
  enc x := leBytes 4 x.toNat
  dec bs := UInt32.ofNat (leValue bs)
  length_enc _ := length_leBytes _ _
  dec_enc x := by
    have hx : x.toNat < 4294967296 := x.toNat_lt
    apply UInt32.toNat_inj.mp
    rw [leValue_leBytes, UInt32.toNat_ofNat']
    omega
  enc_dec bs h := by
    have hlt := leValue_lt bs
    rw [h] at hlt
    rw [UInt32.toNat_ofNat', Nat.mod_eq_of_lt (by omega), ← h, leBytes_leValue]

/-- 64-bit little-endian words. -/
def u64 : Codec UInt64 where
  size := 8
  enc x := leBytes 8 x.toNat
  dec bs := UInt64.ofNat (leValue bs)
  length_enc _ := length_leBytes _ _
  dec_enc x := by
    have hx : x.toNat < 18446744073709551616 := x.toNat_lt
    apply UInt64.toNat_inj.mp
    rw [leValue_leBytes, UInt64.toNat_ofNat']
    omega
  enc_dec bs h := by
    have hlt := leValue_lt bs
    rw [h] at hlt
    rw [UInt64.toNat_ofNat', Nat.mod_eq_of_lt (by omega), ← h, leBytes_leValue]

/-- Two records one after the other. -/
def pair (c : Codec α) (d : Codec β) : Codec (α × β) where
  size := c.size + d.size
  enc p := c.enc p.1 ++ d.enc p.2
  dec bs := (c.dec (bs.take c.size), d.dec (bs.drop c.size))
  length_enc p := by rw [List.length_append, c.length_enc, d.length_enc]
  dec_enc p := by
    rw [← c.length_enc p.1, List.take_left, List.drop_left, c.dec_enc, d.dec_enc]
  enc_dec bs h := by
    have h1 : (bs.take c.size).length = c.size := by rw [List.length_take]; omega
    have h2 : (bs.drop c.size).length = d.size := by rw [List.length_drop]; omega
    rw [c.enc_dec _ h1, d.enc_dec _ h2, List.take_append_drop]

/-- The codec of a record that is another one under different names. -/
def map (c : Codec α) (e : α ≃ β) : Codec β where
  size := c.size
  enc b := c.enc (e.symm b)
  dec bs := e (c.dec bs)
  length_enc b := c.length_enc _
  dec_enc b := by rw [c.dec_enc, e.apply_symm_apply]
  enc_dec bs h := by rw [e.symm_apply_apply, c.enc_dec bs h]

/-! ## Arrays of records -/

/-- The bytes of an array. -/
def encAll (c : Codec α) (l : List α) : List UInt8 := l.flatMap c.enc

/-- The `n` records at the front of a buffer. -/
def decAll (c : Codec α) : ℕ → List UInt8 → List α
  | 0, _ => []
  | n + 1, bs => c.dec (bs.take c.size) :: decAll c n (bs.drop c.size)

@[simp] theorem length_encAll (c : Codec α) (l : List α) :
    (c.encAll l).length = c.size * l.length := by
  induction l with
  | nil => simp [encAll]
  | cons a l ih =>
    simp only [encAll, List.flatMap_cons, List.length_append, c.length_enc] at ih ⊢
    rw [ih, List.length_cons]
    ring

@[simp] theorem length_decAll (c : Codec α) (n : ℕ) (bs : List UInt8) :
    (c.decAll n bs).length = n := by
  induction n generalizing bs with
  | zero => rfl
  | succ n ih => simp [decAll, ih]

/-- Records are read back. -/
theorem decAll_encAll (c : Codec α) (l : List α) : c.decAll l.length (c.encAll l) = l := by
  induction l with
  | nil => rfl
  | cons a l ih =>
    have h : c.encAll (a :: l) = c.enc a ++ c.encAll l := rfl
    rw [List.length_cons, decAll, h, ← c.length_enc a, List.take_left, List.drop_left, c.dec_enc,
      ih]

/-- Bytes are those of the records they hold. -/
theorem encAll_decAll (c : Codec α) (n : ℕ) {bs : List UInt8} (h : bs.length = c.size * n) :
    c.encAll (c.decAll n bs) = bs := by
  induction n generalizing bs with
  | zero =>
    rw [Nat.mul_zero, List.length_eq_zero_iff] at h
    rw [h]
    rfl
  | succ n ih =>
    have hs : bs.length = c.size + c.size * n := by rw [h]; ring
    have h1 : (bs.take c.size).length = c.size := by rw [List.length_take]; omega
    have h2 : (bs.drop c.size).length = c.size * n := by rw [List.length_drop]; omega
    have hcons : c.encAll (c.decAll (n + 1) bs)
        = c.enc (c.dec (bs.take c.size)) ++ c.encAll (c.decAll n (bs.drop c.size)) := rfl
    rw [hcons, c.enc_dec _ h1, ih h2, List.take_append_drop]

end Codec
end Lib
