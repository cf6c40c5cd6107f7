import AscendShmem.Lib.Bytes

/-!
# MessagePack

Unsigned integers, strings and arrays. Each begins with a head, a number in the shortest of its forms:
within the first byte, or in the big-endian bytes behind a code. A reader takes a value off the front of a
text and leaves what is behind it (`TakesOff`).
-/

namespace Lib.Msgpack

/-- The heads of one kind: numbers below `fixLimit` are added to the byte `fixBase`, others follow a code
in a number of bytes. -/
structure Head where
  fixBase : ℕ
  fixLimit : ℕ
  forms : List (UInt8 × ℕ)
  fix_le : fixBase + fixLimit ≤ 256
  apart : ∀ form ∈ forms, form.1.toNat < fixBase ∨ fixBase + fixLimit ≤ form.1.toNat
  distinct : (forms.map Prod.fst).Nodup
  enough : ∃ form ∈ forms, 4 ≤ form.2

/-- The heads of unsigned integers. -/
def uintHead : Head :=
  ⟨0, 0x80, [(0xcc, 1), (0xcd, 2), (0xce, 4)], by decide, by decide, by decide, by decide⟩

/-- The heads of strings. -/
def strHead : Head :=
  ⟨0xa0, 32, [(0xd9, 1), (0xda, 2), (0xdb, 4)], by decide, by decide, by decide, by decide⟩

/-- The heads of arrays. -/
def arrayHead : Head :=
  ⟨0x90, 16, [(0xdc, 2), (0xdd, 4)], by decide, by decide, by decide, by decide⟩

/-- The shortest head that holds the number. -/
def putHead (head : Head) (n : ℕ) : List UInt8 :=
  if n < head.fixLimit then [UInt8.ofNat (head.fixBase + n)]
  else match head.forms.find? fun form => n < 256 ^ form.2 with
    | some form => form.1 :: (leBytes form.2 n).reverse
    | none => []

/-- A number from any of its heads, and the bytes behind it. -/
def getHead (head : Head) : List UInt8 → Option (ℕ × List UInt8)
  | [] => none
  | b :: rest =>
    if head.fixBase ≤ b.toNat ∧ b.toNat < head.fixBase + head.fixLimit then
      some (b.toNat - head.fixBase, rest)
    else (head.forms.find? fun form => form.1 = b).bind fun form =>
      if rest.length < form.2 then none
      else some (leValue (rest.take form.2).reverse, rest.drop form.2)

/-- A string: the number of its bytes, then the bytes. -/
def putString (s : String) : List UInt8 :=
  putHead strHead s.toByteArray.data.toList.length ++ s.toByteArray.data.toList

/-- A string and the bytes behind it, if it is UTF-8. -/
def getString (bytes : List UInt8) : Option (String × List UInt8) :=
  (getHead strHead bytes).bind fun p =>
    if p.2.length < p.1 then none
    else (String.fromUTF8? ⟨(p.2.take p.1).toArray⟩).map fun s => (s, p.2.drop p.1)

/-- An array: the number of its elements, then the elements. -/
def putArray {α : Type} (put : α → List UInt8) (l : List α) : List UInt8 :=
  putHead arrayHead l.length ++ l.flatMap put

/-- So many elements and the bytes behind them. -/
def getElements {α : Type} (get : List UInt8 → Option (α × List UInt8)) :
    ℕ → List UInt8 → Option (List α × List UInt8)
  | 0, bytes => some ([], bytes)
  | n + 1, bytes => (get bytes).bind fun p =>
    (getElements get n p.2).map fun q => (p.1 :: q.1, q.2)

/-- An array and the bytes behind it. -/
def getArray {α : Type} (get : List UInt8 → Option (α × List UInt8)) (bytes : List UInt8) :
    Option (List α × List UInt8) :=
  (getHead arrayHead bytes).bind fun p => getElements get p.1 p.2

/-! ## Round trips -/

/-- The reader takes the value off the front of every text that begins with these bytes. -/
def TakesOff {α : Type} (get : List UInt8 → Option (α × List UInt8)) (bytes : List UInt8) (a : α) :
    Prop :=
  ∀ rest, get (bytes ++ rest) = some (a, rest)

/-- A head is read back, whatever stands behind it. -/
theorem takesOff_head (head : Head) {n : ℕ} (hn : n < 2 ^ 32) :
    TakesOff (getHead head) (putHead head n) n := by
  intro rest
  have hle := head.fix_le
  by_cases hfix : n < head.fixLimit
  · have hbyte : (UInt8.ofNat (head.fixBase + n)).toNat = head.fixBase + n :=
      UInt8.toNat_ofNat_of_lt' (by
        have : UInt8.size = 256 := rfl
        omega)
    rw [putHead, if_pos hfix, List.singleton_append, getHead, hbyte, if_pos (by omega),
      Nat.add_sub_cancel_left]
  · -- the first form that holds the number
    obtain ⟨form, hform⟩ : ∃ form, head.forms.find? (fun form => n < 256 ^ form.2) = some form := by
      rw [← Option.isSome_iff_exists, List.find?_isSome]
      obtain ⟨form, hmem, hwide⟩ := head.enough
      have hpow : 256 ^ 4 ≤ 256 ^ form.2 := Nat.pow_le_pow_right (by norm_num) hwide
      exact ⟨form, hmem, by simpa using (show n < 256 ^ form.2 by omega)⟩
    have hmem := List.mem_of_find?_eq_some hform
    have hfits : n < 256 ^ form.2 := by simpa using List.find?_some hform
    have hcode : head.forms.find? (fun other => other.1 = form.1) = some form := by
      rcases hfind : head.forms.find? (fun other => other.1 = form.1) with _ | other
      · have hself := List.find?_eq_none.mp hfind form hmem
        simp at hself
      · have hother := List.mem_of_find?_eq_some hfind
        have hkey : other.1 = form.1 := by simpa using List.find?_some hfind
        obtain rfl : other = form := List.inj_on_of_nodup_map head.distinct hother hmem hkey
        exact hfind
    have hapart := head.apart form hmem
    have hlen : (leBytes form.2 n).reverse.length = form.2 := by
      rw [List.length_reverse, length_leBytes]
    rw [putHead, if_neg hfix, hform]
    simp only [List.cons_append, getHead]
    rw [if_neg (by omega), hcode, Option.bind_some, if_neg (by rw [List.length_append]; omega),
      List.take_left' hlen, List.drop_left' hlen, List.reverse_reverse, leValue_leBytes,
      Nat.mod_eq_of_lt hfits]

/-- A string is read back. -/
theorem takesOff_string {s : String} (hs : (putString s).length < 2 ^ 32) :
    TakesOff getString (putString s) s := by
  intro rest
  have hlen : s.toByteArray.data.toList.length < 2 ^ 32 := by
    rw [putString, List.length_append] at hs
    omega
  have hutf8 : String.fromUTF8? ⟨s.toByteArray.data.toList.toArray⟩ = some s := by
    rw [Array.toArray_toList]
    exact dif_pos s.isValidUTF8
  rw [putString, List.append_assoc, getString, takesOff_head strHead hlen, Option.bind_some,
    if_neg (by rw [List.length_append]; omega), List.take_left, List.drop_left, hutf8, Option.map_some]

/-- Elements are read back if each of them is. -/
theorem takesOff_elements {α : Type} {put : α → List UInt8}
    {get : List UInt8 → Option (α × List UInt8)} {l : List α}
    (h : ∀ a ∈ l, TakesOff get (put a) a) :
    TakesOff (getElements get l.length) (l.flatMap put) l := by
  induction l with
  | nil => exact fun _ => rfl
  | cons a l ih =>
    intro rest
    have hrest := ih fun b hb => h b (List.mem_cons_of_mem a hb)
    rw [List.flatMap_cons, List.append_assoc, List.length_cons, getElements,
      h a List.mem_cons_self, Option.bind_some, hrest, Option.map_some]

/-- The bytes of an element are no more than those of the array. -/
theorem length_le_putArray {α : Type} (put : α → List UInt8) {l : List α} {a : α} (ha : a ∈ l) :
    (put a).length ≤ (putArray put l).length := by
  have hsum : (put a).length ≤ (l.map fun a => (put a).length).sum :=
    List.le_sum_of_mem (List.mem_map.mpr ⟨a, ha, rfl⟩)
  rw [putArray, List.length_append, List.length_flatMap]
  exact hsum.trans (Nat.le_add_left _ _)

/-- An array is read back if its elements are. -/
theorem takesOff_array {α : Type} {put : α → List UInt8}
    {get : List UInt8 → Option (α × List UInt8)} {l : List α} (hlen : l.length < 2 ^ 32)
    (h : ∀ a ∈ l, TakesOff get (put a) a) : TakesOff (getArray get) (putArray put l) l := by
  intro rest
  rw [putArray, List.append_assoc, getArray, takesOff_head arrayHead hlen, Option.bind_some,
    takesOff_elements h]

/-- An array has no more elements than bytes. -/
theorem length_le_of_putArray {α : Type} {put : α → List UInt8} (hput : ∀ a, put a ≠ [])
    (l : List α) : l.length ≤ (putArray put l).length := by
  have hsum : l.length ≤ (l.map fun a => (put a).length).sum := by
    induction l with
    | nil => exact le_refl _
    | cons a l ih =>
      have hpos : 0 < (put a).length := List.length_pos_iff.mpr (hput a)
      rw [List.map_cons, List.sum_cons, List.length_cons]
      omega
  rw [putArray, List.length_append, List.length_flatMap]
  exact hsum.trans (Nat.le_add_left _ _)

theorem putHead_ne_nil (head : Head) {n : ℕ} (hn : n < 2 ^ 32) : putHead head n ≠ [] := by
  intro hnil
  have htakes := takesOff_head head hn []
  rw [hnil] at htakes
  cases htakes

theorem putString_ne_nil (s : String) : putString s ≠ [] := by
  by_cases hlen : s.toByteArray.data.toList.length < 2 ^ 32
  · exact List.append_ne_nil_of_left_ne_nil (putHead_ne_nil strHead hlen) _
  · refine List.append_ne_nil_of_right_ne_nil _ fun hnil => hlen ?_
    rw [hnil]
    norm_num

end Lib.Msgpack
