import AscendShmem.TopoXml.Parser

/-!
# Scans of a known text

What the scans of the parser return where the text ahead of the position is known (`Ahead`): the
position behind what they skip or read. A terminator is found behind the body that it closes because
its last byte occurs in it only once, so that it cannot begin inside the body.
-/

namespace AscendShmem.TopoXml

open Lib Lib.Exec

/-- The text from the position on. -/
structure Ahead (xml : Bytes) (pos : ℕ) (bytes : Bytes) : Prop where
  bound : pos ≤ xml.length
  drop : xml.drop pos = bytes

theorem ahead_start (xml : Bytes) : Ahead xml 0 xml := ⟨Nat.zero_le _, rfl⟩

theorem Ahead.length {xml : Bytes} {pos : ℕ} {bytes : Bytes} (h : Ahead xml pos bytes) :
    xml.length = pos + bytes.length := by
  rw [← h.drop, List.length_drop, Nat.add_sub_cancel' h.bound]

/-- Behind the first bytes the others are ahead. -/
theorem Ahead.skip {xml : Bytes} {pos : ℕ} {bytes rest : Bytes} (h : Ahead xml pos (bytes ++ rest)) :
    Ahead xml (pos + bytes.length) rest := by
  refine ⟨?_, ?_⟩
  · rw [h.length, List.length_append]
    omega
  · rw [← List.drop_drop, h.drop, List.drop_left]

theorem Ahead.next {xml : Bytes} {pos : ℕ} {b : UInt8} {rest : Bytes}
    (h : Ahead xml pos (b :: rest)) : Ahead xml (pos + 1) rest :=
  @Ahead.skip xml pos [b] rest h

theorem Ahead.lt {xml : Bytes} {pos : ℕ} {b : UInt8} {rest : Bytes} (h : Ahead xml pos (b :: rest)) :
    pos < xml.length := by
  rw [h.length, List.length_cons]
  omega

theorem Ahead.read {xml : Bytes} {pos : ℕ} {b : UInt8} {rest : Bytes}
    (h : Ahead xml pos (b :: rest)) : (read xml pos : Parse UInt8) = .ok b := by
  refine read_of ?_
  rw [← List.head?_drop, h.drop, List.head?_cons]

theorem Ahead.at_end {xml : Bytes} {pos : ℕ} (h : Ahead xml pos []) : ¬ pos < xml.length := by
  rw [h.length, List.length_nil]
  omega

/-! ## Skips -/

/-- Whitespace only. -/
def Spaces (bytes : Bytes) : Prop := ∀ b ∈ bytes, isSpace b = true

instance (bytes : Bytes) : Decidable (Spaces bytes) :=
  inferInstanceAs (Decidable (∀ b ∈ bytes, isSpace b = true))

/-- The text does not begin with a byte of `p`. -/
def Stops (p : UInt8 → Bool) (bytes : Bytes) : Prop := ∀ b, bytes.head? = some b → p b = false

theorem stops_cons {p : UInt8 → Bool} {b : UInt8} {bytes : Bytes} (h : p b = false) :
    Stops p (b :: bytes) := by
  intro c hc
  rw [← Option.some.inj hc, h]

theorem Stops.append {p : UInt8 → Bool} {front back : Bytes} (hfront : ∀ b ∈ front, p b = false)
    (hback : Stops p back) : Stops p (front ++ back) := by
  cases front with
  | nil => exact hback
  | cons b front => exact stops_cons (hfront b (.head _))

/-- What is to be skipped is. -/
theorem skipWhile_eq {xml : Bytes} {p : UInt8 → Bool} {skipped rest : Bytes} {pos : ℕ}
    (h : Ahead xml pos (skipped ++ rest)) (hskipped : ∀ b ∈ skipped, p b = true) (hrest : Stops p rest)
    (fuel : ℕ) (hfuel : skipped.length < fuel) :
    skipWhile xml p fuel pos = .ok (pos + skipped.length) := by
  induction skipped generalizing pos fuel with
  | nil =>
    obtain ⟨fuel, rfl⟩ := Nat.exists_eq_succ_of_ne_zero hfuel.ne_bot
    rw [skipWhile]
    cases rest with
    | nil => rw [if_neg h.at_end]; rfl
    | cons b rest =>
      have hb := hrest b rfl
      rw [if_pos h.lt, h.read, ok_bind, hb, if_neg Bool.false_ne_true]
      rfl
  | cons b skipped ih =>
    obtain ⟨fuel, rfl⟩ := Nat.exists_eq_succ_of_ne_zero hfuel.ne_bot
    have hnext := ih h.next (fun c hc => hskipped c (.tail _ hc)) fuel (Nat.lt_of_succ_lt_succ hfuel)
    rw [skipWhile, if_pos h.lt, h.read, ok_bind, if_pos (hskipped b (.head _)), hnext,
      List.length_cons, Nat.add_assoc, Nat.add_comm 1]

/-- The bound of a loop is enough for what it skips. -/
theorem Ahead.fuel {xml : Bytes} {pos : ℕ} {bytes rest : Bytes} (h : Ahead xml pos (bytes ++ rest)) :
    bytes.length < xml.length + 1 := by
  have hlength := h.length
  rw [List.length_append] at hlength
  omega

theorem skipWhitespace_eq {xml spaces rest : Bytes} {pos : ℕ} (h : Ahead xml pos (spaces ++ rest))
    (hspaces : Spaces spaces) (hrest : Stops isSpace rest) :
    skipWhitespace xml pos = .ok (pos + spaces.length) :=
  skipWhile_eq h hspaces hrest _ h.fuel

theorem substr_eq {xml bytes rest : Bytes} {pos : ℕ} (h : Ahead xml pos (bytes ++ rest)) :
    substr xml pos bytes.length = .ok bytes := by
  rw [substr, if_pos h.bound, h.drop, List.take_left]

/-- A name over the alphabet of the parser. -/
def IsName (name : Bytes) : Prop :=
  ∃ first more, name = first :: more ∧ isNameStart first = true ∧ ∀ b ∈ more, isNameChar b = true

instance : DecidablePred IsName
  | [] => isFalse fun ⟨_, _, h, _⟩ => nomatch h
  | first :: more => decidable_of_iff (isNameStart first = true ∧ ∀ b ∈ more, isNameChar b = true)
      ⟨fun h => ⟨first, more, rfl, h⟩, fun ⟨_, _, h, h'⟩ => by
        obtain ⟨rfl, rfl⟩ := List.cons.inj h
        exact h'⟩

/-- A name ahead is read. -/
theorem parseName_eq {xml name rest : Bytes} {pos maxLength : ℕ} (h : Ahead xml pos (name ++ rest))
    (hname : IsName name) (hlength : name.length ≤ maxLength) (hrest : Stops isNameChar rest)
    (fieldName : String) :
    parseName xml pos maxLength fieldName = .ok (name, pos + name.length) := by
  obtain ⟨first, more, rfl, hfirst, hmore⟩ := hname
  have hskip := skipWhile_eq h.next hmore hrest (xml.length + 1)
    (by have := h.fuel; rw [List.length_cons] at this; omega)
  have hstop : pos + 1 + more.length - pos = (first :: more).length := by
    rw [List.length_cons]
    omega
  unfold parseName
  rw [if_pos h.lt, h.read, ok_bind, if_pos hfirst, hskip, ok_bind]
  dsimp only
  rw [hstop, if_neg (Nat.not_lt.mpr hlength), substr_eq h, ok_bind, List.length_cons, Nat.add_assoc,
    Nat.add_comm 1]

/-! ## Searches -/

theorem compare_eq {xml bytes : Bytes} {pos : ℕ} (h : Ahead xml pos bytes) (pattern : Bytes) :
    compare xml pos pattern = .ok (decide (bytes.take pattern.length = pattern)) := by
  rw [compare, if_pos h.bound, h.drop]

theorem compare_found {xml rest : Bytes} {pos : ℕ} {pattern : Bytes}
    (h : Ahead xml pos (pattern ++ rest)) : compare xml pos pattern = .ok true := by
  rw [compare_eq h, List.take_left]
  exact congrArg _ (decide_eq_true rfl)

theorem compare_other {xml bytes : Bytes} {pos : ℕ} (h : Ahead xml pos bytes) {pattern : Bytes}
    (hother : ¬ pattern <+: bytes) : compare xml pos pattern = .ok false := by
  rw [compare_eq h]
  refine congrArg _ (decide_eq_false fun htake => hother ?_)
  rw [List.prefix_iff_eq_take, htake]

/-- A pattern that ends with a byte it has only once cannot begin inside a body without it. -/
theorem not_prefix_of_not_infix {front body : Bytes} {last : UInt8} (hlast : last ∉ front)
    (hbody : ¬ (front ++ [last]) <:+: body) (hne : body ≠ []) (rest : Bytes) :
    ¬ (front ++ [last]) <+: body ++ (front ++ [last]) ++ rest := by
  intro hfront
  by_cases hle : (front ++ [last]).length ≤ body.length
  · -- it would lie in the body
    have hinside : (front ++ [last]) <+: body := by
      rw [List.append_assoc] at hfront
      exact List.prefix_of_prefix_length_le hfront (List.prefix_append _ _) hle
    exact hbody hinside.isInfix
  · -- its last byte would be one of the others
    rw [List.length_append, List.length_singleton] at hle
    have hpos : 0 < body.length := List.length_pos_iff.mpr hne
    have hget := List.prefix_iff_getElem?.mp hfront front.length (by simp)
    rw [List.append_assoc, List.getElem?_append_right (by omega), List.append_assoc,
      List.getElem?_append_left (by omega), List.getElem_append_right (le_refl _)] at hget
    simp only [Nat.sub_self, List.getElem_singleton] at hget
    exact hlast (List.mem_of_getElem? hget)

/-- A terminator is found behind a text without it. -/
theorem findIn_terminator {front body : Bytes} {last : UInt8} (hlast : last ∉ front)
    (hbody : ¬ (front ++ [last]) <:+: body) (rest : Bytes) (pos : ℕ) :
    findIn (front ++ [last]) (body ++ (front ++ [last]) ++ rest) pos = some (pos + body.length) := by
  induction body generalizing pos with
  | nil =>
    have hcons : ∃ b more, [] ++ (front ++ [last]) ++ rest = b :: more := by
      cases front with
      | nil => exact ⟨_, _, rfl⟩
      | cons b front => exact ⟨_, _, rfl⟩
    obtain ⟨b, more, hcons⟩ := hcons
    have hfront : (front ++ [last]) <+: b :: more := ⟨rest, hcons⟩
    rw [hcons, findIn, if_pos hfront]
    rfl
  | cons b body ih =>
    have hother := not_prefix_of_not_infix hlast hbody (List.cons_ne_nil b body) rest
    have hnext := ih (fun hinside => hbody (hinside.trans (List.suffix_cons b body).isInfix)) (pos + 1)
    rw [List.cons_append, List.cons_append] at hother ⊢
    rw [findIn, if_neg hother, hnext, List.length_cons, Nat.add_assoc, Nat.add_comm 1]

/-- A terminator behind a body that does not contain it. -/
theorem skipPast_eq {xml front body rest : Bytes} {last : UInt8} {pos : ℕ}
    (h : Ahead xml pos (body ++ (front ++ [last]) ++ rest)) (hlast : last ∉ front)
    (hbody : ¬ (front ++ [last]) <:+: body) (message : String) :
    skipPast xml (front ++ [last]) pos message
      = .ok (pos + (body ++ (front ++ [last])).length) := by
  rw [skipPast, find, if_pos h.bound, h.drop, findIn_terminator hlast hbody]
  dsimp only
  rw [@List.length_append _ body, Nat.add_assoc]

theorem mem_of_singleton {b : UInt8} {bytes : Bytes} (h : [b] <:+: bytes) : b ∈ bytes :=
  h.subset (List.mem_singleton_self b)

/-- The next markup. -/
theorem find_markup {xml text rest : Bytes} {pos : ℕ} (h : Ahead xml pos (text ++ byte '<' :: rest))
    (htext : byte '<' ∉ text) : find xml [byte '<'] pos = some (pos + text.length) := by
  have hfind := @findIn_terminator [] text (byte '<') List.not_mem_nil
    (fun hinside => htext (mem_of_singleton hinside)) rest pos
  rw [List.nil_append, List.append_assoc, List.singleton_append] at hfind
  rw [find, if_pos h.bound, h.drop, hfind]

/-- No markup is left. -/
theorem find_none {xml text : Bytes} {pos : ℕ} (h : Ahead xml pos text) (htext : byte '<' ∉ text) :
    find xml [byte '<'] pos = none := by
  have hnone : ∀ (text : Bytes) (pos : ℕ), byte '<' ∉ text → findIn [byte '<'] text pos = none := by
    intro text
    induction text with
    | nil => exact fun pos _ => if_neg (List.cons_ne_nil _ _)
    | cons b text ih =>
      intro pos htext
      have hother : ¬ [byte '<'] <+: b :: text :=
        fun hfront => htext (mem_of_singleton hfront.isInfix)
      rw [findIn, if_neg hother]
      exact ih (pos + 1) fun hmem => htext (.tail _ hmem)
  rw [find, if_pos h.bound, h.drop, hnone text pos htext]

/-! ## Declarations -/

/-- The body of a markup declaration inside `depth` open brackets, its quotes and brackets balanced; a
`>` may stand in a quote or inside brackets. The brackets nest no deeper than an `int` counts, which
only a text of 4 GiB and more would exceed. -/
inductive Declared : ℕ → Bytes → Prop where
  | nil (depth : ℕ) : Declared depth []
  | plain {depth : ℕ} {b : UInt8} {rest : Bytes} (hquote : b ≠ apostrophe ∧ b ≠ quotationMark)
      (hbracket : b ≠ byte '[' ∧ b ≠ byte ']') (hclose : b = byte '>' → 0 < depth)
      (hrest : Declared depth rest) : Declared depth (b :: rest)
  | quoted {depth : ℕ} {quote : UInt8} {inner rest : Bytes}
      (hquote : quote = apostrophe ∨ quote = quotationMark) (hinner : quote ∉ inner)
      (hrest : Declared depth rest) : Declared depth (quote :: inner ++ quote :: rest)
  | subset {depth : ℕ} {inner rest : Bytes} (hdepth : depth + 1 < 2 ^ 31)
      (hinner : Declared (depth + 1) inner) (hrest : Declared depth rest) :
      Declared depth (byte '[' :: inner ++ byte ']' :: rest)

/-- A quote goes to its end. -/
theorem skipDeclarationLoop_quote {xml inner rest : Bytes} {quote : UInt8} {pos : ℕ}
    (h : Ahead xml pos (inner ++ quote :: rest)) (hinner : quote ∉ inner) (fuel : ℕ)
    (subsetDepth : ℤ) :
    skipDeclarationLoop xml (fuel + (inner.length + 1)) pos (some quote) subsetDepth
      = skipDeclarationLoop xml fuel (pos + (inner.length + 1)) none subsetDepth := by
  induction inner generalizing pos with
  | nil =>
    rw [List.length_nil, Nat.zero_add, skipDeclarationLoop, if_pos h.lt, Ahead.read h, ok_bind]
    exact if_pos rfl
  | cons b inner ih =>
    have hb : b ≠ quote := fun hb => hinner (hb ▸ .head _)
    rw [List.length_cons, ← Nat.add_assoc fuel, skipDeclarationLoop, if_pos h.lt, h.read, ok_bind]
    dsimp only
    rw [if_neg hb, ih h.next fun hmem => hinner (.tail _ hmem), Nat.add_assoc, Nat.add_comm 1]

/-- A balanced body is passed over, and the count of open brackets is as before it. -/
theorem skipDeclarationLoop_body {depth : ℕ} {body : Bytes} (hbody : Declared depth body)
    {xml rest : Bytes} {pos : ℕ} (h : Ahead xml pos (body ++ rest)) (fuel : ℕ) :
    skipDeclarationLoop xml (fuel + body.length) pos none depth
      = skipDeclarationLoop xml fuel (pos + body.length) none depth := by
  induction hbody generalizing rest pos fuel with
  | nil depth => rfl
  | @plain depth b rest' hquote hbracket hclose hrest ih =>
    have hend : ¬ (b = byte '>' ∧ (depth : ℤ) = 0) :=
      fun hend => absurd (hclose hend.1) (by omega)
    rw [List.length_cons, ← Nat.add_assoc fuel, skipDeclarationLoop, if_pos h.lt, h.read, ok_bind]
    dsimp only
    rw [if_neg (not_or.mpr hquote), if_neg hbracket.1, if_neg hbracket.2, if_neg hend,
      ih h.next fuel, Nat.add_assoc, Nat.add_comm 1]
  | @quoted depth quote inner rest' hquote hinner hrest ih =>
    rw [List.cons_append, List.cons_append, List.append_assoc, List.cons_append] at h
    have hlength : (quote :: inner ++ quote :: rest').length = rest'.length + (inner.length + 1) + 1 := by
      rw [List.length_append, List.length_cons, List.length_cons]
      omega
    have hinside := skipDeclarationLoop_quote h.next hinner (fuel + rest'.length) depth
    have hbehind := ih h.next.skip.next fuel
    rw [hlength, ← Nat.add_assoc, ← Nat.add_assoc fuel, skipDeclarationLoop, if_pos h.lt, h.read,
      ok_bind]
    dsimp only
    rw [if_pos hquote, hinside, ← Nat.add_assoc (pos + 1), hbehind]
    exact congrArg (fun stop => skipDeclarationLoop xml fuel stop none depth) (by omega)
  | @subset depth inner rest' hdepth hinner hrest ihinner ih =>
    rw [List.cons_append, List.cons_append, List.append_assoc, List.cons_append] at h
    have hlength : (byte '[' :: inner ++ byte ']' :: rest').length
        = rest'.length + 1 + inner.length + 1 := by
      rw [List.length_append, List.length_cons, List.length_cons]
      omega
    have hclosing := h.next.skip
    -- the counter does not wrap, so the one bracket opens a level, which the other closes
    have hopened : ((depth : ℤ) + 1).bmod (2 ^ 32) = (depth + 1 : ℕ) := by
      rw [Int.bmod_def, Int.emod_eq_of_lt (by omega) (by omega), if_pos (by omega), Nat.cast_succ]
    have hclosed : (if (0 : ℤ) < (depth + 1 : ℕ) then ((depth + 1 : ℕ) : ℤ) - 1 else (depth + 1 : ℕ))
        = depth := by
      rw [if_pos (by omega), Nat.cast_succ, add_sub_cancel_right]
    have hinside := ihinner h.next (fuel + rest'.length + 1)
    have hbehind := ih hclosing.next fuel
    rw [hlength, ← Nat.add_assoc, ← Nat.add_assoc fuel, ← Nat.add_assoc fuel, skipDeclarationLoop,
      if_pos h.lt, h.read, ok_bind]
    dsimp only
    rw [if_neg (by decide), if_pos rfl, hopened, hinside, skipDeclarationLoop, if_pos hclosing.lt,
      hclosing.read, ok_bind]
    dsimp only
    rw [if_neg (by decide), if_neg (by decide), if_pos rfl, hclosed, hbehind]
    exact congrArg (fun stop => skipDeclarationLoop xml fuel stop none depth) (by omega)

/-- A declaration is skipped up to its bracket. -/
theorem skipMarkupDeclaration_eq {xml body rest : Bytes} {pos : ℕ} (hbody : Declared 0 body)
    (h : Ahead xml pos (body ++ byte '>' :: rest)) :
    skipMarkupDeclaration xml pos = .ok (pos + (body.length + 1)) := by
  have hlength := h.length
  rw [List.length_append, List.length_cons] at hlength
  have hclose := h.skip
  rw [skipMarkupDeclaration, show xml.length + 1 = pos + rest.length + 1 + 1 + body.length by omega,
    ← Nat.cast_zero (R := ℤ), skipDeclarationLoop_body hbody h, skipDeclarationLoop, if_pos hclose.lt,
    hclose.read, ok_bind]
  rfl

end AscendShmem.TopoXml
