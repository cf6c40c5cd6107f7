import Mathlib

/-!
# JSON

Values, and the texts that spell them. `Spells` is the part of the grammar in which every character
of a string stands for itself and every number is an integer; whitespace may follow a colon or a
comma. `Json.Reads` is what a parser owes these texts. `parse` is such a parser: it descends through
a text with its length as fuel, and leaves what stands behind the value.
-/

namespace Lib

/-- A value. Of an object, the members are those of the text, in its order. -/
inductive Json where
  | null
  | boolean (b : Bool)
  | unsigned (n : UInt64)
  | integer (n : Int64)
  | float (bits : UInt64)
  | string (s : String)
  | array (elements : List Json)
  | object (members : List (String × Json))

namespace Json

/-- The member of a key; a value that is no object has none. -/
def find : Json → String → Option Json
  | object members, key => members.lookup key
  | _, _ => none

/-! ## Texts -/

/-- The characters that stand for themselves in a string. -/
def Plain (c : Char) : Prop := 0x20 ≤ c.toNat ∧ c ≠ '"' ∧ c ≠ '\\'

instance : DecidablePred Plain := fun c => inferInstanceAs (Decidable (0x20 ≤ c.toNat ∧ _ ∧ _))

/-- The whitespace of the grammar. -/
def isBlank (c : Char) : Bool := c = ' ' || c = '\t' || c = '\n' || c = '\r'

/-- A text of whitespace only. -/
def Blank (text : List Char) : Prop := ∀ c ∈ text, isBlank c = true

/-- A string between its quotation marks. -/
def quote (s : String) : List Char := '"' :: (s.toList ++ ['"'])

mutual

/-- The text is one of the value. -/
inductive Spells : List Char → Json → Prop
  | string {s : String} (hs : ∀ c ∈ s.toList, Plain c) : Spells (quote s) (.string s)
  | unsigned (n : UInt64) : Spells (Nat.toDigits 10 n.toNat) (.unsigned n)
  | integer {n : Int64} (hn : n.toInt < 0) :
    Spells ('-' :: Nat.toDigits 10 n.toInt.natAbs) (.integer n)
  | array {text : List Char} {elements : List Json} (h : SpellsElements text elements) :
    Spells ('[' :: (text ++ [']'])) (.array elements)
  | object {text : List Char} {members : List (String × Json)} (h : SpellsMembers text members)
    (hkeys : (members.map Prod.fst).Nodup) : Spells ('{' :: (text ++ ['}'])) (.object members)

/-- A text spells the elements of an array, with whitespace around the commas. -/
inductive SpellsElements : List Char → List Json → Prop
  | nil : SpellsElements [] []
  | last {text : List Char} {value : Json} (h : Spells text value) : SpellsElements text [value]
  | more {text blank rest : List Char} {value next : Json} {values : List Json}
    (h : Spells text value) (hblank : Blank blank) (hrest : SpellsElements rest (next :: values)) :
    SpellsElements (text ++ ',' :: (blank ++ rest)) (value :: next :: values)

/-- A text spells the members of an object. -/
inductive SpellsMembers : List Char → List (String × Json) → Prop
  | nil : SpellsMembers [] []
  | last {key : String} {blank text : List Char} {value : Json} (hkey : ∀ c ∈ key.toList, Plain c)
    (hblank : Blank blank) (h : Spells text value) :
    SpellsMembers (quote key ++ ':' :: (blank ++ text)) [(key, value)]
  | more {key : String} {blank text gap rest : List Char} {value : Json} {next : String × Json}
    {members : List (String × Json)} (hkey : ∀ c ∈ key.toList, Plain c) (hblank : Blank blank)
    (h : Spells text value) (hgap : Blank gap) (hrest : SpellsMembers rest (next :: members)) :
    SpellsMembers (quote key ++ ':' :: (blank ++ (text ++ ',' :: (gap ++ rest))))
      ((key, value) :: next :: members)

end

/-- A parser returns the value that a text spells. -/
def Reads (parse : String → Option Json) : Prop :=
  ∀ text value, Spells text.toList value → parse text = some value

/-! ## A parser -/

/-- The characters up to the closing quotation mark, and what is behind it. -/
def parseString : List Char → Option (String × List Char)
  | [] => none
  | c :: rest =>
    if c = '"' then some ("", rest)
    else (parseString rest).map fun p => (String.ofList (c :: p.1.toList), p.2)

/-- The digits in front, as a number, and what is behind them. -/
def parseDigits (text : List Char) : ℕ × List Char :=
  (Nat.ofDigitChars 10 (text.takeWhile Char.isDigit) 0, text.dropWhile Char.isDigit)

/-- A key in quotes and its colon. -/
def parseKey : List Char → Option (String × List Char)
  | '"' :: rest => (parseString rest).bind fun p =>
    match p.2 with
    | ':' :: rest => some (p.1, rest.dropWhile isBlank)
    | _ => none
  | _ => none

mutual

/-- A value, by its first character. -/
def parseValue : ℕ → List Char → Option (Json × List Char)
  | 0, _ => none
  | _ + 1, [] => none
  | fuel + 1, c :: rest =>
    if c = '"' then (parseString rest).map fun p => (.string p.1, p.2)
    else if c = '-' then
      let p := parseDigits rest
      some (.integer (Int64.ofInt (-p.1)), p.2)
    else if c.isDigit then
      let p := parseDigits (c :: rest)
      some (.unsigned (UInt64.ofNat p.1), p.2)
    else if c = '[' then
      if rest.head? = some ']' then some (.array [], rest.tail)
      else (parseElements fuel rest).map fun p => (.array p.1, p.2)
    else if c = '{' then
      if rest.head? = some '}' then some (.object [], rest.tail)
      else (parseMembers fuel rest).map fun p => (.object p.1, p.2)
    else none

/-- The elements up to the closing bracket. -/
def parseElements : ℕ → List Char → Option (List Json × List Char)
  | 0, _ => none
  | fuel + 1, text => (parseValue fuel text).bind fun p =>
    match p.2 with
    | ']' :: rest => some ([p.1], rest)
    | ',' :: rest =>
      (parseElements fuel (rest.dropWhile isBlank)).map fun q => (p.1 :: q.1, q.2)
    | _ => none

/-- The members up to the closing brace. -/
def parseMembers : ℕ → List Char → Option (List (String × Json) × List Char)
  | 0, _ => none
  | fuel + 1, text => (parseKey text).bind fun key => (parseValue fuel key.2).bind fun p =>
    match p.2 with
    | '}' :: rest => some ([(key.1, p.1)], rest)
    | ',' :: rest =>
      (parseMembers fuel (rest.dropWhile isBlank)).map fun q => ((key.1, p.1) :: q.1, q.2)
    | _ => none

end

/-- A whole text is one value. -/
def parse (text : String) : Option Json :=
  match parseValue text.toList.length text.toList with
  | some (value, []) => some value
  | _ => none

/-! ## The parser reads every text -/

/-- What a text begins with is no closing bracket and no whitespace. -/
theorem Spells.head {text : List Char} {value : Json} (h : Spells text value) :
    ∃ c tail, text = c :: tail ∧ c ≠ ']' ∧ isBlank c = false := by
  cases h with
  | string hs => exact ⟨'"', _, rfl, by decide, by decide⟩
  | unsigned n =>
    -- a number begins with one of its digits
    obtain ⟨c, tail, hcons⟩ := List.exists_cons_of_ne_nil (Nat.toDigits_ne_nil (b := 10) (n := n.toNat))
    have hdigit : c.isDigit = true :=
      Nat.isDigit_of_mem_toDigits (by decide) (by decide) (hcons ▸ List.mem_cons_self)
    refine ⟨c, tail, hcons, ?_, ?_⟩
    · rintro rfl
      exact absurd hdigit (by decide)
    · rw [Bool.eq_false_iff]
      intro hblank
      simp only [isBlank, Bool.or_eq_true, decide_eq_true_eq] at hblank
      rcases hblank with ((rfl | rfl) | rfl) | rfl <;> exact absurd hdigit (by decide)
  | integer hn => exact ⟨'-', _, rfl, by decide, by decide⟩
  | array h => exact ⟨'[', _, rfl, by decide, by decide⟩
  | object h hkeys => exact ⟨'{', _, rfl, by decide, by decide⟩

theorem dropWhile_blank {blank : List Char} (hblank : Blank blank) {c : Char} (hc : isBlank c = false)
    (rest : List Char) : (blank ++ c :: rest).dropWhile isBlank = c :: rest := by
  rw [List.dropWhile_append, List.dropWhile_eq_nil_iff.mpr hblank]
  simp [hc]

/-- The whitespace in front of a value is skipped, and no more. -/
theorem Spells.skip {text blank : List Char} {value : Json} (h : Spells text value)
    (hblank : Blank blank) (rest : List Char) :
    (blank ++ (text ++ rest)).dropWhile isBlank = text ++ rest := by
  obtain ⟨c, tail, rfl, -, hc⟩ := h.head
  exact dropWhile_blank hblank hc (tail ++ rest)

/-- A string is read up to its closing quote. -/
theorem parseString_quote {s : String} (hs : ∀ c ∈ s.toList, Plain c) (rest : List Char) :
    parseString (s.toList ++ '"' :: rest) = some (s, rest) := by
  have hgo : ∀ chars : List Char, (∀ c ∈ chars, Plain c) →
      parseString (chars ++ '"' :: rest) = some (String.ofList chars, rest) := by
    intro chars
    induction chars with
    | nil => exact fun _ => rfl
    | cons c chars ih =>
      intro hplain
      have hc : c ≠ '"' := (hplain c List.mem_cons_self).2.1
      rw [List.cons_append, parseString, if_neg hc,
        ih fun d hd => hplain d (List.mem_cons_of_mem c hd)]
      simp
  rw [hgo s.toList hs, String.ofList_toList]

/-- The text does not begin with a digit. -/
def Ends (text : List Char) : Prop := ∀ c, text.head? = some c → c.isDigit = false

theorem ends_cons {c : Char} (hc : c.isDigit = false) (text : List Char) : Ends (c :: text) := by
  rintro d hd
  obtain rfl : c = d := by simpa using hd
  exact hc

/-- The digits of a number are read back as the number. -/
theorem parseDigits_toDigits (n : ℕ) {rest : List Char} (hrest : Ends rest) :
    parseDigits (Nat.toDigits 10 n ++ rest) = (n, rest) := by
  have hall : ∀ c ∈ Nat.toDigits 10 n, c.isDigit = true := fun c hc =>
    Nat.isDigit_of_mem_toDigits (by decide) (by decide) hc
  have hstop : rest.takeWhile Char.isDigit = [] ∧ rest.dropWhile Char.isDigit = rest := by
    cases rest with
    | nil => exact ⟨rfl, rfl⟩
    | cons c rest => simp [hrest c rfl]
  rw [parseDigits, List.takeWhile_append_of_pos hall, List.dropWhile_append_of_pos hall, hstop.1,
    hstop.2, List.append_nil, Nat.ofDigitChars_ten_toDigits]

theorem parseKey_quote {key : String} (hkey : ∀ c ∈ key.toList, Plain c) (rest : List Char) :
    parseKey (quote key ++ ':' :: rest) = some (key, rest.dropWhile isBlank) := by
  rw [quote, List.cons_append, List.append_assoc, parseKey, List.singleton_append,
    parseString_quote hkey]
  rfl

/-- Members begin with the quotation mark of the first key. -/
theorem SpellsMembers.head {text : List Char} {member : String × Json}
    {members : List (String × Json)} (h : SpellsMembers text (member :: members)) :
    ∃ tail, text = '"' :: tail := by
  cases h with
  | last => exact ⟨_, rfl⟩
  | more => exact ⟨_, rfl⟩

/-- An element starts with a character that is neither whitespace nor the closing bracket. -/
theorem SpellsElements.head {text : List Char} {value : Json} {values : List Json}
    (h : SpellsElements text (value :: values)) :
    ∃ c tail, text = c :: tail ∧ c ≠ ']' ∧ isBlank c = false := by
  cases h with
  | last h => exact h.head
  | more h =>
    obtain ⟨c, tail, rfl, hc⟩ := h.head
    exact ⟨c, _, rfl, hc⟩

/-- With this fuel the parser reads every text that is no longer. -/
structure ReadsUpTo (fuel : ℕ) : Prop where
  value : ∀ {text value}, Spells text value → text.length ≤ fuel → ∀ {rest}, Ends rest →
    parseValue fuel (text ++ rest) = some (value, rest)
  elements : ∀ {text value values}, SpellsElements text (value :: values) →
    text.length + 1 ≤ fuel → ∀ rest,
    parseElements fuel (text ++ ']' :: rest) = some (value :: values, rest)
  members : ∀ {text member members}, SpellsMembers text (member :: members) →
    text.length + 1 ≤ fuel → ∀ rest,
    parseMembers fuel (text ++ '}' :: rest) = some (member :: members, rest)

variable {fuel : ℕ}

/-- A spelling of a value is read back, if shorter ones are. -/
theorem parseValue_of_spells (ih : ReadsUpTo fuel) {text : List Char} {value : Json}
    (h : Spells text value) (hfuel : text.length ≤ fuel + 1) {rest : List Char} (hrest : Ends rest) :
    parseValue (fuel + 1) (text ++ rest) = some (value, rest) := by
  cases h with
  | @string s hs =>
    rw [quote, List.cons_append, List.append_assoc, parseValue, if_pos rfl, List.singleton_append,
      parseString_quote hs]
    rfl
  | unsigned n =>
    -- none of the characters that open another value is a digit
    obtain ⟨c, tail, hcons⟩ := List.exists_cons_of_ne_nil (Nat.toDigits_ne_nil (b := 10) (n := n.toNat))
    have hdigit : c.isDigit = true :=
      Nat.isDigit_of_mem_toDigits (by decide) (by decide) (hcons ▸ List.mem_cons_self)
    have hquote : c ≠ '"' := by
      rintro rfl
      exact absurd hdigit (by decide)
    have hminus : c ≠ '-' := by
      rintro rfl
      exact absurd hdigit (by decide)
    have hparse := parseDigits_toDigits n.toNat hrest
    rw [hcons, List.cons_append] at hparse ⊢
    rw [parseValue, if_neg hquote, if_neg hminus, if_pos hdigit, hparse]
    simp
  | @integer n hn =>
    rw [List.cons_append, parseValue, if_neg (by decide), if_pos rfl, parseDigits_toDigits _ hrest]
    have hneg : -((n.toInt.natAbs : ℕ) : ℤ) = n.toInt := by omega
    simp only [hneg, Int64.ofInt_toInt]
  | @array inner elements hinner =>
    rw [List.cons_append, List.append_assoc, parseValue, if_neg (by decide), if_neg (by decide),
      if_neg (by decide), if_pos rfl]
    rcases elements with _ | ⟨element, elements⟩
    · cases hinner
      rfl
    · have hopen : (inner ++ ([']'] ++ rest)).head? ≠ some ']' := by
        obtain ⟨c, tail, rfl, hc, -⟩ := hinner.head
        simpa using hc
      have hlen : inner.length + 1 ≤ fuel := by
        simp only [List.length_cons, List.length_append, List.length_nil] at hfuel
        omega
      rw [if_neg hopen, List.singleton_append, ih.elements hinner hlen rest]
      rfl
  | @object inner members hinner hkeys =>
    rw [List.cons_append, List.append_assoc, parseValue, if_neg (by decide), if_neg (by decide),
      if_neg (by decide), if_neg (by decide), if_pos rfl]
    rcases members with _ | ⟨member, members⟩
    · cases hinner
      rfl
    · have hopen : (inner ++ (['}'] ++ rest)).head? ≠ some '}' := by
        obtain ⟨tail, rfl⟩ := hinner.head
        simp
      have hlen : inner.length + 1 ≤ fuel := by
        simp only [List.length_cons, List.length_append, List.length_nil] at hfuel
        omega
      rw [if_neg hopen, List.singleton_append, ih.members hinner hlen rest]
      rfl

theorem parseElements_of_spells (ih : ReadsUpTo fuel) {text : List Char} {value : Json}
    {values : List Json} (h : SpellsElements text (value :: values))
    (hfuel : text.length + 1 ≤ fuel + 1) (rest : List Char) :
    parseElements (fuel + 1) (text ++ ']' :: rest) = some (value :: values, rest) := by
  cases h with
  | last h =>
    rw [parseElements, ih.value h (by omega) (ends_cons (by decide) rest)]
    rfl
  | @more text blank inner _ next values h hblank hinner =>
    simp only [List.length_append, List.length_cons] at hfuel
    obtain ⟨c, tail, hhead, -, hc⟩ := hinner.head
    have hskip : (blank ++ (inner ++ ']' :: rest)).dropWhile isBlank = inner ++ ']' :: rest := by
      rw [hhead]
      exact dropWhile_blank hblank hc _
    have hvalue := ih.value h (by omega)
      (ends_cons (c := ',') (by decide) (blank ++ (inner ++ ']' :: rest)))
    have hmore := ih.elements hinner (by omega) rest
    rw [List.append_assoc, List.cons_append, List.append_assoc, parseElements, hvalue,
      Option.bind_some]
    simp only [hskip, hmore, Option.map_some]

theorem parseMembers_of_spells (ih : ReadsUpTo fuel) {text : List Char} {member : String × Json}
    {members : List (String × Json)} (h : SpellsMembers text (member :: members))
    (hfuel : text.length + 1 ≤ fuel + 1) (rest : List Char) :
    parseMembers (fuel + 1) (text ++ '}' :: rest) = some (member :: members, rest) := by
  cases h with
  | @last key blank text value hkey hblank h =>
    simp only [List.length_append, List.length_cons] at hfuel
    rw [List.append_assoc, List.cons_append, List.append_assoc, parseMembers, parseKey_quote hkey,
      Option.bind_some, h.skip hblank,
      ih.value h (by omega) (ends_cons (by decide) rest)]
    rfl
  | @more key blank text gap inner value next members hkey hblank h hgap hinner =>
    simp only [List.length_append, List.length_cons] at hfuel
    obtain ⟨tail, hhead⟩ := hinner.head
    have hskip : (gap ++ (inner ++ '}' :: rest)).dropWhile isBlank = inner ++ '}' :: rest := by
      rw [hhead]
      exact dropWhile_blank hgap (by decide) _
    have hvalue := ih.value h (by omega)
      (ends_cons (c := ',') (by decide) (gap ++ (inner ++ '}' :: rest)))
    have hmore := ih.members hinner (by omega) rest
    have happend : (quote key ++ ':' :: (blank ++ (text ++ ',' :: (gap ++ inner)))) ++ '}' :: rest
        = quote key ++ ':' :: (blank ++ (text ++ (',' :: (gap ++ (inner ++ '}' :: rest))))) := by
      simp
    rw [happend, parseMembers, parseKey_quote hkey, Option.bind_some, h.skip hblank, hvalue,
      Option.bind_some]
    simp only [hskip, hmore, Option.map_some]

/-- Every spelling is read back, by induction on the fuel. -/
theorem readsUpTo (fuel : ℕ) : ReadsUpTo fuel := by
  induction fuel with
  | zero =>
    refine ⟨fun h hfuel => ?_, fun _ hfuel => absurd hfuel (by omega),
      fun _ hfuel => absurd hfuel (by omega)⟩
    obtain ⟨c, tail, rfl, -⟩ := h.head
    exact absurd hfuel (by simp)
  | succ fuel ih =>
    exact ⟨fun h hfuel _ hrest => parseValue_of_spells ih h hfuel hrest,
      parseElements_of_spells ih, parseMembers_of_spells ih⟩

/-- `parse` is a parser as the library's users assume it. -/
theorem reads_parse : Reads parse := by
  intro text value h
  have hend : Ends [] := fun c hc => by cases hc
  have hvalue := (readsUpTo text.toList.length).value h (le_refl _) hend
  rw [List.append_nil] at hvalue
  rw [parse, hvalue]

end Json

end Lib
