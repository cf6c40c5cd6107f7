import Mathlib

/-!
# Runs that can stop

A function of the embedded code returns a value, returns early with a status and an error
text, reads or writes outside a vector, or loops without end. `Exec` is the monad of such
runs. The third outcome is kept apart from the second on purpose: a status is an answer of
the code, an index out of range is not.

`Ends x Q E F` says how a run ends: with a value in `Q`, or with a status in `E`, or, only if
`F` holds, with a fault. Its rules (`Ends.bind`, `Ends.foldlM`, `Ends.forRange`) carry an
invariant through a loop that may stop in the middle.
-/

namespace Lib

/-- Why a run stopped without a value. -/
inductive Stop (σ : Type) where
  /-- an early return with a status and the text written to the error output -/
  | fail (status : σ) (message : String)
  /-- an index or a byte range outside its vector -/
  | outOfRange
  /-- a loop that ran past the bound the model gives it -/
  | outOfFuel
deriving DecidableEq, Repr

/-- A run that ends with a value or stops. -/
abbrev Exec (σ α : Type) := Except (Stop σ) α

namespace Exec

variable {σ α β γ : Type}

/-- An early return. -/
def fail (status : σ) (message : String) : Exec σ α := .error (.fail status message)

/-- Go on only if `p` holds; otherwise return early. -/
def require (p : Prop) [Decidable p] (status : σ) (message : String) : Exec σ Unit :=
  if p then .ok () else .error (.fail status message)

/-- `l[i]`, a fault when `i` is not an index of `l`. -/
def read (l : List α) (i : ℕ) : Exec σ α :=
  match l[i]? with
  | some a => .ok a
  | none => .error .outOfRange

/-- `l[i] = a`, a fault when `i` is not an index of `l`. -/
def write (l : List α) (i : ℕ) (a : α) : Exec σ (List α) :=
  if i < l.length then .ok (l.set i a) else .error .outOfRange

/-- The value of an overflow-checked computation, or an early return. -/
def orFail (x : Option α) (status : σ) (message : String) : Exec σ α :=
  match x with
  | some a => .ok a
  | none => .error (.fail status message)

/-- The status a run returns, `ok` with a value; a run that faults returns none. -/
def statusOf (ok : σ) : Exec σ α → Option σ
  | .ok _ => some ok
  | .error (.fail status _) => some status
  | .error _ => none

/-! ## Inversion -/

theorem bind_eq_ok {x : Exec σ α} {f : α → Exec σ β} {b : β} :
    x >>= f = .ok b ↔ ∃ a, x = .ok a ∧ f a = .ok b := by
  cases x with
  | error e => simp [bind, Except.bind]
  | ok a => simp [bind, Except.bind]

@[simp] theorem ok_bind (a : α) (f : α → Exec σ β) :
    ((.ok a : Exec σ α) >>= f) = f a := rfl

@[simp] theorem error_bind (e : Stop σ) (f : α → Exec σ β) :
    ((.error e : Exec σ α) >>= f) = .error e := rfl

@[simp] theorem pure_eq_ok (a : α) : (pure a : Exec σ α) = .ok a := rfl

theorem require_eq_ok {p : Prop} [Decidable p] {status : σ} {message : String} {u : Unit} :
    require p status message = .ok u ↔ p := by
  unfold require
  split <;> simp [*]

theorem require_of {p : Prop} [Decidable p] {status : σ} {message : String} (h : p) :
    require p status message = .ok () := if_pos h

theorem require_of_not {p : Prop} [Decidable p] {status : σ} {message : String} (h : ¬ p) :
    require p status message = .error (.fail status message) := if_neg h

theorem read_eq_ok {l : List α} {i : ℕ} {a : α} :
    (read l i : Exec σ α) = .ok a ↔ l[i]? = some a := by
  unfold read
  split <;> simp [*]

theorem read_of {l : List α} {i : ℕ} {a : α} (h : l[i]? = some a) :
    (read l i : Exec σ α) = .ok a := read_eq_ok.mpr h

theorem read_of_lt {l : List α} {i : ℕ} (h : i < l.length) :
    (read l i : Exec σ α) = .ok l[i] := read_of (List.getElem?_eq_getElem h)

theorem write_of_lt {l : List α} {i : ℕ} {a : α} (h : i < l.length) :
    (write l i a : Exec σ (List α)) = .ok (l.set i a) := if_pos h

/-- A run known to end with a value ends with the one that can be read off it. -/
theorem eq_ok_getD {x : Exec σ α} (h : x.isOk = true) (a : α) : x = .ok (x.toOption.getD a) := by
  cases x with
  | error e => cases h
  | ok b => rfl

theorem orFail_eq_ok {x : Option α} {status : σ} {message : String} {a : α} :
    orFail x status message = .ok a ↔ x = some a := by
  unfold orFail
  split <;> simp

/-- A counting loop that only reads the entry at the counter is a loop over the entries. -/
theorem foldlM_range_length {l : List α} {f : β → ℕ → Exec σ β} {g : β → α → Exec σ β}
    (h : ∀ s k a, l[k]? = some a → f s k = g s a) (s : β) :
    (List.range l.length).foldlM f s = l.foldlM g s := by
  induction l using List.reverseRecOn generalizing s with
  | nil => rfl
  | append_singleton l a ih =>
    have hlast : ∀ t, f t l.length = g t a := fun t => h t l.length a (by simp)
    have hinit : ∀ t k b, l[k]? = some b → f t k = g t b := by
      intro t k b hb
      apply h
      rw [List.getElem?_append_left (List.getElem?_eq_some_iff.mp hb).1, hb]
    rw [List.length_append, List.length_singleton, List.range_succ, List.foldlM_append,
      List.foldlM_append, ih hinit]
    simp only [List.foldlM_cons, List.foldlM_nil, hlast]

/-! ## How a run ends -/

/-- The run ends with a value in `Q`, or with a status in `E`, or, only if `F`, with a fault. -/
def Ends (x : Exec σ α) (Q : α → Prop) (E : σ → Prop) (F : Prop) : Prop :=
  match x with
  | .ok a => Q a
  | .error (.fail s _) => E s
  | .error .outOfRange => F
  | .error .outOfFuel => F

variable {Q P : α → Prop} {R : β → Prop} {E : σ → Prop} {F : Prop}

@[simp] theorem ends_ok {a : α} : Ends (.ok a : Exec σ α) Q E F ↔ Q a := Iff.rfl

@[simp] theorem ends_fail {s : σ} {m : String} :
    Ends (.error (.fail s m) : Exec σ α) Q E F ↔ E s := Iff.rfl

@[simp] theorem ends_outOfRange : Ends (.error .outOfRange : Exec σ α) Q E F ↔ F := Iff.rfl

/-- What ends well ends well for weaker conditions. -/
theorem Ends.mono {x : Exec σ α} {Q' : α → Prop} {E' : σ → Prop} {F' : Prop}
    (h : Ends x Q E F) (hQ : ∀ a, Q a → Q' a) (hE : ∀ s, E s → E' s) (hF : F → F') :
    Ends x Q' E' F' := by
  match x with
  | .ok a => exact hQ a h
  | .error (.fail s _) => exact hE s h
  | .error .outOfRange => exact hF h
  | .error .outOfFuel => exact hF h

theorem Ends.imp {x : Exec σ α} (h : Ends x P E F) (hQ : ∀ a, P a → Q a) : Ends x Q E F :=
  h.mono hQ (fun _ => id) id

/-- The rule of sequence. -/
theorem Ends.bind {x : Exec σ α} {f : α → Exec σ β} (hx : Ends x P E F)
    (hf : ∀ a, P a → Ends (f a) R E F) : Ends (x >>= f) R E F := by
  match x with
  | .ok a => exact hf a hx
  | .error (.fail s _) => exact hx
  | .error .outOfRange => exact hx
  | .error .outOfFuel => exact hx

/-- What a run ends with when it ends with a value. -/
theorem Ends.of_ok {x : Exec σ α} (h : Ends x Q E F) {a : α} (hx : x = .ok a) : Q a := by
  rwa [hx] at h

/-- A run that has stopped ends the same at every type. -/
theorem Ends.of_error {e : Stop σ} (h : Ends (.error e : Exec σ α) Q E F) :
    Ends (.error e : Exec σ β) R E F := by
  match e with
  | .fail s _ => exact h
  | .outOfRange => exact h
  | .outOfFuel => exact h

/-- A run that can end in some way has a status unless it can fault. -/
theorem Ends.statusOf_ne_none {x : Exec σ α} (h : Ends x Q E False) (ok : σ) :
    x.statusOf ok ≠ none := by
  match x with
  | .ok a => exact fun hn => by cases hn
  | .error (.fail s _) => exact fun hn => by cases hn
  | .error .outOfRange => exact h.elim
  | .error .outOfFuel => exact h.elim

/-- A run that can neither return early nor fault ends with a value. -/
theorem Ends.exists_ok {x : Exec σ α} (h : Ends x Q (fun _ => False) False) :
    ∃ a, x = .ok a ∧ Q a := by
  match x with
  | .ok a => exact ⟨a, rfl, h⟩
  | .error (.fail s _) => exact h.elim
  | .error .outOfRange => exact h.elim
  | .error .outOfFuel => exact h.elim

theorem Ends.require {p : Prop} [Decidable p] {s : σ} {m : String} {Q : Unit → Prop}
    (hp : p → Q ()) (hn : ¬ p → E s) : Ends (Exec.require p s m) Q E F := by
  by_cases h : p
  · rw [require_of h]; exact hp h
  · rw [require_of_not h]; exact hn h

theorem Ends.orFail {x : Option α} {s : σ} {m : String} (hq : ∀ a, x = some a → Q a)
    (hn : x = none → E s) : Ends (Exec.orFail x s m) Q E F := by
  cases x with
  | none => exact hn rfl
  | some a => exact hq a rfl

/-- The rule of a read. -/
theorem Ends.read {l : List α} {i : ℕ} (hq : ∀ a, l[i]? = some a → Q a)
    (hn : l.length ≤ i → F) : Ends (Exec.read l i : Exec σ α) Q E F := by
  by_cases h : i < l.length
  · rw [read_of_lt h]; exact hq _ (List.getElem?_eq_getElem h)
  · unfold Exec.read
    rw [List.getElem?_eq_none (by omega)]
    exact hn (by omega)

/-- The rule of a write. -/
theorem Ends.write {l : List α} {i : ℕ} {a : α} {Q : List α → Prop}
    (hq : i < l.length → Q (l.set i a)) (hn : l.length ≤ i → F) :
    Ends (Exec.write l i a : Exec σ (List α)) Q E F := by
  by_cases h : i < l.length
  · rw [write_of_lt h]; exact hq h
  · unfold Exec.write
    rw [if_neg h]
    exact hn (by omega)

/-! Where only the statuses matter, a value or a fault may follow. -/

theorem Ends.read_or_fault (l : List α) (i : ℕ) :
    Ends (Exec.read l i : Exec σ α) (fun _ => True) E True :=
  Ends.read (fun _ _ => trivial) fun _ => trivial

theorem Ends.write_or_fault (l : List α) (i : ℕ) (a : α) :
    Ends (Exec.write l i a : Exec σ (List α)) (fun _ => True) E True :=
  Ends.write (fun _ => trivial) fun _ => trivial

theorem Ends.require_or {p : Prop} [Decidable p] {s : σ} {m : String} (h : E s) :
    Ends (Exec.require p s m) (fun _ => True) E F :=
  Ends.require (fun _ => trivial) fun _ => h

/-- An invariant of the processed prefix goes through a loop. -/
theorem Ends.foldlM {f : β → α → Exec σ β} (I : List α → β → Prop) (l : List α) {s : β}
    (h0 : I [] s)
    (hstep : ∀ pre a post s, l = pre ++ a :: post → I pre s →
      Ends (f s a) (I (pre ++ [a])) E F) :
    Ends (l.foldlM f s) (I l) E F := by
  suffices h : ∀ (post pre : List α) (s : β), l = pre ++ post → I pre s →
      Ends (post.foldlM f s) (I l) E F from h l [] s rfl h0
  intro post
  induction post with
  | nil =>
    intro pre s hl hI
    rw [List.append_nil] at hl
    rw [hl]
    exact hI
  | cons a post ih =>
    intro pre s hl hI
    rw [List.foldlM_cons]
    refine (hstep pre a post s hl hI).bind fun s' hs' => ?_
    exact ih (pre ++ [a]) s' (by rw [hl, List.append_assoc]; rfl) hs'

/-- A loop stops as its passes do. -/
theorem Ends.each {f : β → α → Exec σ β} (hf : ∀ s a, Ends (f s a) (fun _ => True) E F)
    (l : List α) (s : β) : Ends (l.foldlM f s) (fun _ => True) E F :=
  Ends.foldlM (fun _ _ => True) l trivial fun _ a _ s _ _ => hf s a

/-- An invariant of the loop counter goes through a counting loop. -/
theorem Ends.forRange {f : β → ℕ → Exec σ β} (I : ℕ → β → Prop) (n : ℕ) {s : β}
    (h0 : I 0 s) (hstep : ∀ k < n, ∀ s, I k s → Ends (f s k) (I (k + 1)) E F) :
    Ends ((List.range n).foldlM f s) (I n) E F := by
  have h := Ends.foldlM (E := E) (F := F) (f := f) (fun pre s => I pre.length s)
    (List.range n) (s := s) h0 ?_
  · simpa using h
  · intro pre a post s hl hI
    have hlen := congrArg List.length hl
    simp only [List.length_range, List.length_append, List.length_cons] at hlen
    have ha : a = pre.length := by
      have h1 : (List.range n)[pre.length]? = some a := by rw [hl]; simp
      rw [List.getElem?_range (by omega)] at h1
      exact (Option.some.inj h1).symm
    subst ha
    simpa using hstep pre.length (by omega) s hI

/-- An invariant of the loop counter goes through a loop that counts down. -/
theorem Ends.forDown {f : β → ℕ → Exec σ β} (I : ℕ → β → Prop) (n : ℕ) {s : β}
    (h0 : I n s) (hstep : ∀ k < n, ∀ s, I (k + 1) s → Ends (f s k) (I k) E F) :
    Ends ((List.range n).reverse.foldlM f s) (I 0) E F := by
  induction n generalizing s with
  | zero => exact h0
  | succ n ih =>
    rw [List.range_succ, List.reverse_append, List.reverse_singleton, List.singleton_append,
      List.foldlM_cons]
    refine (hstep n (Nat.lt_succ_self n) s h0).bind fun s' hs' => ?_
    exact ih hs' fun k hk => hstep k (by omega)

end Exec
end Lib
