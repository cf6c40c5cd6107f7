import Mathlib

/-!
# Resource ledgers

A log says which resources a program acquires, uses and releases. `play held log` follows the
resources that are held and stops at the first use or release of one that is not. What a log that
plays through satisfies is read off the counts of its entries, so a program only has to keep its own
tables equal to what is held.
-/

namespace Lib

/-- What a program does with a resource. -/
inductive LedgerOp (κ : Type*) where
  | acquire (k : κ)
  | use (k : κ)
  | release (k : κ)
  deriving DecidableEq

namespace Ledger

variable {κ : Type*} [DecidableEq κ]

/-- The resources held after an entry. -/
def apply (held : Multiset κ) : LedgerOp κ → Option (Multiset κ)
  | .acquire k => some (k ::ₘ held)
  | .use k => if k ∈ held then some held else none
  | .release k => if k ∈ held then some (held.erase k) else none

/-- The resources held after a log. -/
def play (held : Multiset κ) (log : List (LedgerOp κ)) : Option (Multiset κ) :=
  log.foldlM apply held

variable {held held' : Multiset κ} {log pre post : List (LedgerOp κ)} {k : κ}

/-! ## Playing a log -/

@[simp] theorem play_nil : play held [] = some held := rfl

@[simp] theorem play_acquire : play held (.acquire k :: log) = play (k ::ₘ held) log := rfl

theorem play_use (h : k ∈ held) : play held (.use k :: log) = play held log := by
  simp [play, apply, h]

@[simp] theorem play_use_cons : play (k ::ₘ held) (.use k :: log) = play (k ::ₘ held) log :=
  play_use (Multiset.mem_cons_self k held)

@[simp] theorem play_release : play (k ::ₘ held) (.release k :: log) = play held log := by
  simp [play, apply]

theorem play_append (h : play held pre = some held') : play held (pre ++ post) = play held' post := by
  unfold play at *
  rw [List.foldlM_append, h]
  rfl

/-- Releasing a list of resources that are held. -/
theorem play_releases (l : List κ) :
    play ((l : Multiset κ) + held) (l.map .release) = some held := by
  induction l with
  | nil => simp
  | cons k l ih =>
    rw [← Multiset.cons_coe, Multiset.cons_add, List.map_cons, play_release, ih]

theorem play_split (h : play held (pre ++ post) = some held') :
    ∃ mid, play held pre = some mid ∧ play mid post = some held' := by
  unfold play at *
  rw [List.foldlM_append] at h
  exact Option.bind_eq_some_iff.mp h

/-! ## What the counts say -/

/-- Every resource is held as often as it was acquired and not released. -/
theorem count_acquire (h : play held log = some held') (k : κ) :
    held.count k + log.count (.acquire k) = log.count (.release k) + held'.count k := by
  induction log generalizing held with
  | nil =>
    obtain rfl : held = held' := by simpa using h
    simp
  | cons op log ih =>
    cases op with
    | acquire j =>
      have hrest := ih (by simpa using h)
      by_cases hj : j = k
      · subst hj
        rw [Multiset.count_cons_self] at hrest
        rw [List.count_cons_self, List.count_cons_of_ne (by simp)]
        omega
      · rw [Multiset.count_cons_of_ne (Ne.symm hj)] at hrest
        rw [List.count_cons_of_ne (by simpa using hj), List.count_cons_of_ne (by simp)]
        exact hrest
    | use j =>
      rw [List.count_cons_of_ne (by simp), List.count_cons_of_ne (by simp)]
      apply ih
      by_cases hj : j ∈ held
      · rwa [play_use hj] at h
      · simp [play, apply, hj] at h
    | release j =>
      by_cases hj : j ∈ held
      · obtain ⟨rest, rfl⟩ := Multiset.exists_cons_of_mem hj
        rw [play_release] at h
        have hrest := ih h
        by_cases hjk : j = k
        · subst hjk
          rw [Multiset.count_cons_self, List.count_cons_self, List.count_cons_of_ne (by simp)]
          omega
        · rw [Multiset.count_cons_of_ne (Ne.symm hjk), List.count_cons_of_ne (by simp),
            List.count_cons_of_ne (by simpa using hjk)]
          exact hrest
      · simp [play, apply, hj] at h

/-- What is used or released is held at that point. -/
theorem released_lt {op : LedgerOp κ} (h : play 0 (pre ++ op :: post) = some held')
    (hop : op = .use k ∨ op = .release k) :
    pre.count (.release k) < pre.count (.acquire k) := by
  rcases play_split h with ⟨mid, hpre, hpost⟩
  have hmem : k ∈ mid := by
    by_contra hnot
    rcases hop with rfl | rfl <;> simp [play, apply, hnot] at hpost
  have hcount := count_acquire hpre k
  rw [Multiset.count_zero] at hcount
  have hpos := Multiset.count_pos.mpr hmem
  omega

theorem count_release_le (h : play 0 log = some held) (k : κ) :
    log.count (.release k) ≤ log.count (.acquire k) := by
  have hcount := count_acquire h k
  rw [Multiset.count_zero] at hcount
  omega

/-- A resource that is acquired once is neither used nor released after its release. -/
theorem not_after_release (h : play 0 (pre ++ .release k :: post) = some held)
    (honce : (pre ++ .release k :: post).count (.acquire k) ≤ 1) {op : LedgerOp κ}
    (hop : op ∈ post) : op ≠ .use k ∧ op ≠ .release k := by
  by_contra hnot
  have hcase : op = .use k ∨ op = .release k := by
    by_contra hother
    exact hnot ⟨fun huse => hother (Or.inl huse), fun hrel => hother (Or.inr hrel)⟩
  obtain ⟨before, later, rfl⟩ := List.append_of_mem hop
  have hsplit : pre ++ .release k :: (before ++ op :: later)
      = (pre ++ .release k :: before) ++ op :: later := by simp
  rw [hsplit] at h honce
  have hlt := released_lt h hcase
  rw [List.count_append] at honce
  rw [List.count_append, List.count_cons_self] at hlt
  omega

end Ledger

end Lib
