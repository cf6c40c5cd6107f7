import AscendShmem.Lib.RingIndex
import AscendShmem.PointToPoint.WaitUntil

/-!
# What a wait returns

The search goes round the elements: its `n`-th turn is at element `n % nelems`. It can only be left
without an element in the first round, and only if nothing was enabled in it. The second loop of
`wait_until_some` visits each other element once, whatever the memory does meanwhile.
-/

namespace AscendShmem.PointToPoint

open Lib

variable {α : Type} [BEq α] [LT α] [LE α] [DecidableLT α] [DecidableLE α]

namespace Call

variable {call : Call α} {ivars : Memory α} {s next : Search} {found : Found}

/-- No element is enabled. -/
def Masked (call : Call α) : Prop := ∀ idx < call.nelems, call.enabled idx = false

/-- Element `idx` was read, and the comparison held at that moment. -/
def ReadSatisfied (call : Call α) (ivars : Memory α) (reads : List UInt64) (idx : UInt64) : Prop :=
  ∃ t, reads[t]? = some idx ∧ call.Satisfied ivars t idx

/-! ## One turn of the search -/

theorem turn_found (he : call.enabled s.idx = true)
    (hs : call.Satisfied ivars s.reads.length s.idx) :
    call.turn ivars s = .inl ⟨some s.idx, s.reads ++ [s.idx]⟩ := by
  simp [turn, he, hs]

/-- A turn that ends the search has found an element or seen that none is enabled. -/
theorem turn_eq_inl (h : call.turn ivars s = .inl found) :
    (found = ⟨some s.idx, s.reads ++ [s.idx]⟩ ∧ call.enabled s.idx = true ∧
        call.Satisfied ivars s.reads.length s.idx) ∨
      (found = ⟨none, s.reads⟩ ∧ call.enabled s.idx = false ∧ s.needCheck = false ∧
        s.idx + 1 = call.nelems) := by
  simp only [turn] at h
  split at h
  · rename_i hfound
    simp only [hfound.1, if_true, Sum.inl.injEq] at h
    exact .inl ⟨h.symm, hfound⟩
  · split at h
    · rename_i hlast
      simp only [Bool.not_eq_true', Bool.or_eq_false_iff] at hlast
      rw [hlast.2.2, Sum.inl.injEq] at h
      exact .inr ⟨h.symm, hlast.2.2, hlast.2.1, hlast.1⟩
    · exact absurd h (by simp)

/-- Any other turn moves on to the next element. -/
theorem turn_eq_inr (h : call.turn ivars s = .inr next) :
    next = ⟨(s.idx + 1) % call.nelems, s.needCheck || call.enabled s.idx,
        if call.enabled s.idx then s.reads ++ [s.idx] else s.reads⟩ ∧
      (call.enabled s.idx = true → ¬ call.Satisfied ivars s.reads.length s.idx) ∧
      ¬ (s.idx + 1 = call.nelems ∧ s.needCheck = false ∧ call.enabled s.idx = false) := by
  simp only [turn] at h
  split at h
  · exact absurd h (by simp)
  · rename_i hfound
    split at h
    · exact absurd h (by simp)
    · rename_i hlast
      rw [Sum.inr.injEq] at h
      simp only [Bool.not_eq_true', Bool.or_eq_false_iff] at hlast
      exact ⟨h.symm, fun he hs => hfound ⟨he, hs⟩, hlast⟩

/-! ## The search -/

/-- The state of the search after `n` turns. -/
structure Searching (call : Call α) (n : ℕ) (s : Search) : Prop where
  idx : s.idx.toNat = n % call.nelems.toNat
  enabled : s.needCheck = true → ∃ idx < call.nelems, call.enabled idx = true
  /-- without an enabled element the first round is not over -/
  masked : s.needCheck = false →
    n < call.nelems.toNat ∧ ∀ idx, idx.toNat < n → call.enabled idx = false
  /-- an enabled element is read each time the search comes to it -/
  reads : ∀ idx < call.nelems, call.enabled idx = true →
    ∀ k, k * call.nelems.toNat + idx.toNat < n → k < s.reads.length

omit [BEq α] [LT α] [LE α] [DecidableLT α] [DecidableLE α] in
/-- The search starts at the first element. -/
theorem searching_start (hn : call.nelems ≠ 0) : Searching call 0 searchStart where
  idx := by simp [searchStart]
  enabled h := by simp [searchStart] at h
  masked _ := by
    refine ⟨Nat.pos_of_ne_zero fun h => hn (UInt64.toNat_inj.mp h), fun idx h => ?_⟩
    exact absurd h (Nat.not_lt_zero _)
  reads idx _ _ k h := absurd h (Nat.not_lt_zero _)

omit [BEq α] [LT α] [LE α] [DecidableLT α] [DecidableLE α] in
theorem Searching.idx_lt (hn : call.nelems ≠ 0) {n : ℕ} (h : Searching call n s) :
    s.idx < call.nelems := by
  have hpos : 0 < call.nelems.toNat := Nat.pos_of_ne_zero fun h => hn (UInt64.toNat_inj.mp h)
  rw [UInt64.lt_iff_toNat_lt, h.idx]
  exact Nat.mod_lt _ hpos

/-- A turn that goes on keeps the search invariant. -/
theorem Searching.turn (hn : call.nelems ≠ 0) {n : ℕ} (h : Searching call n s)
    (hturn : call.turn ivars s = .inr next) : Searching call (n + 1) next := by
  obtain ⟨rfl, -, hlast⟩ := turn_eq_inr hturn
  have hlt := UInt64.lt_iff_toNat_lt.mp (h.idx_lt hn)
  have hword := call.nelems.toNat_lt
  have hsucc : (s.idx + 1).toNat = s.idx.toNat + 1 := by
    rw [UInt64.toNat_add, UInt64.toNat_one, Nat.mod_eq_of_lt (by omega)]
  refine ⟨?_, fun hcheck => ?_, fun hcheck => ?_, fun idx hidx he k hk => ?_⟩
  · rw [UInt64.toNat_mod, hsucc, h.idx, Nat.mod_add_mod]
  · rcases Bool.or_eq_true_iff.mp hcheck with hcheck | he
    · exact h.enabled hcheck
    · exact ⟨s.idx, h.idx_lt hn, he⟩
  · -- the turn is in the first round, and not its last
    obtain ⟨hcheck, he⟩ := Bool.or_eq_false_iff.mp hcheck
    obtain ⟨hfirst, hbefore⟩ := h.masked hcheck
    have hidx : s.idx.toNat = n := h.idx.trans (Nat.mod_eq_of_lt hfirst)
    have hne : s.idx.toNat + 1 ≠ call.nelems.toNat := fun heq =>
      hlast ⟨UInt64.toNat_inj.mp (hsucc.trans heq), hcheck, he⟩
    refine ⟨by omega, fun idx hlt => ?_⟩
    rcases Nat.lt_succ_iff_lt_or_eq.mp hlt with hlt | heq
    · exact hbefore idx hlt
    · rw [UInt64.toNat_inj.mp (heq.trans hidx.symm)]
      exact he
  · show k < (if call.enabled s.idx = true then s.reads ++ [s.idx] else s.reads).length
    have hgrows : s.reads.length
        ≤ (if call.enabled s.idx = true then s.reads ++ [s.idx] else s.reads).length := by
      split <;> simp
    rcases Nat.lt_succ_iff_lt_or_eq.mp hk with hk | hk
    · exact (h.reads idx hidx he k hk).trans_le hgrows
    · -- the search is at the element now, and read it in all rounds before
      have hhere : s.idx = idx := UInt64.toNat_inj.mp <| by
        rw [h.idx, ← hk, Nat.mul_comm, Nat.mul_add_mod, Nat.mod_eq_of_lt]
        exact UInt64.lt_iff_toNat_lt.mp hidx
      rw [hhere, if_pos he, List.length_append, List.length_singleton]
      cases k with
      | zero => omega
      | succ k =>
        have := h.reads idx hidx he k (by rw [Nat.succ_mul] at hk; omega)
        omega

/-- What a search returns is what some turn of it returns. -/
theorem exists_searching (hn : call.nelems ≠ 0)
    (h : Returns (call.turn ivars) searchStart found) :
    ∃ n s, Searching call n s ∧ call.turn ivars s = .inl found := by
  have hkept : ∀ s next, (∃ n, Searching call n s) → call.turn ivars s = .inr next →
      ∃ n, Searching call n next :=
    fun s next ⟨n, hs⟩ hturn => ⟨n + 1, hs.turn hn hturn⟩
  obtain ⟨s, ⟨n, hs⟩, hturn⟩ := h.exists_inl ⟨0, searching_start hn⟩ hkept
  exact ⟨n, s, hs, hturn⟩

/-- The search ends with nothing if nothing is enabled, else with an element read as satisfied. -/
theorem search_returns (hn : call.nelems ≠ 0)
    (h : Returns (call.turn ivars) searchStart found) :
    (found.idx = none ∧ call.Masked) ∨
      ∃ idx < call.nelems, found.idx = some idx ∧ call.enabled idx = true ∧
        ReadSatisfied call ivars found.reads idx := by
  obtain ⟨n, s, hs, hturn⟩ := exists_searching hn h
  rcases turn_eq_inl hturn with ⟨rfl, he, hsat⟩ | ⟨rfl, he, hcheck, hlast⟩
  · exact .inr ⟨s.idx, hs.idx_lt hn, rfl, he, s.reads.length, by simp, hsat⟩
  · obtain ⟨hfirst, hbefore⟩ := hs.masked hcheck
    have hidx : s.idx.toNat = n := hs.idx.trans (Nat.mod_eq_of_lt hfirst)
    have hend : n + 1 = call.nelems.toNat := by
      rw [← hlast, UInt64.toNat_add, UInt64.toNat_one, hidx, Nat.mod_eq_of_lt]
      have := call.nelems.toNat_lt
      omega
    refine .inl ⟨rfl, fun idx hlt => ?_⟩
    have hlt := UInt64.lt_iff_toNat_lt.mp hlt
    rcases Nat.lt_succ_iff_lt_or_eq.mp (hlt.trans_eq hend.symm) with hlt | heq
    · exact hbefore idx hlt
    · rw [UInt64.toNat_inj.mp (heq.trans hidx.symm)]
      exact he

variable (ivars) in
/-- If no element is enabled the search ends after one round. -/
theorem search_ends_of_masked (hn : call.nelems ≠ 0) (hmasked : call.Masked) :
    ∃ found, Returns (call.turn ivars) searchStart found := by
  refine exists_returns_of_turns_eq_none (n := call.nelems.toNat) ?_
  by_contra hne
  obtain ⟨s, hs⟩ := Option.ne_none_iff_exists'.mp hne
  have h := turns_induction (Searching call) (searching_start hn)
    (fun n s next hs hturn => hs.turn hn hturn) hs
  cases hcheck : s.needCheck with
  | false => exact absurd (h.masked hcheck).1 (Nat.lt_irrefl _)
  | true =>
    obtain ⟨idx, hidx, he⟩ := h.enabled hcheck
    exact absurd he (by simp [hmasked idx hidx])

/-- An enabled element that stays satisfied from some moment on ends the search. -/
theorem search_ends_of_satisfied {idx : UInt64} (hidx : idx < call.nelems)
    (he : call.enabled idx = true) {start : ℕ}
    (hsat : ∀ t, start ≤ t → call.Satisfied ivars t idx) :
    ∃ found, Returns (call.turn ivars) searchStart found := by
  have hlt := UInt64.lt_iff_toNat_lt.mp hidx
  have hn : call.nelems ≠ 0 := fun h => by simp [h] at hlt
  -- the turn in which the search comes to the element after `start` rounds
  refine exists_returns_of_turns_eq_none (n := start * call.nelems.toNat + idx.toNat + 1) ?_
  rw [turns_succ, Option.bind_eq_none_iff]
  intro s hs
  have h := turns_induction (Searching call) (searching_start hn)
    (fun n s next hs hturn => hs.turn hn hturn) hs
  have hhere : s.idx = idx := UInt64.toNat_inj.mp <| by
    rw [h.idx, Nat.mul_comm, Nat.mul_add_mod, Nat.mod_eq_of_lt hlt]
  have hreads : start ≤ s.reads.length := by
    cases start with
    | zero => omega
    | succ k => exact h.reads idx hidx he k (by rw [Nat.succ_mul]; omega)
  rw [turn_found (hhere ▸ he) (hhere ▸ hsat _ hreads)]

/-! ## The second loop -/

/-- The elements from `startIdx` on, once around. -/
def round (call : Call α) (startIdx : UInt64) : List UInt64 :=
  (List.range call.nelems.toNat).map fun i => (startIdx + UInt64.ofNat i) % call.nelems

section

omit [BEq α] [LT α] [LE α] [DecidableLT α] [DecidableLE α]

variable {startIdx : UInt64} {i : ℕ}

/-- The indexes of a round go once around the elements. -/
theorem round_toNat (hfits : 8 * call.nelems.toNat ≤ 2 ^ 64) (hstart : startIdx < call.nelems)
    (hi : i < call.nelems.toNat) :
    ((startIdx + UInt64.ofNat i) % call.nelems).toNat
      = (startIdx.toNat + i) % call.nelems.toNat := by
  have hlt := UInt64.lt_iff_toNat_lt.mp hstart
  rw [UInt64.toNat_mod, UInt64.toNat_add, UInt64.toNat_ofNat', Nat.add_mod_mod,
    Nat.mod_eq_of_lt (a := startIdx.toNat + i) (by omega)]

/-- A round visits no element twice. -/
theorem round_nodup (hfits : 8 * call.nelems.toNat ≤ 2 ^ 64) (hstart : startIdx < call.nelems) :
    (call.round startIdx).Nodup := by
  refine List.Nodup.map_on (fun i hi j hj heq => ?_) List.nodup_range
  have hi := List.mem_range.mp hi
  have hj := List.mem_range.mp hj
  have hmod : startIdx.toNat + i ≡ startIdx.toNat + j [MOD call.nelems.toNat] := by
    rw [Nat.ModEq, ← round_toNat hfits hstart hi, ← round_toNat hfits hstart hj, heq]
  exact Nat.ModEq.eq_of_lt_of_lt (Nat.ModEq.add_left_cancel' _ hmod) hi hj

/-- A round visits every element. -/
theorem mem_round (hfits : 8 * call.nelems.toNat ≤ 2 ^ 64) (hstart : startIdx < call.nelems)
    {idx : UInt64} : idx ∈ call.round startIdx ↔ idx < call.nelems := by
  have hlt := UInt64.lt_iff_toNat_lt.mp hstart
  simp only [round, List.mem_map, List.mem_range]
  constructor
  · rintro ⟨i, hi, rfl⟩
    rw [UInt64.lt_iff_toNat_lt, round_toNat hfits hstart hi]
    exact Nat.mod_lt _ (by omega)
  · intro hidx
    have hidx := UInt64.lt_iff_toNat_lt.mp hidx
    have hahead : ahead call.nelems.toNat idx.toNat startIdx.toNat < call.nelems.toNat :=
      RingIndex.ahead_lt hlt
    refine ⟨ahead call.nelems.toNat idx.toNat startIdx.toNat, hahead, UInt64.toNat_inj.mp ?_⟩
    rw [round_toNat hfits hstart hahead, RingIndex.add_ahead hlt hidx]

/-- A round begins with its start. -/
theorem round_eq_cons (hstart : startIdx < call.nelems) :
    call.round startIdx = startIdx :: (List.range' 1 (call.nelems.toNat - 1)).map
      fun i => (startIdx + UInt64.ofNat i) % call.nelems := by
  have hlt := UInt64.lt_iff_toNat_lt.mp hstart
  have hrange : List.range call.nelems.toNat = 0 :: List.range' 1 (call.nelems.toNat - 1) := by
    rw [List.range_eq_range', show call.nelems.toNat = call.nelems.toNat - 1 + 1 by omega,
      List.range'_succ]
    rfl
  have hfirst : (startIdx + UInt64.ofNat 0) % call.nelems = startIdx := by
    apply UInt64.toNat_inj.mp
    rw [UInt64.toNat_mod, show UInt64.ofNat 0 = 0 from rfl, UInt64.add_zero, Nat.mod_eq_of_lt hlt]
  rw [round, hrange, List.map_cons, hfirst]

end

/-- The second loop after the elements `visited`: the elements `matched` are in the first slots. -/
structure Swept (call : Call α) (ivars : Memory α) (visited : List UInt64) (s : SomeResult)
    (matched : List UInt64) : Prop where
  sublist : matched.Sublist visited
  nonempty : matched ≠ []
  count : s.numMatched.toNat = matched.length
  slots : ∀ j, s.indices j = matched[j.toNat]?
  satisfied : ∀ idx ∈ matched, call.enabled idx = true ∧ ReadSatisfied call ivars s.reads idx
  /-- an enabled element that is left out was read as not satisfied -/
  missed : ∀ idx ∈ visited, call.enabled idx = true → idx ∉ matched →
    ∃ t < s.reads.length, ¬ call.Satisfied ivars t idx

variable {visited matched : List UInt64} {r : SomeResult} {idx : UInt64}

theorem ReadSatisfied.append {reads : List UInt64} (h : ReadSatisfied call ivars reads idx)
    (more : List UInt64) : ReadSatisfied call ivars (reads ++ more) idx := by
  obtain ⟨t, hread, hsat⟩ := h
  have ht : t < reads.length := (List.getElem?_eq_some_iff.mp hread).1
  exact ⟨t, by rw [List.getElem?_append_left ht, hread], hsat⟩

theorem readSatisfied_last {reads : List UInt64}
    (hsat : call.Satisfied ivars reads.length idx) :
    ReadSatisfied call ivars (reads ++ [idx]) idx :=
  ⟨reads.length, by simp, hsat⟩

@[simp]
theorem SomeResult.push_indices :
    (r.push idx).indices = Function.update r.indices r.numMatched (some idx) := rfl

@[simp]
theorem SomeResult.push_numMatched : (r.push idx).numMatched = r.numMatched + 1 := rfl

@[simp]
theorem SomeResult.push_reads : (r.push idx).reads = r.reads := rfl

/-- The places filled are the matches in order. -/
theorem slots_push (hcount : r.numMatched.toNat = matched.length)
    (hslots : ∀ j, r.indices j = matched[j.toNat]?) (j : UInt64) :
    (r.push idx).indices j = (matched ++ [idx])[j.toNat]? := by
  by_cases hj : j = r.numMatched
  · rw [hj, SomeResult.push_indices, Function.update_self, hcount, List.getElem?_concat_length]
  · have hne : j.toNat ≠ matched.length := fun h => hj (UInt64.toNat_inj.mp (h.trans hcount.symm))
    rw [SomeResult.push_indices, Function.update_of_ne hj, hslots]
    rcases Nat.lt_or_gt_of_ne hne with hlt | hgt
    · rw [List.getElem?_append_left hlt]
    · rw [List.getElem?_eq_none (by omega), List.getElem?_eq_none (by simp; omega)]

/-- One turn of the sweep. -/
theorem Swept.visit (h : Swept call ivars visited r matched) (hlen : visited.length + 1 < 2 ^ 64)
    (idx : UInt64) :
    ∃ matched', Swept call ivars (visited ++ [idx]) (call.visit ivars r idx) matched' := by
  have hshort := h.sublist.length_le
  unfold Call.visit
  by_cases he : call.enabled idx = true
  · rw [if_pos he]
    by_cases hsat : call.Satisfied ivars r.reads.length idx
    · -- one more element in the next slot
      simp only [if_pos hsat]
      refine ⟨matched ++ [idx], h.sublist.append (List.Sublist.refl _), by simp, ?_,
        slots_push h.count h.slots, fun i hi => ?_, fun i hi hei hnot => ?_⟩
      · rw [SomeResult.push_numMatched, UInt64.toNat_add, UInt64.toNat_one, h.count, Nat.mod_eq_of_lt (by omega),
          List.length_append, List.length_singleton]
      · rcases List.mem_append.mp hi with hi | hi
        · exact ⟨(h.satisfied i hi).1, (h.satisfied i hi).2.append [idx]⟩
        · rw [List.mem_singleton.mp hi]
          exact ⟨he, readSatisfied_last hsat⟩
      · rw [List.mem_append, not_or] at hnot
        have hi := (List.mem_append.mp hi).resolve_right hnot.2
        obtain ⟨t, ht, hunsat⟩ := h.missed i hi hei hnot.1
        exact ⟨t, by simp only [SomeResult.push_reads, List.length_append]; omega, hunsat⟩
    · simp only [if_neg hsat]
      refine ⟨matched, h.sublist.trans (List.sublist_append_left _ _), h.nonempty, h.count, h.slots,
        fun i hi => ⟨(h.satisfied i hi).1, (h.satisfied i hi).2.append [idx]⟩,
        fun i hi hei hnot => ?_⟩
      rcases List.mem_append.mp hi with hi | hi
      · obtain ⟨t, ht, hunsat⟩ := h.missed i hi hei hnot
        exact ⟨t, by simp only [List.length_append]; omega, hunsat⟩
      · rw [List.mem_singleton.mp hi]
        exact ⟨r.reads.length, by simp, hsat⟩
  · rw [if_neg he]
    refine ⟨matched, h.sublist.trans (List.sublist_append_left _ _), h.nonempty, h.count, h.slots,
      h.satisfied, fun i hi hei hnot => ?_⟩
    rcases List.mem_append.mp hi with hi | hi
    · exact h.missed i hi hei hnot
    · exact absurd (List.mem_singleton.mp hi ▸ hei) he

/-- The rest of the sweep. -/
theorem Swept.visits (h : Swept call ivars visited r matched) (more : List UInt64)
    (hlen : visited.length + more.length < 2 ^ 64) :
    ∃ matched', Swept call ivars (visited ++ more) (more.foldl (call.visit ivars) r) matched' := by
  induction more generalizing visited r matched with
  | nil => exact ⟨matched, by simpa using h⟩
  | cons idx more ih =>
    simp only [List.length_cons] at hlen
    obtain ⟨matched', h'⟩ := h.visit (by omega) idx
    obtain ⟨last, hlast⟩ := ih h' (by simp only [List.length_append, List.length_singleton]; omega)
    exact ⟨last, by simpa using hlast⟩

/-- The element of the search is the first one of the round. -/
theorem swept_first {reads : List UInt64} (he : call.enabled idx = true)
    (hread : ReadSatisfied call ivars reads idx) :
    Swept call ivars [idx] ((SomeResult.after reads).push idx) [idx] where
  sublist := List.Sublist.refl _
  nonempty := List.cons_ne_nil _ _
  count := rfl
  slots j := by
    have hempty : (SomeResult.after reads).numMatched.toNat = ([] : List UInt64).length := rfl
    exact slots_push hempty (fun _ => rfl) j
  satisfied i hi := by
    rw [List.mem_singleton.mp hi]
    exact ⟨he, hread⟩
  missed i hi _ hnot := absurd hi hnot

/-- The sweep after the first match visits every element once. -/
theorem swept_sweep (hfits : 8 * call.nelems.toNat ≤ 2 ^ 64) {startIdx : UInt64}
    (hstart : startIdx < call.nelems) {reads : List UInt64} (he : call.enabled startIdx = true)
    (hread : ReadSatisfied call ivars reads startIdx) :
    ∃ matched, Swept call ivars (call.round startIdx)
      (call.sweep ivars startIdx ((SomeResult.after reads).push startIdx)) matched := by
  have h := (swept_first he hread).visits ((List.range' 1 (call.nelems.toNat - 1)).map
    fun i => (startIdx + UInt64.ofNat i) % call.nelems) (by simp; omega)
  rw [List.foldl_map] at h
  rw [round_eq_cons hstart]
  exact h

/-! ## Results -/

/-- What a wait for any element promises, the results being those of `Result`. -/
structure AnySpec (call : Call α) (ivars : Memory α) (Result : AnyResult → Prop) : Prop where
  unique : ∀ r r', Result r → Result r' → r = r'
  masked : (∃ r, Result r ∧ r.idx = sizeMax) ↔ call.Masked
  found : ∀ r, Result r → r.idx ≠ sizeMax → r.idx < call.nelems ∧ call.enabled r.idx = true ∧
    ReadSatisfied call ivars r.reads r.idx
  /-- an element that stays satisfied ends the wait -/
  returns : (∃ idx < call.nelems, call.enabled idx = true ∧
    ∃ start, ∀ t, start ≤ t → call.Satisfied ivars t idx) → ∃ r, Result r

/-- The elements that a wait for some puts into the slots. -/
structure Chosen (call : Call α) (ivars : Memory α) (r : SomeResult) : Prop where
  slot : ∀ j < r.numMatched, ∃ idx < call.nelems, r.indices j = some idx ∧
    call.enabled idx = true ∧ ReadSatisfied call ivars r.reads idx
  distinct : ∀ j < r.numMatched, ∀ j' < r.numMatched, r.indices j = r.indices j' → j = j'
  complete : ∀ idx < call.nelems, call.enabled idx = true →
    (∀ t < r.reads.length, call.Satisfied ivars t idx) → ∃ j < r.numMatched, r.indices j = some idx

/-- What a wait for some elements promises. -/
structure SomeSpec (call : Call α) (ivars : Memory α) (Result : SomeResult → Prop) : Prop where
  unique : ∀ r r', Result r → Result r' → r = r'
  masked : (∃ r, Result r ∧ r.numMatched = 0) ↔ call.Masked
  chosen : ∀ r, Result r → r.numMatched ≠ 0 → Chosen call ivars r
  /-- no slot at or beyond the count, and none beyond the array -/
  untouched : ∀ r, Result r → ∀ j, r.numMatched ≤ j ∨ call.nelems ≤ j → r.indices j = none
  returns : (∃ idx < call.nelems, call.enabled idx = true ∧
    ∃ start, ∀ t, start ≤ t → call.Satisfied ivars t idx) → ∃ r, Result r

omit [BEq α] [LT α] [LE α] [DecidableLT α] [DecidableLE α] in
theorem masked_of_nelems_eq_zero {call : Call α} (hn : call.nelems = 0) : call.Masked := by
  intro idx hidx
  rw [hn] at hidx
  exact absurd hidx (Nat.not_lt_zero _)

/-- A call on elements returns what its search finds. -/
theorem exists_waitUntilAny_iff (hn : call.nelems ≠ 0) {r : AnyResult} :
    (∃ fuel, call.waitUntilAny ivars fuel = some r) ↔
      ∃ found, Returns (call.turn ivars) searchStart found ∧
        r = ⟨found.idx.getD sizeMax, found.reads⟩ := by
  simp only [waitUntilAny, if_neg hn, Option.map_eq_some_iff, Returns]
  constructor
  · rintro ⟨fuel, found, hfound, rfl⟩
    exact ⟨found, ⟨fuel, hfound⟩, rfl⟩
  · rintro ⟨found, ⟨fuel, hfound⟩, rfl⟩
    exact ⟨fuel, found, hfound, rfl⟩

theorem exists_waitUntilAny_zero (hn : call.nelems = 0) {r : AnyResult} :
    (∃ fuel, call.waitUntilAny ivars fuel = some r) ↔ r = ⟨sizeMax, []⟩ := by
  simp [waitUntilAny, hn, eq_comm]

/-- The calls for any element meet the specification. -/
theorem anySpec (call : Call α) (ivars : Memory α) :
    AnySpec call ivars fun r => ∃ fuel, call.waitUntilAny ivars fuel = some r := by
  by_cases hn : call.nelems = 0
  · simp only [exists_waitUntilAny_zero hn]
    refine ⟨?_, ⟨fun _ => masked_of_nelems_eq_zero hn, fun _ => ⟨_, rfl, rfl⟩⟩, ?_, fun _ => ⟨_, rfl⟩⟩
    · rintro r r' rfl rfl
      rfl
    · rintro r rfl hne
      exact absurd rfl hne
  · simp only [exists_waitUntilAny_iff hn]
    have hmax : ∀ idx < call.nelems, idx ≠ sizeMax := by
      rintro idx hidx rfl
      have hidx := UInt64.lt_iff_toNat_lt.mp hidx
      exact absurd call.nelems.toNat_lt (Nat.not_lt.mpr hidx)
    refine ⟨?_, ⟨?_, fun hmasked => ?_⟩, ?_, ?_⟩
    · rintro r r' ⟨found, hfound, rfl⟩ ⟨found', hfound', rfl⟩
      rw [hfound.unique hfound']
    · rintro ⟨_, ⟨found, hfound, rfl⟩, hidx⟩
      rcases search_returns hn hfound with ⟨-, hmasked⟩ | ⟨idx, hlt, hsome, -⟩
      · exact hmasked
      · rw [hsome] at hidx
        exact absurd hidx (hmax idx hlt)
    · obtain ⟨found, hfound⟩ := search_ends_of_masked ivars hn hmasked
      refine ⟨_, ⟨found, hfound, rfl⟩, ?_⟩
      rcases search_returns hn hfound with ⟨hnone, -⟩ | ⟨idx, hlt, -, he, -⟩
      · rw [hnone]
        rfl
      · exact absurd he (by simp [hmasked idx hlt])
    · rintro _ ⟨found, hfound, rfl⟩ hne
      rcases search_returns hn hfound with ⟨hnone, -⟩ | ⟨idx, hlt, hsome, he, hread⟩
      · rw [hnone] at hne
        exact absurd rfl hne
      · rw [hsome]
        exact ⟨hlt, he, hread⟩
    · rintro ⟨idx, hlt, he, start, hsat⟩
      obtain ⟨found, hfound⟩ := search_ends_of_satisfied hlt he hsat
      exact ⟨_, found, hfound, rfl⟩

/-- The result of a wait for some elements, from the end of its search. -/
def someResult (call : Call α) (ivars : Memory α) (found : Found) : SomeResult :=
  match found.idx with
  | none => .after found.reads
  | some startIdx => call.sweep ivars startIdx ((SomeResult.after found.reads).push startIdx)

/-- A call on elements sweeps from what its search finds. -/
theorem exists_waitUntilSome_iff (hn : call.nelems ≠ 0) {r : SomeResult} :
    (∃ fuel, call.waitUntilSome ivars fuel = some r) ↔
      ∃ found, Returns (call.turn ivars) searchStart found ∧ r = someResult call ivars found := by
  simp only [waitUntilSome, if_neg hn, Option.map_eq_some_iff, Returns]
  constructor
  · rintro ⟨fuel, found, hfound, rfl⟩
    exact ⟨found, ⟨fuel, hfound⟩, rfl⟩
  · rintro ⟨found, ⟨fuel, hfound⟩, rfl⟩
    exact ⟨fuel, found, hfound, rfl⟩

theorem exists_waitUntilSome_zero (hn : call.nelems = 0) {r : SomeResult} :
    (∃ fuel, call.waitUntilSome ivars fuel = some r) ↔ r = .after [] := by
  simp [waitUntilSome, hn, eq_comm]

theorem Swept.untouched (h : Swept call ivars visited r matched) {j : UInt64}
    (hj : r.numMatched ≤ j) : r.indices j = none := by
  have hj := UInt64.le_iff_toNat_le.mp hj
  rw [h.slots, List.getElem?_eq_none]
  exact h.count ▸ hj

/-- The slots of a sweep over a round. -/
theorem Swept.chosen (hfits : 8 * call.nelems.toNat ≤ 2 ^ 64) {startIdx : UInt64}
    (hstart : startIdx < call.nelems) (h : Swept call ivars (call.round startIdx) r matched) :
    Chosen call ivars r := by
  have hnodup := h.sublist.nodup (round_nodup hfits hstart)
  have hlt : ∀ j < r.numMatched, j.toNat < matched.length := fun j hj =>
    (UInt64.lt_iff_toNat_lt.mp hj).trans_eq h.count
  refine ⟨fun j hj => ?_, fun j hj j' hj' heq => ?_, fun idx hidx he hsat => ?_⟩
  · have hslot := hlt j hj
    have hmem : matched[j.toNat] ∈ matched := List.getElem_mem _
    refine ⟨matched[j.toNat], (mem_round hfits hstart).mp (h.sublist.subset hmem), ?_,
      h.satisfied _ hmem⟩
    rw [h.slots, List.getElem?_eq_getElem hslot]
  · rw [h.slots, h.slots] at heq
    exact UInt64.toNat_inj.mp ((List.getElem?_inj (hlt j hj) hnodup).mp heq)
  · have hmem : idx ∈ matched := by
      by_contra hnot
      obtain ⟨t, ht, hunsat⟩ := h.missed idx ((mem_round hfits hstart).mpr hidx) he hnot
      exact hunsat (hsat t ht)
    obtain ⟨m, hm, hget⟩ := List.getElem_of_mem hmem
    have hcount := h.count
    have hword := r.numMatched.toNat_lt
    have hslot : (UInt64.ofNat m).toNat = m := by
      rw [UInt64.toNat_ofNat', Nat.mod_eq_of_lt (by omega)]
    refine ⟨UInt64.ofNat m, ?_, ?_⟩
    · rw [UInt64.lt_iff_toNat_lt, hslot, hcount]
      exact hm
    · rw [h.slots, hslot, List.getElem?_eq_getElem hm, hget]

theorem Swept.le (h : Swept call ivars (call.round startIdx) r matched) :
    r.numMatched ≤ call.nelems := by
  have hlen := h.sublist.length_le
  rw [round, List.length_map, List.length_range, ← h.count] at hlen
  exact UInt64.le_iff_toNat_le.mpr hlen

theorem Swept.numMatched_ne_zero (h : Swept call ivars visited r matched) : r.numMatched ≠ 0 := by
  intro hzero
  have hcount := h.count
  rw [hzero, UInt64.toNat_zero] at hcount
  exact h.nonempty (List.length_eq_zero_iff.mp hcount.symm)

/-- The calls for some elements meet the specification. -/
theorem someSpec (call : Call α) (ivars : Memory α) (hfits : 8 * call.nelems.toNat ≤ 2 ^ 64) :
    SomeSpec call ivars fun r => ∃ fuel, call.waitUntilSome ivars fuel = some r := by
  by_cases hn : call.nelems = 0
  · simp only [exists_waitUntilSome_zero hn]
    refine ⟨?_, ⟨fun _ => masked_of_nelems_eq_zero hn, fun _ => ⟨_, rfl, rfl⟩⟩, ?_, ?_,
      fun _ => ⟨_, rfl⟩⟩
    · rintro r r' rfl rfl
      rfl
    · rintro r rfl hne
      exact absurd rfl hne
    · rintro r rfl j -
      rfl
  · simp only [exists_waitUntilSome_iff hn]
    refine ⟨?_, ⟨?_, fun hmasked => ?_⟩, ?_, ?_, ?_⟩
    · rintro r r' ⟨found, hfound, rfl⟩ ⟨found', hfound', rfl⟩
      rw [hfound.unique hfound']
    · rintro ⟨_, ⟨found, hfound, rfl⟩, hzero⟩
      rcases search_returns hn hfound with ⟨-, hmasked⟩ | ⟨idx, hlt, hsome, he, hread⟩
      · exact hmasked
      · simp only [someResult, hsome] at hzero
        obtain ⟨matched, h⟩ := swept_sweep hfits hlt he hread
        exact absurd hzero h.numMatched_ne_zero
    · obtain ⟨found, hfound⟩ := search_ends_of_masked ivars hn hmasked
      refine ⟨_, ⟨found, hfound, rfl⟩, ?_⟩
      rcases search_returns hn hfound with ⟨hnone, -⟩ | ⟨idx, hlt, -, he, -⟩
      · simp only [someResult, hnone]
        rfl
      · exact absurd he (by simp [hmasked idx hlt])
    · rintro _ ⟨found, hfound, rfl⟩ hne
      rcases search_returns hn hfound with ⟨hnone, -⟩ | ⟨idx, hlt, hsome, he, hread⟩
      · exact absurd (by simp only [someResult, hnone]; rfl) hne
      · simp only [someResult, hsome]
        obtain ⟨matched, h⟩ := swept_sweep hfits hlt he hread
        exact h.chosen hfits hlt
    · rintro _ ⟨found, hfound, rfl⟩ j hj
      rcases search_returns hn hfound with ⟨hnone, -⟩ | ⟨idx, hlt, hsome, he, hread⟩
      · simp only [someResult, hnone]
        rfl
      · simp only [someResult, hsome] at hj ⊢
        obtain ⟨matched, h⟩ := swept_sweep hfits hlt he hread
        exact h.untouched (hj.elim id fun hj => UInt64.le_trans h.le hj)
    · rintro ⟨idx, hlt, he, start, hsat⟩
      obtain ⟨found, hfound⟩ := search_ends_of_satisfied hlt he hsat
      exact ⟨_, found, hfound, rfl⟩

end Call

/-! ## The four functions -/

/-- Under every schedule of remote writes, the waits for any and for some elements return what their
arguments and the values read at the moments of the reads give. -/
theorem wait_results (ivars : Memory α) (nelems : UInt64) (indices : IndexArray nelems)
    (status : Option (UInt64 → ℤ)) (cmp : ℤ) (cmpValue : α) (cmpValues : UInt64 → α) :
    Call.AnySpec ⟨nelems, status, cmp, fun _ => cmpValue⟩ ivars
        (fun r => ∃ fuel, aclshmemiWaitUntilAny ivars nelems status cmp fuel cmpValue = some r) ∧
      Call.AnySpec ⟨nelems, status, cmp, cmpValues⟩ ivars
        (fun r =>
          ∃ fuel, aclshmemiWaitUntilAnyVector ivars nelems status cmp fuel cmpValues = some r) ∧
      Call.SomeSpec ⟨nelems, status, cmp, fun _ => cmpValue⟩ ivars
        (fun r =>
          ∃ fuel, aclshmemiWaitUntilSome ivars nelems status cmp fuel indices cmpValue = some r) ∧
      Call.SomeSpec ⟨nelems, status, cmp, cmpValues⟩ ivars
        (fun r => ∃ fuel,
          aclshmemiWaitUntilSomeVector ivars nelems status cmp fuel indices cmpValues = some r) := by
  have hfits : 8 * nelems.toNat ≤ 2 ^ 64 := (Nat.le_add_left _ _).trans indices.fits
  exact ⟨Call.anySpec _ ivars, Call.anySpec _ ivars, Call.someSpec _ ivars hfits,
    Call.someSpec _ ivars hfits⟩

end AscendShmem.PointToPoint
