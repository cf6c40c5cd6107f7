import AscendShmem.PullV2.ArrivalOrder
import AscendShmem.PullV2.SliceScan

/-!
# Phase 1 of the dispatch kernel

A parser block that has scanned its slice has counted what the tokens of the slice take at every
destination (`scanTokens_ends`). The records of a source are all scanned exactly when they are a
CSR index of the assignments, wherever the slices are cut.
-/

namespace AscendShmem.PullV2

open Lib Lib.Exec

/-! ## Counting -/

namespace ParserCells

instance : Zero ParserCells := ⟨ParserCells.zero⟩

instance : Add ParserCells :=
  ⟨fun a b => ⟨a.contributors + b.contributors, a.rows + b.rows, a.assignments + b.assignments,
    a.experts + b.experts⟩⟩

instance : AddCommMonoid ParserCells where
  add_assoc a b c := by
    apply ParserCells.ext
    · exact Nat.add_assoc _ _ _
    · exact add_assoc a.rows b.rows c.rows
    · exact add_assoc a.assignments b.assignments c.assignments
    · exact add_assoc a.experts b.experts c.experts
  zero_add a := by
    apply ParserCells.ext
    · exact Nat.zero_add _
    · exact zero_add a.rows
    · exact zero_add a.assignments
    · exact zero_add a.experts
  add_zero a := by
    apply ParserCells.ext
    · exact Nat.add_zero _
    · exact add_zero a.rows
    · exact add_zero a.assignments
    · exact add_zero a.experts
  add_comm a b := by
    apply ParserCells.ext
    · exact Nat.add_comm _ _
    · exact add_comm a.rows b.rows
    · exact add_comm a.assignments b.assignments
    · exact add_comm a.experts b.experts
  nsmul := nsmulRec

variable (a b : ParserCells)

@[simp] theorem contributors_add : (a + b).contributors = a.contributors + b.contributors := rfl
@[simp] theorem rows_add : (a + b).rows = a.rows + b.rows := rfl
@[simp] theorem assignments_add : (a + b).assignments = a.assignments + b.assignments := rfl
@[simp] theorem experts_add : (a + b).experts = a.experts + b.experts := rfl
@[simp] theorem contributors_zero : (0 : ParserCells).contributors = 0 := rfl
@[simp] theorem rows_zero : (0 : ParserCells).rows = 0 := rfl
@[simp] theorem assignments_zero : (0 : ParserCells).assignments = 0 := rfl
@[simp] theorem experts_zero : (0 : ParserCells).experts = 0 := rfl

/-- Every cell has its value in 32 bits. -/
structure Fit (c : ParserCells) : Prop where
  contributors : c.contributors ≤ 0xffffffff
  rows : ∀ d, c.rows d ≤ 0xffffffff
  assignments : ∀ d, c.assignments d ≤ 0xffffffff
  experts : ∀ x, c.experts x ≤ 0xffffffff

variable {a b}

theorem Fit.left (h : (a + b).Fit) : a.Fit :=
  ⟨(Nat.le_add_right _ _).trans h.contributors, fun d => (Nat.le_add_right _ _).trans (h.rows d),
    fun d => (Nat.le_add_right _ _).trans (h.assignments d),
    fun x => (Nat.le_add_right _ _).trans (h.experts x)⟩

end ParserCells

/-- What a token counts in. -/
def tokenCells (workers expertCount : ℕ) (v : RoutedToken) : ParserCells :=
  ⟨total (fun d => (need d v).1) (List.range workers), fun d => (need d v).1,
    fun d => (need d v).2, cellsBelow expertCount workers v⟩

/-- A token that only has the assignments `l`. -/
def RoutedToken.upto (v : RoutedToken) (l : List AssignmentRecord) : RoutedToken :=
  { v with assignments := l }

/-- One at `i`. -/
def single (i : ℕ) : ℕ → ℕ := fun j => if i = j then 1 else 0

/-- Counting up is adding one. -/
theorem update_eq_add_single (f : ℕ → ℕ) (i : ℕ) :
    Function.update f i (f i + 1) = f + single i := by
  funext j
  by_cases h : j = i
  · subst h
    rw [Function.update_self, Pi.add_apply, single, if_pos rfl]
  · rw [Function.update_of_ne h, Pi.add_apply, single, if_neg (Ne.symm h), Nat.add_zero]

/-- What one assignment adds; `fresh` says that it is the first at its destination. -/
def assignmentCells (expertCount : ℕ) (a : AssignmentRecord) (fresh : Bool) : ParserCells :=
  ⟨if fresh then 1 else 0, if fresh then single a.destinationRank.toNat else 0,
    single a.destinationRank.toNat, single (cell expertCount a.destinationRank.toNat a)⟩

section Count

variable {launch : DispatchLaunch} {workers e d : ℕ} {v : RoutedToken} {l : List AssignmentRecord}
  {a : AssignmentRecord}

/-- One more assignment joins its own group only. -/
theorem group_upto_concat : (v.upto (l ++ [a])).group d
    = (v.upto l).group d ++ if a.destinationRank.toNat = d then [a] else [] := by
  unfold RoutedToken.group RoutedToken.upto
  rw [List.filter_append]
  congr 1
  by_cases h : a.destinationRank.toNat = d
  · simp [h]
  · simp [h]

/-- Whether an assignment comes first at its destination. -/
def freshAt (v : RoutedToken) (l : List AssignmentRecord) (a : AssignmentRecord) : Bool :=
  (v.upto l).group a.destinationRank.toNat = []

theorem need_upto_concat : need d (v.upto (l ++ [a])) = need d (v.upto l)
    + if a.destinationRank.toNat = d then (if freshAt v l a then 1 else 0, 1) else 0 := by
  by_cases h : a.destinationRank.toNat = d
  · subst h
    rw [if_pos rfl, need, need, group_upto_concat, if_pos rfl, if_neg (by simp),
      List.length_append, List.length_singleton]
    unfold freshAt
    by_cases hnone : (v.upto l).group a.destinationRank.toNat = []
    · simp [hnone]
    · simp [hnone]
  · rw [if_neg h, add_zero, need, need, group_upto_concat, if_neg h, List.append_nil]

theorem cellsBelow_upto_concat (h : a.destinationRank.toNat < workers) :
    cellsBelow e workers (v.upto (l ++ [a])) = cellsBelow e workers (v.upto l)
      + single (cell e a.destinationRank.toNat a) := by
  have hterm : ∀ d, total (cellCount e d) ((v.upto (l ++ [a])).group d)
      = total (cellCount e d) ((v.upto l).group d)
        + if a.destinationRank.toNat = d then single (cell e a.destinationRank.toNat a) else 0 := by
    intro d
    rw [group_upto_concat, total_append]
    congr 1
    by_cases hd : a.destinationRank.toNat = d
    · subst hd
      rw [if_pos rfl, if_pos rfl, total_singleton]
      rfl
    · rw [if_neg hd, if_neg hd, total_nil]
  unfold cellsBelow
  rw [total_congr fun d _ => hterm d, total_add, total_single h]

/-- Without assignments nothing is counted. -/
theorem tokenCells_upto_nil : tokenCells workers e (v.upto []) = 0 := by
  apply ParserCells.ext
  · show total (fun _ => 0) _ = 0
    rw [total, List.map_const', List.sum_replicate, nsmul_zero]
  · rfl
  · rfl
  · show total (fun _ => (0 : ℕ → ℕ)) _ = 0
    rw [total, List.map_const', List.sum_replicate, nsmul_zero]

/-- One more assignment of a token. -/
theorem tokenCells_concat (h : a.destinationRank.toNat < workers) :
    tokenCells workers e (v.upto (l ++ [a]))
      = tokenCells workers e (v.upto l) + assignmentCells e a (freshAt v l a) := by
  apply ParserCells.ext
  · show total (fun d => (need d (v.upto (l ++ [a]))).1) (List.range workers)
      = total (fun d => (need d (v.upto l)).1) (List.range workers) + if freshAt v l a then 1 else 0
    have hterm : ∀ d, (need d (v.upto (l ++ [a]))).1 = (need d (v.upto l)).1
        + if a.destinationRank.toNat = d then (if freshAt v l a then 1 else 0) else 0 := by
      intro d
      rw [need_upto_concat]
      by_cases hd : a.destinationRank.toNat = d
      · rw [if_pos hd, if_pos hd]
        rfl
      · rw [if_neg hd, if_neg hd]
        rfl
    rw [total_congr fun d _ => hterm d, total_add, total_single h]
  · funext d
    show (need d (v.upto (l ++ [a]))).1 = (need d (v.upto l)).1
      + (if freshAt v l a then single a.destinationRank.toNat else 0) d
    rw [need_upto_concat]
    by_cases hd : a.destinationRank.toNat = d
    · subst hd
      cases freshAt v l a with
      | true => simp [single]
      | false => simp
    · cases freshAt v l a with
      | true => simp [single, hd]
      | false => simp [hd]
  · funext d
    show (need d (v.upto (l ++ [a]))).2 = (need d (v.upto l)).2 + single a.destinationRank.toNat d
    rw [need_upto_concat]
    by_cases hd : a.destinationRank.toNat = d
    · simp [single, hd]
    · simp [single, hd]
  · exact cellsBelow_upto_concat h

/-- More assignments count no less. -/
theorem tokenCells_append {m : List AssignmentRecord}
    (h : ∀ a ∈ m, a.destinationRank.toNat < workers) :
    ∃ rest, tokenCells workers e (v.upto (l ++ m)) = tokenCells workers e (v.upto l) + rest := by
  induction m using List.reverseRecOn with
  | nil => exact ⟨0, by rw [List.append_nil, add_zero]⟩
  | append_singleton m a ih =>
    rcases ih fun b hb => h b (List.mem_append_left _ hb) with ⟨rest, hrest⟩
    refine ⟨rest + assignmentCells e a (freshAt v (l ++ m) a), ?_⟩
    rw [← List.append_assoc, tokenCells_concat (h a (by simp)), hrest, add_assoc]

/-- The bits of the destinations of `l`. -/
def BitsOf (bits : Bits128) (l : List AssignmentRecord) : Prop :=
  ∀ x, bits.has x = true ↔ ∃ a ∈ l, a.destinationRank = x

/-- A bit says if a destination was met. -/
theorem BitsOf.has_eq {bits : Bits128} (h : BitsOf bits l) :
    bits.has a.destinationRank = !freshAt v l a := by
  rw [Bool.eq_iff_iff, h]
  unfold freshAt RoutedToken.group RoutedToken.upto
  simp only [Bool.not_eq_true', decide_eq_false_iff_not, List.filter_eq_nil_iff, decide_eq_true_eq]
  constructor
  · intro ⟨b, hb, heq⟩ hnone
    exact hnone b hb (congrArg UInt32.toNat heq)
  · intro hsome
    by_contra hnone
    apply hsome
    intro b hb heq
    exact hnone ⟨b, hb, UInt32.toNat_inj.mp heq⟩

/-- Setting the bit meets the destination. -/
theorem BitsOf.add {bits : Bits128} (h : BitsOf bits l) :
    BitsOf (bits.add a.destinationRank) (l ++ [a]) := by
  intro x
  rw [Bits128.has_add, h x]
  constructor
  · intro hx
    rcases hx with hx | ⟨b, hb, hx⟩
    · exact ⟨a, by simp, hx⟩
    · exact ⟨b, List.mem_append_left _ hb, hx⟩
  · intro ⟨b, hb, hx⟩
    rcases List.mem_append.mp hb with hb | hb
    · exact Or.inr ⟨b, hb, hx⟩
    · rw [List.mem_singleton.mp hb] at hx
      exact Or.inl hx

/-- A destination met before needs no bit. -/
theorem BitsOf.keep {bits : Bits128} (h : BitsOf bits l) (hhas : bits.has a.destinationRank = true) :
    BitsOf bits (l ++ [a]) := by
  intro x
  rw [h x]
  constructor
  · intro ⟨b, hb, hx⟩
    exact ⟨b, List.mem_append_left _ hb, hx⟩
  · intro ⟨b, hb, hx⟩
    rcases List.mem_append.mp hb with hb | hb
    · exact ⟨b, hb, hx⟩
    · rw [List.mem_singleton.mp hb] at hx
      exact hx ▸ (h _).mp hhas

/-- A counter counts up unless it is full. -/
theorem countUp_ends (cells : ℕ → ℕ) (i : ℕ) :
    Ends (countUp cells i) (fun cells' => cells' = cells + single i)
      (fun _ => ¬ (cells + single i) i ≤ 0xffffffff) False := by
  have hone : single i i = 1 := if_pos rfl
  unfold countUp
  apply Ends.bind (P := fun _ => True)
  · apply Ends.require
    · intro _
      trivial
    · intro h
      rw [Pi.add_apply, hone, not_not.mp h]
      norm_num
  · intro _ _
    exact update_eq_add_single cells i

/-- One turn of the loop over the assignments. -/
theorem countAssignment_ends {bits : Bits128} (hbits : BitsOf bits l) (cells : ParserCells) :
    Ends (countAssignment launch (bits, cells) a)
      (fun st => BitsOf st.1 (l ++ [a]) ∧
        st.2 = cells + assignmentCells launch.expertCount.toNat a (freshAt v l a))
      (fun _ => ¬ (cells + assignmentCells launch.expertCount.toNat a (freshAt v l a)).Fit)
      False := by
  set fresh := freshAt v l a with hfresh
  set more := assignmentCells launch.expertCount.toNat a fresh with hmore
  have hhas : bits.has a.destinationRank = !fresh := hbits.has_eq
  unfold countAssignment
  -- the row and the contributor of the first assignment
  apply Ends.bind (P := fun st => BitsOf st.1 (l ++ [a]) ∧ st.2
    = { cells with
        contributors := cells.contributors + more.contributors
        rows := cells.rows + more.rows })
  · unfold countRow
    rw [hhas]
    cases hcase : fresh with
    | false =>
      rw [hcase] at hmore
      apply ends_ok.mpr
      refine ⟨hbits.keep (by rw [hhas, hcase]; rfl), ?_⟩
      rw [hmore]
      rfl
    | true =>
      rw [hcase] at hmore
      apply Ends.bind (P := fun _ => True)
      · apply Ends.require
        · intro _
          trivial
        · intro h hfit
          apply h
          constructor
          · intro hfull
            have hrows : cells.rows a.destinationRank.toNat = 0xffffffff := hfull
            have hle := hfit.rows a.destinationRank.toNat
            rw [hmore] at hle
            simp only [ParserCells.rows_add, Pi.add_apply, assignmentCells, single, if_true] at hle
            omega
          · intro hfull
            have hcontributors : cells.contributors = 0xffffffff := hfull
            have hle := hfit.contributors
            rw [hmore] at hle
            simp only [ParserCells.contributors_add, assignmentCells, if_true] at hle
            omega
      · intro _ _
        apply ends_ok.mpr
        refine ⟨hbits.add, ?_⟩
        show _ = ParserCells.mk _ _ _ _
        rw [hmore]
        simp only [update_eq_add_single, assignmentCells, if_true]
  rintro ⟨bits', cells'⟩ ⟨hbits', hcells'⟩
  simp only at hbits' hcells'
  subst hcells'
  apply Ends.bind ((countUp_ends _ _).mono (fun _ h => h) ?_ id)
  · intro assignments hassignments
    apply Ends.bind ((countUp_ends _ _).mono (fun _ h => h) ?_ id)
    · intro experts hexperts
      apply ends_ok.mpr
      refine ⟨hbits', ?_⟩
      rw [hassignments, hexperts]
      rfl
    · intro s hs hfit
      exact hs (hfit.experts _)
  · intro s hs hfit
    exact hs (hfit.assignments _)

/-- The counting loop of a token. -/
theorem countAssignments_ends (hv : v.assignments = l)
    (hl : ∀ a ∈ l, a.destinationRank < launch.workerCount) (cells : ParserCells) :
    Ends (l.foldlM (countAssignment launch) (Bits128.empty, cells))
      (fun st => st.2
        = cells + tokenCells launch.workerCount.toNat launch.expertCount.toNat v)
      (fun _ => ¬ (cells + tokenCells launch.workerCount.toNat launch.expertCount.toNat v).Fit)
      False := by
  set w := launch.workerCount.toNat with hw
  set e := launch.expertCount.toNat with he
  have hlt : ∀ a ∈ l, a.destinationRank.toNat < w := fun a ha =>
    UInt32.lt_iff_toNat_lt.mp (hl a ha)
  have hwhole : v = v.upto l := by
    rw [← hv]
    rfl
  apply Ends.imp (P := fun st => BitsOf st.1 l ∧ st.2 = cells + tokenCells w e (v.upto l))
  · apply Ends.foldlM fun (pre : List AssignmentRecord) (st : Bits128 × ParserCells) =>
      BitsOf st.1 pre ∧ st.2 = cells + tokenCells w e (v.upto pre)
    · refine ⟨fun x => by simp, ?_⟩
      rw [tokenCells_upto_nil, add_zero]
    · rintro pre a post ⟨bits, mid⟩ hsplit ⟨hbits, hmid⟩
      simp only at hbits hmid
      subst hmid
      have ha : a.destinationRank.toNat < w := hlt a (by rw [hsplit]; simp)
      apply (countAssignment_ends (v := v) hbits _).mono _ _ id
      · intro st hst
        refine ⟨hst.1, ?_⟩
        rw [hst.2, tokenCells_concat ha, add_assoc]
      · intro s hbad hfit
        apply hbad
        have hpost : ∀ b ∈ post, b.destinationRank.toNat < w := fun b hb =>
          hlt b (by rw [hsplit]; simp [hb])
        rcases tokenCells_append (e := e) (v := v) (l := pre ++ [a]) hpost with ⟨rest, hrest⟩
        have hall : v.upto l = v.upto ((pre ++ [a]) ++ post) := by
          rw [hsplit]
          simp
        rw [hwhole, hall, hrest, tokenCells_concat ha, ← add_assoc, ← add_assoc] at hfit
        exact hfit.left
  · intro st h
    rw [h.2, ← hwhole]

/-- A token counts no more than it has assignments. -/
theorem tokenCells_le (v : RoutedToken) (h : ∀ a ∈ v.assignments, a.destinationRank.toNat < workers) :
    (tokenCells workers e v).contributors ≤ v.assignments.length ∧
      (∀ d, (tokenCells workers e v).rows d ≤ v.assignments.length) ∧
      (∀ d, (tokenCells workers e v).assignments d ≤ v.assignments.length) ∧
      ∀ x, (tokenCells workers e v).experts x ≤ v.assignments.length := by
  obtain ⟨l, hl⟩ : ∃ l, l = v.assignments := ⟨_, rfl⟩
  have hwhole : v = v.upto l := by
    rw [hl]
    rfl
  rw [← hl] at h ⊢
  rw [hwhole]
  clear hl hwhole
  have hsingle : ∀ i j, single i j ≤ 1 := by
    intro i j
    unfold single
    split
    · exact le_refl 1
    · exact Nat.zero_le 1
  induction l using List.reverseRecOn with
  | nil =>
    have hnone : tokenCells workers e (v.upto []) = 0 := tokenCells_upto_nil
    rw [hnone]
    exact ⟨le_refl 0, fun _ => le_refl 0, fun _ => le_refl 0, fun _ => le_refl 0⟩
  | append_singleton l a ih =>
    rcases ih fun b hb => h b (List.mem_append_left _ hb) with ⟨h1, h2, h3, h4⟩
    rw [tokenCells_concat (h a (by simp)), List.length_append, List.length_singleton]
    refine ⟨?_, fun d => ?_, fun d => ?_, fun x => ?_⟩
    · apply Nat.add_le_add h1
      show (if freshAt v l a then 1 else 0) ≤ 1
      split
      · exact le_refl 1
      · exact Nat.zero_le 1
    · apply Nat.add_le_add (h2 d)
      show (if freshAt v l a then single a.destinationRank.toNat else 0) d ≤ 1
      split
      · exact hsingle _ d
      · exact Nat.zero_le 1
    · exact Nat.add_le_add (h3 d) (hsingle _ d)
    · exact Nat.add_le_add (h4 x) (hsingle _ x)

/-- What the tokens `vs` count in. -/
def cellsOf (workers expertCount : ℕ) (vs : List RoutedToken) : ParserCells :=
  total (tokenCells workers expertCount) vs

theorem cellsOf_append (vs ws : List RoutedToken) :
    cellsOf workers e (vs ++ ws) = cellsOf workers e vs + cellsOf workers e ws :=
  total_append _ _ _

/-- The counters of a scanned source fit. -/
theorem cellsOf_fit {vs : List RoutedToken}
    (h : ∀ v ∈ vs, ∀ a ∈ v.assignments, a.destinationRank.toNat < workers)
    (hsize : (vs.flatMap RoutedToken.assignments).length ≤ 0xffffffff) :
    (cellsOf workers e vs).Fit := by
  have hle : (cellsOf workers e vs).contributors ≤ (vs.flatMap RoutedToken.assignments).length ∧
      (∀ d, (cellsOf workers e vs).rows d ≤ (vs.flatMap RoutedToken.assignments).length) ∧
      (∀ d, (cellsOf workers e vs).assignments d ≤ (vs.flatMap RoutedToken.assignments).length) ∧
      ∀ x, (cellsOf workers e vs).experts x ≤ (vs.flatMap RoutedToken.assignments).length := by
    clear hsize
    induction vs with
    | nil => exact ⟨le_refl 0, fun _ => le_refl 0, fun _ => le_refl 0, fun _ => le_refl 0⟩
    | cons v vs ih =>
      rcases ih fun w hw => h w (List.mem_cons_of_mem _ hw) with ⟨h1, h2, h3, h4⟩
      rcases tokenCells_le (e := e) v (h v List.mem_cons_self) with ⟨t1, t2, t3, t4⟩
      have hcons : cellsOf workers e (v :: vs) = tokenCells workers e v + cellsOf workers e vs :=
        total_cons _ _ _
      rw [hcons, List.flatMap_cons, List.length_append]
      exact ⟨Nat.add_le_add t1 h1, fun d => Nat.add_le_add (t2 d) (h2 d),
        fun d => Nat.add_le_add (t3 d) (h3 d), fun x => Nat.add_le_add (t4 x) (h4 x)⟩
  exact ⟨hle.1.trans hsize, fun d => (hle.2.1 d).trans hsize, fun d => (hle.2.2.1 d).trans hsize,
    fun x => (hle.2.2.2 x).trans hsize⟩

end Count

/-! ## Slices -/

/-- `n` tokens of a source from token `k` on. -/
def ParsedSource.slice (source : ParsedSource) (k n : ℕ) : List RoutedToken :=
  (source.routed.drop k).take n

/-- The tokens `k` to `k + n` have been scanned. -/
def SliceScanned (launch : DispatchLaunch) (source : ParsedSource) (k n : ℕ) : Prop :=
  ∀ j record, k ≤ j → j < k + n → source.tokens[j]? = some record →
    TokenScanned launch source j record

section Slice

variable {launch : DispatchLaunch} {source : ParsedSource}

/-- One more token of a slice. -/
theorem slice_succ {k n : ℕ} {record : TokenRecord} (h : source.tokens[k + n]? = some record) :
    source.slice k (n + 1) = source.slice k n ++ [source.routedToken record] := by
  have hget : (source.routed.drop k)[n]? = some (source.routedToken record) := by
    rw [List.getElem?_drop, ParsedSource.routed, List.getElem?_map, h]
    rfl
  exact (take_succ_of_getElem? hget).1

/-- One turn of the loop over the tokens. -/
theorem scanToken_ends {k : ℕ} {record : TokenRecord} (hrecord : source.tokens[k]? = some record)
    (hlen : source.assignments.length = source.header.assignmentCount.toNat) (cells : ParserCells) :
    Ends (scanToken launch source cells k)
      (fun cells' => TokenScanned launch source k record ∧
        cells' = cells + tokenCells launch.workerCount.toNat launch.expertCount.toNat
          (source.routedToken record))
      (fun _ => ¬ (TokenScanned launch source k record ∧
        (cells + tokenCells launch.workerCount.toNat launch.expertCount.toNat
          (source.routedToken record)).Fit)) False := by
  unfold scanToken
  rw [read_of hrecord, ok_bind]
  apply Ends.bind ((scanRecord_ends hrecord).mono (fun _ h => h) _ id)
  · intro _ hscanned
    have hrange : record.assignmentBegin.toNat + record.assignmentCount.toNat
        ≤ source.assignments.length := by
      rw [hlen]
      exact hscanned.inRange
    rw [forAssignments_eq _ _ hrange, forAssignments_eq _ _ hrange]
    apply Ends.bind ((scanAssignments_ends
      (source.assignmentsOf record)).mono (fun _ h => h) _ id)
    · intro _ hfields
      apply Ends.bind ((scanOrdinals_ends hrange).mono (fun _ h => h) _ id)
      · intro _ hordinals
        have hvalid := assignmentsValid_iff.mpr ⟨hfields, hordinals⟩
        have hdest : ∀ a ∈ source.assignmentsOf record,
            a.destinationRank < launch.workerCount := fun a ha => (hfields a ha).1.1
        apply Ends.bind ((countAssignments_ends (v := source.routedToken record) rfl hdest
          cells).mono (fun _ h => h) _ id)
        · intro st hst
          exact ⟨⟨hscanned, hvalid.1, hvalid.2⟩, hst⟩
        · intro _ hbad h
          exact hbad h.2
      · intro _ hbad h
        exact hbad (assignmentsValid_iff.mp ⟨h.1.assignments, h.1.ordinals⟩).2
    · intro _ hbad h
      exact hbad (assignmentsValid_iff.mp ⟨h.1.assignments, h.1.ordinals⟩).1
  · intro _ hbad h
    exact hbad h.1.toRecordScanned

/-- The loop succeeds exactly on scanned tokens, and counts them. -/
theorem scanTokens_ends {k n : ℕ} (hin : k + n ≤ source.tokens.length)
    (hlen : source.assignments.length = source.header.assignmentCount.toNat) :
    Ends ((List.range' k n).foldlM (scanToken launch source) ParserCells.zero)
      (fun cells => SliceScanned launch source k n ∧
        cells = cellsOf launch.workerCount.toNat launch.expertCount.toNat (source.slice k n))
      (fun _ => ¬ (SliceScanned launch source k n ∧
        (cellsOf launch.workerCount.toNat launch.expertCount.toNat (source.slice k n)).Fit))
      False := by
  set w := launch.workerCount.toNat with hw
  set e := launch.expertCount.toNat with he
  rw [List.range'_eq_map_range, List.foldlM_map]
  apply Ends.forRange (fun i cells => SliceScanned launch source k i ∧
    cells = cellsOf w e (source.slice k i))
  · refine ⟨fun j record hj hlt => by omega, ?_⟩
    rw [ParsedSource.slice, List.take_zero]
    rfl
  · rintro i hi _ ⟨hscanned, rfl⟩
    obtain ⟨record, hrecord⟩ : ∃ record, source.tokens[k + i]? = some record :=
      ⟨_, List.getElem?_eq_getElem (by omega)⟩
    have hcells : cellsOf w e (source.slice k (i + 1))
        = cellsOf w e (source.slice k i) + tokenCells w e (source.routedToken record) := by
      rw [slice_succ hrecord, cellsOf_append]
      congr 1
    apply (scanToken_ends hrecord hlen _).mono _ _ id
    · intro cells h
      refine ⟨?_, h.2.trans hcells.symm⟩
      intro j record' hj hlt hget
      rcases Nat.lt_succ_iff_lt_or_eq.mp (show j < (k + i) + 1 by omega) with hlt | rfl
      · exact hscanned j record' hj hlt hget
      · rw [hrecord] at hget
        cases hget
        exact h.1
    · intro _ hbad hall
      apply hbad
      refine ⟨hall.1 (k + i) record (by omega) (by omega) hrecord, ?_⟩
      rw [← hw, ← he, ← hcells]
      have hsplit : source.slice k n
          = source.slice k (i + 1) ++ (source.slice k n).drop (i + 1) := by
        have htake : source.slice k (i + 1) = (source.slice k n).take (i + 1) := by
          rw [ParsedSource.slice, ParsedSource.slice, List.take_take, Nat.min_eq_left (by omega)]
        rw [htake, List.take_append_drop]
      have hfit := hall.2
      rw [hsplit, cellsOf_append] at hfit
      exact hfit.left

/-- No ordinal reaches the bit the device keeps for itself. -/
def OrdinalsSmall (source : ParsedSource) : Prop :=
  ∀ a ∈ source.assignments, a.ordinal.toNat < 2 ^ 31

/-- The mark of an ordinal is its top bit. -/
theorem and_kOrdinalVisited (x : UInt32) : x &&& kOrdinalVisited = 0 ↔ x.toNat < 2 ^ 31 := by
  have hx := x.toNat_lt
  have hbit : (x &&& kOrdinalVisited).toNat = x.toNat &&& 2 ^ 31 := UInt32.toNat_and _ _
  rw [← UInt32.toNat_inj, hbit, Nat.and_two_pow]
  have htest : x.toNat.testBit 31 = decide (2 ^ 31 ≤ x.toNat) := by
    rw [Nat.testBit_eq_decide_div_mod_eq]
    congr 1
    rw [eq_iff_iff]
    omega
  rw [htest]
  by_cases h : 2 ^ 31 ≤ x.toNat
  · simp only [decide_eq_true h, Bool.toNat_true, one_mul, UInt32.toNat_zero]
    constructor
    · intro h0
      cases h0
    · intro hlt
      omega
  · simp only [decide_eq_false h, Bool.toNat_false, zero_mul, UInt32.toNat_zero, true_iff]
    omega

/-- Scanned records start where the counts before them end. -/
theorem SliceScanned.begin_eq (h : SliceScanned launch source 0 source.tokens.length) {k : ℕ}
    (hk : k ≤ source.tokens.length) : beginOf source.tokens k = expectedBegin source k := by
  induction k with
  | zero => rfl
  | succ k ih =>
    have hrecord : source.tokens[k]? = some source.tokens[k] := List.getElem?_eq_getElem (by omega)
    have hscanned := h k _ (Nat.zero_le k) (by omega) hrecord
    rw [beginOf_succ hrecord, ih (by omega), expectedBegin, hrecord, ← hscanned.assignmentBegin]
    rfl

/-- Every assignment belongs to the records up to some token. -/
theorem mem_assignmentsOf (hbegin : ∀ (k : ℕ) (record : TokenRecord),
      source.tokens[k]? = some record → record.assignmentBegin.toNat = beginOf source.tokens k)
    (htotal : beginOf source.tokens source.tokens.length
      = source.assignments.length) {a : AssignmentRecord} (ha : a ∈ source.assignments) :
    ∃ (k : ℕ) (record : TokenRecord), source.tokens[k]? = some record ∧
      a ∈ source.assignmentsOf record := by
  rcases List.getElem?_of_mem ha with ⟨i, hi⟩
  have hlt := (List.getElem?_eq_some_iff.mp hi).1
  rw [← htotal] at hlt
  suffices hfind : ∀ n ≤ source.tokens.length, i < beginOf source.tokens n →
      ∃ (k : ℕ) (record : TokenRecord), source.tokens[k]? = some record ∧
        a ∈ source.assignmentsOf record from
    hfind _ (le_refl _) hlt
  intro n
  induction n with
  | zero =>
    intro _ h
    exact absurd h (Nat.not_lt_zero i)
  | succ n ih =>
    intro hn h
    have hrecord : source.tokens[n]? = some source.tokens[n] := List.getElem?_eq_getElem (by omega)
    by_cases hbefore : i < beginOf source.tokens n
    · exact ih (by omega) hbefore
    · refine ⟨n, _, hrecord, ?_⟩
      rw [beginOf_succ hrecord] at h
      have hstart := hbegin n _ hrecord
      apply List.mem_of_getElem? (i := i - beginOf source.tokens n)
      rw [ParsedSource.assignmentsOf, List.getElem?_take_of_lt (by omega), List.getElem?_drop,
        hstart, show beginOf source.tokens n
          + (i - beginOf source.tokens n) = i by omega]
      exact hi

/-- A source whose records are all scanned is a CSR index, and the other way round. -/
theorem csrValid_iff_scanned (htokens : source.tokens.length = source.header.tokenCount.toNat)
    (hlen : source.assignments.length = source.header.assignmentCount.toNat) :
    CsrValid launch.session source ∧ OrdinalsSmall source ↔
      SliceScanned launch source 0 source.tokens.length ∧
        (source.tokens.length = 0 → source.assignments.length = 0) := by
  constructor
  · rintro ⟨hcsr, hsmall⟩
    constructor
    · intro k record _ hk hrecord
      have hvalid := hcsr.token k record hrecord
      have hend := beginOf_succ hrecord
      -- the begin that the kernel expects is the end of the record before
      have hexpected : ∀ j ≤ k, expectedBegin source j = beginOf source.tokens j := by
        intro j hj
        cases j with
        | zero => rfl
        | succ j =>
          have hprev : source.tokens[j]? = some source.tokens[j] :=
            List.getElem?_eq_getElem (by omega)
          rw [expectedBegin, hprev]
          show _ = beginOf source.tokens (j + 1)
          rw [beginOf_succ hprev, ← (hcsr.token j _ hprev).assignmentBegin]
          rfl
      have hrange := hvalid.inRange
      refine ⟨⟨hvalid.sourceToken, ?_, ?_, ?_, hvalid.reserved⟩, hvalid.assignments, ?_⟩
      · rw [hexpected k (le_refl k)]
        exact hvalid.assignmentBegin
      · rw [hvalid.assignmentBegin, ← hlen]
        omega
      · intro hlast
        rw [hvalid.assignmentBegin, ← hlen, ← hcsr.total, htokens, ← hlast]
        exact hend.symm
      · intro a ha
        rw [and_kOrdinalVisited]
        exact hsmall a (List.mem_of_mem_drop (List.mem_of_mem_take ha))
    · intro hnone
      rw [← hcsr.total, hnone]
      rfl
  · rintro ⟨hscanned, hnone⟩
    have hbegin : ∀ k record, source.tokens[k]? = some record →
        record.assignmentBegin.toNat = beginOf source.tokens k := by
      intro k record hrecord
      have hk := (List.getElem?_eq_some_iff.mp hrecord).1
      rw [hscanned.begin_eq (by omega)]
      exact (hscanned k record (Nat.zero_le k) (by omega) hrecord).assignmentBegin
    -- the last record ends at the assignment count; without records there are none
    have htotal : beginOf source.tokens source.tokens.length = source.assignments.length := by
      cases hcount : source.tokens.length with
      | zero => rw [hnone hcount]; rfl
      | succ n =>
        have hrecord : source.tokens[n]? = some source.tokens[n] :=
          List.getElem?_eq_getElem (by omega)
        have hlast := (hscanned n _ (Nat.zero_le n) (by omega) hrecord).last (by omega)
        rw [beginOf_succ hrecord, ← hbegin n _ hrecord, hlast, hlen]
    refine ⟨⟨?_, htotal⟩, ?_⟩
    · intro k record hrecord
      have hk := (List.getElem?_eq_some_iff.mp hrecord).1
      have hs := hscanned k record (Nat.zero_le k) (by omega) hrecord
      refine ⟨hs.sourceToken, hbegin k record hrecord, ?_, hs.reserved, hs.assignments⟩
      rw [← htotal]
      exact beginOf_mono _ (by omega)
    · intro a ha
      rcases mem_assignmentsOf hbegin htotal ha with ⟨k, record, hrecord, hmem⟩
      have hk := (List.getElem?_eq_some_iff.mp hrecord).1
      rw [← and_kOrdinalVisited]
      exact (hscanned k record (Nat.zero_le k) (by omega) hrecord).ordinals a hmem

end Slice

end AscendShmem.PullV2
