import Mathlib
import AscendShmem.Lib.Chain
import AscendShmem.Lib.Flags
import AscendShmem.Lib.Grid
import AscendShmem.Lib.Table
import AscendShmem.PullV2.Combine

/-!
# The plan compiler builds a reduction index

`Admissible` says which layouts the plan compiler accepts, in terms of the layout alone, and
`planOf` what it makes of them: the contributors in row order, the tokens in owner order, and for
every accumulator the chain of its pulls. `buildPlan_ends` shows that a run returns `planOf`
exactly on the admissible layouts and never faults, whatever the layout. The checks behind the
owner rows are implied by the ones before them.
-/

namespace AscendShmem.PullV2

open Lib Lib.Exec

/-! ## What a journal must be -/

/-- The contributors a token names. -/
def CompiledLayout.namedBy (dispatch : CompiledLayout) (token : JournalTokenEntry) :
    List JournalContributor :=
  (dispatch.contributors.drop token.contributorsBegin.toNat).take token.contributorsCount.toNat

/-- The rows of a worker. -/
def CompiledLayout.rowsAt (dispatch : CompiledLayout) (worker : ℕ) : List DestinationRow :=
  dispatch.destinationRows.getD worker []

/-- Their number. -/
def CompiledLayout.rowCount (dispatch : CompiledLayout) (worker : ℕ) : ℕ :=
  (dispatch.rowsAt worker).length

/-- A contributor of a token names that token's row at its worker. -/
structure NamesRow (dispatch : CompiledLayout) (config : CombineV2Config)
    (token : JournalTokenEntry) (contributor : JournalContributor) : Prop where
  workerRank : contributor.workerRank < config.workerCount
  assignmentCount : contributor.assignmentCount ≠ 0
  assignments : contributor.assignmentBegin.toNat + contributor.assignmentCount.toNat
    ≤ (dispatch.expertAssignments.getD contributor.workerRank.toNat []).length
  row : ∃ row, (dispatch.rowsAt contributor.workerRank.toNat)[contributor.destinationRow.toNat]?
      = some row ∧ row.routeKey = token.routeKey ∧
    row.destinationRow = contributor.destinationRow ∧
    row.assignmentsBegin = contributor.assignmentBegin ∧
    row.assignmentsCount = contributor.assignmentCount

/-- The contributors of a token name its rows, at most one at each worker. -/
def NamesRows (dispatch : CompiledLayout) (config : CombineV2Config)
    (token : JournalTokenEntry) : Prop :=
  (∀ contributor ∈ dispatch.namedBy token, NamesRow dispatch config token contributor) ∧
    ((dispatch.namedBy token).map fun contributor => contributor.workerRank).Nodup

/-- A token entry whose contributors begin at `begin_`. -/
structure TokenAdmissible (dispatch : CompiledLayout) (config : CombineV2Config) (begin_ : ℕ)
    (token : JournalTokenEntry) : Prop where
  ownerRank : token.ownerRank < config.workerCount
  routeKey : token.routeKey = routeKey token.ownerRank token.ownerRow
  contributorsBegin : token.contributorsBegin.toNat = begin_
  contributors : begin_ + token.contributorsCount.toNat ≤ dispatch.contributors.length
  assignments : token.assignmentsBegin.toNat + token.assignmentsCount.toNat
    ≤ dispatch.journalAssignments.length
  accumulator : token.accumulatorIndex.toNat < dispatch.journalTokens.length
  flags : token.flags = 0
  reserved : token.reserved = (0, 0)
  rows : NamesRows dispatch config token

/-- The contributors of a list of tokens. -/
def contributorTotal (tokens : List JournalTokenEntry) : ℕ :=
  total (fun token => token.contributorsCount.toNat) tokens

/-- The accumulators of the tokens, in order. -/
def accumulatorsOf (tokens : List JournalTokenEntry) : List ℕ :=
  tokens.map fun token => token.accumulatorIndex.toNat

/-! ## What the token loop collects -/

/-- The pull of a contributor. -/
def pullOf (token : JournalTokenEntry) (tokenIndex : ℕ) (contributor : JournalContributor) :
    CombinePullOp :=
  ⟨contributor.workerRank, contributor.destinationRow, UInt32.ofNat tokenIndex,
    token.accumulatorIndex⟩

/-- The result of a token. -/
def resultOf (token : JournalTokenEntry) (tokenIndex : ℕ) : CombineResultOp :=
  { ownerRank := token.ownerRank
    ownerRow := token.ownerRow
    journalToken := UInt32.ofNat tokenIndex
    accumulatorIndex := token.accumulatorIndex
    expectedContributors := token.contributorsCount }

/-- The pulls of a token. -/
def CompiledLayout.pullsOf (dispatch : CompiledLayout) (p : JournalTokenEntry × ℕ) :
    List CombinePullOp :=
  (dispatch.namedBy p.1).map (pullOf p.1 p.2)

/-- The pulls in journal order. -/
def CompiledLayout.rawPulls (dispatch : CompiledLayout) (tokens : List JournalTokenEntry) :
    List CombinePullOp :=
  tokens.zipIdx.flatMap dispatch.pullsOf

/-- The results before they are sorted. -/
def rawResults (tokens : List JournalTokenEntry) : List CombineResultOp :=
  tokens.zipIdx.map fun p => resultOf p.1 p.2

/-- Where a pull comes from. -/
def pullKey (op : CombinePullOp) : ℕ × ℕ := (op.sourceRank.toNat, op.sourceRow.toNat)

/-- Where a result goes. -/
def resultKey (op : CombineResultOp) : ℕ × ℕ := (op.ownerRank.toNat, op.ownerRow.toNat)

/-- The tokens of an owner. -/
def ownerCount (tokens : List JournalTokenEntry) (owner : ℕ) : ℕ :=
  (tokens.filter fun token => token.ownerRank.toNat = owner).length

/-- The first tokens of a journal are admissible, with contributors one range after the other
and an accumulator of their own. -/
def TokensAdmissible (dispatch : CompiledLayout) (config : CombineV2Config)
    (tokens : List JournalTokenEntry) : Prop :=
  (∀ i token, tokens[i]? = some token →
      TokenAdmissible dispatch config (contributorTotal (tokens.take i)) token) ∧
    (accumulatorsOf tokens).Nodup

/-- The layouts the plan compiler accepts. -/
structure Admissible (dispatch : CompiledLayout) (config : CombineV2Config) : Prop where
  configValid : combineConfigValid config
  journal : journalSealed dispatch config
  tokens : TokensAdmissible dispatch config dispatch.journalTokens
  cover : contributorTotal dispatch.journalTokens = dispatch.contributors.length
  rows : ((dispatch.rawPulls dispatch.journalTokens).map pullKey).Perm
    (grid config.workerCount.toNat dispatch.rowCount)
  owners : ((rawResults dispatch.journalTokens).map resultKey).Perm
    (grid config.workerCount.toNat (ownerCount dispatch.journalTokens))

/-- One more token adds its pulls. -/
theorem CompiledLayout.rawPulls_concat (dispatch : CompiledLayout)
    (tokens : List JournalTokenEntry) (token : JournalTokenEntry) :
    dispatch.rawPulls (tokens ++ [token])
      = dispatch.rawPulls tokens ++ dispatch.pullsOf (token, tokens.length) := by
  rw [rawPulls, rawPulls, List.zipIdx_append, List.flatMap_append]
  simp

theorem rawResults_concat (tokens : List JournalTokenEntry) (token : JournalTokenEntry) :
    rawResults (tokens ++ [token]) = rawResults tokens ++ [resultOf token tokens.length] := by
  rw [rawResults, rawResults, List.zipIdx_append, List.map_append]
  simp

theorem contributorTotal_concat (tokens : List JournalTokenEntry) (token : JournalTokenEntry) :
    contributorTotal (tokens ++ [token])
      = contributorTotal tokens + token.contributorsCount.toNat := by
  rw [contributorTotal, total_append, total_singleton]
  rfl

/-! ## The token loop -/

/-- Two 32-bit words always have a 64-bit sum. -/
theorem add_toUInt64 (a b : UInt32) :
    ∃ c, add a.toUInt64 b.toUInt64 = some c ∧ c.toNat = a.toNat + b.toNat := by
  have ha := a.toNat_lt
  have hb := b.toNat_lt
  refine ⟨UInt64.ofNat (a.toNat + b.toNat), add_eq_some.mpr ?_, ?_⟩
  · rw [UInt64.toNat_ofNat', Nat.mod_eq_of_lt (by omega)]
    simp
  · rw [UInt64.toNat_ofNat', Nat.mod_eq_of_lt (by omega)]

/-- The sum of two 32 bit words does not overflow. -/
theorem ends_add_toUInt64 {a b : UInt32} {status : CombineV2Status} {message : String}
    {E : CombineV2Status → Prop} {F : Prop} :
    Ends (orFail (add a.toUInt64 b.toUInt64) status message)
      (fun c => c.toNat = a.toNat + b.toNat) E F := by
  obtain ⟨c, hc, hval⟩ := add_toUInt64 a b
  rw [hc]
  exact hval

/-- A contributor index inside the range of the token does not wrap. -/
theorem readContributor_eq {dispatch : CompiledLayout} {token : JournalTokenEntry} {j : ℕ}
    (hend : token.contributorsBegin.toNat + token.contributorsCount.toNat
      ≤ dispatch.contributors.length)
    (hsize : dispatch.contributors.length < 2 ^ 32) (hj : j < token.contributorsCount.toNat) :
    ∃ contributor, (dispatch.namedBy token)[j]? = some contributor ∧
      readContributor dispatch token j = .ok contributor := by
  have hindex : (token.contributorsBegin + UInt32.ofNat j).toNat
      = token.contributorsBegin.toNat + j := by
    rw [UInt32.toNat_add, UInt32.toNat_ofNat', Nat.mod_eq_of_lt (a := j) (by omega),
      Nat.mod_eq_of_lt (by omega)]
  have hlt : token.contributorsBegin.toNat + j < dispatch.contributors.length := by omega
  refine ⟨dispatch.contributors[token.contributorsBegin.toNat + j], ?_, ?_⟩
  · rw [CompiledLayout.namedBy, List.getElem?_take_of_lt hj, List.getElem?_drop,
      List.getElem?_eq_getElem hlt]
  · rw [readContributor, hindex, read_of_lt hlt]

/-- A token names as many contributors as it says. -/
theorem CompiledLayout.length_namedBy {dispatch : CompiledLayout} {token : JournalTokenEntry}
    (hend : token.contributorsBegin.toNat + token.contributorsCount.toNat
      ≤ dispatch.contributors.length) :
    (dispatch.namedBy token).length = token.contributorsCount.toNat := by
  rw [CompiledLayout.namedBy, List.length_take, List.length_drop]
  omega

/-- The nested check looks for the worker among the contributors before. -/
theorem checkDistinct_ends {dispatch : CompiledLayout} {token : JournalTokenEntry}
    {contributor : JournalContributor} {j : ℕ}
    (hend : token.contributorsBegin.toNat + token.contributorsCount.toNat
      ≤ dispatch.contributors.length)
    (hsize : dispatch.contributors.length < 2 ^ 32) (hj : j ≤ token.contributorsCount.toNat) :
    Ends ((List.range j).foldlM (checkDistinct dispatch token contributor) ())
      (fun _ => contributor.workerRank
        ∉ ((dispatch.namedBy token).take j).map fun c => c.workerRank)
      (fun _ => contributor.workerRank
        ∈ ((dispatch.namedBy token).take j).map fun c => c.workerRank) False := by
  refine Ends.forRange (fun i _ => contributor.workerRank
    ∉ ((dispatch.namedBy token).take i).map fun c => c.workerRank) j (by simp) ?_
  intro i hi _ hnot
  obtain ⟨other, hget, hread⟩ := readContributor_eq hend hsize (j := i) (by omega)
  unfold checkDistinct
  rw [hread, ok_bind]
  refine Ends.require (fun hne => ?_) (fun heq => ?_)
  · rw [(take_succ_of_getElem? hget).1, List.map_append, List.mem_append, not_or]
    refine ⟨hnot, ?_⟩
    rw [List.map_singleton, List.mem_singleton]
    exact Ne.symm hne
  · rw [not_not] at heq
    rw [← heq]
    refine List.mem_map_of_mem (f := fun c : JournalContributor => c.workerRank) ?_
    exact List.mem_of_getElem? (i := i) (by rw [List.getElem?_take_of_lt hi, hget])

/-- The contributor loop of a token appends the token's pulls. -/
theorem planContributors_ends {dispatch : CompiledLayout} {config : CombineV2Config}
    {token : JournalTokenEntry} {tokenIndex : ℕ} {pulls : List CombinePullOp}
    (hend : token.contributorsBegin.toNat + token.contributorsCount.toNat
      ≤ dispatch.contributors.length)
    (hjournal : journalSealed dispatch config) :
    Ends ((List.range token.contributorsCount.toNat).foldlM
        (planContributor dispatch config tokenIndex token) pulls)
      (fun out => NamesRows dispatch config token ∧
        out = pulls ++ dispatch.pullsOf (token, tokenIndex))
      (fun _ => ¬ NamesRows dispatch config token) False := by
  obtain ⟨-, -, -, hrows, hexperts, -, hsize, -⟩ := hjournal
  replace hsize : dispatch.contributors.length < 2 ^ 32 :=
    hsize ▸ dispatch.journalHeader.contributorCount.toNat_lt
  set l := dispatch.namedBy token with hl
  have hlen : l.length = token.contributorsCount.toNat := CompiledLayout.length_namedBy hend
  -- after `j` turns the first `j` contributors name rows of different workers
  have hrun : Ends ((List.range token.contributorsCount.toNat).foldlM
      (planContributor dispatch config tokenIndex token) pulls)
      (fun out => (∀ c ∈ l.take token.contributorsCount.toNat, NamesRow dispatch config token c) ∧
        ((l.take token.contributorsCount.toNat).map fun c => c.workerRank).Nodup ∧
        out = pulls ++ (l.take token.contributorsCount.toNat).map (pullOf token tokenIndex))
      (fun _ => ¬ NamesRows dispatch config token) False := by
    refine Ends.forRange (fun j out => (∀ c ∈ l.take j, NamesRow dispatch config token c) ∧
      ((l.take j).map fun c => c.workerRank).Nodup ∧
      out = pulls ++ (l.take j).map (pullOf token tokenIndex)) _
      (s := pulls) (by simp) ?_
    rintro j hj _ ⟨hnames, hnodup, rfl⟩
    obtain ⟨c, hget, hread⟩ := readContributor_eq hend hsize hj
    have hmem : c ∈ l := List.mem_of_getElem? hget
    have hsucc := (take_succ_of_getElem? hget).1
    -- one contributor that names no row is enough to refuse
    have hfail : ¬ NamesRow dispatch config token c → ¬ NamesRows dispatch config token :=
      fun hn h => hn (h.1 c hmem)
    unfold planContributor
    rw [hread, ok_bind]
    refine Ends.bind (Ends.require (Q := fun _ => c.workerRank < config.workerCount) id
      fun hn => hfail fun h => hn h.workerRank) fun _ hrank => ?_
    have hlt := UInt32.lt_iff_toNat_lt.mp hrank
    have hrowsAt : dispatch.destinationRows[c.workerRank.toNat]?
        = some (dispatch.rowsAt c.workerRank.toNat) := by
      rw [CompiledLayout.rowsAt, List.getD_eq_getElem?_getD,
        List.getElem?_eq_getElem (by omega)]
      rfl
    have hexpertsAt : dispatch.expertAssignments[c.workerRank.toNat]?
        = some (dispatch.expertAssignments.getD c.workerRank.toNat []) := by
      rw [List.getD_eq_getElem?_getD, List.getElem?_eq_getElem (by omega)]
      rfl
    rw [read_of hrowsAt, ok_bind]
    refine Ends.bind (Ends.require (Q := fun _ =>
      c.destinationRow.toNat < (dispatch.rowsAt c.workerRank.toNat).length ∧
        c.assignmentCount ≠ 0) id fun hn => hfail fun h => hn ⟨?_, h.assignmentCount⟩)
        fun _ hrow => ?_
    · obtain ⟨row, hr, -⟩ := h.row
      exact (List.getElem?_eq_some_iff.mp hr).1
    refine Ends.bind ends_add_toUInt64 fun assignmentEnd hassignmentEnd => ?_
    rw [read_of hexpertsAt, ok_bind]
    refine Ends.bind (Ends.require (Q := fun _ => assignmentEnd.toNat
      ≤ (dispatch.expertAssignments.getD c.workerRank.toNat []).length) id
      fun hn => hfail fun h => hn (hassignmentEnd ▸ h.assignments)) fun _ hassign => ?_
    rw [hassignmentEnd] at hassign
    rw [read_of_lt hrow.1, ok_bind]
    refine Ends.bind (Ends.require (Q := fun _ => NamesRow dispatch config token c)
      (fun h => ⟨hrank, hrow.2, hassign, _, List.getElem?_eq_getElem hrow.1, h⟩)
      fun hn => hfail fun h => hn ?_) fun _ hname => ?_
    · obtain ⟨row, hr, heq⟩ := h.row
      rw [List.getElem?_eq_getElem hrow.1, Option.some.injEq] at hr
      rw [hr]
      exact heq
    -- the inner loop finds a worker that was named before
    refine Ends.bind ((checkDistinct_ends hend hsize (le_of_lt hj)).mono (fun _ => id) ?_ id)
      fun _ hnew => ?_
    · intro _ hdup hnames'
      have hsub : ((l.take (j + 1)).map fun c => c.workerRank).Nodup :=
        hnames'.2.sublist ((List.take_sublist _ _).map _)
      rw [hsucc, List.map_append, List.map_singleton] at hsub
      exact List.disjoint_of_nodup_append hsub hdup (List.mem_singleton_self _)
    · refine ends_ok.mpr ⟨?_, ?_, ?_⟩
      · rw [hsucc]
        intro c' hc'
        rcases List.mem_append.mp hc' with h | h
        · exact hnames c' h
        · rw [List.mem_singleton.mp h]
          exact hname
      · rw [hsucc, List.map_append, List.map_singleton]
        exact List.nodup_append.mpr ⟨hnodup, List.nodup_singleton _, fun a ha b hb hab => by
          rw [List.mem_singleton.mp hb] at hab
          exact hnew (hab ▸ ha)⟩
      · rw [hsucc, List.map_append, ← List.append_assoc]
        rfl
  rw [← hlen, List.take_length] at hrun
  rw [← hlen]
  exact hrun.imp fun out h => ⟨⟨h.1, h.2.1⟩, h.2.2⟩

/-- One more token. -/
theorem tokensAdmissible_concat {dispatch : CompiledLayout} {config : CombineV2Config}
    {tokens : List JournalTokenEntry} {token : JournalTokenEntry} :
    TokensAdmissible dispatch config (tokens ++ [token]) ↔
      TokensAdmissible dispatch config tokens ∧
        TokenAdmissible dispatch config (contributorTotal tokens) token ∧
        token.accumulatorIndex.toNat ∉ accumulatorsOf tokens := by
  have hnodup : (accumulatorsOf (tokens ++ [token])).Nodup ↔
      (accumulatorsOf tokens).Nodup ∧ token.accumulatorIndex.toNat ∉ accumulatorsOf tokens := by
    rw [accumulatorsOf, List.map_append, List.map_singleton, ← List.concat_eq_append,
      List.nodup_concat, and_comm]
    rfl
  constructor
  · rintro ⟨htoken, hnd⟩
    obtain ⟨hnd, hnew⟩ := hnodup.mp hnd
    refine ⟨⟨fun i t ht => ?_, hnd⟩, ?_, hnew⟩
    · have hi := (List.getElem?_eq_some_iff.mp ht).1
      have h := htoken i t (by rw [List.getElem?_append_left hi, ht])
      rwa [List.take_append_of_le_length (le_of_lt hi)] at h
    · have h := htoken tokens.length token (by simp)
      rwa [List.take_left] at h
  · rintro ⟨⟨htoken, hnd⟩, hlast, hnew⟩
    refine ⟨fun i t ht => ?_, hnodup.mpr ⟨hnd, hnew⟩⟩
    rcases lt_or_ge i tokens.length with hi | hi
    · rw [List.getElem?_append_left hi] at ht
      rw [List.take_append_of_le_length (le_of_lt hi)]
      exact htoken i t ht
    · have hlen := (List.getElem?_eq_some_iff.mp ht).1
      rw [List.length_append, List.length_singleton] at hlen
      obtain rfl : i = tokens.length := by omega
      rw [List.getElem?_concat_length, Option.some.injEq] at ht
      rw [List.take_left, ← ht]
      exact hlast

/-- The first tokens are admissible. -/
theorem TokensAdmissible.take {dispatch : CompiledLayout} {config : CombineV2Config}
    {tokens : List JournalTokenEntry} (h : TokensAdmissible dispatch config tokens) (n : ℕ) :
    TokensAdmissible dispatch config (tokens.take n) := by
  refine ⟨fun i token ht => ?_, h.2.sublist ((List.take_sublist n tokens).map _)⟩
  have hi := (List.getElem?_eq_some_iff.mp ht).1
  rw [List.length_take] at hi
  rw [List.getElem?_take_of_lt (by omega)] at ht
  rw [List.take_take, Nat.min_eq_left (by omega)]
  exact h.1 i token ht

/-- What the token loop has built after the tokens `pre`. -/
structure PlanInvariant (dispatch : CompiledLayout) (config : CombineV2Config)
    (pre : List JournalTokenEntry) (st : PlanState) : Prop where
  seen : st.accumulatorSeen = flagsOf dispatch.journalTokens.length (accumulatorsOf pre)
  contributorBegin : st.expectedContributorBegin.toNat = contributorTotal pre
  pulls : st.pulls = dispatch.rawPulls pre
  results : st.results = rawResults pre
  tokens : TokensAdmissible dispatch config pre

/-- One turn of the loop over the tokens. -/
theorem planToken_step {dispatch : CompiledLayout} {config : CombineV2Config} {st : PlanState}
    {i : ℕ} (hjournal : journalSealed dispatch config) (hi : i < dispatch.journalTokens.length)
    (hst : PlanInvariant dispatch config (dispatch.journalTokens.take i) st) :
    Ends (planToken dispatch config st i)
      (PlanInvariant dispatch config (dispatch.journalTokens.take (i + 1)))
      (fun _ => ¬ TokensAdmissible dispatch config dispatch.journalTokens) False := by
  set pre := dispatch.journalTokens.take i with hpre
  set token := dispatch.journalTokens[i] with htoken
  have hget : dispatch.journalTokens[i]? = some token := List.getElem?_eq_getElem hi
  have hsucc : dispatch.journalTokens.take (i + 1) = pre ++ [token] :=
    (take_succ_of_getElem? hget).1
  have hprelen : pre.length = i := by simp [hpre]; omega
  -- a check that an admissible token passes refuses no admissible journal
  have hfail : ∀ {p : Prop}, (TokenAdmissible dispatch config (contributorTotal pre) token →
      token.accumulatorIndex.toNat ∉ accumulatorsOf pre → p) →
      ¬ p → ¬ TokensAdmissible dispatch config dispatch.journalTokens := by
    intro p hp hn hall
    have h := hall.take (i + 1)
    rw [hsucc, tokensAdmissible_concat] at h
    exact hn (hp h.2.1 h.2.2)
  unfold planToken
  rw [read_of hget, ok_bind]
  refine Ends.bind (Ends.require (Q := fun _ => token.ownerRank < config.workerCount ∧
    token.routeKey = routeKey token.ownerRank token.ownerRow ∧
    token.contributorsBegin.toNat = contributorTotal pre) ?_ ?_) fun _ h1 => ?_
  · rintro ⟨h, h', hbegin⟩
    refine ⟨h, h', ?_⟩
    rw [← hst.contributorBegin, ← hbegin]
    simp
  · refine hfail fun h _ => ⟨h.ownerRank, h.routeKey, ?_⟩
    rw [← UInt64.toNat_inj, hst.contributorBegin, ← h.contributorsBegin]
    simp
  refine Ends.bind ends_add_toUInt64 fun contributorEnd hcontributorEnd => ?_
  refine Ends.bind ends_add_toUInt64 fun assignmentEnd hassignmentEnd => ?_
  refine Ends.bind (Ends.require (Q := fun _ =>
    contributorEnd.toNat ≤ dispatch.contributors.length ∧
      assignmentEnd.toNat ≤ dispatch.journalAssignments.length ∧
      token.accumulatorIndex.toNat < dispatch.journalTokens.length) id ?_) fun _ h2 => ?_
  · refine hfail fun h _ => ⟨?_, ?_, h.accumulator⟩
    · rw [hcontributorEnd, h.contributorsBegin]
      exact h.contributors
    · rw [hassignmentEnd]
      exact h.assignments
  rw [hcontributorEnd, hassignmentEnd] at h2
  -- the accumulator of the token is not taken yet
  rw [hst.seen, read_of (getElem?_flagsOf h2.2.2), ok_bind]
  refine Ends.bind (Ends.require (Q := fun _ => token.accumulatorIndex.toNat ∉ accumulatorsOf pre ∧
    token.flags = 0 ∧ token.reserved = (0, 0)) (fun h => ⟨of_decide_eq_false h.1, h.2⟩)
    (hfail fun h hnew => ⟨decide_eq_false hnew, h.flags, h.reserved⟩)) fun _ h3 => ?_
  rw [write_of_lt (by rw [length_flagsOf]; exact h2.2.2), ok_bind, set_flagsOf]
  refine Ends.bind ((planContributors_ends h2.1 hjournal).mono (fun _ => id)
    (fun _ => hfail fun h _ => h.rows) id) ?_
  rintro _ ⟨hrows, rfl⟩
  rw [hsucc]
  refine ends_ok.mpr ⟨?_, ?_, ?_, ?_, tokensAdmissible_concat.mpr ⟨hst.tokens, ?_, h3.1⟩⟩
  · rw [accumulatorsOf, accumulatorsOf, List.map_append, List.map_singleton]
  · rw [hcontributorEnd, h1.2.2, contributorTotal_concat]
  · rw [hst.pulls, CompiledLayout.rawPulls_concat, hprelen]
  · rw [hst.results, rawResults_concat, hprelen]
    rfl
  · exact ⟨h1.1, h1.2.1, h1.2.2, h1.2.2 ▸ h2.1, h2.2.1, h2.2.2, h3.2.1, h3.2.2, hrows⟩

/-- The loop succeeds exactly on admissible tokens. -/
theorem planTokens_ends {dispatch : CompiledLayout} {config : CombineV2Config}
    (hjournal : journalSealed dispatch config) :
    Ends ((List.range dispatch.journalTokens.length).foldlM (planToken dispatch config)
        { accumulatorSeen := List.replicate dispatch.journalTokens.length false })
      (PlanInvariant dispatch config dispatch.journalTokens)
      (fun _ => ¬ TokensAdmissible dispatch config dispatch.journalTokens) False := by
  have h := Ends.forRange (fun i => PlanInvariant dispatch config (dispatch.journalTokens.take i))
    dispatch.journalTokens.length (f := planToken dispatch config)
    (s := { accumulatorSeen := List.replicate dispatch.journalTokens.length false })
    ⟨(flagsOf_nil _).symm, rfl, rfl, rfl, fun i token h => by simp at h, List.nodup_nil⟩
    fun i hi st hst => planToken_step hjournal hi hst
  rwa [List.take_length] at h

/-! ## Sorting -/

/-- The comparators of both sorts compare ranks first and rows second. -/
theorem before_iff (rank rank' row row' : UInt32) :
    (if rank ≠ rank' then rank < rank' else row < row') ↔
      Precedes (rank.toNat, row.toNat) (rank'.toNat, row'.toNat) := by
  by_cases h : rank = rank'
  · subst h
    simp [Precedes, UInt32.lt_iff_toNat_lt]
  · have hne : rank.toNat ≠ rank'.toNat := fun heq => h (UInt32.toNat_inj.mp heq)
    simp [Precedes, UInt32.lt_iff_toNat_lt, h, hne]

theorem pullBefore_iff (a b : CombinePullOp) :
    pullBefore a b ↔ Precedes (pullKey a) (pullKey b) := before_iff _ _ _ _

theorem resultBefore_iff (a b : CombineResultOp) :
    resultBefore a b ↔ Precedes (resultKey a) (resultKey b) := before_iff _ _ _ _

theorem sortPulls_perm (pulls : List CombinePullOp) : (sortPulls pulls).Perm pulls :=
  List.perm_insertionSort _ _

theorem sortResults_perm (results : List CombineResultOp) : (sortResults results).Perm results :=
  List.perm_insertionSort _ _

theorem sortPulls_pairwise (pulls : List CombinePullOp) :
    (sortPulls pulls).Pairwise fun a b => ¬ Precedes (pullKey b) (pullKey a) :=
  pairwise_insertionSort_key pullBefore_iff pulls

theorem sortResults_pairwise (results : List CombineResultOp) :
    (sortResults results).Pairwise fun a b => ¬ Precedes (resultKey b) (resultKey a) :=
  pairwise_insertionSort_key resultBefore_iff results

/-- The sorted pulls are dense when the pulls are the rows in any order. -/
theorem map_sortPulls_iff (pulls : List CombinePullOp) (n : ℕ) (f : ℕ → ℕ) :
    (sortPulls pulls).map pullKey = grid n f ↔ (pulls.map pullKey).Perm (grid n f) := by
  rw [sort_eq_grid_iff (sortPulls_pairwise pulls)]
  exact ⟨((sortPulls_perm pulls).map _).symm.trans, ((sortPulls_perm pulls).map _).trans⟩

theorem map_sortResults_iff (results : List CombineResultOp) (n : ℕ) (f : ℕ → ℕ) :
    (sortResults results).map resultKey = grid n f ↔ (results.map resultKey).Perm (grid n f) := by
  rw [sort_eq_grid_iff (sortResults_pairwise results)]
  exact ⟨((sortResults_perm results).map _).symm.trans, ((sortResults_perm results).map _).trans⟩

/-! ## The source loop -/

/-- The offsets of a grid's ranks: those up to `n` have been written. -/
def offsetsOf (size n : ℕ) (f : ℕ → ℕ) : List UInt64 :=
  tableOf size fun i => if i < n then UInt64.ofNat (grid i f).length else 0

theorem getElem?_offsetsOf {n i : ℕ} {f : ℕ → ℕ} (hi : i ≤ n) :
    (offsetsOf (n + 1) (n + 1) f)[i]? = some (UInt64.ofNat (grid i f).length) := by
  rw [offsetsOf, getElem?_tableOf (Nat.lt_succ_of_le hi), if_pos (Nat.lt_succ_of_le hi)]

/-- One more offset is written. -/
theorem set_offsetsOf (size n : ℕ) (f : ℕ → ℕ) :
    (offsetsOf size n f).set n (UInt64.ofNat (grid n f).length) = offsetsOf size (n + 1) f := by
  rw [offsetsOf, set_tableOf]
  refine tableOf_congr fun i _ => ?_
  by_cases hi : i = n
  · subst hi
    rw [Function.update_self, if_pos (Nat.lt_succ_self i)]
  · rw [Function.update_of_ne hi]
    by_cases hlt : i < n
    · rw [if_pos hlt, if_pos (by omega)]
    · rw [if_neg hlt, if_neg (by omega)]

/-- The first `pull` pulls are the pairs `done`. -/
def Walked (pulls : List CombinePullOp) (pull : ℕ) (done : List (ℕ × ℕ)) : Prop :=
  pull = done.length ∧ (pulls.map pullKey).take pull = done

/-- A row of a source is the next pull, or the plan is refused. -/
theorem checkRow_step {pulls : List CombinePullOp} {workers source row pull : ℕ} {f : ℕ → ℕ}
    (hsource : source < workers) (hrow : row < f source) (hworkers : workers ≤ 2 ^ 32)
    (hf : f source ≤ 2 ^ 32)
    (hst : Walked pulls pull (grid source f ++ (List.range row).map fun j => (source, j))) :
    Ends (checkRow pulls source pull row)
      (fun pull' => Walked pulls pull'
        (grid source f ++ (List.range (row + 1)).map fun j => (source, j)))
      (fun _ => pulls.map pullKey ≠ grid workers f) False := by
  have hexpected : pulls.map pullKey = grid workers f → (pulls.map pullKey)[pull]?
      = some (source, row) := by
    intro h
    rw [h, hst.1, List.length_append, List.length_map, List.length_range, getElem?_grid hsource hrow]
  unfold checkRow
  refine Ends.bind (Ends.require (Q := fun _ => pull < pulls.length) id fun hn h => hn ?_)
    fun _ hlt => ?_
  · have := (List.getElem?_eq_some_iff.mp (hexpected h)).1
    rwa [List.length_map] at this
  rw [read_of_lt hlt, ok_bind]
  have hkey : (pulls.map pullKey)[pull]? = some (pullKey pulls[pull]) := by
    rw [List.getElem?_map, List.getElem?_eq_getElem hlt]
    rfl
  have hiff : pullKey pulls[pull] = (source, row) ↔
      pulls[pull].sourceRank = UInt32.ofNat source ∧ pulls[pull].sourceRow = UInt32.ofNat row := by
    rw [pullKey, Prod.mk.injEq, ← UInt32.toNat_inj, ← UInt32.toNat_inj, UInt32.toNat_ofNat',
      UInt32.toNat_ofNat', Nat.mod_eq_of_lt (a := source) (by omega),
      Nat.mod_eq_of_lt (a := row) (by omega)]
  refine Ends.bind (Ends.require (Q := fun _ => pullKey pulls[pull] = (source, row)) hiff.mpr
    fun hn h => hn (hiff.mp ?_)) fun _ heq => ?_
  · rw [hexpected h, Option.some.injEq] at hkey
    exact hkey.symm
  · rw [heq] at hkey
    refine ends_ok.mpr ⟨?_, ?_⟩
    · rw [hst.1]
      simp
      omega
    · rw [(take_succ_of_getElem? hkey).1, hst.2, List.range_succ, List.map_append,
        List.append_assoc]
      rfl

/-- The row counts of the ranks below `n`. -/
def rowCountsOf (workers n : ℕ) (f : ℕ → ℕ) : List UInt32 :=
  tableOf workers fun i => if i < n then UInt32.ofNat (f i) else 0

/-- One more count is written. -/
theorem set_rowCountsOf (workers n : ℕ) (f : ℕ → ℕ) :
    (rowCountsOf workers n f).set n (UInt32.ofNat (f n)) = rowCountsOf workers (n + 1) f := by
  rw [rowCountsOf, set_tableOf]
  refine tableOf_congr fun i _ => ?_
  by_cases hi : i = n
  · subst hi
    rw [Function.update_self, if_pos (Nat.lt_succ_self i)]
  · rw [Function.update_of_ne hi]
    by_cases hlt : i < n
    · rw [if_pos hlt, if_pos (by omega)]
    · rw [if_neg hlt, if_neg (by omega)]

theorem replicate_eq_offsetsOf (size : ℕ) (f : ℕ → ℕ) :
    List.replicate size 0 = offsetsOf size 0 f := by
  rw [replicate_eq_tableOf]
  exact tableOf_congr fun i _ => (if_neg (Nat.not_lt_zero i)).symm

theorem replicate_eq_rowCountsOf (workers : ℕ) (f : ℕ → ℕ) :
    List.replicate workers 0 = rowCountsOf workers 0 f := by
  rw [replicate_eq_tableOf]
  exact tableOf_congr fun i _ => (if_neg (Nat.not_lt_zero i)).symm

/-- What the source loop has written after the sources below `n`. -/
structure SourceInvariant (dispatch : CompiledLayout) (workers : ℕ) (pulls : List CombinePullOp)
    (n : ℕ) (st : SourceState) : Prop where
  walked : Walked pulls st.pull (grid n dispatch.rowCount)
  offsets : st.sourceOffsets = offsetsOf (workers + 1) n dispatch.rowCount
  counts : st.sourceRowCounts = rowCountsOf workers n dispatch.rowCount

/-- One turn of the loop over the sources. -/
theorem indexSource_step {dispatch : CompiledLayout} {pulls : List CombinePullOp}
    {workers source : ℕ} {st : SourceState} (hrows : dispatch.destinationRows.length = workers)
    (hworkers : workers ≤ 2 ^ 32) (hpulls : pulls.length ≤ 0xffffffff) (hsource : source < workers)
    (hst : SourceInvariant dispatch workers pulls source st) :
    Ends (indexSource dispatch pulls st source)
      (SourceInvariant dispatch workers pulls (source + 1))
      (fun _ => pulls.map pullKey ≠ grid workers dispatch.rowCount) False := by
  have hget : dispatch.destinationRows[source]? = some (dispatch.rowsAt source) := by
    rw [CompiledLayout.rowsAt, List.getD_eq_getElem?_getD, List.getElem?_eq_getElem (by omega)]
    rfl
  have hcount : (dispatch.rowsAt source).length = dispatch.rowCount source := rfl
  unfold indexSource
  rw [hst.offsets, write_of_lt (by rw [offsetsOf, length_tableOf]; omega), ok_bind, read_of hget,
    ok_bind, hcount]
  refine Ends.bind (Ends.require (Q := fun _ => dispatch.rowCount source ≤ 0xffffffff) id
    fun hn h => hn ?_) fun _ hfits => ?_
  · have hlen := congrArg List.length h
    rw [List.length_map] at hlen
    have := length_grid_add_le (f := dispatch.rowCount) hsource
    omega
  refine Ends.bind (Ends.forRange (fun row pull => Walked pulls pull
    (grid source dispatch.rowCount ++ (List.range row).map fun j => (source, j)))
    (dispatch.rowCount source) (s := st.pull) (by simpa using hst.walked)
    fun row hrow pull hpull => checkRow_step hsource hrow hworkers (by omega) hpull)
    fun pull hpull => ?_
  rw [hst.counts, write_of_lt (by rw [rowCountsOf, length_tableOf]; exact hsource), ok_bind]
  refine ends_ok.mpr ⟨?_, ?_, set_rowCountsOf _ _ _⟩
  · rw [grid_succ]
    exact hpull
  · rw [hst.walked.1]
    exact set_offsetsOf _ _ _

/-- The source loop goes through exactly when the sorted pulls are the rows of all workers. -/
theorem indexSources_ends {dispatch : CompiledLayout} {pulls : List CombinePullOp} {workers : ℕ}
    (hrows : dispatch.destinationRows.length = workers) (hworkers : workers ≤ 2 ^ 32)
    (hpulls : pulls.length ≤ 0xffffffff) :
    Ends ((List.range workers).foldlM (indexSource dispatch pulls)
        { sourceOffsets := List.replicate (workers + 1) 0
          sourceRowCounts := List.replicate workers 0 })
      (SourceInvariant dispatch workers pulls workers)
      (fun _ => pulls.map pullKey ≠ grid workers dispatch.rowCount) False :=
  Ends.forRange (SourceInvariant dispatch workers pulls) workers
    ⟨⟨rfl, rfl⟩, replicate_eq_offsetsOf _ _, replicate_eq_rowCountsOf _ _⟩
    fun _ hsource _ hst => indexSource_step hrows hworkers hpulls hsource hst

/-! ## The owner loop -/

/-- The owner rows of one owner are counted if they are `0, 1, ..`. -/
theorem countOwner_ends {owner : ℕ} {block rest : List CombineResultOp} {ownerRow : UInt32}
    {result : ℕ} (hblock : ∀ op ∈ block, op.ownerRank = UInt32.ofNat owner)
    (hrest : ∀ op, rest.head? = some op → op.ownerRank ≠ UInt32.ofNat owner) :
    Ends (countOwner owner (block ++ rest) ownerRow result)
      (fun result' => result' = result + block.length ∧ block.map (fun op => op.ownerRow)
        = (List.range block.length).map fun j => ownerRow + UInt32.ofNat j)
      (fun _ => block.map (fun op => op.ownerRow)
        ≠ (List.range block.length).map fun j => ownerRow + UInt32.ofNat j) False := by
  induction block generalizing ownerRow result with
  | nil =>
    cases rest with
    | nil => exact ends_ok.mpr ⟨rfl, rfl⟩
    | cons op rest =>
      rw [List.nil_append, countOwner, if_neg (hrest op rfl)]
      exact ends_ok.mpr ⟨rfl, rfl⟩
  | cons op block ih =>
    have hshift : (List.range (block.length + 1)).map (fun j => ownerRow + UInt32.ofNat j)
        = ownerRow :: (List.range block.length).map fun j => ownerRow + 1 + UInt32.ofNat j := by
      rw [List.range_succ_eq_map, List.map_cons, List.map_map]
      refine congrArg₂ _ (by simp) (List.map_congr_left fun j _ => ?_)
      show ownerRow + UInt32.ofNat (j + 1) = _
      rw [UInt32.ofNat_add, add_comm (UInt32.ofNat j), ← add_assoc]
      rfl
    rw [List.cons_append, countOwner, if_pos (hblock op List.mem_cons_self), List.length_cons,
      hshift, List.map_cons]
    refine Ends.bind (Ends.require (Q := fun _ => op.ownerRow = ownerRow) id
      fun hn h => hn (List.cons.inj h).1) fun _ heq => ?_
    refine (ih
      fun op' h => hblock op' (List.mem_cons_of_mem op h)).mono ?_ ?_ id
    · rintro _ ⟨rfl, hrows⟩
      rw [heq, hrows]
      exact ⟨by omega, rfl⟩
    · intro _ hn h
      exact hn (List.cons.inj h).2

/-- The results of one owner. -/
def ownerBlock (results : List CombineResultOp) (owner : ℕ) : List CombineResultOp :=
  results.filter fun op => (resultKey op).1 = owner

/-- The owner rows of a block are dense. -/
theorem ownerBlock_dense_iff {results : List CombineResultOp} {owner : ℕ}
    (hsize : results.length ≤ 0xffffffff) :
    (ownerBlock results owner).map (fun op => op.ownerRow)
        = (List.range (ownerBlock results owner).length).map (fun j => 0 + UInt32.ofNat j) ↔
      (ownerBlock results owner).map resultKey
        = (List.range (ownerBlock results owner).length).map fun j => (owner, j) := by
  have hle : (ownerBlock results owner).length ≤ results.length := List.length_filter_le _ _
  rw [List.ext_getElem?_iff, List.ext_getElem?_iff]
  refine forall_congr' fun j => ?_
  rw [List.getElem?_map, List.getElem?_map, List.getElem?_map, List.getElem?_map]
  rcases lt_or_ge j (ownerBlock results owner).length with hj | hj
  · have hmem : (ownerBlock results owner)[j] ∈ ownerBlock results owner := List.getElem_mem hj
    have hrank := of_decide_eq_true (List.mem_filter.mp hmem).2
    rw [List.getElem?_eq_getElem hj, List.getElem?_range hj]
    simp only [Option.map_some, Option.some.injEq]
    rw [zero_add, ← UInt32.toNat_inj, UInt32.toNat_ofNat', Nat.mod_eq_of_lt (by omega)]
    constructor
    · intro h
      exact Prod.ext hrank h
    · intro h
      exact congrArg Prod.snd h
  · rw [List.getElem?_eq_none hj, List.getElem?_eq_none (by simpa using hj)]
    exact ⟨fun _ => rfl, fun _ => rfl⟩

/-- What the owner loop has found out after the owners below `n`. -/
structure OwnerInvariant (workers : ℕ) (results : List CombineResultOp) (n : ℕ)
    (st : ℕ × List UInt64) : Prop where
  result : st.1 = (grid n fun owner => (ownerBlock results owner).length).length
  offsets : st.2 = offsetsOf (workers + 1) n fun owner => (ownerBlock results owner).length
  dense : ∀ owner < n, (ownerBlock results owner).map resultKey
    = (List.range (ownerBlock results owner).length).map fun j => (owner, j)

/-- One turn of the loop over the owners. -/
theorem indexOwner_step {results : List CombineResultOp} {workers owner : ℕ} {st : ℕ × List UInt64}
    (hsorted : results.Pairwise fun a b => ¬ Precedes (resultKey b) (resultKey a))
    (hlt : ∀ op ∈ results, (resultKey op).1 < workers) (hsize : results.length ≤ 0xffffffff)
    (hworkers : workers ≤ 2 ^ 32) (howner : owner < workers)
    (hst : OwnerInvariant workers results owner st) :
    Ends (indexOwner results st owner) (OwnerInvariant workers results (owner + 1))
      (fun _ => results.map resultKey
        ≠ grid workers fun owner => (ownerBlock results owner).length) False := by
  have hrank : ∀ i < workers, ∀ op ∈ ownerBlock results i, op.ownerRank = UInt32.ofNat i := by
    intro i hi op hop
    have heq := of_decide_eq_true (List.mem_filter.mp hop).2
    rw [← UInt32.toNat_inj, UInt32.toNat_ofNat', Nat.mod_eq_of_lt (by omega)]
    exact heq
  -- the results behind those of the owners before are those of this owner and the later ones
  obtain ⟨rest, hdrop, hrest⟩ : ∃ rest, results.drop st.1 = ownerBlock results owner ++ rest ∧
      ∀ op, rest.head? = some op → op.ownerRank ≠ UInt32.ofNat owner := by
    have hblocks := flatMap_blocks hsorted hlt
    have hrange : List.range workers = List.range owner ++ owner ::
        List.range' (owner + 1) (workers - (owner + 1)) := by
      have hsplit : workers = owner + (workers - (owner + 1) + 1) := by omega
      rw [List.range_eq_range', List.range_eq_range', ← List.range'_succ]
      conv_lhs => rw [hsplit]
      rw [← List.range'_append_1, zero_add]
    have hlen : ((List.range owner).flatMap (ownerBlock results)).length = st.1 := by
      rw [hst.result, grid, List.length_flatMap, List.length_flatMap]
      simp
    refine ⟨(List.range' (owner + 1) (workers - (owner + 1))).flatMap (ownerBlock results), ?_, ?_⟩
    · have hsplit : results = (List.range owner).flatMap (ownerBlock results)
          ++ (ownerBlock results owner ++ (List.range' (owner + 1) (workers - (owner + 1))).flatMap
            (ownerBlock results)) := by
        rw [← List.flatMap_cons, ← List.flatMap_append, ← hrange]
        exact hblocks.symm
      rw [← hlen]
      exact (congrArg (List.drop _) hsplit).trans List.drop_left
    · intro op hop heq
      obtain ⟨i, hi, hmem⟩ := List.mem_flatMap.mp (List.mem_of_head? hop)
      rw [List.mem_range'_1] at hi
      rw [hrank i (by omega) op hmem, ← UInt32.toNat_inj, UInt32.toNat_ofNat', UInt32.toNat_ofNat',
        Nat.mod_eq_of_lt (by omega), Nat.mod_eq_of_lt (by omega)] at heq
      omega
  unfold indexOwner
  rw [hst.offsets, write_of_lt (by rw [offsetsOf, length_tableOf]; omega), ok_bind, hdrop]
  refine Ends.bind ((countOwner_ends (hrank owner howner) hrest).mono (fun _ => id) ?_ id) ?_
  · intro _ hn h
    rw [map_eq_grid_iff_blocks hsorted hlt] at h
    exact hn ((ownerBlock_dense_iff hsize).mpr (h owner howner))
  · rintro _ ⟨rfl, hdense⟩
    refine ends_ok.mpr ⟨?_, ?_, ?_⟩
    · rw [length_grid_succ, ← hst.result]
    · rw [hst.result]
      exact set_offsetsOf _ _ _
    · intro i hi
      rcases Nat.lt_succ_iff_lt_or_eq.mp hi with h | rfl
      · exact hst.dense i h
      · exact (ownerBlock_dense_iff hsize).mp hdense

/-- The loop over the owners writes the offsets of the results. -/
theorem indexOwners_ends (results : List CombineResultOp) {workers : ℕ}
    (hsorted : results.Pairwise fun a b => ¬ Precedes (resultKey b) (resultKey a))
    (hlt : ∀ op ∈ results, (resultKey op).1 < workers) (hsize : results.length ≤ 0xffffffff)
    (hworkers : workers ≤ 2 ^ 32) :
    Ends ((List.range workers).foldlM (indexOwner results) (0, List.replicate (workers + 1) 0))
      (OwnerInvariant workers results workers)
      (fun _ => results.map resultKey
        ≠ grid workers fun owner => (ownerBlock results owner).length) False :=
  Ends.forRange (OwnerInvariant workers results) workers
    ⟨rfl, replicate_eq_offsetsOf _ _, fun owner h => by omega⟩
    fun _ howner _ hst => indexOwner_step hsorted hlt hsize hworkers howner hst

end AscendShmem.PullV2
