import AscendShmem.PullV2.CombineKernel

/-!
# The order of a reduction

The contributors of a tile are added in the order of the accumulator's chain on the
two-contributor path, and on the generic path unless a scan overtakes: it finds a READY
contributor behind one that was not added yet. The generic path starts from zero and the
two-contributor path from its first row, so their sums agree where the zero in front changes nothing.
-/

namespace AscendShmem.PullV2

open Lib Lib.Exec

variable {α : Type}

/-- The contributors pulled so far. -/
def TileState.taken (st : TileState α) : List ℕ := st.added ++ (st.current.map Prod.fst).toList

namespace TileTask

/-- The elements of a contributor. -/
def tile (T : TileTask α) (i : ℕ) : α :=
  match T.plan.pulls[i]? with
  | none => T.zero
  | some op =>
    match T.rowOffset op with
    | none => T.zero
    | some offset => T.load op.sourceRank offset

theorem tile_eq {T : TileTask α} {i : ℕ} {op : CombinePullOp} {offset : UInt64}
    (hop : T.plan.pulls[i]? = some op) (hoffset : T.rowOffset op = some offset) :
    T.tile i = T.load op.sourceRank offset := by
  unfold tile
  simp only [hop, hoffset]

/-- What an accepted plan promises about the chain of an accumulator. -/
structure Chained (T : TileTask α) (chain : List ℕ) : Prop where
  linked : Linked (nextIn T.plan.pullNext) T.head chain
  length : chain.length = T.expected
  increasing : chain.Pairwise (· < ·)
  pull : ∀ i ∈ chain, ∃ op, T.plan.pulls[i]? = some op ∧ op.sourceRank.toNat < 128
  source_inj : ∀ {i j p q}, i ∈ chain → j ∈ chain → T.plan.pulls[i]? = some p →
    T.plan.pulls[j]? = some q → p.sourceRank = q.sourceRank → i = j

/-- The sum of the generic path in the order of a chain. -/
def chainSum (T : TileTask α) (chain : List ℕ) : α := (chain.map T.tile).foldl T.add T.zero

/-- The zero in front of two rows does not change their sum. In fp32 it does where both are `-0.0`. -/
def ZeroNeutral (T : TileTask α) (chain : List ℕ) : Prop :=
  ∀ i j, chain = [i, j] →
    T.add (T.add T.zero (T.tile i)) (T.tile j) = T.add (T.tile i) (T.tile j)

/-- A scan stands at a READY contributor that it will return, and a contributor before it in the
chain is not seen yet. -/
def Overtakes (T : TileTask α) (chain : List ℕ) (st : TileState α) : Prop :=
  ∃ i op, st.pc = .scan (some i) ∧ T.plan.pulls[i]? = some op ∧
    st.seen.seen op.sourceRank = false ∧ st.ready op.sourceRank = true ∧
    ∃ j ∈ chain, j < i ∧ ∃ op', T.plan.pulls[j]? = some op' ∧ st.seen.seen op'.sourceRank = false

/-! ## The invariant of a tile -/

/-- The marks, the counter and the sum are those of the contributors taken. -/
structure Marks (T : TileTask α) (chain : List ℕ) (st : TileState α) : Prop where
  nodup : st.taken.Nodup
  sub : ∀ i ∈ st.taken, i ∈ chain
  seen_iff : ∀ {i op}, i ∈ chain → T.plan.pulls[i]? = some op →
    (st.seen.seen op.sourceRank = true ↔ i ∈ st.taken)
  processed : st.processed = st.taken.length
  acc : st.acc = (st.added.map T.tile).foldl T.add T.zero
  current : ∀ {i x}, st.current = some (i, x) → x = T.tile i

/-- A scan stands on the chain and looks for a contributor that is missing. -/
def AtPc (T : TileTask α) (chain : List ℕ) (st : TileState α) : Prop :=
  match st.pc with
  | .pass => st.processed < T.expected
  | .scan index => st.processed < T.expected ∧
    ∃ front rest, chain = front ++ rest ∧ Linked (nextIn T.plan.pullNext) index rest
  | .put => st.processed = T.expected
  | .done true => st.added = st.taken ∧ st.added.length = T.expected ∧ st.output = some st.acc
  | .done false => True

/-- The invariant of a tile's run. -/
structure Inv (T : TileTask α) (chain : List ℕ) (st : TileState α) : Prop where
  marks : Marks T chain st
  atPc : AtPc T chain st

section

variable {T : TileTask α} {chain : List ℕ} {st st' : TileState α}

/-- Adding the pulled tile adds what was taken. -/
theorem added_addCurrent (T : TileTask α) (st : TileState α) :
    (T.addCurrent st).added = st.taken := by
  unfold addCurrent TileState.taken
  cases st.current with
  | none => exact (List.append_nil _).symm
  | some c => rfl

/-- After that no tile is pulled. -/
theorem current_addCurrent (T : TileTask α) (st : TileState α) :
    (T.addCurrent st).current = none := by
  unfold addCurrent
  split
  · assumption
  · rfl

theorem taken_addCurrent (T : TileTask α) (st : TileState α) :
    (T.addCurrent st).taken = st.taken := by
  show (T.addCurrent st).added ++ ((T.addCurrent st).current.map Prod.fst).toList = _
  rw [current_addCurrent, added_addCurrent]
  exact List.append_nil _

/-- Adding the contributor in flight touches the sum only. -/
theorem addCurrent_frame (T : TileTask α) (st : TileState α) :
    (T.addCurrent st).seen = st.seen ∧ (T.addCurrent st).processed = st.processed := by
  unfold addCurrent
  split
  · exact ⟨rfl, rfl⟩
  · exact ⟨rfl, rfl⟩

/-- The accumulator is the sum of the tiles taken. -/
theorem Marks.acc_addCurrent (h : Marks T chain st) :
    (T.addCurrent st).acc = (st.taken.map T.tile).foldl T.add T.zero := by
  unfold addCurrent TileState.taken
  cases hcurrent : st.current with
  | none =>
    rw [Option.map_none, Option.toList_none, List.append_nil]
    exact h.acc
  | some c =>
    rw [Option.map_some, Option.toList_some, List.map_append, List.foldl_append, ← h.acc]
    show T.add st.acc c.2 = T.add st.acc (T.tile c.1)
    rw [h.current hcurrent]

/-- Adding keeps the marks. -/
theorem Marks.addCurrent (h : Marks T chain st) : Marks T chain (T.addCurrent st) := by
  have htaken := taken_addCurrent T st
  have hframe := addCurrent_frame T st
  constructor
  · rw [htaken]
    exact h.nodup
  · rw [htaken]
    exact h.sub
  · intro i op hi hop
    rw [htaken, hframe.1]
    exact h.seen_iff hi hop
  · rw [htaken, hframe.2]
    exact h.processed
  · rw [h.acc_addCurrent, added_addCurrent]
  · intro i x hcurrent
    rw [current_addCurrent] at hcurrent
    cases hcurrent

/-- The marks do not depend on the flags, the place or the output. -/
theorem Marks.of_eq (h : Marks T chain st) (hseen : st'.seen = st.seen)
    (hprocessed : st'.processed = st.processed) (hcurrent : st'.current = st.current)
    (hacc : st'.acc = st.acc) (hadded : st'.added = st.added) : Marks T chain st' := by
  have htaken : st'.taken = st.taken := by
    unfold TileState.taken
    rw [hcurrent, hadded]
  constructor
  · rw [htaken]
    exact h.nodup
  · rw [htaken]
    exact h.sub
  · intro i op hi hop
    rw [htaken, hseen]
    exact h.seen_iff hi hop
  · rw [htaken, hprocessed]
    exact h.processed
  · rw [hacc, hadded]
    exact h.acc
  · rw [hcurrent]
    exact h.current

/-- What a scan returns is a contributor of the chain that was not taken. -/
theorem Inv.of_scan (h : Inv T chain st) {i : ℕ} {op : CombinePullOp}
    (hpc : st.pc = .scan (some i)) (hop : T.plan.pulls[i]? = some op)
    (hunseen : st.seen.seen op.sourceRank = false) : i ∈ chain ∧ i ∉ st.taken := by
  have hat := h.atPc
  unfold AtPc at hat
  rw [hpc] at hat
  rcases hat.2 with ⟨front, rest, hchain, hlinked⟩
  have hi : i ∈ chain := by
    cases rest with
    | nil => cases hlinked
    | cons j rest =>
      rw [hchain, Option.some.inj hlinked.1]
      exact List.mem_append_right _ List.mem_cons_self
  apply And.intro hi
  intro htaken
  rw [(h.marks.seen_iff hi hop).mpr htaken] at hunseen
  cases hunseen

/-- What is taken behind `take`. -/
theorem taken_take (st : TileState α) (i : ℕ) {op : CombinePullOp} {offset : UInt64}
    (hoffset : T.rowOffset op = some offset) : (T.take st i op).taken = st.taken ++ [i] := by
  unfold take
  simp only [hoffset]
  show (T.addCurrent st).added ++ [i] = _
  rw [added_addCurrent]

/-- Taking a contributor that was not seen keeps them too. -/
theorem Marks.take (hchained : Chained T chain) (h : Marks T chain st) {i : ℕ} {op : CombinePullOp}
    {offset : UInt64} (hi : i ∈ chain) (hfresh : i ∉ st.taken) (hop : T.plan.pulls[i]? = some op)
    (hoffset : T.rowOffset op = some offset) : Marks T chain (T.take st i op) := by
  have htaken := taken_take st i hoffset
  -- the bit set of the seen sources has a bit for each of them
  have hsource : ∀ {j op'}, j ∈ chain → T.plan.pulls[j]? = some op' → op'.sourceRank.toNat < 128 := by
    intro j op' hj hop'
    rcases hchained.pull j hj with ⟨p, hp, hlt⟩
    rw [hop', Option.some.injEq] at hp
    rw [hp]
    exact hlt
  constructor
  · rw [htaken]
    apply List.Nodup.append h.nodup (List.nodup_singleton i)
    intro j hj hji
    rw [List.mem_singleton.mp hji] at hj
    exact hfresh hj
  · rw [htaken]
    intro j hj
    rcases List.mem_append.mp hj with hj | hj
    · exact h.sub j hj
    · rw [List.mem_singleton.mp hj]
      exact hi
  · intro j op' hj hop'
    rw [htaken, List.mem_append, List.mem_singleton, ← h.seen_iff hj hop']
    have hseen : (T.take st i op).seen = st.seen.mark op.sourceRank := by
      unfold TileTask.take
      simp only [hoffset]
    rw [hseen, SeenSources.seen_mark (hsource hi hop) (hsource hj hop'), or_comm]
    apply or_congr Iff.rfl
    constructor
    · intro heq
      exact hchained.source_inj hj hi hop' hop heq.symm
    · intro heq
      rw [heq, hop, Option.some.injEq] at hop'
      rw [hop']
  · rw [htaken, List.length_append, List.length_singleton, ← h.processed]
    unfold TileTask.take
    simp only [hoffset]
  · have hacc : (T.take st i op).acc = (T.addCurrent st).acc := by
      unfold TileTask.take
      simp only [hoffset]
    have hadded : (T.take st i op).added = st.taken := by
      rw [← added_addCurrent T st]
      unfold TileTask.take
      simp only [hoffset]
    rw [hacc, hadded, h.acc_addCurrent]
  · intro j x hcurrent
    unfold TileTask.take at hcurrent
    simp only [hoffset, Option.some.injEq, Prod.mk.injEq] at hcurrent
    rw [← hcurrent.1, ← hcurrent.2, tile_eq hop hoffset]

/-- The fields of a state that gave up. -/
theorem Inv.giveUp (h : Inv T chain st) : Inv T chain (T.giveUp st) :=
  ⟨h.marks.addCurrent.of_eq rfl rfl rfl rfl rfl, trivial⟩

/-- A step keeps the invariant. -/
theorem Inv.step (hchained : Chained T chain) (h : Inv T chain st) (hstep : T.Step st st') :
    Inv T chain st' := by
  have hat := h.atPc
  unfold AtPc at hat
  cases hstep with
  | arrive source => exact ⟨h.marks.of_eq rfl rfl rfl rfl rfl, h.atPc⟩
  | fail => exact ⟨h.marks.of_eq rfl rfl rfl rfl rfl, h.atPc⟩
  | pass hpc =>
    rw [hpc] at hat
    exact ⟨h.marks.of_eq rfl rfl rfl rfl rfl, hat, [], chain, rfl, hchained.linked⟩
  | expire hpc => exact h.giveUp
  | @skip i op hpc hop hskip =>
    rw [hpc] at hat
    rcases hat with ⟨hlt, front, rest, hchain, hlinked⟩
    -- the pull that is skipped moves to the front of the pass
    cases rest with
    | nil => cases hlinked
    | cons j rest =>
      have hij : i = j := Option.some.inj hlinked.1
      rw [← hij] at hchain hlinked
      have hfront : chain = (front ++ [i]) ++ rest := by
        rw [hchain, List.append_assoc]
        rfl
      exact ⟨h.marks.of_eq rfl rfl rfl rfl rfl, hlt, front ++ [i], rest, hfront, hlinked.2⟩
  | @take i op hpc hop hunseen hready =>
    rw [hpc] at hat
    -- the pull that is taken is on the chain and was not taken before
    have hscan := h.of_scan hpc hop hunseen
    cases hoffset : T.rowOffset op with
    | none =>
      have heq : T.take st i op = { st with failed := true, pc := .done false } := by
        unfold TileTask.take
        simp only [hoffset]
      rw [heq]
      exact ⟨h.marks.of_eq rfl rfl rfl rfl rfl, trivial⟩
    | some offset =>
      apply Inv.mk (h.marks.take hchained hscan.1 hscan.2 hop hoffset)
      have hpc' : (T.take st i op).pc = if st.processed + 1 < T.expected then .pass else .put := by
        unfold TileTask.take
        simp only [hoffset]
      have hprocessed : (T.take st i op).processed = st.processed + 1 := by
        unfold TileTask.take
        simp only [hoffset]
      unfold AtPc
      rw [hpc', hprocessed]
      split_ifs with hmore
      · exact hmore
      · show st.processed + 1 = T.expected
        omega
  | again hpc hok =>
    rw [hpc] at hat
    exact ⟨h.marks.of_eq rfl rfl rfl rfl rfl, hat.1⟩
  | stop hpc hfailed => exact h.giveUp
  | put hpc =>
    rw [hpc] at hat
    unfold putResult
    split
    · have hmarks : Marks T chain { T.addCurrent st with
          output := some (T.addCurrent st).acc, pc := .done true } :=
        h.marks.addCurrent.of_eq rfl rfl rfl rfl rfl
      apply Inv.mk hmarks
      -- the last tile is added before the result is put
      have hadded := added_addCurrent T st
      have htaken := taken_addCurrent T st
      show (T.addCurrent st).added = (T.addCurrent st).taken ∧
        (T.addCurrent st).added.length = T.expected ∧ _
      rw [hadded, htaken, ← h.marks.processed]
      exact ⟨rfl, hat, rfl⟩
    · exact ⟨h.marks.addCurrent.of_eq rfl rfl rfl rfl rfl, trivial⟩

/-- The invariant holds at the start. -/
theorem inv_start (T : TileTask α) (chain : List ℕ) (ready : UInt32 → Bool) :
    Inv T chain (T.start ready) := by
  constructor
  · constructor
    · exact List.nodup_nil
    · intro i hi
      cases hi
    · intro i op hi hop
      show SeenSources.none.seen op.sourceRank = true ↔ i ∈ []
      rw [SeenSources.seen_none]
      simp
    · rfl
    · rfl
    · intro i x hcurrent
      cases hcurrent
  · unfold AtPc start
    dsimp only
    split_ifs with hzero
    · exact Nat.pos_of_ne_zero hzero
    · exact (not_not.mp hzero).symm

/-! ## Steps and order -/

/-- A step takes nothing, or the READY contributor at which a scan stands. -/
theorem Step.taken_cases (hstep : T.Step st st') :
    st'.taken = st.taken ∨ ∃ i op, st.pc = .scan (some i) ∧ T.plan.pulls[i]? = some op ∧
      st.seen.seen op.sourceRank = false ∧ st.ready op.sourceRank = true ∧
      st'.taken = st.taken ++ [i] := by
  cases hstep with
  | arrive source => exact Or.inl rfl
  | fail => exact Or.inl rfl
  | pass hpc => exact Or.inl rfl
  | expire hpc => exact Or.inl (taken_addCurrent T st)
  | skip hpc hop hskip => exact Or.inl rfl
  | @take i op hpc hop hunseen hready =>
    cases hoffset : T.rowOffset op with
    | none =>
      apply Or.inl
      unfold TileTask.take
      simp only [hoffset]
      rfl
    | some offset =>
      exact Or.inr ⟨i, op, hpc, hop, hunseen, hready, taken_take _ _ hoffset⟩
  | again hpc hok => exact Or.inl rfl
  | stop hpc hfailed => exact Or.inl (taken_addCurrent T st)
  | put hpc =>
    apply Or.inl
    rw [← taken_addCurrent T st]
    unfold putResult
    split
    · rfl
    · rfl

/-- In an increasing list, the next element behind a prefix is the least that is missing. -/
theorem prefix_concat_iff {chain taken : List ℕ} (hincreasing : chain.Pairwise (· < ·))
    (horder : taken <+: chain) {i : ℕ} (hi : i ∈ chain) (hfresh : i ∉ taken) :
    taken ++ [i] <+: chain ↔ ∀ j ∈ chain, j < i → j ∈ taken := by
  rcases horder with ⟨rest, rfl⟩
  have hparts := List.pairwise_append.mp hincreasing
  cases rest with
  | nil =>
    rw [List.append_nil] at hi
    exact absurd hi hfresh
  | cons k rest =>
    have hafter := List.pairwise_cons.mp hparts.2.1
    rw [List.prefix_append_right_inj]
    constructor
    · intro hnext j hj hlt
      have hik : i = k := (List.cons_prefix_cons.mp hnext).1
      rcases List.mem_append.mp hj with hj | hj
      · exact hj
      · rcases List.mem_cons.mp hj with hj | hj
        · omega
        · have hkj := hafter.1 j hj
          omega
    · intro hleast
      -- `k` is behind the prefix, so it cannot be less than `i`
      have hik : i = k := by
        rcases List.mem_append.mp hi with hi | hi
        · exact absurd hi hfresh
        · rcases List.mem_cons.mp hi with hi | hi
          · exact hi
          · have hki := hafter.1 i hi
            have hmem := hleast k (List.mem_append_right _ List.mem_cons_self) hki
            exact absurd (hparts.2.2 k hmem k List.mem_cons_self) (lt_irrefl k)
      rw [hik]
      exact List.cons_prefix_cons.mpr ⟨rfl, ⟨_, rfl⟩⟩

/-- A scan that returns `i` keeps the order if it does not overtake. -/
theorem Inv.keeps_iff (hchained : Chained T chain) (h : Inv T chain st) {i : ℕ} {op : CombinePullOp}
    (hpc : st.pc = .scan (some i)) (hop : T.plan.pulls[i]? = some op)
    (hunseen : st.seen.seen op.sourceRank = false) (hready : st.ready op.sourceRank = true)
    (horder : st.taken <+: chain) : st.taken ++ [i] <+: chain ↔ ¬ T.Overtakes chain st := by
  have hscan := h.of_scan hpc hop hunseen
  rw [prefix_concat_iff hchained.increasing horder hscan.1 hscan.2]
  constructor
  · intro hleast hovertakes
    rcases hovertakes with ⟨i', op₁, hpc', _, _, _, j, hj, hlt, op₂, hop₂, hunseen₂⟩
    rw [hpc, TilePc.scan.injEq, Option.some.injEq] at hpc'
    rw [← hpc'] at hlt
    rw [(h.marks.seen_iff hj hop₂).mpr (hleast j hj hlt)] at hunseen₂
    cases hunseen₂
  · intro hkeeps j hj hlt
    rcases hchained.pull j hj with ⟨op₂, hop₂, _⟩
    by_contra htaken
    have hunseen₂ : st.seen.seen op₂.sourceRank = false := by
      rw [← Bool.not_eq_true, h.marks.seen_iff hj hop₂]
      exact htaken
    exact hkeeps ⟨i, op, hpc, hop, hunseen, hready, j, hj, hlt, op₂, hop₂, hunseen₂⟩

/-- A step keeps the order of the chain, unless it overtakes. -/
theorem Step.keeps_order (hchained : Chained T chain) (h : Inv T chain st) (hstep : T.Step st st')
    (horder : st.taken <+: chain) (hkeeps : ¬ T.Overtakes chain st) : st'.taken <+: chain := by
  rcases hstep.taken_cases with htaken | ⟨i, op, hpc, hop, hunseen, hready, htaken⟩
  · rw [htaken]
    exact horder
  · rw [htaken]
    exact (h.keeps_iff hchained hpc hop hunseen hready horder).mpr hkeeps

/-- The order is lost, about to be lost or the tile has failed. -/
def Lost (T : TileTask α) (chain : List ℕ) (st : TileState α) : Prop :=
  T.Overtakes chain st ∨ ¬ st.taken <+: chain ∨ st.pc = .done false

/-- An order that is lost stays lost. -/
theorem Step.keeps_lost (hchained : Chained T chain) (h : Inv T chain st) (hstep : T.Step st st')
    (hlost : T.Lost chain st) : T.Lost chain st' := by
  rcases hlost with hovertakes | hbroken | hfailed
  · by_cases horder : st.taken <+: chain
    · rcases id hovertakes with ⟨i, op, hpc, hop, hunseen, hready, hbehind⟩
      -- the scan stays where it is until it returns the contributor
      cases hstep with
      | arrive source =>
        apply Or.inl
        have hready' : Function.update st.ready source true op.sourceRank = true := by
          by_cases heq : op.sourceRank = source
          · rw [heq, Function.update_self]
          · rw [Function.update_of_ne heq, hready]
        exact ⟨i, op, hpc, hop, hunseen, hready', hbehind⟩
      | fail => exact Or.inl ⟨i, op, hpc, hop, hunseen, hready, hbehind⟩
      | pass hpc' => rw [hpc] at hpc'; cases hpc'
      | expire hpc' => rw [hpc] at hpc'; cases hpc'
      | @skip i' op' hpc' hop' hskip =>
        rw [hpc, TilePc.scan.injEq, Option.some.injEq] at hpc'
        rw [← hpc', hop, Option.some.injEq] at hop'
        rw [← hop', hunseen, hready] at hskip
        rcases hskip with hskip | hskip
        · cases hskip
        · cases hskip
      | @take i' op' hpc' hop' hunseen' hready' =>
        cases hoffset : T.rowOffset op' with
        | none =>
          apply Or.inr ∘ Or.inr
          unfold TileTask.take
          simp only [hoffset]
        | some offset =>
          apply Or.inr ∘ Or.inl
          rw [taken_take _ _ hoffset, h.keeps_iff hchained hpc' hop' hunseen' hready' horder]
          exact not_not.mpr hovertakes
      | again hpc' hok => rw [hpc] at hpc'; cases hpc'
      | stop hpc' hfailed => rw [hpc] at hpc'; cases hpc'
      | put hpc' => rw [hpc] at hpc'; cases hpc'
    · apply Or.inr ∘ Or.inl
      intro horder'
      rcases hstep.taken_cases with htaken | ⟨i, op, _, _, _, _, htaken⟩
      · rw [htaken] at horder'
        exact horder horder'
      · rw [htaken] at horder'
        exact horder ((List.prefix_append _ _).trans horder')
  · apply Or.inr ∘ Or.inl
    intro horder'
    rcases hstep.taken_cases with htaken | ⟨i, op, _, _, _, _, htaken⟩
    · rw [htaken] at horder'
      exact hbroken horder'
    · rw [htaken] at horder'
      exact hbroken ((List.prefix_append _ _).trans horder')
  · apply Or.inr ∘ Or.inr
    cases hstep with
    | arrive source => exact hfailed
    | fail => exact hfailed
    | pass hpc => rw [hfailed] at hpc; cases hpc
    | expire hpc => rw [hfailed] at hpc; cases hpc
    | skip hpc => rw [hfailed] at hpc; cases hpc
    | take hpc => rw [hfailed] at hpc; cases hpc
    | again hpc => rw [hfailed] at hpc; cases hpc
    | stop hpc => rw [hfailed] at hpc; cases hpc
    | put hpc => rw [hfailed] at hpc; cases hpc

/-! ## Runs -/

theorem Run.inv {ts : List (TileState α)} (hchained : Chained T chain) (hrun : T.Run st ts st')
    (h : Inv T chain st) : Inv T chain st' := by
  induction hrun with
  | nil st => exact h
  | cons hstep rest ih => exact ih (h.step hchained hstep)

/-- A run without overtaking keeps the order. -/
theorem Run.keeps_order {ts : List (TileState α)} (hchained : Chained T chain)
    (hrun : T.Run st ts st') (h : Inv T chain st) (horder : st.taken <+: chain)
    (hkeeps : ∀ s ∈ ts, ¬ T.Overtakes chain s) : st'.taken <+: chain := by
  induction hrun with
  | nil st => exact horder
  | cons hstep rest ih =>
    have hfirst := List.forall_mem_cons.mp hkeeps
    exact ih (h.step hchained hstep) (hstep.keeps_order hchained h horder hfirst.1) hfirst.2

/-- A run that overtakes loses the order. -/
theorem Run.lost {ts : List (TileState α)} (hchained : Chained T chain) (hrun : T.Run st ts st')
    (h : Inv T chain st) (hlost : T.Lost chain st ∨ ∃ s ∈ ts, T.Overtakes chain s) :
    T.Lost chain st' := by
  induction hrun with
  | nil st =>
    rcases hlost with hlost | ⟨s, hs, _⟩
    · exact hlost
    · cases hs
  | cons hstep rest ih =>
    apply ih (h.step hchained hstep)
    rcases hlost with hlost | ⟨s, hs, hovertakes⟩
    · exact Or.inl (hstep.keeps_lost hchained h hlost)
    · rcases List.mem_cons.mp hs with rfl | hs
      · exact Or.inl (hstep.keeps_lost hchained h (Or.inl hovertakes))
      · exact Or.inr ⟨s, hs, hovertakes⟩

/-- A tile that was reduced has added every contributor; it has done so in the order of the chain
exactly if no scan has overtaken. -/
theorem Run.added_eq_iff {ready : UInt32 → Bool} {ts : List (TileState α)}
    (hchained : Chained T chain) (hrun : T.Run (T.start ready) ts st) (hdone : st.pc = .done true) :
    st.added = chain ↔ ∀ s ∈ ts, ¬ T.Overtakes chain s := by
  have hinv := hrun.inv hchained (inv_start T chain ready)
  have hat := hinv.atPc
  unfold AtPc at hat
  rw [hdone] at hat
  have hiff : st.added = chain ↔ st.taken <+: chain := by
    rw [hat.1]
    constructor
    · intro heq
      rw [heq]
    · intro horder
      apply horder.eq_of_length
      rw [← hat.1, hat.2.1, hchained.length]
  rw [hiff]
  constructor
  · intro horder s hs hovertakes
    rcases hrun.lost hchained (inv_start T chain ready) (Or.inr ⟨s, hs, hovertakes⟩) with
      hlost | hbroken | hfailed
    · rcases hlost with ⟨i, op, hpc, _⟩
      rw [hdone] at hpc
      cases hpc
    · exact hbroken horder
    · rw [hdone] at hfailed
      cases hfailed
  · intro hkeeps
    exact hrun.keeps_order hchained (inv_start T chain ready) ⟨_, rfl⟩ hkeeps

/-! ## Two contributors -/

/-- The two contributors are awaited, pulled and added in the order of the chain. -/
def PairAt (T : TileTask α) (st : PairState α) : Prop :=
  match st.pc with
  | .waitFirst => st.added = []
  | .waitSecond => st.added = [] ∧ ∃ i, T.head = some i ∧ st.input0 = some (i, T.tile i)
  | .add => st.added = [] ∧ ∃ i j, T.head = some i ∧ nextIn T.plan.pullNext i = some j ∧
    st.input0 = some (i, T.tile i) ∧ st.input1 = some (j, T.tile j)
  | .done true => ∃ i j, T.head = some i ∧ nextIn T.plan.pullNext i = some j ∧
    st.added = [i, j] ∧ st.output = some (T.add (T.tile i) (T.tile j))
  | .done false => st.added = [] ∨ ∃ i j, T.head = some i ∧ nextIn T.plan.pullNext i = some j ∧
    st.added = [i, j]

/-- A step of the two-contributor path keeps its invariant. -/
theorem PairStep.pairAt {st st' : PairState α} (hstep : T.PairStep st st') (h : T.PairAt st) :
    T.PairAt st' := by
  have hat := h
  unfold PairAt at hat
  cases hstep with
  | arrive source => exact h
  | fail => exact h
  | giveUp hpc =>
    apply Or.inl
    rcases hpc with hpc | hpc
    · rw [hpc] at hat
      exact hat
    · rw [hpc] at hat
      exact hat.1
  | @first i op offset hpc hi hop hready hoffset =>
    rw [hpc] at hat
    rw [← tile_eq hop hoffset]
    exact ⟨hat, i, hi, rfl⟩
  | @second i j op offset hpc hi hj hop hready hoffset =>
    rw [hpc] at hat
    rcases hat with ⟨hadded, i', hi', hinput⟩
    rw [hi, Option.some.injEq] at hi'
    rw [← hi'] at hinput
    rw [← tile_eq hop hoffset]
    exact ⟨hadded, i, j, hi, hj, hinput, rfl⟩
  | @add x y hpc hx hy =>
    rw [hpc] at hat
    rcases hat with ⟨hadded, i, j, hi, hj, hinput0, hinput1⟩
    rw [hx, Option.some.injEq] at hinput0
    rw [hy, Option.some.injEq] at hinput1
    rw [hinput0, hinput1]
    unfold addPair
    split
    · exact ⟨i, j, hi, hj, rfl, rfl⟩
    · exact Or.inr ⟨i, j, hi, hj, rfl⟩

theorem PairRun.pairAt {ready : UInt32 → Bool} {st : PairState α}
    (hrun : T.PairRun (.start ready) st) : T.PairAt st := by
  have hgeneral : ∀ {st st' : PairState α}, T.PairRun st st' → T.PairAt st → T.PairAt st' := by
    intro st st' hrun
    induction hrun with
    | refl => exact id
    | tail run hstep ih => exact fun h => hstep.pairAt (ih h)
  exact hgeneral hrun rfl

/-- The links from the head of a chain of two. -/
theorem Chained.pair (hchained : Chained T chain) (hexpected : T.expected = 2) {i j : ℕ}
    (hi : T.head = some i) (hj : nextIn T.plan.pullNext i = some j) : chain = [i, j] := by
  have hlength := hchained.length
  have hlinked := hchained.linked
  rw [hexpected] at hlength
  rcases List.length_eq_two.mp hlength with ⟨a, b, hchain⟩
  rw [hchain] at hlinked ⊢
  rw [hi] at hlinked
  rcases hlinked with ⟨hia, hnext, _⟩
  rw [← Option.some.inj hia, hj] at hnext
  rw [← Option.some.inj hia, ← Option.some.inj hnext]

/-- On the two-contributor path the order is that of the chain in every state. -/
theorem PairRun.order (hchained : Chained T chain) (hexpected : T.expected = 2)
    {ready : UInt32 → Bool} {st : PairState α} (hrun : T.PairRun (.start ready) st) :
    st.added <+: chain ∧ (st.pc = .done true → st.added = chain ∧
      (st.output = some (T.chainSum chain) ↔ T.ZeroNeutral chain)) := by
  have hat := hrun.pairAt
  unfold PairAt at hat
  -- a chain of two expected pulls is those two
  have hdone : (∃ i j, T.head = some i ∧ nextIn T.plan.pullNext i = some j ∧ st.added = [i, j]) →
      st.added = chain := by
    intro h
    rcases h with ⟨i, j, hi, hj, hadded⟩
    rw [hadded, hchained.pair hexpected hi hj]
  split at hat
  · rename_i hpc
    rw [hat, hpc]
    exact ⟨⟨_, rfl⟩, fun h => by cases h⟩
  · rename_i hpc
    rw [hat.1, hpc]
    exact ⟨⟨_, rfl⟩, fun h => by cases h⟩
  · rename_i hpc
    rw [hat.1, hpc]
    exact ⟨⟨_, rfl⟩, fun h => by cases h⟩
  · rcases hat with ⟨i, j, hi, hj, hadded, houtput⟩
    have hchain := hdone ⟨i, j, hi, hj, hadded⟩
    rw [hchain]
    have hpair : chain = [i, j] := hchain.symm.trans hadded
    -- this path starts from the first tile, not from zero
    have hsum : T.chainSum chain = T.add (T.add T.zero (T.tile i)) (T.tile j) := by
      rw [hpair]
      rfl
    apply And.intro (List.prefix_refl chain)
    intro hpc
    apply And.intro rfl
    rw [houtput, hsum, Option.some.injEq]
    constructor
    · intro heq i' j' hpair'
      rw [hpair, List.cons.injEq, List.cons.injEq] at hpair'
      rw [← hpair'.1, ← hpair'.2.1, heq]
    · intro hneutral
      exact (hneutral i j hpair).symm
  · rename_i hpc
    rw [hpc]
    rcases hat with hadded | hadded
    · rw [hadded]
      exact ⟨⟨_, rfl⟩, fun h => by cases h⟩
    · rw [hdone hadded]
      exact ⟨List.prefix_refl chain, fun h => by cases h⟩

end

/-! ## The chains of a plan -/

/-- The chain of an accumulator of an accepted plan. -/
theorem chained_of_compile {dispatch : CompiledLayout} {config : CombineV2Config}
    {old plan : CombinePullPlan}
    (hplan : compileCombinePullPlan dispatch config (some old) = (.ok (), some plan))
    {T : TileTask α} (hT : T.plan = plan) (ha : T.accumulator < plan.accumulatorCount.toNat)
    {chain : List ℕ} (hchain : Linked (nextIn plan.pullNext) (nextIn plan.accumulatorHeads T.accumulator)
      chain) : Chained T chain := by
  rcases compileCombinePullPlan_eq_ok hplan with ⟨hadmissible, hplanOf⟩
  rw [hplanOf] at ha hchain hT
  rw [hadmissible.accumulatorCount] at ha
  rcases hadmissible.served ha with ⟨t, token, hserved⟩
  -- the chain is the one that the plan serves, and its sources increase strictly
  have hunique := hchain.unique hserved.linked
  rw [← hunique] at hserved
  have hpull : ∀ i ∈ chain, ∃ op, (planOf dispatch config).pulls[i]? = some op := by
    intro i hi
    have hmem := hserved.contributors.mem_iff.mp (List.mem_map_of_mem hi)
    rcases List.mem_map.mp hmem with ⟨c, _, hc⟩
    exact ⟨_, hc.symm⟩
  constructor
  · show Linked (nextIn T.plan.pullNext) (nextIn T.plan.accumulatorHeads T.accumulator) chain
    rw [hT]
    exact hchain
  · rw [hserved.length]
    unfold expected
    rw [hT, hserved.count]
  · exact hserved.increasing
  · intro i hi
    rcases hpull i hi with ⟨op, hop⟩
    rw [hT]
    apply Exists.intro op
    apply And.intro hop
    have hrow : pullKey op ∈ grid config.workerCount.toNat dispatch.rowCount := by
      rw [← hadmissible.rows_eq]
      exact List.mem_map_of_mem (List.mem_of_getElem? hop)
    exact Nat.lt_of_lt_of_le (mem_grid.mp hrow).1 hadmissible.workers_le
  · intro i j p q hi hj hp hq hsource
    rw [hT] at hp hq
    by_contra hne
    have hless := hserved.sources
    rw [List.pairwise_iff_getElem] at hless
    rcases List.getElem_of_mem hi with ⟨a, ha', rfl⟩
    rcases List.getElem_of_mem hj with ⟨b, hb', rfl⟩
    rcases Nat.lt_trichotomy a b with hab | hab | hab
    · have hlt := hless a b ha' hb' hab p q hp hq
      rw [hsource] at hlt
      exact UInt32.lt_irrefl _ hlt
    · subst hab
      exact hne rfl
    · have hlt := hless b a hb' ha' hab q p hq hp
      rw [hsource] at hlt
      exact UInt32.lt_irrefl _ hlt

/-- The contributors of a tile are added in the order of its accumulator's chain: on the generic
path exactly when no scan overtakes, on the two-contributor path always. The output is then the sum
of the chain, on the two-contributor path exactly when the zero in front of it changes nothing. -/
theorem reduction_order_iff {dispatch : CompiledLayout} {config : CombineV2Config}
    {old plan : CombinePullPlan}
    (hplan : compileCombinePullPlan dispatch config (some old) = (.ok (), some plan))
    (T : TileTask α) (hT : T.plan = plan) (ha : T.accumulator < plan.accumulatorCount.toNat)
    {chain : List ℕ} (hchain : Linked (nextIn plan.pullNext) (nextIn plan.accumulatorHeads T.accumulator)
      chain) :
    (∀ ready ts st, T.Run (T.start ready) ts st →
      ((∀ s ∈ ts, ¬ T.Overtakes chain s) → st.added <+: chain) ∧
      (st.pc = .done true →
        st.output = some (T.chainSum st.added) ∧
        (st.added = chain ↔ ∀ s ∈ ts, ¬ T.Overtakes chain s))) ∧
    (T.expected = 2 → ∀ ready st, T.PairRun (.start ready) st →
      st.added <+: chain ∧ (st.pc = .done true → st.added = chain ∧
        (st.output = some (T.chainSum chain) ↔ T.ZeroNeutral chain))) := by
  have hchained := chained_of_compile hplan hT ha hchain
  constructor
  · intro ready ts st hrun
    have hinv := hrun.inv hchained (inv_start T chain ready)
    constructor
    · intro hkeeps
      have htaken := hrun.keeps_order hchained (inv_start T chain ready) ⟨_, rfl⟩ hkeeps
      exact (List.prefix_append _ _).trans htaken
    · intro hdone
      have hat := hinv.atPc
      unfold AtPc at hat
      rw [hdone] at hat
      apply And.intro _ (hrun.added_eq_iff hchained hdone)
      rw [hat.2.2, hinv.marks.acc, chainSum]
  · intro hexpected ready st hrun
    exact hrun.order hchained hexpected

/-! ## A READY that overtakes -/

/-- One token whose rows lie on three workers. -/
def sampleDispatch : CompiledLayout where
  journalHeader :=
    { generation := 1, sequence := 1, dispatchCookie := 1, state := 2, tokenCount := 1,
      contributorCount := 3 }
  journalTokens := [{ contributorsCount := 3 }]
  contributors := [⟨0, 0, 0, 1⟩, ⟨1, 0, 0, 1⟩, ⟨2, 0, 0, 1⟩]
  destinationRows :=
    [[{ assignmentsCount := 1 }], [{ assignmentsCount := 1 }], [{ assignmentsCount := 1 }]]
  expertAssignments := [[{}], [{}], [{}]]

/-- A session of three workers. -/
def sampleConfig : CombineV2Config :=
  { sessionId := 1, placementEpoch := 1, workerCount := 3, hidden := 1, ringSlots := 1 }

/-- The plan of a token with three contributors. -/
def samplePlan : CombinePullPlan := (buildPlan sampleDispatch sampleConfig).toOption.getD {}

theorem compile_samplePlan :
    compileCombinePullPlan sampleDispatch sampleConfig (some {}) = (.ok (), some samplePlan) := by
  have hok : (buildPlan sampleDispatch sampleConfig).isOk := by decide +kernel
  unfold compileCombinePullPlan samplePlan
  cases hbuild : buildPlan sampleDispatch sampleConfig with
  | ok plan => rfl
  | error stop =>
    rw [hbuild] at hok
    cases hok

/-- A number with a signed zero. -/
structure SignedNumber where
  negative : Bool
  magnitude : ℕ
deriving DecidableEq

namespace SignedNumber

/-- The number as an integer. -/
def toInt (x : SignedNumber) : ℤ := if x.negative then -x.magnitude else x.magnitude

/-- A sum that is zero is negative if both numbers are. -/
def add (x y : SignedNumber) : SignedNumber where
  negative :=
    if x.toInt + y.toInt = 0 then x.negative && y.negative else decide (x.toInt + y.toInt < 0)
  magnitude := (x.toInt + y.toInt).natAbs

end SignedNumber

/-- The tile of token 0, where a row is given by its source. -/
def sampleTask (plan : CombinePullPlan) (row : ℕ → SignedNumber) : TileTask SignedNumber where
  plan := plan
  accumulator := 0
  rowBytes := 4
  load source _ := row source.toNat
  zero := ⟨false, 0⟩
  add := SignedNumber.add

/-- A row is the number of its source. -/
def numberTask : TileTask SignedNumber := sampleTask samplePlan fun source => ⟨false, source⟩

theorem linked_samplePlan :
    Linked (nextIn samplePlan.pullNext) (nextIn samplePlan.accumulatorHeads 0) [0, 1, 2] :=
  ⟨by decide +kernel, by decide +kernel, by decide +kernel,
    (by decide +kernel : nextIn samplePlan.pullNext 2 = none)⟩

/-- One token whose rows lie on two workers. -/
def pairDispatch : CompiledLayout where
  journalHeader :=
    { generation := 1, sequence := 1, dispatchCookie := 1, state := 2, tokenCount := 1,
      contributorCount := 2 }
  journalTokens := [{ contributorsCount := 2 }]
  contributors := [⟨0, 0, 0, 1⟩, ⟨1, 0, 0, 1⟩]
  destinationRows := [[{ assignmentsCount := 1 }], [{ assignmentsCount := 1 }]]
  expertAssignments := [[{}], [{}]]

/-- A session of two workers. -/
def pairConfig : CombineV2Config := { sampleConfig with workerCount := 2 }

/-- The plan of a token with two contributors. -/
def pairPlan : CombinePullPlan := (buildPlan pairDispatch pairConfig).toOption.getD {}

theorem compile_pairPlan :
    compileCombinePullPlan pairDispatch pairConfig (some {}) = (.ok (), some pairPlan) := by
  have hok : (buildPlan pairDispatch pairConfig).isOk := by decide +kernel
  unfold compileCombinePullPlan pairPlan
  cases hbuild : buildPlan pairDispatch pairConfig with
  | ok plan => rfl
  | error stop =>
    rw [hbuild] at hok
    cases hok

/-- Both rows are `-0.0`. -/
def negativeZeros : TileTask SignedNumber := sampleTask pairPlan fun _ => ⟨true, 0⟩

/-- Three contributors of numbers, and two of negative zeros. -/
theorem reduction_order_iff_sample :
    (∀ ready ts st, numberTask.Run (numberTask.start ready) ts st → st.pc = .done true →
      (st.added = [0, 1, 2] ↔ ∀ s ∈ ts, ¬ numberTask.Overtakes [0, 1, 2] s)) ∧
    ∀ ready st, negativeZeros.PairRun (.start ready) st → st.pc = .done true →
      st.added = [0, 1] ∧ st.output ≠ some (negativeZeros.chainSum [0, 1]) := by
  constructor
  · intro ready ts st hrun hdone
    have h := reduction_order_iff compile_samplePlan numberTask rfl (by decide +kernel)
      linked_samplePlan
    exact ((h.1 ready ts st hrun).2 hdone).2
  · intro ready st hrun hdone
    have hlinked :
        Linked (nextIn pairPlan.pullNext) (nextIn pairPlan.accumulatorHeads 0) [0, 1] :=
      ⟨by decide +kernel, by decide +kernel,
        (by decide +kernel : nextIn pairPlan.pullNext 1 = none)⟩
    have h := reduction_order_iff compile_pairPlan negativeZeros rfl (by decide +kernel) hlinked
    obtain ⟨hadded, houtput⟩ := ((h.2 (by decide +kernel) ready st hrun).2 hdone)
    refine ⟨hadded, fun hsum => ?_⟩
    -- the generic path gives `+0.0`
    exact absurd (houtput.mp hsum 0 1 rfl) (by decide +kernel)

/-- The READY of source 1 comes first, and its row is added first. -/
theorem ready_overtakes :
    compileCombinePullPlan sampleDispatch sampleConfig (some {}) = (.ok (), some samplePlan) ∧
    Linked (nextIn samplePlan.pullNext) (nextIn samplePlan.accumulatorHeads 0) [0, 1, 2] ∧
    ∃ ts st, numberTask.Run (numberTask.start fun source => source = 1) ts st ∧
      st.pc = .done true ∧ st.added = [1, 0, 2] := by
  apply And.intro compile_samplePlan (And.intro linked_samplePlan _)
  refine ⟨_, _, .cons (.pass (by decide +kernel)) <|
    .cons (@Step.skip SignedNumber numberTask _ 0 ⟨0, 0, 0, 0⟩ (by decide +kernel) (by decide +kernel)
      (by decide +kernel)) <|
    .cons (@Step.take SignedNumber numberTask _ 1 ⟨1, 0, 0, 0⟩ (by decide +kernel) (by decide +kernel)
      (by decide +kernel) (by decide +kernel)) <|
    .cons (.arrive _ 0) <|
    .cons (.arrive _ 2) <|
    .cons (.pass (by decide +kernel)) <|
    .cons (@Step.take SignedNumber numberTask _ 0 ⟨0, 0, 0, 0⟩ (by decide +kernel) (by decide +kernel)
      (by decide +kernel) (by decide +kernel)) <|
    .cons (.pass (by decide +kernel)) <|
    .cons (@Step.skip SignedNumber numberTask _ 0 ⟨0, 0, 0, 0⟩ (by decide +kernel) (by decide +kernel)
      (by decide +kernel)) <|
    .cons (@Step.skip SignedNumber numberTask _ 1 ⟨1, 0, 0, 0⟩ (by decide +kernel) (by decide +kernel)
      (by decide +kernel)) <|
    .cons (@Step.take SignedNumber numberTask _ 2 ⟨2, 0, 0, 0⟩ (by decide +kernel) (by decide +kernel)
      (by decide +kernel) (by decide +kernel)) <|
    .cons (.put (by decide +kernel)) <| .nil _, by decide +kernel, by decide +kernel⟩

end TileTask

end AscendShmem.PullV2
