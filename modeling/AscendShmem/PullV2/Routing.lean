import Mathlib
import AscendShmem.Lib.Alloc
import AscendShmem.PullV2.SlotTheorems

/-!
# What a layout is for

A wave is a list of routed tokens. Every destination gives each token that has assignments
there one row and a range of its expert storage, first come first served; `rowsOf`,
`expertsOf` and `contributorsOf` are what that allocation writes for a list of tokens in the
order they come. How much a destination has given out (`taken`) depends on the tokens only
and not on their order.
-/

namespace AscendShmem.PullV2

open Lib

/-- One token of a wave, under its owner rank and row. -/
structure RoutedToken where
  rank : UInt32
  row : UInt32
  tokenId : UInt64
  assignments : List AssignmentRecord
deriving DecidableEq, Repr

/-- The assignments of a token at destination `d`, in their order. -/
def RoutedToken.group (v : RoutedToken) (d : ℕ) : List AssignmentRecord :=
  v.assignments.filter fun a => a.destinationRank.toNat = d

/-- What a token takes at destination `d`: rows and assignments. -/
def need (d : ℕ) (v : RoutedToken) : ℕ × ℕ :=
  if v.group d = [] then 0 else (1, (v.group d).length)

/-- What the tokens `vs` have taken at destination `d`. -/
def taken (d : ℕ) (vs : List RoutedToken) : ℕ × ℕ := total (need d) vs

/-- The row of a token at destination `d`, behind `b` rows and assignments. -/
def rowAt (d : ℕ) (b : ℕ × ℕ) (v : RoutedToken) : List DestinationRow :=
  if v.group d = [] then []
  else [{ routeKey := routeKey v.rank v.row, tokenId := v.tokenId, sourceRank := v.rank,
          sourceToken := v.row, destinationRow := UInt32.ofNat b.1,
          assignmentsBegin := UInt32.ofNat b.2,
          assignmentsCount := UInt32.ofNat (v.group d).length }]

/-- The contributor a token gets for its row at destination `d`. -/
def contributorAt (d : ℕ) (b : ℕ × ℕ) (v : RoutedToken) : List JournalContributor :=
  if v.group d = [] then []
  else [⟨UInt32.ofNat d, UInt32.ofNat b.1, UInt32.ofNat b.2, UInt32.ofNat (v.group d).length⟩]

/-- The cell of `expert_counts` an assignment at destination `d` counts in. -/
def cell (expertCount d : ℕ) (a : AssignmentRecord) : ℕ := d * expertCount + a.expertId.toNat

/-- One assignment in its cell. -/
def cellCount (expertCount d : ℕ) (a : AssignmentRecord) : ℕ → ℕ :=
  fun c => if cell expertCount d a = c then 1 else 0

/-- The assignments of a token at the destinations below `n`, counted by cell. -/
def cellsBelow (expertCount n : ℕ) (v : RoutedToken) : ℕ → ℕ :=
  total (fun d => total (cellCount expertCount d) (v.group d)) (List.range n)

/-- The expert storage entry of an assignment. -/
def expertEntry (row : ℕ) (expertRow : ℕ) (a : AssignmentRecord) : ExpertAssignment :=
  { destinationRow := UInt32.ofNat row, expertId := a.expertId,
    expertRow := UInt32.ofNat expertRow, ordinal := a.ordinal, weight := a.weight }

/-- The expert entries of a token at destination `d`, behind `b.1` rows and assignments and
the cell counts `b.2`. -/
def expertsAt (expertCount d : ℕ) (b : (ℕ × ℕ) × (ℕ → ℕ)) (v : RoutedToken) :
    List ExpertAssignment :=
  (alloc (cellCount expertCount d) (b.2 + cellsBelow expertCount d v) (v.group d)).map
    fun p => expertEntry b.1.1 (p.1 (cell expertCount d p.2)) p.2

/-- The rows of destination `d`. -/
def rowsOf (d : ℕ) (vs : List RoutedToken) : List DestinationRow := emit (rowAt d) (need d) 0 vs

/-- The expert storage of destination `d` in a wave of `workers` workers. -/
def expertsOf (expertCount workers d : ℕ) (vs : List RoutedToken) : List ExpertAssignment :=
  emit (expertsAt expertCount d) (fun v => (need d v, cellsBelow expertCount workers v)) 0 vs

/-- The contributors of a token that comes after the tokens `pre`. -/
def contributorsFor (workers : ℕ) (pre : List RoutedToken) (v : RoutedToken) :
    List JournalContributor :=
  (List.range workers).flatMap fun d => contributorAt d (taken d pre) v

/-- The contributors of the token at `rank` and `row`. -/
def contributorsOf (workers : ℕ) (vs : List RoutedToken) (rank row : ℕ) :
    List JournalContributor :=
  emit (fun (b : ℕ → ℕ × ℕ) v => if v.rank.toNat = rank ∧ v.row.toNat = row then
      (List.range workers).flatMap fun d => contributorAt d (b d) v else [])
    (fun v d => need d v) 0 vs

/-! ## How much is taken -/

theorem taken_cons (d : ℕ) (v : RoutedToken) (vs : List RoutedToken) :
    taken d (v :: vs) = need d v + taken d vs := total_cons _ _ _

@[simp] theorem taken_nil (d : ℕ) : taken d [] = 0 := rfl

theorem taken_append (d : ℕ) (vs ws : List RoutedToken) :
    taken d (vs ++ ws) = taken d vs + taken d ws := total_append _ _ _

theorem taken_concat (d : ℕ) (vs : List RoutedToken) (v : RoutedToken) :
    taken d (vs ++ [v]) = taken d vs + need d v := by
  rw [taken_append, taken, taken, total_singleton]

theorem taken_perm {vs ws : List RoutedToken} (h : vs.Perm ws) (d : ℕ) :
    taken d vs = taken d ws := total_perm _ h

/-- What all destinations have given out, at once. -/
theorem total_need (vs : List RoutedToken) (d : ℕ) :
    total (fun v d => need d v) vs d = taken d vs := by
  induction vs with
  | nil => rfl
  | cons v vs ih =>
    rw [total_cons, Pi.add_apply, ih, taken, taken, total_cons]

theorem length_group_le (v : RoutedToken) (d : ℕ) : (v.group d).length ≤ v.assignments.length :=
  List.length_filter_le _ _

theorem need_snd (d : ℕ) (v : RoutedToken) : (need d v).2 = (v.group d).length := by
  unfold need
  split
  · simp [*]
  · rfl

theorem need_fst_le (d : ℕ) (v : RoutedToken) : (need d v).1 ≤ (need d v).2 := by
  unfold need
  split
  · exact le_refl _
  · exact List.length_pos_iff.mpr ‹_›

@[simp] theorem length_rowAt (d : ℕ) (b : ℕ × ℕ) (v : RoutedToken) :
    (rowAt d b v).length = (need d v).1 := by
  unfold rowAt need
  split <;> rfl

@[simp] theorem length_expertsAt (e d : ℕ) (b : (ℕ × ℕ) × (ℕ → ℕ)) (v : RoutedToken) :
    (expertsAt e d b v).length = (need d v).2 := by
  rw [need_snd]
  simp [expertsAt]

theorem length_rowsOf (d : ℕ) (vs : List RoutedToken) :
    (rowsOf d vs).length = (taken d vs).1 :=
  length_emit (rowAt d) (need d) (AddMonoidHom.fst ℕ ℕ) (fun b v => length_rowAt d b v) 0 vs

/-- The expert storage and the cell counts it is allocated with. -/
theorem total_needCells (e workers d : ℕ) (vs : List RoutedToken) :
    total (fun v => (need d v, cellsBelow e workers v)) vs
      = (taken d vs, total (cellsBelow e workers) vs) := by
  induction vs with
  | nil => rfl
  | cons v vs ih => rw [total_cons, ih, taken, taken, total_cons, total_cons, Prod.mk_add_mk]

theorem length_expertsOf (e workers d : ℕ) (vs : List RoutedToken) :
    (expertsOf e workers d vs).length = (taken d vs).2 := by
  have h := length_emit (expertsAt e d) (fun v => (need d v, cellsBelow e workers v))
    ((AddMonoidHom.snd ℕ ℕ).comp (AddMonoidHom.fst (ℕ × ℕ) (ℕ → ℕ)))
    (fun b v => length_expertsAt e d b v) 0 vs
  rw [total_needCells] at h
  exact h

/-! ## One more token -/

theorem rowsOf_concat (d : ℕ) (vs : List RoutedToken) (v : RoutedToken) :
    rowsOf d (vs ++ [v]) = rowsOf d vs ++ rowAt d (taken d vs) v := by
  rw [rowsOf, emit_concat, zero_add]
  rfl

theorem expertsOf_concat (e workers d : ℕ) (vs : List RoutedToken) (v : RoutedToken) :
    expertsOf e workers d (vs ++ [v]) = expertsOf e workers d vs
      ++ expertsAt e d (taken d vs, total (cellsBelow e workers) vs) v := by
  rw [expertsOf, emit_concat, zero_add, total_needCells]
  rfl

theorem contributorsOf_concat (workers : ℕ) (vs : List RoutedToken) (v : RoutedToken)
    (rank row : ℕ) :
    contributorsOf workers (vs ++ [v]) rank row = contributorsOf workers vs rank row
      ++ if v.rank.toNat = rank ∧ v.row.toNat = row then contributorsFor workers vs v else [] := by
  rw [contributorsOf, emit_concat, zero_add]
  simp only [total_need]
  rfl

/-- A token that comes once has the contributors it got when it came. -/
theorem contributorsOf_eq {workers : ℕ} {pre post : List RoutedToken} {v : RoutedToken}
    (h : ∀ w ∈ pre ++ post, ¬ (w.rank.toNat = v.rank.toNat ∧ w.row.toNat = v.row.toNat)) :
    contributorsOf workers (pre ++ v :: post) v.rank.toNat v.row.toNat
      = contributorsFor workers pre v := by
  have hother : ∀ (ws : List RoutedToken) (b : ℕ → ℕ × ℕ), (∀ w ∈ ws, w ∈ pre ++ post) →
      emit (fun (b : ℕ → ℕ × ℕ) w =>
        if w.rank.toNat = v.rank.toNat ∧ w.row.toNat = v.row.toNat then
          (List.range workers).flatMap fun d => contributorAt d (b d) w else [])
        (fun w d => need d w) b ws = [] := by
    intro ws b hws
    rw [List.eq_nil_iff_forall_not_mem]
    intro x hx
    obtain ⟨p, w, q, rfl, hmem⟩ := mem_emit.mp hx
    rw [if_neg (h w (hws w (by simp)))] at hmem
    simp at hmem
  have hsplit : pre ++ v :: post = (pre ++ [v]) ++ post := by simp
  rw [contributorsOf, hsplit, emit_append, emit_concat,
    hother pre 0 (fun w hw => List.mem_append_left _ hw),
    hother post _ (fun w hw => List.mem_append_right _ hw), List.nil_append, List.append_nil,
    if_pos ⟨rfl, rfl⟩, zero_add]
  simp only [total_need]
  rfl

end AscendShmem.PullV2
