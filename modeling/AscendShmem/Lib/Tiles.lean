import Mathlib
import AscendShmem.Lib.Tiling

/-!
# Tiles as a set

The ranges of two kinds that cut `[0, n)`, given by membership and not in a list: what a pair of
address-ordered maps says about a heap. Idle ranges may lie side by side here. An operation that
replaces the tiles of an interval by other tiles of it leaves a cut (`Tiles.recut`).
-/

namespace Lib

/-- `[0, n)` is cut into ranges; `tile u r` says that `r` is one of kind `u`. -/
structure Tiles (n : ℕ) (tile : Bool → Range → Prop) : Prop where
  nonempty : ∀ u r, tile u r → 0 < r.size
  inside : ∀ u r, tile u r → r.stop ≤ n
  apart : ∀ u r v s, tile u r → tile v s →
    (u = v ∧ r = s) ∨ r.stop ≤ s.offset ∨ s.stop ≤ r.offset
  cover : ∀ x < n, ∃ u r, tile u r ∧ r.Covers x

/-- No byte of `r` is in `[a, b)`. -/
def Range.Outside (r : Range) (a b : ℕ) : Prop := r.stop ≤ a ∨ b ≤ r.offset

/-- All bytes of `r` are in `[a, b)`. -/
def Range.Within (r : Range) (a b : ℕ) : Prop := a ≤ r.offset ∧ r.stop ≤ b

/-- The tiles `piece` cut `[a, b)`. -/
structure Pieces (a b : ℕ) (piece : Bool → Range → Prop) : Prop where
  nonempty : ∀ u r, piece u r → 0 < r.size
  within : ∀ u r, piece u r → r.Within a b
  apart : ∀ u r v s, piece u r → piece v s →
    (u = v ∧ r = s) ∨ r.stop ≤ s.offset ∨ s.stop ≤ r.offset
  cover : ∀ x, a ≤ x → x < b → ∃ u r, piece u r ∧ r.Covers x

section Recut

variable {n a b c : ℕ} {tile tile' piece piece' : Bool → Range → Prop}

/-- One tile cuts its own interval. -/
theorem pieces_single {u : Bool} {r : Range} (hsize : 0 < r.size) :
    Pieces r.offset r.stop fun v s => v = u ∧ s = r := by
  constructor
  · rintro _ _ ⟨-, rfl⟩
    exact hsize
  · rintro _ _ ⟨-, rfl⟩
    exact ⟨le_rfl, le_rfl⟩
  · rintro _ _ _ _ ⟨rfl, rfl⟩ ⟨rfl, rfl⟩
    exact .inl ⟨rfl, rfl⟩
  · intro x hlow hhigh
    exact ⟨u, r, ⟨rfl, rfl⟩, hlow, hhigh⟩

/-- No tiles cut the empty interval. -/
theorem pieces_none : Pieces a a fun _ _ => False := by
  constructor
  · exact fun _ _ h => h.elim
  · exact fun _ _ h => h.elim
  · exact fun _ _ _ _ h => h.elim
  · intro x hlow hhigh
    omega

/-- Pieces of two intervals side by side. -/
theorem Pieces.append (h : Pieces a b piece) (h' : Pieces b c piece') (hab : a ≤ b) (hbc : b ≤ c) :
    Pieces a c fun u r => piece u r ∨ piece' u r := by
  constructor
  · rintro u r (hr | hr)
    · exact h.nonempty u r hr
    · exact h'.nonempty u r hr
  · rintro u r (hr | hr)
    · exact ⟨(h.within u r hr).1, (h.within u r hr).2.trans hbc⟩
    · exact ⟨hab.trans (h'.within u r hr).1, (h'.within u r hr).2⟩
  · rintro u r v s (hr | hr) (hs | hs)
    · exact h.apart u r v s hr hs
    · exact .inr (.inl ((h.within u r hr).2.trans (h'.within v s hs).1))
    · exact .inr (.inr ((h.within v s hs).2.trans (h'.within u r hr).1))
    · exact h'.apart u r v s hr hs
  · intro x hlow hhigh
    rcases Nat.lt_or_ge x b with hlt | hge
    · obtain ⟨u, r, hr, hcovers⟩ := h.cover x hlow hlt
      exact ⟨u, r, .inl hr, hcovers⟩
    · obtain ⟨u, r, hr, hcovers⟩ := h'.cover x hge hhigh
      exact ⟨u, r, .inr hr, hcovers⟩

/-- A tile of a cut is one of the pieces of an interval or lies outside of it. -/
theorem Tiles.outside_of_not_piece (h : Tiles n tile) (hold : Pieces a b piece) (hab : a < b)
    (hpiece : ∀ u r, piece u r → tile u r) {u : Bool} {r : Range} (hr : tile u r)
    (hnot : ¬ piece u r) : r.Outside a b := by
  have hsize := h.nonempty u r hr
  by_contra hin
  unfold Range.Outside at hin
  -- the first byte of `r` that is in the interval belongs to a piece, which is then `r` itself
  have hfirst : a ≤ max a r.offset ∧ max a r.offset < b ∧ r.Covers (max a r.offset) := by
    unfold Range.stop at hin
    refine ⟨le_max_left _ _, by omega, le_max_right _ _, ?_⟩
    unfold Range.stop
    omega
  obtain ⟨v, s, hs, hcovers⟩ := hold.cover _ hfirst.1 hfirst.2.1
  rcases h.apart u r v s hr (hpiece v s hs) with ⟨rfl, rfl⟩ | hstop | hstop
  · exact hnot hs
  · exact absurd (hfirst.2.2.2.trans_le hstop) (not_lt.mpr hcovers.1)
  · exact absurd (hcovers.2.trans_le hstop) (not_lt.mpr hfirst.2.2.1)

/-- Other tiles for the same interval. -/
theorem Tiles.recut (h : Tiles n tile) (hold : Pieces a b piece) (hnew : Pieces a b piece')
    (hpiece : ∀ u r, piece u r → tile u r) (hab : a < b) (hb : b ≤ n)
    (htile' : ∀ u r, tile' u r ↔ (tile u r ∧ ¬ piece u r) ∨ piece' u r) : Tiles n tile' := by
  constructor
  · intro u r hr
    rcases (htile' u r).mp hr with ⟨hr, -⟩ | hr
    · exact h.nonempty u r hr
    · exact hnew.nonempty u r hr
  · intro u r hr
    rcases (htile' u r).mp hr with ⟨hr, -⟩ | hr
    · exact h.inside u r hr
    · exact (hnew.within u r hr).2.trans hb
  · intro u r v s hr hs
    rcases (htile' u r).mp hr with ⟨hr, hrnot⟩ | hr
    · rcases (htile' v s).mp hs with ⟨hs, -⟩ | hs
      · exact h.apart u r v s hr hs
      · have hwithin := hnew.within v s hs
        rcases h.outside_of_not_piece hold hab hpiece hr hrnot with hout | hout
        · exact .inr (.inl (hout.trans hwithin.1))
        · exact .inr (.inr (hwithin.2.trans hout))
    · rcases (htile' v s).mp hs with ⟨hs, hsnot⟩ | hs
      · have hwithin := hnew.within u r hr
        rcases h.outside_of_not_piece hold hab hpiece hs hsnot with hout | hout
        · exact .inr (.inr (hout.trans hwithin.1))
        · exact .inr (.inl (hwithin.2.trans hout))
      · exact hnew.apart u r v s hr hs
  · intro x hx
    obtain ⟨u, r, hr, hcovers⟩ := h.cover x hx
    by_cases hp : piece u r
    · have hwithin := hold.within u r hp
      have hlow : a ≤ x := hwithin.1.trans hcovers.1
      have hhigh : x < b := hcovers.2.trans_le hwithin.2
      obtain ⟨v, s, hs, hcovers'⟩ := hnew.cover x hlow hhigh
      exact ⟨v, s, (htile' v s).mpr (.inr hs), hcovers'⟩
    · exact ⟨u, r, (htile' u r).mpr (.inl ⟨hr, hp⟩), hcovers⟩

/-- The tile at a byte is unique. -/
theorem Tiles.eq_of_covers (h : Tiles n tile) {u v : Bool} {r s : Range} {x : ℕ} (hr : tile u r)
    (hs : tile v s) (hrx : r.Covers x) (hsx : s.Covers x) : u = v ∧ r = s := by
  rcases h.apart u r v s hr hs with hsame | hstop | hstop
  · exact hsame
  · exact absurd (hrx.2.trans_le hstop) (not_lt.mpr hsx.1)
  · exact absurd (hsx.2.trans_le hstop) (not_lt.mpr hrx.1)

end Recut

end Lib
