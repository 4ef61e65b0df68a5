import TwoLevel.Cube.Basic

/-!
# Greedy covers

This file covers a set of rows by repeatedly taking the cube that covers the most rows not covered
before. Of several such cubes the one listed first is taken.

A cube that has been taken covers no uncovered row any more, so no scan has to mark it and pass it
over. And as long as every uncovered row lies in some cube, there is a cube to take until all rows
are covered, so the end of the picks needs no second condition.

## Main definitions

- `Offer` — a cube together with the rows that it would newly cover
- `Offer.widest?` — the first of the offers with the most rows
- `Pick` — a cube that was taken, with the number of rows that it newly covered
- `greedyCover` — the picks in order

## Main statements

- `Offer.widest?_passing` — a scan may pass over cubes that have been taken
- `Offer.widest?_eq_none_iff_of_covers` — there is nothing to take only when all rows are covered
-/

namespace TwoLevel

/-- A cube together with the rows that it would newly cover. -/
structure Offer where
  cube : Cube
  rows : List Nat
  deriving DecidableEq

/-- A cube that was taken, with the number of rows that it newly covered. -/
structure Pick where
  cube : Cube
  gain : Nat
  deriving DecidableEq

namespace Offer

/-- What a cube offers when some rows are uncovered. -/
def ofCube (uncovered : List Nat) (c : Cube) : Offer := ⟨c, uncovered.filter c.covers⟩

/-- What is left of an offer when some rows have been covered. -/
def without (covered : List Nat) (o : Offer) : Offer :=
  { o with rows := o.rows.filter fun row => !covered.contains row }

/-- What is left of some offers when some rows have been covered. -/
def withoutAll (covered : List Nat) (offers : List Offer) : List Offer :=
  offers.map (without covered)

/-- The better of two offers, the first of which may be missing; the second must have more rows
than the first, and at least one. -/
def better (best : Option Offer) (o : Offer) : Option Offer :=
  if best.elim 0 (·.rows.length) < o.rows.length then some o else best

/-- The first of the offers with the most rows; none if no offer has a row. -/
def widest? (offers : List Offer) : Option Offer := offers.foldl better none

/-- The number of rows that some offers have together. -/
def total (offers : List Offer) : Nat := offers.foldr (fun o rest => o.rows.length + rest) 0

/-- A fold of `better` yields its start or one of the offers that has a row. -/
theorem foldl_better {offers : List Offer} {start : Option Offer} {o : Offer}
    (h : offers.foldl better start = some o) : start = some o ∨ o ∈ offers ∧ 0 < o.rows.length := by
  induction offers generalizing start with
  | nil => exact .inl h
  | cons p ps ih =>
    rcases ih h with h' | ⟨hmem, hpos⟩
    · by_cases hlt : start.elim 0 (·.rows.length) < p.rows.length
      · simp only [better, hlt, if_true, Option.some.injEq] at h'
        subst h'
        exact .inr ⟨by simp, by omega⟩
      · simp only [better, hlt, if_false] at h'
        exact .inl h'
    · exact .inr ⟨by simp [hmem], hpos⟩

/-- The widest offer is one of the offers and has a row. -/
theorem widest?_some {offers : List Offer} {o : Offer} (h : widest? offers = some o) :
    o ∈ offers ∧ 0 < o.rows.length := by
  rcases foldl_better h with h' | h'
  · cases h'
  · exact h'

theorem length_without_le (covered : List Nat) (o : Offer) :
    (o.without covered).rows.length ≤ o.rows.length := List.length_filter_le _ _

theorem total_without_le (covered : List Nat) (offers : List Offer) :
    total (withoutAll covered offers) ≤ total offers := by
  induction offers with
  | nil => simp [total, withoutAll]
  | cons o os ih =>
    have := length_without_le covered o
    simp only [total, withoutAll, List.map_cons, List.foldr_cons] at *
    omega

/-- When the rows of an offer have been covered, the offers together become smaller. -/
theorem total_without_lt {offers : List Offer} {o : Offer} (ho : o ∈ offers)
    (hpos : 0 < o.rows.length) : total (withoutAll o.rows offers) < total offers := by
  induction offers with
  | nil => cases ho
  | cons p ps ih =>
    simp only [total, withoutAll, List.map_cons, List.foldr_cons] at *
    rcases List.mem_cons.1 ho with rfl | ho
    · have hnone : (o.without o.rows).rows = [] := by
        simp only [without, List.filter_eq_nil_iff]
        intro row hrow
        simp [hrow]
      have hrest := total_without_le o.rows ps
      simp only [total, withoutAll] at hrest
      rw [hnone, List.length_nil]
      omega
    · have := ih ho
      have := length_without_le o.rows p
      omega

end Offer

/-- The picks from some offers: the widest offer, then the picks from what is left of all offers,
until no offer has a row. -/
def greedyPicks (offers : List Offer) : List Pick :=
  match _ : Offer.widest? offers with
  | none => []
  | some best =>
    ⟨best.cube, best.rows.length⟩ :: greedyPicks (Offer.withoutAll best.rows offers)
termination_by Offer.total offers
decreasing_by
  rename_i h
  obtain ⟨hmem, hpos⟩ := Offer.widest?_some h
  exact Offer.total_without_lt hmem hpos

/-- The picks that cover some rows by cubes of a list. -/
def greedyCover (cubes : List Cube) (uncovered : List Nat) : List Pick :=
  greedyPicks (cubes.map (Offer.ofCube uncovered))

/-! ### Offers without rows -/

namespace Offer

variable {offers : List Offer} {cubes taken : List Cube} {uncovered : List Nat}

theorem better_of_rows_eq_nil (best : Option Offer) {o : Offer} (h : o.rows = []) :
    better best o = best := by
  rw [better, h, List.length_nil, if_neg (Nat.not_lt_zero _)]

theorem exists_foldl_better_some (offers : List Offer) (o : Offer) :
    ∃ p, offers.foldl better (some o) = some p := by
  induction offers generalizing o with
  | nil => exact ⟨o, rfl⟩
  | cons p ps ih =>
    rw [List.foldl_cons, better]
    split <;> exact ih _

/-- There is no widest offer exactly if no offer has a row. -/
theorem widest?_eq_none_iff : widest? offers = none ↔ ∀ o ∈ offers, o.rows = [] := by
  rw [widest?]
  induction offers with
  | nil => simp
  | cons o os ih =>
    rw [List.foldl_cons, List.forall_mem_cons]
    cases hrows : o.rows with
    | nil => simp [better_of_rows_eq_nil none hrows, ih]
    | cons row rows =>
      have hbetter : better none o = some o := if_pos (by simp [hrows])
      obtain ⟨p, hp⟩ := exists_foldl_better_some os o
      simp [hbetter, hp]

theorem rows_ofCube_eq_nil_iff {c : Cube} :
    (ofCube uncovered c).rows = [] ↔ ∀ row ∈ uncovered, c.covers row = false := by
  simp [ofCube]

/-- As long as every uncovered row lies in some cube, a scan finds nothing to take only when no row
is uncovered. -/
theorem widest?_eq_none_iff_of_covers
    (h : ∀ row ∈ uncovered, ∃ c ∈ cubes, c.covers row = true) :
    widest? (cubes.map (ofCube uncovered)) = none ↔ uncovered = [] := by
  rw [widest?_eq_none_iff, List.forall_mem_map]
  constructor
  · intro hnone
    refine List.eq_nil_iff_forall_not_mem.2 fun row hrow => ?_
    obtain ⟨c, hc, hcov⟩ := h row hrow
    rw [rows_ofCube_eq_nil_iff.1 (hnone c hc) row hrow] at hcov
    cases hcov
  · rintro rfl c -
    rfl

/-- A scan finds the same when it passes over cubes that have been taken. They cover no uncovered
row, since their rows have been left out by `Cube.CoverNone.cons`. -/
theorem widest?_passing (h : Cube.CoverNone taken uncovered) (cubes : List Cube) :
    widest? ((cubes.filter fun c => !taken.contains c).map (ofCube uncovered)) =
      widest? (cubes.map (ofCube uncovered)) := by
  rw [widest?, widest?]
  generalize (none : Option Offer) = start
  induction cubes generalizing start with
  | nil => rfl
  | cons c cs ih =>
    by_cases hc : c ∈ taken
    · have hnone : (ofCube uncovered c).rows = [] := rows_ofCube_eq_nil_iff.2 (h c hc)
      rw [List.filter_cons_of_neg (by simpa using hc), ih, List.map_cons, List.foldl_cons,
        better_of_rows_eq_nil start hnone]
    · rw [List.filter_cons_of_pos (by simpa using hc), List.map_cons, List.map_cons,
        List.foldl_cons, List.foldl_cons, ih]

end Offer

end TwoLevel
