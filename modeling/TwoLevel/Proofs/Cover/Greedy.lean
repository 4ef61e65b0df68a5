import Mathlib
import TwoLevel.Cover.Greedy

/-!
# Greedy covers as a recursion on the uncovered rows

The offers of a greedy cover are carried along as lists of rows. This file restates the cover as a
recursion on the uncovered rows alone: the widest cube is taken, and the cover goes on with the rows
that it leaves uncovered. From this recursion it follows that every row that some cube covers is
covered in the end, and that nothing changes if a cube is no longer considered once it has been taken.

## Main definitions

- `Cube.gain` — the number of uncovered rows that a cube covers
- `Cube.remaining` — the rows that a cube leaves uncovered
- `Cube.widest?` — the first cube with the greatest gain

## Main statements

- `greedyCover_eq` — the recursion
- `Cube.remaining_induction` — a greedy cover followed by one pick at a time
- `greedyCover_passing`, `greedyCover_eq_passing` — cubes that have been taken may be passed over
- `exists_mem_greedyCover` — a greedy cover covers what can be covered
-/

namespace TwoLevel

namespace Cube

/-- The number of uncovered rows that a cube covers. -/
def gain (uncovered : List Nat) (c : Cube) : Nat := uncovered.countP c.covers

/-- The uncovered rows that remain when a cube is taken. -/
def remaining (uncovered : List Nat) (c : Cube) : List Nat :=
  uncovered.filter fun row => !c.covers row

/-- The first of the cubes with the greatest gain; none if no cube gains a row. -/
def widest? (cubes : List Cube) (uncovered : List Nat) : Option Cube :=
  (Offer.widest? (cubes.map (Offer.ofCube uncovered))).map Offer.cube

end Cube

variable {cubes taken : List Cube} {uncovered : List Nat} {c d : Cube} {row : Nat}

namespace Offer

theorem length_rows_ofCube (uncovered : List Nat) (c : Cube) :
    (ofCube uncovered c).rows.length = c.gain uncovered :=
  List.countP_eq_length_filter.symm

/-- Taking a cube leaves of every offer what the cube offers on the remaining rows. -/
theorem withoutAll_ofCube (cubes : List Cube) (uncovered : List Nat) (c : Cube) :
    withoutAll (ofCube uncovered c).rows (cubes.map (ofCube uncovered)) =
      cubes.map (ofCube (c.remaining uncovered)) := by
  rw [withoutAll, List.map_map]
  apply List.map_congr_left
  intro d _
  simp only [Function.comp_apply, without, ofCube, Cube.remaining, mk.injEq, true_and,
    List.filter_filter]
  apply List.filter_congr
  intro row hrow
  rw [Bool.and_comm]
  congr 2
  rw [Bool.eq_iff_iff, List.contains_iff_mem, List.mem_filter]
  exact ⟨fun h => h.2, fun h => ⟨hrow, h⟩⟩

theorem le_better (start : Option Offer) (o : Offer) :
    o.rows.length ≤ (better start o).elim 0 (·.rows.length) ∧
      start.elim 0 (·.rows.length) ≤ (better start o).elim 0 (·.rows.length) := by
  rw [better]
  split
  · exact ⟨le_rfl, by rw [Option.elim_some]; omega⟩
  · exact ⟨by omega, le_rfl⟩

/-- A scan keeps a best offer unless a later offer has more rows than all before. -/
theorem foldl_better_spec (offers : List Offer) (start : Option Offer) :
    (∀ p ∈ offers, p.rows.length ≤ (offers.foldl better start).elim 0 (·.rows.length)) ∧
      start.elim 0 (·.rows.length) ≤ (offers.foldl better start).elim 0 (·.rows.length) := by
  induction offers generalizing start with
  | nil => exact ⟨by simp, le_rfl⟩
  | cons o os ih =>
    rw [List.foldl_cons]
    obtain ⟨hall, hstart⟩ := ih (better start o)
    have hstep := le_better start o
    refine ⟨fun p hp => ?_, hstep.2.trans hstart⟩
    rcases List.mem_cons.1 hp with rfl | hp
    · exact hstep.1.trans hstart
    · exact hall p hp

/-- Of several offers with the most rows a scan keeps the first. -/
theorem foldl_better_first {offers : List Offer} {start : Option Offer} {o : Offer}
    (h : offers.foldl better start = some o) : start = some o ∨
      ∃ before after, offers = before ++ o :: after ∧
        start.elim 0 (·.rows.length) < o.rows.length ∧
        ∀ p ∈ before, p.rows.length < o.rows.length := by
  induction offers generalizing start with
  | nil => exact .inl h
  | cons p ps ih =>
    rw [List.foldl_cons] at h
    rcases ih h with hkept | ⟨before, after, rfl, hstart, hbefore⟩
    · by_cases hlt : start.elim 0 (·.rows.length) < p.rows.length
      · rw [better, if_pos hlt, Option.some.injEq] at hkept
        subst hkept
        exact .inr ⟨[], ps, rfl, hlt, by simp⟩
      · rw [better, if_neg hlt] at hkept
        exact .inl hkept
    · have hstep := le_better start p
      refine .inr ⟨p :: before, after, rfl, hstep.2.trans_lt hstart, ?_⟩
      exact List.forall_mem_cons.2 ⟨hstep.1.trans_lt hstart, hbefore⟩

end Offer

namespace Cube

theorem widest?_mem (h : widest? cubes uncovered = some c) :
    c ∈ cubes ∧ 0 < c.gain uncovered := by
  rw [widest?, Option.map_eq_some_iff] at h
  obtain ⟨o, ho, rfl⟩ := h
  obtain ⟨hmem, hpos⟩ := Offer.widest?_some ho
  obtain ⟨d, hd, rfl⟩ := List.mem_map.1 hmem
  rw [Offer.length_rows_ofCube] at hpos
  exact ⟨hd, hpos⟩

/-- The widest cube gains at least as many rows as any other. -/
theorem gain_le_of_widest? (h : widest? cubes uncovered = some c) (hd : d ∈ cubes) :
    d.gain uncovered ≤ c.gain uncovered := by
  rw [widest?, Option.map_eq_some_iff] at h
  obtain ⟨o, ho, rfl⟩ := h
  obtain ⟨hmem, -⟩ := Offer.widest?_some ho
  obtain ⟨e, -, rfl⟩ := List.mem_map.1 hmem
  have hle := (Offer.foldl_better_spec (cubes.map (Offer.ofCube uncovered)) none).1
    (Offer.ofCube uncovered d) (List.mem_map_of_mem hd)
  rw [Offer.widest?] at ho
  rwa [ho, Option.elim_some, Offer.length_rows_ofCube, Offer.length_rows_ofCube] at hle

/-- The cubes before the widest one gain fewer rows. -/
theorem widest?_eq_some_first (h : widest? cubes uncovered = some c) :
    ∃ before after, cubes = before ++ c :: after ∧
      ∀ d ∈ before, d.gain uncovered < c.gain uncovered := by
  rw [widest?, Option.map_eq_some_iff] at h
  obtain ⟨o, ho, rfl⟩ := h
  rcases Offer.foldl_better_first ho with hnone | ⟨before, after, hsplit, -, hbefore⟩
  · cases hnone
  · obtain ⟨ds, es, rfl, rfl, hes⟩ := List.map_eq_append_iff.1 hsplit
    obtain ⟨e, es, rfl, rfl, -⟩ := List.map_eq_cons_iff.1 hes
    refine ⟨ds, es, rfl, fun d hd => ?_⟩
    have hlt := hbefore _ (List.mem_map_of_mem hd)
    rwa [Offer.length_rows_ofCube, Offer.length_rows_ofCube] at hlt

theorem gain_eq_zero_of_widest? (h : widest? cubes uncovered = none) (hd : d ∈ cubes) :
    d.gain uncovered = 0 := by
  rw [widest?, Option.map_eq_none_iff, Offer.widest?_eq_none_iff] at h
  rw [← Offer.length_rows_ofCube, h _ (List.mem_map_of_mem hd), List.length_nil]

theorem length_remaining_lt (h : 0 < c.gain uncovered) :
    (c.remaining uncovered).length < uncovered.length := by
  obtain ⟨row, hrow, hcov⟩ := List.countP_pos_iff.1 h
  rw [remaining, List.length_filter_lt_length_iff_exists]
  exact ⟨row, hrow, by simp [hcov]⟩

/-- A greedy cover ends, so it is enough to follow it by one pick at a time. -/
@[elab_as_elim]
theorem remaining_induction (cubes : List Cube) {motive : List Nat → Prop}
    (done : ∀ uncovered, widest? cubes uncovered = none → motive uncovered)
    (pick : ∀ uncovered c, widest? cubes uncovered = some c → motive (c.remaining uncovered) →
      motive uncovered) (uncovered : List Nat) : motive uncovered := by
  induction hn : uncovered.length using Nat.strong_induction_on generalizing uncovered with
  | _ n ih =>
    cases hc : widest? cubes uncovered with
    | none => exact done uncovered hc
    | some c =>
      have hless := length_remaining_lt (widest?_mem hc).2
      exact pick uncovered c hc (ih _ (hn ▸ hless) _ rfl)

end Cube

/-- A greedy cover takes the widest cube and goes on with the remaining rows. -/
theorem greedyCover_eq (cubes : List Cube) (uncovered : List Nat) :
    greedyCover cubes uncovered =
      match Cube.widest? cubes uncovered with
      | none => []
      | some c => ⟨c, c.gain uncovered⟩ :: greedyCover cubes (c.remaining uncovered) := by
  rw [greedyCover, greedyPicks, Cube.widest?]
  split
  · next h => rw [h, Option.map_none]
  · next o h =>
    obtain ⟨hmem, -⟩ := Offer.widest?_some h
    obtain ⟨c, -, rfl⟩ := List.mem_map.1 hmem
    rw [h, Option.map_some, Offer.withoutAll_ofCube, Offer.length_rows_ofCube]
    rfl

theorem greedyCover_eq_nil (h : Cube.widest? cubes uncovered = none) :
    greedyCover cubes uncovered = [] := by
  rw [greedyCover_eq, h]

theorem greedyCover_eq_cons (h : Cube.widest? cubes uncovered = some c) :
    greedyCover cubes uncovered =
      ⟨c, c.gain uncovered⟩ :: greedyCover cubes (c.remaining uncovered) := by
  rw [greedyCover_eq, h]

/-- Cubes that cover no uncovered row are never taken, so they need not be listed. -/
theorem greedyCover_passing (h : Cube.CoverNone taken uncovered) (cubes : List Cube) :
    greedyCover (cubes.filter fun c => !taken.contains c) uncovered =
      greedyCover cubes uncovered := by
  have hscan : ∀ uncovered, Cube.CoverNone taken uncovered →
      Cube.widest? (cubes.filter fun c => !taken.contains c) uncovered =
        Cube.widest? cubes uncovered :=
    fun uncovered h => congrArg (·.map Offer.cube) (Offer.widest?_passing h cubes)
  induction uncovered using Cube.remaining_induction cubes with
  | done uncovered hc => rw [greedyCover_eq_nil hc, greedyCover_eq_nil ((hscan _ h).trans hc)]
  | pick uncovered c hc ih =>
    rw [greedyCover_eq_cons hc, greedyCover_eq_cons ((hscan _ h).trans hc), ih (h.filter _)]

/-- The recursion in which a cube that has been taken is not considered again. -/
theorem greedyCover_eq_passing (cubes : List Cube) (uncovered : List Nat) :
    greedyCover cubes uncovered = (Cube.widest? cubes uncovered).elim [] fun c =>
      ⟨c, c.gain uncovered⟩ :: greedyCover (cubes.filter (· ≠ c)) (c.remaining uncovered) := by
  cases hc : Cube.widest? cubes uncovered with
  | none => exact greedyCover_eq_nil hc
  | some c =>
    have htaken : Cube.CoverNone [c] (c.remaining uncovered) :=
      Cube.CoverNone.cons (fun _ hd => absurd hd List.not_mem_nil) c
    have hsame : cubes.filter (· ≠ c) = cubes.filter fun d => !([c].contains d) := by
      refine List.filter_congr fun d _ => ?_
      simp
    rw [Option.elim_some, hsame, greedyCover_passing htaken, greedyCover_eq_cons hc]

theorem cube_mem_of_mem_greedyCover {p : Pick} (hp : p ∈ greedyCover cubes uncovered) :
    p.cube ∈ cubes := by
  induction uncovered using Cube.remaining_induction cubes with
  | done uncovered hc =>
    rw [greedyCover_eq_nil hc] at hp
    cases hp
  | pick uncovered c hc ih =>
    rw [greedyCover_eq_cons hc] at hp
    rcases List.mem_cons.1 hp with rfl | hp
    · exact (Cube.widest?_mem hc).1
    · exact ih hp

/-- Every uncovered row that some cube covers is covered by a pick. -/
theorem exists_mem_greedyCover (hrow : row ∈ uncovered) (hd : d ∈ cubes)
    (hcov : d.covers row = true) : ∃ p ∈ greedyCover cubes uncovered, p.cube.covers row = true := by
  induction uncovered using Cube.remaining_induction cubes with
  | done uncovered hc =>
    have hzero := Cube.gain_eq_zero_of_widest? hc hd
    rw [Cube.gain, List.countP_eq_zero] at hzero
    exact absurd hcov (hzero row hrow)
  | pick uncovered c hc ih =>
    rw [greedyCover_eq_cons hc]
    by_cases hcrow : c.covers row = true
    · exact ⟨_, List.mem_cons_self, hcrow⟩
    · have hleft : row ∈ c.remaining uncovered :=
        List.mem_filter.2 ⟨hrow, by simpa using hcrow⟩
      obtain ⟨p, hp, hprow⟩ := ih hleft
      exact ⟨p, List.mem_cons_of_mem _ hp, hprow⟩

end TwoLevel
