import TwoLevel.Cover.Selection
import TwoLevel.Proofs.Cube.Cells
import TwoLevel.Proofs.Lists

/-!
# Order keys

The order key of a cube lists its positions from the first letter on. This file proves that cubes
that fit are determined by their keys, so that sorting by keys leaves no ties.

## Main statements

- `Cube.Fits.eq_of_orderKey_eq` — cubes with equal keys are equal
- `Cube.pairwise_sortByKey` — sorted cubes are strictly ascending
-/

namespace TwoLevel

namespace Cube

variable {c d : Cube} {w : Nat} {cubes : List Cube}

/-- Cubes that fit are equal when they require the same at every position. -/
theorem Fits.eq_of_inputs_eq (hc : c.Fits w) (hd : d.Fits w) (h : c.inputs = d.inputs) : c = d := by
  apply hc.ext hd
  intro place hp
  rw [inputs, inputs, hc.width_eq, hd.width_eq, List.map_inj_left] at h
  have hposition := h (w - 1 - place) (List.mem_range.2 (by omega))
  rw [hc.value?_eq, hd.value?_eq] at hposition
  rwa [show w - 1 - (w - 1 - place) = place by omega] at hposition

/-- Cubes that fit are equal when their keys are. -/
theorem Fits.eq_of_orderKey_eq (hc : c.Fits w) (hd : d.Fits w) {plain : Bool}
    (h : c.orderKey plain = d.orderKey plain) : c = d := by
  refine hc.eq_of_inputs_eq hd (eq_of_map_eq_map (fun u _ v _ huv => ?_) h)
  cases u with
  | none =>
    cases v with
    | none => rfl
    | some v => cases v <;> cases plain <;> simp at huv
  | some u =>
    cases v with
    | none => cases u <;> cases plain <;> simp at huv
    | some v => cases u <;> cases v <;> cases plain <;> simp_all

/-- The literals of a cube are counted by the required positions. -/
theorem Fits.literalCount_eq_countP_inputs (hc : c.Fits w) (hw : w ≤ 32) :
    c.literalCount = c.inputs.countP Option.isSome := by
  have hreverse : (List.range w).reverse = (List.range w).map (w - 1 - ·) := by
    conv_lhs => rw [List.range_eq_range', List.reverse_range']
    simp
  rw [hc.literalCount_eq hw, ← List.countP_reverse, hreverse, List.countP_map, inputs,
    List.countP_map, hc.width_eq]
  apply List.countP_congr
  intro p _
  rw [Function.comp_apply, Function.comp_apply, hc.value?_eq]

theorem sortByKey_perm (plain : Bool) (cubes : List Cube) : (sortByKey plain cubes).Perm cubes :=
  List.mergeSort_perm _ _

theorem mem_sortByKey {plain : Bool} : c ∈ sortByKey plain cubes ↔ c ∈ cubes :=
  (sortByKey_perm plain cubes).mem_iff

/-- Cubes without repetitions are strictly ascending when they are sorted by keys. -/
theorem pairwise_sortByKey {plain : Bool} (hfits : ∀ c ∈ cubes, c.Fits w) (hnodup : cubes.Nodup) :
    (sortByKey plain cubes).Pairwise fun c d => c.orderKey plain < d.orderKey plain := by
  have hsorted : (sortByKey plain cubes).Pairwise
      fun c d => !decide (d.orderKey plain < c.orderKey plain) := by
    refine List.pairwise_mergeSort (fun a b c hab hbc => ?_) (fun a b => ?_) cubes
    · simp only [Bool.not_eq_true', decide_eq_false_iff_not, not_lt] at hab hbc ⊢
      exact hab.trans hbc
    · simp only [Bool.or_eq_true, Bool.not_eq_true', decide_eq_false_iff_not, not_lt]
      exact le_total _ _
  have hnodup' : (sortByKey plain cubes).Nodup :=
    (sortByKey_perm plain cubes).nodup_iff.2 hnodup
  refine (hsorted.and hnodup').imp_of_mem fun {c d} hc hd h => ?_
  simp only [Bool.not_eq_true', decide_eq_false_iff_not, not_lt] at h
  refine lt_of_le_of_ne h.1 fun heq => h.2 ?_
  exact (hfits c (mem_sortByKey.1 hc)).eq_of_orderKey_eq (hfits d (mem_sortByKey.1 hd)) heq

end Cube

end TwoLevel
