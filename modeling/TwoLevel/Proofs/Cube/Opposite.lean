import TwoLevel.Proofs.Cube.Implicant
import TwoLevel.Proofs.Cube.OrderKey

/-!
# Opposite rows and cubes

This file complements all digits of a row and all required values of a cube. The rows of the
opposite cube are the opposite rows, so primes of a set of rows become primes of the opposite rows.
The number of literals stays the same, and so does the order key when the value that counts as plain
is complemented too.

## Main definitions

- `oppositeRow` — the row in which every variable has the other value
- `Cube.opposite` — the cube that requires the other values

## Main statements

- `Cube.Fits.covers_opposite`, `Cube.Fits.orderKey_opposite` — rows and key of an opposite cube
- `Cube.isPrime_opposite_iff` — the primes of the opposite rows
-/

namespace TwoLevel

/-- The row in which every one of `w` variables has the other value. -/
def oppositeRow (w row : Nat) : Nat := 2 ^ w - 1 - row

theorem oppositeRow_lt (w row : Nat) : oppositeRow w row < 2 ^ w := by
  have hpos : 0 < 2 ^ w := Nat.two_pow_pos w
  rw [oppositeRow]
  omega

theorem oppositeRow_oppositeRow {w row : Nat} (hrow : row < 2 ^ w) :
    oppositeRow w (oppositeRow w row) = row := by
  rw [oppositeRow, oppositeRow]
  omega

theorem testBit_oppositeRow {w row place : Nat} (hrow : row < 2 ^ w) (hplace : place < w) :
    (oppositeRow w row).testBit place = !row.testBit place := by
  rw [oppositeRow, show 2 ^ w - 1 - row = 2 ^ w - (row + 1) by omega,
    Nat.testBit_two_pow_sub_succ hrow, decide_eq_true hplace, Bool.true_and]

theorem lt_of_mem_map_oppositeRow {w row : Nat} {rows : List Nat}
    (h : row ∈ rows.map (oppositeRow w)) : row < 2 ^ w := by
  obtain ⟨other, -, rfl⟩ := List.mem_map.1 h
  exact oppositeRow_lt w other

theorem map_oppositeRow_map {w : Nat} {rows : List Nat} (hrows : ∀ row ∈ rows, row < 2 ^ w) :
    (rows.map (oppositeRow w)).map (oppositeRow w) = rows := by
  have hsame : rows.map (oppositeRow w ∘ oppositeRow w) = rows.map id :=
    List.map_congr_left fun row hrow => oppositeRow_oppositeRow (hrows row hrow)
  rw [List.map_map, hsame, List.map_id]

theorem mem_map_oppositeRow {w row : Nat} {rows : List Nat} (hrows : ∀ row ∈ rows, row < 2 ^ w)
    (hrow : row < 2 ^ w) : row ∈ rows.map (oppositeRow w) ↔ oppositeRow w row ∈ rows := by
  rw [List.mem_map]
  constructor
  · rintro ⟨other, hother, rfl⟩
    rwa [oppositeRow_oppositeRow (hrows other hother)]
  · intro h
    exact ⟨_, h, oppositeRow_oppositeRow hrow⟩

namespace Cube

/-- The cube that requires the other value wherever a cube requires one. -/
def opposite (c : Cube) : Cube := ofCells c.width fun place => (c.cell place).map not

variable {c d : Cube} {w place row : Nat} {rows : List Nat}

theorem Fits.opposite (hc : c.Fits w) (hw : w ≤ 32) : c.opposite.Fits w := by
  rw [Cube.opposite, hc.width_eq]
  exact fits_ofCells hw _

theorem Fits.cell_opposite (hc : c.Fits w) (hw : w ≤ 32) (hplace : place < w) :
    c.opposite.cell place = (c.cell place).map not := by
  rw [Cube.opposite, hc.width_eq, cell_ofCells hw _ hplace]

theorem Fits.opposite_opposite (hc : c.Fits w) (hw : w ≤ 32) : c.opposite.opposite = c := by
  apply ((hc.opposite hw).opposite hw).ext hc
  intro place hplace
  rw [(hc.opposite hw).cell_opposite hw hplace, hc.cell_opposite hw hplace]
  cases c.cell place with
  | none => rfl
  | some value => simp

theorem Fits.opposite_put_none (hc : c.Fits w) (hw : w ≤ 32) (place : Nat) :
    (c.put place none).opposite = c.opposite.put place none := by
  have hput := hc.put hw place none
  apply (hput.opposite hw).ext ((hc.opposite hw).put hw place none)
  intro other hother
  rw [hput.cell_opposite hw hother, hc.cell_put hw hother, (hc.opposite hw).cell_put hw hother,
    hc.cell_opposite hw hother]
  split <;> rfl

/-- The opposite cube covers the opposite rows. -/
theorem Fits.covers_opposite (hc : c.Fits w) (hw : w ≤ 32) (hrow : row < 2 ^ w) :
    c.opposite.covers row = c.covers (oppositeRow w row) := by
  rw [Bool.eq_iff_iff, (hc.opposite hw).covers_iff hw hrow, hc.covers_iff hw (oppositeRow_lt w row)]
  refine forall_congr' fun place => forall_congr' fun hplace => ?_
  rw [hc.cell_opposite hw hplace, testBit_oppositeRow hrow hplace]
  cases c.cell place with
  | none => simp
  | some value => cases value <;> simp

theorem Fits.value?_opposite (hc : c.Fits w) (hw : w ≤ 32) {position : Nat}
    (hposition : position < w) :
    c.opposite.value? position = (c.value? position).map not := by
  rw [(hc.opposite hw).value?_eq, hc.value?_eq]
  exact hc.cell_opposite hw (by omega)

theorem Fits.inputs_opposite (hc : c.Fits w) (hw : w ≤ 32) :
    c.opposite.inputs = c.inputs.map (Option.map not) := by
  rw [inputs, inputs, (hc.opposite hw).width_eq, hc.width_eq, List.map_map]
  exact List.map_congr_left fun position hposition =>
    hc.value?_opposite hw (List.mem_range.1 hposition)

theorem Fits.literalCount_opposite (hc : c.Fits w) (hw : w ≤ 32) :
    c.opposite.literalCount = c.literalCount := by
  rw [(hc.opposite hw).literalCount_eq_countP_inputs hw, hc.literalCount_eq_countP_inputs hw,
    hc.inputs_opposite hw, List.countP_map]
  exact List.countP_congr fun value _ => by simp

/-- When the plain value is complemented too, the key of the opposite cube is the same. -/
theorem Fits.orderKey_opposite (hc : c.Fits w) (hw : w ≤ 32) (plain : Bool) :
    c.opposite.orderKey (!plain) = c.orderKey plain := by
  rw [orderKey, orderKey, hc.inputs_opposite hw, List.map_map]
  refine List.map_congr_left fun value _ => ?_
  cases value with
  | none => rfl
  | some value => simp

/-! ### Primes -/

theorem Implicant.opposite (hc : c.Implicant w rows) (hw : w ≤ 32)
    (hrows : ∀ row ∈ rows, row < 2 ^ w) :
    c.opposite.Implicant w (rows.map (oppositeRow w)) := by
  refine ⟨hc.fits.opposite hw, fun row hrow hcov => (mem_map_oppositeRow hrows hrow).2 ?_⟩
  rw [hc.fits.covers_opposite hw hrow] at hcov
  exact hc.subset _ (oppositeRow_lt w row) hcov

theorem IsPrime.opposite (hc : c.IsPrime w rows) (hw : w ≤ 32)
    (hrows : ∀ row ∈ rows, row < 2 ^ w) :
    c.opposite.IsPrime w (rows.map (oppositeRow w)) := by
  refine ⟨hc.toImplicant.opposite hw hrows, fun place hplace hcell hbig => ?_⟩
  -- The opposite of a larger implicant would be a larger implicant of the rows themselves.
  have hback := hbig.opposite hw fun _ => lt_of_mem_map_oppositeRow
  rw [map_oppositeRow_map hrows, (hc.fits.opposite hw).opposite_put_none hw,
    hc.fits.opposite_opposite hw] at hback
  refine hc.maximal place hplace (fun hnone => hcell ?_) hback
  rw [hc.fits.cell_opposite hw hplace, hnone, Option.map_none]

/-- The primes of the opposite rows are the opposite cubes of the primes. -/
theorem isPrime_opposite_iff (hw : w ≤ 32) (hrows : ∀ row ∈ rows, row < 2 ^ w) :
    d.IsPrime w (rows.map (oppositeRow w)) ↔ ∃ c : Cube, c.IsPrime w rows ∧ c.opposite = d := by
  constructor
  · intro hd
    have hback := hd.opposite hw fun _ => lt_of_mem_map_oppositeRow
    rw [map_oppositeRow_map hrows] at hback
    exact ⟨d.opposite, hback, hd.fits.opposite_opposite hw⟩
  · rintro ⟨c, hc, rfl⟩
    exact hc.opposite hw hrows

end Cube

end TwoLevel
