import TwoLevel.Proofs.Cube.OrderKey
import TwoLevel.Proofs.Letters

/-!
# Cubes letter by letter

This file sees a cube over some letters as what it requires of each letter. In these terms the rows
that a cube covers, its literals and its order key can be said without mention of places, and cubes
over different letters can be compared.

## Main definitions

- `Cube.demand` — what a cube requires of a letter
- `Cube.ofDemand` — the cube with given requirements

## Main statements

- `Cube.Fits.ext_demand` — cubes that fit are equal when they require the same of every letter
- `Cube.Fits.covers_iff_demand` — the rows of a cube
- `Cube.Fits.literalCount_eq_demand`, `Cube.Fits.orderKey_eq_demand` — literals and order key
-/

namespace TwoLevel

namespace Cube

/-- What a cube over some letters requires of a letter. -/
def demand (s : Letters) (c : Cube) (name : Char) : Option Bool :=
  (s.indexOf? name).bind c.value?

/-- The cube over some letters with given requirements. -/
def ofDemand (s : Letters) (f : Char → Option Bool) : Cube :=
  ofCells s.size fun place => (s.toList[s.size - 1 - place]?).bind f

variable {s : Letters} {c d : Cube} {name : Char} {position row : Nat}

theorem demand_eq_value? (h : s.toList[position]? = some name) :
    c.demand s name = c.value? position := by
  rw [demand, Letters.indexOf?_eq_some.2 h, Option.bind_some]

theorem demand_of_notMem (h : name ∉ s.toList) : c.demand s name = none := by
  rw [demand, Letters.indexOf?_eq_none.2 h, Option.bind_none]

theorem mem_of_demand_eq_some {value : Bool} (h : c.demand s name = some value) :
    name ∈ s.toList := by
  by_contra hnot
  rw [demand_of_notMem hnot] at h
  cases h

theorem Fits.cell_eq_demand (hc : c.Fits s.size) {place : Nat} (hplace : place < s.size)
    (h : s.toList[s.size - 1 - place]? = some name) : c.cell place = c.demand s name := by
  rw [demand_eq_value? h, hc.value?_eq]
  rw [show s.size - 1 - (s.size - 1 - place) = place by omega]

theorem fits_ofDemand (s : Letters) (f : Char → Option Bool) : (ofDemand s f).Fits s.size :=
  fits_ofCells s.size_le_word _

theorem demand_ofDemand (f : Char → Option Bool) (hname : name ∈ s.toList) :
    (ofDemand s f).demand s name = f name := by
  obtain ⟨place, hplace, hget⟩ := Letters.exists_place_of_mem hname
  rw [← (fits_ofDemand s f).cell_eq_demand hplace hget, ofDemand,
    cell_ofCells s.size_le_word _ hplace, hget, Option.bind_some]

/-- Cubes that fit are equal when they require the same of every letter. -/
theorem Fits.ext_demand (hc : c.Fits s.size) (hd : d.Fits s.size)
    (h : ∀ name ∈ s.toList, c.demand s name = d.demand s name) : c = d := by
  apply hc.ext hd
  intro place hplace
  obtain ⟨name, hname, hget⟩ := Letters.exists_letter_at hplace
  rw [hc.cell_eq_demand hplace hget, hd.cell_eq_demand hplace hget, h name hname]

/-- A row lies in a cube when it gives all letters the required values. -/
theorem Fits.covers_iff_demand (hc : c.Fits s.size) (hrow : row < 2 ^ s.size) :
    c.covers row = true ↔
      ∀ name value, c.demand s name = some value → s.valueAt row name = value := by
  rw [hc.covers_iff s.size_le_word hrow]
  constructor
  · intro h name value hvalue
    obtain ⟨place, hplace, hget⟩ := Letters.exists_place_of_mem (mem_of_demand_eq_some hvalue)
    rw [← hc.cell_eq_demand hplace hget] at hvalue
    rw [Letters.valueAt_eq_testBit hplace hget]
    exact h place hplace value hvalue
  · intro h place hplace value hvalue
    obtain ⟨name, -, hget⟩ := Letters.exists_letter_at hplace
    rw [hc.cell_eq_demand hplace hget] at hvalue
    have hbit := h name value hvalue
    rwa [Letters.valueAt_eq_testBit hplace hget] at hbit

theorem Fits.inputs_eq_demand (hc : c.Fits s.size) : c.inputs = s.toList.map (c.demand s) := by
  refine List.ext_getElem (by simp [inputs, hc.width_eq, Letters.size]) fun position _ hlt => ?_
  rw [List.length_map] at hlt
  simp only [inputs, List.getElem_map, List.getElem_range]
  rw [demand_eq_value? (List.getElem?_eq_getElem hlt)]

/-- The literals of a cube are counted by the letters of which it requires a value. -/
theorem Fits.literalCount_eq_demand (hc : c.Fits s.size) :
    c.literalCount = s.toList.countP fun name => (c.demand s name).isSome := by
  rw [hc.literalCount_eq_countP_inputs s.size_le_word, hc.inputs_eq_demand,
    List.countP_map]
  rfl

/-- The order key of a cube lists its requirements letter by letter. -/
theorem Fits.orderKey_eq_demand (hc : c.Fits s.size) (plain : Bool) :
    c.orderKey plain = s.toList.map fun name =>
      match c.demand s name with
      | some value => if value = plain then 0 else 1
      | none => 2 := by
  rw [orderKey, hc.inputs_eq_demand, List.map_map]
  rfl

end Cube

end TwoLevel
