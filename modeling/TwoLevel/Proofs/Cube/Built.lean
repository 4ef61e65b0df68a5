import TwoLevel.Proofs.Cube.RowSets
import TwoLevel.Proofs.Cube.Rounds

/-!
# Cubes built from rows

This file looks at the cubes that arise from single rows when neighbours are taken and cubes are
combined, in any order and as often as one likes. The invariant is that such a cube fits: its words
hold nothing beyond the variables, and no value under a free digit. Conversely every cube that fits
can be built. So each of these cubes is determined by its rows, and combining two of them joins
their rows.

## Main definitions

- `Cube.Built` — the cubes that are built from rows

## Main statements

- `Cube.Fits.exists_of_combine` — cubes that can be combined differ in one cell
- `Cube.built_iff_fits` — the cubes that can be built are those that fit
- `built_normal` — the words and the rows of the cubes that can be built
-/

namespace TwoLevel

/-- A word with a single digit one. -/
theorem Word.exists_eq_single {v : Word} (h : ones v = 1) : ∃ place, v = single place := by
  rw [ones, List.countP_eq_length_filter, List.length_eq_one_iff] at h
  obtain ⟨place, hplace⟩ := h
  refine ⟨place, ext fun p hp => ?_⟩
  have hdigit : digit v p = true ↔ p = place := by
    have hmem : p ∈ (List.range 32).filter (digit v) ↔ p = place := by
      rw [hplace, List.mem_singleton]
    rw [← hmem, List.mem_filter, List.mem_range, and_iff_right hp]
  rw [digit_single, Bool.eq_iff_iff, hdigit]
  simp [hp, eq_comm]

namespace Cube

variable {c d e : Cube} {w : Nat}

/-! ### Combining two cubes -/

/-- It does not matter which of two cubes is combined with the other. -/
theorem combine_comm (c d : Cube) : c.combine d = d.combine c := by
  have hdiff : c.bits ^^^ d.bits = d.bits ^^^ c.bits := UInt32.xor_comm _ _
  have hbits : c.bits &&& ~~~(c.bits ^^^ d.bits) = d.bits &&& ~~~(d.bits ^^^ c.bits) := by
    refine Word.ext fun place hplace => ?_
    rw [Word.digit_and, Word.digit_and, Word.digit_not hplace, Word.digit_not hplace,
      Word.digit_xor, Word.digit_xor]
    cases Word.digit c.bits place <;> cases Word.digit d.bits place <;> rfl
  rw [combine, combine, hbits, hdiff]
  by_cases hsame : c.width = d.width ∧ c.free = d.free
  · obtain ⟨hwidth, hfree⟩ := hsame
    rw [hwidth, hfree]
  · rw [if_neg fun h => hsame ⟨h.1, h.2.1⟩, if_neg fun h => hsame ⟨h.1.symm, h.2.1.symm⟩]

/-- Cubes that can be combined differ in the value of one cell, which the result leaves free. -/
theorem Fits.exists_of_combine (hc : c.Fits w) (hd : d.Fits w) (hw : w ≤ 32)
    (h : c.combine d = some e) :
    ∃ place < w, c.cell place ≠ none ∧ d = c.flip place ∧ e = c.put place none := by
  have hcombine := h
  simp only [combine, Option.ite_none_right_eq_some] at h
  obtain ⟨⟨hwidth, hfree, hones⟩, -⟩ := h
  obtain ⟨place, hdiff⟩ := Word.exists_eq_single hones
  have hlt : place < 32 := Word.lt_of_ones_single (hdiff ▸ hones)
  have hdigit : (Word.digit c.bits place ^^ Word.digit d.bits place) = true := by
    rw [← Word.digit_xor, hdiff, Word.digit_single]
    simp [hlt]
  -- Neither beyond the variables nor under a free digit do the words of values differ.
  have hp : place < w := by
    by_contra hge
    rw [hc.bits_eq_false_of_le (Nat.le_of_not_lt hge),
      hd.bits_eq_false_of_le (Nat.le_of_not_lt hge)] at hdigit
    cases hdigit
  have hcell : c.cell place ≠ none := by
    intro hnone
    have hone := cell_eq_none.1 hnone
    rw [hc.bits_eq_false place hone, hd.bits_eq_false place (hfree ▸ hone)] at hdigit
    cases hdigit
  have hflip : d = c.flip place := by
    have hbits : d.bits = c.bits ^^^ Word.single place := by
      rw [← hdiff]
      exact Word.ext fun p _ => by simp
    cases d
    rw [Cube.flip, Cube.mk.injEq]
    exact ⟨hwidth.symm, hbits, hfree.symm⟩
  refine ⟨place, hp, hcell, hflip, ?_⟩
  rw [hflip, hc.combine_flip hw hp, Option.some.injEq] at hcombine
  exact hcombine.symm

/-! ### Cubes that can be built -/

/-- The cubes that are built from the rows below `2 ^ w`. -/
inductive Built (w : Nat) : Cube → Prop
  /-- The cube of a single row. -/
  | row {row : Nat} : row < 2 ^ w → Built w (ofRow row w)
  /-- A cube that differs from a cube that was built in one fixed variable. -/
  | neighbour {c d : Cube} : Built w c → d ∈ c.neighbours → Built w d
  /-- The union of two cubes that were built. -/
  | union {c d e : Cube} : Built w c → Built w d → c.combine d = some e → Built w e

/-- What is built from rows fits. -/
theorem Built.fits (h : Built w c) (hw : w ≤ 32) : c.Fits w := by
  induction h with
  | row hrow => exact fits_ofRow hrow
  | neighbour _ hd ih =>
    obtain ⟨place, hp, hcell, rfl⟩ := ih.mem_neighbours.1 hd
    exact ih.flip hw hp hcell
  | union _ _ hcombine ihc ihd =>
    obtain ⟨place, -, -, -, rfl⟩ := ihc.exists_of_combine ihd hw hcombine
    exact ihc.put hw place none

/-- A cube that fits can be built: its halves at a free place are neighbours. -/
theorem Fits.built (hc : c.Fits w) (hw : w ≤ 32) : Built w c := by
  have himp := hc.implicant_range
  induction hn : Word.ones c.free generalizing c with
  | zero =>
    obtain ⟨row, -, hrow, rfl⟩ := himp.eq_ofRow hw hn
    exact .row hrow
  | succ n ih =>
    obtain ⟨low, high, hlow, -, hhigh, hcombine, hones, -⟩ := himp.exists_halves hw (by omega)
    have hbuilt := ih hlow.fits hlow (by omega)
    obtain ⟨place, hp, hcell, rfl⟩ := hlow.fits.mem_upperNeighbours.1 hhigh
    have hneighbour : low.flip place ∈ low.neighbours :=
      hlow.fits.mem_neighbours.2 ⟨place, hp, by simp [hcell], rfl⟩
    exact .union hbuilt (.neighbour hbuilt hneighbour) hcombine

theorem built_iff_fits (hw : w ≤ 32) : Built w c ↔ c.Fits w :=
  ⟨fun h => h.fits hw, fun h => h.built hw⟩

end Cube

/-- The cubes that are built from rows over up to thirty-two variables. Their two words have no
digit in common and none beyond the variables; their literals and free variables are all variables,
and they cover a power of two of rows. Two such cubes with the same rows are equal. If two of them
can be combined, in either order, the result has one literal less than each of them, and its rows
are the disjoint union of theirs. -/
theorem built_normal {w : Nat} (hw : w ≤ 32) :
    (∀ c, Cube.Built w c → c.bits &&& c.free = 0 ∧ c.bits.toNat < 2 ^ w ∧ c.free.toNat < 2 ^ w ∧
      c.literalCount + Word.ones c.free = w ∧ (c.rowSet w).card = 2 ^ (w - c.literalCount)) ∧
    (∀ c d, Cube.Built w c → Cube.Built w d → c.rowSet w = d.rowSet w → c = d) ∧
    ∀ c d e, Cube.Built w c → Cube.Built w d → c.combine d = some e →
      e.rowSet w = c.rowSet w ∪ d.rowSet w ∧ Disjoint (c.rowSet w) (d.rowSet w) ∧
        d.combine c = some e ∧
        e.literalCount + 1 = c.literalCount ∧ e.literalCount + 1 = d.literalCount := by
  refine ⟨fun c hc => ?_, fun c d hc hd => (hc.fits hw).eq_of_rowSet_eq (hd.fits hw) hw,
    fun c d e hc hd hcombine => ?_⟩
  · have hfits := hc.fits hw
    have hcount := hfits.literalCount_add_ones hw
    refine ⟨?_, (hfits.covers_bits hw).1, ?_, hcount, ?_⟩
    · refine Word.ext fun place _ => ?_
      rw [Word.digit_and, Word.digit_zero]
      cases hfree : Word.digit c.free place with
      | false => rw [Bool.and_false]
      | true => rw [hfits.bits_eq_false place hfree, Bool.false_and]
    · refine Nat.lt_pow_two_of_testBit _ fun place hplace => ?_
      by_contra hone
      have hlt := hfits.free_lt place (Bool.eq_true_of_not_eq_false hone)
      omega
    · rw [hfits.card_rowSet hw]
      congr 1
      omega
  · have hfits := hc.fits hw
    obtain ⟨place, hp, hcell, rfl, rfl⟩ := hfits.exists_of_combine (hd.fits hw) hw hcombine
    have hless := hfits.literalCount_put_none hw hp hcell
    exact ⟨hfits.rowSet_put_none hw hp hcell, hfits.disjoint_rowSet_flip hw hp hcell,
      Cube.combine_comm c _ ▸ hcombine, hless, hless⟩

/-- The union of two rows of three variables, its neighbour, and the union of both, which has four
rows. The neighbour can also be built from its own rows. -/
theorem built_normal_four_rows :
    3 ≤ 32 ∧ Cube.Built 3 ⟨3, 4, 2⟩ ∧ Cube.Built 3 ⟨3, 5, 2⟩ ∧
      (Cube.mk 3 4 2).combine ⟨3, 5, 2⟩ = some ⟨3, 4, 3⟩ ∧
      (Cube.mk 3 4 3).rowSet 3 = (Cube.mk 3 4 2).rowSet 3 ∪ (Cube.mk 3 5 2).rowSet 3 ∧
      (Cube.mk 3 4 3).literalCount + 1 = (Cube.mk 3 4 2).literalCount ∧
      Cube.Built 3 ⟨3, 4, 3⟩ ∧ ((Cube.mk 3 4 3).rowSet 3).card = 2 ^ (3 - 1) ∧
      ∃ c, Cube.Built 3 c ∧ c.rowSet 3 = (Cube.mk 3 5 2).rowSet 3 ∧ c = ⟨3, 5, 2⟩ := by
  obtain ⟨hnormal, hext, hunion⟩ := built_normal (show 3 ≤ 32 by decide)
  have hc : Cube.Built 3 ⟨3, 4, 2⟩ :=
    .union (.row (show 4 < 2 ^ 3 by decide)) (.row (show 6 < 2 ^ 3 by decide)) rfl
  have hd : Cube.Built 3 ⟨3, 5, 2⟩ := .neighbour hc (by decide)
  have hcombine : (Cube.mk 3 4 2).combine ⟨3, 5, 2⟩ = some ⟨3, 4, 3⟩ := rfl
  have he : Cube.Built 3 ⟨3, 4, 3⟩ := .union hc hd hcombine
  obtain ⟨hrows, -, -, hless, -⟩ := hunion _ _ _ hc hd hcombine
  have hrebuilt : Cube.Built 3 ⟨3, 5, 2⟩ :=
    .union (.row (show 7 < 2 ^ 3 by decide)) (.row (show 5 < 2 ^ 3 by decide)) rfl
  exact ⟨by decide, hc, hd, hcombine, hrows, hless, he, (hnormal _ he).2.2.2.2, _, hrebuilt, rfl,
    hext _ _ hrebuilt hd rfl⟩

end TwoLevel
