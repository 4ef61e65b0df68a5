import TwoLevel.Proofs.Cube.Cells

/-!
# Implicants and primes

This file says what it means that a cube lies within a set of rows, and that it is largest with
this property. Every implicant lies within a prime, which has no more literals; and below an
implicant there are implicants with any smaller number of free variables.

## Main definitions

- `Cube.Implicant` — a cube that covers only rows of a set
- `Cube.IsPrime` — an implicant of which no place can be freed

## Main statements

- `Cube.Implicant.exists_isPrime` — every implicant lies within a prime
- `Cube.exists_isPrime_covers` — every listed row is covered by a prime
- `Cube.Implicant.exists_ones_free_eq` — implicants with fewer free variables
-/

namespace TwoLevel

namespace Cube

/-- A cube over `w` variables all of whose rows are among the given ones. -/
structure Implicant (c : Cube) (w : Nat) (rows : List Nat) : Prop where
  fits : c.Fits w
  subset : ∀ row < 2 ^ w, c.covers row = true → row ∈ rows

/-- An implicant that is no longer one when any of its places is freed. -/
structure IsPrime (c : Cube) (w : Nat) (rows : List Nat) : Prop extends Implicant c w rows where
  maximal : ∀ place < w, c.cell place ≠ none → ¬(c.put place none).Implicant w rows

variable {c : Cube} {w : Nat} {rows : List Nat}

theorem Implicant.mono (hc : c.Implicant w rows) {rows' : List Nat} (h : rows ⊆ rows') :
    c.Implicant w rows' :=
  ⟨hc.fits, fun row hrow hcov => h (hc.subset row hrow hcov)⟩

theorem isPrime_congr {rows' : List Nat} (h : rows.Perm rows') :
    c.IsPrime w rows ↔ c.IsPrime w rows' :=
  ⟨fun hc => ⟨hc.mono h.subset, fun place hplace hcell hbig =>
      hc.maximal place hplace hcell (hbig.mono h.symm.subset)⟩,
    fun hc => ⟨hc.mono h.symm.subset, fun place hplace hcell hbig =>
      hc.maximal place hplace hcell (hbig.mono h.subset)⟩⟩

theorem covers_ofRow (hw : w ≤ 32) {row other : Nat} (hrow : row < 2 ^ w) (hother : other < 2 ^ w) :
    (ofRow row w).covers other = true ↔ other = row := by
  rw [(fits_ofRow hrow).covers_iff hw hother]
  constructor
  · intro h
    apply Nat.eq_of_testBit_eq
    intro p
    by_cases hp : p < w
    · exact h p hp _ (cell_ofRow hw hp)
    · have hp : w ≤ p := Nat.le_of_not_lt hp
      rw [testBit_eq_false_of_le hrow hp, testBit_eq_false_of_le hother hp]
  · rintro rfl p hp value hcell
    rw [cell_ofRow hw hp] at hcell
    exact Option.some.inj hcell

theorem implicant_ofRow (hw : w ≤ 32) {row : Nat} (hrow : row < 2 ^ w) (hmem : row ∈ rows) :
    (ofRow row w).Implicant w rows := by
  refine ⟨fits_ofRow hrow, fun other hother hcov => ?_⟩
  rw [(covers_ofRow hw hrow hother).1 hcov]
  exact hmem

/-- An implicant without free variables is the cube of a listed row. -/
theorem Implicant.eq_ofRow (hc : c.Implicant w rows) (hw : w ≤ 32) (hfull : Word.ones c.free = 0) :
    ∃ row ∈ rows, row < 2 ^ w ∧ c = ofRow row w := by
  obtain ⟨hlt, hcov⟩ := hc.fits.covers_bits hw
  refine ⟨c.bits.toNat, hc.subset _ hlt hcov, hlt, hc.fits.ext (fits_ofRow hlt) fun p hp => ?_⟩
  rw [cell_ofRow hw hp]
  rw [hc.fits.ones_free hw, List.countP_eq_zero] at hfull
  have hfixed : ¬c.cell p = none := by simpa using hfull p (List.mem_range.2 hp)
  obtain ⟨value, hvalue⟩ := Option.ne_none_iff_exists'.1 hfixed
  rw [hvalue, (hc.fits.covers_iff hw hlt).1 hcov p hp value hvalue]

theorem Implicant.put_some (hc : c.Implicant w rows) (hw : w ≤ 32) {place : Nat} (hp : place < w)
    (hfree : c.cell place = none) (value : Bool) :
    (c.put place (some value)).Implicant w rows := by
  refine ⟨hc.fits.put hw place _, fun row hrow hcov => hc.subset row hrow ?_⟩
  exact ((hc.fits.covers_put_some hw hrow hp hfree value).1 hcov).1

/-- A cube with a freed place is an implicant when both cubes are that differ at this place. -/
theorem Fits.implicant_put_none (hc : c.Fits w) (hw : w ≤ 32) {place : Nat} (hp : place < w)
    (hcell : c.cell place ≠ none) :
    (c.put place none).Implicant w rows ↔
      c.Implicant w rows ∧ (c.flip place).Implicant w rows := by
  obtain ⟨value, hvalue⟩ := Option.ne_none_iff_exists'.1 hcell
  constructor
  · intro h
    refine ⟨⟨hc, fun row hrow hcov => ?_⟩, ⟨?_, fun row hrow hcov => ?_⟩⟩
    · exact h.subset row hrow ((hc.covers_put_none_iff hw hrow hp hvalue).2 (.inl hcov))
    · rw [hc.flip_eq_put hp hvalue]
      exact hc.put hw place _
    · exact h.subset row hrow ((hc.covers_put_none_iff hw hrow hp hvalue).2 (.inr hcov))
  · rintro ⟨hself, hflip⟩
    refine ⟨hc.put hw place none, fun row hrow hcov => ?_⟩
    rcases (hc.covers_put_none_iff hw hrow hp hvalue).1 hcov with h | h
    · exact hself.subset row hrow h
    · exact hflip.subset row hrow h

/-- Every implicant lies within a prime, which has no more literals. -/
theorem Implicant.exists_isPrime (hc : c.Implicant w rows) (hw : w ≤ 32) :
    ∃ p : Cube, p.IsPrime w rows ∧ (∀ row < 2 ^ w, c.covers row = true → p.covers row = true) ∧
      p.literalCount ≤ c.literalCount := by
  -- Free places as long as the cube remains an implicant; each step takes a literal away.
  induction hn : c.literalCount using Nat.strong_induction_on generalizing c with
  | _ n ih =>
    by_cases hfree : ∃ place < w, c.cell place ≠ none ∧ (c.put place none).Implicant w rows
    · obtain ⟨place, hp, hcell, himp⟩ := hfree
      have hfewer := hc.fits.literalCount_put_none hw hp hcell
      obtain ⟨p, hprime, hcov, hlit⟩ := ih _ (by omega) himp rfl
      refine ⟨p, hprime, fun row hrow h => ?_, by omega⟩
      exact hcov row hrow (hc.fits.covers_put_none hw hrow hp h)
    · refine ⟨c, ⟨hc, fun place hp hcell himp => ?_⟩, fun _ _ h => h, by omega⟩
      exact hfree ⟨place, hp, hcell, himp⟩

/-- Every listed row is covered by a prime. -/
theorem exists_isPrime_covers (hw : w ≤ 32) {row : Nat} (hrow : row < 2 ^ w) (hmem : row ∈ rows) :
    ∃ p : Cube, p.IsPrime w rows ∧ p.covers row = true := by
  obtain ⟨p, hp, hcov, -⟩ := (implicant_ofRow hw hrow hmem).exists_isPrime hw
  exact ⟨p, hp, hcov row hrow ((covers_ofRow hw hrow hrow).2 rfl)⟩

/-- A prime has no literals exactly if all rows are listed. -/
theorem IsPrime.literalCount_eq_zero_iff (hc : c.IsPrime w rows) (hw : w ≤ 32) :
    c.literalCount = 0 ↔ ∀ row < 2 ^ w, row ∈ rows := by
  have hfree : c.literalCount = 0 ↔ ∀ place < w, c.cell place = none := by
    simp [hc.fits.literalCount_eq hw]
  rw [hfree]
  constructor
  · intro hnone row hrow
    refine hc.subset row hrow ((hc.fits.covers_iff hw hrow).2 fun place hp value hvalue => ?_)
    rw [hnone place hp] at hvalue
    cases hvalue
  · intro hall place hp
    by_contra hcell
    exact hc.maximal place hp hcell ⟨hc.fits.put hw place none, fun row hrow _ => hall row hrow⟩

/-- Below an implicant there are implicants with any smaller number of free variables. -/
theorem Implicant.exists_ones_free_eq (hc : c.Implicant w rows) (hw : w ≤ 32) {k : Nat}
    (hk : k ≤ Word.ones c.free) : ∃ d : Cube, d.Implicant w rows ∧ Word.ones d.free = k := by
  induction hn : Word.ones c.free - k generalizing c with
  | zero => exact ⟨c, hc, by omega⟩
  | succ n ih =>
    -- Fixing a free place leaves an implicant, with one free variable less.
    obtain ⟨place, hp, hfree⟩ := hc.fits.exists_cell_eq_none hw (by omega)
    have hones := hc.fits.ones_put_some hw hp hfree false
    exact ih (hc.put_some hw hp hfree false) (by omega) (by omega)

end Cube

end TwoLevel
