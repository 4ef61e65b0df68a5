import TwoLevel.Proofs.Cube.Implicant

/-!
# Cubes as sets of rows

This file sees a cube that fits as the set of the rows that it covers. Freeing a fixed place joins
this set with that of the cube that differs there, and the two are disjoint; so the number of rows
doubles with every free place. Cubes that fit correspond to subcubes, the sets of rows that agree
with some row outside of a set of places.

## Main definitions

- `Cube.rowSet` — the rows that a cube covers
- `IsSubcube` — a set of rows that agree outside of some places

## Main statements

- `Cube.Fits.rowSet_put_none` — freeing a place
- `Cube.Fits.card_rowSet` — the number of rows of a cube
- `Cube.Fits.eq_of_rowSet_eq` — cubes with the same rows are equal
- `Cube.Fits.isSubcube_rowSet`, `IsSubcube.exists_rowSet_eq` — cubes and subcubes
- `bijOn_rowSet` — implicants and the subcubes within some rows
-/

namespace TwoLevel

namespace Cube

/-- The rows below `2 ^ w` that a cube covers. -/
def rowSet (c : Cube) (w : Nat) : Finset Nat :=
  (Finset.range (2 ^ w)).filter fun row => c.covers row = true

variable {c d : Cube} {w place row : Nat} {rows : List Nat}

theorem mem_rowSet : row ∈ c.rowSet w ↔ row < 2 ^ w ∧ c.covers row = true := by
  rw [rowSet, Finset.mem_filter, Finset.mem_range]

theorem Fits.implicant_iff_rowSet (hc : c.Fits w) :
    c.Implicant w rows ↔ ∀ row ∈ c.rowSet w, row ∈ rows := by
  simp only [mem_rowSet, and_imp]
  exact ⟨fun h => h.subset, fun h => ⟨hc, h⟩⟩

theorem Fits.implicant_range (hc : c.Fits w) : c.Implicant w (List.range (2 ^ w)) :=
  ⟨hc, fun _ hrow _ => List.mem_range.2 hrow⟩

/-! ### Freeing a place -/

theorem Fits.flip (hc : c.Fits w) (hw : w ≤ 32) (hp : place < w) (hcell : c.cell place ≠ none) :
    (c.flip place).Fits w := by
  obtain ⟨value, hvalue⟩ := Option.ne_none_iff_exists'.1 hcell
  rw [hc.flip_eq_put hp hvalue]
  exact hc.put hw place _

/-- A cube with a freed place has the rows of the two cubes that differ at this place. -/
theorem Fits.rowSet_put_none (hc : c.Fits w) (hw : w ≤ 32) (hp : place < w)
    (hcell : c.cell place ≠ none) :
    (c.put place none).rowSet w = c.rowSet w ∪ (c.flip place).rowSet w := by
  obtain ⟨value, hvalue⟩ := Option.ne_none_iff_exists'.1 hcell
  ext row
  rw [Finset.mem_union, mem_rowSet, mem_rowSet, mem_rowSet, ← and_or_left]
  exact and_congr_right fun hrow => hc.covers_put_none_iff hw hrow hp hvalue

/-- No row lies in both of two cubes that differ at a place. -/
theorem Fits.disjoint_rowSet_flip (hc : c.Fits w) (hw : w ≤ 32) (hp : place < w)
    (hcell : c.cell place ≠ none) : Disjoint (c.rowSet w) ((c.flip place).rowSet w) := by
  obtain ⟨value, hvalue⟩ := Option.ne_none_iff_exists'.1 hcell
  refine Finset.disjoint_left.2 fun row hself hflip => ?_
  obtain ⟨hrow, hself⟩ := mem_rowSet.1 hself
  obtain ⟨-, hflip⟩ := mem_rowSet.1 hflip
  rw [hc.flip_eq_put hp hvalue, hc.covers_put hw hrow hp] at hflip
  have hbit := (hc.covers_iff hw hrow).1 hself place hp value hvalue
  rw [hflip.1 _ rfl] at hbit
  exact Bool.not_ne_self value hbit

/-- The number of rows of a cube doubles with every free place. -/
theorem Fits.card_rowSet (hc : c.Fits w) (hw : w ≤ 32) :
    (c.rowSet w).card = 2 ^ Word.ones c.free := by
  induction hn : Word.ones c.free generalizing c with
  | zero =>
    obtain ⟨row, -, hrow, rfl⟩ := hc.implicant_range.eq_ofRow hw hn
    refine Finset.card_eq_one.2 ⟨row, Finset.ext fun other => ?_⟩
    rw [mem_rowSet, Finset.mem_singleton]
    constructor
    · rintro ⟨hother, hcov⟩
      exact (covers_ofRow hw hrow hother).1 hcov
    · rintro rfl
      exact ⟨hrow, (covers_ofRow hw hrow hrow).2 rfl⟩
  | succ n ih =>
    -- The cube is joined from its two halves at a free place.
    obtain ⟨place, hp, hfree⟩ := hc.exists_cell_eq_none hw (by omega)
    have hlow := hc.put hw place (some false)
    have hcell : (c.put place (some false)).cell place ≠ none := by
      rw [hc.cell_put hw hp, if_pos rfl]
      exact Option.some_ne_none false
    have hones := hc.ones_put_some hw hp hfree false
    have hflip : Word.ones ((c.put place (some false)).flip place).free =
        Word.ones (c.put place (some false)).free := rfl
    rw [← hc.put_some_put_none hw hfree false, hlow.rowSet_put_none hw hp hcell,
      Finset.card_union_of_disjoint (hlow.disjoint_rowSet_flip hw hp hcell), ih hlow (by omega),
      ih (hlow.flip hw hp hcell) (by omega), pow_succ, Nat.mul_two]

theorem Fits.ones_free_le (hc : c.Fits w) (hw : w ≤ 32) : Word.ones c.free ≤ w := by
  rw [hc.ones_free hw]
  exact List.countP_le_length.trans_eq List.length_range

/-- The fixed and the free places of a cube are all places. -/
theorem Fits.literalCount_add_ones (hc : c.Fits w) (hw : w ≤ 32) :
    c.literalCount + Word.ones c.free = w := by
  have hle := hc.ones_free_le hw
  rw [literalCount, hc.width_eq]
  omega

/-! ### Cubes with the same rows -/

/-- At a free place a cube has rows with either digit. -/
theorem Fits.exists_mem_rowSet (hc : c.Fits w) (hw : w ≤ 32) (hp : place < w)
    (hfree : c.cell place = none) (value : Bool) :
    ∃ row ∈ c.rowSet w, row.testBit place = value := by
  obtain ⟨hrow, hcov⟩ := (hc.put hw place (some value)).covers_bits hw
  obtain ⟨hself, hbit⟩ := (hc.covers_put_some hw hrow hp hfree value).1 hcov
  exact ⟨_, mem_rowSet.2 ⟨hrow, hself⟩, hbit⟩

/-- A cube requires a value at a place exactly if all its rows have this digit. -/
theorem Fits.cell_eq_some_iff (hc : c.Fits w) (hw : w ≤ 32) (hp : place < w) {value : Bool} :
    c.cell place = some value ↔ ∀ row ∈ c.rowSet w, row.testBit place = value := by
  constructor
  · intro hcell row hrow
    obtain ⟨hrow, hcov⟩ := mem_rowSet.1 hrow
    exact (hc.covers_iff hw hrow).1 hcov place hp value hcell
  · intro hall
    cases hcell : c.cell place with
    | none =>
      obtain ⟨row, hrow, hbit⟩ := hc.exists_mem_rowSet hw hp hcell !value
      rw [hall row hrow] at hbit
      exact absurd hbit.symm (Bool.not_ne_self value)
    | some other =>
      obtain ⟨hrow, hcov⟩ := hc.covers_bits hw
      rw [← (hc.covers_iff hw hrow).1 hcov place hp other hcell,
        hall _ (mem_rowSet.2 ⟨hrow, hcov⟩)]

/-- Cubes that fit are equal when they cover the same rows. -/
theorem Fits.eq_of_rowSet_eq (hc : c.Fits w) (hd : d.Fits w) (hw : w ≤ 32)
    (h : c.rowSet w = d.rowSet w) : c = d := by
  refine hc.ext hd fun place hp => Option.ext fun value => ?_
  rw [hc.cell_eq_some_iff hw hp, hd.cell_eq_some_iff hw hp, h]

/-! ### Free places -/

/-- The places below `w` at which a cube requires nothing. -/
def freePlaces (c : Cube) (w : Nat) : Finset Nat :=
  (Finset.range w).filter fun place => c.cell place = none

theorem mem_freePlaces : place ∈ c.freePlaces w ↔ place < w ∧ c.cell place = none := by
  rw [freePlaces, Finset.mem_filter, Finset.mem_range]

theorem Fits.card_freePlaces (hc : c.Fits w) (hw : w ≤ 32) :
    (c.freePlaces w).card = Word.ones c.free := by
  have hlist : c.freePlaces w =
      ((List.range w).filter fun place => (c.cell place).isNone).toFinset := by
    ext place
    simp [mem_freePlaces]
  rw [hlist, List.toFinset_card_of_nodup (List.nodup_range.filter _),
    ← List.countP_eq_length_filter, hc.ones_free hw]

end Cube

/-! ### Subcubes -/

/-- A subcube of dimension `k` among the rows below `2 ^ w`: the rows that agree with one of them
outside of `k` places. -/
def IsSubcube (w k : Nat) (rows : Finset Nat) : Prop :=
  ∃ free ⊆ Finset.range w, free.card = k ∧ ∃ base < 2 ^ w, ∀ row, row ∈ rows ↔
    row < 2 ^ w ∧ ∀ place < w, place ∉ free → row.testBit place = base.testBit place

variable {c : Cube} {w k : Nat} {rows : Finset Nat}

/-- The rows of a cube are a subcube. -/
theorem Cube.Fits.isSubcube_rowSet (hc : c.Fits w) (hw : w ≤ 32) :
    IsSubcube w (Word.ones c.free) (c.rowSet w) := by
  obtain ⟨hbase, hcov⟩ := hc.covers_bits hw
  refine ⟨c.freePlaces w, Finset.filter_subset _ _, hc.card_freePlaces hw, _, hbase, fun row => ?_⟩
  rw [mem_rowSet]
  refine and_congr_right fun hrow => (hc.covers_iff hw hrow).trans ?_
  constructor
  · intro hall place hp hfixed
    obtain ⟨value, hvalue⟩ : ∃ value, c.cell place = some value :=
      Option.ne_none_iff_exists'.1 fun hnone => hfixed (mem_freePlaces.2 ⟨hp, hnone⟩)
    rw [hall place hp value hvalue, (hc.covers_iff hw hbase).1 hcov place hp value hvalue]
  · intro hall place hp value hvalue
    rw [hall place hp fun hfree => by simp [(mem_freePlaces.1 hfree).2] at hvalue]
    exact (hc.covers_iff hw hbase).1 hcov place hp value hvalue

/-- Every subcube consists of the rows of a cube. -/
theorem IsSubcube.exists_rowSet_eq (h : IsSubcube w k rows) (hw : w ≤ 32) :
    ∃ c : Cube, c.Fits w ∧ Word.ones c.free = k ∧ c.rowSet w = rows := by
  obtain ⟨free, hsub, rfl, base, -, hmem⟩ := h
  obtain ⟨c, hc, hcell⟩ : ∃ c : Cube, c.Fits w ∧ ∀ place < w,
      c.cell place = if place ∈ free then none else some (base.testBit place) :=
    ⟨_, Cube.fits_ofCells hw _, fun _ hp => Cube.cell_ofCells hw _ hp⟩
  refine ⟨c, hc, ?_, Finset.ext fun row => ?_⟩
  · rw [← hc.card_freePlaces hw]
    refine congrArg Finset.card (Finset.ext fun place => ?_)
    rw [Cube.mem_freePlaces]
    constructor
    · rintro ⟨hp, hnone⟩
      by_contra hfixed
      simp [hcell place hp, hfixed] at hnone
    · intro hfree
      have hp : place < w := Finset.mem_range.1 (hsub hfree)
      exact ⟨hp, by rw [hcell place hp, if_pos hfree]⟩
  · rw [Cube.mem_rowSet, hmem]
    refine and_congr_right fun hrow => (hc.covers_iff hw hrow).trans ?_
    refine forall₂_congr fun place hp => ?_
    rw [hcell place hp]
    by_cases hfree : place ∈ free
    · simp [hfree]
    · simp [hfree]

/-- The implicants with `k` free variables correspond to the subcubes of dimension `k` that lie
within the rows. -/
theorem bijOn_rowSet (hw : w ≤ 32) (rows : List Nat) (k : Nat) :
    Set.BijOn (fun c => c.rowSet w) {c : Cube | c.Implicant w rows ∧ Word.ones c.free = k}
      {s | IsSubcube w k s ∧ ∀ row ∈ s, row ∈ rows} := by
  refine ⟨?_, ?_, ?_⟩
  · rintro c ⟨himp, rfl⟩
    exact ⟨himp.fits.isSubcube_rowSet hw, himp.fits.implicant_iff_rowSet.1 himp⟩
  · rintro c ⟨hc, -⟩ d ⟨hd, -⟩ heq
    exact hc.fits.eq_of_rowSet_eq hd.fits hw heq
  · rintro s ⟨hs, hsub⟩
    obtain ⟨c, hfits, hones, rfl⟩ := hs.exists_rowSet_eq hw
    exact ⟨c, ⟨hfits.implicant_iff_rowSet.2 hsub, hones⟩, rfl⟩

end TwoLevel
