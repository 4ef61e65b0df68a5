import TwoLevel.Cube.Basic
import TwoLevel.Proofs.Assignment

/-!
# Cubes place by place

This file sees a cube as what it requires at each place of its words: a value, or nothing at a free
place. A cube fits a number of variables when its words hold nothing beyond them and no value at a
free place. Such a cube is determined by its cells, and it covers the rows that have the required
digits.

## Main definitions

- `Cube.cell` — what a cube requires at a place
- `Cube.Fits` — a cube whose words are clean
- `Cube.ofCells`, `Cube.put` — the cube with given cells, and a cube with one cell changed

## Main statements

- `Cube.Fits.ext` — cubes that fit are equal when their cells are
- `Cube.Fits.covers_iff` — the rows of a cube that fits
- `Cube.Fits.combine_flip` — two cubes that differ in one cell are combined by freeing it
-/

namespace TwoLevel

namespace Word

/-- The word with given digits. -/
def ofDigits (f : Nat → Bool) : Word := ofNat (Nat.ofBits fun i : Fin 32 => f i)

theorem digit_ofDigits (f : Nat → Bool) {place : Nat} (h : place < 32) :
    digit (ofDigits f) place = f place := by
  rw [ofDigits, digit_ofNat, Nat.testBit_ofBits_lt _ _ h]
  simp [h]

theorem of_digit_ofDigits {w place : Nat} {g : Nat → Bool}
    (h : digit (ofDigits fun q => decide (q < w) && g q) place = true) :
    place < w ∧ g place = true := by
  by_cases hp : place < 32
  · rw [digit_ofDigits _ hp] at h
    simpa using h
  · rw [digit_eq_false (by omega)] at h
    cases h

/-- Setting a digit that is zero makes one more digit one. -/
theorem ones_or_single {w : Word} {place : Nat} (hlt : place < 32)
    (hzero : digit w place = false) : ones (w ||| single place) = ones w + 1 := by
  have hsplit : ∀ p ∈ List.range 32,
      digit (w ||| single place) p = (digit w p || decide (p = place)) := by
    intro p hp
    have hp : p < 32 := List.mem_range.1 hp
    simp [digit_single, hp, eq_comm]
  have hcount : (List.range 32).countP (fun p => digit w p || decide (p = place)) =
      (List.range 32).countP (digit w) + (List.range 32).countP (· = place) := by
    generalize List.range 32 = places
    induction places with
    | nil => rfl
    | cons p ps ih =>
      simp only [List.countP_cons, ih]
      by_cases hp : p = place
      · subst hp
        simp [hzero]
        omega
      · simp [hp]
        omega
  have hone : (List.range 32).countP (· = place) = 1 := by
    rw [← List.count_eq_one_of_mem List.nodup_range (List.mem_range.2 hlt), List.count]
    exact List.countP_congr (by simp)
  rw [ones, ones, List.countP_congr (by intro p hp; rw [hsplit p hp]), hcount, hone]

theorem ones_single {place : Nat} (hlt : place < 32) : ones (single place) = 1 := by
  have hzero : ones 0 = 0 := by simp [ones]
  have hor : (0 : Word) ||| single place = single place := ext fun p _ => by simp
  rw [← hor, ones_or_single hlt (digit_zero place), hzero]

end Word

namespace Cube

/-- What a cube requires at a place of its words: nothing at a free place. -/
def cell (c : Cube) (place : Nat) : Option Bool :=
  if Word.digit c.free place then none else some (Word.digit c.bits place)

/-- A cube over `w` variables whose words are clean: a free digit has no value, and there are no
digits beyond the variables. -/
structure Fits (c : Cube) (w : Nat) : Prop where
  width_eq : c.width = w
  bits_eq_false : ∀ place, Word.digit c.free place = true → Word.digit c.bits place = false
  free_lt : ∀ place, Word.digit c.free place = true → place < w
  bits_lt : ∀ place, Word.digit c.bits place = true → place < w

/-- The cube over `w` variables with given cells. -/
def ofCells (w : Nat) (f : Nat → Option Bool) : Cube :=
  ⟨w, Word.ofDigits fun place => decide (place < w) && f place == some true,
    Word.ofDigits fun place => decide (place < w) && (f place).isNone⟩

/-- A cube with one cell changed. -/
def put (c : Cube) (place : Nat) (value : Option Bool) : Cube :=
  ofCells c.width (Function.update c.cell place value)

variable {c d : Cube} {w place row : Nat}

theorem cell_eq_none : c.cell place = none ↔ Word.digit c.free place = true := by
  by_cases h : Word.digit c.free place <;> simp [cell, h]

theorem cell_eq_some {value : Bool} : c.cell place = some value ↔
    Word.digit c.free place = false ∧ Word.digit c.bits place = value := by
  by_cases h : Word.digit c.free place <;> simp [cell, h]

/-- What a cube requires at a position is the cell at its place. -/
theorem Fits.value?_eq (hc : c.Fits w) (position : Nat) :
    c.value? position = c.cell (w - 1 - position) := by
  rw [← hc.width_eq]
  rfl

/-- A cube that fits has no value beyond its variables. -/
theorem Fits.bits_eq_false_of_le (hc : c.Fits w) (hp : w ≤ place) :
    Word.digit c.bits place = false := by
  by_contra hone
  have hlt := hc.bits_lt place (Bool.eq_true_of_not_eq_false hone)
  omega

/-- Cubes that fit are equal when they require the same at every place. -/
theorem Fits.ext (hc : c.Fits w) (hd : d.Fits w) (h : ∀ place < w, c.cell place = d.cell place) :
    c = d := by
  have hfree : c.free = d.free := by
    apply Word.ext
    intro p _
    rw [Bool.eq_iff_iff]
    constructor
    · intro hp
      rwa [← cell_eq_none, ← h p (hc.free_lt p hp), cell_eq_none]
    · intro hp
      rwa [← cell_eq_none, h p (hd.free_lt p hp), cell_eq_none]
  have hbits : c.bits = d.bits := by
    apply Word.ext
    intro p _
    by_cases hp : p < w
    · by_cases hf : Word.digit c.free p
      · rw [hc.bits_eq_false p hf, hd.bits_eq_false p (hfree ▸ hf)]
      · have hcell := h p hp
        simpa [cell, hf, hfree ▸ hf] using hcell
    · rw [hc.bits_eq_false_of_le (by omega), hd.bits_eq_false_of_le (by omega)]
  cases c
  cases d
  simp only [mk.injEq]
  exact ⟨hc.width_eq.trans hd.width_eq.symm, hbits, hfree⟩

theorem fits_ofCells (hw : w ≤ 32) (f : Nat → Option Bool) : (ofCells w f).Fits w := by
  constructor
  · rfl
  · intro p hp
    simp only [ofCells] at hp ⊢
    obtain ⟨hpw, hnone⟩ := Word.of_digit_ofDigits hp
    rw [Option.isNone_iff_eq_none] at hnone
    rw [Word.digit_ofDigits _ (by omega), hnone]
    simp
  · intro p hp
    simp only [ofCells] at hp
    exact (Word.of_digit_ofDigits hp).1
  · intro p hp
    simp only [ofCells] at hp
    exact (Word.of_digit_ofDigits hp).1

theorem cell_ofCells (hw : w ≤ 32) (f : Nat → Option Bool) (hp : place < w) :
    (ofCells w f).cell place = f place := by
  have h32 : place < 32 := by omega
  rw [cell, ofCells, Word.digit_ofDigits _ h32, Word.digit_ofDigits _ h32]
  cases hf : f place with
  | none => simp [hp]
  | some value => cases value <;> simp [hp]

theorem Fits.put (hc : c.Fits w) (hw : w ≤ 32) (place : Nat) (value : Option Bool) :
    (c.put place value).Fits w := by
  rw [Cube.put, hc.width_eq]
  exact fits_ofCells hw _

theorem Fits.cell_put (hc : c.Fits w) (hw : w ≤ 32) {other : Nat} (ho : other < w)
    (place : Nat) (value : Option Bool) :
    (c.put place value).cell other = if other = place then value else c.cell other := by
  rw [Cube.put, hc.width_eq, cell_ofCells hw _ ho, Function.update_apply]

/-- A row lies in a cube that fits when it has all required digits. -/
theorem Fits.covers_iff (hc : c.Fits w) (hw : w ≤ 32) (hrow : row < 2 ^ w) :
    c.covers row = true ↔
      ∀ place < w, ∀ value, c.cell place = some value → row.testBit place = value := by
  have hdigit : ∀ {p : Nat}, p < 32 →
      Word.digit (Word.ofNat row &&& ~~~c.free) p =
        (row.testBit p && !Word.digit c.free p) := by
    intro p hp
    rw [Word.digit_and, Word.digit_ofNat, Word.digit_not hp]
    simp [hp]
  rw [covers, beq_iff_eq]
  constructor
  · intro h p hp value hcell
    obtain ⟨hfree, hbits⟩ := cell_eq_some.1 hcell
    rw [← h, hdigit (by omega), hfree] at hbits
    simpa using hbits
  · intro h
    apply Word.ext
    intro p hp
    rw [hdigit hp]
    by_cases hfree : Word.digit c.free p
    · simp [hfree, hc.bits_eq_false p hfree]
    · by_cases hpw : p < w
      · have hcell : c.cell p = some (Word.digit c.bits p) := by simp [cell, hfree]
        simp [hfree, h p hpw _ hcell]
      · simp [testBit_eq_false_of_le hrow (by omega : w ≤ p),
          hc.bits_eq_false_of_le (by omega : w ≤ p)]

/-! ### Single rows -/

theorem fits_ofRow (hrow : row < 2 ^ w) : (ofRow row w).Fits w := by
  refine ⟨rfl, by simp [ofRow], by simp [ofRow], ?_⟩
  intro p hp
  rw [ofRow, Word.digit_ofNat] at hp
  by_contra hpw
  simp [testBit_eq_false_of_le hrow (by omega : w ≤ p)] at hp

theorem cell_ofRow (hw : w ≤ 32) (hp : place < w) :
    (ofRow row w).cell place = some (row.testBit place) := by
  simp [cell, ofRow, Word.digit_ofNat, show place < 32 by omega]

/-! ### Cubes that differ in one cell -/

/-- Cubes with one cell changed are recognized by the digits of their words. -/
theorem Fits.eq_put (hc : c.Fits w) (hp : place < w) {value : Option Bool} (hwidth : d.width = w)
    (hbits : ∀ p < 32, Word.digit d.bits p =
      if p = place then value == some true else Word.digit c.bits p)
    (hfree : ∀ p < 32, Word.digit d.free p =
      if p = place then value.isNone else Word.digit c.free p) : d = c.put place value := by
  have hput : ∀ p < 32, Word.digit (c.put place value).bits p = Word.digit d.bits p ∧
      Word.digit (c.put place value).free p = Word.digit d.free p := by
    intro p hp32
    rw [hbits p hp32, hfree p hp32, Cube.put, hc.width_eq, ofCells, Word.digit_ofDigits _ hp32,
      Word.digit_ofDigits _ hp32, Function.update_apply]
    by_cases hpp : p = place
    · subst hpp
      simp [hp]
    · by_cases hpf : Word.digit c.free p
      · simp [hpp, cell, hpf, hc.bits_eq_false p hpf, hc.free_lt p hpf]
      · by_cases hpb : Word.digit c.bits p
        · simp [hpp, cell, hpf, hpb, hc.bits_lt p hpb]
        · simp [hpp, cell, hpf, hpb]
  calc d = ⟨d.width, d.bits, d.free⟩ := rfl
    _ = ⟨c.width, (c.put place value).bits, (c.put place value).free⟩ := by
      rw [hwidth, hc.width_eq, Word.ext fun p hp32 => (hput p hp32).1,
        Word.ext fun p hp32 => (hput p hp32).2]
    _ = c.put place value := rfl

/-- Changing the digit of a fixed place changes the required value there. -/
theorem Fits.flip_eq_put (hc : c.Fits w) (hp : place < w) {value : Bool}
    (hcell : c.cell place = some value) : c.flip place = c.put place (some !value) := by
  obtain ⟨hfree, hbits⟩ := cell_eq_some.1 hcell
  refine hc.eq_put hp hc.width_eq (fun p hp32 => ?_) (fun p _ => ?_)
  · rw [flip, Word.digit_xor, Word.digit_single]
    by_cases hpp : p = place
    · subst hpp
      simp [hp32, hbits]
    · simp [hpp, Ne.symm hpp]
  · by_cases hpp : p = place
    · subst hpp
      simp [flip, hfree]
    · simp [hpp, flip]

/-- Freeing a fixed place clears its digit in the word of values and sets it in the other word. -/
theorem Fits.put_none_eq (hc : c.Fits w) (hp : place < w) :
    c.put place none =
      ⟨c.width, c.bits &&& ~~~Word.single place, c.free ||| Word.single place⟩ := by
  symm
  refine hc.eq_put hp hc.width_eq (fun p hp32 => ?_) (fun p hp32 => ?_)
  · by_cases hpp : p = place
    · subst hpp
      simp [Word.digit_not hp32, Word.digit_single, hp32]
    · simp [Word.digit_not hp32, Word.digit_single, hpp, Ne.symm hpp]
  · by_cases hpp : p = place
    · subst hpp
      simp [Word.digit_single, hp32]
    · simp [Word.digit_single, hpp, Ne.symm hpp]

/-- Two cubes that differ in one cell are combined into the cube where this cell is free. -/
theorem Fits.combine_flip (hc : c.Fits w) (hw : w ≤ 32) (hp : place < w) :
    c.combine (c.flip place) = some (c.put place none) := by
  have hdiff : c.bits ^^^ (c.flip place).bits = Word.single place :=
    Word.ext fun p _ => by simp [flip]
  rw [combine, hdiff, if_pos ⟨rfl, rfl, Word.ones_single (by omega)⟩, hc.put_none_eq hp]

/-! ### Rows and cells -/

/-- A row lies in a cube of which one cell was changed when it has the digit required there and
all other required digits. -/
theorem Fits.covers_put (hc : c.Fits w) (hw : w ≤ 32) (hrow : row < 2 ^ w) (hp : place < w)
    (value : Option Bool) :
    (c.put place value).covers row = true ↔ (∀ b, value = some b → row.testBit place = b) ∧
      ∀ p < w, p ≠ place → ∀ b, c.cell p = some b → row.testBit p = b := by
  rw [(hc.put hw place value).covers_iff hw hrow]
  constructor
  · intro h
    refine ⟨fun b hb => h place hp b ?_, fun p hpw hpp b hb => h p hpw b ?_⟩
    · rw [hc.cell_put hw hp, if_pos rfl, hb]
    · rw [hc.cell_put hw hpw, if_neg hpp, hb]
  · rintro ⟨hplace, hother⟩ p hpw b hb
    rw [hc.cell_put hw hpw] at hb
    by_cases hpp : p = place
    · subst hpp
      exact hplace b (by simpa using hb)
    · rw [if_neg hpp] at hb
      exact hother p hpw hpp b hb

theorem Fits.covers_put_none (hc : c.Fits w) (hw : w ≤ 32) (hrow : row < 2 ^ w) (hp : place < w)
    (h : c.covers row = true) : (c.put place none).covers row = true := by
  rw [hc.covers_put hw hrow hp]
  exact ⟨by simp, fun p hpw _ b hb => (hc.covers_iff hw hrow).1 h p hpw b hb⟩

theorem Fits.covers_put_some (hc : c.Fits w) (hw : w ≤ 32) (hrow : row < 2 ^ w) (hp : place < w)
    (hfree : c.cell place = none) (value : Bool) :
    (c.put place (some value)).covers row = true ↔
      c.covers row = true ∧ row.testBit place = value := by
  rw [hc.covers_put hw hrow hp, hc.covers_iff hw hrow]
  constructor
  · rintro ⟨hplace, hother⟩
    refine ⟨fun p hpw b hb => hother p hpw ?_ b hb, hplace value rfl⟩
    rintro rfl
    rw [hfree] at hb
    cases hb
  · rintro ⟨hall, hplace⟩
    refine ⟨?_, fun p hpw _ b hb => hall p hpw b hb⟩
    rintro b ⟨⟩
    exact hplace

/-- A cube with a freed place covers what the two cubes cover that differ at this place. -/
theorem Fits.covers_put_none_iff (hc : c.Fits w) (hw : w ≤ 32) (hrow : row < 2 ^ w)
    (hp : place < w) {value : Bool} (hcell : c.cell place = some value) :
    (c.put place none).covers row = true ↔
      c.covers row = true ∨ (c.flip place).covers row = true := by
  rw [hc.flip_eq_put hp hcell, hc.covers_put hw hrow hp, hc.covers_put hw hrow hp,
    hc.covers_iff hw hrow]
  constructor
  · rintro ⟨-, hother⟩
    by_cases hbit : row.testBit place = value
    · refine .inl fun p hpw b hb => ?_
      by_cases hpp : p = place
      · subst hpp
        rw [hcell] at hb
        cases hb
        exact hbit
      · exact hother p hpw hpp b hb
    · refine .inr ⟨?_, hother⟩
      rintro b ⟨⟩
      cases value <;> simp_all
  · rintro (hall | ⟨-, hother⟩)
    · exact ⟨by simp, fun p hpw _ b hb => hall p hpw b hb⟩
    · exact ⟨by simp, hother⟩

/-- The values of a cube that fits form a row that it covers. -/
theorem Fits.covers_bits (hc : c.Fits w) (hw : w ≤ 32) :
    c.bits.toNat < 2 ^ w ∧ c.covers c.bits.toNat = true := by
  have hlt : c.bits.toNat < 2 ^ w := by
    exact Nat.lt_pow_two_of_testBit _ fun p hp => hc.bits_eq_false_of_le hp
  refine ⟨hlt, (hc.covers_iff hw hlt).2 fun p _ b hb => ?_⟩
  exact (cell_eq_some.1 hb).2

/-! ### Numbers of free and fixed places -/

theorem Fits.ones_free (hc : c.Fits w) (hw : w ≤ 32) :
    Word.ones c.free = (List.range w).countP fun p => (c.cell p).isNone := by
  have hsplit : List.range 32 = List.range w ++ (List.range (32 - w)).map (w + ·) := by
    rw [← List.range_add]
    congr 1
    omega
  have hhigh : (List.range (32 - w)).countP (Word.digit c.free ∘ (w + ·)) = 0 := by
    rw [List.countP_eq_zero]
    intro p _ hp
    have hlt : w + p < w := hc.free_lt _ hp
    omega
  rw [Word.ones, hsplit, List.countP_append, List.countP_map, hhigh, Nat.add_zero]
  apply List.countP_congr
  intro p _
  rw [Option.isNone_iff_eq_none, cell_eq_none]

/-- The literals of a cube are counted by the fixed cells. -/
theorem Fits.literalCount_eq (hc : c.Fits w) (hw : w ≤ 32) :
    c.literalCount = (List.range w).countP fun p => (c.cell p).isSome := by
  have hall := List.length_eq_countP_add_countP (fun p => (c.cell p).isNone) (l := List.range w)
  have hsome : (List.range w).countP (fun p => decide ¬(c.cell p).isNone = true) =
      (List.range w).countP fun p => (c.cell p).isSome := by
    apply List.countP_congr
    intro p _
    cases c.cell p <;> simp
  rw [hsome, List.length_range] at hall
  rw [literalCount, hc.width_eq, hc.ones_free hw]
  omega

theorem Fits.ones_put_none (hc : c.Fits w) (hw : w ≤ 32) (hp : place < w)
    (hcell : c.cell place ≠ none) : Word.ones (c.put place none).free = Word.ones c.free + 1 := by
  rw [hc.put_none_eq hp]
  refine Word.ones_or_single (by omega) ?_
  rwa [Ne, cell_eq_none, Bool.not_eq_true] at hcell

theorem Fits.literalCount_put_none (hc : c.Fits w) (hw : w ≤ 32) (hp : place < w)
    (hcell : c.cell place ≠ none) :
    (c.put place none).literalCount + 1 = c.literalCount := by
  have hpos : 0 < c.literalCount := by
    rw [hc.literalCount_eq hw, List.countP_pos_iff]
    exact ⟨place, List.mem_range.2 hp, Option.isSome_iff_ne_none.2 hcell⟩
  have hones := hc.ones_put_none hw hp hcell
  rw [literalCount, hc.width_eq] at hpos
  rw [literalCount, literalCount, hc.width_eq, (hc.put hw place none).width_eq]
  omega

theorem Fits.put_put (hc : c.Fits w) (hw : w ≤ 32) (place : Nat) (u v : Option Bool) :
    (c.put place u).put place v = c.put place v := by
  have hu := hc.put hw place u
  apply (hu.put hw place v).ext (hc.put hw place v)
  intro p hpw
  rw [hu.cell_put hw hpw, hc.cell_put hw hpw, hc.cell_put hw hpw]
  by_cases hpp : p = place
  · simp [hpp]
  · simp [hpp]

theorem Fits.put_eq_self (hc : c.Fits w) (hw : w ≤ 32) {v : Option Bool}
    (hcell : c.cell place = v) : c.put place v = c := by
  apply (hc.put hw place v).ext hc
  intro p hpw
  rw [hc.cell_put hw hpw]
  by_cases hpp : p = place
  · subst hpp
    simp [hcell]
  · simp [hpp]

/-! ### Fixing a free place -/

theorem Fits.exists_cell_eq_none (hc : c.Fits w) (hw : w ≤ 32) (hpos : 0 < Word.ones c.free) :
    ∃ place < w, c.cell place = none := by
  rw [hc.ones_free hw, List.countP_pos_iff] at hpos
  obtain ⟨place, hp, hfree⟩ := hpos
  exact ⟨place, List.mem_range.1 hp, Option.isNone_iff_eq_none.1 hfree⟩

/-- Fixing a free place can be undone. -/
theorem Fits.put_some_put_none (hc : c.Fits w) (hw : w ≤ 32) (hfree : c.cell place = none)
    (value : Bool) : (c.put place (some value)).put place none = c := by
  rw [hc.put_put hw, hc.put_eq_self hw hfree]

theorem Fits.ones_put_some (hc : c.Fits w) (hw : w ≤ 32) (hp : place < w)
    (hfree : c.cell place = none) (value : Bool) :
    Word.ones (c.put place (some value)).free + 1 = Word.ones c.free := by
  have hfixed : (c.put place (some value)).cell place ≠ none := by
    rw [hc.cell_put hw hp, if_pos rfl]
    exact Option.some_ne_none value
  rw [← (hc.put hw place (some value)).ones_put_none hw hp hfixed,
    hc.put_some_put_none hw hfree value]

end Cube

end TwoLevel
