/-!
# Words as sets of digits

This file sees a word of thirty-two binary digits as the set of the places at which it has a one.
The operations on words are described digit by digit; two words with the same digits are equal.

## Main definitions

- `Word` — words of thirty-two binary digits
- `Word.digit` — the digit at a place
- `Word.ofNat`, `Word.single` — the lowest digits of a number, and the word with a single one
- `Word.ones` — the number of digits that are one
-/

namespace TwoLevel

/-- Words of thirty-two binary digits. -/
abbrev Word := UInt32

namespace Word

/-- The digit of a word at a place, counted from the lowest. -/
def digit (w : Word) (place : Nat) : Bool := w.toNat.testBit place

/-- The lowest thirty-two digits of a number. -/
def ofNat (n : Nat) : Word := n.toUInt32

/-- The word with a one at a place and zeros elsewhere. -/
def single (place : Nat) : Word := ofNat (1 <<< place)

/-- The number of digits that are one. -/
def ones (w : Word) : Nat := (List.range 32).countP (digit w)

/-- There are no digits from place thirty-two on. -/
theorem digit_eq_false {w : Word} {place : Nat} (h : 32 ≤ place) : digit w place = false :=
  Nat.testBit_lt_two_pow (Nat.lt_of_lt_of_le w.toNat_lt (Nat.pow_le_pow_right (by omega) h))

/-- Two words with the same digits are equal. -/
theorem ext {v w : Word} (h : ∀ place < 32, digit v place = digit w place) : v = w := by
  apply UInt32.toNat.inj
  apply Nat.eq_of_testBit_eq
  intro place
  by_cases hp : place < 32
  · exact h place hp
  · exact (digit_eq_false (w := v) (by omega)).trans (digit_eq_false (w := w) (by omega)).symm

@[simp]
theorem digit_and (v w : Word) (place : Nat) :
    digit (v &&& w) place = (digit v place && digit w place) := by
  simp [digit]

@[simp]
theorem digit_or (v w : Word) (place : Nat) :
    digit (v ||| w) place = (digit v place || digit w place) := by
  simp [digit]

@[simp]
theorem digit_xor (v w : Word) (place : Nat) :
    digit (v ^^^ w) place = (digit v place ^^ digit w place) := by
  simp [digit]

theorem digit_not {place : Nat} (h : place < 32) (w : Word) :
    digit (~~~w) place = !digit w place := by
  have hnot : (~~~w.toBitVec).getLsbD place = !w.toBitVec.getLsbD place := by
    simp [h]
  exact hnot

@[simp]
theorem digit_zero (place : Nat) : digit 0 place = false := by simp [digit]

theorem digit_ofNat (n place : Nat) :
    digit (ofNat n) place = (decide (place < 32) && n.testBit place) := by
  show (n % 2 ^ 32).testBit place = _
  rw [Nat.testBit_mod_two_pow]

/-- The only digit one of a single word. -/
theorem digit_single (place other : Nat) :
    digit (single place) other = (decide (other < 32) && decide (place = other)) := by
  rw [single, digit_ofNat, Nat.one_shiftLeft, Nat.testBit_two_pow]

/-- A single word with a one has it at a place below thirty-two. -/
theorem lt_of_ones_single {place : Nat} (h : ones (single place) = 1) : place < 32 := by
  apply Classical.byContradiction
  intro hge
  have hzero : ∀ p ∈ List.range 32, ¬digit (single place) p = true := by
    intro p hp
    have hp : p < 32 := List.mem_range.1 hp
    simp [digit_single, show place ≠ p by omega]
  rw [ones, List.countP_eq_zero.2 hzero] at h
  omega

end Word

end TwoLevel
