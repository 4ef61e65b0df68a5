/-!
# Sets of letters

This file defines finite sets of variables. A variable is one of the twenty-six upper-case letters,
so a set is a sublist of the alphabet: ascending and without repetitions by its type. The order
decides which column of a truth table a letter has; the first letter is the most significant.

## Main definitions

- `alphabet` — the letters in ascending order
- `Letters` — a set of letters
- `Letters.ofChars` — the letters among some characters, in either case
- `Letters.indexOf?`, `Letters.get?` — from a letter to its place and back
- `Letters.rowCount` — the number of rows of a table over the letters
-/

namespace TwoLevel

/-- The upper-case letters in ascending order. -/
def alphabet : List Char :=
  ['A', 'B', 'C', 'D', 'E', 'F', 'G', 'H', 'I', 'J', 'K', 'L', 'M',
   'N', 'O', 'P', 'Q', 'R', 'S', 'T', 'U', 'V', 'W', 'X', 'Y', 'Z']

/-- A set of letters, listed in ascending order. -/
structure Letters where
  toList : List Char
  sublist : toList.Sublist alphabet
  deriving DecidableEq

namespace Letters

def empty : Letters := ⟨[], List.nil_sublist _⟩

/-- The letters that occur among `chars` in either case; other characters are ignored. -/
def ofChars (chars : List Char) : Letters :=
  ⟨alphabet.filter (chars.map Char.toUpper).contains, List.filter_sublist⟩

def size (s : Letters) : Nat := s.toList.length

/-- The number of rows of a truth table: every letter doubles it. -/
def rowCount (s : Letters) : Nat := 1 <<< s.size

/-- The place of a letter in the order, counted from zero. -/
def indexOf? (s : Letters) (c : Char) : Option Nat := s.toList.idxOf? c

/-- The letter at a place of the order. -/
def get? (s : Letters) (position : Nat) : Option Char := s.toList[position]?

/-- The letters in order, separated by a comma and a space. -/
def render (s : Letters) : String :=
  ", ".intercalate (s.toList.map Char.toString)

theorem size_le (s : Letters) : s.size ≤ 26 := s.sublist.length_le

theorem alphabet_pairwise : alphabet.Pairwise (· < ·) := by decide

theorem toList_pairwise (s : Letters) : s.toList.Pairwise (· < ·) :=
  alphabet_pairwise.sublist s.sublist

/-- A letter belongs to `ofChars chars` when it is in the alphabet and one of `chars` is this
letter in either case. -/
theorem mem_ofChars {chars : List Char} {c : Char} :
    c ∈ (ofChars chars).toList ↔ c ∈ alphabet ∧ ∃ d ∈ chars, d.toUpper = c := by
  simp [ofChars]

end Letters

end TwoLevel
