import TwoLevel.Proofs.RoundTrip

/-!
# Texts up to blanks and case

This file relates a text to its signs, which are its characters without the blanks and with letters
in upper case. The signs of a text without other characters than those of the notation are the
symbols of its tokens.

## Main definitions

- `signsOf` — the signs of a text

## Main statements

- `isBlank_toUpper`, `Token.ofChar?_toUpper` — the case of a letter makes no difference
- `signsOf_eq_map_symbol` — the signs of a text as the symbols of its tokens
- `length_signsOf_le`, `signsOf_eq_of_length` — how many signs a text has
-/

namespace TwoLevel

/-- The signs of a text: its characters without the blanks, with letters in upper case. -/
def signsOf (text : List Char) : List Char :=
  (text.filter fun c => !isBlank c).map Char.toUpper

variable {text : List Char} {c : Char} {token : Token}

theorem signsOf_cons_of_isBlank (h : isBlank c = true) (text : List Char) :
    signsOf (c :: text) = signsOf text := by
  rw [signsOf, List.filter_cons_of_neg (by simp [h])]
  rfl

theorem signsOf_cons (h : ¬isBlank c = true) (text : List Char) :
    signsOf (c :: text) = c.toUpper :: signsOf text := by
  rw [signsOf, List.filter_cons_of_pos (by simp [h])]
  rfl

/-! ### Case -/

theorem toUpper_of_not_isAlpha (h : ¬c.isAlpha = true) : c.toUpper = c := by
  rw [Char.toUpper, dif_neg]
  rintro ⟨hlow, hhigh⟩
  refine h ?_
  rw [Char.isAlpha, Char.isLower, Bool.or_eq_true, Bool.and_eq_true]
  exact .inr ⟨decide_eq_true hlow, decide_eq_true hhigh⟩

theorem isBlank_toUpper (c : Char) : isBlank c.toUpper = isBlank c := by
  by_cases halpha : c.isAlpha = true
  · obtain ⟨hblank, hmem⟩ := of_isAlpha halpha
    rw [hblank, (of_mem_alphabet hmem).1]
  · rw [toUpper_of_not_isAlpha halpha]

theorem Token.ofChar?_toUpper (c : Char) : ofChar? c.toUpper = ofChar? c := by
  by_cases halpha : c.isAlpha = true
  · obtain ⟨-, hupper, hself⟩ := of_mem_alphabet (of_isAlpha halpha).2
    rw [ofChar?, ofChar?, if_pos halpha, if_pos hupper, hself]
  · rw [toUpper_of_not_isAlpha halpha]

/-! ### Symbols -/

/-- A character that stands for a token is not blank, and in upper case it is the symbol of the
token. -/
theorem Token.of_ofChar? (h : ofChar? c = some token) :
    isBlank c = false ∧ token.symbol = c.toUpper := by
  by_cases halpha : c.isAlpha = true
  · rw [ofChar?, if_pos halpha, Option.some.injEq] at h
    rw [← h]
    exact ⟨(of_isAlpha halpha).1, rfl⟩
  · have hsign := (exists_ofChar?.1 ⟨token, h⟩).resolve_left halpha
    simp only [List.mem_cons, List.not_mem_nil, or_false] at hsign
    obtain rfl | rfl | rfl | rfl | rfl | rfl := hsign <;> cases h <;> decide

/-- The signs of a text without other characters are the symbols of its tokens. -/
theorem signsOf_eq_map_symbol (h : ∀ c ∈ text, IsAllowed c) :
    signsOf text = (tokensOf text).map Token.symbol := by
  rw [tokensOf, List.map_filterMap, signsOf, ← List.filterMap_eq_map]
  apply List.filterMap_congr
  intro c hc
  obtain ⟨hmem, hblank⟩ := List.mem_filter.1 hc
  obtain ⟨token, htoken⟩ := (isAllowed_iff.1 (h c hmem)).resolve_left (by simpa using hblank)
  rw [htoken, Option.map_some, (Token.of_ofChar? htoken).2]
  rfl

/-! ### Lengths -/

theorem length_signsOf_le (text : List Char) : (signsOf text).length ≤ text.length := by
  rw [signsOf, List.length_map]
  exact List.length_filter_le _ _

/-- A text with as many signs as characters has no blanks. -/
theorem signsOf_eq_of_length (h : (signsOf text).length = text.length) :
    signsOf text = text.map Char.toUpper := by
  rw [signsOf, List.length_map, List.length_filter_eq_length_iff] at h
  rw [signsOf, List.filter_eq_self.2 h]

end TwoLevel
