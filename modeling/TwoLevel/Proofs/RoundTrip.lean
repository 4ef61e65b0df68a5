import TwoLevel.Proofs.Formula

/-!
# Reading printed expressions

This file proves that reading undoes printing. A list of tokens without blanks is read as itself, up
to the case of its letters, and an expression is printed as a phrase that means it.

## Main definitions

- `Expr.toUpper` — an expression with its letters in upper case

## Main statements

- `Formula.parse_symbols`, `Formula.parse_symbols_alphabet` — reading the symbols of a phrase
- `parse_render` — reading printed expressions and formulas
-/

namespace TwoLevel

/-- A token with its letter, if it is one, in upper case. -/
def Token.toUpper : Token → Token
  | letter name => letter name.toUpper
  | token => token

def Expr.toUpper : Expr → Expr
  | letter name => letter name.toUpper
  | not operand => not operand.toUpper
  | binary op left right => binary op left.toUpper right.toUpper

variable {tokens : List Token} {e : Expr} {f g : Formula} {text other : List Char} {c : Char}

/-! ### Upper case -/

theorem Derives.toUpper {level : Nat} (h : Derives level tokens e) :
    Derives level (tokens.map Token.toUpper) e.toUpper := by
  induction h with
  | letter name => exact .letter _
  | group h ih => simpa [Token.toUpper] using ih.group
  | not h ih => simpa [Token.toUpper, Expr.toUpper] using ih.not
  | binary op hl hr ihl ihr => simpa [Token.toUpper, Expr.toUpper] using ihl.binary op ihr
  | lift h ih => exact ih.lift

theorem Expr.toUpper_eq_self (h : ∀ name ∈ e.letters, name ∈ alphabet) : e.toUpper = e := by
  induction e with
  | letter name => rw [toUpper, (of_mem_alphabet (h name List.mem_cons_self)).2.2]
  | not operand ih => rw [toUpper, ih h]
  | binary op left right ihl ihr =>
    have hl : left.toUpper = left := ihl fun name hname => h name (List.mem_append_left _ hname)
    have hr : right.toUpper = right := ihr fun name hname => h name (List.mem_append_right _ hname)
    rw [toUpper, hl, hr]

/-! ### Symbols -/

/-- Characters that stand for tokens are read as these tokens, with upper-case letters. -/
theorem tokensOf_map_symbol (tokens : List Token)
    (h : ∀ name, .letter name ∈ tokens → name.isAlpha = true) :
    (∀ c ∈ tokens.map Token.symbol, IsAllowed c) ∧
      tokensOf (tokens.map Token.symbol) = tokens.map Token.toUpper := by
  have htoken : ∀ token ∈ tokens,
      isBlank token.symbol = false ∧ Token.ofChar? token.symbol = some token.toUpper := by
    intro token hmem
    cases token with
    | letter name =>
      have halpha := h name hmem
      exact ⟨(of_isAlpha halpha).1, if_pos halpha⟩
    | binary op => cases op <;> decide
    | not => decide
    | leftParen => decide
    | rightParen => decide
  constructor
  · intro c hc
    obtain ⟨token, hmem, rfl⟩ := List.mem_map.1 hc
    exact isAllowed_iff.2 (.inr ⟨_, (htoken token hmem).2⟩)
  · have hsolid : ∀ c ∈ tokens.map Token.symbol, (!isBlank c) = true := by
      intro c hc
      obtain ⟨token, hmem, rfl⟩ := List.mem_map.1 hc
      rw [(htoken token hmem).1]
      rfl
    rw [tokensOf, List.filter_eq_self.2 hsolid, List.filterMap_map, ← List.filterMap_eq_map]
    exact List.filterMap_congr fun token hmem => (htoken token hmem).2

namespace Formula

/-- The symbols of a phrase denote what the phrase means, with upper-case letters. -/
theorem parse_symbols (hderives : Derives 1 tokens e)
    (h : ∀ name ∈ e.letters, name.isAlpha = true) :
    ∃ f, parse (tokens.map Token.symbol) = .ok f ∧ f.root = e.toUpper := by
  obtain ⟨hallowed, htokens⟩ := tokensOf_map_symbol tokens fun name hname => by
    refine h name ?_
    rw [hderives.letters_eq]
    exact List.mem_filterMap.2 ⟨_, hname, rfl⟩
  exact exists_parse_eq_ok.2 ⟨hallowed, htokens.symm ▸ hderives.toUpper⟩

theorem parse_symbols_alphabet (hderives : Derives 1 tokens e)
    (h : ∀ name ∈ e.letters, name ∈ alphabet) :
    ∃ f, parse (tokens.map Token.symbol) = .ok f ∧ f.root = e := by
  obtain ⟨f, hf, hroot⟩ := parse_symbols hderives fun c hc => (of_mem_alphabet (h c hc)).2.1
  exact ⟨f, hf, hroot.trans (Expr.toUpper_eq_self h)⟩

theorem eq_of_root_eq (hf : parse text = .ok f) (hg : parse other = .ok g)
    (h : f.root = g.root) : f = g := by
  -- Either set of letters is collected from the tokens, which hold those of the expression.
  obtain ⟨-, hderives, hletters⟩ := parse_eq_ok.1 hf
  obtain ⟨-, hderives', hletters'⟩ := parse_eq_ok.1 hg
  rw [← hderives.letters_eq] at hletters
  rw [← hderives'.letters_eq, ← h, ← hletters] at hletters'
  obtain ⟨root, letters⟩ := f
  obtain ⟨root', letters'⟩ := g
  exact mk.injEq .. ▸ ⟨h, hletters'.symm⟩

theorem mem_alphabet (h : parse text = .ok f) (hc : c ∈ f.root.letters) : c ∈ alphabet :=
  f.letters.sublist.subset ((mem_letters h).2 hc)

end Formula

/-- Reading undoes printing. The text of an expression whose variables are letters denotes the
expression with upper-case letters, together with its distinct letters in ascending order; so an
expression with upper-case letters comes back as it is, and a formula that was read from a text is
read again from its own text. -/
theorem parse_render :
    (∀ e : Expr, (∀ name ∈ e.letters, name.isAlpha = true) →
      ∃ f, Formula.parse e.render = .ok f ∧ f.root = e.toUpper ∧
        f.letters.toList.Pairwise (· < ·) ∧
        ∀ name, name ∈ f.letters.toList ↔ name ∈ e.toUpper.letters) ∧
    (∀ e : Expr, (∀ name ∈ e.letters, name ∈ alphabet) →
      ∃ f, Formula.parse e.render = .ok f ∧ f.root = e) ∧
    ∀ (text : List Char) (f : Formula), Formula.parse text = .ok f →
      Formula.parse f.render = .ok f := by
  refine ⟨fun e he => ?_, fun e he => ?_, fun text f hf => ?_⟩
  · obtain ⟨f, hf, hroot⟩ := Formula.parse_symbols (derives_tokensAt .top e) he
    refine ⟨f, hf, hroot, f.letters.toList_pairwise, fun name => ?_⟩
    rw [Formula.mem_letters hf, hroot]
  · exact Formula.parse_symbols_alphabet (derives_tokensAt .top e) he
  · obtain ⟨g, hg, hroot⟩ := Formula.parse_symbols_alphabet (derives_tokensAt .top f.root)
      fun name => Formula.mem_alphabet hf
    have hsame : g = f := Formula.eq_of_root_eq hg hf hroot
    rwa [hsame] at hg

/-- An operation on the right of one with the same strength keeps its parentheses, and a negated
letter in lower case comes back in upper case. -/
theorem parse_render_right_nested :
    (∀ name ∈ (Expr.binary .xor (.not (.letter 'b'))
      (.binary .xor (.letter 'a') (.letter 'b'))).letters, name.isAlpha = true) ∧
    (∃ f, Formula.parse ['b', '\'', '^', '(', 'a', '^', 'b', ')'] = .ok f ∧
      f.root = .binary .xor (.not (.letter 'B')) (.binary .xor (.letter 'A') (.letter 'B'))) ∧
    (∀ name ∈ (Expr.not (.binary .or (.letter 'A') (.letter 'B'))).letters, name ∈ alphabet) ∧
    (∃ f, Formula.parse ['(', 'A', '+', 'B', ')', '\''] = .ok f ∧
      f.root = .not (.binary .or (.letter 'A') (.letter 'B'))) ∧
    ∃ f, Formula.parse ['(', 'a', ')', '.', 'b'] = .ok f ∧
      Formula.parse ['A', '.', 'B'] = .ok f := by
  have halpha : ∀ name ∈ (Expr.binary .xor (.not (.letter 'b'))
      (.binary .xor (.letter 'a') (.letter 'b'))).letters, name.isAlpha = true := by
    simp [Expr.letters]
  have hupper : ∀ name ∈ (Expr.not (.binary .or (.letter 'A') (.letter 'B'))).letters,
      name ∈ alphabet := by simp [Expr.letters, alphabet]
  obtain ⟨f, hf, hroot, -⟩ := parse_render.1 _ halpha
  let g : Formula := ⟨.binary .and (.letter 'A') (.letter 'B'), .ofChars ['A', 'B']⟩
  have hg : Formula.parse ['(', 'a', ')', '.', 'b'] = .ok g := rfl
  exact ⟨halpha, ⟨f, hf, hroot⟩, hupper, parse_render.2.1 _ hupper, g, hg,
    parse_render.2.2 _ g hg⟩

end TwoLevel
