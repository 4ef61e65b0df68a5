import TwoLevel.Formula
import TwoLevel.Proofs.Expr.Reading
import TwoLevel.Proofs.Expr.Reference

/-!
# Texts and formulas

This file carries the grammar over from tokens to texts: a text denotes a formula exactly if it
holds no other characters than the notation has and its tokens are a phrase, and the expression is
the one that a reader by recursive descent finds.

## Main definitions

- `IsAllowed` — the characters of the notation
- `tokensOf` — the tokens of a text

## Main statements

- `Formula.parse_eq_ok` — the formulas of texts
- `parse_follows_grammar` — the two-stack reader against the grammar and the reference reader
-/

namespace TwoLevel

/-- A character that may stand in a text: a blank, a letter of the basic alphabet, an operator, an
apostrophe or a parenthesis. -/
def IsAllowed (c : Char) : Prop :=
  isBlank c = true ∨ c.isAlpha = true ∨ c ∈ ['.', '+', '^', '\'', '(', ')']

/-- The tokens that the characters of a text denote when blanks are dropped. -/
def tokensOf (text : List Char) : List Token :=
  (text.filter fun c => !isBlank c).filterMap Token.ofChar?

variable {text : List Char} {lexemes : List Lexeme} {start : Nat} {f : Formula} {c : Char}

theorem Token.exists_ofChar? :
    (∃ token, ofChar? c = some token) ↔ c.isAlpha = true ∨ c ∈ ['.', '+', '^', '\'', '(', ')'] := by
  by_cases halpha : c.isAlpha = true
  · simp [ofChar?, halpha]
  · constructor
    · rintro ⟨token, h⟩
      by_contra hnot
      simp_all [ofChar?]
    · rintro (h | h)
      · exact absurd h halpha
      · simp only [List.mem_cons, List.not_mem_nil, or_false] at h
        obtain rfl | rfl | rfl | rfl | rfl | rfl := h <;> exact ⟨_, rfl⟩

/-- Only its symbol stands for a token that is not a letter. -/
theorem Token.ofChar?_eq_some {token : Token} (h : token.letter? = none) :
    ofChar? c = some token ↔ c = token.symbol := by
  constructor
  · intro hc
    rw [ofChar?] at hc
    split_ifs at hc with halpha <;> cases hc
    · cases h
    all_goals assumption
  · rintro rfl
    cases token with
    | letter => cases h
    | binary op => cases op <;> rfl
    | _ => rfl

theorem isAllowed_iff : IsAllowed c ↔ isBlank c = true ∨ ∃ token, Token.ofChar? c = some token := by
  rw [IsAllowed, Token.exists_ofChar?]

/-! ### Lexemes -/

theorem tokensOf_append (text more : List Char) :
    tokensOf (text ++ more) = tokensOf text ++ tokensOf more := by
  rw [tokensOf, List.filter_append, List.filterMap_append]
  rfl

theorem tokensOf_singleton_of_isBlank (h : isBlank c = true) : tokensOf [c] = [] := by
  rw [tokensOf, List.filter_cons_of_neg (by simp [h])]
  rfl

theorem tokensOf_singleton {token : Token} (hblank : ¬isBlank c = true)
    (h : Token.ofChar? c = some token) : tokensOf [c] = [token] := by
  rw [tokensOf, List.filter_cons_of_pos (by simp [hblank]), List.filterMap_cons_some h]
  rfl

/-- The lexemes of a text without other characters carry its tokens. -/
theorem exists_tokenizeFrom (h : ∀ c ∈ text, IsAllowed c) (start : Nat) :
    ∃ lexemes, tokenizeFrom start text = .ok lexemes ∧
      lexemes.map Lexeme.token = tokensOf text := by
  induction text generalizing start with
  | nil => exact ⟨[], rfl, rfl⟩
  | cons c text ih =>
    obtain ⟨lexemes, hrest, htokens⟩ := ih (fun d hd => h d (List.mem_cons_of_mem _ hd)) (start + 1)
    by_cases hblank : isBlank c = true
    · refine ⟨lexemes, ?_, ?_⟩
      · rw [tokenizeFrom, if_pos hblank, hrest]
      · rw [htokens, ← List.singleton_append, tokensOf_append, tokensOf_singleton_of_isBlank hblank,
        List.nil_append]
    · obtain ⟨token, htoken⟩ :=
        (isAllowed_iff.1 (h c List.mem_cons_self)).resolve_left hblank
      refine ⟨⟨token, start⟩ :: lexemes, ?_, ?_⟩
      · rw [tokenizeFrom, if_neg hblank, htoken, hrest]
        rfl
      · rw [List.map_cons, htokens, ← List.singleton_append (l := text), tokensOf_append,
          tokensOf_singleton hblank htoken]
        rfl

/-- A text that splits into lexemes holds no other characters. -/
theorem isAllowed_of_tokenizeFrom (h : tokenizeFrom start text = .ok lexemes) :
    ∀ c ∈ text, IsAllowed c := by
  induction text generalizing start lexemes with
  | nil => simp
  | cons c text ih =>
    rw [tokenizeFrom] at h
    rw [List.forall_mem_cons, isAllowed_iff]
    split at h
    · next hblank => exact ⟨.inl hblank, ih h⟩
    · split at h
      · cases h
      · next token htoken =>
        cases hrest : tokenizeFrom (start + 1) text with
        | error reason =>
          rw [hrest] at h
          cases h
        | ok rest => exact ⟨.inr ⟨token, htoken⟩, ih hrest⟩

theorem tokenizeFrom_append (start : Nat) (text more : List Char) :
    tokenizeFrom start (text ++ more) = (tokenizeFrom start text).bind fun lexemes =>
      (tokenizeFrom (start + text.length) more).map (lexemes ++ ·) := by
  induction text generalizing start with
  | nil =>
    show tokenizeFrom start more = (tokenizeFrom start more).map (·)
    cases tokenizeFrom start more <;> rfl
  | cons c text ih =>
    rw [List.cons_append, tokenizeFrom, tokenizeFrom, ih, List.length_cons, Nat.add_right_comm,
      Nat.add_assoc]
    split
    · rfl
    · cases Token.ofChar? c with
      | none => rfl
      | some token =>
        cases tokenizeFrom (start + 1) text with
        | error reason => rfl
        | ok lexemes => cases tokenizeFrom (start + (text.length + 1)) more <;> rfl

theorem tokenize_eq_ok (h : tokenize text = .ok lexemes) :
    lexemes.map Lexeme.token = tokensOf text := by
  obtain ⟨lexemes', h', htokens⟩ := exists_tokenizeFrom (isAllowed_of_tokenizeFrom h) 0
  rw [tokenize, h', Except.ok.injEq] at h
  rwa [← h]

/-! ### Formulas -/

namespace Formula

theorem ofLexemes_eq_ok {stop : Nat} :
    ofLexemes lexemes stop = .ok f ↔ Derives 1 (lexemes.map Lexeme.token) f.root ∧
      f.letters = Letters.ofChars ((lexemes.map Lexeme.token).filterMap Token.letter?) := by
  rw [← Expr.ofLexemes_eq_ok stop, List.filterMap_map, ofLexemes]
  obtain ⟨root, letters⟩ := f
  cases Expr.ofLexemes lexemes stop with
  | error reason =>
    refine ⟨fun h => ?_, fun h => ?_⟩
    · cases h
    · cases h.1
  | ok e =>
    show Except.ok _ = Except.ok _ ↔ _
    rw [Except.ok.injEq, Except.ok.injEq, mk.injEq, @eq_comm _ letters]
    rfl

/-- A text denotes a formula if it holds no other characters than the notation has and its tokens
are a phrase that means the expression of the formula. -/
theorem parse_eq_ok : parse text = .ok f ↔ (∀ c ∈ text, IsAllowed c) ∧
    Derives 1 (tokensOf text) f.root ∧
    f.letters = Letters.ofChars ((tokensOf text).filterMap Token.letter?) := by
  rw [parse]
  constructor
  · intro h
    cases hlexemes : tokenize text with
    | error reason =>
      rw [hlexemes] at h
      cases h
    | ok lexemes =>
      rw [hlexemes] at h
      rw [← tokenize_eq_ok hlexemes]
      exact ⟨isAllowed_of_tokenizeFrom hlexemes, ofLexemes_eq_ok.1 h⟩
  · rintro ⟨hallowed, h⟩
    obtain ⟨lexemes, hlexemes, htokens⟩ := exists_tokenizeFrom hallowed 0
    rw [tokenize, hlexemes]
    rw [← htokens] at h
    exact ofLexemes_eq_ok.2 h

theorem exists_parse_eq_ok {e : Expr} : (∃ f, parse text = .ok f ∧ f.root = e) ↔
    (∀ c ∈ text, IsAllowed c) ∧ Derives 1 (tokensOf text) e := by
  constructor
  · rintro ⟨f, hf, rfl⟩
    obtain ⟨hallowed, hderives, -⟩ := parse_eq_ok.1 hf
    exact ⟨hallowed, hderives⟩
  · rintro ⟨hallowed, hderives⟩
    exact ⟨⟨e, _⟩, parse_eq_ok.2 ⟨hallowed, hderives, rfl⟩, rfl⟩

end Formula

/-! ### Letters -/

theorem Derives.letters_eq {level : Nat} {tokens : List Token} {e : Expr}
    (h : Derives level tokens e) : e.letters = tokens.filterMap Token.letter? := by
  induction h with
  | letter name => rfl
  | group h ih => simp [ih, List.filterMap_cons, Token.letter?]
  | not h ih => simp [Expr.letters, ih, Token.letter?]
  | binary op hl hr ihl ihr =>
    simp [Expr.letters, ihl, ihr, List.filterMap_cons, Token.letter?]
  | lift h ih => exact ih

theorem Expr.letters_ne_nil (e : Expr) : e.letters ≠ [] := by
  induction e with
  | letter name => simp [letters]
  | not operand ih => exact ih
  | binary op left right ihl ihr => simp [letters, ihl]

theorem of_isAlpha (h : c.isAlpha = true) : isBlank c = false ∧ c.toUpper ∈ alphabet := by
  have hall : ∀ n < 128, (Char.ofNat n).isAlpha = true →
      isBlank (Char.ofNat n) = false ∧ (Char.ofNat n).toUpper ∈ alphabet := by
    decide
  have hlt : c.toNat < 128 := by
    simp only [Char.isAlpha, Char.isUpper, Char.isLower, Bool.or_eq_true, Bool.and_eq_true,
      decide_eq_true_eq, ge_iff_le, UInt32.le_iff_toNat_le] at h
    have hval : c.toNat = c.val.toNat := rfl
    simp at h
    omega
  have hchar := hall c.toNat hlt
  rw [Char.ofNat_toNat] at hchar
  exact hchar h

theorem of_mem_alphabet (h : c ∈ alphabet) :
    isBlank c = false ∧ c.isAlpha = true ∧ c.toUpper = c := by
  have hall : ∀ c ∈ alphabet, isBlank c = false ∧ c.isAlpha = true ∧ c.toUpper = c := by
    simp [alphabet, isBlank]
  exact hall c h

theorem mem_alphabet_of_ofChar? {name : Char} (h : Token.ofChar? c = some (.letter name)) :
    name ∈ alphabet := by
  by_cases halpha : c.isAlpha = true
  · simp only [Token.ofChar?, halpha, if_true, Option.some.injEq, Token.letter.injEq] at h
    exact h ▸ (of_isAlpha halpha).2
  · rw [Token.ofChar?, if_neg halpha] at h
    split_ifs at h <;> simp at h

namespace Formula

/-- The letters of a formula that is read from a text are those of its expression. -/
theorem mem_letters (h : parse text = .ok f) {name : Char} :
    name ∈ f.letters.toList ↔ name ∈ f.root.letters := by
  obtain ⟨-, hderives, hletters⟩ := parse_eq_ok.1 h
  have hupper : ∀ d ∈ f.root.letters, d ∈ alphabet := by
    intro d hd
    rw [hderives.letters_eq, List.mem_filterMap] at hd
    obtain ⟨token, htoken, hd⟩ := hd
    obtain ⟨c, -, hc⟩ := List.mem_filterMap.1 htoken
    cases token with
    | letter => exact Option.some.inj hd ▸ mem_alphabet_of_ofChar? hc
    | _ => cases hd
  rw [hletters, ← hderives.letters_eq, Letters.mem_ofChars]
  constructor
  · rintro ⟨-, d, hd, rfl⟩
    rwa [(of_mem_alphabet (hupper d hd)).2.2]
  · intro hname
    have hmem := hupper name hname
    exact ⟨hmem, name, hname, (of_mem_alphabet hmem).2.2⟩

theorem size_pos (h : parse text = .ok f) : 0 < f.letters.size := by
  obtain ⟨name, hname⟩ := List.exists_mem_of_ne_nil _ f.root.letters_ne_nil
  exact List.length_pos_of_mem ((mem_letters h).2 hname)

end Formula

/-! ### The grammar of texts -/

/-- A text denotes a formula exactly if it holds no other characters than the notation has and its
tokens are a phrase by the productions of the notation; and its expression is the one that the
reader by recursive descent finds. -/
theorem parse_follows_grammar (text : List Char) :
    ((∃ f, Formula.parse text = .ok f) ↔
      (∀ c ∈ text, IsAllowed c) ∧ IsPhrase 1 (tokensOf text)) ∧
    ∀ e, (∃ f, Formula.parse text = .ok f ∧ f.root = e) ↔
      (∀ c ∈ text, IsAllowed c) ∧ Expr.read? (tokensOf text) = some e := by
  constructor
  · rw [isPhrase_iff le_rfl]
    constructor
    · rintro ⟨f, hf⟩
      obtain ⟨hallowed, hderives, -⟩ := Formula.parse_eq_ok.1 hf
      exact ⟨hallowed, f.root, hderives⟩
    · rintro ⟨hallowed, e, hderives⟩
      obtain ⟨f, hf, -⟩ := Formula.exists_parse_eq_ok.2 ⟨hallowed, hderives⟩
      exact ⟨f, hf⟩
  · intro e
    rw [Expr.read?_eq_some]
    exact Formula.exists_parse_eq_ok

end TwoLevel
