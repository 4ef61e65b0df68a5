import TwoLevel.Proofs.Parentheses
import TwoLevel.Proofs.RoundTrip

/-!
# Where a text goes wrong

This file says where the fault of a text that denotes no formula is reported. Reading from left to
right never goes on after a token that no accepted text could have at its place: whatever has been
read without a fault is completed by an operand, if one must come next, and by a closing parenthesis
for every one that is open. So a fault inside a text is reported at the earliest place that
excludes every continuation, and a fault at the end only where there are continuations.

## Main definitions

- `IsAccepted` — the texts that denote formulas
- `expectsOperand` — whether an operand must follow some tokens
- `FaultAt`, `FaultAtEnd` — the faults of a character inside a text and of its end
- `Reading.ofText`, `Reading.Follows` — the state after a text, and what it says about the text
- `Reading.completion` — the tokens that complete what has been read

## Main statements

- `Reading.Sound.exists_derives` — everything that is read can be completed
- `Reading.ofText_cases` — a text is read to its end or up to a fault
- `parse_error_earliest` — the reason and the place of every error
-/

namespace TwoLevel

/-- A text that denotes a formula. -/
def IsAccepted (text : List Char) : Prop :=
  ∃ f, Formula.parse text = .ok f

/-- Whether an operand must come next after some tokens: at the start, behind a binary operator and
behind an opening parenthesis. -/
def expectsOperand (tokens : List Token) : Bool :=
  tokens.getLast?.elim true Token.awaitsOperand

/-- A character makes a text go wrong: what comes before it may be continued to a formula, but not
with this character, whose token gives the reason. -/
structure FaultAt (before : List Char) (c : Char) (reason : ParseError) : Prop where
  refused : ∃ token, Token.ofChar? c = some token ∧
    Refused before.length (expectsOperand (tokensOf before)) token reason
  viable : ∃ rest, IsAccepted (before ++ rest)
  dead : ∀ rest, ¬IsAccepted (before ++ c :: rest)

/-- A text ends too early. -/
inductive FaultAtEnd (text : List Char) : ParseError → Prop where
  /-- An operand must still come. -/
  | operand (hexpected : expectsOperand (tokensOf text) = true) :
      FaultAtEnd text (.missingOperand text.length)
  /-- Only closing parentheses are missing. -/
  | parenthesis {position : Nat} (hexpected : expectsOperand (tokensOf text) = false)
      (hlast : IsGreatest {position | IsUnclosed text position} position)
      (hclosed : IsAccepted (text ++
        List.replicate {position | IsUnclosed text position}.ncard ')')) :
      FaultAtEnd text (.unbalancedParenthesis position)

/-- The tokens that complete what has been read: an operand, if one must come next, and a closing
parenthesis for every one that is open. -/
def Reading.completion (r : Reading) : List Token :=
  (if r.operandExpected then [.letter 'A'] else []) ++
    List.replicate (openPositions r.pending).length .rightParen

/-- The state after the last character of a text, or the first fault in it. -/
def Reading.ofText (text : List Char) : Except ParseError Reading := do
  let lexemes ← tokenize text
  start.feedAll lexemes

structure Reading.Follows (text : List Char) (r : Reading) : Prop where
  sound : Sound (tokensOf text) r
  opened : Opened text (openPositions r.pending)
  operandExpected_eq : r.operandExpected = expectsOperand (tokensOf text)

variable {text before after more : List Char} {c : Char} {token : Token} {tokens : List Token}
  {lexemes : List Lexeme} {pending : List Pending} {output : List Expr} {high : Nat} {r : Reading}
  {reason : ParseError}

/-! ### Completing what has been read -/

/-- A closing parenthesis for every one that is open makes a phrase of the whole. -/
theorem Ended.exists_derives (h : Ended high tokens pending output) :
    ∃ e, Derives 1 (tokens ++ List.replicate (openPositions pending).length .rightParen) e := by
  generalize hopen : openPositions pending = positions
  induction positions generalizing high tokens pending output with
  | nil =>
    rcases h.drain with ⟨last, positions, hcons, -⟩ | ⟨e, -, hderives⟩
    · rw [hopen] at hcons
      cases hcons
    · exact ⟨e, by simpa using hderives⟩
  | cons position positions ih =>
    -- One more closing parenthesis, wherever it stands, takes one of them off the stack.
    rcases h.close 0 with ⟨hnil, -⟩ | ⟨last, pending', output', hcons, -, hended⟩
    · rw [hnil] at hopen
      cases hopen
    · obtain ⟨rfl, hrest⟩ := List.cons.inj (hcons.symm.trans hopen)
      rw [List.length_cons, List.replicate_succ, List.append_cons]
      exact ih hended hrest

theorem Reading.Sound.exists_derives (h : Sound tokens r) :
    ∃ e, Derives 1 (tokens ++ r.completion) e := by
  cases h with
  | waiting h =>
    have hended := Ended.intro h h.level_le (Derives.letter 'A').lift
    simpa [completion] using hended.exists_derives
  | ended h => simpa [completion] using h.exists_derives

theorem isAccepted_iff : IsAccepted text ↔
    (∀ c ∈ text, IsAllowed c) ∧ ∃ e, Derives 1 (tokensOf text) e := by
  constructor
  · rintro ⟨f, hf⟩
    obtain ⟨hallowed, hderives, -⟩ := Formula.parse_eq_ok.1 hf
    exact ⟨hallowed, f.root, hderives⟩
  · rintro ⟨hallowed, e, hderives⟩
    obtain ⟨f, hf, -⟩ := Formula.exists_parse_eq_ok.2 ⟨hallowed, hderives⟩
    exact ⟨f, hf⟩

theorem Reading.Follows.isAccepted (h : Follows text r) (hallowed : ∀ c ∈ text, IsAllowed c) :
    IsAccepted (text ++ r.completion.map Token.symbol) := by
  have hletters : ∀ name, .letter name ∈ r.completion → name.isAlpha = true := by
    intro name hname
    obtain ⟨-, rfl⟩ : r.operandExpected = true ∧ name = 'A' := by simpa [completion] using hname
    decide
  have hupper : r.completion.map Token.toUpper = r.completion := by
    cases hexpected : r.operandExpected <;> simp [completion, hexpected, Token.toUpper]
  obtain ⟨hsymbols, htokens⟩ := tokensOf_map_symbol r.completion hletters
  rw [isAccepted_iff, tokensOf_append, htokens, hupper]
  exact ⟨List.forall_mem_append.2 ⟨hallowed, hsymbols⟩, h.sound.exists_derives⟩

/-! ### The state after a text -/

namespace Reading

theorem ofText_eq (h : tokenizeFrom 0 text = .ok lexemes) :
    ofText text = start.feedAll lexemes := by
  rw [ofText, tokenize, h]
  rfl

theorem ofText_append (h : tokenizeFrom text.length more = .ok lexemes) :
    ofText (text ++ more) = (ofText text).bind (·.feedAll lexemes) := by
  rw [ofText, ofText, tokenize, tokenize, tokenizeFrom_append, Nat.zero_add, h]
  cases tokenizeFrom 0 text with
  | error reason => rfl
  | ok before => exact feedAll_append start before lexemes

theorem ofText_concat_of_isBlank (hblank : isBlank c = true) :
    ofText (text ++ [c]) = ofText text := by
  have hlexemes : tokenizeFrom text.length [c] = .ok [] := by
    rw [tokenizeFrom, if_pos hblank]
    rfl
  rw [ofText_append hlexemes]
  cases ofText text <;> rfl

theorem ofText_concat (hblank : ¬isBlank c = true) (htoken : Token.ofChar? c = some token) :
    ofText (text ++ [c]) = (ofText text).bind (·.feed ⟨token, text.length⟩) := by
  have hlexemes : tokenizeFrom text.length [c] = .ok [⟨token, text.length⟩] := by
    rw [tokenizeFrom, if_neg hblank, htoken]
    rfl
  rw [ofText_append hlexemes]
  cases ofText text with
  | error reason => rfl
  | ok r =>
    show (r.feed _).bind (feedAll · []) = r.feed _
    cases r.feed ⟨token, text.length⟩ <;> rfl

/-- A fault stays one, whatever follows it. -/
theorem not_isAccepted (h : ofText text = .error reason) (more : List Char) :
    ¬IsAccepted (text ++ more) := by
  rintro ⟨f, hf⟩
  obtain ⟨hallowed, hderives, -⟩ := Formula.parse_eq_ok.1 hf
  obtain ⟨lexemes, hlexemes, -⟩ :=
    exists_tokenizeFrom (fun c hc => hallowed c (List.mem_append_right _ hc)) text.length
  obtain ⟨whole, hwhole, htokens⟩ := exists_tokenizeFrom hallowed 0
  -- The tokens of an accepted text are a phrase, which is taken in as a whole.
  obtain ⟨pending, output, hrun, -⟩ := hderives.feedAll htokens (.nil 1) []
  have hread : ofText (text ++ more) = .ok ⟨output, pending, false⟩ :=
    (ofText_eq hwhole).trans hrun
  rw [ofText_append hlexemes, h] at hread
  cases hread

namespace Follows

theorem nil : Follows [] start :=
  ⟨.waiting .start, .balanced .nil, rfl⟩

theorem concat_of_isBlank (h : Follows text r) (hblank : isBlank c = true) :
    Follows (text ++ [c]) r := by
  have htokens : tokensOf (text ++ [c]) = tokensOf text := by
    rw [tokensOf_append, tokensOf_singleton_of_isBlank hblank, List.append_nil]
  have hopen : c ≠ '(' := by
    rintro rfl
    cases hblank
  have hclose : c ≠ ')' := by
    rintro rfl
    cases hblank
  refine ⟨?_, h.opened.append (.singleton hopen hclose), ?_⟩
  · rw [htokens]
    exact h.sound
  · rw [htokens]
    exact h.operandExpected_eq

theorem feed (h : Follows text r) (hblank : ¬isBlank c = true)
    (htoken : Token.ofChar? c = some token) :
    (∃ reason, r.feed ⟨token, text.length⟩ = .error reason ∧
      Refused text.length (expectsOperand (tokensOf text)) token reason) ∨
    ∃ r', r.feed ⟨token, text.length⟩ = .ok r' ∧ Follows (text ++ [c]) r' := by
  have htokens : tokensOf (text ++ [c]) = tokensOf text ++ [token] := by
    rw [tokensOf_append, tokensOf_singleton hblank htoken]
  rcases h.sound.feed ⟨token, text.length⟩ with
    ⟨reason, hfeed, hrefused⟩ | ⟨r', hfeed, hsound, hexpected, hmoves⟩
  · exact .inl ⟨reason, hfeed, h.operandExpected_eq ▸ hrefused⟩
  · refine .inr ⟨r', hfeed, htokens ▸ hsound, ?_, ?_⟩
    · -- The token does to the open parentheses what its character does to the text.
      have hopened := h.opened
      generalize openPositions r.pending = positions at hmoves hopened
      generalize openPositions r'.pending = positions' at hmoves
      cases hmoves with
      | leftParen =>
        obtain rfl : c = '(' := (Token.ofChar?_eq_some rfl).1 htoken
        exact hopened.opening .nil
      | rightParen =>
        obtain rfl : c = ')' := (Token.ofChar?_eq_some rfl).1 htoken
        exact hopened.close
      | other hleft hright =>
        refine hopened.append (.singleton ?_ ?_)
        · rintro rfl
          exact hleft (Option.some.inj htoken).symm
        · rintro rfl
          exact hright (Option.some.inj htoken).symm
    · rw [hexpected, htokens, expectsOperand, List.getLast?_concat]
      rfl

/-- A character of the notation either is read or makes the text go wrong. -/
theorem step (h : Follows text r) (hr : ofText text = .ok r) (hallowed : ∀ d ∈ text, IsAllowed d)
    (hc : IsAllowed c) :
    (∃ r', ofText (text ++ [c]) = .ok r' ∧ Follows (text ++ [c]) r') ∨
    ∃ reason, ofText (text ++ [c]) = .error reason ∧ FaultAt text c reason := by
  by_cases hblank : isBlank c = true
  · exact .inl ⟨r, (ofText_concat_of_isBlank hblank).trans hr, h.concat_of_isBlank hblank⟩
  · obtain ⟨token, htoken⟩ := (isAllowed_iff.1 hc).resolve_left hblank
    have hread : ofText (text ++ [c]) = (ofText text).bind (·.feed ⟨token, text.length⟩) :=
      ofText_concat hblank htoken
    rw [hr] at hread
    rcases h.feed hblank htoken with ⟨reason, hfeed, hrefused⟩ | ⟨r', hfeed, hnext⟩
    · -- Every text that begins like this one stops at the same character.
      have herror : ofText (text ++ [c]) = .error reason := hread.trans hfeed
      refine .inr ⟨reason, herror, ⟨token, htoken, hrefused⟩, ⟨_, h.isAccepted hallowed⟩,
        fun rest => ?_⟩
      rw [List.append_cons]
      exact not_isAccepted herror rest
    · exact .inl ⟨r', hread.trans hfeed, hnext⟩

theorem faultAtEnd (h : Follows text r) (hallowed : ∀ c ∈ text, IsAllowed c)
    (hfinish : r.finish text.length = .error reason) : FaultAtEnd text reason := by
  rcases h.sound.of_finish_eq_error hfinish with
    ⟨hexpected, rfl⟩ | ⟨hexpected, position, positions, hopen, rfl⟩
  · exact .operand (h.operandExpected_eq.symm.trans hexpected)
  · have hcompletion : r.completion.map Token.symbol =
        List.replicate {position | IsUnclosed text position}.ncard ')' := by
      rw [h.opened.ncard_isUnclosed]
      simp [completion, hexpected, Token.symbol]
    refine .parenthesis (h.operandExpected_eq.symm.trans hexpected) (hopen ▸ h.opened).isGreatest ?_
    rw [← hcompletion]
    exact h.isAccepted hallowed

end Follows

theorem ofText_cases (h : ∀ c ∈ text, IsAllowed c) :
    (∃ r, ofText text = .ok r ∧ Follows text r) ∨
    ∃ before c after reason, text = before ++ c :: after ∧ ofText text = .error reason ∧
      FaultAt before c reason := by
  induction text using List.reverseRecOn with
  | nil => exact .inl ⟨start, rfl, .nil⟩
  | append_singleton text c ih =>
    obtain ⟨hallowed, hc⟩ := List.forall_mem_append.1 h
    rcases ih hallowed with ⟨r, hr, hfollows⟩ | ⟨before, d, after, reason, rfl, herror, hfault⟩
    · rcases hfollows.step hr hallowed (hc c List.mem_cons_self) with
        hread | ⟨reason, herror, hfault⟩
      · exact .inl hread
      · exact .inr ⟨text, c, [], reason, rfl, herror, hfault⟩
    · -- What comes after a fault changes nothing.
      obtain ⟨lexemes, hlexemes, -⟩ := exists_tokenizeFrom hc (before ++ d :: after).length
      refine .inr ⟨before, d, after ++ [c], reason, by simp, ?_, hfault⟩
      rw [ofText_append hlexemes, herror]
      rfl

end Reading

/-! ### Errors -/

namespace Formula

theorem ofLexemes_eq_error {stop : Nat} :
    ofLexemes lexemes stop = .error reason ↔ Expr.ofLexemes lexemes stop = .error reason := by
  rw [ofLexemes]
  cases Expr.ofLexemes lexemes stop with
  | error reason' =>
    show Except.error _ = Except.error _ ↔ _
    rw [Except.error.injEq, Except.error.injEq]
  | ok e =>
    constructor
    · rintro ⟨⟩
    · rintro ⟨⟩

theorem parse_of_not_isAllowed (hbefore : ∀ d ∈ before, IsAllowed d) (hc : ¬IsAllowed c)
    (after : List Char) :
    parse (before ++ c :: after) = .error (.invalidCharacter c before.length) := by
  obtain ⟨lexemes, hlexemes, -⟩ := exists_tokenizeFrom hbefore 0
  rw [isAllowed_iff, not_or, ← Option.isSome_iff_exists, Option.not_isSome_iff_eq_none] at hc
  have hrest : tokenizeFrom (0 + before.length) (c :: after) =
      .error (.invalidCharacter c before.length) := by
    rw [tokenizeFrom, if_neg hc.1, hc.2, Nat.zero_add]
  rw [parse, tokenize, tokenizeFrom_append, hlexemes]
  show (((tokenizeFrom _ _).map _).bind _) = _
  rw [hrest]
  rfl

theorem parse_of_tokensOf_eq_nil (hallowed : ∀ c ∈ text, IsAllowed c) (hnil : tokensOf text = []) :
    parse text = .error .emptyExpression := by
  obtain ⟨lexemes, hlexemes, htokens⟩ := exists_tokenizeFrom hallowed 0
  obtain rfl : lexemes = [] := List.map_eq_nil_iff.1 (htokens.trans hnil)
  rw [parse, tokenize, hlexemes]
  rfl

/-- If a text with tokens has an error, it has it at a token or at its end. -/
theorem ofText_or_finish (hallowed : ∀ c ∈ text, IsAllowed c) (hne : tokensOf text ≠ [])
    (h : parse text = .error reason) : Reading.ofText text = .error reason ∨
      ∃ r, Reading.ofText text = .ok r ∧ r.finish text.length = .error reason := by
  obtain ⟨lexemes, hlexemes, htokens⟩ := exists_tokenizeFrom hallowed 0
  have hsome : ¬lexemes.isEmpty = true := by
    rw [List.isEmpty_iff]
    rintro rfl
    exact hne htokens.symm
  rw [parse, tokenize, hlexemes] at h
  replace h := ofLexemes_eq_error.1 h
  rw [Expr.ofLexemes, if_neg hsome, ← Reading.ofText_eq hlexemes] at h
  cases hread : Reading.ofText text with
  | error reason' =>
    rw [hread] at h
    exact .inl (congrArg Except.error (Except.error.inj h))
  | ok r =>
    rw [hread] at h
    exact .inr ⟨r, rfl, h⟩

end Formula

/-- An error points at the earliest place at which a text goes wrong. The first character that is
not allowed is reported before anything else, and that there is no token before any fault of the
grammar. Otherwise the error is at a token such that the characters before it can be continued to
a formula, but those up to it cannot; or the whole text can be continued, and either an operand
is missing at its end or the last parenthesis that is not closed is reported, where a closing
parenthesis for every such one is all that is missing. -/
theorem parse_error_earliest (text : List Char) :
    (∀ before c after, text = before ++ c :: after → (∀ d ∈ before, IsAllowed d) → ¬IsAllowed c →
      Formula.parse text = .error (.invalidCharacter c before.length)) ∧
    ((∀ c ∈ text, IsAllowed c) → tokensOf text = [] →
      Formula.parse text = .error .emptyExpression) ∧
    ∀ reason, (∀ c ∈ text, IsAllowed c) → tokensOf text ≠ [] →
      Formula.parse text = .error reason →
        (∃ before c after, text = before ++ c :: after ∧ FaultAt before c reason) ∨
        (∃ rest, IsAccepted (text ++ rest)) ∧ FaultAtEnd text reason := by
  refine ⟨?_, Formula.parse_of_tokensOf_eq_nil, fun reason hallowed hne h => ?_⟩
  · rintro before c after rfl hbefore hc
    exact Formula.parse_of_not_isAllowed hbefore hc after
  · have herror := Formula.ofText_or_finish hallowed hne h
    rcases Reading.ofText_cases hallowed with
      ⟨r, hr, hfollows⟩ | ⟨before, c, after, reason', hsplit, hr, hfault⟩
    · obtain ⟨r', hr', hfinish⟩ := herror.resolve_left fun hr' => by cases hr.symm.trans hr'
      obtain rfl := Except.ok.inj (hr.symm.trans hr')
      exact .inr ⟨⟨_, hfollows.isAccepted hallowed⟩, hfollows.faultAtEnd hallowed hfinish⟩
    · rcases herror with hr' | ⟨r, hr', -⟩
      · obtain rfl := Except.error.inj (hr.symm.trans hr')
        exact .inl ⟨before, c, after, hsplit, hfault⟩
      · cases hr.symm.trans hr'

/-- A parenthesis that is closed again is not the one that is reported. -/
theorem parse_error_earliest_unclosed :
    Formula.parse ['(', '.', '#'] = .error (.invalidCharacter '#' 2) ∧
    Formula.parse [' ', ' '] = .error .emptyExpression ∧
    Formula.parse ['(', 'A', '.', '(', 'B', ')'] = .error (.unbalancedParenthesis 0) ∧
    FaultAtEnd ['(', 'A', '.', '(', 'B', ')'] (.unbalancedParenthesis 0) := by
  have hallowed : ∀ c ∈ ['(', 'A', '.', '(', 'B', ')'], IsAllowed c := by simp [IsAllowed]
  have hreason : Formula.parse ['(', 'A', '.', '(', 'B', ')'] =
      .error (.unbalancedParenthesis 0) := rfl
  refine ⟨?_, ?_, hreason, ?_⟩
  · exact (parse_error_earliest _).1 ['(', '.'] '#' [] rfl (by simp [IsAllowed])
      (by simp [IsAllowed, isBlank])
  · exact (parse_error_earliest _).2.1 (by simp [IsAllowed, isBlank]) (by decide)
  · rcases (parse_error_earliest _).2.2 _ hallowed (by decide) hreason with
      ⟨before, c, after, hsplit, hfault⟩ | ⟨-, hend⟩
    · -- A closing parenthesis would have to stand at the start.
      obtain ⟨token, htoken, hrefused⟩ := hfault.refused
      generalize hplace : before.length = place at hrefused
      generalize expectsOperand (tokensOf before) = expected at hrefused
      cases hrefused
      obtain rfl := List.length_eq_zero_iff.1 hplace
      obtain rfl : c = ')' := (Token.ofChar?_eq_some rfl).1 htoken
      cases hsplit
    · exact hend

end TwoLevel
