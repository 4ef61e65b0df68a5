import TwoLevel.Proofs.Refusal
import TwoLevel.Proofs.Signs

/-!
# Blanks and the case of letters

This file proves that blanks and the case of letters change nothing but the places of faults. The
reader only hands positions on: if all lexemes of a text and its end are moved, every fault is
reported where it has moved to, and what is built remains the same. A text is its signs, moved to
the places where they stand in it.

## Main definitions

- `signPlaces`, `placeIn` — where the signs of a text stand
- `elsewhere` — the same result with other positions
- `SamePlace`, `SameReason` — places that belong together, and reasons at such places

## Main statements

- `Reading.feed_relocate`, `Reading.finish_relocate` — what a lexeme and the end do at other places
- `Formula.parse_eq_relocate` — a text and its signs
- `parse_respaced` — two texts with the same signs
-/

namespace TwoLevel

/-- The places of a text at which its signs stand. -/
def signPlaces (text : List Char) : List Nat :=
  text.findIdxs fun c => !isBlank c

/-- The place of a sign that is given by its number; there is no sign at the end of the text. -/
def placeIn (text : List Char) (number : Nat) : Nat :=
  (signPlaces text)[number]?.getD text.length

/-- Places of two texts that belong together: the signs with the same number stand there, or both
texts end there. -/
inductive SamePlace (text other : List Char) : Nat → Nat → Prop where
  | sign {number p q : Nat} (hp : (signPlaces text)[number]? = some p)
      (hq : (signPlaces other)[number]? = some q) : SamePlace text other p q
  | stop : SamePlace text other text.length other.length

/-- Reasons of the same kind for which two texts are refused, at places that belong together. -/
inductive SameReason (text other : List Char) : ParseError → ParseError → Prop where
  /-- The same character is not allowed. -/
  | invalidCharacter {c : Char} {p q : Nat} (h : SamePlace text other p q)
      (hp : text[p]? = some c) (hq : other[q]? = some c) :
      SameReason text other (.invalidCharacter c p) (.invalidCharacter c q)
  | danglingNot {p q : Nat} (h : SamePlace text other p q) :
      SameReason text other (.danglingNot p) (.danglingNot q)
  | unbalancedParenthesis {p q : Nat} (h : SamePlace text other p q) :
      SameReason text other (.unbalancedParenthesis p) (.unbalancedParenthesis q)
  | missingOperator {p q : Nat} (h : SamePlace text other p q) :
      SameReason text other (.missingOperator p) (.missingOperator q)
  | missingOperand {p q : Nat} (h : SamePlace text other p q) :
      SameReason text other (.missingOperand p) (.missingOperand q)
  | emptyExpression : SameReason text other .emptyExpression .emptyExpression

/-! ### Other positions -/

def Lexeme.relocate (place : Nat → Nat) (lexeme : Lexeme) : Lexeme :=
  ⟨lexeme.token, place lexeme.position⟩

def Pending.relocate (place : Nat → Nat) : Pending → Pending
  | operator op position => operator op (place position)
  | paren position => paren (place position)

def Reading.relocate (place : Nat → Nat) (r : Reading) : Reading :=
  ⟨r.output, r.pending.map (Pending.relocate place), r.operandExpected⟩

def ParseError.relocate (place : Nat → Nat) : ParseError → ParseError
  | invalidCharacter character position => invalidCharacter character (place position)
  | danglingNot position => danglingNot (place position)
  | unbalancedParenthesis position => unbalancedParenthesis (place position)
  | missingOperator position => missingOperator (place position)
  | missingOperand position => missingOperand (place position)
  | emptyExpression => emptyExpression

variable {α β γ δ : Type}

/-- The same result with other positions, when `f` changes the positions of a value. -/
def elsewhere (place : Nat → Nat) (f : α → β) : Except ParseError α → Except ParseError β
  | .error reason => .error (reason.relocate place)
  | .ok a => .ok (f a)

/-- A step with other positions after a result with other positions. -/
theorem elsewhere_bind {place : Nat → Nat} {f : α → β} {g : γ → δ} {k : α → Except ParseError γ}
    {k' : β → Except ParseError δ} (h : ∀ a, k' (f a) = elsewhere place g (k a))
    (x : Except ParseError α) : (elsewhere place f x).bind k' = elsewhere place g (x.bind k) := by
  cases x with
  | error reason => rfl
  | ok a => exact h a

namespace Reading

variable (place : Nat → Nat)

theorem combine_relocate (op : Operator) (position : Nat) (output : List Expr) :
    combine op (place position) output = elsewhere place id (combine op position output) := by
  cases output with
  | nil => rfl
  | cons right output => cases output <;> rfl

theorem settle_relocate (op : Operator) (pending : List Pending) (output : List Expr) :
    settle op (pending.map (Pending.relocate place)) output =
      elsewhere place (fun s => (s.1.map (Pending.relocate place), s.2))
        (settle op pending output) := by
  induction pending generalizing output with
  | nil => rfl
  | cons top pending ih =>
    cases top with
    | paren position => rfl
    | operator top position =>
      rw [List.map_cons, Pending.relocate, settle, settle]
      split
      · rfl
      · rw [combine_relocate]
        exact elsewhere_bind (fun output => ih output) _

theorem close_relocate (position : Nat) (pending : List Pending) (output : List Expr) :
    close (place position) (pending.map (Pending.relocate place)) output =
      elsewhere place (fun s => (s.1.map (Pending.relocate place), s.2))
        (close position pending output) := by
  induction pending generalizing output with
  | nil => rfl
  | cons top pending ih =>
    cases top with
    | paren position => rfl
    | operator top position =>
      rw [List.map_cons, Pending.relocate, close, close, combine_relocate]
      exact elsewhere_bind (fun output => ih output) _

theorem drain_relocate (pending : List Pending) (output : List Expr) :
    drain (pending.map (Pending.relocate place)) output =
      elsewhere place id (drain pending output) := by
  induction pending generalizing output with
  | nil => rfl
  | cons top pending ih =>
    cases top with
    | paren position => rfl
    | operator top position =>
      rw [List.map_cons, Pending.relocate, drain, drain, combine_relocate]
      exact elsewhere_bind (fun output => ih output) _

/-- A lexeme at another place does the same at this place. -/
theorem feed_relocate (r : Reading) (lexeme : Lexeme) :
    (r.relocate place).feed (lexeme.relocate place) =
      elsewhere place (Reading.relocate place) (r.feed lexeme) := by
  obtain ⟨output, pending, expected⟩ := r
  obtain ⟨token, position⟩ := lexeme
  cases token with
  | letter name => cases expected <;> rfl
  | leftParen => cases expected <;> rfl
  | not =>
    cases expected with
    | true => rfl
    | false => cases output <;> rfl
  | binary op =>
    cases expected with
    | true => rfl
    | false =>
      simp only [feed, Reading.relocate, Lexeme.relocate, settle_relocate]
      cases settle op pending output <;> rfl
  | rightParen =>
    cases expected with
    | true => rfl
    | false =>
      simp only [feed, Reading.relocate, Lexeme.relocate, close_relocate]
      cases close position pending output <;> rfl

theorem feedAll_relocate (r : Reading) (lexemes : List Lexeme) :
    (r.relocate place).feedAll (lexemes.map (Lexeme.relocate place)) =
      elsewhere place (Reading.relocate place) (r.feedAll lexemes) := by
  induction lexemes generalizing r with
  | nil => rfl
  | cons lexeme lexemes ih =>
    rw [List.map_cons, feedAll, feedAll, feed_relocate]
    exact elsewhere_bind (fun r => ih r) _

/-- A text that ends at another place is finished in the same way there. -/
theorem finish_relocate (r : Reading) (stop : Nat) :
    (r.relocate place).finish (place stop) = elsewhere place id (r.finish stop) := by
  obtain ⟨output, pending, expected⟩ := r
  cases expected with
  | true => rfl
  | false =>
    simp only [finish, Reading.relocate, drain_relocate]
    refine elsewhere_bind (fun output => ?_) _
    cases output with
    | nil => rfl
    | cons root output => cases output <;> rfl

end Reading

theorem Formula.ofLexemes_relocate (place : Nat → Nat) (lexemes : List Lexeme) (stop : Nat) :
    ofLexemes (lexemes.map (Lexeme.relocate place)) (place stop) =
      elsewhere place id (ofLexemes lexemes stop) := by
  have hroot : Expr.ofLexemes (lexemes.map (Lexeme.relocate place)) (place stop) =
      elsewhere place id (Expr.ofLexemes lexemes stop) := by
    cases lexemes with
    | nil => rfl
    | cons lexeme lexemes =>
      have hrun := Reading.feedAll_relocate place .start (lexeme :: lexemes)
      show ((Reading.start.relocate place).feedAll _).bind _ = _
      rw [hrun]
      exact elsewhere_bind (fun r => Reading.finish_relocate place r stop) _
  rw [ofLexemes, ofLexemes, hroot, List.filterMap_map]
  cases Expr.ofLexemes lexemes stop <;> rfl

/-! ### The places of signs -/

variable {text other : List Char} {c : Char} {reason : ParseError}

theorem length_signPlaces (text : List Char) :
    (signPlaces text).length = (signsOf text).length := by
  rw [signPlaces, List.length_findIdxs, signsOf, List.length_map, List.countP_eq_length_filter]

theorem placeIn_length (text : List Char) : placeIn text (signsOf text).length = text.length := by
  rw [placeIn, List.getElem?_eq_none (length_signPlaces text).le, Option.getD_none]

/-- The lexemes of a text are those of its signs, moved to the places of the signs. -/
theorem tokenizeFrom_eq_relocate {place : Nat → Nat} {start first : Nat}
    (hplace : ∀ number p, (text.findIdxs (fun c => !isBlank c) start)[number]? = some p →
      place (first + number) = p) :
    tokenizeFrom start text =
      elsewhere place (List.map (Lexeme.relocate place)) (tokenizeFrom first (signsOf text)) := by
  induction text generalizing start first with
  | nil => rfl
  | cons c text ih =>
    rw [List.findIdxs_cons] at hplace
    by_cases hblank : isBlank c = true
    · rw [if_neg (by simp [hblank])] at hplace
      rw [tokenizeFrom, if_pos hblank, signsOf_cons_of_isBlank hblank]
      exact ih hplace
    · rw [if_pos (by simp [hblank])] at hplace
      obtain rfl : place first = start := hplace 0 start rfl
      have hrest : tokenizeFrom (place first + 1) text = elsewhere place
          (List.map (Lexeme.relocate place)) (tokenizeFrom (first + 1) (signsOf text)) := by
        refine ih fun number p hp => ?_
        rw [Nat.add_assoc, Nat.add_comm 1]
        exact hplace (number + 1) p hp
      rw [signsOf_cons hblank, tokenizeFrom, tokenizeFrom, isBlank_toUpper, Token.ofChar?_toUpper,
        if_neg hblank, if_neg hblank, hrest]
      cases htoken : Token.ofChar? c with
      | none =>
        have halpha : ¬c.isAlpha = true := fun halpha => by simp [Token.ofChar?, halpha] at htoken
        rw [toUpper_of_not_isAlpha halpha]
        rfl
      | some token => cases tokenizeFrom (first + 1) (signsOf text) <;> rfl

namespace Formula

/-- A text denotes what its signs denote, and a fault in it stands where the faulty sign does. -/
theorem parse_eq_relocate (text : List Char) :
    parse text = elsewhere (placeIn text) id (parse (signsOf text)) := by
  have hlexemes : tokenize text = elsewhere (placeIn text)
      (List.map (Lexeme.relocate (placeIn text))) (tokenize (signsOf text)) := by
    refine tokenizeFrom_eq_relocate fun number p hp => ?_
    rw [Nat.zero_add, placeIn, signPlaces, hp, Option.getD_some]
  rw [parse, parse, hlexemes]
  refine elsewhere_bind (fun lexemes => ?_) _
  rw [← placeIn_length text]
  exact ofLexemes_relocate _ lexemes _

end Formula

/-! ### Characters that are not allowed -/

/-- A character that is not a token stands at the place at which it is reported. -/
theorem getElem?_of_tokenizeFrom {start p : Nat}
    (h : tokenizeFrom start text = .error (.invalidCharacter c p)) :
    start ≤ p ∧ text[p - start]? = some c := by
  induction text generalizing start with
  | nil => cases h
  | cons d text ih =>
    have hlater (hrest : tokenizeFrom (start + 1) text = .error (.invalidCharacter c p)) :
        start ≤ p ∧ (d :: text)[p - start]? = some c := by
      obtain ⟨hle, hget⟩ := ih hrest
      refine ⟨by omega, ?_⟩
      rwa [show p - start = p - (start + 1) + 1 by omega, List.getElem?_cons_succ]
    rw [tokenizeFrom] at h
    split at h
    · exact hlater h
    · split at h
      · obtain ⟨rfl, rfl⟩ := ParseError.invalidCharacter.inj (Except.error.inj h)
        exact ⟨le_rfl, by rw [Nat.sub_self, List.getElem?_cons_zero]⟩
      · refine hlater ?_
        cases hrest : tokenizeFrom (start + 1) text with
        | ok lexemes =>
          rw [hrest] at h
          cases h
        | error reason =>
          rw [hrest] at h
          exact congrArg Except.error (Except.error.inj h)

namespace Formula

theorem parse_ne_invalidCharacter (hallowed : ∀ d ∈ text, IsAllowed d) (c : Char) (p : Nat) :
    parse text ≠ .error (.invalidCharacter c p) := by
  intro h
  by_cases hnil : tokensOf text = []
  · rw [parse_of_tokensOf_eq_nil hallowed hnil] at h
    cases h
  · rcases Reading.ofText_cases hallowed with
      ⟨r, hr, hfollows⟩ | ⟨before, d, after, reason, -, hr, hfault⟩
    · rcases ofText_or_finish hallowed hnil h with hread | ⟨r', hr', hfinish⟩
      · cases hr.symm.trans hread
      · obtain rfl := Except.ok.inj (hr.symm.trans hr')
        cases hfollows.faultAtEnd hallowed hfinish
    · rcases ofText_or_finish hallowed hnil h with hread | ⟨r', hr', -⟩
      · obtain rfl := Except.error.inj (hr.symm.trans hread)
        obtain ⟨token, -, hrefused⟩ := hfault.refused
        generalize expectsOperand (tokensOf before) = expected at hrefused
        cases hrefused
      · cases hr.symm.trans hr'

/-- A character that is reported stands at the place that is reported. -/
theorem getElem?_of_invalidCharacter {p : Nat} (h : parse text = .error (.invalidCharacter c p)) :
    text[p]? = some c := by
  cases hlexemes : tokenize text with
  | ok lexemes =>
    exact absurd h (parse_ne_invalidCharacter (isAllowed_of_tokenizeFrom hlexemes) c p)
  | error reason =>
    rw [parse, hlexemes] at h
    obtain rfl : reason = .invalidCharacter c p := Except.error.inj h
    exact (getElem?_of_tokenizeFrom hlexemes).2

end Formula

/-! ### Two texts -/

theorem samePlace_placeIn (hsigns : signsOf text = signsOf other) (number : Nat) :
    SamePlace text other (placeIn text number) (placeIn other number) := by
  have hlength : (signPlaces text).length = (signPlaces other).length := by
    rw [length_signPlaces, length_signPlaces, hsigns]
  rw [placeIn, placeIn]
  by_cases hnumber : number < (signPlaces text).length
  · rw [List.getElem?_eq_getElem hnumber, List.getElem?_eq_getElem (hlength ▸ hnumber)]
    exact .sign (List.getElem?_eq_getElem hnumber) (List.getElem?_eq_getElem (hlength ▸ hnumber))
  · rw [List.getElem?_eq_none (by omega), List.getElem?_eq_none (by omega)]
    exact .stop

/-- Texts with the same signs, which differ only in blanks and in the case of letters, denote the
same formula, or are refused for the same reason: at signs with the same number, where a character
that is not allowed is the same in both texts, or at the ends of the texts. -/
theorem parse_respaced (hsigns : signsOf text = signsOf other) :
    (∀ f, Formula.parse text = .ok f → Formula.parse other = .ok f) ∧
    ∀ reason, Formula.parse text = .error reason →
      ∃ reason', Formula.parse other = .error reason' ∧ SameReason text other reason reason' := by
  have htext := Formula.parse_eq_relocate text
  have hother := Formula.parse_eq_relocate other
  rw [← hsigns] at hother
  cases hparse : Formula.parse (signsOf text) with
  | ok f =>
    rw [hparse] at htext hother
    refine ⟨fun g hg => ?_, fun reason hreason => (by cases htext.symm.trans hreason)⟩
    exact hother.trans (htext.symm.trans hg)
  | error reason =>
    rw [hparse] at htext hother
    refine ⟨fun g hg => (by cases htext.symm.trans hg), fun reason' hreason' => ?_⟩
    obtain rfl := Except.error.inj (htext.symm.trans hreason')
    refine ⟨_, hother, ?_⟩
    have hplace := samePlace_placeIn hsigns
    cases reason with
    | invalidCharacter c number =>
      exact .invalidCharacter (hplace number) (Formula.getElem?_of_invalidCharacter htext)
        (Formula.getElem?_of_invalidCharacter hother)
    | danglingNot number => exact .danglingNot (hplace number)
    | unbalancedParenthesis number => exact .unbalancedParenthesis (hplace number)
    | missingOperator number => exact .missingOperator (hplace number)
    | missingOperand number => exact .missingOperand (hplace number)
    | emptyExpression => exact .emptyExpression

/-- A parenthesis that is not closed behind several blanks, one of which takes two bytes. -/
theorem parse_respaced_shifted :
    signsOf ['a', '.', '(', 'b'] = signsOf [' ', 'A', '\x0a', '.', '\u00a0', '(', 'B', ' '] ∧
    Formula.parse ['a', '.', '(', 'b'] = .error (.unbalancedParenthesis 2) ∧
    Formula.parse [' ', 'A', '\x0a', '.', '\u00a0', '(', 'B', ' '] =
      .error (.unbalancedParenthesis 5) ∧
    SameReason ['a', '.', '(', 'b'] [' ', 'A', '\x0a', '.', '\u00a0', '(', 'B', ' ']
      (.unbalancedParenthesis 2) (.unbalancedParenthesis 5) ∧
    ∃ f, Formula.parse ['a', '^', 'B'] = .ok f ∧
      Formula.parse ['A', ' ', '^', '\u3000', 'b'] = .ok f := by
  have hsigns : signsOf ['a', '.', '(', 'b'] =
      signsOf [' ', 'A', '\x0a', '.', '\u00a0', '(', 'B', ' '] := by decide
  have hreason : Formula.parse ['a', '.', '(', 'b'] = .error (.unbalancedParenthesis 2) := rfl
  have hmoved : Formula.parse [' ', 'A', '\x0a', '.', '\u00a0', '(', 'B', ' '] =
      .error (.unbalancedParenthesis 5) := rfl
  obtain ⟨reason, hother, hsame⟩ := (parse_respaced hsigns).2 _ hreason
  obtain rfl := Except.error.inj (hother.symm.trans hmoved)
  let f : Formula := ⟨.binary .xor (.letter 'A') (.letter 'B'), .ofChars ['A', 'B']⟩
  have hf : Formula.parse ['a', '^', 'B'] = .ok f := rfl
  have hsigns' : signsOf ['a', '^', 'B'] = signsOf ['A', ' ', '^', '\u3000', 'b'] := by decide
  exact ⟨hsigns, hreason, hmoved, hsame, f, hf, (parse_respaced hsigns').1 f hf⟩

end TwoLevel
