import TwoLevel.Proofs.Expr.Grammar

/-!
# A reader by recursive descent

This file reads expressions in the plainest way: one function for each kind of phrase, which calls
the functions for its parts. What is read carries the derivation that it has read, so the reader
accepts nothing else; that it accepts every phrase is proved along derivations. Hence a list of
tokens means at most one expression.

## Main definitions

- `Phrase`, `Tail` — a phrase at the front of some tokens, and the continuation of one
- `readSequence`, `readNegation`, `readPrimary` — the phrases of the different levels
- `Expr.read?` — the expression of a list of tokens

## Main statements

- `Expr.read?_eq_some` — what is read is what the tokens mean
- `Derives.unique` — tokens mean at most one expression
-/

namespace TwoLevel

/-- A phrase of some level at the front of some tokens: its expression, and the tokens behind it. -/
structure Phrase (level : Nat) (tokens : List Token) where
  expr : Expr
  rest : List Token
  derives : ∃ phrase, phrase ++ rest = tokens ∧ Derives level phrase expr

/-- Tokens that continue a phrase of some level which means `left`, so that it remains a phrase of
this level. -/
structure Tail (level : Nat) (left : Expr) (tokens : List Token) where
  expr : Expr
  rest : List Token
  derives : ∃ tail, tail ++ rest = tokens ∧
    ∀ before, Derives level before left → Derives level (before ++ tail) expr

namespace Tail

variable {left : Expr} {tokens : List Token}

/-- The phrase is not continued. -/
def nil (level : Nat) (left : Expr) (tokens : List Token) : Tail level left tokens where
  expr := left
  rest := tokens
  derives := ⟨[], rfl, fun before h => by rwa [List.append_nil]⟩

/-- The phrase is continued by an apostrophe and what follows it. -/
def not (t : Tail 4 (.not left) tokens) : Tail 4 left (.not :: tokens) where
  expr := t.expr
  rest := t.rest
  derives := by
    obtain ⟨tail, htokens, htail⟩ := t.derives
    refine ⟨.not :: tail, by rw [List.cons_append, htokens], fun before h => ?_⟩
    simpa using htail _ h.not

end Tail

namespace Phrase

variable {level low : Nat} {tokens rest : List Token} {op next : Operator}

theorem length_rest_lt (p : Phrase level tokens) : p.rest.length < tokens.length := by
  obtain ⟨phrase, htokens, hphrase⟩ := p.derives
  have hpos := hphrase.length_pos
  have hlength := congrArg List.length htokens
  rw [List.length_append] at hlength
  omega

/-- A phrase of a level as one of the level before. -/
def lift (p : Phrase (level + 1) tokens) : Phrase level tokens where
  expr := p.expr
  rest := p.rest
  derives := p.derives.imp fun _ h => ⟨h.1, h.2.lift⟩

/-- A phrase together with its continuation. -/
def extend (p : Phrase level tokens) (t : Tail level p.expr p.rest) : Phrase level tokens where
  expr := t.expr
  rest := t.rest
  derives := by
    obtain ⟨phrase, htokens, hphrase⟩ := p.derives
    obtain ⟨tail, hrest, htail⟩ := t.derives
    exact ⟨phrase ++ tail, by rw [List.append_assoc, hrest, htokens], htail phrase hphrase⟩

/-- The phrase that consists of a letter. -/
def letter (name : Char) (tokens : List Token) : Phrase 5 (.letter name :: tokens) where
  expr := .letter name
  rest := tokens
  derives := ⟨[.letter name], rfl, .letter name⟩

/-- The phrase that consists of a phrase in parentheses. -/
def group (p : Phrase 1 tokens) (h : p.rest = .rightParen :: rest) :
    Phrase 5 (.leftParen :: tokens) where
  expr := p.expr
  rest := rest
  derives := by
    obtain ⟨phrase, htokens, hphrase⟩ := p.derives
    refine ⟨_, ?_, hphrase.group⟩
    rw [← htokens, h, List.cons_append, List.append_assoc, List.singleton_append]

/-- The continuation of a phrase by an operator, its right operand, and what follows them. -/
def tail {left : Expr} (right : Phrase (op.precedence + 1) tokens)
    (t : Tail op.precedence (.binary op left right.expr) right.rest) (h : next = op) :
    Tail op.precedence left (.binary next :: tokens) where
  expr := t.expr
  rest := t.rest
  derives := by
    obtain ⟨phrase, htokens, hphrase⟩ := right.derives
    obtain ⟨tail, hrest, htail⟩ := t.derives
    refine ⟨.binary op :: (phrase ++ tail), ?_, fun before hbefore => ?_⟩
    · rw [h, List.cons_append, List.append_assoc, hrest, htokens]
    · simpa using htail _ (hbefore.binary op hphrase)

end Phrase

/-! ### The reader -/

/-- Read as many apostrophes as there are. -/
def readNots (left : Expr) : (tokens : List Token) → Tail 4 left tokens
  | .not :: tokens => (readNots (.not left) tokens).not
  | tokens => .nil 4 left tokens

mutual

/-- Read one or more operands with an operator between them. -/
def readSequence (op : Operator) (tokens : List Token) : Option (Phrase op.precedence tokens) := do
  let first ← readOperand op tokens
  let tail ← readTail op first.expr first.rest
  return first.lift.extend tail
termination_by 8 * tokens.length + (9 - 2 * op.precedence)
decreasing_by
  · have := op.precedence_mem
    omega
  · have := first.length_rest_lt
    omega

/-- Read an operator and an operand as long as there are more. -/
def readTail (op : Operator) (left : Expr) (tokens : List Token) :
    Option (Tail op.precedence left tokens) :=
  match tokens with
  | .binary next :: tokens =>
    if h : next = op then do
      let right ← readOperand op tokens
      let tail ← readTail op (.binary op left right.expr) right.rest
      return right.tail tail h
    else some (.nil _ left _)
  | tokens => some (.nil _ left tokens)
termination_by 8 * tokens.length + 7
decreasing_by
  · simp only [List.length_cons]
    omega
  · have := right.length_rest_lt
    simp only [List.length_cons]
    omega

/-- Read an operand of an operator: a sequence of the operator that binds next more tightly. -/
def readOperand (op : Operator) (tokens : List Token) :
    Option (Phrase (op.precedence + 1) tokens) :=
  match op with
  | .or => readSequence .xor tokens
  | .xor => readSequence .and tokens
  | .and => readNegation tokens
termination_by 8 * tokens.length + (8 - 2 * op.precedence)
decreasing_by all_goals simp only [Operator.precedence]; omega

/-- Read a letter or a group with the apostrophes behind it. -/
def readNegation (tokens : List Token) : Option (Phrase 4 tokens) := do
  let first ← readPrimary tokens
  return first.lift.extend (readNots first.expr first.rest)
termination_by 8 * tokens.length + 1

/-- Read a letter or a group. -/
def readPrimary (tokens : List Token) : Option (Phrase 5 tokens) :=
  match tokens with
  | .letter name :: tokens => some (.letter name tokens)
  | .leftParen :: tokens => do
    let inner ← readSequence .or tokens
    match h : inner.rest with
    | .rightParen :: _ => some (inner.group h)
    | _ => none
  | _ => none
termination_by 8 * tokens.length
decreasing_by
  simp only [List.length_cons, Operator.precedence]
  omega

end

/-- The expression of a list of tokens, if a phrase of the first level takes up all of them. -/
def Expr.read? (tokens : List Token) : Option Expr :=
  match readSequence .or tokens with
  | some ⟨e, [], _⟩ => some e
  | _ => none

/-! ### The reader accepts every phrase -/

/-- The expression of a phrase and the tokens behind it. -/
def Phrase.result {level : Nat} {tokens : List Token} (p : Phrase level tokens) :
    Expr × List Token := (p.expr, p.rest)

/-- The expression of a continued phrase and the tokens behind it. -/
def Tail.result {level : Nat} {left : Expr} {tokens : List Token} (t : Tail level left tokens) :
    Expr × List Token := (t.expr, t.rest)

/-- The level at which a token continues a phrase; zero if it does not. -/
def Token.strength : Token → Nat
  | not => 4
  | binary op => op.precedence
  | _ => 0

/-- The tokens do not continue a phrase of a level or a later one. -/
def Stops (level : Nat) (tokens : List Token) : Prop :=
  ∀ token ∈ tokens.head?, token.strength < level

variable {op : Operator} {left e : Expr} {level : Nat} {tokens rest : List Token}

theorem Stops.mono {high : Nat} (h : Stops level tokens) (hle : level ≤ high) :
    Stops high tokens := fun token htoken => (h token htoken).trans_le hle

theorem readNots_of_stops (h : Stops 4 rest) : (readNots e rest).result = (e, rest) := by
  cases rest with
  | nil => rfl
  | cons token rest =>
    cases token with
    | not => exact absurd (h .not rfl) (by decide)
    | _ => rfl

theorem readTail_of_stops (h : Stops op.precedence rest) :
    (readTail op left rest).map Tail.result = some (left, rest) := by
  rw [readTail.eq_def]
  split
  · next next tokens =>
    have hlt : next.precedence < op.precedence := h (.binary next) rfl
    have hne : next ≠ op := fun heq => absurd hlt (heq ▸ lt_irrefl _)
    rw [dif_neg hne]
    rfl
  · rfl

theorem readTail_binary {right : Expr}
    (h : (readOperand op tokens).map Phrase.result = some (right, rest)) :
    (readTail op left (.binary op :: tokens)).map Tail.result =
      (readTail op (.binary op left right) rest).map Tail.result := by
  obtain ⟨p, hp, hresult⟩ := Option.map_eq_some_iff.1 h
  obtain ⟨rfl, rfl⟩ := Prod.mk.inj hresult
  rw [readTail, dif_pos rfl, hp]
  show Option.map Tail.result ((readTail op (.binary op left p.expr) p.rest).bind _) = _
  cases readTail op (.binary op left p.expr) p.rest with
  | none => rfl
  | some t => rfl

theorem readSequence_eq (h : (readOperand op tokens).map Phrase.result = some (e, rest)) :
    (readSequence op tokens).map Phrase.result = (readTail op e rest).map Tail.result := by
  obtain ⟨p, hp, hresult⟩ := Option.map_eq_some_iff.1 h
  obtain ⟨rfl, rfl⟩ := Prod.mk.inj hresult
  rw [readSequence, hp]
  show Option.map Phrase.result ((readTail op p.expr p.rest).bind _) = _
  cases readTail op p.expr p.rest with
  | none => rfl
  | some t => rfl

theorem readNegation_eq (h : (readPrimary tokens).map Phrase.result = some (e, rest)) :
    (readNegation tokens).map Phrase.result = some (readNots e rest).result := by
  obtain ⟨p, hp, hresult⟩ := Option.map_eq_some_iff.1 h
  obtain ⟨rfl, rfl⟩ := Prod.mk.inj hresult
  rw [readNegation, hp]
  rfl

theorem readPrimary_group
    (h : (readSequence .or tokens).map Phrase.result = some (e, .rightParen :: rest)) :
    (readPrimary (.leftParen :: tokens)).map Phrase.result = some (e, rest) := by
  obtain ⟨p, hp, hresult⟩ := Option.map_eq_some_iff.1 h
  obtain ⟨rfl, hrest⟩ := Prod.mk.inj hresult
  rw [readPrimary, hp, Option.bind_eq_bind, Option.bind_some]
  split
  · next rest' hrest' =>
    obtain rfl : rest' = rest := by simpa [hrest'] using hrest
    rfl
  · next hother => exact absurd hrest (hother rest)

/-- What the reader does with a phrase of some level and any tokens behind it: it reads the phrase
and what continues it. -/
structure Reads (level : Nat) (tokens : List Token) (e : Expr) : Prop where
  primary : level = 5 → ∀ rest, (readPrimary (tokens ++ rest)).map Phrase.result = some (e, rest)
  negation : level = 4 → ∀ rest,
    (readNegation (tokens ++ rest)).map Phrase.result = some (readNots e rest).result
  sequence : ∀ op : Operator, level = op.precedence → ∀ rest, Stops (level + 1) rest →
    (readSequence op (tokens ++ rest)).map Phrase.result = (readTail op e rest).map Tail.result

namespace Reads

theorem operand (h : Reads (op.precedence + 1) tokens e) (hstops : Stops (op.precedence + 1) rest) :
    (readOperand op (tokens ++ rest)).map Phrase.result = some (e, rest) := by
  rw [readOperand.eq_def]
  cases op with
  | or =>
    exact (h.sequence .xor rfl rest (hstops.mono (by decide))).trans (readTail_of_stops hstops)
  | xor =>
    exact (h.sequence .and rfl rest (hstops.mono (by decide))).trans (readTail_of_stops hstops)
  | and => exact (h.negation rfl rest).trans (congrArg some (readNots_of_stops hstops))

theorem lift (hlevel : level ≤ 4) (h : Reads (level + 1) tokens e) : Reads level tokens e := by
  refine ⟨fun hfive => by omega, fun hfour rest => ?_, fun op hop rest hstops => ?_⟩
  · exact readNegation_eq (h.primary (by omega) rest)
  · subst hop
    exact readSequence_eq (h.operand hstops)

theorem letter (name : Char) : Reads 5 [.letter name] (.letter name) := by
  refine ⟨fun _ rest => ?_, by omega, fun op hop => ?_⟩
  · rw [List.singleton_append, readPrimary]
    rfl
  · have := op.precedence_mem
    omega

theorem group (h : Reads 1 tokens e) : Reads 5 (.leftParen :: (tokens ++ [.rightParen])) e := by
  refine ⟨fun _ rest => ?_, by omega, fun op hop => ?_⟩
  · rw [List.cons_append, List.append_assoc, List.singleton_append]
    refine readPrimary_group ?_
    have hstops : ∀ level, 0 < level → Stops level (.rightParen :: rest) := by
      rintro level hpos token ⟨⟩
      exact hpos
    rw [h.sequence .or rfl _ (hstops 2 (by decide))]
    exact readTail_of_stops (hstops 1 (by decide))
  · have := op.precedence_mem
    omega

theorem not (h : Reads 4 tokens e) : Reads 4 (tokens ++ [.not]) (.not e) := by
  refine ⟨by omega, fun _ rest => ?_, fun op hop => ?_⟩
  · rw [List.append_assoc, List.singleton_append]
    exact h.negation rfl (.not :: rest)
  · have := op.precedence_mem
    omega

theorem binary {right : List Token} {r : Expr} (hl : Reads op.precedence tokens e)
    (hr : Reads (op.precedence + 1) right r) :
    Reads op.precedence (tokens ++ .binary op :: right) (.binary op e r) := by
  have hop := op.precedence_mem
  refine ⟨by omega, by omega, fun op' hop' rest hstops => ?_⟩
  obtain rfl := Operator.precedence_injective hop'
  -- The operator itself does not continue the left operand at the next level.
  have hnext : Stops (op.precedence + 1) (.binary op :: (right ++ rest)) := by
    rintro token ⟨⟩
    exact Nat.lt_succ_self _
  rw [List.append_assoc, List.cons_append, hl.sequence op rfl _ hnext]
  exact readTail_binary (hr.operand hstops)

end Reads

theorem Derives.reads (h : Derives level tokens e) : Reads level tokens e := by
  induction h with
  | letter name => exact .letter name
  | group h ih => exact ih.group
  | not h ih => exact ih.not
  | binary op hl hr ihl ihr => exact ihl.binary ihr
  | lift h ih => exact ih.lift (by have := h.level_le; omega)

/-- An expression is read from some tokens exactly if they are a phrase that means it. -/
theorem Expr.read?_eq_some : Expr.read? tokens = some e ↔ Derives 1 tokens e := by
  constructor
  · intro h
    rw [read?] at h
    split at h
    · next e' hderives hread =>
      obtain ⟨phrase, htokens, hphrase⟩ := hderives
      rw [List.append_nil] at htokens
      rwa [← htokens, ← Option.some.inj h]
    · cases h
  · intro h
    have hend : ∀ level, Stops level [] := fun level token htoken => by cases htoken
    have hread := h.reads.sequence .or rfl [] (hend 2)
    rw [readTail_of_stops (hend _), List.append_nil] at hread
    obtain ⟨p, hp, hresult⟩ := Option.map_eq_some_iff.1 hread
    obtain ⟨e', rest, hderives⟩ := p
    obtain ⟨rfl, rfl⟩ := Prod.mk.inj hresult
    rw [read?, hp]

/-- Tokens mean at most one expression. -/
theorem Derives.unique {e' : Expr} (h : Derives 1 tokens e) (h' : Derives 1 tokens e') :
    e = e' := by
  rw [← Expr.read?_eq_some] at h h'
  rw [h] at h'
  exact Option.some.inj h'

end TwoLevel
