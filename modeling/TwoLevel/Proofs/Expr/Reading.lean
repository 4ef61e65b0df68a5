import TwoLevel.Expr.Parser
import TwoLevel.Proofs.Expr.Grammar

/-!
# Reading with two stacks follows the grammar

This file proves that the reader with two stacks accepts exactly the phrases of the grammar and
builds the expressions that they mean. What has been read consists of open parentheses and left
operands, each with the operator behind it; the levels of the operators rise between parentheses.
This invariant is kept by every lexeme. Conversely the reader takes in every phrase, which leaves
operations on its stack that are carried out as soon as the phrase ends.

## Main definitions

- `Waiting` — what has been read when an operand must come next
- `Ended` — what has been read when an operand has just ended
- `Reading.Sound` — the invariant of a reading
- `openPositions` — the parentheses that wait for a closing one
- `Refused`, `Moves` — the fault of a token that does not fit, and what one that fits opens or closes
- `Settles` — carrying out pending operations of a level or a later one

## Main statements

- `Reading.Sound.feed`, `Reading.Sound.finish` — what a lexeme and the end of the text do
- `Reading.Sound.feedAll` — the invariant of a run
- `Derives.feedAll` — the run over a phrase
- `Expr.ofLexemes_eq_ok` — the expressions that are built
-/

namespace TwoLevel

/-- Tokens that have been read when an operand of some level must come next, with the stacks that
are kept of them. -/
inductive Waiting : List Token → List Pending → List Expr → Nat → Prop where
  /-- Nothing has been read. -/
  | start : Waiting [] [] [] 1
  /-- A parenthesis has been opened. -/
  | paren {tokens : List Token} {pending : List Pending} {output : List Expr} {level : Nat}
      (position : Nat) (h : Waiting tokens pending output level) :
      Waiting (tokens ++ [.leftParen]) (.paren position :: pending) output 1
  /-- An operator has followed its left operand. -/
  | operator {tokens phrase : List Token} {pending : List Pending} {output : List Expr}
      {level : Nat} {e : Expr} {op : Operator} (position : Nat)
      (h : Waiting tokens pending output level) (hlevel : level ≤ op.precedence)
      (hleft : Derives op.precedence phrase e) :
      Waiting (tokens ++ phrase ++ [.binary op]) (.operator op position :: pending) (e :: output)
        (op.precedence + 1)

/-- Tokens that have been read when a phrase of a level has just ended which may stand there. -/
inductive Ended (high : Nat) : List Token → List Pending → List Expr → Prop where
  /-- The phrase follows what has been read before it. -/
  | intro {tokens phrase : List Token} {pending : List Pending} {output : List Expr} {level : Nat}
      {e : Expr} (h : Waiting tokens pending output level) (hlevel : level ≤ high)
      (he : Derives high phrase e) : Ended high (tokens ++ phrase) pending (e :: output)

/-- The state of a reading belongs to the tokens that have been read. -/
inductive Reading.Sound : List Token → Reading → Prop where
  /-- An operand must come next. -/
  | waiting {tokens : List Token} {pending : List Pending} {output : List Expr} {level : Nat}
      (h : Waiting tokens pending output level) : Sound tokens ⟨output, pending, true⟩
  /-- An operand has just ended. -/
  | ended {tokens : List Token} {pending : List Pending} {output : List Expr}
      (h : Ended 4 tokens pending output) : Sound tokens ⟨output, pending, false⟩

/-- The positions of the parentheses that are not closed, the last one first. -/
def openPositions (pending : List Pending) : List Nat :=
  pending.filterMap fun
    | .operator _ _ => none
    | .paren position => some position

/-- Whether an operand must come after a token. -/
def Token.awaitsOperand : Token → Bool
  | binary _ => true
  | leftParen => true
  | _ => false

/-- The fault of a token that does not fit, which depends on whether an operand must come next. -/
inductive Refused (position : Nat) : Bool → Token → ParseError → Prop where
  /-- An operand follows another one directly. -/
  | letter (name : Char) : Refused position false (.letter name) (.missingOperator position)
  | leftParen : Refused position false .leftParen (.missingOperator position)
  /-- There is nothing that could be negated. -/
  | not : Refused position true .not (.danglingNot position)
  /-- An operand is missing before an operator or a closing parenthesis. -/
  | binary (op : Operator) : Refused position true (.binary op) (.missingOperand position)
  | emptyGroup : Refused position true .rightParen (.missingOperand position)
  /-- No parenthesis is open. -/
  | rightParen : Refused position false .rightParen (.unbalancedParenthesis position)

/-- The effect of a token on the positions of the open parentheses. -/
inductive Moves (position : Nat) : Token → List Nat → List Nat → Prop where
  | leftParen (positions : List Nat) : Moves position .leftParen positions (position :: positions)
  | rightParen (last : Nat) (positions : List Nat) :
      Moves position .rightParen (last :: positions) positions
  | other {token : Token} (hleft : token ≠ .leftParen) (hright : token ≠ .rightParen)
      (positions : List Nat) : Moves position token positions positions

variable {tokens : List Token} {pending : List Pending} {output : List Expr} {level high : Nat}
  {e : Expr} {op : Operator} {position : Nat} {lexemes : List Lexeme}

theorem Waiting.level_le (h : Waiting tokens pending output level) : level ≤ 4 := by
  cases h with
  | start => decide
  | paren => decide
  | @operator _ _ _ _ _ _ op =>
    have := op.precedence_mem
    omega

/-! ### Ended phrases -/

namespace Ended

/-- A pending operation is carried out with the phrase that has ended as its right operand. -/
theorem combine (h : Ended high tokens (.operator op position :: pending) output) :
    ∃ output', Reading.combine op position output = .ok output' ∧
      Ended op.precedence tokens pending output' := by
  obtain ⟨hwaiting, hlevel, he⟩ := h
  cases hwaiting with
  | operator _ hbefore hle hleft =>
    refine ⟨_, rfl, ?_⟩
    have hwhole := hleft.binary op (he.of_le hlevel)
    simpa using Ended.intro hbefore hle hwhole

/-- When the pending operations that bind at least as tightly as an operator have been carried out,
a phrase has ended that may be its left operand. -/
theorem settle (op : Operator) (h : Ended high tokens pending output) (hop : op.precedence ≤ high) :
    ∃ pending' output', Reading.settle op pending output = .ok (pending', output') ∧
      openPositions pending' = openPositions pending ∧
      Ended op.precedence tokens pending' output' := by
  have hpos := op.precedence_mem
  induction pending generalizing high output with
  | nil =>
    obtain ⟨hwaiting, hlevel, he⟩ := h
    refine ⟨_, _, rfl, rfl, .intro hwaiting ?_ (he.of_le hop)⟩
    cases hwaiting
    exact hpos.1
  | cons top pending ih =>
    cases top with
    | paren position =>
      obtain ⟨hwaiting, hlevel, he⟩ := h
      refine ⟨_, _, rfl, rfl, .intro hwaiting ?_ (he.of_le hop)⟩
      cases hwaiting
      exact hpos.1
    | operator top position =>
      rw [Reading.settle]
      split
      · next hlt =>
        -- The operator on top binds less tightly and waits for the whole phrase.
        obtain ⟨hwaiting, hlevel, he⟩ := h
        refine ⟨_, _, rfl, rfl, .intro hwaiting ?_ (he.of_le hop)⟩
        cases hwaiting
        exact hlt
      · next hge =>
        obtain ⟨output', hcombine, hended⟩ := h.combine
        rw [hcombine]
        exact ih hended (Nat.le_of_not_lt hge)

/-- A closing parenthesis ends a group, unless no parenthesis is open. -/
theorem close (h : Ended high tokens pending output) (position : Nat) :
    openPositions pending = [] ∧
        Reading.close position pending output = .error (.unbalancedParenthesis position) ∨
      ∃ last pending' output', openPositions pending = last :: openPositions pending' ∧
        Reading.close position pending output = .ok (pending', output') ∧
        Ended 4 (tokens ++ [.rightParen]) pending' output' := by
  induction pending generalizing high output with
  | nil => exact .inl ⟨rfl, rfl⟩
  | cons top pending ih =>
    cases top with
    | paren place =>
      obtain ⟨hwaiting, hlevel, he⟩ := h
      cases hwaiting with
      | paren _ hbefore =>
        refine .inr ⟨place, _, _, rfl, rfl, ?_⟩
        have hgroup := (he.of_le hlevel).group.lift
        simpa using Ended.intro hbefore hbefore.level_le hgroup
    | operator top place =>
      obtain ⟨output', hcombine, hended⟩ := h.combine
      rw [Reading.close, hcombine]
      exact ih hended

/-- At the end of the text the whole text is a phrase, unless a parenthesis is still open. -/
theorem drain (h : Ended high tokens pending output) :
    (∃ last positions, openPositions pending = last :: positions ∧
      Reading.drain pending output = .error (.unbalancedParenthesis last)) ∨
    ∃ e, Reading.drain pending output = .ok [e] ∧ Derives 1 tokens e := by
  induction pending generalizing high output with
  | nil =>
    obtain ⟨hwaiting, hlevel, he⟩ := h
    cases hwaiting with
    | start => exact .inr ⟨_, rfl, he.of_le hlevel⟩
  | cons top pending ih =>
    cases top with
    | paren place => exact .inl ⟨place, _, rfl, rfl⟩
    | operator top place =>
      obtain ⟨output', hcombine, hended⟩ := h.combine
      rw [Reading.drain, hcombine]
      exact ih hended

end Ended

/-! ### The invariant of a run -/

namespace Reading

variable {r r' : Reading}

/-- A lexeme either does not fit, for the reason that its token gives, or it keeps the invariant; then
the token says whether an operand must come next, and which parentheses are open. -/
theorem Sound.feed (h : Sound tokens r) (lexeme : Lexeme) :
    (∃ reason, r.feed lexeme = .error reason ∧
      Refused lexeme.position r.operandExpected lexeme.token reason) ∨
    ∃ r', r.feed lexeme = .ok r' ∧ Sound (tokens ++ [lexeme.token]) r' ∧
      r'.operandExpected = lexeme.token.awaitsOperand ∧
      Moves lexeme.position lexeme.token (openPositions r.pending) (openPositions r'.pending) := by
  obtain ⟨token, position⟩ := lexeme
  cases h with
  | waiting h =>
    cases token with
    | letter name =>
      have hended := Ended.intro h h.level_le (Derives.letter name).lift
      exact .inr ⟨_, rfl, .ended hended, rfl, .other (by simp) (by simp) _⟩
    | leftParen => exact .inr ⟨_, rfl, .waiting (h.paren position), rfl, .leftParen _⟩
    | binary op => exact .inl ⟨_, rfl, .binary op⟩
    | not => exact .inl ⟨_, rfl, .not⟩
    | rightParen => exact .inl ⟨_, rfl, .emptyGroup⟩
  | @ended pending output h =>
    cases token with
    | letter name => exact .inl ⟨_, rfl, .letter name⟩
    | leftParen => exact .inl ⟨_, rfl, .leftParen⟩
    | not =>
      obtain ⟨hwaiting, hlevel, he⟩ := h
      have hended := Ended.intro hwaiting hlevel he.not
      rw [← List.append_assoc] at hended
      exact .inr ⟨_, rfl, .ended hended, rfl, .other (by simp) (by simp) _⟩
    | binary op =>
      have hop := op.precedence_mem
      obtain ⟨pending', output', hsettle, hopen, hended⟩ := h.settle op (by omega)
      obtain ⟨hwaiting, hlevel, he⟩ := hended
      refine .inr ⟨_, by simp only [Reading.feed, hsettle]; rfl,
        .waiting (hwaiting.operator position hlevel he), rfl, ?_⟩
      show Moves position _ (openPositions pending) (openPositions pending')
      rw [hopen]
      exact .other (by simp) (by simp) _
    | rightParen =>
      rcases h.close position with ⟨-, herror⟩ | ⟨last, pending', output', hopen, hclose, hended⟩
      · exact .inl ⟨_, by simp only [Reading.feed, herror]; rfl, .rightParen⟩
      · refine .inr ⟨_, by simp only [Reading.feed, hclose]; rfl, .ended hended, rfl, ?_⟩
        show Moves position _ (openPositions pending) (openPositions pending')
        rw [hopen]
        exact .rightParen last _

theorem Sound.feedAll (h : Sound tokens r) (hfeed : r.feedAll lexemes = .ok r') :
    Sound (tokens ++ lexemes.map Lexeme.token) r' := by
  induction lexemes generalizing tokens r with
  | nil =>
    obtain rfl := Except.ok.inj hfeed
    simpa using h
  | cons lexeme lexemes ih =>
    rw [Reading.feedAll] at hfeed
    rcases h.feed lexeme with ⟨reason, hstep, -⟩ | ⟨next, hstep, hnext, -⟩
    · rw [hstep] at hfeed
      cases hfeed
    · rw [hstep] at hfeed
      simpa using ih hnext hfeed

/-- At the end of the text an operand is missing, or a parenthesis is still open, or the tokens are a
phrase and the expression is what it means. -/
theorem Sound.finish (h : Sound tokens r) (stop : Nat) :
    r.operandExpected = true ∧ r.finish stop = .error (.missingOperand stop) ∨
    r.operandExpected = false ∧ (∃ last positions, openPositions r.pending = last :: positions ∧
      r.finish stop = .error (.unbalancedParenthesis last)) ∨
    ∃ e, r.finish stop = .ok e ∧ Derives 1 tokens e := by
  cases h with
  | waiting h => exact .inl ⟨rfl, rfl⟩
  | ended h =>
    rcases h.drain with ⟨last, positions, hopen, herror⟩ | ⟨e, hdrain, hderives⟩
    · exact .inr (.inl ⟨rfl, last, positions, hopen, by simp only [Reading.finish, herror]; rfl⟩)
    · exact .inr (.inr ⟨e, by simp only [Reading.finish, hdrain]; rfl, hderives⟩)

theorem Sound.of_finish_eq_error {stop : Nat} {reason : ParseError} (h : Sound tokens r)
    (herror : r.finish stop = .error reason) :
    r.operandExpected = true ∧ reason = .missingOperand stop ∨
    r.operandExpected = false ∧ ∃ last positions, openPositions r.pending = last :: positions ∧
      reason = .unbalancedParenthesis last := by
  rcases h.finish stop with
    ⟨hexpected, hfinish⟩ | ⟨hended, last, positions, hopen, hfinish⟩ | ⟨e, hfinish, -⟩
  · exact .inl ⟨hexpected, Except.error.inj (herror.symm.trans hfinish)⟩
  · exact .inr ⟨hended, last, positions, hopen, Except.error.inj (herror.symm.trans hfinish)⟩
  · cases hfinish.symm.trans herror

end Reading

/-! ### The run over a phrase -/

/-- Carrying out pending operations whose operators have a level or a later one leads from two
stacks to two others. -/
inductive Settles (level : Nat) : List Pending → List Expr → List Pending → List Expr → Prop where
  /-- No operation is carried out. -/
  | refl (pending : List Pending) (output : List Expr) : Settles level pending output pending output
  /-- An operation is carried out before all others. -/
  | step {pending pending' : List Pending} {output output' : List Expr} {left right : Expr}
      {op : Operator} (position : Nat) (hlevel : level ≤ op.precedence)
      (h : Settles level pending (.binary op left right :: output) pending' output') :
      Settles level (.operator op position :: pending) (right :: left :: output) pending' output'

namespace Settles

variable {pending' pending'' : List Pending} {output' output'' : List Expr}

theorem mono {low : Nat} (h : Settles level pending output pending' output') (hle : low ≤ level) :
    Settles low pending output pending' output' := by
  induction h with
  | refl pending output => exact .refl pending output
  | step position hlevel h ih => exact .step position (hle.trans hlevel) ih

theorem trans (h : Settles level pending output pending' output')
    (h' : Settles level pending' output' pending'' output'') :
    Settles level pending output pending'' output'' := by
  induction h with
  | refl => exact h'
  | step position hlevel h ih => exact .step position hlevel (ih h')

/-- No operator has the level of negations. -/
theorem eq_of_four (h : Settles 4 pending output pending' output') :
    pending = pending' ∧ output = output' := by
  cases h with
  | refl => exact ⟨rfl, rfl⟩
  | @step _ _ _ _ _ _ op position hlevel h =>
    have := op.precedence_mem
    omega

theorem settle (h : Settles op.precedence pending output pending' output') :
    Reading.settle op pending output = Reading.settle op pending' output' := by
  induction h with
  | refl => rfl
  | step position hlevel h ih =>
    rw [Reading.settle, if_neg (Nat.not_lt.2 hlevel)]
    exact ih

theorem close (h : Settles level pending output pending' output') (position : Nat) :
    Reading.close position pending output = Reading.close position pending' output' := by
  induction h with
  | refl => rfl
  | step place hlevel h ih => exact ih

theorem drain (h : Settles level pending output pending' output') :
    Reading.drain pending output = Reading.drain pending' output' := by
  induction h with
  | refl => rfl
  | step place hlevel h ih => exact ih

end Settles

/-- No pending operation of a level or a later one waits on top of the stack. -/
def Blocks (level : Nat) (pending : List Pending) : Prop :=
  ∀ op position, pending.head? = some (.operator op position) → op.precedence < level

theorem Blocks.nil (level : Nat) : Blocks level [] := by
  rintro op position ⟨⟩

theorem Blocks.settle (h : Blocks op.precedence pending) (output : List Expr) :
    Reading.settle op pending output = .ok (pending, output) := by
  cases pending with
  | nil => rfl
  | cons top pending =>
    cases top with
    | paren => rfl
    | operator top position => rw [Reading.settle, if_pos (h top position rfl)]

namespace Reading

theorem feedAll_append (r : Reading) (xs ys : List Lexeme) :
    r.feedAll (xs ++ ys) = (r.feedAll xs).bind (·.feedAll ys) := by
  induction xs generalizing r with
  | nil => rfl
  | cons x xs ih =>
    rw [List.cons_append, feedAll, feedAll]
    cases r.feed x with
    | error reason => rfl
    | ok next => exact ih next

end Reading

/-- Where an operand is expected, a phrase is taken in as a whole; what it leaves pending is carried
out before any operator of a lower level. -/
theorem Derives.feedAll (h : Derives level tokens e) (htokens : lexemes.map Lexeme.token = tokens)
    (hblocks : Blocks level pending) (output : List Expr) :
    ∃ pending' output',
      Reading.feedAll ⟨output, pending, true⟩ lexemes = .ok ⟨output', pending', false⟩ ∧
      Settles level pending' output' pending (e :: output) := by
  induction h generalizing lexemes pending output with
  | letter name =>
    obtain ⟨⟨token, position⟩, rfl, rfl⟩ := List.map_eq_singleton_iff.1 htokens
    exact ⟨_, _, rfl, .refl _ _⟩
  | @group tokens e h ih =>
    obtain ⟨first, inner, rfl, hfirst, hinner⟩ := List.map_eq_cons_iff.1 htokens
    obtain ⟨body, last, rfl, hbody, hlast⟩ := List.map_eq_append_iff.1 hinner
    obtain ⟨⟨token, stop⟩, rfl, rfl⟩ := List.map_eq_singleton_iff.1 hlast
    obtain ⟨token, start⟩ := first
    obtain rfl : token = .leftParen := hfirst
    -- The parenthesis keeps the operations before it away from those of the group.
    have hparen : Blocks 1 (.paren start :: pending) := by
      rintro op position ⟨⟩
    obtain ⟨pending', output', hrun, hsettles⟩ := ih hbody hparen output
    refine ⟨pending, e :: output, ?_, .refl _ _⟩
    show Reading.feedAll ⟨output, .paren start :: pending, true⟩ (body ++ [⟨.rightParen, stop⟩]) = _
    rw [Reading.feedAll_append, hrun]
    show (Reading.feed ⟨output', pending', false⟩ ⟨.rightParen, stop⟩).bind (·.feedAll []) = _
    simp only [Reading.feed, hsettles.close]
    rfl
  | @not tokens e h ih =>
    obtain ⟨body, last, rfl, hbody, hlast⟩ := List.map_eq_append_iff.1 htokens
    obtain ⟨⟨token, stop⟩, rfl, rfl⟩ := List.map_eq_singleton_iff.1 hlast
    obtain ⟨pending', output', hrun, hsettles⟩ := ih hbody hblocks output
    -- Nothing is pending on top, so the negation is that of the phrase itself.
    obtain ⟨rfl, rfl⟩ := hsettles.eq_of_four
    refine ⟨_, _, ?_, .refl _ _⟩
    rw [Reading.feedAll_append, hrun]
    rfl
  | @binary left right l r op hl hr ihl ihr =>
    obtain ⟨before, others, rfl, hbefore, hothers⟩ := List.map_eq_append_iff.1 htokens
    obtain ⟨⟨token, position⟩, after, rfl, rfl, hafter⟩ := List.map_eq_cons_iff.1 hothers
    obtain ⟨pending₁, output₁, hrun₁, hsettles₁⟩ := ihl hbefore hblocks output
    have hop : Blocks (op.precedence + 1) (.operator op position :: pending) := by
      rintro op' position' ⟨⟩
      exact Nat.lt_succ_self _
    obtain ⟨pending₂, output₂, hrun₂, hsettles₂⟩ := ihr hafter hop (l :: output)
    refine ⟨pending₂, output₂, ?_, ?_⟩
    · rw [Reading.feedAll_append, hrun₁]
      -- The operator settles what binds at least as tightly and then waits itself.
      show (Reading.feed ⟨output₁, pending₁, false⟩ ⟨.binary op, position⟩).bind
        (·.feedAll after) = _
      simp only [Reading.feed, hsettles₁.settle, hblocks.settle]
      exact hrun₂
    · exact (hsettles₂.mono (Nat.le_succ _)).trans (.step position le_rfl (.refl _ _))
  | lift h ih =>
    obtain ⟨pending', output', hrun, hsettles⟩ := ih htokens
      (fun op position htop => (hblocks op position htop).trans (Nat.lt_succ_self _)) output
    exact ⟨pending', output', hrun, hsettles.mono (Nat.le_succ _)⟩

/-- The reader with two stacks builds an expression exactly if the tokens are a phrase that means
it. -/
theorem Expr.ofLexemes_eq_ok (stop : Nat) :
    ofLexemes lexemes stop = .ok e ↔ Derives 1 (lexemes.map Lexeme.token) e := by
  rw [ofLexemes]
  constructor
  · intro h
    split at h
    · cases h
    · cases hrun : Reading.start.feedAll lexemes with
      | error reason =>
        rw [hrun] at h
        cases h
      | ok r =>
        rw [hrun] at h
        have hsound := (Reading.Sound.waiting .start).feedAll hrun
        replace h : r.finish stop = .ok e := h
        rcases hsound.finish stop with ⟨-, herror⟩ | ⟨-, _, _, -, herror⟩ | ⟨e', hfinish, hderives⟩
        · cases herror.symm.trans h
        · cases herror.symm.trans h
        · obtain rfl := Except.ok.inj (hfinish.symm.trans h)
          exact hderives
  · intro h
    have hne : ¬lexemes.isEmpty = true := by
      intro hempty
      rw [List.isEmpty_iff] at hempty
      have hpos := h.length_pos
      rw [hempty] at hpos
      exact absurd hpos (lt_irrefl 0)
    obtain ⟨pending, output, hrun, hsettles⟩ := h.feedAll rfl (.nil 1) []
    rw [if_neg hne, Reading.start, hrun]
    show Reading.finish ⟨output, pending, false⟩ stop = _
    simp only [Reading.finish, hsettles.drain]
    rfl

end TwoLevel
