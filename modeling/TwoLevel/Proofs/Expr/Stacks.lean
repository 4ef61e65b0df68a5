import TwoLevel.Proofs.Expr.Reading

/-!
# The stacks of the reader

This file proves how the two stacks of the reader fit together. There is one finished expression for
every operator that waits for its right operand, and one more when an operand has just ended. Carrying
out operations takes one away from both stacks, so every operation that is carried out finds its
two operands, and one expression is left when all have been carried out. Hence the reader refuses
a text only for a token out of its place or for a parenthesis, and never because a stack runs empty.

## Main definitions

- `pendingOperators` — the operators that wait for their right operands
- `Rising` — the levels of the operators rise between parentheses
- `Reading.Balanced` — the sizes of the stacks agree
- `Reading.Guarded` — no stack runs empty

## Main statements

- `Waiting.rising` — operators wait only above operators that bind less tightly
- `Settles.length_output` — carrying out operations keeps the difference of the sizes
- `reading_stacks` — the stacks after any tokens
-/

namespace TwoLevel

/-- The binary operators that are pending, the last one first. -/
def pendingOperators (pending : List Pending) : List Operator :=
  pending.filterMap fun
    | .operator op _ => some op
    | .paren _ => none

/-- Where no parenthesis comes between them, operators that were read later bind more tightly. -/
def Rising (pending : List Pending) : Prop :=
  ∀ group, group <:+: pending → openPositions group = [] →
    (pendingOperators group).Pairwise fun upper lower => lower.precedence < upper.precedence

namespace Reading

/-- There is one finished expression for every pending operator, and one more unless an operand must
come next. -/
def Balanced (r : Reading) : Prop :=
  r.output.length = (pendingOperators r.pending).length + if r.operandExpected then 0 else 1

/-- No stack runs empty before its time, so that a fault is always that of a token, of the end of the
text or of a parenthesis. -/
structure Guarded (r : Reading) : Prop where
  /-- A negation finds the expression that it negates. -/
  negation : r.operandExpected = false → r.output ≠ []
  /-- An operation finds its two operands, whatever has been carried out before it. -/
  operation : ∀ {level op position pending output}, r.operandExpected = false →
    Settles level r.pending r.output (.operator op position :: pending) output →
      ∃ output', combine op position output = .ok output'
  /-- When all operations have been carried out, one expression is left. -/
  root : ∀ {output}, r.operandExpected = false → drain r.pending r.output = .ok output →
    ∃ e, output = [e]
  /-- A lexeme is refused only if its token does not fit. -/
  feed : ∀ {lexeme reason}, r.feed lexeme = .error reason →
    Refused lexeme.position r.operandExpected lexeme.token reason
  /-- The end is refused only if an operand must come next or a parenthesis is open. -/
  finish : ∀ {stop reason}, r.finish stop = .error reason →
    r.operandExpected = true ∧ reason = .missingOperand stop ∨
    r.operandExpected = false ∧ ∃ last positions, openPositions r.pending = last :: positions ∧
      reason = .unbalancedParenthesis last

end Reading

variable {tokens : List Token} {pending pending' group : List Pending}
  {output output' : List Expr} {level : Nat} {op : Operator} {position : Nat} {r : Reading}
  {lexemes : List Lexeme}

@[simp] theorem pendingOperators_operator :
    pendingOperators (.operator op position :: pending) = op :: pendingOperators pending := rfl

@[simp] theorem pendingOperators_paren :
    pendingOperators (.paren position :: pending) = pendingOperators pending := rfl

/-! ### Levels of pending operators -/

namespace Waiting

/-- An operand has a later level than every operator that waits for it in the same parentheses. -/
theorem precedence_lt (h : Waiting tokens pending output level) (hgroup : group <+: pending)
    (hopen : openPositions group = []) : ∀ op ∈ pendingOperators group, op.precedence < level := by
  induction h generalizing group with
  | start =>
    obtain rfl := List.prefix_nil.1 hgroup
    rintro op ⟨⟩
  | paren position h ih =>
    rcases List.prefix_cons_iff.1 hgroup with rfl | ⟨others, rfl, -⟩
    · rintro op ⟨⟩
    · cases hopen
  | @operator _ _ _ _ _ _ last position h hlevel hleft ih =>
    rcases List.prefix_cons_iff.1 hgroup with rfl | ⟨others, rfl, hothers⟩
    · rintro op ⟨⟩
    · intro op hop
      rcases List.mem_cons.1 hop with rfl | hop
      · exact Nat.lt_succ_self _
      · have := ih hothers hopen op hop
        omega

theorem rising (h : Waiting tokens pending output level) : Rising pending := by
  induction h with
  | start =>
    intro group hgroup _
    obtain rfl := List.infix_nil.1 hgroup
    exact .nil
  | paren position h ih =>
    intro group hgroup hopen
    rcases List.infix_cons_iff.1 hgroup with hgroup | hgroup
    · rcases List.prefix_cons_iff.1 hgroup with rfl | ⟨others, rfl, -⟩
      · exact .nil
      · cases hopen
    · exact ih group hgroup hopen
  | @operator _ _ _ _ _ _ last position h hlevel hleft ih =>
    intro group hgroup hopen
    rcases List.infix_cons_iff.1 hgroup with hgroup | hgroup
    · rcases List.prefix_cons_iff.1 hgroup with rfl | ⟨others, rfl, hothers⟩
      · exact .nil
      · -- The left operand of the last operator stood where those below it wait for theirs.
        rw [pendingOperators_operator, List.pairwise_cons]
        exact ⟨fun op hop => (h.precedence_lt hothers hopen op hop).trans_le hlevel,
          ih others hothers.isInfix hopen⟩
    · exact ih group hgroup hopen

theorem length_output (h : Waiting tokens pending output level) :
    output.length = (pendingOperators pending).length := by
  induction h with
  | start => rfl
  | paren position h ih => rw [pendingOperators_paren, ih]
  | operator position h hlevel hleft ih =>
    rw [pendingOperators_operator, List.length_cons, List.length_cons, ih]

end Waiting

namespace Reading

theorem Sound.rising (h : Sound tokens r) : Rising r.pending := by
  cases h with
  | waiting h => exact h.rising
  | ended h =>
    obtain ⟨h, -, -⟩ := h
    exact h.rising

theorem Sound.balanced (h : Sound tokens r) : r.Balanced := by
  cases h with
  | waiting h => exact h.length_output
  | ended h =>
    obtain ⟨h, -, -⟩ := h
    exact congrArg Nat.succ h.length_output

end Reading

/-! ### Carrying out operations -/

/-- An operation takes one away from both stacks. -/
theorem Settles.length_output (h : Settles level pending output pending' output') :
    output.length + (pendingOperators pending').length =
      output'.length + (pendingOperators pending).length := by
  induction h with
  | refl => rfl
  | step position hlevel h ih =>
    simp only [List.length_cons, pendingOperators_operator] at ih ⊢
    omega

namespace Reading

/-- If the end is reached, all pending operations have been carried out. -/
theorem settles_of_drain (h : drain pending output = .ok output') :
    Settles 1 pending output [] output' := by
  induction pending generalizing output with
  | nil =>
    obtain rfl := Except.ok.inj h
    exact .refl _ _
  | cons top pending ih =>
    cases top with
    | paren position => cases h
    | operator op position =>
      rw [drain] at h
      rcases output with _ | ⟨right, _ | ⟨left, output⟩⟩
      · cases h
      · cases h
      · exact .step position op.precedence_mem.1 (ih h)

namespace Balanced

theorem length_output (h : r.Balanced) (hended : r.operandExpected = false) :
    r.output.length = (pendingOperators r.pending).length + 1 := by
  rwa [Balanced, hended] at h

theorem combine (h : r.Balanced) (hended : r.operandExpected = false)
    (hsettles : Settles level r.pending r.output (.operator op position :: pending) output) :
    ∃ output', Reading.combine op position output = .ok output' := by
  have hlength := hsettles.length_output
  rw [h.length_output hended, pendingOperators_operator, List.length_cons] at hlength
  rcases output with _ | ⟨right, _ | ⟨left, output⟩⟩
  · rw [List.length_nil] at hlength
    omega
  · rw [List.length_singleton] at hlength
    omega
  · exact ⟨_, rfl⟩

theorem drain (h : r.Balanced) (hended : r.operandExpected = false)
    (hdrain : Reading.drain r.pending r.output = .ok output) : ∃ e, output = [e] := by
  have hlength := (settles_of_drain hdrain).length_output
  rw [h.length_output hended] at hlength
  refine List.length_eq_one_iff.1 ?_
  change _ + 0 = _ at hlength
  omega

end Balanced

theorem Sound.guarded (h : Sound tokens r) : r.Guarded where
  negation hended hnil := by
    have hlength := h.balanced.length_output hended
    rw [hnil] at hlength
    cases hlength
  operation := h.balanced.combine
  root := h.balanced.drain
  feed {lexeme reason} herror := by
    rcases h.feed lexeme with ⟨reason', hfeed, hrefused⟩ | ⟨r', hfeed, -⟩
    · obtain rfl := Except.error.inj (hfeed.symm.trans herror)
      exact hrefused
    · cases hfeed.symm.trans herror
  finish := h.of_finish_eq_error

end Reading

/-- After any tokens that have been accepted there are as many finished expressions as pending
operators, and one more when no operand is expected; the pending operators rise between parentheses;
and nothing that is carried out later finds a stack empty. -/
theorem reading_stacks (h : Reading.start.feedAll lexemes = .ok r) :
    r.Balanced ∧ Rising r.pending ∧ r.Guarded := by
  have hsound := (Reading.Sound.waiting .start).feedAll h
  exact ⟨hsound.balanced, hsound.rising, hsound.guarded⟩

/-- An operator inside a group may bind less tightly than one that waits outside it. -/
theorem reading_stacks_group :
    Reading.start.feedAll [⟨.letter 'A', 0⟩, ⟨.binary .xor, 1⟩, ⟨.leftParen, 2⟩, ⟨.letter 'B', 3⟩,
      ⟨.binary .or, 4⟩, ⟨.letter 'C', 5⟩, ⟨.binary .and, 6⟩, ⟨.letter 'D', 7⟩] =
        .ok ⟨[.letter 'D', .letter 'C', .letter 'B', .letter 'A'],
          [.operator .and 6, .operator .or 4, .paren 2, .operator .xor 1], false⟩ ∧
    Reading.Balanced ⟨[.letter 'D', .letter 'C', .letter 'B', .letter 'A'],
      [.operator .and 6, .operator .or 4, .paren 2, .operator .xor 1], false⟩ ∧
    Rising [.operator .and 6, .operator .or 4, .paren 2, .operator .xor 1] ∧
    Reading.Guarded ⟨[.letter 'D', .letter 'C', .letter 'B', .letter 'A'],
      [.operator .and 6, .operator .or 4, .paren 2, .operator .xor 1], false⟩ := by
  have hread : Reading.start.feedAll [⟨.letter 'A', 0⟩, ⟨.binary .xor, 1⟩, ⟨.leftParen, 2⟩,
      ⟨.letter 'B', 3⟩, ⟨.binary .or, 4⟩, ⟨.letter 'C', 5⟩, ⟨.binary .and, 6⟩, ⟨.letter 'D', 7⟩] =
        .ok ⟨[.letter 'D', .letter 'C', .letter 'B', .letter 'A'],
          [.operator .and 6, .operator .or 4, .paren 2, .operator .xor 1], false⟩ := rfl
  exact ⟨hread, reading_stacks hread⟩

end TwoLevel
