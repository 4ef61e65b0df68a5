import TwoLevel.Proofs.Refusal
import TwoLevel.Proofs.Signs

/-!
# Accepted texts by neighbours and parentheses

This file says which texts are accepted without a grammar. Operands begin exactly where one must
come, which is a matter of neighbouring tokens, and all parentheses belong together; these two
conditions are also enough, because the reader refuses nothing else. Hence a text remains accepted
when a pair of parentheses is taken away.

## Main definitions

- `Token.Precedes`, `Alternates` — tokens that may stand behind one another, and lists of them

## Main statements

- `Derives.alternates`, `Derives.isBalanced` — phrases satisfy both conditions
- `isAccepted_of_alternates` — texts that satisfy both are accepted
- `Alternates.erase`, `IsBalanced.erase` — what remains without a pair satisfies both
-/

namespace TwoLevel

/-- Whether a token begins an operand. -/
def Token.startsOperand : Token → Bool
  | letter _ => true
  | leftParen => true
  | _ => false

/-- A token may stand behind another one: an operand begins exactly where one must come. -/
def Token.Precedes (a b : Token) : Prop :=
  b.startsOperand = a.awaitsOperand

/-- Between parentheses, every token may stand behind the one before it. -/
def Alternates (tokens : List Token) : Prop :=
  List.IsChain Token.Precedes (.leftParen :: (tokens ++ [.rightParen]))

variable {tokens before after left right : List Token} {inner : List Token} {token a b : Token}
  {level : Nat} {e : Expr} {op : Operator} {text : List Char} {c : Char} {r : Reading}

/-! ### Neighbours -/

/-- An element of a chain can be left out if its neighbours may stand behind one another. -/
theorem isChain_of_isChain_cons {α : Type} {R : α → α → Prop} {m : α} {xs ys : List α}
    (hm : ∀ a b, R a m → R m b → R a b) (h : List.IsChain R (xs ++ m :: ys)) :
    List.IsChain R (xs ++ ys) := by
  obtain ⟨hxs, hrest, hleft⟩ := List.isChain_append.1 h
  obtain ⟨hright, hys⟩ := List.isChain_cons.1 hrest
  exact hxs.append hys fun a ha b hb => hm a b (hleft a ha m rfl) (hright b hb)

/-- The last token of a chain may be exchanged for one that begins an operand if and only if the
other does. -/
theorem Token.isChain_concat (tokens : List Token) (hab : a.startsOperand = b.startsOperand)
    (h : List.IsChain Precedes (tokens ++ [a])) : List.IsChain Precedes (tokens ++ [b]) := by
  obtain ⟨htokens, -, hlast⟩ := List.isChain_append.1 h
  refine htokens.append (.singleton b) fun x hx y hy => ?_
  obtain rfl : b = y := Option.some.inj hy
  exact hab.symm.trans (hlast x hx a rfl)

/-- The first token of a chain may be exchanged for one that awaits an operand if and only if the
other does. -/
theorem Token.isChain_cons (hab : a.awaitsOperand = b.awaitsOperand)
    (h : List.IsChain Precedes (a :: tokens)) : List.IsChain Precedes (b :: tokens) := by
  obtain ⟨hfirst, htokens⟩ := List.isChain_cons.1 h
  exact List.isChain_cons.2 ⟨fun y hy => (hfirst y hy).trans hab, htokens⟩

namespace Alternates

theorem group (h : Alternates tokens) : Alternates (.leftParen :: (tokens ++ [.rightParen])) := by
  have hright : List.IsChain Token.Precedes
      (.leftParen :: tokens ++ [.rightParen] ++ [.rightParen]) :=
    h.append (.singleton _) fun x hx y hy => by
      rw [← List.cons_append, List.getLast?_concat] at hx
      obtain rfl : Token.rightParen = x := Option.some.inj hx
      obtain rfl : Token.rightParen = y := Option.some.inj hy
      rfl
  exact List.isChain_cons_cons.2 ⟨rfl, by simpa using hright⟩

theorem not (h : Alternates tokens) : Alternates (tokens ++ [.not]) := by
  rw [Alternates, List.append_assoc, List.singleton_append, List.isChain_cons_append_cons_cons]
  exact ⟨Token.isChain_concat (.leftParen :: tokens) (a := .rightParen) rfl h, rfl, .singleton _⟩

theorem binary (op : Operator) (hl : Alternates left) (hr : Alternates right) :
    Alternates (left ++ .binary op :: right) := by
  rw [Alternates, List.append_assoc, List.cons_append, List.isChain_cons_split]
  exact ⟨Token.isChain_concat (.leftParen :: left) (a := .rightParen) rfl hl,
    Token.isChain_cons (a := .leftParen) rfl hr⟩

/-- A token begins an operand exactly if one must come after the tokens before it. -/
theorem startsOperand_eq (h : Alternates (before ++ token :: after)) :
    token.startsOperand = expectsOperand before := by
  rw [Alternates, List.append_assoc, ← List.cons_append, List.isChain_append] at h
  have hlast := h.2.2 (before.getLast?.getD .leftParen) (by rw [List.getLast?_cons]; rfl) token rfl
  rw [hlast, expectsOperand]
  cases before.getLast? <;> rfl

theorem expectsOperand_eq (h : Alternates tokens) : expectsOperand tokens = false := by
  rw [Alternates, ← List.cons_append, List.isChain_append] at h
  have hlast := h.2.2 (tokens.getLast?.getD .leftParen) (by rw [List.getLast?_cons]; rfl)
    .rightParen rfl
  rw [expectsOperand]
  cases hl : tokens.getLast? with
  | none => rw [hl] at hlast; cases hlast
  | some last => rw [hl] at hlast; exact hlast.symm

/-- Without a pair of parentheses, every token may still stand behind the one before it. -/
theorem erase (h : Alternates (before ++ .leftParen :: (inner ++ .rightParen :: after))) :
    Alternates (before ++ inner ++ after) := by
  have hopen : ∀ a b, Token.Precedes a .leftParen → Token.Precedes .leftParen b → a.Precedes b :=
    fun a b ha hb => Eq.trans hb ha
  have hclose : ∀ a b, Token.Precedes a .rightParen → Token.Precedes .rightParen b → a.Precedes b :=
    fun a b ha hb => Eq.trans hb ha
  have hwhole : List.IsChain Token.Precedes (.leftParen :: before ++
      .leftParen :: (inner ++ .rightParen :: (after ++ [.rightParen]))) := by
    simpa [Alternates] using h
  have hinner := isChain_of_isChain_cons hopen hwhole
  rw [← List.append_assoc] at hinner
  simpa [Alternates] using isChain_of_isChain_cons hclose hinner

end Alternates

theorem Derives.alternates (h : Derives level tokens e) : Alternates tokens := by
  induction h with
  | letter name => exact .cons_cons rfl (.cons_cons rfl (.singleton _))
  | group h ih => exact ih.group
  | not h ih => exact ih.not
  | binary op hl hr ihl ihr => exact ihl.binary op ihr
  | lift h ih => exact ih

/-! ### Parentheses -/

theorem Derives.isBalanced (h : Derives level tokens e)
    (hletters : ∀ name ∈ e.letters, name ∈ alphabet) : IsBalanced (tokens.map Token.symbol) := by
  induction h with
  | letter name =>
    have hname := hletters name List.mem_cons_self
    refine .singleton ?_ ?_
    · rintro rfl
      exact absurd hname (by decide)
    · rintro rfl
      exact absurd hname (by decide)
  | group h ih => simpa [Token.symbol] using (ih hletters).group
  | not h ih =>
    rw [List.map_append]
    exact (ih hletters).append (.singleton (by decide) (by decide))
  | binary op hl hr ihl ihr =>
    obtain ⟨hleft, hright⟩ := List.forall_mem_append.1 hletters
    have hop : IsBalanced [op.symbol] := by
      cases op <;> exact .singleton (by decide) (by decide)
    rw [List.map_append]
    exact (ihl hleft).append (hop.append (ihr hright))
  | lift h ih => exact ih hletters

/-- Without a pair of parentheses that belong together, the others still do. -/
theorem IsBalanced.erase {before inner after : List Char} (hinner : IsBalanced inner)
    (h : IsBalanced (before ++ '(' :: (inner ++ ')' :: after))) :
    IsBalanced (before ++ inner ++ after) := by
  have hcount := h.count_eq
  simp only [List.count_append, List.count_cons] at hcount
  refine ⟨?_, by simp at hcount ⊢; omega⟩
  have hfront : StaysOpen (before ++ inner) := h.staysOpen.of_append.append hinner.staysOpen
  intro front back heq
  -- A place inside what follows the pair has both parentheses of the pair before it.
  rcases List.append_eq_append_iff.1 heq with ⟨more, rfl, hsplit⟩ | ⟨more, hsplit, -⟩
  · have hmore := h.staysOpen (before ++ '(' :: (inner ++ ')' :: more)) back (by simp [hsplit])
    simp only [List.count_append, List.count_cons] at hmore ⊢
    simp at hmore
    omega
  · exact hfront front more hsplit

theorem Opened.isBalanced (h : Opened text []) : IsBalanced text := by
  cases h with
  | balanced h => exact h

theorem Opened.eq_nil {positions : List Nat} (h : Opened text positions)
    (hbalanced : IsBalanced text) : positions = [] := by
  cases h with
  | balanced => rfl
  | opening h hpiece => exact absurd hpiece.staysOpen (hbalanced.not_staysOpen rfl)

/-! ### Acceptance -/

/-- A character is not at fault if its token may stand behind the one before it and it closes no
parenthesis too many. -/
theorem Reading.Follows.not_faultAt {reason : ParseError} (h : Follows text r)
    (hallowed : ∀ d ∈ text, IsAllowed d)
    (hstarts : ∀ token, Token.ofChar? c = some token →
      token.startsOperand = expectsOperand (tokensOf text))
    (hopen : StaysOpen (text ++ [c])) : ¬FaultAt text c reason := by
  intro hfault
  obtain ⟨token, htoken, hrefused⟩ := hfault.refused
  have hstart := hstarts token htoken
  have hexpected := h.operandExpected_eq
  generalize expectsOperand (tokensOf text) = expected at hrefused hstart hexpected
  cases hrefused with
  | letter => cases hstart
  | leftParen => cases hstart
  | not => cases hstart
  | binary => cases hstart
  | emptyGroup => cases hstart
  | rightParen =>
    obtain rfl : c = ')' := (Token.ofChar?_eq_some rfl).1 htoken
    -- A parenthesis that is open could be closed here.
    have hopened := h.opened
    have hcompleted := h.isAccepted hallowed
    rw [completion, hexpected] at hcompleted
    cases hpositions : openPositions r.pending with
    | nil =>
      rw [hpositions] at hopened
      have hcount := hopened.isBalanced.count_eq
      have hlast := hopen (text ++ [')']) [] (List.append_nil _).symm
      simp at hlast
      omega
    | cons position positions =>
      rw [hpositions] at hcompleted
      exact hfault.dead _ hcompleted

/-- A text is read to any place without a fault if its tokens may stand behind one another and it
closes no parenthesis too many. -/
theorem Reading.exists_follows (hallowed : ∀ c ∈ text, IsAllowed c)
    (halternates : Alternates (tokensOf text)) (hopen : StaysOpen text) {front back : List Char}
    (hsplit : text = front ++ back) : ∃ r, ofText front = .ok r ∧ Follows front r := by
  induction front using List.reverseRecOn generalizing back with
  | nil => exact ⟨start, rfl, .nil⟩
  | append_singleton front c ih =>
    subst hsplit
    obtain ⟨r, hr, hfollows⟩ := ih (List.append_assoc front [c] back)
    obtain ⟨hfront, hc⟩ := List.forall_mem_append.1 (List.forall_mem_append.1 hallowed).1
    rcases hfollows.step hr hfront (hc c List.mem_cons_self) with hread | ⟨reason, -, hfault⟩
    · exact hread
    · refine absurd hfault (hfollows.not_faultAt hfront (fun token htoken => ?_) hopen.of_append)
      have hblank : ¬isBlank c = true := by simp [(Token.of_ofChar? htoken).1]
      rw [tokensOf_append, tokensOf_append, tokensOf_singleton hblank htoken, List.append_assoc]
        at halternates
      exact halternates.startsOperand_eq

/-- A text is accepted if its tokens may stand behind one another and all its parentheses belong
together. -/
theorem isAccepted_of_alternates (hallowed : ∀ c ∈ text, IsAllowed c)
    (halternates : Alternates (tokensOf text)) (hbalanced : IsBalanced text) : IsAccepted text := by
  obtain ⟨r, -, hfollows⟩ := Reading.exists_follows hallowed halternates hbalanced.staysOpen
    (List.append_nil text).symm
  have hcompleted := hfollows.isAccepted hallowed
  rw [Reading.completion, hfollows.operandExpected_eq, halternates.expectsOperand_eq,
    hfollows.opened.eq_nil hbalanced] at hcompleted
  simpa using hcompleted

end TwoLevel
