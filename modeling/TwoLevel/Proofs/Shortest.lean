import TwoLevel.Proofs.Neighbours

/-!
# The shortest notation

This file proves that an expression is printed in its shortest notation. Whatever text denotes it,
the printed text comes from its signs by taking away pairs of parentheses: a phrase of a level needs
none at a place of this level, and where the printer writes some, a phrase cannot do without them.
So no notation is shorter, and a printed text without one more pair denotes something else.

## Main definitions

- `DropsPair` — a text without one pair of parentheses that belong together

## Main statements

- `Derives.drops` — a phrase becomes the printed one when pairs are taken away
- `IsAccepted.of_dropsPair` — without a pair, the symbols of a phrase are still accepted
- `render_shortest` — the printed text among all that denote the same expression
-/

namespace TwoLevel

/-- A text without one pair of parentheses that belong together. -/
inductive DropsPair : List Char → List Char → Prop where
  | intro (before : List Char) {inner : List Char} (after : List Char) (h : IsBalanced inner) :
      DropsPair (before ++ '(' :: (inner ++ ')' :: after)) (before ++ inner ++ after)

variable {text shorter : List Char} {tokens fewer : List Token} {level : Nat} {e : Expr}
  {op : Operator} {f g : Formula}

/-! ### Taking pairs away -/

namespace DropsPair

theorem append (h : DropsPair text shorter) (front back : List Char) :
    DropsPair (front ++ text ++ back) (front ++ shorter ++ back) := by
  cases h with
  | intro before after h => simpa using intro (front ++ before) (after ++ back) h

theorem length_eq (h : DropsPair text shorter) : text.length = shorter.length + 2 := by
  cases h with
  | intro before after h =>
    simp only [List.length_append, List.length_cons]
    omega

/-- Pairs may be taken away anywhere among the symbols of some tokens. -/
theorem append_of_reflTransGen
    (h : Relation.ReflTransGen DropsPair (tokens.map Token.symbol) (fewer.map Token.symbol))
    (front back : List Token) :
    Relation.ReflTransGen DropsPair ((front ++ tokens ++ back).map Token.symbol)
      ((front ++ fewer ++ back).map Token.symbol) := by
  simp only [List.map_append]
  exact Relation.ReflTransGen.lift (front.map Token.symbol ++ · ++ back.map Token.symbol)
    (fun _ _ hstep => hstep.append _ _) _ _ h

theorem length_le_of_reflTransGen (h : Relation.ReflTransGen DropsPair text shorter) :
    shorter.length ≤ text.length := by
  induction h with
  | refl => exact le_rfl
  | tail _ hstep ih =>
    have := hstep.length_eq
    omega

/-- If nothing becomes shorter, no pair has been taken away. -/
theorem eq_of_reflTransGen (h : Relation.ReflTransGen DropsPair text shorter)
    (hlength : shorter.length = text.length) : text = shorter := by
  cases h with
  | refl => rfl
  | tail hbefore hstep =>
    have hle := length_le_of_reflTransGen hbefore
    have := hstep.length_eq
    omega

end DropsPair

/-! ### From a phrase to the printed one -/

/-- An operation is not wrapped where a phrase of its level may stand. -/
theorem Place.wraps_eq_false {place : Place} (h : place.level ≤ op.precedence) :
    place.wraps op = false := by
  cases place with
  | top => rfl
  | negated => cases op <;> exact absurd h (by decide)
  | leftOf parent => exact decide_eq_false (Nat.not_lt.2 h)
  | rightOf parent => exact decide_eq_false (Nat.not_le.2 h)

/-- An expression is printed at a place as it is alone, or in parentheses. -/
theorem Expr.tokensAt_cases (place : Place) (e : Expr) :
    e.tokensAt place = e.tokens ∨ e.tokensAt place = .leftParen :: (e.tokens ++ [.rightParen]) := by
  cases e with
  | letter name => exact .inl rfl
  | not operand => exact .inl rfl
  | binary op left right =>
    by_cases hwrap : place.wraps op = true
    · exact .inr (if_pos hwrap)
    · exact .inl (if_neg hwrap)

/-- A phrase becomes what is printed for its expression when pairs of parentheses are taken away, at
every place at which it may stand. -/
theorem Derives.drops (h : Derives level tokens e) (hletters : ∀ name ∈ e.letters, name ∈ alphabet)
    (place : Place) (hplace : place.level ≤ level) :
    Relation.ReflTransGen DropsPair (tokens.map Token.symbol)
      ((e.tokensAt place).map Token.symbol) := by
  induction h generalizing place with
  | letter name => exact .refl
  | @group tokens e h ih =>
    have hinner : Relation.ReflTransGen DropsPair (tokens.map Token.symbol)
        (e.tokens.map Token.symbol) := ih hletters .top le_rfl
    rcases e.tokensAt_cases place with hsame | hwrapped
    · -- These parentheses are not needed.
      have hpair := DropsPair.intro [] [] (h.isBalanced hletters)
      rw [hsame]
      exact .head (by simpa [Token.symbol] using hpair) hinner
    · rw [hwrapped]
      exact DropsPair.append_of_reflTransGen hinner [.leftParen] [.rightParen]
  | not h ih =>
    have hoperand := ih hletters .negated le_rfl
    exact DropsPair.append_of_reflTransGen hoperand [] [.not]
  | @binary left right l r op hl hr ihl ihr =>
    obtain ⟨hleft, hright⟩ := List.forall_mem_append.1 hletters
    have hfirst := DropsPair.append_of_reflTransGen (ihl hleft (.leftOf op) le_rfl) []
      (.binary op :: right)
    have hsecond := DropsPair.append_of_reflTransGen (ihr hright (.rightOf op) le_rfl)
      (l.tokensAt (.leftOf op) ++ [.binary op]) []
    have hprinted : (Expr.binary op l r).tokensAt place =
        l.tokensAt (.leftOf op) ++ .binary op :: r.tokensAt (.rightOf op) :=
      if_neg (by simp [Place.wraps_eq_false hplace])
    rw [hprinted]
    exact hfirst.trans (by simpa using hsecond)
  | lift h ih => exact ih hletters place (Nat.le_succ_of_le hplace)

/-! ### From the printed text to a shorter one -/

theorem tokensOf_cons {c : Char} (token : Token) (h : Token.ofChar? c = some token)
    (text : List Char) : tokensOf (c :: text) = token :: tokensOf text := by
  rw [← List.singleton_append, tokensOf_append,
    tokensOf_singleton (by simp [(Token.of_ofChar? h).1]) h]
  rfl

/-- Without a pair of parentheses, the symbols of a phrase are still accepted. -/
theorem IsAccepted.of_dropsPair (h : Derives 1 tokens e)
    (hletters : ∀ name ∈ e.letters, name ∈ alphabet)
    (hdrops : DropsPair (tokens.map Token.symbol) shorter) : IsAccepted shorter := by
  have hbalanced := h.isBalanced hletters
  have hnames : ∀ name, .letter name ∈ tokens → name ∈ alphabet := by
    intro name hname
    exact hletters name (h.letters_eq ▸ List.mem_filterMap.2 ⟨_, hname, rfl⟩)
  obtain ⟨hallowed, htokens⟩ := tokensOf_map_symbol tokens fun name hname =>
    (of_mem_alphabet (hnames name hname)).2.1
  have halternates := h.toUpper.alternates
  rw [← htokens] at halternates
  generalize tokens.map Token.symbol = printed at hdrops hbalanced hallowed halternates
  cases hdrops with
  | @intro before inner after hinner =>
    rw [tokensOf_append, tokensOf_cons .leftParen rfl, tokensOf_append,
      tokensOf_cons .rightParen rfl] at halternates
    refine isAccepted_of_alternates (fun c hc => hallowed c ?_) ?_ (hinner.erase hbalanced)
    · simp only [List.mem_append, List.mem_cons] at hc ⊢
      tauto
    · rw [tokensOf_append, tokensOf_append]
      exact halternates.erase

namespace Formula

/-- The printed text comes from the signs of any text with the same expression. -/
theorem drops_render (h : parse text = .ok f) :
    Relation.ReflTransGen DropsPair (signsOf text) f.render := by
  obtain ⟨hallowed, hderives, -⟩ := parse_eq_ok.1 h
  rw [signsOf_eq_map_symbol hallowed]
  exact hderives.drops (fun name => mem_alphabet h) .top le_rfl

theorem length_render_le (h : parse text = .ok f) : f.render.length ≤ text.length :=
  (DropsPair.length_le_of_reflTransGen (drops_render h)).trans (length_signsOf_le text)

theorem map_toUpper_eq_render (h : parse text = .ok f) (hlength : text.length = f.render.length) :
    text.map Char.toUpper = f.render := by
  have hdrops := drops_render h
  have hle := DropsPair.length_le_of_reflTransGen hdrops
  have hsigns := length_signsOf_le text
  rw [← signsOf_eq_of_length (by omega)]
  exact DropsPair.eq_of_reflTransGen hdrops (by omega)

theorem render_eq_of_root_eq (h : g.root = f.root) : g.render = f.render := by
  rw [render, render, h]

end Formula

/-- The text that is printed for an expression is the shortest that denotes it. It comes from the
signs of any text that denotes the expression by taking away pairs of parentheses that belong
together; so no such text is shorter, and one of the same length is the printed text up to the case
of its letters. If one more pair is taken away, another expression is denoted. -/
theorem render_shortest (h : Formula.parse text = .ok f) :
    Relation.ReflTransGen DropsPair (signsOf text) f.render ∧
    (∀ other g, Formula.parse other = .ok g → g.root = f.root →
      f.render.length ≤ other.length ∧
      (other.length = f.render.length → other.map Char.toUpper = f.render)) ∧
    ∀ shorter, DropsPair f.render shorter →
      ∃ g, Formula.parse shorter = .ok g ∧ g.root ≠ f.root := by
  refine ⟨Formula.drops_render h, fun other g hg hroot => ?_, fun shorter hdrops => ?_⟩
  · rw [← Formula.render_eq_of_root_eq hroot]
    exact ⟨Formula.length_render_le hg, Formula.map_toUpper_eq_render hg⟩
  · obtain ⟨g, hg⟩ := IsAccepted.of_dropsPair (derives_tokensAt .top f.root)
      (fun name => Formula.mem_alphabet h) hdrops
    refine ⟨g, hg, fun hroot => ?_⟩
    have hle := Formula.length_render_le hg
    rw [Formula.render_eq_of_root_eq hroot, hdrops.length_eq] at hle
    omega

/-- Of a text with two pairs of parentheses one is taken away; without the other, the negated letter
would be a factor of the second summand only. -/
theorem render_shortest_grouped :
    ∃ f, Formula.parse ['(', 'a', ' ', '+', 'B', ')', '.', '(', 'c', '\'', ')'] = .ok f ∧
      Relation.ReflTransGen DropsPair ['(', 'A', '+', 'B', ')', '.', '(', 'C', '\'', ')']
        ['(', 'A', '+', 'B', ')', '.', 'C', '\''] ∧
      Formula.parse ['(', 'a', '+', 'b', ')', '.', 'c', '\''] = .ok f ∧
      ['(', 'a', '+', 'b', ')', '.', 'c', '\''].map Char.toUpper = f.render ∧
      DropsPair f.render ['A', '+', 'B', '.', 'C', '\''] ∧
      ∃ g, Formula.parse ['A', '+', 'B', '.', 'C', '\''] = .ok g ∧ g.root ≠ f.root := by
  let f : Formula := ⟨.binary .and (.binary .or (.letter 'A') (.letter 'B')) (.not (.letter 'C')),
    .ofChars ['A', 'B', 'C']⟩
  have hf : Formula.parse ['(', 'a', ' ', '+', 'B', ')', '.', '(', 'c', '\'', ')'] = .ok f := rfl
  have hother : Formula.parse ['(', 'a', '+', 'b', ')', '.', 'c', '\''] = .ok f := rfl
  have hdrops : DropsPair f.render ['A', '+', 'B', '.', 'C', '\''] := by
    have hinner : IsBalanced ['A', '+', 'B'] :=
      (IsBalanced.singleton (by decide) (by decide)).append
        ((IsBalanced.singleton (by decide) (by decide)).append
          (.singleton (c := 'B') (by decide) (by decide)))
    exact DropsPair.intro [] ['.', 'C', '\''] hinner
  obtain ⟨hpairs, hshortest, hneeded⟩ := render_shortest hf
  exact ⟨f, hf, hpairs, hother, (hshortest _ f hother rfl).2 rfl, hdrops, hneeded _ hdrops⟩

end TwoLevel
