import TwoLevel.Proofs.Minimize.Text
import TwoLevel.Proofs.Minimize.Vacuous
import TwoLevel.Proofs.Tabulation

/-!
# Minimized texts are canonical

This file proves that the text of a minimized form determines the function and is determined by it.
Two formulas with the same function are both tabulated over the union of their letters, which
changes neither terms nor text. Conversely the text of a form that is not constant is an expression
of the function, and the text of a constant is no expression.

## Main statements

- `Form.value_terms_ofFun` — the terms of a form have the value of the function
- `Form.exists_parse_render` — the text of a form is an expression of the function
- `Form.render_ofFun_eq_iff` — texts and functions determine each other
- `minimize_canonical` — minimized texts are canonical
-/

namespace TwoLevel

variable {s s₁ s₂ : Letters} {F F₁ F₂ : (Char → Bool) → Bool} {strategy : Strategy}
  {kind : FormKind} {f : Formula}

/-- The letters that belong to one of two sets. -/
def Letters.union (s₁ s₂ : Letters) : Letters :=
  ⟨alphabet.filter fun name => s₁.toList.contains name || s₂.toList.contains name,
    List.filter_sublist⟩

namespace Letters

theorem subset_union_left (s₁ s₂ : Letters) : s₁.toList ⊆ (s₁.union s₂).toList := by
  intro name hname
  exact List.mem_filter.2 ⟨s₁.sublist.subset hname, by simp [hname]⟩

theorem subset_union_right (s₁ s₂ : Letters) : s₂.toList ⊆ (s₁.union s₂).toList := by
  intro name hname
  exact List.mem_filter.2 ⟨s₂.sublist.subset hname, by simp [hname]⟩

end Letters

namespace Form

/-- Forms of the same function over different letters agree. -/
theorem ofFun_eq_ofFun (h₁ : DependsOn s₁ F) (h₂ : DependsOn s₂ F) (strategy : Strategy)
    (kind : FormKind) :
    (ofFun strategy kind s₁ F).terms = (ofFun strategy kind s₂ F).terms ∧
      (ofFun strategy kind s₁ F).render = (ofFun strategy kind s₂ F).render := by
  obtain ⟨-, hterms₁, htext₁⟩ := ofFun_widen h₁ (Letters.subset_union_left s₁ s₂) strategy kind
  obtain ⟨-, hterms₂, htext₂⟩ := ofFun_widen h₂ (Letters.subset_union_right s₁ s₂) strategy kind
  exact ⟨hterms₁.symm.trans hterms₂, htext₁.symm.trans htext₂⟩

/-! ### Forms with terms -/

section Terms

variable (hF : DependsOn s F) (hvaries : ∀ value, ∃ v, F v ≠ value) (strategy : Strategy)
  (kind : FormKind)

include hF hvaries

theorem constant?_ofFun : (ofFun strategy kind s F).constant? = none := by
  rw [constant?, body_ofFun hF hvaries]

/-- The terms of a form have the value of the function. -/
theorem value_terms_ofFun (v : Char → Bool) :
    kind.value v (ofFun strategy kind s F).terms = F v := by
  -- The truth values agree with the row that they name.
  have hvalue : kind.value v (ofFun strategy kind s F).terms = kind.plain ↔
      s.rowOf v ∈ s.rowsWhere fun v => F v == kind.plain :=
    value_terms_ofTargets (fun _ => Letters.lt_of_mem_rowsWhere)
      (constant?_ofFun hF hvaries strategy kind) (s.rowOf_lt v) (s.readsRow_rowOf v)
  rw [Letters.mem_rowsWhere, beq_iff_eq, hF.valueAt_rowOf] at hvalue
  apply bool_eq_of_iff kind.plain
  exact hvalue.trans ⟨fun h => h.2, fun h => ⟨s.rowOf_lt v, h⟩⟩

/-- The text of a form with terms is an expression of the function over the same letters. -/
theorem exists_parse_render : ∃ g, Formula.parse (ofFun strategy kind s F).render = .ok g ∧
    g.letters.toList ⊆ s.toList ∧ ∀ v, g.root.eval v = F v := by
  obtain ⟨-, g, hg, -, hletters, heval⟩ := exists_parse_ofTargets
    (fun _ => Letters.lt_of_mem_rowsWhere) (constant?_ofFun hF hvaries strategy kind)
    (List.nodup_range.filter _)
  exact ⟨g, hg, hletters,
    fun v => (heval v).trans (value_terms_ofFun hF hvaries strategy kind v)⟩

end Terms

/-! ### Texts -/

theorem render_ofFun_of_const {value : Bool} (h : ∀ v, F v = value) :
    (ofFun strategy kind s F).render = [if value then '1' else '0'] := by
  rw [render, body_ofFun_of_const h]

/-- The text of a constant is no expression. -/
theorem parse_constant_ne (value : Bool) (g : Formula) :
    Formula.parse [if value then '1' else '0'] ≠ .ok g := by
  intro h
  have hallowed := (Formula.parse_eq_ok.1 h).1 _ List.mem_cons_self
  rw [IsAllowed] at hallowed
  revert hallowed
  cases value <;> decide

/-- A constant and a function that is not constant have different texts. -/
theorem render_ofFun_ne {value : Bool} (hconst : ∀ v, F₁ v = value) (h₂ : DependsOn s₂ F₂)
    (hvaries : ∀ value, ∃ v, F₂ v ≠ value) :
    (ofFun strategy kind s₁ F₁).render ≠ (ofFun strategy kind s₂ F₂).render := by
  intro h
  obtain ⟨g, hg, -⟩ := exists_parse_render h₂ hvaries strategy kind
  rw [← h, render_ofFun_of_const hconst] at hg
  exact parse_constant_ne value g hg

theorem eq_of_render_eq (h₁ : DependsOn s₁ F₁) (h₂ : DependsOn s₂ F₂)
    (h : (ofFun strategy kind s₁ F₁).render = (ofFun strategy kind s₂ F₂).render)
    (v : Char → Bool) : F₁ v = F₂ v := by
  by_cases hconst₁ : ∃ value, ∀ v, F₁ v = value
  · obtain ⟨value₁, hvalue₁⟩ := hconst₁
    by_cases hconst₂ : ∃ value, ∀ v, F₂ v = value
    · obtain ⟨value₂, hvalue₂⟩ := hconst₂
      rw [render_ofFun_of_const hvalue₁, render_ofFun_of_const hvalue₂] at h
      rw [hvalue₁, hvalue₂]
      revert h
      cases value₁ <;> cases value₂ <;> decide
    · exact absurd h (render_ofFun_ne hvalue₁ h₂ (by simpa using hconst₂))
  · have hvaries₁ : ∀ value, ∃ v, F₁ v ≠ value := by simpa using hconst₁
    by_cases hconst₂ : ∃ value, ∀ v, F₂ v = value
    · obtain ⟨value₂, hvalue₂⟩ := hconst₂
      exact absurd h.symm (render_ofFun_ne hvalue₂ h₁ hvaries₁)
    · -- Both texts are read back as one formula, whose value is that of either function.
      obtain ⟨g₁, hg₁, -, heval₁⟩ := exists_parse_render h₁ hvaries₁ strategy kind
      obtain ⟨g₂, hg₂, -, heval₂⟩ := exists_parse_render h₂ (by simpa using hconst₂) strategy kind
      rw [h, hg₂, Except.ok.injEq] at hg₁
      rw [← heval₁, ← heval₂, hg₁]

/-- Two functions are equal exactly if their forms of a kind have the same text. -/
theorem render_ofFun_eq_iff (h₁ : DependsOn s₁ F₁) (h₂ : DependsOn s₂ F₂) (strategy : Strategy)
    (kind : FormKind) : (∀ v, F₁ v = F₂ v) ↔
      (ofFun strategy kind s₁ F₁).render = (ofFun strategy kind s₂ F₂).render := by
  refine ⟨fun h => ?_, eq_of_render_eq h₁ h₂⟩
  obtain rfl : F₁ = F₂ := funext h
  exact (ofFun_eq_ofFun h₁ h₂ strategy kind).2

end Form

/-! ### Formulas -/

namespace Formula

/-- A formula within the limit has the two forms of its function. -/
theorem minimize_eq (hsize : 0 < f.letters.size) (config : Config)
    (hlimit : f.letters.size ≤ TruthTable.effectiveLimit config.limit) :
    f.minimize config = .ok ⟨.ofFun config.strategy .sumOfProducts f.letters f.root.eval,
      .ofFun config.strategy .productOfSums f.letters f.root.eval⟩ := by
  let t := TruthTable.ofFun f.letters fun row => f.root.eval (f.letters.valueAt row)
  have htable : TruthTable.ofFormula config.limit f = .ok t := by
    rw [TruthTable.ofFormula, if_neg (Nat.not_lt.2 hlimit)]
    rfl
  have hforms : t.minimize config.strategy = .ok ⟨.ofTargets .listed config.strategy
      .sumOfProducts f.letters t.minterms, .ofTargets .listed config.strategy .productOfSums
      f.letters t.maxterms⟩ :=
    TruthTable.minimize_eq config.strategy hsize
  rw [minimize, htable]
  show (t.minimize config.strategy).mapError Fault.minimization = _
  rw [hforms, TruthTable.minterms, TruthTable.maxterms, TruthTable.indicesOf_ofFun,
    TruthTable.indicesOf_ofFun]
  rfl

end Formula

/-- Minimized texts are canonical. Two formulas within the limit have the same function exactly if
their sums of products have the same text, and exactly if their products of sums have; then also the
terms are the same, whatever letters without influence occur. Minimizing the text of a form that is
not constant gives the same two texts again. -/
theorem minimize_canonical (config : Config) {text₁ text₂ : List Char} {f₁ f₂ : Formula}
    (h₁ : Formula.parse text₁ = .ok f₁) (h₂ : Formula.parse text₂ = .ok f₂)
    (hlimit₁ : f₁.letters.size ≤ TruthTable.effectiveLimit config.limit)
    (hlimit₂ : f₂.letters.size ≤ TruthTable.effectiveLimit config.limit) :
    ∃ m₁ m₂, f₁.minimize config = .ok m₁ ∧ f₂.minimize config = .ok m₂ ∧
      ((∀ v, f₁.root.eval v = f₂.root.eval v) ↔ m₁.sop.render = m₂.sop.render) ∧
      ((∀ v, f₁.root.eval v = f₂.root.eval v) ↔ m₁.pos.render = m₂.pos.render) ∧
      ((∀ v, f₁.root.eval v = f₂.root.eval v) →
        m₁.sop.terms = m₂.sop.terms ∧ m₁.pos.terms = m₂.pos.terms) ∧
      ∀ form ∈ [m₁.sop, m₁.pos], form.constant? = none →
        ∃ g m, Formula.parse form.render = .ok g ∧ g.minimize config = .ok m ∧
          m.sop.render = m₁.sop.render ∧ m.pos.render = m₁.pos.render := by
  have hF₁ := Formula.dependsOn h₁
  have hF₂ := Formula.dependsOn h₂
  refine ⟨_, _, Formula.minimize_eq (Formula.size_pos h₁) config hlimit₁,
    Formula.minimize_eq (Formula.size_pos h₂) config hlimit₂,
    Form.render_ofFun_eq_iff hF₁ hF₂ config.strategy .sumOfProducts,
    Form.render_ofFun_eq_iff hF₁ hF₂ config.strategy .productOfSums, fun h => ?_,
    fun form hform hconstant => ?_⟩
  · rw [← funext h] at hF₂ ⊢
    exact ⟨(Form.ofFun_eq_ofFun hF₁ hF₂ config.strategy .sumOfProducts).1,
      (Form.ofFun_eq_ofFun hF₁ hF₂ config.strategy .productOfSums).1⟩
  · obtain ⟨kind, rfl⟩ : ∃ kind, form = .ofFun config.strategy kind f₁.letters f₁.root.eval := by
      rcases List.mem_pair.1 hform with rfl | rfl
      · exact ⟨.sumOfProducts, rfl⟩
      · exact ⟨.productOfSums, rfl⟩
    -- The text of the form is a formula of the same function, over some of the same letters.
    have hvaries : ∀ value, ∃ v, f₁.root.eval v ≠ value := by
      intro value
      by_contra hconst
      have hall : ∀ v, f₁.root.eval v = value := by simpa using hconst
      rw [Form.constant?, Form.body_ofFun_of_const hall] at hconstant
      cases hconstant
    obtain ⟨g, hg, hletters, heval⟩ := Form.exists_parse_render hF₁ hvaries config.strategy kind
    have hlimit : g.letters.size ≤ TruthTable.effectiveLimit config.limit :=
      (Letters.sublist_of_subset hletters).length_le.trans hlimit₁
    refine ⟨g, _, hg, Formula.minimize_eq (Formula.size_pos hg) config hlimit, ?_, ?_⟩
    · exact (Form.render_ofFun_eq_iff (Formula.dependsOn hg) hF₁ config.strategy _).1 heval
    · exact (Form.render_ofFun_eq_iff (Formula.dependsOn hg) hF₁ config.strategy _).1 heval

/-- A letter without influence leaves no trace: a sum that absorbs a product is minimized to the
same texts as the single letter. -/
theorem minimize_canonical_absorption :
    ∃ f₁ f₂, Formula.parse ['a', '+', 'a', '.', 'b'] = .ok f₁ ∧ Formula.parse ['A'] = .ok f₂ ∧
      f₁.letters.size ≤ TruthTable.effectiveLimit 20 ∧
      f₂.letters.size ≤ TruthTable.effectiveLimit 20 ∧
      ∃ m₁ m₂, f₁.minimize ⟨20, .exact⟩ = .ok m₁ ∧ f₂.minimize ⟨20, .exact⟩ = .ok m₂ ∧
        m₁.sop.render = m₂.sop.render ∧ m₁.pos.render = m₂.pos.render := by
  let f₁ : Formula := ⟨.binary .or (.letter 'A') (.binary .and (.letter 'A') (.letter 'B')),
    .ofChars ['A', 'A', 'B']⟩
  let f₂ : Formula := ⟨.letter 'A', .ofChars ['A']⟩
  have h₁ : Formula.parse ['a', '+', 'a', '.', 'b'] = .ok f₁ := rfl
  have h₂ : Formula.parse ['A'] = .ok f₂ := rfl
  have hlimit₁ : f₁.letters.size ≤ TruthTable.effectiveLimit 20 := by decide
  have hlimit₂ : f₂.letters.size ≤ TruthTable.effectiveLimit 20 := by decide
  have hsame : ∀ v, f₁.root.eval v = f₂.root.eval v := by
    intro v
    show (v 'A' || (v 'A' && v 'B')) = v 'A'
    cases v 'A' <;> rfl
  obtain ⟨m₁, m₂, hm₁, hm₂, hsop, hpos, -⟩ :=
    minimize_canonical ⟨20, .exact⟩ h₁ h₂ hlimit₁ hlimit₂
  exact ⟨f₁, f₂, h₁, h₂, hlimit₁, hlimit₂, m₁, m₂, hm₁, hm₂, hsop.1 hsame, hpos.1 hsame⟩

end TwoLevel
