import TwoLevel.Proofs.Cover.Transfer
import TwoLevel.Proofs.Cube.Opposite
import TwoLevel.Proofs.Minimize.Value

/-!
# Sums of products and products of sums are dual

The dual of a function has the other value on the opposite row, so its ones are the opposites of the
zeros. This file proves that the sum of products of the dual has the terms of the product of sums of
the function, literal by literal and in the same order. The opposite of a row lies above this row,
the opposite of a cube agrees with it, and complementing both the values and the plain value keeps
the order keys; so the selections correspond.

## Main definitions

- `FormKind.dual` — the other kind of form

## Main statements

- `coverOf_opposite` — the cubes selected for the opposite rows
- `Form.ofTargets_dual` — forms of the opposite rows
- `minimize_dual` — both forms of a function and of its dual
-/

namespace TwoLevel

/-- The other kind of form. -/
def FormKind.dual : FormKind → FormKind
  | sumOfProducts => productOfSums
  | productOfSums => sumOfProducts

theorem FormKind.plain_dual (kind : FormKind) : kind.dual.plain = !kind.plain := by
  cases kind <;> rfl

variable {w : Nat} {rows duals targets dualTargets : List Nat} {letters : Letters}
  {kind : FormKind}

/-! ### Selections -/

/-- Every row lies below its opposite, and below no other row. -/
theorem liesAbove_oppositeRow (hrows : ∀ row ∈ rows, row < 2 ^ w)
    (hduals : duals.Perm (rows.map (oppositeRow w))) : LiesAbove (oppositeRow w) 1 duals rows := by
  have hsingle : rows.flatMap (List.replicate 1) = rows := List.flatMap_singleton' rows
  rw [LiesAbove, hsingle, ← map_oppositeRow_map hrows]
  exact hduals.map (oppositeRow w)

theorem lt_of_mem_duals (hduals : duals.Perm (rows.map (oppositeRow w))) :
    ∀ row ∈ duals, row < 2 ^ w :=
  fun _ hrow => lt_of_mem_map_oppositeRow (hduals.subset hrow)

namespace Cube

theorem lifts_opposite {cubes : List Cube} (hw : w ≤ 32) (hfits : ∀ c ∈ cubes, c.Fits w)
    {upper : List Nat} (hupper : ∀ row ∈ upper, row < 2 ^ w) (plain : Bool) :
    Lifts opposite (oppositeRow w) plain (!plain) cubes upper where
  covers_eq c hc row hrow := (hfits c hc).covers_opposite hw (hupper row hrow)
  literalCount_eq c hc := (hfits c hc).literalCount_opposite hw
  orderKey_lt c hc d hd := by
    rw [(hfits c hc).orderKey_opposite hw, (hfits d hd).orderKey_opposite hw]

end Cube

/-- The cubes selected for the opposite rows are the opposite cubes. -/
theorem coverOf_opposite (hw : w ≤ 32) (hrows : ∀ row ∈ rows, row < 2 ^ w)
    (hduals : duals.Perm (rows.map (oppositeRow w))) (order order' : VisitOrder)
    (strategy : Strategy) (plain : Bool) :
    coverOf order' strategy (!plain) w duals =
      (coverOf order strategy plain w rows).map Cube.opposite := by
  have hduals' := lt_of_mem_duals hduals
  have hfits : ∀ c ∈ Cube.primes order w rows, c.Fits w :=
    fun c hc => ((Cube.mem_primes hw hrows order).1 hc).fits
  have hfits' : ∀ c ∈ Cube.primes order' w duals, c.Fits w :=
    fun c hc => ((Cube.mem_primes hw hduals' order').1 hc).fits
  refine Selection.cubes_map Nat.one_pos (liesAbove_oppositeRow hrows hduals)
    (Cube.lifts_opposite hw hfits hduals' plain) hfits hfits' (Cube.nodup_primes order)
    (Cube.nodup_primes order') (fun d => ?_) (Cube.covering_primes hw hrows order) strategy
  simp only [Cube.mem_primes hw hduals' order', Cube.mem_primes hw hrows order]
  rw [Cube.isPrime_congr hduals]
  exact Cube.isPrime_opposite_iff hw hrows

/-! ### Forms -/

namespace Form

/-- A literal of the opposite cube is written in the same way in a form of the other kind. -/
theorem literals_opposite {f g : Form} (hkind : g.kind = f.kind.dual)
    (hletters : g.letters = f.letters) {c : Cube} (hc : c.Fits f.letters.size) :
    g.literals c.opposite = f.literals c := by
  rw [literals, literals, hletters, hkind, FormKind.plain_dual]
  refine List.filterMap_congr fun ⟨letter, position⟩ hentry => ?_
  obtain ⟨hlt, -⟩ := List.getElem?_eq_some_iff.1 (List.mem_zipIdx_iff_getElem?.1 hentry)
  dsimp only
  rw [hc.value?_opposite f.letters.size_le_word hlt, Option.map_map]
  congr 1
  funext value
  cases value <;> cases f.kind.plain <;> rfl

variable (hrows : ∀ row ∈ targets, row < 2 ^ letters.size)
  (hduals : dualTargets.Perm (targets.map (oppositeRow letters.size))) (order order' : VisitOrder)
  (strategy : Strategy) (kind : FormKind)

include hrows hduals

/-- The form of the other kind of the opposite rows is the opposite constant, or it consists of the
opposite cubes. -/
theorem body_ofTargets_dual :
    (∃ value, (ofTargets order strategy kind letters targets).body = .constant value ∧
      (ofTargets order' strategy kind.dual letters dualTargets).body = .constant !value) ∨
    ∃ cs : List Cube, (∀ c ∈ cs, c.Fits letters.size) ∧
      (ofTargets order strategy kind letters targets).body = .cubes cs ∧
      (ofTargets order' strategy kind.dual letters dualTargets).body =
        .cubes (cs.map Cube.opposite) := by
  have hlength : dualTargets.length = targets.length := by
    rw [hduals.length_eq, List.length_map]
  by_cases hnil : targets = []
  · subst hnil
    refine .inl ⟨_, body_ofTargets_nil, ?_⟩
    rw [List.eq_nil_of_length_eq_zero hlength, body_ofTargets_nil]
    cases kind <;> rfl
  · by_cases hall : targets.length = 2 ^ letters.size
    · refine .inl ⟨_, body_ofTargets_of_length hall, ?_⟩
      rw [body_ofTargets_of_length (hlength.trans hall)]
      cases kind <;> rfl
    · refine .inr ⟨_, fun c hc => (isPrime_of_mem_coverOf hrows hc).fits,
        body_ofTargets hnil hall, ?_⟩
      have hnil' : dualTargets ≠ [] := by
        rintro rfl
        exact hnil (List.eq_nil_of_length_eq_zero hlength.symm)
      rw [body_ofTargets hnil' (by rwa [hlength]), FormKind.plain_dual,
        coverOf_opposite letters.size_le_word hrows hduals order]

/-- The form of the other kind of the opposite rows has the same terms in the same order, and if it
is constant it is the other constant. -/
theorem ofTargets_dual :
    (ofTargets order' strategy kind.dual letters dualTargets).terms =
        (ofTargets order strategy kind letters targets).terms ∧
      (ofTargets order' strategy kind.dual letters dualTargets).constant? =
        (ofTargets order strategy kind letters targets).constant?.map not := by
  rcases body_ofTargets_dual hrows hduals order order' strategy kind with
    ⟨value, hbody, hdual⟩ | ⟨cs, hfits, hbody, hdual⟩
  · simp only [terms, cubes, constant?, hbody, hdual, List.map_nil, Option.map_some, and_self]
  · refine ⟨?_, by rw [constant?, constant?, hbody, hdual, Option.map_none]⟩
    rw [terms, terms, cubes, cubes, hbody, hdual, List.map_map]
    refine List.map_congr_left fun c hc => ?_
    exact literals_opposite (f := ofTargets order strategy kind letters targets)
      (g := ofTargets order' strategy kind.dual letters dualTargets) rfl rfl (hfits c hc)

end Form

/-! ### Partitions -/

/-- The opposites of the zeros and of the ones are the ones and the zeros of the dual. -/
theorem IsPartition.opposite {minterms maxterms minterms' maxterms' : List Nat}
    (hpart : IsPartition letters minterms maxterms)
    (hones : minterms'.Perm (maxterms.map (oppositeRow letters.size)))
    (hzeros : maxterms'.Perm (minterms.map (oppositeRow letters.size))) :
    IsPartition letters minterms' maxterms' := by
  have hrange : (List.range (2 ^ letters.size)).map (oppositeRow letters.size) =
      (List.range (2 ^ letters.size)).reverse := by
    conv_rhs => rw [List.range_eq_range', List.reverse_range']
    simp [oppositeRow]
  refine (hones.append hzeros).trans ?_
  rw [← List.map_append]
  refine (hpart.symm.map (oppositeRow letters.size)).trans ?_
  rw [hrange]
  exact List.reverse_perm _

/-- Sums of products and products of sums are dual. The dual of a function is true on the opposites
of its zeros and false on the opposites of its ones, listed in any order. By either strategy the sum
of products of the dual has the terms of the product of sums of the function, and the product of
sums of the dual those of the sum of products of the function, each in the same order; where one is
constant, the other is the other constant. -/
theorem minimize_dual {minterms maxterms minterms' maxterms' : List Nat} (hsize : 0 < letters.size)
    (hpart : IsPartition letters minterms maxterms)
    (hones : minterms'.Perm (maxterms.map (oppositeRow letters.size)))
    (hzeros : maxterms'.Perm (minterms.map (oppositeRow letters.size))) (strategy : Strategy) :
    ∃ m d, Minimized.ofPartition strategy letters minterms maxterms = .ok m ∧
      Minimized.ofPartition strategy letters minterms' maxterms' = .ok d ∧
      d.sop.terms = m.pos.terms ∧ d.pos.terms = m.sop.terms ∧
      d.sop.constant? = m.pos.constant?.map not ∧ d.pos.constant? = m.sop.constant?.map not := by
  obtain ⟨hsop, hsopConstant⟩ := Form.ofTargets_dual (fun _ => hpart.symm.lt_of_mem) hones
    .listed .listed strategy .productOfSums
  obtain ⟨hpos, hposConstant⟩ := Form.ofTargets_dual (fun _ => hpart.lt_of_mem) hzeros
    .listed .listed strategy .sumOfProducts
  exact ⟨_, _, Minimized.ofPartitionIn_eq_ok hsize hpart .listed strategy,
    Minimized.ofPartitionIn_eq_ok hsize (hpart.opposite hones hzeros) .listed strategy, hsop, hpos,
    hsopConstant, hposConstant⟩

/-- A function of three letters without essential cubes, and its dual. -/
theorem minimize_dual_cyclic :
    0 < (Letters.ofChars ['A', 'B', 'C']).size ∧
      IsPartition (.ofChars ['A', 'B', 'C']) [0, 1, 2, 5, 6, 7] [3, 4] ∧
      ∃ m d, Minimized.ofPartition .greedy (.ofChars ['A', 'B', 'C'])
          [0, 1, 2, 5, 6, 7] [3, 4] = .ok m ∧
        Minimized.ofPartition .greedy (.ofChars ['A', 'B', 'C'])
          [3, 4] [0, 1, 2, 5, 6, 7] = .ok d ∧
        d.sop.terms = m.pos.terms ∧ d.pos.terms = m.sop.terms := by
  have hsize : (Letters.ofChars ['A', 'B', 'C']).size = 3 := by decide
  have hpos : 0 < (Letters.ofChars ['A', 'B', 'C']).size := by rw [hsize]; decide
  have hpart : IsPartition (.ofChars ['A', 'B', 'C']) [0, 1, 2, 5, 6, 7] [3, 4] := by
    rw [IsPartition, hsize]
    decide
  have hones : [3, 4].Perm ([3, 4].map (oppositeRow (Letters.ofChars ['A', 'B', 'C']).size)) := by
    rw [hsize]
    decide
  have hzeros : [0, 1, 2, 5, 6, 7].Perm
      ([0, 1, 2, 5, 6, 7].map (oppositeRow (Letters.ofChars ['A', 'B', 'C']).size)) := by
    rw [hsize]
    decide
  obtain ⟨m, d, hm, hd, hsop, hposTerms, -⟩ := minimize_dual hpos hpart hones hzeros .greedy
  exact ⟨hpos, hpart, m, d, hm, hd, hsop, hposTerms⟩

end TwoLevel
