import TwoLevel.Proofs.Cube.Primes
import TwoLevel.Proofs.Minimize.Value

/-!
# Forms forget the order of the rows

This file proves that minimization gives the same forms however the rows of a partition are listed,
and in whatever order the cubes of each round are visited. Every stage forgets the order that it was
given: the primes are put in ascending order and then in that of their keys, the essential ones are
taken in the order of the primes, and the rows that these leave are sorted.

## Main statements

- `Selection.ofPrimes_perm` — a selection does not depend on the order of the rows
- `Form.ofTargets_perm` — a form depends neither on the order of the rows nor on that of the visits
- `minimize_order_independent` — both forms of a partition
-/

namespace TwoLevel

variable {cubes primes : List Cube} {rows rows' : List Nat} {s : Letters}

namespace Cube

theorem essentials_perm (h : rows.Perm rows') : essentials cubes rows = essentials cubes rows' := by
  rw [essentials, essentials]
  apply List.filter_congr
  intro c _
  exact (h.filterMap (soleOwner? cubes)).contains_eq

theorem uncoveredRows_perm (h : rows.Perm rows') :
    uncoveredRows cubes rows = uncoveredRows cubes rows' :=
  mergeSort_eq_of_perm (h.filter _)

end Cube

/-- A selection does not depend on the order in which the rows are listed. -/
theorem Selection.ofPrimes_perm (h : rows.Perm rows') (plain : Bool) (strategy : Strategy) :
    ofPrimes primes rows plain strategy = ofPrimes primes rows' plain strategy := by
  have hessential : Cube.essentials (Cube.sortByKey plain primes) rows =
      Cube.essentials (Cube.sortByKey plain primes) rows' := Cube.essentials_perm h
  simp only [ofPrimes, hessential, Cube.uncoveredRows_perm h]

namespace Form

/-- A form depends neither on the order in which its targets are listed nor on that in which the
cubes of each round are visited. -/
theorem ofTargets_perm {targets targets' : List Nat}
    (hrows : ∀ row ∈ targets, row < 2 ^ s.size) (h : targets.Perm targets')
    (order order' : VisitOrder) (strategy : Strategy) (kind : FormKind) :
    ofTargets order strategy kind s targets = ofTargets order' strategy kind s targets' := by
  have hprimes := Cube.primes_eq s.size_le_word hrows h order order'
  have hbody : (ofTargets order strategy kind s targets).body =
      (ofTargets order' strategy kind s targets').body := by
    by_cases hnil : targets = []
    · subst hnil
      rw [List.nil_perm.1 h, body_ofTargets_nil, body_ofTargets_nil]
    · have hnil' : targets' ≠ [] := fun hnone => hnil (List.perm_nil.1 (hnone ▸ h))
      by_cases hlen : targets.length = 2 ^ s.size
      · rw [body_ofTargets_of_length hlen, body_ofTargets_of_length (h.length_eq ▸ hlen)]
      · rw [body_ofTargets hnil hlen, body_ofTargets hnil' (h.length_eq ▸ hlen), coverOf, coverOf,
          hprimes, Selection.ofPrimes_perm h]
  exact congrArg (Form.mk kind s) hbody

end Form

/-- Minimization of a partition gives the same forms when its rows are listed in another order, and
when the cubes of each round are visited in another order. -/
theorem minimize_order_independent {minterms minterms' maxterms maxterms' : List Nat}
    (hsize : 0 < s.size) (hpart : IsPartition s minterms maxterms)
    (hones : minterms.Perm minterms') (hzeros : maxterms.Perm maxterms')
    (order order' : VisitOrder) (strategy : Strategy) :
    ∃ m, Minimized.ofPartitionIn order strategy s minterms maxterms = .ok m ∧
      Minimized.ofPartitionIn order' strategy s minterms' maxterms' = .ok m := by
  have hpart' : IsPartition s minterms' maxterms' := (hones.append hzeros).symm.trans hpart
  refine ⟨_, Minimized.ofPartitionIn_eq_ok hsize hpart order strategy, ?_⟩
  rw [Minimized.ofPartitionIn_eq_ok hsize hpart' order' strategy,
    Form.ofTargets_perm (fun _ => hpart.lt_of_mem) hones order order',
    Form.ofTargets_perm (fun _ => hpart.symm.lt_of_mem) hzeros order order']

/-- A function of three letters whose rows are listed in two orders, when the cubes of the second
run are visited backwards. -/
theorem minimize_order_independent_cyclic :
    0 < (Letters.ofChars ['A', 'B', 'C']).size ∧
      IsPartition (.ofChars ['A', 'B', 'C']) [0, 1, 2, 5, 6, 7] [3, 4] ∧
      [0, 1, 2, 5, 6, 7].Perm [5, 7, 0, 6, 2, 1] ∧ [3, 4].Perm [4, 3] ∧
      ∃ m, Minimized.ofPartitionIn .listed .greedy (.ofChars ['A', 'B', 'C'])
          [0, 1, 2, 5, 6, 7] [3, 4] = .ok m ∧
        Minimized.ofPartitionIn
          ⟨fun _ cubes => cubes.reverse, fun _ cubes => cubes.reverse_perm⟩ .greedy
          (.ofChars ['A', 'B', 'C']) [5, 7, 0, 6, 2, 1] [4, 3] = .ok m := by
  have hpos : 0 < (Letters.ofChars ['A', 'B', 'C']).size := by decide
  have hpart : IsPartition (.ofChars ['A', 'B', 'C']) [0, 1, 2, 5, 6, 7] [3, 4] := by decide
  have hones : [0, 1, 2, 5, 6, 7].Perm [5, 7, 0, 6, 2, 1] := by decide
  have hzeros : [3, 4].Perm [4, 3] := by decide
  exact ⟨hpos, hpart, hones, hzeros,
    minimize_order_independent hpos hpart hones hzeros .listed _ .greedy⟩

end TwoLevel
