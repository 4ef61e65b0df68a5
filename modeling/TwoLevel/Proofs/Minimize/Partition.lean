import TwoLevel.Minimize
import TwoLevel.Proofs.TruthTable

/-!
# Checking a partition

This file proves that the check of two lists of rows finds no fault exactly if they name every row
once.

## Main statements

- `firstClash?_eq_none_iff`, `leastMissing?_eq_none_iff` — the two halves of the check
- `partitionFault?_eq_none_iff` — the check as a whole
- `Minimized.ofPartitionIn_eq_ok`, `TruthTable.minimize_eq` — a partition has two forms
-/

namespace TwoLevel

theorem firstClash?_eq_none_iff {bound : Nat} {seen rows : List Nat} :
    firstClash? bound seen rows = none ↔
      rows.Nodup ∧ ∀ row ∈ rows, row < bound ∧ row ∉ seen := by
  induction rows generalizing seen with
  | nil => simp [firstClash?]
  | cons row rows ih =>
    rw [firstClash?]
    split
    · next hclash =>
      rw [Bool.or_eq_true, decide_eq_true_eq, List.contains_iff_mem] at hclash
      simp only [reduceCtorEq, false_iff, List.mem_cons, not_and]
      intro _ hall
      obtain ⟨hlt, hnew⟩ := hall row (.inl rfl)
      exact hclash.elim (by omega) hnew
    · next hfresh =>
      rw [Bool.or_eq_true, decide_eq_true_eq, List.contains_iff_mem, not_or] at hfresh
      rw [ih, List.nodup_cons]
      constructor
      · rintro ⟨hnodup, hall⟩
        refine ⟨⟨fun hmem => (hall row hmem).2 List.mem_cons_self, hnodup⟩, fun r hr => ?_⟩
        rcases List.mem_cons.1 hr with rfl | hr
        · exact ⟨by omega, hfresh.2⟩
        · exact ⟨(hall r hr).1, fun hseen => (hall r hr).2 (List.mem_cons_of_mem _ hseen)⟩
      · rintro ⟨⟨hrow, hnodup⟩, hall⟩
        refine ⟨hnodup, fun r hr => ⟨(hall r (List.mem_cons_of_mem _ hr)).1, fun hseen => ?_⟩⟩
        rcases List.mem_cons.1 hseen with rfl | hseen
        · exact hrow hr
        · exact (hall r (List.mem_cons_of_mem _ hr)).2 hseen

theorem leastMissing?_eq_none_iff {bound start : Nat} {listed : List Nat} :
    leastMissing? bound listed start = none ↔ ∀ row, start ≤ row → row < bound → row ∈ listed := by
  induction hn : bound - start generalizing start with
  | zero =>
    rw [leastMissing?, if_neg (by omega)]
    simp only [true_iff]
    intro row hstart hlt
    omega
  | succ n ih =>
    rw [leastMissing?, if_pos (by omega)]
    split
    · next hmem =>
      rw [ih (by omega)]
      constructor
      · intro h row hstart hlt
        rcases Nat.eq_or_lt_of_le hstart with rfl | hstart
        · exact List.contains_iff_mem.1 hmem
        · exact h row hstart hlt
      · intro h row hstart hlt
        exact h row (by omega) hlt
    · next hmissing =>
      simp only [reduceCtorEq, false_iff]
      intro h
      exact hmissing (List.contains_iff_mem.2 (h start le_rfl (by omega)))

/-- There is no fault exactly if every number below the bound is listed once. -/
theorem partitionFault?_eq_none_iff {bound : Nat} {listed : List Nat} :
    partitionFault? bound listed = none ↔ listed.Perm (List.range bound) := by
  rw [partitionFault?, Option.or_eq_none_iff, firstClash?_eq_none_iff, leastMissing?_eq_none_iff]
  constructor
  · rintro ⟨⟨hnodup, hbound⟩, hall⟩
    refine (List.perm_ext_iff_of_nodup hnodup List.nodup_range).2 fun row => ?_
    rw [List.mem_range]
    exact ⟨fun hrow => (hbound row hrow).1, fun hlt => hall row (Nat.zero_le _) hlt⟩
  · intro hperm
    refine ⟨⟨hperm.nodup_iff.2 List.nodup_range, fun row hrow => ⟨?_, List.not_mem_nil⟩⟩, ?_⟩
    · exact List.mem_range.1 (hperm.mem_iff.1 hrow)
    · intro row _ hlt
      exact hperm.mem_iff.2 (List.mem_range.2 hlt)

/-- A partition of the rows over some letters has a form of either kind. -/
theorem Minimized.ofPartitionIn_eq_ok {letters : Letters} {minterms maxterms : List Nat}
    (hsize : 0 < letters.size) (hpart : IsPartition letters minterms maxterms)
    (order : VisitOrder) (strategy : Strategy) :
    ofPartitionIn order strategy letters minterms maxterms =
      .ok ⟨.ofTargets order strategy .sumOfProducts letters minterms,
        .ofTargets order strategy .productOfSums letters maxterms⟩ := by
  have hfault : partitionFault? letters.rowCount (minterms ++ maxterms) = none := by
    rw [letters.rowCount_eq]
    exact partitionFault?_eq_none_iff.2 hpart
  rw [ofPartitionIn, if_neg (by omega), hfault]

/-- The forms of a table with letters. -/
theorem TruthTable.minimize_eq {t : TruthTable} (strategy : Strategy) (hwidth : 0 < t.width) :
    t.minimize strategy = .ok ⟨.ofTargets .listed strategy .sumOfProducts t.letters t.minterms,
      .ofTargets .listed strategy .productOfSums t.letters t.maxterms⟩ :=
  Minimized.ofPartitionIn_eq_ok hwidth t.isPartition .listed strategy

/-- The forms of a formula that has a table are those of the table. -/
theorem Formula.minimize_of_ofFormula {f : Formula} {t : TruthTable} {config : Config}
    {m : Minimized} (ht : TruthTable.ofFormula config.limit f = .ok t)
    (hm : t.minimize config.strategy = .ok m) : f.minimize config = .ok m := by
  rw [Formula.minimize, ht]
  exact congrArg (Except.mapError Fault.minimization) hm

end TwoLevel
