import TwoLevel.Cover.Selection
import TwoLevel.Proofs.Cover.Exact
import TwoLevel.Proofs.Cover.Greedy
import TwoLevel.Proofs.Cube.OrderKey

/-!
# Selected terms

This file proves two things about the selection of terms from the primes of some rows. Whatever the
strategy, it takes only primes and covers every row that some prime covers. By the exact strategy no
other choice of primes with the same property costs less: the essential primes belong to every such
choice, and the rest is a best cover of the rows that they leave uncovered.

## Main definitions

- `Cube.cost` — the number of terms, then that of literals

## Main statements

- `Selection.extension_ofPrimes_greedy`, `Selection.extension_ofPrimes_exact` — essential cubes may be
  passed over when further ones are chosen
- `Selection.covering` — a selection covers all rows
- `Selection.cost_le` — an exact selection costs least
-/

namespace TwoLevel

variable {plain : Bool} {cubes primes : List Cube} {rows : List Nat} {c : Cube} {row : Nat}

namespace Cube

/-! ### Costs -/

/-- The cost of some terms: their number, then the number of their literals. -/
def cost (cubes : List Cube) : Nat ×ₗ Nat := toLex (cubes.length, literalTotal cubes)

theorem literalTotal_eq_sum (cubes : List Cube) :
    literalTotal cubes = (cubes.map literalCount).sum := by
  induction cubes with
  | nil => rfl
  | cons c cs ih => rw [List.map_cons, List.sum_cons, ← ih, literalTotal, List.foldr_cons]; rfl

theorem literalTotal_append (cs ds : List Cube) :
    literalTotal (cs ++ ds) = literalTotal cs + literalTotal ds := by
  simp only [literalTotal_eq_sum, List.map_append, List.sum_append]

/-- Some of the terms, each taken at most as often as before, cost no more. -/
theorem cost_le_of_subperm {cs ds : List Cube} (h : cs.Subperm ds) : cost cs ≤ cost ds := by
  have hliterals : literalTotal cs ≤ literalTotal ds := by
    obtain ⟨es, hperm, hsub⟩ := h
    rw [literalTotal_eq_sum, literalTotal_eq_sum, ← (hperm.map literalCount).sum_eq]
    exact (hsub.map literalCount).sum_le_sum fun _ _ => Nat.zero_le _
  exact Prod.Lex.toLex_mono ⟨h.length_le, hliterals⟩

/-- Terms that are added to both sides do not change which side costs more. -/
theorem cost_append_le (es : List Cube) {cs ds : List Cube} (h : cost cs ≤ cost ds) :
    cost (es ++ cs) ≤ cost (es ++ ds) := by
  simp only [cost, Prod.Lex.toLex_le_toLex, List.length_append, literalTotal_append] at h ⊢
  omega

/-! ### Essential cubes -/

theorem soleOwner?_eq_some :
    soleOwner? cubes row = some c ↔ cubes.filter (·.covers row) = [c] := by
  rw [soleOwner?]
  split
  · next d hd => rw [hd, Option.some.injEq, List.cons.injEq]; simp
  · next hother =>
    refine ⟨fun h => by simp at h, fun h => absurd h (hother c)⟩

theorem mem_essentials :
    c ∈ essentials cubes rows ↔ ∃ row ∈ rows, cubes.filter (·.covers row) = [c] := by
  rw [essentials, List.mem_filter, List.contains_iff_mem, List.mem_filterMap]
  simp only [soleOwner?_eq_some]
  constructor
  · rintro ⟨-, h⟩
    exact h
  · rintro ⟨row, hrow, hsole⟩
    have hmem : c ∈ cubes.filter (·.covers row) := hsole ▸ List.mem_cons_self
    exact ⟨List.mem_of_mem_filter hmem, row, hrow, hsole⟩

theorem essentials_sublist : (essentials cubes rows).Sublist cubes := List.filter_sublist

/-- The essential cubes belong to every cover of the rows by cubes of the list. -/
theorem essentials_subset {ds : List Cube} (hds : ds ⊆ cubes) (hcov : Covering ds rows) :
    essentials cubes rows ⊆ ds := by
  intro c hc
  obtain ⟨row, hrow, hsole⟩ := mem_essentials.1 hc
  obtain ⟨d, hd, hdrow⟩ := hcov row hrow
  have hmem : d ∈ cubes.filter (·.covers row) := List.mem_filter.2 ⟨hds hd, hdrow⟩
  rw [hsole, List.mem_singleton] at hmem
  exact hmem ▸ hd

end Cube

namespace Selection

theorem essential_ofPrimes (primes : List Cube) (rows : List Nat) (plain : Bool)
    (strategy : Strategy) : (ofPrimes primes rows plain strategy).essential =
      Cube.essentials (Cube.sortByKey plain primes) rows := rfl

theorem uncovered_ofPrimes (primes : List Cube) (rows : List Nat) (plain : Bool)
    (strategy : Strategy) : (ofPrimes primes rows plain strategy).uncovered =
      Cube.uncoveredRows (Cube.essentials (Cube.sortByKey plain primes) rows) rows := rfl

/-- The greedy cover beyond the essential cubes is the same when these are passed over. -/
theorem extension_ofPrimes_greedy (primes : List Cube) (rows : List Nat) (plain : Bool) :
    (ofPrimes primes rows plain .greedy).extension = .greedy (greedyCover
      ((Cube.sortByKey plain primes).filter fun c =>
        !(ofPrimes primes rows plain .greedy).essential.contains c)
      (ofPrimes primes rows plain .greedy).uncovered) :=
  congrArg Extension.greedy (greedyCover_passing (Cube.coverNone_uncoveredRows _ rows) _).symm

/-- The exact search beyond the essential cubes is the same when these are passed over. -/
theorem extension_ofPrimes_exact (primes : List Cube) (rows : List Nat) (plain : Bool) :
    (ofPrimes primes rows plain .exact).extension = .exact (exactImprovements plain
      ((Cube.sortByKey plain primes).filter fun c =>
        !(ofPrimes primes rows plain .exact).essential.contains c)
      (ofPrimes primes rows plain .exact).uncovered) :=
  congrArg Extension.exact (exactImprovements_passing (Cube.coverNone_uncoveredRows _ rows)).symm

/-- An exact selection extends the essential cubes by a best cover of the uncovered rows. -/
theorem exists_isBest (plain : Bool) (hnodup : primes.Nodup) (hcov : Covering primes rows) :
    ∃ s : Solution, (ofPrimes primes rows plain .exact).extension.cubes = s.cubes ∧
      s.IsBest plain (Cube.sortByKey plain primes)
        (ofPrimes primes rows plain .exact).uncovered := by
  have hnodup' : (Cube.sortByKey plain primes).Nodup :=
    (Cube.sortByKey_perm plain primes).nodup_iff.2 hnodup
  have hcov' : Covering (Cube.sortByKey plain primes)
      (ofPrimes primes rows plain .exact).uncovered := by
    intro row hrow
    obtain ⟨c, hc, hcrow⟩ := hcov row (Cube.mem_uncoveredRows.1 hrow).1
    exact ⟨c, Cube.mem_sortByKey.2 hc, hcrow⟩
  obtain ⟨s, hlast, hbest⟩ := exactImprovements_isBest plain hnodup' hcov'
  refine ⟨s, ?_, hbest⟩
  show ((exactImprovements plain _ _).getLast?.map Solution.cubes).getD [] = s.cubes
  rw [← uncovered_ofPrimes primes rows plain .exact, hlast, Option.map_some, Option.getD_some]

/-- The extension takes only primes. -/
theorem mem_of_mem_extension {strategy : Strategy} (hnodup : primes.Nodup)
    (hcov : Covering primes rows)
    (hc : c ∈ (ofPrimes primes rows plain strategy).extension.cubes) : c ∈ primes := by
  cases strategy with
  | greedy =>
    obtain ⟨p, hp, rfl⟩ := List.mem_map.1 hc
    exact Cube.mem_sortByKey.1 (cube_mem_of_mem_greedyCover hp)
  | exact =>
    obtain ⟨s, hs, hbest⟩ := exists_isBest plain hnodup hcov
    rw [hs] at hc
    exact Cube.mem_sortByKey.1 (hbest.sublist.subset hc)

/-- The extension covers the rows that the essential cubes leave uncovered. -/
theorem covering_extension {strategy : Strategy} (hnodup : primes.Nodup)
    (hcov : Covering primes rows) :
    Covering (ofPrimes primes rows plain strategy).extension.cubes
      (ofPrimes primes rows plain strategy).uncovered := by
  cases strategy with
  | greedy =>
    intro row hrow
    obtain ⟨c, hc, hcrow⟩ := hcov row (Cube.mem_uncoveredRows.1 hrow).1
    obtain ⟨p, hp, hprow⟩ := exists_mem_greedyCover hrow (Cube.mem_sortByKey.2 hc) hcrow
    exact ⟨p.cube, List.mem_map_of_mem hp, hprow⟩
  | exact =>
    obtain ⟨s, hs, hbest⟩ := exists_isBest plain hnodup hcov
    rw [hs]
    exact hbest.covering

theorem mem_of_mem_cubes {strategy : Strategy} (hnodup : primes.Nodup)
    (hcov : Covering primes rows) (hc : c ∈ (ofPrimes primes rows plain strategy).cubes) :
    c ∈ primes := by
  rcases List.mem_append.1 hc with hess | hext
  · exact Cube.mem_sortByKey.1 (Cube.essentials_sublist.subset hess)
  · exact mem_of_mem_extension hnodup hcov hext

/-- A selection covers all rows that the primes cover. -/
theorem covering {strategy : Strategy} (hnodup : primes.Nodup) (hcov : Covering primes rows) :
    Covering (ofPrimes primes rows plain strategy).cubes rows := by
  intro row hrow
  by_cases hess : ∃ c ∈ Cube.essentials (Cube.sortByKey plain primes) rows, c.covers row = true
  · obtain ⟨c, hc, hcrow⟩ := hess
    exact ⟨c, List.mem_append_left _ hc, hcrow⟩
  · have hleft : row ∈ (ofPrimes primes rows plain strategy).uncovered :=
      Cube.mem_uncoveredRows.2 ⟨hrow, fun c hc hcrow => hess ⟨c, hc, hcrow⟩⟩
    obtain ⟨c, hc, hcrow⟩ := covering_extension hnodup hcov row hleft
    exact ⟨c, List.mem_append_right _ hc, hcrow⟩

/-- No choice of primes that covers all rows costs less than an exact selection. -/
theorem cost_le (plain : Bool) {ds : List Cube} (hnodup : primes.Nodup) (hds : ds ⊆ primes)
    (hcov : Covering ds rows) :
    Cube.cost (ofPrimes primes rows plain .exact).cubes ≤ Cube.cost ds := by
  have hall : Covering primes rows := fun row hrow =>
    (hcov row hrow).imp fun c hc => ⟨hds hc.1, hc.2⟩
  obtain ⟨s, hs, hbest⟩ := exists_isBest plain hnodup hall
  let sorted := Cube.sortByKey plain primes
  let essential := Cube.essentials sorted rows
  have hsorted : sorted.Nodup := (Cube.sortByKey_perm plain primes).nodup_iff.2 hnodup
  have hds' : ds ⊆ sorted := fun c hc => Cube.mem_sortByKey.2 (hds hc)
  -- The cubes of the other choice that are not essential cover what the essential ones leave.
  let rest := sorted.filter fun c => ds.contains c && !essential.contains c
  have hrest : Covering rest (ofPrimes primes rows plain .exact).uncovered := by
    intro row hrow
    obtain ⟨hmem, hnone⟩ := Cube.mem_uncoveredRows.1 hrow
    obtain ⟨c, hc, hcrow⟩ := hcov row hmem
    have hcess : c ∉ essential := fun hess => hnone c hess hcrow
    exact ⟨c, List.mem_filter.2 ⟨hds' hc, by simp [hc, hcess]⟩, hcrow⟩
  have hle : Cube.cost s.cubes ≤ Cube.cost rest := by
    have hrank := hbest.rank_le ⟨rest⟩ List.filter_sublist hrest
    simp only [Solution.rank, Prod.Lex.toLex_le_toLex] at hrank
    simp only [Cube.cost, Prod.Lex.toLex_le_toLex]
    exact hrank.imp_right fun h => ⟨h.1, h.2.elim le_of_lt fun h => h.1.le⟩
  have hsubperm : (essential ++ rest).Subperm ds := by
    refine List.Nodup.subperm ?_ ?_
    · refine (hsorted.sublist Cube.essentials_sublist).append (hsorted.filter _) ?_
      intro c hess hrest
      have hnot := (List.mem_filter.1 hrest).2
      rw [Bool.and_eq_true, Bool.not_eq_true', ← Bool.not_eq_true] at hnot
      exact hnot.2 (List.contains_iff_mem.2 hess)
    · refine List.append_subset.2 ⟨Cube.essentials_subset hds' hcov, fun c hc => ?_⟩
      have hmem := (List.mem_filter.1 hc).2
      rw [Bool.and_eq_true, List.contains_iff_mem] at hmem
      exact hmem.1
  show Cube.cost (essential ++ (ofPrimes primes rows plain .exact).extension.cubes) ≤ _
  rw [hs]
  exact (Cube.cost_append_le essential hle).trans (Cube.cost_le_of_subperm hsubperm)

end Selection

end TwoLevel
