import TwoLevel.Proofs.Cube.Rounds

/-!
# The list of primes

This file proves what the list of primes holds. All rounds together find every prime once: the
cubes of a round are distinct, and cubes of different rounds have different numbers of free
variables. So nothing is dropped when the primes are put in ascending order, and the list is
determined by the set of rows.

## Main statements

- `Cube.primes_perm` — the list holds what the rounds find
- `Cube.primes_eq` — neither the order of the rows nor that of the visits matters
- `primes_maximal` — the listed cubes are exactly the largest ones within the rows
-/

namespace TwoLevel

variable {w k : Nat} {rows : List Nat} {members : CubeSet}

/-- The primes of one round are distinct. -/
theorem Round.nodup_primes (r : Round) : r.primes.Nodup :=
  r.nodup_cubes.filter _

/-- The rounds from a level on find no prime twice. -/
theorem IsLevel.nodup_roundsFrom (hr : IsLevel members w rows k) (hw : w ≤ 32)
    (visit : VisitOrder) (number : Nat) :
    ((Cube.roundsFrom visit number members).flatMap Round.primes).Nodup := by
  induction number, members using Cube.roundsFrom.induct visit generalizing k with
  | case1 number members hempty =>
    rw [Cube.roundsFrom, if_pos hempty]
    exact List.nodup_nil
  | case2 number members hne r =>
    rename_i ih
    have hlevel : IsLevel r.members w rows k := hr
    rw [Cube.roundsFrom, if_neg hne, List.flatMap_cons]
    refine r.nodup_primes.append (ih (hlevel.next hw)) fun c hfirst hlater => ?_
    -- A cube of this round has fewer free variables than any cube of a later one.
    have hones := ((hlevel.mem_primes hw).1 hfirst).2
    have hmore := (((hlevel.next hw).mem_roundsFrom hw visit (number + 1)).1
      (List.mem_flatMap.1 hlater)).2
    omega

namespace Cube

/-- Putting distinct cubes in ascending order drops none. -/
theorem ascending_perm {cubes : List Cube} (hnodup : cubes.Nodup) :
    (ascending cubes).Perm cubes :=
  (List.perm_ext_iff_of_nodup (CubeSet.nodup_toList _) hnodup).2 fun _ => mem_ascending

/-- The list of primes holds what the rounds find, each cube as often as it is found. -/
theorem primes_perm (hw : w ≤ 32) (hrows : ∀ row ∈ rows, row < 2 ^ w) (visit : VisitOrder) :
    (primes visit w rows).Perm ((rounds visit w rows).flatMap Round.primes) :=
  ascending_perm ((IsLevel.ofRows hw hrows).nodup_roundsFrom hw visit 1)

/-- The list of primes depends neither on the order of the rows nor on that of the visits. -/
theorem primes_eq {rows' : List Nat} (hw : w ≤ 32) (hrows : ∀ row ∈ rows, row < 2 ^ w)
    (hperm : rows.Perm rows') (visit visit' : VisitOrder) :
    primes visit w rows = primes visit' w rows' := by
  have hrows' : ∀ row ∈ rows', row < 2 ^ w := fun row hrow => hrows row (hperm.mem_iff.2 hrow)
  have hsame : (primes visit w rows).Perm (primes visit' w rows') := by
    refine (List.perm_ext_iff_of_nodup (nodup_primes visit) (nodup_primes visit')).2 fun c => ?_
    rw [mem_primes hw hrows, mem_primes hw hrows', isPrime_congr hperm]
  refine hsame.eq_of_pairwise (fun c d _ _ hlt hgt => ?_) (pairwise_ascending _)
    (pairwise_ascending _)
  -- No cube comes both before and after another.
  have hswap : order c d = (order d c).swap := Std.OrientedCmp.eq_swap
  rw [hlt, hgt] at hswap
  cases hswap

end Cube

/-- The primes within a set of rows below `2 ^ w`, which may be listed in any order and repeatedly,
whatever the order of the visits. They come strictly ascending, so none is repeated, although they
are all that the rounds find, each as often as it is found. A cube is among them exactly if it covers
only listed rows and would cover another row if any of its fixed places were freed. Every listed row
is covered. -/
theorem primes_maximal (hw : w ≤ 32) (hrows : ∀ row ∈ rows, row < 2 ^ w) (visit : VisitOrder) :
    (Cube.primes visit w rows).Pairwise (fun c d => c.order d = .lt) ∧
      (Cube.primes visit w rows).Nodup ∧
      (Cube.primes visit w rows).Perm ((Cube.rounds visit w rows).flatMap Round.primes) ∧
      (∀ c : Cube, c ∈ Cube.primes visit w rows ↔ c.Fits w ∧
        (∀ row < 2 ^ w, c.covers row = true → row ∈ rows) ∧
        ∀ place < w, c.cell place ≠ none →
          ∃ row < 2 ^ w, (c.put place none).covers row = true ∧ row ∉ rows) ∧
      ∀ row ∈ rows, ∃ c ∈ Cube.primes visit w rows, c.covers row = true := by
  refine ⟨Cube.pairwise_ascending _, Cube.nodup_primes visit, Cube.primes_perm hw hrows visit,
    fun c => ?_, fun row hrow => Cube.exists_mem_primes hw hrows visit hrow⟩
  rw [Cube.mem_primes hw hrows]
  constructor
  · intro hc
    refine ⟨hc.fits, hc.subset, fun place hplace hcell => ?_⟩
    by_contra hnone
    push Not at hnone
    exact hc.maximal place hplace hcell ⟨hc.fits.put hw place none, hnone⟩
  · rintro ⟨hfits, hsubset, hmaximal⟩
    refine ⟨⟨hfits, hsubset⟩, fun place hplace hcell hbig => ?_⟩
    obtain ⟨row, hrow, hcov, hnew⟩ := hmaximal place hplace hcell
    exact hnew (hbig.subset row hrow hcov)

/-- The primes of six rows over four variables, one of which is listed twice. The cube that covers
the last row does not reach the row before it. -/
theorem primes_maximal_six :
    4 ≤ 32 ∧ (∀ row ∈ [15, 4, 12, 8, 10, 11, 8], row < 2 ^ 4) ∧
      (Cube.primes .listed 4 [15, 4, 12, 8, 10, 11, 8]).Nodup ∧
      ∃ c ∈ Cube.primes .listed 4 [15, 4, 12, 8, 10, 11, 8],
        c.covers 15 = true ∧ ¬c.covers 14 = true := by
  have hrows : ∀ row ∈ [15, 4, 12, 8, 10, 11, 8], row < 2 ^ 4 := by decide
  obtain ⟨-, hnodup, -, hmem, hcov⟩ := primes_maximal (by decide) hrows .listed
  obtain ⟨c, hc, hrow⟩ := hcov 15 (by decide)
  refine ⟨by decide, hrows, hnodup, c, hc, hrow, fun hother => ?_⟩
  have hlisted := ((hmem c).1 hc).2.1 14 (by decide) hother
  revert hlisted
  decide

end TwoLevel
