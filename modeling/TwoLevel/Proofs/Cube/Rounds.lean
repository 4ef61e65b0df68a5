import TwoLevel.Cube.Prime
import TwoLevel.Proofs.Cube.Implicant

/-!
# Rounds of merging

This file proves that the rounds of merging find the primes of a set of rows. The invariant is that
a round holds all implicants with one number of free variables, and not only those that one order of
merging would reach: an implicant of the next round is the union of its two halves, which both lie
in the round. A cube without a neighbour in its round is therefore one of which no place can be
freed.

## Main definitions

- `IsLevel` — a set of cubes that consists of all implicants with a number of free variables

## Main statements

- `IsLevel.next` — the merges of a level are the next level
- `Cube.mem_primes` — the rounds find exactly the primes
-/

namespace TwoLevel

/-- The cubes of a set are the implicants of some rows with `k` free variables. -/
def IsLevel (members : CubeSet) (w : Nat) (rows : List Nat) (k : Nat) : Prop :=
  ∀ c, c ∈ members ↔ c.Implicant w rows ∧ Word.ones c.free = k

variable {c d : Cube} {w k : Nat} {rows : List Nat} {members : CubeSet} {r : Round}

namespace Cube

theorem Fits.mem_neighbours (hc : c.Fits w) :
    d ∈ c.neighbours ↔ ∃ place < w, c.cell place ≠ none ∧ d = c.flip place := by
  simp only [neighbours, hc.width_eq, List.mem_map, List.mem_filter, List.mem_range, Ne,
    cell_eq_none, Bool.not_eq_true', Bool.not_eq_true]
  constructor
  · rintro ⟨place, ⟨hp, hfree⟩, rfl⟩
    exact ⟨place, hp, hfree, rfl⟩
  · rintro ⟨place, hp, hfree, rfl⟩
    exact ⟨place, ⟨hp, hfree⟩, rfl⟩

theorem Fits.mem_upperNeighbours (hc : c.Fits w) :
    d ∈ c.upperNeighbours ↔ ∃ place < w, c.cell place = some false ∧ d = c.flip place := by
  simp only [upperNeighbours, hc.width_eq, List.mem_map, List.mem_filter, List.mem_range,
    cell_eq_some, Bool.and_eq_true, Bool.not_eq_true']
  constructor
  · rintro ⟨place, ⟨hp, hcell⟩, rfl⟩
    exact ⟨place, hp, hcell, rfl⟩
  · rintro ⟨place, hp, hcell, rfl⟩
    exact ⟨place, ⟨hp, hcell⟩, rfl⟩

end Cube

/-- The cubes of a set are listed without repetitions. -/
theorem CubeSet.nodup_toList (s : CubeSet) : s.toList.Nodup := by
  refine Std.TreeSet.ordered_toList.imp fun {a b} hlt => ?_
  rintro rfl
  have hself : Cube.order a a = .eq := Std.ReflCmp.compare_self
  rw [hself] at hlt
  cases hlt

namespace Round

/-- A round visits none of its cubes twice. -/
theorem nodup_cubes (r : Round) : r.cubes.Nodup :=
  r.perm.nodup_iff.2 (CubeSet.nodup_toList r.members)

theorem mem_merges {m : Merge} : m ∈ r.merges ↔ m.lower ∈ r.members ∧
    m.upper ∈ m.lower.upperNeighbours ∧ m.upper ∈ r.members ∧
      m.lower.combine m.upper = some m.result := by
  simp only [merges, mergesFrom, List.mem_flatMap, List.mem_filterMap, List.mem_filter,
    Option.map_eq_some_iff, Std.TreeSet.contains_iff_mem, r.mem_cubes]
  constructor
  · rintro ⟨c, hc, u, ⟨hu, hmem⟩, e, he, rfl⟩
    exact ⟨hc, hu, hmem, he⟩
  · rintro ⟨hc, hu, hmem, he⟩
    exact ⟨m.lower, hc, m.upper, ⟨hu, hmem⟩, m.result, he, rfl⟩

theorem mem_next : d ∈ r.next ↔
    ∃ c ∈ r.members, ∃ u ∈ c.upperNeighbours, u ∈ r.members ∧ c.combine u = some d := by
  simp only [next, CubeSet.mem_ofList, List.mem_map, mem_merges]
  constructor
  · rintro ⟨m, ⟨hc, hu, hmem, he⟩, rfl⟩
    exact ⟨m.lower, hc, m.upper, hu, hmem, he⟩
  · rintro ⟨c, hc, u, hu, hmem, he⟩
    exact ⟨⟨c, u, d⟩, ⟨hc, hu, hmem, he⟩, rfl⟩

end Round

/-- The two halves of an implicant at a free place are implicants with one free variable less, and
merging them gives the implicant. -/
theorem Cube.Implicant.halves (hd : d.Implicant w rows) (hw : w ≤ 32) {place : Nat}
    (hp : place < w) (hfree : d.cell place = none) :
    (d.put place (some false)).Implicant w rows ∧ (d.put place (some true)).Implicant w rows ∧
      d.put place (some true) ∈ (d.put place (some false)).upperNeighbours ∧
      (d.put place (some false)).combine (d.put place (some true)) = some d ∧
      Word.ones (d.put place (some false)).free + 1 = Word.ones d.free ∧
      (d.put place (some false)).free = (d.put place (some true)).free := by
  have hlow := hd.put_some hw hp hfree false
  have hcell : (d.put place (some false)).cell place = some false := by
    rw [hd.fits.cell_put hw hp, if_pos rfl]
  have hflip : d.put place (some true) = (d.put place (some false)).flip place := by
    rw [hlow.fits.flip_eq_put hp hcell, hd.fits.put_put hw, Bool.not_false]
  refine ⟨hlow, hd.put_some hw hp hfree true,
    hlow.fits.mem_upperNeighbours.2 ⟨place, hp, hcell, hflip⟩, ?_,
    hd.fits.ones_put_some hw hp hfree false, by rw [hflip]; rfl⟩
  rw [hflip, hlow.fits.combine_flip hw hp, hd.fits.put_some_put_none hw hfree false]

/-- An implicant with a free variable is the merge of two implicants with one free variable less. -/
theorem Cube.Implicant.exists_halves (hd : d.Implicant w rows) (hw : w ≤ 32)
    (hpos : 0 < Word.ones d.free) :
    ∃ c u : Cube, c.Implicant w rows ∧ u.Implicant w rows ∧ u ∈ c.upperNeighbours ∧
      c.combine u = some d ∧ Word.ones c.free + 1 = Word.ones d.free ∧ c.free = u.free := by
  obtain ⟨place, hp, hfree⟩ := hd.fits.exists_cell_eq_none hw hpos
  exact ⟨_, _, hd.halves hw hp hfree⟩

namespace IsLevel

/-- The cubes of single rows are the implicants without free variables. -/
theorem ofRows (hw : w ≤ 32) (hrows : ∀ row ∈ rows, row < 2 ^ w) :
    IsLevel (CubeSet.ofList (rows.map (Cube.ofRow · w))) w rows 0 := by
  intro c
  rw [CubeSet.mem_ofList, List.mem_map]
  constructor
  · rintro ⟨row, hmem, rfl⟩
    exact ⟨Cube.implicant_ofRow hw (hrows row hmem) hmem, by simp [Cube.ofRow, Word.ones]⟩
  · rintro ⟨himp, hones⟩
    obtain ⟨row, hmem, -, rfl⟩ := himp.eq_ofRow hw hones
    exact ⟨row, hmem, rfl⟩

/-- The results of merging a level are the implicants with one more free variable. -/
theorem next (hr : IsLevel r.members w rows k) (hw : w ≤ 32) :
    IsLevel r.next w rows (k + 1) := by
  intro e
  rw [Round.mem_next]
  constructor
  · rintro ⟨c, hc, u, hu, hmem, he⟩
    obtain ⟨himp, hones⟩ := (hr c).1 hc
    obtain ⟨place, hp, hcell, rfl⟩ := himp.fits.mem_upperNeighbours.1 hu
    have hfixed : c.cell place ≠ none := by simp [hcell]
    rw [himp.fits.combine_flip hw hp, Option.some.injEq] at he
    subst he
    refine ⟨?_, ?_⟩
    · exact (himp.fits.implicant_put_none hw hp hfixed).2 ⟨himp, ((hr _).1 hmem).1⟩
    · rw [himp.fits.ones_put_none hw hp hfixed, hones]
  · rintro ⟨himp, hones⟩
    -- Both halves of an implicant of the next level lie in this one.
    obtain ⟨c, u, hc, hu, hupper, hcombine, hcount, hfree⟩ := himp.exists_halves hw (by omega)
    have hones' : Word.ones c.free = k := by omega
    exact ⟨c, (hr c).2 ⟨hc, hones'⟩, u, hupper, (hr u).2 ⟨hu, hfree ▸ hones'⟩, hcombine⟩

/-- A cube of a level has no neighbour there exactly if it is prime. -/
theorem mem_primes (hr : IsLevel r.members w rows k) (hw : w ≤ 32) :
    c ∈ r.primes ↔ c.IsPrime w rows ∧ Word.ones c.free = k := by
  have hneighbour : ∀ {c : Cube}, c.Implicant w rows → Word.ones c.free = k →
      ∀ place < w, c.cell place ≠ none →
        (c.flip place ∈ r.members ↔ (c.put place none).Implicant w rows) := by
    intro c himp hones place hp hcell
    rw [hr, himp.fits.implicant_put_none hw hp hcell]
    exact ⟨fun h => ⟨himp, h.1⟩, fun h => ⟨h.2, hones⟩⟩
  rw [Round.primes, List.mem_filter, r.mem_cubes, hr c, Bool.not_eq_true', List.any_eq_false]
  constructor
  · rintro ⟨⟨himp, hones⟩, hnone⟩
    refine ⟨⟨himp, fun place hp hcell hbig => ?_⟩, hones⟩
    refine hnone (c.flip place) (himp.fits.mem_neighbours.2 ⟨place, hp, hcell, rfl⟩) ?_
    exact Std.TreeSet.contains_iff_mem.2 ((hneighbour himp hones place hp hcell).2 hbig)
  · rintro ⟨hprime, hones⟩
    refine ⟨⟨hprime.toImplicant, hones⟩, fun d hd hmem => ?_⟩
    obtain ⟨place, hp, hcell, rfl⟩ := hprime.fits.mem_neighbours.1 hd
    rw [Std.TreeSet.contains_iff_mem, hneighbour hprime.toImplicant hones place hp hcell] at hmem
    exact hprime.maximal place hp hcell hmem

/-- If a level is empty, no implicant has that many free variables or more. -/
theorem not_implicant (hr : IsLevel members w rows k) (hw : w ≤ 32)
    (hempty : members.isEmpty = true) (hk : k ≤ Word.ones c.free) : ¬c.Implicant w rows := by
  intro himp
  obtain ⟨d, hd, hones⟩ := himp.exists_ones_free_eq hw hk
  have hmem : d ∈ members := (hr d).2 ⟨hd, hones⟩
  rw [Std.TreeSet.isEmpty_iff_forall_not_mem] at hempty
  exact hempty d hmem

/-- The rounds from a level on find the primes with that many free variables or more. -/
theorem mem_roundsFrom (hr : IsLevel members w rows k) (hw : w ≤ 32) (order : VisitOrder)
    (number : Nat) : (∃ r ∈ Cube.roundsFrom order number members, c ∈ r.primes) ↔
      c.IsPrime w rows ∧ k ≤ Word.ones c.free := by
  induction number, members using Cube.roundsFrom.induct order generalizing k with
  | case1 number members hempty =>
    rw [Cube.roundsFrom, if_pos hempty]
    simp only [List.not_mem_nil, false_and, exists_false, false_iff, not_and]
    exact fun hprime hk => hr.not_implicant hw hempty hk hprime.toImplicant
  | case2 number members hne r =>
    rename_i ih
    have hlevel : IsLevel r.members w rows k := hr
    rw [Cube.roundsFrom, if_neg hne]
    simp only [List.mem_cons, exists_eq_or_imp]
    rw [hlevel.mem_primes hw, ih (hlevel.next hw)]
    constructor
    · rintro (⟨hprime, hones⟩ | ⟨hprime, hk⟩)
      · exact ⟨hprime, by omega⟩
      · exact ⟨hprime, by omega⟩
    · rintro ⟨hprime, hk⟩
      rcases Nat.eq_or_lt_of_le hk with hones | hlt
      · exact .inl ⟨hprime, hones.symm⟩
      · exact .inr ⟨hprime, hlt⟩

end IsLevel

namespace Cube

/-- The rounds find exactly the primes of a set of rows, whatever the order of their visits. -/
theorem mem_primes (hw : w ≤ 32) (hrows : ∀ row ∈ rows, row < 2 ^ w) (order : VisitOrder) :
    c ∈ primes order w rows ↔ c.IsPrime w rows := by
  rw [primes, primesOf, mem_ascending, List.mem_flatMap, rounds,
    (IsLevel.ofRows hw hrows).mem_roundsFrom hw order 1]
  exact ⟨fun h => h.1, fun h => ⟨h, Nat.zero_le _⟩⟩

theorem nodup_primes (visit : VisitOrder) : (primes visit w rows).Nodup :=
  CubeSet.nodup_toList _

/-- The primes of some rows cover all of them. -/
theorem exists_mem_primes (hw : w ≤ 32) (hrows : ∀ row ∈ rows, row < 2 ^ w) (visit : VisitOrder)
    {row : Nat} (hrow : row ∈ rows) : ∃ p ∈ primes visit w rows, p.covers row = true := by
  obtain ⟨p, hp, hcov⟩ := exists_isPrime_covers hw (hrows row hrow) hrow
  exact ⟨p, (mem_primes hw hrows visit).2 hp, hcov⟩

end Cube

end TwoLevel
