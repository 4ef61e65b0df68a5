import TwoLevel.Proofs.Cover.Selection
import TwoLevel.Proofs.Cube.Implicant

/-!
# Essential primes

A prime is essential when some row is covered by no other prime. This file says so without mention
of how primes are listed, and proves that a selection starts with exactly these primes in the order
of their keys.

## Main definitions

- `Cube.IsEssential` — a prime that is the only one to cover some row
- `ListsEssentials` — a list of the essential primes in the order of their keys

## Main statements

- `listsEssentials_essentials` — a selection starts with the essential primes
- `mem_uncoveredRows_essentials` — the rows that they leave uncovered
-/

namespace TwoLevel

/-- A prime that is the only prime to cover some of the rows. -/
structure Cube.IsEssential (c : Cube) (w : Nat) (rows : List Nat) : Prop
    extends Cube.IsPrime c w rows where
  sole : ∃ row ∈ rows, c.covers row = true ∧
    ∀ d : Cube, d.IsPrime w rows → d.covers row = true → d = c

/-- The essential primes of some rows in ascending order of their keys. -/
structure ListsEssentials (plain : Bool) (w : Nat) (rows : List Nat) (terms : List Cube) :
    Prop where
  mem_iff : ∀ c, c ∈ terms ↔ c.IsEssential w rows
  pairwise : terms.Pairwise fun c d => c.orderKey plain < d.orderKey plain

variable {plain : Bool} {w : Nat} {rows : List Nat} {primes terms terms' : List Cube}

namespace ListsEssentials

/-- There is only one such list. -/
theorem unique (h : ListsEssentials plain w rows terms)
    (h' : ListsEssentials plain w rows terms') : terms = terms' :=
  eq_of_pairwise_lt h.pairwise h'.pairwise fun c => (h.mem_iff c).trans (h'.mem_iff c).symm

theorem nodup (h : ListsEssentials plain w rows terms) : terms.Nodup := by
  refine h.pairwise.imp fun {a b} hlt => ?_
  rintro rfl
  exact lt_irrefl _ hlt

end ListsEssentials

section Listed

variable (hprimes : ∀ c, c ∈ primes ↔ c.IsPrime w rows) (hnodup : primes.Nodup) (plain : Bool)

include hprimes hnodup

/-- The listed primes in the order of their keys are strictly ascending. -/
theorem pairwise_sorted_primes :
    (Cube.sortByKey plain primes).Pairwise fun c d => c.orderKey plain < d.orderKey plain :=
  Cube.pairwise_sortByKey (fun c hc => ((hprimes c).1 hc).fits) hnodup

/-- A selection starts with the essential primes in the order of their keys. -/
theorem listsEssentials_essentials :
    ListsEssentials plain w rows (Cube.essentials (Cube.sortByKey plain primes) rows) := by
  have hsorted : (Cube.sortByKey plain primes).Nodup :=
    (Cube.sortByKey_perm plain primes).nodup_iff.2 hnodup
  refine ⟨fun c => ?_, (pairwise_sorted_primes hprimes hnodup plain).sublist
    Cube.essentials_sublist⟩
  simp only [Cube.mem_essentials, filter_eq_singleton_iff hsorted, Cube.mem_sortByKey, hprimes]
  constructor
  · rintro ⟨row, hrow, ⟨hc, hcov⟩, hsole⟩
    exact ⟨hc, row, hrow, hcov, hsole⟩
  · rintro ⟨hc, row, hrow, hcov, hsole⟩
    exact ⟨row, hrow, ⟨hc, hcov⟩, hsole⟩

/-- A row is left for the extension when no essential prime covers it. -/
theorem mem_uncoveredRows_essentials {row : Nat} :
    row ∈ Cube.uncoveredRows (Cube.essentials (Cube.sortByKey plain primes) rows) rows ↔
      row ∈ rows ∧ ∀ c : Cube, c.IsEssential w rows → ¬c.covers row = true := by
  simp only [Cube.mem_uncoveredRows, (listsEssentials_essentials hprimes hnodup plain).mem_iff]

end Listed

end TwoLevel
