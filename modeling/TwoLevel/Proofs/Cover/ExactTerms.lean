import TwoLevel.Proofs.Cover.Essential
import TwoLevel.Proofs.Cover.Exact

/-!
# The terms of the exact procedure

This file says which terms the exact procedure emits for some target rows: the essential primes,
then, of all sets of other primes that cover the rest, the one that is least by its number of terms,
its number of literals and its keys. Nothing in this depends on how the set is searched for. There is
at most one such list of terms, and a selection emits it.

## Main definitions

- `IsCompletion` — primes that complete the essential ones to a cover
- `IsLeastCompletion` — the completion that is less than all others
- `ExactTerms` — all terms of the procedure
- `SearchCalls` — the calls that one call of the search makes

## Main statements

- `ExactTerms.unique` — the procedure has only one outcome
- `exactTerms_ofPrimes` — an exact selection emits it
- `searchCalls_wellFounded` — the search ends, whatever it is given
-/

namespace TwoLevel

/-- Primes in the order of their keys, none of them essential, that cover every target which no
essential prime covers. -/
structure IsCompletion (plain : Bool) (w : Nat) (targets : List Nat) (cubes : List Cube) :
    Prop where
  isPrime : ∀ c ∈ cubes, c.IsPrime w targets
  not_essential : ∀ c ∈ cubes, ¬c.IsEssential w targets
  pairwise : cubes.Pairwise fun c d => c.orderKey plain < d.orderKey plain
  covers : ∀ row ∈ targets, (∀ c : Cube, c.IsEssential w targets → ¬c.covers row = true) →
    ∃ c ∈ cubes, c.covers row = true

/-- The completion that is less than all others: by its number of terms, then by its number of
literals, then by the sequence of its keys. -/
structure IsLeastCompletion (plain : Bool) (w : Nat) (targets : List Nat) (cubes : List Cube) :
    Prop extends IsCompletion plain w targets cubes where
  rank_lt : ∀ other, IsCompletion plain w targets other → other ≠ cubes →
    (Solution.mk cubes).rank plain < (Solution.mk other).rank plain

/-- The terms of the exact procedure: the essential primes in the order of their keys, then the
least completion. -/
def ExactTerms (plain : Bool) (w : Nat) (targets : List Nat) (terms : List Cube) : Prop :=
  ∃ essential completion, terms = essential ++ completion ∧
    ListsEssentials plain w targets essential ∧ IsLeastCompletion plain w targets completion

variable {plain : Bool} {w row : Nat} {targets : List Nat} {c : Cube}
  {cubes cubes' essential primes terms terms' : List Cube}

/-! ### What the procedure emits -/

theorem IsLeastCompletion.unique (h : IsLeastCompletion plain w targets cubes)
    (h' : IsLeastCompletion plain w targets cubes') : cubes = cubes' := by
  by_contra hne
  have hlt := h.rank_lt cubes' h'.toIsCompletion (Ne.symm hne)
  have hgt := h'.rank_lt cubes h.toIsCompletion hne
  exact lt_asymm hlt hgt

/-- The essential primes and a completion cover all targets. -/
theorem IsCompletion.covering (h : IsCompletion plain w targets cubes)
    (hessential : ListsEssentials plain w targets essential) :
    Covering (essential ++ cubes) targets := by
  intro row hrow
  by_cases hleft : ∀ c : Cube, c.IsEssential w targets → ¬c.covers row = true
  · obtain ⟨c, hc, hcrow⟩ := h.covers row hrow hleft
    exact ⟨c, List.mem_append_right _ hc, hcrow⟩
  · push Not at hleft
    obtain ⟨c, hc, hcrow⟩ := hleft
    exact ⟨c, List.mem_append_left _ ((hessential.mem_iff c).2 hc), hcrow⟩

/-- If the essential primes cover all targets, nothing is added. -/
theorem IsLeastCompletion.eq_nil (h : IsLeastCompletion plain w targets cubes)
    (hessential : ListsEssentials plain w targets essential) (hcov : Covering essential targets) :
    cubes = [] := by
  by_contra hne
  have hnone : IsCompletion plain w targets [] := by
    refine ⟨by simp, by simp, .nil, fun row hrow hleft => ?_⟩
    obtain ⟨c, hc, hcrow⟩ := hcov row hrow
    exact absurd hcrow (hleft c ((hessential.mem_iff c).1 hc))
  have hfewer : (Solution.mk []).terms < (Solution.mk cubes).terms :=
    List.length_pos_iff.2 hne
  exact lt_asymm (h.rank_lt [] hnone (Ne.symm hne)) (Solution.rank_lt_of_terms_lt hfewer)

/-- Nothing is added exactly if the essential primes cover all targets. -/
theorem IsLeastCompletion.eq_nil_iff (h : IsLeastCompletion plain w targets cubes)
    (hessential : ListsEssentials plain w targets essential) :
    cubes = [] ↔ Covering essential targets := by
  refine ⟨?_, h.eq_nil hessential⟩
  rintro rfl
  simpa using h.toIsCompletion.covering hessential

namespace ExactTerms

/-- The procedure has only one outcome. -/
theorem unique (h : ExactTerms plain w targets terms) (h' : ExactTerms plain w targets terms') :
    terms = terms' := by
  obtain ⟨essential, completion, rfl, hessential, hleast⟩ := h
  obtain ⟨essential', completion', rfl, hessential', hleast'⟩ := h'
  rw [hessential.unique hessential', hleast.unique hleast']

/-- If the essential primes cover all targets, there are no other terms. -/
theorem eq_essential (h : ExactTerms plain w targets terms)
    (hessential : ListsEssentials plain w targets essential) (hcov : Covering essential targets) :
    terms = essential := by
  obtain ⟨essential', completion, rfl, hessential', hleast⟩ := h
  rw [hessential'.unique hessential, hleast.eq_nil hessential hcov, List.append_nil]

end ExactTerms

/-! ### What a selection emits -/

section Listed

variable (hprimes : ∀ c, c ∈ primes ↔ c.IsPrime w targets) (hnodup : primes.Nodup)

include hprimes hnodup

/-- A completion lists some of the primes in the order in which they are searched. -/
theorem IsCompletion.sublist (h : IsCompletion plain w targets cubes) :
    cubes.Sublist (Cube.sortByKey plain primes) := by
  have hsorted := pairwise_sorted_primes hprimes hnodup plain
  have hsame : cubes = (Cube.sortByKey plain primes).filter cubes.contains := by
    refine eq_of_pairwise_lt h.pairwise (hsorted.sublist List.filter_sublist) fun c => ?_
    rw [List.mem_filter, Cube.mem_sortByKey, hprimes, List.contains_iff_mem]
    exact ⟨fun hc => ⟨h.isPrime c hc, hc⟩, And.right⟩
  rw [hsame]
  exact List.filter_sublist

/-- A best cover contains no essential prime, since it need not cover any row of such a prime. -/
theorem Solution.IsBest.not_essential {s : Solution}
    (h : s.IsBest plain (Cube.sortByKey plain primes)
      (Cube.uncoveredRows (Cube.essentials (Cube.sortByKey plain primes) targets) targets))
    (hc : c ∈ s.cubes) : ¬c.IsEssential w targets := by
  intro hessential
  have hshort : (s.cubes.erase c).length < s.cubes.length := by
    rw [List.length_erase_of_mem hc]
    exact Nat.sub_lt (List.length_pos_of_mem hc) Nat.one_pos
  refine absurd (h.rank_le ⟨s.cubes.erase c⟩ (List.erase_sublist.trans h.sublist)
    fun row hrow => ?_) (not_le.2 (Solution.rank_lt_of_terms_lt hshort))
  obtain ⟨d, hd, hdrow⟩ := h.covering row hrow
  have hleft := ((mem_uncoveredRows_essentials hprimes hnodup plain).1 hrow).2
  have hne : d ≠ c := fun hdc => hleft c hessential (hdc ▸ hdrow)
  exact ⟨d, (List.mem_erase_of_ne hne).2 hd, hdrow⟩

/-- A best cover of the rows that the essential primes leave is the least completion. -/
theorem Solution.IsBest.isLeastCompletion {s : Solution}
    (h : s.IsBest plain (Cube.sortByKey plain primes)
      (Cube.uncoveredRows (Cube.essentials (Cube.sortByKey plain primes) targets) targets)) :
    IsLeastCompletion plain w targets s.cubes := by
  have hsorted := pairwise_sorted_primes hprimes hnodup plain
  have hprime : ∀ c ∈ s.cubes, c.IsPrime w targets :=
    fun c hc => (hprimes c).1 (Cube.mem_sortByKey.1 (h.sublist.subset hc))
  refine ⟨⟨hprime, fun c hc => h.not_essential hprimes hnodup hc, hsorted.sublist h.sublist,
    fun row hrow hnone => ?_⟩, fun other hother hne => ?_⟩
  · exact h.covering row ((mem_uncoveredRows_essentials hprimes hnodup plain).2 ⟨hrow, hnone⟩)
  have hle : s.rank plain ≤ (Solution.mk other).rank plain := by
    refine h.rank_le ⟨other⟩ (hother.sublist hprimes hnodup) fun row hrow => ?_
    obtain ⟨hmem, hnone⟩ := (mem_uncoveredRows_essentials hprimes hnodup plain).1 hrow
    exact hother.covers row hmem hnone
  -- Primes are determined by their keys, so two covers of the same rank are the same.
  refine lt_of_le_of_ne hle fun hrank => hne ?_
  have hsame : s = ⟨other⟩ := Solution.eq_of_rank_eq
    (fun c hc d hd => (hprime c hc).fits.eq_of_orderKey_eq (hother.isPrime d hd).fits) hrank
  rw [hsame]

/-- An exact selection emits the terms of the procedure. -/
theorem exactTerms_ofPrimes (plain : Bool) (hcov : Covering primes targets) :
    ExactTerms plain w targets (Selection.ofPrimes primes targets plain .exact).cubes := by
  obtain ⟨s, hs, hbest⟩ := Selection.exists_isBest plain hnodup hcov
  refine ⟨_, _, rfl, listsEssentials_essentials hprimes hnodup plain, ?_⟩
  rw [hs]
  exact hbest.isLeastCompletion hprimes hnodup

end Listed

/-! ### The search ends -/

/-- The uncovered rows with which a call of the search calls itself, as `exactSearch_cons` says: those
that are left when one of the cubes that cover the first row has been chosen. -/
def SearchCalls (cubes : List Cube) (inner outer : List Nat) : Prop :=
  ∃ row rest, outer = row :: rest ∧
    ∃ c ∈ cubes, c.covers row = true ∧ inner = outer.filter fun r => !c.covers r

/-- There is no infinite chain of calls, whatever the rows and the cubes are. -/
theorem searchCalls_wellFounded (cubes : List Cube) : WellFounded (SearchCalls cubes) := by
  refine Subrelation.wf ?_ (measure List.length).wf
  rintro inner outer ⟨row, rest, rfl, c, -, hcov, rfl⟩
  exact length_filter_lt_of_covers hcov

end TwoLevel
