import TwoLevel.Proofs.Form.Terms
import TwoLevel.Proofs.Minimize.Value

/-!
# Exact forms are minimal

This file proves that no two-level form of a function is smaller than the one that is found exactly.
Any terms whose form has the right value can be replaced by primes without adding a term or a
literal: a term that is met on no row is dropped, and the cube of any other term lies within a
prime. Among choices of primes an exact selection costs least.

## Main definitions

- `Denotes` — some terms whose form has the right value on every row
- `Form.IsMinimal` — a form that cannot be improved upon

## Main statements

- `Denotes.exists_primes` — terms can be replaced by primes
- `exact_isMinimal` — both exact forms are minimal, and have no more terms than the greedy ones
-/

namespace TwoLevel

/-- Some terms over some letters whose form of a kind has the value of a plain literal exactly on
the target rows. -/
structure Denotes (kind : FormKind) (s : Letters) (targets : List Nat)
    (terms : List (List Literal)) : Prop where
  letter_mem : ∀ term ∈ terms, ∀ l ∈ term, l.letter ∈ s.toList
  value_iff : ∀ row < 2 ^ s.size, kind.value (s.valueAt row) terms = kind.plain ↔ row ∈ targets

/-- A form with the right value than which no other terms with the right value are better: none are
fewer, and none that are as many have fewer literals. In particular no term can be left out, and no
literal of a term. -/
structure Form.IsMinimal (kind : FormKind) (s : Letters) (targets : List Nat) (f : Form) :
    Prop where
  kind_eq : f.kind = kind
  letters_eq : f.letters = s
  denotes : Denotes kind s targets f.terms
  termCount_le : ∀ terms, Denotes kind s targets terms → f.termCount ≤ terms.length
  literalCount_le : ∀ terms, Denotes kind s targets terms → terms.length = f.termCount →
    f.literalCount ≤ (terms.map List.length).sum
  term_needed : ∀ i < f.terms.length, ¬Denotes kind s targets (f.terms.eraseIdx i)
  literal_needed : ∀ i term, f.terms[i]? = some term → ∀ j < term.length,
    ¬Denotes kind s targets (f.terms.set i (term.eraseIdx j))

variable {kind : FormKind} {s : Letters} {targets : List Nat} {terms : List (List Literal)}
  {order : VisitOrder} {strategy : Strategy} {f : Form}

/-! ### Other terms -/

theorem Denotes.mem_targets (h : Denotes kind s targets terms) {term : List Literal}
    (hterm : term ∈ terms) {row : Nat} (hrow : row < 2 ^ s.size)
    (hmeets : kind.Meets (s.valueAt row) term) : row ∈ targets :=
  (h.value_iff row hrow).1 (FormKind.value_eq_plain.2 ⟨term, hterm, hmeets⟩)

/-- A term that is met somewhere, and on targets only, lies within a prime. -/
theorem exists_prime_of_term {term : List Literal} (hletters : ∀ l ∈ term, l.letter ∈ s.toList)
    (htargets : ∀ row < 2 ^ s.size, kind.Meets (s.valueAt row) term → row ∈ targets)
    {v : Char → Bool} (hmeets : kind.Meets v term) :
    ∃ p : Cube, p.IsPrime s.size targets ∧
      (∀ row < 2 ^ s.size, kind.Meets (s.valueAt row) term → p.covers row = true) ∧
      p.literalCount ≤ term.length := by
  have himplicant : (Cube.ofTerm s kind term).Implicant s.size targets := by
    refine ⟨Cube.fits_ofDemand s _, fun row hrow hcov => htargets row hrow ?_⟩
    exact (Cube.covers_ofTerm hletters hmeets hrow).1 hcov
  obtain ⟨p, hprime, hcov, hliterals⟩ := himplicant.exists_isPrime s.size_le_word
  refine ⟨p, hprime, fun row hrow hrowmeets => hcov row hrow ?_, ?_⟩
  · exact (Cube.covers_ofTerm hletters hmeets hrow).2 hrowmeets
  · exact hliterals.trans (Cube.literalCount_ofTerm_le s kind term)

/-- Terms that are met on targets only can be replaced by primes, which are not more and have no
more literals. -/
theorem exists_primes_of_terms (hletters : ∀ term ∈ terms, ∀ l ∈ term, l.letter ∈ s.toList)
    (htargets : ∀ term ∈ terms, ∀ row < 2 ^ s.size, kind.Meets (s.valueAt row) term →
      row ∈ targets) :
    ∃ ds : List Cube, (∀ d ∈ ds, d.IsPrime s.size targets) ∧
      (∀ term ∈ terms, ∀ row < 2 ^ s.size, kind.Meets (s.valueAt row) term →
        ∃ d ∈ ds, d.covers row = true) ∧
      ds.length ≤ terms.length ∧ Cube.literalTotal ds ≤ (terms.map List.length).sum := by
  induction terms with
  | nil => exact ⟨[], by simp, by simp, by simp, by simp [Cube.literalTotal]⟩
  | cons term terms ih =>
    obtain ⟨ds, hprimes, hcov, hlength, hliterals⟩ := ih
      (fun t ht => hletters t (List.mem_cons_of_mem _ ht))
      (fun t ht => htargets t (List.mem_cons_of_mem _ ht))
    by_cases hmet : ∃ row < 2 ^ s.size, kind.Meets (s.valueAt row) term
    · obtain ⟨met, -, hmeets⟩ := hmet
      obtain ⟨p, hprime, hpcov, hpliterals⟩ := exists_prime_of_term
        (hletters term List.mem_cons_self) (htargets term List.mem_cons_self) hmeets
      refine ⟨p :: ds, ?_, fun t ht row hrow htmeets => ?_, ?_, ?_⟩
      · exact List.forall_mem_cons.2 ⟨hprime, hprimes⟩
      · rcases List.mem_cons.1 ht with rfl | ht
        · exact ⟨p, List.mem_cons_self, hpcov row hrow htmeets⟩
        · obtain ⟨d, hd, hdrow⟩ := hcov t ht row hrow htmeets
          exact ⟨d, List.mem_cons_of_mem _ hd, hdrow⟩
      · exact Nat.succ_le_succ hlength
      · rw [Cube.literalTotal_eq_sum] at hliterals ⊢
        rw [List.map_cons, List.map_cons, List.sum_cons, List.sum_cons]
        exact Nat.add_le_add hpliterals hliterals
    · -- A term that is met on no row can be left out.
      refine ⟨ds, hprimes, fun t ht row hrow htmeets => ?_, Nat.le_succ_of_le hlength, ?_⟩
      · rcases List.mem_cons.1 ht with rfl | ht
        · exact absurd ⟨row, hrow, htmeets⟩ hmet
        · exact hcov t ht row hrow htmeets
      · rw [List.map_cons, List.sum_cons]
        exact hliterals.trans (Nat.le_add_left _ _)

/-- Terms with the right value can be replaced by primes that cover all targets. -/
theorem Denotes.exists_primes (h : Denotes kind s targets terms)
    (hrows : ∀ row ∈ targets, row < 2 ^ s.size) (order : VisitOrder) :
    ∃ ds ⊆ Cube.primes order s.size targets, Covering ds targets ∧
      ds.length ≤ terms.length ∧ Cube.literalTotal ds ≤ (terms.map List.length).sum := by
  obtain ⟨ds, hprimes, hcov, hlength, hliterals⟩ := exists_primes_of_terms h.letter_mem
    fun term hterm row hrow hmeets => h.mem_targets hterm hrow hmeets
  refine ⟨ds, fun d hd => ?_, fun row hrow => ?_, hlength, hliterals⟩
  · exact (Cube.mem_primes s.size_le_word hrows order).2 (hprimes d hd)
  · have hvalue := (h.value_iff row (hrows row hrow)).2 hrow
    obtain ⟨term, hterm, hmeets⟩ := FormKind.value_eq_plain.1 hvalue
    exact hcov term hterm row (hrows row hrow) hmeets

/-! ### Forms -/

namespace Form

theorem letter_mem_of_mem_terms {term : List Literal} (hterm : term ∈ f.terms) {l : Literal}
    (hl : l ∈ term) : l.letter ∈ f.letters.toList := by
  obtain ⟨c, -, rfl⟩ := List.mem_map.1 hterm
  exact Cube.mem_of_demand_eq_some (mem_literals.1 hl)

/-- A form denotes what its cubes cover. -/
theorem denotes_terms (hfits : ∀ c ∈ f.cubes, c.Fits f.letters.size)
    (hcov : ∀ row < 2 ^ f.letters.size, f.cubes.any (·.covers row) = true ↔ row ∈ targets) :
    Denotes f.kind f.letters targets f.terms := by
  refine ⟨fun term hterm l hl => letter_mem_of_mem_terms hterm hl, fun row hrow => ?_⟩
  rw [← hcov row hrow, FormKind.value_eq_plain, List.any_eq_true, terms]
  constructor
  · rintro ⟨term, hterm, hmeets⟩
    obtain ⟨c, hc, rfl⟩ := List.mem_map.1 hterm
    exact ⟨c, hc, (meets_literals (hfits c hc) hrow).1 hmeets⟩
  · rintro ⟨c, hc, hcrow⟩
    exact ⟨_, List.mem_map_of_mem hc, (meets_literals (hfits c hc) hrow).2 hcrow⟩

theorem cubes_ofTargets (order : VisitOrder) (strategy : Strategy) (kind : FormKind)
    (hne : targets ≠ []) (hlen : targets.length ≠ 2 ^ s.size) :
    (ofTargets order strategy kind s targets).cubes =
      coverOf order strategy kind.plain s.size targets := by
  rw [cubes, body_ofTargets hne hlen]

/-- The form of some, but not all rows has the right value, whatever the strategy. -/
theorem denotes_ofTargets (hrows : ∀ row ∈ targets, row < 2 ^ s.size) (hne : targets ≠ [])
    (hlen : targets.length ≠ 2 ^ s.size) :
    Denotes kind s targets (ofTargets order strategy kind s targets).terms := by
  have hcubes := cubes_ofTargets order strategy kind hne hlen
  refine denotes_terms (f := ofTargets order strategy kind s targets) (fun c hc => ?_)
    fun row hrow => ?_
  · exact (isPrime_of_mem_coverOf hrows (hcubes ▸ hc)).fits
  · rw [hcubes]
    exact any_coverOf hrows hrow kind.plain

/-- Terms with the right value cost no less than the exact form of some, but not all rows. -/
theorem cost_ofTargets_le (order : VisitOrder) (hrows : ∀ row ∈ targets, row < 2 ^ s.size)
    (hne : targets ≠ []) (hlen : targets.length ≠ 2 ^ s.size)
    (hterms : Denotes kind s targets terms) :
    (ofTargets order .exact kind s targets).termCount ≤ terms.length ∧
      (terms.length = (ofTargets order .exact kind s targets).termCount →
        (ofTargets order .exact kind s targets).literalCount ≤ (terms.map List.length).sum) := by
  obtain ⟨ds, hds, hcov, hlength, hliterals⟩ := hterms.exists_primes hrows order
  have hle := Selection.cost_le kind.plain (Cube.nodup_primes order) hds hcov
  rw [Cube.cost, Cube.cost, Prod.Lex.toLex_le_toLex] at hle
  rw [termCount, literalCount, cubes_ofTargets order .exact kind hne hlen, coverOf]
  dsimp only at hle
  omega

/-- The exact form of some, but not all rows is minimal. -/
theorem isMinimal_ofTargets (order : VisitOrder) (kind : FormKind)
    (hrows : ∀ row ∈ targets, row < 2 ^ s.size) (hne : targets ≠ [])
    (hlen : targets.length ≠ 2 ^ s.size) :
    (ofTargets order .exact kind s targets).IsMinimal kind s targets := by
  have hfits : ∀ c ∈ (ofTargets order .exact kind s targets).cubes, c.Fits s.size :=
    fun c hc => (isPrime_of_mem_cubes hrows hc).fits
  refine ⟨rfl, rfl, denotes_ofTargets hrows hne hlen,
    fun terms h => (cost_ofTargets_le order hrows hne hlen h).1,
    fun terms h => (cost_ofTargets_le order hrows hne hlen h).2,
    fun i hi herased => ?_, fun i term hterm j hj herased => ?_⟩
  · have hfewer := (cost_ofTargets_le order hrows hne hlen herased).1
    rw [List.length_eraseIdx_of_lt hi, length_terms] at hfewer
    rw [length_terms] at hi
    omega
  · -- The number of terms is the same, but that of literals is one less.
    have hliterals := (cost_ofTargets_le order hrows hne hlen herased).2
      (by rw [List.length_set, length_terms])
    obtain ⟨hi, hget⟩ := List.getElem?_eq_some_iff.1 hterm
    have hsum := sum_map_set List.length hi (term.eraseIdx j)
    rw [hget, List.length_eraseIdx_of_lt hj, sum_length_terms hfits] at hsum
    omega

/-- A minimal form has no more terms than the form that is found with any strategy. -/
theorem IsMinimal.termCount_le_ofTargets (h : f.IsMinimal kind s targets)
    (hrows : ∀ row ∈ targets, row < 2 ^ s.size) (hne : targets ≠ [])
    (hlen : targets.length ≠ 2 ^ s.size) (order : VisitOrder) (strategy : Strategy) :
    f.termCount ≤ (ofTargets order strategy kind s targets).termCount := by
  rw [← length_terms (ofTargets order strategy kind s targets)]
  exact h.termCount_le _ (denotes_ofTargets hrows hne hlen)

end Form

namespace IsPartition

variable {minterms maxterms : List Nat}

/-- If both lists of a partition name a row, neither names all. -/
theorem length_ne (hpart : IsPartition s minterms maxterms) (hzeros : maxterms ≠ []) :
    minterms.length ≠ 2 ^ s.size := by
  have hlength := hpart.length_eq
  rw [List.length_append, List.length_range] at hlength
  have hpos := List.length_pos_iff.2 hzeros
  omega

theorem size_pos (hpart : IsPartition s minterms maxterms) (hones : minterms ≠ [])
    (hzeros : maxterms ≠ []) : 0 < s.size := by
  have hlength := hpart.length_eq
  rw [List.length_append, List.length_range] at hlength
  have hpos := List.length_pos_iff.2 hones
  have hpos' := List.length_pos_iff.2 hzeros
  by_contra hzero
  rw [show s.size = 0 by omega] at hlength
  omega

end IsPartition

/-- Exact minimization of a function that is not constant finds a minimal form of either kind, and
neither has more terms than the form that is found greedily. -/
theorem exact_isMinimal {minterms maxterms : List Nat} (hpart : IsPartition s minterms maxterms)
    (hones : minterms ≠ []) (hzeros : maxterms ≠ []) :
    ∃ m g, Minimized.ofPartition .exact s minterms maxterms = .ok m ∧
      Minimized.ofPartition .greedy s minterms maxterms = .ok g ∧
      m.sop.IsMinimal .sumOfProducts s minterms ∧ m.pos.IsMinimal .productOfSums s maxterms ∧
      m.sop.termCount ≤ g.sop.termCount ∧ m.pos.termCount ≤ g.pos.termCount := by
  have hsize := hpart.size_pos hones hzeros
  have hsop := Form.isMinimal_ofTargets .listed .sumOfProducts
    (fun _ => hpart.lt_of_mem) hones (hpart.length_ne hzeros)
  have hpos := Form.isMinimal_ofTargets .listed .productOfSums
    (fun _ => hpart.symm.lt_of_mem) hzeros (hpart.symm.length_ne hones)
  refine ⟨_, _, Minimized.ofPartitionIn_eq_ok hsize hpart .listed .exact,
    Minimized.ofPartitionIn_eq_ok hsize hpart .listed .greedy, hsop, hpos, ?_, ?_⟩
  · exact hsop.termCount_le_ofTargets (fun _ => hpart.lt_of_mem) hones
      (hpart.length_ne hzeros) .listed .greedy
  · exact hpos.termCount_le_ofTargets (fun _ => hpart.symm.lt_of_mem) hzeros
      (hpart.symm.length_ne hones) .listed .greedy

/-- The minimal sum of a function of three letters without essential cubes has at most the three
terms of a sum that is known to have the right value. -/
theorem exact_isMinimal_cyclic :
    IsPartition (.ofChars ['A', 'B', 'C']) [0, 1, 2, 5, 6, 7] [3, 4] ∧
      [0, 1, 2, 5, 6, 7] ≠ [] ∧ [3, 4] ≠ [] ∧
      ∃ m, Minimized.ofPartition .exact (.ofChars ['A', 'B', 'C'])
          [0, 1, 2, 5, 6, 7] [3, 4] = .ok m ∧ m.sop.termCount ≤ 3 := by
  have hsize : (Letters.ofChars ['A', 'B', 'C']).size = 3 := by decide
  have hpart : IsPartition (.ofChars ['A', 'B', 'C']) [0, 1, 2, 5, 6, 7] [3, 4] := by
    rw [IsPartition, hsize]
    decide
  have hterms : Denotes .sumOfProducts (.ofChars ['A', 'B', 'C']) [0, 1, 2, 5, 6, 7]
      [[⟨'A', true⟩, ⟨'B', true⟩], [⟨'A', false⟩, ⟨'C', false⟩],
        [⟨'B', false⟩, ⟨'C', true⟩]] := by
    refine ⟨by decide, ?_⟩
    rw [hsize]
    decide
  obtain ⟨m, g, hm, -, hsop, -⟩ := exact_isMinimal hpart (by decide) (by decide)
  exact ⟨hpart, by decide, by decide, m, hm, hsop.termCount_le _ hterms⟩

end TwoLevel
