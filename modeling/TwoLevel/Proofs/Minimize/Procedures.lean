import TwoLevel.Proofs.Cover.ExactTerms
import TwoLevel.Proofs.Cover.GreedyTerms
import TwoLevel.Proofs.Minimize.Value

/-!
# Forms emit the terms of the procedures

This file proves that either form of a function emits the terms of the greedy or of the exact
procedure, as the strategy says. A form that has nothing to cover, or everything, is no exception: it
is a constant, and this is how the outcome of the procedure is written if it has no term, or a term
without literals.

## Main definitions

- `FormBody.ofTerms` — how terms are written
- `Form.Emits` — a form that consists of some terms
- `GreedyOutcome`, `ExactOutcome` — terms that are those of the procedure

## Main statements

- `Form.emits_ofTargets` — every form emits what is selected from the primes
- `greedy_emits` — greedy forms emit the terms of the greedy procedure
- `exact_emits` — exact forms emit the terms of the exact procedure
-/

namespace TwoLevel

/-- What a form with some terms consists of. Without terms, or with a term that has no literals, it
is written as a constant. -/
def FormBody.ofTerms (plain : Bool) (terms : List Cube) : FormBody :=
  if terms = [] then .constant !plain
  else if terms.any (·.literalCount = 0) then .constant plain
  else .cubes terms

/-- A form of a kind over some letters that consists of some terms, in their order. -/
structure Form.Emits (kind : FormKind) (s : Letters) (terms : List Cube) (f : Form) : Prop where
  kind_eq : f.kind = kind
  letters_eq : f.letters = s
  body_eq : f.body = .ofTerms kind.plain terms

/-- The terms of the greedy procedure. It ends when all targets are covered, takes no prime twice,
and each prime that is not essential covers a target that no term before it covers. -/
structure GreedyOutcome (plain : Bool) (w : Nat) (targets : List Nat) (terms : List Cube) :
    Prop where
  greedyTerms : GreedyTerms plain w targets terms
  unique : ∀ other, GreedyTerms plain w targets other → other = terms
  covering : Covering terms targets
  nodup : terms.Nodup
  exists_new_row : ∀ before c after, terms = before ++ c :: after → ¬c.IsEssential w targets →
    ∃ row ∈ targets, c.covers row = true ∧ ∀ d ∈ before, ¬d.covers row = true

/-- The terms of the exact procedure. Nothing is added to the essential primes if these cover all
targets. -/
structure ExactOutcome (plain : Bool) (w : Nat) (targets : List Nat) (terms : List Cube) :
    Prop where
  exactTerms : ExactTerms plain w targets terms
  unique : ∀ other, ExactTerms plain w targets other → other = terms
  eq_essential : ∀ essential, ListsEssentials plain w targets essential →
    Covering essential targets → terms = essential

variable {s : Letters} {targets minterms maxterms : List Nat}

/-! ### How selected cubes are written -/

section Selected

variable (hrows : ∀ row ∈ targets, row < 2 ^ s.size) (order : VisitOrder) (strategy : Strategy)
  (plain : Bool)

include hrows

/-- Cubes are selected as soon as there is something to cover. -/
theorem coverOf_eq_nil_iff : coverOf order strategy plain s.size targets = [] ↔ targets = [] := by
  constructor
  · intro hnone
    rw [List.eq_nil_iff_forall_not_mem]
    intro row hrow
    have hcov : (coverOf order strategy plain s.size targets).any (·.covers row) = true :=
      (any_coverOf hrows (hrows row hrow) plain).2 hrow
    rw [hnone] at hcov
    cases hcov
  · rintro rfl
    rw [List.eq_nil_iff_forall_not_mem]
    intro c hc
    -- A prime would cover a target.
    have hprime := isPrime_of_mem_coverOf hrows hc
    obtain ⟨hlt, hcov⟩ := hprime.fits.covers_bits s.size_le_word
    exact List.not_mem_nil (hprime.subset _ hlt hcov)

/-- A cube without literals is selected exactly if all rows are to be covered. -/
theorem any_literalCount_coverOf (hnodup : targets.Nodup) :
    (coverOf order strategy plain s.size targets).any (·.literalCount = 0) = true ↔
      targets.length = 2 ^ s.size := by
  have hzero : ∀ c ∈ coverOf order strategy plain s.size targets,
      c.literalCount = 0 ↔ targets.length = 2 ^ s.size := by
    intro c hc
    have hprime := isPrime_of_mem_coverOf hrows hc
    rw [hprime.literalCount_eq_zero_iff s.size_le_word, forall_mem_iff_length_eq hnodup hrows]
  rw [List.any_eq_true]
  constructor
  · rintro ⟨c, hc, hfree⟩
    exact (hzero c hc).1 (of_decide_eq_true hfree)
  · intro hlen
    have hne : coverOf order strategy plain s.size targets ≠ [] := by
      rw [Ne, coverOf_eq_nil_iff hrows]
      rintro rfl
      exact (Nat.two_pow_pos s.size).ne hlen
    obtain ⟨c, hc⟩ := List.exists_mem_of_ne_nil _ hne
    exact ⟨c, hc, decide_eq_true ((hzero c hc).2 hlen)⟩

omit strategy in
/-- What is selected greedily are the terms of the greedy procedure. -/
theorem greedyTerms_coverOf :
    GreedyTerms plain s.size targets (coverOf order .greedy plain s.size targets) :=
  have hw := s.size_le_word
  greedyTerms_ofPrimes (fun _ => Cube.mem_primes hw hrows order) plain (Cube.nodup_primes order)
    (Cube.covering_primes hw hrows order)

omit strategy in
/-- What is selected exactly are the terms of the exact procedure. -/
theorem exactTerms_coverOf :
    ExactTerms plain s.size targets (coverOf order .exact plain s.size targets) :=
  have hw := s.size_le_word
  exactTerms_ofPrimes (fun _ => Cube.mem_primes hw hrows order) (Cube.nodup_primes order) plain
    (Cube.covering_primes hw hrows order)

end Selected

namespace Form

/-- Every form emits what is selected from the primes of its targets. -/
theorem emits_ofTargets (hnodup : targets.Nodup) (hrows : ∀ row ∈ targets, row < 2 ^ s.size)
    (order : VisitOrder) (strategy : Strategy) (kind : FormKind) :
    (ofTargets order strategy kind s targets).Emits kind s
      (coverOf order strategy kind.plain s.size targets) := by
  refine ⟨rfl, rfl, ?_⟩
  have hnone := coverOf_eq_nil_iff hrows order strategy kind.plain
  have hfree := any_literalCount_coverOf hrows order strategy kind.plain hnodup
  rw [FormBody.ofTerms]
  by_cases hnil : targets = []
  · rw [if_pos (hnone.2 hnil), hnil, body_ofTargets_nil, FormKind.decide_eq_productOfSums]
  · rw [if_neg (mt hnone.1 hnil)]
    by_cases hlen : targets.length = 2 ^ s.size
    · rw [if_pos (hfree.2 hlen), body_ofTargets_of_length hlen, FormKind.decide_eq_sumOfProducts]
    · rw [if_neg (mt hfree.1 hlen), body_ofTargets hnil hlen]

theorem exists_greedyOutcome (hnodup : targets.Nodup)
    (hrows : ∀ row ∈ targets, row < 2 ^ s.size) (order : VisitOrder) (kind : FormKind) :
    ∃ terms, (ofTargets order .greedy kind s targets).Emits kind s terms ∧
      GreedyOutcome kind.plain s.size targets terms := by
  have hw := s.size_le_word
  have hterms := greedyTerms_coverOf hrows order kind.plain
  exact ⟨_, emits_ofTargets hnodup hrows order .greedy kind, hterms,
    fun _ hother => hother.unique hterms, hterms.covering, hterms.nodup hw hrows,
    fun _ _ _ hsplit hc => hterms.exists_new_row hw hrows hsplit hc⟩

theorem exists_exactOutcome (hnodup : targets.Nodup)
    (hrows : ∀ row ∈ targets, row < 2 ^ s.size) (order : VisitOrder) (kind : FormKind) :
    ∃ terms, (ofTargets order .exact kind s targets).Emits kind s terms ∧
      ExactOutcome kind.plain s.size targets terms := by
  have hterms := exactTerms_coverOf hrows order kind.plain
  exact ⟨_, emits_ofTargets hnodup hrows order .exact kind, hterms,
    fun _ hother => hother.unique hterms, fun _ => hterms.eq_essential⟩

end Form

/-- Greedy minimization of a partition finds forms that emit the terms of the greedy procedure. -/
theorem greedy_emits (hsize : 0 < s.size) (hpart : IsPartition s minterms maxterms)
    (order : VisitOrder) :
    ∃ m ones zeros, Minimized.ofPartitionIn order .greedy s minterms maxterms = .ok m ∧
      (m.sop.Emits .sumOfProducts s ones ∧ GreedyOutcome true s.size minterms ones) ∧
      m.pos.Emits .productOfSums s zeros ∧ GreedyOutcome false s.size maxterms zeros := by
  obtain ⟨ones, hones⟩ := Form.exists_greedyOutcome hpart.nodup (fun _ => hpart.lt_of_mem) order
    .sumOfProducts
  obtain ⟨zeros, hzeros⟩ := Form.exists_greedyOutcome hpart.symm.nodup
    (fun _ => hpart.symm.lt_of_mem) order .productOfSums
  exact ⟨_, ones, zeros, Minimized.ofPartitionIn_eq_ok hsize hpart order .greedy, hones, hzeros⟩

/-- The greedy sum of a function of three letters without essential primes. -/
theorem greedy_emits_cyclic :
    0 < (Letters.ofChars ['A', 'B', 'C']).size ∧
      IsPartition (.ofChars ['A', 'B', 'C']) [0, 1, 2, 5, 6, 7] [3, 4] ∧
      ∃ m terms, Minimized.ofPartitionIn .listed .greedy (.ofChars ['A', 'B', 'C'])
          [0, 1, 2, 5, 6, 7] [3, 4] = .ok m ∧
        m.sop.Emits .sumOfProducts (.ofChars ['A', 'B', 'C']) terms ∧
        terms.Nodup ∧ ∃ c ∈ terms, c.covers 5 = true := by
  have hpos : 0 < (Letters.ofChars ['A', 'B', 'C']).size := by decide
  have hpart : IsPartition (.ofChars ['A', 'B', 'C']) [0, 1, 2, 5, 6, 7] [3, 4] := by decide
  obtain ⟨m, ones, -, hm, ⟨hemits, hones⟩, -⟩ := greedy_emits hpos hpart .listed
  exact ⟨hpos, hpart, m, ones, hm, hemits, hones.nodup, hones.covering 5 (by decide)⟩

/-- Exact minimization of a partition finds forms that emit the terms of the exact procedure. The
search ends, whatever cubes and rows it is given. -/
theorem exact_emits (hsize : 0 < s.size) (hpart : IsPartition s minterms maxterms)
    (order : VisitOrder) :
    (∀ cubes, WellFounded (SearchCalls cubes)) ∧
      ∃ m ones zeros, Minimized.ofPartitionIn order .exact s minterms maxterms = .ok m ∧
        (m.sop.Emits .sumOfProducts s ones ∧ ExactOutcome true s.size minterms ones) ∧
        m.pos.Emits .productOfSums s zeros ∧ ExactOutcome false s.size maxterms zeros := by
  obtain ⟨ones, hones⟩ := Form.exists_exactOutcome hpart.nodup (fun _ => hpart.lt_of_mem) order
    .sumOfProducts
  obtain ⟨zeros, hzeros⟩ := Form.exists_exactOutcome hpart.symm.nodup
    (fun _ => hpart.symm.lt_of_mem) order .productOfSums
  exact ⟨searchCalls_wellFounded, _, ones, zeros,
    Minimized.ofPartitionIn_eq_ok hsize hpart order .exact, hones, hzeros⟩

/-- The exact sum of a function of three letters without essential primes: its terms are the least
of all lists of primes that cover the ones. -/
theorem exact_emits_cyclic :
    0 < (Letters.ofChars ['A', 'B', 'C']).size ∧
      IsPartition (.ofChars ['A', 'B', 'C']) [0, 1, 2, 5, 6, 7] [3, 4] ∧
      ∃ m terms, Minimized.ofPartitionIn .listed .exact (.ofChars ['A', 'B', 'C'])
          [0, 1, 2, 5, 6, 7] [3, 4] = .ok m ∧
        m.sop.Emits .sumOfProducts (.ofChars ['A', 'B', 'C']) terms ∧
        ExactTerms true (Letters.ofChars ['A', 'B', 'C']).size [0, 1, 2, 5, 6, 7] terms := by
  have hpos : 0 < (Letters.ofChars ['A', 'B', 'C']).size := by decide
  have hpart : IsPartition (.ofChars ['A', 'B', 'C']) [0, 1, 2, 5, 6, 7] [3, 4] := by decide
  obtain ⟨-, m, ones, -, hm, ⟨hemits, hones⟩, -⟩ := exact_emits hpos hpart .listed
  exact ⟨hpos, hpart, m, ones, hm, hemits, hones.exactTerms⟩

end TwoLevel
