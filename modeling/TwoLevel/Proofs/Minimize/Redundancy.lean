import TwoLevel.Proofs.Minimize.Minimal
import TwoLevel.Proofs.Minimize.Procedures

/-!
# Terms that a greedy form needs

A greedy pick covers something new when it is taken, but later picks can together cover all of it
again, so a greedy form may have a term that could be left out. This file proves that this happens
to few terms only. An essential term is always needed. A pick would have to be made superfluous by
two later terms at least, since a single one that covers all that the pick newly covers would have
been taken in its place; so the last two terms are needed too.

## Main definitions

- `Form.IsIrredundant` — every cube of a form covers a row of its own
- `Form.HasNeededTerms` — which terms of a greedy form do

## Main statements

- `GreedyTerms.exists_own_row` — the rows of their own of essential and of last terms
- `greedy_hasNeededTerms` — the terms of both greedy forms of a partition
- `greedy_redundant` — a greedy form with a term that can be left out
-/

namespace TwoLevel

/-- Every cube of a form covers a target row that no other cube of the form covers. -/
def Form.IsIrredundant (targets : List Nat) (f : Form) : Prop :=
  ∀ c ∈ f.cubes, ∃ row ∈ targets, c.covers row = true ∧
    ∀ d ∈ f.cubes, d ≠ c → ¬d.covers row = true

/-- The terms of a form that are essential and its last two terms cover a row of their own and cannot
be left out. Every other term covers a row that no term before it covers, and no later term covers
all such rows. -/
structure Form.HasNeededTerms (kind : FormKind) (s : Letters) (targets : List Nat) (f : Form) :
    Prop where
  exists_own_row : ∀ before c after, f.cubes = before ++ c :: after →
    c.IsEssential s.size targets ∨ after.length ≤ 1 →
    ∃ row ∈ targets, c.covers row = true ∧ ∀ d ∈ before ++ after, ¬d.covers row = true
  term_needed : ∀ before c after, f.cubes = before ++ c :: after →
    c.IsEssential s.size targets ∨ after.length ≤ 1 →
    ¬Denotes kind s targets (f.terms.eraseIdx before.length)
  exists_new_row : ∀ before c after, f.cubes = before ++ c :: after →
    ¬c.IsEssential s.size targets →
    ∃ row ∈ targets, c.covers row = true ∧ ∀ d ∈ before, ¬d.covers row = true
  exists_unshared_row : ∀ before c between d after,
    f.cubes = before ++ c :: (between ++ d :: after) → ¬c.IsEssential s.size targets →
    ∃ row ∈ targets, c.covers row = true ∧ (∀ e ∈ before, ¬e.covers row = true) ∧
      ¬d.covers row = true

variable {plain : Bool} {w : Nat} {targets : List Nat} {c d : Cube}
  {terms before between after : List Cube}

/-! ### Rows of a term's own -/

namespace GreedyTerms

theorem isPrime (h : GreedyTerms plain w targets terms) : ∀ c ∈ terms, c.IsPrime w targets := by
  obtain ⟨essential, picks, rfl, hessential, hpicks⟩ := h
  intro c hc
  rcases List.mem_append.1 hc with hc | hc
  · exact ((hessential.mem_iff c).1 hc).toIsPrime
  · exact hpicks.isPrime c hc

variable (hw : w ≤ 32) (hrows : ∀ row ∈ targets, row < 2 ^ w)

include hw hrows

/-- No later term covers all that a term newly covers, unless this is essential. -/
theorem exists_unshared_row (h : GreedyTerms plain w targets terms)
    (hsplit : terms = before ++ c :: (between ++ d :: after)) (hc : ¬c.IsEssential w targets) :
    ∃ row ∈ targets, c.covers row = true ∧ (∀ e ∈ before, ¬e.covers row = true) ∧
      ¬d.covers row = true := by
  obtain ⟨essential, front, rfl, -, hpicks⟩ := h.exists_picks hsplit hc
  exact hpicks.exists_unshared_row hw hrows rfl

/-- An essential term, and each of the last two terms, covers a target that no other term covers. -/
theorem exists_own_row (h : GreedyTerms plain w targets terms)
    (hsplit : terms = before ++ c :: after)
    (hc : c.IsEssential w targets ∨ after.length ≤ 1) :
    ∃ row ∈ targets, c.covers row = true ∧ ∀ d ∈ before ++ after, ¬d.covers row = true := by
  by_cases hessential : c.IsEssential w targets
  · obtain ⟨row, hrow, hcov, hsole⟩ := hessential.sole
    refine ⟨row, hrow, hcov, fun d hd hdcov => ?_⟩
    have hnodup := h.nodup hw hrows
    rw [hsplit, List.nodup_middle, List.nodup_cons] at hnodup
    have hprime : d.IsPrime w targets := by
      refine h.isPrime d ?_
      rw [hsplit, List.mem_append, List.mem_cons]
      exact (List.mem_append.1 hd).imp_right .inr
    exact hnodup.1 (hsole d hprime hdcov ▸ hd)
  · have hshort := hc.resolve_left hessential
    cases after with
    | nil =>
      rw [List.append_nil]
      exact h.exists_new_row hw hrows hsplit hessential
    | cons d rest =>
      obtain rfl : rest = [] := by simpa using hshort
      have hsplit' : terms = before ++ c :: ([] ++ d :: []) := hsplit
      obtain ⟨row, hrow, hcov, hbefore, hd⟩ := h.exists_unshared_row hw hrows hsplit' hessential
      refine ⟨row, hrow, hcov, fun e he => ?_⟩
      rcases List.mem_append.1 he with he | he
      · exact hbefore e he
      · exact List.mem_singleton.1 he ▸ hd

end GreedyTerms

/-! ### Forms -/

namespace Form

variable {kind : FormKind} {s : Letters} {f : Form}

/-- Without a term that covers a row of its own the form has another value there. -/
theorem not_denotes_eraseIdx (hfits : ∀ c ∈ f.cubes, c.Fits f.letters.size)
    (hsplit : f.cubes = before ++ c :: after) {row : Nat} (hrow : row ∈ targets)
    (hlt : row < 2 ^ f.letters.size) (hown : ∀ d ∈ before ++ after, ¬d.covers row = true) :
    ¬Denotes f.kind f.letters targets (f.terms.eraseIdx before.length) := by
  intro hdenotes
  have hrest : f.terms.eraseIdx before.length = (before ++ after).map f.literals := by
    rw [terms, hsplit, List.eraseIdx_map, List.eraseIdx_append_of_length_le le_rfl]
    simp
  rw [hrest] at hdenotes
  obtain ⟨term, hterm, hmeets⟩ := FormKind.value_eq_plain.1 ((hdenotes.value_iff row hlt).2 hrow)
  obtain ⟨d, hd, rfl⟩ := List.mem_map.1 hterm
  have hdcubes : d ∈ f.cubes := by
    rw [hsplit, List.mem_append, List.mem_cons]
    exact (List.mem_append.1 hd).imp_right .inr
  exact hown d hd ((meets_literals (hfits d hdcubes) hlt).1 hmeets)

/-- A form whose cubes are the terms of the greedy procedure. -/
theorem hasNeededTerms_of_greedyTerms (hrows : ∀ row ∈ targets, row < 2 ^ f.letters.size)
    (hterms : GreedyTerms f.kind.plain f.letters.size targets f.cubes) :
    f.HasNeededTerms f.kind f.letters targets := by
  have hw := f.letters.size_le_word
  refine ⟨fun _ _ _ hsplit hc => hterms.exists_own_row hw hrows hsplit hc,
    fun before c after hsplit hc => ?_,
    fun _ _ _ hsplit hc => hterms.exists_new_row hw hrows hsplit hc,
    fun _ _ _ _ _ hsplit hc => hterms.exists_unshared_row hw hrows hsplit hc⟩
  obtain ⟨row, hrow, -, hown⟩ := hterms.exists_own_row hw hrows hsplit hc
  exact not_denotes_eraseIdx (fun d hd => (hterms.isPrime d hd).fits) hsplit hrow (hrows row hrow)
    hown

theorem hasNeededTerms_ofTargets (hrows : ∀ row ∈ targets, row < 2 ^ s.size) (hne : targets ≠ [])
    (hlen : targets.length ≠ 2 ^ s.size) (order : VisitOrder) (kind : FormKind) :
    (ofTargets order .greedy kind s targets).HasNeededTerms kind s targets := by
  refine hasNeededTerms_of_greedyTerms (f := ofTargets order .greedy kind s targets) hrows ?_
  rw [cubes_ofTargets order .greedy kind hne hlen]
  exact greedyTerms_coverOf hrows order kind.plain

end Form

/-- Greedy minimization of a function that is not constant finds forms in which all essential terms
and the last two terms are needed. -/
theorem greedy_hasNeededTerms {s : Letters} {minterms maxterms : List Nat}
    (hpart : IsPartition s minterms maxterms) (hones : minterms ≠ []) (hzeros : maxterms ≠ [])
    (order : VisitOrder) :
    ∃ m, Minimized.ofPartitionIn order .greedy s minterms maxterms = .ok m ∧
      m.sop.HasNeededTerms .sumOfProducts s minterms ∧
      m.pos.HasNeededTerms .productOfSums s maxterms :=
  ⟨_, Minimized.ofPartitionIn_eq_ok (hpart.size_pos hones hzeros) hpart order .greedy,
    Form.hasNeededTerms_ofTargets (fun _ => hpart.lt_of_mem) hones (hpart.length_ne hzeros) order
      .sumOfProducts,
    Form.hasNeededTerms_ofTargets (fun _ => hpart.symm.lt_of_mem) hzeros
      (hpart.symm.length_ne hones) order .productOfSums⟩

/-- The greedy sum of a function of four letters: `A'.B.C'`, `A'.B'.C`, `A.B'.C'`, `A.B'.D` and
`A.C'.D'`. -/
theorem Form.cubes_greedy_five :
    (ofTargets .listed .greedy .sumOfProducts (.ofChars ['A', 'B', 'C', 'D'])
      [2, 3, 4, 5, 8, 9, 11, 12]).cubes =
      [⟨4, 4, 1⟩, ⟨4, 2, 1⟩, ⟨4, 8, 1⟩] ++ ⟨4, 9, 2⟩ :: [⟨4, 8, 4⟩] := by cbv

/-- The fourth of the five terms of a greedy sum is one of the last two, so it cannot be left out. -/
theorem greedy_hasNeededTerms_five :
    IsPartition (.ofChars ['A', 'B', 'C', 'D']) [2, 3, 4, 5, 8, 9, 11, 12]
        [0, 1, 6, 7, 10, 13, 14, 15] ∧
      [2, 3, 4, 5, 8, 9, 11, 12] ≠ [] ∧ [0, 1, 6, 7, 10, 13, 14, 15] ≠ [] ∧
      ∃ m, Minimized.ofPartitionIn .listed .greedy (.ofChars ['A', 'B', 'C', 'D'])
          [2, 3, 4, 5, 8, 9, 11, 12] [0, 1, 6, 7, 10, 13, 14, 15] = .ok m ∧
        ¬Denotes .sumOfProducts (.ofChars ['A', 'B', 'C', 'D']) [2, 3, 4, 5, 8, 9, 11, 12]
          (m.sop.terms.eraseIdx 3) := by
  have hpart : IsPartition (.ofChars ['A', 'B', 'C', 'D']) [2, 3, 4, 5, 8, 9, 11, 12]
      [0, 1, 6, 7, 10, 13, 14, 15] := by decide
  obtain ⟨m, hm, hsop, -⟩ := greedy_hasNeededTerms hpart (by decide) (by decide) .listed
  refine ⟨hpart, by decide, by decide, m, hm, ?_⟩
  rw [Minimized.ofPartitionIn_eq_ok (by decide) hpart .listed .greedy, Except.ok.injEq] at hm
  subst hm
  exact hsop.term_needed _ _ _ Form.cubes_greedy_five (.inr le_rfl)

/-- The third of these five terms can be left out: it covers two rows, of which each of the last two
terms covers one. -/
theorem greedy_redundant :
    IsPartition (.ofChars ['A', 'B', 'C', 'D']) [2, 3, 4, 5, 8, 9, 11, 12]
        [0, 1, 6, 7, 10, 13, 14, 15] ∧
      ∃ m, Minimized.ofPartition .greedy (.ofChars ['A', 'B', 'C', 'D'])
          [2, 3, 4, 5, 8, 9, 11, 12] [0, 1, 6, 7, 10, 13, 14, 15] = .ok m ∧
        ¬m.sop.IsIrredundant [2, 3, 4, 5, 8, 9, 11, 12] ∧
        Denotes .sumOfProducts (.ofChars ['A', 'B', 'C', 'D']) [2, 3, 4, 5, 8, 9, 11, 12]
          (m.sop.terms.eraseIdx 2) := by
  have hsize : (Letters.ofChars ['A', 'B', 'C', 'D']).size = 4 := by decide
  have hpart : IsPartition (.ofChars ['A', 'B', 'C', 'D']) [2, 3, 4, 5, 8, 9, 11, 12]
      [0, 1, 6, 7, 10, 13, 14, 15] := by decide
  have hterms : (Form.ofTargets .listed .greedy .sumOfProducts (.ofChars ['A', 'B', 'C', 'D'])
      [2, 3, 4, 5, 8, 9, 11, 12]).terms.eraseIdx 2 =
      [[⟨'A', true⟩, ⟨'B', false⟩, ⟨'C', true⟩], [⟨'A', true⟩, ⟨'B', true⟩, ⟨'C', false⟩],
        [⟨'A', false⟩, ⟨'B', true⟩, ⟨'D', false⟩], [⟨'A', false⟩, ⟨'C', true⟩, ⟨'D', true⟩]] := by
    rw [Form.terms, Form.cubes_greedy_five]
    rfl
  refine ⟨hpart, _, Minimized.ofPartitionIn_eq_ok (by rw [hsize]; decide) hpart .listed .greedy,
    ?_, ?_⟩
  · rw [Form.IsIrredundant, Form.cubes_greedy_five]
    decide
  · rw [hterms]
    refine ⟨by decide, ?_⟩
    rw [hsize]
    decide

end TwoLevel
