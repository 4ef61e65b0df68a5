import TwoLevel.Proofs.Cover.Essential

/-!
# The terms of the greedy procedure

This file says which terms the greedy procedure emits for some target rows: the essential primes,
then, as long as a target is not covered, a prime that covers most of the targets left, the one with
the least key if there are several. The procedure is stated in terms of what the terms emitted so
far cover. It has only one outcome, and a selection emits this outcome.

## Main definitions

- `Cube.newRows` — the number of targets that a cube adds to what some terms cover
- `Cube.sharedRows` — the number of such targets that another cube covers too
- `Cube.IsWidest` — the prime that the procedure takes next
- `GreedyPicks` — the picks of the procedure when some terms have been emitted
- `GreedyTerms` — all terms of the procedure

## Main statements

- `GreedyPicks.exists_new_row` — every pick covers a new target
- `GreedyPicks.exists_unshared_row` — and not only targets that one later pick covers too
- `GreedyTerms.unique` — the procedure has only one outcome
- `greedyTerms_ofPrimes` — a greedy selection emits it
-/

namespace TwoLevel

namespace Cube

/-- The number of target rows that a cube covers and none of the terms does. -/
def newRows (targets : List Nat) (terms : List Cube) (c : Cube) : Nat :=
  targets.countP fun row => c.covers row && !terms.any (·.covers row)

/-- The number of target rows that two cubes both cover and none of the terms does. -/
def sharedRows (targets : List Nat) (terms : List Cube) (c d : Cube) : Nat :=
  targets.countP fun row => d.covers row && (c.covers row && !terms.any (·.covers row))

/-- A prime that covers most of the target rows that no term covers, and of all such primes the one
with the least key. -/
structure IsWidest (plain : Bool) (w : Nat) (targets : List Nat) (terms : List Cube) (c : Cube) :
    Prop where
  isPrime : c.IsPrime w targets
  newRows_le : ∀ d : Cube, d.IsPrime w targets → d.newRows targets terms ≤ c.newRows targets terms
  orderKey_lt : ∀ d : Cube, d.IsPrime w targets → d ≠ c →
    d.newRows targets terms = c.newRows targets terms → c.orderKey plain < d.orderKey plain

end Cube

/-- The picks of the greedy procedure when some terms have been emitted: none if the terms cover
all targets, else the widest prime and the picks after it. -/
inductive GreedyPicks (plain : Bool) (w : Nat) (targets : List Nat) :
    List Cube → List Cube → Prop where
  | done {terms : List Cube} (h : Covering terms targets) : GreedyPicks plain w targets terms []
  | pick {terms picks : List Cube} {c : Cube} (hopen : ¬Covering terms targets)
      (hc : c.IsWidest plain w targets terms)
      (hrest : GreedyPicks plain w targets (terms ++ [c]) picks) :
      GreedyPicks plain w targets terms (c :: picks)

/-- The terms of the greedy procedure: the essential primes in the order of their keys, then the
picks. -/
def GreedyTerms (plain : Bool) (w : Nat) (targets : List Nat) (terms : List Cube) : Prop :=
  ∃ essential picks, terms = essential ++ picks ∧ ListsEssentials plain w targets essential ∧
    GreedyPicks plain w targets essential picks

variable {plain : Bool} {w row : Nat} {targets uncovered : List Nat} {c d : Cube}
  {primes terms terms' picks picks' : List Cube}

/-! ### What the procedure emits -/

theorem not_covering_iff :
    ¬Covering terms targets ↔ ∃ row ∈ targets, ∀ c ∈ terms, ¬c.covers row = true := by
  simp only [Covering, not_forall, not_exists, not_and, exists_prop]

theorem Cube.newRows_pos_iff : 0 < c.newRows targets terms ↔
    ∃ row ∈ targets, c.covers row = true ∧ ∀ d ∈ terms, ¬d.covers row = true := by
  simp only [newRows, List.countP_pos_iff, Bool.and_eq_true, Bool.not_eq_true', List.any_eq_false]

/-- When a cube is emitted, another one keeps the new targets that the two do not share. -/
theorem Cube.newRows_concat (targets : List Nat) (terms : List Cube) (c d : Cube) :
    d.newRows targets (terms ++ [c]) + c.sharedRows targets terms d = d.newRows targets terms := by
  have hparts := List.countP_eq_countP_filter_add targets
    (fun row => d.covers row && !terms.any (·.covers row)) c.covers
  rw [List.countP_filter, List.countP_filter] at hparts
  rw [newRows, newRows, sharedRows, Nat.add_comm, hparts]
  congr 1
  · refine List.countP_congr fun row _ => ?_
    simp only [Bool.and_eq_true]
    tauto
  · refine List.countP_congr fun row _ => ?_
    simp [and_assoc]

theorem Cube.IsWidest.unique (hc : c.IsWidest plain w targets terms)
    (hd : d.IsWidest plain w targets terms) : c = d := by
  by_contra hne
  have hsame : c.newRows targets terms = d.newRows targets terms :=
    le_antisymm (hd.newRows_le c hc.isPrime) (hc.newRows_le d hd.isPrime)
  have hlt := hc.orderKey_lt d hd.isPrime (Ne.symm hne) hsame.symm
  have hgt := hd.orderKey_lt c hc.isPrime hne hsame
  exact lt_asymm hlt hgt

namespace GreedyPicks

/-- After the same terms there is only one list of picks. -/
theorem unique (h : GreedyPicks plain w targets terms picks)
    (h' : GreedyPicks plain w targets terms picks') : picks = picks' := by
  induction h generalizing picks' with
  | done hcov =>
    cases h' with
    | done _ => rfl
    | pick hopen _ _ => exact absurd hcov hopen
  | pick hopen hc _ ih =>
    cases h' with
    | done hcov => exact absurd hcov hopen
    | pick _ hd hrest =>
      obtain rfl := hc.unique hd
      rw [ih hrest]

theorem isPrime (h : GreedyPicks plain w targets terms picks) :
    ∀ c ∈ picks, c.IsPrime w targets := by
  induction h with
  | done _ => simp
  | pick _ hc _ ih => exact List.forall_mem_cons.2 ⟨hc.isPrime, ih⟩

/-- In the end all targets are covered. -/
theorem covering (h : GreedyPicks plain w targets terms picks) :
    Covering (terms ++ picks) targets := by
  induction h with
  | done hcov => rwa [List.append_nil]
  | pick _ _ _ ih => rwa [List.append_assoc, List.singleton_append] at ih

/-- There are no picks exactly if the terms before them cover all targets. -/
theorem eq_nil_iff (h : GreedyPicks plain w targets terms picks) :
    picks = [] ↔ Covering terms targets := by
  cases h with
  | done hcov => exact ⟨fun _ => hcov, fun _ => rfl⟩
  | pick hopen _ _ => exact ⟨fun hnil => absurd hnil (List.cons_ne_nil _ _), fun h => absurd h hopen⟩

end GreedyPicks

namespace GreedyTerms

/-- The procedure has only one outcome. -/
theorem unique (h : GreedyTerms plain w targets terms) (h' : GreedyTerms plain w targets terms') :
    terms = terms' := by
  obtain ⟨essential, picks, rfl, hessential, hpicks⟩ := h
  obtain ⟨essential', picks', rfl, hessential', hpicks'⟩ := h'
  obtain rfl := hessential.unique hessential'
  rw [hpicks.unique hpicks']

/-- A term that is not essential is a pick that follows all essential terms. -/
theorem exists_picks (h : GreedyTerms plain w targets terms) {before after : List Cube}
    (hsplit : terms = before ++ c :: after) (hc : ¬c.IsEssential w targets) :
    ∃ essential front, before = essential ++ front ∧ ListsEssentials plain w targets essential ∧
      GreedyPicks plain w targets essential (front ++ c :: after) := by
  obtain ⟨essential, picks, rfl, hessential, hpicks⟩ := h
  rcases List.append_eq_append_iff.1 hsplit with ⟨front, hfront, hrest⟩ | ⟨tail, hfront, hrest⟩
  · exact ⟨essential, front, hfront, hessential, hrest ▸ hpicks⟩
  · cases tail with
    | nil =>
      rw [List.append_nil] at hfront
      exact ⟨essential, [], by rw [List.append_nil, hfront], hessential, hrest.symm ▸ hpicks⟩
    | cons b tail =>
      -- The term would be one of the essential ones.
      obtain ⟨rfl, -⟩ := List.cons.inj hrest
      exact absurd ((hessential.mem_iff c).1 (hfront ▸ by simp)) hc

theorem covering (h : GreedyTerms plain w targets terms) : Covering terms targets := by
  obtain ⟨essential, picks, rfl, -, hpicks⟩ := h
  exact hpicks.covering

end GreedyTerms

/-! ### What each term adds -/

section NewRows

variable (hw : w ≤ 32) (hrows : ∀ row ∈ targets, row < 2 ^ w)

include hw hrows

/-- The widest prime covers a target that no term covers, as long as there is one. -/
theorem Cube.IsWidest.exists_new_row (hc : c.IsWidest plain w targets terms)
    (hopen : ¬Covering terms targets) :
    ∃ row ∈ targets, c.covers row = true ∧ ∀ d ∈ terms, ¬d.covers row = true := by
  obtain ⟨row, hrow, hnone⟩ := not_covering_iff.1 hopen
  obtain ⟨p, hp, hprow⟩ := exists_isPrime_covers hw (hrows row hrow) hrow
  have hpos : 0 < p.newRows targets terms := newRows_pos_iff.2 ⟨row, hrow, hprow, hnone⟩
  exact newRows_pos_iff.1 (hpos.trans_le (hc.newRows_le p hp))

/-- Every pick covers a target that no term before it covers. -/
theorem GreedyPicks.exists_new_row (h : GreedyPicks plain w targets terms picks)
    {before after : List Cube} (hsplit : picks = before ++ c :: after) :
    ∃ row ∈ targets, c.covers row = true ∧ ∀ d ∈ terms ++ before, ¬d.covers row = true := by
  induction h generalizing before with
  | done _ => simp at hsplit
  | pick hopen hfirst _ ih =>
    cases before with
    | nil =>
      obtain ⟨rfl, rfl⟩ := List.cons.inj hsplit
      rw [List.append_nil]
      exact hfirst.exists_new_row hw hrows hopen
    | cons b before =>
      obtain ⟨rfl, hlater⟩ := List.cons.inj hsplit
      have hnew := ih hlater
      rwa [List.append_assoc, List.singleton_append] at hnew

/-- What a pick newly covers is never all covered by one and the same later pick, since this one
would have been wider. -/
theorem GreedyPicks.exists_unshared_row (h : GreedyPicks plain w targets terms picks)
    {before between after : List Cube} (hsplit : picks = before ++ c :: (between ++ d :: after)) :
    ∃ row ∈ targets, c.covers row = true ∧ (∀ e ∈ terms ++ before, ¬e.covers row = true) ∧
      ¬d.covers row = true := by
  induction h generalizing before with
  | done _ => simp at hsplit
  | @pick terms picks b hopen hfirst hrest ih =>
    cases before with
    | nil =>
      obtain ⟨rfl, rfl⟩ := List.cons.inj hsplit
      rw [List.append_nil]
      by_contra hshared
      push Not at hshared
      have hall : b.sharedRows targets terms d = b.newRows targets terms := by
        refine List.countP_congr fun row hrow => ?_
        simp only [Bool.and_eq_true, Bool.not_eq_true', List.any_eq_false, and_iff_right_iff_imp]
        rintro ⟨hcov, hnone⟩
        exact hshared row hrow hcov hnone
      obtain ⟨row, hrow, hcov, hnone⟩ := hrest.exists_new_row hw hrows rfl
      have hmore : 0 < d.newRows targets (terms ++ [b]) := by
        refine Cube.newRows_pos_iff.2 ⟨row, hrow, hcov, fun e he => hnone e ?_⟩
        exact List.mem_append_left _ he
      have hsplit := Cube.newRows_concat targets terms b d
      have hle := hfirst.newRows_le d (hrest.isPrime d (by simp))
      omega
    | cons b' before =>
      obtain ⟨rfl, hlater⟩ := List.cons.inj hsplit
      have hnew := ih hlater
      rwa [List.append_assoc, List.singleton_append] at hnew

/-- No essential prime is picked. -/
theorem GreedyPicks.not_essential (h : GreedyPicks plain w targets terms picks)
    (hessential : ListsEssentials plain w targets terms) :
    ∀ c ∈ picks, ¬c.IsEssential w targets := by
  intro c hc hcessential
  obtain ⟨before, after, hsplit⟩ := List.append_of_mem hc
  obtain ⟨row, -, hcov, hnone⟩ := h.exists_new_row hw hrows hsplit
  exact hnone c (List.mem_append_left _ ((hessential.mem_iff c).2 hcessential)) hcov

/-- No prime is picked that has been emitted before. -/
theorem GreedyPicks.nodup (h : GreedyPicks plain w targets terms picks) (hterms : terms.Nodup) :
    (terms ++ picks).Nodup := by
  induction h with
  | done _ => rwa [List.append_nil]
  | @pick terms picks c hopen hc _ ih =>
    obtain ⟨row, -, hcov, hnone⟩ := hc.exists_new_row hw hrows hopen
    have hnew : c ∉ terms := fun hmem => hnone c hmem hcov
    rw [← List.singleton_append, ← List.append_assoc]
    exact ih (hterms.append (List.nodup_singleton c) (by simpa using hnew))

/-- Every term that is not essential covers a target that no term before it covers. -/
theorem GreedyTerms.exists_new_row (h : GreedyTerms plain w targets terms)
    {before after : List Cube} (hsplit : terms = before ++ c :: after)
    (hc : ¬c.IsEssential w targets) :
    ∃ row ∈ targets, c.covers row = true ∧ ∀ d ∈ before, ¬d.covers row = true := by
  obtain ⟨essential, front, rfl, -, hpicks⟩ := h.exists_picks hsplit hc
  exact hpicks.exists_new_row hw hrows rfl

/-- No term is emitted twice. -/
theorem GreedyTerms.nodup (h : GreedyTerms plain w targets terms) : terms.Nodup := by
  obtain ⟨essential, picks, rfl, hessential, hpicks⟩ := h
  exact hpicks.nodup hw hrows hessential.nodup

end NewRows

/-! ### What a selection emits -/

section Listed

variable (hprimes : ∀ c, c ∈ primes ↔ c.IsPrime w targets)

/-- When some of the targets are uncovered, what a cube gains is what it adds to the terms that
cover the others. -/
theorem Cube.gain_eq_newRows
    (hopen : uncovered.Perm (targets.filter fun row => !terms.any (·.covers row))) (c : Cube) :
    c.gain uncovered = c.newRows targets terms := by
  rw [gain, hopen.countP_eq, List.countP_filter, newRows]

include hprimes

/-- The first of the sorted primes with the greatest gain is the widest prime. -/
theorem Cube.isWidest_of_widest? (hnodup : primes.Nodup)
    (hopen : uncovered.Perm (targets.filter fun row => !terms.any (·.covers row)))
    (hc : widest? (sortByKey plain primes) uncovered = some c) :
    c.IsWidest plain w targets terms := by
  have hmem : ∀ d : Cube, d ∈ sortByKey plain primes ↔ d.IsPrime w targets :=
    fun d => mem_sortByKey.trans (hprimes d)
  refine ⟨(hmem c).1 (widest?_mem hc).1, fun d hd => ?_, fun d hd hne hsame => ?_⟩
  · rw [← gain_eq_newRows hopen, ← gain_eq_newRows hopen]
    exact gain_le_of_widest? hc ((hmem d).2 hd)
  · rw [← gain_eq_newRows hopen, ← gain_eq_newRows hopen] at hsame
    obtain ⟨before, after, hsplit, hbefore⟩ := widest?_eq_some_first hc
    have hsorted := pairwise_sorted_primes hprimes hnodup plain
    rw [hsplit, List.pairwise_append, List.pairwise_cons] at hsorted
    have hdmem := (hmem d).2 hd
    rw [hsplit, List.mem_append, List.mem_cons] at hdmem
    rcases hdmem with hd | rfl | hd
    · exact absurd hsame (hbefore d hd).ne
    · exact absurd rfl hne
    · exact hsorted.2.1.1 d hd

/-- A greedy cover takes the picks of the procedure. The rows still uncovered are the targets that
no term covers. -/
theorem greedyPicks_greedyCover (plain : Bool) (hnodup : primes.Nodup)
    (hcov : Covering primes targets)
    (hopen : uncovered.Perm (targets.filter fun row => !terms.any (·.covers row))) :
    GreedyPicks plain w targets terms
      ((greedyCover (Cube.sortByKey plain primes) uncovered).map Pick.cube) := by
  induction uncovered using Cube.remaining_induction (Cube.sortByKey plain primes)
    generalizing terms with
  | done uncovered hc =>
    rw [greedyCover_eq_nil hc]
    refine .done ?_
    by_contra hnot
    obtain ⟨row, hrow, hnone⟩ := not_covering_iff.1 hnot
    obtain ⟨p, hp, hprow⟩ := hcov row hrow
    have hzero := Cube.gain_eq_zero_of_widest? hc (Cube.mem_sortByKey.2 hp)
    rw [Cube.gain_eq_newRows hopen] at hzero
    have hpos := Cube.newRows_pos_iff.2 ⟨row, hrow, hprow, hnone⟩
    omega
  | pick uncovered c hc ih =>
    have hpos := (Cube.widest?_mem hc).2
    have hnext : (c.remaining uncovered).Perm
        (targets.filter fun row => !(terms ++ [c]).any (·.covers row)) := by
      refine (hopen.filter _).trans (List.Perm.of_eq ?_)
      rw [List.filter_filter]
      apply List.filter_congr
      intro row _
      simp [Bool.and_comm]
    rw [greedyCover_eq_cons hc]
    refine .pick (not_covering_iff.2 ?_) (Cube.isWidest_of_widest? hprimes hnodup hopen hc)
      (ih hnext)
    rw [Cube.gain_eq_newRows hopen] at hpos
    obtain ⟨row, hrow, -, hnone⟩ := Cube.newRows_pos_iff.1 hpos
    exact ⟨row, hrow, hnone⟩

/-- A greedy selection emits the terms of the procedure. -/
theorem greedyTerms_ofPrimes (plain : Bool) (hnodup : primes.Nodup)
    (hcov : Covering primes targets) :
    GreedyTerms plain w targets (Selection.ofPrimes primes targets plain .greedy).cubes := by
  refine ⟨_, _, rfl, listsEssentials_essentials hprimes hnodup plain, ?_⟩
  exact greedyPicks_greedyCover hprimes plain hnodup hcov (List.mergeSort_perm _ _)

end Listed

end TwoLevel
