import TwoLevel.Proofs.Minimize.Minimal
import TwoLevel.Proofs.Minimize.Procedures

/-!
# Greedy forms against exact forms

This file bounds how many terms the greedy procedure emits beyond the essential ones. Both
procedures start with the same essential primes and have the same rows left to cover. Each greedy
pick is charged to the primes of any other choice that covers these rows: a prime that still has `n`
new rows pays at least `1 / n` for each of them, since no prime has more new rows than the pick. All
that a prime pays is a harmonic number.

## Main definitions

- `Cube.openRows` — the number of targets that a cube covers and no essential prime does
- `reach` — the greatest such number of a prime
- `Form.extraCount` — the number of terms of a form that are not essential
- `Form.IsNear` — the bound

## Main statements

- `GreedyPicks.length_le_sum` — what other primes pay for the picks
- `greedy_near_exact` — the bound for both forms of a partition
-/

namespace TwoLevel

/-- The number of target rows that a cube covers and no essential prime does. -/
noncomputable def Cube.openRows (w : Nat) (targets : List Nat) (c : Cube) : Nat :=
  {row | row ∈ targets ∧ c.covers row = true ∧
    ∀ e : Cube, e.IsEssential w targets → ¬e.covers row = true}.ncard

/-- The largest number of target rows left uncovered by the essential primes that one prime covers;
zero if there is no prime. -/
noncomputable def reach (w : Nat) (targets : List Nat) : Nat :=
  sSup {n | ∃ c : Cube, c.IsPrime w targets ∧ c.openRows w targets = n}

open Classical in
/-- The number of terms of a form that are not essential for some target rows. -/
noncomputable def Form.extraCount (f : Form) (targets : List Nat) : Nat :=
  f.cubes.countP fun c => ¬c.IsEssential f.letters.size targets

/-- A greedy form has at most `1 + 1 / 2 + … + 1 / m` times as many terms that are not essential as
an exact one, where `m` is the largest number of rows left uncovered by the essential primes that
one prime covers; and it has none exactly if the exact one has none. -/
structure Form.IsNear (w : Nat) (targets : List Nat) (greedy exact : Form) : Prop where
  extraCount_le : (greedy.extraCount targets : ℚ) ≤
    harmonic (reach w targets) * exact.extraCount targets
  extraCount_eq_zero_iff : greedy.extraCount targets = 0 ↔ exact.extraCount targets = 0

variable {plain : Bool} {w : Nat} {targets : List Nat} {c d : Cube}
  {ds essential picks terms : List Cube}

/-! ### Harmonic numbers -/

/-- The last `k` summands of a harmonic number are at least `1 / b` if there are at most `b`. -/
theorem harmonic_add_div_le {n k b : Nat} (h : n + k ≤ b) :
    harmonic n + (k : ℚ) / b ≤ harmonic (n + k) := by
  induction k with
  | zero => simp
  | succ k ih =>
    have hlast : (1 : ℚ) / b ≤ ((n + k + 1 : Nat) : ℚ)⁻¹ := by
      rw [one_div]
      exact inv_anti₀ (by positivity) (by exact_mod_cast h)
    have hfirst := ih (by omega)
    rw [← Nat.add_assoc, harmonic_succ, Nat.cast_succ, add_div]
    linarith

theorem harmonic_mono {m n : Nat} (h : m ≤ n) : harmonic m ≤ harmonic n := by
  obtain ⟨k, rfl⟩ := Nat.exists_eq_add_of_le h
  have hle := harmonic_add_div_le (n := m) (k := k) le_rfl
  have hpos : (0 : ℚ) ≤ (k : ℚ) / (m + k : Nat) := by positivity
  linarith

/-! ### Charging the picks -/

/-- If some cubes cover all new rows of a cube, then together they share at least as many. -/
theorem newRows_le_sum_sharedRows (hcov : Covering (terms ++ ds) targets) (c : Cube) :
    c.newRows targets terms ≤ (ds.map fun d => c.sharedRows targets terms d).sum := by
  simp only [Cube.newRows, Cube.sharedRows]
  induction targets with
  | nil => simp
  | cons row rows ih =>
    obtain ⟨hrow, hrows⟩ := List.forall_mem_cons.1 hcov
    simp only [List.countP_cons, List.sum_map_add]
    refine Nat.add_le_add (ih hrows) ?_
    split
    · next hnew =>
      obtain ⟨d, hd, hdrow⟩ := hrow
      rw [Bool.and_eq_true, Bool.not_eq_true', List.any_eq_false] at hnew
      have hds : d ∈ ds :=
        (List.mem_append.1 hd).resolve_left fun hterm => hnew.2 d hterm hdrow
      refine le_trans ?_ (List.single_le_sum (fun _ _ => Nat.zero_le _) _
        (List.mem_map_of_mem hds))
      have hshared : (d.covers row && (c.covers row && !terms.any (·.covers row))) = true := by
        rw [hdrow, hnew.1, List.any_eq_false.2 hnew.2]
        rfl
      rw [if_pos hshared]
    · exact Nat.zero_le _

/-- What some cubes pay when a cube is emitted that has at least as many new rows as each of them. -/
theorem sum_harmonic_newRows_concat (hwide : ∀ d ∈ ds, d.newRows targets terms ≤
      c.newRows targets terms) :
    (ds.map fun d => harmonic (d.newRows targets (terms ++ [c]))).sum +
        ((ds.map fun d => c.sharedRows targets terms d).sum : ℚ) / c.newRows targets terms ≤
      (ds.map fun d => harmonic (d.newRows targets terms)).sum := by
  induction ds with
  | nil => simp
  | cons d ds ih =>
    obtain ⟨hd, hds⟩ := List.forall_mem_cons.1 hwide
    have hrest := ih hds
    rw [← Cube.newRows_concat targets terms c d] at hd
    have hpays := harmonic_add_div_le hd
    rw [Cube.newRows_concat] at hpays
    simp only [List.map_cons, List.sum_cons, Nat.cast_add, add_div]
    linarith

/-- The picks are no more than what the primes of any other choice pay for them that covers the
targets left open. -/
theorem GreedyPicks.length_le_sum (hw : w ≤ 32) (hrows : ∀ row ∈ targets, row < 2 ^ w)
    (h : GreedyPicks plain w targets terms picks) (hprimes : ∀ d ∈ ds, d.IsPrime w targets)
    (hcov : Covering (terms ++ ds) targets) :
    (picks.length : ℚ) ≤ (ds.map fun d => harmonic (d.newRows targets terms)).sum := by
  induction h with
  | done _ =>
    refine List.sum_nonneg fun x hx => ?_
    obtain ⟨d, -, rfl⟩ := List.mem_map.1 hx
    exact harmonic_mono (Nat.zero_le _)
  | @pick terms picks c hopen hc _ ih =>
    have hrest := ih fun row hrow => by
      obtain ⟨d, hd, hdrow⟩ := hcov row hrow
      refine ⟨d, ?_, hdrow⟩
      simp only [List.mem_append] at hd ⊢
      tauto
    have hpays := sum_harmonic_newRows_concat fun d hd => hc.newRows_le d (hprimes d hd)
    -- Together the other primes share all new rows of the pick, so they pay at least one for it.
    have hone : 1 ≤
        ((ds.map fun d => c.sharedRows targets terms d).sum : ℚ) / c.newRows targets terms := by
      have hpos : 0 < c.newRows targets terms :=
        Cube.newRows_pos_iff.2 (hc.exists_new_row hw hrows hopen)
      rw [one_le_div (by exact_mod_cast hpos)]
      exact_mod_cast newRows_le_sum_sharedRows hcov c
    rw [List.length_cons, Nat.cast_succ]
    linarith

/-! ### The rows left by the essential primes -/

/-- The rows that no essential prime covers are new after the essential terms. -/
theorem Cube.openRows_eq_newRows (hnodup : targets.Nodup)
    (hessential : ListsEssentials plain w targets essential) (c : Cube) :
    c.openRows w targets = c.newRows targets essential := by
  have hset : {row | row ∈ targets ∧ c.covers row = true ∧
      ∀ e : Cube, e.IsEssential w targets → ¬e.covers row = true} =
      ((targets.filter fun row => c.covers row && !essential.any (·.covers row)).toFinset :
        Set Nat) := by
    ext row
    simp only [Set.mem_ofPred_eq, List.coe_toFinset, List.mem_filter, Bool.and_eq_true,
      Bool.not_eq_true', List.any_eq_false, hessential.mem_iff]
  rw [openRows, hset, Set.ncard_coe_finset, List.toFinset_card_of_nodup (hnodup.filter _), newRows,
    List.countP_eq_length_filter]

/-- The reach is the greatest number of open rows of a prime. -/
theorem isGreatest_reach (hc : c.IsPrime w targets) :
    IsGreatest {n | ∃ d : Cube, d.IsPrime w targets ∧ d.openRows w targets = n}
      (reach w targets) := by
  have hbounded : BddAbove {n | ∃ d : Cube, d.IsPrime w targets ∧ d.openRows w targets = n} := by
    refine ⟨targets.toFinset.card, ?_⟩
    rintro n ⟨d, -, rfl⟩
    rw [← Set.ncard_coe_finset]
    exact Set.ncard_le_ncard (fun row hrow => by simpa using hrow.1) (Finset.finite_toSet _)
  exact ⟨Nat.sSup_mem ⟨_, c, hc, rfl⟩ hbounded, fun n hn => le_csSup hbounded hn⟩

/-- The picks after the essential primes against any other choice of primes for the rows left. -/
theorem GreedyPicks.length_le_mul (hw : w ≤ 32) (hrows : ∀ row ∈ targets, row < 2 ^ w)
    (hnodup : targets.Nodup) (hessential : ListsEssentials plain w targets essential)
    (h : GreedyPicks plain w targets essential picks) (hprimes : ∀ d ∈ ds, d.IsPrime w targets)
    (hcov : Covering (essential ++ ds) targets) :
    (picks.length : ℚ) ≤ harmonic (reach w targets) * ds.length := by
  have hle : ∀ x ∈ ds.map fun d => harmonic (d.newRows targets essential),
      x ≤ harmonic (reach w targets) := by
    intro x hx
    obtain ⟨d, hd, rfl⟩ := List.mem_map.1 hx
    rw [← Cube.openRows_eq_newRows hnodup hessential]
    exact harmonic_mono ((isGreatest_reach (hprimes d hd)).2 ⟨d, hprimes d hd, rfl⟩)
  have hsum := List.sum_le_card_nsmul _ _ hle
  rw [List.length_map, nsmul_eq_mul, mul_comm] at hsum
  exact (h.length_le_sum hw hrows hprimes hcov).trans hsum

/-! ### Forms -/

namespace Form

variable {s : Letters}

/-- The terms that are not essential are those behind the essential ones. -/
theorem extraCount_eq_length {f : Form} (hcubes : f.cubes = essential ++ ds)
    (hessential : ListsEssentials plain f.letters.size targets essential)
    (hds : ∀ c ∈ ds, ¬c.IsEssential f.letters.size targets) :
    f.extraCount targets = ds.length := by
  rw [extraCount, hcubes, List.countP_append, List.countP_eq_zero.2, List.countP_eq_length.2,
    Nat.zero_add]
  · intro c hc
    simpa using hds c hc
  · intro c hc
    simpa using (hessential.mem_iff c).1 hc

/-- The bound for the two forms of some targets. Constant forms have no terms; the other forms have
those that the procedures emit. -/
theorem isNear_ofTargets (hnodup : targets.Nodup) (hrows : ∀ row ∈ targets, row < 2 ^ s.size)
    (order : VisitOrder) (kind : FormKind) :
    IsNear s.size targets (ofTargets order .greedy kind s targets)
      (ofTargets order .exact kind s targets) := by
  by_cases hconst : targets = [] ∨ targets.length = 2 ^ s.size
  · have hnone : ∀ strategy, (ofTargets order strategy kind s targets).extraCount targets = 0 := by
      intro strategy
      rw [extraCount, cubes]
      rcases hconst with rfl | hlen
      · rw [body_ofTargets_nil, List.countP_nil]
      · rw [body_ofTargets_of_length hlen, List.countP_nil]
    exact ⟨by simp [hnone], by simp [hnone]⟩
  obtain ⟨hne, hlen⟩ := not_or.1 hconst
  have hw := s.size_le_word
  obtain ⟨essential, picks, hgreedy, hessential, hpicks⟩ :=
    greedyTerms_coverOf hrows order kind.plain
  obtain ⟨essential', completion, hexact, hessential', hleast⟩ :=
    exactTerms_coverOf hrows order kind.plain
  obtain rfl := hessential.unique hessential'
  rw [← cubes_ofTargets order .greedy kind hne hlen] at hgreedy
  rw [← cubes_ofTargets order .exact kind hne hlen] at hexact
  have hfirst := extraCount_eq_length hgreedy hessential (hpicks.not_essential hw hrows hessential)
  have hsecond := extraCount_eq_length hexact hessential hleast.not_essential
  constructor
  · rw [hfirst, hsecond]
    exact hpicks.length_le_mul hw hrows hnodup hessential hleast.isPrime
      (hleast.toIsCompletion.covering hessential)
  · rw [hfirst, hsecond, List.length_eq_zero_iff, List.length_eq_zero_iff, hpicks.eq_nil_iff,
      hleast.eq_nil_iff hessential]

end Form

/-- The greedy forms of a partition are near the exact ones. -/
theorem greedy_near_exact {s : Letters} {minterms maxterms : List Nat} (hsize : 0 < s.size)
    (hpart : IsPartition s minterms maxterms) (order : VisitOrder) :
    ∃ greedy exact, Minimized.ofPartitionIn order .greedy s minterms maxterms = .ok greedy ∧
      Minimized.ofPartitionIn order .exact s minterms maxterms = .ok exact ∧
      Form.IsNear s.size minterms greedy.sop exact.sop ∧
      Form.IsNear s.size maxterms greedy.pos exact.pos :=
  ⟨_, _, Minimized.ofPartitionIn_eq_ok hsize hpart order .greedy,
    Minimized.ofPartitionIn_eq_ok hsize hpart order .exact,
    Form.isNear_ofTargets hpart.nodup (fun _ => hpart.lt_of_mem) order .sumOfProducts,
    Form.isNear_ofTargets hpart.symm.nodup (fun _ => hpart.symm.lt_of_mem) order .productOfSums⟩

/-- A function of four letters for which the greedy sum has five terms and the exact one four. -/
theorem greedy_near_exact_five_terms :
    0 < (Letters.ofChars ['A', 'B', 'C', 'D']).size ∧
      IsPartition (.ofChars ['A', 'B', 'C', 'D']) [2, 3, 4, 5, 8, 9, 11, 12]
        [0, 1, 6, 7, 10, 13, 14, 15] ∧
      ∃ greedy exact, Minimized.ofPartitionIn .listed .greedy (.ofChars ['A', 'B', 'C', 'D'])
          [2, 3, 4, 5, 8, 9, 11, 12] [0, 1, 6, 7, 10, 13, 14, 15] = .ok greedy ∧
        Minimized.ofPartitionIn .listed .exact (.ofChars ['A', 'B', 'C', 'D'])
          [2, 3, 4, 5, 8, 9, 11, 12] [0, 1, 6, 7, 10, 13, 14, 15] = .ok exact ∧
        (greedy.sop.extraCount [2, 3, 4, 5, 8, 9, 11, 12] : ℚ) ≤
          harmonic (reach (Letters.ofChars ['A', 'B', 'C', 'D']).size [2, 3, 4, 5, 8, 9, 11, 12]) *
            exact.sop.extraCount [2, 3, 4, 5, 8, 9, 11, 12] := by
  have hpos : 0 < (Letters.ofChars ['A', 'B', 'C', 'D']).size := by decide
  have hpart : IsPartition (.ofChars ['A', 'B', 'C', 'D']) [2, 3, 4, 5, 8, 9, 11, 12]
      [0, 1, 6, 7, 10, 13, 14, 15] := by decide
  obtain ⟨greedy, exact, hgreedy, hexact, hnear, -⟩ := greedy_near_exact hpos hpart .listed
  exact ⟨hpos, hpart, greedy, exact, hgreedy, hexact, hnear.extraCount_le⟩

end TwoLevel
