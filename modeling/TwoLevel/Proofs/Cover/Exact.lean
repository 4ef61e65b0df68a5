import Mathlib
import TwoLevel.Cover.Exact
import TwoLevel.Proofs.Lists

/-!
# Exact covers are best covers

This file proves that the branch and bound search finds a best cover. Covers are compared by a rank,
the triple of terms, literals and keys, so that being better is a strict linear order on ranks. The
search never loses its best cover, and below a state it finds one that is not worse than any cover
that extends the cubes chosen there: a branch is given up only when every extension has more terms.

## Main definitions

- `Covering` — cubes that cover all of some rows
- `Solution.rank` — what covers are compared by
- `Solution.IsBest` — a cover than which no other is better

## Main statements

- `uncovered_induction` — the search followed by one choice at a time
- `exactSearch_beats` — what the search finds below a state
- `exactImprovements_isBest` — the last improvement is a best cover
-/

namespace TwoLevel

/-- Every one of the rows is covered by one of the cubes. -/
def Covering (cubes : List Cube) (rows : List Nat) : Prop :=
  ∀ row ∈ rows, ∃ c ∈ cubes, c.covers row = true

namespace Solution

/-- What covers are compared by: the number of terms, then that of literals, then the keys. -/
def rank (plain : Bool) (s : Solution) : Nat ×ₗ Nat ×ₗ List (List Nat) :=
  toLex (s.terms, toLex (s.literals, s.keys plain))

/-- A cover of some rows by cubes of a list, in the order of the list, than which no other such
cover is better. -/
structure IsBest (plain : Bool) (cubes : List Cube) (rows : List Nat) (s : Solution) : Prop where
  sublist : s.cubes.Sublist cubes
  covering : Covering s.cubes rows
  rank_le : ∀ t : Solution, t.cubes.Sublist cubes → Covering t.cubes rows →
    s.rank plain ≤ t.rank plain

variable {plain : Bool} {s t : Solution}

theorem better_iff : s.better plain t = true ↔ s.rank plain < t.rank plain := by
  simp only [better, rank, Prod.Lex.toLex_lt_toLex, Bool.or_eq_true, Bool.and_eq_true,
    decide_eq_true_eq]

theorem rank_lt_of_terms_lt (h : s.terms < t.terms) : s.rank plain < t.rank plain :=
  Prod.Lex.toLex_lt_toLex.2 (.inl h)

/-- A part of a cover is not worse than the whole. -/
theorem rank_le_of_sublist (h : s.cubes.Sublist t.cubes) : s.rank plain ≤ t.rank plain := by
  rcases Nat.eq_or_lt_of_le h.length_le with heq | hlt
  · have hst : s = t := by
      cases s
      cases t
      exact congrArg mk (h.eq_of_length heq)
    exact hst ▸ le_rfl
  · exact (rank_lt_of_terms_lt hlt).le

/-- Covers of the same rank are equal if no two of their cubes have the same key. -/
theorem eq_of_rank_eq
    (hinj : ∀ c ∈ s.cubes, ∀ d ∈ t.cubes, c.orderKey plain = d.orderKey plain → c = d)
    (hrank : s.rank plain = t.rank plain) : s = t := by
  have hkeys : s.cubes.map (Cube.orderKey plain) = t.cubes.map (Cube.orderKey plain) := by
    simp only [rank, toLex_inj, Prod.mk.injEq] at hrank
    exact hrank.2.2
  have hcubes : s.cubes = t.cubes := eq_of_map_eq_map hinj hkeys
  show Solution.mk s.cubes = Solution.mk t.cubes
  rw [hcubes]

/-- There is only one best cover if no two cubes have the same key. -/
theorem IsBest.eq {cubes : List Cube} {rows : List Nat} (hs : s.IsBest plain cubes rows)
    (ht : t.IsBest plain cubes rows)
    (hinj : ∀ c ∈ cubes, ∀ d ∈ cubes, c.orderKey plain = d.orderKey plain → c = d) : s = t := by
  refine eq_of_rank_eq (fun c hc d hd => ?_) (le_antisymm (hs.rank_le t ht.sublist ht.covering)
    (ht.rank_le s hs.sublist hs.covering))
  exact hinj c (hs.sublist.subset hc) d (ht.sublist.subset hd)

end Solution

/-- The best of the covers found so far is not worse than a given cover. -/
def Beats (plain : Bool) (found : List Solution) (t : Solution) : Prop :=
  ∃ s, found.head? = some s ∧ s.rank plain ≤ t.rank plain

variable {plain : Bool} {cubes chosen : List Cube} {uncovered rows : List Nat}
  {found : List Solution} {s t : Solution} {row : Nat}

/-! ### One step of the search -/

/-- What every trial of a cube preserves, the search below a row preserves. -/
theorem exactSearch_induction (P : List Solution → Prop) {rest : List Nat}
    (hstep : ∀ c ∈ cubes, c.covers row = true → ∀ found, P found →
      P (exactSearch plain cubes ((row :: rest).filter fun r => !c.covers r) (c :: chosen) found))
    (hfound : P found) : P (exactSearch plain cubes (row :: rest) chosen found) := by
  rw [exactSearch_cons]
  split
  · exact hfound
  · have hcandidates : ∀ c ∈ cubes.filter (·.covers row), c ∈ cubes ∧ c.covers row = true :=
      fun c hc => List.mem_filter.1 hc
    generalize cubes.filter (·.covers row) = candidates at hcandidates
    clear * - hstep hfound hcandidates
    induction candidates generalizing found with
    | nil => exact hfound
    | cons c cs ih =>
      obtain ⟨hmem, hcov⟩ := hcandidates c List.mem_cons_self
      refine ih (hstep c hmem hcov found hfound) fun d hd => ?_
      exact hcandidates d (List.mem_cons_of_mem _ hd)

theorem length_filter_lt_of_covers {c : Cube} {rest : List Nat} (hcov : c.covers row = true) :
    ((row :: rest).filter fun r => !c.covers r).length < (row :: rest).length := by
  rw [List.length_filter_lt_length_iff_exists]
  exact ⟨row, List.mem_cons_self, by simp [hcov]⟩

/-- The search ends, so it is enough to follow it by one choice at a time. -/
@[elab_as_elim]
theorem uncovered_induction {motive : List Nat → Prop} (nil : motive [])
    (cons : ∀ row rest, (∀ c : Cube, c.covers row = true →
      motive ((row :: rest).filter fun r => !c.covers r)) → motive (row :: rest))
    (uncovered : List Nat) : motive uncovered := by
  induction hn : uncovered.length using Nat.strong_induction_on generalizing uncovered with
  | _ n ih =>
    cases uncovered with
    | nil => exact nil
    | cons row rest =>
      exact cons row rest fun c hcov => ih _ (hn ▸ length_filter_lt_of_covers hcov) _ rfl

/-- The rows that no chosen cube covers remain so described when a cube is chosen. -/
theorem filter_remaining {c : Cube}
    (h : uncovered = rows.filter fun r => !chosen.any (·.covers r)) :
    (uncovered.filter fun r => !c.covers r) =
      rows.filter fun r => !(c :: chosen).any (·.covers r) := by
  rw [h, List.filter_filter]
  apply List.filter_congr
  intro r _
  rw [List.any_cons, Bool.not_or]

/-- A cover that contains the chosen cubes has a further cube at a row that these do not cover. -/
theorem exists_unchosen (hcovering : Covering t.cubes rows)
    (hrow : row ∈ rows.filter fun r => !chosen.any (·.covers r)) :
    ∃ c ∈ t.cubes, c.covers row = true ∧ c ∉ chosen := by
  obtain ⟨hmem, hnew⟩ := List.mem_filter.1 hrow
  obtain ⟨c, hc, hcov⟩ := hcovering row hmem
  refine ⟨c, hc, hcov, fun hchosen => ?_⟩
  rw [Bool.not_eq_true', List.any_eq_false] at hnew
  exact hnew c hchosen hcov

/-- The chosen cubes alone are not worse than a cover that contains them. -/
theorem rank_filter_le (plain : Bool) (hnodup : cubes.Nodup) (ht : t.cubes.Sublist cubes)
    (hsubset : chosen ⊆ t.cubes) :
    (Solution.mk (cubes.filter chosen.contains)).rank plain ≤ t.rank plain := by
  have hself : t.cubes = cubes.filter t.cubes.contains := eq_filter_of_sublist hnodup ht
  refine Solution.rank_le_of_sublist ?_
  rw [hself]
  refine List.monotone_filter_right _ fun c hc => ?_
  simp only [List.contains_iff_mem] at hc ⊢
  exact hsubset hc

/-! ### The search as a whole -/

/-- The search never loses a cover that is as good as a given one. -/
theorem Beats.exactSearch (h : Beats plain found t) :
    Beats plain (exactSearch plain cubes uncovered chosen found) t := by
  induction uncovered using uncovered_induction generalizing chosen found with
  | nil =>
    rw [exactSearch_nil]
    obtain ⟨s, hs, hle⟩ := h
    rw [hs, Option.all_some]
    split
    · next hbetter => exact ⟨_, rfl, (Solution.better_iff.1 hbetter).le.trans hle⟩
    · exact ⟨s, hs, hle⟩
  | cons row rest ih =>
    refine exactSearch_induction (Beats plain · t) (fun c _ hcov found hfound => ?_) h
    exact ih c hcov hfound

theorem foldl_beats {f : List Solution → Cube → List Solution} {candidates : List Cube}
    (hstep : ∀ c found, Beats plain found t → Beats plain (f found c) t)
    (h : Beats plain found t) : Beats plain (candidates.foldl f found) t := by
  induction candidates generalizing found with
  | nil => exact h
  | cons c cs ih => exact ih (hstep c found h)

/-- All covers that the search finds are made of its cubes and cover its rows. The rows still
uncovered are those that no chosen cube covers. -/
theorem exactSearch_sound (plain : Bool) (found : List Solution) (hchosen : chosen ⊆ cubes)
    (huncovered : uncovered = rows.filter fun r => !chosen.any (·.covers r))
    (hfound : ∀ s ∈ found, s.cubes.Sublist cubes ∧ Covering s.cubes rows) :
    ∀ s ∈ exactSearch plain cubes uncovered chosen found,
      s.cubes.Sublist cubes ∧ Covering s.cubes rows := by
  induction uncovered using uncovered_induction generalizing chosen found with
  | nil =>
    rw [exactSearch_nil]
    split
    · intro s hs
      rcases List.mem_cons.1 hs with rfl | hs
      · refine ⟨List.filter_sublist, fun row hrow => ?_⟩
        have hcov := List.filter_eq_nil_iff.1 huncovered.symm row hrow
        rw [Bool.not_eq_true, Bool.not_eq_false', List.any_eq_true] at hcov
        obtain ⟨c, hc, hcrow⟩ := hcov
        exact ⟨c, List.mem_filter.2 ⟨hchosen hc, by simpa using hc⟩, hcrow⟩
      · exact hfound s hs
    · exact hfound
  | cons row rest ih =>
    refine exactSearch_induction
      (fun found => ∀ s ∈ found, s.cubes.Sublist cubes ∧ Covering s.cubes rows)
      (fun c hmem hcov found hfound => ?_) hfound
    refine ih c hcov found ?_ ?_ hfound
    · exact List.cons_subset.2 ⟨hmem, hchosen⟩
    · exact filter_remaining huncovered

/-- Below a state the search finds a cover that is not worse than any cover that contains the
cubes chosen there. -/
theorem exactSearch_beats (plain : Bool) (found : List Solution) (hnodup : cubes.Nodup)
    (ht : t.cubes.Sublist cubes) (hcovering : Covering t.cubes rows) (hchosen : chosen.Nodup)
    (hsubset : chosen ⊆ t.cubes)
    (huncovered : uncovered = rows.filter fun r => !chosen.any (·.covers r)) :
    Beats plain (exactSearch plain cubes uncovered chosen found) t := by
  induction uncovered using uncovered_induction generalizing chosen found with
  | nil =>
    -- The chosen cubes are a cover, and the search keeps it or one that is not worse.
    have hle := rank_filter_le plain hnodup ht hsubset
    rw [exactSearch_nil]
    split
    · exact ⟨_, rfl, hle⟩
    · next hworse =>
      cases hhead : found.head? with
      | none => simp [hhead] at hworse
      | some s =>
        rw [hhead, Option.all_some, Solution.better_iff, not_lt] at hworse
        exact ⟨s, hhead, hworse.trans hle⟩
  | cons row rest ih =>
    have hrow : row ∈ rows.filter fun r => !chosen.any (·.covers r) :=
      huncovered ▸ List.mem_cons_self
    obtain ⟨c, hc, hcov, hnew⟩ := exists_unchosen hcovering hrow
    have hnodup' : (c :: chosen).Nodup := List.nodup_cons.2 ⟨hnew, hchosen⟩
    have hsubset' : c :: chosen ⊆ t.cubes := List.cons_subset.2 ⟨hc, hsubset⟩
    have hlong : chosen.length < t.terms :=
      (hnodup'.subperm hsubset').length_le
    rw [exactSearch_cons]
    split
    · next hprune =>
      -- Every cover below has more terms than are chosen, so more than the best one before.
      rw [Option.any_eq_true_iff_get] at hprune
      obtain ⟨hsome, hterms⟩ := hprune
      refine ⟨_, (Option.some_get hsome).symm, (Solution.rank_lt_of_terms_lt ?_).le⟩
      exact lt_of_le_of_lt (of_decide_eq_true hterms) hlong
    · -- The trial of `c` finds a cover that is good enough, and later trials do not lose it.
      have hcandidate : c ∈ cubes.filter (·.covers row) :=
        List.mem_filter.2 ⟨ht.subset hc, hcov⟩
      obtain ⟨before, after, hsplit⟩ := List.append_of_mem hcandidate
      rw [hsplit, List.foldl_append, List.foldl_cons]
      refine foldl_beats (fun d found hfound => hfound.exactSearch) ?_
      exact ih c hcov _ hnodup' hsubset' (filter_remaining huncovered)

/-- The last improvement is a best cover, if there is a cover at all. -/
theorem exactImprovements_isBest (plain : Bool) (hnodup : cubes.Nodup)
    (hcovering : Covering cubes rows) :
    ∃ s, (exactImprovements plain cubes rows).getLast? = some s ∧ s.IsBest plain cubes rows := by
  have hnodup' : (cubes.filter fun c => rows.any c.covers).Nodup := hnodup.filter _
  have hstart : rows = rows.filter fun r => !([] : List Cube).any (·.covers r) := by simp
  -- Cubes that cover none of the rows can be left out of any cover.
  have huseful : ∀ t : Solution, t.cubes.Sublist cubes → Covering t.cubes rows →
      Beats plain (exactSearch plain (cubes.filter fun c => rows.any c.covers) rows [] []) t := by
    intro t ht hcov
    have hsub : (t.cubes.filter fun c => rows.any c.covers).Sublist
        (cubes.filter fun c => rows.any c.covers) := ht.filter _
    have hcov' : Covering (t.cubes.filter fun c => rows.any c.covers) rows := by
      intro row hrow
      obtain ⟨c, hc, hcrow⟩ := hcov row hrow
      exact ⟨c, List.mem_filter.2 ⟨hc, List.any_eq_true.2 ⟨row, hrow, hcrow⟩⟩, hcrow⟩
    obtain ⟨s, hs, hle⟩ := exactSearch_beats plain [] hnodup' (t := ⟨_⟩) hsub hcov'
      List.nodup_nil (List.nil_subset _) hstart
    exact ⟨s, hs, hle.trans (Solution.rank_le_of_sublist List.filter_sublist)⟩
  obtain ⟨s, hs, -⟩ := huseful ⟨cubes⟩ (List.Sublist.refl _) hcovering
  have hsound := exactSearch_sound plain [] (List.nil_subset _) hstart (by simp) s
    (List.mem_of_mem_head? hs)
  refine ⟨s, by rw [exactImprovements, List.getLast?_reverse, hs], ?_, hsound.2, ?_⟩
  · exact hsound.1.trans List.filter_sublist
  · intro t ht hcov
    obtain ⟨s', hs', hle⟩ := huseful t ht hcov
    rw [hs, Option.some.injEq] at hs'
    exact hs' ▸ hle

end TwoLevel
