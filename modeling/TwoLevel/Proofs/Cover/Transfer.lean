import TwoLevel.Proofs.Cover.Selection

/-!
# Selections under a map of cubes

This file compares the selections of terms for two sets of rows, one of which lies above the other:
every row has the same number of rows above it. If the primes of the upper rows are the images of
those of the lower ones, and the map keeps literals and the order of keys, the selections correspond
term by term. All gains of a greedy cover are multiplied by the same number; an exact cover is
determined by its property of being best.

## Main definitions

- `LiesAbove` — a list of rows above another, the same number of times everywhere
- `Cube.Lifts` — a map of cubes that agrees with the rows

## Main statements

- `greedyCover_map`, `Solution.IsBest.map` — greedy and exact covers of the upper rows
- `Selection.cubes_map` — selections correspond
-/

namespace TwoLevel

/-- Each of the lower rows is the image of the same number of upper rows. -/
def LiesAbove (π : Nat → Nat) (k : Nat) (upper lower : List Nat) : Prop :=
  (upper.map π).Perm (lower.flatMap (List.replicate k))

namespace LiesAbove

variable {π : Nat → Nat} {k : Nat} {upper lower : List Nat}

theorem exists_of_mem (h : LiesAbove π k upper lower) (hk : 0 < k) {row : Nat}
    (hrow : row ∈ lower) : ∃ r ∈ upper, π r = row := by
  rw [← List.mem_map, h.mem_iff, List.mem_flatMap]
  exact ⟨row, hrow, List.mem_replicate.2 ⟨hk.ne', rfl⟩⟩

theorem mem_of_mem (h : LiesAbove π k upper lower) {r : Nat} (hr : r ∈ upper) : π r ∈ lower := by
  have hmem : π r ∈ lower.flatMap (List.replicate k) := h.mem_iff.1 (List.mem_map_of_mem hr)
  obtain ⟨row, hrow, heq⟩ := List.mem_flatMap.1 hmem
  rwa [(List.mem_replicate.1 heq).2]

theorem filter {p q : Nat → Bool} (h : LiesAbove π k upper lower)
    (hpq : ∀ r ∈ upper, p r = q (π r)) : LiesAbove π k (upper.filter p) (lower.filter q) := by
  have hupper : (upper.filter p).map π = (upper.map π).filter q := by
    rw [List.filter_map, List.filter_congr hpq]
    rfl
  have hlower : (lower.filter q).flatMap (List.replicate k) =
      (lower.flatMap (List.replicate k)).filter q := by
    clear h hupper
    induction lower with
    | nil => rfl
    | cons row rows ih =>
      rw [List.flatMap_cons, List.filter_append, List.filter_replicate, ← ih]
      by_cases hq : q row = true
      · rw [List.filter_cons_of_pos hq, List.flatMap_cons, if_pos hq]
      · rw [List.filter_cons_of_neg hq, if_neg hq, List.nil_append]
  rw [LiesAbove, hupper, hlower]
  exact List.Perm.filter q h

theorem countP {p q : Nat → Bool} (h : LiesAbove π k upper lower)
    (hpq : ∀ r ∈ upper, p r = q (π r)) : upper.countP p = k * lower.countP q := by
  have hlength := (h.filter hpq).length_eq
  rw [List.length_map, List.length_flatMap] at hlength
  rw [List.countP_eq_length_filter, List.countP_eq_length_filter, hlength]
  simp [Nat.mul_comm]

theorem mergeSort (h : LiesAbove π k upper lower) :
    LiesAbove π k upper.mergeSort lower.mergeSort := by
  have hupper := (List.mergeSort_perm upper (· ≤ ·)).map π
  have hlower := (List.mergeSort_perm lower (· ≤ ·)).flatMap_right (List.replicate k)
  exact (hupper.trans h).trans hlower.symm

end LiesAbove

namespace Cube

/-- A map of cubes that agrees with a map of rows and keeps literals and the order of keys. -/
structure Lifts (φ : Cube → Cube) (π : Nat → Nat) (plain plain' : Bool) (cubes : List Cube)
    (upper : List Nat) : Prop where
  covers_eq : ∀ c ∈ cubes, ∀ r ∈ upper, (φ c).covers r = c.covers (π r)
  literalCount_eq : ∀ c ∈ cubes, (φ c).literalCount = c.literalCount
  orderKey_lt : ∀ c ∈ cubes, ∀ d ∈ cubes,
    (φ c).orderKey plain' < (φ d).orderKey plain' ↔ c.orderKey plain < d.orderKey plain

end Cube

variable {φ : Cube → Cube} {π : Nat → Nat} {k : Nat} {plain plain' : Bool} {cubes : List Cube}
  {upper lower : List Nat}

namespace Cube.Lifts

theorem mono {cubes' : List Cube} {upper' : List Nat} (h : Lifts φ π plain plain' cubes upper)
    (hcubes : cubes' ⊆ cubes) (hrows : upper' ⊆ upper) :
    Lifts φ π plain plain' cubes' upper' where
  covers_eq c hc r hr := h.covers_eq c (hcubes hc) r (hrows hr)
  literalCount_eq c hc := h.literalCount_eq c (hcubes hc)
  orderKey_lt c hc d hd := h.orderKey_lt c (hcubes hc) d (hcubes hd)

/-- The images of cubes that cover the lower rows cover the upper rows. -/
theorem covering_map (h : Lifts φ π plain plain' cubes upper)
    (hrows : LiesAbove π k upper lower) (hcov : Covering cubes lower) :
    Covering (cubes.map φ) upper := by
  intro r hr
  obtain ⟨c, hc, hcrow⟩ := hcov _ (hrows.mem_of_mem hr)
  exact ⟨φ c, List.mem_map_of_mem hc, by rwa [h.covers_eq c hc r hr]⟩

end Cube.Lifts

/-! ### Greedy covers -/

/-- Multiplying all gains by the same number does not change which cube is widest. -/
theorem Cube.widest?_map (hk : 0 < k)
    (hgain : ∀ c ∈ cubes, (φ c).gain upper = k * c.gain lower) :
    widest? (cubes.map φ) upper = (widest? cubes lower).map φ := by
  -- The scans keep corresponding offers, of which one has `k` times as many rows as the other.
  have hscan : ∀ start start' : Option Offer,
      start'.map Offer.cube = (start.map Offer.cube).map φ →
      start'.elim 0 (·.rows.length) = k * start.elim 0 (·.rows.length) →
      (((cubes.map φ).map (Offer.ofCube upper)).foldl Offer.better start').map Offer.cube =
        (((cubes.map (Offer.ofCube lower)).foldl Offer.better start).map Offer.cube).map φ := by
    induction cubes with
    | nil => exact fun start start' hcube _ => hcube
    | cons c cs ih =>
      intro start start' hcube hlength
      refine ih (fun d hd => hgain d (List.mem_cons_of_mem _ hd)) _ _ ?_ ?_
      all_goals
        rw [Offer.better, Offer.better, Offer.length_rows_ofCube, Offer.length_rows_ofCube,
          hgain c List.mem_cons_self, hlength]
        simp only [Nat.mul_lt_mul_left hk]
        split
      · rfl
      · exact hcube
      · rw [Option.elim_some, Option.elim_some, Offer.length_rows_ofCube, Offer.length_rows_ofCube,
          hgain c List.mem_cons_self]
      · exact hlength
  exact hscan none none rfl (Nat.mul_zero k).symm

/-- A greedy cover of the upper rows takes the images of the cubes that a greedy cover of the lower
rows takes. -/
theorem greedyCover_map (hk : 0 < k) (hrows : LiesAbove π k upper lower)
    (hcovers : ∀ c ∈ cubes, ∀ r ∈ upper, (φ c).covers r = c.covers (π r)) :
    (greedyCover (cubes.map φ) upper).map Pick.cube =
      ((greedyCover cubes lower).map Pick.cube).map φ := by
  induction lower using Cube.remaining_induction cubes generalizing upper with
  | done lower hc =>
    have hwidest := Cube.widest?_map hk fun c hc => hrows.countP (hcovers c hc)
    rw [hc, Option.map_none] at hwidest
    rw [greedyCover_eq_nil hc, greedyCover_eq_nil hwidest]
    rfl
  | pick lower c hc ih =>
    -- The first picks correspond, and the rows that they leave lie above each other again.
    have hwidest := Cube.widest?_map hk fun c hc => hrows.countP (hcovers c hc)
    rw [hc, Option.map_some] at hwidest
    have hrest : LiesAbove π k ((φ c).remaining upper) (c.remaining lower) :=
      hrows.filter fun r hr => by rw [hcovers c (Cube.widest?_mem hc).1 r hr]
    have htail := ih hrest fun d hd r hr => hcovers d hd r (List.mem_of_mem_filter hr)
    rw [greedyCover_eq_cons hc, greedyCover_eq_cons hwidest, List.map_cons, List.map_cons,
      List.map_cons, htail]

/-! ### Exact covers -/

namespace Solution

variable {s t : Solution}

/-- Which of two covers is better does not change under the map. -/
theorem better_map (h : Cube.Lifts φ π plain plain' cubes upper) (hs : s.cubes ⊆ cubes)
    (ht : t.cubes ⊆ cubes) :
    (Solution.mk (s.cubes.map φ)).better plain' ⟨t.cubes.map φ⟩ = s.better plain t := by
  have hliterals : ∀ u : Solution, u.cubes ⊆ cubes →
      (Solution.mk (u.cubes.map φ)).literals = u.literals := by
    intro u hu
    rw [literals, literals, Cube.literalTotal_eq_sum, Cube.literalTotal_eq_sum, List.map_map]
    congr 1
    exact List.map_congr_left fun c hc => h.literalCount_eq c (hu hc)
  have hkeys :
      (Solution.mk (s.cubes.map φ)).keys plain' < (Solution.mk (t.cubes.map φ)).keys plain' ↔
      s.keys plain < t.keys plain := by
    rw [keys, keys, keys, keys, List.map_map, List.map_map]
    exact map_lt_map_iff (fun c hc d hd => h.orderKey_lt c (hs hc) d (ht hd))
      fun c hc d hd => h.orderKey_lt d (ht hd) c (hs hc)
  rw [better, better, hliterals s hs, hliterals t ht, terms, terms, List.length_map,
    List.length_map, decide_eq_decide.2 hkeys]
  rfl

/-- The image of a best cover of the lower rows is a best cover of the upper rows. -/
theorem IsBest.map (h : Cube.Lifts φ π plain plain' cubes upper) (hk : 0 < k)
    (hrows : LiesAbove π k upper lower) (hs : s.IsBest plain cubes lower) :
    (Solution.mk (s.cubes.map φ)).IsBest plain' (cubes.map φ) upper := by
  refine ⟨hs.sublist.map φ, ?_, fun t ht hcov => ?_⟩
  · exact (h.mono hs.sublist.subset (List.Subset.refl _)).covering_map hrows hs.covering
  · -- A cover of the upper rows by images is the image of a cover of the lower rows.
    obtain ⟨us, hus, htus⟩ := List.sublist_map_iff.1 ht
    obtain rfl : t = ⟨us.map φ⟩ := by
      cases t
      exact congrArg Solution.mk htus
    have hcov' : Covering us lower := by
      intro row hrow
      obtain ⟨r, hr, rfl⟩ := hrows.exists_of_mem hk hrow
      obtain ⟨d, hd, hdrow⟩ := hcov r hr
      obtain ⟨c, hc, rfl⟩ := List.mem_map.1 hd
      exact ⟨c, hc, by rwa [← h.covers_eq c (hus.subset hc) r hr]⟩
    have hle := hs.rank_le ⟨us⟩ hus hcov'
    rw [← not_lt, ← better_iff] at hle ⊢
    rwa [better_map (s := ⟨us⟩) h hus.subset hs.sublist.subset]

end Solution

/-! ### Selections -/

namespace Cube

variable {primes primes' : List Cube} {w w' : Nat}

theorem Lifts.injOn (h : Lifts φ π plain plain' cubes upper) (hfits : ∀ c ∈ cubes, c.Fits w) :
    ∀ c ∈ cubes, ∀ d ∈ cubes, φ c = φ d → c = d := by
  intro c hc d hd heq
  have hkey : c.orderKey plain = d.orderKey plain := by
    apply le_antisymm
    · rw [← not_lt, ← h.orderKey_lt d hd c hc, heq]
      exact lt_irrefl _
    · rw [← not_lt, ← h.orderKey_lt c hc d hd, heq]
      exact lt_irrefl _
  exact (hfits c hc).eq_of_orderKey_eq (hfits d hd) hkey

/-- The images of the lower primes, in order, are the upper primes in order. -/
theorem sortByKey_map (h : Lifts φ π plain plain' primes upper) (hfits : ∀ c ∈ primes, c.Fits w)
    (hfits' : ∀ c ∈ primes', c.Fits w') (hnodup : primes.Nodup) (hnodup' : primes'.Nodup)
    (hmem : ∀ d, d ∈ primes' ↔ ∃ c ∈ primes, φ c = d) :
    sortByKey plain' primes' = (sortByKey plain primes).map φ := by
  refine eq_of_pairwise_lt (f := orderKey plain') (pairwise_sortByKey hfits' hnodup') ?_ ?_
  · rw [List.pairwise_map]
    refine (pairwise_sortByKey hfits hnodup).imp_of_mem fun {c d} hc hd hlt => ?_
    exact (h.orderKey_lt c (mem_sortByKey.1 hc) d (mem_sortByKey.1 hd)).2 hlt
  · intro d
    rw [mem_sortByKey, hmem, List.mem_map]
    simp only [mem_sortByKey]

/-- A cube is essential for the lower rows exactly if its image is for the upper rows. -/
theorem essentials_map (hk : 0 < k) (hrows : LiesAbove π k upper lower)
    (h : Lifts φ π plain plain' cubes upper) (hinj : ∀ c ∈ cubes, ∀ d ∈ cubes, φ c = φ d → c = d) :
    essentials (cubes.map φ) upper = (essentials cubes lower).map φ := by
  have howners : ∀ r ∈ upper,
      (cubes.map φ).filter (·.covers r) = (cubes.filter (·.covers (π r))).map φ := by
    intro r hr
    rw [List.filter_map]
    congr 1
    exact List.filter_congr fun c hc => h.covers_eq c hc r hr
  rw [essentials, List.filter_map, essentials]
  congr 1
  apply List.filter_congr
  intro c hc
  rw [Bool.eq_iff_iff, Function.comp_apply, List.contains_iff_mem, List.contains_iff_mem,
    List.mem_filterMap, List.mem_filterMap]
  simp only [soleOwner?_eq_some]
  constructor
  · rintro ⟨r, hr, hsole⟩
    refine ⟨π r, hrows.mem_of_mem hr, ?_⟩
    rw [howners r hr, List.map_eq_singleton_iff] at hsole
    obtain ⟨d, hd, heq⟩ := hsole
    have hdmem : d ∈ cubes := List.mem_of_mem_filter (hd ▸ List.mem_singleton_self d)
    rw [hd, hinj d hdmem c hc heq]
  · rintro ⟨row, hrow, hsole⟩
    obtain ⟨r, hr, rfl⟩ := hrows.exists_of_mem hk hrow
    exact ⟨r, hr, by rw [howners r hr, hsole, List.map_singleton]⟩

/-- The upper rows that are left uncovered lie above the lower ones. -/
theorem liesAbove_uncoveredRows (hrows : LiesAbove π k upper lower)
    (hcovers : ∀ c ∈ cubes, ∀ r ∈ upper, (φ c).covers r = c.covers (π r)) :
    LiesAbove π k (uncoveredRows (cubes.map φ) upper) (uncoveredRows cubes lower) := by
  refine (hrows.filter fun r hr => ?_).mergeSort
  rw [List.any_map]
  congr 1
  rw [Bool.eq_iff_iff, List.any_eq_true, List.any_eq_true]
  refine exists_congr fun c => and_congr_right fun hc => ?_
  rw [Function.comp_apply, hcovers c hc r hr]

end Cube

/-- The selection for the upper rows consists of the images of the cubes that are selected for the
lower rows, in the same order. -/
theorem Selection.cubes_map {primes primes' : List Cube} {w w' : Nat} (hk : 0 < k)
    (hrows : LiesAbove π k upper lower) (h : Cube.Lifts φ π plain plain' primes upper)
    (hfits : ∀ c ∈ primes, c.Fits w) (hfits' : ∀ c ∈ primes', c.Fits w') (hnodup : primes.Nodup)
    (hnodup' : primes'.Nodup) (hmem : ∀ d, d ∈ primes' ↔ ∃ c ∈ primes, φ c = d)
    (hcov : Covering primes lower) (strategy : Strategy) :
    (ofPrimes primes' upper plain' strategy).cubes =
      (ofPrimes primes lower plain strategy).cubes.map φ := by
  let sorted := Cube.sortByKey plain primes
  have hsorted : Cube.sortByKey plain' primes' = sorted.map φ :=
    Cube.sortByKey_map h hfits hfits' hnodup hnodup' hmem
  have hlifts : Cube.Lifts φ π plain plain' sorted upper :=
    h.mono (fun c hc => Cube.mem_sortByKey.1 hc) (List.Subset.refl _)
  have hinj : ∀ c ∈ sorted, ∀ d ∈ sorted, φ c = φ d → c = d :=
    hlifts.injOn fun c hc => hfits c (Cube.mem_sortByKey.1 hc)
  have hessential : Cube.essentials (sorted.map φ) upper = (Cube.essentials sorted lower).map φ :=
    Cube.essentials_map hk hrows hlifts hinj
  have huncovered : LiesAbove π k
      (Cube.uncoveredRows ((Cube.essentials sorted lower).map φ) upper)
      (Cube.uncoveredRows (Cube.essentials sorted lower) lower) :=
    Cube.liesAbove_uncoveredRows hrows
      fun c hc => hlifts.covers_eq c (Cube.essentials_sublist.subset hc)
  have hlifts' : Cube.Lifts φ π plain plain' sorted
      (Cube.uncoveredRows ((Cube.essentials sorted lower).map φ) upper) :=
    hlifts.mono (List.Subset.refl _) fun r hr => (Cube.mem_uncoveredRows.1 hr).1
  rw [cubes, cubes, List.map_append]
  have hext : (ofPrimes primes' upper plain' strategy).extension.cubes =
      (ofPrimes primes lower plain strategy).extension.cubes.map φ := by
    cases strategy with
    | greedy =>
      show (greedyCover (Cube.sortByKey plain' primes') (Cube.uncoveredRows (Cube.essentials
        (Cube.sortByKey plain' primes') upper) upper)).map Pick.cube = _
      rw [hsorted, hessential]
      exact greedyCover_map hk huncovered hlifts'.covers_eq
    | exact =>
      have hcov' : Covering primes' upper := by
        intro r hr
        obtain ⟨d, hd, hdrow⟩ := h.covering_map hrows hcov r hr
        exact ⟨d, (hmem d).2 (List.mem_map.1 hd), hdrow⟩
      obtain ⟨s, hs, hbest⟩ := exists_isBest plain hnodup hcov
      obtain ⟨s', hs', hbest'⟩ := exists_isBest plain' hnodup' hcov'
      rw [uncovered_ofPrimes, hsorted, hessential] at hbest'
      have himage := hbest.map hlifts' hk huncovered
      -- Only one cover is best, so the one found for the upper rows is the image.
      have hsame : s' = ⟨s.cubes.map φ⟩ := by
        refine hbest'.eq himage fun c hc d hd => ?_
        rw [← hsorted] at hc hd
        exact (hfits' c (Cube.mem_sortByKey.1 hc)).eq_of_orderKey_eq
          (hfits' d (Cube.mem_sortByKey.1 hd))
      rw [hs, hs', hsame]
  rw [hext, essential_ofPrimes, essential_ofPrimes, hsorted, hessential]

end TwoLevel
