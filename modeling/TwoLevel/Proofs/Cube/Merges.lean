import TwoLevel.Proofs.Cube.Built
import TwoLevel.Proofs.Lists

/-!
# What each round of merging does

This file follows the merging of cubes round by round. A round holds the subcubes of one dimension
that lie within the rows, each of them once. It tries to combine every cube with those of its
neighbours in the round that have more digits one, so of two adjacent cubes only the one with fewer
digits one tries. No attempt fails, and a subcube is found as often as it has free places, since at
each of them it has two halves.

## Main definitions

- `Cube.Adjacent` — cubes that differ in the value of one position
- `Round.attempts` — the pairs of cubes that a round tries to combine

## Main statements

- `IsLevel.map_merges` — every attempt is a merge
- `IsLevel.filter_attempts` — two adjacent cubes are tried once
- `IsLevel.countP_merges` — how often a round finds a cube
- `rounds_complete` — the members, attempts and merges of all rounds, and their number
-/

namespace TwoLevel

variable {c d e : Cube} {w k place : Nat} {rows : List Nat} {members : CubeSet} {r : Round}

/-! ### Adjacent cubes -/

/-- Changing a digit zero of a word makes one more digit one. -/
theorem Word.ones_xor_single {v : Word} (hlt : place < 32) (hzero : digit v place = false) :
    ones (v ^^^ single place) = ones v + 1 := by
  have hor : v ^^^ single place = v ||| single place := by
    refine ext fun p hp => ?_
    rw [digit_xor, digit_or, digit_single]
    by_cases hpp : place = p
    · subst hpp
      simp [hlt, hzero]
    · simp [hpp]
  rw [hor, ones_or_single hlt hzero]

namespace Cube

/-- Cubes over `w` variables that require different values at one position, and the same at all
others. -/
def Adjacent (w : Nat) (c d : Cube) : Prop :=
  ∃ position < w, ∃ value, c.value? position = some value ∧ d.value? position = some !value ∧
    ∀ other < w, other ≠ position → c.value? other = d.value? other

theorem Adjacent.symm (h : Adjacent w c d) : Adjacent w d c := by
  obtain ⟨position, hlt, value, hc, hd, hother⟩ := h
  exact ⟨position, hlt, !value, hd, by rwa [Bool.not_not],
    fun other ho hne => (hother other ho hne).symm⟩

theorem flip_flip (c : Cube) (place : Nat) : (c.flip place).flip place = c := by
  have hbits : c.bits ^^^ Word.single place ^^^ Word.single place = c.bits :=
    Word.ext fun p _ => by simp
  rw [flip, flip, hbits]

theorem Fits.cell_flip (hc : c.Fits w) (hw : w ≤ 32) (hp : place < w) {value : Bool}
    (hcell : c.cell place = some value) {other : Nat} (ho : other < w) :
    (c.flip place).cell other = if other = place then some !value else c.cell other := by
  rw [hc.flip_eq_put hp hcell, hc.cell_put hw ho]

/-- The neighbours of a cube that fits are the adjacent cubes that fit. -/
theorem Fits.adjacent_iff (hc : c.Fits w) (hd : d.Fits w) (hw : w ≤ 32) :
    Adjacent w c d ↔ d ∈ c.neighbours := by
  rw [hc.mem_neighbours]
  constructor
  · rintro ⟨position, hlt, value, hcv, hdv, hother⟩
    rw [hc.value?_eq] at hcv
    rw [hd.value?_eq] at hdv
    refine ⟨w - 1 - position, by omega, by simp [hcv], ?_⟩
    refine hd.ext (hc.flip hw (by omega) (by simp [hcv])) fun p hp => ?_
    rw [hc.cell_flip hw (by omega) hcv hp]
    by_cases hpp : p = w - 1 - position
    · rw [if_pos hpp, hpp, hdv]
    · have hsame := hother (w - 1 - p) (by omega) (by omega)
      rw [hc.value?_eq, hd.value?_eq, show w - 1 - (w - 1 - p) = p by omega] at hsame
      rw [if_neg hpp, hsame]
  · rintro ⟨place, hp, hcell, rfl⟩
    obtain ⟨value, hv⟩ := Option.ne_none_iff_exists'.1 hcell
    have hback : w - 1 - (w - 1 - place) = place := by omega
    refine ⟨w - 1 - place, by omega, value, ?_, ?_, fun other ho hne => ?_⟩
    · rw [hc.value?_eq, hback, hv]
    · rw [hd.value?_eq, hback, hc.cell_flip hw hp hv hp, if_pos rfl]
    · rw [hc.value?_eq, hd.value?_eq, hc.cell_flip hw hp hv (by omega), if_neg (by omega)]

/-- Changing the value of a place adds a digit one exactly if there was none. -/
theorem ones_flip_of_digit (hp : place < 32) :
    (c.flip place).ones + (Word.digit c.bits place).toNat =
      c.ones + (!Word.digit c.bits place).toNat := by
  cases hone : Word.digit c.bits place with
  | false => simpa [ones, flip] using Word.ones_xor_single hp hone
  | true =>
    have hzero : Word.digit (c.flip place).bits place = false := by
      simp [flip, hone, Word.digit_single, hp]
    have hones : ((c.flip place).flip place).ones = (c.flip place).ones + 1 :=
      Word.ones_xor_single hp hzero
    rw [flip_flip] at hones
    simp [hones]

/-- The upper neighbours are the neighbours with more digits one. -/
theorem upperNeighbours_eq_filter (hwidth : c.width ≤ 32) :
    c.upperNeighbours = c.neighbours.filter fun d => c.ones < d.ones := by
  rw [upperNeighbours, neighbours, List.filter_map, List.filter_filter]
  refine congrArg (List.map c.flip) (List.filter_congr fun place hplace => ?_)
  have hlt : place < 32 := Nat.lt_of_lt_of_le (List.mem_range.1 hplace) hwidth
  have hones := ones_flip_of_digit (c := c) hlt
  rw [Function.comp_apply]
  cases hbit : Word.digit c.bits place <;> simp [hbit] at hones ⊢ <;> omega

theorem ones_ne_of_mem_neighbours (hwidth : c.width ≤ 32) (hd : d ∈ c.neighbours) :
    c.ones ≠ d.ones := by
  obtain ⟨place, hplace, rfl⟩ := List.mem_map.1 hd
  have hlt := List.mem_range.1 (List.mem_of_mem_filter hplace)
  have hones := ones_flip_of_digit (c := c) (hlt.trans_le hwidth)
  cases hbit : Word.digit c.bits place <;> simp [hbit] at hones <;> omega

theorem nodup_neighbours (hwidth : c.width ≤ 32) : c.neighbours.Nodup := by
  refine (List.nodup_range.filter _).map_on fun p hp q _ heq => ?_
  have hlt : p < 32 := Nat.lt_of_lt_of_le (List.mem_range.1 (List.mem_of_mem_filter hp)) hwidth
  have hbits : c.bits ^^^ Word.single p = c.bits ^^^ Word.single q := congrArg Cube.bits heq
  have hdigit : Word.digit (c.bits ^^^ Word.single p) p =
      Word.digit (c.bits ^^^ Word.single q) p := by rw [hbits]
  rw [Word.digit_xor, Word.digit_xor, Bool.xor_right_inj, Word.digit_single, Word.digit_single]
    at hdigit
  simpa [hlt, eq_comm] using hdigit

end Cube

/-- The merge of the two halves of a cube at a free place. -/
def Cube.mergeAt (c : Cube) (place : Nat) : Merge :=
  ⟨c.put place (some false), c.put place (some true), c⟩

/-- The halves of a cube at different places are different. -/
theorem Cube.Fits.eq_of_mergeAt_eq (hc : c.Fits w) (hw : w ≤ 32) (hp : place < w)
    (hfree : c.cell place = none) {other : Nat} (h : c.mergeAt place = c.mergeAt other) :
    place = other := by
  have hlower : c.put place (some false) = c.put other (some false) := congrArg Merge.lower h
  have hcell : (c.put place (some false)).cell place = (c.put other (some false)).cell place := by
    rw [hlower]
  rw [hc.cell_put hw hp, hc.cell_put hw hp, if_pos rfl, hfree] at hcell
  by_contra hne
  rw [if_neg hne] at hcell
  cases hcell

/-! ### Attempts -/

namespace Round

/-- The pairs of cubes that a round tries to combine, in order: each cube that it visits with those
of its neighbours in the round that have more digits one. -/
def attempts (r : Round) : List (Cube × Cube) :=
  r.cubes.flatMap fun c =>
    ((c.neighbours.filter r.members.contains).filter fun d => c.ones < d.ones).map fun d => (c, d)

theorem mem_attempts {p : Cube × Cube} : p ∈ r.attempts ↔
    p.1 ∈ r.cubes ∧ p.2 ∈ r.cubes ∧ p.2 ∈ p.1.neighbours ∧ p.1.ones < p.2.ones := by
  simp only [attempts, List.mem_flatMap, List.mem_map, List.mem_filter, decide_eq_true_eq,
    Std.TreeSet.contains_iff_mem, r.mem_cubes]
  constructor
  · rintro ⟨c, hc, d, ⟨⟨hd, hmem⟩, hless⟩, rfl⟩
    exact ⟨hc, hmem, hd, hless⟩
  · rintro ⟨hc, hmem, hd, hless⟩
    exact ⟨p.1, hc, p.2, ⟨⟨hd, hmem⟩, hless⟩, rfl⟩

end Round

namespace IsLevel

theorem fits (hr : IsLevel r.members w rows k) (hc : c ∈ r.cubes) : c.Fits w :=
  ((hr c).1 (r.mem_cubes.1 hc)).1.fits

/-- No pair is tried twice. -/
theorem nodup_attempts (hr : IsLevel r.members w rows k) (hw : w ≤ 32) : r.attempts.Nodup := by
  rw [Round.attempts, List.nodup_flatMap]
  constructor
  · intro c hc
    have hnodup := c.nodup_neighbours ((hr.fits hc).width_eq.trans_le hw)
    exact ((hnodup.filter _).filter _).map fun d e h => (Prod.mk.inj h).2
  · refine r.nodup_cubes.imp fun {c d} hne => List.disjoint_left.2 fun p hp hp' => hne ?_
    obtain ⟨u, -, rfl⟩ := List.mem_map.1 hp
    obtain ⟨v, -, heq⟩ := List.mem_map.1 hp'
    exact (Prod.mk.inj heq).1.symm

/-- Every attempt of a round is a merge: no two cubes that are tried fail to combine. -/
theorem map_merges (hr : IsLevel r.members w rows k) (hw : w ≤ 32) :
    (r.merges.map fun m => ((m.lower, m.upper), some m.result)) =
      r.attempts.map fun p => (p, p.1.combine p.2) := by
  rw [Round.merges, Round.attempts, List.map_flatMap, List.map_flatMap]
  refine List.flatMap_congr fun c hc => ?_
  have hfits := hr.fits hc
  rw [Round.mergesFrom, Cube.upperNeighbours_eq_filter (hfits.width_eq.trans_le hw),
    List.filter_comm, List.map_map, List.map_filterMap, ← List.filterMap_eq_map]
  refine List.filterMap_congr fun d hd => ?_
  have hd := List.mem_of_mem_filter (List.mem_of_mem_filter hd)
  obtain ⟨place, hp, -, rfl⟩ := hfits.mem_neighbours.1 hd
  simp only [Function.comp_apply, hfits.combine_flip hw hp, Option.map_some]

/-- Of two adjacent cubes of a round, the one with fewer digits one tries to combine with the other,
and this is the only attempt to combine them. -/
theorem filter_attempts (hr : IsLevel r.members w rows k) (hw : w ≤ 32) (hc : c ∈ r.cubes)
    (hd : d ∈ r.cubes) (hadj : Cube.Adjacent w c d) :
    ∃ p, r.attempts.filter (fun p => s(p.1, p.2) = s(c, d)) = [p] ∧ p.1.ones < p.2.ones := by
  have hneighbour := ((hr.fits hc).adjacent_iff (hr.fits hd) hw).1 hadj
  have hne := Cube.ones_ne_of_mem_neighbours ((hr.fits hc).width_eq.trans_le hw) hneighbour
  wlog hless : c.ones < d.ones generalizing c d with hswap
  · have hneighbour' := ((hr.fits hd).adjacent_iff (hr.fits hc) hw).1 hadj.symm
    obtain ⟨p, hfilter, hp⟩ := hswap hd hc hadj.symm hneighbour' hne.symm (by omega)
    exact ⟨p, by rwa [Sym2.eq_swap] at hfilter, hp⟩
  · refine ⟨(c, d), (filter_eq_singleton_iff (hr.nodup_attempts hw)).2 ⟨⟨?_, by simp⟩, ?_⟩, hless⟩
    · exact Round.mem_attempts.2 ⟨hc, hd, hneighbour, hless⟩
    · intro p hp hsame
      obtain ⟨-, -, -, hpless⟩ := Round.mem_attempts.1 hp
      rcases Sym2.eq_iff.1 (of_decide_eq_true hsame) with ⟨h1, h2⟩ | ⟨h1, h2⟩
      · exact Prod.ext h1 h2
      · rw [h1, h2] at hpless
        omega

/-- The cubes that a round tries to combine are adjacent members of the round. -/
theorem of_mem_attempts (hr : IsLevel r.members w rows k) (hw : w ≤ 32) {p : Cube × Cube}
    (hp : p ∈ r.attempts) : p.1 ∈ r.cubes ∧ p.2 ∈ r.cubes ∧ Cube.Adjacent w p.1 p.2 := by
  obtain ⟨hc, hd, hneighbour, -⟩ := Round.mem_attempts.1 hp
  exact ⟨hc, hd, ((hr.fits hc).adjacent_iff (hr.fits hd) hw).2 hneighbour⟩

/-! ### Merges -/

theorem nodup_merges (hr : IsLevel r.members w rows k) (hw : w ≤ 32) : r.merges.Nodup := by
  refine List.Nodup.of_map (fun m => ((m.lower, m.upper), some m.result)) ?_
  rw [hr.map_merges hw]
  exact (hr.nodup_attempts hw).map fun p q h => (Prod.mk.inj h).1

/-- A round merges the two halves of a cube at each of its free places. -/
theorem mem_merges (hr : IsLevel r.members w rows k) (hw : w ≤ 32) {m : Merge} :
    m ∈ r.merges ↔ (m.result.Implicant w rows ∧ Word.ones m.result.free = k + 1) ∧
      ∃ place < w, m.result.cell place = none ∧ m = m.result.mergeAt place := by
  obtain ⟨low, high, e⟩ := m
  rw [Round.mem_merges]
  constructor
  · rintro ⟨hlow, hhigh, hmem, hcombine⟩
    dsimp only at hlow hhigh hmem hcombine ⊢
    have hfits := ((hr low).1 hlow).1.fits
    have hnext := (hr.next hw e).1 (Round.mem_next.2 ⟨low, hlow, high, hhigh, hmem, hcombine⟩)
    obtain ⟨place, hp, hcell, rfl⟩ := hfits.mem_upperNeighbours.1 hhigh
    rw [hfits.combine_flip hw hp, Option.some.injEq] at hcombine
    refine ⟨hnext, place, hp, by rw [← hcombine, hfits.cell_put hw hp, if_pos rfl], ?_⟩
    rw [Cube.mergeAt, ← hcombine, hfits.put_put hw, hfits.put_put hw, hfits.put_eq_self hw hcell,
      hfits.flip_eq_put hp hcell, Bool.not_false]
  · rintro ⟨⟨himp, hones⟩, place, hp, hfree, hmerge⟩
    dsimp only at himp hones hfree
    obtain ⟨hlower, hupper, hneighbour, hcombine, hless, hsame⟩ := himp.halves hw hp hfree
    obtain rfl : low = e.put place (some false) := congrArg Merge.lower hmerge
    obtain rfl : high = e.put place (some true) := congrArg Merge.upper hmerge
    have hcount : Word.ones (e.put place (some false)).free = k := by omega
    exact ⟨(hr _).2 ⟨hlower, hcount⟩, hneighbour, (hr _).2 ⟨hupper, hsame ▸ hcount⟩, hcombine⟩

/-- The merges of a round that result in an implicant are as many as its free places if it belongs
to the next round, and none otherwise. -/
theorem countP_merges (hr : IsLevel r.members w rows k) (hw : w ≤ 32) (he : e.Implicant w rows) :
    r.merges.countP (fun m => m.result = e) = if Word.ones e.free = k + 1 then k + 1 else 0 := by
  split
  · next hones =>
    have hnodup : (((List.range w).filter fun p => (e.cell p).isNone).map e.mergeAt).Nodup := by
      refine (List.nodup_range.filter _).map_on fun p hp q _ heq => ?_
      obtain ⟨hp, hfree⟩ := List.mem_filter.1 hp
      have hfree := Option.isNone_iff_eq_none.1 hfree
      exact he.fits.eq_of_mergeAt_eq hw (List.mem_range.1 hp) hfree heq
    have hperm : (r.merges.filter fun m => m.result = e).Perm
        (((List.range w).filter fun p => (e.cell p).isNone).map e.mergeAt) := by
      refine (List.perm_ext_iff_of_nodup ((hr.nodup_merges hw).filter _) hnodup).2 fun m => ?_
      rw [List.mem_filter, hr.mem_merges hw, List.mem_map, decide_eq_true_eq]
      constructor
      · rintro ⟨⟨-, place, hp, hfree, hm⟩, rfl⟩
        exact ⟨place, List.mem_filter.2 ⟨List.mem_range.2 hp, Option.isNone_iff_eq_none.2 hfree⟩,
          hm.symm⟩
      · rintro ⟨place, hplace, rfl⟩
        obtain ⟨hp, hfree⟩ := List.mem_filter.1 hplace
        have hfree := Option.isNone_iff_eq_none.1 hfree
        exact ⟨⟨⟨he, hones⟩, place, List.mem_range.1 hp, hfree, rfl⟩, rfl⟩
    rw [List.countP_eq_length_filter, hperm.length_eq, List.length_map,
      ← List.countP_eq_length_filter, ← he.fits.ones_free hw, hones]
  · next hones =>
    rw [List.countP_eq_zero]
    intro m hm hresult
    obtain rfl := of_decide_eq_true hresult
    exact hones ((hr.mem_merges hw).1 hm).1.2

/-! ### All rounds -/

/-- The rounds from a level on are the levels with more and more free variables. -/
theorem getElem?_roundsFrom (hr : IsLevel members w rows k) (hw : w ≤ 32) {visit : VisitOrder}
    {number j : Nat} (hj : (Cube.roundsFrom visit number members)[j]? = some r) :
    IsLevel r.members w rows (k + j) := by
  induction number, members using Cube.roundsFrom.induct visit generalizing k j with
  | case1 number members hempty =>
    rw [Cube.roundsFrom, if_pos hempty] at hj
    cases hj
  | case2 number members hne first =>
    rename_i ih
    have hlevel : IsLevel first.members w rows k := hr
    rw [Cube.roundsFrom, if_neg hne] at hj
    cases j with
    | zero =>
      obtain rfl := Option.some.inj hj
      exact hlevel
    | succ j =>
      have hlater := ih (hlevel.next hw) hj
      rwa [Nat.add_right_comm] at hlater

/-- Every level that has a cube is reached. -/
theorem exists_getElem?_roundsFrom (hr : IsLevel members w rows k) (hw : w ≤ 32)
    (visit : VisitOrder) (number : Nat) {j : Nat} (hc : c.Implicant w rows)
    (hones : Word.ones c.free = k + j) :
    ∃ r, (Cube.roundsFrom visit number members)[j]? = some r := by
  induction number, members using Cube.roundsFrom.induct visit generalizing k j with
  | case1 number members hempty =>
    exact absurd hc (hr.not_implicant hw hempty (by omega))
  | case2 number members hne first =>
    rename_i ih
    have hlevel : IsLevel first.members w rows k := hr
    rw [Cube.roundsFrom, if_neg hne]
    cases j with
    | zero => exact ⟨first, rfl⟩
    | succ j => exact ih (hlevel.next hw) (by omega)

/-- There are no more rounds than numbers of free variables. -/
theorem length_roundsFrom_le (hr : IsLevel members w rows k) (hw : w ≤ 32) (visit : VisitOrder)
    (number : Nat) (hk : k ≤ w + 1) :
    (Cube.roundsFrom visit number members).length + k ≤ w + 1 := by
  induction number, members using Cube.roundsFrom.induct visit generalizing k with
  | case1 number members hempty =>
    rw [Cube.roundsFrom, if_pos hempty, List.length_nil, Nat.zero_add]
    exact hk
  | case2 number members hne first =>
    rename_i ih
    have hlevel : IsLevel first.members w rows k := hr
    rw [Cube.roundsFrom, if_neg hne, List.length_cons]
    -- A cube of the round has `k` free variables, and there are only `w` variables.
    obtain ⟨c, hc⟩ : ∃ c, c ∈ members := by
      by_contra hnone
      push Not at hnone
      exact hne (Std.TreeSet.isEmpty_iff_forall_not_mem.2 hnone)
    obtain ⟨himp, hones⟩ := (hr c).1 hc
    have hle := himp.fits.ones_free_le hw
    have hlater := ih (hlevel.next hw) (by omega)
    show (Cube.roundsFrom visit (number + 1) first.next).length + 1 + k ≤ w + 1
    omega

/-- All rounds from a level on find an implicant as often as it has free places, unless it belongs
to this level or to an earlier one. -/
theorem countP_roundsFrom (hr : IsLevel members w rows k) (hw : w ≤ 32) (visit : VisitOrder)
    (number : Nat) (he : e.Implicant w rows) :
    ((Cube.roundsFrom visit number members).flatMap Round.merges).countP (fun m => m.result = e) =
      if k < Word.ones e.free then Word.ones e.free else 0 := by
  induction number, members using Cube.roundsFrom.induct visit generalizing k with
  | case1 number members hempty =>
    have hnot : ¬k < Word.ones e.free := fun hlt => hr.not_implicant hw hempty hlt.le he
    rw [Cube.roundsFrom, if_pos hempty, if_neg hnot]
    rfl
  | case2 number members hne first =>
    rename_i ih
    have hlevel : IsLevel first.members w rows k := hr
    rw [Cube.roundsFrom, if_neg hne, List.flatMap_cons, List.countP_append,
      hlevel.countP_merges hw he, ih (hlevel.next hw)]
    split_ifs <;> omega

end IsLevel

/-- The cubes of the rounds are the implicants, round by round. -/
theorem mem_getElem?_rounds (hw : w ≤ 32) (hrows : ∀ row ∈ rows, row < 2 ^ w) (visit : VisitOrder) :
    (∃ r, (Cube.rounds visit w rows)[k]? = some r ∧ c ∈ r.cubes) ↔
      c.Implicant w rows ∧ Word.ones c.free = k := by
  have hfirst := IsLevel.ofRows hw hrows
  constructor
  · rintro ⟨r, hk, hc⟩
    have hlevel := hfirst.getElem?_roundsFrom hw hk
    rw [Nat.zero_add] at hlevel
    exact (hlevel c).1 (r.mem_cubes.1 hc)
  · rintro ⟨himp, hones⟩
    obtain ⟨r, hk⟩ := hfirst.exists_getElem?_roundsFrom (j := k) hw visit 1 himp (by omega)
    have hlevel := hfirst.getElem?_roundsFrom hw hk
    rw [Nat.zero_add] at hlevel
    exact ⟨r, hk, r.mem_cubes.2 ((hlevel c).2 ⟨himp, hones⟩)⟩

/-- What the rounds of merging do with a set of rows, whatever the order of the visits. There are at
most `w + 1` rounds. Round `k + 1` works on all subcubes of dimension `k` that lie within the rows,
each represented by one cube, and so every round beyond the last has nothing to work on. In a round,
all attempts combine adjacent cubes of the round and succeed, and any two adjacent cubes are tried
once, from the one with fewer digits one. A subcube of dimension `k` that lies within the rows is
the result of `k` merges. -/
theorem rounds_complete (hw : w ≤ 32) (hrows : ∀ row ∈ rows, row < 2 ^ w) (visit : VisitOrder) :
    (Cube.rounds visit w rows).length ≤ w + 1 ∧
    (∀ k, Set.BijOn (fun c => c.rowSet w)
      {c | ∃ r, (Cube.rounds visit w rows)[k]? = some r ∧ c ∈ r.cubes}
      {s | IsSubcube w k s ∧ ∀ row ∈ s, row ∈ rows}) ∧
    (∀ r ∈ Cube.rounds visit w rows, r.cubes.Nodup ∧
      ((r.merges.map fun m => ((m.lower, m.upper), some m.result)) =
        r.attempts.map fun p => (p, p.1.combine p.2)) ∧
      (∀ p ∈ r.attempts, p.1 ∈ r.cubes ∧ p.2 ∈ r.cubes ∧ Cube.Adjacent w p.1 p.2) ∧
      ∀ c ∈ r.cubes, ∀ d ∈ r.cubes, Cube.Adjacent w c d →
        ∃ p, r.attempts.filter (fun p => s(p.1, p.2) = s(c, d)) = [p] ∧ p.1.ones < p.2.ones) ∧
    ∀ k s, IsSubcube w k s → (∀ row ∈ s, row ∈ rows) →
      ((Cube.rounds visit w rows).flatMap Round.merges).countP (fun m => m.result.rowSet w = s)
        = k := by
  have hfirst := IsLevel.ofRows hw hrows
  have hlength := hfirst.length_roundsFrom_le hw visit 1 (Nat.zero_le _)
  have hlevel : ∀ r ∈ Cube.rounds visit w rows, ∃ k, IsLevel r.members w rows k := by
    intro r hr
    obtain ⟨j, hj⟩ := List.getElem?_of_mem hr
    exact ⟨_, hfirst.getElem?_roundsFrom hw hj⟩
  refine ⟨hlength, fun k => ?_, fun r hr => ?_, fun k s hs hsub => ?_⟩
  · simp only [mem_getElem?_rounds hw hrows visit]
    exact bijOn_rowSet hw rows k
  · obtain ⟨k, hr⟩ := hlevel r hr
    exact ⟨r.nodup_cubes, hr.map_merges hw, fun p hp => hr.of_mem_attempts hw hp,
      fun c hc d hd hadj => hr.filter_attempts hw hc hd hadj⟩
  · obtain ⟨c, hc, rfl, rfl⟩ := hs.exists_rowSet_eq hw
    have hresult : ∀ m ∈ (Cube.rounds visit w rows).flatMap Round.merges,
        m.result.rowSet w = c.rowSet w ↔ m.result = c := by
      intro m hm
      obtain ⟨r, hr, hm⟩ := List.mem_flatMap.1 hm
      obtain ⟨k, hr⟩ := hlevel r hr
      have hfits := ((hr.mem_merges hw).1 hm).1.1.fits
      exact ⟨hfits.eq_of_rowSet_eq hc hw, fun h => h ▸ rfl⟩
    have hcount : ((Cube.rounds visit w rows).flatMap Round.merges).countP
        (fun m => m.result.rowSet w = c.rowSet w) =
          ((Cube.rounds visit w rows).flatMap Round.merges).countP fun m => m.result = c :=
      List.countP_congr fun m hm => by simpa using hresult m hm
    rw [hcount, Cube.rounds, hfirst.countP_roundsFrom hw visit 1 (hc.implicant_iff_rowSet.2 hsub)]
    split_ifs <;> omega

/-- The rounds over all four rows of two variables: two rows that differ in the first variable are
tried once, and the whole table is the result of two merges. -/
theorem rounds_complete_square :
    2 ≤ 32 ∧ (∀ row ∈ [0, 3, 1, 2], row < 2 ^ 2) ∧
      (Cube.rounds .listed 2 [0, 3, 1, 2]).length ≤ 2 + 1 ∧
      (∃ r ∈ Cube.rounds .listed 2 [0, 3, 1, 2], .ofRow 1 2 ∈ r.cubes ∧ .ofRow 3 2 ∈ r.cubes ∧
        Cube.Adjacent 2 (.ofRow 1 2) (.ofRow 3 2) ∧
        ∃ p, r.attempts.filter (fun p => s(p.1, p.2) = s(.ofRow 1 2, .ofRow 3 2)) = [p]) ∧
      IsSubcube 2 2 {0, 1, 2, 3} ∧ (∀ row ∈ ({0, 1, 2, 3} : Finset Nat), row ∈ [0, 3, 1, 2]) ∧
      ((Cube.rounds .listed 2 [0, 3, 1, 2]).flatMap Round.merges).countP
        (fun m => m.result.rowSet 2 = {0, 1, 2, 3}) = 2 := by
  have hw : 2 ≤ 32 := by decide
  have hrows : ∀ row ∈ [0, 3, 1, 2], row < 2 ^ 2 := by decide
  obtain ⟨hlength, -, hround, hcount⟩ := rounds_complete hw hrows .listed
  have hmem : ∀ row ∈ [0, 3, 1, 2], ∃ r, (Cube.rounds .listed 2 [0, 3, 1, 2])[0]? = some r ∧
      .ofRow row 2 ∈ r.cubes := fun row hrow => (mem_getElem?_rounds hw hrows .listed).2
    ⟨Cube.implicant_ofRow hw (hrows row hrow) hrow, by simp [Cube.ofRow, Word.ones]⟩
  obtain ⟨r, hr, hone⟩ := hmem 1 (by decide)
  obtain ⟨r', hr', hthree⟩ := hmem 3 (by decide)
  obtain rfl : r = r' := Option.some.inj (hr.symm.trans hr')
  have hadj : Cube.Adjacent 2 (.ofRow 1 2) (.ofRow 3 2) := ⟨0, by decide, false, by decide⟩
  have hsquare : IsSubcube 2 2 {0, 1, 2, 3} := by
    refine ⟨Finset.range 2, Finset.Subset.refl _, by decide, 0, by decide, fun row => ?_⟩
    have hall : ∀ place < 2, place ∉ Finset.range 2 → row.testBit place = Nat.testBit 0 place :=
      fun place hplace hnot => absurd (Finset.mem_range.2 hplace) hnot
    rw [and_iff_left hall]
    simp only [Finset.mem_insert, Finset.mem_singleton]
    omega
  obtain ⟨p, hp, -⟩ := (hround r (List.mem_of_getElem? hr)).2.2.2 _ hone _ hthree hadj
  exact ⟨hw, hrows, hlength, ⟨r, List.mem_of_getElem? hr, hone, hthree, hadj, p, hp⟩, hsquare,
    by decide, hcount 2 _ hsquare (by decide)⟩

end TwoLevel
