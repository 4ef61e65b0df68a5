import TwoLevel.Cube.Basic

/-!
# Prime cubes

This file finds the largest cubes that lie within a set of rows. A first round holds the cubes of
single rows. In each round all pairs that differ in one digit are merged; a cube without a partner
is prime, and the merged cubes make up the next round. The cubes of a round have all the same
number of free variables, and a merge frees one more, so the rounds come to an end.

A round may visit its cubes in any order. The order is a parameter, so that one can say that the
result does not depend on it.

## Main definitions

- `VisitOrder` — the order in which each round visits its cubes
- `Merge` — two cubes and their union
- `Round` — the cubes of a round; `Round.merges`, `Round.primes`, `Round.next`
- `Cube.rounds` — all rounds from a set of rows
- `Cube.primes` — the prime cubes, ascending
-/

namespace TwoLevel

/-- An order in which the cubes of each round are visited. -/
structure VisitOrder where
  /-- The cubes of a round with a given number in the order of the visit. -/
  arrange : Nat → List Cube → List Cube
  perm : ∀ round cubes, (arrange round cubes).Perm cubes

/-- The order in which the cubes happen to be listed. -/
def VisitOrder.listed : VisitOrder := ⟨fun _ cubes => cubes, fun _ _ => .refl _⟩

/-- Two cubes that differ in one digit, and their union. -/
structure Merge where
  /-- The cube whose digit is zero. -/
  lower : Cube
  /-- The cube whose digit is one. -/
  upper : Cube
  result : Cube
  deriving DecidableEq

/-- The cubes of one round, as a set and in the order of the visit. -/
structure Round where
  members : CubeSet
  cubes : List Cube
  perm : cubes.Perm members.toList

namespace Round

/-- The round with some members that are visited in a given order. -/
def visiting (order : VisitOrder) (number : Nat) (members : CubeSet) : Round :=
  ⟨members, order.arrange number members.toList, order.perm number _⟩

theorem mem_cubes (r : Round) {c : Cube} : c ∈ r.cubes ↔ c ∈ r.members :=
  r.perm.mem_iff.trans Std.TreeSet.mem_toList

/-- The merges of one cube with its neighbours that have one more digit one. Each pair is thus
merged once, from the cube that has fewer. -/
def mergesFrom (r : Round) (c : Cube) : List Merge :=
  (c.upperNeighbours.filter r.members.contains).filterMap fun d =>
    (c.combine d).map fun result => ⟨c, d, result⟩

/-- All merges of a round in the order of the visit. -/
def merges (r : Round) : List Merge := r.cubes.flatMap r.mergesFrom

/-- The cubes of a round that have no neighbour in it. -/
def primes (r : Round) : List Cube :=
  r.cubes.filter fun c => !c.neighbours.any r.members.contains

/-- The results of all merges. -/
def next (r : Round) : CubeSet := CubeSet.ofList (r.merges.map Merge.result)

end Round

namespace Cube

/-- The places of a word at which a cube is fixed. -/
def fixedPlaces (c : Cube) : List Nat :=
  (List.range 32).filter fun place => !Word.digit c.free place

/-- Freeing one more place leaves fewer fixed places. -/
theorem length_fixedPlaces_lt {c e : Cube} {place : Nat} (hlt : place < 32)
    (hfixed : Word.digit c.free place = false)
    (he : e.free = c.free ||| Word.single place) :
    e.fixedPlaces.length < c.fixedPlaces.length := by
  have hsub : e.fixedPlaces =
      c.fixedPlaces.filter fun p => !Word.digit (Word.single place) p := by
    simp only [fixedPlaces, he, Word.digit_or, Bool.not_or, List.filter_filter]
    exact List.filter_congr fun p _ => Bool.and_comm _ _
  rw [hsub, List.length_filter_lt_length_iff_exists]
  exact ⟨place, by simp [fixedPlaces, hlt, hfixed], by simp [Word.digit_single, hlt]⟩

/-- The union of a cube with an upper neighbour has fewer fixed places. -/
theorem length_fixedPlaces_combine {c d e : Cube} (hd : d ∈ c.upperNeighbours)
    (h : c.combine d = some e) : e.fixedPlaces.length < c.fixedPlaces.length := by
  simp only [upperNeighbours, List.mem_map, List.mem_filter, Bool.and_eq_true,
    Bool.not_eq_true'] at hd
  obtain ⟨place, ⟨_, hfixed, _⟩, rfl⟩ := hd
  simp only [combine, flip, Option.ite_none_right_eq_some, Option.some.injEq] at h
  obtain ⟨⟨_, _, hones⟩, rfl⟩ := h
  have hdiff : c.bits ^^^ (c.bits ^^^ Word.single place) = Word.single place :=
    Word.ext fun p _ => by simp
  rw [hdiff] at hones
  exact length_fixedPlaces_lt (Word.lt_of_ones_single hones) hfixed (by rw [hdiff])

/-- The least number that the fixed places of all given cubes stay below. -/
def roundBound (cubes : List Cube) : Nat :=
  (cubes.map fun c => c.fixedPlaces.length + 1).foldr max 0

theorem lt_roundBound {cubes : List Cube} {c : Cube} (h : c ∈ cubes) :
    c.fixedPlaces.length < roundBound cubes := by
  induction cubes with
  | nil => cases h
  | cons d ds ih =>
    rcases List.mem_cons.1 h with rfl | h
    · simp only [roundBound, List.map_cons, List.foldr_cons]; omega
    · have := ih h; simp only [roundBound, List.map_cons, List.foldr_cons] at *; omega

/-- If the fixed places of all given cubes stay below a number, their bound does not exceed it. -/
theorem roundBound_le {cubes : List Cube} {n : Nat} (h : ∀ c ∈ cubes, c.fixedPlaces.length < n) :
    roundBound cubes ≤ n := by
  induction cubes with
  | nil => simp [roundBound]
  | cons d ds ih =>
    have hd := h d (by simp)
    have hds := ih fun c hc => h c (by simp [hc])
    simp only [roundBound, List.map_cons, List.foldr_cons] at *
    omega

/-- The cubes of the next round stay strictly below the bound of a round that is not empty. -/
theorem roundBound_next_lt {r : Round} (hne : r.members.isEmpty = false) :
    roundBound r.next.toList < roundBound r.members.toList := by
  have hpos : 0 < roundBound r.members.toList := by
    cases hlist : r.members.toList with
    | nil => simp [← Std.TreeSet.isEmpty_toList, hlist] at hne
    | cons c cs => exact Nat.lt_of_le_of_lt (Nat.zero_le _) (lt_roundBound (c := c) (by simp))
  refine Nat.lt_of_le_of_lt (roundBound_le (n := roundBound r.members.toList - 1) fun e he => ?_)
    (by omega)
  simp only [Std.TreeSet.mem_toList, Round.next, CubeSet.mem_ofList, List.mem_map, Round.merges,
    List.mem_flatMap, Round.mergesFrom, List.mem_filterMap, List.mem_filter,
    Option.map_eq_some_iff] at he
  obtain ⟨m, ⟨c, hc, d, ⟨hd, _⟩, e', he', rfl⟩, rfl⟩ := he
  have h1 : e'.fixedPlaces.length < c.fixedPlaces.length := length_fixedPlaces_combine hd he'
  have h2 : c.fixedPlaces.length < roundBound r.members.toList :=
    lt_roundBound (r.perm.mem_iff.1 hc)
  show e'.fixedPlaces.length < roundBound r.members.toList - 1
  omega

/-- The rounds from a given number on, the first of which has some given members. -/
def roundsFrom (order : VisitOrder) (number : Nat) (members : CubeSet) : List Round :=
  if members.isEmpty then []
  else
    let r := Round.visiting order number members
    r :: roundsFrom order (number + 1) r.next
termination_by roundBound members.toList
decreasing_by
  rename_i hne
  exact roundBound_next_lt (r := Round.visiting order number members)
    (by simpa [Round.visiting] using hne)

/-- The rounds that start from the cubes of single rows. -/
def rounds (order : VisitOrder) (width : Nat) (rows : List Nat) : List Round :=
  roundsFrom order 1 (CubeSet.ofList (rows.map (ofRow · width)))

/-- The primes of some rounds, ascending. -/
def primesOf (rounds : List Round) : List Cube := ascending (rounds.flatMap Round.primes)

/-- The prime cubes within a set of rows, ascending. -/
def primes (order : VisitOrder) (width : Nat) (rows : List Nat) : List Cube :=
  primesOf (rounds order width rows)

end Cube

end TwoLevel
