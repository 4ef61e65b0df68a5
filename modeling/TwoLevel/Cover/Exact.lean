import TwoLevel.Cube.Basic

/-!
# Exact covers

This file finds the best cover of a set of rows by cubes of a list: the fewest terms, then the
fewest literals, then the least sequence of order keys. The search branches on the cubes that cover
the lowest uncovered row and gives up a branch that has already as many terms as the best cover
found before, since every extension has more.

A chosen cube covers no row that is still uncovered, so the search never meets one again and has not
to pass it over.

## Main definitions

- `Solution` — a complete cover, in the order of the list of cubes
- `Solution.better` — whether one cover is better than another
- `exactSearch` — the covers found from a state of the search
- `exactImprovements` — the covers found one after another, each better than all before

## Main statements

- `exactSearch_cons_passing` — a step may pass over cubes that have been chosen
- `exactImprovements_passing` — the search may pass over cubes that have been taken before it
-/

namespace TwoLevel

/-- A complete cover, its cubes in the order of the list from which they are taken. -/
structure Solution where
  cubes : List Cube
  deriving DecidableEq

namespace Solution

def terms (s : Solution) : Nat := s.cubes.length

/-- The number of literals of all terms. -/
def literals (s : Solution) : Nat := Cube.literalTotal s.cubes

/-- The sequence of the order keys of all terms. -/
def keys (plain : Bool) (s : Solution) : List (List Nat) := s.cubes.map (Cube.orderKey plain)

/-- Whether a cover is better than another: by fewer terms, then by fewer literals, then by the
lexicographic order of the keys. -/
def better (plain : Bool) (s t : Solution) : Bool :=
  s.terms < t.terms || (s.terms = t.terms &&
    (s.literals < t.literals || (s.literals = t.literals && s.keys plain < t.keys plain)))

end Solution

/-- The covers that are found from a state of the search, latest first and in front of those found
before. The state consists of the rows still uncovered, ascending, and the cubes chosen so far. -/
def exactSearch (plain : Bool) (cubes : List Cube) (uncovered : List Nat) (chosen : List Cube)
    (found : List Solution) : List Solution :=
  match uncovered with
  | [] =>
    let s : Solution := ⟨cubes.filter chosen.contains⟩
    if found.head?.all (s.better plain) then s :: found else found
  | row :: rest =>
    if found.head?.any (·.terms ≤ chosen.length) then found
    else
      (cubes.filter (·.covers row)).attach.foldl (fun found ⟨c, _⟩ =>
        exactSearch plain cubes ((row :: rest).filter fun r => !c.covers r) (c :: chosen) found)
        found
termination_by uncovered.length
decreasing_by
  rename_i hc
  rw [List.length_filter_lt_length_iff_exists]
  exact ⟨row, by simp, by simpa using (List.mem_filter.1 hc).2⟩

/-- The covers of some rows that the search finds one after another, each better than all before.
Only cubes that cover one of the rows are considered. -/
def exactImprovements (plain : Bool) (cubes : List Cube) (uncovered : List Nat) : List Solution :=
  (exactSearch plain (cubes.filter fun c => uncovered.any c.covers) uncovered [] []).reverse

/-! ### One step of the search -/

variable {plain : Bool} {cubes chosen taken : List Cube} {uncovered : List Nat}
  {found : List Solution} {row : Nat} {rest : List Nat}

/-- The cover that consists of the chosen cubes is kept if it is better than the best before. -/
theorem exactSearch_nil : exactSearch plain cubes [] chosen found =
    if found.head?.all (Solution.better plain ⟨cubes.filter chosen.contains⟩) then
      ⟨cubes.filter chosen.contains⟩ :: found
    else found := by
  rw [exactSearch]

/-- A branch is given up when the best cover has no more terms than there are chosen cubes; else
one cube after another that covers the first uncovered row is tried. -/
theorem exactSearch_cons (row : Nat) (rest : List Nat) :
    exactSearch plain cubes (row :: rest) chosen found =
      if found.head?.any (·.terms ≤ chosen.length) then found
      else (cubes.filter (·.covers row)).foldl (fun found c =>
        exactSearch plain cubes ((row :: rest).filter fun r => !c.covers r) (c :: chosen) found)
        found := by
  rw [exactSearch]
  split
  · rfl
  · exact List.foldl_attach (f := fun found c =>
      exactSearch plain cubes ((row :: rest).filter fun r => !c.covers r) (c :: chosen) found)

/-- The step in which chosen cubes are passed over. They cover no uncovered row: there are none at
the start, and when one is chosen its rows are left out, as `Cube.CoverNone.cons` says. -/
theorem exactSearch_cons_passing (h : Cube.CoverNone chosen (row :: rest)) :
    exactSearch plain cubes (row :: rest) chosen found =
      if found.head?.any (·.terms ≤ chosen.length) then found
      else (cubes.filter fun c => !chosen.contains c && c.covers row).foldl (fun found c =>
        exactSearch plain cubes ((row :: rest).filter fun r => !c.covers r) (c :: chosen) found)
        found := by
  have hsame : (cubes.filter fun c => !chosen.contains c && c.covers row) =
      cubes.filter (·.covers row) := by
    refine List.filter_congr fun c _ => ?_
    rw [Bool.eq_iff_iff, Bool.and_eq_true, Bool.not_eq_true']
    exact ⟨And.right, fun hcov => ⟨h.contains_eq_false List.mem_cons_self hcov, hcov⟩⟩
  rw [exactSearch_cons, hsame]

/-- Cubes that cover no uncovered row are not searched, whether they are listed or not. -/
theorem exactImprovements_passing (h : Cube.CoverNone taken uncovered) :
    exactImprovements plain (cubes.filter fun c => !taken.contains c) uncovered =
      exactImprovements plain cubes uncovered := by
  have hsame : ((cubes.filter fun c => !taken.contains c).filter fun c => uncovered.any c.covers) =
      cubes.filter fun c => uncovered.any c.covers := by
    rw [List.filter_filter]
    refine List.filter_congr fun c _ => ?_
    rw [Bool.eq_iff_iff, Bool.and_eq_true, Bool.not_eq_true']
    refine ⟨And.left, fun hany => ⟨hany, ?_⟩⟩
    obtain ⟨row, hrow, hcov⟩ := List.any_eq_true.1 hany
    exact h.contains_eq_false hrow hcov
  rw [exactImprovements, hsame, exactImprovements]

end TwoLevel
