import TwoLevel.Form
import TwoLevel.Proofs.Cube.Demand

/-!
# Terms as lists of literals

This file gives lists of literals a value of their own, apart from cubes: a form of either kind has
the value of a plain literal exactly if all literals of some term have it. The terms of a form have
the value of the form on every row.

## Main definitions

- `Literal.value`, `FormKind.value` — the values of a literal and of some terms
- `Cube.ofTerm` — the cube of the rows on which all literals of a term have the value of a plain one

## Main statements

- `FormKind.value_eq_plain` — both kinds of forms are read in the same way
- `Form.meets_literals` — the literals of a cube
- `Cube.covers_ofTerm`, `Cube.literalCount_ofTerm_le` — the cube of a term
-/

namespace TwoLevel

/-- The value of a literal when `v` gives the value of each letter. -/
def Literal.value (v : Char → Bool) (l : Literal) : Bool := v l.letter != l.complemented

/-- The value of the form of a kind with some terms when `v` gives the value of each letter. -/
def FormKind.value (v : Char → Bool) (terms : List (List Literal)) : FormKind → Bool
  | sumOfProducts => terms.any fun term => term.all (·.value v)
  | productOfSums => terms.all fun term => term.any (·.value v)

/-- All literals of a term have the value of a plain literal. -/
def FormKind.Meets (kind : FormKind) (v : Char → Bool) (term : List Literal) : Prop :=
  ∀ l ∈ term, l.value v = kind.plain

variable {s : Letters} {kind : FormKind} {v : Char → Bool} {c : Cube} {f : Form}
  {term : List Literal} {terms : List (List Literal)} {row : Nat}

theorem FormKind.value_eq_plain :
    kind.value v terms = kind.plain ↔ ∃ term ∈ terms, kind.Meets v term := by
  cases kind with
  | sumOfProducts => simp [value, plain, Meets]
  | productOfSums => simp [value, plain, Meets]

theorem bool_eq_of_iff (plain : Bool) {a b : Bool} (h : a = plain ↔ b = plain) : a = b := by
  cases a <;> cases b <;> cases plain <;> simp_all

/-- The value of some terms depends only on the letters of their literals. -/
theorem FormKind.value_congr {w : Char → Bool}
    (h : ∀ term ∈ terms, ∀ l ∈ term, v l.letter = w l.letter) :
    kind.value v terms = kind.value w terms := by
  apply bool_eq_of_iff kind.plain
  rw [value_eq_plain, value_eq_plain]
  refine exists_congr fun term => and_congr_right fun hterm => ?_
  refine forall_congr' fun l => imp_congr_right fun hl => ?_
  rw [Literal.value, Literal.value, h term hterm l hl]

/-- A literal has the value of a plain one when its letter has the value that it asks for. -/
theorem Literal.value_eq_plain {l : Literal} {plain : Bool} :
    l.value v = plain ↔ v l.letter = (plain != l.complemented) := by
  rw [value]
  cases v l.letter <;> cases l.complemented <;> cases plain <;> decide

/-! ### The terms of a form -/

namespace Form

/-- The literals of a cube are its requirements, letter by letter. -/
theorem literals_eq (f : Form) (c : Cube) : f.literals c = f.letters.toList.filterMap fun name =>
    (c.demand f.letters name).map fun value => ⟨name, value != f.kind.plain⟩ := by
  have hzip : f.letters.toList = f.letters.toList.zipIdx.map Prod.fst := by simp
  conv_rhs => rw [hzip]
  rw [literals, List.filterMap_map]
  apply List.filterMap_congr
  intro entry hentry
  rw [List.mem_zipIdx_iff_getElem?] at hentry
  rw [Function.comp_apply, Cube.demand_eq_value? hentry]

theorem mem_literals {l : Literal} : l ∈ f.literals c ↔
    c.demand f.letters l.letter = some (l.complemented != f.kind.plain) := by
  rw [literals_eq, List.mem_filterMap]
  constructor
  · rintro ⟨name, -, h⟩
    obtain ⟨value, hvalue, rfl⟩ := Option.map_eq_some_iff.1 h
    rw [hvalue, Bool.bne_assoc, bne_self_eq_false, Bool.bne_false]
  · intro h
    refine ⟨l.letter, Cube.mem_of_demand_eq_some h, ?_⟩
    rw [h, Option.map_some, Bool.bne_assoc, bne_self_eq_false, Bool.bne_false]

theorem mem_literals_of_demand {name : Char} {value : Bool}
    (h : c.demand f.letters name = some value) :
    (⟨name, value != f.kind.plain⟩ : Literal) ∈ f.literals c := by
  rw [mem_literals, h, Bool.bne_assoc, bne_self_eq_false, Bool.bne_false]

theorem length_literals (hc : c.Fits f.letters.size) :
    (f.literals c).length = c.literalCount := by
  rw [literals_eq, List.length_filterMap_eq_countP, hc.literalCount_eq_demand]
  apply List.countP_congr
  intro name _
  rw [Option.isSome_map]

/-- All literals of a cube have the value of a plain literal exactly on its rows. -/
theorem meets_literals (hc : c.Fits f.letters.size) (hrow : row < 2 ^ f.letters.size) :
    f.kind.Meets (f.letters.valueAt row) (f.literals c) ↔ c.covers row = true := by
  rw [hc.covers_iff_demand hrow]
  constructor
  · intro h name value hvalue
    have hplain := Literal.value_eq_plain.1 (h _ (mem_literals_of_demand hvalue))
    rw [hplain]
    cases value <;> cases f.kind.plain <;> rfl
  · intro h l hl
    rw [Literal.value_eq_plain, h l.letter _ (mem_literals.1 hl)]
    cases l.complemented <;> cases f.kind.plain <;> rfl

theorem length_terms (f : Form) : f.terms.length = f.termCount := List.length_map ..

theorem sum_length_terms (hfits : ∀ c ∈ f.cubes, c.Fits f.letters.size) :
    (f.terms.map List.length).sum = f.literalCount := by
  rw [literalCount, terms, List.map_map]
  generalize f.cubes = cubes at hfits
  induction cubes with
  | nil => rfl
  | cons c cs ih =>
    rw [List.map_cons, List.sum_cons, ih fun d hd => hfits d (List.mem_cons_of_mem _ hd),
      Function.comp_apply, length_literals (hfits c List.mem_cons_self)]
    rfl

end Form

/-! ### The cube of a term -/

namespace Cube

/-- The cube over some letters that asks of each letter what the first literal of a term with this
letter asks for. -/
def ofTerm (s : Letters) (kind : FormKind) (term : List Literal) : Cube :=
  ofDemand s fun name => (term.find? (·.letter = name)).map fun l => kind.plain != l.complemented

/-- If all literals of a term have the value of a plain one at all, they have it on the rows of the
cube of the term. -/
theorem covers_ofTerm (hletters : ∀ l ∈ term, l.letter ∈ s.toList) (hmeets : kind.Meets v term)
    (hrow : row < 2 ^ s.size) :
    (ofTerm s kind term).covers row = true ↔ kind.Meets (s.valueAt row) term := by
  rw [ofTerm, (fits_ofDemand s _).covers_iff_demand hrow]
  constructor
  · intro h l hl
    -- The first literal with the letter of `l` asks for the same value as `l`.
    obtain ⟨first, hfirst⟩ : ∃ first, term.find? (·.letter = l.letter) = some first := by
      rw [← Option.isSome_iff_exists, List.find?_isSome]
      exact ⟨l, hl, by simp⟩
    have hletter : first.letter = l.letter := by simpa using List.find?_some hfirst
    have hsame : (kind.plain != first.complemented) = (kind.plain != l.complemented) := by
      rw [← Literal.value_eq_plain.1 (hmeets first (List.mem_of_find?_eq_some hfirst)), hletter,
        Literal.value_eq_plain.1 (hmeets l hl)]
    rw [Literal.value_eq_plain, ← hsame]
    refine h l.letter _ ?_
    rw [demand_ofDemand _ (hletters l hl), hfirst, Option.map_some]
  · intro h name value hvalue
    rw [demand_ofDemand _ (mem_of_demand_eq_some hvalue)] at hvalue
    obtain ⟨l, hl, rfl⟩ := Option.map_eq_some_iff.1 hvalue
    have hletter : l.letter = name := by simpa using List.find?_some hl
    rw [← hletter, Literal.value_eq_plain.1 (h l (List.mem_of_find?_eq_some hl))]

/-- The cube of a term has no more literals than the term. -/
theorem literalCount_ofTerm_le (s : Letters) (kind : FormKind) (term : List Literal) :
    (ofTerm s kind term).literalCount ≤ term.length := by
  have hlength : (term.map Literal.letter).length = term.length := List.length_map ..
  rw [ofTerm, (fits_ofDemand s _).literalCount_eq_demand, List.countP_eq_length_filter, ← hlength]
  refine ((s.nodup.filter _).subperm fun name hname => ?_).length_le
  obtain ⟨hmem, hsome⟩ := List.mem_filter.1 hname
  rw [demand_ofDemand _ hmem, Option.isSome_map, List.find?_isSome] at hsome
  obtain ⟨l, hl, hletter⟩ := hsome
  exact List.mem_map.2 ⟨l, hl, of_decide_eq_true hletter⟩

end Cube

end TwoLevel
