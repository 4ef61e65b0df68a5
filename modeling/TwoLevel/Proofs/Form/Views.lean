import TwoLevel.Proofs.Cube.Built
import TwoLevel.Proofs.Form.Terms
import TwoLevel.Proofs.Pla.Faithful

/-!
# Views of a cube

A cube is seen in two ways. Comparing a row with its words decides whether the row is covered; this
is how terms are selected and forms are evaluated. Its positions say what it requires of each
variable; from these the literals of a term, the pattern of a description and the order key are
written. This file proves that both views describe the same rows.

## Main definitions

- `Cube.Matches` — a row that has the required values at all positions
- `Form.ViewsAgree` — all uses of a cube in a form agree on a row

## Main statements

- `Cube.Fits.covers_iff_matches` — the words and the positions of a cube
- `Form.viewsAgree` — the uses of a cube agree on every row
- `cube_views_agree` — the views of all cubes that are built from rows
-/

namespace TwoLevel

variable {c d : Cube} {f : Form} {w row : Nat}

/-- Whether a row of a table with `w` variables has the value that a cube requires, if any, at every
position. -/
def Cube.Matches (c : Cube) (w row : Nat) : Prop :=
  ∀ position < w, c.value? position = none ∨ c.value? position = some (bitAt row w position)

/-- A row has the digits that the words of a cube require exactly if it has the values that its
positions require. -/
theorem Cube.Fits.covers_iff_matches (hc : c.Fits w) (hw : w ≤ 32) (hrow : row < 2 ^ w) :
    c.covers row = true ↔ c.Matches w row := by
  have hline : PlaLine.fits ⟨c.inputs, true⟩ (.ofIndex row w) = true ↔ c.covers row = true :=
    hc.fits_inputs hw hrow
  rw [← hline, inputs, hc.width_eq, PlaLine.fits_iff]
  refine forall₂_congr fun position _ => ?_
  cases c.value? position with
  | none => simp
  | some value => simp [eq_comm]

theorem Assignment.value?_ofIndex {position : Nat} (hposition : position < w) :
    (ofIndex row w).value? position = some (bitAt row w position) := by
  rw [value?, ofIndex, List.getElem?_map, List.getElem?_range hposition, Option.map_some]

/-- The line of a cube is read back with the positions of the cube. -/
theorem Cube.ofText?_pattern (c : Cube) (output : Bool) :
    PlaLine.ofText? (c.pattern ++ [' ', TruthTable.digit output]) = some ⟨c.inputs, output⟩ :=
  PlaLine.ofText?_render ⟨c.inputs, output⟩

namespace Form

/-- All uses of a cube in a form agree on a row: each of the following holds of the row exactly if
the others do. -/
def ViewsAgree (f : Form) (c : Cube) (row : Nat) : Prop :=
  ∀ (targets : List Nat) (output : Bool), row ∈ targets → List.TFAE [
    c.covers row = true,
    c.Matches f.letters.size row,
    -- All literals of the term of the cube have the value of a plain one.
    f.kind.Meets (f.letters.valueAt row) (f.literals c),
    -- The line of the cube in a description is read, and the row matches it.
    ∃ l, PlaLine.ofText? (c.pattern ++ [' ', TruthTable.digit output]) = some l ∧
      l.output = output ∧ l.fits (.ofIndex row f.letters.size) = true,
    -- The cube owns the row, is offered for it, and does not leave it uncovered.
    Cube.soleOwner? [c] row = some c,
    row ∈ (Offer.ofCube targets c).rows,
    row ∉ Cube.uncoveredRows [c] targets,
    -- The form of this one term has the value of a plain literal.
    (Form.mk f.kind f.letters (.cubes [c])).evalIndex row = f.kind.plain]

theorem viewsAgree (hc : c.Fits f.letters.size) (hrow : row < 2 ^ f.letters.size) :
    f.ViewsAgree c row := by
  intro targets output hmem
  have hsingle : [c].any (·.covers row) = c.covers row := by simp
  refine List.tfae_of_forall (c.covers row = true) _ ?_
  simp only [List.forall_mem_cons, List.not_mem_nil, false_implies, implies_true, and_true,
    true_and]
  refine ⟨(hc.covers_iff_matches f.letters.size_le_word hrow).symm,
    meets_literals hc hrow, ?_, ?_, ?_, ?_, ?_⟩
  · rw [c.ofText?_pattern]
    simpa using hc.fits_inputs f.letters.size_le_word hrow
  · rw [Cube.soleOwner?_eq_some, List.filter_eq_self]
    simp
  · rw [Offer.ofCube, List.mem_filter, and_iff_right hmem]
  · rw [Cube.mem_uncoveredRows, and_iff_right hmem]
    simp
  · rw [evalIndex_of_cubes rfl, hsingle]

/-- A form that is not constant has the value of its terms on every row. -/
theorem evalIndex_eq_value {cs : List Cube} (hbody : f.body = .cubes cs)
    (hfits : ∀ c ∈ cs, c.Fits f.letters.size) (hrow : row < 2 ^ f.letters.size) :
    f.evalIndex row = f.kind.value (f.letters.valueAt row) f.terms := by
  apply bool_eq_of_iff f.kind.plain
  have hcubes : f.cubes = cs := by rw [cubes, hbody]
  rw [evalIndex_of_cubes hbody, FormKind.value_eq_plain, List.any_eq_true, terms, hcubes]
  constructor
  · rintro ⟨c, hc, hcov⟩
    exact ⟨_, List.mem_map_of_mem hc, (meets_literals (hfits c hc) hrow).2 hcov⟩
  · rintro ⟨term, hterm, hmeets⟩
    obtain ⟨c, hc, rfl⟩ := List.mem_map.1 hterm
    exact ⟨c, hc, (meets_literals (hfits c hc) hrow).1 hmeets⟩

end Form

/-- The views of a cube that is built from rows agree. Over up to thirty-two variables, a row is
covered exactly if at every position the cube requires nothing or the value of the row, and cubes
with the same order key are equal. In a form over as many letters as the cube has variables, the
literals of its term, its line in a description, its part in the selection of terms and its part in
the value of the form belong to the same rows, and a form whose cubes are all built from rows has
the value of its terms. The cubes of the forms that minimization finds are built from rows. -/
theorem cube_views_agree :
    (∀ w ≤ 32, ∀ c, Cube.Built w c → ∀ row < 2 ^ w, c.covers row = true ↔
      ∀ position < w, c.value? position = none ∨ c.value? position = some (bitAt row w position)) ∧
    (∀ row w, ∀ position < w,
      (Assignment.ofIndex row w).value? position = some (bitAt row w position)) ∧
    (∀ w ≤ 32, ∀ c d plain, Cube.Built w c → Cube.Built w d →
      c.orderKey plain = d.orderKey plain → c = d) ∧
    (∀ (f : Form) (c : Cube), Cube.Built f.letters.size c →
      ∀ row < 2 ^ f.letters.size, f.ViewsAgree c row) ∧
    (∀ (f : Form) (cs : List Cube), f.body = .cubes cs →
      (∀ c ∈ cs, Cube.Built f.letters.size c) → ∀ row < 2 ^ f.letters.size,
        f.evalIndex row = f.kind.value (f.letters.valueAt row) f.terms) ∧
    ∀ order strategy kind (s : Letters) targets, (∀ row ∈ targets, row < 2 ^ s.size) →
      ∀ c ∈ (Form.ofTargets order strategy kind s targets).cubes, Cube.Built s.size c := by
  refine ⟨fun w hw c hc row hrow => (hc.fits hw).covers_iff_matches hw hrow,
    fun row w position => Assignment.value?_ofIndex,
    fun w hw c d plain hc hd => (hc.fits hw).eq_of_orderKey_eq (hd.fits hw), ?_, ?_, ?_⟩
  · intro f c hc row hrow
    exact Form.viewsAgree (hc.fits f.letters.size_le_word) hrow
  · intro f cs hbody hbuilt row hrow
    exact Form.evalIndex_eq_value hbody
      (fun c hc => (hbuilt c hc).fits f.letters.size_le_word) hrow
  · intro order strategy kind s targets hrows c hc
    exact (Form.isPrime_of_mem_cubes hrows hc).fits.built s.size_le_word

/-- The cube of two rows over three letters, in a product of sums and among the terms that a
minimization finds. -/
theorem cube_views_agree_two_rows :
    3 ≤ 32 ∧ Cube.Built 3 ⟨3, 4, 2⟩ ∧ 6 < 2 ^ 3 ∧
      ((Cube.mk 3 4 2).covers 6 = true ↔ ∀ position < 3, (Cube.mk 3 4 2).value? position = none ∨
        (Cube.mk 3 4 2).value? position = some (bitAt 6 3 position)) ∧
      2 < 3 ∧ (Assignment.ofIndex 6 3).value? 2 = some false ∧
      Cube.Built 3 ⟨3, 5, 2⟩ ∧ (Cube.mk 3 4 2).orderKey true ≠ (Cube.mk 3 5 2).orderKey true ∧
      ∃ f : Form, f.letters.size = 3 ∧ f.body = .cubes [⟨3, 4, 2⟩] ∧ f.ViewsAgree ⟨3, 4, 2⟩ 6 ∧
        f.evalIndex 6 = f.kind.value (f.letters.valueAt 6) f.terms ∧
        (∀ row ∈ [4, 6], row < 2 ^ f.letters.size) ∧
        ∃ c ∈ (Form.ofTargets .listed .exact .sumOfProducts f.letters [4, 6]).cubes,
          c.covers 4 = true ∧ Cube.Built f.letters.size c := by
  obtain ⟨hcovers, hvalue, hkeys, hviews, heval, hfound⟩ := cube_views_agree
  have hc : Cube.Built 3 ⟨3, 4, 2⟩ :=
    .union (.row (show 4 < 2 ^ 3 by decide)) (.row (show 6 < 2 ^ 3 by decide)) rfl
  have hd : Cube.Built 3 ⟨3, 5, 2⟩ := .neighbour hc (by decide)
  let f : Form := ⟨.productOfSums, .ofChars ['A', 'B', 'C'], .cubes [⟨3, 4, 2⟩]⟩
  have hsize : f.letters.size = 3 := by decide
  have hbuilt : Cube.Built f.letters.size ⟨3, 4, 2⟩ := by rwa [hsize]
  have hlt : 6 < 2 ^ f.letters.size := by rw [hsize]; decide
  have hrows : ∀ row ∈ [4, 6], row < 2 ^ f.letters.size := by rw [hsize]; decide
  have htargets : (Form.ofTargets .listed .exact .sumOfProducts f.letters [4, 6]).cubes =
      coverOf .listed .exact true f.letters.size [4, 6] := by
    rw [Form.cubes, Form.body_ofTargets (by decide) (by rw [hsize]; decide)]
    rfl
  obtain ⟨c, hmem, hcov⟩ : ∃ c ∈ (Form.ofTargets .listed .exact .sumOfProducts f.letters
      [4, 6]).cubes, c.covers 4 = true := by
    rw [htargets, ← List.any_eq_true]
    exact (any_coverOf hrows (hrows 4 (by decide)) true).2 (by decide)
  refine ⟨by decide, hc, by decide, hcovers 3 (by decide) _ hc 6 (by decide), by decide,
    hvalue 6 3 2 (by decide), hd, fun hsame => ?_, f, hsize, rfl, hviews f _ hbuilt 6 hlt,
    heval f _ rfl (by simpa using hbuilt) 6 hlt, hrows, c, hmem, hcov,
    hfound .listed .exact .sumOfProducts f.letters _ hrows c hmem⟩
  exact absurd (hkeys 3 (by decide) _ _ true hc hd hsame) (by decide)

end TwoLevel
