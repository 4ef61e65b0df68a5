import TwoLevel.Proofs.Minimize.Value
import TwoLevel.Proofs.Pla.Reading
import TwoLevel.Proofs.Tabulation

/-!
# Descriptions denote the functions that they are made from

This file proves that a description that was written for a table, or for the minimized forms of a
table, denotes the function of the table when its text is read. The rows of a table are cubes
without free inputs; the cubes of the sum of products cover the ones, and those of the product of
sums the zeros.

## Main definitions

- `IsDescription` — a text in the format, over some letters
- `PlaContent.Denotes` — the cubes of a description match the rows of a table
- `PlaContent.Lists` — the cubes of a description are the rows of a list
- `TruthTable.listed` — the rows of a table that its own description lists

## Main statements

- `Pla.asserts_ofTable`, `Pla.asserts_ofMinimized` — which rows match the cubes of an output
- `Pla.lists_ofTable` — the cubes of a table are its listed rows
- `pla_faithful` — the descriptions of a table and of its forms, and those of a formula
-/

namespace TwoLevel

/-- A text in the format. Its headers name the letters of the inputs in order and the number of its
other lines; each of these is a pattern with a character for every letter, and an output. -/
structure IsDescription (text : List Char) (letters : Letters) (content : PlaContent) : Prop where
  read_eq : PlaContent.ofText? text = some content
  inputCount_eq : content.inputCount = letters.size
  names_eq : content.names = letters.toList
  cubeCount_eq : content.cubeCount = (cubeLinesOf text).length
  pattern : ∀ line ∈ cubeLinesOf text, ∃ pattern output,
    line = pattern ++ [' ', TruthTable.digit output] ∧ pattern.length = letters.size ∧
      ∀ c ∈ pattern, c ∈ ['0', '1', '-']

/-- Whether a description denotes the function of a table over as many letters. If it lists only
ones, these are the rows that match a cube. If it lists zeros too, the rows that match a cube with
output one are the ones and those that match a cube with output zero the zeros, so that every row
matches cubes of one output only. -/
def PlaContent.Denotes (c : PlaContent) (t : TruthTable) : Prop :=
  match c.kind with
  | .ones => ∀ row < 2 ^ t.width,
      (∃ l ∈ c.cubes, l.fits (.ofIndex row t.width) = true) ↔ t.outputs[row]? = some true
  | .onesAndZeros => ∀ row < 2 ^ t.width,
      (c.Asserts true row ↔ row ∈ t.minterms) ∧ (c.Asserts false row ↔ row ∈ t.maxterms) ∧
        (c.Asserts true row ∨ c.Asserts false row) ∧ ¬(c.Asserts true row ∧ c.Asserts false row)

/-- Whether the cubes of a description are single rows. None has a free input, and each matches
exactly the row at its place of a list. -/
def PlaContent.Lists (c : PlaContent) (rows : List Nat) : Prop :=
  List.Forall₂ (fun l row => none ∉ l.inputs ∧ ∀ other < 2 ^ c.inputCount,
    l.fits (.ofIndex other c.inputCount) = true ↔ other = row) c.cubes rows

/-- The rows that the description of a table lists. -/
def TruthTable.listed (t : TruthTable) : PlaKind → List Nat
  | .ones => t.minterms
  | .onesAndZeros => List.range (2 ^ t.width)

variable {t : TruthTable} {kind : PlaKind} {letters : Letters} {row w : Nat} {output : Bool}

/-! ### Matching -/

namespace PlaLine

theorem fits_iff {g : Nat → Option Bool} :
    fits ⟨(List.range w).map g, output⟩ (.ofIndex row w) = true ↔
      ∀ position < w, ∀ value, g position = some value → bitAt row w position = value := by
  rw [fits, Assignment.ofIndex, List.zip_map', List.all_map, Bool.and_eq_true, List.all_eq_true]
  simp only [List.length_map, decide_true, true_and, List.mem_range, Function.comp_apply]
  refine forall₂_congr fun position _ => ?_
  cases g position with
  | none => simp
  | some value =>
    simp only [Option.all_some, beq_iff_eq, Option.some.injEq, forall_eq']
    exact eq_comm

/-- A row matches the cube of another row only if they are the same. -/
theorem fits_ofIndex (hw : w ≤ 64) {other : Nat} (hrow : row < 2 ^ w) (hother : other < 2 ^ w) :
    fits ⟨(Assignment.ofIndex row w).values.map some, output⟩ (.ofIndex other w) = true ↔
      other = row := by
  rw [Assignment.ofIndex, List.map_map, fits_iff]
  constructor
  · intro h
    -- The values of a row determine its index.
    have hvalues : Assignment.ofIndex other w = .ofIndex row w := by
      rw [Assignment.ofIndex, Assignment.ofIndex]
      congr 1
      exact List.map_congr_left fun position hposition =>
        h position (List.mem_range.1 hposition) _ rfl
    rw [← Assignment.index_ofIndex hother hw, hvalues, Assignment.index_ofIndex hrow hw]
  · rintro rfl position - value hvalue
    exact Option.some.inj hvalue

theorem fits_replicate : fits ⟨List.replicate w none, output⟩ (.ofIndex row w) = true := by
  have hrange : List.replicate w none = (List.range w).map fun _ => (none : Option Bool) := by
    rw [List.map_const', List.length_range]
  rw [hrange, fits_iff]
  simp

end PlaLine

/-- A row matches the inputs of a cube exactly if the cube covers it. -/
theorem Cube.Fits.fits_inputs {c : Cube} (hc : c.Fits w) (hw : w ≤ 32) (hrow : row < 2 ^ w) :
    PlaLine.fits ⟨c.inputs, output⟩ (.ofIndex row w) = true ↔ c.covers row = true := by
  rw [inputs, hc.width_eq, PlaLine.fits_iff, hc.covers_iff hw hrow]
  simp only [hc.value?_eq, bitAt]
  constructor
  · intro h place hplace
    have hback : w - 1 - (w - 1 - place) = place := by omega
    have hposition := h (w - 1 - place) (by omega)
    rwa [hback] at hposition
  · intro h position hposition
    exact h (w - 1 - position) (by omega)

/-! ### Texts -/

/-- The text of a description with a pattern for all letters in every line. -/
theorem Pla.isDescription (p : Pla) (h : ∀ l ∈ p.lines, l.inputs.length = p.letters.size) :
    IsDescription p.render p.letters p.content where
  read_eq := p.ofText?_render
  inputCount_eq := rfl
  names_eq := rfl
  cubeCount_eq := by rw [p.cubeLinesOf_render, List.length_map]; rfl
  pattern line hline := by
    rw [p.cubeLinesOf_render] at hline
    obtain ⟨l, hl, rfl⟩ := List.mem_map.1 hline
    refine ⟨_, l.output, rfl, (List.length_map ..).trans (h l hl), fun c hc => ?_⟩
    obtain ⟨input, -, rfl⟩ := List.mem_map.1 hc
    exact symbol_mem input

/-- Cubes that match exactly the listed rows denote the function of a table. -/
theorem PlaContent.denotes_of_asserts {c : PlaContent} (hinputs : c.inputCount = t.width)
    (h : ∀ row < 2 ^ t.width, ∀ output, c.Asserts output row ↔
      t.outputs[row]? = some output ∧ (output = true ∨ c.kind = .onesAndZeros)) :
    c.Denotes t := by
  rw [Denotes]
  split
  · next hkind =>
    intro row hrow
    rw [hkind] at h
    rw [← hinputs]
    constructor
    · rintro ⟨l, hl, hfits⟩
      -- The output of this cube is one, since no zeros are listed.
      obtain ⟨houtput, hone⟩ := (h row hrow l.output).1 ⟨l, hl, rfl, hfits⟩
      rw [hone.resolve_right (by decide)] at houtput
      exact houtput
    · intro hone
      obtain ⟨l, hl, -, hfits⟩ := (h row hrow true).2 ⟨hone, .inl rfl⟩
      exact ⟨l, hl, hfits⟩
  · next hkind =>
    intro row hrow
    simp only [h row hrow, hkind, or_true, and_true, TruthTable.minterms, TruthTable.maxterms,
      TruthTable.mem_indicesOf, true_and]
    have hlt : row < t.outputs.length := by rwa [t.length_outputs, t.letters.rowCount_eq]
    rw [List.getElem?_eq_getElem hlt]
    cases t.outputs[row] <;> simp

/-! ### Tables -/

namespace TruthTable

/-- The outputs that the description of a table lists, with their indices. -/
def entries (t : TruthTable) (kind : PlaKind) : List (Bool × Nat) :=
  t.outputs.zipIdx.filter fun entry => entry.1 || kind = .onesAndZeros

theorem mem_entries : (output, row) ∈ t.entries kind ↔
    t.outputs[row]? = some output ∧ (output = true ∨ kind = .onesAndZeros) := by
  rw [entries, List.mem_filter, List.mem_zipIdx_iff_getElem?, Bool.or_eq_true, decide_eq_true_eq]

theorem lt_of_mem_entries {entry : Bool × Nat} (h : entry ∈ t.entries kind) :
    entry.2 < 2 ^ t.width := by
  obtain ⟨hlt, -⟩ := List.getElem?_eq_some_iff.1 (mem_entries.1 h).1
  rwa [t.length_outputs, t.letters.rowCount_eq] at hlt

theorem map_snd_entries (t : TruthTable) (kind : PlaKind) :
    (t.entries kind).map Prod.snd = t.listed kind := by
  cases kind with
  | ones =>
    rw [entries, ← List.filterMap_eq_map, List.filterMap_filter]
    exact List.filterMap_congr fun ⟨output, index⟩ _ => by cases output <;> rfl
  | onesAndZeros =>
    rw [entries, List.filter_eq_self.2 fun entry _ => by simp, List.zipIdx_map_snd,
      t.length_outputs, t.letters.rowCount_eq, ← List.range_eq_range']
    rfl

theorem pairwise_listed (t : TruthTable) (kind : PlaKind) :
    (t.listed kind).Pairwise (· < ·) := by
  cases kind with
  | ones => exact pairwise_indicesOf true t
  | onesAndZeros => exact List.pairwise_lt_range

end TruthTable

namespace Pla

theorem lines_ofTable (kind : PlaKind) (t : TruthTable) :
    (ofTable kind t).lines = (t.entries kind).map fun entry =>
      ⟨(Assignment.ofIndex entry.2 t.width).values.map some, entry.1⟩ := by
  rw [ofTable, TruthTable.rows, List.filter_map, List.map_map]
  rfl

theorem length_inputs_ofTable : ∀ l ∈ (ofTable kind t).lines, l.inputs.length = t.width := by
  rw [lines_ofTable]
  intro l hl
  obtain ⟨entry, -, rfl⟩ := List.mem_map.1 hl
  rw [List.length_map, Assignment.ofIndex, List.length_map, List.length_range]

theorem lists_ofTable : (ofTable kind t).content.Lists (t.listed kind) := by
  rw [PlaContent.Lists, content, lines_ofTable, ← t.map_snd_entries, List.forall₂_map_left_iff,
    List.forall₂_map_right_iff, List.forall₂_same]
  intro entry hentry
  have hw : t.width ≤ 64 := t.letters.size_le_index
  exact ⟨by simp, fun other hother =>
    PlaLine.fits_ofIndex hw (TruthTable.lt_of_mem_entries hentry) hother⟩

/-- The rows that match the cubes of an output are those that the table lists with this output. -/
theorem asserts_ofTable (hrow : row < 2 ^ t.width) :
    (ofTable kind t).content.Asserts output row ↔
      t.outputs[row]? = some output ∧ (output = true ∨ kind = .onesAndZeros) := by
  have hw : t.width ≤ 64 := t.letters.size_le_index
  rw [← TruthTable.mem_entries]
  show (∃ l ∈ (ofTable kind t).lines, l.output = output ∧ l.fits (.ofIndex row t.width) = true) ↔ _
  rw [lines_ofTable]
  constructor
  · rintro ⟨l, hl, rfl, hfits⟩
    obtain ⟨entry, hentry, rfl⟩ := List.mem_map.1 hl
    have hsame := (PlaLine.fits_ofIndex hw (TruthTable.lt_of_mem_entries hentry) hrow).1 hfits
    rwa [hsame]
  · intro hentry
    exact ⟨_, List.mem_map_of_mem hentry, rfl, (PlaLine.fits_ofIndex hw hrow hrow).2 rfl⟩

/-! ### Minimized forms -/

theorem output_of_mem_linesOfForm {f : Form} {l : PlaLine} (hl : l ∈ linesOfForm f output) :
    l.output = output := by
  rw [linesOfForm] at hl
  split at hl
  · split at hl
    · rw [List.mem_singleton.1 hl]
    · exact absurd hl List.not_mem_nil
  · obtain ⟨c, -, rfl⟩ := List.mem_map.1 hl
    rfl

section

variable {f : Form} (hfits : ∀ c ∈ f.cubes, c.Fits f.letters.size)

include hfits

theorem length_inputs_linesOfForm {l : PlaLine} (hl : l ∈ linesOfForm f output) :
    l.inputs.length = f.letters.size := by
  rw [linesOfForm] at hl
  split at hl
  · split at hl
    · rw [List.mem_singleton.1 hl, List.length_replicate]
    · exact absurd hl List.not_mem_nil
  · next cs hbody =>
    obtain ⟨c, hc, rfl⟩ := List.mem_map.1 hl
    rw [Form.cubes, hbody] at hfits
    rw [Cube.inputs, List.length_map, List.length_range, (hfits c hc).width_eq]

/-- A row matches a line of a form exactly if the form has the value of a plain literal there. -/
theorem exists_linesOfForm_fits (hrow : row < 2 ^ f.letters.size) :
    (∃ l ∈ linesOfForm f f.kind.plain, l.fits (.ofIndex row f.letters.size) = true) ↔
      f.evalIndex row = f.kind.plain := by
  rw [linesOfForm]
  split
  · next value hbody =>
    rw [Form.evalIndex_of_constant hbody]
    split
    · next hvalue => simp [hvalue, PlaLine.fits_replicate]
    · next hvalue => simp [hvalue]
  · next cs hbody =>
    rw [Form.evalIndex_of_cubes hbody, List.any_eq_true]
    rw [Form.cubes, hbody] at hfits
    have hmatch : ∀ c ∈ cs, PlaLine.fits ⟨c.inputs, f.kind.plain⟩ (.ofIndex row f.letters.size) =
        true ↔ c.covers row = true :=
      fun c hc => (hfits c hc).fits_inputs f.letters.size_le_word hrow
    constructor
    · rintro ⟨l, hl, hfit⟩
      obtain ⟨c, hc, rfl⟩ := List.mem_map.1 hl
      exact ⟨c, hc, (hmatch c hc).1 hfit⟩
    · rintro ⟨c, hc, hcov⟩
      exact ⟨_, List.mem_map_of_mem hc, (hmatch c hc).2 hcov⟩

end

variable {strategy : Strategy} {m : Minimized}

/-- The lines for a form match exactly its targets, and all have the same output. -/
theorem exists_linesOfForm_ofTargets {targets : List Nat} (form : FormKind)
    (hnodup : targets.Nodup) (hrows : ∀ row ∈ targets, row < 2 ^ letters.size)
    (hrow : row < 2 ^ letters.size) (strategy : Strategy) (output : Bool) :
    (∃ l ∈ linesOfForm (.ofTargets .listed strategy form letters targets) form.plain,
      l.output = output ∧ l.fits (.ofIndex row letters.size) = true) ↔
      output = form.plain ∧ row ∈ targets := by
  let f : Form := .ofTargets .listed strategy form letters targets
  have hcubes : ∀ c ∈ f.cubes, c.Fits letters.size :=
    fun c hc => (Form.isPrime_of_mem_cubes hrows hc).fits
  have hmatch : (∃ l ∈ linesOfForm f form.plain, l.fits (.ofIndex row letters.size) = true) ↔
      row ∈ targets :=
    (exists_linesOfForm_fits hcubes hrow).trans (Form.evalIndex_ofTargets hnodup hrows hrow)
  rw [← hmatch]
  constructor
  · rintro ⟨l, hl, rfl, hfits⟩
    exact ⟨output_of_mem_linesOfForm hl, l, hl, hfits⟩
  · rintro ⟨rfl, l, hl, hfits⟩
    exact ⟨l, hl, output_of_mem_linesOfForm hl, hfits⟩

theorem length_inputs_ofMinimized (hwidth : 0 < t.width) (hm : t.minimize strategy = .ok m) :
    ∀ l ∈ (ofMinimized kind m).lines, l.inputs.length = t.width := by
  rw [TruthTable.minimize_eq strategy hwidth] at hm
  obtain rfl := Except.ok.inj hm
  intro l hl
  rw [ofMinimized, List.mem_append] at hl
  rcases hl with hl | hl
  · exact length_inputs_linesOfForm
      (fun _ hc => (Form.isPrime_of_mem_cubes (fun _ => t.isPartition.lt_of_mem) hc).fits) hl
  · split at hl
    · exact length_inputs_linesOfForm
        (fun _ hc =>
          (Form.isPrime_of_mem_cubes (fun _ => t.isPartition.symm.lt_of_mem) hc).fits) hl
    · exact absurd hl List.not_mem_nil

/-- The cubes of the sum of products assert the ones, and those of the product of sums the zeros. -/
theorem asserts_ofMinimized (hwidth : 0 < t.width) (hm : t.minimize strategy = .ok m)
    (hrow : row < 2 ^ t.width) : (ofMinimized kind m).content.Asserts output row ↔
      t.outputs[row]? = some output ∧ (output = true ∨ kind = .onesAndZeros) := by
  rw [TruthTable.minimize_eq strategy hwidth] at hm
  obtain rfl := Except.ok.inj hm
  have hpart := t.isPartition
  -- Cubes with output one come from the sum of products alone, and those with output zero from the
  -- product of sums.
  let ones := linesOfForm (.ofTargets .listed strategy .sumOfProducts t.letters t.minterms) true
  let zeros := linesOfForm (.ofTargets .listed strategy .productOfSums t.letters t.maxterms) false
  have hones : (∃ l ∈ ones, l.output = output ∧ l.fits (.ofIndex row t.width) = true) ↔
      output = true ∧ t.outputs[row]? = some true := by
    rw [← TruthTable.mem_indicesOf]
    exact exists_linesOfForm_ofTargets .sumOfProducts hpart.nodup (fun _ => hpart.lt_of_mem) hrow
      strategy output
  have hzeros : (∃ l ∈ zeros, l.output = output ∧ l.fits (.ofIndex row t.width) = true) ↔
      output = false ∧ t.outputs[row]? = some false := by
    rw [← TruthTable.mem_indicesOf]
    exact exists_linesOfForm_ofTargets .productOfSums hpart.symm.nodup
      (fun _ => hpart.symm.lt_of_mem) hrow strategy output
  show (∃ l ∈ ones ++ if kind = .onesAndZeros then zeros else [],
    l.output = output ∧ l.fits (.ofIndex row t.width) = true) ↔ _
  simp only [List.mem_append, or_and_right, exists_or, hones]
  cases kind with
  | ones => cases output <;> simp
  | onesAndZeros =>
    simp only [if_true, hzeros]
    cases output <;> simp

end Pla

/-- Descriptions are faithful. The description of a table is a text from which the function of the
table is read back; its cubes have no free inputs and match one listed row each, in ascending order.
If the table has letters, the descriptions of its forms by either strategy denote the same function.
The descriptions that are written for a formula, from its table and from its forms, both denote the
function of its expression: the same rows match their cubes of either output. -/
theorem pla_faithful (t : TruthTable) (kind : PlaKind) :
    (∃ c, IsDescription (Pla.ofTable kind t).render t.letters c ∧ c.kind = kind ∧ c.Denotes t ∧
      c.Lists (t.listed kind) ∧ (t.listed kind).Pairwise (· < ·)) ∧
    (∀ strategy, 0 < t.width → ∃ m c, t.minimize strategy = .ok m ∧
      IsDescription (Pla.ofMinimized kind m).render t.letters c ∧ c.kind = kind ∧ c.Denotes t) ∧
    ∀ (config : Config) (text : List Char) (f : Formula), Formula.parse text = .ok f →
      TruthTable.ofFormula config.limit f = .ok t → ∃ m c d, f.minimize config = .ok m ∧
        IsDescription (Pla.ofTable kind t).render f.letters c ∧
        IsDescription (Pla.ofMinimized kind m).render f.letters d ∧ c.kind = d.kind ∧
        ∀ row < 2 ^ f.letters.size, (∀ output, c.Asserts output row ↔ d.Asserts output row) ∧
          ∀ v, f.letters.ReadsRow row v → (c.Asserts true row ↔ f.root.eval v = true) := by
  refine ⟨⟨_, Pla.isDescription _ Pla.length_inputs_ofTable, rfl, ?_, Pla.lists_ofTable,
    t.pairwise_listed kind⟩, fun strategy hwidth => ?_, fun config text f hf ht => ?_⟩
  · exact PlaContent.denotes_of_asserts rfl fun row hrow output => Pla.asserts_ofTable hrow
  · have hm := TruthTable.minimize_eq strategy hwidth
    refine ⟨_, _, hm, Pla.isDescription _ (Pla.length_inputs_ofMinimized hwidth hm), rfl, ?_⟩
    exact PlaContent.denotes_of_asserts rfl fun row hrow output =>
      Pla.asserts_ofMinimized hwidth hm hrow
  · have htable := TruthTable.tabulates_of_ofFormula hf ht
    have hletters : t.letters = f.letters := htable.letters_eq
    rw [← hletters] at htable ⊢
    have hwidth : 0 < t.width := by
      rw [TruthTable.width, hletters]
      exact Formula.size_pos hf
    have hm := TruthTable.minimize_eq config.strategy hwidth
    have hforms := Formula.minimize_of_ofFormula ht hm
    refine ⟨_, _, _, hforms, Pla.isDescription _ Pla.length_inputs_ofTable,
      Pla.isDescription _ (Pla.length_inputs_ofMinimized hwidth hm), rfl,
      fun row hrow => ⟨fun output => ?_, fun v hv => ?_⟩⟩
    · rw [Pla.asserts_ofTable hrow, Pla.asserts_ofMinimized hwidth hm hrow]
    · rw [Pla.asserts_ofTable hrow, htable.output_eq row hrow v hv]
      simp

/-- The descriptions of an exclusive disjunction and of its forms. -/
theorem pla_faithful_xor :
    ∃ f t, Formula.parse ['a', '^', 'b'] = .ok f ∧ TruthTable.ofFormula 20 f = .ok t ∧
      0 < t.width ∧
      (∃ m c, t.minimize .exact = .ok m ∧
        IsDescription (Pla.ofMinimized .onesAndZeros m).render t.letters c ∧ c.Denotes t) ∧
      ∃ m d, f.minimize ⟨20, .greedy⟩ = .ok m ∧
        IsDescription (Pla.ofMinimized .onesAndZeros m).render f.letters d ∧
        ∀ row < 2 ^ f.letters.size, ∀ v, f.letters.ReadsRow row v →
          (d.Asserts true row ↔ f.root.eval v = true) := by
  let f : Formula := ⟨.binary .xor (.letter 'A') (.letter 'B'), .ofChars ['A', 'B']⟩
  have hf : Formula.parse ['a', '^', 'b'] = .ok f := rfl
  have hlimit : ¬TruthTable.effectiveLimit 20 < f.letters.size := by decide
  obtain ⟨t, ht⟩ : ∃ t, TruthTable.ofFormula 20 f = .ok t := by
    rw [TruthTable.ofFormula, if_neg hlimit]
    exact ⟨_, rfl⟩
  have hwidth : 0 < t.width := by
    rw [TruthTable.width, (TruthTable.tabulates_of_ofFormula hf ht).letters_eq]
    decide
  obtain ⟨-, hminimized, hformula⟩ := pla_faithful t .onesAndZeros
  obtain ⟨m, c, hm, htext, -, hdenotes⟩ := hminimized .exact hwidth
  obtain ⟨m', c', d, hm', -, htext', -, hsame⟩ := hformula ⟨20, .greedy⟩ _ f hf ht
  refine ⟨f, t, hf, ht, hwidth, ⟨m, c, hm, htext, hdenotes⟩, m', d, hm', htext', ?_⟩
  intro row hrow v hv
  rw [← (hsame row hrow).1 true, (hsame row hrow).2 v hv]

end TwoLevel
