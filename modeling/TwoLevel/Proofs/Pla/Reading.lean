import Mathlib
import TwoLevel.Pla
import TwoLevel.Proofs.Lists

/-!
# Reading descriptions of programmable logic arrays

This file reads the text format in which tables and forms are described. The reader takes a text
apart into lines and words. A line that starts with a period is a header, found by its keyword;
every other line is a cube. Reading a text that was written gives back its kind, its letters, the
number of its lines and the lines themselves.

## Main definitions

- `headersOf`, `cubeLinesOf` — the two sorts of lines of a text
- `PlaContent` — what a description says
- `PlaContent.ofText?` — a text read as a description

## Main statements

- `Pla.headersOf_render`, `Pla.cubeLinesOf_render` — the lines of a text that was written
- `Pla.ofText?_render` — reading a text that was written
-/

namespace TwoLevel

/-! ### Lines and words -/

/-- The lines of a text. Each of them ends with a newline. -/
def linesOf (text : List Char) : List (List Char) := (text.splitOn '\n').dropLast

/-- The words of a line, with one space between any two. -/
def wordsOf (line : List Char) : List (List Char) := line.splitOn ' '

/-- Whether a line is a header. -/
def isHeader (line : List Char) : Bool := line.head? = some '.'

/-- The words of each header of a text. -/
def headersOf (text : List Char) : List (List (List Char)) :=
  ((linesOf text).filter isHeader).map wordsOf

/-- The lines of a text that are not headers. -/
def cubeLinesOf (text : List Char) : List (List Char) :=
  (linesOf text).filter (!isHeader ·)

/-- The words behind a keyword in the first header that starts with it. -/
def argumentsOf? (keyword : List Char) (headers : List (List (List Char))) :
    Option (List (List Char)) :=
  headers.findSome? fun
    | [] => none
    | word :: arguments => if word = keyword then some arguments else none

/-- The number that a single word denotes in decimal. -/
def numberOf? : List (List Char) → Option Nat
  | [word] =>
    if !word.isEmpty && word.all Char.isDigit then some (Nat.ofDigitChars 10 word 0) else none
  | _ => none

/-- The character of which a word consists. -/
def letterOf? : List Char → Option Char
  | [c] => some c
  | _ => none

/-! ### Reading -/

/-- The input that a character of a pattern stands for. -/
def inputOf? : Char → Option (Option Bool)
  | '0' => some (some false)
  | '1' => some (some true)
  | '-' => some none
  | _ => none

/-- The output that a word stands for. -/
def outputOf? : List Char → Option Bool
  | ['0'] => some false
  | ['1'] => some true
  | _ => none

/-- A line of a pattern and an output. -/
def PlaLine.ofText? (line : List Char) : Option PlaLine :=
  match wordsOf line with
  | [pattern, digit] => do return ⟨← pattern.mapM inputOf?, ← outputOf? digit⟩
  | _ => none

/-- What a description says. -/
structure PlaContent where
  kind : PlaKind
  inputCount : Nat
  /-- The letters of the inputs in order. -/
  names : List Char
  /-- The number of cubes that a header announces. -/
  cubeCount : Nat
  cubes : List PlaLine
  deriving DecidableEq

namespace PlaContent

/-- The kind that the type header names. Without this header only ones are listed. -/
def kindOf? : Option (List (List Char)) → Option PlaKind
  | none => some .ones
  | some [['f', 'r']] => some .onesAndZeros
  | some _ => none

/-- A text that is read as a description of a single output. Its last line must be an end mark. -/
def ofText? (text : List Char) : Option PlaContent := do
  let headers := headersOf text
  let outputCount ← argumentsOf? ['.', 'o'] headers >>= numberOf?
  let last ← (linesOf text).getLast?
  guard (outputCount = 1 ∧ (last = ['.', 'e'] ∨ last = ['.', 'e', 'n', 'd']))
  return {
    kind := ← kindOf? (argumentsOf? ['.', 't', 'y', 'p', 'e'] headers)
    inputCount := ← argumentsOf? ['.', 'i'] headers >>= numberOf?
    names := ← ((argumentsOf? ['.', 'i', 'l', 'b'] headers).getD []).mapM letterOf?
    cubeCount := ← argumentsOf? ['.', 'p'] headers >>= numberOf?
    cubes := ← (cubeLinesOf text).mapM PlaLine.ofText? }

/-- Whether some cube with an output matches a row. -/
def Asserts (c : PlaContent) (output : Bool) (row : Nat) : Prop :=
  ∃ l ∈ c.cubes, l.output = output ∧ l.fits (.ofIndex row c.inputCount) = true

end PlaContent

/-! ### Reading words -/

theorem linesOf_flatMap {lines : List (List Char)} (h : ∀ line ∈ lines, '\n' ∉ line) :
    linesOf (lines.flatMap (· ++ ['\n'])) = lines := by
  induction lines with
  | nil => rfl
  | cons line lines ih =>
    have hline : '\n' ∉ line := h line List.mem_cons_self
    have hlines := ih fun line hmem => h line (List.mem_cons_of_mem _ hmem)
    rw [linesOf] at hlines ⊢
    rw [List.flatMap_cons, List.append_assoc, List.singleton_append,
      List.splitOn_append_cons_self_of_not_mem hline, List.dropLast_cons_of_ne_nil
      (List.splitOn_ne_nil _ _), hlines]

theorem wordsOf_append {word : List Char} (h : ' ' ∉ word) (rest : List Char) :
    wordsOf (word ++ ' ' :: rest) = word :: wordsOf rest :=
  List.splitOn_append_cons_self_of_not_mem h rest

theorem wordsOf_of_not_mem {word : List Char} (h : ' ' ∉ word) : wordsOf word = [word] :=
  List.splitOn_eq_singleton h

theorem wordsOf_pair (first second : List Char) (hfirst : ' ' ∉ first) (hsecond : ' ' ∉ second) :
    wordsOf (first ++ ' ' :: second) = [first, second] := by
  rw [wordsOf_append hfirst, wordsOf_of_not_mem hsecond]

theorem wordsOf_letters (word : List Char) {letters : List Char} (hword : ' ' ∉ word)
    (h : ' ' ∉ letters) :
    wordsOf (word ++ letters.flatMap fun c => [' ', c]) = word :: letters.map fun c => [c] := by
  induction letters generalizing word with
  | nil => rw [List.flatMap_nil, List.append_nil, wordsOf_of_not_mem hword, List.map_nil]
  | cons c cs ih =>
    rw [List.mem_cons, not_or] at h
    show wordsOf (word ++ ' ' :: ([c] ++ cs.flatMap fun c => [' ', c])) = _
    rw [wordsOf_append hword, ih [c] (by simpa using h.1) h.2, List.map_cons]

theorem not_mem_toDigits {c : Char} (hc : c.isDigit = false) (n : Nat) :
    c ∉ Nat.toDigits 10 n := by
  intro hmem
  have hdigit := Nat.isDigit_of_mem_toDigits (by decide) (by decide) hmem
  rw [hc] at hdigit
  cases hdigit

theorem numberOf?_toDigits (n : Nat) : numberOf? [Nat.toDigits 10 n] = some n := by
  have hall : (Nat.toDigits 10 n).all Char.isDigit = true := by
    rw [List.all_eq_true]
    exact fun c hc => Nat.isDigit_of_mem_toDigits (by decide) (by decide) hc
  have hne : (Nat.toDigits 10 n).isEmpty = false := by
    rw [List.isEmpty_eq_false_iff]
    exact Nat.toDigits_ne_nil
  rw [numberOf?, hall, hne, Nat.ofDigitChars_toDigits (by decide) (by decide)]
  rfl

theorem inputOf?_symbol (input : Option Bool) : inputOf? (Cube.symbol input) = some input := by
  cases input with
  | none => rfl
  | some value => cases value <;> rfl

/-! ### Lines of a description -/

theorem symbol_mem (input : Option Bool) : Cube.symbol input ∈ ['0', '1', '-'] := by
  cases input with
  | none => decide
  | some value => cases value <;> decide

theorem not_mem_map_symbol {c : Char} (hc : c ∉ ['0', '1', '-']) (inputs : List (Option Bool)) :
    c ∉ inputs.map Cube.symbol := by
  rintro hmem
  obtain ⟨input, -, rfl⟩ := List.mem_map.1 hmem
  exact hc (symbol_mem input)

theorem Letters.not_mem {c : Char} (s : Letters) (hc : c ∉ alphabet) : c ∉ s.toList :=
  fun hmem => hc (s.sublist.subset hmem)

namespace PlaLine

theorem ofText?_render (l : PlaLine) : ofText? l.render = some l := by
  have hwords : wordsOf l.render = [l.inputs.map Cube.symbol, [TruthTable.digit l.output]] := by
    have hdigit : ' ' ∉ [TruthTable.digit l.output] := by cases l.output <;> decide
    exact wordsOf_pair _ _ (not_mem_map_symbol (by decide) _) hdigit
  have houtput : outputOf? [TruthTable.digit l.output] = some l.output := by
    cases l.output <;> rfl
  rw [ofText?, hwords]
  simp only [mapM_map_eq_some inputOf?_symbol, houtput]
  rfl

theorem isHeader_render (l : PlaLine) : isHeader l.render = false := by
  rw [isHeader, decide_eq_false_iff_not, render]
  cases l.inputs with
  | nil => exact ne_of_beq_false rfl
  | cons input inputs =>
    rw [List.map_cons, List.cons_append, List.head?_cons, Option.some.injEq]
    intro hperiod
    have hmem := symbol_mem input
    rw [hperiod] at hmem
    exact absurd hmem (by decide)

theorem not_mem_render {c : Char} (hsymbol : c ∉ ['0', '1', '-']) (hspace : c ≠ ' ')
    (l : PlaLine) : c ∉ l.render := by
  have houtput : c ≠ TruthTable.digit l.output := by
    rintro rfl
    exact hsymbol (by cases l.output <;> decide)
  rw [render, List.mem_append, not_or]
  exact ⟨not_mem_map_symbol hsymbol _, by simp [hspace, houtput]⟩

end PlaLine

namespace Pla

variable (p : Pla)

/-- No header contains a newline, and each starts with a period. -/
theorem of_mem_headers : ∀ line ∈ p.headers ++ [p.footer], '\n' ∉ line ∧ isHeader line = true := by
  have hdigits : ∀ n, '\n' ∉ Nat.toDigits 10 n := not_mem_toDigits rfl
  have hletters : '\n' ∉ p.letters.toList := p.letters.not_mem (by decide)
  rw [headers, footer]
  cases p.kind <;> cases p.letters.toList.isEmpty <;>
    simp [isHeader, hdigits, hletters]

/-- The words of the headers that are written. -/
theorem map_wordsOf_headers : (p.headers ++ [p.footer]).map wordsOf =
    (if p.kind = .onesAndZeros then [[['.', 't', 'y', 'p', 'e'], ['f', 'r']]] else []) ++
    [[['.', 'i'], Nat.toDigits 10 p.letters.size]] ++
    (if p.letters.toList.isEmpty then []
      else [['.', 'i', 'l', 'b'] :: p.letters.toList.map fun c => [c]]) ++
    [[['.', 'o'], ['1']], [['.', 'o', 'b'], ['F']],
      [['.', 'p'], Nat.toDigits 10 p.lines.length]] ++ [[p.footer]] := by
  have htype : wordsOf ['.', 't', 'y', 'p', 'e', ' ', 'f', 'r'] =
      [['.', 't', 'y', 'p', 'e'], ['f', 'r']] := rfl
  have hcount : ∀ name n, name ≠ ' ' → wordsOf (['.', name, ' '] ++ Nat.toDigits 10 n) =
      [['.', name], Nat.toDigits 10 n] := fun name n hname =>
    wordsOf_pair ['.', name] _ (by simpa using hname.symm) (not_mem_toDigits rfl n)
  have hinputs := hcount 'i' p.letters.size (by decide)
  have hcubes := hcount 'p' p.lines.length (by decide)
  have hnames := wordsOf_letters ['.', 'i', 'l', 'b'] (by decide)
    (p.letters.not_mem (c := ' ') (by decide))
  have houtputs : wordsOf ['.', 'o', ' ', '1'] = [['.', 'o'], ['1']] := rfl
  have hname : wordsOf ['.', 'o', 'b', ' ', 'F'] = [['.', 'o', 'b'], ['F']] := rfl
  have hfooter : wordsOf p.footer = [p.footer] := by
    rw [footer]
    cases p.kind <;> rfl
  rw [headers]
  simp only [List.map_append, List.map_cons, List.map_nil, hfooter, hinputs, hcubes, houtputs,
    hname, apply_ite (List.map wordsOf), hnames, htype]

/-! ### Reading what was written -/

theorem linesOf_render :
    linesOf p.render = p.headers ++ p.lines.map PlaLine.render ++ [p.footer] := by
  refine linesOf_flatMap fun line hline => ?_
  rw [List.append_assoc, List.mem_append, List.mem_append, List.mem_map] at hline
  rcases hline with hline | ⟨l, -, rfl⟩ | hline
  · exact (p.of_mem_headers line (List.mem_append_left _ hline)).1
  · exact l.not_mem_render (by decide) (by decide)
  · exact (p.of_mem_headers line (List.mem_append_right _ hline)).1

theorem cubeLinesOf_render : cubeLinesOf p.render = p.lines.map PlaLine.render := by
  have hheaders : (p.headers.filter fun line => !isHeader line) = [] :=
    List.filter_eq_nil_iff.2 fun line hline => by
      simp [(p.of_mem_headers line (List.mem_append_left _ hline)).2]
  have hcubes : (p.lines.map PlaLine.render).filter (!isHeader ·) = p.lines.map PlaLine.render :=
    List.filter_eq_self.2 fun line hline => by
      obtain ⟨l, -, rfl⟩ := List.mem_map.1 hline
      simp [l.isHeader_render]
  have hfooter : [p.footer].filter (!isHeader ·) = [] :=
    List.filter_eq_nil_iff.2 fun line hline => by
      simp [(p.of_mem_headers line (List.mem_append_right _ hline)).2]
  rw [cubeLinesOf, linesOf_render, List.filter_append, List.filter_append, hheaders, hcubes,
    hfooter, List.nil_append, List.append_nil]

theorem headersOf_render : headersOf p.render = (p.headers ++ [p.footer]).map wordsOf := by
  have hheader : ∀ line ∈ p.headers ++ [p.footer], isHeader line = true :=
    fun line hline => (p.of_mem_headers line hline).2
  have hheaders : p.headers.filter isHeader = p.headers :=
    List.filter_eq_self.2 fun line hline => hheader line (List.mem_append_left _ hline)
  have hcubes : (p.lines.map PlaLine.render).filter isHeader = [] :=
    List.filter_eq_nil_iff.2 fun line hline => by
      obtain ⟨l, -, rfl⟩ := List.mem_map.1 hline
      simp [l.isHeader_render]
  have hfooter : [p.footer].filter isHeader = [p.footer] :=
    List.filter_eq_self.2 fun line hline => hheader line (List.mem_append_right _ hline)
  rw [headersOf, linesOf_render, List.filter_append, List.filter_append, hheaders, hcubes,
    hfooter, List.append_nil]

/-- What a description says when it is read. -/
def content : PlaContent :=
  ⟨p.kind, p.letters.size, p.letters.toList, p.lines.length, p.lines⟩

/-- Reading the text of a description gives back what was written. -/
theorem ofText?_render : PlaContent.ofText? p.render = some p.content := by
  have hheaders := p.headersOf_render.trans p.map_wordsOf_headers
  have hlast : (linesOf p.render).getLast? = some p.footer := by
    rw [p.linesOf_render, List.getLast?_append, List.getLast?_singleton, Option.some_or]
  have hmark : p.footer = ['.', 'e'] ∨ p.footer = ['.', 'e', 'n', 'd'] := by
    rw [footer]
    cases p.kind <;> decide
  rw [footer] at hheaders
  -- Which headers there are depends on the kind and on whether there are letters.
  have hkind : PlaContent.kindOf? (argumentsOf? ['.', 't', 'y', 'p', 'e'] (headersOf p.render)) =
      some p.kind := by
    rw [hheaders]
    cases p.kind <;> cases p.letters.toList.isEmpty <;> rfl
  have hinputs : argumentsOf? ['.', 'i'] (headersOf p.render) =
      some [Nat.toDigits 10 p.letters.size] := by
    rw [hheaders]
    cases p.kind <;> rfl
  have hnames : (argumentsOf? ['.', 'i', 'l', 'b'] (headersOf p.render)).getD [] =
      p.letters.toList.map fun c => [c] := by
    rw [hheaders]
    cases p.letters.toList <;> cases p.kind <;> rfl
  have houtputs : argumentsOf? ['.', 'o'] (headersOf p.render) = some [['1']] := by
    rw [hheaders]
    cases p.kind <;> cases p.letters.toList.isEmpty <;> rfl
  have hcubes : argumentsOf? ['.', 'p'] (headersOf p.render) =
      some [Nat.toDigits 10 p.lines.length] := by
    rw [hheaders]
    cases p.kind <;> cases p.letters.toList.isEmpty <;> rfl
  have hone : numberOf? [['1']] = some 1 := numberOf?_toDigits 1
  have hletters : (p.letters.toList.map fun c => [c]).mapM letterOf? = some p.letters.toList :=
    mapM_map_eq_some (fun c => (rfl : letterOf? [c] = some c)) _
  have hlines : (p.lines.map PlaLine.render).mapM PlaLine.ofText? = some p.lines :=
    mapM_map_eq_some PlaLine.ofText?_render _
  simp only [PlaContent.ofText?, hkind, hinputs, hnames, houtputs, hcubes, hlast, hone,
    Option.bind_eq_bind, Option.bind_some, numberOf?_toDigits, hletters, p.cubeLinesOf_render,
    hlines, hmark, true_and, guard, if_true]
  rfl

-- The text may list its cubes in any order.
example : PlaContent.ofText? ".i 2\n.ilb A B\n.o 1\n.ob F\n.p 2\n10 1\n01 1\n.e\n".toList =
    some ⟨.ones, 2, ['A', 'B'], 2,
      [⟨[some true, some false], true⟩, ⟨[some false, some true], true⟩]⟩ := by rfl

end Pla

end TwoLevel
