import TwoLevel.Proofs.Assignment
import TwoLevel.Proofs.Lists

/-!
# Arithmetic of row indices

This file relates the index of an assignment to the binary number that its values spell, the first
value being the most significant digit. A word of sixty-four digits holds the last sixty-four values
of a list. Up to this length, going from values to an index and back loses nothing, and indices are
ordered as the lists of values are.

The same computations are then carried out on words, where a difference below zero and a shift by
the size of a word or more have no result. They have one whenever the word has room for all values.

## Main definitions

- `binaryValue` — the number that a list of binary digits spells
- `IndexWord` — words of sixty-four digits
- `IndexWord.sub?`, `IndexWord.shiftLeft?`, `IndexWord.shiftRight?` — checked operations on words
- `bitAt?`, `Assignment.ofIndex?`, `Assignment.index?` — row indices in checked arithmetic

## Main statements

- `Assignment.index_eq_binaryValue` — the index of an assignment
- `Assignment.index_ofIndex_mod` — the index of the values of any index
- `Assignment.index_lt_index_iff` — the order of indices
- `Assignment.index?_eq`, `Assignment.ofIndex?_eq` — when checked arithmetic has a result
- `index_arithmetic` — all of these together
-/

namespace TwoLevel

/-! ### Binary numbers -/

/-- The number that a list of binary digits spells, the first being the most significant one. -/
def binaryValue (digits : List Bool) : Nat := Nat.ofDigits 2 (digits.reverse.map Bool.toNat)

theorem binaryValue_append (front back : List Bool) :
    binaryValue (front ++ back) = 2 ^ back.length * binaryValue front + binaryValue back := by
  rw [binaryValue, List.reverse_append, List.map_append, Nat.ofDigits_append, List.length_map,
    List.length_reverse, Nat.add_comm]
  rfl

theorem binaryValue_singleton (digit : Bool) : binaryValue [digit] = digit.toNat :=
  Nat.ofDigits_singleton

theorem binaryValue_cons (digit : Bool) (digits : List Bool) :
    binaryValue (digit :: digits) = 2 ^ digits.length * digit.toNat + binaryValue digits := by
  rw [← List.singleton_append, binaryValue_append, binaryValue_singleton]

theorem binaryValue_lt (digits : List Bool) : binaryValue digits < 2 ^ digits.length := by
  have hdigits : ∀ digit ∈ digits.reverse.map Bool.toNat, digit < 2 := by
    intro digit hdigit
    obtain ⟨value, -, rfl⟩ := List.mem_map.1 hdigit
    exact value.toNat_lt
  have hlt := Nat.ofDigits_lt_base_pow_length (by decide) hdigits
  rwa [List.length_map, List.length_reverse] at hlt

/-- The lowest digits of a number are the last that are spelled. -/
theorem binaryValue_mod (n : Nat) (digits : List Bool) :
    binaryValue digits % 2 ^ n = binaryValue (digits.rtake (min n digits.length)) := by
  by_cases hn : n ≤ digits.length
  · have hsplit := List.take_append_drop (digits.length - n) digits
    have hlength : (digits.drop (digits.length - n)).length = n := by
      rw [List.length_drop]
      omega
    have hlt := binaryValue_lt (digits.drop (digits.length - n))
    rw [hlength] at hlt
    rw [Nat.min_eq_left hn, List.rtake]
    conv_lhs => rw [← hsplit, binaryValue_append, hlength, Nat.mul_add_mod, Nat.mod_eq_of_lt hlt]
  · have hlt : binaryValue digits < 2 ^ n :=
      (binaryValue_lt digits).trans_le (Nat.pow_le_pow_right (by decide) (Nat.le_of_not_le hn))
    rw [Nat.min_eq_right (Nat.le_of_not_le hn), List.rtake, Nat.sub_self, List.drop_zero,
      Nat.mod_eq_of_lt hlt]

/-- Numbers with equally many digits are ordered by the first digit in which they differ. -/
theorem binaryValue_lt_binaryValue_iff {xs ys : List Bool} (h : xs.length = ys.length) :
    binaryValue xs < binaryValue ys ↔ xs < ys := by
  induction xs generalizing ys with
  | nil =>
    obtain rfl : ys = [] := List.eq_nil_of_length_eq_zero h.symm
    simp
  | cons x xs ih =>
    cases ys with
    | nil => cases h
    | cons y ys =>
      rw [List.length_cons, List.length_cons, Nat.add_right_cancel_iff] at h
      have hxs := binaryValue_lt xs
      have hys := binaryValue_lt ys
      rw [List.cons_lt_cons_iff, ← ih h, binaryValue_cons, binaryValue_cons, ← h]
      rw [← h] at hys
      -- Whatever the other digits are, they do not make up for a difference in the first.
      cases x <;> cases y <;> simp [Bool.lt_iff] <;> omega

/-! ### Values and indices -/

namespace Assignment

/-- The index of an assignment is the number that its values spell, cut to a word. -/
theorem index_eq_mod (values : List Bool) :
    index ⟨values⟩ = binaryValue values % UInt64.size := by
  induction values using List.reverseRecOn with
  | nil => rfl
  | append_singleton values value ih =>
    rw [index_append, ih, binaryValue_append, binaryValue_singleton, List.length_singleton, pow_one]
    exact ((Nat.mod_modEq _ _).mul_left 2).add_right _

/-- The index of an assignment is the number that its last sixty-four values spell. -/
theorem index_eq_binaryValue (values : List Bool) :
    index ⟨values⟩ = binaryValue (values.rtake (min 64 values.length)) := by
  rw [index_eq_mod, ← binaryValue_mod]
  rfl

theorem index_lt_size (a : Assignment) : a.index < UInt64.size := by
  rw [index_eq_mod]
  exact Nat.mod_lt _ (by decide)

/-- The values of a row are read from the lowest digits of its index. -/
theorem ofIndex_mod (index w : Nat) : ofIndex (index % 2 ^ w) w = ofIndex index w := by
  rw [ofIndex, ofIndex]
  refine congrArg mk (List.map_congr_left fun position hposition => ?_)
  have hplace : w - 1 - position < w := by
    have hlt := List.mem_range.1 hposition
    omega
  rw [bitAt, bitAt, Nat.testBit_mod_two_pow, decide_eq_true hplace, Bool.true_and]

/-- The values of any index spell its lowest digits. -/
theorem index_ofIndex_mod {w : Nat} (hw : w ≤ 64) (index : Nat) :
    (ofIndex index w).index = index % 2 ^ w := by
  rw [← ofIndex_mod, index_ofIndex (Nat.mod_lt _ (Nat.two_pow_pos w)) hw]

theorem index_eq_of_length_le {a : Assignment} (h : a.values.length ≤ 64) :
    a.index = binaryValue a.values := by
  rw [index_eq_mod, Nat.mod_eq_of_lt]
  exact (binaryValue_lt _).trans_le (Nat.pow_le_pow_right (by decide) h)

/-- Indices are ordered as the lists of values are. -/
theorem index_lt_index_iff {a b : Assignment} (hlength : a.values.length = b.values.length)
    (h : a.values.length ≤ 64) : a.index < b.index ↔ a.values < b.values := by
  rw [index_eq_of_length_le h, index_eq_of_length_le (hlength ▸ h),
    binaryValue_lt_binaryValue_iff hlength]

end Assignment

/-! ### Checked arithmetic -/

/-- Words of sixty-four binary digits, by which rows are numbered. -/
abbrev IndexWord := UInt64

namespace IndexWord

/-- The difference of two words, unless it is below zero. -/
def sub? (v w : IndexWord) : Option IndexWord := if w ≤ v then some (v - w) else none

/-- A word shifted to the left, unless the amount reaches the size of a word. -/
def shiftLeft? (w amount : IndexWord) : Option IndexWord :=
  if amount < 64 then some (w <<< amount) else none

/-- A word shifted to the right, unless the amount reaches the size of a word. -/
def shiftRight? (w amount : IndexWord) : Option IndexWord :=
  if amount < 64 then some (w >>> amount) else none

end IndexWord

/-- The digit of an index that belongs to a position, in checked arithmetic. -/
def bitAt? (index width position : IndexWord) : Option Bool := do
  let last ← IndexWord.sub? width 1
  let place ← IndexWord.sub? last position
  let shifted ← IndexWord.shiftRight? index place
  return shifted &&& 1 == 1

namespace Assignment

/-- The values that a row gives to some variables, in checked arithmetic. -/
def ofIndex? (index width : IndexWord) : Option Assignment := do
  let values ← (List.range width.toNat).mapM fun position => bitAt? index width (.ofNat position)
  return ⟨values⟩

/-- The index of the row that an assignment names, in checked arithmetic. -/
def index? (a : Assignment) : Option IndexWord :=
  a.values.foldlM (fun acc value => do
    let shifted ← IndexWord.shiftLeft? acc 1
    return shifted ||| value.toUInt64) 0

end Assignment

/-- Neither difference is below zero at a position of the row, and the shift is checked. -/
theorem bitAt?_eq {width position : IndexWord} (h : position < width) (index : IndexWord) :
    bitAt? index width position = if width.toNat - 1 - position.toNat < 64 then
      some (bitAt index.toNat width.toNat position.toNat) else none := by
  have hlt : position.toNat < width.toNat := UInt64.lt_iff_toNat_lt.1 h
  have hone : (1 : UInt64) ≤ width := by
    rw [UInt64.le_iff_toNat_le, UInt64.toNat_one]
    omega
  have hlast : (width - 1).toNat = width.toNat - 1 := UInt64.toNat_sub_of_le _ _ hone
  have hposition : position ≤ width - 1 := by
    rw [UInt64.le_iff_toNat_le, hlast]
    omega
  have hplace : (width - 1 - position).toNat = width.toNat - 1 - position.toNat := by
    rw [UInt64.toNat_sub_of_le _ _ hposition, hlast]
  have hsmall : width - 1 - position < 64 ↔ width.toNat - 1 - position.toNat < 64 := by
    rw [UInt64.lt_iff_toNat_lt, hplace]
    rfl
  simp only [bitAt?, IndexWord.sub?, IndexWord.shiftRight?, if_pos hone, if_pos hposition, hsmall,
    Option.bind_eq_bind, Option.bind_some]
  split
  · next hshift =>
    have hdigit : (index >>> (width - 1 - position) &&& 1).toNat =
        index.toNat >>> (width.toNat - 1 - position.toNat) % 2 := by
      rw [UInt64.toNat_and, UInt64.toNat_shiftRight, hplace, Nat.mod_eq_of_lt hshift,
        UInt64.toNat_one, Nat.and_one_is_mod]
    rw [Option.bind_some, bitAt, Nat.testBit_eq_decide_div_mod_eq, ← Nat.shiftRight_eq_div_pow,
      ← hdigit]
    exact congrArg some (decide_eq_decide.2 UInt64.toNat_inj.symm)
  · rfl

namespace Assignment

/-- In checked arithmetic the values of a row are found exactly if a word has room for them. -/
theorem ofIndex?_eq (index width : IndexWord) : ofIndex? index width =
    if width ≤ 64 then some (ofIndex index.toNat width.toNat) else none := by
  have hposition : ∀ {position : Nat}, position < width.toNat →
      bitAt? index width (.ofNat position) = if width.toNat - 1 - position < 64 then
        some (bitAt index.toNat width.toNat position) else none := by
    intro position hlt
    have htoNat : (UInt64.ofNat position).toNat = position :=
      UInt64.toNat_ofNat_of_lt' (hlt.trans width.toNat_lt)
    rw [bitAt?_eq (UInt64.lt_iff_toNat_lt.2 (by rwa [htoNat])), htoNat]
  have hwidth : width ≤ 64 ↔ width.toNat ≤ 64 := UInt64.le_iff_toNat_le
  rw [ofIndex?]
  by_cases hle : width.toNat ≤ 64
  · have hvalues : (List.range width.toNat).mapM (fun position =>
        bitAt? index width (.ofNat position)) =
          some ((List.range width.toNat).map (bitAt index.toNat width.toNat)) := by
      refine mapM_eq_some (List.forall₂_map_right_iff.2 ?_)
      refine List.forall₂_same.2 fun position hmem => ?_
      rw [hposition (List.mem_range.1 hmem), if_pos (by omega)]
    rw [hvalues, if_pos (hwidth.2 hle)]
    rfl
  · -- The first value would have to be shifted by the size of a word or more.
    have hfirst : bitAt? index width (.ofNat 0) = none := by
      rw [hposition (by omega), if_neg (by omega)]
    obtain ⟨n, hn⟩ : ∃ n, width.toNat = n + 1 := ⟨width.toNat - 1, by omega⟩
    rw [if_neg (mt hwidth.1 hle), hn, List.range_succ_eq_map, List.mapM_cons, hfirst]
    rfl

/-- Checked arithmetic always finds the index of an assignment. -/
theorem index?_eq (a : Assignment) : a.index? = some (.ofNat a.index) := by
  obtain ⟨values⟩ := a
  induction values using List.reverseRecOn with
  | nil => rfl
  | append_singleton values value ih =>
    have hstep : index? ⟨values ++ [value]⟩ = (index? ⟨values⟩).bind fun acc =>
        some (acc <<< 1 ||| value.toUInt64) := by
      rw [index?, index?, List.foldlM_append]
      rfl
    have hvalue : value.toUInt64.toNat = value.toNat := by cases value <;> rfl
    rw [hstep, ih, Option.bind_some, Option.some.injEq, ← UInt64.toNat_inj, UInt64.toNat_or,
      UInt64.toNat_shiftLeft, hvalue, UInt64.toNat_ofNat_of_lt' (index_lt_size _),
      UInt64.toNat_ofNat_of_lt' (index_lt_size _)]
    -- The lowest digit of a shifted word is free for the next value.
    calc index ⟨values⟩ <<< 1 % 2 ^ 64 ||| value.toNat
        = (index ⟨values⟩ <<< 1 ||| value.toNat) % 2 ^ 64 := by
          rw [Nat.or_mod_two_pow, Nat.mod_eq_of_lt (value.toNat_lt.trans (by decide))]
      _ = (index ⟨values⟩ <<< 1 + value.toNat) % 2 ^ 64 := by
          rw [Nat.shiftLeft_add_eq_or_of_lt value.toNat_lt]
      _ = index ⟨values ++ [value]⟩ := by rw [index_append, Nat.shiftLeft_eq, Nat.mul_comm]; rfl

end Assignment

/-- The arithmetic of row indices. The index of an assignment is the binary number of its last
sixty-four values, the first of them being the most significant digit, and so it fits into a word.
For up to sixty-four variables, the values of an index have its lowest digits as their index, an
assignment is given back by its index, and indices are ordered as the lists of values are. On words,
no shift amount reaches the size of a word and no difference is below zero on the way from values to
an index, and on the way back exactly if there are no more than sixty-four variables. -/
theorem index_arithmetic :
    (∀ values : List Bool,
      Assignment.index ⟨values⟩ = binaryValue (values.rtake (min 64 values.length)) ∧
        Assignment.index ⟨values⟩ < 2 ^ 64) ∧
    (∀ w ≤ 64, ∀ index, (Assignment.ofIndex index w).index = index % 2 ^ w) ∧
    (∀ a : Assignment, ∀ w ≤ 64, a.values.length = w → .ofIndex a.index w = a) ∧
    (∀ a b : Assignment, a.values.length = b.values.length → a.values.length ≤ 64 →
      (a.index < b.index ↔ a.values < b.values)) ∧
    (∀ a : Assignment, a.index? = some (.ofNat a.index)) ∧
    ∀ index w : IndexWord, Assignment.ofIndex? index w =
      if w ≤ 64 then some (.ofIndex index.toNat w.toNat) else none :=
  ⟨fun values => ⟨Assignment.index_eq_binaryValue values, Assignment.index_lt_size _⟩,
    fun _ hw index => Assignment.index_ofIndex_mod hw index,
    fun _ _ hw hlength => Assignment.ofIndex_index hlength hw,
    fun _ _ hlength h => Assignment.index_lt_index_iff hlength h,
    Assignment.index?_eq, Assignment.ofIndex?_eq⟩

/-- Of sixty-five values the first is lost. Three values are given back by their index and precede
others that differ in the second place. Sixty-four variables are still read from an index, and
sixty-five are not. -/
theorem index_arithmetic_boundaries :
    Assignment.index ⟨true :: List.replicate 63 false ++ [true]⟩ = 1 ∧
      64 ≤ 64 ∧ (Assignment.ofIndex (2 ^ 64 - 1) 64).index = 2 ^ 64 - 1 ∧
      3 ≤ 64 ∧ [true, false, true].length = 3 ∧ .ofIndex 5 3 = Assignment.mk [true, false, true] ∧
      [true, false, true].length = [true, true, false].length ∧
      Assignment.index ⟨[true, false, true]⟩ < Assignment.index ⟨[true, true, false]⟩ ∧
      Assignment.ofIndex? 5 64 = some (.ofIndex 5 64) ∧ Assignment.ofIndex? 5 65 = none := by
  obtain ⟨hindex, hmod, hback, hlt, -, hchecked⟩ := index_arithmetic
  refine ⟨(hindex _).1, le_rfl, hmod 64 le_rfl _, by decide, rfl, ?_, rfl, ?_, ?_, ?_⟩
  · exact hback ⟨[true, false, true]⟩ 3 (by decide) rfl
  · exact (hlt ⟨[true, false, true]⟩ ⟨[true, true, false]⟩ rfl (by decide)).2 (by decide)
  · exact hchecked 5 64
  · exact hchecked 5 65

end TwoLevel
