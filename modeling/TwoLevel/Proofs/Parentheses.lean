import Mathlib

/-!
# Parentheses that are not closed

This file says which opening parentheses of a text have no closing ones. A parenthesis is closed
where a balanced piece of text ends that begins behind it. What has been read of a text without a
closing parenthesis too many is a sequence of balanced pieces with an opening parenthesis between
any two, and these are the ones that are not closed.

## Main definitions

- `IsBalanced` — a text in which all parentheses belong together
- `IsUnclosed` — an opening parenthesis without a closing one
- `Opened` — a text split at the parentheses that are not closed

## Main statements

- `isUnclosed_iff` — behind such a parenthesis the closing ones never outnumber the opening ones
- `Opened.mem_iff` — the parentheses at which a text is split are those that are not closed
- `Opened.isGreatest`, `Opened.ncard_isUnclosed` — the last of them, and how many they are
-/

namespace TwoLevel

/-- Nowhere in a text the closing parentheses outnumber the opening ones. -/
def StaysOpen (text : List Char) : Prop :=
  ∀ before after, text = before ++ after → before.count ')' ≤ before.count '('

/-- Every closing parenthesis of a text has an opening one before it, and none is left open. -/
structure IsBalanced (text : List Char) : Prop where
  staysOpen : StaysOpen text
  count_eq : text.count '(' = text.count ')'

/-- At a position there is an opening parenthesis that has no closing one: nowhere behind it a
closing parenthesis ends a balanced piece of the text. -/
def IsUnclosed (text : List Char) (position : Nat) : Prop :=
  ∃ before after, text = before ++ '(' :: after ∧ before.length = position ∧
    ∀ inner rest, after = inner ++ ')' :: rest → ¬IsBalanced inner

/-- A text in which no closing parenthesis is too many, and the positions of the parentheses that
are not closed, the last one first. -/
inductive Opened : List Char → List Nat → Prop where
  /-- A balanced text. -/
  | balanced {text : List Char} (h : IsBalanced text) : Opened text []
  /-- A parenthesis is opened, and a balanced piece follows it. -/
  | opening {text piece : List Char} {positions : List Nat} (h : Opened text positions)
      (hpiece : IsBalanced piece) : Opened (text ++ '(' :: piece) (text.length :: positions)

variable {text piece before after : List Char} {positions : List Nat} {position : Nat} {c : Char}

/-! ### Counting -/

namespace StaysOpen

theorem append (h : StaysOpen text) (hpiece : StaysOpen piece) : StaysOpen (text ++ piece) := by
  intro before after heq
  -- What comes before a place in the second part begins with the whole first part.
  rcases List.append_eq_append_iff.1 heq with ⟨more, rfl, hsplit⟩ | ⟨more, hsplit, -⟩
  · have hwhole := h text [] (List.append_nil _).symm
    have hmore := hpiece more after hsplit
    rw [List.count_append, List.count_append]
    omega
  · exact h before more hsplit

theorem of_append (h : StaysOpen (text ++ piece)) : StaysOpen text := by
  rintro before after rfl
  exact h before (after ++ piece) (List.append_assoc ..)

theorem concat (h : StaysOpen text) (hcount : (text ++ [c]).count ')' ≤ (text ++ [c]).count '(') :
    StaysOpen (text ++ [c]) := by
  intro before after heq
  rcases List.append_eq_append_iff.1 heq with ⟨more, rfl, hsplit⟩ | ⟨more, hsplit, -⟩
  · cases more with
    | nil => simpa using h text [] (List.append_nil _).symm
    | cons d more =>
      obtain ⟨rfl, hnil⟩ := List.cons.inj hsplit
      obtain ⟨rfl, -⟩ := List.append_eq_nil_iff.1 hnil.symm
      exact hcount
  · exact h before more hsplit

theorem nil : StaysOpen [] := by
  intro before after heq
  rw [(List.append_eq_nil_iff.1 heq.symm).1, List.count_nil, List.count_nil]

theorem singleton (hc : c ≠ ')') : StaysOpen [c] := by
  refine nil.concat (c := c) ?_
  simp [List.count_singleton, hc]

theorem opening (h : StaysOpen text) : StaysOpen ('(' :: text) :=
  (singleton (by decide)).append h

end StaysOpen

/-- If the closing parentheses outnumber the opening ones somewhere, the first one too many ends a
balanced piece. -/
theorem exists_balanced (h : ¬StaysOpen text) :
    ∃ inner rest, text = inner ++ ')' :: rest ∧ IsBalanced inner := by
  induction text using List.reverseRecOn with
  | nil => exact absurd .nil h
  | append_singleton text c ih =>
    by_cases hopen : StaysOpen text
    · -- The last character is the one that is too many.
      have hwhole := hopen text [] (List.append_nil _).symm
      have hcount : ¬(text ++ [c]).count ')' ≤ (text ++ [c]).count '(' :=
        fun hcount => h (hopen.concat hcount)
      rw [List.count_append, List.count_append] at hcount
      obtain rfl : c = ')' := by
        by_contra hne
        rw [List.count_singleton, if_neg (by simpa using hne)] at hcount
        omega
      have hone : List.count ')' [')'] = 1 := rfl
      have hzero : List.count '(' [')'] = 0 := rfl
      exact ⟨text, [], rfl, hopen, by omega⟩
    · obtain ⟨inner, rest, rfl, hinner⟩ := ih hopen
      exact ⟨inner, rest ++ [c], by simp, hinner⟩

theorem isUnclosed_iff : IsUnclosed text position ↔
    ∃ before after, text = before ++ '(' :: after ∧ before.length = position ∧ StaysOpen after := by
  refine exists_congr fun before => exists_congr fun after =>
    and_congr_right fun _ => and_congr_right fun _ => ?_
  constructor
  · intro h
    by_contra hclosed
    obtain ⟨inner, rest, hsplit, hinner⟩ := exists_balanced hclosed
    exact h inner rest hsplit hinner
  · rintro h inner rest rfl hinner
    -- The closing parenthesis behind a balanced piece is one too many.
    have hcount := h (inner ++ [')']) rest (by simp)
    have heq := hinner.count_eq
    simp only [List.count_append, List.count_singleton] at hcount
    simp at hcount
    omega

/-! ### Balanced pieces -/

namespace IsBalanced

theorem nil : IsBalanced [] := ⟨.nil, rfl⟩

theorem singleton (hopen : c ≠ '(') (hclose : c ≠ ')') : IsBalanced [c] :=
  ⟨.singleton hclose, by simp [hopen, hclose]⟩

theorem append (h : IsBalanced text) (hpiece : IsBalanced piece) : IsBalanced (text ++ piece) := by
  refine ⟨h.staysOpen.append hpiece.staysOpen, ?_⟩
  rw [List.count_append, List.count_append, h.count_eq, hpiece.count_eq]

theorem group (h : IsBalanced text) : IsBalanced ('(' :: text ++ [')']) := by
  have hcount : ('(' :: text ++ [')']).count '(' = ('(' :: text ++ [')']).count ')' := by
    simp [h.count_eq]
  exact ⟨h.staysOpen.opening.concat hcount.ge, hcount⟩

theorem not_staysOpen (h : IsBalanced text) (hsplit : text = before ++ '(' :: after) :
    ¬StaysOpen after := by
  intro hafter
  have hbefore := h.staysOpen before ('(' :: after) hsplit
  have hrest := hafter after [] (List.append_nil _).symm
  have hcount := h.count_eq
  rw [hsplit] at hcount
  simp at hcount
  omega

end IsBalanced

namespace Opened

theorem append (h : Opened text positions) (hpiece : IsBalanced piece) :
    Opened (text ++ piece) positions := by
  cases h with
  | balanced h => exact .balanced (h.append hpiece)
  | opening h hlast =>
    rw [List.append_assoc, List.cons_append]
    exact h.opening (hlast.append hpiece)

/-- A closing parenthesis closes the one that was opened last. -/
theorem close (h : Opened text (position :: positions)) : Opened (text ++ [')']) positions := by
  cases h with
  | opening h hpiece =>
    rw [List.append_assoc]
    exact h.append hpiece.group

theorem lt (h : Opened text positions) : ∀ position ∈ positions, position < text.length := by
  induction h with
  | balanced => simp
  | @opening text piece positions h hpiece ih =>
    rw [List.length_append, List.length_cons]
    refine List.forall_mem_cons.2 ⟨by omega, fun position hposition => ?_⟩
    have := ih position hposition
    omega

theorem pairwise (h : Opened text positions) : positions.Pairwise (· > ·) := by
  induction h with
  | balanced => exact .nil
  | opening h hpiece ih => exact .cons h.lt ih

theorem mem_iff (h : Opened text positions) :
    position ∈ positions ↔ IsUnclosed text position := by
  rw [isUnclosed_iff]
  induction h with
  | balanced h =>
    refine ⟨fun hmem => absurd hmem List.not_mem_nil, ?_⟩
    rintro ⟨before, after, hsplit, -, hafter⟩
    exact absurd hafter (h.not_staysOpen hsplit)
  | @opening text piece positions h hpiece ih =>
    rw [List.mem_cons]
    constructor
    · rintro (rfl | hmem)
      · exact ⟨text, piece, rfl, rfl, hpiece.staysOpen⟩
      · obtain ⟨before, after, rfl, hlength, hafter⟩ := ih.1 hmem
        exact ⟨before, after ++ '(' :: piece, by simp, hlength,
          hafter.append hpiece.staysOpen.opening⟩
    · rintro ⟨before, after, hsplit, rfl, hafter⟩
      -- The parenthesis stands in the last piece, before it, or further left.
      rcases List.append_eq_append_iff.1 hsplit with ⟨more, rfl, hmore⟩ | ⟨more, rfl, hmore⟩
      · cases more with
        | nil => simp
        | cons d more => exact absurd hafter (hpiece.not_staysOpen (List.cons.inj hmore).2)
      · cases more with
        | nil => simp
        | cons d more =>
          obtain ⟨rfl, rfl⟩ := List.cons.inj hmore
          exact .inr (ih.2 ⟨before, more, rfl, rfl, hafter.of_append⟩)

theorem setOf_isUnclosed (h : Opened text positions) :
    {position | IsUnclosed text position} = {position | position ∈ positions} :=
  Set.ext fun _ => h.mem_iff.symm

theorem ncard_isUnclosed (h : Opened text positions) :
    {position | IsUnclosed text position}.ncard = positions.length := by
  have hnodup : positions.Nodup := h.pairwise.imp ne_of_gt
  rw [h.setOf_isUnclosed, ← List.coe_toFinset, Set.ncard_coe_finset,
    List.toFinset_card_of_nodup hnodup]

/-- The first position is that of the last parenthesis that is not closed. -/
theorem isGreatest (h : Opened text (position :: positions)) :
    IsGreatest {position | IsUnclosed text position} position := by
  rw [h.setOf_isUnclosed]
  refine ⟨List.mem_cons_self, fun other hother => ?_⟩
  rcases List.mem_cons.1 hother with rfl | hother
  · exact le_rfl
  · exact (List.rel_of_pairwise_cons h.pairwise hother).le

end Opened

end TwoLevel
