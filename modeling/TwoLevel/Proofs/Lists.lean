import Mathlib

/-!
# Sublists and sorted lists

This file collects what is needed about lists that are taken from another list, or sorted by a key:
a sublist of a list without repetitions is a filter of it, and a strictly sorted list is determined
by its elements.

## Main statements

- `eq_filter_of_sublist` — a sublist keeps exactly its own elements
- `filter_eq_singleton_iff` — a filter that keeps one element
- `forall_mem_iff_length_eq` — a list of all numbers below a bound
- `eq_of_map_eq_map` — lists with the same keys are equal
- `sum_map_set` — a sum over a list of which one element was replaced
- `mapM_eq_some`, `mapM_map_eq_some` — reading a list element by element
- `eq_of_pairwise_lt` — strictly sorted lists with the same elements are equal
- `mergeSort_eq_of_perm` — sorting forgets the order in which numbers were listed
- `map_lt_map_of_sublist`, `map_lt_map_iff` — the lexicographic order of lists of keys
-/

namespace TwoLevel

variable {α β : Type} {s l : List α}

/-- A sublist of a list without repetitions is the filter that keeps its own elements. -/
theorem eq_filter_of_sublist [DecidableEq α] (hl : l.Nodup) (hs : s.Sublist l) :
    s = l.filter s.contains := by
  induction hs with
  | slnil => rfl
  | @cons s l a hsub ih =>
    obtain ⟨ha, hl⟩ := List.nodup_cons.1 hl
    have hnot : ¬s.contains a = true := by
      rw [List.contains_iff_mem]
      exact fun hmem => ha (hsub.subset hmem)
    rw [List.filter_cons_of_neg hnot, ← ih hl]
  | @cons_cons s l a hsub ih =>
    obtain ⟨ha, hl⟩ := List.nodup_cons.1 hl
    rw [List.filter_cons_of_pos (by simp)]
    congr 1
    rw [ih hl]
    apply List.filter_congr
    intro b hb
    have hne : b ≠ a := fun h => ha (h ▸ hb)
    rw [← ih hl, List.contains_cons, beq_false_of_ne hne, Bool.false_or]

/-- A filter keeps a single element when this element satisfies the condition and no other does. -/
theorem filter_eq_singleton_iff {p : α → Bool} {a : α} (hl : l.Nodup) :
    l.filter p = [a] ↔ (a ∈ l ∧ p a = true) ∧ ∀ b ∈ l, p b = true → b = a := by
  constructor
  · intro h
    refine ⟨List.mem_filter.1 (h ▸ List.mem_singleton_self a), fun b hb hpb => ?_⟩
    exact List.mem_singleton.1 (h ▸ List.mem_filter.2 ⟨hb, hpb⟩)
  · rintro ⟨ha, hall⟩
    refine List.perm_singleton.1 ((List.perm_ext_iff_of_nodup (hl.filter p)
      (List.nodup_singleton a)).2 fun b => ?_)
    rw [List.mem_filter, List.mem_singleton]
    constructor
    · rintro ⟨hb, hpb⟩
      exact hall b hb hpb
    · rintro rfl
      exact ha

/-- Distinct numbers below a bound are all of them exactly if they are as many. -/
theorem forall_mem_iff_length_eq {bound : Nat} {rows : List Nat} (hnodup : rows.Nodup)
    (hrows : ∀ row ∈ rows, row < bound) :
    (∀ row < bound, row ∈ rows) ↔ rows.length = bound := by
  have hsubperm : rows.Subperm (List.range bound) :=
    hnodup.subperm fun row hrow => List.mem_range.2 (hrows row hrow)
  constructor
  · intro hall
    have hback : (List.range bound).Subperm rows :=
      List.nodup_range.subperm fun row hrow => hall row (List.mem_range.1 hrow)
    rw [(hsubperm.antisymm hback).length_eq, List.length_range]
  · intro hlength row hrow
    have hperm := hsubperm.perm_of_length_le (by rw [List.length_range, hlength])
    exact hperm.mem_iff.2 (List.mem_range.2 hrow)

/-- Lists are equal when their keys are, if no two elements have the same key. -/
theorem eq_of_map_eq_map {f : α → β} {t : List α}
    (hinj : ∀ a ∈ s, ∀ b ∈ t, f a = f b → a = b) (h : s.map f = t.map f) : s = t := by
  induction s generalizing t with
  | nil => simpa using h.symm
  | cons a as ih =>
    cases t with
    | nil => simp at h
    | cons b bs =>
      rw [List.map_cons, List.map_cons, List.cons.injEq] at h
      have hab : a = b := hinj a List.mem_cons_self b List.mem_cons_self h.1
      have hrest : as = bs := by
        refine ih (fun c hc d hd => ?_) h.2
        exact hinj c (List.mem_cons_of_mem _ hc) d (List.mem_cons_of_mem _ hd)
      rw [hab, hrest]

/-- Replacing an element of a list changes a sum over the list by the difference of two terms. -/
theorem sum_map_set (f : α → Nat) {i : Nat} (hi : i < l.length) (b : α) :
    ((l.set i b).map f).sum + f l[i] = (l.map f).sum + f b := by
  induction l generalizing i with
  | nil => simp at hi
  | cons a as ih =>
    cases i with
    | zero =>
      rw [List.set_cons_zero, List.map_cons, List.map_cons, List.sum_cons, List.sum_cons,
        List.getElem_cons_zero]
      omega
    | succ i =>
      have hrest := ih (Nat.lt_of_succ_lt_succ hi)
      rw [List.set_cons_succ, List.map_cons, List.map_cons, List.sum_cons, List.sum_cons,
        List.getElem_cons_succ]
      omega

/-- If every element has a partner, the partners form a list. -/
theorem exists_forall₂ {r : α → β → Prop} (h : ∀ a ∈ l, ∃ b, r a b) :
    ∃ t, List.Forall₂ r l t := by
  induction l with
  | nil => exact ⟨[], .nil⟩
  | cons a as ih =>
    obtain ⟨b, hab⟩ := h a List.mem_cons_self
    obtain ⟨bs, hrest⟩ := ih fun c hc => h c (List.mem_cons_of_mem _ hc)
    exact ⟨b :: bs, .cons hab hrest⟩

/-- A list whose elements all have values is mapped to the list of the values. -/
theorem mapM_eq_some {f : α → Option β} {t : List β}
    (h : List.Forall₂ (fun a b => f a = some b) l t) : l.mapM f = some t := by
  induction h with
  | nil => rfl
  | cons hfirst _ ih => simp [List.mapM_cons, hfirst, ih]

/-- What is printed of each element of a list is read back when it is read back of one. -/
theorem mapM_map_eq_some {print : α → β} {read : β → Option α}
    (h : ∀ a, read (print a) = some a) (l : List α) : (l.map print).mapM read = some l :=
  mapM_eq_some (List.forall₂_map_left_iff.2 (List.forall₂_same.2 fun a _ => h a))

/-- Two strictly sorted lists with the same elements are equal. -/
theorem eq_of_pairwise_lt [Preorder β] {f : α → β} {t : List α}
    (hs : s.Pairwise fun a b => f a < f b) (ht : t.Pairwise fun a b => f a < f b)
    (hmem : ∀ a, a ∈ s ↔ a ∈ t) : s = t := by
  have hnodup : ∀ {u : List α}, u.Pairwise (fun a b => f a < f b) → u.Nodup := by
    intro u hu
    refine hu.imp fun {a b} hab => ?_
    rintro rfl
    exact lt_irrefl _ hab
  have hperm : s.Perm t := (List.perm_ext_iff_of_nodup (hnodup hs) (hnodup ht)).2 hmem
  exact hperm.eq_of_pairwise (fun a b _ _ hab hba => absurd hba (lt_asymm hab)) hs ht

/-- Sorting forgets the order in which numbers were listed. -/
theorem mergeSort_eq_of_perm {rows rows' : List Nat} (h : rows.Perm rows') :
    rows.mergeSort = rows'.mergeSort := by
  have hsort := congrArg (Multiset.sort · (· ≤ ·)) (Multiset.coe_eq_coe.2 h)
  simpa only [Multiset.coe_sort] using hsort

/-- Entries that are the same in both lists do not change the lexicographic order. -/
theorem map_lt_map_of_sublist [LinearOrder β] {f g : α → β} (hs : s.Sublist l) (hl : l.Nodup)
    (h : ∀ a ∈ l, a ∉ s → f a = g a) : l.map f < l.map g ↔ s.map f < s.map g := by
  induction hs with
  | slnil => rfl
  | @cons s l a hsub ih =>
    obtain ⟨ha, hl⟩ := List.nodup_cons.1 hl
    have hsame : f a = g a := h a List.mem_cons_self fun hmem => ha (hsub.subset hmem)
    rw [List.map_cons, List.map_cons, List.cons_lt_cons_iff, hsame,
      ← ih hl fun b hb => h b (List.mem_cons_of_mem _ hb)]
    simp
  | @cons_cons s l a hsub ih =>
    obtain ⟨ha, hl⟩ := List.nodup_cons.1 hl
    have hrest : ∀ b ∈ l, b ∉ s → f b = g b := by
      intro b hb hbs
      refine h b (List.mem_cons_of_mem _ hb) fun hmem => ?_
      rcases List.mem_cons.1 hmem with rfl | hmem
      · exact ha hb
      · exact hbs hmem
    rw [List.map_cons, List.map_cons, List.map_cons, List.map_cons, List.cons_lt_cons_iff,
      List.cons_lt_cons_iff, ih hl hrest]

/-- Lists of keys are ordered in the same way when their keys are. -/
theorem map_lt_map_iff {γ : Type} [LinearOrder β] [LinearOrder γ] {f : α → β} {g : α → γ}
    {t : List α} (hlt : ∀ a ∈ s, ∀ b ∈ t, f a < f b ↔ g a < g b)
    (hgt : ∀ a ∈ s, ∀ b ∈ t, f b < f a ↔ g b < g a) : s.map f < t.map f ↔ s.map g < t.map g := by
  induction s generalizing t with
  | nil => cases t <;> simp
  | cons a as ih =>
    cases t with
    | nil => simp
    | cons b bs =>
      have heq : f a = f b ↔ g a = g b := by
        have ha := hlt a List.mem_cons_self b List.mem_cons_self
        have hb := hgt a List.mem_cons_self b List.mem_cons_self
        simp only [le_antisymm_iff, ← not_lt, ha, hb]
      rw [List.map_cons, List.map_cons, List.map_cons, List.map_cons, List.cons_lt_cons_iff,
        List.cons_lt_cons_iff, hlt a List.mem_cons_self b List.mem_cons_self, heq,
        ih (fun c hc d hd => hlt c (List.mem_cons_of_mem _ hc) d (List.mem_cons_of_mem _ hd))
          fun c hc d hd => hgt c (List.mem_cons_of_mem _ hc) d (List.mem_cons_of_mem _ hd)]

end TwoLevel
