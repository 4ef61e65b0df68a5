import TwoLevel.Proofs.Cube.Demand
import TwoLevel.Proofs.Cube.Implicant

/-!
# Primes mention no vacuous letters

This file describes the primes of a function by what they require of letters. The description does
not mention the letters over which the function is tabulated, and a prime requires nothing of a
letter on which the function does not depend. So the primes over more letters than necessary are
those over the necessary ones, written with free digits added.

## Main definitions

- `Letters.rowsWhere` — the rows on which a function is true
- `IsPrimeDemand` — the requirements of a prime
- `Cube.widen` — a cube rewritten over other letters

## Main statements

- `Cube.isPrime_iff` — primes in terms of their requirements
- `Cube.isPrime_widen_iff` — the primes over more letters
-/

namespace TwoLevel

/-- The rows on which a function is true, ascending. -/
def Letters.rowsWhere (s : Letters) (P : (Char → Bool) → Bool) : List Nat :=
  (List.range (2 ^ s.size)).filter fun row => P (s.valueAt row)

/-- All letters have the values required of them. -/
def Satisfies (v : Char → Bool) (demand : Char → Option Bool) : Prop :=
  ∀ name value, demand name = some value → v name = value

/-- Requirements under which a function is true, but no longer when any of them is dropped. -/
structure IsPrimeDemand (P : (Char → Bool) → Bool) (demand : Char → Option Bool) : Prop where
  holds : ∀ v, Satisfies v demand → P v = true
  maximal : ∀ name, demand name ≠ none →
    ¬∀ v, Satisfies v (Function.update demand name none) → P v = true

variable {s s' : Letters} {P : (Char → Bool) → Bool} {c d : Cube} {name : Char} {row : Nat}

theorem Letters.mem_rowsWhere :
    row ∈ s.rowsWhere P ↔ row < 2 ^ s.size ∧ P (s.valueAt row) = true := by
  rw [rowsWhere, List.mem_filter, List.mem_range]

/-- A prime requires nothing of a letter on which the function does not depend. -/
theorem IsPrimeDemand.eq_none {demand : Char → Option Bool} (h : IsPrimeDemand P demand)
    (hP : DependsOn s P) (hname : name ∉ s.toList) : demand name = none := by
  by_contra hne
  obtain ⟨value, hvalue⟩ := Option.ne_none_iff_exists'.1 hne
  apply h.maximal name hne
  intro v hv
  -- Giving the letter its required value changes nothing for the function.
  have hsame : P v = P (Function.update v name value) := by
    refine hP _ _ fun other hother => ?_
    rw [Function.update_of_ne]
    rintro rfl
    exact hname hother
  rw [hsame]
  apply h.holds _
  intro other b hb
  by_cases heq : other = name
  · subst heq
    rw [hvalue, Option.some.injEq] at hb
    rw [Function.update_self, hb]
  · rw [Function.update_of_ne heq]
    exact hv other b (by rwa [Function.update_of_ne heq])

namespace Cube

/-- A cube is an implicant when its requirements make the function true. -/
theorem Fits.implicant_iff (hc : c.Fits s.size) (hP : DependsOn s P) :
    c.Implicant s.size (s.rowsWhere P) ↔ ∀ v, Satisfies v (c.demand s) → P v = true := by
  constructor
  · intro h v hv
    have hlt := s.rowOf_lt v
    have hcov : c.covers (s.rowOf v) = true := by
      refine (hc.covers_iff_demand hlt).2 fun name value hvalue => ?_
      rw [Letters.valueAt_rowOf v (mem_of_demand_eq_some hvalue)]
      exact hv name value hvalue
    rw [← hP.valueAt_rowOf v]
    exact (Letters.mem_rowsWhere.1 (h.subset _ hlt hcov)).2
  · intro h
    refine ⟨hc, fun row hrow hcov => Letters.mem_rowsWhere.2 ⟨hrow, h _ ?_⟩⟩
    exact (hc.covers_iff_demand hrow).1 hcov

/-- Freeing the place of a letter drops the requirement of this letter. -/
theorem Fits.demand_put_none (hc : c.Fits s.size) {place : Nat} (hplace : place < s.size)
    (hget : s.toList[s.size - 1 - place]? = some name) :
    (c.put place none).demand s = Function.update (c.demand s) name none := by
  have hw : s.size ≤ 32 := s.size_le_word
  have hput := hc.put hw place none
  funext other
  by_cases hmem : other ∈ s.toList
  · obtain ⟨place', hplace', hget'⟩ := Letters.exists_place_of_mem hmem
    rw [← hput.cell_eq_demand hplace' hget', hc.cell_put hw hplace', Function.update_apply,
      ← hc.cell_eq_demand hplace' hget']
    -- The place is changed exactly if it is the place of the letter.
    congr 1
    rw [eq_iff_iff]
    constructor
    · intro heq
      rw [heq, hget, Option.some.injEq] at hget'
      exact hget'.symm
    · intro heq
      rw [heq, ← hget] at hget'
      have hpositions := (List.getElem?_inj (by rw [← Letters.size]; omega) s.nodup).1 hget'
      omega
  · rw [demand_of_notMem hmem, Function.update_apply, demand_of_notMem hmem, ite_self]

/-- The primes of a function are the cubes that have the requirements of a prime. -/
theorem isPrime_iff (hP : DependsOn s P) :
    c.IsPrime s.size (s.rowsWhere P) ↔ c.Fits s.size ∧ IsPrimeDemand P (c.demand s) := by
  have hw : s.size ≤ 32 := s.size_le_word
  constructor
  · intro h
    refine ⟨h.fits, (h.fits.implicant_iff hP).1 h.toImplicant, fun name hname hall => ?_⟩
    obtain ⟨value, hvalue⟩ := Option.ne_none_iff_exists'.1 hname
    obtain ⟨place, hplace, hget⟩ := Letters.exists_place_of_mem (mem_of_demand_eq_some hvalue)
    refine h.maximal place hplace (by rwa [h.fits.cell_eq_demand hplace hget]) ?_
    rw [(h.fits.put hw _ none).implicant_iff hP, h.fits.demand_put_none hplace hget]
    exact hall
  · rintro ⟨hfits, hprime⟩
    refine ⟨(hfits.implicant_iff hP).2 hprime.holds, fun place hplace hcell himplicant => ?_⟩
    obtain ⟨name, -, hget⟩ := Letters.exists_letter_at hplace
    rw [hfits.cell_eq_demand hplace hget] at hcell
    refine hprime.maximal name hcell ?_
    rw [← hfits.demand_put_none hplace hget]
    exact ((hfits.put hw place none).implicant_iff hP).1 himplicant

/-! ### More letters -/

/-- A cube over some letters, rewritten over others. -/
def widen (s s' : Letters) (c : Cube) : Cube := ofDemand s' (c.demand s)

theorem fits_widen (s s' : Letters) (c : Cube) : (c.widen s s').Fits s'.size := fits_ofDemand s' _

/-- Over more letters a cube requires the same. -/
theorem demand_widen (hsub : s.toList ⊆ s'.toList) (c : Cube) :
    (c.widen s s').demand s' = c.demand s := by
  funext name
  by_cases hname : name ∈ s'.toList
  · exact demand_ofDemand _ hname
  · rw [demand_of_notMem hname, demand_of_notMem fun h => hname (hsub h)]

/-- The primes of a function over more letters than necessary are the primes over the necessary
ones. -/
theorem isPrime_widen_iff (hP : DependsOn s P) (hsub : s.toList ⊆ s'.toList) :
    d.IsPrime s'.size (s'.rowsWhere P) ↔
      ∃ c : Cube, c.IsPrime s.size (s.rowsWhere P) ∧ c.widen s s' = d := by
  rw [isPrime_iff (hP.mono hsub)]
  constructor
  · rintro ⟨hfits, hprime⟩
    have hdemand : (ofDemand s (d.demand s')).demand s = d.demand s' := by
      funext name
      by_cases hname : name ∈ s.toList
      · exact demand_ofDemand _ hname
      · rw [demand_of_notMem hname, hprime.eq_none hP hname]
    refine ⟨ofDemand s (d.demand s'), (isPrime_iff hP).2 ⟨fits_ofDemand s _, ?_⟩, ?_⟩
    · rwa [hdemand]
    · refine (fits_ofDemand s' _).ext_demand hfits fun name hname => ?_
      rw [demand_ofDemand _ hname, hdemand]
  · rintro ⟨c, hc, rfl⟩
    refine ⟨fits_widen s s' c, ?_⟩
    rw [demand_widen hsub]
    exact ((isPrime_iff hP).1 hc).2

end Cube

end TwoLevel
