import TwoLevel.Proofs.Cover.Transfer
import TwoLevel.Proofs.Cube.Vacuous
import TwoLevel.Proofs.Minimize.Minimal

/-!
# Forms ignore vacuous letters

This file proves that tabulating a function over more letters than it depends on does not change its
forms. The rows over more letters lie above those over fewer, each the same number of times, and the
primes correspond; so the same terms are selected in the same order.

## Main definitions

- `Form.ofFun` — the form of a function of truth values, tabulated over some letters

## Main statements

- `Cube.lifts_widen` — widening agrees with rows, literals and keys
- `Form.body_ofFun_of_const`, `Form.body_ofFun` — constant forms and others
- `Form.ofFun_widen` — vacuous letters change neither terms nor text
-/

namespace TwoLevel

variable {s s' : Letters} {P F : (Char → Bool) → Bool} {strategy : Strategy} {kind : FormKind}

/-! ### Rows and cubes over more letters -/

/-- Every row lies below the same number of rows over more letters. -/
theorem liesAbove_rowsWhere (hP : DependsOn s P) (hsub : s.toList ⊆ s'.toList) :
    LiesAbove (s.restrict s') (2 ^ (s'.without s).size) (s'.rowsWhere P) (s.rowsWhere P) := by
  have hall : LiesAbove (s.restrict s') (2 ^ (s'.without s).size) (List.range (2 ^ s'.size))
      (List.range (2 ^ s.size)) := by
    have hperm := (Letters.range_perm_joinRows hsub).map (s.restrict s')
    rw [List.map_flatMap] at hperm
    refine hperm.trans (List.Perm.of_eq (List.flatMap_congr fun row hrow => ?_))
    have hconst : ∀ m, s.restrict s' (s.joinRows s' row m) = row :=
      Letters.restrict_joinRows hsub (List.mem_range.1 hrow)
    simp [hconst, List.eq_replicate_iff]
  exact hall.filter fun r _ => hP _ _ fun name hname => (Letters.valueAt_restrict hname).symm

namespace Cube

variable {c d : Cube} {r : Nat}

theorem covers_widen (hsub : s.toList ⊆ s'.toList) (hc : c.Fits s.size) (hr : r < 2 ^ s'.size) :
    (c.widen s s').covers r = c.covers (s.restrict s' r) := by
  rw [Bool.eq_iff_iff, (fits_widen s s' _).covers_iff_demand hr,
    hc.covers_iff_demand (s.restrict_lt s' r), demand_widen hsub]
  refine forall_congr' fun name => forall_congr' fun value => imp_congr_right fun hvalue => ?_
  rw [Letters.valueAt_restrict (mem_of_demand_eq_some hvalue)]

theorem literalCount_widen (hsub : s.toList ⊆ s'.toList) (hc : c.Fits s.size) :
    (c.widen s s').literalCount = c.literalCount := by
  rw [(fits_widen s s' _).literalCount_eq_demand, hc.literalCount_eq_demand, demand_widen hsub,
    ← Letters.filter_contains hsub, List.countP_filter]
  apply List.countP_congr
  intro name _
  by_cases hname : name ∈ s.toList
  · simp [hname]
  · simp [hname, demand_of_notMem hname]

theorem orderKey_widen_lt (hsub : s.toList ⊆ s'.toList) (hc : c.Fits s.size) (hd : d.Fits s.size)
    (plain : Bool) : (c.widen s s').orderKey plain < (d.widen s s').orderKey plain ↔
      c.orderKey plain < d.orderKey plain := by
  rw [(fits_widen s s' _).orderKey_eq_demand, (fits_widen s s' _).orderKey_eq_demand,
    hc.orderKey_eq_demand, hd.orderKey_eq_demand, demand_widen hsub, demand_widen hsub]
  apply map_lt_map_of_sublist (Letters.sublist_of_subset hsub) s'.nodup
  intro name _ hname
  rw [demand_of_notMem hname, demand_of_notMem hname]

/-- Widening cubes agrees with restricting rows, and keeps literals and the order of keys. -/
theorem lifts_widen (hsub : s.toList ⊆ s'.toList) {cubes : List Cube}
    (hfits : ∀ c ∈ cubes, c.Fits s.size) {upper : List Nat} (hupper : ∀ r ∈ upper, r < 2 ^ s'.size)
    (plain : Bool) : Lifts (widen s s') (s.restrict s') plain plain cubes upper where
  covers_eq c hc r hr := covers_widen hsub (hfits c hc) (hupper r hr)
  literalCount_eq c hc := literalCount_widen hsub (hfits c hc)
  orderKey_lt c hc d hd := orderKey_widen_lt hsub (hfits c hc) (hfits d hd) plain

end Cube

theorem Letters.lt_of_mem_rowsWhere {row : Nat} (h : row ∈ s.rowsWhere P) : row < 2 ^ s.size :=
  (mem_rowsWhere.1 h).1

/-- The cubes selected over more letters are the widened ones. -/
theorem coverOf_rowsWhere (hP : DependsOn s P) (hsub : s.toList ⊆ s'.toList) (order : VisitOrder)
    (strategy : Strategy) (plain : Bool) :
    coverOf order strategy plain s'.size (s'.rowsWhere P) =
      (coverOf order strategy plain s.size (s.rowsWhere P)).map (Cube.widen s s') := by
  have hrows : ∀ {t : Letters}, ∀ row ∈ t.rowsWhere P, row < 2 ^ t.size :=
    fun row hrow => Letters.lt_of_mem_rowsWhere hrow
  have hprimes : ∀ {t : Letters} {c : Cube},
      c ∈ Cube.primes order t.size (t.rowsWhere P) ↔ c.IsPrime t.size (t.rowsWhere P) :=
    fun {t c} => Cube.mem_primes t.size_le_word hrows order
  have hfits : ∀ {t : Letters}, ∀ c ∈ Cube.primes order t.size (t.rowsWhere P), c.Fits t.size :=
    fun c hc => (hprimes.1 hc).fits
  refine Selection.cubes_map (Nat.two_pow_pos _) (liesAbove_rowsWhere hP hsub)
    (Cube.lifts_widen hsub hfits hrows plain) hfits hfits (Cube.nodup_primes order)
    (Cube.nodup_primes order) (fun d => ?_) (Cube.covering_primes s.size_le_word hrows order)
    strategy
  simp only [hprimes]
  exact Cube.isPrime_widen_iff hP hsub

/-! ### Forms of functions -/

namespace Form

/-- The form of a kind of a function of truth values, tabulated over some letters. -/
def ofFun (strategy : Strategy) (kind : FormKind) (s : Letters) (F : (Char → Bool) → Bool) : Form :=
  ofTargets .listed strategy kind s (s.rowsWhere fun v => F v == kind.plain)

/-- The targets of a form depend on the same letters as the function. -/
theorem dependsOn_targets (hF : DependsOn s F) (kind : FormKind) :
    DependsOn s fun v => F v == kind.plain :=
  fun v w h => congrArg (· == kind.plain) (hF v w h)

/-- A constant function has the constant form. -/
theorem body_ofFun_of_const {value : Bool} (h : ∀ v, F v = value) :
    (ofFun strategy kind s F).body = .constant value := by
  by_cases hplain : value = kind.plain
  · have hrows : (s.rowsWhere fun v => F v == kind.plain).length = 2 ^ s.size := by
      rw [Letters.rowsWhere, List.filter_eq_self.2 (by simp [h, hplain]), List.length_range]
    rw [ofFun, body_ofTargets_of_length hrows, FormKind.decide_eq_sumOfProducts, hplain]
  · have hrows : (s.rowsWhere fun v => F v == kind.plain) = [] := by
      rw [Letters.rowsWhere, List.filter_eq_nil_iff]
      simp [h, hplain]
    rw [ofFun, hrows, body_ofTargets_nil, FormKind.decide_eq_productOfSums]
    congr 1
    cases value <;> cases hkind : kind.plain <;> simp_all

/-- A function that is not constant has a form with terms. -/
theorem body_ofFun (hF : DependsOn s F) (h : ∀ value, ∃ v, F v ≠ value) (strategy : Strategy)
    (kind : FormKind) :
    (ofFun strategy kind s F).body =
      .cubes (coverOf .listed strategy kind.plain s.size
        (s.rowsWhere fun v => F v == kind.plain)) := by
  obtain ⟨v, hv⟩ := h (!kind.plain)
  obtain ⟨u, hu⟩ := h kind.plain
  refine body_ofTargets (fun hnil => ?_) fun hlength => ?_
  · have hmem : s.rowOf v ∈ s.rowsWhere fun v => F v == kind.plain := by
      refine Letters.mem_rowsWhere.2 ⟨s.rowOf_lt v, ?_⟩
      rw [hF.valueAt_rowOf v]
      cases hFv : F v <;> cases hkind : kind.plain <;> simp_all
    rw [hnil] at hmem
    cases hmem
  · have hall : (s.rowsWhere fun v => F v == kind.plain) = List.range (2 ^ s.size) := by
      refine List.filter_sublist.eq_of_length ?_
      rw [List.length_range]
      exact hlength
    have hmem : s.rowOf u ∈ s.rowsWhere fun v => F v == kind.plain := by
      rw [hall, List.mem_range]
      exact s.rowOf_lt u
    have hvalue := (Letters.mem_rowsWhere.1 hmem).2
    rw [hF.valueAt_rowOf u] at hvalue
    exact hu (eq_of_beq hvalue)

/-! ### Vacuous letters -/

section Widen

variable (f f' : Form) (hkind : f'.kind = f.kind) (hsub : f.letters.toList ⊆ f'.letters.toList)

include hkind hsub

theorem literals_widen (c : Cube) : f'.literals (c.widen f.letters f'.letters) = f.literals c := by
  rw [literals_eq, literals_eq, Cube.demand_widen hsub, hkind, ← Letters.filter_contains hsub,
    List.filterMap_filter]
  apply List.filterMap_congr
  intro name _
  by_cases hname : name ∈ f.letters.toList
  · simp [hname]
  · simp [hname, Cube.demand_of_notMem hname]

theorem terms_of_cubes_widen (hcubes : f'.cubes = f.cubes.map (Cube.widen f.letters f'.letters)) :
    f'.terms = f.terms := by
  rw [terms, terms, hcubes, List.map_map]
  exact List.map_congr_left fun c _ => literals_widen f f' hkind hsub c

theorem tokens_of_cubes_widen (hcubes : f'.cubes = f.cubes.map (Cube.widen f.letters f'.letters))
    (hfits : ∀ c ∈ f.cubes, c.Fits f.letters.size) : f'.tokens = f.tokens := by
  have hcount : f'.termCount = f.termCount := by rw [termCount, termCount, hcubes, List.length_map]
  rw [tokens, tokens, hcubes, List.map_map, hkind]
  congr 1
  apply List.map_congr_left
  intro c hc
  rw [Function.comp_apply, termTokens, termTokens, literals_widen f f' hkind hsub, hcount, hkind,
    Cube.literalCount_widen hsub (hfits c hc)]

end Widen

/-- Tabulating a function over more letters than it depends on changes neither the terms of its form
nor the text. -/
theorem ofFun_widen (hF : DependsOn s F) (hsub : s.toList ⊆ s'.toList) (strategy : Strategy)
    (kind : FormKind) :
    (ofFun strategy kind s' F).constant? = (ofFun strategy kind s F).constant? ∧
      (ofFun strategy kind s' F).terms = (ofFun strategy kind s F).terms ∧
      (ofFun strategy kind s' F).render = (ofFun strategy kind s F).render := by
  by_cases hconst : ∃ value, ∀ v, F v = value
  · obtain ⟨value, hvalue⟩ := hconst
    simp only [constant?, terms, cubes, render, body_ofFun_of_const hvalue, List.map_nil, and_self]
  · have hvaries : ∀ value, ∃ v, F v ≠ value := by simpa using hconst
    have hbody := body_ofFun hF hvaries strategy kind
    have hbody' := body_ofFun (hF.mono hsub) hvaries strategy kind
    have hcubes : (ofFun strategy kind s' F).cubes =
        (ofFun strategy kind s F).cubes.map (Cube.widen s s') := by
      rw [cubes, cubes, hbody, hbody']
      exact coverOf_rowsWhere (dependsOn_targets hF kind) hsub .listed strategy kind.plain
    have hfits : ∀ c ∈ (ofFun strategy kind s F).cubes, c.Fits s.size :=
      fun c hc => (isPrime_of_mem_cubes (fun _ => Letters.lt_of_mem_rowsWhere) hc).fits
    refine ⟨by rw [constant?, constant?, hbody, hbody'], ?_, ?_⟩
    · exact terms_of_cubes_widen (ofFun strategy kind s F) (ofFun strategy kind s' F) rfl hsub
        hcubes
    · rw [render, render, hbody, hbody']
      exact congrArg (List.map Token.symbol) (tokens_of_cubes_widen (ofFun strategy kind s F)
        (ofFun strategy kind s' F) rfl hsub hcubes hfits)

end Form

end TwoLevel
