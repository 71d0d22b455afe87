import Mathlib
import Tetra.Cash

/-!
When the comparisons of `Cash` are an order. A comparison runs over the circuits that
its left operand lists and looks up the right one, so each law of an order holds of
three values exactly when what they list fits together in one way.
-/
namespace Tetra
open Std

namespace Cash

/-- The laws that limits, map keys and sorting rely on, for three values. -/
structure OrderLaws (x y z : Cash) : Prop where
  eq_iff : x.eq y = true ↔ (∀ c, x.amount c = y.amount c) ∧ x.fixed = y.fixed
  mirror : x.lt y = true ↔ y.gt x = true
  asymm : x.lt y = true → x.eq y = false ∧ y.lt x = false
  lt_trans : x.lt y = true → y.lt z = true → x.lt z = true
  le_trans : x.le y = true → y.le z = true → x.le z = true
  ge_trans : x.ge y = true → y.ge z = true → x.ge z = true
  le_iff : x.le y = true ↔ ∀ c, x.amount c ≤ y.amount c

/-- Each circuit that `x` lists holds less than in `y`. -/
def Below (x y : Cash) : Prop := ∀ c v, x.locals[c]? = some v → v < y.amount c
/-- Each circuit that `x` lists holds more than in `y`. -/
def Above (x y : Cash) : Prop := ∀ c v, x.locals[c]? = some v → y.amount c < v
/-- Some circuit that `x` lists holds at most what `y` has. -/
def SomeAtMost (x y : Cash) : Prop := ∃ c v, x.locals[c]? = some v ∧ v ≤ y.amount c
/-- Some circuit that `x` lists holds at least what `y` has. -/
def SomeAtLeast (x y : Cash) : Prop := ∃ c v, x.locals[c]? = some v ∧ y.amount c ≤ v

/-- How what is listed has to fit together. -/
structure Fitting (x y z : Cash) : Prop where
  /-- Equal values: `x` lists something if `y` does. Different ones: all that `x` lists
      is on one side of `y`. -/
  equal : x.fixed = y.fixed → (∀ c, x.amount c = y.amount c) → x.size = 0 → y.size = 0
  different : x.fixed = y.fixed → (∃ c, x.amount c ≠ y.amount c) → x.Below y ∨ x.Above y
  mirror : x.size ≠ 0 ∨ y.size ≠ 0 → (x.Below y ↔ y.Above x)
  /-- Nothing listed, a circuit listed by both, or an amount that is not negative. -/
  apart : (x.size = 0 ∧ y.size = 0) ∨ (∃ c : CashName, x.locals[c]? ≠ none ∧ y.locals[c]? ≠ none) ∨
    (∃ (c : CashName) (v : Amount), x.locals[c]? = some v ∧ 0 ≤ v) ∨ ∃ (c : CashName) (v : Amount), y.locals[c]? = some v ∧ 0 ≤ v
  /-- What `y` does not list, `z` has to hold more of than `x`. -/
  below : x.Below y → y.Below z →
    (∀ (c : CashName) v, x.locals[c]? = some v → y.locals[c]? = none → v < z.amount c) ∧ (x.size = 0 → y.size ≠ 0 → z.size ≠ 0)
  atMost : x.SomeAtMost y → y.SomeAtMost z → x.SomeAtMost z
  atLeast : x.SomeAtLeast y → y.SomeAtLeast z → x.SomeAtLeast z
  pointwise : x.size ≠ 0 ∨ y.size ≠ 0 → (x.SomeAtMost y ↔ ∀ c, x.amount c ≤ y.amount c)

theorem lt_iff_below (x y : Cash) : x.lt y = true ↔ (x.size ≠ 0 ∨ y.size ≠ 0) ∧ x.Below y := lt_iff x y
theorem gt_iff_above (x y : Cash) : x.gt y = true ↔ (x.size ≠ 0 ∨ y.size ≠ 0) ∧ x.Above y := gt_iff x y

theorem not_above_iff (x y : Cash) : ¬ x.Above y ↔ x.SomeAtMost y := by
  simp only [Above,SomeAtMost]
  push Not
  simp only [Int64.not_lt]

theorem not_below_iff (x y : Cash) : ¬ x.Below y ↔ x.SomeAtLeast y := by
  simp only [Below,SomeAtLeast]
  push Not
  simp only [Int64.not_lt]

theorem le_iff_atMost (x y : Cash) : x.le y = true ↔ (x.size = 0 ∧ y.size = 0) ∨ x.SomeAtMost y := by
  have greater := gt_iff_above x y
  rw [← not_above_iff]
  simp only [le,Bool.not_eq_true',← Bool.not_eq_true,greater]
  tauto

theorem ge_iff_atLeast (x y : Cash) : x.ge y = true ↔ (x.size = 0 ∧ y.size = 0) ∨ x.SomeAtLeast y := by
  have less := lt_iff_below x y
  rw [← not_below_iff]
  simp only [ge,Bool.not_eq_true',← Bool.not_eq_true,less]
  tauto

theorem eq_iff_neither (x y : Cash) : x.eq y = true ↔ x.fixed = y.fixed ∧ ¬ x.lt y = true ∧ ¬ x.gt y = true := by
  by_cases fixed : x.fixed = y.fixed
  · cases below : x.lt y <;> cases above : x.gt y <;> simp [eq,fixed,below,above]
  · simp [eq,fixed]

theorem amount_of_empty {x : Cash} (empty : x.size = 0) (c : CashName) : x.amount c = 0 := by
  simp [amount,(size_eq_zero_iff x).mp empty c]

theorem Below.of_empty {x : Cash} (empty : x.size = 0) (y : Cash) : x.Below y := by
  intro c v found
  simp [(size_eq_zero_iff x).mp empty c] at found

theorem SomeAtMost.filled {x y : Cash} (some : x.SomeAtMost y) : x.size ≠ 0 := by
  rintro empty
  obtain ⟨c,v,found,_⟩ := some
  simp [(size_eq_zero_iff x).mp empty c] at found

theorem SomeAtLeast.filled {x y : Cash} (some : x.SomeAtLeast y) : x.size ≠ 0 := by
  rintro empty
  obtain ⟨c,v,found,_⟩ := some
  simp [(size_eq_zero_iff x).mp empty c] at found

/-- Equal in every circuit, a listed circuit is on neither side. -/
theorem not_below_of_same {x y : Cash} (same : ∀ c, x.amount c = y.amount c) (filled : x.size ≠ 0) : ¬ x.Below y ∧ ¬ x.Above y := by
  obtain ⟨c,v,found⟩ := exists_lookup filled
  have here : v = y.amount c := by rw [← same c,amount_of_lookup found]
  refine ⟨fun below => ?_,fun above => ?_⟩
  · exact Int64.lt_irrefl (here ▸ below c v found : y.amount c < y.amount c)
  · exact Int64.lt_irrefl (here ▸ above c v found : y.amount c < y.amount c)

theorem eq_law_iff (x y : Cash) :
    (x.eq y = true ↔ (∀ c, x.amount c = y.amount c) ∧ x.fixed = y.fixed) ↔
      (x.fixed = y.fixed → (∀ c, x.amount c = y.amount c) → x.size = 0 → y.size = 0) ∧
      (x.fixed = y.fixed → (∃ c, x.amount c ≠ y.amount c) → x.Below y ∨ x.Above y) := by
  rw [eq_iff_neither,lt_iff_below,gt_iff_above]
  by_cases fixed : x.fixed = y.fixed
  · simp only [fixed,true_and,and_true,forall_const]
    by_cases same : ∀ c, x.amount c = y.amount c
    · have holds : (x.size = 0 → y.size = 0) ↔
          ¬ ((x.size ≠ 0 ∨ y.size ≠ 0) ∧ x.Below y) ∧ ¬ ((x.size ≠ 0 ∨ y.size ≠ 0) ∧ x.Above y) := by
        constructor
        · intro emptied
          by_cases empty : x.size = 0
          · simp [empty,emptied empty]
          · obtain ⟨notBelow,notAbove⟩ := not_below_of_same same empty
            exact ⟨fun both => notBelow both.2,fun both => notAbove both.2⟩
        · rintro ⟨notBelow,_⟩ empty
          by_contra filled
          exact notBelow ⟨Or.inr filled,Below.of_empty empty y⟩
      rw [holds]
      simp [same]
    · have difference : ∃ c, x.amount c ≠ y.amount c := by push Not at same; exact same
      have listed : x.size ≠ 0 ∨ y.size ≠ 0 := by
        by_contra neither
        push Not at neither
        obtain ⟨c,apart⟩ := difference
        exact apart (by rw [amount_of_empty neither.1,amount_of_empty neither.2])
      simp only [same,difference,listed,true_and]
      tauto
  · simp [fixed]

theorem mirror_law_iff (x y : Cash) :
    (x.lt y = true ↔ y.gt x = true) ↔ (x.size ≠ 0 ∨ y.size ≠ 0 → (x.Below y ↔ y.Above x)) := by
  rw [lt_iff_below,gt_iff_above]
  by_cases listed : x.size ≠ 0 ∨ y.size ≠ 0
  · simp only [listed,listed.symm,true_and,forall_const]
  · have listed' : ¬ (y.size ≠ 0 ∨ x.size ≠ 0) := fun some => listed some.symm
    simp only [listed,listed',false_and,false_implies]

/-- Two values are each below the other when they list different circuits and owe in all of them. -/
theorem below_both_iff (x y : Cash) :
    x.Below y ∧ y.Below x ↔ (∀ c : CashName, x.locals[c]? = none ∨ y.locals[c]? = none) ∧
      (∀ (c : CashName) v, x.locals[c]? = some v → v < 0) ∧ ∀ (c : CashName) v, y.locals[c]? = some v → v < 0 := by
  constructor
  · rintro ⟨left,right⟩
    have disjoint : ∀ c : CashName, x.locals[c]? = none ∨ y.locals[c]? = none := by
      intro c
      by_contra both
      push Not at both
      obtain ⟨v,inX⟩ := Option.ne_none_iff_exists'.mp both.1
      obtain ⟨w,inY⟩ := Option.ne_none_iff_exists'.mp both.2
      have low := left c v inX
      have high := right c w inY
      rw [amount_of_lookup inY] at low
      rw [amount_of_lookup inX] at high
      exact Int64.lt_asymm low high
    refine ⟨disjoint,fun c v found => ?_,fun c v found => ?_⟩
    · have absent : y.locals[c]? = none := (disjoint c).resolve_left (by simp [found])
      simpa [amount,absent] using left c v found
    · have absent : x.locals[c]? = none := (disjoint c).resolve_right (by simp [found])
      simpa [amount,absent] using right c v found
  · rintro ⟨disjoint,left,right⟩
    refine ⟨fun c v found => ?_,fun c v found => ?_⟩
    · have absent : y.locals[c]? = none := (disjoint c).resolve_left (by simp [found])
      simpa [amount,absent] using left c v found
    · have absent : x.locals[c]? = none := (disjoint c).resolve_right (by simp [found])
      simpa [amount,absent] using right c v found

theorem asymm_law_iff (x y : Cash) :
    (x.lt y = true → x.eq y = false ∧ y.lt x = false) ↔
      (x.size = 0 ∧ y.size = 0) ∨ (∃ c : CashName, x.locals[c]? ≠ none ∧ y.locals[c]? ≠ none) ∨
        (∃ (c : CashName) (v : Amount), x.locals[c]? = some v ∧ 0 ≤ v) ∨ ∃ (c : CashName) (v : Amount), y.locals[c]? = some v ∧ 0 ≤ v := by
  have noEqual : x.lt y = true → x.eq y = false := by
    intro less
    by_contra equal
    exact ((eq_iff_neither x y).mp (by simpa using equal)).2.1 less
  have both := below_both_iff x y
  have negated : ((∃ c : CashName, x.locals[c]? ≠ none ∧ y.locals[c]? ≠ none) ∨ (∃ (c : CashName) (v : Amount), x.locals[c]? = some v ∧ 0 ≤ v) ∨
      ∃ (c : CashName) (v : Amount), y.locals[c]? = some v ∧ 0 ≤ v) ↔ ¬ (x.Below y ∧ y.Below x) := by
    rw [both,not_and_or,not_and_or]
    push Not
    simp only [Int64.not_lt]
  rw [negated]
  constructor
  · intro asymm
    by_cases neither : x.size = 0 ∧ y.size = 0
    · exact Or.inl neither
    · have listed : x.size ≠ 0 ∨ y.size ≠ 0 := not_and_or.mp neither
      refine Or.inr fun each => ?_
      have later := (asymm ((lt_iff_below x y).mpr ⟨listed,each.1⟩)).2
      simp [(lt_iff_below y x).mpr ⟨listed.symm,each.2⟩] at later
  · intro fits less
    refine ⟨noEqual less,?_⟩
    obtain ⟨listed,left⟩ := (lt_iff_below x y).mp less
    by_contra later
    have right := ((lt_iff_below y x).mp (by simpa using later)).2
    rcases fits with neither | apart
    · exact (not_and_or.mpr listed) neither
    · exact apart ⟨left,right⟩

theorem lt_trans_law_iff (x y z : Cash) :
    (x.lt y = true → y.lt z = true → x.lt z = true) ↔ (x.Below y → y.Below z →
      (∀ (c : CashName) v, x.locals[c]? = some v → y.locals[c]? = none → v < z.amount c) ∧
        (x.size = 0 → y.size ≠ 0 → z.size ≠ 0)) := by
  rw [lt_iff_below,lt_iff_below,lt_iff_below]
  constructor
  · intro chain left right
    refine ⟨fun c v found absent => ?_,fun empty filled => ?_⟩
    · have listed : x.size ≠ 0 := fun empty => by simp [(size_eq_zero_iff x).mp empty c] at found
      by_cases rest : y.size ≠ 0 ∨ z.size ≠ 0
      · exact (chain ⟨Or.inl listed,left⟩ ⟨rest,right⟩).2 c v found
      · push Not at rest
        have low := left c v found
        rwa [amount_of_empty rest.1,← amount_of_empty rest.2 c] at low
    · have reached := (chain ⟨Or.inr filled,left⟩ ⟨Or.inl filled,right⟩).1
      tauto
  · rintro fits ⟨listed,left⟩ ⟨listed',right⟩
    obtain ⟨covered,filled⟩ := fits left right
    refine ⟨by tauto,fun c v found => ?_⟩
    cases inY : y.locals[c]? with
    | none => exact covered c v found inY
    | some w =>
      have low := left c v found
      rw [amount_of_lookup inY] at low
      exact Int64.lt_trans low (right c w inY)

theorem le_trans_law_iff (x y z : Cash) :
    (x.le y = true → y.le z = true → x.le z = true) ↔ (x.SomeAtMost y → y.SomeAtMost z → x.SomeAtMost z) := by
  rw [le_iff_atMost,le_iff_atMost,le_iff_atMost]
  constructor
  · intro chain first second
    exact (chain (Or.inr first) (Or.inr second)).resolve_left fun empty => first.filled empty.1
  · rintro chain (⟨xEmpty,yEmpty⟩ | first) (⟨yEmpty',zEmpty⟩ | second)
    · exact Or.inl ⟨xEmpty,zEmpty⟩
    · exact absurd yEmpty second.filled
    · obtain ⟨c,v,found,le⟩ := first
      exact Or.inr ⟨c,v,found,by rwa [amount_of_empty yEmpty',← amount_of_empty zEmpty c] at le⟩
    · exact Or.inr (chain first second)

theorem ge_trans_law_iff (x y z : Cash) :
    (x.ge y = true → y.ge z = true → x.ge z = true) ↔ (x.SomeAtLeast y → y.SomeAtLeast z → x.SomeAtLeast z) := by
  rw [ge_iff_atLeast,ge_iff_atLeast,ge_iff_atLeast]
  constructor
  · intro chain first second
    exact (chain (Or.inr first) (Or.inr second)).resolve_left fun empty => first.filled empty.1
  · rintro chain (⟨xEmpty,yEmpty⟩ | first) (⟨yEmpty',zEmpty⟩ | second)
    · exact Or.inl ⟨xEmpty,zEmpty⟩
    · exact absurd yEmpty second.filled
    · obtain ⟨c,v,found,le⟩ := first
      exact Or.inr ⟨c,v,found,by rwa [amount_of_empty yEmpty',← amount_of_empty zEmpty c] at le⟩
    · exact Or.inr (chain first second)

theorem le_law_iff (x y : Cash) :
    (x.le y = true ↔ ∀ c, x.amount c ≤ y.amount c) ↔
      (x.size ≠ 0 ∨ y.size ≠ 0 → (x.SomeAtMost y ↔ ∀ c, x.amount c ≤ y.amount c)) := by
  rw [le_iff_atMost]
  by_cases neither : x.size = 0 ∧ y.size = 0
  · have all : ∀ c, x.amount c ≤ y.amount c := by
      intro c; rw [amount_of_empty neither.1,amount_of_empty neither.2]; exact Int64.le_refl 0
    simp [neither,all]
  · have listed : x.size ≠ 0 ∨ y.size ≠ 0 := not_and_or.mp neither
    simp only [neither,false_or,listed,forall_const]

/-- The comparisons obey the laws of an order on three values exactly when what the
    values list fits together. -/
theorem order_laws_iff (x y z : Cash) : OrderLaws x y z ↔ Fitting x y z := by
  constructor
  · rintro ⟨equality,mirror,asymm,less,atMost,atLeast,pointwise⟩
    obtain ⟨equal,different⟩ := (eq_law_iff x y).mp equality
    exact ⟨equal,different,(mirror_law_iff x y).mp mirror,(asymm_law_iff x y).mp asymm,(lt_trans_law_iff x y z).mp less,
      (le_trans_law_iff x y z).mp atMost,(ge_trans_law_iff x y z).mp atLeast,(le_law_iff x y).mp pointwise⟩
  · rintro ⟨equal,different,mirror,apart,below,atMost,atLeast,pointwise⟩
    exact ⟨(eq_law_iff x y).mpr ⟨equal,different⟩,(mirror_law_iff x y).mpr mirror,(asymm_law_iff x y).mpr apart,
      (lt_trans_law_iff x y z).mpr below,(le_trans_law_iff x y z).mpr atMost,(ge_trans_law_iff x y z).mpr atLeast,
      (le_law_iff x y).mpr pointwise⟩

/-- Five of one circuit and five of two compare as equal, and the second is above the
    first without the first being below the second. -/
theorem order_laws_fail :
    ¬ ∀ x y z : Cash, OrderLaws x y z := by
  intro laws
  have law := laws (ofMoney ([65],5)) ((ofMoney ([65],5)).addAssign (ofMoney ([66],5))) {}
  have same := (law.eq_iff.mp (by decide +kernel)).1 [66]
  revert same
  decide +kernel

end Cash
end Tetra
