import Mathlib
import Tetra.CashLaws

/-!
The laws of `Fees`. A fee is the override of a circuit or else the fixed amount; adding two
of them adds only the fixed amounts.
-/
namespace Tetra
open Std

/-- `x + y` -/
def Fees.add (x y : Fees) : Fees := ⟨∅,x.fixed+y.fixed⟩

namespace Cash

/-- How far the override of a circuit is from the fixed amount. -/
def overridden (fee : Fees) (c : CashName) : Amount := feePart fee c-fee.fixed

theorem feePart_add (f g : Fees) (c : CashName) : feePart (Fees.add f g) c = f.fixed+g.fixed := by
  simp [feePart,Fees.add]

theorem feePart_addAssign_listed {f : Fees} {c : CashName} (g : Fees) (listed : c ∈ f.locals) :
    feePart (Fees.addAssign f g) c = feePart f c := by
  obtain ⟨v,found⟩ := Option.isSome_iff_exists.mp (ExtTreeMap.mem_iff_isSome_getElem?.mp listed)
  rw [feePart,feePart,Fees.addAssign,found]
  rfl

theorem feePart_unlisted {f : Fees} {c : CashName} (unlisted : c ∉ f.locals) : feePart f c = f.fixed := by
  rw [feePart,ExtTreeMap.getElem?_eq_none unlisted]
  rfl

theorem feePart_addAssign_unlisted {f : Fees} {c : CashName} (g : Fees) (unlisted : c ∉ f.locals) :
    feePart (Fees.addAssign f g) c = f.fixed+g.fixed := feePart_unlisted (f := Fees.addAssign f g) unlisted

/-- The fee of a sum is the sum of the fees where the overrides make up for each other. -/
theorem add_exact_iff (f g : Fees) (c : CashName) :
    feePart (Fees.add f g) c = feePart f c+feePart g c ↔ overridden f c+overridden g c = 0 := by
  rw [feePart_add,overridden,overridden]
  constructor
  · intro exact
    grind
  · intro made_up
    grind

theorem addAssign_exact_iff (f g : Fees) (c : CashName) :
    feePart (Fees.addAssign f g) c = feePart f c+feePart g c ↔ if c ∈ f.locals then feePart g c = 0 else overridden g c = 0 := by
  by_cases listed : c ∈ f.locals
  · rw [if_pos listed,feePart_addAssign_listed g listed]
    grind
  · rw [if_neg listed,feePart_addAssign_unlisted g listed,feePart_unlisted listed,overridden]
    grind

theorem sub_add_locals (x : Cash) (f : Fees) (c : CashName) : ((x.addFees f).subFees f).locals[c]? = x.locals[c]? := by
  rw [subFees_lookup,addFees_lookup]
  cases x.locals[c]? with
  | none => rfl
  | some v => rw [Option.map_some,Option.map_some,Int64.add_sub_cancel]

theorem sub_add_iff (x : Cash) (f : Fees) : (x.addFees f).subFees f = x ↔ x.fixed = 0 := by
  constructor
  · intro same
    rw [← same]
    rfl
  · intro plain
    exact ext_lookup (sub_add_locals x f) plain.symm

/-- Fees go on and off every circuit of a value, which comes back but for a circuit-free
    part. Overrides get lost when fees are added up. -/
theorem fees_exact_iff (x : Cash) (f g : Fees) :
    (∀ c : CashName, (x.addFees f).locals[c]? = x.locals[c]?.map (· + feePart f c) ∧ (x.subFees f).locals[c]? = x.locals[c]?.map (· - feePart f c) ∧
      ((x.addFees f).subFees f).locals[c]? = x.locals[c]?) ∧
    ((x.addFees f).subFees f = x ↔ x.fixed = 0) ∧
    ∀ c : CashName, (feePart (Fees.add f g) c = feePart f c+feePart g c ↔ overridden f c+overridden g c = 0) ∧
      (feePart (Fees.addAssign f g) c = feePart f c+feePart g c ↔ if c ∈ f.locals then feePart g c = 0 else overridden g c = 0) :=
  ⟨fun c => ⟨addFees_lookup x f c,subFees_lookup x f c,sub_add_locals x f c⟩,sub_add_iff x f,
    fun c => ⟨add_exact_iff f g c,addAssign_exact_iff f g c⟩⟩

/-- A fee of 5 in one circuit and 1 in the others, added to itself. -/
theorem overrides_lost :
    let f : Fees := ⟨(∅ : CashStruct).insert [65] 5,1⟩
    feePart (Fees.add f f) [65] = 2 ∧ feePart (Fees.addAssign f f) [65] = 5 ∧ feePart f [65]+feePart f [65] = 10 ∧
      ((assignAmount 3).addFees f).subFees f ≠ assignAmount 3 := by
  refine ⟨by decide +kernel,by decide +kernel,by decide +kernel,fun same => ?_⟩
  have fixed := (sub_add_iff (assignAmount 3) _).mp same
  revert fixed
  decide

end Cash
end Tetra
