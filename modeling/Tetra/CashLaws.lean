import Mathlib
import Tetra.Cash

/-!
The laws of `Cash`. Arithmetic is a group in every circuit, also when an object is
added to itself. The comparisons are an order only where the circuits that the two
sides list fit together.
-/
namespace Tetra
open Std

namespace Cash

/-- `-x`: the loop writes over the entry that it stands on. -/
def neg (x : Cash) : Cash := ⟨Maps.mergeInto (fun _ v => -v) (- ·) x.locals x.locals,-x.fixed⟩

/-- What a fee takes in the circuit `c`. -/
def feePart (fee : Fees) (c : CashName) : Amount := fee.locals[c]?.getD fee.fixed

/-- `fee + x` and `x + fee`: the fee goes on every circuit that `x` lists. -/
def addFees (x : Cash) (fee : Fees) : Cash := ⟨x.locals.map fun c v => v+feePart fee c,0⟩

/-- `x - fee`, which is `-fee + x`. -/
def subFees (x : Cash) (fee : Fees) : Cash := x.addFees fee.neg

/-- The objects in memory by their addresses. -/
abbrev Memory (Address : Type) := Address → Cash

section
variable {Address : Type} [DecidableEq Address]

/-- `this->local[k] = v` -/
def setLocal (objects : Memory Address) (this : Address) (k : CashName) (v : Amount) : Memory Address :=
  Function.update objects this {objects this with locals := (objects this).locals.insert k v}

/-- What the loop writes for the entry of `k`. -/
def entryAfter (op : Amount → Amount → Amount) (fresh : Amount → Amount) (acc : CashStruct) (k : CashName) (v : Amount) : Amount :=
  match acc[k]? with
  | some old => op old v
  | none => fresh v

/-- The body of `*this += y` and `*this -= y`, where `y` may be `*this`: the loop runs
    over a copy of `y.local` and reads what `this` holds by then. -/
def assignIn (op : Amount → Amount → Amount) (fresh : Amount → Amount) (objects : Memory Address) (this y : Address) :
    Memory Address :=
  let x := (objects y).locals
  let objects := if (objects this).fixed ≠ 0 ∨ (objects y).fixed ≠ 0 then
    Function.update objects this {objects this with fixed := op (objects this).fixed (objects y).fixed} else objects
  x.foldl (fun objects k v => setLocal objects this k (entryAfter op fresh (objects this).locals k v)) objects

def addAssignIn (objects : Memory Address) (this y : Address) : Memory Address := assignIn (· + ·) id objects this y
def subAssignIn (objects : Memory Address) (this y : Address) : Memory Address := assignIn (· - ·) (- ·) objects this y

private theorem foldl_setLocal (entry : CashStruct → CashName → Amount → Amount) (this : Address)
    (entries : List (CashName × Amount)) (objects : Memory Address) :
    entries.foldl (fun objects e => setLocal objects this e.1 (entry (objects this).locals e.1 e.2)) objects =
      Function.update objects this {objects this with
        locals := entries.foldl (fun acc e => acc.insert e.1 (entry acc e.1 e.2)) (objects this).locals} := by
  induction entries generalizing objects with
  | nil => simp
  | cons e rest ih =>
    rw [List.foldl_cons,ih]
    simp [setLocal]

/-- Whether or not the operands are one object, only `this` changes, to the value
    that the operator gives for what the two held before. -/
theorem assignIn_eq (op : Amount → Amount → Amount) (fresh : Amount → Amount) (objects : Memory Address) (this y : Address) :
    assignIn op fresh objects this y = Function.update objects this
      ⟨Maps.mergeInto op fresh (objects this).locals (objects y).locals,
        if (objects this).fixed ≠ 0 ∨ (objects y).fixed ≠ 0 then op (objects this).fixed (objects y).fixed
        else (objects this).fixed⟩ := by
  have merged : Maps.mergeInto op fresh (objects this).locals (objects y).locals =
      (objects y).locals.toList.foldl (fun acc e => acc.insert e.1 (entryAfter op fresh acc e.1 e.2)) (objects this).locals := by
    rw [Maps.mergeInto,ExtTreeMap.foldl_eq_foldl_toList]
    congr 1
    funext acc e
    cases found : acc[e.1]? <;> simp [entryAfter,found]
  rw [merged]
  simp only [assignIn,ExtTreeMap.foldl_eq_foldl_toList,foldl_setLocal]
  by_cases counted : (objects this).fixed ≠ 0 ∨ (objects y).fixed ≠ 0
  · simp [counted]
  · simp [counted]

end

@[simp] theorem neg_amount (x : Cash) (c : CashName) : x.neg.amount c = -x.amount c := by
  simp only [amount,neg,Maps.getElem?_mergeInto]
  cases x.locals[c]? <;> simp

@[simp] theorem neg_fixed (x : Cash) : x.neg.fixed = -x.fixed := rfl

theorem addFees_lookup (x : Cash) (fee : Fees) (c : CashName) :
    (x.addFees fee).locals[c]? = x.locals[c]?.map (· + feePart fee c) := by
  simp [addFees,ExtTreeMap.getElem?_map]

@[simp] theorem feePart_neg (fee : Fees) (c : CashName) : feePart fee.neg c = -feePart fee c := by
  simp only [feePart,neg,Maps.getElem?_mergeInto]
  cases fee.locals[c]? <;> simp

theorem subFees_lookup (x : Cash) (fee : Fees) (c : CashName) :
    (x.subFees fee).locals[c]? = x.locals[c]?.map (· - feePart fee c) := by
  simp [subFees,addFees_lookup,Int64.sub_eq_add_neg]

/-- The compound and the binary form leave the same object, key set and all. -/
theorem addAssign_eq_add (x y : Cash) : x.addAssign y = x.add y := by
  apply ext_lookup
  · intro c
    simp only [add,addAssign,Maps.getElem?_mergeInto]
    cases x.locals[c]? <;> cases y.locals[c]? <;> simp [Int64.add_comm]
  · simp

theorem subAssign_eq_sub (x y : Cash) : x.subAssign y = x.sub y := by
  apply ext_lookup
  · intro c
    simp only [sub,addAssign,subAssign,Maps.getElem?_mergeInto]
    cases x.locals[c]? <;> cases y.locals[c]? <;> simp
  · simp

theorem addAssignIn_eq {Address : Type} [DecidableEq Address] (objects : Memory Address) (this y : Address) :
    addAssignIn objects this y = Function.update objects this ((objects this).add (objects y)) := by
  rw [← addAssign_eq_add,addAssignIn,assignIn_eq,addAssign]

theorem subAssignIn_eq {Address : Type} [DecidableEq Address] (objects : Memory Address) (this y : Address) :
    subAssignIn objects this y = Function.update objects this ((objects this).sub (objects y)) := by
  rw [← subAssign_eq_sub,subAssignIn,assignIn_eq,subAssign]

/-- Arithmetic acts on every circuit by itself, as on 64-bit integers; the compound
    forms agree with the binary ones on any two objects, the same one included. -/
theorem additive_group (x y z : Cash) (c : CashName) :
    (x.add y).amount c = x.amount c+y.amount c ∧
    (x.sub y).amount c = x.amount c-y.amount c ∧
    x.neg.amount c = -x.amount c ∧
    (x.addAssign y).amount c = x.amount c+y.amount c ∧
    (x.subAssign y).amount c = x.amount c-y.amount c ∧
    (x.add y).amount c = (y.add x).amount c ∧
    ((x.add y).add z).amount c = (x.add (y.add z)).amount c ∧
    ((x.add y).sub y).amount c = x.amount c ∧
    ∀ (Address : Type) (_ : DecidableEq Address) (objects : Memory Address) (this other : Address),
      addAssignIn objects this other = Function.update objects this ((objects this).add (objects other)) ∧
      subAssignIn objects this other = Function.update objects this ((objects this).sub (objects other)) := by
  refine ⟨add_amount x y c,sub_amount x y c,neg_amount x c,addAssign_amount x y c,subAssign_amount x y c,?_,?_,?_,?_⟩
  · rw [add_amount,add_amount,Int64.add_comm]
  · simp only [add_amount,Int64.add_assoc]
  · rw [sub_amount,add_amount,Int64.add_sub_cancel]
  · intro Address equality objects this other
    exact ⟨addAssignIn_eq objects this other,subAssignIn_eq objects this other⟩

example : addAssignIn (fun _ : Bool => ofMoney ([65],7)) true true =
    Function.update (fun _ => ofMoney ([65],7)) true (ofMoney ([65],14)) := by
  rw [addAssignIn_eq]
  congr 1

end Cash
end Tetra
