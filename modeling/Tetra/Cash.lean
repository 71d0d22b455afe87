import Mathlib
import Tetra.Maps

/-!
`Cash` and `Fees`: a map from circuit names to signed 64-bit amounts beside one
circuit-free amount. Arithmetic goes circuit by circuit and wraps; comparisons
look only at the circuits of their left operand.
-/
namespace Tetra
open Std

abbrev CashName := List UInt8
abbrev Amount := Int64
abbrev CashStruct := ExtTreeMap CashName Amount

/-- `Cash`; the field `local` of the source is `locals`. -/
structure Cash where
  locals : CashStruct := ∅
  fixed : Amount := 0

/-- A `Fees` has the fields of the `Cash` it extends. -/
abbrev Fees := Cash

namespace Cash

def ofMoney (x : CashName × Amount) : Cash := ⟨(∅ : CashStruct).insert x.1 x.2,0⟩
/-- The constructor from an amount keeps nothing of it. -/
def ofAmount (_ : Amount) : Cash := ⟨∅,0⟩
def ofCashStruct (x : CashStruct) : Cash := ⟨x,0⟩
/-- Assignment from an integer. -/
def assignAmount (x : Amount) : Cash := ⟨∅,x⟩
def size (x : Cash) : Nat := x.locals.size

/-- What a value holds in one circuit; an absent circuit holds nothing. -/
def amount (x : Cash) (c : CashName) : Amount := x.locals[c]?.getD 0

/-- `x += y` -/
def addAssign (x y : Cash) : Cash :=
  ⟨Maps.mergeInto (· + ·) id x.locals y.locals,
    if x.fixed ≠ 0 ∨ y.fixed ≠ 0 then x.fixed+y.fixed else x.fixed⟩

/-- `x -= y` -/
def subAssign (x y : Cash) : Cash :=
  ⟨Maps.mergeInto (· - ·) (- ·) x.locals y.locals,
    if x.fixed ≠ 0 ∨ y.fixed ≠ 0 then x.fixed-y.fixed else x.fixed⟩

/-- `y + x`, in the order of the source. -/
def add (y x : Cash) : Cash := ((⟨∅,0⟩ : Cash).addAssign x).addAssign y
/-- `y - x` -/
def sub (y x : Cash) : Cash := ((⟨∅,0⟩ : Cash).addAssign y).subAssign x

/-- `y + x` for an integer: added to every circuit that is present. -/
def addAmount (y : Cash) (x : Amount) : Cash :=
  ⟨y.locals.map fun _ v => 0+v+x,if y.fixed ≠ 0 then y.fixed+x else y.fixed⟩

/-- `x > y` -/
def gt (x y : Cash) : Bool :=
  if x.locals.size = 0 ∧ y.locals.size = 0 then false
  else x.locals.toList.all fun e =>
    match y.locals[e.1]? with
    | some other => !decide (other ≥ e.2)
    | none => !decide (e.2 ≤ 0)

/-- `x < y` -/
def lt (x y : Cash) : Bool :=
  if x.locals.size = 0 ∧ y.locals.size = 0 then false
  else x.locals.toList.all fun e =>
    match y.locals[e.1]? with
    | some other => !decide (other ≤ e.2)
    | none => !decide (e.2 ≥ 0)

/-- `x == y` -/
def eq (x y : Cash) : Bool :=
  if x.fixed ≠ y.fixed then false
  else if x.lt y || x.gt y then false
  else true

def ne (x y : Cash) : Bool := !x.eq y
def le (x y : Cash) : Bool := !x.gt y
def ge (x y : Cash) : Bool := !x.lt y

def Max (x : Cash) : Amount :=
  let max := x.locals.toList.foldl (fun max e => if max < e.2 then e.2 else max) 0
  if x.fixed ≠ 0 ∧ max < x.fixed then x.fixed else max

def Min (x : Cash) : Amount :=
  match x.locals.toList with
  | [] => x.fixed
  | [e] => if x.fixed = 0 then e.2 else if e.2 > x.fixed then x.fixed else e.2
  | e :: rest => rest.foldl (fun min e => if min > e.2 then e.2 else min) e.2

def leAmount (x : Cash) (y : Amount) : Bool := decide (x.Min ≤ y)
def ltAmount (x : Cash) (y : Amount) : Bool := decide (x.Min < y)
def geAmount (x : Cash) (y : Amount) : Bool := decide (x.Max ≥ y)
def gtAmount (x : Cash) (y : Amount) : Bool := decide (x.Max > y)

end Cash

/-- `nFees += x`: only the circuit-free part is added. -/
def Fees.addAssign (nFees x : Fees) : Fees := ⟨nFees.locals,nFees.fixed+x.fixed⟩

def COIN : Amount := 100
def CENT : Amount := 1
def MAX_MONEY : Amount := 18400000000*COIN
def MoneyRange (nValue : Cash) : Bool := nValue.geAmount 0 && nValue.leAmount MAX_MONEY

namespace Cash

@[ext] theorem ext_lookup {x y : Cash} (locals : ∀ c : CashName, x.locals[c]? = y.locals[c]?)
    (fixed : x.fixed = y.fixed) : x = y := by
  obtain ⟨left,leftFixed⟩ := x
  obtain ⟨right,rightFixed⟩ := y
  have same : left = right := ExtTreeMap.ext_getElem? locals
  simp_all

@[simp] theorem amount_empty (fixed : Amount) (c : CashName) : amount ⟨∅,fixed⟩ c = 0 := by simp [amount]

theorem ofMoney_amount (k : CashName) (v : Amount) (c : CashName) : (ofMoney (k,v)).amount c = if k = c then v else 0 := by
  by_cases same : k = c <;> simp [amount,ofMoney,same]

theorem size_eq_zero_iff (x : Cash) : x.size = 0 ↔ ∀ c : CashName, x.locals[c]? = none := by
  rw [size,← Maps.isEmpty_iff_getElem?,ExtTreeMap.isEmpty_iff,ExtTreeMap.eq_empty_iff_size_eq_zero]

theorem exists_lookup {x : Cash} (filled : x.size ≠ 0) : ∃ (c : CashName) (v : Amount), x.locals[c]? = some v := by
  by_contra none
  push Not at none
  refine filled ((size_eq_zero_iff x).mpr fun c => ?_)
  by_contra present
  obtain ⟨v,found⟩ := Option.ne_none_iff_exists'.mp present
  exact none c v found

theorem amount_of_lookup {x : Cash} {c : CashName} {v : Amount} (found : x.locals[c]? = some v) :
    x.amount c = v := by
  simp [amount,found]

@[simp] theorem addAssign_amount (x y : Cash) (c : CashName) : (x.addAssign y).amount c = x.amount c+y.amount c := by
  simp only [amount,addAssign,Maps.getElem?_mergeInto]
  cases y.locals[c]? <;> cases x.locals[c]? <;> simp

@[simp] theorem subAssign_amount (x y : Cash) (c : CashName) : (x.subAssign y).amount c = x.amount c-y.amount c := by
  simp only [amount,subAssign,Maps.getElem?_mergeInto]
  cases y.locals[c]? <;> cases x.locals[c]? <;> simp

@[simp] theorem addAssign_fixed (x y : Cash) : (x.addAssign y).fixed = x.fixed+y.fixed := by
  by_cases zero : x.fixed ≠ 0 ∨ y.fixed ≠ 0
  · simp [addAssign,zero]
  · obtain ⟨left,right⟩ : x.fixed = 0 ∧ y.fixed = 0 := by simpa [not_or] using zero
    simp [addAssign,left,right]

@[simp] theorem subAssign_fixed (x y : Cash) : (x.subAssign y).fixed = x.fixed-y.fixed := by
  by_cases zero : x.fixed ≠ 0 ∨ y.fixed ≠ 0
  · simp [subAssign,zero]
  · obtain ⟨left,right⟩ : x.fixed = 0 ∧ y.fixed = 0 := by simpa [not_or] using zero
    simp [subAssign,left,right]

@[simp] theorem add_amount (y x : Cash) (c : CashName) : (y.add x).amount c = y.amount c+x.amount c := by
  simp [add,Int64.add_comm]

@[simp] theorem sub_amount (y x : Cash) (c : CashName) : (y.sub x).amount c = y.amount c-x.amount c := by
  simp [sub]

@[simp] theorem add_fixed (y x : Cash) : (y.add x).fixed = y.fixed+x.fixed := by
  simp [add,Int64.add_comm]

@[simp] theorem sub_fixed (y x : Cash) : (y.sub x).fixed = y.fixed-x.fixed := by
  simp [sub]

/-- A difference carries every circuit of either side. -/
theorem sub_lookup (y x : Cash) (c : CashName) (present : y.locals[c]? ≠ none ∨ x.locals[c]? ≠ none) :
    (y.sub x).locals[c]? = some (y.amount c-x.amount c) := by
  simp only [sub,addAssign,subAssign,amount,Maps.getElem?_mergeInto]
  cases right : x.locals[c]? <;> cases left : y.locals[c]? <;> simp_all

/-- `x > y` holds when some side has a circuit and every circuit of `x` is above
    what `y` has in it. Circuits that only `y` has are not looked at. -/
theorem gt_iff (x y : Cash) :
    x.gt y = true ↔ (x.size ≠ 0 ∨ y.size ≠ 0) ∧ ∀ c v, x.locals[c]? = some v → y.amount c < v := by
  by_cases empty : x.locals.size = 0 ∧ y.locals.size = 0
  · simp [gt,size,empty]
  · have someCircuit : x.size ≠ 0 ∨ y.size ≠ 0 := not_and_or.mp empty
    simp only [gt,if_neg empty,someCircuit,true_and]
    rw [Maps.all_toList_iff x.locals fun c v =>
      match y.locals[c]? with | some other => !decide (other ≥ v) | none => !decide (v ≤ 0)]
    refine forall_congr' fun c => forall_congr' fun v => imp_congr_right fun _ => ?_
    cases found : y.locals[c]? <;> simp [amount,found,Int64.not_le]

/-- `x < y`, in the same way. -/
theorem lt_iff (x y : Cash) :
    x.lt y = true ↔ (x.size ≠ 0 ∨ y.size ≠ 0) ∧ ∀ c v, x.locals[c]? = some v → v < y.amount c := by
  by_cases empty : x.locals.size = 0 ∧ y.locals.size = 0
  · simp [lt,size,empty]
  · have someCircuit : x.size ≠ 0 ∨ y.size ≠ 0 := not_and_or.mp empty
    simp only [lt,if_neg empty,someCircuit,true_and]
    rw [Maps.all_toList_iff x.locals fun c v =>
      match y.locals[c]? with | some other => !decide (other ≤ v) | none => !decide (v ≥ 0)]
    refine forall_congr' fun c => forall_congr' fun v => imp_congr_right fun _ => ?_
    cases found : y.locals[c]? <;> simp [amount,found,Int64.not_le]

theorem gt_irrefl (x : Cash) : x.gt x = false := by
  by_contra greater
  obtain ⟨nonempty,all⟩ := (gt_iff x x).mp (by simpa using greater)
  obtain ⟨c,v,found⟩ := exists_lookup (by tauto : x.size ≠ 0)
  have := all c v found
  simp [amount_of_lookup found] at this

theorem lt_irrefl (x : Cash) : x.lt x = false := by
  by_contra less
  obtain ⟨nonempty,all⟩ := (lt_iff x x).mp (by simpa using less)
  obtain ⟨c,v,found⟩ := exists_lookup (by tauto : x.size ≠ 0)
  have := all c v found
  simp [amount_of_lookup found] at this

theorem eq_refl (x : Cash) : x.eq x = true := by
  simp [eq,lt_irrefl,gt_irrefl]

private theorem foldl_max_le_iff (entries : List (CashName × Amount)) (acc bound : Amount) :
    entries.foldl (fun max e => if max < e.2 then e.2 else max) acc ≤ bound ↔
      acc ≤ bound ∧ ∀ e ∈ entries, e.2 ≤ bound := by
  induction entries generalizing acc with
  | nil => simp
  | cons e rest ih =>
    rw [List.foldl_cons,ih,List.forall_mem_cons]
    by_cases above : acc < e.2
    · have trans : e.2 ≤ bound → acc ≤ bound := fun le => Int64.le_trans (Int64.le_of_lt above) le
      simp only [above,if_true]
      tauto
    · have trans : acc ≤ bound → e.2 ≤ bound := fun le => Int64.le_trans (Int64.not_lt.mp above) le
      simp only [above,if_false]
      tauto

private theorem le_foldl_min_iff (entries : List (CashName × Amount)) (acc bound : Amount) :
    bound ≤ entries.foldl (fun min e => if min > e.2 then e.2 else min) acc ↔
      bound ≤ acc ∧ ∀ e ∈ entries, bound ≤ e.2 := by
  induction entries generalizing acc with
  | nil => simp
  | cons e rest ih =>
    rw [List.foldl_cons,ih,List.forall_mem_cons]
    by_cases below : acc > e.2
    · have trans : bound ≤ e.2 → bound ≤ acc := fun le => Int64.le_trans le (Int64.le_of_lt below)
      simp only [below,if_true]
      tauto
    · have trans : bound ≤ acc → bound ≤ e.2 := fun le => Int64.le_trans le (Int64.not_lt.mp below)
      simp only [below,if_false]
      tauto

private theorem forall_toList_iff (x : Cash) (p : Amount → Prop) :
    (∀ e ∈ x.locals.toList, p e.2) ↔ ∀ (c : CashName) v, x.locals[c]? = some v → p v := by
  constructor
  · intro all c v found
    exact all (c,v) (ExtTreeMap.mem_toList_iff_getElem?_eq_some.mpr found)
  · intro all e member
    exact all e.1 e.2 (ExtTreeMap.mem_toList_iff_getElem?_eq_some.mp member)

/-- `Max` is the largest of zero, the circuits and the circuit-free part. -/
theorem Max_le_iff (x : Cash) (bound : Amount) :
    x.Max ≤ bound ↔ 0 ≤ bound ∧ (∀ (c : CashName) v, x.locals[c]? = some v → v ≤ bound) ∧ x.fixed ≤ bound := by
  rw [← forall_toList_iff x (· ≤ bound),← and_assoc,← foldl_max_le_iff]
  simp only [Max]
  have nonneg := ((foldl_max_le_iff x.locals.toList 0 _).mp (Int64.le_refl _)).1
  generalize x.locals.toList.foldl (fun max e => if max < e.2 then e.2 else max) 0 = top at *
  by_cases replaced : x.fixed ≠ 0 ∧ top < x.fixed
  · rw [if_pos replaced]
    exact ⟨fun le => ⟨Int64.le_trans (Int64.le_of_lt replaced.2) le,le⟩,And.right⟩
  · rw [if_neg replaced]
    refine ⟨fun le => ⟨le,?_⟩,And.left⟩
    by_cases zero : x.fixed = 0
    · rw [zero]; exact Int64.le_trans nonneg le
    · have below : ¬ top < x.fixed := fun above => replaced ⟨zero,above⟩
      exact Int64.le_trans (Int64.not_lt.mp below) le

theorem Max_nonneg (x : Cash) : 0 ≤ x.Max := ((Max_le_iff x x.Max).mp (Int64.le_refl _)).1

/-- Every circuit is at least `Min`, whatever the circuit-free part. -/
theorem Min_le_of_lookup {x : Cash} {c : CashName} {v : Amount} (found : x.locals[c]? = some v) : x.Min ≤ v := by
  have member := ExtTreeMap.mem_toList_iff_getElem?_eq_some.mpr found
  rw [Min]
  split
  · next none => simp [none] at member
  · next e one =>
    obtain rfl : (c,v) = e := by simpa [one] using member
    by_cases zero : x.fixed = 0
    · simp [zero]
    · simp only [zero,if_false]
      split
      · next above => exact Int64.le_of_lt above
      · exact Int64.le_refl _
  · next e rest _ several =>
    rw [several] at member
    have all := (le_foldl_min_iff rest e.2 _).mp (Int64.le_refl _)
    rcases List.mem_cons.mp member with rfl | later
    · exact all.1
    · exact all.2 _ later

/-- Without a circuit-free part, `Min` is the smallest circuit, and zero when there is none. -/
theorem le_Min_iff (x : Cash) (plain : x.fixed = 0) (bound : Amount) :
    bound ≤ x.Min ↔ (x.size = 0 → bound ≤ 0) ∧ ∀ (c : CashName) v, x.locals[c]? = some v → bound ≤ v := by
  rw [← forall_toList_iff x (bound ≤ ·),size,← ExtTreeMap.length_toList,Min]
  split
  · next none => simp [none,plain]
  · next e one => simp [one,plain]
  · next e rest _ several => simp [several,le_foldl_min_iff]

end Cash
end Tetra
