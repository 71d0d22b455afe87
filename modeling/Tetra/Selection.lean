import Mathlib
import Tetra.Wallet
import Tetra.Wrap

/-!
When the coins the wallet chooses pay for the target. `Cash` compares only the
circuits of its left operand, so the loop over the coins sorts them into exact,
small and large ones that need not cover the target, and the search may stop at
coins that reach it in one circuit only.
-/
namespace Tetra
open Std

namespace Cash

/-- At least the target in every circuit. -/
def Covers (x target : Cash) : Prop := ∀ c, (target.amount c).toInt ≤ (x.amount c).toInt

/-- An amount of each circuit, none negative: what outputs hold and payments ask for. -/
structure Plain (x : Cash) : Prop where
  fixed : x.fixed = 0
  nonneg : ∀ c, 0 ≤ (x.amount c).toInt

/-- Only circuits that the target asks for are listed. -/
def Within (x target : Cash) : Prop := ∀ c v, x.locals[c]? = some v → 0 < (target.amount c).toInt

theorem eq_iff {x y : Cash} (fixed : x.fixed = y.fixed) : x.eq y = true ↔ x.lt y = false ∧ x.gt y = false := by
  cases below : x.lt y <;> cases above : x.gt y <;> simp [Cash.eq,fixed,below,above]

theorem lookup_of_pos {x : Cash} {c : CashName} (positive : 0 < (x.amount c).toInt) : x.locals[c]? = some (x.amount c) := by
  cases found : x.locals[c]? with
  | none => simp [amount,found] at positive
  | some v => simp [amount,found]

theorem addAmount_lookup (x : Cash) (y : Amount) (c : CashName) : (x.addAmount y).locals[c]? = x.locals[c]?.map (· + y) := by
  simp [addAmount,ExtTreeMap.getElem?_map]

theorem addAmount_size (x : Cash) (y : Amount) : (x.addAmount y).size = 0 ↔ x.size = 0 := by
  rw [size_eq_zero_iff,size_eq_zero_iff]
  simp [addAmount_lookup]

/-- A target plus one unit, where the circuit is listed. -/
theorem addAmount_CENT {target : Cash} {c : CashName} {v : Amount} (listed : target.locals[c]? = some v)
    (fits : v.toInt < 2^63-1) : ((target.addAmount CENT).amount c).toInt = v.toInt+1 := by
  have one : CENT.toInt = 1 := by decide
  have low := v.le_toInt
  have here : (target.addAmount CENT).amount c = v+CENT := by simp [amount,addAmount_lookup,listed]
  rw [here,Wrap.toInt_add_of_fits (by omega) (by omega),one]

theorem amount_addAmount_of_absent {target : Cash} {c : CashName} (absent : target.locals[c]? = none) :
    (target.addAmount CENT).amount c = 0 := by
  simp [amount,addAmount_lookup,absent]

section
variable {n target : Cash} (plain : n.Plain) (asked : target.Plain) (fits : ∀ c, (target.amount c).toInt < 2^63-1)
include plain asked fits

/-- Below the raised target and not equal to the target means below the target. -/
theorem lt_of_small (notEqual : n.eq target = false) (small : n.lt (target.addAmount CENT) = true) : n.lt target = true := by
  obtain ⟨sizes,each⟩ := (lt_iff ..).mp small
  rw [Ne,Ne,addAmount_size] at sizes
  by_contra notBelow
  have above : n.gt target = true := by
    by_contra notAbove
    have := (eq_iff (plain.fixed.trans asked.fixed.symm)).mpr ⟨by simpa using notBelow,by simpa using notAbove⟩
    simp [notEqual] at this
  refine notBelow ((lt_iff ..).mpr ⟨sizes,fun c v found => ?_⟩)
  have high := each c v found
  have low := ((gt_iff ..).mp above).2 c v found
  rw [Int64.lt_iff_toInt_lt] at high low
  have nonneg := asked.nonneg c
  cases listed : target.locals[c]? with
  | none =>
    rw [amount_addAmount_of_absent listed,Int64.toInt_zero] at high
    omega
  | some t =>
    have here := amount_of_lookup listed
    rw [addAmount_CENT listed (by rw [← here]; exact fits c)] at high
    rw [here] at low
    omega

/-- Neither equal nor below the raised target means above the target, and listing something. -/
theorem gt_of_large (notEqual : n.eq target = false) (large : n.lt (target.addAmount CENT) = false) :
    n.gt target = true ∧ n.size ≠ 0 := by
  have notBelow : n.lt target = false := by
    by_contra below
    obtain ⟨sizes,each⟩ := (lt_iff ..).mp (by simpa using below)
    have : n.lt (target.addAmount CENT) = true := by
      refine (lt_iff ..).mpr ⟨by rwa [Ne,Ne,addAmount_size],fun c v found => ?_⟩
      have high := each c v found
      rw [Int64.lt_iff_toInt_lt] at high ⊢
      have nonneg := plain.nonneg c
      rw [amount_of_lookup found] at nonneg
      have listed : target.locals[c]? = some (target.amount c) := lookup_of_pos (by omega)
      rw [addAmount_CENT listed (fits c)]
      omega
    simp [large] at this
  have above : n.gt target = true := by
    by_contra notAbove
    have := (eq_iff (plain.fixed.trans asked.fixed.symm)).mpr ⟨notBelow,by simpa using notAbove⟩
    simp [notEqual] at this
  refine ⟨above,fun empty => ?_⟩
  obtain ⟨sizes,_⟩ := (gt_iff ..).mp above
  have : n.lt target = true :=
    (lt_iff ..).mpr ⟨sizes,fun c v found => by simp [(size_eq_zero_iff n).mp empty c] at found⟩
  simp [notBelow] at this

omit asked fits in
theorem within_of_lt (below : n.lt target = true) : n.Within target := by
  intro c v found
  have high := ((lt_iff ..).mp below).2 c v found
  rw [Int64.lt_iff_toInt_lt] at high
  have nonneg := plain.nonneg c
  rw [amount_of_lookup found] at nonneg
  omega

end

/-- On values that list only what the target asks for, `>=` means reaching it in some circuit. -/
theorem ge_iff_reaches {x target : Cash} (within : x.Within target) (asks : ∃ c, 0 < (target.amount c).toInt) :
    x.ge target = true ↔ ∃ c, 0 < (target.amount c).toInt ∧ (target.amount c).toInt ≤ (x.amount c).toInt := by
  obtain ⟨c0,positive⟩ := asks
  have filled : target.size ≠ 0 := by
    intro empty
    have := (size_eq_zero_iff target).mp empty c0
    rw [lookup_of_pos positive] at this
    contradiction
  have below := lt_iff x target
  constructor
  · intro reaches
    have notBelow : ¬ x.lt target = true := by simpa [ge] using reaches
    rw [below] at notBelow
    push Not at notBelow
    obtain ⟨c,v,found,le⟩ := notBelow (Or.inr filled)
    refine ⟨c,within c v found,?_⟩
    rw [amount_of_lookup found]
    exact Int64.le_iff_toInt_le.mp (Int64.not_lt.mp le)
  · rintro ⟨c,asked,le⟩
    by_contra short
    have isBelow : x.lt target = true := by simpa [ge] using short
    have high := (below.mp isBelow).2 c _ (lookup_of_pos (by omega))
    rw [Int64.lt_iff_toInt_lt] at high
    omega

theorem within_addAssign {x y target : Cash} (left : x.Within target) (right : y.Within target) : (x.addAssign y).Within target := by
  intro c v found
  simp only [addAssign,Maps.getElem?_mergeInto] at found
  cases inY : y.locals[c]? with
  | none => exact left c v (by simpa [inY] using found)
  | some w => exact right c w inY

theorem within_subAssign {x y target : Cash} (left : x.Within target) (right : y.Within target) : (x.subAssign y).Within target := by
  intro c v found
  simp only [subAssign,Maps.getElem?_mergeInto] at found
  cases inY : y.locals[c]? with
  | none => exact left c v (by simpa [inY] using found)
  | some w => exact right c w inY

theorem within_empty (target : Cash) : ({} : Cash).Within target := by
  intro c v found
  simp at found

end Cash

/-- What some coins hold in one circuit, exactly. -/
def sumIn (coins : List Valued) (c : CashName) : Int := (coins.map fun coin => (coin.1.amount c).toInt).sum
/-- Coins added up as `nValueRet` and `nTotalLower` are. -/
def total (coins : List Valued) : Cash := coins.foldl (fun x coin => x.addAssign coin.1) {}

/-- Values off the wire that `CheckTransaction` let through, whose sums fit. -/
structure Countable (coins : List Valued) : Prop where
  plain : ∀ coin ∈ coins, coin.1.Plain
  fits : ∀ c, sumIn coins c < 2^63-1

section
variable {coins : List Valued}

@[simp] theorem sumIn_nil (c : CashName) : sumIn [] c = 0 := rfl
@[simp] theorem sumIn_cons (coin : Valued) (coins : List Valued) (c : CashName) :
    sumIn (coin :: coins) c = (coin.1.amount c).toInt+sumIn coins c := by simp [sumIn]
@[simp] theorem sumIn_append (coins others : List Valued) (c : CashName) :
    sumIn (coins ++ others) c = sumIn coins c+sumIn others c := by simp [sumIn]

theorem sumIn_perm {others : List Valued} (perm : coins.Perm others) (c : CashName) : sumIn coins c = sumIn others c :=
  (perm.map _).sum_eq

theorem sumIn_nonneg (plain : ∀ coin ∈ coins, coin.1.Plain) (c : CashName) : 0 ≤ sumIn coins c := by
  refine List.sum_nonneg fun v member => ?_
  obtain ⟨coin,inside,rfl⟩ := List.mem_map.mp member
  exact (plain coin inside).nonneg c

theorem sumIn_sublist {some : List Valued} (sub : some.Sublist coins) (plain : ∀ coin ∈ coins, coin.1.Plain) (c : CashName) :
    sumIn some c ≤ sumIn coins c := by
  induction sub with
  | slnil => exact Int.le_refl _
  | cons coin sub ih =>
    have first := (plain coin (List.mem_cons_self ..)).nonneg c
    have rest := ih fun other member => plain other (List.mem_cons_of_mem _ member)
    simp only [sumIn_cons]
    omega
  | cons_cons coin sub ih =>
    have rest := ih fun other member => plain other (List.mem_cons_of_mem _ member)
    simp only [sumIn_cons]
    omega

theorem Countable.subperm {some : List Valued} (countable : Countable coins) (sub : some.Subperm coins) : Countable some := by
  obtain ⟨others,perm,sublist⟩ := sub
  refine ⟨fun coin member => countable.plain coin (sublist.subset (perm.symm.subset member)),fun c => ?_⟩
  have := sumIn_sublist sublist countable.plain c
  have := countable.fits c
  rw [← sumIn_perm perm]
  omega

private theorem foldl_amount (coins : List Valued) (x : Cash) (c : CashName) :
    (coins.foldl (fun x coin => x.addAssign coin.1) x).amount c = (coins.map fun coin => coin.1.amount c).foldl (· + ·) (x.amount c) := by
  induction coins generalizing x with
  | nil => rfl
  | cons coin rest ih => simp [ih]

private theorem foldl_lists (coins : List Valued) (x : Cash) (c : CashName) :
    (coins.foldl (fun x coin => x.addAssign coin.1) x).locals[c]? = none ↔
      x.locals[c]? = none ∧ ∀ coin ∈ coins, coin.1.locals[c]? = none := by
  induction coins generalizing x with
  | nil => simp
  | cons coin rest ih =>
    rw [List.foldl_cons,ih,List.forall_mem_cons,← and_assoc]
    refine and_congr_left fun _ => ?_
    simp only [Cash.addAssign,Maps.getElem?_mergeInto]
    cases coin.1.locals[c]? <;> simp

private theorem foldl_fixed {coins : List Valued} (plain : ∀ coin ∈ coins, coin.1.Plain) (x : Cash) :
    (coins.foldl (fun x coin => x.addAssign coin.1) x).fixed = x.fixed := by
  induction coins generalizing x with
  | nil => rfl
  | cons coin rest ih =>
    rw [List.foldl_cons,ih fun other member => plain other (List.mem_cons_of_mem _ member)]
    simp [(plain coin (List.mem_cons_self ..)).fixed]

theorem total_lists (coins : List Valued) (c : CashName) :
    (total coins).locals[c]? = none ↔ ∀ coin ∈ coins, coin.1.locals[c]? = none := by
  rw [total,foldl_lists]
  simp

theorem total_amount (countable : Countable coins) (c : CashName) : ((total coins).amount c).toInt = sumIn coins c := by
  have exactly : (coins.map fun coin => coin.1.amount c).map Int64.toInt = coins.map fun coin => (coin.1.amount c).toInt := by simp
  have fits := countable.fits c
  rw [total,foldl_amount,Cash.amount_empty,Wrap.toInt_foldl_add_of_sum]
  · rw [exactly]
    exact zero_add _
  · intro v member
    obtain ⟨coin,inside,rfl⟩ := List.mem_map.mp member
    exact (countable.plain coin inside).nonneg c
  · decide
  · rw [exactly]
    have : sumIn coins c < 2^63-1 := fits
    rw [sumIn] at this
    simp only [Int64.toInt_zero]
    omega

theorem total_plain (countable : Countable coins) : (total coins).Plain := by
  refine ⟨foldl_fixed countable.plain _,fun c => ?_⟩
  rw [total_amount countable]
  exact sumIn_nonneg countable.plain c

theorem total_within {target : Cash} (within : ∀ coin ∈ coins, coin.1.Within target) : (total coins).Within target := by
  intro c v found
  have listed : (total coins).locals[c]? ≠ none := by simp [found]
  rw [Ne,total_lists] at listed
  push Not at listed
  obtain ⟨coin,member,present⟩ := listed
  obtain ⟨w,here⟩ := Option.ne_none_iff_exists'.mp present
  exact within coin member c w here

end

/-! ### The search for a subset -/

theorem marked_sublist (vValue : List Valued) (vfBest : List Bool) : (marked vValue vfBest).Sublist vValue := by
  induction vValue generalizing vfBest with
  | nil => simp [marked]
  | cons coin rest ih =>
    cases vfBest with
    | nil => simp [marked]
    | cons bit bits =>
      cases bit
      · exact (ih bits).trans (List.sublist_cons_self ..)
      · exact (ih bits).cons_cons coin

theorem marked_all (vValue : List Valued) : marked vValue (List.replicate vValue.length true) = vValue := by
  induction vValue with
  | nil => rfl
  | cons coin rest ih => exact congrArg (coin :: ·) ih

private theorem marked_none (vValue : List Valued) : marked vValue (List.replicate vValue.length false) = [] := by
  induction vValue with
  | nil => rfl
  | cons coin rest ih => exact ih

/-- Marking one more coin adds its value. -/
theorem sumIn_marked_set {vValue : List Valued} {bits : List Bool} {i : Nat} {coin : Valued} (there : vValue[i]? = some coin)
    (unmarked : bits[i]? = some false) (c : CashName) :
    sumIn (marked vValue (bits.set i true)) c = sumIn (marked vValue bits) c+(coin.1.amount c).toInt := by
  induction vValue generalizing bits i with
  | nil => simp at there
  | cons first rest ih =>
    cases bits with
    | nil => simp at unmarked
    | cons bit bits =>
      cases i with
      | zero =>
        obtain rfl : first = coin := by simpa using there
        obtain rfl : bit = false := by simpa using unmarked
        simp [marked,add_comm]
      | succ i =>
        have restThere : rest[i]? = some coin := by simpa using there
        have restUnmarked : bits[i]? = some false := by simpa using unmarked
        have later := ih restThere restUnmarked
        cases bit
        · exact later
        · simp only [List.set_cons_succ,marked,List.zip_cons_cons,List.filter_cons_of_pos,List.map_cons,sumIn_cons] at later ⊢
          omega

/-- What the search has noted: all the coins, or coins that the comparison takes to
    reach the target and to be less than all. -/
inductive Noted (vValue : List Valued) (asked nTotalLower nTargetValue : Cash) : List Bool → Cash → Prop
  | all : Noted vValue asked nTotalLower nTargetValue (List.replicate vValue.length true) nTotalLower
  | better {vfBest : List Bool} {nBest : Cash} (exact : ∀ c, (nBest.amount c).toInt = sumIn (marked vValue vfBest) c)
      (within : nBest.Within asked) (reaches : nBest.ge nTargetValue = true)
      (less : ∀ c, 0 < (nBest.amount c).toInt → (nBest.amount c).toInt < sumIn vValue c) :
      Noted vValue asked nTotalLower nTargetValue vfBest nBest

/-- The variables of the search while it adds coins up. -/
structure Searching (vValue : List Valued) (asked nTotalLower nTargetValue : Cash) (s : SubsetSearch) : Prop where
  length : s.vfIncluded.length = vValue.length
  exact : ∀ c, (s.nTotal.amount c).toInt = sumIn (marked vValue s.vfIncluded) c
  within : s.nTotal.Within asked
  noted : Noted vValue asked nTotalLower nTargetValue s.vfBest s.nBest

theorem tryCoin_included_ne (nTargetValue : Cash) (s : SubsetSearch) {i j : Nat} (n : Cash) (other : i ≠ j) :
    (tryCoin nTargetValue s i n).vfIncluded[j]? = s.vfIncluded[j]? := by
  unfold tryCoin
  dsimp only
  split
  · rw [List.getElem?_set_ne other,List.getElem?_set_ne other]
  · rw [List.getElem?_set_ne other]

section
variable {vValue : List Valued} {asked nTotalLower nTargetValue : Cash} (countable : Countable vValue)
  (within : ∀ coin ∈ vValue, coin.1.Within asked) (lower : ∀ c, (nTotalLower.amount c).toInt = sumIn vValue c)

include lower in
theorem Noted.exact {vfBest : List Bool} {nBest : Cash} (noted : Noted vValue asked nTotalLower nTargetValue vfBest nBest)
    (c : CashName) : (nBest.amount c).toInt = sumIn (marked vValue vfBest) c := by
  cases noted with
  | all => rw [marked_all]; exact lower c
  | better exact => exact exact c

include countable within lower

/-- Trying a coin that is not in keeps the account. -/
theorem tryCoin_searching {s : SubsetSearch} {i : Nat} {coin : Valued} (there : vValue[i]? = some coin)
    (out : s.vfIncluded[i]? = some false) (searching : Searching vValue asked nTotalLower nTargetValue s) :
    Searching vValue asked nTotalLower nTargetValue (tryCoin nTargetValue s i coin.1) := by
  obtain ⟨length,exact,withinTotal,noted⟩ := searching
  have member := List.mem_of_getElem? there
  have marks := marked_sublist vValue (s.vfIncluded.set i true)
  have added (c : CashName) : ((s.nTotal.addAssign coin.1).amount c).toInt = sumIn (marked vValue (s.vfIncluded.set i true)) c := by
    have fits := (countable.subperm marks.subperm).fits c
    have nonneg := sumIn_nonneg (countable.subperm (marked_sublist vValue s.vfIncluded).subperm).plain c
    have coinNonneg := (countable.plain coin member).nonneg c
    rw [sumIn_marked_set there out,← exact c] at fits ⊢
    rw [← exact c] at nonneg
    rw [Cash.addAssign_amount,Wrap.toInt_add_of_fits (by omega) (by omega)]
  have withinAdded := Cash.within_addAssign withinTotal (within coin member)
  unfold tryCoin
  dsimp only
  split
  · next reaches =>
    have undone : (s.vfIncluded.set i true).set i false = s.vfIncluded := by
      rw [List.set_set]
      refine List.ext_getElem? fun j => ?_
      rw [List.getElem?_set]
      split
      · next same =>
        have inside := (List.getElem?_eq_some_iff.mp out).1
        rw [← same,out,if_pos inside]
      · rfl
    refine ⟨by simpa [undone] using length,fun c => ?_,Cash.within_subAssign withinAdded (within coin member),?_⟩
    · rw [undone,Cash.subAssign_amount,Cash.addAssign_amount,Int64.add_sub_cancel]
      exact exact c
    · split
      · next improves =>
        refine .better added withinAdded reaches fun c positive => ?_
        show ((s.nTotal.addAssign coin.1).amount c).toInt < sumIn vValue c
        have below := ((Cash.lt_iff ..).mp improves).2 c _ (Cash.lookup_of_pos positive)
        rw [Int64.lt_iff_toInt_lt,noted.exact lower] at below
        have := sumIn_sublist (marked_sublist vValue s.vfBest) countable.plain c
        omega
      · exact noted
  · exact ⟨by simpa using length,added,withinAdded,noted⟩

theorem searchPass_searching {rand : Option (Nat → Bool)} {s : SubsetSearch} {pairs : List (Valued × Nat)}
    (there : ∀ pair ∈ pairs, vValue[pair.2]? = some pair.1) (distinct : (pairs.map Prod.snd).Nodup)
    (out : rand ≠ none → ∀ pair ∈ pairs, s.vfIncluded[pair.2]? = some false) (searching : Searching vValue asked nTotalLower nTargetValue s) :
    Searching vValue asked nTotalLower nTargetValue (searchPass nTargetValue rand s pairs) := by
  induction pairs generalizing s with
  | nil => exact searching
  | cons pair rest ih =>
    obtain ⟨coin,i⟩ := pair
    have here := there (coin,i) (List.mem_cons_self ..)
    have later : ∀ pair ∈ rest, vValue[pair.2]? = some pair.1 := fun pair member => there pair (List.mem_cons_of_mem _ member)
    obtain ⟨apart,distinct⟩ := List.nodup_cons.mp distinct
    have step (taken : Bool) (outHere : taken = true → s.vfIncluded[i]? = some false) :
        Searching vValue asked nTotalLower nTargetValue (searchPass nTargetValue rand (if taken then tryCoin nTargetValue s i coin.1 else s) rest) := by
      cases taken
      · exact ih later distinct (fun first pair member => out first pair (List.mem_cons_of_mem _ member)) searching
      · refine ih later distinct (fun first pair member => ?_) (tryCoin_searching countable within lower here (outHere rfl) searching)
        have other : i ≠ pair.2 := by
          rintro rfl
          exact apart (List.mem_map.mpr ⟨pair,member,rfl⟩)
        rw [if_pos rfl,tryCoin_included_ne nTargetValue s coin.1 other]
        exact out first pair (List.mem_cons_of_mem _ member)
    cases rand with
    | some bits => exact step (bits i) fun _ => out (by simp) (coin,i) (List.mem_cons_self ..)
    | none =>
      refine step (!(s.vfIncluded[i]?.getD false)) fun taken => ?_
      have inside := (List.getElem?_eq_some_iff.mp here).1
      have indexed := List.getElem?_eq_getElem (searching.length.symm ▸ inside : i < s.vfIncluded.length)
      rw [indexed] at taken ⊢
      simpa using taken

theorem searchRep_noted {bits : Nat → Bool} {vfBest : List Bool} {nBest : Cash}
    (noted : Noted vValue asked nTotalLower nTargetValue vfBest nBest) :
    Noted vValue asked nTotalLower nTargetValue (searchRep vValue nTargetValue bits vfBest nBest).vfBest
      (searchRep vValue nTargetValue bits vfBest nBest).nBest := by
  have there : ∀ pair ∈ vValue.zipIdx, vValue[pair.2]? = some pair.1 := fun pair member =>
    List.mem_zipIdx_iff_getElem?.mp member
  have distinct := List.nodup_zipIdx_map_snd vValue
  have start : Searching vValue asked nTotalLower nTargetValue
      {vfIncluded := List.replicate vValue.length false,vfBest := vfBest,nBest := nBest} :=
    ⟨by simp,fun c => by simp [marked_none],Cash.within_empty _,noted⟩
  have first : Searching vValue asked nTotalLower nTargetValue (searchPass nTargetValue (some bits) _ vValue.zipIdx) :=
    searchPass_searching countable within lower there distinct (fun _ pair member => by
      have inside := (List.getElem?_eq_some_iff.mp (there pair member)).1
      simp [inside]) start
  unfold searchRep
  dsimp only
  split
  · exact first.noted
  · exact (searchPass_searching countable within lower there distinct (by simp) first).noted

theorem searchReps_noted {insecure_rand : Nat → Nat → Bool} {vfBest : List Bool} {nBest : Cash}
    (noted : Noted vValue asked nTotalLower nTargetValue vfBest nBest) (n : Nat) :
    Noted vValue asked nTotalLower nTargetValue (searchReps vValue nTargetValue insecure_rand vfBest nBest n).1
      (searchReps vValue nTargetValue insecure_rand vfBest nBest n).2 := by
  induction n generalizing vfBest nBest with
  | zero => exact noted
  | succ n ih =>
    unfold searchReps
    split
    · exact ih (searchRep_noted countable within lower noted)
    · exact noted

/-- Whatever the random bits, the search ends with coins it was allowed to note. -/
theorem ApproximateBestSubset_noted (insecure_rand : Nat → Nat → Bool) (iterations : Nat) :
    Noted vValue asked nTotalLower nTargetValue (ApproximateBestSubset vValue nTotalLower nTargetValue insecure_rand iterations).1
      (ApproximateBestSubset vValue nTotalLower nTargetValue insecure_rand iterations).2 :=
  searchReps_noted countable within lower .all iterations

end

end Tetra
