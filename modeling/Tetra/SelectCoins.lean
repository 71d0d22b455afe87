import Mathlib
import Tetra.Selection
import Tetra.Transaction

/-!
`SelectCoins` against what it is for: distinct eligible coins that cover the
target in every circuit, or the answer that the eligible coins cannot. The
condition under which it does that is stated with the comparisons of the source.
-/
namespace Tetra
open Std

/-- The selection is made of distinct eligible coins, is worth their sum and covers the
    target; without one, the eligible coins are short somewhere. -/
structure Selection.Right (eligible : List Valued) (target : Cash) (s : Selection) : Prop where
  found : s.found = true → ∃ selected : List Valued, (∀ coin ∈ selected, coin ∈ eligible) ∧ (selected.map Prod.snd).Nodup ∧
    s.setCoinsRet = (selected.map Prod.snd).toFinset ∧
    ∀ c, (s.nValueRet.amount c).toInt = sumIn selected c ∧ (target.amount c).toInt ≤ sumIn selected c
  missed : s.found = false → ∃ c, sumIn eligible c < (target.amount c).toInt

/-! The three kinds of coins in the loop of `SelectCoinsMinConf`. -/

def exactCoins (target : Cash) (coins : List Valued) : List Valued := coins.filter fun coin => coin.1.eq target
def smallCoins (target : Cash) (coins : List Valued) : List Valued :=
  coins.filter fun coin => !coin.1.eq target && coin.1.lt (target.addAmount CENT)
def largeCoins (target : Cash) (coins : List Valued) : List Valued :=
  coins.filter fun coin => !coin.1.eq target && !coin.1.lt (target.addAmount CENT)

/-- The search and the choice after it cannot go wrong: whatever coins the search may
    stop at, the next bigger coin covers the target where it is preferred to them, and
    they cover it where they are kept. -/
def SearchSafe (target : Cash) (small large : List Valued) : Prop :=
  ∀ picked : List Valued, picked.Perm small ∨ (picked.Subperm small ∧ (total picked).ge target = true ∧
      (total picked).lt (total small) = true) →
    (large = [] → (total picked).Covers target) ∧
    ∀ coin ∈ large, if coin.1.le (total picked) then coin.1.Covers target else (total picked).Covers target

/-- What the comparisons have to get right for a target and the eligible coins. -/
structure SelectionSafe (target : Cash) (coins : List Valued) : Prop where
  exact : ∀ coin ∈ exactCoins target coins, coin.1.Covers target
  allSmall : exactCoins target coins = [] → (total (smallCoins target coins)).eq target = true →
    (total (smallCoins target coins)).Covers target
  short : exactCoins target coins = [] → (total (smallCoins target coins)).eq target = false →
    (total (smallCoins target coins)).lt target = true →
    (∀ coin ∈ largeCoins target coins, coin.1.Covers target) ∧
      (largeCoins target coins = [] → ¬(total (smallCoins target coins)).Covers target)
  search : exactCoins target coins = [] → (total (smallCoins target coins)).eq target = false →
    (total (smallCoins target coins)).lt target = false →
    SearchSafe target (smallCoins target coins) (largeCoins target coins)

theorem Cash.lookup_congr {x y : Cash} {c : CashName} (listed : x.locals[c]? = none ↔ y.locals[c]? = none)
    (amounts : x.amount c = y.amount c) : x.locals[c]? = y.locals[c]? := by
  cases left : x.locals[c]? with
  | none => exact (listed.mp left).symm
  | some v =>
    cases right : y.locals[c]? with
    | none => simp [listed.mpr right] at left
    | some w => rw [amount_of_lookup left,amount_of_lookup right] at amounts; rw [amounts]

theorem total_perm {coins others : List Valued} (countable : Countable coins) (perm : coins.Perm others) : total coins = total others := by
  have countable' : Countable others := countable.subperm perm.symm.subperm
  refine Cash.ext_lookup (fun c => Cash.lookup_congr ?_ ?_) ((total_plain countable).fixed.trans (total_plain countable').fixed.symm)
  · rw [total_lists,total_lists]
    exact forall_congr' fun coin => by rw [perm.mem_iff]
  · rw [← Int64.toInt_inj,total_amount countable,total_amount countable',sumIn_perm perm]

namespace Selection

theorem takeAll_eq (s : Selection) (coins : List Valued) :
    s.takeAll coins = ⟨s.found,s.setCoinsRet ∪ (coins.map Prod.snd).toFinset,coins.foldl (fun x coin => x.addAssign coin.1) s.nValueRet⟩ := by
  induction coins generalizing s with
  | nil => simp [takeAll]
  | cons coin rest ih =>
    have step : s.takeAll (coin :: rest) = (s.take coin).takeAll rest := rfl
    rw [step,ih]
    simp [take,Finset.insert_union]

/-- Taking distinct eligible coins that cover the target is right. -/
theorem right_takeAll {eligible selected : List Valued} {target : Cash} (countable : Countable selected)
    (member : ∀ coin ∈ selected, coin ∈ eligible) (distinct : (selected.map Prod.snd).Nodup)
    (covers : (total selected).Covers target) : ((⟨true,∅,{}⟩ : Selection).takeAll selected).Right eligible target := by
  rw [takeAll_eq]
  refine ⟨fun _ => ⟨selected,member,distinct,by simp,fun c => ?_⟩,fun missed => by simp at missed⟩
  have exactly := total_amount countable c
  refine ⟨exactly,?_⟩
  rw [← exactly]
  exact covers c

theorem right_take {eligible : List Valued} {target : Cash} {coin : Valued} (countable : Countable eligible)
    (member : coin ∈ eligible) (covers : coin.1.Covers target) : ((⟨true,∅,{}⟩ : Selection).take coin).Right eligible target := by
  have single : Countable [coin] := countable.subperm (List.singleton_subperm_iff.mpr member)
  show ((⟨true,∅,{}⟩ : Selection).takeAll [coin]).Right eligible target
  refine right_takeAll single (by simpa using member) (by simp) fun c => ?_
  rw [total_amount single]
  simpa using covers c

end Selection

theorem Cash.gt_congr {n x y : Cash} (filled : n.size ≠ 0) (amounts : ∀ c, x.amount c = y.amount c) : n.gt x = n.gt y := by
  rw [Bool.eq_iff_iff,gt_iff,gt_iff]
  simp [filled,amounts]

/-- Coins below the target whose sum is neither equal to it nor below it. -/
structure Searched (target : Cash) (small : List Valued) : Prop where
  countable : Countable small
  plain : target.Plain
  fits : ∀ c, (target.amount c).toInt < 2^63-1
  below : ∀ coin ∈ small, coin.1.lt target = true
  notEqual : (total small).eq target = false
  notBelow : (total small).lt target = false

namespace Searched
variable {target : Cash} {small : List Valued} (searched : Searched target small)
include searched

theorem within : ∀ coin ∈ small, coin.1.Within target := fun coin member =>
  Cash.within_of_lt (searched.countable.plain coin member) (searched.below coin member)

/-- All small coins together are above the target in what they list, and they list something. -/
theorem above : (total small).size ≠ 0 ∧ ∀ c v, (total small).locals[c]? = some v → (target.amount c).toInt < v.toInt := by
  have greater : (total small).gt target = true := by
    by_contra notAbove
    have := (Cash.eq_iff ((total_plain searched.countable).fixed.trans searched.plain.fixed.symm)).mpr
      ⟨searched.notBelow,by simpa using notAbove⟩
    simp [searched.notEqual] at this
  obtain ⟨sizes,each⟩ := (Cash.gt_iff ..).mp greater
  refine ⟨fun empty => ?_,fun c v found => Int64.lt_iff_toInt_lt.mp (each c v found)⟩
  have : (total small).lt target = true :=
    (Cash.lt_iff ..).mpr ⟨sizes,fun c v found => by simp [(Cash.size_eq_zero_iff _).mp empty c] at found⟩
  simp [searched.notBelow] at this

theorem asks : ∃ c, 0 < (target.amount c).toInt ∧ (target.amount c).toInt < ((total small).amount c).toInt := by
  obtain ⟨filled,above⟩ := searched.above
  obtain ⟨c,v,found⟩ := Cash.exists_lookup filled
  have within := total_within searched.within c v found
  exact ⟨c,within,by rw [Cash.amount_of_lookup found]; exact above c v found⟩

/-- The raised target asks one unit more of every circuit the target asks for. -/
theorem raised {c : CashName} (positive : 0 < (target.amount c).toInt) :
    ((target.addAmount CENT).amount c).toInt = (target.amount c).toInt+1 :=
  Cash.addAmount_CENT (Cash.lookup_of_pos positive) (searched.fits c)

theorem within_raised {x : Cash} (within : x.Within target) : x.Within (target.addAmount CENT) := by
  intro c v found
  have positive := within c v found
  rw [searched.raised positive]
  omega

/-- Reaching the raised target means reaching the target, and not being below it. -/
theorem ge_of_raised {x : Cash} (within : x.Within target) (reaches : x.ge (target.addAmount CENT) = true) : x.ge target = true := by
  obtain ⟨c0,positive0,_⟩ := searched.asks
  have raised0 := searched.raised positive0
  obtain ⟨c,_,le⟩ := (Cash.ge_iff_reaches (searched.within_raised within) ⟨c0,by omega⟩).mp reaches
  have asked : 0 < ((target.addAmount CENT).amount c).toInt := by assumption
  have listed := within c _ (Cash.lookup_of_pos (by omega))
  have raised := searched.raised listed
  exact (Cash.ge_iff_reaches within ⟨c0,positive0⟩).mpr ⟨c,listed,by omega⟩

theorem total_ge_raised : (total small).ge (target.addAmount CENT) = true := by
  obtain ⟨c,positive,above⟩ := searched.asks
  have raised := searched.raised positive
  exact (Cash.ge_iff_reaches (searched.within_raised (total_within searched.within)) ⟨c,by omega⟩).mpr ⟨c,by omega,by omega⟩

/-- What either search notes are coins that the safety condition speaks of. -/
theorem picked {vValue : List Valued} (perm : vValue.Perm small) {nTargetValue : Cash} {vfBest : List Bool} {nBest : Cash}
    (noted : Noted vValue target (total small) nTargetValue vfBest nBest)
    (implies : nBest.Within target → nBest.ge nTargetValue = true → nBest.ge target = true) :
    ((marked vValue vfBest).Perm small ∨ ((marked vValue vfBest).Subperm small ∧ (total (marked vValue vfBest)).ge target = true ∧
      (total (marked vValue vfBest)).lt (total small) = true)) ∧
    ∀ c, nBest.amount c = (total (marked vValue vfBest)).amount c := by
  have sub : (marked vValue vfBest).Subperm small := (marked_sublist vValue vfBest).subperm.trans perm.subperm
  have countable := searched.countable.subperm sub
  have lower (c : CashName) : ((total small).amount c).toInt = sumIn vValue c := by
    rw [total_amount searched.countable,sumIn_perm perm]
  have amounts (c : CashName) : nBest.amount c = (total (marked vValue vfBest)).amount c := by
    rw [← Int64.toInt_inj,noted.exact lower,total_amount countable]
  refine ⟨?_,amounts⟩
  cases noted with
  | all => exact Or.inl (by rw [marked_all]; exact perm)
  | better exact within reaches less =>
    refine Or.inr ⟨sub,?_,?_⟩
    · obtain ⟨c0,positive0,_⟩ := searched.asks
      obtain ⟨c,positive,le⟩ := (Cash.ge_iff_reaches within ⟨c0,positive0⟩).mp (implies within reaches)
      refine (Cash.ge_iff_reaches (total_within fun coin member => searched.within coin (sub.subset member)) ⟨c0,positive0⟩).mpr
        ⟨c,positive,?_⟩
      rwa [← amounts]
    · refine (Cash.lt_iff ..).mpr ⟨Or.inr searched.above.1,fun c v found => ?_⟩
      rw [Int64.lt_iff_toInt_lt,lower]
      have here := Cash.amount_of_lookup found
      rw [← amounts] at here
      by_cases positive : 0 < v.toInt
      · have := less c (by rw [here]; exact positive)
        rwa [here] at this
      · -- a circuit listed with nothing in it is listed by all the small coins too
        have listed : (total small).locals[c]? ≠ none := by
          intro absent
          have : (total (marked vValue vfBest)).locals[c]? = none :=
            (total_lists ..).mpr fun coin member => (total_lists ..).mp absent coin (sub.subset member)
          simp [this] at found
        obtain ⟨w,present⟩ := Option.ne_none_iff_exists'.mp listed
        have above := searched.above.2 c w present
        have asked := total_within searched.within c w present
        rw [← lower,Cash.amount_of_lookup present]
        omega

/-- The two searches of `SelectCoinsMinConf`: what they end with, and that it is not
    between the target and the raised target. -/
theorem settles {vValue : List Valued} (perm : vValue.Perm small) (insecure_rand : Bool → Nat → Nat → Bool) :
    let first := ApproximateBestSubset vValue (total small) target (insecure_rand false) 1000
    let best := if first.2.ne target && (total small).ge (target.addAmount CENT) then
      ApproximateBestSubset vValue (total small) (target.addAmount CENT) (insecure_rand true) 1000 else first
    ((marked vValue best.1).Perm small ∨ ((marked vValue best.1).Subperm small ∧ (total (marked vValue best.1)).ge target = true ∧
        (total (marked vValue best.1)).lt (total small) = true)) ∧
      (∀ c, best.2.amount c = (total (marked vValue best.1)).amount c) ∧
      (best.2.ne target && best.2.lt (target.addAmount CENT)) = false := by
  intro first best
  have countable : Countable vValue := searched.countable.subperm perm.subperm
  have within : ∀ coin ∈ vValue, coin.1.Within target := fun coin member => searched.within coin (perm.subset member)
  have lower (c : CashName) : ((total small).amount c).toInt = sumIn vValue c := by
    rw [total_amount searched.countable,sumIn_perm perm]
  have reaches := searched.total_ge_raised
  by_cases met : first.2.ne target = true
  · have again : best = ApproximateBestSubset vValue (total small) (target.addAmount CENT) (insecure_rand true) 1000 := by
      simp [best,met,reaches]
    have noted : Noted vValue target (total small) (target.addAmount CENT) best.1 best.2 := by
      rw [again]
      exact ApproximateBestSubset_noted countable within lower _ _
    obtain ⟨picked,amounts⟩ := searched.picked perm noted fun within => searched.ge_of_raised within
    refine ⟨picked,amounts,?_⟩
    have notBelow : best.2.ge (target.addAmount CENT) = true := by
      generalize best.1 = vfBest at noted
      generalize best.2 = nBest at noted ⊢
      cases noted with
      | all => exact reaches
      | better _ _ reaches _ => exact reaches
    have : best.2.lt (target.addAmount CENT) = false := by simpa [Cash.ge] using notBelow
    simp [this]
  · have kept : best = first := by simp [best,met]
    have noted : Noted vValue target (total small) target best.1 best.2 := by
      rw [kept]
      exact ApproximateBestSubset_noted countable within lower _ _
    obtain ⟨picked,amounts⟩ := searched.picked perm noted fun _ reaches => reaches
    exact ⟨picked,amounts,by simp [kept,met]⟩

/-- Under the safety condition the choice after the searches is right. -/
theorem chooseSubset_right {eligible large vValue : List Valued} {coinLowestLarger : Cash × Option COutPoint}
    (countable : Countable eligible) (smallMember : ∀ coin ∈ small, coin ∈ eligible) (largeMember : ∀ coin ∈ large, coin ∈ eligible)
    (distinct : (small.map Prod.snd).Nodup) (filled : ∀ coin ∈ large, coin.1.size ≠ 0) (perm : vValue.Perm small)
    (lowest : (coinLowestLarger.2 = none ∧ large = []) ∨ ∃ coin ∈ large, coinLowestLarger = (coin.1,some coin.2))
    (safe : SearchSafe target small large) (insecure_rand : Bool → Nat → Nat → Bool) :
    (chooseSubset target insecure_rand vValue (total small) coinLowestLarger).Right eligible target := by
  obtain ⟨picked,amounts,settled⟩ := searched.settles perm insecure_rand
  unfold chooseSubset
  dsimp only
  generalize (if (ApproximateBestSubset vValue (total small) target (insecure_rand false) 1000).2.ne target &&
      (total small).ge (target.addAmount CENT) then
    ApproximateBestSubset vValue (total small) (target.addAmount CENT) (insecure_rand true) 1000
    else ApproximateBestSubset vValue (total small) target (insecure_rand false) 1000) = best at picked amounts settled ⊢
  obtain ⟨alone,preferred⟩ := safe _ picked
  have sub : (marked vValue best.1).Subperm small := (marked_sublist vValue best.1).subperm.trans perm.subperm
  have keeps (covers : (total (marked vValue best.1)).Covers target) :
      ((⟨true,∅,{}⟩ : Selection).takeAll (marked vValue best.1)).Right eligible target := by
    have distinctMarked : ((marked vValue best.1).map Prod.snd).Nodup :=
      ((perm.map Prod.snd).nodup_iff.mpr distinct).sublist ((marked_sublist vValue best.1).map Prod.snd)
    exact Selection.right_takeAll (searched.countable.subperm sub) (fun coin member => smallMember coin (sub.subset member))
      distinctMarked covers
  rcases lowest with ⟨nothing,empty⟩ | ⟨coin,member,rfl⟩
  · rw [nothing]
    exact keeps (alone empty)
  · have choice := preferred coin member
    have same : coin.1.le best.2 = coin.1.le (total (marked vValue best.1)) := by
      rw [Cash.le,Cash.le,Cash.gt_congr (filled coin member) amounts]
    dsimp only
    rw [settled,Bool.false_or,same]
    split
    · next le => exact Selection.right_take countable (largeMember coin member) (by rwa [if_pos le] at choice)
    · next above => exact keeps (by rwa [if_neg above] at choice)

end Searched

/-- The coins of a list with enough confirmations. -/
def eligibleCoins (nConfMine nConfTheirs : Int) (vCoins : List COutput) : List Valued :=
  (vCoins.filter fun out => !decide (out.nDepth < if out.tx.IsFromMe then nConfMine else nConfTheirs)).map
    fun out => (out.nValue,out.point)

/-- Values that `CheckTransaction` let through. -/
def Ranged (coins : List Valued) : Prop := ∀ coin ∈ coins, coin.1.Plain ∧ ∀ c, (coin.1.amount c).toInt ≤ MAX_MONEY.toInt

theorem mem_largeCoins {target : Cash} {coins : List Valued} {coin : Valued} :
    coin ∈ largeCoins target coins ↔ coin ∈ coins ∧ coin.1.eq target = false ∧ coin.1.lt (target.addAmount CENT) = false := by
  simp [largeCoins]

theorem mem_smallCoins {target : Cash} {coins : List Valued} {coin : Valued} :
    coin ∈ smallCoins target coins ↔ coin ∈ coins ∧ coin.1.eq target = false ∧ coin.1.lt (target.addAmount CENT) = true := by
  simp [smallCoins]

theorem mem_exactCoins {target : Cash} {coins : List Valued} {coin : Valued} :
    coin ∈ exactCoins target coins ↔ coin ∈ coins ∧ coin.1.eq target = true := by
  simp [exactCoins]

/-- A large coin goes where no coin is yet, and replaces none. -/
theorem large_replaces {n target : Cash} (plain : n.Plain) (bounded : ∀ c, (n.amount c).toInt ≤ MAX_MONEY.toInt)
    (asked : target.Plain) (fits : ∀ c, (target.amount c).toInt < 2^63-1) (notEqual : n.eq target = false)
    (large : n.lt (target.addAmount CENT) = false) : n.gtAmount MAX_MONEY = false ∧ n.gtAmount 0 = true ∧ n.size ≠ 0 := by
  obtain ⟨above,filled⟩ := Cash.gt_of_large plain asked fits notEqual large
  refine ⟨?_,?_,filled⟩
  · have le : n.Max ≤ MAX_MONEY := by
      refine (Cash.Max_le_iff ..).mpr ⟨by decide,fun c v found => ?_,by rw [plain.fixed]; decide⟩
      rw [Int64.le_iff_toInt_le,← Cash.amount_of_lookup found]
      exact bounded c
    simpa [Cash.gtAmount,Int64.not_lt] using le
  · obtain ⟨c,v,found⟩ := Cash.exists_lookup filled
    have high := ((Cash.gt_iff ..).mp above).2 c v found
    rw [Int64.lt_iff_toInt_lt] at high
    have nonneg := asked.nonneg c
    have le := ((Cash.Max_le_iff n n.Max).mp (Int64.le_refl _)).2.1 c v found
    rw [Int64.le_iff_toInt_le] at le
    have zero : (0 : Amount).toInt = 0 := rfl
    simp only [Cash.gtAmount,decide_eq_true_eq,gt_iff_lt,Int64.lt_iff_toInt_lt]
    omega

/-- `coinLowestLarger` after some large coins: the first one stays. -/
def lowestLarger (coinLowestLarger : Cash × Option COutPoint) : List Valued → Cash × Option COutPoint
  | [] => coinLowestLarger
  | coin :: _ => if coinLowestLarger.2 = none then (coin.1,some coin.2) else coinLowestLarger

section
variable {target : Cash} (asked : target.Plain) (fits : ∀ c, (target.amount c).toInt < 2^63-1) (nConfMine nConfTheirs : Int)
include asked fits

/-- The loop over the coins stops at an exact one, or has them all in their places. -/
theorem splitCoins_eq (vCoins : List COutput) (ranged : Ranged (eligibleCoins nConfMine nConfTheirs vCoins)) (s : CoinSplit)
    (threshold : s.coinLowestLarger.1.fixed = if s.coinLowestLarger.2 = none then MAX_MONEY else 0) :
    (∃ coin ∈ exactCoins target (eligibleCoins nConfMine nConfTheirs vCoins),
      (splitCoins target nConfMine nConfTheirs s vCoins).2 = some coin) ∨
    (exactCoins target (eligibleCoins nConfMine nConfTheirs vCoins) = [] ∧
      splitCoins target nConfMine nConfTheirs s vCoins =
        (⟨lowestLarger s.coinLowestLarger (largeCoins target (eligibleCoins nConfMine nConfTheirs vCoins)),
          s.vValue ++ smallCoins target (eligibleCoins nConfMine nConfTheirs vCoins),
          (smallCoins target (eligibleCoins nConfMine nConfTheirs vCoins)).foldl (fun x coin => x.addAssign coin.1) s.nTotalLower⟩,
          none)) := by
  induction vCoins generalizing s with
  | nil => exact Or.inr ⟨rfl,by simp [splitCoins,eligibleCoins,smallCoins,largeCoins,lowestLarger]⟩
  | cons output rest ih =>
    unfold splitCoins
    by_cases shallow : output.nDepth < (if output.tx.IsFromMe then nConfMine else nConfTheirs)
    · have skipped : eligibleCoins nConfMine nConfTheirs (output :: rest) = eligibleCoins nConfMine nConfTheirs rest := by
        simp [eligibleCoins,shallow]
      rw [skipped] at ranged ⊢
      rw [if_pos shallow]
      exact ih ranged s threshold
    · have listed : eligibleCoins nConfMine nConfTheirs (output :: rest) =
          (output.nValue,output.point) :: eligibleCoins nConfMine nConfTheirs rest := by
        simp [eligibleCoins,shallow]
      rw [listed] at ranged ⊢
      obtain ⟨plain,bounded⟩ := ranged _ (List.mem_cons_self ..)
      have later : Ranged (eligibleCoins nConfMine nConfTheirs rest) := fun coin member => ranged coin (List.mem_cons_of_mem _ member)
      rw [if_neg shallow]
      dsimp only
      by_cases equal : output.nValue.eq target = true
      · rw [if_pos equal]
        exact Or.inl ⟨_,mem_exactCoins.mpr ⟨List.mem_cons_self ..,equal⟩,rfl⟩
      have notEqual : output.nValue.eq target = false := by simpa using equal
      have noExact : exactCoins target ((output.nValue,output.point) :: eligibleCoins nConfMine nConfTheirs rest) =
          exactCoins target (eligibleCoins nConfMine nConfTheirs rest) := by simp [exactCoins,notEqual]
      rw [if_neg equal,noExact]
      by_cases below : output.nValue.lt (target.addAmount CENT) = true
      · have small : smallCoins target ((output.nValue,output.point) :: eligibleCoins nConfMine nConfTheirs rest) =
            (output.nValue,output.point) :: smallCoins target (eligibleCoins nConfMine nConfTheirs rest) := by
          simp [smallCoins,notEqual,below]
        have large : largeCoins target ((output.nValue,output.point) :: eligibleCoins nConfMine nConfTheirs rest) =
            largeCoins target (eligibleCoins nConfMine nConfTheirs rest) := by simp [largeCoins,below]
        rw [if_pos below,small,large]
        rcases ih later {s with vValue := s.vValue ++ [(output.nValue,output.point)],nTotalLower := s.nTotalLower.addAssign output.nValue}
          threshold with found | ⟨absent,splits⟩
        · exact Or.inl found
        · refine Or.inr ⟨absent,?_⟩
          rw [splits]
          simp
      · have large : largeCoins target ((output.nValue,output.point) :: eligibleCoins nConfMine nConfTheirs rest) =
            (output.nValue,output.point) :: largeCoins target (eligibleCoins nConfMine nConfTheirs rest) := by
          simp [largeCoins,notEqual,below]
        have small : smallCoins target ((output.nValue,output.point) :: eligibleCoins nConfMine nConfTheirs rest) =
            smallCoins target (eligibleCoins nConfMine nConfTheirs rest) := by simp [smallCoins,below]
        obtain ⟨inRange,positive,_⟩ := large_replaces plain bounded asked fits notEqual (by simpa using below)
        rw [if_neg below,small,large]
        by_cases free : s.coinLowestLarger.2 = none
        · have replaces : (!output.nValue.gtAmount s.coinLowestLarger.1.fixed) = true := by
            rw [threshold,if_pos free,inRange]
            rfl
          rw [if_pos replaces]
          rcases ih later {s with coinLowestLarger := (output.nValue,some output.point)} (by simpa using plain.fixed) with found | ⟨absent,splits⟩
          · exact Or.inl found
          · refine Or.inr ⟨absent,?_⟩
            rw [splits]
            cases largeCoins target (eligibleCoins nConfMine nConfTheirs rest) <;> simp [lowestLarger,free]
        · have stays : (!output.nValue.gtAmount s.coinLowestLarger.1.fixed) = false := by
            rw [threshold,if_neg free,positive]
            rfl
          rw [stays]
          rcases ih later s threshold with found | ⟨absent,splits⟩
          · exact Or.inl found
          · refine Or.inr ⟨absent,?_⟩
            simp only [Bool.false_eq_true,if_false]
            rw [splits]
            cases largeCoins target (eligibleCoins nConfMine nConfTheirs rest) <;> simp [lowestLarger,free]

/-- The results of `SelectCoinsMinConf`, by what the shuffled coins are. -/
theorem SelectCoinsMinConf_cases (chance : Chance) (vCoins : List COutput) {coins : List Valued}
    (shuffled : eligibleCoins nConfMine nConfTheirs (chance.random_shuffle vCoins) = coins) (ranged : Ranged coins)
    {result : Selection} (results : CWallet.SelectCoinsMinConf chance target nConfMine nConfTheirs vCoins = result) :
    (∃ coin ∈ exactCoins target coins, result = (⟨true,∅,{}⟩ : Selection).take coin) ∨
    (exactCoins target coins = [] ∧
      ((total (smallCoins target coins)).eq target = true →
        result = (⟨true,∅,{}⟩ : Selection).takeAll (smallCoins target coins)) ∧
      ((total (smallCoins target coins)).eq target = false → (total (smallCoins target coins)).lt target = true →
        (largeCoins target coins = [] → result = ⟨false,∅,{}⟩) ∧
          ∀ coin rest, largeCoins target coins = coin :: rest → result = (⟨true,∅,{}⟩ : Selection).take coin) ∧
      ((total (smallCoins target coins)).eq target = false → (total (smallCoins target coins)).lt target = false →
        result = chooseSubset target chance.insecure_rand (chance.sort (smallCoins target coins))
          (total (smallCoins target coins)) (lowestLarger (Cash.assignAmount MAX_MONEY,none) (largeCoins target coins)))) := by
  unfold CWallet.SelectCoinsMinConf at results
  have splits := splitCoins_eq asked fits nConfMine nConfTheirs (chance.random_shuffle vCoins) (shuffled ▸ ranged) {} rfl
  rw [shuffled] at splits
  rcases splits with ⟨coin,exact,found⟩ | ⟨absent,splits⟩
  · refine Or.inl ⟨coin,exact,?_⟩
    generalize splitCoins target nConfMine nConfTheirs {} (chance.random_shuffle vCoins) = pair at results found
    obtain ⟨s,last⟩ := pair
    obtain rfl : last = some coin := found
    exact results.symm
  · rw [splits] at results
    dsimp only at results
    have folded : (smallCoins target coins).foldl (fun x coin => x.addAssign coin.1) {} = total (smallCoins target coins) := rfl
    rw [folded,List.nil_append] at results
    refine Or.inr ⟨absent,fun equal => ?_,fun notEqual below => ⟨fun empty => ?_,fun coin rest several => ?_⟩,
      fun notEqual notBelow => ?_⟩
    · rw [← results,if_pos equal]
    · rw [← results,if_neg (by simp [notEqual]),if_pos below,empty]
      rfl
    · rw [← results,if_neg (by simp [notEqual]),if_pos below,several]
      rfl
    · rw [← results,if_neg (by simp [notEqual]),if_neg (by simp [notBelow])]

end

section
variable {target : Cash} {nConfMine nConfTheirs : Int} {vCoins : List COutput} (asked : target.Plain)
  (fits : ∀ c, (target.amount c).toInt < 2^63-1) (countable : Countable (eligibleCoins nConfMine nConfTheirs vCoins))
  (ranged : Ranged (eligibleCoins nConfMine nConfTheirs vCoins))
  (distinct : ((eligibleCoins nConfMine nConfTheirs vCoins).map Prod.snd).Nodup)
include asked fits countable ranged distinct

/-- Under the safety condition `SelectCoinsMinConf` is right, whatever chance does. -/
theorem SelectCoinsMinConf_right (safe : SelectionSafe target (eligibleCoins nConfMine nConfTheirs vCoins)) {chance : Chance}
    (fair : chance.Fair) : (CWallet.SelectCoinsMinConf chance target nConfMine nConfTheirs vCoins).Right
      (eligibleCoins nConfMine nConfTheirs vCoins) target := by
  have perm : (eligibleCoins nConfMine nConfTheirs (chance.random_shuffle vCoins)).Perm (eligibleCoins nConfMine nConfTheirs vCoins) :=
    ((fair.random_shuffle vCoins).filter _).map _
  have outcome := SelectCoinsMinConf_cases asked fits nConfMine nConfTheirs chance vCoins rfl
    (fun coin member => ranged coin (perm.subset member)) rfl
  generalize eligibleCoins nConfMine nConfTheirs vCoins = coins at *
  generalize eligibleCoins nConfMine nConfTheirs (chance.random_shuffle vCoins) = shuffled at *
  generalize CWallet.SelectCoinsMinConf chance target nConfMine nConfTheirs vCoins = result at *
  have smallPerm : (smallCoins target shuffled).Perm (smallCoins target coins) := perm.filter _
  have smallCountable : Countable (smallCoins target shuffled) :=
    countable.subperm (List.filter_sublist.subperm.trans perm.subperm)
  have sameTotal := total_perm smallCountable smallPerm
  have smallMember : ∀ coin ∈ smallCoins target shuffled, coin ∈ coins := fun coin member =>
    perm.subset (mem_smallCoins.mp member).1
  have largeMember : ∀ coin ∈ largeCoins target shuffled, coin ∈ largeCoins target coins := fun coin member =>
    mem_largeCoins.mpr ⟨perm.subset (mem_largeCoins.mp member).1,(mem_largeCoins.mp member).2⟩
  have smallDistinct : ((smallCoins target shuffled).map Prod.snd).Nodup :=
    ((perm.map Prod.snd).nodup_iff.mpr distinct).sublist (List.filter_sublist.map Prod.snd)
  rcases outcome with ⟨coin,exact,taken⟩ | ⟨absent,allSmall,missed,searches⟩
  · rw [taken]
    obtain ⟨member,equal⟩ := mem_exactCoins.mp exact
    exact Selection.right_take countable (perm.subset member) (safe.exact coin (mem_exactCoins.mpr ⟨perm.subset member,equal⟩))
  have absent' : exactCoins target coins = [] := by
    have := (perm.filter fun coin => coin.1.eq target).symm
    exact List.Perm.eq_nil (absent ▸ this)
  rw [sameTotal] at allSmall missed searches
  by_cases equal : (total (smallCoins target coins)).eq target = true
  · rw [allSmall equal]
    exact Selection.right_takeAll smallCountable smallMember smallDistinct (sameTotal ▸ safe.allSmall absent' equal)
  have notEqual : (total (smallCoins target coins)).eq target = false := by simpa using equal
  by_cases below : (total (smallCoins target coins)).lt target = true
  · obtain ⟨covers,uncovered⟩ := safe.short absent' notEqual below
    cases large : largeCoins target shuffled with
    | nil =>
      rw [(missed notEqual below).1 large]
      refine ⟨fun found => by simp at found,fun _ => ?_⟩
      have none : largeCoins target coins = [] := List.Perm.eq_nil (large ▸ (perm.filter _).symm)
      have short := uncovered none
      simp only [Cash.Covers,not_forall] at short
      obtain ⟨c,short⟩ := short
      refine ⟨c,?_⟩
      -- without exact and large coins, all coins are small
      have all : smallCoins target coins = coins := by
        refine List.filter_eq_self.mpr fun coin member => ?_
        have notExact : coin ∉ exactCoins target coins := by simp [absent']
        have notLarge : coin ∉ largeCoins target coins := by simp [none]
        rw [mem_exactCoins,not_and] at notExact
        rw [mem_largeCoins] at notLarge
        have different : coin.1.eq target = false := by simpa using notExact member
        have : coin.1.lt (target.addAmount CENT) = true := by
          by_contra larger
          exact notLarge ⟨member,different,by simpa using larger⟩
        simp [different,this]
      rw [all,total_amount countable] at short
      omega
    | cons coin rest =>
      rw [(missed notEqual below).2 coin rest large]
      have member := largeMember coin (by simp [large])
      exact Selection.right_take countable (mem_largeCoins.mp member).1 (covers coin member)
  have notBelow : (total (smallCoins target coins)).lt target = false := by simpa using below
  rw [searches notEqual notBelow,← sameTotal]
  have searched : Searched target (smallCoins target shuffled) := by
    refine ⟨smallCountable,asked,fits,fun coin member => ?_,sameTotal ▸ notEqual,sameTotal ▸ notBelow⟩
    obtain ⟨inside,different,small⟩ := mem_smallCoins.mp member
    exact Cash.lt_of_small (countable.plain coin (perm.subset inside)) asked fits different small
  refine searched.chooseSubset_right countable smallMember (fun coin member => (mem_largeCoins.mp (largeMember coin member)).1)
    smallDistinct (fun coin member => ?_) (fair.sort _) ?_ ?_ _
  · obtain ⟨inside,different,large⟩ := mem_largeCoins.mp (largeMember coin member)
    exact (Cash.gt_of_large (countable.plain coin inside) asked fits different large).2
  · cases large : largeCoins target shuffled with
    | nil => exact Or.inl ⟨rfl,rfl⟩
    | cons coin rest => exact Or.inr ⟨coin,List.mem_cons_self ..,rfl⟩
  · intro picked isPicked
    have safe' := safe.search absent' notEqual notBelow picked
      (isPicked.imp (fun same => same.trans smallPerm) fun ⟨sub,reaches,less⟩ => ⟨sub.trans smallPerm.subperm,reaches,sameTotal ▸ less⟩)
    refine ⟨fun empty => safe'.1 (List.Perm.eq_nil (empty ▸ (perm.filter _).symm)),fun coin member => safe'.2 coin (largeMember coin member)⟩

end
end Tetra
