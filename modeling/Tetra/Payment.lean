import Mathlib
import Tetra.SelectCoins

/-!
`SelectCoins` on a whole wallet: the coins it is offered are distinct, it is
right wherever the comparisons are, and where no search is needed it is right
only there.
-/
namespace Tetra
open Std

/-- No sum of the coins, and no raised target, leaves 64 bits. -/
structure Fits (target : Cash) (coins : List Valued) : Prop where
  sums : ∀ c, sumIn coins c < 2^63-1
  target : ∀ c, (target.amount c).toInt < 2^63-1

namespace CWallet

/-- Outputs of wallet transactions came off the wire and passed `CheckTransaction`. -/
def Checked (wallet : CWallet) : Prop :=
  ∀ (hash : uint256) (tx : CWalletTx), wallet.mapWallet[hash]? = some tx → ∀ out ∈ tx.vout, CTransaction.InRange out ∧ out.nValue.fixed = 0

/-- The coins `SelectCoins` may take: those that were picked by hand, or the confirmed ones. -/
def eligible (wallet : CWallet) (coinControl : Option CCoinControl) : List Valued :=
  if coinControl.any CCoinControl.HasSelected then
    (wallet.AvailableCoins true coinControl).map fun out => (out.nValue,out.point)
  else eligibleCoins MIN_CONF_MINE MIN_CONF_MINE (wallet.AvailableCoins true coinControl)

/-- A spendable output is an output of a wallet transaction under its own point. -/
theorem mem_AvailableCoins {wallet : CWallet} {fOnlyConfirmed : Bool} {coinControl : Option CCoinControl} {out : COutput}
    (member : out ∈ wallet.AvailableCoins fOnlyConfirmed coinControl) :
    wallet.mapWallet[out.hash]? = some out.tx ∧ ∃ txout, out.tx.vout[out.i]? = some txout := by
  unfold AvailableCoins at member
  obtain ⟨⟨hash,pcoin⟩,listed,offered⟩ := List.mem_flatMap.mp member
  dsimp only at offered
  split at offered
  · simp at offered
  split at offered
  · simp at offered
  split at offered
  · simp at offered
  split at offered
  · simp at offered
  unfold availableOutputs at offered
  obtain ⟨⟨txout,i⟩,indexed,rfl⟩ := List.mem_map.mp offered
  have here := List.mem_zipIdx_iff_getElem?.mp (List.mem_filter.mp indexed).1
  exact ⟨ExtTreeMap.mem_toList_iff_getElem?_eq_some.mp listed,txout,here⟩

private theorem availableOutputs_points (wallet : CWallet) (coinControl : Option CCoinControl) (hash : uint256) (pcoin : CWalletTx) :
    ((wallet.availableOutputs coinControl hash pcoin).map COutput.point).Nodup := by
  have distinct (l : List (CTxOut × Nat)) (sub : l.Sublist pcoin.vout.zipIdx) :
      (l.map fun pair => (⟨hash,pair.2⟩ : COutPoint)).Nodup := by
    have indices : (l.map Prod.snd).Nodup := (List.nodup_zipIdx_map_snd pcoin.vout).sublist (sub.map Prod.snd)
    have points := List.Nodup.map (fun i j (same : (⟨hash,i⟩ : COutPoint) = ⟨hash,j⟩) => congrArg COutPoint.n same) indices
    rwa [List.map_map] at points
  unfold availableOutputs
  rw [List.map_map]
  exact distinct _ List.filter_sublist

/-- No output is offered twice. -/
theorem AvailableCoins_points (wallet : CWallet) (fOnlyConfirmed : Bool) (coinControl : Option CCoinControl) :
    ((wallet.AvailableCoins fOnlyConfirmed coinControl).map COutput.point).Nodup := by
  unfold AvailableCoins
  rw [List.map_flatMap,List.nodup_flatMap]
  constructor
  · rintro ⟨hash,pcoin⟩ _
    dsimp only
    repeat' split
    all_goals first | exact List.nodup_nil | exact availableOutputs_points ..
  · have distinct : wallet.mapWallet.toList.Pairwise (fun a b => ¬ compare a.1 b.1 = .eq) := ExtTreeMap.distinct_keys_toList
    refine distinct.imp fun {a b} apart => ?_
    have hashes (pair : uint256 × CWalletTx) (point : COutPoint) (member : point ∈ List.map COutput.point
        (if !pair.2.IsFinal then [] else if fOnlyConfirmed && !pair.2.IsConfirmed then []
          else if pair.2.IsCoinBase && decide (pair.2.GetBlocksToMaturity > 0) then []
          else if pair.2.GetDepthInMainChain < 0 then [] else wallet.availableOutputs coinControl pair.1 pair.2)) :
        point.hash = pair.1 := by
      obtain ⟨out,offered,rfl⟩ := List.mem_map.mp member
      split at offered
      · simp at offered
      split at offered
      · simp at offered
      split at offered
      · simp at offered
      split at offered
      · simp at offered
      obtain ⟨_,_,rfl⟩ := List.mem_map.mp offered
      rfl
    intro point left right
    have same := (hashes a point left).symm.trans (hashes b point right)
    exact apart (by rw [same]; exact ReflCmp.compare_self)

theorem eligible_sublist (wallet : CWallet) (coinControl : Option CCoinControl) :
    (wallet.eligible coinControl).Sublist ((wallet.AvailableCoins true coinControl).map fun out => (out.nValue,out.point)) := by
  unfold eligible
  split
  · exact List.Sublist.refl _
  · exact List.filter_sublist.map _

theorem eligible_distinct (wallet : CWallet) (coinControl : Option CCoinControl) : ((wallet.eligible coinControl).map Prod.snd).Nodup := by
  have points := wallet.AvailableCoins_points true coinControl
  have same : (wallet.AvailableCoins true coinControl).map COutput.point =
      ((wallet.AvailableCoins true coinControl).map fun out => ((out.nValue,out.point) : Valued)).map Prod.snd := by
    rw [List.map_map]
    rfl
  rw [same] at points
  exact points.sublist ((wallet.eligible_sublist coinControl).map Prod.snd)

theorem eligible_ranged {wallet : CWallet} (checked : wallet.Checked) (coinControl : Option CCoinControl) :
    Ranged (wallet.eligible coinControl) := by
  intro coin member
  obtain ⟨out,offered,rfl⟩ := List.mem_map.mp ((wallet.eligible_sublist coinControl).subset member)
  obtain ⟨listed,txout,indexed⟩ := mem_AvailableCoins offered
  obtain ⟨inRange,fixed⟩ := checked _ _ listed txout (List.mem_of_getElem? indexed)
  have value : out.nValue = txout.nValue := by simp [COutput.nValue,indexed]
  refine ⟨⟨by rw [value]; exact fixed,fun c => ?_⟩,fun c => ?_⟩
  · rw [value]
    exact (inRange c).1
  · rw [value]
    exact (inRange c).2

end CWallet

/-- The shuffle that brings one output to the front; nothing else is changed. -/
private def Chance.front (out : COutput) : Chance where
  random_shuffle := fun vCoins => if out ∈ vCoins then out :: vCoins.erase out else vCoins
  sort := id
  insecure_rand := fun _ _ _ => false

private theorem front_fair (out : COutput) : (Chance.front out).Fair := by
  refine ⟨fun vCoins => ?_,fun _ => List.Perm.refl _⟩
  unfold Chance.front
  dsimp only
  split
  · next member => exact (List.perm_cons_erase member).symm
  · exact List.Perm.refl _

private theorem covers_of_right_take {eligible : List Valued} {target : Cash} {coin : Valued}
    (right : ((⟨true,∅,{}⟩ : Selection).take coin).Right eligible target) : coin.1.Covers target := by
  obtain ⟨selected,_,_,_,amounts⟩ := right.found rfl
  intro c
  obtain ⟨exactly,covers⟩ := amounts c
  have value : ((⟨true,∅,{}⟩ : Selection).take coin).nValueRet.amount c = coin.1.amount c := by simp [Selection.take]
  rw [value] at exactly
  omega

private theorem covers_of_right_takeAll {eligible selected : List Valued} {target : Cash}
    (right : ((⟨true,∅,{}⟩ : Selection).takeAll selected).Right eligible target) : (total selected).Covers target := by
  rw [Selection.takeAll_eq] at right
  obtain ⟨_,_,_,_,amounts⟩ := right.found rfl
  intro c
  obtain ⟨exactly,covers⟩ := amounts c
  have value : ((total selected).amount c).toInt = _ := exactly
  omega

/-- The search for a subset is reached. -/
def Searches (target : Cash) (coins : List Valued) : Prop :=
  exactCoins target coins = [] ∧ (total (smallCoins target coins)).eq target = false ∧
    (total (smallCoins target coins)).lt target = false

section
variable {target : Cash} {nConf : Int} {vCoins : List COutput} (asked : target.Plain)
  (fits : ∀ c, (target.amount c).toInt < 2^63-1) (countable : Countable (eligibleCoins nConf nConf vCoins))
  (ranged : Ranged (eligibleCoins nConf nConf vCoins))
include asked fits countable ranged

/-- Where no search is needed, being right under every shuffle takes the safety condition. -/
theorem safe_of_SelectCoinsMinConf_right (noSearch : ¬Searches target (eligibleCoins nConf nConf vCoins))
    (right : ∀ chance : Chance, chance.Fair →
      (CWallet.SelectCoinsMinConf chance target nConf nConf vCoins).Right (eligibleCoins nConf nConf vCoins) target) :
    SelectionSafe target (eligibleCoins nConf nConf vCoins) := by
  have outcome (chance : Chance) (fair : chance.Fair) := SelectCoinsMinConf_cases asked fits nConf nConf chance vCoins rfl
    (fun coin member => ranged coin ((((fair.random_shuffle vCoins).filter _).map _).subset member)) rfl
  have deep {coin : Valued} (member : coin ∈ eligibleCoins nConf nConf vCoins) :
      ∃ out ∈ vCoins, ¬out.nDepth < nConf ∧ coin = (out.nValue,out.point) := by
    obtain ⟨out,listed,rfl⟩ := List.mem_map.mp member
    obtain ⟨inside,confirmed⟩ := List.mem_filter.mp listed
    exact ⟨out,inside,by simpa using confirmed,rfl⟩
  have atFront (out : COutput) (inside : out ∈ vCoins) (confirmed : ¬out.nDepth < nConf) :
      (Chance.front out).random_shuffle vCoins = out :: vCoins.erase out ∧
        eligibleCoins nConf nConf (out :: vCoins.erase out) =
          (out.nValue,out.point) :: eligibleCoins nConf nConf (vCoins.erase out) := by
    refine ⟨if_pos inside,?_⟩
    simp [eligibleCoins,confirmed]
  -- a shuffle that changes nothing
  let plain : Chance := ⟨id,id,fun _ _ _ => false⟩
  have plainFair : plain.Fair := ⟨fun _ => List.Perm.refl _,fun _ => List.Perm.refl _⟩
  refine ⟨fun coin member => ?_,fun absent equal => ?_,fun absent notEqual below => ⟨fun coin member => ?_,fun nothing covers => ?_⟩,
    fun absent notEqual notBelow => absurd ⟨absent,notEqual,notBelow⟩ noSearch⟩
  · obtain ⟨inside,equal⟩ := mem_exactCoins.mp member
    obtain ⟨out,listed,confirmed,rfl⟩ := deep inside
    have taken : CWallet.SelectCoinsMinConf (Chance.front out) target nConf nConf vCoins =
        (⟨true,∅,{}⟩ : Selection).take (out.nValue,out.point) := by
      unfold CWallet.SelectCoinsMinConf
      rw [(atFront out listed confirmed).1]
      unfold splitCoins
      rw [ite_self,if_neg confirmed]
      dsimp only
      rw [if_pos equal]
    exact covers_of_right_take (taken ▸ right _ (front_fair out))
  · rcases outcome plain plainFair with ⟨coin,exact,_⟩ | ⟨_,allSmall,_⟩
    · have : coin ∈ exactCoins target (eligibleCoins nConf nConf vCoins) := exact
      simp [absent] at this
    · exact covers_of_right_takeAll ((allSmall equal) ▸ right plain plainFair)
  · obtain ⟨inside,different,large⟩ := mem_largeCoins.mp member
    obtain ⟨out,listed,confirmed,rfl⟩ := deep inside
    obtain ⟨shuffled,front⟩ := atFront out listed confirmed
    have perm : (eligibleCoins nConf nConf ((Chance.front out).random_shuffle vCoins)).Perm (eligibleCoins nConf nConf vCoins) :=
      (((front_fair out).random_shuffle vCoins).filter _).map _
    rcases outcome _ (front_fair out) with ⟨coin,exact,_⟩ | ⟨_,_,missed,_⟩
    · obtain ⟨member,equal⟩ := mem_exactCoins.mp exact
      have : coin ∈ exactCoins target (eligibleCoins nConf nConf vCoins) := mem_exactCoins.mpr ⟨perm.subset member,equal⟩
      simp [absent] at this
    · have smallPerm : (smallCoins target (eligibleCoins nConf nConf ((Chance.front out).random_shuffle vCoins))).Perm
          (smallCoins target (eligibleCoins nConf nConf vCoins)) := perm.filter _
      have same := total_perm (countable.subperm (List.filter_sublist.subperm.trans perm.subperm)) smallPerm
      have first : largeCoins target (eligibleCoins nConf nConf ((Chance.front out).random_shuffle vCoins)) =
          (out.nValue,out.point) :: largeCoins target (eligibleCoins nConf nConf (vCoins.erase out)) := by
        rw [shuffled,front]
        simp [largeCoins,different,large]
      have taken := (missed (same ▸ notEqual) (same ▸ below)).2 _ _ first
      exact covers_of_right_take (taken ▸ right _ (front_fair out))
  · rcases outcome plain plainFair with ⟨coin,exact,_⟩ | ⟨_,_,missed,_⟩
    · have : coin ∈ exactCoins target (eligibleCoins nConf nConf vCoins) := exact
      simp [absent] at this
    · have result := (missed notEqual below).1 nothing
      obtain ⟨c,short⟩ := (right plain plainFair).missed (by rw [result])
      have part : sumIn (smallCoins target (eligibleCoins nConf nConf vCoins)) c ≤ sumIn (eligibleCoins nConf nConf vCoins) c :=
        sumIn_sublist List.filter_sublist countable.plain c
      have smallCountable : Countable (smallCoins target (eligibleCoins nConf nConf vCoins)) :=
        countable.subperm List.filter_sublist.subperm
      have here := covers c
      rw [total_amount smallCountable] at here
      omega

end

namespace CWallet

/-- When `SelectCoins` is right: sums fit, and the comparisons with the target mean what
    they say for the coins picked by hand, or for the eligible coins and their sums. -/
structure Pays (wallet : CWallet) (target : Cash) (coinControl : Option CCoinControl) : Prop where
  fits : Fits target (wallet.eligible coinControl)
  byHand : coinControl.any CCoinControl.HasSelected = true →
    ((total (wallet.eligible coinControl)).ge target = true ↔ (total (wallet.eligible coinControl)).Covers target)
  chosen : coinControl.any CCoinControl.HasSelected = false → SelectionSafe target (wallet.eligible coinControl)

section
variable {wallet : CWallet} {target : Cash} {coinControl : Option CCoinControl}

private theorem SelectCoins_byHand (hand : coinControl.any CCoinControl.HasSelected = true) (chances : Fin 3 → Chance) :
    wallet.SelectCoins chances target ⟨false,∅,{}⟩ coinControl =
      {(⟨true,∅,{}⟩ : Selection).takeAll (wallet.eligible coinControl) with found := (total (wallet.eligible coinControl)).ge target} := by
  unfold SelectCoins
  dsimp only
  rw [if_pos hand,eligible,if_pos hand,Selection.takeAll_eq,Selection.takeAll_eq]
  rfl

private theorem right_byHand_iff (countable : Countable (wallet.eligible coinControl))
    (hand : coinControl.any CCoinControl.HasSelected = true) (chances : Fin 3 → Chance) :
    (wallet.SelectCoins chances target ⟨false,∅,{}⟩ coinControl).Right (wallet.eligible coinControl) target ↔
      ((total (wallet.eligible coinControl)).ge target = true ↔ (total (wallet.eligible coinControl)).Covers target) := by
  rw [SelectCoins_byHand hand]
  constructor
  · rintro ⟨found,missed⟩
    constructor
    · intro reaches
      obtain ⟨_,_,_,_,amounts⟩ := found reaches
      intro c
      obtain ⟨exactly,covers⟩ := amounts c
      have value : (((⟨true,∅,{}⟩ : Selection).takeAll (wallet.eligible coinControl)).nValueRet.amount c).toInt = _ := exactly
      rw [Selection.takeAll_eq] at value
      have value' : ((total (wallet.eligible coinControl)).amount c).toInt = _ := value
      omega
    · intro covers
      by_contra short
      obtain ⟨c,less⟩ := missed (by simpa using short)
      have here := covers c
      rw [total_amount countable] at here
      omega
  · intro means
    have taken := Selection.takeAll_eq ⟨true,∅,{}⟩ (wallet.eligible coinControl)
    refine ⟨fun reaches => ?_,fun short => ?_⟩
    · obtain ⟨selected,member,distinct,set,amounts⟩ := (Selection.right_takeAll countable (fun coin inside => inside)
        (wallet.eligible_distinct coinControl) (means.mp reaches)).found (by rw [taken])
      exact ⟨selected,member,distinct,set,amounts⟩
    · have uncovered : ¬(total (wallet.eligible coinControl)).Covers target := fun covers => by
        have : (total (wallet.eligible coinControl)).ge target = false := short
        simp [means.mpr covers] at this
      unfold Cash.Covers at uncovered
      push Not at uncovered
      obtain ⟨c,less⟩ := uncovered
      exact ⟨c,by rwa [total_amount countable] at less⟩

/-- Without coins picked by hand, `SelectCoins` gives the result of one of its attempts;
    a later one only when those before it found nothing. -/
private theorem SelectCoins_attempts (wallet : CWallet) (target : Cash) (auto : coinControl.any CCoinControl.HasSelected = false) (chances : Fin 3 → Chance) :
    (∃ i, wallet.SelectCoins chances target ⟨false,∅,{}⟩ coinControl = SelectCoinsMinConf (chances i) target MIN_CONF_MINE
      MIN_CONF_MINE (wallet.AvailableCoins true coinControl)) ∧
    ((∀ i, chances i = chances 0) → wallet.SelectCoins chances target ⟨false,∅,{}⟩ coinControl =
      SelectCoinsMinConf (chances 0) target MIN_CONF_MINE MIN_CONF_MINE (wallet.AvailableCoins true coinControl)) := by
  have confirmations : MIN_CONF_THEIRS = MIN_CONF_MINE := rfl
  unfold SelectCoins
  dsimp only
  rw [if_neg (by simp [auto]),confirmations]
  split
  · exact ⟨⟨0,rfl⟩,fun _ => rfl⟩
  split
  · exact ⟨⟨1,rfl⟩,fun same => by rw [same 1]⟩
  split
  · exact ⟨⟨2,rfl⟩,fun same => by rw [same 2]⟩
  · exact ⟨⟨1,rfl⟩,fun same => by rw [same 1]⟩

/-- `SelectCoins` is right under every shuffle, sorting and random search when the
    comparisons mean what they say for it, and unless it comes to a search only then. -/
theorem SelectCoins_right (wallet : CWallet) (target : Cash) (coinControl : Option CCoinControl) (asked : target.Plain)
    (checked : wallet.Checked) :
    (wallet.Pays target coinControl → ∀ chances : Fin 3 → Chance, (∀ i, (chances i).Fair) →
      (wallet.SelectCoins chances target ⟨false,∅,{}⟩ coinControl).Right (wallet.eligible coinControl) target) ∧
    (Fits target (wallet.eligible coinControl) →
      (coinControl.any CCoinControl.HasSelected = false → ¬Searches target (wallet.eligible coinControl)) →
      (∀ chances : Fin 3 → Chance, (∀ i, (chances i).Fair) →
        (wallet.SelectCoins chances target ⟨false,∅,{}⟩ coinControl).Right (wallet.eligible coinControl) target) →
      wallet.Pays target coinControl) := by
  have ranged := eligible_ranged checked coinControl
  have distinct := wallet.eligible_distinct coinControl
  have countable (fits : Fits target (wallet.eligible coinControl)) : Countable (wallet.eligible coinControl) :=
    ⟨fun coin member => (ranged coin member).1,fits.sums⟩
  constructor
  · intro pays chances fair
    by_cases hand : coinControl.any CCoinControl.HasSelected = true
    · exact (right_byHand_iff (countable pays.fits) hand chances).mpr (pays.byHand hand)
    have auto : coinControl.any CCoinControl.HasSelected = false := by simpa using hand
    have fits := pays.fits
    have safe := pays.chosen auto
    have counted := countable fits
    obtain ⟨i,attempt⟩ := (SelectCoins_attempts wallet target auto chances).1
    rw [attempt]
    have confirmed : wallet.eligible coinControl = eligibleCoins MIN_CONF_MINE MIN_CONF_MINE (wallet.AvailableCoins true coinControl) := by
      rw [eligible,if_neg hand]
    rw [confirmed] at counted ranged distinct safe ⊢
    exact SelectCoinsMinConf_right asked fits.target counted ranged distinct safe (fair i)
  · intro fits noSearch right
    refine ⟨fits,fun hand => ?_,fun auto => ?_⟩
    · let plain : Chance := ⟨id,id,fun _ _ _ => false⟩
      exact (right_byHand_iff (countable fits) hand fun _ => plain).mp
        (right _ fun _ => ⟨fun _ => List.Perm.refl _,fun _ => List.Perm.refl _⟩)
    · have confirmed : wallet.eligible coinControl = eligibleCoins MIN_CONF_MINE MIN_CONF_MINE (wallet.AvailableCoins true coinControl) := by
        rw [eligible,if_neg (by simp [auto])]
      have counted := countable fits
      have unsearched := noSearch auto
      rw [confirmed] at counted ranged unsearched right ⊢
      refine safe_of_SelectCoinsMinConf_right asked fits.target counted ranged unsearched fun chance fair => ?_
      have attempt := (SelectCoins_attempts wallet target auto fun _ => chance).2 fun _ => rfl
      rw [← attempt]
      exact right _ fun _ => fair

end

/-! A wallet with one coin of circuit A. -/

private def paymentWallet : CWallet where
  mapWallet := (∅ : ExtTreeMap uint256 CWalletTx).insert 7 {vout := [⟨Cash.ofMoney ([0x41],5),[]⟩],GetDepthInMainChain := 3}
  IsMine := fun _ => true
  IsLockedCoin := fun _ _ => false

private theorem paymentWallet_checked : paymentWallet.Checked := by
  intro hash tx listed out member
  simp only [paymentWallet,ExtTreeMap.getElem?_insert] at listed
  by_cases same : compare 7 hash = .eq
  · simp only [same,if_true,Option.some.injEq] at listed
    obtain rfl : out = ⟨Cash.ofMoney ([0x41],5),[]⟩ := by simpa [← listed] using member
    refine ⟨fun c => ?_,rfl⟩
    rw [Cash.ofMoney_amount]
    by_cases circuit : [0x41] = c <;> simp only [circuit,if_true,if_false] <;> decide
  · simp [same] at listed

private theorem ofMoney_plain (c : CashName) : (Cash.ofMoney (c,5)).Plain := by
  refine ⟨rfl,fun other => ?_⟩
  rw [Cash.ofMoney_amount]
  by_cases circuit : c = other <;> simp only [circuit,if_true,if_false] <;> decide

/-- Five of circuit A are taken for a payment of five of A and five of B. -/
theorem SelectCoins_short :
    ∃ chances : Fin 3 → Chance, (∀ i, (chances i).Fair) ∧
      ¬(paymentWallet.SelectCoins chances ⟨((∅ : CashStruct).insert [0x41] 5).insert [0x42] 5,0⟩ ⟨false,∅,{}⟩ none).Right
        (paymentWallet.eligible none) ⟨((∅ : CashStruct).insert [0x41] 5).insert [0x42] 5,0⟩ := by
  refine ⟨fun _ => ⟨id,id,fun _ _ _ => false⟩,fun _ => ⟨fun _ => List.Perm.refl _,fun _ => List.Perm.refl _⟩,fun right => ?_⟩
  obtain ⟨_,_,_,_,amounts⟩ := right.found (by decide +kernel)
  obtain ⟨exactly,covers⟩ := amounts [0x42]
  rw [← exactly] at covers
  exact absurd covers (by decide +kernel)

theorem SelectCoins_right_sample :
    (paymentWallet.Pays (Cash.ofMoney ([0x41],5)) none → ∀ chances : Fin 3 → Chance, (∀ i, (chances i).Fair) →
      (paymentWallet.SelectCoins chances (Cash.ofMoney ([0x41],5)) ⟨false,∅,{}⟩ none).Right (paymentWallet.eligible none)
        (Cash.ofMoney ([0x41],5))) ∧
    (Fits (Cash.ofMoney ([0x41],5)) (paymentWallet.eligible none) →
      ((none : Option CCoinControl).any CCoinControl.HasSelected = false →
        ¬Searches (Cash.ofMoney ([0x41],5)) (paymentWallet.eligible none)) →
      (∀ chances : Fin 3 → Chance, (∀ i, (chances i).Fair) →
        (paymentWallet.SelectCoins chances (Cash.ofMoney ([0x41],5)) ⟨false,∅,{}⟩ none).Right (paymentWallet.eligible none)
          (Cash.ofMoney ([0x41],5))) →
      paymentWallet.Pays (Cash.ofMoney ([0x41],5)) none) :=
  SelectCoins_right paymentWallet (Cash.ofMoney ([0x41],5)) none (ofMoney_plain [0x41]) paymentWallet_checked

end CWallet
end Tetra
