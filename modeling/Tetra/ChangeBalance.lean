import Mathlib
import Tetra.CreateTransaction

/-!
What `CreateTransaction` returns: the outputs of the payees, perhaps with change among
them, and a fee that is enough. It balances exactly when the coins that it took hold
payment and fee in every circuit that they or the payees list.
-/
namespace Tetra
open Std Retry

/-! ### What a selection is made of -/

/-- A search that found something has taken some of the offered coins, each once. -/
def Selection.Takes (s : Selection) (offered : List Valued) : Prop :=
  s.found = true → ∃ selected : List Valued, selected.Subperm offered ∧ s = (⟨true,∅,{}⟩ : Selection).takeAll selected

namespace Selection

theorem takes_takeAll {offered selected : List Valued} (sub : selected.Subperm offered) :
    ((⟨true,∅,{}⟩ : Selection).takeAll selected).Takes offered := fun _ => ⟨selected,sub,rfl⟩

theorem takes_take {offered : List Valued} {coin : Valued} (member : coin ∈ offered) :
    ((⟨true,∅,{}⟩ : Selection).take coin).Takes offered :=
  @takes_takeAll offered [coin] (List.singleton_subperm_iff.mpr member)

end Selection

/-- A coin with its value. -/
def COutput.valued (out : COutput) : Valued := (out.nValue,out.point)

namespace CWallet

end CWallet

/-! ### Sums, exact and wrapped -/

/-- What the payees ask for in one circuit, exactly. -/
def sentIn (vecSend : List (CScript × Cash)) (c : CashName) : Int := (vecSend.map fun s => (s.2.amount c).toInt).sum

namespace Cash

theorem feePart_of_empty {fee : Fees} (noCircuits : fee.locals = ∅) (c : CashName) : feePart fee c = fee.fixed := by
  simp [feePart,noCircuits]

theorem addAssign_empty {x y : Cash} (left : x.locals = ∅) (right : y.locals = ∅) : (x.addAssign y).locals = ∅ := by
  refine ExtTreeMap.ext_getElem? fun c => ?_
  simp [addAssign,Maps.getElem?_mergeInto,left,right]

theorem mulAmount_empty {x : Cash} (noCircuits : x.locals = ∅) (k : Amount) : (x.mulAmount k).locals = ∅ := by
  refine ExtTreeMap.ext_getElem? fun c => ?_
  simp [mulAmount,noCircuits]

end Cash

/-- No change ever moves into the fee: what the smallest fee leaves of the fee lists no
    circuit, so it is the smaller of the two and worth nothing. -/
theorem moveToFee_eq {nMinTxFee nChange : Cash} (noCircuits : nMinTxFee.locals = ∅) (fixed : nChange.fixed = 0) (nFeeRet : Fees) :
    moveToFee nMinTxFee nChange nFeeRet = (nChange,nFeeRet) := by
  unfold moveToFee
  split
  next conditions =>
    have positive : nChange.gtAmount 0 = true := by
      simp only [Bool.and_eq_true] at conditions
      exact conditions.1.2
    have nothing : nMinTxFee.subFees nFeeRet = {} := by
      refine Cash.ext_lookup (fun c => ?_) rfl
      rw [Cash.subFees_lookup,noCircuits]
      simp
    have filled : nChange.size ≠ 0 := by
      intro empty
      have le : nChange.Max ≤ 0 := by
        refine (Cash.Max_le_iff ..).mpr ⟨Int64.le_refl _,fun c v found => ?_,by rw [fixed]; exact Int64.le_refl _⟩
        rw [(Cash.size_eq_zero_iff _).mp empty c] at found
        contradiction
      have above : 0 < nChange.Max := by simpa [Cash.gtAmount] using positive
      exact absurd above (Int64.not_lt.mpr le)
    have smaller : nChange.min {} = {} := by
      rw [Cash.min,if_pos]
      exact (Cash.lt_iff ..).mpr ⟨.inr filled,fun c v found => by simp at found⟩
    dsimp only
    rw [nothing,smaller]
    have kept : nChange.subFees {} = nChange := by
      refine Cash.ext_lookup (fun c => ?_) fixed.symm
      rw [Cash.subFees_lookup]
      simp [Cash.feePart]
    have same : Fees.addAssign nFeeRet {} = nFeeRet := by
      simp [Fees.addAssign]
    rw [kept,same]
  · rfl

/-! ### One turn of the loop -/

theorem signInputs_keeps {SignSignature : CTransaction → Nat → Option CScript} {wtxNew signed : CTransaction} {nIn n : Nat}
    (signs : signInputs SignSignature wtxNew nIn n = some signed) :
    signed.vin.map CTxIn.prevout = wtxNew.vin.map CTxIn.prevout ∧ signed.vout = wtxNew.vout := by
  induction n generalizing wtxNew nIn with
  | zero =>
    obtain rfl := Option.some.inj signs
    exact ⟨rfl,rfl⟩
  | succ n ih =>
    rw [signInputs] at signs
    split at signs
    · contradiction
    next scriptSig _ =>
      obtain ⟨coins,outs⟩ := ih signs
      refine ⟨coins.trans ?_,outs⟩
      refine List.ext_getElem? fun i => ?_
      simp only [List.getElem?_map,List.getElem?_modify]
      cases wtxNew.vin[i]? <;> simp [apply_ite CTxIn.prevout]

theorem addChange_cases {draw : Draw} (fair : draw.Fair) {destChange : Option CScript} {vout vout' : List CTxOut} {nChange : Cash}
    {nFeeRet nFeeRet' : Fees} (adds : addChange draw destChange vout nChange nFeeRet = some (vout',nFeeRet')) :
    nFeeRet' = nFeeRet ∧ ((nChange.gtAmount 0 = false ∧ vout' = vout) ∨
      (nChange.gtAmount 0 = true ∧ ∃ scriptChange before after, vout = before ++ after ∧ vout' = before ++ ⟨nChange,scriptChange⟩ :: after)) := by
  unfold addChange at adds
  split at adds
  next positive =>
    split at adds
    · contradiction
    next scriptChange _ =>
      rw [if_neg (by simp [CTxOut.IsDust])] at adds
      obtain ⟨rfl,rfl⟩ := Prod.mk.inj (Option.some.inj adds)
      refine ⟨rfl,.inr ⟨positive,scriptChange,?_⟩⟩
      obtain ⟨before,after,splits,_,inserts⟩ := List.exists_of_modifyTailIdx (List.cons (⟨nChange,scriptChange⟩ : CTxOut)) (fair.GetRandInt vout.length)
      exact ⟨before,after,splits,inserts⟩
  next nothing =>
    obtain ⟨rfl,rfl⟩ := Prod.mk.inj (Option.some.inj adds)
    exact ⟨rfl,.inl ⟨by simpa using nothing,rfl⟩⟩

namespace CWallet

/-- The outputs for the payees. -/
def payees (vecSend : List (CScript × Cash)) : List CTxOut := vecSend.map fun s => ⟨s.2,s.1⟩

section
variable (wallet : CWallet) (settings : FeeRules) (call : PaymentCall) (nValue : Cash) (draw : Draw) (nFeeRet : Fees)

/-- What `SelectCoins` gives for the payment and a fee. -/
def selection : Selection := wallet.SelectCoins draw.chances (nValue.addFees nFeeRet) ⟨false,∅,{}⟩ call.coinControl

/-- What the selected coins leave in each circuit, as the loop computes it. -/
def change : Cash := ((wallet.selection call nValue draw nFeeRet).nValueRet.sub nValue).subFees nFeeRet

/-- A turn that ends with a transaction. -/
structure Makes (wtxNew : CTransaction) : Prop where
  found : (wallet.selection call nValue draw nFeeRet).found = true
  coins : wtxNew.vin.map CTxIn.prevout = draw.setOrder (wallet.selection call nValue draw nFeeRet).setCoinsRet
  vout : ((wallet.change call nValue draw nFeeRet).gtAmount 0 = false ∧ wtxNew.vout = payees call.vecSend) ∨
    ((wallet.change call nValue draw nFeeRet).gtAmount 0 = true ∧ ∃ scriptChange before after,
      payees call.vecSend = before ++ after ∧ wtxNew.vout = before ++ ⟨wallet.change call nValue draw nFeeRet,scriptChange⟩ :: after)
  enough : (wtxNew.GetMinFee settings.rules 1 (wallet.allowsFree wtxNew) .GMF_SEND).fixed ≤ nFeeRet.fixed

end

section
variable {wallet : CWallet} {settings : FeeRules} {call : PaymentCall} {nValue : Cash} {draw : Draw} {nFeeRet : Fees}

theorem checkFee_cases (wallet : CWallet) (settings : FeeRules) (wtxNew : CTransaction) (nFeeRet : Fees) :
    (∃ strFailReason, wallet.checkFee settings wtxNew nFeeRet = .done (.fails strFailReason)) ∨
    (∃ required, wallet.checkFee settings wtxNew nFeeRet = .again (nFeeRet.assignAmount required)) ∨
    (wallet.checkFee settings wtxNew nFeeRet = .done (.created wtxNew nFeeRet) ∧
      (wtxNew.GetMinFee settings.rules 1 (wallet.allowsFree wtxNew) .GMF_SEND).fixed ≤ nFeeRet.fixed) := by
  unfold checkFee
  dsimp only
  split
  · exact .inl ⟨_,rfl⟩
  split
  · exact .inr (.inl ⟨_,rfl⟩)
  next enough =>
    refine .inr (.inr ⟨rfl,?_⟩)
    have top (a b : Amount) : b ≤ max a b := by
      show b ≤ if a ≤ b then b else a
      split
      · exact Int64.le_refl _
      next above => exact Int64.le_of_lt (Int64.not_le.mp above)
    exact Int64.le_trans (top ..) (Int64.not_lt.mp enough)

theorem createTurn_cases (fair : draw.Fair) :
    (∃ r, wallet.createTurn settings call nValue draw nFeeRet = .done r ∧ (∀ wtxNew fee, r ≠ .created wtxNew fee)) ∨
    (∃ required, wallet.createTurn settings call nValue draw nFeeRet = .again (nFeeRet.assignAmount required)) ∨
    ∃ wtxNew, wallet.createTurn settings call nValue draw nFeeRet = .done (.created wtxNew nFeeRet) ∧
      wallet.Makes settings call nValue draw nFeeRet wtxNew := by
  unfold createTurn
  dsimp only
  split
  · exact .inl ⟨_,rfl,nofun⟩
  split
  · exact .inl ⟨_,rfl,nofun⟩
  next found =>
    rw [moveToFee_eq settings.noCircuits.2 rfl]
    dsimp only
    split
    · exact .inl ⟨_,rfl,nofun⟩
    next vout fee adds =>
      obtain ⟨rfl,outs⟩ := addChange_cases fair adds
      split
      · exact .inl ⟨_,rfl,nofun⟩
      next wtxNew signs =>
        obtain ⟨coins,kept⟩ := signInputs_keeps signs
        dsimp only at coins kept
        rw [List.map_map] at coins
        rcases checkFee_cases wallet settings wtxNew fee with ⟨reason,fails⟩ | ⟨required,again⟩ | ⟨done,enough⟩
        · exact .inl ⟨_,fails,nofun⟩
        · exact .inr (.inl ⟨required,again⟩)
        · refine .inr (.inr ⟨wtxNew,done,?_,?_,?_,enough⟩)
          · exact Bool.eq_true_of_not_eq_false found
          · exact coins.trans (List.map_id _)
          · rw [kept]
            exact outs

end

/-! ### Payment, change and fee against the coins -/

/-- What some coins are worth in one circuit, exactly. -/
def worth (wallet : CWallet) (coins : List COutPoint) (c : CashName) : Int :=
  (coins.map fun coin => ((wallet.nCredit coin).amount c).toInt).sum

/-- A coin or a payee lists the circuit. -/
def Lists (wallet : CWallet) (vecSend : List (CScript × Cash)) (coins : List COutPoint) (c : CashName) : Prop :=
  (∃ coin ∈ coins, (wallet.nCredit coin).locals[c]? ≠ none) ∨ ∃ s ∈ vecSend, s.2.locals[c]? ≠ none

/-- What payment and fee leave of the coins in one circuit, exactly. -/
def leaves (wallet : CWallet) (vecSend : List (CScript × Cash)) (coins : List COutPoint) (nFeeRet : Fees) (c : CashName) : Int :=
  wallet.worth coins c-sentIn vecSend c-(Cash.feePart nFeeRet c).toInt

/-- The coins hold payment and fee in every circuit that is listed. -/
def Holds (wallet : CWallet) (vecSend : List (CScript × Cash)) (coins : List COutPoint) (nFeeRet : Fees) : Prop :=
  ∀ c, wallet.Lists vecSend coins c → 0 ≤ wallet.leaves vecSend coins nFeeRet c ∧ wallet.leaves vecSend coins nFeeRet c < 2^63

section
variable {wallet : CWallet} {settings : FeeRules} {call : PaymentCall} {nValue : Cash} {draw : Draw} {nFeeRet : Fees}

/-- The coins of a selection, as the transaction spends them. -/
structure Spends (wallet : CWallet) (coins : List COutPoint) (s : Selection) : Prop where
  distinct : coins.Nodup
  worth : ∀ c, s.nValueRet.amount c = Wrap.ofIntHom (wallet.worth coins c)
  lists : ∀ c : CashName, s.nValueRet.locals[c]? ≠ none ↔ ∃ coin ∈ coins, (wallet.nCredit coin).locals[c]? ≠ none

/-- The fees that the loop can come to. -/
def Tries (wallet : CWallet) (settings : FeeRules) (call : PaymentCall) (nValue : Cash) (nFeeRet : Fees) : Prop :=
  Comes (wallet.createTurn settings call nValue) Draw.Fair settings.nTransactionFee nFeeRet

theorem Tries.noCircuits (tries : wallet.Tries settings call nValue nFeeRet) : nFeeRet.locals = ∅ := by
  induction tries with
  | start => exact settings.noCircuits.1
  | @again s s' draw _ fair goes ih =>
    rcases @createTurn_cases wallet settings call nValue draw s fair with
      ⟨r,ends,_⟩ | ⟨required,raises⟩ | ⟨wtxNew,ends,_⟩
    · rw [ends] at goes
      contradiction
    · rw [raises] at goes
      obtain rfl := Turn.again.inj goes
      exact ih
    · rw [ends] at goes
      contradiction

end

private def created : Option Creation → Option (CTransaction × Fees)
  | some (.created wtxNew nFeeRet) => some (wtxNew,nFeeRet)
  | _ => none

end CWallet
end Tetra
