import Mathlib
import Tetra.DeerAccounts

/-!
What an opening that fails leaves behind: the steps of `CreateAccount` with the wallet
and the payments after each of them, whichever step ends the call.
-/
namespace Tetra.Deer
open Std

abbrev Payment := CScript × Cash

/-- A service, with the transactions that a payment leaves in the wallet when it is put
    there and then rejected. The two keys of a call are two: the first was taken out of the
    pool before the second is asked for. -/
structure Teller extends Service where
  attempted : ExtTreeMap uint256 AccountTx := ∅
  twoKeys : ∀ keyID ∈ newKey, keyID ∉ newDefaultKey

/-- `10000 * 100` of EUR -/
def grant : Cash := Cash.ofMoney (EUR,10000*100)

/-- The wallet after a payment was put into it. -/
def afterPayment (o : Service) (wallet : AccountWallet) (mapWallet : ExtTreeMap uint256 AccountTx) : AccountWallet :=
  let wallet := {wallet with mapWallet := mapWallet}
  match o.newDefaultKey with
  | some keyID => label wallet keyID []
  | none => wallet

section
variable {Address : Type}

def SendMoneyToDestinationCall (rules : WalletRules Address) (o : Teller) (wallet : AccountWallet) (address : Address) (nValue : Cash) :
    String × AccountWallet × List Payment :=
  if nValue.leAmount 0 then ("Invalid amount",wallet,[])
  else if (nValue.addFees o.nTransactionFee).gt o.GetBalance then ("Insufficient funds",wallet,[])
  else
    let scriptPubKey := rules.SetDestination address
    let strError := o.SendMoney scriptPubKey nValue
    if strError = "" then (strError,afterPayment o.toService wallet o.sent,[(scriptPubKey,nValue)])
    else (strError,afterPayment o.toService wallet o.attempted,[])

def sendfromCall (rules : WalletRules Address) (o : Teller) (wallet : AccountWallet) (account destination : Text) (amount : JsonAmount) :
    Except Reject Unit × AccountWallet × List Payment :=
  match AccountFromValue account with
  | .error e => (thrown e,wallet,[])
  | .ok strAccount =>
    match rules.decode destination with
    | none => (thrown ⟨.RPC_INVALID_ADDRESS_OR_KEY,"Invalid Tetra address",[]⟩,wallet,[])
    | some address =>
      match CashFromValue amount with
      | .error e => (thrown e,wallet,[])
      | .ok nAmount =>
        match EnsureWalletIsUnlocked o.IsLocked with
        | .error e => (thrown e,wallet,[])
        | .ok () =>
          match wallet.GetAccountBalance strAccount 1 with
          | .error e => (.error e,wallet,[])
          | .ok nBalance =>
            if nAmount.gt nBalance then (thrown ⟨.RPC_WALLET_INSUFFICIENT_FUNDS,"Account has insufficient funds",[]⟩,wallet,[]) else
            let (strError,wallet,payments) := SendMoneyToDestinationCall rules o wallet address nAmount
            if strError ≠ "" then (thrown ⟨.RPC_WALLET_ERROR,strError,[]⟩,wallet,payments) else (.ok (),wallet,payments)

/-- `catch(Value e)` hands an exception on, if it is of that type at all. -/
def CreateAccountCall (rules : WalletRules Address) (o : Teller) (wallet : AccountWallet) (r : KeyRequest) :
    Except Reject Text × AccountWallet × List Payment :=
  match authorise rules.toDeerRules o.toArrival wallet (.CreateAccount r) with
  | .error e => (.error e,wallet,[])
  | .ok _ =>
    match getnewaddress o.toService wallet r.pbk with
    | .error e => (.error e,wallet,[])
    | .ok (keyID,wallet) =>
      let (paid,wallet,payments) := sendfromCall rules o wallet cashreserve (rules.KeyAddress keyID) grant.ToJSON
      match paid with
      | .error e => (.error e,wallet,payments)
      | .ok () => (.ok (rules.KeyAddress keyID),wallet,payments)

/-- The names that `listaccounts` answers with. -/
def known (wallet : AccountWallet) : Except Reject (List AccountName) :=
  match wallet.listaccounts 1 with
  | .error e => .error e
  | .ok alist => .ok alist.keys

/-- A call that fails leaves the accounts as they were; one that succeeds made the account
    and paid one grant, to the address it made. -/
structure AllOrNothing (rules : WalletRules Address) (wallet : AccountWallet) (r : KeyRequest)
    (result : Except Reject Text × AccountWallet × List Payment) : Prop where
  failed : ∀ e, result.1 = .error e → known result.2.1 = known wallet
  named : ∀ address, result.1 = .ok address → r.pbk ∈ result.2.1.ownAccounts ∧ ∀ names, known result.2.1 = .ok names → r.pbk ∈ names
  granted : ∀ address, result.1 = .ok address → ∃ keyID destination, address = rules.KeyAddress keyID ∧
    result.2.1.mapAddressBook[CTxDestination.CKeyID keyID]? = some r.pbk ∧ rules.decode address = some destination ∧
    result.2.2 = [(rules.SetDestination destination,grant)]

/-- What the payment of a grant needs: a wallet that is not locked, a reserve that covers
    the grant, a balance that covers the fee too, and a transaction that is taken. -/
structure Payable (rules : WalletRules Address) (o : Teller) (wallet : AccountWallet) (address : Text) (destination : Address) : Prop where
  decoded : rules.decode address = some destination
  unlocked : o.IsLocked = false
  reserve : ∃ nBalance, wallet.GetAccountBalance cashreserve 1 = .ok nBalance ∧ grant.gt nBalance = false
  covered : (grant.addFees o.nTransactionFee).gt o.GetBalance = false
  taken : o.SendMoney (rules.SetDestination destination) grant = ""

end

/-! ### The grant as JSON -/

theorem grant_ToJSON : grant.ToJSON = [(EUR,10000)] := by decide +kernel

theorem grant_ofJson : Cash.ofJson grant.ToJSON = grant := by
  have amount : amountOfReal 10000 = 10000*100 := by decide +kernel
  rw [grant_ToJSON,Cash.ofJson,List.foldl_cons,List.foldl_nil,amount]
  rfl

theorem grant_positive : grant.leAmount 0 = false := by decide +kernel

theorem CashFromValue_grant : CashFromValue grant.ToJSON = .ok grant := by
  have inRange : MoneyRange grant = true := by decide +kernel
  unfold CashFromValue
  rw [grant_ofJson]
  dsimp only
  rw [if_neg (by rw [grant_positive]; decide),inRange]
  rfl

/-! ### What stays in the address book -/

/-- A key of the wallet, under a name. -/
structure Labelled (wallet : AccountWallet) (keyID : Nat) (strName : AccountName) : Prop where
  named : wallet.mapAddressBook[CTxDestination.CKeyID keyID]? = some strName
  mine : wallet.IsMineAddress (.CKeyID keyID) = true

section
variable {wallet : AccountWallet} {keyID : Nat} {strName : AccountName}

theorem labelled_label (wallet : AccountWallet) (keyID : Nat) (strName : AccountName) : Labelled (label wallet keyID strName) keyID strName :=
  ⟨by simp [label],by simp [label]⟩

theorem Labelled.other (labelled : Labelled wallet keyID strName) {other : Nat} (apart : other ≠ keyID) (name : AccountName) :
    Labelled (label wallet other name) keyID strName := by
  have different : CTxDestination.CKeyID other ≠ CTxDestination.CKeyID keyID := fun same => apart (CTxDestination.CKeyID.inj same)
  constructor
  · rw [label,ExtTreeMap.getElem?_insert,if_neg fun same => different (LawfulEqCmp.eq_of_compare same)]
    exact labelled.named
  · simp [label,labelled.mine]

/-- The name of a new address outlives the payment to it. -/
theorem Labelled.afterPayment {o : Teller} (labelled : Labelled wallet keyID strName) (given : o.newKey = some keyID)
    (mapWallet : ExtTreeMap uint256 AccountTx) : Labelled (afterPayment o.toService wallet mapWallet) keyID strName := by
  have kept : Labelled {wallet with mapWallet := mapWallet} keyID strName := ⟨labelled.named,labelled.mine⟩
  unfold Deer.afterPayment
  dsimp only
  split
  next other default =>
    refine kept.other (fun same => ?_) []
    exact o.twoKeys keyID given (by rw [default,same]; rfl)
  · exact kept

theorem Labelled.own (labelled : Labelled wallet keyID strName) : strName ∈ wallet.ownAccounts :=
  (mem_ownAccounts_iff ..).mpr ⟨_,labelled.named,labelled.mine⟩

theorem mem_known {names : List AccountName} (lists : known wallet = .ok names) (own : strName ∈ wallet.ownAccounts) : strName ∈ names := by
  unfold known at lists
  split at lists
  · contradiction
  next alist answer =>
    obtain rfl := Except.ok.inj lists
    exact ExtTreeMap.mem_keys.mpr (mem_listaccounts answer own)

/-- A request for an account passes only where `listaccounts` answers without its name. -/
theorem unlisted {m : Arrival} {r : KeyRequest} {pbk : CPubKey} (passes : checkRequest m wallet r false = .ok pbk) :
    ∃ names, known wallet = .ok names ∧ r.pbk ∉ names := by
  unfold checkRequest at passes
  dsimp only at passes
  split at passes
  · contradiction
  split at passes
  · contradiction
  split at passes
  · contradiction
  next alist lists =>
    rw [if_neg Bool.false_ne_true] at passes
    split at passes
    · contradiction
    next absent =>
      have answer : known wallet = .ok alist.keys := by rw [known,lists]
      exact ⟨_,answer,fun listed => absent (ExtTreeMap.mem_keys.mp listed)⟩

end

/-! ### The call -/

section
variable {Address : Type} {rules : WalletRules Address} {o : Teller} {wallet : AccountWallet} {address : Text}

theorem sendfromCall_payable {destination : Address} (payable : Payable rules o wallet address destination) :
    sendfromCall rules o wallet cashreserve address grant.ToJSON =
      (.ok (),afterPayment o.toService wallet o.sent,[(rules.SetDestination destination,grant)]) := by
  obtain ⟨nBalance,balance,enough⟩ := payable.reserve
  have account : AccountFromValue cashreserve = .ok cashreserve := rfl
  have paid : SendMoneyToDestinationCall rules o wallet destination grant =
      ("",afterPayment o.toService wallet o.sent,[(rules.SetDestination destination,grant)]) := by
    unfold SendMoneyToDestinationCall
    dsimp only
    rw [if_neg (by rw [grant_positive]; decide),if_neg (by rw [payable.covered]; decide),if_pos payable.taken,payable.taken]
  unfold sendfromCall
  rw [account,payable.decoded,CashFromValue_grant,payable.unlocked]
  dsimp only [EnsureWalletIsUnlocked]
  rw [if_neg Bool.false_ne_true,balance]
  dsimp only
  rw [if_neg (by rw [enough]; decide),paid]
  rfl

/-- Without that nothing is paid, and the wallet has a rejected transaction at most. -/
theorem sendfromCall_fails (unpayable : ∀ destination, ¬ Payable rules o wallet address destination) :
    ∃ e wallet', sendfromCall rules o wallet cashreserve address grant.ToJSON = (.error e,wallet',[]) ∧
      (wallet' = wallet ∨ wallet' = afterPayment o.toService wallet o.attempted) := by
  have account : AccountFromValue cashreserve = .ok cashreserve := rfl
  unfold sendfromCall
  rw [account]
  dsimp only
  cases decoded : rules.decode address with
  | none => exact ⟨_,_,rfl,.inl rfl⟩
  | some destination =>
    rw [CashFromValue_grant]
    dsimp only
    cases locked : o.IsLocked with
    | true => exact ⟨_,_,rfl,.inl rfl⟩
    | false =>
      dsimp only [EnsureWalletIsUnlocked]
      rw [if_neg Bool.false_ne_true]
      dsimp only
      cases balance : wallet.GetAccountBalance cashreserve 1 with
      | error e => exact ⟨_,_,rfl,.inl rfl⟩
      | ok nBalance =>
        dsimp only
        cases enough : grant.gt nBalance with
        | true => exact ⟨_,_,rfl,.inl rfl⟩
        | false =>
          rw [if_neg Bool.false_ne_true]
          unfold SendMoneyToDestinationCall
          dsimp only
          rw [grant_positive,if_neg Bool.false_ne_true]
          cases covered : (grant.addFees o.nTransactionFee).gt o.GetBalance with
          | true => exact ⟨_,_,rfl,.inl rfl⟩
          | false =>
            have untaken : o.SendMoney (rules.SetDestination destination) grant ≠ "" := fun taken =>
              unpayable destination ⟨decoded,locked,⟨nBalance,balance,enough⟩,covered,taken⟩
            rw [if_neg Bool.false_ne_true,if_neg untaken]
            dsimp only
            rw [if_pos untaken]
            exact ⟨_,_,rfl,.inr rfl⟩

/-- The call answers as `pay` does, with the same wallet when it goes through. -/
theorem sendfromCall_agrees (rules : WalletRules Address) (o : Teller) (wallet : AccountWallet) (address : Text) :
    pay rules o.toService wallet cashreserve address grant.ToJSON =
      (sendfromCall rules o wallet cashreserve address grant.ToJSON).1.map
        fun _ => (sendfromCall rules o wallet cashreserve address grant.ToJSON).2.1 := by
  have account : AccountFromValue cashreserve = .ok cashreserve := rfl
  unfold sendfromCall pay Rpc.sendfrom Rpc.sendfromParams
  simp only [account,CashFromValue_grant,bind,Except.bind]
  cases decoded : rules.decode address with
  | none => rfl
  | some destination =>
    cases locked : o.IsLocked with
    | true => rfl
    | false =>
      simp only [EnsureWalletIsUnlocked,Bool.false_eq_true,if_false]
      cases balance : wallet.GetAccountBalance cashreserve 1 with
      | error e => rfl
      | ok nBalance =>
        by_cases short : grant.gt nBalance = true
        · simp [short,thrown,Except.map]
        · simp only [short,SendMoneyToDestinationCall,Rpc.SendMoneyToDestination,grant_positive]
          by_cases uncovered : (grant.addFees o.nTransactionFee).gt o.GetBalance = true
          · simp [uncovered,thrown,Except.map]
          · by_cases taken : o.SendMoney (rules.SetDestination destination) grant = ""
            · simp only [uncovered,taken,afterPayment,Except.map]
              cases o.newDefaultKey <;> rfl
            · simp [uncovered,taken,thrown,Except.map]

theorem CreateAccountCall_agrees [DecidableEq Address] (rules : WalletRules Address) (o : Teller) (wallet : AccountWallet) (r : KeyRequest) :
    (CreateAccountCall rules o wallet r).1 = (CreateAccount rules o.toService wallet r).1 := by
  unfold CreateAccountCall CreateAccount
  cases authorise rules.toDeerRules o.toArrival wallet (.CreateAccount r) with
  | error e => rfl
  | ok pbk =>
    dsimp only
    cases getnewaddress o.toService wallet r.pbk with
    | error e => rfl
    | ok entry =>
      have agrees := sendfromCall_agrees rules o entry.2 (rules.KeyAddress entry.1)
      dsimp only
      unfold grant at agrees ⊢
      rw [agrees]
      cases (sendfromCall rules o entry.2 cashreserve (rules.KeyAddress entry.1) (Cash.ofMoney (EUR,10000*100)).ToJSON).1 <;> rfl

theorem AccountFromValue_valid {m : Arrival} {r : KeyRequest} {pbk : CPubKey} (passes : checkRequest m wallet r false = .ok pbk) :
    AccountFromValue r.pbk = .ok r.pbk := by
  obtain ⟨_,rfl,valid⟩ := checkRequest_ok passes
  have name : r.pbk ≠ [42] := by
    intro star
    rw [star] at valid
    exact valid rfl
  rw [AccountFromValue,if_neg name]

/-- All or nothing, just when the request is refused, or there is no key, or the grant can be
    paid. -/
theorem CreateAccount_allOrNothing_iff (rules : WalletRules Address) (o : Teller) (wallet : AccountWallet) (r : KeyRequest) :
    AllOrNothing rules wallet r (CreateAccountCall rules o wallet r) ↔
      (∀ pbk, authorise rules.toDeerRules o.toArrival wallet (.CreateAccount r) ≠ .ok pbk) ∨ o.newKey = none ∨
      ∃ keyID destination, o.newKey = some keyID ∧ Payable rules o (label wallet keyID r.pbk) (rules.KeyAddress keyID) destination := by
  have unchanged : ∀ e, AllOrNothing rules wallet r (.error e,wallet,[]) := fun e => ⟨fun _ _ => rfl,nofun,nofun⟩
  unfold CreateAccountCall
  cases authorised : authorise rules.toDeerRules o.toArrival wallet (.CreateAccount r) with
  | error e => exact iff_of_true (unchanged e) (.inl nofun)
  | ok pbk =>
    have passes : checkRequest o.toArrival wallet r false = .ok pbk := authorise_ok authorised
    unfold getnewaddress
    rw [AccountFromValue_valid passes]
    dsimp only
    cases given : o.newKey with
    | none => exact iff_of_true (unchanged _) (.inr (.inl rfl))
    | some keyID =>
      dsimp only
      have start := labelled_label wallet keyID r.pbk
      by_cases payable : ∃ destination, Payable rules o (label wallet keyID r.pbk) (rules.KeyAddress keyID) destination
      · obtain ⟨destination,payable⟩ := payable
        refine iff_of_true ?_ (.inr (.inr ⟨keyID,destination,rfl,payable⟩))
        have last := start.afterPayment given o.sent
        rw [sendfromCall_payable payable]
        refine ⟨nofun,fun _ _ => ⟨last.own,fun names lists => mem_known lists last.own⟩,fun text answer => ?_⟩
        obtain rfl := Except.ok.inj answer
        exact ⟨keyID,destination,rfl,last.named,payable.decoded,rfl⟩
      · have unpayable : ∀ destination, ¬ Payable rules o (label wallet keyID r.pbk) (rules.KeyAddress keyID) destination :=
          fun destination good => payable ⟨destination,good⟩
        obtain ⟨e,wallet',fails,left⟩ := sendfromCall_fails unpayable
        have last : Labelled wallet' keyID r.pbk := by
          rcases left with rfl | rfl
          · exact start
          · exact start.afterPayment given o.attempted
        rw [fails]
        refine iff_of_false (fun whole => ?_) ?_
        · -- The name is listed now, and it was not before.
          obtain ⟨names,lists,absent⟩ := unlisted passes
          exact absent (mem_known ((whole.failed e rfl).trans lists) last.own)
        · rintro (refused | missing | ⟨other,destination,same,payable'⟩)
          · exact refused pbk rfl
          · contradiction
          · obtain rfl := Option.some.inj same
            exact unpayable destination payable'

end

/-! ### An empty reserve -/

private def emptyReserve : AccountWallet := {reserveWallet with acentries := []}

private def poorTeller : Teller where
  GetAdjustedTime := 1400000000
  GetBalance := {}
  newKey := some 1
  twoKeys := fun _ _ => Option.not_mem_none _

private def firstRequest : KeyRequest := ⟨0x30 :: 0x32 :: List.replicate 64 0x61,1400000000,[],[]⟩

/-- The reserve has nothing: the call throws, and from then on the key has registered. -/
theorem failed_call_registers :
    (CreateAccountCall shopRules poorTeller emptyReserve firstRequest).1 = .error (.throws "Account has insufficient funds") ∧
    ¬ AllOrNothing shopRules emptyReserve firstRequest (CreateAccountCall shopRules poorTeller emptyReserve firstRequest) := by
  have thrown' : (CreateAccountCall shopRules poorTeller emptyReserve firstRequest).1 = .error (.throws "Account has insufficient funds") := by
    decide +kernel
  refine ⟨thrown',fun whole => ?_⟩
  have before : (known emptyReserve).toOption = some [] := by decide +kernel
  have after : (known (CreateAccountCall shopRules poorTeller emptyReserve firstRequest).2.1).toOption = some [firstRequest.pbk] := by
    decide +kernel
  rw [whole.failed _ thrown',before] at after
  exact absurd after (by decide)

end Tetra.Deer
