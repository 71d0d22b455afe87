import Mathlib
import Tetra.DeerRequest

/-!
Accounts that are opened by signed requests. Each gets an address and an initial grant,
and is known by the text that the request gave for its key.
-/
namespace Tetra.Deer
open Std

/-- What a call finds when it gets to the wallet: whether that is locked, what paying
    comes to, and the keys that the pool gives. -/
structure Service extends Arrival where
  IsLocked : Bool := false
  GetBalance : Cash
  nTransactionFee : Fees := {}
  SendMoney : CScript → Cash → String := fun _ _ => ""
  /-- The transactions of the wallet after a payment. -/
  sent : ExtTreeMap uint256 AccountTx := ∅
  /-- `GetKeyFromPool` -/
  newKey : Option Nat
  /-- The key that takes the place of the default key, when a payment used that. -/
  newDefaultKey : Option Nat := none

/-- The keys that a call could get. -/
def Service.keys (o : Service) : List Nat := o.newKey.toList ++ o.newDefaultKey.toList

/-- An account that was opened, by the text and the key of the request, and whether its
    grant was paid. -/
structure Opened where
  text : Text
  pbk : CPubKey
  granted : Bool
deriving DecidableEq

/-- `SetAddressBookName` for a key of the wallet -/
def label (wallet : AccountWallet) (keyID : Nat) (strName : AccountName) : AccountWallet where
  mapWallet := wallet.mapWallet
  mapAddressBook := wallet.mapAddressBook.insert (.CKeyID keyID) strName
  acentries := wallet.acentries
  IsMineScript := wallet.IsMineScript
  IsMineAddress := fun address => decide (address = .CKeyID keyID) || wallet.IsMineAddress address
  ExtractDestination := wallet.ExtractDestination

def thrown {α : Type} (e : RpcError) : Except Reject α := .error (.throws e.message)

def getnewaddress (o : Service) (wallet : AccountWallet) (account : Text) : Except Reject (Nat × AccountWallet) :=
  match AccountFromValue account with
  | .error e => thrown e
  | .ok strAccount =>
    match o.newKey with
    | none => .error (.throws "Error: Keypool ran out, please call keypoolrefill first")
    | some keyID => .ok (keyID,label wallet keyID strAccount)

/-- "cashreserve" -/
def cashreserve : Text := [0x63,0x61,0x73,0x68,0x72,0x65,0x73,0x65,0x72,0x76,0x65]

section
variable {Address : Type} [DecidableEq Address]

/-- The rules, with the text of a key's address. -/
structure WalletRules (Address : Type) extends DeerRules Address where
  /-- `CBitcoinAddress(keyID).ToString()` -/
  KeyAddress : Nat → Text

/-- `sendfrom` with three parameters, and the wallet after the payment. -/
def pay (rules : WalletRules Address) (o : Service) (wallet : AccountWallet) (account destination : Text) (amount : JsonAmount) :
    Except Reject AccountWallet :=
  let rpc (nBalance : Cash) : Rpc Address :=
    {rules.toAddresses with
      IsLocked := o.IsLocked
      GetAccountBalance := fun _ _ => nBalance
      GetBalance := o.GetBalance
      nTransactionFee := o.nTransactionFee
      SendMoney := o.SendMoney}
  match (rpc {}).sendfromParams account destination amount with
  | .error e => thrown e
  | .ok _ =>
    match wallet.GetAccountBalance account 1 with
    | .error e => .error e
    | .ok nBalance =>
      match (rpc nBalance).sendfrom account destination amount 1 with
      | .error e => thrown e
      | .ok () =>
        let wallet := {wallet with mapWallet := o.sent}
        .ok (match o.newDefaultKey with | some keyID => label wallet keyID [] | none => wallet)

/-- The answer is the new address, after everything that the wallet did. -/
def CreateAccount (rules : WalletRules Address) (o : Service) (wallet : AccountWallet) (r : KeyRequest) :
    Except Reject Text × AccountWallet × Option Opened :=
  match authorise rules.toDeerRules o.toArrival wallet (.CreateAccount r) with
  | .error e => (.error e,wallet,none)
  | .ok pbk =>
    match getnewaddress o wallet r.pbk with
    | .error e => (.error e,wallet,none)
    | .ok (keyID,wallet) =>
      match pay rules o wallet cashreserve (rules.KeyAddress keyID) (Cash.ofMoney (EUR,10000*100)).ToJSON with
      | .error e => (.error e,wallet,some ⟨r.pbk,pbk,false⟩)
      | .ok wallet => (.ok (rules.KeyAddress keyID),wallet,some ⟨r.pbk,pbk,true⟩)

/-- The amount is an integer that becomes a double. -/
def CreateTransaction (rules : WalletRules Address) (o : Service) (wallet : AccountWallet) (r : KeyRequest) (address circuit : Text)
    (amount : Int64) : Except Reject AccountWallet :=
  match authorise rules.toDeerRules o.toArrival wallet (.CreateTransaction r address circuit amount) with
  | .error e => .error e
  | .ok _ => pay rules o wallet r.pbk address [(circuit,Double.round amount.toInt)]

/-- What a call leaves behind. The other two only read. -/
def act (rules : WalletRules Address) (o : Service) (wallet : AccountWallet) : DeerCall → AccountWallet × Option Opened
  | .CreateAccount r => (CreateAccount rules o wallet r).2
  | .CreateTransaction r address circuit amount =>
    match CreateTransaction rules o wallet r address circuit amount with
    | .error _ => (wallet,none)
    | .ok wallet => (wallet,none)
  | .GetBalance _ | .ListTransactions _ => (wallet,none)

/-- A run, with the accounts opened so far, the latest first. -/
def run (rules : WalletRules Address) (wallet : AccountWallet) (log : List Opened) : List (Service × DeerCall) → AccountWallet × List Opened
  | [] => (wallet,log)
  | (o,call) :: events =>
    let (wallet,opened) := act rules o wallet call
    run rules wallet (opened.toList ++ log) events

/-- How many accounts a key has, and how many grants. -/
def accountsOf (pbk : CPubKey) (log : List Opened) : Nat := log.countP fun opened => opened.pbk == pbk
def grantsOf (pbk : CPubKey) (log : List Opened) : Nat := log.countP fun opened => opened.pbk == pbk && opened.granted

/-! ### What a call keeps -/

/-- Names stay, and only the keys of the call get new ones. -/
structure Keeps (o : Service) (wallet wallet' : AccountWallet) : Prop where
  names : ∀ name ∈ wallet.ownAccounts, name ∈ wallet'.ownAccounts
  book : ∀ keyID, CTxDestination.CKeyID keyID ∈ wallet'.mapAddressBook → CTxDestination.CKeyID keyID ∈ wallet.mapAddressBook ∨ keyID ∈ o.keys

/-- The keys of a call are new to the wallet. -/
def New (o : Service) (wallet : AccountWallet) : Prop := o.keys.Nodup ∧ ∀ keyID ∈ o.keys, CTxDestination.CKeyID keyID ∉ wallet.mapAddressBook

theorem label_names {wallet : AccountWallet} {keyID : Nat} (unused : CTxDestination.CKeyID keyID ∉ wallet.mapAddressBook) (strName : AccountName) :
    strName ∈ (label wallet keyID strName).ownAccounts ∧ ∀ name ∈ wallet.ownAccounts, name ∈ (label wallet keyID strName).ownAccounts := by
  constructor
  · rw [mem_ownAccounts_iff]
    exact ⟨.CKeyID keyID,by simp [label],by simp [label]⟩
  · intro name own
    obtain ⟨address,found,mine⟩ := (mem_ownAccounts_iff ..).mp own
    rw [mem_ownAccounts_iff]
    have other : CTxDestination.CKeyID keyID ≠ address := by
      rintro rfl
      exact unused (ExtTreeMap.mem_iff_isSome_getElem?.mpr (by simp [found]))
    refine ⟨address,?_,?_⟩
    · rw [label,ExtTreeMap.getElem?_insert,if_neg fun same => other (LawfulEqCmp.eq_of_compare same)]
      exact found
    · simp [label,mine]

theorem label_book {wallet : AccountWallet} {keyID : Nat} {strName : AccountName} {other : Nat}
    (named : CTxDestination.CKeyID other ∈ (label wallet keyID strName).mapAddressBook) :
    CTxDestination.CKeyID other ∈ wallet.mapAddressBook ∨ other = keyID := by
  rcases ExtTreeMap.mem_insert.mp named with same | before
  · exact .inr (CTxDestination.CKeyID.inj (LawfulEqCmp.eq_of_compare same)).symm
  · exact .inl before

theorem keeps_refl (o : Service) (wallet : AccountWallet) : Keeps o wallet wallet := ⟨fun _ own => own,fun _ named => .inl named⟩

section
set_option linter.unusedSectionVars false
variable {rules : WalletRules Address} {o : Service} {wallet wallet' : AccountWallet}

theorem keeps_label {keyID : Nat} (given : keyID ∈ o.keys) (unused : CTxDestination.CKeyID keyID ∉ wallet.mapAddressBook)
    (strName : AccountName) : Keeps o wallet (label wallet keyID strName) := by
  refine ⟨(label_names unused strName).2,fun other named => ?_⟩
  rcases label_book named with before | rfl
  · exact .inl before
  · exact .inr given

theorem pay_keeps {account destination : Text} {amount : JsonAmount}
    (unused : ∀ keyID ∈ o.newDefaultKey, CTxDestination.CKeyID keyID ∉ wallet.mapAddressBook)
    (paid : pay rules o wallet account destination amount = .ok wallet') : Keeps o wallet wallet' := by
  unfold pay at paid
  dsimp only at paid
  split at paid
  · contradiction
  split at paid
  · contradiction
  split at paid
  · contradiction
  obtain rfl := Except.ok.inj paid
  -- The transactions of the wallet do not name its accounts.
  split
  next keyID given =>
    have unnamed := unused keyID given
    obtain ⟨_,names⟩ := @label_names {wallet with mapWallet := o.sent} keyID unnamed []
    refine ⟨names,fun other named => ?_⟩
    rcases label_book named with before | rfl
    · exact .inl before
    · exact .inr (by simp [Service.keys,given])
  · exact ⟨fun _ own => own,fun _ named => .inl named⟩

theorem Keeps.trans {middle : AccountWallet} (first : Keeps o wallet middle) (second : Keeps o middle wallet') : Keeps o wallet wallet' := by
  refine ⟨fun name own => second.names name (first.names name own),fun keyID named => ?_⟩
  rcases second.book keyID named with before | given
  · exact first.book keyID before
  · exact .inr given

theorem getnewaddress_ok {account : Text} {keyID : Nat} (gives : getnewaddress o wallet account = .ok (keyID,wallet')) :
    o.newKey = some keyID ∧ wallet' = label wallet keyID account := by
  unfold getnewaddress at gives
  split at gives
  · contradiction
  next strAccount named =>
    split at gives
    · contradiction
    next key given =>
      obtain ⟨rfl,rfl⟩ := Prod.mk.inj (Except.ok.inj gives)
      have same : strAccount = account := by
        unfold AccountFromValue at named
        split at named
        · contradiction
        · exact (Except.ok.inj named).symm
      exact ⟨given,by rw [same]⟩

omit [DecidableEq Address] in
theorem authorise_ok {m : Arrival} {call : DeerCall} {pbk : CPubKey} {rules : DeerRules Address}
    (authorised : authorise rules m wallet call = .ok pbk) : checks rules m wallet call = .ok pbk := by
  unfold authorise at authorised
  split at authorised
  · contradiction
  next key passes =>
    split at authorised
    · contradiction
    · rw [passes,Except.ok.inj authorised]

/-- A request that is not registered names no account of the wallet's own. -/
theorem unregistered {m : Arrival} {r : KeyRequest} {pbk : CPubKey} (passes : checkRequest m wallet r false = .ok pbk) :
    r.pbk ∉ wallet.ownAccounts := by
  unfold checkRequest at passes
  dsimp only at passes
  split at passes
  · contradiction
  split at passes
  · contradiction
  split at passes
  · contradiction
  next alist lists =>
    rw [if_neg Bool.false_ne_true] at passes
    split at passes
    · contradiction
    next absent => exact fun own => absent (mem_listaccounts lists own)

/-- What it takes to open an account, and what is there then. -/
structure Opens (o : Service) (wallet wallet' : AccountWallet) (opened : Opened) : Prop where
  key : opened.pbk = HexToPbk o.keyMemory opened.text
  valid : opened.pbk ≠ []
  fresh : opened.text ∉ wallet.ownAccounts
  named : opened.text ∈ wallet'.ownAccounts

theorem CreateAccount_cases (new : New o wallet) (r : KeyRequest) :
    Keeps o wallet (CreateAccount rules o wallet r).2.1 ∧
    ∀ opened, (CreateAccount rules o wallet r).2.2 = some opened →
      opened.text = r.pbk ∧ Opens o wallet (CreateAccount rules o wallet r).2.1 opened := by
  unfold CreateAccount
  split
  · exact ⟨keeps_refl o wallet,nofun⟩
  next pbk authorised =>
    have passes : checkRequest o.toArrival wallet r false = .ok pbk := authorise_ok authorised
    obtain ⟨_,key,valid⟩ := checkRequest_ok passes
    split
    · exact ⟨keeps_refl o wallet,nofun⟩
    next keyID middle gives =>
      obtain ⟨given,rfl⟩ := getnewaddress_ok gives
      have member : keyID ∈ o.keys := by simp [Service.keys,given]
      have unused := new.2 keyID member
      have labelled := keeps_label member unused r.pbk
      obtain ⟨named,_⟩ := label_names unused r.pbk
      split
      · refine ⟨labelled,fun opened same => ?_⟩
        obtain rfl := Option.some.inj same
        exact ⟨rfl,key,valid,unregistered passes,named⟩
      next last paid =>
        have unusedDefault : ∀ other ∈ o.newDefaultKey, CTxDestination.CKeyID other ∉ (label wallet keyID r.pbk).mapAddressBook := by
          intro other default book
          have member' : other ∈ o.keys := by simp [Service.keys,Option.mem_def.mp default]
          rcases label_book book with before | rfl
          · exact new.2 other member' before
          · have twice := new.1
            simp [Service.keys,given,Option.mem_def.mp default] at twice
        have paidKeeps := pay_keeps unusedDefault paid
        refine ⟨labelled.trans paidKeeps,fun opened same => ?_⟩
        obtain rfl := Option.some.inj same
        exact ⟨rfl,key,valid,unregistered passes,paidKeeps.names _ named⟩

theorem act_cases (new : New o wallet) (call : DeerCall) :
    Keeps o wallet (act rules o wallet call).1 ∧
    ∀ opened, (act rules o wallet call).2 = some opened →
      (∃ r, call = .CreateAccount r ∧ opened.text = r.pbk) ∧ Opens o wallet (act rules o wallet call).1 opened := by
  cases call with
  | CreateAccount r =>
    obtain ⟨keeps,opens⟩ := @CreateAccount_cases Address _ rules o wallet new r
    refine ⟨keeps,fun opened same => ?_⟩
    obtain ⟨text,opens⟩ := opens opened same
    exact ⟨⟨r,rfl,text⟩,opens⟩
  | GetBalance r => exact ⟨keeps_refl o wallet,nofun⟩
  | ListTransactions r => exact ⟨keeps_refl o wallet,nofun⟩
  | CreateTransaction r address circuit amount =>
    have unused : ∀ keyID ∈ o.newDefaultKey, CTxDestination.CKeyID keyID ∉ wallet.mapAddressBook := by
      intro keyID default
      exact new.2 keyID (by simp [Service.keys,Option.mem_def.mp default])
    simp only [act]
    split
    · exact ⟨keeps_refl o wallet,nofun⟩
    next last created =>
      refine ⟨?_,nofun⟩
      unfold CreateTransaction at created
      split at created
      · contradiction
      · exact pay_keeps unused created

end

/-! ### Runs -/

/-- The keys that the pool gives in a run. -/
def given (events : List (Service × DeerCall)) : List Nat := events.flatMap fun event => event.1.keys

/-- No two requests for an account write one key in two ways. -/
def OneText (events : List (Service × DeerCall)) : Prop :=
  ∀ o r o' r', (o,.CreateAccount r) ∈ events → (o',.CreateAccount r') ∈ events → HexToPbk o.keyMemory r.pbk ≠ [] →
    HexToPbk o.keyMemory r.pbk = HexToPbk o'.keyMemory r'.pbk → r.pbk = r'.pbk

/-- The accounts opened so far are all different, are still there, and were asked for. -/
structure Known (events : List (Service × DeerCall)) (wallet : AccountWallet) (log : List Opened) : Prop where
  distinct : (log.map Opened.pbk).Nodup
  named : ∀ opened ∈ log, opened.text ∈ wallet.ownAccounts
  asked : ∀ opened ∈ log, ∃ o r, (o,DeerCall.CreateAccount r) ∈ events ∧ opened.text = r.pbk ∧ opened.pbk = HexToPbk o.keyMemory r.pbk

theorem Known.act {events : List (Service × DeerCall)} {rules : WalletRules Address} {wallet : AccountWallet} {log : List Opened}
    (known : Known events wallet log) (oneText : OneText events) {o : Service} {call : DeerCall} (member : (o,call) ∈ events)
    (new : New o wallet) : Known events (act rules o wallet call).1 ((act rules o wallet call).2.toList ++ log) := by
  obtain ⟨keeps,opens⟩ := @act_cases Address _ rules o wallet new call
  cases result : (Deer.act rules o wallet call).2 with
  | none => exact ⟨known.distinct,fun opened old => keeps.names _ (known.named opened old),known.asked⟩
  | some opened =>
    obtain ⟨⟨r,rfl,text⟩,key,valid,fresh,named⟩ := opens opened result
    refine ⟨?_,?_,?_⟩
    · refine List.nodup_cons.mpr ⟨fun again => ?_,known.distinct⟩
      -- An account of the same key would have the same name, and that one is free.
      obtain ⟨old,inLog,same⟩ := List.mem_map.mp again
      obtain ⟨o',r',asked,text',key'⟩ := known.asked old inLog
      rw [text] at key
      have spelling : r.pbk = r'.pbk := oneText o r o' r' member asked (key ▸ valid) (key.symm.trans (same.symm.trans key'))
      rw [text,spelling,← text'] at fresh
      exact fresh (known.named old inLog)
    · intro other inLog
      rcases List.mem_cons.mp inLog with rfl | old
      · exact named
      · exact keeps.names _ (known.named other old)
    · intro other inLog
      rcases List.mem_cons.mp inLog with rfl | old
      · exact ⟨o,r,member,text,text ▸ key⟩
      · exact known.asked other old

theorem Known.run {all events : List (Service × DeerCall)} {rules : WalletRules Address} {wallet : AccountWallet} {log : List Opened}
    (known : Known all wallet log) (oneText : OneText all) (part : ∀ event ∈ events, event ∈ all) (once : (given events).Nodup)
    (unused : ∀ keyID ∈ given events, CTxDestination.CKeyID keyID ∉ wallet.mapAddressBook) :
    Known all (run rules wallet log events).1 (run rules wallet log events).2 := by
  induction events generalizing wallet log with
  | nil => exact known
  | cons event events ih =>
    obtain ⟨o,call⟩ := event
    rw [given,List.flatMap_cons,List.nodup_append] at once
    obtain ⟨nodup,later,apart⟩ := once
    have new : New o wallet := by
      refine ⟨nodup,fun keyID mine => unused keyID ?_⟩
      rw [given,List.flatMap_cons]
      exact List.mem_append_left _ mine
    obtain ⟨keeps,_⟩ := @act_cases Address _ rules o wallet new call
    apply ih (known.act oneText (part _ (List.mem_cons_self ..)) new)
    · exact fun event member => part event (List.mem_cons_of_mem _ member)
    · exact later
    · intro keyID mine book
      rcases keeps.book keyID book with before | taken
      · refine unused keyID ?_ before
        rw [given,List.flatMap_cons]
        exact List.mem_append_right _ mine
      · exact apart keyID taken keyID mine rfl

theorem countP_le_one_of_nodup {log : List Opened} (distinct : (log.map Opened.pbk).Nodup) (pbk : CPubKey) : accountsOf pbk log ≤ 1 := by
  have counted : accountsOf pbk log = (log.map Opened.pbk).count pbk := by
    rw [accountsOf,List.count,List.countP_map]
    rfl
  rw [counted]
  exact List.nodup_iff_count_le_one.mp distinct pbk

/-- As long as every request writes a key the same way, and the pool gives each key once,
    a key gets one account at most, and one grant. -/
theorem one_account_per_key (rules : WalletRules Address) {wallet : AccountWallet} {events : List (Service × DeerCall)}
    (once : (given events).Nodup) (unused : ∀ keyID ∈ given events, CTxDestination.CKeyID keyID ∉ wallet.mapAddressBook)
    (oneText : OneText events) (pbk : CPubKey) :
    accountsOf pbk (run rules wallet [] events).2 ≤ 1 ∧ grantsOf pbk (run rules wallet [] events).2 ≤ 1 := by
  have start : Known events wallet [] := ⟨List.nodup_nil,by simp,by simp⟩
  have known := @Known.run Address _ events events rules wallet [] start oneText (fun _ member => member) once unused
  have single := countP_le_one_of_nodup known.distinct pbk
  have granted : grantsOf pbk (run rules wallet [] events).2 ≤ accountsOf pbk (run rules wallet [] events).2 :=
    List.countP_mono_left fun opened _ both => (Bool.and_eq_true_iff.mp both).1
  exact ⟨single,Nat.le_trans granted single⟩

end

/-! ### Two spellings -/

def shopRules : WalletRules Nat where
  decode := fun text => some text.length
  SetDestination := fun _ => []
  Hash := List.length
  Verify := fun _ _ _ => true
  KeyAddress := fun keyID => List.replicate keyID 0x74

def reserveWallet : AccountWallet where
  mapWallet := ∅
  acentries := [⟨cashreserve,Cash.ofMoney (EUR,5000000)⟩]
  IsMineScript := fun _ => false
  IsMineAddress := fun _ => false
  ExtractDestination := fun _ => none

private def lowerCase : Text := 0x30 :: 0x32 :: List.replicate 64 0x61
private def upperCase : Text := 0x30 :: 0x32 :: List.replicate 64 0x41

private def opening (text : Text) (keyID : Nat) : Service × DeerCall :=
  ({GetAdjustedTime := 1400000000,GetBalance := Cash.ofMoney (EUR,5000000),newKey := some keyID},.CreateAccount ⟨text,1400000000,[],[]⟩)

/-- The same key in small and in large letters. -/
theorem two_accounts_per_key :
    accountsOf (2 :: List.replicate 32 0xAA) (run shopRules reserveWallet [] [opening lowerCase 1,opening upperCase 2]).2 = 2 ∧
    grantsOf (2 :: List.replicate 32 0xAA) (run shopRules reserveWallet [] [opening lowerCase 1,opening upperCase 2]).2 = 2 ∧
    HexToPbk (fun _ => 0) lowerCase = HexToPbk (fun _ => 0) upperCase := by
  refine ⟨?_,?_,?_⟩ <;> decide +kernel

theorem one_account_per_key_sample :
    accountsOf (2 :: List.replicate 32 0xAA) (run shopRules reserveWallet [] [opening lowerCase 1,opening lowerCase 2]).2 ≤ 1 ∧
    grantsOf (2 :: List.replicate 32 0xAA) (run shopRules reserveWallet [] [opening lowerCase 1,opening lowerCase 2]).2 ≤ 1 := by
  have oneText : OneText [opening lowerCase 1,opening lowerCase 2] := by
    intro o r o' r' first second _ _
    have text : ∀ o r, (o,DeerCall.CreateAccount r) ∈ [opening lowerCase 1,opening lowerCase 2] → r.pbk = lowerCase := by
      intro o r member
      simp only [opening,List.mem_cons,Prod.mk.injEq,DeerCall.CreateAccount.injEq,List.not_mem_nil,or_false] at member
      rcases member with ⟨_,rfl⟩ | ⟨_,rfl⟩ <;> rfl
    rw [text o r first,text o' r' second]
  exact one_account_per_key shopRules (by decide) (fun keyID _ => by simp [reserveWallet]) oneText _

end Tetra.Deer
