import Mathlib
import Tetra.CashLaws
import Tetra.Transaction
import Tetra.Wallet

/-!
What the wallet says about its accounts: the amounts a transaction sent and received,
the balance of one account, of all accounts in a map, and of the wallet as a whole.
-/
namespace Tetra
open Std

abbrev AccountName := List UInt8

inductive CTxDestination
  | CNoDestination
  | CKeyID (id : Nat)
  | CScriptID (id : Nat)
deriving DecidableEq

namespace CTxDestination

def which : CTxDestination → Nat
  | CNoDestination => 0
  | CKeyID _ => 1
  | CScriptID _ => 2

def id : CTxDestination → Nat
  | CNoDestination => 0
  | CKeyID id => id
  | CScriptID id => id

end CTxDestination

instance destinationOrd : Ord CTxDestination := ⟨compareLex (compareOn CTxDestination.which) (compareOn CTxDestination.id)⟩
instance destinationTransOrd : TransOrd CTxDestination :=
  inferInstanceAs (TransCmp (compareLex (compareOn CTxDestination.which) (compareOn CTxDestination.id)))
instance destinationLawfulEqOrd : LawfulEqOrd CTxDestination where
  eq_of_compare {a b} same := by
    have both : compare a.which b.which = .eq ∧ compare a.id b.id = .eq := by
      simpa [compare,compareLex,compareOn,Ordering.then_eq_eq] using same
    rw [Std.compare_eq_iff_eq,Std.compare_eq_iff_eq] at both
    cases a <;> cases b <;> simp_all [CTxDestination.which,CTxDestination.id]

/-- A wallet transaction with its inputs, the account it was sent from, and the debit
    once that was computed. Values are read from disk or made by the wallet, without a
    circuit-free part; `IsConfirmed` begins with `IsFinal`. -/
structure AccountTx extends CWalletTx where
  vin : List CTxIn := []
  strFromAccount : AccountName := []
  nDebitCached : Option Cash := none
  plain : ∀ out ∈ vout, out.nValue.fixed = 0
  confirmedFinal : IsConfirmed = true → IsFinal = true

structure CAccountingEntry where
  strAccount : AccountName
  nCreditDebit : Cash

/-- The wallet, its address book, and the accounting entries of its database. -/
structure AccountWallet where
  mapWallet : ExtTreeMap uint256 AccountTx
  mapAddressBook : ExtTreeMap CTxDestination AccountName := ∅
  acentries : List CAccountingEntry := []
  /-- `::IsMine(*this, scriptPubKey)` -/
  IsMineScript : CScript → Bool
  /-- `::IsMine(*this, dest)` -/
  IsMineAddress : CTxDestination → Bool
  ExtractDestination : CScript → Option CTxDestination

/-- What `GetAmounts` gives back. -/
structure Amounts where
  listReceived : List (CTxDestination × Cash) := []
  listSent : List (CTxDestination × Cash) := []
  nFee : Fees := {}
  strSentAccount : AccountName := []

/-- `x != 0`: the integer is not looked at. -/
def Cash.neAmount (x : Cash) (_ : Amount) : Bool := !x.eq {}

namespace AccountWallet

def IsMine (wallet : AccountWallet) (txout : CTxOut) : Bool := wallet.IsMineScript txout.scriptPubKey

def IsChange (wallet : AccountWallet) (txout : CTxOut) : Bool :=
  match wallet.ExtractDestination txout.scriptPubKey with
  | none => false
  | some address => wallet.IsMineAddress address && !wallet.mapAddressBook.contains address

/-- `GetDebit` of one input. -/
def GetDebitIn (wallet : AccountWallet) (txin : CTxIn) : Cash :=
  match wallet.mapWallet[txin.prevout.hash]? with
  | none => Cash.ofAmount 0
  | some prev =>
    match prev.vout[txin.prevout.n]? with
    | none => Cash.ofAmount 0
    | some out => if wallet.IsMine out then out.nValue else Cash.ofAmount 0

def sumDebit (wallet : AccountWallet) (nDebit : Cash) : List CTxIn → Except Reject Cash
  | [] => .ok nDebit
  | txin :: rest =>
    let nDebit := nDebit.addAssign (wallet.GetDebitIn txin)
    if MoneyRange nDebit = false then .error (.throws "CWallet::GetDebit() : value out of range")
    else sumDebit wallet nDebit rest

def GetDebit (wallet : AccountWallet) (wtx : AccountTx) : Except Reject Cash :=
  if wtx.vin.isEmpty then .ok (Cash.ofAmount 0)
  else
    match wtx.nDebitCached with
    | some nDebit => .ok nDebit
    | none => wallet.sumDebit {} wtx.vin

/-- The address of an output, as `GetAmounts` lists it. -/
def addressOf (wallet : AccountWallet) (txout : CTxOut) : CTxDestination :=
  (wallet.ExtractDestination txout.scriptPubKey).getD .CNoDestination

def GetAmounts (wallet : AccountWallet) (wtx : AccountTx) : Except Reject Amounts :=
  match wallet.GetDebit wtx with
  | .error e => .error e
  | .ok nDebit =>
    let entry (txout : CTxOut) := (wallet.addressOf txout,txout.nValue)
    if nDebit.gtAmount 0 then
      match CTransaction.sumOut {} wtx.vout with
      | .error e => .error e
      | .ok nValueOut => .ok {
        listReceived := (wtx.vout.filter fun txout => !wallet.IsChange txout && wallet.IsMine txout).map entry
        listSent := (wtx.vout.filter fun txout => !wallet.IsChange txout).map entry
        nFee := nDebit.sub nValueOut
        strSentAccount := wtx.strFromAccount}
    else .ok {
      listReceived := (wtx.vout.filter wallet.IsMine).map entry
      strSentAccount := wtx.strFromAccount}

/-- Whether `GetAccountAmounts` counts what an address received for an account. -/
def countsFor (wallet : AccountWallet) (strAccount : AccountName) (address : CTxDestination) : Bool :=
  match wallet.mapAddressBook[address]? with
  | some account => account == strAccount
  | none => strAccount.isEmpty

/-- `GetAccountAmounts`: the received and sent totals and the fee. The chained assignment
    of 0 to all three hands on what each assignment returns, and the last one assigns `true`. -/
def GetAccountAmounts (wallet : AccountWallet) (strAccount : AccountName) (amounts : Amounts) : Cash × Cash × Fees :=
  let nFee : Fees := {}
  let nSent := Cash.assignAmount 0
  let nReceived := Cash.assignAmount 1
  let sent := if strAccount = amounts.strSentAccount then
    (amounts.listSent.foldl (fun nSent s => nSent.addAssign s.2) nSent,amounts.nFee) else (nSent,nFee)
  let nReceived := amounts.listReceived.foldl (fun nReceived r =>
    if wallet.countsFor strAccount r.1 then nReceived.addAssign r.2 else nReceived) nReceived
  (nReceived,sent)

/-- What one final transaction does to the balance of an account. -/
def tally (wallet : AccountWallet) (strAccount : AccountName) (nMinDepth : Int) (wtx : AccountTx) (amounts : Amounts) (nBalance : Cash) : Cash :=
  let (nReceived,nSent,nFee) := wallet.GetAccountAmounts strAccount amounts
  let nBalance := if nReceived.neAmount 0 ∧ wtx.GetDepthInMainChain ≥ nMinDepth then nBalance.addAssign nReceived else nBalance
  nBalance.subAssign (nSent.addFees nFee)

/-- The entries of one account, or all of them. -/
def ListAccountCreditDebit (wallet : AccountWallet) (strAccount : AccountName) : List CAccountingEntry :=
  if strAccount = [0x2A] then wallet.acentries else wallet.acentries.filter fun entry => entry.strAccount == strAccount

def GetAccountCreditDebit (wallet : AccountWallet) (strAccount : AccountName) : Cash :=
  (wallet.ListAccountCreditDebit strAccount).foldl (fun nCreditDebit entry => nCreditDebit.addAssign entry.nCreditDebit) {}

/-- Every transaction of the wallet in turn; an exception ends the loop. -/
def traverse {σ : Type} (wallet : AccountWallet) (skip : AccountTx → Bool) (visit : AccountTx → Amounts → σ → σ) :
    List AccountTx → σ → Except Reject σ
  | [], s => .ok s
  | wtx :: rest, s =>
    if skip wtx then traverse wallet skip visit rest s
    else
      match wallet.GetAmounts wtx with
      | .error e => .error e
      | .ok amounts => traverse wallet skip visit rest (visit wtx amounts s)

/-- The transactions in the order of `mapWallet`. -/
def txs (wallet : AccountWallet) : List AccountTx := wallet.mapWallet.toList.map Prod.snd

def GetAccountBalance (wallet : AccountWallet) (strAccount : AccountName) (nMinDepth : Int) : Except Reject Cash :=
  match wallet.traverse (fun wtx => !wtx.IsFinal) (wallet.tally strAccount nMinDepth) wallet.txs {} with
  | .error e => .error e
  | .ok nBalance => .ok (nBalance.addAssign (wallet.GetAccountCreditDebit strAccount))

/-- What one confirmed transaction does to the balance that `getbalance "*"` adds up. -/
def tallyAll (nMinDepth : Int) (wtx : AccountTx) (amounts : Amounts) (nBalance : Cash) : Cash :=
  let nBalance := if wtx.GetDepthInMainChain ≥ nMinDepth then
    amounts.listReceived.foldl (fun nBalance r => nBalance.addAssign r.2) nBalance else nBalance
  let nBalance := amounts.listSent.foldl (fun nBalance s => nBalance.subAssign s.2) nBalance
  nBalance.subFees amounts.nFee

/-- `getbalance "*"` -/
def getbalanceAll (wallet : AccountWallet) (nMinDepth : Int) : Except Reject Cash :=
  wallet.traverse (fun wtx => !wtx.IsConfirmed) (tallyAll nMinDepth) wallet.txs {}

abbrev Balances := ExtTreeMap AccountName Cash

/-- `mapAccountBalances[strAccount] = f(mapAccountBalances[strAccount])` -/
def update (balances : Balances) (strAccount : AccountName) (f : Cash → Cash) : Balances :=
  balances.insert strAccount (f (balances[strAccount]?.getD {}))

/-- The account that `listaccounts` adds a received output to. -/
def accountOf (wallet : AccountWallet) (address : CTxDestination) : AccountName := (wallet.mapAddressBook[address]?).getD []

/-- What one transaction does to the map of `listaccounts`. -/
def tallyMap (wallet : AccountWallet) (nMinDepth : Int) (wtx : AccountTx) (amounts : Amounts) (balances : Balances) : Balances :=
  let balances := update balances amounts.strSentAccount fun balance => balance.subFees amounts.nFee
  let balances := amounts.listSent.foldl (fun balances s => update balances amounts.strSentAccount fun balance => balance.subAssign s.2) balances
  if wtx.GetDepthInMainChain ≥ nMinDepth then
    amounts.listReceived.foldl (fun balances r => update balances (wallet.accountOf r.1) fun balance => balance.addAssign r.2) balances
  else balances

/-- The accounts of the wallet's own addresses, all at 0. -/
def ownAccounts (wallet : AccountWallet) : Balances :=
  wallet.mapAddressBook.toList.foldl (fun balances entry =>
    if wallet.IsMineAddress entry.1 then balances.insert entry.2 (Cash.assignAmount 0) else balances) ∅

/-- `listaccounts`, before the values are made JSON. -/
def listaccounts (wallet : AccountWallet) (nMinDepth : Int) : Except Reject Balances :=
  match wallet.traverse (fun _ => false) (wallet.tallyMap nMinDepth) wallet.txs wallet.ownAccounts with
  | .error e => .error e
  | .ok balances =>
    .ok ((wallet.ListAccountCreditDebit [0x2A]).foldl (fun balances entry =>
      update balances entry.strAccount fun balance => balance.addAssign entry.nCreditDebit) balances)

end AccountWallet
end Tetra
