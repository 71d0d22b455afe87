import Mathlib
import Tetra.Accounts
import Tetra.Multimap
import Tetra.SendMany

/-!
The history of the wallet: its transactions and accounting entries gathered in a multimap
keyed by their position, and the call that lists the last of them. The key is a `Cash`,
which keeps nothing of the position it is made from.
-/
namespace Tetra
open Std (ExtTreeMap)

/-- The pair of pointers to a transaction and to an accounting entry, one of which is null;
    a transaction is named by its key in `mapWallet`. -/
inductive TxPair (τ ε : Type)
  | tx (hash : uint256) (wtx : τ)
  | entry (acentry : ε)

namespace TxPair

def value {τ ε α : Type} (ofTx : τ → α) (ofEntry : ε → α) : TxPair τ ε → α
  | tx _ wtx => ofTx wtx
  | entry acentry => ofEntry acentry

end TxPair

abbrev TxItems (τ ε : Type) := List (Cash × TxPair τ ε)

namespace TxItems
variable {τ ε : Type}

/-- `make_pair(key, TxPair(…))`: the integer becomes a `Cash`. -/
def make (key : Int) (pair : TxPair τ ε) : Cash × TxPair τ ε := (Cash.ofAmount (Int64.ofInt key),pair)

/-- The transactions in the order of `mapWallet`, then the entries in the order they were read. -/
def inTurn (txs : List (uint256 × τ)) (acentries : List ε) : List (TxPair τ ε) :=
  txs.map (fun tx => .tx tx.1 tx.2) ++ acentries.map .entry

/-- The multimap filled with the transactions and then with the entries. -/
def fill (txKey : τ → Int) (entryKey : ε → Int) (txs : List (uint256 × τ)) (acentries : List ε) : TxItems τ ε :=
  let txOrdered := Multimap.insertAll Cash.lt (txs.map fun tx => make (txKey tx.2) (.tx tx.1 tx.2)) []
  Multimap.insertAll Cash.lt (acentries.map fun acentry => make (entryKey acentry) (.entry acentry)) txOrdered

theorem ofAmount_lt (x y : Amount) : (Cash.ofAmount x).lt (Cash.ofAmount y) = false := by
  simp [Cash.ofAmount,Cash.lt]

/-- No key is less than another, so the order is that of the insertions. -/
theorem fill_values (txKey : τ → Int) (entryKey : ε → Int) (txs : List (uint256 × τ)) (acentries : List ε) :
    (fill txKey entryKey txs acentries).map Prod.snd = inTurn txs acentries := by
  have keyed : ∀ e ∈ txs.map (fun tx => make (txKey tx.2) (.tx tx.1 tx.2)) ++
      acentries.map (fun acentry => make (entryKey acentry) (.entry acentry)), ∃ key, e.1 = Cash.ofAmount key := by
    intro e member
    rcases List.mem_append.mp member with member | member
    · obtain ⟨tx,-,rfl⟩ := List.mem_map.mp member
      exact ⟨Int64.ofInt (txKey tx.2),rfl⟩
    · obtain ⟨acentry,-,rfl⟩ := List.mem_map.mp member
      exact ⟨Int64.ofInt (entryKey acentry),rfl⟩
  have first : Multimap.insertAll Cash.lt (txs.map fun tx => make (txKey tx.2) (.tx tx.1 tx.2)) ([] : TxItems τ ε) =
      txs.map fun tx => make (txKey tx.2) (.tx tx.1 tx.2) := by
    refine Multimap.insertAll_append fun e member y placed => ?_
    obtain ⟨x,left⟩ := keyed e (List.mem_append_left _ member)
    obtain ⟨z,right⟩ := keyed y (List.mem_append_left _ placed)
    rw [left,right,ofAmount_lt]
  have second : Multimap.insertAll Cash.lt (acentries.map fun acentry => make (entryKey acentry) (.entry acentry))
      (txs.map fun tx => make (txKey tx.2) (.tx tx.1 tx.2)) =
      (txs.map fun tx => make (txKey tx.2) (.tx tx.1 tx.2)) ++ acentries.map fun acentry => make (entryKey acentry) (.entry acentry) := by
    refine Multimap.insertAll_append fun e member y placed => ?_
    obtain ⟨x,left⟩ := keyed e (List.mem_append_right _ member)
    obtain ⟨z,right⟩ := keyed y placed
    rw [left,right,ofAmount_lt]
  rw [fill,first,second,List.map_append,List.map_map,List.map_map]
  rfl

end TxItems

/-- A wallet transaction with its position in the history and the time it was received. -/
structure HistoryTx extends AccountTx where
  nOrderPos : Int := -1
  nTimeReceived : Int := 0

structure HistoryEntry extends CAccountingEntry where
  nTime : Int := 0
  strOtherAccount : AccountName := []
  strComment : Text := []
  nOrderPos : Int := -1
  nEntryNo : Nat := 0

/-- The wallet with its history; the accounting entries are those of the database, in the
    order of their keys. -/
structure HistoryWallet where
  mapWallet : ExtTreeMap uint256 HistoryTx
  mapAddressBook : ExtTreeMap CTxDestination AccountName := ∅
  acentries : List HistoryEntry := []
  nOrderPosNext : Int := 0
  IsMineScript : CScript → Bool
  IsMineAddress : CTxDestination → Bool
  ExtractDestination : CScript → Option CTxDestination

inductive Category
  | send
  | receive
  | orphan
  | immature
  | generate
  | move
deriving DecidableEq

/-- An object of the list; `wtx` is the transaction that `WalletTxToJSON` reads the rest from. -/
structure HistoryLine where
  account : AccountName
  address : Option CTxDestination := none
  category : Category
  amount : Cash
  fee : Option Fees := none
  time : Option Int := none
  otheraccount : AccountName := []
  comment : Text := []
  wtx : Option (uint256 × HistoryTx) := none

/-- How a call ends when it does not return. -/
inductive CallError
  | JSONRPCError (e : RpcError)
  | thrown (e : Reject)
  /-- A sum of two `int` is out of range; what happens then is undefined. -/
  | overflow (sum : String)

/-- An address that can be written is pushed. -/
def MaybePushAddress : CTxDestination → Option CTxDestination
  | .CNoDestination => none
  | dest => some dest

def INT_MAX : Int := 2^31-1

namespace HistoryWallet

/-- What `GetAmounts` reads of the wallet. -/
def accounts (wallet : HistoryWallet) : AccountWallet where
  mapWallet := wallet.mapWallet.map fun _ wtx => wtx.toAccountTx
  mapAddressBook := wallet.mapAddressBook
  acentries := wallet.acentries.map HistoryEntry.toCAccountingEntry
  IsMineScript := wallet.IsMineScript
  IsMineAddress := wallet.IsMineAddress
  ExtractDestination := wallet.ExtractDestination

/-- The entries of one account, or all of them. -/
def ListAccountCreditDebit (wallet : HistoryWallet) (strAccount : AccountName) : List HistoryEntry :=
  if strAccount = [0x2A] then wallet.acentries else wallet.acentries.filter fun entry => entry.strAccount == strAccount

def OrderedTxItems (wallet : HistoryWallet) (strAccount : AccountName := []) : TxItems HistoryTx HistoryEntry :=
  TxItems.fill HistoryTx.nOrderPos HistoryEntry.nOrderPos wallet.mapWallet.toList (wallet.ListAccountCreditDebit strAccount)

/-- The category of a received output. -/
def received (wtx : HistoryTx) : Category :=
  if wtx.IsCoinBase then
    if wtx.GetDepthInMainChain < 1 then .orphan
    else if wtx.GetBlocksToMaturity > 0 then .immature
    else .generate
  else .receive

/-- `ListTransactions` with `fLong`: the objects it pushes. -/
def ListTransactions (wallet : HistoryWallet) (hash : uint256) (wtx : HistoryTx) (strAccount : AccountName) (nMinDepth : Int) :
    Except Reject (List HistoryLine) :=
  match wallet.accounts.GetAmounts wtx.toAccountTx with
  | .error e => .error e
  | .ok amounts =>
    let fAllAccounts := strAccount == [0x2A]
    let sent : List HistoryLine :=
      if (!amounts.listSent.isEmpty || amounts.nFee.fixed != 0) && (fAllAccounts || strAccount == amounts.strSentAccount) then
        amounts.listSent.map fun s => {
          account := amounts.strSentAccount
          address := MaybePushAddress s.1
          category := .send
          amount := s.2.neg
          fee := some amounts.nFee.neg
          wtx := some (hash,wtx)}
      else []
    let received : List HistoryLine :=
      if amounts.listReceived.length > 0 ∧ wtx.GetDepthInMainChain ≥ nMinDepth then
        (amounts.listReceived.filter fun r => fAllAccounts || wallet.mapAddressBook[r.1]?.getD [] == strAccount).map fun r => {
          account := wallet.mapAddressBook[r.1]?.getD []
          address := MaybePushAddress r.1
          category := received wtx
          amount := r.2
          wtx := some (hash,wtx)}
      else []
    .ok (sent ++ received)

def AcentryToJSON (acentry : HistoryEntry) (strAccount : AccountName) : List HistoryLine :=
  if strAccount == [0x2A] || acentry.strAccount == strAccount then [{
    account := acentry.strAccount
    category := .move
    time := some acentry.nTime
    amount := acentry.nCreditDebit
    otheraccount := acentry.strOtherAccount
    comment := acentry.strComment}]
  else []

/-- What one item of the history pushes. -/
def pushed (wallet : HistoryWallet) (strAccount : AccountName) : TxPair HistoryTx HistoryEntry → Except Reject (List HistoryLine)
  | .tx hash wtx => wallet.ListTransactions hash wtx strAccount 0
  | .entry acentry => .ok (AcentryToJSON acentry strAccount)

/-- The loop of `listtransactions`, until there are enough objects. -/
def listUntil (wallet : HistoryWallet) (strAccount : AccountName) (enough : Int) :
    List (TxPair HistoryTx HistoryEntry) → List HistoryLine → Except Reject (List HistoryLine)
  | [], ret => .ok ret
  | item :: rest, ret =>
    match wallet.pushed strAccount item with
    | .error e => .error e
    | .ok more =>
      let ret := ret ++ more
      if (ret.length : Int) ≥ enough then .ok ret else listUntil wallet strAccount enough rest ret

/-- What is kept of the objects, newest first, and turned round. -/
def slice (ret : List HistoryLine) (nCount nFrom : Int) : List HistoryLine :=
  let nFrom := if nFrom > ret.length then (ret.length : Int) else nFrom
  let nCount := if nFrom+nCount > ret.length then ret.length-nFrom else nCount
  ((ret.take (nFrom+nCount).toNat).drop nFrom.toNat).reverse

def listtransactions (wallet : HistoryWallet) (strAccount : AccountName := [0x2A]) (nCount : Int := 10) (nFrom : Int := 0) :
    Except CallError (List HistoryLine) :=
  if nCount < 0 then .error (.JSONRPCError ⟨.RPC_INVALID_PARAMETER,"Negative count",[]⟩)
  else if nFrom < 0 then .error (.JSONRPCError ⟨.RPC_INVALID_PARAMETER,"Negative from",[]⟩)
  else if nCount+nFrom > INT_MAX then .error (.overflow "nCount+nFrom")
  else
    match wallet.listUntil strAccount (nCount+nFrom) ((wallet.OrderedTxItems strAccount).map Prod.snd).reverse [] with
    | .error e => .error (.thrown e)
    | .ok ret => .ok (slice ret nCount nFrom)

/-- What all of the given items push, if none throws. -/
def allPushed (wallet : HistoryWallet) (strAccount : AccountName) : List (TxPair HistoryTx HistoryEntry) → Except Reject (List HistoryLine)
  | [] => .ok []
  | item :: rest =>
    match wallet.pushed strAccount item,allPushed wallet strAccount rest with
    | .ok more,.ok others => .ok (more ++ others)
    | .error e,_ => .error e
    | _,.error e => .error e
section
variable {wallet : HistoryWallet} {strAccount : AccountName}

/-- Every transaction, and every entry that belongs to the account. -/
def everything (wallet : HistoryWallet) (strAccount : AccountName) : List (TxPair HistoryTx HistoryEntry) :=
  TxItems.inTurn wallet.mapWallet.toList (wallet.ListAccountCreditDebit strAccount)

/-- The order position of an item. -/
def orderPos (item : TxPair HistoryTx HistoryEntry) : Int := item.value HistoryTx.nOrderPos HistoryEntry.nOrderPos

theorem OrderedTxItems_values : (wallet.OrderedTxItems strAccount).map Prod.snd = wallet.everything strAccount := by
  rw [OrderedTxItems,TxItems.fill_values,everything]

/-- The loop ends with all that the items push, or with enough of its beginning. -/
theorem listUntil_of_allPushed {enough : Int} {items : List (TxPair HistoryTx HistoryEntry)} {full : List HistoryLine}
    (all : wallet.allPushed strAccount items = .ok full) (ret : List HistoryLine) :
    ∃ got, wallet.listUntil strAccount enough items ret = .ok got ∧
      ∃ left, ret ++ full = got ++ left ∧ (left = [] ∨ enough ≤ got.length) := by
  induction items generalizing ret full with
  | nil =>
    cases all
    exact ⟨ret,rfl,[],rfl,.inl rfl⟩
  | cons item rest ih =>
    cases pushes : wallet.pushed strAccount item with
    | error e => simp [allPushed,pushes] at all
    | ok more =>
      cases others : wallet.allPushed strAccount rest with
      | error e => simp [allPushed,pushes,others] at all
      | ok tail =>
        have whole : full = more ++ tail := by simpa [allPushed,pushes,others] using all.symm
        subst whole
        by_cases stop : ((ret ++ more).length : Int) ≥ enough
        · refine ⟨ret ++ more,by simp only [listUntil,pushes,if_pos stop],tail,by simp,.inr stop⟩
        · obtain ⟨got,ran,left,same,ends⟩ := ih others (ret ++ more)
          refine ⟨got,by simp only [listUntil,pushes,if_neg stop,ran],left,?_,ends⟩
          rw [← same,List.append_assoc]

theorem slice_eq {got left : List HistoryLine} {nCount nFrom : Int} (count : 0 ≤ nCount) (start : 0 ≤ nFrom)
    (ends : left = [] ∨ nCount+nFrom ≤ got.length) :
    slice got nCount nFrom = (((got ++ left).drop nFrom.toNat).take nCount.toNat).reverse := by
  obtain ⟨c,rfl⟩ := Int.eq_ofNat_of_zero_le count
  obtain ⟨f,rfl⟩ := Int.eq_ofNat_of_zero_le start
  have first : (if (f : Int) > got.length then (got.length : Int) else f) = min (f : Int) got.length := by
    rcases le_total (f : Int) got.length with within | past
    · rw [min_eq_left within,if_neg (by omega)]
    · rw [min_eq_right past]
      split <;> omega
  have last : min (f : Int) got.length+(if min (f : Int) got.length+c > got.length then got.length-min (f : Int) got.length else c) =
      min (f+c : Int) got.length := by
    split <;> omega
  have cut : slice got c f = ((got.drop f).take c).reverse := by
    simp only [slice,first,last]
    congr 1
    have ends : (min (f+c : Int) got.length).toNat = min (f+c) got.length := by omega
    have starts : (min (f : Int) got.length).toNat = min f got.length := by omega
    rw [ends,starts,← List.take_eq_take_min]
    rcases le_total f got.length with within | past
    · rw [min_eq_left within,List.drop_take,Nat.add_sub_cancel_left]
    · have none : got.drop f = [] := List.drop_eq_nil_of_le past
      rw [min_eq_right past,none,List.take_nil]
      exact List.drop_eq_nil_of_le (List.length_take_le' _ _)
  rw [cut]
  rcases ends with rfl | enough
  · simp
  · have whole : c+f ≤ got.length := by omega
    congr 1
    simp only [Int.toNat_natCast]
    rw [List.drop_append_of_le_length (by omega),List.take_append_of_le_length (by rw [List.length_drop]; omega)]

/-- What the history is to tell: every item once, in the order of the positions, and
    `listtransactions` the last of what they push, oldest first. -/
structure TellsHistory (wallet : HistoryWallet) (strAccount : AccountName) : Prop where
  once : ((wallet.OrderedTxItems strAccount).map Prod.snd).Perm (wallet.everything strAccount)
  ordered : (((wallet.OrderedTxItems strAccount).map Prod.snd).map orderPos).Pairwise (· ≤ ·)
  lasts : ∀ (nCount nFrom : Int) (full : List HistoryLine), 0 ≤ nCount → 0 ≤ nFrom → nCount+nFrom ≤ INT_MAX →
    wallet.allPushed strAccount ((wallet.OrderedTxItems strAccount).map Prod.snd).reverse = .ok full →
    wallet.listtransactions strAccount nCount nFrom = .ok ((full.drop nFrom.toNat).take nCount.toNat).reverse

theorem listtransactions_last {nCount nFrom : Int} {full : List HistoryLine} (count : 0 ≤ nCount) (start : 0 ≤ nFrom)
    (range : nCount+nFrom ≤ INT_MAX)
    (all : wallet.allPushed strAccount ((wallet.OrderedTxItems strAccount).map Prod.snd).reverse = .ok full) :
    wallet.listtransactions strAccount nCount nFrom = .ok ((full.drop nFrom.toNat).take nCount.toNat).reverse := by
  obtain ⟨got,ran,left,same,ends⟩ := @listUntil_of_allPushed _ _ (nCount+nFrom) _ _ all []
  have whole : full = got ++ left := by simpa using same
  rw [listtransactions,if_neg (by omega),if_neg (by omega),if_neg (by omega),ran]
  simp only [whole,slice_eq count start ends]

/-- The history is told in the order of the positions just when that is the order of the
    transaction hashes, followed by the entries as the database gives them. -/
theorem tellsHistory_iff (wallet : HistoryWallet) (strAccount : AccountName) :
    wallet.TellsHistory strAccount ↔ ((wallet.everything strAccount).map orderPos).Pairwise (· ≤ ·) := by
  constructor
  · intro tells
    have ordered := tells.ordered
    rwa [OrderedTxItems_values] at ordered
  · intro ordered
    refine ⟨?_,?_,?_⟩
    · rw [OrderedTxItems_values]
    · rwa [OrderedTxItems_values]
    · intro nCount nFrom full count start range all
      exact listtransactions_last count start range all

end

def bareHistoryTx (nOrderPos : Int) : HistoryTx where
  vout := []
  GetDepthInMainChain := 0
  plain := by simp
  confirmedFinal := by simp
  nOrderPos := nOrderPos

private def sampleHistory : HistoryWallet where
  mapWallet := ((∅ : ExtTreeMap uint256 HistoryTx).insert 1 (bareHistoryTx 5)).insert 2 (bareHistoryTx 3)
  IsMineScript := fun _ => false
  IsMineAddress := fun _ => false
  ExtractDestination := fun _ => none

/-- The later of two transactions comes first, because its hash is smaller. -/
theorem history_unordered : ∃ (wallet : HistoryWallet) (strAccount : AccountName),
    ((wallet.OrderedTxItems strAccount).map Prod.snd).map orderPos = [5,3] ∧ ¬ wallet.TellsHistory strAccount := by
  have order : (sampleHistory.everything []).map orderPos = [5,3] := by decide +kernel
  refine ⟨sampleHistory,[],?_,?_⟩
  · rw [OrderedTxItems_values,order]
  · rw [tellsHistory_iff,order]
    simp

end HistoryWallet
end Tetra
