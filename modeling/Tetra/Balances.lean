import Mathlib
import Tetra.Accounts
import Tetra.Block

/-!
The balances of the accounts against each other: what `listaccounts` reports, what
`GetAccountBalance` adds up, and `getbalance "*"`. They differ by the fees that only one
of them subtracts and by the transactions that only one of them counts.
-/
namespace Tetra
open Std

namespace Cash

/-- Whether a value lists a circuit. -/
def lists (x : Cash) (c : CashName) : Bool := x.locals[c]?.isSome

@[simp] theorem lists_empty (fixed : Amount) (c : CashName) : lists ⟨∅,fixed⟩ c = false := by simp [lists]

@[simp] theorem addAssign_lists (x y : Cash) (c : CashName) : (x.addAssign y).lists c = (x.lists c || y.lists c) := by
  simp only [lists,addAssign,Maps.getElem?_mergeInto]
  cases x.locals[c]? <;> cases y.locals[c]? <;> rfl

@[simp] theorem subAssign_lists (x y : Cash) (c : CashName) : (x.subAssign y).lists c = (x.lists c || y.lists c) := by
  simp only [lists,subAssign,Maps.getElem?_mergeInto]
  cases x.locals[c]? <;> cases y.locals[c]? <;> rfl

theorem addFees_amount (x : Cash) (fee : Fees) (c : CashName) :
    (x.addFees fee).amount c = x.amount c+if x.lists c then feePart fee c else 0 := by
  have each : ∀ found : Option Amount, (found.map (· + feePart fee c)).getD 0 = found.getD 0+if found.isSome then feePart fee c else 0 := by
    intro found
    cases found <;> simp
  rw [amount,addFees_lookup]
  exact each _

theorem subFees_amount (x : Cash) (fee : Fees) (c : CashName) :
    (x.subFees fee).amount c = x.amount c-if x.lists c then feePart fee c else 0 := by
  have each : ∀ found : Option Amount, (found.map (· - feePart fee c)).getD 0 = found.getD 0-if found.isSome then feePart fee c else 0 := by
    intro found
    cases found <;> simp
  rw [amount,subFees_lookup]
  exact each _

@[simp] theorem subFees_lists (x : Cash) (fee : Fees) (c : CashName) : (x.subFees fee).lists c = x.lists c := by
  simp only [lists,subFees_lookup]
  cases x.locals[c]? <;> rfl

end Cash

section
variable {ι : Type*} (value : ι → Cash)

theorem foldl_addAssign_amount (entries : List ι) (x : Cash) (c : CashName) :
    (entries.foldl (fun x e => x.addAssign (value e)) x).amount c = x.amount c+(entries.map fun e => (value e).amount c).sum := by
  induction entries generalizing x with
  | nil => simp
  | cons e rest ih => rw [List.foldl_cons,ih,Cash.addAssign_amount,List.map_cons,List.sum_cons,add_assoc]

theorem foldl_subAssign_amount (entries : List ι) (x : Cash) (c : CashName) :
    (entries.foldl (fun x e => x.subAssign (value e)) x).amount c = x.amount c-(entries.map fun e => (value e).amount c).sum := by
  induction entries generalizing x with
  | nil => simp
  | cons e rest ih => rw [List.foldl_cons,ih,Cash.subAssign_amount,List.map_cons,List.sum_cons,sub_sub]

theorem foldl_addAssign_lists (entries : List ι) (x : Cash) (c : CashName) :
    (entries.foldl (fun x e => x.addAssign (value e)) x).lists c = (x.lists c || entries.any fun e => (value e).lists c) := by
  induction entries generalizing x with
  | nil => simp
  | cons e rest ih => rw [List.foldl_cons,ih,Cash.addAssign_lists,List.any_cons,Bool.or_assoc]

theorem foldl_subAssign_lists (entries : List ι) (x : Cash) (c : CashName) :
    (entries.foldl (fun x e => x.subAssign (value e)) x).lists c = (x.lists c || entries.any fun e => (value e).lists c) := by
  induction entries generalizing x with
  | nil => simp
  | cons e rest ih => rw [List.foldl_cons,ih,Cash.subAssign_lists,List.any_cons,Bool.or_assoc]

theorem foldl_addAssign_fixed (entries : List ι) (plain : ∀ e ∈ entries, (value e).fixed = 0) (x : Cash) :
    (entries.foldl (fun x e => x.addAssign (value e)) x).fixed = x.fixed := by
  induction entries generalizing x with
  | nil => rfl
  | cons e rest ih =>
    rw [List.foldl_cons,ih fun other later => plain other (List.mem_cons_of_mem _ later),Cash.addAssign_fixed,
      plain e (List.mem_cons_self ..),add_zero]

end

namespace Amounts

/-- What a transaction sent in a circuit, and whether it sent anything there. -/
def sentIn (amounts : Amounts) (c : CashName) : Amount := (amounts.listSent.map fun s => s.2.amount c).sum
def sentLists (amounts : Amounts) (c : CashName) : Bool := amounts.listSent.any fun s => s.2.lists c
def feeIn (amounts : Amounts) (c : CashName) : Amount := Cash.feePart amounts.nFee c
def receivedIn (amounts : Amounts) (c : CashName) : Amount := (amounts.listReceived.map fun r => r.2.amount c).sum
def receivedLists (amounts : Amounts) (c : CashName) : Bool := amounts.listReceived.any fun r => r.2.lists c

end Amounts

namespace AccountWallet
variable (wallet : AccountWallet)

/-- What an account received, out of all that a transaction received. -/
def receivedBy (strAccount : AccountName) (amounts : Amounts) : List (CTxDestination × Cash) :=
  amounts.listReceived.filter fun r => wallet.accountOf r.1 == strAccount

theorem countsFor_eq (strAccount : AccountName) (address : CTxDestination) :
    wallet.countsFor strAccount address = (wallet.accountOf address == strAccount) := by
  unfold countsFor accountOf
  cases wallet.mapAddressBook[address]? with
  | some account => rfl
  | none => cases strAccount <;> rfl

theorem GetAmounts_plain {wtx : AccountTx} {amounts : Amounts} (gets : wallet.GetAmounts wtx = .ok amounts) :
    (∀ r ∈ amounts.listReceived, r.2.fixed = 0) ∧ amounts.strSentAccount = wtx.strFromAccount := by
  unfold GetAmounts at gets
  split at gets
  · contradiction
  dsimp only at gets
  have plain : ∀ (p : CTxOut → Bool), ∀ r ∈ (wtx.vout.filter p).map fun txout => (wallet.addressOf txout,txout.nValue), r.2.fixed = 0 := by
    intro p r member
    obtain ⟨txout,inside,rfl⟩ := List.mem_map.mp member
    exact wtx.plain txout (List.mem_of_mem_filter inside)
  split at gets
  · split at gets
    · contradiction
    · obtain rfl := Except.ok.inj gets
      exact ⟨plain _,rfl⟩
  · obtain rfl := Except.ok.inj gets
    exact ⟨plain _,rfl⟩

/-- The amounts of a transaction, once the call returns. -/
def amountsOf (wtx : AccountTx) : Amounts :=
  match wallet.GetAmounts wtx with
  | .ok amounts => amounts
  | .error _ => {}

theorem traverse_ok {σ : Type} (skip : AccountTx → Bool) (visit : AccountTx → Amounts → σ → σ) {txs : List AccountTx}
    (returns : ∀ wtx ∈ txs, wallet.GetAmounts wtx = .ok (wallet.amountsOf wtx)) (s : σ) :
    wallet.traverse skip visit txs s = .ok (txs.foldl (fun s wtx => if skip wtx then s else visit wtx (wallet.amountsOf wtx) s) s) := by
  induction txs generalizing s with
  | nil => rfl
  | cons wtx rest ih =>
    have later := ih fun other member => returns other (List.mem_cons_of_mem _ member)
    rw [traverse,List.foldl_cons]
    split
    · exact later s
    · rw [returns wtx (List.mem_cons_self ..)]
      exact later _

/-- A loop that skips nothing and returns has got the amounts of every transaction. -/
theorem returns_of_traverse {σ : Type} {visit : AccountTx → Amounts → σ → σ} {txs : List AccountTx} {s s' : σ}
    (traverses : wallet.traverse (fun _ => false) visit txs s = .ok s') :
    ∀ wtx ∈ txs, wallet.GetAmounts wtx = .ok (wallet.amountsOf wtx) := by
  induction txs generalizing s with
  | nil => intro wtx member; exact absurd member (by simp)
  | cons first rest ih =>
    rw [traverse,if_neg Bool.false_ne_true] at traverses
    cases gets : wallet.GetAmounts first with
    | error e => simp [gets] at traverses
    | ok amounts =>
      intro wtx member
      rcases List.mem_cons.mp member with rfl | later
      · rw [amountsOf,gets]
      · exact ih (by simpa [gets] using traverses) wtx later

section
variable (strAccount : AccountName) (nMinDepth : Int) (c : CashName)

/-- What a transaction adds to an account's balance in a circuit, fee apart. -/
def counted (wtx : AccountTx) : Amount :=
  (if wtx.GetDepthInMainChain ≥ nMinDepth then ((wallet.receivedBy strAccount (wallet.amountsOf wtx)).map fun r => r.2.amount c).sum else 0)-
    if wtx.strFromAccount = strAccount then (wallet.amountsOf wtx).sentIn c else 0

/-- The fee that `GetAccountBalance` subtracts. -/
def feeSent (wtx : AccountTx) : Amount :=
  if wtx.strFromAccount = strAccount ∧ (wallet.amountsOf wtx).sentLists c = true then (wallet.amountsOf wtx).feeIn c else 0

/-- The received total is never taken for nothing, since its circuit-free part is not 0. -/
theorem received_counts {wtx : AccountTx} (returns : wallet.GetAmounts wtx = .ok (wallet.amountsOf wtx)) :
    (wallet.GetAccountAmounts strAccount (wallet.amountsOf wtx)).1.neAmount 0 = true ∧
      (wallet.GetAccountAmounts strAccount (wallet.amountsOf wtx)).1.amount c =
        ((wallet.receivedBy strAccount (wallet.amountsOf wtx)).map fun r => r.2.amount c).sum := by
  have folded : (wallet.GetAccountAmounts strAccount (wallet.amountsOf wtx)).1 =
      (wallet.receivedBy strAccount (wallet.amountsOf wtx)).foldl (fun nReceived r => nReceived.addAssign r.2) (Cash.assignAmount 1) := by
    simp only [GetAccountAmounts,countsFor_eq,receivedBy,List.foldl_filter]
  have fixed : (wallet.GetAccountAmounts strAccount (wallet.amountsOf wtx)).1.fixed = 1 := by
    rw [folded]
    refine foldl_addAssign_fixed Prod.snd _ (fun r member => ?_) _
    exact (wallet.GetAmounts_plain returns).1 r (List.mem_of_mem_filter member)
  refine ⟨?_,?_⟩
  · have differs : ¬ (1 : Amount) = 0 := by decide
    simp [Cash.neAmount,Cash.eq,fixed,differs]
  · rw [folded,foldl_addAssign_amount Prod.snd]
    simp [Cash.assignAmount]

theorem sent_amount (amounts : Amounts) :
    ((wallet.GetAccountAmounts strAccount amounts).2.1.addFees (wallet.GetAccountAmounts strAccount amounts).2.2).amount c =
      if amounts.strSentAccount = strAccount then amounts.sentIn c+(if amounts.sentLists c then amounts.feeIn c else 0) else 0 := by
  by_cases same : strAccount = amounts.strSentAccount
  · simp only [GetAccountAmounts,same,if_true,Cash.addFees_amount]
    rw [foldl_addAssign_amount Prod.snd,foldl_addAssign_lists Prod.snd]
    have listsNone : (Cash.assignAmount 0).lists c = false := Cash.lists_empty 0 c
    have holdsNone : (Cash.assignAmount 0).amount c = 0 := Cash.amount_empty 0 c
    rw [listsNone,holdsNone,zero_add,Bool.false_or]
    rfl
  · simp only [GetAccountAmounts,same,Ne.symm same,if_false,Cash.addFees_amount]
    simp [Cash.assignAmount]

theorem tally_amount {wtx : AccountTx} (returns : wallet.GetAmounts wtx = .ok (wallet.amountsOf wtx)) (nBalance : Cash) :
    (wallet.tally strAccount nMinDepth wtx (wallet.amountsOf wtx) nBalance).amount c =
      nBalance.amount c+(wallet.counted strAccount nMinDepth c wtx-wallet.feeSent strAccount c wtx) := by
  obtain ⟨counts,received⟩ := wallet.received_counts strAccount c returns
  have sent := wallet.sent_amount strAccount c (wallet.amountsOf wtx)
  rw [(wallet.GetAmounts_plain returns).2] at sent
  simp only [tally,counts,true_and,Cash.subAssign_amount,sent,counted,feeSent]
  by_cases deep : wtx.GetDepthInMainChain ≥ nMinDepth
  · by_cases here : wtx.strFromAccount = strAccount
    · simp only [deep,here,if_true,true_and,Cash.addAssign_amount,received]
      abel
    · simp only [deep,here,if_true,if_false,false_and,Cash.addAssign_amount,received]
      abel
  · by_cases here : wtx.strFromAccount = strAccount
    · simp only [deep,here,if_true,if_false,true_and]
      abel
    · simp only [deep,here,if_false,false_and]
      abel

/-- The balance that `listaccounts` has for an account so far. -/
def balanceIn (balances : Balances) (strAccount : AccountName) : Cash := balances[strAccount]?.getD {}

@[simp] theorem balanceIn_update (balances : Balances) (other : AccountName) (f : Cash → Cash) :
    balanceIn (update balances other f) strAccount = if other = strAccount then f (balanceIn balances strAccount) else balanceIn balances strAccount := by
  unfold balanceIn update
  rw [ExtTreeMap.getElem?_insert]
  by_cases same : other = strAccount
  · simp [same]
  · simp [same]

/-- A loop of updates acts on each account's balance by itself. -/
theorem balanceIn_foldl {ι : Type*} (entries : List ι) (name : ι → AccountName) (f : ι → Cash → Cash) (balances : Balances) :
    balanceIn (entries.foldl (fun balances e => update balances (name e) (f e)) balances) strAccount =
      (entries.filter fun e => name e == strAccount).foldl (fun x e => f e x) (balanceIn balances strAccount) := by
  induction entries generalizing balances with
  | nil => rfl
  | cons e rest ih =>
    rw [List.foldl_cons,ih,balanceIn_update]
    by_cases same : name e = strAccount
    · simp [same]
    · simp [same]

/-- What `listaccounts` makes of one account's balance. -/
def tallyMapOne (wtx : AccountTx) (nBalance : Cash) : Cash :=
  let amounts := wallet.amountsOf wtx
  let nBalance := if wtx.strFromAccount = strAccount then
    amounts.listSent.foldl (fun x s => x.subAssign s.2) (nBalance.subFees amounts.nFee) else nBalance
  if wtx.GetDepthInMainChain ≥ nMinDepth then (wallet.receivedBy strAccount amounts).foldl (fun x r => x.addAssign r.2) nBalance else nBalance

theorem balanceIn_tallyMap {wtx : AccountTx} (returns : wallet.GetAmounts wtx = .ok (wallet.amountsOf wtx)) (balances : Balances) :
    balanceIn (wallet.tallyMap nMinDepth wtx (wallet.amountsOf wtx) balances) strAccount =
      wallet.tallyMapOne strAccount nMinDepth wtx (balanceIn balances strAccount) := by
  have sender := (wallet.GetAmounts_plain returns).2
  have sent : ∀ start : Balances, balanceIn ((wallet.amountsOf wtx).listSent.foldl (fun balances s =>
      update balances (wallet.amountsOf wtx).strSentAccount fun balance => balance.subAssign s.2) start) strAccount =
      if wtx.strFromAccount = strAccount then
        (wallet.amountsOf wtx).listSent.foldl (fun x s => x.subAssign s.2) (balanceIn start strAccount) else balanceIn start strAccount := by
    intro start
    rw [balanceIn_foldl strAccount _ (fun _ => (wallet.amountsOf wtx).strSentAccount) fun (s : CTxDestination × Cash) x => x.subAssign s.2,sender]
    by_cases same : wtx.strFromAccount = strAccount
    · simp [same]
    · have differs : (wtx.strFromAccount == strAccount) = false := beq_false_of_ne same
      simp [same,differs]
  unfold tallyMap tallyMapOne
  dsimp only
  split
  · rw [balanceIn_foldl strAccount _ (fun (r : CTxDestination × Cash) => wallet.accountOf r.1) fun r x => x.addAssign r.2,sent,balanceIn_update,sender]
    by_cases same : wtx.strFromAccount = strAccount
    · simp [same,receivedBy]
    · simp [same,receivedBy]
  · rw [sent,balanceIn_update,sender]
    by_cases same : wtx.strFromAccount = strAccount
    · simp [same]
    · simp [same]

/-- Whether a transaction makes the account's balance list a circuit. -/
def touches (wtx : AccountTx) : Bool :=
  (decide (wtx.strFromAccount = strAccount) && (wallet.amountsOf wtx).sentLists c) ||
    (decide (wtx.GetDepthInMainChain ≥ nMinDepth) && (wallet.receivedBy strAccount (wallet.amountsOf wtx)).any fun r => r.2.lists c)

theorem tallyMapOne_amount (wtx : AccountTx) (nBalance : Cash) :
    (wallet.tallyMapOne strAccount nMinDepth wtx nBalance).amount c = nBalance.amount c+(wallet.counted strAccount nMinDepth c wtx-
      if wtx.strFromAccount = strAccount ∧ nBalance.lists c = true then (wallet.amountsOf wtx).feeIn c else 0) ∧
    (wallet.tallyMapOne strAccount nMinDepth wtx nBalance).lists c = (nBalance.lists c || wallet.touches strAccount nMinDepth c wtx) := by
  unfold tallyMapOne counted touches
  dsimp only
  by_cases deep : wtx.GetDepthInMainChain ≥ nMinDepth
  · by_cases here : wtx.strFromAccount = strAccount
    · refine ⟨?_,?_⟩
      · simp only [deep,here,if_true,true_and]
        rw [foldl_addAssign_amount Prod.snd,foldl_subAssign_amount Prod.snd,Cash.subFees_amount,Amounts.feeIn,Amounts.sentIn]
        abel
      · simp only [deep,here,if_true,decide_true,Bool.true_and]
        rw [foldl_addAssign_lists Prod.snd,foldl_subAssign_lists Prod.snd,Cash.subFees_lists,Amounts.sentLists,Bool.or_assoc]
    · refine ⟨?_,?_⟩
      · simp only [deep,here,if_true,if_false,false_and]
        rw [foldl_addAssign_amount Prod.snd]
        abel
      · simp only [deep,here,if_true,if_false,decide_true,decide_false,Bool.true_and,Bool.false_and,Bool.false_or]
        rw [foldl_addAssign_lists Prod.snd]
  · by_cases here : wtx.strFromAccount = strAccount
    · refine ⟨?_,?_⟩
      · simp only [deep,here,if_true,if_false,true_and]
        rw [foldl_subAssign_amount Prod.snd,Cash.subFees_amount,Amounts.feeIn,Amounts.sentIn]
        abel
      · simp only [deep,here,if_true,if_false,decide_true,decide_false,Bool.true_and,Bool.false_and,Bool.or_false]
        rw [foldl_subAssign_lists Prod.snd,Cash.subFees_lists,Amounts.sentLists]
    · refine ⟨?_,?_⟩
      · simp only [deep,here,if_false,false_and]
        abel
      · simp [deep,here]

/-- What `listaccounts` counts for an account in a circuit and `GetAccountBalance` does
    not, over some transactions: all of a transaction that is not final, and, for a final
    one, the fee where the transaction's outputs list the circuit, less the fee where the
    account's balance lists it already. -/
def strayTxs (listed : Bool) : List AccountTx → Amount
  | [] => 0
  | wtx :: rest =>
    (if wtx.IsFinal then wallet.feeSent strAccount c wtx else wallet.counted strAccount nMinDepth c wtx)-
      (if wtx.strFromAccount = strAccount ∧ listed = true then (wallet.amountsOf wtx).feeIn c else 0)+
      strayTxs (listed || wallet.touches strAccount nMinDepth c wtx) rest

/-- The total of some accounting entries. -/
def creditsOf (entries : List CAccountingEntry) : Amount := (entries.map fun entry => entry.nCreditDebit.amount c).sum

/-- The same for all that the two count, accounting entries included. -/
def strayAccount : Amount :=
  wallet.strayTxs strAccount nMinDepth c false wallet.txs+
    (creditsOf c (wallet.acentries.filter fun entry => entry.strAccount == strAccount)-
      creditsOf c (wallet.ListAccountCreditDebit strAccount))

theorem tallies_stray {txs : List AccountTx} (returns : ∀ wtx ∈ txs, wallet.GetAmounts wtx = .ok (wallet.amountsOf wtx))
    (balances : Balances) (nBalance : Cash) :
    (balanceIn (txs.foldl (fun s wtx => if false = true then s else wallet.tallyMap nMinDepth wtx (wallet.amountsOf wtx) s) balances)
        strAccount).amount c+nBalance.amount c =
      (txs.foldl (fun s wtx => if (!wtx.IsFinal) = true then s else wallet.tally strAccount nMinDepth wtx (wallet.amountsOf wtx) s)
        nBalance).amount c+(balanceIn balances strAccount).amount c+
        wallet.strayTxs strAccount nMinDepth c ((balanceIn balances strAccount).lists c) txs := by
  induction txs generalizing balances nBalance with
  | nil =>
    simp only [List.foldl_nil,strayTxs]
    abel
  | cons wtx rest ih =>
    have first := returns wtx (List.mem_cons_self ..)
    have later := ih fun other member => returns other (List.mem_cons_of_mem _ member)
    obtain ⟨amount,lists⟩ := wallet.tallyMapOne_amount strAccount nMinDepth c wtx (balanceIn balances strAccount)
    rw [← wallet.balanceIn_tallyMap strAccount nMinDepth first] at amount lists
    rw [List.foldl_cons,List.foldl_cons,if_neg Bool.false_ne_true,strayTxs]
    by_cases final : wtx.IsFinal = true
    · have moved := wallet.tally_amount strAccount nMinDepth c first nBalance
      have step := later (wallet.tallyMap nMinDepth wtx (wallet.amountsOf wtx) balances)
        (wallet.tally strAccount nMinDepth wtx (wallet.amountsOf wtx) nBalance)
      rw [amount,lists,moved,← add_assoc] at step
      rw [if_neg (by simp [final]),if_pos final,eq_sub_of_add_eq step]
      abel
    · have step := later (wallet.tallyMap nMinDepth wtx (wallet.amountsOf wtx) balances) nBalance
      rw [amount,lists] at step
      rw [if_pos (by simp [final]),if_neg final,step]
      abel

theorem ownAccounts_empty : balanceIn wallet.ownAccounts strAccount = {} := by
  have each : ∀ (entries : List (CTxDestination × AccountName)) (balances : Balances), balanceIn balances strAccount = {} →
      balanceIn (entries.foldl (fun balances entry =>
        if wallet.IsMineAddress entry.1 then balances.insert entry.2 (Cash.assignAmount 0) else balances) balances) strAccount = {} := by
    intro entries
    induction entries with
    | nil => intro balances start; exact start
    | cons entry rest ih =>
      intro balances start
      rw [List.foldl_cons]
      refine ih _ ?_
      split
      · unfold balanceIn at start ⊢
        rw [ExtTreeMap.getElem?_insert]
        split
        · rfl
        · exact start
      · exact start
  exact each _ _ (by simp [balanceIn])

/-- The balance reported for an account is the account's balance and what only
    `listaccounts` counts. -/
theorem listaccounts_stray {reported : Balances} (reports : wallet.listaccounts nMinDepth = .ok reported) :
    ∃ nBalance, wallet.GetAccountBalance strAccount nMinDepth = .ok nBalance ∧
      (balanceIn reported strAccount).amount c = nBalance.amount c+wallet.strayAccount strAccount nMinDepth c := by
  unfold listaccounts at reports
  split at reports
  · contradiction
  next balances traverses =>
    have returns := wallet.returns_of_traverse traverses
    rw [wallet.traverse_ok _ _ returns] at traverses
    refine ⟨_,by rw [GetAccountBalance,wallet.traverse_ok _ _ returns],?_⟩
    have stray := wallet.tallies_stray strAccount nMinDepth c returns wallet.ownAccounts {}
    rw [ownAccounts_empty,Except.ok.inj traverses] at stray
    obtain rfl := Except.ok.inj reports
    rw [balanceIn_foldl strAccount _ CAccountingEntry.strAccount fun entry x => x.addAssign entry.nCreditDebit,
      foldl_addAssign_amount CAccountingEntry.nCreditDebit,Cash.addAssign_amount,GetAccountCreditDebit,
      foldl_addAssign_amount CAccountingEntry.nCreditDebit]
    have allEntries : wallet.ListAccountCreditDebit [0x2A] = wallet.acentries := if_pos rfl
    have listsNone : Cash.lists {} c = false := Cash.lists_empty 0 c
    have holdsNone : Cash.amount {} c = 0 := Cash.amount_empty 0 c
    rw [listsNone,holdsNone,add_zero,add_zero] at stray
    rw [allEntries,stray,holdsNone,strayAccount,creditsOf,creditsOf]
    abel

end

/-- Every account name that the wallet knows. -/
def accounts : Finset AccountName :=
  ([] :: (wallet.mapAddressBook.toList.map Prod.snd ++ wallet.txs.map AccountTx.strFromAccount ++
    wallet.acentries.map CAccountingEntry.strAccount)).toFinset

theorem accountOf_mem (address : CTxDestination) : wallet.accountOf address ∈ wallet.accounts := by
  unfold accountOf accounts
  cases found : wallet.mapAddressBook[address]? with
  | none => simp
  | some account =>
    have member := ExtTreeMap.mem_toList_iff_getElem?_eq_some.mpr found
    have listed : account ∈ wallet.mapAddressBook.toList.map Prod.snd := List.mem_map.mpr ⟨_,member,rfl⟩
    simp only [Option.getD_some,List.mem_toFinset,List.mem_cons,List.mem_append]
    exact .inr (.inl (.inl listed))

theorem strFromAccount_mem {wtx : AccountTx} (member : wtx ∈ wallet.txs) : wtx.strFromAccount ∈ wallet.accounts := by
  unfold accounts
  simp only [List.mem_toFinset,List.mem_cons,List.mem_append]
  exact .inr (.inl (.inr (List.mem_map_of_mem member)))

/-- What is split among accounts adds up again. -/
theorem sum_filter_accounts {ι : Type*} (names : Finset AccountName) (name : ι → AccountName) (f : ι → Amount) (entries : List ι)
    (known : ∀ e ∈ entries, name e ∈ names) :
    ∑ account ∈ names, ((entries.filter fun e => name e == account).map f).sum = (entries.map f).sum := by
  induction entries with
  | nil => simp
  | cons e rest ih =>
    have each : ∀ account, (((e :: rest).filter fun e => name e == account).map f).sum =
        (if name e = account then f e else 0)+((rest.filter fun e => name e == account).map f).sum := by
      intro account
      by_cases same : name e = account
      · simp [same]
      · have differs : (name e == account) = false := beq_false_of_ne same
        simp [same,differs]
    simp only [each]
    rw [Finset.sum_add_distrib,ih fun other later => known other (List.mem_cons_of_mem _ later),List.map_cons,List.sum_cons,
      Finset.sum_ite_eq,if_pos (known e (List.mem_cons_self ..))]

section
variable (nMinDepth : Int) (c : CashName)

/-- What a transaction adds to the wallet's balance in a circuit, fee apart. -/
def countedAll (wtx : AccountTx) : Amount :=
  (if wtx.GetDepthInMainChain ≥ nMinDepth then (wallet.amountsOf wtx).receivedIn c else 0)-(wallet.amountsOf wtx).sentIn c

/-- Whether a transaction makes the wallet's balance list a circuit. -/
def touchesAll (wtx : AccountTx) : Bool :=
  (decide (wtx.GetDepthInMainChain ≥ nMinDepth) && (wallet.amountsOf wtx).receivedLists c) || (wallet.amountsOf wtx).sentLists c

theorem sum_counted {wtx : AccountTx} (member : wtx ∈ wallet.txs) :
    ∑ account ∈ wallet.accounts, wallet.counted account nMinDepth c wtx = wallet.countedAll nMinDepth c wtx := by
  unfold counted countedAll
  rw [Finset.sum_sub_distrib,Finset.sum_ite_eq,if_pos (wallet.strFromAccount_mem member)]
  split
  · unfold receivedBy
    rw [sum_filter_accounts wallet.accounts (fun r : CTxDestination × Cash => wallet.accountOf r.1) _ _ fun r _ => wallet.accountOf_mem r.1]
    rfl
  · rw [Finset.sum_const_zero]

theorem sum_feeSent {wtx : AccountTx} (member : wtx ∈ wallet.txs) :
    ∑ account ∈ wallet.accounts, wallet.feeSent account c wtx =
      if (wallet.amountsOf wtx).sentLists c then (wallet.amountsOf wtx).feeIn c else 0 := by
  unfold feeSent
  by_cases listed : (wallet.amountsOf wtx).sentLists c = true
  · simp only [listed,and_true,if_true]
    rw [Finset.sum_ite_eq,if_pos (wallet.strFromAccount_mem member)]
  · simp [listed]

theorem tallyAll_amount (wtx : AccountTx) (nBalance : Cash) :
    (tallyAll nMinDepth wtx (wallet.amountsOf wtx) nBalance).amount c = nBalance.amount c+(wallet.countedAll nMinDepth c wtx-
      if (nBalance.lists c || wallet.touchesAll nMinDepth c wtx) = true then (wallet.amountsOf wtx).feeIn c else 0) ∧
    (tallyAll nMinDepth wtx (wallet.amountsOf wtx) nBalance).lists c = (nBalance.lists c || wallet.touchesAll nMinDepth c wtx) := by
  have lists : (tallyAll nMinDepth wtx (wallet.amountsOf wtx) nBalance).lists c =
      (nBalance.lists c || wallet.touchesAll nMinDepth c wtx) := by
    unfold tallyAll touchesAll
    dsimp only
    rw [Cash.subFees_lists,foldl_subAssign_lists Prod.snd]
    split
    · next deep =>
      rw [foldl_addAssign_lists Prod.snd,decide_eq_true deep,Bool.true_and,Bool.or_assoc]
      rfl
    · next shallow =>
      rw [decide_eq_false shallow,Bool.false_and,Bool.false_or]
      rfl
  refine ⟨?_,lists⟩
  rw [← lists]
  unfold tallyAll countedAll
  dsimp only
  rw [Cash.subFees_lists,Cash.subFees_amount,foldl_subAssign_amount Prod.snd,Amounts.feeIn,Amounts.sentIn]
  split
  · rw [foldl_addAssign_amount Prod.snd,Amounts.receivedIn]
    abel
  · abel

/-- What the accounts together count in a circuit and `getbalance "*"` does not, over some
    transactions: those that are final and not confirmed, and the fees of the confirmed
    ones where the wallet's balance lists the circuit, less the fees of the final ones
    where their outputs list it. -/
def strayTotalTxs (listed : Bool) : List AccountTx → Amount
  | [] => 0
  | wtx :: rest =>
    let after := listed || (wtx.IsConfirmed && wallet.touchesAll nMinDepth c wtx)
    (if wtx.IsFinal ∧ ¬ wtx.IsConfirmed then wallet.countedAll nMinDepth c wtx else 0)+
      (if wtx.IsConfirmed ∧ after = true then (wallet.amountsOf wtx).feeIn c else 0)-
      (if wtx.IsFinal ∧ (wallet.amountsOf wtx).sentLists c = true then (wallet.amountsOf wtx).feeIn c else 0)+
      strayTotalTxs after rest

/-- The same for all that they count, accounting entries included. -/
def strayTotal : Amount :=
  wallet.strayTotalTxs nMinDepth c false wallet.txs+∑ account ∈ wallet.accounts, creditsOf c (wallet.ListAccountCreditDebit account)

theorem tallies_strayTotal {txs : List AccountTx} (inWallet : ∀ wtx ∈ txs, wtx ∈ wallet.txs)
    (returns : ∀ wtx ∈ txs, wallet.GetAmounts wtx = .ok (wallet.amountsOf wtx)) (balance : AccountName → Cash) (nBalance : Cash) :
    (∑ account ∈ wallet.accounts, (txs.foldl (fun s wtx => if (!wtx.IsFinal) = true then s else
        wallet.tally account nMinDepth wtx (wallet.amountsOf wtx) s) (balance account)).amount c)+nBalance.amount c =
      (txs.foldl (fun s wtx => if (!wtx.IsConfirmed) = true then s else tallyAll nMinDepth wtx (wallet.amountsOf wtx) s) nBalance).amount c+
        (∑ account ∈ wallet.accounts, (balance account).amount c)+wallet.strayTotalTxs nMinDepth c (nBalance.lists c) txs := by
  induction txs generalizing balance nBalance with
  | nil =>
    simp only [List.foldl_nil,strayTotalTxs]
    abel
  | cons wtx rest ih =>
    have first := returns wtx (List.mem_cons_self ..)
    have here := inWallet wtx (List.mem_cons_self ..)
    have later := ih (fun other member => inWallet other (List.mem_cons_of_mem _ member))
      (fun other member => returns other (List.mem_cons_of_mem _ member))
    obtain ⟨amount,lists⟩ := wallet.tallyAll_amount nMinDepth c wtx nBalance
    have moved : ∑ account ∈ wallet.accounts, (wallet.tally account nMinDepth wtx (wallet.amountsOf wtx) (balance account)).amount c =
        (∑ account ∈ wallet.accounts, (balance account).amount c)+(wallet.countedAll nMinDepth c wtx-
          if (wallet.amountsOf wtx).sentLists c then (wallet.amountsOf wtx).feeIn c else 0) := by
      rw [← wallet.sum_counted nMinDepth c here,← wallet.sum_feeSent c here,← Finset.sum_sub_distrib,← Finset.sum_add_distrib]
      exact Finset.sum_congr rfl fun account _ => wallet.tally_amount account nMinDepth c first (balance account)
    simp only [List.foldl_cons]
    rw [strayTotalTxs]
    by_cases confirmed : wtx.IsConfirmed = true
    · have final := wtx.confirmedFinal confirmed
      have step := later (fun account => wallet.tally account nMinDepth wtx (wallet.amountsOf wtx) (balance account))
        (tallyAll nMinDepth wtx (wallet.amountsOf wtx) nBalance)
      rw [amount,lists,moved,← add_assoc] at step
      simp only [confirmed,final,Bool.not_true,Bool.false_eq_true,if_false,Bool.true_and,true_and,not_true,and_false]
      rw [eq_sub_of_add_eq step]
      abel
    · by_cases final : wtx.IsFinal = true
      · have step := later (fun account => wallet.tally account nMinDepth wtx (wallet.amountsOf wtx) (balance account)) nBalance
        rw [moved] at step
        simp only [confirmed,final,Bool.not_true,Bool.not_false,Bool.false_eq_true,if_false,if_true,Bool.false_and,Bool.or_false,
          true_and,not_false_eq_true,false_and]
        rw [step]
        abel
      · have step := later balance nBalance
        simp only [confirmed,final,Bool.not_false,if_true,Bool.false_and,Bool.or_false,Bool.false_eq_true,false_and,if_false]
        rw [step]
        abel

theorem getbalanceAll_stray {reported : Balances} (reports : wallet.listaccounts nMinDepth = .ok reported) :
    ∃ (nBalance : AccountName → Cash) (total : Cash), (∀ account, wallet.GetAccountBalance account nMinDepth = .ok (nBalance account)) ∧
      wallet.getbalanceAll nMinDepth = .ok total ∧ ∀ c,
      ∑ account ∈ wallet.accounts, (nBalance account).amount c = total.amount c+wallet.strayTotal nMinDepth c := by
  unfold listaccounts at reports
  split at reports
  · contradiction
  next balances traverses =>
    have returns := wallet.returns_of_traverse traverses
    refine ⟨fun account => (wallet.txs.foldl (fun s wtx => if (!wtx.IsFinal) = true then s else
      wallet.tally account nMinDepth wtx (wallet.amountsOf wtx) s) {}).addAssign (wallet.GetAccountCreditDebit account),_,fun account => ?_,
      by rw [getbalanceAll,wallet.traverse_ok _ _ returns],fun c => ?_⟩
    · rw [GetAccountBalance,wallet.traverse_ok _ _ returns]
    · have stray := wallet.tallies_strayTotal nMinDepth c (fun _ member => member) returns (fun _ => {}) {}
      have listsNone : Cash.lists {} c = false := Cash.lists_empty 0 c
      have holdsNone : Cash.amount {} c = 0 := Cash.amount_empty 0 c
      have credit : ∀ account, (wallet.GetAccountCreditDebit account).amount c = creditsOf c (wallet.ListAccountCreditDebit account) := by
        intro account
        rw [GetAccountCreditDebit,foldl_addAssign_amount CAccountingEntry.nCreditDebit,holdsNone,zero_add]
        rfl
      rw [listsNone,holdsNone,add_zero,Finset.sum_const_zero,add_zero] at stray
      simp only [Cash.addAssign_amount,credit]
      rw [Finset.sum_add_distrib,stray,strayTotal,add_assoc]

end

/-- The three agree exactly when, in every circuit, what only one of them counts cancels
    out: for every reported account what only `listaccounts` counts, and for the wallet
    what only the accounts together or only `getbalance "*"` counts. -/
theorem balances_agree_iff (nMinDepth : Int) {reported : Balances} (reports : wallet.listaccounts nMinDepth = .ok reported) :
    ∃ (nBalance : AccountName → Cash) (total : Cash), (∀ account, wallet.GetAccountBalance account nMinDepth = .ok (nBalance account)) ∧
      wallet.getbalanceAll nMinDepth = .ok total ∧
      (((∀ account balance, reported[account]? = some balance → ∀ c, balance.amount c = (nBalance account).amount c) ∧
          ∀ c, ∑ account ∈ wallet.accounts, (nBalance account).amount c = total.amount c) ↔
        (∀ account ∈ reported, ∀ c, wallet.strayAccount account nMinDepth c = 0) ∧ ∀ c, wallet.strayTotal nMinDepth c = 0) := by
  obtain ⟨nBalance,total,balances,totals,sums⟩ := wallet.getbalanceAll_stray nMinDepth reports
  refine ⟨nBalance,total,balances,totals,and_congr ?_ ?_⟩
  · have single : ∀ account balance, reported[account]? = some balance → ∀ c,
        balance.amount c = (nBalance account).amount c+wallet.strayAccount account nMinDepth c := by
      intro account balance found c
      obtain ⟨own,gives,stray⟩ := wallet.listaccounts_stray account nMinDepth c reports
      rw [balances account] at gives
      rw [Except.ok.inj gives,← stray,balanceIn,found]
      rfl
    constructor
    · intro agree account member c
      obtain ⟨balance,found⟩ := Option.isSome_iff_exists.mp (ExtTreeMap.mem_iff_isSome_getElem?.mp member)
      have same := single account balance found c
      rw [agree account balance found c] at same
      exact left_eq_add.mp same
    · intro none account balance found c
      have member : account ∈ reported := ExtTreeMap.mem_iff_isSome_getElem?.mpr (by rw [found]; rfl)
      rw [single account balance found c,none account member c,add_zero]
  · refine forall_congr' fun c => ?_
    rw [sums c]
    exact add_eq_left

/-- A wallet with some transactions: script `[1]` pays an address in the book, under the
    default account, `[2]` somebody else, and `[3]` an own address that is not in the book. -/
def sampleAccounts (mapWallet : ExtTreeMap uint256 AccountTx) : AccountWallet where
  mapWallet := mapWallet
  mapAddressBook := (∅ : ExtTreeMap CTxDestination AccountName).insert (.CKeyID 1) []
  IsMineScript scriptPubKey := scriptPubKey != [2]
  IsMineAddress address := address != .CKeyID 2
  ExtractDestination scriptPubKey := scriptPubKey.head?.map fun key => .CKeyID key.toNat

def sampleReceipt : AccountTx where
  vin := [⟨⟨7,0⟩,[],0⟩]
  vout := [⟨Cash.ofMoney (EUR,10),[1]⟩]
  GetDepthInMainChain := 1
  plain := by decide
  confirmedFinal _ := rfl

/-- Spends the receipt: five to somebody else, four back, one as fee. -/
def samplePayment : AccountTx where
  vin := [⟨⟨2,0⟩,[],0⟩]
  vout := [⟨Cash.ofMoney (EUR,5),[2]⟩,⟨Cash.ofMoney (EUR,4),[3]⟩]
  GetDepthInMainChain := 1
  plain := by decide
  confirmedFinal _ := rfl

def sampleReceiver : AccountWallet := sampleAccounts ((∅ : ExtTreeMap uint256 AccountTx).insert 2 sampleReceipt)

private theorem receiver_amounts : sampleReceiver.amountsOf sampleReceipt = {listReceived := [(.CKeyID 1,Cash.ofMoney (EUR,10))]} := by
  rfl

private theorem receiver_noFee (c : CashName) : (sampleReceiver.amountsOf sampleReceipt).feeIn c = 0 := by
  rw [receiver_amounts]
  simp [Amounts.feeIn,Cash.feePart]

theorem balances_agree_iff_sample :
    ∃ (reported : Balances) (nBalance : AccountName → Cash) (total : Cash), sampleReceiver.listaccounts 1 = .ok reported ∧
      (∀ account, sampleReceiver.GetAccountBalance account 1 = .ok (nBalance account)) ∧ sampleReceiver.getbalanceAll 1 = .ok total ∧
      (∀ account balance, reported[account]? = some balance → ∀ c, balance.amount c = (nBalance account).amount c) ∧
      ∀ c, ∑ account ∈ sampleReceiver.accounts, (nBalance account).amount c = total.amount c := by
  have succeeds : (sampleReceiver.listaccounts 1).isOk = true := by decide +kernel
  obtain ⟨reported,reports⟩ : ∃ reported, sampleReceiver.listaccounts 1 = .ok reported := by
    cases result : sampleReceiver.listaccounts 1 with
    | ok reported => exact ⟨reported,rfl⟩
    | error e => simp [result,Except.isOk,Except.toBool] at succeeds
  obtain ⟨nBalance,total,balances,totals,agree⟩ := balances_agree_iff sampleReceiver 1 reports
  have txs : sampleReceiver.txs = [sampleReceipt] := rfl
  have entries : sampleReceiver.acentries = [] := rfl
  have final : sampleReceipt.IsFinal = true := rfl
  have confirmed : sampleReceipt.IsConfirmed = true := rfl
  refine ⟨reported,nBalance,total,reports,balances,totals,agree.mpr ⟨fun account _ c => ?_,fun c => ?_⟩⟩
  · simp [strayAccount,txs,strayTxs,final,feeSent,receiver_noFee,ListAccountCreditDebit,entries,creditsOf]
  · simp [strayTotal,txs,strayTotalTxs,final,confirmed,receiver_noFee,ListAccountCreditDebit,entries,creditsOf]

/-- The fee of a payment that comes first in the map is not subtracted by `listaccounts`,
    for which the balance lists no circuit yet. -/
theorem balances_disagree :
    ((sampleAccounts (((∅ : ExtTreeMap uint256 AccountTx).insert 2 sampleReceipt).insert 1 samplePayment)).listaccounts 1).toOption.map
        (fun reported => reported[([] : AccountName)]?.map (Cash.amount · EUR)) = some (some 5) ∧
      ((sampleAccounts (((∅ : ExtTreeMap uint256 AccountTx).insert 2 sampleReceipt).insert 1 samplePayment)).GetAccountBalance [] 1).toOption.map
        (Cash.amount · EUR) = some 4 := by
  decide +kernel

end AccountWallet
end Tetra
