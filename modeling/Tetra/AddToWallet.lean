import Mathlib
import Tetra.KeyPool
import Tetra.OrderedItems
import Tetra.TxEquality
import Tetra.WalletRecords

/-!
How the wallet takes in a transaction: the record is inserted or merged into the one that
is there, stamped with its place and its time, written, and the coins that it spends are
marked. A transaction that is neither the wallet's own nor known only marks coins.
-/
namespace Tetra
open Std (ExtTreeMap ExtTreeSet)

/-- A wallet transaction in memory: its record with the values that were computed already. -/
structure WalletEntry extends WalletRecord where
  nDebitCached : Option Cash := none
  nCreditCached : Option Cash := none
  nAvailableCreditCached : Option Cash := none

abbrev WalletMap := ExtTreeMap uint256 WalletEntry

/-- What the wallet asks of its keys, of the chain and of its database. The keys are those
    that are there before a call: a key that the pool makes meanwhile has been paid nothing. -/
structure WalletNode where
  env : Env
  chain : ChainState := {}
  IsMineScript : CScript → Bool
  nMinimumInputValue : Amount := 1
  GetDepthInMainChain : CMerkleTx → Int
  IsFinal : CTransaction → Bool := fun _ => true
  bSpendZeroConfChange : Bool := true
  /-- `vchPubKey.GetID()` -/
  GetID : Nat → CTxDestination
  SetDestination : CTxDestination → CScript
  keypool : Int := 100
  WriteTx : uint256 → Bool := fun _ => true
  WriteDefaultKey : Bool := true

namespace WalletNode

def IsMine (node : WalletNode) (txout : CTxOut) : Bool := node.IsMineScript txout.scriptPubKey

/-- `IsMine` of a transaction. -/
def IsMineTx (node : WalletNode) (tx : CTransaction) : Bool :=
  tx.vout.any fun txout => node.IsMine txout && txout.nValue.geAmount node.nMinimumInputValue

def GetBlocksToMaturity (node : WalletNode) (tx : CMerkleTx) : Int :=
  if tx.IsCoinBase then max 0 (COINBASE_MATURITY-node.GetDepthInMainChain tx) else 0

/-- `GetCredit` of the outputs, added to what came before. -/
def sumCredit (node : WalletNode) (nCredit : Cash) : List CTxOut → Except Reject Cash
  | [] => .ok nCredit
  | txout :: rest =>
    if MoneyRange txout.nValue = false then .error (.throws "CWallet::GetCredit() : value out of range")
    else
      let nCredit := nCredit.addAssign (if node.IsMine txout then txout.nValue else Cash.ofAmount 0)
      if MoneyRange nCredit = false then .error (.throws "CWallet::GetCredit() : value out of range")
      else sumCredit node nCredit rest

/-- `GetDebit` of one input. -/
def GetDebitIn (node : WalletNode) (mapWallet : WalletMap) (txin : CTxIn) : Cash :=
  match mapWallet[txin.prevout.hash]? with
  | none => Cash.ofAmount 0
  | some prev =>
    match prev.vout[txin.prevout.n]? with
    | none => Cash.ofAmount 0
    | some out => if node.IsMine out then out.nValue else Cash.ofAmount 0

def sumDebit (node : WalletNode) (mapWallet : WalletMap) (nDebit : Cash) : List CTxIn → Except Reject Cash
  | [] => .ok nDebit
  | txin :: rest =>
    let nDebit := nDebit.addAssign (node.GetDebitIn mapWallet txin)
    if MoneyRange nDebit = false then .error (.throws "CWallet::GetDebit() : value out of range")
    else sumDebit node mapWallet nDebit rest

def GetDebit (node : WalletNode) (mapWallet : WalletMap) (tx : CTransaction) : Except Reject Cash :=
  node.sumDebit mapWallet (Cash.ofAmount 0) tx.vin

/-- `IsFromMe` of a transaction. -/
def IsFromMe (node : WalletNode) (mapWallet : WalletMap) (tx : CTransaction) : Except Reject Bool :=
  match node.GetDebit mapWallet tx with
  | .error e => .error e
  | .ok nDebit => .ok (nDebit.gtAmount 0)

end WalletNode

namespace WalletEntry

/-- `CWalletTx(pwallet,tx)` -/
def ofTransaction (tx : CTransaction) : WalletEntry := {tx with}

/-- The same, with the merkle branch if the transaction was found in a block. -/
def found (node : WalletNode) (tx : CTransaction) (pblock : Option CBlock) : WalletEntry :=
  let wtx := ofTransaction tx
  match pblock with
  | none => wtx
  | some block => {wtx with toCMerkleTx := (CMerkleTx.SetMerkleBranch node.env node.chain wtx.toCMerkleTx (some block)).2}

def MarkDirty (wtx : WalletEntry) : WalletEntry :=
  {wtx with nDebitCached := none,nCreditCached := none,nAvailableCreditCached := none}

/-- The pointer to the wallet apart. -/
def BindWallet (wtx : WalletEntry) : WalletEntry := wtx.MarkDirty

def IsSpent (wtx : WalletEntry) (nOut : Nat) : Bool := wtx.vfSpent[nOut]?.getD false

/-- `vfSpent.resize(vout.size())`, and the flag is set. -/
def setSpent (wtx : WalletEntry) (nOut : Nat) : WalletEntry :=
  {wtx with
    vfSpent := (wtx.vfSpent.takeD wtx.vout.length false).set nOut true
    nAvailableCreditCached := if wtx.IsSpent nOut then wtx.nAvailableCreditCached else none}

def MarkSpent (wtx : WalletEntry) (nOut : Nat) : Except Reject WalletEntry :=
  if nOut ≥ wtx.vout.length then .error (.throws "CWalletTx::MarkSpent() : nOut out of range") else .ok (wtx.setSpent nOut)

/-- The loop of `UpdateSpent`: the flags, and whether one is new. -/
def raiseFlags : List Bool → List Bool → List Bool × Bool
  | old :: olds,new :: news =>
    let (rest,fReturn) := raiseFlags olds news
    ((old || new) :: rest,(new && !old) || fReturn)
  | olds,_ => (olds,false)

def UpdateSpent (wtx : WalletEntry) (vfNewSpent : List Bool) : WalletEntry × Bool :=
  let (vfSpent,fReturn) := raiseFlags wtx.vfSpent vfNewSpent
  ({wtx with vfSpent := vfSpent,nAvailableCreditCached := if fReturn then none else wtx.nAvailableCreditCached},fReturn)

/-- What `AddToWallet` takes over of `wtxIn` when there is a record, and whether it took anything. -/
def merge (wtx wtxIn : WalletEntry) : WalletEntry × Bool :=
  let block := decide (wtxIn.hashBlock ≠ 0 ∧ wtxIn.hashBlock ≠ wtx.hashBlock)
  let place := decide (wtxIn.nIndex ≠ -1 ∧ (wtxIn.vMerkleBranch ≠ wtx.vMerkleBranch ∨ wtxIn.nIndex ≠ wtx.nIndex))
  let own := decide (wtxIn.fFromMe ≠ 0 ∧ wtxIn.fFromMe ≠ wtx.fFromMe)
  let (updated,spent) := wtx.UpdateSpent wtxIn.vfSpent
  ({updated with
    hashBlock := if block then wtxIn.hashBlock else wtx.hashBlock
    vMerkleBranch := if place then wtxIn.vMerkleBranch else wtx.vMerkleBranch
    nIndex := if place then wtxIn.nIndex else wtx.nIndex
    fFromMe := if own then wtxIn.fFromMe else wtx.fFromMe},block || place || own || spent)

/-- `GetCredit`, and the record with what it keeps. -/
def GetCredit (node : WalletNode) (wtx : WalletEntry) : Except Reject Cash × WalletEntry :=
  if wtx.IsCoinBase && decide (node.GetBlocksToMaturity wtx.toCMerkleTx > 0) then (.ok (Cash.ofAmount 0),wtx)
  else
    match wtx.nCreditCached with
    | some nCredit => (.ok nCredit,wtx)
    | none =>
      match node.sumCredit (Cash.ofAmount 0) wtx.vout with
      | .error e => (.error e,wtx)
      | .ok nCredit => (.ok nCredit,{wtx with nCreditCached := some nCredit})

/-- What `WalletUpdateSpent` does to the record whose output an input spends. -/
def foundSpent (node : WalletNode) (wtx : WalletEntry) (nOut : Nat) : Except Reject WalletEntry :=
  match wtx.vout[nOut]? with
  | none => .ok wtx
  | some out =>
    if !wtx.IsSpent nOut && node.IsMine out then
      match wtx.GetCredit node with
      | (.error e,_) => .error e
      | (.ok _,wtx) => wtx.MarkSpent nOut
    else .ok wtx

end WalletEntry

namespace WalletNode

/-- The loop of `WalletUpdateSpent`. That a record could not be written stops nothing. -/
def WalletUpdateSpent (node : WalletNode) : List CTxIn → WalletMap → Except Reject Unit × WalletMap
  | [],mapWallet => (.ok (),mapWallet)
  | txin :: rest,mapWallet =>
    match mapWallet[txin.prevout.hash]? with
    | none => WalletUpdateSpent node rest mapWallet
    | some wtx =>
      match wtx.foundSpent node txin.prevout.n with
      | .error e => (.error e,mapWallet)
      | .ok wtx => WalletUpdateSpent node rest (mapWallet.insert txin.prevout.hash wtx)

end WalletNode

/-- The wallet as it runs. -/
structure LiveWallet where
  mapWallet : WalletMap := ∅
  nOrderPosNext : Int64 := 0
  /-- The accounting entries of the database, in the order of their keys. -/
  acentries : List AccountingRecord := []
  pool : KeyPool := {}
  mapAddressBook : ExtTreeMap CTxDestination AccountName := ∅
  mapRequestCount : ExtTreeMap uint256 Int := ∅

abbrev LiveItem := TxPair WalletEntry AccountingRecord

namespace LiveItem

/-- Whether the item is this transaction. -/
def isTx (hash : uint256) : LiveItem → Bool
  | .tx other _ => other == hash
  | .entry _ => false

def nSmartTime : LiveItem → Int
  | .tx _ wtx => if wtx.nTimeSmart = 0 then wtx.nTimeReceived else wtx.nTimeSmart
  | .entry acentry => acentry.nTime.toInt

end LiveItem

/-- The loop over the history, newest first: `latestEntry` and `latestNow` after it. -/
def latestEntry (hash : uint256) (latestNow : Nat) : List LiveItem → Nat × Nat
  | [] => (0,latestNow)
  | item :: rest =>
    let nSmartTime := LiveItem.nSmartTime item
    if LiveItem.isTx hash item then latestEntry hash latestNow rest
    -- The sum is one of unsigned integers.
    else if nSmartTime ≤ ((latestNow+300)%2^32 : Nat) then
      ((nSmartTime%2^32).toNat,if nSmartTime > latestNow then nSmartTime.toNat else latestNow)
    else latestEntry hash latestNow rest

namespace LiveWallet

def OrderedTxItems (w : LiveWallet) : TxItems WalletEntry AccountingRecord :=
  TxItems.fill (fun wtx => wtx.nOrderPos.toInt) (fun acentry => acentry.nOrderPos.toInt) w.mapWallet.toList
    (w.acentries.filter fun acentry => acentry.strAccount == [])

/-- A new record goes in, with its place and its times. -/
def insertNew (node : WalletNode) (w : LiveWallet) (now : Int) (hash : uint256) (wtxIn : WalletEntry) : LiveWallet :=
  let nTimeReceived := (now%2^32).toNat
  let wtx := {wtxIn.BindWallet with nTimeReceived := nTimeReceived,nOrderPos := w.nOrderPosNext,nTimeSmart := nTimeReceived}
  let w := {w with mapWallet := w.mapWallet.insert hash wtx,nOrderPosNext := w.nOrderPosNext+1}
  if wtxIn.hashBlock = 0 then w
  else
    match node.chain.mapBlockIndex[wtxIn.hashBlock]? with
    | none => w
    | some pindex =>
      let latest := latestEntry hash nTimeReceived (w.OrderedTxItems.map Prod.snd).reverse
      {w with mapWallet := w.mapWallet.insert hash {wtx with nTimeSmart := max latest.1 (min pindex.nTime latest.2)}}

/-- Every output that pays to the default key of before the call gets a new default key,
    if there is one. -/
def replaceDefaultKey (node : WalletNode) (scriptDefaultKey : CScript) : List CTxOut → LiveWallet → Except Reject Unit × LiveWallet
  | [],w => (.ok (),w)
  | txout :: rest,w =>
    if txout.scriptPubKey = scriptDefaultKey then
      match w.pool.GetKeyFromPool node.keypool false with
      | (.error e,pool,_) => (.error e,{w with pool := pool})
      | (.ok none,pool,_) => replaceDefaultKey node scriptDefaultKey rest {w with pool := pool}
      | (.ok (some newDefaultKey),pool,_) =>
        let pool := if node.WriteDefaultKey then {pool with vchDefaultKey := some newDefaultKey} else pool
        let mapAddressBook := match pool.vchDefaultKey with
          | some vchDefaultKey => w.mapAddressBook.insert (node.GetID vchDefaultKey) []
          | none => w.mapAddressBook
        replaceDefaultKey node scriptDefaultKey rest {w with pool := pool,mapAddressBook := mapAddressBook}
    else replaceDefaultKey node scriptDefaultKey rest w

/-- The default receiving address is replaced if it is used. -/
def useDefaultKey (node : WalletNode) (w : LiveWallet) (vout : List CTxOut) : Except Reject Unit × LiveWallet :=
  match w.pool.vchDefaultKey with
  | none => (.ok (),w)
  | some vchDefaultKey => replaceDefaultKey node (node.SetDestination (node.GetID vchDefaultKey)) vout w

/-- What follows once the record is in the map and written: the default key, and the
    coins that the transaction spends. -/
def settle (node : WalletNode) (w : LiveWallet) (wtx : WalletEntry) : Except Reject Bool × LiveWallet :=
  match w.useDefaultKey node wtx.vout with
  | (.error e,w) => (.error e,w)
  | (.ok (),w) =>
    match node.WalletUpdateSpent wtx.vin w.mapWallet with
    | (.error e,mapWallet) => (.error e,{w with mapWallet := mapWallet})
    | (.ok (),mapWallet) => (.ok true,{w with mapWallet := mapWallet})

def AddToWallet (node : WalletNode) (w : LiveWallet) (now : Int) (wtxIn : WalletEntry) : Except Reject Bool × LiveWallet :=
  let hash := node.env.TxHash wtxIn.toCTransaction
  match w.mapWallet[hash]? with
  | none =>
    let w := w.insertNew node now hash wtxIn
    if node.WriteTx hash then w.settle node wtxIn else (.ok false,w)
  | some wtx =>
    let (wtx,fUpdated) := wtx.BindWallet.merge wtxIn
    let w := {w with mapWallet := w.mapWallet.insert hash wtx}
    if fUpdated && !node.WriteTx hash then (.ok false,w) else w.settle node wtx

/-- `hash` is that of the transaction. -/
def AddToWalletIfInvolvingMe (node : WalletNode) (w : LiveWallet) (now : Int) (tx : CTransaction) (pblock : Option CBlock)
    (fUpdate : Bool) : Except Reject Bool × LiveWallet :=
  let fExisted := w.mapWallet.contains (node.env.TxHash tx)
  if fExisted && !fUpdate then (.ok false,w)
  else
    match node.IsFromMe w.mapWallet tx with
    | .error e => (.error e,w)
    | .ok fFromMe =>
      if fExisted || node.IsMineTx tx || fFromMe then
        w.AddToWallet node now (.found node tx pblock)
      else
        match node.WalletUpdateSpent tx.vin w.mapWallet with
        | (.error e,mapWallet) => (.error e,{w with mapWallet := mapWallet})
        | (.ok (),mapWallet) => (.ok false,{w with mapWallet := mapWallet})

end LiveWallet

/-- Whether the wallet has an output marked as spent. -/
def WalletMap.spent (mapWallet : WalletMap) (out : COutPoint) : Bool :=
  match mapWallet[out.hash]? with
  | none => false
  | some wtx => decide (out.n < wtx.vout.length) && wtx.IsSpent out.n

/-! ### What the operations keep -/

namespace KeyPool

/-- Every index of the pool has its record, and the records hold keys that were made. -/
structure Backed (s : KeyPool) : Prop where
  records : ∀ nIndex ∈ s.setKeyPool, ∃ key, s.walletdb[nIndex]? = some key
  known : ∀ (nIndex : Int) key, s.walletdb[nIndex]? = some key → key < s.nKeys

section
variable {s : KeyPool}

theorem Backed.addKey (backed : Backed s) (nIndex : Int) : Backed (s.addKey nIndex).1 where
  records i member := by
    rcases set_insert.mp member with rfl | old
    · exact ⟨s.nKeys,Maps.insert_self _ _⟩
    · exact Maps.found_insert _ (backed.records i old)
  known i key found := by
    rcases Maps.insert_some_iff.mp found with ⟨-,rfl⟩ | ⟨-,old⟩
    · exact Nat.lt_succ_self _
    · exact Nat.lt_succ_of_lt (backed.known i key old)

theorem Backed.topUp (size fuel : Nat) (backed : Backed s) : Backed (s.topUp size fuel).1 := by
  induction fuel generalizing s with
  | zero => exact backed
  | succ fuel ih =>
    unfold KeyPool.topUp
    split
    · exact ih (backed.addKey _)
    · exact backed

theorem Backed.top (keypool : Int) (backed : Backed s) : Backed (if s.IsLocked then (s,[]) else (s.TopUpKeyPool keypool).2 : KeyPool × List PoolEvent).1 := by
  split
  · exact backed
  · unfold KeyPool.TopUpKeyPool
    split
    · exact backed
    · exact backed.topUp _ _

/-- A key is handed out without an exception. -/
theorem Backed.GetKeyFromPool (keypool : Int) (backed : Backed s) (fAllowReuse : Bool) :
    (∃ key, (s.GetKeyFromPool keypool fAllowReuse).1 = .ok key) ∧ Backed (s.GetKeyFromPool keypool fAllowReuse).2.1 := by
  have topped := backed.top keypool
  unfold KeyPool.GetKeyFromPool KeyPool.ReserveKeyFromKeyPool
  dsimp only
  generalize (if s.IsLocked then (s,[]) else (s.TopUpKeyPool keypool).2 : KeyPool × List PoolEvent) = top at topped
  obtain ⟨s,events⟩ := top
  dsimp only at topped ⊢
  cases first : s.setKeyPool.toList.head? with
  | none =>
    dsimp only
    split
    · exact ⟨⟨_,rfl⟩,topped⟩
    · split
      · exact ⟨⟨_,rfl⟩,topped⟩
      · exact ⟨⟨_,rfl⟩,⟨topped.records,fun i key found => Nat.lt_succ_of_lt (topped.known i key found)⟩⟩
  | some nIndex =>
    have member : nIndex ∈ s.setKeyPool := ExtTreeSet.mem_toList.mp (List.mem_of_mem_head? first)
    obtain ⟨key,found⟩ := topped.records nIndex member
    simp only [found,topped.known nIndex key found,if_true]
    refine ⟨⟨_,rfl⟩,⟨fun i inside => ?_,fun i other held => topped.known i other (of_db_erase held)⟩⟩
    obtain ⟨apart,inside⟩ := set_erase.mp inside
    obtain ⟨other,held⟩ := topped.records i inside
    exact ⟨other,Maps.erase_some_iff.mpr ⟨Ne.symm apart,held⟩⟩

end
end KeyPool

theorem takeD_flag (vfSpent : List Bool) (size i : Nat) :
    (vfSpent.takeD size false)[i]?.getD false = (decide (i < size) && vfSpent[i]?.getD false) := by
  induction size generalizing vfSpent i with
  | zero => simp
  | succ size ih =>
    cases i with
    | zero => cases vfSpent <;> simp
    | succ i =>
      rw [List.takeD_succ,List.getElem?_cons_succ,ih]
      cases vfSpent <;> simp

namespace WalletEntry
variable (node : WalletNode) (wtx : WalletEntry)

/-- Whether an output is one of the wallet that is not marked yet. -/
def due (nOut : Nat) : Bool :=
  match wtx.vout[nOut]? with
  | none => false
  | some out => !wtx.IsSpent nOut && node.IsMine out

/-- What `GetCredit` leaves in the cache, unless it throws. -/
def creditKept : Except Reject (Option Cash) :=
  if wtx.IsCoinBase && decide (node.GetBlocksToMaturity wtx.toCMerkleTx > 0) then .ok wtx.nCreditCached
  else
    match wtx.nCreditCached with
    | some nCredit => .ok (some nCredit)
    | none => (node.sumCredit (Cash.ofAmount 0) wtx.vout).map some

/-- The record with an output marked that was not. -/
def marks (nOut : Nat) (nCreditCached : Option Cash) : WalletEntry :=
  {wtx with
    nCreditCached := nCreditCached
    vfSpent := (wtx.vfSpent.takeD wtx.vout.length false).set nOut true
    nAvailableCreditCached := none}

theorem foundSpent_eq (nOut : Nat) :
    wtx.foundSpent node nOut = if wtx.due node nOut then (wtx.creditKept node).map (wtx.marks nOut) else .ok wtx := by
  unfold foundSpent due
  cases found : wtx.vout[nOut]? with
  | none => rfl
  | some out =>
    have inside : nOut < wtx.vout.length := (List.getElem?_eq_some_iff.mp found).1
    dsimp only
    by_cases unspent : (!wtx.IsSpent nOut && node.IsMine out) = true
    · have fresh : wtx.IsSpent nOut = false := by simpa using (Bool.and_eq_true_iff.mp unspent).1
      have step : ∀ kept, ({wtx with nCreditCached := kept} : WalletEntry).MarkSpent nOut = .ok (wtx.marks nOut kept) := by
        intro kept
        have free : ({wtx with nCreditCached := kept} : WalletEntry).IsSpent nOut = false := fresh
        simp [MarkSpent,setSpent,marks,free,Nat.not_le.mpr inside]
      rw [if_pos unspent,if_pos unspent]
      unfold GetCredit creditKept
      by_cases young : (wtx.IsCoinBase && decide (node.GetBlocksToMaturity wtx.toCMerkleTx > 0)) = true
      · rw [if_pos young,if_pos young]
        exact step wtx.nCreditCached
      · rw [if_neg young,if_neg young]
        cases cached : wtx.nCreditCached with
        | some nCredit =>
          have same : wtx.MarkSpent nOut = .ok (wtx.marks nOut (some nCredit)) := by
            rw [← cached]
            exact step wtx.nCreditCached
          simpa only [cached,Except.map] using same
        | none =>
          cases node.sumCredit (Cash.ofAmount 0) wtx.vout with
          | error e => rfl
          | ok nCredit => exact step (some nCredit)
    · rw [if_neg unspent,if_neg unspent]

/-- Only an output that has a flag is spent. -/
theorem inside_of_IsSpent {wtx : WalletEntry} {nOut : Nat} (spent : wtx.IsSpent nOut = true) : nOut < wtx.vfSpent.length := by
  by_contra outside
  rw [IsSpent,List.getElem?_eq_none (Nat.not_lt.mp outside)] at spent
  contradiction

theorem marks_IsSpent (nOut i : Nat) (kept : Option Cash) (inside : nOut < wtx.vout.length) :
    (wtx.marks nOut kept).IsSpent i = (decide (i = nOut) || (decide (i < wtx.vout.length) && wtx.IsSpent i)) := by
  unfold IsSpent marks
  by_cases same : i = nOut
  · subst same
    simp [List.takeD_length,inside]
  · simp only [List.getElem?_set_ne (Ne.symm same),takeD_flag,same,decide_false,Bool.false_or]

theorem due_inside {nOut : Nat} (due : wtx.due node nOut = true) : nOut < wtx.vout.length := by
  unfold WalletEntry.due at due
  split at due
  · contradiction
  next found => exact (List.getElem?_eq_some_iff.mp found).1

/-- What is kept is what a later call gives. -/
theorem creditKept_marks {kept : Option Cash} (keeps : wtx.creditKept node = .ok kept) (nOut : Nat) :
    (wtx.marks nOut kept).creditKept node = .ok kept := by
  unfold creditKept at keeps ⊢
  have same : (wtx.marks nOut kept).IsCoinBase = wtx.IsCoinBase ∧
      node.GetBlocksToMaturity (wtx.marks nOut kept).toCMerkleTx = node.GetBlocksToMaturity wtx.toCMerkleTx := ⟨rfl,rfl⟩
  rw [same.1,same.2]
  split at keeps
  next young => rw [if_pos young]; rfl
  next old =>
    rw [if_neg old]
    cases cached : wtx.nCreditCached with
    | some nCredit =>
      rw [cached] at keeps
      obtain rfl := Except.ok.inj keeps
      rfl
    | none =>
      rw [cached] at keeps
      cases sum : node.sumCredit (Cash.ofAmount 0) wtx.vout with
      | error e => simp [sum,Except.map] at keeps
      | ok nCredit =>
        have : kept = some nCredit := by simpa [sum,Except.map] using keeps.symm
        rw [this]
        rfl

/-- A record without its place and its times. -/
def untimed (wtx : WalletEntry) : WalletEntry := {wtx with nTimeReceived := 0,nTimeSmart := 0,nOrderPos := -1}

theorem found_tx (tx : CTransaction) (pblock : Option CBlock) : (found node tx pblock).toCTransaction = tx := by
  have merkle : ∀ wtx : CMerkleTx, ∀ block, (CMerkleTx.SetMerkleBranch node.env node.chain wtx (some block)).2.toCTransaction = wtx.toCTransaction := by
    intro wtx block
    unfold CMerkleTx.SetMerkleBranch
    dsimp only
    split <;> rfl
  unfold found
  dsimp only
  split
  · rfl
  · exact merkle _ _

end WalletEntry

section
variable {node : WalletNode} {m m' : WalletMap}

/-- The debit of a transaction depends on the outputs of its parents only. -/
theorem GetDebit_congr {tx : CTransaction}
    (same : ∀ txin ∈ tx.vin, (m'[txin.prevout.hash]?.map fun wtx => wtx.vout) = m[txin.prevout.hash]?.map fun wtx => wtx.vout) :
    node.GetDebit m' tx = node.GetDebit m tx := by
  have one : ∀ txin ∈ tx.vin, node.GetDebitIn m' txin = node.GetDebitIn m txin := by
    intro txin member
    have outs := same txin member
    unfold WalletNode.GetDebitIn
    cases here : m[txin.prevout.hash]? with
    | none =>
      rw [here,Option.map_none,Option.map_eq_none_iff] at outs
      rw [outs]
    | some prev =>
      rw [here,Option.map_some,Option.map_eq_some_iff] at outs
      obtain ⟨prev',there,vout⟩ := outs
      rw [there]
      dsimp only
      rw [vout]
  have sums : ∀ (vin : List CTxIn) nDebit, (∀ txin ∈ vin, txin ∈ tx.vin) → node.sumDebit m' nDebit vin = node.sumDebit m nDebit vin := by
    intro vin
    induction vin with
    | nil => intro nDebit _; rfl
    | cons txin rest ih =>
      intro nDebit inside
      unfold WalletNode.sumDebit
      rw [one txin (inside txin (List.mem_cons_self ..))]
      dsimp only
      rw [ih _ fun other later => inside other (List.mem_cons_of_mem _ later)]
  exact sums tx.vin _ fun _ member => member

theorem IsFromMe_congr {tx : CTransaction}
    (same : ∀ txin ∈ tx.vin, (m'[txin.prevout.hash]?.map fun wtx => wtx.vout) = m[txin.prevout.hash]?.map fun wtx => wtx.vout) :
    node.IsFromMe m' tx = node.IsFromMe m tx := by
  unfold WalletNode.IsFromMe
  rw [GetDebit_congr same]

namespace LiveWallet

theorem insertNew_spec (w : LiveWallet) (now : Int) (hash : uint256) (wtxIn : WalletEntry) :
    (∃ wtx, (w.insertNew node now hash wtxIn).mapWallet = w.mapWallet.insert hash wtx ∧ wtx.untimed = wtxIn.BindWallet.untimed) ∧
      (w.insertNew node now hash wtxIn).pool = w.pool ∧ (w.insertNew node now hash wtxIn).nOrderPosNext = w.nOrderPosNext+1 := by
  unfold insertNew
  dsimp only
  split
  · exact ⟨⟨_,rfl,rfl⟩,rfl,rfl⟩
  · split
    · exact ⟨⟨_,rfl,rfl⟩,rfl,rfl⟩
    · exact ⟨⟨_,Maps.insert_again ..,rfl⟩,rfl,rfl⟩

end LiveWallet
end

/-- A node with one script of its own, whose blocks are all deep enough. -/
def sampleNode : WalletNode where
  env := ⟨fun tx => tx.nLockTime,fun _ => 0,fun _ _ => 0,fun _ _ _ _ _ => true,fun _ _ _ => true⟩
  IsMineScript := fun script => script == [1]
  GetDepthInMainChain := fun _ => 1
  GetID := .CKeyID
  SetDestination := fun dest => [UInt8.ofNat dest.id]

end Tetra
