import Mathlib
import Tetra.Ancestry
import Tetra.Mempool
import Tetra.Undo

/-!
The block tree and the chain that is active in it: taking a block into the tree, looking
for the best chain, and moving the coins, the links of the tree and the memory pool to
it. What the disk does at each call is given from outside.
-/
namespace Tetra
open Std Ancestry

/-- An index entry with what else the database keeps of it. -/
structure IndexEntry extends CBlockIndex where
  nFile : Nat
  nDataPos : Nat
  nUndoPos : Nat := 0
  nTx : Nat := 0
  nChainTx : Nat := 0
  nBits : Nat := 0
  nNonce : Nat := 0
deriving DecidableEq

structure CDiskBlockPos where
  nFile : Nat
  nPos : Nat
deriving DecidableEq

instance diskPosOrd : Ord CDiskBlockPos := ⟨compareLex (compareOn CDiskBlockPos.nFile) (compareOn CDiskBlockPos.nPos)⟩
instance diskPosTransOrd : TransOrd CDiskBlockPos :=
  inferInstanceAs (TransCmp (compareLex (compareOn CDiskBlockPos.nFile) (compareOn CDiskBlockPos.nPos)))
instance diskPosLawfulEqOrd : LawfulEqOrd CDiskBlockPos where
  eq_of_compare {a b} same := by
    have both : compare a.nFile b.nFile = .eq ∧ compare a.nPos b.nPos = .eq := by
      simpa [compare,compareLex,compareOn,Ordering.then_eq_eq] using same
    rw [Std.compare_eq_iff_eq,Std.compare_eq_iff_eq] at both
    cases a; cases b
    simp_all

def IndexEntry.GetBlockPos (pindex : IndexEntry) : Option CDiskBlockPos :=
  if pindex.BLOCK_HAVE_DATA then some ⟨pindex.nFile,pindex.nDataPos⟩ else none
def IndexEntry.GetUndoPos (pindex : IndexEntry) : Option CDiskBlockPos :=
  if pindex.BLOCK_HAVE_UNDO then some ⟨pindex.nFile,pindex.nUndoPos⟩ else none

/-- A record of the block tree database. -/
structure CDiskBlockIndex where
  hashPrev : uint256
  nHeight : Nat
  nValid : Nat
  BLOCK_HAVE_DATA : Bool
  BLOCK_HAVE_UNDO : Bool
  BLOCK_FAILED_VALID : Bool
  BLOCK_FAILED_CHILD : Bool
  nTx : Nat
  nFile : Nat
  nDataPos : Nat
  nUndoPos : Nat
  nVersion : Int
  hashMerkleRoot : uint256
  nTime : Nat
  nBits : Nat
  nNonce : Nat
deriving DecidableEq

namespace CDiskBlockIndex

/-- The constructor from a pointer. -/
def ofEntry (pindex : IndexEntry) : CDiskBlockIndex :=
  {pindex with hashPrev := pindex.pprev.getD 0}

/-- What is read back of a record: positions that are not written come back as 0. -/
def stored (diskindex : CDiskBlockIndex) : CDiskBlockIndex :=
  {diskindex with
    nFile := if diskindex.BLOCK_HAVE_DATA || diskindex.BLOCK_HAVE_UNDO then diskindex.nFile else 0
    nDataPos := if diskindex.BLOCK_HAVE_DATA then diskindex.nDataPos else 0
    nUndoPos := if diskindex.BLOCK_HAVE_UNDO then diskindex.nUndoPos else 0}

def GetBlockHash (env : Env) (diskindex : CDiskBlockIndex) : uint256 :=
  env.BlockHash ⟨diskindex.nVersion,diskindex.hashPrev,diskindex.hashMerkleRoot,diskindex.nTime⟩

end CDiskBlockIndex

/-- What `CBlockIndexWorkComparator` looks at of a pointer: of two blocks at one height
    the one with the smaller hash comes later. -/
structure WorkKey where
  nHeight : Nat
  hash : uint256
deriving DecidableEq

instance workOrd : Ord WorkKey := ⟨compareLex (compareOn WorkKey.nHeight) (fun a b => compare b.hash a.hash)⟩
instance workTransOrd : TransOrd WorkKey := by
  have swapped : TransCmp fun a b : WorkKey => compare b.hash a.hash :=
    inferInstanceAs (TransCmp fun a b => compareOn WorkKey.hash b a)
  exact inferInstanceAs (TransCmp (compareLex (compareOn WorkKey.nHeight) fun a b => compare b.hash a.hash))
instance workLawfulEqOrd : LawfulEqOrd WorkKey where
  eq_of_compare {a b} same := by
    have both : compare a.nHeight b.nHeight = .eq ∧ compare b.hash a.hash = .eq := by
      simpa [compare,compareLex,compareOn,Ordering.then_eq_eq] using same
    rw [Std.compare_eq_iff_eq,Std.compare_eq_iff_eq] at both
    cases a; cases b
    simp_all

/-- What a call of the node meets outside: clocks, and what the disk does. -/
structure Surroundings where
  ambient : Ambient := {GetAdjustedTime := 0}
  /-- The moment of each call of `AcceptToMemoryPool`. -/
  now : Nat → Moment := fun _ => ⟨0,false⟩
  ReadBlock : uint256 → Bool := fun _ => true
  ReadUndo : uint256 → Bool := fun _ => true
  disk : uint256 → DiskWrites := fun _ => {}
  /-- Where `FindUndoPos` puts the undo data of a block. -/
  nUndoPos : uint256 → Nat := fun _ => 0
  WriteBlockIndex : uint256 → Bool := fun _ => true
  fIsInitialDownload : Bool := false
  /-- `pcoinsTip->GetCacheSize() > nCoinCacheSize` -/
  fCacheFull : Bool := false
  CheckDiskSpace : Bool := true
  /-- `pblocktree->Sync()` -/
  SyncTree : Bool := true
  /-- `pcoinsTip->Flush()` -/
  FlushCoins : Bool := true
  /-- `pblocktree->Flush()` -/
  FlushTree : Bool := true
  FindBlockPos : Option CDiskBlockPos := some ⟨0,8⟩
  WriteToDisk : Bool := true
  /-- What `GetBlockValue` makes of the signer of a block. -/
  signerValue : uint256 → Int64 := fun _ => 0

/-- The chain state that starts out: no coins and no blocks. -/
def noCoins : CCoinsView := ⟨fun _ => none,none⟩

/-- Pointers to index entries are hashes; `calls` counts the calls that looked outside. -/
structure ChainState where
  mapBlockIndex : ExtTreeMap uint256 IndexEntry := ∅
  setBlockIndexValid : ExtTreeSet WorkKey := ∅
  pindexGenesisBlock : Option uint256 := none
  pindexBest : Option uint256 := none
  pcoinsTip : CCoinsViewCache := {base := noCoins}
  mempool : CTxMemPool := {}
  blkFiles : ExtTreeMap CDiskBlockPos CBlock := ∅
  revFiles : ExtTreeMap CDiskBlockPos (uint256 × CBlockUndo) := ∅
  blocktree : ExtTreeMap uint256 CDiskBlockIndex := ∅
  calls : Nat := 0

/-- A state, and how the call that led to it returned. -/
structure Returned where
  state : ChainState
  result : Except Reject Unit

/-- An assertion fails and the process ends. -/
def Reject.IsAssert : Reject → Bool
  | .asserts _ => true
  | .within _ cause => cause.IsAssert
  | _ => false

/-- A caller adds its text to an error, and lets an exception pass. -/
def Reject.inside (message : String) : Reject → Reject
  | .throws text => .throws text
  | cause => .within message cause

/-- The exception of a write that fails. -/
def databaseError : Reject := .throws "Database I/O error"

namespace CTxMemPool

/-- The end of `remove`: the transaction itself. -/
def drop (env : Env) (pool : CTxMemPool) (tx : CTransaction) : CTxMemPool :=
  if env.TxHash tx ∈ pool.mapTx then
    ⟨pool.mapTx.erase (env.TxHash tx),tx.vin.foldl (fun mapNextTx txin => mapNextTx.erase txin.prevout) pool.mapNextTx⟩
  else pool

/-- `remove(tx, true)`. Every call below is for a transaction that spends from this one,
    so the size of the pool is enough fuel. -/
def removeRecursive (env : Env) : Nat → CTxMemPool → CTransaction → CTxMemPool
  | 0, pool, tx => pool.drop env tx
  | fuel+1, pool, tx =>
    ((List.range tx.vout.length).foldl (fun pool i =>
      match (pool.mapNextTx[(⟨env.TxHash tx,i⟩ : COutPoint)]?).bind fun spender => pool.mapTx[spender.1]? with
      | none => pool
      | some child => removeRecursive env fuel pool child) pool).drop env tx

def remove (env : Env) (pool : CTxMemPool) (tx : CTransaction) (fRecursive : Bool) : CTxMemPool :=
  if fRecursive then removeRecursive env pool.mapTx.size pool tx else pool.drop env tx

def removeConflicts (env : Env) (pool : CTxMemPool) (tx : CTransaction) : CTxMemPool :=
  tx.vin.foldl (fun pool txin =>
    match (pool.mapNextTx[txin.prevout]?).bind fun spender => pool.mapTx[spender.1]? with
    | none => pool
    | some txConflict => if txConflict.eq tx then pool else pool.remove env txConflict true) pool

end CTxMemPool

namespace ChainState
variable (rules : PoolRules) (world : Nat → Surroundings)

/-- `pprev` of a block, as it is linked in the tree. -/
def parent (s : ChainState) (hash : uint256) : Option uint256 := (s.mapBlockIndex[hash]?).bind fun pindex => pindex.pprev
def next (s : ChainState) (hash : uint256) : Option uint256 := (s.mapBlockIndex[hash]?).bind fun pindex => pindex.pnext
def height (s : ChainState) (hash : uint256) : Nat := ((s.mapBlockIndex[hash]?).map fun pindex => pindex.nHeight).getD 0

/-- What the node finds outside at this call. -/
def look (s : ChainState) : Surroundings × ChainState := (world s.calls,{s with calls := s.calls+1})

/-- More than any loop along the tree takes. -/
def turns (s : ChainState) : Nat := s.mapBlockIndex.size+1

def setEntry (s : ChainState) (hash : uint256) (pindex : IndexEntry) : ChainState :=
  {s with mapBlockIndex := s.mapBlockIndex.insert hash pindex}

/-- `pblocktree->WriteBlockIndex(CDiskBlockIndex(pindex))` -/
def writeIndex (env : Env) (s : ChainState) (pindex : IndexEntry) : ChainState :=
  {s with blocktree := s.blocktree.insert ((CDiskBlockIndex.ofEntry pindex).GetBlockHash env) (CDiskBlockIndex.ofEntry pindex).stored}

/-- `setBlockIndexValid.erase(pindex)` -/
def eraseValid (s : ChainState) (hash : uint256) (pindex : IndexEntry) : ChainState :=
  {s with setBlockIndexValid := s.setBlockIndexValid.erase ⟨pindex.nHeight,hash⟩}

/-- `block.ReadFromDisk(pindex)` -/
def ReadFromDisk (env : Env) (w : Surroundings) (s : ChainState) (pindex : IndexEntry) : Option CBlock :=
  if w.ReadBlock pindex.hashBlock = false then none
  else ((pindex.GetBlockPos).bind fun pos => s.blkFiles[pos]?).filter fun block => block.GetHash env == pindex.hashBlock

/-- `blockUndo.ReadFromDisk(pos, pindex->pprev->GetBlockHash())` -/
def ReadUndo (w : Surroundings) (s : ChainState) (pindex : IndexEntry) : Option CBlockUndo :=
  if w.ReadUndo pindex.hashBlock = false then none
  else (((pindex.GetUndoPos).bind fun pos => s.revFiles[pos]?).filter fun written => some written.1 == pindex.pprev).map Prod.snd

/-- The inner loop of the search for the fork: down to a height. -/
def descend (s : ChainState) (nHeight : Nat) : Nat → uint256 → Option uint256
  | fuel, plonger =>
    if s.height plonger > nHeight then
      match fuel, s.parent plonger with
      | fuel+1, some pprev => descend s nHeight fuel pprev
      | _, _ => none
    else some plonger

/-- The search for the fork. The result is none where an assertion fails; every turn
    takes `pfork` down by one. -/
def findFork (s : ChainState) : Nat → Option uint256 → uint256 → Option (Option uint256)
  | _, none, _ => some none
  | fuel, some pfork, plonger =>
    if pfork = plonger then some (some pfork)
    else
      match descend s (s.height pfork) s.turns plonger with
      | none => none
      | some plonger =>
        if pfork = plonger then some (some pfork)
        else
          match fuel, s.parent pfork with
          | fuel+1, some pprev => findFork s fuel (some pprev) plonger
          | _, _ => none

/-- The loop that disconnects the shorter branch; it collects `vResurrect`. -/
def disconnectBlocks (env : Env) (w : Surroundings) (s : ChainState) (view : CCoinsViewCache) (vResurrect : List CTransaction) :
    List uint256 → Except Reject (CCoinsViewCache × List CTransaction)
  | [] => .ok (view,vResurrect)
  | hash :: rest =>
    match s.mapBlockIndex[hash]? with
    | none => .error (.asserts "pindex")
    | some pindex =>
      match s.ReadFromDisk env w pindex with
      | none => .error (.Error "Failed to read block")
      | some block =>
        match block.DisconnectBlock env pindex.toCBlockIndex view (s.ReadUndo w pindex) with
        | .error e => .error (e.inside "SetBestBlock() : DisconnectBlock %s failed")
        | .ok (view,fClean) =>
          if fClean = false then .error (.plain "SetBestBlock() : DisconnectBlock %s failed")
          else
            let resurrected := block.vtx.filter fun tx => !tx.IsCoinBase && decide (pindex.nHeight > GetTotalBlocksEstimate)
            disconnectBlocks env w s view (vResurrect++resurrected) rest

/-- The entry that `ConnectBlock` leaves. -/
def connectedEntry (w : Surroundings) (hash : uint256) (pindex : IndexEntry) (outcome : ConnectOutcome) : IndexEntry :=
  {pindex with toCBlockIndex := outcome.pindex,nUndoPos := if outcome.undo.isSome then w.nUndoPos hash else pindex.nUndoPos}

/-- What `ConnectBlock` leaves of the tree: the entry and its record, which is written
    right after the entry changes, and the undo data. -/
def recordConnect (env : Env) (w : Surroundings) (s : ChainState) (hash : uint256) (pindex : IndexEntry) (block : CBlock)
    (outcome : ConnectOutcome) : ChainState :=
  let after := connectedEntry w hash pindex outcome
  let s := s.setEntry hash after
  let s := match outcome.undo with
    | none => s
    | some undo => {s with revFiles := s.revFiles.insert ⟨pindex.nFile,w.nUndoPos hash⟩ (pindex.pprev.getD 0,undo.stored)}
  let s := if outcome.pindex ≠ pindex.toCBlockIndex ∧ (w.disk hash).WriteBlockIndex = true then s.writeIndex env after else s
  if block.GetHash env = hashGenesisBlock ∧ outcome.result.isOk = true then {s with pindexGenesisBlock := some hash} else s

/-- The loop that connects the longer branch; it collects `vDelete`. An error comes with
    the block that failed. -/
def connectBlocks (w : Surroundings) (s : ChainState) (view : CCoinsViewCache) (vDelete : List CTransaction) :
    List uint256 → ChainState × Except (uint256 × Reject) (CCoinsViewCache × List CTransaction)
  | [] => (s,.ok (view,vDelete))
  | hash :: rest =>
    match s.mapBlockIndex[hash]? with
    | none => (s,.error (hash,.asserts "pindex"))
    | some pindex =>
      match s.ReadFromDisk rules.env w pindex with
      | none => (s,.error (hash,.Error "Failed to read block"))
      | some block =>
        let outcome := block.ConnectBlock rules.env w.ambient (w.disk hash) pindex.toCBlockIndex view false
        let s := s.recordConnect rules.env w hash pindex block outcome
        match outcome.result with
        | .error e => (s,.error (hash,e.inside "SetBestBlock() : ConnectBlock %s failed"))
        | .ok view => connectBlocks w s view (vDelete++block.vtx) rest

/-- `InvalidBlockFound`: the mark goes to the entry, its record and the candidates. No
    block carries work, so `InvalidChainFound` changes nothing. -/
def InvalidBlockFound (env : Env) (w : Surroundings) (reconnect : ChainState → Option ChainState) (s : ChainState) (hash : uint256) :
    Option (ChainState × Bool) :=
  match s.mapBlockIndex[hash]? with
  | none => none
  | some pindex =>
    let pindex := {pindex with BLOCK_FAILED_VALID := true}
    let s := s.setEntry hash pindex
    if w.WriteBlockIndex hash = false then some (s,false)
    else
      let s := (s.writeIndex env pindex).eraseValid hash pindex
      if pindex.pnext.isSome then (reconnect s).map fun s => (s,true) else some (s,true)

/-- `pcoinsTip->Flush()` into the database, which keeps what can be read back. -/
def FlushCoins (pcoinsTip : CCoinsViewCache) : CCoinsViewCache where
  base := {
    GetCoins := fun txid => match pcoinsTip.cacheCoins[txid]? with
      | some coins => coins.reload
      | none => pcoinsTip.base.GetCoins txid
    GetBestBlock := pcoinsTip.GetBestBlock}
  pindexTip := pcoinsTip.pindexTip

/-- `pindex->pprev->pnext = ...` for a block that has a parent. -/
def setNext (s : ChainState) (hash : uint256) (pnext : Option uint256) : ChainState :=
  match s.parent hash with
  | none => s
  | some pprev =>
    match s.mapBlockIndex[pprev]? with
    | none => s
    | some entry => s.setEntry pprev {entry with pnext := pnext}

/-- The memory pool after a change of chain: what was disconnected is offered again, and
    what is connected now goes, with all that conflicts with it. -/
def updatePool (w : Surroundings) (chain : ActiveChain) (mempool : CTxMemPool) (vResurrect vDelete : List CTransaction) : CTxMemPool :=
  let mempool := vResurrect.zipIdx.foldl (fun mempool entry =>
    let outcome := mempool.AcceptToMemoryPool rules chain (w.now entry.2) entry.1 true false
    match outcome.result with
    | .ok () => outcome.mempool
    | .error _ => outcome.mempool.remove rules.env entry.1 true) mempool
  vDelete.foldl (fun mempool tx => (mempool.remove rules.env tx false).removeConflicts rules.env tx) mempool

/-- The end of `SetBestChain`: the memory structures. -/
def finishSwitch (w : Surroundings) (s : ChainState) (pindexNew : uint256) (vDisconnect vConnect : List uint256)
    (vResurrect vDelete : List CTransaction) : ChainState :=
  let chain : ActiveChain := {
    pcoinsTip := s.pcoinsTip
    nBestHeight := ((s.pindexBest.map s.height).getD 0 : Nat)
    nTipHeight := s.height pindexNew}
  let s := vDisconnect.foldl (fun s hash => s.setNext hash none) s
  let s := vConnect.foldl (fun s hash => s.setNext hash (some hash)) s
  {s with mempool := updatePool rules w chain s.mempool vResurrect vDelete,pindexBest := some pindexNew}

/-- `SetBestChain`; `reconnect` is `ConnectBestBlock`, for the block that fails on the
    active chain. The result is none where an assertion fails. -/
def SetBestChain (reconnect : ChainState → Option ChainState) (s : ChainState) (pindexNew : uint256) : Option Returned :=
  let (w,s) := s.look world
  let view : CCoinsViewCache := {base := s.pcoinsTip.toView}
  match s.findFork s.turns view.GetBestBlock pindexNew with
  | none => none
  | some pfork =>
    match walkTo s.parent pfork s.turns view.GetBestBlock,walkTo s.parent pfork s.turns (some pindexNew) with
    | some vDisconnect,some branch =>
      match s.disconnectBlocks rules.env w view [] vDisconnect with
      | .error e => if e.IsAssert then none else some ⟨s,.error e⟩
      | .ok (view,vResurrect) =>
        let vConnect := branch.reverse
        match connectBlocks rules w s view [] vConnect with
        | (s,.error (hash,e)) =>
          if e.IsAssert then none
          else if e.IsInvalid then
            (s.InvalidBlockFound rules.env w reconnect hash).map fun (s,written) =>
              ⟨s,.error (if written then e else databaseError)⟩
          else some ⟨s,.error e⟩
        | (s,.ok (view,vDelete)) =>
          let s := {s with pcoinsTip := s.pcoinsTip.BatchWrite view.cacheCoins view.GetBestBlock}
          if ¬ w.fIsInitialDownload ∨ w.fCacheFull then
            if w.CheckDiskSpace = false then some ⟨s,.error (.Error "")⟩
            else if w.SyncTree = false then some ⟨s,.error databaseError⟩
            else if w.FlushCoins = false then some ⟨s,.error (.Error "Failed to write to coin database")⟩
            else
              let s := {s with pcoinsTip := FlushCoins s.pcoinsTip}
              some ⟨finishSwitch rules w s pindexNew vDisconnect vConnect vResurrect vDelete,.ok ()⟩
          else some ⟨finishSwitch rules w s pindexNew vDisconnect vConnect vResurrect vDelete,.ok ()⟩
    | _,_ => none

/-- `GetBlockValue` of a place in the tree: the counter that should end it is handed on
    unchanged, so it goes up to the root. -/
def GetBlockValue (w : Surroundings) (s : ChainState) : Nat → Option uint256 → Int64
  | 0, _ => 0
  | _, none => 0
  | fuel+1, some hash =>
    match s.mapBlockIndex[hash]? with
    | none => 0
    | some cbi =>
      if cbi.pprev = none ∧ cbi.nHeight ≠ 0 then 0
      else if w.signerValue hash+Int64.ofNat (((cbi.GetBlockPos).map CDiskBlockPos.nPos).getD 0) = 0 then 0
      else GetBlockValue w s fuel cbi.pprev

/-- Every way out of `GetBlockValue` gives 0. -/
@[simp] theorem GetBlockValue_eq (w : Surroundings) (s : ChainState) (fuel : Nat) (place : Option uint256) :
    GetBlockValue w s fuel place = 0 := by
  induction fuel generalizing place with
  | zero => rw [GetBlockValue]
  | succ fuel ih =>
    cases place with
    | none => rw [GetBlockValue]; simp
    | some hash =>
      rw [GetBlockValue]
      split
      · rfl
      · split
        · rfl
        · split
          · rfl
          · exact ih _

/-- What the walk back from the best candidate finds. -/
inductive Candidate
  /-- A failed block. -/
  | failed (pindexTest : uint256)
  /-- `vAttach`, lowest block first. -/
  | attach (vAttach : List uint256)

/-- The inner loop of `ConnectBestBlock`. -/
def findAttach (w : Surroundings) (s : ChainState) (vAttach : List uint256) : Nat → uint256 → Option Candidate
  | fuel, pindexTest =>
    match s.mapBlockIndex[pindexTest]? with
    | none => none
    | some entry =>
      if entry.BLOCK_FAILED_MASK then some (.failed pindexTest)
      else
        let pushed : Bool := match s.pindexBest with
          | none => true
          | some pindexBest => decide (entry.pprev.getD 0 = pindexBest) || (decide (entry.nHeight ≥ s.height pindexBest) &&
              decide (s.GetBlockValue w s.turns (some pindexTest) ≥ s.GetBlockValue w s.turns (some pindexBest)))
        let vAttach := if pushed then pindexTest :: vAttach else vAttach
        if entry.pnext.isSome then some (.attach vAttach)
        else
          match entry.pprev,fuel with
          | none,_ => some (.attach vAttach)
          | some pprev,fuel+1 => findAttach w s vAttach fuel pprev
          | some _,0 => none

/-- Marks the descendants of a failed block, highest first; it stops at a write that fails. -/
def markFailed (env : Env) (w : Surroundings) (s : ChainState) : List uint256 → ChainState × Bool
  | [] => (s,true)
  | hash :: rest =>
    match s.mapBlockIndex[hash]? with
    | none => (s,true)
    | some pindexFailed =>
      let pindexFailed := {pindexFailed with BLOCK_FAILED_CHILD := true}
      let s := (s.setEntry hash pindexFailed).eraseValid hash pindexFailed
      if w.WriteBlockIndex hash = false then (s,false)
      else markFailed env w (s.writeIndex env pindexFailed) rest

/-- The loop over `vAttach`. An exception becomes an error of the state. -/
def switchTo (reconnect : ChainState → Option ChainState) (s : ChainState) : List uint256 → Option Returned
  | [] => some ⟨s,.ok ()⟩
  | pindexSwitch :: rest =>
    match s.SetBestChain rules world reconnect pindexSwitch with
    | none => none
    | some ⟨s,.ok ()⟩ => switchTo reconnect s rest
    | some ⟨s,.error (.throws message)⟩ => some ⟨s,.error (.Error ("System error: "++message))⟩
    | some ⟨s,.error e⟩ => some ⟨s,.error e⟩

/-- `ConnectBestBlock`; none if an assertion fails or the fuel runs out. -/
def ConnectBestBlock : Nat → ChainState → Option Returned
  | 0, _ => none
  | fuel+1, s =>
    match s.setBlockIndexValid.toList.getLast? with
    | none => some ⟨s,.ok ()⟩
    | some pindexNewBest =>
      let (w,s) := s.look world
      match s.findAttach w [] s.turns pindexNewBest.hash with
      | none => none
      | some (.attach vAttach) => s.switchTo rules world (fun s => (ConnectBestBlock fuel s).map Returned.state) vAttach
      | some (.failed pindexTest) =>
        match walkTo s.parent (some pindexTest) s.turns (some pindexNewBest.hash) with
        | none => none
        | some failed =>
          match s.markFailed rules.env w failed with
          | (s,false) => some ⟨s,.error databaseError⟩
          | (s,true) => ConnectBestBlock fuel s

/-- The entry of a block that was just accepted. -/
def newEntry (s : ChainState) (hash : uint256) (block : CBlock) (pos : CDiskBlockPos) : IndexEntry :=
  let prev := s.mapBlockIndex[block.hashPrevBlock]?
  {
    hashBlock := hash
    pprev := if prev.isSome then some block.hashPrevBlock else none
    nHeight := (prev.map fun pprev => pprev.nHeight+1).getD 0
    nVersion := block.nVersion
    hashMerkleRoot := block.hashMerkleRoot
    nTime := block.nTime
    nValid := BLOCK_VALID_TRANSACTIONS
    BLOCK_HAVE_DATA := true
    nTx := block.vtx.length
    nChainTx := ((prev.map fun pprev => pprev.nChainTx).getD 0+block.vtx.length)%2^32
    nFile := pos.nFile
    nDataPos := pos.nPos}

def AddToBlockIndex (fuel : Nat) (s : ChainState) (block : CBlock) (pos : CDiskBlockPos) : Option Returned :=
  let hash := block.GetHash rules.env
  if hash ∈ s.mapBlockIndex then some ⟨s,.error (.Invalid "AddToBlockIndex() : %s already exists")⟩
  else
    let (w,s) := s.look world
    let pindexNew := s.newEntry hash block pos
    let s := {s.setEntry hash pindexNew with setBlockIndexValid := s.setBlockIndexValid.insert ⟨pindexNew.nHeight,hash⟩}
    if w.WriteBlockIndex hash = false then some ⟨s,.error databaseError⟩
    else
      match ConnectBestBlock rules world fuel (s.writeIndex rules.env pindexNew) with
      | none => none
      | some ⟨s,.error e⟩ => some ⟨s,.error e⟩
      | some ⟨s,.ok ()⟩ => some ⟨s,if w.FlushTree then .ok () else .error (.Error "Failed to sync block index")⟩

/-- The times of a block and its ancestors, `nMedianTimeSpan` at most. -/
def times (s : ChainState) : Nat → Option uint256 → List Nat
  | n+1, some hash =>
    match s.mapBlockIndex[hash]? with
    | none => []
    | some pindex => pindex.nTime :: times s n pindex.pprev
  | _, _ => []

def GetMedianTimePast (s : ChainState) (hash : uint256) : Nat :=
  let pmedian := (s.times 11 (some hash)).insertionSort (· ≤ ·)
  (pmedian[pmedian.length/2]?).getD 0

/-- The hash of the one checkpoint, at height 0. -/
def hashCheckpoint : uint256 := 0x83504a97ee364685f287f0063fe950799c76f56be2f87e57ae1fa4e089e87847

/-- `IsFinal(nBlockHeight, nBlockTime)` for a height and a time that are not 0. -/
def isFinalAt (nBlockHeight nBlockTime : Nat) (tx : CTransaction) : Bool :=
  if tx.nLockTime = 0 then true
  else if tx.nLockTime < (if tx.nLockTime < LOCKTIME_THRESHOLD then nBlockHeight else nBlockTime) then true
  else tx.vin.all fun txin => txin.nSequence == 0xFFFFFFFF

/-- The checks of `AcceptBlock`. No version is ever rejected, since `IsSuperMajority`
    returns false at once. -/
def checkAccept (s : ChainState) (block : CBlock) : Except Reject Unit :=
  let hash := block.GetHash rules.env
  if hash ∈ s.mapBlockIndex then .error (.Invalid "AcceptBlock() : block already in mapBlockIndex")
  else if hash = hashGenesisBlock then .ok ()
  else
    match s.mapBlockIndex[block.hashPrevBlock]? with
    | none => .error (.DoS 10 false "AcceptBlock() : prev block not found")
    | some pindexPrev =>
      let nHeight := pindexPrev.nHeight+1
      if block.nTime ≤ s.GetMedianTimePast block.hashPrevBlock then .error (.Invalid "AcceptBlock() : block's timestamp is too early")
      else if (block.vtx.all (isFinalAt nHeight block.nTime)) = false then
        .error (.DoS 10 false "AcceptBlock() : contains a non-final transaction")
      else if (s.mapBlockIndex[hashCheckpoint]?).any fun pcheckpoint => decide (nHeight < pcheckpoint.nHeight) then
        .error (.DoS 100 false "AcceptBlock() : forked chain older than last checkpoint (height %d)")
      else .ok ()

def AcceptBlock (fuel : Nat) (s : ChainState) (block : CBlock) : Option Returned :=
  match s.checkAccept rules block with
  | .error e => some ⟨s,.error e⟩
  | .ok () =>
    let (w,s) := s.look world
    match w.FindBlockPos with
    | none => some ⟨s,.error (.within "AcceptBlock() : FindBlockPos failed" (.Error ""))⟩
    | some blockPos =>
      if w.WriteToDisk = false then some ⟨s,.error (.Error "Failed to write block")⟩
      else
        match AddToBlockIndex rules world fuel {s with blkFiles := s.blkFiles.insert blockPos block} block blockPos with
        | none => none
        | some ⟨s,.ok ()⟩ => some ⟨s,.ok ()⟩
        | some ⟨s,.error (.throws message)⟩ => some ⟨s,.error (.Error ("System error: "++message))⟩
        | some ⟨s,.error e⟩ => some ⟨s,.error (.within "AcceptBlock() : AddToBlockIndex failed" e)⟩

end ChainState
end Tetra
