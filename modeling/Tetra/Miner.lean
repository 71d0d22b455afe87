import Mathlib
import Tetra.Block
import Tetra.CreateTransaction

/-!
`CreateNewBlock`: the transactions of the memory pool are put into a priority queue, those
that spend from others in the pool only after these are in the block, and taken from it one
after another as long as they fit and connect.
-/
namespace Tetra
open Std

/-- `Fees::operator-()` -/
def Fees.neg (x : Fees) : Fees := ⟨x.locals.map fun _ v => -v,-x.fixed⟩

/-- `Cash::operator/(const double &)` -/
def Cash.divDouble (x : Cash) (y : ℚ) : Cash :=
  ⟨x.locals.map fun _ v => Int64.ofInt (Double.truncate (Double.round (Double.round v.toInt/y))),0⟩

/-- Of the transaction a copy is kept, not its place in the pool. -/
structure COrphan where
  tx : CTransaction
  setDependsOn : ExtTreeSet uint256 := ∅
  dPriority : ℚ := 0
  dFeePerKb : Fees := {}

structure TxPriority where
  dPriority : ℚ
  dFeePerKb : Fees
  tx : CTransaction

/-- Whether the first comes after the second. -/
def TxPriorityCompare (byFee : Bool) (a b : TxPriority) : Bool :=
  if byFee then if a.dFeePerKb.eq b.dFeePerKb then decide (a.dPriority < b.dPriority) else a.dFeePerKb.lt b.dFeePerKb
  else if a.dPriority = b.dPriority then a.dFeePerKb.lt b.dFeePerKb
  else decide (a.dPriority < b.dPriority)

/-- `std::make_heap`, `std::push_heap` and `std::pop_heap` under a comparison: each puts a
    range in another order, and the last moves the first value to the end. -/
structure HeapRules where
  make_heap : (TxPriority → TxPriority → Bool) → List TxPriority → List TxPriority
  push_heap : (TxPriority → TxPriority → Bool) → List TxPriority → List TxPriority
  pop_heap : (TxPriority → TxPriority → Bool) → List TxPriority → List TxPriority
  make_perm : ∀ less values, (make_heap less values).Perm values
  push_perm : ∀ less values, (push_heap less values).Perm values
  pop_last : ∀ less front values, ∃ rest, pop_heap less (front :: values) = rest ++ [front] ∧ rest.Perm values

/-- The settings, as they are after the conversion to `unsigned int`. -/
structure MinerSettings where
  blockmaxsize : Nat := 250000
  blockprioritysize : Nat := DEFAULT_BLOCK_PRIORITY_SIZE
  blockminsize : Nat := 0
  fDebug : Bool := false

namespace MinerSettings

/-- Between 1K and 1K less than the limit. -/
def nBlockMaxSize (settings : MinerSettings) : Nat := max 1000 (min (MAX_BLOCK_SIZE-1000) settings.blockmaxsize)
def nBlockPrioritySize (settings : MinerSettings) : Nat := min settings.nBlockMaxSize settings.blockprioritysize
def nBlockMinSize (settings : MinerSettings) : Nat := min settings.nBlockMaxSize settings.blockminsize

end MinerSettings

/-- What the miner works on: the pool, the tip that the block is to follow, and the rules. -/
structure Mining where
  rules : PoolRules
  chain : ActiveChain
  now : Moment
  mempool : CTxMemPool
  pindexPrev : CBlockIndex
  nMedianTimePast : Nat
  nScriptCheckThreads : Nat := 0
  heap : HeapRules
  settings : MinerSettings := {}

/-! ### The queue is filled -/

/-- The orphans and those that wait for a transaction, by their places in the list. An orphan
    that was removed leaves its place empty: a pointer to it is left dangling. -/
structure Waiting where
  vOrphan : List (Option COrphan) := []
  mapDependers : ExtTreeMap uint256 (List Nat) := ∅

namespace Waiting

/-- Adds an orphan; `porphan` is its place. -/
def add (waiting : Waiting) (tx : CTransaction) : Waiting × Nat :=
  ({waiting with vOrphan := waiting.vOrphan ++ [some {tx := tx}]},waiting.vOrphan.length)

def update (waiting : Waiting) (porphan : Nat) (f : COrphan → COrphan) : Waiting :=
  {waiting with vOrphan := waiting.vOrphan.modify porphan fun orphan => orphan.map f}

/-- `porphan` depends on a transaction. -/
def depend (waiting : Waiting) (porphan : Nat) (hash : uint256) : Waiting :=
  let waiting := {waiting with mapDependers := waiting.mapDependers.insert hash (waiting.mapDependers.getD hash [] ++ [porphan])}
  waiting.update porphan fun orphan => {orphan with setDependsOn := orphan.setDependsOn.insert hash}

/-- `vOrphan.pop_back()`; the orphan that is removed is always the last. -/
def remove (waiting : Waiting) (porphan : Nat) : Waiting := {waiting with vOrphan := waiting.vOrphan.set porphan none}

end Waiting

/-- The locals of the loop over the inputs of a transaction. -/
structure InputScan where
  waiting : Waiting
  porphan : Option Nat := none
  dPriority : ℚ := 0
  nTotalIn : Cash := {}

namespace Mining

variable (mining : Mining)

/-- A fresh cache over `pcoinsTip`. -/
def view : CCoinsViewCache where
  base := mining.chain.pcoinsTip.toView

/-- The loop over the inputs of a transaction, and `fMissingInputs`. -/
def scanInputs (tx : CTransaction) : InputScan → List CTxIn → Except Reject (InputScan × Bool)
  | scan, [] => .ok (scan,false)
  | scan, txin :: rest =>
    match mining.view.GetCoins txin.prevout.hash with
    | none =>
      match mining.mempool.mapTx[txin.prevout.hash]? with
      | none =>
        if mining.settings.fDebug then .error (.asserts "\"mempool transaction missing input\" == 0")
        else
          match scan.porphan with
          | none => .ok (scan,true)
          | some porphan => .ok ({scan with waiting := scan.waiting.remove porphan},true)
      | some parent =>
        -- Has to wait for dependencies.
        let (waiting,porphan) :=
          match scan.porphan with
          | some porphan => (scan.waiting,porphan)
          | none => scan.waiting.add tx
        match parent.vout[txin.prevout.n]? with
        | none => .error (.asserts "mempool.mapTx[txin.prevout.hash].vout[txin.prevout.n]")
        | some out =>
          scanInputs tx {scan with
            waiting := waiting.depend porphan txin.prevout.hash
            porphan := some porphan
            nTotalIn := scan.nTotalIn.addAssign out.nValue} rest
    | some coins =>
      match coins.vout[txin.prevout.n]? with
      | none => .error (.asserts "coins.vout[txin.prevout.n]")
      | some out =>
        let nConf : Int := mining.pindexPrev.nHeight-coins.nHeight+1
        let nValueIn := (out.nValue.mulAmount (Int64.ofInt nConf)).Max
        scanInputs tx {scan with
          dPriority := Double.round (scan.dPriority+Double.round nValueIn.toInt)
          nTotalIn := scan.nTotalIn.addAssign out.nValue} rest

/-- The queue and what waits to get there. -/
structure Filled where
  waiting : Waiting := {}
  vecPriority : List TxPriority := []

/-- One transaction of the pool. -/
def collect (filled : Filled) (tx : CTransaction) : Except Reject Filled :=
  if tx.IsCoinBase || !tx.IsFinal mining.chain mining.now then .ok filled
  else
    match mining.scanInputs tx {waiting := filled.waiting} tx.vin with
    | .error e => .error e
    | .ok (scan,true) => .ok {filled with waiting := scan.waiting}
    | .ok (scan,false) =>
      match tx.GetValueOut with
      | .error e => .error e
      | .ok nValueOut =>
        let nTxSize := tx.GetSerializeSize
        let dPriority := Double.round (scan.dPriority/nTxSize)
        let dFeePerKb := (scan.nTotalIn.sub nValueOut).divDouble (Double.round (nTxSize/1000))
        match scan.porphan with
        | some porphan => .ok {filled with waiting := scan.waiting.update porphan fun orphan => {orphan with dPriority,dFeePerKb}}
        | none => .ok ⟨scan.waiting,filled.vecPriority ++ [⟨dPriority,dFeePerKb,tx⟩]⟩

/-- The loop over `mempool.mapTx`. -/
def fill : Except Reject Filled := (mining.mempool.mapTx.toList.map Prod.snd).foldlM mining.collect {}

/-! ### The queue is worked off -/

/-- The queue and the block so far, without its coinbase. -/
structure Assembly where
  waiting : Waiting
  vecPriority : List TxPriority
  fSortedByFee : Bool
  view : CCoinsViewCache
  vtx : List CTransaction := []
  vTxFees : List Fees := []
  vTxSigOps : List Nat := []
  nBlockSize : Nat := 1000
  nBlockTx : Nat := 0
  nBlockSigOps : Nat := 100
  nFees : Fees := {}

def start (filled : Filled) : Assembly :=
  let fSortedByFee := mining.settings.nBlockPrioritySize == 0
  {waiting := filled.waiting
   vecPriority := mining.heap.make_heap (TxPriorityCompare fSortedByFee) filled.vecPriority
   fSortedByFee := fSortedByFee
   view := mining.view}

/-- The priority of one coin that is a day old, spent in 250 bytes. -/
def nFreePriority : ℚ := (COIN*576/250).toInt

/-- Prioritize by fee once past the priority size or out of high-priority transactions. -/
def reorder (assembly : Assembly) (entry : TxPriority) : Assembly :=
  if !assembly.fSortedByFee &&
      (decide (assembly.nBlockSize+entry.tx.GetSerializeSize ≥ mining.settings.nBlockPrioritySize) || decide (entry.dPriority < nFreePriority)) then
    {assembly with
      fSortedByFee := true
      vecPriority := mining.heap.make_heap (TxPriorityCompare true) assembly.vecPriority}
  else assembly

/-- An orphan that waits for a transaction which is in the block now. -/
def release (hash : uint256) (assembly : Assembly) (porphan : Nat) : Except Reject Assembly :=
  match assembly.waiting.vOrphan[porphan]? with
  | some (some orphan) =>
    if orphan.setDependsOn.isEmpty then .ok assembly
    else
      let setDependsOn := orphan.setDependsOn.erase hash
      let assembly := {assembly with waiting := assembly.waiting.update porphan fun orphan => {orphan with setDependsOn}}
      if setDependsOn.isEmpty then
        .ok {assembly with
          vecPriority := mining.heap.push_heap (TxPriorityCompare assembly.fSortedByFee)
            (assembly.vecPriority ++ [⟨orphan.dPriority,orphan.dFeePerKb,orphan.tx⟩])}
      else .ok assembly
  | _ => .error (.asserts "porphan")

/-- The transaction goes into the block. -/
def select (assembly : Assembly) (tx : CTransaction) (nTxFees : Fees) (nTxSigOps : Nat) (view : CCoinsViewCache) : Except Reject Assembly :=
  let hash := mining.rules.env.TxHash tx
  (assembly.waiting.mapDependers.getD hash []).foldlM (mining.release hash) {assembly with
    view := view
    vtx := assembly.vtx ++ [tx]
    vTxFees := assembly.vTxFees ++ [nTxFees]
    vTxSigOps := assembly.vTxSigOps ++ [nTxSigOps]
    nBlockSize := assembly.nBlockSize+tx.GetSerializeSize
    nBlockTx := assembly.nBlockTx+1
    nBlockSigOps := assembly.nBlockSigOps+nTxSigOps
    nFees := Fees.addAssign assembly.nFees nTxFees}

/-- Past the limits on sizes and fees. -/
def attempt (assembly : Assembly) (tx : CTransaction) : Except Reject Assembly :=
  let nHeight := mining.pindexPrev.nHeight+1
  if tx.HaveInputs assembly.view = false then .ok assembly
  else
    match tx.GetValueIn assembly.view with
    | .error e => .error e
    | .ok nValueIn =>
      match tx.GetValueOut with
      | .error e => .error e
      | .ok nValueOut =>
        match tx.GetP2SHSigOpCount assembly.view with
        | .error e => .error e
        | .ok p2sh =>
          let nTxSigOps := tx.GetLegacySigOpCount+p2sh
          if assembly.nBlockSigOps+nTxSigOps ≥ MAX_BLOCK_SIGOPS then .ok assembly
          else
            match tx.CheckInputs mining.rules.env assembly.view (mining.chain.nTipHeight+1) true {P2SH := true} false with
            | .error (.throws message) => .error (.throws message)
            | .error (.asserts condition) => .error (.asserts condition)
            | .error _ => .ok assembly
            | .ok _ =>
              match tx.UpdateCoins assembly.view nHeight (mining.rules.env.TxHash tx) with
              | .error e => .error e
              | .ok (view,_) => mining.select assembly tx (nValueIn.sub nValueOut) nTxSigOps view

/-- What is done with the transaction of the highest priority. -/
def consider (assembly : Assembly) (entry : TxPriority) : Except Reject Assembly :=
  let nBlockSize := assembly.nBlockSize+entry.tx.GetSerializeSize
  if nBlockSize ≥ mining.settings.nBlockMaxSize then .ok assembly
  else if assembly.nBlockSigOps+entry.tx.GetLegacySigOpCount ≥ MAX_BLOCK_SIGOPS then .ok assembly
  else if assembly.fSortedByFee && entry.dFeePerKb.lt mining.rules.nMinTxFee && decide (nBlockSize ≥ mining.settings.nBlockMinSize) then .ok assembly
  else mining.attempt (mining.reorder assembly entry) entry.tx

/-- The loop over the queue; every transaction of the pool is taken at most once, so their
    number is enough fuel. -/
def assemble : Nat → Assembly → Except Reject Assembly
  | fuel,assembly =>
    match assembly.vecPriority with
    | [] => .ok assembly
    | front :: rest =>
      match fuel with
      | 0 => .error (.asserts "vecPriority.empty()")
      | fuel+1 =>
        let vecPriority := (mining.heap.pop_heap (TxPriorityCompare assembly.fSortedByFee) (front :: rest)).dropLast
        match mining.consider {assembly with vecPriority := vecPriority} front with
        | .error e => .error e
        | .ok assembly => assemble fuel assembly

end Mining

structure CBlockTemplate where
  block : CBlock
  vTxFees : List Fees
  vTxSigOps : List Nat

namespace Mining
variable (mining : Mining)

/-- `OP_0 OP_0` -/
def coinbaseScript : CScript := [0,0]

def coinbase (scriptPubKeyIn : CScript) (nFees : Fees) : CTransaction where
  nVersion := CTransaction.CURRENT_VERSION
  vin := [⟨⟨0,nullIndex⟩,coinbaseScript,0xFFFFFFFF⟩]
  vout := [⟨GetBlockValue (mining.pindexPrev.nHeight+1) nFees,scriptPubKeyIn⟩]
  nLockTime := 0
  Attachments := []

/-- `CBlockHeader::CURRENT_VERSION` -/
def blockVersion : Int := 3

/-- `UpdateTime` -/
def nTime : Nat := (max (mining.nMedianTimePast+1 : Int) mining.now.GetAdjustedTime).toNat%2^32

def block (vtx : List CTransaction) : CBlock where
  nVersion := blockVersion
  hashPrevBlock := mining.pindexPrev.hashBlock
  hashMerkleRoot := 0
  nTime := mining.nTime
  vtx := vtx
  cpbk := []
  vchSig := []

def indexDummy (block : CBlock) : CBlockIndex where
  hashBlock := block.GetHash mining.rules.env
  pprev := some mining.pindexPrev.hashBlock
  nHeight := mining.pindexPrev.nHeight+1
  nVersion := block.nVersion
  hashMerkleRoot := block.hashMerkleRoot
  nTime := block.nTime

def ambient : Ambient := ⟨mining.now.GetAdjustedTime,mining.nScriptCheckThreads⟩

/-- The end of `CreateNewBlock`: the coinbase, the header and a trial run. -/
def finish (scriptPubKeyIn : CScript) (assembly : Assembly) : Except Reject CBlockTemplate :=
  let coinbase := mining.coinbase scriptPubKeyIn assembly.nFees
  let block := mining.block (coinbase :: assembly.vtx)
  match (block.ConnectBlock mining.rules.env mining.ambient {} (mining.indexDummy block) mining.view true).result with
  | .error (.throws message) => .error (.throws message)
  | .error (.asserts condition) => .error (.asserts condition)
  | .error _ => .error (.throws "CreateNewBlock() : ConnectBlock failed")
  | .ok _ => .ok ⟨block,assembly.nFees.neg :: assembly.vTxFees,coinbase.GetLegacySigOpCount :: assembly.vTxSigOps⟩

def CreateNewBlock (scriptPubKeyIn : CScript) : Except Reject CBlockTemplate :=
  match mining.fill with
  | .error e => .error e
  | .ok filled =>
    match mining.assemble mining.mempool.mapTx.size (mining.start filled) with
    | .error e => .error e
    | .ok assembly => mining.finish scriptPubKeyIn assembly

end Mining
end Tetra
