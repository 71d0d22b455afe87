import Mathlib
import Tetra.Script
import Tetra.Inputs

/-!
Blocks: the merkle tree, the checks that need no context, what a block may pay
itself, and applying its transactions to a coins view.
-/
namespace Tetra
open Std

def hashGenesisBlock : uint256 := 0x1d9e964298bf24933a6ff31d520faebf7c2552ae34bf8edb6433561a8de2d133
/-- `Checkpoints::GetTotalBlocksEstimate()`: the only checkpoint is at height 0. -/
def GetTotalBlocksEstimate : Nat := 0
def nBIP16SwitchTime : Nat := 1409170687

/-- The verification level that `BLOCK_VALID_MASK` holds. -/
def BLOCK_VALID_TRANSACTIONS : Nat := 3
def BLOCK_VALID_SCRIPTS : Nat := 5

/-- `CBlockIndex`: pointers to other entries are their hashes, status bits are fields. -/
structure CBlockIndex where
  hashBlock : uint256
  pprev : Option uint256
  pnext : Option uint256 := none
  nHeight : Nat
  nVersion : Int
  hashMerkleRoot : uint256
  nTime : Nat
  nValid : Nat := 0
  BLOCK_HAVE_DATA : Bool := false
  BLOCK_HAVE_UNDO : Bool := false
  BLOCK_FAILED_VALID : Bool := false
  BLOCK_FAILED_CHILD : Bool := false
deriving DecidableEq

def CBlockIndex.BLOCK_FAILED_MASK (pindex : CBlockIndex) : Bool := pindex.BLOCK_FAILED_VALID || pindex.BLOCK_FAILED_CHILD

/-- What the node reads from its surroundings during one call. -/
structure Ambient where
  GetAdjustedTime : Int
  nScriptCheckThreads : Nat := 0

namespace CBlock

def GetHash (env : Env) (block : CBlock) : uint256 := env.BlockHash block.toCBlockHeader

def GetSerializeSize (block : CBlock) : Nat :=
  72+(GetSizeOfCompactSize block.vtx.length+(block.vtx.map CTransaction.GetSerializeSize).sum)+
    (block.cpbk.length+1)+bytesSize block.vchSig

/-- One level of the merkle tree above another; an odd last hash pairs with itself. -/
def merkleLevel (env : Env) : List uint256 → List uint256
  | [] => []
  | [left] => [env.PairHash left left]
  | left :: right :: rest => env.PairHash left right :: merkleLevel env rest

/-- The levels of `BuildMerkleTree` up to the root; every level is at most half as
    long, so the number of hashes is enough fuel. -/
def merkleRoot (env : Env) : Nat → List uint256 → uint256
  | _,[] => 0
  | _,[root] => root
  | 0,left :: _ => left
  | fuel+1,hashes => merkleRoot env fuel (merkleLevel env hashes)

def BuildMerkleTree (env : Env) (block : CBlock) : uint256 :=
  merkleRoot env block.vtx.length (block.vtx.map env.TxHash)

def checkTransactions : List CTransaction → Except Reject Unit
  | [] => .ok ()
  | tx :: rest =>
    match tx.CheckTransaction with
    | .error e => .error (.within "CheckBlock() : CheckTransaction failed" e)
    | .ok () => checkTransactions rest

/-- `CheckBlock`; the proof of work check is commented out in the source. -/
def CheckBlock (env : Env) (ambient : Ambient) (block : CBlock) (fCheckMerkleRoot : Bool) : Except Reject Unit :=
  if block.vtx.isEmpty ∨ block.vtx.length > MAX_BLOCK_SIZE ∨ block.GetSerializeSize > MAX_BLOCK_SIZE then
    .error (.DoS 100 false "CheckBlock() : size limits failed")
  else if (block.nTime : Int) > ambient.GetAdjustedTime+2*60*60 then
    .error (.Invalid "CheckBlock() : block timestamp too far in the future")
  else if (block.vtx.head?.any CTransaction.IsCoinBase) = false then
    .error (.DoS 100 false "CheckBlock() : first tx is not coinbase")
  else if block.vtx.tail.any CTransaction.IsCoinBase then
    .error (.DoS 100 false "CheckBlock() : more than one coinbase")
  else
    match checkTransactions block.vtx with
    | .error e => .error e
    | .ok () =>
      if ¬(block.vtx.map env.TxHash).Nodup then .error (.DoS 100 true "CheckBlock() : duplicate transaction")
      else if (block.vtx.map CTransaction.GetLegacySigOpCount).sum > MAX_BLOCK_SIGOPS then
        .error (.DoS 100 false "CheckBlock() : out-of-bounds SigOpCount")
      else if fCheckMerkleRoot ∧ block.hashMerkleRoot ≠ block.BuildMerkleTree env then
        .error (.DoS 100 false "CheckBlock() : hashMerkleRoot mismatch")
      else .ok ()

/-- `CheckSig` -/
def CheckSig (env : Env) (block : CBlock) : Bool := env.Verify block.cpbk (block.GetHash env) block.vchSig

end CBlock

namespace srges

def RPBK : CPubKey := [
  0x02,0xa0,0x01,0xcc,0x63,0xd6,0x9d,0xc3,0x98,0xd0,0xac,0xe7,0x9f,0x7c,0x56,0x9b,0x0b,
  0x6c,0xf1,0xe4,0xdf,0xcd,0x30,0x5d,0x52,0x8f,0xbf,0xda,0xd0,0xfd,0x5d,0xb5,0x01]
def secondPbk : CPubKey := [
  0x03,0x88,0x2e,0x65,0x6b,0x4a,0x7a,0xa1,0x05,0x96,0x6f,0x43,0x32,0x0c,0xdb,0x86,0x08,
  0x5b,0x18,0x41,0x58,0x16,0x78,0xea,0xbe,0xa5,0x84,0x7c,0xb3,0xa7,0x42,0x49,0x66]

/-- The keys whose blocks may pay themselves anything. -/
def CheckPbk (test : CPubKey) : Bool := test == RPBK || test == secondPbk

end srges

def EUR : CashName := [0x45,0x55,0x52]
def FUTURE : CashName := [0x46,0x55,0x54,0x55,0x52,0x45]
def TESTCASH : CashName := [0x54,0x45,0x53,0x54,0x43,0x41,0x53,0x48]
def CHF : CashName := [0x43,0x48,0x46]

/-- What the chain itself issues at a height. -/
def subsidy (nHeight : Nat) : Option (CashName × Amount) :=
  if nHeight = 1 then some (EUR,10000000000*COIN)
  else if nHeight = 2 then some (FUTURE,99990000*COIN)
  else if nHeight = 3 then some (TESTCASH,7777777777*COIN)
  else if nHeight = 4 then some (CHF,100000*COIN)
  else none

/-- `GetBlockValue`: the issue at this height plus the fees, or the fees alone. -/
def GetBlockValue (nHeight : Nat) (nFees : Fees) : Cash :=
  match subsidy nHeight with
  | some issue => (Cash.ofMoney issue).add nFees
  | none => nFees

/-- The locals of the transaction loop in `ConnectBlock`. -/
structure ConnectState where
  view : CCoinsViewCache
  nFees : Fees := {}
  nSigOps : Nat := 0
  vtxundo : List CTxUndo := []
  vChecks : List CScriptCheck := []

/-- What the loop takes from the block index and the node. -/
structure ConnectParams where
  nHeight : Nat
  fScriptChecks : Bool
  fStrictPayToScriptHash : Bool
  pvChecks : Bool

def ConnectParams.flags (params : ConnectParams) : ScriptFlags :=
  {NOCACHE := true,P2SH := params.fStrictPayToScriptHash}

/-- One turn of the transaction loop in `ConnectBlock`. The best block of the view
    is the parent, so inputs are spent at the height of the block itself. -/
def connectTransaction (env : Env) (params : ConnectParams) (s : ConnectState) (tx : CTransaction) :
    Except Reject ConnectState :=
  let nSigOps := s.nSigOps+tx.GetLegacySigOpCount
  if nSigOps > MAX_BLOCK_SIGOPS then .error (.DoS 100 false "ConnectBlock() : too many sigops")
  else if tx.IsCoinBase then
    match tx.UpdateCoins s.view params.nHeight (env.TxHash tx) with
    | .error e => .error e
    | .ok (view,_) => .ok {s with view := view,nSigOps := nSigOps}
  else if tx.HaveInputs s.view = false then .error (.DoS 100 false "ConnectBlock() : inputs missing/spent")
  else
    match if params.fStrictPayToScriptHash then tx.GetP2SHSigOpCount s.view else .ok 0 with
    | .error e => .error e
    | .ok p2sh =>
      let nSigOps := nSigOps+p2sh
      if nSigOps > MAX_BLOCK_SIGOPS then .error (.DoS 100 false "ConnectBlock() : too many sigops")
      else
        match tx.GetValueIn s.view with
        | .error e => .error e
        | .ok nValueIn =>
          match tx.GetValueOut with
          | .error e => .error e
          | .ok nValueOut =>
            let nFees := Fees.addAssign s.nFees (nValueIn.sub nValueOut)
            match tx.CheckInputs env s.view params.nHeight params.fScriptChecks params.flags params.pvChecks with
            | .error e => .error e
            | .ok vChecks =>
              match tx.UpdateCoins s.view params.nHeight (env.TxHash tx) with
              | .error e => .error e
              | .ok (view,txundo) =>
                .ok ⟨view,nFees,nSigOps,s.vtxundo ++ [txundo],s.vChecks ++ vChecks⟩

/-- The transaction loop of `ConnectBlock`. -/
def connectTransactions (env : Env) (params : ConnectParams) : ConnectState → List CTransaction → Except Reject ConnectState
  | s,[] => .ok s
  | s,tx :: rest =>
    match connectTransaction env params s tx with
    | .error e => .error e
    | .ok s => connectTransactions env params s rest

namespace CBlock

/-- BIP30: some transaction of the block is unspent in the view already. -/
def overwrites (env : Env) (view : CCoinsViewCache) (block : CBlock) : Bool :=
  block.vtx.any fun tx =>
    match view.GetCoins (env.TxHash tx) with
    | none => false
    | some coins => !coins.IsPruned

def connectParams (ambient : Ambient) (pindex : CBlockIndex) : ConnectParams where
  nHeight := pindex.nHeight
  fScriptChecks := decide (pindex.nHeight ≥ GetTotalBlocksEstimate)
  fStrictPayToScriptHash := decide (pindex.nTime ≥ nBIP16SwitchTime)
  pvChecks := ambient.nScriptCheckThreads != 0

/-- What the coinbase claims; a block that passed `CheckBlock` has one. -/
def coinbaseOut (block : CBlock) : Except Reject Cash :=
  match block.vtx with
  | [] => .error (.asserts "vtx[0]")
  | tx :: _ => tx.GetValueOut

/-- The end of the checks in `ConnectBlock`: what the coinbase may claim, and the
    script checks left to the queue. -/
def checkReward (env : Env) (block : CBlock) (nHeight : Nat) (s : ConnectState) : Except Reject Unit :=
  match block.coinbaseOut with
  | .error e => .error e
  | .ok nValueOut =>
    if nValueOut.gt (GetBlockValue nHeight s.nFees) && !srges.CheckPbk block.cpbk then
      .error (.DoS 100 false "ConnectBlock() : coinbase pays too much (actual=%s vs limit=%s)")
    else if s.vChecks.all (CScriptCheck.run env) = false then .error (.DoS 100 false "")
    else .ok ()

/-- `ConnectBlock` up to the point where `fJustCheck` returns: all checks, and the
    transactions applied to the view. The genesis block only becomes the best block. -/
def ConnectTransactions (env : Env) (ambient : Ambient) (block : CBlock) (pindex : CBlockIndex) (view : CCoinsViewCache)
    (fJustCheck : Bool) : Except Reject (CCoinsViewCache × CBlockUndo) :=
  match block.CheckBlock env ambient (!fJustCheck) with
  | .error e => .error e
  | .ok () =>
    if pindex.pprev ≠ view.GetBestBlock then .error (.asserts "pindex->pprev == view.GetBestBlock()")
    else if block.GetHash env = hashGenesisBlock then .ok (view.SetBestBlock (some pindex.hashBlock),⟨[]⟩)
    else if block.overwrites env view then
      .error (.DoS 100 false "ConnectBlock() : tried to overwrite transaction")
    else
      match connectTransactions env (connectParams ambient pindex) {view := view} block.vtx with
      | .error e => .error e
      | .ok s =>
        match block.checkReward env pindex.nHeight s with
        | .error e => .error e
        | .ok () => .ok (s.view,⟨s.vtxundo⟩)

end CBlock

/-- Which writes of `ConnectBlock` reach the disk. -/
structure DiskWrites where
  FindUndoPos : Bool := true
  WriteUndo : Bool := true
  WriteBlockIndex : Bool := true
  WriteTxIndex : Bool := true
  fTxIndex : Bool := false

/-- What `ConnectBlock` leaves: its index entry, undo data if it wrote any, and the
    view unless it failed. -/
structure ConnectOutcome where
  pindex : CBlockIndex
  undo : Option CBlockUndo := none
  result : Except Reject CCoinsViewCache

namespace CBlock

/-- The writes at the end of `ConnectBlock`; entries keep what was set before a failure. -/
def recordBlock (disk : DiskWrites) (pindex : CBlockIndex) (view : CCoinsViewCache) (blockundo : CBlockUndo) : ConnectOutcome :=
  let finish (pindex : CBlockIndex) (undo : Option CBlockUndo) : ConnectOutcome :=
    if disk.fTxIndex && !disk.WriteTxIndex then ⟨pindex,undo,.error (.Error "Failed to write transaction index")⟩
    else ⟨pindex,undo,.ok (view.SetBestBlock (some pindex.hashBlock))⟩
  if pindex.BLOCK_HAVE_UNDO = false ∨ pindex.nValid < BLOCK_VALID_SCRIPTS then
    if pindex.BLOCK_HAVE_UNDO = false ∧ disk.FindUndoPos = false then
      ⟨pindex,none,.error (.within "ConnectBlock() : FindUndoPos failed" (.Error ""))⟩
    else if pindex.BLOCK_HAVE_UNDO = false ∧ disk.WriteUndo = false then
      ⟨pindex,none,.error (.Error "Failed to write undo data")⟩
    else
      let undo := if pindex.BLOCK_HAVE_UNDO then none else some blockundo
      let pindex := {pindex with BLOCK_HAVE_UNDO := true,nValid := BLOCK_VALID_SCRIPTS}
      if disk.WriteBlockIndex = false then ⟨pindex,undo,.error (.Error "Failed to write block index")⟩
      else finish pindex undo
  else finish pindex none

def ConnectBlock (env : Env) (ambient : Ambient) (disk : DiskWrites) (block : CBlock) (pindex : CBlockIndex)
    (view : CCoinsViewCache) (fJustCheck : Bool) : ConnectOutcome :=
  match block.ConnectTransactions env ambient pindex view fJustCheck with
  | .error e => {pindex := pindex,result := .error e}
  | .ok (view,blockundo) =>
    if block.GetHash env = hashGenesisBlock ∨ fJustCheck then {pindex := pindex,result := .ok view}
    else recordBlock disk pindex view blockundo

end CBlock
/-- What one turn of the loop leaves behind. -/
theorem connectTransaction_ok {env : Env} {params : ConnectParams} {s s' : ConnectState} {tx : CTransaction}
    (connects : connectTransaction env params s tx = .ok s') :
    (tx.IsCoinBase = true ∧ (∃ txundo, tx.UpdateCoins s.view params.nHeight (env.TxHash tx) = .ok (s'.view,txundo)) ∧
      s'.nFees = s.nFees ∧ s'.vtxundo = s.vtxundo ∧ s'.vChecks = s.vChecks) ∨
    (tx.IsCoinBase = false ∧ tx.HaveInputs s.view = true ∧ ∃ nValueIn nValueOut vChecks txundo,
      tx.GetValueIn s.view = .ok nValueIn ∧ tx.GetValueOut = .ok nValueOut ∧
      tx.CheckInputs env s.view params.nHeight params.fScriptChecks params.flags params.pvChecks = .ok vChecks ∧
      tx.UpdateCoins s.view params.nHeight (env.TxHash tx) = .ok (s'.view,txundo) ∧
      s'.nFees = Fees.addAssign s.nFees (nValueIn.sub nValueOut) ∧ s'.vtxundo = s.vtxundo ++ [txundo] ∧
      s'.vChecks = s.vChecks ++ vChecks) := by
  rw [connectTransaction] at connects
  dsimp only at connects
  split at connects
  · contradiction
  split at connects
  · next coinbase =>
    left
    cases updated : tx.UpdateCoins s.view params.nHeight (env.TxHash tx) with
    | error e => simp [updated] at connects
    | ok pair =>
      obtain ⟨view,txundo⟩ := pair
      simp only [updated,Except.ok.injEq] at connects
      subst connects
      exact ⟨coinbase,⟨txundo,rfl⟩,rfl,rfl,rfl⟩
  split at connects
  · contradiction
  next ordinary available =>
    right
    split at connects
    · contradiction
    split at connects
    · contradiction
    split at connects
    · contradiction
    next nValueIn valuedIn =>
      split at connects
      · contradiction
      next nValueOut valuedOut =>
        split at connects
        · contradiction
        next vChecks inputsChecked =>
          split at connects
          · contradiction
          next view txundo updated =>
            simp only [Except.ok.injEq] at connects
            subst connects
            exact ⟨by simpa using ordinary,by simpa using available,nValueIn,nValueOut,vChecks,txundo,valuedIn,
              valuedOut,inputsChecked,updated,rfl,rfl,rfl⟩

namespace CBlock

theorem CheckBlock_ok {env : Env} {ambient : Ambient} {block : CBlock} {fCheckMerkleRoot : Bool}
    (checked : block.CheckBlock env ambient fCheckMerkleRoot = .ok ()) :
    (∃ coinbase rest, block.vtx = coinbase :: rest ∧ coinbase.IsCoinBase = true ∧
      ∀ tx ∈ rest, tx.IsCoinBase = false) ∧
    (∀ tx ∈ block.vtx, tx.CheckTransaction = .ok ()) ∧ (block.vtx.map env.TxHash).Nodup ∧
    (fCheckMerkleRoot = true → block.hashMerkleRoot = block.BuildMerkleTree env) ∧
    block.vtx.length ≤ MAX_BLOCK_SIZE ∧ block.GetSerializeSize ≤ MAX_BLOCK_SIZE := by
  have each (txs : List CTransaction) (passed : checkTransactions txs = .ok ()) :
      ∀ tx ∈ txs, tx.CheckTransaction = .ok () := by
    induction txs with
    | nil => simp
    | cons tx rest ih =>
      rw [checkTransactions] at passed
      split at passed
      · contradiction
      next first =>
        intro other member
        rcases List.mem_cons.mp member with rfl | later
        · exact first
        · exact ih passed other later
  rw [CheckBlock] at checked
  split at checked
  · contradiction
  split at checked
  · contradiction
  split at checked
  · contradiction
  split at checked
  · contradiction
  split at checked
  · contradiction
  split at checked
  · contradiction
  split at checked
  · contradiction
  split at checked
  · contradiction
  next sizes _ first others _ passed distinct _ root =>
    have sizes' := not_or.mp sizes
    have lengths := not_or.mp sizes'.2
    refine ⟨?_,each _ passed,by simpa using distinct,?_,by omega,by omega⟩
    · cases listed : block.vtx with
      | nil => simp [listed] at sizes'
      | cons coinbase rest =>
        refine ⟨coinbase,rest,rfl,by simpa [listed] using first,?_⟩
        simpa [listed] using others
    · intro wanted
      by_contra different
      exact root ⟨wanted,different⟩

/-- What holds of a block that `ConnectBlock` accepted and whose transactions it applied. -/
theorem ConnectTransactions_ok {env : Env} {ambient : Ambient} {block : CBlock} {pindex : CBlockIndex}
    {view after : CCoinsViewCache} {fJustCheck : Bool} {blockundo : CBlockUndo}
    (notGenesis : block.GetHash env ≠ hashGenesisBlock)
    (connects : block.ConnectTransactions env ambient pindex view fJustCheck = .ok (after,blockundo)) :
    block.CheckBlock env ambient (!fJustCheck) = .ok () ∧ pindex.pprev = view.GetBestBlock ∧
      block.overwrites env view = false ∧
      ∃ s, connectTransactions env (connectParams ambient pindex) {view := view} block.vtx = .ok s ∧
        block.checkReward env pindex.nHeight s = .ok () ∧ after = s.view ∧ blockundo = ⟨s.vtxundo⟩ := by
  rw [ConnectTransactions] at connects
  split at connects
  · contradiction
  next checked =>
    split at connects
    · contradiction
    next onTip =>
      split at connects
      · contradiction
      next fresh =>
        split at connects
        · contradiction
        next s connected =>
          split at connects
          · contradiction
          next rewarded =>
            obtain ⟨rfl,rfl⟩ := Prod.mk.inj (Except.ok.inj connects)
            exact ⟨checked,by simpa using onTip,by simpa using fresh,s,connected,rewarded,rfl,rfl⟩

end CBlock

end Tetra
