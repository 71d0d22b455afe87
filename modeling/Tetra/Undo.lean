import Mathlib
import Tetra.Block
import Tetra.Utxo

/-!
Taking a block back: the undo data as it is read from disk, coins as the
database gives them back, and `DisconnectBlock`.
-/
namespace Tetra
open Std

/-- Only the circuits of a value are written. -/
def Cash.stored (x : Cash) : Cash := ⟨x.locals,0⟩
def CTxOut.stored (out : CTxOut) : CTxOut := {out with nValue := out.nValue.stored}
/-- A variable-length integer stops at the first byte when it is negative. -/
def storedVersion (nVersion : Int) : Int := if nVersion < 0 then nVersion % 128 else nVersion

/-- What `Unserialize` makes of what `Serialize` wrote: unavailable outputs are not
    written and come back as default outputs, those at the end not at all. The
    database erases coins without available outputs instead of writing them. -/
def CCoins.reload (coins : CCoins) : Option CCoins :=
  if coins.IsPruned then none
  else some (CCoins.Cleanup {coins with
    vout := coins.vout.map fun out => if out.IsNull then CTxOut.null else out.stored
    nVersion := storedVersion coins.nVersion})

/-- The version of an undo entry is written only with a height. -/
def CTxInUndo.stored (undo : CTxInUndo) : CTxInUndo :=
  ⟨undo.txout.stored,undo.fCoinBase,undo.nHeight,if undo.nHeight > 0 then storedVersion undo.nVersion else 0⟩

def CTxUndo.stored (undo : CTxUndo) : CTxUndo := ⟨undo.vprevout.map CTxInUndo.stored⟩
def CBlockUndo.stored (undo : CBlockUndo) : CBlockUndo := ⟨undo.vtxundo.map CTxUndo.stored⟩

/-- `a == b` -/
def CCoins.eq (a b : CCoins) : Bool :=
  a.fCoinBase == b.fCoinBase && a.nHeight == b.nHeight && a.nVersion == b.nVersion &&
    (a.vout.length == b.vout.length && (a.vout.zip b.vout).all fun pair => pair.1.eq pair.2)

/-- The view during `DisconnectBlock`, and whether everything fitted so far. -/
structure DisconnectState where
  view : CCoinsViewCache
  fClean : Bool := true

/-- One turn of the loop that puts a transaction's inputs back. -/
def restoreInput (s : DisconnectState) (out : COutPoint) (undo : CTxInUndo) : DisconnectState :=
  let coins := (s.view.GetCoins out.hash).getD {}
  let fClean := s.fClean && (if undo.nHeight ≠ 0 then coins.IsPruned else !coins.IsPruned)
  let coins := if undo.nHeight ≠ 0 then
    {fCoinBase := undo.fCoinBase,vout := [],nHeight := undo.nHeight,nVersion := undo.nVersion} else coins
  let fClean := fClean && !coins.IsAvailable out.n
  let vout := coins.vout ++ List.replicate (out.n+1-coins.vout.length) CTxOut.null
  ⟨s.view.SetCoins out.hash {coins with vout := vout.set out.n undo.txout},fClean⟩

/-- The inputs go back last one first. -/
def restoreInputs (s : DisconnectState) : List CTxIn → List CTxInUndo → DisconnectState
  | txin :: vin,undo :: vprevout => restoreInput (restoreInputs s vin vprevout) txin.prevout undo
  | _,_ => s

/-- One turn of the transaction loop; the coinbase has no undo data. -/
def disconnectTransaction (env : Env) (nHeight : Nat) (s : DisconnectState) (tx : CTransaction) (txundo : Option CTxUndo) :
    Except Reject DisconnectState :=
  let hash := env.TxHash tx
  let outsBlock := CCoins.ofTransaction tx nHeight
  let outs := (s.view.GetCoins hash).getD outsBlock
  let outs := if outsBlock.nVersion < 0 then {outs with nVersion := outsBlock.nVersion} else outs
  let s : DisconnectState := ⟨s.view.SetCoins hash {},s.fClean && outs.eq outsBlock⟩
  match txundo with
  | none => .ok s
  | some txundo =>
    if txundo.vprevout.length ≠ tx.vin.length then
      .error (.plain "DisconnectBlock() : transaction and undo data inconsistent")
    else .ok (restoreInputs s tx.vin txundo.vprevout)

/-- The transactions go back last one first. -/
def disconnectTransactions (env : Env) (nHeight : Nat) (s : DisconnectState) :
    List (CTransaction × Option CTxUndo) → Except Reject DisconnectState
  | [] => .ok s
  | (tx,txundo) :: rest =>
    match disconnectTransactions env nHeight s rest with
    | .error e => .error e
    | .ok s => disconnectTransaction env nHeight s tx txundo

/-- `DisconnectBlock`, with what the undo file gives for the block; the second result
    is `fClean`. -/
def CBlock.DisconnectBlock (env : Env) (block : CBlock) (pindex : CBlockIndex) (view : CCoinsViewCache)
    (undoFile : Option CBlockUndo) : Except Reject (CCoinsViewCache × Bool) :=
  if view.GetBestBlock ≠ some pindex.hashBlock then .error (.asserts "pindex == view.GetBestBlock()")
  else if pindex.BLOCK_HAVE_UNDO = false then .error (.plain "DisconnectBlock() : no undo data available")
  else if pindex.pprev = none then .error (.asserts "pindex->pprev")
  else
    match undoFile with
    | none => .error (.plain "DisconnectBlock() : failure reading undo data")
    | some blockUndo =>
      if blockUndo.vtxundo.length+1 ≠ block.vtx.length then
        .error (.plain "DisconnectBlock() : block and undo data inconsistent")
      else
        match disconnectTransactions env pindex.nHeight {view := view} (block.vtx.zip (none :: blockUndo.vtxundo.map some)) with
        | .error e => .error e
        | .ok s => .ok (s.view.SetBestBlock pindex.pprev,s.fClean)

end Tetra
