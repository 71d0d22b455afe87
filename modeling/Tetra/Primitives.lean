import Mathlib
import Tetra.Cash

/-!
Transactions and blocks as the node holds them, the size of their serialized
form, and the ways in which a check turns one down.
-/
namespace Tetra
open Std

abbrev uint256 := Nat
abbrev CScript := List UInt8
/-- The bytes between `begin()` and `end()`; an invalid key has none. -/
abbrev CPubKey := List UInt8

structure COutPoint where
  hash : uint256
  n : Nat
deriving DecidableEq

/-- `(unsigned int) -1` -/
def nullIndex : Nat := 0xFFFFFFFF
def COutPoint.IsNull (out : COutPoint) : Bool := out.hash == 0 && out.n == nullIndex

instance : Ord COutPoint := ⟨compareLex (compareOn COutPoint.hash) (compareOn COutPoint.n)⟩
instance : TransOrd COutPoint := inferInstanceAs (TransCmp (compareLex (compareOn COutPoint.hash) (compareOn COutPoint.n)))
instance : LawfulEqOrd COutPoint where
  eq_of_compare {a b} same := by
    have both : compare a.hash b.hash = .eq ∧ compare a.n b.n = .eq := by
      simpa [compare,compareLex,compareOn,Ordering.then_eq_eq] using same
    cases a; cases b
    simp_all [LawfulEqCmp.compare_eq_iff_eq]

structure CTxIn where
  prevout : COutPoint
  scriptSig : CScript
  nSequence : Nat
deriving DecidableEq

deriving instance DecidableEq for Cash

structure CTxOut where
  nValue : Cash
  scriptPubKey : CScript
deriving DecidableEq

namespace CTxOut
/-- The default output, also what `SetNull` leaves. -/
def null : CTxOut := ⟨Cash.assignAmount 0,[]⟩
/-- An output counts as spent when its value lists no circuit. -/
def IsNull (out : CTxOut) : Bool := out.nValue.size == 0
def eq (a b : CTxOut) : Bool := a.nValue.eq b.nValue && a.scriptPubKey == b.scriptPubKey
end CTxOut

structure CTransaction where
  nVersion : Int
  vin : List CTxIn
  vout : List CTxOut
  nLockTime : Nat
  Attachments : List UInt8
deriving DecidableEq

structure CBlockHeader where
  nVersion : Int
  hashPrevBlock : uint256
  hashMerkleRoot : uint256
  nTime : Nat
deriving DecidableEq

structure CBlock extends CBlockHeader where
  vtx : List CTransaction
  cpbk : CPubKey
  vchSig : List UInt8
deriving DecidableEq

structure ScriptFlags where
  P2SH : Bool := false
  STRICTENC : Bool := false
  NOCACHE : Bool := false
deriving DecidableEq

/-- Hashes, script execution and signatures: what the node computes outside its own
    logic. -/
structure Env where
  TxHash : CTransaction → uint256
  BlockHash : CBlockHeader → uint256
  /-- The hash of two merkle tree nodes. -/
  PairHash : uint256 → uint256 → uint256
  VerifyScript : CScript → CScript → CTransaction → Nat → ScriptFlags → Bool
  /-- `CPubKey::Verify` -/
  Verify : CPubKey → uint256 → List UInt8 → Bool

/-- How a function gives up: what `CValidationState` holds afterwards, and the text. -/
inductive Reject
  /-- `state.DoS(level, error(message), corruptionIn)`; `state.Invalid` is level 0. -/
  | DoS (level : Nat) (corruptionIn : Bool) (message : String)
  /-- `state.Error()` or `state.Abort(message)` -/
  | Error (message : String)
  /-- `return error(message)` or a bare `return false`, the state untouched. -/
  | plain (message : String)
  /-- An exception leaves the function. -/
  | throws (message : String)
  /-- An assertion fails and the process ends. -/
  | asserts (condition : String)
  /-- `return error(message)` after an inner call failed. -/
  | within (message : String) (cause : Reject)
deriving DecidableEq

namespace Reject
def Invalid (message : String) : Reject := .DoS 0 false message
/-- `state.IsInvalid()` -/
def IsInvalid : Reject → Bool
  | .DoS .. => true
  | .within _ cause => cause.IsInvalid
  | _ => false
/-- `state.IsError()` -/
def IsError : Reject → Bool
  | .Error _ => true
  | .within _ cause => cause.IsError
  | _ => false
/-- `state.CorruptionPossible()` -/
def CorruptionPossible : Reject → Bool
  | .DoS _ corruptionIn _ => corruptionIn
  | .within _ cause => cause.CorruptionPossible
  | _ => false
end Reject

def MAX_BLOCK_SIZE : Nat := 1000000
def MAX_BLOCK_SIGOPS : Nat := MAX_BLOCK_SIZE/50

/-- The longest vector that is read. -/
def MAX_SIZE : Nat := 0x02000000

/-- Bytes of a compact size. -/
def GetSizeOfCompactSize (nSize : Nat) : Nat :=
  if nSize < 253 then 1 else if nSize ≤ 0xFFFF then 3 else if nSize ≤ 0xFFFFFFFF then 5 else 9

def bytesSize (bytes : List UInt8) : Nat := GetSizeOfCompactSize bytes.length+bytes.length
def CTxIn.GetSerializeSize (txin : CTxIn) : Nat := 36+bytesSize txin.scriptSig+4
/-- Only the circuits of a value are written. -/
def Cash.GetSerializeSize (x : Cash) : Nat :=
  GetSizeOfCompactSize x.size+(x.locals.toList.map fun e => bytesSize e.1+8).sum
def CTxOut.GetSerializeSize (out : CTxOut) : Nat := out.nValue.GetSerializeSize+bytesSize out.scriptPubKey

namespace CTransaction

def GetSerializeSize (tx : CTransaction) : Nat :=
  4+(GetSizeOfCompactSize tx.vin.length+(tx.vin.map CTxIn.GetSerializeSize).sum)+
    (GetSizeOfCompactSize tx.vout.length+(tx.vout.map CTxOut.GetSerializeSize).sum)+4+bytesSize tx.Attachments

def IsCoinBase (tx : CTransaction) : Bool :=
  match tx.vin with
  | [txin] => txin.prevout.IsNull
  | _ => false

/-- `a == b`: attachments are not compared, values by `Cash` equality. -/
def eq (a b : CTransaction) : Bool :=
  a.nVersion == b.nVersion && a.vin == b.vin &&
    (a.vout.length == b.vout.length && (a.vout.zip b.vout).all fun pair => pair.1.eq pair.2) &&
    a.nLockTime == b.nLockTime

end CTransaction
end Tetra
