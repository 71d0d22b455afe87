import Mathlib
import Tetra.Coins

/-!
Reading a script operation by operation, and counting the signature checks it
can cause. What executing a script decides is not modelled here.
-/
namespace Tetra

namespace CScript

def OP_PUSHDATA1 : Nat := 0x4c
def OP_PUSHDATA2 : Nat := 0x4d
def OP_PUSHDATA4 : Nat := 0x4e
def OP_1 : Nat := 0x51
def OP_16 : Nat := 0x60
def OP_EQUAL : Nat := 0x87
def OP_HASH160 : Nat := 0xa9
def OP_CHECKSIG : Nat := 0xac
def OP_CHECKSIGVERIFY : Nat := 0xad
def OP_CHECKMULTISIG : Nat := 0xae
def OP_CHECKMULTISIGVERIFY : Nat := 0xaf
def OP_INVALIDOPCODE : Nat := 0xff

/-- A little-endian number of `width` bytes, and what follows it. -/
def readSize (width : Nat) (bytes : List UInt8) : Option (Nat × List UInt8) :=
  if bytes.length < width then none
  else some ((bytes.take width).foldr (fun byte value => byte.toNat+256*value) 0,bytes.drop width)

/-- `GetOp`: the operation, the data it pushes, and the rest of the script. -/
def GetOp : CScript → Option (Nat × List UInt8 × CScript)
  | [] => none
  | first :: rest =>
    let opcode := first.toNat
    if opcode ≤ OP_PUSHDATA4 then
      match
        if opcode < OP_PUSHDATA1 then some (opcode,rest)
        else if opcode = OP_PUSHDATA1 then readSize 1 rest
        else if opcode = OP_PUSHDATA2 then readSize 2 rest
        else readSize 4 rest
      with
      | none => none
      | some (nSize,rest) =>
        if rest.length < nSize then none else some (opcode,rest.take nSize,rest.drop nSize)
    else some (opcode,[],rest)

/-- The loop of `GetSigOpCount(fAccurate)`; every operation takes a byte, so the
    length of the script is enough fuel. -/
def countSigOps (fAccurate : Bool) : Nat → Nat → CScript → Nat
  | 0,_,_ => 0
  | fuel+1,lastOpcode,script =>
    match GetOp script with
    | none => 0
    | some (opcode,_,rest) =>
      (if opcode = OP_CHECKSIG ∨ opcode = OP_CHECKSIGVERIFY then 1
        else if opcode = OP_CHECKMULTISIG ∨ opcode = OP_CHECKMULTISIGVERIFY then
          if fAccurate ∧ OP_1 ≤ lastOpcode ∧ lastOpcode ≤ OP_16 then lastOpcode-(OP_1-1) else 20
        else 0)+countSigOps fAccurate fuel opcode rest

def GetSigOpCount (script : CScript) (fAccurate : Bool) : Nat :=
  countSigOps fAccurate script.length OP_INVALIDOPCODE script

def IsPayToScriptHash (script : CScript) : Bool :=
  script.length == 23 && (script.getD 0 0).toNat == OP_HASH160 && (script.getD 1 0).toNat == 0x14 &&
    (script.getD 22 0).toNat == OP_EQUAL

/-- The last item that a script of pushes leaves on the stack. -/
def lastPush : Nat → List UInt8 → CScript → Option (List UInt8)
  | 0,data,_ => some data
  | fuel+1,data,script =>
    if script.isEmpty then some data
    else
      match GetOp script with
      | none => none
      | some (opcode,data,rest) => if opcode > OP_16 then none else lastPush fuel data rest

/-- `GetSigOpCount(scriptSig)` of an output's script. -/
def GetSigOpCountFor (scriptPubKey scriptSig : CScript) : Nat :=
  if IsPayToScriptHash scriptPubKey = false then GetSigOpCount scriptPubKey true
  else
    match lastPush scriptSig.length [] scriptSig with
    | none => 0
    | some data => GetSigOpCount data true

end CScript

namespace CTransaction

def GetLegacySigOpCount (tx : CTransaction) : Nat :=
  (tx.vin.map fun txin => CScript.GetSigOpCount txin.scriptSig false).sum+
    (tx.vout.map fun txout => CScript.GetSigOpCount txout.scriptPubKey false).sum

/-- The loop of `GetP2SHSigOpCount`. -/
def countP2SH (inputs : CCoinsViewCache) : List CTxIn → Except Reject Nat
  | [] => .ok 0
  | txin :: rest =>
    match GetOutputFor txin inputs with
    | .error e => .error e
    | .ok prevout =>
      match countP2SH inputs rest with
      | .error e => .error e
      | .ok nSigOps =>
        .ok ((if CScript.IsPayToScriptHash prevout.scriptPubKey then
          CScript.GetSigOpCountFor prevout.scriptPubKey txin.scriptSig else 0)+nSigOps)

def GetP2SHSigOpCount (tx : CTransaction) (inputs : CCoinsViewCache) : Except Reject Nat :=
  if tx.IsCoinBase then .ok 0 else countP2SH inputs tx.vin

end CTransaction
end Tetra
