import Tetra.Codec
import Tetra.Opcodes

/-!
The values on the stack of a script: numbers and truth values in bytes, the shapes of
signatures and public keys, and the script that a signature signs.
-/
namespace Tetra
open Codec

abbrev valtype := List UInt8

def vchFalse : valtype := []
def vchTrue : valtype := [1]
def MAX_SCRIPT_ELEMENT_SIZE : Nat := 520
def nMaxNumSize : Nat := 4

/-- `CBigNum::setvch`: little-endian, the sign in the highest bit. -/
def setvch (vch : valtype) : Int :=
  match vch.getLast? with
  | none => 0
  | some last =>
    let magnitude : Int := leNat (vch.dropLast ++ [last &&& 0x7f])
    if last &&& 0x80 ≠ 0 then -magnitude else magnitude

/-- `CBigNum::getvch`: in as few bytes as there is room for the sign. -/
def getvch (n : Int) : valtype :=
  if n = 0 then []
  else
    let sign : UInt8 := if n < 0 then 0x80 else 0
    let bytes := leBytes (n.natAbs.log2/8+1) n.natAbs
    match bytes.getLast? with
    | none => []
    | some last => if last &&& 0x80 ≠ 0 then bytes ++ [sign] else bytes.dropLast ++ [last ||| sign]

example : [0,1,-1,127,128,-128,255,-255,256].map getvch = [[],[1],[0x81],[127],[128,0],[128,0x80],[255,0],[255,0x80],[0,1]] := by decide +kernel
example : [[],[1],[0x81],[127],[128,0],[128,0x80],[0x80]].map setvch = [0,1,-1,127,128,-128,0] := by decide +kernel

/-- `CBigNum::getint`: clamped to the values of an `int`. -/
def getint (n : Int) : Int :=
  if 0 ≤ n then min n (2^31-1) else if n.natAbs > 2^31-1 then -2^31 else n

/-- Negative zero is false too. -/
def CastToBool : valtype → Bool
  | [] => false
  | byte :: rest => if byte ≠ 0 then !(rest.isEmpty && byte == 0x80) else CastToBool rest

/-! ### Canonical encodings -/

def SIGHASH_ALL : Nat := 1
def SIGHASH_SINGLE : Nat := 3
def SIGHASH_ANYONECANPAY : UInt8 := 0x80

def IsCanonicalPubKey (vchPubKey : valtype) : Bool :=
  if vchPubKey.length < 33 then false
  else
    let header := vchPubKey.getD 0 0
    if header = 0x04 then vchPubKey.length == 65 else if header = 0x02 ∨ header = 0x03 then vchPubKey.length == 33 else false

/-- A number in a signature: of its own type, neither empty nor negative nor padded. -/
def canonicalPart (vchSig : valtype) (start nLen : Nat) : Bool :=
  let byte i := vchSig.getD i 0
  !(byte (start-2) ≠ 0x02 || nLen = 0 || byte start &&& 0x80 ≠ 0 || nLen > 1 && byte start = 0x00 && byte (start+1) &&& 0x80 = 0)

/-- `<30> <total len> <02> <len R> <R> <02> <len S> <S> <hashtype>` -/
def IsCanonicalSignature (vchSig : valtype) : Bool :=
  let byte i := vchSig.getD i 0
  let size := vchSig.length
  let nHashType := (byte (size-1) &&& ~~~SIGHASH_ANYONECANPAY).toNat
  let nLenR := (byte 3).toNat
  let nLenS := (byte (5+nLenR)).toNat
  !(size < 9 || size > 73 || nHashType < SIGHASH_ALL || nHashType > SIGHASH_SINGLE || byte 0 ≠ 0x30 || (byte 1).toNat ≠ size-3 ||
    5+nLenR ≥ size || nLenR+nLenS+7 ≠ size) && canonicalPart vchSig 4 nLenR && canonicalPart vchSig (6+nLenR) nLenS

/-! ### The script that is signed -/

namespace CScript

/-- A script that pushes one value, as `operator<<` writes it. -/
def pushValue (b : valtype) : CScript :=
  (if b.length < OP_PUSHDATA1 then [UInt8.ofNat b.length]
    else if b.length ≤ 0xff then [UInt8.ofNat OP_PUSHDATA1,UInt8.ofNat b.length]
    else if b.length ≤ 0xffff then UInt8.ofNat OP_PUSHDATA2 :: leBytes 2 b.length
    else UInt8.ofNat OP_PUSHDATA4 :: leBytes 4 b.length) ++ b

/-- Erases copies of a script that stand one after another at the front. -/
def eraseFront (b : CScript) : Nat → CScript → CScript
  | 0, script => script
  | fuel+1, script => if b.isPrefixOf script then eraseFront b fuel (script.drop b.length) else script

/-- The loop of `FindAndDelete` from one operation on; each takes a byte, so the length of
    the script is enough fuel. -/
def deleteFrom (b : CScript) : Nat → CScript → CScript
  | 0, script => script
  | fuel+1, script =>
    let script := eraseFront b script.length script
    match GetOp script with
    | none => script
    | some (_,_,rest) => script.take (script.length-rest.length) ++ deleteFrom b fuel rest

def FindAndDelete (script b : CScript) : CScript := if b.isEmpty then script else deleteFrom b (script.length+1) script

end CScript

end Tetra
