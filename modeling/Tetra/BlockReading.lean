import Tetra.BlockFormat
import Tetra.Piecewise

/-!
Reading a block piece by piece, from whatever hands out its bytes: the same block as from a
list of bytes.
-/
namespace Tetra
open Codec

/-- A reading of a stream; the errors are the texts of what is thrown. -/
abbrev Streamed (α : Type) := Piecewise String α

namespace Streamed

def readUInt (k : Nat) : Streamed Nat := leNat <$> Piecewise.bytes k
def readInt : Streamed Int := intOf <$> readUInt 4
def readAmount : Streamed Amount := (fun n => Int64.ofBitVec (BitVec.ofNat 64 n)) <$> readUInt 8

def readSize : Streamed Nat := do
  let chSize ← readUInt 1
  if chSize < 253 then return chSize
  else if chSize = 253 then readUInt 2
  else if chSize = 254 then readUInt 4
  else readUInt 8

def ReadCompactSize : Streamed Nat := do
  let nSizeRet ← readSize
  if nSizeRet > MAX_SIZE then .fail "ReadCompactSize() : size too large" else return nSizeRet

/-- Limits the size of a read. -/
def readChunks : Nat → Nat → Streamed (List UInt8)
  | 0, _ => return []
  | fuel+1, nSize =>
    if nSize = 0 then return []
    else do
      let blk := min nSize 5000000
      let bytes ← Piecewise.bytes blk
      let rest ← readChunks fuel (nSize-blk)
      return bytes ++ rest

/-- A vector of bytes. -/
def readBytes : Streamed (List UInt8) := do
  let nSize ← ReadCompactSize
  readChunks nSize nSize

def readString : Streamed (List UInt8) := do
  let nSize ← ReadCompactSize
  Piecewise.bytes nSize

/-- A vector of anything else. -/
def readVector {α : Type} (reading : Streamed α) : Streamed (List α) := do
  let nSize ← ReadCompactSize
  Piecewise.many reading nSize

def readMoney : Streamed (CashName × Amount) := do
  let name ← readString
  let amount ← readAmount
  return (name,amount)

def readCash : Streamed Cash := do
  let entries ← readVector readMoney
  return ⟨entries.foldl (fun m e => m.insertIfNew e.1 e.2) ∅,0⟩

def readOutPoint : Streamed COutPoint := do
  let hash ← readUInt 32
  let n ← readUInt 4
  return ⟨hash,n⟩

def readTxIn : Streamed CTxIn := do
  let prevout ← readOutPoint
  let scriptSig ← readBytes
  let nSequence ← readUInt 4
  return ⟨prevout,scriptSig,nSequence⟩

def readTxOut : Streamed CTxOut := do
  let nValue ← readCash
  let scriptPubKey ← readBytes
  return ⟨nValue,scriptPubKey⟩

def readTransaction : Streamed CTransaction := do
  let nVersion ← readInt
  let vin ← readVector readTxIn
  let vout ← readVector readTxOut
  let nLockTime ← readUInt 4
  let Attachments ← readBytes
  return ⟨nVersion,vin,vout,nLockTime,Attachments⟩

def readHeader : Streamed CBlockHeader := do
  let nVersion ← readInt
  let hashPrevBlock ← readUInt 32
  let hashMerkleRoot ← readUInt 32
  let nTime ← readUInt 4
  return ⟨nVersion,hashPrevBlock,hashMerkleRoot,nTime⟩

/-- What is longer than a key is read byte by byte. -/
def readKey (key : KeyBuffer) : Streamed KeyBuffer := do
  let len ← ReadCompactSize
  if len ≤ 65 then
    let bytes ← Piecewise.bytes len
    return key.copy bytes
  else
    let _ ← Piecewise.many (Piecewise.bytes 1) len
    return key.Invalidate

def readRest (header : CBlockHeader) (cpbk : KeyBuffer) : Streamed CBlock := do
  let vtx ← readVector readTransaction
  let cpbk ← readKey cpbk
  let vchSig ← readBytes
  return {toCBlockHeader := header,vtx := vtx,cpbk := cpbk.bytes,vchSig := vchSig}

def readBlock (cpbk : KeyBuffer) : Streamed CBlock := do
  let header ← readHeader
  readRest header cpbk

/-! ### From a list -/

/-- The reading of a `CDataStream`. -/
def fromList {α : Type} (reading : Streamed α) : Unserializer α := reading.onList "CDataStream::read() : end of data"

section
variable {α β : Type}

@[simp] theorem fromList_bind (reading : Streamed α) (f : α → Streamed β) : fromList (reading >>= f) = fromList reading >>= fun a => fromList (f a) :=
  Piecewise.onList_bind ..

@[simp] theorem fromList_pure (a : α) : fromList (pure a : Streamed α) = pure a := rfl
@[simp] theorem fromList_map (f : α → β) (reading : Streamed α) : fromList (f <$> reading) = f <$> fromList reading := Piecewise.onList_map ..
@[simp] theorem fromList_bytes (n : Nat) : fromList (Piecewise.bytes n) = readData n := Piecewise.onList_bytes ..
@[simp] theorem fromList_many (reading : Streamed α) (n : Nat) : fromList (Piecewise.many reading n) = many (fromList reading) n := Piecewise.onList_many ..
@[simp] theorem fromList_fail (e : String) : fromList (.fail e : Streamed α) = throw e := rfl

end

@[simp] theorem fromList_readUInt (k : Nat) : fromList (readUInt k) = Tetra.readUInt k := by rw [readUInt,fromList_map,fromList_bytes]; rfl
@[simp] theorem fromList_readInt : fromList readInt = Tetra.readInt := by rw [readInt,fromList_map,fromList_readUInt]; rfl
@[simp] theorem fromList_readAmount : fromList readAmount = Tetra.readAmount := by rw [readAmount,fromList_map,fromList_readUInt]; rfl

@[simp] theorem fromList_ReadCompactSize : fromList ReadCompactSize = Tetra.ReadCompactSize := by
  simp only [ReadCompactSize,Tetra.ReadCompactSize,readSize,Tetra.readSize,fromList_bind,fromList_readUInt,apply_ite fromList,fromList_pure,fromList_fail]

theorem fromList_readChunks {fuel nSize : Nat} (enough : nSize ≤ fuel) : fromList (readChunks fuel nSize) = readData nSize := by
  have none : (pure [] : Unserializer (List UInt8)) = readData 0 := by
    funext bytes
    rw [readData,Codec.take,if_neg (Nat.not_lt_zero _)]
    rfl
  induction fuel generalizing nSize with
  | zero =>
    obtain rfl := Nat.le_zero.mp enough
    exact none
  | succ fuel ih =>
    rw [readChunks]
    split
    next zero =>
      rw [zero]
      exact none
    next some =>
      have whole : nSize = min nSize 5000000+(nSize-min nSize 5000000) := by omega
      have parts := Piecewise.take_add "CDataStream::read() : end of data" (min nSize 5000000) (nSize-min nSize 5000000)
      rw [← whole] at parts
      simp only [fromList_bind,fromList_bytes,fromList_pure,ih (show nSize-min nSize 5000000 ≤ fuel by omega)]
      exact parts.symm

@[simp] theorem fromList_readBytes : fromList readBytes = Tetra.readBytes := by
  simp only [readBytes,Tetra.readBytes,fromList_bind,fromList_ReadCompactSize,fromList_readChunks le_rfl]

@[simp] theorem fromList_readString : fromList readString = Tetra.readBytes := by
  simp only [readString,Tetra.readBytes,fromList_bind,fromList_ReadCompactSize,fromList_bytes]

@[simp] theorem fromList_readVector {α : Type} (reading : Streamed α) : fromList (readVector reading) = Tetra.readVector (fromList reading) := by
  simp only [readVector,Tetra.readVector,fromList_bind,fromList_ReadCompactSize,fromList_many]

@[simp] theorem fromList_readMoney : fromList readMoney = Tetra.readMoney := by
  simp only [readMoney,Tetra.readMoney,fromList_bind,fromList_readString,fromList_readAmount,fromList_pure]

@[simp] theorem fromList_readCash : fromList readCash = Cash.Unserialize := by
  simp only [readCash,Cash.Unserialize,CashStruct.Unserialize,fromList_bind,fromList_readVector,fromList_readMoney,fromList_pure,bind_assoc,pure_bind]

@[simp] theorem fromList_readOutPoint : fromList readOutPoint = COutPoint.Unserialize := by
  simp only [readOutPoint,COutPoint.Unserialize,fromList_bind,fromList_readUInt,fromList_pure]

@[simp] theorem fromList_readTxIn : fromList readTxIn = CTxIn.Unserialize := by
  simp only [readTxIn,CTxIn.Unserialize,fromList_bind,fromList_readOutPoint,fromList_readBytes,fromList_readUInt,fromList_pure]

@[simp] theorem fromList_readTxOut : fromList readTxOut = CTxOut.Unserialize := by
  simp only [readTxOut,CTxOut.Unserialize,fromList_bind,fromList_readCash,fromList_readBytes,fromList_pure]

@[simp] theorem fromList_readTransaction : fromList readTransaction = CTransaction.Unserialize := by
  simp only [readTransaction,CTransaction.Unserialize,fromList_bind,fromList_readInt,fromList_readVector,fromList_readTxIn,fromList_readTxOut,
    fromList_readUInt,fromList_readBytes,fromList_pure]

@[simp] theorem fromList_readHeader : fromList readHeader = CBlockHeader.Unserialize := by
  simp only [readHeader,CBlockHeader.Unserialize,fromList_bind,fromList_readInt,fromList_readUInt,fromList_pure]

@[simp] theorem fromList_readKey (key : KeyBuffer) : fromList (readKey key) = key.Unserialize := by
  simp only [readKey,KeyBuffer.Unserialize,fromList_bind,fromList_ReadCompactSize,apply_ite fromList,fromList_bytes,fromList_many,fromList_pure]

/-- The same block, or the same error, as from a `CDataStream`. -/
theorem fromList_readBlock (cpbk : KeyBuffer) : fromList (readBlock cpbk) = CBlock.Unserialize cpbk := by
  simp only [readBlock,readRest,CBlock.Unserialize,fromList_bind,fromList_readHeader,fromList_readVector,fromList_readTransaction,fromList_readKey,
    fromList_readBytes,fromList_pure]

/-! ### The sizes of reads -/

/-- No read is of more bytes. -/
def Sized {α : Type} (limit : Nat) (reading : Streamed α) : Prop := reading.AtMost limit fun _ => True

section
variable {α β : Type} {limit : Nat}

theorem Sized.bind {reading : Streamed α} {f : α → Streamed β} (first : Sized limit reading) (then' : ∀ a, Sized limit (f a)) :
    Sized limit (reading >>= f) :=
  Piecewise.AtMost.bind first fun a _ => then' a

theorem Sized.map {reading : Streamed α} (first : Sized limit reading) (f : α → β) : Sized limit (f <$> reading) :=
  Piecewise.AtMost.map first f fun _ _ => trivial

theorem Sized.pure (a : α) : Sized limit (pure a : Streamed α) := trivial
theorem Sized.bytes {n : Nat} (few : n ≤ limit) : Sized limit (Piecewise.bytes n) := (Piecewise.AtMost.bytes few).weaken fun _ _ => trivial
theorem Sized.readUInt {k : Nat} (few : k ≤ limit) : Sized limit (readUInt k) := (Sized.bytes few).map _
theorem Sized.many {reading : Streamed α} (each : Sized limit reading) (n : Nat) : Sized limit (Piecewise.many reading n) := Piecewise.AtMost.many each n

theorem Sized.readHeader (enough : 32 ≤ limit) : Sized limit readHeader := by
  have number : Sized limit (Streamed.readUInt 4) := Sized.readUInt (by omega)
  have hash : Sized limit (Streamed.readUInt 32) := Sized.readUInt enough
  exact (number.map intOf).bind fun _ => hash.bind fun _ => hash.bind fun _ => number.bind fun _ => .pure _

theorem readSize_sized : Sized MAX_SIZE readSize := by
  refine Sized.bind (.readUInt (by decide)) fun _ => ?_
  split_ifs
  · exact .pure _
  · exact .readUInt (by decide)
  · exact .readUInt (by decide)
  · exact .readUInt (by decide)

theorem readCompactSize_most : ReadCompactSize.AtMost MAX_SIZE fun nSize => nSize ≤ MAX_SIZE := by
  refine Piecewise.AtMost.bind readSize_sized fun nSize _ => ?_
  split_ifs with large
  · trivial
  · exact Nat.le_of_not_lt large

theorem readChunks_sized (fuel nSize : Nat) : Sized MAX_SIZE (readChunks fuel nSize) := by
  have piece : 5000000 ≤ MAX_SIZE := by decide
  induction fuel generalizing nSize with
  | zero => exact .pure _
  | succ fuel ih =>
    rw [readChunks]
    split_ifs
    · exact .pure _
    · exact Sized.bind (.bytes ((Nat.min_le_right ..).trans piece)) fun _ => (ih _).bind fun _ => .pure _

theorem Sized.readBytes : Sized MAX_SIZE readBytes := Piecewise.AtMost.bind readCompactSize_most fun nSize _ => readChunks_sized nSize nSize
theorem Sized.readString : Sized MAX_SIZE readString := Piecewise.AtMost.bind readCompactSize_most fun _ few => Sized.bytes few
theorem Sized.readVector {reading : Streamed α} (each : Sized MAX_SIZE reading) : Sized MAX_SIZE (readVector reading) :=
  Piecewise.AtMost.bind readCompactSize_most fun nSize _ => each.many nSize

end

theorem Sized.readCash : Sized MAX_SIZE readCash := by
  have amount : Sized MAX_SIZE readAmount := (Sized.readUInt (by decide)).map _
  have money : Sized MAX_SIZE readMoney := Sized.readString.bind fun _ => amount.bind fun _ => .pure _
  exact money.readVector.bind fun _ => .pure _

theorem Sized.readTransaction : Sized MAX_SIZE readTransaction := by
  have number : Sized MAX_SIZE (Streamed.readUInt 4) := .readUInt (by decide)
  have point : Sized MAX_SIZE readOutPoint := (Sized.readUInt (by decide)).bind fun _ => number.bind fun _ => .pure _
  have txIn : Sized MAX_SIZE readTxIn := point.bind fun _ => Sized.readBytes.bind fun _ => number.bind fun _ => .pure _
  have txOut : Sized MAX_SIZE readTxOut := Sized.readCash.bind fun _ => Sized.readBytes.bind fun _ => .pure _
  exact (number.map intOf).bind fun _ => txIn.readVector.bind fun _ => txOut.readVector.bind fun _ => number.bind fun _ => Sized.readBytes.bind fun _ => .pure _

theorem Sized.readKey (key : KeyBuffer) : Sized MAX_SIZE (readKey key) := by
  refine Piecewise.AtMost.bind readCompactSize_most fun len few => ?_
  split_ifs
  · exact (Sized.bytes few).bind fun _ => .pure _
  · exact ((Sized.bytes (by decide)).many len).bind fun _ => .pure _

theorem Sized.readBlock (cpbk : KeyBuffer) : Sized MAX_SIZE (readBlock cpbk) :=
  (Sized.readHeader (by decide)).bind fun _ => Sized.readTransaction.readVector.bind fun _ => (Sized.readKey cpbk).bind fun _ =>
    Sized.readBytes.bind fun _ => .pure _

end Streamed

end Tetra
