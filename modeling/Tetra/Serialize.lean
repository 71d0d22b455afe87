import Mathlib
import Tetra.Codec
import Tetra.Maps
import Tetra.Primitives

/-!
The bytes of numbers, vectors, strings and maps in a stream, and of transactions. What is
written is read back, and the bytes of a transaction tell everything of it that is written.
-/
namespace Tetra
open Codec Maps
open Std (ExtTreeMap)

abbrev Unserializer := Reader String

def readData (nSize : Nat) : Unserializer (List UInt8) := Codec.take "CDataStream::read() : end of data" nSize

/-- An unsigned number of `k` bytes. -/
def readUInt (k : Nat) : Unserializer Nat := leNat <$> readData k

/-- A signed number of 4 bytes. -/
def intBytes (n : Int) : List UInt8 := leBytes 4 (n%2^32).toNat
def intOf (n : Nat) : Int := if n < 2^31 then n else n-2^32
def readInt : Unserializer Int := intOf <$> readUInt 4

def amountBytes (v : Amount) : List UInt8 := leBytes 8 v.toBitVec.toNat
def readAmount : Unserializer Amount := (fun n => Int64.ofBitVec (BitVec.ofNat 64 n)) <$> readUInt 8

def WriteCompactSize (nSize : Nat) : List UInt8 :=
  if nSize < 253 then leBytes 1 nSize
  else if nSize ≤ 0xFFFF then leBytes 1 253 ++ leBytes 2 nSize
  else if nSize ≤ 0xFFFFFFFF then leBytes 1 254 ++ leBytes 4 nSize
  else leBytes 1 255 ++ leBytes 8 nSize

/-- The number that `ReadCompactSize` finds, before it checks it. -/
def readSize : Unserializer Nat := do
  let chSize ← readUInt 1
  if chSize < 253 then return chSize
  else if chSize = 253 then readUInt 2
  else if chSize = 254 then readUInt 4
  else readUInt 8

def ReadCompactSize : Unserializer Nat := do
  let nSizeRet ← readSize
  if nSizeRet > MAX_SIZE then throw "ReadCompactSize() : size too large" else return nSizeRet

/-- A vector of bytes or a string. -/
def bytesForm (v : List UInt8) : List UInt8 := WriteCompactSize v.length ++ v
def readBytes : Unserializer (List UInt8) := do
  let nSize ← ReadCompactSize
  readData nSize

/-- A vector of anything else. -/
def vectorForm {α : Type} (form : α → List UInt8) (v : List α) : List UInt8 := WriteCompactSize v.length ++ v.flatMap form
def readVector {α : Type} (reader : Unserializer α) : Unserializer (List α) := do
  let nSize ← ReadCompactSize
  many reader nSize

/-- An entry of a `Cash`. -/
def moneyForm (e : CashName × Amount) : List UInt8 := bytesForm e.1 ++ amountBytes e.2
def readMoney : Unserializer (CashName × Amount) := do
  let name ← readBytes
  let amount ← readAmount
  return (name,amount)

def CashStruct.Serialize (m : CashStruct) : List UInt8 := WriteCompactSize m.size ++ m.toList.flatMap moneyForm
def CashStruct.Unserialize : Unserializer CashStruct := do
  let entries ← readVector readMoney
  return entries.foldl (fun m e => m.insertIfNew e.1 e.2) ∅

/-- The circuit-free amount is not written, and is 0 in a new object. -/
def Cash.Serialize (x : Cash) : List UInt8 := CashStruct.Serialize x.locals
def Cash.Unserialize : Unserializer Cash := do
  let locals ← CashStruct.Unserialize
  return ⟨locals,0⟩

def COutPoint.Serialize (out : COutPoint) : List UInt8 := leBytes 32 out.hash ++ leBytes 4 out.n
def CTxIn.Serialize (txin : CTxIn) : List UInt8 := txin.prevout.Serialize ++ bytesForm txin.scriptSig ++ leBytes 4 txin.nSequence
def CTxOut.Serialize (out : CTxOut) : List UInt8 := out.nValue.Serialize ++ bytesForm out.scriptPubKey
def CTransaction.Serialize (tx : CTransaction) : List UInt8 :=
  intBytes tx.nVersion ++ vectorForm CTxIn.Serialize tx.vin ++ vectorForm CTxOut.Serialize tx.vout ++ leBytes 4 tx.nLockTime ++
    bytesForm tx.Attachments

/-! ### Numbers -/

theorem decodes_data (bytes : List UInt8) : Decodes (readData bytes.length) bytes bytes := decodes_take _ bytes

theorem decodes_uint {k n : Nat} (fits : n < 256^k) : Decodes (readUInt k) (leBytes k n) n := by
  have read := (decodes_take "CDataStream::read() : end of data" (leBytes k n)).map leNat
  rw [leBytes_length,leNat_leBytes fits] at read
  exact read

/-- The values of an `int`. -/
def FitsInt (n : Int) : Prop := -2^31 ≤ n ∧ n < 2^31

theorem decodes_int {n : Int} (fits : FitsInt n) : Decodes readInt (intBytes n) n := by
  have read := (@decodes_uint 4 (n%2^32).toNat (by omega)).map intOf
  have back : intOf (n%2^32).toNat = n := by
    obtain ⟨low,high⟩ := fits
    unfold intOf
    split <;> omega
  rw [back] at read
  exact read

theorem decodes_amount (v : Amount) : Decodes readAmount (amountBytes v) v := by
  have read := (@decodes_uint 8 v.toBitVec.toNat v.toBitVec.isLt).map fun n => Int64.ofBitVec (BitVec.ofNat 64 n)
  have back : Int64.ofBitVec (BitVec.ofNat 64 v.toBitVec.toNat) = v := by simp
  rw [back] at read
  exact read

theorem decodes_size {n : Nat} (fits : n < 2^64) : Decodes readSize (WriteCompactSize n) n := by
  unfold WriteCompactSize readSize
  split
  next small =>
    rw [← List.append_nil (leBytes 1 n)]
    refine (decodes_uint (by omega)).bind ?_
    rw [if_pos small]
    exact .pure n
  · split
    · exact (decodes_uint (by decide)).bind (decodes_uint (by omega))
    · split
      · exact (decodes_uint (by decide)).bind (decodes_uint (by omega))
      · exact (decodes_uint (by decide)).bind (decodes_uint (by omega))

theorem decodes_compactSize {n : Nat} (fits : n ≤ MAX_SIZE) : Decodes ReadCompactSize (WriteCompactSize n) n := by
  have small : MAX_SIZE < 2^64 := by decide
  rw [← List.append_nil (WriteCompactSize n)]
  refine (decodes_size (by omega)).bind ?_
  rw [if_neg (by omega)]
  exact .pure n

theorem prefixFree_compactSize : PrefixFree WriteCompactSize fun n => n < 2^64 := .of_decodes fun _ => decodes_size

theorem WriteCompactSize_length (n : Nat) : (WriteCompactSize n).length = GetSizeOfCompactSize n := by
  unfold WriteCompactSize GetSizeOfCompactSize
  split
  · rfl
  · split
    · rfl
    · split <;> rfl

/-! ### Vectors and maps -/

theorem decodes_bytes {v : List UInt8} (fits : v.length ≤ MAX_SIZE) : Decodes readBytes (bytesForm v) v :=
  (decodes_compactSize fits).bind (decodes_data v)

theorem decodes_vector {α : Type} {reader : Unserializer α} {form : α → List UInt8} {v : List α} (fits : v.length ≤ MAX_SIZE)
    (reads : ∀ a ∈ v, Decodes reader (form a) a) : Decodes (readVector reader) (vectorForm form v) v :=
  (decodes_compactSize fits).bind (.many reads)

theorem prefixFree_vector {α : Type} {form : α → List UInt8} {ok : α → Prop} (free : PrefixFree form ok) :
    PrefixFree (vectorForm form) fun v => v.length < 2^64 ∧ ∀ a ∈ v, ok a := prefixFree_compactSize.counted free

theorem bytesForm_eq (v : List UInt8) : bytesForm v = vectorForm (fun byte => [byte]) v := by
  rw [bytesForm,vectorForm,List.flatMap_singleton']

theorem prefixFree_bytes : PrefixFree bytesForm fun v => v.length < 2^64 := by
  have byte : PrefixFree (fun byte : UInt8 => [byte]) fun _ => True :=
    .of_length 1 (fun _ _ => rfl) fun a b _ _ same => List.singleton_inj.mp same
  intro v w x y left right same
  rw [bytesForm_eq,bytesForm_eq] at same
  exact prefixFree_vector byte v w x y ⟨left,fun _ _ => trivial⟩ ⟨right,fun _ _ => trivial⟩ same

/-- The names are no longer than what is read. -/
def CashStruct.Fits (nSize : Nat) (m : CashStruct) : Prop := m.size ≤ nSize ∧ ∀ e ∈ m.toList, e.1.length ≤ nSize

theorem decodes_money {e : CashName × Amount} (fits : e.1.length ≤ MAX_SIZE) : Decodes readMoney (moneyForm e) e :=
  (decodes_bytes fits).bind ((decodes_amount e.2).return fun amount => (e.1,amount))

theorem decodes_cashStruct {m : CashStruct} (fits : m.Fits MAX_SIZE) : Decodes CashStruct.Unserialize m.Serialize m := by
  have sized : m.toList.length = m.size := ExtTreeMap.length_toList
  have entries := @decodes_vector _ readMoney moneyForm m.toList (by rw [sized]; exact fits.1) fun e member => decodes_money (fits.2 e member)
  have read := entries.return fun entries => entries.foldl (fun m e => m.insertIfNew e.1 e.2) (∅ : CashStruct)
  rw [foldl_insertIfNew_toList,vectorForm,sized] at read
  exact read

theorem decodes_cash {x : Cash} (fits : x.locals.Fits MAX_SIZE) : Decodes Cash.Unserialize x.Serialize {x with fixed := 0} :=
  (decodes_cashStruct fits).return fun locals => (⟨locals,0⟩ : Cash)

theorem moneyForm_length (e : CashName × Amount) : (moneyForm e).length = bytesSize e.1+8 := by
  rw [moneyForm,bytesForm,amountBytes,List.length_append,List.length_append,WriteCompactSize_length,leBytes_length,bytesSize]

theorem Cash.Serialize_length (x : Cash) : x.Serialize.length = x.GetSerializeSize := by
  rw [Cash.Serialize,CashStruct.Serialize,List.length_append,WriteCompactSize_length,List.length_flatMap,Cash.GetSerializeSize,Cash.size]
  congr 3
  funext e
  exact moneyForm_length e

theorem prefixFree_int : PrefixFree intBytes FitsInt := .of_decodes fun _ => decodes_int

theorem prefixFree_money : PrefixFree moneyForm fun e => e.1.length < 2^64 := by
  have amounts : PrefixFree amountBytes fun _ => True := .of_decodes fun v _ => decodes_amount v
  exact (prefixFree_bytes.append amounts).weaken fun _ short => ⟨short,trivial⟩

theorem prefixFree_cashStruct : PrefixFree CashStruct.Serialize (CashStruct.Fits (2^64-1)) := by
  intro m m' x y left right same
  have sized : ∀ m : CashStruct, m.Serialize = vectorForm moneyForm m.toList := by
    intro m
    rw [vectorForm,ExtTreeMap.length_toList]
    rfl
  have fits : ∀ m : CashStruct, m.Fits (2^64-1) → m.toList.length < 2^64 ∧ ∀ e ∈ m.toList, e.1.length < 2^64 := by
    intro m ⟨few,short⟩
    rw [ExtTreeMap.length_toList]
    exact ⟨by omega,fun e member => Nat.lt_of_le_of_lt (short e member) (by decide)⟩
  rw [sized,sized] at same
  obtain ⟨entries,rest⟩ := prefixFree_vector prefixFree_money _ _ x y (fits m left) (fits m' right) same
  refine ⟨ExtTreeMap.ext_getElem? fun k => Option.ext fun v => ?_,rest⟩
  rw [← ExtTreeMap.mem_toList_iff_getElem?_eq_some,entries,ExtTreeMap.mem_toList_iff_getElem?_eq_some]

/-! ### Transactions -/

def COutPoint.Fits (out : COutPoint) : Prop := out.hash < 2^256 ∧ out.n < 2^32

/-- The values that an input in memory has; `nSize` bounds the length of its script. -/
structure CTxIn.Fits (nSize : Nat) (txin : CTxIn) : Prop where
  prevout : txin.prevout.Fits
  scriptSig : txin.scriptSig.length ≤ nSize
  nSequence : txin.nSequence < 2^32

structure CTxOut.Fits (nSize : Nat) (out : CTxOut) : Prop where
  nValue : out.nValue.locals.Fits nSize
  scriptPubKey : out.scriptPubKey.length ≤ nSize

/-- The values that a transaction in memory has, with vectors of at most `nSize`. -/
structure CTransaction.Fits (nSize : Nat) (tx : CTransaction) : Prop where
  nVersion : FitsInt tx.nVersion
  vin : tx.vin.length ≤ nSize ∧ ∀ txin ∈ tx.vin, txin.Fits nSize
  vout : tx.vout.length ≤ nSize ∧ ∀ out ∈ tx.vout, out.Fits nSize
  nLockTime : tx.nLockTime < 2^32
  Attachments : tx.Attachments.length ≤ nSize

theorem prefixFree_outPoint : PrefixFree COutPoint.Serialize COutPoint.Fits := by
  have free := (prefixFree_leBytes 32).append (prefixFree_leBytes 4)
  have injective : Function.Injective fun out : COutPoint => (out.hash,out.n) := by
    rintro ⟨hash,n⟩ ⟨hash',n'⟩ same
    obtain ⟨rfl,rfl⟩ := Prod.mk.inj same
    rfl
  exact (free.comap injective).weaken fun _ fits => ⟨fits.1,fits.2⟩

theorem prefixFree_txIn : PrefixFree CTxIn.Serialize (CTxIn.Fits (2^64-1)) := by
  have free := (prefixFree_outPoint.append prefixFree_bytes).append (prefixFree_leBytes 4)
  have injective : Function.Injective fun txin : CTxIn => ((txin.prevout,txin.scriptSig),txin.nSequence) := by
    rintro ⟨prevout,scriptSig,nSequence⟩ ⟨prevout',scriptSig',nSequence'⟩ same
    obtain ⟨first,rfl⟩ := Prod.mk.inj same
    obtain ⟨rfl,rfl⟩ := Prod.mk.inj first
    rfl
  exact (free.comap injective).weaken fun _ fits => ⟨⟨fits.prevout,Nat.lt_of_le_of_lt fits.scriptSig (by decide)⟩,fits.nSequence⟩

/-- What is written of an output. -/
def CTxOut.written (out : CTxOut) : CashStruct × CScript := (out.nValue.locals,out.scriptPubKey)

/-- What is written of a transaction. -/
def CTransaction.written (tx : CTransaction) : (((Int × List CTxIn) × List (CashStruct × CScript)) × Nat) × List UInt8 :=
  ((((tx.nVersion,tx.vin),tx.vout.map CTxOut.written),tx.nLockTime),tx.Attachments)

/-- The bytes of a transaction tell what is written of it. -/
theorem CTransaction.Serialize_inj {a b : CTransaction} (left : a.Fits (2^64-1)) (right : b.Fits (2^64-1)) :
    a.Serialize = b.Serialize ↔ a.written = b.written := by
  have outs := prefixFree_vector (prefixFree_cashStruct.append prefixFree_bytes)
  have free := (((prefixFree_int.append (prefixFree_vector prefixFree_txIn)).append outs).append (prefixFree_leBytes 4)).append prefixFree_bytes
  have form : ∀ tx : CTransaction, tx.Serialize = intBytes tx.written.1.1.1.1 ++ vectorForm CTxIn.Serialize tx.written.1.1.1.2 ++
      vectorForm (fun p => CashStruct.Serialize p.1 ++ bytesForm p.2) tx.written.1.1.2 ++ leBytes 4 tx.written.1.2 ++ bytesForm tx.written.2 := by
    intro tx
    have same : vectorForm CTxOut.Serialize tx.vout =
        vectorForm (fun p => CashStruct.Serialize p.1 ++ bytesForm p.2) (tx.vout.map CTxOut.written) := by
      rw [vectorForm,vectorForm,List.length_map,List.flatMap_map]
      rfl
    rw [CTransaction.Serialize,same]
    rfl
  have fits : ∀ tx : CTransaction, tx.Fits (2^64-1) → (((FitsInt tx.written.1.1.1.1 ∧ tx.written.1.1.1.2.length < 2^64 ∧
      ∀ txin ∈ tx.written.1.1.1.2, txin.Fits (2^64-1)) ∧ tx.written.1.1.2.length < 2^64 ∧
      ∀ p ∈ tx.written.1.1.2, CashStruct.Fits (2^64-1) p.1 ∧ p.2.length < 2^64) ∧ tx.written.1.2 < 256^4) ∧ tx.written.2.length < 2^64 := by
    intro tx fits
    refine ⟨⟨⟨⟨fits.nVersion,Nat.lt_of_le_of_lt fits.vin.1 (by decide),fits.vin.2⟩,?_,?_⟩,fits.nLockTime⟩,
      Nat.lt_of_le_of_lt fits.Attachments (by decide)⟩
    · show (tx.vout.map CTxOut.written).length < 2^64
      rw [List.length_map]
      exact Nat.lt_of_le_of_lt fits.vout.1 (by decide)
    · intro p member
      obtain ⟨out,inside,rfl⟩ := List.mem_map.mp member
      exact ⟨(fits.vout.2 out inside).nValue,Nat.lt_of_le_of_lt (fits.vout.2 out inside).scriptPubKey (by decide)⟩
  rw [form a,form b]
  constructor
  · exact free.injective (fits a left) (fits b right)
  · intro same
    rw [same]

end Tetra
