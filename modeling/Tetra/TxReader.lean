import Mathlib
import Tetra.DeerRequest
import Tetra.Serialize
import Tetra.TxEquality

/-!
Reading transactions and maps of texts back from a stream, and numbers from a text.
-/
namespace Tetra
open Codec Maps
open Std (ExtTreeMap)

/-! ### Transactions -/

def COutPoint.Unserialize : Unserializer COutPoint := do
  let hash ← readUInt 32
  let n ← readUInt 4
  return ⟨hash,n⟩

def CTxIn.Unserialize : Unserializer CTxIn := do
  let prevout ← COutPoint.Unserialize
  let scriptSig ← readBytes
  let nSequence ← readUInt 4
  return ⟨prevout,scriptSig,nSequence⟩

def CTxOut.Unserialize : Unserializer CTxOut := do
  let nValue ← Cash.Unserialize
  let scriptPubKey ← readBytes
  return ⟨nValue,scriptPubKey⟩

def CTransaction.Unserialize : Unserializer CTransaction := do
  let nVersion ← readInt
  let vin ← readVector CTxIn.Unserialize
  let vout ← readVector CTxOut.Unserialize
  let nLockTime ← readUInt 4
  let Attachments ← readBytes
  return ⟨nVersion,vin,vout,nLockTime,Attachments⟩

def CMerkleTx.Serialize (tx : CMerkleTx) : List UInt8 :=
  tx.toCTransaction.Serialize ++ leBytes 32 tx.hashBlock ++ vectorForm (leBytes 32) tx.vMerkleBranch ++ intBytes tx.nIndex

def CMerkleTx.Unserialize : Unserializer CMerkleTx := do
  let tx ← CTransaction.Unserialize
  let hashBlock ← readUInt 32
  let vMerkleBranch ← readVector (readUInt 32)
  let nIndex ← readInt
  return {toCTransaction := tx,hashBlock := hashBlock,vMerkleBranch := vMerkleBranch,nIndex := nIndex}

/-- What comes back of an output: the circuit-free amount is 0. -/
def CTxOut.loaded (out : CTxOut) : CTxOut := {out with nValue := {out.nValue with fixed := 0}}
def CTransaction.loaded (tx : CTransaction) : CTransaction := {tx with vout := tx.vout.map CTxOut.loaded}
def CMerkleTx.loaded (tx : CMerkleTx) : CMerkleTx := {tx with toCTransaction := tx.toCTransaction.loaded}

structure CMerkleTx.Readable (tx : CMerkleTx) : Prop where
  frame : tx.toCTransaction.Fits MAX_SIZE
  hashBlock : tx.hashBlock < 2^256
  vMerkleBranch : tx.vMerkleBranch.length ≤ MAX_SIZE ∧ ∀ hash ∈ tx.vMerkleBranch, hash < 2^256
  nIndex : FitsInt tx.nIndex

theorem decodes_outPoint {out : COutPoint} (fits : out.Fits) : Decodes COutPoint.Unserialize out.Serialize out :=
  (decodes_uint fits.1).bind ((decodes_uint fits.2).return fun n => (⟨out.hash,n⟩ : COutPoint))

theorem decodes_txIn {txin : CTxIn} (fits : txin.Fits MAX_SIZE) : Decodes CTxIn.Unserialize txin.Serialize txin := by
  rw [CTxIn.Serialize,List.append_assoc]
  exact (decodes_outPoint fits.prevout).bind ((decodes_bytes fits.scriptSig).bind
    ((decodes_uint fits.nSequence).return fun nSequence => (⟨txin.prevout,txin.scriptSig,nSequence⟩ : CTxIn)))

theorem decodes_txOut {out : CTxOut} (fits : out.Fits MAX_SIZE) : Decodes CTxOut.Unserialize out.Serialize out.loaded :=
  (decodes_cash fits.nValue).bind ((decodes_bytes fits.scriptPubKey).return fun scriptPubKey => (⟨{out.nValue with fixed := 0},scriptPubKey⟩ : CTxOut))

/-- A vector of what comes back changed. -/
theorem decodes_vector_map {α : Type} {reader : Unserializer α} {form : α → List UInt8} {back : α → α} {v : List α} (fits : v.length ≤ MAX_SIZE)
    (reads : ∀ a ∈ v, Decodes reader (form a) (back a)) : Decodes (readVector reader) (vectorForm form v) (v.map back) := by
  have items : Decodes (many reader v.length) (v.flatMap form) (v.map back) := by
    clear fits
    induction v with
    | nil => exact .pure []
    | cons a v ih =>
      have rest := ih fun b member => reads b (List.mem_cons_of_mem _ member)
      exact (reads a (List.mem_cons_self ..)).bind (rest.return (back a :: ·))
  exact (decodes_compactSize fits).bind items

theorem decodes_transaction {tx : CTransaction} (fits : tx.Fits MAX_SIZE) : Decodes CTransaction.Unserialize tx.Serialize tx.loaded := by
  rw [CTransaction.Serialize,List.append_assoc,List.append_assoc,List.append_assoc]
  exact (decodes_int fits.nVersion).bind ((decodes_vector fits.vin.1 fun txin member => decodes_txIn (fits.vin.2 txin member)).bind
    ((decodes_vector_map fits.vout.1 fun out member => decodes_txOut (fits.vout.2 out member)).bind
      ((decodes_uint fits.nLockTime).bind ((decodes_bytes fits.Attachments).return fun Attachments =>
        (⟨tx.nVersion,tx.vin,tx.vout.map CTxOut.loaded,tx.nLockTime,Attachments⟩ : CTransaction)))))

theorem decodes_merkleTx {tx : CMerkleTx} (fits : tx.Readable) : Decodes CMerkleTx.Unserialize tx.Serialize tx.loaded := by
  rw [CMerkleTx.Serialize,List.append_assoc,List.append_assoc]
  exact (decodes_transaction fits.frame).bind ((decodes_uint fits.hashBlock).bind
    ((decodes_vector fits.vMerkleBranch.1 fun hash member => decodes_uint (fits.vMerkleBranch.2 hash member)).bind
      ((decodes_int fits.nIndex).return fun nIndex =>
        ({toCTransaction := tx.toCTransaction.loaded,hashBlock := tx.hashBlock,vMerkleBranch := tx.vMerkleBranch,nIndex := nIndex} : CMerkleTx))))

/-! ### Maps of texts -/

abbrev mapValue_t := ExtTreeMap Text Text

def pairForm (p : Text × Text) : List UInt8 := bytesForm p.1 ++ bytesForm p.2
def readPair : Unserializer (Text × Text) := do
  let key ← readBytes
  let value ← readBytes
  return (key,value)

def mapValue_t.Serialize (m : mapValue_t) : List UInt8 := vectorForm pairForm m.toList
def mapValue_t.Unserialize : Unserializer mapValue_t := do
  let entries ← readVector readPair
  return entries.foldl (fun m e => m.insertIfNew e.1 e.2) ∅

def FitsPair (p : Text × Text) : Prop := p.1.length ≤ MAX_SIZE ∧ p.2.length ≤ MAX_SIZE
def mapValue_t.Fits (m : mapValue_t) : Prop := m.size ≤ MAX_SIZE ∧ ∀ p ∈ m.toList, FitsPair p

theorem decodes_pair {p : Text × Text} (fits : FitsPair p) : Decodes readPair (pairForm p) p :=
  (decodes_bytes fits.1).bind ((decodes_bytes fits.2).return fun value => (p.1,value))

theorem decodes_mapValue {m : mapValue_t} (fits : m.Fits) : Decodes mapValue_t.Unserialize m.Serialize m := by
  have entries := @decodes_vector _ readPair pairForm m.toList (by rw [ExtTreeMap.length_toList]; exact fits.1)
    fun p member => decodes_pair (fits.2 p member)
  have read := entries.return fun entries => entries.foldl (fun m e => m.insertIfNew e.1 e.2) (∅ : mapValue_t)
  rw [foldl_insertIfNew_toList] at read
  exact read

/-- A map whose bytes are few enough fits. -/
theorem mapValue_t.fits_of_length {m : mapValue_t} (short : m.Serialize.length ≤ MAX_SIZE) : m.Fits := by
  have items : ∀ entries : List (Text × Text), entries.length ≤ (entries.flatMap pairForm).length ∧
      ∀ p ∈ entries, p.1.length+p.2.length ≤ (entries.flatMap pairForm).length := by
    intro entries
    induction entries with
    | nil => simp
    | cons p rest ih =>
      have written : p.1.length+p.2.length+1 ≤ (pairForm p).length := by
        have sized : 0 < (WriteCompactSize p.1.length).length := by
          rw [WriteCompactSize_length,GetSizeOfCompactSize]
          split_ifs <;> decide
        simp only [pairForm,bytesForm,List.length_append]
        omega
      rw [List.flatMap_cons,List.length_append,List.length_cons]
      refine ⟨by omega,fun q member => ?_⟩
      rcases List.mem_cons.mp member with rfl | member
      · omega
      · have := ih.2 q member
        omega
  obtain ⟨few,small⟩ := items m.toList
  rw [Serialize,vectorForm,List.length_append] at short
  refine ⟨by rw [← ExtTreeMap.length_toList]; omega,fun p member => ?_⟩
  have := small p member
  exact ⟨by omega,by omega⟩

/-! ### Numbers in a text -/

def isdigit (c : UInt8) : Bool := decide (0x30 ≤ c ∧ c ≤ 0x39)

/-- `strtoll(str, NULL, 10)` -/
def atoi64 (str : Text) : Int64 :=
  let body := str.dropWhile Deer.isspace
  let negative := body.head? == some 0x2D
  let digits := if negative || body.head? == some 0x2B then body.drop 1 else body
  let n : Int := ((digits.takeWhile isdigit).foldl (fun n c => 10*n+(c.toNat-0x30)) 0 : Nat)
  Int64.ofInt (max (-2^63) (min (2^63-1) (if negative then -n else n)))

/-- The digits of a number, as bytes. -/
def digitText (n : Nat) : Text := (Nat.toDigits 10 n).map fun c => UInt8.ofNat c.toNat

/-- `strprintf("%u", n)` -/
def utostr (n : Nat) : Text := digitText n

theorem digit_char {n : Nat} {c : Char} (member : c ∈ Nat.toDigits 10 n) : 48 ≤ c.toNat ∧ c.toNat ≤ 57 := by
  have digit := Nat.isDigit_of_mem_toDigits (by decide) (by decide) member
  simp only [Char.isDigit,Bool.and_eq_true,decide_eq_true_eq] at digit
  exact ⟨UInt32.le_iff_toNat_le.mp digit.1,UInt32.le_iff_toNat_le.mp digit.2⟩

/-- A digit is no space and no sign. -/
theorem digitText_digits {n : Nat} : ∀ c ∈ digitText n, isdigit c = true ∧ Deer.isspace c = false ∧ c ≠ 0x2D ∧ c ≠ 0x2B := by
  intro c member
  obtain ⟨char,digit,rfl⟩ := List.mem_map.mp member
  obtain ⟨low,high⟩ := digit_char digit
  have value : (UInt8.ofNat char.toNat).toNat = char.toNat := by
    rw [UInt8.toNat_ofNat',Nat.mod_eq_of_lt (by omega)]
  simp only [isdigit,Deer.isspace,UInt8.le_iff_toNat_le,ne_eq,← UInt8.toNat_inj,value,decide_eq_true_eq,Bool.or_eq_false_iff,beq_eq_false_iff_ne,
    decide_eq_false_iff_not]
  refine ⟨⟨low,high⟩,⟨?_,?_⟩,?_,?_⟩
  · simp
    omega
  · simp
    omega
  · simp
    omega
  · simp
    omega

theorem digitText_ne_nil (n : Nat) : digitText n ≠ [] := by
  rw [digitText,ne_eq,List.map_eq_nil_iff]
  exact Nat.toDigits_ne_nil

theorem digitText_value (n : Nat) : (digitText n).foldl (fun n c => 10*n+(c.toNat-0x30)) 0 = n := by
  have same : ∀ (acc : Nat), ∀ c ∈ Nat.toDigits 10 n, 10*acc+((UInt8.ofNat c.toNat).toNat-0x30) = 10*acc+(c.toNat - '0'.toNat) := by
    intro acc c member
    have value : (UInt8.ofNat c.toNat).toNat = c.toNat := by
      have := (digit_char member).2
      rw [UInt8.toNat_ofNat',Nat.mod_eq_of_lt (by omega)]
    rw [value]
    rfl
  rw [digitText,List.foldl_map,List.foldl_ext _ _ _ same,← Nat.ofDigitChars_eq_foldl,Nat.ofDigitChars_ten_toDigits]

/-- The digits are all taken, and none is a sign. -/
theorem digitText_taken (n : Nat) : (digitText n).takeWhile isdigit = digitText n ∧ (digitText n).dropWhile Deer.isspace = digitText n ∧
    (digitText n).head? ≠ some 0x2D ∧ (digitText n).head? ≠ some 0x2B := by
  have all := @digitText_digits n
  cases digits : digitText n with
  | nil => exact absurd digits (digitText_ne_nil n)
  | cons c rest =>
    rw [digits] at all
    obtain ⟨-,space,minus,plus⟩ := all c (List.mem_cons_self ..)
    refine ⟨List.takeWhile_eq_self_iff.mpr fun d member => (all d member).1,?_,?_,?_⟩
    · rw [List.dropWhile_cons_of_neg (by simp [space])]
    · simpa using minus
    · simpa using plus

/-- What is printed without a sign is read back. -/
theorem atoi64_digits {n : Nat} (small : n < 2^63) : atoi64 (digitText n) = Int64.ofInt n := by
  obtain ⟨taken,kept,minus,plus⟩ := digitText_taken n
  have negative : ((digitText n).head? == some 0x2D) = false := by simpa using minus
  have positive : ((digitText n).head? == some 0x2B) = false := by simpa using plus
  have within : max (-2^63) (min (2^63-1) (n : Int)) = n := by omega
  simp only [atoi64,kept,negative,positive,Bool.or_self,Bool.false_eq_true,if_false,taken,digitText_value,within]

theorem atoi64_minus {n : Nat} (small : n ≤ 2^63) : atoi64 (0x2D :: digitText n) = Int64.ofInt (-n) := by
  obtain ⟨taken,-,-,-⟩ := digitText_taken n
  have kept : (0x2D :: digitText n).dropWhile Deer.isspace = 0x2D :: digitText n := List.dropWhile_cons_of_neg (by decide)
  have negative : ((0x2D :: digitText n).head? == some 0x2D) = true := by simp
  have within : max (-2^63) (min (2^63-1) (-(n : Int))) = -n := by omega
  simp only [atoi64,kept,negative,Bool.true_or,if_true,List.drop_succ_cons,List.drop_zero,taken,digitText_value,within]

theorem atoi64_decimal (n : Int64) : atoi64 (Deer.decimal n) = n := by
  have low : -2^63 ≤ n.toInt := Int64.le_toInt n
  have high : n.toInt < 2^63 := Int64.toInt_lt n
  have form : Deer.decimal n = if n.toInt < 0 then 0x2D :: digitText n.toInt.natAbs else digitText n.toInt.natAbs := rfl
  rw [form]
  split
  · next negative =>
    have back : -(n.toInt.natAbs : Int) = n.toInt := by omega
    rw [atoi64_minus (by omega),back,Int64.ofInt_toInt]
  · next positive =>
    have back : (n.toInt.natAbs : Int) = n.toInt := by omega
    rw [atoi64_digits (by omega),back,Int64.ofInt_toInt]

end Tetra
