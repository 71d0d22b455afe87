import Mathlib
import Tetra.Block
import Tetra.EndorseMessages
import Tetra.KeyBytes
import Tetra.Tidy
import Tetra.TxReader

/-!
The bytes of a block in a stream, and the sizes of transactions and blocks as a 32-bit
count. What is read back is what was written, and no transaction or block begins with the
bytes of another. The circuit-free amount of a value is not written.
-/
namespace Tetra
open Codec

def CBlockHeader.Serialize (header : CBlockHeader) : List UInt8 :=
  intBytes header.nVersion ++ leBytes 32 header.hashPrevBlock ++ leBytes 32 header.hashMerkleRoot ++ leBytes 4 header.nTime

def CBlockHeader.Unserialize : Unserializer CBlockHeader := do
  let nVersion ← readInt
  let hashPrevBlock ← readUInt 32
  let hashMerkleRoot ← readUInt 32
  let nTime ← readUInt 4
  return ⟨nVersion,hashPrevBlock,hashMerkleRoot,nTime⟩

/-- The key is its bytes from begin to end. -/
def CBlock.Serialize (block : CBlock) : List UInt8 :=
  block.toCBlockHeader.Serialize ++ vectorForm CTransaction.Serialize block.vtx ++ bytesForm block.cpbk ++ bytesForm block.vchSig

/-- Reads into a block with that key in memory. -/
def CBlock.Unserialize (cpbk : KeyBuffer) : Unserializer CBlock := do
  let header ← CBlockHeader.Unserialize
  let vtx ← readVector CTransaction.Unserialize
  let cpbk ← cpbk.Unserialize
  let vchSig ← readBytes
  return {toCBlockHeader := header,vtx := vtx,cpbk := cpbk.bytes,vchSig := vchSig}

/-- What `GetSerializeSize` returns: sizes are added in 32 bits. -/
def CTransaction.nSerSize (tx : CTransaction) : Nat := tx.GetSerializeSize%2^32
def CBlock.nSerSize (block : CBlock) : Nat := block.GetSerializeSize%2^32

/-- The values that a header in memory has. -/
structure CBlockHeader.Fits (header : CBlockHeader) : Prop where
  nVersion : FitsInt header.nVersion
  hashPrevBlock : header.hashPrevBlock < 2^256
  hashMerkleRoot : header.hashMerkleRoot < 2^256
  nTime : header.nTime < 2^32

/-- The values that a block in memory has, with vectors that are read. -/
structure CBlock.Fits (block : CBlock) : Prop where
  header : block.toCBlockHeader.Fits
  vtx : block.vtx.length ≤ MAX_SIZE ∧ ∀ tx ∈ block.vtx, tx.Fits MAX_SIZE
  cpbk : block.cpbk = [] ∨ block.cpbk.IsWhole
  vchSig : block.vchSig.length ≤ MAX_SIZE

def CBlock.loaded (block : CBlock) : CBlock := {block with vtx := block.vtx.map CTransaction.loaded}
def CBlock.OffWire (block : CBlock) : Prop := ∀ tx ∈ block.vtx, tx.OffWire

/-! ### Lengths -/

theorem bytesForm_length (v : List UInt8) : (bytesForm v).length = bytesSize v := by
  rw [bytesForm,List.length_append,WriteCompactSize_length,bytesSize]

theorem vectorForm_length {α : Type} {form : α → List UInt8} {size : α → Nat} (sized : ∀ a, (form a).length = size a) (v : List α) :
    (vectorForm form v).length = GetSizeOfCompactSize v.length+(v.map size).sum := by
  rw [vectorForm,List.length_append,WriteCompactSize_length,List.length_flatMap]
  simp only [sized]

theorem CTxIn.Serialize_length (txin : CTxIn) : txin.Serialize.length = txin.GetSerializeSize := by
  simp only [CTxIn.Serialize,COutPoint.Serialize,List.length_append,leBytes_length,bytesForm_length,CTxIn.GetSerializeSize]

theorem CTxOut.Serialize_length (out : CTxOut) : out.Serialize.length = out.GetSerializeSize := by
  rw [CTxOut.Serialize,List.length_append,Cash.Serialize_length,bytesForm_length,CTxOut.GetSerializeSize]

theorem CTransaction.Serialize_length (tx : CTransaction) : tx.Serialize.length = tx.GetSerializeSize := by
  simp only [CTransaction.Serialize,List.length_append,intBytes,leBytes_length,bytesForm_length,vectorForm_length CTxIn.Serialize_length,
    vectorForm_length CTxOut.Serialize_length,CTransaction.GetSerializeSize]

theorem CPubKey.length_le {pk : CPubKey} (key : pk = [] ∨ pk.IsWhole) : pk.length ≤ 65 := by
  rcases key with rfl | ⟨chHeader,rest,-,whole⟩
  · exact Nat.zero_le _
  · have lengths := KeyBuffer.GetLen_cases chHeader
    omega

theorem CBlock.Serialize_length {block : CBlock} (key : block.cpbk = [] ∨ CPubKey.IsWhole block.cpbk) :
    block.Serialize.length = block.GetSerializeSize := by
  have short := CPubKey.length_le key
  have one : bytesSize block.cpbk = block.cpbk.length+1 := by
    rw [bytesSize,GetSizeOfCompactSize,if_pos (by omega),Nat.add_comm]
  simp only [CBlock.Serialize,CBlockHeader.Serialize,List.length_append,intBytes,leBytes_length,bytesForm_length,
    vectorForm_length CTransaction.Serialize_length,one,CBlock.GetSerializeSize]

/-! ### Round trips -/

theorem decodes_header {header : CBlockHeader} (fits : header.Fits) : Decodes CBlockHeader.Unserialize header.Serialize header := by
  rw [CBlockHeader.Serialize,List.append_assoc,List.append_assoc]
  exact (decodes_int fits.nVersion).bind ((decodes_uint fits.hashPrevBlock).bind ((decodes_uint fits.hashMerkleRoot).bind
    ((decodes_uint fits.nTime).return fun nTime => (⟨header.nVersion,header.hashPrevBlock,header.hashMerkleRoot,nTime⟩ : CBlockHeader))))

/-- A key object is written as its bytes are in a block. -/
theorem KeyBuffer.Serialize_bytes (key : KeyBuffer) : key.Serialize = bytesForm key.bytes := by
  rw [KeyBuffer.Serialize,bytesForm,KeyBuffer.bytes_length]

/-- A whole key replaces what was there, and no key leaves it. -/
theorem decodes_cpbk {pk : CPubKey} {old : KeyBuffer} (key : pk = [] ∨ pk.IsWhole) (unused : pk = [] → old.size = 0) :
    ∃ read, Decodes old.Unserialize (bytesForm pk) read ∧ read.bytes = pk := by
  have short := CPubKey.length_le key
  have read := old.decodes_short short
  have form : bytesForm pk = UInt8.ofNat pk.length :: pk := by
    rw [bytesForm,KeyBuffer.WriteCompactSize_one short]
    rfl
  rw [← form] at read
  refine ⟨old.copy pk,read,?_⟩
  rcases key with rfl | ⟨chHeader,rest,rfl,whole⟩
  · rw [old.copy_nil]
    exact List.length_eq_zero_iff.mp (old.bytes_length.trans (unused rfl))
  · exact old.copy_bytes whole.symm

theorem decodes_block {block : CBlock} {old : KeyBuffer} (fits : block.Fits) (unused : block.cpbk = [] → old.size = 0) :
    Decodes (CBlock.Unserialize old) block.Serialize block.loaded := by
  obtain ⟨cpbk,read,same⟩ := decodes_cpbk fits.cpbk unused
  have whole := (decodes_bytes fits.vchSig).return fun vchSig =>
    ({toCBlockHeader := block.toCBlockHeader,vtx := block.vtx.map CTransaction.loaded,cpbk := cpbk.bytes,vchSig := vchSig} : CBlock)
  rw [CBlock.loaded,← same]
  rw [CBlock.Serialize,List.append_assoc,List.append_assoc]
  exact (decodes_header fits.header).bind ((decodes_vector_map fits.vtx.1 fun tx member => decodes_transaction (fits.vtx.2 tx member)).bind
    (read.bind whole))

private theorem map_eq_self {α : Type} {back : α → α} (v : List α) : v.map back = v ↔ ∀ a ∈ v, back a = a := by
  have same := @List.map_inj_left _ _ v back id
  rwa [List.map_id] at same

theorem CTxOut.loaded_eq_iff (out : CTxOut) : out.loaded = out ↔ out.nValue.fixed = 0 := by
  constructor
  · intro same
    rw [← same]
    rfl
  · intro free
    rw [CTxOut.loaded,← free]

theorem CTransaction.loaded_eq_iff (tx : CTransaction) : tx.loaded = tx ↔ tx.OffWire := by
  have each : tx.vout.map CTxOut.loaded = tx.vout ↔ tx.OffWire := by
    rw [map_eq_self]
    exact forall₂_congr fun out _ => out.loaded_eq_iff
  rw [← each]
  constructor
  · exact congrArg CTransaction.vout
  · intro same
    rw [CTransaction.loaded,same]

theorem CBlock.loaded_eq_iff (block : CBlock) : block.loaded = block ↔ block.OffWire := by
  have each : block.vtx.map CTransaction.loaded = block.vtx ↔ block.OffWire := by
    rw [map_eq_self]
    exact forall₂_congr fun tx _ => tx.loaded_eq_iff
  rw [← each]
  constructor
  · exact congrArg CBlock.vtx
  · intro same
    rw [CBlock.loaded,same]

theorem prefixFree_transaction : PrefixFree CTransaction.Serialize fun tx => tx.Fits MAX_SIZE ∧ tx.OffWire := by
  have reads : ∀ tx : CTransaction, tx.Fits MAX_SIZE ∧ tx.OffWire → Decodes CTransaction.Unserialize tx.Serialize tx := by
    rintro tx ⟨fits,offWire⟩
    have read := decodes_transaction fits
    rwa [tx.loaded_eq_iff.mpr offWire] at read
  exact .of_decodes reads

theorem prefixFree_block : PrefixFree CBlock.Serialize fun block => block.Fits ∧ block.OffWire := by
  have reads : ∀ block : CBlock, block.Fits ∧ block.OffWire →
      Decodes (CBlock.Unserialize (KeyBuffer.headed 0xFF)) block.Serialize block := by
    rintro block ⟨fits,offWire⟩
    have read := @decodes_block block (KeyBuffer.headed 0xFF) fits fun _ => by decide
    rwa [block.loaded_eq_iff.mpr offWire] at read
  exact .of_decodes reads

/-- A reader returns exactly the values that it loads as they are. -/
theorem decodes_iff_loaded {α : Type} {reader : Unserializer α} {bytes : List UInt8} {a loaded : α} (reads : Decodes reader bytes loaded) :
    Decodes reader bytes a ↔ loaded = a := by
  constructor
  · intro same
    exact (reads.unique same (@rfl _ (bytes ++ []))).1
  · rintro rfl
    exact reads

/-- Transactions and blocks come back, from whatever stream their bytes begin, exactly if no
    value has a circuit-free amount; their sizes are the bytes written; and where no value has
    one, none begins with the bytes of another. -/
theorem serialization :
    (∀ tx : CTransaction, tx.Fits MAX_SIZE →
      (Decodes CTransaction.Unserialize tx.Serialize tx ↔ tx.OffWire) ∧ tx.nSerSize = tx.Serialize.length%2^32) ∧
    (∀ (block : CBlock) (old : KeyBuffer), block.Fits → (block.cpbk = [] → old.size = 0) →
      (Decodes (CBlock.Unserialize old) block.Serialize block ↔ block.OffWire) ∧ block.nSerSize = block.Serialize.length%2^32) ∧
    (PrefixFree CTransaction.Serialize fun tx => tx.Fits MAX_SIZE ∧ tx.OffWire) ∧
    PrefixFree CBlock.Serialize fun block => block.Fits ∧ block.OffWire := by
  refine ⟨fun tx fits => ⟨?_,?_⟩,fun block old fits unused => ⟨?_,?_⟩,prefixFree_transaction,prefixFree_block⟩
  · rw [decodes_iff_loaded (decodes_transaction fits),tx.loaded_eq_iff]
  · rw [CTransaction.nSerSize,tx.Serialize_length]
  · rw [decodes_iff_loaded (decodes_block fits unused),block.loaded_eq_iff]
  · rw [CBlock.nSerSize,CBlock.Serialize_length fits.cpbk]

/-- A payment in two circuits, and a block with it. -/
private def paid : CTransaction := ⟨2,[⟨⟨1,0⟩,[2],0⟩],[⟨⟨((∅ : CashStruct).insert [69] 5).insert [71] 7,0⟩,[3]⟩],0,[4]⟩
private def paidBlock : CBlock where
  nVersion := 3
  hashPrevBlock := 1
  hashMerkleRoot := 2
  nTime := 7
  vtx := [paid]
  cpbk := 2 :: List.replicate 32 7
  vchSig := [5]

private theorem paid_fits : paid.Fits MAX_SIZE := by
  have circuits : (((∅ : CashStruct).insert [69] 5).insert [71] 7).size ≤ MAX_SIZE ∧
      ∀ e ∈ (((∅ : CashStruct).insert [69] 5).insert [71] 7).toList, e.1.length ≤ MAX_SIZE := by
    decide +kernel
  refine ⟨⟨by decide,by decide⟩,⟨by decide,?_⟩,⟨by decide,?_⟩,by decide,by decide⟩
  · rw [paid,List.forall_mem_singleton]
    exact ⟨⟨by decide,by decide⟩,by decide,by decide⟩
  · rw [paid,List.forall_mem_singleton]
    exact ⟨circuits,by decide⟩

private theorem paid_offWire : paid.OffWire := List.forall_mem_singleton.mpr rfl

private theorem paidBlock_fits : paidBlock.Fits where
  header := ⟨⟨by decide,by decide⟩,by decide,by decide,by decide⟩
  vtx := ⟨by decide,List.forall_mem_singleton.mpr paid_fits⟩
  cpbk := .inr ⟨2,List.replicate 32 7,rfl,rfl⟩
  vchSig := by decide

theorem serialization_paid :
    Decodes CTransaction.Unserialize paid.Serialize paid ∧
    Decodes (CBlock.Unserialize (KeyBuffer.headed 4)) paidBlock.Serialize paidBlock ∧
    (paid = paid ∧ [(1 : UInt8)] = [1]) ∧ (paidBlock = paidBlock ∧ [(1 : UInt8)] = [1]) :=
  ⟨(serialization.1 paid paid_fits).1.mpr paid_offWire,
    (serialization.2.1 paidBlock (KeyBuffer.headed 4) paidBlock_fits fun empty => absurd empty (by decide)).1.mpr
      (List.forall_mem_singleton.mpr paid_offWire),
    serialization.2.2.1 paid paid [1] [1] ⟨paid_fits,paid_offWire⟩ ⟨paid_fits,paid_offWire⟩ rfl,
    serialization.2.2.2 paidBlock paidBlock [1] [1] ⟨paidBlock_fits,List.forall_mem_singleton.mpr paid_offWire⟩
      ⟨paidBlock_fits,List.forall_mem_singleton.mpr paid_offWire⟩ rfl⟩

/-- An output with a circuit-free amount. -/
private def circuitFree (fixed : Amount) : CTransaction := ⟨2,[],[⟨Cash.assignAmount fixed,[]⟩],0,[]⟩
/-- As many inputs, with scripts as long. -/
private def scripts (inputs nSize : Nat) : CTransaction := ⟨2,List.replicate inputs ⟨⟨0,0⟩,List.replicate nSize 0,0⟩,[],0,[]⟩

private theorem version2_fits {vin : List CTxIn} {vout : List CTxOut} (inputs : vin.length ≤ MAX_SIZE ∧ ∀ txin ∈ vin, txin.Fits MAX_SIZE)
    (outputs : vout.length ≤ MAX_SIZE ∧ ∀ out ∈ vout, out.Fits MAX_SIZE) : (⟨2,vin,vout,0,[]⟩ : CTransaction).Fits MAX_SIZE where
  nVersion := (⟨by decide,by decide⟩ : FitsInt 2)
  vin := inputs
  vout := outputs
  nLockTime := Nat.two_pow_pos 32
  Attachments := Nat.zero_le _

private theorem circuitFree_fits (fixed : Amount) : (circuitFree fixed).Fits MAX_SIZE := by
  have empty : (∅ : CashStruct).Fits MAX_SIZE := ⟨by decide,by decide⟩
  have one : 1 ≤ MAX_SIZE := by decide
  exact version2_fits ⟨Nat.zero_le _,List.forall_mem_nil _⟩ ⟨one,List.forall_mem_singleton.mpr ⟨empty,Nat.zero_le _⟩⟩

private theorem scripts_fits {inputs nSize : Nat} (few : inputs ≤ MAX_SIZE) (short : nSize ≤ MAX_SIZE) : (scripts inputs nSize).Fits MAX_SIZE := by
  refine version2_fits ⟨by rw [List.length_replicate]; exact few,fun txin member => ?_⟩ ⟨Nat.zero_le _,List.forall_mem_nil _⟩
  have prevout : COutPoint.Fits ⟨0,0⟩ := ⟨by decide,by decide⟩
  rw [List.eq_of_mem_replicate member]
  exact ⟨prevout,by rw [List.length_replicate]; exact short,Nat.two_pow_pos 32⟩

private theorem scripts_size (inputs nSize : Nat) :
    (scripts inputs nSize).GetSerializeSize = GetSizeOfCompactSize inputs+inputs*(36+(GetSizeOfCompactSize nSize+nSize)+4)+10 := by
  have form : (scripts inputs nSize).GetSerializeSize = 4+(GetSizeOfCompactSize (scripts inputs nSize).vin.length+
      ((scripts inputs nSize).vin.map CTxIn.GetSerializeSize).sum)+1+4+1 := rfl
  rw [form,scripts,List.length_replicate,List.map_replicate,List.sum_replicate,CTxIn.GetSerializeSize,bytesSize,List.length_replicate,smul_eq_mul]
  omega

/-- A circuit-free amount is lost, two amounts are written alike, and a size over 32 bits is
    not the one written. -/
theorem circuitFree_not_written :
    ¬ ((∀ tx : CTransaction, tx.Fits MAX_SIZE → Decodes CTransaction.Unserialize tx.Serialize tx) ∨
      (∀ tx : CTransaction, tx.Fits MAX_SIZE → tx.nSerSize = tx.Serialize.length) ∨
      ∀ a b : CTransaction, a.Fits MAX_SIZE → b.Fits MAX_SIZE → a.Serialize = b.Serialize → a = b) := by
  rintro (restored | sized | distinct)
  · have read := (decodes_iff_loaded (decodes_transaction (circuitFree_fits 1))).mp (restored _ (circuitFree_fits 1))
    have none' : (1 : Amount) = 0 := (CTransaction.loaded_eq_iff _).mp read _ (List.mem_singleton.mpr rfl)
    exact absurd none' (by decide)
  · have size := sized _ (scripts_fits (by decide : 128 ≤ MAX_SIZE) le_rfl)
    rw [CTransaction.nSerSize,CTransaction.Serialize_length,scripts_size] at size
    exact absurd size (by decide)
  · exact absurd (distinct _ _ (circuitFree_fits 0) (circuitFree_fits 1) rfl) (by decide)

end Tetra
