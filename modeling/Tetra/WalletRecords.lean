import Mathlib
import Tetra.CoinsFormat
import Tetra.TxReader

/-!
The records of the wallet database: a wallet transaction puts its account, its spent flags,
its order position and its smart time among the texts of `mapValue`; an accounting entry
puts its position there and writes the whole map behind its comment.
-/
namespace Tetra
open Codec Maps
open Std (ExtTreeMap)

def text (s : String) : Text := s.toUTF8.toList

def keyFromAccount : Text := text "fromaccount"
def keyVersion : Text := text "version"
def keySpent : Text := text "spent"
def keyN : Text := text "n"
def keyTimeSmart : Text := text "timesmart"

def ReadOrderPos (mapValue : mapValue_t) : Int64 :=
  match mapValue[keyN]? with
  | none => -1
  | some n => atoi64 n

def WriteOrderPos (nOrderPos : Int64) (mapValue : mapValue_t) : mapValue_t :=
  if nOrderPos = -1 then mapValue else mapValue.insert keyN (Deer.decimal nOrderPos)

/-- A `CWalletTx` as it is stored. -/
structure WalletRecord extends CMerkleTx where
  vtxPrev : List CMerkleTx := []
  mapValue : mapValue_t := ∅
  vOrderForm : List (Text × Text) := []
  fTimeReceivedIsTxTime : Nat := 0
  nTimeReceived : Nat := 0
  nTimeSmart : Nat := 0
  fFromMe : Nat := 0
  strFromAccount : Text := []
  vfSpent : List Bool := []
  nOrderPos : Int64 := -1

namespace WalletRecord

/-- `mapValue` with what is packed into it. -/
def packed (wtx : WalletRecord) : mapValue_t :=
  let mapValue := wtx.mapValue.insert keyFromAccount wtx.strFromAccount
  let mapValue := mapValue.insert keySpent (wtx.vfSpent.map fun f => if f then 0x31 else 0x30)
  let mapValue := WriteOrderPos wtx.nOrderPos mapValue
  if wtx.nTimeSmart ≠ 0 then mapValue.insert keyTimeSmart (utostr wtx.nTimeSmart) else mapValue

/-- Whether an output is spent. -/
def fSpent (wtx : WalletRecord) : Bool := wtx.vfSpent.any id

/-- The entries under reserved keys are erased, both ways. -/
def unpacked (mapValue : mapValue_t) : mapValue_t :=
  ((((mapValue.erase keyFromAccount).erase keyVersion).erase keySpent).erase keyN).erase keyTimeSmart

def Serialize (wtx : WalletRecord) : List UInt8 :=
  wtx.toCMerkleTx.Serialize ++ vectorForm CMerkleTx.Serialize wtx.vtxPrev ++ wtx.packed.Serialize ++ vectorForm pairForm wtx.vOrderForm ++
    leBytes 4 wtx.fTimeReceivedIsTxTime ++ leBytes 4 wtx.nTimeReceived ++ leBytes 1 wtx.fFromMe ++ leBytes 1 (if wtx.fSpent then 1 else 0)

/-- The record that was read, with what is taken out of `mapValue`. -/
def ofRead (tx : CMerkleTx) (vtxPrev : List CMerkleTx) (mapValue : mapValue_t) (vOrderForm : List (Text × Text))
    (fTimeReceivedIsTxTime nTimeReceived fFromMe fSpent : Nat) : WalletRecord where
  toCMerkleTx := tx
  vtxPrev := vtxPrev
  mapValue := unpacked mapValue
  vOrderForm := vOrderForm
  fTimeReceivedIsTxTime := fTimeReceivedIsTxTime
  nTimeReceived := nTimeReceived
  nTimeSmart := match mapValue[keyTimeSmart]? with
    | some timesmart => ((atoi64 timesmart).toInt%2^32).toNat
    | none => 0
  fFromMe := fFromMe
  strFromAccount := mapValue[keyFromAccount]?.getD []
  vfSpent := match mapValue[keySpent]? with
    | some spent => spent.map fun c => c != 0x30
    | none => List.replicate tx.vout.length (fSpent != 0)
  nOrderPos := ReadOrderPos mapValue

def Unserialize : Unserializer WalletRecord := do
  let tx ← CMerkleTx.Unserialize
  let vtxPrev ← readVector CMerkleTx.Unserialize
  let mapValue ← mapValue_t.Unserialize
  let vOrderForm ← readVector readPair
  let fTimeReceivedIsTxTime ← readUInt 4
  let nTimeReceived ← readUInt 4
  let fFromMe ← readUInt 1
  let fSpent ← readUInt 1
  return ofRead tx vtxPrev mapValue vOrderForm fTimeReceivedIsTxTime nTimeReceived fFromMe fSpent

/-- What comes back of a record. -/
def loaded (wtx : WalletRecord) : WalletRecord :=
  {wtx with toCMerkleTx := wtx.toCMerkleTx.loaded,vtxPrev := wtx.vtxPrev.map CMerkleTx.loaded,mapValue := unpacked wtx.mapValue}

/-- The keys that `mapValue` does not keep. -/
def reserved : List Text := [keyFromAccount,keyVersion,keySpent,keyN,keyTimeSmart]

theorem unpacked_lookup (mapValue : mapValue_t) (k : Text) : (unpacked mapValue)[k]? = if k ∈ reserved then none else mapValue[k]? := by
  simp only [unpacked,ExtTreeMap.getElem?_erase,reserved,List.mem_cons,List.not_mem_nil,or_false]
  by_cases listed : k = keyFromAccount ∨ k = keyVersion ∨ k = keySpent ∨ k = keyN ∨ k = keyTimeSmart
  · rw [if_pos listed]
    rcases listed with rfl | rfl | rfl | rfl | rfl <;> simp
  · push Not at listed
    obtain ⟨account,version,spent,n,timesmart⟩ := listed
    simp [account,version,spent,n,timesmart,Ne.symm account,Ne.symm version,Ne.symm spent,Ne.symm n,Ne.symm timesmart]

/-- What a record must be like to be read: vectors, texts and maps of at most `MAX_SIZE`. -/
structure Readable (wtx : WalletRecord) : Prop where
  merkleTx : wtx.toCMerkleTx.Readable
  vtxPrev : wtx.vtxPrev.length ≤ MAX_SIZE ∧ ∀ tx ∈ wtx.vtxPrev, tx.Readable
  mapValue : wtx.packed.Fits
  vOrderForm : wtx.vOrderForm.length ≤ MAX_SIZE ∧ ∀ p ∈ wtx.vOrderForm, FitsPair p
  fTimeReceivedIsTxTime : wtx.fTimeReceivedIsTxTime < 2^32
  nTimeReceived : wtx.nTimeReceived < 2^32
  nTimeSmart : wtx.nTimeSmart < 2^32
  fFromMe : wtx.fFromMe < 2^8

/-- No entry of `mapValue` is taken for a position or a time that the record does not have. -/
structure Unreserved (wtx : WalletRecord) : Prop where
  n : wtx.nOrderPos = -1 → wtx.mapValue[keyN]? = none
  timesmart : wtx.nTimeSmart = 0 → wtx.mapValue[keyTimeSmart]? = none

section
variable {wtx : WalletRecord}

theorem insert_lookup (m : mapValue_t) (key k v : Text) : (m.insert key v)[k]? = if k = key then some v else m[k]? := by
  by_cases same : k = key
  · subst same
    simp
  · simp [ExtTreeMap.getElem?_insert,same,Ne.symm same]

theorem packed_lookup (k : Text) : wtx.packed[k]? =
    if k = keyTimeSmart ∧ wtx.nTimeSmart ≠ 0 then some (utostr wtx.nTimeSmart)
    else if k = keyN ∧ wtx.nOrderPos ≠ -1 then some (Deer.decimal wtx.nOrderPos)
    else if k = keySpent then some (wtx.vfSpent.map fun f => if f then 0x31 else 0x30)
    else if k = keyFromAccount then some wtx.strFromAccount
    else wtx.mapValue[k]? := by
  have account : ((wtx.mapValue.insert keyFromAccount wtx.strFromAccount).insert keySpent (wtx.vfSpent.map fun f => if f then 0x31 else 0x30))[k]? =
      if k = keySpent then some (wtx.vfSpent.map fun f => if f then 0x31 else 0x30)
      else if k = keyFromAccount then some wtx.strFromAccount
      else wtx.mapValue[k]? := by
    rw [insert_lookup,insert_lookup]
  have position : (WriteOrderPos wtx.nOrderPos
      ((wtx.mapValue.insert keyFromAccount wtx.strFromAccount).insert keySpent (wtx.vfSpent.map fun f => if f then 0x31 else 0x30)))[k]? =
      if k = keyN ∧ wtx.nOrderPos ≠ -1 then some (Deer.decimal wtx.nOrderPos)
      else if k = keySpent then some (wtx.vfSpent.map fun f => if f then 0x31 else 0x30)
      else if k = keyFromAccount then some wtx.strFromAccount
      else wtx.mapValue[k]? := by
    rw [← account,WriteOrderPos]
    by_cases unset : wtx.nOrderPos = -1
    · simp [unset]
    · simp only [unset,if_false,insert_lookup,ne_eq,not_false_eq_true,and_true]
  rw [← position,packed]
  by_cases unset : wtx.nTimeSmart = 0
  · simp [unset]
  · simp only [ne_eq,unset,not_false_eq_true,if_true,insert_lookup,and_true]

theorem packed_fromaccount : wtx.packed[keyFromAccount]? = some wtx.strFromAccount := by
  have apart : keyFromAccount ≠ keyTimeSmart ∧ keyFromAccount ≠ keyN ∧ keyFromAccount ≠ keySpent := by decide +kernel
  simp [packed_lookup,apart]

theorem packed_spent : wtx.packed[keySpent]? = some (wtx.vfSpent.map fun f => if f then 0x31 else 0x30) := by
  have apart : keySpent ≠ keyTimeSmart ∧ keySpent ≠ keyN := by decide +kernel
  simp [packed_lookup,apart]

theorem packed_n : wtx.packed[keyN]? = if wtx.nOrderPos = -1 then wtx.mapValue[keyN]? else some (Deer.decimal wtx.nOrderPos) := by
  have apart : keyN ≠ keyTimeSmart ∧ keyN ≠ keySpent ∧ keyN ≠ keyFromAccount := by decide +kernel
  by_cases unset : wtx.nOrderPos = -1 <;> simp [packed_lookup,apart,unset]

theorem packed_timesmart : wtx.packed[keyTimeSmart]? = if wtx.nTimeSmart = 0 then wtx.mapValue[keyTimeSmart]? else some (utostr wtx.nTimeSmart) := by
  have apart : keyTimeSmart ≠ keyN ∧ keyTimeSmart ≠ keySpent ∧ keyTimeSmart ≠ keyFromAccount := by decide +kernel
  by_cases unset : wtx.nTimeSmart = 0 <;> simp [packed_lookup,apart,unset]

theorem unpacked_packed : unpacked wtx.packed = unpacked wtx.mapValue := by
  refine ExtTreeMap.ext_getElem? fun k => ?_
  rw [unpacked_lookup,unpacked_lookup,packed_lookup]
  by_cases listed : k ∈ reserved
  · rw [if_pos listed,if_pos listed]
  · rw [if_neg listed,if_neg listed]
    simp only [reserved,List.mem_cons,List.not_mem_nil,or_false,not_or] at listed
    simp [listed]

/-- What is read out of the packed map is what was put there. -/
theorem ReadOrderPos_packed (unreserved : wtx.Unreserved) : ReadOrderPos wtx.packed = wtx.nOrderPos := by
  rw [ReadOrderPos,packed_n]
  by_cases unset : wtx.nOrderPos = -1
  · rw [if_pos unset,unreserved.n unset,unset]
  · rw [if_neg unset]
    exact atoi64_decimal wtx.nOrderPos

theorem ofRead_packed (fits : wtx.Readable) (unreserved : wtx.Unreserved) (fSpent : Nat) :
    ofRead wtx.toCMerkleTx.loaded (wtx.vtxPrev.map CMerkleTx.loaded) wtx.packed wtx.vOrderForm wtx.fTimeReceivedIsTxTime wtx.nTimeReceived
      wtx.fFromMe fSpent = wtx.loaded := by
  have flags : (wtx.vfSpent.map fun f => if f then (0x31 : UInt8) else 0x30).map (fun c => c != 0x30) = wtx.vfSpent := by
    rw [List.map_map]
    refine (List.map_congr_left fun f _ => ?_).trans (List.map_id _)
    cases f <;> decide
  have small := fits.nTimeSmart
  rw [ofRead,loaded,packed_fromaccount,packed_spent,packed_timesmart,ReadOrderPos_packed unreserved,unpacked_packed]
  dsimp only
  rw [flags]
  by_cases unset : wtx.nTimeSmart = 0
  · rw [if_pos unset,unreserved.timesmart unset,unset]
    rfl
  · have time : ((atoi64 (utostr wtx.nTimeSmart)).toInt%2^32).toNat = wtx.nTimeSmart := by
      rw [utostr,atoi64_digits (by omega),Int64.toInt_ofInt_of_le (by omega) (by omega)]
      omega
    rw [if_neg unset]
    dsimp only
    rw [time]
    rfl

/-- Whatever `mapValue` holds, the bytes are taken and the packed map is looked at. -/
theorem decodes_packed (fits : wtx.Readable) : Decodes Unserialize wtx.Serialize
    (ofRead wtx.toCMerkleTx.loaded (wtx.vtxPrev.map CMerkleTx.loaded) wtx.packed wtx.vOrderForm wtx.fTimeReceivedIsTxTime wtx.nTimeReceived
      wtx.fFromMe (if wtx.fSpent then 1 else 0)) := by
  rw [Serialize]
  simp only [List.append_assoc]
  exact (decodes_merkleTx fits.merkleTx).bind ((decodes_vector_map fits.vtxPrev.1 fun tx member => decodes_merkleTx (fits.vtxPrev.2 tx member)).bind
    ((decodes_mapValue fits.mapValue).bind ((decodes_vector fits.vOrderForm.1 fun p member => decodes_pair (fits.vOrderForm.2 p member)).bind
      ((decodes_uint fits.fTimeReceivedIsTxTime).bind ((decodes_uint fits.nTimeReceived).bind ((decodes_uint fits.fFromMe).bind
        ((decodes_uint (by split <;> decide)).return fun fSpent => ofRead wtx.toCMerkleTx.loaded (wtx.vtxPrev.map CMerkleTx.loaded) wtx.packed
          wtx.vOrderForm wtx.fTimeReceivedIsTxTime wtx.nTimeReceived wtx.fFromMe fSpent)))))))

/-- A record comes back from its bytes, whatever comes behind them. -/
theorem decodes_walletRecord (fits : wtx.Readable) (unreserved : wtx.Unreserved) : Decodes Unserialize wtx.Serialize wtx.loaded := by
  rw [← ofRead_packed fits unreserved (if wtx.fSpent then 1 else 0)]
  exact decodes_packed fits

/-- A map whose second value is too long cannot be read. -/
theorem fails_mapValue {m : mapValue_t} {key value key' value' : Text} (entries : m.toList = [(key,value),(key',value')])
    (first : FitsPair (key,value)) (second : key'.length ≤ MAX_SIZE) (long : MAX_SIZE < value'.length) (short : value'.length < 2^64) :
    Fails mapValue_t.Unserialize m.Serialize := by
  have text : Fails readBytes (bytesForm value') := CCoins.fails_name long short
  have stops := text.bind (fun value => pure (key',value)) []
  rw [List.append_nil] at stops
  have pair : Fails readPair (pairForm (key',value')) := (decodes_bytes second).fails stops
  have last : Fails (many readPair 1) (pairForm (key',value') ++ []) := pair.bind _ _
  have tail := last.bind (fun as => pure ((key,value) :: as)) []
  have both : Fails (many readPair 2) (pairForm (key,value) ++ (pairForm (key',value') ++ [] ++ [])) := (decodes_pair first).fails tail
  have sized : Decodes ReadCompactSize (WriteCompactSize 2) 2 := decodes_compactSize (by decide)
  have vector : Fails (readVector readPair) (WriteCompactSize 2 ++ (pairForm (key,value) ++ (pairForm (key',value') ++ [] ++ []))) := sized.fails both
  have read := vector.bind (fun entries => pure (entries.foldl (fun m e => m.insertIfNew e.1 e.2) (∅ : mapValue_t))) []
  have form : m.Serialize = WriteCompactSize 2 ++ (pairForm (key,value) ++ (pairForm (key',value') ++ [] ++ [])) ++ [] := by
    rw [mapValue_t.Serialize,entries,vectorForm]
    simp
  rw [form]
  exact read

/-- With more spent flags than a text may have characters, a record cannot be read. -/
theorem fails_walletRecord (merkleTx : wtx.toCMerkleTx.Readable) (single : wtx.vtxPrev = []) (fails : Fails mapValue_t.Unserialize wtx.packed.Serialize) :
    Fails Unserialize wtx.Serialize := by
  have previous : Decodes (readVector CMerkleTx.Unserialize) (vectorForm CMerkleTx.Serialize wtx.vtxPrev) [] := by
    rw [single]
    exact decodes_vector (by decide) (by simp)
  rw [Serialize,Unserialize]
  simp only [List.append_assoc]
  exact (decodes_merkleTx merkleTx).fails (previous.fails (fails.bind _ _))

end

end WalletRecord

/-- A `CAccountingEntry` as it is stored. -/
structure AccountingRecord where
  strAccount : Text
  nCreditDebit : Cash := {}
  nTime : Int64 := 0
  strOtherAccount : Text := []
  strComment : Text := []
  mapValue : mapValue_t := ∅
  nOrderPos : Int64 := -1
  nEntryNo : Nat := 0
  ssExtra : List UInt8 := []

namespace AccountingRecord

/-- The key of the record: `("acentry", strAccount, nEntryNo)`. -/
def key (acentry : AccountingRecord) : List UInt8 := bytesForm (text "acentry") ++ bytesForm acentry.strAccount ++ leBytes 8 acentry.nEntryNo

/-- The comment with the map and what else was behind it. -/
def packedComment (acentry : AccountingRecord) : Text :=
  let mapValue := WriteOrderPos acentry.nOrderPos acentry.mapValue
  if mapValue.isEmpty && acentry.ssExtra.isEmpty then acentry.strComment
  else acentry.strComment ++ 0 :: (mapValue_t.Serialize mapValue ++ acentry.ssExtra)

def Serialize (nVersion : Int) (acentry : AccountingRecord) : List UInt8 :=
  intBytes nVersion ++ acentry.nCreditDebit.Serialize ++ amountBytes acentry.nTime ++ bytesForm acentry.strOtherAccount ++ bytesForm acentry.packedComment

/-- What is behind the first NUL of the comment. -/
def readSuffix (strComment : Text) : Except String (mapValue_t × List UInt8) :=
  match strComment.dropWhile (· != 0) with
  | [] => .ok (∅,[])
  | _ :: suffix => mapValue_t.Unserialize suffix

def Unserialize (acentry : AccountingRecord) : Unserializer AccountingRecord := do
  let _ ← readInt
  let nCreditDebit ← Cash.Unserialize
  let nTime ← readAmount
  let strOtherAccount ← readBytes
  let strComment ← readBytes
  let (mapValue,ssExtra) ← (readSuffix strComment : Except String (mapValue_t × List UInt8))
  return {acentry with
    nCreditDebit := nCreditDebit
    nTime := nTime
    strOtherAccount := strOtherAccount
    strComment := strComment.takeWhile (· != 0)
    mapValue := mapValue.erase keyN
    nOrderPos := ReadOrderPos mapValue
    ssExtra := ssExtra}

/-- One record of `ListAccountCreditDebit`, of any account. -/
def readRecord (ssKey ssValue : List UInt8) : Except String (Option AccountingRecord) := do
  let (strType,ssKey) ← readBytes ssKey
  if strType ≠ text "acentry" then return none
  let (strAccount,ssKey) ← readBytes ssKey
  let (acentry,_) ← Unserialize {strAccount := strAccount} ssValue
  let (nEntryNo,_) ← readUInt 8 ssKey
  return some {acentry with nEntryNo := nEntryNo}

/-- What comes back of an entry. -/
def loaded (acentry : AccountingRecord) : AccountingRecord :=
  {acentry with nCreditDebit := {acentry.nCreditDebit with fixed := 0},mapValue := acentry.mapValue.erase keyN}

structure Readable (acentry : AccountingRecord) : Prop where
  strAccount : acentry.strAccount.length ≤ MAX_SIZE
  nCreditDebit : acentry.nCreditDebit.locals.Fits MAX_SIZE
  strOtherAccount : acentry.strOtherAccount.length ≤ MAX_SIZE
  strComment : acentry.packedComment.length ≤ MAX_SIZE
  nEntryNo : acentry.nEntryNo < 2^64

section
variable {acentry : AccountingRecord}

theorem ReadOrderPos_WriteOrderPos {nOrderPos : Int64} {mapValue : mapValue_t} (unreserved : nOrderPos = -1 → mapValue[keyN]? = none) :
    ReadOrderPos (WriteOrderPos nOrderPos mapValue) = nOrderPos := by
  rw [ReadOrderPos,WriteOrderPos]
  by_cases unset : nOrderPos = -1
  · rw [if_pos unset,unreserved unset,unset]
  · rw [if_neg unset,insert_self]
    exact atoi64_decimal nOrderPos

theorem erase_WriteOrderPos (nOrderPos : Int64) (mapValue : mapValue_t) : (WriteOrderPos nOrderPos mapValue).erase keyN = mapValue.erase keyN := by
  rw [WriteOrderPos]
  split
  · rfl
  · refine ExtTreeMap.ext_getElem? fun k => ?_
    by_cases same : k = keyN
    · subst same
      simp
    · simp [ExtTreeMap.getElem?_erase,ExtTreeMap.getElem?_insert,Ne.symm same]

/-- A comment without a NUL is found in front of what is packed behind it. -/
theorem packedComment_parts (plain : ∀ c ∈ acentry.strComment, c ≠ 0) (short : acentry.packedComment.length ≤ MAX_SIZE) :
    acentry.packedComment.takeWhile (· != 0) = acentry.strComment ∧
      readSuffix acentry.packedComment = .ok (WriteOrderPos acentry.nOrderPos acentry.mapValue,acentry.ssExtra) := by
  have all : ∀ c ∈ acentry.strComment, (c != 0) = true := fun c member => by simpa using plain c member
  by_cases bare : ((WriteOrderPos acentry.nOrderPos acentry.mapValue).isEmpty && acentry.ssExtra.isEmpty) = true
  · have form : acentry.packedComment = acentry.strComment := by rw [packedComment,if_pos bare]
    obtain ⟨map,extra⟩ := Bool.and_eq_true_iff.mp bare
    have nothing : WriteOrderPos acentry.nOrderPos acentry.mapValue = ∅ := ExtTreeMap.isEmpty_iff.mp map
    have none : acentry.ssExtra = [] := List.isEmpty_iff.mp extra
    have dropped : acentry.strComment.dropWhile (· != 0) = [] := List.dropWhile_eq_nil_iff.mpr all
    rw [form,readSuffix,dropped,nothing,none]
    exact ⟨List.takeWhile_eq_self_iff.mpr all,rfl⟩
  · have form : acentry.packedComment =
        acentry.strComment ++ 0 :: ((WriteOrderPos acentry.nOrderPos acentry.mapValue).Serialize ++ acentry.ssExtra) := by
      rw [packedComment,if_neg bare]
    rw [form,List.length_append,List.length_cons,List.length_append] at short
    have map := decodes_mapValue (mapValue_t.fits_of_length (m := WriteOrderPos acentry.nOrderPos acentry.mapValue) (by omega)) acentry.ssExtra
    rw [form,readSuffix,List.takeWhile_append_of_pos all,List.dropWhile_append_of_pos all]
    refine ⟨by simp,?_⟩
    rw [List.dropWhile_cons_of_neg (by simp)]
    exact map

/-- The value of a record comes back, with the account that the key gave. -/
theorem decodes_entry {nVersion : Int} (version : FitsInt nVersion) (fits : acentry.Readable) (plain : ∀ c ∈ acentry.strComment, c ≠ 0)
    (unreserved : acentry.nOrderPos = -1 → acentry.mapValue[keyN]? = none) :
    Decodes (Unserialize {strAccount := acentry.strAccount}) (acentry.Serialize nVersion) {acentry.loaded with nEntryNo := 0} := by
  obtain ⟨comment,suffix⟩ := packedComment_parts plain fits.strComment
  have same : ({acentry.loaded with nEntryNo := 0} : AccountingRecord) = {
      strAccount := acentry.strAccount
      nCreditDebit := {acentry.nCreditDebit with fixed := 0}
      nTime := acentry.nTime
      strOtherAccount := acentry.strOtherAccount
      strComment := acentry.packedComment.takeWhile (· != 0)
      mapValue := (WriteOrderPos acentry.nOrderPos acentry.mapValue).erase keyN
      nOrderPos := ReadOrderPos (WriteOrderPos acentry.nOrderPos acentry.mapValue)
      ssExtra := acentry.ssExtra} := by
    rw [comment,erase_WriteOrderPos,ReadOrderPos_WriteOrderPos unreserved]
    rfl
  rw [Serialize,same]
  simp only [List.append_assoc]
  refine (decodes_int version).bind ((decodes_cash fits.nCreditDebit).bind ((decodes_amount acentry.nTime).bind
    ((decodes_bytes fits.strOtherAccount).bind ?_)))
  rw [← List.append_nil (bytesForm acentry.packedComment)]
  refine (decodes_bytes fits.strComment).bind fun rest => ?_
  rw [suffix]
  rfl

/-- An entry comes back from its key and its value. -/
theorem readRecord_entry {nVersion : Int} (version : FitsInt nVersion) (fits : acentry.Readable) (plain : ∀ c ∈ acentry.strComment, c ≠ 0)
    (unreserved : acentry.nOrderPos = -1 → acentry.mapValue[keyN]? = none) :
    readRecord acentry.key (acentry.Serialize nVersion) = .ok (some acentry.loaded) := by
  have strType := decodes_bytes (v := text "acentry") (by decide +kernel) (bytesForm acentry.strAccount ++ leBytes 8 acentry.nEntryNo)
  have strAccount := decodes_bytes fits.strAccount (leBytes 8 acentry.nEntryNo)
  have value := decodes_entry version fits plain unreserved []
  have nEntryNo := decodes_uint (k := 8) fits.nEntryNo []
  rw [List.append_nil] at value nEntryNo
  rw [readRecord,key,List.append_assoc,strType]
  simp only [bind,Except.bind,ne_eq,not_true_eq_false,if_false,pure,Except.pure,strAccount,value,nEntryNo]
  rfl

end

end AccountingRecord

/-- What is stored comes back: of a wallet transaction everything but the circuit-free amounts and
    the entries under reserved keys, and so does an accounting entry whose comment has no NUL. -/
theorem records_survive :
    (∀ wtx : WalletRecord, wtx.Readable → wtx.Unreserved →
      ∀ rest, WalletRecord.Unserialize (wtx.Serialize ++ rest) = .ok (wtx.loaded,rest)) ∧
    ∀ (acentry : AccountingRecord) (nVersion : Int), FitsInt nVersion → acentry.Readable → (∀ c ∈ acentry.strComment, c ≠ 0) →
      (acentry.nOrderPos = -1 → acentry.mapValue[keyN]? = none) →
      AccountingRecord.readRecord acentry.key (acentry.Serialize nVersion) = .ok (some acentry.loaded) :=
  ⟨fun _ fits unreserved => WalletRecord.decodes_walletRecord fits unreserved,
    fun _ _ version fits plain unreserved => AccountingRecord.readRecord_entry version fits plain unreserved⟩

private def storedTx : CMerkleTx where
  nVersion := 1
  vin := []
  vout := [⟨⟨(∅ : CashStruct).insert [69] 5,0⟩,[1]⟩,⟨⟨(∅ : CashStruct).insert [69] 7,0⟩,[2]⟩]
  nLockTime := 0
  Attachments := []

private def storedRecord : WalletRecord where
  toCMerkleTx := storedTx
  mapValue := (∅ : mapValue_t).insert (text "comment") [104,105]
  nTimeSmart := 7
  strFromAccount := [97]
  vfSpent := [true,false]
  nOrderPos := 3

private def storedEntry : AccountingRecord where
  strAccount := [97]
  strComment := [104,105]
  mapValue := (∅ : mapValue_t).insert (text "to") [98]
  nOrderPos := 4

private theorem storedTx_readable : storedTx.Readable where
  frame := {
    nVersion := ⟨by decide,by decide⟩
    vin := ⟨by decide,by simp [storedTx]⟩
    vout := ⟨by decide,by
      have sized : ∀ out ∈ storedTx.vout, (out.nValue.locals.size ≤ MAX_SIZE ∧ ∀ e ∈ out.nValue.locals.toList, e.1.length ≤ MAX_SIZE) ∧
        out.scriptPubKey.length ≤ MAX_SIZE := by decide +kernel
      exact fun out member => ⟨(sized out member).1,(sized out member).2⟩⟩
    nLockTime := by decide
    Attachments := by decide}
  hashBlock := by decide
  vMerkleBranch := ⟨by decide,by simp [storedTx]⟩
  nIndex := ⟨by decide,by decide⟩

private theorem storedRecord_readable : storedRecord.Readable where
  merkleTx := storedTx_readable
  vtxPrev := ⟨by decide,by simp [storedRecord]⟩
  mapValue := by
    have sized : storedRecord.packed.size ≤ MAX_SIZE ∧ ∀ p ∈ storedRecord.packed.toList, p.1.length ≤ MAX_SIZE ∧ p.2.length ≤ MAX_SIZE := by
      decide +kernel
    exact sized
  vOrderForm := ⟨by decide,by simp [storedRecord]⟩
  fTimeReceivedIsTxTime := by decide
  nTimeReceived := by decide
  nTimeSmart := by decide
  fFromMe := by decide

/-- A transaction with a position and a smart time, and an entry with a position. -/
theorem records_survive_sample :
    (∀ rest, WalletRecord.Unserialize (storedRecord.Serialize ++ rest) = .ok (storedRecord.loaded,rest)) ∧
      AccountingRecord.readRecord storedEntry.key (storedEntry.Serialize 1) = .ok (some storedEntry.loaded) := by
  refine ⟨records_survive.1 storedRecord storedRecord_readable ⟨by decide +kernel,by decide +kernel⟩,
    records_survive.2 storedEntry 1 ⟨by decide,by decide⟩ ⟨by decide,?_,by decide,by decide +kernel,by decide⟩ (by decide +kernel)
      (by decide +kernel)⟩
  have sized : storedEntry.nCreditDebit.locals.size ≤ MAX_SIZE ∧ ∀ e ∈ storedEntry.nCreditDebit.locals.toList, e.1.length ≤ MAX_SIZE := by
    decide +kernel
  exact sized

/-- Too many spent flags. -/
private def longRecord : WalletRecord where
  toCMerkleTx := storedTx
  vfSpent := List.replicate (MAX_SIZE+1) true

/-- Without a position, but with an entry under its key. -/
private def misledRecord : WalletRecord where
  toCMerkleTx := storedTx
  mapValue := (∅ : mapValue_t).insert keyN [0x35]

private theorem misledRecord_readable : misledRecord.Readable where
  merkleTx := storedTx_readable
  vtxPrev := ⟨by decide,by simp [misledRecord]⟩
  mapValue := by
    have sized : misledRecord.packed.size ≤ MAX_SIZE ∧ ∀ p ∈ misledRecord.packed.toList, p.1.length ≤ MAX_SIZE ∧ p.2.length ≤ MAX_SIZE := by
      decide +kernel
    exact sized
  vOrderForm := ⟨by decide,by simp [misledRecord]⟩
  fTimeReceivedIsTxTime := by decide
  nTimeReceived := by decide
  nTimeSmart := by decide
  fFromMe := by decide

/-- A record with more than `MAX_SIZE` spent flags is written but cannot be read, and one that has an
    entry under the key of the position comes back with that as its position. -/
theorem records_lost :
    (∃ wtx : WalletRecord, ∃ e, wtx.vfSpent.length = MAX_SIZE+1 ∧ WalletRecord.Unserialize wtx.Serialize = .error e) ∧
    ∃ wtx loaded : WalletRecord, wtx.nOrderPos = -1 ∧ WalletRecord.Unserialize wtx.Serialize = .ok (loaded,[]) ∧ loaded.nOrderPos = 5 := by
  constructor
  · have long : (longRecord.vfSpent.map fun f => if f then (0x31 : UInt8) else 0x30).length = MAX_SIZE+1 := by
      rw [List.length_map]
      exact List.length_replicate
    have entries : ∀ spent : Text, ((((∅ : mapValue_t).insert keyFromAccount []).insert keySpent spent)).toList =
        [(keyFromAccount,[]),(keySpent,spent)] := by
      have account : keyFromAccount = [102,114,111,109,97,99,99,111,117,110,116] := by decide +kernel
      have spent : keySpent = [115,112,101,110,116] := by decide +kernel
      rw [account,spent]
      exact fun _ => rfl
    have small : MAX_SIZE+1 < 2^64 := by decide
    have map : Fails mapValue_t.Unserialize longRecord.packed.Serialize :=
      WalletRecord.fails_mapValue (entries _) ⟨by decide +kernel,by decide⟩ (by decide +kernel) (by rw [long]; exact Nat.lt_succ_self _) (by rw [long]; exact small)
    obtain ⟨e,stopped⟩ := WalletRecord.fails_walletRecord storedTx_readable rfl map []
    rw [List.append_nil] at stopped
    exact ⟨longRecord,e,List.length_replicate,stopped⟩
  · have read := WalletRecord.decodes_packed misledRecord_readable []
    rw [List.append_nil] at read
    exact ⟨misledRecord,_,rfl,read,by decide +kernel⟩

end Tetra
