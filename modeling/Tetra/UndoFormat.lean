import Mathlib
import Tetra.Disconnect
import Tetra.ReadLimits
import Tetra.ScriptForms

/-!
Undo entries in their file: height and coinbase flag in one number, the version only with
a height, and the output that was spent. Which entries come back as they were, and which
spent outputs come back with their transaction's metadata.
-/
namespace Tetra
open Codec

namespace CTxInUndo
variable (keys : KeyRules)

/-- `nHeight*2+(fCoinBase ? 1 : 0)`, in 32 bits. -/
def nCode (undo : CTxInUndo) : Nat := (undo.nHeight*2+(if undo.fCoinBase then 1 else 0))%2^32

def Serialize (undo : CTxInUndo) : List UInt8 :=
  WriteVarInt undo.nCode ++ ((if undo.nHeight > 0 then WriteVarInt undo.nVersion else []) ++ CTxOutCompressor.Serialize keys undo.txout)

/-- The sizes of the parts. -/
def partsSize (undo : CTxInUndo) : Nat :=
  GetSizeOfVarInt undo.nCode+(if undo.nHeight > 0 then GetSizeOfVarInt undo.nVersion else 0)+CTxOutCompressor.GetSerializeSize keys undo.txout

def GetSerializeSize (undo : CTxInUndo) : Nat := undo.partsSize keys%2^32

/-- Without a height the version stays that of a fresh entry. -/
def readVersion (nHeight : Nat) : Unserializer Int := if nHeight > 0 then intOf <$> ReadVarInt else return 0

/-- Reads into a fresh entry. -/
def Unserialize : Unserializer CTxInUndo := do
  let nCode ← ReadVarInt
  let nVersion ← readVersion (nCode/2)
  let txout ← CTxOutCompressor.Unserialize keys
  return ⟨txout,nCode &&& 1 != 0,nCode/2,nVersion⟩

theorem Serialize_length (undo : CTxInUndo) : (undo.Serialize keys).length = undo.partsSize keys := by
  rw [Serialize,partsSize,List.length_append,List.length_append,WriteVarInt_length,CTxOutCompressor.Serialize_length,Nat.add_assoc]
  congr 2
  split
  · exact WriteVarInt_length _
  · rfl

variable {keys : KeyRules}

theorem nCode_parts {undo : CTxInUndo} (height : undo.nHeight < 2^31) :
    undo.nCode < 2^32 ∧ undo.nCode/2 = undo.nHeight ∧ (undo.nCode &&& 1 != 0) = undo.fCoinBase := by
  have low : undo.nCode &&& 1 = undo.nCode%2 := Nat.and_one_is_mod _
  rw [low,nCode]
  cases undo.fCoinBase with
  | true =>
    have one : (undo.nHeight*2+1)%2^32%2 = 1 := by omega
    simp only [if_true,one]
    refine ⟨by omega,by omega,rfl⟩
  | false =>
    have zero : (undo.nHeight*2+0)%2^32%2 = 0 := by omega
    simp only [Bool.false_eq_true,if_false,zero]
    refine ⟨by omega,by omega,rfl⟩

theorem decodes_nCode {undo : CTxInUndo} (height : undo.nHeight < 2^31) : Decodes ReadVarInt (WriteVarInt undo.nCode) undo.nCode := by
  have number := @decodes_varInt (undo.nCode : Int) (by exact_mod_cast (nCode_parts height).1)
  rwa [storedVersion_nonneg (by omega),Int.toNat_natCast] at number

/-- The version that comes back. -/
def versionBack (undo : CTxInUndo) : Int := if undo.nHeight > 0 then storedVersion undo.nVersion else 0

theorem decodes_version {undo : CTxInUndo} (version : FitsInt undo.nVersion) :
    Decodes (readVersion undo.nHeight) (if undo.nHeight > 0 then WriteVarInt undo.nVersion else []) undo.versionBack := by
  unfold readVersion versionBack
  split
  · have number := (@decodes_varInt undo.nVersion (by have := version.2; omega)).map intOf
    have back : intOf (storedVersion undo.nVersion).toNat = storedVersion undo.nVersion := by
      have small := version.2
      unfold intOf storedVersion
      split <;> split <;> omega
    rwa [back] at number
  · exact .pure 0

/-- The entry that comes back with an output. -/
def back (undo : CTxInUndo) (txout : CTxOut) : CTxInUndo := ⟨txout,undo.fCoinBase,undo.nHeight,undo.versionBack⟩

/-- An entry is read back where its output is. -/
theorem decodes_undo {undo : CTxInUndo} (height : undo.nHeight < 2^31) (version : FitsInt undo.nVersion) {txout : CTxOut}
    (output : Decodes (CTxOutCompressor.Unserialize keys) (CTxOutCompressor.Serialize keys undo.txout) txout) :
    Decodes (Unserialize keys) (undo.Serialize keys) (undo.back txout) := by
  obtain ⟨_,half,odd⟩ := nCode_parts height
  refine (decodes_nCode height).bind ?_
  rw [half,odd]
  exact (decodes_version version).bind (output.return fun txout => undo.back txout)

/-- What is read back has the version that the bytes tell, and an output that can be read. -/
theorem decodes_undo_back (whole : keys.Sized) {undo other : CTxInUndo} (height : undo.nHeight < 2^31) (version : FitsInt undo.nVersion)
    (reads : Decodes (Unserialize keys) (undo.Serialize keys) other) :
    other = undo.back other.txout ∧ other.txout.nValue.fixed = 0 ∧ CTxOutCompressor.Fits other.txout := by
  obtain ⟨_,half,odd⟩ := nCode_parts height
  have rest := reads.tail (decodes_nCode height)
  rw [half,odd] at rest
  have returns : Returns (do let txout ← CTxOutCompressor.Unserialize keys; return undo.back txout) fun other =>
      other = undo.back other.txout ∧ other.txout.nValue.fixed = 0 ∧ CTxOutCompressor.Fits other.txout :=
    (returns_txOut whole).bind fun txout fits => .pure ⟨rfl,fits⟩
  exact (rest.tail (decodes_version version)).returned returns

/-- The entry comes back from its bytes, without a version where there is no height, and
    the number of bytes is the one that was foretold. -/
def RoundTrips (keys : KeyRules) (undo : CTxInUndo) : Prop :=
  Decodes (Unserialize keys) (undo.Serialize keys) (if undo.nHeight > 0 then undo else {undo with nVersion := 0}) ∧
    undo.GetSerializeSize keys = (undo.Serialize keys).length

/-- An output that comes back as it was. -/
def Kept (txout : CTxOut) : Prop := txout.nValue.fixed = 0 ∧ CTxOutCompressor.Fits txout

theorem decodes_kept (lawful : keys.Lawful) {txout : CTxOut} (kept : Kept txout) :
    Decodes (CTxOutCompressor.Unserialize keys) (CTxOutCompressor.Serialize keys txout) txout := by
  have read := CTxOutCompressor.decodes_txOut keys lawful kept.2
  rwa [CTxOut.stored_of_plain kept.1] at read

theorem versionBack_iff {undo : CTxInUndo} (positive : undo.nHeight > 0) : undo.versionBack = undo.nVersion ↔ 0 ≤ undo.nVersion := by
  rw [versionBack,if_pos positive,storedVersion]
  split <;> omega

theorem roundTrips_iff (lawful : keys.Lawful) (whole : keys.Sized) {undo : CTxInUndo} (height : undo.nHeight < 2^31)
    (version : FitsInt undo.nVersion) :
    undo.RoundTrips keys ↔ (undo.nHeight = 0 ∨ 0 ≤ undo.nVersion) ∧ Kept undo.txout ∧ undo.partsSize keys < 2^32 := by
  rw [RoundTrips,Serialize_length,GetSerializeSize]
  constructor
  · intro ⟨reads,sized⟩
    obtain ⟨same,kept⟩ := decodes_undo_back whole height version reads
    by_cases positive : undo.nHeight > 0
    · rw [if_pos positive] at same kept
      have versions : undo.nVersion = undo.versionBack := congrArg CTxInUndo.nVersion same
      exact ⟨.inr ((versionBack_iff positive).mp versions.symm),kept,by omega⟩
    · rw [if_neg positive] at kept
      exact ⟨.inl (by omega),kept,by omega⟩
  · intro ⟨versions,kept,small⟩
    refine ⟨?_,Nat.mod_eq_of_lt small⟩
    have reads := decodes_undo height version (decodes_kept lawful kept)
    by_cases positive : undo.nHeight > 0
    · rw [if_pos positive]
      have same : undo.versionBack = undo.nVersion := (versionBack_iff positive).mpr (by omega)
      rwa [back,same] at reads
    · rw [if_neg positive]
      rwa [back,versionBack,if_neg positive] at reads

/-! ### Undoing a spend -/

/-- Once the bytes of the entry are read back, `DisconnectBlock` puts the output back, with
    the metadata of its transaction. -/
def Restores (keys : KeyRules) (coins : CCoins) (out : COutPoint) (undo : CTxInUndo) : Prop :=
  ∃ undo', Decodes (Unserialize keys) (undo.Serialize keys) undo' ∧ ∀ s : DisconnectState, ∃ after : CCoins,
    (restoreInput s out undo').view.GetCoins out.hash = some after ∧ after.vout[out.n]? = coins.vout[out.n]? ∧
      after.fCoinBase = coins.fCoinBase ∧ after.nHeight = coins.nHeight ∧ after.nVersion = coins.nVersion

/-- With a height, what is put back does not depend on the view. -/
theorem restoreInput_height (s : DisconnectState) (out : COutPoint) {undo : CTxInUndo} (height : undo.nHeight ≠ 0) :
    (restoreInput s out undo).view.GetCoins out.hash =
      some (CCoins.restored ⟨undo.fCoinBase,[],undo.nHeight,undo.nVersion⟩ out.n undo.txout) := by
  simp [restoreInput,height,CCoins.restored]

theorem restored_vout (coins : CCoins) (n : Nat) (txout : CTxOut) : (coins.restored n txout).vout[n]? = some txout := by
  have inside : n < (coins.vout ++ List.replicate (n+1-coins.vout.length) CTxOut.null).length := by
    rw [List.length_append,List.length_replicate]
    omega
  rw [CCoins.restored,List.getElem?_set_self inside]

/-- The entry of a spend that leaves nothing. -/
theorem Spend_emptied {coins spent : CCoins} {out : COutPoint} {undo : CTxInUndo} (spends : coins.Spend out = some (spent,undo))
    (emptied : spent.vout = []) :
    coins.vout[out.n]? = some undo.txout ∧ undo = ⟨undo.txout,coins.fCoinBase,coins.nHeight,coins.nVersion⟩ := by
  rw [CCoins.Spend] at spends
  cases indexed : coins.vout[out.n]? with
  | none => simp [indexed] at spends
  | some txout =>
    simp only [indexed] at spends
    by_cases null : txout.IsNull
    · simp [null] at spends
    · by_cases last : (CCoins.Cleanup {coins with vout := coins.vout.set out.n CTxOut.null}).vout.length = 0
      · simp only [null,last,if_true] at spends
        obtain ⟨_,rfl⟩ := Prod.mk.inj (Option.some.inj spends)
        exact ⟨rfl,rfl⟩
      · simp only [null,last,if_false] at spends
        obtain ⟨rfl,_⟩ := Prod.mk.inj (Option.some.inj spends)
        simp [emptied] at last

theorem restores_iff (lawful : keys.Lawful) (whole : keys.Sized) {coins spent : CCoins} {out : COutPoint} {undo : CTxInUndo} {txout : CTxOut}
    (height : 0 < coins.nHeight ∧ coins.nHeight < 2^31) (version : FitsInt coins.nVersion) (spends : coins.Spend out = some (spent,undo))
    (emptied : spent.vout = []) (available : coins.vout[out.n]? = some txout) :
    Restores keys coins out undo ↔ 0 ≤ coins.nVersion ∧ Kept txout := by
  obtain ⟨here,entry⟩ := Spend_emptied spends emptied
  obtain rfl : txout = undo.txout := Option.some.inj (available.symm.trans here)
  have undoHeight : undo.nHeight = coins.nHeight := by rw [entry]
  have undoVersion : undo.nVersion = coins.nVersion := by rw [entry]
  have undoCoinBase : undo.fCoinBase = coins.fCoinBase := by rw [entry]
  have positive : undo.nHeight > 0 := by omega
  have versions := versionBack_iff positive
  rw [undoVersion] at versions
  constructor
  · intro ⟨undo',reads,puts⟩
    obtain ⟨same,kept⟩ := decodes_undo_back whole (by omega) (by rw [undoVersion]; exact version) reads
    obtain ⟨after,found,output,_,_,metadata⟩ := puts ⟨{base := ⟨fun _ => none,none⟩},true⟩
    have notZero : undo'.nHeight ≠ 0 := by
      rw [same]
      show undo.nHeight ≠ 0
      omega
    rw [restoreInput_height _ _ notZero] at found
    obtain rfl := Option.some.inj found
    rw [restored_vout,here] at output
    refine ⟨versions.mp ?_,by rw [← Option.some.inj output]; exact kept⟩
    rw [← metadata,same]
    rfl
  · intro ⟨nonneg,kept⟩
    refine ⟨_,decodes_undo (by omega) (by rw [undoVersion]; exact version) (decodes_kept lawful kept),fun s => ⟨_,restoreInput_height s out ?_,?_⟩⟩
    · show undo.nHeight ≠ 0
      omega
    · refine ⟨(restored_vout ..).trans here.symm,undoCoinBase,undoHeight,?_⟩
      exact versions.mpr nonneg

/-- An undo entry comes back exactly if its version is not negative or it has no height,
    the value has circuits only and everything is short enough; and undoing the spend of the
    last output restores the metadata exactly if the version is not negative and the output
    can be kept. -/
theorem round_trip_iff (lawful : keys.Lawful) (whole : keys.Sized) :
    (∀ undo : CTxInUndo, undo.nHeight < 2^31 → FitsInt undo.nVersion →
      (undo.RoundTrips keys ↔ (undo.nHeight = 0 ∨ 0 ≤ undo.nVersion) ∧ Kept undo.txout ∧ undo.partsSize keys < 2^32)) ∧
    ∀ (coins spent : CCoins) (out : COutPoint) (undo : CTxInUndo) (txout : CTxOut), 0 < coins.nHeight ∧ coins.nHeight < 2^31 →
      FitsInt coins.nVersion → coins.Spend out = some (spent,undo) → spent.vout = [] → coins.vout[out.n]? = some txout →
      (Restores keys coins out undo ↔ 0 ≤ coins.nVersion ∧ Kept txout) :=
  ⟨fun _ height version => roundTrips_iff lawful whole height version,
    fun _ _ _ _ _ height version spends emptied available => restores_iff lawful whole height version spends emptied available⟩

theorem noKeys_sized : CScriptCompressor.noKeys.Sized := by
  intro key pubkey made
  contradiction

/-- Five of one circuit. -/
private def fiveE : CTxOut := ⟨⟨(∅ : CashStruct).insert [69] 5,0⟩,[1,2]⟩

instance (txout : CTxOut) : Decidable (Kept txout) := inferInstanceAs (Decidable (_ ∧ CTxOutCompressor.Fits txout))

/-- The last output of a coinbase at height 7 is spent, and the spend undone. -/
theorem round_trip_sample :
    RoundTrips CScriptCompressor.noKeys ⟨fiveE,true,7,2⟩ ∧ Restores CScriptCompressor.noKeys ⟨true,[fiveE],7,2⟩ ⟨1,0⟩ ⟨fiveE,true,7,2⟩ :=
  ⟨((@round_trip_iff CScriptCompressor.noKeys CScriptCompressor.noKeys_lawful noKeys_sized).1 _ (by decide) ⟨by decide,by decide⟩).mpr
      ⟨by decide,by decide,by decide +kernel⟩,
    ((@round_trip_iff CScriptCompressor.noKeys CScriptCompressor.noKeys_lawful noKeys_sized).2 _ ⟨true,[],7,2⟩ _ _ fiveE (by decide)
      ⟨by decide,by decide⟩ (by decide) (by decide) (by decide)).mpr (by decide)⟩

/-- A version of -1 comes back as 127. -/
theorem negative_version_lost :
    ¬ ∀ keys : KeyRules, keys.Lawful → keys.Sized → ∀ undo : CTxInUndo, undo.nHeight < 2^31 → FitsInt undo.nVersion → undo.RoundTrips keys := by
  intro all
  have trip := all _ CScriptCompressor.noKeys_lawful noKeys_sized ⟨fiveE,false,1,-1⟩ (by decide) ⟨by decide,by decide⟩
  have condition := ((roundTrips_iff CScriptCompressor.noKeys_lawful noKeys_sized (by decide) ⟨by decide,by decide⟩).mp trip).1
  exact absurd condition (by decide)

end CTxInUndo
end Tetra
