import Tetra.ScriptLimits
import Tetra.ScriptValues
import Tetra.Serialize
import Tetra.SignRaw

/-!
What a signature signs: the hash of a transaction of which some parts are blanked out, and
what it commits to.
-/
namespace Tetra
open CScript

/-- `nHashType & 0x1f` -/
def hashMode (nHashType : Int32) : Nat := nHashType.toBitVec.toNat &&& 0x1f

def anyoneCanPay (nHashType : Int32) : Bool := nHashType.toBitVec.toNat &&& SIGHASH_ANYONECANPAY.toNat != 0

namespace CTransaction

/-- Let the others update at will. -/
def loosen (tx : CTransaction) (nIn : Nat) : CTransaction :=
  {tx with vin := tx.vin.mapIdx fun i txin => if i ≠ nIn then {txin with nSequence := 0} else txin}

/-- Some of the outputs are blanked out. No result where the one to sign is not there. -/
def blankOutputs (tx : CTransaction) (nIn : Nat) (nHashType : Int32) : Option CTransaction :=
  -- Wildcard payee.
  if hashMode nHashType = SIGHASH_NONE then some ({tx with vout := []}.loosen nIn)
  -- Only the output at the same index.
  else if hashMode nHashType = SIGHASH_SINGLE then
    if nIn ≥ tx.vout.length then none
    else some ({tx with vout := (tx.vout.take (nIn+1)).mapIdx fun i out => if i < nIn then CTxOut.null else out}.loosen nIn)
  else some tx

/-- The input that is signed is left alone where others may be added. -/
def blankInputs (tx : CTransaction) (nIn : Nat) (nHashType : Int32) : CTransaction :=
  if anyoneCanPay nHashType then {tx with vin := tx.vin[nIn]?.toList} else tx

/-- `txTmp` when it is serialized. -/
def masked (txTo : CTransaction) (scriptCode : CScript) (nIn : Nat) (nHashType : Int32) : Option CTransaction :=
  ((txTo.bare.withSig nIn (scriptCode.FindAndDelete [UInt8.ofNat OP_CODESEPARATOR])).blankOutputs nIn nHashType).map fun txTmp =>
    txTmp.blankInputs nIn nHashType

end CTransaction

/-- `hash` is that of the stream's bytes. -/
def SignatureHash (hash : List UInt8 → uint256) (scriptCode : CScript) (txTo : CTransaction) (nIn : Nat) (nHashType : Int32) : uint256 :=
  if nIn ≥ txTo.vin.length then 1
  else
    match txTo.masked scriptCode nIn nHashType with
    | none => 1
    | some txTmp => hash (txTmp.Serialize ++ Codec.leBytes 4 nHashType.toBitVec.toNat)

/-! ### What is left -/

namespace CTransaction

/-- What the hash commits to: two transactions agree on it. Of an output it is what is
    written. -/
structure Agrees (nHashType : Int32) (nIn : Nat) (tx tx' : CTransaction) : Prop where
  nVersion : tx.nVersion = tx'.nVersion
  nLockTime : tx.nLockTime = tx'.nLockTime
  Attachments : tx.Attachments = tx'.Attachments
  prevout : tx.vin[nIn]?.map CTxIn.prevout = tx'.vin[nIn]?.map CTxIn.prevout
  nSequence : tx.vin[nIn]?.map CTxIn.nSequence = tx'.vin[nIn]?.map CTxIn.nSequence
  prevouts : anyoneCanPay nHashType = false → tx.vin.map CTxIn.prevout = tx'.vin.map CTxIn.prevout
  sequences : anyoneCanPay nHashType = false → hashMode nHashType ≠ SIGHASH_NONE → hashMode nHashType ≠ SIGHASH_SINGLE →
    tx.vin.map CTxIn.nSequence = tx'.vin.map CTxIn.nSequence
  output : hashMode nHashType = SIGHASH_SINGLE → tx.vout[nIn]?.map CTxOut.written = tx'.vout[nIn]?.map CTxOut.written
  outputs : hashMode nHashType ≠ SIGHASH_NONE → hashMode nHashType ≠ SIGHASH_SINGLE → tx.vout.map CTxOut.written = tx'.vout.map CTxOut.written

/-- An input as it is masked. -/
def maskInput (code : CScript) (nIn : Nat) (loose : Bool) (i : Nat) (txin : CTxIn) : CTxIn where
  prevout := txin.prevout
  scriptSig := if i = nIn then code else []
  nSequence := if loose && i != nIn then 0 else txin.nSequence

theorem maskInput_withSig (tx : CTransaction) (nIn : Nat) (code : CScript) :
    tx.bare.withSig nIn code = {tx with vin := tx.vin.mapIdx (maskInput code nIn false)} := by
  rw [withSig,bare]
  congr 1
  apply List.ext_getElem?
  intro i
  rw [List.getElem?_modify,List.getElem?_map,List.getElem?_mapIdx]
  cases tx.vin[i]? with
  | none => rfl
  | some txin =>
    by_cases here : i = nIn
    · simp [maskInput,here]
    · simp [maskInput,here,Ne.symm here]

theorem loosen_masked (tx : CTransaction) (nIn : Nat) (code : CScript) :
    {tx with vin := tx.vin.mapIdx (maskInput code nIn false)}.loosen nIn = {tx with vin := tx.vin.mapIdx (maskInput code nIn true)} := by
  rw [loosen]
  congr 1
  apply List.ext_getElem?
  intro i
  rw [List.getElem?_mapIdx,List.getElem?_mapIdx,List.getElem?_mapIdx]
  cases tx.vin[i]? with
  | none => rfl
  | some txin =>
    by_cases here : i = nIn
    · simp [maskInput,here]
    · simp [maskInput,here]

/-- Whether others may update the sequences of their inputs. -/
def loose (nHashType : Int32) : Bool := hashMode nHashType == SIGHASH_NONE || hashMode nHashType == SIGHASH_SINGLE

def maskInputs (code : CScript) (nIn : Nat) (nHashType : Int32) (vin : List CTxIn) : List CTxIn :=
  if anyoneCanPay nHashType then (vin[nIn]?.map (maskInput code nIn (loose nHashType) nIn)).toList
  else vin.mapIdx (maskInput code nIn (loose nHashType))

def maskOutputs (nIn : Nat) (nHashType : Int32) (vout : List CTxOut) : List CTxOut :=
  if hashMode nHashType = SIGHASH_NONE then []
  else if hashMode nHashType = SIGHASH_SINGLE then List.replicate nIn CTxOut.null ++ vout[nIn]?.toList
  else vout

theorem nulled_eq {vout : List CTxOut} {nIn : Nat} (present : nIn < vout.length) :
    ((vout.take (nIn+1)).mapIdx fun i out => if i < nIn then CTxOut.null else out) = List.replicate nIn CTxOut.null ++ vout[nIn]?.toList := by
  rw [List.getElem?_eq_getElem present,Option.toList_some]
  apply List.ext_getElem?
  intro i
  rw [List.getElem?_mapIdx]
  rcases Nat.lt_trichotomy i nIn with before | rfl | behind
  · rw [List.getElem?_append_left (by simpa using before),List.getElem?_take_of_lt (by omega),List.getElem?_eq_getElem (by omega : i < vout.length)]
    simp [before]
  · rw [List.getElem?_append_right (by simp),List.getElem?_take_of_lt (by omega),List.getElem?_eq_getElem present]
    simp
  · rw [List.getElem?_eq_none (by simp; omega),List.getElem?_eq_none (by simp; omega)]
    rfl

/-- The masked transaction, part by part. -/
theorem masked_eq {tx : CTransaction} (scriptCode : CScript) {nIn : Nat} {nHashType : Int32}
    (present : hashMode nHashType = SIGHASH_SINGLE → nIn < tx.vout.length) :
    tx.masked scriptCode nIn nHashType =
      some {tx with vin := maskInputs (scriptCode.FindAndDelete [UInt8.ofNat OP_CODESEPARATOR]) nIn nHashType tx.vin
                    vout := maskOutputs nIn nHashType tx.vout} := by
  generalize code : scriptCode.FindAndDelete [UInt8.ofNat OP_CODESEPARATOR] = found
  have blanked : ({tx with vin := tx.vin.mapIdx (maskInput found nIn false)} : CTransaction).blankOutputs nIn nHashType =
      some {tx with vin := tx.vin.mapIdx (maskInput found nIn (loose nHashType)),vout := maskOutputs nIn nHashType tx.vout} := by
    rw [blankOutputs,maskOutputs,loose]
    by_cases none : hashMode nHashType = SIGHASH_NONE
    · rw [if_pos none,if_pos none,none]
      exact congrArg some (loosen_masked {tx with vout := []} nIn found)
    · rw [if_neg none,if_neg none]
      by_cases single : hashMode nHashType = SIGHASH_SINGLE
      · have there := present single
        rw [if_pos single,if_pos single,if_neg (Nat.not_le.mpr there),nulled_eq there,single]
        exact congrArg some (loosen_masked {tx with vout := List.replicate nIn CTxOut.null ++ tx.vout[nIn]?.toList} nIn found)
      · rw [if_neg single,if_neg single,beq_eq_false_iff_ne.mpr none,beq_eq_false_iff_ne.mpr single]
        rfl
  rw [masked,code,maskInput_withSig,blanked,Option.map_some,blankInputs,maskInputs]
  split
  · rw [List.getElem?_mapIdx]
  · rfl

/-! ### What is told -/

theorem maskInput_iff (code : CScript) (nIn : Nat) (loose : Bool) (i : Nat) (input input' : Option CTxIn) :
    input.map (maskInput code nIn loose i) = input'.map (maskInput code nIn loose i) ↔
      input.map CTxIn.prevout = input'.map CTxIn.prevout ∧
        ((loose && i != nIn) = false → input.map CTxIn.nSequence = input'.map CTxIn.nSequence) := by
  cases input with
  | none =>
    cases input' with
    | none => simp
    | some _ => simp
  | some txin =>
    cases input' with
    | none => simp
    | some txin' =>
      rw [Option.map_some,Option.map_some,Option.some_inj,maskInput,maskInput,CTxIn.mk.injEq]
      cases loose && i != nIn with
      | false => simp
      | true => simp

theorem map_eq_iff_each {α β : Type} {f : α → β} {as bs : List α} : as.map f = bs.map f ↔ ∀ i : Nat, as[i]?.map f = bs[i]?.map f := by
  rw [List.ext_getElem?_iff]
  simp only [List.getElem?_map]

theorem maskInputs_iff {code : CScript} {nIn : Nat} {nHashType : Int32} {vin vin' : List CTxIn} :
    maskInputs code nIn nHashType vin = maskInputs code nIn nHashType vin' ↔
      (vin[nIn]?.map CTxIn.prevout = vin'[nIn]?.map CTxIn.prevout ∧ vin[nIn]?.map CTxIn.nSequence = vin'[nIn]?.map CTxIn.nSequence) ∧
        (anyoneCanPay nHashType = false → vin.map CTxIn.prevout = vin'.map CTxIn.prevout ∧
          (loose nHashType = false → vin.map CTxIn.nSequence = vin'.map CTxIn.nSequence)) := by
  rw [maskInputs,maskInputs]
  cases anyoneCanPay nHashType with
  | true =>
    simp only [if_true,Bool.true_eq_false,false_implies,and_true]
    have lists {o o' : Option CTxIn} : o.toList = o'.toList ↔ o = o' := by
      cases o with
      | none => cases o' <;> simp
      | some _ => cases o' <;> simp
    rw [lists,maskInput_iff]
    simp
  | false =>
    simp only [Bool.false_eq_true,if_false,true_implies]
    rw [List.ext_getElem?_iff]
    simp only [List.getElem?_mapIdx,maskInput_iff,map_eq_iff_each]
    constructor
    · intro each
      exact ⟨⟨(each nIn).1,(each nIn).2 (by simp)⟩,fun i => (each i).1,fun tight i => (each i).2 (by simp [tight])⟩
    · rintro ⟨⟨-,own⟩,prevouts,sequences⟩ i
      refine ⟨prevouts i,fun kept => ?_⟩
      cases tight : loose nHashType with
      | false => exact sequences tight i
      | true =>
        obtain rfl : i = nIn := by simpa [tight] using kept
        exact own

theorem maskOutputs_iff {nIn : Nat} {nHashType : Int32} {vout vout' : List CTxOut} :
    (maskOutputs nIn nHashType vout).map CTxOut.written = (maskOutputs nIn nHashType vout').map CTxOut.written ↔
      (hashMode nHashType = SIGHASH_SINGLE → vout[nIn]?.map CTxOut.written = vout'[nIn]?.map CTxOut.written) ∧
        (hashMode nHashType ≠ SIGHASH_NONE → hashMode nHashType ≠ SIGHASH_SINGLE → vout.map CTxOut.written = vout'.map CTxOut.written) := by
  rw [maskOutputs,maskOutputs]
  by_cases none : hashMode nHashType = SIGHASH_NONE
  · have other : SIGHASH_NONE ≠ SIGHASH_SINGLE := by decide
    simp [none,other]
  · rw [if_neg none,if_neg none]
    by_cases single : hashMode nHashType = SIGHASH_SINGLE
    · rw [if_pos single,if_pos single,List.map_append,List.map_append,List.append_cancel_left_eq]
      have lists {o o' : Option CTxOut} : o.toList.map CTxOut.written = o'.toList.map CTxOut.written ↔ o.map CTxOut.written = o'.map CTxOut.written := by
        cases o with
        | none => cases o' <;> simp
        | some _ => cases o' <;> simp
      simp [lists,single]
    · simp [none,single]

/-! ### The bytes -/

theorem FindAndDelete_length (script b : CScript) : (script.FindAndDelete b).length ≤ script.length := by
  have front (fuel : Nat) (script : CScript) : (eraseFront b fuel script).length ≤ script.length := by
    induction fuel generalizing script with
    | zero => exact le_rfl
    | succ fuel ih =>
      rw [eraseFront]
      split
      · exact (ih _).trans (by rw [List.length_drop]; omega)
      · exact le_rfl
  have loop (fuel : Nat) (script : CScript) : (deleteFrom b fuel script).length ≤ script.length := by
    induction fuel generalizing script with
    | zero => exact le_rfl
    | succ fuel ih =>
      refine le_trans ?_ (front script.length script)
      rw [deleteFrom]
      generalize eraseFront b script.length script = left
      cases got : GetOp left with
      | none => exact le_rfl
      | some op =>
        obtain ⟨opcode,data,rest⟩ := op
        have shorter := Machine.GetOp_shortens got
        have := ih rest
        dsimp only
        rw [List.length_append,List.length_take]
        omega
  rw [FindAndDelete]
  split
  · exact le_rfl
  · exact loop ..

theorem maskInput_fits {code : CScript} (short : code.length ≤ 2^64-1) {txin : CTxIn} (fits : txin.Fits (2^64-1)) (nIn : Nat) (loose : Bool) (i : Nat) :
    (maskInput code nIn loose i txin).Fits (2^64-1) := by
  refine ⟨fits.prevout,?_,?_⟩
  · rw [maskInput]
    dsimp only
    split
    · exact short
    · exact Nat.zero_le _
  · rw [maskInput]
    dsimp only
    split
    · exact Nat.two_pow_pos 32
    · exact fits.nSequence

theorem masked_fits {tx : CTransaction} (fits : tx.Fits (2^64-1)) {code : CScript} (short : code.length ≤ 2^64-1) {nIn : Nat} {nHashType : Int32}
    (present : hashMode nHashType = SIGHASH_SINGLE → nIn < tx.vout.length) :
    CTransaction.Fits (2^64-1) {tx with vin := maskInputs code nIn nHashType tx.vin,vout := maskOutputs nIn nHashType tx.vout} := by
  refine ⟨fits.nVersion,?_,?_,fits.nLockTime,fits.Attachments⟩
  · change (maskInputs code nIn nHashType tx.vin).length ≤ _ ∧ ∀ txin ∈ maskInputs code nIn nHashType tx.vin, _
    rw [maskInputs]
    split
    · cases found : tx.vin[nIn]? with
      | none => simp
      | some txin =>
        refine ⟨by simp,fun masked member => ?_⟩
        obtain rfl := List.mem_singleton.mp member
        exact maskInput_fits short (fits.vin.2 txin (List.mem_of_getElem? found)) ..
    · refine ⟨by rw [List.length_mapIdx]; exact fits.vin.1,fun masked member => ?_⟩
      obtain ⟨i,inside,rfl⟩ := List.mem_mapIdx.mp member
      exact maskInput_fits short (fits.vin.2 _ (List.getElem_mem ..)) ..
  · change (maskOutputs nIn nHashType tx.vout).length ≤ _ ∧ ∀ out ∈ maskOutputs nIn nHashType tx.vout, _
    rw [maskOutputs]
    split
    · simp
    split
    next single =>
      have there := present single
      have few := fits.vout.1
      rw [List.getElem?_eq_getElem there,Option.toList_some]
      refine ⟨by simp only [List.length_append,List.length_replicate,List.length_singleton]; omega,fun out member => ?_⟩
      rcases List.mem_append.mp member with blank | last
      · rw [(List.mem_replicate.mp blank).2]
        exact ⟨⟨Nat.zero_le _,by simp [CTxOut.null,Cash.assignAmount]⟩,Nat.zero_le _⟩
      · rw [List.mem_singleton.mp last]
        exact fits.vout.2 _ (List.getElem_mem ..)
    · exact fits.vout

end CTransaction

/-- The hash of a type commits to all that the type does not leave free, and to nothing
    else. -/
theorem SignatureHash_commits {hash : List UInt8 → uint256} (injective : Function.Injective hash) {scriptCode : CScript}
    (short : scriptCode.length < 2^64) {tx tx' : CTransaction} (fits : tx.Fits (2^64-1)) (fits' : tx'.Fits (2^64-1)) {nIn : Nat} {nHashType : Int32}
    (inside : nIn < tx.vin.length ∧ nIn < tx'.vin.length)
    (present : hashMode nHashType = SIGHASH_SINGLE → nIn < tx.vout.length ∧ nIn < tx'.vout.length) :
    SignatureHash hash scriptCode tx nIn nHashType = SignatureHash hash scriptCode tx' nIn nHashType ↔ tx.Agrees nHashType nIn tx' := by
  have code := (CTransaction.FindAndDelete_length scriptCode [UInt8.ofNat OP_CODESEPARATOR]).trans (Nat.le_sub_one_of_lt short)
  have same := CTransaction.Serialize_inj (CTransaction.masked_fits fits code fun single => (present single).1)
    (CTransaction.masked_fits fits' code fun single => (present single).2)
  rw [SignatureHash,SignatureHash,if_neg (Nat.not_le.mpr inside.1),if_neg (Nat.not_le.mpr inside.2),
    CTransaction.masked_eq scriptCode fun single => (present single).1,CTransaction.masked_eq scriptCode fun single => (present single).2]
  refine injective.eq_iff.trans ?_
  rw [List.append_cancel_right_eq,same,CTransaction.written,CTransaction.written]
  simp only [Prod.mk.injEq,CTransaction.maskInputs_iff,CTransaction.maskOutputs_iff]
  have tight : CTransaction.loose nHashType = false ↔ hashMode nHashType ≠ SIGHASH_NONE ∧ hashMode nHashType ≠ SIGHASH_SINGLE := by
    simp [CTransaction.loose]
  constructor
  · rintro ⟨⟨⟨⟨nVersion,⟨prevout,nSequence⟩,others⟩,output,outputs⟩,nLockTime⟩,Attachments⟩
    exact ⟨nVersion,nLockTime,Attachments,prevout,nSequence,fun all => (others all).1,
      fun all none single => (others all).2 (tight.mpr ⟨none,single⟩),output,outputs⟩
  · intro agrees
    refine ⟨⟨⟨⟨agrees.nVersion,⟨agrees.prevout,agrees.nSequence⟩,fun all => ⟨agrees.prevouts all,fun kept => ?_⟩⟩,agrees.output,agrees.outputs⟩,
      agrees.nLockTime⟩,agrees.Attachments⟩
    exact agrees.sequences all (tight.mp kept).1 (tight.mp kept).2

/-! ### Samples -/

private def bytesHash (bytes : List UInt8) : uint256 := Encodable.encode (bytes.map UInt8.toNat)
private theorem bytesHash_injective : Function.Injective bytesHash :=
  Encodable.encode_injective.comp (List.map_injective_iff.mpr fun _ _ => UInt8.toNat_inj.mp)

/-- A circuit-free amount goes to the script. -/
private def openTx (scriptSig : CScript) (more : List CTxIn) (amount : Amount) : CTransaction :=
  ⟨1,⟨⟨5,0⟩,scriptSig,7⟩ :: more,[⟨Cash.assignAmount amount,[81]⟩],0,[]⟩

private theorem openTx_fits {scriptSig : CScript} (short : scriptSig.length ≤ 2^64-1) {more : List CTxIn} (few : more.length < 2^64-1)
    (each : ∀ txin ∈ more, txin.Fits (2^64-1)) (amount : Amount) : (openTx scriptSig more amount).Fits (2^64-1) := by
  have version : FitsInt 1 := ⟨by decide,by decide⟩
  have point : (⟨5,0⟩ : COutPoint).Fits := ⟨by decide,by decide⟩
  have seven : 7 < 2^32 := by decide
  have one : 1 ≤ 2^64-1 := by decide
  refine ⟨version,⟨few,List.forall_mem_cons.mpr ⟨⟨point,short,seven⟩,each⟩⟩,⟨one,fun out member => ?_⟩,Nat.two_pow_pos 32,Nat.zero_le _⟩
  obtain rfl := List.mem_singleton.mp member
  exact ⟨⟨Nat.zero_le _,by simp [Cash.assignAmount]⟩,one⟩

/-- With `ALL|ANYONECANPAY` another input may come. -/
theorem SignatureHash_commits_open :
    SignatureHash bytesHash [172] (openTx [1] [] 0) 0 0x81 = SignatureHash bytesHash [172] (openTx [] [⟨⟨9,1⟩,[2],3⟩] 0) 0 0x81 := by
  have other : ∀ txin ∈ [(⟨⟨9,1⟩,[2],3⟩ : CTxIn)], txin.Fits (2^64-1) := by
    intro txin member
    obtain rfl := List.mem_singleton.mp member
    exact ⟨⟨by decide,by decide⟩,by decide,by decide⟩
  have all : ¬anyoneCanPay 0x81 = false := by decide
  refine (SignatureHash_commits bytesHash_injective (by decide) (openTx_fits (by decide) (by decide) (by simp) 0)
    (openTx_fits (by decide) (by decide) other 0) ⟨by decide,by decide⟩ fun single => absurd single (by decide)).mpr ?_
  exact ⟨rfl,rfl,rfl,rfl,rfl,fun closed => absurd closed all,fun closed => absurd closed all,fun _ => rfl,fun _ _ => rfl⟩

/-- Circuit-free amounts are not written, and not signed. -/
theorem amounts_unsigned : Function.Injective bytesHash ∧ SignatureHash bytesHash [172] (openTx [] [] 1) 0 1 = SignatureHash bytesHash [172] (openTx [] [] 2) 0 1 ∧
    (openTx [] [] 1).vout ≠ (openTx [] [] 2).vout := by
  refine ⟨bytesHash_injective,rfl,fun same => ?_⟩
  have amounts := congrArg (List.map fun out : CTxOut => out.nValue.fixed) same
  exact absurd amounts (by decide)

end Tetra
