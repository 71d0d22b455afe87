import Tetra.CombineMultisig
import Tetra.KeyStore
import Tetra.SignatureCache
import Tetra.StandardForms

/-!
Signing: the keys and scripts of a store, the script of an input that is made with them for
an output of a standard form, and the outputs that count as the wallet's own.
-/
namespace Tetra
open CScript Machine Matching Codec
open txnouttype

/-- `CKeyStore` -/
structure CKeyStore where
  HaveKey : CKeyID → Bool
  GetKey : CKeyID → Option CKey
  GetPubKey : CKeyID → Option KeyBuffer
  HaveCScript : Nat → Bool
  GetCScript : Nat → Option CScript

/-- What signing rests on: `hash` is that of a stream, `Sign` and `Verify` are the curve's, and
    the others are what a script can compute. -/
structure SigningEnv extends SigEnv where
  Hash160 : List UInt8 → Nat
  Sign : CKey → uint256 → Option valtype
  RIPEMD160 : valtype → valtype
  SHA1 : valtype → valtype
  SHA256 : valtype → valtype
  Hash : valtype → valtype

namespace SigningEnv

variable (env : SigningEnv)

/-- What the script of an input is run with, under `SCRIPT_VERIFY_P2SH | SCRIPT_VERIFY_STRICTENC`;
    the hash type is that of each signature. -/
def script (txTo : CTransaction) (nIn : Nat) : ScriptEnv where
  fStrictEncodings := true
  CheckSig vchSig vchPubKey scriptCode :=
    SigCall.verdict env.toSigEnv ⟨vchSig,vchPubKey,scriptCode,txTo,nIn,0,{P2SH := true,STRICTENC := true}⟩
  RIPEMD160 := env.RIPEMD160
  SHA1 := env.SHA1
  SHA256 := env.SHA256
  Hash160 data := leBytes 20 (env.Hash160 data)
  Hash := env.Hash

/-- `CPubKey(vch).GetID()` -/
def keyID (vch : valtype) : CKeyID := env.Hash160 (pubKeyBytes vch)

end SigningEnv

/-- `(unsigned char)nHashType` -/
def typeByte (nHashType : Int32) : UInt8 := UInt8.ofNat nHashType.toBitVec.toNat

namespace CKeyStore

variable (env : SigningEnv) (keystore : CKeyStore)

/-- The value returned, and `scriptSigRet`. -/
def Sign1 (address : CKeyID) (hash : uint256) (nHashType : Int32) (scriptSigRet : CScript) : Bool × CScript :=
  match keystore.GetKey address with
  | none => (false,scriptSigRet)
  | some key =>
    match env.Sign key hash with
    | none => (false,scriptSigRet)
    | some vchSig => (true,scriptSigRet ++ pushValue (vchSig ++ [typeByte nHashType]))

/-- The loop of `SignN`: how many have signed, and `scriptSigRet`. -/
def signKeys (hash : uint256) (nHashType : Int32) (nRequired : Nat) : List valtype → Nat → CScript → Nat × CScript
  | [], nSigned, scriptSigRet => (nSigned,scriptSigRet)
  | pubkey :: rest, nSigned, scriptSigRet =>
    if nSigned < nRequired then
      let (signed,scriptSigRet) := keystore.Sign1 env (env.keyID pubkey) hash nHashType scriptSigRet
      signKeys hash nHashType nRequired rest (if signed then nSigned+1 else nSigned) scriptSigRet
    else (nSigned,scriptSigRet)

def SignN (multisigdata : List valtype) (hash : uint256) (nHashType : Int32) (scriptSigRet : CScript) : Bool × CScript :=
  let nRequired := solutionCount multisigdata
  let (nSigned,scriptSigRet) := keystore.signKeys env hash nHashType nRequired (solutionKeys multisigdata) 0 scriptSigRet
  (nSigned == nRequired,scriptSigRet)

/-- The `Solver` that signs: the value returned, `scriptSigRet` and `whichTypeRet`. For
    `TX_SCRIPTHASH` the script returned is the one that hashes to the solution. -/
def Solver (scriptPubKey : CScript) (hash : uint256) (nHashType : Int32) : Exec (Bool × CScript × txnouttype) :=
  match Tetra.Solver scriptPubKey [] with
  | (false,whichType,_) => .ok (false,[],whichType)
  | (true,whichType,vSolutions) =>
    match whichType with
    | TX_NONSTANDARD => .ok (false,[],whichType)
    | TX_PUBKEY =>
      let (signed,scriptSigRet) := keystore.Sign1 env (env.keyID (vSolutions.headD [])) hash nHashType []
      .ok (signed,scriptSigRet,whichType)
    | TX_PUBKEYHASH =>
      let keyID := toUint160 (vSolutions.headD [])
      match keystore.Sign1 env keyID hash nHashType [] with
      | (false,scriptSigRet) => .ok (false,scriptSigRet,whichType)
      | (true,scriptSigRet) => do
        -- A key that is not found is left invalid, and has no bytes.
        let scriptSigRet ← match keystore.GetPubKey keyID with
          | some vch => pushKey scriptSigRet vch
          | none => .ok (scriptSigRet ++ [0])
        return (true,scriptSigRet,whichType)
    | TX_SCRIPTHASH =>
      match keystore.GetCScript (toUint160 (vSolutions.headD [])) with
      | none => .ok (false,[],whichType)
      | some subscript => .ok (true,subscript,whichType)
    | TX_MULTISIG =>
      -- Workaround for the value that `OP_CHECKMULTISIG` pops too many.
      let (signed,scriptSigRet) := keystore.SignN env vSolutions hash nHashType (ofOpcodes [OP_0])
      .ok (signed,scriptSigRet,whichType)

/-- What `VerifyScript` returns; only an assertion that fails does not. -/
def tested : Exec Unit → Exec Bool
  | .ok () => .ok true
  | .error (.asserts condition) => .error (.asserts condition)
  | .error _ => .ok false

/-- The input with its script, which is tested. -/
def testSolution (fromPubKey : CScript) (txTo : CTransaction) (nIn : Nat) (scriptSig : CScript) : Exec (Bool × CTransaction) := do
  let txTo := txTo.withSig nIn scriptSig
  let passed ← tested (VerifyScript (env.script txTo nIn) true scriptSig fromPubKey)
  return (passed,txTo)

/-- The hash is computed again with the subscript in place of the output's script. -/
def signSubscript (fromPubKey subscript : CScript) (txTo : CTransaction) (nIn : Nat) (nHashType : Int32) : Exec (Bool × CTransaction) := do
  let hash2 := SignatureHash env.hash subscript txTo nIn nHashType
  let (solved,scriptSig,subType) ← keystore.Solver env subscript hash2 nHashType
  let fSolved := solved && subType != TX_SCRIPTHASH
  -- The subscript is appended whether or not it is completely signed.
  let scriptSig := scriptSig ++ pushValue subscript
  if fSolved = false then return (false,txTo.withSig nIn scriptSig) else testSolution env fromPubKey txTo nIn scriptSig

/-- The value returned, and the transaction with the script that its input has then. The hash
    that is signed leaves out the scripts of the inputs. -/
def SignSignature (fromPubKey : CScript) (txTo : CTransaction) (nIn : Nat) (nHashType : Int32) : Exec (Bool × CTransaction) :=
  if nIn ≥ txTo.vin.length then .error (.asserts "nIn < txTo.vin.size()")
  else do
    let hash := SignatureHash env.hash fromPubKey txTo nIn nHashType
    let (solved,scriptSig,whichType) ← keystore.Solver env fromPubKey hash nHashType
    if solved = false then return (false,txTo.withSig nIn scriptSig)
    else if whichType = TX_SCRIPTHASH then keystore.signSubscript env fromPubKey scriptSig txTo nIn nHashType
    else testSolution env fromPubKey txTo nIn scriptSig

def HaveKeys (pubkeys : List valtype) : Nat := pubkeys.countP fun pubkey => keystore.HaveKey (env.keyID pubkey)

/-- `IsMine` of a script; `fuel` bounds how many scripts hash to one another. -/
def IsMine : Nat → CScript → Bool
  | fuel, scriptPubKey =>
    match Tetra.Solver scriptPubKey [] with
    | (false,_,_) => false
    | (true,whichType,vSolutions) =>
      match whichType with
      | TX_NONSTANDARD => false
      | TX_PUBKEY => keystore.HaveKey (env.keyID (vSolutions.headD []))
      | TX_PUBKEYHASH => keystore.HaveKey (toUint160 (vSolutions.headD []))
      | TX_SCRIPTHASH =>
        match fuel, keystore.GetCScript (toUint160 (vSolutions.headD [])) with
        | fuel+1, some subscript => IsMine fuel subscript
        | _, _ => false
      -- All of the keys have to be there: who has another of them can spend.
      | TX_MULTISIG => keystore.HaveKeys env (solutionKeys vSolutions) == (solutionKeys vSolutions).length

end CKeyStore

/-! ### Scripts that push -/

namespace CScript

/-- Data whose size stands in bytes of its own. -/
theorem GetOp_sizedPush {opcode width : Nat} {b : valtype} (kind : (opcode,width) = (OP_PUSHDATA1,1) ∨ (opcode,width) = (OP_PUSHDATA2,2) ∨
    (opcode,width) = (OP_PUSHDATA4,4)) (fits : b.length < 256^width) (rest : CScript) :
    GetOp (UInt8.ofNat opcode :: leBytes width b.length ++ (b ++ rest)) = some (opcode,b,rest) := by
  have long := leBytes_length width b.length
  have sized : readSize width (leBytes width b.length ++ (b ++ rest)) = some (b.length,b ++ rest) := by
    rw [readSize_eq,if_neg (by rw [List.length_append]; omega),List.take_left' long,List.drop_left' long,leNat_leBytes fits]
  have enough : ¬(b ++ rest).length < b.length := by simp
  have code : (UInt8.ofNat opcode).toNat = opcode := by
    rcases kind with same | same | same <;> obtain ⟨rfl,rfl⟩ := Prod.mk.inj same <;> rfl
  have low : opcode ≤ OP_PUSHDATA4 := by
    rcases kind with same | same | same <;> obtain ⟨rfl,rfl⟩ := Prod.mk.inj same <;> decide
  have width' : (if opcode < OP_PUSHDATA1 then some (opcode,leBytes width b.length ++ (b ++ rest))
      else if opcode = OP_PUSHDATA1 then readSize 1 (leBytes width b.length ++ (b ++ rest))
      else if opcode = OP_PUSHDATA2 then readSize 2 (leBytes width b.length ++ (b ++ rest))
      else readSize 4 (leBytes width b.length ++ (b ++ rest))) = some (b.length,b ++ rest) := by
    rw [← sized]
    rcases kind with same | same | same <;> obtain ⟨rfl,rfl⟩ := Prod.mk.inj same <;> rfl
  rw [List.cons_append,GetOp]
  simp only [code]
  rw [if_pos low,width']
  dsimp only
  rw [if_neg enough,List.take_left,List.drop_left]

theorem GetOp_pushValue {b : valtype} (short : b.length < 2^32) (rest : CScript) : GetOp (pushValue b ++ rest) = some (pushOpcode b,b,rest) := by
  rw [pushValue,pushOpcode]
  by_cases direct : b.length < OP_PUSHDATA1
  · rw [if_pos direct,if_pos direct]
    exact GetOp_direct direct rest
  rw [if_neg direct,if_neg direct]
  by_cases one : b.length ≤ 0xff
  · rw [if_pos one,if_pos one,List.append_assoc]
    have byte : leBytes 1 b.length = [UInt8.ofNat b.length] := rfl
    exact byte ▸ @GetOp_sizedPush OP_PUSHDATA1 1 _ (.inl rfl) (by omega) rest
  rw [if_neg one,if_neg one]
  by_cases two : b.length ≤ 0xffff
  · rw [if_pos two,if_pos two,List.append_assoc]
    exact GetOp_sizedPush (.inr (.inl rfl)) (by omega) rest
  · rw [if_neg two,if_neg two,List.append_assoc]
    exact GetOp_sizedPush (.inr (.inr rfl)) (by omega) rest

theorem pushOpcode_low (b : valtype) : pushOpcode b ≤ OP_PUSHDATA4 := by
  unfold pushOpcode OP_PUSHDATA1 OP_PUSHDATA2 OP_PUSHDATA4
  split_ifs <;> omega

theorem pushValue_length (b : valtype) : (pushValue b).length ≤ b.length+5 := by
  rw [pushValue,List.length_append]
  split_ifs <;> simp <;> omega

end CScript

/-! ### Scripts that push -/

namespace Machine

theorem PushAll_append (values values' : List valtype) : PushAll (values ++ values') = PushAll values ++ PushAll values' := List.flatMap_append ..

theorem PushAll_singleton (value : valtype) : PushAll [value] = pushValue value := by simp [PushAll]

theorem PushAll_value {value : valtype} {values : List valtype} (member : value ∈ values) : value.length ≤ (PushAll values).length := by
  obtain ⟨before,after,rfl⟩ := List.append_of_mem member
  rw [PushAll_append,List.length_append]
  have here : value.length ≤ (PushAll (value :: after)).length := by
    simp only [PushAll,List.flatMap_cons,List.length_append,pushValue]
    omega
  exact here.trans (Nat.le_add_left _ _)

theorem PushAll_length {values : List valtype} {most : Nat} (small : ∀ value ∈ values, value.length ≤ most) :
    (PushAll values).length ≤ values.length*(most+5) := by
  induction values with
  | nil => exact Nat.zero_le _
  | cons value values ih =>
    have first := (pushValue_length value).trans (Nat.add_le_add_right (small value (List.mem_cons_self ..)) 5)
    have rest := ih fun other member => small other (List.mem_cons_of_mem _ member)
    have split : (PushAll (value :: values)).length = (pushValue value).length+(PushAll values).length := List.length_append
    rw [split,List.length_cons,Nat.succ_mul]
    omega

theorem reads_PushAll {values : List valtype} (short : ∀ value ∈ values, value.length < 2^32) :
    Reads (PushAll values) (values.map fun value => (pushOpcode value,value)) [] := by
  induction values with
  | nil => rfl
  | cons value values ih =>
    exact ⟨PushAll values,GetOp_pushValue (short value (List.mem_cons_self ..)) _,ih fun other member => short other (List.mem_cons_of_mem _ member)⟩

theorem IsPushOnly_PushAll {values : List valtype} (short : ∀ value ∈ values, value.length < 2^32) : IsPushOnly (PushAll values) = true := by
  have operations : Operations (PushAll values) (values.map fun value => (pushOpcode value,value)) := by
    induction values with
    | nil => exact .nil
    | cons value values ih =>
      exact .cons (GetOp_pushValue (short value (List.mem_cons_self ..)) _) (ih fun other member => short other (List.mem_cons_of_mem _ member))
  refine (everyOp_iff _ le_rfl).mpr ⟨_,operations,fun op member => ?_⟩
  obtain ⟨value,_,rfl⟩ := List.mem_map.mp member
  have low := (pushOpcode_low value).trans (show OP_PUSHDATA4 ≤ OP_16 by decide)
  simpa using low

section
variable {env : ScriptEnv} {code pc : CScript} {stack : Stack} {n : Nat}

/-- A value that is too long stops the run. -/
theorem run_data_long {rest : CScript} {opcode : Nat} {data : valtype} (got : GetOp pc = some (opcode,data,rest))
    (long : ¬data.length ≤ MAX_SCRIPT_ELEMENT_SIZE) : run env (still code pc stack n) = .error .refused := by
  rw [run_cons env (m := still code pc stack n) got,iterate_eq env (m := still code pc stack n) got,if_pos (Nat.lt_of_not_le long)]
  rfl

theorem run_PushAll_long {values : List valtype} (small : ∀ value ∈ values, value.length < 2^32)
    (long : ∃ value ∈ values, ¬value.length ≤ MAX_SCRIPT_ELEMENT_SIZE) : run env (still code (PushAll values) stack n) = .error .refused := by
  induction values generalizing stack with
  | nil =>
    obtain ⟨value,member,_⟩ := long
    contradiction
  | cons value values ih =>
    have got := GetOp_pushValue (small value (List.mem_cons_self ..)) (PushAll values)
    change run env (still code (pushValue value ++ PushAll values) stack n) = _
    by_cases short : value.length ≤ MAX_SCRIPT_ELEMENT_SIZE
    swap
    · exact run_data_long got short
    rw [run_data got (pushOpcode_low value) short]
    by_cases room : (stack ++ [value]).length ≤ 1000
    swap
    · rw [fits_full room]
      rfl
    rw [fits_room room]
    refine ih (fun other member => small other (List.mem_cons_of_mem _ member)) ?_
    obtain ⟨other,member,long⟩ := long
    rcases List.mem_cons.mp member with rfl | member
    · exact absurd short long
    · exact ⟨other,member,long⟩

theorem EvalScript_PushAll {values : List valtype} (small : ∀ value ∈ values, value.length ≤ MAX_SCRIPT_ELEMENT_SIZE) (room : values.length ≤ 1000)
    (short : (PushAll values).length ≤ 10000) : EvalScript env [] (PushAll values) = .ok values := by
  have small' (value) (member : value ∈ values) : value.length < 2^32 := (small value member).trans_lt (by decide)
  have all := reads_PushAll small'
  rw [← List.append_nil (values.map _)] at all
  obtain ⟨after,rfl,run'⟩ := (@run_pushes env (PushAll values) _ _ [] 0 _ _ all (by
    intro push member
    obtain ⟨value,inside,rfl⟩ := List.mem_map.mp member
    exact ⟨pushOpcode_low value,small value inside⟩)).1 (by simpa using room)
  have data : (values.map fun value => (pushOpcode value,value)).map Prod.snd = values := by rw [List.map_map]; exact List.map_id values
  rw [EvalScript_still short,run',run_end,data]
  rfl

theorem EvalScript_PushAll_long {values : List valtype} (long : ∃ value ∈ values, ¬value.length ≤ MAX_SCRIPT_ELEMENT_SIZE) :
    EvalScript env [] (PushAll values) = .error .refused := by
  by_cases short : (PushAll values).length ≤ 10000
  swap
  · rw [EvalScript,if_pos (Nat.lt_of_not_le short)]
  have small (value) (member : value ∈ values) : value.length < 2^32 := ((PushAll_value member).trans short).trans_lt (by decide)
  rw [EvalScript_still short,run_PushAll_long small long]
  rfl

end

end Machine

/-! ### Signatures that are accepted -/

theorem canonical_valid {vch : valtype} (canonical : IsCanonicalPubKey vch = true) : vch ≠ [] ∧ pubKeyBytes vch = vch := by
  rw [IsCanonicalPubKey] at canonical
  split at canonical
  · contradiction
  next long =>
    cases vch with
    | nil => exact absurd (by decide) long
    | cons header rest =>
      refine ⟨nofun,?_⟩
      rw [pubKeyBytes]
      simp only [List.getD_cons_zero,List.headD_cons,List.isEmpty_cons,Bool.false_eq_true,if_false] at canonical ⊢
      split at canonical
      next full =>
        obtain rfl := full
        have size : ((4 : UInt8) :: rest).length = 65 := by simpa using canonical
        rw [size]
        rfl
      next =>
        split at canonical
        next compressed =>
          have size : (header :: rest).length = 33 := by simpa using canonical
          rcases compressed with rfl | rfl
          · rw [size]
            rfl
          · rw [size]
            rfl
        next => contradiction

theorem withSig_bare (tx : CTransaction) (nIn : Nat) (scriptSig : CScript) : (tx.withSig nIn scriptSig).bare = tx.bare := by
  have vin : (tx.vin.modify nIn fun txin => {txin with scriptSig := scriptSig}).map (fun txin => {txin with scriptSig := []}) =
      tx.vin.map fun txin => {txin with scriptSig := []} := by
    refine List.ext_getElem? fun i => ?_
    rw [List.getElem?_map,List.getElem?_map,List.getElem?_modify]
    split
    · cases tx.vin[i]? <;> rfl
    · cases tx.vin[i]? <;> rfl
  exact congrArg (fun vin => {tx with vin := vin}) vin

/-- The hash that is signed does not depend on the scripts of the inputs. -/
theorem SignatureHash_withSig (hash : List UInt8 → uint256) (scriptCode : CScript) (tx : CTransaction) (nIn : Nat) (scriptSig : CScript) (nHashType : Int32) :
    SignatureHash hash scriptCode (tx.withSig nIn scriptSig) nIn nHashType = SignatureHash hash scriptCode tx nIn nHashType := by
  have long : (tx.withSig nIn scriptSig).vin.length = tx.vin.length := List.length_modify ..
  rw [SignatureHash,SignatureHash,long,CTransaction.masked,CTransaction.masked,withSig_bare]

section
variable {env : SigningEnv} {txTo : CTransaction} {nIn : Nat} {nHashType : Int32} {vchSig vchPubKey : valtype} {code : CScript}

theorem signs_made (narrow : nHashType.toBitVec.toNat < 256) (signature : IsCanonicalSignature (vchSig ++ [typeByte nHashType]) = true)
    (pubkey : IsCanonicalPubKey vchPubKey = true) (verifies : env.Verify (SignatureHash env.hash code txTo nIn nHashType) vchSig vchPubKey = true) :
    signs (env.script txTo nIn) (vchSig ++ [typeByte nHashType]) vchPubKey code = true := by
  obtain ⟨some,valid⟩ := canonical_valid pubkey
  have type : Int32.ofNat (typeByte nHashType).toNat = nHashType := by
    rw [typeByte,UInt8.toNat_ofNat',Nat.mod_eq_of_lt narrow]
    have same : (Int32.ofNat nHashType.toBitVec.toNat).toUInt32 = nHashType.toUInt32 := UInt32.ofNat_toNat
    exact congrArg UInt32.toInt32 same
  rw [signs,signature,pubkey]
  simp [SigningEnv.script,SigCall.verdict,SigCall.sigdata,valid,some,type,verifies]

end

theorem leBytes_leNat (bytes : List UInt8) : leBytes bytes.length (leNat bytes) = bytes := by
  induction bytes with
  | nil => rfl
  | cons byte rest ih =>
    have small := byte.toNat_lt
    have low : UInt8.ofNat (byte.toNat+256*leNat rest) = byte := by
      apply UInt8.toNat_inj.mp
      rw [UInt8.toNat_ofNat']
      omega
    have high : (byte.toNat+256*leNat rest)/256 = leNat rest := by omega
    rw [List.length_cons,leBytes,leNat,low,high,ih]

theorem script_withSig (env : SigningEnv) (tx : CTransaction) (nIn : Nat) (scriptSig : CScript) :
    env.script (tx.withSig nIn scriptSig) nIn = env.script tx nIn := by
  rw [SigningEnv.script,SigningEnv.script]
  simp only [SigCall.verdict,SigCall.sigdata,SignatureHash_withSig]

theorem canonical_length {vchSig : valtype} (canonical : IsCanonicalSignature vchSig = true) : vchSig.length ≤ 73 := by
  by_contra long
  have bad : decide (vchSig.length > 73) = true := by simpa using long
  simp [IsCanonicalSignature,bad] at canonical

namespace CKeyStore

/-- The keys, the signatures and the scripts of a store belong together, and the keys can be
    used. -/
structure Lawful (env : SigningEnv) (keystore : CKeyStore) (nHashType : Int32) : Prop where
  held : ∀ address, keystore.HaveKey address = (keystore.GetKey address).isSome
  signs : ∀ address key, keystore.GetKey address = some key → ∃ vchPubKey, keystore.GetPubKey address = some vchPubKey ∧
    env.Hash160 vchPubKey.bytes = address ∧ IsCanonicalPubKey vchPubKey.bytes = true ∧
    ∀ hash, ∃ vchSig, env.Sign key hash = some vchSig ∧ env.Verify hash vchSig vchPubKey.bytes = true ∧
      IsCanonicalSignature (vchSig ++ [typeByte nHashType]) = true
  scripts : ∀ scriptID subscript, keystore.GetCScript scriptID = some subscript → env.Hash160 subscript = scriptID

/-- No signature that is made is an operation of the script, and no key that it lists has the
    hash of another that is held. -/
structure Clear (env : SigningEnv) (keystore : CKeyStore) (nHashType : Int32) (code : CScript) : Prop where
  unmixed : ∀ address key hash vchSig, keystore.GetKey address = some key → env.Sign key hash = some vchSig →
    FindAndDelete code (pushValue (vchSig ++ [typeByte nHashType])) = code
  apart : ∀ whichType vSolutions, Tetra.Solver code [] = (true,whichType,vSolutions) → ∀ vch ∈ vSolutions, ∀ vchPubKey,
    keystore.GetPubKey (env.keyID vch) = some vchPubKey → pubKeyBytes vch = vchPubKey.bytes

section
variable (env : SigningEnv) (keystore : CKeyStore)

/-- The keys that a script of this form asks for are held. -/
def Suffices (whichType : txnouttype) (vSolutions : List valtype) : Prop :=
  match whichType with
  | TX_PUBKEY => keystore.HaveKey (env.keyID (vSolutions.headD [])) = true
  | TX_PUBKEYHASH => keystore.HaveKey (toUint160 (vSolutions.headD [])) = true
  | TX_MULTISIG => solutionCount vSolutions ≤ keystore.HaveKeys env (solutionKeys vSolutions)
  | _ => False

/-- A script of a standard form, with the keys held. -/
def Solvable (code : CScript) : Prop :=
  ∃ whichType vSolutions, Tetra.Solver code [] = (true,whichType,vSolutions) ∧ keystore.Suffices env whichType vSolutions

/-- A script inside has to be known, solvable itself, and no longer than what a script can
    push. -/
def Signable (fromPubKey : CScript) : Prop :=
  keystore.Solvable env fromPubKey ∨ ∃ scriptID subscript, Tetra.Solver fromPubKey [] = (true,TX_SCRIPTHASH,[scriptID]) ∧
    keystore.GetCScript (toUint160 scriptID) = some subscript ∧ subscript.length ≤ MAX_SCRIPT_ELEMENT_SIZE ∧ keystore.Solvable env subscript

/-- The signature of the key at an address, with the hash type. -/
def signature (hash : uint256) (nHashType : Int32) (address : CKeyID) : Option valtype :=
  (keystore.GetKey address).bind fun key => (env.Sign key hash).map fun vchSig => vchSig ++ [typeByte nHashType]

end

variable {env : SigningEnv} {keystore : CKeyStore} {nHashType : Int32}

theorem Sign1_eq (address : CKeyID) (hash : uint256) (scriptSigRet : CScript) :
    keystore.Sign1 env address hash nHashType scriptSigRet =
      match keystore.signature env hash nHashType address with
      | none => (false,scriptSigRet)
      | some vchSig => (true,scriptSigRet ++ pushValue vchSig) := by
  rw [Sign1,signature]
  cases keystore.GetKey address with
  | none => rfl
  | some key =>
    dsimp only [Option.bind_some]
    cases env.Sign key hash with
    | none => rfl
    | some vchSig => rfl

/-- The first keys that are held sign, in the order of the keys. -/
theorem signKeys_eq (hash : uint256) (nRequired : Nat) (keys : List valtype) {nSigned : Nat} (room : nSigned ≤ nRequired) (scriptSigRet : CScript) :
    keystore.signKeys env hash nHashType nRequired keys nSigned scriptSigRet =
      let sigs := (keys.filterMap fun pubkey => keystore.signature env hash nHashType (env.keyID pubkey)).take (nRequired-nSigned)
      (nSigned+sigs.length,scriptSigRet ++ PushAll sigs) := by
  induction keys generalizing nSigned scriptSigRet with
  | nil => simp [signKeys,PushAll]
  | cons pubkey rest ih =>
    rw [signKeys]
    by_cases more : nSigned < nRequired
    swap
    · have full : nRequired-nSigned = 0 := by omega
      simp [if_neg more,full,PushAll]
    rw [if_pos more,Sign1_eq]
    cases made : keystore.signature env hash nHashType (env.keyID pubkey) with
    | none => simpa [made] using ih room scriptSigRet
    | some vchSig =>
      obtain ⟨left,more'⟩ : ∃ left, nRequired-nSigned = left+1 := ⟨nRequired-nSigned-1,by omega⟩
      have fewer : nRequired-(nSigned+1) = left := by omega
      have rest' := ih (show nSigned+1 ≤ nRequired from more) (scriptSigRet ++ pushValue vchSig)
      have filtered : (pubkey :: rest).filterMap (fun pubkey => keystore.signature env hash nHashType (env.keyID pubkey)) =
          vchSig :: rest.filterMap fun pubkey => keystore.signature env hash nHashType (env.keyID pubkey) := List.filterMap_cons_some made
      simp only [fewer] at rest'
      simp only [if_true,rest',filtered,more',List.take_succ_cons,List.length_cons]
      rw [Nat.add_right_comm,Nat.add_assoc,List.append_assoc]
      rfl

section
variable (lawful : keystore.Lawful env nHashType)
include lawful

theorem signature_held (hash : uint256) (address : CKeyID) : (keystore.signature env hash nHashType address).isSome = keystore.HaveKey address := by
  rw [signature,lawful.held]
  cases found : keystore.GetKey address with
  | none => rfl
  | some key =>
    obtain ⟨vchPubKey,_,_,_,signs⟩ := lawful.signs address key found
    obtain ⟨vchSig,made,_⟩ := signs hash
    simp [made]

theorem signature_made {hash : uint256} {address : CKeyID} {vchSig : valtype} (made : keystore.signature env hash nHashType address = some vchSig)
    (narrow : nHashType.toBitVec.toNat < 256) :
    vchSig.length ≤ 73 ∧ (∀ code, keystore.Clear env nHashType code → FindAndDelete code (pushValue vchSig) = code) ∧
      ∃ vchPubKey, keystore.GetPubKey address = some vchPubKey ∧ env.Hash160 vchPubKey.bytes = address ∧ vchPubKey.bytes ≠ [] ∧
        ∀ code txTo nIn, hash = SignatureHash env.hash code txTo nIn nHashType → signs (env.script txTo nIn) vchSig vchPubKey.bytes code = true := by
  obtain ⟨key,found,mapped⟩ := Option.bind_eq_some_iff.mp made
  obtain ⟨vchSig,signed,rfl⟩ := Option.map_eq_some_iff.mp mapped
  obtain ⟨vchPubKey,pubkey,hashed,canonical,signs'⟩ := lawful.signs address key found
  obtain ⟨vchSig',made',verifies,signature⟩ := signs' hash
  obtain rfl := Option.some.inj (signed.symm.trans made')
  refine ⟨canonical_length signature,fun code clear => clear.unmixed address key hash vchSig found signed,vchPubKey,pubkey,hashed,
    (canonical_valid canonical).1,?_⟩
  rintro code txTo nIn rfl
  exact signs_made narrow signature canonical verifies

/-- A key that the script lists. -/
theorem signature_listed {code : CScript} {whichType : txnouttype} {vSolutions : List valtype} {txTo : CTransaction} {nIn : Nat} {vch vchSig : valtype}
    (clear : keystore.Clear env nHashType code) (solved : Tetra.Solver code [] = (true,whichType,vSolutions)) (listed : vch ∈ vSolutions)
    (made : keystore.signature env (SignatureHash env.hash code txTo nIn nHashType) nHashType (env.keyID vch) = some vchSig)
    (narrow : nHashType.toBitVec.toNat < 256) : signs (env.script txTo nIn) vchSig vch code = true := by
  obtain ⟨_,_,vchPubKey,pubkey,_,some,accepted⟩ := signature_made lawful made narrow
  have same := clear.apart whichType vSolutions solved vch listed vchPubKey pubkey
  have bytes : pubKeyBytes vch = vch := (ite_eq_or_eq ..).resolve_right fun none => some (same.symm.trans none)
  rw [← bytes,same]
  exact accepted code txTo nIn rfl

/-- A script of a standard form that does not pay to another: the values that are pushed spend
    it where the keys are held. -/
theorem Solver_signs {code : CScript} {whichType : txnouttype} {vSolutions : List valtype} (clear : keystore.Clear env nHashType code)
    (solved : Tetra.Solver code [] = (true,whichType,vSolutions)) (plain : IsPayToScriptHash code = false) (narrow : nHashType.toBitVec.toNat < 256)
    (txTo : CTransaction) (nIn : Nat) :
    ∃ signed values, keystore.Solver env code (SignatureHash env.hash code txTo nIn nHashType) nHashType = .ok (signed,PushAll values,whichType) ∧
      (signed = true ↔ keystore.Suffices env whichType vSolutions) ∧ values.length ≤ 17 ∧ (∀ value ∈ values, value.length ≤ 73) ∧
      (signed = true → ∃ left, EvalScript (env.script txTo nIn) values code = .ok left ∧ leavesTrue left = true) := by
  rcases Solver_reads solved plain with ⟨rfl,push,key,reads,low,sized,rfl⟩ | ⟨rfl,push,hash,reads,low,sized,rfl⟩ |
    ⟨rfl,m,keys,some,enough,few,reads,each,rfl⟩
  · have held := signature_held lawful (SignatureHash env.hash code txTo nIn nHashType) (env.keyID key)
    have made := fun vchSig => @signature_made _ _ _ lawful (SignatureHash env.hash code txTo nIn nHashType) (env.keyID key) vchSig
    have listed := fun vchSig => @signature_listed _ _ _ lawful code _ _ txTo nIn key vchSig clear solved (List.mem_cons_self ..)
    rw [Solver,solved]
    simp only [List.headD_cons,Sign1_eq,Suffices,← held]
    cases signed : keystore.signature env (SignatureHash env.hash code txTo nIn nHashType) nHashType (env.keyID key) with
    | none => exact ⟨false,[],rfl,by simp,by simp,nofun,nofun⟩
    | some vchSig =>
      obtain ⟨short,unmixed,_⟩ := made vchSig signed narrow
      refine ⟨true,[vchSig],by rw [PushAll_singleton]; rfl,by simp,by simp,by simpa using short,fun _ => ?_⟩
      exact (spends_key reads low sized).mpr ⟨by simp,[],vchSig,rfl,by rw [unmixed code clear]; exact listed vchSig signed narrow⟩
  · have held := signature_held lawful (SignatureHash env.hash code txTo nIn nHashType) (toUint160 hash)
    have made := fun vchSig => @signature_made _ _ _ lawful (SignatureHash env.hash code txTo nIn nHashType) (toUint160 hash) vchSig
    rw [Solver,solved]
    simp only [List.headD_cons,Sign1_eq,Suffices,← held]
    cases signed : keystore.signature env (SignatureHash env.hash code txTo nIn nHashType) nHashType (toUint160 hash) with
    | none => exact ⟨false,[],rfl,by simp,by simp,nofun,nofun⟩
    | some vchSig =>
      obtain ⟨short,unmixed,vchPubKey,pubkey,hashed,_,accepted⟩ := made vchSig signed narrow
      have small := vchPubKey.size_le
      have long := vchPubKey.bytes_length
      have direct : vchPubKey.size < OP_PUSHDATA1 := small.trans_lt (by decide)
      have pushed : pushKey ([] ++ pushValue vchSig) vchPubKey = .ok (PushAll [vchSig,vchPubKey.bytes]) := by
        have value : pushValue vchPubKey.bytes = UInt8.ofNat vchPubKey.size :: vchPubKey.bytes := by rw [pushValue,long,if_pos direct]; rfl
        rw [pushKey,if_pos direct,← value]
        simp [PushAll]
      simp only [pubkey,pushed]
      refine ⟨true,[vchSig,vchPubKey.bytes],rfl,by simp,by simp,?_,fun _ => ?_⟩
      · intro value member
        rcases List.mem_cons.mp member with rfl | member
        · exact short
        · obtain rfl := List.mem_singleton.mp member
          omega
      · refine (spends_keyhash reads low sized).mpr ⟨by simp,[],vchSig,vchPubKey.bytes,rfl,?_,?_⟩
        · show leBytes 20 (env.Hash160 vchPubKey.bytes) = hash
          rw [hashed,toUint160,if_pos sized]
          exact sized ▸ leBytes_leNat hash
        · rw [unmixed code clear]
          exact accepted code txTo nIn rfl
  · have count : solutionCount ([UInt8.ofNat m] :: (keys.map Prod.snd ++ [[UInt8.ofNat keys.length]])) = m := by
      show (UInt8.ofNat m).toNat = m
      rw [UInt8.toNat_ofNat']
      omega
    have inside : solutionKeys ([UInt8.ofNat m] :: (keys.map Prod.snd ++ [[UInt8.ofNat keys.length]])) = keys.map Prod.snd := by
      simp [solutionKeys]
    have held (vch : valtype) := signature_held lawful (SignatureHash env.hash code txTo nIn nHashType) (env.keyID vch)
    have all : keystore.HaveKeys env (keys.map Prod.snd) = ((keys.map Prod.snd).filterMap fun vch =>
        keystore.signature env (SignatureHash env.hash code txTo nIn nHashType) nHashType (env.keyID vch)).length := by
      rw [HaveKeys,List.length_filterMap_eq_countP]
      simp only [← held]
    obtain ⟨found,split⟩ : ∃ found, ((keys.map Prod.snd).filterMap fun vch =>
        keystore.signature env (SignatureHash env.hash code txTo nIn nHashType) nHashType (env.keyID vch)) = found := ⟨_,rfl⟩
    have made (vchSig) (member : vchSig ∈ found) : vchSig.length ≤ 73 ∧ FindAndDelete code (pushValue vchSig) = code := by
      obtain ⟨vch,_,signed⟩ := List.mem_filterMap.mp (split ▸ member)
      obtain ⟨short,unmixed,_⟩ := signature_made lawful signed narrow
      exact ⟨short,unmixed code clear⟩
    have opened : ofOpcodes [OP_0] = PushAll [[]] := rfl
    rw [Solver,solved]
    simp only [SignN,count,inside,opened,signKeys_eq _ m _ (Nat.zero_le m),Suffices,all,split,Nat.sub_zero,Nat.zero_add,← PushAll_append,
      List.singleton_append]
    refine ⟨_,_,rfl,?_,?_,?_,fun enough' => ?_⟩
    · rw [beq_iff_eq,List.length_take]
      omega
    · rw [List.length_cons,List.length_take]
      omega
    · intro value member
      rcases List.mem_cons.mp member with rfl | member
      · exact Nat.zero_le _
      · exact (made value (List.mem_of_mem_take member)).1
    · have required : (found.take m).length = m := by simpa using enough'
      refine (spends_multisig reads each some enough few).mpr ⟨?_,[],[],found.take m,rfl,required,?_⟩
      · rw [List.length_cons,required]
        omega
      · rw [Machine.Signed,CombineMultisig.codeWithout_absent fun sig member => (made sig (List.mem_of_mem_take member)).2]
        refine matches_take (split ▸ matches_filterMap fun vch member vchSig signed => ?_) m
        exact signature_listed lawful clear solved (List.mem_cons_of_mem _ (List.mem_append_left _ member)) signed narrow

omit lawful in
theorem Solver_unsolved {code : CScript} {whichType : txnouttype} {vSolutions : List valtype}
    (unsolved : Tetra.Solver code [] = (false,whichType,vSolutions)) (hash : uint256) :
    keystore.Solver env code hash nHashType = .ok (false,[],whichType) := by
  rw [Solver,unsolved]

omit lawful in
theorem Solver_script {code : CScript} (pays : IsPayToScriptHash code = true) (hash : uint256) :
    keystore.Solver env code hash nHashType =
      match keystore.GetCScript (toUint160 ((code.drop 2).take 20)) with
      | none => .ok (false,[],TX_SCRIPTHASH)
      | some subscript => .ok (true,subscript,TX_SCRIPTHASH) := by
  have solved : Tetra.Solver code [] = (true,TX_SCRIPTHASH,[(code.drop 2).take 20]) := by
    rw [Tetra.Solver,if_pos pays]
    rfl
  rw [Solver,solved]
  rfl

omit lawful in
theorem not_solvable {code : CScript} {whichType : txnouttype} {vSolutions : List valtype} {solved : Bool}
    (form : Tetra.Solver code [] = (solved,whichType,vSolutions)) (neither : solved = false ∨ whichType = TX_SCRIPTHASH) :
    ¬keystore.Solvable env code := by
  rintro ⟨whichType',vSolutions',form',enough⟩
  rw [form] at form'
  obtain ⟨rfl,rest⟩ := Prod.mk.inj form'
  obtain ⟨rfl,rfl⟩ := Prod.mk.inj rest
  rcases neither with none | rfl
  · contradiction
  · exact enough

omit lawful in
theorem script_form {code : CScript} (pays : IsPayToScriptHash code = true) :
    Tetra.Solver code [] = (true,TX_SCRIPTHASH,[(code.drop 2).take 20]) := by
  rw [Tetra.Solver,if_pos pays]
  rfl

omit lawful in
theorem Signable_pays {fromPubKey : CScript} (pays : IsPayToScriptHash fromPubKey = true) :
    keystore.Signable env fromPubKey ↔ ∃ subscript, keystore.GetCScript (toUint160 ((fromPubKey.drop 2).take 20)) = some subscript ∧
      subscript.length ≤ MAX_SCRIPT_ELEMENT_SIZE ∧ keystore.Solvable env subscript := by
  have form := script_form pays
  constructor
  · rintro (solvable | ⟨scriptID,subscript,form',rest⟩)
    · exact absurd solvable (not_solvable form (.inr rfl))
    · rw [form] at form'
      obtain rfl := List.head_eq_of_cons_eq (Prod.mk.inj (Prod.mk.inj form').2).2
      exact ⟨subscript,rest⟩
  · rintro ⟨subscript,rest⟩
    exact .inr ⟨_,subscript,form,rest⟩

omit lawful in
theorem plain_form {code : CScript} {solutions : List valtype} (plain : IsPayToScriptHash code = false) :
    Tetra.Solver code [] ≠ (true,TX_SCRIPTHASH,solutions) := by
  intro form
  rcases Solver_reads form plain with ⟨other,_⟩ | ⟨other,_⟩ | ⟨other,_⟩ <;> contradiction

omit lawful in
theorem Signable_plain {fromPubKey : CScript} (plain : IsPayToScriptHash fromPubKey = false) :
    keystore.Signable env fromPubKey ↔ keystore.Solvable env fromPubKey :=
  ⟨fun signable => signable.resolve_right fun ⟨_,_,form,_⟩ => plain_form plain form,.inl⟩

/-- A script that has to be solved by itself, and not by another inside. -/
theorem Solver_alone {code : CScript} (clear : keystore.Clear env nHashType code) (narrow : nHashType.toBitVec.toNat < 256) (txTo : CTransaction)
    (nIn : Nat) : ∃ solved scriptSig whichType,
      keystore.Solver env code (SignatureHash env.hash code txTo nIn nHashType) nHashType = .ok (solved,scriptSig,whichType) ∧
      ((solved && whichType != TX_SCRIPTHASH) = true ↔ keystore.Solvable env code) ∧
      (solved = true → whichType = TX_SCRIPTHASH → IsPayToScriptHash code = true) ∧
      ((solved && whichType != TX_SCRIPTHASH) = true → ∃ values, scriptSig = PushAll values ∧ values.length ≤ 17 ∧
        (∀ value ∈ values, value.length ≤ 73) ∧ ∃ left, EvalScript (env.script txTo nIn) values code = .ok left ∧ leavesTrue left = true) := by
  obtain ⟨found,whichType,vSolutions,form⟩ : ∃ found whichType vSolutions, Tetra.Solver code [] = (found,whichType,vSolutions) := ⟨_,_,_,rfl⟩
  by_cases pays : IsPayToScriptHash code = true
  · have unsolvable : ¬keystore.Solvable env code := not_solvable (script_form pays) (.inr rfl)
    rw [Solver_script pays]
    cases keystore.GetCScript (toUint160 ((code.drop 2).take 20)) with
    | none => exact ⟨false,[],TX_SCRIPTHASH,rfl,iff_of_false (by simp) unsolvable,fun _ _ => pays,by simp⟩
    | some subscript => exact ⟨true,subscript,TX_SCRIPTHASH,rfl,iff_of_false (by simp) unsolvable,fun _ _ => pays,by simp⟩
  · cases found with
    | false => exact ⟨false,[],whichType,Solver_unsolved form _,iff_of_false nofun (not_solvable form (.inl rfl)),nofun,nofun⟩
    | true =>
      have plain := Bool.eq_false_iff.mpr pays
      obtain ⟨signed,values,made,enough,few,small,spends⟩ := Solver_signs lawful clear form plain narrow txTo nIn
      have other : whichType ≠ TX_SCRIPTHASH := by
        rcases Solver_reads form plain with ⟨rfl,_⟩ | ⟨rfl,_⟩ | ⟨rfl,_⟩ <;> nofun
      have both : (signed && whichType != TX_SCRIPTHASH) = signed := by simpa using fun _ => other
      refine ⟨signed,_,whichType,made,?_,fun _ same => absurd same other,?_⟩
      · rw [both,enough]
        constructor
        · exact fun enough => ⟨_,_,form,enough⟩
        · rintro ⟨whichType',vSolutions',form',enough⟩
          rw [form] at form'
          obtain ⟨rfl,rfl⟩ := Prod.mk.inj (Prod.mk.inj form').2
          exact enough
      · rw [both]
        exact fun signed => ⟨values,rfl,few,small,spends signed⟩

omit lawful in
theorem SignSignature_eq {fromPubKey scriptSig : CScript} {txTo : CTransaction} {nIn : Nat} {solved : Bool} {whichType : txnouttype}
    (inside : nIn < txTo.vin.length)
    (made : keystore.Solver env fromPubKey (SignatureHash env.hash fromPubKey txTo nIn nHashType) nHashType = .ok (solved,scriptSig,whichType)) :
    keystore.SignSignature env fromPubKey txTo nIn nHashType =
      if solved = false then .ok (false,txTo.withSig nIn scriptSig)
      else if whichType = TX_SCRIPTHASH then keystore.signSubscript env fromPubKey scriptSig txTo nIn nHashType
      else testSolution env fromPubKey txTo nIn scriptSig := by
  rw [SignSignature,if_neg (Nat.not_le.mpr inside)]
  simp only [made]
  rfl

omit lawful in
theorem signSubscript_eq {fromPubKey subscript scriptSig : CScript} {txTo : CTransaction} {nIn : Nat} {solved : Bool} {subType : txnouttype}
    (made : keystore.Solver env subscript (SignatureHash env.hash subscript txTo nIn nHashType) nHashType = .ok (solved,scriptSig,subType)) :
    keystore.signSubscript env fromPubKey subscript txTo nIn nHashType =
      if (solved && subType != TX_SCRIPTHASH) = false then .ok (false,txTo.withSig nIn (scriptSig ++ pushValue subscript))
      else testSolution env fromPubKey txTo nIn (scriptSig ++ pushValue subscript) := by
  rw [signSubscript]
  simp only [made]
  rfl

omit lawful in
theorem testSolution_eq (fromPubKey : CScript) (txTo : CTransaction) (nIn : Nat) (scriptSig : CScript) :
    testSolution env fromPubKey txTo nIn scriptSig =
      tested (VerifyScript (env.script txTo nIn) true scriptSig fromPubKey) >>= fun passed => .ok (passed,txTo.withSig nIn scriptSig) := by
  rw [testSolution,script_withSig]
  rfl

omit lawful in
/-- The values that solve a script are a stack of their own. -/
theorem pushed_alone {values : List valtype} (few : values.length ≤ 17) (small : ∀ value ∈ values, value.length ≤ 73) (script : ScriptEnv) :
    EvalScript script [] (PushAll values) = .ok values := by
  have long := PushAll_length small
  exact EvalScript_PushAll (fun value member => (small value member).trans (by decide)) (by omega) (by omega)

/-- Signing comes to an end without a failed assertion, changes no more than the script of the
    input, and succeeds exactly where the store has what the output asks for. -/
theorem SignSignature_iff {fromPubKey : CScript} (clear : keystore.Clear env nHashType fromPubKey)
    (clear' : ∀ scriptID subscript, keystore.GetCScript scriptID = some subscript → keystore.Clear env nHashType subscript)
    (narrow : nHashType.toBitVec.toNat < 256) {txTo : CTransaction} {nIn : Nat} (inside : nIn < txTo.vin.length) :
    ∃ signed scriptSig, keystore.SignSignature env fromPubKey txTo nIn nHashType = .ok (signed,txTo.withSig nIn scriptSig) ∧
      (signed = true ↔ keystore.Signable env fromPubKey) ∧
      (signed = true → VerifyScript (env.script txTo nIn) true scriptSig fromPubKey = .ok ()) := by
  by_cases pays : IsPayToScriptHash fromPubKey = true
  · have form := script_form pays
    have made := @Solver_script env keystore nHashType fromPubKey pays (SignatureHash env.hash fromPubKey txTo nIn nHashType)
    cases found : keystore.GetCScript (toUint160 ((fromPubKey.drop 2).take 20)) with
    | none =>
      rw [found] at made
      rw [Signable_pays pays,found,SignSignature_eq inside made]
      exact ⟨false,[],rfl,by simp,nofun⟩
    | some subscript =>
      rw [found] at made
      obtain ⟨solved,scriptSig,subType,solver,solvable,_,spends⟩ := Solver_alone lawful (clear' _ _ found) narrow txTo nIn
      have known : (∃ subscript', some subscript = some subscript' ∧ subscript'.length ≤ MAX_SCRIPT_ELEMENT_SIZE ∧ keystore.Solvable env subscript') ↔
          subscript.length ≤ MAX_SCRIPT_ELEMENT_SIZE ∧ keystore.Solvable env subscript := by simp
      rw [Signable_pays pays,found,known,← solvable,SignSignature_eq inside made,if_neg Bool.true_eq_false.mp,if_pos rfl,signSubscript_eq solver]
      by_cases both : (solved && subType != TX_SCRIPTHASH) = true
      swap
      · rw [if_pos (Bool.eq_false_iff.mpr both)]
        exact ⟨false,_,rfl,iff_of_false nofun fun enough => both enough.2,nofun⟩
      obtain ⟨values,rfl,few,small,accepted⟩ := spends both
      have all : PushAll values ++ pushValue subscript = PushAll (values ++ [subscript]) := by rw [PushAll_append,PushAll_singleton]
      rw [if_neg (by rw [both]; decide),testSolution_eq,all]
      by_cases short : subscript.length ≤ MAX_SCRIPT_ELEMENT_SIZE
      · have each (value) (member : value ∈ values ++ [subscript]) : value.length ≤ MAX_SCRIPT_ELEMENT_SIZE := by
          rcases List.mem_append.mp member with member | member
          · exact (small value member).trans (by decide)
          · exact List.mem_singleton.mp member ▸ short
        have count : (values ++ [subscript]).length = values.length+1 := List.length_append
        have long := PushAll_length each
        rw [MAX_SCRIPT_ELEMENT_SIZE] at long
        have sized : ((fromPubKey.drop 2).take 20).length = 20 := by
          obtain ⟨hash,sized,rfl⟩ := paysToScript pays
          simp [sized]
        have passes : VerifyScript (env.script txTo nIn) true (PushAll (values ++ [subscript])) fromPubKey = .ok () := by
          refine (VerifyScript_standard form true _).mpr ⟨values ++ [subscript],EvalScript_PushAll each (by omega) (by omega),by omega,values,subscript,rfl,?_,
            fun _ => ⟨IsPushOnly_PushAll fun value member => (each value member).trans_lt (by decide),accepted⟩⟩
          show leBytes 20 (env.Hash160 subscript) = (fromPubKey.drop 2).take 20
          have bytes := leBytes_leNat ((fromPubKey.drop 2).take 20)
          rw [sized] at bytes
          rw [lawful.scripts _ _ found,toUint160,if_pos sized,bytes]
        rw [passes]
        exact ⟨true,_,rfl,iff_of_true rfl ⟨short,both⟩,fun _ => passes⟩
      · have stops : VerifyScript (env.script txTo nIn) true (PushAll (values ++ [subscript])) fromPubKey = .error .refused := by
          rw [VerifyScript,EvalScript_PushAll_long ⟨subscript,List.mem_append_right _ (List.mem_singleton_self _),short⟩]
          rfl
        rw [stops]
        exact ⟨false,_,rfl,iff_of_false nofun fun enough => short enough.1,nofun⟩
  · have plain := Bool.eq_false_iff.mpr pays
    obtain ⟨solved,scriptSig,whichType,made,solvable,script,spends⟩ := Solver_alone lawful clear narrow txTo nIn
    rw [Signable_plain plain,← solvable,SignSignature_eq inside made]
    by_cases done : solved = true
    swap
    · rw [if_pos (Bool.eq_false_iff.mpr done)]
      exact ⟨false,_,rfl,by simp [Bool.eq_false_iff.mpr done],nofun⟩
    have other : whichType ≠ TX_SCRIPTHASH := fun same => pays (script done same)
    have both : (solved && whichType != TX_SCRIPTHASH) = true := by simp [done,other]
    obtain ⟨values,rfl,few,small,left,evaluated,truth⟩ := spends both
    have passes : VerifyScript (env.script txTo nIn) true (PushAll values) fromPubKey = .ok () := by
      refine VerifyScript_ok.mpr ⟨values,pushed_alone few small _,left,evaluated,truth,fun inner => ?_⟩
      rw [plain] at inner
      contradiction
    rw [if_neg (by rw [done]; decide),if_neg other,testSolution_eq,passes]
    exact ⟨true,_,rfl,iff_of_true rfl both,fun _ => passes⟩

end

end CKeyStore
/-! ### A store of one key -/

private def loneKeyBytes : KeyBuffer := ⟨2 :: List.replicate 64 7,rfl⟩
private def lonePubKeyID : CKeyID := leNat (loneKeyBytes.bytes.take 3)
private def loneSignature : valtype := [0x30,6,2,1,1,2,1,1]
private def loneKeyEnv : SigningEnv where
  hash _ := 5
  Verify _ vchSig vchPubKey := vchSig == loneSignature && vchPubKey == loneKeyBytes.bytes
  GetRandHash _ := 0
  Hash160 bytes := leNat (bytes.take 3)
  Sign _ _ := some loneSignature
  RIPEMD160 := id
  SHA1 := id
  SHA256 := id
  Hash := id
private theorem loneSecret : false = true → ([] : List UInt8).length = 32 ∧ CKey.Check [] = true := fun valid => absurd valid Bool.false_ne_true
private def loneKey : CKeyStore where
  HaveKey address := address == lonePubKeyID
  GetKey address := if address = lonePubKeyID then some ⟨false,false,[],loneSecret⟩ else none
  GetPubKey address := if address = lonePubKeyID then some loneKeyBytes else none
  HaveCScript _ := false
  GetCScript _ := none
private def loneSpend : CTransaction := ⟨1,[⟨⟨3,0⟩,[],0⟩],[],0,[]⟩

private theorem loneKey_lawful : loneKey.Lawful loneKeyEnv 1 where
  held address := by
    rw [loneKey]
    by_cases mine : address = lonePubKeyID
    · simp [mine]
    · simp [mine]
  signs address key found := by
    have mine : address = lonePubKeyID := by
      by_contra other
      simp [loneKey,other] at found
    subst mine
    exact ⟨loneKeyBytes,by simp [loneKey],rfl,by decide,fun _ => ⟨loneSignature,rfl,by simp [loneKeyEnv],by decide⟩⟩
  scripts := nofun

private theorem loneKey_clear : loneKey.Clear loneKeyEnv 1 (SetDestination (.CKeyID lonePubKeyID)) where
  unmixed _ _ _ vchSig _ made := by
    obtain rfl := Option.some.inj made
    decide +kernel
  apart whichType vSolutions solved vch listed vchPubKey found := by
    rw [SetDestination_solved] at solved
    obtain ⟨-,rest⟩ := Prod.mk.inj solved
    obtain ⟨-,rfl⟩ := Prod.mk.inj rest
    obtain rfl := List.mem_singleton.mp listed
    have missing : loneKey.GetPubKey (loneKeyEnv.keyID (leBytes 20 lonePubKeyID)) = none := by decide +kernel
    rw [missing] at found
    contradiction

theorem CKeyStore.SignSignature_iff_one :
    ∃ signed scriptSig, loneKey.SignSignature loneKeyEnv (SetDestination (.CKeyID lonePubKeyID)) loneSpend 0 1 = .ok (signed,loneSpend.withSig 0 scriptSig) ∧
      (signed = true ↔ loneKey.Signable loneKeyEnv (SetDestination (.CKeyID lonePubKeyID))) ∧
      (signed = true → VerifyScript (loneKeyEnv.script loneSpend 0) true scriptSig (SetDestination (.CKeyID lonePubKeyID)) = .ok ()) :=
  SignSignature_iff loneKey_lawful loneKey_clear nofun (by decide) (by decide)

end Tetra
