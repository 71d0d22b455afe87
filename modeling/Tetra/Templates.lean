import Tetra.Accounts
import Tetra.KeyBytes
import Tetra.ScriptMachine
import Tetra.Wrap

/-!
The standard forms of an output's script: which form a script has, and the scripts that
are built for destinations and for keys of which some have to sign.
-/
namespace Tetra
open Codec Wrap

namespace CScript

def OP_0 : Nat := 0
def OP_SMALLINTEGER : Nat := 0xfa
def OP_PUBKEYS : Nat := 0xfb
def OP_PUBKEYHASH : Nat := 0xfd
def OP_PUBKEY : Nat := 0xfe

/-- `CScript() << opcode << ...` -/
def ofOpcodes (opcodes : List Nat) : CScript := opcodes.map UInt8.ofNat

def DecodeOP_N (opcode : Nat) : Exec Nat :=
  if opcode = OP_0 then .ok 0
  else if OP_1 ≤ opcode ∧ opcode ≤ OP_16 then .ok (opcode-(OP_1-1))
  else .error (.asserts "opcode >= OP_1 && opcode <= OP_16")

def EncodeOP_N (n : Int) : Exec Nat :=
  if 0 ≤ n ∧ n ≤ 16 then .ok (if n = 0 then OP_0 else OP_1+n.toNat-1) else .error (.asserts "n >= 0 && n <= 16")

end CScript

open CScript

inductive txnouttype
  | TX_NONSTANDARD
  | TX_PUBKEY
  | TX_PUBKEYHASH
  | TX_SCRIPTHASH
  | TX_MULTISIG
deriving DecidableEq

open txnouttype

def mTemplates : List (txnouttype × CScript) := [
  (TX_PUBKEY,ofOpcodes [OP_PUBKEY,OP_CHECKSIG]),
  (TX_PUBKEYHASH,ofOpcodes [OP_DUP,OP_HASH160,OP_PUBKEYHASH,OP_EQUALVERIFY,OP_CHECKSIG]),
  (TX_MULTISIG,ofOpcodes [OP_SMALLINTEGER,OP_PUBKEYS,OP_SMALLINTEGER,OP_CHECKMULTISIG])]

namespace Solver

/-- An operation with its data, and what is left of the script behind it. -/
abbrev Op := Nat × valtype × CScript

def keySized (vch : valtype) : Bool := 33 ≤ vch.length && vch.length ≤ 120

/-- The loop over the keys. Where the script ends early the operation is none that any
    template has. -/
def takeKeys : Nat → Op → List valtype → Op × List valtype
  | 0, op1, vSolutions => (op1,vSolutions)
  | fuel+1, op1, vSolutions =>
    if keySized op1.2.1 then
      match GetOp op1.2.2 with
      | none => ((OP_INVALIDOPCODE,[],op1.2.2),vSolutions ++ [op1.2.1])
      | some next => takeKeys fuel next (vSolutions ++ [op1.2.1])
    else (op1,vSolutions)

/-- The solutions after an operation that fits that of the template. -/
def matchOp (op1 op2 : Op) (vSolutions : List valtype) : Option (List valtype) :=
  if op2.1 = OP_PUBKEY then if keySized op1.2.1 then some (vSolutions ++ [op1.2.1]) else none
  else if op2.1 = OP_PUBKEYHASH then if op1.2.1.length = 20 then some (vSolutions ++ [op1.2.1]) else none
  else if op2.1 = OP_SMALLINTEGER then
    if op1.1 = OP_0 ∨ OP_1 ≤ op1.1 ∧ op1.1 ≤ OP_16 then (DecodeOP_N op1.1).toOption.map fun n => vSolutions ++ [[UInt8.ofNat n]] else none
  else if op1.1 ≠ op2.1 ∨ op1.2.1 ≠ op2.2.1 then none else some vSolutions

/-- The comparison with one template; every turn takes an operation of it. -/
def compare : Nat → CScript → CScript → List valtype → Option (List valtype)
  | 0, _, _, _ => none
  | fuel+1, pc1, pc2, vSolutions =>
    if pc1.isEmpty && pc2.isEmpty then some vSolutions
    else do
      let op1 ← GetOp pc1
      let op2 ← GetOp pc2
      if op2.1 = OP_PUBKEYS then
        let (op1,vSolutions) := takeKeys (pc1.length+1) op1 vSolutions
        let op2 ← GetOp op2.2.2
        let vSolutions ← matchOp op1 op2 vSolutions
        compare fuel op1.2.2 op2.2.2 vSolutions
      else
        let vSolutions ← matchOp op1 op2 vSolutions
        compare fuel op1.2.2 op2.2.2 vSolutions

/-- The additional checks for `TX_MULTISIG`. -/
def counted (vSolutions : List valtype) : Bool :=
  let m := ((vSolutions.headD []).headD 0).toNat
  let n := ((vSolutions.getLastD []).headD 0).toNat
  !(m < 1 || n < 1 || m > n || vSolutions.length-2 != n)

/-- The loop over the templates: the value returned, `typeRet` and `vSolutionsRet`. -/
def scan (script1 : CScript) : List (txnouttype × CScript) → Bool × txnouttype × List valtype
  | [] => (false,TX_NONSTANDARD,[])
  | (type,script2) :: rest =>
    match compare (script2.length+1) script1 script2 [] with
    | none => scan script1 rest
    | some vSolutions => (type != TX_MULTISIG || counted vSolutions,type,vSolutions)

end Solver

/-- The shortcut for scripts that pay to the hash of a script adds to what the vector held. -/
def Solver (scriptPubKey : CScript) (vSolutionsRet : List valtype) : Bool × txnouttype × List valtype :=
  if IsPayToScriptHash scriptPubKey then (true,TX_SCRIPTHASH,vSolutionsRet ++ [(scriptPubKey.drop 2).take 20])
  else Solver.scan scriptPubKey mTemplates

/-- `uint160(vch)`: 0 for another number of bytes. -/
def toUint160 (vch : valtype) : Nat := if vch.length = 20 then leNat vch else 0

/-- The bytes of `CPubKey(vch)`. -/
def pubKeyBytes (vch : valtype) : List UInt8 :=
  let len := if vch.isEmpty then 0 else Deer.GetLen (vch.headD 0)
  if len ≠ 0 ∧ len = vch.length then vch else []

/-- `Hash160` is that of the bytes of a key. -/
def ExtractDestination (Hash160 : List UInt8 → Nat) (scriptPubKey : CScript) (addressRet : CTxDestination) : Bool × CTxDestination :=
  let (solved,whichType,vSolutions) := Solver scriptPubKey []
  if !solved then (false,addressRet)
  else
    match whichType with
    | TX_PUBKEY => (true,.CKeyID (Hash160 (pubKeyBytes (vSolutions.headD []))))
    | TX_PUBKEYHASH => (true,.CKeyID (toUint160 (vSolutions.headD [])))
    | TX_SCRIPTHASH => (true,.CScriptID (toUint160 (vSolutions.headD [])))
    | _ => (false,addressRet)

/-- `CScriptVisitor`; the script is cleared first. -/
def SetDestination : CTxDestination → CScript
  | .CNoDestination => []
  | .CKeyID keyID => ofOpcodes [OP_DUP,OP_HASH160] ++ (20 :: leBytes 20 keyID) ++ ofOpcodes [OP_EQUALVERIFY,OP_CHECKSIG]
  | .CScriptID scriptID => ofOpcodes [OP_HASH160] ++ (20 :: leBytes 20 scriptID) ++ ofOpcodes [OP_EQUAL]

/-- `operator<<(const CPubKey& key)` -/
def pushKey (script : CScript) (key : KeyBuffer) : Exec CScript :=
  if key.size < OP_PUSHDATA1 then .ok (script ++ UInt8.ofNat key.size :: key.bytes) else .error (.asserts "key.size() < OP_PUSHDATA1")

/-- `keys.size()` goes into an `int`. -/
def SetMultisig (nRequired : Int) (keys : List KeyBuffer) : Exec CScript := do
  let m ← EncodeOP_N nRequired
  let script ← keys.foldlM pushKey [UInt8.ofNat m]
  let n ← EncodeOP_N (sizeAsInt keys.length)
  return script ++ ofOpcodes [n,OP_CHECKMULTISIG]

/-- What `_createmultisig` asks for, of strings, addresses and keys. -/
structure KeyLookup where
  hasWallet : Bool
  /-- `CBitcoinAddress(ks).Get()` where that is valid -/
  address : String → Option CTxDestination
  /-- `pwalletMain->GetPubKey` -/
  GetPubKey : Nat → Option KeyBuffer
  IsHex : String → Bool
  ParseHex : String → List UInt8
  /-- `CECKey::SetPubKey` -/
  SetPubKey : KeyBuffer → Bool

namespace KeyLookup

def IsFullyValid (lookup : KeyLookup) (key : KeyBuffer) : Bool := decide (key.size > 0) && lookup.SetPubKey key

/-- One of the strings. `memory` is what a new key object holds. -/
def gatherKey (lookup : KeyLookup) (memory : KeyBuffer) (ks : String) : Exec KeyBuffer :=
  match if lookup.hasWallet then lookup.address ks else none with
  | some address =>
    match address with
    | .CKeyID keyID =>
      match lookup.GetPubKey keyID with
      | none => .error (.throws ("no full public key for address " ++ ks))
      | some vchPubKey => if !lookup.IsFullyValid vchPubKey then .error (.throws (" Invalid public key: " ++ ks)) else .ok vchPubKey
    | _ => .error (.throws (ks ++ " does not refer to a key"))
  | none =>
    if lookup.IsHex ks then
      let vchPubKey := memory.Set (lookup.ParseHex ks)
      if !lookup.IsFullyValid vchPubKey then .error (.throws (" Invalid public key: " ++ ks)) else .ok vchPubKey
    else .error (.throws (" Invalid public key: " ++ ks))

/-- The public keys of `_createmultisig`, which passes them to `SetMultisig`. -/
def gatherKeys (lookup : KeyLookup) (memory : KeyBuffer) (nRequired : Int) (keys : List String) : Exec (List KeyBuffer) :=
  if nRequired < 1 then .error (.throws "a multisignature address must require at least one key to redeem")
  else if sizeAsInt keys.length < nRequired then
    .error (.throws ("not enough keys supplied (got " ++ toString keys.length ++ " keys, but need at least " ++ toString nRequired ++ " to redeem)"))
  else keys.mapM (lookup.gatherKey memory)

def createmultisig (lookup : KeyLookup) (memory : KeyBuffer) (nRequired : Int) (keys : List String) : Exec CScript := do
  let pubkeys ← lookup.gatherKeys memory nRequired keys
  SetMultisig nRequired pubkeys

end KeyLookup

/-! ### Operations of a script -/

theorem CScript.GetOp_direct {b : valtype} (small : b.length < OP_PUSHDATA1) (rest : CScript) :
    GetOp (UInt8.ofNat b.length :: (b ++ rest)) = some (b.length,b,rest) := by
  have fits : b.length < 256 := small.trans (by decide)
  have low : b.length ≤ OP_PUSHDATA4 := small.le.trans (by decide)
  rw [GetOp]
  simp only [UInt8.toNat_ofNat',Nat.mod_eq_of_lt fits]
  rw [if_pos low,if_pos small]
  simp

theorem CScript.GetOp_plain {opcode : Nat} (above : OP_PUSHDATA4 < opcode) (fits : opcode < 256) (rest : CScript) :
    GetOp (UInt8.ofNat opcode :: rest) = some (opcode,[],rest) := by
  rw [GetOp]
  simp only [UInt8.toNat_ofNat',Nat.mod_eq_of_lt fits]
  rw [if_neg (by omega)]

namespace Solver

section
variable {fuel : Nat} {pc1 pc2 : CScript} {vSolutions : List valtype} {op1 op2 : Op} (first : GetOp pc1 = some op1) (second : GetOp pc2 = some op2)
include first second

theorem compare_step (plain : op2.1 ≠ OP_PUBKEYS) :
    compare (fuel+1) pc1 pc2 vSolutions = (matchOp op1 op2 vSolutions).bind fun vSolutions => compare fuel op1.2.2 op2.2.2 vSolutions := by
  have more : (pc1.isEmpty && pc2.isEmpty) = false := by
    cases pc1 with
    | nil => contradiction
    | cons byte rest => rfl
  rw [compare,more,first,second]
  simp only [Bool.false_eq_true,if_false,Option.bind_eq_bind,Option.bind_some,if_neg plain]

theorem compare_keys {last op2' : Op} {found : List valtype} (keys : op2.1 = OP_PUBKEYS) (taken : takeKeys (pc1.length+1) op1 vSolutions = (last,found))
    (after : GetOp op2.2.2 = some op2') :
    compare (fuel+1) pc1 pc2 vSolutions = (matchOp last op2' found).bind fun vSolutions => compare fuel last.2.2 op2'.2.2 vSolutions := by
  have more : (pc1.isEmpty && pc2.isEmpty) = false := by
    cases pc1 with
    | nil => contradiction
    | cons byte rest => rfl
  rw [compare,more,first,second]
  simp only [Bool.false_eq_true,if_false,Option.bind_eq_bind,Option.bind_some,if_pos keys,taken,after]

end

theorem compare_end (fuel : Nat) (vSolutions : List valtype) : compare (fuel+1) [] [] vSolutions = some vSolutions := rfl

/-- The same operation without data in both scripts. -/
theorem matchOp_same {opcode : Nat} (low : opcode < OP_SMALLINTEGER) (rest1 rest2 : CScript) (vSolutions : List valtype) :
    matchOp (opcode,[],rest1) (opcode,[],rest2) vSolutions = some vSolutions := by
  have apart : opcode ≠ OP_PUBKEY ∧ opcode ≠ OP_PUBKEYHASH ∧ opcode ≠ OP_SMALLINTEGER := by
    simp only [OP_SMALLINTEGER,OP_PUBKEY,OP_PUBKEYHASH] at low ⊢
    omega
  simp [matchOp,apart]

/-- A script that begins with an operation without data is not that of a key. -/
theorem compare_pubkey {opcode : Nat} (above : OP_PUSHDATA4 < opcode) (fits : opcode < 256) (rest : CScript) :
    compare 3 (UInt8.ofNat opcode :: rest) (ofOpcodes [OP_PUBKEY,OP_CHECKSIG]) [] = none := by
  have wanted := @GetOp_plain OP_PUBKEY (by decide) (by decide) (ofOpcodes [OP_CHECKSIG])
  have template : ofOpcodes [OP_PUBKEY,OP_CHECKSIG] = UInt8.ofNat OP_PUBKEY :: ofOpcodes [OP_CHECKSIG] := rfl
  rw [template,compare_step (GetOp_plain above fits rest) wanted (by decide)]
  rfl

/-- A step over an operation without data that both scripts have. -/
theorem compare_same {opcode : Nat} (above : OP_PUSHDATA4 < opcode) (low : opcode < OP_SMALLINTEGER) (fuel : Nat) (rest1 rest2 : CScript)
    (vSolutions : List valtype) :
    compare (fuel+1) (UInt8.ofNat opcode :: rest1) (UInt8.ofNat opcode :: rest2) vSolutions = compare fuel rest1 rest2 vSolutions := by
  have fits : opcode < 256 := low.trans (by decide)
  have apart : opcode ≠ OP_PUBKEYS := fun same => absurd (same ▸ low) (by decide)
  rw [compare_step (GetOp_plain above fits rest1) (GetOp_plain above fits rest2) apart,matchOp_same low]
  rfl

theorem compare_pubkeyhash {hash : valtype} (sized : hash.length = 20) :
    compare 6 (ofOpcodes [OP_DUP,OP_HASH160] ++ (20 :: hash) ++ ofOpcodes [OP_EQUALVERIFY,OP_CHECKSIG])
      (ofOpcodes [OP_DUP,OP_HASH160,OP_PUBKEYHASH,OP_EQUALVERIFY,OP_CHECKSIG]) [] = some [hash] := by
  have pushed := @GetOp_direct hash (by rw [sized]; decide) (ofOpcodes [OP_EQUALVERIFY,OP_CHECKSIG])
  have wanted := @GetOp_plain OP_PUBKEYHASH (by decide) (by decide) (ofOpcodes [OP_EQUALVERIFY,OP_CHECKSIG])
  have solved (rest1 rest2 : CScript) : matchOp (hash.length,hash,rest1) (OP_PUBKEYHASH,[],rest2) [] = some [hash] := by
    simp [matchOp,sized,OP_PUBKEYHASH,OP_PUBKEY]
  have script : ofOpcodes [OP_DUP,OP_HASH160] ++ (20 :: hash) ++ ofOpcodes [OP_EQUALVERIFY,OP_CHECKSIG] =
      UInt8.ofNat OP_DUP :: UInt8.ofNat OP_HASH160 :: (UInt8.ofNat hash.length :: (hash ++ ofOpcodes [OP_EQUALVERIFY,OP_CHECKSIG])) := by
    rw [sized]
    rfl
  have template : ofOpcodes [OP_DUP,OP_HASH160,OP_PUBKEYHASH,OP_EQUALVERIFY,OP_CHECKSIG] =
      UInt8.ofNat OP_DUP :: UInt8.ofNat OP_HASH160 :: (UInt8.ofNat OP_PUBKEYHASH :: ofOpcodes [OP_EQUALVERIFY,OP_CHECKSIG]) := rfl
  rw [script,template,compare_same (by decide) (by decide),compare_same (by decide) (by decide),compare_step pushed wanted (by decide),solved]
  exact (compare_same (by decide) (by decide) ..).trans (compare_same (by decide) (by decide) ..)

end Solver

/-! ### Destinations -/

theorem SetDestination_solved (keyID : Nat) : Solver (SetDestination (.CKeyID keyID)) [] = (true,TX_PUBKEYHASH,[leBytes 20 keyID]) := by
  have long : IsPayToScriptHash (SetDestination (.CKeyID keyID)) = false := by
    simp [IsPayToScriptHash,SetDestination,ofOpcodes]
  have key : Solver.compare 3 (SetDestination (.CKeyID keyID)) (ofOpcodes [OP_PUBKEY,OP_CHECKSIG]) [] = none :=
    Solver.compare_pubkey (by decide) (by decide) _
  have hash : Solver.compare 6 (SetDestination (.CKeyID keyID)) (ofOpcodes [OP_DUP,OP_HASH160,OP_PUBKEYHASH,OP_EQUALVERIFY,OP_CHECKSIG]) [] =
      some [leBytes 20 keyID] := Solver.compare_pubkeyhash (leBytes_length 20 keyID)
  rw [Solver,long,if_neg Bool.false_ne_true,mTemplates,Solver.scan,show (ofOpcodes [OP_PUBKEY,OP_CHECKSIG]).length+1 = 3 from rfl,key,Solver.scan,
    show (ofOpcodes [OP_DUP,OP_HASH160,OP_PUBKEYHASH,OP_EQUALVERIFY,OP_CHECKSIG]).length+1 = 6 from rfl,hash]
  rfl

theorem SetDestination_script (scriptID : Nat) : Solver (SetDestination (.CScriptID scriptID)) [] = (true,TX_SCRIPTHASH,[leBytes 20 scriptID]) := by
  have script : SetDestination (.CScriptID scriptID) = UInt8.ofNat OP_HASH160 :: 20 :: (leBytes 20 scriptID ++ [UInt8.ofNat OP_EQUAL]) := rfl
  have pays : IsPayToScriptHash (SetDestination (.CScriptID scriptID)) = true := by
    have last : (leBytes 20 scriptID ++ [UInt8.ofNat OP_EQUAL]).getD 20 0 = UInt8.ofNat OP_EQUAL := by
      rw [List.getD_eq_getElem?_getD,List.getElem?_append_right (by rw [leBytes_length]),leBytes_length]
      rfl
    rw [script]
    simp only [IsPayToScriptHash,List.length_cons,List.length_append,leBytes_length,List.length_nil,List.getD_cons_succ,List.getD_cons_zero,last]
    decide
  rw [Solver,pays,if_pos rfl,script]
  simp

/-- The range of a `uint160`. -/
def CTxDestination.Fits (dest : CTxDestination) : Prop := dest.id < 2^160

theorem toUint160_leBytes {id : Nat} (fits : id < 2^160) : toUint160 (leBytes 20 id) = id := by
  rw [toUint160,if_pos (leBytes_length 20 id)]
  exact leNat_leBytes (fits.trans_eq (by norm_num))

/-- A destination comes back from its script; without one there is nothing to extract, and
    the address is left as it was. -/
theorem ExtractDestination_inverts (Hash160 : List UInt8 → Nat) {dest : CTxDestination} (fits : dest.Fits) :
    ExtractDestination Hash160 (SetDestination dest) .CNoDestination = (dest != .CNoDestination,dest) := by
  cases dest with
  | CNoDestination => rfl
  | CKeyID keyID =>
    rw [ExtractDestination,SetDestination_solved]
    exact congrArg (fun id => (true,CTxDestination.CKeyID id)) (toUint160_leBytes fits)
  | CScriptID scriptID =>
    rw [ExtractDestination,SetDestination_script]
    exact congrArg (fun id => (true,CTxDestination.CScriptID id)) (toUint160_leBytes fits)

/-! ### Keys of which some sign -/

/-- A key as it is appended. -/
def keyPush (key : KeyBuffer) : CScript := UInt8.ofNat key.size :: key.bytes

theorem pushKey_eq (script : CScript) (key : KeyBuffer) : pushKey script key = .ok (script ++ keyPush key) := by
  have small := key.size_le
  rw [pushKey,if_pos (by rw [OP_PUSHDATA1]; omega)]
  rfl

theorem pushKeys_eq (keys : List KeyBuffer) (script : CScript) : keys.foldlM pushKey script = .ok (script ++ keys.flatMap keyPush) := by
  induction keys generalizing script with
  | nil => simp [pure,Except.pure]
  | cons key keys ih =>
    rw [List.foldlM_cons,pushKey_eq,List.flatMap_cons,← List.append_assoc]
    exact ih _

/-- The operation that stands for a count of keys. -/
def smallOp (n : Nat) : Nat := OP_1+n-1

theorem EncodeOP_N_eq {n : Nat} (low : 1 ≤ n) (high : n ≤ 16) : EncodeOP_N n = .ok (smallOp n) := by
  rw [EncodeOP_N,if_pos (by omega),if_neg (by omega)]
  rfl

theorem SetMultisig_eq {m : Nat} {keys : List KeyBuffer} (required : 1 ≤ m) (enough : m ≤ keys.length) (few : keys.length ≤ 16) :
    SetMultisig m keys = .ok (UInt8.ofNat (smallOp m) :: (keys.flatMap keyPush ++ ofOpcodes [smallOp keys.length,OP_CHECKMULTISIG])) := by
  have count : sizeAsInt keys.length = keys.length := sizeAsInt_eq (by omega)
  rw [SetMultisig,EncodeOP_N_eq required (enough.trans few),count,EncodeOP_N_eq (required.trans enough) few]
  simp only [bind,Except.bind,pushKeys_eq]
  rfl

namespace Solver

/-- From a row of keys on, the loop takes the keys and leaves what follows them. -/
theorem takeKeys_eq {keys : List KeyBuffer} (valid : ∀ key ∈ keys, key.size ≠ 0) {tail : CScript} {last : Op} (after : GetOp tail = some last)
    (other : keySized last.2.1 = false) :
    ∃ op1, GetOp (keys.flatMap keyPush ++ tail) = some op1 ∧
      ∀ fuel vSolutions, keys.length < fuel → takeKeys fuel op1 vSolutions = (last,vSolutions ++ keys.map KeyBuffer.bytes) := by
  induction keys with
  | nil =>
    refine ⟨last,after,fun fuel vSolutions enough => ?_⟩
    obtain ⟨fuel,rfl⟩ : ∃ less, fuel = less+1 := ⟨fuel-1,by rw [List.length_nil] at enough; omega⟩
    rw [takeKeys,other]
    simp
  | cons key keys ih =>
    obtain ⟨next,found,takes⟩ := ih fun other member => valid other (List.mem_cons_of_mem _ member)
    have small := key.size_le
    have sized := valid key (List.mem_cons_self ..)
    have long := key.bytes_length
    have direct := @GetOp_direct key.bytes (by rw [long,OP_PUSHDATA1]; omega) (keys.flatMap keyPush ++ tail)
    have isKey : keySized key.bytes = true := by
      have lengths := KeyBuffer.GetLen_cases key.chHeader
      rw [KeyBuffer.size] at sized long
      simp only [keySized,long,Bool.and_eq_true,decide_eq_true_eq]
      omega
    refine ⟨(key.bytes.length,key.bytes,keys.flatMap keyPush ++ tail),?_,fun fuel vSolutions enough => ?_⟩
    · rw [List.flatMap_cons,List.append_assoc,keyPush,← long]
      exact direct
    · obtain ⟨fuel,rfl⟩ : ∃ less, fuel = less+1 := ⟨fuel-1,by omega⟩
      rw [List.length_cons] at enough
      rw [takeKeys]
      simp only [isKey,if_true,found]
      rw [takes fuel _ (by omega),List.map_cons,List.append_assoc]
      rfl

theorem matchOp_small {n : Nat} (low : 1 ≤ n) (high : n ≤ 16) (rest1 rest2 : CScript) (vSolutions : List valtype) :
    matchOp (smallOp n,[],rest1) (OP_SMALLINTEGER,[],rest2) vSolutions = some (vSolutions ++ [[UInt8.ofNat n]]) := by
  have range : OP_1 ≤ smallOp n ∧ smallOp n ≤ OP_16 := by
    simp only [smallOp,OP_1,OP_16]
    omega
  have apart : smallOp n ≠ OP_0 := by
    simp only [smallOp,OP_1,OP_0]
    omega
  have back : smallOp n-(OP_1-1) = n := by
    simp only [smallOp,OP_1]
    omega
  have special : OP_SMALLINTEGER ≠ OP_PUBKEY ∧ OP_SMALLINTEGER ≠ OP_PUBKEYHASH := by decide
  rw [matchOp]
  simp only [if_neg special.1,if_neg special.2,if_pos (Or.inr range : smallOp n = OP_0 ∨ OP_1 ≤ smallOp n ∧ smallOp n ≤ OP_16),if_true,
    DecodeOP_N,if_neg apart,if_pos range,back]
  rfl

theorem smallOp_plain {n : Nat} (low : 1 ≤ n) (high : n ≤ 16) : OP_PUSHDATA4 < smallOp n ∧ smallOp n < 256 := by
  simp only [smallOp,OP_1,OP_PUSHDATA4]
  omega

theorem compare_multisig {m : Nat} {keys : List KeyBuffer} (required : 1 ≤ m) (enough : m ≤ keys.length) (few : keys.length ≤ 16)
    (valid : ∀ key ∈ keys, key.size ≠ 0) :
    compare 5 (UInt8.ofNat (smallOp m) :: (keys.flatMap keyPush ++ ofOpcodes [smallOp keys.length,OP_CHECKMULTISIG]))
      (ofOpcodes [OP_SMALLINTEGER,OP_PUBKEYS,OP_SMALLINTEGER,OP_CHECKMULTISIG]) [] =
      some ([UInt8.ofNat m] :: (keys.map KeyBuffer.bytes ++ [[UInt8.ofNat keys.length]])) := by
  have mPlain := smallOp_plain required (enough.trans few)
  have nPlain := smallOp_plain (required.trans enough) few
  have mOp := GetOp_plain mPlain.1 mPlain.2 (keys.flatMap keyPush ++ ofOpcodes [smallOp keys.length,OP_CHECKMULTISIG])
  have nOp := GetOp_plain nPlain.1 nPlain.2 (ofOpcodes [OP_CHECKMULTISIG])
  have small := @GetOp_plain OP_SMALLINTEGER (by decide) (by decide)
  have several := @GetOp_plain OP_PUBKEYS (by decide) (by decide) (ofOpcodes [OP_SMALLINTEGER,OP_CHECKMULTISIG])
  obtain ⟨op1,found,takes⟩ := @takeKeys_eq keys valid (ofOpcodes [smallOp keys.length,OP_CHECKMULTISIG]) _ nOp rfl
  have room : keys.length < (keys.flatMap keyPush ++ ofOpcodes [smallOp keys.length,OP_CHECKMULTISIG]).length+1 := by
    have each : keys.length ≤ (keys.flatMap keyPush).length := by
      clear * -
      induction keys with
      | nil => exact le_rfl
      | cons key keys ih =>
        rw [List.flatMap_cons,List.length_append,List.length_cons,keyPush,List.length_cons]
        omega
    rw [List.length_append]
    omega
  have template : ofOpcodes [OP_SMALLINTEGER,OP_PUBKEYS,OP_SMALLINTEGER,OP_CHECKMULTISIG] =
      UInt8.ofNat OP_SMALLINTEGER :: UInt8.ofNat OP_PUBKEYS :: ofOpcodes [OP_SMALLINTEGER,OP_CHECKMULTISIG] := rfl
  rw [template,compare_step mOp (small _) (by decide),matchOp_small required (enough.trans few),Option.bind_some,
    compare_keys found several rfl (takes _ _ room) (small (ofOpcodes [OP_CHECKMULTISIG])),matchOp_small (required.trans enough) few,Option.bind_some]
  exact compare_same (by decide) (by decide) 1 [] [] _

end Solver

/-- A row of keys is recognised with its two numbers. -/
theorem SetMultisig_solved {m : Nat} {keys : List KeyBuffer} (required : 1 ≤ m) (enough : m ≤ keys.length) (few : keys.length ≤ 16)
    (valid : ∀ key ∈ keys, key.size ≠ 0) :
    Solver (UInt8.ofNat (smallOp m) :: (keys.flatMap keyPush ++ ofOpcodes [smallOp keys.length,OP_CHECKMULTISIG])) [] =
      (true,TX_MULTISIG,[UInt8.ofNat m] :: (keys.map KeyBuffer.bytes ++ [[UInt8.ofNat keys.length]])) := by
  have plain := Solver.smallOp_plain required (enough.trans few)
  have small : smallOp m ≤ OP_16 := by
    simp only [smallOp,OP_1,OP_16]
    omega
  generalize keysScript : keys.flatMap keyPush ++ ofOpcodes [smallOp keys.length,OP_CHECKMULTISIG] = rest
  have multisig := Solver.compare_multisig required enough few valid
  rw [keysScript] at multisig
  have other : IsPayToScriptHash (UInt8.ofNat (smallOp m) :: rest) = false := by
    have first : ((UInt8.ofNat (smallOp m) :: rest : CScript).getD 0 0).toNat ≠ OP_HASH160 := by
      rw [List.getD_cons_zero,UInt8.toNat_ofNat',Nat.mod_eq_of_lt plain.2]
      exact fun same => absurd (same ▸ small) (by decide)
    simp only [IsPayToScriptHash,beq_eq_false_iff_ne.mpr first,Bool.and_false,Bool.false_and]
  have key : Solver.compare 3 (UInt8.ofNat (smallOp m) :: rest) (ofOpcodes [OP_PUBKEY,OP_CHECKSIG]) [] = none :=
    Solver.compare_pubkey plain.1 plain.2 rest
  have hash : Solver.compare 6 (UInt8.ofNat (smallOp m) :: rest) (ofOpcodes [OP_DUP,OP_HASH160,OP_PUBKEYHASH,OP_EQUALVERIFY,OP_CHECKSIG]) [] = none := by
    have dup := @GetOp_plain OP_DUP (by decide) (by decide) (ofOpcodes [OP_HASH160,OP_PUBKEYHASH,OP_EQUALVERIFY,OP_CHECKSIG])
    have apart : smallOp m ≠ OP_DUP := fun same => absurd (same ▸ small) (by decide)
    have template : ofOpcodes [OP_DUP,OP_HASH160,OP_PUBKEYHASH,OP_EQUALVERIFY,OP_CHECKSIG] =
      UInt8.ofNat OP_DUP :: ofOpcodes [OP_HASH160,OP_PUBKEYHASH,OP_EQUALVERIFY,OP_CHECKSIG] := rfl
    rw [template,Solver.compare_step (GetOp_plain plain.1 plain.2 rest) dup (by decide)]
    have special : OP_DUP ≠ OP_PUBKEY ∧ OP_DUP ≠ OP_PUBKEYHASH ∧ OP_DUP ≠ OP_SMALLINTEGER := by decide
    simp [Solver.matchOp,apart,special]
  have counts : Solver.counted ([UInt8.ofNat m] :: (keys.map KeyBuffer.bytes ++ [[UInt8.ofNat keys.length]])) = true := by
    have mFits : m%256 = m := Nat.mod_eq_of_lt (by omega)
    have nFits : keys.length%256 = keys.length := Nat.mod_eq_of_lt (by omega)
    have last : (([UInt8.ofNat m] :: (keys.map KeyBuffer.bytes ++ [[UInt8.ofNat keys.length]])).getLastD []) = [UInt8.ofNat keys.length] := by
      rw [← List.cons_append,List.getLastD_concat]
    simp only [Solver.counted,last,List.headD_cons,UInt8.toNat_ofNat',Nat.reducePow,mFits,nFits,List.length_cons,List.length_append,List.length_map,
      List.length_nil,Bool.not_eq_true',Bool.or_eq_false_iff,decide_eq_false_iff_not,bne_eq_false_iff_eq]
    omega
  rw [Solver,other,if_neg Bool.false_ne_true,mTemplates,Solver.scan,show (ofOpcodes [OP_PUBKEY,OP_CHECKSIG]).length+1 = 3 from rfl,key,Solver.scan,
    show (ofOpcodes [OP_DUP,OP_HASH160,OP_PUBKEYHASH,OP_EQUALVERIFY,OP_CHECKSIG]).length+1 = 6 from rfl,hash,Solver.scan,
    show (ofOpcodes [OP_SMALLINTEGER,OP_PUBKEYS,OP_SMALLINTEGER,OP_CHECKMULTISIG]).length+1 = 5 from rfl,multisig]
  simp only [counts,Bool.or_true]

/-- The script that is built for keys is recognised as theirs. -/
def InvertsMultisig (nRequired : Int) (keys : List KeyBuffer) : Prop :=
  ∃ script, SetMultisig nRequired keys = .ok script ∧
    Solver script [] = (true,TX_MULTISIG,[UInt8.ofNat nRequired.toNat] :: (keys.map KeyBuffer.bytes ++ [[UInt8.ofNat keys.length]]))

/-- What is recognised as keys that sign has at most as many as a byte counts. -/
theorem Solver_counted {script : CScript} {vSolutions : List valtype} (solved : Solver script [] = (true,TX_MULTISIG,vSolutions)) :
    vSolutions.length-2 < 256 := by
  have scanned (templates : List (txnouttype × CScript)) (solved : Solver.scan script templates = (true,TX_MULTISIG,vSolutions)) :
      Solver.counted vSolutions = true := by
    induction templates with
    | nil => simp [Solver.scan] at solved
    | cons template rest ih =>
      rw [Solver.scan] at solved
      split at solved
      next => exact ih solved
      next =>
        obtain ⟨checked,rest⟩ := Prod.mk.inj solved
        obtain ⟨isMultisig,rfl⟩ := Prod.mk.inj rest
        rw [isMultisig] at checked
        simpa using checked
  rw [Solver] at solved
  split at solved
  · simp at solved
  · have checked := scanned _ solved
    simp only [Solver.counted,Bool.not_eq_true',Bool.or_eq_false_iff,bne_eq_false_iff_eq] at checked
    rw [checked.2]
    exact UInt8.toNat_lt _

namespace KeyLookup

variable {lookup : KeyLookup} {memory : KeyBuffer} {nRequired : Int} {keys : List String} {pubkeys : List KeyBuffer}

theorem gatherKey_valid {ks : String} {key : KeyBuffer} (gathered : lookup.gatherKey memory ks = .ok key) : key.size ≠ 0 := by
  have checked {key' : KeyBuffer} {e : Halt} (passed : (if !lookup.IsFullyValid key' then Except.error e else .ok key') = .ok key) : key.size ≠ 0 := by
    split at passed
    · contradiction
    next valid =>
      obtain rfl := Except.ok.inj passed
      rw [Bool.not_eq_true,Bool.not_eq_false',IsFullyValid,Bool.and_eq_true,decide_eq_true_eq] at valid
      omega
  rw [gatherKey] at gathered
  split at gathered
  next address _ =>
    split at gathered
    next keyID =>
      split at gathered
      · contradiction
      · exact checked gathered
    · contradiction
  next =>
    split at gathered
    · exact checked gathered
    · contradiction

theorem gatherEach_valid {keys : List String} {pubkeys : List KeyBuffer} (gathered : keys.mapM (lookup.gatherKey memory) = .ok pubkeys) :
    pubkeys.length = keys.length ∧ ∀ key ∈ pubkeys, key.size ≠ 0 := by
  induction keys generalizing pubkeys with
  | nil =>
    obtain rfl := Except.ok.inj gathered
    simp
  | cons ks keys ih =>
    rw [List.mapM_cons] at gathered
    cases first : lookup.gatherKey memory ks with
    | error e => rw [first] at gathered; contradiction
    | ok key =>
      cases rest : keys.mapM (lookup.gatherKey memory) with
      | error e => rw [first,rest] at gathered; contradiction
      | ok others =>
        rw [first,rest] at gathered
        obtain rfl := Except.ok.inj gathered
        obtain ⟨long,valid⟩ := ih rest
        refine ⟨by rw [List.length_cons,List.length_cons,long],?_⟩
        intro other member
        rcases List.mem_cons.mp member with rfl | member
        · exact gatherKey_valid first
        · exact valid other member

/-- What the keys that are gathered are. -/
structure Gathered (nRequired : Int) (pubkeys : List KeyBuffer) : Prop where
  required : 1 ≤ nRequired
  enough : nRequired ≤ sizeAsInt pubkeys.length
  valid : ∀ key ∈ pubkeys, key.size ≠ 0

theorem gatherKeys_gathered (gathered : lookup.gatherKeys memory nRequired keys = .ok pubkeys) : Gathered nRequired pubkeys := by
  rw [gatherKeys] at gathered
  split at gathered
  · contradiction
  next required =>
    split at gathered
    · contradiction
    next enough =>
      obtain ⟨long,valid⟩ := gatherEach_valid gathered
      exact ⟨by omega,by rw [long]; omega,valid⟩

/-- Destinations come back from their scripts; keys do when they are at most 16, and with
    more of them building the script fails an assertion. -/
theorem templates_invert_iff (Hash160 : List UInt8 → Nat) {dest : CTxDestination} (fits : dest.Fits)
    (gathered : lookup.gatherKeys memory nRequired keys = .ok pubkeys) :
    (ExtractDestination Hash160 (SetDestination dest) .CNoDestination = (dest != .CNoDestination,dest) ∧ InvertsMultisig nRequired pubkeys) ↔
      pubkeys.length ≤ 16 := by
  obtain ⟨required,enough,valid⟩ := gatherKeys_gathered gathered
  have unwrapped (low : pubkeys.length < 2^31) : sizeAsInt pubkeys.length = pubkeys.length := sizeAsInt_eq low
  constructor
  · rintro ⟨_,script,built,solved⟩
    have few := Solver_counted solved
    simp only [List.length_cons,List.length_append,List.length_map,List.length_nil] at few
    rw [SetMultisig,unwrapped (by omega)] at built
    by_contra many
    have asserted : EncodeOP_N pubkeys.length = .error (.asserts "n >= 0 && n <= 16") := if_neg (by omega)
    rw [asserted] at built
    cases first : EncodeOP_N nRequired with
    | error e => rw [first] at built; contradiction
    | ok op =>
      rw [first] at built
      simp only [bind,Except.bind,pushKeys_eq] at built
      contradiction
  · intro few
    rw [unwrapped (by omega)] at enough
    obtain ⟨m,rfl⟩ := Int.eq_ofNat_of_zero_le (show 0 ≤ nRequired by omega)
    exact ⟨ExtractDestination_inverts Hash160 fits,_,SetMultisig_eq (by omega) (by omega) few,
      by rw [Int.toNat_natCast]; exact SetMultisig_solved (by omega) (by omega) few valid⟩

/-- Every string is the hexadecimal form of one key. -/
private def oneKey : KeyLookup := ⟨false,fun _ => none,fun _ => none,fun _ => true,fun _ => 2 :: List.replicate 32 7,fun _ => true⟩
private def blank : KeyBuffer := KeyBuffer.headed 0xff
private def sampleKey : KeyBuffer := blank.Set (2 :: List.replicate 32 7)

private theorem oneKey_gathers {n m : Nat} (some : 1 ≤ m) (enough : m ≤ n) (short : n < 2^31) :
    oneKey.gatherKeys blank m (List.replicate n "02") = .ok (List.replicate n sampleKey) := by
  have each : oneKey.gatherKey blank "02" = .ok sampleKey := by decide +kernel
  have all (n : Nat) : (List.replicate n "02").mapM (oneKey.gatherKey blank) = .ok (List.replicate n sampleKey) := by
    induction n with
    | zero => rfl
    | succ n ih =>
      rw [List.replicate_succ,List.mapM_cons,each,ih]
      rfl
  rw [gatherKeys,if_neg (by omega),List.length_replicate,sizeAsInt_eq short,if_neg (by omega),all]

/-- One of two keys signs. -/
theorem templates_invert_two : InvertsMultisig 1 [sampleKey,sampleKey] :=
  ((@templates_invert_iff oneKey blank 1 _ _ (fun _ => 0) (.CKeyID 5) (show (5 : Nat) < 2^160 by norm_num)
    (oneKey_gathers (n := 2) (m := 1) le_rfl (by norm_num) (by norm_num))).mpr (by decide)).2

/-- 17 keys are accepted, and then an assertion fails. -/
theorem seventeen_keys : oneKey.gatherKeys blank 1 (List.replicate 17 "02") = .ok (List.replicate 17 sampleKey) ∧
    oneKey.createmultisig blank 1 (List.replicate 17 "02") = .error (.asserts "n >= 0 && n <= 16") ∧
    ¬InvertsMultisig 1 (List.replicate 17 sampleKey) := by
  have gathered := @oneKey_gathers 17 1 le_rfl (by norm_num) (by norm_num)
  have count : sizeAsInt (List.replicate 17 sampleKey).length = 17 := sizeAsInt_eq (by rw [List.length_replicate]; norm_num)
  have asserted : SetMultisig 1 (List.replicate 17 sampleKey) = .error (.asserts "n >= 0 && n <= 16") := by
    rw [SetMultisig,count]
    simp only [bind,Except.bind,pushKeys_eq]
    rfl
  refine ⟨gathered,?_,?_⟩
  · rw [createmultisig,show ((1 : Int)) = ((1 : Nat) : Int) from rfl,gathered]
    exact asserted
  · rintro ⟨script,built,_⟩
    rw [asserted] at built
    contradiction

end KeyLookup

end Tetra
