import Tetra.ScriptValues

/-!
`EvalScript`: a stack machine that runs a script operation by operation. Reaching for a
position that a stack does not have is a way of its own to stop.
-/
namespace Tetra

/-- How a run stops without success; an exception is caught and makes it false too. -/
inductive Halt
  | refused
  | throws (message : String)
  | asserts (condition : String)
  /-- A stack has no such position. -/
  | outOfRange
  /-- The fuel of a loop ran out. -/
  | unfinished
deriving DecidableEq

def Halt.fault (halt : Halt) : Prop := halt = .outOfRange ∨ halt = .unfinished

/-- What the operations call, for one input of a transaction and one set of flags. -/
structure ScriptEnv where
  fStrictEncodings : Bool
  CheckSig : valtype → valtype → CScript → Bool
  RIPEMD160 : valtype → valtype
  SHA1 : valtype → valtype
  SHA256 : valtype → valtype
  Hash160 : valtype → valtype
  Hash : valtype → valtype

/-- Bottom first. -/
abbrev Stack := List valtype
abbrev Exec := Except Halt

/-- `pc` and `pbegincodehash` are what is left of the script from there on. -/
structure Machine where
  pc : CScript
  stack : Stack
  altstack : Stack := []
  vfExec : List Bool := []
  pbegincodehash : CScript
  nOpCount : Nat := 0
deriving DecidableEq

namespace Machine

/-- Not in a branch that is skipped. -/
def fExec (m : Machine) : Bool := !m.vfExec.contains false

/-! ### Access to a stack, by offsets from its end -/

/-- `if (stack.size() < n) return false;` -/
def need (stack : Stack) (n : Int) : Exec Unit := if (stack.length : Int) < n then .error .refused else .ok ()

/-- `stack.at(stack.size()+(i))` -/
def stacktop (stack : Stack) (i : Int) : Exec valtype :=
  if 0 ≤ stack.length+i ∧ i < 0 then .ok (stack.getD (stack.length+i).toNat []) else .error .outOfRange

def popstack (stack : Stack) : Exec Stack := if stack.isEmpty then .error .outOfRange else .ok stack.dropLast

/-- `stack.erase(stack.end()+first, stack.end()+last)` -/
def erase (stack : Stack) (first last : Int) : Exec Stack :=
  if 0 ≤ stack.length+first ∧ first ≤ last ∧ last ≤ 0 then
    .ok (stack.take (stack.length+first).toNat ++ stack.drop (stack.length+last).toNat)
  else .error .outOfRange

/-- `stack.insert(stack.end()+i, vch)` -/
def insert (stack : Stack) (i : Int) (vch : valtype) : Exec Stack :=
  if 0 ≤ stack.length+i ∧ i ≤ 0 then .ok (stack.insertIdx (stack.length+i).toNat vch) else .error .outOfRange

/-- `swap(stacktop(i), stacktop(j))` -/
def swap (stack : Stack) (i j : Int) : Exec Stack := do
  let vch1 ← stacktop stack i
  let vch2 ← stacktop stack j
  return (stack.set (stack.length+i).toNat vch2).set (stack.length+j).toNat vch1

def CastToBigNum (vch : valtype) : Exec Int :=
  if vch.length > nMaxNumSize then .error (.throws "CastToBigNum() : overflow") else .ok (setvch (getvch (setvch vch)))

/-- Pushes a truth value; the verifying form of an operation takes a true one off again. -/
def pushBool (stack : Stack) (verify fValue : Bool) : Exec Stack :=
  let stack := stack ++ [if fValue then vchTrue else vchFalse]
  if verify then if fValue then popstack stack else .error .refused else .ok stack

open CScript

/-! ### Operations on the stack alone -/

def pushNumber (opcode : Nat) (stack : Stack) : Exec Stack := .ok (stack ++ [getvch (opcode-(OP_1-1 : Nat))])

def verify (stack : Stack) : Exec Stack := do
  need stack 1
  let vch ← stacktop stack (-1)
  if CastToBool vch then popstack stack else .error .refused

def op2DROP (stack : Stack) : Exec Stack := do
  need stack 2
  let stack ← popstack stack
  popstack stack

def op2DUP (stack : Stack) : Exec Stack := do
  need stack 2
  let vch1 ← stacktop stack (-2)
  let vch2 ← stacktop stack (-1)
  return stack ++ [vch1] ++ [vch2]

def op3DUP (stack : Stack) : Exec Stack := do
  need stack 3
  let vch1 ← stacktop stack (-3)
  let vch2 ← stacktop stack (-2)
  let vch3 ← stacktop stack (-1)
  return stack ++ [vch1] ++ [vch2] ++ [vch3]

def op2OVER (stack : Stack) : Exec Stack := do
  need stack 4
  let vch1 ← stacktop stack (-4)
  let vch2 ← stacktop stack (-3)
  return stack ++ [vch1] ++ [vch2]

def op2ROT (stack : Stack) : Exec Stack := do
  need stack 6
  let vch1 ← stacktop stack (-6)
  let vch2 ← stacktop stack (-5)
  let stack ← erase stack (-6) (-4)
  return stack ++ [vch1] ++ [vch2]

def op2SWAP (stack : Stack) : Exec Stack := do
  need stack 4
  let stack ← swap stack (-4) (-2)
  swap stack (-3) (-1)

def opIFDUP (stack : Stack) : Exec Stack := do
  need stack 1
  let vch ← stacktop stack (-1)
  return if CastToBool vch then stack ++ [vch] else stack

def opDEPTH (stack : Stack) : Exec Stack := .ok (stack ++ [getvch stack.length])

def opDROP (stack : Stack) : Exec Stack := do
  need stack 1
  popstack stack

def opDUP (stack : Stack) : Exec Stack := do
  need stack 1
  let vch ← stacktop stack (-1)
  return stack ++ [vch]

def opNIP (stack : Stack) : Exec Stack := do
  need stack 2
  erase stack (-2) (-1)

def opOVER (stack : Stack) : Exec Stack := do
  need stack 2
  let vch ← stacktop stack (-2)
  return stack ++ [vch]

/-- `OP_PICK` and `OP_ROLL`: the position is a number on the stack. -/
def pickOrRoll (opcode : Nat) (stack : Stack) : Exec Stack := do
  need stack 2
  let top ← stacktop stack (-1)
  let bn ← CastToBigNum top
  let n := getint bn
  let stack ← popstack stack
  if n < 0 ∨ n ≥ stack.length then .error .refused
  else do
    let vch ← stacktop stack (-n-1)
    let stack ← if opcode = OP_ROLL then erase stack (-n-1) (-n) else .ok stack
    return stack ++ [vch]

def opROT (stack : Stack) : Exec Stack := do
  need stack 3
  let stack ← swap stack (-3) (-2)
  swap stack (-2) (-1)

def opSWAP (stack : Stack) : Exec Stack := do
  need stack 2
  swap stack (-2) (-1)

def opTUCK (stack : Stack) : Exec Stack := do
  need stack 2
  let vch ← stacktop stack (-1)
  insert stack (-2) vch

def opSIZE (stack : Stack) : Exec Stack := do
  need stack 1
  let vch ← stacktop stack (-1)
  return stack ++ [getvch vch.length]

def equal (opcode : Nat) (stack : Stack) : Exec Stack := do
  need stack 2
  let vch1 ← stacktop stack (-2)
  let vch2 ← stacktop stack (-1)
  let stack ← popstack stack
  let stack ← popstack stack
  pushBool stack (opcode == OP_EQUALVERIFY) (vch1 == vch2)

/-! ### Numbers -/

def unaryValue (opcode : Nat) (bn : Int) : Exec Int :=
  if opcode = OP_1ADD then .ok (bn+1)
  else if opcode = OP_1SUB then .ok (bn-1)
  else if opcode = OP_NEGATE then .ok (-bn)
  else if opcode = OP_ABS then .ok (if bn < 0 then -bn else bn)
  else if opcode = OP_NOT then .ok (if bn = 0 then 1 else 0)
  else if opcode = OP_0NOTEQUAL then .ok (if bn ≠ 0 then 1 else 0)
  else .error (.asserts "!\"invalid opcode\"")

def unary (opcode : Nat) (stack : Stack) : Exec Stack := do
  need stack 1
  let vch ← stacktop stack (-1)
  let bn ← CastToBigNum vch
  let bn ← unaryValue opcode bn
  let stack ← popstack stack
  return stack ++ [getvch bn]

def truth (b : Bool) : Int := if b then 1 else 0

def binaryValue (opcode : Nat) (bn1 bn2 : Int) : Exec Int :=
  if opcode = OP_ADD then .ok (bn1+bn2)
  else if opcode = OP_SUB then .ok (bn1-bn2)
  else if opcode = OP_BOOLAND then .ok (truth (bn1 ≠ 0 ∧ bn2 ≠ 0))
  else if opcode = OP_BOOLOR then .ok (truth (bn1 ≠ 0 ∨ bn2 ≠ 0))
  else if opcode = OP_NUMEQUAL then .ok (truth (bn1 = bn2))
  else if opcode = OP_NUMEQUALVERIFY then .ok (truth (bn1 = bn2))
  else if opcode = OP_NUMNOTEQUAL then .ok (truth (bn1 ≠ bn2))
  else if opcode = OP_LESSTHAN then .ok (truth (bn1 < bn2))
  else if opcode = OP_GREATERTHAN then .ok (truth (bn1 > bn2))
  else if opcode = OP_LESSTHANOREQUAL then .ok (truth (bn1 ≤ bn2))
  else if opcode = OP_GREATERTHANOREQUAL then .ok (truth (bn1 ≥ bn2))
  else if opcode = OP_MIN then .ok (if bn1 < bn2 then bn1 else bn2)
  else if opcode = OP_MAX then .ok (if bn1 > bn2 then bn1 else bn2)
  else .error (.asserts "!\"invalid opcode\"")

def binary (opcode : Nat) (stack : Stack) : Exec Stack := do
  need stack 2
  let vch1 ← stacktop stack (-2)
  let bn1 ← CastToBigNum vch1
  let vch2 ← stacktop stack (-1)
  let bn2 ← CastToBigNum vch2
  let bn ← binaryValue opcode bn1 bn2
  let stack ← popstack stack
  let stack ← popstack stack
  let stack := stack ++ [getvch bn]
  if opcode = OP_NUMEQUALVERIFY then do
    let vch ← stacktop stack (-1)
    if CastToBool vch then popstack stack else .error .refused
  else return stack

def within (stack : Stack) : Exec Stack := do
  need stack 3
  let vch1 ← stacktop stack (-3)
  let bn1 ← CastToBigNum vch1
  let vch2 ← stacktop stack (-2)
  let bn2 ← CastToBigNum vch2
  let vch3 ← stacktop stack (-1)
  let bn3 ← CastToBigNum vch3
  let stack ← popstack stack
  let stack ← popstack stack
  let stack ← popstack stack
  pushBool stack false (bn2 ≤ bn1 ∧ bn1 < bn3)

/-! ### Hashes and signatures -/

section
variable (env : ScriptEnv)

def hashOf (opcode : Nat) (vch : valtype) : valtype :=
  if opcode = OP_RIPEMD160 then env.RIPEMD160 vch
  else if opcode = OP_SHA1 then env.SHA1 vch
  else if opcode = OP_SHA256 then env.SHA256 vch
  else if opcode = OP_HASH160 then env.Hash160 vch
  else env.Hash vch

def hash (opcode : Nat) (stack : Stack) : Exec Stack := do
  need stack 1
  let vch ← stacktop stack (-1)
  let stack ← popstack stack
  return stack ++ [hashOf env opcode vch]

/-- Whether a signature is one of the key; encodings are checked first where they must be
    canonical. -/
def signs (vchSig vchPubKey : valtype) (scriptCode : CScript) : Bool :=
  (!env.fStrictEncodings || IsCanonicalSignature vchSig && IsCanonicalPubKey vchPubKey) && env.CheckSig vchSig vchPubKey scriptCode

def checkSig (opcode : Nat) (m : Machine) : Exec Machine := do
  need m.stack 2
  let vchSig ← stacktop m.stack (-2)
  let vchPubKey ← stacktop m.stack (-1)
  let scriptCode := FindAndDelete m.pbegincodehash (pushValue vchSig)
  let fSuccess := signs env vchSig vchPubKey scriptCode
  let stack ← popstack m.stack
  let stack ← popstack stack
  let stack ← pushBool stack (opcode == OP_CHECKSIGVERIFY) fSuccess
  return {m with stack}

/-- The script without the signatures. -/
def dropSignatures (stack : Stack) (isig nSigsCount : Int) (scriptCode : CScript) : Exec CScript :=
  (List.range nSigsCount.toNat).foldlM (fun scriptCode (k : Nat) => do
    let vchSig ← stacktop stack (-isig-k)
    return FindAndDelete scriptCode (pushValue vchSig)) scriptCode

/-- The loop that matches signatures with keys, each turn with the next key; the number of
    keys is enough fuel. -/
def checkSignatures (stack : Stack) (scriptCode : CScript) : Nat → Bool → Int → Int → Int → Int → Exec Bool
  | fuel, fSuccess, isig, ikey, nSigsCount, nKeysCount =>
    if fSuccess && nSigsCount > 0 then
      match fuel with
      | 0 => .error .unfinished
      | fuel+1 => do
        let vchSig ← stacktop stack (-isig)
        let vchPubKey ← stacktop stack (-ikey)
        let fOk := signs env vchSig vchPubKey scriptCode
        let isig := if fOk then isig+1 else isig
        let nSigsCount := if fOk then nSigsCount-1 else nSigsCount
        let nKeysCount := nKeysCount-1
        checkSignatures stack scriptCode fuel (!(nSigsCount > nKeysCount)) isig (ikey+1) nSigsCount nKeysCount
    else .ok fSuccess

/-- `while (i-- > 0) popstack(stack);` -/
def popAll : Nat → Stack → Exec Stack
  | 0, stack => .ok stack
  | i+1, stack => do
    let stack ← popstack stack
    popAll i stack

def checkMultisig (opcode : Nat) (m : Machine) : Exec Machine := do
  need m.stack 1
  let top ← stacktop m.stack (-1)
  let bnKeys ← CastToBigNum top
  let nKeysCount := getint bnKeys
  if nKeysCount < 0 ∨ nKeysCount > 20 then .error .refused
  else
    let nOpCount := m.nOpCount+nKeysCount.toNat
    if nOpCount > 201 then .error .refused
    else do
      let ikey : Int := 2
      need m.stack (ikey+nKeysCount)
      let vch ← stacktop m.stack (-(ikey+nKeysCount))
      let bnSigs ← CastToBigNum vch
      let nSigsCount := getint bnSigs
      if nSigsCount < 0 ∨ nSigsCount > nKeysCount then .error .refused
      else do
        let isig := ikey+nKeysCount+1
        let i := isig+nSigsCount
        need m.stack i
        let scriptCode ← dropSignatures m.stack isig nSigsCount m.pbegincodehash
        let fSuccess ← checkSignatures env m.stack scriptCode nKeysCount.toNat true isig ikey nSigsCount nKeysCount
        let stack ← popAll i.toNat m.stack
        let stack ← pushBool stack (opcode == OP_CHECKMULTISIGVERIFY) fSuccess
        return {m with stack,nOpCount}

end

/-! ### Control -/

def ifOrNotif (opcode : Nat) (m : Machine) : Exec Machine :=
  if m.fExec then do
    need m.stack 1
    let vch ← stacktop m.stack (-1)
    let fValue := if opcode = OP_NOTIF then !CastToBool vch else CastToBool vch
    let stack ← popstack m.stack
    return {m with stack,vfExec := m.vfExec ++ [fValue]}
  else .ok {m with vfExec := m.vfExec ++ [false]}

def opELSE (m : Machine) : Exec Machine :=
  match m.vfExec.getLast? with
  | none => .error .refused
  | some last => .ok {m with vfExec := m.vfExec.dropLast ++ [!last]}

def opENDIF (m : Machine) : Exec Machine := if m.vfExec.isEmpty then .error .refused else .ok {m with vfExec := m.vfExec.dropLast}

def toAltStack (m : Machine) : Exec Machine := do
  need m.stack 1
  let vch ← stacktop m.stack (-1)
  let stack ← popstack m.stack
  return {m with stack,altstack := m.altstack ++ [vch]}

def fromAltStack (m : Machine) : Exec Machine := do
  need m.altstack 1
  let vch ← stacktop m.altstack (-1)
  let altstack ← popstack m.altstack
  return {m with stack := m.stack ++ [vch],altstack}

/-! ### The switch -/

/-- An operation that only works on the stack. -/
def onStack (f : Nat → Stack → Exec Stack) (opcode : Nat) (m : Machine) : Exec Machine := do
  let stack ← f opcode m.stack
  return {m with stack}

/-- The labels of a case, and what it does. -/
structure Case where
  labels : List Nat
  body : Nat → Machine → Exec Machine

/-- The cases but for the last, `OP_CHECKMULTISIG`. -/
def cases (env : ScriptEnv) : List Case :=
  [⟨OP_1NEGATE :: List.range' OP_1 16,onStack pushNumber⟩,
    ⟨OP_NOP :: List.range' OP_NOP1 10,fun _ m => .ok m⟩,
    ⟨[OP_IF,OP_NOTIF],ifOrNotif⟩,
    ⟨[OP_ELSE],fun _ => opELSE⟩,
    ⟨[OP_ENDIF],fun _ => opENDIF⟩,
    ⟨[OP_VERIFY],onStack fun _ => verify⟩,
    ⟨[OP_RETURN],fun _ _ => .error .refused⟩,
    ⟨[OP_TOALTSTACK],fun _ => toAltStack⟩,
    ⟨[OP_FROMALTSTACK],fun _ => fromAltStack⟩,
    ⟨[OP_2DROP],onStack fun _ => op2DROP⟩,
    ⟨[OP_2DUP],onStack fun _ => op2DUP⟩,
    ⟨[OP_3DUP],onStack fun _ => op3DUP⟩,
    ⟨[OP_2OVER],onStack fun _ => op2OVER⟩,
    ⟨[OP_2ROT],onStack fun _ => op2ROT⟩,
    ⟨[OP_2SWAP],onStack fun _ => op2SWAP⟩,
    ⟨[OP_IFDUP],onStack fun _ => opIFDUP⟩,
    ⟨[OP_DEPTH],onStack fun _ => opDEPTH⟩,
    ⟨[OP_DROP],onStack fun _ => opDROP⟩,
    ⟨[OP_DUP],onStack fun _ => opDUP⟩,
    ⟨[OP_NIP],onStack fun _ => opNIP⟩,
    ⟨[OP_OVER],onStack fun _ => opOVER⟩,
    ⟨[OP_PICK,OP_ROLL],onStack pickOrRoll⟩,
    ⟨[OP_ROT],onStack fun _ => opROT⟩,
    ⟨[OP_SWAP],onStack fun _ => opSWAP⟩,
    ⟨[OP_TUCK],onStack fun _ => opTUCK⟩,
    ⟨[OP_SIZE],onStack fun _ => opSIZE⟩,
    ⟨[OP_EQUAL,OP_EQUALVERIFY],onStack equal⟩,
    ⟨[OP_1ADD,OP_1SUB,OP_NEGATE,OP_ABS,OP_NOT,OP_0NOTEQUAL],onStack unary⟩,
    ⟨[OP_ADD,OP_SUB,OP_BOOLAND,OP_BOOLOR,OP_NUMEQUAL,OP_NUMEQUALVERIFY,OP_NUMNOTEQUAL,OP_LESSTHAN,OP_GREATERTHAN,OP_LESSTHANOREQUAL,
      OP_GREATERTHANOREQUAL,OP_MIN,OP_MAX],onStack binary⟩,
    ⟨[OP_WITHIN],onStack fun _ => within⟩,
    ⟨[OP_RIPEMD160,OP_SHA1,OP_SHA256,OP_HASH160,OP_HASH256],onStack (hash env)⟩,
    ⟨[OP_CODESEPARATOR],fun _ m => .ok {m with pbegincodehash := m.pc}⟩,
    ⟨[OP_CHECKSIG,OP_CHECKSIGVERIFY],checkSig env⟩]

def isMultisig (opcode : Nat) : Bool := opcode == OP_CHECKMULTISIG || opcode == OP_CHECKMULTISIGVERIFY

def switch (env : ScriptEnv) (opcode : Nat) (m : Machine) : Exec Machine :=
  if isMultisig opcode then checkMultisig env opcode m
  else
    match (cases env).find? fun c => c.labels.contains opcode with
    | some c => c.body opcode m
    | none => .error .refused

/-! ### The loop -/

/-- Whether an operation is executed, in a skipped branch too if it may end that. -/
def executes (m : Machine) (opcode : Nat) : Bool := m.fExec || (decide (OP_IF ≤ opcode) && decide (opcode ≤ OP_ENDIF))

/-- One operation. -/
def iterate (env : ScriptEnv) (m : Machine) : Exec Machine :=
  match GetOp m.pc with
  | none => .error .refused
  | some (opcode,vchPushValue,pc) =>
    if vchPushValue.length > MAX_SCRIPT_ELEMENT_SIZE then .error .refused
    else
      let nOpCount := if opcode > OP_16 then m.nOpCount+1 else m.nOpCount
      if opcode > OP_16 ∧ nOpCount > 201 then .error .refused
      else if disabled.contains opcode then .error .refused
      else do
        let m := {m with pc,nOpCount}
        let m ←
          if m.fExec ∧ opcode ≤ OP_PUSHDATA4 then .ok {m with stack := m.stack ++ [vchPushValue]}
          else if m.executes opcode then switch env opcode m
          else .ok m
        if m.stack.length+m.altstack.length > 1000 then .error .refused else return m

/-- Every operation takes a byte, so the length of the script is enough fuel. -/
def loop (env : ScriptEnv) : Nat → Machine → Exec Machine
  | fuel, m =>
    if m.pc.isEmpty then .ok m
    else
      match fuel with
      | 0 => .error .unfinished
      | fuel+1 => do
        let m ← iterate env m
        loop env fuel m

def start (stack : Stack) (script : CScript) : Machine := {pc := script,stack,pbegincodehash := script}

end Machine

/-- The stack afterwards where the code returns true. -/
def EvalScript (env : ScriptEnv) (stack : Stack) (script : CScript) : Exec Stack :=
  if script.length > 10000 then .error .refused
  else do
    let m ← Machine.loop env script.length (Machine.start stack script)
    if m.vfExec.isEmpty then return m.stack else .error .refused

end Tetra
