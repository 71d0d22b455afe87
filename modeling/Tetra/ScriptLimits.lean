import Mathlib
import Tetra.Guarded
import Tetra.ScriptMachine

/-!
The limits of `EvalScript`: no operation reaches past the end of a stack, and the stacks
and the number of operations stay within their bounds in every turn of the loop.
-/
namespace Tetra
open Guarded

/-- Neither a position that is not there nor a loop without an end. -/
abbrev Safe {α : Type} (x : Exec α) (post : α → Prop) : Prop := Sound Halt.fault x post

namespace Machine
open CScript

/-! ### Access to a stack -/

theorem not_fault_refused : ¬Halt.fault .refused := by simp [Halt.fault]
theorem not_fault_throws (message : String) : ¬Halt.fault (.throws message) := by simp [Halt.fault]
theorem not_fault_asserts (condition : String) : ¬Halt.fault (.asserts condition) := by simp [Halt.fault]

theorem need_safe (stack : Stack) (n : Int) : Safe (need stack n) fun _ => n ≤ stack.length :=
  .ite (fun _ => .stop not_fault_refused) fun enough => .ok (Int.not_lt.mp enough)

theorem stacktop_safe {stack : Stack} {i : Int} (within : 0 ≤ stack.length+i ∧ i < 0) : Safe (stacktop stack i) fun _ => True := by
  rw [stacktop,if_pos within]
  exact .ok trivial

theorem popstack_safe {stack : Stack} (filled : 0 < stack.length) : Safe (popstack stack) fun s => s.length+1 = stack.length := by
  rw [popstack,if_neg (by rw [List.isEmpty_iff_length_eq_zero]; omega)]
  refine .ok ?_
  rw [List.length_dropLast]
  omega

theorem erase_safe {stack : Stack} {first last : Int} (within : 0 ≤ stack.length+first ∧ first ≤ last ∧ last ≤ 0) :
    Safe (erase stack first last) fun _ => True := by
  rw [erase,if_pos within]
  exact .ok trivial

theorem insert_safe {stack : Stack} {i : Int} (vch : valtype) (within : 0 ≤ stack.length+i ∧ i ≤ 0) : Safe (insert stack i vch) fun _ => True := by
  rw [insert,if_pos within]
  exact .ok trivial

theorem swap_safe {stack : Stack} {i j : Int} (within : 0 ≤ stack.length+i ∧ i < 0) (within' : 0 ≤ stack.length+j ∧ j < 0) :
    Safe (swap stack i j) fun s => s.length = stack.length := by
  refine (stacktop_safe within).bind fun vch1 _ => ?_
  refine (stacktop_safe within').return fun vch2 _ => ?_
  rw [List.length_set,List.length_set]

theorem CastToBigNum_safe (vch : valtype) : Safe (CastToBigNum vch) fun _ => True :=
  .ite (fun _ => .stop (not_fault_throws _)) fun _ => .ok trivial

theorem pushBool_safe (stack : Stack) (verify fValue : Bool) : Safe (pushBool stack verify fValue) fun _ => True := by
  refine .ite (fun _ => .ite (fun _ => ?_) fun _ => .stop not_fault_refused) fun _ => .ok trivial
  exact (popstack_safe (by simp)).mono fun _ _ => trivial

/-- Taking the top off a stack that has been found large enough. -/
theorem pop_safe {stack : Stack} (filled : (1 : Int) ≤ stack.length) : Safe (popstack stack) fun s => (s.length : Int)+1 = stack.length :=
  (popstack_safe (by omega)).mono fun _ shorter => by omega

/-! ### Operations on the stack alone -/

theorem pushNumber_safe (opcode : Nat) (stack : Stack) : Safe (pushNumber opcode stack) fun _ => True := .ok trivial

theorem verify_safe (stack : Stack) : Safe (verify stack) fun _ => True := by
  refine (need_safe stack 1).bind fun _ enough => ?_
  refine (stacktop_safe (by omega)).bind fun vch _ => ?_
  exact .ite (fun _ => (pop_safe enough).mono fun _ _ => trivial) fun _ => .stop not_fault_refused

theorem op2DROP_safe (stack : Stack) : Safe (op2DROP stack) fun _ => True := by
  refine (need_safe stack 2).bind fun _ enough => ?_
  refine (pop_safe (by omega)).bind fun s shorter => ?_
  exact (pop_safe (by omega)).mono fun _ _ => trivial

theorem op2DUP_safe (stack : Stack) : Safe (op2DUP stack) fun _ => True := by
  refine (need_safe stack 2).bind fun _ enough => ?_
  refine (stacktop_safe (by omega)).bind fun vch1 _ => ?_
  exact (stacktop_safe (by omega)).return fun vch2 _ => trivial

theorem op3DUP_safe (stack : Stack) : Safe (op3DUP stack) fun _ => True := by
  refine (need_safe stack 3).bind fun _ enough => ?_
  refine (stacktop_safe (by omega)).bind fun vch1 _ => ?_
  refine (stacktop_safe (by omega)).bind fun vch2 _ => ?_
  exact (stacktop_safe (by omega)).return fun vch3 _ => trivial

theorem op2OVER_safe (stack : Stack) : Safe (op2OVER stack) fun _ => True := by
  refine (need_safe stack 4).bind fun _ enough => ?_
  refine (stacktop_safe (by omega)).bind fun vch1 _ => ?_
  exact (stacktop_safe (by omega)).return fun vch2 _ => trivial

theorem op2ROT_safe (stack : Stack) : Safe (op2ROT stack) fun _ => True := by
  refine (need_safe stack 6).bind fun _ enough => ?_
  refine (stacktop_safe (by omega)).bind fun vch1 _ => ?_
  refine (stacktop_safe (by omega)).bind fun vch2 _ => ?_
  exact (erase_safe (by omega)).return fun s _ => trivial

theorem op2SWAP_safe (stack : Stack) : Safe (op2SWAP stack) fun _ => True := by
  refine (need_safe stack 4).bind fun _ enough => ?_
  refine (swap_safe (by omega) (by omega)).bind fun s same => ?_
  exact (swap_safe (by omega) (by omega)).mono fun _ _ => trivial

theorem opIFDUP_safe (stack : Stack) : Safe (opIFDUP stack) fun _ => True := by
  refine (need_safe stack 1).bind fun _ enough => ?_
  exact (stacktop_safe (by omega)).return fun vch _ => trivial

theorem opDEPTH_safe (stack : Stack) : Safe (opDEPTH stack) fun _ => True := .ok trivial

theorem opDROP_safe (stack : Stack) : Safe (opDROP stack) fun _ => True :=
  (need_safe stack 1).bind fun _ enough => (pop_safe enough).mono fun _ _ => trivial

theorem opDUP_safe (stack : Stack) : Safe (opDUP stack) fun _ => True := by
  refine (need_safe stack 1).bind fun _ enough => ?_
  exact (stacktop_safe (by omega)).return fun vch _ => trivial

theorem opNIP_safe (stack : Stack) : Safe (opNIP stack) fun _ => True :=
  (need_safe stack 2).bind fun _ enough => erase_safe (by omega)

theorem opOVER_safe (stack : Stack) : Safe (opOVER stack) fun _ => True := by
  refine (need_safe stack 2).bind fun _ enough => ?_
  exact (stacktop_safe (by omega)).return fun vch _ => trivial

/-- Whatever number is on the stack, it is compared with the size before it is used. -/
theorem pickOrRoll_safe (opcode : Nat) (stack : Stack) : Safe (pickOrRoll opcode stack) fun _ => True := by
  refine (need_safe stack 2).bind fun _ enough => ?_
  refine (stacktop_safe (by omega)).bind fun top _ => ?_
  refine (CastToBigNum_safe top).bind fun bn _ => ?_
  refine (pop_safe (by omega)).bind fun s shorter => ?_
  refine .ite (fun _ => .stop not_fault_refused) fun inside => ?_
  refine (stacktop_safe (by omega)).bind fun vch _ => ?_
  exact .ite (fun _ => (erase_safe (by omega)).return fun _ _ => trivial) fun _ => .ok trivial

theorem opROT_safe (stack : Stack) : Safe (opROT stack) fun _ => True := by
  refine (need_safe stack 3).bind fun _ enough => ?_
  refine (swap_safe (by omega) (by omega)).bind fun s same => ?_
  exact (swap_safe (by omega) (by omega)).mono fun _ _ => trivial

theorem opSWAP_safe (stack : Stack) : Safe (opSWAP stack) fun _ => True := by
  refine (need_safe stack 2).bind fun _ enough => ?_
  exact (swap_safe (by omega) (by omega)).mono fun _ _ => trivial

theorem opTUCK_safe (stack : Stack) : Safe (opTUCK stack) fun _ => True := by
  refine (need_safe stack 2).bind fun _ enough => ?_
  exact (stacktop_safe (by omega)).bind fun vch _ => insert_safe vch (by omega)

theorem opSIZE_safe (stack : Stack) : Safe (opSIZE stack) fun _ => True := by
  refine (need_safe stack 1).bind fun _ enough => ?_
  exact (stacktop_safe (by omega)).return fun vch _ => trivial

theorem equal_safe (opcode : Nat) (stack : Stack) : Safe (equal opcode stack) fun _ => True := by
  refine (need_safe stack 2).bind fun _ enough => ?_
  refine (stacktop_safe (by omega)).bind fun vch1 _ => ?_
  refine (stacktop_safe (by omega)).bind fun vch2 _ => ?_
  refine (pop_safe (by omega)).bind fun s shorter => ?_
  exact (pop_safe (by omega)).bind fun s' _ => pushBool_safe s' _ _

/-! ### Numbers and hashes -/

theorem unaryValue_safe (opcode : Nat) (bn : Int) : Safe (unaryValue opcode bn) fun _ => True := by
  iterate 6 refine .ite (fun _ => .ok trivial) fun _ => ?_
  exact .stop (not_fault_asserts _)

theorem unary_safe (opcode : Nat) (stack : Stack) : Safe (unary opcode stack) fun _ => True := by
  refine (need_safe stack 1).bind fun _ enough => ?_
  refine (stacktop_safe (by omega)).bind fun vch _ => ?_
  refine (CastToBigNum_safe vch).bind fun bn _ => ?_
  refine (unaryValue_safe opcode bn).bind fun value _ => ?_
  exact (pop_safe enough).return fun _ _ => trivial

theorem binaryValue_safe (opcode : Nat) (bn1 bn2 : Int) : Safe (binaryValue opcode bn1 bn2) fun _ => True := by
  iterate 13 refine .ite (fun _ => .ok trivial) fun _ => ?_
  exact .stop (not_fault_asserts _)

theorem binary_safe (opcode : Nat) (stack : Stack) : Safe (binary opcode stack) fun _ => True := by
  refine (need_safe stack 2).bind fun _ enough => ?_
  refine (stacktop_safe (by omega)).bind fun vch1 _ => ?_
  refine (CastToBigNum_safe vch1).bind fun bn1 _ => ?_
  refine (stacktop_safe (by omega)).bind fun vch2 _ => ?_
  refine (CastToBigNum_safe vch2).bind fun bn2 _ => ?_
  refine (binaryValue_safe opcode bn1 bn2).bind fun bn _ => ?_
  refine (pop_safe (by omega)).bind fun s shorter => ?_
  refine (pop_safe (by omega)).bind fun s' _ => ?_
  have filled : (1 : Int) ≤ (s' ++ [getvch bn]).length := by
    rw [List.length_append,List.length_singleton]
    omega
  refine .ite (fun _ => ?_) fun _ => .ok trivial
  refine (stacktop_safe (by omega)).bind fun vch _ => ?_
  exact .ite (fun _ => (pop_safe filled).mono fun _ _ => trivial) fun _ => .stop not_fault_refused

theorem within_safe (stack : Stack) : Safe (within stack) fun _ => True := by
  refine (need_safe stack 3).bind fun _ enough => ?_
  refine (stacktop_safe (by omega)).bind fun vch1 _ => ?_
  refine (CastToBigNum_safe vch1).bind fun bn1 _ => ?_
  refine (stacktop_safe (by omega)).bind fun vch2 _ => ?_
  refine (CastToBigNum_safe vch2).bind fun bn2 _ => ?_
  refine (stacktop_safe (by omega)).bind fun vch3 _ => ?_
  refine (CastToBigNum_safe vch3).bind fun bn3 _ => ?_
  refine (pop_safe (by omega)).bind fun s shorter => ?_
  refine (pop_safe (by omega)).bind fun s' shorter' => ?_
  exact (pop_safe (by omega)).bind fun s'' _ => pushBool_safe s'' _ _

variable (env : ScriptEnv)

theorem hash_safe (opcode : Nat) (stack : Stack) : Safe (hash env opcode stack) fun _ => True := by
  refine (need_safe stack 1).bind fun _ enough => ?_
  refine (stacktop_safe (by omega)).bind fun vch _ => ?_
  exact (pop_safe enough).return fun _ _ => trivial

/-! ### Signatures -/

/-- An operation that leaves the rest of the script and the count of operations. -/
def Kept (m m' : Machine) : Prop := m'.pc = m.pc ∧ m'.nOpCount = m.nOpCount

theorem checkSig_safe (opcode : Nat) (m : Machine) : Safe (checkSig env opcode m) (Kept m) := by
  refine (need_safe m.stack 2).bind fun _ enough => ?_
  refine (stacktop_safe (by omega)).bind fun vchSig _ => ?_
  refine (stacktop_safe (by omega)).bind fun vchPubKey _ => ?_
  refine (pop_safe (by omega)).bind fun s shorter => ?_
  refine (pop_safe (by omega)).bind fun s' _ => ?_
  exact (pushBool_safe s' _ _).return fun _ _ => ⟨rfl,rfl⟩

theorem dropSignatures_safe {stack : Stack} {isig nSigsCount : Int} (scriptCode : CScript) (first : 1 ≤ isig)
    (within : isig+nSigsCount ≤ stack.length) : Safe (dropSignatures stack isig nSigsCount scriptCode) fun _ => True := by
  refine Sound.foldlM trivial fun scriptCode' _ k member => ?_
  have before : k < nSigsCount.toNat := List.mem_range.mp member
  exact (stacktop_safe (by omega)).return fun vchSig _ => trivial

/-- Both positions move on at most as often as there are signatures and keys left. -/
theorem checkSignatures_safe {stack : Stack} (scriptCode : CScript) {fuel : Nat} {fSuccess : Bool} {isig ikey nSigsCount nKeysCount : Int}
    (first : 1 ≤ isig ∧ 1 ≤ ikey) (sigs : isig+nSigsCount ≤ stack.length) (keys : ikey+nKeysCount ≤ stack.length)
    (left : fSuccess = true → nSigsCount ≤ nKeysCount) (fuelled : nKeysCount ≤ fuel) :
    Safe (checkSignatures env stack scriptCode fuel fSuccess isig ikey nSigsCount nKeysCount) fun _ => True := by
  induction fuel generalizing fSuccess isig ikey nSigsCount nKeysCount with
  | zero =>
    rw [checkSignatures]
    refine .ite (fun again => ?_) fun _ => .ok trivial
    rw [Bool.and_eq_true,decide_eq_true_eq] at again
    have atMost := left again.1
    omega
  | succ fuel ih =>
    rw [checkSignatures]
    refine .ite (fun again => ?_) fun _ => .ok trivial
    rw [Bool.and_eq_true,decide_eq_true_eq] at again
    have atMost := left again.1
    refine (stacktop_safe (by omega)).bind fun vchSig _ => ?_
    refine (stacktop_safe (by omega)).bind fun vchPubKey _ => ?_
    refine ih ?_ ?_ ?_ ?_ ?_
    · split <;> omega
    · split <;> omega
    · omega
    · intro success
      simpa using success
    · omega

theorem popAll_safe {n : Nat} {stack : Stack} (enough : n ≤ stack.length) : Safe (popAll n stack) fun _ => True := by
  induction n generalizing stack with
  | zero => exact .ok trivial
  | succ n ih => exact (popstack_safe (by omega)).bind fun s shorter => ih (by omega)

/-- The number of keys that the top of the stack announces. -/
def multisigKeys (stack : Stack) : Nat :=
  match stacktop stack (-1) >>= CastToBigNum with
  | .ok bnKeys => (getint bnKeys).toNat
  | .error _ => 0

theorem multisigKeys_of {stack : Stack} {top : valtype} {bnKeys : Int} (found : stacktop stack (-1) = .ok top)
    (number : CastToBigNum top = .ok bnKeys) : multisigKeys stack = (getint bnKeys).toNat := by
  have chained : stacktop stack (-1) >>= CastToBigNum = .ok bnKeys := by
    rw [found]
    exact number
  rw [multisigKeys,chained]

/-- The keys of a signature check with several are counted as operations. -/
def Charged (m m' : Machine) : Prop := m'.pc = m.pc ∧ m'.nOpCount = m.nOpCount+multisigKeys m.stack ∧ m'.nOpCount ≤ 201

theorem checkMultisig_safe (opcode : Nat) (m : Machine) : Safe (checkMultisig env opcode m) (Charged m) := by
  refine (need_safe m.stack 1).bind fun _ enough => ?_
  refine (stacktop_safe (by omega)).returned.bind fun top found => ?_
  refine (CastToBigNum_safe top).returned.bind fun bnKeys number => ?_
  have announced := multisigKeys_of found.1 number.1
  refine .ite (fun _ => .stop not_fault_refused) fun keys => ?_
  refine .ite (fun _ => .stop not_fault_refused) fun few => ?_
  refine (need_safe m.stack _).bind fun _ enoughKeys => ?_
  refine (stacktop_safe (by omega)).bind fun vch _ => ?_
  refine (CastToBigNum_safe vch).bind fun bnSigs _ => ?_
  refine .ite (fun _ => .stop not_fault_refused) fun sigs => ?_
  refine (need_safe m.stack _).bind fun _ enoughSigs => ?_
  refine (dropSignatures_safe m.pbegincodehash (by omega) (by omega)).bind fun scriptCode _ => ?_
  refine (checkSignatures_safe env scriptCode ⟨by omega,by omega⟩ (by omega) (by omega) (fun _ => by omega) (by omega)).bind fun fSuccess _ => ?_
  refine (popAll_safe (by omega)).bind fun s _ => ?_
  refine (pushBool_safe s _ _).return fun s' _ => ⟨rfl,?_,?_⟩
  · rw [announced]
  · exact Nat.le_of_not_lt few

/-! ### Control -/

theorem ifOrNotif_safe (opcode : Nat) (m : Machine) : Safe (ifOrNotif opcode m) (Kept m) := by
  refine .ite (fun _ => ?_) fun _ => .ok ⟨rfl,rfl⟩
  refine (need_safe m.stack 1).bind fun _ enough => ?_
  refine (stacktop_safe (by omega)).bind fun vch _ => ?_
  exact (pop_safe enough).return fun _ _ => ⟨rfl,rfl⟩

theorem opELSE_safe (m : Machine) : Safe (opELSE m) (Kept m) := by
  rw [opELSE]
  cases m.vfExec.getLast? with
  | none => exact .stop not_fault_refused
  | some last => exact .ok ⟨rfl,rfl⟩

theorem opENDIF_safe (m : Machine) : Safe (opENDIF m) (Kept m) := .ite (fun _ => .stop not_fault_refused) fun _ => .ok ⟨rfl,rfl⟩

theorem toAltStack_safe (m : Machine) : Safe (toAltStack m) (Kept m) := by
  refine (need_safe m.stack 1).bind fun _ enough => ?_
  refine (stacktop_safe (by omega)).bind fun vch _ => ?_
  exact (pop_safe enough).return fun _ _ => ⟨rfl,rfl⟩

theorem fromAltStack_safe (m : Machine) : Safe (fromAltStack m) (Kept m) := by
  refine (need_safe m.altstack 1).bind fun _ enough => ?_
  refine (stacktop_safe (by omega)).bind fun vch _ => ?_
  exact (pop_safe enough).return fun _ _ => ⟨rfl,rfl⟩

/-! ### The switch -/

theorem onStack_safe {f : Nat → Stack → Exec Stack} (safe : ∀ opcode stack, Safe (f opcode stack) fun _ => True) (opcode : Nat) (m : Machine) :
    Safe (onStack f opcode m) (Kept m) := (safe opcode m.stack).return fun _ _ => ⟨rfl,rfl⟩

/-- Every case of the switch checks the sizes of the stacks before it reaches into them. -/
theorem cases_safe : ∀ c ∈ cases env, ∀ opcode m, Safe (c.body opcode m) (Kept m) := by
  simp only [cases,List.forall_mem_cons]
  exact ⟨onStack_safe pushNumber_safe,fun _ m => .ok ⟨rfl,rfl⟩,ifOrNotif_safe,fun _ => opELSE_safe,fun _ => opENDIF_safe,
    onStack_safe fun _ => verify_safe,fun _ _ => .stop not_fault_refused,fun _ => toAltStack_safe,fun _ => fromAltStack_safe,
    onStack_safe fun _ => op2DROP_safe,onStack_safe fun _ => op2DUP_safe,onStack_safe fun _ => op3DUP_safe,
    onStack_safe fun _ => op2OVER_safe,onStack_safe fun _ => op2ROT_safe,onStack_safe fun _ => op2SWAP_safe,
    onStack_safe fun _ => opIFDUP_safe,onStack_safe fun _ => opDEPTH_safe,onStack_safe fun _ => opDROP_safe,
    onStack_safe fun _ => opDUP_safe,onStack_safe fun _ => opNIP_safe,onStack_safe fun _ => opOVER_safe,onStack_safe pickOrRoll_safe,
    onStack_safe fun _ => opROT_safe,onStack_safe fun _ => opSWAP_safe,onStack_safe fun _ => opTUCK_safe,
    onStack_safe fun _ => opSIZE_safe,onStack_safe equal_safe,onStack_safe unary_safe,onStack_safe binary_safe,
    onStack_safe fun _ => within_safe,onStack_safe (hash_safe env),fun _ m => .ok ⟨rfl,rfl⟩,checkSig_safe env,fun _ member => absurd member List.not_mem_nil⟩

/-- What an operation costs beyond its own place in the count. -/
def keysOf (opcode : Nat) (stack : Stack) : Nat := if isMultisig opcode then multisigKeys stack else 0

theorem switch_safe (opcode : Nat) (m : Machine) (few : m.nOpCount ≤ 201) :
    Safe (switch env opcode m) fun m' => m'.pc = m.pc ∧ m'.nOpCount = m.nOpCount+keysOf opcode m.stack ∧ m'.nOpCount ≤ 201 := by
  rw [switch,keysOf]
  split
  next multisig => exact checkMultisig_safe env opcode m
  next single =>
    split
    next c found =>
      refine (cases_safe env c (List.mem_of_find?_eq_some found) opcode m).mono fun m' kept => ⟨kept.1,kept.2,?_⟩
      rw [kept.2]
      exact few
    next => exact .stop not_fault_refused

/-! ### The loop -/

/-- What an iteration executes: an operation that is not a push of data or of a small
    number, and the keys of a signature check with several. -/
def executedOps (m : Machine) : Nat :=
  match GetOp m.pc with
  | none => 0
  | some (opcode,_,_) => if opcode > OP_16 ∧ m.executes opcode then 1+keysOf opcode m.stack else 0

/-- Both limits, at the start of an iteration. -/
structure Limited (m : Machine) : Prop where
  depth : m.stack.length+m.altstack.length ≤ 1000
  operations : m.nOpCount ≤ 201

theorem readSize_shortens {width nSize : Nat} {bytes rest : List UInt8} (got : CScript.readSize width bytes = some (nSize,rest)) :
    rest.length ≤ bytes.length := by
  rw [CScript.readSize] at got
  split at got
  next => contradiction
  next =>
    obtain ⟨-,rfl⟩ := Prod.mk.inj (Option.some.inj got)
    rw [List.length_drop]
    omega

theorem GetOp_shortens {script rest : CScript} {opcode : Nat} {vchPushValue : valtype} (got : GetOp script = some (opcode,vchPushValue,rest)) :
    rest.length < script.length := by
  cases script with
  | nil => contradiction
  | cons first after =>
    rw [GetOp] at got
    rw [List.length_cons]
    split at got
    next =>
      split at got
      next => contradiction
      next nSize data sized =>
        have atMost : data.length ≤ after.length := by
          split at sized
          next =>
            obtain ⟨-,rfl⟩ := Prod.mk.inj (Option.some.inj sized)
            exact le_rfl
          next =>
            split at sized
            next => exact readSize_shortens sized
            next =>
              split at sized
              next => exact readSize_shortens sized
              next => exact readSize_shortens sized
        split at got
        next => contradiction
        next =>
          obtain ⟨-,-,rfl⟩ := got
          rw [List.length_drop]
          omega
    next =>
      obtain ⟨-,-,rfl⟩ := got
      omega

/-- The end of an iteration: the size limits are checked after every operation. -/
theorem sized_safe {m : Machine} {x : Exec Machine} {pc : CScript} {added : Nat} (shorter : pc.length < m.pc.length)
    (done : Safe x fun m' => m'.pc = pc ∧ m.nOpCount+added ≤ m'.nOpCount ∧ m'.nOpCount ≤ 201) :
    Safe (do
      let m' ← x
      if m'.stack.length+m'.altstack.length > 1000 then .error .refused else return m')
      fun m' => Limited m' ∧ m.nOpCount+added ≤ m'.nOpCount ∧ m'.pc.length < m.pc.length := by
  refine done.bind fun m' ⟨samePc,counted,few⟩ => ?_
  refine .ite (fun _ => .stop not_fault_refused) fun sized => .ok ⟨⟨Nat.le_of_not_lt sized,few⟩,counted,?_⟩
  rw [samePc]
  exact shorter

/-- An iteration keeps the limits, counts what it executes and moves on. -/
theorem iterate_safe {m : Machine} (limited : Limited m) :
    Safe (iterate env m) fun m' => Limited m' ∧ m.nOpCount+m.executedOps ≤ m'.nOpCount ∧ m'.pc.length < m.pc.length := by
  rw [iterate,executedOps]
  cases got : GetOp m.pc with
  | none => exact .stop not_fault_refused
  | some op =>
    obtain ⟨opcode,vchPushValue,pc⟩ := op
    have shorter := GetOp_shortens got
    have few := limited.operations
    refine .ite (fun _ => .stop not_fault_refused) fun _ => ?_
    refine .ite (fun _ => .stop not_fault_refused) fun uncounted => ?_
    refine .ite (fun _ => .stop not_fault_refused) fun _ => ?_
    dsimp only
    generalize counting : (if opcode > OP_16 then m.nOpCount+1 else m.nOpCount) = nOpCount at uncounted ⊢
    have counted : m.nOpCount+(if opcode > OP_16 then 1 else 0) = nOpCount := by
      rw [← counting]
      split <;> rfl
    have still : nOpCount ≤ 201 := by
      split at counted
      next operation => exact Nat.le_of_not_lt fun many => uncounted ⟨operation,many⟩
      next => omega
    refine .ite (fun push => ?_) fun _ => .ite (fun executed => ?_) fun skipped => ?_
    · refine sized_safe shorter (.ok ⟨rfl,?_,still⟩)
      have data : ¬opcode > OP_16 := Nat.not_lt.mpr (push.2.trans (by decide))
      rw [if_neg fun counts => data counts.1]
      dsimp only
      omega
    · refine sized_safe shorter ((switch_safe env opcode _ still).mono fun m' ⟨samePc,cost,few'⟩ => ⟨samePc,?_,few'⟩)
      rw [cost]
      split
      next counts =>
        rw [if_pos counts.1] at counted
        dsimp only
        omega
      next =>
        dsimp only
        omega
    · refine sized_safe shorter (.ok ⟨rfl,?_,still⟩)
      rw [if_neg fun counts => skipped counts.2]
      dsimp only
      omega

/-- The states at the start of an iteration, and at the end of the loop, with the operations
    executed until then. -/
inductive Reaches (first : Machine) : Machine → Nat → Prop
  | start : Reaches first first 0
  | turn {m m' : Machine} {executed : Nat} (before : Reaches first m executed) (more : m.pc ≠ []) (passed : iterate env m = .ok m') :
      Reaches first m' (executed+m.executedOps)

variable {env}

/-- Along the loop, by the iterations that led there. -/
theorem Reaches.limited {first m : Machine} {executed : Nat} (reached : Reaches env first m executed) (begins : Limited first) :
    Limited m ∧ executed ≤ m.nOpCount := by
  induction reached with
  | start => exact ⟨begins,Nat.zero_le _⟩
  | turn before more passed ih =>
    obtain ⟨limited,counted,-⟩ := (iterate_safe env ih.1).result passed
    have soFar := ih.2
    exact ⟨limited,by omega⟩

/-- The loop ends within its fuel, in a state without operations left. -/
theorem loop_safe {first m : Machine} {executed fuel : Nat} (begins : Limited first) (reached : Reaches env first m executed)
    (fuelled : m.pc.length ≤ fuel) : Safe (loop env fuel m) fun m' => m'.pc = [] ∧ ∃ executed', Reaches env first m' executed' := by
  induction fuel generalizing m executed with
  | zero =>
    have ended : m.pc = [] := List.length_eq_zero_iff.mp (Nat.le_zero.mp fuelled)
    rw [loop,ended]
    exact .ok ⟨ended,executed,reached⟩
  | succ fuel ih =>
    rw [loop]
    refine .ite (fun ended => .ok ⟨List.isEmpty_iff.mp ended,executed,reached⟩) fun more => ?_
    refine (iterate_safe env (reached.limited begins).1).returned.bind fun m' ⟨passed,_,_,shorter⟩ => ?_
    exact ih (.turn reached (fun ended => more (List.isEmpty_iff.mpr ended)) passed) (by omega)

end Machine

open Machine

/-- Whatever the script and the values on the stack, both limits hold at the start of every
    iteration, no iteration reaches for a position that a stack does not have, and the loop
    comes to its end. -/
theorem EvalScript_limits (env : ScriptEnv) (script : CScript) {stack : Stack} (small : stack.length ≤ 1000) :
    (∀ m executed, Reaches env (start stack script) m executed →
      m.stack.length+m.altstack.length ≤ 1000 ∧ executed ≤ 201 ∧ ∀ halt, iterate env m = .error halt → ¬halt.fault) ∧
    (∀ halt, EvalScript env stack script = .error halt → ¬halt.fault) ∧
    ∀ stack', EvalScript env stack script = .ok stack' →
      ∃ m executed, Reaches env (start stack script) m executed ∧ m.pc = [] ∧ m.stack = stack' := by
  have begins : Limited (start stack script) := ⟨small,Nat.zero_le _⟩
  have evaluated : Safe (EvalScript env stack script) fun stack' =>
      ∃ m executed, Reaches env (start stack script) m executed ∧ m.pc = [] ∧ m.stack = stack' := by
    refine .ite (fun _ => .stop not_fault_refused) fun _ => ?_
    refine (loop_safe begins .start le_rfl).bind fun m ⟨ended,executed,reached⟩ => ?_
    exact .ite (fun _ => .ok ⟨m,executed,reached,ended,rfl⟩) fun _ => .stop not_fault_refused
  refine ⟨fun m executed reached => ?_,fun halt => evaluated.not_fault,fun stack' => evaluated.result⟩
  obtain ⟨limited,counted⟩ := reached.limited begins
  exact ⟨limited.depth,counted.trans limited.operations,fun halt => (iterate_safe env limited).not_fault⟩

/-- An environment without signatures, for a sample. -/
private def unsigned : ScriptEnv :=
  {fStrictEncodings := false,CheckSig := fun _ _ _ => false,RIPEMD160 := id,SHA1 := id,SHA256 := id,Hash160 := id,Hash := id}

/-- Pushes minus one and asks for the item there. -/
private def picksBelow : CScript := [0x4f,0x79]

/-- The state in front of its second operation. -/
private def beforePick : Machine := {pc := [0x79],stack := [[1],[0x81]],pbegincodehash := picksBelow}

theorem EvalScript_limits_pick : beforePick.stack.length+beforePick.altstack.length ≤ 1000 ∧ iterate unsigned beforePick = .error .refused ∧
    ¬Halt.fault .refused ∧ EvalScript unsigned [[1]] picksBelow = .error .refused := by
  have small : ([[1]] : Stack).length ≤ 1000 := by decide
  have limits := EvalScript_limits unsigned picksBelow small
  have reached : Reaches unsigned (start [[1]] picksBelow) beforePick _ := .turn .start (by decide) (by decide +kernel)
  have stops : iterate unsigned beforePick = .error .refused := by decide +kernel
  obtain ⟨depth,-,harmless⟩ := limits.1 beforePick _ reached
  exact ⟨depth,stops,harmless .refused stops,by decide +kernel⟩

end Tetra
