import Tetra.BigNum
import Tetra.Multisig
import Tetra.Queries

/-!
What the count of signature operations of a script is for: running the script checks no
more signatures than it counts.
-/
namespace Tetra
open CScript Guarded Positional Queries

/-- The environment with these answers to signature checks. -/
def ScriptEnv.answering (env : ScriptEnv) (CheckSig : valtype × valtype × CScript → Bool) : ScriptEnv :=
  {env with CheckSig := fun vchSig vchPubKey scriptCode => CheckSig (vchSig,vchPubKey,scriptCode)}

namespace Machine

variable {env : ScriptEnv} {o : valtype × valtype × CScript → Bool}

/-! ### One operation -/

theorem signs_asks (vchSig vchPubKey : valtype) (scriptCode : CScript) :
    Asks (fun o => signs (env.answering o) vchSig vchPubKey scriptCode) o 1 :=
  Asks.once (vchSig,vchPubKey,scriptCode) fun answer =>
    (!env.fStrictEncodings || IsCanonicalSignature vchSig && IsCanonicalPubKey vchPubKey) && answer

theorem checkSig_asks (opcode : Nat) (m : Machine) : Asks (fun o => checkSig (env.answering o) opcode m) o 1 := by
  refine Asks.after fun _ _ => Asks.after fun vchSig _ => Asks.after fun vchPubKey _ => Asks.after fun stack _ => Asks.after fun stack' _ => ?_
  have answered := (@signs_asks env o vchSig vchPubKey (FindAndDelete m.pbegincodehash (pushValue vchSig))).map
    (pushBool stack' (opcode == OP_CHECKSIGVERIFY))
  exact answered.bind fun stack _ => Asks.never (n := 0) (Except.ok {m with stack})

/-- Each turn of the loop asks for one signature. -/
theorem checkSignatures_asks (stack : Stack) (scriptCode : CScript) (fuel : Nat) (fSuccess : Bool) (isig ikey nSigsCount nKeysCount : Int) :
    Asks (fun o => checkSignatures (env.answering o) stack scriptCode fuel fSuccess isig ikey nSigsCount nKeysCount) o fuel := by
  induction fuel generalizing fSuccess isig ikey nSigsCount nKeysCount with
  | zero =>
    simp only [checkSignatures]
    exact Asks.never _
  | succ fuel ih =>
    simp only [checkSignatures]
    refine Asks.ite (fun _ => ?_) fun _ => Asks.never _
    refine Asks.after fun vchSig _ => Asks.after fun vchPubKey _ => ?_
    obtain ⟨asked,few,same⟩ := @signs_asks env o vchSig vchPubKey scriptCode
    generalize isOk : signs (env.answering o) vchSig vchPubKey scriptCode = fOk at same
    obtain ⟨asked',few',same'⟩ := ih (!((if fOk then nSigsCount-1 else nSigsCount) > nKeysCount-1)) (if fOk then isig+1 else isig) (ikey+1)
      (if fOk then nSigsCount-1 else nSigsCount) (nKeysCount-1)
    refine ⟨asked ++ asked',by rw [List.length_append]; omega,fun o' agree => ?_⟩
    have first := same o' fun q member => agree q (List.mem_append_left asked' member)
    have rest := same' o' fun q member => agree q (List.mem_append_right asked member)
    dsimp only at first rest ⊢
    rw [first,isOk]
    exact rest

/-- More than twenty keys are turned down before any signature is looked at. -/
def multisigChecks (stack : Stack) : Nat := if multisigKeys stack ≤ 20 then multisigKeys stack else 0

theorem checkMultisig_asks (opcode : Nat) (m : Machine) : Asks (fun o => checkMultisig (env.answering o) opcode m) o (multisigChecks m.stack) := by
  refine Asks.after fun _ _ => Asks.after fun top found => Asks.after fun bnKeys number => ?_
  have announced := multisigKeys_of found number
  refine Asks.ite (fun _ => Asks.never _) fun keys => Asks.ite (fun _ => Asks.never _) fun _ => ?_
  refine Asks.after fun _ _ => Asks.after fun vch _ => Asks.after fun bnSigs _ => ?_
  refine Asks.ite (fun _ => Asks.never _) fun _ => Asks.after fun _ _ => Asks.after fun scriptCode _ => ?_
  have few : multisigChecks m.stack = (getint bnKeys).toNat := by
    rw [multisigChecks,announced,if_pos (by omega)]
  rw [few,← Nat.add_zero (getint bnKeys).toNat]
  exact (checkSignatures_asks m.stack scriptCode ..).bind fun fSuccess _ => Asks.never _

/-! ### The switch -/

theorem cases_eq (env : ScriptEnv) : cases env = (cases env).dropLast ++ [⟨[OP_CHECKSIG,OP_CHECKSIGVERIFY],checkSig env⟩] := rfl

theorem switch_checkSig (env : ScriptEnv) {opcode : Nat} (single : opcode = OP_CHECKSIG ∨ opcode = OP_CHECKSIGVERIFY) (m : Machine) :
    switch env opcode m = checkSig env opcode m := by
  rcases single with rfl | rfl
  · simp only [switch,cases,List.find?_cons,isMultisig,List.contains_cons,List.contains_nil]
    rfl
  · simp only [switch,cases,List.find?_cons,isMultisig,List.contains_cons,List.contains_nil]
    rfl

/-- Only the signature checks look at signatures. -/
theorem switch_other (env : ScriptEnv) (o : valtype × valtype × CScript → Bool) {opcode : Nat} (one : opcode ≠ OP_CHECKSIG ∧ opcode ≠ OP_CHECKSIGVERIFY)
    (many : isMultisig opcode = false) (m : Machine) : switch (env.answering o) opcode m = switch env opcode m := by
  have last (env : ScriptEnv) : (cases env).find? (fun c => c.labels.contains opcode) =
      (cases env).dropLast.find? fun c => c.labels.contains opcode := by
    rw [cases_eq,List.find?_append,List.dropLast_concat]
    have none : [(⟨[OP_CHECKSIG,OP_CHECKSIGVERIFY],checkSig env⟩ : Case)].find? (fun c => c.labels.contains opcode) = none := by
      simp [one]
    rw [none,Option.or_none]
  have same : (cases (env.answering o)).dropLast = (cases env).dropLast := rfl
  rw [switch,switch,many,last,last,same,if_neg Bool.false_ne_true,if_neg Bool.false_ne_true]

/-- The signatures that an operation asks for. -/
def sigChecks (opcode : Nat) (stack : Stack) : Nat :=
  if opcode = OP_CHECKSIG ∨ opcode = OP_CHECKSIGVERIFY then 1 else if isMultisig opcode then multisigChecks stack else 0

theorem switch_asks (opcode : Nat) (m : Machine) : Asks (fun o => switch (env.answering o) opcode m) o (sigChecks opcode m.stack) := by
  rw [sigChecks]
  split
  next single =>
    simp only [switch_checkSig _ single]
    exact checkSig_asks opcode m
  next other =>
    rw [not_or] at other
    split
    next many =>
      simp only [switch,many,if_true]
      exact checkMultisig_asks opcode m
    next few =>
      have few : isMultisig opcode = false := by simpa using few
      simp only [switch_other env _ other few]
      exact Asks.never _

/-! ### The loop against the count -/

/-- The operation in front of an iteration, and that a small number that it pushed is on top
    of the stack. -/
def Follows (lastOpcode : Nat) (m : Machine) : Prop :=
  m.fExec = true → OP_1 ≤ lastOpcode → lastOpcode ≤ OP_16 → m.stack.getLast? = some (getvch (lastOpcode-(OP_1-1) : Nat))

theorem small_number {n : Nat} (low : n < 128) : CastToBigNum (getvch n) = .ok n ∧ getint n = n := by
  have value (x : Int) : setvch (getvch x) = x := by rw [setvch_eq,getvch_eq,List.reverse_reverse,signedValue_signedBytes]
  have bytes : (bytesOf (n : Int).natAbs).length ≤ 1 := bytesOf_length_le (by simp; omega)
  have short : ¬(getvch n).length > nMaxNumSize := by
    have signs := signed_length_le (decide ((n : Int) < 0)) (bytesOf (n : Int).natAbs).reverse
    rw [List.length_reverse] at signs
    rw [getvch_eq,List.length_reverse,signedBytes,nMaxNumSize]
    omega
  refine ⟨by rw [CastToBigNum,if_neg short,value,value],?_⟩
  rw [getint,if_pos (by omega)]
  omega

/-- The accurate count knows the number of the keys when it is pushed right before. -/
theorem sigChecks_counted {lastOpcode opcode : Nat} {m : Machine} (follows : Follows lastOpcode m) (executed : m.executes opcode = true) :
    sigChecks opcode m.stack ≤ if opcode = OP_CHECKSIG ∨ opcode = OP_CHECKSIGVERIFY then 1
      else if opcode = OP_CHECKMULTISIG ∨ opcode = OP_CHECKMULTISIGVERIFY then
        if true ∧ OP_1 ≤ lastOpcode ∧ lastOpcode ≤ OP_16 then lastOpcode-(OP_1-1) else 20
      else 0 := by
  rw [sigChecks]
  split
  next => exact le_rfl
  next =>
    by_cases many : opcode = OP_CHECKMULTISIG ∨ opcode = OP_CHECKMULTISIGVERIFY
    · have multisig : isMultisig opcode = true := by simpa [isMultisig] using many
      rw [if_pos multisig,if_pos many,multisigChecks]
      split
      next few =>
        split
        next pushed =>
          have control : ¬(OP_IF ≤ opcode ∧ opcode ≤ OP_ENDIF) := by
            rcases many with rfl | rfl
            · decide
            · decide
          have active : m.fExec = true := by simpa [executes,control] using executed
          have top := follows active pushed.2.1 pushed.2.2
          have low : lastOpcode-(OP_1-1) ≤ 16 := by
            have high := pushed.2.2
            simp only [OP_1,OP_16] at high ⊢
            omega
          obtain ⟨number,value⟩ := small_number (show lastOpcode-(OP_1-1) < 128 by omega)
          have found : stacktop m.stack (-1) = .ok (getvch (lastOpcode-(OP_1-1) : Nat)) :=
            stacktop_eq (k := 0) (by rw [← List.head?_eq_getElem?,List.head?_reverse,top]) rfl
          rw [multisigKeys_of found number,value,Int.toNat_natCast]
        next => exact few
      next => exact Nat.zero_le _
    · have single : isMultisig opcode = false := by simpa [isMultisig] using many
      rw [single,if_neg Bool.false_ne_true]
      exact Nat.zero_le _

/-- The machine when an operation has been read. -/
def fetched (m : Machine) (opcode : Nat) (rest : CScript) : Machine :=
  {m with pc := rest,nOpCount := if opcode > OP_16 then m.nOpCount+1 else m.nOpCount}

/-- What an iteration does with an operation that passes the checks in front. -/
def perform (env : ScriptEnv) (opcode : Nat) (data : valtype) (m : Machine) : Exec Machine :=
  if m.fExec ∧ opcode ≤ OP_PUSHDATA4 then .ok {m with stack := m.stack ++ [data]}
  else if m.executes opcode then switch env opcode m
  else .ok m

/-- The size check behind it. -/
def sized (m : Machine) : Exec Machine := if m.stack.length+m.altstack.length > 1000 then .error .refused else .ok m

theorem iterate_eq (env : ScriptEnv) {m : Machine} {opcode : Nat} {data : valtype} {rest : CScript} (got : GetOp m.pc = some (opcode,data,rest)) :
    iterate env m =
      if data.length > MAX_SCRIPT_ELEMENT_SIZE then .error .refused
      else if opcode > OP_16 ∧ (m.fetched opcode rest).nOpCount > 201 then .error .refused
      else if disabled.contains opcode then .error .refused
      else perform env opcode data (m.fetched opcode rest) >>= sized := by
  rw [iterate,got]
  refine if_congr Iff.rfl rfl (if_congr Iff.rfl rfl (if_congr Iff.rfl rfl ?_))
  rw [perform,← fetched]
  by_cases push : (m.fetched opcode rest).fExec ∧ opcode ≤ OP_PUSHDATA4
  · rw [if_pos push,if_pos push]
    rfl
  rw [if_neg push,if_neg push]
  by_cases executed : (m.fetched opcode rest).executes opcode = true
  · rw [if_pos executed,if_pos executed]
    rfl
  · rw [if_neg executed,if_neg executed]
    rfl

theorem iterate_asks {m : Machine} {opcode : Nat} {data : valtype} {rest : CScript} (got : GetOp m.pc = some (opcode,data,rest)) :
    Asks (fun o => iterate (env.answering o) m) o (if m.executes opcode then sigChecks opcode m.stack else 0) := by
  simp only [iterate_eq _ got]
  refine Asks.ite (fun _ => Asks.never _) fun _ => Asks.ite (fun _ => Asks.never _) fun _ => Asks.ite (fun _ => Asks.never _) fun _ => ?_
  refine Asks.bind (g := fun _ => sized) (m := 0) ?_ fun m' _ => Asks.never _
  refine Asks.ite (fun _ => Asks.never _) fun _ => Asks.ite (fun executed => ?_) fun _ => Asks.never _
  have same : m.executes opcode = true := executed
  rw [same]
  exact switch_asks opcode (m.fetched opcode rest)

theorem switch_pc {m m' : Machine} {opcode : Nat} (done : switch env opcode m = .ok m') : m'.pc = m.pc := by
  rw [switch] at done
  split at done
  next => exact ((checkMultisig_safe env opcode m).result done).1
  next =>
    split at done
    next c found => exact ((cases_safe env c (List.mem_of_find?_eq_some found) opcode m).result done).1
    next => contradiction

theorem switch_number {m : Machine} {opcode : Nat} (number : opcode = OP_1NEGATE ∨ OP_1 ≤ opcode ∧ opcode ≤ OP_16) :
    switch env opcode m = .ok {m with stack := m.stack ++ [getvch ((opcode : Int)-(OP_1-1 : Nat))]} := by
  have single : isMultisig opcode = false := by
    simp only [isMultisig,OP_1NEGATE,OP_1,OP_16,OP_CHECKMULTISIG,OP_CHECKMULTISIGVERIFY] at number ⊢
    rw [beq_eq_false_iff_ne.mpr (by omega),beq_eq_false_iff_ne.mpr (by omega)]
    rfl
  have listed : (OP_1NEGATE :: List.range' OP_1 16).contains opcode = true := by
    rw [List.contains_iff_mem]
    refine number.elim (fun same => same ▸ List.mem_cons_self ..) fun ⟨low,high⟩ => List.mem_cons_of_mem _ (List.mem_range'_1.mpr ⟨low,?_⟩)
    simp only [OP_1,OP_16] at high ⊢
    omega
  rw [switch,single,if_neg Bool.false_ne_true,cases,List.find?_cons]
  simp only [listed]
  rfl

theorem iterate_follows {m m' : Machine} {opcode : Nat} {data : valtype} {rest : CScript} (got : GetOp m.pc = some (opcode,data,rest))
    (passed : iterate env m = .ok m') : m'.pc = rest ∧ Follows opcode m' := by
  rw [iterate_eq env got] at passed
  split at passed
  · contradiction
  split at passed
  · contradiction
  split at passed
  · contradiction
  obtain ⟨after,done,checked⟩ := bind_ok.mp passed
  rw [sized] at checked
  split at checked
  · contradiction
  obtain rfl := Except.ok.inj checked
  rw [perform] at done
  split at done
  next push =>
    obtain rfl := Except.ok.inj done
    refine ⟨rfl,fun _ low _ => absurd (low.trans push.2) (by decide)⟩
  next =>
    split at done
    next executed =>
      refine ⟨switch_pc done,fun active low high => ?_⟩
      have number : (opcode : Int)-((OP_1-1 : Nat) : Int) = (opcode-(OP_1-1) : Nat) := by
        simp only [OP_1] at low ⊢
        omega
      rw [switch_number (.inr ⟨low,high⟩),number] at done
      obtain rfl := Except.ok.inj done
      rw [List.getLast?_concat]
    next skipped =>
      obtain rfl := Except.ok.inj done
      refine ⟨rfl,fun active _ _ => absurd ?_ skipped⟩
      rw [executes,active]
      rfl

/-- Along the loop, with the operations that are left to count. -/
theorem loop_asks {fuel counting lastOpcode : Nat} {m : Machine} (follows : Follows lastOpcode m) (enough : m.pc.length ≤ counting) :
    Asks (fun o => loop (env.answering o) fuel m) o (countSigOps true counting lastOpcode m.pc) := by
  induction fuel generalizing counting lastOpcode m with
  | zero =>
    simp only [loop]
    exact Asks.never _
  | succ fuel ih =>
    simp only [loop]
    refine Asks.ite (fun _ => Asks.never _) fun more => ?_
    cases got : GetOp m.pc with
    | none =>
      simp only [iterate,got]
      exact Asks.never (Except.error Halt.refused)
    | some op =>
      obtain ⟨opcode,data,rest⟩ := op
      have shorter := GetOp_shortens got
      obtain ⟨counting,rfl⟩ : ∃ less, counting = less+1 := ⟨counting-1,by omega⟩
      rw [countSigOps,got]
      refine ((iterate_asks got).mono ?_).bind fun m' passed => ?_
      · split
        next executed => exact sigChecks_counted follows executed
        next => exact Nat.zero_le _
      · obtain ⟨left,next⟩ := iterate_follows got passed
        rw [← left] at shorter ⊢
        exact ih next (by omega)

end Machine

open Machine

/-- Running a script asks for no more signatures than its accurate count. -/
theorem EvalScript_asks (env : ScriptEnv) (o : valtype × valtype × CScript → Bool) (stack : Stack) (script : CScript) :
    Asks (fun o => EvalScript (env.answering o) stack script) o (GetSigOpCount script true) := by
  refine Asks.ite (fun _ => Asks.never _) fun _ => ?_
  have none : Follows OP_INVALIDOPCODE (start stack script) := fun _ _ high => absurd high (by decide)
  rw [← Nat.add_zero (GetSigOpCount script true)]
  refine (loop_asks none le_rfl).bind fun m _ => ?_
  exact Asks.never (if m.vfExec.isEmpty then Except.ok m.stack else Except.error Halt.refused)

/-- The count that goes without the numbers of keys is never lower. -/
theorem GetSigOpCount_accurate (script : CScript) : GetSigOpCount script true ≤ GetSigOpCount script false := by
  have along (fuel lastOpcode : Nat) (script : CScript) : countSigOps true fuel lastOpcode script ≤ countSigOps false fuel lastOpcode script := by
    induction fuel generalizing lastOpcode script with
    | zero => exact le_rfl
    | succ fuel ih =>
      rw [countSigOps,countSigOps]
      cases got : GetOp script with
      | none => exact le_rfl
      | some op =>
        refine Nat.add_le_add ?_ (ih ..)
        split
        next => exact le_rfl
        next =>
          split
          next =>
            split
            next small =>
              have high := small.2.2
              simp only [OP_1,OP_16] at high ⊢
              simp
              omega
            next => simp
          next => exact le_rfl
  exact along ..

end Tetra
