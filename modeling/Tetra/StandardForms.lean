import Tetra.Spending

/-!
The standard forms of an output's script, read back from what `Solver` finds, and what an
input has to leave for `VerifyScript` to accept it with an output of each form.
-/
namespace Tetra
open CScript Guarded Machine Matching
open txnouttype

namespace CScript

theorem readSize_length {n nSize : Nat} {bytes rest : List UInt8} (sized : readSize n bytes = some (nSize,rest)) : bytes.length ≤ rest.length+n := by
  rw [readSize] at sized
  split at sized
  · contradiction
  · obtain ⟨-,rfl⟩ := Prod.mk.inj (Option.some.inj sized)
    rw [List.length_drop]
    omega

/-- An operation takes at most five bytes beside its data. -/
theorem GetOp_length {script rest : CScript} {opcode : Nat} {data : valtype} (got : GetOp script = some (opcode,data,rest)) :
    script.length ≤ data.length+5+rest.length := by
  cases script with
  | nil => contradiction
  | cons first after =>
    rw [GetOp] at got
    rw [List.length_cons]
    split at got
    next =>
      split at got
      next => contradiction
      next nSize behind sized =>
        have header : after.length ≤ behind.length+4 := by
          split at sized
          next =>
            obtain ⟨-,rfl⟩ := Prod.mk.inj (Option.some.inj sized)
            omega
          next =>
            split at sized
            next => exact (readSize_length sized).trans (by omega)
            next =>
              split at sized
              next => exact (readSize_length sized).trans (by omega)
              next => exact readSize_length sized
        split at got
        next => contradiction
        next =>
          obtain ⟨-,rfl,rfl⟩ := got
          rw [List.length_take,List.length_drop]
          omega
    next =>
      obtain ⟨-,rfl,rfl⟩ := got
      omega

end CScript

namespace Machine

theorem reads_append {script rest : CScript} {ops ops' : List (Nat × valtype)} :
    Reads script (ops ++ ops') rest ↔ ∃ between, Reads script ops between ∧ Reads between ops' rest := by
  induction ops generalizing script with
  | nil => exact ⟨fun reads => ⟨script,rfl,reads⟩,fun ⟨_,same,reads⟩ => same ▸ reads⟩
  | cons op ops ih =>
    constructor
    · rintro ⟨after,got,reads⟩
      obtain ⟨between,front,behind⟩ := ih.mp reads
      exact ⟨between,⟨after,got,front⟩,behind⟩
    · rintro ⟨between,⟨after,got,front⟩,behind⟩
      exact ⟨after,got,ih.mpr ⟨between,front,behind⟩⟩

theorem reads_length {script rest : CScript} {ops : List (Nat × valtype)} {most : Nat} (sized : ∀ op ∈ ops, op.2.length ≤ most)
    (reads : Reads script ops rest) : script.length ≤ ops.length*(most+5)+rest.length := by
  induction ops generalizing script with
  | nil => simp [show script = rest from reads]
  | cons op ops ih =>
    obtain ⟨after,got,reads⟩ := reads
    have first := GetOp_length got
    have size := sized op (List.mem_cons_self ..)
    have behind := ih (fun other member => sized other (List.mem_cons_of_mem _ member)) reads
    rw [List.length_cons,Nat.succ_mul]
    omega

end Machine

namespace Solver

/-! ### Comparisons that succeed -/

section
variable {fuel opcode : Nat} {pc1 rest2 : CScript} {vSolutions result : List valtype}

theorem compare_done (ended : compare fuel pc1 [] vSolutions = some result) : pc1 = [] ∧ result = vSolutions := by
  cases fuel with
  | zero => contradiction
  | succ fuel =>
    rw [compare] at ended
    cases pc1 with
    | nil => exact ⟨rfl,(Option.some.inj ended).symm⟩
    | cons first after =>
      cases got : GetOp (first :: after) with
      | none => simp [got] at ended
      | some op => simp [GetOp] at ended

theorem compare_op (above : OP_PUSHDATA4 < opcode) (fits : opcode < 256) (plain : opcode ≠ OP_PUBKEYS)
    (same : compare (fuel+1) pc1 (UInt8.ofNat opcode :: rest2) vSolutions = some result) :
    ∃ op1 vSolutions', GetOp pc1 = some op1 ∧ matchOp op1 (opcode,[],rest2) vSolutions = some vSolutions' ∧
      compare fuel op1.2.2 rest2 vSolutions' = some result := by
  cases got : GetOp pc1 with
  | none =>
    rw [compare,got] at same
    simp at same
  | some op1 =>
    rw [compare_step got (GetOp_plain above fits rest2) plain] at same
    obtain ⟨vSolutions',matched,rest⟩ := Option.bind_eq_some_iff.mp same
    exact ⟨op1,vSolutions',rfl,matched,rest⟩

/-- An operation that the template has as it is. -/
theorem matchOp_plain {op1 : Op} {vSolutions' : List valtype} (low : opcode < OP_SMALLINTEGER)
    (matched : matchOp op1 (opcode,[],rest2) vSolutions = some vSolutions') : op1.1 = opcode ∧ op1.2.1 = [] ∧ vSolutions' = vSolutions := by
  have apart : opcode ≠ OP_PUBKEY ∧ opcode ≠ OP_PUBKEYHASH ∧ opcode ≠ OP_SMALLINTEGER := by
    simp only [OP_SMALLINTEGER,OP_PUBKEY,OP_PUBKEYHASH] at low ⊢
    omega
  rw [matchOp,if_neg apart.1,if_neg apart.2.1,if_neg apart.2.2] at matched
  split at matched
  · contradiction
  next same =>
    rw [not_or,not_not,not_not] at same
    exact ⟨same.1,same.2,(Option.some.inj matched).symm⟩

theorem compare_plain (above : OP_PUSHDATA4 < opcode) (low : opcode < OP_SMALLINTEGER)
    (same : compare (fuel+1) pc1 (UInt8.ofNat opcode :: rest2) vSolutions = some result) :
    ∃ after, GetOp pc1 = some (opcode,[],after) ∧ compare fuel after rest2 vSolutions = some result := by
  have apart : opcode ≠ OP_PUBKEYS := fun same => absurd (same ▸ low) (by decide)
  obtain ⟨⟨opcode1,data,after⟩,vSolutions',got,matched,rest⟩ := compare_op above (low.trans (by decide)) apart same
  obtain ⟨rfl,rfl,rfl⟩ := matchOp_plain low matched
  exact ⟨after,got,rest⟩

/-- Data is what a push has. -/
theorem pushes {opcode : Nat} {data : valtype} {rest : CScript} (got : GetOp pc1 = some (opcode,data,rest)) (some : data ≠ []) : opcode ≤ OP_PUSHDATA4 :=
  Nat.le_of_not_lt fun above => some (GetOp_data got above)

/-- The keys are pushed one after the other, and the operation behind them is the one returned. -/
theorem takeKeys_reads {fuel : Nat} {op1 last : Op} {found : List valtype} (got : GetOp pc1 = some op1)
    (taken : takeKeys fuel op1 vSolutions = (last,found)) (valid : last.1 ≠ OP_INVALIDOPCODE) :
    ∃ keys behind, Machine.Reads pc1 keys behind ∧ GetOp behind = some last ∧ found = vSolutions ++ keys.map Prod.snd ∧
      ∀ key ∈ keys, key.1 ≤ OP_PUSHDATA4 ∧ keySized key.2 = true := by
  induction fuel generalizing pc1 op1 vSolutions with
  | zero =>
    obtain ⟨rfl,rfl⟩ := Prod.mk.inj taken
    exact ⟨[],pc1,rfl,got,by simp,nofun⟩
  | succ fuel ih =>
    rw [takeKeys] at taken
    split at taken
    next sized =>
      cases behind : GetOp op1.2.2 with
      | none =>
        rw [behind] at taken
        exact absurd (congrArg (fun taken => taken.1.1) taken).symm valid
      | some op =>
        rw [behind] at taken
        obtain ⟨keys,after,reads,got',rfl,each⟩ := ih behind taken
        refine ⟨(op1.1,op1.2.1) :: keys,after,⟨op1.2.2,got,reads⟩,got',by simp,?_⟩
        have some : op1.2.1 ≠ [] := by
          intro none
          rw [none] at sized
          contradiction
        intro key member
        rcases List.mem_cons.mp member with rfl | member
        · exact ⟨pushes got some,sized⟩
        · exact each key member
    next =>
      obtain ⟨rfl,rfl⟩ := Prod.mk.inj taken
      exact ⟨[],pc1,rfl,got,by simp,nofun⟩

/-- A number of the template stands for one of the operations that push numbers. -/
theorem matchOp_number {op1 : Op} {vSolutions' : List valtype}
    (matched : matchOp op1 (OP_SMALLINTEGER,[],rest2) vSolutions = some vSolutions') :
    ∃ n, n ≤ 16 ∧ op1.1 = (if n = 0 then OP_0 else OP_1-1+n) ∧ vSolutions' = vSolutions ++ [[UInt8.ofNat n]] := by
  rw [matchOp,if_neg (by dsimp only; decide),if_neg (by dsimp only; decide),if_pos rfl] at matched
  split at matched
  next number =>
    rw [DecodeOP_N] at matched
    rcases number with none | ⟨least,most⟩
    · rw [if_pos none] at matched
      exact ⟨0,by decide,none,(Option.some.inj matched).symm⟩
    · have some : op1.1 ≠ OP_0 := fun none => absurd (none ▸ least) (by decide)
      rw [if_neg some,if_pos ⟨least,most⟩] at matched
      obtain ⟨n,value⟩ : ∃ n, op1.1 = OP_1-1+n := ⟨op1.1-(OP_1-1),by simp only [OP_1] at least ⊢; omega⟩
      rw [value] at least most matched ⊢
      simp only [OP_1,OP_16] at least most
      rw [Nat.add_sub_cancel_left] at matched
      exact ⟨n,by omega,(if_neg (by omega)).symm,(Option.some.inj matched).symm⟩
  next => contradiction

end

/-! ### The three templates -/

section
variable {script : CScript} {vSolutions : List valtype}

theorem compare_key {fuel : Nat} (same : compare fuel script (ofOpcodes [OP_PUBKEY,OP_CHECKSIG]) [] = some vSolutions) (enough : fuel = 3) :
    ∃ push key, Machine.Reads script [(push,key),(OP_CHECKSIG,[])] [] ∧ push ≤ OP_PUSHDATA4 ∧ keySized key = true ∧ vSolutions = [key] := by
  subst enough
  obtain ⟨⟨push,key,after⟩,found,got,matched,same⟩ := @compare_op _ OP_PUBKEY _ _ _ _ (by decide) (by decide) (by decide) same
  obtain ⟨behind,check,ended⟩ := @compare_plain _ OP_CHECKSIG _ [] _ _ (by decide) (by decide) same
  obtain ⟨rfl,rfl⟩ := compare_done ended
  rw [matchOp,if_pos rfl] at matched
  split at matched
  next sized =>
    have some : key ≠ [] := by
      rintro rfl
      contradiction
    obtain rfl := Option.some.inj matched
    exact ⟨push,key,⟨after,got,[],check,rfl⟩,pushes got some,sized,rfl⟩
  next => contradiction

theorem compare_keyhash {fuel : Nat}
    (same : compare fuel script (ofOpcodes [OP_DUP,OP_HASH160,OP_PUBKEYHASH,OP_EQUALVERIFY,OP_CHECKSIG]) [] = some vSolutions) (enough : fuel = 6) :
    ∃ push hash, Machine.Reads script [(OP_DUP,[]),(OP_HASH160,[]),(push,hash),(OP_EQUALVERIFY,[]),(OP_CHECKSIG,[])] [] ∧ push ≤ OP_PUSHDATA4 ∧
      hash.length = 20 ∧ vSolutions = [hash] := by
  subst enough
  obtain ⟨r1,dup,same⟩ := @compare_plain _ OP_DUP _ _ _ _ (by decide) (by decide) same
  obtain ⟨r2,hash160,same⟩ := @compare_plain _ OP_HASH160 _ _ _ _ (by decide) (by decide) same
  obtain ⟨⟨push,hash,r3⟩,found,got,matched,same⟩ := @compare_op _ OP_PUBKEYHASH _ _ _ _ (by decide) (by decide) (by decide) same
  obtain ⟨r4,compared,same⟩ := @compare_plain _ OP_EQUALVERIFY _ _ _ _ (by decide) (by decide) same
  obtain ⟨r5,check,ended⟩ := @compare_plain _ OP_CHECKSIG _ [] _ _ (by decide) (by decide) same
  obtain ⟨rfl,rfl⟩ := compare_done ended
  rw [matchOp,if_neg (by dsimp only; decide),if_pos rfl] at matched
  split at matched
  next sized =>
    have some : hash ≠ [] := by
      rintro rfl
      contradiction
    obtain rfl := Option.some.inj matched
    exact ⟨push,hash,⟨r1,dup,r2,hash160,r3,got,r4,compared,[],check,rfl⟩,pushes got some,sized,rfl⟩
  next => contradiction

/-- A number other than 0 has no data, and its operation pushes it. -/
theorem number_op {opcode n : Nat} {data : valtype} {pc rest : CScript} (got : GetOp pc = some (opcode,data,rest))
    (value : opcode = if n = 0 then OP_0 else OP_1-1+n) (least : 1 ≤ n) : GetOp pc = some (OP_1-1+n,[],rest) := by
  rw [if_neg (by omega)] at value
  obtain rfl := GetOp_data got (by rw [value]; simp only [OP_1,OP_PUSHDATA4]; omega)
  rw [got,value]

theorem compare_multisig_reads {fuel : Nat}
    (same : compare fuel script (ofOpcodes [OP_SMALLINTEGER,OP_PUBKEYS,OP_SMALLINTEGER,OP_CHECKMULTISIG]) [] = some vSolutions) (enough : fuel = 5)
    (checked : counted vSolutions = true) :
    ∃ m keys, 1 ≤ m ∧ m ≤ keys.length ∧ keys.length ≤ 16 ∧
      Machine.Reads script ((OP_1-1+m,[]) :: (keys ++ [(OP_1-1+keys.length,[]),(OP_CHECKMULTISIG,[])])) [] ∧
      (∀ key ∈ keys, key.1 ≤ OP_PUSHDATA4 ∧ keySized key.2 = true) ∧
      vSolutions = [UInt8.ofNat m] :: (keys.map Prod.snd ++ [[UInt8.ofNat keys.length]]) := by
  subst enough
  obtain ⟨⟨op1,data1,r1⟩,found,got1,matched,same⟩ := @compare_op _ OP_SMALLINTEGER _ _ _ _ (by decide) (by decide) (by decide) same
  obtain ⟨m,small,first,rfl⟩ := matchOp_number matched
  have template : ofOpcodes [OP_PUBKEYS,OP_SMALLINTEGER,OP_CHECKMULTISIG] =
      UInt8.ofNat OP_PUBKEYS :: UInt8.ofNat OP_SMALLINTEGER :: ofOpcodes [OP_CHECKMULTISIG] := rfl
  change compare (3+1) r1 (ofOpcodes [OP_PUBKEYS,OP_SMALLINTEGER,OP_CHECKMULTISIG]) _ = _ at same
  rw [template,List.nil_append] at same
  cases got2 : GetOp r1 with
  | none =>
    rw [compare,got2] at same
    simp at same
  | some op2 =>
    obtain ⟨⟨opcode,data3,r3⟩,taken,split⟩ : ∃ last taken, takeKeys (r1.length+1) op2 [[UInt8.ofNat m]] = (last,taken) := ⟨_,_,rfl⟩
    rw [compare_keys got2 (@GetOp_plain OP_PUBKEYS (by decide) (by decide) _) rfl split
      (@GetOp_plain OP_SMALLINTEGER (by decide) (by decide) _)] at same
    obtain ⟨found,matched,same⟩ := Option.bind_eq_some_iff.mp same
    obtain ⟨n,small',second,rfl⟩ := matchOp_number matched
    obtain ⟨behind,check,ended⟩ := @compare_plain _ OP_CHECKMULTISIG _ [] _ _ (by decide) (by decide) same
    obtain ⟨rfl,rfl⟩ := compare_done ended
    have valid : opcode ≠ OP_INVALIDOPCODE := by
      rw [show opcode = _ from second]
      simp only [OP_INVALIDOPCODE,OP_0,OP_1]
      split <;> omega
    obtain ⟨keys,r2,reads,got3,rfl,each⟩ := takeKeys_reads got2 split valid
    simp only [List.singleton_append] at checked ⊢
    have size (k : Nat) (few : k ≤ 16) : (UInt8.ofNat k).toNat = k := by
      rw [UInt8.toNat_ofNat']
      omega
    have last : ([UInt8.ofNat m] :: keys.map Prod.snd ++ [[UInt8.ofNat n]]).getLastD [] = [UInt8.ofNat n] := List.getLastD_concat ..
    rw [counted,last] at checked
    simp only [List.cons_append,List.headD_cons,size m small,size n small',List.length_cons,List.length_append,List.length_map,List.length_nil,
      Bool.not_eq_true',Bool.or_eq_false_iff,decide_eq_false_iff_not,bne_eq_false_iff_eq] at checked
    obtain ⟨⟨⟨someM,someN⟩,enough⟩,count⟩ := checked
    obtain rfl : keys.length = n := by omega
    exact ⟨m,keys,by omega,by omega,small',⟨r1,number_op got1 first (by omega),reads_append.mpr ⟨r2,reads,r3,number_op got3 second (by omega),[],check,rfl⟩⟩,
      each,rfl⟩

end

end Solver
/-! ### What spends an output -/

/-- The form that a script has been found to have, with the operations it consists of. -/
theorem Solver_reads {script : CScript} {type : txnouttype} {vSolutions : List valtype} (solved : Solver script [] = (true,type,vSolutions))
    (plain : IsPayToScriptHash script = false) :
    (type = TX_PUBKEY ∧ ∃ push key, Machine.Reads script [(push,key),(OP_CHECKSIG,[])] [] ∧ push ≤ OP_PUSHDATA4 ∧ Solver.keySized key = true ∧
      vSolutions = [key]) ∨
    (type = TX_PUBKEYHASH ∧ ∃ push hash, Machine.Reads script [(OP_DUP,[]),(OP_HASH160,[]),(push,hash),(OP_EQUALVERIFY,[]),(OP_CHECKSIG,[])] [] ∧
      push ≤ OP_PUSHDATA4 ∧ hash.length = 20 ∧ vSolutions = [hash]) ∨
    (type = TX_MULTISIG ∧ ∃ m keys, 1 ≤ m ∧ m ≤ keys.length ∧ keys.length ≤ 16 ∧
      Machine.Reads script ((OP_1-1+m,[]) :: (keys ++ [(OP_1-1+keys.length,[]),(OP_CHECKMULTISIG,[])])) [] ∧
      (∀ key ∈ keys, key.1 ≤ OP_PUSHDATA4 ∧ Solver.keySized key.2 = true) ∧
      vSolutions = [UInt8.ofNat m] :: (keys.map Prod.snd ++ [[UInt8.ofNat keys.length]])) := by
  rw [Solver,plain,if_neg Bool.false_ne_true,mTemplates,Solver.scan] at solved
  split at solved
  swap
  next _ same =>
    obtain ⟨-,found⟩ := Prod.mk.inj solved
    obtain ⟨rfl,rfl⟩ := Prod.mk.inj found
    exact .inl ⟨rfl,Solver.compare_key same rfl⟩
  rw [Solver.scan] at solved
  split at solved
  swap
  next _ same =>
    obtain ⟨-,found⟩ := Prod.mk.inj solved
    obtain ⟨rfl,rfl⟩ := Prod.mk.inj found
    exact .inr (.inl ⟨rfl,Solver.compare_keyhash same rfl⟩)
  rw [Solver.scan] at solved
  split at solved
  swap
  next _ same =>
    obtain ⟨checked,found⟩ := Prod.mk.inj solved
    obtain ⟨rfl,rfl⟩ := Prod.mk.inj found
    exact .inr (.inr ⟨rfl,Solver.compare_multisig_reads same rfl (by simpa using checked)⟩)
  rw [Solver.scan] at solved
  simp at solved

/-- What the script of an input has to leave on the stack for an output of a standard form. -/
def Spends (env : ScriptEnv) (fP2SH : Bool) (scriptSig scriptPubKey : CScript) (vSolutions : List valtype) (stack : Stack) : txnouttype → Prop
  | TX_NONSTANDARD => False
  | TX_PUBKEY => stack.length+1 ≤ 1000 ∧ ∃ s vchSig, stack = s ++ [vchSig] ∧
      signs env vchSig (vSolutions.headD []) (FindAndDelete scriptPubKey (pushValue vchSig)) = true
  | TX_PUBKEYHASH => stack.length+2 ≤ 1000 ∧ ∃ s vchSig vchPubKey, stack = s ++ [vchSig,vchPubKey] ∧ env.Hash160 vchPubKey = vSolutions.headD [] ∧
      signs env vchSig vchPubKey (FindAndDelete scriptPubKey (pushValue vchSig)) = true
  | TX_SCRIPTHASH => stack.length+1 ≤ 1000 ∧ ∃ s inside, stack = s ++ [inside] ∧ env.Hash160 inside = vSolutions.headD [] ∧
      (fP2SH = true → IsPushOnly scriptSig = true ∧ ∃ left, EvalScript env s inside = .ok left ∧ leavesTrue left = true)
  | TX_MULTISIG => stack.length+vSolutions.length ≤ 1000 ∧ ∃ s extra sigs, stack = s ++ [extra] ++ sigs ∧
      sigs.length = ((vSolutions.headD []).headD 0).toNat ∧ Machine.Signed env scriptPubKey sigs vSolutions.tail.dropLast

theorem leavesTrue_concat (s : Stack) (fValue : Bool) : leavesTrue (s ++ [if fValue then vchTrue else vchFalse]) = fValue := by
  rw [leavesTrue,List.getLastD_concat]
  cases fValue with
  | false => simp [show CastToBool vchFalse = false by decide]
  | true => simp [show CastToBool vchTrue = true by decide]

/-- `VerifyScript`, with what it looks for in the two runs. -/
theorem VerifyScript_ok {env : ScriptEnv} {fP2SH : Bool} {scriptSig scriptPubKey : CScript} :
    VerifyScript env fP2SH scriptSig scriptPubKey = .ok () ↔
      ∃ stack, EvalScript env [] scriptSig = .ok stack ∧ ∃ left, EvalScript env stack scriptPubKey = .ok left ∧ leavesTrue left = true ∧
        ((fP2SH && IsPayToScriptHash scriptPubKey) = true → IsPushOnly scriptSig = true ∧
          ∃ s inside, stack = s ++ [inside] ∧ ∃ left, EvalScript env s inside = .ok left ∧ leavesTrue left = true) := by
  rw [VerifyScript,bind_ok]
  refine exists_congr fun stack => and_congr_right fun _ => ?_
  dsimp only
  rw [bind_ok]
  refine exists_congr fun left => and_congr_right fun _ => ?_
  by_cases truth : leavesTrue left = true
  swap
  · rw [if_pos (Bool.eq_false_iff.mpr truth)]
    exact iff_of_false nofun fun both => truth both.1
  rw [if_neg (by rw [truth]; decide)]
  by_cases inside : (fP2SH && IsPayToScriptHash scriptPubKey) = true
  swap
  · rw [if_neg inside]
    exact iff_of_true rfl ⟨truth,fun pays => absurd pays inside⟩
  rw [if_pos inside,if_pos (Bool.and_eq_true_iff.mp inside).1]
  by_cases only : IsPushOnly scriptSig = true
  swap
  · rw [if_pos (Bool.eq_false_iff.mpr only)]
    exact iff_of_false nofun fun both => only (both.2 inside).1
  rw [if_neg (by rw [only]; decide)]
  rcases List.eq_nil_or_concat' stack with rfl | ⟨s,value,rfl⟩
  · refine iff_of_false nofun fun both => ?_
    obtain ⟨s,value,same,_⟩ := (both.2 inside).2
    exact absurd (congrArg List.length same) (by simp)
  have some : (s ++ [value]).isEmpty = false := by simp
  rw [some,if_neg Bool.false_ne_true,List.getLastD_concat,pop_concat]
  simp only [inside,truth,only,true_and,true_implies]
  show (EvalScript env s value >>= fun left => if leavesTrue left then .ok () else .error .refused) = .ok () ↔ _
  rw [bind_ok]
  constructor
  · rintro ⟨left',evaluated,answer⟩
    by_cases truth' : leavesTrue left' = true
    · exact ⟨s,value,rfl,left',evaluated,truth'⟩
    · rw [if_neg truth'] at answer
      contradiction
  · rintro ⟨s',value',same,left',evaluated,truth'⟩
    obtain ⟨rfl,tops⟩ := List.append_inj' same rfl
    obtain rfl := List.head_eq_of_cons_eq tops
    exact ⟨left',evaluated,if_pos truth'⟩

theorem keySized_bounds {key : valtype} (sized : Solver.keySized key = true) : 33 ≤ key.length ∧ key.length ≤ 120 := by
  simpa [Solver.keySized] using sized

section
variable {env : ScriptEnv} {script : CScript} {stack : Stack}

theorem spends_key {push : Nat} {key : valtype} (reads : Machine.Reads script [(push,key),(OP_CHECKSIG,[])] []) (low : push ≤ OP_PUSHDATA4)
    (sized : Solver.keySized key = true) :
    (∃ left, EvalScript env stack script = .ok left ∧ leavesTrue left = true) ↔
      stack.length+1 ≤ 1000 ∧ ∃ s vchSig, stack = s ++ [vchSig] ∧ signs env vchSig key (FindAndDelete script (pushValue vchSig)) = true := by
  have most := (keySized_bounds sized).2
  have short : script.length ≤ 10000 := (@reads_length _ _ _ 120 (by simpa using most) reads).trans (by simp)
  simp only [EvalScript_pubkey reads low most short]
  constructor
  · rintro ⟨_,⟨room,s,vchSig,rfl,rfl⟩,truth⟩
    rw [verdict,leavesTrue_concat] at truth
    exact ⟨room,s,vchSig,rfl,truth⟩
  · rintro ⟨room,s,vchSig,rfl,signed⟩
    exact ⟨_,⟨room,s,vchSig,rfl,rfl⟩,by rw [verdict,leavesTrue_concat,signed]⟩

theorem spends_keyhash {push : Nat} {hash : valtype}
    (reads : Machine.Reads script [(OP_DUP,[]),(OP_HASH160,[]),(push,hash),(OP_EQUALVERIFY,[]),(OP_CHECKSIG,[])] []) (low : push ≤ OP_PUSHDATA4)
    (sized : hash.length = 20) :
    (∃ left, EvalScript env stack script = .ok left ∧ leavesTrue left = true) ↔
      stack.length+2 ≤ 1000 ∧ ∃ s vchSig vchPubKey, stack = s ++ [vchSig,vchPubKey] ∧ env.Hash160 vchPubKey = hash ∧
        signs env vchSig vchPubKey (FindAndDelete script (pushValue vchSig)) = true := by
  have short : script.length ≤ 10000 := (@reads_length _ _ _ 20 (by simp [sized]) reads).trans (by simp)
  simp only [EvalScript_pubkeyhash reads low sized short]
  constructor
  · rintro ⟨_,⟨room,s,vchSig,vchPubKey,rfl,hashed,rfl⟩,truth⟩
    rw [verdict,leavesTrue_concat] at truth
    exact ⟨room,s,vchSig,vchPubKey,rfl,hashed,truth⟩
  · rintro ⟨room,s,vchSig,vchPubKey,rfl,hashed,signed⟩
    exact ⟨_,⟨room,s,vchSig,vchPubKey,rfl,hashed,rfl⟩,by rw [verdict,leavesTrue_concat,signed]⟩

theorem spends_multisig {m : Nat} {keys : List (Nat × valtype)}
    (reads : Machine.Reads script ((OP_1-1+m,[]) :: (keys ++ [(OP_1-1+keys.length,[]),(OP_CHECKMULTISIG,[])])) [])
    (each : ∀ key ∈ keys, key.1 ≤ OP_PUSHDATA4 ∧ Solver.keySized key.2 = true) (some : 1 ≤ m) (enough : m ≤ keys.length) (few : keys.length ≤ 16) :
    (∃ left, EvalScript env stack script = .ok left ∧ leavesTrue left = true) ↔
      stack.length+keys.length+2 ≤ 1000 ∧ ∃ s extra sigs, stack = s ++ [extra] ++ sigs ∧ sigs.length = m ∧
        Machine.Signed env script sigs (keys.map Prod.snd) := by
  have small (key) (member : key ∈ keys) : key.2.length ≤ 120 := (keySized_bounds (each key member).2).2
  have sized : ∀ op ∈ (OP_1-1+m,[]) :: (keys ++ [(OP_1-1+keys.length,[]),(OP_CHECKMULTISIG,[])]), op.2.length ≤ 120 := by
    intro op member
    simp only [List.mem_cons,List.mem_append,List.not_mem_nil,or_false] at member
    rcases member with rfl | member | rfl | rfl
    · exact Nat.zero_le _
    · exact small op member
    · exact Nat.zero_le _
    · exact Nat.zero_le _
  have short : script.length ≤ 10000 := by
    have long := reads_length sized reads
    simp at long
    omega
  simp only [EvalScript_multisig reads (fun key member => ⟨(each key member).1,(small key member).trans (by decide)⟩) some enough few short]
  constructor
  · rintro ⟨_,⟨room,s,extra,sigs,fSuccess,rfl,count,signed,rfl⟩,truth⟩
    rw [leavesTrue_concat] at truth
    exact ⟨room,s,extra,sigs,rfl,count,signed.mp truth⟩
  · rintro ⟨room,s,extra,sigs,rfl,count,signed⟩
    exact ⟨_,⟨room,s,extra,sigs,true,rfl,count,by simp [signed],rfl⟩,leavesTrue_concat s true⟩

theorem spends_scripthash {push : Nat} {hash : valtype} (reads : Machine.Reads script [(OP_HASH160,[]),(push,hash),(OP_EQUAL,[])] [])
    (low : push ≤ OP_PUSHDATA4) (sized : hash.length = 20) :
    (∃ left, EvalScript env stack script = .ok left ∧ leavesTrue left = true) ↔
      stack.length+1 ≤ 1000 ∧ ∃ s inside, stack = s ++ [inside] ∧ env.Hash160 inside = hash := by
  have short : script.length ≤ 10000 := (@reads_length _ _ _ 20 (by simp [sized]) reads).trans (by simp)
  simp only [EvalScript_scripthash reads low sized short]
  constructor
  · rintro ⟨_,⟨room,s,inside,rfl,rfl⟩,truth⟩
    rw [leavesTrue_concat] at truth
    exact ⟨room,s,inside,rfl,beq_iff_eq.mp truth⟩
  · rintro ⟨room,s,inside,rfl,hashed⟩
    exact ⟨_,⟨room,s,inside,rfl,rfl⟩,by rw [leavesTrue_concat,hashed,beq_self_eq_true]⟩

end

/-- A script of a standard form that does not pay to another. -/
theorem spends_plain {script : CScript} {type : txnouttype} {vSolutions : List valtype} (env : ScriptEnv) (solved : Solver script [] = (true,type,vSolutions))
    (plain : IsPayToScriptHash script = false) (fP2SH : Bool) (scriptSig : CScript) (stack : Stack) :
    (∃ left, EvalScript env stack script = .ok left ∧ leavesTrue left = true) ↔ Spends env fP2SH scriptSig script vSolutions stack type := by
  rcases Solver_reads solved plain with ⟨rfl,push,key,reads,low,sized,rfl⟩ | ⟨rfl,push,hash,reads,low,sized,rfl⟩ |
    ⟨rfl,m,keys,some,enough,few,reads,each,rfl⟩
  · exact spends_key reads low sized
  · exact spends_keyhash reads low sized
  · have count : ([UInt8.ofNat m] :: (keys.map Prod.snd ++ [[UInt8.ofNat keys.length]])).length = keys.length+2 := by simp
    have required : (([UInt8.ofNat m] :: (keys.map Prod.snd ++ [[UInt8.ofNat keys.length]])).headD []).headD 0 = UInt8.ofNat m := rfl
    have value : (UInt8.ofNat m).toNat = m := by
      rw [UInt8.toNat_ofNat']
      omega
    rw [Spends,count,required,value,List.tail_cons,List.dropLast_concat,← Nat.add_assoc]
    exact spends_multisig reads each some enough few

/-- `VerifyScript` accepts an input with an output of a standard form exactly where the script
    of the input ends on what that form asks for. -/
theorem VerifyScript_standard {env : ScriptEnv} {scriptPubKey : CScript} {type : txnouttype} {vSolutions : List valtype}
    (solved : Solver scriptPubKey [] = (true,type,vSolutions)) (fP2SH : Bool) (scriptSig : CScript) :
    VerifyScript env fP2SH scriptSig scriptPubKey = .ok () ↔
      ∃ stack, EvalScript env [] scriptSig = .ok stack ∧ Spends env fP2SH scriptSig scriptPubKey vSolutions stack type := by
  rw [VerifyScript_ok]
  refine exists_congr fun stack => and_congr_right fun _ => ?_
  by_cases pays : IsPayToScriptHash scriptPubKey = true
  · rw [Solver,if_pos pays] at solved
    obtain ⟨-,found⟩ := Prod.mk.inj solved
    obtain ⟨rfl,rfl⟩ := Prod.mk.inj found
    obtain ⟨hash,sized,rfl⟩ := paysToScript pays
    have pushed := @GetOp_direct hash (by rw [sized]; decide) (ofOpcodes [OP_EQUAL])
    have reads : Machine.Reads (UInt8.ofNat OP_HASH160 :: UInt8.ofNat hash.length :: (hash ++ ofOpcodes [OP_EQUAL]))
        [(OP_HASH160,[]),(hash.length,hash),(OP_EQUAL,[])] [] :=
      ⟨_,GetOp_plain (by decide) (by decide) _,_,pushed,[],GetOp_plain (by decide) (by decide) _,rfl⟩
    have solution : ([] ++ [((UInt8.ofNat OP_HASH160 :: UInt8.ofNat hash.length :: (hash ++ ofOpcodes [OP_EQUAL])).drop 2).take 20]).headD [] = hash := by
      simp [← sized]
    rw [pays,Bool.and_true,Spends,solution]
    have spends := @spends_scripthash env _ stack _ _ reads (by rw [sized]; decide) sized
    constructor
    · rintro ⟨left,evaluated,truth,within⟩
      obtain ⟨room,s,inside,rfl,hashed⟩ := spends.mp ⟨left,evaluated,truth⟩
      refine ⟨room,s,inside,rfl,hashed,fun p2sh => ?_⟩
      obtain ⟨only,s',inside',same,accepted⟩ := within p2sh
      obtain ⟨rfl,tops⟩ := List.append_inj' same rfl
      obtain rfl := List.head_eq_of_cons_eq tops
      exact ⟨only,accepted⟩
    · rintro ⟨room,s,inside,rfl,hashed,within⟩
      obtain ⟨left,evaluated,truth⟩ := spends.mpr ⟨room,s,inside,rfl,hashed⟩
      exact ⟨left,evaluated,truth,fun p2sh => ⟨(within p2sh).1,s,inside,rfl,(within p2sh).2⟩⟩
  · have plain := Bool.eq_false_iff.mpr pays
    have outer : (∃ left, EvalScript env stack scriptPubKey = .ok left ∧ leavesTrue left = true ∧ ((fP2SH && IsPayToScriptHash scriptPubKey) = true →
        IsPushOnly scriptSig = true ∧ ∃ s inside, stack = s ++ [inside] ∧ ∃ left, EvalScript env s inside = .ok left ∧ leavesTrue left = true)) ↔
        ∃ left, EvalScript env stack scriptPubKey = .ok left ∧ leavesTrue left = true := by simp [plain]
    rw [outer]
    exact spends_plain env solved plain fP2SH scriptSig stack

/-- An output that pays to the hash of a key. -/
theorem VerifyScript_standard_hash :
    VerifyScript ⟨false,fun vchSig vchPubKey _ => vchSig == vchPubKey,id,id,id,id,id⟩ true [] (SetDestination (.CKeyID 5)) = .ok () ↔
      ∃ stack, EvalScript ⟨false,fun vchSig vchPubKey _ => vchSig == vchPubKey,id,id,id,id,id⟩ [] [] = .ok stack ∧
        Spends ⟨false,fun vchSig vchPubKey _ => vchSig == vchPubKey,id,id,id,id,id⟩ true [] (SetDestination (.CKeyID 5)) [Codec.leBytes 20 5] stack
          TX_PUBKEYHASH :=
  VerifyScript_standard (SetDestination_solved 5) true []

end Tetra
