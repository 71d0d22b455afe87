import Tetra.SigOps
import Tetra.Standardness

/-!
`VerifyScript`: the script of an input is run, then the script of the output on the stack
that it leaves, and where that pays to a script also the script inside.
-/
namespace Tetra
open CScript Guarded Machine Positional Queries

/-- `stack` has a last value, and that counts as true. -/
def leavesTrue (stack : Stack) : Bool := !stack.isEmpty && CastToBool (stack.getLastD [])

/-- `.ok` where the code returns true; `fP2SH` is `flags & SCRIPT_VERIFY_P2SH`. -/
def VerifyScript (env : ScriptEnv) (fP2SH : Bool) (scriptSig scriptPubKey : CScript) : Exec Unit := do
  let stack ← EvalScript env [] scriptSig
  let stackCopy := if fP2SH then stack else []
  let stack ← EvalScript env stack scriptPubKey
  if leavesTrue stack = false then .error .refused
  else if fP2SH && IsPayToScriptHash scriptPubKey then
    -- The script of the input must be literals only.
    if IsPushOnly scriptSig = false then .error .refused
    else if stackCopy.isEmpty then .error (.asserts "!stackCopy.empty()")
    else do
      let pubKey2 := stackCopy.getLastD []
      let stackCopy ← popstack stackCopy
      let stackCopy ← EvalScript env stackCopy pubKey2
      if leavesTrue stackCopy then .ok () else .error .refused
  else .ok ()

namespace Machine

/-! ### Running to the end -/

theorem loop_done (env : ScriptEnv) (fuel : Nat) {m : Machine} (ended : m.pc = []) : loop env fuel m = .ok m := by
  cases fuel with
  | zero => rw [loop,ended]; rfl
  | succ fuel => rw [loop,ended]; rfl

theorem loop_enough {env : ScriptEnv} {fuel fuel' : Nat} {m : Machine} (enough : m.pc.length ≤ fuel) (enough' : m.pc.length ≤ fuel') :
    loop env fuel m = loop env fuel' m := by
  induction fuel generalizing fuel' m with
  | zero =>
    have ended : m.pc = [] := List.length_eq_zero_iff.mp (Nat.le_zero.mp enough)
    rw [loop_done env 0 ended,loop_done env fuel' ended]
  | succ fuel ih =>
    by_cases ended : m.pc = []
    · rw [loop_done env _ ended,loop_done env _ ended]
    have some : 0 < m.pc.length := List.length_pos_iff.mpr ended
    obtain ⟨fuel',rfl⟩ : ∃ less, fuel' = less+1 := ⟨fuel'-1,by omega⟩
    rw [loop,loop,List.isEmpty_eq_false_iff.mpr ended,if_neg Bool.false_ne_true,if_neg Bool.false_ne_true]
    cases got : GetOp m.pc with
    | none =>
      rw [iterate,got]
      rfl
    | some op =>
      obtain ⟨opcode,data,rest⟩ := op
      have shorter := GetOp_shortens got
      cases passed : iterate env m with
      | error e => rfl
      | ok m' =>
        have left := (iterate_follows got passed).1
        exact ih (by rw [left]; omega) (by rw [left]; omega)

/-- The loop with the fuel it is started with. -/
def run (env : ScriptEnv) (m : Machine) : Exec Machine := loop env m.pc.length m

theorem run_done (env : ScriptEnv) {m : Machine} (ended : m.pc = []) : run env m = .ok m := loop_done env _ ended

theorem run_cons (env : ScriptEnv) {m : Machine} {opcode : Nat} {data : valtype} {rest : CScript} (got : GetOp m.pc = some (opcode,data,rest)) :
    run env m = iterate env m >>= run env := by
  have shorter := GetOp_shortens got
  have more : m.pc.isEmpty = false := by
    cases script : m.pc with
    | nil => rw [script] at got; contradiction
    | cons first after => rfl
  have fuel : m.pc.length = m.pc.length-1+1 := by omega
  rw [run,fuel,loop,more,if_neg Bool.false_ne_true]
  cases passed : iterate env m with
  | error e => rfl
  | ok m' =>
    have left := (iterate_follows got passed).1
    exact loop_enough (by rw [left]; omega) le_rfl

theorem EvalScript_run (env : ScriptEnv) {script : CScript} (short : script.length ≤ 10000) (stack : Stack) :
    EvalScript env stack script = run env (start stack script) >>= fun m => if m.vfExec.isEmpty then .ok m.stack else .error .refused :=
  if_neg (Nat.not_lt.mpr short)

/-! ### Pushes only -/

/-- What is on top of a stack has no more signature operations than a script. -/
def TopCounts (data : valtype) (stack : Stack) : Prop :=
  ∀ top, stack.getLast? = some top → GetSigOpCount top true ≤ GetSigOpCount data true

theorem getvch_small {n : Nat} (some : n ≠ 0) (low : n < 128) : getvch n = [UInt8.ofNat n] := by
  have digits : bytesOf (n : Int).natAbs = [UInt8.ofNat n] := by
    rw [bytesOf,Int.natAbs_natCast,Nat.digits_of_lt 256 n some (by omega)]
    rfl
  have plain : ¬(UInt8.ofNat n &&& 0x80 ≠ 0) := by
    have each : ∀ k : Fin 128, ¬(UInt8.ofNat k.val &&& 0x80 ≠ 0) := by decide +kernel
    exact each ⟨n,low⟩
  have positive : decide ((n : Int) < 0) = false := by simp
  rw [getvch_eq,signedBytes,digits,positive,List.reverse_singleton,signed,if_neg plain]
  simp

/-- The numbers that have operations of their own do not stand for a script that checks any. -/
theorem number_counts {opcode : Nat} (number : opcode = OP_1NEGATE ∨ OP_1 ≤ opcode ∧ opcode ≤ OP_16) :
    GetSigOpCount (getvch ((opcode : Int)-(OP_1-1 : Nat))) true = 0 := by
  rcases number with rfl | ⟨low,high⟩
  · decide +kernel
  · have positive : (opcode : Int)-((OP_1-1 : Nat) : Int) = (opcode-(OP_1-1) : Nat) := by
      simp only [OP_1] at low ⊢
      omega
    simp only [OP_1,OP_16] at low high
    have small : opcode-(OP_1-1) < OP_PUSHDATA1 ∧ opcode-(OP_1-1) ≠ 0 := by
      simp only [OP_1,OP_PUSHDATA1]
      omega
    generalize opcode-(OP_1-1) = n at positive small
    obtain ⟨small,some⟩ := small
    have fits : n < 256 := small.trans (by decide)
    rw [positive,getvch_small some (small.trans (by decide)),GetSigOpCount,List.length_singleton,countSigOps]
    have ends : GetOp [UInt8.ofNat n] = none := by
      rw [GetOp]
      simp only [UInt8.toNat_ofNat',Nat.mod_eq_of_lt fits]
      rw [if_pos (small.le.trans (by decide)),if_pos small]
      exact if_pos (Nat.pos_of_ne_zero some)
    rw [ends]

theorem GetOp_data {script rest : CScript} {opcode : Nat} {data : valtype} (got : GetOp script = some (opcode,data,rest)) (above : OP_PUSHDATA4 < opcode) :
    data = [] := by
  cases script with
  | nil => contradiction
  | cons first after =>
    rw [GetOp] at got
    split at got
    next low =>
      split at got
      next => contradiction
      next =>
        split at got
        next => contradiction
        next =>
          obtain ⟨rfl,-,-⟩ := got
          omega
    next =>
      obtain ⟨-,rfl,-⟩ := got
      rfl

theorem switch_reserved (m : Machine) : switch env 0x50 m = .error .refused := by
  simp only [switch,cases,List.find?_cons,isMultisig,List.contains_cons,List.contains_nil]
  rfl

/-- What an iteration of pushes leaves. -/
theorem iterate_pushes {m m' : Machine} {opcode : Nat} {data : valtype} {rest : CScript} (active : m.vfExec = [])
    (got : GetOp m.pc = some (opcode,data,rest)) (low : opcode ≤ OP_16) (passed : iterate env m = .ok m') :
    m'.vfExec = [] ∧ m'.pc = rest ∧ TopCounts data m'.stack := by
  have top (stack : Stack) (vch : valtype) (counts : GetSigOpCount vch true ≤ GetSigOpCount data true) : TopCounts data (stack ++ [vch]) := by
    intro last same
    rw [List.getLast?_concat] at same
    exact Option.some.inj same ▸ counts
  have executing : (m.fetched opcode rest).fExec = true := by simp [fExec,fetched,active]
  refine (and_left_comm.mp ⟨(iterate_follows got passed).1,?_⟩)
  rw [iterate_eq env got] at passed
  split at passed
  · contradiction
  split at passed
  · contradiction
  split at passed
  · contradiction
  obtain ⟨after,done,checked⟩ := bind_ok.mp passed
  rw [sized] at checked
  split at checked
  · contradiction
  obtain rfl := Except.ok.inj checked
  rw [perform,executing] at done
  by_cases push : opcode ≤ OP_PUSHDATA4
  · rw [if_pos ⟨rfl,push⟩] at done
    obtain rfl := Except.ok.inj done
    exact ⟨active,top _ _ le_rfl⟩
  · have executes : (m.fetched opcode rest).executes opcode = true := by rw [executes,executing]; rfl
    rw [if_neg fun both => push both.2,if_pos executes] at done
    obtain rfl := GetOp_data got (Nat.lt_of_not_le push)
    by_cases reserved : opcode = 0x50
    · rw [reserved,switch_reserved] at done
      contradiction
    · have number : opcode = OP_1NEGATE ∨ OP_1 ≤ opcode ∧ opcode ≤ OP_16 := by
        simp only [OP_PUSHDATA4,OP_1NEGATE,OP_1,OP_16] at push low ⊢
        omega
      rw [switch_number number] at done
      obtain rfl := Except.ok.inj done
      exact ⟨active,top _ _ (by rw [number_counts number]; exact Nat.zero_le _)⟩

/-- Along a script of pushes, with the last of them. -/
theorem pushes_top {counting : Nat} {m m' : Machine} {data result : valtype} (active : m.vfExec = []) (enough : m.pc.length ≤ counting)
    (last : lastPush counting data m.pc = some result) (counts : TopCounts data m.stack) (done : run env m = .ok m') : TopCounts result m'.stack := by
  induction counting generalizing m data with
  | zero =>
    obtain rfl := Option.some.inj last
    rw [run_done env (List.length_eq_zero_iff.mp (Nat.le_zero.mp enough))] at done
    exact Except.ok.inj done ▸ counts
  | succ counting ih =>
    rw [lastPush] at last
    split at last
    next ended =>
      obtain rfl := Option.some.inj last
      rw [run_done env (List.isEmpty_iff.mp ended)] at done
      exact Except.ok.inj done ▸ counts
    next =>
      cases got : GetOp m.pc with
      | none => rw [got] at last; contradiction
      | some op =>
        obtain ⟨opcode,data',rest⟩ := op
        have shorter := GetOp_shortens got
        rw [got] at last
        dsimp only at last
        split at last
        · contradiction
        next low =>
          rw [run_cons env got] at done
          obtain ⟨between,passed,done⟩ := bind_ok.mp done
          obtain ⟨active',left,counts'⟩ := iterate_pushes active got (Nat.le_of_not_lt low) passed
          exact ih active' (by rw [left]; omega) (by rw [left]; exact last) counts' done

theorem lastPush_some {fuel : Nat} {script : CScript} (only : everyOp (fun opcode _ => !(opcode > OP_16)) fuel script = true) (data : valtype) :
    ∃ result, lastPush fuel data script = some result := by
  induction fuel generalizing script data with
  | zero => exact ⟨data,rfl⟩
  | succ fuel ih =>
    rw [everyOp] at only
    rw [lastPush]
    split
    next => exact ⟨data,rfl⟩
    next more =>
      rw [if_neg more] at only
      cases got : GetOp script with
      | none => rw [got] at only; contradiction
      | some op =>
        obtain ⟨opcode,data',rest⟩ := op
        rw [got] at only
        dsimp only at only ⊢
        by_cases high : opcode > OP_16
        · simp [high] at only
        · rw [if_neg high]
          exact ih (by simpa [high] using only) data'

end Machine

/-! ### How many signatures are checked -/

theorem paysToScript {script : CScript} (pays : IsPayToScriptHash script = true) :
    ∃ hash, hash.length = 20 ∧ script = UInt8.ofNat OP_HASH160 :: UInt8.ofNat hash.length :: (hash ++ ofOpcodes [OP_EQUAL]) := by
  simp only [IsPayToScriptHash,Bool.and_eq_true,beq_iff_eq] at pays
  obtain ⟨⟨⟨long,first⟩,second⟩,last⟩ := pays
  obtain ⟨a,b,rest,rfl⟩ : ∃ a b rest, script = a :: b :: rest := by
    cases script with
    | nil => contradiction
    | cons a tail =>
      cases tail with
      | nil => contradiction
      | cons b rest => exact ⟨a,b,rest,rfl⟩
  have size : rest.length = 21 := by simpa using long
  have byte (c : UInt8) (n : Nat) (value : c.toNat = n) : c = UInt8.ofNat n := by rw [← value,UInt8.ofNat_toNat]
  have end' : rest.drop 20 = ofOpcodes [OP_EQUAL] := by
    obtain ⟨c,alone⟩ := List.length_eq_one_iff.mp (show (rest.drop 20).length = 1 by rw [List.length_drop,size])
    have here : rest[20]? = some c := by rw [← Nat.add_zero 20,← List.getElem?_drop,alone]; rfl
    have value : c.toNat = OP_EQUAL := by simpa [List.getD_eq_getElem?_getD,here] using last
    rw [alone,byte c _ value]
    rfl
  refine ⟨rest.take 20,by rw [List.length_take,size]; rfl,?_⟩
  rw [List.length_take,size,← end',List.take_append_drop,byte a _ first,byte b _ second]
  rfl

theorem paysToScript_counts {script : CScript} (pays : IsPayToScriptHash script = true) : GetSigOpCount script true = 0 := by
  obtain ⟨hash,size,rfl⟩ := paysToScript pays
  have pushed := @GetOp_direct hash (by rw [size]; decide) (ofOpcodes [OP_EQUAL])
  have fuel : (UInt8.ofNat OP_HASH160 :: UInt8.ofNat hash.length :: (hash ++ ofOpcodes [OP_EQUAL])).length = 22+1 := by
    simp [ofOpcodes,size]
  rw [GetSigOpCount,fuel,countSigOps,GetOp_plain (by decide) (by decide)]
  dsimp only
  rw [countSigOps,pushed,size]
  dsimp only
  decide

theorem GetSigOpCountFor_inside {scriptPubKey scriptSig : CScript} {data : valtype} (pays : IsPayToScriptHash scriptPubKey = true)
    (last : lastPush scriptSig.length [] scriptSig = some data) : GetSigOpCountFor scriptPubKey scriptSig = GetSigOpCount data true := by
  rw [GetSigOpCountFor,pays,if_neg (by decide),last]

/-- The script inside is the last value that the input pushes. -/
theorem inside_counts {env : ScriptEnv} {scriptSig : CScript} {stack : Stack} {data : valtype} (evaluated : EvalScript env [] scriptSig = .ok stack)
    (last : lastPush scriptSig.length [] scriptSig = some data) : TopCounts data stack := by
  rw [EvalScript] at evaluated
  split at evaluated
  · contradiction
  obtain ⟨m,done,left⟩ := bind_ok.mp evaluated
  split at left
  · obtain rfl := Except.ok.inj left
    exact pushes_top (m := start [] scriptSig) rfl le_rfl last nofun done
  · contradiction

/-- Whatever the scripts are, no more signatures are checked than their counts say: that of
    the input's script and that of the output's, or of the script inside. -/
theorem VerifyScript_asks (env : ScriptEnv) (o : valtype × valtype × CScript → Bool) (fP2SH : Bool) (scriptSig scriptPubKey : CScript) :
    Asks (fun o => VerifyScript (env.answering o) fP2SH scriptSig scriptPubKey) o
      (GetSigOpCount scriptSig true+if fP2SH then GetSigOpCountFor scriptPubKey scriptSig else GetSigOpCount scriptPubKey true) := by
  refine (EvalScript_asks env o [] scriptSig).bind fun stack evaluated => ?_
  have outer := EvalScript_asks env o stack scriptPubKey
  by_cases inside : fP2SH = true ∧ IsPayToScriptHash scriptPubKey = true
  · obtain ⟨rfl,pays⟩ := inside
    rw [paysToScript_counts pays] at outer
    rw [if_pos rfl,← Nat.zero_add (GetSigOpCountFor scriptPubKey scriptSig)]
    refine outer.bind fun left _ => ?_
    refine Asks.ite (fun _ => Asks.never _) fun _ => Asks.ite (fun _ => ?_) fun _ => Asks.never _
    refine Asks.ite (fun _ => Asks.never _) fun only => Asks.ite (fun _ => Asks.never _) fun some => ?_
    obtain ⟨data,last⟩ := lastPush_some ((Bool.not_eq_false _).mp only) []
    refine Asks.after fun below _ => ?_
    rw [GetSigOpCountFor_inside pays last,← Nat.add_zero (GetSigOpCount data true)]
    refine ((EvalScript_asks env o below (stack.getLastD [])).mono ?_).bind fun left' _ => Asks.never _
    refine inside_counts evaluated last _ ?_
    have filled : stack ≠ [] := fun none => some (List.isEmpty_iff.mpr none)
    rw [List.getLastD_eq_getLast?,List.getLast?_eq_getLast_of_ne_nil filled]
    rfl
  · have count : (if fP2SH then GetSigOpCountFor scriptPubKey scriptSig else GetSigOpCount scriptPubKey true) = GetSigOpCount scriptPubKey true := by
      split
      next p2sh => exact if_pos (by simpa [p2sh] using inside)
      next => rfl
    rw [count,← Nat.add_zero (GetSigOpCount scriptPubKey true)]
    refine outer.bind fun left _ => Asks.ite (fun _ => Asks.never _) fun _ => Asks.ite (fun both => ?_) fun _ => Asks.never _
    exact absurd (Bool.and_eq_true_iff.mp both) inside

end Tetra
