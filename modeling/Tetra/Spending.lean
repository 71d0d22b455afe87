import Tetra.VerifyScript

/-!
What it takes to spend an output of a standard form: which stacks its script ends on with a
true value, whatever script the input has.
-/
namespace Tetra
open CScript Guarded Matching
open txnouttype

namespace Machine

/-! ### Operations on the top of the stack -/

theorem top_concat (s : Stack) (a : valtype) : stacktop (s ++ [a]) (-1) = .ok a := stacktop_eq (k := 0) (by simp) rfl

theorem top_second (s : Stack) (a b : valtype) : stacktop (s ++ [a,b]) (-2) = .ok a := stacktop_eq (k := 1) (by simp) rfl

theorem top_first (s : Stack) (a b : valtype) : stacktop (s ++ [a,b]) (-1) = .ok b := stacktop_eq (k := 0) (by simp) rfl

theorem pop_concat (s : Stack) (a : valtype) : popstack (s ++ [a]) = .ok s := by simp [popstack]

theorem pop_second (s : Stack) (a b : valtype) : popstack (s ++ [a,b]) = .ok (s ++ [a]) := by simp [popstack]

theorem need_few {stack : Stack} {n : Int} (few : stack.length < n) : need stack n = .error .refused := if_pos few

theorem opDUP_concat (s : Stack) (a : valtype) : opDUP (s ++ [a]) = .ok (s ++ [a,a]) := by
  rw [opDUP,need_ok (by simp),top_concat]
  simp [bind,Except.bind,pure,Except.pure]

theorem hash_concat (env : ScriptEnv) (s : Stack) (a : valtype) : hash env OP_HASH160 (s ++ [a]) = .ok (s ++ [env.Hash160 a]) := by
  rw [hash,need_ok (by simp),top_concat,pop_concat]
  rfl

theorem hash_none (env : ScriptEnv) (opcode : Nat) : hash env opcode [] = .error .refused := by
  rw [hash,need_few (by simp)]
  rfl

theorem equal_concat (opcode : Nat) (s : Stack) (a b : valtype) : equal opcode (s ++ [a,b]) = pushBool s (opcode == OP_EQUALVERIFY) (a == b) := by
  rw [equal,need_ok (by simp),top_second,top_first,pop_second]
  simp only [bind,Except.bind,pop_concat]

theorem checkSig_concat (env : ScriptEnv) (opcode : Nat) {m : Machine} {s : Stack} {vchSig vchPubKey : valtype} (stack : m.stack = s ++ [vchSig,vchPubKey]) :
    checkSig env opcode m = do
      let stack ← pushBool s (opcode == OP_CHECKSIGVERIFY) (signs env vchSig vchPubKey (FindAndDelete m.pbegincodehash (pushValue vchSig)))
      return {m with stack} := by
  rw [checkSig,stack,need_ok (by simp),top_second,top_first,pop_second]
  simp only [bind,Except.bind,pop_concat]

/-- A stack is empty, or has one value, or two values on top. -/
theorem stack_cases (stack : Stack) : stack = [] ∨ (∃ a, stack = [a]) ∨ ∃ s a b, stack = s ++ [a,b] := by
  rcases List.eq_nil_or_concat' stack with rfl | ⟨s,b,rfl⟩
  · exact .inl rfl
  rcases List.eq_nil_or_concat' s with rfl | ⟨s,a,rfl⟩
  · exact .inr (.inl ⟨b,rfl⟩)
  · exact .inr (.inr ⟨s,a,b,by simp⟩)

/-! ### The switch -/

theorem switch_DUP (env : ScriptEnv) (m : Machine) : switch env OP_DUP m = onStack (fun _ => opDUP) OP_DUP m := by
  simp only [switch,cases,List.find?_cons,isMultisig,List.contains_cons,List.contains_nil]
  rfl

theorem switch_HASH160 (env : ScriptEnv) (m : Machine) : switch env OP_HASH160 m = onStack (hash env) OP_HASH160 m := by
  simp only [switch,cases,List.find?_cons,isMultisig,List.contains_cons,List.contains_nil]
  rfl

theorem switch_equal (env : ScriptEnv) {opcode : Nat} (equals : opcode = OP_EQUAL ∨ opcode = OP_EQUALVERIFY) (m : Machine) :
    switch env opcode m = onStack equal opcode m := by
  rcases equals with rfl | rfl
  · simp only [switch,cases,List.find?_cons,isMultisig,List.contains_cons,List.contains_nil]
    rfl
  · simp only [switch,cases,List.find?_cons,isMultisig,List.contains_cons,List.contains_nil]
    rfl

/-! ### Runs without branches -/

/-- The operations at the front of a script, and what is left behind them. -/
def Reads : CScript → List (Nat × valtype) → CScript → Prop
  | script, [], rest => script = rest
  | script, op :: ops, rest => ∃ after, GetOp script = some (op.1,op.2,after) ∧ Reads after ops rest

/-- A machine that has met no branch and has nothing on the other stack. -/
def still (code pc : CScript) (stack : Stack) (nOpCount : Nat) : Machine := {pc,stack,pbegincodehash := code,nOpCount}

def fits (stack : Stack) : Exec Stack := if stack.length > 1000 then .error .refused else .ok stack

section
variable {env : ScriptEnv} {code pc rest : CScript} {stack : Stack} {n opcode : Nat} {data : valtype}

theorem still_active : (still code pc stack n).fExec = true := rfl

theorem sized_still : sized (still code pc stack n) = fits stack >>= fun stack => .ok (still code pc stack n) := by
  rw [sized,fits]
  by_cases long : stack.length > 1000
  · rw [if_pos long]
    exact if_pos long
  · rw [if_neg long]
    exact if_neg long

/-- The size check and what is run behind it. -/
theorem sized_run : sized (still code pc stack n) >>= run env = fits stack >>= fun stack => run env (still code pc stack n) := by
  rw [sized_still]
  cases fits stack with
  | error e => rfl
  | ok s => rfl

theorem run_switch (got : GetOp pc = some (opcode,data,rest)) (above : OP_16 < opcode) (on : disabled.contains opcode = false) (few : n < 201) :
    run env (still code pc stack n) = switch env opcode (still code rest stack (n+1)) >>= sized >>= run env := by
  have after : (still code pc stack n).fetched opcode rest = still code rest stack (n+1) := by rw [fetched,if_pos above]; rfl
  have executed : (still code rest stack (n+1)).executes opcode = true := rfl
  obtain rfl := GetOp_data got ((by decide : OP_PUSHDATA4 < OP_16).trans above)
  rw [run_cons env (m := still code pc stack n) got,iterate_eq env (m := still code pc stack n) got,after,if_neg (by simp),
    if_neg (by rw [still]; dsimp only; omega),on,if_neg Bool.false_ne_true,perform,
    if_neg fun both => absurd (above.trans_le both.2) (by decide),if_pos executed]

theorem run_onStack {f : Nat → Stack → Exec Stack} (switched : ∀ m, switch env opcode m = onStack f opcode m) (got : GetOp pc = some (opcode,data,rest))
    (above : OP_16 < opcode) (on : disabled.contains opcode = false) (few : n < 201) :
    run env (still code pc stack n) = f opcode stack >>= fits >>= fun stack => run env (still code rest stack (n+1)) := by
  have worked : onStack f opcode (still code rest stack (n+1)) = f opcode stack >>= fun stack => .ok (still code rest stack (n+1)) := rfl
  rw [run_switch got above on few,switched,worked]
  cases f opcode stack with
  | error e => rfl
  | ok s => exact sized_run

theorem run_data (got : GetOp pc = some (opcode,data,rest)) (push : opcode ≤ OP_PUSHDATA4) (short : data.length ≤ MAX_SCRIPT_ELEMENT_SIZE) :
    run env (still code pc stack n) = fits (stack ++ [data]) >>= fun stack => run env (still code rest stack n) := by
  have low : ¬opcode > OP_16 := Nat.not_lt.mpr (push.trans (by decide))
  have after : (still code pc stack n).fetched opcode rest = still code rest stack n := by rw [fetched,if_neg low]; rfl
  have on : ¬disabled.contains opcode = true := by
    intro off
    have apart : ∀ off ∈ disabled, OP_PUSHDATA4 < off := by decide
    exact absurd (apart opcode (List.contains_iff_mem.mp off)) (Nat.not_lt.mpr push)
  rw [run_cons env (m := still code pc stack n) got,iterate_eq env (m := still code pc stack n) got,after,if_neg (Nat.not_lt.mpr short),
    if_neg fun both => low both.1,if_neg on,perform,if_pos ⟨still_active,push⟩]
  exact sized_run

theorem run_number (got : GetOp pc = some (opcode,data,rest)) (least : OP_1 ≤ opcode) (most : opcode ≤ OP_16) :
    run env (still code pc stack n) = fits (stack ++ [getvch (opcode-(OP_1-1) : Nat)]) >>= fun stack => run env (still code rest stack n) := by
  have after : (still code pc stack n).fetched opcode rest = still code rest stack n := by rw [fetched,if_neg (Nat.not_lt.mpr most)]; rfl
  have on : ¬disabled.contains opcode = true := by
    intro off
    have apart : ∀ off ∈ disabled, OP_16 < off := by decide
    exact absurd (apart opcode (List.contains_iff_mem.mp off)) (Nat.not_lt.mpr most)
  have number : (opcode : Int)-((OP_1-1 : Nat) : Int) = (opcode-(OP_1-1) : Nat) := by
    simp only [OP_1] at least ⊢
    omega
  have executed : (still code rest stack n).executes opcode = true := rfl
  obtain rfl := GetOp_data got ((by decide : OP_PUSHDATA4 < OP_1).trans_le least)
  rw [run_cons env (m := still code pc stack n) got,iterate_eq env (m := still code pc stack n) got,after,if_neg (by simp),
    if_neg fun both => absurd both.1 (Nat.not_lt.mpr most),if_neg on,perform,
    if_neg fun both => absurd (least.trans both.2) (by decide),if_pos executed,switch_number (.inr ⟨least,most⟩),number]
  exact sized_run

/-- A signature and a key on top, below which nothing is read. -/
theorem run_checkSig {vchSig vchPubKey : valtype} (got : GetOp pc = some (OP_CHECKSIG,data,rest)) (few : n < 201) :
    run env (still code pc (stack ++ [vchSig,vchPubKey]) n) =
      fits (stack ++ [if signs env vchSig vchPubKey (FindAndDelete code (pushValue vchSig)) then vchTrue else vchFalse]) >>=
        fun stack => run env (still code rest stack (n+1)) := by
  rw [run_switch got (by decide) (by decide) few,switch_checkSig env (.inl rfl),checkSig_concat env OP_CHECKSIG (s := stack) rfl]
  exact sized_run

theorem run_checkSig_few (got : GetOp pc = some (OP_CHECKSIG,data,rest)) (few : n < 201) (short : stack.length < 2) :
    run env (still code pc stack n) = .error .refused := by
  have stops : checkSig env OP_CHECKSIG (still code rest stack (n+1)) = .error .refused := by
    rw [checkSig,need_few (by show ((still code rest stack (n+1)).stack.length : Int) < 2; simp only [still]; omega)]
    rfl
  rw [run_switch got (by decide) (by decide) few,switch_checkSig env (.inl rfl),stops]
  rfl

theorem EvalScript_still (short : code.length ≤ 10000) :
    EvalScript env stack code = run env (still code code stack 0) >>= fun m => if m.vfExec.isEmpty then .ok m.stack else .error .refused :=
  EvalScript_run env short stack

theorem run_end : run env (still code [] stack n) = .ok (still code [] stack n) := run_done env rfl

theorem fits_room (room : stack.length ≤ 1000) : fits stack = .ok stack := if_neg (Nat.not_lt.mpr room)

theorem fits_full (full : ¬stack.length ≤ 1000) : fits stack = .error .refused := if_pos (Nat.lt_of_not_le full)

/-! ### A key, or the hash of one -/

/-- What a signature check leaves. -/
def verdict (env : ScriptEnv) (code : CScript) (vchSig vchPubKey : valtype) : valtype :=
  if signs env vchSig vchPubKey (FindAndDelete code (pushValue vchSig)) then vchTrue else vchFalse

/-- A check of a signature at the end of a script. -/
theorem EvalScript_checked (got : GetOp pc = some (OP_CHECKSIG,data,[])) (few : n < 201) (room : stack.length ≤ 1000) (left : Stack) :
    (run env (still code pc stack n) >>= fun m => if m.vfExec.isEmpty then .ok m.stack else .error .refused) = (.ok left : Exec Stack) ↔
      ∃ s vchSig vchPubKey, stack = s ++ [vchSig,vchPubKey] ∧ left = s ++ [verdict env code vchSig vchPubKey] := by
  rcases stack_cases stack with rfl | ⟨a,rfl⟩ | ⟨s,a,b,rfl⟩
  · rw [run_checkSig_few got few (by simp)]
    exact iff_of_false nofun fun ⟨s,_,_,same,_⟩ => absurd (congrArg List.length same) (by simp)
  · rw [run_checkSig_few got few (by simp)]
    exact iff_of_false nofun fun ⟨s,_,_,same,_⟩ => absurd (congrArg List.length same) (by simp)
  · have fewer : (s ++ [verdict env code a b]).length ≤ 1000 := by
      rw [List.length_append] at room ⊢
      simp only [List.length_cons,List.length_nil] at room ⊢
      omega
    have answer : (run env (still code pc (s ++ [a,b]) n) >>= fun m => if m.vfExec.isEmpty then .ok m.stack else .error .refused) =
        (.ok (s ++ [verdict env code a b]) : Exec Stack) := by
      rw [run_checkSig got few,← verdict,fits_room fewer]
      show (run env (still code [] _ (n+1)) >>= fun m => if m.vfExec.isEmpty then .ok m.stack else .error .refused) = _
      rw [run_end]
      rfl
    rw [answer]
    constructor
    · intro same
      exact ⟨s,a,b,rfl,(Except.ok.inj same).symm⟩
    · rintro ⟨s',a',b',same,rfl⟩
      obtain ⟨rfl,tops⟩ := List.append_inj' same rfl
      obtain ⟨rfl,rfl⟩ : a = a' ∧ b = b' := by simpa using tops
      rfl

theorem EvalScript_pubkey {script : CScript} {p : Nat} {key : valtype} (reads : Reads script [(p,key),(OP_CHECKSIG,[])] []) (push : p ≤ OP_PUSHDATA4)
    (size : key.length ≤ 120) (short : script.length ≤ 10000) (left : Stack) :
    EvalScript env stack script = .ok left ↔
      stack.length+1 ≤ 1000 ∧ ∃ s vchSig, stack = s ++ [vchSig] ∧ left = s ++ [verdict env script vchSig key] := by
  obtain ⟨after,pushed,ended,check,rfl⟩ := reads
  rw [EvalScript_still short,run_data pushed push (size.trans (by decide))]
  by_cases room : (stack ++ [key]).length ≤ 1000
  · rw [fits_room room]
    rw [List.length_append,List.length_singleton] at room
    refine (EvalScript_checked check (by decide) (by simpa using room) left).trans ?_
    constructor
    · rintro ⟨s,vchSig,vchPubKey,same,rfl⟩
      have split : stack ++ [key] = (s ++ [vchSig]) ++ [vchPubKey] := by rw [same,List.append_assoc]; rfl
      obtain ⟨rfl,tops⟩ := List.append_inj' split rfl
      obtain rfl := List.head_eq_of_cons_eq tops
      exact ⟨room,s,vchSig,rfl,rfl⟩
    · rintro ⟨_,s,vchSig,rfl,rfl⟩
      exact ⟨s,vchSig,key,by simp,rfl⟩
  · rw [fits_full room]
    rw [List.length_append,List.length_singleton] at room
    exact iff_of_false nofun fun both => room both.1

theorem EvalScript_pubkeyhash {script : CScript} {p : Nat} {hash : valtype}
    (reads : Reads script [(OP_DUP,[]),(OP_HASH160,[]),(p,hash),(OP_EQUALVERIFY,[]),(OP_CHECKSIG,[])] []) (push : p ≤ OP_PUSHDATA4)
    (size : hash.length = 20) (short : script.length ≤ 10000) (left : Stack) :
    EvalScript env stack script = .ok left ↔
      stack.length+2 ≤ 1000 ∧ ∃ s vchSig vchPubKey, stack = s ++ [vchSig,vchPubKey] ∧ env.Hash160 vchPubKey = hash ∧
        left = s ++ [verdict env script vchSig vchPubKey] := by
  obtain ⟨r1,dup,r2,hashed,r3,pushed,r4,compared,r5,check,rfl⟩ := reads
  rw [EvalScript_still short,run_onStack (switch_DUP env) dup (by decide) (by decide) (by decide)]
  rcases List.eq_nil_or_concat' stack with rfl | ⟨t,key,rfl⟩
  · rw [opDUP,need_few (by simp)]
    exact iff_of_false nofun fun ⟨_,s,_,_,same,_⟩ => absurd (congrArg List.length same) (by simp)
  have split : t ++ [key,key] = t ++ [key] ++ [key] := by simp
  have room1 : (t ++ [key] ++ [key]).length = (t ++ [key]).length+1 := List.length_append
  have room2 : (t ++ [key] ++ [env.Hash160 key]).length = (t ++ [key]).length+1 := List.length_append
  have room3 : (t ++ [key] ++ [env.Hash160 key] ++ [hash]).length = (t ++ [key]).length+2 := by rw [List.length_append,room2]; rfl
  rw [opDUP_concat,split]
  by_cases room : (t ++ [key]).length+2 ≤ 1000
  · simp only [bind,Except.bind,fits_room (room1.trans_le (by omega))]
    rw [run_onStack (switch_HASH160 env) hashed (by decide) (by decide) (by decide),hash_concat]
    simp only [bind,Except.bind,fits_room (room2.trans_le (by omega))]
    rw [run_data pushed push (size ▸ by decide)]
    simp only [bind,Except.bind,fits_room (room3.trans_le room)]
    have two : t ++ [key] ++ [env.Hash160 key] ++ [hash] = t ++ [key] ++ [env.Hash160 key,hash] := List.append_assoc ..
    rw [run_onStack (switch_equal env (.inr rfl)) compared (by decide) (by decide) (by decide),two,equal_concat]
    by_cases same : env.Hash160 key = hash
    · have left' : pushBool (t ++ [key]) (OP_EQUALVERIFY == OP_EQUALVERIFY) (env.Hash160 key == hash) = .ok (t ++ [key]) := by
        rw [same,beq_self_eq_true,beq_self_eq_true]
        exact pop_concat _ vchTrue
      rw [left']
      simp only [bind,Except.bind,fits_room (show (t ++ [key]).length ≤ 1000 by omega)]
      refine (EvalScript_checked check (by decide) (by omega) left).trans ?_
      constructor
      · rintro ⟨s,vchSig,vchPubKey,split,rfl⟩
        have last : key = vchPubKey := (List.append_inj' (show t ++ [key] = (s ++ [vchSig]) ++ [vchPubKey] by rw [split]; simp) rfl).2 |> List.head_eq_of_cons_eq
        exact ⟨room,s,vchSig,vchPubKey,split,last ▸ same,rfl⟩
      · rintro ⟨_,s,vchSig,vchPubKey,split,_,rfl⟩
        exact ⟨s,vchSig,vchPubKey,split,rfl⟩
    · have stops : pushBool (t ++ [key]) (OP_EQUALVERIFY == OP_EQUALVERIFY) (env.Hash160 key == hash) = .error .refused := by
        rw [beq_self_eq_true,beq_eq_false_iff_ne.mpr same]
        rfl
      rw [stops]
      refine iff_of_false nofun ?_
      rintro ⟨_,s,vchSig,vchPubKey,split,hashed,_⟩
      have last : key = vchPubKey := (List.append_inj' (show t ++ [key] = (s ++ [vchSig]) ++ [vchPubKey] by rw [split]; simp) rfl).2 |> List.head_eq_of_cons_eq
      exact same (last ▸ hashed)
  · refine iff_of_false ?_ fun both => room both.1
    by_cases first : (t ++ [key]).length+1 ≤ 1000
    · simp only [bind,Except.bind,fits_room (room1.trans_le first)]
      rw [run_onStack (switch_HASH160 env) hashed (by decide) (by decide) (by decide),hash_concat]
      simp only [bind,Except.bind,fits_room (room2.trans_le first)]
      rw [run_data pushed push (size ▸ by decide),fits_full (by rw [room3]; exact room)]
      nofun
    · simp only [bind,Except.bind]
      rw [fits_full (by rw [room1]; exact first)]
      nofun

theorem EvalScript_scripthash {script : CScript} {p : Nat} {hash : valtype} (reads : Reads script [(OP_HASH160,[]),(p,hash),(OP_EQUAL,[])] [])
    (push : p ≤ OP_PUSHDATA4) (size : hash.length = 20) (short : script.length ≤ 10000) (left : Stack) :
    EvalScript env stack script = .ok left ↔
      stack.length+1 ≤ 1000 ∧ ∃ s inside, stack = s ++ [inside] ∧ left = s ++ [if env.Hash160 inside == hash then vchTrue else vchFalse] := by
  obtain ⟨r1,hashed,r2,pushed,r3,compared,rfl⟩ := reads
  rw [EvalScript_still short,run_onStack (switch_HASH160 env) hashed (by decide) (by decide) (by decide)]
  rcases List.eq_nil_or_concat' stack with rfl | ⟨t,inside,rfl⟩
  · rw [hash_none]
    exact iff_of_false nofun fun ⟨_,s,_,same,_⟩ => absurd (congrArg List.length same) (by simp)
  have room1 : (t ++ [env.Hash160 inside]).length = (t ++ [inside]).length := by simp
  have room2 : (t ++ [env.Hash160 inside] ++ [hash]).length = (t ++ [inside]).length+1 := by simp
  rw [hash_concat]
  by_cases first : (t ++ [inside]).length ≤ 1000
  swap
  · simp only [bind,Except.bind]
    rw [fits_full (by rw [room1]; exact first)]
    exact iff_of_false nofun fun both => first (by omega)
  simp only [bind,Except.bind,fits_room (room1.trans_le first)]
  rw [run_data pushed push (size ▸ by decide)]
  by_cases room : (t ++ [inside]).length+1 ≤ 1000
  swap
  · rw [fits_full (by rw [room2]; exact room)]
    exact iff_of_false nofun fun both => room both.1
  have two : t ++ [env.Hash160 inside] ++ [hash] = t ++ [env.Hash160 inside,hash] := List.append_assoc ..
  have answers : pushBool t (OP_EQUAL == OP_EQUALVERIFY) (env.Hash160 inside == hash) =
      .ok (t ++ [if env.Hash160 inside == hash then vchTrue else vchFalse]) := rfl
  have fewer : (t ++ [if env.Hash160 inside == hash then vchTrue else vchFalse]).length ≤ 1000 := by
    rw [List.length_append] at first ⊢
    exact first
  simp only [bind,Except.bind,fits_room (room2.trans_le room)]
  rw [run_onStack (switch_equal env (.inl rfl)) compared (by decide) (by decide) (by decide),two,equal_concat,answers]
  simp only [bind,Except.bind,fits_room fewer,run_end]
  constructor
  · intro same
    exact ⟨room,t,inside,rfl,(Except.ok.inj same).symm⟩
  · rintro ⟨_,s,inside',same,rfl⟩
    obtain ⟨rfl,tops⟩ := List.append_inj' same rfl
    obtain rfl := List.head_eq_of_cons_eq tops
    rfl

/-! ### Keys of which some sign -/

/-- Values pushed one after the other. -/
theorem run_pushes {pushes : List (Nat × valtype)} {ops : List (Nat × valtype)} (reads : Reads pc (pushes ++ ops) rest)
    (pushed : ∀ push ∈ pushes, push.1 ≤ OP_PUSHDATA4 ∧ push.2.length ≤ MAX_SCRIPT_ELEMENT_SIZE) :
    (stack.length+pushes.length ≤ 1000 → ∃ after, Reads after ops rest ∧
      run env (still code pc stack n) = run env (still code after (stack ++ pushes.map Prod.snd) n)) ∧
    (stack.length ≤ 1000 → ¬stack.length+pushes.length ≤ 1000 → run env (still code pc stack n) = .error .refused) := by
  induction pushes generalizing pc stack with
  | nil => exact ⟨fun _ => ⟨pc,reads,by simp⟩,fun room full => absurd room full⟩
  | cons push pushes ih =>
    obtain ⟨after,got,reads⟩ := reads
    obtain ⟨low,short⟩ := pushed push (List.mem_cons_self ..)
    have long : (stack ++ [push.2]).length = stack.length+1 := List.length_append
    obtain ⟨enough,full⟩ := @ih after (stack ++ [push.2]) reads fun other member => pushed other (List.mem_cons_of_mem _ member)
    have count : (push :: pushes).length = pushes.length+1 := rfl
    rw [run_data got low short,count]
    rw [long] at enough full
    constructor
    · intro room
      obtain ⟨behind,reads',run'⟩ := enough (by omega)
      refine ⟨behind,reads',?_⟩
      rw [fits_room (by rw [long]; omega)]
      show run env (still code after (stack ++ [push.2]) n) = _
      simpa using run'
    · intro room more
      by_cases one : stack.length+1 ≤ 1000
      · rw [fits_room (by rw [long]; exact one)]
        exact full one (by omega)
      · rw [fits_full (by rw [long]; exact one)]
        rfl

/-- Fewer values below the keys than signatures are to be. -/
theorem checkMultisig_few {m : Machine} {s : Stack} {vchSigsCount vchKeysCount : valtype} {nSigs : Nat} {keys : List valtype}
    (stack : m.stack = s ++ [vchSigsCount] ++ keys ++ [vchKeysCount]) (sigs : Counts vchSigsCount nSigs) (counted : Counts vchKeysCount keys.length)
    (enough : nSigs ≤ keys.length) (few : keys.length ≤ 20) (ops : m.nOpCount+keys.length ≤ 201) (short : s.length ≤ nSigs) :
    checkMultisig env OP_CHECKMULTISIG m = .error .refused := by
  obtain ⟨bnKeys,castKeys,nKeys⟩ := counted
  obtain ⟨bnSigs,castSigs,nSigs⟩ := sigs
  have long : m.stack.length = s.length+keys.length+2 := by
    rw [stack]
    simp
    omega
  have upside : m.stack.reverse = vchKeysCount :: (keys.reverse ++ vchSigsCount :: s.reverse) := by simp [stack]
  have top : stacktop m.stack (-1) = .ok vchKeysCount := stacktop_eq (k := 0) (by rw [upside]; rfl) rfl
  have count : stacktop m.stack (-(2+(keys.length : Int))) = .ok vchSigsCount := by
    refine stacktop_eq (k := keys.length+1) ?_ (by omega)
    rw [upside,List.getElem?_cons_succ,List.getElem?_append_right (by simp),List.length_reverse,Nat.sub_self]
    rfl
  rw [checkMultisig,need_ok (by omega),top]
  simp only [bind,Except.bind,castKeys,nKeys,Int.toNat_natCast]
  rw [if_neg (by omega),if_neg (by omega),need_ok (by omega),count]
  simp only [castSigs,nSigs]
  rw [if_neg (by omega),need_few (by omega)]

theorem switch_checkMultisig (env : ScriptEnv) (m : Machine) : switch env OP_CHECKMULTISIG m = checkMultisig env OP_CHECKMULTISIG m := by
  simp only [switch,cases,List.find?_cons,isMultisig,List.contains_cons,List.contains_nil]
  rfl

/-- Each of the signatures is one of its own key, in the order of the keys. -/
def Signed (env : ScriptEnv) (code : CScript) (sigs keys : List valtype) : Prop :=
  Matches (fun vchSig vchPubKey => signs env vchSig vchPubKey (codeWithout sigs code)) sigs keys

/-- The operation at the end of a script, on as many keys as are counted. -/
theorem EvalScript_countsKeys {nSigs : Nat} {keys : List valtype} (got : GetOp pc = some (OP_CHECKMULTISIG,data,[])) (enough : nSigs ≤ keys.length)
    (few : keys.length ≤ 16) (room : stack.length+keys.length+2 ≤ 1000) (left : Stack) :
    (run env (still code pc (stack ++ [getvch nSigs] ++ keys ++ [getvch keys.length]) 0) >>= fun m =>
        if m.vfExec.isEmpty then .ok m.stack else .error .refused) = (.ok left : Exec Stack) ↔
      ∃ s extra sigs fSuccess, stack = s ++ [extra] ++ sigs ∧ sigs.length = nSigs ∧ (fSuccess = true ↔ Signed env code sigs keys) ∧
        left = s ++ [if fSuccess then vchTrue else vchFalse] := by
  have sigsCount : Counts (getvch nSigs) nSigs := ⟨nSigs,small_number (by omega)⟩
  have keysCount : Counts (getvch keys.length) keys.length := ⟨keys.length,small_number (by omega)⟩
  rw [run_switch got (by decide) (by decide) (by decide),switch_checkMultisig]
  by_cases below : stack.length ≤ nSigs
  · rw [checkMultisig_few (s := stack) (by simp [still]) sigsCount keysCount enough (by omega) (by simp only [still]; omega) below]
    refine iff_of_false nofun ?_
    rintro ⟨s,extra,sigs,fSuccess,rfl,rfl,_⟩
    simp at below
    omega
  obtain ⟨s,extra,sigs,rfl,long⟩ : ∃ s extra sigs, stack = s ++ [extra] ++ sigs ∧ sigs.length = nSigs := by
    have whole := List.take_append_drop (stack.length-nSigs) stack
    rcases List.eq_nil_or_concat' (stack.take (stack.length-nSigs)) with none | ⟨s,extra,split⟩
    · have counted := congrArg List.length none
      rw [List.length_take,List.length_nil] at counted
      omega
    · exact ⟨s,extra,_,by rw [← split,whole],by rw [List.length_drop]; omega⟩
  obtain rfl := long
  have counted : (MultisigArguments.mk sigs (getvch sigs.length) keys (getvch keys.length)).Counted 1 :=
    ⟨sigsCount,keysCount,enough,by dsimp only; omega,by dsimp only; omega⟩
  have success : greedy (fun vchSig vchPubKey => signs env vchSig vchPubKey (codeWithout sigs code)) sigs.reverse keys.reverse = true ↔
      Signed env code sigs keys := (greedy_iff ..).trans matches_reverse
  have fewer (fSuccess : Bool) : (s ++ [if fSuccess then vchTrue else vchFalse]).length ≤ 1000 := by
    simp at room ⊢
    omega
  have answers := @checkMultisig_eq env (still code [] (s ++ [extra] ++ sigs ++ [getvch sigs.length] ++ keys ++ [getvch keys.length]) (0+1))
    (s ++ [extra]) ⟨sigs,getvch sigs.length,keys,getvch keys.length⟩ (by simp [still,MultisigArguments.values]) counted
  have code' : (still code [] (s ++ [extra] ++ sigs ++ [getvch sigs.length] ++ keys ++ [getvch keys.length]) (0+1)).pbegincodehash = code := rfl
  rw [if_neg (by simp),List.dropLast_concat,code'] at answers
  generalize greedy (fun vchSig vchPubKey => signs env vchSig vchPubKey (codeWithout sigs code)) sigs.reverse keys.reverse = fSuccess at success answers
  have ended : (sized (still code [] (s ++ [if fSuccess then vchTrue else vchFalse]) (0+1+keys.length)) >>= run env >>= fun m =>
      if m.vfExec.isEmpty then .ok m.stack else .error .refused) = (.ok (s ++ [if fSuccess then vchTrue else vchFalse]) : Exec Stack) := by
    rw [sized_still,fits_room (fewer fSuccess)]
    simp only [bind,Except.bind,run_end]
    rfl
  rw [answers]
  refine (Eq.congr_left ended).trans ?_
  constructor
  · intro same
    exact ⟨s,extra,sigs,fSuccess,rfl,rfl,success,(Except.ok.inj same).symm⟩
  · rintro ⟨s',extra',sigs',fSuccess',same,long,success',rfl⟩
    obtain ⟨front,rfl⟩ := List.append_inj' same long.symm
    obtain ⟨rfl,-⟩ := List.append_inj' front rfl
    rw [Bool.eq_iff_iff.mpr (success.trans success'.symm)]

theorem EvalScript_multisig {script : CScript} {pushes : List (Nat × valtype)} {nSigs : Nat}
    (reads : Reads script ((OP_1-1+nSigs,[]) :: (pushes ++ [(OP_1-1+pushes.length,[]),(OP_CHECKMULTISIG,[])])) [])
    (pushed : ∀ push ∈ pushes, push.1 ≤ OP_PUSHDATA4 ∧ push.2.length ≤ MAX_SCRIPT_ELEMENT_SIZE) (some : 1 ≤ nSigs) (enough : nSigs ≤ pushes.length)
    (few : pushes.length ≤ 16) (short : script.length ≤ 10000) (left : Stack) :
    EvalScript env stack script = .ok left ↔
      stack.length+pushes.length+2 ≤ 1000 ∧ ∃ s extra sigs fSuccess, stack = s ++ [extra] ++ sigs ∧ sigs.length = nSigs ∧
        (fSuccess = true ↔ Signed env script sigs (pushes.map Prod.snd)) ∧ left = s ++ [if fSuccess then vchTrue else vchFalse] := by
  obtain ⟨r1,required,reads⟩ := reads
  have number (k : Nat) : OP_1-1+k-(OP_1-1) = k := by omega
  have op (k : Nat) (least : 1 ≤ k) (most : k ≤ 16) : OP_1 ≤ OP_1-1+k ∧ OP_1-1+k ≤ OP_16 := by
    simp only [OP_1,OP_16]
    omega
  have long1 : (stack ++ [getvch nSigs]).length = stack.length+1 := List.length_append
  rw [EvalScript_still short,run_number required (op _ some (enough.trans few)).1 (op _ some (enough.trans few)).2,number]
  by_cases first : stack.length+1 ≤ 1000
  swap
  · rw [fits_full (by rw [long1]; exact first)]
    exact iff_of_false (by rintro ⟨⟩) fun both => first (by omega)
  rw [fits_room (long1.trans_le first)]
  obtain ⟨all,full⟩ := @run_pushes env script _ _ (stack ++ [getvch nSigs]) 0 _ _ reads pushed
  rw [long1] at all full
  show (run env (still script r1 (stack ++ [getvch nSigs]) 0) >>= _) = _ ↔ _
  by_cases second : stack.length+1+pushes.length ≤ 1000
  swap
  · rw [full first second]
    exact iff_of_false (by rintro ⟨⟩) fun both => second (by omega)
  obtain ⟨behind,⟨r2,counted,r3,check,rfl⟩,run'⟩ := all second
  have long2 : (stack ++ [getvch nSigs] ++ pushes.map Prod.snd ++ [getvch pushes.length]).length = stack.length+pushes.length+2 := by
    simp
    omega
  have few' := op _ (some.trans enough) few
  rw [run',run_number counted few'.1 few'.2,number]
  by_cases room : stack.length+pushes.length+2 ≤ 1000
  swap
  · rw [fits_full (by rw [long2]; exact room)]
    exact iff_of_false (by rintro ⟨⟩) fun both => room both.1
  rw [fits_room (long2.trans_le room)]
  have keys : (pushes.map Prod.snd).length = pushes.length := List.length_map ..
  have done := @EvalScript_countsKeys env script r2 stack [] nSigs (pushes.map Prod.snd) check (keys ▸ enough) (keys ▸ few) (keys ▸ room) left
  rw [keys] at done
  exact done.trans ⟨fun spent => ⟨room,spent⟩,And.right⟩

end

end Machine
end Tetra
