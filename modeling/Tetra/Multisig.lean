import Tetra.Matching
import Tetra.ScriptLimits

/-!
What `OP_CHECKMULTISIG` decides: whether the signatures match keys in their order, and
which values of the stack it takes.
-/
namespace Tetra.Machine
open Matching CScript

/-- A value of the stack that counts as a number. -/
def Counts (vch : valtype) (n : Nat) : Prop := ∃ bn, CastToBigNum vch = .ok bn ∧ getint bn = n

/-! ### The stack from its end -/

/-- The value at an offset, in the stack read from its top. -/
theorem stacktop_eq {stack : Stack} {k : Nat} {vch : valtype} (here : stack.reverse[k]? = some vch) {i : Int} (offset : i = -(k+1 : Nat)) :
    stacktop stack i = .ok vch := by
  have inside : k < stack.length := by simpa using (List.getElem?_eq_some_iff.mp here).1
  have place : ((stack.length : Int)+i).toNat = stack.length-1-k := by omega
  rw [List.getElem?_reverse inside] at here
  rw [stacktop,if_pos (by omega),place,List.getD_eq_getElem?_getD,here]
  rfl

theorem need_ok {stack : Stack} {n : Int} (enough : n ≤ stack.length) : need stack n = .ok () := if_neg (by omega)

theorem popAll_eq {k : Nat} {stack : Stack} (enough : k ≤ stack.length) : popAll k stack = .ok (stack.take (stack.length-k)) := by
  induction k generalizing stack with
  | zero => simp [popAll]
  | succ k ih =>
    have filled : stack.isEmpty = false := by
      rw [List.isEmpty_eq_false_iff,← List.length_pos_iff]
      omega
    have rest := @ih stack.dropLast (by rw [List.length_dropLast]; omega)
    have fewer : min (stack.length-1-k) (stack.length-1) = stack.length-(k+1) := by omega
    rw [List.length_dropLast,List.dropLast_eq_take,List.take_take,fewer] at rest
    rw [popAll,popstack,filled,if_neg Bool.false_ne_true,List.dropLast_eq_take]
    exact rest

section
variable (env : ScriptEnv)

/-! ### The loop is the greedy search -/

/-- The script code without the signatures, the last one first. -/
def codeWithout (sigs : List valtype) (scriptCode : CScript) : CScript :=
  sigs.reverse.foldl (fun scriptCode vchSig => FindAndDelete scriptCode (pushValue vchSig)) scriptCode

theorem dropSignatures_eq {stack : Stack} {first : Nat} {sigs : List valtype} (here : ∀ k < sigs.length, stack.reverse[first+k]? = sigs[k]?)
    (scriptCode : CScript) : dropSignatures stack (first+1 : Nat) sigs.length scriptCode =
      .ok (sigs.foldl (fun scriptCode vchSig => FindAndDelete scriptCode (pushValue vchSig)) scriptCode) := by
  have upTo (m : Nat) (within : m ≤ sigs.length) : dropSignatures stack (first+1 : Nat) m scriptCode =
      .ok ((sigs.take m).foldl (fun scriptCode vchSig => FindAndDelete scriptCode (pushValue vchSig)) scriptCode) := by
    induction m with
    | zero => rfl
    | succ m ih =>
      have before := ih (by omega)
      have read : stack.reverse[first+m]? = some sigs[m] := (here m within).trans (List.getElem?_eq_getElem within)
      rw [dropSignatures,Int.toNat_natCast] at before ⊢
      rw [List.range_succ,List.foldlM_append,before,List.take_add_one,List.getElem?_eq_getElem within,List.foldl_append]
      have top : stacktop stack (-((first+1 : Nat) : Int)-m) = .ok sigs[m] := stacktop_eq read (by omega)
      simp only [List.foldlM_cons,List.foldlM_nil,top]
      rfl
  have all := upTo sigs.length le_rfl
  rwa [List.take_length] at all

/-- One turn of the loop. -/
theorem checkSignatures_step {stack : Stack} (scriptCode : CScript) (fuel : Nat) {isig ikey nSigsCount nKeysCount : Int} (some : 0 < nSigsCount)
    {vchSig vchPubKey : valtype} (sig : stacktop stack (-isig) = .ok vchSig) (key : stacktop stack (-ikey) = .ok vchPubKey) :
    checkSignatures env stack scriptCode (fuel+1) true isig ikey nSigsCount nKeysCount =
      if signs env vchSig vchPubKey scriptCode then
        checkSignatures env stack scriptCode fuel (!(nSigsCount-1 > nKeysCount-1)) (isig+1) (ikey+1) (nSigsCount-1) (nKeysCount-1)
      else checkSignatures env stack scriptCode fuel (!(nSigsCount > nKeysCount-1)) isig (ikey+1) nSigsCount (nKeysCount-1) := by
  have more : (true && decide (nSigsCount > 0)) = true := by simpa using some
  rw [checkSignatures.eq_def]
  dsimp only
  rw [if_pos more,sig,key]
  by_cases signed : signs env vchSig vchPubKey scriptCode
  · rw [if_pos signed]
    simp only [bind,Except.bind,signed,if_true]
  · rw [if_neg signed]
    simp only [bind,Except.bind,signed]
    rfl

theorem checkSignatures_stop {stack : Stack} {scriptCode : CScript} {fuel : Nat} {isig ikey nSigsCount nKeysCount : Int} :
    checkSignatures env stack scriptCode fuel false isig ikey nSigsCount nKeysCount = .ok false := by
  rw [checkSignatures.eq_def]
  rfl

/-- The loop stops early only when more signatures than keys are left, which cannot match. -/
theorem checkSignatures_eq {stack : Stack} (scriptCode : CScript) {fuel first next : Nat} {sigs keys : List valtype}
    (sigsHere : ∀ k < sigs.length, stack.reverse[first+k]? = sigs[k]?) (keysHere : ∀ k < keys.length, stack.reverse[next+k]? = keys[k]?)
    (enough : keys.length ≤ fuel) (fits : sigs.length ≤ keys.length) :
    checkSignatures env stack scriptCode fuel true (first+1 : Nat) (next+1 : Nat) sigs.length keys.length =
      .ok (greedy (fun vchSig vchPubKey => signs env vchSig vchPubKey scriptCode) sigs keys) := by
  induction sigs, keys using greedy.induct (fun vchSig vchPubKey => signs env vchSig vchPubKey scriptCode) generalizing fuel first next with
  | case1 keys =>
    rw [checkSignatures.eq_def]
    simp [greedy]
  | case2 vchSig sigs => simp at fits
  | case3 vchSig sigs vchPubKey keys signed ih =>
    obtain ⟨fuel,rfl⟩ : ∃ less, fuel = less+1 := ⟨fuel-1,by rw [List.length_cons] at enough; omega⟩
    rw [List.length_cons] at enough
    rw [List.length_cons,List.length_cons] at fits
    have sig : stacktop stack (-((first+1 : Nat) : Int)) = .ok vchSig := stacktop_eq (sigsHere 0 (by simp)) rfl
    have key : stacktop stack (-((next+1 : Nat) : Int)) = .ok vchPubKey := stacktop_eq (keysHere 0 (by simp)) rfl
    have rest := @ih fuel (first+1) (next+1) (fun k within => by simpa [Nat.add_assoc,Nat.add_comm 1] using sigsHere (k+1) (by simpa using within))
      (fun k within => by simpa [Nat.add_assoc,Nat.add_comm 1] using keysHere (k+1) (by simpa using within)) (by omega) (by omega)
    have still : (!decide ((sigs.length : Int) > keys.length)) = true := by simpa using by omega
    have fewerSigs : (((vchSig :: sigs).length : Nat) : Int)-1 = sigs.length := by simp
    have fewerKeys : (((vchPubKey :: keys).length : Nat) : Int)-1 = keys.length := by simp
    rw [checkSignatures_step env scriptCode fuel (by simp) sig key,if_pos signed,fewerSigs,fewerKeys,still,greedy,if_pos signed]
    exact rest
  | case4 vchSig sigs vchPubKey keys signed ih =>
    obtain ⟨fuel,rfl⟩ : ∃ less, fuel = less+1 := ⟨fuel-1,by rw [List.length_cons] at enough; omega⟩
    rw [List.length_cons] at enough
    have sig : stacktop stack (-((first+1 : Nat) : Int)) = .ok vchSig := stacktop_eq (sigsHere 0 (by simp)) rfl
    have key : stacktop stack (-((next+1 : Nat) : Int)) = .ok vchPubKey := stacktop_eq (keysHere 0 (by simp)) rfl
    have fewerKeys : (((vchPubKey :: keys).length : Nat) : Int)-1 = keys.length := by simp
    rw [checkSignatures_step env scriptCode fuel (by simp) sig key,if_neg signed,fewerKeys,greedy,if_neg signed]
    by_cases room : (vchSig :: sigs).length ≤ keys.length
    · have still : (!decide (((vchSig :: sigs).length : Int) > keys.length)) = true := by simpa using by simpa using room
      rw [still]
      exact @ih fuel first (next+1) sigsHere
        (fun k within => by simpa [Nat.add_assoc,Nat.add_comm 1] using keysHere (k+1) (by simpa using within)) (by omega) room
    · have stop : (!decide (((vchSig :: sigs).length : Int) > keys.length)) = false := by simpa using by simpa using room
      have unmatched : greedy (fun vchSig vchPubKey => signs env vchSig vchPubKey scriptCode) (vchSig :: sigs) keys = false := by
        rw [← Bool.not_eq_true,greedy_iff]
        exact fun matched => room (matches_length matched)
      rw [stop,checkSignatures_stop,unmatched]

/-! ### The operation -/

/-- What the operation takes: signatures, their number, keys, and their number. -/
structure MultisigArguments where
  sigs : List valtype
  vchSigsCount : valtype
  keys : List valtype
  vchKeysCount : valtype

namespace MultisigArguments

def values (args : MultisigArguments) : Stack := args.sigs ++ [args.vchSigsCount] ++ args.keys ++ [args.vchKeysCount]

/-- The counts are those of the lists and within the limits of an operation. -/
structure Counted (args : MultisigArguments) (nOpCount : Nat) : Prop where
  sigs : Counts args.vchSigsCount args.sigs.length
  keys : Counts args.vchKeysCount args.keys.length
  enough : args.sigs.length ≤ args.keys.length
  few : args.keys.length ≤ 20
  ops : nOpCount+args.keys.length ≤ 201

/-- Each signature is one of its own key, in the order of the keys. -/
def Signed (args : MultisigArguments) (pbegincodehash : CScript) : Prop :=
  Matches (fun vchSig vchPubKey => signs env vchSig vchPubKey (codeWithout args.sigs pbegincodehash)) args.sigs args.keys

end MultisigArguments

variable {env} {m : Machine} {below : Stack} {args : MultisigArguments}

/-- The operation needs a value below its arguments, and takes it with them. -/
theorem checkMultisig_eq (stack : m.stack = below ++ args.values) (counted : args.Counted m.nOpCount) :
    checkMultisig env OP_CHECKMULTISIG m = if below.length < 1 then .error .refused else
      .ok {m with
        stack := below.dropLast ++ [if greedy (fun vchSig vchPubKey => signs env vchSig vchPubKey (codeWithout args.sigs m.pbegincodehash))
          args.sigs.reverse args.keys.reverse then vchTrue else vchFalse]
        nOpCount := m.nOpCount+args.keys.length} := by
  obtain ⟨bnKeys,castKeys,nKeys⟩ := counted.keys
  obtain ⟨bnSigs,castSigs,nSigs⟩ := counted.sigs
  have long : m.stack.length = below.length+args.sigs.length+args.keys.length+2 := by
    simp [stack,MultisigArguments.values]
    omega
  have upside : m.stack.reverse = args.vchKeysCount :: (args.keys.reverse ++ args.vchSigsCount :: (args.sigs.reverse ++ below.reverse)) := by
    simp [stack,MultisigArguments.values]
  have keysHere : ∀ k < args.keys.reverse.length, m.stack.reverse[1+k]? = args.keys.reverse[k]? := by
    intro k within
    rw [upside,Nat.add_comm,List.getElem?_cons_succ,List.getElem?_append_left within]
  have sigsHere : ∀ k < args.sigs.reverse.length, m.stack.reverse[args.keys.length+2+k]? = args.sigs.reverse[k]? := by
    intro k within
    rw [upside,show args.keys.length+2+k = args.keys.reverse.length+(k+1)+1 by rw [List.length_reverse]; omega,List.getElem?_cons_succ,
      List.getElem?_append_right (Nat.le_add_right _ _),Nat.add_sub_cancel_left,List.getElem?_cons_succ,List.getElem?_append_left within]
  have top : stacktop m.stack (-1) = .ok args.vchKeysCount := stacktop_eq (k := 0) (by rw [upside]; rfl) rfl
  have count : stacktop m.stack (-(2+(args.keys.length : Int))) = .ok args.vchSigsCount := by
    refine stacktop_eq (k := args.keys.length+1) ?_ (by omega)
    rw [upside,List.getElem?_cons_succ,List.getElem?_append_right (by simp),List.length_reverse,Nat.sub_self]
    rfl
  have code := dropSignatures_eq sigsHere m.pbegincodehash
  have loop := @checkSignatures_eq env m.stack (codeWithout args.sigs m.pbegincodehash) args.keys.length _ _ _ _ sigsHere keysHere (by simp)
    (by simpa using counted.enough)
  rw [List.length_reverse] at code loop
  rw [List.length_reverse] at loop
  have first : (2 : Int)+args.keys.length+1 = (args.keys.length+2+1 : Nat) := by omega
  have taken : ((args.keys.length+2+1 : Nat)+(args.sigs.length : Int)).toNat = args.keys.length+2+1+args.sigs.length := by omega
  have enough := counted.enough
  have few := counted.few
  have ops := counted.ops
  rw [checkMultisig,need_ok (by omega),top]
  simp only [bind,Except.bind,castKeys,nKeys,Int.toNat_natCast]
  rw [if_neg (by omega),if_neg (by omega),need_ok (by omega),count]
  simp only [castSigs,nSigs]
  rw [if_neg (by omega),first]
  by_cases none : below.length < 1
  · rw [if_pos none,need,if_pos (by omega)]
  · have rest : m.stack.take (m.stack.length-(args.keys.length+2+1+args.sigs.length)) = below.dropLast := by
      rw [long,List.dropLast_eq_take,stack,List.take_append_of_le_length (by omega)]
      congr 1
      omega
    rw [if_neg none,need_ok (by omega),taken,popAll_eq (by omega),rest]
    rw [show ((1+1 : Nat) : Int) = 2 from rfl,codeWithout] at loop
    simp only [code,loop,codeWithout]
    rfl

/-- The operation on its arguments leaves what stood below them and whether they match. -/
def MultisigMeets (env : ScriptEnv) (m : Machine) (below : Stack) (args : MultisigArguments) : Prop :=
  ∃ after fSuccess, checkMultisig env OP_CHECKMULTISIG m = .ok after ∧
    after.stack = below ++ [if fSuccess then vchTrue else vchFalse] ∧ (fSuccess = true ↔ args.Signed env m.pbegincodehash)

/-- It decides the matching, but takes the value below its arguments too, or stops when
    there is none. -/
theorem checkMultisig_takes_more (stack : m.stack = below ++ args.values) (counted : args.Counted m.nOpCount) :
    (below = [] → checkMultisig env OP_CHECKMULTISIG m = .error .refused) ∧
    (∀ rest extra, below = rest ++ [extra] → ∃ fSuccess : Bool, (fSuccess = true ↔ args.Signed env m.pbegincodehash) ∧
      checkMultisig env OP_CHECKMULTISIG m =
        .ok {m with stack := rest ++ [if fSuccess then vchTrue else vchFalse],nOpCount := m.nOpCount+args.keys.length}) ∧
    ¬MultisigMeets env m below args := by
  have answer := @checkMultisig_eq env m below args stack counted
  refine ⟨?_,?_,?_⟩
  · rintro rfl
    exact answer
  · rintro rest extra rfl
    refine ⟨greedy (fun vchSig vchPubKey => signs env vchSig vchPubKey (codeWithout args.sigs m.pbegincodehash)) args.sigs.reverse
      args.keys.reverse,?_,?_⟩
    · rw [greedy_iff,matches_reverse]
      rfl
    · rw [answer,if_neg (by simp),List.dropLast_concat]
  · rintro ⟨after,fSuccess,run,left,_⟩
    rw [run] at answer
    by_cases none : below.length < 1
    · rw [if_pos none] at answer
      contradiction
    · rw [if_neg none] at answer
      obtain rfl := Except.ok.inj answer
      have long := congrArg List.length left
      simp only [List.length_append,List.length_dropLast,List.length_singleton] at long
      omega

end

private def accepting : ScriptEnv := ⟨false,fun vchSig vchPubKey _ => vchSig == vchPubKey,id,id,id,id,id⟩
private def oneOfTwo : MultisigArguments := ⟨[[11]],[1],[[10],[11]],[2]⟩
private def beforeMultisig : Machine := {pc := [],stack := [[7],[]] ++ oneOfTwo.values,pbegincodehash := []}

/-- A signature of the second of two keys: the answer is true, and one value less is left
    than stood below the arguments. -/
theorem checkMultisig_takes_more_two : ¬MultisigMeets accepting beforeMultisig [[7],[]] oneOfTwo :=
  (@checkMultisig_takes_more accepting beforeMultisig [[7],[]] oneOfTwo rfl
    ⟨⟨1,by decide +kernel,by decide⟩,⟨2,by decide +kernel,by decide⟩,by decide,by decide,by decide⟩).2.2

theorem multisig_left : checkMultisig accepting OP_CHECKMULTISIG beforeMultisig =
      .ok {pc := [],stack := [[7],[1]],pbegincodehash := [],nOpCount := 2} ∧
    ¬MultisigMeets accepting beforeMultisig [[7],[]] oneOfTwo := by
  have run : checkMultisig accepting OP_CHECKMULTISIG beforeMultisig = .ok {pc := [],stack := [[7],[1]],pbegincodehash := [],nOpCount := 2} := by
    decide +kernel
  refine ⟨run,?_⟩
  rintro ⟨after,fSuccess,run',left,_⟩
  obtain rfl := Except.ok.inj (run.symm.trans run')
  have long := congrArg List.length left
  simp at long

end Tetra.Machine
