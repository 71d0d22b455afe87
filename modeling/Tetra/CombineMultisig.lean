import Tetra.Multisig
import Tetra.ScriptParse
import Tetra.Templates

/-!
Combining the signatures of two scripts for an output that several keys have to sign.
-/
namespace Tetra
open Std CScript Matching
open txnouttype

/-- `PushAll` -/
def PushAll (values : List valtype) : CScript := values.flatMap pushValue

namespace CombineMultisig

/-- `allsigs`: a set in the order of the bytes. -/
def allsigs (sigs1 sigs2 : List valtype) : ExtTreeSet valtype :=
  (sigs1 ++ sigs2).foldl (fun allsigs v => if v.isEmpty then allsigs else allsigs.insert v) ∅

section
variable (env : ScriptEnv) (scriptPubKey : CScript)

/-- Gives a signature to the first key without one that it verifies with. -/
def assign (keys : List valtype) (sigs : ExtTreeMap valtype valtype) (sig : valtype) : ExtTreeMap valtype valtype :=
  match keys.find? fun pubkey => !sigs.contains pubkey && env.CheckSig sig pubkey scriptPubKey with
  | some pubkey => sigs.insert pubkey sig
  | none => sigs

/-- The map from keys to signatures. -/
def assigned (keys sigs1 sigs2 : List valtype) : ExtTreeMap valtype valtype :=
  (allsigs sigs1 sigs2).toList.foldl (assign env scriptPubKey keys) ∅

/-- The signatures of the result, in the order of the keys, and what stands for those that
    are missing. -/
def chosen (keys sigs1 sigs2 : List valtype) (nSigsRequired : Nat) : List valtype :=
  let sigs := assigned env scriptPubKey keys sigs1 sigs2
  let have' := (keys.filterMap fun pubkey => sigs[pubkey]?).take nSigsRequired
  have' ++ List.replicate (nSigsRequired-have'.length) []

end

end CombineMultisig

/-- The keys among the solutions, which stand between the two numbers. -/
def solutionKeys (vSolutions : List valtype) : List valtype := (vSolutions.drop 1).take (vSolutions.length-2)

def solutionCount (vSolutions : List valtype) : Nat := ((vSolutions.headD []).headD 0).toNat

/-- The first `OP_0` is a workaround for the value that `OP_CHECKMULTISIG` pops too many; the
    missing signatures are `OP_0` too, which pushes an empty value. -/
def combineMultisig (env : ScriptEnv) (scriptPubKey : CScript) (vSolutions sigs1 sigs2 : List valtype) : CScript :=
  ofOpcodes [OP_0] ++ PushAll (CombineMultisig.chosen env scriptPubKey (solutionKeys vSolutions) sigs1 sigs2 (solutionCount vSolutions))

/-- `CombineSignatures` of stacks; a script inside of a script takes the last values off. -/
def combineStacks (env : ScriptEnv) : Nat → CScript → txnouttype → List valtype → List valtype → List valtype → CScript
  | fuel, scriptPubKey, txType, vSolutions, sigs1, sigs2 =>
    match txType with
    | TX_NONSTANDARD => if sigs1.length ≥ sigs2.length then PushAll sigs1 else PushAll sigs2
    | TX_PUBKEY | TX_PUBKEYHASH => if sigs1.isEmpty || (sigs1.headD []).isEmpty then PushAll sigs2 else PushAll sigs1
    | TX_SCRIPTHASH =>
      if sigs1.isEmpty || (sigs1.getLastD []).isEmpty then PushAll sigs2
      else if sigs2.isEmpty || (sigs2.getLastD []).isEmpty then PushAll sigs1
      else
        match fuel with
        | 0 => []
        | fuel+1 =>
          let spk := sigs1.getLastD []
          let (_,txType2,vSolutions2) := Solver spk []
          combineStacks env fuel spk txType2 vSolutions2 sigs1.dropLast sigs2.dropLast ++ pushValue spk
    | TX_MULTISIG => combineMultisig env scriptPubKey vSolutions sigs1 sigs2

/-- The stack that `EvalScript` leaves of a signature script on an empty transaction, also where
    it stops. -/
structure LeftStack (blank : ScriptEnv) where
  of : CScript → Stack
  evaluated : ∀ script stack, EvalScript blank [] script = .ok stack → of script = stack

/-- The stacks lose a value at every turn, so their sizes are enough fuel. -/
def CombineSignatures (env : ScriptEnv) {blank : ScriptEnv} (evaluated : LeftStack blank) (scriptPubKey scriptSig1 scriptSig2 : CScript) : CScript :=
  let (_,txType,vSolutions) := Solver scriptPubKey []
  let stack1 := evaluated.of scriptSig1
  combineStacks env stack1.length scriptPubKey txType vSolutions stack1 (evaluated.of scriptSig2)

namespace CombineMultisig

variable {env : ScriptEnv} {scriptPubKey : CScript} {keys sigs1 sigs2 : List valtype}

/-! ### The order of the arguments -/

theorem mem_allsigs {sig : valtype} : sig ∈ allsigs sigs1 sigs2 ↔ sig ∈ sigs1 ++ sigs2 ∧ sig ≠ [] := by
  have inserted (values : List valtype) (start : ExtTreeSet valtype) :
      sig ∈ values.foldl (fun allsigs v => if v.isEmpty then allsigs else allsigs.insert v) start ↔ sig ∈ start ∨ sig ∈ values ∧ sig ≠ [] := by
    induction values generalizing start with
    | nil => simp
    | cons v values ih =>
      rw [List.foldl_cons,ih]
      by_cases empty : v = []
      · simp only [empty,List.isEmpty_nil,if_true,List.mem_cons]
        constructor
        · rintro (before | ⟨later,some⟩)
          · exact .inl before
          · exact .inr ⟨.inr later,some⟩
        · rintro (before | ⟨rfl | later,some⟩)
          · exact .inl before
          · exact absurd rfl some
          · exact .inr ⟨later,some⟩
      · have filled : v.isEmpty = false := by simpa using empty
        simp only [filled,Bool.false_eq_true,if_false,ExtTreeSet.mem_insert,LawfulEqCmp.compare_eq_iff_eq,List.mem_cons]
        constructor
        · rintro ((rfl | before) | ⟨later,some⟩)
          · exact .inr ⟨.inl rfl,empty⟩
          · exact .inl before
          · exact .inr ⟨.inr later,some⟩
        · rintro (before | ⟨rfl | later,some⟩)
          · exact .inl (.inr before)
          · exact .inl (.inl rfl)
          · exact .inr ⟨later,some⟩
  rw [allsigs,inserted]
  simp

theorem allsigs_comm (sigs1 sigs2 : List valtype) : allsigs sigs1 sigs2 = allsigs sigs2 sigs1 := by
  apply ExtTreeSet.ext_mem
  intro sig
  rw [mem_allsigs,mem_allsigs,List.mem_append,List.mem_append,or_comm]

theorem combine_comm (vSolutions : List valtype) : combineMultisig env scriptPubKey vSolutions sigs1 sigs2 = combineMultisig env scriptPubKey vSolutions sigs2 sigs1 := by
  rw [combineMultisig,combineMultisig,chosen,chosen,assigned,assigned,allsigs_comm]

/-! ### Who gets a signature -/

/-- What the map holds: signatures of a set, with keys that they verify with. -/
def Valid (env : ScriptEnv) (scriptPubKey : CScript) (given : List valtype) (sigs : ExtTreeMap valtype valtype) : Prop :=
  ∀ pubkey sig, sigs[pubkey]? = some sig → sig ∈ given ∧ env.CheckSig sig pubkey scriptPubKey = true

theorem assign_valid {given : List valtype} {sigs : ExtTreeMap valtype valtype} (valid : Valid env scriptPubKey given sigs) {sig : valtype}
    (member : sig ∈ given) : Valid env scriptPubKey given (assign env scriptPubKey keys sigs sig) := by
  intro pubkey sig' found
  rw [assign] at found
  split at found
  next chosen first =>
    rw [ExtTreeMap.getElem?_insert] at found
    split at found
    next same =>
      obtain rfl := LawfulEqCmp.eq_of_compare same
      obtain rfl := Option.some.inj found
      have passes := List.find?_some first
      simp only [Bool.and_eq_true] at passes
      exact ⟨member,passes.2⟩
    next => exact valid pubkey sig' found
  next => exact valid pubkey sig' found

theorem assign_keeps {sigs : ExtTreeMap valtype valtype} {pubkey : valtype} (held : pubkey ∈ sigs) (sig : valtype) :
    pubkey ∈ assign env scriptPubKey keys sigs sig := by
  rw [assign]
  split
  · exact ExtTreeMap.mem_insert.mpr (.inr held)
  · exact held

/-- A signature that verifies with no other key is not kept from its own. -/
theorem assign_covers {sig pubkey : valtype} (listed : pubkey ∈ keys) (verifies : env.CheckSig sig pubkey scriptPubKey = true)
    (single : ∀ other ∈ keys, env.CheckSig sig other scriptPubKey = true → other = pubkey) (sigs : ExtTreeMap valtype valtype) :
    pubkey ∈ assign env scriptPubKey keys sigs sig := by
  rw [assign]
  split
  next chosen first =>
    have passes := List.find?_some first
    simp only [Bool.and_eq_true] at passes
    obtain rfl := single chosen (List.mem_of_find?_eq_some first) passes.2
    exact ExtTreeMap.mem_insert_self
  next none =>
    have held := List.find?_eq_none.mp none pubkey listed
    simpa [verifies] using held

theorem assigned_valid : Valid env scriptPubKey (allsigs sigs1 sigs2).toList (assigned env scriptPubKey keys sigs1 sigs2) := by
  have run (rest : List valtype) (inside : ∀ sig ∈ rest, sig ∈ (allsigs sigs1 sigs2).toList) {sigs : ExtTreeMap valtype valtype}
      (valid : Valid env scriptPubKey (allsigs sigs1 sigs2).toList sigs) :
      Valid env scriptPubKey (allsigs sigs1 sigs2).toList (rest.foldl (assign env scriptPubKey keys) sigs) := by
    induction rest generalizing sigs with
    | nil => exact valid
    | cons sig rest ih =>
      exact ih (fun other member => inside other (List.mem_cons_of_mem _ member)) (assign_valid valid (inside sig (List.mem_cons_self ..)))
  exact run _ (fun _ member => member) fun pubkey sig found => by simp at found

theorem assigned_covers {sig pubkey : valtype} (given : sig ∈ allsigs sigs1 sigs2) (listed : pubkey ∈ keys)
    (verifies : env.CheckSig sig pubkey scriptPubKey = true) (single : ∀ other ∈ keys, env.CheckSig sig other scriptPubKey = true → other = pubkey) :
    pubkey ∈ assigned env scriptPubKey keys sigs1 sigs2 := by
  have run (rest : List valtype) {sigs : ExtTreeMap valtype valtype} (here : pubkey ∈ sigs ∨ sig ∈ rest) :
      pubkey ∈ rest.foldl (assign env scriptPubKey keys) sigs := by
    induction rest generalizing sigs with
    | nil =>
      rcases here with held | none
      · exact held
      · contradiction
    | cons next rest ih =>
      refine ih ?_
      rcases here with held | later
      · exact .inl (assign_keeps held next)
      · rcases List.mem_cons.mp later with rfl | later
        · exact .inl (assign_covers listed verifies single sigs)
        · exact .inr later
  exact run _ (.inr (ExtTreeSet.mem_toList.mpr given))

/-! ### The result passes -/

/-- At least so many keys have a signature among the two stacks, as `OP_CHECKMULTISIG` asks. -/
def Covers (env : ScriptEnv) (scriptPubKey : CScript) (keys sigs : List valtype) (nSigsRequired : Nat) : Prop :=
  ∃ covered : List valtype, covered.Nodup ∧ nSigsRequired ≤ covered.length ∧
    ∀ pubkey ∈ covered, pubkey ∈ keys ∧ ∃ sig ∈ sigs, sig ≠ [] ∧ Machine.signs env sig pubkey scriptPubKey = true

/-- No signature verifies with two keys, those that verify are canonical where they have to be,
    and none of them is pushed by the script that it signs. -/
structure Plain (env : ScriptEnv) (scriptPubKey : CScript) (keys sigs : List valtype) : Prop where
  single : ∀ sig ∈ sigs, ∀ pubkey ∈ keys, ∀ other ∈ keys, env.CheckSig sig pubkey scriptPubKey = true → env.CheckSig sig other scriptPubKey = true →
    other = pubkey
  canonical : env.fStrictEncodings = true → ∀ sig ∈ sigs, ∀ pubkey ∈ keys, env.CheckSig sig pubkey scriptPubKey = true →
    IsCanonicalSignature sig = true ∧ IsCanonicalPubKey pubkey = true
  absent : ∀ sig ∈ sigs, sig ≠ [] → FindAndDelete scriptPubKey (pushValue sig) = scriptPubKey

/-- A signature script that lets `OP_CHECKMULTISIG` answer true: a value to spare, and as many
    signatures as are required, which match keys in their order. -/
def Passes (env : ScriptEnv) (scriptPubKey : CScript) (keys : List valtype) (nSigsRequired : Nat) (script : CScript) : Prop :=
  ∃ sigs, script = PushAll ([] :: sigs) ∧ sigs.length = nSigsRequired ∧
    Matches (fun vchSig vchPubKey => Machine.signs env vchSig vchPubKey (Machine.codeWithout sigs scriptPubKey)) sigs keys

theorem codeWithout_absent {sigs : List valtype} (absent : ∀ sig ∈ sigs, FindAndDelete scriptPubKey (pushValue sig) = scriptPubKey) :
    Machine.codeWithout sigs scriptPubKey = scriptPubKey := by
  have run (rest : List valtype) (inside : ∀ sig ∈ rest, sig ∈ sigs) :
      rest.foldl (fun scriptCode vchSig => FindAndDelete scriptCode (pushValue vchSig)) scriptPubKey = scriptPubKey := by
    induction rest with
    | nil => rfl
    | cons sig rest ih =>
      rw [List.foldl_cons,absent sig (inside sig (List.mem_cons_self ..))]
      exact ih fun other member => inside other (List.mem_cons_of_mem _ member)
  exact run _ fun sig member => List.mem_reverse.mp member

/-- With enough keys covered there are no placeholders. -/
theorem chosen_enough {nSigsRequired : Nat} (plain : Plain env scriptPubKey keys (sigs1 ++ sigs2))
    (covers : Covers env scriptPubKey keys (sigs1 ++ sigs2) nSigsRequired) :
    chosen env scriptPubKey keys sigs1 sigs2 nSigsRequired =
        (keys.filterMap fun pubkey => (assigned env scriptPubKey keys sigs1 sigs2)[pubkey]?).take nSigsRequired ∧
      (chosen env scriptPubKey keys sigs1 sigs2 nSigsRequired).length = nSigsRequired := by
  obtain ⟨covered,distinct,many,each⟩ := covers
  have held : ∀ pubkey ∈ covered, pubkey ∈ keys.filter fun pubkey => ((assigned env scriptPubKey keys sigs1 sigs2)[pubkey]?).isSome := by
    intro pubkey member
    obtain ⟨listed,sig,given,some,signed⟩ := each pubkey member
    rw [Machine.signs,Bool.and_eq_true] at signed
    have inside := assigned_covers (mem_allsigs.mpr ⟨given,some⟩) listed signed.2 fun other listed' verifies =>
      plain.single sig given pubkey listed other listed' signed.2 verifies
    exact List.mem_filter.mpr ⟨listed,by simpa using inside⟩
  have long : nSigsRequired ≤ (keys.filterMap fun pubkey => (assigned env scriptPubKey keys sigs1 sigs2)[pubkey]?).length := by
    rw [List.length_filterMap_eq_countP,List.countP_eq_length_filter]
    exact many.trans (List.subperm_of_subset distinct held).length_le
  have full : ((keys.filterMap fun pubkey => (assigned env scriptPubKey keys sigs1 sigs2)[pubkey]?).take nSigsRequired).length = nSigsRequired := by
    rw [List.length_take,Nat.min_eq_left long]
  have whole : chosen env scriptPubKey keys sigs1 sigs2 nSigsRequired =
      (keys.filterMap fun pubkey => (assigned env scriptPubKey keys sigs1 sigs2)[pubkey]?).take nSigsRequired := by
    rw [chosen]
    simp only [full,Nat.sub_self,List.replicate_zero,List.append_nil]
  exact ⟨whole,whole ▸ full⟩

theorem chosen_given {nSigsRequired : Nat} {sig : valtype}
    (member : sig ∈ (keys.filterMap fun pubkey => (assigned env scriptPubKey keys sigs1 sigs2)[pubkey]?).take nSigsRequired) :
    sig ∈ sigs1 ++ sigs2 ∧ sig ≠ [] := by
  obtain ⟨pubkey,_,found⟩ := List.mem_filterMap.mp (List.mem_of_mem_take member)
  exact mem_allsigs.mp (ExtTreeSet.mem_toList.mp (assigned_valid pubkey sig found).1)

theorem chosen_passes {vSolutions : List valtype} (plain : Plain env scriptPubKey (solutionKeys vSolutions) (sigs1 ++ sigs2))
    (covers : Covers env scriptPubKey (solutionKeys vSolutions) (sigs1 ++ sigs2) (solutionCount vSolutions)) :
    Passes env scriptPubKey (solutionKeys vSolutions) (solutionCount vSolutions) (combineMultisig env scriptPubKey vSolutions sigs1 sigs2) := by
  obtain ⟨whole,long⟩ := chosen_enough plain covers
  refine ⟨_,rfl,long,?_⟩
  rw [whole]
  refine matches_take (matches_filterMap fun pubkey listed sig found => ?_) _
  have code := @codeWithout_absent scriptPubKey
    (((solutionKeys vSolutions).filterMap fun pubkey => (assigned env scriptPubKey (solutionKeys vSolutions) sigs1 sigs2)[pubkey]?).take
      (solutionCount vSolutions)) fun sig member => plain.absent sig (chosen_given member).1 (chosen_given member).2
  obtain ⟨given,verifies⟩ := assigned_valid pubkey sig found
  have stacked := (mem_allsigs.mp (ExtTreeSet.mem_toList.mp given)).1
  rw [code,Machine.signs,verifies,Bool.and_true,Bool.or_eq_true,Bool.not_eq_true']
  by_cases strict : env.fStrictEncodings = true
  · obtain ⟨canonical,key⟩ := plain.canonical strict sig stacked pubkey listed verifies
    exact .inr (by rw [canonical,key]; rfl)
  · exact .inl (by simpa using strict)

end CombineMultisig

/-- The result does not depend on the order of the scripts, and passes when their signatures
    cover enough keys. -/
theorem CombineSignatures_enough (env : ScriptEnv) {blank : ScriptEnv} (evaluated : LeftStack blank) {scriptPubKey : CScript} {vSolutions : List valtype}
    (solved : Solver scriptPubKey [] = (true,TX_MULTISIG,vSolutions)) (scriptSig1 scriptSig2 : CScript) :
    (CombineMultisig.Plain env scriptPubKey (solutionKeys vSolutions) (evaluated.of scriptSig1 ++ evaluated.of scriptSig2) →
      CombineMultisig.Covers env scriptPubKey (solutionKeys vSolutions) (evaluated.of scriptSig1 ++ evaluated.of scriptSig2) (solutionCount vSolutions) →
      CombineMultisig.Passes env scriptPubKey (solutionKeys vSolutions) (solutionCount vSolutions)
        (CombineSignatures env evaluated scriptPubKey scriptSig1 scriptSig2)) ∧
    CombineSignatures env evaluated scriptPubKey scriptSig1 scriptSig2 = CombineSignatures env evaluated scriptPubKey scriptSig2 scriptSig1 := by
  have combined (scriptSig1 scriptSig2 : CScript) : CombineSignatures env evaluated scriptPubKey scriptSig1 scriptSig2 =
      combineMultisig env scriptPubKey vSolutions (evaluated.of scriptSig1) (evaluated.of scriptSig2) := by
    rw [CombineSignatures,solved]
    dsimp only
    rw [combineStacks.eq_def]
  rw [combined,combined]
  exact ⟨CombineMultisig.chosen_passes,CombineMultisig.combine_comm vSolutions⟩

/-! ### Samples -/

/-- A script of pushes has one way to be read. -/
theorem PushAll_injective {values values' : List valtype} (same : PushAll values = PushAll values') (short : (PushAll values).length < 2^32) :
    values = values' := by
  have added (values : List valtype) (before : CScript) : appendAll before (values.map Item.push) = .ok (before ++ PushAll values) := by
    induction values generalizing before with
    | nil => rw [PushAll,List.flatMap_nil,List.append_nil]; rfl
    | cons value values ih =>
      rw [PushAll,List.flatMap_cons,← List.append_assoc]
      exact ih (before ++ pushValue value)
  have read (values : List valtype) (short : (PushAll values).length < 2^32) (fuel : Nat) (enough : values.length < fuel) :
      parse (PushAll values) fuel 0 = some ((values.map Item.push).map Item.parsed,(PushAll values).length) :=
    parse_items (by simp [Item.plain]) (added values []) short fuel (by rwa [List.length_map])
  have left := read values short (values.length+values'.length+1) (by omega)
  have right := read values' (same ▸ short) (values.length+values'.length+1) (by omega)
  rw [same,right] at left
  have pairs := congrArg (List.map Prod.snd) (Prod.mk.inj (Option.some.inj left)).1
  have pushed (values : List valtype) : ((values.map Item.push).map Item.parsed).map Prod.snd = values := by
    rw [List.map_map,List.map_map]
    exact List.map_id values
  rw [pushed,pushed] at pairs
  exact pairs.symm

private def blankEnv : ScriptEnv := ⟨true,fun _ _ _ => false,id,id,id,id,id⟩
private def leftOf : LeftStack blankEnv where
  of script := (EvalScript blankEnv [] script).toOption.getD []
  evaluated script stack run := by rw [run]; rfl

private def envOf (strict : Bool) (CheckSig : valtype → valtype → CScript → Bool) : ScriptEnv := ⟨strict,CheckSig,id,id,id,id,id⟩
private def keyA : valtype := 2 :: List.replicate 32 1
private def keyB : valtype := 4 :: List.replicate 64 1
private def keyS : valtype := 48 :: List.replicate 32 5
private def canonicalSig : valtype := [48,6,2,1,1,2,1,1,1]
private def required (m : Nat) (keys : List valtype) : CScript :=
  ofOpcodes [smallOp m] ++ PushAll keys ++ ofOpcodes [smallOp keys.length,OP_CHECKMULTISIG]

private def bothEnv : ScriptEnv := envOf false fun sig key _ => sig == [10] && key == keyA || sig == [11] && key == keyB

/-- One signature in each script. -/
theorem CombineSignatures_enough_two :
    CombineMultisig.Passes bothEnv (required 2 [keyA,keyB]) [keyA,keyB] 2 (CombineSignatures bothEnv leftOf (required 2 [keyA,keyB]) [0,1,11] [0,1,10]) := by
  have solved : Solver (required 2 [keyA,keyB]) [] = (true,TX_MULTISIG,[[2],keyA,keyB,[2]]) := by decide +kernel
  have left : leftOf.of [0,1,11] = [[],[11]] ∧ leftOf.of [0,1,10] = [[],[10]] := by decide +kernel
  have result := (CombineSignatures_enough bothEnv leftOf solved [0,1,11] [0,1,10]).1
  rw [left.1,left.2] at result
  refine result ⟨by decide +kernel,by decide +kernel,by decide +kernel⟩ ⟨[keyA,keyB],by decide +kernel,by decide +kernel,?_⟩
  intro pubkey member
  rcases List.mem_pair.mp member with rfl | rfl
  · exact ⟨by decide +kernel,[10],by decide +kernel⟩
  · exact ⟨by decide +kernel,[11],by decide +kernel⟩

/-- The signatures cover enough keys, and the result does not pass. -/
private def Loses (env : ScriptEnv) (scriptPubKey scriptSig1 scriptSig2 : CScript) : Prop :=
  ∃ vSolutions, Solver scriptPubKey [] = (true,TX_MULTISIG,vSolutions) ∧
    CombineMultisig.Covers env scriptPubKey (solutionKeys vSolutions) (leftOf.of scriptSig1 ++ leftOf.of scriptSig2) (solutionCount vSolutions) ∧
    ¬CombineMultisig.Passes env scriptPubKey (solutionKeys vSolutions) (solutionCount vSolutions)
      (CombineSignatures env leftOf scriptPubKey scriptSig1 scriptSig2)

/-- What is pushed does not match the keys, though some keys are covered. -/
private theorem loses_of {env : ScriptEnv} {scriptPubKey scriptSig1 scriptSig2 : CScript} (vSolutions covered sigs : List valtype)
    (solved : Solver scriptPubKey [] = (true,TX_MULTISIG,vSolutions))
    (covers : covered.Nodup ∧ solutionCount vSolutions ≤ covered.length ∧ ∀ pubkey ∈ covered, pubkey ∈ solutionKeys vSolutions ∧
      ∃ sig ∈ leftOf.of scriptSig1 ++ leftOf.of scriptSig2, sig ≠ [] ∧ Machine.signs env sig pubkey scriptPubKey = true)
    (result : CombineSignatures env leftOf scriptPubKey scriptSig1 scriptSig2 = PushAll ([] :: sigs) ∧ (PushAll ([] :: sigs)).length < 2^32)
    (apart : greedy (fun vchSig vchPubKey => Machine.signs env vchSig vchPubKey (Machine.codeWithout sigs scriptPubKey)) sigs (solutionKeys vSolutions) =
      false) : Loses env scriptPubKey scriptSig1 scriptSig2 := by
  refine ⟨vSolutions,solved,⟨covered,covers⟩,?_⟩
  rintro ⟨pushed,same,_,pairs⟩
  obtain ⟨-,rfl⟩ := List.cons.inj (PushAll_injective (result.1.symm.trans same) result.2)
  exact absurd ((greedy_iff ..).mpr pairs) (by simp [apart])

/-- Two encodings of one key: `[10]` is given to the first, and nothing is left for the other. -/
private def twiceEnv : ScriptEnv := envOf false fun sig key _ => sig == [10] && (key == keyA || key == keyB)

/-- A listed key is the signature itself, and is taken out of the code that is signed. -/
private def wholeEnv : ScriptEnv := envOf false fun sig key code => sig == keyS && key == keyB && code == required 1 [keyS,keyB]

/-- A signature that is not canonical is given to the key before the canonical one. -/
private def strictEnv : ScriptEnv := envOf true fun sig key _ => (sig == [10] || sig == canonicalSig) && key == keyA

/-- The signatures are given to keys one by one, with no look at what the later ones need. -/
theorem displaced_signatures : Loses twiceEnv (required 2 [keyA,keyB]) [0,1,10] [0,1,10] ∧
    Loses wholeEnv (required 1 [keyS,keyB]) (pushValue keyS) [] ∧
    Loses strictEnv (required 1 [keyA]) [0,1,10] (pushValue canonicalSig) := by
  refine ⟨?_,?_,?_⟩
  · exact loses_of [[2],keyA,keyB,[2]] [keyA,keyB] [[10],[]] (by decide +kernel) (by decide +kernel) (by decide +kernel) (by decide +kernel)
  · exact loses_of [[1],keyS,keyB,[2]] [keyB] [keyS] (by decide +kernel) (by decide +kernel) (by decide +kernel) (by decide +kernel)
  · exact loses_of [[1],keyA,[1]] [keyA] [[10]] (by decide +kernel) (by decide +kernel) (by decide +kernel) (by decide +kernel)

end Tetra
