import Tetra.Mempool
import Tetra.ScriptLimits
import Tetra.ScriptParse
import Tetra.Templates

/-!
Standard transactions: the rules for scripts, and the limits that hold of what the memory
pool lets in.
-/
namespace Tetra
open Std CScript Codec
open txnouttype

namespace CScript

/-- A loop over the operations of a script, which stops at what cannot be read. Every
    operation takes a byte, so the length of the script is enough fuel. -/
def everyOp (check : Nat → valtype → Bool) : Nat → CScript → Bool
  | 0, _ => true
  | fuel+1, script =>
    if script.isEmpty then true
    else
      match GetOp script with
      | none => false
      | some (opcode,data,rest) => if check opcode data = false then false else everyOp check fuel rest

def IsPushOnly (script : CScript) : Bool := everyOp (fun opcode _ => !(opcode > OP_16)) script.length script

/-- What `HasCanonicalPushes` asks of one operation. -/
def canonicalPush (opcode : Nat) (data : valtype) : Bool :=
  if opcode > OP_16 then true
  -- Could have used an OP_n code, rather than a 1-byte push.
  else if opcode < OP_PUSHDATA1 ∧ opcode > OP_0 ∧ data.length = 1 ∧ data.headD 0 ≤ 16 then false
  -- Could have used a shorter form of the push.
  else if opcode = OP_PUSHDATA1 ∧ data.length < OP_PUSHDATA1 then false
  else if opcode = OP_PUSHDATA2 ∧ data.length ≤ 0xff then false
  else if opcode = OP_PUSHDATA4 ∧ data.length ≤ 0xffff then false
  else true

def HasCanonicalPushes (script : CScript) : Bool := everyOp canonicalPush script.length script

/-- `::IsStandard` -/
def IsStandard (scriptPubKey : CScript) : Bool :=
  let (solved,whichType,vSolutions) := Solver scriptPubKey []
  let m := ((vSolutions.headD []).headD 0).toNat
  let n := ((vSolutions.getLastD []).headD 0).toNat
  if !solved then false
  -- Up to x-of-3 is supported.
  else if whichType = TX_MULTISIG ∧ (n < 1 ∨ n > 3) then false
  else if whichType = TX_MULTISIG ∧ (m < 1 ∨ m > n) then false
  else whichType ≠ TX_NONSTANDARD

/-! ### What the rules mean -/

/-- A script that can be read to its end, operation by operation. -/
inductive Operations : CScript → List (Nat × valtype) → Prop
  | nil : Operations [] []
  | cons {script rest : CScript} {opcode : Nat} {data : valtype} {ops : List (Nat × valtype)} (got : GetOp script = some (opcode,data,rest))
      (after : Operations rest ops) : Operations script ((opcode,data) :: ops)

theorem Operations.unique {script : CScript} {ops ops' : List (Nat × valtype)} (read : Operations script ops) (read' : Operations script ops') :
    ops = ops' := by
  induction read generalizing ops' with
  | nil =>
    cases read' with
    | nil => rfl
    | cons got => contradiction
  | cons got after ih =>
    cases read' with
    | nil => contradiction
    | cons got' after' =>
      obtain ⟨rfl,rfl,rfl⟩ := Option.some.inj (got.symm.trans got')
      rw [ih after']

/-- The operation is the one that the data is pushed with, which is a number by itself for
    the bytes 0 to 16. -/
def CanonicalPush (opcode : Nat) (data : valtype) : Prop :=
  opcode ≤ OP_PUSHDATA4 → opcode = pushOpcode data ∧ ¬∃ byte ≤ 16, data = [byte]

theorem everyOp_iff (check : Nat → valtype → Bool) {fuel : Nat} {script : CScript} (enough : script.length ≤ fuel) :
    everyOp check fuel script = true ↔ ∃ ops, Operations script ops ∧ ∀ op ∈ ops, check op.1 op.2 = true := by
  induction fuel generalizing script with
  | zero =>
    obtain rfl := List.length_eq_zero_iff.mp (Nat.le_zero.mp enough)
    exact iff_of_true rfl ⟨[],.nil,by simp⟩
  | succ fuel ih =>
    rw [everyOp]
    cases script with
    | nil => exact iff_of_true rfl ⟨[],.nil,by simp⟩
    | cons first after =>
      rw [List.isEmpty_cons,if_neg Bool.false_ne_true]
      cases got : GetOp (first :: after) with
      | none =>
        refine iff_of_false Bool.false_ne_true ?_
        rintro ⟨ops,read,-⟩
        cases read with
        | cons got' => rw [got] at got'; contradiction
      | some op =>
        obtain ⟨opcode,data,rest⟩ := op
        have shorter := Machine.GetOp_shortens got
        dsimp only
        by_cases passes : check opcode data = true
        · rw [if_neg (by simp [passes]),ih (by rw [List.length_cons] at enough shorter; omega)]
          constructor
          · rintro ⟨ops,read,each⟩
            exact ⟨_,.cons got read,List.forall_mem_cons.mpr ⟨passes,each⟩⟩
          · rintro ⟨ops,read,each⟩
            cases read with
            | cons got' read =>
              obtain ⟨rfl,rfl,rfl⟩ := Option.some.inj (got.symm.trans got')
              exact ⟨_,read,fun op member => each op (List.mem_cons_of_mem _ member)⟩
        · rw [if_pos (by simpa using passes)]
          refine iff_of_false Bool.false_ne_true ?_
          rintro ⟨ops,read,each⟩
          cases read with
          | cons got' read =>
            obtain ⟨rfl,rfl,rfl⟩ := Option.some.inj (got.symm.trans got')
            exact passes (each _ (List.mem_cons_self ..))

theorem leNat_lt (bytes : List UInt8) : leNat bytes < 256^bytes.length := by
  induction bytes with
  | nil => exact Nat.one_pos
  | cons byte rest ih =>
    have small := byte.toNat_lt
    rw [leNat,List.length_cons,pow_succ]
    omega

theorem readSize_lt {width nSize : Nat} {bytes rest : List UInt8} (got : readSize width bytes = some (nSize,rest)) : nSize < 256^width := by
  rw [readSize_eq] at got
  split at got
  next => contradiction
  next enough =>
    obtain ⟨rfl,-⟩ := Prod.mk.inj (Option.some.inj got)
    have := leNat_lt (bytes.take width)
    rwa [List.length_take_of_le (by omega)] at this

/-- How much data an operation can push. -/
theorem GetOp_sized {script rest : CScript} {opcode : Nat} {data : valtype} (got : GetOp script = some (opcode,data,rest)) :
    (opcode < OP_PUSHDATA1 → data.length = opcode) ∧ (opcode = OP_PUSHDATA1 → data.length ≤ 0xff) ∧
      (opcode = OP_PUSHDATA2 → data.length ≤ 0xffff) := by
  cases script with
  | nil => contradiction
  | cons first after =>
    rw [GetOp] at got
    split at got
    next low =>
      split at got
      next => contradiction
      next nSize behind sized =>
        split at got
        next => contradiction
        next =>
          obtain ⟨rfl,rfl,-⟩ := got
          have taken : (behind.take nSize).length ≤ nSize := List.length_take_le ..
          split at sized
          next direct =>
            obtain ⟨rfl,rfl⟩ := Prod.mk.inj (Option.some.inj sized)
            refine ⟨fun _ => List.length_take_of_le (by omega),fun same => absurd same direct.ne,fun same => ?_⟩
            exact absurd (same ▸ direct) (by decide)
          next above =>
            refine ⟨fun direct => absurd direct above,fun same => ?_,fun same => ?_⟩
            · rw [if_pos same] at sized
              have := readSize_lt sized
              omega
            · have other : ¬first.toNat = OP_PUSHDATA1 := by rw [same]; decide
              rw [if_neg other,if_pos same] at sized
              have := readSize_lt sized
              omega
    next high =>
      obtain ⟨rfl,rfl,-⟩ := got
      exact ⟨fun direct => absurd (direct.trans (by decide : OP_PUSHDATA1 < OP_PUSHDATA4)).le high,fun _ => Nat.zero_le _,fun _ => Nat.zero_le _⟩

/-- The checks of `HasCanonicalPushes` find every push that has a shorter form. -/
theorem canonicalPush_iff {script rest : CScript} {opcode : Nat} {data : valtype} (got : GetOp script = some (opcode,data,rest)) :
    canonicalPush opcode data = true ↔ CanonicalPush opcode data := by
  obtain ⟨direct,byte,word⟩ := GetOp_sized got
  have single : (∃ first ≤ 16, data = [first]) ↔ data.length = 1 ∧ data.headD 0 ≤ 16 := by
    constructor
    · rintro ⟨first,small,rfl⟩
      exact ⟨rfl,small⟩
    · rintro ⟨one,small⟩
      obtain ⟨first,rfl⟩ := List.length_eq_one_iff.mp one
      exact ⟨first,small,rfl⟩
  rw [CanonicalPush,single,canonicalPush,pushOpcode]
  simp only [OP_16,OP_PUSHDATA1,OP_PUSHDATA2,OP_PUSHDATA4,OP_0] at direct byte word ⊢
  generalize data.length = long at direct byte word ⊢
  by_cases push : opcode ≤ 0x4e
  · simp only [push,true_implies]
    split_ifs <;> grind
  · simp only [push,false_implies,iff_true]
    grind

/-- A short script of pushes, each in the form that it should have. -/
def StandardSig (scriptSig : CScript) : Prop :=
  scriptSig.length ≤ 500 ∧ ∃ ops, Operations scriptSig ops ∧ ∀ op ∈ ops, op.1 ≤ OP_16 ∧ CanonicalPush op.1 op.2

/-- One of the forms, and with several keys no more than three of them. -/
def StandardType (scriptPubKey : CScript) : Prop :=
  ∃ whichType vSolutions, Solver scriptPubKey [] = (true,whichType,vSolutions) ∧ whichType ≠ TX_NONSTANDARD ∧
    (whichType = TX_MULTISIG → 1 ≤ ((vSolutions.headD []).headD 0).toNat ∧
      ((vSolutions.headD []).headD 0).toNat ≤ ((vSolutions.getLastD []).headD 0).toNat ∧ ((vSolutions.getLastD []).headD 0).toNat ≤ 3)

theorem pushes_iff (scriptSig : CScript) :
    IsPushOnly scriptSig = true ∧ HasCanonicalPushes scriptSig = true ↔
      ∃ ops, Operations scriptSig ops ∧ ∀ op ∈ ops, op.1 ≤ OP_16 ∧ CanonicalPush op.1 op.2 := by
  have canonical {script : CScript} {ops : List (Nat × valtype)} (read : Operations script ops) :
      (∀ op ∈ ops, canonicalPush op.1 op.2 = true) ↔ ∀ op ∈ ops, CanonicalPush op.1 op.2 := by
    induction read with
    | nil => simp
    | cons got _ ih => rw [List.forall_mem_cons,List.forall_mem_cons,ih,canonicalPush_iff got]
  rw [IsPushOnly,HasCanonicalPushes,everyOp_iff _ le_rfl,everyOp_iff _ le_rfl]
  constructor
  · rintro ⟨⟨ops,read,small⟩,ops',read',fine⟩
    obtain rfl := read.unique read'
    exact ⟨ops,read,fun op member => ⟨by simpa using small op member,(canonical read).mp fine op member⟩⟩
  · rintro ⟨ops,read,each⟩
    exact ⟨⟨ops,read,fun op member => by simpa using (each op member).1⟩,ops,read,(canonical read).mpr fun op member => (each op member).2⟩

theorem IsStandard_iff (scriptPubKey : CScript) : IsStandard scriptPubKey = true ↔ StandardType scriptPubKey := by
  rw [IsStandard,StandardType]
  obtain ⟨solved,whichType,vSolutions⟩ := Solver scriptPubKey []
  cases solved with
  | false => simp
  | true =>
    dsimp only
    constructor
    · intro standard
      refine ⟨whichType,vSolutions,rfl,?_,fun several => ?_⟩
      · rintro rfl
        simp at standard
      · subst several
        simp only [Bool.not_true,Bool.false_eq_true,if_false,true_and] at standard
        split_ifs at standard
        omega
    · rintro ⟨_,_,same,known,counts⟩
      obtain ⟨-,rfl,rfl⟩ := same
      rw [Bool.not_true,if_neg Bool.false_ne_true,if_neg,if_neg]
      · simpa using known
      · rintro ⟨several,wrong⟩
        have := counts several
        omega
      · rintro ⟨several,wrong⟩
        have := counts several
        omega

end CScript

/-- With the rules for scripts that the code has. -/
def PoolRules.scripted (rules : PoolRules) : PoolRules :=
  {rules with IsPushOnly := CScript.IsPushOnly,HasCanonicalPushes := CScript.HasCanonicalPushes,IsStandard := CScript.IsStandard}

namespace CTransaction

/-- No lock time, or one that is over, or inputs that turn it off. -/
def FinalNow (chain : ActiveChain) (now : Moment) (tx : CTransaction) : Prop :=
  tx.nLockTime = 0 ∨ tx.nLockTime < LOCKTIME_THRESHOLD ∧ (tx.nLockTime : Int) < chain.nBestHeight ∨
    LOCKTIME_THRESHOLD ≤ tx.nLockTime ∧ (tx.nLockTime : Int) < now.GetAdjustedTime ∨ ∀ txin ∈ tx.vin, txin.nSequence = 0xFFFFFFFF

/-- What `IsStandard` can see of the limits. -/
structure Seen (chain : ActiveChain) (now : Moment) (tx : CTransaction) : Prop where
  version : 1 ≤ tx.nVersion ∧ tx.nVersion ≤ CURRENT_VERSION
  final : tx.FinalNow chain now
  size : tx.GetSerializeSize < MAX_STANDARD_TX_SIZE
  inputs : ∀ txin ∈ tx.vin, StandardSig txin.scriptSig
  outputs : ∀ txout ∈ tx.vout, StandardType txout.scriptPubKey

/-- All the limits. -/
structure Standard (chain : ActiveChain) (now : Moment) (tx : CTransaction) : Prop extends tx.Seen chain now where
  attachments : tx.Attachments.length ≤ MAX_TX_ATTACHMENTS_LEN

theorem IsFinal_iff (chain : ActiveChain) (now : Moment) (tx : CTransaction) : tx.IsFinal chain now = true ↔ tx.FinalNow chain now := by
  have sequences : (tx.vin.all fun txin => txin.nSequence == 0xFFFFFFFF) = true ↔ ∀ txin ∈ tx.vin, txin.nSequence = 0xFFFFFFFF := by simp
  rw [IsFinal,FinalNow]
  by_cases zero : tx.nLockTime = 0
  · simp [zero]
  · by_cases height : tx.nLockTime < LOCKTIME_THRESHOLD
    · have early : ¬LOCKTIME_THRESHOLD ≤ tx.nLockTime := by omega
      rw [if_neg zero,if_pos height]
      by_cases past : (tx.nLockTime : Int) < chain.nBestHeight
      · simp [height,past]
      · rw [if_neg past,sequences]
        simp [zero,past,early]
    · have late : LOCKTIME_THRESHOLD ≤ tx.nLockTime := by omega
      rw [if_neg zero,if_neg height]
      by_cases past : (tx.nLockTime : Int) < now.GetAdjustedTime
      · simp [late,past]
      · rw [if_neg past,sequences]
        simp [zero,past,height]

theorem forM_ok_iff {α ε : Type} {check : α → Except ε Unit} {values : List α} : values.forM check = .ok () ↔ ∀ a ∈ values, check a = .ok () := by
  induction values with
  | nil => exact iff_of_true rfl (by simp)
  | cons a values ih =>
    rw [List.forM,List.forall_mem_cons,← ih]
    cases check a with
    | error e => exact iff_of_false (fun h => by contradiction) fun h => by simpa using h.1
    | ok => exact ⟨fun later => ⟨rfl,later⟩,And.right⟩

theorem IsStandard_ok (rules : PoolRules) (chain : ActiveChain) (now : Moment) (tx : CTransaction) :
    tx.IsStandard rules.scripted chain now = .ok () ↔ tx.Seen chain now := by
  have small : ¬sizeofAttachments > MAX_TX_ATTACHMENTS_LEN := by decide
  have input (txin : CTxIn) : (if txin.scriptSig.length > 500 then .error "scriptsig-size"
      else if CScript.IsPushOnly txin.scriptSig = false then .error "scriptsig-not-pushonly"
      else if CScript.HasCanonicalPushes txin.scriptSig = false then .error "non-canonical-push"
      else .ok () : Except String Unit) = .ok () ↔ StandardSig txin.scriptSig := by
    rw [StandardSig,← pushes_iff]
    split_ifs <;> simp_all
  rw [IsStandard,if_neg small]
  by_cases version : tx.nVersion > CURRENT_VERSION ∨ tx.nVersion < 1
  · rw [if_pos version]
    refine iff_of_false (by simp) fun seen => ?_
    have := seen.version
    omega
  rw [if_neg version]
  by_cases final : tx.IsFinal chain now = false
  · rw [if_pos final]
    refine iff_of_false (by simp) fun seen => ?_
    rw [(IsFinal_iff ..).mpr seen.final] at final
    contradiction
  rw [if_neg final]
  by_cases large : tx.GetSerializeSize ≥ MAX_STANDARD_TX_SIZE
  · rw [if_pos large]
    exact iff_of_false (by simp) fun seen => absurd seen.size (Nat.not_lt.mpr large)
  rw [if_neg large]
  dsimp only
  split
  next failed =>
    refine iff_of_false (by simp) fun seen => ?_
    have passed := forM_ok_iff.mpr fun txin member => (input txin).mpr (seen.inputs txin member)
    exact absurd (failed.symm.trans passed) (by simp)
  next passed =>
    have sigs := fun txin member => (input txin).mp (forM_ok_iff.mp passed txin member)
    by_cases types : (tx.vout.all fun txout => rules.scripted.IsStandard txout.scriptPubKey) = true
    · rw [if_pos types]
      have each := fun txout member => (IsStandard_iff _).mp (List.all_eq_true.mp types txout member)
      exact iff_of_true rfl ⟨by omega,(IsFinal_iff ..).mp (by simpa using final),Nat.lt_of_not_le large,sigs,each⟩
    · rw [if_neg types]
      refine iff_of_false (by simp) fun seen => types (List.all_eq_true.mpr fun txout member => ?_)
      exact (IsStandard_iff _).mpr (seen.outputs txout member)

end CTransaction

namespace CTxMemPool

variable {rules : PoolRules} {chain : ActiveChain} {now : Moment} {pool : CTxMemPool} {tx : CTransaction} {fCheckInputs fLimitFree insane : Bool}

theorem accept_alone (admitted : (pool.accept rules chain now tx fCheckInputs fLimitFree insane).result = .ok ()) :
    checkAlone rules chain now tx = .ok () := by
  rw [accept] at admitted
  cases alone : checkAlone rules chain now tx with
  | error e => rw [alone] at admitted; contradiction
  | ok => rfl

theorem checkAlone_seen (outside : rules.fTestNet = false) (alone : checkAlone rules.scripted chain now tx = .ok ()) : tx.Seen chain now := by
  have main : rules.scripted.fTestNet = false := outside
  rw [checkAlone,main] at alone
  split at alone
  next => contradiction
  next =>
    split at alone
    next => contradiction
    split at alone
    next => contradiction
    rw [if_neg Bool.false_ne_true] at alone
    split at alone
    next => contradiction
    next standard => exact (tx.IsStandard_ok rules chain now).mp standard

end CTxMemPool

/-- The limits hold of a transaction that goes into the pool when its attachments are within
    theirs, which `IsStandard` does not see. -/
theorem CTxMemPool.accept_standard_iff {rules : PoolRules} {chain : ActiveChain} {now : Moment} {pool : CTxMemPool} {tx : CTransaction}
    {fCheckInputs fLimitFree fRejectInsaneFee : Bool} (outside : rules.fTestNet = false)
    (admitted : (pool.accept rules.scripted chain now tx fCheckInputs fLimitFree fRejectInsaneFee).result = .ok ()) :
    tx.Standard chain now ↔ tx.Attachments.length ≤ MAX_TX_ATTACHMENTS_LEN :=
  ⟨CTransaction.Standard.attachments,fun short => ⟨checkAlone_seen outside (accept_alone admitted),short⟩⟩

/-! ### A transaction with much attached to it -/

private def mainRules : PoolRules where
  env := ⟨fun tx => 100+tx.nLockTime,fun _ => 0,fun _ _ => 0,fun _ _ _ _ _ => true,fun _ _ _ => true⟩
  IsPushOnly := fun _ => true
  HasCanonicalPushes := fun _ => true
  IsStandard := fun _ => true
  IsInputStandard := fun _ _ _ => true

private def mainChain : ActiveChain where
  pcoinsTip := {base := ⟨fun txid => if txid = 1 then some {vout := [⟨Cash.ofMoney (EUR,10),[]⟩]} else none,none⟩}
  nBestHeight := 5

/-- To the hash of a script. -/
private def attached (Attachments : List UInt8) : CTransaction :=
  ⟨1,[⟨⟨1,0⟩,[],0⟩],[⟨Cash.ofMoney (EUR,10),[0xa9,0x14] ++ List.replicate 20 7 ++ [0x87]⟩],0,Attachments⟩

theorem CTxMemPool.accept_standard_iff_short : (attached [1,2,3]).Standard mainChain ⟨0,false⟩ := by
  have admitted : (({} : CTxMemPool).accept mainRules.scripted mainChain ⟨0,false⟩ (attached [1,2,3]) true false).result = .ok () := by decide +kernel
  exact (CTxMemPool.accept_standard_iff rfl admitted).mpr (by decide)

private theorem attached_size (Attachments : List UInt8) : (attached Attachments).GetSerializeSize = 88+bytesSize Attachments := rfl

private theorem attached_alone {Attachments : List UInt8} (few : bytesSize Attachments < 99000) :
    CTxMemPool.checkAlone mainRules.scripted mainChain ⟨0,false⟩ (attached Attachments) = .ok () := by
  have size := attached_size Attachments
  have small : ¬(attached Attachments).GetSerializeSize > MAX_BLOCK_SIZE := by rw [size,MAX_BLOCK_SIZE]; omega
  have standard : ¬(attached Attachments).GetSerializeSize ≥ MAX_STANDARD_TX_SIZE := by rw [size,MAX_STANDARD_TX_SIZE]; omega
  have checked : (attached Attachments).CheckTransaction = (attached []).CheckTransaction := by
    rw [CTransaction.CheckTransaction,CTransaction.CheckTransaction,if_neg small,if_neg (by decide : ¬(attached []).GetSerializeSize > MAX_BLOCK_SIZE)]
    rfl
  have fine : (attached Attachments).IsStandard mainRules.scripted mainChain ⟨0,false⟩ =
      (attached []).IsStandard mainRules.scripted mainChain ⟨0,false⟩ := by
    rw [CTransaction.IsStandard,CTransaction.IsStandard,if_neg standard,if_neg (by decide : ¬(attached []).GetSerializeSize ≥ MAX_STANDARD_TX_SIZE)]
    rfl
  have same : CTxMemPool.checkAlone mainRules.scripted mainChain ⟨0,false⟩ (attached Attachments) =
      CTxMemPool.checkAlone mainRules.scripted mainChain ⟨0,false⟩ (attached []) := by
    rw [CTxMemPool.checkAlone,CTxMemPool.checkAlone,checked,fine]
    rfl
  rw [same]
  decide +kernel

private theorem attached_scripts (Attachments : List UInt8) (view : CCoinsViewCache) (flags : ScriptFlags) :
    CTransaction.runScriptChecks mainRules.scripted.env ((attached Attachments).scriptChecks view flags 0 (attached Attachments).vin) = .ok () := by
  have one : (attached Attachments).vin = [⟨⟨1,0⟩,[],0⟩] := rfl
  rw [one,CTransaction.scriptChecks]
  cases CTransaction.GetOutputFor ⟨⟨1,0⟩,[],0⟩ view with
  | error e => rfl
  | ok out => rfl

private theorem attached_fees (Attachments : List UInt8) (view : CCoinsViewCache) :
    CTxMemPool.checkFees mainRules.scripted mainChain ⟨0,false⟩ (attached Attachments) view false false =
      CTxMemPool.checkFees mainRules.scripted mainChain ⟨0,false⟩ (attached []) view false false := by
  have standard : (attached Attachments).AreInputsStandard mainRules.scripted view = (attached []).AreInputsStandard mainRules.scripted view := rfl
  have valueIn : (attached Attachments).GetValueIn view = (attached []).GetValueIn view := rfl
  have valueOut : (attached Attachments).GetValueOut = (attached []).GetValueOut := rfl
  have spent : (attached Attachments).CheckInputs mainRules.scripted.env view (mainChain.nTipHeight+1) true {P2SH := true,STRICTENC := true} false =
      (attached []).CheckInputs mainRules.scripted.env view (mainChain.nTipHeight+1) true {P2SH := true,STRICTENC := true} false := by
    have available : (attached Attachments).HaveInputs view = (attached []).HaveInputs view := rfl
    rw [CTransaction.CheckInputs,CTransaction.CheckInputs,attached_scripts,attached_scripts,available,valueOut]
    rfl
  rw [CTxMemPool.checkFees,CTxMemPool.checkFees,standard,valueIn,valueOut]
  simp only [Bool.false_eq_true,false_and,if_false,spent]

private theorem attached_admitted {Attachments : List UInt8} (few : bytesSize Attachments < 99000) :
    (({} : CTxMemPool).accept mainRules.scripted mainChain ⟨0,false⟩ (attached Attachments) true false).result = .ok () := by
  -- What is looked at is the same as with nothing attached.
  have free : ¬((attached Attachments).vin.any fun txin => decide (txin.prevout ∈ (∅ : ExtTreeMap COutPoint (uint256 × Nat)))) = true := by
    change ¬((attached []).vin.any _) = true
    decide +kernel
  have unknown : ¬(({} : CTxMemPool).view mainChain.pcoinsTip).HaveCoins (mainRules.scripted.env.TxHash (attached Attachments)) = true := by
    change ¬(({} : CTxMemPool).view mainChain.pcoinsTip).HaveCoins 100 = true
    decide +kernel
  have inputs : ¬((attached Attachments).vin.all fun txin => (({} : CTxMemPool).view mainChain.pcoinsTip).HaveCoins txin.prevout.hash) = false := by
    change ¬((attached []).vin.all _) = false
    decide +kernel
  have available : ¬(attached Attachments).HaveInputs (({} : CTxMemPool).view mainChain.pcoinsTip) = false := by
    change ¬(attached []).HaveInputs _ = false
    decide +kernel
  have fees : CTxMemPool.checkFees mainRules.scripted mainChain ⟨0,false⟩ (attached []) (({} : CTxMemPool).view mainChain.pcoinsTip) false false = .ok () := by
    decide +kernel
  rw [CTxMemPool.accept,attached_alone few,attached_fees,fees]
  dsimp only
  rw [if_neg ExtTreeMap.not_mem_empty,if_neg free,if_neg (by decide),if_neg unknown,if_neg inputs,if_neg available]

/-- `sizeof(Attachments)` is that of the vector object. -/
theorem attachments_unlimited :
    (({} : CTxMemPool).accept mainRules.scripted mainChain ⟨0,false⟩ (attached (List.replicate 76801 0)) true false).result = .ok () ∧
      mainRules.scripted.fTestNet = false ∧ ¬(attached (List.replicate 76801 0)).Standard mainChain ⟨0,false⟩ := by
  have long : (List.replicate 76801 (0 : UInt8)).length = 76801 := List.length_replicate
  refine ⟨attached_admitted ?_,rfl,fun standard => ?_⟩
  · rw [bytesSize,long]
    decide
  · have short := standard.attachments
    rw [attached,long] at short
    exact absurd short (by decide)

end Tetra
