import Mathlib
import Tetra.AddToWallet
import Tetra.CausalOrder

/-!
Transactions that are presented to the wallet one after the other, and what the wallet has
then: its records, its spent flags and its balance. Their places and their times in the
history apart, the records do not depend on the order as long as no transaction comes
before one whose outputs it spends.
-/
namespace Tetra
open Std (ExtTreeMap ExtTreeSet)

/-- A transaction as it is presented, with its block if it is in one. -/
structure Presentation where
  tx : CTransaction
  pblock : Option CBlock := none
deriving DecidableEq

/-! ### The balance -/

namespace WalletEntry

def GetDebit (node : WalletNode) (mapWallet : WalletMap) (wtx : WalletEntry) : Except Reject Cash :=
  if wtx.vin.isEmpty then .ok (Cash.ofAmount 0)
  else
    match wtx.nDebitCached with
    | some nDebit => .ok nDebit
    | none => node.GetDebit mapWallet wtx.toCTransaction

/-- `GetCredit` of the outputs that are not spent. -/
def sumAvailable (node : WalletNode) (wtx : WalletEntry) (nCredit : Cash) : List (CTxOut × Nat) → Except Reject Cash
  | [] => .ok nCredit
  | (txout,i) :: rest =>
    if wtx.IsSpent i then sumAvailable node wtx nCredit rest
    else if MoneyRange txout.nValue = false then .error (.throws "CWallet::GetCredit() : value out of range")
    else
      let nCredit := nCredit.addAssign (if node.IsMine txout then txout.nValue else Cash.ofAmount 0)
      if MoneyRange nCredit = false then .error (.throws "CWalletTx::GetAvailableCredit() : value out of range")
      else sumAvailable node wtx nCredit rest

def GetAvailableCredit (node : WalletNode) (wtx : WalletEntry) : Except Reject Cash :=
  if wtx.IsCoinBase && decide (node.GetBlocksToMaturity wtx.toCMerkleTx > 0) then .ok (Cash.ofAmount 0)
  else
    match wtx.nAvailableCreditCached with
    | some nCredit => .ok nCredit
    | none => wtx.sumAvailable node (Cash.ofAmount 0) wtx.vout.zipIdx

/-- `mapPrev` of `IsConfirmed`. -/
def mapPrev (node : WalletNode) (wtx : WalletEntry) (hash : uint256) : Option CMerkleTx :=
  wtx.vtxPrev.reverse.find? fun tx => node.env.TxHash tx.toCTransaction == hash

/-- The loop over `vWorkQueue`, from the first entry that was not visited; there is no
    result if it does not end with the fuel. -/
def workQueue (node : WalletNode) (mapWallet : WalletMap) (wtx : WalletEntry) : Nat → List CMerkleTx → Option (Except Reject Bool)
  | _,[] => some (.ok true)
  | 0,_ :: _ => none
  | fuel+1,ptx :: rest =>
    if node.IsFinal ptx.toCTransaction = false then some (.ok false)
    else if node.GetDepthInMainChain ptx ≥ 1 then workQueue node mapWallet wtx fuel rest
    else if node.GetDepthInMainChain ptx < 0 then some (.ok false)
    else
      match node.IsFromMe mapWallet ptx.toCTransaction with
      | .error e => some (.error e)
      | .ok false => some (.ok false)
      | .ok true =>
        match ptx.vin.mapM fun txin => wtx.mapPrev node txin.prevout.hash with
        | none => some (.ok false)
        | some prevs => workQueue node mapWallet wtx fuel (rest ++ prevs)

def IsConfirmed (node : WalletNode) (mapWallet : WalletMap) (fuel : Nat) (wtx : WalletEntry) : Option (Except Reject Bool) :=
  if node.IsFinal wtx.toCTransaction = false then some (.ok false)
  else if node.GetDepthInMainChain wtx.toCMerkleTx ≥ 1 then some (.ok true)
  else if node.GetDepthInMainChain wtx.toCMerkleTx < 0 then some (.ok false)
  else if node.bSpendZeroConfChange = false then some (.ok false)
  else
    match wtx.GetDebit node mapWallet with
    | .error e => some (.error e)
    | .ok nDebit => if nDebit.gtAmount 0 then wtx.workQueue node mapWallet fuel [wtx.toCMerkleTx] else some (.ok false)

end WalletEntry

namespace WalletNode

/-- The loop of `GetBalance`. -/
def sumBalance (node : WalletNode) (mapWallet : WalletMap) (fuel : Nat) (nTotal : Cash) : List WalletEntry → Option (Except Reject Cash)
  | [] => some (.ok nTotal)
  | pcoin :: rest =>
    match pcoin.IsConfirmed node mapWallet fuel with
    | none => none
    | some (.error e) => some (.error e)
    | some (.ok false) => sumBalance node mapWallet fuel nTotal rest
    | some (.ok true) =>
      match pcoin.GetAvailableCredit node with
      | .error e => some (.error e)
      | .ok nCredit => sumBalance node mapWallet fuel (nTotal.addAssign nCredit) rest

def GetBalance (node : WalletNode) (mapWallet : WalletMap) (fuel : Nat) : Option (Except Reject Cash) :=
  node.sumBalance mapWallet fuel {} (mapWallet.toList.map Prod.snd)

end WalletNode

namespace LiveWallet

/-- The presentations in turn, each with the time that it meets; an exception ends the one
    presentation. -/
def ingest (node : WalletNode) (clock : Nat → Int) : List Presentation → LiveWallet → LiveWallet
  | [],w => w
  | p :: rest,w => ingest node (fun i => clock (i+1)) rest (w.AddToWalletIfInvolvingMe node (clock 0) p.tx p.pblock true).2

end LiveWallet

namespace Presentation

def hash (node : WalletNode) (p : Presentation) : uint256 := node.env.TxHash p.tx

/-- Whether a transaction spends an output of another one. -/
def Parent (node : WalletNode) (p q : Presentation) : Prop := ∃ txin ∈ q.tx.vin, txin.prevout.hash = p.hash node

/-- Two transactions that spend the same output. -/
def Conflict (p q : Presentation) : Prop := ∃ a ∈ p.tx.vin, ∃ b ∈ q.tx.vin, a.prevout = b.prevout

instance parentDecidable (node : WalletNode) (p q : Presentation) : Decidable (Parent node p q) :=
  inferInstanceAs (Decidable (∃ txin ∈ q.tx.vin, txin.prevout.hash = p.hash node))

instance conflictDecidable (p q : Presentation) : Decidable (Conflict p q) :=
  inferInstanceAs (Decidable (∃ a ∈ p.tx.vin, ∃ b ∈ q.tx.vin, a.prevout = b.prevout))

end Presentation

/-! ### The records without their times -/

namespace WalletEntry

/-- `foundSpent` as a step on the record; an exception leaves it as it is. -/
def spendStage (node : WalletNode) (nOut : Nat) : Stage WalletEntry := fun wtx =>
  match wtx.foundSpent node nOut with
  | .error _ => (false,wtx)
  | .ok wtx => (true,wtx)

variable (node : WalletNode) (wtx : WalletEntry)

theorem spendStage_eq (nOut : Nat) : spendStage node nOut wtx =
    if wtx.due node nOut then (((wtx.creditKept node).toOption.isSome,((wtx.creditKept node).toOption.map (wtx.marks nOut)).getD wtx)) else (true,wtx) := by
  unfold spendStage
  rw [foundSpent_eq]
  by_cases due : wtx.due node nOut = true
  · rw [if_pos due,if_pos due]
    cases wtx.creditKept node <;> rfl
  · rw [if_neg due,if_neg due]

theorem spendStage_marks {nOut : Nat} {kept : Option Cash} (due : wtx.due node nOut = true) (keeps : wtx.creditKept node = .ok kept) :
    spendStage node nOut wtx = (true,wtx.marks nOut kept) := by
  rw [spendStage_eq,if_pos due,keeps]
  rfl

theorem spendStage_idle {nOut : Nat} (idle : ¬ wtx.due node nOut = true) : spendStage node nOut wtx = (true,wtx) := by
  rw [spendStage_eq,if_neg idle]

theorem spendStage_throws {nOut : Nat} {e : Reject} (throws : wtx.creditKept node = .error e) : (spendStage node nOut wtx).2 = wtx := by
  rw [spendStage_eq,throws]
  split <;> rfl

theorem spendStage_tx (nOut : Nat) : (spendStage node nOut wtx).2.toCTransaction = wtx.toCTransaction := by
  rw [spendStage_eq]
  split
  · cases wtx.creditKept node <;> rfl
  · rfl

theorem spendStage_untimed (nOut : Nat) :
    spendStage node nOut wtx.untimed = ((spendStage node nOut wtx).1,(spendStage node nOut wtx).2.untimed) := by
  have same : wtx.untimed.due node nOut = wtx.due node nOut ∧ wtx.untimed.creditKept node = wtx.creditKept node := ⟨rfl,rfl⟩
  rw [spendStage_eq,spendStage_eq,same.1,same.2]
  split
  · cases wtx.creditKept node <;> rfl
  · rfl

/-- Marking one output leaves the other ones as due as they were. -/
theorem due_marks {nOut i : Nat} (apart : i ≠ nOut) (inside : nOut < wtx.vout.length) (kept : Option Cash) :
    (wtx.marks nOut kept).due node i = wtx.due node i := by
  unfold due
  have vout : (wtx.marks nOut kept).vout = wtx.vout := rfl
  rw [vout]
  cases found : wtx.vout[i]? with
  | none => rfl
  | some out =>
    have within : i < wtx.vout.length := (List.getElem?_eq_some_iff.mp found).1
    rw [marks_IsSpent wtx nOut i kept inside]
    simp [apart,within]

theorem marks_comm (a b : Nat) (apart : a ≠ b) (kept : Option Cash) :
    (wtx.marks a kept).marks b kept = (wtx.marks b kept).marks a kept := by
  have full : ∀ flags : List Bool, flags.length = wtx.vout.length → flags.takeD wtx.vout.length false = flags := by
    intro flags size
    rw [← size,List.takeD_eq_take _ le_rfl,List.take_length]
  have size : ∀ i, ((wtx.vfSpent.takeD wtx.vout.length false).set i true).length = wtx.vout.length := by
    intro i
    rw [List.length_set,List.takeD_length]
  have flags : ((((wtx.vfSpent.takeD wtx.vout.length false).set a true).takeD wtx.vout.length false).set b true) =
      ((((wtx.vfSpent.takeD wtx.vout.length false).set b true).takeD wtx.vout.length false).set a true) := by
    rw [full _ (size a),full _ (size b),List.set_comm _ _ apart]
  exact congrArg (fun flags => ({wtx with vfSpent := flags,nCreditCached := kept,nAvailableCreditCached := none} : WalletEntry)) flags

/-- Spends of different outputs of a transaction do not disturb each other. -/
theorem spendStage_apart {a b : Nat} (apart : a ≠ b) : Stage.Apart (spendStage node a) (spendStage node b) := by
  have due : ∀ {a b : Nat} {wtx : WalletEntry} kept, a ≠ b → wtx.due node b = true → (wtx.marks b kept).due node a = wtx.due node a :=
    fun kept apart dueB => due_marks node _ apart (due_inside node _ dueB) kept
  have answer : ∀ {a b : Nat}, a ≠ b → ∀ wtx : WalletEntry, (spendStage node a (spendStage node b wtx).2).1 = (spendStage node a wtx).1 := by
    intro a b apart wtx
    cases keeps : wtx.creditKept node with
    | error e => rw [spendStage_throws node wtx keeps]
    | ok kept =>
      by_cases dueB : wtx.due node b = true
      · rw [spendStage_marks node wtx dueB keeps,spendStage_eq,spendStage_eq,due kept apart dueB,creditKept_marks node wtx keeps,keeps]
        split <;> rfl
      · rw [spendStage_idle node wtx dueB]
  refine ⟨answer apart,answer apart.symm,fun wtx => ?_⟩
  cases keeps : wtx.creditKept node with
  | error e => rw [spendStage_throws node wtx keeps,spendStage_throws node wtx keeps,spendStage_throws node wtx keeps]
  | ok kept =>
    have later := creditKept_marks node wtx keeps
    by_cases dueA : wtx.due node a = true
    · rw [spendStage_marks node wtx dueA keeps]
      by_cases dueB : wtx.due node b = true
      · rw [spendStage_marks node wtx dueB keeps,spendStage_marks node _ ((due kept apart dueB).trans dueA) (later b),
          spendStage_marks node _ ((due kept apart.symm dueA).trans dueB) (later a),marks_comm wtx b a apart.symm]
      · rw [spendStage_idle node wtx dueB,spendStage_marks node wtx dueA keeps,spendStage_idle]
        rwa [due kept apart.symm dueA]
    · rw [spendStage_idle node wtx dueA]
      by_cases dueB : wtx.due node b = true
      · rw [spendStage_marks node wtx dueB keeps,spendStage_idle]
        rwa [due kept apart dueB]
      · rw [spendStage_idle node wtx dueB,spendStage_idle node wtx dueA]

end WalletEntry

namespace Presentation
variable (node : WalletNode)

/-- What is handed to `AddToWallet`. -/
def entry (p : Presentation) : WalletEntry := .found node p.tx p.pblock

def involves (p : Presentation) (m : WalletMap) : Except Reject Bool :=
  (node.IsFromMe m p.tx).map fun fFromMe => m.contains (p.hash node) || node.IsMineTx p.tx || fFromMe

/-- The record under the hash of the transaction, and whether `AddToWallet` goes on after it. -/
def placed (p : Presentation) : Option WalletEntry → Bool × WalletEntry
  | none => (node.WriteTx (p.hash node),(p.entry node).BindWallet.untimed)
  | some wtx =>
    let merged := wtx.BindWallet.merge (p.entry node)
    (!(merged.2 && !node.WriteTx (p.hash node)),merged.1)

def enterStage (p : Presentation) : Stage WalletMap := fun m =>
  match p.involves node m with
  | .error _ => (false,m)
  | .ok false => (true,m)
  | .ok true => ((p.placed node m[p.hash node]?).1,m.insert (p.hash node) (p.placed node m[p.hash node]?).2)

/-- The coin of an input is marked. -/
def inputStage (txin : CTxIn) : Stage WalletMap := .atKey txin.prevout.hash (WalletEntry.spendStage node txin.prevout.n)

/-- What a presentation does to the records, times apart. -/
def absorb (m : WalletMap) (p : Presentation) : WalletMap :=
  ((p.enterStage node).andThen (.all (p.tx.vin.map (inputStage node))) m).2

end Presentation

namespace Presentation
variable {node : WalletNode} {p q : Presentation}

theorem involves_congr {m m' : WalletMap} (present : m'[p.hash node]?.isSome = m[p.hash node]?.isSome)
    (same : ∀ txin ∈ p.tx.vin, (m'[txin.prevout.hash]?.map fun wtx => wtx.vout) = m[txin.prevout.hash]?.map fun wtx => wtx.vout) :
    p.involves node m' = p.involves node m := by
  unfold involves
  rw [IsFromMe_congr same,ExtTreeMap.contains_eq_isSome_getElem?,ExtTreeMap.contains_eq_isSome_getElem?,present]

/-- A step that a presentation does not see, and that does not see its record. -/
structure Foreign (node : WalletNode) (p : Presentation) (g : Stage WalletMap) : Prop where
  record : ∀ m, (g m).2[p.hash node]? = m[p.hash node]?
  involved : ∀ m, p.involves node (g m).2 = p.involves node m
  blind : ∀ m wtx, g (m.insert (p.hash node) wtx) = ((g m).1,(g m).2.insert (p.hash node) wtx)

theorem Foreign.apart {g : Stage WalletMap} (foreign : Foreign node p g) : Stage.Apart (p.enterStage node) g where
  left m := by
    unfold enterStage
    rw [foreign.involved,foreign.record]
    cases p.involves node m with
    | error e => rfl
    | ok involved => cases involved <;> rfl
  right m := by
    unfold enterStage
    cases p.involves node m with
    | error e => rfl
    | ok involved =>
      cases involved with
      | false => rfl
      | true =>
        dsimp only
        rw [foreign.blind]
  effects m := by
    unfold enterStage
    rw [foreign.involved,foreign.record]
    cases p.involves node m with
    | error e => rfl
    | ok involved =>
      cases involved with
      | false => rfl
      | true =>
        dsimp only
        rw [foreign.blind]

/-- Marking the coin of an input changes no transaction. -/
theorem lookup_inputStage (txin : CTxIn) (m : WalletMap) (k : uint256) :
    ((inputStage node txin m).2[k]?.map fun wtx => wtx.toCTransaction) = m[k]?.map fun wtx => wtx.toCTransaction := by
  rw [inputStage,Stage.lookup_atKey]
  split
  · rw [Option.map_map]
    exact congrArg (fun f => m[k]?.map f) (funext fun wtx => wtx.spendStage_tx node txin.prevout.n)
  · rfl

theorem vout_of_tx {m m' : WalletMap} {k : uint256}
    (same : (m'[k]?.map fun wtx => wtx.toCTransaction) = m[k]?.map fun wtx => wtx.toCTransaction) :
    (m'[k]?.map fun wtx => wtx.vout) = m[k]?.map fun wtx => wtx.vout := by
  have outs := congrArg (Option.map CTransaction.vout) same
  rwa [Option.map_map,Option.map_map] at outs

theorem foreign_inputStage {txin : CTxIn} (other : txin.prevout.hash ≠ p.hash node) : Foreign node p (inputStage node txin) where
  record m := by rw [inputStage,Stage.lookup_atKey,if_neg other]
  involved m := by
    refine involves_congr ?_ fun txin' _ => vout_of_tx (lookup_inputStage txin m _)
    rw [inputStage,Stage.lookup_atKey,if_neg other]
  blind m wtx := by
    have same : (m.insert (p.hash node) wtx)[txin.prevout.hash]? = m[txin.prevout.hash]? := Maps.lookup_insert_other other.symm wtx
    unfold inputStage
    cases found : m[txin.prevout.hash]? with
    | none => rw [Stage.atKey_none _ found,Stage.atKey_none _ (same.trans found)]
    | some prev => rw [Stage.atKey_some _ found,Stage.atKey_some _ (same.trans found),Maps.insert_comm other.symm]

theorem involves_insert {m : WalletMap} {k : uint256} {wtx : WalletEntry} (other : k ≠ p.hash node)
    (unspent : ∀ txin ∈ p.tx.vin, txin.prevout.hash ≠ k) : p.involves node (m.insert k wtx) = p.involves node m := by
  refine involves_congr ?_ fun txin member => ?_
  · rw [Maps.lookup_insert_other other]
  · rw [Maps.lookup_insert_other (unspent txin member).symm]

theorem foreign_enterStage (apart : p.hash node ≠ q.hash node) (free : ¬ Parent node p q) (free' : ¬ Parent node q p) :
    Foreign node p (q.enterStage node) where
  record m := by
    unfold enterStage
    cases q.involves node m with
    | error e => rfl
    | ok involved =>
      cases involved with
      | false => rfl
      | true => exact Maps.lookup_insert_other apart.symm _
  involved m := by
    unfold enterStage
    cases q.involves node m with
    | error e => rfl
    | ok involved =>
      cases involved with
      | false => rfl
      | true => exact involves_insert apart.symm fun txin member spends => free' ⟨txin,member,spends⟩
  blind m wtx := by
    unfold enterStage
    rw [involves_insert apart fun txin member spends => free ⟨txin,member,spends⟩,Maps.lookup_insert_other apart]
    cases q.involves node m with
    | error e => rfl
    | ok involved =>
      cases involved with
      | false => rfl
      | true => exact Prod.ext rfl (Maps.insert_comm apart _ _)

theorem inputStage_apart {a b : CTxIn} (apart : a.prevout ≠ b.prevout) : Stage.Apart (inputStage node a) (inputStage node b) := by
  by_cases same : a.prevout.hash = b.prevout.hash
  · have differ : a.prevout.n ≠ b.prevout.n := by
      intro index
      obtain ⟨⟨hash,n⟩,scriptSig,nSequence⟩ := a
      obtain ⟨⟨hash',n'⟩,scriptSig',nSequence'⟩ := b
      dsimp only at same index
      subst same index
      exact apart rfl
    unfold inputStage
    rw [same]
    exact (WalletEntry.spendStage_apart node differ).atKey _
  · exact Stage.atKey_apart _ _ same

/-- Two presentations commute if neither transaction spends an output of the other one and
    they spend no output together. -/
theorem absorb_comm (apart : p.hash node ≠ q.hash node) (free : ¬ Parent node p q) (free' : ¬ Parent node q p)
    (clear : ¬ Conflict p q) (m : WalletMap) : absorb node (absorb node m p) q = absorb node (absorb node m q) p := by
  have inputs : ∀ {r : Presentation} {g : Stage WalletMap}, (∀ txin ∈ r.tx.vin, Stage.Apart (inputStage node txin) g) →
      Stage.Apart (.all (r.tx.vin.map (inputStage node))) g := by
    intro r g each
    refine Stage.Apart.all fun f member => ?_
    obtain ⟨txin,inside,rfl⟩ := List.mem_map.mp member
    exact each txin inside
  have enters : Stage.Apart (p.enterStage node) (q.enterStage node) := (foreign_enterStage apart free free').apart
  have enterP : Stage.Apart (p.enterStage node) (.all (q.tx.vin.map (inputStage node))) :=
    (inputs fun txin member => (foreign_inputStage fun spends => free ⟨txin,member,spends⟩).apart.symm).symm
  have enterQ : Stage.Apart (.all (p.tx.vin.map (inputStage node))) (q.enterStage node) :=
    inputs fun txin member => (foreign_inputStage fun spends => free' ⟨txin,member,spends⟩).apart.symm
  have coins : Stage.Apart (.all (p.tx.vin.map (inputStage node))) (.all (q.tx.vin.map (inputStage node))) := by
    refine inputs fun a member => (inputs fun b member' => ?_).symm
    exact (inputStage_apart fun same => clear ⟨a,member,b,member',same⟩).symm
  have first := (enters.symm.andThen enterP.symm).symm
  have second := (enterQ.symm.andThen coins.symm).symm
  exact ((first.andThen second).effects m).symm

end Presentation

/-! ### The wallet does to its records what the presentations do to them without their times -/

namespace WalletMap

def bare (m : WalletMap) : WalletMap := m.map fun _ wtx => wtx.untimed

theorem bare_lookup (m : WalletMap) (k : uint256) : m.bare[k]? = m[k]?.map WalletEntry.untimed := ExtTreeMap.getElem?_map

theorem mem_bare {m : WalletMap} {k : uint256} : k ∈ m.bare ↔ k ∈ m := ExtTreeMap.mem_map

theorem bare_insert (m : WalletMap) (k : uint256) (wtx : WalletEntry) : bare (m.insert k wtx) = (bare m).insert k wtx.untimed := by
  refine ExtTreeMap.ext_getElem? fun l => ?_
  rw [bare_lookup]
  by_cases same : k = l
  · subst same
    rw [Maps.insert_self,Maps.insert_self,Option.map_some]
  · rw [Maps.lookup_insert_other same,Maps.lookup_insert_other same,bare_lookup]

theorem bare_vout (m : WalletMap) (k : uint256) : (m.bare[k]?.map fun wtx => wtx.vout) = m[k]?.map fun wtx => wtx.vout := by
  rw [bare_lookup,Option.map_map]
  rfl

end WalletMap

section
variable {node : WalletNode}

theorem WalletUpdateSpent_bare (vin : List CTxIn) (m : WalletMap) :
    (node.WalletUpdateSpent vin m).2.bare = (Stage.all (vin.map (Presentation.inputStage node)) m.bare).2 := by
  induction vin generalizing m with
  | nil => rfl
  | cons txin rest ih =>
    rw [List.map_cons,Stage.all,Stage.andThen_snd]
    unfold WalletNode.WalletUpdateSpent
    cases found : m[txin.prevout.hash]? with
    | none =>
      have absent : m.bare[txin.prevout.hash]? = none := by rw [WalletMap.bare_lookup,found,Option.map_none]
      rw [Presentation.inputStage,Stage.atKey_none _ absent,if_pos rfl]
      exact ih m
    | some wtx =>
      have there : m.bare[txin.prevout.hash]? = some wtx.untimed := by rw [WalletMap.bare_lookup,found,Option.map_some]
      rw [Presentation.inputStage,Stage.atKey_some _ there,WalletEntry.spendStage_untimed]
      unfold WalletEntry.spendStage
      dsimp only
      cases wtx.foundSpent node txin.prevout.n with
      | error e => exact (Maps.insert_found there).symm
      | ok marked =>
        dsimp only
        rw [if_pos rfl,← WalletMap.bare_insert]
        exact ih _

namespace LiveWallet

theorem replaceDefaultKey_spec (scriptDefaultKey : CScript) (vout : List CTxOut) {w : LiveWallet} (backed : w.pool.Backed) :
    (w.replaceDefaultKey node scriptDefaultKey vout).1 = .ok () ∧ (w.replaceDefaultKey node scriptDefaultKey vout).2.mapWallet = w.mapWallet ∧
      (w.replaceDefaultKey node scriptDefaultKey vout).2.pool.Backed := by
  induction vout generalizing w with
  | nil => exact ⟨rfl,rfl,backed⟩
  | cons txout rest ih =>
    unfold replaceDefaultKey
    split
    · obtain ⟨⟨key,hands⟩,later⟩ := backed.GetKeyFromPool node.keypool false
      generalize w.pool.GetKeyFromPool node.keypool false = handed at hands later
      obtain ⟨result,pool,events⟩ := handed
      dsimp only at hands later
      subst hands
      cases key with
      | none => exact @ih {w with pool := pool} later
      | some newDefaultKey =>
        dsimp only
        refine ih ?_
        split
        · exact ⟨later.records,later.known⟩
        · exact later
    · exact ih backed

theorem useDefaultKey_spec (vout : List CTxOut) {w : LiveWallet} (backed : w.pool.Backed) :
    (w.useDefaultKey node vout).1 = .ok () ∧ (w.useDefaultKey node vout).2.mapWallet = w.mapWallet ∧ (w.useDefaultKey node vout).2.pool.Backed := by
  unfold useDefaultKey
  split
  · exact ⟨rfl,rfl,backed⟩
  · exact replaceDefaultKey_spec _ vout backed

theorem settle_bare {w : LiveWallet} (backed : w.pool.Backed) (wtx : WalletEntry) :
    (w.settle node wtx).2.mapWallet.bare = (Stage.all (wtx.vin.map (Presentation.inputStage node)) w.mapWallet.bare).2 ∧
      (w.settle node wtx).2.pool.Backed := by
  obtain ⟨passes,keeps,later⟩ := useDefaultKey_spec wtx.vout backed
  unfold settle
  generalize w.useDefaultKey node wtx.vout = used at passes keeps later
  obtain ⟨result,used⟩ := used
  dsimp only at passes keeps later
  subst passes
  rw [← keeps,← WalletUpdateSpent_bare]
  dsimp only
  split
  next spends => exact ⟨congrArg WalletMap.bare (congrArg Prod.snd spends).symm,later⟩
  next spends => exact ⟨congrArg WalletMap.bare (congrArg Prod.snd spends).symm,later⟩

variable {p : Presentation}

theorem entry_tx (p : Presentation) : (p.entry node).toCTransaction = p.tx := WalletEntry.found_tx node p.tx p.pblock

theorem AddToWallet_bare {w : LiveWallet} (now : Int) (filed : ∀ wtx, w.mapWallet[p.hash node]? = some wtx → wtx.toCTransaction = p.tx)
    (backed : w.pool.Backed) (involved : p.involves node w.mapWallet = .ok true) :
    (w.AddToWallet node now (p.entry node)).2.mapWallet.bare = p.absorb node w.mapWallet.bare ∧
      (w.AddToWallet node now (p.entry node)).2.pool.Backed := by
  have bareInvolved : p.involves node w.mapWallet.bare = .ok true := by
    rw [← involved]
    refine Presentation.involves_congr ?_ fun txin _ => WalletMap.bare_vout ..
    rw [WalletMap.bare_lookup,Option.isSome_map]
  have hash : node.env.TxHash (p.entry node).toCTransaction = p.hash node := congrArg node.env.TxHash (entry_tx p)
  unfold Presentation.absorb
  rw [Stage.andThen_snd,Presentation.enterStage,bareInvolved,WalletMap.bare_lookup]
  unfold AddToWallet
  rw [hash]
  dsimp only
  cases found : w.mapWallet[p.hash node]? with
  | none =>
    obtain ⟨⟨wtx,inserted,stamped⟩,pool,-⟩ := @insertNew_spec node w now (p.hash node) (p.entry node)
    have placed : (w.insertNew node now (p.hash node) (p.entry node)).mapWallet.bare =
        w.mapWallet.bare.insert (p.hash node) (p.placed node none).2 := by
      rw [inserted,WalletMap.bare_insert,stamped]
      rfl
    have backed' : (w.insertNew node now (p.hash node) (p.entry node)).pool.Backed := pool ▸ backed
    have settled := @settle_bare node _ backed' (p.entry node)
    rw [placed,show (p.entry node).vin = p.tx.vin from congrArg CTransaction.vin (entry_tx p)] at settled
    have goes : (p.placed node none).1 = node.WriteTx (p.hash node) := rfl
    rw [Option.map_none]
    dsimp only
    rw [goes]
    cases node.WriteTx (p.hash node) with
    | true => exact settled
    | false => exact ⟨placed,backed'⟩
  | some wtx =>
    have tx := filed wtx found
    have placed : WalletMap.bare (w.mapWallet.insert (p.hash node) (wtx.BindWallet.merge (p.entry node)).1) =
        w.mapWallet.bare.insert (p.hash node) (p.placed node (some wtx.untimed)).2 := WalletMap.bare_insert ..
    have settled := @settle_bare node {w with mapWallet := w.mapWallet.insert (p.hash node) (wtx.BindWallet.merge (p.entry node)).1} backed
      (wtx.BindWallet.merge (p.entry node)).1
    rw [placed,show (wtx.BindWallet.merge (p.entry node)).1.vin = p.tx.vin from congrArg CTransaction.vin tx] at settled
    have goes : (p.placed node (some wtx.untimed)).1 = !((wtx.BindWallet.merge (p.entry node)).2 && !node.WriteTx (p.hash node)) := rfl
    rw [Option.map_some]
    dsimp only
    rw [goes]
    cases (wtx.BindWallet.merge (p.entry node)).2 && !node.WriteTx (p.hash node) with
    | true => exact ⟨placed,backed⟩
    | false => exact settled

theorem AddToWalletIfInvolvingMe_bare {w : LiveWallet} (now : Int)
    (filed : ∀ wtx, w.mapWallet[p.hash node]? = some wtx → wtx.toCTransaction = p.tx) (backed : w.pool.Backed) :
    (w.AddToWalletIfInvolvingMe node now p.tx p.pblock true).2.mapWallet.bare = p.absorb node w.mapWallet.bare ∧
      (w.AddToWalletIfInvolvingMe node now p.tx p.pblock true).2.pool.Backed := by
  have bareInvolves : p.involves node w.mapWallet.bare = p.involves node w.mapWallet := by
    refine Presentation.involves_congr ?_ fun txin _ => WalletMap.bare_vout ..
    rw [WalletMap.bare_lookup,Option.isSome_map]
  unfold AddToWalletIfInvolvingMe
  dsimp only
  rw [Bool.not_true,Bool.and_false,if_neg Bool.false_ne_true]
  cases fromMe : node.IsFromMe w.mapWallet p.tx with
  | error e =>
    have throws : p.involves node w.mapWallet = .error e := by rw [Presentation.involves,fromMe]; rfl
    refine ⟨?_,backed⟩
    rw [Presentation.absorb,Stage.andThen_snd,Presentation.enterStage,bareInvolves,throws]
    rfl
  | ok fFromMe =>
    have involves : p.involves node w.mapWallet = .ok (w.mapWallet.contains (p.hash node) || node.IsMineTx p.tx || fFromMe) := by
      rw [Presentation.involves,fromMe]
      rfl
    by_cases involved : (w.mapWallet.contains (p.hash node) || node.IsMineTx p.tx || fFromMe) = true
    · rw [involved] at involves
      have adds := AddToWallet_bare now filed backed involves
      dsimp only
      rw [show (w.mapWallet.contains (node.env.TxHash p.tx) || node.IsMineTx p.tx || fFromMe) = true from involved,if_pos rfl]
      exact adds
    · rw [Bool.eq_false_of_not_eq_true involved] at involves
      dsimp only
      rw [if_neg (show ¬ (w.mapWallet.contains (node.env.TxHash p.tx) || node.IsMineTx p.tx || fFromMe) = true from involved),
        Presentation.absorb,Stage.andThen_snd,Presentation.enterStage,bareInvolves,involves]
      dsimp only
      rw [if_pos rfl,← WalletUpdateSpent_bare]
      split
      next spends => exact ⟨congrArg WalletMap.bare (congrArg Prod.snd spends).symm,backed⟩
      next spends => exact ⟨congrArg WalletMap.bare (congrArg Prod.snd spends).symm,backed⟩

end LiveWallet

namespace Presentation

theorem lookup_inputStages (vin : List CTxIn) (m : WalletMap) (k : uint256) :
    ((Stage.all (vin.map (inputStage node)) m).2[k]?.map fun wtx => wtx.toCTransaction) = m[k]?.map fun wtx => wtx.toCTransaction := by
  induction vin generalizing m with
  | nil => rfl
  | cons txin rest ih =>
    rw [List.map_cons,Stage.all,Stage.andThen_snd]
    split
    · rw [ih,lookup_inputStage]
    · exact lookup_inputStage txin m k

/-- A presentation changes no transaction but its own. -/
theorem lookup_absorb (p : Presentation) (m : WalletMap) {k : uint256} (other : p.hash node ≠ k) :
    ((p.absorb node m)[k]?.map fun wtx => wtx.toCTransaction) = m[k]?.map fun wtx => wtx.toCTransaction := by
  have enters : (p.enterStage node m).2[k]? = m[k]? := by
    unfold enterStage
    cases p.involves node m with
    | error e => rfl
    | ok involved =>
      cases involved with
      | false => rfl
      | true => exact Maps.lookup_insert_other other _
  rw [absorb,Stage.andThen_snd]
  split
  · rw [lookup_inputStages,enters]
  · rw [enters]

end Presentation

namespace LiveWallet

/-- A record under the hash of a transaction that is presented is a record of it. -/
def Filed (node : WalletNode) (w : LiveWallet) (ps : List Presentation) : Prop :=
  ∀ p ∈ ps, ∀ wtx, w.mapWallet[p.hash node]? = some wtx → wtx.toCTransaction = p.tx

theorem ingest_bare (clock : Nat → Int) (ps : List Presentation) {w : LiveWallet} (distinct : (ps.map (Presentation.hash node)).Nodup)
    (filed : w.Filed node ps) (backed : w.pool.Backed) :
    (w.ingest node clock ps).mapWallet.bare = ps.foldl (Presentation.absorb node) w.mapWallet.bare := by
  induction ps generalizing w clock with
  | nil => rfl
  | cons p rest ih =>
    obtain ⟨first,later⟩ := List.nodup_cons.mp (List.map_cons ▸ distinct)
    obtain ⟨absorbs,backed'⟩ := AddToWalletIfInvolvingMe_bare (clock 0) (filed p (List.mem_cons_self ..)) backed
    rw [ingest,List.foldl_cons,← absorbs]
    refine ih _ later (fun q member wtx found => ?_) backed'
    have other : p.hash node ≠ q.hash node := fun same => first (same ▸ List.mem_map_of_mem member)
    have kept := Presentation.lookup_absorb p w.mapWallet.bare other
    rw [← absorbs,WalletMap.bare_lookup,WalletMap.bare_lookup,found,Option.map_map,Option.map_map,Option.map_some] at kept
    obtain ⟨old,there,same⟩ := Option.map_eq_some_iff.mp kept.symm
    exact same.symm.trans (filed q (List.mem_cons_of_mem _ member) old there)

end LiveWallet

/-! ### What the records without their times tell -/

theorem IsFromMe_bare (m : WalletMap) (tx : CTransaction) : node.IsFromMe m.bare tx = node.IsFromMe m tx :=
  IsFromMe_congr fun _ _ => WalletMap.bare_vout ..

namespace WalletEntry
variable (wtx : WalletEntry) (m : WalletMap)

theorem sumAvailable_untimed (outs : List (CTxOut × Nat)) (nCredit : Cash) :
    wtx.untimed.sumAvailable node nCredit outs = wtx.sumAvailable node nCredit outs := by
  induction outs generalizing nCredit with
  | nil => rfl
  | cons out rest ih =>
    have same : wtx.untimed.IsSpent out.2 = wtx.IsSpent out.2 := rfl
    unfold sumAvailable
    dsimp only
    rw [same,ih,ih]

theorem GetAvailableCredit_untimed : wtx.untimed.GetAvailableCredit node = wtx.GetAvailableCredit node := by
  unfold GetAvailableCredit
  rw [sumAvailable_untimed]
  rfl

theorem workQueue_bare (fuel : Nat) (queue : List CMerkleTx) :
    wtx.untimed.workQueue node m.bare fuel queue = wtx.workQueue node m fuel queue := by
  induction fuel generalizing queue with
  | zero => cases queue <;> rfl
  | succ fuel ih =>
    cases queue with
    | nil => rfl
    | cons ptx rest =>
      have prev : wtx.untimed.mapPrev node = wtx.mapPrev node := rfl
      unfold workQueue
      rw [IsFromMe_bare,prev,ih]
      simp only [ih]

theorem IsConfirmed_bare (fuel : Nat) : wtx.untimed.IsConfirmed node m.bare fuel = wtx.IsConfirmed node m fuel := by
  have debit : node.GetDebit m.bare wtx.toCTransaction = node.GetDebit m wtx.toCTransaction := GetDebit_congr fun _ _ => WalletMap.bare_vout ..
  have same : wtx.untimed.GetDebit node m.bare = wtx.GetDebit node m := by
    unfold GetDebit
    rw [← debit]
    rfl
  unfold IsConfirmed
  rw [same,workQueue_bare]
  rfl

end WalletEntry

theorem GetBalance_bare (m : WalletMap) (fuel : Nat) : node.GetBalance m.bare fuel = node.GetBalance m fuel := by
  have sums : ∀ (wtxs : List WalletEntry) nTotal,
      node.sumBalance m.bare fuel nTotal (wtxs.map WalletEntry.untimed) = node.sumBalance m fuel nTotal wtxs := by
    intro wtxs
    induction wtxs with
    | nil => intro nTotal; rfl
    | cons wtx rest ih =>
      intro nTotal
      rw [List.map_cons]
      unfold WalletNode.sumBalance
      rw [WalletEntry.IsConfirmed_bare,WalletEntry.GetAvailableCredit_untimed]
      simp only [ih]
  have listed : m.bare.toList.map Prod.snd = (m.toList.map Prod.snd).map WalletEntry.untimed := by
    rw [WalletMap.bare,ExtTreeMap.toList_map,List.map_map,List.map_map]
    rfl
  unfold WalletNode.GetBalance
  rw [listed,sums]

theorem spent_bare (m : WalletMap) (out : COutPoint) : m.bare.spent out = m.spent out := by
  unfold WalletMap.spent
  rw [WalletMap.bare_lookup]
  cases m[out.hash]? <;> rfl

/-- The same transactions, the same spent flags and the same balance. -/
structure Agree (node : WalletNode) (w w' : LiveWallet) : Prop where
  keys : ∀ hash, hash ∈ w.mapWallet ↔ hash ∈ w'.mapWallet
  spent : ∀ out, w.mapWallet.spent out = w'.mapWallet.spent out
  balance : ∀ fuel, node.GetBalance w.mapWallet fuel = node.GetBalance w'.mapWallet fuel

theorem agree_of_bare {w w' : LiveWallet} (same : w.mapWallet.bare = w'.mapWallet.bare) : Agree node w w' where
  keys hash := by rw [← WalletMap.mem_bare,same,WalletMap.mem_bare]
  spent out := by rw [← spent_bare,same,spent_bare]
  balance fuel := by rw [← GetBalance_bare,same,GetBalance_bare]

end

/-- Two orders of the same transactions, each with its parents before it, give wallets with
    the same records, spent flags and balance. -/
theorem LiveWallet.ingestion_order_independent (node : WalletNode) (w : LiveWallet) (clock clock' : Nat → Int) {ps ps' : List Presentation}
    (perm : ps.Perm ps') (distinct : (ps.map (Presentation.hash node)).Nodup)
    (clear : ∀ p ∈ ps, ∀ q ∈ ps, p ≠ q → ¬ Presentation.Conflict p q)
    (ordered : CausesFirst (Presentation.Parent node) ps) (ordered' : CausesFirst (Presentation.Parent node) ps')
    (filed : w.Filed node ps) (backed : w.pool.Backed) : Agree node (w.ingest node clock ps) (w.ingest node clock' ps') := by
  refine agree_of_bare ?_
  have distinct' : (ps'.map (Presentation.hash node)).Nodup := (perm.map _).nodup_iff.mp distinct
  have filed' : w.Filed node ps' := fun p member => filed p (perm.symm.subset member)
  rw [ingest_bare clock ps distinct filed backed,ingest_bare clock' ps' distinct' filed' backed]
  refine foldl_eq_of_perm perm ordered ordered' (fun p member q member' apart free free' m => ?_) _
  have hashes : p.hash node ≠ q.hash node := fun same => apart (List.inj_on_of_nodup_map distinct member member' same)
  exact Presentation.absorb_comm hashes free free' (clear p member q member' apart) m

/-- A transaction with this hash spends a coin and pays to a script. -/
private def arrival (hash : Nat) (coin : COutPoint) (scriptPubKey : CScript) : Presentation :=
  {tx := ⟨1,[⟨coin,[],0⟩],[⟨Cash.ofMoney (EUR,10),scriptPubKey⟩],hash,[]⟩}

private def EurBalance (w : LiveWallet) : Option (Option Amount) :=
  (sampleNode.GetBalance w.mapWallet 9).map fun result => result.toOption.map fun nTotal => nTotal.amount EUR

/-- The child of a payment to the wallet, and another payment. -/
private def family : List Presentation := [arrival 1 ⟨8,0⟩ [1],arrival 2 ⟨1,0⟩ [2],arrival 3 ⟨9,0⟩ [1]]
private def familyApart : List Presentation := [arrival 3 ⟨9,0⟩ [1],arrival 1 ⟨8,0⟩ [1],arrival 2 ⟨1,0⟩ [2]]

private def clock (i : Nat) : Int := 1400000000+i

theorem family_agrees : Agree sampleNode (({} : LiveWallet).ingest sampleNode clock family) (({} : LiveWallet).ingest sampleNode (clock ∘ (· * 2)) familyApart) := by
  refine LiveWallet.ingestion_order_independent sampleNode {} _ _ ?_ (by decide) (by decide) ?_ ?_ ?_ ⟨?_,?_⟩
  · exact @List.perm_append_comm _ [arrival 1 ⟨8,0⟩ [1],arrival 2 ⟨1,0⟩ [2]] [arrival 3 ⟨9,0⟩ [1]]
  · unfold CausesFirst; decide
  · unfold CausesFirst; decide
  · intro p _ wtx found
    exact absurd found (by simp)
  · intro nIndex member
    exact absurd member (by simp)
  · intro nIndex key found
    exact absurd found (by simp)

/-- A locked wallet with two coins, a default key, and a key pool whose one record is lost. -/
private def lostKey : LiveWallet where
  mapWallet := (∅ : WalletMap).insert 10
    (.ofTransaction ⟨1,[⟨⟨7,0⟩,[],0⟩],[⟨Cash.ofMoney (EUR,10),[1]⟩,⟨Cash.ofMoney (EUR,10),[1]⟩],10,[]⟩)
  pool := {setKeyPool := ExtTreeSet.empty.insert 5,IsLocked := true,vchDefaultKey := some 1}

private def inTurn (w : LiveWallet) (ps : List Presentation) : LiveWallet := w.ingest sampleNode clock ps

/-- A child that comes before its parent is not known to be from the wallet, and its coin is
    never marked; of two payments to the default key the first one meets the lost record. -/
theorem arrival_order_matters :
    (¬ Presentation.Conflict (arrival 1 ⟨8,0⟩ [1]) (arrival 2 ⟨1,0⟩ [2]) ∧
      2 ∈ (inTurn {} [arrival 1 ⟨8,0⟩ [1],arrival 2 ⟨1,0⟩ [2]]).mapWallet ∧
      2 ∉ (inTurn {} [arrival 2 ⟨1,0⟩ [2],arrival 1 ⟨8,0⟩ [1]]).mapWallet ∧
      (inTurn {} [arrival 1 ⟨8,0⟩ [1],arrival 2 ⟨1,0⟩ [2]]).mapWallet.spent ⟨1,0⟩ = true ∧
      (inTurn {} [arrival 2 ⟨1,0⟩ [2],arrival 1 ⟨8,0⟩ [1]]).mapWallet.spent ⟨1,0⟩ = false ∧
      EurBalance (inTurn {} [arrival 1 ⟨8,0⟩ [1],arrival 2 ⟨1,0⟩ [2]]) = some (some 0) ∧
      EurBalance (inTurn {} [arrival 2 ⟨1,0⟩ [2],arrival 1 ⟨8,0⟩ [1]]) = some (some 10)) ∧
    ¬ Presentation.Conflict (arrival 1 ⟨10,0⟩ [1]) (arrival 2 ⟨10,1⟩ [1]) ∧
      (inTurn lostKey [arrival 1 ⟨10,0⟩ [1],arrival 2 ⟨10,1⟩ [1]]).mapWallet.spent ⟨10,0⟩ = false ∧
      (inTurn lostKey [arrival 2 ⟨10,1⟩ [1],arrival 1 ⟨10,0⟩ [1]]).mapWallet.spent ⟨10,0⟩ = true := by
  decide +kernel

end Tetra
