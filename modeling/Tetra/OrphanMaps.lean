import Mathlib
import Tetra.Orphans
import Tetra.SetIndex

/-!
The maps of the orphans: what is listed by the transactions that are waited for is what is
stored, but for the hashes that the handler of "tx" looks up when nothing waits for them.
-/
namespace Tetra
open SetIndex Maps
open Std (ExtTreeMap ExtTreeSet TransOrd LawfulEqOrd)

namespace Node

/-- The orphan that is stored under `hash` spends from the transaction `prev`. -/
def Waits (node : Node) (prev hash : uint256) : Prop :=
  ∃ tx, node.mapOrphanTransactions[hash]? = some tx ∧ ∃ txin ∈ tx.vin, txin.prevout.hash = prev

/-- What is listed by the previous transactions is what waits for them. -/
def Sound (node : Node) : Prop := ∀ prev hash, Listed node.mapOrphanTransactionsByPrev prev hash ↔ node.Waits prev hash

/-- The two maps are in step: an entry for each transaction that is waited for, with those
    that wait for it, and for no other; and the orphans are not too many. -/
structure Consistent (node : Node) : Prop where
  entries : ∀ prev : uint256, prev ∈ node.mapOrphanTransactionsByPrev ↔ ∃ hash, node.Waits prev hash
  lists : ∀ (prev : uint256) waiting, node.mapOrphanTransactionsByPrev[prev]? = some waiting → ∀ hash, hash ∈ waiting ↔ node.Waits prev hash
  few : node.mapOrphanTransactions.size ≤ MAX_ORPHAN_TRANSACTIONS

variable {node : Node}

theorem Sound.consistent (sound : Sound node) (pruned : Pruned node.mapOrphanTransactionsByPrev)
    (few : node.mapOrphanTransactions.size ≤ MAX_ORPHAN_TRANSACTIONS) : Consistent node := by
  refine ⟨fun prev => ?_,fun prev waiting found hash => ?_,few⟩
  · rw [pruned.mem_iff]
    exact exists_congr fun hash => sound prev hash
  · rw [← sound,Listed,found,Option.getD_some]

/-! ### One orphan more or less -/

theorem Sound.AddOrphanTx (sound : Sound node) (env : Env) (tx : CTransaction) : Sound (node.AddOrphanTx env tx).2 := by
  unfold Node.AddOrphanTx
  dsimp only
  split
  · exact sound
  next fresh =>
    split
    · exact sound
    · intro prev hash
      refine (listed_addAll (fun txin : CTxIn => txin.prevout.hash) tx.vin).trans ?_
      rw [sound prev hash]
      constructor
      · rintro (⟨rfl,spends⟩ | ⟨other,stored,spends⟩)
        · exact ⟨tx,insert_self _ _,spends⟩
        · refine ⟨other,insert_other tx ?_ stored,spends⟩
          rintro rfl
          exact fresh (ExtTreeMap.mem_iff_isSome_getElem?.mpr (by rw [stored]; rfl))
      · rintro ⟨other,stored,spends⟩
        rcases insert_some_iff.mp stored with ⟨rfl,rfl⟩ | ⟨_,stored⟩
        · exact .inl ⟨rfl,spends⟩
        · exact .inr ⟨other,stored,spends⟩

theorem pruned_AddOrphanTx (pruned : Pruned node.mapOrphanTransactionsByPrev) (env : Env) (tx : CTransaction) :
    Pruned (node.AddOrphanTx env tx).2.mapOrphanTransactionsByPrev := by
  unfold Node.AddOrphanTx
  dsimp only
  split
  · exact pruned
  split
  · exact pruned
  · exact pruned.addAll (fun txin : CTxIn => txin.prevout.hash) tx.vin

theorem Sound.EraseOrphanTx (sound : Sound node) (hash : uint256) : Sound (node.EraseOrphanTx hash) := by
  unfold Node.EraseOrphanTx
  split
  · exact sound
  next tx stored =>
    intro prev other
    refine (listed_pruneAll (fun txin : CTxIn => txin.prevout.hash) tx.vin).trans ?_
    rw [sound prev other]
    constructor
    · rintro ⟨apart,tx',stored',spends⟩
      refine ⟨tx',erase_some_iff.mpr ⟨?_,stored'⟩,spends⟩
      rintro rfl
      obtain rfl := Option.some.inj (stored.symm.trans stored')
      exact apart ⟨rfl,spends⟩
    · rintro ⟨tx',stored',spends⟩
      obtain ⟨different,stored'⟩ := erase_some_iff.mp stored'
      exact ⟨fun same => different same.1,tx',stored',spends⟩

theorem pruned_EraseOrphanTx (pruned : Pruned node.mapOrphanTransactionsByPrev) (hash : uint256) :
    Pruned (node.EraseOrphanTx hash).mapOrphanTransactionsByPrev := by
  unfold Node.EraseOrphanTx
  split
  · exact pruned
  next tx _ => exact pruned.pruneAll (fun txin : CTxIn => txin.prevout.hash) tx.vin

theorem EraseOrphanTx_size (node : Node) (hash : uint256) :
    (node.EraseOrphanTx hash).mapOrphanTransactions.size ≤ node.mapOrphanTransactions.size := by
  unfold Node.EraseOrphanTx
  split
  · exact Nat.le_refl _
  · exact ExtTreeMap.size_erase_le

/-- What a loop that erases orphans keeps. -/
structure Less (node after : Node) : Prop where
  sound : Sound node → Sound after
  pruned : Pruned node.mapOrphanTransactionsByPrev → Pruned after.mapOrphanTransactionsByPrev
  size : after.mapOrphanTransactions.size ≤ node.mapOrphanTransactions.size

theorem less_refl (node : Node) : Less node node := ⟨id,id,Nat.le_refl _⟩

theorem Less.trans {mid after : Node} (first : Less node mid) (second : Less mid after) : Less node after :=
  ⟨fun sound => second.sound (first.sound sound),fun pruned => second.pruned (first.pruned pruned),second.size.trans first.size⟩

theorem less_EraseOrphanTx (node : Node) (hash : uint256) : Less node (node.EraseOrphanTx hash) :=
  ⟨fun sound => sound.EraseOrphanTx hash,fun pruned => pruned_EraseOrphanTx pruned hash,EraseOrphanTx_size node hash⟩

theorem less_eraseAll (node : Node) (queue : List uint256) : Less node (queue.foldl EraseOrphanTx node) := by
  induction queue generalizing node with
  | nil => exact less_refl node
  | cons hash rest ih => exact (less_EraseOrphanTx node hash).trans (ih _)

theorem less_evict (nMaxOrphans : Nat) (GetRandHash : Nat → uint256) (fuel nEvicted : Nat) (node : Node) :
    Less node (evict nMaxOrphans GetRandHash fuel nEvicted node).2 := by
  induction fuel generalizing nEvicted node with
  | zero => exact less_refl node
  | succ fuel ih =>
    rw [evict]
    split
    · refine Less.trans ?_ (ih _ _)
      unfold evictOne
      dsimp only
      split
      · exact less_EraseOrphanTx node _
      · exact less_refl node
    · exact less_refl node

/-- What the handler's lookup by `operator[]` leaves: an entry, perhaps an empty one. -/
def lookedUp (node : Node) (prev : uint256) : Node :=
  {node with mapOrphanTransactionsByPrev := node.mapOrphanTransactionsByPrev.insert prev (node.mapOrphanTransactionsByPrev[prev]?.getD ∅)}

theorem Sound.lookedUp (sound : Sound node) (prev : uint256) : Sound (node.lookedUp prev) := by
  intro other hash
  refine Iff.trans ?_ (sound other hash)
  rw [Listed,Listed,Node.lookedUp,ExtTreeMap.getElem?_insert]
  by_cases same : other = prev
  · subst same
    rw [if_pos Std.compare_self,Option.getD_some]
  · rw [if_neg fun equal => same (Std.compare_eq_iff_eq.mp equal).symm]

theorem pruned_lookedUp (pruned : Pruned node.mapOrphanTransactionsByPrev) {prev hash : uint256}
    (listed : Listed node.mapOrphanTransactionsByPrev prev hash) : Pruned (node.lookedUp prev).mapOrphanTransactionsByPrev := by
  intro other waiting found
  rcases insert_some_iff.mp found with ⟨rfl,rfl⟩ | ⟨_,found⟩
  · exact ⟨hash,listed⟩
  · exact pruned other waiting found

end Node

/-! ### The handler -/

section
variable {rules : PoolRules} (chain : ActiveChain)

/-- While the waiting orphans are tried again, neither map changes. -/
structure Still (rules : PoolRules) (message : TxMessage) (start : Node) (s : Resolving) : Prop where
  mempool : s.node.mempool = start.mempool
  work : s.vWorkQueue = [rules.env.TxHash message.tx]
  orphans : s.node.mapOrphanTransactions = start.mapOrphanTransactions
  byPrev : s.node.mapOrphanTransactionsByPrev = start.mapOrphanTransactionsByPrev

theorem retryOrphan_still {message : TxMessage} {start : Node} {s : Resolving} (still : Still rules message start s)
    (known : rules.env.TxHash message.tx ∈ start.mempool.mapTx) {orphanHash : uint256} {tx : CTransaction}
    (stored : start.mapOrphanTransactions[orphanHash]? = some tx) :
    Still rules message start (retryOrphan rules chain message s orphanHash) := by
  obtain ⟨e,outcome⟩ : ∃ e, s.node.mempool.AcceptToMemoryPool rules chain (message.now s.calls) message.tx true true =
      {result := .error e,mempool := start.mempool} := by
    rw [still.mempool]
    exact CTxMemPool.AcceptToMemoryPool_known rules chain _ known true
  have same : start.mapOrphanTransactions.insert orphanHash tx = start.mapOrphanTransactions := by
    apply ExtTreeMap.ext_getElem?
    intro other
    rw [ExtTreeMap.getElem?_insert]
    split
    next equal =>
      obtain rfl := Std.compare_eq_iff_eq.mp equal
      exact stored.symm
    · rfl
  unfold retryOrphan
  dsimp only
  rw [outcome,still.orphans,stored]
  exact ⟨rfl,still.work,same,still.byPrev⟩

theorem retryOrphans_still {message : TxMessage} {start : Node} {s : Resolving} (still : Still rules message start s)
    (known : rules.env.TxHash message.tx ∈ start.mempool.mapTx) {waiting : List uint256}
    (stored : ∀ hash ∈ waiting, ∃ tx, start.mapOrphanTransactions[hash]? = some tx) :
    Still rules message start (waiting.foldl (retryOrphan rules chain message) s) := by
  induction waiting generalizing s with
  | nil => exact still
  | cons orphanHash rest ih =>
    obtain ⟨tx,here⟩ := stored orphanHash (List.mem_cons_self ..)
    rw [List.foldl_cons]
    exact ih (retryOrphan_still chain still known here) fun hash later => stored hash (List.mem_cons_of_mem orphanHash later)

/-- The hash of the message is looked up once, and no other. -/
theorem resolveOrphans_still {message : TxMessage} {start : Node} {s : Resolving} (still : Still rules message start s)
    (known : rules.env.TxHash message.tx ∈ start.mempool.mapTx) (sound : start.Sound) (fuel : Nat) :
    ∃ s', resolveOrphans rules chain message (fuel+1) 0 s = some s' ∧
      Still rules message (start.lookedUp (rules.env.TxHash message.tx)) s' := by
  have first : s.vWorkQueue[0]? = some (rules.env.TxHash message.tx) := by
    rw [still.work]
    rfl
  rw [resolveOrphans,first]
  dsimp only
  rw [still.byPrev]
  have stored : ∀ hash ∈ (start.mapOrphanTransactionsByPrev[rules.env.TxHash message.tx]?.getD ∅).toList,
      ∃ tx, start.mapOrphanTransactions[hash]? = some tx := by
    intro hash member
    obtain ⟨tx,found,_⟩ := (sound _ hash).mp (ExtTreeSet.mem_toList.mp member)
    exact ⟨tx,found⟩
  have looked : Still rules message (start.lookedUp (rules.env.TxHash message.tx)) {s with
      node := {s.node with mapOrphanTransactionsByPrev := (start.lookedUp (rules.env.TxHash message.tx)).mapOrphanTransactionsByPrev}} :=
    ⟨still.mempool,still.work,still.orphans,rfl⟩
  have turned := retryOrphans_still chain looked known stored
  have ends : ∀ s' : Resolving, s'.vWorkQueue = [rules.env.TxHash message.tx] → resolveOrphans rules chain message fuel 1 s' = some s' := by
    intro s' queue
    rw [resolveOrphans,queue]
    rfl
  exact ⟨_,ends _ turned.work,turned⟩

/-- The message finds an orphan that waits for it, or the pool turns it down. -/
def AwaitedOrRefused (rules : PoolRules) (message : TxMessage) (node : Node) : Prop :=
  (∃ hash, node.Waits (rules.env.TxHash message.tx) hash) ∨
    (node.mempool.AcceptToMemoryPool rules chain (message.now 0) message.tx true true).result ≠ .ok ()

/-- A message leaves the index right and the orphans few; it leaves an empty entry only if
    the pool takes it and nothing waits for it. -/
theorem ProcessTx_maps (fuel : Nat) (message : TxMessage) {node : Node} (sound : node.Sound)
    (few : node.mapOrphanTransactions.size ≤ MAX_ORPHAN_TRANSACTIONS) :
    ∃ outcome, ProcessTx rules chain (fuel+1) message node = some outcome ∧ outcome.node.Sound ∧
      outcome.node.mapOrphanTransactions.size ≤ MAX_ORPHAN_TRANSACTIONS ∧
      (Pruned node.mapOrphanTransactionsByPrev → AwaitedOrRefused chain rules message node → Pruned outcome.node.mapOrphanTransactionsByPrev) := by
  unfold ProcessTx AwaitedOrRefused
  dsimp only
  rcases CTxMemPool.AcceptToMemoryPool_cases rules chain (message.now 0) node.mempool message.tx true false with
    ⟨accepts,admitted⟩ | ⟨e,missing,refuses,_⟩
  · rw [accepts]
    dsimp only
    set start : Node := {node with mempool := node.mempool.addUnchecked (rules.env.TxHash message.tx) message.tx} with startIs
    have known : rules.env.TxHash message.tx ∈ start.mempool.mapTx := by simp [startIs]
    have started : Still rules message start {
        node := start
        vWorkQueue := [rules.env.TxHash message.tx]
        vEraseQueue := [rules.env.TxHash message.tx]
        relayed := [(message.tx,rules.env.TxHash message.tx)]} := ⟨rfl,rfl,rfl,rfl⟩
    obtain ⟨s,resolves,still⟩ := resolveOrphans_still chain started known sound fuel
    rw [resolves]
    have less := Node.less_eraseAll s.node s.vEraseQueue
    have startSound : start.Sound := sound
    refine ⟨_,rfl,less.sound ?_,less.size.trans ?_,fun pruned calm => less.pruned ?_⟩
    · have looked := startSound.lookedUp (rules.env.TxHash message.tx)
      unfold Node.Sound Node.Waits at looked ⊢
      rw [still.byPrev,still.orphans]
      exact looked
    · rw [still.orphans]
      exact few
    · obtain ⟨hash,waits⟩ := calm.resolve_right (not_not.mpr rfl)
      rw [still.byPrev]
      exact @Node.pruned_lookedUp start pruned _ hash ((sound _ hash).mpr waits)
  · rw [refuses]
    dsimp only
    split
    · have added := sound.AddOrphanTx rules.env message.tx
      have less := Node.less_evict MAX_ORPHAN_TRANSACTIONS message.GetRandHash
        (node.AddOrphanTx rules.env message.tx).2.mapOrphanTransactions.size 0 (node.AddOrphanTx rules.env message.tx).2
      exact ⟨_,rfl,less.sound added,Node.LimitOrphanTxSize_size ..,fun pruned _ => less.pruned (Node.pruned_AddOrphanTx pruned rules.env message.tx)⟩
    · exact ⟨_,rfl,sound,few,fun pruned _ => pruned⟩

end

/-! ### Runs -/

/-- A "tx" message on some chain, or what else changes the memory pool. -/
inductive OrphanEvent
  | tx (chain : ActiveChain) (message : TxMessage)
  | elsewhere (mempool : CTxMemPool)

section
variable (rules : PoolRules) (fuel : Nat)

def OrphanEvent.step (node : Node) : OrphanEvent → Option Node
  | .tx chain message => (ProcessTx rules chain (fuel+1) message node).map TxOutcome.node
  | .elsewhere mempool => some {node with mempool := mempool}

/-- No empty entry is left behind. -/
def OrphanEvent.Calm (node : Node) : OrphanEvent → Prop
  | .tx chain message => AwaitedOrRefused chain rules message node
  | .elsewhere _ => True

/-- The states of runs; `calm` says of which events they are made. -/
inductive OrphanReached (calm : Node → OrphanEvent → Prop) : Node → Prop
  | start : OrphanReached calm {}
  | step {node after : Node} (event : OrphanEvent) (reached : OrphanReached calm node) (stays : calm node event)
      (next : event.step rules fuel node = some after) : OrphanReached calm after

end

section
variable {rules : PoolRules} {fuel : Nat} {node : Node}

theorem OrphanEvent.step_maps (event : OrphanEvent) (sound : node.Sound) (few : node.mapOrphanTransactions.size ≤ MAX_ORPHAN_TRANSACTIONS) :
    ∃ after, event.step rules fuel node = some after ∧ after.Sound ∧ after.mapOrphanTransactions.size ≤ MAX_ORPHAN_TRANSACTIONS ∧
      (Pruned node.mapOrphanTransactionsByPrev → event.Calm rules node → Pruned after.mapOrphanTransactionsByPrev) := by
  cases event with
  | tx chain message =>
    obtain ⟨outcome,processed,maps⟩ := ProcessTx_maps chain fuel message sound few
    exact ⟨outcome.node,by rw [OrphanEvent.step,processed]; rfl,maps⟩
  | elsewhere mempool => exact ⟨_,rfl,sound,few,fun pruned _ => pruned⟩

theorem OrphanReached.maps {calm : Node → OrphanEvent → Prop} (reached : OrphanReached rules fuel calm node) :
    node.Sound ∧ node.mapOrphanTransactions.size ≤ MAX_ORPHAN_TRANSACTIONS := by
  induction reached with
  | start =>
    refine ⟨fun prev hash => ⟨fun listed => ?_,fun waits => ?_⟩,Nat.zero_le _⟩
    · obtain ⟨waiting,found,_⟩ := listed_iff.mp listed
      rw [ExtTreeMap.getElem?_empty] at found
      contradiction
    · obtain ⟨tx,stored,_⟩ := waits
      rw [ExtTreeMap.getElem?_empty] at stored
      contradiction
  | step event _ _ next ih =>
    obtain ⟨after,stepped,sound,few,_⟩ := event.step_maps ih.1 ih.2
    obtain rfl := Option.some.inj (stepped.symm.trans next)
    exact ⟨sound,few⟩

theorem OrphanReached.pruned (reached : OrphanReached rules fuel (fun node event => event.Calm rules node) node) :
    Pruned node.mapOrphanTransactionsByPrev := by
  induction reached with
  | start =>
    intro prev waiting found
    rw [ExtTreeMap.getElem?_empty] at found
    contradiction
  | step event before calm next ih =>
    obtain ⟨sound,few⟩ := before.maps
    obtain ⟨after,stepped,_,_,pruned⟩ := event.step_maps sound few
    obtain rfl := Option.some.inj (stepped.symm.trans next)
    exact pruned ih calm

variable (rules fuel) in
/-- In every run the index lists what waits, and orphans are never too many; every message
    is handled. Where each message that is accepted was waited for, the maps are in step. -/
theorem orphan_maps_consistent :
    (∀ node, OrphanReached rules fuel (fun _ _ => True) node → node.Sound ∧ node.mapOrphanTransactions.size ≤ MAX_ORPHAN_TRANSACTIONS ∧
      ∀ event : OrphanEvent, ∃ after, event.step rules fuel node = some after) ∧
    ∀ node, OrphanReached rules fuel (fun node event => event.Calm rules node) node → node.Consistent := by
  refine ⟨fun node reached => ?_,fun node reached => ?_⟩
  · obtain ⟨sound,few⟩ := reached.maps
    refine ⟨sound,few,fun event => ?_⟩
    obtain ⟨after,stepped,_⟩ := event.step_maps sound few
    exact ⟨after,stepped⟩
  · obtain ⟨sound,few⟩ := reached.maps
    exact sound.consistent reached.pruned few

end

/-- A child waits until its parent comes. -/
theorem orphan_maps_consistent_sample :
    ∃ after, OrphanReached sampleRules 0 (fun node event => event.Calm sampleRules node) after ∧
      after.mempool.mapTx.size = 1 ∧ after.Consistent := by
  have waits : (OrphanEvent.step sampleRules 0 {} (.tx sampleChain (sampleSpend 100 1))).map (fun node => node.mapOrphanTransactions[101]?) =
      some (some (sampleSpend 100 1).tx) := by decide +kernel
  obtain ⟨mid,stored,found⟩ := Option.map_eq_some_iff.mp waits
  have pool : ((OrphanEvent.step sampleRules 0 {} (.tx sampleChain (sampleSpend 100 1))).bind fun node =>
      (OrphanEvent.step sampleRules 0 node (.tx sampleChain (sampleSpend 1 0))).map fun node => node.mempool.mapTx.size) = some 1 := by
    decide +kernel
  rw [stored,Option.bind_some] at pool
  obtain ⟨after,delivered,one⟩ := Option.map_eq_some_iff.mp pool
  have refused : ((({} : CTxMemPool).AcceptToMemoryPool sampleRules sampleChain ((sampleSpend 100 1).now 0) (sampleSpend 100 1).tx true true).result).isOk = false := by
    decide +kernel
  have first : OrphanReached sampleRules 0 (fun node event => event.Calm sampleRules node) mid := by
    refine .step (.tx sampleChain (sampleSpend 100 1)) .start (Or.inr fun accepted => ?_) stored
    rw [accepted] at refused
    contradiction
  have second := OrphanReached.step (.tx sampleChain (sampleSpend 1 0)) first (Or.inl ⟨101,(sampleSpend 100 1).tx,found,by decide +kernel⟩) delivered
  exact ⟨after,second,one,(orphan_maps_consistent sampleRules 0).2 after second⟩

/-- A transaction that nothing waits for is accepted and leaves an entry for its hash. -/
theorem empty_entry_left : ∃ after, OrphanReached sampleRules 0 (fun _ _ => True) after ∧
    after.mapOrphanTransactions.isEmpty = true ∧ (100 : uint256) ∈ after.mapOrphanTransactionsByPrev ∧ ¬after.Consistent := by
  have ran : ((OrphanEvent.tx sampleChain (sampleSpend 1 0)).step sampleRules 0 {}).map
      (fun node => (node.mapOrphanTransactions.isEmpty,decide ((100 : uint256) ∈ node.mapOrphanTransactionsByPrev))) = some (true,true) := by
    decide +kernel
  obtain ⟨after,stepped,shown⟩ := Option.map_eq_some_iff.mp ran
  obtain ⟨none,entry⟩ := Prod.mk.inj shown
  have entry := of_decide_eq_true entry
  refine ⟨after,.step _ .start trivial stepped,none,entry,fun consistent => ?_⟩
  obtain ⟨hash,tx,stored,_⟩ := (consistent.entries 100).mp entry
  rw [ExtTreeMap.isEmpty_iff.mp none,ExtTreeMap.getElem?_empty] at stored
  contradiction

end Tetra
