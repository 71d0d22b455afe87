import Mathlib
import Tetra.Mempool

/-!
Transactions that arrive before the transactions they spend from: the maps that hold
them, and the message that takes a transaction in and tries the waiting ones again.
-/
namespace Tetra
open Std

def MAX_ORPHAN_TRANSACTIONS : Nat := MAX_BLOCK_SIZE/100

/-- `CTransaction()` -/
def CTransaction.default : CTransaction := ⟨CTransaction.CURRENT_VERSION,[],[],0,[]⟩

structure Node where
  mempool : CTxMemPool := {}
  mapOrphanTransactions : ExtTreeMap uint256 CTransaction := ∅
  mapOrphanTransactionsByPrev : ExtTreeMap uint256 (ExtTreeSet uint256) := ∅

namespace Node

def AddOrphanTx (env : Env) (node : Node) (tx : CTransaction) : Bool × Node :=
  let hash := env.TxHash tx
  if hash ∈ node.mapOrphanTransactions then (false,node)
  else if tx.GetSerializeSize > 5000 then (false,node)
  else (true,{node with
    mapOrphanTransactions := node.mapOrphanTransactions.insert hash tx
    mapOrphanTransactionsByPrev := tx.vin.foldl (fun byPrev txin =>
      byPrev.insert txin.prevout.hash ((byPrev[txin.prevout.hash]?.getD ∅).insert hash)) node.mapOrphanTransactionsByPrev})

def EraseOrphanTx (node : Node) (hash : uint256) : Node :=
  match node.mapOrphanTransactions[hash]? with
  | none => node
  | some tx => {node with
    mapOrphanTransactions := node.mapOrphanTransactions.erase hash
    mapOrphanTransactionsByPrev := tx.vin.foldl (fun byPrev txin =>
      let waiting := (byPrev[txin.prevout.hash]?.getD ∅).erase hash
      if waiting.isEmpty then byPrev.erase txin.prevout.hash else byPrev.insert txin.prevout.hash waiting)
      node.mapOrphanTransactionsByPrev}

/-- One turn of `LimitOrphanTxSize`: the first orphan from a random hash on, or the first. -/
def evictOne (node : Node) (randomhash : uint256) : Node :=
  let hashes := node.mapOrphanTransactions.keys
  match (hashes.find? fun hash => decide (randomhash ≤ hash)).or hashes.head? with
  | some hash => node.EraseOrphanTx hash
  | none => node

/-- The loop of `LimitOrphanTxSize`, with the number evicted so far. -/
def evict (nMaxOrphans : Nat) (GetRandHash : Nat → uint256) : Nat → Nat → Node → Nat × Node
  | fuel+1, nEvicted, node =>
    if node.mapOrphanTransactions.size > nMaxOrphans then
      evict nMaxOrphans GetRandHash fuel (nEvicted+1) (node.evictOne (GetRandHash nEvicted))
    else (nEvicted,node)
  | 0, nEvicted, node => (nEvicted,node)

/-- Every turn takes out one orphan, so their number is enough fuel. -/
def LimitOrphanTxSize (nMaxOrphans : Nat) (GetRandHash : Nat → uint256) (node : Node) : Nat × Node :=
  evict nMaxOrphans GetRandHash node.mapOrphanTransactions.size 0 node

end Node

/-- A "tx" message, and what the node draws from outside while it handles it: the
    moment of each call of `AcceptToMemoryPool`, and random hashes. -/
structure TxMessage where
  tx : CTransaction
  now : Nat → Moment
  GetRandHash : Nat → uint256 := fun _ => 0

/-- The state of the loop over the orphans that waited. -/
structure Resolving where
  node : Node
  /-- Calls of `AcceptToMemoryPool` so far. -/
  calls : Nat := 1
  vWorkQueue : List uint256
  vEraseQueue : List uint256
  relayed : List (CTransaction × uint256)
  /-- The orphans that were accepted, each with the transaction that went into the pool. -/
  accepted : List (CTransaction × CTransaction) := []

structure TxOutcome where
  node : Node
  relayed : List (CTransaction × uint256) := []
  accepted : List (CTransaction × CTransaction) := []
  /-- What the peer is charged with. -/
  nDoS : Nat := 0

/-- `state.IsInvalid(nDoS)` -/
def Reject.nDoS : Reject → Nat
  | .DoS level _ _ => level
  | .within _ cause => cause.nDoS
  | _ => 0

section
variable (rules : PoolRules) (chain : ActiveChain)

/-- The body of the inner loop. -/
def retryOrphan (message : TxMessage) (s : Resolving) (orphanHash : uint256) : Resolving :=
  let orphanTx := s.node.mapOrphanTransactions[orphanHash]?.getD CTransaction.default
  let node := {s.node with mapOrphanTransactions := s.node.mapOrphanTransactions.insert orphanHash orphanTx}
  -- It is the transaction of the message that is offered again, not the orphan.
  let offered := message.tx
  let outcome := node.mempool.AcceptToMemoryPool rules chain (message.now s.calls) offered true true
  let s := {s with node := {node with mempool := outcome.mempool},calls := s.calls+1}
  match outcome.result with
  | .ok () => {s with
    vWorkQueue := s.vWorkQueue++[orphanHash]
    vEraseQueue := s.vEraseQueue++[orphanHash]
    relayed := s.relayed++[(orphanTx,orphanHash)]
    accepted := s.accepted++[(orphanTx,offered)]}
  | .error _ => if outcome.fMissingInputs then s else {s with vEraseQueue := s.vEraseQueue++[orphanHash]}

/-- The work queue from index `i` on; none if the fuel runs out. -/
def resolveOrphans (message : TxMessage) : Nat → Nat → Resolving → Option Resolving
  | fuel, i, s =>
    match s.vWorkQueue[i]? with
    | none => some s
    | some hashPrev =>
      match fuel with
      | 0 => none
      | fuel+1 =>
        let waiting := s.node.mapOrphanTransactionsByPrev[hashPrev]?.getD ∅
        let node := {s.node with mapOrphanTransactionsByPrev := s.node.mapOrphanTransactionsByPrev.insert hashPrev waiting}
        resolveOrphans message fuel (i+1) (waiting.toList.foldl (retryOrphan rules chain message) {s with node := node})

/-- `ProcessMessage` for the command "tx". -/
def ProcessTx (fuel : Nat) (message : TxMessage) (node : Node) : Option TxOutcome :=
  let hash := rules.env.TxHash message.tx
  let outcome := node.mempool.AcceptToMemoryPool rules chain (message.now 0) message.tx true true
  let node := {node with mempool := outcome.mempool}
  match outcome.result with
  | .ok () =>
    match resolveOrphans rules chain message fuel 0 {node := node,vWorkQueue := [hash],vEraseQueue := [hash],relayed := [(message.tx,hash)]} with
    | none => none
    | some s => some {node := s.vEraseQueue.foldl Node.EraseOrphanTx s.node,relayed := s.relayed,accepted := s.accepted}
  | .error e =>
    let node := if outcome.fMissingInputs then
      ((node.AddOrphanTx rules.env message.tx).2.LimitOrphanTxSize MAX_ORPHAN_TRANSACTIONS message.GetRandHash).2 else node
    some {node := node,nDoS := e.nDoS}

/-- Messages one after another, with all that was accepted through the orphans. -/
def ProcessTxs (fuel : Nat) : List TxMessage → Node → Option (Node × List (CTransaction × CTransaction))
  | [], node => some (node,[])
  | message :: rest, node =>
    match ProcessTx rules chain fuel message node with
    | none => none
    | some outcome =>
      match ProcessTxs fuel rest outcome.node with
      | none => none
      | some (last,accepted) => some (last,outcome.accepted++accepted)

end

namespace Node

@[simp] theorem EraseOrphanTx_mempool (node : Node) (hash : uint256) : (node.EraseOrphanTx hash).mempool = node.mempool := by
  unfold EraseOrphanTx
  split <;> rfl

theorem mem_EraseOrphanTx (node : Node) (hash h : uint256) :
    h ∈ (node.EraseOrphanTx hash).mapOrphanTransactions ↔ h ≠ hash ∧ h ∈ node.mapOrphanTransactions := by
  unfold EraseOrphanTx
  split
  · next absent =>
    constructor
    · intro inside
      refine ⟨?_,inside⟩
      rintro rfl
      simp [ExtTreeMap.mem_iff_isSome_getElem?,absent] at inside
    · exact And.right
  · rw [ExtTreeMap.mem_erase,ne_eq,Std.compare_eq_iff_eq,eq_comm]

theorem erase_all_mempool (queue : List uint256) (node : Node) : (queue.foldl EraseOrphanTx node).mempool = node.mempool := by
  induction queue generalizing node with
  | nil => rfl
  | cons hash rest ih => rw [List.foldl_cons,ih,EraseOrphanTx_mempool]

theorem mem_erase_all (queue : List uint256) (node : Node) (h : uint256) :
    h ∈ (queue.foldl EraseOrphanTx node).mapOrphanTransactions ↔ h ∉ queue ∧ h ∈ node.mapOrphanTransactions := by
  induction queue generalizing node with
  | nil => simp
  | cons hash rest ih =>
    rw [List.foldl_cons,ih,mem_EraseOrphanTx,List.mem_cons,not_or]
    constructor
    · rintro ⟨later,here,inside⟩
      exact ⟨⟨here,later⟩,inside⟩
    · rintro ⟨⟨here,later⟩,inside⟩
      exact ⟨later,here,inside⟩

@[simp] theorem AddOrphanTx_mempool (env : Env) (node : Node) (tx : CTransaction) : (node.AddOrphanTx env tx).2.mempool = node.mempool := by
  unfold AddOrphanTx
  dsimp only
  split
  · rfl
  split
  · rfl
  · rfl

@[simp] theorem evictOne_mempool (node : Node) (randomhash : uint256) : (node.evictOne randomhash).mempool = node.mempool := by
  unfold evictOne
  dsimp only
  split
  · exact EraseOrphanTx_mempool ..
  · rfl

theorem evict_mempool (nMaxOrphans : Nat) (GetRandHash : Nat → uint256) (fuel nEvicted : Nat) (node : Node) :
    (evict nMaxOrphans GetRandHash fuel nEvicted node).2.mempool = node.mempool := by
  induction fuel generalizing nEvicted node with
  | zero => rfl
  | succ fuel ih =>
    rw [evict]
    split
    · rw [ih,evictOne_mempool]
    · rfl

@[simp] theorem LimitOrphanTxSize_mempool (nMaxOrphans : Nat) (GetRandHash : Nat → uint256) (node : Node) :
    (node.LimitOrphanTxSize nMaxOrphans GetRandHash).2.mempool = node.mempool := evict_mempool ..

/-- There is always an orphan to evict while there are orphans. -/
theorem evictOne_size (node : Node) (randomhash : uint256) (filled : 0 < node.mapOrphanTransactions.size) :
    (node.evictOne randomhash).mapOrphanTransactions.size+1 = node.mapOrphanTransactions.size := by
  have someHash : node.mapOrphanTransactions.keys ≠ [] := by
    intro empty
    have := @ExtTreeMap.length_keys _ _ _ node.mapOrphanTransactions _
    simp [empty] at this
    omega
  have found : ∃ hash ∈ node.mapOrphanTransactions,
      (node.mapOrphanTransactions.keys.find? fun hash => decide (randomhash ≤ hash)).or node.mapOrphanTransactions.keys.head? = some hash := by
    cases above : node.mapOrphanTransactions.keys.find? fun hash => decide (randomhash ≤ hash) with
    | some hash => exact ⟨hash,ExtTreeMap.mem_keys.mp (List.mem_of_find?_eq_some above),rfl⟩
    | none => exact ⟨_,ExtTreeMap.mem_keys.mp (List.head_mem someHash),by rw [Option.none_or,List.head?_eq_some_head someHash]⟩
  obtain ⟨hash,inside,chosen⟩ := found
  obtain ⟨tx,stored⟩ := Option.isSome_iff_exists.mp (ExtTreeMap.mem_iff_isSome_getElem?.mp inside)
  have counted : node.mapOrphanTransactions.contains hash = true := inside
  simp only [evictOne,chosen,EraseOrphanTx,stored,ExtTreeMap.size_erase,counted,if_true]
  omega

theorem evict_size (nMaxOrphans : Nat) (GetRandHash : Nat → uint256) (fuel nEvicted : Nat) (node : Node)
    (enough : node.mapOrphanTransactions.size ≤ nMaxOrphans+fuel) :
    (evict nMaxOrphans GetRandHash fuel nEvicted node).2.mapOrphanTransactions.size ≤ nMaxOrphans := by
  induction fuel generalizing nEvicted node with
  | zero => exact enough
  | succ fuel ih =>
    rw [evict]
    split
    · next above =>
      have one := node.evictOne_size (GetRandHash nEvicted) (by omega)
      exact ih _ _ (by omega)
    · next within => exact Nat.not_lt.mp within

/-- After `LimitOrphanTxSize` the limit holds. -/
theorem LimitOrphanTxSize_size (nMaxOrphans : Nat) (GetRandHash : Nat → uint256) (node : Node) :
    (node.LimitOrphanTxSize nMaxOrphans GetRandHash).2.mapOrphanTransactions.size ≤ nMaxOrphans :=
  evict_size _ _ _ _ _ (by omega)

end Node

section
variable {rules : PoolRules} {chain : ActiveChain}

/-- What the loop over the orphans keeps: the pool, and every orphan that was not there
    before is one to be erased. -/
structure Idle (rules : PoolRules) (message : TxMessage) (start : Node) (s : Resolving) : Prop where
  mempool : s.node.mempool = start.mempool
  work : s.vWorkQueue = [rules.env.TxHash message.tx]
  accepted : s.accepted = []
  orphans : ∀ h, h ∈ s.node.mapOrphanTransactions → h ∈ start.mapOrphanTransactions ∨ h ∈ s.vEraseQueue

variable (chain) in
/-- The transaction is in the pool already, so no orphan is accepted. -/
theorem retryOrphan_idle {message : TxMessage} {start : Node} {s : Resolving} (idle : Idle rules message start s)
    (known : rules.env.TxHash message.tx ∈ start.mempool.mapTx) (orphanHash : uint256) :
    Idle rules message start (retryOrphan rules chain message s orphanHash) := by
  obtain ⟨e,outcome⟩ : ∃ e, s.node.mempool.AcceptToMemoryPool rules chain (message.now s.calls) message.tx true true =
      {result := .error e,mempool := start.mempool} := by
    rw [idle.mempool]
    exact CTxMemPool.AcceptToMemoryPool_known rules chain _ known true
  unfold retryOrphan
  dsimp only
  rw [outcome]
  refine ⟨rfl,idle.work,idle.accepted,fun h inside => ?_⟩
  simp only [Bool.false_eq_true,if_false] at inside ⊢
  rw [ExtTreeMap.mem_insert,Std.compare_eq_iff_eq] at inside
  rcases inside with rfl | before
  · exact .inr (by simp)
  · exact (idle.orphans h before).imp_right fun queued => List.mem_append_left _ queued

variable (chain) in
theorem retryOrphans_idle {message : TxMessage} {start : Node} {s : Resolving} (idle : Idle rules message start s)
    (known : rules.env.TxHash message.tx ∈ start.mempool.mapTx) (waiting : List uint256) :
    Idle rules message start (waiting.foldl (retryOrphan rules chain message) s) := by
  induction waiting generalizing s with
  | nil => exact idle
  | cons orphanHash rest ih =>
    rw [List.foldl_cons]
    exact ih (retryOrphan_idle chain idle known orphanHash)

variable (chain) in
/-- One turn of the work queue is enough, and it lets nothing in. -/
theorem resolveOrphans_idle {message : TxMessage} {start : Node} {s : Resolving} (idle : Idle rules message start s)
    (known : rules.env.TxHash message.tx ∈ start.mempool.mapTx) (fuel : Nat) :
    ∃ s', resolveOrphans rules chain message (fuel+1) 0 s = some s' ∧ Idle rules message start s' := by
  have first : s.vWorkQueue[0]? = some (rules.env.TxHash message.tx) := by rw [idle.work]; rfl
  rw [resolveOrphans,first]
  dsimp only
  generalize s.node.mapOrphanTransactionsByPrev[rules.env.TxHash message.tx]?.getD ∅ = waiting
  have touched : Idle rules message start {s with
      node := {s.node with
        mapOrphanTransactionsByPrev := s.node.mapOrphanTransactionsByPrev.insert (rules.env.TxHash message.tx) waiting}} :=
    ⟨idle.mempool,idle.work,idle.accepted,idle.orphans⟩
  have turned := retryOrphans_idle chain touched known waiting.toList
  refine ⟨_,?_,turned⟩
  have queue := turned.work
  generalize waiting.toList.foldl (retryOrphan rules chain message) _ = s' at queue ⊢
  rw [resolveOrphans,queue]
  rfl

variable (rules chain) in
/-- A message lets in its own transaction or nothing; no orphan is ever accepted. -/
theorem ProcessTx_cases (fuel : Nat) (message : TxMessage) (node : Node) :
    ∃ outcome, ProcessTx rules chain (fuel+1) message node = some outcome ∧ outcome.accepted = [] ∧
      ((CTxMemPool.Admitted rules chain (message.now 0) node.mempool message.tx ∧
        outcome.node.mempool = node.mempool.addUnchecked (rules.env.TxHash message.tx) message.tx ∧
        ∀ h, h ∈ outcome.node.mapOrphanTransactions → h ∈ node.mapOrphanTransactions) ∨
      ((∃ e, (node.mempool.AcceptToMemoryPool rules chain (message.now 0) message.tx true true).result = .error e) ∧
        outcome.node.mempool = node.mempool)) := by
  unfold ProcessTx
  dsimp only
  rcases CTxMemPool.AcceptToMemoryPool_cases rules chain (message.now 0) node.mempool message.tx true false with
    ⟨accepts,admitted⟩ | ⟨e,missing,refuses,_⟩
  · rw [accepts]
    dsimp only
    set start : Node := {node with mempool := node.mempool.addUnchecked (rules.env.TxHash message.tx) message.tx} with startIs
    have known : rules.env.TxHash message.tx ∈ start.mempool.mapTx := by simp [startIs]
    have started : Idle rules message start {
        node := start
        vWorkQueue := [rules.env.TxHash message.tx]
        vEraseQueue := [rules.env.TxHash message.tx]
        relayed := [(message.tx,rules.env.TxHash message.tx)]} := ⟨rfl,rfl,rfl,fun h inside => .inl inside⟩
    obtain ⟨s,resolves,idle⟩ := resolveOrphans_idle chain started known fuel
    rw [resolves]
    refine ⟨_,rfl,idle.accepted,.inl ⟨admitted,?_,fun h inside => ?_⟩⟩
    · rw [Node.erase_all_mempool,idle.mempool]
    · obtain ⟨outside,present⟩ := (Node.mem_erase_all _ _ h).mp inside
      exact (idle.orphans h present).resolve_right outside
  · rw [refuses]
    dsimp only
    refine ⟨_,rfl,rfl,.inr ⟨⟨e,rfl⟩,?_⟩⟩
    split
    · simp
    · rfl

end

/-- The pool after some transactions went in. -/
def CTxMemPool.added (env : Env) (pool : CTxMemPool) (txs : List CTransaction) : CTxMemPool :=
  txs.foldl (fun pool tx => pool.addUnchecked (env.TxHash tx) tx) pool

def SpendsFrom (env : Env) (child parent : CTransaction) : Prop := ∃ txin ∈ child.vin, txin.prevout.hash = env.TxHash parent

/-- Of some transactions, one that the pool takes whichever of the others are in it, as
    long as those it spends from are. -/
def Acceptable (rules : PoolRules) (chain : ActiveChain) (pool : CTxMemPool) (txs : List CTransaction) (message : TxMessage) : Prop :=
  ∀ inPool : List CTransaction, inPool ⊆ txs → inPool.Nodup → message.tx ∉ inPool →
    (∀ parent ∈ txs, parent ≠ message.tx → SpendsFrom rules.env message.tx parent → parent ∈ inPool) →
    ((pool.added rules.env inPool).AcceptToMemoryPool rules chain (message.now 0) message.tx true true).result = .ok ()

/-- All the transactions are in the pool and none waits; what was accepted as an orphan
    was that orphan. -/
def Delivered (env : Env) (messages : List TxMessage) (after : Node) (accepted : List (CTransaction × CTransaction)) : Prop :=
  (∀ message ∈ messages, after.mempool.mapTx[env.TxHash message.tx]? = some message.tx ∧
    env.TxHash message.tx ∉ after.mapOrphanTransactions) ∧ ∀ pair ∈ accepted, pair.2 = pair.1

/-- Every transaction comes after those it spends from. -/
def ParentsFirst (env : Env) (txs : List CTransaction) : Prop := txs.Pairwise fun earlier later => ¬ SpendsFrom env earlier later

theorem added_other (env : Env) (txs : List CTransaction) (pool : CTxMemPool) (h : uint256) (other : h ∉ txs.map env.TxHash) :
    (pool.added env txs).mapTx[h]? = pool.mapTx[h]? := by
  induction txs generalizing pool with
  | nil => rfl
  | cons tx rest ih =>
    obtain ⟨here,later⟩ : h ≠ env.TxHash tx ∧ h ∉ rest.map env.TxHash := by simpa using other
    have step : (pool.added env (tx :: rest)) = (pool.addUnchecked (env.TxHash tx) tx).added env rest := rfl
    rw [step,ih _ later,CTxMemPool.addUnchecked_mapTx,ExtTreeMap.getElem?_insert,if_neg]
    rw [Std.compare_eq_iff_eq]
    exact Ne.symm here

theorem added_lookup (env : Env) (txs : List CTransaction) (pool : CTxMemPool) (distinct : (txs.map env.TxHash).Nodup)
    {tx : CTransaction} (member : tx ∈ txs) : (pool.added env txs).mapTx[env.TxHash tx]? = some tx := by
  induction txs generalizing pool with
  | nil => exact absurd member (by simp)
  | cons first rest ih =>
    obtain ⟨headDistinct,restDistinct⟩ := List.nodup_cons.mp distinct
    have step : (pool.added env (first :: rest)) = (pool.addUnchecked (env.TxHash first) first).added env rest := rfl
    rw [step]
    rcases List.mem_cons.mp member with rfl | later
    · rw [added_other env rest _ _ headDistinct]
      simp
    · exact ih _ restDistinct later

theorem view_HaveCoins (pool : CTxMemPool) (pcoinsTip : CCoinsViewCache) (h : uint256) :
    (pool.view pcoinsTip).HaveCoins h = ((pcoinsTip.GetCoins h).isSome || decide (h ∈ pool.mapTx)) := by
  have cached : (pool.view pcoinsTip).GetCoins h =
      (pcoinsTip.GetCoins h).or ((pool.mapTx[h]?).map fun tx => CCoins.ofTransaction tx MEMPOOL_HEIGHT) := by
    simp [CCoinsViewCache.GetCoins,CTxMemPool.view]
  rw [CCoinsViewCache.HaveCoins,cached,Option.isSome_or,Option.isSome_map]
  cases inside : pool.mapTx[h]? <;> simp [ExtTreeMap.mem_iff_isSome_getElem?,inside]

section
variable {rules : PoolRules} {chain : ActiveChain}

variable (rules chain) in
/-- A run ends, accepts no orphan, and lets in nothing but what arrived. -/
theorem ProcessTxs_grows (fuel : Nat) (messages : List TxMessage) (node : Node) :
    ∃ after, ProcessTxs rules chain (fuel+1) messages node = some (after,[]) ∧
      ∀ h, h ∈ after.mempool.mapTx → h ∈ node.mempool.mapTx ∨ h ∈ messages.map fun message => rules.env.TxHash message.tx := by
  induction messages generalizing node with
  | nil => exact ⟨node,rfl,fun h inside => .inl inside⟩
  | cons message rest ih =>
    obtain ⟨outcome,processed,silent,cases⟩ := ProcessTx_cases rules chain fuel message node
    obtain ⟨after,went,grown⟩ := ih outcome.node
    refine ⟨after,by simp only [ProcessTxs,processed,went,silent,List.nil_append],fun h inside => ?_⟩
    rw [List.map_cons,List.mem_cons]
    rcases grown h inside with before | later
    · rcases cases with ⟨_,pool,_⟩ | ⟨_,pool⟩
      · rw [pool,CTxMemPool.addUnchecked_mapTx,ExtTreeMap.mem_insert,Std.compare_eq_iff_eq] at before
        exact before.elim (fun same => .inr (.inl same.symm)) .inl
      · rw [pool] at before
        exact .inl before
    · exact .inr (.inr later)

/-- A transaction that arrives before one it spends from never gets in. -/
theorem parentsFirst_of_delivered (fuel : Nat) (messages : List TxMessage) (node after : Node) (accepted : List (CTransaction × CTransaction))
    (distinct : (messages.map fun message => rules.env.TxHash message.tx).Nodup)
    (unknown : ∀ message ∈ messages, (node.mempool.view chain.pcoinsTip).HaveCoins (rules.env.TxHash message.tx) = false)
    (processed : ProcessTxs rules chain (fuel+1) messages node = some (after,accepted))
    (arrived : ∀ message ∈ messages, rules.env.TxHash message.tx ∈ after.mempool.mapTx) :
    ParentsFirst rules.env (messages.map TxMessage.tx) := by
  induction messages generalizing node accepted with
  | nil => exact List.Pairwise.nil
  | cons message rest ih =>
    obtain ⟨headDistinct,restDistinct⟩ := List.nodup_cons.mp distinct
    obtain ⟨outcome,first,_,cases⟩ := ProcessTx_cases rules chain fuel message node
    obtain ⟨last,went,grown⟩ := ProcessTxs_grows rules chain fuel rest outcome.node
    obtain ⟨rfl,_⟩ : last = after ∧ outcome.accepted = accepted := by simpa [ProcessTxs,first,went] using processed
    have absent : ∀ other ∈ message :: rest, rules.env.TxHash other.tx ∉ node.mempool.mapTx ∧
        (chain.pcoinsTip.GetCoins (rules.env.TxHash other.tx)).isSome = false := by
      intro other member
      have here := unknown other member
      rw [view_HaveCoins,Bool.or_eq_false_iff] at here
      exact ⟨by simpa using here.2,here.1⟩
    rcases cases with ⟨admitted,pool,_⟩ | ⟨_,pool⟩
    · have later : ∀ other ∈ rest, (outcome.node.mempool.view chain.pcoinsTip).HaveCoins (rules.env.TxHash other.tx) = false := by
        intro other member
        obtain ⟨outside,noCoins⟩ := absent other (List.mem_cons_of_mem _ member)
        have different : rules.env.TxHash message.tx ≠ rules.env.TxHash other.tx := by
          intro same
          exact headDistinct (List.mem_map.mpr ⟨other,member,same.symm⟩)
        rw [view_HaveCoins,noCoins,pool,CTxMemPool.addUnchecked_mapTx,Bool.false_or,decide_eq_false_iff_not,ExtTreeMap.mem_insert,
          Std.compare_eq_iff_eq]
        exact not_or.mpr ⟨different,outside⟩
      refine List.Pairwise.cons ?_ (ih outcome.node [] restDistinct later went fun other member => arrived other (List.mem_cons_of_mem _ member))
      rintro parent member ⟨txin,spent,same⟩
      obtain ⟨other,inside,rfl⟩ := List.mem_map.mp member
      have known := admitted.inputs txin spent
      rw [same,unknown other (List.mem_cons_of_mem _ inside)] at known
      exact Bool.false_ne_true known
    · rcases grown _ (arrived message (List.mem_cons_self ..)) with before | later
      · rw [pool] at before
        exact absurd before (absent message (List.mem_cons_self ..)).1
      · exact absurd later headDistinct

variable (rules chain) in
/-- Transactions that come after those they spend from are taken in one by one. -/
theorem ProcessTxs_parentsFirst (fuel : Nat) (pool : CTxMemPool) (before : List CTransaction) (messages : List TxMessage) (node : Node)
    (distinct : ((before++messages.map TxMessage.tx).map rules.env.TxHash).Nodup) (reached : node.mempool = pool.added rules.env before)
    (acceptable : ∀ message ∈ messages, Acceptable rules chain pool (before++messages.map TxMessage.tx) message)
    (parentsFirst : ParentsFirst rules.env (messages.map TxMessage.tx)) :
    ∃ after, ProcessTxs rules chain (fuel+1) messages node = some (after,[]) ∧
      after.mempool = pool.added rules.env (before++messages.map TxMessage.tx) ∧
      ∀ h, h ∈ after.mapOrphanTransactions → h ∈ node.mapOrphanTransactions := by
  induction messages generalizing before node with
  | nil => exact ⟨node,rfl,by simpa using reached,fun h inside => inside⟩
  | cons message rest ih =>
    have txsDistinct := List.Nodup.of_map _ distinct
    have apart : message.tx ∉ before ∧ message.tx ∉ rest.map TxMessage.tx := by
      rw [List.map_cons,List.nodup_append] at txsDistinct
      refine ⟨fun inside => ?_,(List.nodup_cons.mp txsDistinct.2.1).1⟩
      exact txsDistinct.2.2 message.tx inside message.tx (List.mem_cons_self ..) rfl
    have accepts : (node.mempool.AcceptToMemoryPool rules chain (message.now 0) message.tx true true).result = .ok () := by
      rw [reached]
      refine acceptable message (List.mem_cons_self ..) before (List.subset_append_left ..) ?_ apart.1 fun parent member other spends => ?_
      · exact (List.nodup_append.mp txsDistinct).1
      · rcases List.mem_append.mp member with inside | inside
        · exact inside
        · rcases List.mem_cons.mp inside with same | later
          · exact absurd same other
          · exact absurd spends ((List.pairwise_cons.mp parentsFirst).1 parent later)
    obtain ⟨outcome,processed,silent,cases⟩ := ProcessTx_cases rules chain fuel message node
    rcases cases with ⟨_,poolAfter,orphans⟩ | ⟨⟨e,refused⟩,_⟩
    · have onward : before++(message :: rest).map TxMessage.tx = (before++[message.tx])++rest.map TxMessage.tx := by simp
      have reachedNext : outcome.node.mempool = pool.added rules.env (before++[message.tx]) := by
        rw [poolAfter,reached,CTxMemPool.added,CTxMemPool.added,List.foldl_append]
        rfl
      obtain ⟨after,went,last,kept⟩ := ih (before++[message.tx]) outcome.node (onward ▸ distinct) reachedNext
        (fun other member => onward ▸ acceptable other (List.mem_cons_of_mem _ member)) (List.pairwise_cons.mp parentsFirst).2
      refine ⟨after,by simp only [ProcessTxs,processed,went,silent,List.nil_append],by rw [onward]; exact last,fun h inside => ?_⟩
      exact orphans h (kept h inside)
    · rw [refused] at accepts
      contradiction

/-- Transactions that the pool takes once their parents are in it all end up in it, and
    none waits, exactly when each arrives after its parents: one that had to wait is
    dropped when its parent comes. -/
theorem orphans_delivered_iff (fuel : Nat) (messages : List TxMessage) (node : Node)
    (distinct : (messages.map fun message => rules.env.TxHash message.tx).Nodup)
    (notWaiting : ∀ message ∈ messages, rules.env.TxHash message.tx ∉ node.mapOrphanTransactions)
    (acceptable : ∀ message ∈ messages, Acceptable rules chain node.mempool (messages.map TxMessage.tx) message) :
    ∃ after accepted, ProcessTxs rules chain (fuel+1) messages node = some (after,accepted) ∧
      (Delivered rules.env messages after accepted ↔ ParentsFirst rules.env (messages.map TxMessage.tx)) := by
  obtain ⟨after,processed,_⟩ := ProcessTxs_grows rules chain fuel messages node
  have hashes : (messages.map TxMessage.tx).map rules.env.TxHash = messages.map fun message => rules.env.TxHash message.tx := by
    rw [List.map_map]
    rfl
  have txsDistinct : (messages.map TxMessage.tx).Nodup := List.Nodup.of_map rules.env.TxHash (hashes ▸ distinct)
  refine ⟨after,[],processed,fun delivered => ?_,fun parentsFirst => ?_⟩
  · refine parentsFirst_of_delivered fuel messages node after [] distinct (fun message member => ?_) processed fun message member => ?_
    · -- All the others together are a pool that takes this one.
      have accepts := acceptable message member ((messages.map TxMessage.tx).erase message.tx) List.erase_subset
        (txsDistinct.erase _) txsDistinct.not_mem_erase fun parent inside other _ => (List.mem_erase_of_ne other).mpr inside
      rcases CTxMemPool.AcceptToMemoryPool_cases rules chain (message.now 0) (node.mempool.added rules.env
        ((messages.map TxMessage.tx).erase message.tx)) message.tx true false with ⟨_,admitted⟩ | ⟨e,missing,refused,_⟩
      · have unknown := admitted.unknown
        rw [view_HaveCoins,Bool.or_eq_false_iff,decide_eq_false_iff_not] at unknown ⊢
        refine ⟨unknown.1,fun inside => unknown.2 ?_⟩
        have other : rules.env.TxHash message.tx ∉ ((messages.map TxMessage.tx).erase message.tx).map rules.env.TxHash := by
          intro twice
          obtain ⟨tx,inErase,same⟩ := List.mem_map.mp twice
          have inTxs := List.mem_of_mem_erase inErase
          have equal := List.inj_on_of_nodup_map (hashes ▸ distinct) inTxs (List.mem_map_of_mem member) same
          exact txsDistinct.not_mem_erase (equal ▸ inErase)
        rw [ExtTreeMap.mem_iff_isSome_getElem?,added_other _ _ _ _ other]
        exact ExtTreeMap.mem_iff_isSome_getElem?.mp inside
      · rw [refused] at accepts
        contradiction
    · rw [ExtTreeMap.mem_iff_isSome_getElem?,(delivered.1 message member).1]
      rfl
  · obtain ⟨last,went,pool,kept⟩ := ProcessTxs_parentsFirst rules chain fuel node.mempool [] messages node
      (by simpa [hashes] using distinct) rfl (by simpa using acceptable) parentsFirst
    obtain ⟨rfl,_⟩ : last = after ∧ True := by simpa [went] using processed
    refine ⟨fun message member => ⟨?_,fun waits => notWaiting message member (kept _ waits)⟩,by simp⟩
    rw [pool,List.nil_append]
    exact added_lookup rules.env _ _ (hashes ▸ distinct) (List.mem_map_of_mem member)

end

instance spendsFromDecidable (env : Env) (child parent : CTransaction) : Decidable (SpendsFrom env child parent) :=
  inferInstanceAs (Decidable (∃ txin ∈ child.vin, txin.prevout.hash = env.TxHash parent))

instance parentsFirstDecidable (env : Env) (txs : List CTransaction) : Decidable (ParentsFirst env txs) :=
  inferInstanceAs (Decidable (txs.Pairwise fun earlier later => ¬ SpendsFrom env earlier later))

/-- A node that takes every script, with one coin of ten. -/
def sampleRules : PoolRules where
  env := ⟨fun tx => 100+tx.nLockTime,fun _ => 0,fun _ _ => 0,fun _ _ _ _ _ => true,fun _ _ _ => true⟩
  fTestNet := true
  IsPushOnly := fun _ => true
  HasCanonicalPushes := fun _ => true
  IsStandard := fun _ => true
  IsInputStandard := fun _ _ _ => true

def sampleChain : ActiveChain where
  pcoinsTip := {base := ⟨fun txid => if txid = 1 then some {vout := [⟨Cash.ofMoney (EUR,10),[]⟩]} else none,none⟩}
  nBestHeight := 5

def sampleSpend (txid nLockTime : Nat) : TxMessage :=
  {tx := ⟨1,[⟨⟨txid,0⟩,[],0⟩],[⟨Cash.ofMoney (EUR,10),[]⟩],nLockTime,[]⟩,now := fun _ => ⟨0,false⟩}

private theorem one_of_two {a b : CTransaction} {inPool : List CTransaction} (within : inPool ⊆ [a,b]) (distinct : inPool.Nodup)
    (other : a ∉ inPool) : inPool = [] ∨ inPool = [b] := by
  have all : ∀ tx ∈ inPool, tx = b := by
    intro tx member
    rcases List.mem_cons.mp (within member) with rfl | last
    · exact absurd member other
    · simpa using last
  match inPool with
  | [] => exact .inl rfl
  | [tx] => exact .inr (by rw [all tx (List.mem_cons_self ..)])
  | first :: second :: rest =>
    have same := (all first (by simp)).trans (all second (by simp)).symm
    exact absurd (List.nodup_cons.mp distinct).1 (by simp [same])

private theorem sample_acceptable : Acceptable sampleRules sampleChain {} [(sampleSpend 1 0).tx,(sampleSpend 100 1).tx] (sampleSpend 1 0) ∧
    Acceptable sampleRules sampleChain {} [(sampleSpend 1 0).tx,(sampleSpend 100 1).tx] (sampleSpend 100 1) := by
  refine ⟨fun inPool within distinct other _ => ?_,fun inPool within distinct other parents => ?_⟩
  · rcases one_of_two within distinct other with rfl | rfl
    · decide +kernel
    · decide +kernel
  · have swapped : inPool ⊆ [(sampleSpend 100 1).tx,(sampleSpend 1 0).tx] := fun tx member => by
      have := within member
      simp only [List.mem_cons,List.not_mem_nil,or_false] at this ⊢
      exact this.symm
    rcases one_of_two swapped distinct other with rfl | rfl
    · exact absurd (parents (sampleSpend 1 0).tx (by simp) (by decide +kernel) (by decide +kernel)) (by simp)
    · decide +kernel

theorem orphans_delivered_iff_sample :
    ∃ after accepted, ProcessTxs sampleRules sampleChain 1 [sampleSpend 1 0,sampleSpend 100 1] {} = some (after,accepted) ∧
      Delivered sampleRules.env [sampleSpend 1 0,sampleSpend 100 1] after accepted := by
  obtain ⟨after,accepted,processed,delivered⟩ := @orphans_delivered_iff sampleRules sampleChain 0
    [sampleSpend 1 0,sampleSpend 100 1] {} (by decide +kernel) (by simp) (by
      intro message member
      simp only [List.mem_cons,List.not_mem_nil,or_false] at member
      rcases member with rfl | rfl
      · exact sample_acceptable.1
      · exact sample_acceptable.2)
  exact ⟨after,accepted,processed,delivered.mpr (by decide +kernel)⟩

/-- The child arrives first, waits, and is dropped when its parent comes. -/
theorem orphans_dropped :
    (∀ message ∈ [sampleSpend 100 1,sampleSpend 1 0],
      Acceptable sampleRules sampleChain {} ([sampleSpend 100 1,sampleSpend 1 0].map TxMessage.tx) message) ∧
    ∃ after accepted, ProcessTxs sampleRules sampleChain 1 [sampleSpend 100 1,sampleSpend 1 0] {} = some (after,accepted) ∧
      ¬ Delivered sampleRules.env [sampleSpend 100 1,sampleSpend 1 0] after accepted := by
  refine ⟨fun message member inPool within distinct other parents => ?_,?_⟩
  · have swapped : ∀ tx, tx ∈ [(sampleSpend 1 0).tx,(sampleSpend 100 1).tx] ↔ tx ∈ [sampleSpend 100 1,sampleSpend 1 0].map TxMessage.tx := by
      intro tx
      simp [or_comm]
    have inside : inPool ⊆ [(sampleSpend 1 0).tx,(sampleSpend 100 1).tx] := fun tx inPool => (swapped tx).mpr (within inPool)
    have known : ∀ parent ∈ [(sampleSpend 1 0).tx,(sampleSpend 100 1).tx], parent ≠ message.tx →
        SpendsFrom sampleRules.env message.tx parent → parent ∈ inPool := fun parent listed => parents parent ((swapped parent).mp listed)
    simp only [List.mem_cons,List.not_mem_nil,or_false] at member
    rcases member with rfl | rfl
    · exact sample_acceptable.2 inPool inside distinct other known
    · exact sample_acceptable.1 inPool inside distinct other known
  · have lost : (ProcessTxs sampleRules sampleChain 1 [sampleSpend 100 1,sampleSpend 1 0] {}).map
        (fun run => run.1.mempool.mapTx[sampleRules.env.TxHash (sampleSpend 100 1).tx]?) = some none := by decide +kernel
    obtain ⟨⟨after,accepted⟩,processed,absent⟩ := Option.map_eq_some_iff.mp lost
    refine ⟨after,accepted,processed,fun delivered => ?_⟩
    have := (delivered.1 (sampleSpend 100 1) (by simp)).1
    rw [absent] at this
    contradiction

end Tetra
