import Mathlib
import Tetra.MainChain
import Tetra.PoolChain

/-!
The node while its chain only grows: blocks go on top of the best one, and the pool takes
transactions in and gives them up. At every moment what the pool holds could be mined.
-/
namespace Tetra
open Std Ancestry

/-! ### What a connected block does to the coins -/

namespace CTransaction

theorem spendInputs_frame {vin : List CTxIn} {inputs after : CCoinsViewCache} {undo : List CTxInUndo}
    (spends : spendInputs inputs vin = .ok (after,undo)) :
    after.base = inputs.base ∧ ∀ hash, inputs.GetCoins hash = none → after.GetCoins hash = none := by
  induction vin generalizing inputs undo with
  | nil =>
    obtain ⟨rfl,_⟩ := Prod.mk.inj (Except.ok.inj spends)
    exact ⟨rfl,fun _ => id⟩
  | cons txin rest ih =>
    obtain ⟨coins,left,entry,entries,fetched,_,later,_⟩ := spendInputs_cons spends
    obtain ⟨base,absent⟩ := ih later
    refine ⟨base,fun hash gone => absent hash ?_⟩
    rw [CCoinsViewCache.GetCoins_SetCoins,if_neg]
    · exact gone
    · rintro rfl
      rw [fetched] at gone
      contradiction

/-- A transaction makes an entry of its own, and no other. -/
theorem UpdateCoins_frame {tx : CTransaction} {inputs after : CCoinsViewCache} {nHeight : Nat} {txhash : uint256} {txundo : CTxUndo}
    (updates : tx.UpdateCoins inputs nHeight txhash = .ok (after,txundo)) :
    after.base = inputs.base ∧ ∀ hash, txhash ≠ hash → inputs.GetCoins hash = none → after.GetCoins hash = none := by
  obtain ⟨view,undo,spent,rfl,_⟩ := UpdateCoins_split updates
  have frame : view.base = inputs.base ∧ ∀ hash, inputs.GetCoins hash = none → view.GetCoins hash = none := by
    split at spent
    · obtain ⟨rfl,_⟩ := Prod.mk.inj (Except.ok.inj spent)
      exact ⟨rfl,fun _ => id⟩
    · exact spendInputs_frame spent
  refine ⟨frame.1,fun hash other gone => ?_⟩
  rw [CCoinsViewCache.GetCoins_SetCoins,if_neg other]
  exact frame.2 hash gone

end CTransaction

section
variable {env : Env} {params : ConnectParams} {s s' : ConnectState}

/-- One turn of the loop is a step of the ledger. -/
theorem connectTransaction_step {tx : CTransaction} (connects : connectTransaction env params s tx = .ok s') :
    s'.view.ledger = (blockSteps env params.nHeight).apply tx s.view.ledger ∧ tx.prevouts.Nodup ∧ (∀ out ∈ tx.prevouts, s.view.ledger out ≠ none) ∧
      s'.view.base = s.view.base ∧ ∀ hash, env.TxHash tx ≠ hash → s.view.GetCoins hash = none → s'.view.GetCoins hash = none := by
  obtain ⟨txundo,updates⟩ : ∃ txundo, tx.UpdateCoins s.view params.nHeight (env.TxHash tx) = .ok (s'.view,txundo) := by
    rcases connectTransaction_ok connects with ⟨_,updated,_⟩ | ⟨_,_,_,_,_,txundo,_,_,_,updates,_⟩
    · exact updated
    · exact ⟨txundo,updates⟩
  obtain ⟨ledger,distinct,available,_⟩ := CTransaction.UpdateCoins_ok updates
  obtain ⟨base,absent⟩ := CTransaction.UpdateCoins_frame updates
  exact ⟨by rw [blockSteps_apply,ledger],distinct,available,base,absent⟩

theorem connectTransactions_run {start : COutPoint → Option Coin} {done rest : List CTransaction} (connects : connectTransactions env params s rest = .ok s')
    (run : Ledger.Run (blockSteps env params.nHeight) start done s.view.ledger) :
    Ledger.Run (blockSteps env params.nHeight) start (done ++ rest) s'.view.ledger ∧ s'.view.base = s.view.base ∧
      ∀ hash, (∀ tx ∈ rest, env.TxHash tx ≠ hash) → s.view.GetCoins hash = none → s'.view.GetCoins hash = none := by
  induction rest generalizing s done with
  | nil =>
    obtain rfl := Except.ok.inj connects
    rw [List.append_nil]
    exact ⟨run,rfl,fun _ _ => id⟩
  | cons tx rest ih =>
    rw [connectTransactions] at connects
    split at connects
    · contradiction
    next between first =>
      obtain ⟨ledger,distinct,available,base,absent⟩ := connectTransaction_step first
      have stepped := run.snoc available distinct
      rw [← ledger] at stepped
      obtain ⟨whole,base',absent'⟩ := ih connects stepped
      rw [List.append_assoc] at whole
      refine ⟨whole,base'.trans base,fun hash others gone => ?_⟩
      refine absent' hash (fun other member => others other (List.mem_cons_of_mem _ member)) ?_
      exact absent hash (others tx (List.mem_cons_self ..)) gone

end

namespace CTxMemPool

theorem Part.clear (env : Env) (pool : CTxMemPool) : Part env pool pool.clear := by
  refine ⟨linked_empty,?_,?_,?_⟩
  · intro hash tx found
    simp [CTxMemPool.clear] at found
  · intro point spender found
    simp [CTxMemPool.clear] at found
  · intro hash tx _ _ i _ spent
    simp [CTxMemPool.clear] at spent

/-- A block that `ConnectBlock` accepts is one that the chain grows by. -/
theorem Grown.of_ConnectBlock {env : Env} {ambient : Ambient} {disk : DiskWrites} {block : CBlock} {pindex : CBlockIndex} {view after : CCoinsViewCache}
    (notGenesis : block.GetHash env ≠ hashGenesisBlock) (connects : (block.ConnectBlock env ambient disk pindex view false).result = .ok after) :
    Grown env pindex.nHeight block.vtx view after ∧ after.base = view.base := by
  rw [CBlock.ConnectBlock] at connects
  split at connects
  · contradiction
  next v blockundo transactions =>
    obtain ⟨checked,_,fresh,s,connected,_,rfl,_⟩ := CBlock.ConnectTransactions_ok notGenesis transactions
    obtain ⟨run,base,absent⟩ := connectTransactions_run connected .nil
    have reads : after.GetCoins = s.view.GetCoins ∧ after.base = s.view.base := by
      rw [if_neg (by simpa using notGenesis),CBlock.recordBlock] at connects
      dsimp only at connects
      split at connects
      · split at connects
        · contradiction
        split at connects
        · contradiction
        split at connects
        · contradiction
        split at connects
        · contradiction
        · obtain rfl := Except.ok.inj connects
          exact ⟨rfl,rfl⟩
      · split at connects
        · contradiction
        · obtain rfl := Except.ok.inj connects
          exact ⟨rfl,rfl⟩
    have ledger : after.ledger = s.view.ledger := by
      funext out
      rw [CCoinsViewCache.ledger,CCoinsViewCache.ledger,reads.1]
    refine ⟨⟨(CBlock.CheckBlock_ok checked).2.2.1,?_,⟨s.view.ledger,run,fun out => .inl (by rw [ledger])⟩,?_⟩,reads.2.trans base⟩
    · intro tx member n
      have clear := List.any_eq_false.mp fresh tx member
      rw [CCoinsViewCache.ledger]
      dsimp only
      cases fetched : view.GetCoins (env.TxHash tx) with
      | none => rfl
      | some coins =>
        rw [fetched] at clear
        exact (CCoins.isPruned_iff coins).mp (by simpa using clear) n
    · intro hash others gone
      rw [reads.1]
      exact absent hash others gone

/-- The coins on top of a view are handed to it, and perhaps written to the database. -/
theorem Grown.handed {env : Env} {nHeight : Nat} {vtx : List CTransaction} {tip after : CCoinsViewCache}
    (grown : Grown env nHeight vtx {base := tip.toView} after) (base : after.base = tip.toView) (pindex : Option uint256) :
    Grown env nHeight vtx tip (tip.BatchWrite after.cacheCoins pindex) ∧
      Grown env nHeight vtx tip (ChainState.FlushCoins (tip.BatchWrite after.cacheCoins pindex)) := by
  have start : ({base := tip.toView} : CCoinsViewCache).GetCoins = tip.GetCoins := by
    funext hash
    simp [CCoinsViewCache.GetCoins,CCoinsViewCache.toView]
  have startLedger : ({base := tip.toView} : CCoinsViewCache).ledger = tip.ledger := by
    funext out
    rw [CCoinsViewCache.ledger,CCoinsViewCache.ledger,start]
  have reads : (tip.BatchWrite after.cacheCoins pindex).GetCoins = after.GetCoins := by
    funext hash
    rw [CCoinsViewCache.GetCoins,CCoinsViewCache.GetCoins,base,CCoinsViewCache.BatchWrite,CCoinsViewCache.toView,ExtTreeMap.getElem?_union]
    cases after.cacheCoins[hash]? with
    | none => rw [Option.none_or]; rfl
    | some coins => rw [Option.some_or]
  have flushed (hash : uint256) : (ChainState.FlushCoins (tip.BatchWrite after.cacheCoins pindex)).GetCoins hash = after.GetCoins hash ∨
      (ChainState.FlushCoins (tip.BatchWrite after.cacheCoins pindex)).GetCoins hash = (after.GetCoins hash).bind CCoins.reload := by
    rw [← reads]
    simp only [ChainState.FlushCoins,CCoinsViewCache.GetCoins,ExtTreeMap.getElem?_empty]
    cases (tip.BatchWrite after.cacheCoins pindex).cacheCoins[hash]? with
    | none => exact .inl rfl
    | some coins => exact .inr rfl
  obtain ⟨ledger,run,same⟩ := grown.run
  rw [startLedger] at run
  have unused := grown.unused
  rw [startLedger] at unused
  have absent := grown.absent
  rw [start] at absent
  refine ⟨⟨grown.names,unused,⟨ledger,run,fun out => ?_⟩,fun hash others gone => ?_⟩,
    ⟨grown.names,unused,⟨ledger,run,fun out => ?_⟩,fun hash others gone => ?_⟩⟩
  · have := same out
    rw [CCoinsViewCache.ledger] at this ⊢
    rwa [reads]
  · rw [reads]
    exact absent hash others gone
  · have stored : ∀ coin : Option Coin, (coin.map Coin.stored).map Coin.stored = coin.map Coin.stored := by
      intro coin
      cases coin with
      | none => rfl
      | some coin =>
        simp only [Option.map_some,Coin.stored,CCoins.storedVersion_idem]
        rfl
    rcases flushed out.hash with kept | reloaded
    · have := same out
      rw [CCoinsViewCache.ledger] at this ⊢
      rwa [kept]
    · have read := CBlock.reload_ledger out.hash reloaded out.n
      rw [show (⟨out.hash,out.n⟩ : COutPoint) = out from rfl] at read
      rw [read]
      rcases same out with equal | equal
      · rw [equal]
        exact .inr rfl
      · rw [equal,stored]
        exact .inr rfl
  · rcases flushed hash with kept | reloaded
    · rw [kept]
      exact absent hash others gone
    · rw [reloaded,absent hash others gone]
      rfl

end CTxMemPool

/-! ### `SetBestChain` with a block on the best one -/

namespace ChainState

/-- The chain that `accept` goes by. -/
def activeChain (s : ChainState) : ActiveChain where
  pcoinsTip := s.pcoinsTip
  nBestHeight := s.nBestHeight
  nTipHeight := ((s.pcoinsTip.GetBestBlock.map s.height).getD 0 : Nat)

section
variable {rules : PoolRules} {world : Nat → Surroundings} {w : Surroundings} {s t : ChainState} {b pindexNew : uint256}

theorem setNext_mempool (hash : uint256) (pnext : Option uint256) : (s.setNext hash pnext).mempool = s.mempool := by
  rw [setNext]
  split
  · rfl
  split <;> rfl

theorem recordConnect_mempool (env : Env) (hash : uint256) (pindex : IndexEntry) (block : CBlock) (outcome : ConnectOutcome) :
    (s.recordConnect env w hash pindex block outcome).mempool = s.mempool := by
  obtain ⟨_,undo,_⟩ := outcome
  cases undo <;> unfold recordConnect <;> dsimp only <;> split <;> split <;> rfl

theorem MainChain.nBestHeight_eq (main : MainChain s) (best : s.pindexBest = some b) :
    s.nBestHeight = s.height b ∧ s.activeChain.nTipHeight = s.height b := by
  rw [nBestHeight,activeChain,main.coins,best]
  exact ⟨rfl,rfl⟩

theorem MainChain.genesis_root (main : MainChain s) : s.parent hashGenesisBlock = none := by
  cases step : s.parent hashGenesisBlock with
  | none => rfl
  | some p =>
    have below := main.descends_genesis (main.step step).1
    have lower := main.falls _ _ step
    have := Descends.height_le main.falls below
    omega

/-- The fork of a block with the best one under it is the best one. -/
theorem findFork_parent (main : MainChain s) (above : s.parent pindexNew = some b) : s.findFork s.turns (some b) pindexNew = some (some b) := by
  obtain ⟨_,higher⟩ := main.step above
  have apart : b ≠ pindexNew := by
    rintro rfl
    omega
  have lands (fuel : Nat) : s.descend (s.height b) fuel b = some b := by
    rw [descend.eq_def]
    exact if_neg (lt_irrefl _)
  have steps : s.descend (s.height b) s.turns pindexNew = some b := by
    rw [turns,descend.eq_def]
    dsimp only
    rw [if_pos (by omega),above]
    exact lands _
  rw [findFork.eq_def]
  dsimp only
  rw [if_neg apart,steps]
  dsimp only
  rw [if_pos rfl]

theorem walkTo_parent (above : s.parent pindexNew = some b) (apart : pindexNew ≠ b) : walkTo s.parent (some b) s.turns (some pindexNew) = some [pindexNew] := by
  rw [turns,walkTo,if_neg (by simpa using apart),above,walkTo_self]
  rfl

/-- A block goes on top: its coins go to `pcoinsTip`, and perhaps to the database, and its
    transactions go out of the pool. -/
theorem SetBestChain_extends {reconnect : ChainState → Option ChainState} (main : MainChain s) (best : s.pindexBest = some b)
    (above : s.parent pindexNew = some b) {returned : Returned} (sets : s.SetBestChain rules world reconnect pindexNew = some returned)
    (connected : returned.result = .ok ()) : ∃ pos block pcoinsTip,
      s.blkFiles[(pos : CDiskBlockPos)]? = some block ∧ CTxMemPool.Grown rules.env (s.height pindexNew) block.vtx s.pcoinsTip pcoinsTip ∧
      returned.state.pcoinsTip = pcoinsTip ∧ returned.state.pindexBest = some pindexNew ∧ returned.state.height pindexNew = s.height pindexNew ∧
      (world s.calls).Saves ∧ ∃ chain, returned.state.mempool = updatePool rules (world s.calls) chain s.mempool [] block.vtx := by
  obtain ⟨inside,higher⟩ := main.step above
  have apart : pindexNew ≠ b := by
    rintro rfl
    omega
  unfold SetBestChain at sets
  rw [look] at sets
  dsimp only at sets
  have start : Quiet s {s with calls := s.calls+1} := .look world
  have before := main.quiet start
  have fields : ({s with calls := s.calls+1} : ChainState).pcoinsTip = s.pcoinsTip ∧ ({s with calls := s.calls+1} : ChainState).mempool = s.mempool ∧
      ({s with calls := s.calls+1} : ChainState).blkFiles = s.blkFiles := ⟨rfl,rfl,rfl⟩
  generalize {s with calls := s.calls+1} = t at start before fields sets
  obtain ⟨sameTip,samePool,sameFiles⟩ := fields
  rw [← sameTip] at sets ⊢
  rw [← samePool,← sameFiles]
  have above' : t.parent pindexNew = some b := by rw [start.akin.parent]; exact above
  have atBest : CCoinsViewCache.GetBestBlock {base := t.pcoinsTip.toView} = some b := before.coins.trans (start.pindexBest.trans best)
  rw [atBest,findFork_parent before above'] at sets
  dsimp only at sets
  rw [walkTo_self,walkTo_parent above' apart] at sets
  dsimp only at sets
  rw [disconnectBlocks,List.reverse_singleton] at sets
  dsimp only at sets
  rw [connectBlocks] at sets
  obtain ⟨pindex,found⟩ := exists_entry_of_parent above'
  obtain ⟨found,_⟩ := found
  rw [found] at sets
  dsimp only at sets
  cases reads : t.ReadFromDisk rules.env (world s.calls) pindex with
  | none =>
    rw [reads] at sets
    dsimp only at sets
    rw [if_neg (by decide),if_neg (by decide)] at sets
    obtain rfl := Option.some.inj sets
    contradiction
  | some block =>
    rw [reads] at sets
    dsimp only at sets
    have named : block.GetHash rules.env = pindexNew := (ReadFromDisk_hash reads).trans (before.named pindexNew pindex found)
    have notGenesis : block.GetHash rules.env ≠ hashGenesisBlock := by
      rw [named]
      rintro rfl
      rw [before.genesis_root] at above'
      contradiction
    have kin := connectedEntry_kin rules.env (world s.calls) pindexNew pindex block {base := t.pcoinsTip.toView}
    have height : pindex.nHeight = s.height pindexNew := by rw [← start.akin.height,height_of_entry found]
    obtain ⟨pos,_,stored⟩ : ∃ pos, pindex.GetBlockPos = some pos ∧ t.blkFiles[pos]? = some block := by
      rw [ReadFromDisk] at reads
      split at reads
      · contradiction
      · exact Option.bind_eq_some_iff.mp (Option.filter_eq_some_iff.mp reads).1
    generalize outcome_eq : block.ConnectBlock rules.env (world s.calls).ambient ((world s.calls).disk pindexNew) pindex.toCBlockIndex
      {base := t.pcoinsTip.toView} false = outcome at kin sets
    have mempool := @recordConnect_mempool (world s.calls) t rules.env pindexNew pindex block outcome
    obtain ⟨entries,_,_,tip,_⟩ := @recordConnect_fields (world s.calls) t rules.env pindexNew pindex block outcome
    generalize t.recordConnect rules.env (world s.calls) pindexNew pindex block outcome = s' at mempool entries tip sets
    have akin : Akin t s' := .insert found kin.1 entries
    cases accepted : outcome.result with
    | error e =>
      rw [accepted] at sets
      dsimp only at sets
      split at sets
      · contradiction
      split at sets
      · obtain ⟨_,_,rfl⟩ := Option.map_eq_some_iff.mp sets
        contradiction
      · obtain rfl := Option.some.inj sets
        contradiction
    | ok after =>
      rw [accepted] at sets
      dsimp only at sets
      rw [connectBlocks] at sets
      dsimp only at sets
      obtain ⟨grown,base⟩ := CTxMemPool.Grown.of_ConnectBlock notGenesis (outcome_eq ▸ accepted)
      obtain ⟨handed,flushed⟩ := grown.handed base after.GetBestBlock
      rw [height] at handed flushed
      have finish (pcoinsTip : CCoinsViewCache) (grows : CTxMemPool.Grown rules.env (s.height pindexNew) block.vtx t.pcoinsTip pcoinsTip)
          (saves : (world s.calls).Saves)
          (same : some ⟨finishSwitch rules (world s.calls) {s' with pcoinsTip := pcoinsTip} pindexNew [] [pindexNew] [] ([] ++ block.vtx),.ok ()⟩ = some returned) :
          ∃ pos block pcoinsTip, t.blkFiles[(pos : CDiskBlockPos)]? = some block ∧
            CTxMemPool.Grown rules.env (s.height pindexNew) block.vtx t.pcoinsTip pcoinsTip ∧ returned.state.pcoinsTip = pcoinsTip ∧
            returned.state.pindexBest = some pindexNew ∧ returned.state.height pindexNew = s.height pindexNew ∧ (world s.calls).Saves ∧
            ∃ chain, returned.state.mempool = updatePool rules (world s.calls) chain t.mempool [] block.vtx := by
        obtain rfl := Option.some.inj same
        rw [finishSwitch,List.foldl_nil,List.foldl_cons,List.foldl_nil,List.nil_append]
        dsimp only
        refine ⟨pos,block,pcoinsTip,stored,grows,?_,rfl,?_,saves,?_⟩
        · exact (setNext_fields pindexNew (some pindexNew)).2.1
        · have linked := @setNext_akin {s' with pcoinsTip := pcoinsTip} pindexNew (some pindexNew)
          have whole : Akin s (({s' with pcoinsTip := pcoinsTip} : ChainState).setNext pindexNew (some pindexNew)) :=
            start.akin.trans (akin.trans (.trans (.of_entries rfl) linked))
          rw [← whole.height]
          rfl
        · exact ⟨_,congrArg (fun pool => updatePool rules (world s.calls) _ pool [] block.vtx) ((setNext_mempool ..).trans mempool)⟩
      rw [tip] at sets
      split at sets
      next flushes =>
        split at sets
        · obtain rfl := Option.some.inj sets
          contradiction
        next space =>
          split at sets
          · obtain rfl := Option.some.inj sets
            contradiction
          next sync =>
            split at sets
            · obtain rfl := Option.some.inj sets
              contradiction
            next flush => exact finish _ flushed (fun _ => ⟨by simpa using space,by simpa using sync,by simpa using flush⟩) sets
      next keeps =>
        refine finish _ handed (fun writes => absurd ?_ keeps) sets
        simpa using writes

end

/-! ### The pool over a run -/

/-- The states of a node whose chain only grows, from one whose pool is empty. What arrives
    is in `txs`, and the blocks on disk hold what came off the wire. -/
inductive Growing (rules : PoolRules) (txs : Set CTransaction) : ChainState → Prop
  | start {s} (main : MainChain s) (best : s.pindexBest ≠ none) (settled : Settled s.pcoinsTip.ledger) (empty : s.mempool = {}) : Growing rules txs s
  | accept {s} (before : Growing rules txs s) (now : Moment) {tx} (inside : tx ∈ txs) (fLimitFree fRejectInsaneFee : Bool) :
    Growing rules txs {s with mempool := (s.mempool.accept rules s.activeChain now tx true fLimitFree fRejectInsaneFee).mempool}
  | remove {s} (before : Growing rules txs s) {tx} (inside : tx ∈ txs) : Growing rules txs {s with mempool := s.mempool.remove rules.env tx true}
  | removeConflicts {s} (before : Growing rules txs s) (tx : CTransaction) :
    Growing rules txs {s with mempool := s.mempool.removeConflicts rules.env tx}
  | clear {s} (before : Growing rules txs s) : Growing rules txs {s with mempool := s.mempool.clear}
  /-- `AddToBlockIndex` makes an entry. -/
  | block {s} (before : Growing rules txs s) {block : CBlock} {pos : CDiskBlockPos} {setBlockIndexValid : ExtTreeSet WorkKey}
    (fresh : block.GetHash rules.env ∉ s.mapBlockIndex)
    (previous : block.GetHash rules.env = hashGenesisBlock ∨ block.hashPrevBlock ∈ s.mapBlockIndex) :
    Growing rules txs {s.setEntry (block.GetHash rules.env) (s.newEntry (block.GetHash rules.env) block pos) with
      setBlockIndexValid := setBlockIndexValid}
  /-- `SetBestChain` puts a block on top of the best one. -/
  | extend {s} (before : Growing rules txs s) {world : Nat → Surroundings} {reconnect : ChainState → Option ChainState} {pindexNew : uint256}
    {returned : Returned} (above : s.parent pindexNew = s.pindexBest)
    (stored : ∀ (pos : CDiskBlockPos) block, s.blkFiles[pos]? = some block → ∀ tx ∈ block.vtx, tx ∈ txs ∧ tx.OffWire)
    (sets : s.SetBestChain rules world reconnect pindexNew = some returned) (connected : returned.result = .ok ()) :
    Growing rules txs returned.state
  /-- Marks, records and files. -/
  | other {s t} (before : Growing rules txs s) (quiet : Quiet s t) (mempool : t.mempool = s.mempool) : Growing rules txs t

/-- What a node keeps as long as its chain grows. -/
structure Holds (rules : PoolRules) (txs : Set CTransaction) (s : ChainState) : Prop where
  main : MainChain s
  best : s.pindexBest ≠ none
  settled : Settled s.pcoinsTip.ledger
  known : CTxMemPool.Within txs s.mempool
  fits : CTxMemPool.Fits rules.env {P2SH := true,STRICTENC := true} s.pcoinsTip s.nBestHeight s.mempool

namespace Holds
variable {rules : PoolRules} {txs : Set CTransaction} {s t : ChainState}

theorem pool (holds : Holds rules txs s) {mempool : CTxMemPool} (known : CTxMemPool.Within txs mempool)
    (fits : CTxMemPool.Fits rules.env {P2SH := true,STRICTENC := true} s.pcoinsTip s.nBestHeight mempool) : Holds rules txs {s with mempool := mempool} where
  main := holds.main.quiet ⟨.of_entries rfl,rfl,rfl,rfl,.inl rfl⟩
  best := holds.best
  settled := holds.settled
  known := known
  fits := fits

theorem part (holds : Holds rules txs s) {mempool : CTxMemPool} (part : CTxMemPool.Part rules.env s.mempool mempool) : Holds rules txs {s with mempool := mempool} :=
  holds.pool (holds.known.part part) (holds.fits.part part)

theorem quiet (holds : Holds rules txs s) (quiet : Quiet s t) (mempool : t.mempool = s.mempool) : Holds rules txs t where
  main := holds.main.quiet quiet
  best := by rw [quiet.pindexBest]; exact holds.best
  settled := by rw [quiet.pcoinsTip]; exact holds.settled
  known := by rw [mempool]; exact holds.known
  fits := by
    have height : t.nBestHeight = s.nBestHeight := by rw [nBestHeight,nBestHeight,quiet.pindexBest,quiet.akin.height]
    rw [mempool,quiet.pcoinsTip,height]
    exact holds.fits

theorem accept (holds : Holds rules txs s) (now : Moment) {tx : CTransaction} (inside : tx ∈ txs) (fLimitFree fRejectInsaneFee : Bool) :
    Holds rules txs {s with mempool := (s.mempool.accept rules s.activeChain now tx true fLimitFree fRejectInsaneFee).mempool} := by
  rcases CTxMemPool.accept_cases rules s.activeChain now s.mempool tx fLimitFree fRejectInsaneFee with ⟨added,admitted⟩ | ⟨e,fMissingInputs,same,_⟩
  · have accepted : (s.mempool.accept rules s.activeChain now tx true fLimitFree fRejectInsaneFee).result = .ok () := by rw [added]
    obtain ⟨checks,passed⟩ := CTxMemPool.accept_checked fLimitFree fRejectInsaneFee accepted
    obtain ⟨b,best⟩ := Option.ne_none_iff_exists'.mp holds.best
    obtain ⟨height,tip⟩ := holds.main.nBestHeight_eq best
    have fits := holds.fits
    rw [height,← tip] at fits
    have after := fits.add admitted passed
    rw [tip,← height] at after
    rw [added]
    exact holds.pool (holds.known.addUnchecked inside) after
  · rw [same]
    exact holds

theorem block (holds : Holds rules txs s) {block : CBlock} {pos : CDiskBlockPos} {setBlockIndexValid : ExtTreeSet WorkKey}
    (fresh : block.GetHash rules.env ∉ s.mapBlockIndex)
    (previous : block.GetHash rules.env = hashGenesisBlock ∨ block.hashPrevBlock ∈ s.mapBlockIndex) :
    Holds rules txs {s.setEntry (block.GetHash rules.env) (s.newEntry (block.GetHash rules.env) block pos) with
      setBlockIndexValid := setBlockIndexValid} := by
  obtain ⟨main,_⟩ := holds.main.addBlock (t := {s.setEntry (block.GetHash rules.env) (s.newEntry (block.GetHash rules.env) block pos) with
    setBlockIndexValid := setBlockIndexValid}) pos fresh previous rfl rfl rfl rfl
  refine ⟨main,holds.best,holds.settled,holds.known,?_⟩
  obtain ⟨b,best⟩ := Option.ne_none_iff_exists'.mp holds.best
  have other : block.GetHash rules.env ≠ b := by
    rintro rfl
    exact fresh (holds.main.best _ best)
  have height : nBestHeight {s.setEntry (block.GetHash rules.env) (s.newEntry (block.GetHash rules.env) block pos) with
      setBlockIndexValid := setBlockIndexValid} = s.nBestHeight := by
    rw [(main.nBestHeight_eq best).1,(holds.main.nBestHeight_eq best).1,ChainState.height,ChainState.height,setEntry,entries_insert,if_neg other]
  rw [height]
  exact holds.fits

/-- Once a block is on top, what is left of the pool can follow it. -/
theorem extend (hashes : CTxMemPool.Hashes rules.env txs) (apart : ∀ a ∈ txs, ∀ b ∈ txs, a.eq b = true → rules.env.TxHash a = rules.env.TxHash b)
    (holds : Holds rules txs s) {world : Nat → Surroundings} {reconnect : ChainState → Option ChainState} {pindexNew : uint256}
    {returned : Returned} (above : s.parent pindexNew = s.pindexBest)
    (stored : ∀ (pos : CDiskBlockPos) block, s.blkFiles[pos]? = some block → ∀ tx ∈ block.vtx, tx ∈ txs ∧ tx.OffWire)
    (sets : s.SetBestChain rules world reconnect pindexNew = some returned) (connected : returned.result = .ok ()) :
    Holds rules txs returned.state := by
  obtain ⟨b,best⟩ := Option.ne_none_iff_exists'.mp holds.best
  rw [best] at above
  obtain ⟨pos,block,pcoinsTip,read,grown,tip,newBest,height,saves,chain,mempool⟩ := SetBestChain_extends holds.main best above sets connected
  have main := (SetBestChain_main holds.main saves sets).1
  have higher := (holds.main.step above).2
  have inBlock := fun tx member => (stored pos block read tx member).1
  have offWire := fun tx member => (stored pos block read tx member).2
  have twins : CTxMemPool.NoTwins rules.env s.mempool block.vtx := by
    intro mine member hash tx found equal
    rw [← holds.fits.linked.keyed hash tx found]
    exact apart tx (holds.known hash tx found) mine (inBlock mine member) equal
  have cleared := CTxMemPool.Cleared.all hashes holds.known (CTxMemPool.Cleared.refl holds.fits.linked) inBlock twins
  rw [List.nil_append] at cleared
  rw [updatePool,List.zipIdx_nil,List.foldl_nil] at mempool
  rw [← mempool] at cleared
  have nBest : returned.state.nBestHeight = s.nBestHeight+1 := by
    rw [(main.nBestHeight_eq newBest).1,(holds.main.nBestHeight_eq best).1,height,higher]
    push_cast
    rfl
  refine ⟨main,by simp [newBest],?_,?_,?_⟩
  · rw [tip]
    exact grown.settled holds.settled offWire (by omega)
  · exact fun hash tx found => holds.known hash tx (cleared.txs hash tx found)
  · rw [tip,nBest]
    refine holds.fits.mined hashes holds.known inBlock cleared grown holds.settled offWire (by omega) ?_
    rw [(holds.main.nBestHeight_eq best).1,higher]
    exact (Nat.cast_succ _).le

end Holds

theorem Growing.holds {rules : PoolRules} {txs : Set CTransaction} {s : ChainState} (hashes : CTxMemPool.Hashes rules.env txs)
    (apart : ∀ a ∈ txs, ∀ b ∈ txs, a.eq b = true → rules.env.TxHash a = rules.env.TxHash b) (growing : Growing rules txs s) : Holds rules txs s := by
  induction growing with
  | start main best settled empty =>
    refine ⟨main,best,settled,?_,?_⟩
    · rw [empty]
      intro hash tx found
      simp at found
    · rw [empty]
      refine ⟨CTxMemPool.linked_empty,?_,?_,?_,?_⟩
      · intro hash member
        simp at member
      · intro hash tx found
        simp at found
      · intro hash tx found
        simp at found
      · intro hash tx found
        simp at found
  | accept _ now inside fLimitFree fRejectInsaneFee ih => exact ih.accept now inside fLimitFree fRejectInsaneFee
  | remove _ inside ih => exact ih.part (CTxMemPool.remove_cut hashes ih.fits.linked ih.known inside).toPart
  | removeConflicts _ tx ih => exact ih.part (CTxMemPool.removeConflicts_part hashes ih.fits.linked ih.known tx).1
  | clear _ ih => exact ih.part (CTxMemPool.Part.clear rules.env _)
  | block _ fresh previous ih => exact ih.block fresh previous
  | extend _ above stored sets connected ih => exact ih.extend hashes apart above stored sets connected
  | other _ quiet mempool ih => exact ih.quiet quiet mempool

private def growRules : PoolRules where
  env := ⟨fun tx => tx.nLockTime,fun header => if header.hashPrevBlock = 0 then hashGenesisBlock else header.nTime,fun left right => left+right,
    fun _ _ _ _ _ => true,fun _ _ _ => true⟩
  fTestNet := true
  IsPushOnly := fun _ => true
  HasCanonicalPushes := fun _ => true
  IsStandard := fun _ => true
  IsInputStandard := fun _ _ _ => true

private def tenEuros : CTxOut := ⟨Cash.ofMoney (EUR,10),[]⟩
private def rewardTx : CTransaction := ⟨1,[⟨⟨0,nullIndex⟩,[1,5],nullIndex⟩],[⟨Cash.ofMoney (EUR,0),[]⟩],5,[]⟩
private def olderTx : CTransaction := ⟨1,[⟨⟨1,0⟩,[],nullIndex⟩],[tenEuros],2,[]⟩
private def youngerTx : CTransaction := ⟨1,[⟨⟨2,0⟩,[],nullIndex⟩],[tenEuros],3,[]⟩
private def topBlock : CBlock := ⟨⟨3,hashGenesisBlock,7,100⟩,[rewardTx,olderTx],[],[]⟩

private def rooted : ChainState where
  mapBlockIndex := (∅ : ExtTreeMap uint256 IndexEntry).insert hashGenesisBlock
    {hashBlock := hashGenesisBlock,pprev := none,nHeight := 0,nVersion := 3,hashMerkleRoot := 0,nTime := 50,nFile := 0,nDataPos := 8}
  pindexGenesisBlock := some hashGenesisBlock
  pindexBest := some hashGenesisBlock
  pcoinsTip := {base := ⟨fun hash => if hash = 1 then some {vout := [tenEuros],nHeight := 1,nVersion := 1} else none,some hashGenesisBlock⟩}
  blkFiles := (∅ : ExtTreeMap CDiskBlockPos CBlock).insert ⟨0,9⟩ topBlock

private def offered (s : ChainState) (tx : CTransaction) : ChainState :=
  {s with mempool := (s.mempool.accept growRules s.activeChain ⟨1000000,false⟩ tx true false false).mempool}

private def waiting : ChainState :=
  let s := offered (offered rooted olderTx) youngerTx
  s.setEntry (topBlock.GetHash growRules.env) (s.newEntry (topBlock.GetHash growRules.env) topBlock ⟨0,9⟩)

end ChainState
end Tetra
