import Mathlib
import Tetra.LedgerRuns
import Tetra.MempoolLinks
import Tetra.SpentInputs
import Tetra.UndoBlock

/-!
The memory pool beside the chain: as long as the chain only grows, every transaction of
the pool finds what it spends in the chain or in the pool, and passes the checks on it.
-/
namespace Tetra
open Std

/-- The transactions of a block as steps of the ledger. -/
def blockSteps (env : Env) (nHeight : Nat) : Ledger.Steps COutPoint Coin uint256 CTransaction where
  owner := COutPoint.hash
  inputs := CTransaction.prevouts
  name := env.TxHash
  made tx out := tx.coinAt nHeight out.n

theorem blockSteps_apply (env : Env) (nHeight : Nat) (tx : CTransaction) (ledger : COutPoint → Option Coin) :
    (blockSteps env nHeight).apply tx ledger = tx.applyTo (env.TxHash tx) nHeight ledger := by
  rw [Ledger.Steps.apply,CTransaction.applyTo]
  congr 1

namespace CTxMemPool

/-- The transactions of the pool are not in the chain, and pass the checks on the outputs
    that the chain and the pool have for them. -/
structure Fits (env : Env) (flags : ScriptFlags) (pcoinsTip : CCoinsViewCache) (nTipHeight : Int) (pool : CTxMemPool) : Prop where
  linked : Linked env pool
  fresh : ∀ hash ∈ pool.mapTx, pcoinsTip.GetCoins hash = none
  checked : ∀ (hash : uint256) tx, pool.mapTx[hash]? = some tx → tx.CheckTransaction = .ok ()
  ordinary : ∀ (hash : uint256) tx, pool.mapTx[hash]? = some tx → tx.IsCoinBase = false
  valid : ∀ (hash : uint256) tx, pool.mapTx[hash]? = some tx →
    ∃ checks, tx.CheckInputs env (pool.view pcoinsTip) (nTipHeight+1) true flags false = .ok checks

section
variable {env : Env} {flags : ScriptFlags} {pcoinsTip pcoinsTip' : CCoinsViewCache} {nTipHeight nTipHeight' : Int} {pool pool' : CTxMemPool}
  {tx : CTransaction} {hash : uint256}

theorem view_reads (hash : uint256) : (pool.view pcoinsTip).GetCoins hash =
    (pcoinsTip.GetCoins hash).or ((pool.mapTx[hash]?).map fun tx => CCoins.ofTransaction tx MEMPOOL_HEIGHT) := by
  simp [CTxMemPool.view,CCoinsViewCache.GetCoins]

/-- The coin that an input spends: an output of the chain, or one of the pool. -/
theorem view_ledger (out : COutPoint) : (pool.view pcoinsTip).ledger out =
    match pcoinsTip.GetCoins out.hash with
    | some coins => coins.coin out.n
    | none => (pool.mapTx[out.hash]?).bind fun parent => parent.coinAt MEMPOOL_HEIGHT out.n := by
  rw [CCoinsViewCache.ledger,view_reads]
  cases pcoinsTip.GetCoins out.hash with
  | some coins => rfl
  | none =>
    cases pool.mapTx[out.hash]? with
    | none => rfl
    | some parent => rfl

theorem view_ledger_chain {out : COutPoint} {coins : CCoins} (fetched : pcoinsTip.GetCoins out.hash = some coins) :
    (pool.view pcoinsTip).ledger out = pcoinsTip.ledger out := by
  rw [view_ledger,fetched,CCoinsViewCache.ledger,fetched]

theorem view_ledger_pool {out : COutPoint} {parent : CTransaction} (absent : pcoinsTip.GetCoins out.hash = none)
    (inside : pool.mapTx[out.hash]? = some parent) : (pool.view pcoinsTip).ledger out = parent.coinAt MEMPOOL_HEIGHT out.n := by
  rw [view_ledger,absent]
  dsimp only
  rw [inside,Option.bind_some]

namespace Fits

/-- In the view of the pool every input of a transaction in it is there. -/
theorem available (fits : Fits env flags pcoinsTip nTipHeight pool) (inside : pool.mapTx[hash]? = some tx) :
    ∀ txin ∈ tx.vin, (pool.view pcoinsTip).ledger txin.prevout ≠ none := by
  obtain ⟨checks,passed⟩ := fits.valid hash tx inside
  have ordinary := fits.ordinary hash tx inside
  exact (CCoinsViewCache.haveInputs_ledger ordinary).mp (CTransaction.CheckInputs_ok ordinary passed).1

theorem mature (fits : Fits env flags pcoinsTip nTipHeight pool) (inside : pool.mapTx[hash]? = some tx) {txin : CTxIn} (member : txin ∈ tx.vin)
    {coin : Coin} (found : (pool.view pcoinsTip).ledger txin.prevout = some coin) (isBase : coin.fCoinBase = true) : coin.nHeight ≤ nTipHeight+1 := by
  obtain ⟨checks,passed⟩ := fits.valid hash tx inside
  obtain ⟨_,_,_,summed,_⟩ := CTransaction.CheckInputs_pays (fits.ordinary hash tx inside) passed
  exact CTransaction.sumCheckedIn_mature summed member found isBase

/-- What an input spends is in the chain, or in the pool. -/
theorem source (fits : Fits env flags pcoinsTip nTipHeight pool) (inside : pool.mapTx[hash]? = some tx) {txin : CTxIn} (member : txin ∈ tx.vin) :
    (∃ coins coin, pcoinsTip.GetCoins txin.prevout.hash = some coins ∧ pcoinsTip.ledger txin.prevout = some coin ∧
      (pool.view pcoinsTip).ledger txin.prevout = some coin) ∨
    (pcoinsTip.GetCoins txin.prevout.hash = none ∧ ∃ parent coin, pool.mapTx[txin.prevout.hash]? = some parent ∧
      parent.coinAt MEMPOOL_HEIGHT txin.prevout.n = some coin ∧ (pool.view pcoinsTip).ledger txin.prevout = some coin) := by
  obtain ⟨coin,there⟩ := Option.ne_none_iff_exists'.mp (fits.available inside txin member)
  cases fetched : pcoinsTip.GetCoins txin.prevout.hash with
  | some coins => exact .inl ⟨coins,coin,rfl,by rw [← view_ledger_chain fetched,there],there⟩
  | none =>
    refine .inr ⟨rfl,?_⟩
    cases found : pool.mapTx[txin.prevout.hash]? with
    | none =>
      rw [view_ledger,fetched] at there
      dsimp only at there
      rw [found] at there
      contradiction
    | some parent => exact ⟨parent,coin,rfl,by rw [← view_ledger_pool fetched found,there],there⟩

theorem prevouts (fits : Fits env flags pcoinsTip nTipHeight pool) (inside : pool.mapTx[hash]? = some tx) : tx.prevouts = tx.vin.map CTxIn.prevout := by
  rw [CTransaction.prevouts,fits.ordinary hash tx inside]
  rfl

theorem nodup (fits : Fits env flags pcoinsTip nTipHeight pool) (inside : pool.mapTx[hash]? = some tx) : tx.prevouts.Nodup := by
  rw [fits.prevouts inside]
  exact (nodup_of_duplicateInputs (CTransaction.CheckTransaction_ok tx (fits.checked hash tx inside)).2.2.2.2.1).1

/-- What is left of the pool fits, wherever it finds the same outputs. -/
theorem move (fits : Fits env flags pcoinsTip nTipHeight pool) (linked : Linked env pool')
    (txs : ∀ (hash : uint256) tx, pool'.mapTx[hash]? = some tx → pool.mapTx[hash]? = some tx)
    (fresh : ∀ hash ∈ pool'.mapTx, pcoinsTip'.GetCoins hash = none)
    (same : ∀ (hash : uint256) tx, pool'.mapTx[hash]? = some tx →
      CCoinsViewCache.SameInputs (nTipHeight'+1) (pool.view pcoinsTip) (pool'.view pcoinsTip') tx.vin) :
    Fits env flags pcoinsTip' nTipHeight' pool' where
  linked := linked
  fresh := fresh
  checked hash tx found := fits.checked hash tx (txs hash tx found)
  ordinary hash tx found := fits.ordinary hash tx (txs hash tx found)
  valid hash tx found := by
    obtain ⟨checks,passed⟩ := fits.valid hash tx (txs hash tx found)
    obtain ⟨checks',passes,_⟩ := CTransaction.CheckInputs_same false (fits.ordinary hash tx (txs hash tx found)) (same hash tx found)
      (CTransaction.Relaxes.refl env flags) passed
    exact ⟨checks',passes⟩

/-- It fits under flags that ask no more. -/
theorem relax (fits : Fits env flags pcoinsTip nTipHeight pool) {flags' : ScriptFlags} (relaxes : CTransaction.Relaxes env flags flags') :
    Fits env flags' pcoinsTip nTipHeight pool where
  linked := fits.linked
  fresh := fits.fresh
  checked := fits.checked
  ordinary := fits.ordinary
  valid hash tx found := by
    obtain ⟨checks,passed⟩ := fits.valid hash tx found
    have ordinary := fits.ordinary hash tx found
    have same : CCoinsViewCache.SameInputs (nTipHeight+1) (pool.view pcoinsTip) (pool.view pcoinsTip) tx.vin := by
      intro txin member
      obtain ⟨coin,there⟩ := Option.ne_none_iff_exists'.mp (fits.available found txin member)
      exact ⟨coin,coin,there,there,rfl,fits.mature found member there⟩
    obtain ⟨checks',passes,_⟩ := CTransaction.CheckInputs_same false ordinary same relaxes passed
    exact ⟨checks',passes⟩

end Fits

/-! ### The pool alone changes -/

/-- Taking out transactions with all that spends from them leaves a pool that fits. -/
theorem Fits.part (fits : Fits env flags pcoinsTip nTipHeight pool) (part : Part env pool pool') : Fits env flags pcoinsTip nTipHeight pool' := by
  refine fits.move part.linked part.txs ?_ ?_
  · intro hash member
    obtain ⟨tx,found⟩ := mem_mapTx.mp member
    exact fits.fresh hash (mem_mapTx.mpr ⟨tx,part.txs hash tx found⟩)
  · intro hash tx found txin member
    have inside := part.txs hash tx found
    rcases fits.source inside member with ⟨coins,coin,fetched,there,before⟩ | ⟨absent,parent,coin,known,made,before⟩
    · refine ⟨coin,coin,before,?_,rfl,fits.mature inside member before⟩
      rw [view_ledger_chain fetched,there]
    · have stays : pool'.mapTx[txin.prevout.hash]? = some parent := by
        by_contra gone
        have outside : txin.prevout.hash ∉ pool'.mapTx := by
          intro still
          obtain ⟨other,left⟩ := mem_mapTx.mp still
          obtain rfl := Option.some.inj ((part.txs _ other left).symm.trans known)
          exact gone left
        obtain ⟨txout,indexed,_,_⟩ := (CCoins.coin_eq_some_iff ..).mp made
        have low : txin.prevout.n < parent.vout.length := (List.getElem?_eq_some_iff.mp indexed).1
        obtain ⟨i,here⟩ := List.getElem?_of_mem member
        exact part.closed _ parent known outside _ low (mem_mapNextTx.mpr ⟨_,(part.linked.entries _ hash i).mpr ⟨tx,found,txin,here,rfl⟩⟩)
      refine ⟨coin,coin,before,?_,rfl,fits.mature inside member before⟩
      rw [view_ledger_pool absent stays,made]

theorem checkFees_ok {rules : PoolRules} {chain : ActiveChain} {now : Moment} {view : CCoinsViewCache} {fLimitFree fRejectInsaneFee : Bool}
    (passed : checkFees rules chain now tx view fLimitFree fRejectInsaneFee = .ok ()) :
    ∃ checks, tx.CheckInputs rules.env view (chain.nTipHeight+1) true {P2SH := true,STRICTENC := true} false = .ok checks := by
  rw [checkFees] at passed
  split at passed
  · contradiction
  split at passed
  · contradiction
  split at passed
  · contradiction
  dsimp only at passed
  split at passed
  · contradiction
  split at passed
  · contradiction
  split at passed
  · contradiction
  split at passed
  · contradiction
  next checks checked => exact ⟨checks,checked⟩

theorem checkAlone_ok {rules : PoolRules} {chain : ActiveChain} {now : Moment} (passed : checkAlone rules chain now tx = .ok ()) :
    tx.CheckTransaction = .ok () ∧ tx.IsCoinBase = false := by
  rw [checkAlone] at passed
  split at passed
  · contradiction
  next checked =>
    split at passed
    · contradiction
    next ordinary => exact ⟨checked,by simpa using ordinary⟩

/-- What `accept` lets in has passed the checks on its inputs. -/
theorem accept_checked {rules : PoolRules} {chain : ActiveChain} {now : Moment} (fLimitFree fRejectInsaneFee : Bool)
    (accepted : (pool.accept rules chain now tx true fLimitFree fRejectInsaneFee).result = .ok ()) :
    ∃ checks, tx.CheckInputs rules.env (pool.view chain.pcoinsTip) (chain.nTipHeight+1) true {P2SH := true,STRICTENC := true} false = .ok checks := by
  unfold accept at accepted
  dsimp only at accepted
  split at accepted
  · contradiction
  split at accepted
  · contradiction
  split at accepted
  · contradiction
  rw [if_neg (by simp)] at accepted
  split at accepted
  · contradiction
  split at accepted
  · contradiction
  split at accepted
  · contradiction
  split at accepted
  · contradiction
  next passed => exact checkFees_ok passed

theorem Admitted.addable {rules : PoolRules} {chain : ActiveChain} {now : Moment} (admitted : Admitted rules chain now pool tx) :
    Addable rules.env pool tx := by
  refine ⟨(nodup_of_duplicateInputs (CTransaction.CheckTransaction_ok tx (checkAlone_ok admitted.alone).1).2.2.2.2.1).1,?_,?_⟩
  · intro other inside
    exact absurd (mem_mapTx.mpr ⟨other,inside⟩) admitted.fresh
  · intro txin member hash i found
    exact absurd (mem_mapNextTx.mpr ⟨_,found⟩) (admitted.free txin member)

/-- A transaction that `accept` lets in fits, and nothing else changes. -/
theorem Fits.add {rules : PoolRules} {chain : ActiveChain} {now : Moment} (fits : Fits rules.env flags chain.pcoinsTip chain.nTipHeight pool)
    (admitted : Admitted rules chain now pool tx) {checks : List CScriptCheck}
    (passed : tx.CheckInputs rules.env (pool.view chain.pcoinsTip) (chain.nTipHeight+1) true flags false = .ok checks) :
    Fits rules.env flags chain.pcoinsTip chain.nTipHeight (pool.addUnchecked (rules.env.TxHash tx) tx) := by
  obtain ⟨checked,ordinary⟩ := checkAlone_ok admitted.alone
  have absent := admitted.unknown
  rw [CCoinsViewCache.HaveCoins,view_reads,Option.isSome_eq_false_iff,Option.isNone_iff_eq_none,Option.or_eq_none_iff,Option.map_eq_none_iff] at absent
  have entries (hash : uint256) (other : CTransaction) (found : (pool.addUnchecked (rules.env.TxHash tx) tx).mapTx[hash]? = some other) :
      (hash = rules.env.TxHash tx ∧ other = tx) ∨ pool.mapTx[hash]? = some other := by
    rw [addUnchecked_mapTx,mapTx_insert] at found
    split at found
    next same => exact .inl ⟨same.symm,(Option.some.inj found).symm⟩
    · exact .inr found
  have same {vin : List CTxIn} (there : ∀ txin ∈ vin, (pool.view chain.pcoinsTip).ledger txin.prevout ≠ none)
      (mature : ∀ txin ∈ vin, ∀ coin, (pool.view chain.pcoinsTip).ledger txin.prevout = some coin → coin.fCoinBase = true → coin.nHeight ≤ chain.nTipHeight+1) :
      CCoinsViewCache.SameInputs (chain.nTipHeight+1) (pool.view chain.pcoinsTip)
        ((pool.addUnchecked (rules.env.TxHash tx) tx).view chain.pcoinsTip) vin := by
    intro txin member
    obtain ⟨coin,found⟩ := Option.ne_none_iff_exists'.mp (there txin member)
    refine ⟨coin,coin,found,?_,rfl,mature txin member coin found⟩
    rw [view_ledger] at found ⊢
    cases fetched : chain.pcoinsTip.GetCoins txin.prevout.hash with
    | some coins =>
      rw [fetched] at found
      exact found
    | none =>
      rw [fetched] at found
      dsimp only at found ⊢
      rw [addUnchecked_mapTx,mapTx_insert]
      split
      next own =>
        rw [← own,absent.2] at found
        contradiction
      · exact found
  constructor
  case linked => exact fits.linked.addUnchecked admitted.addable
  case fresh =>
    intro hash member
    obtain ⟨other,found⟩ := mem_mapTx.mp member
    rcases entries hash other found with ⟨rfl,_⟩ | before
    · exact absent.1
    · exact fits.fresh hash (mem_mapTx.mpr ⟨other,before⟩)
  case checked =>
    intro hash other found
    rcases entries hash other found with ⟨_,rfl⟩ | before
    · exact checked
    · exact fits.checked hash other before
  case ordinary =>
    intro hash other found
    rcases entries hash other found with ⟨_,rfl⟩ | before
    · exact ordinary
    · exact fits.ordinary hash other before
  case valid =>
    intro hash other found
    rcases entries hash other found with ⟨_,rfl⟩ | before
    · have there := (CCoinsViewCache.haveInputs_ledger ordinary).mp (CTransaction.CheckInputs_ok ordinary passed).1
      obtain ⟨_,_,_,summed,_⟩ := CTransaction.CheckInputs_pays ordinary passed
      obtain ⟨checks',passes,_⟩ := CTransaction.CheckInputs_same false ordinary
        (same there fun txin member coin found => CTransaction.sumCheckedIn_mature summed member found) (CTransaction.Relaxes.refl _ flags) passed
      exact ⟨checks',passes⟩
    · obtain ⟨checks,passed⟩ := fits.valid hash other before
      obtain ⟨checks',passes,_⟩ := CTransaction.CheckInputs_same false (fits.ordinary hash other before)
        (same (fits.available before) fun txin member coin => fits.mature before member) (CTransaction.Relaxes.refl _ flags) passed
      exact ⟨checks',passes⟩

/-! ### A block is connected -/

/-- What is left of a pool when the transactions of a block and all that conflicts with
    them went out: it spends nothing that the block spends, and nothing that went out. -/
structure Cleared (env : Env) (pool after : CTxMemPool) (vtx : List CTransaction) : Prop where
  linked : Linked env after
  txs : ∀ (hash : uint256) tx, after.mapTx[hash]? = some tx → pool.mapTx[hash]? = some tx
  next : ∀ (point : COutPoint) spender, after.mapNextTx[point]? = some spender → pool.mapNextTx[point]? = some spender
  gone : ∀ tx ∈ vtx, env.TxHash tx ∉ after.mapTx
  free : ∀ tx ∈ vtx, ∀ txin ∈ tx.vin, txin.prevout ∉ after.mapNextTx
  closed : ∀ (hash : uint256) tx, pool.mapTx[hash]? = some tx → hash ∉ after.mapTx → (∃ mine ∈ vtx, env.TxHash mine = hash) ∨
    ∀ i < tx.vout.length, (⟨hash,i⟩ : COutPoint) ∉ after.mapNextTx

/-- No transaction compares equal to one of the block unless it has its hash. -/
def NoTwins (env : Env) (pool : CTxMemPool) (vtx : List CTransaction) : Prop :=
  ∀ mine ∈ vtx, ∀ (hash : uint256) tx, pool.mapTx[hash]? = some tx → tx.eq mine = true → hash = env.TxHash mine

theorem drop_fewer (env : Env) (pool : CTxMemPool) (tx : CTransaction) :
    (∀ (hash : uint256) other, (pool.drop env tx).mapTx[hash]? = some other → pool.mapTx[hash]? = some other) ∧
    (∀ (hash : uint256) other, pool.mapTx[hash]? = some other → env.TxHash tx ≠ hash → (pool.drop env tx).mapTx[hash]? = some other) ∧
    ∀ (point : COutPoint) spender, (pool.drop env tx).mapNextTx[point]? = some spender → pool.mapNextTx[point]? = some spender := by
  by_cases inside : env.TxHash tx ∈ pool.mapTx
  · obtain ⟨txs,next⟩ := @drop_lookups env pool tx inside
    refine ⟨?_,?_,fun point spender found => ((next point spender).mp found).2⟩
    · intro hash other found
      rw [txs] at found
      split at found
      · contradiction
      · exact found
    · intro hash other found apart
      rw [txs,if_neg apart]
      exact found
  · rw [drop,if_neg inside]
    exact ⟨fun _ _ => id,fun _ _ found _ => found,fun _ _ => id⟩

section
variable {txs : Set CTransaction} {after : CTxMemPool} {vtx : List CTransaction}

/-- One transaction of the block. -/
theorem Cleared.step (hashes : Hashes env txs) (known : Within txs pool) (cleared : Cleared env pool after vtx) (inside : tx ∈ txs)
    (twins : NoTwins env pool [tx]) : Cleared env pool ((after.remove env tx false).removeConflicts env tx) (vtx ++ [tx]) := by
  have known' : Within txs after := fun hash other found => known hash other (cleared.txs hash other found)
  obtain ⟨linked,gone⟩ := cleared.linked.drop (hashes.same cleared.linked known' inside)
  obtain ⟨fewer,others,next⟩ := drop_fewer env after tx
  have known'' : Within txs (after.drop env tx) := fun hash other found => known' hash other (fewer hash other found)
  obtain ⟨part,free⟩ := removeConflicts_part hashes linked known'' tx
  have apart : ∀ child, (after.drop env tx).mapTx[env.TxHash child]? = some child →
      (∃ txin ∈ child.vin, ∃ mine ∈ tx.vin, txin.prevout = mine.prevout) → child.eq tx = false := by
    intro child there _
    by_contra equal
    have same := twins tx (List.mem_singleton_self tx) _ child (cleared.txs _ child (fewer _ child there)) (by simpa using equal)
    rw [same] at there
    exact gone (mem_mapTx.mpr ⟨child,there⟩)
  show Cleared env pool ((after.drop env tx).removeConflicts env tx) _
  constructor
  case linked => exact part.linked
  case txs => exact fun hash other found => cleared.txs hash other (fewer hash other (part.txs hash other found))
  case next => exact fun point spender found => cleared.next point spender (next point spender (part.next point spender found))
  case gone =>
    intro mine member still
    obtain ⟨other,left⟩ := mem_mapTx.mp still
    have before := part.txs _ other left
    rcases List.mem_append.mp member with earlier | last
    · exact cleared.gone mine earlier (mem_mapTx.mpr ⟨other,fewer _ other before⟩)
    · obtain rfl := List.mem_singleton.mp last
      exact gone (mem_mapTx.mpr ⟨other,before⟩)
  case free =>
    intro mine member txin spends spent
    rcases List.mem_append.mp member with earlier | last
    · obtain ⟨spender,found⟩ := mem_mapNextTx.mp spent
      exact cleared.free mine earlier txin spends (mem_mapNextTx.mpr ⟨spender,next _ _ (part.next _ _ found)⟩)
    · obtain rfl := List.mem_singleton.mp last
      exact free apart txin spends spent
  case closed =>
    intro hash other there outside
    by_cases before : hash ∈ after.mapTx
    · by_cases mine : env.TxHash tx = hash
      · exact .inl ⟨tx,List.mem_append_right _ (List.mem_singleton_self tx),mine⟩
      · obtain ⟨same,found⟩ := mem_mapTx.mp before
        obtain rfl := Option.some.inj ((cleared.txs hash same found).symm.trans there)
        exact .inr (part.closed hash same (others hash same found mine) outside)
    · rcases cleared.closed hash other there before with ⟨mine,member,same⟩ | unspent
      · exact .inl ⟨mine,List.mem_append_left _ member,same⟩
      · refine .inr fun i low spent => unspent i low ?_
        obtain ⟨spender,found⟩ := mem_mapNextTx.mp spent
        exact mem_mapNextTx.mpr ⟨spender,next _ _ (part.next _ _ found)⟩

theorem Cleared.refl (linked : Linked env pool) : Cleared env pool pool [] := by
  refine ⟨linked,fun _ _ => id,fun _ _ => id,?_,?_,?_⟩
  · exact fun tx member => absurd member List.not_mem_nil
  · exact fun tx member => absurd member List.not_mem_nil
  · exact fun hash tx found outside => absurd (mem_mapTx.mpr ⟨tx,found⟩) outside

/-- All transactions of the block, as the end of `SetBestChain` takes them out. -/
theorem Cleared.all (hashes : Hashes env txs) (known : Within txs pool) {rest : List CTransaction} (cleared : Cleared env pool after vtx)
    (inside : ∀ tx ∈ rest, tx ∈ txs) (twins : NoTwins env pool rest) :
    Cleared env pool (rest.foldl (fun mempool tx => (mempool.remove env tx false).removeConflicts env tx) after) (vtx ++ rest) := by
  induction rest generalizing after vtx with
  | nil => rwa [List.append_nil]
  | cons tx rest ih =>
    have first : NoTwins env pool [tx] := by
      intro mine member
      obtain rfl := List.mem_singleton.mp member
      exact twins mine (List.mem_cons_self ..)
    have step := cleared.step hashes known (inside tx (List.mem_cons_self ..)) first
    have later := ih step (fun other member => inside other (List.mem_cons_of_mem _ member)) fun mine member => twins mine (List.mem_cons_of_mem _ member)
    rwa [List.append_assoc] at later

end

/-- What a block on top of a chain does to the coins: its transactions are applied one
    after another, and what they leave may have gone through the database. -/
structure Grown (env : Env) (nHeight : Nat) (vtx : List CTransaction) (tip tip' : CCoinsViewCache) : Prop where
  names : (vtx.map env.TxHash).Nodup
  unused : ∀ tx ∈ vtx, ∀ n, tip.ledger ⟨env.TxHash tx,n⟩ = none
  run : ∃ ledger, Ledger.Run (blockSteps env nHeight) tip.ledger vtx ledger ∧
    ∀ out, tip'.ledger out = ledger out ∨ tip'.ledger out = (ledger out).map Coin.stored
  absent : ∀ hash, (∀ tx ∈ vtx, env.TxHash tx ≠ hash) → tip.GetCoins hash = none → tip'.GetCoins hash = none

namespace Grown
variable {nHeight : Nat} {vtx : List CTransaction} {tip tip' : CCoinsViewCache}

theorem settled_run {ledger : COutPoint → Option Coin} {start : COutPoint → Option Coin} (run : Ledger.Run (blockSteps env nHeight) start vtx ledger)
    (settled : Settled start) (offWire : ∀ tx ∈ vtx, tx.OffWire) (positive : 0 < nHeight) : Settled ledger := by
  induction run with
  | nil => exact settled
  | @snoc vtx ledger tx _ _ _ ih =>
    rw [blockSteps_apply]
    refine settled_applyTo (ih fun other member => offWire other (List.mem_append_left _ member)) ?_ positive
    exact offWire tx (List.mem_append_right _ (List.mem_singleton_self tx))

theorem settled (grown : Grown env nHeight vtx tip tip') (settled : Settled tip.ledger) (offWire : ∀ tx ∈ vtx, tx.OffWire) (positive : 0 < nHeight) :
    Settled tip'.ledger := by
  obtain ⟨ledger,run,reloaded⟩ := grown.run
  have after := settled_run run settled offWire positive
  intro out coin found
  rcases reloaded out with same | stored
  · exact after out coin (same ▸ found)
  · rw [stored] at found
    obtain ⟨before,there,rfl⟩ := Option.map_eq_some_iff.mp found
    exact ⟨(after out before there).1,rfl⟩

/-- A coin that nothing in the block spends is there afterwards, whether it was there before
    or the block made it. -/
theorem coin (grown : Grown env nHeight vtx tip tip') (settled : Settled tip.ledger) (offWire : ∀ tx ∈ vtx, tx.OffWire) (positive : 0 < nHeight)
    {out : COutPoint} {coin : Coin} (unspent : ∀ tx ∈ vtx, out ∉ tx.prevouts)
    (there : tip.ledger out = some coin ∨ ∃ tx ∈ vtx, env.TxHash tx = out.hash ∧ tx.coinAt nHeight out.n = some coin) :
    ∃ coin', tip'.ledger out = some coin' ∧ coin'.txout = coin.txout ∧ coin'.fCoinBase = coin.fCoinBase ∧ coin'.nHeight = coin.nHeight := by
  obtain ⟨ledger,run,reloaded⟩ := grown.run
  have fresh : Ledger.Fresh (blockSteps env nHeight) tip.ledger vtx := by
    rintro tx member ⟨hash,n⟩ rfl
    exact grown.unused tx member n
  have left := (run.orderly_of_names fresh grown.names).left out
  have free : out ∉ (blockSteps env nHeight).taken vtx := by
    intro taken
    obtain ⟨tx,member,spends⟩ := Ledger.mem_taken.mp taken
    exact unspent tx member spends
  have found : ledger out = some coin := by
    rw [left,if_neg free]
    split
    next made named =>
      have member := List.mem_of_find?_eq_some named
      have owned := List.find?_some named
      have owner : env.TxHash made = out.hash := of_decide_eq_true owned
      rcases there with before | ⟨tx,inside,owns,makes⟩
      · have empty := grown.unused made member out.n
        rw [owner] at empty
        rw [empty] at before
        contradiction
      · obtain rfl := List.inj_on_of_nodup_map grown.names member inside (owner.trans owns.symm)
        exact makes
    next none' =>
      rcases there with before | ⟨tx,inside,owns,_⟩
      · exact before
      · exact absurd (decide_eq_true owns) (List.find?_eq_none.mp none' tx inside)
  rcases reloaded out with same | stored
  · exact ⟨coin,by rw [same,found],rfl,rfl,rfl⟩
  · refine ⟨coin.stored,by rw [stored,found]; rfl,?_,rfl,rfl⟩
    exact CTxOut.stored_of_plain (settled_run run settled offWire positive out coin found).2

end Grown

/-- A block was connected: what is left of the pool fits the chain with the block on it. -/
theorem Fits.mined {txs : Set CTransaction} {after : CTxMemPool} {nHeight : Nat} {vtx : List CTransaction} (hashes : Hashes env txs)
    (known : Within txs pool) (block : ∀ tx ∈ vtx, tx ∈ txs) (fits : Fits env flags pcoinsTip nTipHeight pool) (cleared : Cleared env pool after vtx)
    (grown : Grown env nHeight vtx pcoinsTip pcoinsTip') (settled : Settled pcoinsTip.ledger) (offWire : ∀ tx ∈ vtx, tx.OffWire)
    (positive : 0 < nHeight) (low : (nHeight : Int) ≤ nTipHeight+1) : Fits env flags pcoinsTip' (nTipHeight+1) after := by
  -- Nothing that the rest of the pool spends is spent by the block.
  have unspent : ∀ (hash : uint256) tx, after.mapTx[hash]? = some tx → ∀ txin ∈ tx.vin, ∀ mine ∈ vtx, txin.prevout ∉ mine.prevouts := by
    intro hash tx found txin member mine inside spends
    obtain ⟨i,here⟩ := List.getElem?_of_mem member
    have spent : txin.prevout ∈ after.mapNextTx := mem_mapNextTx.mpr ⟨_,(cleared.linked.entries _ hash i).mpr ⟨tx,found,txin,here,rfl⟩⟩
    rw [CTransaction.prevouts] at spends
    split at spends
    · contradiction
    · obtain ⟨other,there,same⟩ := List.mem_map.mp spends
      rw [← same] at spent
      exact cleared.free mine inside other there spent
  have outside : ∀ hash ∈ after.mapTx, ∀ mine ∈ vtx, env.TxHash mine ≠ hash := by
    rintro hash member mine inside rfl
    exact cleared.gone mine inside member
  refine fits.move cleared.linked cleared.txs ?_ ?_
  · intro hash member
    obtain ⟨tx,found⟩ := mem_mapTx.mp member
    exact grown.absent hash (outside hash member) (fits.fresh hash (mem_mapTx.mpr ⟨tx,cleared.txs hash tx found⟩))
  · intro hash tx found txin member
    have inside := cleared.txs hash tx found
    have free := unspent hash tx found txin member
    have inChain {coin' : Coin} (there : pcoinsTip'.ledger txin.prevout = some coin') :
        (after.view pcoinsTip').ledger txin.prevout = some coin' := by
      obtain ⟨coins,fetched,_⟩ := CCoinsViewCache.of_ledger there
      rw [view_ledger_chain fetched,there]
    rcases fits.source inside member with ⟨coins,coin,fetched,there,before⟩ | ⟨absent,parent,coin,inPool,made,before⟩
    · obtain ⟨coin',there',out,isBase,height⟩ := grown.coin settled offWire positive free (.inl there)
      refine ⟨coin,coin',before,inChain there',out,fun base => ?_⟩
      have := fits.mature inside member before (isBase ▸ base)
      omega
    · by_cases stays : txin.prevout.hash ∈ after.mapTx
      · obtain ⟨same,left⟩ := mem_mapTx.mp stays
        obtain rfl := Option.some.inj ((cleared.txs _ same left).symm.trans inPool)
        refine ⟨coin,coin,before,?_,rfl,fun base => ?_⟩
        · rw [view_ledger_pool (grown.absent _ (outside _ stays) absent) left,made]
        · have := fits.mature inside member before base
          omega
      · obtain ⟨txout,indexed,notNull,rfl⟩ := (CCoins.coin_eq_some_iff ..).mp made
        -- The parent left the pool and its output is still spent in it, so the block has it.
        rcases cleared.closed _ parent inPool stays with ⟨mine,inBlock,owns⟩ | unused
        · have keyed := fits.linked.keyed _ parent inPool
          obtain rfl := hashes.unique mine (block mine inBlock) parent (known _ parent inPool) (owns.trans keyed.symm)
          have makes : mine.coinAt nHeight txin.prevout.n = some ⟨txout,mine.IsCoinBase,nHeight,mine.nVersion⟩ :=
            (CCoins.coin_eq_some_iff ..).mpr ⟨txout,indexed,notNull,rfl⟩
          obtain ⟨coin',there',out,isBase,height⟩ := grown.coin settled offWire positive free (.inr ⟨mine,inBlock,owns,makes⟩)
          refine ⟨_,coin',before,inChain there',out,fun base => ?_⟩
          rw [height]
          dsimp only
          omega
        · obtain ⟨i,here⟩ := List.getElem?_of_mem member
          refine absurd (mem_mapNextTx.mpr ⟨_,(cleared.linked.entries _ hash i).mpr ⟨tx,found,txin,here,rfl⟩⟩) (unused _ ?_)
          exact (List.getElem?_eq_some_iff.mp indexed).1

end
end CTxMemPool
end Tetra
