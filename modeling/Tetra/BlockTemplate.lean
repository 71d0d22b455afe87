import Mathlib
import Tetra.LedgerRuns
import Tetra.MinerQueue
import Tetra.StandardForms

/-!
What `CreateNewBlock` makes of a pool that fits the chain: a block that connects, and that
leaves out only what does not fit in or comes after something left out.
-/
namespace Tetra
open Std

namespace Mining

/-- The checks of signatures that a transaction of the pool causes. -/
def sigOps (mining : Mining) (tx : CTransaction) : Nat :=
  tx.GetLegacySigOpCount+
    match tx.GetP2SHSigOpCount (mining.mempool.view mining.chain.pcoinsTip) with
    | .ok nSigOps => nSigOps
    | .error _ => 0

/-- The fee of a transaction of the pool. -/
def fee (mining : Mining) (tx : CTransaction) : Fees :=
  match tx.GetValueIn (mining.mempool.view mining.chain.pcoinsTip),tx.GetValueOut with
  | .ok nValueIn,.ok nValueOut => nValueIn.sub nValueOut
  | _,_ => {}

/-- Transactions of the pool were applied to the tip one after another, and each found what
    it spends and stayed within the limits. -/
inductive Applied (mining : Mining) : List CTransaction → CCoinsViewCache → Nat → Nat → Fees → Prop
  | nil : Applied mining [] mining.view 1000 100 {}
  | snoc {vtx view nBlockSize nBlockSigOps nFees tx view' txundo} (before : Applied mining vtx view nBlockSize nBlockSigOps nFees)
    (candidate : mining.Candidate tx)
    (same : CCoinsViewCache.SameInputs (mining.chain.nTipHeight+1) (mining.mempool.view mining.chain.pcoinsTip) view tx.vin)
    (updates : tx.UpdateCoins view (mining.pindexPrev.nHeight+1) (mining.rules.env.TxHash tx) = .ok (view',txundo))
    (fits : nBlockSize+tx.GetSerializeSize < mining.settings.nBlockMaxSize)
    (few : nBlockSigOps+mining.sigOps tx < MAX_BLOCK_SIGOPS) :
    Applied mining (vtx ++ [tx]) view' (nBlockSize+tx.GetSerializeSize) (nBlockSigOps+mining.sigOps tx)
      (Fees.addAssign nFees (mining.fee tx))

/-- Applying transactions as steps of a ledger. -/
def steps (mining : Mining) : Ledger.Steps COutPoint Coin uint256 CTransaction where
  owner := COutPoint.hash
  inputs := CTransaction.prevouts
  name := mining.rules.env.TxHash
  made tx out := tx.coinAt (mining.pindexPrev.nHeight+1) out.n

section
variable {mining : Mining} {vtx : List CTransaction} {view : CCoinsViewCache} {nBlockSize nBlockSigOps : Nat} {nFees : Fees} {tx : CTransaction}

theorem view_ledger : mining.view.ledger = mining.chain.pcoinsTip.ledger := by
  funext out
  rw [CCoinsViewCache.ledger,CCoinsViewCache.ledger,view_GetCoins]

theorem apply_eq (ledger : COutPoint → Option Coin) :
    mining.steps.apply tx ledger = tx.applyTo (mining.rules.env.TxHash tx) (mining.pindexPrev.nHeight+1) ledger := by
  rw [Ledger.Steps.apply,CTransaction.applyTo]
  congr 1

theorem Applied.run (applied : mining.Applied vtx view nBlockSize nBlockSigOps nFees) :
    Ledger.Run mining.steps mining.chain.pcoinsTip.ledger vtx view.ledger := by
  induction applied with
  | nil =>
    rw [view_ledger]
    exact .nil
  | snoc _ _ _ updates _ _ ih =>
    obtain ⟨ledger,distinct,there,_⟩ := CTransaction.UpdateCoins_ok updates
    rw [ledger,← apply_eq]
    exact ih.snoc there distinct

theorem Applied.candidates (applied : mining.Applied vtx view nBlockSize nBlockSigOps nFees) : ∀ tx ∈ vtx, mining.Candidate tx := by
  induction applied with
  | nil => exact fun _ member => absurd member List.not_mem_nil
  | snoc _ candidate _ _ _ _ ih =>
    intro other member
    rcases List.mem_append.mp member with before | last
    · exact ih other before
    · obtain rfl := List.mem_singleton.mp last
      exact candidate

theorem Applied.sizes (applied : mining.Applied vtx view nBlockSize nBlockSigOps nFees) :
    nBlockSize = 1000+(vtx.map CTransaction.GetSerializeSize).sum ∧ nBlockSigOps = 100+(vtx.map mining.sigOps).sum := by
  induction applied with
  | nil => exact ⟨rfl,rfl⟩
  | snoc _ _ _ _ _ _ ih =>
    simp only [List.map_append,List.map_singleton,List.sum_append,List.sum_singleton]
    omega

theorem Applied.limits (applied : mining.Applied vtx view nBlockSize nBlockSigOps nFees) :
    nBlockSize ≤ mining.settings.nBlockMaxSize ∧ nBlockSigOps < MAX_BLOCK_SIGOPS := by
  cases applied with
  | nil => exact ⟨Nat.le_max_left .., by decide⟩
  | snoc _ _ _ _ fits few => exact ⟨Nat.le_of_lt fits,few⟩

section
variable (consistent : mining.Consistent)
include consistent

theorem Consistent.prevouts {hash : uint256} (inside : mining.mempool.mapTx[hash]? = some tx) : tx.prevouts = tx.vin.map CTxIn.prevout := by
  rw [CTransaction.prevouts,consistent.ordinary hash tx inside]
  rfl

theorem Consistent.nodup {hash : uint256} (inside : mining.mempool.mapTx[hash]? = some tx) : tx.prevouts.Nodup := by
  rw [consistent.prevouts inside]
  exact (CTxMemPool.nodup_of_duplicateInputs (CTransaction.CheckTransaction_ok tx (consistent.checked hash tx inside)).2.2.2.2.1).1

/-- The hash of a transaction of the pool has no coins at the tip. -/
theorem Consistent.unknown (candidate : mining.Candidate tx) : mining.chain.pcoinsTip.GetCoins (mining.rules.env.TxHash tx) = none :=
  consistent.fresh _ (CTxMemPool.mem_mapTx.mpr ⟨tx,candidate.1⟩)

theorem Applied.orderly (applied : mining.Applied vtx view nBlockSize nBlockSigOps nFees) :
    Ledger.Orderly mining.steps mining.chain.pcoinsTip.ledger vtx view.ledger := by
  refine applied.run.orderly ?_ ⟨?_,?_⟩
  · intro t member k own
    have unknown := consistent.unknown (applied.candidates t member)
    rw [CCoinsViewCache.ledger,show k.hash = mining.rules.env.TxHash t from own,unknown]
  · intro t member
    have inside := (applied.candidates t member).1
    show t.prevouts ≠ []
    rw [consistent.prevouts inside,ne_eq,List.map_eq_nil_iff]
    exact (CTransaction.CheckTransaction_ok t (consistent.checked _ t inside)).1
  · intro a left b right same
    have first := (applied.candidates a left).1
    have second := (applied.candidates b right).1
    rw [show mining.rules.env.TxHash a = mining.rules.env.TxHash b from same,second] at first
    rw [Option.some.inj first]

/-- No two transactions of the pool spend one output. -/
theorem Consistent.spender {other : CTransaction} {out : COutPoint} (candidate : mining.Candidate tx) (candidate' : mining.Candidate other)
    (spends : out ∈ tx.prevouts) (spends' : out ∈ other.prevouts) : tx = other := by
  have entry {t : CTransaction} (known : mining.Candidate t) (takes : out ∈ t.prevouts) :
      ∃ i, mining.mempool.mapNextTx[out]? = some (mining.rules.env.TxHash t,i) := by
    rw [consistent.prevouts known.1] at takes
    obtain ⟨txin,member,rfl⟩ := List.mem_map.mp takes
    obtain ⟨i,indexed⟩ := List.getElem?_of_mem member
    exact ⟨i,(consistent.linked.entries _ _ i).mpr ⟨t,known.1,txin,indexed,rfl⟩⟩
  obtain ⟨i,first⟩ := entry candidate spends
  obtain ⟨j,second⟩ := entry candidate' spends'
  have same : mining.rules.env.TxHash tx = mining.rules.env.TxHash other := by
    rw [first] at second
    exact (Prod.mk.inj (Option.some.inj second)).1
  have inside := candidate.1
  rw [same,candidate'.1] at inside
  exact (Option.some.inj inside).symm

/-- A transaction whose parents are in the block finds there what it spends in the pool. -/
theorem Applied.same (applied : mining.Applied vtx view nBlockSize nBlockSigOps nFees) (candidate : mining.Candidate tx)
    (ready : ∀ hash, mining.Awaits tx hash → hash ∈ vtx.map mining.rules.env.TxHash) (new : tx ∉ vtx) :
    CCoinsViewCache.SameInputs (mining.chain.nTipHeight+1) (mining.mempool.view mining.chain.pcoinsTip) view tx.vin := by
  have orderly := applied.orderly consistent
  obtain ⟨checks,passed⟩ := consistent.valid _ tx candidate.1
  obtain ⟨_,_,_,summed,_⟩ := CTransaction.CheckInputs_pays (consistent.ordinary _ tx candidate.1) passed
  intro txin member
  have takes : txin.prevout ∈ tx.prevouts := by
    rw [consistent.prevouts candidate.1]
    exact List.mem_map.mpr ⟨txin,member,rfl⟩
  obtain ⟨c,there⟩ := Option.ne_none_iff_exists'.mp (consistent.available candidate.1 txin member)
  have mature := CTransaction.sumCheckedIn_mature summed member there
  have left := orderly.left txin.prevout
  have untaken : txin.prevout ∉ mining.steps.taken vtx := by
    intro taken
    obtain ⟨other,inside,takes'⟩ := Ledger.mem_taken.mp taken
    obtain rfl := consistent.spender candidate (applied.candidates other inside) takes takes'
    exact new inside
  rw [if_neg untaken] at left
  cases found : vtx.find? fun t => decide (mining.rules.env.TxHash t = txin.prevout.hash) with
  | some parent =>
    have inside := List.mem_of_find?_eq_some found
    have named : mining.rules.env.TxHash parent = txin.prevout.hash := by simpa using List.find?_some found
    have known := applied.candidates parent inside
    have base := consistent.ordinary _ parent known.1
    rw [show (vtx.find? fun t => decide (mining.steps.name t = mining.steps.owner txin.prevout)) = some parent from found] at left
    rw [poolView_ledger,← named,consistent.unknown known] at there
    dsimp only at there
    rw [known.1,Option.bind_some] at there
    obtain ⟨txout,indexed,present,rfl⟩ := (CCoins.coin_eq_some_iff ..).mp there
    have made : parent.coinAt (mining.pindexPrev.nHeight+1) txin.prevout.n =
        some ⟨txout,parent.IsCoinBase,mining.pindexPrev.nHeight+1,parent.nVersion⟩ :=
      (CCoins.coin_eq_some_iff ..).mpr ⟨txout,indexed,present,rfl⟩
    refine ⟨⟨txout,parent.IsCoinBase,MEMPOOL_HEIGHT,parent.nVersion⟩,_,?_,left.trans made,rfl,?_⟩
    rotate_left
    · rw [base]
      exact fun isBase => absurd isBase Bool.false_ne_true
    · rw [poolView_ledger,← named,consistent.unknown known]
      dsimp only
      rw [known.1,Option.bind_some]
      exact there
  | none =>
    rw [show (vtx.find? fun t => decide (mining.steps.name t = mining.steps.owner txin.prevout)) = none from found] at left
    cases fetched : mining.chain.pcoinsTip.GetCoins txin.prevout.hash with
    | none =>
      obtain ⟨t,inside,named⟩ := List.mem_map.mp (ready _ ⟨⟨txin,member,rfl⟩,fetched⟩)
      have := List.find?_eq_none.mp found t inside
      exact absurd (decide_eq_true named) this
    | some coins =>
      refine ⟨c,c,there,?_,rfl,mature⟩
      rw [left,CCoinsViewCache.ledger,fetched]
      rw [poolView_ledger,fetched] at there
      exact there

/-! ### One turn of the loop -/

theorem Consistent.counted (candidate : mining.Candidate tx) :
    ∃ p2sh, tx.GetP2SHSigOpCount (mining.mempool.view mining.chain.pcoinsTip) = .ok p2sh ∧ mining.sigOps tx = tx.GetLegacySigOpCount+p2sh := by
  obtain ⟨p2sh,counts⟩ := CTransaction.countP2SH_succeeds (consistent.available candidate.1)
  have counts' : tx.GetP2SHSigOpCount (mining.mempool.view mining.chain.pcoinsTip) = .ok p2sh := by
    rw [CTransaction.GetP2SHSigOpCount,consistent.ordinary _ tx candidate.1]
    exact counts
  exact ⟨p2sh,counts',by rw [sigOps,counts']⟩

theorem Consistent.valued (candidate : mining.Candidate tx) :
    ∃ nValueIn nValueOut, tx.GetValueIn (mining.mempool.view mining.chain.pcoinsTip) = .ok nValueIn ∧ tx.GetValueOut = .ok nValueOut ∧
      mining.fee tx = nValueIn.sub nValueOut := by
  obtain ⟨nValueIn,sums⟩ := CTransaction.sumIn_succeeds (consistent.available candidate.1) {}
  obtain ⟨nValueOut,valued⟩ := consistent.valueOut candidate.1
  have sums' : tx.GetValueIn (mining.mempool.view mining.chain.pcoinsTip) = .ok nValueIn := by
    rw [CTransaction.GetValueIn,consistent.ordinary _ tx candidate.1]
    exact sums
  exact ⟨nValueIn,nValueOut,sums',valued,by rw [fee,sums',valued]⟩

/-- A transaction that is in the block has no inputs left. -/
theorem Applied.gone (applied : mining.Applied vtx view nBlockSize nBlockSigOps nFees) (inside : tx ∈ vtx) : tx.HaveInputs view = false := by
  have candidate := applied.candidates tx inside
  have ordinary := consistent.ordinary _ tx candidate.1
  obtain ⟨txin,member⟩ := List.exists_mem_of_ne_nil _ (CTransaction.CheckTransaction_ok tx (consistent.checked _ tx candidate.1)).1
  have taken : txin.prevout ∈ mining.steps.taken vtx := by
    refine Ledger.mem_taken.mpr ⟨tx,inside,?_⟩
    show txin.prevout ∈ tx.prevouts
    rw [consistent.prevouts candidate.1]
    exact List.mem_map.mpr ⟨txin,member,rfl⟩
  have spent := (applied.orderly consistent).left txin.prevout
  rw [if_pos taken] at spent
  by_contra there
  exact (CCoinsViewCache.haveInputs_ledger ordinary).mp (by simpa using there) txin member spent

/-- A transaction past the limits on sizes and fees whose parents are in the block goes
    in, unless it is there already or causes too many checks of signatures. -/
theorem attempt_ok {assembly : Assembly}
    (applied : mining.Applied assembly.vtx assembly.view assembly.nBlockSize assembly.nBlockSigOps assembly.nFees) (candidate : mining.Candidate tx)
    (ready : ∀ hash, mining.Awaits tx hash → hash ∈ assembly.vtx.map mining.rules.env.TxHash) :
    (mining.attempt assembly tx = .ok assembly ∧ (tx ∈ assembly.vtx ∨ assembly.nBlockSigOps+mining.sigOps tx ≥ MAX_BLOCK_SIGOPS)) ∨
    ∃ view txundo, mining.attempt assembly tx = mining.select assembly tx (mining.fee tx) (mining.sigOps tx) view ∧
      CCoinsViewCache.SameInputs (mining.chain.nTipHeight+1) (mining.mempool.view mining.chain.pcoinsTip) assembly.view tx.vin ∧
      tx.UpdateCoins assembly.view (mining.pindexPrev.nHeight+1) (mining.rules.env.TxHash tx) = .ok (view,txundo) ∧
      assembly.nBlockSigOps+mining.sigOps tx < MAX_BLOCK_SIGOPS := by
  have ordinary := consistent.ordinary _ tx candidate.1
  rw [attempt]
  dsimp only
  by_cases inside : tx ∈ assembly.vtx
  · rw [applied.gone consistent inside,if_pos rfl]
    exact .inl ⟨rfl,.inl inside⟩
  have same := applied.same consistent candidate ready inside
  have there := (CCoinsViewCache.haveInputs_ledger ordinary).mpr same.present.2
  obtain ⟨p2sh,counts,sigOps⟩ := consistent.counted candidate
  obtain ⟨nValueIn,nValueOut,sums,valued,fee⟩ := consistent.valued candidate
  obtain ⟨_,passed⟩ := consistent.valid _ tx candidate.1
  obtain ⟨_,passes,_⟩ := CTransaction.CheckInputs_same false ordinary same (CTransaction.Relaxes.refl _ _) passed
  have distinct := consistent.nodup candidate.1
  have present : ∀ out ∈ tx.prevouts, assembly.view.ledger out ≠ none := by
    rw [consistent.prevouts candidate.1]
    intro out member
    obtain ⟨txin,spends,rfl⟩ := List.mem_map.mp member
    exact same.present.2 txin spends
  obtain ⟨view,txundo,updates⟩ := CTransaction.UpdateCoins_succeeds (mining.pindexPrev.nHeight+1) (mining.rules.env.TxHash tx) distinct present
  rw [there,if_neg (by decide),CTransaction.GetValueIn_same same,sums]
  simp only [valued,CTransaction.GetP2SHSigOpCount_same same,counts,← sigOps,← fee]
  by_cases many : assembly.nBlockSigOps+mining.sigOps tx ≥ MAX_BLOCK_SIGOPS
  · rw [if_pos many]
    exact .inl ⟨rfl,.inr many⟩
  · refine .inr ⟨view,txundo,?_,same,updates,by omega⟩
    rw [if_neg many,passes,updates]

end

/-- What keeps a transaction out of the block, for good since a block only grows: its size,
    its checks of signatures, or its low fee past the size that is filled with any. -/
def LeftOut (mining : Mining) (nBlockSize nBlockSigOps : Nat) (tx : CTransaction) : Prop :=
  nBlockSize+tx.GetSerializeSize ≥ mining.settings.nBlockMaxSize ∨ nBlockSigOps+mining.sigOps tx ≥ MAX_BLOCK_SIGOPS ∨
    (mining.feePerKb tx).lt mining.rules.nMinTxFee = true ∧ nBlockSize+tx.GetSerializeSize ≥ mining.settings.nBlockMinSize

theorem LeftOut.mono {nBlockSize' nBlockSigOps' : Nat} (left : mining.LeftOut nBlockSize nBlockSigOps tx) (larger : nBlockSize ≤ nBlockSize')
    (more : nBlockSigOps ≤ nBlockSigOps') : mining.LeftOut nBlockSize' nBlockSigOps' tx := by
  rcases left with big | checks | ⟨low,full⟩
  · exact .inl (by omega)
  · exact .inr (.inl (by omega))
  · exact .inr (.inr ⟨low,by omega⟩)

/-- What holds of the loop between two turns, but for the transactions `except`. -/
structure Assembled (mining : Mining) (assembly : Assembly) (except : CTransaction → Prop) : Prop where
  applied : mining.Applied assembly.vtx assembly.view assembly.nBlockSize assembly.nBlockSigOps assembly.nFees
  counts : assembly.vTxSigOps = assembly.vtx.map mining.sigOps
  fees : assembly.vTxFees = assembly.vtx.map mining.fee
  queued : mining.Queued assembly.waiting assembly.vecPriority fun hash => hash ∈ assembly.vtx.map mining.rules.env.TxHash
  every : ∀ tx, mining.Candidate tx → Held assembly.waiting assembly.vecPriority tx ∨ tx ∈ assembly.vtx ∨
    mining.LeftOut assembly.nBlockSize assembly.nBlockSigOps tx ∨ except tx

/-- The queue in another order. -/
theorem Assembled.perm {assembly : Assembly} {except : CTransaction → Prop} (assembled : mining.Assembled assembly except)
    {vecPriority : List TxPriority} (same : vecPriority.Perm assembly.vecPriority) (fSortedByFee : Bool) :
    mining.Assembled {assembly with vecPriority := vecPriority,fSortedByFee := fSortedByFee} except := by
  obtain ⟨applied,counts,fees,queued,every⟩ := assembled
  refine ⟨applied,counts,fees,⟨queued.holds,queued.named,queued.orphans,fun entry member => queued.entries entry (same.mem_iff.mp member)⟩,?_⟩
  intro tx candidate
  exact (every tx candidate).imp_left fun held => held.mono (fun entry member => same.mem_iff.mpr member) fun _ _ there => there

/-- A transaction goes in, and those that waited for it alone go to the queue. -/
theorem select_ok {assembly : Assembly} {except : CTransaction → Prop} (assembled : mining.Assembled assembly except)
    (only : ∀ other, except other → other = tx) (candidate : mining.Candidate tx) {view : CCoinsViewCache} {txundo : CTxUndo}
    (same : CCoinsViewCache.SameInputs (mining.chain.nTipHeight+1) (mining.mempool.view mining.chain.pcoinsTip) assembly.view tx.vin)
    (updates : tx.UpdateCoins assembly.view (mining.pindexPrev.nHeight+1) (mining.rules.env.TxHash tx) = .ok (view,txundo))
    (fits : assembly.nBlockSize+tx.GetSerializeSize < mining.settings.nBlockMaxSize)
    (few : assembly.nBlockSigOps+mining.sigOps tx < MAX_BLOCK_SIGOPS) :
    ∃ after, mining.select assembly tx (mining.fee tx) (mining.sigOps tx) view = .ok after ∧ (mining.Assembled after fun _ => False) ∧
      after.vecPriority.length+after.waiting.pending = assembly.vecPriority.length+assembly.waiting.pending := by
  obtain ⟨applied,counts,fees,queued,every⟩ := assembled
  let hash := mining.rules.env.TxHash tx
  let chosen : Assembly := {assembly with
    view := view
    vtx := assembly.vtx ++ [tx]
    vTxFees := assembly.vTxFees ++ [mining.fee tx]
    vTxSigOps := assembly.vTxSigOps ++ [mining.sigOps tx]
    nBlockSize := assembly.nBlockSize+tx.GetSerializeSize
    nBlockTx := assembly.nBlockTx+1
    nBlockSigOps := assembly.nBlockSigOps+mining.sigOps tx
    nFees := Fees.addAssign assembly.nFees (mining.fee tx)}
  let dependers := assembly.waiting.mapDependers.getD hash []
  have places : ∀ i ∈ dependers, ∃ orphan, chosen.waiting.vOrphan[i]? = some (some orphan) :=
    fun i member => queued.holds i (queued.named hash i member)
  obtain ⟨after,runs,released⟩ : ∃ after, dependers.foldlM (mining.release hash) chosen = .ok after ∧
      Released hash chosen (dependers.reverse ++ []) after := release_all (Released.refl hash chosen) places
  refine ⟨after,runs,?_,released.measure⟩
  have waits := released.queued queued fun i member => by simpa [dependers] using member
  rw [released.same]
  constructor
  case applied => exact applied.snoc candidate same updates fits few
  case counts =>
    show assembly.vTxSigOps ++ [mining.sigOps tx] = _
    rw [counts,List.map_append,List.map_singleton]
  case fees =>
    show assembly.vTxFees ++ [mining.fee tx] = _
    rw [fees,List.map_append,List.map_singleton]
  case queued =>
    simp only [chosen,List.map_append,List.map_singleton,List.mem_append,List.mem_singleton]
    exact waits
  case every =>
    intro other known
    rcases every other known with held | inside | left | excepted
    · exact .inl (released.held held)
    · exact .inr (.inl (List.mem_append_left _ inside))
    · exact .inr (.inr (.inl (left.mono (Nat.le_add_right ..) (Nat.le_add_right ..))))
    · obtain rfl := only other excepted
      exact .inr (.inl (List.mem_append_right _ (List.mem_singleton_self _)))

/-- What is left to do: a turn for each that is in the queue or waits to get there. -/
def turns (assembly : Assembly) : Nat := assembly.vecPriority.length+assembly.waiting.pending

theorem reorder_perm (mining : Mining) (assembly : Assembly) (entry : TxPriority) :
    ∃ vecPriority fSortedByFee, mining.reorder assembly entry = {assembly with vecPriority := vecPriority,fSortedByFee := fSortedByFee} ∧
      vecPriority.Perm assembly.vecPriority := by
  rw [reorder]
  split
  · exact ⟨_,_,rfl,mining.heap.make_perm _ _⟩
  · exact ⟨_,_,rfl,List.Perm.refl _⟩

/-- One turn: the transaction is in the block afterwards, or is left out for good. -/
theorem consider_ok (consistent : mining.Consistent) {assembly : Assembly} {entry : TxPriority}
    (assembled : mining.Assembled assembly fun tx => tx = entry.tx) (candidate : mining.Candidate entry.tx)
    (rate : entry.dFeePerKb = mining.feePerKb entry.tx)
    (ready : ∀ hash, mining.Awaits entry.tx hash → hash ∈ assembly.vtx.map mining.rules.env.TxHash) :
    ∃ after, mining.consider assembly entry = .ok after ∧ (mining.Assembled after fun _ => False) ∧ turns after = turns assembly := by
  have skip {assembly : Assembly} (assembled : mining.Assembled assembly fun tx => tx = entry.tx)
      (settled : entry.tx ∈ assembly.vtx ∨ mining.LeftOut assembly.nBlockSize assembly.nBlockSigOps entry.tx) :
      mining.Assembled assembly fun _ => False := by
    refine ⟨assembled.applied,assembled.counts,assembled.fees,assembled.queued,?_⟩
    intro tx known
    rcases assembled.every tx known with held | inside | left | rfl
    · exact .inl held
    · exact .inr (.inl inside)
    · exact .inr (.inr (.inl left))
    · exact .inr (settled.imp_right .inl)
  obtain ⟨p2sh,_,sigOps⟩ := consistent.counted candidate
  rw [consider]
  by_cases big : assembly.nBlockSize+entry.tx.GetSerializeSize ≥ mining.settings.nBlockMaxSize
  · rw [if_pos big]
    exact ⟨assembly,rfl,skip assembled (.inr (.inl big)),rfl⟩
  rw [if_neg big]
  by_cases many : assembly.nBlockSigOps+entry.tx.GetLegacySigOpCount ≥ MAX_BLOCK_SIGOPS
  · rw [if_pos many]
    exact ⟨assembly,rfl,skip assembled (.inr (.inr (.inl (by omega)))),rfl⟩
  rw [if_neg many,rate]
  by_cases cheap : (assembly.fSortedByFee && (mining.feePerKb entry.tx).lt mining.rules.nMinTxFee &&
      decide (assembly.nBlockSize+entry.tx.GetSerializeSize ≥ mining.settings.nBlockMinSize)) = true
  · rw [if_pos cheap]
    simp only [Bool.and_eq_true,decide_eq_true_eq] at cheap
    exact ⟨assembly,rfl,skip assembled (.inr (.inr (.inr ⟨cheap.1.2,cheap.2⟩))),rfl⟩
  rw [if_neg cheap]
  obtain ⟨vecPriority,fSortedByFee,reordered,same⟩ := reorder_perm mining assembly entry
  have assembled' := assembled.perm same fSortedByFee
  have equal : turns {assembly with vecPriority := vecPriority,fSortedByFee := fSortedByFee} = turns assembly := by
    simp only [turns,same.length_eq]
  rw [reordered]
  rcases attempt_ok consistent assembled'.applied candidate ready with ⟨stays,settled⟩ | ⟨view,txundo,selects,found,updates,few⟩
  · rw [stays]
    exact ⟨_,rfl,skip assembled' (settled.imp_right fun many => .inr (.inl many)),equal⟩
  · rw [selects]
    obtain ⟨after,runs,done,measure⟩ := select_ok assembled' (fun _ => id) candidate found updates (by simpa using big) few
    exact ⟨after,runs,done,measure.trans equal⟩

/-- The loop works off the queue. -/
theorem assemble_ok (consistent : mining.Consistent) {fuel : Nat} {assembly : Assembly} (assembled : mining.Assembled assembly fun _ => False)
    (enough : turns assembly ≤ fuel) :
    ∃ after, mining.assemble fuel assembly = .ok after ∧ (mining.Assembled after fun _ => False) ∧ after.vecPriority = [] := by
  induction fuel generalizing assembly with
  | zero =>
    have empty : assembly.vecPriority = [] := List.eq_nil_of_length_eq_zero (by rw [turns] at enough; omega)
    rw [assemble,empty]
    exact ⟨assembly,rfl,assembled,empty⟩
  | succ fuel ih =>
    rw [assemble]
    cases queue : assembly.vecPriority with
    | nil => exact ⟨assembly,rfl,assembled,queue⟩
    | cons front rest =>
      obtain ⟨popped,pops,same⟩ := mining.heap.pop_last (TxPriorityCompare assembly.fSortedByFee) front rest
      dsimp only
      rw [pops,List.dropLast_concat]
      obtain ⟨applied,counts,fees,queued,every⟩ := assembled
      have within {entry : TxPriority} (member : entry ∈ popped) : entry ∈ assembly.vecPriority := by
        rw [queue]
        exact List.mem_cons_of_mem _ (same.mem_iff.mp member)
      obtain ⟨candidate,rate,ready⟩ := queued.entries front (by rw [queue]; exact List.mem_cons_self ..)
      have assembled' : mining.Assembled {assembly with vecPriority := popped} fun tx => tx = front.tx := by
        refine ⟨applied,counts,fees,⟨queued.holds,queued.named,queued.orphans,fun entry member => queued.entries entry (within member)⟩,?_⟩
        intro tx known
        rcases every tx known with (⟨entry,member,named⟩ | waits) | inside | left | none
        · rw [queue] at member
          rcases List.mem_cons.mp member with rfl | later
          · exact .inr (.inr (.inr named.symm))
          · exact .inl (.inl ⟨entry,same.mem_iff.mpr later,named⟩)
        · exact .inl (.inr waits)
        · exact .inr (.inl inside)
        · exact .inr (.inr (.inl left))
        · exact none.elim
      obtain ⟨after,considers,done,measure⟩ := consider_ok consistent assembled' candidate rate ready
      rw [considers]
      refine ih done ?_
      have size := same.length_eq
      simp only [turns,queue,List.length_cons] at enough measure ⊢
      omega

theorem start_ok {filled : Filled} (collected : mining.Collected filled (mining.mempool.mapTx.toList.map Prod.snd)) :
    (mining.Assembled (mining.start filled) fun _ => False) ∧ turns (mining.start filled) ≤ mining.mempool.mapTx.size := by
  obtain ⟨queued,every,few⟩ := collected
  have nothing : mining.Assembled ⟨filled.waiting,filled.vecPriority,false,mining.view,[],[],[],1000,0,100,{}⟩ fun _ => False := by
    refine ⟨.nil,rfl,rfl,by simpa using queued,?_⟩
    intro tx known
    exact .inl (every tx (List.mem_map.mpr ⟨(_,tx),ExtTreeMap.mem_toList_iff_getElem?_eq_some.mpr known.1,rfl⟩) known.2)
  refine ⟨nothing.perm (mining.heap.make_perm _ _) _,?_⟩
  have waiting : filled.waiting.pending ≤ filled.waiting.vOrphan.length := List.countP_le_length
  have queue := (mining.heap.make_perm (TxPriorityCompare (mining.settings.nBlockPrioritySize == 0)) filled.vecPriority).length_eq
  rw [List.length_map,ExtTreeMap.length_toList] at few
  show List.length (mining.heap.make_heap _ filled.vecPriority)+filled.waiting.pending ≤ _
  omega

/-! ### The block connects -/

section
variable {env : Env} {params : ConnectParams} {s : ConnectState}

theorem connectTransactions_append (s : ConnectState) (first second : List CTransaction) :
    connectTransactions env params s (first ++ second) =
      match connectTransactions env params s first with
      | .error e => .error e
      | .ok s => connectTransactions env params s second := by
  induction first generalizing s with
  | nil => rfl
  | cons tx first ih =>
    rw [List.cons_append,connectTransactions,connectTransactions]
    cases connectTransaction env params s tx with
    | error e => rfl
    | ok s => exact ih s

/-- A transaction that passes in one view connects on another that has its inputs. -/
theorem connectTransaction_same {a : CCoinsViewCache} {checks : List CScriptCheck} {nHeight : Int} {nValueIn nValueOut : Cash} {p2sh : Nat}
    (ordinary : tx.IsCoinBase = false) (same : CCoinsViewCache.SameInputs params.nHeight a s.view tx.vin) (distinct : tx.prevouts.Nodup)
    (checked : tx.CheckInputs env a nHeight true {P2SH := true} false = .ok checks)
    (relaxes : CTransaction.Relaxes env {P2SH := true} params.flags) (scripts : params.fScriptChecks = true)
    (counts : tx.GetP2SHSigOpCount a = .ok p2sh) (few : s.nSigOps+(tx.GetLegacySigOpCount+p2sh) ≤ MAX_BLOCK_SIGOPS)
    (sums : tx.GetValueIn a = .ok nValueIn) (valued : tx.GetValueOut = .ok nValueOut) :
    ∃ s', connectTransaction env params s tx = .ok s' ∧ s'.view.ledger = tx.applyTo (env.TxHash tx) params.nHeight s.view.ledger ∧
      s'.nFees = Fees.addAssign s.nFees (nValueIn.sub nValueOut) ∧ s'.nSigOps ≤ s.nSigOps+(tx.GetLegacySigOpCount+p2sh) ∧
      ∃ vChecks, s'.vChecks = s.vChecks ++ vChecks ∧ ∀ check ∈ vChecks, check.run env = true := by
  have there := (CCoinsViewCache.haveInputs_ledger ordinary).mpr same.present.2
  obtain ⟨vChecks,passes,run⟩ := CTransaction.CheckInputs_same params.pvChecks ordinary same relaxes checked
  have present : ∀ out ∈ tx.prevouts, s.view.ledger out ≠ none := by
    rw [CTransaction.prevouts,ordinary]
    intro out member
    obtain ⟨txin,spends,rfl⟩ := List.mem_map.mp member
    exact same.present.2 txin spends
  obtain ⟨view,txundo,updates⟩ := CTransaction.UpdateCoins_succeeds params.nHeight (env.TxHash tx) distinct present
  rw [connectTransaction]
  dsimp only
  rw [if_neg (by omega),ordinary,if_neg Bool.false_ne_true,there,if_neg (by decide),CTransaction.GetP2SHSigOpCount_same same,counts,scripts,
    CTransaction.GetValueIn_same same,sums,valued,passes,updates]
  have counted {n : Nat} (low : n ≤ p2sh) : ¬s.nSigOps+tx.GetLegacySigOpCount+n > MAX_BLOCK_SIGOPS := by omega
  cases params.fStrictPayToScriptHash with
  | true =>
    dsimp only
    rw [if_pos rfl]
    dsimp only
    rw [if_neg (counted (Nat.le_refl _))]
    exact ⟨_,rfl,(CTransaction.UpdateCoins_ok updates).1,rfl,by dsimp only; omega,vChecks,rfl,run⟩
  | false =>
    dsimp only
    rw [if_neg Bool.false_ne_true]
    dsimp only
    rw [if_neg (counted (Nat.zero_le _))]
    exact ⟨_,rfl,(CTransaction.UpdateCoins_ok updates).1,rfl,by dsimp only; omega,vChecks,rfl,run⟩

end

/-- Two ledgers that differ at most at one hash. -/
def AgreeBut (hash : uint256) (a b : COutPoint → Option Coin) : Prop := ∀ out : COutPoint, out.hash ≠ hash → a out = b out

theorem AgreeBut.apply {hash txhash : uint256} {nHeight : Nat} {a b : COutPoint → Option Coin} (agree : AgreeBut hash a b) :
    AgreeBut hash (tx.applyTo txhash nHeight a) (tx.applyTo txhash nHeight b) := by
  intro out apart
  rw [CTransaction.applyTo,CTransaction.applyTo,Ledger.step,Ledger.step,agree out apart]

theorem sameInputs_agree {nSpendHeight : Int} {a b c : CCoinsViewCache} {hash : uint256} {vin : List CTxIn}
    (agree : AgreeBut hash c.ledger b.ledger) (apart : ∀ txin ∈ vin, txin.prevout.hash ≠ hash)
    (same : CCoinsViewCache.SameInputs nSpendHeight a b vin) : CCoinsViewCache.SameInputs nSpendHeight a c vin := by
  intro txin member
  rw [agree txin.prevout (apart txin member)]
  exact same txin member

/-- What was applied to the tip connects to a view that differs from the tip at one hash,
    which none of it spends from. -/
theorem Applied.connects (consistent : mining.Consistent) (applied : mining.Applied vtx view nBlockSize nBlockSigOps nFees)
    {params : ConnectParams} (height : params.nHeight = mining.pindexPrev.nHeight+1) (scripts : params.fScriptChecks = true)
    (relaxes : CTransaction.Relaxes mining.rules.env {P2SH := true} params.flags) {hash : uint256}
    (apart : ∀ tx, mining.Candidate tx → ∀ txin ∈ tx.vin, txin.prevout.hash ≠ hash) {s : ConnectState}
    (agree : AgreeBut hash s.view.ledger mining.chain.pcoinsTip.ledger) (few : s.nSigOps ≤ 100) (none : s.nFees = {}) (unchecked : s.vChecks = []) :
    ∃ s', connectTransactions mining.rules.env params s vtx = .ok s' ∧ AgreeBut hash s'.view.ledger view.ledger ∧ s'.nFees = nFees ∧
      s'.nSigOps ≤ nBlockSigOps ∧ ∀ check ∈ s'.vChecks, check.run mining.rules.env = true := by
  induction applied with
  | nil =>
    refine ⟨s,rfl,?_,none,few,?_⟩
    · rwa [view_ledger]
    · rw [unchecked]
      exact fun _ member => absurd member List.not_mem_nil
  | @snoc vtx view _ _ _ tx view' txundo _ candidate same updates _ limit ih =>
    obtain ⟨mid,runs,agrees,fees,counted,run⟩ := ih
    obtain ⟨p2sh,counts,sigOps⟩ := consistent.counted candidate
    obtain ⟨nValueIn,nValueOut,sums,valued,fee⟩ := consistent.valued candidate
    obtain ⟨_,checked⟩ := consistent.valid _ tx candidate.1
    have same' := sameInputs_agree agrees (apart tx candidate) same
    rw [show (mining.chain.nTipHeight+1 : Int) = (params.nHeight : Int) by rw [consistent.height,height]; push_cast; rfl] at same'
    obtain ⟨s',connects,ledger,fees',counted',vChecks,checks,passed⟩ := connectTransaction_same (consistent.ordinary _ tx candidate.1) same'
      (consistent.nodup candidate.1) checked relaxes scripts counts (by omega) sums valued
    refine ⟨s',?_,?_,?_,by omega,?_⟩
    · rw [connectTransactions_append,runs]
      dsimp only
      rw [connectTransactions,connects]
      rfl
    · rw [ledger,(CTransaction.UpdateCoins_ok updates).1,height]
      exact agrees.apply
    · rw [fees',fees,fee]
    · rw [checks]
      intro check member
      rcases List.mem_append.mp member with before | new
      · exact run check before
      · exact passed check new

/-! ### The coinbase -/

theorem addAssign_empty (x : Cash) : ({} : Cash).addAssign x = x := by
  apply Cash.ext_lookup
  · intro c
    rw [Cash.addAssign,Maps.getElem?_mergeInto]
    cases found : x.locals[c]? <;> simp
  · simp

/-- What is issued at any height is in range and short to write. -/
theorem issue_inRange (nHeight : Nat) : (GetBlockValue nHeight {}).ltAmount 0 = false ∧ (GetBlockValue nHeight {}).gtAmount MAX_MONEY = false ∧
    MoneyRange (GetBlockValue nHeight {}) = true ∧ (GetBlockValue nHeight {}).GetSerializeSize ≤ 18 := by
  rw [GetBlockValue,subsidy]
  split_ifs <;> decide +kernel

theorem compactSize_le (nSize : Nat) : GetSizeOfCompactSize nSize ≤ 9 := by
  rw [GetSizeOfCompactSize]
  split_ifs <;> omega

theorem coinbase_size (mining : Mining) {scriptPubKeyIn : CScript} (short : scriptPubKeyIn.length ≤ 800) :
    (mining.coinbase scriptPubKeyIn {}).GetSerializeSize ≤ 884 := by
  have value := (issue_inRange (mining.pindexPrev.nHeight+1)).2.2.2
  have script := compactSize_le scriptPubKeyIn.length
  simp only [CTransaction.GetSerializeSize,coinbase,List.map_cons,List.map_nil,List.sum_cons,List.sum_nil,CTxIn.GetSerializeSize,
    CTxOut.GetSerializeSize,bytesSize,coinbaseScript,List.length_cons,List.length_nil,show GetSizeOfCompactSize 0 = 1 from rfl,
    show GetSizeOfCompactSize 1 = 1 from rfl,show GetSizeOfCompactSize 2 = 1 from rfl]
  omega

theorem coinbase_CheckTransaction {scriptPubKeyIn : CScript} (short : scriptPubKeyIn.length ≤ 800) :
    (mining.coinbase scriptPubKeyIn {}).CheckTransaction = .ok () ∧
      (mining.coinbase scriptPubKeyIn {}).GetValueOut = .ok (GetBlockValue (mining.pindexPrev.nHeight+1) {}) := by
  obtain ⟨nonneg,below,inRange,_⟩ := issue_inRange (mining.pindexPrev.nHeight+1)
  have size := coinbase_size mining short
  have outputs : CTransaction.checkOutputs {} (mining.coinbase scriptPubKeyIn {}).vout = .ok (GetBlockValue (mining.pindexPrev.nHeight+1) {}) := by
    simp [coinbase,CTransaction.checkOutputs,nonneg,below,addAssign_empty,inRange]
  refine ⟨?_,CTransaction.GetValueOut_of_checkOutputs _ _ _ outputs⟩
  rw [CTransaction.CheckTransaction,if_neg (by simp [coinbase]),if_neg (by simp [coinbase]),
    if_neg (by simp only [MAX_BLOCK_SIZE]; omega),outputs]
  dsimp only
  rw [if_neg (by simp [coinbase,CTransaction.duplicateInputs])]
  rfl

/-- The legacy count of the coinbase is that of its one output. -/
theorem coinbase_sigOps (scriptPubKeyIn : CScript) :
    (mining.coinbase scriptPubKeyIn {}).GetLegacySigOpCount = CScript.GetSigOpCount scriptPubKeyIn false := by
  simp [coinbase,CTransaction.GetLegacySigOpCount,show CScript.GetSigOpCount coinbaseScript false = 0 by decide]

theorem coinbase_IsCoinBase (scriptPubKeyIn : CScript) : (mining.coinbase scriptPubKeyIn {}).IsCoinBase = true := rfl

/-- Where scripts are run as `VerifyScript` runs them, what passes with the scripts of hashes
    passes without them, whether or not its signatures are remembered. -/
theorem relaxes_interpreted {env : Env} (scriptEnv : CTransaction → Nat → Bool → ScriptEnv)
    (interprets : ∀ scriptSig scriptPubKey tx nIn flags, env.VerifyScript scriptSig scriptPubKey tx nIn flags = true ↔
      VerifyScript (scriptEnv tx nIn flags.STRICTENC) flags.P2SH scriptSig scriptPubKey = .ok ()) (fP2SH : Bool) :
    CTransaction.Relaxes env {P2SH := true} {NOCACHE := true,P2SH := fP2SH} := by
  intro scriptSig scriptPubKey tx nIn passes
  rw [interprets,VerifyScript_ok] at passes ⊢
  obtain ⟨stack,evaluated,left,ran,truth,inner⟩ := passes
  refine ⟨stack,evaluated,left,ran,truth,fun pays => inner ?_⟩
  rw [Bool.true_and]
  exact (Bool.and_eq_true_iff.mp pays).2

/-- What a template rests on beside the pool. -/
structure Mineable (mining : Mining) (scriptPubKeyIn : CScript) : Prop where
  /-- The circuit-free part of an amount is never read from outside. -/
  poolPlain : ∀ (hash : uint256) tx, mining.mempool.mapTx[hash]? = some tx → ∀ out ∈ tx.vout, out.nValue.fixed = 0
  tipPlain : ∀ out coin, mining.chain.pcoinsTip.ledger out = some coin → coin.txout.nValue.fixed = 0
  /-- What passes with the scripts of hashes passes without them. -/
  relaxes : ∀ fP2SH, CTransaction.Relaxes mining.rules.env {P2SH := true} {NOCACHE := true,P2SH := fP2SH}
  /-- Nothing in the pool has the hash of the coinbase, or spends from it. -/
  apart : ∀ (hash : uint256) tx, mining.mempool.mapTx[hash]? = some tx → hash ≠ mining.rules.env.TxHash (mining.coinbase scriptPubKeyIn {}) ∧
    ∀ txin ∈ tx.vin, txin.prevout.hash ≠ mining.rules.env.TxHash (mining.coinbase scriptPubKeyIn {})
  unspent : ∀ coins, mining.chain.pcoinsTip.GetCoins (mining.rules.env.TxHash (mining.coinbase scriptPubKeyIn {})) = some coins → coins.IsPruned = true
  short : scriptPubKeyIn.length ≤ 800
  few : CScript.GetSigOpCount scriptPubKeyIn false ≤ 100
  /-- The past blocks are not too far ahead of the clock. -/
  clock : (mining.nMedianTimePast+1 : Int) ≤ mining.now.GetAdjustedTime+2*60*60

theorem sumOut_plain {outs : List CTxOut} {nValueOut result : Cash} (plain : ∀ out ∈ outs, out.nValue.fixed = 0) (start : nValueOut.fixed = 0)
    (summed : CTransaction.sumOut nValueOut outs = .ok result) : result.fixed = 0 := by
  induction outs generalizing nValueOut with
  | nil =>
    obtain rfl := Except.ok.inj summed
    exact start
  | cons out rest ih =>
    rw [CTransaction.sumOut] at summed
    split at summed
    · contradiction
    · refine ih (fun other member => plain other (List.mem_cons_of_mem _ member)) ?_ summed
      rw [Cash.addAssign_fixed,start,plain out (List.mem_cons_self ..)]
      rfl

theorem sumIn_plain {inputs : CCoinsViewCache} {vin : List CTxIn} {nResult result : Cash}
    (plain : ∀ out coin, inputs.ledger out = some coin → coin.txout.nValue.fixed = 0) (there : ∀ txin ∈ vin, inputs.ledger txin.prevout ≠ none)
    (start : nResult.fixed = 0) (summed : CTransaction.sumIn inputs nResult vin = .ok result) : result.fixed = 0 := by
  induction vin generalizing nResult with
  | nil =>
    obtain rfl := Except.ok.inj summed
    exact start
  | cons txin rest ih =>
    obtain ⟨coin,found⟩ := Option.ne_none_iff_exists'.mp (there txin (List.mem_cons_self ..))
    rw [CTransaction.sumIn,CCoinsViewCache.GetOutputFor_of_ledger found] at summed
    refine ih (fun other member => there other (List.mem_cons_of_mem _ member)) ?_ summed
    rw [Cash.addAssign_fixed,start,plain _ coin found]
    rfl

theorem checkTransactions_all {txs : List CTransaction} (each : ∀ tx ∈ txs, tx.CheckTransaction = .ok ()) :
    CBlock.checkTransactions txs = .ok () := by
  induction txs with
  | nil => rfl
  | cons tx rest ih =>
    rw [CBlock.checkTransactions,each tx (List.mem_cons_self ..)]
    exact ih fun other member => each other (List.mem_cons_of_mem _ member)

theorem Mineable.block_size {scriptPubKeyIn : CScript} (mineable : mining.Mineable scriptPubKeyIn)
    (applied : mining.Applied vtx view nBlockSize nBlockSigOps nFees) :
    (mining.block (mining.coinbase scriptPubKeyIn {} :: vtx)).GetSerializeSize ≤ mining.settings.nBlockMaxSize := by
  have limit := applied.limits.1
  rw [applied.sizes.1] at limit
  have coinbase := coinbase_size mining mineable.short
  have count := compactSize_le (mining.coinbase scriptPubKeyIn {} :: vtx).length
  simp only [CBlock.GetSerializeSize,block,List.map_cons,List.sum_cons,bytesSize,List.length_nil,show GetSizeOfCompactSize 0 = 1 from rfl]
  omega

theorem CheckBlock_passes {env : Env} {ambient : Ambient} {block : CBlock} {first : CTransaction} {rest : List CTransaction}
    (vtx : block.vtx = first :: rest) (long : block.vtx.length ≤ MAX_BLOCK_SIZE) (size : block.GetSerializeSize ≤ MAX_BLOCK_SIZE)
    (time : (block.nTime : Int) ≤ ambient.GetAdjustedTime+2*60*60) (coinbase : first.IsCoinBase = true)
    (others : rest.any CTransaction.IsCoinBase = false) (each : ∀ tx ∈ block.vtx, tx.CheckTransaction = .ok ())
    (distinct : (block.vtx.map env.TxHash).Nodup) (sigOps : (block.vtx.map CTransaction.GetLegacySigOpCount).sum ≤ MAX_BLOCK_SIGOPS) :
    block.CheckBlock env ambient false = .ok () := by
  rw [CBlock.CheckBlock,if_neg (not_or.mpr ⟨by simp [vtx],not_or.mpr ⟨Nat.not_lt.mpr long,Nat.not_lt.mpr size⟩⟩),if_neg (by omega),
    if_neg (by simp [vtx,coinbase]),if_neg (by rw [vtx,List.tail_cons,others]; exact Bool.false_ne_true),checkTransactions_all each]
  dsimp only
  rw [if_neg (not_not.mpr distinct),if_neg (Nat.not_lt.mpr sigOps),if_neg (by simp)]

section
variable {scriptPubKeyIn : CScript} (consistent : mining.Consistent) (mineable : mining.Mineable scriptPubKeyIn)
include consistent mineable

theorem Mineable.fee (candidate : mining.Candidate tx) : (mining.fee tx).fixed = 0 := by
  obtain ⟨nValueIn,nValueOut,sums,valued,fee⟩ := consistent.valued candidate
  have plain : ∀ out coin, (mining.mempool.view mining.chain.pcoinsTip).ledger out = some coin → coin.txout.nValue.fixed = 0 := by
    intro out coin found
    rw [poolView_ledger] at found
    cases fetched : mining.chain.pcoinsTip.GetCoins out.hash with
    | some coins =>
      rw [fetched] at found
      refine mineable.tipPlain out coin ?_
      rw [CCoinsViewCache.ledger,fetched]
      exact found
    | none =>
      rw [fetched] at found
      obtain ⟨parent,inside,made⟩ := Option.bind_eq_some_iff.mp found
      obtain ⟨txout,indexed,_,rfl⟩ := (CCoins.coin_eq_some_iff ..).mp made
      exact mineable.poolPlain _ parent inside txout (List.mem_of_getElem? indexed)
  rw [CTransaction.GetValueIn,consistent.ordinary _ tx candidate.1] at sums
  rw [fee,Cash.sub_fixed,sumIn_plain plain (consistent.available candidate.1) rfl sums,
    sumOut_plain (mineable.poolPlain _ tx candidate.1) rfl valued]
  rfl

/-- The fees are added up to nothing. -/
theorem Applied.noFees (applied : mining.Applied vtx view nBlockSize nBlockSigOps nFees) : nFees = {} := by
  induction applied with
  | nil => rfl
  | @snoc _ _ _ _ _ tx _ _ _ candidate _ _ _ _ ih =>
    rw [ih,Fees.addAssign,mineable.fee consistent candidate]
    rfl

theorem Mineable.hashes (applied : mining.Applied vtx view nBlockSize nBlockSigOps nFees) :
    ((mining.coinbase scriptPubKeyIn {} :: vtx).map mining.rules.env.TxHash).Nodup := by
  rw [List.map_cons,List.nodup_cons]
  refine ⟨?_,(applied.orderly consistent).names⟩
  intro member
  obtain ⟨tx,inside,same⟩ := List.mem_map.mp member
  exact (mineable.apart _ tx (applied.candidates tx inside).1).1 same

theorem Mineable.CheckBlock (applied : mining.Applied vtx view nBlockSize nBlockSigOps nFees) :
    (mining.block (mining.coinbase scriptPubKeyIn {} :: vtx)).CheckBlock mining.rules.env mining.ambient false = .ok () := by
  have size := (mineable.block_size applied).trans
    (show mining.settings.nBlockMaxSize ≤ MAX_BLOCK_SIZE by simp only [MinerSettings.nBlockMaxSize,MAX_BLOCK_SIZE]; omega)
  have each : ∀ tx ∈ mining.coinbase scriptPubKeyIn {} :: vtx, tx.CheckTransaction = .ok () := by
    intro tx member
    rcases List.mem_cons.mp member with rfl | inside
    · exact (coinbase_CheckTransaction mineable.short).1
    · exact consistent.checked _ tx (applied.candidates tx inside).1
  have long : (mining.coinbase scriptPubKeyIn {} :: vtx).length ≤ MAX_BLOCK_SIZE := by
    have bytes := List.length_le_sum_of_one_le ((mining.coinbase scriptPubKeyIn {} :: vtx).map CTransaction.GetSerializeSize) (by
      intro n member
      obtain ⟨tx,_,rfl⟩ := List.mem_map.mp member
      rw [CTransaction.GetSerializeSize]
      omega)
    rw [List.length_map] at bytes
    refine (bytes.trans ?_).trans size
    rw [CBlock.GetSerializeSize]
    exact Nat.le_trans (Nat.le_trans (Nat.le_add_left ..) (Nat.le_add_left ..)) (Nat.le_add_right_of_le (Nat.le_add_right ..))
  have time : ((mining.block (mining.coinbase scriptPubKeyIn {} :: vtx)).nTime : Int) ≤ mining.ambient.GetAdjustedTime+2*60*60 := by
    have clock := mineable.clock
    show (mining.nTime : Int) ≤ mining.now.GetAdjustedTime+2*60*60
    rw [nTime]
    have low := Nat.mod_le (max (mining.nMedianTimePast+1 : Int) mining.now.GetAdjustedTime).toNat (2^32)
    omega
  have others : (vtx.any CTransaction.IsCoinBase) = false := by
    rw [List.any_eq_false]
    intro tx inside
    rw [consistent.ordinary _ tx (applied.candidates tx inside).1]
    exact Bool.false_ne_true
  have sigOps : ((mining.coinbase scriptPubKeyIn {} :: vtx).map CTransaction.GetLegacySigOpCount).sum ≤ MAX_BLOCK_SIGOPS := by
    have limit := applied.limits.2
    rw [applied.sizes.2] at limit
    have legacy : (vtx.map CTransaction.GetLegacySigOpCount).sum ≤ (vtx.map mining.sigOps).sum :=
      List.sum_le_sum fun tx _ => by rw [Mining.sigOps]; omega
    have script := mineable.few
    rw [List.map_cons,List.sum_cons,coinbase_sigOps]
    omega
  exact CheckBlock_passes rfl long size time (coinbase_IsCoinBase scriptPubKeyIn) others each (mineable.hashes consistent applied) sigOps

/-- The coinbase first, then what was applied to the tip. -/
theorem Mineable.connects (applied : mining.Applied vtx view nBlockSize nBlockSigOps nFees) (params : ConnectParams)
    (height : params.nHeight = mining.pindexPrev.nHeight+1) (scripts : params.fScriptChecks = true)
    (flags : ∃ fP2SH, params.flags = {NOCACHE := true,P2SH := fP2SH}) :
    ∃ s, connectTransactions mining.rules.env params {view := mining.view} (mining.coinbase scriptPubKeyIn {} :: vtx) = .ok s ∧ s.nFees = {} ∧
      ∀ check ∈ s.vChecks, check.run mining.rules.env = true := by
  obtain ⟨fP2SH,flags⟩ := flags
  have relaxes : CTransaction.Relaxes mining.rules.env {P2SH := true} params.flags := flags ▸ mineable.relaxes fP2SH
  have few : (mining.coinbase scriptPubKeyIn {}).GetLegacySigOpCount ≤ 100 := by
    rw [coinbase_sigOps]
    exact mineable.few
  obtain ⟨first,txundo,updates⟩ : ∃ first txundo, (mining.coinbase scriptPubKeyIn {}).UpdateCoins mining.view params.nHeight
      (mining.rules.env.TxHash (mining.coinbase scriptPubKeyIn {})) = .ok (first,txundo) :=
    CTransaction.UpdateCoins_succeeds _ _ List.nodup_nil fun _ member => absurd member List.not_mem_nil
  have ledger := (CTransaction.UpdateCoins_ok updates).1
  have begins : connectTransaction mining.rules.env params {view := mining.view} (mining.coinbase scriptPubKeyIn {}) =
      .ok {view := first,nSigOps := 0+(mining.coinbase scriptPubKeyIn {}).GetLegacySigOpCount} := by
    rw [connectTransaction]
    dsimp only
    rw [if_neg (by simp only [MAX_BLOCK_SIGOPS,MAX_BLOCK_SIZE]; omega),coinbase_IsCoinBase,if_pos rfl,updates]
  have agree : AgreeBut (mining.rules.env.TxHash (mining.coinbase scriptPubKeyIn {})) first.ledger mining.chain.pcoinsTip.ledger := by
    intro out apart
    rw [ledger,CTransaction.applyTo,Ledger.step,if_neg (by simpa using apart),view_ledger]
    exact if_neg List.not_mem_nil
  obtain ⟨s,runs,_,fees,_,passed⟩ := applied.connects consistent height scripts relaxes
    (fun tx candidate => (mineable.apart _ tx candidate.1).2) (s := {view := first,nSigOps := 0+(mining.coinbase scriptPubKeyIn {}).GetLegacySigOpCount})
    agree (by dsimp only; omega) rfl rfl
  refine ⟨s,?_,by rw [fees,applied.noFees consistent mineable],passed⟩
  rw [connectTransactions,begins]
  exact runs

/-- `ConnectBlock` accepts the template. -/
theorem Mineable.ConnectBlock (applied : mining.Applied vtx view nBlockSize nBlockSigOps nFees) :
    let block := mining.block (mining.coinbase scriptPubKeyIn {} :: vtx)
    ∃ after, (block.ConnectBlock mining.rules.env mining.ambient {} (mining.indexDummy block) mining.view true).result = .ok after := by
  intro block
  obtain ⟨s,runs,fees,passed⟩ := mineable.connects consistent applied (CBlock.connectParams mining.ambient (mining.indexDummy block)) rfl
    (by simp [CBlock.connectParams,GetTotalBlocksEstimate]) ⟨_,rfl⟩
  have tip : (mining.indexDummy block).pprev = mining.view.GetBestBlock := consistent.tip.symm
  have fresh : block.overwrites mining.rules.env mining.view = false := by
    rw [CBlock.overwrites,List.any_eq_false]
    intro tx member
    rw [view_GetCoins]
    rcases List.mem_cons.mp member with rfl | inside
    · cases fetched : mining.chain.pcoinsTip.GetCoins (mining.rules.env.TxHash (mining.coinbase scriptPubKeyIn {})) with
      | none => exact Bool.false_ne_true
      | some coins => simp [mineable.unspent coins fetched]
    · rw [consistent.unknown (applied.candidates tx inside)]
      exact Bool.false_ne_true
  have reward : block.checkReward mining.rules.env (mining.indexDummy block).nHeight s = .ok () := by
    have out : block.coinbaseOut = .ok (GetBlockValue (mining.indexDummy block).nHeight {}) := (coinbase_CheckTransaction mineable.short).2
    have all : s.vChecks.all (CScriptCheck.run mining.rules.env) = true := List.all_eq_true.mpr passed
    rw [CBlock.checkReward,out]
    dsimp only
    rw [fees,Cash.gt_irrefl,all]
    rfl
  rw [CBlock.ConnectBlock,CBlock.ConnectTransactions,Bool.not_true,mineable.CheckBlock consistent applied]
  dsimp only
  rw [if_neg (not_not.mpr tip)]
  by_cases genesis : block.GetHash mining.rules.env = hashGenesisBlock
  · rw [if_pos genesis]
    exact ⟨mining.view.SetBestBlock (some (mining.indexDummy block).hashBlock),by simp [genesis]⟩
  · rw [if_neg genesis,fresh,if_neg Bool.false_ne_true,show block.vtx = mining.coinbase scriptPubKeyIn {} :: vtx from rfl,runs]
    dsimp only
    rw [reward]
    exact ⟨s.view,by simp⟩

end

/-! ### The template -/

/-- In a pool that fits the chain the loops end, and the end of the work is all that can fail. -/
theorem CreateNewBlock_assembled (consistent : mining.Consistent) (scriptPubKeyIn : CScript) :
    ∃ assembly, mining.CreateNewBlock scriptPubKeyIn = mining.finish scriptPubKeyIn assembly ∧ (mining.Assembled assembly fun _ => False) ∧
      assembly.vecPriority = [] := by
  obtain ⟨filled,fills,collected⟩ := fill_ok consistent
  obtain ⟨assembled,enough⟩ := start_ok collected
  obtain ⟨assembly,runs,assembled',empty⟩ := assemble_ok consistent assembled enough
  refine ⟨assembly,?_,assembled',empty⟩
  rw [CreateNewBlock,fills]
  dsimp only
  rw [runs]

/-- The template that the loop leads to. -/
def Template (mining : Mining) (scriptPubKeyIn : CScript) (txs : List CTransaction) : CBlockTemplate where
  block := mining.block (mining.coinbase scriptPubKeyIn {} :: txs)
  vTxFees := Fees.neg {} :: txs.map mining.fee
  vTxSigOps := (mining.coinbase scriptPubKeyIn {}).GetLegacySigOpCount :: txs.map mining.sigOps

theorem CreateNewBlock_finished {scriptPubKeyIn : CScript} (consistent : mining.Consistent) (mineable : mining.Mineable scriptPubKeyIn) :
    ∃ assembly, mining.CreateNewBlock scriptPubKeyIn = .ok (mining.Template scriptPubKeyIn assembly.vtx) ∧
      mining.Assembled assembly fun _ => False := by
  obtain ⟨assembly,made,assembled,_⟩ := CreateNewBlock_assembled consistent scriptPubKeyIn
  obtain ⟨after,connects⟩ := mineable.ConnectBlock consistent assembled.applied
  refine ⟨assembly,?_,assembled⟩
  rw [made,finish,assembled.applied.noFees consistent mineable,connects,assembled.counts,assembled.fees]
  rfl

/-- `CreateNewBlock` gives a template that `ConnectBlock` accepts: its transactions are from
    the pool, each once and after those it spends from, no output is spent twice, and the
    limits on the size and on the checks of signatures are kept. The coinbase claims no fees. -/
theorem CreateNewBlock_valid {scriptPubKeyIn : CScript} (consistent : mining.Consistent) (mineable : mining.Mineable scriptPubKeyIn) :
    ∃ template txs, mining.CreateNewBlock scriptPubKeyIn = .ok template ∧ template = mining.Template scriptPubKeyIn txs ∧
      (∃ after, (template.block.ConnectBlock mining.rules.env mining.ambient {} (mining.indexDummy template.block) mining.view true).result = .ok after) ∧
      (∀ tx ∈ txs, mining.Candidate tx) ∧ (txs.map mining.rules.env.TxHash).Nodup ∧ (txs.flatMap CTransaction.prevouts).Nodup ∧
      (∀ before tx, before ++ [tx] <+: txs → ∀ hash, mining.Awaits tx hash → ∃ parent ∈ before, mining.rules.env.TxHash parent = hash) ∧
      template.block.GetSerializeSize ≤ mining.settings.nBlockMaxSize ∧ template.vTxSigOps.sum < MAX_BLOCK_SIGOPS := by
  obtain ⟨assembly,made,assembled⟩ := CreateNewBlock_finished consistent mineable
  have applied := assembled.applied
  have orderly := applied.orderly consistent
  refine ⟨_,assembly.vtx,made,rfl,mineable.ConnectBlock consistent applied,applied.candidates,orderly.names,orderly.once,?_,
    mineable.block_size applied,?_⟩
  · rintro before tx isPrefix hash ⟨⟨txin,member,rfl⟩,absent⟩
    have takes : txin.prevout ∈ tx.prevouts := by
      rw [consistent.prevouts (applied.candidates tx (isPrefix.subset (List.mem_append_right _ (List.mem_singleton_self _)))).1]
      exact List.mem_map.mpr ⟨txin,member,rfl⟩
    rcases orderly.earlier before tx isPrefix txin.prevout takes with there | earlier
    · rw [CCoinsViewCache.ledger,absent] at there
      exact absurd rfl there
    · exact earlier
  · have limit := applied.limits.2
    rw [applied.sizes.2] at limit
    have script := mineable.few
    rw [Template,List.sum_cons,coinbase_sigOps]
    omega

end

/-! ### Two transactions -/

private def minerRules : PoolRules where
  env := ⟨fun tx => 100+tx.nLockTime,fun _ => 0,fun _ _ => 0,fun _ _ _ _ _ => true,fun _ _ _ => true⟩
  IsPushOnly := fun _ => true
  HasCanonicalPushes := fun _ => true
  IsStandard := fun _ => true
  IsInputStandard := fun _ _ _ => true

private def euros : CTxOut := ⟨Cash.ofMoney (EUR,10),[]⟩
private def minedTx : CTransaction := ⟨1,[⟨⟨1,0⟩,[],0⟩],[euros],1,[]⟩
private def nextTx : CTransaction := ⟨1,[⟨⟨101,0⟩,[],0⟩],[euros],2,[]⟩

private def minerTip : CCoinsViewCache where
  base := ⟨fun hash => if hash = 1 then some {vout := [euros],nHeight := 1,nVersion := 1} else none,some 7⟩

private def minerPool : CTxMemPool := (({} : CTxMemPool).addUnchecked 101 minedTx).addUnchecked 102 nextTx

/-- With one value in the queue there is nothing to reorder. -/
private def keepOrder : HeapRules where
  make_heap := fun _ values => values
  push_heap := fun _ values => values
  pop_heap := fun _ values => values.tail ++ values.take 1
  make_perm := fun _ values => .refl values
  push_perm := fun _ values => .refl values
  pop_last := fun _ _ rest => ⟨rest,rfl,.refl rest⟩

private def miner : Mining where
  rules := minerRules
  chain := ⟨minerTip,5,5⟩
  now := ⟨1000000,false⟩
  mempool := minerPool
  pindexPrev := {hashBlock := 7,pprev := some 6,nHeight := 5,nVersion := 3,hashMerkleRoot := 0,nTime := 0}
  nMedianTimePast := 999999
  heap := keepOrder

private theorem miner_txs {hash : uint256} {tx : CTransaction} (inside : miner.mempool.mapTx[hash]? = some tx) :
    (hash = 101 ∧ tx = minedTx) ∨ hash = 102 ∧ tx = nextTx := by
  rw [show miner.mempool.mapTx = ((∅ : ExtTreeMap uint256 CTransaction).insert 101 minedTx).insert 102 nextTx from rfl,
    CTxMemPool.mapTx_insert] at inside
  split at inside
  next same => exact .inr ⟨same.symm,(Option.some.inj inside).symm⟩
  · rw [CTxMemPool.mapTx_insert] at inside
    split at inside
    next same => exact .inl ⟨same.symm,(Option.some.inj inside).symm⟩
    · rw [ExtTreeMap.getElem?_empty] at inside
      contradiction

private theorem miner_linked : CTxMemPool.Linked minerRules.env minerPool := by
  have first : CTxMemPool.Linked minerRules.env (({} : CTxMemPool).addUnchecked 101 minedTx) :=
    @CTxMemPool.Linked.addUnchecked _ _ minedTx CTxMemPool.linked_empty ⟨by decide,fun other inside => by contradiction,fun txin _ hash i found => by
      rw [ExtTreeMap.getElem?_empty] at found
      contradiction⟩
  refine @CTxMemPool.Linked.addUnchecked _ _ nextTx first ⟨by decide,?_,?_⟩
  · intro other inside
    have : (({} : CTxMemPool).addUnchecked 101 minedTx).mapTx[(102 : uint256)]? = none := by decide +kernel
    exact absurd (this.symm.trans inside) (Option.some_ne_none other).symm
  · intro txin member hash i found
    obtain rfl := List.mem_singleton.mp member
    exact absurd found (by
      have : (({} : CTxMemPool).addUnchecked 101 minedTx).mapNextTx[(⟨101,0⟩ : COutPoint)]? = none := by decide +kernel
      simp [this])

private theorem miner_consistent : miner.Consistent where
  tip := rfl
  height := rfl
  linked := miner_linked
  fresh := by
    intro hash inside
    obtain ⟨tx,found⟩ := CTxMemPool.mem_mapTx.mp inside
    rcases miner_txs found with ⟨rfl,_⟩ | ⟨rfl,_⟩ <;> rfl
  checked := by
    intro hash tx found
    rcases miner_txs found with ⟨_,rfl⟩ | ⟨_,rfl⟩ <;> decide +kernel
  ordinary := by
    intro hash tx found
    rcases miner_txs found with ⟨_,rfl⟩ | ⟨_,rfl⟩ <;> rfl
  valid := by
    intro hash tx found
    rcases miner_txs found with ⟨_,rfl⟩ | ⟨_,rfl⟩
    · exact ⟨[],by decide +kernel⟩
    · exact ⟨[],by decide +kernel⟩

private theorem miner_mineable : miner.Mineable [] where
  poolPlain := by
    intro hash tx found
    rcases miner_txs found with ⟨_,rfl⟩ | ⟨_,rfl⟩ <;> decide
  tipPlain := by
    intro out coin found
    rw [CCoinsViewCache.ledger] at found
    split at found
    · contradiction
    next coins fetched =>
      obtain ⟨txout,indexed,_,rfl⟩ := (CCoins.coin_eq_some_iff ..).mp found
      have only : coins.vout = [euros] := by
        change (if out.hash = 1 then some {vout := [euros],nHeight := 1,nVersion := 1} else none) = some coins at fetched
        split at fetched
        · rw [← Option.some.inj fetched]
        · contradiction
      rw [only] at indexed
      rw [List.mem_singleton.mp (List.mem_of_getElem? indexed)]
      rfl
  relaxes := fun _ _ _ _ _ passes => passes
  apart := by
    intro hash tx found
    rcases miner_txs found with ⟨rfl,rfl⟩ | ⟨rfl,rfl⟩ <;> decide
  unspent := by
    intro coins fetched
    contradiction
  short := by decide
  few := by decide
  clock := by decide

theorem CreateNewBlock_valid_two : ∃ template txs, miner.CreateNewBlock [] = .ok template ∧ (∀ tx ∈ txs, miner.Candidate tx) ∧
    template.block.vtx = miner.coinbase [] {} :: txs := by
  obtain ⟨_,txs,made,rfl,_,candidates,_⟩ := CreateNewBlock_valid miner_consistent miner_mineable
  exact ⟨_,txs,made,candidates,rfl⟩

end Mining
end Tetra
