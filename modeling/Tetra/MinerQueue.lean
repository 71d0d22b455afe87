import Mathlib
import Tetra.MempoolLinks
import Tetra.Miner
import Tetra.SpentInputs

/-!
How the queue of the miner is filled and refilled: a transaction waits exactly for those
it spends from that are in the pool and not in the block yet, and moves to the queue when
the last of them goes into the block.
-/
namespace Tetra
open Std

namespace Mining

/-- In the pool, and final. -/
def Candidate (mining : Mining) (tx : CTransaction) : Prop :=
  mining.mempool.mapTx[mining.rules.env.TxHash tx]? = some tx ∧ tx.IsFinal mining.chain mining.now = true

/-- Some of the inputs spend from a transaction that is not in the chain. -/
def AwaitsIn (mining : Mining) (vin : List CTxIn) (hash : uint256) : Prop :=
  (∃ txin ∈ vin, txin.prevout.hash = hash) ∧ mining.chain.pcoinsTip.GetCoins hash = none

def Awaits (mining : Mining) (tx : CTransaction) (hash : uint256) : Prop := mining.AwaitsIn tx.vin hash

/-- The output that an input spends, in the chain or in the pool. -/
def spentOutput (mining : Mining) (txin : CTxIn) : Option CTxOut :=
  match mining.chain.pcoinsTip.GetCoins txin.prevout.hash with
  | some coins => coins.vout[txin.prevout.n]?
  | none => (mining.mempool.mapTx[txin.prevout.hash]?).bind fun parent => parent.vout[txin.prevout.n]?

def totalIn (mining : Mining) (vin : List CTxIn) : Cash :=
  (vin.filterMap mining.spentOutput).foldl (fun nTotalIn out => nTotalIn.addAssign out.nValue) {}

/-- The fee for each kilobyte. -/
def feePerKb (mining : Mining) (tx : CTransaction) : Fees :=
  match tx.GetValueOut with
  | .error _ => {}
  | .ok nValueOut => ((mining.totalIn tx.vin).sub nValueOut).divDouble (Double.round (tx.GetSerializeSize/1000))

/-- The pool fits the tip of the chain: its transactions are not in the chain, and pass the
    checks on the outputs that the chain and the pool have for them. -/
structure Consistent (mining : Mining) : Prop where
  tip : mining.chain.pcoinsTip.GetBestBlock = some mining.pindexPrev.hashBlock
  height : mining.chain.nTipHeight = mining.pindexPrev.nHeight
  linked : CTxMemPool.Linked mining.rules.env mining.mempool
  fresh : ∀ hash ∈ mining.mempool.mapTx, mining.chain.pcoinsTip.GetCoins hash = none
  checked : ∀ (hash : uint256) tx, mining.mempool.mapTx[hash]? = some tx → tx.CheckTransaction = .ok ()
  ordinary : ∀ (hash : uint256) tx, mining.mempool.mapTx[hash]? = some tx → tx.IsCoinBase = false
  valid : ∀ (hash : uint256) tx, mining.mempool.mapTx[hash]? = some tx →
    ∃ checks, tx.CheckInputs mining.rules.env (mining.mempool.view mining.chain.pcoinsTip) (mining.chain.nTipHeight+1) true
      {P2SH := true} false = .ok checks

section
variable {mining : Mining}

@[simp] theorem view_GetCoins (hash : uint256) : mining.view.GetCoins hash = mining.chain.pcoinsTip.GetCoins hash := by
  simp [view,CCoinsViewCache.GetCoins,CCoinsViewCache.toView]

theorem awaitsIn_append {vin vin' : List CTxIn} {hash : uint256} :
    mining.AwaitsIn (vin ++ vin') hash ↔ mining.AwaitsIn vin hash ∨ mining.AwaitsIn vin' hash := by
  simp only [AwaitsIn,List.mem_append,or_and_right,exists_or]

theorem awaitsIn_single {txin : CTxIn} {hash : uint256} :
    mining.AwaitsIn [txin] hash ↔ txin.prevout.hash = hash ∧ mining.chain.pcoinsTip.GetCoins hash = none := by
  simp [AwaitsIn]

theorem totalIn_concat {vin : List CTxIn} {txin : CTxIn} {out : CTxOut} (there : mining.spentOutput txin = some out) :
    mining.totalIn (vin ++ [txin]) = (mining.totalIn vin).addAssign out.nValue := by
  rw [totalIn,List.filterMap_append,List.foldl_append]
  simp [totalIn,there]

/-! ### The queue is filled -/

/-- After some inputs of a transaction: it waits for those of their transactions that are
    not in the chain. -/
structure Scanned (mining : Mining) (tx : CTransaction) (waiting : Waiting) (vin : List CTxIn) (scan : InputScan) : Prop where
  total : scan.nTotalIn = mining.totalIn vin
  free : scan.porphan = none → scan.waiting = waiting ∧ ∀ hash, ¬mining.AwaitsIn vin hash
  waits : ∀ porphan, scan.porphan = some porphan → porphan = waiting.vOrphan.length ∧ (∃ hash, mining.AwaitsIn vin hash) ∧
    (∃ setDependsOn, scan.waiting.vOrphan = waiting.vOrphan ++ [some {tx := tx,setDependsOn := setDependsOn}] ∧
      ∀ hash, hash ∈ setDependsOn ↔ mining.AwaitsIn vin hash) ∧
    ∀ hash i, i ∈ scan.waiting.mapDependers.getD hash [] ↔
      i ∈ waiting.mapDependers.getD hash [] ∨ i = porphan ∧ mining.AwaitsIn vin hash

theorem modify_last {α : Type*} (front : List α) (last : α) (f : α → α) : (front ++ [last]).modify front.length f = front ++ [f last] := by
  induction front with
  | nil => rfl
  | cons a front ih =>
    rw [List.cons_append,List.length_cons,List.modify_succ_cons,ih]
    rfl

theorem mem_depend {waiting : Waiting} {porphan i : Nat} {hash other : uint256} :
    i ∈ (waiting.depend porphan hash).mapDependers.getD other [] ↔
      i ∈ waiting.mapDependers.getD other [] ∨ i = porphan ∧ hash = other := by
  show i ∈ (waiting.mapDependers.insert hash (waiting.mapDependers.getD hash [] ++ [porphan])).getD other [] ↔ _
  rw [ExtTreeMap.getD_insert]
  simp only [Std.compare_eq_iff_eq]
  by_cases same : hash = other
  · subst same
    simp
  · simp [same]

/-- The set of a new orphan grows by what it depends on. -/
theorem depend_last {waiting : Waiting} {front : List (Option COrphan)} {orphan : COrphan} {hash : uint256}
    (last : waiting.vOrphan = front ++ [some orphan]) :
    (waiting.depend front.length hash).vOrphan = front ++ [some {orphan with setDependsOn := orphan.setDependsOn.insert hash}] := by
  show waiting.vOrphan.modify front.length _ = _
  rw [last,modify_last]
  rfl

theorem Scanned.depend {tx : CTransaction} {before waiting : Waiting} {vin : List CTxIn} {txin : CTxIn} {setDependsOn : ExtTreeSet uint256}
    (absent : mining.chain.pcoinsTip.GetCoins txin.prevout.hash = none)
    (last : waiting.vOrphan = before.vOrphan ++ [some {tx := tx,setDependsOn := setDependsOn}])
    (awaited : ∀ hash, hash ∈ setDependsOn ↔ mining.AwaitsIn vin hash)
    (named : ∀ hash i, i ∈ waiting.mapDependers.getD hash [] ↔
      i ∈ before.mapDependers.getD hash [] ∨ i = before.vOrphan.length ∧ mining.AwaitsIn vin hash) {nTotalIn : Cash} {dPriority : ℚ}
    (total : nTotalIn = mining.totalIn (vin ++ [txin])) :
    mining.Scanned tx before (vin ++ [txin])
      ⟨waiting.depend before.vOrphan.length txin.prevout.hash,some before.vOrphan.length,dPriority,nTotalIn⟩ := by
  have one : mining.AwaitsIn [txin] txin.prevout.hash := awaitsIn_single.mpr ⟨rfl,absent⟩
  have first {hash : uint256} : mining.AwaitsIn [txin] hash ↔ txin.prevout.hash = hash := by
    rw [awaitsIn_single]
    exact ⟨And.left,fun same => ⟨same,same ▸ absent⟩⟩
  refine ⟨total,fun none => absurd none (Option.some_ne_none _),?_⟩
  intro porphan same
  obtain rfl := Option.some.inj same
  refine ⟨rfl,⟨_,awaitsIn_append.mpr (.inr one)⟩,⟨_,depend_last last,?_⟩,?_⟩
  · intro hash
    rw [ExtTreeSet.mem_insert,awaitsIn_append,awaited,first,Std.compare_eq_iff_eq,or_comm]
  · intro hash i
    rw [mem_depend,named,awaitsIn_append,first]
    tauto

/-- The loop over the inputs runs to its end when each has its output somewhere. -/
theorem scanInputs_ok {tx : CTransaction} {waiting : Waiting} {vin rest : List CTxIn} {scan : InputScan}
    (there : ∀ txin ∈ rest, mining.spentOutput txin ≠ none) (scanned : mining.Scanned tx waiting vin scan) :
    ∃ scan', mining.scanInputs tx scan rest = .ok (scan',false) ∧ mining.Scanned tx waiting (vin ++ rest) scan' := by
  induction rest generalizing vin scan with
  | nil => exact ⟨scan,rfl,by rwa [List.append_nil]⟩
  | cons txin rest ih =>
    obtain ⟨out,spends⟩ := Option.ne_none_iff_exists'.mp (there txin (List.mem_cons_self ..))
    have later : ∀ other ∈ rest, mining.spentOutput other ≠ none := fun other member => there other (List.mem_cons_of_mem _ member)
    have total {nTotalIn : Cash} (same : nTotalIn = mining.totalIn vin) : nTotalIn.addAssign out.nValue = mining.totalIn (vin ++ [txin]) := by
      rw [totalIn_concat spends,same]
    rw [show vin ++ txin :: rest = vin ++ [txin] ++ rest by simp]
    rw [scanInputs,view_GetCoins]
    rw [spentOutput] at spends
    cases fetched : mining.chain.pcoinsTip.GetCoins txin.prevout.hash with
    | some coins =>
      rw [fetched] at spends
      dsimp only at spends
      dsimp only
      rw [spends]
      dsimp only
      apply ih later
      have known : ∀ hash, mining.AwaitsIn (vin ++ [txin]) hash ↔ mining.AwaitsIn vin hash := by
        intro hash
        rw [awaitsIn_append,awaitsIn_single,or_iff_left]
        rintro ⟨same,absent⟩
        rw [← same,fetched] at absent
        contradiction
      refine ⟨total scanned.total,?_,?_⟩
      · intro none
        simp only [known]
        exact scanned.free none
      · simp only [known]
        exact scanned.waits
    | none =>
      rw [fetched] at spends
      dsimp only at spends
      obtain ⟨parent,inside,indexed⟩ := Option.bind_eq_some_iff.mp spends
      rw [inside]
      dsimp only
      cases already : scan.porphan with
      | some porphan =>
        obtain ⟨rfl,_,⟨setDependsOn,last,awaited⟩,named⟩ := scanned.waits porphan already
        dsimp only
        rw [indexed]
        exact ih later (.depend fetched last awaited named (total scanned.total))
      | none =>
        obtain ⟨same,none⟩ := scanned.free already
        dsimp only [Waiting.add]
        rw [indexed,same]
        dsimp only
        refine ih later (.depend fetched rfl ?_ ?_ (total scanned.total))
        · intro hash
          exact iff_of_false ExtTreeSet.not_mem_empty (none hash)
        · intro hash i
          rw [or_iff_left]
          exact fun waits => none hash waits.2

/-- The queue and what waits, when some transactions are in the block. An orphan waits for
    the others of those it depends on, and is found under each of them. -/
structure Queued (mining : Mining) (waiting : Waiting) (vecPriority : List TxPriority) (inside : uint256 → Prop) : Prop where
  holds : ∀ i < waiting.vOrphan.length, ∃ orphan, waiting.vOrphan[i]? = some (some orphan)
  named : ∀ hash, ∀ i ∈ waiting.mapDependers.getD hash [], i < waiting.vOrphan.length
  orphans : ∀ i orphan, waiting.vOrphan[i]? = some (some orphan) → mining.Candidate orphan.tx ∧ orphan.dFeePerKb = mining.feePerKb orphan.tx ∧
    ∀ hash, (hash ∈ orphan.setDependsOn ↔ mining.Awaits orphan.tx hash ∧ ¬inside hash) ∧
      (hash ∈ orphan.setDependsOn → i ∈ waiting.mapDependers.getD hash [])
  entries : ∀ entry ∈ vecPriority, mining.Candidate entry.tx ∧ entry.dFeePerKb = mining.feePerKb entry.tx ∧
    ∀ hash, mining.Awaits entry.tx hash → inside hash

/-- It is in the queue, or it waits. -/
def Held (waiting : Waiting) (vecPriority : List TxPriority) (tx : CTransaction) : Prop :=
  (∃ entry ∈ vecPriority, entry.tx = tx) ∨
    ∃ (i : Nat) (orphan : COrphan), waiting.vOrphan[i]? = some (some orphan) ∧ orphan.tx = tx ∧ orphan.setDependsOn ≠ ∅

/-- What the loop over the pool has made of the transactions it came to. -/
structure Collected (mining : Mining) (filled : Filled) (txs : List CTransaction) : Prop where
  queued : mining.Queued filled.waiting filled.vecPriority fun _ => False
  every : ∀ tx ∈ txs, tx.IsFinal mining.chain mining.now = true → Held filled.waiting filled.vecPriority tx
  few : filled.vecPriority.length+filled.waiting.vOrphan.length ≤ txs.length

theorem getElem?_concat {α : Type*} {front : List α} {last a : α} {i : Nat} :
    (front ++ [last])[i]? = some a ↔ front[i]? = some a ∨ i = front.length ∧ last = a := by
  rcases Nat.lt_trichotomy i front.length with low | rfl | high
  · rw [List.getElem?_append_left low]
    simp [Nat.ne_of_lt low]
  · simp
  · rw [List.getElem?_append_right (Nat.le_of_lt high),List.getElem?_eq_none (Nat.le_of_lt high),
      List.getElem?_eq_none (by rw [List.length_singleton]; omega)]
    simp [Nat.ne_of_gt high]

/-- What is held stays held when the queue grows, and an orphan is added. -/
theorem Held.mono {waiting waiting' : Waiting} {vecPriority vecPriority' : List TxPriority} {tx : CTransaction}
    (held : Held waiting vecPriority tx) (more : ∀ entry ∈ vecPriority, entry ∈ vecPriority')
    (orphans : ∀ (i : Nat) (orphan : COrphan), waiting.vOrphan[i]? = some (some orphan) → waiting'.vOrphan[i]? = some (some orphan)) :
    Held waiting' vecPriority' tx := by
  rcases held with ⟨entry,member,same⟩ | ⟨i,orphan,there,same,waits⟩
  · exact .inl ⟨entry,more entry member,same⟩
  · exact .inr ⟨i,orphan,orphans i orphan there,same,waits⟩

/-- A transaction that waits for others goes to the orphans. -/
theorem Queued.wait {waiting after : Waiting} {vecPriority : List TxPriority}
    (queued : mining.Queued waiting vecPriority fun _ => False) (orphan : COrphan) (last : after.vOrphan = waiting.vOrphan ++ [some orphan])
    (candidate : mining.Candidate orphan.tx) (rate : orphan.dFeePerKb = mining.feePerKb orphan.tx)
    (awaited : ∀ hash, hash ∈ orphan.setDependsOn ↔ mining.Awaits orphan.tx hash)
    (named : ∀ hash i, i ∈ after.mapDependers.getD hash [] ↔
      i ∈ waiting.mapDependers.getD hash [] ∨ i = waiting.vOrphan.length ∧ mining.Awaits orphan.tx hash) :
    mining.Queued after vecPriority fun _ => False := by
  refine ⟨?_,?_,?_,queued.entries⟩
  · intro i low
    rw [last,List.length_append,List.length_singleton] at low
    simp only [last,getElem?_concat]
    by_cases before : i < waiting.vOrphan.length
    · obtain ⟨other,there⟩ := queued.holds i before
      exact ⟨other,.inl there⟩
    · exact ⟨orphan,.inr ⟨by omega,rfl⟩⟩
  · intro hash i member
    rw [last,List.length_append,List.length_singleton]
    rcases (named hash i).mp member with before | ⟨rfl,_⟩
    · have := queued.named hash i before
      omega
    · omega
  · intro i other there
    rw [last,getElem?_concat] at there
    rcases there with before | ⟨rfl,same⟩
    · obtain ⟨known,fee,depends⟩ := queued.orphans i other before
      refine ⟨known,fee,fun hash => ⟨(depends hash).1,?_⟩⟩
      intro member
      exact (named hash i).mpr (.inl ((depends hash).2 member))
    · obtain rfl := Option.some.inj same
      refine ⟨candidate,rate,fun hash => ⟨?_,?_⟩⟩
      · rw [awaited]
        simp
      · intro member
        exact (named hash _).mpr (.inr ⟨rfl,(awaited hash).mp member⟩)

theorem Queued.enqueue {waiting : Waiting} {vecPriority : List TxPriority} {entry : TxPriority}
    (queued : mining.Queued waiting vecPriority fun _ => False) (candidate : mining.Candidate entry.tx)
    (rate : entry.dFeePerKb = mining.feePerKb entry.tx) (ready : ∀ hash, ¬mining.Awaits entry.tx hash) :
    mining.Queued waiting (vecPriority ++ [entry]) fun _ => False := by
  refine ⟨queued.holds,queued.named,queued.orphans,?_⟩
  intro other member
  rcases List.mem_append.mp member with before | last
  · exact queued.entries other before
  · obtain rfl := List.mem_singleton.mp last
    exact ⟨candidate,rate,ready⟩

/-! ### In a pool that fits the chain -/

/-- The coin that an input spends: an output of the chain, or one of the pool. -/
theorem poolView_ledger (out : COutPoint) : (mining.mempool.view mining.chain.pcoinsTip).ledger out =
    match mining.chain.pcoinsTip.GetCoins out.hash with
    | some coins => coins.coin out.n
    | none => (mining.mempool.mapTx[out.hash]?).bind fun parent => parent.coinAt MEMPOOL_HEIGHT out.n := by
  rw [CCoinsViewCache.ledger]
  have read : (mining.mempool.view mining.chain.pcoinsTip).GetCoins out.hash =
      (mining.chain.pcoinsTip.GetCoins out.hash).or
        ((mining.mempool.mapTx[out.hash]?).map fun tx => CCoins.ofTransaction tx MEMPOOL_HEIGHT) := by
    simp [CTxMemPool.view,CCoinsViewCache.GetCoins]
  rw [read]
  cases mining.chain.pcoinsTip.GetCoins out.hash with
  | some coins => rfl
  | none =>
    cases mining.mempool.mapTx[out.hash]? with
    | none => rfl
    | some parent => rfl

section
variable (consistent : mining.Consistent)
include consistent

/-- In the view of the pool every input of a transaction in it is there. -/
theorem Consistent.available {hash : uint256} {tx : CTransaction} (inside : mining.mempool.mapTx[hash]? = some tx) :
    ∀ txin ∈ tx.vin, (mining.mempool.view mining.chain.pcoinsTip).ledger txin.prevout ≠ none := by
  obtain ⟨checks,passed⟩ := consistent.valid hash tx inside
  have ordinary := consistent.ordinary hash tx inside
  exact (CCoinsViewCache.haveInputs_ledger ordinary).mp (CTransaction.CheckInputs_ok ordinary passed).1

theorem Consistent.spends {hash : uint256} {tx : CTransaction} (inside : mining.mempool.mapTx[hash]? = some tx) :
    ∀ txin ∈ tx.vin, mining.spentOutput txin ≠ none := by
  intro txin member
  have there := consistent.available inside txin member
  rw [poolView_ledger] at there
  rw [spentOutput]
  cases fetched : mining.chain.pcoinsTip.GetCoins txin.prevout.hash with
  | some coins =>
    rw [fetched] at there
    intro missing
    dsimp only at there missing
    exact there (by rw [CCoins.coin,missing])
  | none =>
    rw [fetched] at there
    dsimp only at there ⊢
    cases inPool : mining.mempool.mapTx[txin.prevout.hash]? with
    | none =>
      rw [inPool] at there
      exact absurd rfl there
    | some parent =>
      rw [inPool,Option.bind_some] at there
      rw [Option.bind_some]
      intro missing
      apply there
      show (CCoins.ofTransaction parent MEMPOOL_HEIGHT).coin txin.prevout.n = none
      rw [CCoins.coin,CCoins.ofTransaction]
      dsimp only
      rw [missing]

theorem Consistent.valueOut {hash : uint256} {tx : CTransaction} (inside : mining.mempool.mapTx[hash]? = some tx) :
    ∃ nValueOut, tx.GetValueOut = .ok nValueOut := by
  obtain ⟨_,_,_,⟨sum,checked⟩,_⟩ := CTransaction.CheckTransaction_ok tx (consistent.checked hash tx inside)
  exact ⟨sum,CTransaction.GetValueOut_of_checkOutputs _ _ _ checked⟩

/-- One transaction of the pool is looked at. -/
theorem collect_ok {filled : Filled} {txs : List CTransaction} {hash : uint256} {tx : CTransaction}
    (inside : mining.mempool.mapTx[hash]? = some tx) (collected : mining.Collected filled txs) :
    ∃ filled', mining.collect filled tx = .ok filled' ∧ mining.Collected filled' (txs ++ [tx]) := by
  rw [collect,consistent.ordinary hash tx inside]
  cases final : tx.IsFinal mining.chain mining.now with
  | false =>
    refine ⟨filled,rfl,collected.queued,?_,?_⟩
    · intro other member isFinal
      rcases List.mem_append.mp member with before | last
      · exact collected.every other before isFinal
      · obtain rfl := List.mem_singleton.mp last
        exact absurd isFinal (by rw [final]; exact Bool.false_ne_true)
    · have := collected.few
      simp only [List.length_append,List.length_singleton]
      omega
  | true =>
    have candidate : mining.Candidate tx := by
      refine ⟨?_,final⟩
      rw [consistent.linked.keyed hash tx inside]
      exact inside
    have nothing : mining.Scanned tx filled.waiting [] {waiting := filled.waiting} := by
      refine ⟨rfl,fun _ => ⟨rfl,fun hash waits => ?_⟩,fun porphan found => absurd found (Option.some_ne_none _).symm⟩
      obtain ⟨_,member,_⟩ := waits.1
      exact absurd member List.not_mem_nil
    obtain ⟨scan,scans,scanned⟩ := scanInputs_ok (consistent.spends inside) nothing
    obtain ⟨nValueOut,valued⟩ := consistent.valueOut inside
    rw [List.nil_append] at scanned
    have rate : (scan.nTotalIn.sub nValueOut).divDouble (Double.round (tx.GetSerializeSize/1000)) = mining.feePerKb tx := by
      rw [feePerKb,valued,scanned.total]
    simp only [Bool.not_true,Bool.or_self,Bool.false_eq_true,if_false,scans,valued,rate]
    have size : (txs ++ [tx]).length = txs.length+1 := by simp
    have few := collected.few
    cases found : scan.porphan with
    | none =>
      obtain ⟨same,ready⟩ := scanned.free found
      refine ⟨_,rfl,?_,?_,?_⟩
      · rw [same]
        exact collected.queued.enqueue candidate rfl ready
      · rw [same]
        intro other member isFinal
        rcases List.mem_append.mp member with before | last
        · exact (collected.every other before isFinal).mono (fun _ => List.mem_append_left _) fun _ _ there => there
        · obtain rfl := List.mem_singleton.mp last
          exact .inl ⟨_,List.mem_append_right _ (List.mem_singleton_self _),rfl⟩
      · simp only [same,List.length_append,List.length_singleton]
        omega
    | some porphan =>
      obtain ⟨rfl,⟨awaited,waits⟩,⟨setDependsOn,last,depends⟩,named⟩ := scanned.waits porphan found
      let dPriority := Double.round (scan.dPriority/tx.GetSerializeSize)
      let orphan : COrphan := {tx,setDependsOn,dPriority,dFeePerKb := mining.feePerKb tx}
      have last' : (scan.waiting.update filled.waiting.vOrphan.length fun orphan =>
          {orphan with dPriority,dFeePerKb := mining.feePerKb tx}).vOrphan = filled.waiting.vOrphan ++ [some orphan] := by
        show scan.waiting.vOrphan.modify _ _ = _
        rw [last,modify_last]
        rfl
      refine ⟨_,rfl,?_,?_,?_⟩
      · exact collected.queued.wait orphan last' candidate rfl depends named
      · intro other member isFinal
        rcases List.mem_append.mp member with before | new
        · refine (collected.every other before isFinal).mono (fun _ => id) fun i old there => ?_
          rw [last',getElem?_concat]
          exact .inl there
        · obtain rfl := List.mem_singleton.mp new
          refine .inr ⟨filled.waiting.vOrphan.length,orphan,?_,rfl,?_⟩
          · rw [last',getElem?_concat]
            exact .inr ⟨rfl,rfl⟩
          · exact ExtTreeSet.ne_empty_of_mem ((depends awaited).mpr waits)
      · show filled.vecPriority.length+List.length (Waiting.vOrphan _) ≤ _
        rw [last',size,List.length_append,List.length_singleton]
        omega

theorem collect_all {rest : List CTransaction} {filled : Filled} {txs : List CTransaction}
    (inside : ∀ tx ∈ rest, ∃ hash : uint256, mining.mempool.mapTx[hash]? = some tx) (collected : mining.Collected filled txs) :
    ∃ filled', rest.foldlM mining.collect filled = .ok filled' ∧ mining.Collected filled' (txs ++ rest) := by
  induction rest generalizing filled txs with
  | nil => exact ⟨filled,rfl,by rwa [List.append_nil]⟩
  | cons tx rest ih =>
    obtain ⟨hash,there⟩ := inside tx (List.mem_cons_self ..)
    obtain ⟨filled',collects,collected'⟩ := collect_ok consistent there collected
    obtain ⟨last,runs,all⟩ := ih (fun other member => inside other (List.mem_cons_of_mem _ member)) collected'
    refine ⟨last,?_,by rwa [List.append_assoc] at all⟩
    rw [List.foldlM_cons,collects]
    exact runs

/-- The loop over the pool runs to its end. -/
theorem fill_ok : ∃ filled, mining.fill = .ok filled ∧ mining.Collected filled (mining.mempool.mapTx.toList.map Prod.snd) := by
  have nothing : mining.Collected {} [] := by
    refine ⟨⟨?_,?_,?_,?_⟩,?_,Nat.le_refl 0⟩
    · intro i low
      exact absurd low (Nat.not_lt_zero i)
    · intro hash i member
      rw [ExtTreeMap.getD_empty] at member
      exact absurd member List.not_mem_nil
    · intro i orphan there
      contradiction
    · intro entry member
      exact absurd member List.not_mem_nil
    · intro tx member
      exact absurd member List.not_mem_nil
  refine collect_all consistent ?_ nothing
  intro tx member
  obtain ⟨⟨hash,_⟩,listed,rfl⟩ := List.mem_map.mp member
  exact ⟨hash,ExtTreeMap.mem_toList_iff_getElem?_eq_some.mp listed⟩

end

/-! ### Those that wait are released -/

end
end Mining

/-- The orphans that still wait. -/
def Waiting.pending (waiting : Waiting) : Nat :=
  waiting.vOrphan.countP fun place => place.any fun orphan => !orphan.setDependsOn.isEmpty

namespace Mining

section
variable {mining : Mining}

theorem countP_modify {α : Type*} (p : α → Bool) (f : α → α) {values : List α} {i : Nat} {a : α} (there : values[i]? = some a) :
    (values.modify i f).countP p+(if p a then 1 else 0) = values.countP p+(if p (f a) then 1 else 0) := by
  induction values generalizing i with
  | nil => contradiction
  | cons b values ih =>
    cases i with
    | zero =>
      obtain rfl := Option.some.inj there
      rw [List.modify_zero_cons,List.countP_cons,List.countP_cons]
      omega
    | succ i =>
      rw [List.modify_succ_cons,List.countP_cons,List.countP_cons]
      have := ih there
      omega

/-- After some of those that wait for a transaction were released: it is gone from their
    sets, and who waited for nothing else is in the queue. -/
structure Released (hash : uint256) (before : Assembly) (released : List Nat) (after : Assembly) : Prop where
  same : after = {before with waiting := after.waiting,vecPriority := after.vecPriority}
  dependers : after.waiting.mapDependers = before.waiting.mapDependers
  length : after.waiting.vOrphan.length = before.waiting.vOrphan.length
  orphans : ∀ (i : Nat) (orphan : COrphan), before.waiting.vOrphan[i]? = some (some orphan) →
    ∃ setDependsOn, after.waiting.vOrphan[i]? = some (some {orphan with setDependsOn := setDependsOn}) ∧
      ∀ other, other ∈ setDependsOn ↔ other ∈ orphan.setDependsOn ∧ (other = hash → i ∉ released)
  entries : ∀ entry ∈ after.vecPriority, entry ∈ before.vecPriority ∨ ∃ (i : Nat) (orphan : COrphan),
    before.waiting.vOrphan[i]? = some (some orphan) ∧ (∀ other ∈ orphan.setDependsOn, other = hash) ∧
      entry = ⟨orphan.dPriority,orphan.dFeePerKb,orphan.tx⟩
  kept : ∀ entry ∈ before.vecPriority, entry ∈ after.vecPriority
  moved : ∀ i ∈ released, ∀ orphan : COrphan, before.waiting.vOrphan[i]? = some (some orphan) → orphan.setDependsOn ≠ ∅ →
    (∀ other ∈ orphan.setDependsOn, other = hash) → ∃ entry ∈ after.vecPriority, entry.tx = orphan.tx
  measure : after.vecPriority.length+after.waiting.pending = before.vecPriority.length+before.waiting.pending

theorem Released.refl (hash : uint256) (assembly : Assembly) : Released hash assembly [] assembly := by
  refine ⟨rfl,rfl,rfl,?_,fun _ => .inl,fun _ => id,?_,rfl⟩
  · intro i orphan there
    exact ⟨orphan.setDependsOn,there,fun other => by simp⟩
  · intro i member
    exact absurd member List.not_mem_nil

/-- The orphan at one place gets another set. -/
theorem update_place {waiting : Waiting} {i j : Nat} {orphan : COrphan} {setDependsOn : ExtTreeSet uint256}
    (there : waiting.vOrphan[i]? = some (some orphan)) :
    (waiting.update i fun orphan => {orphan with setDependsOn := setDependsOn}).vOrphan[j]? =
      if i = j then some (some {orphan with setDependsOn := setDependsOn}) else waiting.vOrphan[j]? := by
  show (waiting.vOrphan.modify i _)[j]? = _
  rw [List.getElem?_modify]
  by_cases same : i = j
  · subst same
    simp [there]
  · simp [same]

theorem update_pending {waiting : Waiting} {i : Nat} {orphan : COrphan} (setDependsOn : ExtTreeSet uint256)
    (there : waiting.vOrphan[i]? = some (some orphan)) (some : orphan.setDependsOn ≠ ∅) :
    (waiting.update i fun orphan => {orphan with setDependsOn := setDependsOn}).pending+1 =
      waiting.pending+if setDependsOn.isEmpty then 0 else 1 := by
  have counted := countP_modify (fun place : Option COrphan => place.any fun orphan => !orphan.setDependsOn.isEmpty)
    (fun place => place.map fun orphan => {orphan with setDependsOn := setDependsOn}) there
  rw [if_pos (by simpa using some)] at counted
  refine counted.trans ?_
  cases gone : setDependsOn.isEmpty <;> simp [Waiting.pending,gone]

theorem release_ok {hash : uint256} {before mid : Assembly} {released : List Nat} (sofar : Released hash before released mid) {i : Nat}
    {orphan : COrphan} (there : before.waiting.vOrphan[i]? = some (some orphan)) :
    ∃ after, mining.release hash mid i = .ok after ∧ Released hash before (i :: released) after := by
  obtain ⟨waitsFor,place,rest⟩ := sofar.orphans i orphan there
  rw [release,place]
  dsimp only
  have others {j : Nat} (other : j ≠ i) {a : uint256} : a = hash → (j ∉ i :: released ↔ j ∉ released) := by
    intro _
    simp [other]
  by_cases nothing : waitsFor.isEmpty = true
  · -- it was released before
    rw [if_pos nothing]
    have none : ∀ a, a ∉ waitsFor := ExtTreeSet.eq_empty_iff_forall_not_mem.mp (ExtTreeSet.isEmpty_iff.mp nothing)
    refine ⟨mid,rfl,sofar.same,sofar.dependers,sofar.length,?_,sofar.entries,sofar.kept,?_,sofar.measure⟩
    · intro j other at_j
      obtain ⟨set,place',rest'⟩ := sofar.orphans j other at_j
      refine ⟨set,place',fun a => ?_⟩
      rw [rest']
      by_cases here : j = i
      · subst here
        obtain rfl : other = orphan := by simpa [there] using at_j.symm
        obtain rfl : set = waitsFor := by simpa [place] using place'.symm
        refine iff_of_false (fun both => none a ((rest a).mpr both)) ?_
        rintro ⟨member,free⟩
        exact none a ((rest a).mpr ⟨member,fun same again => free same (List.mem_cons_of_mem _ again)⟩)
      · exact and_congr_right fun _ => forall_congr' fun same => (others here same).symm
    · intro j member other at_j waits only
      rcases List.mem_cons.mp member with rfl | earlier
      · obtain rfl : other = orphan := by simpa [there] using at_j.symm
        by_cases already : j ∈ released
        · exact sofar.moved j already other at_j waits only
        · obtain ⟨a,inside⟩ : ∃ a, a ∈ other.setDependsOn := by
            by_contra empty
            exact waits (ExtTreeSet.eq_empty_iff_forall_not_mem.mpr fun a inside => empty ⟨a,inside⟩)
          exact absurd ((rest a).mpr ⟨inside,fun _ => already⟩) (none a)
      · exact sofar.moved j earlier other at_j waits only
  · rw [if_neg nothing]
    have some : waitsFor ≠ ∅ := fun empty => nothing (ExtTreeSet.isEmpty_iff.mpr empty)
    have remains (a : uint256) : a ∈ waitsFor.erase hash ↔ a ∈ orphan.setDependsOn ∧ (a = hash → i ∉ i :: released) := by
      rw [ExtTreeSet.mem_erase,rest,ne_eq,Std.compare_eq_iff_eq]
      simp only [List.mem_cons,true_or,not_true]
      constructor
      · rintro ⟨different,member,_⟩
        exact ⟨member,fun same => different same.symm⟩
      · rintro ⟨member,different⟩
        exact ⟨fun same => different same.symm,member,fun same => absurd same different⟩
    have counted := update_pending (waitsFor.erase hash) place some
    have orphans : ∀ (j : Nat) (other : COrphan), before.waiting.vOrphan[j]? = Option.some (Option.some other) →
        ∃ setDependsOn, (mid.waiting.update i fun orphan => {orphan with setDependsOn := waitsFor.erase hash}).vOrphan[j]? =
          Option.some (Option.some {other with setDependsOn := setDependsOn}) ∧
          ∀ a, a ∈ setDependsOn ↔ a ∈ other.setDependsOn ∧ (a = hash → j ∉ i :: released) := by
      intro j other at_j
      rw [update_place place]
      by_cases here : i = j
      · subst here
        obtain rfl : other = orphan := by simpa [there] using at_j.symm
        exact ⟨_,if_pos rfl,remains⟩
      · obtain ⟨set,place',rest'⟩ := sofar.orphans j other at_j
        rw [if_neg here]
        refine ⟨set,place',fun a => ?_⟩
        rw [rest']
        exact and_congr_right fun _ => forall_congr' fun same => (others (Ne.symm here) same).symm
    have length : (mid.waiting.update i fun orphan => {orphan with setDependsOn := waitsFor.erase hash}).vOrphan.length =
        before.waiting.vOrphan.length := (List.length_modify ..).trans sofar.length
    by_cases last : (waitsFor.erase hash).isEmpty = true
    · -- it waited for nothing else
      have only : ∀ a ∈ orphan.setDependsOn, a = hash := by
        intro a member
        by_contra different
        have left := (remains a).mpr ⟨member,fun same => absurd same different⟩
        exact ExtTreeSet.ne_empty_of_mem left (ExtTreeSet.isEmpty_iff.mp last)
      rw [if_pos last]
      have pushed := mining.heap.push_perm (TxPriorityCompare mid.fSortedByFee)
        (mid.vecPriority ++ [⟨orphan.dPriority,orphan.dFeePerKb,orphan.tx⟩])
      refine ⟨_,rfl,?_,sofar.dependers,length,orphans,?_,?_,?_,?_⟩
      · rw [sofar.same]
      · intro entry member
        rcases List.mem_append.mp (pushed.mem_iff.mp member) with old | new
        · exact sofar.entries entry old
        · obtain rfl := List.mem_singleton.mp new
          exact .inr ⟨i,orphan,there,only,rfl⟩
      · intro entry member
        exact pushed.mem_iff.mpr (List.mem_append_left _ (sofar.kept entry member))
      · intro j member other at_j waits only'
        rcases List.mem_cons.mp member with rfl | earlier
        · obtain rfl : other = orphan := by simpa [there] using at_j.symm
          exact ⟨_,pushed.mem_iff.mpr (List.mem_append_right _ (List.mem_singleton_self _)),rfl⟩
        · obtain ⟨entry,old,same⟩ := sofar.moved j earlier other at_j waits only'
          exact ⟨entry,pushed.mem_iff.mpr (List.mem_append_left _ old),same⟩
      · have size := pushed.length_eq
        rw [List.length_append,List.length_singleton] at size
        rw [if_pos last] at counted
        have before := sofar.measure
        dsimp only
        omega
    · rw [if_neg last]
      refine ⟨_,rfl,?_,sofar.dependers,length,orphans,sofar.entries,sofar.kept,?_,?_⟩
      · rw [sofar.same]
      · intro j member other at_j waits only
        rcases List.mem_cons.mp member with rfl | earlier
        · obtain rfl : other = orphan := by simpa [there] using at_j.symm
          refine absurd (ExtTreeSet.isEmpty_iff.mpr (ExtTreeSet.eq_empty_iff_forall_not_mem.mpr fun a left => ?_)) last
          obtain ⟨member',free⟩ := (remains a).mp left
          exact free (only a member') (List.mem_cons_self ..)
        · exact sofar.moved j earlier other at_j waits only
      · rw [if_neg last] at counted
        have before := sofar.measure
        dsimp only
        omega

theorem release_all {hash : uint256} {before mid : Assembly} {rest released : List Nat} (sofar : Released hash before released mid)
    (there : ∀ i ∈ rest, ∃ orphan, before.waiting.vOrphan[i]? = some (some orphan)) :
    ∃ after, rest.foldlM (mining.release hash) mid = .ok after ∧ Released hash before (rest.reverse ++ released) after := by
  induction rest generalizing mid released with
  | nil => exact ⟨mid,rfl,sofar⟩
  | cons i rest ih =>
    obtain ⟨orphan,place⟩ := there i (List.mem_cons_self ..)
    obtain ⟨next,releases,sofar'⟩ := release_ok sofar place
    obtain ⟨after,runs,all⟩ := ih sofar' fun j member => there j (List.mem_cons_of_mem _ member)
    refine ⟨after,?_,?_⟩
    · rw [List.foldlM_cons,releases]
      exact runs
    · rwa [List.reverse_cons,List.append_assoc]

section
variable {hash : uint256} {before after : Assembly} {released : List Nat} {inside : uint256 → Prop}

theorem Released.held (done : Released hash before released after) {tx : CTransaction} (held : Held before.waiting before.vecPriority tx) :
    Held after.waiting after.vecPriority tx := by
  rcases held with ⟨entry,member,same⟩ | ⟨i,orphan,there,same,waits⟩
  · exact .inl ⟨entry,done.kept entry member,same⟩
  obtain ⟨set,place,rest⟩ := done.orphans i orphan there
  by_cases still : set = ∅
  · have gone : ∀ a ∈ orphan.setDependsOn, a = hash ∧ i ∈ released := by
      intro a member
      have absent : a ∉ set := ExtTreeSet.eq_empty_iff_forall_not_mem.mp still a
      rw [rest] at absent
      simpa [member] using absent
    obtain ⟨a,member⟩ : ∃ a, a ∈ orphan.setDependsOn := by
      by_contra empty
      exact waits (ExtTreeSet.eq_empty_iff_forall_not_mem.mpr fun a inside => empty ⟨a,inside⟩)
    obtain ⟨entry,queued,named⟩ := done.moved i (gone a member).2 orphan there waits fun a member => (gone a member).1
    exact .inl ⟨entry,queued,named.trans same⟩
  · exact .inr ⟨i,_,place,same,still⟩

/-- With all of them released, nothing waits for the transaction any more. -/
theorem Released.queued (done : Released hash before released after) (queued : mining.Queued before.waiting before.vecPriority inside)
    (all : ∀ i ∈ before.waiting.mapDependers.getD hash [], i ∈ released) :
    mining.Queued after.waiting after.vecPriority fun other => inside other ∨ other = hash := by
  constructor
  case holds =>
    intro i low
    obtain ⟨orphan,there⟩ := queued.holds i (done.length ▸ low)
    obtain ⟨set,place,_⟩ := done.orphans i orphan there
    exact ⟨_,place⟩
  case named =>
    rw [done.dependers,done.length]
    exact queued.named
  case orphans =>
    intro i orphan there
    have low : i < before.waiting.vOrphan.length := by
      rw [← done.length]
      exact (List.getElem?_eq_some_iff.mp there).1
    obtain ⟨old,was⟩ := queued.holds i low
    obtain ⟨set,place,rest⟩ := done.orphans i old was
    obtain ⟨candidate,rate,depends⟩ := queued.orphans i old was
    obtain rfl : {old with setDependsOn := set} = orphan := by simpa [there] using place.symm
    refine ⟨candidate,rate,fun other => ⟨?_,?_⟩⟩
    · show other ∈ set ↔ mining.Awaits old.tx other ∧ _
      rw [rest,(depends other).1]
      constructor
      · rintro ⟨⟨awaits,absent⟩,free⟩
        refine ⟨awaits,fun now => now.elim absent fun same => ?_⟩
        subst same
        exact free rfl (all i ((depends other).2 ((depends other).1.mpr ⟨awaits,absent⟩)))
      · rintro ⟨awaits,absent⟩
        exact ⟨⟨awaits,fun inside => absent (.inl inside)⟩,fun same => absurd (.inr same) absent⟩
    · intro member
      rw [done.dependers]
      exact (depends other).2 ((rest other).mp member).1
  case entries =>
    intro entry member
    rcases done.entries entry member with old | ⟨i,orphan,there,only,rfl⟩
    · obtain ⟨candidate,rate,ready⟩ := queued.entries entry old
      exact ⟨candidate,rate,fun other awaits => .inl (ready other awaits)⟩
    · obtain ⟨candidate,rate,depends⟩ := queued.orphans i orphan there
      refine ⟨candidate,rate,fun other awaits => ?_⟩
      by_cases known : inside other
      · exact .inl known
      · exact .inr (only other ((depends other).1.mpr ⟨awaits,known⟩))

end

end
end Mining
end Tetra
