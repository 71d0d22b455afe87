import Mathlib
import Tetra.CashOrder
import Tetra.MempoolLinks
import Tetra.Serialize

/-!
What it means that two transactions compare equal, and what follows from it: the memory
pool drops what conflicts with a connected transaction unless the two compare equal, and
the place of a transaction in its block is that of the first one that compares equal.
-/
namespace Tetra
open Std (ExtTreeMap)

/-- The hash of a transaction is one of its bytes, and no two byte strings have the same. -/
def SerializeHash (env : Env) : Prop :=
  ∃ hash : List UInt8 → uint256, Function.Injective hash ∧ ∀ tx, env.TxHash tx = hash tx.Serialize

namespace CTransaction

/-- What the comparison and the hash look at in the same way. -/
def SameFrame (a b : CTransaction) : Prop :=
  a.nVersion = b.nVersion ∧ a.vin = b.vin ∧ a.nLockTime = b.nLockTime ∧ a.vout.map CTxOut.scriptPubKey = b.vout.map CTxOut.scriptPubKey

/-- What only the hash looks at, and what it looks at of the values. -/
def SameRest (a b : CTransaction) : Prop :=
  a.Attachments = b.Attachments ∧ (a.vout.map fun out => out.nValue.locals) = b.vout.map fun out => out.nValue.locals

/-- No value is told apart from the one of the other by its circuit-free part, `<` or `>`. -/
def SameValues (a b : CTransaction) : Prop :=
  List.Forall₂ (fun x y : CTxOut => x.nValue.fixed = y.nValue.fixed ∧ ¬ x.nValue.lt y.nValue = true ∧ ¬ x.nValue.gt y.nValue = true) a.vout b.vout

/-- Where the frames agree, the comparison of the values decides what only the hash looks at. -/
def ToldApart (a b : CTransaction) : Prop := a.SameFrame b → (a.SameValues b ↔ a.SameRest b)

section
variable {a b : CTransaction}

theorem eq_iff_same : a.eq b = true ↔ a.SameFrame b ∧ a.SameValues b := by
  have outs : ∀ xs ys : List CTxOut, (xs.length = ys.length ∧ ∀ pair ∈ xs.zip ys, pair.1.eq pair.2 = true) ↔
      xs.map CTxOut.scriptPubKey = ys.map CTxOut.scriptPubKey ∧
        List.Forall₂ (fun x y : CTxOut => x.nValue.fixed = y.nValue.fixed ∧ ¬ x.nValue.lt y.nValue = true ∧ ¬ x.nValue.gt y.nValue = true) xs ys := by
    intro xs
    induction xs with
    | nil =>
      intro ys
      cases ys with
      | nil => simp
      | cons y ys => simp
    | cons x xs ih =>
      intro ys
      cases ys with
      | nil => simp
      | cons y ys =>
        have here : x.eq y = true ↔ (x.nValue.fixed = y.nValue.fixed ∧ ¬ x.nValue.lt y.nValue = true ∧ ¬ x.nValue.gt y.nValue = true) ∧
            x.scriptPubKey = y.scriptPubKey := by
          rw [CTxOut.eq,Bool.and_eq_true,Cash.eq_iff_neither,beq_iff_eq]
        simp only [List.length_cons,Nat.add_right_cancel_iff,List.zip_cons_cons,List.forall_mem_cons,List.map_cons,List.cons.injEq,
          List.forall₂_cons,here]
        have rest := ih ys
        tauto
  have all := outs a.vout b.vout
  simp only [CTransaction.eq,Bool.and_eq_true,beq_iff_eq,List.all_eq_true]
  rw [SameFrame,SameValues]
  tauto

theorem written_eq_iff : a.written = b.written ↔ a.SameFrame b ∧ a.SameRest b := by
  have outs : a.vout.map CTxOut.written = b.vout.map CTxOut.written ↔
      a.vout.map CTxOut.scriptPubKey = b.vout.map CTxOut.scriptPubKey ∧
        (a.vout.map fun out => out.nValue.locals) = b.vout.map fun out => out.nValue.locals := by
    have parts : ∀ xs ys : List (CashStruct × CScript), xs = ys ↔ xs.map Prod.snd = ys.map Prod.snd ∧ xs.map Prod.fst = ys.map Prod.fst := by
      intro xs
      induction xs with
      | nil => intro ys; cases ys <;> simp
      | cons x xs ih =>
        intro ys
        cases ys with
        | nil => simp
        | cons y ys =>
          rw [List.cons.injEq,ih ys,Prod.ext_iff]
          simp only [List.map_cons,List.cons.injEq]
          tauto
    rw [parts]
    simp only [List.map_map]
    rfl
  rw [written,written,Prod.mk.injEq,Prod.mk.injEq,Prod.mk.injEq,Prod.mk.injEq,outs,SameFrame,SameRest]
  tauto

theorem hash_eq_iff {env : Env} (hashes : SerializeHash env) (left : a.Fits (2^64-1)) (right : b.Fits (2^64-1)) :
    env.TxHash a = env.TxHash b ↔ a.SameFrame b ∧ a.SameRest b := by
  obtain ⟨hash,injective,same⟩ := hashes
  rw [same,same,injective.eq_iff,Serialize_inj left right,written_eq_iff]

/-- Comparing equal and having one hash are the same for two transactions exactly if they
    are told apart. -/
theorem eq_iff_hash_iff {env : Env} (hashes : SerializeHash env) (left : a.Fits (2^64-1)) (right : b.Fits (2^64-1)) :
    (a.eq b = true ↔ env.TxHash a = env.TxHash b) ↔ a.ToldApart b := by
  rw [eq_iff_same,hash_eq_iff hashes left right,ToldApart]
  tauto

end

end CTransaction

namespace CTxMemPool
section
variable {env : Env} {txs : Set CTransaction} {pool : CTxMemPool} {tx : CTransaction}

/-- They spend a common output. -/
def Rivals (a b : CTransaction) : Prop := ∃ txin ∈ a.vin, ∃ mine ∈ b.vin, txin.prevout = mine.prevout

/-- What becomes of the pool with one transaction of a connected block. -/
def connectedTx (env : Env) (pool : CTxMemPool) (tx : CTransaction) : CTxMemPool := (pool.remove env tx false).removeConflicts env tx

/-- A smaller pool, in which every link still holds. -/
structure Shrunk (env : Env) (pool after : CTxMemPool) : Prop where
  linked : Linked env after
  txs : ∀ (hash : uint256) tx, after.mapTx[hash]? = some tx → pool.mapTx[hash]? = some tx
  next : ∀ (point : COutPoint) spender, after.mapNextTx[point]? = some spender → pool.mapNextTx[point]? = some spender

theorem Shrunk.trans {mid after : CTxMemPool} (first : Shrunk env pool mid) (second : Shrunk env mid after) : Shrunk env pool after :=
  ⟨second.linked,fun hash tx found => first.txs hash tx (second.txs hash tx found),
    fun point spender found => first.next point spender (second.next point spender found)⟩

theorem Shrunk.notMem {after : CTxMemPool} (shrunk : Shrunk env pool after) {point : COutPoint} (absent : point ∉ pool.mapNextTx) :
    point ∉ after.mapNextTx := by
  intro present
  obtain ⟨spender,found⟩ := mem_mapNextTx.mp present
  exact absent (mem_mapNextTx.mpr ⟨spender,shrunk.next point spender found⟩)

theorem Part.shrunk {after : CTxMemPool} (part : Part env pool after) : Shrunk env pool after := ⟨part.linked,part.txs,part.next⟩

theorem Linked.drop_shrunk (linked : Linked env pool) (same : ∀ other, pool.mapTx[env.TxHash tx]? = some other → other = tx) :
    Shrunk env pool (pool.drop env tx) ∧ env.TxHash tx ∉ (pool.drop env tx).mapTx := by
  obtain ⟨after,gone⟩ := linked.drop same
  refine ⟨⟨after,fun hash other found => ?_,fun point spender found => ?_⟩,gone⟩
  · by_cases inside : env.TxHash tx ∈ pool.mapTx
    · rw [(drop_lookups inside).1] at found
      split at found
      · contradiction
      · exact found
    · rwa [CTxMemPool.drop,if_neg inside] at found
  · by_cases inside : env.TxHash tx ∈ pool.mapTx
    · exact (((drop_lookups inside).2 point spender).mp found).2
    · rwa [CTxMemPool.drop,if_neg inside] at found

/-- Its inputs are free if none of its rivals in the pool compares equal to it. -/
theorem connectedTx_frees (hashes : Hashes env txs) (linked : Linked env pool) (known : Within txs pool) (inside : tx ∈ txs) :
    Shrunk env pool (pool.connectedTx env tx) ∧ Within txs (pool.connectedTx env tx) ∧
      ((∀ other, pool.mapTx[env.TxHash other]? = some other → env.TxHash other ≠ env.TxHash tx → Rivals other tx → other.eq tx = false) →
        ∀ mine ∈ tx.vin, mine.prevout ∉ (pool.connectedTx env tx).mapNextTx) := by
  obtain ⟨dropped,gone⟩ := linked.drop_shrunk (hashes.same linked known inside)
  have within : Within txs (pool.drop env tx) := known.drop tx
  obtain ⟨part,frees⟩ := removeConflicts_part hashes dropped.linked within tx
  refine ⟨dropped.trans part.shrunk,within.part part,fun apart => frees fun other there rivals => ?_⟩
  refine apart other (dropped.txs _ other there) (fun same => gone ?_) rivals
  rw [← same]
  exact mem_mapTx.mpr ⟨other,there⟩

theorem no_rival_of_free {after : CTxMemPool} (linked : Linked env after) (free : ∀ mine ∈ tx.vin, mine.prevout ∉ after.mapNextTx) :
    ∀ (hash : uint256) other, after.mapTx[hash]? = some other → ¬ Rivals other tx := by
  rintro hash other there ⟨txin,member,mine,ours,same⟩
  obtain ⟨i,low,rfl⟩ := List.getElem_of_mem member
  refine free mine ours ?_
  rw [← same]
  exact mem_mapNextTx.mpr ⟨_,(linked.entries _ hash i).mpr ⟨other,there,_,List.getElem?_eq_getElem low,rfl⟩⟩

/-- A rival that compares equal stays, and so does everything else. -/
theorem connectedTx_of_equal (hashes : Hashes env txs) (linked : Linked env pool) (known : Within txs pool) (inside : tx ∈ txs) {other : CTransaction}
    (there : pool.mapTx[env.TxHash other]? = some other) (apart : env.TxHash other ≠ env.TxHash tx) (rivals : Rivals other tx)
    (equal : other.eq tx = true) : pool.connectedTx env tx = pool := by
  have vin : other.vin = tx.vin := (CTransaction.eq_iff_same.mp equal).1.2.1
  have entry : ∀ mine ∈ tx.vin, ∃ i, pool.mapNextTx[mine.prevout]? = some (env.TxHash other,i) := by
    intro mine member
    obtain ⟨i,low,rfl⟩ := List.getElem_of_mem (vin ▸ member)
    exact ⟨i,(linked.entries _ _ i).mpr ⟨other,there,_,List.getElem?_eq_getElem low,rfl⟩⟩
  -- Were the transaction in the pool too, the two would spend one output.
  have absent : env.TxHash tx ∉ pool.mapTx := by
    intro present
    obtain ⟨found,here⟩ := mem_mapTx.mp present
    obtain rfl := hashes.same linked known inside found here
    obtain ⟨_,_,mine,member,_⟩ := rivals
    obtain ⟨i,taken⟩ := entry mine member
    exact apart ((linked.addable here).free mine member _ i taken)
  have dropped : pool.remove env tx false = pool := by
    show pool.drop env tx = pool
    rw [drop,if_neg absent]
  rw [connectedTx,dropped,removeConflicts_eq]
  have stays : ∀ vin : List CTxIn, (∀ mine ∈ vin, mine ∈ tx.vin) → vin.foldl (fun pool txin =>
      ((pool.mapNextTx[txin.prevout]?).bind fun spender => pool.mapTx[spender.1]?).elim pool fun txConflict =>
        if txConflict.eq tx then pool else pool.remove env txConflict true) pool = pool := by
    intro vin
    induction vin with
    | nil => exact fun _ => rfl
    | cons mine rest ih =>
      intro members
      obtain ⟨i,taken⟩ := entry mine (members mine (List.mem_cons_self ..))
      rw [List.foldl_cons,taken,Option.bind_some,there,Option.elim_some,if_pos equal]
      exact ih fun txin later => members txin (List.mem_cons_of_mem _ later)
  exact stays tx.vin fun _ => id

/-- One transaction of a block leaves no rival exactly if no rival compares equal to it. -/
theorem connectedTx_iff (hashes : Hashes env txs) (linked : Linked env pool) (known : Within txs pool) (inside : tx ∈ txs) :
    (∀ (hash : uint256) other, (pool.connectedTx env tx).mapTx[hash]? = some other → ¬ Rivals other tx) ↔
      ∀ other, pool.mapTx[env.TxHash other]? = some other → env.TxHash other ≠ env.TxHash tx → Rivals other tx → other.eq tx = false := by
  constructor
  · intro none' other there apart rivals
    by_contra equal
    rw [Bool.not_eq_false] at equal
    have same := connectedTx_of_equal hashes linked known inside there apart rivals equal
    rw [same] at none'
    exact none' _ other there rivals
  · intro apart
    obtain ⟨shrunk,_,frees⟩ := connectedTx_frees hashes linked known inside
    exact no_rival_of_free shrunk.linked (frees apart)

/-- The transactions of connected blocks, one after the other. -/
theorem connected_frees (hashes : Hashes env txs) {vDelete : List CTransaction} (linked : Linked env pool) (known : Within txs pool)
    (inside : ∀ tx ∈ vDelete, tx ∈ txs)
    (apart : ∀ tx ∈ vDelete, ∀ other, pool.mapTx[env.TxHash other]? = some other → env.TxHash other ≠ env.TxHash tx → Rivals other tx →
      other.eq tx = false) :
    Shrunk env pool (vDelete.foldl (connectedTx env) pool) ∧
      ∀ tx ∈ vDelete, ∀ mine ∈ tx.vin, mine.prevout ∉ (vDelete.foldl (connectedTx env) pool).mapNextTx := by
  induction vDelete generalizing pool with
  | nil => exact ⟨⟨linked,fun _ _ found => found,fun _ _ found => found⟩,fun tx member => absurd member List.not_mem_nil⟩
  | cons tx rest ih =>
    obtain ⟨shrunk,within,frees⟩ := connectedTx_frees hashes linked known (inside tx (List.mem_cons_self ..))
    obtain ⟨later,free⟩ := ih shrunk.linked within (fun other member => inside other (List.mem_cons_of_mem _ member))
      fun other member child there => apart other (List.mem_cons_of_mem _ member) child (shrunk.txs _ child there)
    refine ⟨shrunk.trans later,fun other member => ?_⟩
    rcases List.mem_cons.mp member with rfl | after
    · exact fun mine ours => later.notMem (frees (apart other (List.mem_cons_self ..)) mine ours)
    · exact free other after

end
end CTxMemPool

namespace ChainState
variable {rules : PoolRules} {txs : Set CTransaction} {mempool : CTxMemPool}

/-- What the pool holds once the disconnected transactions have been offered to it again. -/
def resurrected (rules : PoolRules) (w : Surroundings) (chain : ActiveChain) (mempool : CTxMemPool) (vResurrect : List CTransaction) : CTxMemPool :=
  vResurrect.zipIdx.foldl (fun mempool entry =>
    let outcome := mempool.AcceptToMemoryPool rules chain (w.now entry.2) entry.1 true false
    match outcome.result with
    | .ok () => outcome.mempool
    | .error _ => outcome.mempool.remove rules.env entry.1 true) mempool

theorem updatePool_eq (w : Surroundings) (chain : ActiveChain) (mempool : CTxMemPool) (vResurrect vDelete : List CTransaction) :
    updatePool rules w chain mempool vResurrect vDelete =
      vDelete.foldl (CTxMemPool.connectedTx rules.env) (resurrected rules w chain mempool vResurrect) := rfl

theorem resurrected_keeps (hashes : CTxMemPool.Hashes rules.env txs) (linked : CTxMemPool.Linked rules.env mempool)
    (known : CTxMemPool.Within txs mempool) (w : Surroundings) (chain : ActiveChain) {vResurrect : List CTransaction}
    (inside : ∀ tx ∈ vResurrect, tx ∈ txs) :
    CTxMemPool.Linked rules.env (resurrected rules w chain mempool vResurrect) ∧
      CTxMemPool.Within txs (resurrected rules w chain mempool vResurrect) := by
  have turns : ∀ (entries : List (CTransaction × Nat)) (mempool : CTxMemPool), CTxMemPool.Linked rules.env mempool →
      CTxMemPool.Within txs mempool → (∀ entry ∈ entries, entry.1 ∈ txs) →
      let after := entries.foldl (fun mempool entry =>
        let outcome := mempool.AcceptToMemoryPool rules chain (w.now entry.2) entry.1 true false
        match outcome.result with
        | .ok () => outcome.mempool
        | .error _ => outcome.mempool.remove rules.env entry.1 true) mempool
      CTxMemPool.Linked rules.env after ∧ CTxMemPool.Within txs after := by
    intro entries
    induction entries with
    | nil => exact fun mempool linked known _ => ⟨linked,known⟩
    | cons entry rest ih =>
      intro mempool linked known inside
      have here := inside entry (List.mem_cons_self ..)
      have same : (mempool.AcceptToMemoryPool rules chain (w.now entry.2) entry.1 true false).mempool =
          (mempool.accept rules chain (w.now entry.2) entry.1 true false false).mempool := by
        unfold CTxMemPool.AcceptToMemoryPool
        dsimp only
        split <;> rfl
      obtain ⟨linked,known⟩ := CTxMemPool.accept_keeps linked known here chain (w.now entry.2) true false false
      rw [← same] at linked known
      rw [List.foldl_cons]
      refine ih _ ?_ ?_ fun other member => inside other (List.mem_cons_of_mem _ member)
      · dsimp only
        split
        · exact linked
        · exact (CTxMemPool.remove_keeps hashes linked known here true).1
      · dsimp only
        split
        · exact known
        · exact (CTxMemPool.remove_keeps hashes linked known here true).2
  refine turns vResurrect.zipIdx mempool linked known fun entry member => ?_
  exact inside entry.1 (List.fst_mem_of_mem_zipIdx member)

end ChainState

namespace CBlock

/-- `GetMerkleBranch`: beside the path from a leaf to the root. -/
def merkleBranch (env : Env) : Nat → List uint256 → Nat → List uint256
  | 0, _, _ => []
  | fuel+1, hashes, nIndex =>
    if hashes.length ≤ 1 then []
    else (hashes[min (nIndex^^^1) (hashes.length-1)]?).getD 0 :: merkleBranch env fuel (merkleLevel env hashes) (nIndex/2)

def GetMerkleBranch (env : Env) (block : CBlock) (nIndex : Nat) : List uint256 :=
  merkleBranch env block.vtx.length (block.vtx.map env.TxHash) nIndex

end CBlock

structure CMerkleTx extends CTransaction where
  hashBlock : uint256 := 0
  vMerkleBranch : List uint256 := []
  nIndex : Int := -1

namespace CMerkleTx

/-- How deep the block of the transaction is in the main chain; 0 if it is not there. -/
def depth (s : ChainState) (hashBlock : uint256) : Int :=
  match s.mapBlockIndex[hashBlock]? with
  | none => 0
  | some pindex =>
    if pindex.pnext.isSome ∨ s.pindexBest = some hashBlock then ((s.pindexBest.map s.height).getD 0 : Int)-pindex.nHeight+1 else 0

/-- `SetMerkleBranch`; without a block from the caller `pblock` is the one read from disk
    at the height of the coins, if there is one. -/
def SetMerkleBranch (env : Env) (s : ChainState) (wtx : CMerkleTx) (pblock : Option CBlock) : Int × CMerkleTx :=
  match pblock with
  | none => (depth s wtx.hashBlock,wtx)
  | some block =>
    let wtx := {wtx with hashBlock := block.GetHash env}
    match block.vtx.findIdx? fun tx => tx.eq wtx.toCTransaction with
    | none => (0,{wtx with vMerkleBranch := [],nIndex := -1})
    | some nIndex => (depth s wtx.hashBlock,{wtx with vMerkleBranch := block.GetMerkleBranch env nIndex,nIndex := nIndex})

/-- The index is that of a transaction of the block with the hash of this one. -/
def Located (env : Env) (wtx : CMerkleTx) (block : CBlock) : Prop :=
  ∃ (i : Nat) (tx : CTransaction), wtx.nIndex = i ∧ block.vtx[i]? = some tx ∧ env.TxHash tx = env.TxHash wtx.toCTransaction

theorem eq_refl (tx : CTransaction) : tx.eq tx = true := by
  rw [CTransaction.eq_iff_same]
  refine ⟨⟨rfl,rfl,rfl,rfl⟩,List.forall₂_same.mpr fun out _ => ⟨rfl,?_,?_⟩⟩
  · intro less
    obtain ⟨filled,below⟩ := (Cash.lt_iff_below _ _).mp less
    exact (Cash.not_below_of_same (fun _ => rfl) (by tauto)).1 below
  · intro greater
    obtain ⟨filled,above⟩ := (Cash.gt_iff_above _ _).mp greater
    exact (Cash.not_below_of_same (fun _ => rfl) (by tauto)).2 above

/-- The place of a transaction of the block is found exactly if no other transaction that
    compares equal stands before every one with its hash. -/
theorem located_iff (env : Env) (s : ChainState) (wtx : CMerkleTx) {block : CBlock} (inside : wtx.toCTransaction ∈ block.vtx) :
    Located env (SetMerkleBranch env s wtx (some block)).2 block ↔
      ∀ (i : Nat) tx, block.vtx[i]? = some tx → tx.eq wtx.toCTransaction = true → env.TxHash tx ≠ env.TxHash wtx.toCTransaction →
        ∃ (j : Nat), j < i ∧ ∃ twin, block.vtx[j]? = some twin ∧ twin.eq wtx.toCTransaction = true ∧ env.TxHash twin = env.TxHash wtx.toCTransaction := by
  obtain ⟨k,low,here⟩ := List.getElem_of_mem inside
  cases found : block.vtx.findIdx? fun tx => tx.eq wtx.toCTransaction with
  | none =>
    rw [List.findIdx?_eq_none_iff] at found
    have other := found _ inside
    rw [eq_refl] at other
    contradiction
  | some first =>
    obtain ⟨short,equal,before⟩ := List.findIdx?_eq_some_iff_getElem.mp found
    have result : (SetMerkleBranch env s wtx (some block)).2 =
        {wtx with hashBlock := block.GetHash env,vMerkleBranch := block.GetMerkleBranch env first,nIndex := first} := by
      unfold SetMerkleBranch
      simp only [found]
    have located : Located env (SetMerkleBranch env s wtx (some block)).2 block ↔
        env.TxHash block.vtx[first] = env.TxHash wtx.toCTransaction := by
      rw [result]
      constructor
      · rintro ⟨i,tx,same,there,hash⟩
        obtain rfl : first = i := Int.ofNat.inj same
        rw [List.getElem?_eq_getElem short] at there
        rw [Option.some.inj there]
        exact hash
      · exact fun hash => ⟨first,_,rfl,List.getElem?_eq_getElem short,hash⟩
    rw [located]
    constructor
    · intro hash i tx there same apart
      have later : first < i := by
        obtain ⟨within,rfl⟩ := List.getElem?_eq_some_iff.mp there
        by_contra early
        rcases Nat.lt_or_eq_of_le (Nat.le_of_not_lt early) with less | rfl
        · exact before i less same
        · exact apart hash
      exact ⟨first,later,_,List.getElem?_eq_getElem short,equal,hash⟩
    · intro twins
      by_contra apart
      obtain ⟨j,less,twin,there,same,_⟩ := twins first _ (List.getElem?_eq_getElem short) equal apart
      obtain ⟨within,rfl⟩ := List.getElem?_eq_some_iff.mp there
      exact before j less same

end CMerkleTx

/-- For two transactions comparing equal is having one hash exactly if they are told
    apart. A connected transaction leaves no rival in the pool exactly if no rival in the
    pool compares equal, which holds where each rival is told apart; and the place of a
    transaction in its block is found exactly if no other one that compares equal stands
    before every one with its hash. -/
theorem CTransaction.eq_identity_iff {rules : PoolRules} (hashed : SerializeHash rules.env) :
    (∀ a b : CTransaction, a.Fits (2^64-1) → b.Fits (2^64-1) →
      ((a.eq b = true ↔ rules.env.TxHash a = rules.env.TxHash b) ↔ a.ToldApart b)) ∧
    (∀ (txs : Set CTransaction) (pool : CTxMemPool) (tx : CTransaction), CTxMemPool.Hashes rules.env txs → pool.Linked rules.env →
      pool.Within txs → tx ∈ txs →
      ((∀ (hash : uint256) other, (pool.connectedTx rules.env tx).mapTx[hash]? = some other → ¬ CTxMemPool.Rivals other tx) ↔
        ∀ other, pool.mapTx[rules.env.TxHash other]? = some other → rules.env.TxHash other ≠ rules.env.TxHash tx →
          CTxMemPool.Rivals other tx → other.eq tx = false)) ∧
    (∀ (txs : Set CTransaction) (w : Surroundings) (chain : ActiveChain) (mempool : CTxMemPool) (vResurrect vDelete : List CTransaction),
      CTxMemPool.Hashes rules.env txs → mempool.Linked rules.env → mempool.Within txs → (∀ tx ∈ txs, tx.Fits (2^64-1)) →
      (∀ tx ∈ vResurrect, tx ∈ txs) → (∀ tx ∈ vDelete, tx ∈ txs) →
      (∀ tx ∈ vDelete, ∀ other, (ChainState.resurrected rules w chain mempool vResurrect).mapTx[rules.env.TxHash other]? = some other →
        rules.env.TxHash other ≠ rules.env.TxHash tx → CTxMemPool.Rivals other tx → other.ToldApart tx) →
      ∀ tx ∈ vDelete, ∀ (hash : uint256) other,
        (ChainState.updatePool rules w chain mempool vResurrect vDelete).mapTx[hash]? = some other → ¬ CTxMemPool.Rivals other tx) ∧
    (∀ (s : ChainState) (wtx : CMerkleTx) (block : CBlock), wtx.toCTransaction ∈ block.vtx →
      (CMerkleTx.Located rules.env (CMerkleTx.SetMerkleBranch rules.env s wtx (some block)).2 block ↔
        ∀ (i : Nat) tx, block.vtx[i]? = some tx → tx.eq wtx.toCTransaction = true → rules.env.TxHash tx ≠ rules.env.TxHash wtx.toCTransaction →
          ∃ (j : Nat), j < i ∧ ∃ twin, block.vtx[j]? = some twin ∧ twin.eq wtx.toCTransaction = true ∧
            rules.env.TxHash twin = rules.env.TxHash wtx.toCTransaction)) := by
  refine ⟨fun a b left right => eq_iff_hash_iff hashed left right,fun txs pool tx hashes linked known inside =>
    CTxMemPool.connectedTx_iff hashes linked known inside,?_,fun s wtx block inside => CMerkleTx.located_iff rules.env s wtx inside⟩
  intro txs w chain mempool vResurrect vDelete hashes linked known fits offered inside told tx member hash other
  obtain ⟨linked,known⟩ := ChainState.resurrected_keeps hashes linked known w chain offered
  have apart : ∀ tx ∈ vDelete, ∀ other, (ChainState.resurrected rules w chain mempool vResurrect).mapTx[rules.env.TxHash other]? = some other →
      rules.env.TxHash other ≠ rules.env.TxHash tx → CTxMemPool.Rivals other tx → other.eq tx = false := by
    intro tx member other there different rivals
    have decides := (eq_iff_hash_iff hashed (fits other (known _ other there)) (fits tx (inside tx member))).mpr (told tx member other there different rivals)
    by_contra equal
    rw [Bool.not_eq_false] at equal
    exact different (decides.mp equal)
  obtain ⟨shrunk,free⟩ := CTxMemPool.connected_frees hashes linked known inside apart
  rw [ChainState.updatePool_eq]
  exact CTxMemPool.no_rival_of_free shrunk.linked (free tx member) hash other

/-! Two transactions that differ in their attachments alone. -/

private def countBytes : List UInt8 → Nat
  | [] => 0
  | byte :: rest => byte.toNat+1+256*countBytes rest

private theorem countBytes_injective : Function.Injective countBytes := by
  intro bytes
  induction bytes with
  | nil =>
    intro other same
    cases other with
    | nil => rfl
    | cons byte rest =>
      simp only [countBytes] at same
      omega
  | cons byte rest ih =>
    intro other same
    cases other with
    | nil =>
      simp only [countBytes] at same
      omega
    | cons byte' rest' =>
      have low := UInt8.toNat_lt byte
      have low' := UInt8.toNat_lt byte'
      simp only [countBytes] at same
      obtain ⟨head,tail⟩ : byte.toNat = byte'.toNat ∧ countBytes rest = countBytes rest' := by omega
      rw [UInt8.toNat_inj.mp head,ih tail]

private def twinRules : PoolRules where
  env := ⟨fun tx => countBytes tx.Serialize,fun _ => 0,fun _ _ => 0,fun _ _ _ _ _ => true,fun _ _ _ => true⟩
  IsPushOnly := fun _ => true
  HasCanonicalPushes := fun _ => true
  IsStandard := fun _ => true
  IsInputStandard := fun _ _ _ => true

private theorem twin_hashed : SerializeHash twinRules.env := ⟨countBytes,countBytes_injective,fun _ => rfl⟩

private def twinTx (Attachments : List UInt8) : CTransaction := ⟨1,[⟨⟨5,0⟩,[],0⟩],[⟨Cash.ofMoney (EUR,10),[]⟩],0,Attachments⟩
private def twinPool : CTxMemPool := ({} : CTxMemPool).addUnchecked (twinRules.env.TxHash (twinTx [7])) (twinTx [7])
private def twinChain : ActiveChain := {pcoinsTip := {base := noCoins},nBestHeight := 5}
private def twinBlock : CBlock := ⟨⟨3,0,10,50⟩,[twinTx [],twinTx [7]],[],[]⟩

private theorem twin_fits (Attachments : List UInt8) (short : Attachments.length ≤ 2^64-1) : (twinTx Attachments).Fits (2^64-1) := by
  have version : FitsInt 1 := ⟨by decide,by decide⟩
  have one : 1 ≤ 2^64-1 := by decide
  refine ⟨version,⟨one,?_⟩,⟨one,?_⟩,Nat.two_pow_pos 32,short⟩
  · intro txin member
    obtain rfl := List.mem_singleton.mp member
    have point : (⟨5,0⟩ : COutPoint).Fits := ⟨by decide,by decide⟩
    exact ⟨point,by decide,by decide⟩
  · intro out member
    obtain rfl := List.mem_singleton.mp member
    refine ⟨⟨by decide,fun e inside => ?_⟩,by decide⟩
    have entries : (Cash.ofMoney (EUR,10)).locals.toList = [(EUR,10)] := by decide +kernel
    rw [entries,List.mem_singleton] at inside
    subst inside
    decide

/-- They compare equal and have different hashes; the one stays in the pool when the
    other is connected, and has the place of the other in a block with both. -/
theorem twin_stays :
    SerializeHash twinRules.env ∧ (twinTx []).eq (twinTx [7]) = true ∧ twinRules.env.TxHash (twinTx []) ≠ twinRules.env.TxHash (twinTx [7]) ∧
      (ChainState.updatePool twinRules {} twinChain twinPool [] [twinTx []]).mapTx[twinRules.env.TxHash (twinTx [7])]? = some (twinTx [7]) ∧
      (CMerkleTx.SetMerkleBranch twinRules.env {} {twinTx [7] with} (some twinBlock)).2.nIndex = 0 := by
  refine ⟨twin_hashed,by decide +kernel,?_,by decide +kernel,by decide +kernel⟩
  decide +kernel

theorem twin_told_apart :
    ((twinTx []).eq (twinTx [7]) = true ↔ twinRules.env.TxHash (twinTx []) = twinRules.env.TxHash (twinTx [7])) ↔
      (twinTx []).ToldApart (twinTx [7]) :=
  (CTransaction.eq_identity_iff twin_hashed).1 _ _ (twin_fits [] (by decide)) (twin_fits [7] (by decide))

end Tetra
