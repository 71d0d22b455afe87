import Mathlib
import Tetra.ConnectBest

/-!
The two maps of the memory pool belong together: every input of a transaction in the
pool has its entry, and no other output has one. Removing a transaction with those that
spend from it leaves none of them.
-/
namespace Tetra.CTxMemPool
open Std

def clear (_ : CTxMemPool) : CTxMemPool := {}

/-- The entries of `mapNextTx` are the inputs of the transactions in the pool. -/
structure Linked (env : Env) (pool : CTxMemPool) : Prop where
  keyed : ∀ (hash : uint256) tx, pool.mapTx[hash]? = some tx → env.TxHash tx = hash
  entries : ∀ (point : COutPoint) hash i, pool.mapNextTx[point]? = some (hash,i) ↔
    ∃ tx, pool.mapTx[hash]? = some tx ∧ ∃ txin, tx.vin[i]? = some txin ∧ txin.prevout = point

/-- What the hashes of some transactions promise: no two have the same, and a transaction
    is made after those it names. -/
structure Hashes (env : Env) (txs : Set CTransaction) : Prop where
  unique : ∀ a ∈ txs, ∀ b ∈ txs, env.TxHash a = env.TxHash b → a = b
  order : ∃ made : uint256 → Nat, ∀ tx ∈ txs, ∀ txin ∈ tx.vin, made txin.prevout.hash < made (env.TxHash tx)

/-- It spends an output of the transaction. -/
def SpendsOutput (env : Env) (tx child : CTransaction) : Prop :=
  ∃ txin ∈ child.vin, txin.prevout.hash = env.TxHash tx ∧ txin.prevout.n < tx.vout.length

/-- It is in the pool and spends an output of the transaction, directly or through others
    in the pool. -/
inductive Descends (env : Env) (pool : CTxMemPool) (tx : CTransaction) : CTransaction → Prop
  | direct {child} (inside : pool.mapTx[env.TxHash child]? = some child) (spends : SpendsOutput env tx child) : Descends env pool tx child
  | through {parent child} (before : Descends env pool tx parent) (inside : pool.mapTx[env.TxHash child]? = some child)
    (spends : SpendsOutput env parent child) : Descends env pool tx child

/-- The pools that the operations lead to. Only what `accept` lets in, or has let in
    before, is added without a check. -/
inductive Reached (rules : PoolRules) (txs : Set CTransaction) : CTxMemPool → Prop
  | start : Reached rules txs {}
  | accept {pool} (before : Reached rules txs pool) (chain : ActiveChain) (now : Moment) {tx} (inside : tx ∈ txs)
    (fCheckInputs fLimitFree fRejectInsaneFee : Bool) :
    Reached rules txs (pool.accept rules chain now tx fCheckInputs fLimitFree fRejectInsaneFee).mempool
  | addUnchecked {pool} (before : Reached rules txs pool) {tx} (inside : tx ∈ txs)
    (passed : pool.mapTx[rules.env.TxHash tx]? = some tx ∨ ∃ chain now fCheckInputs fLimitFree fRejectInsaneFee,
      (pool.accept rules chain now tx fCheckInputs fLimitFree fRejectInsaneFee).result = .ok ()) :
    Reached rules txs (pool.addUnchecked (rules.env.TxHash tx) tx)
  | remove {pool} (before : Reached rules txs pool) {tx} (inside : tx ∈ txs) (fRecursive : Bool) :
    Reached rules txs (pool.remove rules.env tx fRecursive)
  | removeConflicts {pool} (before : Reached rules txs pool) (tx : CTransaction) : Reached rules txs (pool.removeConflicts rules.env tx)
  | clear {pool} (before : Reached rules txs pool) : Reached rules txs pool.clear

section
variable {rules : PoolRules} {env : Env} {txs : Set CTransaction} {pool : CTxMemPool} {tx : CTransaction}

theorem linked_empty : Linked env {} := by
  constructor
  · intro hash tx found
    rw [ExtTreeMap.getElem?_empty] at found
    contradiction
  · intro point hash i
    rw [ExtTreeMap.getElem?_empty]
    constructor
    · intro found
      contradiction
    · rintro ⟨tx,found,_⟩
      rw [ExtTreeMap.getElem?_empty] at found
      contradiction

theorem mapTx_insert {mapTx : ExtTreeMap uint256 CTransaction} {a b : uint256} :
    (mapTx.insert a tx)[b]? = if a = b then some tx else mapTx[b]? := by
  rw [ExtTreeMap.getElem?_insert]
  simp only [Std.compare_eq_iff_eq]

theorem mapTx_erase {mapTx : ExtTreeMap uint256 CTransaction} {a b : uint256} :
    (mapTx.erase a)[b]? = if a = b then none else mapTx[b]? := by
  rw [ExtTreeMap.getElem?_erase]
  simp only [Std.compare_eq_iff_eq]

theorem mem_mapTx {hash : uint256} : hash ∈ pool.mapTx ↔ ∃ tx, pool.mapTx[hash]? = some tx := by
  rw [← ExtTreeMap.isSome_getElem?_iff_mem,Option.isSome_iff_exists]

theorem mem_mapNextTx {point : COutPoint} : point ∈ pool.mapNextTx ↔ ∃ spender, pool.mapNextTx[point]? = some spender := by
  rw [← ExtTreeMap.isSome_getElem?_iff_mem,Option.isSome_iff_exists]

/-! ### A transaction goes in -/

theorem nodup_of_duplicateInputs {seen : List COutPoint} {vin : List CTxIn} (none' : CTransaction.duplicateInputs seen vin = false) :
    (vin.map CTxIn.prevout).Nodup ∧ ∀ txin ∈ vin, txin.prevout ∉ seen := by
  induction vin generalizing seen with
  | nil => exact ⟨List.nodup_nil,fun _ member => absurd member List.not_mem_nil⟩
  | cons txin rest ih =>
    unfold CTransaction.duplicateInputs at none'
    split at none'
    · contradiction
    next unseen =>
      obtain ⟨nodup,apart⟩ := ih none'
      constructor
      · rw [List.map_cons,List.nodup_cons]
        refine ⟨?_,nodup⟩
        intro again
        obtain ⟨other,member,same⟩ := List.mem_map.mp again
        exact apart other member (same ▸ List.mem_cons_self ..)
      · intro other member
        rcases List.mem_cons.mp member with rfl | later
        · exact unseen
        · exact fun early => apart other later (List.mem_cons_of_mem _ early)

/-- Enough for a transaction to go in without breaking a link. -/
structure Addable (env : Env) (pool : CTxMemPool) (tx : CTransaction) : Prop where
  nodup : (tx.vin.map CTxIn.prevout).Nodup
  same : ∀ other, pool.mapTx[env.TxHash tx]? = some other → other = tx
  free : ∀ txin ∈ tx.vin, ∀ hash i, pool.mapNextTx[txin.prevout]? = some (hash,i) → hash = env.TxHash tx

theorem nextTx_added {hash : uint256} {vin : List CTxIn} (nodup : (vin.map CTxIn.prevout).Nodup) (k : Nat)
    (mapNextTx : ExtTreeMap COutPoint (uint256 × Nat)) (point : COutPoint) (spender : uint256 × Nat) :
    ((vin.zipIdx k).foldl (fun mapNextTx (txin,i) => mapNextTx.insert txin.prevout (hash,i)) mapNextTx)[point]? = some spender ↔
      (∃ i txin, vin[i]? = some txin ∧ txin.prevout = point ∧ spender = (hash,k+i)) ∨
        (∀ txin ∈ vin, txin.prevout ≠ point) ∧ mapNextTx[point]? = some spender := by
  induction vin generalizing k mapNextTx with
  | nil => simp
  | cons txin rest ih =>
    obtain ⟨once,nodup⟩ := List.nodup_cons.mp nodup
    rw [List.zipIdx_cons,List.foldl_cons,ih nodup (k+1)]
    dsimp only
    rw [ExtTreeMap.getElem?_insert]
    simp only [Std.compare_eq_iff_eq]
    constructor
    · rintro (⟨i,other,there,spent,rfl⟩ | ⟨others,found⟩)
      · exact .inl ⟨i+1,other,there,spent,by rw [Nat.add_right_comm,Nat.add_assoc]⟩
      · split at found
        next here =>
          cases found
          exact .inl ⟨0,txin,rfl,here,rfl⟩
        next apart =>
          refine .inr ⟨?_,found⟩
          intro other member
          rcases List.mem_cons.mp member with rfl | later
          · exact apart
          · exact others other later
    · rintro (⟨i,other,there,spent,rfl⟩ | ⟨others,found⟩)
      · cases i with
        | zero =>
          obtain rfl : txin = other := Option.some.inj there
          refine .inr ⟨?_,by rw [if_pos spent]; rfl⟩
          intro later member same
          exact once (List.mem_map.mpr ⟨later,member,same.trans spent.symm⟩)
        | succ i => exact .inl ⟨i,other,there,spent,by rw [Nat.add_right_comm,Nat.add_assoc]⟩
      · refine .inr ⟨fun other member => others other (List.mem_cons_of_mem _ member),?_⟩
        rw [if_neg (others txin (List.mem_cons_self ..))]
        exact found

theorem Linked.addUnchecked (linked : Linked env pool) (addable : Addable env pool tx) :
    Linked env (pool.addUnchecked (env.TxHash tx) tx) := by
  have next := @nextTx_added (env.TxHash tx) tx.vin addable.nodup 0 pool.mapNextTx
  constructor
  · intro hash other found
    rw [addUnchecked_mapTx,mapTx_insert] at found
    split at found
    next here =>
      cases found
      exact here
    · exact linked.keyed hash other found
  · intro point hash i
    rw [addUnchecked_mapTx,mapTx_insert]
    show (List.foldl _ pool.mapNextTx tx.vin.zipIdx)[point]? = _ ↔ _
    rw [next point (hash,i)]
    constructor
    · rintro (⟨j,txin,there,spent,same⟩ | ⟨others,found⟩)
      · obtain ⟨rfl,rfl⟩ : hash = env.TxHash tx ∧ i = j := by simpa using same
        exact ⟨tx,if_pos rfl,txin,there,spent⟩
      · obtain ⟨other,inside,txin,there,spent⟩ := (linked.entries point hash i).mp found
        refine ⟨other,?_,txin,there,spent⟩
        split
        next here =>
          rw [addable.same other (here ▸ inside)]
        · exact inside
    · rintro ⟨other,inside,txin,there,spent⟩
      split at inside
      next here =>
        cases inside
        exact .inl ⟨i,txin,there,spent,by rw [here,Nat.zero_add]⟩
      next apart =>
        have found := (linked.entries point hash i).mpr ⟨other,inside,txin,there,spent⟩
        refine .inr ⟨?_,found⟩
        intro mine member same
        exact apart (addable.free mine member hash i (same ▸ found)).symm

/-- What `accept` lets in may go in. -/
theorem accept_addable (chain : ActiveChain) (now : Moment) (fCheckInputs fLimitFree fRejectInsaneFee : Bool) :
    let outcome := pool.accept rules chain now tx fCheckInputs fLimitFree fRejectInsaneFee
    (outcome.result ≠ .ok () ∧ outcome.mempool = pool) ∨
      outcome.mempool = pool.addUnchecked (rules.env.TxHash tx) tx ∧ Addable rules.env pool tx := by
  have may : checkAlone rules chain now tx = .ok () → rules.env.TxHash tx ∉ pool.mapTx →
      (¬(tx.vin.any fun txin => decide (txin.prevout ∈ pool.mapNextTx)) = true) → Addable rules.env pool tx := by
    intro alone fresh free
    have checked : tx.CheckTransaction = .ok () := by
      unfold checkAlone at alone
      split at alone
      · contradiction
      next checked => exact checked
    have distinct := (CTransaction.CheckTransaction_ok tx checked).2.2.2.2.1
    refine ⟨(nodup_of_duplicateInputs distinct).1,?_,?_⟩
    · intro other inside
      exact absurd (mem_mapTx.mpr ⟨other,inside⟩) fresh
    · intro txin member hash i found
      refine absurd (List.any_eq_true.mpr ⟨txin,member,?_⟩) free
      exact decide_eq_true (mem_mapNextTx.mpr ⟨_,found⟩)
  unfold CTxMemPool.accept
  dsimp only
  split
  · exact .inl ⟨nofun,rfl⟩
  next alone =>
    split
    · exact .inl ⟨nofun,rfl⟩
    next fresh =>
      split
      · exact .inl ⟨nofun,rfl⟩
      next free =>
        split
        · exact .inr ⟨rfl,may alone fresh free⟩
        · split
          · exact .inl ⟨nofun,rfl⟩
          · split
            · exact .inl ⟨nofun,rfl⟩
            · split
              · exact .inl ⟨nofun,rfl⟩
              · split
                · exact .inl ⟨nofun,rfl⟩
                · exact .inr ⟨rfl,may alone fresh free⟩

/-- So may what is in the pool. -/
theorem Linked.addable (linked : Linked env pool) (inside : pool.mapTx[env.TxHash tx]? = some tx) : Addable env pool tx := by
  have entry : ∀ (i : Nat) txin, tx.vin[i]? = some txin → pool.mapNextTx[txin.prevout]? = some (env.TxHash tx,i) := by
    intro i txin there
    exact (linked.entries txin.prevout (env.TxHash tx) i).mpr ⟨tx,inside,txin,there,rfl⟩
  refine ⟨?_,?_,?_⟩
  · rw [List.Nodup,List.pairwise_map,List.pairwise_iff_getElem]
    intro i j low high before same
    have first := entry i _ (List.getElem?_eq_getElem low)
    have second := entry j _ (List.getElem?_eq_getElem high)
    rw [same,second] at first
    have : j = i := (Prod.mk.inj (Option.some.inj first)).2
    omega
  · intro other there
    exact Option.some.inj (there.symm.trans inside)
  · intro txin member hash i found
    obtain ⟨j,low,rfl⟩ := List.getElem_of_mem member
    have mine := entry j _ (List.getElem?_eq_getElem low)
    rw [found] at mine
    exact (Prod.mk.inj (Option.some.inj mine)).1

/-! ### A transaction goes out -/

/-- What is left of a pool: every link, and nothing that spends from what went out. -/
structure Part (env : Env) (pool after : CTxMemPool) : Prop where
  linked : Linked env after
  txs : ∀ (hash : uint256) tx, after.mapTx[hash]? = some tx → pool.mapTx[hash]? = some tx
  next : ∀ (point : COutPoint) spender, after.mapNextTx[point]? = some spender → pool.mapNextTx[point]? = some spender
  closed : ∀ (hash : uint256) tx, pool.mapTx[hash]? = some tx → hash ∉ after.mapTx →
    ∀ i < tx.vout.length, (⟨hash,i⟩ : COutPoint) ∉ after.mapNextTx

theorem Part.refl (linked : Linked env pool) : Part env pool pool :=
  ⟨linked,fun _ _ found => found,fun _ _ found => found,fun _ _ inside outside => absurd (mem_mapTx.mpr ⟨_,inside⟩) outside⟩

theorem Part.notMem {after : CTxMemPool} (part : Part env pool after) {point : COutPoint} (absent : point ∉ pool.mapNextTx) :
    point ∉ after.mapNextTx := by
  intro present
  obtain ⟨spender,found⟩ := mem_mapNextTx.mp present
  exact absent (mem_mapNextTx.mpr ⟨spender,part.next point spender found⟩)

theorem Part.trans {mid after : CTxMemPool} (first : Part env pool mid) (second : Part env mid after) : Part env pool after := by
  refine ⟨second.linked,?_,?_,?_⟩
  · intro hash tx found
    exact first.txs hash tx (second.txs hash tx found)
  · intro point spender found
    exact first.next point spender (second.next point spender found)
  · intro hash tx inside outside i low
    by_cases still : hash ∈ mid.mapTx
    · obtain ⟨other,there⟩ := mem_mapTx.mp still
      obtain rfl : other = tx := Option.some.inj ((first.txs hash other there).symm.trans inside)
      exact second.closed hash other there outside i low
    · exact second.notMem (first.closed hash tx inside still i low)

theorem nextTx_erased (vin : List CTxIn) (mapNextTx : ExtTreeMap COutPoint (uint256 × Nat)) (point : COutPoint) (spender : uint256 × Nat) :
    (vin.foldl (fun mapNextTx txin => mapNextTx.erase txin.prevout) mapNextTx)[point]? = some spender ↔
      (∀ txin ∈ vin, txin.prevout ≠ point) ∧ mapNextTx[point]? = some spender := by
  induction vin generalizing mapNextTx with
  | nil => simp
  | cons txin rest ih =>
    rw [List.foldl_cons,ih,ExtTreeMap.getElem?_erase]
    simp only [Std.compare_eq_iff_eq,List.forall_mem_cons]
    by_cases here : txin.prevout = point
    · simp [here]
    · simp [here]

theorem drop_lookups (inside : env.TxHash tx ∈ pool.mapTx) :
    (∀ hash : uint256, (pool.drop env tx).mapTx[hash]? = if env.TxHash tx = hash then none else pool.mapTx[hash]?) ∧
      ∀ (point : COutPoint) spender, (pool.drop env tx).mapNextTx[point]? = some spender ↔
        (∀ txin ∈ tx.vin, txin.prevout ≠ point) ∧ pool.mapNextTx[point]? = some spender := by
  unfold drop
  rw [if_pos inside]
  exact ⟨fun _ => mapTx_erase,fun point spender => nextTx_erased tx.vin pool.mapNextTx point spender⟩

/-- The last lines of `remove`. -/
theorem Linked.drop (linked : Linked env pool) (same : ∀ other, pool.mapTx[env.TxHash tx]? = some other → other = tx) :
    Linked env (pool.drop env tx) ∧ env.TxHash tx ∉ (pool.drop env tx).mapTx := by
  by_cases inside : env.TxHash tx ∈ pool.mapTx
  · obtain ⟨txs,next⟩ := @drop_lookups env pool tx inside
    obtain ⟨other,there⟩ := mem_mapTx.mp inside
    obtain rfl := same other there
    refine ⟨⟨?_,?_⟩,?_⟩
    · intro hash tx found
      rw [txs] at found
      split at found
      · contradiction
      · exact linked.keyed hash tx found
    · intro point hash i
      rw [next,txs,linked.entries]
      constructor
      · rintro ⟨others,tx,found,txin,here,spent⟩
        refine ⟨tx,?_,txin,here,spent⟩
        split
        next mine =>
          obtain rfl : other = tx := Option.some.inj (there.symm.trans (mine ▸ found))
          exact absurd spent (others txin (List.mem_of_getElem? here))
        · exact found
      · rintro ⟨tx,found,txin,here,spent⟩
        split at found
        · contradiction
        next apart =>
          refine ⟨?_,tx,found,txin,here,spent⟩
          intro mine member same
          have entry := (linked.entries point hash i).mpr ⟨tx,found,txin,here,spent⟩
          exact apart ((linked.addable there).free mine member hash i (same ▸ entry)).symm
    · intro still
      obtain ⟨tx,found⟩ := mem_mapTx.mp still
      rw [txs,if_pos rfl] at found
      contradiction
  · unfold CTxMemPool.drop
    rw [if_neg inside]
    exact ⟨linked,inside⟩

theorem Linked.drop_part (linked : Linked env pool) (same : ∀ other, pool.mapTx[env.TxHash tx]? = some other → other = tx)
    (unspent : ∀ i < tx.vout.length, (⟨env.TxHash tx,i⟩ : COutPoint) ∉ pool.mapNextTx) : Part env pool (pool.drop env tx) := by
  have after := (linked.drop same).1
  by_cases inside : env.TxHash tx ∈ pool.mapTx
  · obtain ⟨txs,next⟩ := @drop_lookups env pool tx inside
    have fewer : ∀ (point : COutPoint) spender, (pool.drop env tx).mapNextTx[point]? = some spender → pool.mapNextTx[point]? = some spender :=
      fun point spender found => ((next point spender).mp found).2
    refine ⟨after,?_,fewer,?_⟩
    · intro hash other found
      rw [txs] at found
      split at found
      · contradiction
      · exact found
    · intro hash other there outside i low spent
      obtain ⟨spender,found⟩ := mem_mapNextTx.mp spent
      by_cases mine : env.TxHash tx = hash
      · subst mine
        obtain rfl := same other there
        exact unspent i low (mem_mapNextTx.mpr ⟨spender,fewer _ _ found⟩)
      · exact outside (mem_mapTx.mpr ⟨other,by rw [txs,if_neg mine]; exact there⟩)
  · unfold CTxMemPool.drop
    rw [if_neg inside]
    exact Part.refl linked

/-- No more than so many transactions of the pool are made after the one with this hash. -/
def Room (made : uint256 → Nat) (pool : CTxMemPool) (hash : uint256) (n : Nat) : Prop :=
  ∀ list : List uint256, list.Nodup → (∀ k ∈ list, k ∈ pool.mapTx ∧ made hash < made k) → list.length ≤ n

theorem room_size (made : uint256 → Nat) (pool : CTxMemPool) (hash : uint256) : Room made pool hash pool.mapTx.size := by
  intro list nodup all
  have sub : list ⊆ pool.mapTx.keys := fun k member => ExtTreeMap.mem_keys.mpr (all k member).1
  have short := (nodup.subperm sub).length_le
  rwa [ExtTreeMap.length_keys] at short

variable {made : uint256 → Nat} {n : Nat}

theorem Room.part {after : CTxMemPool} (room : Room made pool (env.TxHash tx) n) (part : Part env pool after) :
    Room made after (env.TxHash tx) n := by
  intro list nodup all
  refine room list nodup fun k member => ⟨?_,(all k member).2⟩
  obtain ⟨tx,found⟩ := mem_mapTx.mp (all k member).1
  exact mem_mapTx.mpr ⟨tx,part.txs k tx found⟩

theorem Room.child {hash child : uint256} (room : Room made pool hash (n+1)) (inside : child ∈ pool.mapTx) (later : made hash < made child) :
    Room made pool child n := by
  intro list nodup all
  have fresh : child ∉ list := fun member => Nat.lt_irrefl _ (all child member).2
  have longer := room (child :: list) (List.nodup_cons.mpr ⟨fresh,nodup⟩) (by
    intro k member
    rcases List.mem_cons.mp member with rfl | old
    · exact ⟨inside,later⟩
    · exact ⟨(all k old).1,later.trans (all k old).2⟩)
  rw [List.length_cons] at longer
  omega

/-- What `remove` leaves when it goes on to the transactions that spend from this one. -/
structure Cut (env : Env) (pool after : CTxMemPool) (tx : CTransaction) : Prop extends Part env pool after where
  gone : env.TxHash tx ∉ after.mapTx
  unspent : ∀ i < tx.vout.length, (⟨env.TxHash tx,i⟩ : COutPoint) ∉ after.mapNextTx

theorem Linked.drop_cut (linked : Linked env pool) (same : ∀ other, pool.mapTx[env.TxHash tx]? = some other → other = tx)
    (unspent : ∀ i < tx.vout.length, (⟨env.TxHash tx,i⟩ : COutPoint) ∉ pool.mapNextTx) : Cut env pool (pool.drop env tx) tx := by
  have part := linked.drop_part same unspent
  exact ⟨part,(linked.drop same).2,fun i low => part.notMem (unspent i low)⟩

/-- The transaction that spends an output, found over both maps. -/
theorem Linked.spender (linked : Linked env pool) {point : COutPoint} (spent : point ∈ pool.mapNextTx) :
    ∃ child, (pool.mapNextTx[point]?).bind (fun spender => pool.mapTx[spender.1]?) = some child ∧
      pool.mapTx[env.TxHash child]? = some child ∧ ∃ txin ∈ child.vin, txin.prevout = point := by
  obtain ⟨⟨hash,i⟩,found⟩ := mem_mapNextTx.mp spent
  obtain ⟨child,inside,txin,here,spends⟩ := (linked.entries point hash i).mp found
  refine ⟨child,by rw [found]; exact inside,?_,txin,List.mem_of_getElem? here,spends⟩
  rw [linked.keyed hash child inside]
  exact inside

/-- What spends an output after the cut spent it before, and that has gone. -/
theorem Cut.freed {after : CTxMemPool} (cut : Cut env pool after tx) {point : COutPoint}
    (found : (pool.mapNextTx[point]?).bind (fun spender => pool.mapTx[spender.1]?) = some tx) : point ∉ after.mapNextTx := by
  intro still
  obtain ⟨⟨hash,i⟩,entry⟩ := mem_mapNextTx.mp still
  obtain ⟨other,left,_⟩ := (cut.linked.entries _ hash i).mp entry
  rw [cut.next _ _ entry,Option.bind_some,cut.txs hash other left] at found
  obtain rfl := Option.some.inj found
  rw [← cut.linked.keyed hash other left] at left
  exact cut.gone (mem_mapTx.mpr ⟨other,left⟩)

/-- The transactions of the pool are among those whose hashes are known to be well behaved. -/
def Within (txs : Set CTransaction) (pool : CTxMemPool) : Prop := ∀ (hash : uint256) tx, pool.mapTx[hash]? = some tx → tx ∈ txs

theorem Within.part {after : CTxMemPool} (known : Within txs pool) (part : Part env pool after) : Within txs after :=
  fun hash tx found => known hash tx (part.txs hash tx found)

theorem Hashes.same (hashes : Hashes env txs) (linked : Linked env pool) (known : Within txs pool) (inside : tx ∈ txs) :
    ∀ other, pool.mapTx[env.TxHash tx]? = some other → other = tx := by
  intro other found
  exact hashes.unique other (known _ other found) tx inside (linked.keyed _ other found)

theorem made_lt (order : ∀ tx ∈ txs, ∀ txin ∈ tx.vin, made txin.prevout.hash < made (env.TxHash tx)) {child : CTransaction} (inside : child ∈ txs)
    {hash : uint256} {i : Nat} (spends : ∃ txin ∈ child.vin, txin.prevout = (⟨hash,i⟩ : COutPoint)) : made hash < made (env.TxHash child) := by
  obtain ⟨txin,member,same⟩ := spends
  have before := order child inside txin member
  rwa [same] at before

theorem removeRecursive_succ (fuel : Nat) (pool : CTxMemPool) (tx : CTransaction) :
    removeRecursive env (fuel+1) pool tx = ((List.range tx.vout.length).foldl (fun pool i =>
      ((pool.mapNextTx[(⟨env.TxHash tx,i⟩ : COutPoint)]?).bind fun spender => pool.mapTx[spender.1]?).elim pool fun child =>
        removeRecursive env fuel pool child) pool).drop env tx := by
  rw [removeRecursive]
  congr 2
  funext pool i
  cases (pool.mapNextTx[(⟨env.TxHash tx,i⟩ : COutPoint)]?).bind fun spender => pool.mapTx[spender.1]? <;> rfl

/-- The induction is on the fuel: a transaction that spends from this one is made later,
    and fewer are made after it. -/
theorem removeRecursive_cut (hashes : Hashes env txs) (order : ∀ tx ∈ txs, ∀ txin ∈ tx.vin, made txin.prevout.hash < made (env.TxHash tx))
    {fuel : Nat} (linked : Linked env pool) (known : Within txs pool) (inside : tx ∈ txs) (room : Room made pool (env.TxHash tx) fuel) :
    Cut env pool (removeRecursive env fuel pool tx) tx := by
  induction fuel generalizing pool tx with
  | zero =>
    refine linked.drop_cut (hashes.same linked known inside) fun i _ spent => ?_
    obtain ⟨child,_,there,spends⟩ := linked.spender spent
    have one := room [env.TxHash child] (List.nodup_singleton _) (by
      intro k member
      obtain rfl := List.mem_singleton.mp member
      exact ⟨mem_mapTx.mpr ⟨child,there⟩,made_lt order (known _ child there) spends⟩)
    exact absurd one (by simp)
  | succ fuel ih =>
    have loop : ∀ (list : List Nat) (pool : CTxMemPool), Linked env pool → Within txs pool → Room made pool (env.TxHash tx) (fuel+1) →
        let after := list.foldl (fun pool i =>
          ((pool.mapNextTx[(⟨env.TxHash tx,i⟩ : COutPoint)]?).bind fun spender => pool.mapTx[spender.1]?).elim pool fun child =>
            removeRecursive env fuel pool child) pool
        Part env pool after ∧ ∀ i ∈ list, (⟨env.TxHash tx,i⟩ : COutPoint) ∉ after.mapNextTx := by
      intro list
      induction list with
      | nil => exact fun pool linked _ _ => ⟨Part.refl linked,fun i member => absurd member List.not_mem_nil⟩
      | cons i rest turns =>
        intro pool linked known room
        rw [List.foldl_cons]
        by_cases spent : (⟨env.TxHash tx,i⟩ : COutPoint) ∈ pool.mapNextTx
        · obtain ⟨child,found,there,spends⟩ := linked.spender spent
          rw [found,Option.elim_some]
          have isKnown := known _ child there
          have cut := ih linked known isKnown (room.child (mem_mapTx.mpr ⟨child,there⟩) (made_lt order isKnown spends))
          obtain ⟨part,others⟩ := turns _ cut.linked (known.part cut.toPart) (room.part cut.toPart)
          refine ⟨cut.toPart.trans part,fun j member => ?_⟩
          rcases List.mem_cons.mp member with rfl | rest
          · exact part.notMem (cut.freed found)
          · exact others j rest
        · have none' : pool.mapNextTx[(⟨env.TxHash tx,i⟩ : COutPoint)]? = none := by
            rw [← Option.not_isSome_iff_eq_none,ExtTreeMap.isSome_getElem?_iff_mem]
            exact spent
          rw [none',Option.bind_none,Option.elim_none]
          obtain ⟨part,others⟩ := turns pool linked known room
          refine ⟨part,fun j member => ?_⟩
          rcases List.mem_cons.mp member with rfl | rest
          · exact part.notMem spent
          · exact others j rest
    obtain ⟨part,unspent⟩ := loop (List.range tx.vout.length) pool linked known room
    have last := part.linked.drop_cut (hashes.same part.linked (known.part part) inside) fun i low => unspent i (List.mem_range.mpr low)
    rw [removeRecursive_succ]
    exact ⟨part.trans last.toPart,last.gone,last.unspent⟩

theorem remove_cut (hashes : Hashes env txs) (linked : Linked env pool) (known : Within txs pool) (inside : tx ∈ txs) :
    Cut env pool (pool.remove env tx true) tx := by
  obtain ⟨made,order⟩ := hashes.order
  exact removeRecursive_cut hashes order linked known inside (room_size made pool (env.TxHash tx))

theorem Cut.no_descendant {after : CTxMemPool} (cut : Cut env pool after tx) {other : CTransaction} (descends : Descends env pool tx other) :
    env.TxHash other ∉ after.mapTx := by
  have spent : ∀ (parent child : CTransaction), SpendsOutput env parent child → env.TxHash child ∈ after.mapTx →
      pool.mapTx[env.TxHash child]? = some child → ∃ i < parent.vout.length, (⟨env.TxHash parent,i⟩ : COutPoint) ∈ after.mapNextTx := by
    rintro parent child ⟨txin,member,hash,low⟩ still inside
    obtain ⟨other,left⟩ := mem_mapTx.mp still
    obtain rfl : child = other := Option.some.inj (inside.symm.trans (cut.txs _ other left))
    obtain ⟨j,short,rfl⟩ := List.getElem_of_mem member
    refine ⟨_,low,?_⟩
    rw [← hash]
    exact mem_mapNextTx.mpr ⟨_,(cut.linked.entries _ (env.TxHash child) j).mpr ⟨child,left,_,List.getElem?_eq_getElem short,rfl⟩⟩
  induction descends with
  | @direct child inside spends =>
    intro still
    obtain ⟨i,low,entry⟩ := spent tx child spends still inside
    exact cut.unspent i low entry
  | @through parent child before inside spends ih =>
    intro still
    obtain ⟨i,low,entry⟩ := spent parent child spends still inside
    have there : pool.mapTx[env.TxHash parent]? = some parent := by
      cases before with
      | direct there _ => exact there
      | through _ there _ => exact there
    exact cut.closed _ parent there ih i low entry

/-! ### Any sequence of operations -/

theorem Within.addUnchecked (known : Within txs pool) (inside : tx ∈ txs) : Within txs (pool.addUnchecked (env.TxHash tx) tx) := by
  intro hash other found
  rw [addUnchecked_mapTx,mapTx_insert] at found
  split at found
  · cases found
    exact inside
  · exact known hash other found

theorem removeConflicts_eq (pool : CTxMemPool) (tx : CTransaction) :
    pool.removeConflicts env tx = tx.vin.foldl (fun pool txin =>
      ((pool.mapNextTx[txin.prevout]?).bind fun spender => pool.mapTx[spender.1]?).elim pool fun txConflict =>
        if txConflict.eq tx then pool else pool.remove env txConflict true) pool := by
  rw [removeConflicts]
  congr 1
  funext pool txin
  cases (pool.mapNextTx[txin.prevout]?).bind fun spender => pool.mapTx[spender.1]? <;> rfl

/-- An input is free afterwards if what spends it in the pool does not compare equal. -/
theorem removeConflicts_part (hashes : Hashes env txs) (linked : Linked env pool) (known : Within txs pool) (tx : CTransaction) :
    Part env pool (pool.removeConflicts env tx) ∧
      ((∀ child, pool.mapTx[env.TxHash child]? = some child → (∃ txin ∈ child.vin, ∃ mine ∈ tx.vin, txin.prevout = mine.prevout) → child.eq tx = false) →
        ∀ mine ∈ tx.vin, mine.prevout ∉ (pool.removeConflicts env tx).mapNextTx) := by
  have loop : ∀ (vin : List CTxIn) (pool : CTxMemPool), Linked env pool → Within txs pool →
      let after := vin.foldl (fun pool txin =>
        ((pool.mapNextTx[txin.prevout]?).bind fun spender => pool.mapTx[spender.1]?).elim pool fun txConflict =>
          if txConflict.eq tx then pool else pool.remove env txConflict true) pool
      Part env pool after ∧
        ((∀ child, pool.mapTx[env.TxHash child]? = some child → (∃ txin ∈ child.vin, ∃ mine ∈ vin, txin.prevout = mine.prevout) → child.eq tx = false) →
          ∀ mine ∈ vin, mine.prevout ∉ after.mapNextTx) := by
    intro vin
    induction vin with
    | nil => exact fun pool linked known => ⟨Part.refl linked,fun _ mine member => absurd member List.not_mem_nil⟩
    | cons txin rest ih =>
      intro pool linked known
      rw [List.foldl_cons]
      by_cases spent : txin.prevout ∈ pool.mapNextTx
      · obtain ⟨child,found,there,spends⟩ := linked.spender spent
        rw [found,Option.elim_some]
        split
        next equal =>
          obtain ⟨part,_⟩ := ih pool linked known
          refine ⟨part,fun apart => ?_⟩
          obtain ⟨mine,member,same⟩ := spends
          rw [apart child there ⟨mine,member,txin,List.mem_cons_self ..,same⟩] at equal
          contradiction
        · have cut := remove_cut hashes linked known (known _ _ there)
          obtain ⟨part,free⟩ := ih _ cut.linked (known.part cut.toPart)
          refine ⟨cut.toPart.trans part,fun apart mine member => ?_⟩
          rcases List.mem_cons.mp member with rfl | later
          · exact part.notMem (cut.freed found)
          · refine free (fun other left conflicts => ?_) mine later
            obtain ⟨theirs,inside,ours,here,same⟩ := conflicts
            exact apart other (cut.txs _ other left) ⟨theirs,inside,ours,List.mem_cons_of_mem _ here,same⟩
      · have none' : pool.mapNextTx[txin.prevout]? = none := by
          rw [← Option.not_isSome_iff_eq_none,ExtTreeMap.isSome_getElem?_iff_mem]
          exact spent
        rw [none',Option.bind_none,Option.elim_none]
        obtain ⟨part,free⟩ := ih pool linked known
        refine ⟨part,fun apart mine member => ?_⟩
        rcases List.mem_cons.mp member with rfl | later
        · exact part.notMem spent
        · refine free (fun other left conflicts => ?_) mine later
          obtain ⟨theirs,inside,ours,here,same⟩ := conflicts
          exact apart other left ⟨theirs,inside,ours,List.mem_cons_of_mem _ here,same⟩
  rw [removeConflicts_eq]
  exact loop tx.vin pool linked known

theorem removeConflicts_keeps (hashes : Hashes env txs) (linked : Linked env pool) (known : Within txs pool) (tx : CTransaction) :
    Linked env (pool.removeConflicts env tx) ∧ Within txs (pool.removeConflicts env tx) := by
  have part := (removeConflicts_part hashes linked known tx).1
  exact ⟨part.linked,known.part part⟩

theorem accept_keeps (linked : Linked rules.env pool) (known : Within txs pool) (inside : tx ∈ txs) (chain : ActiveChain) (now : Moment)
    (fCheckInputs fLimitFree fRejectInsaneFee : Bool) :
    let after := (pool.accept rules chain now tx fCheckInputs fLimitFree fRejectInsaneFee).mempool
    Linked rules.env after ∧ Within txs after := by
  rcases @accept_addable rules pool tx chain now fCheckInputs fLimitFree fRejectInsaneFee with ⟨_,same⟩ | ⟨added,addable⟩
  · rw [same]
    exact ⟨linked,known⟩
  · rw [added]
    exact ⟨linked.addUnchecked addable,known.addUnchecked inside⟩

theorem Within.drop (known : Within txs pool) (tx : CTransaction) : Within txs (pool.drop env tx) := by
  intro hash other found
  by_cases there : env.TxHash tx ∈ pool.mapTx
  · rw [(drop_lookups there).1] at found
    split at found
    · contradiction
    · exact known hash other found
  · rw [CTxMemPool.drop,if_neg there] at found
    exact known hash other found

theorem remove_keeps (hashes : Hashes env txs) (linked : Linked env pool) (known : Within txs pool) (inside : tx ∈ txs) (fRecursive : Bool) :
    Linked env (pool.remove env tx fRecursive) ∧ Within txs (pool.remove env tx fRecursive) := by
  cases fRecursive with
  | true =>
    have cut := remove_cut hashes linked known inside
    exact ⟨cut.linked,known.part cut.toPart⟩
  | false => exact ⟨(linked.drop (hashes.same linked known inside)).1,known.drop tx⟩

theorem Reached.keeps (hashes : Hashes rules.env txs) (reached : Reached rules txs pool) : Linked rules.env pool ∧ Within txs pool := by
  induction reached with
  | start =>
    refine ⟨linked_empty,fun hash tx found => ?_⟩
    rw [ExtTreeMap.getElem?_empty] at found
    contradiction
  | accept _ chain now inside fCheckInputs fLimitFree fRejectInsaneFee ih =>
    exact accept_keeps ih.1 ih.2 inside chain now fCheckInputs fLimitFree fRejectInsaneFee
  | @addUnchecked pool _ tx inside passed ih =>
    obtain ⟨linked,known⟩ := ih
    refine ⟨linked.addUnchecked ?_,known.addUnchecked inside⟩
    rcases passed with there | ⟨chain,now,fCheckInputs,fLimitFree,fRejectInsaneFee,ok⟩
    · exact linked.addable there
    · rcases @accept_addable rules pool tx chain now fCheckInputs fLimitFree fRejectInsaneFee with ⟨fails,_⟩ | ⟨_,addable⟩
      · exact absurd ok fails
      · exact addable
  | remove _ inside fRecursive ih => exact remove_keeps hashes ih.1 ih.2 inside fRecursive
  | removeConflicts _ tx ih => exact removeConflicts_keeps hashes ih.1 ih.2 tx
  | clear _ ih =>
    refine ⟨linked_empty,fun hash tx found => ?_⟩
    change ({} : CTxMemPool).mapTx[hash]? = some tx at found
    rw [ExtTreeMap.getElem?_empty] at found
    contradiction

/-- Whatever was done to a pool, its entries are the inputs of its transactions; and
    removing a transaction with what spends from it leaves no descendant of it. -/
theorem pool_linked (hashes : Hashes rules.env txs) (reached : Reached rules txs pool) :
    Linked rules.env pool ∧ ∀ tx ∈ txs, ∀ other, Descends rules.env pool tx other →
      rules.env.TxHash other ∉ (pool.remove rules.env tx true).mapTx := by
  obtain ⟨linked,known⟩ := reached.keeps hashes
  exact ⟨linked,fun tx inside other => (remove_cut hashes linked known inside).no_descendant⟩

end

/-! ### A run -/

private def linkRules : PoolRules where
  env := ⟨fun tx => 100+tx.nLockTime,fun _ => 0,fun _ _ => 0,fun _ _ _ _ _ => true,fun _ _ _ => true⟩
  fTestNet := true
  IsPushOnly := fun _ => true
  HasCanonicalPushes := fun _ => true
  IsStandard := fun _ => true
  IsInputStandard := fun _ _ _ => true

private def linkChain : ActiveChain where
  pcoinsTip := {base := ⟨fun _ => none,none⟩}
  nBestHeight := 5

private def parentTx : CTransaction := ⟨1,[⟨⟨1,0⟩,[],0⟩],[⟨Cash.ofMoney (EUR,10),[]⟩],1,[]⟩
private def childTx : CTransaction := ⟨1,[⟨⟨101,0⟩,[],0⟩],[⟨Cash.ofMoney (EUR,10),[]⟩],2,[]⟩
private def family : Set CTransaction := fun tx => tx = parentTx ∨ tx = childTx

private def familyPool : CTxMemPool :=
  ((({} : CTxMemPool).accept linkRules linkChain ⟨0,false⟩ parentTx false false false).mempool.accept linkRules linkChain ⟨0,false⟩ childTx false
    false false).mempool

private theorem family_hashes : Hashes linkRules.env family := by
  constructor
  · rintro a (rfl | rfl) b (rfl | rfl) same
    · rfl
    · exact absurd same (by decide)
    · exact absurd same (by decide)
    · rfl
  · refine ⟨id,?_⟩
    rintro tx (rfl | rfl) txin member <;> obtain rfl := List.mem_singleton.mp member <;> decide

theorem pool_linked_sample :
    familyPool.mapTx.size = 2 ∧ linkRules.env.TxHash childTx ∉ (familyPool.remove linkRules.env parentTx true).mapTx := by
  have reached : Reached linkRules family familyPool :=
    (Reached.start.accept linkChain ⟨0,false⟩ (.inl rfl) false false false).accept linkChain ⟨0,false⟩ (.inr rfl) false false false
  have there : familyPool.mapTx[linkRules.env.TxHash childTx]? = some childTx := by decide +kernel
  have spends : SpendsOutput linkRules.env parentTx childTx := ⟨_,List.mem_singleton_self _,by decide,by decide⟩
  exact ⟨by decide +kernel,(pool_linked family_hashes reached).2 parentTx (.inl rfl) childTx (.direct there spends)⟩

end Tetra.CTxMemPool
