import Mathlib
import Tetra.AddToWallet

/-!
Committing a transaction that was created: the reserved key is kept, the transaction goes
into the wallet and its coins are marked, and only then is it shown to the memory pool,
which may refuse it.
-/
namespace Tetra
open Std (ExtTreeMap)

/-- The memory pool that a transaction is shown to, with the rules and the chain it goes by. -/
structure Broadcast where
  rules : PoolRules
  chain : ActiveChain
  moment : Moment
  mempool : CTxMemPool := {}

/-- The answer of the pool to a transaction of the wallet itself. -/
def Broadcast.accept (b : Broadcast) (tx : CTransaction) : AcceptOutcome := b.mempool.accept b.rules b.chain b.moment tx true false

namespace LiveWallet

/-- `CWalletTx()` -/
def nullTx : WalletEntry := .ofTransaction ⟨CTransaction.CURRENT_VERSION,[],[],0,[]⟩

/-- The loop of `CommitTransaction` over the inputs; `mapWallet[hash]` puts an empty record
    where there is none. -/
def markCoins : List CTxIn → WalletMap → Except Reject Unit × WalletMap
  | [],mapWallet => (.ok (),mapWallet)
  | txin :: rest,mapWallet =>
    let coin := (mapWallet[txin.prevout.hash]?.getD nullTx).BindWallet
    match coin.MarkSpent txin.prevout.n with
    | .error e => (.error e,mapWallet.insert txin.prevout.hash coin)
    | .ok coin => markCoins rest (mapWallet.insert txin.prevout.hash coin)

/-- `reservekey` is the number of the reservation. Once the pool has let the transaction in,
    it tells the wallet; an exception there makes `AcceptToMemoryPool` return false. -/
def CommitTransaction (node : WalletNode) (b : Broadcast) (w : LiveWallet) (wtxNew : WalletEntry) (reservekey : Nat) :
    Except Reject Bool × LiveWallet × CTxMemPool :=
  let w := {w with pool := w.pool.KeepKey reservekey}
  match w.AddToWallet node b.moment.GetAdjustedTime wtxNew with
  | (.error e,w) => (.error e,w,b.mempool)
  | (.ok _,w) =>
    match markCoins wtxNew.vin w.mapWallet with
    | (.error e,mapWallet) => (.error e,{w with mapWallet := mapWallet},b.mempool)
    | (.ok (),mapWallet) =>
      let hash := node.env.TxHash wtxNew.toCTransaction
      let w := {w with mapWallet := mapWallet,mapRequestCount := w.mapRequestCount.insert hash 0}
      let outcome := b.accept wtxNew.toCTransaction
      match outcome.result with
      | .error (.asserts condition) => (.error (.asserts condition),w,outcome.mempool)
      | .error _ => (.ok false,w,outcome.mempool)
      | .ok () =>
        match w.AddToWalletIfInvolvingMe node b.moment.GetAdjustedTime wtxNew.toCTransaction none true with
        | (.error _,w) => (.ok false,w,outcome.mempool)
        | (.ok _,w) => (.ok true,w,outcome.mempool)

end LiveWallet

/-! ### All or nothing -/

namespace LiveWallet
variable (node : WalletNode) (b : Broadcast) (w : LiveWallet) (wtxNew : WalletEntry) (reservekey : Nat)

/-- Nothing of what the call works on is different: the records, of which the cached values
    are no part, the order counter, and the reservations. -/
structure Unchanged (w w' : LiveWallet) : Prop where
  mapWallet : ∀ hash : uint256, (w'.mapWallet[hash]?.map fun wtx => wtx.toWalletRecord) = w.mapWallet[hash]?.map fun wtx => wtx.toWalletRecord
  spent : ∀ out, w'.mapWallet.spent out = w.mapWallet.spent out
  nOrderPosNext : w'.nOrderPosNext = w.nOrderPosNext
  reserved : w'.pool.reserved = w.pool.reserved

/-- The transaction is recorded, and its coins are marked and no others. -/
structure Committed (w w' : LiveWallet) : Prop where
  recorded : node.env.TxHash wtxNew.toCTransaction ∈ w'.mapWallet
  spent : ∀ out, w'.mapWallet.spent out = true ↔ w.mapWallet.spent out = true ∨ ∃ txin ∈ wtxNew.vin, txin.prevout = out

def AllOrNothing (result : Bool) (w w' : LiveWallet) : Prop :=
  (result = false → Unchanged w w') ∧ (result = true → Committed node wtxNew w w')

/-- Every coin of the inputs is there with all its flags, and marked. -/
def Complete (vin : List CTxIn) (m : WalletMap) : Prop :=
  ∀ txin ∈ vin, ∃ coin, m[txin.prevout.hash]? = some coin ∧ coin.vfSpent.length = coin.vout.length ∧ coin.IsSpent txin.prevout.n = true

/-- There is nothing to do: no key is reserved, the transaction is there with all that it
    brings, and its coins are marked. -/
structure Idle : Prop where
  reserved : w.pool.reserved[reservekey]? = none
  recorded : ∃ wtx, w.mapWallet[node.env.TxHash wtxNew.toCTransaction]? = some wtx ∧ (wtx.merge wtxNew).2 = false
  complete : Complete wtxNew.vin w.mapWallet

/-- The transaction brings no spent flags but those that are set and those of its own inputs. -/
def BringsNoFlags : Prop :=
  ∀ i < wtxNew.vout.length, wtxNew.IsSpent i = true →
    (∀ wtx, w.mapWallet[node.env.TxHash wtxNew.toCTransaction]? = some wtx → i < wtx.vfSpent.length) →
    w.mapWallet.spent ⟨node.env.TxHash wtxNew.toCTransaction,i⟩ = true ∨
      ∃ txin ∈ wtxNew.vin, txin.prevout = ⟨node.env.TxHash wtxNew.toCTransaction,i⟩

/-- Whether `AddToWallet` goes on after the record. -/
def goesOn : Bool :=
  match w.mapWallet[node.env.TxHash wtxNew.toCTransaction]? with
  | none => node.WriteTx (node.env.TxHash wtxNew.toCTransaction)
  | some wtx => !((wtx.merge wtxNew).2 && !node.WriteTx (node.env.TxHash wtxNew.toCTransaction))

/-- The keys as they are when the transaction is shown to the pool. -/
def keysShown : LiveWallet :=
  let w := {w with pool := w.pool.KeepKey reservekey}
  if w.goesOn node wtxNew then (w.useDefaultKey node wtxNew.vout).2 else w

/-- The pool lets the transaction in, and the wallet that is told of it throws nothing: its
    debit is in range, and so is what it does with the default key. -/
structure Welcome : Prop where
  accepted : (b.accept wtxNew.toCTransaction).result = .ok ()
  debit : ∃ nDebit,
    node.GetDebit (w.mapWallet.insert (node.env.TxHash wtxNew.toCTransaction) wtxNew) wtxNew.toCTransaction = .ok nDebit
  keys : ((w.keysShown node wtxNew reservekey).useDefaultKey node wtxNew.vout).1 = .ok ()

/-- When a call that returns does all or nothing. -/
structure Whole : Prop where
  welcome : w.Welcome node b wtxNew reservekey → w.BringsNoFlags node wtxNew
  refused : ¬ w.Welcome node b wtxNew reservekey → w.Idle node wtxNew reservekey

end LiveWallet

/-! ### Records that grow -/

/-- The record with other flags. -/
def WalletRecord.reflagged (wtx : WalletRecord) (vfSpent : List Bool) : WalletRecord := {wtx with vfSpent := vfSpent}

namespace WalletEntry

/-- Some outputs are marked in a record, and its flags are made as many as its outputs then. -/
structure Grown (marked : Nat → Prop) (wtx wtx' : WalletEntry) : Prop where
  same : wtx'.toWalletRecord = wtx.toWalletRecord.reflagged wtx'.vfSpent
  fresh : ∀ i < wtx.vout.length, wtx'.IsSpent i = true → wtx.IsSpent i = true ∨ marked i
  keeps : ∀ i < wtx.vout.length, wtx.IsSpent i = true → wtx'.IsSpent i = true
  resized : wtx'.vfSpent = wtx.vfSpent ∨ wtx'.vfSpent.length = wtx.vout.length ∧ ∃ i, marked i

variable {marked : Nat → Prop} {wtx wtx' wtx'' : WalletEntry}

theorem Grown.tx (grown : Grown marked wtx wtx') : wtx'.toCTransaction = wtx.toCTransaction := by
  rw [grown.same]
  rfl

theorem grown_of_record (same : wtx'.toWalletRecord = wtx.toWalletRecord) : Grown marked wtx wtx' where
  same := by
    rw [same]
    rfl
  fresh i _ spent := by
    unfold IsSpent at spent ⊢
    rw [same] at spent
    exact .inl spent
  keeps i _ spent := by
    unfold IsSpent at spent ⊢
    rwa [same]
  resized := .inl (by rw [same])

theorem Grown.trans (first : Grown marked wtx wtx') (second : Grown marked wtx' wtx'') : Grown marked wtx wtx'' where
  same := by
    have back := second.same
    rw [first.same] at back
    exact back
  fresh i inside spent := by
    have vout : wtx'.vout = wtx.vout := congrArg CTransaction.vout first.tx
    rcases second.fresh i (vout ▸ inside) spent with before | here
    · exact first.fresh i inside before
    · exact .inr here
  keeps i inside spent := by
    have vout : wtx'.vout = wtx.vout := congrArg CTransaction.vout first.tx
    exact second.keeps i (vout ▸ inside) (first.keeps i inside spent)
  resized := by
    have vout : wtx'.vout = wtx.vout := congrArg CTransaction.vout first.tx
    rcases second.resized with kept | full
    · rw [kept]
      exact first.resized
    · exact .inr ⟨full.1.trans (congrArg List.length vout),full.2⟩

theorem grown_marks (nOut : Nat) (kept : Option Cash) (inside : nOut < wtx.vout.length) : Grown (· = nOut) wtx (wtx.marks nOut kept) where
  same := rfl
  fresh i _ spent := by
    rw [marks_IsSpent wtx nOut i kept inside] at spent
    rcases Bool.or_eq_true_iff.mp spent with here | before
    · exact .inr (of_decide_eq_true here)
    · exact .inl (Bool.and_eq_true_iff.mp before).2
  keeps i within spent := by
    rw [marks_IsSpent wtx nOut i kept inside,spent]
    simp [within]
  resized := .inr ⟨by simp [marks,List.takeD_length],nOut,rfl⟩

theorem setSpent_Grown (nOut : Nat) (inside : nOut < wtx.vout.length) : Grown (· = nOut) wtx (wtx.setSpent nOut) := by
  refine (grown_marks nOut none inside).trans (grown_of_record ?_)
  rfl

end WalletEntry

namespace WalletMap

/-- The same keys, and every record has grown. -/
def Grown (marked : COutPoint → Prop) (m m' : WalletMap) : Prop :=
  ∀ k : uint256, (m[k]? = none ∧ m'[k]? = none) ∨
    ∃ wtx wtx', m[k]? = some wtx ∧ m'[k]? = some wtx' ∧ WalletEntry.Grown (fun i => marked ⟨k,i⟩) wtx wtx'

variable {marked : COutPoint → Prop} {m m' m'' : WalletMap}

theorem grown_refl (m : WalletMap) : Grown marked m m := by
  intro k
  cases found : m[k]? with
  | none => exact .inl ⟨rfl,rfl⟩
  | some wtx => exact .inr ⟨wtx,wtx,rfl,rfl,WalletEntry.grown_of_record rfl⟩

theorem Grown.trans (first : Grown marked m m') (second : Grown marked m' m'') : Grown marked m m'' := by
  intro k
  rcases first k with ⟨absent,absent'⟩ | ⟨wtx,wtx',found,found',grown⟩
  · rcases second k with ⟨-,absent''⟩ | ⟨_,_,found',-,-⟩
    · exact .inl ⟨absent,absent''⟩
    · rw [absent'] at found'
      contradiction
  · rcases second k with ⟨absent',-⟩ | ⟨_,wtx'',again,found'',grown'⟩
    · rw [absent'] at found'
      contradiction
    · obtain rfl := Option.some.inj (found'.symm.trans again)
      exact .inr ⟨wtx,wtx'',found,found'',grown.trans grown'⟩

theorem grown_insert {k : uint256} {wtx wtx' : WalletEntry} (found : m[k]? = some wtx)
    (grown : WalletEntry.Grown (fun i => marked ⟨k,i⟩) wtx wtx') : Grown marked m (m.insert k wtx') := by
  intro l
  by_cases same : k = l
  · subst same
    exact .inr ⟨wtx,wtx',found,Maps.insert_self k wtx',grown⟩
  · rw [Maps.lookup_insert_other same]
    exact grown_refl m l

theorem Grown.of_le {other : COutPoint → Prop} (less : ∀ out, marked out → other out) (grown : Grown marked m m') : Grown other m m' := by
  intro k
  rcases grown k with absent | ⟨wtx,wtx',found,found',same,fresh,keeps,resized⟩
  · exact .inl absent
  · refine .inr ⟨wtx,wtx',found,found',same,fun i inside spent => (fresh i inside spent).imp_right (less _),keeps,?_⟩
    exact resized.imp_right fun ⟨full,i,marked⟩ => ⟨full,i,less _ marked⟩

/-- What is marked in a map that has grown was marked, or is marked now. -/
theorem Grown.spent (grown : Grown marked m m') {out : COutPoint} :
    (m.spent out = true → m'.spent out = true) ∧ (m'.spent out = true → m.spent out = true ∨ marked out) := by
  unfold WalletMap.spent
  rcases grown out.hash with ⟨absent,absent'⟩ | ⟨wtx,wtx',found,found',grown⟩
  · rw [absent,absent']
    exact ⟨id,.inl⟩
  · rw [found,found']
    have vout : wtx'.vout = wtx.vout := congrArg CTransaction.vout grown.tx
    simp only [Bool.and_eq_true,decide_eq_true_eq,vout]
    refine ⟨fun ⟨inside,spent⟩ => ⟨inside,grown.keeps _ inside spent⟩,fun ⟨inside,spent⟩ => ?_⟩
    exact (grown.fresh _ inside spent).imp_left fun spent => ⟨inside,spent⟩

theorem Grown.vout (grown : Grown marked m m') (k : uint256) : (m'[k]?.map fun wtx => wtx.vout) = m[k]?.map fun wtx => wtx.vout := by
  rcases grown k with ⟨absent,absent'⟩ | ⟨wtx,wtx',found,found',grown⟩
  · rw [absent,absent']
  · rw [found,found',Option.map_some,Option.map_some,congrArg CTransaction.vout grown.tx]

end WalletMap

namespace LiveWallet
variable {node : WalletNode} {m m' : WalletMap}

/-- The coins of some inputs. -/
def Coins (vin : List CTxIn) (out : COutPoint) : Prop := ∃ txin ∈ vin, txin.prevout = out

theorem Complete.grown {marked : COutPoint → Prop} {vin : List CTxIn} (complete : Complete vin m) (grown : WalletMap.Grown marked m m') :
    Complete vin m' := by
  intro txin member
  obtain ⟨coin,found,full,spent⟩ := complete txin member
  rcases grown txin.prevout.hash with ⟨absent,-⟩ | ⟨wtx,coin',found',later,grown⟩
  · rw [absent] at found
    contradiction
  · obtain rfl := Option.some.inj (found.symm.trans found')
    have vout : coin'.vout = coin.vout := congrArg CTransaction.vout grown.tx
    have inside : txin.prevout.n < coin.vout.length := full ▸ WalletEntry.inside_of_IsSpent spent
    refine ⟨coin',later,?_,grown.keeps _ inside spent⟩
    rw [vout]
    rcases grown.resized with kept | whole
    · rw [kept,full]
    · exact whole.1

theorem WalletUpdateSpent_grown (vin : List CTxIn) (m : WalletMap) : WalletMap.Grown (Coins vin) m (node.WalletUpdateSpent vin m).2 := by
  induction vin generalizing m with
  | nil => exact WalletMap.grown_refl m
  | cons txin rest ih =>
    have later : ∀ m, WalletMap.Grown (Coins (txin :: rest)) m (node.WalletUpdateSpent rest m).2 := fun m =>
      (ih m).of_le fun out ⟨other,member,same⟩ => ⟨other,List.mem_cons_of_mem _ member,same⟩
    unfold WalletNode.WalletUpdateSpent
    cases found : m[txin.prevout.hash]? with
    | none => exact later m
    | some wtx =>
      dsimp only
      rw [WalletEntry.foundSpent_eq]
      by_cases due : wtx.due node txin.prevout.n = true
      · rw [if_pos due]
        cases wtx.creditKept node with
        | error e => exact WalletMap.grown_refl m
        | ok kept =>
          refine (WalletMap.grown_insert found ?_).trans (later _)
          have marks := @WalletEntry.grown_marks wtx txin.prevout.n kept (wtx.due_inside node due)
          exact ⟨marks.same,fun i inside spent => (marks.fresh i inside spent).imp_right fun here => ⟨txin,List.mem_cons_self ..,by rw [here]⟩,
            marks.keeps,marks.resized.imp_right fun whole => ⟨whole.1,txin.prevout.n,txin,List.mem_cons_self ..,rfl⟩⟩
      · rw [if_neg due]
        dsimp only
        rw [Maps.insert_found found]
        exact later m

/-- Coins that are marked already are passed over. -/
theorem WalletUpdateSpent_idle {vin : List CTxIn} (complete : Complete vin m) : node.WalletUpdateSpent vin m = (.ok (),m) := by
  induction vin with
  | nil => rfl
  | cons txin rest ih =>
    have later := ih fun other member => complete other (List.mem_cons_of_mem _ member)
    obtain ⟨coin,found,-,spent⟩ := complete txin (List.mem_cons_self ..)
    have idle : coin.due node txin.prevout.n = false := by
      unfold WalletEntry.due
      split
      · rfl
      · rw [spent]
        rfl
    unfold WalletNode.WalletUpdateSpent
    rw [found]
    dsimp only
    rw [WalletEntry.foundSpent_eq,idle,if_neg Bool.false_ne_true]
    dsimp only
    rw [Maps.insert_found found,later]

/-- The records are the same, what is cached apart. -/
def SameRecords (m m' : WalletMap) : Prop :=
  ∀ k : uint256, (m'[k]?.map fun wtx => wtx.toWalletRecord) = m[k]?.map fun wtx => wtx.toWalletRecord

theorem sameRecords_insert {k : uint256} {wtx wtx' : WalletEntry} (found : m[k]? = some wtx)
    (same : wtx'.toWalletRecord = wtx.toWalletRecord) : SameRecords m (m.insert k wtx') := by
  intro l
  by_cases here : k = l
  · subst here
    rw [Maps.insert_self,found,Option.map_some,Option.map_some,same]
  · rw [Maps.lookup_insert_other here]

theorem SameRecords.grown {marked : COutPoint → Prop} (same : SameRecords m m') : WalletMap.Grown marked m m' := by
  intro k
  have here := same k
  cases found : m[k]? with
  | none =>
    rw [found,Option.map_none,Option.map_eq_none_iff] at here
    exact .inl ⟨rfl,here⟩
  | some wtx =>
    rw [found,Option.map_some,Option.map_eq_some_iff] at here
    obtain ⟨wtx',found',record⟩ := here
    exact .inr ⟨wtx,wtx',rfl,found',WalletEntry.grown_of_record record⟩

theorem SameRecords.spent (same : SameRecords m m') (out : COutPoint) : m'.spent out = m.spent out := by
  have grown : WalletMap.Grown (fun _ => False) m m' := same.grown
  have both := @WalletMap.Grown.spent _ _ _ grown out
  rw [Bool.eq_iff_iff]
  exact ⟨fun spent => (both.2 spent).resolve_right id,both.1⟩

theorem SameRecords.complete_iff {vin : List CTxIn} (same : SameRecords m m') : Complete vin m' ↔ Complete vin m := by
  have back : SameRecords m' m := fun k => (same k).symm
  exact ⟨fun complete => complete.grown (back.grown : WalletMap.Grown (fun _ => False) m' m),
    fun complete => complete.grown (same.grown : WalletMap.Grown (fun _ => False) m m')⟩

theorem markCoins_grown {vin : List CTxIn} (marks : (markCoins vin m).1 = .ok ()) :
    WalletMap.Grown (Coins vin) m (markCoins vin m).2 ∧ Complete vin (markCoins vin m).2 := by
  induction vin generalizing m with
  | nil => exact ⟨WalletMap.grown_refl m,fun _ member => absurd member (List.not_mem_nil)⟩
  | cons txin rest ih =>
    unfold markCoins at marks ⊢
    cases found : m[txin.prevout.hash]? with
    | none =>
      have beyond : nullTx.BindWallet.MarkSpent txin.prevout.n = .error (.throws "CWalletTx::MarkSpent() : nOut out of range") :=
        if_pos (Nat.zero_le _)
      rw [found,Option.getD_none] at marks
      dsimp only at marks
      rw [beyond] at marks
      contradiction
    | some coin =>
      rw [found,Option.getD_some] at marks
      rw [Option.getD_some]
      dsimp only at marks ⊢
      by_cases inside : txin.prevout.n ≥ coin.BindWallet.vout.length
      · rw [WalletEntry.MarkSpent,if_pos inside] at marks
        contradiction
      rw [WalletEntry.MarkSpent,if_neg inside] at marks ⊢
      dsimp only at marks ⊢
      obtain ⟨grown,complete⟩ := ih marks
      have sets := @WalletEntry.setSpent_Grown coin.BindWallet txin.prevout.n (Nat.not_le.mp inside)
      have bound : WalletEntry.Grown (· = txin.prevout.n) coin coin.BindWallet := WalletEntry.grown_of_record rfl
      have marked := bound.trans sets
      have first : WalletMap.Grown (Coins (txin :: rest)) m (m.insert txin.prevout.hash (coin.BindWallet.setSpent txin.prevout.n)) := by
        refine WalletMap.grown_insert found ?_
        exact ⟨marked.same,fun i within spent => (marked.fresh i within spent).imp_right fun here => ⟨txin,List.mem_cons_self ..,by rw [here]⟩,
          marked.keeps,marked.resized.imp_right fun whole => ⟨whole.1,txin.prevout.n,txin,List.mem_cons_self ..,rfl⟩⟩
      have wider : ∀ out, Coins rest out → Coins (txin :: rest) out := by
        rintro out ⟨other,member,same⟩
        exact ⟨other,List.mem_cons_of_mem _ member,same⟩
      have later := grown.of_le wider
      refine ⟨first.trans later,fun other member => ?_⟩
      rcases List.mem_cons.mp member with rfl | member
      · have here : Complete [other] (m.insert other.prevout.hash (coin.BindWallet.setSpent other.prevout.n)) := by
          intro txin only
          obtain rfl := List.mem_singleton.mp only
          refine ⟨_,Maps.insert_self _ _,?_,?_⟩
          · simp [WalletEntry.setSpent,List.takeD_length]
          · have place : txin.prevout.n < coin.BindWallet.vout.length := Nat.not_le.mp inside
            simp [WalletEntry.setSpent,WalletEntry.IsSpent,List.takeD_length,place]
        exact here.grown grown other (List.mem_singleton_self other)
      · exact complete other member

theorem GetKeyFromPool_reserved (s : KeyPool) (keypool : Int) (fAllowReuse : Bool) :
    (s.GetKeyFromPool keypool fAllowReuse).2.1.reserved = s.reserved := by
  have topped : (if s.IsLocked then (s,[]) else (s.TopUpKeyPool keypool).2 : KeyPool × List PoolEvent).1.reserved = s.reserved := by
    split
    · rfl
    · exact KeyPool.TopUpKeyPool_reserved
  unfold KeyPool.GetKeyFromPool KeyPool.ReserveKeyFromKeyPool
  dsimp only
  generalize (if s.IsLocked then (s,[]) else (s.TopUpKeyPool keypool).2 : KeyPool × List PoolEvent) = top at topped
  obtain ⟨top,events⟩ := top
  dsimp only at topped ⊢
  cases first : top.setKeyPool.toList.head? with
  | none =>
    dsimp only
    by_cases reuse : (fAllowReuse && top.vchDefaultKey.isSome) = true
    · rw [if_pos reuse]
      exact topped
    · rw [if_neg reuse]
      by_cases locked : top.IsLocked = true
      · rw [if_pos locked]
        exact topped
      · rw [if_neg locked]
        exact topped
  | some nIndex =>
    dsimp only
    cases found : top.walletdb[nIndex]? with
    | none => exact topped
    | some key =>
      by_cases known : key < top.nKeys
      · simpa only [known,if_true] using topped
      · simpa only [known,if_false] using topped

/-- What is done with the default key depends on the keys, and changes nothing but them and
    the address book. -/
structure KeysOnly (w w' : LiveWallet) (used used' : Except Reject Unit × LiveWallet) : Prop where
  result : used.1 = used'.1
  pool : used.2.pool = used'.2.pool
  mapWallet : used.2.mapWallet = w.mapWallet ∧ used'.2.mapWallet = w'.mapWallet
  nOrderPosNext : used.2.nOrderPosNext = w.nOrderPosNext ∧ used'.2.nOrderPosNext = w'.nOrderPosNext
  reserved : used.2.pool.reserved = w.pool.reserved

theorem replaceDefaultKey_keysOnly (scriptDefaultKey : CScript) (vout : List CTxOut) {w w' : LiveWallet} (same : w.pool = w'.pool) :
    KeysOnly w w' (w.replaceDefaultKey node scriptDefaultKey vout) (w'.replaceDefaultKey node scriptDefaultKey vout) := by
  induction vout generalizing w w' with
  | nil => exact ⟨rfl,same,⟨rfl,rfl⟩,⟨rfl,rfl⟩,rfl⟩
  | cons txout rest ih =>
    unfold replaceDefaultKey
    split
    · rw [← same]
      have reserved := GetKeyFromPool_reserved w.pool node.keypool false
      generalize w.pool.GetKeyFromPool node.keypool false = handed at reserved
      obtain ⟨result,pool,events⟩ := handed
      dsimp only at reserved ⊢
      cases result with
      | error e => exact ⟨rfl,rfl,⟨rfl,rfl⟩,⟨rfl,rfl⟩,reserved⟩
      | ok key =>
        cases key with
        | none =>
          obtain ⟨result,pool',maps,next,kept⟩ := @ih {w with pool := pool} {w' with pool := pool} rfl
          exact ⟨result,pool',maps,next,kept.trans reserved⟩
        | some newDefaultKey =>
          dsimp only
          have inner : ∀ mapAddressBook mapAddressBook' (pool' : KeyPool), pool'.reserved = pool.reserved →
              KeysOnly w w' (replaceDefaultKey node scriptDefaultKey rest {w with pool := pool',mapAddressBook := mapAddressBook})
                (replaceDefaultKey node scriptDefaultKey rest {w' with pool := pool',mapAddressBook := mapAddressBook'}) := by
            intro mapAddressBook mapAddressBook' pool' still
            obtain ⟨result,pool'',maps,next,kept⟩ := @ih {w with pool := pool',mapAddressBook := mapAddressBook}
              {w' with pool := pool',mapAddressBook := mapAddressBook'} rfl
            exact ⟨result,pool'',maps,next,(kept.trans still).trans reserved⟩
          refine inner _ _ _ ?_
          split <;> rfl
    · exact ih same

theorem useDefaultKey_keysOnly (vout : List CTxOut) {w w' : LiveWallet} (same : w.pool = w'.pool) :
    KeysOnly w w' (w.useDefaultKey node vout) (w'.useDefaultKey node vout) := by
  unfold useDefaultKey
  rw [← same]
  split
  · exact ⟨rfl,same,⟨rfl,rfl⟩,⟨rfl,rfl⟩,rfl⟩
  · exact replaceDefaultKey_keysOnly _ vout same

/-- A call of `settle` that returns. -/
theorem settle_ok {w w' : LiveWallet} {wtx : WalletEntry} {result : Bool} (returns : w.settle node wtx = (.ok result,w')) :
    WalletMap.Grown (Coins wtx.vin) w.mapWallet w'.mapWallet ∧ w'.pool = (w.useDefaultKey node wtx.vout).2.pool ∧
      w'.nOrderPosNext = w.nOrderPosNext := by
  obtain ⟨-,-,⟨maps,-⟩,⟨next,-⟩,-⟩ := @useDefaultKey_keysOnly node wtx.vout w w rfl
  unfold settle at returns
  generalize w.useDefaultKey node wtx.vout = used at returns maps next
  obtain ⟨fine,used⟩ := used
  dsimp only at maps next
  cases fine with
  | error e => cases (congrArg Prod.fst returns : Except.error e = .ok result)
  | ok fine =>
    have grown : WalletMap.Grown (Coins wtx.vin) used.mapWallet (node.WalletUpdateSpent wtx.vin used.mapWallet).2 :=
      WalletUpdateSpent_grown wtx.vin used.mapWallet
    dsimp only at returns
    generalize node.WalletUpdateSpent wtx.vin used.mapWallet = updated at returns grown
    obtain ⟨spent,mapWallet⟩ := updated
    cases spent with
    | error e => cases (congrArg Prod.fst returns : Except.error e = .ok result)
    | ok spent =>
      obtain rfl : {used with mapWallet := mapWallet} = w' := congrArg Prod.snd returns
      exact ⟨maps ▸ grown,rfl,next⟩

end LiveWallet

theorem raiseFlags_lookup (olds news : List Bool) (i : Nat) :
    (WalletEntry.raiseFlags olds news).1[i]?.getD false = (olds[i]?.getD false || (decide (i < olds.length) && news[i]?.getD false)) := by
  induction olds generalizing news i with
  | nil => simp [WalletEntry.raiseFlags]
  | cons old olds ih =>
    cases news with
    | nil => simp [WalletEntry.raiseFlags]
    | cons new news =>
      cases i with
      | zero => simp [WalletEntry.raiseFlags]
      | succ i => simpa [WalletEntry.raiseFlags] using ih news i

theorem raiseFlags_length (olds news : List Bool) : (WalletEntry.raiseFlags olds news).1.length = olds.length := by
  induction olds generalizing news with
  | nil => simp [WalletEntry.raiseFlags]
  | cons old olds ih =>
    cases news with
    | nil => simp [WalletEntry.raiseFlags]
    | cons new news => simp [WalletEntry.raiseFlags,ih news]

/-- The flags are the same exactly if none is new. -/
theorem raiseFlags_idle_iff (olds news : List Bool) : (WalletEntry.raiseFlags olds news).2 = false ↔ (WalletEntry.raiseFlags olds news).1 = olds := by
  induction olds generalizing news with
  | nil => simp [WalletEntry.raiseFlags]
  | cons old olds ih =>
    cases news with
    | nil => simp [WalletEntry.raiseFlags]
    | cons new news =>
      have later := ih news
      cases old with
      | true => simpa [WalletEntry.raiseFlags] using later
      | false =>
        cases new with
        | true => simp [WalletEntry.raiseFlags]
        | false => simpa [WalletEntry.raiseFlags] using later

namespace WalletEntry

theorem merge_length (wtx wtxIn : WalletEntry) : (wtx.merge wtxIn).1.vfSpent.length = wtx.vfSpent.length := raiseFlags_length ..

/-- Nothing is taken over exactly if the record stays the same. -/
theorem merge_idle_iff (wtx wtxIn : WalletEntry) : (wtx.merge wtxIn).2 = false ↔ (wtx.merge wtxIn).1.toWalletRecord = wtx.toWalletRecord := by
  have flags := raiseFlags_idle_iff wtx.vfSpent wtxIn.vfSpent
  constructor
  · intro idle
    simp only [merge,UpdateSpent,Bool.or_eq_false_iff] at idle
    obtain ⟨⟨⟨block,place⟩,own⟩,spent⟩ := idle
    have kept := flags.mp spent
    simp only [merge,UpdateSpent,block,place,own,kept,Bool.false_eq_true,if_false]
  · intro same
    have hashBlock := congrArg (fun wtx : WalletRecord => wtx.hashBlock) same
    have nIndex := congrArg (fun wtx : WalletRecord => wtx.nIndex) same
    have branch := congrArg (fun wtx : WalletRecord => wtx.vMerkleBranch) same
    have fFromMe := congrArg (fun wtx : WalletRecord => wtx.fFromMe) same
    have kept := flags.mpr (congrArg (fun wtx : WalletRecord => wtx.vfSpent) same)
    simp only [merge,UpdateSpent] at hashBlock nIndex branch fFromMe
    simp only [merge,UpdateSpent,kept,Bool.or_false,Bool.or_eq_false_iff,decide_eq_false_iff_not]
    refine ⟨⟨?_,?_⟩,?_⟩
    · intro block
      rw [if_pos (decide_eq_true block)] at hashBlock
      exact block.2 hashBlock
    · intro place
      rw [if_pos (decide_eq_true place)] at nIndex branch
      rcases place.2 with differs | differs
      · exact differs branch
      · exact differs nIndex
    · intro own
      rw [if_pos (decide_eq_true own)] at fFromMe
      exact own.2 fFromMe

end WalletEntry

namespace LiveWallet
variable {node : WalletNode} {w w' : LiveWallet} {wtxNew : WalletEntry}

/-- An output whose flag the transaction brings, where there is room for it. -/
structure Rises (node : WalletNode) (m : WalletMap) (wtxNew : WalletEntry) (out : COutPoint) : Prop where
  hash : out.hash = node.env.TxHash wtxNew.toCTransaction
  inside : out.n < wtxNew.vout.length
  brings : wtxNew.IsSpent out.n = true
  room : ∀ wtx, m[node.env.TxHash wtxNew.toCTransaction]? = some wtx → out.n < wtx.vfSpent.length

theorem bringsNoFlags_iff : w.BringsNoFlags node wtxNew ↔
    ∀ out, Rises node w.mapWallet wtxNew out → w.mapWallet.spent out = true ∨ Coins wtxNew.vin out := by
  constructor
  · rintro brings ⟨hash,i⟩ ⟨rfl,inside,flag,room⟩
    exact brings i inside flag room
  · intro all i inside flag room
    exact all ⟨_,i⟩ ⟨rfl,inside,flag,room⟩

/-- The record under the hash of the transaction, before anything is marked, and the order
    counter before and after. -/
structure Placed (node : WalletNode) (m : WalletMap) (next next' : Int64) (wtxNew placed : WalletEntry) : Prop where
  tx : placed.toCTransaction = wtxNew.toCTransaction
  spent : ∀ out, WalletMap.spent (m.insert (node.env.TxHash wtxNew.toCTransaction) placed) out = true ↔
    m.spent out = true ∨ Rises node m wtxNew out
  origin : (m[node.env.TxHash wtxNew.toCTransaction]? = none ∧ next' = next+1) ∨
    ∃ wtx, m[node.env.TxHash wtxNew.toCTransaction]? = some wtx ∧ placed = (wtx.BindWallet.merge wtxNew).1 ∧ next' = next

/-- A record under the hash of the transaction is one of it. -/
def Holds (node : WalletNode) (m : WalletMap) (tx : CTransaction) : Prop := ∀ wtx, m[node.env.TxHash tx]? = some wtx → wtx.toCTransaction = tx

theorem spent_insert (hash : uint256) (wtx : WalletEntry) (m : WalletMap) (out : COutPoint) :
    WalletMap.spent (m.insert hash wtx) out = if out.hash = hash then decide (out.n < wtx.vout.length) && wtx.IsSpent out.n else m.spent out := by
  unfold WalletMap.spent
  by_cases here : out.hash = hash
  · rw [if_pos here,here,Maps.insert_self]
  · rw [if_neg here,Maps.lookup_insert_other (Ne.symm here)]

theorem spent_new {placed : WalletEntry} (absent : m[node.env.TxHash wtxNew.toCTransaction]? = none)
    (record : placed.vout = wtxNew.vout ∧ placed.vfSpent = wtxNew.vfSpent) (out : COutPoint) :
    WalletMap.spent (m.insert (node.env.TxHash wtxNew.toCTransaction) placed) out = true ↔
      m.spent out = true ∨ Rises node m wtxNew out := by
  rw [spent_insert]
  split
  next here =>
    have nothing : m.spent out = false := by
      unfold WalletMap.spent
      rw [here,absent]
    rw [nothing,record.1,WalletEntry.IsSpent,record.2,Bool.and_eq_true,decide_eq_true_eq]
    constructor
    · rintro ⟨inside,flag⟩
      exact .inr ⟨here,inside,flag,fun wtx found => by rw [absent] at found; contradiction⟩
    · rintro (spent | rises)
      · contradiction
      · exact ⟨rises.inside,rises.brings⟩
  next other => exact ⟨.inl,fun either => either.resolve_right fun rises => other rises.hash⟩

theorem spent_merge {wtx : WalletEntry} (found : m[node.env.TxHash wtxNew.toCTransaction]? = some wtx)
    (tx : wtx.toCTransaction = wtxNew.toCTransaction) (out : COutPoint) :
    WalletMap.spent (m.insert (node.env.TxHash wtxNew.toCTransaction) (wtx.BindWallet.merge wtxNew).1) out = true ↔
      m.spent out = true ∨ Rises node m wtxNew out := by
  have vout : (wtx.BindWallet.merge wtxNew).1.vout = wtx.vout := rfl
  have outs : wtx.vout = wtxNew.vout := congrArg CTransaction.vout tx
  rw [spent_insert]
  split
  next here =>
    have before : m.spent out = (decide (out.n < wtx.vout.length) && wtx.IsSpent out.n) := by
      unfold WalletMap.spent
      rw [here,found]
    have flags : (wtx.BindWallet.merge wtxNew).1.IsSpent out.n = (wtx.IsSpent out.n || (decide (out.n < wtx.vfSpent.length) && wtxNew.IsSpent out.n)) :=
      raiseFlags_lookup ..
    rw [before,vout,flags]
    simp only [Bool.and_eq_true,Bool.or_eq_true,decide_eq_true_eq]
    constructor
    · rintro ⟨inside,spent | ⟨room,brings⟩⟩
      · exact .inl ⟨inside,spent⟩
      · refine .inr ⟨here,outs ▸ inside,brings,fun other found' => ?_⟩
        obtain rfl := Option.some.inj (found.symm.trans found')
        exact room
    · rintro (⟨inside,spent⟩ | rises)
      · exact ⟨inside,.inl spent⟩
      · exact ⟨outs ▸ rises.inside,.inr ⟨rises.room wtx found,rises.brings⟩⟩
  next other => exact ⟨.inl,fun either => either.resolve_right fun rises => other rises.hash⟩

/-- A call of `AddToWallet` that returns. -/
theorem AddToWallet_ok {now : Int} {result : Bool} (filed : Holds node w.mapWallet wtxNew.toCTransaction)
    (returns : w.AddToWallet node now wtxNew = (.ok result,w')) :
    (∃ placed, Placed node w.mapWallet w.nOrderPosNext w'.nOrderPosNext wtxNew placed ∧
      WalletMap.Grown (Coins wtxNew.vin) (w.mapWallet.insert (node.env.TxHash wtxNew.toCTransaction) placed) w'.mapWallet) ∧
    w'.pool = if w.goesOn node wtxNew then (w.useDefaultKey node wtxNew.vout).2.pool else w.pool := by
  unfold AddToWallet at returns
  dsimp only at returns
  cases found : w.mapWallet[node.env.TxHash wtxNew.toCTransaction]? with
  | none =>
    have goes : w.goesOn node wtxNew = node.WriteTx (node.env.TxHash wtxNew.toCTransaction) := by
      unfold goesOn
      rw [found]
    rw [found] at returns
    dsimp only at returns
    rw [goes]
    obtain ⟨⟨placed,inserted,stamped⟩,pool,next⟩ := @insertNew_spec node w now (node.env.TxHash wtxNew.toCTransaction) wtxNew
    have same : placed.untimed.toCTransaction = wtxNew.BindWallet.untimed.toCTransaction ∧
        placed.untimed.vfSpent = wtxNew.BindWallet.untimed.vfSpent := by rw [stamped]; exact ⟨rfl,rfl⟩
    have tx : placed.toCTransaction = wtxNew.toCTransaction := same.1
    have vfSpent : placed.vfSpent = wtxNew.vfSpent := same.2
    have spent := spent_new found ⟨congrArg CTransaction.vout tx,vfSpent⟩
    by_cases written : node.WriteTx (node.env.TxHash wtxNew.toCTransaction) = true
    · rw [if_pos written] at returns ⊢
      obtain ⟨grown,keys,next'⟩ := settle_ok returns
      rw [inserted] at grown
      refine ⟨⟨placed,⟨tx,spent,.inl ⟨found,next'.trans next⟩⟩,grown⟩,?_⟩
      exact keys.trans (useDefaultKey_keysOnly wtxNew.vout pool).pool
    · rw [if_neg written] at returns ⊢
      obtain rfl : _ = w' := congrArg Prod.snd returns
      refine ⟨⟨placed,⟨tx,spent,.inl ⟨found,next⟩⟩,?_⟩,pool⟩
      rw [inserted]
      exact WalletMap.grown_refl _
  | some wtx =>
    have goes : w.goesOn node wtxNew = !((wtx.merge wtxNew).2 && !node.WriteTx (node.env.TxHash wtxNew.toCTransaction)) := by
      unfold goesOn
      rw [found]
    rw [found] at returns
    dsimp only at returns
    have tx := filed wtx found
    have spent := spent_merge found tx
    have flag : (wtx.BindWallet.merge wtxNew).2 = (wtx.merge wtxNew).2 := rfl
    rw [flag] at returns
    by_cases stops : ((wtx.merge wtxNew).2 && !node.WriteTx (node.env.TxHash wtxNew.toCTransaction)) = true
    · rw [if_pos stops] at returns
      rw [goes,stops]
      obtain rfl : _ = w' := congrArg Prod.snd returns
      exact ⟨⟨(wtx.BindWallet.merge wtxNew).1,⟨tx,spent,.inr ⟨wtx,found,rfl,rfl⟩⟩,WalletMap.grown_refl _⟩,rfl⟩
    · rw [if_neg stops] at returns
      rw [goes,Bool.eq_false_of_not_eq_true stops]
      obtain ⟨grown,keys,next⟩ := settle_ok returns
      have vin : (wtx.BindWallet.merge wtxNew).1.vin = wtxNew.vin := congrArg CTransaction.vin tx
      have vout : (wtx.BindWallet.merge wtxNew).1.vout = wtxNew.vout := congrArg CTransaction.vout tx
      rw [vin] at grown
      rw [vout] at keys
      refine ⟨⟨(wtx.BindWallet.merge wtxNew).1,⟨tx,spent,.inr ⟨wtx,found,rfl,next⟩⟩,grown⟩,?_⟩
      have used := @useDefaultKey_keysOnly node wtxNew.vout
        {w with mapWallet := w.mapWallet.insert (node.env.TxHash wtxNew.toCTransaction) (wtx.BindWallet.merge wtxNew).1} w rfl
      exact keys.trans used.pool

/-- What the wallet does when the pool tells it of a transaction that it has with all coins
    marked: the records stay, and an exception comes from the debit or the default key only. -/
structure Told (node : WalletNode) (w : LiveWallet) (tx : CTransaction) (told : Except Reject Bool × LiveWallet) : Prop where
  records : SameRecords w.mapWallet told.2.mapWallet
  nOrderPosNext : told.2.nOrderPosNext = w.nOrderPosNext
  reserved : told.2.pool.reserved = w.pool.reserved
  returns : (∃ result, told.1 = .ok result) ↔ (∃ nDebit, node.GetDebit w.mapWallet tx = .ok nDebit) ∧ (w.useDefaultKey node tx.vout).1 = .ok ()

theorem settle_told {tx : CTransaction} {wtx : WalletEntry} (here : wtx.toCTransaction = tx) (complete : Complete tx.vin w.mapWallet) :
    SameRecords w.mapWallet (w.settle node wtx).2.mapWallet ∧ (w.settle node wtx).2.nOrderPosNext = w.nOrderPosNext ∧
      (w.settle node wtx).2.pool.reserved = w.pool.reserved ∧
      ((∃ result, (w.settle node wtx).1 = .ok result) ↔ (w.useDefaultKey node tx.vout).1 = .ok ()) := by
  obtain ⟨-,-,⟨maps,-⟩,⟨next,-⟩,reserved⟩ := @useDefaultKey_keysOnly node tx.vout w w rfl
  unfold settle
  rw [here]
  generalize w.useDefaultKey node tx.vout = used at maps next reserved
  obtain ⟨fine,used⟩ := used
  dsimp only at maps next reserved
  have same : SameRecords w.mapWallet used.mapWallet := by
    rw [maps]
    exact fun _ => rfl
  cases fine with
  | error e => exact ⟨same,next,reserved,by simp⟩
  | ok fine =>
    dsimp only
    rw [maps,WalletUpdateSpent_idle complete]
    exact ⟨fun _ => rfl,next,reserved,by simp⟩

theorem told_spec (now : Int) {tx : CTransaction} {wtx : WalletEntry} (found : w.mapWallet[node.env.TxHash tx]? = some wtx)
    (here : wtx.toCTransaction = tx) (complete : Complete tx.vin w.mapWallet) :
    Told node w tx (w.AddToWalletIfInvolvingMe node now tx none true) := by
  have existed : w.mapWallet.contains (node.env.TxHash tx) = true := by
    rw [ExtTreeMap.contains_eq_isSome_getElem?,found]
    rfl
  unfold AddToWalletIfInvolvingMe
  dsimp only
  rw [Bool.not_true,Bool.and_false,if_neg Bool.false_ne_true,existed,Bool.true_or]
  unfold WalletNode.IsFromMe
  cases debit : node.GetDebit w.mapWallet tx with
  | error e => exact ⟨fun _ => rfl,rfl,rfl,by simp [debit]⟩
  | ok nDebit =>
    dsimp only
    rw [Bool.true_or,if_pos rfl]
    have hash : node.env.TxHash (WalletEntry.found node tx none).toCTransaction = node.env.TxHash tx := rfl
    have idle : (wtx.BindWallet.merge (.found node tx none)).2 = false := by
      simp [WalletEntry.merge,WalletEntry.UpdateSpent,WalletEntry.found,WalletEntry.ofTransaction,WalletEntry.raiseFlags]
    have record : (wtx.BindWallet.merge (.found node tx none)).1.toWalletRecord = wtx.toWalletRecord := (WalletEntry.merge_idle_iff _ _).mp idle
    unfold AddToWallet
    dsimp only
    rw [hash,found]
    dsimp only
    rw [idle,Bool.false_and,if_neg Bool.false_ne_true]
    have same : SameRecords w.mapWallet (w.mapWallet.insert (node.env.TxHash tx) (wtx.BindWallet.merge (.found node tx none)).1) :=
      sameRecords_insert found record
    obtain ⟨records,next,reserved,returns⟩ := @settle_told node
      {w with mapWallet := w.mapWallet.insert (node.env.TxHash tx) (wtx.BindWallet.merge (.found node tx none)).1} tx
      (wtx.BindWallet.merge (.found node tx none)).1 here (same.complete_iff.mpr complete)
    refine ⟨fun k => (records k).trans (same k),next,reserved,returns.trans ?_⟩
    rw [(@useDefaultKey_keysOnly node tx.vout
      {w with mapWallet := w.mapWallet.insert (node.env.TxHash tx) (wtx.BindWallet.merge (.found node tx none)).1} w rfl).result]
    simp [debit]

theorem flags_ext {flags flags' : List Bool} (size : flags'.length = flags.length)
    (same : ∀ i < flags.length, flags'[i]?.getD false = true ↔ flags[i]?.getD false = true) : flags' = flags := by
  refine List.ext_getElem size fun i inside inside' => ?_
  have here := same i inside'
  rw [List.getElem?_eq_getElem inside,List.getElem?_eq_getElem inside',Option.getD_some,Option.getD_some] at here
  exact Bool.eq_iff_iff.mpr here

/-- Where all coins were marked already, growing changes nothing. -/
theorem sameRecords_of_complete {vin : List CTxIn} (grown : WalletMap.Grown (Coins vin) m m') (complete : Complete vin m) : SameRecords m m' := by
  intro k
  rcases grown k with ⟨absent,absent'⟩ | ⟨wtx,wtx',found,found',same,fresh,keeps,resized⟩
  · rw [absent,absent']
  · rw [found,found',Option.map_some,Option.map_some]
    have flags : wtx'.vfSpent = wtx.vfSpent := by
      rcases resized with kept | ⟨full,i,txin,member,out⟩
      · exact kept
      · obtain ⟨coin,there,size,-⟩ := complete txin member
        rw [out] at there
        obtain rfl := Option.some.inj (found.symm.trans there)
        refine flags_ext (full.trans size.symm) fun j within => ?_
        refine ⟨fun spent => ?_,keeps j (size ▸ within)⟩
        rcases fresh j (size ▸ within) spent with before | ⟨txin',member',out'⟩
        · exact before
        · obtain ⟨coin',there',-,spent'⟩ := complete txin' member'
          rw [out'] at there' spent'
          obtain rfl := Option.some.inj (found.symm.trans there')
          exact spent'
    rw [same,flags]
    rfl

theorem Complete.spent {vin : List CTxIn} (complete : Complete vin m) {out : COutPoint} (coin : Coins vin out) : m.spent out = true := by
  obtain ⟨txin,member,rfl⟩ := coin
  obtain ⟨wtx,found,full,spent⟩ := complete txin member
  have inside : txin.prevout.n < wtx.vout.length := full ▸ WalletEntry.inside_of_IsSpent spent
  unfold WalletMap.spent
  rw [found]
  exact Bool.and_eq_true_iff.mpr ⟨decide_eq_true inside,spent⟩

variable {b : Broadcast} {reservekey : Nat}

/-- What a call leaves that returns. -/
structure Left (node : WalletNode) (b : Broadcast) (w : LiveWallet) (wtxNew : WalletEntry) (reservekey : Nat) (result : Bool)
    (w' : LiveWallet) (placed : WalletEntry) : Prop where
  isPlaced : Placed node w.mapWallet w.nOrderPosNext w'.nOrderPosNext wtxNew placed
  grown : WalletMap.Grown (Coins wtxNew.vin) (w.mapWallet.insert (node.env.TxHash wtxNew.toCTransaction) placed) w'.mapWallet
  complete : Complete wtxNew.vin w'.mapWallet
  reserved : w'.pool.reserved = (w.pool.KeepKey reservekey).reserved
  welcome : result = true ↔ w.Welcome node b wtxNew reservekey

theorem CommitTransaction_left {result : Bool} {mempool : CTxMemPool} (filed : Holds node w.mapWallet wtxNew.toCTransaction)
    (returns : w.CommitTransaction node b wtxNew reservekey = (.ok result,w',mempool)) :
    ∃ placed, Left node b w wtxNew reservekey result w' placed := by
  unfold CommitTransaction at returns
  dsimp only at returns
  cases added : AddToWallet node {w with pool := w.pool.KeepKey reservekey} b.moment.GetAdjustedTime wtxNew with
  | mk answer w1 =>
  rw [added] at returns
  cases answer with
  | error e => exact absurd (congrArg Prod.fst returns) (by simp)
  | ok answer =>
  obtain ⟨⟨placed,isPlaced,grown⟩,keys⟩ :=
    @AddToWallet_ok node {w with pool := w.pool.KeepKey reservekey} w1 wtxNew _ _ filed added
  dsimp only at returns isPlaced grown
  cases marked : markCoins wtxNew.vin w1.mapWallet with
  | mk answer m =>
  rw [marked] at returns
  cases answer with
  | error e => exact absurd (congrArg Prod.fst returns) (by simp)
  | ok answer =>
  have marks : (markCoins wtxNew.vin w1.mapWallet).1 = .ok () := by rw [marked]
  obtain ⟨grown',complete⟩ := markCoins_grown marks
  rw [marked] at grown' complete
  dsimp only at returns grown' complete
  have both := grown.trans grown'
  have shown : w1.pool = (w.keysShown node wtxNew reservekey).pool := by
    rw [keys]
    exact (apply_ite LiveWallet.pool _ _ _).symm
  have reserved : w1.pool.reserved = (w.pool.KeepKey reservekey).reserved := by
    rw [keys]
    split
    · exact (@useDefaultKey_keysOnly node wtxNew.vout {w with pool := w.pool.KeepKey reservekey} _ rfl).reserved
    · rfl
  -- The memory pool and what the wallet is told change no record.
  have leaves : ∀ w3 : LiveWallet, SameRecords m w3.mapWallet → w3.nOrderPosNext = w1.nOrderPosNext →
      w3.pool.reserved = w1.pool.reserved → (result = true ↔ w.Welcome node b wtxNew reservekey) →
      Left node b w wtxNew reservekey result w3 placed := by
    intro w3 same next kept welcome
    exact ⟨⟨isPlaced.tx,isPlaced.spent,next ▸ isPlaced.origin⟩,both.trans same.grown,same.complete_iff.mpr complete,kept.trans reserved,welcome⟩
  obtain ⟨wtx,found,here⟩ : ∃ wtx, m[node.env.TxHash wtxNew.toCTransaction]? = some wtx ∧ wtx.toCTransaction = wtxNew.toCTransaction := by
    rcases both (node.env.TxHash wtxNew.toCTransaction) with ⟨absent,-⟩ | ⟨old,wtx,inserted,found,grown⟩
    · rw [Maps.insert_self] at absent
      contradiction
    · rw [Maps.insert_self] at inserted
      obtain rfl := Option.some.inj inserted
      exact ⟨wtx,found,grown.tx.trans isPlaced.tx⟩
  have debit : node.GetDebit m wtxNew.toCTransaction =
      node.GetDebit (w.mapWallet.insert (node.env.TxHash wtxNew.toCTransaction) wtxNew) wtxNew.toCTransaction := by
    refine GetDebit_congr fun txin _ => (both.vout _).trans ?_
    by_cases own : node.env.TxHash wtxNew.toCTransaction = txin.prevout.hash
    · rw [← own,Maps.insert_self,Maps.insert_self,Option.map_some,Option.map_some,congrArg CTransaction.vout isPlaced.tx]
    · rw [Maps.lookup_insert_other own,Maps.lookup_insert_other own]
  have told := @told_spec node
    {w1 with mapWallet := m,mapRequestCount := w1.mapRequestCount.insert (node.env.TxHash wtxNew.toCTransaction) 0}
    b.moment.GetAdjustedTime wtxNew.toCTransaction wtx found here complete
  have keysTold := (@useDefaultKey_keysOnly node wtxNew.vout
    {w1 with mapWallet := m,mapRequestCount := w1.mapRequestCount.insert (node.env.TxHash wtxNew.toCTransaction) 0} _ shown).result
  cases accepted : (b.accept wtxNew.toCTransaction).result with
  | error e =>
    rw [accepted] at returns
    have refused : ¬ w.Welcome node b wtxNew reservekey := fun welcome => by
      have admitted := welcome.accepted
      rw [accepted] at admitted
      contradiction
    cases e with
    | asserts condition => exact absurd (congrArg Prod.fst returns) (by simp)
    | DoS | Error | plain | throws | within =>
      obtain rfl : false = result := Except.ok.inj (congrArg Prod.fst returns)
      obtain rfl : _ = w' := congrArg (fun answer => answer.2.1) returns
      exact ⟨placed,leaves _ (fun _ => rfl) rfl rfl (by simp [refused])⟩
  | ok answer =>
    rw [accepted] at returns
    dsimp only at returns
    generalize AddToWalletIfInvolvingMe node _ b.moment.GetAdjustedTime wtxNew.toCTransaction none true = answer at returns told
    obtain ⟨answer,w3⟩ := answer
    have asked := told.returns
    rw [keysTold] at asked
    dsimp only at asked
    rw [debit] at asked
    cases answer with
    | error e =>
      obtain rfl : false = result := Except.ok.inj (congrArg Prod.fst returns)
      obtain rfl : w3 = w' := congrArg (fun answer => answer.2.1) returns
      have refused : ¬ w.Welcome node b wtxNew reservekey := fun welcome => by
        obtain ⟨result,answers⟩ := asked.mpr ⟨welcome.debit,welcome.keys⟩
        contradiction
      exact ⟨placed,leaves w3 told.records told.nOrderPosNext told.reserved (by simp [refused])⟩
    | ok answer =>
      obtain rfl : true = result := Except.ok.inj (congrArg Prod.fst returns)
      obtain rfl : w3 = w' := congrArg (fun answer => answer.2.1) returns
      obtain ⟨inRange,keysUsed⟩ := asked.mp ⟨answer,rfl⟩
      have welcome : w.Welcome node b wtxNew reservekey := ⟨accepted,inRange,keysUsed⟩
      exact ⟨placed,leaves w3 told.records told.nOrderPosNext told.reserved (by simp [welcome])⟩

theorem KeepKey_reserved (s : KeyPool) (r : Nat) : (s.KeepKey r).reserved[r]? = none := by
  unfold KeyPool.KeepKey
  split
  next absent => exact absent
  · exact ExtTreeMap.getElem?_erase_self

theorem KeepKey_idle {s : KeyPool} {r : Nat} (absent : s.reserved[r]? = none) : s.KeepKey r = s := by
  unfold KeyPool.KeepKey
  rw [absent]

theorem ne_next (x : Int64) : x+1 ≠ x := by
  intro same
  simp at same

variable {placed : WalletEntry} {result : Bool}

/-- A record that is in the end as it was takes over nothing. -/
theorem Left.merge_idle (left : Left node b w wtxNew reservekey result w' placed) {wtx : WalletEntry}
    (found : w.mapWallet[node.env.TxHash wtxNew.toCTransaction]? = some wtx) (isMerged : placed = (wtx.BindWallet.merge wtxNew).1)
    (tx : wtx.toCTransaction = wtxNew.toCTransaction) (same : SameRecords w.mapWallet w'.mapWallet) : (wtx.merge wtxNew).2 = false := by
  show (wtx.BindWallet.merge wtxNew).2 = false
  rw [WalletEntry.merge_idle_iff,← isMerged]
  show placed.toWalletRecord = wtx.toWalletRecord
  have size : placed.vfSpent.length = wtx.vfSpent.length := by
    rw [isMerged]
    exact WalletEntry.merge_length wtx.BindWallet wtxNew
  have vout : placed.vout = wtx.vout := congrArg CTransaction.vout (left.isPlaced.tx.trans tx.symm)
  rcases left.grown (node.env.TxHash wtxNew.toCTransaction) with ⟨absent,-⟩ | ⟨old,last,inserted,found',grown⟩
  · rw [Maps.insert_self] at absent
    contradiction
  rw [Maps.insert_self] at inserted
  obtain rfl := Option.some.inj inserted
  have record : last.toWalletRecord = wtx.toWalletRecord := by
    have here := same (node.env.TxHash wtxNew.toCTransaction)
    rw [found,found'] at here
    exact Option.some.inj here
  have flags : placed.vfSpent = wtx.vfSpent := by
    have final : last.vfSpent = wtx.vfSpent := congrArg (fun wtx : WalletRecord => wtx.vfSpent) record
    rcases grown.resized with kept | ⟨full,-⟩
    · rw [← kept,final]
    · refine flags_ext size fun i inside => ⟨fun spent => ?_,fun spent => ?_⟩
      · have within : i < placed.vout.length := by
          rw [← full,final]
          exact inside
        have marked := grown.keeps i within spent
        rw [WalletEntry.IsSpent,final] at marked
        exact marked
      · have raised : placed.IsSpent i = (wtx.IsSpent i || (decide (i < wtx.vfSpent.length) && wtxNew.IsSpent i)) := by
          rw [isMerged]
          exact raiseFlags_lookup ..
        have old : wtx.IsSpent i = true := spent
        rw [old,Bool.true_or] at raised
        exact raised
  have back := grown.same.symm.trans record
  calc placed.toWalletRecord = (placed.toWalletRecord.reflagged last.vfSpent).reflagged placed.vfSpent := rfl
    _ = wtx.toWalletRecord.reflagged wtx.vfSpent := by rw [back,flags]
    _ = wtx.toWalletRecord := rfl

/-- A call that does not go through leaves all as it was exactly if there was nothing to do. -/
theorem Left.unchanged_iff (left : Left node b w wtxNew reservekey result w' placed) (filed : Holds node w.mapWallet wtxNew.toCTransaction) :
    Unchanged w w' ↔ w.Idle node wtxNew reservekey := by
  constructor
  · intro unchanged
    have same : SameRecords w.mapWallet w'.mapWallet := unchanged.mapWallet
    refine ⟨?_,?_,same.complete_iff.mp left.complete⟩
    · rw [← unchanged.reserved,left.reserved]
      exact KeepKey_reserved _ _
    · rcases left.isPlaced.origin with ⟨-,next⟩ | ⟨wtx,found,isMerged,-⟩
      · exact absurd (next.symm.trans unchanged.nOrderPosNext) (ne_next _)
      · exact ⟨wtx,found,left.merge_idle found isMerged (filed wtx found) same⟩
  · intro idle
    obtain ⟨wtx,found,nothing⟩ := idle.recorded
    rcases left.isPlaced.origin with ⟨absent,-⟩ | ⟨wtx',found',isMerged,next⟩
    · rw [absent] at found
      contradiction
    obtain rfl := Option.some.inj (found.symm.trans found')
    have record : placed.toWalletRecord = wtx.toWalletRecord := by
      rw [isMerged]
      exact (WalletEntry.merge_idle_iff wtx.BindWallet wtxNew).mp nothing
    have first := sameRecords_insert found record
    have rest := sameRecords_of_complete left.grown (first.complete_iff.mpr idle.complete)
    have same : SameRecords w.mapWallet w'.mapWallet := fun k => (rest k).trans (first k)
    exact ⟨same,same.spent,next,left.reserved.trans (congrArg KeyPool.reserved (KeepKey_idle idle.reserved))⟩

/-- A call that goes through marks its coins and no others exactly if the transaction brings
    no flags of its own. -/
theorem Left.committed_iff (left : Left node b w wtxNew reservekey result w' placed) :
    Committed node wtxNew w w' ↔ w.BringsNoFlags node wtxNew := by
  have spent : ∀ out, w'.mapWallet.spent out = true ↔
      (w.mapWallet.spent out = true ∨ Rises node w.mapWallet wtxNew out) ∨ Coins wtxNew.vin out := by
    intro out
    have both := @WalletMap.Grown.spent _ _ _ left.grown out
    rw [left.isPlaced.spent] at both
    exact ⟨both.2,fun either => either.elim both.1 left.complete.spent⟩
  rw [bringsNoFlags_iff]
  constructor
  · intro committed out rises
    exact (committed.spent out).mp ((spent out).mpr (.inl (.inr rises)))
  · intro brings
    refine ⟨?_,fun out => ⟨fun marked => ?_,fun either => ?_⟩⟩
    · rcases left.grown (node.env.TxHash wtxNew.toCTransaction) with ⟨absent,-⟩ | ⟨_,last,-,found,-⟩
      · rw [Maps.insert_self] at absent
        contradiction
      · rw [ExtTreeMap.mem_iff_isSome_getElem?,found]
        rfl
    · rcases (spent out).mp marked with (before | rises) | coin
      · exact .inl before
      · exact brings out rises
      · exact .inr coin
    · rcases either with before | coin
      · exact (spent out).mpr (.inl (.inl before))
      · exact (spent out).mpr (.inr coin)

/-- A call that returns does all or nothing exactly if the pool and the wallet that is told
    welcome a transaction without flags of its own, or there was nothing to do. -/
theorem CommitTransaction_all_or_nothing_iff {mempool : CTxMemPool} (filed : Holds node w.mapWallet wtxNew.toCTransaction)
    (returns : w.CommitTransaction node b wtxNew reservekey = (.ok result,w',mempool)) :
    AllOrNothing node wtxNew result w w' ↔ w.Whole node b wtxNew reservekey := by
  obtain ⟨placed,left⟩ := CommitTransaction_left filed returns
  have welcome := left.welcome
  cases result with
  | false =>
    have refused : ¬ w.Welcome node b wtxNew reservekey := fun admits => Bool.false_ne_true (welcome.mpr admits)
    constructor
    · rintro ⟨unchanged,-⟩
      exact ⟨fun admits => absurd admits refused,fun _ => (left.unchanged_iff filed).mp (unchanged rfl)⟩
    · rintro ⟨-,idle⟩
      exact ⟨fun _ => (left.unchanged_iff filed).mpr (idle refused),fun wrong => absurd wrong Bool.false_ne_true⟩
  | true =>
    have admits := welcome.mp rfl
    constructor
    · rintro ⟨-,committed⟩
      exact ⟨fun _ => left.committed_iff.mp (committed rfl),fun refused => absurd admits refused⟩
    · rintro ⟨brings,-⟩
      exact ⟨fun wrong => absurd wrong.symm Bool.false_ne_true,fun _ => left.committed_iff.mpr (brings admits)⟩

end LiveWallet

/-- A coin of the wallet, and a reserved key. -/
private def coinWallet : LiveWallet where
  mapWallet := (∅ : WalletMap).insert 10 (.ofTransaction ⟨1,[⟨⟨7,0⟩,[],0⟩],[⟨Cash.ofMoney (EUR,10),[1]⟩],10,[]⟩)
  pool := {walletdb := (∅ : ExtTreeMap Int Nat).insert 3 0,nKeys := 1,reserved := (∅ : ExtTreeMap Nat (Int × Option Nat)).insert 7 (3,some 0)}

private def payment : WalletEntry := .ofTransaction ⟨1,[⟨⟨10,0⟩,[],0⟩],[⟨Cash.ofMoney (EUR,9),[2]⟩],2,[]⟩

/-- A chain with the coin, or without it. -/
private def shownTo (coins : Option CCoins) : Broadcast where
  rules := ⟨sampleNode.env,true,Cash.assignAmount 0,Cash.assignAmount 0,fun _ => true,fun _ => true,fun _ => true,fun _ _ _ => true⟩
  chain := {pcoinsTip := {base := {noCoins with GetCoins := fun txid => if txid = 10 then coins else none}},nBestHeight := 5}
  moment := {GetAdjustedTime := 1400000000}

private def refusal := coinWallet.CommitTransaction sampleNode (shownTo none) payment 7

private def acceptance :=
  coinWallet.CommitTransaction sampleNode
    (shownTo (some (.ofTransaction ⟨1,[⟨⟨7,0⟩,[],0⟩],[⟨Cash.ofMoney (EUR,10),[1]⟩],10,[]⟩ 3))) payment 7

private theorem payment_holds : LiveWallet.Holds sampleNode coinWallet.mapWallet payment.toCTransaction := by
  intro wtx found
  have absent : coinWallet.mapWallet[sampleNode.env.TxHash payment.toCTransaction]?.isNone = true := by decide +kernel
  rw [found] at absent
  contradiction

theorem acceptance_whole :
    acceptance.1 = .ok true ∧ (LiveWallet.AllOrNothing sampleNode payment true coinWallet acceptance.2.1 ↔
      coinWallet.Whole sampleNode (shownTo (some (.ofTransaction ⟨1,[⟨⟨7,0⟩,[],0⟩],[⟨Cash.ofMoney (EUR,10),[1]⟩],10,[]⟩ 3))) payment 7) := by
  have passes : acceptance.1 = .ok true := by decide +kernel
  exact ⟨passes,LiveWallet.CommitTransaction_all_or_nothing_iff payment_holds (Prod.ext passes rfl : acceptance = (.ok true,acceptance.2.1,acceptance.2.2))⟩

/-- The pool does not know the coin; the payment stays in the wallet, the coin stays marked
    and the key is gone. -/
theorem refusal_leaves_traces :
    refusal.1 = .ok false ∧ ¬ LiveWallet.AllOrNothing sampleNode payment false coinWallet refusal.2.1 ∧
      (2 ∈ refusal.2.1.mapWallet ∧ 2 ∉ coinWallet.mapWallet) ∧
      (refusal.2.1.mapWallet.spent ⟨10,0⟩ = true ∧ coinWallet.mapWallet.spent ⟨10,0⟩ = false) ∧
      (refusal.2.1.nOrderPosNext = 1 ∧ coinWallet.nOrderPosNext = 0) ∧
      (refusal.2.1.pool.reserved[7]? = none ∧ coinWallet.pool.reserved[7]? = some (3,some 0)) := by
  have next : refusal.2.1.nOrderPosNext ≠ coinWallet.nOrderPosNext := by decide +kernel
  refine ⟨by decide +kernel,fun whole => next (whole.1 rfl).nOrderPosNext,by decide +kernel,by decide +kernel,by decide +kernel,by decide +kernel⟩

end Tetra
