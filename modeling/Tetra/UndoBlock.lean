import Mathlib
import Tetra.Disconnect

/-!
When a block can be taken back: on any view that a connected block left, with
each entry as it is or as the database returns it, `DisconnectBlock` restores
the view exactly when every transaction of the block has outputs that survive
being stored, and no coin of the view had a negative version.
-/
namespace Tetra
open Std

/-- Each entry as it was, or written to the database and read back. -/
structure Reloaded (v w : CCoinsViewCache) : Prop where
  coins : ∀ txid, w.GetCoins txid = v.GetCoins txid ∨ w.GetCoins txid = (v.GetCoins txid).bind CCoins.reload
  best : w.GetBestBlock = v.GetBestBlock

/-- What the database makes of a coin. -/
def Coin.stored (coin : Coin) : Coin := {coin with txout := coin.txout.stored,nVersion := storedVersion coin.nVersion}

namespace CCoins

private theorem stored_IsNull (out : CTxOut) : out.stored.IsNull = out.IsNull := rfl

theorem coin_reload (coins : CCoins) (n : Nat) : (coins.reload.bind fun loaded => loaded.coin n) = (coins.coin n).map Coin.stored := by
  rw [reload]
  by_cases pruned : coins.IsPruned = true
  · simp [pruned,(isPruned_iff coins).mp pruned n]
  · simp only [pruned,Bool.false_eq_true,if_false,Option.bind_some,coin_Cleanup]
    simp only [CCoins.coin,List.getElem?_map]
    cases coins.vout[n]? with
    | none => rfl
    | some out =>
      cases null : out.IsNull
      · simp [null,stored_IsNull,Coin.stored]
      · simp [null]

end CCoins

/-- Entries of the block's own transactions while the block is applied. -/
private structure Entries (env : Env) (nHeight : Nat) (done : List CTransaction) (view : CCoinsViewCache) : Prop where
  hollow : ∀ tx ∈ done, tx.AllEmpty → view.GetCoins (env.TxHash tx) = some (.ofTransaction tx nHeight)
  tidy : ∀ tx ∈ done, tx.SentinelSafe → ∀ coins, view.GetCoins (env.TxHash tx) = some coins → coins.Tidy

private theorem spendInputs_entries {env : Env} {nHeight : Nat} {done : List CTransaction} {vin : List CTxIn}
    {view after : CCoinsViewCache} {undo : List CTxInUndo} (spends : CTransaction.spendInputs view vin = .ok (after,undo))
    (entries : Entries env nHeight done view) : Entries env nHeight done after := by
  induction vin generalizing view undo with
  | nil =>
    obtain ⟨rfl,rfl⟩ : view = after ∧ [] = undo := by simpa [CTransaction.spendInputs] using spends
    exact entries
  | cons txin rest ih =>
    obtain ⟨coins,left,entry,entries',fetched,spent,later,rfl⟩ := CTransaction.spendInputs_cons spends
    refine ih later ⟨fun tx member empty => ?_,fun tx member safe coins' found => ?_⟩
    · have there := entries.hollow tx member empty
      have apart : txin.prevout.hash ≠ env.TxHash tx := by
        intro same
        rw [same,there] at fetched
        have was := (CCoins.Spend_eq_some spent).1
        rw [← Option.some.inj fetched,empty.coin] at was
        contradiction
      rw [CCoinsViewCache.GetCoins_SetCoins,if_neg apart]
      exact there
    · rw [CCoinsViewCache.GetCoins_SetCoins] at found
      by_cases same : txin.prevout.hash = env.TxHash tx
      · rw [if_pos same,Option.some.injEq] at found
        rw [← found]
        exact CCoins.Spend_tidy (entries.tidy tx member safe coins (same ▸ fetched)) spent
      · rw [if_neg same] at found
        exact entries.tidy tx member safe coins' found

private theorem applied_entries {env : Env} {nHeight : Nat} {pairs : List (CTransaction × Option CTxUndo)}
    (done : List CTransaction) {view after : CCoinsViewCache} (applied : Applied env nHeight view pairs after)
    (distinct : ((done ++ pairs.map Prod.fst).map env.TxHash).Nodup) (entries : Entries env nHeight done view) :
    Entries env nHeight (done ++ pairs.map Prod.fst) after := by
  induction pairs generalizing view done with
  | nil =>
    obtain rfl : view = after := applied
    simpa using entries
  | cons pair rest ih =>
    obtain ⟨tx,entry⟩ := pair
    obtain ⟨next,txundo,updates,_,applied⟩ := applied
    have regroup : done ++ ((tx,entry) :: rest).map Prod.fst = (done ++ [tx]) ++ rest.map Prod.fst := by simp
    rw [regroup] at distinct ⊢
    refine ih (done ++ [tx]) applied distinct ?_
    have apart : ∀ other ∈ done, env.TxHash tx ≠ env.TxHash other := by
      intro other member same
      simp only [List.map_append,List.map_cons,List.map_nil,List.append_assoc,List.nodup_append] at distinct
      exact distinct.2.2 _ (List.mem_map_of_mem member) (env.TxHash tx) (by simp) same.symm
    obtain ⟨view',undo,spent,rfl,_⟩ := CTransaction.UpdateCoins_split updates
    have kept : Entries env nHeight done view' := by
      by_cases coinbase : tx.IsCoinBase = true
      · obtain ⟨rfl,_⟩ : view = view' ∧ [] = undo := by simpa [coinbase] using spent
        exact entries
      · exact spendInputs_entries (by simpa [coinbase] using spent) entries
    refine ⟨fun other member empty => ?_,fun other member safe coins found => ?_⟩
    · rcases List.mem_append.mp member with old | new
      · rw [CCoinsViewCache.GetCoins_SetCoins,if_neg (apart other old)]
        exact kept.hollow other old empty
      · obtain rfl : other = tx := by simpa using new
        simp
    · rw [CCoinsViewCache.GetCoins_SetCoins] at found
      rcases List.mem_append.mp member with old | new
      · rw [if_neg (apart other old)] at found
        exact kept.tidy other old safe coins found
      · obtain rfl : other = tx := by simpa using new
        rw [if_pos rfl,Option.some.injEq] at found
        rw [← found]
        exact (CCoins.tidy_ofTransaction_iff ..).mpr safe

/-- The index entry of a block whose undo data has been written. -/
def CBlockIndex.withUndo (pindex : CBlockIndex) : CBlockIndex :=
  {pindex with BLOCK_HAVE_UNDO := true,nValid := BLOCK_VALID_SCRIPTS}

namespace CBlock

private theorem fresh_of_not_overwrites {env : Env} {view : CCoinsViewCache} {block : CBlock}
    (fresh : block.overwrites env view = false) : ∀ tx ∈ block.vtx, ∀ n, view.ledger ⟨env.TxHash tx,n⟩ = none := by
  intro tx member n
  have this := List.any_eq_false.mp fresh tx member
  rw [CCoinsViewCache.ledger]
  cases fetched : view.GetCoins (env.TxHash tx) with
  | none => rfl
  | some coins =>
    have pruned : coins.IsPruned = true := by simpa [fetched] using this
    exact (CCoins.isPruned_iff coins).mp pruned n

/-- The facts of a connected block that taking it back rests on. -/
structure Connected (env : Env) (block : CBlock) (pindex : CBlockIndex) (view after : CCoinsViewCache)
    (blockundo : CBlockUndo) : Prop where
  sizes : blockundo.vtxundo.length+1 = block.vtx.length
  applied : Applied env pindex.nHeight view (block.vtx.zip (none :: blockundo.vtxundo.map some)) after
  listed : (block.vtx.zip (none :: blockundo.vtxundo.map some)).map Prod.fst = block.vtx
  fresh : ∀ tx ∈ block.vtx, ∀ n, view.ledger ⟨env.TxHash tx,n⟩ = none
  distinct : (block.vtx.map env.TxHash).Nodup
  onTip : pindex.pprev = view.GetBestBlock

theorem connected_of_ok {env : Env} {ambient : Ambient} {block : CBlock} {pindex : CBlockIndex}
    {view after : CCoinsViewCache} {fJustCheck : Bool} {blockundo : CBlockUndo}
    (notGenesis : block.GetHash env ≠ hashGenesisBlock)
    (connects : block.ConnectTransactions env ambient pindex view fJustCheck = .ok (after,blockundo)) :
    Connected env block pindex view after blockundo := by
  obtain ⟨checked,onTip,fresh,s,connected,_,rfl,rfl⟩ := ConnectTransactions_ok notGenesis connects
  obtain ⟨⟨coinbase,rest,listed,isCoinbase,ordinary⟩,_,distinct,_⟩ := CheckBlock_ok checked
  rw [listed] at connected
  obtain ⟨lengths,applied⟩ := connectTransactions_applied isCoinbase ordinary connected
  rw [← listed] at applied
  refine ⟨by simp [listed,lengths],applied,?_,fresh_of_not_overwrites fresh,distinct,onTip⟩
  rw [List.map_fst_zip]
  simp [listed,lengths]

/-- Taking a connected block back from any view that follows the connected one. -/
theorem DisconnectBlock_follows {env : Env} {block : CBlock} {pindex : CBlockIndex} {view after w : CCoinsViewCache}
    {blockundo : CBlockUndo} {versions : Int → Int → Prop} (kept : VersionsKept versions)
    (connected : Connected env block pindex view after blockundo) (parent : pindex.pprev ≠ none)
    (positive : 0 < pindex.nHeight) (settled : Settled view.ledger) (offWire : ∀ tx ∈ block.vtx, tx.OffWire)
    (follows : Follows env pindex.nHeight versions block.vtx after w) (best : w.GetBestBlock = some pindex.hashBlock) :
    ∃ restored, block.DisconnectBlock env pindex.withUndo w (some blockundo.stored) =
        .ok (restored,block.vtx.all fun tx => decide tx.Survives) ∧
      (∀ out, CoinFollows versions (view.ledger out) (restored.ledger out)) ∧ restored.GetBestBlock = view.GetBestBlock := by
  obtain ⟨sizes,applied,listed,fresh,distinct,onTip⟩ := connected
  generalize zipped : block.vtx.zip (none :: blockundo.vtxundo.map some) = pairs at applied listed
  have inBlock : ∀ pair ∈ pairs, pair.1 ∈ block.vtx := fun pair member => by
    rw [← listed]
    exact List.mem_map_of_mem member
  obtain ⟨w',disconnected,follows',_⟩ := disconnectTransactions_follows kept positive [] applied settled
    (fun pair member => offWire _ (inBlock pair member)) (fun pair member => fresh _ (inBlock pair member))
    (by simpa [listed] using distinct) (by simp) (by simpa [listed] using follows) true
  have storedPairs : block.vtx.zip (none :: blockundo.stored.vtxundo.map some) =
      pairs.map fun pair => (pair.1,pair.2.map CTxUndo.stored) := by
    have entries : none :: blockundo.stored.vtxundo.map some =
        (none :: blockundo.vtxundo.map some).map (Option.map CTxUndo.stored) := by
      simp [CBlockUndo.stored,Function.comp_def]
    rw [← zipped,entries,List.zip_map_right]
    rfl
  have allSurvive : (pairs.all fun pair => decide pair.1.Survives) = block.vtx.all fun tx => decide tx.Survives := by
    rw [← listed,List.all_map]
    rfl
  obtain ⟨prev,parentIs⟩ := Option.ne_none_iff_exists'.mp parent
  refine ⟨w'.SetBestBlock (some prev),?_,follows'.ledger,?_⟩
  · rw [DisconnectBlock]
    have sizes' : blockundo.stored.vtxundo.length+1 = block.vtx.length := by simpa [CBlockUndo.stored] using sizes
    simp only [best,CBlockIndex.withUndo,ne_eq,not_true_eq_false,if_false,parentIs,sizes',storedPairs,reduceCtorEq,
      Bool.true_eq_false]
    rw [disconnected]
    simp [allSurvive]
  · rw [← onTip,parentIs]
    rfl

private theorem kept_either : VersionsKept fun v u => u = v ∨ u = storedVersion v where
  stored v := Or.inr rfl
  nonneg v u := by
    rintro (rfl | rfl) nonneg
    · rfl
    · rw [storedVersion,if_neg (by omega)]

private theorem kept_stored : VersionsKept fun v u => u = storedVersion v where
  stored v := rfl
  nonneg v u := by
    rintro rfl nonneg
    rw [storedVersion,if_neg (by omega)]

theorem reload_ledger {v w : CCoinsViewCache} (txid : uint256)
    (reloaded : w.GetCoins txid = (v.GetCoins txid).bind CCoins.reload) (n : Nat) :
    w.ledger ⟨txid,n⟩ = (v.ledger ⟨txid,n⟩).map Coin.stored := by
  rw [CCoinsViewCache.ledger,CCoinsViewCache.ledger,reloaded]
  cases v.GetCoins txid with
  | none => rfl
  | some coins =>
    have := CCoins.coin_reload coins n
    cases loaded : coins.reload <;> simpa [loaded] using this

private theorem applied_settled {env : Env} {nHeight : Nat} {pairs : List (CTransaction × Option CTxUndo)}
    {view after : CCoinsViewCache} (applied : Applied env nHeight view pairs after) (settled : Settled view.ledger)
    (offWire : ∀ pair ∈ pairs, pair.1.OffWire) (positive : 0 < nHeight) : Settled after.ledger := by
  induction pairs generalizing view with
  | nil =>
    obtain rfl : view = after := applied
    exact settled
  | cons pair rest ih =>
    obtain ⟨tx,entry⟩ := pair
    obtain ⟨next,txundo,updates,_,applied⟩ := applied
    have stepped : Settled next.ledger := by
      rw [(CTransaction.UpdateCoins_ok updates).1]
      exact settled_applyTo settled (offWire _ (List.mem_cons_self ..)) positive
    exact ih applied stepped fun other member => offWire other (List.mem_cons_of_mem _ member)

/-- When `ConnectBlock` writes undo data and succeeds, this is what it did. -/
theorem ConnectBlock_recorded {env : Env} {ambient : Ambient} {disk : DiskWrites} {block : CBlock}
    {pindex connected : CBlockIndex} {view after : CCoinsViewCache} {fJustCheck : Bool} {blockundo : CBlockUndo}
    (connects : block.ConnectBlock env ambient disk pindex view fJustCheck = ⟨connected,some blockundo,.ok after⟩) :
    block.GetHash env ≠ hashGenesisBlock ∧ connected = pindex.withUndo ∧
      ∃ v, block.ConnectTransactions env ambient pindex view fJustCheck = .ok (v,blockundo) ∧
        after = v.SetBestBlock (some pindex.hashBlock) := by
  rw [ConnectBlock] at connects
  cases transactions : block.ConnectTransactions env ambient pindex view fJustCheck with
  | error e => simp [transactions] at connects
  | ok pair =>
    obtain ⟨v,undo⟩ := pair
    simp only [transactions] at connects
    split at connects
    · simp at connects
    next ordinary =>
      rw [recordBlock] at connects
      dsimp only at connects
      split at connects
      · split at connects
        · simp at connects
        split at connects
        · simp at connects
        split at connects
        · simp at connects
        split at connects
        · simp at connects
        simp only [ConnectOutcome.mk.injEq,Except.ok.injEq] at connects
        obtain ⟨rfl,undoIs,rfl⟩ := connects
        have same : undo = blockundo := by
          split at undoIs
          · contradiction
          · exact Option.some.inj undoIs
        exact ⟨fun genesis => ordinary (Or.inl genesis),rfl,v,by rw [same],rfl⟩
      · split at connects
        · simp at connects
        · simp at connects

private theorem coinFollows_eq {a b : Option Coin} {versions : Int → Int → Prop} (follows : CoinFollows versions a b)
    (same : ∀ coin ∈ a, ∀ u, versions coin.nVersion u → u = coin.nVersion) : b = a := by
  cases a with
  | none => cases b with
    | none => rfl
    | some _ => exact follows.elim
  | some coin => cases b with
    | none => exact follows.elim
    | some mate =>
      obtain ⟨txout,coinbase,height,version⟩ := follows
      have := same coin rfl _ version
      cases coin
      cases mate
      simp_all

private theorem coinFollows_refl {versions : Int → Int → Prop} (rfl' : ∀ v, versions v v) (a : Option Coin) :
    CoinFollows versions a a := by
  cases a with
  | none => trivial
  | some coin => exact ⟨rfl,rfl,rfl,rfl' _⟩

private theorem coinFollows_stored {versions : Int → Int → Prop} (kept : VersionsKept versions) {a : Option Coin}
    (plain : ∀ coin ∈ a, coin.txout.nValue.fixed = 0) : CoinFollows versions a (a.map Coin.stored) := by
  cases a with
  | none => trivial
  | some coin => exact ⟨(CTxOut.stored_of_plain (plain coin rfl)).symm,rfl,rfl,kept.stored _⟩

/-- The view a connected block left and its reloaded forms can all be taken back. -/
private theorem follows_of_reloaded {env : Env} {nHeight : Nat} {versions : Int → Int → Prop} {txs : List CTransaction}
    {after w : CCoinsViewCache} (entries : Entries env nHeight txs after) (settled : Settled after.ledger)
    (kept : VersionsKept versions)
    (read : ∀ txid, w.GetCoins txid = (after.GetCoins txid).bind CCoins.reload ∨
      w.GetCoins txid = after.GetCoins txid ∧ (∀ v, versions v v) ∧
        ∀ tx ∈ txs, env.TxHash tx = txid → tx.Survives) :
    Follows env nHeight versions txs after w := by
  refine ⟨fun ⟨txid,n⟩ => ?_,fun tx member empty => ?_,fun tx member filled coins found => ?_⟩
  · rcases read txid with reloaded | ⟨same,rfl',_⟩
    · rw [reload_ledger txid reloaded]
      exact coinFollows_stored kept fun coin found => (settled _ coin found).2
    · have sameLedger : w.ledger ⟨txid,n⟩ = after.ledger ⟨txid,n⟩ := by
        rw [CCoinsViewCache.ledger,CCoinsViewCache.ledger,same]
      rw [sameLedger]
      exact coinFollows_refl rfl' _
  · rcases read (env.TxHash tx) with reloaded | ⟨same,_⟩
    · left
      have pruned : (CCoins.ofTransaction tx nHeight).IsPruned = true :=
        (CCoins.isPruned_iff _).mpr (empty.coin nHeight)
      rw [reloaded,entries.hollow tx member empty]
      simp [CCoins.reload,pruned]
    · right
      rw [same]
      exact entries.hollow tx member empty
  · rcases read (env.TxHash tx) with reloaded | ⟨same,_,survive⟩
    · rw [reloaded] at found
      obtain ⟨original,_,reloads⟩ := Option.bind_eq_some_iff.mp found
      exact CCoins.reload_tidy reloads
    · have safe : tx.SentinelSafe := (survive tx member rfl).resolve_left filled
      exact entries.tidy tx member safe coins (same ▸ found)

/-- A connected block can be taken back, from memory or through the database, to the
    coins before it exactly when the outputs of all its transactions survive being
    stored and no coin had a negative version. -/
theorem DisconnectBlock_undoes_iff (env : Env) (ambient : Ambient) (disk : DiskWrites) (block : CBlock)
    (pindex connected : CBlockIndex) (view after : CCoinsViewCache) (blockundo : CBlockUndo)
    (connects : block.ConnectBlock env ambient disk pindex view false = ⟨connected,some blockundo,.ok after⟩)
    (parent : pindex.pprev ≠ none) (positive : 0 < pindex.nHeight) (settled : Settled view.ledger)
    (offWire : ∀ tx ∈ block.vtx, tx.OffWire) :
    (∀ w, Reloaded after w → ∃ restored, block.DisconnectBlock env connected w (some blockundo.stored) = .ok (restored,true) ∧
      restored.ledger = view.ledger ∧ restored.GetBestBlock = view.GetBestBlock) ↔
    (∀ tx ∈ block.vtx, tx.Survives) ∧ ∀ out coin, view.ledger out = some coin → 0 ≤ coin.nVersion := by
  obtain ⟨notGenesis,rfl,v,transactions,rfl⟩ := ConnectBlock_recorded connects
  have isConnected := connected_of_ok notGenesis transactions
  have listed := isConnected.listed
  have inBlock : ∀ pair ∈ block.vtx.zip (none :: blockundo.vtxundo.map some), pair.1.OffWire := fun pair member => by
    refine offWire pair.1 ?_
    rw [← listed]
    exact List.mem_map_of_mem member
  have settledAfter : Settled v.ledger := applied_settled isConnected.applied settled inBlock positive
  have entries : Entries env pindex.nHeight block.vtx v := by
    have := applied_entries [] isConnected.applied (by simpa [listed] using isConnected.distinct) ⟨by simp,by simp⟩
    simpa [listed] using this
  constructor
  · intro undoes
    -- everything reloaded at once
    let w : CCoinsViewCache := ⟨⟨fun txid => (v.GetCoins txid).bind CCoins.reload,some pindex.hashBlock⟩,∅,some pindex.hashBlock⟩
    have read (txid : uint256) : w.GetCoins txid = (v.GetCoins txid).bind CCoins.reload := by
      simp [w,CCoinsViewCache.GetCoins]
    obtain ⟨restored,disconnects,ledger,_⟩ := undoes w ⟨fun txid => Or.inr (read txid),rfl⟩
    obtain ⟨restored',disconnects',follows,_⟩ := DisconnectBlock_follows kept_stored isConnected parent positive settled
      offWire (follows_of_reloaded entries settledAfter kept_stored fun txid => Or.inl (read txid)) rfl
    obtain ⟨rfl,clean⟩ := Prod.mk.inj (Except.ok.inj (disconnects.symm.trans disconnects'))
    refine ⟨by simpa using clean.symm,fun out coin found => ?_⟩
    have here := follows out
    rw [ledger,found] at here
    have same : coin.nVersion = storedVersion coin.nVersion := here.2.2.2
    rw [storedVersion] at same
    split at same <;> omega
  · rintro ⟨survive,nonneg⟩ w reloaded
    have follows : Follows env pindex.nHeight (fun v u => u = v ∨ u = storedVersion v) block.vtx v w := by
      refine follows_of_reloaded entries settledAfter kept_either fun txid => ?_
      rcases reloaded.coins txid with same | reload
      · exact Or.inr ⟨same,fun _ => Or.inl rfl,fun tx member _ => survive tx member⟩
      · exact Or.inl reload
    obtain ⟨restored,disconnects,ledger,best⟩ :=
      DisconnectBlock_follows kept_either isConnected parent positive settled offWire follows reloaded.best
    have clean : (block.vtx.all fun tx => decide tx.Survives) = true := by simpa using survive
    rw [clean] at disconnects
    refine ⟨restored,disconnects,?_,best⟩
    funext out
    refine coinFollows_eq (ledger out) fun coin found u related => ?_
    exact kept_either.nonneg _ _ related (nonneg out coin found)

/-! A block at height 5 whose first spend has an output without circuits behind the
one its second spend takes; and the same block without that output. -/

private def undoEnv : Env :=
  ⟨fun tx => tx.nLockTime,fun header => header.nTime,fun left right => left+right,fun _ _ _ _ _ => true,fun _ _ _ => true⟩
private def undoCoinbase : CTransaction := ⟨2,[⟨⟨0,nullIndex⟩,[1,5],nullIndex⟩],[⟨Cash.ofMoney ([0x45],0),[]⟩],10,[]⟩
private def undoFirst (extra : List CTxOut) : CTransaction :=
  ⟨2,[⟨⟨7,0⟩,[],nullIndex⟩],⟨Cash.ofMoney ([0x45],5),[]⟩ :: extra,11,[]⟩
private def undoSecond : CTransaction := ⟨2,[⟨⟨11,0⟩,[],nullIndex⟩],[⟨Cash.ofMoney ([0x45],5),[]⟩],12,[]⟩
private def undoBlock (extra : List CTxOut) : CBlock :=
  ⟨⟨3,1,45,100⟩,[undoCoinbase,undoFirst extra,undoSecond],[],[]⟩
private def undoIndex : CBlockIndex :=
  {hashBlock := 100,pprev := some 1,nHeight := 5,nVersion := 3,hashMerkleRoot := 45,nTime := 100}
private def undoView : CCoinsViewCache where
  base := ⟨fun _ => none,none⟩
  cacheCoins := (∅ : ExtTreeMap uint256 CCoins).insert 7 {vout := [⟨Cash.ofMoney ([0x45],5),[]⟩],nHeight := 4,nVersion := 2}
  pindexTip := some 1

private def disconnectsClean (block : CBlock) : ConnectOutcome → Option Bool
  | ⟨connected,some blockundo,.ok after⟩ => ((block.DisconnectBlock undoEnv connected after (some blockundo.stored)).toOption).map Prod.snd
  | _ => none

private theorem of_disconnectsClean (block : CBlock) (outcome : ConnectOutcome) (clean : Bool)
    (disconnects : disconnectsClean block outcome = some clean) :
    ∃ connected blockundo after restored, outcome = ⟨connected,some blockundo,.ok after⟩ ∧
      block.DisconnectBlock undoEnv connected after (some blockundo.stored) = .ok (restored,clean) := by
  obtain ⟨connected,undo,result⟩ := outcome
  cases undo with
  | none => simp [disconnectsClean] at disconnects
  | some blockundo =>
    cases result with
    | error e => simp [disconnectsClean] at disconnects
    | ok after =>
      simp only [disconnectsClean] at disconnects
      cases taken : block.DisconnectBlock undoEnv connected after (some blockundo.stored) with
      | error e => simp [taken,Except.toOption] at disconnects
      | ok pair =>
        obtain ⟨restored,flag⟩ := pair
        obtain rfl : flag = clean := by simpa [taken,Except.toOption] using disconnects
        exact ⟨connected,blockundo,after,restored,rfl,taken⟩

private theorem undoView_settled : Settled undoView.ledger := by
  intro out coin found
  simp only [CCoinsViewCache.ledger,CCoinsViewCache.GetCoins,undoView,ExtTreeMap.getElem?_insert] at found
  by_cases same : compare 7 out.hash = .eq
  · simp only [same,if_true] at found
    obtain ⟨txout,indexed,_,rfl⟩ := (CCoins.coin_eq_some_iff ..).mp found
    have value : txout = ⟨Cash.ofMoney ([0x45],5),[]⟩ := by simpa using List.mem_of_getElem? indexed
    exact ⟨by simp,by simp [value,Cash.ofMoney]⟩
  · simp [same] at found

theorem DisconnectBlock_unclean :
    ∃ connected blockundo after restored, (undoBlock [⟨{},[]⟩]).ConnectBlock undoEnv ⟨1000,0⟩ {} undoIndex undoView false =
        ⟨connected,some blockundo,.ok after⟩ ∧
      (undoBlock [⟨{},[]⟩]).DisconnectBlock undoEnv connected after (some blockundo.stored) = .ok (restored,false) :=
  of_disconnectsClean _ _ false (by decide +kernel)

theorem DisconnectBlock_undoes_iff_sample :
    ∃ connected blockundo after, (undoBlock []).ConnectBlock undoEnv ⟨1000,0⟩ {} undoIndex undoView false =
        ⟨connected,some blockundo,.ok after⟩ ∧
      ((∀ w, Reloaded after w →
          ∃ restored, (undoBlock []).DisconnectBlock undoEnv connected w (some blockundo.stored) = .ok (restored,true) ∧
            restored.ledger = undoView.ledger ∧ restored.GetBestBlock = undoView.GetBestBlock) ↔
        (∀ tx ∈ (undoBlock []).vtx, tx.Survives) ∧ ∀ out coin, undoView.ledger out = some coin → 0 ≤ coin.nVersion) := by
  obtain ⟨connected,blockundo,after,_,connects,_⟩ := of_disconnectsClean (undoBlock [])
    ((undoBlock []).ConnectBlock undoEnv ⟨1000,0⟩ {} undoIndex undoView false) true (by decide +kernel)
  exact ⟨connected,blockundo,after,connects,DisconnectBlock_undoes_iff undoEnv ⟨1000,0⟩ {} (undoBlock []) undoIndex connected
    undoView after blockundo connects (by decide) (by decide) undoView_settled
    (by simp [undoBlock,undoCoinbase,undoFirst,undoSecond,CTransaction.OffWire,Cash.ofMoney])⟩

end CBlock
end Tetra
