import Mathlib
import Tetra.Maps
import Tetra.Overlay
import Tetra.Tidy

/-!
Coins caches over each other and over the views they can stand on: the chain state
database, the memory pool over the main cache, and the view that has nothing. A stack
answers as plain maps do, as long as writes are made where nothing above holds a copy.
-/
namespace Tetra
open Std Overlay

def MEMPOOL_HEIGHT : Nat := 0x7FFFFFFF

/-- A pointer to an entry of `mapBlockIndex`. -/
abbrev BlockPointer (mapBlockIndex : ExtTreeMap uint256 CBlockIndex) := {hash : uint256 // hash ∈ mapBlockIndex}

/-- The entries of the chain state database; coins are read from what was written. -/
structure CCoinsViewDB where
  coins : ExtTreeMap uint256 CCoins := ∅
  hashBestChain : Option uint256 := none

def BatchWriteCoins (batch : ExtTreeMap uint256 CCoins) (hash : uint256) (coins : CCoins) : ExtTreeMap uint256 CCoins :=
  if coins.IsPruned then batch.erase hash else batch.insert hash coins

section
variable {mapBlockIndex : ExtTreeMap uint256 CBlockIndex}

namespace CCoinsViewDB

def GetCoins (db : CCoinsViewDB) (txid : uint256) : Option CCoins := (db.coins[txid]?).bind CCoins.reload

def GetBestBlock (db : CCoinsViewDB) : Option (BlockPointer mapBlockIndex) :=
  match db.hashBestChain with
  | none => none
  | some hashBestChain => if found : hashBestChain ∈ mapBlockIndex then some ⟨hashBestChain,found⟩ else none

def BatchWrite (db : CCoinsViewDB) (mapCoins : ExtTreeMap uint256 CCoins) (pindex : Option (BlockPointer mapBlockIndex)) : CCoinsViewDB where
  coins := mapCoins.foldl BatchWriteCoins db.coins
  hashBestChain := match pindex with | some pindex => some pindex.1 | none => db.hashBestChain

end CCoinsViewDB

/-- One `CCoinsViewCache` with the copies it took. -/
abbrev CacheLayer (mapBlockIndex : ExtTreeMap uint256 CBlockIndex) := Layer uint256 CCoins (BlockPointer mapBlockIndex) compare

/-- What a stack of caches can stand on. -/
inductive BaseView
  /-- `CCoinsView` itself, which has no coins and takes none. -/
  | dummy
  /-- `CCoinsViewDB` -/
  | db
  /-- `CCoinsViewMemPool` with the transactions of the pool, over a cache of the database. -/
  | memPool (mapTx : ExtTreeMap uint256 CTransaction)

/-- `CCoinsViewMemPool::GetCoins`; writes go to the cache behind it. -/
def memPoolStore (mapBlockIndex : ExtTreeMap uint256 CBlockIndex) (mapTx : ExtTreeMap uint256 CTransaction) :
    Store uint256 CCoins (BlockPointer mapBlockIndex) compare where
  State := CacheLayer mapBlockIndex × CCoinsViewDB
  get := fun (pcoinsTip,db) txid =>
    (view db.GetCoins [pcoinsTip] txid).or ((mapTx[txid]?).map fun tx => CCoins.ofTransaction tx MEMPOOL_HEIGHT)
  tip := fun (pcoinsTip,db) => tipOf db.GetBestBlock [pcoinsTip]
  guarded := false
  write := fun _ (pcoinsTip,db) mapCoins pindex => some ({entries := pcoinsTip.entries ∪ mapCoins,tip := pindex},db)

def BaseView.store (mapBlockIndex : ExtTreeMap uint256 CBlockIndex) : BaseView → Store uint256 CCoins (BlockPointer mapBlockIndex) compare
  | .dummy =>
    {State := Unit,get := fun _ _ => none,tip := fun _ => none,guarded := true,write := fun _ _ _ _ => none}
  | .db =>
    {State := CCoinsViewDB,get := CCoinsViewDB.GetCoins,tip := CCoinsViewDB.GetBestBlock,guarded := true
     write := fun works db mapCoins pindex => if works then some (db.BatchWrite mapCoins pindex) else none}
  | .memPool mapTx => memPoolStore mapBlockIndex mapTx

/-- Coins that count as some. -/
def CCoins.live (coins : CCoins) : Bool := !coins.IsPruned

/-- Coins that a base view gives back as they were written. -/
def BaseView.keeps : BaseView → CCoins → Prop
  | .db, coins => coins.IsPruned ∨ coins.reload = some coins
  | _, _ => True

/-- The stack as the views of the earlier modules, one over the other. -/
def asView (base : BaseView) (s : (base.store mapBlockIndex).State) : List (CacheLayer mapBlockIndex) → CCoinsView
  | [] => ⟨(base.store mapBlockIndex).get s,((base.store mapBlockIndex).tip s).map Subtype.val⟩
  | l :: below => CCoinsViewCache.toView ⟨asView base s below,l.entries,l.tip.map Subtype.val⟩

/-- A cache that keeps no copies answers the same. -/
theorem asView_GetCoins (base : BaseView) (s : (base.store mapBlockIndex).State) (layers : List (CacheLayer mapBlockIndex)) :
    (asView base s layers).GetCoins = view ((base.store mapBlockIndex).get s) layers ∧
      (asView base s layers).GetBestBlock = (tipOf ((base.store mapBlockIndex).tip s) layers).map Subtype.val := by
  induction layers with
  | nil => exact ⟨rfl,rfl⟩
  | cons l below ih =>
    refine ⟨?_,?_⟩
    · funext txid
      simp only [asView,CCoinsViewCache.toView,CCoinsViewCache.GetCoins,view,ih.1]
      cases l.entries[txid]? <;> rfl
    · simp only [asView,CCoinsViewCache.toView,CCoinsViewCache.GetBestBlock,tipOf,ih.2]
      cases l.tip <;> rfl

namespace CCoins

theorem storedVersion_idem (nVersion : Int) : storedVersion (storedVersion nVersion) = storedVersion nVersion := by
  unfold storedVersion
  split
  · rw [if_neg (by omega)]
  · rfl

theorem Cleanup_tidy {coins : CCoins} (tidy : coins.Tidy) : coins.Cleanup = coins := by
  have whole : coins.vout.rdropWhile CTxOut.IsNull = coins.vout := by
    rw [List.rdropWhile_eq_self_iff]
    intro filled
    have := tidy.lastAvailable _ (List.getLast_mem_getLast? filled)
    simp [this]
  rw [Cleanup,whole]

theorem Cleanup_IsPruned (coins : CCoins) : coins.Cleanup.IsPruned = coins.IsPruned := by
  rw [Bool.eq_iff_iff,IsPruned,IsPruned,List.all_eq_true,List.all_eq_true]
  constructor
  · intro pruned out member
    by_contra available
    have kept : out ∈ coins.vout.rdropWhile CTxOut.IsNull := by
      obtain ⟨dropped,nulls,parts⟩ : ∃ dropped, (∀ o ∈ dropped, CTxOut.IsNull o = true) ∧
          coins.vout = coins.vout.rdropWhile CTxOut.IsNull ++ dropped := by
        refine ⟨coins.vout.rtakeWhile CTxOut.IsNull,fun o inside => List.mem_rtakeWhile_imp inside,?_⟩
        simp [List.rdropWhile,List.rtakeWhile,← List.reverse_append]
      rw [parts] at member
      rcases List.mem_append.mp member with inside | inside
      · exact inside
      · exact absurd (nulls out inside) available
    exact available (pruned out kept)
  · intro pruned out member
    exact pruned out ((List.rdropWhile_prefix CTxOut.IsNull coins.vout).subset member)

/-- What the database gives back, it gives back again. -/
theorem reload_reload {coins loaded : CCoins} (reloads : coins.reload = some loaded) : loaded.reload = some loaded := by
  have tidy := reload_tidy reloads
  rw [reload] at reloads
  split at reloads
  · contradiction
  next present =>
    obtain rfl := Option.some.inj reloads
    set kept : CCoins := {coins with
      vout := coins.vout.map fun out => if out.IsNull then CTxOut.null else out.stored
      nVersion := storedVersion coins.nVersion} with keptIs
    have again : ∀ out ∈ kept.Cleanup.vout, (if out.IsNull then CTxOut.null else out.stored) = out := by
      intro out member
      have inside := (List.rdropWhile_prefix CTxOut.IsNull kept.vout).subset member
      obtain ⟨original,_,rfl⟩ := List.mem_map.mp inside
      by_cases wasNull : original.IsNull = true
      · simp [wasNull]
      · simp only [wasNull]
        have stillThere : original.stored.IsNull = false := by
          simpa [CTxOut.stored,CTxOut.IsNull,Cash.stored,Cash.size] using wasNull
        rw [if_neg Bool.false_ne_true,stillThere]
        rfl
    have remains : ¬ kept.Cleanup.IsPruned = true := by
      rw [Cleanup_IsPruned]
      intro pruned
      refine present (List.all_eq_true.mpr fun out member => ?_)
      have image := List.all_eq_true.mp pruned _ (List.mem_map_of_mem member)
      by_contra available
      simp only [available] at image
      exact available (by simpa [CTxOut.stored,CTxOut.IsNull,Cash.stored,Cash.size] using image)
    rw [reload,if_neg remains]
    have voutSame : (kept.Cleanup.vout.map fun out => if out.IsNull then CTxOut.null else out.stored) = kept.Cleanup.vout := by
      conv_rhs => rw [← List.map_id kept.Cleanup.vout]
      exact List.map_congr_left again
    have versionSame : storedVersion kept.Cleanup.nVersion = kept.Cleanup.nVersion := storedVersion_idem coins.nVersion
    rw [voutSame,versionSame]
    exact congrArg some (Cleanup_tidy tidy)

end CCoins

theorem getElem?_BatchWriteCoins (batch : ExtTreeMap uint256 CCoins) (hash : uint256) (coins : CCoins) (txid : uint256) :
    (BatchWriteCoins batch hash coins)[txid]? =
      if compare hash txid = .eq then (if coins.IsPruned then none else some coins) else batch[txid]? := by
  unfold BatchWriteCoins
  split
  · rw [ExtTreeMap.getElem?_erase]
  · rw [ExtTreeMap.getElem?_insert]

namespace CCoinsViewDB

theorem GetCoins_BatchWrite (db : CCoinsViewDB) (mapCoins : ExtTreeMap uint256 CCoins) (pindex : Option (BlockPointer mapBlockIndex))
    (kept : ∀ (k : uint256) v, mapCoins[k]? = some v → BaseView.db.keeps v) (txid : uint256) :
    ((db.BatchWrite mapCoins pindex).GetCoins txid).filter CCoins.live = (mapCoins[txid]?.or (db.GetCoins txid)).filter CCoins.live := by
  simp only [GetCoins,BatchWrite]
  rw [Maps.getElem?_foldl getElem?_BatchWriteCoins]
  cases found : mapCoins[txid]? with
  | none => simp
  | some coins =>
    by_cases pruned : coins.IsPruned = true
    · have notLive : CCoins.live coins = false := by simp [CCoins.live,pruned]
      simp [pruned,Option.filter,notLive]
    · rcases kept txid coins found with gone | same
      · exact absurd gone pruned
      · simp [pruned,same]

theorem GetBestBlock_BatchWrite (db : CCoinsViewDB) (mapCoins : ExtTreeMap uint256 CCoins) (pindex : Option (BlockPointer mapBlockIndex)) :
    ((db.BatchWrite mapCoins pindex).GetBestBlock : Option (BlockPointer mapBlockIndex)) = pindex.or db.GetBestBlock := by
  cases pindex with
  | none => rfl
  | some pindex => simp [GetBestBlock,BatchWrite,pindex.2]

end CCoinsViewDB

/-- Every base view gives back what is written to it, where it takes the write. -/
theorem BaseView.lawful (mapBlockIndex : ExtTreeMap uint256 CBlockIndex) (base : BaseView) :
    (base.store mapBlockIndex).Lawful CCoins.live base.keeps := by
  cases base with
  | dummy =>
    refine ⟨fun works s mapCoins pindex s' wrote => ?_,fun works s mapCoins pindex s' wrote => ?_,fun s txid coins found => trivial⟩
    · exact absurd wrote (by simp [store])
    · exact absurd wrote (by simp [store])
  | db =>
    refine ⟨fun works db mapCoins pindex after wrote kept txid => ?_,fun works db mapCoins pindex after wrote _ => ?_,
      fun db txid coins found => ?_⟩
    · cases works with
      | false => exact absurd wrote (by simp [store])
      | true =>
        obtain rfl := Option.some.inj wrote
        exact CCoinsViewDB.GetCoins_BatchWrite db mapCoins pindex kept txid
    · cases works with
      | false => exact absurd wrote (by simp [store])
      | true =>
        obtain rfl := Option.some.inj wrote
        exact CCoinsViewDB.GetBestBlock_BatchWrite db mapCoins pindex
    · obtain ⟨written,_,reloads⟩ := Option.bind_eq_some_iff.mp found
      exact .inr (CCoins.reload_reload reloads)
  | memPool mapTx =>
    refine ⟨fun works s mapCoins pindex after wrote kept txid => ?_,fun works s mapCoins pindex after wrote known => ?_,
      fun s txid coins found => trivial⟩
    · obtain ⟨pcoinsTip,db⟩ := s
      obtain rfl := Option.some.inj wrote
      simp only [store,memPoolStore,view,ExtTreeMap.getElem?_union]
      cases mapCoins[txid]? <;> cases pcoinsTip.entries[txid]? <;> simp
    · obtain ⟨pcoinsTip,db⟩ := s
      obtain rfl := Option.some.inj wrote
      rcases known with known | unguarded
      · obtain ⟨pindex,rfl⟩ := Option.ne_none_iff_exists'.mp known
        rfl
      · exact absurd unguarded (by simp [store,memPoolStore])

end

def fiveEuros (nVersion : Int) : CCoins := {vout := [⟨⟨(∅ : ExtTreeMap CashName Int64).insert EUR 5,0⟩,[]⟩],nVersion := nVersion}

def sampleCalls : List (Nat × Op uint256 CCoins (BlockPointer ∅)) :=
  [(1,.write 7 (fiveEuros 1)),(0,.read 7),(0,.flush true),(1,.flush true),(0,.has 7)]

end Tetra
