import Mathlib
import Tetra.ConnectBest

/-!
What holds of the block tree after every call as long as what the node writes reaches
its disk: every entry is that of a block on its parent, the records of the database and
the candidates are those of the entries, and the links lead along the active chain,
whose tip is the best block of the coins.
-/
namespace Tetra
open Std Ancestry

namespace CBlock

/-- `ConnectBlock` leaves the entry as it was, or adds the undo data to it. -/
theorem ConnectBlock_entry (env : Env) (ambient : Ambient) (disk : DiskWrites) (block : CBlock) (pindex : CBlockIndex)
    (view : CCoinsViewCache) :
    let outcome := block.ConnectBlock env ambient disk pindex view false
    (outcome.pindex = pindex ∧ outcome.undo = none) ∨
      (outcome.pindex = {pindex with BLOCK_HAVE_UNDO := true,nValid := BLOCK_VALID_SCRIPTS} ∧ outcome.pindex ≠ pindex) := by
  dsimp only
  rw [ConnectBlock]
  split
  · exact .inl ⟨rfl,rfl⟩
  split
  · exact .inl ⟨rfl,rfl⟩
  rw [recordBlock]
  dsimp only
  split
  next records =>
    have changes : {pindex with BLOCK_HAVE_UNDO := true,nValid := BLOCK_VALID_SCRIPTS} ≠ pindex := by
      intro same
      rcases records with missing | short
      · rw [← same] at missing
        contradiction
      · rw [← same] at short
        exact absurd short (by simp)
    split
    · exact .inl ⟨rfl,rfl⟩
    split
    · exact .inl ⟨rfl,rfl⟩
    split
    · exact .inr ⟨rfl,changes⟩
    split
    · exact .inr ⟨rfl,changes⟩
    · exact .inr ⟨rfl,changes⟩
  · split
    · exact .inl ⟨rfl,rfl⟩
    · exact .inl ⟨rfl,rfl⟩

/-- A block that was connected is the best block of the view. -/
theorem ConnectBlock_best {env : Env} {ambient : Ambient} {disk : DiskWrites} {block : CBlock} {pindex : CBlockIndex}
    {view after : CCoinsViewCache} (connects : (block.ConnectBlock env ambient disk pindex view false).result = .ok after) :
    after.GetBestBlock = some pindex.hashBlock := by
  rw [ConnectBlock] at connects
  split at connects
  · contradiction
  next v blockundo transactions =>
    split at connects
    next genesis =>
      have isGenesis : block.GetHash env = hashGenesisBlock := by simpa using genesis
      rw [ConnectTransactions,if_pos isGenesis] at transactions
      split at transactions
      · contradiction
      split at transactions
      · contradiction
      obtain rfl := Except.ok.inj connects
      obtain ⟨rfl,_⟩ := Prod.mk.inj (Except.ok.inj transactions)
      rfl
    · rw [recordBlock] at connects
      dsimp only at connects
      split at connects
      · split at connects
        · contradiction
        split at connects
        · contradiction
        split at connects
        · contradiction
        split at connects
        · contradiction
        · obtain rfl := Except.ok.inj connects
          rfl
      · split at connects
        · contradiction
        · obtain rfl := Except.ok.inj connects
          rfl

/-- A block that was disconnected was the best block of the view, and its parent is now. -/
theorem DisconnectBlock_best {env : Env} {block : CBlock} {pindex : CBlockIndex} {view after : CCoinsViewCache} {undo : Option CBlockUndo}
    {fClean : Bool} (disconnects : block.DisconnectBlock env pindex view undo = .ok (after,fClean)) :
    after.GetBestBlock = pindex.pprev := by
  unfold DisconnectBlock at disconnects
  split at disconnects
  · contradiction
  split at disconnects
  · contradiction
  split at disconnects
  · contradiction
  next parent =>
    split at disconnects
    · contradiction
    split at disconnects
    · contradiction
    split at disconnects
    · contradiction
    · obtain ⟨rfl,_⟩ := Prod.mk.inj (Except.ok.inj disconnects)
      obtain ⟨p,found⟩ := Option.ne_none_iff_exists'.mp parent
      rw [found]
      rfl

end CBlock

section
variable (env : Env)

/-- What holds of an entry in a map of entries. -/
structure Sound (entries : ExtTreeMap uint256 IndexEntry) (hash : uint256) (e : IndexEntry) : Prop where
  named : e.hashBlock = hash
  nonzero : hash ≠ 0
  hashed : env.BlockHash ⟨e.nVersion,e.pprev.getD 0,e.hashMerkleRoot,e.nTime⟩ = hash
  above : ∀ p, e.pprev = some p → ∃ pe, entries[p]? = some pe ∧ e.nHeight = pe.nHeight+1
  root : e.pprev = none → e.nHeight = 0
  counted : e.nChainTx = (((e.pprev.bind fun p => entries[p]?).map IndexEntry.nChainTx).getD 0+e.nTx)%2^32
  valid : BLOCK_VALID_TRANSACTIONS ≤ e.nValid
  data : e.BLOCK_HAVE_DATA = true
  undo : e.BLOCK_HAVE_UNDO = false → e.nUndoPos = 0

/-- Every entry is that of a block on its parent. -/
def Tree (entries : ExtTreeMap uint256 IndexEntry) : Prop := ∀ hash e, entries[hash]? = some e → Sound env entries hash e

/-- The database has the record of every entry. -/
def Recorded (entries : ExtTreeMap uint256 IndexEntry) (blocktree : ExtTreeMap uint256 CDiskBlockIndex) : Prop :=
  ∀ hash : uint256, blocktree[hash]? = (entries[hash]?).map CDiskBlockIndex.ofEntry

/-- The candidates are the blocks that have not failed. -/
def Candidates (entries : ExtTreeMap uint256 IndexEntry) (setBlockIndexValid : ExtTreeSet WorkKey) : Prop :=
  ∀ key, key ∈ setBlockIndexValid ↔ ∃ e, entries[key.hash]? = some e ∧ e.nHeight = key.nHeight ∧ e.BLOCK_FAILED_MASK = false

/-- Two entries of one block, which may differ in status, undo data and link. -/
structure Kin (e e' : IndexEntry) : Prop where
  hashBlock : e'.hashBlock = e.hashBlock
  pprev : e'.pprev = e.pprev
  nHeight : e'.nHeight = e.nHeight
  nVersion : e'.nVersion = e.nVersion
  hashMerkleRoot : e'.hashMerkleRoot = e.hashMerkleRoot
  nTime : e'.nTime = e.nTime
  nTx : e'.nTx = e.nTx
  nChainTx : e'.nChainTx = e.nChainTx

variable {env} {entries : ExtTreeMap uint256 IndexEntry}

theorem entries_insert (hash other : uint256) (e : IndexEntry) :
    (entries.insert hash e)[other]? = if hash = other then some e else entries[other]? := by
  rw [ExtTreeMap.getElem?_insert]
  by_cases same : hash = other
  · simp [same]
  · simp [same]

theorem Tree.set (tree : Tree env entries) {hash : uint256} {e e' : IndexEntry} (found : entries[hash]? = some e) (kin : Kin e e')
    (valid : BLOCK_VALID_TRANSACTIONS ≤ e'.nValid) (data : e'.BLOCK_HAVE_DATA = true) (undo : e'.BLOCK_HAVE_UNDO = false → e'.nUndoPos = 0) :
    Tree env (entries.insert hash e') := by
  -- A lookup in the new map gives an entry of the same block.
  have lookup : ∀ p : uint256, ((entries.insert hash e')[p]?).map IndexEntry.nChainTx = (entries[p]?).map IndexEntry.nChainTx := by
    intro p
    rw [entries_insert]
    split
    next same =>
      rw [← same,found]
      exact congrArg some kin.nChainTx
    · rfl
  have parents : ∀ (p : uint256) pe, entries[p]? = some pe → ∃ pe', (entries.insert hash e')[p]? = some pe' ∧ pe'.nHeight = pe.nHeight := by
    intro p pe there
    rw [entries_insert]
    split
    next same =>
      rw [← same,found] at there
      exact ⟨e',rfl,Option.some.inj there ▸ kin.nHeight⟩
    · exact ⟨pe,there,rfl⟩
  have counts : ∀ place : Option uint256, (place.bind fun p => (entries.insert hash e')[p]?).map IndexEntry.nChainTx =
      (place.bind fun p => entries[p]?).map IndexEntry.nChainTx := by
    intro place
    cases place with
    | none => rfl
    | some p => exact lookup p
  intro other x there
  rw [entries_insert] at there
  split at there
  next same =>
    obtain rfl := Option.some.inj there
    obtain rfl := same
    have was := tree hash e found
    refine ⟨kin.hashBlock.trans was.named,was.nonzero,?_,fun p parent => ?_,fun root => ?_,?_,valid,data,undo⟩
    · rw [kin.nVersion,kin.pprev,kin.hashMerkleRoot,kin.nTime]
      exact was.hashed
    · obtain ⟨pe,inside,above⟩ := was.above p (kin.pprev ▸ parent)
      obtain ⟨pe',inside',same⟩ := parents p pe inside
      exact ⟨pe',inside',by rw [kin.nHeight,above,same]⟩
    · rw [kin.nHeight]
      exact was.root (kin.pprev ▸ root)
    · rw [counts,kin.pprev,kin.nTx,kin.nChainTx]
      exact was.counted
  · have was := tree other x there
    refine ⟨was.named,was.nonzero,was.hashed,fun p parent => ?_,was.root,?_,was.valid,was.data,was.undo⟩
    · obtain ⟨pe,inside,above⟩ := was.above p parent
      obtain ⟨pe',inside',same⟩ := parents p pe inside
      exact ⟨pe',inside',by rw [above,same]⟩
    · rw [counts]
      exact was.counted

/-- What is written of an entry is read back. -/
theorem Sound.stored {hash : uint256} {e : IndexEntry} (sound : Sound env entries hash e) :
    (CDiskBlockIndex.ofEntry e).stored = CDiskBlockIndex.ofEntry e := by
  have data := sound.data
  have undo := sound.undo
  cases have_undo : e.BLOCK_HAVE_UNDO with
  | true => simp [CDiskBlockIndex.stored,CDiskBlockIndex.ofEntry,data,have_undo]
  | false => simp [CDiskBlockIndex.stored,CDiskBlockIndex.ofEntry,data,have_undo,undo have_undo]

theorem Recorded.set {blocktree : ExtTreeMap uint256 CDiskBlockIndex} (recorded : Recorded entries blocktree) (hash : uint256) (e : IndexEntry) :
    Recorded (entries.insert hash e) (blocktree.insert hash (CDiskBlockIndex.ofEntry e)) := by
  intro other
  rw [entries_insert,ExtTreeMap.getElem?_insert,recorded other]
  by_cases same : hash = other
  · simp [same]
  · simp [same]

/-- An entry may be replaced by one with the same record. -/
theorem Recorded.same {blocktree : ExtTreeMap uint256 CDiskBlockIndex} (recorded : Recorded entries blocktree) {hash : uint256} {e e' : IndexEntry}
    (found : entries[hash]? = some e) (same : CDiskBlockIndex.ofEntry e' = CDiskBlockIndex.ofEntry e) :
    Recorded (entries.insert hash e') blocktree := by
  intro other
  rw [entries_insert,recorded other]
  split
  next equal => rw [← equal,found,Option.map_some,Option.map_some,same]
  · rfl

theorem Candidates.same {valid : ExtTreeSet WorkKey} (candidates : Candidates entries valid) {hash : uint256} {e e' : IndexEntry}
    (found : entries[hash]? = some e) (nHeight : e'.nHeight = e.nHeight) (failed : e'.BLOCK_FAILED_MASK = e.BLOCK_FAILED_MASK) :
    Candidates (entries.insert hash e') valid := by
  intro key
  rw [candidates key,entries_insert]
  split
  next equal =>
    rw [← equal,found]
    simp [nHeight,failed]
  · rfl

/-- A block that is marked failed is taken out. -/
theorem Candidates.mark {valid : ExtTreeSet WorkKey} (candidates : Candidates entries valid) {hash : uint256} {e e' : IndexEntry}
    (found : entries[hash]? = some e) (nHeight : e'.nHeight = e.nHeight) (failed : e'.BLOCK_FAILED_MASK = true) :
    Candidates (entries.insert hash e') (valid.erase ⟨e'.nHeight,hash⟩) := by
  intro key
  rw [ExtTreeSet.mem_erase,candidates key,entries_insert]
  by_cases equal : hash = key.hash
  · rw [if_pos equal,← equal,found]
    constructor
    · rintro ⟨other,e'',there,height,_⟩
      obtain rfl := Option.some.inj there
      refine absurd ?_ other
      have same : (⟨e'.nHeight,hash⟩ : WorkKey) = key := by
        rw [nHeight,height,equal]
      rw [same]
      exact ReflCmp.compare_self
    · rintro ⟨e'',there,_,sound⟩
      rw [← Option.some.inj there,failed] at sound
      contradiction
  · rw [if_neg equal]
    refine and_iff_right ?_
    intro same
    exact equal (congrArg WorkKey.hash (LawfulEqCmp.eq_of_compare same))

end

/-- What is written reaches the disk: the records of the block tree, and the coins once
    they have been handed to `pcoinsTip`. -/
structure Surroundings.Keeps (w : Surroundings) : Prop where
  connects : ∀ hash, (w.disk hash).WriteBlockIndex = true
  marks : ∀ hash, w.WriteBlockIndex hash = true
  coins : w.fIsInitialDownload = false ∨ w.fCacheFull = true → w.CheckDiskSpace = true ∧ w.SyncTree = true ∧ w.FlushCoins = true

namespace ChainState

/-- The index, its records and the candidates agree. -/
structure Filed (env : Env) (s : ChainState) : Prop where
  tree : Tree env s.mapBlockIndex
  recorded : Recorded s.mapBlockIndex s.blocktree
  candidates : Candidates s.mapBlockIndex s.setBlockIndexValid

/-- Two states with the same blocks, the same links and the same active chain. -/
structure SameChain (s s' : ChainState) : Prop where
  blocks : ∀ hash, hash ∈ s'.mapBlockIndex ↔ hash ∈ s.mapBlockIndex
  parent : s'.parent = s.parent
  next : s'.next = s.next
  pindexBest : s'.pindexBest = s.pindexBest
  pcoinsTip : s'.pcoinsTip = s.pcoinsTip

/-- The index is in order, the links lead along the active chain, and its tip is the
    best block of the coins. -/
structure Inv (env : Env) (s : ChainState) : Prop where
  filed : Filed env s
  best : ∀ b, s.pindexBest = some b → b ∈ s.mapBlockIndex
  coins : s.pcoinsTip.GetBestBlock = s.pindexBest
  linked : Linked s.parent s.next s.pindexBest

theorem SameChain.refl (s : ChainState) : SameChain s s := ⟨fun _ => Iff.rfl,rfl,rfl,rfl,rfl⟩

theorem SameChain.trans {s s' s'' : ChainState} (first : SameChain s s') (second : SameChain s' s'') : SameChain s s'' where
  blocks hash := (second.blocks hash).trans (first.blocks hash)
  parent := second.parent.trans first.parent
  next := second.next.trans first.next
  pindexBest := second.pindexBest.trans first.pindexBest
  pcoinsTip := second.pcoinsTip.trans first.pcoinsTip

theorem Inv.of_same {env : Env} {s s' : ChainState} (inv : Inv env s) (filed : Filed env s') (same : SameChain s s') : Inv env s' where
  filed := filed
  best b tip := (same.blocks b).mpr (inv.best b (same.pindexBest ▸ tip))
  coins := by rw [same.pcoinsTip,same.pindexBest,inv.coins]
  linked := by rw [same.parent,same.next,same.pindexBest]; exact inv.linked

/-- What the active chain rests on. -/
theorem SameChain.of_fields {s s' t : ChainState} (same : SameChain s t) (entries : s'.mapBlockIndex = t.mapBlockIndex)
    (best : s'.pindexBest = t.pindexBest) (tip : s'.pcoinsTip = t.pcoinsTip) : SameChain s s' where
  blocks hash := by rw [entries]; exact same.blocks hash
  parent := by
    rw [← same.parent]
    funext hash
    rw [ChainState.parent,ChainState.parent,entries]
  next := by
    rw [← same.next]
    funext hash
    rw [ChainState.next,ChainState.next,entries]
  pindexBest := best.trans same.pindexBest
  pcoinsTip := tip.trans same.pcoinsTip

theorem mem_iff_entry (s : ChainState) (hash : uint256) : hash ∈ s.mapBlockIndex ↔ ∃ e, s.mapBlockIndex[hash]? = some e := by
  rw [ExtTreeMap.mem_iff_isSome_getElem?,Option.isSome_iff_exists]

theorem height_of_entry {s : ChainState} {hash : uint256} {e : IndexEntry} (found : s.mapBlockIndex[hash]? = some e) :
    s.height hash = e.nHeight := by
  simp [height,found]

theorem parent_of_entry {s : ChainState} {hash : uint256} {e : IndexEntry} (found : s.mapBlockIndex[hash]? = some e) :
    s.parent hash = e.pprev := by
  simp [parent,found]

theorem exists_entry_of_parent {s : ChainState} {hash p : uint256} (step : s.parent hash = some p) :
    ∃ e, s.mapBlockIndex[hash]? = some e ∧ e.pprev = some p := Option.bind_eq_some_iff.mp step

theorem Filed.falls {env : Env} {s : ChainState} (filed : Filed env s) : Falls s.parent s.height := by
  intro child p step
  obtain ⟨e,found,parent⟩ := exists_entry_of_parent step
  obtain ⟨pe,inside,above⟩ := (filed.tree child e found).above p parent
  rw [height_of_entry found,height_of_entry inside,above]
  omega

theorem Filed.parent_mem {env : Env} {s : ChainState} (filed : Filed env s) {hash p : uint256} (step : s.parent hash = some p) :
    p ∈ s.mapBlockIndex := by
  obtain ⟨e,found,parent⟩ := exists_entry_of_parent step
  obtain ⟨pe,inside,_⟩ := (filed.tree hash e found).above p parent
  exact (s.mem_iff_entry p).mpr ⟨pe,inside⟩

theorem Filed.descends_mem {env : Env} {s : ChainState} (filed : Filed env s) {t k : uint256} (path : Descends s.parent t k)
    (member : t ∈ s.mapBlockIndex) : k ∈ s.mapBlockIndex := by
  induction path with
  | refl => exact member
  | tail _ step _ => exact filed.parent_mem step

/-- A new status or new undo data of a block leaves the links as they are. -/
theorem SameChain.setEntry {s : ChainState} {hash : uint256} {e e' : IndexEntry} (found : s.mapBlockIndex[hash]? = some e)
    (pprev : e'.pprev = e.pprev) (pnext : e'.pnext = e.pnext) : SameChain s (s.setEntry hash e') where
  blocks other := by
    rw [mem_iff_entry,mem_iff_entry]
    simp only [ChainState.setEntry,entries_insert]
    split
    next same => simp [← same,found]
    · rfl
  parent := by
    funext other
    simp only [ChainState.parent,ChainState.setEntry,entries_insert]
    split
    next same => simp [← same,found,pprev]
    · rfl
  next := by
    funext other
    simp only [ChainState.next,ChainState.setEntry,entries_insert]
    split
    next same => simp [← same,found,pnext]
    · rfl
  pindexBest := rfl
  pcoinsTip := rfl

/-- A block that is marked failed: the entry, its record and the candidates. -/
theorem Filed.mark {env : Env} {s : ChainState} (filed : Filed env s) {hash : uint256} {e e' : IndexEntry} (found : s.mapBlockIndex[hash]? = some e)
    (kin : Kin e e') (valid : e'.nValid = e.nValid) (data : e'.BLOCK_HAVE_DATA = e.BLOCK_HAVE_DATA)
    (undo : e'.BLOCK_HAVE_UNDO = e.BLOCK_HAVE_UNDO) (pos : e'.nUndoPos = e.nUndoPos) (failed : e'.BLOCK_FAILED_MASK = true) :
    Filed env (((s.setEntry hash e').writeIndex env e').eraseValid hash e') := by
  have was := filed.tree hash e found
  have tree := Tree.set filed.tree found kin (valid ▸ was.valid) (data.trans was.data) fun missing => by
    rw [pos]
    exact was.undo (undo ▸ missing)
  have sound := tree hash e' (by rw [entries_insert,if_pos rfl])
  have key : (CDiskBlockIndex.ofEntry e').GetBlockHash env = hash := sound.hashed
  refine ⟨tree,?_,filed.candidates.mark found kin.nHeight failed⟩
  simp only [eraseValid,writeIndex,setEntry,key,sound.stored]
  exact filed.recorded.set hash e'

/-- `Kin` of entries that differ in what `ConnectBlock` changes. -/
theorem kin_of_undo (e : IndexEntry) (nUndoPos : Nat) :
    Kin e {e with BLOCK_HAVE_UNDO := true,nValid := BLOCK_VALID_SCRIPTS,nUndoPos := nUndoPos} := ⟨rfl,rfl,rfl,rfl,rfl,rfl,rfl,rfl⟩

theorem Kin.refl (e : IndexEntry) : Kin e e := ⟨rfl,rfl,rfl,rfl,rfl,rfl,rfl,rfl⟩

section
variable {rules : PoolRules} {world : Nat → Surroundings} {w : Surroundings} {s : ChainState}

theorem recordConnect_fields (env : Env) (hash : uint256) (pindex : IndexEntry) (block : CBlock) (outcome : ConnectOutcome) :
    let s' := s.recordConnect env w hash pindex block outcome
    let after := connectedEntry w hash pindex outcome
    s'.mapBlockIndex = s.mapBlockIndex.insert hash after ∧ s'.setBlockIndexValid = s.setBlockIndexValid ∧
      s'.pindexBest = s.pindexBest ∧ s'.pcoinsTip = s.pcoinsTip ∧
      s'.blocktree = if outcome.pindex ≠ pindex.toCBlockIndex ∧ (w.disk hash).WriteBlockIndex = true then
        s.blocktree.insert ((CDiskBlockIndex.ofEntry after).GetBlockHash env) (CDiskBlockIndex.ofEntry after).stored else s.blocktree := by
  obtain ⟨_,undo,_⟩ := outcome
  cases undo <;> unfold recordConnect <;> dsimp only <;> split <;> split <;> exact ⟨rfl,rfl,rfl,rfl,rfl⟩

/-- What `ConnectBlock` does to the tree keeps it in order, if the record is written. -/
theorem recordConnect_filed (filed : Filed rules.env s) {hash : uint256} {pindex : IndexEntry}
    (found : s.mapBlockIndex[hash]? = some pindex) (writes : (w.disk hash).WriteBlockIndex = true) (block : CBlock) (view : CCoinsViewCache) :
    let s' := s.recordConnect rules.env w hash pindex block
      (block.ConnectBlock rules.env w.ambient (w.disk hash) pindex.toCBlockIndex view false)
    Filed rules.env s' ∧ SameChain s s' := by
  dsimp only
  have was := filed.tree hash pindex found
  have cases := block.ConnectBlock_entry rules.env w.ambient (w.disk hash) pindex.toCBlockIndex view
  dsimp only at cases
  generalize block.ConnectBlock rules.env w.ambient (w.disk hash) pindex.toCBlockIndex view false = outcome at cases ⊢
  obtain ⟨entries,valid,best,tip,records⟩ := @recordConnect_fields w s rules.env hash pindex block outcome
  generalize s.recordConnect rules.env w hash pindex block outcome = s' at entries valid best tip records ⊢
  rcases cases with ⟨same,noUndo⟩ | ⟨undone,changed⟩
  · have after : connectedEntry w hash pindex outcome = pindex := by
      simp [connectedEntry,same,noUndo]
    rw [after] at entries
    rw [if_neg (by simp [same])] at records
    refine ⟨⟨?_,?_,?_⟩,(SameChain.setEntry found rfl rfl).of_fields entries best tip⟩
    · rw [entries]
      exact filed.tree.set found (Kin.refl pindex) was.valid was.data was.undo
    · rw [entries,records]
      exact filed.recorded.same found rfl
    · rw [entries,valid]
      exact filed.candidates.same found rfl rfl
  · have after : connectedEntry w hash pindex outcome = {pindex with
        BLOCK_HAVE_UNDO := true
        nValid := BLOCK_VALID_SCRIPTS
        nUndoPos := if outcome.undo.isSome then w.nUndoPos hash else pindex.nUndoPos} := by
      rw [connectedEntry,undone]
    generalize (if outcome.undo.isSome then w.nUndoPos hash else pindex.nUndoPos) = pos at after
    have level : BLOCK_VALID_TRANSACTIONS ≤ BLOCK_VALID_SCRIPTS := by decide
    have tree := filed.tree.set found (kin_of_undo pindex pos) level was.data nofun
    rw [after] at entries
    rw [if_pos ⟨changed,writes⟩,after] at records
    have sound := tree hash _ (by rw [entries_insert,if_pos rfl])
    have key : (CDiskBlockIndex.ofEntry {pindex with BLOCK_HAVE_UNDO := true,nValid := BLOCK_VALID_SCRIPTS,nUndoPos := pos}).GetBlockHash rules.env = hash :=
      sound.hashed
    have links : SameChain s (s.setEntry hash {pindex with BLOCK_HAVE_UNDO := true,nValid := BLOCK_VALID_SCRIPTS,nUndoPos := pos}) :=
      SameChain.setEntry found rfl rfl
    refine ⟨⟨?_,?_,?_⟩,links.of_fields entries best tip⟩
    · rw [entries]
      exact tree
    · rw [entries,records,key,sound.stored]
      exact filed.recorded.set hash _
    · rw [entries,valid]
      exact filed.candidates.same found rfl rfl

/-- The blocks that were connected, and the best block of the view after them. -/
theorem connectBlocks_filed {blocks : List uint256} {view : CCoinsViewCache} {vDelete : List CTransaction} (filed : Filed rules.env s)
    (writes : ∀ hash, (w.disk hash).WriteBlockIndex = true) {s' : ChainState} {result : Except (uint256 × Reject) (CCoinsViewCache × List CTransaction)}
    (connects : connectBlocks rules w s view vDelete blocks = (s',result)) :
    Filed rules.env s' ∧ SameChain s s' ∧
      ∀ view' gone, result = .ok (view',gone) → view'.GetBestBlock = (blocks.getLast?).or view.GetBestBlock ∧
        ∀ hash ∈ blocks, hash ∈ s.mapBlockIndex := by
  induction blocks generalizing s view vDelete with
  | nil =>
    obtain ⟨rfl,rfl⟩ := Prod.mk.inj connects
    refine ⟨filed,.refl _,fun view' gone ok => ?_⟩
    obtain ⟨rfl,_⟩ := Prod.mk.inj (Except.ok.inj ok)
    exact ⟨rfl,by simp⟩
  | cons hash rest ih =>
    rw [connectBlocks] at connects
    split at connects
    · obtain ⟨rfl,rfl⟩ := Prod.mk.inj connects
      exact ⟨filed,.refl _,nofun⟩
    next pindex found =>
      split at connects
      · obtain ⟨rfl,rfl⟩ := Prod.mk.inj connects
        exact ⟨filed,.refl _,nofun⟩
      next block _ =>
        obtain ⟨recorded,same⟩ := recordConnect_filed filed found (writes hash) block view
        dsimp only at connects
        split at connects
        · obtain ⟨rfl,rfl⟩ := Prod.mk.inj connects
          exact ⟨recorded,same,nofun⟩
        next view' connected =>
          obtain ⟨later,onwards,best⟩ := ih recorded connects
          refine ⟨later,same.trans onwards,fun last gone ok => ?_⟩
          obtain ⟨tip,known⟩ := best last gone ok
          rw [tip,CBlock.ConnectBlock_best connected,(filed.tree hash pindex found).named]
          refine ⟨?_,fun other member => ?_⟩
          · cases rest with
            | nil => rfl
            | cons other rest => rw [List.getLast?_cons_cons,List.getLast?_cons]; rfl
          · rcases List.mem_cons.mp member with rfl | later
            · exact (s.mem_iff_entry other).mpr ⟨pindex,found⟩
            · exact (same.blocks other).mp (known other later)

/-- A walk down that was disconnected leaves the view at its end. -/
theorem disconnectBlocks_best {env : Env} {view view' : CCoinsViewCache} {vResurrect gone : List CTransaction} {stop : Option uint256} {fuel : Nat}
    {blocks : List uint256} (walked : walkTo s.parent stop fuel view.GetBestBlock = some blocks)
    (disconnects : disconnectBlocks env w s view vResurrect blocks = .ok (view',gone)) : view'.GetBestBlock = stop := by
  induction blocks generalizing view vResurrect fuel with
  | nil =>
    obtain ⟨rfl,_⟩ := Prod.mk.inj (Except.ok.inj disconnects)
    by_contra apart
    obtain ⟨_,_,_,_,_,cons⟩ := walkTo_step walked apart
    contradiction
  | cons hash rest ih =>
    have apart : view.GetBestBlock ≠ stop := by
      intro same
      rw [same,walkTo_self] at walked
      simp at walked
    obtain ⟨_,fuel',_,_,went,cons⟩ := walkTo_step walked apart
    obtain ⟨rfl,rfl⟩ := List.cons.inj cons
    rw [disconnectBlocks] at disconnects
    split at disconnects
    · contradiction
    next pindex found =>
      split at disconnects
      · contradiction
      split at disconnects
      · contradiction
      next after fClean disconnected =>
        split at disconnects
        · contradiction
        · refine @ih _ _ fuel' ?_ disconnects
          rw [CBlock.DisconnectBlock_best disconnected,← parent_of_entry found]
          exact went

/-- Two states of one tree, the second with links of its own. -/
structure Relinked (env : Env) (s t : ChainState) (links : uint256 → Option uint256) : Prop where
  filed : Filed env t
  blocks : ∀ hash, hash ∈ t.mapBlockIndex ↔ hash ∈ s.mapBlockIndex
  parent : t.parent = s.parent
  next : t.next = links
  pcoinsTip : t.pcoinsTip = s.pcoinsTip
  pindexBest : t.pindexBest = s.pindexBest
  entries : ∀ hash : uint256, t.mapBlockIndex[hash]? = (s.mapBlockIndex[hash]?).map fun e => {e with pnext := links hash}

theorem entry_next (s : ChainState) (hash : uint256) :
    s.mapBlockIndex[hash]? = (s.mapBlockIndex[hash]?).map fun e => {e with pnext := s.next hash} := by
  cases found : s.mapBlockIndex[hash]? with
  | none => rfl
  | some e => simp [next,found]

theorem setNext_relinked {env : Env} (filed : Filed env s) (hash : uint256) (pnext : Option uint256) :
    Relinked env s (s.setNext hash pnext) (assignOne s.parent s.next hash pnext) := by
  rw [setNext,assignOne]
  cases step : s.parent hash with
  | none => exact ⟨filed,fun _ => Iff.rfl,rfl,rfl,rfl,rfl,s.entry_next⟩
  | some p =>
    obtain ⟨e,found⟩ := (s.mem_iff_entry p).mp (filed.parent_mem step)
    have was := filed.tree p e found
    simp only [found]
    refine ⟨⟨?_,?_,?_⟩,fun other => ?_,?_,?_,rfl,rfl,fun other => ?_⟩
    · exact filed.tree.set found ⟨rfl,rfl,rfl,rfl,rfl,rfl,rfl,rfl⟩ was.valid was.data was.undo
    · exact filed.recorded.same found rfl
    · exact filed.candidates.same found rfl rfl
    · rw [mem_iff_entry,mem_iff_entry]
      simp only [setEntry,entries_insert]
      split
      next same => simp [← same,found]
      · rfl
    · funext other
      simp only [parent,setEntry,entries_insert]
      split
      next same => simp [← same,found]
      · rfl
    · funext other
      simp only [next,setEntry,entries_insert]
      by_cases same : p = other
      · simp [same]
      · rw [if_neg same,Function.update_of_ne (Ne.symm same)]
        rfl
    · simp only [setEntry,entries_insert]
      by_cases same : p = other
      · simp [← same,found]
      · rw [if_neg same,Function.update_of_ne (Ne.symm same)]
        exact s.entry_next other

theorem foldl_setNext_relinked {env : Env} (filed : Filed env s) (value : uint256 → Option uint256) (hashes : List uint256) :
    Relinked env s (hashes.foldl (fun s hash => s.setNext hash (value hash)) s) (assign s.parent value s.next hashes) := by
  unfold assign
  induction hashes generalizing s with
  | nil => exact ⟨filed,fun _ => Iff.rfl,rfl,rfl,rfl,rfl,s.entry_next⟩
  | cons hash rest ih =>
    have first := setNext_relinked filed hash (value hash)
    have later := ih first.filed
    rw [first.parent,first.next] at later
    refine ⟨later.filed,fun other => (later.blocks other).trans (first.blocks other),later.parent.trans first.parent,later.next,
      later.pcoinsTip.trans first.pcoinsTip,later.pindexBest.trans first.pindexBest,fun other => ?_⟩
    rw [List.foldl_cons,later.entries,first.entries,Option.map_map]
    rfl

/-- Moving the links to a new tip. -/
theorem finishSwitch_inv {env : Env} {w : Surroundings} {stop : Option uint256} {fuel fuel' : Nat} {pindexNew : uint256}
    {vDisconnect branch : List uint256} {vResurrect vDelete : List CTransaction} (filed : Filed env s)
    (linked : Linked s.parent s.next s.pindexBest) (best : ∀ b, s.pindexBest = some b → b ∈ s.mapBlockIndex)
    (coins : s.pcoinsTip.GetBestBlock = some pindexNew) (down : walkTo s.parent stop fuel s.pindexBest = some vDisconnect)
    (up : walkTo s.parent stop fuel' (some pindexNew) = some branch) (blocks : ∀ hash ∈ branch, hash ∈ s.mapBlockIndex) :
    Inv env (finishSwitch rules w s pindexNew vDisconnect branch.reverse vResurrect vDelete) := by
  have cleared := foldl_setNext_relinked filed (fun _ => none) vDisconnect
  have set := foldl_setNext_relinked cleared.filed some branch.reverse
  rw [cleared.parent,cleared.next] at set
  have reversed : ∀ k, k ∈ branch.reverse ↔ k ∈ branch := fun _ => List.mem_reverse
  have moved := relink filed.falls linked down up reversed
  have known : pindexNew ∈ s.mapBlockIndex := by
    by_cases stays : some pindexNew = stop
    · -- The new tip is on the old chain.
      have onOld : OnChain s.parent s.pindexBest pindexNew :=
        (walkTo_onChain down pindexNew).mpr (.inr ⟨pindexNew,stays.symm,.refl⟩)
      obtain ⟨b,tip,path⟩ := onOld
      exact filed.descends_mem path (best b tip)
    · obtain ⟨k,_,_,same,_,rfl⟩ := walkTo_step up stays
      obtain rfl := Option.some.inj same
      exact blocks pindexNew (List.mem_cons_self ..)
  unfold finishSwitch
  dsimp only
  refine ⟨⟨set.filed.tree,set.filed.recorded,set.filed.candidates⟩,fun b tip => ?_,?_,?_⟩
  · obtain rfl := Option.some.inj tip
    exact (set.blocks _).mpr ((cleared.blocks _).mpr known)
  · exact (congrArg CCoinsViewCache.GetBestBlock (set.pcoinsTip.trans cleared.pcoinsTip)).trans coins
  · intro x k
    have := moved x k
    rw [← set.next,← set.parent.trans cleared.parent] at this
    exact this

end

section
variable {rules : PoolRules} {world : Nat → Surroundings} {s : ChainState}

theorem Inv.look {env : Env} (inv : Inv env s) (world : Nat → Surroundings) : Inv env (s.look world).2 :=
  inv.of_same ⟨inv.filed.tree,inv.filed.recorded,inv.filed.candidates⟩ ((SameChain.refl s).of_fields rfl rfl rfl)

/-- A failed block that is marked. -/
theorem Inv.mark {env : Env} (inv : Inv env s) {hash : uint256} {e e' : IndexEntry} (found : s.mapBlockIndex[hash]? = some e) (kin : Kin e e')
    (pnext : e'.pnext = e.pnext) (valid : e'.nValid = e.nValid) (data : e'.BLOCK_HAVE_DATA = e.BLOCK_HAVE_DATA)
    (undo : e'.BLOCK_HAVE_UNDO = e.BLOCK_HAVE_UNDO) (pos : e'.nUndoPos = e.nUndoPos) (failed : e'.BLOCK_FAILED_MASK = true) :
    Inv env (((s.setEntry hash e').writeIndex env e').eraseValid hash e') :=
  inv.of_same (inv.filed.mark found kin valid data undo pos failed)
    ((SameChain.setEntry found kin.pprev pnext).of_fields rfl rfl rfl)

theorem InvalidBlockFound_inv {env : Env} {w : Surroundings} (keeps : w.Keeps) {reconnect : ChainState → Option ChainState}
    (reconnects : ∀ s s', Inv env s → reconnect s = some s' → Inv env s') (inv : Inv env s) {hash : uint256} {s' : ChainState} {written : Bool}
    (marks : s.InvalidBlockFound env w reconnect hash = some (s',written)) : Inv env s' := by
  rw [InvalidBlockFound] at marks
  split at marks
  · contradiction
  next pindex found =>
    dsimp only at marks
    have marked : Inv env (((s.setEntry hash {pindex with BLOCK_FAILED_VALID := true}).writeIndex env
        {pindex with BLOCK_FAILED_VALID := true}).eraseValid hash {pindex with BLOCK_FAILED_VALID := true}) :=
      inv.mark found ⟨rfl,rfl,rfl,rfl,rfl,rfl,rfl,rfl⟩ rfl rfl rfl rfl rfl rfl
    rw [if_neg (by simp [keeps.marks hash])] at marks
    split at marks
    · obtain ⟨s'',reconnected,same⟩ := Option.map_eq_some_iff.mp marks
      obtain ⟨rfl,_⟩ := Prod.mk.inj same
      exact reconnects _ _ marked reconnected
    · obtain ⟨rfl,_⟩ := Prod.mk.inj (Option.some.inj marks)
      exact marked

theorem SetBestChain_inv (keeps : ∀ i, (world i).Keeps) {reconnect : ChainState → Option ChainState}
    (reconnects : ∀ s s', Inv rules.env s → reconnect s = some s' → Inv rules.env s') (inv : Inv rules.env s) {pindexNew : uint256}
    {returned : Returned} (sets : s.SetBestChain rules world reconnect pindexNew = some returned) : Inv rules.env returned.state := by
  unfold SetBestChain at sets
  have keep := keeps s.calls
  have start : Inv rules.env {s with calls := s.calls+1} := inv.look world
  rw [look] at sets
  dsimp only at sets
  generalize looked : {s with calls := s.calls+1} = t at start sets
  have sameTip : s.pcoinsTip = t.pcoinsTip := by rw [← looked]
  rw [sameTip] at sets
  clear looked sameTip
  generalize world _ = w at keep sets
  split at sets
  · contradiction
  next pfork _ =>
    split at sets
    next vDisconnect branch down up =>
      split at sets
      next e _ =>
        split at sets
        · contradiction
        · obtain rfl := Option.some.inj sets
          exact start
      next view vResurrect disconnected =>
        have atFork : view.GetBestBlock = pfork := disconnectBlocks_best down disconnected
        split at sets
        next s' hash e connected =>
          obtain ⟨filed,same,_⟩ := connectBlocks_filed start.filed keep.connects connected
          have after := start.of_same filed same
          split at sets
          · contradiction
          split at sets
          · obtain ⟨⟨s'',written⟩,marked,rfl⟩ := Option.map_eq_some_iff.mp sets
            exact InvalidBlockFound_inv keep reconnects after marked
          · obtain rfl := Option.some.inj sets
            exact after
        next s' view' vDelete connected =>
          obtain ⟨filed,same,ends⟩ := connectBlocks_filed start.filed keep.connects connected
          obtain ⟨tip,known⟩ := ends view' vDelete rfl
          have after := start.of_same filed same
          -- The view ends at the new tip, whether any block was connected or not.
          have newTip : view'.GetBestBlock = some pindexNew := by
            rw [tip,List.getLast?_reverse,atFork]
            by_cases stays : some pindexNew = pfork
            · rw [← stays,walkTo_self] at up
              obtain rfl := Option.some.inj up
              exact stays.symm
            · obtain ⟨k,_,_,equal,_,rfl⟩ := walkTo_step up stays
              rw [equal]
              rfl
          have best : t.pcoinsTip.GetBestBlock = s'.pindexBest := start.coins.trans same.pindexBest.symm
          have finish : ∀ pcoinsTip : CCoinsViewCache, pcoinsTip.GetBestBlock = some pindexNew →
              Inv rules.env (finishSwitch rules w {s' with pcoinsTip := pcoinsTip} pindexNew vDisconnect branch.reverse vResurrect vDelete) := by
            intro pcoinsTip coins
            refine @finishSwitch_inv rules _ rules.env w pfork t.turns t.turns pindexNew vDisconnect branch vResurrect vDelete
              ⟨filed.tree,filed.recorded,filed.candidates⟩ after.linked after.best coins ?_ ?_ fun hash member => ?_
            · exact (congrArg₂ (fun parent place => walkTo parent pfork t.turns place) same.parent best.symm).trans down
            · exact (congrArg (fun parent => walkTo parent pfork t.turns (some pindexNew)) same.parent).trans up
            · exact (same.blocks hash).mpr (known hash (List.mem_reverse.mpr member))
          have handed : (s'.pcoinsTip.BatchWrite view'.cacheCoins view'.GetBestBlock).GetBestBlock = some pindexNew := by
            rw [newTip]
            rfl
          split at sets
          next flushes =>
            obtain ⟨space,sync,flush⟩ := keep.coins (by simpa using flushes)
            rw [if_neg (by simp [space]),if_neg (by simp [sync]),if_neg (by simp [flush])] at sets
            obtain rfl := Option.some.inj sets
            refine finish (FlushCoins (s'.pcoinsTip.BatchWrite view'.cacheCoins view'.GetBestBlock)) ?_
            rw [newTip]
            rfl
          · obtain rfl := Option.some.inj sets
            exact finish _ handed
    · contradiction

theorem markFailed_inv {env : Env} {w : Surroundings} (keeps : w.Keeps) (inv : Inv env s) {failed : List uint256} {s' : ChainState} {written : Bool}
    (marks : s.markFailed env w failed = (s',written)) : Inv env s' := by
  induction failed generalizing s with
  | nil =>
    obtain ⟨rfl,_⟩ := Prod.mk.inj marks
    exact inv
  | cons hash rest ih =>
    rw [markFailed] at marks
    split at marks
    · obtain ⟨rfl,_⟩ := Prod.mk.inj marks
      exact inv
    next pindex found =>
      dsimp only at marks
      rw [if_neg (by simp [keeps.marks hash])] at marks
      refine ih ?_ marks
      have failed : ({pindex with BLOCK_FAILED_CHILD := true} : IndexEntry).BLOCK_FAILED_MASK = true := by
        simp [CBlockIndex.BLOCK_FAILED_MASK]
      exact inv.mark found ⟨rfl,rfl,rfl,rfl,rfl,rfl,rfl,rfl⟩ rfl rfl rfl rfl rfl failed

/-- What leads from a state to itself and on from where it led, and from each state to what
    one switch of the tip makes of it, leads to what the whole row of them makes of it. -/
theorem switchTo_along {R : ChainState → ChainState → Prop} (refl : ∀ s, R s s) (trans : ∀ s t u, R s t → R t u → R s u)
    {reconnect : ChainState → Option ChainState}
    (sets : ∀ s pindexSwitch returned, s.SetBestChain rules world reconnect pindexSwitch = some returned → R s returned.state)
    {vAttach : List uint256} {returned : Returned} (switches : s.switchTo rules world reconnect vAttach = some returned) : R s returned.state := by
  induction vAttach generalizing s with
  | nil =>
    obtain rfl := Option.some.inj switches
    exact refl _
  | cons pindexSwitch rest ih =>
    rw [switchTo] at switches
    split at switches
    · contradiction
    next set => exact trans _ _ _ (sets _ _ _ set) (ih switches)
    next set =>
      have after := sets _ _ _ set
      obtain rfl := Option.some.inj switches
      exact after
    next set =>
      have after := sets _ _ _ set
      obtain rfl := Option.some.inj switches
      exact after

/-- The same for `ConnectBestBlock`, which calls itself where the tip is switched. -/
theorem ConnectBestBlock_along {R : ChainState → ChainState → Prop} (refl : ∀ s, R s s) (trans : ∀ s t u, R s t → R t u → R s u)
    (look : ∀ s, R s (s.look world).2)
    (sets : ∀ reconnect, (∀ s s', reconnect s = some s' → R s s') → ∀ s pindexNew returned,
      s.SetBestChain rules world reconnect pindexNew = some returned → R s returned.state)
    (marks : ∀ i s failed s' written, s.markFailed rules.env (world i) failed = (s',written) → R s s')
    {fuel : Nat} {returned : Returned} (connects : ConnectBestBlock rules world fuel s = some returned) : R s returned.state := by
  induction fuel generalizing s returned with
  | zero => contradiction
  | succ fuel ih =>
    rw [ConnectBestBlock] at connects
    split at connects
    · obtain rfl := Option.some.inj connects
      exact refl _
    next key _ =>
      have start := look s
      have reconnects : ∀ s s', (ConnectBestBlock rules world fuel s).map Returned.state = some s' → R s s' := by
        intro s s' reconnected
        obtain ⟨returned,went,rfl⟩ := Option.map_eq_some_iff.mp reconnected
        exact ih went
      rw [ChainState.look] at connects start
      dsimp only at connects start
      split at connects
      · contradiction
      · exact trans _ _ _ start (switchTo_along refl trans (sets _ reconnects) connects)
      · split at connects
        · contradiction
        · split at connects
          next marked =>
            obtain rfl := Option.some.inj connects
            exact trans _ _ _ start (marks _ _ _ _ _ marked)
          next marked => exact trans _ _ _ (trans _ _ _ start (marks _ _ _ _ _ marked)) (ih connects)

theorem ConnectBestBlock_inv (keeps : ∀ i, (world i).Keeps) {fuel : Nat} (inv : Inv rules.env s) {returned : Returned}
    (connects : ConnectBestBlock rules world fuel s = some returned) : Inv rules.env returned.state := by
  refine @ConnectBestBlock_along rules world s (fun s s' => Inv rules.env s → Inv rules.env s') (fun _ => id) (fun _ _ _ first next => next ∘ first)
    (fun _ inv => inv.look world) (fun reconnect reconnects s _ _ sets inv => ?_) (fun i _ _ _ _ marks inv => markFailed_inv (keeps i) inv marks)
    fuel returned connects inv
  exact SetBestChain_inv keeps (fun s s' inv reconnected => reconnects s s' reconnected inv) inv sets

/-- A block whose header can be found again under its hash: its predecessor is in the
    tree, or it has none. -/
structure Placed (env : Env) (s : ChainState) (block : CBlock) : Prop where
  fresh : block.GetHash env ∉ s.mapBlockIndex
  nonzero : block.GetHash env ≠ 0
  previous : block.hashPrevBlock ∈ s.mapBlockIndex ∨ block.hashPrevBlock = 0

theorem Filed.not_mem_zero {env : Env} (filed : Filed env s) : 0 ∉ s.mapBlockIndex := by
  rw [mem_iff_entry]
  rintro ⟨e,found⟩
  exact (filed.tree 0 e found).nonzero rfl

theorem newEntry_cases {env : Env} (filed : Filed env s) {block : CBlock} (placed : Placed env s block) (hash : uint256) (pos : CDiskBlockPos) :
    (∃ pe, s.mapBlockIndex[block.hashPrevBlock]? = some pe ∧ (s.newEntry hash block pos).pprev = some block.hashPrevBlock ∧
      (s.newEntry hash block pos).nHeight = pe.nHeight+1 ∧ (s.newEntry hash block pos).nChainTx = (pe.nChainTx+block.vtx.length)%2^32) ∨
    (block.hashPrevBlock = 0 ∧ (s.newEntry hash block pos).pprev = none ∧ (s.newEntry hash block pos).nHeight = 0 ∧
      (s.newEntry hash block pos).nChainTx = block.vtx.length%2^32) := by
  rcases placed.previous with known | zero
  · obtain ⟨pe,found⟩ := (s.mem_iff_entry _).mp known
    exact .inl ⟨pe,found,by simp [newEntry,found]⟩
  · have missing : s.mapBlockIndex[block.hashPrevBlock]? = none := by
      rw [zero]
      exact ExtTreeMap.getElem?_eq_none filed.not_mem_zero
    exact .inr ⟨zero,by simp [newEntry,missing]⟩

/-- The entry of a new block is sound, and those of the others stay so. -/
theorem newEntry_tree {env : Env} (filed : Filed env s) {block : CBlock} (placed : Placed env s block) (pos : CDiskBlockPos) :
    Tree env (s.mapBlockIndex.insert (block.GetHash env) (s.newEntry (block.GetHash env) block pos)) := by
  have elsewhere : ∀ (p : uint256) pe, s.mapBlockIndex[p]? = some pe →
      (s.mapBlockIndex.insert (block.GetHash env) (s.newEntry (block.GetHash env) block pos))[p]? = some pe := by
    intro p pe found
    rw [entries_insert,if_neg]
    · exact found
    · rintro rfl
      exact placed.fresh ((s.mem_iff_entry _).mpr ⟨pe,found⟩)
  intro other x there
  rw [entries_insert] at there
  split at there
  next same =>
    obtain rfl := Option.some.inj there
    obtain rfl := same
    have hashed : ∀ prev, prev = block.hashPrevBlock →
        env.BlockHash ⟨block.nVersion,prev,block.hashMerkleRoot,block.nTime⟩ = block.GetHash env := by
      rintro _ rfl
      rfl
    rcases newEntry_cases filed placed (block.GetHash env) pos with ⟨pe,found,parent,above,count⟩ | ⟨zero,parent,root,count⟩
    · refine ⟨rfl,placed.nonzero,hashed _ (by rw [parent]; rfl),fun p step => ?_,fun none => ?_,?_,Nat.le_refl _,rfl,fun _ => rfl⟩
      · obtain rfl := Option.some.inj (parent.symm.trans step)
        exact ⟨pe,elsewhere _ _ found,above⟩
      · rw [parent] at none
        contradiction
      · rw [count,parent,Option.bind_some,elsewhere _ _ found]
        rfl
    · refine ⟨rfl,placed.nonzero,hashed _ (by rw [parent,zero]; rfl),fun p step => ?_,fun _ => root,?_,Nat.le_refl _,rfl,fun _ => rfl⟩
      · rw [parent] at step
        contradiction
      · rw [count,parent,Option.bind_none,Option.map_none,Option.getD_none,Nat.zero_add]
        rfl
  · have was := filed.tree other x there
    refine ⟨was.named,was.nonzero,was.hashed,fun p parent => ?_,was.root,?_,was.valid,was.data,was.undo⟩
    · obtain ⟨pe,inside,above⟩ := was.above p parent
      exact ⟨pe,elsewhere p pe inside,above⟩
    · rw [was.counted]
      cases parent : x.pprev with
      | none => rfl
      | some p =>
        obtain ⟨pe,inside,_⟩ := was.above p parent
        rw [Option.bind_some,Option.bind_some,elsewhere p pe inside,inside]

theorem Inv.addBlock {env : Env} (inv : Inv env s) {block : CBlock} (placed : Placed env s block) (pos : CDiskBlockPos) :
    Inv env (ChainState.writeIndex env {s.setEntry (block.GetHash env) (s.newEntry (block.GetHash env) block pos) with
      setBlockIndexValid := s.setBlockIndexValid.insert ⟨(s.newEntry (block.GetHash env) block pos).nHeight,block.GetHash env⟩}
      (s.newEntry (block.GetHash env) block pos)) := by
  have tree := newEntry_tree inv.filed placed pos
  have sound := tree (block.GetHash env) _ (by rw [entries_insert,if_pos rfl])
  have key : (CDiskBlockIndex.ofEntry (s.newEntry (block.GetHash env) block pos)).GetBlockHash env = block.GetHash env := sound.hashed
  have absent : s.mapBlockIndex[block.GetHash env]? = none := ExtTreeMap.getElem?_eq_none placed.fresh
  have unfailed : (s.newEntry (block.GetHash env) block pos).BLOCK_FAILED_MASK = false := rfl
  have unlinked : (s.newEntry (block.GetHash env) block pos).pnext = none := rfl
  have fresh := placed.fresh
  generalize block.GetHash env = hash at *
  generalize s.newEntry hash block pos = e at *
  refine ⟨⟨tree,?_,?_⟩,fun b tip => ?_,inv.coins,?_⟩
  · simp only [writeIndex,setEntry,key,sound.stored]
    exact inv.filed.recorded.set hash e
  · intro key
    simp only [writeIndex,setEntry,ExtTreeSet.mem_insert,entries_insert]
    rw [inv.filed.candidates key]
    by_cases same : hash = key.hash
    · rw [if_pos same,← same,absent]
      constructor
      · rintro (equal | ⟨_,there,_⟩)
        · exact ⟨e,rfl,congrArg WorkKey.nHeight (LawfulEqCmp.eq_of_compare equal),unfailed⟩
        · contradiction
      · rintro ⟨_,there,height,_⟩
        obtain rfl := Option.some.inj there
        refine .inl ?_
        rw [height,same]
        exact ReflCmp.compare_self
    · rw [if_neg same]
      refine or_iff_right ?_
      intro equal
      exact same (congrArg WorkKey.hash (LawfulEqCmp.eq_of_compare equal))
  · simp only [writeIndex,setEntry]
    exact ExtTreeMap.mem_insert.mpr (.inr (inv.best b tip))
  · have apart : ∀ other, other ∈ s.mapBlockIndex → hash ≠ other := by
      rintro other member rfl
      exact fresh member
    have links : s.next = ChainState.next (ChainState.writeIndex env {s.setEntry hash e with
        setBlockIndexValid := s.setBlockIndexValid.insert ⟨e.nHeight,hash⟩} e) := by
      funext other
      simp only [ChainState.next,writeIndex,setEntry,entries_insert]
      split
      next same => rw [← same,absent,Option.bind_none,Option.bind_some,unlinked]
      · rfl
    rw [← links]
    refine inv.linked.congr (fun k p (_ : k ∈ s.mapBlockIndex) step => inv.filed.parent_mem step) (fun k inside => ?_) inv.best
    simp only [ChainState.parent,writeIndex,setEntry,entries_insert,if_neg (apart k inside)]

theorem AddToBlockIndex_inv (keeps : ∀ i, (world i).Keeps) {fuel : Nat} (inv : Inv rules.env s) {block : CBlock} {pos : CDiskBlockPos}
    (nonzero : block.GetHash rules.env ≠ 0) (previous : block.hashPrevBlock ∈ s.mapBlockIndex ∨ block.hashPrevBlock = 0)
    {returned : Returned} (adds : s.AddToBlockIndex rules world fuel block pos = some returned) : Inv rules.env returned.state := by
  rw [AddToBlockIndex] at adds
  dsimp only at adds
  split at adds
  · obtain rfl := Option.some.inj adds
    exact inv
  next fresh =>
    have keep := keeps s.calls
    have start := inv.look world
    have placed : Placed rules.env (s.look world).2 block := ⟨fresh,nonzero,previous⟩
    have added := start.addBlock placed pos
    rw [look] at adds added
    dsimp only at adds added
    rw [if_neg (by simp [keep.marks])] at adds
    split at adds
    · contradiction
    next connected =>
      have after := ConnectBestBlock_inv keeps added connected
      obtain rfl := Option.some.inj adds
      exact after
    next connected =>
      have after := ConnectBestBlock_inv keeps added connected
      obtain rfl := Option.some.inj adds
      exact after

/-- Blocks whose hash is not 0, the first without a predecessor. -/
def Genuine (env : Env) (block : CBlock) : Prop :=
  block.GetHash env ≠ 0 ∧ (block.GetHash env = hashGenesisBlock → block.hashPrevBlock = 0)

/-- A block is turned away, or written, and then the state is what adding it to the index left. -/
theorem AcceptBlock_cases {fuel : Nat} {block : CBlock} {returned : Returned} (accepts : s.AcceptBlock rules world fuel block = some returned) :
    returned.state = s ∨ (s.checkAccept rules block = .ok () ∧ (returned.state = (s.look world).2 ∨
      ∃ blockPos added, AddToBlockIndex rules world fuel {(s.look world).2 with blkFiles := (s.look world).2.blkFiles.insert blockPos block}
        block blockPos = some added ∧ returned.state = added.state)) := by
  rw [AcceptBlock] at accepts
  split at accepts
  · obtain rfl := Option.some.inj accepts
    exact .inl rfl
  next checked =>
    refine .inr ⟨checked,?_⟩
    dsimp only at accepts
    split at accepts
    · obtain rfl := Option.some.inj accepts
      exact .inl rfl
    next blockPos _ =>
      split at accepts
      · obtain rfl := Option.some.inj accepts
        exact .inl rfl
      · split at accepts
        · contradiction
        next adds =>
          obtain rfl := Option.some.inj accepts
          exact .inr ⟨blockPos,_,adds,rfl⟩
        next adds =>
          obtain rfl := Option.some.inj accepts
          exact .inr ⟨blockPos,_,adds,rfl⟩
        next adds =>
          obtain rfl := Option.some.inj accepts
          exact .inr ⟨blockPos,_,adds,rfl⟩

/-- A block that passes the checks has a known predecessor, or is the genesis block. -/
theorem parent_of_checkAccept {block : CBlock} (checked : s.checkAccept rules block = .ok ()) :
    block.hashPrevBlock ∈ s.mapBlockIndex ∨ block.GetHash rules.env = hashGenesisBlock := by
  rw [checkAccept] at checked
  dsimp only at checked
  split at checked
  · contradiction
  split at checked
  next genesis => exact .inr genesis
  split at checked
  · contradiction
  next found => exact .inl ((s.mem_iff_entry _).mpr ⟨_,found⟩)

theorem AcceptBlock_inv (keeps : ∀ i, (world i).Keeps) {fuel : Nat} (inv : Inv rules.env s) {block : CBlock} (genuine : Genuine rules.env block)
    {returned : Returned} (accepts : s.AcceptBlock rules world fuel block = some returned) : Inv rules.env returned.state := by
  obtain same | ⟨checked,same | ⟨blockPos,added,adds,same⟩⟩ := AcceptBlock_cases accepts
  · rw [same]
    exact inv
  · rw [same]
    exact inv.look world
  · rw [same]
    have start := inv.look world
    have written : Inv rules.env {(s.look world).2 with blkFiles := (s.look world).2.blkFiles.insert blockPos block} :=
      start.of_same ⟨start.filed.tree,start.filed.recorded,start.filed.candidates⟩ ((SameChain.refl _).of_fields rfl rfl rfl)
    exact AddToBlockIndex_inv keeps written genuine.1 ((parent_of_checkAccept checked).imp_right genuine.2) adds

end

end ChainState
end Tetra
