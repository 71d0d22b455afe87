import Mathlib
import Tetra.BlockTree

/-!
Starting the node again. The block tree is built from the records of the database in
whatever order they come, and the active chain from the best block of the coins; it is
the tree the node had, as long as everything it wrote reached the disk.
-/
namespace Tetra
open Std Ancestry

abbrev BlockIndex := ExtTreeMap uint256 IndexEntry

/-- `CBlockIndex()`, under its hash. -/
def placeholder (hash : uint256) : IndexEntry where
  hashBlock := hash
  pprev := none
  nHeight := 0
  nVersion := 0
  hashMerkleRoot := 0
  nTime := 0
  nFile := 0
  nDataPos := 0

/-- The entry under a hash, made if there is none yet; none is the null pointer. -/
def InsertBlockIndex (mapBlockIndex : BlockIndex) (hash : uint256) : Option uint256 × BlockIndex :=
  if hash = 0 then (none,mapBlockIndex)
  else if hash ∈ mapBlockIndex then (some hash,mapBlockIndex)
  else (some hash,mapBlockIndex.insert hash (placeholder hash))

structure Loading where
  mapBlockIndex : BlockIndex := ∅
  pindexGenesisBlock : Option uint256 := none

/-- What a record puts into an entry. -/
def CDiskBlockIndex.fill (diskindex : CDiskBlockIndex) (pprev : Option uint256) (pindexNew : IndexEntry) : IndexEntry :=
  {pindexNew with
    pprev := pprev
    nHeight := diskindex.nHeight
    nFile := diskindex.nFile
    nDataPos := diskindex.nDataPos
    nUndoPos := diskindex.nUndoPos
    nVersion := diskindex.nVersion
    hashMerkleRoot := diskindex.hashMerkleRoot
    nTime := diskindex.nTime
    nBits := diskindex.nBits
    nNonce := diskindex.nNonce
    nValid := diskindex.nValid
    BLOCK_HAVE_DATA := diskindex.BLOCK_HAVE_DATA
    BLOCK_HAVE_UNDO := diskindex.BLOCK_HAVE_UNDO
    BLOCK_FAILED_VALID := diskindex.BLOCK_FAILED_VALID
    BLOCK_FAILED_CHILD := diskindex.BLOCK_FAILED_CHILD
    nTx := diskindex.nTx}

/-- One record in `LoadBlockIndexGuts`; none if it is written through a null pointer. -/
def loadRecord (env : Env) (loading : Loading) (diskindex : CDiskBlockIndex) : Option Loading :=
  let hash := diskindex.GetBlockHash env
  match InsertBlockIndex loading.mapBlockIndex hash with
  | (none,_) => none
  | (some pindexNew,mapBlockIndex) =>
    let (pprev,mapBlockIndex) := InsertBlockIndex mapBlockIndex diskindex.hashPrev
    let found := (mapBlockIndex[pindexNew]?).getD (placeholder pindexNew)
    some {
      mapBlockIndex := mapBlockIndex.insert pindexNew (diskindex.fill pprev found)
      pindexGenesisBlock :=
        if loading.pindexGenesisBlock = none ∧ hash = hashGenesisBlock then some pindexNew else loading.pindexGenesisBlock}

def LoadBlockIndexGuts (env : Env) (records : List CDiskBlockIndex) : Option Loading := records.foldlM (loadRecord env) {}

/-- `vSortedByHeight`; blocks of one height come in the order of their addresses. -/
def sortedByHeight (address : uint256 → Nat) (mapBlockIndex : BlockIndex) : List uint256 :=
  ((mapBlockIndex.toList.map fun item => (item.2.nHeight,item.1)).insertionSort fun a b =>
    a.1 < b.1 ∨ a.1 = b.1 ∧ address a.2 ≤ address b.2).map Prod.snd

/-- One block in the loop over `vSortedByHeight`. -/
def countBlock (s : BlockIndex × ExtTreeSet WorkKey) (hash : uint256) : BlockIndex × ExtTreeSet WorkKey :=
  match s.1[hash]? with
  | none => s
  | some pindex =>
    let nChainTx := (((pindex.pprev.bind fun pprev => s.1[pprev]?).map IndexEntry.nChainTx).getD 0+pindex.nTx)%2^32
    (s.1.insert hash {pindex with nChainTx := nChainTx},
      if pindex.nValid ≥ BLOCK_VALID_TRANSACTIONS ∧ pindex.BLOCK_FAILED_MASK = false then s.2.insert ⟨pindex.nHeight,hash⟩ else s.2)

namespace ChainState

/-- The loop that sets the links of the best chain, from a block on; every turn goes one
    block down. -/
def linkDown : Nat → ChainState → uint256 → Option ChainState
  | fuel, s, pindex =>
    match s.parent pindex with
    | none => some s
    | some pprev =>
      match fuel with
      | 0 => none
      | fuel+1 => linkDown fuel (s.setNext pindex (some pindex)) pprev

/-- The node ends and starts again: the coins go to the database, and `LoadBlockIndexDB`
    reads the records of the block tree in some order. -/
def restart (env : Env) (records : List CDiskBlockIndex) (address : uint256 → Nat) (s : ChainState) : Option ChainState :=
  match LoadBlockIndexGuts env records with
  | none => none
  | some loading =>
    let loaded := (sortedByHeight address loading.mapBlockIndex).foldl countBlock (loading.mapBlockIndex,∅)
    let chainstate := (FlushCoins s.pcoinsTip).base
    let pindexBest := chainstate.GetBestBlock.filter fun hashBestChain => decide (hashBestChain ∈ loaded.1)
    let started : ChainState := {
      mapBlockIndex := loaded.1
      setBlockIndexValid := loaded.2
      pindexGenesisBlock := loading.pindexGenesisBlock
      pindexBest := pindexBest
      pcoinsTip := {base := {chainstate with GetBestBlock := pindexBest}}
      blkFiles := s.blkFiles
      revFiles := s.revFiles
      blocktree := s.blocktree
      calls := s.calls}
    match pindexBest with
    | none => some started
    | some pindexBest => started.linkDown (started.height pindexBest) pindexBest

end ChainState

/-- What happens to the node. -/
inductive ChainAction
  | accept (block : CBlock)
  /-- The call at the start of the node. -/
  | connectBest
  | restart (records : List CDiskBlockIndex) (address : uint256 → Nat)

namespace ChainState

/-- One action; a restart reads each record of the database once. -/
def act (rules : PoolRules) (world : Nat → Surroundings) (fuel : Nat) (s : ChainState) : ChainAction → Option ChainState
  | .accept block => (s.AcceptBlock rules world fuel block).map Returned.state
  | .connectBest => (ConnectBestBlock rules world fuel s).map Returned.state
  | .restart records address =>
    if records.Perm (s.blocktree.toList.map Prod.snd) then s.restart rules.env records address else none

def run (rules : PoolRules) (world : Nat → Surroundings) (fuel : Nat) (s : ChainState) : List ChainAction → Option ChainState
  | [] => some s
  | action :: rest => (s.act rules world fuel action).bind fun s => run rules world fuel s rest

end ChainState

/-- An entry without what is not on disk. -/
def IndexEntry.fresh (e : IndexEntry) : IndexEntry := {e with pnext := none,nChainTx := 0}

/-- An entry as it is once its transactions are counted. -/
def IndexEntry.unlinked (e : IndexEntry) : IndexEntry := {e with pnext := none}

theorem fill_fresh {e found : IndexEntry} (same : found.hashBlock = e.hashBlock ∧ found.pnext = none ∧ found.nChainTx = 0) :
    (CDiskBlockIndex.ofEntry e).fill e.pprev found = e.fresh := by
  obtain ⟨hashBlock,pnext,nChainTx⟩ := same
  simp [CDiskBlockIndex.fill,CDiskBlockIndex.ofEntry,IndexEntry.fresh,hashBlock,pnext,nChainTx]

theorem InsertBlockIndex_lookup (mapBlockIndex : BlockIndex) (hash other : uint256) :
    (InsertBlockIndex mapBlockIndex hash).2[other]? =
      if hash = other ∧ hash ≠ 0 ∧ mapBlockIndex[other]? = none then some (placeholder other) else mapBlockIndex[other]? := by
  unfold InsertBlockIndex
  by_cases zero : hash = 0
  · simp [zero]
  · rw [if_neg zero]
    by_cases member : hash ∈ mapBlockIndex
    · rw [if_pos member,if_neg]
      rintro ⟨rfl,_,missing⟩
      rw [ExtTreeMap.mem_iff_isSome_getElem?,missing] at member
      contradiction
    · rw [if_neg member]
      dsimp only
      rw [entries_insert]
      by_cases same : hash = other
      · obtain rfl := same
        rw [if_pos rfl,if_pos ⟨rfl,zero,ExtTreeMap.getElem?_eq_none member⟩]
      · rw [if_neg same,if_neg fun both => same both.1]

theorem InsertBlockIndex_pointer (mapBlockIndex : BlockIndex) (hash : uint256) :
    (InsertBlockIndex mapBlockIndex hash).1 = if hash = 0 then none else some hash := by
  unfold InsertBlockIndex
  split
  · rfl
  · split <;> rfl

section
variable {env : Env} {entries : BlockIndex} (tree : Tree env entries)

/-- The tree while its records are read: an entry for every block read, and placeholders
    for others of the same tree. -/
structure Reading (entries : BlockIndex) (done : uint256 → Prop) (mapBlockIndex : BlockIndex) : Prop where
  known : ∀ hash x, mapBlockIndex[hash]? = some x → ∃ e, entries[hash]? = some e ∧ (x = e.fresh ∨ x = placeholder hash)
  read : ∀ hash e, entries[hash]? = some e → done hash → mapBlockIndex[hash]? = some e.fresh

include tree

theorem loadRecord_reading {done : uint256 → Prop} {loading : Loading} (reading : Reading entries done loading.mapBlockIndex) {hash : uint256}
    {e : IndexEntry} (found : entries[hash]? = some e) :
    ∃ loading', loadRecord env loading (CDiskBlockIndex.ofEntry e) = some loading' ∧
      Reading entries (fun k => k = hash ∨ done k) loading'.mapBlockIndex := by
  have sound := tree hash e found
  have key : (CDiskBlockIndex.ofEntry e).GetBlockHash env = hash := sound.hashed
  have parent : (if (CDiskBlockIndex.ofEntry e).hashPrev = 0 then none else some (CDiskBlockIndex.ofEntry e).hashPrev) = e.pprev := by
    have prev : (CDiskBlockIndex.ofEntry e).hashPrev = e.pprev.getD 0 := rfl
    rw [prev]
    cases step : e.pprev with
    | none => rfl
    | some p =>
      obtain ⟨pe,inside,_⟩ := sound.above p step
      exact if_neg (tree p pe inside).nonzero
  -- Both insertions only add placeholders of blocks of the tree.
  have inserts : ∀ {done : uint256 → Prop} {m : BlockIndex}, Reading entries done m → ∀ k, (k ≠ 0 → k ∈ entries) →
      Reading entries done (InsertBlockIndex m k).2 := by
    intro done m reading k inside
    refine ⟨fun other x there => ?_,fun other x there isDone => ?_⟩
    · rw [InsertBlockIndex_lookup] at there
      split at there
      next new =>
        obtain ⟨rfl,nonzero,_⟩ := new
        obtain ⟨e',found'⟩ := Option.isSome_iff_exists.mp (ExtTreeMap.mem_iff_isSome_getElem?.mp (inside nonzero))
        exact ⟨e',found',.inr (Option.some.inj there).symm⟩
      · exact reading.known other x there
    · have before := reading.read other x there isDone
      rw [InsertBlockIndex_lookup,if_neg fun new => by rw [before] at new; exact absurd new.2.2 nofun]
      exact before
  have member : hash ∈ entries := ExtTreeMap.mem_iff_isSome_getElem?.mpr (by rw [found]; rfl)
  have prevMember : (CDiskBlockIndex.ofEntry e).hashPrev ≠ 0 → (CDiskBlockIndex.ofEntry e).hashPrev ∈ entries := by
    intro nonzero
    rw [if_neg nonzero] at parent
    obtain ⟨pe,inside,_⟩ := sound.above _ parent.symm
    exact ExtTreeMap.mem_iff_isSome_getElem?.mpr (by rw [inside]; rfl)
  have both := inserts (inserts reading hash fun _ => member) (CDiskBlockIndex.ofEntry e).hashPrev prevMember
  have first : InsertBlockIndex loading.mapBlockIndex hash = (some hash,(InsertBlockIndex loading.mapBlockIndex hash).2) :=
    Prod.ext ((InsertBlockIndex_pointer ..).trans (if_neg sound.nonzero)) rfl
  unfold loadRecord
  dsimp only
  rw [key,first]
  dsimp only
  rw [InsertBlockIndex_pointer,parent]
  have filled : (CDiskBlockIndex.ofEntry e).fill e.pprev (((InsertBlockIndex (InsertBlockIndex loading.mapBlockIndex hash).2
      (CDiskBlockIndex.ofEntry e).hashPrev).2[hash]?).getD (placeholder hash)) = e.fresh := by
    refine fill_fresh ?_
    cases there : (InsertBlockIndex (InsertBlockIndex loading.mapBlockIndex hash).2 (CDiskBlockIndex.ofEntry e).hashPrev).2[hash]? with
    | none => exact ⟨sound.named.symm,rfl,rfl⟩
    | some x =>
      obtain ⟨e',found',same⟩ := both.known hash x there
      obtain rfl := Option.some.inj (found.symm.trans found')
      rcases same with rfl | rfl
      · exact ⟨rfl,rfl,rfl⟩
      · exact ⟨sound.named.symm,rfl,rfl⟩
  rw [filled]
  refine ⟨_,rfl,fun other x there => ?_,fun other x there isDone => ?_⟩
  · rw [entries_insert] at there
    split at there
    next same => exact ⟨e,same ▸ found,.inl (Option.some.inj there).symm⟩
    · exact both.known other x there
  · rw [entries_insert]
    split
    next same =>
      obtain rfl := Option.some.inj (found.symm.trans (same ▸ there))
      rfl
    next apart => exact both.read other x there (isDone.resolve_left (Ne.symm apart))

/-- All records have been read, in any order. -/
theorem LoadBlockIndexGuts_fresh {records : List CDiskBlockIndex}
    (all : ∀ r, r ∈ records ↔ ∃ (hash : uint256) (e : IndexEntry), entries[hash]? = some e ∧ r = CDiskBlockIndex.ofEntry e) :
    ∃ loading, LoadBlockIndexGuts env records = some loading ∧
      ∀ hash : uint256, loading.mapBlockIndex[hash]? = (entries[hash]?).map IndexEntry.fresh := by
  have reads : ∀ (records : List CDiskBlockIndex) (done : uint256 → Prop) (loading : Loading), Reading entries done loading.mapBlockIndex →
      (∀ r ∈ records, ∃ (hash : uint256) (e : IndexEntry), entries[hash]? = some e ∧ r = CDiskBlockIndex.ofEntry e) →
      ∃ loading' done', records.foldlM (loadRecord env) loading = some loading' ∧ Reading entries done' loading'.mapBlockIndex ∧
        (∀ hash, done hash → done' hash) ∧
        ∀ (hash : uint256) e, entries[hash]? = some e → CDiskBlockIndex.ofEntry e ∈ records → done' hash := by
    intro records
    induction records with
    | nil => exact fun done loading reading _ => ⟨loading,done,rfl,reading,fun _ => id,nofun⟩
    | cons r rest ih =>
      intro done loading reading known
      obtain ⟨hash,e,found,rfl⟩ := known r (List.mem_cons_self ..)
      obtain ⟨next,loads,after⟩ := loadRecord_reading tree reading found
      obtain ⟨last,done',went,finished,kept,ends⟩ := ih _ next after fun r member => known r (List.mem_cons_of_mem _ member)
      refine ⟨last,done',by rw [List.foldlM_cons,loads]; exact went,finished,fun k isDone => kept k (.inr isDone),fun k e' there member => ?_⟩
      rcases List.mem_cons.mp member with same | later
      · -- Two entries with one record are of one block.
        have hashes := congrArg (CDiskBlockIndex.GetBlockHash env) same
        have equal : k = hash := (tree k e' there).hashed.symm.trans (hashes.trans (tree hash e found).hashed)
        exact kept k (.inl equal)
      · exact ends k e' there later
  obtain ⟨loading,done,loads,reading,_,finished⟩ := reads records (fun _ => False) {} ⟨by simp,nofun⟩ fun r member => (all r).mp member
  refine ⟨loading,loads,fun hash => ?_⟩
  cases found : entries[hash]? with
  | none =>
    cases there : loading.mapBlockIndex[hash]? with
    | none => rfl
    | some x =>
      obtain ⟨e,found',_⟩ := reading.known hash x there
      rw [found] at found'
      contradiction
  | some e => exact reading.read hash e found (finished hash e found ((all _).mpr ⟨hash,e,found,rfl⟩))

/-- The tree while its transactions are counted. -/
structure Counting (entries : BlockIndex) (done : uint256 → Prop) (s : BlockIndex × ExtTreeSet WorkKey) : Prop where
  counted : ∀ hash e, entries[hash]? = some e → done hash → s.1[hash]? = some e.unlinked
  waiting : ∀ hash e, entries[hash]? = some e → ¬ done hash → s.1[hash]? = some e.fresh
  others : ∀ hash : uint256, entries[hash]? = none → s.1[hash]? = none
  valid : ∀ key, key ∈ s.2 ↔ done key.hash ∧ ∃ e, entries[key.hash]? = some e ∧ e.nHeight = key.nHeight ∧ e.BLOCK_FAILED_MASK = false

theorem countBlock_counting {done : uint256 → Prop} {s : BlockIndex × ExtTreeSet WorkKey} (counting : Counting entries done s) {hash : uint256}
    {e : IndexEntry} (found : entries[hash]? = some e) (undone : ¬ done hash) (parentDone : ∀ p, e.pprev = some p → done p) :
    Counting entries (fun k => k = hash ∨ done k) (countBlock s hash) := by
  have sound := tree hash e found
  have there := counting.waiting hash e found undone
  have count : (((e.fresh.pprev.bind fun pprev => s.1[pprev]?).map IndexEntry.nChainTx).getD 0+e.fresh.nTx)%2^32 = e.nChainTx := by
    rw [sound.counted]
    cases parent : e.pprev with
    | none => simp [IndexEntry.fresh,parent]
    | some p =>
      obtain ⟨pe,inside,_⟩ := sound.above p parent
      have counted := counting.counted p pe inside (parentDone p parent)
      simp [IndexEntry.fresh,IndexEntry.unlinked,parent,inside,counted]
  unfold countBlock
  rw [there]
  dsimp only
  rw [count]
  have after : ({e.fresh with nChainTx := e.nChainTx} : IndexEntry) = e.unlinked := rfl
  have masks : e.fresh.BLOCK_FAILED_MASK = e.BLOCK_FAILED_MASK := rfl
  have valid : e.fresh.nValid ≥ BLOCK_VALID_TRANSACTIONS := sound.valid
  have height : e.fresh.nHeight = e.nHeight := rfl
  rw [after,masks,height]
  simp only [valid,true_and]
  refine ⟨fun other x inside isDone => ?_,fun other x inside isNot => ?_,fun other missing => ?_,fun key => ?_⟩
  · rw [entries_insert]
    split
    next same =>
      obtain rfl := Option.some.inj (found.symm.trans (same ▸ inside))
      rfl
    next apart => exact counting.counted other x inside (isDone.resolve_left (Ne.symm apart))
  · rw [entries_insert,if_neg fun same => isNot (.inl same.symm)]
    exact counting.waiting other x inside fun isDone => isNot (.inr isDone)
  · rw [entries_insert,if_neg]
    · exact counting.others other missing
    · rintro rfl
      rw [found] at missing
      contradiction
  · have member : key ∈ (if e.BLOCK_FAILED_MASK = false then s.2.insert ⟨e.nHeight,hash⟩ else s.2) ↔
        (e.BLOCK_FAILED_MASK = false ∧ key = ⟨e.nHeight,hash⟩) ∨ key ∈ s.2 := by
      split
      next ok =>
        rw [ExtTreeSet.mem_insert,Std.compare_eq_iff_eq]
        simp [ok,eq_comm]
      next failed => simp [failed]
    rw [member,counting.valid key]
    constructor
    · rintro (⟨ok,rfl⟩ | ⟨isDone,rest⟩)
      · exact ⟨.inl rfl,e,found,rfl,ok⟩
      · exact ⟨.inr isDone,rest⟩
    · rintro ⟨here | isDone,x,inside,height,ok⟩
      · rw [here,found] at inside
        obtain rfl := Option.some.inj inside
        refine .inl ⟨ok,?_⟩
        rw [height,← here]
      · exact .inr ⟨isDone,x,inside,height,ok⟩

/-- The height of an entry. -/
def heightIn (mapBlockIndex : BlockIndex) (hash : uint256) : Nat := ((mapBlockIndex[hash]?).map fun e => e.nHeight).getD 0

omit tree in
theorem sortedByHeight_sorted (address : uint256 → Nat) (m : BlockIndex) :
    (∀ hash, hash ∈ sortedByHeight address m ↔ hash ∈ m) ∧ (sortedByHeight address m).Nodup ∧
      (sortedByHeight address m).Pairwise fun a b => heightIn m a ≤ heightIn m b := by
  unfold sortedByHeight
  have total : Std.Total fun a b : Nat × uint256 => a.1 < b.1 ∨ a.1 = b.1 ∧ address a.2 ≤ address b.2 := ⟨fun a b => by omega⟩
  have trans : IsTrans (Nat × uint256) fun a b => a.1 < b.1 ∨ a.1 = b.1 ∧ address a.2 ≤ address b.2 := ⟨fun a b c => by omega⟩
  have perm := List.perm_insertionSort (fun a b => a.1 < b.1 ∨ a.1 = b.1 ∧ address a.2 ≤ address b.2)
    (m.toList.map fun item => (item.2.nHeight,item.1))
  have keys : (m.toList.map fun item => (item.2.nHeight,item.1)).map Prod.snd = m.keys := by
    rw [List.map_map,← ExtTreeMap.map_fst_toList_eq_keys]
    rfl
  have entry : ∀ item ∈ (m.toList.map fun item => (item.2.nHeight,item.1)).insertionSort
      (fun a b => a.1 < b.1 ∨ a.1 = b.1 ∧ address a.2 ≤ address b.2), item.1 = heightIn m item.2 := by
    intro item member
    obtain ⟨⟨hash,e⟩,inside,rfl⟩ := List.mem_map.mp (perm.mem_iff.mp member)
    have found := ExtTreeMap.mem_toList_iff_getElem?_eq_some.mp inside
    simp [heightIn,found]
  have ordered := List.pairwise_insertionSort (fun a b => a.1 < b.1 ∨ a.1 = b.1 ∧ address a.2 ≤ address b.2)
    (m.toList.map fun item => (item.2.nHeight,item.1))
  refine ⟨fun hash => ?_,?_,?_⟩
  · rw [(perm.map Prod.snd).mem_iff,keys,ExtTreeMap.mem_keys]
  · rw [(perm.map Prod.snd).nodup_iff,keys]
    exact ExtTreeMap.nodup_keys
  · rw [List.pairwise_map]
    refine List.Pairwise.imp_of_mem (fun {a b} memberA memberB before => ?_) ordered
    rw [← entry a memberA,← entry b memberB]
    omega

/-- In an order of rising heights every block is counted after its parent. -/
theorem foldl_countBlock {hashes : List uint256} {done : uint256 → Prop} {s : BlockIndex × ExtTreeSet WorkKey}
    (counting : Counting entries done s) (inside : ∀ hash ∈ hashes, hash ∈ entries) (rest : ∀ hash ∈ entries, done hash ∨ hash ∈ hashes)
    (undone : ∀ hash ∈ hashes, ¬ done hash) (distinct : hashes.Nodup) (rising : hashes.Pairwise fun a b => heightIn entries a ≤ heightIn entries b) :
    ∃ done', Counting entries done' (hashes.foldl countBlock s) ∧ ∀ hash ∈ entries, done' hash := by
  induction hashes generalizing done s with
  | nil => exact ⟨done,counting,fun hash member => (rest hash member).resolve_right (by simp)⟩
  | cons hash later ih =>
    obtain ⟨e,found⟩ := Option.isSome_iff_exists.mp (ExtTreeMap.mem_iff_isSome_getElem?.mp (inside hash (List.mem_cons_self ..)))
    obtain ⟨above,rising⟩ := List.pairwise_cons.mp rising
    obtain ⟨once,distinct⟩ := List.nodup_cons.mp distinct
    have parentDone : ∀ p, e.pprev = some p → done p := by
      intro p parent
      obtain ⟨pe,there,higher⟩ := (tree hash e found).above p parent
      have lower : heightIn entries p < heightIn entries hash := by
        simp only [heightIn,found,there,Option.map_some,Option.getD_some,higher]
        omega
      rcases rest p (ExtTreeMap.mem_iff_isSome_getElem?.mpr (by rw [there]; rfl)) with isDone | waits
      · exact isDone
      · rcases List.mem_cons.mp waits with rfl | after
        · omega
        · have := above p after
          omega
    have step := countBlock_counting tree counting found (undone hash (List.mem_cons_self ..)) parentDone
    refine ih step (fun other member => inside other (List.mem_cons_of_mem _ member)) (fun other member => ?_) (fun other member => ?_) distinct rising
    · rcases rest other member with isDone | waits
      · exact .inl (.inr isDone)
      · rcases List.mem_cons.mp waits with rfl | after
        · exact .inl (.inl rfl)
        · exact .inr after
    · rintro (rfl | isDone)
      · exact once member
      · exact undone other (List.mem_cons_of_mem _ member) isDone

/-- Counting gives every entry back but for its link, and the candidates. -/
theorem countBlocks_unlinked (address : uint256 → Nat) {loaded : BlockIndex}
    (fresh : ∀ hash : uint256, loaded[hash]? = (entries[hash]?).map IndexEntry.fresh) :
    let counted := (sortedByHeight address loaded).foldl countBlock (loaded,∅)
    (∀ hash : uint256, counted.1[hash]? = (entries[hash]?).map IndexEntry.unlinked) ∧ Candidates entries counted.2 := by
  dsimp only
  have heights : ∀ hash, heightIn loaded hash = heightIn entries hash := by
    intro hash
    rw [heightIn,heightIn,fresh hash,Option.map_map]
    rfl
  have same : ∀ hash, hash ∈ loaded ↔ hash ∈ entries := by
    intro hash
    rw [ExtTreeMap.mem_iff_isSome_getElem?,ExtTreeMap.mem_iff_isSome_getElem?,fresh hash,Option.isSome_map]
  obtain ⟨members,distinct,rising⟩ := sortedByHeight_sorted address loaded
  have start : Counting entries (fun _ => False) (loaded,(∅ : ExtTreeSet WorkKey)) := by
    refine ⟨fun _ _ _ => False.elim,fun hash e found _ => ?_,fun hash missing => ?_,fun key => ?_⟩
    · dsimp only
      rw [fresh hash,found]
      rfl
    · dsimp only
      rw [fresh hash,missing]
      rfl
    · simp
  obtain ⟨done,counting,all⟩ := foldl_countBlock tree start (fun hash member => (same hash).mp ((members hash).mp member))
    (fun hash member => .inr ((members hash).mpr ((same hash).mpr member))) (fun _ _ => id) distinct
    (rising.imp fun before => by rwa [heights,heights] at before)
  have inside : ∀ (hash : uint256) e, entries[hash]? = some e → done hash :=
    fun hash e found => all hash (ExtTreeMap.mem_iff_isSome_getElem?.mpr (by rw [found]; rfl))
  refine ⟨fun hash => ?_,fun key => ?_⟩
  · cases found : entries[hash]? with
    | none => exact counting.others hash found
    | some e => exact counting.counted hash e found (inside hash e found)
  · rw [counting.valid key]
    exact and_iff_right_of_imp fun ⟨e,found,_⟩ => inside key.hash e found

end

namespace ChainState

/-- The loop down from the best block sets the link of every parent on its chain. -/
theorem linkDown_eq {env : Env} {s : ChainState} (filed : Filed env s) {hashes : List uint256} {fuel : Nat} {hash : uint256}
    (walked : walkTo s.parent none (fuel+1) (some hash) = some hashes) :
    s.linkDown fuel hash = some (hashes.foldl (fun s hash => s.setNext hash (some hash)) s) := by
  induction hashes generalizing s fuel hash with
  | nil =>
    obtain ⟨_,_,_,_,_,cons⟩ := walkTo_step walked nofun
    contradiction
  | cons first rest ih =>
    unfold walkTo at walked
    rw [if_neg nofun] at walked
    obtain ⟨_,went,cons⟩ := Option.map_eq_some_iff.mp walked
    obtain ⟨rfl,rfl⟩ := List.cons.inj cons
    rw [linkDown.eq_def]
    dsimp only
    cases step : s.parent hash with
    | none =>
      rw [step,walkTo_self] at went
      obtain rfl := Option.some.inj went
      simp [setNext,step]
    | some p =>
      rw [step] at went
      cases fuel with
      | zero => simp [walkTo] at went
      | succ fuel =>
        have moved := setNext_relinked filed hash (some hash)
        rw [← moved.parent] at went
        exact ih moved.filed went

section
variable {env : Env} {s : ChainState} (inv : Inv env s)
include inv

/-- The records of the database are those of the entries. -/
theorem mem_records {records : List CDiskBlockIndex} (order : records.Perm (s.blocktree.toList.map Prod.snd)) (r : CDiskBlockIndex) :
    r ∈ records ↔ ∃ (hash : uint256) (e : IndexEntry), s.mapBlockIndex[hash]? = some e ∧ r = CDiskBlockIndex.ofEntry e := by
  rw [order.mem_iff,List.mem_map]
  constructor
  · rintro ⟨⟨hash,r⟩,member,rfl⟩
    have found := ExtTreeMap.mem_toList_iff_getElem?_eq_some.mp member
    rw [inv.filed.recorded hash] at found
    obtain ⟨e,there,same⟩ := Option.map_eq_some_iff.mp found
    exact ⟨hash,e,there,same.symm⟩
  · rintro ⟨hash,e,there,rfl⟩
    refine ⟨(hash,CDiskBlockIndex.ofEntry e),ExtTreeMap.mem_toList_iff_getElem?_eq_some.mpr ?_,rfl⟩
    rw [inv.filed.recorded hash,there]
    rfl

/-- A tree that has everything but the links becomes the tree of before. -/
theorem link_same {started : ChainState} (unlinked : ∀ hash : uint256, started.mapBlockIndex[hash]? = (s.mapBlockIndex[hash]?).map IndexEntry.unlinked)
    (candidates : Candidates s.mapBlockIndex started.setBlockIndexValid) (records : started.blocktree = s.blocktree)
    (best : started.pindexBest = s.pindexBest) (coins : started.pcoinsTip.GetBestBlock = s.pindexBest) {place : Option uint256}
    (root : s.pindexBest = place) :
    ∃ t, (match place with
        | none => some started
        | some pindexBest => started.linkDown (started.height pindexBest) pindexBest) = some t ∧
      t.mapBlockIndex = s.mapBlockIndex ∧ t.setBlockIndexValid = s.setBlockIndexValid ∧ t.pindexBest = s.pindexBest ∧ Inv env t := by
  have parent : started.parent = s.parent := by
    funext hash
    rw [ChainState.parent,ChainState.parent,unlinked hash]
    cases s.mapBlockIndex[hash]? <;> rfl
  have next : started.next = fun _ => none := by
    funext hash
    rw [ChainState.next,unlinked hash]
    cases s.mapBlockIndex[hash]? <;> rfl
  have filed : Filed env started := by
    refine ⟨fun hash e there => ?_,fun hash => ?_,fun key => ?_⟩
    · rw [unlinked hash] at there
      obtain ⟨e,found,rfl⟩ := Option.map_eq_some_iff.mp there
      have was := inv.filed.tree hash e found
      refine ⟨was.named,was.nonzero,was.hashed,fun p step => ?_,was.root,?_,was.valid,was.data,was.undo⟩
      · obtain ⟨pe,inside,above⟩ := was.above p step
        exact ⟨pe.unlinked,by rw [unlinked p,inside]; rfl,above⟩
      · refine was.counted.trans ?_
        have same : (e.unlinked.pprev.bind fun p => started.mapBlockIndex[p]?).map IndexEntry.nChainTx =
            (e.pprev.bind fun p => s.mapBlockIndex[p]?).map IndexEntry.nChainTx := by
          have pprev : e.unlinked.pprev = e.pprev := rfl
          rw [pprev]
          cases e.pprev with
          | none => rfl
          | some p =>
            rw [Option.bind_some,Option.bind_some,unlinked p,Option.map_map]
            rfl
        rw [same]
        rfl
    · rw [records,inv.filed.recorded hash,unlinked hash,Option.map_map]
      rfl
    · rw [candidates key,unlinked key.hash]
      constructor
      · rintro ⟨e,found,rest⟩
        exact ⟨e.unlinked,by rw [found]; rfl,rest⟩
      · rintro ⟨_,there,rest⟩
        obtain ⟨e,found,rfl⟩ := Option.map_eq_some_iff.mp there
        exact ⟨e,found,rest⟩
  -- It is enough that the links lead along the chain of the best block.
  have finish : ∀ t, Relinked env started t t.next → Linked s.parent t.next s.pindexBest →
      t.mapBlockIndex = s.mapBlockIndex ∧ t.setBlockIndexValid = s.setBlockIndexValid ∧ t.pindexBest = s.pindexBest ∧ Inv env t := by
    intro t moved linked
    have links := linked_unique linked inv.linked
    have entries : t.mapBlockIndex = s.mapBlockIndex := by
      refine ExtTreeMap.ext_getElem? fun hash => ?_
      rw [moved.entries hash,unlinked hash,Option.map_map,links]
      exact (s.entry_next hash).symm
    have tip := moved.pindexBest.trans best
    refine ⟨entries,?_,tip,moved.filed,fun b root => ?_,?_,?_⟩
    · refine ExtTreeSet.ext_mem fun key => ?_
      rw [moved.filed.candidates key,inv.filed.candidates key,entries]
    · rw [entries]
      exact inv.best b (tip ▸ root)
    · rw [moved.pcoinsTip,coins,tip]
    · rw [moved.parent,parent,tip]
      exact linked
  cases place with
  | none =>
    refine ⟨started,rfl,finish started ⟨filed,fun _ => Iff.rfl,rfl,rfl,rfl,rfl,started.entry_next⟩ ?_⟩
    rw [next,root]
    exact linked_none
  | some b =>
    obtain ⟨hashes,walked⟩ := walkTo_root filed.falls (Nat.lt_succ_self (started.height b))
    have moved := foldl_setNext_relinked filed some hashes
    refine ⟨_,linkDown_eq filed walked,finish _ ?_ ?_⟩
    · rw [← moved.next] at moved
      exact moved
    · rw [moved.next,root,← parent]
      have start : Linked started.parent started.next none := by
        rw [next]
        exact linked_none
      exact relink filed.falls start (walkTo_self none 0) walked fun _ => Iff.rfl

/-- Starting again gives the tree, the candidates and the best block back. -/
theorem restart_same {records : List CDiskBlockIndex} (order : records.Perm (s.blocktree.toList.map Prod.snd)) (address : uint256 → Nat) :
    ∃ t, s.restart env records address = some t ∧ t.mapBlockIndex = s.mapBlockIndex ∧ t.setBlockIndexValid = s.setBlockIndexValid ∧
      t.pindexBest = s.pindexBest ∧ Inv env t := by
  obtain ⟨loading,loads,fresh⟩ := LoadBlockIndexGuts_fresh inv.filed.tree (mem_records inv order)
  obtain ⟨unlinked,candidates⟩ := countBlocks_unlinked inv.filed.tree address fresh
  unfold restart
  rw [loads]
  dsimp only
  generalize (sortedByHeight address loading.mapBlockIndex).foldl countBlock (loading.mapBlockIndex,∅) = loaded at unlinked candidates ⊢
  have same : ∀ hash, hash ∈ loaded.1 ↔ hash ∈ s.mapBlockIndex := by
    intro hash
    rw [ExtTreeMap.mem_iff_isSome_getElem?,ExtTreeMap.mem_iff_isSome_getElem?,unlinked hash,Option.isSome_map]
  have best : ((FlushCoins s.pcoinsTip).base.GetBestBlock.filter fun hashBestChain => decide (hashBestChain ∈ loaded.1)) = s.pindexBest := by
    have tip : (FlushCoins s.pcoinsTip).base.GetBestBlock = s.pindexBest := inv.coins
    rw [tip]
    cases root : s.pindexBest with
    | none => rfl
    | some b => simp [Option.filter,(same b).mpr (inv.best b root)]
  rw [best]
  refine link_same inv ?_ ?_ ?_ ?_ ?_ rfl
  · exact unlinked
  · exact candidates
  · rfl
  · rfl
  · rfl

end

/-- The node before its first block. -/
theorem start_inv (env : Env) : Inv env {} := by
  refine ⟨⟨?_,?_,?_⟩,nofun,rfl,linked_none⟩
  · intro hash e found
    simp at found
  · intro hash
    simp
  · intro key
    simp

section
variable {rules : PoolRules} {world : Nat → Surroundings} {fuel : Nat} (keeps : ∀ i, (world i).Keeps)
include keeps

theorem act_inv {s s' : ChainState} (inv : Inv rules.env s) {action : ChainAction}
    (genuine : ∀ block, action = .accept block → Genuine rules.env block) (acts : s.act rules world fuel action = some s') :
    Inv rules.env s' := by
  cases action with
  | accept block =>
    obtain ⟨returned,accepts,rfl⟩ := Option.map_eq_some_iff.mp acts
    exact AcceptBlock_inv keeps inv (genuine block rfl) accepts
  | connectBest =>
    obtain ⟨returned,connects,rfl⟩ := Option.map_eq_some_iff.mp acts
    exact ConnectBestBlock_inv keeps inv connects
  | restart records address =>
    rw [act] at acts
    split at acts
    next order =>
      obtain ⟨t,restarts,_,_,_,after⟩ := restart_same inv order address
      obtain rfl := Option.some.inj (restarts.symm.trans acts)
      exact after
    · contradiction

theorem run_inv {s s' : ChainState} (inv : Inv rules.env s) {actions : List ChainAction}
    (genuine : ∀ block, .accept block ∈ actions → Genuine rules.env block) (ran : s.run rules world fuel actions = some s') :
    Inv rules.env s' := by
  induction actions generalizing s with
  | nil =>
    obtain rfl := Option.some.inj ran
    exact inv
  | cons action rest ih =>
    obtain ⟨next,acts,continues⟩ := Option.bind_eq_some_iff.mp ran
    have stepped : Inv rules.env next := by
      refine act_inv keeps inv (fun block same => genuine block ?_) acts
      rw [← same]
      exact List.mem_cons_self ..
    exact ih stepped (fun block later => genuine block (List.mem_cons_of_mem _ later)) continues

/-- As long as what the node writes reaches its disk, it can end at any time: when it
    starts again it has the same tree with the same links, the same candidates and the
    same best block, whatever order the records come in. -/
theorem restart_preserves {s : ChainState} {actions : List ChainAction} (genuine : ∀ block, .accept block ∈ actions → Genuine rules.env block)
    (ran : run rules world fuel {} actions = some s) {records : List CDiskBlockIndex}
    (order : records.Perm (s.blocktree.toList.map Prod.snd)) (address : uint256 → Nat) :
    ∃ t, s.restart rules.env records address = some t ∧ t.mapBlockIndex = s.mapBlockIndex ∧
      t.setBlockIndexValid = s.setBlockIndexValid ∧ t.pindexBest = s.pindexBest := by
  obtain ⟨t,restarts,entries,valid,best,_⟩ := restart_same (run_inv keeps (start_inv rules.env) genuine ran) order address
  exact ⟨t,restarts,entries,valid,best⟩

end

/-! The genesis block and one block on it. -/

private def restartEnv : Env :=
  ⟨fun tx => tx.nLockTime,fun header => if header.hashPrevBlock = 0 then hashGenesisBlock else header.nTime,fun left right => left+right,
    fun _ _ _ _ _ => true,fun _ _ _ => true⟩
private def restartRules : PoolRules where
  env := restartEnv
  IsPushOnly _ := true
  HasCanonicalPushes _ := true
  IsStandard _ := true
  IsInputStandard _ _ _ := true
private def restartCoinbase : CTransaction := ⟨2,[⟨⟨0,nullIndex⟩,[1,5],nullIndex⟩],[⟨Cash.ofMoney (EUR,0),[]⟩],10,[]⟩
private def restartGenesis : CBlock := ⟨⟨3,0,10,50⟩,[restartCoinbase],[],[]⟩
private def restartBlock : CBlock := ⟨⟨3,hashGenesisBlock,10,100⟩,[restartCoinbase],[],[]⟩
private def restartActions : List ChainAction := [.accept restartGenesis,.accept restartBlock]
/-- There is no space left when the second block has been connected. -/
private def fullDisk (call : Nat) : Surroundings := {ambient := ⟨1000,0⟩,CheckDiskSpace := decide (call < 8)}
private def steadyDisk (_ : Nat) : Surroundings := {ambient := ⟨1000,0⟩}

private def tips (s t : ChainState) : List (Option uint256) := [s.pindexBest,t.pindexBest]

private theorem exists_restarted {world : Nat → Surroundings} {places : List (Option uint256)}
    (holds : ((run restartRules world 3 {} restartActions).bind fun s =>
      (s.restart restartEnv (s.blocktree.toList.map Prod.snd) id).map (tips s)) = some places) :
    ∃ s t, run restartRules world 3 {} restartActions = some s ∧
      s.restart restartEnv (s.blocktree.toList.map Prod.snd) id = some t ∧ tips s t = places := by
  obtain ⟨s,ran,rest⟩ := Option.bind_eq_some_iff.mp holds
  obtain ⟨t,restarts,same⟩ := Option.map_eq_some_iff.mp rest
  exact ⟨s,t,ran,restarts,same⟩

theorem restart_moves_tip :
    ∃ s t, run restartRules fullDisk 3 {} restartActions = some s ∧ s.restart restartEnv (s.blocktree.toList.map Prod.snd) id = some t ∧
      s.pindexBest = some hashGenesisBlock ∧ t.pindexBest = some 100 := by
  obtain ⟨s,t,ran,restarts,places⟩ := @exists_restarted fullDisk [some hashGenesisBlock,some 100] (by decide +kernel)
  have both : s.pindexBest = some hashGenesisBlock ∧ t.pindexBest = some 100 := by simpa [tips] using places
  exact ⟨s,t,ran,restarts,both⟩

theorem restart_preserves_sample :
    ∃ s t, run restartRules steadyDisk 3 {} restartActions = some s ∧ s.restart restartEnv (s.blocktree.toList.map Prod.snd) id = some t ∧
      t.mapBlockIndex = s.mapBlockIndex ∧ t.setBlockIndexValid = s.setBlockIndexValid ∧ t.pindexBest = s.pindexBest := by
  obtain ⟨s,_,ran,_⟩ := @exists_restarted steadyDisk [some 100,some 100] (by decide +kernel)
  have genuine : ∀ block, ChainAction.accept block ∈ restartActions → Genuine restartEnv block := by
    intro block listed
    simp only [restartActions,List.mem_cons,ChainAction.accept.injEq,List.not_mem_nil,or_false] at listed
    rcases listed with rfl | rfl
    · exact ⟨by decide +kernel,fun _ => rfl⟩
    · exact ⟨by decide +kernel,fun genesis => absurd genesis (by decide +kernel)⟩
  obtain ⟨t,restarts,same⟩ := @restart_preserves restartRules steadyDisk 3
    (fun _ => ⟨fun _ => rfl,fun _ => rfl,fun _ => ⟨rfl,rfl,rfl⟩⟩) s _ genuine ran _ (List.Perm.refl _) id
  exact ⟨s,t,ran,restarts,same⟩

end ChainState
end Tetra
