import Mathlib
import Tetra.BlockFormat
import Tetra.ExternalBlocks
import Tetra.Files
import Tetra.MainChain

/-!
The transaction index: where in the block files a transaction of a connected block stands,
and what `GetTransaction` makes of that. Over every run of blocks written and connected,
each transaction is found again, with the block that was connected last of those that have it.
-/
namespace Tetra
open Codec Std

/-- A place in a block file, with how far behind the header of the block. -/
structure CDiskTxPos extends CDiskBlockPos where
  nTxOffset : Nat
deriving DecidableEq

/-- The positions that the transaction loop of `ConnectBlock` collects. -/
def txPositions (env : Env) : CDiskTxPos → List CTransaction → List (uint256 × CDiskTxPos)
  | _, [] => []
  | pos, tx :: rest => (env.TxHash tx,pos) :: txPositions env {pos with nTxOffset := (pos.nTxOffset+tx.nSerSize)%2^32} rest

def CBlock.vPos (env : Env) (block : CBlock) (pos : CDiskBlockPos) : List (uint256 × CDiskTxPos) :=
  txPositions env ⟨pos,GetSizeOfCompactSize block.vtx.length⟩ block.vtx

/-- The block files, and the records of the index in `pblocktree`. -/
structure TxStore where
  files : Nat → List UInt8
  txindex : ExtTreeMap uint256 CDiskTxPos := ∅

namespace TxStore

def WriteTxIndex (store : TxStore) (vect : List (uint256 × CDiskTxPos)) : TxStore :=
  {store with txindex := vect.foldl (fun txindex entry => txindex.insert entry.1 entry.2) store.txindex}

def ReadTxIndex (store : TxStore) (txid : uint256) : Option CDiskTxPos := store.txindex[txid]?

/-- What `WriteToDisk` writes before a block and with it. -/
def record (block : CBlock) : List UInt8 := pchMessageStart ++ leBytes 4 block.nSerSize ++ block.Serialize

/-- `WriteToDisk`, which leaves the position of the block itself. -/
def WriteToDisk (store : TxStore) (block : CBlock) (pos : CDiskBlockPos) : TxStore × CDiskBlockPos :=
  ({store with files := Function.update store.files pos.nFile (Files.put 0 (store.files pos.nFile) pos.nPos (record block))},
    {pos with nPos := (pos.nPos+8)%2^32})

/-- What `GetTransaction` reads behind an entry of the index. -/
def readIndexed (env : Env) (store : TxStore) (postx : CDiskTxPos) : Except String (CTransaction × uint256) := do
  let (header,file) ← CBlockHeader.Unserialize ((store.files postx.nFile).drop postx.nPos)
  let (txOut,_) ← CTransaction.Unserialize (file.drop postx.nTxOffset)
  return (txOut,env.BlockHash header)

end TxStore

/-- `GetTransaction` gives the transaction, and the hash of its block unless it is in the
    pool. The cached block of the search by height is `last`. -/
def GetTransaction (env : Env) (w : Surroundings) (s : ChainState) (store : TxStore) (fTxIndex : Bool) (fuel : Nat) (last : Option uint256)
    (hash : uint256) (fAllowSlow : Bool) : Option (CTransaction × Option uint256) :=
  match s.mempool.mapTx[hash]? with
  | some tx => some (tx,none)
  | none =>
    match if fTxIndex then store.ReadTxIndex hash else none with
    | some postx =>
      match store.readIndexed env postx with
      | .error _ => none
      | .ok (txOut,hashBlock) => if env.TxHash txOut ≠ hash then none else some (txOut,some hashBlock)
    | none =>
      let nHeight : Int := ((s.pcoinsTip.GetCoins hash).map fun coins => (coins.nHeight : Int)).getD (-1)
      if fAllowSlow = true ∧ nHeight > 0 then do
        let pindexSlow ← s.FindBlockByHeight fuel last nHeight
        let pindex ← s.mapBlockIndex[pindexSlow]?
        let block ← s.ReadFromDisk env w pindex
        let tx ← block.vtx.find? fun tx => env.TxHash tx == hash
        return (tx,some pindex.hashBlock)
      else none

namespace TxStore

/-! ### One block -/

section
variable {env : Env} {block : CBlock} {store : TxStore} {pos : CDiskBlockPos}

/-- Offsets count what stands before, as long as they fit in 32 bits. -/
theorem mem_txPositions {vtx : List CTransaction} {pos postx : CDiskTxPos} {hash : uint256} (few : pos.nTxOffset+(vtx.map CTransaction.GetSerializeSize).sum < 2^32)
    (member : (hash,postx) ∈ txPositions env pos vtx) :
    ∃ front tx back, vtx = front ++ tx :: back ∧ env.TxHash tx = hash ∧
      postx = {pos with nTxOffset := pos.nTxOffset+(front.map CTransaction.GetSerializeSize).sum} := by
  induction vtx generalizing pos with
  | nil => exact absurd member List.not_mem_nil
  | cons tx rest ih =>
    rw [List.map_cons,List.sum_cons] at few
    rcases List.mem_cons.mp member with same | later
    · obtain ⟨rfl,rfl⟩ := Prod.mk.inj same
      exact ⟨[],tx,rest,rfl,rfl,rfl⟩
    · have size : tx.nSerSize = tx.GetSerializeSize := Nat.mod_eq_of_lt (by omega)
      have next : (pos.nTxOffset+tx.nSerSize)%2^32 = pos.nTxOffset+tx.GetSerializeSize := by
        rw [size]
        exact Nat.mod_eq_of_lt (by omega)
      rw [next] at later
      obtain ⟨front,other,back,rfl,same,rfl⟩ := ih (by dsimp only; omega) later
      refine ⟨tx :: front,other,back,rfl,same,?_⟩
      rw [List.map_cons,List.sum_cons]
      dsimp only
      rw [Nat.add_assoc]

theorem txPositions_hashes (pos : CDiskTxPos) (vtx : List CTransaction) : (txPositions env pos vtx).map Prod.fst = vtx.map env.TxHash := by
  induction vtx generalizing pos with
  | nil => rfl
  | cons tx rest ih => rw [txPositions,List.map_cons,ih,List.map_cons]

/-- Behind every position that `ConnectBlock` records for a block stands the transaction. -/
theorem readIndexed_vPos (fits : block.Fits) (wire : block.OffWire) (short : block.GetSerializeSize < 2^32)
    (there : Files.At (store.files pos.nFile) pos.nPos block.Serialize) {hash : uint256} {postx : CDiskTxPos}
    (member : (hash,postx) ∈ block.vPos env pos) :
    ∃ tx ∈ block.vtx, env.TxHash tx = hash ∧ store.readIndexed env postx = .ok (tx,block.GetHash env) := by
  have room : GetSizeOfCompactSize block.vtx.length+(block.vtx.map CTransaction.GetSerializeSize).sum < 2^32 := by
    have : GetSizeOfCompactSize block.vtx.length+(block.vtx.map CTransaction.GetSerializeSize).sum ≤ block.GetSerializeSize := by
      rw [← CBlock.Serialize_length fits.cpbk,CBlock.Serialize,List.length_append,List.length_append,List.length_append,
        vectorForm_length CTransaction.Serialize_length]
      omega
    omega
  obtain ⟨front,tx,back,vtx,same,rfl⟩ := mem_txPositions room member
  have inside : tx ∈ block.vtx := by rw [vtx]; exact List.mem_append_right _ (List.mem_cons_self ..)
  refine ⟨tx,inside,same,?_⟩
  obtain ⟨rest,file⟩ := there
  have header := decodes_header fits.header
  have transaction := decodes_transaction (fits.vtx.2 tx inside)
  rw [tx.loaded_eq_iff.mpr (wire tx inside)] at transaction
  have before : (WriteCompactSize block.vtx.length ++ front.flatMap CTransaction.Serialize).length =
      GetSizeOfCompactSize block.vtx.length+(front.map CTransaction.GetSerializeSize).sum := by
    rw [List.length_append,WriteCompactSize_length,List.length_flatMap]
    simp only [CTransaction.Serialize_length]
  have split : block.Serialize ++ rest = block.toCBlockHeader.Serialize ++ ((WriteCompactSize block.vtx.length ++ front.flatMap CTransaction.Serialize) ++
      (tx.Serialize ++ (back.flatMap CTransaction.Serialize ++ (bytesForm block.cpbk ++ (bytesForm block.vchSig ++ rest))))) := by
    rw [CBlock.Serialize,vectorForm]
    nth_rewrite 2 [vtx]
    simp only [List.flatMap_append,List.flatMap_cons,List.append_assoc]
  rw [readIndexed]
  dsimp only
  rw [← file,split,header]
  show (do
    let (txOut,_) ← CTransaction.Unserialize (List.drop (GetSizeOfCompactSize block.vtx.length+(front.map CTransaction.GetSerializeSize).sum) _)
    return (txOut,env.BlockHash block.toCBlockHeader) : Except String (CTransaction × uint256)) = _
  rw [← before,List.drop_left,transaction]
  rfl

end

/-! ### Runs -/

/-- Blocks are written where they hit nothing that was written before, and connected in any
    order and as often as it may be; each comes with the position at which it stands. -/
inductive Recorded (env : Env) : TxStore → List (CDiskBlockPos × CBlock) → List (CDiskBlockPos × CBlock) → Prop
  | start (files : Nat → List UInt8) : Recorded env {files := files} [] []
  | write {store written connected} (before : Recorded env store written connected) {block : CBlock} (fits : block.Fits) (wire : block.OffWire)
    (pos : CDiskBlockPos) (low : pos.nPos+8 < 2^32)
    (apart : ∀ old ∈ written, old.1.nFile = pos.nFile →
      old.1.nPos+old.2.Serialize.length ≤ pos.nPos ∨ pos.nPos+(record block).length ≤ old.1.nPos) :
    Recorded env (store.WriteToDisk block pos).1 (written ++ [((store.WriteToDisk block pos).2,block)]) connected
  /-- `ConnectBlock` succeeds with `fTxIndex` set. -/
  | connect {store written connected} (before : Recorded env store written connected) {pos : CDiskBlockPos} {block : CBlock}
    (inside : (pos,block) ∈ written) (notGenesis : block.GetHash env ≠ hashGenesisBlock) {ambient : Ambient} {disk : DiskWrites}
    {pindex : CBlockIndex} {view after : CCoinsViewCache} (indexed : disk.fTxIndex = true)
    (connects : (block.ConnectBlock env ambient disk pindex view false).result = .ok after) :
    Recorded env (store.WriteTxIndex (block.vPos env pos)) written (connected ++ [(pos,block)])

/-- No transaction of the block has the hash. -/
def Lacks (env : Env) (hash : uint256) (entry : CDiskBlockPos × CBlock) : Prop := ∀ tx ∈ entry.2.vtx, env.TxHash tx ≠ hash

/-- What every run keeps: the blocks stand where they were written, and a record of the index
    is one of the block that was connected last of those that have the transaction. -/
structure Keeps (env : Env) (store : TxStore) (written connected : List (CDiskBlockPos × CBlock)) : Prop where
  stored : ∀ entry ∈ written, entry.2.Fits ∧ entry.2.OffWire ∧ Files.At (store.files entry.1.nFile) entry.1.nPos entry.2.Serialize
  placed : ∀ entry ∈ connected, entry ∈ written ∧ entry.2.GetSerializeSize < 2^32
  index : ∀ hash, (store.ReadTxIndex hash = none ∧ ∀ entry ∈ connected, Lacks env hash entry) ∨
    ∃ before entry after postx, connected = before ++ entry :: after ∧ store.ReadTxIndex hash = some postx ∧
      (hash,postx) ∈ entry.2.vPos env entry.1 ∧ ∀ later ∈ after, Lacks env hash later

section
variable {env : Env} {store : TxStore} {written connected : List (CDiskBlockPos × CBlock)}

/-- After a write to the index a hash is found where the list has it, and else where it was. -/
theorem WriteTxIndex_reads (store : TxStore) (vect : List (uint256 × CDiskTxPos)) (hash : uint256) :
    (hash ∉ vect.map Prod.fst ∧ (store.WriteTxIndex vect).ReadTxIndex hash = store.ReadTxIndex hash) ∨
      ∃ postx, (hash,postx) ∈ vect ∧ (store.WriteTxIndex vect).ReadTxIndex hash = some postx := by
  induction vect using List.reverseRecOn with
  | nil => exact .inl ⟨List.not_mem_nil,rfl⟩
  | append_singleton vect entry ih =>
    have last : (store.WriteTxIndex (vect ++ [entry])).ReadTxIndex hash =
        if entry.1 = hash then some entry.2 else (store.WriteTxIndex vect).ReadTxIndex hash := by
      rw [WriteTxIndex,List.foldl_append,ReadTxIndex]
      dsimp only [List.foldl_cons,List.foldl_nil]
      rw [ExtTreeMap.getElem?_insert]
      simp only [Std.compare_eq_iff_eq]
      rfl
    by_cases own : entry.1 = hash
    · exact .inr ⟨entry.2,List.mem_append_right _ (List.mem_singleton.mpr (Prod.ext own.symm rfl)),by rw [last,if_pos own]⟩
    · rw [last,if_neg own]
      rcases ih with ⟨absent,same⟩ | ⟨postx,member,found⟩
      · refine .inl ⟨?_,same⟩
        simp only [List.map_append,List.mem_append,List.map_cons,List.map_nil,List.mem_singleton]
        rintro (early | late)
        · exact absent early
        · exact own late.symm
      · exact .inr ⟨postx,List.mem_append_left _ member,found⟩

theorem Keeps.write (keeps : Keeps env store written connected) {block : CBlock} (fits : block.Fits) (wire : block.OffWire) {pos : CDiskBlockPos}
    (low : pos.nPos+8 < 2^32) (apart : ∀ old ∈ written, old.1.nFile = pos.nFile →
      old.1.nPos+old.2.Serialize.length ≤ pos.nPos ∨ pos.nPos+(record block).length ≤ old.1.nPos) :
    Keeps env (store.WriteToDisk block pos).1 (written ++ [((store.WriteToDisk block pos).2,block)]) connected where
  stored entry member := by
    rcases List.mem_append.mp member with early | last
    · obtain ⟨fits,wire,there⟩ := keeps.stored entry early
      refine ⟨fits,wire,?_⟩
      by_cases same : entry.1.nFile = pos.nFile
      · rw [WriteToDisk,same]
        dsimp only
        rw [Function.update_self,← same]
        exact there.put (apart entry early same)
      · rw [WriteToDisk]
        dsimp only
        rwa [Function.update_of_ne same]
    · obtain rfl := List.mem_singleton.mp last
      refine ⟨fits,wire,?_⟩
      have whole : Files.At (Files.put 0 (store.files pos.nFile) pos.nPos (record block)) pos.nPos (record block) := Files.at_put
      have front : (pchMessageStart ++ leBytes 4 block.nSerSize).length = 8 := by
        rw [List.length_append,leBytes_length]
        rfl
      have behind := Files.At.tail whole
      rw [front] at behind
      rw [WriteToDisk]
      dsimp only
      rw [Function.update_self,Nat.mod_eq_of_lt low]
      exact behind
  placed entry member := ⟨List.mem_append_left _ (keeps.placed entry member).1,(keeps.placed entry member).2⟩
  index := keeps.index

theorem Keeps.connect (keeps : Keeps env store written connected) {pos : CDiskBlockPos} {block : CBlock} (inside : (pos,block) ∈ written)
    (short : block.GetSerializeSize < 2^32) : Keeps env (store.WriteTxIndex (block.vPos env pos)) written (connected ++ [(pos,block)]) where
  stored := keeps.stored
  placed entry member := by
    rcases List.mem_append.mp member with early | last
    · exact keeps.placed entry early
    · obtain rfl := List.mem_singleton.mp last
      exact ⟨inside,short⟩
  index hash := by
    rcases store.WriteTxIndex_reads (block.vPos env pos) hash with ⟨absent,same⟩ | ⟨postx,member,found⟩
    · rw [CBlock.vPos,txPositions_hashes] at absent
      have lacks : Lacks env hash (pos,block) := fun tx there equal => absent (List.mem_map.mpr ⟨tx,there,equal⟩)
      rw [same]
      rcases keeps.index hash with ⟨none',missing⟩ | ⟨before,entry,after,postx,split,found,member,later⟩
      · refine .inl ⟨none',fun entry member => ?_⟩
        rcases List.mem_append.mp member with early | last
        · exact missing entry early
        · obtain rfl := List.mem_singleton.mp last
          exact lacks
      · refine .inr ⟨before,entry,after ++ [(pos,block)],postx,by rw [split,List.append_assoc,List.cons_append],found,member,?_⟩
        intro other among
        rcases List.mem_append.mp among with early | last
        · exact later other early
        · obtain rfl := List.mem_singleton.mp last
          exact lacks
    · exact .inr ⟨connected,(pos,block),[],postx,rfl,found,member,fun _ among => absurd among List.not_mem_nil⟩

theorem Recorded.keeps (recorded : Recorded env store written connected) : Keeps env store written connected := by
  induction recorded with
  | start files =>
    refine ⟨fun _ member => absurd member List.not_mem_nil,fun _ member => absurd member List.not_mem_nil,fun hash => .inl ⟨?_,?_⟩⟩
    · exact ExtTreeMap.getElem?_empty
    · exact fun _ member => absurd member List.not_mem_nil
  | write _ fits wire pos low apart ih => exact ih.write fits wire low apart
  | connect _ inside notGenesis _ connects ih =>
    refine ih.connect inside ?_
    rw [CBlock.ConnectBlock] at connects
    split at connects
    · contradiction
    next v blockundo transactions =>
      obtain ⟨checked,_⟩ := CBlock.ConnectTransactions_ok notGenesis transactions
      have := (CBlock.CheckBlock_ok checked).2.2.2.2.2
      simp only [MAX_BLOCK_SIZE] at this
      omega

/-- With the index on, `GetTransaction` finds exactly the transactions of connected blocks
    that are not in the pool, each with the block that was connected last of those that
    have it. -/
theorem Recorded.GetTransaction_finds (recorded : Recorded env store written connected) (w : Surroundings) {s : ChainState} (fuel : Nat)
    (last : Option uint256) {hash : uint256} (outside : s.mempool.mapTx[hash]? = none) (fAllowSlow : Bool) :
    (store.ReadTxIndex hash = none ∧ ∀ entry ∈ connected, Lacks env hash entry) ∨
      ∃ before entry after tx, connected = before ++ entry :: after ∧ tx ∈ entry.2.vtx ∧ env.TxHash tx = hash ∧
        (∀ later ∈ after, Lacks env hash later) ∧
        GetTransaction env w s store true fuel last hash fAllowSlow = some (tx,some (entry.2.GetHash env)) := by
  have keeps := recorded.keeps
  refine (keeps.index hash).imp id ?_
  rintro ⟨before,entry,after,postx,split,found,member,later⟩
  obtain ⟨inside,short⟩ := keeps.placed entry (by rw [split]; exact List.mem_append_right _ (List.mem_cons_self ..))
  obtain ⟨fits,wire,there⟩ := keeps.stored entry inside
  obtain ⟨tx,among,same,reads⟩ := readIndexed_vPos fits wire short there member
  refine ⟨before,entry,after,tx,split,among,same,later,?_⟩
  rw [GetTransaction,outside,if_pos rfl,found]
  dsimp only
  rw [reads]
  dsimp only
  rw [if_neg (by simpa using same)]

/-- Whatever `GetTransaction` gives has the hash that was asked for. -/
theorem GetTransaction_hash {w : Surroundings} {s : ChainState} {fTxIndex : Bool} {fuel : Nat} {last : Option uint256} {hash : uint256} {fAllowSlow : Bool}
    (keyed : ∀ (hash : uint256) tx, s.mempool.mapTx[hash]? = some tx → env.TxHash tx = hash) {tx : CTransaction} {hashBlock : Option uint256}
    (gives : GetTransaction env w s store fTxIndex fuel last hash fAllowSlow = some (tx,hashBlock)) : env.TxHash tx = hash := by
  rw [GetTransaction] at gives
  split at gives
  next pooled inPool =>
    obtain ⟨rfl,_⟩ := Prod.mk.inj (Option.some.inj gives)
    exact keyed hash pooled inPool
  next =>
    split at gives
    next postx found =>
      split at gives
      · contradiction
      · split at gives
        · contradiction
        next same =>
          obtain ⟨rfl,_⟩ := Prod.mk.inj (Option.some.inj gives)
          simpa using same
    next =>
      dsimp only at gives
      split at gives
      · obtain ⟨pindexSlow,_,gives⟩ := Option.bind_eq_some_iff.mp gives
        obtain ⟨pindex,_,gives⟩ := Option.bind_eq_some_iff.mp gives
        obtain ⟨block,_,gives⟩ := Option.bind_eq_some_iff.mp gives
        obtain ⟨other,among,gives⟩ := Option.bind_eq_some_iff.mp gives
        obtain ⟨rfl,_⟩ := Prod.mk.inj (Option.some.inj gives)
        simpa using List.find?_some among
      · contradiction

end

end TxStore
end Tetra
