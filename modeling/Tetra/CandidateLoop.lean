import Mathlib
import Tetra.IndexChanges

/-!
The loop of `ConnectBestBlock`. No candidate is a failed block, unless the record of a
block found invalid could not be written, and then every turn of the loop is the last or
takes the best candidate away.
-/
namespace Tetra
open Ancestry
open Std (ExtTreeMap ExtTreeSet ReflCmp LawfulEqCmp)

namespace ChainState

/-- Every candidate is in the index; one that has failed was found invalid, and its
    record is not written. -/
def Vetted (unwritten : uint256 → Prop) (s : ChainState) : Prop :=
  ∀ key ∈ s.setBlockIndexValid, ∃ e, s.mapBlockIndex[key.hash]? = some e ∧ e.nHeight = key.nHeight ∧
    (e.BLOCK_FAILED_MASK = true → e.BLOCK_FAILED_VALID = true ∧ unwritten key.hash)

/-- The links to parents stay in the index and lead down a rank, and so do those of the
    records of the database. -/
structure Rooted (env : Env) (rank : uint256 → Nat) (s : ChainState) : Prop where
  entries : ∀ hash e p, s.mapBlockIndex[hash]? = some e → e.pprev = some p →
    p ∈ s.mapBlockIndex ∧ rank p < rank hash ∧ env.BlockHash ⟨e.nVersion,p,e.hashMerkleRoot,e.nTime⟩ = hash
  records : ∀ (k : uint256) (r : CDiskBlockIndex), s.blocktree[k]? = some r → r.hashPrev ≠ 0 →
    r.GetBlockHash env ∈ s.mapBlockIndex ∧ r.hashPrev ∈ s.mapBlockIndex ∧ rank r.hashPrev < rank (r.GetBlockHash env)

section
variable {env : Env} {unwritten : uint256 → Prop} {s s' : ChainState}

theorem Vetted.changes (vetted : Vetted unwritten s) (change : Changes env unwritten s s') : Vetted unwritten s' := by
  intro key member
  cases change with
  | other entries valid _ =>
    rw [valid] at member
    rw [entries]
    exact vetted key member
  | @entry hash e e' found kin failed =>
    obtain ⟨x,there,height,mark⟩ := vetted key member
    by_cases same : hash = key.hash
    · obtain rfl := Option.some.inj (found.symm.trans (same ▸ there))
      refine ⟨e',by rw [setEntry,entries_insert,if_pos same],kin.nHeight.trans height,fun marked => ?_⟩
      rw [failed.1]
      refine mark ?_
      rw [CBlockIndex.BLOCK_FAILED_MASK,← failed.1,← failed.2]
      exact marked
    · exact ⟨x,by rw [setEntry,entries_insert,if_neg same,there],height,mark⟩
  | record _ => exact vetted key member
  | @failed hash e e' found kin =>
    obtain ⟨apart,before⟩ := ExtTreeSet.mem_erase.mp member
    obtain ⟨x,there,height,mark⟩ := vetted key before
    have other : hash ≠ key.hash := by
      intro same
      obtain rfl := Option.some.inj (found.symm.trans (same ▸ there))
      refine apart ?_
      have equal : (⟨e'.nHeight,hash⟩ : WorkKey) = key := by
        rw [kin.nHeight,height,same]
      rw [equal]
      exact ReflCmp.compare_self
    exact ⟨x,by rw [eraseValid,setEntry,entries_insert,if_neg other,there],height,mark⟩
  | @invalid hash e found fails =>
    obtain ⟨x,there,height,mark⟩ := vetted key member
    by_cases same : hash = key.hash
    · obtain rfl := Option.some.inj (found.symm.trans (same ▸ there))
      refine ⟨{e with BLOCK_FAILED_VALID := true},?_,height,fun _ => ⟨rfl,same ▸ fails⟩⟩
      rw [setEntry,entries_insert,if_pos same]
    · exact ⟨x,by rw [setEntry,entries_insert,if_neg same,there],height,mark⟩
  | @block block pos fresh =>
    have entries : ∀ other : uint256, (s.setEntry (block.GetHash env) (s.newEntry (block.GetHash env) block pos)).mapBlockIndex[other]? =
        if block.GetHash env = other then some (s.newEntry (block.GetHash env) block pos) else s.mapBlockIndex[other]? :=
      fun other => entries_insert ..
    dsimp only
    rw [entries]
    rcases ExtTreeSet.mem_insert.mp member with equal | before
    · have same := LawfulEqCmp.eq_of_compare equal
      exact ⟨_,if_pos (congrArg WorkKey.hash same),congrArg WorkKey.nHeight same,fun marked => absurd marked Bool.false_ne_true⟩
    · obtain ⟨x,there,height,mark⟩ := vetted key before
      have other : block.GetHash env ≠ key.hash := by
        intro same
        exact fresh ((s.mem_iff_entry _).mpr ⟨x,same ▸ there⟩)
      exact ⟨x,by rw [if_neg other,there],height,mark⟩

theorem mem_setEntry {hash : uint256} {e e' : IndexEntry} (found : s.mapBlockIndex[hash]? = some e) (other : uint256) :
    other ∈ (s.setEntry hash e').mapBlockIndex ↔ other ∈ s.mapBlockIndex := by
  rw [mem_iff_entry,mem_iff_entry,setEntry,entries_insert]
  split
  next same => simp [← same,found]
  · rfl

/-- An entry with the header of the old one keeps the links. -/
theorem Rooted.setEntry {rank : uint256 → Nat} (rooted : Rooted env rank s) {hash : uint256} {e e' : IndexEntry}
    (found : s.mapBlockIndex[hash]? = some e) (kin : Kin e e') : Rooted env rank (s.setEntry hash e') where
  entries other x p there parent := by
    rw [mem_setEntry found]
    rw [ChainState.setEntry,entries_insert] at there
    split at there
    next same =>
      obtain rfl := Option.some.inj there
      obtain rfl := same
      rw [kin.nVersion,kin.hashMerkleRoot,kin.nTime]
      exact rooted.entries hash e p found (kin.pprev ▸ parent)
    · exact rooted.entries other x p there parent
  records k r there prev := by
    rw [mem_setEntry found,mem_setEntry found]
    exact rooted.records k r there prev

theorem Rooted.changes {rank : uint256 → Nat} (rooted : Rooted env rank s) (change : Changes env unwritten s s') :
    ∃ rank', Rooted env rank' s' := by
  cases change with
  | other entries _ records =>
    refine ⟨rank,?_,?_⟩
    · rw [entries]
      exact rooted.entries
    · rw [entries,records]
      exact rooted.records
  | entry found kin _ => exact ⟨rank,rooted.setEntry found kin⟩
  | failed found kin => exact ⟨rank,(rooted.setEntry found kin).entries,(rooted.setEntry found kin).records⟩
  | invalid found _ => exact ⟨rank,rooted.setEntry found ⟨rfl,rfl,rfl,rfl,rfl,rfl,rfl,rfl⟩⟩
  | @record hash e found =>
    refine ⟨rank,rooted.entries,fun k r there prev => ?_⟩
    simp only [writeIndex,ExtTreeMap.getElem?_insert] at there
    split at there
    · obtain rfl := Option.some.inj there
      -- A record that names a parent is one of an entry with that parent.
      have hashPrev : (CDiskBlockIndex.ofEntry e).stored.hashPrev = e.pprev.getD 0 := rfl
      rw [hashPrev] at prev ⊢
      cases parent : e.pprev with
      | none => rw [parent] at prev; contradiction
      | some p =>
        obtain ⟨inside,lower,hashed⟩ := rooted.entries hash e p found parent
        have key : (CDiskBlockIndex.ofEntry e).stored.GetBlockHash env = hash := by
          rw [← hashed]
          simp [CDiskBlockIndex.GetBlockHash,CDiskBlockIndex.stored,CDiskBlockIndex.ofEntry,parent]
        rw [key]
        exact ⟨(s.mem_iff_entry hash).mpr ⟨e,found⟩,inside,lower⟩
    · exact rooted.records k r there prev
  | @block block pos fresh =>
    -- Nothing leads to the new block yet, so it may stand above its parent.
    have apart : ∀ other, other ∈ s.mapBlockIndex → other ≠ block.GetHash env := by
      rintro other member rfl
      exact fresh member
    have added : ∀ other, other ∈ s.mapBlockIndex →
        other ∈ (s.setEntry (block.GetHash env) (s.newEntry (block.GetHash env) block pos)).mapBlockIndex :=
      fun other member => ExtTreeMap.mem_insert.mpr (.inr member)
    refine ⟨Function.update rank (block.GetHash env) (rank block.hashPrevBlock+1),fun hash e p there parent => ?_,fun k r there prev => ?_⟩
    · simp only [ChainState.setEntry,entries_insert] at there
      split at there
      next same =>
        obtain rfl := Option.some.inj there
        obtain rfl := same
        have known : block.hashPrevBlock ∈ s.mapBlockIndex ∧ p = block.hashPrevBlock := by
          simp only [newEntry] at parent
          split at parent
          next isSome => exact ⟨ExtTreeMap.mem_iff_isSome_getElem?.mpr isSome,(Option.some.inj parent).symm⟩
          · contradiction
        obtain ⟨member,rfl⟩ := known
        rw [Function.update_self,Function.update_of_ne (apart _ member)]
        exact ⟨added _ member,by omega,rfl⟩
      next other =>
        obtain ⟨inside,lower,hashed⟩ := rooted.entries hash e p there parent
        rw [Function.update_of_ne (apart p inside),Function.update_of_ne (Ne.symm other)]
        exact ⟨added p inside,lower,hashed⟩
    · obtain ⟨inside,previous,lower⟩ := rooted.records k r there prev
      rw [Function.update_of_ne (apart _ inside),Function.update_of_ne (apart _ previous)]
      exact ⟨added _ inside,added _ previous,lower⟩

/-- What holds of the index whatever the disk does. -/
def Standing (env : Env) (unwritten : uint256 → Prop) (s : ChainState) : Prop := Vetted unwritten s ∧ ∃ rank, Rooted env rank s

theorem Standing.evolves (standing : Standing env unwritten s) (evolves : Evolves env unwritten s s') : Standing env unwritten s' := by
  induction evolves with
  | refl => exact standing
  | tail _ change ih =>
    obtain ⟨vetted,rank,rooted⟩ := ih
    exact ⟨vetted.changes change,rooted.changes change⟩

end

end ChainState

/-! Loading the index: whatever records there are, it has their links. -/

section
variable {env : Env} {records : List CDiskBlockIndex}

/-- While the records are read: every link is that of a record. -/
structure Listing (env : Env) (records done : List CDiskBlockIndex) (m : BlockIndex) : Prop where
  links : ∀ hash e p, m[hash]? = some e → e.pprev = some p → ∃ r ∈ records, r.GetBlockHash env = hash ∧ r.hashPrev = p ∧ p ≠ 0 ∧
    env.BlockHash ⟨e.nVersion,p,e.hashMerkleRoot,e.nTime⟩ = hash
  present : ∀ r ∈ done, r.GetBlockHash env ∈ m ∧ (r.hashPrev ≠ 0 → r.hashPrev ∈ m)

theorem mem_InsertBlockIndex (m : BlockIndex) (hash other : uint256) :
    other ∈ (InsertBlockIndex m hash).2 ↔ other ∈ m ∨ (other = hash ∧ hash ≠ 0) := by
  rw [ExtTreeMap.mem_iff_isSome_getElem?,InsertBlockIndex_lookup,ExtTreeMap.mem_iff_isSome_getElem?]
  cases found : m[other]? with
  | none =>
    by_cases same : hash = other
    · subst same
      by_cases zero : hash = 0 <;> simp [zero]
    · simp [same,Ne.symm same]
  | some e => simp

theorem Listing.insert {done : List CDiskBlockIndex} {m : BlockIndex} (listing : Listing env records done m) (hash : uint256) :
    Listing env records done (InsertBlockIndex m hash).2 where
  links other e p there parent := by
    rw [InsertBlockIndex_lookup] at there
    split at there
    · obtain rfl := Option.some.inj there
      contradiction
    · exact listing.links other e p there parent
  present r member := by
    rw [mem_InsertBlockIndex,mem_InsertBlockIndex]
    exact ⟨.inl (listing.present r member).1,fun prev => .inl ((listing.present r member).2 prev)⟩

theorem loadRecord_listing {done : List CDiskBlockIndex} {loading loading' : Loading} (listing : Listing env records done loading.mapBlockIndex)
    {r : CDiskBlockIndex} (member : r ∈ records) (loads : loadRecord env loading r = some loading') :
    Listing env records (r :: done) loading'.mapBlockIndex := by
  unfold loadRecord at loads
  dsimp only at loads
  have pointer := InsertBlockIndex_pointer loading.mapBlockIndex (r.GetBlockHash env)
  have first := listing.insert (r.GetBlockHash env)
  have inserted := mem_InsertBlockIndex loading.mapBlockIndex (r.GetBlockHash env)
  generalize InsertBlockIndex loading.mapBlockIndex (r.GetBlockHash env) = result at loads pointer first inserted
  obtain ⟨place,m⟩ := result
  cases place with
  | none => contradiction
  | some hash =>
    dsimp only at loads pointer first inserted
    obtain ⟨nonzero,rfl⟩ : r.GetBlockHash env ≠ 0 ∧ hash = r.GetBlockHash env := by
      split at pointer
      · contradiction
      next nonzero => exact ⟨nonzero,Option.some.inj pointer⟩
    have both := first.insert r.hashPrev
    have again := mem_InsertBlockIndex m r.hashPrev
    rw [InsertBlockIndex_pointer] at loads
    obtain rfl := Option.some.inj loads
    refine ⟨fun other e p there parent => ?_,fun q listed => ?_⟩
    · rw [entries_insert] at there
      split at there
      next same =>
        obtain rfl := Option.some.inj there
        rw [CDiskBlockIndex.fill] at parent
        split at parent
        · contradiction
        next prev =>
          obtain rfl := Option.some.inj parent
          exact ⟨r,member,same,rfl,prev,same⟩
      · exact both.links other e p there parent
    · have kept : ∀ other, other ∈ (InsertBlockIndex m r.hashPrev).2 → other ∈ (InsertBlockIndex m r.hashPrev).2.insert (r.GetBlockHash env)
          (r.fill (if r.hashPrev = 0 then none else some r.hashPrev) (((InsertBlockIndex m r.hashPrev).2[r.GetBlockHash env]?).getD
            (placeholder (r.GetBlockHash env)))) := fun other inside => ExtTreeMap.mem_insert.mpr (.inr inside)
      rcases List.mem_cons.mp listed with rfl | before
      · exact ⟨ExtTreeMap.mem_insert_self,fun prev => kept _ ((again _).mpr (.inr ⟨rfl,prev⟩))⟩
      · exact ⟨kept _ (both.present q before).1,fun prev => kept _ ((both.present q before).2 prev)⟩

theorem LoadBlockIndexGuts_listing {loading : Loading} (loads : LoadBlockIndexGuts env records = some loading) :
    ∃ done, (∀ r ∈ records, r ∈ done) ∧ Listing env records done loading.mapBlockIndex := by
  have reads : ∀ (rest done : List CDiskBlockIndex) (loading : Loading), (∀ r ∈ rest, r ∈ records) →
      Listing env records done loading.mapBlockIndex → ∀ loading', rest.foldlM (loadRecord env) loading = some loading' →
      ∃ done', (∀ r, r ∈ rest ∨ r ∈ done → r ∈ done') ∧ Listing env records done' loading'.mapBlockIndex := by
    intro rest
    induction rest with
    | nil =>
      intro done loading _ listing loading' same
      obtain rfl := Option.some.inj same
      exact ⟨done,by simp,listing⟩
    | cons r rest ih =>
      intro done loading known listing loading' went
      rw [List.foldlM_cons] at went
      obtain ⟨next,loads,onwards⟩ := Option.bind_eq_some_iff.mp went
      have stepped := loadRecord_listing listing (known r (List.mem_cons_self ..)) loads
      obtain ⟨done',all,last⟩ := ih (r :: done) next (fun r member => known r (List.mem_cons_of_mem _ member)) stepped loading' onwards
      refine ⟨done',fun q member => all q ?_,last⟩
      rcases member with member | before
      · rcases List.mem_cons.mp member with rfl | later
        · exact .inr (List.mem_cons_self ..)
        · exact .inl later
      · exact .inr (List.mem_cons_of_mem _ before)
  obtain ⟨done,all,listing⟩ := reads records [] {} (fun _ => id) ⟨by simp,by simp⟩ loading loads
  exact ⟨done,fun r member => all r (.inl member),listing⟩

/-- The candidates that are collected are in the index and have not failed. -/
def Sifted (s : BlockIndex × ExtTreeSet WorkKey) : Prop :=
  ∀ key : WorkKey, key ∈ s.2 → ∃ e, s.1[key.hash]? = some e ∧ e.nHeight = key.nHeight ∧ e.BLOCK_FAILED_MASK = false

/-- The transactions that are counted change no link, and the candidates have not failed. -/
theorem countBlocks_links (hashes : List uint256) (m : BlockIndex) :
    let loaded := hashes.foldl countBlock (m,(∅ : ExtTreeSet WorkKey))
    (∀ hash : uint256, (loaded.1[hash]?).map (fun e => {e with nChainTx := 0}) = (m[hash]?).map fun e => {e with nChainTx := 0}) ∧
      Sifted loaded := by
  have counts : ∀ (hashes : List uint256) (s : BlockIndex × ExtTreeSet WorkKey), Sifted s →
      (∀ hash : uint256, ((hashes.foldl countBlock s).1[hash]?).map (fun e => {e with nChainTx := 0}) =
        (s.1[hash]?).map fun e => {e with nChainTx := 0}) ∧ Sifted (hashes.foldl countBlock s) := by
    intro hashes
    induction hashes with
    | nil => exact fun s sound => ⟨fun _ => rfl,sound⟩
    | cons hash rest ih =>
      intro s sound
      rw [List.foldl_cons]
      cases found : s.1[hash]? with
      | none =>
        have same : countBlock s hash = s := by simp [countBlock,found]
        rw [same]
        exact ih s sound
      | some pindex =>
        have entries : ∀ other : uint256, (countBlock s hash).1[other]? = if hash = other then
            some {pindex with nChainTx := (((pindex.pprev.bind fun pprev => s.1[pprev]?).map IndexEntry.nChainTx).getD 0+pindex.nTx)%2^32}
            else s.1[other]? := by
          intro other
          simp only [countBlock,found]
          exact entries_insert ..
        have members : ∀ key : WorkKey, key ∈ (countBlock s hash).2 → key ∈ s.2 ∨
            (key = ⟨pindex.nHeight,hash⟩ ∧ pindex.BLOCK_FAILED_MASK = false) := by
          intro key member
          simp only [countBlock,found] at member
          split at member
          next valid =>
            rcases ExtTreeSet.mem_insert.mp member with equal | before
            · exact .inr ⟨(LawfulEqCmp.eq_of_compare equal).symm,valid.2⟩
            · exact .inl before
          · exact .inl member
        have sifted : Sifted (countBlock s hash) := by
          intro key member
          rw [entries]
          rcases members key member with before | ⟨rfl,valid⟩
          · obtain ⟨e,there,height,valid⟩ := sound key before
            split
            next same =>
              obtain rfl := Option.some.inj (found.symm.trans (same ▸ there))
              exact ⟨_,rfl,height,valid⟩
            · exact ⟨e,there,height,valid⟩
          · exact ⟨_,if_pos rfl,rfl,valid⟩
        obtain ⟨links,last⟩ := ih (countBlock s hash) sifted
        refine ⟨fun other => (links other).trans ?_,last⟩
        rw [entries]
        split
        next same =>
          rw [← same,found]
          rfl
        · rfl
  exact counts hashes (m,∅) fun key member => absurd member ExtTreeSet.not_mem_empty

end

namespace ChainState

section
variable {env : Env} {unwritten : uint256 → Prop} {s s' : ChainState}

theorem evolves_linkDown {fuel : Nat} {hash : uint256} (links : linkDown fuel s hash = some s') : Evolves env unwritten s s' := by
  induction fuel generalizing s hash with
  | zero =>
    rw [linkDown.eq_def] at links
    dsimp only at links
    split at links
    · obtain rfl := Option.some.inj links
      exact .refl
    · contradiction
  | succ fuel ih =>
    rw [linkDown.eq_def] at links
    dsimp only at links
    split at links
    · obtain rfl := Option.some.inj links
      exact .refl
    · exact (evolves_setNext hash (some hash)).trans (ih links)

theorem Standing.restart (standing : Standing env unwritten s) {records : List CDiskBlockIndex} {address : uint256 → Nat}
    (order : records.Perm (s.blocktree.toList.map Prod.snd)) (restarts : s.restart env records address = some s') :
    Standing env unwritten s' := by
  obtain ⟨_,rank,rooted⟩ := standing
  have stored : ∀ r, r ∈ records ↔ ∃ k : uint256, s.blocktree[k]? = some r := by
    intro r
    rw [order.mem_iff,List.mem_map]
    constructor
    · rintro ⟨⟨k,r⟩,member,rfl⟩
      exact ⟨k,ExtTreeMap.mem_toList_iff_getElem?_eq_some.mp member⟩
    · rintro ⟨k,found⟩
      exact ⟨(k,r),ExtTreeMap.mem_toList_iff_getElem?_eq_some.mpr found,rfl⟩
  unfold ChainState.restart at restarts
  split at restarts
  · contradiction
  next loading loads =>
    obtain ⟨done,all,listing⟩ := LoadBlockIndexGuts_listing loads
    obtain ⟨links,candidates⟩ := countBlocks_links (sortedByHeight address loading.mapBlockIndex) loading.mapBlockIndex
    dsimp only at restarts
    generalize (sortedByHeight address loading.mapBlockIndex).foldl countBlock (loading.mapBlockIndex,∅) = loaded at links candidates restarts
    have inside : ∀ hash, hash ∈ loaded.1 ↔ hash ∈ loading.mapBlockIndex := by
      intro hash
      have same := congrArg Option.isSome (links hash)
      rw [Option.isSome_map,Option.isSome_map] at same
      rw [ExtTreeMap.mem_iff_isSome_getElem?,ExtTreeMap.mem_iff_isSome_getElem?,same]
    have started : ∀ t : ChainState, t.mapBlockIndex = loaded.1 → t.setBlockIndexValid = loaded.2 → t.blocktree = s.blocktree →
        Standing env unwritten t := by
      intro t entries valid blocktree
      refine ⟨fun key member => ?_,rank,fun hash e p there parent => ?_,fun k r there prev => ?_⟩
      · rw [valid] at member
        obtain ⟨e,found,height,sound⟩ := candidates key member
        refine ⟨e,by rw [entries]; exact found,height,fun failed => ?_⟩
        rw [sound] at failed
        contradiction
      · rw [entries] at there ⊢
        have same := links hash
        rw [there] at same
        obtain ⟨x,found,equal⟩ := Option.map_eq_some_iff.mp same.symm
        have kept : x.pprev = e.pprev ∧ x.nVersion = e.nVersion ∧ x.hashMerkleRoot = e.hashMerkleRoot ∧ x.nTime = e.nTime := by
          simp only [IndexEntry.mk.injEq] at equal
          tauto
        obtain ⟨pprev,nVersion,hashMerkleRoot,nTime⟩ := kept
        obtain ⟨r,member,hash',previous,nonzero,hashed⟩ := listing.links hash x p found (pprev.trans parent)
        obtain ⟨k,there⟩ := (stored r).mp member
        have lower := (rooted.records k r there (previous ▸ nonzero)).2.2
        rw [hash',previous] at lower
        rw [← nVersion,← hashMerkleRoot,← nTime]
        exact ⟨(inside p).mpr (previous ▸ (listing.present r (all r member)).2 (previous ▸ nonzero)),lower,hashed⟩
      · rw [blocktree] at there
        have member := (stored r).mpr ⟨k,there⟩
        rw [entries,inside,inside]
        exact ⟨(listing.present r (all r member)).1,(listing.present r (all r member)).2 prev,(rooted.records k r there prev).2.2⟩
    split at restarts
    · obtain rfl := Option.some.inj restarts
      exact started _ rfl rfl rfl
    · have linked := @evolves_linkDown env unwritten _ _ _ _ restarts
      refine Standing.evolves (started _ ?_ ?_ ?_) linked
      · rfl
      · rfl
      · rfl

end

/-! One turn of the loop. -/

/-- How a turn of the outer loop of `ConnectBestBlock` ends. -/
inductive Turn
  /-- An inner walk does not come to an end. -/
  | stuck
  | returns (returned : Option Returned)
  | again (s : ChainState)

/-- One turn of the outer loop; `reconnect` is the call that `SetBestChain` may make. -/
def turn (rules : PoolRules) (world : Nat → Surroundings) (reconnect : ChainState → Option ChainState) (s : ChainState) : Turn :=
  match s.setBlockIndexValid.toList.getLast? with
  | none => .returns (some ⟨s,.ok ()⟩)
  | some pindexNewBest =>
    let (w,s) := s.look world
    match s.findAttach w [] s.turns pindexNewBest.hash with
    | none => .stuck
    | some (.attach vAttach) => .returns (s.switchTo rules world reconnect vAttach)
    | some (.failed pindexTest) =>
      match walkTo s.parent (some pindexTest) s.turns (some pindexNewBest.hash) with
      | none => .stuck
      | some failed =>
        match s.markFailed rules.env w failed with
        | (s,false) => .returns (some ⟨s,.error databaseError⟩)
        | (s,true) => .again s

/-- The state after some turns that are not the last. -/
def afterTurns (rules : PoolRules) (world : Nat → Surroundings) (reconnect : ChainState → Option ChainState) : Nat → ChainState → Option ChainState
  | 0, s => some s
  | n+1, s =>
    match s.turn rules world reconnect with
    | .again s => afterTurns rules world reconnect n s
    | _ => none

section
variable {rules : PoolRules} {world : Nat → Surroundings} {s s' : ChainState}

/-- `ConnectBestBlock` takes one turn after the other. -/
theorem ConnectBestBlock_turn (fuel : Nat) (s : ChainState) :
    ConnectBestBlock rules world (fuel+1) s =
      match s.turn rules world fun s => (ConnectBestBlock rules world fuel s).map Returned.state with
      | .stuck => none
      | .returns returned => returned
      | .again s => ConnectBestBlock rules world fuel s := by
  rw [ConnectBestBlock,turn]
  cases s.setBlockIndexValid.toList.getLast? with
  | none => rfl
  | some key =>
    dsimp only
    cases (s.look world).2.findAttach (s.look world).1 [] (s.look world).2.turns key.hash with
    | none => rfl
    | some candidate =>
      cases candidate with
      | attach vAttach => rfl
      | failed pindexTest =>
        dsimp only
        cases walkTo (s.look world).2.parent (some pindexTest) (s.look world).2.turns (some key.hash) with
        | none => rfl
        | some failed =>
          dsimp only
          obtain ⟨t,written⟩ := (s.look world).2.markFailed rules.env (s.look world).1 failed
          cases written <;> rfl

/-- The inner walk stops at a failed block, ends, or goes on with the parent. -/
theorem findAttach_cases {w : Surroundings} {hash : uint256} {e : IndexEntry} (found : s.mapBlockIndex[hash]? = some e) (vAttach : List uint256)
    (fuel : Nat) :
    (e.BLOCK_FAILED_MASK = true ∧ s.findAttach w vAttach fuel hash = some (.failed hash)) ∨
      (∃ attached, s.findAttach w vAttach fuel hash = some (.attach attached)) ∨
      ∃ p pushed, e.pprev = some p ∧ ∀ fuel', fuel = fuel'+1 → s.findAttach w vAttach fuel hash = s.findAttach w pushed fuel' p := by
  rw [findAttach.eq_def]
  simp only [found]
  split
  next failed => exact .inl ⟨failed,rfl⟩
  · split
    · exact .inr (.inl ⟨_,rfl⟩)
    · cases parent : e.pprev with
      | none => exact .inr (.inl ⟨_,rfl⟩)
      | some p =>
        cases fuel with
        | zero => exact .inr (.inr ⟨p,[],rfl,fun _ same => absurd same (Nat.succ_ne_zero _).symm⟩)
        | succ fuel => exact .inr (.inr ⟨p,_,rfl,fun fuel' same => by rw [← Nat.succ.inj same]⟩)

/-- The inner walk ends, and a failed block where it stops lies below its start. -/
theorem findAttach_ends {env : Env} {rank : uint256 → Nat} (rooted : Rooted env rank s) (w : Surroundings) {fuel : Nat} {hash : uint256}
    {vAttach : List uint256} (member : hash ∈ s.mapBlockIndex) (enough : below rank s.mapBlockIndex.keys hash ≤ fuel) :
    ∃ candidate, s.findAttach w vAttach fuel hash = some candidate ∧
      ∀ pindexTest, candidate = .failed pindexTest →
        (∃ ks, walkTo s.parent (some pindexTest) fuel (some hash) = some ks) ∧
          ∃ e, s.mapBlockIndex[pindexTest]? = some e ∧ e.BLOCK_FAILED_MASK = true := by
  induction fuel using Nat.strong_induction_on generalizing hash vAttach with
  | _ fuel ih =>
    obtain ⟨e,found⟩ := (s.mem_iff_entry hash).mp member
    rcases @findAttach_cases s w hash e found vAttach fuel with ⟨failed,stops⟩ | ⟨attached,ends⟩ | ⟨p,pushed,parent,goes⟩
    · refine ⟨_,stops,fun pindexTest same => ?_⟩
      obtain rfl := Candidate.failed.inj same
      exact ⟨⟨[],walkTo_self ..⟩,e,found,failed⟩
    · exact ⟨_,ends,fun pindexTest same => by contradiction⟩
    · obtain ⟨inside,lower,_⟩ := rooted.entries hash e p found parent
      have less := below_lt (ExtTreeMap.mem_keys.mpr inside) lower
      obtain ⟨fuel',rfl⟩ : ∃ fuel', fuel = fuel'+1 := Nat.exists_eq_succ_of_ne_zero (by omega)
      obtain ⟨candidate,went,stops⟩ := @ih fuel' (Nat.lt_succ_self _) p pushed inside (by omega)
      refine ⟨candidate,(goes fuel' rfl).trans went,fun pindexTest same => ?_⟩
      obtain ⟨⟨ks,walked⟩,failed⟩ := stops pindexTest same
      refine ⟨?_,failed⟩
      unfold walkTo
      split
      · exact ⟨[],rfl⟩
      · dsimp only
        rw [parent_of_entry found,parent,walked]
        exact ⟨hash :: ks,rfl⟩

theorem markFailed_size {env : Env} {w : Surroundings} {failed : List uint256} {written : Bool}
    (marks : s.markFailed env w failed = (s',written)) : s'.setBlockIndexValid.size ≤ s.setBlockIndexValid.size := by
  induction failed generalizing s with
  | nil =>
    obtain ⟨rfl,_⟩ := Prod.mk.inj marks
    exact le_rfl
  | cons hash rest ih =>
    rw [markFailed] at marks
    split at marks
    · obtain ⟨rfl,_⟩ := Prod.mk.inj marks
      exact le_rfl
    · dsimp only at marks
      split at marks
      · obtain ⟨rfl,_⟩ := Prod.mk.inj marks
        exact ExtTreeSet.size_erase_le
      · exact (ih marks).trans ExtTreeSet.size_erase_le

/-- The first block that is marked goes from the candidates. -/
theorem markFailed_shrinks {env : Env} {w : Surroundings} {hash : uint256} {e : IndexEntry} {rest : List uint256}
    (found : s.mapBlockIndex[hash]? = some e) (member : ⟨e.nHeight,hash⟩ ∈ s.setBlockIndexValid)
    (marks : s.markFailed env w (hash :: rest) = (s',true)) : s'.setBlockIndexValid.size < s.setBlockIndexValid.size := by
  rw [markFailed] at marks
  simp only [found] at marks
  split at marks
  · obtain ⟨_,_⟩ := Prod.mk.inj marks
    contradiction
  · have left := markFailed_size marks
    simp only [writeIndex,eraseValid,setEntry,ExtTreeSet.size_erase] at left
    rw [if_pos (ExtTreeSet.contains_iff_mem.mpr member)] at left
    have some : s.setBlockIndexValid.size ≠ 0 := by
      intro zero
      rw [ExtTreeSet.eq_empty_iff_size_eq_zero.mpr zero] at member
      exact ExtTreeSet.not_mem_empty member
    omega

/-- A turn ends, and if it is not the last it takes the best candidate away. -/
theorem turn_shrinks (standing : Standing rules.env (fun _ => False) s) (reconnect : ChainState → Option ChainState) :
    (∃ returned, s.turn rules world reconnect = .returns returned) ∨
      ∃ t, s.turn rules world reconnect = .again t ∧ Standing rules.env (fun _ => False) t ∧
        t.setBlockIndexValid.size < s.setBlockIndexValid.size := by
  rw [turn]
  cases last : s.setBlockIndexValid.toList.getLast? with
  | none => exact .inl ⟨_,rfl⟩
  | some key =>
    have member : key ∈ s.setBlockIndexValid := ExtTreeSet.mem_toList.mp (List.mem_of_getLast? last)
    obtain ⟨e,found,height,sound⟩ := standing.1 key member
    have looked := standing.evolves (evolves_look world)
    obtain ⟨_,rank,rooted⟩ := looked
    have inside : key.hash ∈ (s.look world).2.mapBlockIndex := (mem_iff_entry _ _).mpr ⟨e,found⟩
    have enough : below rank (s.look world).2.mapBlockIndex.keys key.hash ≤ (s.look world).2.turns := by
      have bound := below_le rank (s.look world).2.mapBlockIndex.keys key.hash
      rw [ExtTreeMap.length_keys] at bound
      exact bound.trans (Nat.le_succ _)
    obtain ⟨candidate,went,stops⟩ := @findAttach_ends _ rules.env rank rooted (s.look world).1 _ _ [] inside enough
    dsimp only
    rw [went]
    cases candidate with
    | attach vAttach => exact .inl ⟨_,rfl⟩
    | failed pindexTest =>
      obtain ⟨⟨failed,walked⟩,x,there,mark⟩ := stops pindexTest rfl
      dsimp only
      rw [walked]
      dsimp only
      have apart : (Option.some key.hash) ≠ some pindexTest := by
        intro same
        obtain rfl := Option.some.inj same
        obtain rfl := Option.some.inj (found.symm.trans there)
        exact (sound mark).2
      obtain ⟨k,_,rest,same,_,rfl⟩ := walkTo_step walked apart
      obtain rfl := Option.some.inj same
      cases marks : (s.look world).2.markFailed rules.env (s.look world).1 (key.hash :: rest) with
      | mk t written =>
        cases written with
        | false => exact .inl ⟨_,rfl⟩
        | true =>
          refine .inr ⟨t,rfl,(standing.evolves (evolves_look world)).evolves (evolves_markFailed marks),?_⟩
          refine @markFailed_shrinks (s.look world).2 t rules.env _ key.hash e rest found ?_ marks
          rw [height]
          exact member

theorem afterTurns_shrinks {reconnect : ChainState → Option ChainState} (standing : Standing rules.env (fun _ => False) s) {n : Nat}
    (turns : s.afterTurns rules world reconnect n = some s') :
    Standing rules.env (fun _ => False) s' ∧ s'.setBlockIndexValid.size+n ≤ s.setBlockIndexValid.size := by
  induction n generalizing s with
  | zero =>
    obtain rfl := Option.some.inj turns
    exact ⟨standing,le_rfl⟩
  | succ n ih =>
    rw [afterTurns] at turns
    rcases turn_shrinks standing reconnect with ⟨returned,last⟩ | ⟨t,again,after,smaller⟩
    · rw [last] at turns
      contradiction
    · rw [again] at turns
      obtain ⟨finished,fewer⟩ := ih after turns
      exact ⟨finished,by omega⟩

/-- The loop comes to its last turn. -/
theorem exists_last_turn (standing : Standing rules.env (fun _ => False) s) (reconnect : ChainState → Option ChainState) :
    ∃ n ≤ s.setBlockIndexValid.size, ∃ t returned, s.afterTurns rules world reconnect n = some t ∧
      t.turn rules world reconnect = .returns returned := by
  induction size : s.setBlockIndexValid.size using Nat.strong_induction_on generalizing s with
  | _ m ih =>
    rcases turn_shrinks standing reconnect with ⟨returned,last⟩ | ⟨t,again,after,smaller⟩
    · exact ⟨0,Nat.zero_le _,s,returned,rfl,last⟩
    · obtain ⟨n,few,u,returned,turns,last⟩ := ih _ (size ▸ smaller) after rfl
      exact ⟨n+1,by omega,u,returned,by rw [afterTurns,again]; exact turns,last⟩

end

end ChainState

/-- What can happen to the index. -/
inductive IndexAction
  | chain (action : ChainAction)
  | add (block : CBlock) (pos : CDiskBlockPos)
  | invalid (hash : uint256)

namespace ChainState

def actIndex (rules : PoolRules) (world : Nat → Surroundings) (fuel : Nat) (s : ChainState) : IndexAction → Option ChainState
  | .chain action => s.act rules world fuel action
  | .add block pos => (s.AddToBlockIndex rules world fuel block pos).map Returned.state
  | .invalid hash =>
    let (w,s) := s.look world
    (s.InvalidBlockFound rules.env w (fun s => (ConnectBestBlock rules world fuel s).map Returned.state) hash).map Prod.fst

def runIndex (rules : PoolRules) (world : Nat → Surroundings) (fuel : Nat) (s : ChainState) : List IndexAction → Option ChainState
  | [] => some s
  | action :: rest => (s.actIndex rules world fuel action).bind fun s => runIndex rules world fuel s rest

section
variable {rules : PoolRules} {world : Nat → Surroundings} {fuel : Nat} {s s' : ChainState}

theorem Standing.actIndex (standing : Standing rules.env (Unwritten world) s) {action : IndexAction}
    (acts : s.actIndex rules world fuel action = some s') : Standing rules.env (Unwritten world) s' := by
  cases action with
  | chain action =>
    cases action with
    | accept block =>
      obtain ⟨returned,accepts,rfl⟩ := Option.map_eq_some_iff.mp acts
      exact standing.evolves (evolves_AcceptBlock accepts)
    | connectBest =>
      obtain ⟨returned,connects,rfl⟩ := Option.map_eq_some_iff.mp acts
      exact standing.evolves (evolves_ConnectBestBlock connects)
    | restart records address =>
      rw [ChainState.actIndex,act] at acts
      split at acts
      next order => exact standing.restart order acts
      · contradiction
  | add block pos =>
    obtain ⟨returned,adds,rfl⟩ := Option.map_eq_some_iff.mp acts
    exact standing.evolves (evolves_AddToBlockIndex adds)
  | invalid hash =>
    obtain ⟨⟨t,written⟩,marks,rfl⟩ := Option.map_eq_some_iff.mp acts
    refine (standing.evolves (evolves_look world)).evolves (evolves_InvalidBlockFound (fun s s' reconnected => ?_) marks)
    obtain ⟨returned,went,rfl⟩ := Option.map_eq_some_iff.mp reconnected
    exact evolves_ConnectBestBlock went

theorem Standing.runIndex (standing : Standing rules.env (Unwritten world) s) {actions : List IndexAction}
    (ran : s.runIndex rules world fuel actions = some s') : Standing rules.env (Unwritten world) s' := by
  induction actions generalizing s with
  | nil =>
    obtain rfl := Option.some.inj ran
    exact standing
  | cons action rest ih =>
    obtain ⟨next,acts,continues⟩ := Option.bind_eq_some_iff.mp ran
    exact ih (standing.actIndex acts) continues

theorem start_standing (env : Env) (unwritten : uint256 → Prop) : Standing env unwritten {} := by
  refine ⟨fun key member => ?_,fun _ => 0,fun hash e p there _ => ?_,fun k r there _ => ?_⟩
  · exact absurd member ExtTreeSet.not_mem_empty
  · simp at there
  · simp at there

/-- No candidate has failed, as long as the record of every block found invalid is
    written; then every turn of the loop is the last or leaves fewer candidates, and the
    loop comes to its last turn. -/
theorem candidates_shrink {actions : List IndexAction} (ran : runIndex rules world fuel {} actions = some s)
    (written : ∀ (hash : uint256) e, s.mapBlockIndex[hash]? = some e → e.BLOCK_FAILED_VALID = true → ∀ i, (world i).WriteBlockIndex hash = true) :
    (∀ key ∈ s.setBlockIndexValid, ∃ e, s.mapBlockIndex[key.hash]? = some e ∧ e.BLOCK_FAILED_MASK = false) ∧
      ∀ reconnect,
        (∀ n t, s.afterTurns rules world reconnect n = some t →
          (∀ key ∈ t.setBlockIndexValid, ∃ e, t.mapBlockIndex[key.hash]? = some e ∧ e.BLOCK_FAILED_MASK = false) ∧
          ((∃ returned, t.turn rules world reconnect = .returns returned) ∨
            ∃ t', t.turn rules world reconnect = .again t' ∧ t'.setBlockIndexValid.size < t.setBlockIndexValid.size)) ∧
        ∃ n ≤ s.setBlockIndexValid.size, ∃ t returned, s.afterTurns rules world reconnect n = some t ∧
          t.turn rules world reconnect = .returns returned := by
  obtain ⟨vetted,rooted⟩ := (start_standing rules.env (Unwritten world)).runIndex ran
  have sound : Vetted (fun _ => False) s := by
    intro key member
    obtain ⟨e,found,height,mark⟩ := vetted key member
    refine ⟨e,found,height,fun failed => ?_⟩
    obtain ⟨invalid,i,missing⟩ := mark failed
    rw [written key.hash e found invalid i] at missing
    contradiction
  have unfailed : ∀ {t : ChainState}, Vetted (fun _ => False) t →
      ∀ key ∈ t.setBlockIndexValid, ∃ e, t.mapBlockIndex[key.hash]? = some e ∧ e.BLOCK_FAILED_MASK = false := by
    intro t vetted key member
    obtain ⟨e,found,_,mark⟩ := vetted key member
    exact ⟨e,found,by simpa using mark⟩
  refine ⟨unfailed sound,fun reconnect => ⟨fun n t turns => ?_,exists_last_turn ⟨sound,rooted⟩ reconnect⟩⟩
  obtain ⟨standing,_⟩ := afterTurns_shrinks ⟨sound,rooted⟩ turns
  refine ⟨unfailed standing.1,?_⟩
  rcases turn_shrinks standing reconnect with last | ⟨t',again,_,smaller⟩
  · exact .inl last
  · exact .inr ⟨t',again,smaller⟩

/-- A failed best candidate stays, and the turn changes nothing. -/
theorem turn_of_failed {key : WorkKey} {e : IndexEntry} (best : s.setBlockIndexValid.toList.getLast? = some key)
    (found : s.mapBlockIndex[key.hash]? = some e) (failed : e.BLOCK_FAILED_MASK = true) (reconnect : ChainState → Option ChainState) :
    s.turn rules world reconnect = .again (s.look world).2 := by
  have there : (s.look world).2.mapBlockIndex[key.hash]? = some e := found
  rw [turn,best]
  dsimp only
  rw [findAttach.eq_def]
  simp only [there]
  rw [if_pos failed]
  dsimp only
  rw [walkTo_self]
  rfl

theorem afterTurns_of_failed {key : WorkKey} {e : IndexEntry} (best : s.setBlockIndexValid.toList.getLast? = some key)
    (found : s.mapBlockIndex[key.hash]? = some e) (failed : e.BLOCK_FAILED_MASK = true) (reconnect : ChainState → Option ChainState) (n : Nat) :
    ∃ t, s.afterTurns rules world reconnect n = some t ∧ t.setBlockIndexValid = s.setBlockIndexValid := by
  induction n generalizing s with
  | zero => exact ⟨s,rfl,rfl⟩
  | succ n ih =>
    rw [afterTurns,turn_of_failed best found failed reconnect]
    exact @ih (s.look world).2 best found

end

/-! A block that creates money on the genesis block. -/

private def loopEnv : Env :=
  ⟨fun tx => tx.nLockTime,fun header => if header.hashPrevBlock = 0 then hashGenesisBlock else header.nTime,fun left right => left+right,
    fun _ _ _ _ _ => true,fun _ _ _ => true⟩
private def loopRules : PoolRules where
  env := loopEnv
  IsPushOnly _ := true
  HasCanonicalPushes _ := true
  IsStandard _ := true
  IsInputStandard _ _ _ := true
private def loopCoinbase (name : CashName) : CTransaction := ⟨2,[⟨⟨0,nullIndex⟩,[1,5],nullIndex⟩],[⟨Cash.ofMoney (name,10),[]⟩],10,[]⟩
private def loopGenesis : CBlock := ⟨⟨3,0,10,50⟩,[loopCoinbase EUR],[],[]⟩
private def loopBlock : CBlock := ⟨⟨3,hashGenesisBlock,10,100⟩,[loopCoinbase CHF],[],[]⟩
private def loopActions : List IndexAction := [.chain (.accept loopGenesis),.chain (.accept loopBlock)]
/-- The record of the second block cannot be written when it is found invalid. -/
private def loopDisk (call : Nat) : Surroundings := {ambient := ⟨1000,0⟩,WriteBlockIndex := fun _ => decide (call ≠ 8)}
private def loopSteady (_ : Nat) : Surroundings := {ambient := ⟨1000,0⟩}

private def bestFailed (s : ChainState) : Option (WorkKey × Bool) :=
  (s.setBlockIndexValid.toList.getLast?).bind fun key => (s.mapBlockIndex[key.hash]?).map fun e => (key,e.BLOCK_FAILED_MASK)

/-- The block stays the best candidate, and every turn of the loop is followed by another. -/
theorem failed_candidate_stays :
    ∃ s, runIndex loopRules loopDisk 4 {} loopActions = some s ∧
      (∃ key ∈ s.setBlockIndexValid, ∃ e, s.mapBlockIndex[key.hash]? = some e ∧ e.BLOCK_FAILED_MASK = true) ∧
      ∀ reconnect n, ∃ t, s.afterTurns loopRules loopDisk reconnect n = some t ∧ t.setBlockIndexValid = s.setBlockIndexValid := by
  have best : (runIndex loopRules loopDisk 4 {} loopActions).bind bestFailed = some (⟨1,100⟩,true) := by decide +kernel
  obtain ⟨s,ran,found⟩ := Option.bind_eq_some_iff.mp best
  obtain ⟨key,last,entry⟩ := Option.bind_eq_some_iff.mp found
  obtain ⟨e,there,same⟩ := Option.map_eq_some_iff.mp entry
  obtain ⟨rfl,failed⟩ := Prod.mk.inj same
  have member := ExtTreeSet.mem_toList.mp (List.mem_of_getLast? last)
  exact ⟨s,ran,⟨_,member,e,there,failed⟩,fun reconnect n => afterTurns_of_failed last there failed reconnect n⟩

theorem candidates_shrink_sample :
    ∃ s, runIndex loopRules loopSteady 4 {} loopActions = some s ∧
      (∀ key ∈ s.setBlockIndexValid, ∃ e, s.mapBlockIndex[key.hash]? = some e ∧ e.BLOCK_FAILED_MASK = false) ∧
      ∀ reconnect, ∃ n ≤ s.setBlockIndexValid.size, ∃ t returned, s.afterTurns loopRules loopSteady reconnect n = some t ∧
        t.turn loopRules loopSteady reconnect = .returns returned := by
  have runs : (runIndex loopRules loopSteady 4 {} loopActions).isSome = true := by decide +kernel
  obtain ⟨s,ran⟩ := Option.isSome_iff_exists.mp runs
  obtain ⟨sound,ends⟩ := candidates_shrink ran fun _ _ _ _ _ => rfl
  exact ⟨s,ran,sound,fun reconnect => (ends reconnect).2⟩

end ChainState
end Tetra
