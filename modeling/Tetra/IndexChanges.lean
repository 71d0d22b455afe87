import Mathlib
import Tetra.LoadIndex

/-!
What a call of the node can do to the block index, said once: every call is a run of a
few kinds of change, whatever the disk does.
-/
namespace Tetra
open Ancestry
open Std (ExtTreeMap ExtTreeSet)

namespace ChainState

/-- One change of the index. A block found invalid may stay among the candidates if the
    write of its record fails, for which `unwritten` stands. -/
inductive Changes (env : Env) (unwritten : uint256 → Prop) : ChainState → ChainState → Prop
  /-- Something else changes. -/
  | other {s s' : ChainState} (entries : s'.mapBlockIndex = s.mapBlockIndex) (valid : s'.setBlockIndexValid = s.setBlockIndexValid)
      (records : s'.blocktree = s.blocktree) : Changes env unwritten s s'
  /-- New undo data or a new link. -/
  | entry {s : ChainState} {hash : uint256} {e e' : IndexEntry} (found : s.mapBlockIndex[hash]? = some e) (kin : Kin e e')
      (failed : e'.BLOCK_FAILED_VALID = e.BLOCK_FAILED_VALID ∧ e'.BLOCK_FAILED_CHILD = e.BLOCK_FAILED_CHILD) :
      Changes env unwritten s (s.setEntry hash e')
  | record {s : ChainState} {hash : uint256} {e : IndexEntry} (found : s.mapBlockIndex[hash]? = some e) :
      Changes env unwritten s (s.writeIndex env e)
  /-- A failed block, which is no candidate any more. -/
  | failed {s : ChainState} {hash : uint256} {e e' : IndexEntry} (found : s.mapBlockIndex[hash]? = some e) (kin : Kin e e') :
      Changes env unwritten s ((s.setEntry hash e').eraseValid hash e')
  | invalid {s : ChainState} {hash : uint256} {e : IndexEntry} (found : s.mapBlockIndex[hash]? = some e) (fails : unwritten hash) :
      Changes env unwritten s (s.setEntry hash {e with BLOCK_FAILED_VALID := true})
  | block {s : ChainState} {block : CBlock} (pos : CDiskBlockPos) (fresh : block.GetHash env ∉ s.mapBlockIndex) :
      Changes env unwritten s {s.setEntry (block.GetHash env) (s.newEntry (block.GetHash env) block pos) with
        setBlockIndexValid := s.setBlockIndexValid.insert ⟨(s.newEntry (block.GetHash env) block pos).nHeight,block.GetHash env⟩}

def Evolves (env : Env) (unwritten : uint256 → Prop) : ChainState → ChainState → Prop := Relation.ReflTransGen (Changes env unwritten)

section
variable {env : Env} {unwritten : uint256 → Prop} {s s' t : ChainState}

theorem Evolves.refl : Evolves env unwritten s s := Relation.ReflTransGen.refl

theorem Evolves.trans (first : Evolves env unwritten s t) (second : Evolves env unwritten t s') : Evolves env unwritten s s' :=
  Relation.ReflTransGen.trans first second

theorem Changes.evolves (change : Changes env unwritten s s') : Evolves env unwritten s s' := .single change

theorem Evolves.then (first : Evolves env unwritten s t) (change : Changes env unwritten t s') : Evolves env unwritten s s' :=
  first.tail change

/-- A step that only counts the call. -/
theorem evolves_look (world : Nat → Surroundings) : Evolves env unwritten s (s.look world).2 := .single (.other rfl rfl rfl)

theorem setEntry_found (s : ChainState) (hash : uint256) (e : IndexEntry) : (s.setEntry hash e).mapBlockIndex[hash]? = some e := by
  rw [setEntry,entries_insert,if_pos rfl]

theorem evolves_setNext (hash : uint256) (pnext : Option uint256) : Evolves env unwritten s (s.setNext hash pnext) := by
  rw [setNext]
  split
  · exact .refl
  split
  · exact .refl
  next found => exact .single (.entry found ⟨rfl,rfl,rfl,rfl,rfl,rfl,rfl,rfl⟩ ⟨rfl,rfl⟩)

theorem evolves_foldl_setNext (value : uint256 → Option uint256) (hashes : List uint256) :
    Evolves env unwritten s (hashes.foldl (fun s hash => s.setNext hash (value hash)) s) := by
  induction hashes generalizing s with
  | nil => exact .refl
  | cons hash rest ih => exact (evolves_setNext hash (value hash)).trans ih

theorem evolves_recordConnect {w : Surroundings} {hash : uint256} {pindex : IndexEntry} (found : s.mapBlockIndex[hash]? = some pindex)
    (block : CBlock) (view : CCoinsViewCache) :
    Evolves env unwritten s (s.recordConnect env w hash pindex block
      (block.ConnectBlock env w.ambient (w.disk hash) pindex.toCBlockIndex view false)) := by
  have cases := block.ConnectBlock_entry env w.ambient (w.disk hash) pindex.toCBlockIndex view
  dsimp only at cases
  generalize block.ConnectBlock env w.ambient (w.disk hash) pindex.toCBlockIndex view false = outcome at cases ⊢
  have kin : Kin pindex (connectedEntry w hash pindex outcome) ∧
      (connectedEntry w hash pindex outcome).BLOCK_FAILED_VALID = pindex.BLOCK_FAILED_VALID ∧
      (connectedEntry w hash pindex outcome).BLOCK_FAILED_CHILD = pindex.BLOCK_FAILED_CHILD := by
    rcases cases with ⟨same,_⟩ | ⟨same,_⟩ <;> rw [connectedEntry,same] <;> exact ⟨⟨rfl,rfl,rfl,rfl,rfl,rfl,rfl,rfl⟩,rfl,rfl⟩
  have changed : Changes env unwritten s (s.setEntry hash (connectedEntry w hash pindex outcome)) := .entry found kin.1 kin.2
  obtain ⟨entries,valid,_,_,records⟩ := @recordConnect_fields w s env hash pindex block outcome
  split at records
  · exact (changed.evolves.then (.record (s.setEntry_found hash _))).then (.other entries valid records)
  · exact changed.evolves.then (.other entries valid records)

theorem evolves_markFailed {w : Surroundings} {failed : List uint256} {written : Bool} (marks : s.markFailed env w failed = (s',written)) :
    Evolves env unwritten s s' := by
  induction failed generalizing s with
  | nil =>
    obtain ⟨rfl,_⟩ := Prod.mk.inj marks
    exact .refl
  | cons hash rest ih =>
    rw [markFailed] at marks
    split at marks
    · obtain ⟨rfl,_⟩ := Prod.mk.inj marks
      exact .refl
    next pindex found =>
      dsimp only at marks
      have erased : Changes env unwritten s ((s.setEntry hash {pindex with BLOCK_FAILED_CHILD := true}).eraseValid hash
          {pindex with BLOCK_FAILED_CHILD := true}) := .failed found ⟨rfl,rfl,rfl,rfl,rfl,rfl,rfl,rfl⟩
      split at marks
      · obtain ⟨rfl,_⟩ := Prod.mk.inj marks
        exact erased.evolves
      · exact (erased.evolves.then (.record (s.setEntry_found hash _))).trans (ih marks)

end

section
variable {rules : PoolRules} {world : Nat → Surroundings} {s s' : ChainState}

theorem evolves_connectBlocks {unwritten : uint256 → Prop} {w : Surroundings} {blocks : List uint256} {view : CCoinsViewCache}
    {vDelete : List CTransaction} {result : Except (uint256 × Reject) (CCoinsViewCache × List CTransaction)}
    (connects : connectBlocks rules w s view vDelete blocks = (s',result)) : Evolves rules.env unwritten s s' := by
  induction blocks generalizing s view vDelete with
  | nil =>
    obtain ⟨rfl,_⟩ := Prod.mk.inj connects
    exact .refl
  | cons hash rest ih =>
    rw [connectBlocks] at connects
    split at connects
    · obtain ⟨rfl,_⟩ := Prod.mk.inj connects
      exact .refl
    next pindex found =>
      split at connects
      · obtain ⟨rfl,_⟩ := Prod.mk.inj connects
        exact .refl
      next block _ =>
        have recorded := @evolves_recordConnect rules.env unwritten s w hash pindex found block view
        dsimp only at connects
        split at connects
        · obtain ⟨rfl,_⟩ := Prod.mk.inj connects
          exact recorded
        · exact recorded.trans (ih connects)

/-- At some call the record of the block is not written. -/
def Unwritten (world : Nat → Surroundings) (hash : uint256) : Prop := ∃ i, (world i).WriteBlockIndex hash = false

variable {reconnect : ChainState → Option ChainState} (reconnects : ∀ s s', reconnect s = some s' → Evolves rules.env (Unwritten world) s s')
include reconnects

theorem evolves_InvalidBlockFound {i : Nat} {hash : uint256} {written : Bool}
    (marks : s.InvalidBlockFound rules.env (world i) reconnect hash = some (s',written)) : Evolves rules.env (Unwritten world) s s' := by
  rw [InvalidBlockFound] at marks
  split at marks
  · contradiction
  next pindex found =>
    dsimp only at marks
    split at marks
    next fails =>
      obtain ⟨rfl,_⟩ := Prod.mk.inj (Option.some.inj marks)
      exact .single (.invalid found ⟨i,fails⟩)
    · -- The record is written before the candidate goes, and both are done in either order.
      have erased : Changes rules.env (Unwritten world) s ((s.setEntry hash {pindex with BLOCK_FAILED_VALID := true}).eraseValid hash
          {pindex with BLOCK_FAILED_VALID := true}) := .failed found ⟨rfl,rfl,rfl,rfl,rfl,rfl,rfl,rfl⟩
      have marked := erased.evolves.then (.record (s.setEntry_found hash _))
      split at marks
      · obtain ⟨_,reconnected,same⟩ := Option.map_eq_some_iff.mp marks
        obtain ⟨rfl,_⟩ := Prod.mk.inj same
        exact marked.trans (reconnects _ _ reconnected)
      · obtain ⟨rfl,_⟩ := Prod.mk.inj (Option.some.inj marks)
        exact marked

theorem evolves_SetBestChain {pindexNew : uint256} {returned : Returned}
    (sets : s.SetBestChain rules world reconnect pindexNew = some returned) : Evolves rules.env (Unwritten world) s returned.state := by
  unfold SetBestChain at sets
  have start := @evolves_look rules.env (Unwritten world) s world
  rw [look] at sets start
  dsimp only at sets start
  split at sets
  · contradiction
  split at sets
  next vDisconnect branch _ _ =>
    split at sets
    · split at sets
      · contradiction
      · obtain rfl := Option.some.inj sets
        exact start
    next view vResurrect _ =>
      split at sets
      next t hash e connected =>
        have after := start.trans (evolves_connectBlocks connected)
        split at sets
        · contradiction
        split at sets
        · obtain ⟨⟨t',written⟩,found,rfl⟩ := Option.map_eq_some_iff.mp sets
          exact after.trans (evolves_InvalidBlockFound reconnects found)
        · obtain rfl := Option.some.inj sets
          exact after
      next t view' vDelete connected =>
        have after := start.trans (evolves_connectBlocks connected)
        have finish : ∀ pcoinsTip : CCoinsViewCache, Evolves rules.env (Unwritten world) s
            (finishSwitch rules (world s.calls) {t with pcoinsTip := pcoinsTip} pindexNew vDisconnect branch.reverse vResurrect vDelete) := by
          intro pcoinsTip
          have handed : Evolves rules.env (Unwritten world) s {t with pcoinsTip := pcoinsTip} := after.then (.other rfl rfl rfl)
          have cleared := handed.trans (evolves_foldl_setNext (fun _ => none) vDisconnect)
          have linked := cleared.trans (evolves_foldl_setNext some branch.reverse)
          exact linked.then (.other rfl rfl rfl)
        split at sets
        · split at sets
          · obtain rfl := Option.some.inj sets
            exact after.then (.other rfl rfl rfl)
          split at sets
          · obtain rfl := Option.some.inj sets
            exact after.then (.other rfl rfl rfl)
          split at sets
          · obtain rfl := Option.some.inj sets
            exact after.then (.other rfl rfl rfl)
          · obtain rfl := Option.some.inj sets
            exact finish _
        · obtain rfl := Option.some.inj sets
          exact finish _
  · contradiction

end

section
variable {rules : PoolRules} {world : Nat → Surroundings} {s : ChainState} {fuel : Nat}

theorem evolves_ConnectBestBlock {returned : Returned} (connects : ConnectBestBlock rules world fuel s = some returned) :
    Evolves rules.env (Unwritten world) s returned.state :=
  ConnectBestBlock_along (fun _ => .refl) (fun _ _ _ first next => first.trans next) (fun _ => evolves_look world)
    (fun _ reconnects _ _ _ sets => evolves_SetBestChain reconnects sets) (fun _ _ _ _ _ marks => evolves_markFailed marks) connects

theorem evolves_AddToBlockIndex {block : CBlock} {pos : CDiskBlockPos} {returned : Returned}
    (adds : s.AddToBlockIndex rules world fuel block pos = some returned) : Evolves rules.env (Unwritten world) s returned.state := by
  rw [AddToBlockIndex] at adds
  dsimp only at adds
  split at adds
  · obtain rfl := Option.some.inj adds
    exact .refl
  next fresh =>
    have start := @evolves_look rules.env (Unwritten world) s world
    rw [look] at adds start
    dsimp only at adds start
    have added := start.then (.block pos fresh)
    split at adds
    · obtain rfl := Option.some.inj adds
      exact added
    · have written := added.then (.record (setEntry_found ..))
      split at adds
      · contradiction
      next connected =>
        have after := evolves_ConnectBestBlock connected
        obtain rfl := Option.some.inj adds
        exact written.trans after
      next connected =>
        have after := evolves_ConnectBestBlock connected
        obtain rfl := Option.some.inj adds
        exact written.trans after

theorem evolves_AcceptBlock {block : CBlock} {returned : Returned} (accepts : s.AcceptBlock rules world fuel block = some returned) :
    Evolves rules.env (Unwritten world) s returned.state := by
  obtain same | ⟨-,same | ⟨blockPos,added,adds,same⟩⟩ := AcceptBlock_cases accepts
  · rw [same]
    exact .refl
  · rw [same]
    exact evolves_look world
  · rw [same]
    have filed : Evolves rules.env (Unwritten world) s {(s.look world).2 with blkFiles := (s.look world).2.blkFiles.insert blockPos block} :=
      (evolves_look world).then (.other rfl rfl rfl)
    exact filed.trans (evolves_AddToBlockIndex adds)

end

end ChainState
end Tetra
