import Mathlib
import Tetra.BlockTree

/-!
Blocks by their height on the main chain: a search that starts from where the last one
ended, over any reorganisations in between.
-/
namespace Tetra
open Ancestry
open Std (ExtTreeMap ExtTreeSet)

namespace Ancestry

variable {α : Type*} {parent : α → Option α} {tip : Option α} {x p : α}

theorem OnChain.below (on : OnChain parent tip x) (path : Descends parent x p) : OnChain parent tip p := by
  obtain ⟨t,root,above⟩ := on
  exact ⟨t,root,above.trans path⟩

theorem OnChain.up (on : OnChain parent tip x) (step : parent x = some p) : OnChain parent tip p := on.below (.single step)

/-- Below the tip a block of the chain has a child on it. -/
theorem OnChain.child {t : α} (on : OnChain parent (some t) x) (other : t ≠ x) : ∃ k, OnChain parent (some t) k ∧ parent k = some x := by
  obtain ⟨_,root,path⟩ := on
  obtain rfl := Option.some.inj root
  rcases Relation.ReflTransGen.cases_tail path with same | ⟨k,before,step⟩
  · exact absurd same.symm other
  · exact ⟨k,⟨_,rfl,before⟩,step⟩

/-- A chain has one element of a height. -/
theorem OnChain.unique {height : α → Nat} (falls : Falls parent height) {y : α} (left : OnChain parent tip x) (right : OnChain parent tip y)
    (same : height x = height y) : x = y := by
  obtain ⟨t,rfl,path⟩ := left
  obtain ⟨_,root,path'⟩ := right
  obtain rfl := Option.some.inj root
  have functional : Relator.RightUnique fun child p => parent child = some p := by
    intro child p q left right
    exact Option.some.inj (left.symm.trans right)
  by_contra other
  rcases Relation.ReflTransGen.total_of_right_unique functional path path' with down | down
  · exact absurd same (Descends.height_lt falls down other).ne'
  · exact absurd same (Descends.height_lt falls down (Ne.symm other)).ne

end Ancestry

theorem Kin.trans {e e' e'' : IndexEntry} (first : Kin e e') (second : Kin e' e'') : Kin e e'' where
  hashBlock := second.hashBlock.trans first.hashBlock
  pprev := second.pprev.trans first.pprev
  nHeight := second.nHeight.trans first.nHeight
  nVersion := second.nVersion.trans first.nVersion
  hashMerkleRoot := second.hashMerkleRoot.trans first.hashMerkleRoot
  nTime := second.nTime.trans first.nTime
  nTx := second.nTx.trans first.nTx
  nChainTx := second.nChainTx.trans first.nChainTx

/-- What has to succeed where `SetBestChain` has handed its view to `pcoinsTip` and writes
    to disk what it rests on. -/
def Surroundings.Saves (w : Surroundings) : Prop :=
  w.fIsInitialDownload = false ∨ w.fCacheFull = true → w.CheckDiskSpace = true ∧ w.SyncTree = true ∧ w.FlushCoins = true

namespace ChainState

def nBestHeight (s : ChainState) : Int :=
  match s.pindexBest with
  | none => -1
  | some pindexBest => s.height pindexBest

/-- The loop down along `pprev`; none where it runs off the chain or out of fuel. -/
def stepDown (s : ChainState) (nHeight : Int) : Nat → uint256 → Option uint256
  | fuel, pblockindex =>
    if (s.height pblockindex : Int) > nHeight then
      match fuel, s.parent pblockindex with
      | fuel+1, some pprev => stepDown s nHeight fuel pprev
      | _, _ => none
    else some pblockindex

/-- The loop up along `pnext`. -/
def stepUp (s : ChainState) (nHeight : Int) : Nat → uint256 → Option uint256
  | fuel, pblockindex =>
    if (s.height pblockindex : Int) < nHeight then
      match fuel, s.next pblockindex with
      | fuel+1, some pnext => stepUp s nHeight fuel pnext
      | _, _ => none
    else some pblockindex

theorem stepDown_done {s : ChainState} {nHeight : Int} {fuel : Nat} {x : uint256} (reached : ¬ (s.height x : Int) > nHeight) :
    s.stepDown nHeight fuel x = some x := by
  rw [stepDown.eq_def]
  exact if_neg reached

theorem stepDown_moved {s : ChainState} {nHeight : Int} {fuel : Nat} {x p : uint256} (high : (s.height x : Int) > nHeight)
    (step : s.parent x = some p) : s.stepDown nHeight (fuel+1) x = s.stepDown nHeight fuel p := by
  rw [stepDown.eq_def]
  simp [high,step]

theorem stepUp_done {s : ChainState} {nHeight : Int} {fuel : Nat} {x : uint256} (reached : ¬ (s.height x : Int) < nHeight) :
    s.stepUp nHeight fuel x = some x := by
  rw [stepUp.eq_def]
  exact if_neg reached

theorem stepUp_moved {s : ChainState} {nHeight : Int} {fuel : Nat} {x k : uint256} (lower : (s.height x : Int) < nHeight)
    (next : s.next x = some k) : s.stepUp nHeight (fuel+1) x = s.stepUp nHeight fuel k := by
  rw [stepUp.eq_def]
  simp [lower,next]

/-- `FindBlockByHeight`; what it returns is also the new `pblockindexFBBHLast`, which is
    given with the state. -/
def FindBlockByHeight (fuel : Nat) (s : ChainState) (pblockindexFBBHLast : Option uint256) (nHeight : Int) : Option uint256 := do
  let pblockindex ← (if nHeight < s.nBestHeight.tdiv 2 then s.pindexGenesisBlock else s.pindexBest)
  let pblockindex := match pblockindexFBBHLast with
    | none => pblockindex
    | some last => if |nHeight-s.height pblockindex| > |nHeight-s.height last| then last else pblockindex
  let pblockindex ← s.stepDown nHeight fuel pblockindex
  s.stepUp nHeight fuel pblockindex

/-- Entries under their hashes, one above another; only the genesis block has no
    predecessor. -/
structure BlockIndexTree (s : ChainState) : Prop where
  named : ∀ (hash : uint256) e, s.mapBlockIndex[hash]? = some e → e.hashBlock = hash
  above : ∀ (hash : uint256) e p, s.mapBlockIndex[hash]? = some e → e.pprev = some p →
    ∃ pe, s.mapBlockIndex[p]? = some pe ∧ e.nHeight = pe.nHeight+1
  root : ∀ (hash : uint256) e, s.mapBlockIndex[hash]? = some e → e.pprev = none → hash = hashGenesisBlock ∧ e.nHeight = 0

/-- The main chain as the search finds it, with the links along the chain of the best block. -/
structure MainChain (s : ChainState) : Prop extends BlockIndexTree s where
  best : ∀ b, s.pindexBest = some b → b ∈ s.mapBlockIndex
  coins : s.pcoinsTip.GetBestBlock = s.pindexBest
  linked : Linked s.parent s.next s.pindexBest
  genesis : s.pindexBest ≠ none → s.pindexGenesisBlock = some hashGenesisBlock

namespace BlockIndexTree
variable {s : ChainState} (tree : BlockIndexTree s) {x : uint256}
include tree

theorem step {p : uint256} (step : s.parent x = some p) : p ∈ s.mapBlockIndex ∧ s.height x = s.height p+1 := by
  obtain ⟨e,found,parent⟩ := exists_entry_of_parent step
  obtain ⟨pe,inside,above⟩ := tree.above x e p found parent
  exact ⟨(s.mem_iff_entry p).mpr ⟨pe,inside⟩,by rw [height_of_entry found,height_of_entry inside,above]⟩

theorem falls : Falls s.parent s.height := fun _ _ step => by rw [(tree.step step).2]; exact Nat.lt_succ_self _

/-- Above height zero a block has a predecessor. -/
theorem exists_parent (member : x ∈ s.mapBlockIndex) (high : 0 < s.height x) : ∃ p, s.parent x = some p := by
  obtain ⟨e,found⟩ := (s.mem_iff_entry x).mp member
  rw [parent_of_entry found]
  cases parent : e.pprev with
  | none =>
    have low := (tree.root x e found parent).2
    rw [height_of_entry found,low] at high
    exact absurd high (lt_irrefl 0)
  | some p => exact ⟨p,rfl⟩

/-- At height zero stands the genesis block alone. -/
theorem parent_zero (member : x ∈ s.mapBlockIndex) (low : s.height x = 0) : s.parent x = none ∧ x = hashGenesisBlock := by
  obtain ⟨e,found⟩ := (s.mem_iff_entry x).mp member
  rw [parent_of_entry found]
  cases parent : e.pprev with
  | none => exact ⟨rfl,(tree.root x e found parent).1⟩
  | some p =>
    have higher := (tree.step ((parent_of_entry found).trans parent)).2
    omega

/-- Every chain goes down to the genesis block. -/
theorem descends_genesis (member : x ∈ s.mapBlockIndex) : Descends s.parent x hashGenesisBlock := by
  induction height : s.height x generalizing x with
  | zero => rw [(tree.parent_zero member height).2]; exact .refl
  | succ n ih =>
    obtain ⟨p,step⟩ := tree.exists_parent member (by omega)
    obtain ⟨inside,higher⟩ := tree.step step
    exact .head step (ih inside (by omega))

end BlockIndexTree

namespace MainChain
variable {s : ChainState} {x : uint256}

theorem onChain_mem (main : MainChain s) (on : OnChain s.parent s.pindexBest x) : x ∈ s.mapBlockIndex := by
  obtain ⟨t,tip,path⟩ := on
  induction path with
  | refl => exact main.best t tip
  | tail _ step _ => exact (main.step step).1

theorem genesis_onChain (main : MainChain s) (best : s.pindexBest ≠ none) : OnChain s.parent s.pindexBest hashGenesisBlock := by
  obtain ⟨t,tip⟩ := Option.ne_none_iff_exists'.mp best
  exact ⟨t,tip,main.descends_genesis (main.best t tip)⟩

theorem stepDown_onChain (main : MainChain s) {nHeight : Int} (positive : 0 ≤ nHeight) {fuel : Nat} (enough : s.height x ≤ fuel)
    (on : OnChain s.parent s.pindexBest x) :
    ∃ y, s.stepDown nHeight fuel x = some y ∧ OnChain s.parent s.pindexBest y ∧ (s.height y : Int) ≤ nHeight := by
  induction fuel generalizing x with
  | zero => exact ⟨x,stepDown_done (by omega),on,by omega⟩
  | succ fuel ih =>
    by_cases high : (s.height x : Int) > nHeight
    · obtain ⟨p,step⟩ := main.exists_parent (main.onChain_mem on) (by omega)
      have lower := (main.step step).2
      obtain ⟨y,went,there⟩ := ih (by omega) (on.up step)
      exact ⟨y,(stepDown_moved high step).trans went,there⟩
    · exact ⟨x,stepDown_done high,on,by omega⟩

/-- Where the loop down ends. -/
theorem stepDown_descends {nHeight : Int} {fuel : Nat} {y : uint256} (went : s.stepDown nHeight fuel x = some y) :
    Descends s.parent x y ∧ (s.height y : Int) ≤ nHeight := by
  induction fuel generalizing x with
  | zero =>
    rw [stepDown.eq_def] at went
    dsimp only at went
    split at went
    · contradiction
    · obtain rfl := Option.some.inj went
      exact ⟨.refl,by omega⟩
  | succ fuel ih =>
    by_cases high : (s.height x : Int) > nHeight
    · cases step : s.parent x with
      | none =>
        rw [stepDown.eq_def] at went
        simp [high,step] at went
      | some p =>
        obtain ⟨path,reached⟩ := ih ((stepDown_moved high step).symm.trans went)
        exact ⟨.head step path,reached⟩
    · obtain rfl := Option.some.inj ((stepDown_done high).symm.trans went)
      exact ⟨.refl,by omega⟩

/-- The loop up stays on the chain, wherever it ends. -/
theorem stepUp_stays (main : MainChain s) {nHeight : Int} {fuel : Nat} {y : uint256} (on : OnChain s.parent s.pindexBest x)
    (went : s.stepUp nHeight fuel x = some y) : OnChain s.parent s.pindexBest y := by
  induction fuel generalizing x with
  | zero =>
    rw [stepUp.eq_def] at went
    dsimp only at went
    split at went
    · contradiction
    · exact Option.some.inj went ▸ on
  | succ fuel ih =>
    by_cases lower : (s.height x : Int) < nHeight
    · cases next : s.next x with
      | none =>
        rw [stepUp.eq_def] at went
        simp [lower,next] at went
      | some k => exact ih ((main.linked x k).mp next).1 ((stepUp_moved lower next).symm.trans went)
    · exact Option.some.inj ((stepUp_done lower).symm.trans went) ▸ on

theorem stepUp_onChain (main : MainChain s) {t : uint256} (tip : s.pindexBest = some t) {nHeight : Int} (low : nHeight ≤ s.height t) {fuel : Nat}
    (enough : s.height t ≤ s.height x+fuel) (on : OnChain s.parent s.pindexBest x) (start : (s.height x : Int) ≤ nHeight) :
    ∃ y, s.stepUp nHeight fuel x = some y ∧ OnChain s.parent s.pindexBest y ∧ (s.height y : Int) = nHeight := by
  induction fuel generalizing x with
  | zero => exact ⟨x,stepUp_done (by omega),on,by omega⟩
  | succ fuel ih =>
    by_cases lower : (s.height x : Int) < nHeight
    · have other : t ≠ x := by
        rintro rfl
        omega
      rw [tip] at on
      obtain ⟨k,there,step⟩ := on.child other
      rw [← tip] at there
      have next : s.next x = some k := (main.linked x k).mpr ⟨there,step⟩
      have higher := (main.step step).2
      obtain ⟨y,went,found⟩ := ih (x := k) (by omega) there (by omega)
      exact ⟨y,(stepUp_moved lower next).trans went,found⟩
    · exact ⟨x,stepUp_done lower,on,by omega⟩

end MainChain

theorem nBestHeight_some {s : ChainState} {t : uint256} (tip : s.pindexBest = some t) : s.nBestHeight = s.height t := by
  rw [nBestHeight,tip]

theorem nBestHeight_none {s : ChainState} (tip : s.pindexBest = none) : s.nBestHeight = -1 := by
  rw [nBestHeight,tip]

section
variable {s : ChainState} (main : MainChain s) {last : Option uint256} (cached : ∀ x, last = some x → OnChain s.parent s.pindexBest x)
include main

/-- The block that the search starts from unless the cached one is nearer. -/
theorem MainChain.end_onChain {nHeight : Int} (low : 0 ≤ nHeight) {x : uint256}
    (starts : (if nHeight < s.nBestHeight.tdiv 2 then s.pindexGenesisBlock else s.pindexBest) = some x) : OnChain s.parent s.pindexBest x := by
  split at starts
  next lower =>
    have best : s.pindexBest ≠ none := by
      intro blank
      have none : (-1 : Int).tdiv 2 = 0 := by decide
      rw [nBestHeight_none blank,none] at lower
      omega
    rw [main.genesis best] at starts
    exact Option.some.inj starts ▸ main.genesis_onChain best
  · exact ⟨x,starts,.refl⟩

include cached

/-- What the search returns, whatever the height, is on the main chain. -/
theorem MainChain.find_onChain {fuel : Nat} {nHeight : Int} {b : uint256} (found : s.FindBlockByHeight fuel last nHeight = some b) :
    OnChain s.parent s.pindexBest b := by
  obtain ⟨x,starts,went⟩ := Option.bind_eq_some_iff.mp found
  obtain ⟨y,down,up⟩ := Option.bind_eq_some_iff.mp went
  obtain ⟨path,reached⟩ := stepDown_descends down
  refine main.stepUp_stays (OnChain.below ?_ path) up
  have there := main.end_onChain (by omega) starts
  cases last with
  | none => exact there
  | some last =>
    dsimp only
    split
    · exact cached last rfl
    · exact there

end

/-- On a main chain the search finds the one block of a height, wherever on the chain it
    starts. -/
theorem MainChain.FindBlockByHeight {s : ChainState} (main : MainChain s) {last : Option uint256}
    (cached : ∀ x, last = some x → OnChain s.parent s.pindexBest x) {nHeight : Int} (low : 0 ≤ nHeight) (high : nHeight ≤ s.nBestHeight) :
    ∃ b, OnChain s.parent s.pindexBest b ∧ (s.height b : Int) = nHeight ∧
      (∀ x, OnChain s.parent s.pindexBest x → (s.height x : Int) = nHeight → x = b) ∧
      ∀ fuel : Nat, s.nBestHeight ≤ fuel → s.FindBlockByHeight fuel last nHeight = some b := by
  obtain ⟨t,tip⟩ : ∃ t, s.pindexBest = some t := by
    cases tip : s.pindexBest with
    | none =>
      have none := nBestHeight_none tip
      omega
    | some t => exact ⟨t,rfl⟩
  rw [nBestHeight_some tip] at high ⊢
  have under : ∀ {x}, OnChain s.parent s.pindexBest x → s.height x ≤ s.height t := by
    rintro x ⟨t',tip',path⟩
    obtain rfl := Option.some.inj (tip.symm.trans tip')
    exact Descends.height_le main.falls path
  -- From a block of the chain the loops find the block of that height.
  have search : ∀ x, OnChain s.parent s.pindexBest x → ∀ fuel : Nat, s.height t ≤ fuel → ∃ b,
      ((s.stepDown nHeight fuel x).bind fun x => s.stepUp nHeight fuel x) = some b ∧
        OnChain s.parent s.pindexBest b ∧ (s.height b : Int) = nHeight := by
    intro x on fuel enough
    obtain ⟨y,down,there,reached⟩ := main.stepDown_onChain low ((under on).trans enough) on
    obtain ⟨b,up,found⟩ := main.stepUp_onChain tip high (enough.trans (Nat.le_add_left ..)) there reached
    exact ⟨b,by rw [down]; exact up,found⟩
  have alone : ∀ {x y}, OnChain s.parent s.pindexBest x → (s.height x : Int) = nHeight → OnChain s.parent s.pindexBest y →
      (s.height y : Int) = nHeight → x = y := by
    intro x y left atX right atY
    exact OnChain.unique main.falls left right (by omega)
  have best : OnChain s.parent s.pindexBest t := ⟨t,tip,.refl⟩
  obtain ⟨b,_,on,reached⟩ := search t best _ le_rfl
  refine ⟨b,on,reached,fun x there height => alone there height on reached,fun fuel enough => ?_⟩
  have finds : ∀ {x}, OnChain s.parent s.pindexBest x → ((s.stepDown nHeight fuel x).bind fun x => s.stepUp nHeight fuel x) = some b := by
    intro x there
    obtain ⟨b',found,on',height⟩ := search x there fuel (by omega)
    rw [found,alone on' height on reached]
  obtain ⟨x,start⟩ : ∃ x, (if nHeight < s.nBestHeight.tdiv 2 then s.pindexGenesisBlock else s.pindexBest) = some x := by
    split
    · exact ⟨hashGenesisBlock,main.genesis (by simp [tip])⟩
    · exact ⟨t,tip⟩
  have there := main.end_onChain low start
  rw [ChainState.FindBlockByHeight,start]
  cases last with
  | none => exact finds there
  | some last =>
    have from_last := cached last rfl
    dsimp only [Option.bind_eq_bind,Option.bind_some]
    split
    · exact finds from_last
    · exact finds there

section
variable {s : ChainState}

/-- `descend` ends below a block without passing an ancestor that is low enough. -/
theorem descend_passes {nHeight fuel : Nat} {plonger below : uint256}
    (descends : s.descend nHeight fuel plonger = some below) :
    s.height below ≤ nHeight ∧ ∀ x, Descends s.parent plonger x → s.height x ≤ nHeight → Descends s.parent below x := by
  induction fuel generalizing plonger with
  | zero =>
    rw [descend.eq_def] at descends
    dsimp only at descends
    split at descends
    · contradiction
    next low =>
      obtain rfl := Option.some.inj descends
      exact ⟨by omega,fun x path _ => path⟩
  | succ fuel ih =>
    rw [descend.eq_def] at descends
    dsimp only at descends
    split at descends
    next high =>
      cases step : s.parent plonger with
      | none =>
        rw [step] at descends
        contradiction
      | some p =>
        rw [step] at descends
        obtain ⟨low,passes⟩ := ih descends
        refine ⟨low,fun x path lower => passes x ?_ lower⟩
        rcases Relation.ReflTransGen.cases_head path with rfl | ⟨p',step',rest⟩
        · omega
        · obtain rfl := Option.some.inj (step.symm.trans step')
          exact rest
    next low =>
      obtain rfl := Option.some.inj descends
      exact ⟨by omega,fun x path _ => path⟩

/-- The fork is the last block that two chains share. -/
theorem findFork_lowest (falls : Falls s.parent s.height) {fuel : Nat} {pfork : Option uint256} {plonger : uint256} {fork : Option uint256}
    (forks : s.findFork fuel pfork plonger = some fork) {x : uint256} (left : OnChain s.parent pfork x) (right : Descends s.parent plonger x) :
    OnChain s.parent fork x := by
  induction fuel generalizing pfork plonger with
  | zero =>
    cases pfork with
    | none => exact absurd left (not_onChain_none x)
    | some pfork =>
      rw [findFork.eq_def] at forks
      dsimp only at forks
      split at forks
      · obtain rfl := Option.some.inj forks
        exact left
      split at forks
      · contradiction
      split at forks
      · obtain rfl := Option.some.inj forks
        exact left
      · contradiction
  | succ fuel ih =>
    cases pfork with
    | none => exact absurd left (not_onChain_none x)
    | some pfork =>
      rw [findFork.eq_def] at forks
      dsimp only at forks
      split at forks
      · obtain rfl := Option.some.inj forks
        exact left
      split at forks
      · contradiction
      next below down =>
        obtain ⟨_,same,path⟩ := id left
        obtain rfl := Option.some.inj same
        obtain ⟨low,passes⟩ := descend_passes down
        have path' := passes x right (Descends.height_le falls path)
        split at forks
        · obtain rfl := Option.some.inj forks
          exact left
        next other =>
          cases step : s.parent pfork with
          | none =>
            rw [step] at forks
            contradiction
          | some p =>
            rw [step] at forks
            -- The fork is lower, for the walk down would have met this block.
            have apart : pfork ≠ x := by
              rintro rfl
              have lower := Descends.height_lt falls path' (Ne.symm other)
              omega
            rcases (onChain_some pfork x).mp left with same | upper
            · exact absurd same.symm apart
            · rw [step] at upper
              exact ih forks upper path'

/-- A block that is to be connected is not on the chain that the fork was looked for on. -/
theorem branch_apart (falls : Falls s.parent s.height) {best : Option uint256} {fork : Option uint256} {pindexNew : uint256}
    (forks : s.findFork s.turns best pindexNew = some fork) {branch : List uint256}
    (up : walkTo s.parent fork s.turns (some pindexNew) = some branch) {x : uint256} (member : x ∈ branch) : ¬ OnChain s.parent best x := by
  intro on
  obtain ⟨_,same,path⟩ := (walkTo_onChain up x).mpr (.inl member)
  obtain rfl := Option.some.inj same
  obtain ⟨f,forked,above⟩ := findFork_lowest falls forks on path
  obtain ⟨under,other⟩ := walkTo_below up forked x member
  have lower := Descends.height_lt falls under other
  have upper := Descends.height_le falls above
  omega

end

/-- Two states whose entries are of the same blocks. -/
def Akin (s t : ChainState) : Prop := ∀ hash : uint256, (s.mapBlockIndex[hash]? = none ∧ t.mapBlockIndex[hash]? = none) ∨
  ∃ e e', s.mapBlockIndex[hash]? = some e ∧ t.mapBlockIndex[hash]? = some e' ∧ Kin e e'

section
variable {s t u : ChainState}

theorem Akin.of_entries (entries : t.mapBlockIndex = s.mapBlockIndex) : Akin s t := by
  intro hash
  rw [entries]
  cases found : s.mapBlockIndex[hash]? with
  | none => exact .inl ⟨rfl,rfl⟩
  | some e => exact .inr ⟨e,e,rfl,rfl,Kin.refl e⟩

theorem Akin.trans (first : Akin s t) (second : Akin t u) : Akin s u := by
  intro hash
  rcases first hash with ⟨absent,gone⟩ | ⟨e,e',there,kept,kin⟩
  · rcases second hash with ⟨_,gone'⟩ | ⟨_,_,there,_⟩
    · exact .inl ⟨absent,gone'⟩
    · rw [gone] at there
      contradiction
  · rcases second hash with ⟨gone,_⟩ | ⟨_,e'',again,last,kin'⟩
    · rw [kept] at gone
      contradiction
    · obtain rfl := Option.some.inj (kept.symm.trans again)
      exact .inr ⟨e,e'',there,last,kin.trans kin'⟩

theorem Akin.insert {hash : uint256} {e e' : IndexEntry} (found : s.mapBlockIndex[hash]? = some e) (kin : Kin e e')
    (entries : t.mapBlockIndex = s.mapBlockIndex.insert hash e') : Akin s t := by
  intro other
  rw [entries,entries_insert]
  split
  next same =>
    rw [← same,found]
    exact .inr ⟨e,e',rfl,rfl,kin⟩
  · exact Akin.of_entries (s := s) rfl other

theorem Akin.parent (akin : Akin s t) : t.parent = s.parent := by
  funext hash
  rw [ChainState.parent,ChainState.parent]
  rcases akin hash with ⟨absent,gone⟩ | ⟨e,e',there,kept,kin⟩
  · rw [absent,gone]
  · rw [there,kept]
    exact kin.pprev

theorem Akin.height (akin : Akin s t) : t.height = s.height := by
  funext hash
  rw [ChainState.height,ChainState.height]
  rcases akin hash with ⟨absent,gone⟩ | ⟨e,e',there,kept,kin⟩
  · rw [absent,gone]
  · rw [there,kept]
    exact kin.nHeight

theorem Akin.mem (akin : Akin s t) (hash : uint256) : hash ∈ t.mapBlockIndex ↔ hash ∈ s.mapBlockIndex := by
  rw [mem_iff_entry,mem_iff_entry]
  rcases akin hash with ⟨absent,gone⟩ | ⟨e,e',there,kept,_⟩
  · simp [absent,gone]
  · simp [there,kept]

theorem Akin.entry (akin : Akin s t) {hash : uint256} {e' : IndexEntry} (found : t.mapBlockIndex[hash]? = some e') :
    ∃ e, s.mapBlockIndex[hash]? = some e ∧ Kin e e' := by
  rcases akin hash with ⟨_,gone⟩ | ⟨e,_,there,kept,kin⟩
  · rw [found] at gone
    contradiction
  · obtain rfl := Option.some.inj (found.symm.trans kept)
    exact ⟨e,there,kin⟩

/-- Whether the blocks of a state stand as on a main chain does not depend on more than
    what akin states share. -/
theorem MainChain.of_akin (main : MainChain s) (akin : Akin s t) (best : ∀ b, t.pindexBest = some b → b ∈ s.mapBlockIndex)
    (coins : t.pcoinsTip.GetBestBlock = t.pindexBest) (linked : Linked s.parent t.next t.pindexBest)
    (genesis : t.pindexBest ≠ none → t.pindexGenesisBlock = some hashGenesisBlock) : MainChain t where
  named hash e' found := by
    obtain ⟨e,there,kin⟩ := akin.entry found
    rw [kin.hashBlock]
    exact main.named hash e there
  above hash e' p found parent := by
    obtain ⟨e,there,kin⟩ := akin.entry found
    rw [kin.pprev] at parent
    have step : s.parent hash = some p := (parent_of_entry there).trans parent
    obtain ⟨inside,higher⟩ := main.step step
    obtain ⟨pe,place⟩ := (t.mem_iff_entry p).mp ((akin.mem p).mpr inside)
    refine ⟨pe,place,?_⟩
    rw [← height_of_entry found,← height_of_entry place,akin.height]
    exact higher
  root hash e' found parent := by
    obtain ⟨e,there,kin⟩ := akin.entry found
    rw [kin.pprev] at parent
    rw [kin.nHeight]
    exact main.root hash e there parent
  best b tip := (akin.mem b).mpr (best b tip)
  coins := coins
  linked := by rw [akin.parent]; exact linked
  genesis := genesis

/-- A change that leaves the blocks, the links and the tip; the genesis block may become
    known. -/
structure Quiet (s t : ChainState) : Prop where
  akin : Akin s t
  next : t.next = s.next
  pindexBest : t.pindexBest = s.pindexBest
  pcoinsTip : t.pcoinsTip = s.pcoinsTip
  genesis : t.pindexGenesisBlock = s.pindexGenesisBlock ∨ t.pindexGenesisBlock = some hashGenesisBlock

theorem Quiet.refl (s : ChainState) : Quiet s s := ⟨.of_entries rfl,rfl,rfl,rfl,.inl rfl⟩

theorem Quiet.trans (first : Quiet s t) (second : Quiet t u) : Quiet s u where
  akin := first.akin.trans second.akin
  next := second.next.trans first.next
  pindexBest := second.pindexBest.trans first.pindexBest
  pcoinsTip := second.pcoinsTip.trans first.pcoinsTip
  genesis := by
    rcases second.genesis with same | found
    · rw [same]
      exact first.genesis
    · exact .inr found

theorem MainChain.quiet (main : MainChain s) (quiet : Quiet s t) : MainChain t := by
  refine main.of_akin quiet.akin (fun b tip => main.best b (quiet.pindexBest ▸ tip)) ?_ ?_ fun best => ?_
  · rw [quiet.pcoinsTip,quiet.pindexBest,main.coins]
  · rw [quiet.next,quiet.pindexBest]
    exact main.linked
  · rcases quiet.genesis with same | found
    · rw [same]
      exact main.genesis (quiet.pindexBest ▸ best)
    · exact found

/-- New marks of an entry. -/
theorem Quiet.insert {hash : uint256} {e e' : IndexEntry} (found : s.mapBlockIndex[hash]? = some e) (kin : Kin e e') (pnext : e'.pnext = e.pnext)
    (entries : t.mapBlockIndex = s.mapBlockIndex.insert hash e') (pindexBest : t.pindexBest = s.pindexBest) (pcoinsTip : t.pcoinsTip = s.pcoinsTip)
    (genesis : t.pindexGenesisBlock = s.pindexGenesisBlock ∨ t.pindexGenesisBlock = some hashGenesisBlock) : Quiet s t where
  akin := .insert found kin entries
  next := by
    funext other
    rw [ChainState.next,ChainState.next,entries,entries_insert]
    split
    next same => simp [← same,found,pnext]
    · rfl
  pindexBest := pindexBest
  pcoinsTip := pcoinsTip
  genesis := genesis

end

section
variable {rules : PoolRules} {world : Nat → Surroundings} {w : Surroundings} {s t : ChainState}

theorem ReadFromDisk_hash {env : Env} {pindex : IndexEntry} {block : CBlock} (reads : s.ReadFromDisk env w pindex = some block) :
    block.GetHash env = pindex.hashBlock := by
  rw [ReadFromDisk] at reads
  split at reads
  · contradiction
  · have named := (Option.filter_eq_some_iff.mp reads).2
    simpa using named

theorem connectedEntry_kin (env : Env) (w : Surroundings) (hash : uint256) (pindex : IndexEntry) (block : CBlock) (view : CCoinsViewCache) :
    let after := connectedEntry w hash pindex (block.ConnectBlock env w.ambient (w.disk hash) pindex.toCBlockIndex view false)
    Kin pindex after ∧ after.pnext = pindex.pnext := by
  have cases := block.ConnectBlock_entry env w.ambient (w.disk hash) pindex.toCBlockIndex view
  dsimp only at cases ⊢
  rcases cases with ⟨same,_⟩ | ⟨same,_⟩
  · rw [connectedEntry,same]
    exact ⟨⟨rfl,rfl,rfl,rfl,rfl,rfl,rfl,rfl⟩,rfl⟩
  · rw [connectedEntry,same]
    exact ⟨⟨rfl,rfl,rfl,rfl,rfl,rfl,rfl,rfl⟩,rfl⟩

theorem recordConnect_genesis (env : Env) (hash : uint256) (pindex : IndexEntry) (block : CBlock) (outcome : ConnectOutcome) :
    (s.recordConnect env w hash pindex block outcome).pindexGenesisBlock =
      if block.GetHash env = hashGenesisBlock ∧ outcome.result.isOk = true then some hash else s.pindexGenesisBlock := by
  obtain ⟨_,undo,_⟩ := outcome
  cases undo <;> unfold recordConnect <;> dsimp only <;> split <;> split <;> rfl

/-- Connecting blocks in a view leaves the tree, and finds the genesis block if it is
    among them. -/
theorem connectBlocks_quiet {blocks : List uint256} {view : CCoinsViewCache} {vDelete : List CTransaction}
    (named : ∀ (hash : uint256) e, s.mapBlockIndex[hash]? = some e → e.hashBlock = hash) {t : ChainState}
    {result : Except (uint256 × Reject) (CCoinsViewCache × List CTransaction)} (connects : connectBlocks rules w s view vDelete blocks = (t,result)) :
    Quiet s t ∧ (∀ hash e, result = .error (hash,e) → hash ∈ blocks) ∧
      ∀ view' gone, result = .ok (view',gone) → view'.GetBestBlock = (blocks.getLast?).or view.GetBestBlock ∧
        (∀ hash ∈ blocks, hash ∈ s.mapBlockIndex) ∧ (hashGenesisBlock ∈ blocks → t.pindexGenesisBlock = some hashGenesisBlock) := by
  induction blocks generalizing s view vDelete with
  | nil =>
    obtain ⟨rfl,rfl⟩ := Prod.mk.inj connects
    refine ⟨.refl _,fun _ _ fails => absurd fails (by simp),fun view' gone ok => ?_⟩
    obtain ⟨rfl,_⟩ := Prod.mk.inj (Except.ok.inj ok)
    exact ⟨rfl,by simp,by simp⟩
  | cons hash rest ih =>
    have first : hash ∈ hash :: rest := List.mem_cons_self ..
    have stops : ∀ {cause} (hash' : uint256) e, (Except.error (hash,cause) : Except (uint256 × Reject) (CCoinsViewCache × List CTransaction)) =
        .error (hash',e) → hash' ∈ hash :: rest := by
      intro cause hash' e fails
      obtain ⟨rfl,_⟩ := Prod.mk.inj (Except.error.inj fails)
      exact first
    rw [connectBlocks] at connects
    split at connects
    · obtain ⟨rfl,rfl⟩ := Prod.mk.inj connects
      exact ⟨.refl _,stops,fun _ _ ok => absurd ok (by simp)⟩
    next pindex found =>
      split at connects
      · obtain ⟨rfl,rfl⟩ := Prod.mk.inj connects
        exact ⟨.refl _,stops,fun _ _ ok => absurd ok (by simp)⟩
      next block reads =>
        have same : block.GetHash rules.env = hash := (ReadFromDisk_hash reads).trans (named hash pindex found)
        obtain ⟨kin,pnext⟩ := connectedEntry_kin rules.env w hash pindex block view
        generalize outcome_eq : block.ConnectBlock rules.env w.ambient (w.disk hash) pindex.toCBlockIndex view false = outcome at kin pnext connects
        dsimp only at connects
        obtain ⟨entries,_,best,tip,_⟩ := @recordConnect_fields w s rules.env hash pindex block outcome
        have genesis := @recordConnect_genesis w s rules.env hash pindex block outcome
        generalize s.recordConnect rules.env w hash pindex block outcome = s' at entries best tip genesis connects
        have recorded : Quiet s s' := by
          refine .insert found kin pnext entries best tip ?_
          rw [genesis]
          split
          next known => exact .inr (by rw [← same,known.1])
          · exact .inl rfl
        split at connects
        · obtain ⟨rfl,rfl⟩ := Prod.mk.inj connects
          exact ⟨recorded,stops,fun _ _ ok => absurd ok (by simp)⟩
        next view' connected =>
          have named' : ∀ (hash : uint256) e, s'.mapBlockIndex[hash]? = some e → e.hashBlock = hash := by
            intro other e' there
            obtain ⟨e,place,kin'⟩ := recorded.akin.entry there
            rw [kin'.hashBlock]
            exact named other e place
          obtain ⟨later,fails,ends⟩ := ih named' connects
          refine ⟨recorded.trans later,fun other e failed => List.mem_cons_of_mem _ (fails other e failed),fun last gone ok => ?_⟩
          obtain ⟨tip',known,found'⟩ := ends last gone ok
          refine ⟨?_,fun other member => ?_,fun member => ?_⟩
          · rw [← outcome_eq] at connected
            rw [tip',CBlock.ConnectBlock_best connected,named hash pindex found]
            cases rest with
            | nil => rfl
            | cons other rest => rw [List.getLast?_cons_cons,List.getLast?_cons]; rfl
          · rcases List.mem_cons.mp member with rfl | onwards
            · exact (s.mem_iff_entry other).mpr ⟨pindex,found⟩
            · exact (recorded.akin.mem other).mp (known other onwards)
          · rcases List.mem_cons.mp member with rfl | onwards
            · have now : s'.pindexGenesisBlock = some hashGenesisBlock := by
                rw [genesis,if_pos ⟨same,by rw [connected]; rfl⟩]
              rcases later.genesis with kept | found''
              · rw [kept,now]
              · exact found''
            · exact found' onwards

theorem setNext_akin (hash : uint256) (pnext : Option uint256) : Akin s (s.setNext hash pnext) := by
  rw [setNext]
  split
  · exact .of_entries rfl
  split
  · exact .of_entries rfl
  next found =>
    refine .insert found ?_ rfl
    exact ⟨rfl,rfl,rfl,rfl,rfl,rfl,rfl,rfl⟩

theorem setNext_next (closed : ∀ hash p, s.parent hash = some p → p ∈ s.mapBlockIndex) (hash : uint256) (pnext : Option uint256) :
    (s.setNext hash pnext).next = assignOne s.parent s.next hash pnext := by
  rw [setNext,assignOne]
  cases step : s.parent hash with
  | none => rfl
  | some p =>
    obtain ⟨e,found⟩ := (s.mem_iff_entry p).mp (closed hash p step)
    simp only [found]
    funext other
    simp only [next,setEntry,entries_insert]
    by_cases same : p = other
    · simp [same]
    · rw [if_neg same,Function.update_of_ne (Ne.symm same)]
      rfl

theorem setNext_fields (hash : uint256) (pnext : Option uint256) : (s.setNext hash pnext).pindexBest = s.pindexBest ∧
    (s.setNext hash pnext).pcoinsTip = s.pcoinsTip ∧ (s.setNext hash pnext).pindexGenesisBlock = s.pindexGenesisBlock := by
  rw [setNext]
  split
  · exact ⟨rfl,rfl,rfl⟩
  split
  · exact ⟨rfl,rfl,rfl⟩
  · exact ⟨rfl,rfl,rfl⟩

/-- Setting links changes nothing but links. -/
theorem foldl_setNext_links (closed : ∀ hash p, s.parent hash = some p → p ∈ s.mapBlockIndex) (value : uint256 → Option uint256)
    (hashes : List uint256) :
    let t := hashes.foldl (fun s hash => s.setNext hash (value hash)) s
    Akin s t ∧ t.next = assign s.parent value s.next hashes ∧ t.pindexBest = s.pindexBest ∧ t.pcoinsTip = s.pcoinsTip ∧
      t.pindexGenesisBlock = s.pindexGenesisBlock := by
  unfold assign
  induction hashes generalizing s with
  | nil => exact ⟨.of_entries rfl,rfl,rfl,rfl,rfl⟩
  | cons hash rest ih =>
    have akin := @setNext_akin s hash (value hash)
    obtain ⟨best,tip,genesis⟩ := @setNext_fields s hash (value hash)
    have closed' : ∀ other p, (s.setNext hash (value hash)).parent other = some p → p ∈ (s.setNext hash (value hash)).mapBlockIndex := by
      intro other p step
      rw [akin.parent] at step
      exact (akin.mem p).mpr (closed other p step)
    obtain ⟨akin',next,best',tip',genesis'⟩ := ih closed'
    rw [akin.parent,setNext_next closed] at next
    exact ⟨akin.trans akin',next,best'.trans best,tip'.trans tip,genesis'.trans genesis⟩

/-- Writing the coins of a view leaves its best block, whether they are flushed or not. -/
theorem handed_best (pcoinsTip view : CCoinsViewCache) {best : uint256} (tip : view.GetBestBlock = some best) :
    (pcoinsTip.BatchWrite view.cacheCoins view.GetBestBlock).GetBestBlock = some best ∧
      (FlushCoins (pcoinsTip.BatchWrite view.cacheCoins view.GetBestBlock)).GetBestBlock = some best := by
  rw [tip]
  exact ⟨rfl,rfl⟩

/-- The links after a switch lead along the chain of the new tip. -/
theorem finishSwitch_main (main : MainChain s) {pcoinsTip : CCoinsViewCache} {stop : Option uint256} {fuel fuel' : Nat} {pindexNew : uint256}
    {vDisconnect branch : List uint256} {vResurrect vDelete : List CTransaction} (coins : pcoinsTip.GetBestBlock = some pindexNew)
    (down : walkTo s.parent stop fuel s.pindexBest = some vDisconnect) (up : walkTo s.parent stop fuel' (some pindexNew) = some branch)
    (known : pindexNew ∈ s.mapBlockIndex) (genesis : s.pindexGenesisBlock = some hashGenesisBlock) :
    MainChain (finishSwitch rules w {s with pcoinsTip := pcoinsTip} pindexNew vDisconnect branch.reverse vResurrect vDelete) := by
  have closed : ∀ hash p, s.parent hash = some p → p ∈ s.mapBlockIndex := fun _ _ step => (main.step step).1
  have cleared := @foldl_setNext_links {s with pcoinsTip := pcoinsTip} closed (fun _ => none) vDisconnect
  dsimp only at cleared
  obtain ⟨akin,next,_,tip,first⟩ := cleared
  unfold finishSwitch
  dsimp only
  generalize vDisconnect.foldl (fun s hash => s.setNext hash none) {s with pcoinsTip := pcoinsTip} = t at akin next tip first ⊢
  have akin₀ : Akin s {s with pcoinsTip := pcoinsTip} := .of_entries rfl
  have parent : t.parent = s.parent := akin.parent.trans akin₀.parent
  have closed' : ∀ hash p, t.parent hash = some p → p ∈ t.mapBlockIndex := by
    intro hash p step
    rw [parent] at step
    exact (akin.mem p).mpr (closed hash p step)
  obtain ⟨akin',next',_,tip',first'⟩ := foldl_setNext_links closed' some branch.reverse
  have reversed : ∀ k, k ∈ branch.reverse ↔ k ∈ branch := fun _ => List.mem_reverse
  have moved := relink main.falls main.linked down up reversed
  have links : (branch.reverse.foldl (fun s hash => s.setNext hash (some hash)) t).next =
      assign s.parent some (assign s.parent (fun _ => none) s.next vDisconnect) branch.reverse := by
    rw [next',parent,next]
    rfl
  refine main.of_akin ((akin₀.trans (akin.trans akin')).trans (.of_entries rfl)) (fun b best => ?_) ?_ ?_ fun _ => ?_
  · obtain rfl := Option.some.inj best
    exact known
  · exact (congrArg CCoinsViewCache.GetBestBlock (tip'.trans tip)).trans coins
  · rw [← links] at moved
    exact moved
  · exact first'.trans (first.trans genesis)

theorem Quiet.look (world : Nat → Surroundings) : Quiet s (s.look world).2 := ⟨.of_entries rfl,rfl,rfl,rfl,.inl rfl⟩

theorem Quiet.writeIndex (env : Env) (e : IndexEntry) : Quiet s (s.writeIndex env e) := ⟨.of_entries rfl,rfl,rfl,rfl,.inl rfl⟩

theorem markFailed_quiet {env : Env} {failed : List uint256} {written : Bool} (marks : s.markFailed env w failed = (t,written)) : Quiet s t := by
  induction failed generalizing s with
  | nil =>
    obtain ⟨rfl,_⟩ := Prod.mk.inj marks
    exact .refl _
  | cons hash rest ih =>
    rw [markFailed] at marks
    split at marks
    · obtain ⟨rfl,_⟩ := Prod.mk.inj marks
      exact .refl _
    next pindex found =>
      dsimp only at marks
      have marked : Quiet s ((s.setEntry hash {pindex with BLOCK_FAILED_CHILD := true}).eraseValid hash {pindex with BLOCK_FAILED_CHILD := true}) := by
        refine .insert found ?_ ?_ rfl rfl rfl (.inl rfl)
        · exact ⟨rfl,rfl,rfl,rfl,rfl,rfl,rfl,rfl⟩
        · rfl
      split at marks
      · obtain ⟨rfl,_⟩ := Prod.mk.inj marks
        exact marked
      · exact (marked.trans (.writeIndex ..)).trans (ih marks)

/-- A failed block that is off the main chain is marked, and nothing is connected again. -/
theorem InvalidBlockFound_quiet {env : Env} {reconnect : ChainState → Option ChainState} {hash : uint256} (unlinked : s.next hash = none)
    {written : Bool} (marks : s.InvalidBlockFound env w reconnect hash = some (t,written)) : Quiet s t := by
  rw [InvalidBlockFound] at marks
  split at marks
  · contradiction
  next pindex found =>
    have last : pindex.pnext = none := by simpa [next,found] using unlinked
    have kin : Kin pindex {pindex with BLOCK_FAILED_VALID := true} := ⟨rfl,rfl,rfl,rfl,rfl,rfl,rfl,rfl⟩
    dsimp only at marks
    split at marks
    · obtain ⟨rfl,_⟩ := Prod.mk.inj (Option.some.inj marks)
      exact .insert found kin rfl rfl rfl rfl (.inl rfl)
    · rw [if_neg (by simp [last])] at marks
      obtain ⟨rfl,_⟩ := Prod.mk.inj (Option.some.inj marks)
      exact .insert found kin rfl rfl rfl rfl (.inl rfl)

/-- `SetBestChain` leads from main chain to main chain, and where it fails to the same. -/
theorem SetBestChain_main {reconnect : ChainState → Option ChainState} (main : MainChain s) (saves : (world s.calls).Saves) {pindexNew : uint256}
    {returned : Returned} (sets : s.SetBestChain rules world reconnect pindexNew = some returned) :
    MainChain returned.state ∧ (returned.result.isOk = false → Quiet s returned.state) := by
  have failed : ∀ {t e}, Quiet s t → some (Returned.mk t (.error e)) = some returned →
      MainChain returned.state ∧ (returned.result.isOk = false → Quiet s returned.state) := by
    intro t e quiet same
    obtain rfl := Option.some.inj same
    exact ⟨main.quiet quiet,fun _ => quiet⟩
  unfold SetBestChain at sets
  rw [look] at sets
  dsimp only at sets
  have start : Quiet s {s with calls := s.calls+1} := .look world
  have before := main.quiet start
  generalize looked : {s with calls := s.calls+1} = t at start before sets
  have sameTip : s.pcoinsTip = t.pcoinsTip := by rw [← looked]
  rw [sameTip] at sets
  clear looked sameTip
  generalize world _ = w at saves sets
  have atBest : CCoinsViewCache.GetBestBlock {base := t.pcoinsTip.toView} = t.pindexBest := before.coins
  split at sets
  · contradiction
  next pfork forks =>
    split at sets
    next vDisconnect branch down up =>
      split at sets
      next e _ =>
        split at sets
        · contradiction
        · exact failed start sets
      next view vResurrect disconnected =>
        have atFork : view.GetBestBlock = pfork := disconnectBlocks_best down disconnected
        rw [atBest] at forks down
        split at sets
        next s' hash e connected =>
          obtain ⟨quiet,fails,_⟩ := connectBlocks_quiet before.named connected
          have apart := branch_apart before.falls forks up (List.mem_reverse.mp (fails hash e rfl))
          split at sets
          · contradiction
          split at sets
          · obtain ⟨⟨s'',written⟩,marked,same⟩ := Option.map_eq_some_iff.mp sets
            refine failed (start.trans (quiet.trans (InvalidBlockFound_quiet ?_ marked))) (congrArg some same)
            rw [quiet.next]
            cases link : t.next hash with
            | none => rfl
            | some k =>
              obtain ⟨on,step⟩ := (before.linked hash k).mp link
              exact absurd (on.up step) apart
          · exact failed (start.trans quiet) sets
        next s' view' vDelete connected =>
          obtain ⟨quiet,_,ends⟩ := connectBlocks_quiet before.named connected
          obtain ⟨tip,known,genesis⟩ := ends view' vDelete rfl
          have after := before.quiet quiet
          -- The view ends at the new tip, whether any block was connected or not.
          have newTip : view'.GetBestBlock = some pindexNew ∧ pindexNew ∈ t.mapBlockIndex := by
            rw [tip,List.getLast?_reverse,atFork]
            by_cases stays : some pindexNew = pfork
            · rw [← stays,walkTo_self] at up
              obtain rfl := Option.some.inj up
              have on : OnChain t.parent t.pindexBest pindexNew := (walkTo_onChain down pindexNew).mpr (.inr ⟨pindexNew,stays.symm,.refl⟩)
              exact ⟨stays.symm,before.onChain_mem on⟩
            · obtain ⟨k,_,_,equal,_,rfl⟩ := walkTo_step up stays
              obtain rfl := Option.some.inj equal
              exact ⟨rfl,known pindexNew (List.mem_reverse.mpr (List.mem_cons_self ..))⟩
          have first : s'.pindexGenesisBlock = some hashGenesisBlock := by
            by_cases blank : t.pindexBest = none
            · -- The first chain is connected from its root.
              rw [blank,findFork.eq_def] at forks
              obtain rfl := Option.some.inj forks
              have on : OnChain t.parent (some pindexNew) hashGenesisBlock := ⟨pindexNew,rfl,before.descends_genesis newTip.2⟩
              rcases (walkTo_onChain up hashGenesisBlock).mp on with member | above
              · exact genesis (List.mem_reverse.mpr member)
              · exact absurd above (not_onChain_none _)
            · exact after.genesis (by rw [quiet.pindexBest]; exact blank)
          obtain ⟨handed,flushed⟩ := handed_best s'.pcoinsTip view' newTip.1
          have finish : ∀ pcoinsTip : CCoinsViewCache, pcoinsTip.GetBestBlock = some pindexNew →
              some ⟨finishSwitch rules w {s' with pcoinsTip := pcoinsTip} pindexNew vDisconnect branch.reverse vResurrect vDelete,.ok ()⟩ = some returned →
              MainChain returned.state ∧ (returned.result.isOk = false → Quiet s returned.state) := by
            intro pcoinsTip coins same
            obtain rfl := Option.some.inj same
            refine ⟨?_,fun fails => absurd fails (by simp [Except.isOk,Except.toBool])⟩
            refine @finishSwitch_main rules w s' after pcoinsTip pfork t.turns t.turns pindexNew vDisconnect branch vResurrect vDelete coins ?_ ?_ ?_ first
            · rw [quiet.akin.parent,quiet.pindexBest]
              exact down
            · rw [quiet.akin.parent]
              exact up
            · exact (quiet.akin.mem pindexNew).mpr newTip.2
          split at sets
          next flushes =>
            obtain ⟨space,sync,flush⟩ := saves (by simpa using flushes)
            rw [if_neg (by simp [space]),if_neg (by simp [sync]),if_neg (by simp [flush])] at sets
            exact finish _ flushed sets
          · exact finish _ handed sets
    · contradiction

/-- A block that arrives on a known one, or the genesis block. -/
theorem MainChain.addBlock {env : Env} (main : MainChain s) {block : CBlock} (pos : CDiskBlockPos) (fresh : block.GetHash env ∉ s.mapBlockIndex)
    (previous : block.GetHash env = hashGenesisBlock ∨ block.hashPrevBlock ∈ s.mapBlockIndex)
    (entries : t.mapBlockIndex = s.mapBlockIndex.insert (block.GetHash env) (s.newEntry (block.GetHash env) block pos))
    (pindexBest : t.pindexBest = s.pindexBest) (pcoinsTip : t.pcoinsTip = s.pcoinsTip) (genesis : t.pindexGenesisBlock = s.pindexGenesisBlock) :
    MainChain t ∧ ∀ x, OnChain s.parent s.pindexBest x → OnChain t.parent t.pindexBest x := by
  have unlinked : (s.newEntry (block.GetHash env) block pos).pnext = none := rfl
  have own : (s.newEntry (block.GetHash env) block pos).hashBlock = block.GetHash env := rfl
  -- What stands below the new block.
  have placed : (∃ pe, s.mapBlockIndex[block.hashPrevBlock]? = some pe ∧
        (s.newEntry (block.GetHash env) block pos).pprev = some block.hashPrevBlock ∧
        (s.newEntry (block.GetHash env) block pos).nHeight = pe.nHeight+1) ∨
      block.GetHash env = hashGenesisBlock ∧ (s.newEntry (block.GetHash env) block pos).pprev = none ∧
        (s.newEntry (block.GetHash env) block pos).nHeight = 0 := by
    cases found : s.mapBlockIndex[block.hashPrevBlock]? with
    | none =>
      refine .inr ⟨previous.resolve_right fun inside => ?_,by simp [newEntry,found],by simp [newEntry,found]⟩
      obtain ⟨e,there⟩ := (s.mem_iff_entry _).mp inside
      rw [found] at there
      contradiction
    | some pe => exact .inl ⟨pe,rfl,by simp [newEntry,found],by simp [newEntry,found]⟩
  generalize s.newEntry (block.GetHash env) block pos = new at *
  generalize block.GetHash env = hash at *
  have absent : s.mapBlockIndex[hash]? = none := ExtTreeMap.getElem?_eq_none fresh
  have elsewhere : ∀ other : uint256, other ∈ s.mapBlockIndex → t.mapBlockIndex[other]? = s.mapBlockIndex[other]? := by
    intro other inside
    rw [entries,entries_insert,if_neg]
    rintro rfl
    exact fresh inside
  have known : ∀ (other : uint256) e, s.mapBlockIndex[other]? = some e → t.mapBlockIndex[other]? = some e := by
    intro other e found
    rw [elsewhere other ((s.mem_iff_entry other).mpr ⟨e,found⟩),found]
  have lookup : ∀ (other : uint256) e, t.mapBlockIndex[other]? = some e → (other = hash ∧ e = new) ∨ s.mapBlockIndex[other]? = some e := by
    intro other e there
    rw [entries,entries_insert] at there
    split at there
    next same => exact .inl ⟨same.symm,(Option.some.inj there).symm⟩
    · exact .inr there
  have closed : ∀ k p, k ∈ s.mapBlockIndex → s.parent k = some p → p ∈ s.mapBlockIndex := fun k p _ step => (main.step step).1
  have same : ∀ k, k ∈ s.mapBlockIndex → t.parent k = s.parent k := by
    intro k inside
    rw [ChainState.parent,ChainState.parent,elsewhere k inside]
  refine ⟨⟨⟨fun other e there => ?_,fun other e p there parent => ?_,fun other e there parent => ?_⟩,fun b tip => ?_,?_,?_,?_⟩,?_⟩
  · rcases lookup other e there with ⟨rfl,rfl⟩ | old
    · exact own
    · exact main.named other e old
  · rcases lookup other e there with ⟨rfl,rfl⟩ | old
    · rcases placed with ⟨pe,found,prev,higher⟩ | ⟨_,root,_⟩
      · obtain rfl := Option.some.inj (prev.symm.trans parent)
        exact ⟨pe,known _ pe found,higher⟩
      · rw [root] at parent
        contradiction
    · obtain ⟨pe,found,higher⟩ := main.above other e p old parent
      exact ⟨pe,known p pe found,higher⟩
  · rcases lookup other e there with ⟨rfl,rfl⟩ | old
    · rcases placed with ⟨_,_,prev,_⟩ | ⟨first,_,low⟩
      · rw [prev] at parent
        contradiction
      · exact ⟨first,low⟩
    · exact main.root other e old parent
  · rw [entries]
    exact ExtTreeMap.mem_insert.mpr (.inr (main.best b (pindexBest ▸ tip)))
  · rw [pcoinsTip,pindexBest,main.coins]
  · have links : t.next = s.next := by
      funext other
      rw [ChainState.next,ChainState.next,entries,entries_insert]
      split
      next same => rw [← same,absent,Option.bind_none,Option.bind_some,unlinked]
      · rfl
    rw [links,pindexBest]
    exact main.linked.congr closed same main.best
  · rw [genesis,pindexBest]
    exact main.genesis
  · rintro x ⟨b,tip,path⟩
    exact ⟨b,pindexBest.trans tip,(descends_congr closed same (main.best b tip)).1.mpr path⟩

end

/-- What a node has done so far: the state it is in, with `pblockindexFBBHLast`. What
    `SetBestChain` meets outside is subject to `met`. -/
inductive History (rules : PoolRules) (met : Surroundings → Prop) (start : ChainState) : ChainState → Option uint256 → Prop
  /-- The process starts without a cached block. -/
  | start : History rules met start start none
  | find {s : ChainState} {last : Option uint256} (before : History rules met start s last) {fuel : Nat} {nHeight : Int} {b : uint256}
      (found : s.FindBlockByHeight fuel last nHeight = some b) : History rules met start s (some b)
  /-- `SetBestChain` takes the cached block away where it gets to its end. -/
  | reorganize {s : ChainState} {last : Option uint256} (before : History rules met start s last) {world : Nat → Surroundings}
      {reconnect : ChainState → Option ChainState} {pindexNew : uint256} {returned : Returned} (outside : met (world s.calls))
      (sets : s.SetBestChain rules world reconnect pindexNew = some returned) :
      History rules met start returned.state (if returned.result.isOk then none else last)
  /-- `AddToBlockIndex` makes an entry for a block that `AcceptBlock` lets in. -/
  | block {s : ChainState} {last : Option uint256} (before : History rules met start s last) {block : CBlock} {pos : CDiskBlockPos}
      {setBlockIndexValid : ExtTreeSet WorkKey} (fresh : block.GetHash rules.env ∉ s.mapBlockIndex)
      (previous : block.GetHash rules.env = hashGenesisBlock ∨ block.hashPrevBlock ∈ s.mapBlockIndex) :
      History rules met start {s.setEntry (block.GetHash rules.env) (s.newEntry (block.GetHash rules.env) block pos) with
        setBlockIndexValid := setBlockIndexValid} last
  /-- Marks, records and files. -/
  | other {s t : ChainState} {last : Option uint256} (before : History rules met start s last) (quiet : Quiet s t) : History rules met start t last

section
variable {rules : PoolRules} {start s : ChainState} {last : Option uint256}

/-- Every history keeps a main chain, with the cached block on it. -/
theorem History.main (main : MainChain start) (history : History rules Surroundings.Saves start s last) :
    MainChain s ∧ ∀ x, last = some x → OnChain s.parent s.pindexBest x := by
  induction history with
  | start => exact ⟨main,fun x cached => absurd cached (by simp)⟩
  | @find s last _ fuel nHeight b found ih =>
    obtain ⟨main,cached⟩ := ih
    refine ⟨main,fun x same => ?_⟩
    obtain rfl := Option.some.inj same
    exact main.find_onChain cached found
  | @reorganize s last _ world reconnect pindexNew returned outside sets ih =>
    obtain ⟨main,cached⟩ := ih
    obtain ⟨after,fails⟩ := SetBestChain_main main outside sets
    refine ⟨after,fun x same => ?_⟩
    split at same
    · contradiction
    next failed =>
      have quiet := fails (by simpa using failed)
      rw [quiet.akin.parent,quiet.pindexBest]
      exact cached x same
  | @block s last _ block pos valid fresh previous ih =>
    obtain ⟨main,cached⟩ := ih
    obtain ⟨after,stays⟩ := main.addBlock (t := {s.setEntry (block.GetHash rules.env) (s.newEntry (block.GetHash rules.env) block pos) with
      setBlockIndexValid := valid}) pos fresh previous rfl rfl rfl rfl
    exact ⟨after,fun x same => stays x (cached x same)⟩
  | @other s t last _ quiet ih =>
    obtain ⟨main,cached⟩ := ih
    refine ⟨main.quiet quiet,fun x same => ?_⟩
    rw [quiet.akin.parent,quiet.pindexBest]
    exact cached x same

/-- `FindBlockByHeight` is right after every history in which `SetBestChain`, where it has
    handed its view to `pcoinsTip`, also gets to its end. -/
theorem FindBlockByHeight_after (main : MainChain start) (history : History rules Surroundings.Saves start s last) {nHeight : Int}
    (low : 0 ≤ nHeight) (high : nHeight ≤ s.nBestHeight) :
    ∃ b, OnChain s.parent s.pindexBest b ∧ (s.height b : Int) = nHeight ∧
      (∀ x, OnChain s.parent s.pindexBest x → (s.height x : Int) = nHeight → x = b) ∧
      ∀ fuel : Nat, s.nBestHeight ≤ fuel → s.FindBlockByHeight fuel last nHeight = some b := by
  obtain ⟨after,cached⟩ := history.main main
  exact after.FindBlockByHeight cached low high

/-- `ConnectBestBlock` is such a history, whatever it switches to. -/
theorem ConnectBestBlock_history {met : Surroundings → Prop} {world : Nat → Surroundings} (outside : ∀ i, met (world i)) {fuel : Nat}
    {returned : Returned} (connects : ConnectBestBlock rules world fuel s = some returned) (history : History rules met start s last) :
    ∃ last, History rules met start returned.state last := by
  refine @ConnectBestBlock_along rules world s (fun s t => ∀ last, History rules met start s last → ∃ last, History rules met start t last)
    (fun _ last before => ⟨last,before⟩) (fun s t u first next last before => ?_) (fun s last before => ⟨last,before.other (.look world)⟩)
    (fun reconnect _ s pindexNew returned sets last before => ⟨_,before.reorganize (outside s.calls) sets⟩)
    (fun _ _ _ _ _ marks last before => ⟨last,before.other (markFailed_quiet marks)⟩) fuel returned connects last history
  obtain ⟨last',between⟩ := first last before
  exact next last' between

/-- So is `AddToBlockIndex`, on a block that `AcceptBlock` lets in. -/
theorem AddToBlockIndex_history {met : Surroundings → Prop} {world : Nat → Surroundings} (outside : ∀ i, met (world i)) {fuel : Nat}
    {block : CBlock} {pos : CDiskBlockPos} (previous : block.GetHash rules.env = hashGenesisBlock ∨ block.hashPrevBlock ∈ s.mapBlockIndex)
    {returned : Returned} (adds : s.AddToBlockIndex rules world fuel block pos = some returned) (history : History rules met start s last) :
    ∃ last, History rules met start returned.state last := by
  rw [AddToBlockIndex] at adds
  dsimp only at adds
  split at adds
  · obtain rfl := Option.some.inj adds
    exact ⟨last,history⟩
  next fresh =>
    have added := @History.block rules met start _ _ (history.other (.look world)) block pos
      (s.setBlockIndexValid.insert ⟨(s.newEntry (block.GetHash rules.env) block pos).nHeight,block.GetHash rules.env⟩) fresh previous
    rw [look] at adds added
    dsimp only at adds added
    split at adds
    · obtain rfl := Option.some.inj adds
      exact ⟨last,added⟩
    · have written := added.other (.writeIndex rules.env (s.newEntry (block.GetHash rules.env) block pos))
      split at adds
      · contradiction
      next connected =>
        have after := ConnectBestBlock_history outside connected written
        obtain rfl := Option.some.inj adds
        exact after
      next connected =>
        have after := ConnectBestBlock_history outside connected written
        obtain rfl := Option.some.inj adds
        exact after

end

/-- A node without blocks. -/
theorem start_main : MainChain {} := by
  refine ⟨⟨?_,?_,?_⟩,?_,rfl,linked_none,?_⟩
  · intro hash e found
    simp at found
  · intro hash e p found
    simp at found
  · intro hash e found
    simp at found
  · intro b tip
    simp at tip
  · intro best
    simp at best

/-! The genesis block and three blocks on it. When the first of these is connected the
block tree database cannot be synced; then the node switches to the third. -/

private def searchEnv : Env :=
  ⟨fun tx => tx.nLockTime,fun header => if header.hashPrevBlock = 0 then hashGenesisBlock else header.nTime,fun left right => left+right,
    fun _ _ _ _ _ => true,fun _ _ _ => true⟩
private def searchRules : PoolRules where
  env := searchEnv
  IsPushOnly _ := true
  HasCanonicalPushes _ := true
  IsStandard _ := true
  IsInputStandard _ _ _ := true
private def searchBlock (hashPrevBlock : uint256) (nTime : Nat) : CBlock :=
  ⟨⟨3,hashPrevBlock,nTime,nTime⟩,[⟨2,[⟨⟨0,nullIndex⟩,[1,5],nullIndex⟩],[⟨Cash.ofMoney (EUR,0),[]⟩],nTime,[]⟩],[],[]⟩
private def unsynced (call : Nat) : Surroundings := {ambient := ⟨1000,0⟩,SyncTree := decide (call ≠ 1)}
private def steady (_ : Nat) : Surroundings := {ambient := ⟨1000,0⟩}

private def arrive (s : ChainState) (block : CBlock) (nPos : Nat) : Option ChainState :=
  let s := {s with blkFiles := s.blkFiles.insert ⟨0,nPos⟩ block}
  if block.GetHash searchEnv ∉ s.mapBlockIndex ∧ (block.GetHash searchEnv = hashGenesisBlock ∨ block.hashPrevBlock ∈ s.mapBlockIndex) then
    some (s.setEntry (block.GetHash searchEnv) (s.newEntry (block.GetHash searchEnv) block ⟨0,nPos⟩))
  else none

private def switch (world : Nat → Surroundings) (s : ChainState) (pindexNew : uint256) : Option ChainState :=
  (s.SetBestChain searchRules world (fun _ => none) pindexNew).map Returned.state

/-- The state with the cached block after the search for the genesis block. -/
private def searched (world : Nat → Surroundings) (start : ChainState) : Option (ChainState × uint256) := do
  let s ← arrive start (searchBlock 0 50) 8
  let s ← switch world s hashGenesisBlock
  let s ← arrive s (searchBlock hashGenesisBlock 100) 9
  let s ← switch world s 100
  let s ← arrive s (searchBlock 100 101) 10
  let s ← arrive s (searchBlock 101 102) 11
  let s ← switch world s 102
  let b ← s.FindBlockByHeight 3 none 0
  some (s,b)

section
variable {met : Surroundings → Prop} {world : Nat → Surroundings} {start s t : ChainState}

private theorem arrive_history {block : CBlock} {nPos : Nat} (before : History searchRules met start s none) (arrives : arrive s block nPos = some t) :
    History searchRules met start t none := by
  rw [arrive] at arrives
  dsimp only at arrives
  split at arrives
  next placed =>
    obtain rfl := Option.some.inj arrives
    have written : Quiet s {s with blkFiles := s.blkFiles.insert ⟨0,nPos⟩ block} := ⟨.of_entries rfl,rfl,rfl,rfl,.inl rfl⟩
    exact (before.other written).block placed.1 placed.2
  · contradiction

private theorem switch_history (outside : ∀ i, met (world i)) {pindexNew : uint256} (before : History searchRules met start s none)
    (switches : switch world s pindexNew = some t) : History searchRules met start t none := by
  obtain ⟨returned,sets,rfl⟩ := Option.map_eq_some_iff.mp switches
  have after := before.reorganize (outside s.calls) sets
  rwa [ite_self] at after

private theorem searched_history (outside : ∀ i, met (world i)) {b : uint256} (searches : searched world start = some (s,b)) :
    History searchRules met start s (some b) := by
  obtain ⟨_,arrives,searches⟩ := Option.bind_eq_some_iff.mp searches
  have first := arrive_history (@History.start searchRules met start) arrives
  obtain ⟨_,switches,searches⟩ := Option.bind_eq_some_iff.mp searches
  have genesis := switch_history outside first switches
  obtain ⟨_,arrives,searches⟩ := Option.bind_eq_some_iff.mp searches
  have second := arrive_history genesis arrives
  obtain ⟨_,switches,searches⟩ := Option.bind_eq_some_iff.mp searches
  have third := switch_history outside second switches
  obtain ⟨_,arrives,searches⟩ := Option.bind_eq_some_iff.mp searches
  have fourth := arrive_history third arrives
  obtain ⟨_,arrives,searches⟩ := Option.bind_eq_some_iff.mp searches
  have fifth := arrive_history fourth arrives
  obtain ⟨_,switches,searches⟩ := Option.bind_eq_some_iff.mp searches
  have last := switch_history outside fifth switches
  obtain ⟨_,found,same⟩ := Option.bind_eq_some_iff.mp searches
  obtain ⟨rfl,rfl⟩ := Prod.mk.inj (Option.some.inj same)
  exact last.find found

end

private def places (found : ChainState × uint256) : List (Option uint256) :=
  [some found.2,found.1.pindexBest,found.1.next hashGenesisBlock,found.1.parent 100,found.1.parent 101,found.1.parent 102]
private def heights (found : ChainState × uint256) : List Nat := [found.1.height hashGenesisBlock,found.1.height 100,found.1.height 102]

private theorem exists_searched {world : Nat → Surroundings} {link : Option uint256}
    (runs : (searched world {}).map (fun found => (places found,heights found)) =
      some ([some hashGenesisBlock,some 102,link,some hashGenesisBlock,some 100,some 101],[0,1,3])) :
    ∃ s, searched world {} = some (s,hashGenesisBlock) ∧ s.pindexBest = some 102 ∧ s.next hashGenesisBlock = link ∧ s.height hashGenesisBlock = 0 ∧
      s.height 100 = 1 ∧ s.height 102 = 3 ∧ OnChain s.parent s.pindexBest 100 := by
  obtain ⟨⟨s,b⟩,searches,same⟩ := Option.map_eq_some_iff.mp runs
  simp only [places,heights,Prod.mk.injEq,List.cons.injEq,Option.some.injEq,and_true] at same
  obtain ⟨⟨rfl,best,next,_,below,above⟩,low,one,three⟩ := same
  exact ⟨s,searches,best,next,low,one,three,102,best,.head above (.single below)⟩

/-- The chain of the best block has a block at height 1, but the links do not lead there. -/
theorem search_leaves_chain : MainChain {} ∧ ∃ s, History searchRules (fun _ => True) {} s (some hashGenesisBlock) ∧ s.nBestHeight = 3 ∧
    OnChain s.parent s.pindexBest 100 ∧ s.height 100 = 1 ∧ ∀ fuel, s.FindBlockByHeight fuel (some hashGenesisBlock) 1 = none := by
  refine ⟨start_main,?_⟩
  obtain ⟨s,searches,best,next,low,one,three,on⟩ := @exists_searched unsynced none (by decide +kernel)
  refine ⟨s,searched_history (fun _ => trivial) searches,?_,on,one,fun fuel => ?_⟩
  · rw [nBestHeight_some best,three]
    rfl
  · have down : s.stepDown 1 fuel hashGenesisBlock = some hashGenesisBlock := stepDown_done (by rw [low]; decide)
    have up : s.stepUp 1 fuel hashGenesisBlock = none := by
      rw [stepUp.eq_def]
      cases fuel <;> simp [low,next]
    rw [ChainState.FindBlockByHeight,nBestHeight_some best,three,best]
    simp [low,three,down,up]

theorem FindBlockByHeight_after_sample : ∃ s, History searchRules Surroundings.Saves {} s (some hashGenesisBlock) ∧
    s.FindBlockByHeight 3 (some hashGenesisBlock) 1 = some 100 := by
  obtain ⟨s,searches,best,_,_,one,three,on⟩ := @exists_searched steady (some 100) (by decide +kernel)
  have tall : s.nBestHeight = 3 := by
    rw [nBestHeight_some best,three]
    rfl
  have history := @searched_history Surroundings.Saves steady {} s (fun _ _ => ⟨rfl,rfl,rfl⟩) _ searches
  obtain ⟨b,_,_,alone,finds⟩ := @FindBlockByHeight_after searchRules {} s _ start_main history 1 (by decide) (by rw [tall]; decide)
  rw [alone 100 on (by rw [one]; rfl)]
  exact ⟨s,history,finds 3 (by rw [tall]; rfl)⟩

end ChainState
end Tetra
