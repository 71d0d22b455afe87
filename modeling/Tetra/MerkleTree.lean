import Mathlib
import Tetra.PartialMerkle
import Tetra.Wrap

/-!
The merkle tree as a block keeps it: all rows one after another in one vector, which
branches are read from by offsets. Every branch leads to the root, and the root commits
to the transactions of a block without repeated ones.
-/
namespace Tetra
open PairTree Wrap

/-- A block with the tree that it keeps. -/
structure TreedBlock extends CBlock where
  vMerkleTree : List uint256

namespace TreedBlock

/-- The result of `int` arithmetic; an overflow has none. -/
def int (x : Int) : Option Int := if -2^31 ≤ x ∧ x < 2^31 then some x else none

/-- `vMerkleTree[k]` for an `int`; there is nothing outside of the vector. -/
def nodeAt (vMerkleTree : List uint256) (k : Int) : Option uint256 := do
  let k ← int k
  if k < 0 then none else vMerkleTree[k.toNat]?

section
variable (env : Env)

/-- The inner loop of `BuildMerkleTree` from `i` on. -/
def hashPairs (j nSize : Int) : Nat → Int → List uint256 → Option (List uint256)
  | 0, _, _ => none
  | fuel+1, i, vMerkleTree =>
    if i < nSize then do
      let i2 := min (i+1) (nSize-1)
      let left ← nodeAt vMerkleTree (j+i)
      let right ← nodeAt vMerkleTree (j+i2)
      let next ← int (i+2)
      hashPairs j nSize fuel next (vMerkleTree ++ [env.PairHash left right])
    else some vMerkleTree

/-- The outer loop of `BuildMerkleTree`. -/
def hashLevels : Nat → Int → Int → List uint256 → Option (List uint256)
  | 0, _, _, _ => none
  | fuel+1, j, nSize, vMerkleTree =>
    if nSize > 1 then do
      let vMerkleTree ← hashPairs env j nSize (nSize.toNat+1) 0 vMerkleTree
      let j ← int (j+nSize)
      let more ← int (nSize+1)
      hashLevels fuel j (more/2) vMerkleTree
    else some vMerkleTree

def BuildMerkleTree (block : TreedBlock) : Option (uint256 × TreedBlock) := do
  let vMerkleTree ← hashLevels env (block.vtx.length+1) 0 (sizeAsInt block.vtx.length) (block.vtx.map env.TxHash)
  return (vMerkleTree.getLast?.getD 0,{block with vMerkleTree := vMerkleTree})

/-- The loop of `GetMerkleBranch`; `nIndex^1` changes the last bit. -/
def branchNodes (vMerkleTree : List uint256) : Nat → Int → Int → Int → Option (List uint256)
  | 0, _, _, _ => none
  | fuel+1, j, nSize, nIndex =>
    if nSize > 1 then do
      let i := min (if nIndex%2 = 0 then nIndex+1 else nIndex-1) (nSize-1)
      let other ← nodeAt vMerkleTree (j+i)
      let j ← int (j+nSize)
      let more ← int (nSize+1)
      let rest ← branchNodes vMerkleTree fuel j (more/2) (nIndex/2)
      return other :: rest
    else some []

/-- `if (vMerkleTree.empty()) BuildMerkleTree();` -/
def filledTree (block : TreedBlock) : Option TreedBlock :=
  if block.vMerkleTree.isEmpty then (block.BuildMerkleTree env).map Prod.snd else some block

def GetMerkleBranch (block : TreedBlock) (nIndex : Int) : Option (List uint256 × TreedBlock) := do
  let block ← block.filledTree env
  let vMerkleBranch ← branchNodes block.vMerkleTree (block.vtx.length+1) 0 (sizeAsInt block.vtx.length) nIndex
  return (vMerkleBranch,block)

def climbBranch : uint256 → List uint256 → Int → uint256
  | hash, [], _ => hash
  | hash, otherside :: rest, nIndex =>
    climbBranch (if nIndex%2 = 1 then env.PairHash otherside hash else env.PairHash hash otherside) rest (nIndex/2)

def CheckMerkleBranch (hash : uint256) (vMerkleBranch : List uint256) (nIndex : Int) : uint256 :=
  if nIndex = -1 then 0 else climbBranch env hash vMerkleBranch nIndex

end

/-! ### The vector holds the rows -/

theorem int_eq {x : Int} (low : -2^31 ≤ x) (high : x < 2^31) : int x = some x := if_pos ⟨low,high⟩

theorem nodeAt_eq {vMerkleTree : List uint256} {k : Nat} {hash : uint256} (here : vMerkleTree[k]? = some hash) (small : k < 2^31) :
    nodeAt vMerkleTree (k : Int) = some hash := by
  rw [nodeAt,int_eq (by omega) (by omega)]
  simpa using here

section
variable (env : Env) {n : Nat} (leaf : Nat → uint256)

/-- From the `k`-th node of the row on: the loop reads the row below and adds the rest of this one. -/
theorem hashPairs_eq {h : Nat} (small : offset n (h+1)+1 < 2^31) (fuel : Nat) {k : Nat} (low : k ≤ width n (h+1)) (enough : width n (h+1) < fuel+k) :
    hashPairs env (offset n h) (width n h) fuel (k*2 : Nat) (flat env.PairHash leaf n h ++ (row env.PairHash leaf n (h+1)).take k) =
      some (flat env.PairHash leaf n (h+1)) := by
  have half := width_succ n h
  have upTo : offset n (h+1) = offset n h+width n h := rfl
  induction fuel generalizing k with
  | zero => omega
  | succ fuel ih =>
    rw [hashPairs]
    rcases Nat.lt_or_eq_of_le low with more | rfl
    · have left : k*2 < width n h := by omega
      have read {pos : Nat} (within : pos < width n h) :
          nodeAt (flat env.PairHash leaf n h ++ (row env.PairHash leaf n (h+1)).take k) (offset n h+pos : Nat) =
            some (node env.PairHash leaf n h pos) := by
        have here := flat_getElem? env.PairHash leaf n (le_refl h) within
        have inside := (List.getElem?_eq_some_iff.mp here).1
        exact nodeAt_eq (by rw [List.getElem?_append_left inside]; exact here) (by omega)
      have other : (offset n h : Int)+min ((k*2 : Nat)+1 : Int) (width n h-1) = (offset n h+min (k*2+1) (width n h-1) : Nat) := by omega
      have second : node env.PairHash leaf n h (min (k*2+1) (width n h-1)) =
          if k*2+1 < width n h then node env.PairHash leaf n h (k*2+1) else node env.PairHash leaf n h (k*2) := by
        by_cases joined : k*2+1 < width n h
        · rw [if_pos joined,Nat.min_eq_left (by omega)]
        · rw [if_neg joined,show min (k*2+1) (width n h-1) = k*2 by omega]
      have grown : (row env.PairHash leaf n (h+1)).take (k+1) =
          (row env.PairHash leaf n (h+1)).take k ++ [node env.PairHash leaf n (h+1) k] := by
        rw [List.take_add_one,row_getElem? _ _ _ more]
        rfl
      have rest := ih (show k+1 ≤ width n (h+1) by omega) (by omega)
      have next : ((k*2 : Nat)+2 : Int) = ((k+1)*2 : Nat) := by omega
      rw [grown,← List.append_assoc] at rest
      rw [if_pos (by omega)]
      dsimp only
      rw [other,← Nat.cast_add,read left,read (by omega),second,next,int_eq (by omega) (by omega)]
      exact rest
    · rw [if_neg (by omega),← row_length env.PairHash leaf,List.take_length]
      rfl

variable {top : Nat} (first : Top n top)
include first

theorem hashLevels_eq (small : offset n (top+1) < 2^31) (fuel : Nat) {h : Nat} (low : h ≤ top) (enough : top < fuel+h) :
    hashLevels env fuel (offset n h) (width n h) (flat env.PairHash leaf n h) = some (flat env.PairHash leaf n top) := by
  induction fuel generalizing h with
  | zero => omega
  | succ fuel ih =>
    rw [hashLevels]
    rcases Nat.lt_or_eq_of_le low with below | rfl
    · have wide := first.2 h below
      have under := (offset_succ_lt n first below).trans_lt small
      have upTo : offset n (h+1) = offset n h+width n h := rfl
      have added := hashPairs_eq env leaf under (width n h+1) (Nat.zero_le _) (by rw [width_succ]; omega)
      have rest := @ih (h+1) below (by omega)
      rw [List.take_zero,List.append_nil,Nat.zero_mul,Nat.cast_zero] at added
      rw [width_succ,Int.natCast_div] at rest
      rw [if_pos (by omega),Int.toNat_natCast,added,← Nat.cast_add,← upTo,int_eq (by omega) (by omega),int_eq (by omega) (by omega)]
      exact rest
    · rw [if_neg (by have := first.1; omega)]

/-- The branch of a node, up to the root. -/
theorem branchNodes_eq (small : offset n (top+1) < 2^31) (fuel : Nat) {h pos : Nat} (low : h ≤ top) (enough : top < fuel+h) (within : pos < width n h) :
    ∃ branch, branchNodes (flat env.PairHash leaf n top) fuel (offset n h) (width n h) pos = some branch ∧
      climbBranch env (node env.PairHash leaf n h pos) branch pos = node env.PairHash leaf n top 0 := by
  induction fuel generalizing h pos with
  | zero => omega
  | succ fuel ih =>
    rw [branchNodes]
    rcases Nat.lt_or_eq_of_le low with below | rfl
    · have wide := first.2 h below
      have under := (offset_succ_lt n first below).trans_lt small
      have upTo : offset n (h+1) = offset n h+width n h := rfl
      have beside := sibling_lt n within
      obtain ⟨branch,rest,climbs⟩ := @ih (h+1) (pos/2) below (by omega) (half_lt n within)
      have other : (offset n h : Int)+min (if (pos : Int)%2 = 0 then (pos : Int)+1 else pos-1) (width n h-1) = (offset n h+sibling n h pos : Nat) := by
        rw [sibling]
        split <;> split <;> omega
      refine ⟨node env.PairHash leaf n h (sibling n h pos) :: branch,?_,?_⟩
      · rw [width_succ,Int.natCast_div,Int.natCast_div] at rest
        rw [if_pos (by omega)]
        dsimp only
        rw [other,nodeAt_eq (flat_getElem? _ _ _ low beside) (by omega),← Nat.cast_add,← upTo,int_eq (by omega) (by omega),
          int_eq (by omega) (by omega)]
        exact congrArg (Option.bind · fun rest => some (node env.PairHash leaf n h (sibling n h pos) :: rest)) rest
      · rw [climbBranch,← climbs,← climb_node _ _ _ within,climb]
        congr 1
        split <;> split <;> first | rfl | omega
    · refine ⟨[],if_neg (by have := first.1; omega),?_⟩
      obtain rfl : pos = 0 := by have := first.1; omega
      rfl

end

/-! ### Branches lead to the root -/

variable (env : Env)

/-- What `BuildMerkleTree` leaves in the vector. -/
def rows (block : TreedBlock) (top : Nat) : List uint256 :=
  flat env.PairHash (CPartialMerkleTree.leaves (block.vtx.map env.TxHash)) block.vtx.length top

section
variable {env} {block : TreedBlock} (filled : block.vtx ≠ []) (few : block.vtx.length ≤ 2^30) {top : Nat} (first : Top block.vtx.length top)
include few first

theorem rows_small : offset block.vtx.length (top+1) < 2^31 := by
  have low := top_le_log _ few first
  have positive := Nat.two_pow_pos (30+1-(top+1))
  have upTo := offset_le _ few (show top+1 ≤ 30+1 by omega)
  omega

include filled

theorem BuildMerkleTree_eq : block.BuildMerkleTree env =
    some (block.toCBlock.BuildMerkleTree env,{block with vMerkleTree := rows env block top}) := by
  have long : (block.vtx.map env.TxHash).length = block.vtx.length := List.length_map ..
  have levels := hashLevels_eq env (CPartialMerkleTree.leaves (block.vtx.map env.TxHash)) first (rows_small few first) (block.vtx.length+1)
    (Nat.zero_le _) (by have := top_le _ first; omega)
  have bottom : flat env.PairHash (CPartialMerkleTree.leaves (block.vtx.map env.TxHash)) block.vtx.length 0 = block.vtx.map env.TxHash := by
    rw [← long]
    exact row_zero ..
  have root := @CPartialMerkleTree.merkleRoot_eq env (block.vtx.map env.TxHash) (by simpa using filled) top (long.symm ▸ first)
  rw [bottom,width_zero,show offset block.vtx.length 0 = 0 from rfl,Nat.cast_zero] at levels
  rw [long] at root
  rw [BuildMerkleTree,sizeAsInt_eq (show block.vtx.length < 2^31 by omega),levels,CBlock.BuildMerkleTree,root]
  simp only [Option.bind_eq_bind,Option.bind_some,flat_getLast? _ _ _ first (List.length_pos_iff.mpr filled)]
  rfl

theorem GetMerkleBranch_eq {member : List uint256} (kept : member = [] ∨ member = rows env block top) {i : Nat} {tx : CTransaction}
    (here : block.vtx[i]? = some tx) :
    ∃ branch, GetMerkleBranch env {block with vMerkleTree := member} i = some (branch,{block with vMerkleTree := rows env block top}) ∧
      CheckMerkleBranch env (env.TxHash tx) branch i = block.toCBlock.BuildMerkleTree env := by
  have built := @BuildMerkleTree_eq env {block with vMerkleTree := member} filled few top first
  have within : i < width block.vtx.length 0 := by
    rw [width_zero]
    exact (List.getElem?_eq_some_iff.mp here).1
  have long : (block.vtx.map env.TxHash).length = block.vtx.length := List.length_map ..
  have root := @CPartialMerkleTree.merkleRoot_eq env (block.vtx.map env.TxHash) (by simpa using filled) top (long.symm ▸ first)
  have hash : CPartialMerkleTree.leaves (block.vtx.map env.TxHash) i = env.TxHash tx := by simp [CPartialMerkleTree.leaves,here]
  obtain ⟨branch,read,climbs⟩ := branchNodes_eq env (CPartialMerkleTree.leaves (block.vtx.map env.TxHash)) first (rows_small few first)
    (block.vtx.length+1) (Nat.zero_le _) (by have := top_le _ first; omega) within
  have loaded : filledTree env {block with vMerkleTree := member} = some {block with vMerkleTree := rows env block top} := by
    rw [filledTree]
    rcases kept with rfl | rfl
    · rw [built]
      rfl
    · split
      · rw [built]
        rfl
      · rfl
  refine ⟨branch,?_,?_⟩
  · rw [width_zero,← sizeAsInt_eq (show block.vtx.length < 2^31 by omega),show offset block.vtx.length 0 = 0 from rfl,Nat.cast_zero] at read
    rw [GetMerkleBranch,loaded,Option.bind_eq_bind,Option.bind_some,rows,read]
    rfl
  · rw [CheckMerkleBranch,if_neg (by omega),CBlock.BuildMerkleTree,← long,root,long,← climbs,node,hash]

end

/-- For every transaction of the block, its branch leads to the root, whether the vector
    was filled before or is filled now. -/
def BranchesVerify (block : TreedBlock) : Prop :=
  ∃ root built, block.BuildMerkleTree env = some (root,built) ∧
    ∀ (i : Nat) (tx : CTransaction), block.vtx[i]? = some tx → ∀ kept ∈ [built,{block with vMerkleTree := []}],
      ∃ branch, kept.GetMerkleBranch env i = some (branch,built) ∧ CheckMerkleBranch env (env.TxHash tx) branch i = root

theorem branches_verify (block : TreedBlock) (filled : block.vtx ≠ []) (few : block.vtx.length ≤ 2^30) : block.BranchesVerify env := by
  obtain ⟨top,first⟩ := CPartialMerkleTree.exists_top (few.trans (by norm_num))
  refine ⟨_,_,BuildMerkleTree_eq filled few first,fun i tx here kept member => ?_⟩
  rcases List.mem_cons.mp member with rfl | member
  · exact GetMerkleBranch_eq filled few first (.inr rfl) here
  · obtain rfl := List.mem_singleton.mp member
    exact GetMerkleBranch_eq filled few first (.inl rfl) here

private def plainTx (id : Nat) : CTransaction := ⟨1,[],[],id,[]⟩
private def plainEnv (pair : uint256 → uint256 → uint256) : Env :=
  ⟨fun tx => tx.nLockTime,fun _ => 0,pair,fun _ _ _ _ _ => true,fun _ _ _ => true⟩
private def plainBlock (vtx : List CTransaction) : TreedBlock := ⟨⟨⟨3,0,10,50⟩,vtx,[],[]⟩,[]⟩

/-- Three transactions, the last one of which is joined with itself. -/
theorem branches_verify_three : (plainBlock [plainTx 3,plainTx 5,plainTx 9]).BranchesVerify (plainEnv Nat.pair) :=
  branches_verify (plainEnv Nat.pair) (plainBlock [plainTx 3,plainTx 5,plainTx 9]) (List.cons_ne_nil _ _) (by decide)

/-- A size that is negative as an `int` adds no row. -/
theorem crowded_alone {block : TreedBlock} (negative : sizeAsInt block.vtx.length < 0) (filled : block.vtx ≠ []) :
    block.BuildMerkleTree env = some ((block.vtx.map env.TxHash).getLast?.getD 0,{block with vMerkleTree := block.vtx.map env.TxHash}) ∧
    GetMerkleBranch env {block with vMerkleTree := block.vtx.map env.TxHash} 0 =
      some ([],{block with vMerkleTree := block.vtx.map env.TxHash}) := by
  have few : ¬sizeAsInt block.vtx.length > 1 := by omega
  have some : (block.vtx.map env.TxHash).isEmpty = false := by simpa using filled
  constructor
  · rw [BuildMerkleTree,hashLevels,if_neg few]
    rfl
  · rw [GetMerkleBranch,filledTree,some,if_neg Bool.false_ne_true,Option.bind_eq_bind,Option.bind_some,branchNodes,if_neg few]
    rfl

/-- `2^31` transactions are a negative number of them in an `int`: no row is added, so the
    last transaction is the root and the branches are empty. -/
theorem crowded_branches : ¬(plainBlock (plainTx 3 :: List.replicate (2^31-1) (plainTx 5))).BranchesVerify (plainEnv Nat.pair) := by
  generalize isLong : 2^31-1 = long
  have many : (plainBlock (plainTx 3 :: List.replicate long (plainTx 5))).vtx.length = 2^31 := by
    rw [plainBlock,List.length_cons,List.length_replicate]
    omega
  obtain ⟨answer,branch⟩ := crowded_alone (plainEnv Nat.pair) (many ▸ sizeAsInt_negative) (List.cons_ne_nil _ _)
  have last : (((plainBlock (plainTx 3 :: List.replicate long (plainTx 5))).vtx.map (plainEnv Nat.pair).TxHash).getLast?.getD 0) = 5 := by
    have filled : long ≠ 0 := by omega
    simp [plainBlock,plainTx,plainEnv,List.getLast?_cons,List.getLast?_replicate,filled]
  rintro ⟨root,built,answer',verify⟩
  rw [answer,last] at answer'
  obtain ⟨rfl,rfl⟩ := Prod.mk.inj (Option.some.inj answer')
  obtain ⟨branch',read,leads⟩ := verify 0 (plainTx 3) rfl _ (List.mem_cons_self ..)
  rw [Nat.cast_zero,branch] at read
  obtain ⟨rfl,_⟩ := Prod.mk.inj (Option.some.inj read)
  exact absurd leads (by decide)

/-! ### The root commits to the transactions -/

section
variable {env} {isLeaf : uint256 → Prop}

theorem merkleRoot_single (fuel : Nat) (hash : uint256) : CBlock.merkleRoot env fuel [hash] = hash := by
  cases fuel <;> rfl

theorem merkleRoot_wide (fuel : Nat) {hashes : List uint256} (wide : 1 < hashes.length) :
    CBlock.merkleRoot env (fuel+1) hashes = CBlock.merkleRoot env fuel (pairs env.PairHash hashes) := by
  match hashes, wide with
  | left :: right :: rest, _ =>
    rw [← CPartialMerkleTree.merkleLevel_eq]
    rfl

/-- The root stands above the row it is computed from, strictly so just when that has two values. -/
theorem merkleRoot_stands {fuel h : Nat} {hashes : List uint256} (filled : hashes ≠ []) (enough : hashes.length ≤ fuel+1)
    (each : ∀ hash ∈ hashes, Stands env.PairHash isLeaf h hash) :
    ∃ up, Stands env.PairHash isLeaf (h+up) (CBlock.merkleRoot env fuel hashes) ∧ (1 < hashes.length ↔ 0 < up) := by
  induction fuel generalizing h hashes with
  | zero =>
    obtain ⟨hash,rfl⟩ := List.length_eq_one_iff.mp (show hashes.length = 1 by have := List.length_pos_iff.mpr filled; omega)
    exact ⟨0,each hash (List.mem_singleton.mpr rfl),by simp⟩
  | succ fuel ih =>
    by_cases wide : 1 < hashes.length
    · have shorter := pairs_length env.PairHash hashes
      obtain ⟨up,stands,_⟩ := ih (pairs_ne_nil env.PairHash filled) (by omega) (pairs_stands each)
      rw [merkleRoot_wide fuel wide]
      exact ⟨up+1,by rwa [Nat.add_assoc,Nat.add_comm 1] at stands,fun _ => Nat.succ_pos up,fun _ => wide⟩
    · obtain ⟨hash,rfl⟩ := List.length_eq_one_iff.mp (show hashes.length = 1 by have := List.length_pos_iff.mpr filled; omega)
      exact ⟨0,each hash (List.mem_singleton.mpr rfl),by simp⟩

variable (injective : ∀ a b c d, env.PairHash a b = env.PairHash c d → a = c ∧ b = d)
include injective

/-- Rows of one height without repetitions and with one root are the same row: the root
    shows how high it stands, and a node joined with itself that a row ends there. -/
theorem merkleRoot_injective (apart : ∀ a b, ¬isLeaf (env.PairHash a b)) {fuel fuel' h : Nat} {hashes hashes' : List uint256}
    (filled : hashes ≠ []) (filled' : hashes' ≠ []) (enough : hashes.length ≤ fuel+1) (enough' : hashes'.length ≤ fuel'+1)
    (distinct : hashes.Nodup) (distinct' : hashes'.Nodup) (each : ∀ hash ∈ hashes, Stands env.PairHash isLeaf h hash)
    (each' : ∀ hash ∈ hashes', Stands env.PairHash isLeaf h hash)
    (same : CBlock.merkleRoot env fuel hashes = CBlock.merkleRoot env fuel' hashes') : hashes = hashes' := by
  induction isLong : hashes.length using Nat.strong_induction_on generalizing fuel fuel' h hashes hashes' with
  | _ long ih =>
    subst isLong
    obtain ⟨up,stands,wide⟩ := merkleRoot_stands filled enough each
    obtain ⟨up',stands',wide'⟩ := merkleRoot_stands filled' enough' each'
    have height : h+up = h+up' := stands_unique injective apart stands (same ▸ stands')
    have some := List.length_pos_iff.mpr filled
    have some' := List.length_pos_iff.mpr filled'
    by_cases more : 1 < hashes.length
    · have more' : 1 < hashes'.length := wide'.mpr (by have := wide.mp more; omega)
      obtain ⟨fuel,rfl⟩ : ∃ less, fuel = less+1 := ⟨fuel-1,by omega⟩
      obtain ⟨fuel',rfl⟩ : ∃ less, fuel' = less+1 := ⟨fuel'-1,by omega⟩
      have shorter := pairs_length env.PairHash hashes
      have shorter' := pairs_length env.PairHash hashes'
      rw [merkleRoot_wide fuel more,merkleRoot_wide fuel' more'] at same
      have above := ih _ (by omega) (pairs_ne_nil _ filled) (pairs_ne_nil _ filled') (by omega) (by omega) (pairs_nodup injective distinct)
        (pairs_nodup injective distinct') (pairs_stands each) (pairs_stands each') same rfl
      exact pairs_injective injective distinct distinct' above
    · have alone : ¬1 < hashes'.length := fun more' => more (wide.mpr (by have := wide'.mp more'; omega))
      obtain ⟨hash,rfl⟩ := List.length_eq_one_iff.mp (show hashes.length = 1 by omega)
      obtain ⟨hash',rfl⟩ := List.length_eq_one_iff.mp (show hashes'.length = 1 by omega)
      rw [merkleRoot_single,merkleRoot_single] at same
      rw [same]

/-- What `CheckBlock` has asked of a block when its test for repeated transactions is passed. -/
structure PassesDuplicateTest (env : Env) (block : CBlock) : Prop where
  filled : block.vtx ≠ []
  sized : block.vtx.length ≤ MAX_BLOCK_SIZE
  unique : (block.vtx.map env.TxHash).Nodup

omit injective in
theorem checkTransactions_within {vtx : List CTransaction} {reason : Reject} (refused : CBlock.checkTransactions vtx = .error reason) :
    ∃ cause, reason = .within "CheckBlock() : CheckTransaction failed" cause := by
  induction vtx with
  | nil => contradiction
  | cons tx rest ih =>
    rw [CBlock.checkTransactions] at refused
    split at refused
    next cause _ => exact ⟨cause,(Except.error.inj refused).symm⟩
    next => exact ih refused

omit injective in
/-- A block that is accepted, or turned down only by a later test, has passed it. -/
theorem CheckBlock_passes {ambient : Ambient} {block : CBlock} {fCheckMerkleRoot : Bool}
    (checked : block.CheckBlock env ambient fCheckMerkleRoot ∈ [.ok (),.error (.DoS 100 false "CheckBlock() : out-of-bounds SigOpCount"),
      .error (.DoS 100 false "CheckBlock() : hashMerkleRoot mismatch")]) : PassesDuplicateTest env block := by
  rw [CBlock.CheckBlock] at checked
  split at checked
  · simp at checked
  next limits =>
    rw [not_or,not_or] at limits
    have filled : block.vtx ≠ [] := by simpa using limits.1
    split at checked
    · simp [Reject.Invalid] at checked
    split at checked
    · simp at checked
    split at checked
    · simp at checked
    split at checked
    next reason refused =>
      obtain ⟨cause,rfl⟩ := checkTransactions_within refused
      simp at checked
    split at checked
    · simp at checked
    next unique => exact ⟨filled,by omega,not_not.mp unique⟩

/-- With an injective hash that gives no transaction's, blocks with one root have the same
    transactions. -/
theorem BuildMerkleTree_commits (apart : ∀ tx a b, env.TxHash tx ≠ env.PairHash a b) {block block' : TreedBlock}
    (passes : PassesDuplicateTest env block.toCBlock) (passes' : PassesDuplicateTest env block'.toCBlock) {root : uint256} {built built' : TreedBlock}
    (answer : block.BuildMerkleTree env = some (root,built)) (answer' : block'.BuildMerkleTree env = some (root,built')) :
    block.vtx.map env.TxHash = block'.vtx.map env.TxHash := by
  have few : MAX_BLOCK_SIZE ≤ 2^30 := by decide
  have rooted {block built : TreedBlock} (passes : PassesDuplicateTest env block.toCBlock) (answer : block.BuildMerkleTree env = some (root,built)) :
      CBlock.merkleRoot env block.vtx.length (block.vtx.map env.TxHash) = root := by
    have small := passes.sized.trans few
    obtain ⟨top,first⟩ := CPartialMerkleTree.exists_top (small.trans (by norm_num))
    rw [BuildMerkleTree_eq passes.filled small first] at answer
    exact (Prod.mk.inj (Option.some.inj answer)).1
  have leaves (block : TreedBlock) : ∀ hash ∈ block.vtx.map env.TxHash, Stands env.PairHash (fun hash => ∃ tx, env.TxHash tx = hash) 0 hash := by
    intro hash member
    obtain ⟨tx,_,rfl⟩ := List.mem_map.mp member
    exact ⟨tx,rfl⟩
  refine merkleRoot_injective injective (fun a b ⟨tx,same⟩ => apart tx a b same) (by simpa using passes.filled) (by simpa using passes'.filled)
    (by simp) (by simp) passes.unique passes'.unique (leaves block) (leaves block') ((rooted passes answer).trans (rooted passes' answer').symm)

end

private def paired (left right : Nat) : Nat := 2*Nat.pair left right+1
private def evenEnv : Env := ⟨fun tx => 2*tx.nLockTime,fun _ => 0,paired,fun _ _ _ _ _ => true,fun _ _ _ => true⟩

private theorem paired_injective (a b c d : Nat) (same : paired a b = paired c d) : a = c ∧ b = d := by
  rw [paired,paired] at same
  have codes : Nat.pair a b = Nat.pair c d := by omega
  exact Nat.pair_eq_pair.mp codes

private theorem paired_odd (tx : CTransaction) (a b : uint256) : evenEnv.TxHash tx ≠ paired a b := by
  have odd : (2*tx.nLockTime : Nat) ≠ 2*Nat.pair a b+1 := by omega
  exact odd

private def shownBlock (nTime : Nat) : TreedBlock := ⟨⟨⟨3,0,10,nTime⟩,[plainTx 3,plainTx 5,plainTx 9],[],[]⟩,[]⟩

/-- Two blocks with three transactions each. -/
theorem BuildMerkleTree_commits_three : (shownBlock 50).vtx.map evenEnv.TxHash = (shownBlock 60).vtx.map evenEnv.TxHash := by
  obtain ⟨top,first⟩ := @CPartialMerkleTree.exists_top 3 (by norm_num)
  have answer := @BuildMerkleTree_eq evenEnv (shownBlock 50) (List.cons_ne_nil _ _) (by decide) top first
  have answer' := @BuildMerkleTree_eq evenEnv (shownBlock 60) (List.cons_ne_nil _ _) (by decide) top first
  exact BuildMerkleTree_commits paired_injective paired_odd ⟨by decide,by decide,by decide⟩ ⟨by decide,by decide,by decide⟩ answer answer'

end TreedBlock

end Tetra
