import Mathlib
import Tetra.Bits
import Tetra.Block
import Tetra.PairTree
import Tetra.Serialize

/-!
Partial merkle trees: the part of a block's tree that shows some of its transactions, in
bits and hashes in preorder. What is built is read back, and no one can pass off another
transaction as one of the block.
-/
namespace Tetra
open Bits Codec PairTree

structure CPartialMerkleTree where
  nTransactions : Nat
  vBits : List Bool
  vHash : List uint256
  fBad : Bool
deriving DecidableEq

namespace CPartialMerkleTree

/-- In 32 bits. -/
def CalcTreeWidth (nTransactions height : Nat) : Nat := ((nTransactions+2^height-1)%2^32)/2^height

/-- The loop that looks for the top; the width at height 31 is at most 1. -/
def treeHeight : Nat → Nat → Nat → Nat
  | 0, _, nHeight => nHeight
  | fuel+1, nTransactions, nHeight => if CalcTreeWidth nTransactions nHeight > 1 then treeHeight fuel nTransactions (nHeight+1) else nHeight

section Traversals
variable (env : Env)

def CalcHash (nTransactions : Nat) (vTxid : List uint256) : Nat → Nat → uint256
  | 0, pos => vTxid[pos]?.getD 0
  | height+1, pos =>
    let left := CalcHash nTransactions vTxid height (pos*2)
    let right := if pos*2+1 < CalcTreeWidth nTransactions height then CalcHash nTransactions vTxid height (pos*2+1) else left
    env.PairHash left right

/-- Whether a match stands among the leaves from `pos << height` on. -/
def fParentOfMatch (nTransactions : Nat) (vMatch : List Bool) (height pos : Nat) : Bool :=
  let first := pos*2^height%2^32
  let last := min ((pos+1)*2^height%2^32) nTransactions
  (List.range' first (last-first)).any fun p => vMatch[p]?.getD false

def TraverseAndBuild (vTxid : List uint256) (vMatch : List Bool) : Nat → Nat → CPartialMerkleTree → CPartialMerkleTree
  | 0, pos, tree =>
    {tree with
      vBits := tree.vBits ++ [fParentOfMatch tree.nTransactions vMatch 0 pos]
      vHash := tree.vHash ++ [CalcHash env tree.nTransactions vTxid 0 pos]}
  | height+1, pos, tree =>
    let parent := fParentOfMatch tree.nTransactions vMatch (height+1) pos
    let tree := {tree with vBits := tree.vBits ++ [parent]}
    if !parent then {tree with vHash := tree.vHash ++ [CalcHash env tree.nTransactions vTxid (height+1) pos]}
    else
      let tree := TraverseAndBuild vTxid vMatch height (pos*2) tree
      if pos*2+1 < CalcTreeWidth tree.nTransactions height then TraverseAndBuild vTxid vMatch height (pos*2+1) tree else tree

/-- The constructor from the ids of a block and a mask. -/
def build (vTxid : List uint256) (vMatch : List Bool) : CPartialMerkleTree :=
  let nTransactions := vTxid.length%2^32
  TraverseAndBuild env vTxid vMatch (treeHeight 32 nTransactions 0) 0 ⟨nTransactions,[],[],false⟩

/-- What the extraction has used and found so far. -/
structure Extraction where
  nBitsUsed : Nat
  nHashUsed : Nat
  vMatch : List uint256
  fBad : Bool

/-- Uses the next stored hash; that of a matched leaf is a match. -/
def useHash (vHash : List uint256) (matched : Bool) (st : Extraction) : uint256 × Extraction :=
  match vHash[st.nHashUsed]? with
  | none => (0,{st with fBad := true})
  | some hash => (hash,{st with nHashUsed := st.nHashUsed+1,vMatch := if matched then st.vMatch ++ [hash] else st.vMatch})

def TraverseAndExtract (tree : CPartialMerkleTree) : Nat → Nat → Extraction → uint256 × Extraction
  | 0, _, st =>
    match tree.vBits[st.nBitsUsed]? with
    | none => (0,{st with fBad := true})
    | some bit => useHash tree.vHash bit {st with nBitsUsed := st.nBitsUsed+1}
  | height+1, pos, st =>
    match tree.vBits[st.nBitsUsed]? with
    | none => (0,{st with fBad := true})
    | some false => useHash tree.vHash false {st with nBitsUsed := st.nBitsUsed+1}
    | some true =>
      let (left,st) := TraverseAndExtract tree height (pos*2) {st with nBitsUsed := st.nBitsUsed+1}
      if pos*2+1 < CalcTreeWidth tree.nTransactions height then
        let (right,st) := TraverseAndExtract tree height (pos*2+1) st
        (env.PairHash left right,st)
      else (env.PairHash left left,st)

/-- Returns the root or 0, and leaves `vMatch` and the object. -/
def ExtractMatches (tree : CPartialMerkleTree) : uint256 × List uint256 × CPartialMerkleTree :=
  if tree.nTransactions = 0 then (0,[],tree)
  else if tree.nTransactions > MAX_BLOCK_SIZE/60 then (0,[],tree)
  else if tree.vHash.length > tree.nTransactions then (0,[],tree)
  else if tree.vBits.length < tree.vHash.length then (0,[],tree)
  else
    let (hashMerkleRoot,st) := TraverseAndExtract env tree (treeHeight 32 tree.nTransactions 0) 0 ⟨0,0,[],tree.fBad⟩
    let tree := {tree with fBad := st.fBad}
    if st.fBad then (0,st.vMatch,tree)
    else if (st.nBitsUsed+7)/8 ≠ (tree.vBits.length+7)/8 then (0,st.vMatch,tree)
    else if st.nHashUsed ≠ tree.vHash.length then (0,st.vMatch,tree)
    else (hashMerkleRoot,st.vMatch,tree)

end Traversals

def Serialize (tree : CPartialMerkleTree) : List UInt8 :=
  leBytes 4 tree.nTransactions ++ vectorForm (leBytes 32) tree.vHash ++ bytesForm (pack tree.vBits)

def Unserialize : Unserializer CPartialMerkleTree := do
  let nTransactions ← readUInt 4
  let vHash ← readVector (readUInt 32)
  let vBytes ← readBytes
  return ⟨nTransactions,unpack vBytes,vHash,false⟩

/-! ### The tree of the code -/

variable {n : Nat}

theorem CalcTreeWidth_eq (few : n ≤ 2^31) {h : Nat} (low : h ≤ 31) : CalcTreeWidth n h = width n h := by
  have fits : 2^h ≤ 2^31 := Nat.pow_le_pow_right (by decide) low
  rw [CalcTreeWidth,width,Nat.mod_eq_of_lt (by omega)]

/-- The fuel of the loop is enough. -/
theorem treeHeight_top (few : n ≤ 2^31) (fuel h : Nat) (low : fuel+h = 32) (below : ∀ l < h, 1 < width n l) : Top n (treeHeight fuel n h) := by
  induction fuel generalizing h with
  | zero =>
    have narrow := @width_le n 1 31 (by omega)
    have wide := below 31 (by omega)
    omega
  | succ fuel ih =>
    unfold treeHeight
    rw [CalcTreeWidth_eq few (by omega)]
    split
    next wide =>
      refine ih (h+1) (by omega) fun l lower => ?_
      rcases Nat.lt_succ_iff_lt_or_eq.mp lower with less | rfl
      · exact below l less
      · exact wide
    next narrow => exact ⟨Nat.le_of_not_lt narrow,below⟩

theorem top_low (few : n ≤ 2^31) {h : Nat} (top : Top n h) : h ≤ 31 := by
  by_contra high
  have narrow := @width_le n 1 31 (by omega)
  have wide := top.2 31 (by omega)
  omega

variable (env : Env)

/-- The leaves of the tree, by position. -/
abbrev leaves (vTxid : List uint256) : Nat → uint256 := fun pos => vTxid[pos]?.getD 0
abbrev chosen (vMatch : List Bool) : Nat → Bool := fun pos => vMatch[pos]?.getD false

theorem CalcHash_eq (few : n ≤ 2^31) (vTxid : List uint256) {h : Nat} (low : h ≤ 31) (pos : Nat) :
    CalcHash env n vTxid h pos = node env.PairHash (leaves vTxid) n h pos := by
  induction h generalizing pos with
  | zero => rfl
  | succ h ih => rw [CalcHash,node,CalcTreeWidth_eq few (by omega),ih (by omega),ih (by omega)]

theorem fParentOfMatch_eq (few : n ≤ 2^31) (vMatch : List Bool) {h pos : Nat} (low : h ≤ 31) (within : pos < width n h) :
    fParentOfMatch n vMatch h pos = parent n (chosen vMatch) h pos := by
  have start := (lt_width n).mp within
  have fits : 2^h ≤ 2^31 := Nat.pow_le_pow_right (by decide) low
  rw [fParentOfMatch,parent,under,Nat.mod_eq_of_lt (by omega),Nat.mod_eq_of_lt (by rw [Nat.succ_mul]; omega)]

/-- Building appends the marks and the stored nodes of the cut tree. -/
theorem TraverseAndBuild_eq (vTxid : List uint256) (vMatch : List Bool) {h pos : Nat} (low : h ≤ 31) (tree : CPartialMerkleTree)
    (few : tree.nTransactions ≤ 2^31) (within : pos < width tree.nTransactions h) :
    TraverseAndBuild env vTxid vMatch h pos tree =
      {tree with
        vBits := tree.vBits ++ marks tree.nTransactions (chosen vMatch) h pos
        vHash := tree.vHash ++ stored env.PairHash (leaves vTxid) tree.nTransactions (chosen vMatch) h pos} := by
  induction h generalizing pos tree with
  | zero => rw [TraverseAndBuild,fParentOfMatch_eq few vMatch low within,marks,stored,CalcHash_eq env few vTxid low]
  | succ h ih =>
    unfold TraverseAndBuild marks stored
    simp only [fParentOfMatch_eq few vMatch low within,CalcHash_eq env few vTxid low]
    cases kept : parent tree.nTransactions (chosen vMatch) (h+1) pos with
    | false => simp
    | true =>
      simp only [Bool.not_true,Bool.false_eq_true,if_false,if_true]
      rw [ih (by omega) {tree with vBits := tree.vBits ++ [true]} few (left_lt _ within),CalcTreeWidth_eq few (by omega)]
      by_cases right : pos*2+1 < width tree.nTransactions h
      · rw [if_pos right,if_pos right,if_pos right,ih (by omega) _ (by exact few) (by exact right)]
        simp
      · rw [if_neg right,if_neg right,if_neg right]
        simp

theorem next_drop {α : Type} {as rest : List α} {a : α} {k : Nat} (here : as.drop k = a :: rest) : as[k]? = some a ∧ as.drop (k+1) = rest := by
  constructor
  · rw [← Nat.add_zero k,← List.getElem?_drop,here]
    rfl
  · rw [← List.tail_drop,here]
    rfl

theorem skip_drop {α : Type} {as part rest : List α} {k : Nat} (here : as.drop k = part ++ rest) : as.drop (k+part.length) = rest := by
  rw [← List.drop_drop,here,List.drop_left]

theorem useHash_eq {vHash rest : List uint256} {hash : uint256} {st : Extraction} (here : vHash.drop st.nHashUsed = hash :: rest) (matched : Bool) :
    useHash vHash matched st = (hash,{st with nHashUsed := st.nHashUsed+1,vMatch := if matched then st.vMatch ++ [hash] else st.vMatch}) := by
  rw [useHash,(next_drop here).1]

/-- From where the marks and the stored nodes of a cut tree begin, extracting finds its
    root and the wanted leaves, and uses nothing else. -/
theorem TraverseAndExtract_eq {tree : CPartialMerkleTree} (few : tree.nTransactions ≤ 2^31) (leaf : Nat → uint256) (wanted : Nat → Bool)
    {h pos : Nat} (low : h ≤ 31) (within : pos < width tree.nTransactions h) {st : Extraction} {bits : List Bool} {hashes : List uint256}
    (marked : tree.vBits.drop st.nBitsUsed = marks tree.nTransactions wanted h pos ++ bits)
    (kept : tree.vHash.drop st.nHashUsed = stored env.PairHash leaf tree.nTransactions wanted h pos ++ hashes) :
    TraverseAndExtract env tree h pos st =
      (node env.PairHash leaf tree.nTransactions h pos,
        {st with
          nBitsUsed := st.nBitsUsed+(marks tree.nTransactions wanted h pos).length
          nHashUsed := st.nHashUsed+(stored env.PairHash leaf tree.nTransactions wanted h pos).length
          vMatch := st.vMatch ++ found leaf tree.nTransactions wanted h pos}) := by
  induction h generalizing pos st bits hashes with
  | zero =>
    rw [width_zero] at within
    have leafFound : found leaf tree.nTransactions wanted 0 pos = if wanted pos then [leaf pos] else [] := by
      rw [found,under_zero _ within,List.filter_singleton]
      cases wanted pos <;> rfl
    have mark : parent tree.nTransactions wanted 0 pos = wanted pos := by simp [parent,within]
    rw [marks,mark] at marked
    rw [stored] at kept
    rw [TraverseAndExtract,(next_drop marked).1,leafFound]
    refine (@useHash_eq _ _ _ {st with nBitsUsed := st.nBitsUsed+1} kept (wanted pos)).trans ?_
    cases wanted pos <;> simp [marks,stored,node]
  | succ h ih =>
    unfold marks at marked ⊢
    unfold stored at kept ⊢
    rw [TraverseAndExtract]
    cases parented : parent tree.nTransactions wanted (h+1) pos with
    | false =>
      rw [parented] at marked kept
      simp only [Bool.false_eq_true,if_false] at marked kept ⊢
      rw [(next_drop marked).1,found_cut leaf _ wanted parented]
      refine (@useHash_eq _ _ _ {st with nBitsUsed := st.nBitsUsed+1} kept false).trans ?_
      simp
    | true =>
      rw [parented] at marked kept
      simp only [if_true,List.cons_append,List.append_assoc] at marked kept ⊢
      obtain ⟨bit,below⟩ := next_drop marked
      have left := @ih (pos*2) (by omega) (left_lt _ within) {st with nBitsUsed := st.nBitsUsed+1} _ _ below kept
      rw [bit]
      simp only [left,CalcTreeWidth_eq few (show h ≤ 31 by omega)]
      by_cases right : pos*2+1 < width tree.nTransactions h
      · rw [if_pos right] at below kept
        have rest := @ih (pos*2+1) (by omega) right ⟨_,_,st.vMatch ++ found leaf tree.nTransactions wanted h (pos*2),st.fBad⟩ _ _
          (skip_drop below) (skip_drop kept)
        simp only [if_pos right,rest,node,found_succ]
        simp [Nat.add_assoc,Nat.add_comm 1]
      · simp only [if_neg right,node,found_succ,found_outside leaf _ wanted right]
        simp [Nat.add_assoc,Nat.add_comm 1]

/-- A tree that was cut off at its top, with bits left over in the last byte only. -/
theorem ExtractMatches_eq {tree : CPartialMerkleTree} (leaf : Nat → uint256) (wanted : Nat → Bool) {h : Nat} {bits : List Bool}
    (filled : 0 < tree.nTransactions) (few : tree.nTransactions ≤ MAX_BLOCK_SIZE/60) (top : Top tree.nTransactions h)
    (marked : tree.vBits = marks tree.nTransactions wanted h 0 ++ bits)
    (padded : ((marks tree.nTransactions wanted h 0).length+7)/8 = (tree.vBits.length+7)/8)
    (kept : tree.vHash = stored env.PairHash leaf tree.nTransactions wanted h 0) (good : tree.fBad = false) :
    ExtractMatches env tree = (node env.PairHash leaf tree.nTransactions h 0,found leaf tree.nTransactions wanted h 0,tree) := by
  have fewer : tree.nTransactions ≤ 2^31 := few.trans (by decide)
  have root : 0 < width tree.nTransactions h := (lt_width _).mpr (by omega)
  have same : treeHeight 32 tree.nTransactions 0 = h :=
    top_unique _ (treeHeight_top fewer 32 0 rfl fun l low => absurd low (Nat.not_lt_zero l)) top
  obtain ⟨marked',leaves'⟩ := stored_length env.PairHash leaf _ wanted h root
  rw [← kept] at marked' leaves'
  rw [under_top _ top,List.length_range] at leaves'
  have longer : tree.vHash.length ≤ tree.vBits.length := by
    rw [marked,List.length_append]
    omega
  have run := @TraverseAndExtract_eq env tree fewer leaf wanted h 0 (top_low fewer top) root ⟨0,0,[],tree.fBad⟩ bits [] marked
    (show tree.vHash.drop 0 = _ ++ [] by rw [List.append_nil]; exact kept)
  simp only [Nat.zero_add,List.nil_append,good] at run
  rw [ExtractMatches,if_neg (by omega),if_neg (by omega),if_neg (by omega),if_neg (by omega),same,good,run]
  simp only [Bool.false_eq_true,if_false]
  rw [if_neg (not_not.mpr padded),if_neg (not_not.mpr (by rw [kept]))]
  simp [← good]

/-! ### Over the wire -/

/-- What fits in a message. -/
structure Fits (tree : CPartialMerkleTree) : Prop where
  nTransactions : tree.nTransactions < 2^32
  vHash : tree.vHash.length ≤ MAX_SIZE ∧ ∀ hash ∈ tree.vHash, hash < 2^256
  vBits : (tree.vBits.length+7)/8 ≤ MAX_SIZE

theorem decodes_tree {tree : CPartialMerkleTree} (fits : tree.Fits) :
    Decodes Unserialize tree.Serialize {tree with vBits := unpack (pack tree.vBits),fBad := false} := by
  have number := @decodes_uint 4 tree.nTransactions fits.nTransactions
  have hashes := @decodes_vector _ (readUInt 32) (leBytes 32) tree.vHash fits.vHash.1 fun hash member =>
    decodes_uint (Nat.lt_of_lt_of_le (fits.vHash.2 hash member) (by norm_num))
  have bytes := @decodes_bytes (pack tree.vBits) (by rw [pack_length]; exact fits.vBits)
  rw [Serialize,List.append_assoc]
  exact number.bind (hashes.bind (bytes.return fun vBytes => (⟨tree.nTransactions,unpack vBytes,tree.vHash,false⟩ : CPartialMerkleTree)))

/-! ### The tree of a block -/

theorem merkleLevel_eq (hashes : List uint256) : CBlock.merkleLevel env hashes = pairs env.PairHash hashes := by
  induction hashes using pairs.induct with
  | case1 => rfl
  | case2 hash => rfl
  | case3 left right rest ih => rw [CBlock.merkleLevel,pairs,ih]

theorem merkleRoot_row (leaf : Nat → uint256) {top : Nat} (first : Top n top) (filled : 0 < n) (fuel h : Nat) (low : h ≤ top)
    (enough : top ≤ fuel+h) : CBlock.merkleRoot env fuel (row env.PairHash leaf n h) = node env.PairHash leaf n top 0 := by
  induction fuel generalizing h with
  | zero =>
    obtain rfl : h = top := by omega
    rw [row_top _ _ _ first filled]
    rfl
  | succ fuel ih =>
    rcases Nat.lt_or_eq_of_le low with below | rfl
    · have next := ih (h+1) below (by omega)
      have wide := first.2 h below
      rw [← pairs_row,← merkleLevel_eq] at next
      rw [← row_length env.PairHash leaf] at wide
      rw [← next]
      match row env.PairHash leaf n h,wide with
      | left :: right :: rest, _ => rfl
    · rw [row_top _ _ _ first filled]
      rfl

theorem merkleRoot_eq {vTxid : List uint256} (filled : vTxid ≠ []) {h : Nat} (top : Top vTxid.length h) :
    CBlock.merkleRoot env vTxid.length vTxid = node env.PairHash (leaves vTxid) vTxid.length h 0 := by
  have root := merkleRoot_row env (leaves vTxid) top (List.length_pos_iff.mpr filled) vTxid.length 0 (Nat.zero_le h) (top_le _ top)
  rwa [row_zero] at root

/-! ### What is built is read back -/

theorem found_eq {vTxid : List uint256} {vMatch : List Bool} (same : vMatch.length = vTxid.length) {h : Nat} (top : Top vTxid.length h) :
    found (leaves vTxid) vTxid.length (chosen vMatch) h 0 = ((vTxid.zip vMatch).filter Prod.snd).map Prod.fst := by
  have zipped : vTxid.zip vMatch = (List.range vTxid.length).map fun pos => (leaves vTxid pos,chosen vMatch pos) := by
    refine List.ext_getElem (by simp [same]) fun pos inside inside' => ?_
    rw [List.length_zip] at inside
    simp [leaves,chosen,show pos < vTxid.length by omega,show pos < vMatch.length by omega]
  rw [found,under_top _ top,zipped,List.filter_map,List.map_map]
  rfl

theorem few_lt {n : Nat} (few : n ≤ MAX_BLOCK_SIZE/60) : n ≤ 2^15 := few.trans (by decide)

/-- The tree built from the ids of a block. -/
theorem build_eq {vTxid : List uint256} (vMatch : List Bool) (filled : vTxid ≠ []) (few : vTxid.length ≤ 2^31) {h : Nat} (top : Top vTxid.length h) :
    build env vTxid vMatch = ⟨vTxid.length,marks vTxid.length (chosen vMatch) h 0,
      stored env.PairHash (leaves vTxid) vTxid.length (chosen vMatch) h 0,false⟩ := by
  have root : 0 < width vTxid.length h := (lt_width _).mpr (by rw [Nat.zero_mul]; exact List.length_pos_iff.mpr filled)
  have same : treeHeight 32 vTxid.length 0 = h :=
    top_unique _ (treeHeight_top few 32 0 rfl fun l low => absurd low (Nat.not_lt_zero l)) top
  rw [build,Nat.mod_eq_of_lt (by omega),same]
  exact TraverseAndBuild_eq env vTxid vMatch (top_low few top) ⟨vTxid.length,[],[],false⟩ few root

theorem exists_top {n : Nat} (few : n ≤ 2^31) : ∃ h, Top n h :=
  ⟨_,treeHeight_top few 32 0 rfl fun l low => absurd low (Nat.not_lt_zero l)⟩

theorem build_fits {vTxid : List uint256} (vMatch : List Bool) (hashes : ∀ left right, env.PairHash left right < 2^256)
    (ids : ∀ id ∈ vTxid, id < 2^256) (filled : vTxid ≠ []) (few : vTxid.length ≤ 2^20) : (build env vTxid vMatch).Fits := by
  obtain ⟨h,top⟩ := exists_top (few.trans (by decide))
  have root : 0 < width vTxid.length h := (lt_width _).mpr (by rw [Nat.zero_mul]; exact List.length_pos_iff.mpr filled)
  have low : h ≤ 20 := by
    by_contra high
    have narrow := @width_le vTxid.length 1 20 (by omega)
    have wide := top.2 20 (by omega)
    omega
  have kept := (stored_length env.PairHash (leaves vTxid) _ (chosen vMatch) h root).2
  have bits := marks_length vTxid.length (chosen vMatch) h 0
  have most : 2^(h+1) ≤ 2^21 := Nat.pow_le_pow_right (by decide) (by omega)
  have limit : 2^21 ≤ MAX_SIZE := by decide
  rw [under_top _ top,List.length_range] at kept
  rw [build_eq env vMatch filled (few.trans (by decide)) top]
  refine ⟨by simp only; omega,⟨by simp only; omega,?_⟩,by simp only; omega⟩
  refine mem_stored env.PairHash (leaves vTxid) _ (chosen vMatch) (fun pos inside => ?_) hashes h root
  rw [leaves,List.getElem?_eq_getElem inside,Option.getD_some]
  exact ids _ (List.getElem_mem inside)

/-- A partial tree of the ids of a block of allowed size, sent and received, shows the
    root of the block and the matched ids in their order. -/
theorem round_trip {vTxid : List uint256} {vMatch : List Bool} (hashes : ∀ left right, env.PairHash left right < 2^256)
    (ids : ∀ id ∈ vTxid, id < 2^256) (filled : vTxid ≠ []) (same : vMatch.length = vTxid.length) (few : vTxid.length ≤ MAX_BLOCK_SIZE/60) :
    ∃ tree, Unserialize (build env vTxid vMatch).Serialize = .ok (tree,[]) ∧
      (ExtractMatches env tree).1 = CBlock.merkleRoot env vTxid.length vTxid ∧
      (ExtractMatches env tree).2.1 = ((vTxid.zip vMatch).filter Prod.snd).map Prod.fst := by
  have small := few_lt few
  have fewer : vTxid.length ≤ 2^31 := by omega
  obtain ⟨h,top⟩ := exists_top fewer
  have read := decodes_tree (build_fits env vMatch hashes ids filled (by omega)) []
  rw [List.append_nil] at read
  refine ⟨_,read,?_⟩
  rw [build_eq env vMatch filled fewer top,unpack_pack,
    @ExtractMatches_eq env ⟨_,_,_,false⟩ (leaves vTxid) (chosen vMatch) h _ (List.length_pos_iff.mpr filled) few top rfl (by simp; omega) rfl rfl]
  exact ⟨(merkleRoot_eq env filled top).symm,found_eq same top⟩

theorem ExtractMatches_crowded {tree : CPartialMerkleTree} (many : MAX_BLOCK_SIZE/60 < tree.nTransactions) : (ExtractMatches env tree).1 = 0 := by
  rw [ExtractMatches,if_neg (by omega),if_pos many]

private def partialEnv (pair : uint256 → uint256 → uint256) : Env :=
  ⟨fun tx => tx.nLockTime,fun _ => 0,pair,fun _ _ _ _ _ => true,fun _ _ _ => true⟩
private def mixed (left right : uint256) : uint256 := (2*left+right+1)%2^256
private def fixed (_ _ : uint256) : uint256 := 1
private def paired (left right : uint256) : uint256 := Nat.pair left right+1

/-- Three transactions, the last two of them matched. -/
theorem round_trip_three : ∃ tree,
    Unserialize (build (partialEnv mixed) [3,5,9] [false,true,true]).Serialize = .ok (tree,[]) ∧
      (ExtractMatches (partialEnv mixed) tree).1 =
        CBlock.merkleRoot (partialEnv mixed) 3 [3,5,9] ∧
      (ExtractMatches (partialEnv mixed) tree).2.1 = [5,9] :=
  @round_trip (partialEnv mixed) [3,5,9] [false,true,true] (fun _ _ => Nat.mod_lt _ (by decide)) (by decide)
    (by decide) rfl (by decide)

/-- One id more than a block of transactions of 60 bytes can hold: the tree is refused. -/
theorem crowded_tree_refused : ¬∃ tree,
    Unserialize (build (partialEnv fixed) (List.replicate 16667 0) (List.replicate 16667 false)).Serialize = .ok (tree,[]) ∧
      (ExtractMatches (partialEnv fixed) tree).1 = CBlock.merkleRoot (partialEnv fixed) 16667 (List.replicate 16667 0) := by
  rintro ⟨tree,read,root⟩
  have long : (List.replicate 16667 (0 : uint256)).length = 16667 := List.length_replicate
  have few : (List.replicate 16667 (0 : uint256)).length ≤ 2^31 := by rw [long]; decide
  have filled : List.replicate 16667 (0 : uint256) ≠ [] := List.ne_nil_of_length_pos (by rw [long]; decide)
  have small : ∀ id ∈ List.replicate 16667 (0 : uint256), id < 2^256 := by
    intro id member
    rw [List.eq_of_mem_replicate member]
    decide
  obtain ⟨h,top⟩ := exists_top few
  have sent := decodes_tree (build_fits (partialEnv fixed) (List.replicate 16667 false)
    (fun _ _ => (by decide : 1 < 2^256)) small filled (by rw [long]; decide)) []
  rw [List.append_nil,read] at sent
  obtain ⟨rfl,_⟩ := Prod.mk.inj (Except.ok.inj sent)
  have real := merkleRoot_eq (partialEnv fixed) filled top
  rw [long] at real top
  rw [build_eq _ _ filled few (long.symm ▸ top),real] at root
  cases h with
  | zero =>
    have narrow := top.1
    rw [width_zero] at narrow
    omega
  | succ h =>
    rw [ExtractMatches_crowded _ (by simp only; rw [long]; decide)] at root
    exact absurd root Nat.zero_ne_one

/-! ### No other transaction passes -/

theorem useHash_match {vHash : List uint256} {matched : Bool} {st : Extraction} {id : uint256} (member : id ∈ (useHash vHash matched st).2.vMatch) :
    id ∈ st.vMatch ∨ (matched = true ∧ id = (useHash vHash matched st).1) := by
  unfold useHash at member ⊢
  split at member
  · exact .inl member
  next hash here =>
    cases matched with
    | false => exact .inl member
    | true =>
      rcases List.mem_append.mp member with before | new
      · exact .inl before
      · exact .inr ⟨rfl,List.mem_singleton.mp new⟩

/-- Whatever the bits and hashes are: where the hash of a node of the tree comes out, the
    matches found under it are leaves. -/
theorem TraverseAndExtract_sound {tree : CPartialMerkleTree} (injective : ∀ a b c d, env.PairHash a b = env.PairHash c d → a = c ∧ b = d)
    (few : tree.nTransactions ≤ 2^31) (leaf : Nat → uint256) {h pos : Nat} (low : h ≤ 31) (within : pos < width tree.nTransactions h)
    {st : Extraction} (same : (TraverseAndExtract env tree h pos st).1 = node env.PairHash leaf tree.nTransactions h pos) :
    ∀ id ∈ (TraverseAndExtract env tree h pos st).2.vMatch, id ∈ st.vMatch ∨ ∃ p < tree.nTransactions, id = leaf p := by
  induction h generalizing pos st with
  | zero =>
    rw [width_zero] at within
    intro id member
    unfold TraverseAndExtract at member same
    split at member
    · exact .inl member
    next bit here =>
      rw [here] at same
      rcases useHash_match member with before | ⟨_,equal⟩
      · exact .inl before
      · exact .inr ⟨pos,within,equal.trans same⟩
  | succ h ih =>
    intro id member
    unfold TraverseAndExtract at member same
    rw [node] at same
    split at member
    · exact .inl member
    next here =>
      rcases useHash_match member with before | ⟨cut,_⟩
      · exact .inl before
      · contradiction
    next here =>
      have left := @ih (pos*2) (by omega) (left_lt _ within) {st with nBitsUsed := st.nBitsUsed+1}
      rw [here] at same
      simp only [CalcTreeWidth_eq few (show h ≤ 31 by omega)] at member same
      by_cases right : pos*2+1 < width tree.nTransactions h
      · simp only [if_pos right] at member same
        obtain ⟨first,second⟩ := injective _ _ _ _ same
        rcases ih (by omega) right second id member with before | leaf
        · exact left first id before
        · exact .inr leaf
      · simp only [if_neg right] at member same
        exact left (injective _ _ _ _ same).1 id member

/-- A tree that is not refused: the checks passed, and the answer is that of the traversal. -/
theorem ExtractMatches_passed {tree : CPartialMerkleTree} (good : (ExtractMatches env tree).1 ≠ 0) :
    0 < tree.nTransactions ∧ tree.nTransactions ≤ MAX_BLOCK_SIZE/60 ∧
      (ExtractMatches env tree).1 = (TraverseAndExtract env tree (treeHeight 32 tree.nTransactions 0) 0 ⟨0,0,[],tree.fBad⟩).1 ∧
      (ExtractMatches env tree).2.1 = (TraverseAndExtract env tree (treeHeight 32 tree.nTransactions 0) 0 ⟨0,0,[],tree.fBad⟩).2.vMatch := by
  unfold ExtractMatches at good ⊢
  by_cases empty : tree.nTransactions = 0
  · simp [empty] at good
  by_cases many : tree.nTransactions > MAX_BLOCK_SIZE/60
  · simp [empty,many] at good
  by_cases extra : tree.vHash.length > tree.nTransactions
  · simp [empty,many,extra] at good
  by_cases short : tree.vBits.length < tree.vHash.length
  · simp [empty,many,extra,short] at good
  refine ⟨Nat.pos_of_ne_zero empty,Nat.le_of_not_lt many,?_⟩
  rw [if_neg empty,if_neg many,if_neg extra,if_neg short] at good ⊢
  generalize TraverseAndExtract env tree (treeHeight 32 tree.nTransactions 0) 0 ⟨0,0,[],tree.fBad⟩ = result at good ⊢
  obtain ⟨hash,st⟩ := result
  simp only at good ⊢
  split at good
  · contradiction
  next fine =>
    rw [if_neg fine]
    split at good
    · contradiction
    next used =>
      rw [if_neg used]
      split at good
      · contradiction
      next stored =>
        rw [if_neg stored]
        exact ⟨rfl,rfl⟩

/-- The ids that a partial tree shows under the root of a block are those of transactions
    of the block; 0 is no root, but the answer to a bad tree. -/
theorem matches_sound (injective : ∀ a b c d, env.PairHash a b = env.PairHash c d → a = c ∧ b = d) (block : CBlock) (tree : CPartialMerkleTree)
    (sized : tree.nTransactions = block.vtx.length) (root : (ExtractMatches env tree).1 = block.BuildMerkleTree env)
    (good : block.BuildMerkleTree env ≠ 0) : ∀ id ∈ (ExtractMatches env tree).2.1, ∃ tx ∈ block.vtx, env.TxHash tx = id := by
  intro id member
  obtain ⟨filled,limit,answer,shown⟩ := ExtractMatches_passed env (root ▸ good)
  have few : tree.nTransactions ≤ 2^31 := (few_lt limit).trans (by decide)
  have top := treeHeight_top few 32 0 rfl fun l low => absurd low (Nat.not_lt_zero l)
  have some : block.vtx.map env.TxHash ≠ [] := by
    intro none
    rw [List.map_eq_nil_iff] at none
    rw [sized,none] at filled
    contradiction
  have long : (block.vtx.map env.TxHash).length = tree.nTransactions := by rw [List.length_map,sized]
  have real := merkleRoot_eq env some (long.symm ▸ top)
  rw [long] at real
  rw [answer,CBlock.BuildMerkleTree,← sized,real] at root
  rw [shown] at member
  rcases TraverseAndExtract_sound env injective few _ (top_low few top) ((lt_width _).mpr (by omega)) root id member with before | ⟨p,inside,rfl⟩
  · contradiction
  · rw [← long] at inside
    rw [leaves,List.getElem?_eq_getElem inside,Option.getD_some]
    exact List.mem_map.mp (List.getElem_mem inside)

private def shownBlock (ids : List Nat) : CBlock := ⟨⟨3,0,10,50⟩,ids.map fun id => ⟨1,[],[],id,[]⟩,[],[]⟩

private theorem paired_injective (a b c d : uint256) (same : paired a b = paired c d) : a = c ∧ b = d := by
  have unpaired := congrArg Nat.unpair (Nat.succ.inj same)
  rw [Nat.unpair_pair,Nat.unpair_pair] at unpaired
  exact Prod.mk.inj unpaired

/-- The second of three transactions is shown. -/
theorem matches_sound_three : ∃ tx ∈ (shownBlock [3,5,9]).vtx, (partialEnv paired).TxHash tx = 5 :=
  matches_sound (partialEnv paired) paired_injective (shownBlock [3,5,9]) ⟨3,[true,true,false,true,false],[3,5,100],false⟩ rfl (by decide) (by decide)
    5 (by decide)

/-- The root of a single transaction with the id 0 is the answer to a tree with a byte of
    bits too many, which shows another id. -/
theorem refused_tree_shows :
    (∀ a b c d, paired a b = paired c d → a = c ∧ b = d) ∧
    (∀ tx ∈ (shownBlock [0]).vtx, ∀ left right, (partialEnv paired).TxHash tx ≠ paired left right) ∧
    ((shownBlock [0]).vtx.map (partialEnv paired).TxHash).Nodup ∧
    (ExtractMatches (partialEnv paired) ⟨1,List.replicate 9 true,[5],false⟩).1 =
      (shownBlock [0]).BuildMerkleTree (partialEnv paired) ∧
    (ExtractMatches (partialEnv paired) ⟨1,List.replicate 9 true,[5],false⟩).2.1 = [5] ∧
    ¬∃ tx ∈ (shownBlock [0]).vtx, (partialEnv paired).TxHash tx = 5 := by
  refine ⟨paired_injective,?_,by decide,by decide,by decide,by decide⟩
  intro tx member left right
  obtain rfl := List.mem_singleton.mp member
  exact (Nat.succ_ne_zero _).symm

end CPartialMerkleTree

end Tetra
