import Mathlib
import Tetra.ConnectBest
import Tetra.Srges

/-!
What `GetBlockValue` makes of a chain. It was to add up what the signers of a block and its
nearest ancestors are trusted with.
-/
namespace Tetra

namespace srges

/-- The constants of `valueFPbk`, before they are turned into its `bool` result. -/
def valueFPbk (test : CPubKey) : Int := if test == RPBK then 2000000 else if test == secondPbk then 1500000 else 0

/-- What a signer is trusted with: the value of a known key, or else its rank. -/
def trustValue (s : srges) (cpbk : CPubKey) : Int := if valueFPbk cpbk ≤ 0 then (s.FindRank cpbk : Int) else valueFPbk cpbk

theorem trustValue_nonneg (s : srges) (cpbk : CPubKey) : 0 ≤ s.trustValue cpbk := by
  rw [trustValue]
  split
  · exact Int.natCast_nonneg _
  · omega

end srges

/-- A block of the index, and what a call finds when it reads it: the key in the block on
    disk, and what its variable `value` holds before it is set. -/
structure ReadBlock where
  pindex : IndexEntry
  cpbk : CPubKey
  uninitialised : Int

namespace ReadBlock

def nPos (cbi : ReadBlock) : Nat := ((cbi.pindex.GetBlockPos).map CDiskBlockPos.nPos).getD 0

/-- `value` after the condition and its branch: the condition assigns the truth of
    `valueFPbk(tb.cpbk) && value <= 0`. -/
def value (srgesProto : srges) (cbi : ReadBlock) : Int :=
  if srges.valueFPbk cbi.cpbk ≠ 0 ∧ cbi.uninitialised ≤ 0 then (srgesProto.FindRank cbi.cpbk : Int) else 0

/-- The call returns 0 here: `value + cbdiskpos.nPos == 0`. -/
def Ends (srgesProto : srges) (cbi : ReadBlock) : Prop := cbi.value srgesProto+cbi.nPos = 0

instance endsDecidable (srgesProto : srges) (cbi : ReadBlock) : Decidable (cbi.Ends srgesProto) :=
  inferInstanceAs (Decidable (cbi.value srgesProto+cbi.nPos = 0))

end ReadBlock

/-- `GetBlockValue` of a block, which comes first, and its ancestors, with the number of
    blocks that it visits. The sum is the condition of the last line, and `r--` hands `r`
    on as it is. -/
def CBlockIndex.GetBlockValue (srgesProto : srges) (r : Int) : List ReadBlock → Int × Nat
  | [] => (0,0)
  | cbi :: ancestors =>
    if r < 0 then (0,0)
    else if ancestors = [] ∧ cbi.pindex.nHeight ≠ 0 then (0,1)
    else if cbi.Ends srgesProto then (0,1)
    else ((GetBlockValue srgesProto r ancestors).1,(GetBlockValue srgesProto r ancestors).2+1)

namespace CBlockIndex

variable (srgesProto : srges) (r : Int) (chain : List ReadBlock)

/-- What the signers of a block and its `r` nearest ancestors are trusted with. -/
def trustSum : Int := ((chain.take (r+1).toNat).map fun cbi => srgesProto.trustValue cbi.cpbk).sum

theorem GetBlockValue_zero : (GetBlockValue srgesProto r chain).1 = 0 := by
  induction chain with
  | nil => rfl
  | cons cbi ancestors ih =>
    rw [GetBlockValue]
    split
    · rfl
    split
    · rfl
    split
    · rfl
    · exact ih

theorem trustSum_eq_zero_iff :
    trustSum srgesProto r chain = 0 ↔ ∀ cbi ∈ chain.take (r+1).toNat, srgesProto.trustValue cbi.cpbk = 0 := by
  rw [trustSum]
  induction chain.take (r+1).toNat with
  | nil => simp
  | cons cbi rest ih =>
    have first := srgesProto.trustValue_nonneg cbi.cpbk
    have others : 0 ≤ (rest.map fun cbi => srgesProto.trustValue cbi.cpbk).sum := by
      refine List.sum_nonneg fun value member => ?_
      obtain ⟨other,_,rfl⟩ := List.mem_map.mp member
      exact srgesProto.trustValue_nonneg other.cpbk
    rw [List.map_cons,List.sum_cons,List.forall_mem_cons,← ih]
    omega

/-- The walk is over within `n` blocks if the chain is, or if one of them ends it. -/
theorem visits_le_iff {r : Int} (deep : ¬r < 0) (n : Nat) :
    (GetBlockValue srgesProto r chain).2 ≤ n ↔ chain.length ≤ n ∨ ∃ cbi ∈ chain.take n, cbi.Ends srgesProto := by
  induction chain generalizing n with
  | nil => simp [GetBlockValue]
  | cons cbi ancestors ih =>
    rw [GetBlockValue,if_neg deep]
    cases n with
    | zero =>
      have visited : ¬(if ancestors = [] ∧ cbi.pindex.nHeight ≠ 0 then ((0 : Int),1) else if cbi.Ends srgesProto then (0,1)
          else ((GetBlockValue srgesProto r ancestors).1,(GetBlockValue srgesProto r ancestors).2+1)).2 ≤ 0 := by
        split
        · omega
        split
        · omega
        · omega
      simp only [visited,false_iff,List.take_zero,List.not_mem_nil,false_and,exists_false,or_false]
      exact Nat.not_succ_le_zero _
    | succ n =>
      rw [List.take_succ_cons,List.exists_mem_cons_iff,List.length_cons]
      split
      next root =>
        obtain ⟨rfl,_⟩ := root
        simp
      split
      next ends => simp [ends]
      next goesOn =>
        rw [Nat.add_le_add_iff_right,ih n,Nat.add_le_add_iff_right]
        simp only [goesOn,false_or]

/-- The value is always 0, so it is the sum exactly where no signer is trusted with
    anything; and the walk is as short as it should be exactly where the chain is, or where
    something else ends it. -/
theorem GetBlockValue_exact_iff :
    ((GetBlockValue srgesProto r chain).1 = trustSum srgesProto r chain ∧ (GetBlockValue srgesProto r chain).2 ≤ (r+1).toNat) ↔
      (∀ cbi ∈ chain.take (r+1).toNat, srgesProto.trustValue cbi.cpbk = 0) ∧
        (r < 0 ∨ chain.length ≤ (r+1).toNat ∨ ∃ cbi ∈ chain.take (r+1).toNat, cbi.Ends srgesProto) := by
  rw [GetBlockValue_zero,eq_comm,trustSum_eq_zero_iff]
  refine and_congr_right fun _ => ?_
  by_cases negative : r < 0
  · have none : (GetBlockValue srgesProto r chain).2 = 0 := by
      cases chain with
      | nil => rfl
      | cons cbi ancestors => rw [GetBlockValue,if_pos negative]
    simp [none,negative]
  · rw [visits_le_iff srgesProto chain negative]
    simp [negative]

private def sampleBlock (nHeight : Nat) : ReadBlock :=
  ⟨{hashBlock := nHeight,pprev := if nHeight = 0 then none else some (nHeight-1),nHeight,nVersion := 2,hashMerkleRoot := 0,nTime := 0,
    BLOCK_HAVE_DATA := true,nFile := 0,nDataPos := 8},srges.RPBK,0⟩

/-- Twelve blocks signed by a trusted key: the value at depth 8 is 0, and all are visited. -/
theorem GetBlockValue_misses :
    let chain := (List.range 12).reverse.map sampleBlock
    GetBlockValue {} 8 chain = (0,12) ∧ trustSum {} 8 chain = 9*2000000 := by
  decide +kernel

end CBlockIndex
end Tetra
