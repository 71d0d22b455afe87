import Mathlib
import Tetra.MainChain

/-!
The median of the times of a block and its last ancestors, which a block that is accepted
is later than.
-/
namespace Tetra
open Ancestry

/-! ### The middle of a list in order -/

section
variable {α : Type*} [LinearOrder α]

/-- An entry of a list in order is as great as `m` where so many entries are. -/
theorem le_getElem_iff {list : List α} (sorted : list.Pairwise (· ≤ ·)) (m : α) {i : Nat} (inside : i < list.length) :
    m ≤ list[i] ↔ list.length ≤ i+list.countP (m ≤ ·) := by
  induction list generalizing i with
  | nil => simp at inside
  | cons x list ih =>
    obtain ⟨first,rest⟩ := List.pairwise_cons.mp sorted
    have most : list.countP (m ≤ ·) ≤ list.length := List.countP_le_length
    by_cases great : m ≤ x
    · have all : list.countP (m ≤ ·) = list.length := by
        apply List.countP_eq_length.mpr
        intro y member
        simpa using great.trans (first y member)
      have here : m ≤ (x :: list)[i] := by
        cases i with
        | zero => exact great
        | succ i => exact great.trans (first _ (List.getElem_mem _))
      simp only [here,List.length_cons,List.countP_cons,all,great,decide_true,if_true,true_iff]
      omega
    · simp only [List.countP_cons,great,decide_false,Bool.false_eq_true,if_false,List.length_cons]
      cases i with
      | zero => simp only [List.getElem_cons_zero,great,false_iff]; omega
      | succ i =>
        rw [List.getElem_cons_succ,ih rest (by simpa using inside)]
        omega

/-- The entry that comes to stand in the middle is as great as `m` just where half of the
    entries are. -/
theorem le_middle_iff {list : List α} (filled : list ≠ []) (m value : α) :
    m ≤ ((list.insertionSort (· ≤ ·))[(list.insertionSort (· ≤ ·)).length/2]?).getD value ↔ list.length ≤ list.length/2+list.countP (m ≤ ·) := by
  have positive := List.length_pos_iff.mpr filled
  have length := List.length_insertionSort (· ≤ ·) list
  have inside : (list.insertionSort (· ≤ ·)).length/2 < (list.insertionSort (· ≤ ·)).length := by omega
  have rank := le_getElem_iff (List.pairwise_insertionSort (· ≤ ·) list) m inside
  rw [List.getElem?_eq_getElem inside,Option.getD_some,rank,length,(List.perm_insertionSort (· ≤ ·) list).countP_eq]

end

namespace ChainState
variable {s : ChainState}

/-- A window that is an entry longer has that entry at its end, if there is one. -/
theorem times_succ (n : Nat) (hash : Option uint256) :
    ∃ earlier, s.times (n+1) hash = s.times n hash ++ earlier ∧ (earlier = [] ∨ earlier.length = 1 ∧ (s.times n hash).length = n) := by
  induction n generalizing hash with
  | zero =>
    cases hash with
    | none => exact ⟨[],rfl,.inl rfl⟩
    | some hash =>
      refine ⟨s.times 1 (some hash),rfl,?_⟩
      rw [times]
      split
      · exact .inl rfl
      · exact .inr ⟨by simp [times],rfl⟩
  | succ n ih =>
    cases hash with
    | none => exact ⟨[],rfl,.inl rfl⟩
    | some hash =>
      cases found : s.mapBlockIndex[hash]? with
      | none => exact ⟨[],by simp [times,found],.inl rfl⟩
      | some pindex =>
        obtain ⟨earlier,longer,whole⟩ := ih pindex.pprev
        have here (k : Nat) : s.times (k+1) (some hash) = pindex.nTime :: s.times k pindex.pprev := by simp [times,found]
        refine ⟨earlier,by rw [here,here,longer,List.cons_append],whole.imp_right ?_⟩
        rintro ⟨one,full⟩
        exact ⟨one,by rw [here,List.length_cons,full]⟩

/-- A block later than the median of the times before it does not bring the median down:
    its time comes into the window, and no more than one goes out. -/
theorem GetMedianTimePast_child {hash pprev : uint256} {pindex : IndexEntry} (found : s.mapBlockIndex[hash]? = some pindex)
    (parent : pindex.pprev = some pprev) (later : s.GetMedianTimePast pprev < pindex.nTime) :
    s.GetMedianTimePast pprev ≤ s.GetMedianTimePast hash := by
  have window : s.times 11 (some hash) = pindex.nTime :: s.times 10 (some pprev) := by simp [times,found,parent]
  obtain ⟨earlier,before,whole⟩ := s.times_succ 10 (some pprev)
  by_cases root : s.times 11 (some pprev) = []
  · have none : s.GetMedianTimePast pprev = 0 := by simp [GetMedianTimePast,root]
    rw [none]
    exact Nat.zero_le _
  have half : (s.times 11 (some pprev)).length ≤ (s.times 11 (some pprev)).length/2+(s.times 11 (some pprev)).countP (s.GetMedianTimePast pprev ≤ ·) :=
    (le_middle_iff root _ 0).mp (le_refl _)
  apply (le_middle_iff (by simp [window]) _ 0).mpr
  rw [before] at half
  rw [window,List.length_cons,List.countP_cons_of_pos (by simpa using later.le)]
  rw [List.length_append,List.countP_append] at half
  have left : earlier.countP (s.GetMedianTimePast pprev ≤ ·) ≤ earlier.length := List.countP_le_length
  obtain rfl | ⟨one,full⟩ := whole
  · simp only [List.length_nil,List.countP_nil] at half
    omega
  · omega

/-- Every block is later than the median of the times before it. -/
def TimesRise (s : ChainState) : Prop :=
  ∀ (hash pprev : uint256) pindex, s.mapBlockIndex[hash]? = some pindex → pindex.pprev = some pprev → s.GetMedianTimePast pprev < pindex.nTime

/-- The median does not go down from a block to its children, nor on any way to a block
    that descends from it. -/
theorem GetMedianTimePast_mono (rise : TimesRise s) {hash ancestor : uint256} (path : Descends s.parent hash ancestor) :
    s.GetMedianTimePast ancestor ≤ s.GetMedianTimePast hash := by
  induction path with
  | refl => exact le_refl _
  | @tail p pprev _ step ih =>
    obtain ⟨pindex,found,parent⟩ := exists_entry_of_parent step
    exact (GetMedianTimePast_child found parent (rise p pprev pindex found parent)).trans ih

private def pair : ChainState where
  mapBlockIndex := (Std.ExtTreeMap.empty.insert 1 {hashBlock := 1,pprev := none,nHeight := 0,nVersion := 3,hashMerkleRoot := 0,nTime := 5,nFile := 0,nDataPos := 8}).insert 2
    {hashBlock := 2,pprev := some 1,nHeight := 1,nVersion := 3,hashMerkleRoot := 0,nTime := 7,nFile := 0,nDataPos := 90}

theorem GetMedianTimePast_mono_pair : TimesRise pair ∧ pair.GetMedianTimePast 1 ≤ pair.GetMedianTimePast 2 := by
  have rise : TimesRise pair := by
    intro hash pprev pindex found parent
    rw [pair,entries_insert] at found
    split at found
    next same =>
      obtain rfl := Option.some.inj found
      obtain rfl := Option.some.inj parent
      decide +kernel
    next other =>
      rw [entries_insert] at found
      split at found
      next same =>
        obtain rfl := Option.some.inj found
        simp at parent
      next => simp at found
  have step : pair.parent 2 = some 1 := by decide +kernel
  exact ⟨rise,GetMedianTimePast_mono rise (.single step)⟩

/-! ### Blocks that are accepted -/

/-- A block that passes the checks is later than the median before it, unless it is the
    genesis block. -/
theorem later_of_checkAccept {rules : PoolRules} {block : CBlock} (checked : s.checkAccept rules block = .ok ()) :
    block.GetHash rules.env = hashGenesisBlock ∨ s.GetMedianTimePast block.hashPrevBlock < block.nTime := by
  rw [checkAccept] at checked
  dsimp only at checked
  split at checked
  · contradiction
  split at checked
  next genesis => exact .inl genesis
  split at checked
  · contradiction
  split at checked
  · contradiction
  next later => exact .inr (not_le.mp later)

/-- A new entry leaves the windows of the others as they were. -/
theorem times_fresh {t : ChainState} (tree : BlockIndexTree s) {fresh : uint256} (absent : fresh ∉ s.mapBlockIndex)
    (same : ∀ hash, hash ≠ fresh → t.mapBlockIndex[hash]? = s.mapBlockIndex[hash]?) (n : Nat) {hash : uint256} (member : hash ∈ s.mapBlockIndex) :
    t.times n (some hash) = s.times n (some hash) := by
  induction n generalizing hash with
  | zero => rfl
  | succ n ih =>
    obtain ⟨pindex,found⟩ := (s.mem_iff_entry hash).mp member
    have there : t.mapBlockIndex[hash]? = some pindex := (same hash fun new => absent (new ▸ member)).trans found
    simp only [times,found,there]
    cases parent : pindex.pprev with
    | none => cases n <;> rfl
    | some pprev =>
      obtain ⟨pe,inside,_⟩ := tree.above hash pindex pprev found parent
      rw [ih ((s.mem_iff_entry pprev).mpr ⟨pe,inside⟩)]

/-- The entry of a block that passed the checks keeps every block later than the median
    before it. -/
theorem TimesRise.addBlock {t : ChainState} {rules : PoolRules} {block : CBlock} (rise : TimesRise s) (tree : BlockIndexTree s) (pos : CDiskBlockPos)
    (checked : s.checkAccept rules block = .ok ()) (fresh : block.GetHash rules.env ∉ s.mapBlockIndex)
    (genesis : block.GetHash rules.env = hashGenesisBlock → block.hashPrevBlock ∉ s.mapBlockIndex)
    (entries : t.mapBlockIndex = s.mapBlockIndex.insert (block.GetHash rules.env) (s.newEntry (block.GetHash rules.env) block pos)) : TimesRise t := by
  have same (hash : uint256) (other : hash ≠ block.GetHash rules.env) : t.mapBlockIndex[hash]? = s.mapBlockIndex[hash]? := by
    rw [entries,entries_insert,if_neg other.symm]
  have median {hash : uint256} (member : hash ∈ s.mapBlockIndex) : t.GetMedianTimePast hash = s.GetMedianTimePast hash := by
    rw [GetMedianTimePast,GetMedianTimePast,times_fresh tree fresh same 11 member]
  intro hash pprev pindex found parent
  rw [entries,entries_insert] at found
  split at found
  next own =>
    obtain rfl := Option.some.inj found
    cases before : s.mapBlockIndex[block.hashPrevBlock]? with
    | none => simp [newEntry,before] at parent
    | some prev =>
      have inside : block.hashPrevBlock ∈ s.mapBlockIndex := (s.mem_iff_entry _).mpr ⟨prev,before⟩
      have link : block.hashPrevBlock = pprev := by simpa [newEntry,before] using parent
      rw [← link,median inside]
      exact (later_of_checkAccept checked).resolve_left fun first => genesis first inside
  next other =>
    obtain ⟨pe,inside,_⟩ := tree.above hash pindex pprev found parent
    rw [median ((s.mem_iff_entry pprev).mpr ⟨pe,inside⟩)]
    exact rise hash pprev pindex found parent

end ChainState
end Tetra
