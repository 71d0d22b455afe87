import Mathlib
import Tetra.MainChain

/-!
Block locators: the places on a branch that are listed with growing steps, and what
another node makes of the list.
-/
namespace Tetra
open Ancestry ChainState

/-- The step that is taken from the entry at a place of a locator. -/
def stepAt (i : Nat) : Nat := if i ≤ 10 then 1 else 2^(i-10)

/-- How far back the entry at a place stands. -/
def distAt : Nat → Nat
  | 0 => 0
  | i+1 => distAt i+stepAt i

theorem stepAt_pos (i : Nat) : 0 < stepAt i := by
  rw [stepAt]
  split
  · exact one_pos
  · exact pow_pos two_pos _

theorem distAt_strictMono : StrictMono distAt := strictMono_nat_of_lt_succ fun i => Nat.lt_add_of_pos_right (stepAt_pos i)

theorem stepAt_succ (i : Nat) : stepAt (i+1) = if 10 ≤ i then stepAt i*2 else stepAt i := by
  rw [stepAt,stepAt]
  by_cases late : 10 ≤ i
  · rw [if_neg (by omega),if_pos late]
    by_cases tenth : i = 10
    · subst tenth
      rfl
    · rw [if_neg (by omega)]
      have : i+1-10 = (i-10)+1 := by omega
      rw [this,pow_succ]
  · rw [if_pos (by omega),if_neg late,if_pos (by omega)]

theorem ten_lt_distAt (i : Nat) : 10 < distAt (i+1) ↔ 10 ≤ i := by
  have eleven : distAt 11 = 11 := rfl
  constructor
  · intro far
    by_contra early
    have := distAt_strictMono.monotone (show i+1 ≤ 10 by omega)
    have ten : distAt 10 = 10 := rfl
    omega
  · intro late
    have := distAt_strictMono.monotone (show 11 ≤ i+1 by omega)
    omega

structure CBlockLocator where
  vHave : List uint256 := []
deriving DecidableEq

namespace ChainState

/-- `pprev` a number of times, as far as it goes. -/
def back (s : ChainState) : Nat → Option uint256 → Option uint256
  | 0, pindex => pindex
  | n+1, pindex => back s n (pindex.bind s.parent)

theorem back_none (s : ChainState) (n : Nat) : s.back n none = none := by
  induction n with
  | zero => rfl
  | succ n ih => exact ih

/-- Going back stays in the tree down to the genesis block, and then leaves it. -/
theorem BlockIndexTree.back_cases {s : ChainState} (tree : BlockIndexTree s) {b : uint256} (member : b ∈ s.mapBlockIndex) (n : Nat) :
    (∃ x, s.back n (some b) = some x ∧ x ∈ s.mapBlockIndex ∧ s.height x+n = s.height b ∧ Descends s.parent b x) ∨
      s.back n (some b) = none ∧ s.height b < n := by
  induction n generalizing b with
  | zero => exact .inl ⟨b,rfl,member,rfl,.refl⟩
  | succ n ih =>
    rw [ChainState.back,Option.bind_some]
    rcases Nat.eq_zero_or_pos (s.height b) with low | high
    · refine .inr ⟨?_,by omega⟩
      rw [(tree.parent_zero member low).1,back_none]
    · obtain ⟨p,step⟩ := tree.exists_parent member high
      obtain ⟨inside,higher⟩ := tree.step step
      rw [step]
      rcases ih inside with ⟨x,went,there,sum,path⟩ | ⟨left,far⟩
      · exact .inl ⟨x,went,there,by omega,.head step path⟩
      · exact .inr ⟨left,by omega⟩

theorem BlockIndexTree.genesis_height {s : ChainState} (tree : BlockIndexTree s) {b : uint256} (member : b ∈ s.mapBlockIndex) :
    s.height hashGenesisBlock = 0 := by
  rcases tree.back_cases member (s.height b) with ⟨x,_,inside,sum,_⟩ | ⟨_,far⟩
  · have low : s.height x = 0 := by omega
    rw [← (tree.parent_zero inside low).2,low]
  · exact absurd far (lt_irrefl _)

def IsInMainChain (s : ChainState) (hash : uint256) : Bool := (s.next hash).isSome || s.pindexBest == some hash

end ChainState

namespace CBlockLocator
variable (s : ChainState)

/-- The loop of `Set`; none where the fuel runs out. -/
def setLoop : Nat → Option uint256 → Int32 → List uint256 → Option (List uint256)
  | _, none, _, vHave => some vHave
  | 0, some _, _, _ => none
  | fuel+1, some pindex, nStep, vHave =>
    let vHave := vHave++[pindex]
    setLoop fuel (s.back nStep.toInt.toNat (some pindex)) (if vHave.length > 10 then nStep*2 else nStep) vHave

/-- `Set`, and the constructor from a block. -/
def Set (fuel : Nat) (pindex : Option uint256) : Option CBlockLocator :=
  (setLoop s fuel pindex 1 []).map fun vHave => ⟨vHave++[hashGenesisBlock]⟩

/-- The constructor from a hash. -/
def ofHash (fuel : Nat) (hashBlock : uint256) : Option CBlockLocator :=
  if hashBlock ∈ s.mapBlockIndex then Set s fuel (some hashBlock) else some {}

/-- An entry that is known and on the main chain. -/
def shares (hash : uint256) : Bool := decide (hash ∈ s.mapBlockIndex) && s.IsInMainChain hash

def distanceLoop : List uint256 → Int32 → Int32 → Int32
  | [], nDistance, _ => nDistance
  | hash :: rest, nDistance, nStep =>
    if shares s hash then nDistance
    else
      let nDistance := nDistance+nStep
      distanceLoop rest nDistance (if nDistance > 10 then nStep*2 else nStep)

def GetDistanceBack (locator : CBlockLocator) : Int32 := distanceLoop s locator.vHave 0 1

def GetBlockIndex (locator : CBlockLocator) : Option uint256 :=
  match locator.vHave.find? (shares s) with
  | some hash => some hash
  | none => s.pindexGenesisBlock

def GetBlockHash (locator : CBlockLocator) : uint256 := (locator.vHave.find? (shares s)).getD hashGenesisBlock

def GetHeight (locator : CBlockLocator) : Nat :=
  match GetBlockIndex s locator with
  | none => 0
  | some pindex => s.height pindex

section
variable {s : ChainState}

theorem getElem?_concat_cases {α : Type*} {xs : List α} {x y : α} {i : Nat} (there : (xs++[x])[i]? = some y) :
    xs[i]? = some y ∨ i = xs.length ∧ y = x := by
  grind

/-- What is listed of the branch of a block before the genesis hash. -/
structure Traces (s : ChainState) (b : uint256) (ancestors : List uint256) : Prop where
  first : ancestors.head? = some b
  above : ∀ x ∈ ancestors, Descends s.parent b x
  falling : ancestors.Pairwise fun x y => s.height y < s.height x
  steps : ∀ i x, ancestors[i]? = some x → s.height x+distAt i = s.height b
  /-- The next step would leave the branch. -/
  whole : s.height b < distAt ancestors.length

/-- On a main chain the shared entries are those on the chain. -/
theorem shares_iff {p : ChainState} (main : p.MainChain) (hash : uint256) : shares p hash = true ↔ OnChain p.parent p.pindexBest hash := by
  rw [shares,IsInMainChain]
  simp only [Bool.and_eq_true,decide_eq_true_eq,Bool.or_eq_true,beq_iff_eq]
  constructor
  · rintro ⟨_,linked | tip⟩
    · obtain ⟨k,next⟩ := Option.isSome_iff_exists.mp linked
      obtain ⟨on,step⟩ := (main.linked hash k).mp next
      exact on.up step
    · exact ⟨hash,tip,.refl⟩
  · intro on
    refine ⟨main.onChain_mem on,?_⟩
    obtain ⟨t,tip,_⟩ := id on
    by_cases other : t = hash
    · exact .inr (other ▸ tip)
    · rw [tip] at on
      obtain ⟨k,there,step⟩ := on.child other
      rw [← tip] at there
      exact .inl (Option.isSome_iff_exists.mpr ⟨k,(main.linked hash k).mpr ⟨there,step⟩⟩)

/-- The retraced distance is that of the first shared entry, in the steps of `Set`. -/
theorem distanceLoop_finds {p : ChainState} {i k : Nat} {hashes : List uint256} {nStep : Int32} {x : uint256} (there : hashes[i]? = some x)
    (shared : shares p x = true) (before : ∀ j y, j < i → hashes[j]? = some y → shares p y = false) (fits : ∀ j, j < i → distAt (k+j) < 2^31)
    (step : 0 < i → nStep = Int32.ofNat (stepAt k)) : distanceLoop p hashes (Int32.ofNat (distAt k)) nStep = Int32.ofNat (distAt (k+i)) := by
  induction i generalizing hashes k nStep with
  | zero =>
    cases hashes with
    | nil => simp at there
    | cons hash rest =>
      obtain rfl := Option.some.inj there
      rw [distanceLoop,if_pos shared]
      rfl
  | succ i ih =>
    cases hashes with
    | nil => simp at there
    | cons hash rest =>
      have apart : shares p hash = false := before 0 hash (Nat.succ_pos i) rfl
      have onwards : Int32.ofNat (distAt k)+Int32.ofNat (stepAt k) = Int32.ofNat (distAt (k+1)) := (Int32.ofNat_add ..).symm
      rw [distanceLoop,if_neg (by simp [apart]),step (Nat.succ_pos i)]
      dsimp only
      rw [onwards,show k+(i+1) = k+1+i by omega]
      refine ih there (fun j y less place => before (j+1) y (by omega) place) (fun j less => ?_) fun more => ?_
      · have := fits (j+1) (by omega)
        rwa [show k+(j+1) = k+1+j by omega] at this
      · have small : distAt (k+1) < 2^31 := fits 1 (by omega)
        have far : Int32.ofNat (distAt (k+1)) > 10 ↔ 10 ≤ k := by
          rw [← ten_lt_distAt k,gt_iff_lt,Int32.lt_iff_toInt_lt,Int32.toInt_ofNat_of_lt small]
          have ten : (10 : Int32).toInt = 10 := rfl
          omega
        rw [stepAt_succ]
        by_cases late : 10 ≤ k
        · rw [if_pos (far.mpr late),if_pos late,Int32.ofNat_mul]
          rfl
        · rw [if_neg (fun more => late (far.mp more)),if_neg late]

/-- What another node makes of a locator: the highest entry on its main chain, and how far
    back that is, except where only the genesis hash at the end is shared and the last step
    went too far. -/
structure Finds (s p : ChainState) (b : uint256) (ancestors : List uint256) (x : uint256) : Prop where
  listed : x ∈ ancestors++[hashGenesisBlock]
  shared : OnChain p.parent p.pindexBest x
  highest : ∀ y ∈ ancestors++[hashGenesisBlock], OnChain p.parent p.pindexBest y → s.height y ≤ s.height x
  index : GetBlockIndex p ⟨ancestors++[hashGenesisBlock]⟩ = some x
  hash : GetBlockHash p ⟨ancestors++[hashGenesisBlock]⟩ = x
  distance : x ∈ ancestors → (GetDistanceBack p ⟨ancestors++[hashGenesisBlock]⟩).toInt = s.height b-s.height x
  beyond : x ∉ ancestors → GetDistanceBack p ⟨ancestors++[hashGenesisBlock]⟩ = Int32.ofNat (distAt ancestors.length)

theorem Traces.found {s p : ChainState} (tree : s.BlockIndexTree) {b : uint256} (member : b ∈ s.mapBlockIndex) (int : s.height b < 2^31)
    (main : p.MainChain) {ancestors : List uint256} (traces : Traces s b ancestors) {shared : uint256}
    (listed : shared ∈ ancestors++[hashGenesisBlock]) (on : OnChain p.parent p.pindexBest shared) :
    ∃ x, Finds s p b ancestors x := by
  have heights : ∀ i x, (ancestors++[hashGenesisBlock])[i]? = some x →
      (i < ancestors.length ∧ s.height x+distAt i = s.height b) ∨ (i = ancestors.length ∧ s.height x = 0) := by
    intro i x there
    rcases getElem?_concat_cases there with old | ⟨last,rfl⟩
    · exact .inl ⟨(List.getElem?_eq_some_iff.mp old).1,traces.steps i x old⟩
    · exact .inr ⟨last,tree.genesis_height member⟩
  obtain ⟨x,found⟩ : ∃ x, (ancestors++[hashGenesisBlock]).find? (shares p) = some x :=
    Option.isSome_iff_exists.mp (List.find?_isSome.mpr ⟨shared,listed,(shares_iff main shared).mpr on⟩)
  obtain ⟨shares,i,inside,rfl,before⟩ := List.find?_eq_some_iff_getElem.mp found
  have there := List.getElem?_eq_getElem inside
  generalize (ancestors++[hashGenesisBlock])[i] = x at found shares there
  -- No entry before this one is shared.
  have later : ∀ j y, (ancestors++[hashGenesisBlock])[j]? = some y → OnChain p.parent p.pindexBest y → i ≤ j := by
    intro j y place onY
    by_contra earlier
    obtain ⟨_,rfl⟩ := List.getElem?_eq_some_iff.mp place
    have apart := before j (by omega)
    rw [(shares_iff main _).mpr onY] at apart
    contradiction
  have distance : GetDistanceBack p ⟨ancestors++[hashGenesisBlock]⟩ = Int32.ofNat (distAt i) := by
    have loops := @distanceLoop_finds p i 0 (ancestors++[hashGenesisBlock]) 1 x there shares (fun j y less place => ?_) (fun j less => ?_) fun _ => rfl
    · rwa [Nat.zero_add] at loops
    · obtain ⟨_,rfl⟩ := List.getElem?_eq_some_iff.mp place
      simpa using before j less
    · rw [Nat.zero_add]
      rcases heights j _ (List.getElem?_eq_getElem (less.trans inside)) with ⟨_,sum⟩ | ⟨last,_⟩
      · omega
      · rw [List.length_append] at inside
        simp at inside
        omega
  refine ⟨x,List.mem_of_getElem? there,(shares_iff main x).mp shares,fun y member' onY => ?_,?_,?_,fun inner => ?_,fun outer => ?_⟩
  · obtain ⟨j,place⟩ := List.mem_iff_getElem?.mp member'
    have order := later j y place onY
    have further := distAt_strictMono.monotone order
    rcases heights j y place with ⟨_,sum⟩ | ⟨_,low⟩
    · rcases heights i x there with ⟨_,sum'⟩ | ⟨last,_⟩
      · omega
      · omega
    · omega
  · rw [GetBlockIndex,found]
  · rw [GetBlockHash,found]
    rfl
  · obtain ⟨j,place⟩ := List.mem_iff_getElem?.mp inner
    have short := (List.getElem?_eq_some_iff.mp place).1
    have order := later j x (by rw [List.getElem?_append_left short,place]) ((shares_iff main x).mp shares)
    rcases heights i x there with ⟨_,sum⟩ | ⟨last,_⟩
    · rw [distance,Int32.toInt_ofNat_of_lt (by omega)]
      omega
    · omega
  · rcases heights i x there with ⟨short,_⟩ | ⟨last,_⟩
    · rw [List.getElem?_append_left short] at there
      exact absurd (List.mem_of_getElem? there) outer
    · rw [distance,last]

end

/-! A node that has the genesis block only. -/

end CBlockLocator

end Tetra
