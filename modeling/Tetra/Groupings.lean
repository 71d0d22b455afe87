import Mathlib
import Tetra.Accounts
import Tetra.Components

/-!
The groups of addresses that were spent together: the addresses of the wallet's inputs
and change of one transaction form a group, every other address of the wallet one of its own,
and groups that share an address are merged. The merged groups lie in memory and are
named by pointers.
-/
namespace Tetra
open Std (ExtTreeMap ExtTreeSet TransOrd TransCmp LawfulEqOrd)
open Components

/-- `set<CTxDestination>` -/
abbrev AddressSet := ExtTreeSet CTxDestination

namespace AddressSet

/-- Sets are compared element by element. -/
instance order : Ord AddressSet := ⟨compareOn ExtTreeSet.toList⟩
instance transOrd : TransOrd AddressSet := inferInstanceAs (TransCmp (compareOn ExtTreeSet.toList))
instance lawfulEqOrd : LawfulEqOrd AddressSet where
  eq_of_compare same := ExtTreeSet.toList_inj.mp (Std.compare_eq_iff_eq.mp same)

/-- `insert(begin, end)` -/
def insertAll (s : AddressSet) (addresses : List CTxDestination) : AddressSet := addresses.foldl (fun s a => s.insert a) s

end AddressSet

namespace AccountWallet

/-- `IsMine` of an input. -/
def IsMineIn (wallet : AccountWallet) (txin : CTxIn) : Bool :=
  match wallet.mapWallet[txin.prevout.hash]? with
  | none => false
  | some prev =>
    match prev.vout[txin.prevout.n]? with
    | none => false
    | some out => wallet.IsMine out

/-- The address that an input of the wallet spends from. -/
def inputAddress (wallet : AccountWallet) (txin : CTxIn) : Option CTxDestination :=
  if !wallet.IsMineIn txin then none
  else
    match wallet.mapWallet[txin.prevout.hash]? with
    | none => none
    | some prev =>
      match prev.vout[txin.prevout.n]? with
      | none => none
      | some out => wallet.ExtractDestination out.scriptPubKey

def outputAddress (wallet : AccountWallet) (txout : CTxOut) : Option CTxDestination := wallet.ExtractDestination txout.scriptPubKey

/-- The addresses of a transaction's inputs, and of its change when there are any. -/
def txGrouping (wallet : AccountWallet) (wtx : AccountTx) : AddressSet :=
  if wtx.vin.length > 0 then
    let addresses := wtx.vin.filterMap wallet.inputAddress
    let grouping : AddressSet := AddressSet.insertAll ∅ addresses
    let any_mine := !addresses.isEmpty
    if any_mine then grouping.insertAll ((wtx.vout.filter wallet.IsChange).filterMap wallet.outputAddress) else grouping
  else ∅

/-- The addresses of a transaction's outputs to the wallet, each to be a group of its own. -/
def loneAddresses (wallet : AccountWallet) (wtx : AccountTx) : List CTxDestination :=
  (wtx.vout.filter wallet.IsMine).filterMap wallet.outputAddress

/-- What one transaction adds to `groupings`. -/
def groupTx (wallet : AccountWallet) (groupings : ExtTreeSet AddressSet) (wtx : AccountTx) : ExtTreeSet AddressSet :=
  let grouping := wallet.txGrouping wtx
  let groupings := if grouping.size > 0 then groupings.insert grouping else groupings
  (wallet.loneAddresses wtx).foldl (fun groupings address => groupings.insert ((∅ : AddressSet).insert address)) groupings

def groupings (wallet : AccountWallet) : ExtTreeSet AddressSet := wallet.txs.foldl wallet.groupTx ∅

end AccountWallet

/-- `new`: a pointer to nothing that is in use. -/
structure Allocator where
  alloc : List Nat → Nat
  fresh : ∀ used, alloc used ∉ used

/-- The pointer behind all that are in use. -/
instance : Inhabited Allocator where
  default := {
    alloc := fun used => used.sum+1
    fresh := fun used member => by
      have := List.le_sum_of_mem member
      omega}

/-- The sets in memory, the pointers to those that are groups, and for each address the
    pointer to its group. -/
structure Merging where
  memory : ExtTreeMap Nat AddressSet := ∅
  uniqueGroupings : ExtTreeSet Nat := ∅
  setmap : ExtTreeMap CTxDestination Nat := ∅

namespace Merging

/-- `*p` -/
def deref (s : Merging) (p : Nat) : AddressSet := s.memory[p]?.getD ∅

/-- The groups hit by a new one. -/
def hits (s : Merging) (grouping : AddressSet) : ExtTreeSet Nat :=
  (grouping.toList.filterMap fun address => s.setmap[address]?).foldl (fun hits p => hits.insert p) ∅

/-- `merged->insert(hit->begin(), hit->end())`, and the group that was hit is deleted. -/
def absorb (merged : Nat) (s : Merging) (hit : Nat) : Merging where
  memory := (s.memory.insert merged ((s.deref merged).insertAll (s.deref hit).toList)).erase hit
  uniqueGroupings := s.uniqueGroupings.erase hit
  setmap := s.setmap

/-- A new group is merged with those it hits. -/
def merge (allocator : Allocator) (s : Merging) (grouping : AddressSet) : Merging :=
  let hits := s.hits grouping
  let merged := allocator.alloc s.memory.keys
  let s := {s with memory := s.memory.insert merged grouping}
  let s := hits.toList.foldl (absorb merged) s
  let s := {s with uniqueGroupings := s.uniqueGroupings.insert merged}
  {s with setmap := (s.deref merged).toList.foldl (fun setmap element => setmap.insert element merged) s.setmap}

end Merging

def AccountWallet.GetAddressGroupings (wallet : AccountWallet) (allocator : Allocator) : ExtTreeSet AddressSet :=
  let s := wallet.groupings.toList.foldl (Merging.merge allocator) {}
  s.uniqueGroupings.toList.foldl (fun ret p => ret.insert (s.deref p)) ∅

theorem mem_foldl_insert {κ : Type} [Ord κ] [TransOrd κ] [LawfulEqOrd κ] {keys : List κ} {s : ExtTreeSet κ} {k : κ} :
    k ∈ keys.foldl (fun s key => s.insert key) s ↔ k ∈ keys ∨ k ∈ s := by
  induction keys generalizing s with
  | nil => simp
  | cons key rest ih =>
    rw [List.foldl_cons,ih,ExtTreeSet.mem_insert,Std.compare_eq_iff_eq,List.mem_cons]
    tauto

theorem AddressSet.mem_insertAll {s : AddressSet} {addresses : List CTxDestination} {a : CTxDestination} :
    a ∈ s.insertAll addresses ↔ a ∈ addresses ∨ a ∈ s := mem_foldl_insert

namespace Merging

section
variable {allocator : Allocator} {groups : Set AddressSet} {s : Merging} {grouping : AddressSet}

theorem mem_hits {p : Nat} : p ∈ s.hits grouping ↔ ∃ a ∈ grouping, s.setmap[a]? = some p := by
  rw [hits,mem_foldl_insert,List.mem_filterMap]
  simp [ExtTreeSet.mem_toList]

/-- Where one group is absorbed, nothing else is touched but that group and the merged one. -/
theorem absorb_memory {merged hit p : Nat} (other : p ≠ merged) (kept : p ≠ hit) : (absorb merged s hit).memory[p]? = s.memory[p]? := by
  simp [absorb,ExtTreeMap.getElem?_erase,ExtTreeMap.getElem?_insert,Ne.symm other,Ne.symm kept]

theorem absorb_merged {merged hit : Nat} (apart : hit ≠ merged) :
    (absorb merged s hit).deref merged = (s.deref merged).insertAll (s.deref hit).toList := by
  rw [deref,absorb]
  simp [apart]

/-- The merged group after all that were hit are absorbed. -/
theorem absorb_all {merged : Nat} {hits : List Nat} (apart : ∀ hit ∈ hits, hit ≠ merged) (once : hits.Nodup) :
    (∀ a, a ∈ (hits.foldl (absorb merged) s).deref merged ↔ a ∈ s.deref merged ∨ ∃ hit ∈ hits, a ∈ s.deref hit) ∧
      (∀ p, p ≠ merged → p ∉ hits → (hits.foldl (absorb merged) s).memory[p]? = s.memory[p]?) ∧
      (∀ p, p ∈ (hits.foldl (absorb merged) s).uniqueGroupings ↔ p ∈ s.uniqueGroupings ∧ p ∉ hits) ∧
      (hits.foldl (absorb merged) s).setmap = s.setmap ∧
      (s.memory[merged]? ≠ none → (hits.foldl (absorb merged) s).memory[merged]? ≠ none) := by
  induction hits generalizing s with
  | nil => simp
  | cons hit rest ih =>
    obtain ⟨fresh,once⟩ := List.nodup_cons.mp once
    have here := apart hit (List.mem_cons_self ..)
    obtain ⟨joined,kept,left,map,there⟩ := ih (s := absorb merged s hit) (fun p member => apart p (List.mem_cons_of_mem _ member)) once
    have others : ∀ p ∈ rest, (absorb merged s hit).deref p = s.deref p := by
      intro p member
      have off : p ≠ hit := fun same => fresh (same ▸ member)
      rw [deref,absorb_memory (apart p (List.mem_cons_of_mem _ member)) off,deref]
    rw [List.foldl_cons]
    refine ⟨fun a => ?_,fun p other unlisted => ?_,fun p => ?_,map,fun _ => there (by simp [absorb,here])⟩
    · rw [joined,absorb_merged here,AddressSet.mem_insertAll,ExtTreeSet.mem_toList]
      simp only [List.mem_cons,exists_eq_or_imp]
      constructor
      · rintro ((inHit | inMerged) | ⟨p,member,inside⟩)
        · exact .inr (.inl inHit)
        · exact .inl inMerged
        · exact .inr (.inr ⟨p,member,others p member ▸ inside⟩)
      · rintro (inMerged | inHit | ⟨p,member,inside⟩)
        · exact .inl (.inr inMerged)
        · exact .inl (.inl inHit)
        · exact .inr ⟨p,member,(others p member).symm ▸ inside⟩
    · rw [List.mem_cons,not_or] at unlisted
      rw [kept p other unlisted.2,absorb_memory other unlisted.1]
    · rw [left,absorb,ExtTreeSet.mem_erase,List.mem_cons,not_or]
      simp only [ne_eq,Std.compare_eq_iff_eq]
      constructor
      · rintro ⟨⟨off,unique⟩,unlisted⟩
        exact ⟨unique,Ne.symm off,unlisted⟩
      · rintro ⟨unique,off,unlisted⟩
        exact ⟨⟨Ne.symm off,unique⟩,unlisted⟩

/-- The groups in memory are those of the linked addresses, each address is mapped to
    the one it is in, and none is empty. -/
structure Merged (groups : Set AddressSet) (s : Merging) : Prop where
  live : ∀ p ∈ s.uniqueGroupings, s.memory[p]? ≠ none
  filled : ∀ p ∈ s.uniqueGroupings, ∃ a, a ∈ s.deref p
  map : ∀ a p, s.setmap[a]? = some p ↔ p ∈ s.uniqueGroupings ∧ a ∈ s.deref p
  linked : ∀ a b, (∃ p ∈ s.uniqueGroupings, a ∈ s.deref p ∧ b ∈ s.deref p) ↔ Linked groups a b

theorem merged_empty : Merged ∅ {} := by
  refine ⟨fun p unique => ?_,fun p unique => ?_,fun a p => ?_,fun a b => ?_⟩
  · simp at unique
  · simp at unique
  · simp
  · constructor
    · rintro ⟨p,unique,-⟩
      simp at unique
    · intro linked
      obtain ⟨g,listed,-⟩ := linked.covered
      exact absurd listed (Set.notMem_empty g)

theorem lookup_foldl {keys : List CTxDestination} {m : ExtTreeMap CTxDestination Nat} {merged : Nat} {a : CTxDestination} {p : Nat} :
    (keys.foldl (fun m key => m.insert key merged) m)[a]? = some p ↔ (a ∈ keys ∧ p = merged) ∨ (a ∉ keys ∧ m[a]? = some p) := by
  induction keys generalizing m with
  | nil => simp
  | cons key rest ih =>
    rw [List.foldl_cons,ih,Maps.insert_some_iff,List.mem_cons]
    tauto

/-- What a merge does: the new group holds what the given one touches, the groups that were hit
    are gone, and the others stay. -/
theorem merge_spec (inv : Merged groups s) : ∃ merged,
    (s.memory[merged]? = none) ∧
    (∀ a, a ∈ (merge allocator s grouping).deref merged ↔ a ∈ grouping ∨ ∃ p ∈ s.hits grouping, a ∈ s.deref p) ∧
    (∀ p, p ≠ merged → p ∉ s.hits grouping → (merge allocator s grouping).memory[p]? = s.memory[p]?) ∧
    ((merge allocator s grouping).memory[merged]? ≠ none) ∧
    (∀ p, p ∈ (merge allocator s grouping).uniqueGroupings ↔ p = merged ∨ (p ∈ s.uniqueGroupings ∧ p ∉ s.hits grouping)) ∧
    ∀ a p, (merge allocator s grouping).setmap[a]? = some p ↔
      (a ∈ (merge allocator s grouping).deref merged ∧ p = merged) ∨
        (a ∉ (merge allocator s grouping).deref merged ∧ s.setmap[a]? = some p) := by
  have fresh : s.memory[allocator.alloc s.memory.keys]? = none := by
    have unused := allocator.fresh s.memory.keys
    rw [ExtTreeMap.mem_keys] at unused
    simpa using unused
  have apart : ∀ hit ∈ (s.hits grouping).toList, hit ≠ allocator.alloc s.memory.keys := by
    rintro hit member rfl
    rw [ExtTreeSet.mem_toList,mem_hits] at member
    obtain ⟨a,-,mapped⟩ := member
    exact inv.live _ ((inv.map a _).mp mapped).1 fresh
  have others : ∀ p, p ≠ allocator.alloc s.memory.keys →
      ({s with memory := s.memory.insert (allocator.alloc s.memory.keys) grouping} : Merging).memory[p]? = s.memory[p]? := by
    intro p other
    simp [ExtTreeMap.getElem?_insert,Ne.symm other]
  have once : (s.hits grouping).toList.Nodup := by
    refine ExtTreeSet.distinct_toList.imp fun {p q} other same => other ?_
    rw [same,Std.compare_eq_iff_eq]
  obtain ⟨joined,kept,left,map,there⟩ := absorb_all (s := {s with memory := s.memory.insert (allocator.alloc s.memory.keys) grouping}) apart once
  refine ⟨allocator.alloc s.memory.keys,fresh,fun a => ?_,fun p other unhit => ?_,there (by simp),fun p => ?_,fun a p => ?_⟩
  · refine (joined a).trans ?_
    simp only [ExtTreeSet.mem_toList]
    have own : a ∈ ({s with memory := s.memory.insert (allocator.alloc s.memory.keys) grouping} : Merging).deref (allocator.alloc s.memory.keys) ↔
        a ∈ grouping := by simp [deref]
    rw [own]
    refine or_congr_right (exists_congr fun p => and_congr_right fun hits => ?_)
    rw [deref,others p (apart p (ExtTreeSet.mem_toList.mpr hits)),deref]
  · refine (kept p other fun hits => unhit (ExtTreeSet.mem_toList.mp hits)).trans (others p other)
  · refine ExtTreeSet.mem_insert.trans ?_
    rw [Std.compare_eq_iff_eq,left p,ExtTreeSet.mem_toList,eq_comm]
  · have lookup := fun (keys : List CTxDestination) (m : ExtTreeMap CTxDestination Nat) =>
      @lookup_foldl keys m (allocator.alloc s.memory.keys) a p
    refine (lookup _ _).trans ?_
    rw [ExtTreeSet.mem_toList,map]
    rfl

/-- A merge keeps the invariant, with the new group among the groups. -/
theorem merged_merge (inv : Merged groups s) (filled : ∃ a, a ∈ grouping) : Merged (insert grouping groups) (merge allocator s grouping) := by
  obtain ⟨merged,fresh,joined,kept,there,unique,map⟩ := @merge_spec allocator groups s grouping inv
  have old : ∀ p, p ∈ s.uniqueGroupings → p ≠ merged := by
    rintro p member rfl
    exact inv.live p member fresh
  have same : ∀ p, p ≠ merged → p ∉ s.hits grouping → (merge allocator s grouping).deref p = s.deref p := by
    intro p other unhit
    rw [deref,kept p other unhit,deref]
  -- a group that is hit shares an address with the new one
  have hit : ∀ p, p ∈ s.hits grouping ↔ p ∈ s.uniqueGroupings ∧ ∃ a ∈ grouping, a ∈ s.deref p := by
    intro p
    rw [mem_hits]
    constructor
    · rintro ⟨a,inside,mapped⟩
      obtain ⟨listed,holds⟩ := (inv.map a p).mp mapped
      exact ⟨listed,a,inside,holds⟩
    · rintro ⟨listed,a,inside,holds⟩
      exact ⟨a,inside,(inv.map a p).mpr ⟨listed,holds⟩⟩
  have touches : ∀ a, a ∈ (merge allocator s grouping).deref merged ↔ Touches groups grouping a := by
    intro a
    rw [joined]
    constructor
    · rintro (inside | ⟨p,hits,holds⟩)
      · exact .inl inside
      · obtain ⟨listed,c,common,there⟩ := (hit p).mp hits
        exact .inr ⟨c,common,(inv.linked a c).mp ⟨p,listed,holds,there⟩⟩
    · rintro (inside | ⟨c,common,chain⟩)
      · exact .inl inside
      · obtain ⟨p,listed,holds,there⟩ := (inv.linked a c).mpr chain
        exact .inr ⟨p,(hit p).mpr ⟨listed,c,common,there⟩,holds⟩
  refine ⟨fun p listed => ?_,fun p listed => ?_,fun a p => ?_,fun a b => ?_⟩
  · rcases (unique p).mp listed with rfl | ⟨listed,unhit⟩
    · exact there
    · rw [kept p (old p listed) unhit]
      exact inv.live p listed
  · rcases (unique p).mp listed with rfl | ⟨listed,unhit⟩
    · obtain ⟨a,inside⟩ := filled
      exact ⟨a,(joined a).mpr (.inl inside)⟩
    · rw [same p (old p listed) unhit]
      exact inv.filled p listed
  · rw [map,unique]
    constructor
    · rintro (⟨inside,rfl⟩ | ⟨outside,mapped⟩)
      · exact ⟨.inl rfl,inside⟩
      · obtain ⟨listed,holds⟩ := (inv.map a p).mp mapped
        have unhit : p ∉ s.hits grouping := fun hits => outside ((joined a).mpr (.inr ⟨p,hits,holds⟩))
        exact ⟨.inr ⟨listed,unhit⟩,by rw [same p (old p listed) unhit]; exact holds⟩
    · rintro ⟨rfl | ⟨listed,unhit⟩,holds⟩
      · exact .inl ⟨holds,rfl⟩
      · rw [same p (old p listed) unhit] at holds
        have mapped := (inv.map a p).mpr ⟨listed,holds⟩
        refine .inr ⟨fun inside => ?_,mapped⟩
        rcases (joined a).mp inside with inside | ⟨q,hits,there⟩
        · exact unhit ((hit p).mpr ⟨listed,a,inside,holds⟩)
        · have mapped' := (inv.map a q).mpr ⟨((hit q).mp hits).1,there⟩
          obtain rfl := Option.some.inj (mapped.symm.trans mapped')
          exact unhit hits
  · rw [linked_insert,← inv.linked,← touches,← touches]
    constructor
    · rintro ⟨p,listed,left,right⟩
      rcases (unique p).mp listed with rfl | ⟨listed,unhit⟩
      · exact .inr ⟨left,right⟩
      · rw [same p (old p listed) unhit] at left right
        exact .inl ⟨p,listed,left,right⟩
    · rintro (⟨p,listed,left,right⟩ | ⟨left,right⟩)
      · by_cases hits : p ∈ s.hits grouping
        · exact ⟨merged,(unique merged).mpr (.inl rfl),(joined a).mpr (.inr ⟨p,hits,left⟩),(joined b).mpr (.inr ⟨p,hits,right⟩)⟩
        · refine ⟨p,(unique p).mpr (.inr ⟨listed,hits⟩),?_,?_⟩
          · rw [same p (old p listed) hits]
            exact left
          · rw [same p (old p listed) hits]
            exact right
      · exact ⟨merged,(unique merged).mpr (.inl rfl),left,right⟩

/-- All groups are merged, one after another. -/
theorem merged_foldl {more : List AddressSet} (inv : Merged groups s) (filled : ∀ g ∈ more, ∃ a, a ∈ g) :
    Merged (groups ∪ {g | g ∈ more}) (more.foldl (merge allocator) s) := by
  induction more generalizing groups s with
  | nil => simpa using inv
  | cons g rest ih =>
    have step := ih (@merged_merge allocator groups s g inv (filled g (List.mem_cons_self ..))) fun h member => filled h (List.mem_cons_of_mem _ member)
    have same : insert g groups ∪ {h | h ∈ rest} = groups ∪ {h | h ∈ g :: rest} := by
      ext h
      simp only [Set.mem_union,Set.mem_insert_iff,Set.mem_ofPred_eq,List.mem_cons]
      tauto
    rw [same] at step
    exact step

end

end Merging

namespace AccountWallet
variable {wallet : AccountWallet} {wtx : AccountTx} {a b : CTxDestination}

/-- A transaction of the wallet. -/
def Has (wallet : AccountWallet) (wtx : AccountTx) : Prop := wtx ∈ wallet.txs

/-- The address of an output that an input of the transaction spends from the wallet. -/
def SpendsFrom (wallet : AccountWallet) (wtx : AccountTx) (a : CTxDestination) : Prop :=
  ∃ txin ∈ wtx.vin, wallet.IsMineIn txin = true ∧ ∃ prev out, wallet.mapWallet[txin.prevout.hash]? = some prev ∧
    prev.vout[txin.prevout.n]? = some out ∧ wallet.ExtractDestination out.scriptPubKey = some a

/-- The address of a change output of the transaction. -/
def PaysChange (wallet : AccountWallet) (wtx : AccountTx) (a : CTxDestination) : Prop :=
  ∃ txout ∈ wtx.vout, wallet.IsChange txout = true ∧ wallet.ExtractDestination txout.scriptPubKey = some a

/-- The address of an output of the transaction to the wallet. -/
def PaysOwn (wallet : AccountWallet) (wtx : AccountTx) (a : CTxDestination) : Prop :=
  ∃ txout ∈ wtx.vout, wallet.IsMine txout = true ∧ wallet.ExtractDestination txout.scriptPubKey = some a

/-- The addresses of the inputs, and of the change if an input is the wallet's. -/
def SpendsWith (wallet : AccountWallet) (wtx : AccountTx) (a : CTxDestination) : Prop :=
  wallet.SpendsFrom wtx a ∨ ((∃ c, wallet.SpendsFrom wtx c) ∧ wallet.PaysChange wtx a)

/-- An address that was spent from, was change of such a transaction, or received. -/
def Appears (wallet : AccountWallet) (a : CTxDestination) : Prop :=
  ∃ wtx, wallet.Has wtx ∧ (wallet.SpendsWith wtx a ∨ wallet.PaysOwn wtx a)

/-- Both addresses were used in one transaction. -/
def SpentTogether (wallet : AccountWallet) (a b : CTxDestination) : Prop :=
  ∃ wtx, wallet.Has wtx ∧ wallet.SpendsWith wtx a ∧ wallet.SpendsWith wtx b

theorem mem_inputAddresses : a ∈ wtx.vin.filterMap wallet.inputAddress ↔ wallet.SpendsFrom wtx a := by
  rw [List.mem_filterMap,SpendsFrom]
  refine exists_congr fun txin => and_congr_right fun _ => ?_
  rw [inputAddress]
  cases mine : wallet.IsMineIn txin with
  | false => simp
  | true =>
    cases wallet.mapWallet[txin.prevout.hash]? with
    | none => simp
    | some prev => cases found : prev.vout[txin.prevout.n]? <;> simp [found]

theorem mem_txGrouping : a ∈ wallet.txGrouping wtx ↔ wallet.SpendsWith wtx a := by
  have change : a ∈ (wtx.vout.filter wallet.IsChange).filterMap wallet.outputAddress ↔ wallet.PaysChange wtx a := by
    rw [List.mem_filterMap,PaysChange]
    simp only [List.mem_filter,outputAddress,and_assoc]
  have some : (!(wtx.vin.filterMap wallet.inputAddress).isEmpty) = true ↔ ∃ c, wallet.SpendsFrom wtx c := by
    rw [Bool.not_eq_true',← Bool.not_eq_true,List.isEmpty_iff,List.eq_nil_iff_forall_not_mem]
    push Not
    exact exists_congr fun c => mem_inputAddresses
  rw [txGrouping,SpendsWith]
  by_cases inputs : wtx.vin.length > 0
  · rw [if_pos inputs]
    dsimp only
    by_cases mine : ∃ c, wallet.SpendsFrom wtx c
    · rw [if_pos (some.mpr mine),AddressSet.mem_insertAll,AddressSet.mem_insertAll,mem_inputAddresses,change]
      simp only [mine,true_and,ExtTreeSet.not_mem_empty,or_false]
      exact or_comm
    · rw [if_neg fun any => mine (some.mp any),AddressSet.mem_insertAll,mem_inputAddresses]
      simp [mine]
  · have none : wtx.vin = [] := by simpa using inputs
    rw [if_neg inputs]
    simp [SpendsFrom,none]

theorem mem_loneAddresses : a ∈ wallet.loneAddresses wtx ↔ wallet.PaysOwn wtx a := by
  rw [loneAddresses,List.mem_filterMap,PaysOwn]
  simp only [List.mem_filter,outputAddress,and_assoc]

theorem mem_groupTx {groupings : ExtTreeSet AddressSet} {g : AddressSet} : g ∈ wallet.groupTx groupings wtx ↔
    g ∈ groupings ∨ (g = wallet.txGrouping wtx ∧ ∃ a, a ∈ g) ∨ ∃ a, wallet.PaysOwn wtx a ∧ g = (∅ : AddressSet).insert a := by
  have lone : ∀ (addresses : List CTxDestination) (sets : ExtTreeSet AddressSet),
      g ∈ addresses.foldl (fun sets address => sets.insert ((∅ : AddressSet).insert address)) sets ↔
        g ∈ sets ∨ ∃ a ∈ addresses, g = (∅ : AddressSet).insert a := by
    intro addresses
    induction addresses with
    | nil => simp
    | cons address rest ih =>
      intro sets
      rw [List.foldl_cons,ih,ExtTreeSet.mem_insert,Std.compare_eq_iff_eq]
      simp only [List.mem_cons,exists_eq_or_imp,eq_comm (a := (∅ : AddressSet).insert address)]
      tauto
  have filled : (wallet.txGrouping wtx).size > 0 ↔ ∃ a, a ∈ wallet.txGrouping wtx := by
    rw [gt_iff_lt,Nat.pos_iff_ne_zero,ne_eq,← ExtTreeSet.eq_empty_iff_size_eq_zero,
      ExtTreeSet.eq_empty_iff_forall_not_mem]
    push Not
    rfl
  rw [groupTx,lone]
  simp only [mem_loneAddresses]
  rw [← or_assoc]
  refine or_congr_left ?_
  by_cases some : ∃ a, a ∈ wallet.txGrouping wtx
  · rw [if_pos (filled.mpr some),ExtTreeSet.mem_insert,Std.compare_eq_iff_eq]
    constructor
    · rintro (rfl | listed)
      · exact .inr ⟨rfl,some⟩
      · exact .inl listed
    · rintro (listed | ⟨rfl,-⟩)
      · exact .inr listed
      · exact .inl rfl
  · rw [if_neg fun size => some (filled.mp size)]
    constructor
    · exact .inl
    · rintro (listed | ⟨rfl,inside⟩)
      · exact listed
      · exact absurd inside some

theorem mem_groupings {g : AddressSet} : g ∈ wallet.groupings ↔ ∃ wtx, wallet.Has wtx ∧
    ((g = wallet.txGrouping wtx ∧ ∃ a, a ∈ g) ∨ ∃ a, wallet.PaysOwn wtx a ∧ g = (∅ : AddressSet).insert a) := by
  have all : ∀ (txs : List AccountTx) (sets : ExtTreeSet AddressSet), g ∈ txs.foldl wallet.groupTx sets ↔
      g ∈ sets ∨ ∃ wtx ∈ txs, (g = wallet.txGrouping wtx ∧ ∃ a, a ∈ g) ∨ ∃ a, wallet.PaysOwn wtx a ∧ g = (∅ : AddressSet).insert a := by
    intro txs
    induction txs with
    | nil => simp
    | cons wtx rest ih =>
      intro sets
      rw [List.foldl_cons,ih,mem_groupTx]
      simp only [List.mem_cons,exists_eq_or_imp]
      exact or_assoc
  rw [groupings,all]
  simp [Has]

/-- The groups of the wallet link two addresses when a chain of transactions does. -/
theorem linked_groupings : Linked {g | g ∈ wallet.groupings} a b ↔ wallet.Appears a ∧ Relation.ReflTransGen wallet.SpentTogether a b := by
  have one {x y : CTxDestination} (together : Together {g | g ∈ wallet.groupings} x y) : x = y ∨ wallet.SpentTogether x y := by
    obtain ⟨g,listed,left,right⟩ := together
    obtain ⟨wtx,has,⟨rfl,-⟩ | ⟨c,-,rfl⟩⟩ := mem_groupings.mp listed
    · exact .inr ⟨wtx,has,mem_txGrouping.mp left,mem_txGrouping.mp right⟩
    · rw [ExtTreeSet.mem_insert,Std.compare_eq_iff_eq] at left right
      simp only [ExtTreeSet.not_mem_empty,or_false] at left right
      exact .inl (left.symm.trans right)
  constructor
  · intro linked
    refine ⟨?_,?_⟩
    · obtain ⟨g,listed,inside⟩ := linked.covered
      obtain ⟨wtx,has,⟨rfl,-⟩ | ⟨c,pays,rfl⟩⟩ := mem_groupings.mp listed
      · exact ⟨wtx,has,.inl (mem_txGrouping.mp inside)⟩
      · rw [ExtTreeSet.mem_insert,Std.compare_eq_iff_eq] at inside
        simp only [ExtTreeSet.not_mem_empty,or_false] at inside
        exact ⟨wtx,has,.inr (inside ▸ pays)⟩
    · induction linked with
      | single together =>
        rcases one together with rfl | spent
        · exact .refl
        · exact .single spent
      | tail _ together ih =>
        rcases one together with rfl | spent
        · exact ih
        · exact ih.tail spent
  · rintro ⟨⟨wtx,has,uses⟩,chain⟩
    have self : Linked {g | g ∈ wallet.groupings} a a := by
      rcases uses with spends | pays
      · have inside := mem_txGrouping.mpr spends
        exact linked_self (g := wallet.txGrouping wtx) (mem_groupings.mpr ⟨wtx,has,.inl ⟨rfl,a,inside⟩⟩) inside
      · exact linked_self (g := (∅ : AddressSet).insert a) (mem_groupings.mpr ⟨wtx,has,.inr ⟨a,pays,rfl⟩⟩) (by simp)
    induction chain with
    | refl => exact self
    | @tail c d _ spent ih =>
      obtain ⟨tx,has,left,right⟩ := spent
      have inside := mem_txGrouping.mpr left
      exact ih.tail ⟨wallet.txGrouping tx,mem_groupings.mpr ⟨tx,has,.inl ⟨rfl,c,inside⟩⟩,inside,mem_txGrouping.mpr right⟩

/-- What is returned are the groups that the merging leaves. -/
theorem mem_GetAddressGroupings {allocator : Allocator} {g : AddressSet} : g ∈ wallet.GetAddressGroupings allocator ↔
    ∃ p ∈ (wallet.groupings.toList.foldl (Merging.merge allocator) {}).uniqueGroupings,
      (wallet.groupings.toList.foldl (Merging.merge allocator) {}).deref p = g := by
  have all : ∀ (pointers : List Nat) (s : Merging) (ret : ExtTreeSet AddressSet), g ∈ pointers.foldl (fun ret p => ret.insert (s.deref p)) ret ↔
      (∃ p ∈ pointers, s.deref p = g) ∨ g ∈ ret := by
    intro pointers s
    induction pointers with
    | nil => simp
    | cons p rest ih =>
      intro ret
      rw [List.foldl_cons,ih,ExtTreeSet.mem_insert,Std.compare_eq_iff_eq]
      simp only [List.mem_cons,exists_eq_or_imp]
      rw [or_left_comm,or_assoc]
  rw [GetAddressGroupings]
  refine (all _ _ _).trans ?_
  simp [ExtTreeSet.mem_toList]

/-- The groups that are returned are disjoint and not empty, hold every address that appears, and two
    addresses are in one group just when a chain of transactions leads from one to the other. -/
theorem GetAddressGroupings_partition (wallet : AccountWallet) (allocator : Allocator) :
    (∀ g ∈ wallet.GetAddressGroupings allocator, ∀ h ∈ wallet.GetAddressGroupings allocator, g ≠ h → ∀ a, ¬ (a ∈ g ∧ a ∈ h)) ∧
    (∀ g ∈ wallet.GetAddressGroupings allocator, ∃ a, a ∈ g) ∧
    (∀ a, (∃ g ∈ wallet.GetAddressGroupings allocator, a ∈ g) ↔ wallet.Appears a) ∧
    ∀ a b, (∃ g ∈ wallet.GetAddressGroupings allocator, a ∈ g ∧ b ∈ g) ↔ wallet.Appears a ∧ Relation.ReflTransGen wallet.SpentTogether a b := by
  have inv := @Merging.merged_foldl allocator ∅ _ wallet.groupings.toList Merging.merged_empty fun g listed => by
    obtain ⟨wtx,-,⟨-,some⟩ | ⟨a,-,rfl⟩⟩ := mem_groupings.mp (ExtTreeSet.mem_toList.mp listed)
    · exact some
    · exact ⟨a,by simp⟩
  have same : (∅ : Set AddressSet) ∪ {g | g ∈ wallet.groupings.toList} = {g | g ∈ wallet.groupings} := by
    ext g
    simp [ExtTreeSet.mem_toList]
  rw [same] at inv
  have linked : ∀ a b, (∃ g ∈ wallet.GetAddressGroupings allocator, a ∈ g ∧ b ∈ g) ↔
      wallet.Appears a ∧ Relation.ReflTransGen wallet.SpentTogether a b := by
    intro a b
    rw [← linked_groupings,← inv.linked]
    constructor
    · rintro ⟨g,returned,both⟩
      obtain ⟨p,listed,rfl⟩ := mem_GetAddressGroupings.mp returned
      exact ⟨p,listed,both⟩
    · rintro ⟨p,listed,both⟩
      exact ⟨_,mem_GetAddressGroupings.mpr ⟨p,listed,rfl⟩,both⟩
  refine ⟨?_,?_,?_,linked⟩
  · rintro g left h right apart a ⟨inG,inH⟩
    obtain ⟨p,listed,rfl⟩ := mem_GetAddressGroupings.mp left
    obtain ⟨q,listed',rfl⟩ := mem_GetAddressGroupings.mp right
    have first := (inv.map a p).mpr ⟨listed,inG⟩
    have second := (inv.map a q).mpr ⟨listed',inH⟩
    exact apart (by rw [Option.some.inj (first.symm.trans second)])
  · intro g returned
    obtain ⟨p,listed,rfl⟩ := mem_GetAddressGroupings.mp returned
    exact inv.filled p listed
  · intro a
    have both := linked a a
    simp only [and_self,Relation.ReflTransGen.refl,and_true] at both
    exact both

end AccountWallet

end Tetra
