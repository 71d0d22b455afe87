import Mathlib
import Tetra.Maps

/-!
Indexes: maps from keys to the set of what is listed under each. An index is pruned if it
has no key under which nothing is listed.
-/
namespace Tetra.SetIndex
open Maps
open Std (ExtTreeMap ExtTreeSet TransOrd LawfulEqOrd)

variable {κ α ι : Type*} [Ord κ] [TransOrd κ] [Ord α] [TransOrd α] {index : ExtTreeMap κ (ExtTreeSet α)} {k l : κ} {a b : α}

def Listed (index : ExtTreeMap κ (ExtTreeSet α)) (k : κ) (a : α) : Prop := a ∈ index[k]?.getD ∅

def Pruned (index : ExtTreeMap κ (ExtTreeSet α)) : Prop := ∀ (k : κ) set, index[k]? = some set → ∃ a, a ∈ set

def add (index : ExtTreeMap κ (ExtTreeSet α)) (k : κ) (a : α) : ExtTreeMap κ (ExtTreeSet α) :=
  index.insert k ((index[k]?.getD ∅).insert a)

/-- Takes a thing out, and the key with the last one. -/
def prune (index : ExtTreeMap κ (ExtTreeSet α)) (k : κ) (a : α) : ExtTreeMap κ (ExtTreeSet α) :=
  let left := (index[k]?.getD ∅).erase a
  if left.isEmpty then index.erase k else index.insert k left

theorem listed_iff : Listed index k a ↔ ∃ set, index[k]? = some set ∧ a ∈ set := by
  rw [Listed]
  cases index[k]? with
  | none => simp
  | some set => simp

/-- In a pruned index the keys are those under which something is listed. -/
theorem Pruned.mem_iff (pruned : Pruned index) : k ∈ index ↔ ∃ a, Listed index k a := by
  rw [ExtTreeMap.mem_iff_isSome_getElem?,Option.isSome_iff_exists]
  constructor
  · rintro ⟨set,found⟩
    obtain ⟨a,member⟩ := pruned k set found
    exact ⟨a,listed_iff.mpr ⟨set,found,member⟩⟩
  · rintro ⟨a,listed⟩
    obtain ⟨set,found,_⟩ := listed_iff.mp listed
    exact ⟨set,found⟩

variable [LawfulEqOrd κ]

theorem Pruned.add (pruned : Pruned index) (k : κ) (a : α) : Pruned (add index k a) := by
  intro l set found
  rcases insert_some_iff.mp found with ⟨rfl,rfl⟩ | ⟨_,found⟩
  · exact ⟨a,ExtTreeSet.mem_insert_self⟩
  · exact pruned l set found

theorem Pruned.addAll (pruned : Pruned index) (key : ι → κ) (items : List ι) : Pruned (items.foldl (fun index item => SetIndex.add index (key item) a) index) := by
  induction items generalizing index with
  | nil => exact pruned
  | cons item rest ih => exact ih (pruned.add (key item) a)

variable [LawfulEqOrd α]

theorem listed_add : Listed (add index k a) l b ↔ (l = k ∧ b = a) ∨ Listed index l b := by
  rw [Listed,add,ExtTreeMap.getElem?_insert]
  by_cases same : l = k
  · subst same
    rw [if_pos Std.compare_self,Option.getD_some,ExtTreeSet.mem_insert,Std.compare_eq_iff_eq,eq_comm,Listed]
    simp
  · rw [if_neg fun equal => same (Std.compare_eq_iff_eq.mp equal).symm,Listed]
    simp [same]

theorem listed_prune : Listed (prune index k a) l b ↔ ¬(l = k ∧ b = a) ∧ Listed index l b := by
  have erased : ∀ c, c ∈ (index[k]?.getD ∅).erase a ↔ c ≠ a ∧ Listed index k c := by
    intro c
    rw [ExtTreeSet.mem_erase,ne_eq,Std.compare_eq_iff_eq,eq_comm,Listed]
  by_cases same : l = k
  · subst same
    rw [Listed,prune]
    split
    next empty =>
      rw [ExtTreeSet.isEmpty_iff] at empty
      have others := (erased b).symm
      rw [empty] at others
      rw [ExtTreeMap.getElem?_erase,if_pos Std.compare_self]
      simpa using others.mp
    · rw [ExtTreeMap.getElem?_insert,if_pos Std.compare_self,Option.getD_some,erased]
      simp
  · have other : ¬compare k l = .eq := fun equal => same (Std.compare_eq_iff_eq.mp equal).symm
    rw [Listed,prune]
    split
    · rw [ExtTreeMap.getElem?_erase,if_neg other,Listed]
      simp [same]
    · rw [ExtTreeMap.getElem?_insert,if_neg other,Listed]
      simp [same]

theorem Pruned.prune (pruned : Pruned index) (k : κ) (a : α) : Pruned (prune index k a) := by
  intro l set found
  simp only [SetIndex.prune] at found
  split at found
  · exact pruned l set (erase_some_iff.mp found).2
  next filled =>
    rcases insert_some_iff.mp found with ⟨rfl,rfl⟩ | ⟨_,found⟩
    · by_contra none
      push Not at none
      refine filled (ExtTreeSet.isEmpty_iff.mpr (ExtTreeSet.ext_mem fun b => ?_))
      simp [none b]
    · exact pruned l set found

/-- One thing under the keys of some items. -/
theorem listed_addAll (key : ι → κ) (items : List ι) :
    Listed (items.foldl (fun index item => add index (key item) a) index) l b ↔ (b = a ∧ ∃ item ∈ items, key item = l) ∨ Listed index l b := by
  induction items generalizing index with
  | nil => simp
  | cons item rest ih =>
    rw [List.foldl_cons,ih,listed_add,List.exists_mem_cons_iff,eq_comm (a := l)]
    by_cases here : key item = l
    · simp only [here,true_and,true_or,and_true]
      grind
    · simp [here]

theorem listed_pruneAll (key : ι → κ) (items : List ι) :
    Listed (items.foldl (fun index item => prune index (key item) a) index) l b ↔ ¬(b = a ∧ ∃ item ∈ items, key item = l) ∧ Listed index l b := by
  induction items generalizing index with
  | nil => simp
  | cons item rest ih =>
    rw [List.foldl_cons,ih,listed_prune,List.exists_mem_cons_iff,eq_comm (a := l)]
    by_cases here : key item = l
    · simp only [here,true_and,true_or,and_true]
      grind
    · simp [here]

theorem Pruned.pruneAll (pruned : Pruned index) (key : ι → κ) (items : List ι) :
    Pruned (items.foldl (fun index item => SetIndex.prune index (key item) a) index) := by
  induction items generalizing index with
  | nil => exact pruned
  | cons item rest ih => exact ih (pruned.prune (key item) a)

end Tetra.SetIndex
