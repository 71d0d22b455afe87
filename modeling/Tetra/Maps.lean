import Mathlib

/-!
Ordered finite maps as `std::map` uses them: one map folded into another, entry
by entry in key order, and the predicates a loop over all entries decides. The
results are stated through lookups, so a client never sees the order.
-/
namespace Tetra.Maps
open Std

variable {κ : Type*} {α β : Type*} {cmp : κ → κ → Ordering} [TransCmp cmp] [LawfulEqCmp cmp]

/-- Every entry of `right` goes into `left`: `both old new` where `left` has the
    key already, `fresh new` where it does not. -/
def mergeInto (both : α → β → α) (fresh : β → α) (left : ExtTreeMap κ α cmp) (right : ExtTreeMap κ β cmp) :
    ExtTreeMap κ α cmp :=
  right.foldl (fun acc k v => acc.insert k (match acc[k]? with | some old => both old v | none => fresh v)) left

private theorem foldl_other (step : ExtTreeMap κ α cmp → κ → β → α) (entries : List (κ × β)) (k : κ)
    (absent : ∀ v, (k,v) ∉ entries) (acc : ExtTreeMap κ α cmp) :
    (entries.foldl (fun acc e => acc.insert e.1 (step acc e.1 e.2)) acc)[k]? = acc[k]? := by
  induction entries generalizing acc with
  | nil => rfl
  | cons e rest ih =>
    have different : ¬ cmp e.1 k = .eq := by
      intro same
      have equal := LawfulEqCmp.eq_of_compare same
      exact absent e.2 (by simp [← equal])
    rw [List.foldl_cons,ih (fun v later => absent v (List.mem_cons_of_mem _ later)),ExtTreeMap.getElem?_insert]
    simp [different]

private theorem foldl_found (step : ExtTreeMap κ α cmp → κ → β → α)
    (local_step : ∀ (acc acc' : ExtTreeMap κ α cmp) k v, acc[k]? = acc'[k]? → step acc k v = step acc' k v)
    (entries : List (κ × β)) (distinct : entries.Pairwise (fun a b => ¬ cmp a.1 b.1 = .eq)) (k : κ) (v : β)
    (member : (k,v) ∈ entries) (acc : ExtTreeMap κ α cmp) :
    (entries.foldl (fun acc e => acc.insert e.1 (step acc e.1 e.2)) acc)[k]? = some (step acc k v) := by
  induction entries generalizing acc with
  | nil => simp at member
  | cons e rest ih =>
    obtain ⟨headDistinct,restDistinct⟩ := List.pairwise_cons.mp distinct
    rw [List.foldl_cons]
    rcases List.mem_cons.mp member with same | later
    · subst same
      rw [foldl_other step rest k (fun w later => headDistinct (k,w) later ReflCmp.compare_self)]
      simp
    · have different : ¬ cmp e.1 k = .eq := headDistinct (k,v) later
      rw [ih restDistinct later]
      congr 1
      exact local_step _ _ k v (by simp [ExtTreeMap.getElem?_insert,different])

/-- Folding one map into another acts on every key by itself. -/
theorem getElem?_mergeInto (both : α → β → α) (fresh : β → α) (left : ExtTreeMap κ α cmp)
    (right : ExtTreeMap κ β cmp) (k : κ) :
    (mergeInto both fresh left right)[k]? =
      match right[k]? with
      | none => left[k]?
      | some v => some (match left[k]? with | some old => both old v | none => fresh v) := by
  rw [mergeInto,ExtTreeMap.foldl_eq_foldl_toList]
  let step (acc : ExtTreeMap κ α cmp) (k : κ) (v : β) : α :=
    match acc[k]? with | some old => both old v | none => fresh v
  have stepLocal : ∀ (acc acc' : ExtTreeMap κ α cmp) k v, acc[k]? = acc'[k]? → step acc k v = step acc' k v := by
    intro acc acc' k v same
    simp only [step,same]
  cases found : right[k]? with
  | none =>
    have absent : ∀ v, (k,v) ∉ right.toList := by
      intro v member
      simp [ExtTreeMap.mem_toList_iff_getElem?_eq_some,found] at member
    exact foldl_other step _ k absent left
  | some v =>
    exact foldl_found step stepLocal _ ExtTreeMap.distinct_keys_toList k v
      (ExtTreeMap.mem_toList_iff_getElem?_eq_some.mpr found) left

private theorem foldl_writes {step : ExtTreeMap κ α cmp → κ → β → ExtTreeMap κ α cmp} {kept : β → Option α}
    (writes : ∀ acc k v (k' : κ), (step acc k v)[k']? = if cmp k k' = .eq then kept v else acc[k']?)
    (entries : List (κ × β)) (distinct : entries.Pairwise (fun a b => ¬ cmp a.1 b.1 = .eq)) (k : κ) (acc : ExtTreeMap κ α cmp) :
    (entries.foldl (fun acc e => step acc e.1 e.2) acc)[k]? =
      match entries.find? (fun e => cmp e.1 k == .eq) with | none => acc[k]? | some e => kept e.2 := by
  induction entries generalizing acc with
  | nil => rfl
  | cons e rest ih =>
    obtain ⟨headDistinct,restDistinct⟩ := List.pairwise_cons.mp distinct
    rw [List.foldl_cons,ih restDistinct]
    by_cases same : cmp e.1 k = .eq
    · obtain rfl := LawfulEqCmp.eq_of_compare same
      have alone : rest.find? (fun e' => cmp e'.1 e.1 == .eq) = none := by
        rw [List.find?_eq_none]
        intro e' member equal
        refine headDistinct e' member ?_
        rw [LawfulEqCmp.eq_of_compare (beq_iff_eq.mp equal)]
        exact ReflCmp.compare_self
      simp [alone,writes]
    · have skipped : (cmp e.1 k == .eq) = false := by simpa using same
      rw [List.find?_cons,skipped]
      cases rest.find? (fun e => cmp e.1 k == .eq) with
      | none => simp [writes,same]
      | some e' => rfl

/-- A loop that writes what it keeps of every entry, and takes out the rest. -/
theorem getElem?_foldl {step : ExtTreeMap κ α cmp → κ → β → ExtTreeMap κ α cmp} {kept : β → Option α}
    (writes : ∀ acc k v (k' : κ), (step acc k v)[k']? = if cmp k k' = .eq then kept v else acc[k']?)
    (left : ExtTreeMap κ α cmp) (right : ExtTreeMap κ β cmp) (k : κ) :
    (right.foldl step left)[k]? = match right[k]? with | none => left[k]? | some v => kept v := by
  rw [ExtTreeMap.foldl_eq_foldl_toList,foldl_writes writes _ ExtTreeMap.distinct_keys_toList]
  cases found : right[k]? with
  | none =>
    have absent : right.toList.find? (fun e => cmp e.1 k == .eq) = none := by
      rw [List.find?_eq_none]
      intro e member equal
      have here := ExtTreeMap.mem_toList_iff_getElem?_eq_some.mp member
      rw [LawfulEqCmp.eq_of_compare (beq_iff_eq.mp equal),found] at here
      contradiction
    rw [absent]
  | some v =>
    cases first : right.toList.find? (fun e => cmp e.1 k == .eq) with
    | none =>
      have member : (k,v) ∈ right.toList := ExtTreeMap.mem_toList_iff_getElem?_eq_some.mpr found
      exact absurd (beq_iff_eq.mpr ReflCmp.compare_self) (List.find?_eq_none.mp first (k,v) member)
    | some e =>
      have here := ExtTreeMap.mem_toList_iff_getElem?_eq_some.mp (List.mem_of_find?_eq_some first)
      have equal := List.find?_some first
      rw [LawfulEqCmp.eq_of_compare (beq_iff_eq.mp equal),found] at here
      rw [Option.some.inj here]

/-- A loop that looks at every entry decides a statement about every lookup. -/
theorem all_toList_iff (m : ExtTreeMap κ α cmp) (p : κ → α → Bool) :
    (m.toList.all fun e => p e.1 e.2) = true ↔ ∀ k v, m[k]? = some v → p k v = true := by
  rw [List.all_eq_true]
  constructor
  · intro all k v found
    exact all (k,v) (ExtTreeMap.mem_toList_iff_getElem?_eq_some.mpr found)
  · intro all e member
    exact all e.1 e.2 (ExtTreeMap.mem_toList_iff_getElem?_eq_some.mp member)

/-- A map is empty when no lookup finds anything. -/
theorem isEmpty_iff_getElem? (m : ExtTreeMap κ α cmp) : m.isEmpty = true ↔ ∀ k : κ, m[k]? = none := by
  rw [ExtTreeMap.isEmpty_iff]
  constructor
  · rintro rfl k; simp
  · intro absent
    have same : ∀ k : κ, m[k]? = (∅ : ExtTreeMap κ α cmp)[k]? := by intro k; simp [absent k]
    exact ExtTreeMap.ext_getElem? same

section
variable {M : Type*} [AddCommMonoid M]

/-- The sum of `f` over all entries. -/
def total (f : α → M) (m : ExtTreeMap κ α cmp) : M := (m.toList.map fun e => f e.2).sum

/-- What one key adds to the total. -/
def part (f : α → M) (m : ExtTreeMap κ α cmp) (k : κ) : M := (m[k]?.map f).getD 0

/-- A total is the sum over any finite set of keys that has all the entries. -/
theorem total_eq_sum (f : α → M) (m : ExtTreeMap κ α cmp) (keys : Finset κ) (complete : ∀ k : κ, m[k]? ≠ none → k ∈ keys) :
    total f m = ∑ k ∈ keys, part f m k := by
  classical
  have distinct : (m.toList.map Prod.fst).Nodup := by
    refine List.pairwise_map.mpr (ExtTreeMap.distinct_keys_toList.imp fun different same => ?_)
    exact different (by rw [same]; exact ReflCmp.compare_self)
  have listed : ∀ k : κ, k ∈ (m.toList.map Prod.fst).toFinset ↔ m[k]? ≠ none := by
    intro k
    simp
  have within : (m.toList.map Prod.fst).toFinset ⊆ keys := by
    intro k member
    exact complete k ((listed k).mp member)
  rw [← Finset.sum_subset within (fun k _ absent => ?_)]
  · rw [List.sum_toFinset _ distinct,List.map_map,total]
    congr 1
    refine List.map_congr_left fun e member => ?_
    simp [part,ExtTreeMap.mem_toList_iff_getElem?_eq_some.mp member]
  · have : m[k]? = none := by simpa [listed] using absent
    simp [part,this]

/-- The keys of a map. -/
theorem exists_keys (m : ExtTreeMap κ α cmp) : ∃ keys : Finset κ, ∀ k : κ, m[k]? ≠ none → k ∈ keys := by
  classical
  refine ⟨(m.toList.map Prod.fst).toFinset,fun k present => ?_⟩
  obtain ⟨v,found⟩ := Option.ne_none_iff_exists'.mp present
  simp only [List.mem_toFinset,List.mem_map]
  exact ⟨(k,v),ExtTreeMap.mem_toList_iff_getElem?_eq_some.mpr found,rfl⟩

/-- When every key adds in the third map what it adds in the first two, so do the totals. -/
theorem total_add {β γ : Type*} {f : α → M} {g : β → M} {h : γ → M} {left : ExtTreeMap κ α cmp} {right : ExtTreeMap κ β cmp}
    {both : ExtTreeMap κ γ cmp} (parts : ∀ k : κ, part h both k = part f left k+part g right k)
    (within : ∀ k : κ, both[k]? ≠ none → left[k]? ≠ none ∨ right[k]? ≠ none) : total h both = total f left+total g right := by
  classical
  obtain ⟨leftKeys,leftComplete⟩ := exists_keys left
  obtain ⟨rightKeys,rightComplete⟩ := exists_keys right
  have inLeft : ∀ k : κ, left[k]? ≠ none → k ∈ leftKeys ∪ rightKeys := by
    intro k present; exact Finset.mem_union_left _ (leftComplete k present)
  have inRight : ∀ k : κ, right[k]? ≠ none → k ∈ leftKeys ∪ rightKeys := by
    intro k present; exact Finset.mem_union_right _ (rightComplete k present)
  have inBoth : ∀ k : κ, both[k]? ≠ none → k ∈ leftKeys ∪ rightKeys := by
    intro k present; exact (within k present).elim (inLeft k) (inRight k)
  rw [total_eq_sum h both _ inBoth,total_eq_sum f left _ inLeft,total_eq_sum g right _ inRight,← Finset.sum_add_distrib]
  exact Finset.sum_congr rfl fun k _ => parts k

/-- Folding a map into another adds its total, if the measure adds up. -/
theorem total_mergeInto {β : Type*} {f : α → M} {g : β → M} {both : α → β → α} {fresh : β → α} (adds : ∀ old v, f (both old v) = f old+g v)
    (starts : ∀ v, f (fresh v) = g v) (left : ExtTreeMap κ α cmp) (right : ExtTreeMap κ β cmp) :
    total f (mergeInto both fresh left right) = total f left+total g right := by
  refine total_add (fun k => ?_) (fun k => ?_)
  · simp only [part,getElem?_mergeInto]
    cases right[k]? <;> cases left[k]? <;> simp [adds,starts]
  · rw [getElem?_mergeInto]
    cases right[k]? <;> simp

end

section
variable {κ α : Type*} [Ord κ] [TransOrd κ] [LawfulEqOrd κ] {m : ExtTreeMap κ α}

theorem insert_some_iff {k l : κ} {x y : α} : (m.insert k x)[l]? = some y ↔ (l = k ∧ y = x) ∨ (l ≠ k ∧ m[l]? = some y) := by
  rw [ExtTreeMap.getElem?_insert]
  split
  next same =>
    obtain rfl := Std.compare_eq_iff_eq.mp same
    constructor
    · intro found
      exact .inl ⟨rfl,(Option.some.inj found).symm⟩
    · rintro (⟨_,rfl⟩ | ⟨other,_⟩)
      · rfl
      · exact absurd rfl other
  next other =>
    have different : l ≠ k := fun same => other (Std.compare_eq_iff_eq.mpr same.symm)
    constructor
    · intro found
      exact .inr ⟨different,found⟩
    · rintro (⟨same,_⟩ | ⟨_,found⟩)
      · exact absurd same different
      · exact found

theorem erase_some_iff {k l : κ} {y : α} : (m.erase k)[l]? = some y ↔ l ≠ k ∧ m[l]? = some y := by
  rw [ExtTreeMap.getElem?_erase]
  split
  next same =>
    obtain rfl := Std.compare_eq_iff_eq.mp same
    constructor
    · intro found
      contradiction
    · rintro ⟨other,_⟩
      exact absurd rfl other
  next other =>
    have different : l ≠ k := fun same => other (Std.compare_eq_iff_eq.mpr same.symm)
    exact ⟨fun found => ⟨different,found⟩,fun ⟨_,found⟩ => found⟩

theorem insert_self (k : κ) (x : α) : (m.insert k x)[k]? = some x := insert_some_iff.mpr (.inl ⟨rfl,rfl⟩)

theorem insert_other {k l : κ} (x : α) {y : α} (other : l ≠ k) (found : m[l]? = some y) : (m.insert k x)[l]? = some y :=
  insert_some_iff.mpr (.inr ⟨other,found⟩)

/-- A value that is replaced later does not matter. -/
theorem insert_back {k l : κ} (apart : k ≠ l) (x x' y : α) : (m.insert k x).insert l y = ((m.insert k x').insert l y).insert k x := by
  apply ExtTreeMap.ext_getElem?
  intro i
  apply Option.ext
  intro z
  simp only [insert_some_iff]
  by_cases isK : i = k
  · subst isK
    simp [apart]
  · simp [isK]

theorem lookup_insert_other {k l : κ} (apart : k ≠ l) (x : α) : (m.insert k x)[l]? = m[l]? := by
  rw [ExtTreeMap.getElem?_insert,if_neg (mt Std.compare_eq_iff_eq.mp apart)]

theorem lookup_erase_other {k l : κ} (apart : k ≠ l) : (m.erase k)[l]? = m[l]? := by
  rw [ExtTreeMap.getElem?_erase,if_neg (mt Std.compare_eq_iff_eq.mp apart)]

theorem insert_comm {k l : κ} (apart : k ≠ l) (x y : α) : (m.insert k x).insert l y = (m.insert l y).insert k x := by
  refine ExtTreeMap.ext_getElem? fun i => ?_
  by_cases atK : k = i
  · subst atK
    rw [lookup_insert_other apart.symm,insert_self,insert_self]
  · rw [lookup_insert_other atK]
    by_cases atL : l = i
    · rw [atL,insert_self,insert_self]
    · rw [lookup_insert_other atL,lookup_insert_other atL,lookup_insert_other atK]

theorem insert_again (k : κ) (x y : α) : (m.insert k x).insert k y = m.insert k y := by
  refine ExtTreeMap.ext_getElem? fun i => ?_
  simp only [ExtTreeMap.getElem?_insert]
  split <;> rfl

theorem insert_found {k : κ} {x : α} (found : m[k]? = some x) : m.insert k x = m := by
  refine ExtTreeMap.ext_getElem? fun l => ?_
  by_cases same : k = l
  · subst same
    rw [insert_self,found]
  · rw [lookup_insert_other same]

theorem exists_insert {k l : κ} {x : α} {P : α → Prop} (found : ∃ y, m[l]? = some y ∧ P y) (here : l = k → P x) :
    ∃ y, (m.insert k x)[l]? = some y ∧ P y := by
  obtain ⟨y,there,holds⟩ := found
  by_cases same : l = k
  · subst same
    exact ⟨x,insert_self l x,here rfl⟩
  · exact ⟨y,insert_other x same there,holds⟩

/-- What the new value keeps of the old one still holds of all that did it. -/
theorem exists_replace {k l : κ} {x x' : α} {P : α → Prop} (found : m[k]? = some x) (keeps : P x → P x')
    (there : ∃ y, m[l]? = some y ∧ P y) : ∃ y, (m.insert k x')[l]? = some y ∧ P y := by
  refine exists_insert there ?_
  rintro rfl
  obtain ⟨y,here,holds⟩ := there
  obtain rfl := Option.some.inj (found.symm.trans here)
  exact keeps holds

theorem found_insert {k l : κ} (x : α) (found : ∃ y, m[l]? = some y) :
    ∃ y, (m.insert k x)[l]? = some y := by
  obtain ⟨y,there⟩ := found
  obtain ⟨z,there,_⟩ := @exists_insert κ α _ _ _ m k l x (fun _ => True) ⟨y,there,trivial⟩ fun _ => trivial
  exact ⟨z,there⟩

/-- Entries in the order of their keys are those of a map when they say the same as its lookups. -/
theorem toList_eq {entries : List (κ × α)} (ordered : entries.Pairwise fun a b => compare a.1 b.1 = .lt)
    (same : ∀ (k : κ) (x : α), (k,x) ∈ entries ↔ m[k]? = some x) : m.toList = entries := by
  have apart : ∀ a b : κ × α, compare a.1 b.1 = .lt → a ≠ b := by
    rintro a b less rfl
    rw [ReflOrd.compare_self] at less
    contradiction
  have members : ∀ e : κ × α, e ∈ m.toList ↔ e ∈ entries := by
    rintro ⟨k,x⟩
    rw [ExtTreeMap.mem_toList_iff_getElem?_eq_some,same]
  have perm : m.toList.Perm entries :=
    (List.perm_ext_iff_of_nodup (ExtTreeMap.ordered_keys_toList.imp fun less => apart _ _ less) (ordered.imp fun less => apart _ _ less)).mpr members
  refine perm.eq_of_pairwise (fun a b _ _ less back => ?_) ExtTreeMap.ordered_keys_toList ordered
  have swapped := OrientedOrd.eq_swap (a := a.1) (b := b.1)
  rw [less,back] at swapped
  contradiction

/-- A value that is replaced keeps its place among the entries. -/
theorem toList_insert {before after : List (κ × α)} {k : κ} {x : α} (entries : m.toList = before ++ (k,x) :: after) (y : α) :
    (m.insert k y).toList = before ++ (k,y) :: after := by
  have ordered : (before ++ (k,x) :: after).Pairwise fun a b => compare a.1 b.1 = .lt := entries ▸ ExtTreeMap.ordered_keys_toList
  obtain ⟨first,second,across⟩ := List.pairwise_append.mp ordered
  obtain ⟨later,rest⟩ := List.pairwise_cons.mp second
  have earlier : ∀ a ∈ before, compare a.1 k = .lt := fun a member => across a member (k,x) (List.mem_cons_self ..)
  have ordered' : (before ++ (k,y) :: after).Pairwise fun a b => compare a.1 b.1 = .lt := by
    refine List.pairwise_append.mpr ⟨first,List.pairwise_cons.mpr ⟨later,rest⟩,fun a left b right => ?_⟩
    rcases List.mem_cons.mp right with rfl | right
    · exact earlier a left
    · exact across a left b (List.mem_cons_of_mem _ right)
  refine toList_eq ordered' fun l z => ?_
  have found : m[l]? = some z ↔ (l,z) ∈ before ++ (k,x) :: after := by rw [← entries,ExtTreeMap.mem_toList_iff_getElem?_eq_some]
  have absent : ∀ z, (k,z) ∉ before ∧ (k,z) ∉ after := by
    refine fun z => ⟨fun left => ?_,fun right => ?_⟩
    · have less := earlier _ left
      rw [ReflOrd.compare_self] at less
      contradiction
    · have less := later _ right
      rw [ReflOrd.compare_self] at less
      contradiction
  rw [insert_some_iff,found]
  simp only [List.mem_append,List.mem_cons,Prod.mk.injEq]
  by_cases same : l = k
  · subst same
    simp [absent]
  · simp [same]

/-- The entries of a map, put into an empty one, give the map again. -/
theorem foldl_insertIfNew_toList (m : ExtTreeMap κ α) : m.toList.foldl (fun acc e => acc.insertIfNew e.1 e.2) (∅ : ExtTreeMap κ α) = m := by
  have fills : ∀ (entries : List (κ × α)) (acc : ExtTreeMap κ α), entries.Pairwise (fun a b => ¬ compare a.1 b.1 = .eq) →
      (∀ e ∈ entries, acc[e.1]? = none) → ∀ k v,
      (entries.foldl (fun acc e => acc.insertIfNew e.1 e.2) acc)[k]? = some v ↔ (k,v) ∈ entries ∨ acc[k]? = some v := by
    intro entries
    induction entries with
    | nil => exact fun acc _ _ k v => by simp
    | cons e rest ih =>
      intro acc distinct fresh k v
      obtain ⟨apart,distinct⟩ := List.pairwise_cons.mp distinct
      have new : e.1 ∉ acc := by
        rw [ExtTreeMap.mem_iff_isSome_getElem?,fresh e (List.mem_cons_self ..)]
        exact nofun
      have same : acc.insertIfNew e.1 e.2 = acc.insert e.1 e.2 := by
        apply ExtTreeMap.ext_getElem?
        intro l
        rw [ExtTreeMap.getElem?_insertIfNew,ExtTreeMap.getElem?_insert]
        by_cases here : compare e.1 l = .eq
        · rw [if_pos ⟨here,new⟩,if_pos here]
        · rw [if_neg fun both => here both.1,if_neg here]
      rw [List.foldl_cons,same,ih _ distinct,insert_some_iff,List.mem_cons]
      · constructor
        · rintro (later | ⟨rfl,rfl⟩ | ⟨_,found⟩)
          · exact .inl (.inr later)
          · exact .inl (.inl rfl)
          · exact .inr found
        · rintro ((rfl | later) | found)
          · exact .inr (.inl ⟨rfl,rfl⟩)
          · exact .inl later
          · refine .inr (.inr ⟨?_,found⟩)
            rintro rfl
            rw [fresh e (List.mem_cons_self ..)] at found
            contradiction
      · intro e' member
        have other : ¬ compare e.1 e'.1 = .eq := apart e' member
        rw [ExtTreeMap.getElem?_insert,if_neg other]
        exact fresh e' (List.mem_cons_of_mem _ member)
  apply ExtTreeMap.ext_getElem?
  intro k
  apply Option.ext
  intro v
  rw [fills m.toList ∅ ExtTreeMap.distinct_keys_toList (fun e _ => by simp) k v,ExtTreeMap.mem_toList_iff_getElem?_eq_some]
  simp

end

end Tetra.Maps
