import Mathlib

/-!
Matching the values of a list, in their order, with values of another list in theirs, and
the greedy search for such a matching.
-/
namespace Tetra.Matching

variable {α β : Type} (R : α → β → Bool)

/-- Every value has a partner, at strictly increasing places. -/
def Matches (as : List α) (bs : List β) : Prop :=
  ∃ partner : Fin as.length → Fin bs.length, StrictMono partner ∧ ∀ i, R (as.get i) (bs.get (partner i))

/-- Gives each value the first partner that is left. -/
def greedy : List α → List β → Bool
  | [], _ => true
  | _ :: _, [] => false
  | a :: as, b :: bs => if R a b then greedy as bs else greedy (a :: as) bs

variable {R}

theorem matches_iff {as : List α} {bs : List β} : Matches R as bs ↔ ∃ cs, cs.Sublist bs ∧ List.Forall₂ (fun a c => R a c) as cs := by
  constructor
  · rintro ⟨partner,rising,agree⟩
    refine ⟨List.ofFn fun i => bs.get (partner i),?_,?_⟩
    · rw [List.sublist_iff_exists_fin_orderEmbedding_get_eq]
      have long : (List.ofFn fun i => bs.get (partner i)).length = as.length := List.length_ofFn
      refine ⟨OrderEmbedding.ofStrictMono (fun i => partner (i.cast long)) fun i j less => rising less,fun i => ?_⟩
      simp
      rfl
    · rw [List.forall₂_iff_get]
      refine ⟨by simp,fun i inside inside' => ?_⟩
      simpa using agree ⟨i,inside⟩
  · rintro ⟨cs,part,agree⟩
    obtain ⟨place,placed⟩ := List.sublist_iff_exists_fin_orderEmbedding_get_eq.mp part
    have long := agree.length_eq
    refine ⟨fun i => place (i.cast long),fun i j less => place.strictMono less,fun i => ?_⟩
    rw [← placed]
    exact agree.get i.isLt (long ▸ i.isLt)

theorem matches_nil (bs : List β) : Matches R [] bs := matches_iff.mpr ⟨[],List.nil_sublist bs,.nil⟩

theorem matches_length {as : List α} {bs : List β} (matched : Matches R as bs) : as.length ≤ bs.length := by
  obtain ⟨cs,part,agree⟩ := matches_iff.mp matched
  exact agree.length_eq.trans_le part.length_le

theorem matches_tail {a : α} {as : List α} {b : β} {bs : List β} (matched : Matches R (a :: as) (b :: bs)) : Matches R as bs := by
  obtain ⟨cs,part,agree⟩ := matches_iff.mp matched
  cases agree with
  | cons _ rest =>
    refine matches_iff.mpr ⟨_,?_,rest⟩
    cases part with
    | cons _ inside => exact (List.sublist_cons_self _ _).trans inside
    | cons_cons _ inside => exact inside

theorem matches_cons {a : α} {as : List α} {b : β} {bs : List β} :
    Matches R (a :: as) (b :: bs) ↔ (R a b ∧ Matches R as bs) ∨ Matches R (a :: as) bs := by
  constructor
  · intro matched
    obtain ⟨cs,part,agree⟩ := matches_iff.mp matched
    cases part with
    | cons _ inside => exact .inr (matches_iff.mpr ⟨cs,inside,agree⟩)
    | cons_cons _ inside =>
      cases agree with
      | cons here rest => exact .inl ⟨here,matches_iff.mpr ⟨_,inside,rest⟩⟩
  · rintro (⟨here,matched⟩ | matched)
    · obtain ⟨cs,part,agree⟩ := matches_iff.mp matched
      exact matches_iff.mpr ⟨b :: cs,part.cons_cons b,.cons here agree⟩
    · obtain ⟨cs,part,agree⟩ := matches_iff.mp matched
      exact matches_iff.mpr ⟨cs,part.cons b,agree⟩

/-- A partner that fits may be taken: the values behind match what is left all the same. -/
theorem greedy_iff (as : List α) (bs : List β) : greedy R as bs ↔ Matches R as bs := by
  induction as, bs using greedy.induct R with
  | case1 bs => simp [greedy,matches_nil]
  | case2 a as =>
    have short : ¬Matches R (a :: as) [] := fun matched => by simpa using matches_length matched
    simp [greedy,short]
  | case3 a as b bs here ih =>
    rw [greedy,if_pos here,ih]
    exact ⟨fun matched => matches_cons.mpr (.inl ⟨here,matched⟩),matches_tail⟩
  | case4 a as b bs here ih =>
    rw [greedy,if_neg here,ih,matches_cons]
    exact ⟨.inr,fun matched => matched.resolve_left fun both => here both.1⟩

/-- It makes no difference from which end the lists are read. -/
theorem matches_reverse {as : List α} {bs : List β} : Matches R as.reverse bs.reverse ↔ Matches R as bs := by
  have turn {as : List α} {bs : List β} (matched : Matches R as bs) : Matches R as.reverse bs.reverse := by
    obtain ⟨cs,part,agree⟩ := matches_iff.mp matched
    exact matches_iff.mpr ⟨cs.reverse,List.reverse_sublist.mpr part,List.rel_reverse agree⟩
  refine ⟨fun matched => ?_,turn⟩
  simpa using turn matched

/-- Values found for some of the partners match those they were found for. -/
theorem matches_filterMap {bs : List β} {found : β → Option α} (fit : ∀ b ∈ bs, ∀ a, found b = some a → R a b) : Matches R (bs.filterMap found) bs := by
  induction bs with
  | nil => exact matches_nil []
  | cons b bs ih =>
    have rest := ih fun other member => fit other (List.mem_cons_of_mem _ member)
    cases here : found b with
    | none =>
      rw [List.filterMap_cons_none here]
      obtain ⟨cs,part,agree⟩ := matches_iff.mp rest
      exact matches_iff.mpr ⟨cs,part.cons b,agree⟩
    | some a =>
      rw [List.filterMap_cons_some here]
      exact matches_cons.mpr (.inl ⟨fit b (List.mem_cons_self ..) a here,rest⟩)

theorem matches_take {as : List α} {bs : List β} (matched : Matches R as bs) (n : Nat) : Matches R (as.take n) bs := by
  obtain ⟨cs,part,agree⟩ := matches_iff.mp matched
  exact matches_iff.mpr ⟨cs.take n,(List.take_sublist n cs).trans part,List.forall₂_take n agree⟩

end Tetra.Matching
