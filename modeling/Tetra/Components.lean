import Mathlib

/-!
Elements that are linked through a chain of groups, each of which has a link in common
with the next. A new group joins all that it touches and leaves the rest alone.
-/
namespace Components

variable {α γ : Type*} [Membership α γ]

/-- Both are in one of the groups. -/
def Together (groups : Set γ) (a b : α) : Prop := ∃ g ∈ groups, a ∈ g ∧ b ∈ g

def Linked (groups : Set γ) : α → α → Prop := Relation.TransGen (Together groups)

/-- An element of the group, or one that is linked to such an element. -/
def Touches (groups : Set γ) (g : γ) (a : α) : Prop := a ∈ g ∨ ∃ c ∈ g, Linked groups a c

section
variable {groups : Set γ} {g : γ} {a b : α}

theorem Together.symm (together : Together groups a b) : Together groups b a := by
  obtain ⟨g,listed,left,right⟩ := together
  exact ⟨g,listed,right,left⟩

theorem Linked.symm (linked : Linked groups a b) : Linked groups b a := by
  induction linked with
  | single together => exact .single together.symm
  | tail _ together ih => exact .head together.symm ih

theorem Linked.trans {c : α} (left : Linked groups a b) (right : Linked groups b c) : Linked groups a c := Relation.TransGen.trans left right

theorem Linked.mono {more : Set γ} (sub : groups ⊆ more) (linked : Linked groups a b) : Linked more a b := by
  have step {x y : α} (together : Together groups x y) : Together more x y := by
    obtain ⟨g,listed,both⟩ := together
    exact ⟨g,sub listed,both⟩
  induction linked with
  | single together => exact .single (step together)
  | tail _ together ih => exact .tail ih (step together)

/-- What is linked at all is in a group. -/
theorem Linked.covered (linked : Linked groups a b) : ∃ g ∈ groups, a ∈ g := by
  induction linked with
  | single together =>
    obtain ⟨g,listed,inside,-⟩ := together
    exact ⟨g,listed,inside⟩
  | tail _ _ ih => exact ih

theorem linked_self (listed : g ∈ groups) (inside : a ∈ g) : Linked groups a a := .single ⟨g,listed,inside,inside⟩

theorem Touches.of_linked (touches : Touches groups g b) (linked : Linked groups a b) : Touches groups g a := by
  rcases touches with inside | ⟨c,inside,chain⟩
  · exact .inr ⟨b,inside,linked⟩
  · exact .inr ⟨c,inside,linked.trans chain⟩

theorem Touches.linked_insert (left : Touches groups g a) (right : Touches groups g b) : Linked (insert g groups) a b := by
  have inner {c d : α} (here : c ∈ g) (there : d ∈ g) : Linked (insert g groups) c d := .single ⟨g,Set.mem_insert ..,here,there⟩
  have sub : groups ⊆ insert g groups := Set.subset_insert ..
  rcases left with here | ⟨c,here,first⟩
  · rcases right with there | ⟨d,there,last⟩
    · exact inner here there
    · exact (inner here there).trans (last.mono sub).symm
  · rcases right with there | ⟨d,there,last⟩
    · exact (first.mono sub).trans (inner here there)
    · exact (first.mono sub).trans ((inner here there).trans (last.mono sub).symm)

/-- A new group joins all that it touches. -/
theorem linked_insert : Linked (insert g groups) a b ↔ Linked groups a b ∨ (Touches groups g a ∧ Touches groups g b) := by
  constructor
  · intro linked
    have one {x y : α} (together : Together (insert g groups) x y) : Linked groups x y ∨ (Touches groups g x ∧ Touches groups g y) := by
      obtain ⟨h,listed,left,right⟩ := together
      rcases listed with rfl | listed
      · exact .inr ⟨.inl left,.inl right⟩
      · exact .inl (.single ⟨h,listed,left,right⟩)
    induction linked with
    | single together => exact one together
    | @tail b c _ together ih =>
      rcases ih with chain | ⟨left,touch⟩
      · rcases one together with more | ⟨touch,right⟩
        · exact .inl (chain.trans more)
        · exact .inr ⟨touch.of_linked chain,right⟩
      · rcases one together with more | ⟨-,right⟩
        · exact .inr ⟨left,touch.of_linked more.symm⟩
        · exact .inr ⟨left,right⟩
  · rintro (chain | ⟨left,right⟩)
    · exact chain.mono (Set.subset_insert ..)
    · exact left.linked_insert right

end

end Components
