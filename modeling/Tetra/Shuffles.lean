import Mathlib

/-!
A shuffle of the front of a list: in each turn the entry at a place that is drawn is
swapped with the one whose turn it is.
-/
namespace Tetra.Shuffles
variable {α : Type*} (place : Nat → Nat)

def swapIn (list : List α) (i p : Nat) : List α :=
  match list[p]?,list[i]? with
  | some drawn, some first => (list.set p first).set i drawn
  | _, _ => list

/-- The turns from `i` on. -/
def shuffle : Nat → Nat → List α → List α
  | 0, _, list => list
  | turns+1, i, list => shuffle turns (i+1) (swapIn list i (place i))

/-- The entries drawn in these turns, each with its place. -/
def draws : Nat → Nat → List α → List (α × Nat)
  | 0, _, _ => []
  | turns+1, i, list => ((list[place i]?).toList.map fun drawn => (drawn,place i)) ++ draws turns (i+1) (swapIn list i (place i))

theorem swapIn_perm (list : List α) (i p : Nat) : (swapIn list i p).Perm list := by
  unfold swapIn
  split
  next drawn first atPlace atTurn =>
    obtain ⟨inside,rfl⟩ := List.getElem?_eq_some_iff.mp atPlace
    obtain ⟨low,rfl⟩ := List.getElem?_eq_some_iff.mp atTurn
    exact List.set_set_perm inside low
  next => exact List.Perm.refl _

@[simp] theorem length_swapIn (list : List α) (i p : Nat) : (swapIn list i p).length = list.length := (swapIn_perm list i p).length_eq

/-- The entry that is drawn comes to the place of the turn. -/
theorem swapIn_take {list : List α} {i p : Nat} (later : i ≤ p) (inside : p < list.length) :
    (swapIn list i p).take (i+1) = list.take i ++ [list[p]] := by
  have low : i < list.length := by omega
  unfold swapIn
  rw [List.getElem?_eq_getElem inside,List.getElem?_eq_getElem low]
  dsimp only
  rw [List.take_set,List.take_succ_eq_append_getElem (by simpa using low),List.take_set_of_le later,
    List.set_append_right _ _ (by simp)]
  simp [Nat.min_eq_left low.le]

variable {place}

theorem shuffle_perm (turns i : Nat) (list : List α) : (shuffle place turns i list).Perm list := by
  induction turns generalizing i list with
  | zero => exact List.Perm.refl _
  | succ turns ih => exact (ih (i+1) _).trans (swapIn_perm list i (place i))

/-- The entries drawn stand at the front in the end, in the order of the turns. -/
theorem shuffle_front {turns i : Nat} {list : List α} (bound : ∀ j, i ≤ j → j < i+turns → j ≤ place j ∧ place j < list.length) :
    ∃ rest, shuffle place turns i list = list.take i ++ (draws place turns i list).map Prod.fst ++ rest := by
  induction turns generalizing i list with
  | zero => exact ⟨list.drop i,by simp [shuffle,draws]⟩
  | succ turns ih =>
    obtain ⟨later,inside⟩ := bound i (le_refl i) (by omega)
    obtain ⟨rest,shuffled⟩ := @ih (i+1) (swapIn list i (place i)) fun j low high => by simpa using bound j (by omega) (by omega)
    refine ⟨rest,?_⟩
    rw [shuffle,shuffled,swapIn_take later inside,draws,List.getElem?_eq_getElem inside]
    simp

theorem mem_draws {turns i : Nat} {list : List α} {drawn : α} {p : Nat} (member : (drawn,p) ∈ draws place turns i list) : p < list.length := by
  induction turns generalizing i list with
  | zero => simp [draws] at member
  | succ turns ih =>
    obtain now | later := List.mem_append.mp member
    · cases atPlace : list[place i]? with
      | none => simp [atPlace] at now
      | some x =>
        rw [atPlace,Option.toList_some,List.map_singleton,List.mem_singleton] at now
        rw [(Prod.mk.inj now).2]
        exact (List.getElem?_eq_some_iff.mp atPlace).1
    · simpa using ih later

theorem draws_ne_nil {turns i : Nat} {list : List α} (inside : place i < list.length) : draws place (turns+1) i list ≠ [] := by
  rw [draws,List.getElem?_eq_getElem inside]
  simp

end Tetra.Shuffles
