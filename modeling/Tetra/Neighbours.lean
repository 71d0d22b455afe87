import Mathlib

/-!
Merging neighbours of one key in pairs: what remains of a run of equal keys, and when
nothing is left to merge.
-/
namespace Tetra.Neighbours

variable {α κ : Type*} [DecidableEq κ] (key : α → κ) (merge : α → α → α)

/-- Each element takes in a neighbour of its key; the turn passes on after that. -/
def pairUp : List α → List α
  | [] => []
  | [a] => [a]
  | a :: b :: rest => if key a = key b then merge a b :: pairUp rest else a :: pairUp (b :: rest)

/-- Elements of one key stand together. -/
def Ordered (le : κ → κ → Prop) (l : List α) : Prop := l.Pairwise fun a b => le (key a) (key b)

variable {key merge} {le : κ → κ → Prop}

omit [DecidableEq κ] in
theorem Ordered.first (antisymm : ∀ j k, le j k → le k j → j = k) {a b : α} {rest : List α} (ordered : Ordered key le (a :: b :: rest))
    (different : key a ≠ key b) : key a ∉ (b :: rest).map key := by
  obtain ⟨fromA,fromB⟩ := List.pairwise_cons.mp ordered
  obtain ⟨fromB,_⟩ := List.pairwise_cons.mp fromB
  intro member
  obtain ⟨c,later,same⟩ := List.mem_map.mp member
  rcases List.mem_cons.mp later with rfl | later
  · exact different same.symm
  · have back := fromB c later
    rw [same] at back
    exact different (antisymm _ _ (fromA b (List.mem_cons_self ..)) back)

variable (keeps : ∀ a b, key (merge a b) = key a)
include keeps

theorem keys_pairUp (l : List α) : ((pairUp key merge l).map key).Sublist (l.map key) := by
  induction l using @pairUp.induct α κ _ key with
  | case1 => exact List.Sublist.refl _
  | case2 a => exact List.Sublist.refl _
  | case3 a b rest same ih =>
    rw [pairUp,if_pos same,List.map_cons,List.map_cons,List.map_cons,keeps]
    exact (ih.cons _).cons_cons _
  | case4 a b rest different ih =>
    rw [pairUp,if_neg different,List.map_cons,List.map_cons]
    exact ih.cons_cons _

theorem Ordered.pairUp {l : List α} (ordered : Ordered key le l) : Ordered key le (pairUp key merge l) := by
  have keys : (l.map key).Pairwise le := List.pairwise_map.mpr ordered
  exact List.pairwise_map.mp (keys.sublist (keys_pairUp keeps l))

/-- Half of a run is left, rounded up. -/
theorem count_pairUp [BEq κ] [LawfulBEq κ] (antisymm : ∀ j k, le j k → le k j → j = k) {l : List α} (ordered : Ordered key le l) (k : κ) :
    ((Neighbours.pairUp key merge l).map key).count k = ((l.map key).count k+1)/2 := by
  induction l using @pairUp.induct α κ _ key with
  | case1 => simp [Neighbours.pairUp]
  | case2 a =>
    rw [Neighbours.pairUp,List.map_cons,List.map_nil,List.count_singleton]
    split <;> rfl
  | case3 a b rest same ih =>
    have later := ih ((List.pairwise_cons.mp (List.pairwise_cons.mp ordered).2).2)
    rw [Neighbours.pairUp,if_pos same]
    simp only [List.map_cons,keeps,List.count_cons,later,← same]
    split <;> omega
  | case4 a b rest different ih =>
    have later := ih (List.pairwise_cons.mp ordered).2
    have once : ((b :: rest).map key).count (key a) = 0 := List.count_eq_zero.mpr (ordered.first antisymm different)
    rw [Neighbours.pairUp,if_neg different,List.map_cons,List.map_cons,List.count_cons,List.count_cons,later]
    by_cases here : key a = k
    · rw [here] at once
      rw [once,if_pos (beq_iff_eq.mpr here)]
    · rw [if_neg (fun equal => here (beq_iff_eq.mp equal)),Nat.add_zero,Nat.add_zero]

omit keeps in
/-- Without a key twice there is nothing to merge. -/
theorem pairUp_of_nodup {l : List α} (distinct : (l.map key).Nodup) : Neighbours.pairUp key merge l = l := by
  induction l using @pairUp.induct α κ _ key with
  | case1 => rfl
  | case2 a => rfl
  | case3 a b rest same ih =>
    have absent := (List.nodup_cons.mp distinct).1
    rw [same] at absent
    exact absurd (List.mem_cons_self ..) absent
  | case4 a b rest different ih => rw [Neighbours.pairUp,if_neg different,ih (List.nodup_cons.mp distinct).2]

omit keeps in
theorem pairUp_of_length {l : List α} (short : l.length ≤ 1) : Neighbours.pairUp key merge l = l := by
  cases l with
  | nil => rfl
  | cons a rest =>
    cases rest with
    | nil => rfl
    | cons b rest => exact absurd short (by simp)

end Tetra.Neighbours
