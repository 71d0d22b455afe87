import Mathlib

/-!
A map that keeps several values for one key, as the list its iteration goes through: an
insertion goes behind everything whose key is not greater under the comparison in use.
-/
namespace Multimap

variable {κ α : Type*}

def insert (less : κ → κ → Bool) (e : κ × α) : List (κ × α) → List (κ × α)
  | [] => [e]
  | y :: rest => if less e.1 y.1 then e :: y :: rest else y :: insert less e rest

def insertAll (less : κ → κ → Bool) (es items : List (κ × α)) : List (κ × α) :=
  es.foldl (fun items e => insert less e items) items

section
variable {less : κ → κ → Bool}

/-- Behind everything, when the new key is less than none. -/
theorem insert_last {e : κ × α} {items : List (κ × α)} (never : ∀ y ∈ items, less e.1 y.1 = false) :
    insert less e items = items ++ [e] := by
  induction items with
  | nil => rfl
  | cons y rest ih =>
    rw [insert,never y (by simp),if_neg (by simp),ih fun z member => never z (by simp [member]),List.cons_append]

/-- A comparison that tells no two of the keys apart leaves the order of insertion. -/
theorem insertAll_append {es items : List (κ × α)} (never : ∀ e ∈ es, ∀ y ∈ items ++ es, less e.1 y.1 = false) :
    insertAll less es items = items ++ es := by
  induction es generalizing items with
  | nil => simp [insertAll]
  | cons e es ih =>
    have here : insert less e items = items ++ [e] :=
      insert_last fun y member => never e (by simp) y (by simp [member])
    have rest : insertAll less es (items ++ [e]) = items ++ [e] ++ es := by
      refine ih fun x member y placed => never x (by simp [member]) y ?_
      simpa using placed
    calc insertAll less (e :: es) items = insertAll less es (insert less e items) := rfl
      _ = items ++ [e] ++ es := by rw [here,rest]
      _ = items ++ e :: es := by simp

/-- One entry more, wherever it goes. -/
theorem insert_perm (e : κ × α) (items : List (κ × α)) : (insert less e items).Perm (e :: items) := by
  induction items with
  | nil => exact List.Perm.refl _
  | cons y rest ih =>
    rw [insert]
    split_ifs
    · exact List.Perm.refl _
    · exact (List.Perm.cons y ih).trans (List.Perm.swap e y rest)

end

/-- The entries stay in the order of their keys. -/
theorem insert_sorted [LinearOrder κ] (e : κ × α) {items : List (κ × α)} (sorted : items.Pairwise (fun a b => a.1 ≤ b.1)) :
    (insert (fun a b => decide (a < b)) e items).Pairwise (fun a b => a.1 ≤ b.1) := by
  induction items with
  | nil => exact List.pairwise_singleton _ _
  | cons y rest ih =>
    obtain ⟨least,rest_sorted⟩ := List.pairwise_cons.mp sorted
    rw [insert]
    split_ifs with less
    · have before := of_decide_eq_true less
      refine List.pairwise_cons.mpr ⟨fun z member => ?_,sorted⟩
      rcases List.mem_cons.mp member with rfl | later
      · exact before.le
      · exact before.le.trans (least z later)
    · have after := not_lt.mp (fun before => less (decide_eq_true before))
      refine List.pairwise_cons.mpr ⟨fun z member => ?_,ih rest_sorted⟩
      rcases List.mem_cons.mp ((insert_perm e rest).mem_iff.mp member) with rfl | later
      · exact after
      · exact least z later

end Multimap
