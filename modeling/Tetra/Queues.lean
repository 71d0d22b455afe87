import Mathlib

/-!
Queues that remember what was taken from their front, so that it can be put back, and rows
with a position that keep such a queue behind the position.
-/
namespace Tetra.Queues
variable {α : Type*}

/-- The items that wait, and those that were taken since the last one came in at the front. -/
structure Queue (α : Type*) where
  taken : List α := []
  items : List α
deriving DecidableEq

namespace Queue

def append (q : Queue α) (xs : List α) : Queue α := ⟨q.taken,q.items ++ xs⟩
def take (q : Queue α) (n : Nat) : Queue α := ⟨q.taken ++ q.items.take n,q.items.drop n⟩
/-- Items come in before the one at `k`. -/
def insert (q : Queue α) (k : Nat) (xs : List α) : Queue α := ⟨if k = 0 then [] else q.taken,q.items.take k ++ xs ++ q.items.drop k⟩
/-- The items from `k` up to `l` leave; those at the front are taken. -/
def remove (q : Queue α) (k l : Nat) : Queue α := if k = 0 then q.take l else ⟨q.taken,q.items.take k ++ q.items.drop l⟩

/-- As many items come back to the front: the last that were taken, if that many are known. -/
def PutsBack (n : Nat) (q q' : Queue α) : Prop :=
  ∃ back : List α, back.length = n ∧ (n ≤ q.taken.length → back <:+ q.taken) ∧ q' = ⟨q.taken.take (q.taken.length-n),back ++ q.items⟩

/-- What was taken is put back as it was. -/
theorem PutsBack.of_take {n : Nat} {q q' : Queue α} (enough : n ≤ q.items.length) (back : PutsBack n (q.take n) q') : q' = q := by
  obtain ⟨xs,sized,last,rfl⟩ := back
  have taken : (q.items.take n).length = n := List.length_take_of_le enough
  have known : n ≤ (q.take n).taken.length := by
    rw [take,List.length_append,taken]
    omega
  have same : xs = q.items.take n := by
    have suffix : q.items.take n <:+ (q.take n).taken := List.suffix_append _ _
    exact (List.suffix_of_suffix_length_le (last known) suffix (by rw [sized,taken])).eq_of_length (by rw [sized,taken])
  have front : (q.take n).taken.take ((q.take n).taken.length-n) = q.taken :=
    List.take_left' (by rw [take,List.length_append,taken]; omega)
  rw [front,same]
  simp only [take,List.take_append_drop]

end Queue

/-- The queue begins at `pos`. What stands before it in the row is the end of what was
    taken, or ends with it. -/
structure Row (row : List α) (pos : Nat) (q : Queue α) : Prop where
  items : row.drop pos = q.items
  taken : row.take pos <:+ q.taken ∨ q.taken <:+ row.take pos
  inside : pos ≤ row.length

namespace Row
variable {row : List α} {pos : Nat} {q : Queue α}

theorem start (xs : List α) : Row xs 0 ⟨[],xs⟩ := ⟨rfl,.inl (List.suffix_refl []),Nat.zero_le _⟩

theorem length (holds : Row row pos q) : row.length = pos+q.items.length := by
  have inside := holds.inside
  rw [← holds.items,List.length_drop]
  omega

theorem append (holds : Row row pos q) (xs : List α) : Row (row ++ xs) pos (q.append xs) := by
  refine ⟨?_,?_,?_⟩
  · rw [List.drop_append_of_le_length holds.inside,holds.items,Queue.append]
  · rw [List.take_append_of_le_length holds.inside]
    exact holds.taken
  · have inside := holds.inside
    rw [List.length_append]
    omega

/-- The position moves over what is taken. -/
theorem take (holds : Row row pos q) {n : Nat} (enough : n ≤ q.items.length) : Row row (pos+n) (q.take n) := by
  refine ⟨?_,?_,?_⟩
  · rw [← List.drop_drop,holds.items,Queue.take]
  · rw [List.take_add,holds.items]
    exact holds.taken.imp List.suffix_append_self_iff.mpr List.suffix_append_self_iff.mpr
  · have whole := holds.length
    omega

/-- Where everything is taken, the row may be emptied. -/
theorem clear (holds : Row row pos q) : Row [] 0 (q.take q.items.length) := by
  have _ := holds.inside
  exact ⟨by rw [Queue.take,List.drop_length]; rfl,.inl List.nil_suffix,le_rfl⟩

theorem insert (holds : Row row pos q) {k : Nat} (inside : k ≤ q.items.length) (xs : List α) :
    Row (row.take (pos+k) ++ xs ++ row.drop (pos+k)) pos (q.insert k xs) := by
  have whole := holds.length
  have front : pos ≤ (row.take (pos+k)).length := by
    rw [List.length_take]
    omega
  refine ⟨?_,?_,?_⟩
  · rw [List.append_assoc,List.drop_append_of_le_length front,List.drop_take,Nat.add_sub_cancel_left,← List.drop_drop,holds.items,
      ← List.append_assoc,Queue.insert]
  · rw [List.append_assoc,List.take_append_of_le_length front,List.take_take,min_eq_left (by omega),Queue.insert]
    split
    · exact .inr List.nil_suffix
    · exact holds.taken
  · rw [List.append_assoc,List.length_append]
    omega

/-- Items may come in at the front over some that were taken. -/
theorem overwrite (holds : Row row pos q) {xs : List α} (room : xs.length ≤ pos) :
    Row (row.take (pos-xs.length) ++ xs ++ row.drop pos) (pos-xs.length) (q.insert 0 xs) := by
  have inside := holds.inside
  have front : (row.take (pos-xs.length)).length = pos-xs.length := List.length_take_of_le (by omega)
  refine ⟨?_,?_,?_⟩
  · rw [List.append_assoc,List.drop_left' front,holds.items]
    rfl
  · exact .inr List.nil_suffix
  · rw [List.append_assoc,List.length_append]
    omega

theorem remove (holds : Row row pos q) {k : Nat} (behind : k ≠ 0) (inside : k ≤ q.items.length) (l : Nat) :
    Row (row.take (pos+k) ++ row.drop (pos+l)) pos (q.remove k l) := by
  have whole := holds.length
  have front : pos ≤ (row.take (pos+k)).length := by
    rw [List.length_take]
    omega
  refine ⟨?_,?_,?_⟩
  · rw [List.drop_append_of_le_length front,List.drop_take,Nat.add_sub_cancel_left,← List.drop_drop,holds.items,Queue.remove,if_neg behind]
  · rw [List.take_append_of_le_length front,List.take_take,min_eq_left (by omega),Queue.remove,if_neg behind]
    exact holds.taken
  · rw [List.length_append]
    omega

/-- Without its last items, the end of a list is the end of the list without them. -/
theorem suffix_without {xs ys : List α} (n : Nat) (suffix : xs <:+ ys) : xs.take (xs.length-n) <:+ ys.take (ys.length-n) := by
  obtain ⟨front,rfl⟩ := suffix
  by_cases fewer : n ≤ xs.length
  · have sized : (front ++ xs).length-n = front.length+(xs.length-n) := by
      rw [List.length_append]
      omega
    rw [sized,List.take_length_add_append]
    exact List.suffix_append _ _
  · have none' : xs.length-n = 0 := by omega
    rw [none',List.take_zero]
    exact List.nil_suffix

/-- The position moves back over what was taken. -/
theorem putBack (holds : Row row pos q) {n : Nat} (room : n ≤ pos) : ∃ q', Queue.PutsBack n q q' ∧ Row row (pos-n) q' := by
  have inside := holds.inside
  have parts : row.take pos = row.take (pos-n) ++ (row.drop (pos-n)).take n := by
    rw [← List.take_add,Nat.sub_add_cancel room]
  have sized : ((row.drop (pos-n)).take n).length = n := List.length_take_of_le (by rw [List.length_drop]; omega)
  refine ⟨⟨q.taken.take (q.taken.length-n),(row.drop (pos-n)).take n ++ q.items⟩,⟨_,sized,fun known => ?_,rfl⟩,⟨?_,?_,by omega⟩⟩
  · have last : (row.drop (pos-n)).take n <:+ row.take pos := parts ▸ List.suffix_append _ _
    rcases holds.taken with shorter | longer
    · exact last.trans shorter
    · exact List.suffix_of_suffix_length_le last longer (by rw [sized]; exact known)
  · rw [← holds.items,← Nat.sub_add_cancel room,← List.drop_drop,Nat.add_sub_cancel,List.take_append_drop]
  · have shorter : row.take (pos-n) = (row.take pos).take ((row.take pos).length-n) := by
      rw [List.length_take_of_le inside,List.take_take,min_eq_left (by omega)]
    rw [shorter]
    exact holds.taken.imp (suffix_without n) (suffix_without n)

theorem compact (holds : Row row pos q) : Row (row.drop pos) 0 q := ⟨holds.items,.inl List.nil_suffix,Nat.zero_le _⟩

end Row

end Tetra.Queues
