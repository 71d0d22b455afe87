import Mathlib

/-!
A file as the list of its bytes, written at a position. What is written stands there, and
what stands apart from it stays.
-/
namespace Tetra.Files

variable {α : Type*} {fill : α} {file old bytes : List α} {pos p i : Nat}

/-- Writes at a position; a gap up to there is filled. -/
def put (fill : α) (file : List α) (pos : Nat) (bytes : List α) : List α :=
  file.take pos ++ List.replicate (pos-file.length) fill ++ bytes ++ file.drop (pos+bytes.length)

/-- These bytes stand at the position. -/
def At (file : List α) (pos : Nat) (bytes : List α) : Prop := bytes <+: file.drop pos

theorem at_iff : At file pos bytes ↔ ∀ i < bytes.length, file[pos+i]? = bytes[i]? := by
  rw [At,List.prefix_iff_getElem?]
  refine forall₂_congr fun i low => ?_
  rw [List.getElem?_drop,List.getElem?_eq_getElem low]

theorem front_length (fill : α) (file : List α) (pos : Nat) : (file.take pos ++ List.replicate (pos-file.length) fill).length = pos := by
  rw [List.length_append,List.length_take,List.length_replicate]
  omega

theorem put_low (low : i < pos) (inside : i < file.length) : (put fill file pos bytes)[i]? = file[i]? := by
  rw [put,List.append_assoc,List.append_assoc,List.getElem?_append_left (by rw [List.length_take]; omega),List.getElem?_take_of_lt low]

theorem put_high (high : pos+bytes.length ≤ i) : (put fill file pos bytes)[i]? = file[i]? := by
  have front := front_length fill file pos
  rw [put,List.getElem?_append_right (by rw [List.length_append,front]; omega),List.length_append,front,List.getElem?_drop]
  congr 1
  omega

theorem at_put : At (put fill file pos bytes) pos bytes := by
  rw [At,put,List.append_assoc,List.drop_left' (front_length fill file pos)]
  exact List.prefix_append ..

/-- What stands before or behind what is written stays. -/
theorem At.put (there : At file p old) (apart : p+old.length ≤ pos ∨ pos+bytes.length ≤ p) : At (put fill file pos bytes) p old := by
  rw [at_iff] at there ⊢
  intro i low
  rcases apart with before | behind
  · have inside : p+i < file.length := by
      have found := there i low
      rw [List.getElem?_eq_getElem low] at found
      exact (List.getElem?_eq_some_iff.mp found).1
    rw [put_low (by omega) inside]
    exact there i low
  · rw [put_high (by omega)]
    exact there i low

/-- What stands behind something else at a position. -/
theorem At.tail {front : List α} (there : At file pos (front ++ bytes)) : At file (pos+front.length) bytes := by
  obtain ⟨rest,whole⟩ := there
  rw [At,← List.drop_drop,← whole,List.append_assoc,List.drop_left]
  exact List.prefix_append ..

end Tetra.Files
