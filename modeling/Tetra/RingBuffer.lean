import Mathlib

/-!
A ring of cells that the values of a source are written to one after another: what the
last positions of the source are can be found in their cells.
-/
namespace Ring

variable {α : Type*} {n : Nat} {cells : Nat → α} {source : List α} {low high : Nat}

/-- The positions from `low` to `high` that have not been written over are in their cells. -/
def Mirrors (n : Nat) (cells : Nat → α) (source : List α) (low high : Nat) : Prop :=
  ∀ p, low ≤ p → p < high → high ≤ p+n → source[p]? = some (cells (p%n))

def block (cells : Nat → α) (start k : Nat) : List α := (List.range k).map fun i => cells (start+i)

def overwrite (cells : Nat → α) (start : Nat) (values : List α) : Nat → α :=
  fun i => if start ≤ i then values.getD (i-start) (cells i) else cells i

@[simp] theorem block_length (cells : Nat → α) (start k : Nat) : (block cells start k).length = k := by
  rw [block,List.length_map,List.length_range]

theorem overwrite_inside (cells : Nat → α) (start : Nat) (values : List α) {i : Nat} (inside : i < values.length) :
    some (overwrite cells start values (start+i)) = values[i]? := by
  rw [overwrite,if_pos (Nat.le_add_right ..),Nat.add_sub_cancel_left,List.getD_eq_getElem?_getD,List.getElem?_eq_getElem inside]
  rfl

theorem overwrite_outside (cells : Nat → α) {start : Nat} {values : List α} {i : Nat} (outside : i < start ∨ start+values.length ≤ i) :
    overwrite cells start values i = cells i := by
  rw [overwrite]
  split
  · rw [List.getD_eq_default]
    omega
  · rfl

theorem Mirrors.empty (n : Nat) (cells : Nat → α) (source : List α) (p : Nat) : Mirrors n cells source p p := by
  intro q above below
  omega

/-- A block that does not cross the end of the ring is one of the source. -/
theorem Mirrors.block_eq (mirrors : Mirrors n cells source low high) {p k : Nat} (above : low ≤ p) (inside : p+k ≤ high) (kept : high ≤ p+n)
    (room : p%n+k ≤ n) : block cells (p%n) k = (source.drop p).take k := by
  apply List.ext_getElem?
  intro i
  rw [block,List.getElem?_map,List.getElem?_take]
  by_cases counted : i < k
  · have cell : (p+i)%n = p%n+i := by
      rw [Nat.add_mod,Nat.mod_eq_of_lt (by omega : i < n),Nat.mod_eq_of_lt (by omega)]
    rw [if_pos counted,List.getElem?_drop,mirrors (p+i) (by omega) (by omega) (by omega),cell,List.getElem?_range counted]
    rfl
  · rw [if_neg counted,List.getElem?_eq_none (by simpa using counted)]
    rfl

/-- A position less than a turn behind is in front of the cells written next, or behind them. -/
theorem behind {p k : Nat} (below : p < high) (kept : high+k ≤ p+n) : p%n < high%n ∨ high%n+k ≤ p%n := by
  have here := Nat.div_add_mod p n
  have there := Nat.div_add_mod high n
  rcases Nat.lt_trichotomy (p/n) (high/n) with later | same | earlier
  · have turn := Nat.mul_le_mul_left n (Nat.succ_le_of_lt later)
    rw [Nat.mul_succ] at turn
    omega
  · rw [same] at here
    omega
  · have turn := Nat.mul_le_mul_left n (Nat.succ_le_of_lt earlier)
    rw [Nat.mul_succ] at turn
    have small := Nat.mod_lt high (by omega : 0 < n)
    omega

/-- The next values go to the next cells, and write over those that are the farthest behind. -/
theorem Mirrors.write (mirrors : Mirrors n cells source low high) {values : List α} (next : values = (source.drop high).take values.length)
    (room : high%n+values.length ≤ n) : Mirrors n (overwrite cells (high%n) values) source low (high+values.length) := by
  intro p above below kept
  by_cases new : high ≤ p
  · obtain ⟨i,rfl⟩ := Nat.exists_eq_add_of_le new
    have counted : i < values.length := by omega
    have cell : (high+i)%n = high%n+i := by
      rw [Nat.add_mod,Nat.mod_eq_of_lt (by omega : i < n),Nat.mod_eq_of_lt (by omega)]
    rw [cell,overwrite_inside cells _ values counted,next,List.getElem?_take,if_pos counted,List.getElem?_drop]
  · have old := mirrors p above (by omega) (by omega)
    rw [old,overwrite_outside]
    exact behind (by omega) kept

end Ring
