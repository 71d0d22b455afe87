import Mathlib

/-!
Memory of a fixed size that bytes are copied into: a copy that leaves it is no result,
and a cell that nothing was copied to holds what was there before.
-/
namespace Buffer

variable {α : Type*}

/-- `none` is a cell that was not written. -/
abbrev Cells (α : Type*) := List (Option α)

def alloc (n : Nat) : Cells α := List.replicate n none

def memcpy (cells : Cells α) (start : Nat) (bytes : List α) : Option (Cells α) :=
  if start+bytes.length ≤ cells.length then some (cells.take start ++ bytes.map some ++ cells.drop (start+bytes.length)) else none

/-- The first `n` cells, with what the memory held in those that were not written. -/
def read (memory : Nat → α) (cells : Cells α) (n : Nat) : Option (List α) :=
  if n ≤ cells.length then some ((cells.take n).mapIdx fun i cell => cell.getD (memory i)) else none

@[simp] theorem alloc_length (n : Nat) : (alloc n : Cells α).length = n := List.length_replicate

theorem alloc_drop (m n : Nat) : (alloc m : Cells α).drop n = alloc (m-n) := List.drop_replicate

theorem memcpy_length {cells after : Cells α} {start : Nat} {bytes : List α} (copied : memcpy cells start bytes = some after) :
    after.length = cells.length := by
  unfold memcpy at copied
  split at copied
  next fits =>
    obtain rfl := Option.some.inj copied
    simp only [List.length_append,List.length_take,List.length_map,List.length_drop]
    omega
  · contradiction

/-- A copy behind what stands in front. -/
theorem memcpy_append {front rest : Cells α} {bytes : List α} (fits : bytes.length ≤ rest.length) :
    memcpy (front ++ rest) front.length bytes = some (front ++ bytes.map some ++ rest.drop bytes.length) := by
  have inside : front.length+bytes.length ≤ (front ++ rest).length := by
    rw [List.length_append]
    omega
  rw [memcpy,if_pos inside,List.take_left' rfl,← List.drop_drop,List.drop_left' rfl]

theorem memcpy_none {cells : Cells α} {start : Nat} {bytes : List α} (beyond : cells.length < start+bytes.length) :
    memcpy cells start bytes = none := if_neg (by omega)

theorem read_length {memory : Nat → α} {cells : Cells α} {n : Nat} {bytes : List α} (reads : read memory cells n = some bytes) :
    bytes.length = n := by
  unfold read at reads
  split at reads
  next inside =>
    obtain rfl := Option.some.inj reads
    rw [List.length_mapIdx,List.length_take_of_le inside]
  · contradiction

/-- What was written everywhere is read whatever the memory held. -/
theorem read_written (memory : Nat → α) (bytes : List α) (rest : Cells α) :
    read memory (bytes.map some ++ rest) bytes.length = some bytes := by
  have inside : bytes.length ≤ (bytes.map some ++ rest).length := by simp
  rw [read,if_pos inside,List.take_left' (by simp)]
  congr 1
  apply List.ext_getElem?
  intro i
  rw [List.getElem?_mapIdx,List.getElem?_map]
  cases bytes[i]? <;> rfl

/-- What was written at the front is at the front of what is read. -/
theorem read_front {memory : Nat → α} {bytes : List α} {rest : Cells α} {n : Nat} (front : bytes.length ≤ n)
    (inside : n ≤ (bytes.map some ++ rest).length) :
    ∃ more, read memory (bytes.map some ++ rest) n = some (bytes ++ more) := by
  refine ⟨((bytes.map some ++ rest).take n).mapIdx (fun i cell => cell.getD (memory i)) |>.drop bytes.length,?_⟩
  rw [read,if_pos inside]
  congr 1
  conv_lhs => rw [← List.take_append_drop bytes.length (List.mapIdx _ _)]
  congr 1
  apply List.ext_getElem?
  intro i
  by_cases low : i < bytes.length
  · rw [List.getElem?_take_of_lt low,List.getElem?_mapIdx,List.getElem?_take_of_lt (by omega),
      List.getElem?_append_left (by simpa using low),List.getElem?_map,List.getElem?_eq_getElem low]
    rfl
  · rw [List.getElem?_eq_none (by rw [List.length_take]; omega),List.getElem?_eq_none (by omega)]

/-! ### Memory without an end -/

/-- Memory from some place on, and the places that were written. -/
structure Trace (α : Type*) where
  cells : Nat → α
  written : List Nat := []

def Trace.poke (m : Trace α) (i : Nat) (a : α) : Trace α := ⟨Function.update m.cells i a,i :: m.written⟩

@[simp] theorem Trace.poke_self (m : Trace α) (i : Nat) (a : α) : (m.poke i a).cells i = a := Function.update_self ..

@[simp] theorem Trace.poke_written (m : Trace α) (i : Nat) (a : α) : (m.poke i a).written = i :: m.written := rfl

theorem Trace.poke_other (m : Trace α) {i j : Nat} (a : α) (other : j ≠ i) : (m.poke i a).cells j = m.cells j := Function.update_of_ne other ..

/-- Writes one value after the other. -/
def Trace.pokes (m : Trace α) : Nat → List α → Trace α
  | _, [] => m
  | start, a :: as => (m.poke start a).pokes (start+1) as

theorem Trace.pokes_cells (m : Trace α) (start : Nat) (as : List α) (i : Nat) :
    (m.pokes start as).cells i = if start ≤ i then as[i-start]?.getD (m.cells i) else m.cells i := by
  induction as generalizing m start with
  | nil => simp [pokes]
  | cons a as ih =>
    rw [pokes,ih]
    rcases Nat.lt_trichotomy i start with before | rfl | after
    · rw [if_neg (by omega),if_neg (by omega),m.poke_other a (by omega)]
    · rw [if_neg (by omega),if_pos le_rfl,Nat.sub_self,poke_self]
      rfl
    · rw [if_pos (by omega),if_pos (by omega),m.poke_other a (by omega),show i-start = i-(start+1)+1 by omega,List.getElem?_cons_succ]

theorem Trace.mem_pokes_written (m : Trace α) (start : Nat) (as : List α) (i : Nat) :
    i ∈ (m.pokes start as).written ↔ i ∈ m.written ∨ start ≤ i ∧ i < start+as.length := by
  induction as generalizing m start with
  | nil => simp [pokes]
  | cons a as ih =>
    rw [pokes,ih,poke_written,List.mem_cons,List.length_cons]
    by_cases old : i ∈ m.written
    · simp [old]
    · simp only [old,or_false,false_or]
      omega

theorem Trace.pokes_append (m : Trace α) (start : Nat) (as bs : List α) :
    m.pokes start (as ++ bs) = (m.pokes start as).pokes (start+as.length) bs := by
  induction as generalizing m start with
  | nil => rfl
  | cons a as ih =>
    rw [List.cons_append,pokes,pokes,ih,List.length_cons]
    congr 1
    omega

/-- What was written from the start on is what is read. -/
theorem Trace.read_pokes (m : Trace α) (as : List α) : (List.range as.length).map (m.pokes 0 as).cells = as := by
  apply List.ext_getElem
  · simp
  · intro i low high
    rw [List.getElem_map,List.getElem_range,pokes_cells,if_pos (Nat.zero_le _),Nat.sub_zero,List.getElem?_eq_getElem high]
    rfl

/-- What stands in front may be written last. -/
theorem Trace.pokes_front (m : Trace α) (front as : List α) :
    ((m.pokes front.length as).pokes 0 front).cells = (m.pokes 0 (front ++ as)).cells := by
  funext i
  rw [pokes_cells,if_pos (Nat.zero_le _),pokes_cells,pokes_cells,if_pos (Nat.zero_le _),Nat.sub_zero]
  by_cases low : i < front.length
  · rw [List.getElem?_append_left low,if_neg (by omega)]
  · rw [List.getElem?_append_right (by omega),if_pos (by omega),List.getElem?_eq_none (by omega),Option.getD_none]

end Buffer
