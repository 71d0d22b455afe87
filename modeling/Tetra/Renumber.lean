import Mathlib

/-!
Giving positions to what has none, in one pass: what has no position takes the next one,
and what has one moves up by the number of earlier starts that are not greater than it.
-/
namespace Renumber

/-- Something visited, with its position before and after the pass; -1 is no position. -/
structure Move (α : Type*) where
  tag : α
  old : Int
  new : Int

variable {α : Type*}

/-- How far a position moves. -/
def shift (starts : List Int) (pos : Int) : Int := (starts.countP fun start => decide (start ≤ pos) : Nat)

/-- The pass: the moves it makes and the next position after it. -/
def pass (next : Int) (starts : List Int) : List (α × Int) → List (Move α) × Int
  | [] => ([],next)
  | (tag,old) :: rest =>
    if old = -1 then
      let (moves,last) := pass (next+1) (starts ++ [next]) rest
      (⟨tag,old,next⟩ :: moves,last)
    else
      let new := old+shift starts old
      let (moves,last) := pass (max next (new+1)) starts rest
      (⟨tag,old,new⟩ :: moves,last)

section
variable {next : Int} {starts : List Int} {xs : List (α × Int)}

theorem shift_nonneg (starts : List Int) (pos : Int) : 0 ≤ shift starts pos := by simp [shift]

theorem shift_zero {starts : List Int} {pos : Int} (above : ∀ start ∈ starts, pos < start) : shift starts pos = 0 := by
  have none : (starts.countP fun start => decide (start ≤ pos)) = 0 := by
    refine List.countP_eq_zero.mpr fun start member => ?_
    have := above start member
    simp only [decide_eq_true_eq]
    omega
  rw [shift,none,Nat.cast_zero]

theorem pass_unnumbered (tag : α) (rest : List (α × Int)) :
    pass next starts ((tag,-1) :: rest) =
      (⟨tag,-1,next⟩ :: (pass (next+1) (starts ++ [next]) rest).1,(pass (next+1) (starts ++ [next]) rest).2) := by
  rw [pass,if_pos rfl]

theorem pass_numbered (tag : α) {old : Int} (numbered : old ≠ -1) (rest : List (α × Int)) :
    pass next starts ((tag,old) :: rest) =
      (⟨tag,old,old+shift starts old⟩ :: (pass (max next (old+shift starts old+1)) starts rest).1,
        (pass (max next (old+shift starts old+1)) starts rest).2) := by
  rw [pass,if_neg numbered]

/-- Every later move: the new positions begin at the next one, and the starts that are
    still to come are not before it. -/
theorem pass_later : ∀ e ∈ (pass next starts xs).1,
    (e.old = -1 → next ≤ e.new) ∧
    (e.old ≠ -1 → ∃ more, (∀ start ∈ more, next ≤ start) ∧ e.new = e.old+shift (starts ++ more) e.old) := by
  induction xs generalizing next starts with
  | nil => simp [pass]
  | cons x rest ih =>
    obtain ⟨tag,old⟩ := x
    intro e member
    by_cases unnumbered : old = -1
    · subst unnumbered
      rw [pass_unnumbered,List.mem_cons] at member
      rcases member with rfl | member
      · exact ⟨fun _ => le_rfl,fun numbered => absurd rfl numbered⟩
      · obtain ⟨fresh,moved⟩ := ih e member
        refine ⟨fun unnumbered => by have := fresh unnumbered; omega,fun numbered => ?_⟩
        obtain ⟨more,later,new⟩ := moved numbered
        refine ⟨next :: more,?_,by rw [new]; simp⟩
        intro start among
        rcases List.mem_cons.mp among with rfl | among
        · exact le_rfl
        · have := later start among
          omega
    · rw [pass_numbered tag unnumbered,List.mem_cons] at member
      rcases member with rfl | member
      · exact ⟨fun absent => absurd absent unnumbered,fun _ => ⟨[],by simp,by simp⟩⟩
      · obtain ⟨fresh,moved⟩ := ih e member
        refine ⟨fun unnumbered => by have := fresh unnumbered; omega,fun numbered => ?_⟩
        obtain ⟨more,later,new⟩ := moved numbered
        exact ⟨more,fun start among => by have := later start among; omega,new⟩

/-- The next position ends behind all the new ones. -/
theorem pass_next : next ≤ (pass next starts xs).2 ∧ ∀ e ∈ (pass next starts xs).1, e.new < (pass next starts xs).2 := by
  induction xs generalizing next starts with
  | nil => simp [pass]
  | cons x rest ih =>
    obtain ⟨tag,old⟩ := x
    by_cases unnumbered : old = -1
    · subst unnumbered
      obtain ⟨grows,behind⟩ := @ih (next+1) (starts ++ [next])
      rw [pass_unnumbered]
      refine ⟨by dsimp only; omega,fun e member => ?_⟩
      rcases List.mem_cons.mp member with rfl | member
      · dsimp only
        omega
      · exact behind e member
    · obtain ⟨grows,behind⟩ := @ih (max next (old+shift starts old+1)) starts
      rw [pass_numbered tag unnumbered]
      refine ⟨by dsimp only; omega,fun e member => ?_⟩
      rcases List.mem_cons.mp member with rfl | member
      · dsimp only
        omega
      · exact behind e member

/-- Of two moves in the order of the pass: what had no position comes out in that order and
    behind what had one, and what had positions comes out as it was ordered. -/
def Follows (e f : Move α) : Prop :=
  (f.old = -1 → e.new < f.new) ∧
  (e.old ≠ -1 → f.old ≠ -1 → (e.old < f.old → e.new < f.new) ∧ (f.old < e.old → f.new < e.new) ∧ (e.old = f.old → e.new = f.new))

/-- No position to come lies between the number `top` that the positions so far stay below and
    the start that something without a position is given: that start counts the `count` earlier ones,
    a position compared with it does not. -/
def Clear (top count : Int) : List (α × Int) → Prop
  | [] => True
  | (_,old) :: rest =>
    if old = -1 then (∀ x ∈ rest, x.2 ≠ -1 → x.2 < top ∨ top+count ≤ x.2) ∧ Clear top (count+1) rest
    else Clear (max top (old+1)) count rest

/-- What the pass does not visit keeps its place among the rest, when something of a greater
    position is visited before anything without one. -/
theorem pass_aside {q : Int} (passed : q < next ∨ ∃ x ∈ xs.takeWhile (fun x => x.2 != -1), q < x.2) :
    (∀ e ∈ (pass next [] xs).1, (e.old = -1 → q < e.new) ∧ (e.old ≠ -1 → (e.old < q → e.new = e.old) ∧ (q < e.old → q < e.new))) ∧
      q < (pass next [] xs).2 := by
  induction xs generalizing next with
  | nil => simpa [pass] using passed
  | cons x rest ih =>
    obtain ⟨tag,old⟩ := x
    by_cases unnumbered : old = -1
    · have before : q < next := by simpa [unnumbered] using passed
      refine ⟨fun e member => ?_,lt_of_lt_of_le before pass_next.1⟩
      obtain ⟨fresh,moved⟩ := pass_later e member
      refine ⟨fun absent => by have := fresh absent; omega,fun numbered => ?_⟩
      obtain ⟨more,later,new⟩ := moved numbered
      have up := shift_nonneg more e.old
      rw [List.nil_append] at new
      refine ⟨fun less => ?_,fun less => by omega⟩
      have still : shift more e.old = 0 := shift_zero fun start among => by have := later start among; omega
      omega
    · have fixed : shift [] old = 0 := rfl
      obtain ⟨moves,behind⟩ := @ih (max next (old+shift [] old+1)) (by
        rcases passed with before | ⟨x,listed,less⟩
        · left; omega
        · rw [List.takeWhile_cons_of_pos (by simpa using unnumbered)] at listed
          rcases List.mem_cons.mp listed with rfl | listed
          · left
            dsimp only at less
            omega
          · exact .inr ⟨x,listed,less⟩)
      rw [pass_numbered tag unnumbered]
      refine ⟨fun e member => ?_,behind⟩
      rcases List.mem_cons.mp member with rfl | member
      · dsimp only
        refine ⟨fun absent => absurd absent unnumbered,fun _ => ⟨fun _ => by omega,fun less => by omega⟩⟩
      · exact moves e member

end

end Renumber
