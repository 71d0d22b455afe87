import Mathlib

/-!
Loops that try again. A turn is made of a state and of what is drawn for it; it goes on
with another state or ends with a result. What such a loop can end with, whatever is
drawn, is what a turn ends with in a state that the loop can come to.
-/
namespace Tetra.Retry

variable {Draw State Result : Type*}

/-- How a turn of the loop goes. -/
inductive Turn (State Result : Type*)
  | again (s : State)
  | done (r : Result)

/-- The loop, with a draw for every turn; it returns nothing when the fuel runs out. -/
def loop (turn : Draw → State → Turn State Result) (draws : Nat → Draw) : Nat → State → Option Result
  | 0, _ => none
  | fuel+1, s =>
    match turn (draws 0) s with
    | .done r => some r
    | .again s => loop turn (fun i => draws (i+1)) fuel s

/-- The states that the loop can come to under fair draws. -/
inductive Comes (turn : Draw → State → Turn State Result) (fair : Draw → Prop) (start : State) : State → Prop
  | start : Comes turn fair start start
  | again {s s' : State} {draw : Draw} (before : Comes turn fair start s) (isFair : fair draw) (goes : turn draw s = .again s') :
      Comes turn fair start s'

variable {turn : Draw → State → Turn State Result} {fair : Draw → Prop}

theorem Comes.trans {start middle s : State} (first : Comes turn fair start middle) (second : Comes turn fair middle s) :
    Comes turn fair start s := by
  induction second with
  | start => exact first
  | again _ isFair goes ih => exact .again ih isFair goes

end Tetra.Retry
