import Mathlib

/-!
A counter that every use takes one from, and that is filled up again now and then. When
each filling comes a whole width of time after the last use before it, no window of
that width holds more uses than the counter.
-/
namespace Tetra.Refill

section
set_option linter.unusedSectionVars false
variable {T : Type*} [AddCommGroup T] [LinearOrder T] [IsOrderedAddMonoid T]

/-- The times in the window that starts at one of them. -/
def window (width start : T) (times : List T) : List T := times.filter fun t => decide (start ≤ t ∧ t < start+width)

def Sparse (limit : Nat) (width : T) (times : List T) : Prop := ∀ start, (window width start times).length ≤ limit

/-- The uses are those since the last filling and those before it, a width apart, and
    what is left of the counter allows for the former. -/
def Metered (limit : Nat) (width now : T) (times : List T) (left : Nat) : Prop :=
  ∃ recent old since, times = recent ++ old ∧ Sparse limit width old ∧ (∀ t ∈ old, t+width ≤ since) ∧ (∀ t ∈ recent, since ≤ t) ∧
    since ≤ now ∧ recent.length+left ≤ limit

variable {limit : Nat} {width now : T} {times : List T} {left : Nat}

theorem mem_window {start t : T} : t ∈ window width start times ↔ t ∈ times ∧ start ≤ t ∧ t < start+width := by
  simp [window]

theorem sparse_nil : Sparse limit width [] := fun _ => Nat.zero_le _

theorem Metered.sparse (metered : Metered limit width now times left) : Sparse limit width times := by
  obtain ⟨recent,old,since,rfl,sparse,before,after,_,fits⟩ := metered
  intro start
  by_cases touched : ∃ t ∈ recent, t < start+width
  · obtain ⟨t,member,inside⟩ := touched
    -- A window that reaches the filling has none of the uses before it.
    have apart : window width start old = [] := by
      rw [List.eq_nil_iff_forall_not_mem]
      intro o inWindow
      obtain ⟨isOld,late,_⟩ := mem_window.mp inWindow
      have reach : start+width ≤ t := (add_le_add_left late width).trans ((before o isOld).trans (after t member))
      exact absurd inside (not_lt.mpr reach)
    have split : window width start (recent ++ old) = window width start recent ++ window width start old := List.filter_append ..
    have part : (window width start recent).length ≤ recent.length := List.length_filter_le ..
    rw [split,apart,List.append_nil]
    omega
  · have apart : window width start recent = [] := by
      rw [List.eq_nil_iff_forall_not_mem]
      intro t inWindow
      obtain ⟨member,_,inside⟩ := mem_window.mp inWindow
      exact touched ⟨t,member,inside⟩
    have split : window width start (recent ++ old) = window width start recent ++ window width start old := List.filter_append ..
    rw [split,apart,List.nil_append]
    exact sparse start

theorem metered_start (now : T) (fits : left ≤ limit) : Metered limit width now [] left :=
  ⟨[],[],now,rfl,sparse_nil,by simp,by simp,le_refl _,by simpa using fits⟩

/-- Time goes on, and the counter may get lower for another reason. -/
theorem Metered.less (metered : Metered limit width now times left) {later : T} {left' : Nat} (on : now ≤ later) (lower : left' ≤ left) :
    Metered limit width later times left' := by
  obtain ⟨recent,old,since,split,sparse,before,after,begun,fits⟩ := metered
  exact ⟨recent,old,since,split,sparse,before,after,begun.trans on,by omega⟩

theorem Metered.use (metered : Metered limit width now times left) {later : T} {left' : Nat} (on : now ≤ later) (lower : left'+1 ≤ left) :
    Metered limit width later (later :: times) left' := by
  obtain ⟨recent,old,since,rfl,sparse,before,after,begun,fits⟩ := metered
  refine ⟨later :: recent,old,since,rfl,sparse,before,?_,begun.trans on,?_⟩
  · intro t member
    rcases List.mem_cons.mp member with rfl | earlier
    · exact begun.trans on
    · exact after t earlier
  · rw [List.length_cons]
    omega

theorem Metered.fill (metered : Metered limit width now times left) {later : T} {left' : Nat} (fits : left' ≤ limit)
    (timely : ∀ t ∈ times, t+width ≤ later) : Metered limit width later times left' :=
  ⟨[],times,later,rfl,metered.sparse,timely,by simp,le_refl _,by simpa using fits⟩

end

end Tetra.Refill
