import Mathlib

/-!
Programs that ask an oracle. How many of its answers the result can depend on is told by
rules that follow the program.
-/
namespace Tetra.Queries

variable {Q A R S ε : Type}

/-- At this oracle the result depends on no more than so many answers. -/
def Asks (f : (Q → A) → R) (o : Q → A) (n : Nat) : Prop :=
  ∃ asked : List Q, asked.length ≤ n ∧ ∀ o' : Q → A, (∀ q ∈ asked, o' q = o q) → f o' = f o

variable {o : Q → A} {n m : Nat}

theorem Asks.never (r : R) : Asks (fun _ => r) o n := ⟨[],Nat.zero_le n,fun _ _ => rfl⟩

theorem Asks.once (q : Q) (f : A → R) : Asks (fun o => f (o q)) o 1 :=
  ⟨[q],le_rfl,fun _ agree => congrArg f (agree q (List.mem_singleton.mpr rfl))⟩

theorem Asks.mono {f : (Q → A) → R} (asks : Asks f o n) (more : n ≤ m) : Asks f o m := by
  obtain ⟨asked,few,same⟩ := asks
  exact ⟨asked,few.trans more,same⟩

theorem Asks.map {f : (Q → A) → R} (asks : Asks f o n) (g : R → S) : Asks (fun o => g (f o)) o n := by
  obtain ⟨asked,few,same⟩ := asks
  exact ⟨asked,few,fun o' agree => congrArg g (same o' agree)⟩

theorem Asks.ite {c : Prop} [Decidable c] {f g : (Q → A) → R} (yes : c → Asks f o n) (no : ¬c → Asks g o n) :
    Asks (fun o => if c then f o else g o) o n := by
  by_cases holds : c
  · simpa only [if_pos holds] using yes holds
  · simpa only [if_neg holds] using no holds

/-- A second part asks with the result of the first, if there is one. -/
theorem Asks.bind {f : (Q → A) → Except ε S} {g : (Q → A) → S → Except ε R} (first : Asks f o n)
    (next : ∀ s, f o = .ok s → Asks (fun o => g o s) o m) : Asks (fun o => f o >>= g o) o (n+m) := by
  obtain ⟨asked,few,same⟩ := first
  cases result : f o with
  | error e =>
    refine ⟨asked,few.trans (Nat.le_add_right n m),fun o' agree => ?_⟩
    dsimp only
    rw [same o' agree,result]
    rfl
  | ok s =>
    obtain ⟨asked',few',same'⟩ := next s result
    refine ⟨asked ++ asked',by rw [List.length_append]; omega,fun o' agree => ?_⟩
    have rest := same' o' fun q member => agree q (List.mem_append_right asked member)
    have start := same o' fun q member => agree q (List.mem_append_left asked' member)
    dsimp only at rest ⊢
    rw [start,result]
    exact rest

/-- A first part that asks nothing. -/
theorem Asks.after {x : Except ε S} {g : (Q → A) → S → Except ε R} (next : ∀ s, x = .ok s → Asks (fun o => g o s) o n) :
    Asks (fun o => x >>= g o) o n := by
  have both := (Asks.never (n := 0) (o := o) x).bind next
  rwa [Nat.zero_add] at both

end Tetra.Queries
