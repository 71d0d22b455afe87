import Mathlib

/-!
A ledger is a partial map. A step takes some entries out and rewrites the entries
of one owner; knowing what it took out, the step can be undone, and so can a
sequence of steps, last one first.
-/
namespace Tetra.Ledger

variable {κ ν : Type*} [DecidableEq κ]

/-- The entries of one owner become `made`; the `inputs` are taken out. -/
def step (inputs : List κ) (owner : κ → Bool) (made : κ → Option ν) (ledger : κ → Option ν) : κ → Option ν :=
  fun k => if owner k then made k else if k ∈ inputs then none else ledger k

/-- The owner's entries go, the inputs come back as they were in `old`. -/
def unstep (inputs : List κ) (owner : κ → Bool) (old : κ → Option ν) (ledger : κ → Option ν) : κ → Option ν :=
  fun k => if k ∈ inputs then old k else if owner k then none else ledger k

/-- A step on fresh entries is undone by putting back what it took. -/
theorem unstep_step (inputs : List κ) (owner : κ → Bool) (made ledger : κ → Option ν)
    (fresh : ∀ k, owner k = true → ledger k = none) :
    unstep inputs owner ledger (step inputs owner made ledger) = ledger := by
  funext k
  by_cases input : k ∈ inputs
  · simp [unstep,input]
  · by_cases owned : owner k = true
    · simp [unstep,input,owned,fresh k owned]
    · simp [unstep,step,input,owned]

@[simp] theorem step_of_owner {inputs : List κ} {owner : κ → Bool} {made ledger : κ → Option ν} {k : κ}
    (owned : owner k = true) : step inputs owner made ledger k = made k := by
  simp [step,owned]

theorem step_of_other {inputs : List κ} {owner : κ → Bool} {made ledger : κ → Option ν} {k : κ}
    (other : owner k = false) : step inputs owner made ledger k = if k ∈ inputs then none else ledger k := by
  simp [step,other]

/-- What is there after a step was there before or was made by it. -/
theorem step_eq_some {inputs : List κ} {owner : κ → Bool} {made ledger : κ → Option ν} {k : κ} {v : ν}
    (found : step inputs owner made ledger k = some v) :
    (owner k = true ∧ made k = some v) ∨ (owner k = false ∧ k ∉ inputs ∧ ledger k = some v) := by
  rw [step] at found
  split at found
  · next owned => exact Or.inl ⟨owned,found⟩
  split at found
  · contradiction
  · next other kept => exact Or.inr ⟨by simpa using other,kept,found⟩

end Tetra.Ledger
