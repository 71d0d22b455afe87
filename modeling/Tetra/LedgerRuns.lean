import Mathlib
import Tetra.Ledger

/-!
Steps on a ledger one after another, each taking out entries that are there. When the owners
have no entries at the start and every step takes something, no step is made twice, no entry
is taken twice, and what is left can be read off the list of the steps.
-/
namespace Tetra.Ledger

/-- What a step takes, who owns what it writes, and what it writes. -/
structure Steps (κ ν ι τ : Type*) where
  owner : κ → ι
  inputs : τ → List κ
  name : τ → ι
  made : τ → κ → Option ν

section
variable {κ ν ι τ : Type*} {steps : Steps κ ν ι τ} {start ledger : κ → Option ν} {ts : List τ}

/-- What the steps have taken together. -/
def Steps.taken (steps : Steps κ ν ι τ) (ts : List τ) : List κ := ts.flatMap steps.inputs

/-- The owners have nothing at the start. -/
def Fresh (steps : Steps κ ν ι τ) (start : κ → Option ν) (ts : List τ) : Prop :=
  ∀ t ∈ ts, ∀ k, steps.owner k = steps.name t → start k = none

/-- Every step takes something, and a name stands for one way to take. -/
structure Proper (steps : Steps κ ν ι τ) (ts : List τ) : Prop where
  takes : ∀ t ∈ ts, steps.inputs t ≠ []
  named : ∀ a ∈ ts, ∀ b ∈ ts, steps.name a = steps.name b → steps.inputs a = steps.inputs b

theorem mem_taken {k : κ} : k ∈ steps.taken ts ↔ ∃ t ∈ ts, k ∈ steps.inputs t := List.mem_flatMap

theorem taken_concat (t : τ) : steps.taken (ts ++ [t]) = steps.taken ts ++ steps.inputs t := by
  rw [Steps.taken,List.flatMap_append,List.flatMap_singleton]
  rfl

theorem Fresh.init {t : τ} (fresh : Fresh steps start (ts ++ [t])) : Fresh steps start ts :=
  fun a inside => fresh a (List.mem_append_left _ inside)

theorem Proper.init {t : τ} (proper : Proper steps (ts ++ [t])) : Proper steps ts where
  takes a inside := proper.takes a (List.mem_append_left _ inside)
  named a left b right := proper.named a (List.mem_append_left _ left) b (List.mem_append_left _ right)

variable [DecidableEq κ] [DecidableEq ι]

def Steps.apply (steps : Steps κ ν ι τ) (t : τ) (ledger : κ → Option ν) : κ → Option ν :=
  step (steps.inputs t) (fun k => decide (steps.owner k = steps.name t)) (steps.made t) ledger

inductive Run (steps : Steps κ ν ι τ) (start : κ → Option ν) : List τ → (κ → Option ν) → Prop
  | nil : Run steps start [] start
  | snoc {ts ledger t} (before : Run steps start ts ledger) (there : ∀ k ∈ steps.inputs t, ledger k ≠ none) (distinct : (steps.inputs t).Nodup) :
    Run steps start (ts ++ [t]) (steps.apply t ledger)

/-- What such a run comes to. -/
structure Orderly (steps : Steps κ ν ι τ) (start : κ → Option ν) (ts : List τ) (ledger : κ → Option ν) : Prop where
  names : (ts.map steps.name).Nodup
  once : (steps.taken ts).Nodup
  earlier : ∀ before t, before ++ [t] <+: ts → ∀ k ∈ steps.inputs t, start k ≠ none ∨ ∃ s ∈ before, steps.name s = steps.owner k
  left : ∀ k, ledger k =
    if k ∈ steps.taken ts then none
    else
      match ts.find? fun t => decide (steps.name t = steps.owner k) with
      | some t => steps.made t k
      | none => start k

/-- An entry was there at the start or comes from an earlier step, and was not taken since. -/
theorem Orderly.present (orderly : Orderly steps start ts ledger) {k : κ} (there : ledger k ≠ none) :
    k ∉ steps.taken ts ∧ (start k ≠ none ∨ ∃ s ∈ ts, steps.name s = steps.owner k) := by
  rw [orderly.left k] at there
  split at there
  · contradiction
  next free =>
    refine ⟨free,?_⟩
    split at there
    next t found => exact .inr ⟨t,List.mem_of_find?_eq_some found,by simpa using List.find?_some found⟩
    · exact .inl there

/-- What was taken was there before. -/
theorem Orderly.source (orderly : Orderly steps start ts ledger) {k : κ} (taken : k ∈ steps.taken ts) :
    start k ≠ none ∨ ∃ s ∈ ts, steps.name s = steps.owner k := by
  obtain ⟨t,inside,takes⟩ := mem_taken.mp taken
  obtain ⟨before,after,rfl⟩ := List.append_of_mem inside
  have isPrefix : before ++ [t] <+: before ++ t :: after := ⟨after,by simp⟩
  rcases orderly.earlier before t isPrefix k takes with first | ⟨s,member,same⟩
  · exact .inl first
  · exact .inr ⟨s,List.mem_append_left _ member,same⟩

theorem Orderly.snoc {t : τ} (orderly : Orderly steps start ts ledger) (fresh : Fresh steps start (ts ++ [t]))
    (new : ∀ s ∈ ts, steps.name s ≠ steps.name t) (there : ∀ k ∈ steps.inputs t, ledger k ≠ none) (distinct : (steps.inputs t).Nodup) :
    Orderly steps start (ts ++ [t]) (steps.apply t ledger) := by
  have last : t ∈ ts ++ [t] := List.mem_append_right _ (List.mem_singleton_self t)
  have apart : ∀ k, (start k ≠ none ∨ ∃ s ∈ ts, steps.name s = steps.owner k) → steps.owner k ≠ steps.name t := by
    rintro k (first | ⟨s,inside,same⟩) own
    · exact first (fresh t last k own)
    · exact new s inside (same.trans own)
  constructor
  case names =>
    rw [List.map_append,List.map_singleton,← List.concat_eq_append]
    refine orderly.names.concat ?_
    intro member
    obtain ⟨s,inside,same⟩ := List.mem_map.mp member
    exact new s inside same
  case once =>
    rw [taken_concat]
    refine List.nodup_append'.mpr ⟨orderly.once,distinct,?_⟩
    intro k taken takes
    exact (orderly.present (there k takes)).1 taken
  case earlier =>
    intro before a isPrefix k takes
    rcases List.prefix_concat_iff.mp isPrefix with whole | inside
    · obtain ⟨rfl,same⟩ := List.append_inj' whole rfl
      obtain rfl := List.head_eq_of_cons_eq same
      exact (orderly.present (there k takes)).2
    · exact orderly.earlier before a inside k takes
  case left =>
    intro k
    simp only [Steps.apply,step,taken_concat,List.mem_append,List.find?_append]
    by_cases own : steps.owner k = steps.name t
    · have untaken : ¬(k ∈ steps.taken ts ∨ k ∈ steps.inputs t) := by
        rintro (taken | takes)
        · exact apart k (orderly.source taken) own
        · exact apart k (orderly.present (there k takes)).2 own
      have absent : ts.find? (fun t => decide (steps.name t = steps.owner k)) = none := by
        rw [List.find?_eq_none]
        intro s inside
        rw [own,decide_eq_true_eq]
        exact new s inside
      rw [if_pos (decide_eq_true own),if_neg untaken,absent]
      simp [own]
    · rw [if_neg (by simpa using own)]
      by_cases takes : k ∈ steps.inputs t
      · simp [takes]
      · rw [if_neg takes,orderly.left k]
        simp [takes,Ne.symm own]

theorem Orderly.nil : Orderly steps start [] start := by
  refine ⟨List.nodup_nil,List.nodup_nil,?_,fun _ => rfl⟩
  intro before t isPrefix
  simp at isPrefix

/-- A second step of a name would take what the first has taken. -/
theorem Orderly.new {t : τ} (orderly : Orderly steps start ts ledger) (proper : Proper steps (ts ++ [t]))
    (there : ∀ k ∈ steps.inputs t, ledger k ≠ none) : ∀ s ∈ ts, steps.name s ≠ steps.name t := by
  intro s inside same
  have last : t ∈ ts ++ [t] := List.mem_append_right _ (List.mem_singleton_self t)
  obtain ⟨k,takes⟩ := List.exists_mem_of_ne_nil _ (proper.takes t last)
  have again : k ∈ steps.inputs s := by
    rw [proper.named s (List.mem_append_left _ inside) t last same]
    exact takes
  exact (orderly.present (there k takes)).1 (mem_taken.mpr ⟨s,inside,again⟩)

theorem Run.orderly (run : Run steps start ts ledger) (fresh : Fresh steps start ts) (proper : Proper steps ts) :
    Orderly steps start ts ledger := by
  induction run with
  | nil => exact .nil
  | snoc _ there distinct ih =>
    have orderly := ih fresh.init proper.init
    exact orderly.snoc fresh (orderly.new proper there) there distinct

/-- Where the names are known to differ, a step may take nothing. -/
theorem Run.orderly_of_names (run : Run steps start ts ledger) (fresh : Fresh steps start ts) (names : (ts.map steps.name).Nodup) :
    Orderly steps start ts ledger := by
  induction run with
  | nil => exact .nil
  | @snoc ts ledger t _ there distinct ih =>
    rw [List.map_append,List.map_singleton] at names
    obtain ⟨before,_,apart⟩ := List.nodup_append'.mp names
    refine (ih fresh.init before).snoc fresh ?_ there distinct
    intro s inside same
    exact apart (List.mem_map.mpr ⟨s,inside,rfl⟩) (List.mem_singleton.mpr same)

end
end Tetra.Ledger
