import Mathlib
import Tetra.Maps

/-!
Runs of steps in different orders. A step says whether what follows it goes on; steps that
do not disturb each other can be done in either order, and so can what is composed of
them. Two orders of the same steps that both put causes first end in the same state, if
any two steps commute of which neither is a cause of the other.
-/
namespace Tetra
open Std (ExtTreeMap TransOrd LawfulEqOrd)

/-- A step answers whether to go on, and changes the state. -/
abbrev Stage (σ : Type*) := σ → Bool × σ

namespace Stage
variable {σ : Type*}

/-- What comes after a step that does not go on is left out. -/
def andThen (f g : Stage σ) : Stage σ := fun s => if (f s).1 then g (f s).2 else f s

def all : List (Stage σ) → Stage σ
  | [] => fun s => (true,s)
  | f :: rest => f.andThen (all rest)

/-- Neither step sees the other one, and their effects commute. -/
structure Apart (f g : Stage σ) : Prop where
  left : ∀ s, (f (g s).2).1 = (f s).1
  right : ∀ s, (g (f s).2).1 = (g s).1
  effects : ∀ s, (f (g s).2).2 = (g (f s).2).2

variable {f g h : Stage σ}

theorem Apart.symm (apart : Apart f g) : Apart g f where
  left := apart.right
  right := apart.left
  effects s := (apart.effects s).symm

theorem andThen_snd (s : σ) : (f.andThen g s).2 = if (f s).1 then (g (f s).2).2 else (f s).2 := by
  unfold andThen
  split <;> rfl

theorem andThen_fst (s : σ) : (f.andThen g s).1 = ((f s).1 && (g (f s).2).1) := by
  unfold andThen
  split
  next goes => rw [goes,Bool.true_and]
  next stops => rw [Bool.eq_false_of_not_eq_true stops,Bool.false_and]

theorem Apart.andThen (first : Apart f h) (second : Apart g h) : Apart (f.andThen g) h where
  left s := by rw [andThen_fst,andThen_fst,first.left,first.effects,second.left]
  right s := by
    rw [andThen_snd]
    split
    · rw [second.right,first.right]
    · exact first.right s
  effects s := by
    rw [andThen_snd,andThen_snd,first.left]
    split
    · rw [first.effects,second.effects]
    · exact first.effects s

theorem Apart.all {fs : List (Stage σ)} (each : ∀ f ∈ fs, Apart f h) : Apart (all fs) h := by
  induction fs with
  | nil => exact ⟨fun _ => rfl,fun _ => rfl,fun _ => rfl⟩
  | cons f rest ih =>
    exact (each f (List.mem_cons_self ..)).andThen (ih fun g later => each g (List.mem_cons_of_mem _ later))

section
variable {κ ν : Type*} [Ord κ] [TransOrd κ] [LawfulEqOrd κ] {f g : Stage ν} {k l : κ}

/-- A step on the value under one key, if there is one. -/
def atKey (k : κ) (f : Stage ν) : Stage (ExtTreeMap κ ν) := fun m =>
  match m[k]? with
  | none => (true,m)
  | some x => ((f x).1,m.insert k (f x).2)

omit [LawfulEqOrd κ] in
theorem atKey_none (f : Stage ν) {m : ExtTreeMap κ ν} (absent : m[k]? = none) : atKey k f m = (true,m) := by
  unfold atKey
  rw [absent]

omit [LawfulEqOrd κ] in
theorem atKey_some (f : Stage ν) {m : ExtTreeMap κ ν} {x : ν} (found : m[k]? = some x) : atKey k f m = ((f x).1,m.insert k (f x).2) := by
  unfold atKey
  rw [found]

theorem lookup_atKey [DecidableEq κ] (f : Stage ν) (m : ExtTreeMap κ ν) (l : κ) : (atKey k f m).2[l]? = if k = l then m[l]?.map fun x => (f x).2 else m[l]? := by
  cases found : m[k]? with
  | none =>
    rw [atKey_none f found]
    split
    next same => rw [← same,found]; rfl
    · rfl
  | some x =>
    rw [atKey_some f found]
    split
    next same => rw [← same,Maps.insert_self,found]; rfl
    next apart => exact Maps.lookup_insert_other apart _

theorem Apart.atKey (apart : Apart f g) (k : κ) : Apart (atKey k f) (atKey k g) := by
  have answer : ∀ {f g : Stage ν}, Apart f g → ∀ m : ExtTreeMap κ ν, (Stage.atKey k f (Stage.atKey k g m).2).1 = (Stage.atKey k f m).1 := by
    intro f g apart m
    cases found : m[k]? with
    | none => rw [atKey_none g found]
    | some x => rw [atKey_some g found,atKey_some f (Maps.insert_self ..),atKey_some f found,apart.left]
  refine ⟨answer apart,answer apart.symm,fun m => ?_⟩
  cases found : m[k]? with
  | none => rw [atKey_none g found,atKey_none f found,atKey_none g found]
  | some x =>
    rw [atKey_some g found,atKey_some f (Maps.insert_self ..),atKey_some f found,atKey_some g (Maps.insert_self ..),
      Maps.insert_again,Maps.insert_again,apart.effects]

theorem atKey_apart (f g : Stage ν) (apart : k ≠ l) : Apart (atKey k f) (atKey l g) := by
  have answer : ∀ {f g : Stage ν} {k l : κ}, k ≠ l → ∀ m : ExtTreeMap κ ν, (Stage.atKey k f (Stage.atKey l g m).2).1 = (Stage.atKey k f m).1 := by
    intro f g k l apart m
    cases found : m[l]? with
    | none => rw [atKey_none g found]
    | some y =>
      rw [atKey_some g found]
      have same : (m.insert l (g y).2)[k]? = m[k]? := Maps.lookup_insert_other apart.symm _
      cases here : m[k]? with
      | none => rw [atKey_none f here,atKey_none f (same.trans here)]
      | some x => rw [atKey_some f here,atKey_some f (same.trans here)]
  classical
  refine ⟨answer apart,answer apart.symm,fun m => ?_⟩
  refine ExtTreeMap.ext_getElem? fun i => ?_
  rw [lookup_atKey,lookup_atKey,lookup_atKey,lookup_atKey]
  by_cases atK : k = i
  · have off : l ≠ i := fun atL => apart (atK.trans atL.symm)
    rw [if_pos atK,if_neg off,if_neg off,if_pos atK]
  · rw [if_neg atK,if_neg atK]

end

end Stage

section
variable {α σ : Type*} {step : σ → α → σ} {cause : α → α → Prop}

/-- A step before which nothing stands that it depends on can be done first. -/
theorem foldl_moveFirst {a : α} {before : List α} (commute : ∀ b ∈ before, ∀ s, step (step s a) b = step (step s b) a) (s : σ) (after : List α) :
    (before ++ a :: after).foldl step s = (a :: (before ++ after)).foldl step s := by
  induction before generalizing s with
  | nil => rfl
  | cons b rest ih =>
    have later := ih fun other member => commute other (List.mem_cons_of_mem _ member)
    rw [List.cons_append,List.foldl_cons,later,List.foldl_cons,List.foldl_cons,List.cons_append,List.foldl_cons,
      commute b (List.mem_cons_self ..)]

/-- No step comes before one of its causes. -/
def CausesFirst (cause : α → α → Prop) (steps : List α) : Prop := steps.Pairwise fun a b => ¬ cause b a

/-- The order of the steps does not matter, as long as causes come first. -/
theorem foldl_eq_of_perm {steps steps' : List α} (perm : steps.Perm steps') (ordered : CausesFirst cause steps)
    (ordered' : CausesFirst cause steps')
    (commute : ∀ a ∈ steps, ∀ b ∈ steps, a ≠ b → ¬ cause a b → ¬ cause b a → ∀ s, step (step s a) b = step (step s b) a) (s : σ) :
    steps.foldl step s = steps'.foldl step s := by
  induction steps generalizing steps' s with
  | nil => rw [List.nil_perm.mp perm]
  | cons a rest ih =>
    obtain ⟨before,after,rfl,fresh⟩ := List.eq_append_cons_of_mem (perm.subset (List.mem_cons_self ..))
    have same : rest.Perm (before ++ after) := (List.perm_cons a).mp (perm.trans List.perm_middle)
    have moved : (before ++ a :: after).foldl step s = (a :: (before ++ after)).foldl step s := by
      refine foldl_moveFirst (fun b member s => ?_) s after
      have apart : a ≠ b := fun eq => fresh (eq ▸ member)
      have inside : b ∈ rest := same.symm.subset (List.mem_append_left _ member)
      refine commute a (List.mem_cons_self ..) b (List.mem_cons_of_mem _ inside) apart ?_ ?_ s
      · exact (List.pairwise_append.mp ordered').2.2 b member a (List.mem_cons_self ..)
      · exact (List.pairwise_cons.mp ordered).1 b inside
    have shorter : CausesFirst cause (before ++ after) :=
      ordered'.sublist (List.append_sublist_append_left before |>.mpr (List.sublist_cons_self a after))
    rw [moved,List.foldl_cons,List.foldl_cons]
    refine ih same (List.pairwise_cons.mp ordered).2 shorter (fun b member c member' => ?_) _
    exact commute b (List.mem_cons_of_mem _ member) c (List.mem_cons_of_mem _ member')

end
end Tetra
