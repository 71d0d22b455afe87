import Mathlib

/-!
Computations that can stop early, where some ways to stop are faults that must never
happen: what it means that a computation is sound, and the rules that show it.
-/
namespace Tetra.Guarded

variable {ε α β : Type} {fault : ε → Prop}

/-- The computation does not stop with a fault, and its result is as it should be. -/
def Sound (fault : ε → Prop) (x : Except ε α) (post : α → Prop) : Prop :=
  match x with
  | .ok a => post a
  | .error e => ¬fault e

theorem Sound.ok {a : α} {post : α → Prop} (good : post a) : Sound fault (.ok a) post := good

theorem Sound.stop {e : ε} {post : α → Prop} (harmless : ¬fault e) : Sound fault (.error e : Except ε α) post := harmless

theorem Sound.bind {x : Except ε α} {f : α → Except ε β} {mid : α → Prop} {post : β → Prop} (first : Sound fault x mid)
    (next : ∀ a, mid a → Sound fault (f a) post) : Sound fault (x >>= f) post := by
  cases x with
  | ok a => exact next a first
  | error e => exact first

/-- What is returned is known to be returned. -/
theorem Sound.returned {x : Except ε α} {post : α → Prop} (sound : Sound fault x post) : Sound fault x fun a => x = .ok a ∧ post a := by
  cases x with
  | ok a => exact ⟨rfl,sound⟩
  | error e => exact sound

theorem Sound.mono {x : Except ε α} {post post' : α → Prop} (sound : Sound fault x post) (weaker : ∀ a, post a → post' a) :
    Sound fault x post' := by
  cases x with
  | ok a => exact weaker a sound
  | error e => exact sound

/-- The last step only makes a value of the result. -/
theorem Sound.return {x : Except ε α} {f : α → β} {mid : α → Prop} {post : β → Prop} (first : Sound fault x mid)
    (good : ∀ a, mid a → post (f a)) : Sound fault (do let a ← x; pure (f a)) post := first.bind fun a got => .ok (good a got)

theorem Sound.ite {c : Prop} [Decidable c] {x y : Except ε α} {post : α → Prop} (yes : c → Sound fault x post) (no : ¬c → Sound fault y post) :
    Sound fault (if c then x else y) post := by
  split
  next holds => exact yes holds
  next fails => exact no fails

/-- A loop over a list, by an invariant. -/
theorem Sound.foldlM {γ : Type} {f : β → γ → Except ε β} {inv : β → Prop} {cs : List γ} {b : β} (start : inv b)
    (turn : ∀ b, inv b → ∀ c ∈ cs, Sound fault (f b c) inv) : Sound fault (cs.foldlM f b) inv := by
  induction cs generalizing b with
  | nil => exact start
  | cons c cs ih =>
    refine (turn b start c (List.mem_cons_self ..)).bind fun b' next => ?_
    exact ih next fun b'' good c' member => turn b'' good c' (List.mem_cons_of_mem _ member)

theorem Sound.not_fault {x : Except ε α} {post : α → Prop} (sound : Sound fault x post) {e : ε} (stopped : x = .error e) : ¬fault e := by
  rw [stopped] at sound
  exact sound

theorem Sound.result {x : Except ε α} {post : α → Prop} (sound : Sound fault x post) {a : α} (returned : x = .ok a) : post a := by
  rw [returned] at sound
  exact sound

/-- A run that ends went through both parts. -/
theorem bind_ok {x : Except ε α} {f : α → Except ε β} {b : β} : x >>= f = .ok b ↔ ∃ a, x = .ok a ∧ f a = .ok b := by
  cases x with
  | ok a => exact ⟨fun ran => ⟨a,rfl,ran⟩,fun ⟨_,same,ran⟩ => Except.ok.inj same ▸ ran⟩
  | error e => exact ⟨nofun,nofun⟩

end Tetra.Guarded
