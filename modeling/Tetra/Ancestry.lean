import Mathlib

/-!
Trees given by the parent of each element: the chain from an element up to the root,
and the links that lead along one chain the other way. Moving from one tip to another
takes the links of the old branch away and sets those of the new one.
-/
namespace Tetra.Ancestry

variable {α : Type*} (parent : α → Option α)

/-- `k` is `t` or an ancestor of it. -/
def Descends (t k : α) : Prop := Relation.ReflTransGen (fun child p => parent child = some p) t k

/-- `k` is on the chain that ends at `tip`. -/
def OnChain (tip : Option α) (k : α) : Prop := ∃ t, tip = some t ∧ Descends parent t k

/-- `next` leads along the chain that ends at `tip`, and nowhere else. -/
def Linked (next : α → Option α) (tip : Option α) : Prop :=
  ∀ x k, next x = some k ↔ OnChain parent tip k ∧ parent k = some x

/-- Every parent is lower than its children. -/
def Falls (height : α → Nat) : Prop := ∀ child p, parent child = some p → height p < height child

/-- The elements from one place up to another, which is left out; none if the walk ends
    elsewhere or the fuel runs out. -/
def walkTo [DecidableEq α] (stop : Option α) : Nat → Option α → Option (List α)
  | 0, place => if place = stop then some [] else none
  | fuel+1, place =>
    if place = stop then some []
    else
      match place with
      | none => none
      | some k => (walkTo stop fuel (parent k)).map (k :: ·)

/-- Sets the link of the parent of an element. -/
def assignOne [DecidableEq α] (next : α → Option α) (k : α) (link : Option α) : α → Option α :=
  match parent k with
  | none => next
  | some p => Function.update next p link

/-- Sets the links of the parents of some elements, one after the other. -/
def assign [DecidableEq α] (value : α → Option α) (next : α → Option α) (ks : List α) : α → Option α :=
  ks.foldl (fun next k => assignOne parent next k (value k)) next

/-- How many of some elements stand lower than an element. -/
def below (height : α → Nat) (ks : List α) (k : α) : Nat := ks.countP fun other => decide (height other < height k)

variable {parent}

theorem below_le (height : α → Nat) (ks : List α) (k : α) : below height ks k ≤ ks.length := List.countP_le_length

theorem below_lt {height : α → Nat} {ks : List α} {k p : α} (member : p ∈ ks) (lower : height p < height k) :
    below height ks p < below height ks k := by
  unfold below
  induction ks with
  | nil => simp at member
  | cons first rest ih =>
    have rest_le : rest.countP (fun other => decide (height other < height p)) ≤ rest.countP fun other => decide (height other < height k) := by
      refine List.countP_mono_left fun other _ less => ?_
      simp only [decide_eq_true_eq] at less ⊢
      omega
    rw [List.countP_cons,List.countP_cons]
    rcases List.mem_cons.mp member with rfl | later
    · simp only [decide_eq_true_eq,if_pos lower,lt_irrefl,if_false]
      omega
    · have less := ih later
      simp only [decide_eq_true_eq]
      split
      · rw [if_pos (by omega)]
        omega
      · split <;> omega

theorem not_onChain_none (k : α) : ¬ OnChain parent none k := by
  rintro ⟨t,root,_⟩
  contradiction

theorem onChain_some (t k : α) : OnChain parent (some t) k ↔ k = t ∨ OnChain parent (parent t) k := by
  constructor
  · rintro ⟨_,found,path⟩
    obtain rfl := Option.some.inj found
    rcases Relation.ReflTransGen.cases_head path with rfl | ⟨p,step,rest⟩
    · exact .inl rfl
    · exact .inr ⟨p,step,rest⟩
  · rintro (rfl | ⟨p,step,rest⟩)
    · exact ⟨k,rfl,.refl⟩
    · exact ⟨t,rfl,.head step rest⟩

theorem linked_none : Linked parent (fun _ => none) none := by
  intro x k
  simp [not_onChain_none]

theorem linked_unique {next next' : α → Option α} {tip : Option α} (left : Linked parent next tip) (right : Linked parent next' tip) :
    next = next' := by
  funext x
  refine Option.ext fun k => ?_
  rw [left x k,right x k]

section
variable {parent' : α → Option α} {inside : α → Prop} (closed : ∀ k p, inside k → parent k = some p → inside p)
  (same : ∀ k, inside k → parent' k = parent k)
include closed same

/-- A chain stays the same while elements are added outside of it. -/
theorem descends_congr {t k : α} (start : inside t) : (Descends parent' t k ↔ Descends parent t k) ∧ (Descends parent t k → inside k) := by
  have keeps : ∀ {k}, Descends parent t k → inside k := by
    intro k path
    induction path with
    | refl => exact start
    | tail _ step within => exact closed _ _ within step
  refine ⟨⟨fun path => ?_,fun path => ?_⟩,keeps⟩
  · induction path with
    | refl => exact .refl
    | tail _ step before => exact before.tail ((same _ (keeps before)).symm.trans step)
  · induction path with
    | refl => exact .refl
    | tail before step after => exact after.tail ((same _ (keeps before)).trans step)

theorem Linked.congr {next : α → Option α} {tip : Option α} (linked : Linked parent next tip) (start : ∀ t, tip = some t → inside t) :
    Linked parent' next tip := by
  have chains : ∀ k, (OnChain parent' tip k ↔ OnChain parent tip k) ∧ (OnChain parent tip k → inside k) := by
    intro k
    refine ⟨exists_congr fun t => and_congr_right fun root => (descends_congr closed same (start t root)).1,?_⟩
    rintro ⟨t,root,path⟩
    exact (descends_congr closed same (start t root)).2 path
  intro x k
  rw [linked x k,(chains k).1]
  exact and_congr_right fun chain => by rw [same k ((chains k).2 chain)]

end

section
variable {height : α → Nat} (falls : Falls parent height)
include falls

theorem Descends.height_le {t k : α} (path : Descends parent t k) : height k ≤ height t := by
  induction path with
  | refl => exact le_rfl
  | tail _ step ih => exact (falls _ _ step).le.trans ih

theorem Descends.height_lt {t k : α} (path : Descends parent t k) (other : t ≠ k) : height k < height t := by
  rcases Relation.ReflTransGen.cases_head path with same | ⟨p,step,rest⟩
  · exact absurd same other
  · exact (Descends.height_le falls rest).trans_lt (falls _ _ step)

/-- Two elements of one chain with the same parent are the same. -/
theorem onChain_sibling {tip : Option α} {k l x : α} (left : OnChain parent tip k) (right : OnChain parent tip l)
    (parentLeft : parent k = some x) (parentRight : parent l = some x) : k = l := by
  obtain ⟨t,rfl,path⟩ := left
  obtain ⟨_,found,path'⟩ := right
  obtain rfl := Option.some.inj found
  have unique : Relator.RightUnique fun child p => parent child = some p := by
    intro a b c first second
    exact Option.some.inj (first.symm.trans second)
  -- One of the two is the other or above it, and then above the common parent.
  have equal : ∀ {k l : α}, parent k = some x → parent l = some x → Descends parent k l → k = l := by
    intro k l parentK parentL down
    rcases Relation.ReflTransGen.cases_head down with same | ⟨p,step,rest⟩
    · exact same
    · obtain rfl : p = x := Option.some.inj (step.symm.trans parentK)
      have below := Descends.height_le falls rest
      have above := falls _ _ parentL
      omega
  rcases Relation.ReflTransGen.total_of_right_unique unique path path' with down | up
  · exact equal parentLeft parentRight down
  · exact (equal parentRight parentLeft up).symm

end

section
variable [DecidableEq α]

theorem walkTo_self (stop : Option α) (fuel : Nat) : walkTo parent stop fuel stop = some [] := by
  cases fuel <;> simp [walkTo]

theorem walkTo_step {stop place : Option α} {fuel : Nat} {ks : List α} (walked : walkTo parent stop fuel place = some ks)
    (apart : place ≠ stop) : ∃ k fuel' rest, place = some k ∧ walkTo parent stop fuel' (parent k) = some rest ∧ ks = k :: rest := by
  cases fuel with
  | zero =>
    rw [walkTo,if_neg apart] at walked
    contradiction
  | succ fuel =>
    unfold walkTo at walked
    rw [if_neg apart] at walked
    cases place with
    | none => contradiction
    | some k =>
      obtain ⟨rest,went,rfl⟩ := Option.map_eq_some_iff.mp walked
      exact ⟨k,fuel,rest,rfl,went,rfl⟩

/-- A walk passes the elements of the chain that are not on the chain where it stops. -/
theorem walkTo_onChain {stop place : Option α} {fuel : Nat} {ks : List α} (walked : walkTo parent stop fuel place = some ks) (k : α) :
    OnChain parent place k ↔ k ∈ ks ∨ OnChain parent stop k := by
  induction ks generalizing place fuel with
  | nil =>
    by_cases same : place = stop
    · simp [same]
    · obtain ⟨_,_,_,_,_,cons⟩ := walkTo_step walked same
      contradiction
  | cons first rest ih =>
    by_cases same : place = stop
    · rw [same,walkTo_self] at walked
      simp at walked
    · obtain ⟨_,_,_,rfl,went,cons⟩ := walkTo_step walked same
      obtain ⟨rfl,rfl⟩ := List.cons.inj cons
      rw [onChain_some,ih went,List.mem_cons,or_assoc]

/-- Every element that a walk passes is properly below the place where it stops. -/
theorem walkTo_below {stop place : Option α} {fuel : Nat} {ks : List α} (walked : walkTo parent stop fuel place = some ks) {s : α}
    (stops : stop = some s) : ∀ k ∈ ks, Descends parent k s ∧ k ≠ s := by
  induction ks generalizing place fuel with
  | nil => intro k member; exact absurd member (by simp)
  | cons first rest ih =>
    by_cases same : place = stop
    · rw [same,walkTo_self] at walked
      simp at walked
    · obtain ⟨k,_,_,rfl,went,cons⟩ := walkTo_step walked same
      obtain ⟨rfl,rfl⟩ := List.cons.inj cons
      have onwards := ih went
      intro l member
      rcases List.mem_cons.mp member with rfl | later
      · refine ⟨?_,fun equal => same (by rw [equal,stops])⟩
        by_cases last : parent l = stop
        · exact .single (last.trans stops)
        · obtain ⟨p,_,_,step,_,rfl⟩ := walkTo_step went last
          exact .head step (onwards p (List.mem_cons_self ..)).1
      · exact onwards l later

/-- With as much fuel as the height a walk up to the root gets there. -/
theorem walkTo_root {height : α → Nat} (falls : Falls parent height) {fuel : Nat} {t : α} (enough : height t < fuel) :
    ∃ ks, walkTo parent none fuel (some t) = some ks := by
  induction fuel generalizing t with
  | zero => omega
  | succ fuel ih =>
    have apart : some t ≠ none := by simp
    rw [walkTo,if_neg apart]
    cases step : parent t with
    | none => exact ⟨[t],by rw [walkTo_self]; rfl⟩
    | some p =>
      have lower := falls _ _ step
      obtain ⟨ks,went⟩ := @ih p (by omega)
      exact ⟨t :: ks,by rw [went]; rfl⟩

theorem unlink_apply (next : α → Option α) (ks : List α) (x : α) :
    assign parent (fun _ => none) next ks x = if ∃ k ∈ ks, parent k = some x then none else next x := by
  unfold assign
  induction ks generalizing next with
  | nil => simp
  | cons k rest ih =>
    rw [List.foldl_cons,ih]
    cases step : parent k with
    | none => simp [assignOne,step]
    | some p =>
      by_cases same : p = x
      · subst same
        simp [assignOne,step]
      · simp [assignOne,step,same,Function.update_of_ne (Ne.symm same)]

/-- Where the elements with one parent are all the same, the link leads there. -/
theorem link_apply (next : α → Option α) (ks : List α) (x : α) :
    (∃ k ∈ ks, parent k = some x ∧ assign parent some next ks x = some k) ∨
      (∀ k ∈ ks, parent k ≠ some x) ∧ assign parent some next ks x = next x := by
  unfold assign
  induction ks generalizing next with
  | nil => exact .inr ⟨by simp,rfl⟩
  | cons k rest ih =>
    rw [List.foldl_cons]
    rcases ih (assignOne parent next k (some k)) with ⟨l,member,here,last⟩ | ⟨elsewhere,last⟩
    · exact .inl ⟨l,List.mem_cons_of_mem _ member,here,last⟩
    · by_cases here : parent k = some x
      · exact .inl ⟨k,List.mem_cons_self ..,here,by rw [last,assignOne,here]; simp⟩
      · refine .inr ⟨by simpa [here] using elsewhere,last.trans ?_⟩
        rw [assignOne]
        cases step : parent k with
        | none => rfl
        | some p =>
          have apart : x ≠ p := fun same => here (by rw [step,same])
          exact Function.update_of_ne apart ..

/-- Taking away the links of one branch and setting those of another leads along the
    chain of the new tip. -/
theorem relink {height : α → Nat} (falls : Falls parent height) {next : α → Option α} {old new stop : Option α} {fuel fuel' : Nat}
    {gone come : List α} (linked : Linked parent next old) (down : walkTo parent stop fuel old = some gone)
    (up : walkTo parent stop fuel' new = some come) {come' : List α} (same : ∀ k, k ∈ come' ↔ k ∈ come) :
    Linked parent (assign parent some (assign parent (fun _ => none) next gone) come') new := by
  -- A child of the branch and a child above the stop have different parents.
  have apart : ∀ {ks : List α} {place : Option α} {fuel : Nat}, walkTo parent stop fuel place = some ks → ∀ k x, OnChain parent stop k →
      parent k = some x → ∀ l ∈ ks, parent l ≠ some x := by
    rintro ks place fuel walked k x ⟨s,stops,path⟩ parentK l member parentL
    obtain ⟨below,other⟩ := walkTo_below walked stops l member
    have lower : height k < height l := (Descends.height_le falls path).trans_lt (Descends.height_lt falls below other)
    have chain : Descends parent l k := below.trans path
    rcases Relation.ReflTransGen.cases_head chain with equal | ⟨p,step,rest⟩
    · exact absurd (congrArg height equal) (by omega)
    · obtain rfl : p = x := Option.some.inj (step.symm.trans parentL)
      have upper := falls _ _ parentK
      have under := Descends.height_le falls rest
      omega
  intro x k
  rcases @link_apply _ parent _ (assign parent (fun _ => none) next gone) come' x with ⟨c,member,here,set⟩ | ⟨elsewhere,kept⟩
  · have onNew : OnChain parent new c := (walkTo_onChain up c).mpr (.inl ((same c).mp member))
    rw [set,Option.some.injEq]
    constructor
    · rintro rfl
      exact ⟨onNew,here⟩
    · rintro ⟨chain,step⟩
      exact onChain_sibling falls onNew chain here step
  · rw [kept,unlink_apply]
    constructor
    · intro found
      split at found
      · contradiction
      next stays =>
        obtain ⟨chain,step⟩ := (linked x k).mp found
        rcases (walkTo_onChain down k).mp chain with away | above
        · exact absurd ⟨k,away,step⟩ stays
        · exact ⟨(walkTo_onChain up k).mpr (.inr above),step⟩
    · rintro ⟨chain,step⟩
      rcases (walkTo_onChain up k).mp chain with member | above
      · exact absurd step (elsewhere k ((same k).mpr member))
      · have stays : ¬ ∃ d ∈ gone, parent d = some x := by
          rintro ⟨d,member,parentD⟩
          exact apart down k x above step d member parentD
        rw [if_neg stays]
        exact (linked x k).mpr ⟨(walkTo_onChain down k).mpr (.inr above),step⟩

end

end Tetra.Ancestry
