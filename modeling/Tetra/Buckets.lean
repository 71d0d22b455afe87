import Mathlib

/-!
Things in buckets: sets that may share a thing, with the number of those that hold it, and
lists that are pooled.
-/
namespace Tetra.Buckets

variable {α β : Type*} [Fintype β]

section
variable [DecidableEq α]

/-- How many of the sets hold a thing. -/
def holders (sets : β → Finset α) (a : α) : Nat := (Finset.univ.filter fun b => a ∈ sets b).card

variable {sets : β → Finset α} {a : α} {b : β}

theorem holders_pos_iff : 0 < holders sets a ↔ ∃ b, a ∈ sets b := by
  rw [holders,Finset.card_pos]
  constructor
  · rintro ⟨b,member⟩
    exact ⟨b,(Finset.mem_filter.mp member).2⟩
  · rintro ⟨b,inside⟩
    exact ⟨b,Finset.mem_filter.mpr ⟨Finset.mem_univ b,inside⟩⟩

theorem holders_eraseAll (a c : α) : holders (fun b => (sets b).erase a) c = if c = a then 0 else holders sets c := by
  rw [holders,holders]
  by_cases same : c = a
  · rw [if_pos same,Finset.card_eq_zero,Finset.filter_eq_empty_iff]
    intro b _
    simp [same]
  · rw [if_neg same]
    congr 1
    ext b
    simp [same]

theorem holders_eq_countP {n : Nat} (sets : Fin n → Finset α) (a : α) : holders sets a = (List.finRange n).countP fun b => a ∈ sets b := by
  rw [holders,Finset.card_def,Finset.filter_val,← Multiset.countP_eq_card_filter,← Multiset.coe_countP]
  rfl

/-- The sets are written out one after another. -/
theorem holders_eq_count {n : Nat} (sets : Fin n → Finset α) {lists : Fin n → List α} (once : ∀ b, (lists b).Nodup)
    (same : ∀ b a, a ∈ lists b ↔ a ∈ sets b) (a : α) : ((List.finRange n).flatMap lists).count a = holders sets a := by
  rw [holders_eq_countP]
  induction List.finRange n with
  | nil => rfl
  | cons b rest ih =>
    rw [List.flatMap_cons,List.count_append,ih,List.countP_cons,(once b).count,Nat.add_comm]
    simp only [same b a,decide_eq_true_eq]

/-- Fewer hold a thing if none that does in one family does not in the other, and one does
    in the other only. -/
theorem holders_lt {others : β → Finset α} (less : ∀ b, sets b ⊆ others b) (out : a ∉ sets b) (inside : a ∈ others b) :
    holders sets a < holders others a := by
  refine Finset.card_lt_card (Finset.ssubset_iff_of_subset ?_ |>.mpr ⟨b,?_,?_⟩)
  · intro c member
    exact Finset.mem_filter.mpr ⟨Finset.mem_univ c,less c (Finset.mem_filter.mp member).2⟩
  · exact Finset.mem_filter.mpr ⟨Finset.mem_univ b,inside⟩
  · exact fun member => out (Finset.mem_filter.mp member).2

/-- Other names for the things, of which no other one gets this one's. -/
theorem holders_image {γ : Type*} [DecidableEq γ] {name : α → γ} (alone : ∀ b, ∀ c ∈ sets b, name c = name a → c = a) :
    holders (fun b => (sets b).image name) (name a) = holders sets a := by
  rw [holders,holders]
  congr 1
  ext b
  rw [Finset.mem_filter,Finset.mem_filter,Finset.mem_image]
  refine and_congr_right fun _ => ⟨?_,fun inside => ⟨a,inside,rfl⟩⟩
  rintro ⟨c,member,same⟩
  rwa [← alone b c member same]

variable [DecidableEq β]

theorem holders_insert (new : a ∉ sets b) (c : α) :
    holders (Function.update sets b (insert a (sets b))) c = holders sets c+if c = a then 1 else 0 := by
  rw [holders,holders]
  by_cases same : c = a
  · subst same
    have more : (Finset.univ.filter fun d => c ∈ Function.update sets b (insert c (sets b)) d) =
        insert b (Finset.univ.filter fun d => c ∈ sets d) := by
      ext d
      by_cases here : d = b
      · subst here
        simp
      · simp [here]
    rw [more,Finset.card_insert_of_notMem (by simpa using new),if_pos rfl]
  · rw [if_neg same,Nat.add_zero]
    congr 1
    ext d
    by_cases here : d = b
    · subst here
      simp [same]
    · simp [here]

theorem holders_erase (old : a ∈ sets b) (c : α) :
    holders (Function.update sets b ((sets b).erase a)) c+(if c = a then 1 else 0) = holders sets c := by
  have back := @holders_insert α β _ _ (Function.update sets b ((sets b).erase a)) a b _ (by simp) c
  rw [Function.update_self,Finset.insert_erase old,Function.update_idem,Function.update_eq_self] at back
  exact back.symm

end

section

/-- What is in the lists, all together. -/
def pooled (lists : β → List α) : Multiset α := ∑ b, (lists b : Multiset α)

variable {lists : β → List α} {a : α} {b : β}

theorem pooled_nil : pooled (fun _ : β => ([] : List α)) = 0 := Finset.sum_eq_zero fun _ _ => rfl

theorem pooled_eq_flatMap {n : Nat} (lists : Fin n → List α) : pooled lists = ((List.finRange n).flatMap lists : Multiset α) := by
  rw [pooled,Fin.sum_univ_def]
  induction List.finRange n with
  | nil => rfl
  | cons b rest ih => rw [List.map_cons,List.sum_cons,ih,List.flatMap_cons,Multiset.coe_add]

theorem mem_pooled : a ∈ pooled lists ↔ ∃ b, a ∈ lists b := by
  rw [pooled,Multiset.mem_sum]
  simp

/-- Each list holds the things of another under other names, in any order. -/
theorem pooled_map {γ : Type*} {name : α → γ} {named : β → List γ} (same : ∀ b, (named b).Perm ((lists b).map name)) :
    pooled named = (pooled lists).map name := by
  rw [pooled,pooled,← Multiset.coe_mapAddMonoidHom,map_sum]
  refine Finset.sum_congr rfl fun b _ => ?_
  rw [Multiset.coe_mapAddMonoidHom,Multiset.map_coe]
  exact Multiset.coe_eq_coe.mpr (same b)

theorem pooled_update [DecidableEq β] (list : List α) :
    pooled (Function.update lists b list)+(lists b : Multiset α) = pooled lists+(list : Multiset α) := by
  have others : ∑ d ∈ Finset.univ.erase b, (Function.update lists b list d : Multiset α) = ∑ d ∈ Finset.univ.erase b, (lists d : Multiset α) := by
    refine Finset.sum_congr rfl fun d member => ?_
    rw [Function.update_of_ne (Finset.ne_of_mem_erase member)]
  rw [pooled,pooled,← Finset.add_sum_erase _ _ (Finset.mem_univ b),← Finset.add_sum_erase _ (fun d => (lists d : Multiset α)) (Finset.mem_univ b),
    others,Function.update_self]
  abel

/-- One thing takes the place of another. -/
theorem pooled_set [DecidableEq β] {i : Nat} (here : (lists b)[i]? = some a) (c : α) :
    a ::ₘ pooled (Function.update lists b ((lists b).set i c)) = c ::ₘ pooled lists := by
  obtain ⟨low,rfl⟩ := List.getElem?_eq_some_iff.mp here
  have parts : lists b = (lists b).take i ++ (lists b)[i] :: (lists b).drop (i+1) := by
    rw [List.getElem_cons_drop,List.take_append_drop]
  have put : (lists b).set i c = (lists b).take i ++ c :: (lists b).drop (i+1) := by rw [List.set_eq_take_append_cons_drop,if_pos low]
  have trade : (lists b)[i] ::ₘ ((lists b).set i c : Multiset α) = c ::ₘ (lists b : Multiset α) := by
    rw [put,Multiset.cons_coe,Multiset.cons_coe,Multiset.coe_eq_coe]
    refine (List.perm_middle.cons _).trans ?_
    refine (List.Perm.swap ..).trans (List.Perm.cons c ?_)
    exact (List.perm_middle.symm).trans (List.Perm.of_eq parts.symm)
  have sum := @pooled_update α β _ lists b _ ((lists b).set i c)
  have both := congrArg ((lists b)[i] ::ₘ ·) sum
  rw [← Multiset.cons_add,← Multiset.add_cons,trade,Multiset.add_cons,← Multiset.cons_add] at both
  exact add_right_cancel both

end

attribute [irreducible] holders pooled

end Tetra.Buckets
