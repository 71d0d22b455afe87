import Tetra.Neighbours
import Tetra.Pool

/-!
How far `MergeSendMany` gets. The loop goes on to the next entry after it has merged two,
so of a run of entries of one account only pairs are merged.
-/
namespace Tetra.CTxWPool
open Neighbours

/-- `plist[w].Merge(plist[w+1])` -/
def taken (p x : DummyParams) : DummyParams := (p.Merge x).2

theorem taken_Account (p x : DummyParams) : (taken p x).Account = p.Account := DummyParams.Merge_Account p x

theorem intSize_eq {plist : ParamList} (short : plist.length < 2^31) : intSize plist = plist.length := by
  unfold intSize
  exact Int.bmod_eq_of_le (by omega) (by omega)

/-- The queue after the entries at `w` and behind it have become one. -/
theorem set_eraseIdx {plist : ParamList} {w : Nat} (inside : w+1 < plist.length) (merged : DummyParams) :
    (plist.set w merged).eraseIdx (w+1) = plist.take w ++ [merged] ++ plist.drop (w+2) := by
  have before : w < plist.length := by omega
  have place : (plist.take w).length = w := List.length_take_of_le (by omega)
  rw [List.set_eq_take_append_cons_drop,if_pos before,List.eraseIdx_append_of_length_le (by omega),place,Nat.add_sub_cancel_left]
  rw [List.eraseIdx_cons_succ,List.eraseIdx_zero,List.tail_drop,List.append_assoc,List.singleton_append]

theorem take_drop_merged {plist : ParamList} {w : Nat} (inside : w+1 < plist.length) (merged : DummyParams) :
    ((plist.set w merged).eraseIdx (w+1)).take (w+1) = plist.take w ++ [merged] ∧
      ((plist.set w merged).eraseIdx (w+1)).drop (w+1) = plist.drop (w+2) := by
  have place : (plist.take w ++ [merged]).length = w+1 := by
    rw [List.length_append,List.length_take_of_le (by omega),List.length_singleton]
  rw [set_eraseIdx inside]
  exact ⟨List.take_left' place,List.drop_left' place⟩

theorem drop_two {plist : ParamList} {w : Nat} (first : w < plist.length) (inside : w+1 < plist.length) :
    plist.drop w = plist[w] :: plist[w+1] :: plist.drop (w+2) := by
  rw [List.drop_eq_getElem_cons first,List.drop_eq_getElem_cons inside]

/-- The loop pairs up what it has before it. -/
theorem mergeFrom_eq {plist : ParamList} (w : Nat) (short : plist.length < 2^31) :
    mergeFrom plist w = plist.take w ++ pairUp DummyParams.Account taken (plist.drop w) := by
  induction plist, w using mergeFrom.induct with
  | case1 plist w below inside same ih =>
    obtain ⟨before,after⟩ := take_drop_merged inside (plist[w].Merge plist[w+1]).2
    have shorter : ((plist.set w (plist[w].Merge plist[w+1]).2).eraseIdx (w+1)).length < 2^31 := by
      rw [List.length_eraseIdx,List.length_set,if_pos inside]
      omega
    rw [mergeFrom,dif_pos below,if_pos same,ih shorter,before,after,drop_two (by omega) inside,pairUp,if_pos same,List.append_assoc]
    rfl
  | case2 plist w below inside different ih =>
    rw [mergeFrom,dif_pos below,if_neg different,ih short,drop_two (by omega) inside,pairUp,if_neg different,
      List.take_succ_eq_append_getElem (by omega : w < plist.length),List.append_assoc,List.drop_eq_getElem_cons inside]
    rfl
  | case3 plist w done =>
    rw [intSize_eq short] at done
    rw [mergeFrom,dif_neg (by rw [intSize_eq short]; exact done)]
    have last : (plist.drop w).length ≤ 1 := by
      rw [List.length_drop]
      omega
    have alone : pairUp DummyParams.Account taken (plist.drop w) = plist.drop w := pairUp_of_length last
    rw [alone,List.take_append_drop]

theorem drop_of_take {r before : ParamList} {p : DummyParams} {w : Nat} (place : before.length = w) (first : r.take (w+1) = before ++ [p]) :
    r.take w = before ∧ r.drop w = p :: r.drop (w+1) := by
  have whole : r = before ++ p :: r.drop (w+1) := by
    conv_lhs => rw [← List.take_append_drop (w+1) r,first,List.append_assoc,List.singleton_append]
  refine ⟨?_,?_⟩
  · conv_lhs => rw [whole,List.take_left' place]
  · conv_lhs => rw [whole,List.drop_left' place]

/-- However long the queue is: what stands before the index stays, and of the rest each entry
    takes in at most one other. -/
theorem mergeFrom_halves (plist : ParamList) (w : Nat) (account : Text) :
    (mergeFrom plist w).take w = plist.take w ∧
      ((plist.drop w).map DummyParams.Account).count account ≤ 2*(((mergeFrom plist w).drop w).map DummyParams.Account).count account := by
  induction plist, w using mergeFrom.induct with
  | case1 plist w below inside same ih =>
    obtain ⟨before,after⟩ := take_drop_merged inside (plist[w].Merge plist[w+1]).2
    rw [before,after] at ih
    obtain ⟨kept,counted⟩ := ih
    rw [mergeFrom,dif_pos below,if_pos same]
    obtain ⟨first,rest⟩ := drop_of_take (List.length_take_of_le (by omega)) kept
    refine ⟨first,?_⟩
    rw [rest,drop_two (by omega) inside]
    simp only [List.map_cons,List.count_cons,DummyParams.Merge_Account,same]
    omega
  | case2 plist w below inside different ih =>
    obtain ⟨kept,counted⟩ := ih
    rw [mergeFrom,dif_pos below,if_neg different]
    rw [List.take_succ_eq_append_getElem (by omega : w < plist.length)] at kept
    obtain ⟨first,rest⟩ := drop_of_take (List.length_take_of_le (by omega)) kept
    refine ⟨first,?_⟩
    rw [rest,List.drop_eq_getElem_cons (by omega : w < plist.length)]
    simp only [List.map_cons,List.count_cons]
    omega
  | case3 plist w done =>
    rw [mergeFrom,dif_neg done]
    exact ⟨rfl,by omega⟩

/-! ### The normal form -/

/-- No account has two entries, and merging again changes nothing. -/
structure Merged (sort : ParamList → ParamList) (plist : ParamList) : Prop where
  once : ((MergeSendMany sort plist).map DummyParams.Account).Nodup
  stable : MergeSendMany sort (MergeSendMany sort plist) = MergeSendMany sort plist

theorem length_sorted {sort : ParamList → ParamList} (sorting : Sorting sort) (plist : ParamList) : (sort plist).length = plist.length :=
  (sorting.permutes plist).length_eq

theorem count_sorted {sort : ParamList → ParamList} (sorting : Sorting sort) (plist : ParamList) (account : Text) :
    ((sort plist).map DummyParams.Account).count account = (plist.map DummyParams.Account).count account :=
  ((sorting.permutes plist).map DummyParams.Account).count_eq account

theorem Merged.atMostTwo {sort : ParamList → ParamList} (sorting : Sorting sort) {plist : ParamList} (merged : Merged sort plist) (account : Text) :
    (plist.map DummyParams.Account).count account ≤ 2 := by
  obtain ⟨_,counted⟩ := mergeFrom_halves (sort plist) 0 account
  rw [List.drop_zero,List.drop_zero,count_sorted sorting] at counted
  have once := List.nodup_iff_count_le_one.mp merged.once account
  rw [MergeSendMany] at once
  omega

/-- `a` does not come after `b`. -/
def notAfter (a b : Text) : Prop := ¬compare b a = .lt

theorem notAfter_antisymm (a b : Text) (first : notAfter a b) (second : notAfter b a) : a = b := by
  have swapped : compare b a = (compare a b).swap := Std.OrientedCmp.eq_swap
  rw [notAfter,swapped] at first
  rw [notAfter] at second
  cases order : compare a b with
  | lt => exact absurd order second
  | eq => exact Std.LawfulEqCmp.eq_of_compare order
  | gt => exact absurd (by rw [order]; rfl) first

theorem MergeSendMany_eq (sort : ParamList → ParamList) {plist : ParamList} (short : (sort plist).length < 2^31) :
    MergeSendMany sort plist = pairUp DummyParams.Account taken (sort plist) := by
  rw [MergeSendMany,mergeFrom_eq 0 short]
  rfl

/-- The queue comes to its normal form exactly where no account has more than two entries. -/
theorem merged_iff {sort : ParamList → ParamList} (sorting : Sorting sort) (plist : ParamList) :
    (plist.length < 2^31 → (Merged sort plist ↔ ∀ account, (plist.map DummyParams.Account).count account ≤ 2)) ∧
      (Merged sort plist → ∀ account, (plist.map DummyParams.Account).count account ≤ 2) := by
  refine ⟨fun short => ⟨fun merged => merged.atMostTwo sorting,fun atMostTwo => ?_⟩,fun merged => merged.atMostTwo sorting⟩
  have sortedShort : (sort plist).length < 2^31 := by
    rw [length_sorted sorting]
    exact short
  have ordered : Ordered DummyParams.Account notAfter (sort plist) := sorting.ordered plist
  have result := MergeSendMany_eq sort sortedShort
  have once : ((MergeSendMany sort plist).map DummyParams.Account).Nodup := by
    refine List.nodup_iff_count_le_one.mpr fun account => ?_
    have few := atMostTwo account
    rw [result,count_pairUp taken_Account notAfter_antisymm ordered,count_sorted sorting]
    omega
  have still : sort (MergeSendMany sort plist) = MergeSendMany sort plist := by
    have orderedResult : Ordered DummyParams.Account notAfter (MergeSendMany sort plist) := by
      rw [result]
      exact ordered.pairUp taken_Account
    refine (sorting.permutes _).eq_of_pairwise (fun p x inside member first second => ?_) (sorting.ordered _) orderedResult
    have account := notAfter_antisymm p.Account x.Account first second
    exact List.inj_on_of_nodup_map once ((sorting.permutes _).mem_iff.mp inside) member account
  refine ⟨once,?_⟩
  have shortResult : (sort (MergeSendMany sort plist)).length < 2^31 := by
    have keys := (keys_pairUp taken_Account (sort plist)).length_le
    rw [still,result]
    rw [List.length_map,List.length_map] at keys
    omega
  rw [MergeSendMany_eq sort shortResult,still,pairUp_of_nodup once]

private def entryOf (Account : Text) : DummyParams := {Account}

theorem merged_two : Merged stableSort [entryOf [97],entryOf [97]] :=
  ((merged_iff sorting_stableSort _).1 (by decide)).mpr fun _ => List.count_le_length

/-- Three entries of one account leave two of it. -/
theorem three_stay_two :
    (MergeSendMany stableSort [entryOf [97],entryOf [97],entryOf [97]]).map DummyParams.Account = [[97],[97]] ∧
      ¬Merged stableSort [entryOf [97],entryOf [97],entryOf [97]] := by
  have sorted : stableSort [entryOf [97],entryOf [97],entryOf [97]] = [entryOf [97],entryOf [97],entryOf [97]] :=
    List.perm_replicate.mp (sorting_stableSort.permutes (List.replicate 3 (entryOf [97])))
  have left : (MergeSendMany stableSort [entryOf [97],entryOf [97],entryOf [97]]).map DummyParams.Account = [[97],[97]] := by
    rw [MergeSendMany_eq stableSort (by rw [sorted]; decide),sorted]
    rfl
  refine ⟨left,fun merged => ?_⟩
  have once := merged.once
  rw [left] at once
  exact absurd once (by decide)

end Tetra.CTxWPool
