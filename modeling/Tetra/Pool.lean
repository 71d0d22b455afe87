import Mathlib
import Tetra.Cash
import Tetra.Wrap

/-!
The queue of payments that wait to be sent: entries of one account with the amounts
asked for at each address. Merging sorts the queue by account and folds neighbours
of one account into each other, which changes no pending amount.
-/
namespace Tetra
open Std

/-- `std::string` -/
abbrev Text := List UInt8
abbrev Destination := ExtTreeMap Text Cash

structure DummyParams where
  Account : Text := []
  Target : Destination := ∅

abbrev ParamList := List DummyParams

namespace DummyParams

/-- `Merge`: false and unchanged for another account. -/
def Merge (p x : DummyParams) : Bool × DummyParams :=
  if p.Account ≠ x.Account then (false,p)
  else (true,{p with Target := Maps.mergeInto Cash.addAssign id p.Target x.Target})

end DummyParams

/-- `(int) plist.size()` -/
@[irreducible] def intSize (plist : ParamList) : Int := Int.bmod plist.length (2^32)

theorem intSize_le (plist : ParamList) : intSize plist ≤ plist.length := by
  unfold intSize
  exact Wrap.bmod_le_self ..

/-- `SortStrategy` is a strict weak order, so any ordering of the entries by account,
    those of one account in any order, may be what `std::sort` leaves. -/
structure Sorting (sort : ParamList → ParamList) : Prop where
  permutes : ∀ plist, (sort plist).Perm plist
  ordered : ∀ plist, (sort plist).Pairwise fun x y => ¬ compare y.Account x.Account = .lt

private def accountLE (x y : DummyParams) : Bool := (compare x.Account y.Account).isLE

/-- The stable way to sort. -/
def stableSort (plist : ParamList) : ParamList := plist.mergeSort accountLE

theorem sorting_stableSort : Sorting stableSort where
  permutes := fun plist => List.mergeSort_perm plist _
  ordered := by
    intro plist
    have total : ∀ x y : DummyParams, accountLE x y || accountLE y x := by
      intro x y
      have swapped : compare y.Account x.Account = (compare x.Account y.Account).swap := OrientedCmp.eq_swap
      simp only [accountLE,swapped]
      cases compare x.Account y.Account <;> rfl
    have chains : ∀ x y z : DummyParams, accountLE x y → accountLE y z → accountLE x z := by
      intro x y z
      exact TransCmp.isLE_trans
    refine (List.pairwise_mergeSort chains total plist).imp fun {x y} le less => ?_
    have swapped : compare x.Account y.Account = (compare y.Account x.Account).swap := OrientedCmp.eq_swap
    simp [accountLE,swapped,less] at le

namespace CTxWPool

/-- The loop of `MergeSendMany` from the index `w` on. -/
def mergeFrom (plist : ParamList) (w : Nat) : ParamList :=
  if below : (w : Int) < intSize plist-1 then
    have inside : w+1 < plist.length := by have := intSize_le plist; omega
    if plist[w].Account = plist[w+1].Account then
      mergeFrom ((plist.set w (plist[w].Merge plist[w+1]).2).eraseIdx (w+1)) (w+1)
    else mergeFrom plist (w+1)
  else plist
termination_by plist.length-w
decreasing_by
  · simp only [List.length_eraseIdx,List.length_set,if_pos inside]; omega
  · omega

def MergeSendMany (sort : ParamList → ParamList) (plist : ParamList) : ParamList := mergeFrom (sort plist) 0

/-- What one entry of `Account` adds to `Balance`. -/
def addTargets (Account : Text) (Balance : Cash) (p : DummyParams) : Cash :=
  if p.Account = Account then p.Target.foldl (fun Balance _ amount => Balance.addAssign amount) Balance else Balance

def AllocatedBalance (plist : ParamList) (Account : Text) (Balance : Cash) : Cash := plist.foldl (addTargets Account) Balance

/-- What the entries of `account` ask for at `address` in the circuit `c`, all together. -/
def pending (plist : ParamList) (account address : Text) (c : CashName) : Amount :=
  (plist.map fun p => if p.Account = account then Maps.part (Cash.amount · c) p.Target address else 0).sum

end CTxWPool

namespace DummyParams

/-- Entries of one account hold together what they held apart. -/
theorem Merge_part {p x : DummyParams} (same : p.Account = x.Account) (address : Text) (c : CashName) :
    Maps.part (Cash.amount · c) (p.Merge x).2.Target address =
      Maps.part (Cash.amount · c) p.Target address+Maps.part (Cash.amount · c) x.Target address := by
  simp only [Merge,same,ne_eq,not_true_eq_false,if_false,Maps.part,Maps.getElem?_mergeInto]
  cases x.Target[address]? <;> cases p.Target[address]? <;> simp

theorem Merge_total {p x : DummyParams} (same : p.Account = x.Account) (c : CashName) :
    Maps.total (Cash.amount · c) (p.Merge x).2.Target =
      Maps.total (Cash.amount · c) p.Target+Maps.total (Cash.amount · c) x.Target := by
  simp only [Merge,same,ne_eq,not_true_eq_false,if_false]
  exact Maps.total_mergeInto (by simp) (by simp) p.Target x.Target

@[simp] theorem Merge_Account (p x : DummyParams) : (p.Merge x).2.Account = p.Account := by
  unfold Merge
  split <;> rfl

end DummyParams

namespace CTxWPool

/-- An entry and its successor count as the merged entry at the first one's place. -/
theorem sum_set_eraseIdx {M : Type*} [AddCommMonoid M] (value : DummyParams → M) (plist : ParamList) (w : Nat)
    (inside : w+1 < plist.length) (merged : DummyParams) (adds : value merged = value plist[w]+value plist[w+1]) :
    (((plist.set w merged).eraseIdx (w+1)).map value).sum = (plist.map value).sum := by
  induction plist generalizing w with
  | nil => simp at inside
  | cons p rest ih =>
    cases w with
    | zero =>
      cases rest with
      | nil => simp at inside
      | cons q rest =>
        simp only [List.getElem_cons_zero,List.getElem_cons_succ] at adds
        simp [adds,add_assoc]
    | succ w =>
      simp only [List.getElem_cons_succ] at adds
      have later := ih w (by simpa using inside) adds
      simp only [List.set_cons_succ,List.eraseIdx_cons_succ,List.map_cons,List.sum_cons,later]

/-- Whatever adds up when two entries of one account are merged keeps its sum. -/
theorem mergeFrom_sum {M : Type*} [AddCommMonoid M] (value : DummyParams → M)
    (adds : ∀ p x : DummyParams, p.Account = x.Account → value (p.Merge x).2 = value p+value x) (plist : ParamList) (w : Nat) :
    ((mergeFrom plist w).map value).sum = (plist.map value).sum := by
  induction plist, w using mergeFrom.induct with
  | case1 plist w below inside same ih =>
    rw [mergeFrom,dif_pos below,if_pos same,ih]
    exact sum_set_eraseIdx value plist w inside _ (adds _ _ same)
  | case2 plist w below inside different ih => rw [mergeFrom,dif_pos below,if_neg different,ih]
  | case3 plist w done => rw [mergeFrom,dif_neg done]

theorem MergeSendMany_sum {M : Type*} [AddCommMonoid M] (value : DummyParams → M)
    (adds : ∀ p x : DummyParams, p.Account = x.Account → value (p.Merge x).2 = value p+value x)
    {sort : ParamList → ParamList} (sorting : Sorting sort) (plist : ParamList) :
    ((MergeSendMany sort plist).map value).sum = (plist.map value).sum := by
  rw [MergeSendMany,mergeFrom_sum value adds]
  exact ((sorting.permutes plist).map value).sum_eq

/-- What an account has in the queue is the sum over its entries and their addresses. -/
theorem AllocatedBalance_amount (plist : ParamList) (Account : Text) (Balance : Cash) (c : CashName) :
    (AllocatedBalance plist Account Balance).amount c = Balance.amount c+
      (plist.map fun p => if p.Account = Account then Maps.total (Cash.amount · c) p.Target else 0).sum := by
  have entries : ∀ (targets : List (Text × Cash)) (Balance : Cash),
      (targets.foldl (fun Balance e => Balance.addAssign e.2) Balance).amount c =
        Balance.amount c+(targets.map fun e => e.2.amount c).sum := by
    intro targets
    induction targets with
    | nil => simp
    | cons e rest ih =>
      intro Balance
      rw [List.foldl_cons,ih,Cash.addAssign_amount,List.map_cons,List.sum_cons,add_assoc]
  induction plist generalizing Balance with
  | nil => simp [AllocatedBalance]
  | cons p rest ih =>
    have step := ih (addTargets Account Balance p)
    simp only [AllocatedBalance] at step ⊢
    rw [List.foldl_cons,step,List.map_cons,List.sum_cons,← add_assoc]
    congr 1
    by_cases mine : p.Account = Account
    · simp only [addTargets,mine,if_true,ExtTreeMap.foldl_eq_foldl_toList]
      exact entries _ _
    · simp [addTargets,mine]

/-- `MergeSendMany` leaves every pending amount and every allocated balance as it was. -/
theorem MergeSendMany_conserves (sort : ParamList → ParamList) (sorting : Sorting sort) (plist : ParamList) (c : CashName) :
    (∀ account address, pending (MergeSendMany sort plist) account address c = pending plist account address c) ∧
      ∀ Account Balance, (AllocatedBalance (MergeSendMany sort plist) Account Balance).amount c =
        (AllocatedBalance plist Account Balance).amount c := by
  refine ⟨fun account address => ?_,fun Account Balance => ?_⟩
  · refine MergeSendMany_sum _ (fun p x same => ?_) sorting plist
    by_cases mine : x.Account = account
    · simp [same,mine,DummyParams.Merge_part same]
    · simp [same,mine]
  · rw [AllocatedBalance_amount,AllocatedBalance_amount]
    congr 1
    refine MergeSendMany_sum _ (fun p x same => ?_) sorting plist
    by_cases mine : x.Account = Account
    · simp [same,mine,DummyParams.Merge_total same]
    · simp [same,mine]

private def sampleQueue : ParamList :=
  [⟨[97],(∅ : Destination).insert [1] (Cash.ofMoney ([65],3))⟩,⟨[98],(∅ : Destination).insert [1] (Cash.ofMoney ([65],1))⟩,
    ⟨[97],(∅ : Destination).insert [1] (Cash.ofMoney ([66],4))⟩]

theorem MergeSendMany_conserves_sample :
    pending (MergeSendMany stableSort sampleQueue) [97] [1] [65] = 3 ∧
      (AllocatedBalance (MergeSendMany stableSort sampleQueue) [97] {}).amount [65] = 3 := by
  obtain ⟨keeps,allocates⟩ := MergeSendMany_conserves stableSort sorting_stableSort sampleQueue [65]
  rw [keeps,allocates]
  decide +kernel

end CTxWPool
end Tetra
