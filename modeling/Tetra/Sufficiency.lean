import Mathlib
import Tetra.SendMany

/-!
When the calls for a payment let through only what the balance covers. The checks
compare with `>`, which is true only if every circuit of the amount is above the
balance, so an amount that is covered in one circuit passes whatever it asks for in
the others.
-/
namespace Tetra
open Std

/-- At most the balance in every circuit. -/
def Covered (asked : CashName → Int) (balance : Cash) : Prop := ∀ c, asked c ≤ (balance.amount c).toInt

namespace Cash

/-- A value as integers. -/
def exactly (x : Cash) (c : CashName) : Int := (x.amount c).toInt

end Cash

/-- What all payees of one call ask for together. -/
def askedFor (sendTo : List (Text × JsonAmount)) (c : CashName) : Int := (sendTo.map fun s => (Cash.ofJson s.2).exactly c).sum

/-- What all entries of an account ask for together. -/
def queuedFor (plist : ParamList) (account : Text) (c : CashName) : Int :=
  (plist.map fun p => if p.Account = account then Maps.total (fun x => Cash.exactly x c) p.Target else 0).sum

/-- No account has more in the queue than its balance. -/
def Backed (balance : Text → Cash) (plist : ParamList) : Prop :=
  ∀ account c, 0 ≤ queuedFor plist account c ∧ queuedFor plist account c ≤ (balance account).exactly c

structure SendManyCall where
  account : Text
  sendTo : List (Text × JsonAmount)

theorem CashFromValue_ok {value : JsonAmount} {nAmount : Cash} (ok : CashFromValue value = .ok nAmount) :
    nAmount = Cash.ofJson value ∧ ∀ (c : CashName) v, nAmount.locals[c]? = some v → 0 < v := by
  simp only [CashFromValue] at ok
  by_cases low : (Cash.ofJson value).leAmount 0 = true
  · simp [low] at ok
  · by_cases range : (!MoneyRange (Cash.ofJson value)) = true
    · simp [low,range] at ok
    · simp only [low,range] at ok
      obtain rfl : Cash.ofJson value = nAmount := by simpa using ok
      refine ⟨rfl,fun c v found => ?_⟩
      have above : 0 < (Cash.ofJson value).Min := by simpa [Cash.leAmount,Int64.not_le] using low
      rw [Int64.lt_iff_toInt_lt] at above ⊢
      have below := Int64.le_iff_toInt_le.mp (Cash.Min_le_of_lookup found)
      omega

section
variable {Address : Type} [DecidableEq Address] {addresses : Addresses Address}

/-- What `TotalAmountFromObject` has done when it returns. -/
structure Totalled (addresses : Addresses Address) (totals result : Totals Address) (sendTo : List (Text × JsonAmount)) : Prop where
  each : ∀ s ∈ sendTo, CashFromValue s.2 = .ok (Cash.ofJson s.2)
  amount : ∀ c, result.totalAmount.amount c = totals.totalAmount.amount c+(sendTo.map fun s => (Cash.ofJson s.2).amount c).sum
  lists : ∀ c : CashName, totals.totalAmount.locals[c]? ≠ none ∨ (∃ s ∈ sendTo, (Cash.ofJson s.2).locals[c]? ≠ none) →
    result.totalAmount.locals[c]? ≠ none
  distinct : (sendTo.map fun s => addresses.decode s.1).Nodup
  fresh : ∀ s ∈ sendTo, ∀ address ∈ totals.setAddress, addresses.decode s.1 ≠ some address
  vecSend : ∃ destinations : List Address, sendTo.map (fun s => addresses.decode s.1) = destinations.map some ∧
    result.vecSend = totals.vecSend ++ (destinations.map addresses.SetDestination).zip (sendTo.map fun s => Cash.ofJson s.2)

theorem TotalAmountFromObject_ok {totals result : Totals Address} {sendTo : List (Text × JsonAmount)}
    (ok : TotalAmountFromObject addresses totals sendTo = .ok result) : Totalled addresses totals result sendTo := by
  induction sendTo generalizing totals with
  | nil =>
    obtain rfl : totals = result := by simpa [TotalAmountFromObject] using ok
    exact ⟨by simp,by simp,by simp,by simp,by simp,[],rfl,by simp⟩
  | cons s rest ih =>
    obtain ⟨name,value⟩ := s
    rw [TotalAmountFromObject] at ok
    cases decoded : addresses.decode name with
    | none => simp [decoded] at ok
    | some address =>
      by_cases known : address ∈ totals.setAddress
      · simp [decoded,known] at ok
      · cases read : CashFromValue value with
        | error error => simp [decoded,known,read] at ok
        | ok nAmount =>
          obtain ⟨rfl,_⟩ := CashFromValue_ok read
          simp only [decoded,known,read] at ok
          obtain ⟨each,amount,lists,distinct,fresh,destinations,names,sends⟩ := ih ok
          refine ⟨?_,fun c => ?_,fun c listed => lists c ?_,?_,?_,address :: destinations,?_,?_⟩
          · intro s member
            rcases List.mem_cons.mp member with rfl | later
            · exact read
            · exact each s later
          · rw [amount c,Cash.addAssign_amount,List.map_cons,List.sum_cons,add_assoc]
          · have keeps : totals.totalAmount.locals[c]? ≠ none ∨ (Cash.ofJson value).locals[c]? ≠ none →
                (totals.totalAmount.addAssign (Cash.ofJson value)).locals[c]? ≠ none := by
              simp only [Cash.addAssign,Maps.getElem?_mergeInto]
              cases (Cash.ofJson value).locals[c]? <;> simp
            rcases listed with before | ⟨s,member,here⟩
            · exact Or.inl (keeps (Or.inl before))
            · rcases List.mem_cons.mp member with rfl | later
              · exact Or.inl (keeps (Or.inr here))
              · exact Or.inr ⟨s,later,here⟩
          · rw [List.map_cons,List.nodup_cons]
            refine ⟨fun member => ?_,distinct⟩
            obtain ⟨s,later,same⟩ := List.mem_map.mp member
            exact fresh s later address (List.mem_cons_self ..) (same.trans decoded)
          · intro s member address' old
            rcases List.mem_cons.mp member with rfl | later
            · rintro same
              rw [decoded,Option.some.injEq] at same
              exact known (same ▸ old)
            · exact fresh s later address' (List.mem_cons_of_mem _ old)
          · simp [decoded,names]
          · simp [sends]

end

section
variable {Address : Type} [DecidableEq Address]

/-- If what the account has left covers the call in a circuit, it covers it in all of them. -/
def AllOrNothing (addresses : Addresses Address) (GetAccountBalance : Text → Int → Cash) (plist : ParamList) (call : SendManyCall) : Prop :=
  ∀ total, sendmanyTotal addresses call.account call.sendTo = .ok total →
    total.SomeAtMost (unallocated (GetAccountBalance call.account 1) plist call.account) →
      Covered (askedFor call.sendTo) (unallocated (GetAccountBalance call.account 1) plist call.account)

variable {addresses : Addresses Address} {GetAccountBalance : Text → Int → Cash}

omit [DecidableEq Address] in
theorem Totalled.names {totals result : Totals Address} {sendTo : List (Text × JsonAmount)}
    (totalled : Totalled addresses totals result sendTo) : (sendTo.map Prod.fst).Nodup := by
  have decoded : sendTo.map (fun s => addresses.decode s.1) = (sendTo.map Prod.fst).map addresses.decode := by simp
  exact List.Nodup.of_map _ (decoded ▸ totalled.distinct)

end

end Tetra
