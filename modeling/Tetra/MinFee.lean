import Tetra.MoneyRange
import Tetra.ChangeBalance

/-!
What `GetMinFee` asks as a block fills up. The price is raised towards the limit, and at the
limit an amount is returned as a value that drops it.
-/
namespace Tetra.CTransaction
open Std GetMinFee_mode Cash

section
variable (rules : PoolRules) (tx : CTransaction) (fAllowFree : Bool) (mode : GetMinFee_mode)

/-- `nBaseFee` -/
def baseFee : Cash := if mode = GMF_RELAY then rules.nMinRelayTxFee else rules.nMinTxFee

/-- The transaction belongs to the free area of a block. -/
def AllowedFree : Prop := fAllowFree = true ∧ tx.GetSerializeSize < (if mode = GMF_SEND then 5000 else DEFAULT_BLOCK_PRIORITY_SIZE-1000)

instance allowedFreeDecidable : Decidable (AllowedFree tx fAllowFree mode) := inferInstanceAs (Decidable (_ ∧ _))

def dustOutputs : Nat := tx.vout.countP fun txout => txout.nValue.ltAmount DUST_SOFT_LIMIT

/-- `nMinFee` before the price is raised. -/
def unraisedFee : Cash :=
  tx.vout.foldl (fun nMinFee txout => if txout.nValue.ltAmount DUST_SOFT_LIMIT then nMinFee.addAssign (baseFee rules mode) else nMinFee)
    (if AllowedFree tx fAllowFree mode then assignAmount 0 else (baseFee rules mode).mulAmount (Int64.ofNat (1+tx.GetSerializeSize/1000)))

/-- What `MoneyRange` makes of a fee. -/
def ranged (nMinFee : Cash) : Cash := if MoneyRange nMinFee then nMinFee else assignAmount MAX_MONEY

/-- How much the price is raised. -/
def raise (nNewBlockSize : Nat) : Amount := Int64.ofNat (MAX_BLOCK_SIZE_GEN/(MAX_BLOCK_SIZE_GEN-nNewBlockSize))

theorem GetMinFee_eq (nBlockSize : Nat) : tx.GetMinFee rules nBlockSize fAllowFree mode =
    let nNewBlockSize := (nBlockSize+tx.GetSerializeSize)%2^32
    if nBlockSize ≠ 1 ∧ nNewBlockSize ≥ MAX_BLOCK_SIZE_GEN/2 then
      if nNewBlockSize ≥ MAX_BLOCK_SIZE_GEN then ofAmount MAX_MONEY
      else ranged ((unraisedFee rules tx fAllowFree mode).mulAmount (raise nNewBlockSize))
    else ranged (unraisedFee rules tx fAllowFree mode) := rfl

/-- What the fee is to do as the block fills up, circuit by circuit. -/
structure RisingFee : Prop where
  monotone : ∀ nBlockSize nBlockSize', 1 ≤ nBlockSize → nBlockSize ≤ nBlockSize' → nBlockSize' ≤ MAX_BLOCK_SIZE_GEN → ∀ c,
    feePart (tx.GetMinFee rules nBlockSize fAllowFree mode) c ≤ feePart (tx.GetMinFee rules nBlockSize' fAllowFree mode) c
  full : ∀ c ∈ (baseFee rules mode).locals, feePart (tx.GetMinFee rules MAX_BLOCK_SIZE_GEN fAllowFree mode) c = MAX_MONEY
  atLeast : ¬AllowedFree tx fAllowFree mode → ∀ nBlockSize, 1 ≤ nBlockSize → nBlockSize ≤ MAX_BLOCK_SIZE_GEN → ∀ c,
    feePart (baseFee rules mode) c ≤ feePart (tx.GetMinFee rules nBlockSize fAllowFree mode) c

/-! ### A base fee without circuits -/

variable {rules tx fAllowFree mode}

theorem addDust {nBaseFee : Cash} (noCircuits : nBaseFee.locals = ∅) {nMinFee : Cash} (plain : nMinFee.locals = ∅) (outs : List CTxOut) :
    outs.foldl (fun nMinFee txout => if txout.nValue.ltAmount DUST_SOFT_LIMIT then nMinFee.addAssign nBaseFee else nMinFee) nMinFee =
      ⟨∅,nMinFee.fixed+Int64.ofNat (outs.countP fun txout => txout.nValue.ltAmount DUST_SOFT_LIMIT)*nBaseFee.fixed⟩ := by
  induction outs generalizing nMinFee with
  | nil =>
    refine ext_lookup (fun c => by rw [List.foldl_nil,plain]) ?_
    simp
  | cons txout rest ih =>
    rw [List.foldl_cons,List.countP_cons]
    split
    next dust =>
      have one : Int64.ofNat 1 = 1 := rfl
      rw [ih (addAssign_empty plain noCircuits),addAssign_fixed,Int64.ofNat_add,Int64.add_mul,one,Int64.one_mul,Int64.add_assoc]
      rw [Int64.add_comm nBaseFee.fixed]
    next => rw [ih plain,Nat.add_zero]

/-- The dust fee alone, where the transaction itself is free. -/
theorem unraisedFee_free (noCircuits : (baseFee rules mode).locals = ∅) (free : AllowedFree tx fAllowFree mode) :
    unraisedFee rules tx fAllowFree mode = ⟨∅,Int64.ofNat (dustOutputs tx)*(baseFee rules mode).fixed⟩ := by
  have nothing : (assignAmount 0).locals = ∅ := rfl
  rw [unraisedFee,if_pos free,addDust noCircuits nothing,dustOutputs]
  congr 1
  exact Int64.zero_add _

theorem unraisedFee_zero (noCircuits : (baseFee rules mode).locals = ∅) (zero : (baseFee rules mode).fixed = 0) :
    unraisedFee rules tx fAllowFree mode = {} := by
  have plain : (if AllowedFree tx fAllowFree mode then assignAmount 0 else
      (baseFee rules mode).mulAmount (Int64.ofNat (1+tx.GetSerializeSize/1000))) = {} := by
    split
    next => rfl
    next =>
      refine ext_lookup (fun c => by rw [mulAmount_empty noCircuits]) ?_
      rw [mulAmount,zero,Int64.zero_mul]
  rw [unraisedFee,plain,addDust noCircuits rfl,zero,Int64.mul_zero,Int64.add_zero]

theorem mulAmount_plain (x k : Amount) : (⟨∅,x⟩ : Cash).mulAmount k = ⟨∅,x*k⟩ :=
  ext_lookup (fun c => by rw [mulAmount_empty rfl]) rfl

def capped (x : Amount) : Amount := if x ≤ MAX_MONEY then x else MAX_MONEY

theorem capped_of_nonpos {x : Amount} (nonpos : capped x ≤ 0) : capped x = x := by
  by_cases low : x ≤ MAX_MONEY
  · exact if_pos low
  · rw [capped,if_neg low] at nonpos
    exact absurd nonpos (by decide)

theorem feePart_ranged (x : Amount) (c : CashName) : feePart (ranged ⟨∅,x⟩) c = capped x := by
  have noCircuits : (⟨∅,x⟩ : Cash).locals.toList = [] := rfl
  have least : (⟨∅,x⟩ : Cash).Min = x := by rw [Cash.Min,noCircuits]
  rw [ranged,capped]
  simp only [MoneyRange_iff,least]
  split
  next => exact feePart_of_empty rfl c
  next => exact feePart_of_empty rfl c

/-! ### The fee along the size of the block -/

theorem GEN_eq : MAX_BLOCK_SIZE_GEN = 250000 := rfl

theorem GetMinFee_full (fits : tx.GetSerializeSize+MAX_BLOCK_SIZE_GEN < 2^32) :
    tx.GetMinFee rules MAX_BLOCK_SIZE_GEN fAllowFree mode = {} := by
  rw [GEN_eq] at fits
  rw [GetMinFee_eq]
  dsimp only
  rw [GEN_eq,Nat.mod_eq_of_lt (by omega),if_pos ⟨by decide,by omega⟩,if_pos (by omega)]
  rfl

theorem GetMinFee_first : tx.GetMinFee rules 1 fAllowFree mode = ranged (unraisedFee rules tx fAllowFree mode) := by
  rw [GetMinFee_eq]
  exact if_neg fun raised => raised.1 rfl

/-- The fee where the new block has a size between half full and full. -/
theorem GetMinFee_raised {nNewBlockSize : Nat} (half : MAX_BLOCK_SIZE_GEN/2 ≤ nNewBlockSize) (below : nNewBlockSize < MAX_BLOCK_SIZE_GEN)
    (small : tx.GetSerializeSize+1 < nNewBlockSize) :
    tx.GetMinFee rules (nNewBlockSize-tx.GetSerializeSize) fAllowFree mode =
      ranged ((unraisedFee rules tx fAllowFree mode).mulAmount (raise nNewBlockSize)) := by
  rw [GEN_eq] at below
  have size : (nNewBlockSize-tx.GetSerializeSize+tx.GetSerializeSize)%2^32 = nNewBlockSize := by
    rw [Nat.sub_add_cancel (by omega),Nat.mod_eq_of_lt (by omega)]
  rw [GetMinFee_eq]
  dsimp only
  rw [size,if_pos ⟨by omega,half⟩,if_neg (by rw [GEN_eq]; omega)]

/-- A fee that is nothing at first stays nothing. -/
theorem GetMinFee_nothing (nothing : unraisedFee rules tx fAllowFree mode = {}) (nBlockSize : Nat) (c : CashName) :
    feePart (tx.GetMinFee rules nBlockSize fAllowFree mode) c = 0 := by
  have within : (0 : Amount) ≤ MAX_MONEY := by decide
  rw [GetMinFee_eq,nothing]
  dsimp only
  split
  next =>
    split
    next => exact feePart_of_empty rfl c
    next => rw [mulAmount_plain,Int64.zero_mul,feePart_ranged,capped,if_pos within]
  next => rw [feePart_ranged,capped,if_pos within]

/-- A wrapped multiple that grows from the first to the third and ends at nothing was nothing. -/
theorem multiples_eq_zero {x : Amount} (second : x ≤ x*2) (third : x*2 ≤ x*3) (last : x*3 ≤ 0) : x = 0 := by
  have two : (2 : Amount).toInt = 2 := rfl
  have three : (3 : Amount).toInt = 3 := rfl
  have zero : (0 : Amount).toInt = 0 := rfl
  have low := Int64.le_toInt x
  rw [Int64.le_iff_toInt_le,Int64.toInt_mul,two] at second
  rw [Int64.le_iff_toInt_le,Int64.toInt_mul,Int64.toInt_mul,two,three] at third
  rw [Int64.le_iff_toInt_le,Int64.toInt_mul,three,zero] at last
  rw [← Int64.toInt_inj,zero]
  generalize x.toInt = n at *
  by_cases small : -2^62 ≤ n
  · have twice : (n*2).bmod (2^64) = n*2 := Int.bmod_eq_of_le (by omega) (by omega)
    omega
  · have wrapped : (n*2+(2^64 : Nat)).bmod (2^64) = n*2+(2^64 : Nat) := Int.bmod_eq_of_le (by omega) (by omega)
    rw [Int.add_bmod_right] at wrapped
    have least : n = -2^63 := by omega
    rw [least] at third
    exact absurd third (by decide)

/-- Whatever is asked of an unfilled block drops to nothing at the limit, so the fee rises
    only where nothing is asked: the base fee lists no circuit, and it is zero or asked of
    nobody. -/
theorem rising_iff (nonneg : 0 ≤ (baseFee rules mode).fixed) (fits : tx.GetSerializeSize+MAX_BLOCK_SIZE_GEN < 2^32) :
    RisingFee rules tx fAllowFree mode ↔ (baseFee rules mode).locals = ∅ ∧ ((baseFee rules mode).fixed = 0 ∨
      AllowedFree tx fAllowFree mode ∧ Int64.ofNat (dustOutputs tx)*(baseFee rules mode).fixed = 0) := by
  have last (c : CashName) : feePart (tx.GetMinFee rules MAX_BLOCK_SIZE_GEN fAllowFree mode) c = 0 := by
    rw [GetMinFee_full fits]
    exact feePart_of_empty rfl c
  constructor
  · intro rising
    have noCircuits : (baseFee rules mode).locals = ∅ := by
      refine ExtTreeMap.eq_empty_iff_forall_not_mem.mpr fun c listed => ?_
      have full := rising.full c listed
      rw [last c] at full
      exact absurd full (by decide)
    refine ⟨noCircuits,?_⟩
    by_cases free : AllowedFree tx fAllowFree mode
    · refine .inr ⟨free,?_⟩
      have small : tx.GetSerializeSize < 16000 := by
        have limit := free.2
        split at limit
        next => omega
        next => exact limit
      have unraised := unraisedFee_free noCircuits free
      generalize Int64.ofNat (dustOutputs tx)*(baseFee rules mode).fixed = x at unraised ⊢
      have one : feePart (tx.GetMinFee rules 1 fAllowFree mode) [] = capped x := by
        rw [GetMinFee_first,unraised,feePart_ranged]
      have two : feePart (tx.GetMinFee rules (125000-tx.GetSerializeSize) fAllowFree mode) [] = capped (x*2) := by
        rw [@GetMinFee_raised rules tx fAllowFree mode 125000 (by decide) (by decide) (by omega),unraised,mulAmount_plain,feePart_ranged]
        rfl
      have three : feePart (tx.GetMinFee rules (166667-tx.GetSerializeSize) fAllowFree mode) [] = capped (x*3) := by
        rw [@GetMinFee_raised rules tx fAllowFree mode 166667 (by decide) (by decide) (by omega),unraised,mulAmount_plain,feePart_ranged]
        rfl
      rw [GEN_eq] at fits
      have toTwo := rising.monotone 1 (125000-tx.GetSerializeSize) le_rfl (by omega) (by rw [GEN_eq]; omega) []
      have toThree := rising.monotone (125000-tx.GetSerializeSize) (166667-tx.GetSerializeSize) (by omega) (by omega) (by rw [GEN_eq]; omega) []
      have toLast := rising.monotone (166667-tx.GetSerializeSize) MAX_BLOCK_SIZE_GEN (by omega) (by rw [GEN_eq]; omega) le_rfl []
      rw [one,two] at toTwo
      rw [two,three] at toThree
      rw [three,last] at toLast
      have nonposThree := capped_of_nonpos toLast
      rw [nonposThree] at toThree toLast
      have nonposTwo := capped_of_nonpos (Int64.le_trans toThree toLast)
      rw [nonposTwo] at toTwo toThree
      have nonpos := capped_of_nonpos (Int64.le_trans toTwo (Int64.le_trans toThree toLast))
      rw [nonpos] at toTwo
      exact multiples_eq_zero toTwo toThree toLast
    · have least := rising.atLeast free MAX_BLOCK_SIZE_GEN (by decide) le_rfl []
      rw [last,feePart_of_empty noCircuits] at least
      exact .inl (Int64.le_antisymm least nonneg)
  · rintro ⟨noCircuits,nobody⟩
    have nothing : unraisedFee rules tx fAllowFree mode = {} := by
      rcases nobody with zero | ⟨free,dust⟩
      · exact unraisedFee_zero noCircuits zero
      · rw [unraisedFee_free noCircuits free,dust]
    refine ⟨fun nBlockSize nBlockSize' _ _ _ c => ?_,fun c listed => ?_,fun charged nBlockSize _ _ c => ?_⟩
    · rw [GetMinFee_nothing nothing,GetMinFee_nothing nothing]
      exact Int64.le_refl _
    · rw [noCircuits] at listed
      exact absurd listed ExtTreeMap.not_mem_empty
    · rw [GetMinFee_nothing nothing,feePart_of_empty noCircuits]
      rcases nobody with zero | ⟨free,_⟩
      · rw [zero]
        exact Int64.le_refl _
      · exact absurd free charged

end

/-- Fees of 3 in one circuit and of 2 in the others. -/
private def chargingRules : PoolRules where
  env := ⟨fun _ => 0,fun _ => 0,fun _ _ => 0,fun _ _ _ _ _ => true,fun _ _ _ => true⟩
  nMinTxFee := ⟨(∅ : CashStruct).insert [69] 3,2⟩
  IsPushOnly := fun _ => true
  HasCanonicalPushes := fun _ => true
  IsStandard := fun _ => true
  IsInputStandard := fun _ _ _ => true

private def emptyTransaction : CTransaction := ⟨2,[],[],0,[]⟩

theorem rising_free : RisingFee chargingRules emptyTransaction true GMF_RELAY :=
  (rising_iff (by decide +kernel) (by decide)).mpr ⟨rfl,.inl rfl⟩

/-- At the limit the fee of 3 is gone, where MAX_MONEY is meant. -/
theorem fee_collapses :
    feePart (emptyTransaction.GetMinFee chargingRules 1000 false GMF_BLOCK) [69] = 3 ∧
    feePart (emptyTransaction.GetMinFee chargingRules MAX_BLOCK_SIZE_GEN false GMF_BLOCK) [69] = 0 ∧
    ¬RisingFee chargingRules emptyTransaction false GMF_BLOCK := by
  have charged : feePart (emptyTransaction.GetMinFee chargingRules 1000 false GMF_BLOCK) [69] = 3 := by decide +kernel
  have gone : feePart (emptyTransaction.GetMinFee chargingRules MAX_BLOCK_SIZE_GEN false GMF_BLOCK) [69] = 0 := by decide +kernel
  refine ⟨charged,gone,fun rising => ?_⟩
  have least := rising.monotone 1000 MAX_BLOCK_SIZE_GEN (by decide) (by decide) le_rfl [69]
  rw [charged,gone] at least
  exact absurd least (by decide)

end Tetra.CTransaction
