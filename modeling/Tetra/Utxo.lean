import Mathlib
import Tetra.Ledger
import Tetra.Inputs

/-!
A coins view read as a ledger from outpoints to coins, and what spending a
transaction's inputs and adding its outputs does to that ledger. How a view
splits its coins between caches, and which spent outputs it still lists, is
not visible in the ledger.
-/
namespace Tetra
open Std

/-- An available output with what is known about its transaction. -/
structure Coin where
  txout : CTxOut
  fCoinBase : Bool
  nHeight : Nat
  nVersion : Int
deriving DecidableEq

def CCoins.coin (coins : CCoins) (n : Nat) : Option Coin :=
  match coins.vout[n]? with
  | none => none
  | some txout => if txout.IsNull then none else some ⟨txout,coins.fCoinBase,coins.nHeight,coins.nVersion⟩

def CCoinsViewCache.ledger (view : CCoinsViewCache) : COutPoint → Option Coin :=
  fun out =>
    match view.GetCoins out.hash with
    | none => none
    | some coins => coins.coin out.n

namespace CTransaction

/-- The outpoints a transaction spends; a coinbase spends none. -/
def prevouts (tx : CTransaction) : List COutPoint := if tx.IsCoinBase then [] else tx.vin.map CTxIn.prevout

def coinAt (tx : CTransaction) (nHeight : Nat) (n : Nat) : Option Coin := (CCoins.ofTransaction tx nHeight).coin n

/-- A transaction as a step of the ledger: its inputs are spent and its hash owns
    exactly its own outputs. -/
def applyTo (tx : CTransaction) (txhash : uint256) (nHeight : Nat) (ledger : COutPoint → Option Coin) :
    COutPoint → Option Coin :=
  Ledger.step tx.prevouts (fun out => out.hash == txhash) (fun out => tx.coinAt nHeight out.n) ledger

end CTransaction

namespace CCoins

theorem coin_eq_some_iff (coins : CCoins) (n : Nat) (coin : Coin) :
    coins.coin n = some coin ↔ ∃ txout, coins.vout[n]? = some txout ∧ txout.IsNull = false ∧
      coin = ⟨txout,coins.fCoinBase,coins.nHeight,coins.nVersion⟩ := by
  rw [CCoins.coin]
  cases coins.vout[n]? with
  | none => simp
  | some txout =>
    cases null : txout.IsNull
    · constructor
      · intro same
        exact ⟨txout,rfl,null,by simpa [null] using same.symm⟩
      · rintro ⟨other,same,_,rfl⟩
        obtain rfl : txout = other := by simpa using same
        simp [null]
    · simp [null]

theorem isAvailable_iff (coins : CCoins) (n : Nat) : coins.IsAvailable n = true ↔ coins.coin n ≠ none := by
  rw [IsAvailable,CCoins.coin]
  cases coins.vout[n]? with
  | none => simp
  | some txout => cases null : txout.IsNull <;> simp [null]

theorem isPruned_iff (coins : CCoins) : coins.IsPruned = true ↔ ∀ n, coins.coin n = none := by
  simp only [IsPruned,List.all_eq_true]
  constructor
  · intro all n
    rw [CCoins.coin]
    cases indexed : coins.vout[n]? with
    | none => rfl
    | some txout => simp [all txout (List.mem_of_getElem? indexed)]
  · intro none txout member
    obtain ⟨n,indexed⟩ := List.getElem?_of_mem member
    have gone := none n
    rw [CCoins.coin,indexed] at gone
    by_contra notNull
    simp [notNull] at gone

private theorem getElem?_rdropWhile (p : CTxOut → Bool) (outs : List CTxOut) (n : Nat) :
    (outs.rdropWhile p)[n]? = outs[n]? ∨ (outs.rdropWhile p)[n]? = none ∧ ∃ out, outs[n]? = some out ∧ p out = true := by
  have split : outs.rdropWhile p ++ outs.rtakeWhile p = outs := List.rdropWhile_append_rtakeWhile
  by_cases inside : n < (outs.rdropWhile p).length
  · left
    conv_rhs => rw [← split]
    rw [List.getElem?_append_left inside]
  · have beyond : (outs.rdropWhile p)[n]? = none := by simpa using inside
    cases indexed : outs[n]? with
    | none => exact Or.inl beyond
    | some out =>
      refine Or.inr ⟨beyond,out,rfl,?_⟩
      rw [← split,List.getElem?_append_right (by omega)] at indexed
      exact List.mem_rtakeWhile_imp (List.mem_of_getElem? indexed)

/-- Dropping spent outputs from the end changes no coin. -/
@[simp] theorem coin_Cleanup (coins : CCoins) (n : Nat) : coins.Cleanup.coin n = coins.coin n := by
  rcases getElem?_rdropWhile CTxOut.IsNull coins.vout n with same | ⟨gone,out,indexed,null⟩
  · simp [CCoins.coin,Cleanup,same]
  · simp [CCoins.coin,Cleanup,gone,indexed,null]

@[simp] theorem null_IsNull : CTxOut.null.IsNull = true := by decide

/-- `Spend` succeeds exactly on an available output, and takes that one away. -/
theorem Spend_eq_none_iff (coins : CCoins) (out : COutPoint) : coins.Spend out = none ↔ coins.coin out.n = none := by
  rw [Spend,CCoins.coin]
  cases coins.vout[out.n]? with
  | none => simp
  | some txout =>
    cases null : txout.IsNull
    · dsimp only
      rw [null,if_neg Bool.false_ne_true]
      split <;> simp
    · simp [null]

theorem Spend_eq_some {coins spent : CCoins} {out : COutPoint} {undo : CTxInUndo}
    (spends : coins.Spend out = some (spent,undo)) :
    coins.coin out.n = some ⟨undo.txout,coins.fCoinBase,coins.nHeight,coins.nVersion⟩ ∧
      (∀ n, spent.coin n = if n = out.n then none else coins.coin n) := by
  rw [Spend] at spends
  cases indexed : coins.vout[out.n]? with
  | none => simp [indexed] at spends
  | some txout =>
    cases null : txout.IsNull
    · simp only [indexed,null,Bool.false_eq_true,if_false] at spends
      have spentIs : spent = Cleanup {coins with vout := coins.vout.set out.n CTxOut.null} ∧ undo.txout = txout := by
        split at spends
        all_goals
          obtain ⟨rfl,rfl⟩ := Prod.mk.inj (Option.some.inj spends)
          exact ⟨rfl,rfl⟩
      refine ⟨by simp [CCoins.coin,indexed,null,spentIs.2],fun n => ?_⟩
      rw [spentIs.1,coin_Cleanup]
      have inside : out.n < coins.vout.length := (List.getElem?_eq_some_iff.mp indexed).1
      by_cases same : n = out.n
      · subst same
        simp [CCoins.coin,inside]
      · simp [CCoins.coin,Ne.symm same,same]
    · simp [indexed,null] at spends

end CCoins

namespace CCoinsViewCache

theorem ledger_SetCoins (view : CCoinsViewCache) (txid : uint256) (coins : CCoins) (out : COutPoint) :
    (view.SetCoins txid coins).ledger out = if out.hash = txid then coins.coin out.n else view.ledger out := by
  simp only [ledger,GetCoins_SetCoins]
  by_cases same : txid = out.hash
  · simp [same]
  · simp [same,Ne.symm same]

/-- Spending an output takes exactly that outpoint out of the ledger. -/
theorem ledger_spend (view : CCoinsViewCache) {prevout : COutPoint} {coins left : CCoins} {undo : CTxInUndo}
    (fetched : view.GetCoins prevout.hash = some coins) (spent : coins.Spend prevout = some (left,undo)) (out : COutPoint) :
    (view.SetCoins prevout.hash left).ledger out = if out = prevout then none else view.ledger out := by
  rw [ledger_SetCoins]
  by_cases sameHash : out.hash = prevout.hash
  · have here : view.ledger out = coins.coin out.n := by simp [ledger,sameHash,fetched]
    rw [if_pos sameHash,(CCoins.Spend_eq_some spent).2,here]
    by_cases sameIndex : out.n = prevout.n
    · have same : out = prevout := by cases out; simp_all
      simp [same]
    · have different : out ≠ prevout := fun same => sameIndex (by rw [same])
      simp [sameIndex,different]
  · have different : out ≠ prevout := fun same => sameHash (by rw [same])
    simp [sameHash,different]

end CCoinsViewCache

namespace CTransaction

/-- Spending some inputs is spending the first of them and then the others. -/
theorem spendInputs_cons {txin : CTxIn} {rest : List CTxIn} {inputs after : CCoinsViewCache} {undo : List CTxInUndo}
    (spends : spendInputs inputs (txin :: rest) = .ok (after,undo)) :
    ∃ coins left entry entries, inputs.GetCoins txin.prevout.hash = some coins ∧ coins.Spend txin.prevout = some (left,entry) ∧
      spendInputs (inputs.SetCoins txin.prevout.hash left) rest = .ok (after,entries) ∧ undo = entry :: entries := by
  rw [spendInputs] at spends
  cases fetched : inputs.GetCoins txin.prevout.hash with
  | none => simp [fetched] at spends
  | some coins =>
    cases spent : coins.Spend txin.prevout with
    | none => simp [fetched,spent] at spends
    | some pair =>
      obtain ⟨left,entry⟩ := pair
      simp only [fetched,spent] at spends
      cases later : spendInputs (inputs.SetCoins txin.prevout.hash left) rest with
      | error e => simp [later] at spends
      | ok result =>
        obtain ⟨view,entries⟩ := result
        obtain ⟨rfl,rfl⟩ : view = after ∧ entry :: entries = undo := by simpa [later] using spends
        exact ⟨coins,left,entry,entries,rfl,spent,later,rfl⟩

/-- Spending inputs takes them out of the ledger, provided they were all there. -/
theorem spendInputs_ok {vin : List CTxIn} {inputs after : CCoinsViewCache} {undo : List CTxInUndo}
    (spends : spendInputs inputs vin = .ok (after,undo)) :
    (∀ out, after.ledger out = if out ∈ vin.map CTxIn.prevout then none else inputs.ledger out) ∧
      (vin.map CTxIn.prevout).Nodup ∧ (∀ txin ∈ vin, inputs.ledger txin.prevout ≠ none) ∧
      after.GetBestBlock = inputs.GetBestBlock := by
  induction vin generalizing inputs undo with
  | nil =>
    obtain ⟨rfl,rfl⟩ : inputs = after ∧ [] = undo := by simpa [spendInputs] using spends
    simp
  | cons txin rest ih =>
    obtain ⟨coins,left,entry,entries,fetched,spent,later,rfl⟩ := spendInputs_cons spends
    obtain ⟨ledgerLater,distinct,available,best⟩ := ih later
    obtain ⟨was,_⟩ := CCoins.Spend_eq_some spent
    have one := inputs.ledger_spend fetched spent
    have first : inputs.ledger txin.prevout ≠ none := by
      simp [CCoinsViewCache.ledger,fetched,was]
    have notAgain : txin.prevout ∉ rest.map CTxIn.prevout := by
      intro member
      obtain ⟨other,inside,same⟩ := List.mem_map.mp member
      exact available other inside (by rw [same,one]; simp)
    refine ⟨?_,?_,?_,best⟩
    · intro out
      rw [ledgerLater,one]
      by_cases isFirst : out = txin.prevout
      · simp [isFirst]
      · simp [isFirst]
    · rw [List.map_cons]
      exact List.nodup_cons.mpr ⟨notAgain,distinct⟩
    · intro other member
      rcases List.mem_cons.mp member with rfl | inside
      · exact first
      · have there := available other inside
        rw [one] at there
        by_contra gone
        exact there (by simp [gone])

/-- Inputs that are distinct and available can all be spent. -/
theorem spendInputs_succeeds {vin : List CTxIn} {inputs : CCoinsViewCache} (distinct : (vin.map CTxIn.prevout).Nodup)
    (available : ∀ txin ∈ vin, inputs.ledger txin.prevout ≠ none) :
    ∃ after undo, spendInputs inputs vin = .ok (after,undo) := by
  induction vin generalizing inputs with
  | nil => exact ⟨inputs,[],rfl⟩
  | cons txin rest ih =>
    have there := available txin (List.mem_cons_self ..)
    rw [spendInputs]
    cases fetched : inputs.GetCoins txin.prevout.hash with
    | none => simp [CCoinsViewCache.ledger,fetched] at there
    | some coins =>
      cases spent : coins.Spend txin.prevout with
      | none =>
        rw [CCoins.Spend_eq_none_iff] at spent
        simp [CCoinsViewCache.ledger,fetched,spent] at there
      | some pair =>
        obtain ⟨left,entry⟩ := pair
        rw [List.map_cons,List.nodup_cons] at distinct
        have still : ∀ other ∈ rest, (inputs.SetCoins txin.prevout.hash left).ledger other.prevout ≠ none := by
          intro other inside
          have different : other.prevout ≠ txin.prevout := by
            intro same
            exact distinct.1 (List.mem_map.mpr ⟨other,inside,same⟩)
          have before := available other (List.mem_cons_of_mem _ inside)
          rw [inputs.ledger_spend fetched spent,if_neg different]
          exact before
        obtain ⟨after,undo,later⟩ := ih distinct.2 still
        exact ⟨after,entry :: undo,by simp [spent,later]⟩

/-- `UpdateCoins` spends the inputs, then adds the outputs. -/
theorem UpdateCoins_split {tx : CTransaction} {inputs after : CCoinsViewCache} {nHeight : Nat} {txhash : uint256}
    {txundo : CTxUndo} (updates : tx.UpdateCoins inputs nHeight txhash = .ok (after,txundo)) :
    ∃ view undo, (if tx.IsCoinBase then .ok (inputs,[]) else spendInputs inputs tx.vin) = Except.ok (view,undo) ∧
      after = view.SetCoins txhash (.ofTransaction tx nHeight) ∧ txundo = ⟨undo⟩ := by
  rw [UpdateCoins] at updates
  split at updates
  · contradiction
  · next view undo spent =>
    obtain ⟨rfl,rfl⟩ := Prod.mk.inj (Except.ok.inj updates)
    exact ⟨view,undo,spent,rfl,rfl⟩

/-- `UpdateCoins` is the ledger step of the transaction. -/
theorem UpdateCoins_ok {tx : CTransaction} {inputs after : CCoinsViewCache} {nHeight : Nat} {txhash : uint256}
    {txundo : CTxUndo} (updates : tx.UpdateCoins inputs nHeight txhash = .ok (after,txundo)) :
    after.ledger = tx.applyTo txhash nHeight inputs.ledger ∧ tx.prevouts.Nodup ∧
      (∀ out ∈ tx.prevouts, inputs.ledger out ≠ none) ∧ after.GetBestBlock = inputs.GetBestBlock := by
  obtain ⟨view,undo,spent,rfl,rfl⟩ := UpdateCoins_split updates
  by_cases coinbase : tx.IsCoinBase = true
  · obtain ⟨rfl,_⟩ : inputs = view ∧ [] = undo := by simpa [coinbase] using spent
    refine ⟨?_,by simp [prevouts,coinbase],by simp [prevouts,coinbase],rfl⟩
    funext out
    rw [CCoinsViewCache.ledger_SetCoins]
    simp [applyTo,Ledger.step,prevouts,coinbase,coinAt]
  · obtain ⟨ledgerSpent,distinct,available,best⟩ := spendInputs_ok (by simpa [coinbase] using spent)
    have outs : tx.prevouts = tx.vin.map CTxIn.prevout := by simp [prevouts,coinbase]
    refine ⟨?_,by rwa [outs],?_,by simpa using best⟩
    · funext out
      rw [CCoinsViewCache.ledger_SetCoins,ledgerSpent]
      simp [applyTo,Ledger.step,outs,coinAt]
    · intro out member
      rw [outs] at member
      obtain ⟨txin,inside,rfl⟩ := List.mem_map.mp member
      exact available txin inside

theorem UpdateCoins_succeeds {tx : CTransaction} {inputs : CCoinsViewCache} (nHeight : Nat) (txhash : uint256)
    (distinct : tx.prevouts.Nodup) (available : ∀ out ∈ tx.prevouts, inputs.ledger out ≠ none) :
    ∃ after txundo, tx.UpdateCoins inputs nHeight txhash = .ok (after,txundo) := by
  rw [UpdateCoins]
  by_cases coinbase : tx.IsCoinBase = true
  · exact ⟨inputs.SetCoins txhash (.ofTransaction tx nHeight),⟨[]⟩,by simp [coinbase]⟩
  · have outs : tx.prevouts = tx.vin.map CTxIn.prevout := by simp [prevouts,coinbase]
    rw [outs] at distinct available
    obtain ⟨after,undo,spent⟩ := spendInputs_succeeds distinct fun txin inside =>
      available _ (List.mem_map.mpr ⟨txin,inside,rfl⟩)
    exact ⟨after.SetCoins txhash (.ofTransaction tx nHeight),⟨undo⟩,by simp [coinbase,spent]⟩

end CTransaction
end Tetra
