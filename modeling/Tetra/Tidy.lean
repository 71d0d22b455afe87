import Mathlib
import Tetra.Undo

/-!
Which lists of outputs survive being spent, stored and restored. A tidy entry
has no unavailable output at its end and only default outputs in the gaps; it is
determined by its coins. Comparing such an entry with the outputs of its
transaction succeeds exactly when the transaction's own outputs are tidy.
-/
namespace Tetra
open Std

/-- The form in which spending and reloading leave an entry. -/
structure CCoins.Tidy (coins : CCoins) : Prop where
  lastAvailable : ∀ out ∈ coins.vout.getLast?, out.IsNull = false
  gapsDefault : ∀ out ∈ coins.vout, out.IsNull = true → out = CTxOut.null

namespace CTransaction

/-- No output lists a circuit. -/
def AllEmpty (tx : CTransaction) : Prop := ∀ out ∈ tx.vout, out.IsNull = true
/-- The last output lists a circuit, and outputs that list none are default outputs. -/
def SentinelSafe (tx : CTransaction) : Prop :=
  (∀ out ∈ tx.vout.getLast?, out.IsNull = false) ∧ ∀ out ∈ tx.vout, out.IsNull = true → out = CTxOut.null
/-- The outputs come back from the database and from undo data as they were. -/
def Survives (tx : CTransaction) : Prop := tx.AllEmpty ∨ tx.SentinelSafe
/-- Values as they come off the wire, where only circuits are written. -/
def OffWire (tx : CTransaction) : Prop := ∀ out ∈ tx.vout, out.nValue.fixed = 0

instance (tx : CTransaction) : Decidable tx.AllEmpty := inferInstanceAs (Decidable (∀ out ∈ tx.vout, out.IsNull = true))
instance (tx : CTransaction) : Decidable tx.SentinelSafe :=
  inferInstanceAs (Decidable ((∀ out ∈ tx.vout.getLast?, out.IsNull = false) ∧
    ∀ out ∈ tx.vout, out.IsNull = true → out = CTxOut.null))
instance (tx : CTransaction) : Decidable tx.Survives := inferInstanceAs (Decidable (tx.AllEmpty ∨ tx.SentinelSafe))

end CTransaction

namespace CTransaction

theorem allEmpty_iff (tx : CTransaction) (nHeight : Nat) :
    tx.AllEmpty ↔ ∀ n, (CCoins.ofTransaction tx nHeight).coin n = none := by
  rw [← CCoins.isPruned_iff]
  simp [CCoins.IsPruned,CCoins.ofTransaction,AllEmpty]

theorem AllEmpty.coin {tx : CTransaction} (empty : tx.AllEmpty) (nHeight n : Nat) :
    (CCoins.ofTransaction tx nHeight).coin n = none := (allEmpty_iff tx nHeight).mp empty n

end CTransaction

namespace CTxOut

theorem eq_refl (out : CTxOut) : out.eq out = true := by
  simp [CTxOut.eq,Cash.eq_refl]

/-- An output without circuits equals the default output only by being it. -/
theorem null_eq_iff (out : CTxOut) (null : out.IsNull = true) : CTxOut.null.eq out = true ↔ out = CTxOut.null := by
  constructor
  · intro same
    obtain ⟨value,script⟩ := Bool.and_eq_true_iff.mp same
    have fixed : out.nValue.fixed = 0 := by
      by_contra different
      simp [Cash.eq,CTxOut.null,Cash.assignAmount,Ne.symm different] at value
    have empty : out.nValue.locals = ∅ := by
      rw [ExtTreeMap.eq_empty_iff_size_eq_zero]
      simpa [IsNull,Cash.size] using null
    have noScript : [] = out.scriptPubKey := by simpa [CTxOut.null] using script
    obtain ⟨⟨locals,fixed'⟩,scriptPubKey⟩ := out
    simp_all [CTxOut.null,Cash.assignAmount]
  · rintro rfl
    exact eq_refl _

end CTxOut

namespace CCoins

theorem eq_refl (coins : CCoins) : coins.eq coins = true := by
  simp only [CCoins.eq,beq_self_eq_true,Bool.true_and,List.all_eq_true]
  intro pair member
  have same : pair.1 = pair.2 := by
    rw [List.mem_iff_getElem?] at member
    obtain ⟨n,indexed⟩ := member
    rw [List.getElem?_zip_eq_some] at indexed
    simpa using indexed.1.symm.trans indexed.2
  rw [same]
  exact CTxOut.eq_refl _

theorem coin_txout (coins : CCoins) (n : Nat) :
    (coins.coin n).map Coin.txout = (coins.vout[n]?).filter fun out => !out.IsNull := by
  rw [CCoins.coin]
  cases indexed : coins.vout[n]? with
  | none => simp
  | some out => cases null : out.IsNull <;> simp [null,Option.filter]

/-- In a tidy entry, the last index is the last coin. -/
theorem Tidy.length_le {coins other : CCoins} (tidy : coins.Tidy)
    (same : ∀ n, (coins.coin n).map Coin.txout = (other.coin n).map Coin.txout) : coins.vout.length ≤ other.vout.length := by
  by_contra longer
  have filled : coins.vout ≠ [] := by
    rintro empty
    simp [empty] at longer
  have last : coins.vout[coins.vout.length-1]? = some (coins.vout.getLast filled) := by
    rw [List.getLast_eq_getElem]
    exact List.getElem?_eq_getElem _
  have available := tidy.lastAvailable (coins.vout.getLast filled) (by simp [List.getLast?_eq_some_getLast filled])
  have here := same (coins.vout.length-1)
  have beyond : other.vout[coins.vout.length-1]? = none := by
    rw [List.getElem?_eq_none_iff]
    omega
  rw [coin_txout,coin_txout,last,beyond] at here
  simp [Option.filter,available] at here

/-- A tidy entry is determined by its coins. -/
theorem Tidy.vout_eq {coins other : CCoins} (tidy : coins.Tidy) (otherTidy : other.Tidy)
    (same : ∀ n, (coins.coin n).map Coin.txout = (other.coin n).map Coin.txout) : coins.vout = other.vout := by
  have lengths : coins.vout.length = other.vout.length :=
    Nat.le_antisymm (tidy.length_le same) (otherTidy.length_le fun n => (same n).symm)
  refine List.ext_getElem lengths fun n inside inside' => ?_
  have here := same n
  rw [coin_txout,coin_txout,List.getElem?_eq_getElem inside,List.getElem?_eq_getElem inside'] at here
  cases null : coins.vout[n].IsNull <;> cases null' : other.vout[n].IsNull <;> simp [Option.filter,null,null'] at here
  · exact here
  · rw [tidy.gapsDefault _ (List.getElem_mem _) null,otherTidy.gapsDefault _ (List.getElem_mem _) null']

private theorem mem_rdropWhile_getLast (outs : List CTxOut) {out : CTxOut}
    (last : out ∈ (outs.rdropWhile CTxOut.IsNull).getLast?) : out.IsNull = false := by
  have filled : outs.rdropWhile CTxOut.IsNull ≠ [] := by
    intro empty
    simp [empty] at last
  have notNull := List.rdropWhile_last_not CTxOut.IsNull outs filled
  rw [List.getLast?_eq_some_getLast filled,Option.mem_some_iff] at last
  rw [← last]
  simpa using notNull

theorem tidy_Cleanup {coins : CCoins} (gaps : ∀ out ∈ coins.vout, out.IsNull = true → out = CTxOut.null) :
    coins.Cleanup.Tidy :=
  ⟨fun _ last => mem_rdropWhile_getLast _ last,
    fun out member null => gaps out ((List.rdropWhile_prefix CTxOut.IsNull coins.vout).subset member) null⟩

theorem tidy_ofTransaction_iff (tx : CTransaction) (nHeight : Nat) :
    (CCoins.ofTransaction tx nHeight).Tidy ↔ tx.SentinelSafe :=
  ⟨fun tidy => ⟨tidy.lastAvailable,tidy.gapsDefault⟩,fun safe => ⟨safe.1,safe.2⟩⟩

theorem Spend_tidy {coins spent : CCoins} {out : COutPoint} {undo : CTxInUndo} (tidy : coins.Tidy)
    (spends : coins.Spend out = some (spent,undo)) : spent.Tidy := by
  have spentIs : spent = Cleanup {coins with vout := coins.vout.set out.n CTxOut.null} := by
    rw [Spend] at spends
    split at spends
    · contradiction
    split at spends
    · contradiction
    dsimp only at spends
    split at spends
    all_goals exact (Prod.mk.inj (Option.some.inj spends)).1.symm
  rw [spentIs]
  refine tidy_Cleanup fun other member null => ?_
  rcases List.mem_or_eq_of_mem_set member with inside | rfl
  · exact tidy.gapsDefault other inside null
  · rfl

theorem reload_tidy {coins loaded : CCoins} (reloads : coins.reload = some loaded) : loaded.Tidy := by
  rw [reload] at reloads
  split at reloads
  · contradiction
  · obtain rfl := Option.some.inj reloads
    refine tidy_Cleanup fun out member null => ?_
    obtain ⟨original,_,rfl⟩ := List.mem_map.mp member
    by_cases wasNull : original.IsNull = true
    · simp [wasNull]
    · simp only [wasNull] at null
      exact absurd null (by simpa [CTxOut.stored,CTxOut.IsNull,Cash.stored,Cash.size] using wasNull)

/-- The undo entry carries the metadata exactly when no coin is left. -/
theorem Spend_undo {coins spent : CCoins} {out : COutPoint} {undo : CTxInUndo} (spends : coins.Spend out = some (spent,undo)) :
    ((∀ n, spent.coin n = none) ∧ undo = ⟨undo.txout,coins.fCoinBase,coins.nHeight,coins.nVersion⟩) ∨
      ((∃ n, spent.coin n ≠ none) ∧ undo = {txout := undo.txout}) := by
  rw [Spend] at spends
  split at spends
  · contradiction
  split at spends
  · contradiction
  dsimp only at spends
  split at spends
  · next last =>
    obtain ⟨rfl,rfl⟩ := Prod.mk.inj (Option.some.inj spends)
    refine Or.inl ⟨fun n => ?_,rfl⟩
    simp [CCoins.coin,List.length_eq_zero_iff.mp last]
  · next left =>
    obtain ⟨rfl,rfl⟩ := Prod.mk.inj (Option.some.inj spends)
    refine Or.inr ⟨?_,rfl⟩
    generalize cleaned : ({coins with vout := coins.vout.set out.n CTxOut.null} : CCoins) = entry at left
    have filled : entry.Cleanup.vout ≠ [] := fun empty => left (by simp [empty])
    have available := mem_rdropWhile_getLast entry.vout (List.getLast_mem_getLast? filled)
    refine ⟨entry.Cleanup.vout.length-1,?_⟩
    have inside : entry.Cleanup.vout.length-1 < entry.Cleanup.vout.length := by
      have := List.length_pos_iff.mpr filled
      omega
    rw [CCoins.coin,List.getElem?_eq_getElem inside,← List.getLast_eq_getElem filled]
    simp [available]

end CCoins
end Tetra
