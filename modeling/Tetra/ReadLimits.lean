import Mathlib
import Tetra.CoinsFormat

/-!
What is read is small enough to be written and read again: sizes are checked when they
are read, a script has a length of 32 bits, and a value has circuits only.
-/
namespace Tetra
open Codec
open Std (ExtTreeMap)

theorem returns_data (n : Nat) : Returns (readData n) fun bytes => bytes.length = n := returns_take _ n

theorem returns_any {α : Type} (reader : Unserializer α) : Returns reader fun _ => True := fun _ _ _ _ => trivial

theorem returns_compactSize : Returns ReadCompactSize (· ≤ MAX_SIZE) := by
  refine (returns_any readSize).bind fun n _ => ?_
  by_cases large : n > MAX_SIZE
  · rw [if_pos large]
    exact .throw _ _
  · rw [if_neg large]
    exact .pure (by omega)

theorem returns_bytes : Returns readBytes fun v => v.length ≤ MAX_SIZE :=
  returns_compactSize.bind fun n small => (returns_data n).weaken fun v sized => by omega

theorem returns_vector {α : Type} {reader : Unserializer α} {ok : α → Prop} (each : Returns reader ok) :
    Returns (readVector reader) fun v => v.length ≤ MAX_SIZE ∧ ∀ a ∈ v, ok a :=
  returns_compactSize.bind fun n small => (each.many n).weaken fun v read => ⟨by omega,read.2⟩

/-- Entries go into a map one by one, no more of them than there are. -/
theorem foldl_insertIfNew_fits (entries : List (CashName × Amount)) (m : CashStruct) (ok : CashName → Prop) (named : ∀ e ∈ entries, ok e.1)
    (before : ∀ k ∈ m, ok k) :
    (entries.foldl (fun m e => m.insertIfNew e.1 e.2) m).size ≤ m.size+entries.length ∧
      ∀ k ∈ entries.foldl (fun m e => m.insertIfNew e.1 e.2) m, ok k := by
  induction entries generalizing m with
  | nil => exact ⟨le_rfl,before⟩
  | cons e entries ih =>
    obtain ⟨first,rest⟩ := List.forall_mem_cons.mp named
    obtain ⟨few,all⟩ := ih (m.insertIfNew e.1 e.2) rest fun k member => by
      rcases ExtTreeMap.mem_insertIfNew.mp member with same | old
      · rw [← Std.LawfulEqCmp.eq_of_compare same]
        exact first
      · exact before k old
    refine ⟨?_,all⟩
    have grows := @ExtTreeMap.size_insertIfNew_le _ _ _ m _ e.1 e.2
    rw [List.foldl_cons,List.length_cons]
    omega

theorem returns_cashStruct : Returns CashStruct.Unserialize (CashStruct.Fits MAX_SIZE) := by
  have money : Returns readMoney fun e => e.1.length ≤ MAX_SIZE :=
    returns_bytes.bind fun name short => (returns_any readAmount).bind fun amount _ => .pure short
  refine (returns_vector money).bind fun entries read => .pure ?_
  obtain ⟨few,short⟩ := foldl_insertIfNew_fits entries ∅ (fun k => k.length ≤ MAX_SIZE) read.2 (by simp)
  refine ⟨by simpa using few.trans (by simpa using read.1),fun e member => short e.1 ?_⟩
  exact ExtTreeMap.mem_iff_isSome_getElem?.mpr (by rw [ExtTreeMap.mem_toList_iff_getElem?_eq_some.mp member]; rfl)

theorem returns_cash : Returns Cash.Unserialize fun x => x.fixed = 0 ∧ x.locals.Fits MAX_SIZE :=
  returns_cashStruct.bind fun _ fits => .pure ⟨rfl,fits⟩

theorem returns_varInt : Returns ReadVarInt (· < 2^32) := by
  have every (bytes : List UInt8) : ∀ n a rest, readVarInt n bytes = .ok (a,rest) → a < 2^32 := by
    induction bytes with
    | nil =>
      intro n a rest read
      contradiction
    | cons chData bytes ih =>
      intro n a rest read
      rw [readVarInt] at read
      split at read
      · exact ih _ a rest read
      · obtain ⟨rfl,rfl⟩ := Prod.mk.inj (Except.ok.inj read)
        exact Nat.mod_lt _ (by decide)
  exact fun bytes => every bytes 0

/-- The keys that decompression makes are whole ones. -/
def KeyRules.Sized (keys : KeyRules) : Prop := ∀ key pubkey, keys.Decompress key = some pubkey → pubkey.length = 65

theorem CScriptCompressor.Decompress_length_le {keys : KeyRules} (whole : keys.Sized) (nSize : Nat) {data : List UInt8} (short : data.length ≤ 32) :
    (Decompress keys nSize data []).length ≤ 67 := by
  unfold Decompress
  split
  · simp; omega
  · simp; omega
  · simp; omega
  · simp; omega
  · split
    · simp
    next pubkey made => simp [whole _ _ made]
  · split
    · simp
    next pubkey made => simp [whole _ _ made]
  · simp

theorem returns_script {keys : KeyRules} (whole : keys.Sized) :
    Returns (CScriptCompressor.Unserialize keys) fun script => script.length+CScriptCompressor.nSpecialScripts < 2^32 := by
  have six : CScriptCompressor.nSpecialScripts = 6 := rfl
  refine returns_varInt.bind fun nSize small => ?_
  by_cases special : nSize < CScriptCompressor.nSpecialScripts
  · rw [if_pos special]
    refine (returns_data _).bind fun vch sized => .pure ?_
    have most := CScriptCompressor.GetSpecialSize_le nSize
    have short := CScriptCompressor.Decompress_length_le whole nSize (by omega : vch.length ≤ 32)
    omega
  · rw [if_neg special]
    exact (returns_data _).weaken fun script sized => by omega

theorem returns_txOut {keys : KeyRules} (whole : keys.Sized) :
    Returns (CTxOutCompressor.Unserialize keys) fun out => out.nValue.fixed = 0 ∧ CTxOutCompressor.Fits out :=
  returns_cash.bind fun _ value => (returns_script whole).bind fun _ script => .pure ⟨value.1,value.2,script⟩

end Tetra
