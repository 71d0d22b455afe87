import Mathlib
import Tetra.Bits
import Tetra.CompactForms

/-!
Coins in the database: a header with the first two outputs, a bitmask of the others up to
the last one available, and the available outputs. What is written comes back as
`CCoins.reload` says.
-/
namespace Tetra
open Bits Codec

namespace CTxOutCompressor
variable (keys : KeyRules)

def Serialize (txout : CTxOut) : List UInt8 := txout.nValue.Serialize ++ CScriptCompressor.Serialize keys txout.scriptPubKey
def GetSerializeSize (txout : CTxOut) : Nat := txout.nValue.GetSerializeSize+CScriptCompressor.GetSerializeSize keys txout.scriptPubKey
/-- Reads into a default output. -/
def Unserialize : Unserializer CTxOut := do
  let nValue ← Cash.Unserialize
  let script ← CScriptCompressor.Unserialize keys
  return ⟨nValue,script⟩

theorem Serialize_length (txout : CTxOut) : (Serialize keys txout).length = GetSerializeSize keys txout := by
  rw [Serialize,List.length_append,Cash.Serialize_length,CScriptCompressor.Serialize_length]
  rfl

/-- An output that can be read back. -/
def Fits (txout : CTxOut) : Prop :=
  txout.nValue.locals.Fits MAX_SIZE ∧ txout.scriptPubKey.length+CScriptCompressor.nSpecialScripts < 2^32

instance (txout : CTxOut) : Decidable (Fits txout) :=
  inferInstanceAs (Decidable ((txout.nValue.locals.size ≤ MAX_SIZE ∧ ∀ e ∈ txout.nValue.locals.toList, e.1.length ≤ MAX_SIZE) ∧ _ < _))

theorem decodes_txOut (lawful : keys.Lawful) {txout : CTxOut} (fits : Fits txout) : Decodes (Unserialize keys) (Serialize keys txout) txout.stored :=
  (decodes_cash fits.1).bind ((CScriptCompressor.decodes_script keys lawful fits.2).return fun script => (⟨txout.nValue.stored,script⟩ : CTxOut))

end CTxOutCompressor

namespace CCoins

/-- No output that byte `b` of the bitmask stands for is available. -/
def fZero (coins : CCoins) (b : Nat) : Bool := (List.range 8).all fun i => !coins.IsAvailable (2+b*8+i)

/-- The bytes of the bitmask up to the last non-zero one, and how many are not zero. -/
def CalcMaskSize (coins : CCoins) : Nat × Nat :=
  (List.range ((coins.vout.length+5)/8)).foldl (fun sizes b => if coins.fZero b then sizes else (b+1,sizes.2+1)) (0,0)

/-- The header code, in 32 bits; `none` where the assertion fails. -/
def nCode (coins : CCoins) : Option Nat :=
  let nMaskCode := coins.CalcMaskSize.2
  let fFirst := coins.IsAvailable 0
  let fSecond := coins.IsAvailable 1
  if fFirst || fSecond || nMaskCode != 0 then
    some ((8*(nMaskCode-if fFirst || fSecond then 0 else 1)+(if coins.fCoinBase then 1 else 0)+(if fFirst then 2 else 0)+
      (if fSecond then 4 else 0))%2^32)
  else none

def chAvail (coins : CCoins) (b : Nat) : UInt8 := fill fun i => coins.IsAvailable (2+b*8+i)

section
variable (keys : KeyRules)

def GetSerializeSize (coins : CCoins) : Option Nat :=
  coins.nCode.map fun nCode =>
    (GetSizeOfVarInt coins.nVersion+GetSizeOfVarInt nCode+coins.CalcMaskSize.1+
      ((coins.vout.filter fun out => !out.IsNull).map (CTxOutCompressor.GetSerializeSize keys)).sum+GetSizeOfVarInt coins.nHeight)%2^32

def Serialize (coins : CCoins) : Option (List UInt8) :=
  coins.nCode.map fun nCode =>
    WriteVarInt coins.nVersion ++ (WriteVarInt nCode ++ ((List.range coins.CalcMaskSize.1).map coins.chAvail ++
      ((coins.vout.filter fun out => !out.IsNull).flatMap (CTxOutCompressor.Serialize keys) ++ WriteVarInt coins.nHeight)))

/-- Reads bytes until some number of them is not zero. -/
def readMask : Nat → Unserializer (List UInt8)
  | 0, bytes => .ok ([],bytes)
  | _+1, [] => .error "CDataStream::read() : end of data"
  | nMaskCode+1, chAvail :: bytes =>
    match readMask (if chAvail ≠ 0 then nMaskCode else nMaskCode+1) bytes with
    | .error e => .error e
    | .ok (mask,rest) => .ok (chAvail :: mask,rest)

def readOuts : List Bool → Unserializer (List CTxOut)
  | [] => return []
  | false :: vAvail => do
    let vout ← readOuts vAvail
    return CTxOut.null :: vout
  | true :: vAvail => do
    let out ← CTxOutCompressor.Unserialize keys
    let vout ← readOuts vAvail
    return out :: vout

def vAvail (nCode : Nat) (mask : List UInt8) : List Bool :=
  [nCode &&& 2 != 0,nCode &&& 4 != 0] ++ mask.flatMap fun chAvail => (List.range 8).map (bitAt chAvail)

def Unserialize : Unserializer CCoins := do
  let nVersion ← ReadVarInt
  let nCode ← ReadVarInt
  let mask ← readMask (nCode/8+if nCode &&& 6 != 0 then 0 else 1)
  let vout ← readOuts keys (vAvail nCode mask)
  let nHeight ← ReadVarInt
  return Cleanup ⟨nCode &&& 1 != 0,vout,nHeight,intOf nVersion⟩

end

/-! ### The bitmask -/

theorem fZero_iff (coins : CCoins) (b : Nat) : coins.fZero b = true ↔ coins.chAvail b = 0 := by
  have filled := fill_ne_zero fun i => coins.IsAvailable (2+b*8+i)
  rw [← not_iff_not,chAvail,← ne_eq (fill _),filled,fZero,List.all_eq_true]
  simp

/-- After some of its turns the loop has found the last byte that is not zero, and
    counted those that are not. -/
theorem masking (coins : CCoins) (n : Nat) :
    let sizes := (List.range n).foldl (fun sizes b => if coins.fZero b then sizes else (b+1,sizes.2+1)) (0,0)
    sizes.1 ≤ n ∧ sizes.2 = ((List.range sizes.1).map coins.chAvail).countP (· ≠ 0) ∧
      (∀ b, sizes.1 = b+1 → coins.chAvail b ≠ 0) ∧ ∀ b, sizes.1 ≤ b → b < n → coins.chAvail b = 0 := by
  induction n with
  | zero => simp
  | succ n ih =>
    simp only [List.range_succ,List.foldl_append,List.foldl_cons,List.foldl_nil]
    generalize (List.range n).foldl (fun sizes b => if coins.fZero b then sizes else (b+1,sizes.2+1)) (0,0) = sizes at ih ⊢
    obtain ⟨low,counted,last,beyond⟩ := ih
    by_cases zero : coins.fZero n = true
    · rw [if_pos zero]
      refine ⟨by omega,counted,last,fun b above below => ?_⟩
      rcases Nat.lt_succ_iff_lt_or_eq.mp below with less | rfl
      · exact beyond b above less
      · exact (fZero_iff coins b).mp zero
    · rw [if_neg zero]
      rw [fZero_iff] at zero
      refine ⟨le_rfl,?_,fun b equal => ?_,fun b above below => by omega⟩
      · have split : List.range n = List.range sizes.1 ++ (List.range (n-sizes.1)).map (sizes.1+·) := by
          rw [← List.range_add,Nat.add_sub_cancel' low]
        have none : ((List.range (n-sizes.1)).map (sizes.1+·)).countP ((fun byte => decide (byte ≠ 0)) ∘ coins.chAvail) = 0 := by
          rw [List.countP_eq_zero]
          intro b member
          obtain ⟨i,inside,rfl⟩ := List.mem_map.mp member
          rw [List.mem_range] at inside
          simp [beyond (sizes.1+i) (by omega) (by omega)]
        rw [counted,List.countP_map,List.countP_map,List.range_succ,split,List.countP_append,List.countP_append,none,List.countP_singleton]
        simp [zero]
      · obtain rfl : n = b := by omega
        exact zero

theorem CalcMaskSize_spec (coins : CCoins) :
    coins.CalcMaskSize.1 ≤ (coins.vout.length+5)/8 ∧
      coins.CalcMaskSize.2 = ((List.range coins.CalcMaskSize.1).map coins.chAvail).countP (· ≠ 0) ∧
      (∀ b, coins.CalcMaskSize.1 = b+1 → coins.chAvail b ≠ 0) ∧
      ∀ b, coins.CalcMaskSize.1 ≤ b → b < (coins.vout.length+5)/8 → coins.chAvail b = 0 := masking coins ((coins.vout.length+5)/8)

theorem CalcMaskSize_beyond (coins : CCoins) {b : Nat} (above : coins.CalcMaskSize.1 ≤ b) : coins.chAvail b = 0 := by
  by_cases below : b < (coins.vout.length+5)/8
  · exact coins.CalcMaskSize_spec.2.2.2 b above below
  · rw [← fZero_iff,fZero,List.all_eq_true]
    intro i _
    have outside : coins.vout[2+b*8+i]? = none := List.getElem?_eq_none (by omega)
    simp [IsAvailable,outside]

/-- Past the bitmask no output is available. -/
theorem available_below (coins : CCoins) {p : Nat} (available : coins.IsAvailable p = true) : p < 2+coins.CalcMaskSize.1*8 := by
  by_contra above
  have zero := coins.CalcMaskSize_beyond (show coins.CalcMaskSize.1 ≤ (p-2)/8 by omega)
  have bit := bitAt_fill (fun i => coins.IsAvailable (2+(p-2)/8*8+i)) (show (p-2)%8 < 8 by omega)
  have place : 2+(p-2)/8*8+(p-2)%8 = p := by omega
  rw [place,available] at bit
  rw [chAvail] at zero
  rw [zero,bitAt_zero] at bit
  contradiction

theorem CalcMaskSize_le (coins : CCoins) : coins.CalcMaskSize.2 ≤ (coins.vout.length+5)/8 := by
  obtain ⟨low,counted,_⟩ := coins.CalcMaskSize_spec
  have most := @List.countP_le_length _ (fun byte : UInt8 => decide (byte ≠ 0)) ((List.range coins.CalcMaskSize.1).map coins.chAvail)
  rw [List.length_map,List.length_range] at most
  exact (counted.trans_le most).trans low

/-- As many bytes are read as there are up to the last one that is not zero. -/
theorem decodes_mask {mask : List UInt8} (last : ∀ byte ∈ mask.getLast?, byte ≠ 0) : Decodes (readMask (mask.countP (· ≠ 0))) mask mask := by
  induction mask with
  | nil =>
    intro more
    rw [List.countP_nil,List.nil_append,readMask.eq_def]
  | cons byte rest ih =>
    intro more
    have next : (byte :: rest).countP (· ≠ 0) = (if byte ≠ 0 then 1 else 0)+rest.countP (· ≠ 0) := by
      rw [List.countP_cons,Nat.add_comm]
      simp
    cases rest with
    | nil =>
      have filled : byte ≠ 0 := last byte rfl
      rw [next,if_pos filled,List.countP_nil,List.singleton_append,Nat.add_zero,readMask,if_pos filled,readMask]
    | cons byte' rest =>
      have later := ih fun b member => last b (by rw [List.getLast?_cons_cons]; exact member)
      have some : 0 < (byte' :: rest).countP (· ≠ 0) := by
        obtain ⟨b,here⟩ := Option.isSome_iff_exists.mp (List.getLast?_isSome.mpr (List.cons_ne_nil byte' rest))
        rw [List.countP_pos_iff]
        exact ⟨b,List.mem_of_getLast? here,decide_eq_true (last b (by rw [List.getLast?_cons_cons]; exact here))⟩
      obtain ⟨k,count⟩ := Nat.exists_eq_succ_of_ne_zero some.ne'
      have read := later more
      rw [count] at next read
      rw [next,List.cons_append]
      by_cases filled : byte ≠ 0
      · rw [if_pos filled,Nat.add_comm,readMask,if_pos filled,read]
      · rw [if_neg filled,Nat.zero_add,readMask,if_neg filled,read]

/-! ### The header -/

theorem and_low (n : Nat) {m : Nat} (small : m ≤ 7) : n &&& m = n%8 &&& m := by
  have low : m = 7 &&& m := by
    interval_cases m <;> rfl
  have seven : n%8 = n &&& 7 := (Nat.and_two_pow_sub_one_eq_mod n 3).symm
  rw [seven,Nat.and_assoc,← low]

/-- What is read off a header code. -/
theorem header_parts (k : Nat) (coinBase first second : Bool) :
    let nCode := 8*k+(if coinBase then 1 else 0)+(if first then 2 else 0)+if second then 4 else 0
    (nCode &&& 1 != 0) = coinBase ∧ (nCode &&& 2 != 0) = first ∧ (nCode &&& 4 != 0) = second ∧ (nCode &&& 6 != 0) = (first || second) ∧ nCode/8 = k := by
  intro nCode
  have small : (if coinBase then 1 else 0)+(if first then 2 else 0)+(if second then 4 else 0) ≤ 7 := by
    cases coinBase <;> cases first <;> cases second <;> decide
  have low : nCode%8 = (if coinBase then 1 else 0)+(if first then 2 else 0)+if second then 4 else 0 := by omega
  have high : nCode/8 = k := by omega
  rw [and_low nCode (show 1 ≤ 7 by decide),and_low nCode (show 2 ≤ 7 by decide),and_low nCode (show 4 ≤ 7 by decide),
    and_low nCode (show 6 ≤ 7 by decide),low]
  refine ⟨?_,?_,?_,?_,high⟩ <;> cases coinBase <;> cases first <;> cases second <;> rfl

/-! ### The outputs -/

/-- The outputs up to a position, or default outputs past the end. -/
def padded (coins : CCoins) (n : Nat) : List CTxOut := coins.vout.take n ++ List.replicate (n-coins.vout.length) CTxOut.null

/-- How an output comes back. -/
def reloaded (out : CTxOut) : CTxOut := if out.IsNull then CTxOut.null else out.stored

theorem padded_available (coins : CCoins) (n : Nat) : (coins.padded n).map (fun out => !out.IsNull) = (List.range n).map coins.IsAvailable := by
  refine List.ext_getElem (by simp [padded]; omega) fun p inside inside' => ?_
  rw [List.length_map,List.length_range] at inside'
  simp only [List.getElem_map,List.getElem_range,padded]
  by_cases within : p < coins.vout.length
  · rw [List.getElem_append_left (by rw [List.length_take]; omega),List.getElem_take,IsAvailable,List.getElem?_eq_getElem within]
  · rw [List.getElem_append_right (by rw [List.length_take]; omega),List.getElem_replicate,IsAvailable,
      List.getElem?_eq_none (Nat.le_of_not_lt within),null_IsNull]
    rfl

theorem mask_available (f : Nat → Bool) (n : Nat) :
    ((List.range n).map fun b => fill fun i => f (2+b*8+i)).flatMap (fun byte => (List.range 8).map (bitAt byte)) =
      (List.range (n*8)).map fun p => f (2+p) := by
  induction n with
  | zero => rfl
  | succ n ih =>
    have last : (List.range 8).map (bitAt (fill fun i => f (2+n*8+i))) = (List.range 8).map fun i => f (2+(n*8+i)) := by
      refine List.map_congr_left fun i inside => ?_
      rw [bitAt_fill _ (List.mem_range.mp inside),Nat.add_assoc]
    rw [@List.range_succ n,List.map_append,List.flatMap_append,ih,List.map_singleton,List.flatMap_singleton,last,Nat.succ_mul,List.range_add,
      List.map_append,List.map_map]
    rfl

theorem decodes_outs {keys : KeyRules} (lawful : keys.Lawful) {outs : List CTxOut}
    (fits : ∀ out ∈ outs, out.IsNull = false → CTxOutCompressor.Fits out) :
    Decodes (readOuts keys (outs.map fun out => !out.IsNull)) ((outs.filter fun out => !out.IsNull).flatMap (CTxOutCompressor.Serialize keys))
      (outs.map reloaded) := by
  induction outs with
  | nil => exact .pure []
  | cons out outs ih =>
    have rest := ih fun other member => fits other (List.mem_cons_of_mem _ member)
    cases spent : out.IsNull with
    | true =>
      have null : reloaded out = CTxOut.null := if_pos spent
      rw [List.map_cons,List.filter_cons_of_neg (by simp [spent]),List.map_cons,spent,null]
      exact rest.return (CTxOut.null :: ·)
    | false =>
      have stored : reloaded out = out.stored := if_neg (by simp [spent])
      rw [List.map_cons,List.filter_cons_of_pos (by simp [spent]),List.map_cons,spent,stored,List.flatMap_cons]
      exact (CTxOutCompressor.decodes_txOut keys lawful (fits out (List.mem_cons_self ..) spent)).bind (rest.return (out.stored :: ·))

theorem reloaded_IsNull (out : CTxOut) : (reloaded out).IsNull = out.IsNull := by
  cases spent : out.IsNull with
  | true => rw [reloaded,if_pos spent,null_IsNull]
  | false =>
    rw [reloaded,if_neg (by simp [spent])]
    exact spent

theorem drop_null (coins : CCoins) {n : Nat} (beyond : ∀ p, coins.IsAvailable p = true → p < n) :
    ∀ out ∈ coins.vout.drop n, out.IsNull = true := by
  intro out member
  obtain ⟨i,inside,rfl⟩ := List.getElem_of_mem member
  by_contra alive
  rw [List.length_drop] at inside
  rw [List.getElem_drop] at alive
  have below := beyond (n+i) (by simp [IsAvailable,List.getElem?_eq_getElem (show n+i < coins.vout.length by omega),alive])
  omega

theorem padded_filter (coins : CCoins) {n : Nat} (beyond : ∀ p, coins.IsAvailable p = true → p < n) :
    ((coins.padded n).filter fun out => !out.IsNull) = coins.vout.filter fun out => !out.IsNull := by
  have rest : (coins.vout.drop n).filter (fun out => !out.IsNull) = [] := by
    rw [List.filter_eq_nil_iff]
    intro out member
    simp [coins.drop_null beyond out member]
  conv_rhs => rw [← List.take_append_drop n coins.vout,List.filter_append,rest]
  rw [padded,List.filter_append,List.filter_replicate_of_neg (by simp [null_IsNull])]

theorem rdropWhile_append {α : Type} {p : α → Bool} {as bs : List α} (last : ∀ b ∈ bs, p b = true) : (as ++ bs).rdropWhile p = as.rdropWhile p := by
  rw [List.rdropWhile,List.reverse_append,List.dropWhile_append_of_pos (by simpa using last)]
  rfl

theorem padded_reload (coins : CCoins) {n : Nat} (beyond : ∀ p, coins.IsAvailable p = true → p < n) :
    ((coins.padded n).map reloaded).rdropWhile CTxOut.IsNull = (coins.vout.map reloaded).rdropWhile CTxOut.IsNull := by
  conv_rhs => rw [← List.take_append_drop n coins.vout,List.map_append]
  rw [padded,List.map_append,rdropWhile_append,rdropWhile_append]
  · intro out member
    obtain ⟨other,inside,rfl⟩ := List.mem_map.mp member
    rw [reloaded_IsNull]
    exact coins.drop_null beyond other inside
  · intro out member
    obtain ⟨other,inside,rfl⟩ := List.mem_map.mp member
    rw [reloaded_IsNull,List.eq_of_mem_replicate inside,null_IsNull]

/-! ### Coins -/

/-- Coins that can be read back. -/
structure Fits (coins : CCoins) : Prop where
  nVersion : FitsInt coins.nVersion
  nHeight : coins.nHeight < 2^31
  few : coins.vout.length ≤ 2^32-16
  outs : ∀ out ∈ coins.vout, out.IsNull = false → CTxOutCompressor.Fits out

/-- With an available output past the first two some byte of the bitmask is not zero. -/
theorem mask_filled {coins : CCoins} (alive : coins.IsPruned = false) (neither : (coins.IsAvailable 0 || coins.IsAvailable 1) = false) :
    0 < coins.CalcMaskSize.2 := by
  obtain ⟨_,counted,last,_⟩ := coins.CalcMaskSize_spec
  rw [IsPruned,List.all_eq_false] at alive
  obtain ⟨out,member,unspent⟩ := alive
  obtain ⟨p,inside,rfl⟩ := List.getElem_of_mem member
  have available : coins.IsAvailable p = true := by simp [IsAvailable,List.getElem?_eq_getElem inside,unspent]
  have below := coins.available_below available
  rw [Bool.or_eq_false_iff] at neither
  have size : coins.CalcMaskSize.1 ≠ 0 := by
    intro empty
    have low : p = 0 ∨ p = 1 := by omega
    rcases low with rfl | rfl
    · rw [available] at neither
      exact absurd neither.1 (by decide)
    · rw [available] at neither
      exact absurd neither.2 (by decide)
  obtain ⟨b,equal⟩ := Nat.exists_eq_succ_of_ne_zero size
  rw [counted,List.countP_pos_iff]
  exact ⟨coins.chAvail b,List.mem_map.mpr ⟨b,List.mem_range.mpr (by omega),rfl⟩,decide_eq_true (last b equal)⟩

/-- With an available output the assertion holds; the code tells how many bytes of the
    bitmask are not zero. -/
theorem nCode_alive {coins : CCoins} (few : coins.vout.length ≤ 2^32-16) (alive : coins.IsPruned = false) :
    ∃ nCode < 2^32, coins.nCode = some nCode ∧ (nCode &&& 1 != 0) = coins.fCoinBase ∧ (nCode &&& 2 != 0) = coins.IsAvailable 0 ∧
      (nCode &&& 4 != 0) = coins.IsAvailable 1 ∧ (nCode/8+if nCode &&& 6 != 0 then 0 else 1) = coins.CalcMaskSize.2 := by
  have most := coins.CalcMaskSize_le
  have filled := mask_filled alive
  obtain ⟨base,first,second,both,count⟩ := header_parts (coins.CalcMaskSize.2-if coins.IsAvailable 0 || coins.IsAvailable 1 then 0 else 1)
    coins.fCoinBase (coins.IsAvailable 0) (coins.IsAvailable 1)
  unfold nCode
  generalize coins.CalcMaskSize.2 = nMaskCode at *
  have asserted : (coins.IsAvailable 0 || coins.IsAvailable 1 || nMaskCode != 0) = true := by
    cases either : coins.IsAvailable 0 || coins.IsAvailable 1 with
    | true => rfl
    | false =>
      have positive := filled either
      simp
      omega
  have total : 8*(nMaskCode-if coins.IsAvailable 0 || coins.IsAvailable 1 then 0 else 1)+(if coins.fCoinBase then 1 else 0)+
      (if coins.IsAvailable 0 then 2 else 0)+(if coins.IsAvailable 1 then 4 else 0) < 2^32 := by
    split <;> split <;> split <;> split <;> omega
  refine ⟨_,total,?_,base,first,second,?_⟩
  · rw [if_pos asserted,Nat.mod_eq_of_lt total]
  · rw [both,count]
    cases either : coins.IsAvailable 0 || coins.IsAvailable 1 with
    | true => simp
    | false =>
      have positive := filled either
      simp
      omega

theorem chAvail_last (coins : CCoins) : ∀ byte ∈ ((List.range coins.CalcMaskSize.1).map coins.chAvail).getLast?, byte ≠ 0 := by
  intro byte member
  have last := coins.CalcMaskSize_spec.2.2.1
  cases size : coins.CalcMaskSize.1 with
  | zero =>
    rw [size] at member
    contradiction
  | succ b =>
    rw [size,List.range_succ,List.map_append,List.map_singleton,List.getLast?_concat] at member
    rw [← Option.mem_some.mp member]
    exact last b size

/-- The header and the bitmask come back, and tell which outputs follow. -/
theorem decodes_header {coins : CCoins} (version : FitsInt coins.nVersion) (few : coins.vout.length ≤ 2^32-16) (alive : coins.IsPruned = false) :
    ∃ nCode : Nat, coins.nCode = some nCode ∧ (nCode &&& 1 != 0) = coins.fCoinBase ∧
      Decodes ReadVarInt (WriteVarInt coins.nVersion) (storedVersion coins.nVersion).toNat ∧ Decodes ReadVarInt (WriteVarInt nCode) nCode ∧
      Decodes (readMask (nCode/8+if nCode &&& 6 != 0 then 0 else 1)) ((List.range coins.CalcMaskSize.1).map coins.chAvail)
        ((List.range coins.CalcMaskSize.1).map coins.chAvail) ∧
      vAvail nCode ((List.range coins.CalcMaskSize.1).map coins.chAvail) =
        (coins.padded (2+coins.CalcMaskSize.1*8)).map fun out => !out.IsNull := by
  obtain ⟨nCode,small,code,base,first,second,count⟩ := nCode_alive few alive
  obtain ⟨low,high⟩ := version
  have header := @decodes_varInt (nCode : Int) (by omega)
  rw [storedVersion_nonneg (by omega),Int.toNat_natCast] at header
  have mask := decodes_mask coins.chAvail_last
  rw [← coins.CalcMaskSize_spec.2.1,← count] at mask
  refine ⟨nCode,code,base,decodes_varInt (by omega),header,mask,?_⟩
  rw [padded_available,vAvail,first,second,List.range_add,List.map_append,List.map_map]
  congr 1
  exact mask_available coins.IsAvailable coins.CalcMaskSize.1

/-- What is written of coins with an available output comes back as they are reloaded. -/
theorem decodes_coins {keys : KeyRules} (lawful : keys.Lawful) {coins : CCoins} (fits : coins.Fits) (alive : coins.IsPruned = false) :
    ∃ bytes loaded, coins.Serialize keys = some bytes ∧ coins.reload = some loaded ∧ Decodes (Unserialize keys) bytes loaded := by
  obtain ⟨nCode,code,base,version,header,mask,bits⟩ := decodes_header fits.nVersion fits.few alive
  obtain ⟨low,high⟩ := fits.nVersion
  have lowHeight := fits.nHeight
  have height := @decodes_varInt (coins.nHeight : Int) (by omega)
  rw [storedVersion_nonneg (by omega),Int.toNat_natCast] at height
  have beyond : ∀ p, coins.IsAvailable p = true → p < 2+coins.CalcMaskSize.1*8 := fun p => coins.available_below
  have outs := @decodes_outs keys lawful (coins.padded (2+coins.CalcMaskSize.1*8)) fun out member => by
    rcases List.mem_append.mp member with inside | past
    · exact fits.outs out (List.mem_of_mem_take inside)
    · intro unspent
      rw [List.eq_of_mem_replicate past,null_IsNull] at unspent
      contradiction
  rw [← bits,coins.padded_filter beyond] at outs
  refine ⟨_,_,by rw [Serialize,code]; rfl,by rw [reload,if_neg (by simp [alive])],?_⟩
  refine version.bind (header.bind (mask.bind (outs.bind ?_)))
  have last := height.return fun nHeight => Cleanup ⟨nCode &&& 1 != 0,(coins.padded (2+coins.CalcMaskSize.1*8)).map reloaded,nHeight,
    intOf (storedVersion coins.nVersion).toNat⟩
  have back : intOf (storedVersion coins.nVersion).toNat = storedVersion coins.nVersion := by
    have nonneg : 0 ≤ storedVersion coins.nVersion ∧ storedVersion coins.nVersion < 2^31 := by
      unfold storedVersion
      split <;> omega
    unfold intOf
    split <;> omega
  have same : Cleanup ⟨nCode &&& 1 != 0,(coins.padded (2+coins.CalcMaskSize.1*8)).map reloaded,coins.nHeight,
      intOf (storedVersion coins.nVersion).toNat⟩ = Cleanup {coins with vout := coins.vout.map reloaded,nVersion := storedVersion coins.nVersion} := by
    rw [Cleanup,Cleanup,coins.padded_reload beyond,base,back]
  rw [same] at last
  exact last

theorem Serialize_length (keys : KeyRules) (coins : CCoins) :
    coins.GetSerializeSize keys = (coins.Serialize keys).map fun bytes => bytes.length%2^32 := by
  rw [GetSerializeSize,Serialize,Option.map_map]
  congr 1
  funext nCode
  have outs : ((coins.vout.filter fun out => !out.IsNull).flatMap (CTxOutCompressor.Serialize keys)).length =
      ((coins.vout.filter fun out => !out.IsNull).map (CTxOutCompressor.GetSerializeSize keys)).sum := by
    rw [List.length_flatMap]
    congr 2
    funext out
    exact CTxOutCompressor.Serialize_length keys out
  simp only [Function.comp_apply,List.length_append,WriteVarInt_length,List.length_map,List.length_range,outs]
  congr 1
  omega

/-- Coins without available outputs are never written: the assertion ends the node. -/
theorem nCode_pruned {coins : CCoins} (pruned : coins.IsPruned = true) : coins.nCode = none := by
  have spent : ∀ p, coins.IsAvailable p = false := by
    intro p
    rw [IsPruned,List.all_eq_true] at pruned
    unfold IsAvailable
    split
    · rfl
    next out here => rw [pruned out (List.mem_of_getElem? here),Bool.not_true]
  have empty : coins.CalcMaskSize.2 = 0 := by
    obtain ⟨_,counted,last,_⟩ := coins.CalcMaskSize_spec
    rw [counted,List.countP_eq_zero]
    intro byte member
    obtain ⟨b,_,rfl⟩ := List.mem_map.mp member
    have zero : coins.chAvail b = 0 := by
      rw [← fZero_iff,fZero,List.all_eq_true]
      intro i _
      rw [spent]
      rfl
    simp [zero]
  simp [nCode,spent,empty]

/-- Unpruned coins without spent outputs at the end come back with the circuits and the
    scripts of all unspent outputs, from exactly the bytes that were written, as many as
    `GetSerializeSize` says. -/
theorem coins_round_trip {keys : KeyRules} (lawful : keys.Lawful) {coins : CCoins} (version : 0 ≤ coins.nVersion ∧ coins.nVersion < 2^31)
    (height : coins.nHeight < 2^31) (alive : coins.IsPruned = false) (trimmed : ∀ out ∈ coins.vout.getLast?, out.IsNull = false)
    (few : coins.vout.length ≤ 2^32-16) (sized : ∀ out ∈ coins.vout, out.IsNull = false → CTxOutCompressor.Fits out) :
    ∃ bytes, coins.Serialize keys = some bytes ∧
      (∀ rest, Unserialize keys (bytes ++ rest) =
        .ok ({coins with vout := coins.vout.map fun out => if out.IsNull then CTxOut.null else out.stored},rest)) ∧
      coins.GetSerializeSize keys = some (bytes.length%2^32) := by
  have fits : coins.Fits := ⟨⟨by omega,version.2⟩,height,few,sized⟩
  obtain ⟨bytes,loaded,written,reloads,read⟩ := decodes_coins lawful fits alive
  have kept : (coins.vout.map reloaded).rdropWhile CTxOut.IsNull = coins.vout.map reloaded := by
    rw [List.rdropWhile_eq_self_iff]
    intro filled spent
    have here := List.getLast?_eq_some_getLast filled
    rw [List.getLast?_map] at here
    obtain ⟨out,last,back⟩ := Option.map_eq_some_iff.mp here
    rw [← back,reloaded_IsNull,trimmed out last] at spent
    contradiction
  have same : loaded = {coins with vout := coins.vout.map reloaded} := by
    rw [reload,if_neg (by simp [alive]),storedVersion_nonneg version.1] at reloads
    rw [← Option.some.inj reloads,Cleanup]
    exact congrArg (fun vout => {coins with vout := vout}) kept
  refine ⟨bytes,written,fun rest => ?_,by rw [Serialize_length,written]; rfl⟩
  rw [read rest,same]
  rfl

private def sampleKeys : KeyRules := ⟨fun _ => false,fun _ => none⟩
private theorem sampleKeys_lawful : sampleKeys.Lawful := fun _ _ _ _ _ _ valid => absurd valid Bool.false_ne_true

private def pays (name : CashName) (fixed : Amount) : CTxOut := ⟨⟨(∅ : CashStruct).insert name 5,fixed⟩,[1,2]⟩

/-- An unspent, a spent and another unspent output. -/
theorem coins_round_trip_gap :
    ∃ bytes, Serialize sampleKeys ⟨true,[pays [69] 0,CTxOut.null,pays [71] 0],7,2⟩ = some bytes ∧
      (∀ rest, Unserialize sampleKeys (bytes ++ rest) = .ok (⟨true,[pays [69] 0,CTxOut.null,pays [71] 0],7,2⟩,rest)) ∧
      GetSerializeSize sampleKeys ⟨true,[pays [69] 0,CTxOut.null,pays [71] 0],7,2⟩ = some (bytes.length%2^32) :=
  @coins_round_trip sampleKeys sampleKeys_lawful ⟨true,[pays [69] 0,CTxOut.null,pays [71] 0],7,2⟩ (by decide) (by decide) (by decide) (by decide)
    (by decide) (by decide)

/-! ### What is too large to be read -/

theorem fails_name {name : CashName} (long : MAX_SIZE < name.length) (short : name.length < 2^64) : Fails readBytes (bytesForm name) := by
  have size : Fails ReadCompactSize (WriteCompactSize name.length) := by
    rw [← List.append_nil (WriteCompactSize name.length)]
    refine (decodes_size short).fails fun rest => ?_
    rw [if_pos long]
    exact ⟨_,rfl⟩
  exact size.bind _ _

theorem fails_cash {x : Cash} {name : CashName} {amount : Amount} (only : x.locals.toList = [(name,amount)]) (long : MAX_SIZE < name.length)
    (short : name.length < 2^64) : Fails Cash.Unserialize x.Serialize := by
  have sized : x.locals.size = 1 := by rw [← Std.ExtTreeMap.length_toList,only,List.length_singleton]
  have entry : Fails readMoney (moneyForm (name,amount)) := (fails_name long short).bind _ _
  have entries : Fails (many readMoney 1) (moneyForm (name,amount) ++ []) := entry.bind _ _
  have vector : Fails (readVector readMoney) (WriteCompactSize 1 ++ (moneyForm (name,amount) ++ [])) := (decodes_compactSize (by decide)).fails entries
  rw [Cash.Serialize,CashStruct.Serialize,sized,only,List.flatMap_singleton]
  rw [List.append_nil] at vector
  have all := (vector.bind (fun entries => pure (entries.foldl (fun m e => m.insertIfNew e.1 e.2) (∅ : CashStruct))) []).bind
    (fun locals => pure (⟨locals,0⟩ : Cash)) []
  rw [List.append_nil,List.append_nil] at all
  exact all

/-- One output with a single circuit whose name is too long. -/
theorem fails_coins (keys : KeyRules) {coins : CCoins} {name : CashName} {amount : Amount} {out : CTxOut} (version : FitsInt coins.nVersion)
    (single : coins.vout = [out]) (only : out.nValue.locals.toList = [(name,amount)]) (long : MAX_SIZE < name.length)
    (short : name.length < 2^64) : ∃ bytes, coins.Serialize keys = some bytes ∧ Fails (Unserialize keys) bytes := by
  have unspent : out.IsNull = false := by
    rw [CTxOut.IsNull,Cash.size,← Std.ExtTreeMap.length_toList,only]
    rfl
  have few : coins.vout.length ≤ 2^32-16 := by rw [single,List.length_singleton]; decide
  have alive : coins.IsPruned = false := by simp [IsPruned,single,unspent]
  obtain ⟨nCode,code,_,number,header,mask,bits⟩ := decodes_header version few alive
  have first : (coins.padded (2+coins.CalcMaskSize.1*8)).map (fun out => !out.IsNull) =
      true :: (List.replicate (2+coins.CalcMaskSize.1*8-1) CTxOut.null).map fun out => !out.IsNull := by
    rw [padded,single,List.take_of_length_le (by rw [List.length_singleton]; omega),List.map_append,List.map_singleton,unspent]
    rfl
  have written : (coins.vout.filter fun out => !out.IsNull).flatMap (CTxOutCompressor.Serialize keys) = CTxOutCompressor.Serialize keys out := by
    rw [single,List.filter_cons_of_pos (by simp [unspent]),List.filter_nil,List.flatMap_singleton]
  refine ⟨_,by rw [Serialize,code]; rfl,number.fails (header.fails (mask.fails ?_))⟩
  rw [bits,first,written]
  have output : Fails (CTxOutCompressor.Unserialize keys) (CTxOutCompressor.Serialize keys out) := (fails_cash only long short).bind _ _
  have outs := output.bind (fun out => do
    let vout ← readOuts keys ((List.replicate (2+coins.CalcMaskSize.1*8-1) CTxOut.null).map fun out => !out.IsNull)
    return out :: vout) []
  rw [List.append_nil] at outs
  exact outs.bind _ _

/-- A circuit-free amount is not written; and an output with a name longer than
    `MAX_SIZE` is written but cannot be read. -/
theorem coins_not_read :
    (∃ bytes loaded, Serialize sampleKeys ⟨false,[pays [69] 1],7,2⟩ = some bytes ∧ Unserialize sampleKeys bytes = .ok (loaded,[]) ∧
      loaded ≠ ⟨false,[pays [69] 1],7,2⟩) ∧
    ∃ bytes e, Serialize sampleKeys ⟨false,[pays (List.replicate (MAX_SIZE+1) 69) 0],7,2⟩ = some bytes ∧
      Unserialize sampleKeys bytes = .error e := by
  constructor
  · obtain ⟨bytes,loaded,written,reloads,read⟩ := @decodes_coins sampleKeys sampleKeys_lawful ⟨false,[pays [69] 1],7,2⟩
      ⟨⟨by decide,by decide⟩,by decide,by decide,by decide⟩ (by decide)
    have whole := read []
    rw [List.append_nil] at whole
    refine ⟨bytes,loaded,written,whole,?_⟩
    rintro rfl
    exact absurd reloads (by decide)
  · have long : (List.replicate (MAX_SIZE+1) (69 : UInt8)).length = MAX_SIZE+1 := List.length_replicate
    have small : MAX_SIZE+1 < 2^64 := by decide
    obtain ⟨bytes,written,fails⟩ := @fails_coins sampleKeys ⟨false,[pays (List.replicate (MAX_SIZE+1) 69) 0],7,2⟩ (List.replicate (MAX_SIZE+1) 69) 5
      (pays (List.replicate (MAX_SIZE+1) 69) 0) ⟨by decide,by decide⟩ rfl rfl (by rw [long]; exact Nat.lt_succ_self _) (by rw [long]; exact small)
    obtain ⟨e,stopped⟩ := fails []
    rw [List.append_nil] at stopped
    exact ⟨bytes,e,written,stopped⟩

end CCoins

end Tetra
