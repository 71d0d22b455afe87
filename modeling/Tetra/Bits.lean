import Mathlib

/-!
The bits of a byte, read and set with masks, and rows of bits packed eight to a byte, the
least significant first.
-/
namespace Tetra.Bits

def mask (p : Nat) : UInt8 := 1 <<< UInt8.ofNat p

def bitAt (byte : UInt8) (p : Nat) : Bool := byte &&& mask p != 0

/-- A bit of a row of bytes. -/
def readBit (bytes : List UInt8) (p : Nat) : Bool := bitAt (bytes[p/8]?.getD 0) (p%8)

def orBit (bytes : List UInt8) (p : Nat) (on : Bool) : List UInt8 := bytes.modify (p/8) (· ||| (on.toUInt8 <<< UInt8.ofNat (p%8)))

def pack (bits : List Bool) : List UInt8 :=
  (List.range bits.length).foldl (fun bytes p => orBit bytes p (bits[p]?.getD false)) (List.replicate ((bits.length+7)/8) 0)

def unpack (bytes : List UInt8) : List Bool := (List.range (bytes.length*8)).map (readBit bytes)

/-- The byte with the bits of a function. -/
def fill (f : Nat → Bool) : UInt8 := (List.range 8).foldl (fun byte i => if f i then byte ||| mask i else byte) 0

/-! ### One byte -/

theorem mask_toNat {p : Nat} (small : p < 8) : (mask p).toNat = 2^p := by
  have fits : 2^p < 2^8 := Nat.pow_lt_pow_right (by decide) small
  rw [mask,UInt8.toNat_shiftLeft,UInt8.toNat_ofNat']
  simp only [UInt8.reduceToNat]
  rw [Nat.mod_eq_of_lt (by omega : p < 2^8),Nat.mod_eq_of_lt small,Nat.one_shiftLeft,Nat.mod_eq_of_lt fits]

theorem bitAt_eq {byte : UInt8} {p : Nat} (small : p < 8) : bitAt byte p = byte.toNat.testBit p := by
  have value : (byte &&& mask p).toNat = (byte.toNat.testBit p).toNat*2^p := by
    rw [UInt8.toNat_and,mask_toNat small,Nat.and_two_pow]
  rw [bitAt,Bool.eq_iff_iff,bne_iff_ne,Ne,← UInt8.toNat_inj,value]
  cases byte.toNat.testBit p
  · simp
  · simp

@[simp] theorem bitAt_zero (p : Nat) : bitAt 0 p = false := by simp [bitAt]

theorem bitAt_or {byte other : UInt8} {p : Nat} (small : p < 8) : bitAt (byte ||| other) p = (bitAt byte p || bitAt other p) := by
  rw [bitAt_eq small,bitAt_eq small,bitAt_eq small,UInt8.toNat_or,Nat.testBit_or]

theorem bitAt_mask {p q : Nat} (small : p < 8) (small' : q < 8) : bitAt (mask p) q = decide (p = q) := by
  rw [bitAt_eq small',mask_toNat small,Nat.testBit_two_pow]

theorem bitAt_shifted {p q : Nat} (on : Bool) (small : p < 8) (small' : q < 8) :
    bitAt (on.toUInt8 <<< UInt8.ofNat p) q = (on && decide (p = q)) := by
  cases on with
  | false => simp [Bool.toUInt8]
  | true => exact bitAt_mask small small'

private theorem filling (f : Nat → Bool) (k : Nat) (most : k ≤ 8) {q : Nat} (small : q < 8) :
    bitAt ((List.range k).foldl (fun byte i => if f i then byte ||| mask i else byte) 0) q = (decide (q < k) && f q) := by
  induction k with
  | zero => simp
  | succ k ih =>
    have before := ih (by omega)
    rw [List.range_succ,List.foldl_append,List.foldl_cons,List.foldl_nil]
    rcases Nat.lt_trichotomy q k with less | rfl | more
    · have later : q < k+1 := by omega
      cases f k <;> simp [bitAt_or,bitAt_mask,before,small,less,less.ne',later,show k < 8 by omega]
    · cases on : f q <;> simp [bitAt_or,bitAt_mask,before,small,on]
    · have later : ¬q < k+1 := by omega
      cases f k <;> simp [bitAt_or,bitAt_mask,before,small,more.ne,later,show ¬q < k by omega,show k < 8 by omega]

theorem bitAt_fill (f : Nat → Bool) {q : Nat} (small : q < 8) : bitAt (fill f) q = f q := by
  refine (filling f 8 le_rfl small).trans ?_
  simp [small]

theorem fill_ne_zero (f : Nat → Bool) : fill f ≠ 0 ↔ ∃ q < 8, f q = true := by
  constructor
  · intro filled
    by_contra off
    push Not at off
    have empty : ∀ k ≤ 8, (List.range k).foldl (fun byte i => if f i then byte ||| mask i else byte) 0 = (0 : UInt8) := by
      intro k most
      induction k with
      | zero => rfl
      | succ k ih =>
        rw [List.range_succ,List.foldl_append,List.foldl_cons,List.foldl_nil,ih (by omega),if_neg (off k (by omega))]
    exact filled (empty 8 le_rfl)
  · rintro ⟨q,small,on⟩ zero
    have bit := bitAt_fill f small
    rw [zero,bitAt_zero,on] at bit
    contradiction

/-! ### Rows -/

@[simp] theorem orBit_length (bytes : List UInt8) (p : Nat) (on : Bool) : (orBit bytes p on).length = bytes.length := by
  rw [orBit,List.length_modify]

theorem readBit_orBit {bytes : List UInt8} {p : Nat} (on : Bool) (q : Nat) (within : p/8 < bytes.length) :
    readBit (orBit bytes p on) q = (readBit bytes q || (on && decide (p = q))) := by
  have small : p%8 < 8 := Nat.mod_lt _ (by decide)
  have small' : q%8 < 8 := Nat.mod_lt _ (by decide)
  unfold readBit orBit
  rw [List.getElem?_modify]
  by_cases same : p/8 = q/8
  · have place : bytes[q/8]? = some bytes[q/8] := List.getElem?_eq_getElem (same ▸ within)
    have equal : p%8 = q%8 ↔ p = q := by omega
    simp only [place,if_pos same,Option.map_eq_map,Option.map_some,Option.getD_some]
    rw [bitAt_or small',bitAt_shifted on small small',decide_eq_decide.mpr equal]
  · have apart : p ≠ q := fun equal => same (by rw [equal])
    simp [same,apart]

/-- Setting bits one by one: after some of them, these read as they should and no other is set. -/
private theorem packing (bits : List Bool) (k : Nat) (most : k ≤ bits.length) :
    ((List.range k).foldl (fun bytes p => orBit bytes p (bits[p]?.getD false)) (List.replicate ((bits.length+7)/8) 0)).length =
        (bits.length+7)/8 ∧
      ∀ q, readBit ((List.range k).foldl (fun bytes p => orBit bytes p (bits[p]?.getD false)) (List.replicate ((bits.length+7)/8) 0)) q =
        (decide (q < k) && bits[q]?.getD false) := by
  induction k with
  | zero =>
    refine ⟨by simp,fun q => ?_⟩
    by_cases within : q/8 < (bits.length+7)/8
    · simp [readBit,within]
    · simp [readBit,within]
  | succ k ih =>
    obtain ⟨sized,read⟩ := ih (by omega)
    rw [List.range_succ,List.foldl_append,List.foldl_cons,List.foldl_nil]
    refine ⟨by rw [orBit_length,sized],fun q => ?_⟩
    rw [readBit_orBit _ _ (by omega),read q]
    rcases Nat.lt_trichotomy q k with less | rfl | more
    · simp [less,Nat.lt_succ_of_lt less,less.ne']
    · simp
    · simp [more.ne,show ¬q < k by omega,show ¬q < k+1 by omega]

@[simp] theorem pack_length (bits : List Bool) : (pack bits).length = (bits.length+7)/8 := (packing bits bits.length le_rfl).1

theorem readBit_pack (bits : List Bool) (q : Nat) : readBit (pack bits) q = bits[q]?.getD false := by
  refine ((packing bits bits.length le_rfl).2 q).trans ?_
  by_cases within : q < bits.length
  · simp [within]
  · simp [within]

/-- What is read back is what was packed, and zeros up to the end of the last byte. -/
theorem unpack_pack (bits : List Bool) : unpack (pack bits) = bits ++ List.replicate ((bits.length+7)/8*8-bits.length) false := by
  refine List.ext_getElem (by simp [unpack]; omega) fun q inside inside' => ?_
  have read : (unpack (pack bits)).get ⟨q,inside⟩ = bits[q]?.getD false := by simp [unpack,readBit_pack]
  refine read.trans ?_
  rw [List.getElem_append]
  split
  next within => rw [List.getElem?_eq_getElem within,Option.getD_some]
  next outside => rw [List.getElem?_eq_none (Nat.le_of_not_lt outside),List.getElem_replicate,Option.getD_none]

end Tetra.Bits
