import Mathlib
import Tetra.Codec

/-!
Numbers in digits of any base, the most significant first: leading zeros do not count, and
the others are told by the value. Bytes are such digits.
-/
namespace Tetra.Positional
open Codec

def value (B : Nat) (ds : List Nat) : Nat := Nat.ofDigits B ds.reverse

@[simp] theorem value_nil (B : Nat) : value B [] = 0 := rfl

theorem value_concat (B : Nat) (ds : List Nat) (d : Nat) : value B (ds ++ [d]) = value B ds*B+d := by
  rw [value,List.reverse_concat,Nat.ofDigits_cons,Nat.add_comm,Nat.mul_comm]
  rfl

theorem value_zeros (B n : Nat) (ds : List Nat) : value B (List.replicate n 0 ++ ds) = value B ds := by
  rw [value,List.reverse_append,List.reverse_replicate,Nat.ofDigits_append_replicate_zero]
  rfl

/-- What is left without the leading zeros are the digits of the value. -/
theorem digits_value {B : Nat} (base : 1 < B) {ds : List Nat} (small : ∀ d ∈ ds, d < B) : (Nat.digits B (value B ds)).reverse = ds.dropWhile (· = 0) := by
  induction ds with
  | nil => simp
  | cons d ds ih =>
    have smallRest : ∀ d ∈ ds, d < B := fun d member => small d (List.mem_cons_of_mem _ member)
    by_cases zero : d = 0
    · subst zero
      have same : value B (0 :: ds) = value B ds := value_zeros B 1 ds
      rw [same,ih smallRest,List.dropWhile_cons_of_pos (by simp)]
    · have last : ∀ h : (d :: ds).reverse ≠ [], (d :: ds).reverse.getLast h ≠ 0 := by
        intro h
        simpa using zero
      rw [value,Nat.digits_ofDigits B base _ (fun d member => small d (List.mem_reverse.mp member)) last,List.reverse_reverse,
        List.dropWhile_cons_of_neg (by simpa using zero)]

theorem takeWhile_eq_replicate {α : Type*} [DecidableEq α] (a : α) (l : List α) : l.takeWhile (· = a) = List.replicate (l.takeWhile (· = a)).length a := by
  apply List.eq_replicate_of_mem
  intro b member
  simpa using List.mem_takeWhile_imp member

def zeros (ds : List Nat) : Nat := (ds.takeWhile (· = 0)).length

/-- Digits are their leading zeros and the digits of their value. -/
theorem eq_zeros_append {B : Nat} (base : 1 < B) {ds : List Nat} (small : ∀ d ∈ ds, d < B) :
    ds = List.replicate (zeros ds) 0 ++ (Nat.digits B (value B ds)).reverse := by
  have front : ds.takeWhile (· = 0) = List.replicate (zeros ds) 0 := takeWhile_eq_replicate 0 ds
  rw [digits_value base small,← front,List.takeWhile_append_dropWhile]

theorem value_digits (B n : Nat) : value B (Nat.digits B n).reverse = n := by
  rw [value,List.reverse_reverse,Nat.ofDigits_digits]

/-- The first digit of a number is none of the zeros. -/
theorem zeros_digits (B k n : Nat) : zeros (List.replicate k 0 ++ (Nat.digits B n).reverse) = k := by
  have none : ((Nat.digits B n).reverse).takeWhile (· = 0) = [] := by
    cases digits : (Nat.digits B n).reverse with
    | nil => rfl
    | cons d ds =>
      have positive : n ≠ 0 := by
        rintro rfl
        simp at digits
      have reversed : Nat.digits B n = ds.reverse ++ [d] := by rw [← List.reverse_reverse (Nat.digits B n),digits,List.reverse_cons]
      have nonzero := Nat.getLast_digit_ne_zero B positive
      simp only [reversed,List.getLast_append_singleton] at nonzero
      exact List.takeWhile_cons_of_neg (by simpa using nonzero)
  rw [zeros,List.takeWhile_append_of_pos (by simp),none,List.append_nil,List.length_replicate]

/-- The same number in digits of another base, with as many zeros in front. -/
def rebase (B C : Nat) (ds : List Nat) : List Nat := List.replicate (zeros ds) 0 ++ (Nat.digits C (value B ds)).reverse

theorem zeros_rebase (B C : Nat) (ds : List Nat) : zeros (rebase B C ds) = zeros ds := zeros_digits ..

theorem value_rebase (B C : Nat) (ds : List Nat) : value C (rebase B C ds) = value B ds := by
  rw [rebase,value_zeros,value_digits]

theorem rebase_rebase {B : Nat} (base : 1 < B) (C : Nat) {ds : List Nat} (small : ∀ d ∈ ds, d < B) : rebase C B (rebase B C ds) = ds := by
  rw [rebase,zeros_rebase,value_rebase,← eq_zeros_append base small]

theorem rebase_lt {C : Nat} (base : 1 < C) (B : Nat) (ds : List Nat) : ∀ d ∈ rebase B C ds, d < C := by
  intro d member
  rw [rebase,List.mem_append,List.mem_replicate,List.mem_reverse] at member
  rcases member with ⟨-,rfl⟩ | digit
  · exact Nat.zero_lt_of_lt base
  · exact Nat.digits_lt_base base digit

/-! ### Bytes -/

/-- The bytes of a number, the least significant first, without a zero at the end. -/
def bytesOf (n : Nat) : List UInt8 := (Nat.digits 256 n).map UInt8.ofNat

theorem leNat_eq_ofDigits (bytes : List UInt8) : leNat bytes = Nat.ofDigits 256 (bytes.map UInt8.toNat) := by
  induction bytes with
  | nil => rfl
  | cons byte bytes ih => rw [leNat,List.map_cons,Nat.ofDigits_cons,ih]

theorem leNat_reverse (bytes : List UInt8) : leNat bytes.reverse = value 256 (bytes.map UInt8.toNat) := by
  rw [leNat_eq_ofDigits,List.map_reverse,value]

theorem toNat_ofNat {ds : List Nat} (small : ∀ d ∈ ds, d < 256) : (ds.map UInt8.ofNat).map UInt8.toNat = ds := by
  rw [List.map_map]
  conv_rhs => rw [← List.map_id ds]
  apply List.map_congr_left
  intro d member
  exact UInt8.toNat_ofNat_of_lt' (show d < 256 from small d member)

theorem bytesOf_toNat (n : Nat) : (bytesOf n).map UInt8.toNat = Nat.digits 256 n :=
  toNat_ofNat fun _ member => Nat.digits_lt_base (by omega) member

theorem leNat_bytesOf (n : Nat) : leNat (bytesOf n) = n := by
  rw [leNat_eq_ofDigits,bytesOf_toNat,Nat.ofDigits_digits]

theorem toNat_lt_of_mem {bytes : List UInt8} : ∀ d ∈ bytes.map UInt8.toNat, d < 256 := by
  intro d member
  obtain ⟨byte,_,rfl⟩ := List.mem_map.mp member
  exact byte.toNat_lt

private theorem zero_toNat : ((fun d : Nat => decide (d = 0)) ∘ UInt8.toNat) = fun byte : UInt8 => decide (byte = 0) := by
  funext byte
  simp [← UInt8.toNat_inj]

theorem zeros_toNat (bytes : List UInt8) : zeros (bytes.map UInt8.toNat) = (bytes.takeWhile (· = 0)).length := by
  rw [zeros,List.takeWhile_map,List.length_map,zero_toNat]

/-- Bytes without their leading zeros are those of their value. -/
theorem bytesOf_leNat (bytes : List UInt8) : (bytesOf (leNat bytes.reverse)).reverse = bytes.dropWhile (· = 0) := by
  have back : UInt8.ofNat ∘ UInt8.toNat = id := by
    funext byte
    exact UInt8.ofNat_toNat
  rw [bytesOf,← List.map_reverse,leNat_reverse,digits_value (by omega) toNat_lt_of_mem,List.dropWhile_map,zero_toNat,List.map_map,back,List.map_id]

theorem bytesOf_first {n : Nat} {first : UInt8} {rest : List UInt8} (bytes : (bytesOf n).reverse = first :: rest) : first ≠ 0 := by
  rintro rfl
  have same := bytesOf_leNat (bytesOf n).reverse
  rw [List.reverse_reverse,leNat_bytesOf,bytes,List.dropWhile_cons_of_pos (by simp)] at same
  have shorter := (List.dropWhile_sublist (l := rest) (· = 0)).length_le
  rw [← same,List.length_cons] at shorter
  omega

/-- Bytes are their leading zeros and those of their value. -/
theorem bytes_eq (bytes : List UInt8) : bytes = List.replicate (bytes.takeWhile (· = 0)).length 0 ++ (bytesOf (leNat bytes.reverse)).reverse := by
  rw [bytesOf_leNat,← takeWhile_eq_replicate,List.takeWhile_append_dropWhile]

theorem leNat_append (front back : List UInt8) : leNat (front ++ back) = leNat front+256^front.length*leNat back := by
  rw [leNat_eq_ofDigits,leNat_eq_ofDigits,leNat_eq_ofDigits,List.map_append,Nat.ofDigits_append,List.length_map]

theorem leNat_lt (bytes : List UInt8) : leNat bytes < 256^bytes.length := by
  induction bytes with
  | nil => simp [leNat]
  | cons byte bytes ih =>
    have small := byte.toNat_lt
    rw [leNat,List.length_cons,Nat.pow_succ]
    omega

theorem leNat_take (bytes : List UInt8) (k : Nat) : leNat (bytes.take k) = leNat bytes % 256^k := by
  by_cases short : bytes.length ≤ k
  · rw [List.take_of_length_le short,Nat.mod_eq_of_lt ((leNat_lt bytes).trans_le (Nat.pow_le_pow_right (by omega) short))]
  · have length : (bytes.take k).length = k := by
      rw [List.length_take]
      omega
    have low := leNat_lt (bytes.take k)
    rw [length] at low
    conv_rhs => rw [← List.take_append_drop k bytes,leNat_append,length,Nat.add_mul_mod_self_left,Nat.mod_eq_of_lt low]

theorem bytesOf_length_le {n k : Nat} (small : n < 256^k) : (bytesOf n).length ≤ k := by
  rw [bytesOf,List.length_map]
  exact (Nat.digits_length_le_iff (by omega) n).mpr small

/-! ### Sign and magnitude -/

/-- The first bytes of a magnitude with the sign in the highest bit, where there is room. -/
def signed (negative : Bool) : List UInt8 → List UInt8
  | [] => []
  | first :: rest =>
    let sign : UInt8 := if negative then 0x80 else 0
    if first &&& 0x80 ≠ 0 then sign :: first :: rest else (first ||| sign) :: rest

def magnitude : List UInt8 → Nat
  | [] => 0
  | first :: rest => leNat ((first &&& 0x7f) :: rest).reverse

def negative : List UInt8 → Bool
  | [] => false
  | first :: _ => first &&& 0x80 ≠ 0

/-- What bytes with a sign stand for, the most significant first. -/
def signedValue (bytes : List UInt8) : Int := if negative bytes then -magnitude bytes else magnitude bytes

/-- A number in as few bytes as there is room for the sign. -/
def signedBytes (x : Int) : List UInt8 := signed (decide (x < 0)) (bytesOf x.natAbs).reverse

private theorem sign_bits : ∀ b : Fin 256, let b := UInt8.ofNat b
    (b &&& 0x7f) &&& 0x80 = 0 ∧ (b &&& 0x80 = 0 → b &&& 0x7f = b ∧ b ||| 0 = b ∧ (b ||| 0x80) &&& 0x7f = b ∧ (b ||| 0x80) &&& 0x80 ≠ 0) ∧
      (b &&& 0x80 ≠ 0 → (b &&& 0x7f) ||| 0x80 = b) := by decide +kernel

theorem sign_bit (b : UInt8) :
    (b &&& 0x7f) &&& 0x80 = 0 ∧ (b &&& 0x80 = 0 → b &&& 0x7f = b ∧ b ||| 0 = b ∧ (b ||| 0x80) &&& 0x7f = b ∧ (b ||| 0x80) &&& 0x80 ≠ 0) ∧
      (b &&& 0x80 ≠ 0 → (b &&& 0x7f) ||| 0x80 = b) := by
  have bits := sign_bits ⟨b.toNat,b.toNat_lt⟩
  simpa only [UInt8.ofNat_toNat] using bits

theorem magnitude_signed (sign : Bool) (bytes : List UInt8) : magnitude (signed sign bytes) = leNat bytes.reverse := by
  cases bytes with
  | nil => rfl
  | cons first rest =>
    by_cases top : first &&& 0x80 = 0
    · obtain ⟨clear,none,set,-⟩ := (sign_bit first).2.1 top
      rw [signed,if_neg (by simpa using top),magnitude]
      cases sign
      · rw [if_neg (by simp),none,clear]
      · rw [if_pos rfl,set]
    · rw [signed,if_pos top,magnitude,List.reverse_cons,leNat_append]
      cases sign <;> simp [leNat]

theorem negative_signed (sign : Bool) {bytes : List UInt8} (some : bytes ≠ []) : negative (signed sign bytes) = sign := by
  cases bytes with
  | nil => contradiction
  | cons first rest =>
    by_cases top : first &&& 0x80 = 0
    · obtain ⟨-,none,-,set⟩ := (sign_bit first).2.1 top
      rw [signed,if_neg (by simpa using top),negative]
      cases sign
      · rw [if_neg (by simp),none]
        simpa using top
      · rw [if_pos rfl]
        simpa using set
    · rw [signed,if_pos top,negative]
      cases sign <;> decide

theorem signed_length_le (sign : Bool) (bytes : List UInt8) : (signed sign bytes).length ≤ bytes.length+1 := by
  cases bytes with
  | nil => simp [signed]
  | cons first rest =>
    rw [signed]
    split <;> simp

theorem bytesOf_eq_nil {n : Nat} : bytesOf n = [] ↔ n = 0 := by
  rw [bytesOf,List.map_eq_nil_iff,Nat.digits_eq_nil_iff_eq_zero]

theorem magnitude_signedBytes (x : Int) : magnitude (signedBytes x) = x.natAbs := by
  rw [signedBytes,magnitude_signed,List.reverse_reverse,leNat_bytesOf]

theorem signedValue_signedBytes (x : Int) : signedValue (signedBytes x) = x := by
  by_cases zero : x = 0
  · subst zero
    rfl
  · have some : (bytesOf x.natAbs).reverse ≠ [] := by
      rw [Ne,List.reverse_eq_nil_iff,bytesOf_eq_nil]
      omega
    rw [signedValue,magnitude_signedBytes,signedBytes,negative_signed _ some]
    by_cases below : x < 0
    · rw [if_pos (decide_eq_true below)]
      omega
    · rw [if_neg (by simpa using below)]
      omega

/-- Nothing shorter stands for a number, and nothing else of that length. -/
theorem signedBytes_shortest (bytes : List UInt8) :
    (signedBytes (signedValue bytes)).length ≤ bytes.length ∧
      (bytes.length = (signedBytes (signedValue bytes)).length → bytes = signedBytes (signedValue bytes)) := by
  cases bytes with
  | nil => exact ⟨le_rfl,fun _ => rfl⟩
  | cons first rest =>
    obtain ⟨clear,low,high⟩ := sign_bit first
    have parts := bytes_eq ((first &&& 0x7f) :: rest)
    have absolute : (signedValue (first :: rest)).natAbs = leNat ((first &&& 0x7f) :: rest).reverse := by
      rw [signedValue,magnitude]
      split <;> simp
    rw [signedBytes,absolute]
    revert parts
    cases digits : (bytesOf (leNat ((first &&& 0x7f) :: rest).reverse)).reverse with
    | nil =>
      intro _
      rw [signed]
      exact ⟨Nat.zero_le _,fun same => by simp at same⟩
    | cons digit digits =>
      have positive : 0 < leNat ((first &&& 0x7f) :: rest).reverse := by
        apply Nat.pos_of_ne_zero
        intro zero
        rw [zero] at digits
        simp [bytesOf] at digits
      have below : signedValue (first :: rest) < 0 ↔ first &&& 0x80 ≠ 0 := by
        rw [signedValue,magnitude,negative]
        split <;> simp_all
      have sign : (first &&& 0x7f) ||| (if decide (signedValue (first :: rest) < 0) then 0x80 else 0) = first := by
        by_cases top : first &&& 0x80 = 0
        · rw [if_neg (by simpa [below] using top),(low top).1,(low top).2.1]
        · rw [if_pos (by simpa [below] using top),high top]
      cases ((first &&& 0x7f) :: rest).takeWhile (· = 0) |>.length with
      | zero =>
        intro parts
        rw [List.replicate_zero,List.nil_append] at parts
        obtain ⟨rfl,rfl⟩ := List.cons.inj parts
        rw [signed,if_neg (by simpa using clear)]
        exact ⟨le_rfl,fun _ => by rw [sign]⟩
      | succ zeros =>
        intro parts
        rw [List.replicate_succ,List.cons_append] at parts
        obtain ⟨zero,tail⟩ := List.cons.inj parts
        have length := congrArg List.length tail
        rw [List.length_append,List.length_replicate] at length
        rw [signed]
        split
        · refine ⟨by simp only [List.length_cons] at length ⊢; omega,fun same => ?_⟩
          have none : zeros = 0 := by
            simp only [List.length_cons] at length same
            omega
          rw [zero,UInt8.zero_or] at sign
          rw [none,List.replicate_zero,List.nil_append] at tail
          rw [sign,tail]
        · simp only [List.length_cons] at length ⊢
          exact ⟨by omega,fun same => by omega⟩

end Tetra.Positional
