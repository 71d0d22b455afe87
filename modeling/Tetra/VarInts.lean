import Mathlib
import Tetra.Buffer
import Tetra.CompactForms

/-!
Variable-length numbers of any unsigned type: the writer stays inside its array, the
reader takes back what was written, and no number is read from two texts of digits.
-/
namespace Tetra
open Codec Buffer

/-- The digits of a number of type `I` in `tmp`, and the index of the last one. -/
def collectDigits (tmp : Cells UInt8) (len n : Nat) : Option (Cells UInt8 × Nat) :=
  match memcpy tmp len [varIntDigit n (len ≠ 0)] with
  | none => none
  | some tmp => if n ≤ 0x7F then some (tmp,len) else collectDigits tmp (len+1) ((n >>> 7)-1)
termination_by n
decreasing_by
  rw [Nat.shiftRight_eq_div_pow]
  omega

/-- `WriteVarInt` with `tmp[(sizeof(n)*8+6)/7]`, which holds anything at first. -/
def WriteVarIntOf (sizeof : Nat) (memory : Nat → UInt8) (n : Nat) : Option (List UInt8) := do
  let (tmp,len) ← collectDigits (alloc ((sizeof*8+6)/7)) 0 n
  let digits ← read memory tmp (len+1)
  return digits.reverse

/-- Reading goes on with the number so far. -/
def readVarIntOf (sizeof : Nat) : Nat → Unserializer Nat
  | _, [] => .error "CDataStream::read() : end of data"
  | n, chData :: rest =>
    let n := (n <<< 7 ||| (chData &&& 0x7F).toNat)%2^(8*sizeof)
    if chData &&& 0x80 ≠ 0 then readVarIntOf sizeof ((n+1)%2^(8*sizeof)) rest else .ok (n,rest)

def ReadVarIntOf (sizeof : Nat) : Unserializer Nat := readVarIntOf sizeof 0

/-- No digit that is read takes the number out of its type. -/
def NoOverflow (sizeof : Nat) : Nat → List UInt8 → Prop
  | _, [] => True
  | n, chData :: rest =>
    let n := n*128+(chData &&& 0x7F).toNat
    n < 2^(8*sizeof) ∧ (chData &&& 0x80 ≠ 0 → n+1 < 2^(8*sizeof) ∧ NoOverflow sizeof (n+1) rest)

theorem readVarIntOf_four (n : Nat) (bytes : List UInt8) : readVarIntOf 4 n bytes = readVarInt n bytes := by
  induction bytes generalizing n with
  | nil => rfl
  | cons chData rest ih =>
    simp only [readVarIntOf,readVarInt,ih]

variable {sizeof : Nat}

/-! ### Writing -/

/-- A number over `0x7F` goes on with a smaller one. -/
theorem varIntDigits_more {n : Nat} (large : 0x7F < n) (more : Bool) :
    varIntDigits n more = varIntDigit n more :: varIntDigits ((n >>> 7-1 : Nat) : Int) true := by
  rw [varIntDigits,if_neg (by omega)]
  congr 2
  rw [Int.shiftRight_eq_div_pow,Nat.shiftRight_eq_div_pow]
  omega

/-- So many digits take a number that has as many times seven bits less one. -/
theorem varIntDigits_room {n : Nat} (more : Bool) {k : Nat} (fits : n < 2^(7*k)) (pos : 0 < k) : (varIntDigits n more).length ≤ k := by
  induction k generalizing n more with
  | zero => omega
  | succ k ih =>
    by_cases small : n ≤ 0x7F
    · rw [varIntDigits,if_pos (by omega)]
      simp
    · have power : 2^(7*(k+1)) = 2^(7*k)*128 := by rw [Nat.mul_succ,Nat.pow_add]
      have less : n >>> 7-1 < 2^(7*k) := by
        rw [Nat.shiftRight_eq_div_pow]
        omega
      have some' : 0 < k := by
        by_contra none'
        obtain rfl : k = 0 := by omega
        omega
      rw [varIntDigits_more (by omega),List.length_cons]
      exact Nat.succ_le_succ (ih true less some')

/-- The loop appends its digits to those it has, as long as there is room. -/
theorem collectDigits_eq {digits : List UInt8} {room n : Nat} (fits : (varIntDigits n (digits.length ≠ 0)).length ≤ room) :
    ∃ rest, collectDigits (digits.map some ++ alloc room) digits.length n =
      some ((digits ++ varIntDigits n (digits.length ≠ 0)).map some ++ rest,(digits ++ varIntDigits n (digits.length ≠ 0)).length-1) := by
  induction n using Nat.strongRecOn generalizing digits room with
  | ind n ih =>
    have copied : memcpy (digits.map some ++ alloc room) digits.length [varIntDigit n (digits.length ≠ 0)] =
        some ((digits ++ [varIntDigit n (digits.length ≠ 0)]).map some ++ alloc (room-1)) := by
      have filled : 1 ≤ room := by
        refine le_trans ?_ fits
        rw [varIntDigits]
        split <;> simp
      have written := @memcpy_append UInt8 (digits.map some) (alloc room) [varIntDigit n (digits.length ≠ 0)] (by simpa using filled)
      rw [List.length_map] at written
      rw [written,List.map_append,List.length_singleton,alloc_drop]
    rw [collectDigits,copied]
    by_cases small : n ≤ 0x7F
    · refine ⟨alloc (room-1),?_⟩
      rw [varIntDigits,if_pos (by omega)]
      simp [small]
    · have less : n >>> 7-1 < n := by
        rw [Nat.shiftRight_eq_div_pow]
        omega
      rw [varIntDigits_more (by omega)] at fits ⊢
      have later : decide ((digits ++ [varIntDigit n (digits.length ≠ 0)]).length ≠ 0) = true := by simp
      have step := @ih _ less (digits ++ [varIntDigit n (digits.length ≠ 0)]) (room-1) (by
        rw [later]
        rw [List.length_cons] at fits
        omega)
      rw [later,List.append_assoc,List.singleton_append,List.length_append,List.length_singleton] at step
      simpa only [small,if_false] using step

/-- The array holds the digits of every number of the type. -/
theorem WriteVarIntOf_eq (pos : 0 < sizeof) (memory : Nat → UInt8) {n : Nat} (fits : n < 2^(8*sizeof)) :
    WriteVarIntOf sizeof memory n = some (WriteVarInt n) := by
  have room : (varIntDigits n false).length ≤ (sizeof*8+6)/7 := by
    refine varIntDigits_room false (lt_of_lt_of_le fits (Nat.pow_le_pow_right (by decide) ?_)) ?_ <;> omega
  obtain ⟨rest,collected⟩ := @collectDigits_eq [] ((sizeof*8+6)/7) n (by simpa using room)
  have digit : 0 < (varIntDigits n false).length := by
    rw [varIntDigits]
    split <;> simp
  simp only [List.map_nil,List.nil_append,List.length_nil,ne_eq,not_true,decide_false] at collected
  rw [WriteVarIntOf,collected]
  show (read memory _ ((varIntDigits n false).length-1+1)).bind _ = _
  rw [Nat.sub_add_cancel digit,read_written]
  rfl

/-! ### Reading -/

/-- The digits of a number lead on to the next one, or end. -/
theorem readVarIntOf_digits {n : Nat} (fits : n < 2^(8*sizeof)) (more : Bool) (rest : List UInt8) :
    readVarIntOf sizeof 0 ((varIntDigits n more).reverse ++ rest) =
      if more then readVarIntOf sizeof ((n+1)%2^(8*sizeof)) rest else .ok (n,rest) := by
  induction n using Nat.strongRecOn generalizing more rest with
  | ind n ih =>
    obtain ⟨low,high⟩ := varIntDigit_parts n more
    have digit : ((n : Int)%128).toNat = n%128 := by omega
    rw [digit] at low
    have shifted : ∀ m, (m <<< 7 ||| n%128) = m*128+n%128 := by
      intro m
      rw [← Nat.shiftLeft_add_eq_or_of_lt (by omega),Nat.shiftLeft_eq]
    by_cases small : n ≤ 0x7F
    · rw [varIntDigits,if_pos (by omega),List.reverse_singleton,List.singleton_append,readVarIntOf,low,shifted,
        show 0*128+n%128 = n by omega,Nat.mod_eq_of_lt fits]
      simp only [high]
    · have down : n >>> 7-1 = n/128-1 := by rw [Nat.shiftRight_eq_div_pow]
      have value : n/128*128+n%128 = n := by omega
      rw [varIntDigits_more (by omega),down,List.reverse_cons,List.append_assoc,ih (n/128-1) (by omega) (by omega),if_pos rfl,
        Nat.sub_add_cancel (by omega),Nat.mod_eq_of_lt (by omega : n/128 < 2^(8*sizeof)),List.singleton_append,readVarIntOf,low,shifted,value,
        Nat.mod_eq_of_lt fits]
      simp only [high]

theorem decodes_varIntOf {n : Nat} (fits : n < 2^(8*sizeof)) : Decodes (ReadVarIntOf sizeof) (WriteVarInt n) n :=
  fun rest => readVarIntOf_digits fits false rest

/-- The digits that were read where the number is `n` so far. -/
def digitsBefore (n : Nat) : List UInt8 := if n = 0 then [] else (varIntDigits ((n-1 : Nat) : Int) true).reverse

theorem varIntDigits_reverse (n : Nat) (more : Bool) :
    (varIntDigits n more).reverse = digitsBefore (n/128) ++ [varIntDigit n more] := by
  by_cases small : n ≤ 0x7F
  · rw [varIntDigits,if_pos (by omega),digitsBefore,if_pos (by omega)]
    rfl
  · rw [varIntDigits_more (by omega),List.reverse_cons,digitsBefore,if_neg (by omega),Nat.shiftRight_eq_div_pow]

/-- A byte is the digit of its low bits. -/
theorem digit_of_byte (m : Nat) (chData : UInt8) :
    varIntDigit ((m*128+(chData &&& 0x7F).toNat : Nat) : Int) (chData &&& 0x80 ≠ 0) = chData := by
  have all : ∀ c : Fin 256, ((UInt8.ofNat c &&& 0x7F).toNat < 128) ∧
      (UInt8.ofNat (UInt8.ofNat c &&& 0x7F).toNat ||| if decide (UInt8.ofNat c &&& 0x80 ≠ 0) then 0x80 else 0x00) = UInt8.ofNat c := by
    decide +kernel
  obtain ⟨small,whole⟩ := all ⟨chData.toNat,chData.toNat_lt⟩
  simp only [UInt8.ofNat_toNat] at small whole
  have low : ((((m*128+(chData &&& 0x7F).toNat : Nat) : Int))%128).toNat = (chData &&& 0x7F).toNat := by omega
  rw [varIntDigit,low,UInt8.ofNat_toNat]
  exact whole

/-- Without overflow, what is read is what would be written, from any point on. -/
theorem readVarIntOf_canonical {n : Nat} {stream : List UInt8} {v : Nat} {rest : List UInt8} (exact' : NoOverflow sizeof n stream)
    (reads : readVarIntOf sizeof n stream = .ok (v,rest)) : digitsBefore n ++ stream = WriteVarInt v ++ rest := by
  induction stream generalizing n with
  | nil => contradiction
  | cons chData stream ih =>
    obtain ⟨small,later⟩ := exact'
    have low : (chData &&& 0x7F).toNat < 2^7 := by
      rw [UInt8.toNat_and]
      exact lt_of_le_of_lt Nat.and_le_right (by decide)
    have whole := digit_of_byte n chData
    have before : (n*128+(chData &&& 0x7F).toNat)/128 = n := by omega
    have value : (n <<< 7 ||| (chData &&& 0x7F).toNat)%2^(8*sizeof) = n*128+(chData &&& 0x7F).toNat := by
      rw [← Nat.shiftLeft_add_eq_or_of_lt low,Nat.shiftLeft_eq,Nat.mod_eq_of_lt small]
    rw [readVarIntOf,value] at reads
    by_cases more : chData &&& 0x80 ≠ 0
    · obtain ⟨next,others⟩ := later more
      simp only [more,ne_eq,not_false_eq_true,if_true,Nat.mod_eq_of_lt next] at reads
      rw [← ih others reads]
      conv_rhs => rw [digitsBefore,if_neg (by omega),Nat.add_sub_cancel]
      rw [varIntDigits_reverse,before,← decide_eq_true more,whole,List.append_assoc]
      rfl
    · simp only [more,if_false] at reads
      obtain ⟨rfl,rfl⟩ := Prod.mk.inj (Except.ok.inj reads)
      rw [WriteVarInt,varIntDigits_reverse,before,← decide_eq_false more,whole,List.append_assoc]
      rfl

/-- Every number of the type has one text of digits: it is written inside the array, has
    the length that was foretold and is read back; no other text that is read without
    overflow gives the number. -/
theorem varInt_bijective (pos : 0 < sizeof) :
    (∀ memory n, n < 2^(8*sizeof) → ∃ bytes, WriteVarIntOf sizeof memory n = some bytes ∧ Decodes (ReadVarIntOf sizeof) bytes n ∧
      GetSizeOfVarInt n = bytes.length) ∧
    ∀ stream other v rest rest', ReadVarIntOf sizeof stream = .ok (v,rest) → ReadVarIntOf sizeof other = .ok (v,rest') →
      NoOverflow sizeof 0 stream → NoOverflow sizeof 0 other → ∃ bytes, stream = bytes ++ rest ∧ other = bytes ++ rest' := by
  refine ⟨fun memory n fits => ⟨WriteVarInt n,WriteVarIntOf_eq pos memory fits,decodes_varIntOf fits,(WriteVarInt_length _).symm⟩,?_⟩
  intro stream other v rest rest' first second left right
  exact ⟨WriteVarInt v,readVarIntOf_canonical left first,readVarIntOf_canonical right second⟩

/-- A number of 64 bits. -/
theorem varInt_bijective_uint64 : ∃ bytes, WriteVarIntOf 8 (fun _ => 0xCC) (2^32) = some bytes ∧
    Decodes (ReadVarIntOf 8) bytes (2^32) ∧ GetSizeOfVarInt (2^32 : Nat) = bytes.length :=
  (@varInt_bijective 8 (by decide)).1 _ _ (by decide)

example : ReadVarIntOf 8 [0x8E,0xFE,0xFE,0xFF,0x00] = .ok (2^32,[]) := by decide

end Tetra
