import Mathlib
import Tetra.BaseUint
import Tetra.BitGroups

/-!
Bytes as text of 64 and of 32 characters, and back: a reader that tells whether the text was
written so.
-/
namespace Tetra
open Positional BitGroups
open base_uint (tolower)

def padChar : UInt8 := 0x3D

/-! ### 64 characters -/

def pbase64 : Text := "ABCDEFGHIJKLMNOPQRSTUVWXYZabcdefghijklmnopqrstuvwxyz0123456789+/".toUTF8.toList

/-- One byte, with the bits that are left in front of zeros. -/
def EncodeBase64.step : Nat × Nat → Nat → List Nat × Nat × Nat
  | (mode,left), enc =>
    match mode with
    | 0 => ([enc >>> 2],1,(enc &&& 3) <<< 4)
    | 1 => ([left ||| enc >>> 4],2,(enc &&& 15) <<< 2)
    | 2 => ([left ||| enc >>> 6,enc &&& 63],0,left)
    | _ => ([],mode,left)

/-- The bits that are left have a digit of their own, and padding behind it. -/
def EncodeBase64.close (digits : List Nat) (mode left : Nat) : Text :=
  let strRet := digits.map (pbase64.getD · 0)
  if mode ≠ 0 then strRet ++ [pbase64.getD left 0] ++ [padChar] ++ (if mode = 1 then [padChar] else []) else strRet

def EncodeBase64 (pch : List UInt8) : Text :=
  let (digits,mode,left) := run EncodeBase64.step (0,0) (pch.map UInt8.toNat)
  EncodeBase64.close digits mode left

def decode64_table : List Int :=
  [
    -1,-1,-1,-1,-1,-1,-1,-1,-1,-1,-1,-1,-1,-1,-1,-1,-1,-1,-1,-1,-1,-1,-1,-1,-1,-1,-1,-1,-1,-1,-1,-1,
    -1,-1,-1,-1,-1,-1,-1,-1,-1,-1,-1,62,-1,-1,-1,63,52,53,54,55,56,57,58,59,60,61,-1,-1,-1,-1,-1,-1,
    -1,0,1,2,3,4,5,6,7,8,9,10,11,12,13,14,15,16,17,18,19,20,21,22,23,24,25,-1,-1,-1,-1,-1,
    -1,26,27,28,29,30,31,32,33,34,35,36,37,38,39,40,41,42,43,44,45,46,47,48,49,50,51,-1,-1,-1,-1,-1,
    -1,-1,-1,-1,-1,-1,-1,-1,-1,-1,-1,-1,-1,-1,-1,-1,-1,-1,-1,-1,-1,-1,-1,-1,-1,-1,-1,-1,-1,-1,-1,-1,
    -1,-1,-1,-1,-1,-1,-1,-1,-1,-1,-1,-1,-1,-1,-1,-1,-1,-1,-1,-1,-1,-1,-1,-1,-1,-1,-1,-1,-1,-1,-1,-1,
    -1,-1,-1,-1,-1,-1,-1,-1,-1,-1,-1,-1,-1,-1,-1,-1,-1,-1,-1,-1,-1,-1,-1,-1,-1,-1,-1,-1,-1,-1,-1,-1,
    -1,-1,-1,-1,-1,-1,-1,-1,-1,-1,-1,-1,-1,-1,-1,-1,-1,-1,-1,-1,-1,-1,-1,-1,-1,-1,-1,-1,-1,-1,-1,-1]

/-- Reads until a character that is not in the table: what was written, the state and the
    characters from there on. -/
def decodeChars (table : List Int) (step : Nat × Nat → Nat → List Nat × Nat × Nat) : Text → Nat × Nat → List UInt8 × (Nat × Nat) × Text
  | [], state => ([],state,[])
  | c :: p, state =>
    let dec := table.getD c.toNat (-1)
    if dec = -1 then ([],state,c :: p)
    else
      let (bytes,state) := step state dec.toNat
      let (vchRet,state,p) := decodeChars table step p state
      (bytes.map UInt8.ofNat ++ vchRet,state,p)

/-- Fewer than `n` padding characters, or a character of the table after them. -/
def unpadded (table : List Int) (n : Nat) (p : Text) : Bool :=
  (List.range n).any (fun i => p.getD i 0 ≠ padChar) || table.getD (p.getD n 0).toNat (-1) ≠ -1

def DecodeBase64.step : Nat × Nat → Nat → List Nat × Nat × Nat
  | (mode,left), dec =>
    match mode with
    | 0 => ([],1,dec)
    | 1 => ([left <<< 2 ||| dec >>> 4],2,dec &&& 15)
    | 2 => ([left <<< 4 ||| dec >>> 2],3,dec &&& 3)
    | 3 => ([left <<< 6 ||| dec],0,left)
    | _ => ([],mode,left)

/-- `*pfInvalid` -/
def DecodeBase64.invalid (mode left : Nat) (p : Text) : Bool :=
  match mode with
  | 1 => true
  | 2 => left ≠ 0 || unpadded decode64_table 2 p
  | 3 => left ≠ 0 || unpadded decode64_table 1 p
  | _ => false

def DecodeBase64 (p : Text) : List UInt8 × Bool :=
  let (vchRet,(mode,left),p) := decodeChars decode64_table DecodeBase64.step p (0,0)
  (vchRet,DecodeBase64.invalid mode left p)

/-! ### 32 characters -/

def pbase32 : Text := "abcdefghijklmnopqrstuvwxyz234567".toUTF8.toList

def EncodeBase32.step : Nat × Nat → Nat → List Nat × Nat × Nat
  | (mode,left), enc =>
    match mode with
    | 0 => ([enc >>> 3],1,(enc &&& 7) <<< 2)
    | 1 => ([left ||| enc >>> 6,enc >>> 1 &&& 31],2,(enc &&& 1) <<< 4)
    | 2 => ([left ||| enc >>> 4],3,(enc &&& 15) <<< 1)
    | 3 => ([left ||| enc >>> 7,enc >>> 2 &&& 31],4,(enc &&& 3) <<< 3)
    | 4 => ([left ||| enc >>> 5,enc &&& 31],0,left)
    | _ => ([],mode,left)

def nPadding : List Nat := [0,6,4,3,1]

def EncodeBase32.close (digits : List Nat) (mode left : Nat) : Text :=
  let strRet := digits.map (pbase32.getD · 0)
  if mode ≠ 0 then strRet ++ [pbase32.getD left 0] ++ List.replicate (nPadding.getD mode 0) padChar else strRet

def EncodeBase32 (pch : List UInt8) : Text :=
  let (digits,mode,left) := run EncodeBase32.step (0,0) (pch.map UInt8.toNat)
  EncodeBase32.close digits mode left

def decode32_table : List Int :=
  [
    -1,-1,-1,-1,-1,-1,-1,-1,-1,-1,-1,-1,-1,-1,-1,-1,-1,-1,-1,-1,-1,-1,-1,-1,-1,-1,-1,-1,-1,-1,-1,-1,
    -1,-1,-1,-1,-1,-1,-1,-1,-1,-1,-1,-1,-1,-1,-1,-1,-1,-1,26,27,28,29,30,31,-1,-1,-1,-1,-1,-1,-1,-1,
    -1,0,1,2,3,4,5,6,7,8,9,10,11,12,13,14,15,16,17,18,19,20,21,22,23,24,25,-1,-1,-1,-1,-1,
    -1,0,1,2,3,4,5,6,7,8,9,10,11,12,13,14,15,16,17,18,19,20,21,22,23,24,25,-1,-1,-1,-1,-1,
    -1,-1,-1,-1,-1,-1,-1,-1,-1,-1,-1,-1,-1,-1,-1,-1,-1,-1,-1,-1,-1,-1,-1,-1,-1,-1,-1,-1,-1,-1,-1,-1,
    -1,-1,-1,-1,-1,-1,-1,-1,-1,-1,-1,-1,-1,-1,-1,-1,-1,-1,-1,-1,-1,-1,-1,-1,-1,-1,-1,-1,-1,-1,-1,-1,
    -1,-1,-1,-1,-1,-1,-1,-1,-1,-1,-1,-1,-1,-1,-1,-1,-1,-1,-1,-1,-1,-1,-1,-1,-1,-1,-1,-1,-1,-1,-1,-1,
    -1,-1,-1,-1,-1,-1,-1,-1,-1,-1,-1,-1,-1,-1,-1,-1,-1,-1,-1,-1,-1,-1,-1,-1,-1,-1,-1,-1,-1,-1,-1,-1]

def DecodeBase32.step : Nat × Nat → Nat → List Nat × Nat × Nat
  | (mode,left), dec =>
    match mode with
    | 0 => ([],1,dec)
    | 1 => ([left <<< 3 ||| dec >>> 2],2,dec &&& 3)
    | 2 => ([],3,left <<< 5 ||| dec)
    | 3 => ([left <<< 1 ||| dec >>> 4],4,dec &&& 15)
    | 4 => ([left <<< 4 ||| dec >>> 1],5,dec &&& 1)
    | 5 => ([],6,left <<< 5 ||| dec)
    | 6 => ([left <<< 2 ||| dec >>> 3],7,dec &&& 7)
    | 7 => ([left <<< 5 ||| dec],0,left)
    | _ => ([],mode,left)

def DecodeBase32.invalid (mode left : Nat) (p : Text) : Bool :=
  match mode with
  | 1 | 3 | 6 => true
  | 2 => left ≠ 0 || unpadded decode32_table 6 p
  | 4 => left ≠ 0 || unpadded decode32_table 4 p
  | 5 => left ≠ 0 || unpadded decode32_table 3 p
  | 7 => left ≠ 0 || unpadded decode32_table 1 p
  | _ => false

def DecodeBase32 (p : Text) : List UInt8 × Bool :=
  let (vchRet,(mode,left),p) := decodeChars decode32_table DecodeBase32.step p (0,0)
  (vchRet,DecodeBase32.invalid mode left p)

/-! ### The machines -/

private theorem mask_mod (n : Nat) : n &&& 1 = n%2 ∧ n &&& 3 = n%4 ∧ n &&& 7 = n%8 ∧ n &&& 15 = n%16 ∧ n &&& 31 = n%32 ∧ n &&& 63 = n%64 :=
  ⟨Nat.and_two_pow_sub_one_eq_mod n 1,Nat.and_two_pow_sub_one_eq_mod n 2,Nat.and_two_pow_sub_one_eq_mod n 3,Nat.and_two_pow_sub_one_eq_mod n 4,
    Nat.and_two_pow_sub_one_eq_mod n 5,Nat.and_two_pow_sub_one_eq_mod n 6⟩

/-- Bits below those that are set are added. -/
theorem or_low (i : Nat) {a b : Nat} (clear : a%2^i = 0) (low : b < 2^i) : a ||| b = a+b := by
  have high : a = 2^i*(a/2^i) := by rw [Nat.mul_div_cancel' (Nat.dvd_of_mod_eq_zero clear)]
  rw [high,Nat.two_pow_add_eq_or_of_lt low]

namespace Modes

/-- The number of the bits that are left in a mode. -/
def width (widths : List Nat) (s : Nat × Nat) : Nat := widths.getD s.1 0

/-- What a reader has left; in mode 0 it is nothing, whatever stands in `left`. -/
def kept (s : Nat × Nat) : Nat := if s.1 = 0 then 0 else s.2

def Kept (widths : List Nat) (s : Nat × Nat) : Prop := s.1 < widths.length ∧ kept s < 2^width widths s

/-- What a writer has left, in front of the zeros that fill the digit. -/
def pending (c : Nat) (widths : List Nat) (s : Nat × Nat) : Nat := kept s/2^(c-width widths s)

def Pending (c : Nat) (widths : List Nat) (s : Nat × Nat) : Prop :=
  s.1 < widths.length ∧ kept s < 2^c ∧ kept s%2^(c-width widths s) = 0

end Modes

open Modes

theorem EncodeBase64.moves {s : Nat × Nat} {d : Nat} (valid : Pending 6 [0,2,4] s) (small : d < 2^8) :
    Moved 8 6 (Pending 6 [0,2,4]) (width [0,2,4]) (pending 6 [0,2,4]) s d (step s d) := by
  obtain ⟨mode,left⟩ := s
  obtain ⟨inside,low,clear⟩ := valid
  have modes : mode < 3 := inside
  interval_cases mode
  · simp [Moved,Pending,pending,step,kept,width,mask_mod,Nat.shiftRight_eq_div_pow,Nat.shiftLeft_eq] at *
    omega
  · simp [Moved,Pending,pending,step,kept,width,mask_mod,Nat.shiftRight_eq_div_pow,Nat.shiftLeft_eq] at *
    rw [or_low 4 (by omega) (by omega)]
    omega
  · simp [Moved,Pending,pending,step,kept,width,mask_mod,Nat.shiftRight_eq_div_pow] at *
    rw [or_low 2 (by omega) (by omega)]
    omega

theorem DecodeBase64.moves {s : Nat × Nat} {d : Nat} (valid : Kept [0,6,4,2] s) (small : d < 2^6) :
    Moved 6 8 (Kept [0,6,4,2]) (width [0,6,4,2]) kept s d (step s d) := by
  obtain ⟨mode,left⟩ := s
  obtain ⟨inside,low⟩ := valid
  have modes : mode < 4 := inside
  interval_cases mode
  · simp [Moved,Kept,step,kept,width] at *
    omega
  · simp [Moved,Kept,step,kept,width,mask_mod,Nat.shiftRight_eq_div_pow,Nat.shiftLeft_eq] at *
    rw [or_low 2 (by omega) (by omega)]
    omega
  · simp [Moved,Kept,step,kept,width,mask_mod,Nat.shiftRight_eq_div_pow,Nat.shiftLeft_eq] at *
    rw [or_low 4 (by omega) (by omega)]
    omega
  · simp [Moved,Kept,step,kept,width,Nat.shiftLeft_eq] at *
    rw [or_low 6 (by omega) (by omega)]
    omega

theorem EncodeBase32.moves {s : Nat × Nat} {d : Nat} (valid : Pending 5 [0,3,1,4,2] s) (small : d < 2^8) :
    Moved 8 5 (Pending 5 [0,3,1,4,2]) (width [0,3,1,4,2]) (pending 5 [0,3,1,4,2]) s d (step s d) := by
  obtain ⟨mode,left⟩ := s
  obtain ⟨inside,low,clear⟩ := valid
  have modes : mode < 5 := inside
  interval_cases mode
  · simp [Moved,Pending,pending,step,kept,width,mask_mod,Nat.shiftRight_eq_div_pow,Nat.shiftLeft_eq] at *
    omega
  · simp [Moved,Pending,pending,step,kept,width,mask_mod,Nat.shiftRight_eq_div_pow,Nat.shiftLeft_eq] at *
    rw [or_low 2 (by omega) (by omega)]
    omega
  · simp [Moved,Pending,pending,step,kept,width,mask_mod,Nat.shiftRight_eq_div_pow,Nat.shiftLeft_eq] at *
    rw [or_low 4 (by omega) (by omega)]
    omega
  · simp [Moved,Pending,pending,step,kept,width,mask_mod,Nat.shiftRight_eq_div_pow,Nat.shiftLeft_eq] at *
    rw [or_low 1 (by omega) (by omega)]
    omega
  · simp [Moved,Pending,pending,step,kept,width,mask_mod,Nat.shiftRight_eq_div_pow] at *
    rw [or_low 3 (by omega) (by omega)]
    omega

theorem DecodeBase32.moves {s : Nat × Nat} {d : Nat} (valid : Kept [0,5,2,7,4,1,6,3] s) (small : d < 2^5) :
    Moved 5 8 (Kept [0,5,2,7,4,1,6,3]) (width [0,5,2,7,4,1,6,3]) kept s d (step s d) := by
  obtain ⟨mode,left⟩ := s
  obtain ⟨inside,low⟩ := valid
  have modes : mode < 8 := inside
  interval_cases mode
  · simp [Moved,Kept,step,kept,width] at *
    omega
  · simp [Moved,Kept,step,kept,width,mask_mod,Nat.shiftRight_eq_div_pow,Nat.shiftLeft_eq] at *
    rw [or_low 3 (by omega) (by omega)]
    omega
  · simp [Moved,Kept,step,kept,width,Nat.shiftLeft_eq] at *
    rw [or_low 5 (by omega) (by omega)]
    omega
  · simp [Moved,Kept,step,kept,width,mask_mod,Nat.shiftRight_eq_div_pow,Nat.shiftLeft_eq] at *
    rw [or_low 1 (by omega) (by omega)]
    omega
  · simp [Moved,Kept,step,kept,width,Nat.shiftRight_eq_div_pow,Nat.shiftLeft_eq] at *
    rw [or_low 4 (by omega) (by omega)]
    omega
  · simp [Moved,Kept,step,kept,width,Nat.shiftLeft_eq] at *
    rw [or_low 5 (by omega) (by omega)]
    omega
  · simp [Moved,Kept,step,kept,width,mask_mod,Nat.shiftRight_eq_div_pow,Nat.shiftLeft_eq] at *
    rw [or_low 2 (by omega) (by omega)]
    omega
  · simp [Moved,Kept,step,kept,width,Nat.shiftLeft_eq] at *
    rw [or_low 5 (by omega) (by omega)]
    omega

/-! ### Text in groups of characters -/

/-- An alphabet for digits of `bits` bits, in groups of as many characters as make whole bytes.
    A group does not end after a number of characters in `inadmissible`. -/
structure Base where
  bits : Nat
  group : Nat
  alphabet : Text
  fold : UInt8 → UInt8
  inadmissible : List Nat
  positive : 0 < bits
  narrow : bits ≤ 8
  size : alphabet.length = 2^bits
  nodup : alphabet.Nodup
  folded : ∀ c ∈ alphabet, fold c = c
  no_pad : fold padChar ∉ alphabet
  no_nul : fold 0 ∉ alphabet
  whole : ∀ n, n%group ∉ inadmissible ↔ bits*n%8 < bits

namespace Base

variable (base : Base)

def inAlphabet (c : UInt8) : Bool := base.alphabet.contains (base.fold c)

def digit (c : UInt8) : Nat := base.alphabet.idxOf (base.fold c)

def char (d : Nat) : UInt8 := base.alphabet.getD d 0

/-- The characters up to the first that is none of the alphabet. -/
def front (p : Text) : Text := p.takeWhile base.inAlphabet

def digits (p : Text) : List Nat := (base.front p).map base.digit

/-- The number of the padding characters after so many others. -/
def padding (length : Nat) : Nat := (base.group-length%base.group)%base.group

def text (ds : List Nat) : Text := ds.map base.char ++ List.replicate (base.padding ds.length) padChar

theorem text_concat {ds : List Nat} {d n : Nat} (padding : base.padding (ds.length+1) = n) :
    base.text (ds ++ [d]) = ds.map base.char ++ [base.char d] ++ List.replicate n padChar := by
  rw [text,List.length_append,List.length_singleton,padding,List.map_append,List.map_singleton]

/-- Text that ends where a group may, with the bits that no byte takes clear and with its
    padding. -/
structure WellFormed (p : Text) : Prop where
  admissible : (base.front p).length%base.group ∉ base.inadmissible
  clear : value (2^base.bits) (base.digits p)%2^(base.bits*(base.front p).length%8) = 0
  padded : List.replicate (base.padding (base.front p).length) padChar <+: p.drop (base.front p).length
  ended : ∀ c, (p.drop (base.front p).length)[base.padding (base.front p).length]? = some c → base.inAlphabet c = false

theorem inAlphabet_iff (c : UInt8) : base.inAlphabet c = true ↔ base.fold c ∈ base.alphabet := by
  rw [inAlphabet,List.contains_iff_mem]

theorem char_mem {d : Nat} (small : d < 2^base.bits) : base.char d ∈ base.alphabet := by
  rw [← base.size] at small
  rw [char,List.getD_eq_getElem _ _ small]
  exact List.getElem_mem small

theorem digit_char {d : Nat} (small : d < 2^base.bits) : base.digit (base.char d) = d := by
  rw [digit,base.folded _ (base.char_mem small)]
  rw [← base.size] at small
  rw [char,List.getD_eq_getElem _ _ small,List.Nodup.idxOf_getElem base.nodup]

theorem char_digit {c : UInt8} (inside : base.inAlphabet c = true) : base.char (base.digit c) = base.fold c := by
  have low := List.idxOf_lt_length_of_mem ((base.inAlphabet_iff c).mp inside)
  rw [char,digit,List.getD_eq_getElem _ _ low,List.getElem_idxOf]

theorem digit_lt {c : UInt8} (inside : base.inAlphabet c = true) : base.digit c < 2^base.bits := by
  rw [← base.size]
  exact List.idxOf_lt_length_of_mem ((base.inAlphabet_iff c).mp inside)

theorem front_mem {p : Text} {c : UInt8} (member : c ∈ base.front p) : base.inAlphabet c = true := List.mem_takeWhile_imp member

theorem digits_lt (p : Text) : ∀ d ∈ base.digits p, d < 2^base.bits := by
  intro d member
  obtain ⟨c,inside,rfl⟩ := List.mem_map.mp member
  exact base.digit_lt (base.front_mem inside)

theorem length_digits (p : Text) : (base.digits p).length = (base.front p).length := by rw [digits,List.length_map]

theorem digits_char (p : Text) : (base.digits p).map base.char = (base.front p).map base.fold := by
  rw [digits,List.map_map]
  apply List.map_congr_left
  intro c member
  exact base.char_digit (base.front_mem member)

theorem front_text {ds : List Nat} (small : ∀ d ∈ ds, d < 2^base.bits) : base.front (base.text ds) = ds.map base.char := by
  have inside : ∀ c ∈ ds.map base.char, base.inAlphabet c = true := by
    intro c member
    obtain ⟨d,low,rfl⟩ := List.mem_map.mp member
    have char := base.char_mem (small d low)
    rwa [inAlphabet_iff,base.folded _ char]
  have pad : base.inAlphabet padChar = false := by
    rw [← Bool.not_eq_true,inAlphabet_iff]
    exact base.no_pad
  rw [front,text,List.takeWhile_append_of_pos inside]
  cases base.padding ds.length with
  | zero => simp
  | succ n => rw [List.replicate_succ,List.takeWhile_cons_of_neg (by simp [pad]),List.append_nil]

theorem digits_text {ds : List Nat} (small : ∀ d ∈ ds, d < 2^base.bits) : base.digits (base.text ds) = ds := by
  rw [digits,front_text base small,List.map_map]
  conv_rhs => rw [← List.map_id ds]
  apply List.map_congr_left
  intro d member
  exact base.digit_char (small d member)

theorem text_drop {ds : List Nat} (small : ∀ d ∈ ds, d < 2^base.bits) :
    (base.text ds).drop (base.front (base.text ds)).length = List.replicate (base.padding ds.length) padChar := by
  rw [front_text base small,text,List.drop_left' rfl]

/-- A machine that reads the digits has nothing left exactly in text that ends as it should. -/
theorem wellFormed_iff (reader : Regrouper base.bits 8) (p : Text) :
    base.WellFormed p ↔ (reader.bits (run reader.step reader.start (base.digits p)).2 < base.bits ∧
      reader.rest (run reader.step reader.start (base.digits p)).2 = 0) ∧
      List.replicate (base.padding (base.front p).length) padChar <+: p.drop (base.front p).length ∧
      ∀ c, (p.drop (base.front p).length)[base.padding (base.front p).length]? = some c → base.inAlphabet c = false := by
  have ran := reader.run_spec reader.start_valid (base.digits_lt p)
  obtain ⟨amount,exact⟩ := reader.run_start (base.digits_lt p)
  have bits : base.bits*(base.front p).length%8 = reader.bits (run reader.step reader.start (base.digits p)).2 := by
    rw [← length_digits,amount,Nat.mul_add_mod,Nat.mod_eq_of_lt (reader.few ran.valid)]
  have left : value (2^base.bits) (base.digits p)%2^(base.bits*(base.front p).length%8) = reader.rest (run reader.step reader.start (base.digits p)).2 := by
    rw [bits,exact,Nat.mul_add_mod_of_lt (reader.small ran.valid)]
  refine ⟨fun formed => ⟨⟨?_,?_⟩,formed.padded,formed.ended⟩,fun ⟨⟨few,zero⟩,padded,ended⟩ => ⟨?_,?_,padded,ended⟩⟩
  · rw [← bits]
    exact (base.whole _).mp formed.admissible
  · rw [← left]
    exact formed.clear
  · rw [base.whole,bits]
    exact few
  · rw [left]
    exact zero

theorem front_ended {p : Text} {c : UInt8} (next : (p.drop (base.front p).length)[0]? = some c) : base.inAlphabet c = false := by
  rw [front] at next
  induction p with
  | nil => simp at next
  | cons a p ih =>
    by_cases inside : base.inAlphabet a = true
    · rw [List.takeWhile_cons_of_pos inside] at next
      exact ih next
    · rw [List.takeWhile_cons_of_neg inside] at next
      obtain rfl : a = c := by simpa using next
      simpa using inside

/-- The digit of a character, or -1 for what is none of the alphabet. -/
def entry (c : UInt8) : Int := if base.inAlphabet c then base.digit c else -1

def Reads (table : List Int) : Prop := ∀ c : UInt8, table.getD c.toNat (-1) = base.entry c

variable {base}

theorem reads_entries {table : List Int} (entries : table = (List.range 256).map fun c => base.entry (UInt8.ofNat c)) : base.Reads table := by
  intro c
  have inside : c.toNat < (List.range 256).length := by
    rw [List.length_range]
    exact c.toNat_lt
  rw [entries,List.getD_eq_getElem _ _ (by rwa [List.length_map]),List.getElem_map,List.getElem_range,UInt8.ofNat_toNat]

theorem Reads.decodeChars_eq {table : List Int} (reads : base.Reads table) (step : Nat × Nat → Nat → List Nat × Nat × Nat) (p : Text) (state : Nat × Nat) :
    decodeChars table step p state =
      ((run step state (base.digits p)).1.map UInt8.ofNat,(run step state (base.digits p)).2,p.drop (base.front p).length) := by
  induction p generalizing state with
  | nil => rfl
  | cons c p ih =>
    rw [decodeChars,reads c,entry]
    by_cases inside : base.inAlphabet c = true
    · have front : base.front (c :: p) = c :: base.front p := List.takeWhile_cons_of_pos inside
      have digits : base.digits (c :: p) = base.digit c :: base.digits p := by rw [Base.digits,front,List.map_cons,← Base.digits]
      rw [if_pos inside]
      dsimp only
      rw [if_neg (by omega),ih,front,digits,run,Int.toNat_natCast,List.map_append]
      rfl
    · have front : base.front (c :: p) = [] := List.takeWhile_cons_of_neg inside
      rw [if_neg inside]
      dsimp only
      rw [if_pos rfl,Base.digits,front]
      rfl

theorem padded_iff (n : Nat) (p : Text) : (List.range n).any (fun i => p.getD i 0 ≠ padChar) = false ↔ List.replicate n padChar <+: p := by
  induction n generalizing p with
  | zero => simp
  | succ n ih =>
    rw [List.range_succ_eq_map,List.any_cons,List.any_map,List.replicate_succ]
    cases p with
    | nil => simp [padChar]
    | cons c p =>
      rw [List.cons_prefix_cons,Bool.or_eq_false_iff,List.getD_cons_zero,← ih p,decide_eq_false_iff_not,not_not,eq_comm (a := c)]
      rfl

theorem Reads.unpadded_iff {table : List Int} (reads : base.Reads table) (n : Nat) (p : Text) :
    unpadded table n p = false ↔ List.replicate n padChar <+: p ∧ ∀ c, p[n]? = some c → base.inAlphabet c = false := by
  have nul : base.inAlphabet 0 = false := by
    rw [← Bool.not_eq_true,inAlphabet_iff]
    exact base.no_nul
  rw [unpadded,Bool.or_eq_false_iff,padded_iff,decide_eq_false_iff_not,reads,entry,List.getD_eq_getElem?_getD]
  cases p[n]? with
  | none => simp [nul]
  | some c =>
    rw [Option.getD_some]
    refine and_congr_right fun _ => ⟨fun none c' same => ?_,fun none => ?_⟩
    · obtain rfl := Option.some.inj same
      by_contra inside
      rw [Bool.not_eq_false] at inside
      rw [if_pos inside] at none
      omega
    · simp [none c rfl]

/-- Functions that write and read text by machines. -/
structure Coder (base : Base) where
  Encode : List UInt8 → Text
  Decode : Text → List UInt8 × Bool
  writer : Regrouper 8 base.bits
  reader : Regrouper base.bits 8
  encodes : ∀ pch, Encode pch = base.text (writer.complete (pch.map UInt8.toNat))
  decodes : ∀ p, (Decode p).1 = (run reader.step reader.start (base.digits p)).1.map UInt8.ofNat
  decides : ∀ p, (Decode p).2 = false ↔ base.WellFormed p

namespace Coder

variable (coder : Coder base)

theorem decode_encode (pch : List UInt8) : coder.Decode (coder.Encode pch) = (pch,false) := by
  have digits := (coder.writer.complete_spec (@toNat_lt_of_mem pch)).1
  obtain ⟨bytes,zeros,few⟩ := coder.writer.run_complete coder.reader base.narrow (@toNat_lt_of_mem pch)
  have back : UInt8.ofNat ∘ UInt8.toNat = id := by
    funext byte
    exact UInt8.ofNat_toNat
  apply Prod.ext
  · rw [coder.decodes,coder.encodes,digits_text base digits,bytes,List.map_map,back,List.map_id]
  · rw [coder.decides,coder.encodes,wellFormed_iff base coder.reader,digits_text base digits,text_drop base digits,front_text base digits,List.length_map]
    refine ⟨⟨few,zeros⟩,List.prefix_rfl,fun c next => ?_⟩
    rw [List.getElem?_eq_none (by rw [List.length_replicate])] at next
    cases next

theorem encode_decode {p : Text} (formed : base.WellFormed p) :
    coder.Encode (coder.Decode p).1 = (base.front p).map base.fold ++ List.replicate (base.padding (base.front p).length) padChar := by
  have ran := coder.reader.run_spec coder.reader.start_valid (base.digits_lt p)
  obtain ⟨⟨few,zeros⟩,-,-⟩ := (base.wellFormed_iff coder.reader p).mp formed
  rw [coder.decodes,coder.encodes,toNat_ofNat ran.digits,coder.writer.complete_run coder.reader base.positive (base.digits_lt p) zeros few,text,digits_char,length_digits]

end Coder

end Base

/-! ### The two alphabets -/

def base64 : Base where
  bits := 6
  group := 4
  alphabet := pbase64
  fold := id
  inadmissible := [1]
  positive := by omega
  narrow := by omega
  size := by decide +kernel
  nodup := by decide +kernel
  folded _ _ := rfl
  no_pad := by decide +kernel
  no_nul := by decide +kernel
  whole n := by
    rw [List.mem_singleton]
    omega

/-- Upper case stands for lower case. -/
def base32 : Base where
  bits := 5
  group := 8
  alphabet := pbase32
  fold := tolower
  inadmissible := [1,3,6]
  positive := by omega
  narrow := by omega
  size := by decide +kernel
  nodup := by decide +kernel
  folded := by decide +kernel
  no_pad := by decide +kernel
  no_nul := by decide +kernel
  whole n := by
    rw [Nat.mul_mod]
    have residue := Nat.mod_lt n (show 0 < 8 by omega)
    interval_cases n%8 <;> simp

theorem reads64 : base64.Reads decode64_table := Base.reads_entries (by decide +kernel)

theorem reads32 : base32.Reads decode32_table := Base.reads_entries (by decide +kernel)

theorem Modes.width_lt {c : Nat} {widths : List Nat} (narrow : ∀ w ∈ widths, w < c) {s : Nat × Nat} (inside : s.1 < widths.length) : width widths s < c := by
  rw [width,List.getD_eq_getElem _ _ inside]
  exact narrow _ (List.getElem_mem inside)

theorem Modes.length_pos {widths : List Nat} (none : widths.head? = some 0) : 0 < widths.length := by
  cases widths with
  | nil => cases none
  | cons w widths => exact Nat.succ_pos _

theorem Modes.width_start {widths : List Nat} (none : widths.head? = some 0) : width widths (0,0) = 0 := by
  rw [width,List.getD_eq_getElem?_getD,← List.head?_eq_getElem?,none,Option.getD_some]

theorem Modes.pending_lt {c : Nat} {widths : List Nat} (narrow : ∀ w ∈ widths, w < c) {s : Nat × Nat} (valid : Pending c widths s) :
    pending c widths s < 2^width widths s := by
  have few := width_lt narrow valid.1
  apply Nat.div_lt_of_lt_mul
  rw [← Nat.pow_add,show c-width widths s+width widths s = c by omega]
  exact valid.2.1

/-- A machine that takes bytes in. -/
def Modes.writer {c : Nat} {widths : List Nat} {step : Nat × Nat → Nat → List Nat × Nat × Nat} (none : widths.head? = some 0)
    (narrow : ∀ w ∈ widths, w < c) (moves : ∀ {s d}, Pending c widths s → d < 2^8 → Moved 8 c (Pending c widths) (width widths) (pending c widths) s d (step s d)) :
    Regrouper 8 c where
  State := Nat × Nat
  start := (0,0)
  step := step
  Valid := Pending c widths
  bits := width widths
  rest := pending c widths
  start_valid := ⟨length_pos none,Nat.two_pow_pos c,Nat.zero_mod _⟩
  start_bits := width_start none
  few valid := width_lt narrow valid.1
  small := pending_lt narrow
  moves := moves

/-- A machine that gives bytes out. -/
def Modes.reader {b : Nat} {widths : List Nat} {step : Nat × Nat → Nat → List Nat × Nat × Nat} (none : widths.head? = some 0)
    (narrow : ∀ w ∈ widths, w < 8) (moves : ∀ {s d}, Kept widths s → d < 2^b → Moved b 8 (Kept widths) (width widths) kept s d (step s d)) :
    Regrouper b 8 where
  State := Nat × Nat
  start := (0,0)
  step := step
  Valid := Kept widths
  bits := width widths
  rest := kept
  start_valid := ⟨length_pos none,Nat.two_pow_pos _⟩
  start_bits := width_start none
  few valid := width_lt narrow valid.1
  small valid := valid.2
  moves := moves

def writer64 : Regrouper 8 6 := writer rfl (by decide) EncodeBase64.moves
def reader64 : Regrouper 6 8 := reader rfl (by decide) DecodeBase64.moves
def writer32 : Regrouper 8 5 := writer rfl (by decide) EncodeBase32.moves
def reader32 : Regrouper 5 8 := reader rfl (by decide) DecodeBase32.moves

/-- What a writer closes with is what it has left. -/
theorem Modes.pending_mul {c : Nat} {widths : List Nat} {s : Nat × Nat} (valid : Pending c widths s) :
    pending c widths s*2^(c-width widths s) = kept s := Nat.div_mul_cancel (Nat.dvd_of_mod_eq_zero valid.2.2)

theorem EncodeBase64.close_eq {digits : List Nat} {mode left n : Nat} (valid : Pending 6 [0,2,4] (mode,left))
    (amount : 8*n = 6*digits.length+width [0,2,4] (mode,left)) : close digits mode left = base64.text (writer64.closed (digits,mode,left)) := by
  have modes : mode < 3 := valid.1
  have last := pending_mul valid
  change _ = base64.text (if width [0,2,4] (mode,left) = 0 then digits else digits ++ [pending 6 [0,2,4] (mode,left)*2^(6-width [0,2,4] (mode,left))])
  rw [last]
  have padding (k : Nat) : base64.padding k = (4-k%4)%4 := rfl
  interval_cases mode
  · have none : base64.padding digits.length = 0 := by
      change 8*n = 6*digits.length+0 at amount
      rw [padding]
      omega
    rw [if_pos (show width [0,2,4] (0,left) = 0 from rfl),Base.text,none]
    simp [close,Base.char,base64]
  · have two : base64.padding (digits.length+1) = 2 := by
      change 8*n = 6*digits.length+2 at amount
      rw [padding]
      omega
    rw [if_neg (show width [0,2,4] (1,left) ≠ 0 from two_ne_zero),base64.text_concat two]
    simp [close,kept,Base.char,base64,List.replicate_succ]
  · have one : base64.padding (digits.length+1) = 1 := by
      change 8*n = 6*digits.length+4 at amount
      rw [padding]
      omega
    rw [if_neg (show width [0,2,4] (2,left) ≠ 0 from four_ne_zero),base64.text_concat one]
    simp [close,kept,Base.char,base64]

theorem EncodeBase64_eq (pch : List UInt8) : EncodeBase64 pch = base64.text (writer64.complete (pch.map UInt8.toNat)) := by
  have ran := writer64.run_spec writer64.start_valid (@toNat_lt_of_mem pch)
  have amount := (writer64.run_start (@toNat_lt_of_mem pch)).1
  exact EncodeBase64.close_eq ran.valid amount

theorem DecodeBase64.invalid_iff {mode left n length : Nat} {p : Text} (valid : Kept [0,6,4,2] (mode,left))
    (amount : 6*length = 8*n+width [0,6,4,2] (mode,left)) (ended : ∀ c, p[0]? = some c → base64.inAlphabet c = false) :
    invalid mode left p = false ↔ (width [0,6,4,2] (mode,left) < 6 ∧ kept (mode,left) = 0) ∧
      List.replicate (base64.padding length) padChar <+: p ∧ ∀ c, p[base64.padding length]? = some c → base64.inAlphabet c = false := by
  have modes : mode < 4 := valid.1
  have unpadded := reads64.unpadded_iff (p := p)
  have padding : base64.padding length = (4-length%4)%4 := rfl
  interval_cases mode
  · change 6*length = 8*n+0 at amount
    rw [padding,show (4-length%4)%4 = 0 by omega]
    simpa [invalid,width,kept] using ended
  · simp [invalid,width]
  · change 6*length = 8*n+4 at amount
    rw [padding,show (4-length%4)%4 = 2 by omega,← unpadded]
    simp [invalid,width,kept]
  · change 6*length = 8*n+2 at amount
    rw [padding,show (4-length%4)%4 = 1 by omega,← unpadded]
    simp [invalid,width,kept]

theorem DecodeBase64_eq (p : Text) : DecodeBase64 p = ((run reader64.step reader64.start (base64.digits p)).1.map UInt8.ofNat,
    DecodeBase64.invalid (run reader64.step reader64.start (base64.digits p)).2.1 (run reader64.step reader64.start (base64.digits p)).2.2
      (p.drop (base64.front p).length)) := by
  rw [DecodeBase64,reads64.decodeChars_eq]
  rfl

def coder64 : base64.Coder where
  Encode := EncodeBase64
  Decode := DecodeBase64
  writer := writer64
  reader := reader64
  encodes := EncodeBase64_eq
  decodes p := by rw [DecodeBase64_eq]
  decides p := by
    have ran := reader64.run_spec reader64.start_valid (base64.digits_lt p)
    have amount := (reader64.run_start (base64.digits_lt p)).1
    rw [base64.length_digits] at amount
    rw [DecodeBase64_eq,base64.wellFormed_iff reader64]
    exact DecodeBase64.invalid_iff ran.valid amount fun _ => base64.front_ended

theorem EncodeBase32.close_eq {digits : List Nat} {mode left n : Nat} (valid : Pending 5 [0,3,1,4,2] (mode,left))
    (amount : 8*n = 5*digits.length+width [0,3,1,4,2] (mode,left)) : close digits mode left = base32.text (writer32.closed (digits,mode,left)) := by
  have modes : mode < 5 := valid.1
  have last := pending_mul valid
  change _ = base32.text (if width [0,3,1,4,2] (mode,left) = 0 then digits else digits ++ [pending 5 [0,3,1,4,2] (mode,left)*2^(5-width [0,3,1,4,2] (mode,left))])
  rw [last]
  have padding (k : Nat) : base32.padding k = (8-k%8)%8 := rfl
  interval_cases mode
  · have none : base32.padding digits.length = 0 := by
      change 8*n = 5*digits.length+0 at amount
      rw [padding]
      omega
    rw [if_pos (show width [0,3,1,4,2] (0,left) = 0 from rfl),Base.text,none]
    simp [close,Base.char,base32]
  · have six : base32.padding (digits.length+1) = 6 := by
      change 8*n = 5*digits.length+3 at amount
      rw [padding]
      omega
    rw [if_neg (show width [0,3,1,4,2] (1,left) ≠ 0 from three_ne_zero),base32.text_concat six]
    rfl
  · have four : base32.padding (digits.length+1) = 4 := by
      change 8*n = 5*digits.length+1 at amount
      rw [padding]
      omega
    rw [if_neg (show width [0,3,1,4,2] (2,left) ≠ 0 from one_ne_zero),base32.text_concat four]
    rfl
  · have three : base32.padding (digits.length+1) = 3 := by
      change 8*n = 5*digits.length+4 at amount
      rw [padding]
      omega
    rw [if_neg (show width [0,3,1,4,2] (3,left) ≠ 0 from four_ne_zero),base32.text_concat three]
    rfl
  · have one : base32.padding (digits.length+1) = 1 := by
      change 8*n = 5*digits.length+2 at amount
      rw [padding]
      omega
    rw [if_neg (show width [0,3,1,4,2] (4,left) ≠ 0 from two_ne_zero),base32.text_concat one]
    rfl

theorem EncodeBase32_eq (pch : List UInt8) : EncodeBase32 pch = base32.text (writer32.complete (pch.map UInt8.toNat)) := by
  have ran := writer32.run_spec writer32.start_valid (@toNat_lt_of_mem pch)
  have amount := (writer32.run_start (@toNat_lt_of_mem pch)).1
  exact EncodeBase32.close_eq ran.valid amount

theorem DecodeBase32.invalid_iff {mode left n length : Nat} {p : Text} (valid : Kept [0,5,2,7,4,1,6,3] (mode,left))
    (amount : 5*length = 8*n+width [0,5,2,7,4,1,6,3] (mode,left)) (ended : ∀ c, p[0]? = some c → base32.inAlphabet c = false) :
    invalid mode left p = false ↔ (width [0,5,2,7,4,1,6,3] (mode,left) < 5 ∧ kept (mode,left) = 0) ∧
      List.replicate (base32.padding length) padChar <+: p ∧ ∀ c, p[base32.padding length]? = some c → base32.inAlphabet c = false := by
  have modes : mode < 8 := valid.1
  have unpadded := reads32.unpadded_iff (p := p)
  have padding : base32.padding length = (8-length%8)%8 := rfl
  interval_cases mode
  · change 5*length = 8*n+0 at amount
    rw [padding,show (8-length%8)%8 = 0 by omega]
    simpa [invalid,width,kept] using ended
  · simp [invalid,width]
  · change 5*length = 8*n+2 at amount
    rw [padding,show (8-length%8)%8 = 6 by omega,← unpadded]
    simp [invalid,width,kept]
  · simp [invalid,width]
  · change 5*length = 8*n+4 at amount
    rw [padding,show (8-length%8)%8 = 4 by omega,← unpadded]
    simp [invalid,width,kept]
  · change 5*length = 8*n+1 at amount
    rw [padding,show (8-length%8)%8 = 3 by omega,← unpadded]
    simp [invalid,width,kept]
  · simp [invalid,width]
  · change 5*length = 8*n+3 at amount
    rw [padding,show (8-length%8)%8 = 1 by omega,← unpadded]
    simp [invalid,width,kept]

theorem DecodeBase32_eq (p : Text) : DecodeBase32 p = ((run reader32.step reader32.start (base32.digits p)).1.map UInt8.ofNat,
    DecodeBase32.invalid (run reader32.step reader32.start (base32.digits p)).2.1 (run reader32.step reader32.start (base32.digits p)).2.2
      (p.drop (base32.front p).length)) := by
  rw [DecodeBase32,reads32.decodeChars_eq]
  rfl

def coder32 : base32.Coder where
  Encode := EncodeBase32
  Decode := DecodeBase32
  writer := writer32
  reader := reader32
  encodes := EncodeBase32_eq
  decodes p := by rw [DecodeBase32_eq]
  decides p := by
    have ran := reader32.run_spec reader32.start_valid (base32.digits_lt p)
    have amount := (reader32.run_start (base32.digits_lt p)).1
    rw [base32.length_digits] at amount
    rw [DecodeBase32_eq,base32.wellFormed_iff reader32]
    exact DecodeBase32.invalid_iff ran.valid amount fun _ => base32.front_ended

/-- Both codings are undone, what is reported as invalid is what is not well formed, and
    well-formed text is written again as it was read; case apart, and with no more padding than
    there has to be. -/
theorem base64_base32 :
    (∀ pch, DecodeBase64 (EncodeBase64 pch) = (pch,false)) ∧ (∀ pch, DecodeBase32 (EncodeBase32 pch) = (pch,false)) ∧
    (∀ p, (DecodeBase64 p).2 = false ↔ base64.WellFormed p) ∧ (∀ p, (DecodeBase32 p).2 = false ↔ base32.WellFormed p) ∧
    (∀ p, (DecodeBase64 p).2 = false → EncodeBase64 (DecodeBase64 p).1 =
      base64.front p ++ List.replicate (base64.padding (base64.front p).length) padChar) ∧
    ∀ p, (DecodeBase32 p).2 = false → EncodeBase32 (DecodeBase32 p).1 =
      (base32.front p).map tolower ++ List.replicate (base32.padding (base32.front p).length) padChar := by
  refine ⟨coder64.decode_encode,coder32.decode_encode,coder64.decides,coder32.decides,fun p valid => ?_,fun p valid => ?_⟩
  · have again := coder64.encode_decode ((coder64.decides p).mp valid)
    rwa [show base64.fold = id from rfl,List.map_id] at again
  · exact coder32.encode_decode ((coder32.decides p).mp valid)

example : EncodeBase64 "foob".toUTF8.toList = "Zm9vYg==".toUTF8.toList ∧ EncodeBase32 "foob".toUTF8.toList = "mzxw6yq=".toUTF8.toList := by decide +kernel
example : DecodeBase64 "Zm9vYg=".toUTF8.toList = ("foob".toUTF8.toList,true) ∧ DecodeBase32 "MZXW6YQ=".toUTF8.toList = ("foob".toUTF8.toList,false) := by decide +kernel

end Tetra
