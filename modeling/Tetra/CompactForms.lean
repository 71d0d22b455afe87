import Mathlib
import Tetra.Opcodes
import Tetra.Serialize
import Tetra.Undo

/-!
Compact forms: numbers in as many bytes as they need, scripts that name a key or another
script by its hash, and outputs made of these.
-/
namespace Tetra
open Codec

/-! ### Variable-length integers -/

def varIntDigit (n : Int) (more : Bool) : UInt8 := UInt8.ofNat (n%128).toNat ||| if more then 0x80 else 0x00

/-- What `WriteVarInt` collects, last digit first; a negative number ends at once. -/
def varIntDigits (n : Int) (more : Bool) : List UInt8 :=
  if n ≤ 0x7F then [varIntDigit n more] else varIntDigit n more :: varIntDigits ((n >>> (7 : Nat))-1) true
termination_by n.toNat
decreasing_by
  rw [Int.shiftRight_eq_div_pow]
  omega

def WriteVarInt (n : Int) : List UInt8 := (varIntDigits n false).reverse

def GetSizeOfVarInt (n : Int) : Nat :=
  if n ≤ 0x7F then 1 else GetSizeOfVarInt ((n >>> (7 : Nat))-1)+1
termination_by n.toNat
decreasing_by
  rw [Int.shiftRight_eq_div_pow]
  omega

/-- Reading a number of 32 bits. -/
def readVarInt : Nat → Unserializer Nat
  | _, [] => .error "CDataStream::read() : end of data"
  | n, chData :: rest =>
    let n := (n <<< 7 ||| (chData &&& 0x7F).toNat)%2^32
    if chData &&& 0x80 ≠ 0 then readVarInt ((n+1)%2^32) rest else .ok (n,rest)

def ReadVarInt : Unserializer Nat := readVarInt 0

theorem varIntDigit_parts (n : Int) (more : Bool) :
    (varIntDigit n more &&& 0x7F).toNat = (n%128).toNat ∧ (varIntDigit n more &&& 0x80 ≠ 0 ↔ more = true) := by
  have small : (n%128).toNat < 128 := by omega
  have all : ∀ (digit : Fin 128) (more : Bool),
      ((UInt8.ofNat digit ||| if more then 0x80 else 0x00) &&& 0x7F).toNat = digit ∧
        ((UInt8.ofNat digit ||| if more then 0x80 else 0x00) &&& 0x80 ≠ 0 ↔ more = true) := by decide +kernel
  exact all ⟨(n%128).toNat,small⟩ more

theorem storedVersion_nonneg {n : Int} (nonneg : 0 ≤ n) : storedVersion n = n := if_neg (by omega)

/-- The digits of a number lead on to the next one, or end. -/
theorem readVarInt_digits {n : Int} (fits : n < 2^32) (more : Bool) (rest : List UInt8) :
    readVarInt 0 ((varIntDigits n more).reverse ++ rest) =
      if more then readVarInt (((storedVersion n).toNat+1)%2^32) rest else .ok ((storedVersion n).toNat,rest) := by
  induction n, more using varIntDigits.induct generalizing rest with
  | case1 n more small =>
    obtain ⟨low,high⟩ := varIntDigit_parts n more
    have value : (0 <<< 7 ||| (n%128).toNat)%2^32 = (storedVersion n).toNat := by
      rw [Nat.zero_shiftLeft,Nat.zero_or,storedVersion]
      split <;> omega
    rw [varIntDigits,if_pos small,List.reverse_singleton,List.singleton_append,readVarInt,low,value]
    simp only [high]
  | case2 n more large ih =>
    obtain ⟨low,high⟩ := varIntDigit_parts n more
    have down : n >>> (7 : Nat) = n/128 := by rw [Int.shiftRight_eq_div_pow]; rfl
    have value : ((((storedVersion (n/128-1)).toNat+1)%2^32) <<< 7 ||| (n%128).toNat)%2^32 = (storedVersion n).toNat := by
      rw [← Nat.shiftLeft_add_eq_or_of_lt (by omega),storedVersion_nonneg (by omega),storedVersion_nonneg (by omega),Nat.shiftLeft_eq]
      omega
    rw [down] at ih
    rw [varIntDigits,if_neg large,List.reverse_cons,List.append_assoc,down,ih (by omega),if_pos rfl,List.singleton_append,readVarInt,low,value]
    simp only [high]

theorem decodes_varInt {n : Int} (fits : n < 2^32) : Decodes ReadVarInt (WriteVarInt n) (storedVersion n).toNat :=
  fun rest => readVarInt_digits fits false rest

theorem varIntDigits_length (n : Int) (more : Bool) : (varIntDigits n more).length = GetSizeOfVarInt n := by
  induction n, more using varIntDigits.induct with
  | case1 n more small => rw [varIntDigits,if_pos small,GetSizeOfVarInt,if_pos small,List.length_singleton]
  | case2 n more large ih => rw [varIntDigits,if_neg large,GetSizeOfVarInt,if_neg large,List.length_cons,ih]

theorem WriteVarInt_length (n : Int) : (WriteVarInt n).length = GetSizeOfVarInt n := by
  rw [WriteVarInt,List.length_reverse,varIntDigits_length]

/-! ### Scripts -/

/-- The curve behind public keys. -/
structure KeyRules where
  IsFullyValid : CPubKey → Bool
  Decompress : CPubKey → Option CPubKey

/-- A valid key comes back from its first coordinate and the parity of its second. -/
def KeyRules.Lawful (keys : KeyRules) : Prop :=
  ∀ (parity : UInt8) (x y : List UInt8), x.length = 32 → y.length = 32 → y[31]? = some parity → keys.IsFullyValid (0x04 :: x ++ y) = true →
    keys.Decompress ((0x02+(parity &&& 0x01)) :: x) = some (0x04 :: x ++ y)

namespace CScriptCompressor

def nSpecialScripts : Nat := 6

abbrev code (opcode : Nat) : UInt8 := UInt8.ofNat opcode

open CScript (OP_DUP OP_HASH160 OP_EQUAL OP_EQUALVERIFY OP_CHECKSIG)

variable (keys : KeyRules)

def IsToKeyID (script : CScript) : Option (List UInt8) :=
  if script.length = 25 ∧ script.take 3 = [code OP_DUP,code OP_HASH160,20] ∧ script.drop 23 = [code OP_EQUALVERIFY,code OP_CHECKSIG] then
    some ((script.drop 3).take 20)
  else none

def IsToScriptID (script : CScript) : Option (List UInt8) :=
  if script.length = 23 ∧ script.take 2 = [code OP_HASH160,20] ∧ script.drop 22 = [code OP_EQUAL] then some ((script.drop 2).take 20) else none

def IsToPubKey (script : CScript) : Option CPubKey :=
  if script.length = 35 ∧ script.take 1 = [33] ∧ script.drop 34 = [code OP_CHECKSIG] ∧ (script[1]? = some 0x02 ∨ script[1]? = some 0x03) then
    some ((script.drop 1).take 33)
  else if script.length = 67 ∧ script.take 1 = [65] ∧ script.drop 66 = [code OP_CHECKSIG] ∧ script[1]? = some 0x04 then
    let pubkey := (script.drop 1).take 65
    if keys.IsFullyValid pubkey then some pubkey else none
  else none

def Compress (script : CScript) : Option (List UInt8) :=
  match IsToKeyID script with
  | some keyID => some (0x00 :: keyID)
  | none =>
    match IsToScriptID script with
    | some scriptID => some (0x01 :: scriptID)
    | none =>
      match IsToPubKey keys script with
      | none => none
      | some pubkey =>
        let header := pubkey[0]?.getD 0
        let x := (pubkey.drop 1).take 32
        if header = 0x02 ∨ header = 0x03 then some (header :: x)
        else if header = 0x04 then some ((0x04 ||| (pubkey[64]?.getD 0 &&& 0x01)) :: x)
        else none

def GetSpecialSize (nSize : Nat) : Nat := if nSize = 0 ∨ nSize = 1 then 20 else if nSize ≤ 5 then 32 else 0

/-- The script afterwards; it stays as it was where a key does not decompress. -/
def Decompress (nSize : Nat) (data : List UInt8) (script : CScript) : CScript :=
  match nSize with
  | 0 => [code OP_DUP,code OP_HASH160,20] ++ data ++ [code OP_EQUALVERIFY,code OP_CHECKSIG]
  | 1 => [code OP_HASH160,20] ++ data ++ [code OP_EQUAL]
  | 2 | 3 => [33,UInt8.ofNat nSize] ++ data ++ [code OP_CHECKSIG]
  | 4 | 5 =>
    match keys.Decompress (UInt8.ofNat (nSize-2) :: data) with
    | none => script
    | some pubkey => [65] ++ pubkey ++ [code OP_CHECKSIG]
  | _ => script

/-- The size that is written is a number of 32 bits. -/
def GetSerializeSize (script : CScript) : Nat :=
  match Compress keys script with
  | some compr => compr.length
  | none => script.length+GetSizeOfVarInt ((script.length+nSpecialScripts)%2^32 : Nat)

def Serialize (script : CScript) : List UInt8 :=
  match Compress keys script with
  | some compr => compr
  | none => WriteVarInt ((script.length+nSpecialScripts)%2^32 : Nat) ++ script

/-- Reads into a script that is empty before. -/
def Unserialize : Unserializer CScript := do
  let nSize ← ReadVarInt
  if nSize < nSpecialScripts then
    let vch ← readData (GetSpecialSize nSize)
    return Decompress keys nSize vch []
  else readData (nSize-nSpecialScripts)

theorem GetSpecialSize_le (nSize : Nat) : GetSpecialSize nSize ≤ 32 := by
  unfold GetSpecialSize
  split
  · decide
  · split <;> decide

theorem Serialize_length (script : CScript) : (Serialize keys script).length = GetSerializeSize keys script := by
  unfold Serialize GetSerializeSize
  split
  · rfl
  · rw [List.length_append,WriteVarInt_length,Nat.add_comm]

/-- A kind is a single byte. -/
theorem decodes_kind {kind : Nat} (special : kind < nSpecialScripts) : Decodes ReadVarInt [UInt8.ofNat kind] kind := by
  have small : kind < 6 := special
  have number : WriteVarInt (kind : Int) = [UInt8.ofNat kind] := by
    have all : ∀ kind : Fin 6, varIntDigit ((kind : Nat) : Int) false = UInt8.ofNat kind := by decide
    rw [WriteVarInt,varIntDigits,if_pos (by omega),all ⟨kind,small⟩]
    rfl
  have kindRead := @decodes_varInt (kind : Int) (by omega)
  rwa [number,storedVersion_nonneg (by omega),Int.toNat_natCast] at kindRead

/-- A special script is read from its kind and its data. -/
theorem decodes_special {kind : Nat} {data : List UInt8} {script : CScript} (special : kind < nSpecialScripts)
    (sized : data.length = GetSpecialSize kind) (back : Decompress keys kind data [] = script) :
    Decodes (Unserialize keys) (UInt8.ofNat kind :: data) script := by
  have dataRead := (decodes_data data).return fun vch => Decompress keys kind vch []
  rw [sized,back] at dataRead
  refine (decodes_kind special).bind ?_
  rw [if_pos special]
  exact dataRead

/-- The parts of a script around its data. -/
theorem parts {script before after : CScript} (k m : Nat) (first : script.take k = before) (last : script.drop (k+m) = after) :
    before ++ (script.drop k).take m ++ after = script := by
  rw [← first,← last,← List.drop_drop,List.append_assoc,List.take_append_drop,List.take_append_drop]

theorem take_two {script : CScript} {a b : UInt8} (first : script.take 1 = [a]) (second : script[1]? = some b) : script.take 2 = [a,b] := by
  rw [List.take_add_one,first,second]
  rfl

theorem decodes_keyID {script keyID : List UInt8} (found : IsToKeyID script = some keyID) : Decodes (Unserialize keys) (0x00 :: keyID) script := by
  unfold IsToKeyID at found
  split at found
  next shape =>
    obtain ⟨sized,first,last⟩ := shape
    obtain rfl := Option.some.inj found
    refine @decodes_special keys 0 _ _ (by decide) ?_ (parts 3 20 first last)
    rw [List.length_take,List.length_drop,sized]
    rfl
  · contradiction

theorem decodes_scriptID {script scriptID : List UInt8} (found : IsToScriptID script = some scriptID) :
    Decodes (Unserialize keys) (0x01 :: scriptID) script := by
  unfold IsToScriptID at found
  split at found
  next shape =>
    obtain ⟨sized,first,last⟩ := shape
    obtain rfl := Option.some.inj found
    refine @decodes_special keys 1 _ _ (by decide) ?_ (parts 2 20 first last)
    rw [List.length_take,List.length_drop,sized]
    rfl
  · contradiction

/-- What a script that pays to a key is made of. -/
inductive PaysKey (script : CScript) (pubkey : CPubKey) : Prop
  | compressed (header : UInt8) (x : List UInt8) (sized : x.length = 32) (kind : header = 0x02 ∨ header = 0x03)
    (key : pubkey = header :: x) (shape : script = [33,header] ++ x ++ [code OP_CHECKSIG])
  | full (x y : List UInt8) (sized : x.length = 32 ∧ y.length = 32) (key : pubkey = 0x04 :: x ++ y) (valid : keys.IsFullyValid pubkey = true)
    (shape : script = [65] ++ pubkey ++ [code OP_CHECKSIG])

theorem IsToPubKey_shape {script : CScript} {pubkey : CPubKey} (found : IsToPubKey keys script = some pubkey) : PaysKey keys script pubkey := by
  unfold IsToPubKey at found
  split at found
  next shape =>
    obtain ⟨sized,first,last,kind⟩ := shape
    obtain rfl := Option.some.inj found
    obtain ⟨header,here,known⟩ : ∃ header, script[1]? = some header ∧ (header = 0x02 ∨ header = 0x03) := by
      rcases kind with two | three
      · exact ⟨2,two,.inl rfl⟩
      · exact ⟨3,three,.inr rfl⟩
    have start := take_two first here
    refine .compressed header ((script.drop 2).take 32) ?_ known ?_ (parts 2 32 start last).symm
    · rw [List.length_take,List.length_drop,sized]
      rfl
    · rw [List.drop_eq_getElem_cons (by omega),List.take_succ_cons]
      rw [List.getElem?_eq_getElem (by omega)] at here
      rw [Option.some.inj here]
  · split at found
    next shape =>
      obtain ⟨sized,first,last,here⟩ := shape
      simp only at found
      split at found
      next valid =>
        obtain rfl := Option.some.inj found
        refine .full ((script.drop 2).take 32) ((script.drop 34).take 32) ⟨?_,?_⟩ ?_ valid (parts 1 65 first last).symm
        · rw [List.length_take,List.length_drop,sized]
          rfl
        · rw [List.length_take,List.length_drop,sized]
          rfl
        · rw [List.drop_eq_getElem_cons (by omega),List.take_succ_cons]
          rw [List.getElem?_eq_getElem (by omega)] at here
          rw [Option.some.inj here,List.cons_append]
          congr 1
          have halves := @List.take_add UInt8 (script.drop 2) 32 32
          rw [List.drop_drop] at halves
          exact halves
      · contradiction
    · contradiction

theorem decodes_pubKey (lawful : keys.Lawful) {script : CScript} {pubkey : CPubKey} (pays : PaysKey keys script pubkey) :
    ∃ compr, (if pubkey[0]?.getD 0 = 0x02 ∨ pubkey[0]?.getD 0 = 0x03 then some (pubkey[0]?.getD 0 :: (pubkey.drop 1).take 32)
      else if pubkey[0]?.getD 0 = 0x04 then some ((0x04 ||| (pubkey[64]?.getD 0 &&& 0x01)) :: (pubkey.drop 1).take 32) else none) = some compr ∧
        Decodes (Unserialize keys) compr script := by
  cases pays with
  | compressed header x sized kind key shape =>
    subst key
    refine ⟨header :: x,?_,?_⟩
    · simp [kind,sized]
    · rcases kind with rfl | rfl
      · exact @decodes_special keys 2 _ _ (by decide) sized shape.symm
      · exact @decodes_special keys 3 _ _ (by decide) sized shape.symm
  | full x y sized key valid shape =>
    subst key
    obtain ⟨parity,last⟩ : ∃ parity, y[31]? = some parity := ⟨_,List.getElem?_eq_getElem (by omega)⟩
    have lastOf : (0x04 :: x ++ y)[64]? = some parity := by
      rw [List.cons_append,List.getElem?_cons_succ,List.getElem?_append_right (by omega),sized.1]
      exact last
    have point := lawful parity x y sized.1 sized.2 last valid
    have first : ((0x04 :: x ++ y).drop 1).take 32 = x := by simp [sized.1]
    have bit : parity &&& 0x01 = 0 ∨ parity &&& 0x01 = 1 := by
      have low : (parity &&& 0x01).toNat = parity.toNat%2 := by simp [UInt8.toNat_and,Nat.and_one_is_mod]
      rcases Nat.mod_two_eq_zero_or_one parity.toNat with even | odd
      · exact .inl (UInt8.toNat_inj.mp (low.trans even))
      · exact .inr (UInt8.toNat_inj.mp (low.trans odd))
    refine ⟨(0x04 ||| (parity &&& 0x01)) :: x,?_,?_⟩
    · rw [lastOf,first]
      simp
    · rcases bit with even | odd
      · rw [even] at point ⊢
        refine @decodes_special keys 4 _ _ (by decide) sized.1 ?_
        have key : keys.Decompress (UInt8.ofNat (4-2) :: x) = some (0x04 :: x ++ y) := point
        rw [shape,Decompress,key]
      · rw [odd] at point ⊢
        refine @decodes_special keys 5 _ _ (by decide) sized.1 ?_
        have key : keys.Decompress (UInt8.ofNat (5-2) :: x) = some (0x04 :: x ++ y) := point
        rw [shape,Decompress,key]

/-- A script without a special form has its length before it, whatever is done with the
    lengths that stand for a special form. -/
theorem decodes_plain {script : CScript} (fits : script.length+nSpecialScripts < 2^32) (special : Nat → Unserializer CScript) :
    Decodes (do let nSize ← ReadVarInt; if nSize < nSpecialScripts then special nSize else readData (nSize-nSpecialScripts))
      (WriteVarInt ((script.length+nSpecialScripts)%2^32 : Nat) ++ script) script := by
  rw [Nat.mod_eq_of_lt fits]
  have number := @decodes_varInt ((script.length+nSpecialScripts : Nat) : Int) (by exact_mod_cast fits)
  rw [storedVersion_nonneg (by omega),Int.toNat_natCast] at number
  refine number.bind ?_
  rw [if_neg (by omega),Nat.add_sub_cancel]
  exact decodes_data script

/-- What is written of a script is read back. -/
theorem decodes_script (lawful : keys.Lawful) {script : CScript} (fits : script.length+nSpecialScripts < 2^32) :
    Decodes (Unserialize keys) (Serialize keys script) script := by
  unfold Serialize Compress
  cases keyID : IsToKeyID script with
  | some hash => exact decodes_keyID keys keyID
  | none =>
    cases scriptID : IsToScriptID script with
    | some hash => exact decodes_scriptID keys scriptID
    | none =>
      cases pays : IsToPubKey keys script with
      | none => exact decodes_plain fits _
      | some pubkey =>
        obtain ⟨compr,written,read⟩ := decodes_pubKey keys lawful (IsToPubKey_shape keys pays)
        simp only [written]
        exact read

end CScriptCompressor

end Tetra
