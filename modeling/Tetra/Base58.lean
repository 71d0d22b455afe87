import Tetra.BigNum
import Tetra.DeerRequest
import Tetra.Templates

/-!
Bytes as text of fifty-eight characters, with a checksum, and addresses in that form. The big
numbers in between are exact.
-/
namespace Tetra
open Codec Positional
open Deer (isspace)

def pszBase58 : Text := "123456789ABCDEFGHJKLMNPQRSTUVWXYZabcdefghijkmnopqrstuvwxyz".toUTF8.toList

/-- The digits, the least significant first; each takes the number down, so that the number
    itself is enough fuel. -/
def encodeLoop : Nat → Int → Text
  | 0, _ => []
  | fuel+1, bn => if 0 < bn then pszBase58.getD (bn.tmod 58).toNat 0 :: encodeLoop fuel (bn.tdiv 58) else []

def EncodeBase58 (vch : List UInt8) : Text :=
  let bn := setvch (vch.reverse ++ [0])
  let str := encodeLoop bn.natAbs bn
  let str := str ++ List.replicate (vch.takeWhile (· = 0)).length (pszBase58.getD 0 0)
  str.reverse

/-- `none` where the decoding returns false; only spaces may follow the digits. -/
def decodeLoop : Text → Int → Option Int
  | [], bn => some bn
  | c :: p, bn =>
    match pszBase58.idxOf? c with
    | none => if ((c :: p).dropWhile isspace).isEmpty then some bn else none
    | some digit => decodeLoop p (bn*58+digit)

/-- The sign has a byte of its own when the highest bit of the number is set. -/
def trimSign (vchTmp : List UInt8) : List UInt8 :=
  match vchTmp.reverse with
  | last :: before :: rest => if last = 0 ∧ 0x80 ≤ before then (before :: rest).reverse else vchTmp
  | _ => vchTmp

/-- The zeros are counted in an `int`. One that is negative asks for more bytes than a vector
    can have, or for fewer than are copied to its end. -/
def DecodeBase58 (psz : Text) : Except Reject (Option (List UInt8)) :=
  let psz := (psz.takeWhile (· ≠ 0)).dropWhile isspace
  match decodeLoop psz 0 with
  | none => .ok none
  | some bn =>
    let vchTmp := trimSign (getvch bn)
    let nLeadingZeros := (Int32.ofNat (psz.takeWhile (· = pszBase58.getD 0 0)).length).toInt
    if nLeadingZeros < 0 then .error (.plain "vector::_M_fill_assign")
    else .ok (some (List.replicate nLeadingZeros.toNat 0 ++ vchTmp.reverse))

/-! ### With a checksum -/

variable (Hash : List UInt8 → Nat)

/-- The first four bytes of the hash. -/
def checksum (vch : List UInt8) : List UInt8 := (leBytes 32 (Hash vch)).take 4

def EncodeBase58Check (vchIn : List UInt8) : Text := EncodeBase58 (vchIn ++ checksum Hash vchIn)

def DecodeBase58Check (psz : Text) : Except Reject (Option (List UInt8)) := do
  match ← DecodeBase58 psz with
  | none => return none
  | some vchRet =>
    if vchRet.length < 4 then return none
    let rest := vchRet.take (vchRet.length-4)
    if checksum Hash rest ≠ vchRet.drop (vchRet.length-4) then return none
    return some rest

/-! ### Addresses -/

structure CBase58Data where
  nVersion : UInt8 := 0
  vchData : List UInt8 := []
deriving DecidableEq

namespace CBase58Data

/-- Text that does not decode empties the data. -/
def SetString (psz : Text) : Except Reject (Bool × CBase58Data) := do
  match ← DecodeBase58Check Hash psz with
  | some (nVersion :: vchData) => return (true,⟨nVersion,vchData⟩)
  | _ => return (false,⟨0,[]⟩)

def ToString (data : CBase58Data) : Text := EncodeBase58Check Hash (data.nVersion :: data.vchData)

end CBase58Data

abbrev CBitcoinAddress := CBase58Data

namespace CBitcoinAddress

def PUBKEY_ADDRESS : UInt8 := 65
def SCRIPT_ADDRESS : UInt8 := 5
def PUBKEY_ADDRESS_TEST : UInt8 := 111
def SCRIPT_ADDRESS_TEST : UInt8 := 196

def Set (fTestNet : Bool) (addr : CBitcoinAddress) : CTxDestination → Bool × CBitcoinAddress
  | .CNoDestination => (false,addr)
  | .CKeyID id => (true,⟨if fTestNet then PUBKEY_ADDRESS_TEST else PUBKEY_ADDRESS,leBytes 20 id⟩)
  | .CScriptID id => (true,⟨if fTestNet then SCRIPT_ADDRESS_TEST else SCRIPT_ADDRESS,leBytes 20 id⟩)

def IsValid (fTestNet : Bool) (addr : CBitcoinAddress) : Bool :=
  if addr.nVersion = PUBKEY_ADDRESS ∨ addr.nVersion = SCRIPT_ADDRESS then !fTestNet && addr.vchData.length == 20
  else if addr.nVersion = PUBKEY_ADDRESS_TEST ∨ addr.nVersion = SCRIPT_ADDRESS_TEST then fTestNet && addr.vchData.length == 20
  else false

def Get (fTestNet : Bool) (addr : CBitcoinAddress) : CTxDestination :=
  if !IsValid fTestNet addr then .CNoDestination
  else if addr.nVersion = PUBKEY_ADDRESS ∨ addr.nVersion = PUBKEY_ADDRESS_TEST then .CKeyID (leNat (addr.vchData.take 20))
  else if addr.nVersion = SCRIPT_ADDRESS ∨ addr.nVersion = SCRIPT_ADDRESS_TEST then .CScriptID (leNat (addr.vchData.take 20))
  else .CNoDestination

end CBitcoinAddress

/-! ### The digits of bytes and of characters -/

def base58Char (digit : Nat) : UInt8 := pszBase58.getD digit 0

private theorem base58_chars : pszBase58.length = 58 ∧ ∀ d : Fin 58, pszBase58.idxOf? (base58Char d) = some d.val ∧ base58Char d ≠ 0 ∧ isspace (base58Char d) = false := by
  decide +kernel

theorem encodeLoop_eq {fuel n : Nat} (enough : n ≤ fuel) : encodeLoop fuel n = (Nat.digits 58 n).map base58Char := by
  induction fuel generalizing n with
  | zero =>
    obtain rfl : n = 0 := by omega
    rfl
  | succ fuel ih =>
    rw [encodeLoop]
    by_cases zero : n = 0
    · subst zero
      rfl
    · rw [if_pos (by omega),Nat.digits_def' (by omega) (by omega),List.map_cons,← ih (by omega)]
      rfl

theorem setvch_positive (vch : List UInt8) : setvch (vch.reverse ++ [0]) = leNat vch.reverse := by
  rw [setvch,List.getLast?_concat,List.dropLast_concat]
  dsimp only
  rw [if_neg (by decide),leNat_append]
  simp [leNat]

theorem EncodeBase58_eq (vch : List UInt8) : EncodeBase58 vch = (rebase 256 58 (vch.map UInt8.toNat)).map base58Char := by
  rw [EncodeBase58,setvch_positive]
  rw [Int.natAbs_natCast,encodeLoop_eq le_rfl,List.reverse_append,List.reverse_replicate,rebase,zeros_toNat,← leNat_reverse,
    List.map_append,List.map_replicate,List.map_reverse]
  rfl

example : EncodeBase58 [0,0,0x28,0x7f,0xb4,0xcd] = "11233QC4".toUTF8.toList := by decide +kernel

private theorem top_bits : ∀ b : Fin 256, UInt8.ofNat b &&& 0x80 ≠ 0 ↔ 0x80 ≤ UInt8.ofNat b := by decide +kernel

theorem top_bit {b : UInt8} : b &&& 0x80 ≠ 0 ↔ 0x80 ≤ b := by
  have bits := top_bits ⟨b.toNat,b.toNat_lt⟩
  simpa only [UInt8.ofNat_toNat] using bits

theorem trimSign_getvch (n : Nat) : trimSign (getvch n) = bytesOf n := by
  rw [getvch_eq,signedBytes,Int.natAbs_natCast,decide_eq_false (by omega)]
  cases digits : (bytesOf n).reverse with
  | nil =>
    rw [List.reverse_eq_nil_iff.mp digits]
    rfl
  | cons first rest =>
    have bytes : bytesOf n = (first :: rest).reverse := by rw [← digits,List.reverse_reverse]
    rw [bytes,signed]
    by_cases clear : first &&& 0x80 = 0
    · have none := ((sign_bit first).2.1 clear).2.1
      rw [if_neg (by simpa using clear),if_neg (by simp),none,trimSign,List.reverse_reverse]
      split
      next last before rest' same =>
        obtain ⟨rfl,rfl⟩ := List.cons.inj same
        rw [if_neg fun trims => bytesOf_first digits trims.1]
      · rfl
    · rw [if_pos clear,if_neg (by simp),trimSign,List.reverse_reverse]
      dsimp only
      rw [if_pos ⟨rfl,top_bit.mp clear⟩]

theorem decodeLoop_eq {ds : List Nat} (small : ∀ d ∈ ds, d < 58) (front : List Nat) :
    decodeLoop (ds.map base58Char) (value 58 front) = some (value 58 (front ++ ds) : Int) := by
  induction ds generalizing front with
  | nil => rw [List.append_nil]; rfl
  | cons d ds ih =>
    have digit := (base58_chars.2 ⟨d,small d List.mem_cons_self⟩).1
    dsimp only at digit
    rw [List.map_cons,decodeLoop,digit]
    dsimp only
    have step := ih (fun d member => small d (List.mem_cons_of_mem _ member)) (front ++ [d])
    rw [value_concat,List.append_assoc] at step
    push_cast at step
    exact step

theorem takeWhile_congr {α : Type*} {p q : α → Bool} {l : List α} (same : ∀ a ∈ l, p a = q a) : l.takeWhile p = l.takeWhile q := by
  induction l with
  | nil => rfl
  | cons a l ih => rw [List.takeWhile_cons,List.takeWhile_cons,same a List.mem_cons_self,ih fun a member => same a (List.mem_cons_of_mem _ member)]

theorem base58Char_eq_zero {d : Nat} (small : d < 58) : base58Char d = base58Char 0 ↔ d = 0 := by
  refine ⟨fun same => ?_,fun same => by rw [same]⟩
  have left := (base58_chars.2 ⟨d,small⟩).1
  have right := (base58_chars.2 ⟨0,by omega⟩).1
  dsimp only at left right
  rw [same,right] at left
  exact (Option.some.inj left).symm

theorem zeros_chars {ds : List Nat} (small : ∀ d ∈ ds, d < 58) : ((ds.map base58Char).takeWhile (· = base58Char 0)).length = zeros ds := by
  rw [zeros,List.takeWhile_map,List.length_map]
  congr 1
  apply takeWhile_congr
  intro d member
  simpa using base58Char_eq_zero (small d member)

/-- The zeros that an `int` counts. -/
def intCount (count : Nat) : Int := (Int32.ofNat count).toInt

theorem intCount_eq_iff (count : Nat) : intCount count = count ↔ count < 2^31 := by
  refine ⟨fun same => ?_,fun small => Int32.toInt_ofNat_of_lt small⟩
  have bound := (Int32.ofNat count).toInt_lt
  rw [intCount] at same
  omega

theorem DecodeBase58_eq {ds : List Nat} (small : ∀ d ∈ ds, d < 58) :
    DecodeBase58 (ds.map base58Char) = if intCount (zeros ds) < 0 then .error (.plain "vector::_M_fill_assign")
      else .ok (some (List.replicate (intCount (zeros ds)).toNat 0 ++ (bytesOf (value 58 ds)).reverse)) := by
  have digit (c : UInt8) (member : c ∈ ds.map base58Char) : c ≠ 0 ∧ isspace c = false := by
    obtain ⟨d,inside,rfl⟩ := List.mem_map.mp member
    exact (base58_chars.2 ⟨d,small d inside⟩).2
  have whole : (ds.map base58Char).takeWhile (· ≠ 0) = ds.map base58Char := List.takeWhile_eq_self_iff.mpr fun c member => by simpa using (digit c member).1
  have unspaced : (ds.map base58Char).dropWhile isspace = ds.map base58Char := by
    cases chars : ds.map base58Char with
    | nil => rfl
    | cons c rest => exact List.dropWhile_cons_of_neg (by simp [(digit c (by rw [chars]; exact List.mem_cons_self)).2])
  have decoded : decodeLoop (ds.map base58Char) 0 = some (value 58 ds : Int) := decodeLoop_eq small []
  rw [DecodeBase58,whole,unspaced]
  dsimp only
  rw [decoded]
  dsimp only
  rw [trimSign_getvch]
  rw [show pszBase58.getD 0 0 = base58Char 0 from rfl,zeros_chars small]
  rfl

/-! ### There and back -/

theorem decode_encode_iff (vch : List UInt8) : DecodeBase58 (EncodeBase58 vch) = .ok (some vch) ↔ (vch.takeWhile (· = 0)).length < 2^31 := by
  have back := rebase_rebase (by omega) 58 (@toNat_lt_of_mem vch)
  rw [EncodeBase58_eq,DecodeBase58_eq (rebase_lt (by omega) _ _),zeros_rebase,value_rebase,← leNat_reverse,zeros_toNat,← intCount_eq_iff]
  have bytes := bytes_eq vch
  split
  next negative =>
    refine ⟨(by cases ·),fun exact => ?_⟩
    omega
  next positive =>
    refine ⟨fun result => ?_,fun exact => ?_⟩
    · have same := Option.some.inj (Except.ok.inj result)
      have length := congrArg List.length (same.trans bytes)
      simp only [List.length_append,List.length_replicate] at length
      omega
    · rw [exact,Int.toNat_natCast,← bytes]

theorem exists_digits {psz : Text} (inside : ∀ c ∈ psz, c ∈ pszBase58) : ∃ ds : List Nat, psz = ds.map base58Char ∧ ∀ d ∈ ds, d < 58 := by
  induction psz with
  | nil => exact ⟨[],rfl,by simp⟩
  | cons c psz ih =>
    obtain ⟨ds,rfl,small⟩ := ih fun c member => inside c (List.mem_cons_of_mem _ member)
    obtain ⟨d,low,rfl⟩ := List.mem_iff_getElem.mp (inside c List.mem_cons_self)
    refine ⟨d :: ds,?_,?_⟩
    · rw [List.map_cons,base58Char,List.getD_eq_getElem _ _ low]
    · rw [base58_chars.1] at low
      simpa [low] using small

theorem encode_decode_iff {psz : Text} (inside : ∀ c ∈ psz, c ∈ pszBase58) :
    (∃ vch, DecodeBase58 psz = .ok (some vch) ∧ EncodeBase58 vch = psz) ↔ (psz.takeWhile (· = base58Char 0)).length < 2^31 := by
  obtain ⟨ds,rfl,small⟩ := exists_digits inside
  rw [DecodeBase58_eq small,zeros_chars small,← intCount_eq_iff]
  split
  next negative =>
    refine ⟨fun ⟨_,result,_⟩ => absurd result (by simp),fun exact => ?_⟩
    omega
  next positive =>
    have chars (k : Nat) : (List.replicate k 0 ++ (bytesOf (value 58 ds)).reverse).map UInt8.toNat =
        List.replicate k 0 ++ (Nat.digits 256 (value 58 ds)).reverse := by
      rw [List.map_append,List.map_replicate,List.map_reverse,bytesOf_toNat]
      rfl
    refine ⟨fun ⟨vch,result,back⟩ => ?_,fun exact => ⟨_,rfl,?_⟩⟩
    · obtain rfl := Option.some.inj (Except.ok.inj result)
      have zeroes := congrArg (fun psz : Text => (psz.takeWhile (· = base58Char 0)).length) back
      rw [EncodeBase58_eq,zeros_chars (rebase_lt (by omega) _ _),zeros_chars small,zeros_rebase,chars,zeros_digits] at zeroes
      omega
    · rw [EncodeBase58_eq,chars,exact,Int.toNat_natCast]
      exact congrArg (List.map base58Char) (rebase_rebase (by omega) 256 small)

/-! ### The checksum -/

variable (Hash : List UInt8 → Nat)

theorem checksum_length (vch : List UInt8) : (checksum Hash vch).length = 4 := by
  rw [checksum,List.length_take,leBytes_length]
  rfl

/-- Text is accepted for what it decodes to in front of the checksum of that. -/
theorem DecodeBase58Check_iff (psz : Text) (vch : List UInt8) :
    DecodeBase58Check Hash psz = .ok (some vch) ↔ DecodeBase58 psz = .ok (some (vch ++ checksum Hash vch)) := by
  have four := checksum_length Hash vch
  rw [DecodeBase58Check]
  cases decoded : DecodeBase58 psz with
  | error reject => exact ⟨(by cases ·),(by cases ·)⟩
  | ok bytes =>
    cases bytes with
    | none => exact ⟨(by cases ·),(by cases ·)⟩
    | some vchRet =>
      change (if vchRet.length < 4 then Except.ok none else
        if checksum Hash (vchRet.take (vchRet.length-4)) ≠ vchRet.drop (vchRet.length-4) then .ok none
        else .ok (some (vchRet.take (vchRet.length-4)))) = Except.ok (some vch) ↔ _
      constructor
      · intro accepted
        split at accepted
        · cases accepted
        · split at accepted
          · cases accepted
          next same =>
            obtain rfl := Option.some.inj (Except.ok.inj accepted)
            rw [not_not.mp same,List.take_append_drop]
      · intro bytes
        obtain rfl := Option.some.inj (Except.ok.inj bytes)
        have rest : (vch ++ checksum Hash vch).length-4 = vch.length := by
          rw [List.length_append,four]
          omega
        rw [if_neg (by rw [List.length_append,four]; omega),rest,List.take_left' rfl,List.drop_left' rfl,if_neg (by simp)]

theorem check_decode_encode_iff (vch : List UInt8) :
    DecodeBase58Check Hash (EncodeBase58Check Hash vch) = .ok (some vch) ↔ ((vch ++ checksum Hash vch).takeWhile (· = 0)).length < 2^31 := by
  rw [DecodeBase58Check_iff,EncodeBase58Check,decode_encode_iff]

/-! ### Addresses read back -/

namespace CBase58Data

theorem SetString_ToString {data : CBase58Data} (version : data.nVersion ≠ 0) : SetString Hash (data.ToString Hash) = .ok (true,data) := by
  have decoded : DecodeBase58Check Hash (data.ToString Hash) = .ok (some (data.nVersion :: data.vchData)) := by
    rw [ToString,check_decode_encode_iff,List.cons_append,List.takeWhile_cons_of_neg (by simpa using version)]
    simp
  rw [SetString,decoded]
  rfl

end CBase58Data

namespace CBitcoinAddress

theorem Set_version (fTestNet : Bool) (addr : CBitcoinAddress) {dest : CTxDestination} (some : dest ≠ .CNoDestination) :
    (Set fTestNet addr dest).2.nVersion ≠ 0 := by
  cases dest with
  | CNoDestination => contradiction
  | CKeyID id => cases fTestNet <;> simp [Set,PUBKEY_ADDRESS,PUBKEY_ADDRESS_TEST]
  | CScriptID id => cases fTestNet <;> simp [Set,SCRIPT_ADDRESS,SCRIPT_ADDRESS_TEST]

theorem IsValid_Set (fTestNet : Bool) (addr : CBitcoinAddress) {dest : CTxDestination} (some : dest ≠ .CNoDestination) :
    IsValid fTestNet (Set fTestNet addr dest).2 = true := by
  cases dest with
  | CNoDestination => contradiction
  | CKeyID id => cases fTestNet <;> simp [IsValid,Set,PUBKEY_ADDRESS,SCRIPT_ADDRESS,PUBKEY_ADDRESS_TEST,SCRIPT_ADDRESS_TEST]
  | CScriptID id => cases fTestNet <;> simp [IsValid,Set,PUBKEY_ADDRESS,SCRIPT_ADDRESS,PUBKEY_ADDRESS_TEST,SCRIPT_ADDRESS_TEST]

theorem Get_Set (fTestNet : Bool) (addr : CBitcoinAddress) {dest : CTxDestination} (some : dest ≠ .CNoDestination) (fits : dest.Fits) :
    Get fTestNet (Set fTestNet addr dest).2 = dest := by
  have valid := IsValid_Set fTestNet addr some
  have bytes {id : Nat} (small : id < 2^160) : leNat ((leBytes 20 id).take 20) = id := by
    rw [List.take_of_length_le (leBytes_length 20 id).le]
    exact leNat_leBytes (small.trans_eq (by norm_num))
  rw [Get,valid,Bool.not_true,if_neg Bool.false_ne_true]
  cases dest with
  | CNoDestination => exact absurd rfl some
  | CKeyID id =>
    have same : leNat ((leBytes 20 id).take 20) = id := bytes fits
    cases fTestNet <;> simp [Set,same]
  | CScriptID id =>
    have same : leNat ((leBytes 20 id).take 20) = id := bytes fits
    cases fTestNet <;> simp [Set,same,PUBKEY_ADDRESS,PUBKEY_ADDRESS_TEST,SCRIPT_ADDRESS,SCRIPT_ADDRESS_TEST]

end CBitcoinAddress

/-- Text and bytes turn into each other exactly as long as an `int` counts the zeros in front;
    the checksum decides what is accepted, and addresses always come back. -/
theorem base58_iff :
    (∀ vch, DecodeBase58 (EncodeBase58 vch) = .ok (some vch) ↔ (vch.takeWhile (· = 0)).length < 2^31) ∧
    (∀ psz : Text, (∀ c ∈ psz, c ∈ pszBase58) →
      ((∃ vch, DecodeBase58 psz = .ok (some vch) ∧ EncodeBase58 vch = psz) ↔ (psz.takeWhile (· = base58Char 0)).length < 2^31)) ∧
    (∀ psz vch, DecodeBase58Check Hash psz = .ok (some vch) ↔ DecodeBase58 psz = .ok (some (vch ++ checksum Hash vch))) ∧
    (∀ vch, DecodeBase58Check Hash (EncodeBase58Check Hash vch) = .ok (some vch) ↔ ((vch ++ checksum Hash vch).takeWhile (· = 0)).length < 2^31) ∧
    ∀ (fTestNet : Bool) (addr : CBitcoinAddress) (dest : CTxDestination), dest ≠ .CNoDestination → dest.Fits →
      CBase58Data.SetString Hash ((CBitcoinAddress.Set fTestNet addr dest).2.ToString Hash) = .ok (true,(CBitcoinAddress.Set fTestNet addr dest).2) ∧
        CBitcoinAddress.Get fTestNet (CBitcoinAddress.Set fTestNet addr dest).2 = dest := by
  refine ⟨decode_encode_iff,fun _ inside => encode_decode_iff inside,DecodeBase58Check_iff Hash,check_decode_encode_iff Hash,fun fTestNet addr dest some fits => ?_⟩
  exact ⟨CBase58Data.SetString_ToString Hash (CBitcoinAddress.Set_version fTestNet addr some),CBitcoinAddress.Get_Set fTestNet addr some fits⟩

/-- As many zeros as take the count to the least `int`. -/
theorem decode_encode_zeros : DecodeBase58 (EncodeBase58 (List.replicate (2^31) 0)) ≠ .ok (some (List.replicate (2^31) 0)) := by
  have count (n : Nat) : ((List.replicate n (0 : UInt8)).takeWhile (· = 0)).length = n := by
    rw [List.takeWhile_replicate,if_pos (by simp),List.length_replicate]
  rw [Ne,decode_encode_iff,count]
  omega

end Tetra
