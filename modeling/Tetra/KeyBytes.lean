import Mathlib
import Tetra.DeerRequest
import Tetra.Serialize

/-!
A public key as an object: 65 bytes of memory whose first byte tells how many of them are
the key. Its bytes in a stream, which streams it writes as it read them, and which keys
come back.
-/
namespace Tetra
open Codec
open Deer (GetLen)

/-- `unsigned char vch[65]` -/
structure KeyBuffer where
  vch : List UInt8
  sized : vch.length = 65
deriving DecidableEq

namespace KeyBuffer

def chHeader (key : KeyBuffer) : UInt8 := key.vch.headD 0
def size (key : KeyBuffer) : Nat := GetLen key.chHeader
/-- From `begin()` to `end()`. -/
def bytes (key : KeyBuffer) : List UInt8 := key.vch.take key.size

/-- Copies to the front of `vch`. -/
def copy (key : KeyBuffer) (bytes : List UInt8) : KeyBuffer :=
  ⟨(bytes ++ key.vch.drop bytes.length).take 65,by
    rw [List.length_take,List.length_append,List.length_drop,key.sized]
    omega⟩

def Invalidate (key : KeyBuffer) : KeyBuffer := key.copy [0xFF]

/-- `Set(pbegin, pend)` -/
def Set (key : KeyBuffer) (bytes : List UInt8) : KeyBuffer :=
  let len := if bytes.isEmpty then 0 else GetLen (bytes.headD 0)
  if len ≠ 0 ∧ len = bytes.length then key.copy bytes else key.Invalidate

/-- `operator==` -/
def eq (a b : KeyBuffer) : Bool := a.chHeader == b.chHeader && a.vch.take a.size == b.vch.take a.size

def GetSerializeSize (key : KeyBuffer) : Nat := key.size+1

def Serialize (key : KeyBuffer) : List UInt8 := WriteCompactSize key.size ++ key.bytes

/-- What is longer than a key is read byte by byte. -/
def Unserialize (key : KeyBuffer) : Unserializer KeyBuffer := do
  let len ← ReadCompactSize
  if len ≤ 65 then
    let bytes ← readData len
    return key.copy bytes
  else
    let _ ← many (readData 1) len
    return key.Invalidate

/-! ### Lengths -/

theorem GetLen_cases (chHeader : UInt8) : GetLen chHeader = 0 ∨ GetLen chHeader = 33 ∨ GetLen chHeader = 65 := by
  unfold GetLen
  split
  · exact .inr (.inl rfl)
  · split
    · exact .inr (.inr rfl)
    · exact .inl rfl

theorem size_le (key : KeyBuffer) : key.size ≤ 65 := by
  have lengths := GetLen_cases key.chHeader
  rw [size]
  omega

theorem bytes_length (key : KeyBuffer) : key.bytes.length = key.size := by
  rw [bytes,List.length_take,key.sized]
  exact min_eq_left key.size_le

theorem WriteCompactSize_one {n : Nat} (small : n ≤ 65) : WriteCompactSize n = [UInt8.ofNat n] := by
  rw [WriteCompactSize,if_pos (by omega)]
  rfl

theorem Serialize_eq (key : KeyBuffer) : key.Serialize = UInt8.ofNat key.size :: key.bytes := by
  rw [Serialize,WriteCompactSize_one key.size_le]
  rfl

theorem Serialize_length (key : KeyBuffer) : key.Serialize.length = key.GetSerializeSize := by
  rw [Serialize_eq,List.length_cons,bytes_length,GetSerializeSize]

theorem copy_nil (key : KeyBuffer) : key.copy [] = key := by
  obtain ⟨vch,sized⟩ := key
  simp [copy,← sized]

/-- A copy that fits is at the front. -/
theorem copy_take (key : KeyBuffer) {bytes : List UInt8} (short : bytes.length ≤ 65) : (key.copy bytes).vch.take bytes.length = bytes := by
  rw [copy,List.take_take,min_eq_left short,List.take_left' rfl]

theorem copy_chHeader (key : KeyBuffer) {chHeader : UInt8} {rest : List UInt8} : (key.copy (chHeader :: rest)).chHeader = chHeader := rfl

/-- A copy of as many bytes as the first of them tells is the key. -/
theorem copy_bytes (key : KeyBuffer) {chHeader : UInt8} {rest : List UInt8} (whole : GetLen chHeader = rest.length+1) :
    (key.copy (chHeader :: rest)).bytes = chHeader :: rest := by
  have lengths := GetLen_cases chHeader
  have short : (chHeader :: rest).length ≤ 65 := by
    rw [List.length_cons]
    omega
  have front := key.copy_take short
  rwa [bytes,size,copy_chHeader,whole]

theorem bytes_Invalidate (key : KeyBuffer) : key.Invalidate.bytes = [] := by
  rw [bytes,size,Invalidate,copy_chHeader]
  rfl

/-- `Set` takes a key with the length that its header tells, and nothing else. -/
theorem bytes_Set (key : KeyBuffer) (chHeader : UInt8) (rest : List UInt8) :
    (key.Set (chHeader :: rest)).bytes = if GetLen chHeader = rest.length+1 then chHeader :: rest else [] := by
  have unfolded : key.Set (chHeader :: rest) =
      if GetLen chHeader ≠ 0 ∧ GetLen chHeader = rest.length+1 then key.copy (chHeader :: rest) else key.Invalidate := rfl
  rw [unfolded]
  by_cases whole : GetLen chHeader = rest.length+1
  · rw [if_pos ⟨by omega,whole⟩,if_pos whole,copy_bytes key whole]
  · rw [if_neg (fun both => whole both.2),if_neg whole,bytes_Invalidate]

/-! ### Reading -/

/-- A size in one byte, and as many bytes. -/
theorem decodes_short (key : KeyBuffer) {bytes : List UInt8} (short : bytes.length ≤ 65) :
    Decodes key.Unserialize (UInt8.ofNat bytes.length :: bytes) (key.copy bytes) := by
  have small : MAX_SIZE = 0x02000000 := rfl
  have number := @decodes_compactSize bytes.length (by omega)
  rw [WriteCompactSize_one short] at number
  refine number.bind ?_
  rw [if_pos short]
  exact (decodes_data bytes).return key.copy

/-- A size in one byte that the stream does not hold is refused. -/
theorem short_refused (key : KeyBuffer) {n : Nat} {body : List UInt8} (short : n ≤ 65) (few : body.length < n) :
    ∃ e, key.Unserialize (UInt8.ofNat n :: body) = .error e := by
  have small : MAX_SIZE = 0x02000000 := rfl
  have number := @decodes_compactSize n (by omega)
  rw [WriteCompactSize_one short] at number
  refine ⟨"CDataStream::read() : end of data",?_⟩
  have follows : key.Unserialize ([UInt8.ofNat n] ++ body) =
      (if n ≤ 65 then (do let bytes ← readData n; return key.copy bytes : Unserializer KeyBuffer) else _) body := number.bind_eq _ body
  rw [List.singleton_append,if_pos short] at follows
  rw [follows]
  show (readData n body).bind (fun p => _) = _
  rw [readData,Codec.take,if_pos few]
  rfl

theorem Unserialize_zero (key : KeyBuffer) (body : List UInt8) : key.Unserialize (0 :: body) = .ok (key,body) := by
  have read := @decodes_short key [] (Nat.zero_le _) body
  rwa [copy_nil] at read

/-- A key that is valid starts with its header. -/
theorem bytes_eq {key : KeyBuffer} (valid : key.size ≠ 0) : ∃ more, key.bytes = key.chHeader :: more ∧ more.length+1 = key.size := by
  obtain ⟨n,counted⟩ := Nat.exists_eq_succ_of_ne_zero valid
  cases shape : key.vch with
  | nil =>
    have sized := key.sized
    simp [shape] at sized
  | cons chHeader more =>
    have front : key.bytes = chHeader :: more.take n := by rw [bytes,shape,counted,List.take_succ_cons]
    have first : key.chHeader = chHeader := by rw [KeyBuffer.chHeader,shape,List.headD_cons]
    refine ⟨more.take n,by rw [front,first],?_⟩
    rw [← bytes_length,front,List.length_cons]

/-- The size stands in one byte. It is that of a key with the header that follows; or it
    is 0, and the object has no key before. -/
def Canonical (key : KeyBuffer) : List UInt8 → Prop
  | [] => False
  | len :: body => if len = 0 then key.size = 0 else ∃ chHeader ∈ body.head?, GetLen chHeader = len.toNat

theorem canonical_of_written {key key' : KeyBuffer} {rest : List UInt8} (accepts : key.Unserialize (key'.Serialize ++ rest) = .ok (key',rest)) :
    key.Canonical (key'.Serialize ++ rest) := by
  rw [Serialize_eq,List.cons_append] at accepts ⊢
  by_cases empty : key'.size = 0
  · have nothing : key'.bytes = [] := List.length_eq_zero_iff.mp (key'.bytes_length.trans empty)
    rw [empty,nothing] at accepts
    obtain ⟨same,_⟩ := Prod.mk.inj (Except.ok.inj ((key.Unserialize_zero rest).symm.trans accepts))
    rw [empty,same]
    exact empty
  · obtain ⟨more,front,sized⟩ := bytes_eq empty
    have fits := key'.size_le
    have number : (UInt8.ofNat key'.size).toNat = key'.size := by
      rw [UInt8.toNat_ofNat']
      omega
    have notZero : UInt8.ofNat key'.size ≠ 0 := fun zero => empty (by rw [← number,zero]; rfl)
    rw [Canonical,if_neg notZero,front,number]
    exact ⟨key'.chHeader,rfl,rfl⟩

theorem written_of_canonical {key key' : KeyBuffer} {stream rest : List UInt8} (accepts : key.Unserialize stream = .ok (key',rest))
    (canonical : key.Canonical stream) : stream = key'.Serialize ++ rest := by
  cases stream with
  | nil => exact canonical.elim
  | cons len body =>
    rw [Canonical] at canonical
    by_cases zero : len = 0
    · rw [if_pos zero] at canonical
      rw [zero] at accepts ⊢
      obtain ⟨same,left⟩ := Prod.mk.inj (Except.ok.inj ((key.Unserialize_zero body).symm.trans accepts))
      have nothing : key.bytes = [] := List.length_eq_zero_iff.mp (key.bytes_length.trans canonical)
      rw [← same,← left,Serialize_eq,canonical,nothing]
      rfl
    · rw [if_neg zero] at canonical
      obtain ⟨chHeader,first,whole⟩ := canonical
      have lengths := GetLen_cases chHeader
      have byte : UInt8.ofNat len.toNat = len := UInt8.ofNat_toNat
      have positive : len.toNat ≠ 0 := fun none' => zero (UInt8.toNat_inj.mp none')
      have enough : len.toNat ≤ body.length := by
        by_contra few
        obtain ⟨e,refused⟩ := key.short_refused (by omega : len.toNat ≤ 65) (by omega : body.length < len.toNat)
        rw [byte,accepts] at refused
        contradiction
      have taken : (body.take len.toNat).length = len.toNat := List.length_take_of_le enough
      obtain ⟨more,front⟩ : ∃ more, body.take len.toNat = chHeader :: more := by
        rw [Option.mem_def,List.head?_eq_some_iff] at first
        obtain ⟨tail,rfl⟩ := first
        obtain ⟨n,counted⟩ := Nat.exists_eq_succ_of_ne_zero positive
        exact ⟨tail.take n,by rw [counted,List.take_succ_cons]⟩
      have read := @decodes_short key (body.take len.toNat) (by omega) (body.drop len.toNat)
      rw [taken,byte,List.cons_append,List.take_append_drop] at read
      obtain ⟨same,left⟩ := Prod.mk.inj (Except.ok.inj (read.symm.trans accepts))
      have written : key'.bytes = body.take len.toNat := by
        rw [← same,front]
        exact key.copy_bytes (by rw [whole,← taken,front,List.length_cons])
      have sized : key'.size = len.toNat := by rw [← bytes_length,written,taken]
      rw [Serialize_eq,sized,byte,written,← left,List.cons_append,List.take_append_drop]

/-- A stream that is read is written again exactly if it is canonical for the object. -/
theorem Unserialize_canonical_iff {key key' : KeyBuffer} {stream rest : List UInt8} (accepts : key.Unserialize stream = .ok (key',rest)) :
    stream = key'.Serialize ++ rest ↔ key.Canonical stream := by
  refine ⟨fun same => ?_,written_of_canonical accepts⟩
  rw [same] at accepts ⊢
  exact canonical_of_written accepts

/-! ### Writing and reading -/

/-- What a key is read into becomes that key, or stays as it was where the key is none. -/
theorem decodes_key (key old : KeyBuffer) : Decodes old.Unserialize key.Serialize (if key.size = 0 then old else old.copy key.bytes) := by
  rw [Serialize_eq]
  split
  next empty =>
    have nothing : key.bytes = [] := List.length_eq_zero_iff.mp (key.bytes_length.trans empty)
    rw [empty,nothing]
    exact old.Unserialize_zero
  · have read := @decodes_short old key.bytes (by rw [bytes_length]; exact key.size_le)
    rwa [bytes_length] at read

theorem copy_key {key : KeyBuffer} (old : KeyBuffer) (valid : key.size ≠ 0) : (old.copy key.bytes).bytes = key.bytes ∧ (old.copy key.bytes).eq key = true := by
  obtain ⟨more,front,sized⟩ := bytes_eq valid
  have whole : GetLen key.chHeader = more.length+1 := sized.symm
  have same : (old.copy key.bytes).bytes = key.bytes := by
    rw [front]
    exact old.copy_bytes whole
  refine ⟨same,?_⟩
  have first : (old.copy key.bytes).chHeader = key.chHeader := by
    rw [front]
    rfl
  have length : (old.copy key.bytes).size = key.size := congrArg GetLen first
  have equal : (old.copy key.bytes).vch.take key.size = key.bytes := by rw [← length]; exact same
  rw [eq,first,length,equal,bytes]
  simp

/-- The key is read back as the bytes from its begin to its end. -/
def Restored (old key : KeyBuffer) : Prop := ∃ key', Decodes old.Unserialize key.Serialize key' ∧ key'.bytes = key.bytes

/-- The key is read back as an equal one. -/
def RestoredEqual (old key : KeyBuffer) : Prop := ∃ key', Decodes old.Unserialize key.Serialize key' ∧ key'.eq key = true

theorem Decodes_key_unique {old key key' : KeyBuffer} (reads : Decodes old.Unserialize key.Serialize key') :
    key' = if key.size = 0 then old else old.copy key.bytes := (reads.unique (decodes_key key old) (@rfl _ (key.Serialize ++ []))).1

theorem restored_iff (old key : KeyBuffer) : Restored old key ↔ key.size ≠ 0 ∨ old.size = 0 := by
  by_cases empty : key.size = 0
  · have nothing : key.bytes = [] := List.length_eq_zero_iff.mp (key.bytes_length.trans empty)
    constructor
    · rintro ⟨key',reads,same⟩
      rw [Decodes_key_unique reads,if_pos empty,nothing] at same
      exact .inr (by rw [← bytes_length,same]; rfl)
    · rintro (valid | unused)
      · contradiction
      · refine ⟨_,decodes_key key old,?_⟩
        rw [if_pos empty,nothing]
        exact List.length_eq_zero_iff.mp (old.bytes_length.trans unused)
  · refine ⟨fun _ => .inl empty,fun _ => ⟨_,decodes_key key old,?_⟩⟩
    rw [if_neg empty]
    exact (copy_key old empty).1

theorem restoredEqual_iff (old key : KeyBuffer) : RestoredEqual old key ↔ key.size ≠ 0 ∨ old.chHeader = key.chHeader := by
  by_cases empty : key.size = 0
  · constructor
    · rintro ⟨key',reads,same⟩
      rw [Decodes_key_unique reads,if_pos empty,eq,Bool.and_eq_true,beq_iff_eq] at same
      exact .inr same.1
    · rintro (valid | headers)
      · contradiction
      · refine ⟨_,decodes_key key old,?_⟩
        have none' : old.size = 0 := by rw [size,headers]; exact empty
        rw [if_pos empty,eq,headers,none',List.take_zero,List.take_zero]
        simp
  · refine ⟨fun _ => .inl empty,fun _ => ⟨_,decodes_key key old,?_⟩⟩
    rw [if_neg empty]
    exact (copy_key old empty).2

/-- Which streams are written again as they were read, and which keys come back, by their
    bytes and by `operator==`. -/
theorem serialization_iff (old key : KeyBuffer) (stream : List UInt8) :
    (∀ key' rest, old.Unserialize stream = .ok (key',rest) → (stream = key'.Serialize ++ rest ↔ old.Canonical stream)) ∧
    (Restored old key ↔ key.size ≠ 0 ∨ old.size = 0) ∧ (RestoredEqual old key ↔ key.size ≠ 0 ∨ old.chHeader = key.chHeader) :=
  ⟨fun _ _ accepts => Unserialize_canonical_iff accepts,restored_iff old key,restoredEqual_iff old key⟩

/-- Memory with a header and nothing else. -/
def headed (chHeader : UInt8) : KeyBuffer := ⟨chHeader :: List.replicate 64 0,rfl⟩

/-- A compressed key is read over a full one. -/
theorem serialization_iff_compressed :
    (33 :: 2 :: List.replicate 32 7) = ((headed 4).copy (2 :: List.replicate 32 7)).Serialize ++ [] ∧ Restored (headed 4) (headed 2) :=
  ⟨((serialization_iff (headed 4) (headed 2) (33 :: 2 :: List.replicate 32 7)).1 ((headed 4).copy (2 :: List.replicate 32 7)) []
      (by decide +kernel)).mpr ⟨2,rfl,rfl⟩,(serialization_iff (headed 4) (headed 2) []).2.1.mpr (.inl (by decide))⟩

/-- The bytes of no key leave the key that was there. -/
theorem empty_key_not_read :
    (¬ ∀ (key key' : KeyBuffer) (stream rest : List UInt8), key.Unserialize stream = .ok (key',rest) → stream = key'.Serialize ++ rest) ∧
      ¬ ∀ old key : KeyBuffer, Restored old key := by
  have valid : (headed 2).size ≠ 0 := by decide
  constructor
  · intro canonical
    exact valid ((Unserialize_canonical_iff ((headed 2).Unserialize_zero [])).mp (canonical _ _ _ _ ((headed 2).Unserialize_zero [])))
  · intro restored
    rcases (restored_iff (headed 2) (headed 0xFF)).mp (restored _ _) with written | unused
    · exact absurd written (by decide)
    · exact valid unused

end KeyBuffer
end Tetra
