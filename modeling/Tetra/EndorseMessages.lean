import Mathlib
import Tetra.Buffer
import Tetra.DeerRequest
import Tetra.Srges

/-!
The bytes whose hash an endorsement signs. The sender and the verifier put them together
each in its own way, from the keys of the target and of the source and the value.
-/
namespace Tetra
open Buffer Deer

/-- A key as long as its first byte says. -/
def CPubKey.IsWhole (pk : CPubKey) : Prop := ∃ chHeader rest, pk = chHeader :: rest ∧ pk.length = GetLen chHeader

abbrev ValidKey := {pk : CPubKey // CPubKey.IsWhole pk}

/-- What the handler of "block" signs. -/
def sentBytes (memory : Nat → UInt8) (sourcepeer Me : CPubKey) (endorse : UInt8) : Option (List UInt8) := do
  let temp := alloc (sourcepeer.length*2+1)
  let temp ← memcpy temp 0 sourcepeer
  let temp ← memcpy temp sourcepeer.length [endorse]
  let temp ← memcpy temp (sourcepeer.length+1) Me
  read memory temp (sourcepeer.length*2+1)

/-- What `ProcessEndorse` checks the signature of. -/
def verifiedBytes (memory : Nat → UInt8) (target source : CPubKey) (value : UInt8) : Option (List UInt8) := do
  let temp := alloc (target.length*2+1)
  let temp ← memcpy temp 0 target
  let temp ← memcpy temp source.length [value]
  let temp ← memcpy temp (source.length+1) source
  read memory temp (source.length*2+1)

section
variable {memory : Nat → UInt8} {target source : CPubKey} {value : UInt8}

/-- The target is where it belongs. -/
theorem memcpy_target (target : CPubKey) :
    memcpy (alloc (target.length*2+1)) 0 target = some (target.map some ++ alloc (target.length+1)) := by
  have copied := @memcpy_append UInt8 [] (alloc (target.length*2+1)) target (by rw [alloc_length]; omega)
  rw [alloc_drop,show target.length*2+1-target.length = target.length+1 by omega] at copied
  simpa using copied

/-- The source behind a front of any length. -/
theorem memcpy_source {front : List UInt8} {rest : Cells UInt8} (place : front.length = source.length) (room : source.length+1 ≤ rest.length) :
    (memcpy (front.map some ++ rest) source.length [value]).bind (fun temp => memcpy temp (source.length+1) source) =
      some ((front ++ value :: source).map some ++ rest.drop (source.length+1)) := by
  have first := @memcpy_append UInt8 (front.map some) rest [value] (by rw [List.length_singleton]; omega)
  rw [List.length_map,place,List.length_singleton] at first
  have second := @memcpy_append UInt8 ((front ++ [value]).map some) (rest.drop 1) source (by rw [List.length_drop]; omega)
  rw [List.length_map,List.length_append,place,List.length_singleton,List.drop_drop,Nat.add_comm 1] at second
  rw [first,Option.bind_some,← List.map_append,second,← List.map_append]
  simp

theorem memcpy_beyond {temp : Cells UInt8} (beyond : temp.length < 2*source.length+1) :
    (memcpy temp source.length [value]).bind (fun temp => memcpy temp (source.length+1) source) = none := by
  cases copied : memcpy temp source.length [value] with
  | none => rfl
  | some after =>
    have size := memcpy_length copied
    exact memcpy_none (by omega)

/-- The verifier's bytes: those of `endorseMessage`, whatever the memory held. -/
theorem verifiedBytes_eq (memory : Nat → UInt8) (target source : CPubKey) (value : UInt8) :
    verifiedBytes memory target source value = srges.endorseMessage target source value := by
  have start := memcpy_target target
  unfold verifiedBytes srges.endorseMessage
  simp only [start,Option.bind_eq_bind,Option.bind_some]
  rw [← Option.bind_assoc]
  by_cases longer : source.length > target.length
  · rw [if_pos longer,memcpy_beyond (by rw [List.length_append,List.length_map,alloc_length]; omega),Option.bind_none]
  · -- The front of the target stays, and the rest is written over.
    rw [if_neg longer]
    have split : target.map some ++ alloc (target.length+1) =
        (target.take source.length).map some ++ ((target.drop source.length).map some ++ alloc (target.length+1)) := by
      rw [← List.append_assoc,← List.map_append,List.take_append_drop]
    have front : (target.take source.length).length = source.length := List.length_take_of_le (by omega)
    rw [split,memcpy_source front (by simp; omega),Option.bind_some]
    have size : (target.take source.length ++ value :: source).length = source.length*2+1 := by
      rw [List.length_append,front,List.length_cons]
      omega
    rw [← size,read_written]

/-- The sender's bytes, of which the last are what the memory held when its key is the shorter one. -/
theorem sentBytes_cases (memory : Nat → UInt8) (target source : CPubKey) (value : UInt8) :
    (target.length < source.length ∧ sentBytes memory target source value = none) ∨
    (source.length ≤ target.length ∧ ∃ more, sentBytes memory target source value = some (target ++ value :: source ++ more) ∧
      source.length+more.length = target.length) := by
  have start := memcpy_target target
  unfold sentBytes
  simp only [start,Option.bind_eq_bind,Option.bind_some]
  have value' := @memcpy_append UInt8 (target.map some) (alloc (target.length+1)) [value] (by simp)
  rw [List.length_map,alloc_drop,List.length_singleton,Nat.add_sub_cancel] at value'
  rw [value',Option.bind_some]
  rcases Nat.lt_or_ge target.length source.length with longer | fits
  · left
    rw [memcpy_none (by simp; omega)]
    exact ⟨longer,rfl⟩
  · right
    have source' := @memcpy_append UInt8 ((target ++ [value]).map some) (alloc target.length) source (by simpa using fits)
    rw [List.length_map,List.length_append,List.length_singleton,alloc_drop] at source'
    rw [← List.map_append,source',Option.bind_some,← List.map_append,show target ++ [value] ++ source = target ++ value :: source by simp]
    obtain ⟨more,reads⟩ := @read_front UInt8 memory (target ++ value :: source) (alloc (target.length-source.length)) (target.length*2+1)
      (by simp; omega) (by simp; omega)
    have size := read_length reads
    rw [List.length_append,List.length_append,List.length_cons] at size
    exact ⟨fits,more,reads,by omega⟩

theorem endorseMessage_some {bytes : List UInt8} (fits : srges.endorseMessage target source value = some bytes) :
    source.length ≤ target.length ∧ bytes = target.take source.length ++ value :: source := by
  unfold srges.endorseMessage at fits
  split at fits
  · contradiction
  next shorter => exact ⟨by omega,(Option.some.inj fits).symm⟩

end

/-! ### Keys of one length -/

/-- No key goes on where another one ends. -/
theorem CPubKey.IsWhole.eq_of_prefix {pk pk' : CPubKey} (whole : pk.IsWhole) (whole' : pk'.IsWhole) (front : pk <+: pk') : pk = pk' := by
  obtain ⟨chHeader,rest,rfl,size⟩ := whole
  obtain ⟨chHeader',rest',rfl,size'⟩ := whole'
  obtain ⟨more,same⟩ := front
  obtain rfl : chHeader = chHeader' := (List.cons.inj same).1
  exact List.IsPrefix.eq_of_length ⟨more,same⟩ (size.trans size'.symm)

/-- What one of the two hashes for an endorsement. -/
def Hashed (target source : CPubKey) (value : UInt8) (bytes : List UInt8) : Prop :=
  ∃ memory, sentBytes memory target source value = some bytes ∨ verifiedBytes memory target source value = some bytes

/-- Both hash the same bytes, which say who endorses whom, and an honest signature is good. -/
structure Agreement (target source : ValidKey) : Prop where
  agree : ∀ memory memory' value, ∃ bytes,
    sentBytes memory target.1 source.1 value = some bytes ∧ verifiedBytes memory' target.1 source.1 value = some bytes
  determines : ∀ value bytes, Hashed target.1 source.1 value bytes →
    ∀ (target' source' : ValidKey) (value' : UInt8), Hashed target'.1 source'.1 value' bytes → target' = target ∧ value' = value ∧ source' = source
  verifies : ∀ (rules : SrgesRules) (Sign : uint256 → List UInt8), (∀ hash, rules.Verify source.1 hash (Sign hash) = true) →
    ∀ memory value, ∃ bytes message, sentBytes memory target.1 source.1 value = some bytes ∧
      srges.endorseMessage target.1 source.1 value = some message ∧ rules.Verify source.1 (rules.Hash message) (Sign (rules.Hash bytes)) = true

/-- With keys of one length there is one text. -/
theorem hashed_of_length {target source : CPubKey} {value : UInt8} {bytes : List UInt8} (same : target.length = source.length)
    (hashed : Hashed target source value bytes) : bytes = target ++ value :: source := by
  obtain ⟨memory,sent | verified⟩ := hashed
  · rcases sentBytes_cases memory target source value with ⟨longer,-⟩ | ⟨-,more,sends,size⟩
    · omega
    · obtain rfl : more = [] := List.length_eq_zero_iff.mp (by omega)
      rw [sends,List.append_nil] at sent
      exact (Option.some.inj sent).symm
  · rw [verifiedBytes_eq] at verified
    rw [(endorseMessage_some verified).2,← same,List.take_length]

/-- Whoever hashes that text endorses the same target, with the same value. -/
theorem hashed_unique {target source target' source' : CPubKey} {value value' : UInt8} (same : target.length = source.length)
    (whole : target.IsWhole) (whole' : target'.IsWhole) (wholeSource : source.IsWhole) (wholeSource' : source'.IsWhole)
    (hashed : Hashed target' source' value' (target ++ value :: source)) : target' = target ∧ value' = value ∧ source' = source := by
  obtain ⟨memory,sent | verified⟩ := hashed
  · rcases sentBytes_cases memory target' source' value' with ⟨-,absent⟩ | ⟨-,more,sends,size⟩
    · rw [absent] at sent
      contradiction
    · have text := Option.some.inj (sends.symm.trans sent)
      have sizes := congrArg List.length text
      simp only [List.length_append,List.length_cons] at sizes
      rw [List.append_assoc,List.cons_append] at text
      obtain ⟨rfl,rest⟩ := List.append_inj text (by omega)
      obtain ⟨rfl,ends⟩ := List.cons.inj rest
      -- The memory behind a shorter key would be the rest of a key.
      exact ⟨rfl,rfl,wholeSource'.eq_of_prefix wholeSource ⟨more,ends⟩⟩
  · rw [verifiedBytes_eq] at verified
    obtain ⟨shorter,text⟩ := endorseMessage_some verified
    have sizes := congrArg List.length text
    simp only [List.length_append,List.length_cons,List.length_take_of_le shorter] at sizes
    obtain ⟨front,rest⟩ := List.append_inj text (by rw [List.length_take_of_le shorter]; omega)
    obtain ⟨rfl,rfl⟩ := List.cons.inj rest
    refine ⟨(whole.eq_of_prefix whole' ?_).symm,rfl,rfl⟩
    rw [front]
    exact List.take_prefix ..

/-- The two sides agree just when the keys are of one length. -/
theorem endorsement_agreement_iff (target source : ValidKey) : Agreement target source ↔ target.1.length = source.1.length := by
  constructor
  · intro agreement
    obtain ⟨bytes,sent,verified⟩ := agreement.agree (fun _ => 0) (fun _ => 0) 0
    rw [verifiedBytes_eq] at verified
    obtain ⟨shorter,text⟩ := endorseMessage_some verified
    rcases sentBytes_cases (fun _ => 0) target.1 source.1 0 with ⟨-,absent⟩ | ⟨-,more,sends,size⟩
    · rw [absent] at sent
      contradiction
    · have sizes := congrArg List.length ((Option.some.inj (sends.symm.trans sent)).trans text)
      simp only [List.length_append,List.length_cons,List.length_take_of_le shorter] at sizes
      omega
  · intro same
    have verifier : ∀ value, srges.endorseMessage target.1 source.1 value = some (target.1 ++ value :: source.1) := by
      intro value
      rw [srges.endorseMessage,if_neg (by omega),← same,List.take_length]
    have sender : ∀ memory value, sentBytes memory target.1 source.1 value = some (target.1 ++ value :: source.1) := by
      intro memory value
      rcases sentBytes_cases memory target.1 source.1 value with ⟨longer,-⟩ | ⟨-,more,sends,-⟩
      · omega
      · rw [sends,hashed_of_length same ⟨memory,.inl sends⟩]
    refine ⟨fun memory memory' value => ?_,fun value bytes hashed target' source' value' other => ?_,fun rules Sign honest memory value => ?_⟩
    · exact ⟨_,sender memory value,(verifiedBytes_eq ..).trans (verifier value)⟩
    · rw [hashed_of_length same hashed] at other
      obtain ⟨sameTarget,sameValue,sameSource⟩ := hashed_unique same target.2 target'.2 source.2 source'.2 other
      exact ⟨Subtype.ext sameTarget,sameValue,Subtype.ext sameSource⟩
    · exact ⟨_,_,sender memory value,verifier value,honest _⟩

private def compressedKey : ValidKey := ⟨2 :: List.replicate 32 1,2,List.replicate 32 1,rfl,rfl⟩
private def uncompressedKey : ValidKey := ⟨4 :: List.replicate 64 1,4,List.replicate 64 1,rfl,rfl⟩

/-- A short key endorses a long one: one side hashes 131 bytes, the other 67. The other way
    round both write beyond their buffers. -/
theorem mixed_keys_disagree : ¬ Agreement uncompressedKey compressedKey ∧ ¬ Agreement compressedKey uncompressedKey := by
  constructor
  · intro agreement
    obtain ⟨bytes,sent,verified⟩ := agreement.agree (fun _ => 0) (fun _ => 0) 201
    exact absurd (sent.trans verified.symm) (by decide +kernel)
  · intro agreement
    obtain ⟨bytes,sent,-⟩ := agreement.agree (fun _ => 0) (fun _ => 0) 201
    have beyond : sentBytes (fun _ => 0) compressedKey.1 uncompressedKey.1 201 = none := by decide +kernel
    exact absurd (beyond.symm.trans sent) (Option.some_ne_none bytes).symm

end Tetra
