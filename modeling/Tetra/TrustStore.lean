import Mathlib
import Tetra.KeyBytes
import Tetra.Pool

/-!
The trust database as it is on disk: records of four types, each under a table and a key,
in one store of bytes by bytes. Which of them are read where they are written.
-/
namespace Tetra
open Codec

/-! ### Objects that are written as they lie in memory -/

/-- The memory of an object. -/
abbrev Raw (n : Nat) := {bytes : List UInt8 // bytes.length = n}

def rawForm {n : Nat} (object : Raw n) : List UInt8 := WriteCompactSize n ++ object.1

/-- Another size leaves another object, and takes nothing. -/
def readRaw {n : Nat} (other : Raw n) : Unserializer (Raw n) := do
  let len ← ReadCompactSize
  if len = n then
    let bytes ← readData n
    if sized : bytes.length = n then return ⟨bytes,sized⟩ else return other
  else return other

theorem decodes_raw {n : Nat} (small : n ≤ MAX_SIZE) (other object : Raw n) : Decodes (readRaw other) (rawForm object) object := by
  refine (decodes_compactSize small).bind ?_
  rw [if_pos rfl]
  have read := decodes_data object.1
  rw [object.2] at read
  rw [← List.append_nil object.1]
  refine read.bind ?_
  rw [dif_pos object.2]
  exact .pure object

theorem takes_compactSize : Takes ReadCompactSize 1 := by
  have size : Takes readSize 1 := by
    have one : Takes (readUInt 1) 1 := ((takes_take _ 1).bind fun bytes => Takes.pure (leNat bytes)).less (by omega)
    refine (one.bind fun chSize => ?_).less (Nat.le_add_right 1 0)
    have any (k : Nat) : Takes (readUInt k) 0 := ((takes_take _ k).bind fun bytes => Takes.pure (leNat bytes)).less (by omega)
    split
    · exact .pure chSize
    · split
      · exact any 2
      · split
        · exact any 4
        · exact any 8
  refine (size.bind fun n => ?_).less (Nat.le_add_right 1 0)
  split
  · intro bytes a rest read
    contradiction
  · exact .pure n

theorem takes_raw {n : Nat} (other : Raw n) : Takes (readRaw other) 1 := by
  refine (takes_compactSize.bind fun len => ?_).less (Nat.le_add_right 1 0)
  split
  · refine ((takes_take _ n).bind fun bytes => ?_).less (Nat.zero_le (n+0))
    split
    · exact .pure _
    · exact .pure other
  · exact .pure other

theorem takes_key (key : KeyBuffer) : Takes key.Unserialize 1 := by
  refine (takes_compactSize.bind fun len => ?_).less (Nat.le_add_right 1 0)
  split
  · exact ((takes_take _ len).bind fun bytes => Takes.pure (key.copy bytes)).less (Nat.zero_le _)
  · exact (((takes_take _ 1).many len).bind fun _ => Takes.pure key.Invalidate).less (Nat.zero_le _)

/-! ### The records -/

namespace Trust

inductive RecordType
  | endorse
  | time
  | toplist
  | key
deriving DecidableEq

/-- What a record of each type holds: a `PeerRate` is 40 bytes of memory, a `CKey` is two
    flags and 32 bytes. -/
def Value : RecordType → Type
  | .endorse => Int × KeyBuffer
  | .time => Amount
  | .toplist => List (KeyBuffer × Raw 40)
  | .key => Raw 34

/-- What new objects hold. -/
structure Fresh where
  key : KeyBuffer
  rate : Raw 40

def entryForm (entry : KeyBuffer × Raw 40) : List UInt8 := entry.1.Serialize ++ rawForm entry.2

def readEntry (fresh : Fresh) : Unserializer (KeyBuffer × Raw 40) := do
  let key ← fresh.key.Unserialize
  let rate ← readRaw fresh.rate
  return (key,rate)

/-- `ssValue << value` -/
def form : (type : RecordType) → Value type → List UInt8
  | .endorse, (left,peer) => intBytes left ++ peer.Serialize
  | .time, value => amountBytes value
  | .toplist, value => vectorForm entryForm value
  | .key, value => rawForm value

/-- A `CKey` of another size is not valid. -/
def invalid (key : Raw 34) : Raw 34 := ⟨key.1.set 0 0,by rw [List.length_set]; exact key.2⟩

/-- `ssValue >> value`, over what the value held before. -/
def unserialize (fresh : Fresh) : (type : RecordType) → Value type → Unserializer (Value type)
  | .endorse, (_,peer) => do
    let left ← readInt
    let peer ← peer.Unserialize
    return (left,peer)
  | .time, _ => readAmount
  | .toplist, _ => readVector (readEntry fresh)
  | .key, before => readRaw (invalid before)

/-- "endorse", "timerank", "privatekey", "privatekey" -/
def readTable : RecordType → Text
  | .endorse => [0x65,0x6E,0x64,0x6F,0x72,0x73,0x65]
  | .time => [0x74,0x69,0x6D,0x65,0x72,0x61,0x6E,0x6B]
  | .toplist => [0x70,0x72,0x69,0x76,0x61,0x74,0x65,0x6B,0x65,0x79]
  | .key => [0x70,0x72,0x69,0x76,0x61,0x74,0x65,0x6B,0x65,0x79]

/-- "timerank", "timerank", "toplist", "privatekey" -/
def writeTable : RecordType → Text
  | .endorse => [0x74,0x69,0x6D,0x65,0x72,0x61,0x6E,0x6B]
  | .time => [0x74,0x69,0x6D,0x65,0x72,0x61,0x6E,0x6B]
  | .toplist => [0x74,0x6F,0x70,0x6C,0x69,0x73,0x74]
  | .key => [0x70,0x72,0x69,0x76,0x61,0x74,0x65,0x6B,0x65,0x79]

/-- Keys in memory. -/
abbrev Key := {key : Text // key.length < 2^64}

/-- `ssKey << make_pair(table, key)` -/
def slot (table : Text) (key : Key) : List UInt8 := bytesForm table ++ bytesForm key.1

abbrev Store := List UInt8 → Option (List UInt8)

/-- A call of `dbWrite`, and whether the database refuses it. -/
structure Write where
  type : RecordType
  key : Key
  value : Value type
  fOverwrite : Bool := true
  refused : Bool := false

def dbRead (fresh : Fresh) (store : Store) (type : RecordType) (key : Key) (before : Value type) : Option (Value type) :=
  match store (slot (readTable type) key) with
  | none => none
  | some bytes =>
    match unserialize fresh type before bytes with
    | .ok (value,_) => some value
    | .error _ => none

def dbWrite (store : Store) (w : Write) : Bool × Store :=
  let place := slot (writeTable w.type) w.key
  if w.refused ∨ (w.fOverwrite = false ∧ (store place).isSome) then (false,store)
  else (true,Function.update store place (some (form w.type w.value)))

/-- The store after some calls, and those of them that returned true, the latest first. -/
def run (store : Store) (done : List Write) : List Write → Store × List Write
  | [] => (store,done)
  | w :: ws => if (dbWrite store w).1 then run (dbWrite store w).2 (w :: done) ws else run store done ws

/-- What was last written of a record. -/
def latest (type : RecordType) (key : Key) : List Write → Option (Value type)
  | [] => none
  | w :: done => if same : w.type = type ∧ w.key = key then some (same.1 ▸ w.value) else latest type key done

/-- A type that is read where it is written. -/
def Matched (type : RecordType) : Prop := type = .time ∨ type = .key

theorem endorse_unmatched : ¬ Matched .endorse := by simp [Matched]
theorem toplist_unmatched : ¬ Matched .toplist := by simp [Matched]

/-! ### Places -/

theorem slot_inj {table table' : Text} {key key' : Key} (short : table.length < 2^64) (short' : table'.length < 2^64) :
    slot table key = slot table' key' ↔ table = table' ∧ key = key' := by
  constructor
  · intro same
    obtain ⟨tables,keys⟩ := prefixFree_bytes table table' _ _ short short' same
    rw [← List.append_nil (bytesForm key.1),← List.append_nil (bytesForm key'.1)] at keys
    exact ⟨tables,Subtype.ext (prefixFree_bytes _ _ _ _ key.2 key'.2 keys).1⟩
  · rintro ⟨rfl,rfl⟩
    rfl

theorem update_slot (store : Store) {table table' : Text} (key key' : Key) (bytes : List UInt8) (short : table.length < 2^64)
    (short' : table'.length < 2^64) :
    Function.update store (slot table key) (some bytes) (slot table' key') = if table' = table ∧ key' = key then some bytes else store (slot table' key') := by
  rw [Function.update_apply]
  simp only [slot_inj short' short]

theorem readTable_short (type : RecordType) : (readTable type).length < 2^64 := by cases type <;> decide
theorem writeTable_short (type : RecordType) : (writeTable type).length < 2^64 := by cases type <;> decide

theorem dbWrite_done {store : Store} {w : Write} (done : (dbWrite store w).1 = true) :
    (dbWrite store w).2 = Function.update store (slot (writeTable w.type) w.key) (some (form w.type w.value)) := by
  unfold dbWrite at done ⊢
  dsimp only at done ⊢
  split at done
  · contradiction
  next accepted => rw [if_neg accepted]

/-- What a successful write leaves where some type is read. -/
theorem dbWrite_place {store : Store} {w : Write} (done : (dbWrite store w).1 = true) (type : RecordType) (key : Key) :
    (dbWrite store w).2 (slot (readTable type) key) =
      if readTable type = writeTable w.type ∧ key = w.key then some (form w.type w.value) else store (slot (readTable type) key) := by
  rw [dbWrite_done done,update_slot _ _ _ _ (writeTable_short _) (readTable_short _)]

/-! ### What the store holds after a run -/

/-- Nothing is ever where the endorse pairs and the top lists are read; the key records
    are those last written, and so are the times where no endorse pair was written. -/
structure Stored (store : Store) (done : List Write) : Prop where
  endorse : ∀ key, store (slot (readTable .endorse) key) = none
  key : ∀ key, store (slot (readTable .key) key) = (latest .key key done).map (form .key)
  time : (∀ w ∈ done, w.type ≠ .endorse) → ∀ key, store (slot (readTable .time) key) = (latest .time key done).map (form .time)

theorem stored_empty : Stored (fun _ => none) [] := ⟨fun _ => rfl,fun _ => rfl,fun _ _ => rfl⟩

/-- A type that no other is written over keeps its latest records. -/
theorem latest_step {store : Store} {done : List Write} {w : Write} (success : (dbWrite store w).1 = true) {type : RecordType} {key : Key}
    (own : readTable type = writeTable type) (alone : w.type ≠ type → readTable type ≠ writeTable w.type)
    (before : store (slot (readTable type) key) = (latest type key done).map (form type)) :
    (dbWrite store w).2 (slot (readTable type) key) = (latest type key (w :: done)).map (form type) := by
  rw [dbWrite_place success]
  obtain ⟨type',key',value,fOverwrite,refused⟩ := w
  by_cases same : type' = type ∧ key' = key
  · obtain ⟨rfl,rfl⟩ := same
    rw [if_pos ⟨own,rfl⟩,latest,dif_pos ⟨rfl,rfl⟩]
    rfl
  · rw [if_neg fun both => ?_,latest,dif_neg same]
    · exact before
    · by_cases sameType : type' = type
      · exact same ⟨sameType,both.2.symm⟩
      · exact alone sameType both.1

theorem readTable_endorse (type : RecordType) : readTable .endorse ≠ writeTable type := by cases type <;> decide

theorem readTable_key {type : RecordType} (other : type ≠ .key) : readTable .key ≠ writeTable type := by
  cases type with
  | key => contradiction
  | endorse | time | toplist => decide

theorem readTable_time {type : RecordType} (other : type ≠ .time) (plain : type ≠ .endorse) : readTable .time ≠ writeTable type := by
  cases type with
  | time | endorse => contradiction
  | toplist | key => decide

theorem Stored.step {store : Store} {done : List Write} (stored : Stored store done) {w : Write} (success : (dbWrite store w).1 = true) :
    Stored (dbWrite store w).2 (w :: done) := by
  refine ⟨fun key => ?_,fun key => latest_step success rfl readTable_key (stored.key key),fun plain key => ?_⟩
  · rw [dbWrite_place success,if_neg fun both => readTable_endorse w.type both.1]
    exact stored.endorse key
  · have before := stored.time (fun w member => plain w (List.mem_cons_of_mem _ member)) key
    exact latest_step success rfl (fun other => readTable_time other (plain w (List.mem_cons_self ..))) before

theorem Stored.run {store : Store} {done : List Write} (stored : Stored store done) (ws : List Write) :
    Stored (run store done ws).1 (run store done ws).2 := by
  induction ws generalizing store done with
  | nil => exact stored
  | cons w ws ih =>
    rw [Trust.run]
    split
    next success => exact ih (stored.step success)
    · exact ih stored

/-! ### What is read -/

variable {fresh : Fresh}

theorem dbRead_none {store : Store} {type : RecordType} {key : Key} (nothing : store (slot (readTable type) key) = none) (before : Value type) :
    dbRead fresh store type key before = none := by
  rw [dbRead,nothing]

theorem dbRead_some {store : Store} {type : RecordType} {key : Key} {bytes : List UInt8} {value : Value type} {before : Value type}
    (here : store (slot (readTable type) key) = some bytes) (reads : Decodes (unserialize fresh type before) bytes value) :
    dbRead fresh store type key before = some value := by
  have read := reads []
  rw [List.append_nil] at read
  rw [dbRead,here]
  simp only [read]

theorem decodes_time (before value : Amount) : Decodes (unserialize fresh .time before) (form .time value) value := decodes_amount value

theorem decodes_keyRecord (before value : Raw 34) : Decodes (unserialize fresh .key before) (form .key value) value :=
  decodes_raw (by decide) _ value

/-- The bytes of a key record are too few for the 34 entries that their size announces. -/
theorem toplist_of_key (before : Value .toplist) (value : Raw 34) : ∃ e, unserialize fresh .toplist before (form .key value) = .error e := by
  have entry : Takes (readEntry fresh) 2 :=
    ((takes_key fresh.key).bind fun key => (takes_raw fresh.rate).bind fun rate => Takes.pure (key,rate)).less (by omega)
  have number := (@decodes_compactSize 34 (by decide)).bind_eq (many (readEntry fresh)) value.1
  cases read : unserialize fresh .toplist before (form .key value) with
  | error e => exact ⟨e,rfl⟩
  | ok result =>
    have enough := entry.many 34 _ _ _ (number.symm.trans read)
    rw [value.2] at enough
    omega

theorem dbRead_toplist {store : Store} {done : List Write} (stored : Stored store done) (key : Key) (before : Value .toplist) :
    dbRead fresh store .toplist key before = none := by
  have here : store (slot (readTable .toplist) key) = (latest .key key done).map (form .key) := stored.key key
  rw [dbRead,here]
  cases latest .key key done with
  | none => rfl
  | some value =>
    obtain ⟨e,stopped⟩ := @toplist_of_key fresh before value
    simp only [Option.map_some,stopped]

theorem dbRead_key {store : Store} {done : List Write} (stored : Stored store done) (key : Key) (before : Value .key) :
    dbRead fresh store .key key before = latest .key key done := by
  have here := stored.key key
  cases last : latest .key key done with
  | none =>
    rw [last] at here
    exact dbRead_none here before
  | some value =>
    rw [last] at here
    exact dbRead_some here (decodes_keyRecord before value)

theorem dbRead_time {store : Store} {done : List Write} (stored : Stored store done) (plain : ∀ w ∈ done, w.type ≠ .endorse) (key : Key)
    (before : Value .time) : dbRead fresh store .time key before = latest .time key done := by
  have here := stored.time plain key
  cases last : latest .time key done with
  | none =>
    rw [last] at here
    exact dbRead_none here before
  | some value =>
    rw [last] at here
    exact dbRead_some here (decodes_time before value)

/-! ### The laws -/

/-- A successful write is read back, and no other record is read otherwise than before. -/
def Lawful (fresh : Fresh) (store : Store) (w : Write) : Prop :=
  (∀ before, dbRead fresh (dbWrite store w).2 w.type w.key before = some w.value) ∧
    ∀ type key, ¬ (type = w.type ∧ key = w.key) → ∀ before,
      dbRead fresh (dbWrite store w).2 type key before = dbRead fresh store type key before

/-- Every record is read as it was last written. -/
def Refines (fresh : Fresh) (store : Store) (done : List Write) : Prop :=
  ∀ type key before, dbRead fresh store type key before = latest type key done

theorem dbRead_other {store : Store} {w : Write} (success : (dbWrite store w).1 = true) {type : RecordType} {key : Key}
    (other : ¬ (readTable type = writeTable w.type ∧ key = w.key)) (before : Value type) :
    dbRead fresh (dbWrite store w).2 type key before = dbRead fresh store type key before := by
  rw [dbRead,dbRead,dbWrite_place success,if_neg other]

theorem lawful_iff {store : Store} {done : List Write} (stored : Stored store done) {w : Write} (success : (dbWrite store w).1 = true) :
    Lawful fresh store w ↔ Matched w.type := by
  have after := stored.step success
  obtain ⟨type,key,value,fOverwrite,refused⟩ := w
  cases type with
  | endorse =>
    refine ⟨fun lawful => ?_,fun matched => absurd matched endorse_unmatched⟩
    have read := lawful.1 value
    rw [dbRead_none (after.endorse key)] at read
    contradiction
  | toplist =>
    refine ⟨fun lawful => ?_,fun matched => absurd matched toplist_unmatched⟩
    have read := lawful.1 value
    rw [dbRead_toplist after] at read
    contradiction
  | time =>
    have here := (dbWrite_place success .time key).trans (if_pos ⟨rfl,rfl⟩)
    refine ⟨fun _ => .inl rfl,fun _ => ⟨fun before => dbRead_some here (decodes_time before value),fun type key' other before => ?_⟩⟩
    refine dbRead_other success (fun both => other ⟨?_,both.2⟩) before
    cases type with
    | time => rfl
    | endorse => exact absurd both.1 (readTable_endorse _)
    | toplist | key => exact absurd both.1 (@readTable_key .time (by decide))
  | key =>
    have here := (dbWrite_place success .key key).trans (if_pos ⟨rfl,rfl⟩)
    refine ⟨fun _ => .inr rfl,fun _ => ⟨fun before => dbRead_some here (decodes_keyRecord before value),fun type key' other before => ?_⟩⟩
    cases type with
    | key => exact dbRead_other success (fun both => other ⟨rfl,both.2⟩) before
    | toplist => rw [dbRead_toplist after,dbRead_toplist stored]
    | endorse => exact dbRead_other success (fun both => readTable_endorse _ both.1) before
    | time => exact dbRead_other success (fun both => @readTable_time .key (by decide) (by decide) both.1) before

/-- A record that is in the run is found. -/
theorem latest_of_mem {done : List Write} {w : Write} (member : w ∈ done) : latest w.type w.key done ≠ none := by
  induction done with
  | nil => simp at member
  | cons first done ih =>
    rw [latest]
    by_cases same : first.type = w.type ∧ first.key = w.key
    · rw [dif_pos same]
      exact Option.some_ne_none _
    · rw [dif_neg same]
      refine ih ((List.mem_cons.mp member).resolve_left ?_)
      rintro rfl
      exact same ⟨rfl,rfl⟩

/-- What is found is in the run. -/
theorem mem_of_latest {done : List Write} {type : RecordType} {key : Key} (found : latest type key done ≠ none) : ∃ w ∈ done, w.type = type := by
  induction done with
  | nil => exact absurd rfl found
  | cons first done ih =>
    rw [latest] at found
    by_cases same : first.type = type ∧ first.key = key
    · exact ⟨first,List.mem_cons_self ..,same.1⟩
    · rw [dif_neg same] at found
      obtain ⟨w,member,typed⟩ := ih found
      exact ⟨w,List.mem_cons_of_mem _ member,typed⟩

theorem refines_iff {store : Store} {done : List Write} (stored : Stored store done) : Refines fresh store done ↔ ∀ w ∈ done, Matched w.type := by
  constructor
  · intro refines w member
    have read := refines w.type w.key w.value
    have found := latest_of_mem member
    obtain ⟨type,key,value,fOverwrite,refused⟩ := w
    cases type with
    | endorse => exact absurd (read.symm.trans (dbRead_none (stored.endorse key) value)) found
    | toplist => exact absurd (read.symm.trans (dbRead_toplist stored key value)) found
    | time => exact .inl rfl
    | key => exact .inr rfl
  · intro matched type key before
    have none' (unmatched : ¬ Matched type) : latest type key done = none := by
      by_contra found
      obtain ⟨w,member,typed⟩ := mem_of_latest found
      exact unmatched (typed ▸ matched w member)
    cases type with
    | endorse => rw [dbRead_none (stored.endorse key),none' endorse_unmatched]
    | toplist => rw [dbRead_toplist stored,none' toplist_unmatched]
    | key => exact dbRead_key stored key before
    | time =>
      refine dbRead_time stored (fun w member endorses => ?_) key before
      exact endorse_unmatched (endorses ▸ matched w member)

/-- In every state that calls of `dbWrite` lead to from an empty database, the next one meets
    the laws exactly if its type is read where it is written, and all records are read as
    they were last written exactly if all those that were written are of such a type. -/
theorem store_laws_iff (fresh : Fresh) (ws : List Write) :
    (∀ w, (dbWrite (run (fun _ => none) [] ws).1 w).1 = true → (Lawful fresh (run (fun _ => none) [] ws).1 w ↔ Matched w.type)) ∧
      (Refines fresh (run (fun _ => none) [] ws).1 (run (fun _ => none) [] ws).2 ↔ ∀ w ∈ (run (fun _ => none) [] ws).2, Matched w.type) :=
  ⟨fun _ success => lawful_iff (stored_empty.run ws) success,refines_iff (stored_empty.run ws)⟩

/-- The time of "timerank". -/
private def someTime : Write := ⟨.time,⟨[0x74],by decide⟩,(1400000000 : Amount),true,false⟩
private def somePair : Write := ⟨.endorse,⟨[0x65],by decide⟩,(5,KeyBuffer.headed 0xFF),true,false⟩
private def someFresh : Fresh := ⟨KeyBuffer.headed 0xFF,⟨List.replicate 40 0,List.length_replicate⟩⟩

/-- A time is read back after it was written. -/
theorem store_laws_time : Lawful someFresh (fun _ => none) someTime :=
  ((store_laws_iff someFresh []).1 someTime (by decide)).mpr (.inl rfl)

/-- An endorse pair is not. -/
theorem endorse_pair_lost : (dbWrite (fun _ => none) somePair).1 = true ∧
    dbRead someFresh (dbWrite (fun _ => none) somePair).2 .endorse somePair.key (0,KeyBuffer.headed 0xFF) = none ∧
    ¬ ∀ (fresh : Fresh) (ws : List Write) (w : Write), (dbWrite (run (fun _ => none) [] ws).1 w).1 = true → Lawful fresh (run (fun _ => none) [] ws).1 w := by
  have success : (dbWrite (fun _ => none) somePair).1 = true := by decide
  refine ⟨success,dbRead_none ((stored_empty.step success).endorse _) _,fun all => ?_⟩
  exact endorse_unmatched ((lawful_iff stored_empty success).mp (all someFresh [] somePair success))

end Trust
end Tetra
