import Mathlib
import Tetra.Primitives

/-!
The pool of keys made in advance. A reservation takes an index out of the set and keeps
or returns it later; new indices come after the last one of the set.
-/
namespace Tetra
open Std

/-- The part of the wallet that the key pool uses. Keys are numbered in the order in which
    they were made. -/
structure KeyPool where
  setKeyPool : ExtTreeSet Int := ∅
  /-- The records of the database, each with its key. -/
  walletdb : ExtTreeMap Int Nat := ∅
  nKeys : Nat := 0
  IsLocked : Bool := false
  vchDefaultKey : Option Nat := none
  /-- The reservations (`CReserveKey`) that hold an index, and their key once it was read. -/
  reserved : ExtTreeMap Nat (Int × Option Nat) := ∅

/-- What happens to indices and keys of the pool. -/
inductive PoolEvent
  /-- A new key is written under an index; was that in the set or reserved? -/
  | wrote (nIndex : Int) (live : Bool)
  | handed (key : Nat)
  | returned (key : Nat)
deriving DecidableEq

/-- The keys that were handed out and not returned. -/
def outKeys (events : List PoolEvent) : List Nat :=
  events.foldl (fun out event =>
    match event with
    | .wrote _ _ => out
    | .handed key => key :: out
    | .returned key => out.erase key) []

namespace KeyPool

def holds (s : KeyPool) (nIndex : Int) : Bool := s.reserved.toList.any fun r => r.2.1 == nIndex

/-- `WritePool(nIndex, CKeyPool(GenerateNewKey()))`, and the index into the set. -/
def addKey (s : KeyPool) (nIndex : Int) : KeyPool × List PoolEvent :=
  ({s with
    walletdb := s.walletdb.insert nIndex s.nKeys
    nKeys := s.nKeys+1
    setKeyPool := s.setKeyPool.insert nIndex},[.wrote nIndex (s.setKeyPool.contains nIndex || s.holds nIndex)])

def addKeys (s : KeyPool) : List Int → KeyPool × List PoolEvent
  | [] => (s,[])
  | nIndex :: rest =>
    let (s,events) := s.addKey nIndex
    let (s,more) := addKeys s rest
    (s,events ++ more)

/-- The records of the old keys, gone. -/
def erasePool (s : KeyPool) : KeyPool :=
  {s with
    walletdb := s.setKeyPool.toList.foldl (fun db nIndex => db.erase nIndex) s.walletdb
    setKeyPool := ∅}

def NewKeyPool (keypool : Int) (s : KeyPool) : Bool × KeyPool × List PoolEvent :=
  let s := s.erasePool
  if s.IsLocked then (false,s,[])
  else (true,s.addKeys ((List.range keypool.toNat).map fun i : Nat => (i : Int)+1))

/-- `nTargetSize + 1`, both of 32 bits. -/
def target (keypool : Int) : Nat := (keypool.toNat%2^32+1)%2^32

/-- One past the last index of the set, or 1. -/
def nEnd (s : KeyPool) : Int :=
  match s.setKeyPool.toList.getLast? with
  | some last => last+1
  | none => 1

/-- The loop of `TopUpKeyPool`. -/
def topUp (size : Nat) : Nat → KeyPool → KeyPool × List PoolEvent
  | fuel+1, s =>
    if s.setKeyPool.size < size then
      let (s,events) := s.addKey s.nEnd
      let (s,more) := topUp size fuel s
      (s,events ++ more)
    else (s,[])
  | 0, s => (s,[])

/-- Every turn makes the set larger by one, so the size is enough fuel. -/
def TopUpKeyPool (keypool : Int) (s : KeyPool) : Bool × KeyPool × List PoolEvent :=
  if s.IsLocked then (false,s,[]) else (true,topUp (target keypool) (target keypool) s)

/-- What `ReserveKeyFromKeyPool` leaves in its arguments, unless it throws; an index is
    taken either way. -/
structure Reservation where
  nIndex : Option Int := none
  vchPubKey : Except Reject (Option Nat) := .ok none

def ReserveKeyFromKeyPool (keypool : Int) (s : KeyPool) : Reservation × KeyPool × List PoolEvent :=
  let (s,events) := if s.IsLocked then (s,[]) else (s.TopUpKeyPool keypool).2
  match s.setKeyPool.toList.head? with
  | none => ({},s,events)
  | some nIndex =>
    let s := {s with setKeyPool := s.setKeyPool.erase nIndex}
    match s.walletdb[nIndex]? with
    | none => (⟨some nIndex,.error (.throws "ReserveKeyFromKeyPool() : read failed")⟩,s,events)
    | some key =>
      if key < s.nKeys then (⟨some nIndex,.ok (some key)⟩,s,events)
      else (⟨some nIndex,.error (.throws "ReserveKeyFromKeyPool() : unknown key in key pool")⟩,s,events)

/-- `CReserveKey::GetReservedKey`. The default key, which stands in when the pool is
    empty, is not one of the pool. -/
def GetReservedKey (keypool : Int) (s : KeyPool) (r : Nat) : Except Reject (Option Nat) × KeyPool × List PoolEvent :=
  match s.reserved[r]? with
  | some (_,some key) => (.ok (some key),s,[])
  | some (_,none) => (.error (.asserts "vchPubKey.IsValid()"),s,[])
  | none =>
    match s.ReserveKeyFromKeyPool keypool with
    | (⟨none,_⟩,s,events) => (.ok s.vchDefaultKey,s,events)
    | (⟨some nIndex,.ok (some key)⟩,s,events) =>
      (.ok (some key),{s with reserved := s.reserved.insert r (nIndex,some key)},events ++ [.handed key])
    | (⟨some nIndex,.ok none⟩,s,events) => (.ok none,{s with reserved := s.reserved.insert r (nIndex,none)},events)
    | (⟨some nIndex,.error e⟩,s,events) => (.error e,{s with reserved := s.reserved.insert r (nIndex,none)},events)

/-- `CReserveKey::KeepKey` -/
def KeepKey (s : KeyPool) (r : Nat) : KeyPool :=
  match s.reserved[r]? with
  | none => s
  | some (nIndex,_) => {s with walletdb := s.walletdb.erase nIndex,reserved := s.reserved.erase r}

/-- `CReserveKey::ReturnKey` -/
def ReturnKey (s : KeyPool) (r : Nat) : KeyPool × List PoolEvent :=
  match s.reserved[r]? with
  | none => (s,[])
  | some (nIndex,key) =>
    ({s with setKeyPool := s.setKeyPool.insert nIndex,reserved := s.reserved.erase r},key.toList.map PoolEvent.returned)

/-- No key when it is false. -/
def GetKeyFromPool (keypool : Int) (s : KeyPool) (fAllowReuse : Bool) : Except Reject (Option Nat) × KeyPool × List PoolEvent :=
  match s.ReserveKeyFromKeyPool keypool with
  | (⟨none,_⟩,s,events) =>
    if fAllowReuse && s.vchDefaultKey.isSome then (.ok s.vchDefaultKey,s,events)
    else if s.IsLocked then (.ok none,s,events)
    else (.ok (some s.nKeys),{s with nKeys := s.nKeys+1},events ++ [.handed s.nKeys])
  | (⟨some nIndex,.ok (some key)⟩,s,events) =>
    (.ok (some key),{s with walletdb := s.walletdb.erase nIndex},events ++ [.handed key])
  | (⟨some nIndex,.ok none⟩,s,events) => (.ok none,{s with walletdb := s.walletdb.erase nIndex},events)
  | (⟨some _,.error e⟩,s,events) => (.error e,s,events)

end KeyPool

/-- A reservation is known by a number. -/
inductive PoolCall
  | NewKeyPool
  | TopUpKeyPool
  | GetReservedKey (r : Nat)
  | KeepKey (r : Nat)
  | ReturnKey (r : Nat)
  | GetKeyFromPool (fAllowReuse : Bool)
  | Lock
  | Unlock

namespace KeyPool

def act (keypool : Int) (s : KeyPool) : PoolCall → KeyPool × List PoolEvent
  | .NewKeyPool => (s.NewKeyPool keypool).2
  | .TopUpKeyPool => (s.TopUpKeyPool keypool).2
  | .GetReservedKey r => (s.GetReservedKey keypool r).2
  | .KeepKey r => (s.KeepKey r,[])
  | .ReturnKey r => s.ReturnKey r
  | .GetKeyFromPool fAllowReuse => (s.GetKeyFromPool keypool fAllowReuse).2
  | .Lock => ({s with IsLocked := true},[])
  | .Unlock => ({s with IsLocked := false},[])

/-- A run with its events, in order. -/
def run (keypool : Int) (s : KeyPool) (events : List PoolEvent) : List PoolCall → KeyPool × List PoolEvent
  | [] => (s,events)
  | call :: calls =>
    let (s,more) := s.act keypool call
    run keypool s (events ++ more) calls

end KeyPool

namespace KeyPool

/-- The indices that a top-up writes, or a new pool. -/
def indices (first : Int) (n : Nat) : List Int := (List.range n).map fun i : Nat => first+i

/-- None of them is reserved. -/
def spared (s : KeyPool) (first : Int) (n : Nat) : Bool :=
  s.reserved.toList.all fun r => decide (r.2.1 < first ∨ first+n ≤ r.2.1)

def SparedByTopUp (keypool : Int) (s : KeyPool) : Bool := s.IsLocked || s.spared s.nEnd (target keypool-s.setKeyPool.size)

/-- A call that makes keys makes none under a reserved index. -/
def Proper (keypool : Int) (s : KeyPool) : PoolCall → Bool
  | .NewKeyPool => s.IsLocked || s.spared 1 keypool.toNat
  | .TopUpKeyPool => s.SparedByTopUp keypool
  | .GetReservedKey r => s.reserved[r]?.isSome || s.SparedByTopUp keypool
  | .GetKeyFromPool _ => s.SparedByTopUp keypool
  | _ => true

/-- Every call of a run is proper. -/
def Careful (keypool : Int) (s : KeyPool) : List PoolCall → Bool
  | [] => true
  | call :: calls => s.Proper keypool call && Careful keypool (s.act keypool call).1 calls

/-- A pool as the wallet loads it; no index is the -1 that stands for none. -/
structure Loaded (s : KeyPool) : Prop where
  positive : ∀ nIndex ∈ s.setKeyPool, 0 < nIndex
  records : ∀ nIndex ∈ s.setKeyPool, ∃ key, s.walletdb[nIndex]? = some key
  known : ∀ (nIndex : Int) key, s.walletdb[nIndex]? = some key → key < s.nKeys
  once : ∀ (a b : Int) key, s.walletdb[a]? = some key → s.walletdb[b]? = some key → a = b
  unreserved : s.reserved = ∅

/-- What the calls of a careful run keep. -/
structure Sound (s : KeyPool) (events : List PoolEvent) : Prop where
  records : ∀ nIndex ∈ s.setKeyPool, ∃ key, s.walletdb[nIndex]? = some key ∧ key ∉ outKeys events
  known : ∀ (nIndex : Int) key, s.walletdb[nIndex]? = some key → key < s.nKeys
  once : ∀ (a b : Int) key, s.walletdb[a]? = some key → s.walletdb[b]? = some key → a = b
  held : ∀ (r : Nat) nIndex held, s.reserved[r]? = some (nIndex,held) →
    nIndex ∉ s.setKeyPool ∧ ∃ key, held = some key ∧ s.walletdb[nIndex]? = some key ∧ key ∈ outKeys events
  apart : ∀ (r r' : Nat) nIndex held held', s.reserved[r]? = some (nIndex,held) → s.reserved[r']? = some (nIndex,held') → r = r'
  out : (outKeys events).Nodup
  outKnown : ∀ key ∈ outKeys events, key < s.nKeys
  quiet : ∀ nIndex live, .wrote nIndex live ∈ events → live = false

section
variable {s : KeyPool} {events : List PoolEvent} {keypool : Int}

theorem outKeys_wrote (nIndex : Int) (live : Bool) : outKeys (events ++ [.wrote nIndex live]) = outKeys events := by
  rw [outKeys,List.foldl_append]
  rfl

theorem outKeys_handed (key : Nat) : outKeys (events ++ [.handed key]) = key :: outKeys events := by
  rw [outKeys,List.foldl_append]
  rfl

theorem outKeys_returned (key : Nat) : outKeys (events ++ [.returned key]) = (outKeys events).erase key := by
  rw [outKeys,List.foldl_append]
  rfl

theorem spared_iff {first : Int} {n : Nat} :
    s.spared first n = true ↔ ∀ (r : Nat) nIndex held, s.reserved[r]? = some (nIndex,held) → nIndex < first ∨ first+n ≤ nIndex := by
  rw [spared,List.all_eq_true]
  constructor
  · intro all r nIndex held found
    exact of_decide_eq_true (all (r,nIndex,held) (ExtTreeMap.mem_toList_iff_getElem?_eq_some.mpr found))
  · rintro clear ⟨r,nIndex,held⟩ member
    exact decide_eq_true (clear r nIndex held (ExtTreeMap.mem_toList_iff_getElem?_eq_some.mp member))

theorem holds_eq_false {nIndex : Int} (free : ∀ (r : Nat) held, s.reserved[r]? ≠ some (nIndex,held)) : s.holds nIndex = false := by
  rw [holds,List.any_eq_false]
  rintro ⟨r,i,held⟩ member same
  have found := ExtTreeMap.mem_toList_iff_getElem?_eq_some.mp member
  obtain rfl : i = nIndex := by simpa using same
  exact free r held found

theorem lt_nEnd {nIndex : Int} (member : nIndex ∈ s.setKeyPool) : nIndex < s.nEnd := by
  have listed := ExtTreeSet.mem_toList.mpr member
  have ordered : s.setKeyPool.toList.Pairwise fun a b => compare a b = .lt := ExtTreeSet.ordered_toList
  unfold nEnd
  split
  next last isLast =>
    obtain ⟨before,split⟩ := List.getLast?_eq_some_iff.mp isLast
    rw [split] at listed ordered
    rcases List.mem_append.mp listed with earlier | itself
    · have below := (List.pairwise_append.mp ordered).2.2 nIndex earlier last (List.mem_singleton_self last)
      rw [compare_lt_iff_lt] at below
      omega
    · obtain rfl := List.mem_singleton.mp itself
      omega
  next empty =>
    rw [List.getLast?_eq_none_iff.mp empty] at listed
    contradiction

theorem nEnd_le {i bound : Int} (member : i ∈ s.setKeyPool) (all : ∀ i ∈ s.setKeyPool, i < bound) : s.nEnd ≤ bound := by
  unfold nEnd
  split
  next last isLast =>
    have := all last (ExtTreeSet.mem_toList.mp (List.mem_of_getLast? isLast))
    omega
  next empty =>
    have listed := ExtTreeSet.mem_toList.mpr member
    rw [List.getLast?_eq_none_iff.mp empty] at listed
    contradiction

theorem db_insert {db : ExtTreeMap Int Nat} {a b : Int} {key : Nat} : (db.insert a key)[b]? = if a = b then some key else db[b]? := by
  rw [ExtTreeMap.getElem?_insert]
  simp only [Std.compare_eq_iff_eq]

theorem db_erase {db : ExtTreeMap Int Nat} {a b : Int} : (db.erase a)[b]? = if a = b then none else db[b]? := by
  rw [ExtTreeMap.getElem?_erase]
  simp only [Std.compare_eq_iff_eq]

theorem reserved_insert {reserved : ExtTreeMap Nat (Int × Option Nat)} {a b : Nat} {held : Int × Option Nat} :
    (reserved.insert a held)[b]? = if a = b then some held else reserved[b]? := by
  rw [ExtTreeMap.getElem?_insert]
  simp only [Std.compare_eq_iff_eq]

theorem reserved_erase {reserved : ExtTreeMap Nat (Int × Option Nat)} {a b : Nat} :
    (reserved.erase a)[b]? = if a = b then none else reserved[b]? := by
  rw [ExtTreeMap.getElem?_erase]
  simp only [Std.compare_eq_iff_eq]

theorem of_db_erase {db : ExtTreeMap Int Nat} {a b : Int} {key : Nat} (found : (db.erase a)[b]? = some key) : db[b]? = some key := by
  rw [db_erase] at found
  split at found
  · contradiction
  · exact found

theorem of_reserved_erase {reserved : ExtTreeMap Nat (Int × Option Nat)} {a b : Nat} {held : Int × Option Nat}
    (found : (reserved.erase a)[b]? = some held) : a ≠ b ∧ reserved[b]? = some held := by
  rw [reserved_erase] at found
  split at found
  · contradiction
  next apart => exact ⟨apart,found⟩

theorem set_insert {set : ExtTreeSet Int} {a b : Int} : b ∈ set.insert a ↔ a = b ∨ b ∈ set := by
  rw [ExtTreeSet.mem_insert,Std.compare_eq_iff_eq]

theorem set_erase {set : ExtTreeSet Int} {a b : Int} : b ∈ set.erase a ↔ a ≠ b ∧ b ∈ set := by
  rw [ExtTreeSet.mem_erase,Ne,Std.compare_eq_iff_eq]

/-! ### The operations -/

theorem Sound.addKey (sound : Sound s events) {nIndex : Int} (fresh : nIndex ∉ s.setKeyPool)
    (free : ∀ (r : Nat) held, s.reserved[r]? ≠ some (nIndex,held)) : Sound (s.addKey nIndex).1 (events ++ (s.addKey nIndex).2) := by
  have dead : (s.setKeyPool.contains nIndex || s.holds nIndex) = false := by
    rw [holds_eq_false free,Bool.or_false]
    exact Bool.eq_false_of_not_eq_true fun present => fresh (ExtTreeSet.contains_iff_mem.mp present)
  unfold KeyPool.addKey
  rw [dead]
  refine ⟨?_,?_,?_,?_,sound.apart,?_,?_,?_⟩
  · intro i member
    rw [outKeys_wrote]
    dsimp only
    rw [db_insert]
    rcases set_insert.mp member with rfl | old
    · rw [if_pos rfl]
      exact ⟨s.nKeys,rfl,fun isOut => Nat.lt_irrefl _ (sound.outKnown _ isOut)⟩
    · rw [if_neg fun same : nIndex = i => fresh (same ▸ old)]
      exact sound.records i old
  · intro i key found
    dsimp only at found ⊢
    rw [db_insert] at found
    split at found
    · cases found
      omega
    · have := sound.known i key found
      omega
  · intro a b key atA atB
    dsimp only at atA atB
    rw [db_insert] at atA atB
    split at atA <;> split at atB
    · omega
    · cases atA
      exact absurd (sound.known b _ atB) (Nat.lt_irrefl _)
    · cases atB
      exact absurd (sound.known a _ atA) (Nat.lt_irrefl _)
    · exact sound.once a b key atA atB
  · intro r i held found
    obtain ⟨outside,key,isKey,record,isOut⟩ := sound.held r i held found
    have other : nIndex ≠ i := fun same => free r held (same ▸ found)
    refine ⟨fun member => ?_,key,isKey,?_,?_⟩
    · rcases set_insert.mp member with same | inside
      · exact other same
      · exact outside inside
    · dsimp only
      rw [db_insert,if_neg other]
      exact record
    · rw [outKeys_wrote]
      exact isOut
  · rw [outKeys_wrote]
    exact sound.out
  · intro key isOut
    rw [outKeys_wrote] at isOut
    have := sound.outKnown key isOut
    dsimp only
    omega
  · intro i live member
    rcases List.mem_append.mp member with earlier | last
    · exact sound.quiet i live earlier
    · simp at last
      exact last.2

theorem Sound.addKeys {list : List Int} (sound : Sound s events) (nodup : list.Nodup) (fresh : ∀ i ∈ list, i ∉ s.setKeyPool)
    (free : ∀ i ∈ list, ∀ (r : Nat) held, s.reserved[r]? ≠ some (i,held)) :
    Sound (s.addKeys list).1 (events ++ (s.addKeys list).2) := by
  induction list generalizing s events with
  | nil =>
    show Sound s (events ++ [])
    rw [List.append_nil]
    exact sound
  | cons nIndex rest ih =>
    obtain ⟨notLater,nodup⟩ := List.nodup_cons.mp nodup
    have added := sound.addKey (fresh nIndex (List.mem_cons_self ..)) (free nIndex (List.mem_cons_self ..))
    have rests := ih added nodup (fun i member inside => ?_) fun i member => free i (List.mem_cons_of_mem _ member)
    · unfold KeyPool.addKeys
      dsimp only
      rw [← List.append_assoc]
      exact rests
    · rcases set_insert.mp inside with rfl | old
      · exact notLater member
      · exact fresh i (List.mem_cons_of_mem _ member) old

theorem mem_indices {first i : Int} {n : Nat} : i ∈ indices first n ↔ first ≤ i ∧ i < first+n := by
  simp only [indices,List.mem_map,List.mem_range]
  constructor
  · rintro ⟨k,low,rfl⟩
    omega
  · rintro ⟨low,high⟩
    exact ⟨(i-first).toNat,by omega,by omega⟩

theorem indices_nodup (first : Int) (n : Nat) : (indices first n).Nodup := by
  refine List.Nodup.map ?_ List.nodup_range
  intro a b same
  dsimp only at same
  omega

theorem indices_succ (first : Int) (n : Nat) : indices first (n+1) = first :: indices (first+1) n := by
  rw [indices,List.range_succ_eq_map,List.map_cons,List.map_map,indices]
  congr 1
  · omega
  · apply List.map_congr_left
    intro i _
    show first+((i+1 : Nat) : Int) = first+1+i
    omega

theorem Sound.addRange (sound : Sound s events) {first : Int} {n : Nat} (fresh : ∀ i ∈ s.setKeyPool, i < first ∨ first+n ≤ i)
    (spares : s.spared first n = true) : Sound (s.addKeys (indices first n)).1 (events ++ (s.addKeys (indices first n)).2) := by
  apply sound.addKeys (indices_nodup first n)
  · intro i member inside
    have := mem_indices.mp member
    have := fresh i inside
    omega
  · intro i member r held found
    have := mem_indices.mp member
    have := spared_iff.mp spares r i held found
    omega

theorem size_addKey : (s.addKey s.nEnd).1.setKeyPool.size = s.setKeyPool.size+1 := by
  have fresh : s.nEnd ∉ s.setKeyPool := fun member => Int.lt_irrefl _ (lt_nEnd member)
  show (s.setKeyPool.insert s.nEnd).size = _
  rw [ExtTreeSet.size_insert,if_neg fun present => fresh (ExtTreeSet.contains_iff_mem.mp present)]

theorem nEnd_addKey : (s.addKey s.nEnd).1.nEnd = s.nEnd+1 := by
  have inside : s.nEnd ∈ (s.addKey s.nEnd).1.setKeyPool := ExtTreeSet.mem_insert_self
  have above : s.nEnd < (s.addKey s.nEnd).1.nEnd := lt_nEnd inside
  have below : (s.addKey s.nEnd).1.nEnd ≤ s.nEnd+1 := by
    apply nEnd_le inside
    intro i member
    rcases set_insert.mp member with rfl | old
    · omega
    · have := lt_nEnd old
      omega
  omega

/-- The turns of the loop write the indices after the last one. -/
theorem topUp_eq {size fuel : Nat} (enough : size ≤ s.setKeyPool.size+fuel) :
    s.topUp size fuel = s.addKeys (indices s.nEnd (size-s.setKeyPool.size)) := by
  induction fuel generalizing s with
  | zero =>
    rw [Nat.sub_eq_zero_of_le (by omega)]
    rfl
  | succ fuel ih =>
    unfold topUp
    split
    next less =>
      have turn := @ih (s.addKey s.nEnd).1 (by rw [size_addKey]; omega)
      rw [size_addKey,nEnd_addKey] at turn
      obtain ⟨n,count⟩ : ∃ n, size-s.setKeyPool.size = n+1 := ⟨size-s.setKeyPool.size-1,by omega⟩
      rw [show size-(s.setKeyPool.size+1) = n by omega] at turn
      rw [count,indices_succ,addKeys]
      dsimp only
      rw [turn]
    next full =>
      rw [Nat.sub_eq_zero_of_le (by omega)]
      rfl

theorem Sound.TopUpKeyPool (sound : Sound s events) (spares : s.SparedByTopUp keypool = true) :
    Sound (s.TopUpKeyPool keypool).2.1 (events ++ (s.TopUpKeyPool keypool).2.2) := by
  unfold KeyPool.TopUpKeyPool
  unfold SparedByTopUp at spares
  split
  · rw [List.append_nil]
    exact sound
  next unlocked =>
    rw [topUp_eq (Nat.le_add_left ..)]
    rw [Bool.eq_false_of_not_eq_true unlocked,Bool.false_or] at spares
    exact sound.addRange (fun i inside => .inl (lt_nEnd inside)) spares

theorem foldl_erase (list : List Int) (db : ExtTreeMap Int Nat) (i : Int) :
    (list.foldl (fun db nIndex => db.erase nIndex) db)[i]? = if i ∈ list then none else db[i]? := by
  induction list generalizing db with
  | nil => rfl
  | cons first rest ih =>
    rw [List.foldl_cons,ih,db_erase]
    by_cases later : i ∈ rest
    · rw [if_pos later,if_pos (List.mem_cons_of_mem _ later)]
    · rw [if_neg later]
      by_cases same : first = i
      · rw [if_pos same,if_pos (List.mem_cons.mpr (.inl same.symm))]
      · rw [if_neg same,if_neg fun member => (List.mem_cons.mp member).elim (fun same' => same same'.symm) later]

theorem erasePool_record (s : KeyPool) (i : Int) : s.erasePool.walletdb[i]? = if i ∈ s.setKeyPool then none else s.walletdb[i]? := by
  show (s.setKeyPool.toList.foldl _ s.walletdb)[i]? = _
  rw [foldl_erase]
  simp only [ExtTreeSet.mem_toList]

theorem Sound.erasePool (sound : Sound s events) : Sound s.erasePool events := by
  have kept : ∀ (i : Int) key, s.erasePool.walletdb[i]? = some key → s.walletdb[i]? = some key := by
    intro i key found
    rw [erasePool_record] at found
    split at found
    · contradiction
    · exact found
  refine ⟨?_,?_,?_,?_,sound.apart,sound.out,sound.outKnown,sound.quiet⟩
  · intro i member
    exact absurd member ExtTreeSet.not_mem_empty
  · intro i key found
    exact sound.known i key (kept i key found)
  · intro a b key atA atB
    exact sound.once a b key (kept a key atA) (kept b key atB)
  · intro r i held found
    obtain ⟨outside,key,isKey,record,isOut⟩ := sound.held r i held found
    refine ⟨ExtTreeSet.not_mem_empty,key,isKey,?_,isOut⟩
    rw [erasePool_record,if_neg outside]
    exact record

theorem Sound.NewKeyPool (sound : Sound s events) (spares : (s.IsLocked || s.spared 1 keypool.toNat) = true) :
    Sound (s.NewKeyPool keypool).2.1 (events ++ (s.NewKeyPool keypool).2.2) := by
  unfold KeyPool.NewKeyPool
  dsimp only
  split
  · rw [List.append_nil]
    exact sound.erasePool
  next unlocked =>
    have open' : s.IsLocked = false := Bool.eq_false_of_not_eq_true unlocked
    rw [open',Bool.false_or] at spares
    have range : (List.range keypool.toNat).map (fun i : Nat => (i : Int)+1) = indices 1 keypool.toNat := by
      apply List.map_congr_left
      intro i _
      omega
    rw [range]
    apply sound.erasePool.addRange
    · intro i inside
      exact absurd inside ExtTreeSet.not_mem_empty
    · exact spares

theorem addKeys_reserved (list : List Int) : (s.addKeys list).1.reserved = s.reserved := by
  induction list generalizing s with
  | nil => rfl
  | cons nIndex rest ih => exact ih

theorem TopUpKeyPool_reserved : (s.TopUpKeyPool keypool).2.1.reserved = s.reserved := by
  unfold KeyPool.TopUpKeyPool
  split
  · rfl
  · rw [topUp_eq (Nat.le_add_left ..)]
    exact addKeys_reserved _

/-- A reservation takes an index with its key out of a sound pool, or finds that empty. -/
theorem ReserveKeyFromKeyPool_cases (sound : Sound s events) (spares : s.SparedByTopUp keypool = true) :
    ∃ full more, Sound full (events ++ more) ∧ full.reserved = s.reserved ∧
      (s.ReserveKeyFromKeyPool keypool = ({},full,more) ∨
        ∃ nIndex key, nIndex ∈ full.setKeyPool ∧ full.walletdb[nIndex]? = some key ∧
          s.ReserveKeyFromKeyPool keypool =
            (⟨some nIndex,.ok (some key)⟩,{full with setKeyPool := full.setKeyPool.erase nIndex},more)) := by
  obtain ⟨full,more,topped,sound',same⟩ : ∃ full more, (if s.IsLocked then (s,[]) else (s.TopUpKeyPool keypool).2) = (full,more) ∧
      Sound full (events ++ more) ∧ full.reserved = s.reserved := by
    split
    · exact ⟨s,[],rfl,by rw [List.append_nil]; exact sound,rfl⟩
    · exact ⟨_,_,rfl,sound.TopUpKeyPool spares,TopUpKeyPool_reserved⟩
  refine ⟨full,more,sound',same,?_⟩
  unfold KeyPool.ReserveKeyFromKeyPool
  rw [topped]
  dsimp only
  cases oldest : full.setKeyPool.toList.head? with
  | none => exact .inl rfl
  | some nIndex =>
    right
    have inside : nIndex ∈ full.setKeyPool := ExtTreeSet.mem_toList.mp (List.mem_of_head? oldest)
    obtain ⟨key,record,_⟩ := sound'.records nIndex inside
    refine ⟨nIndex,key,inside,record,?_⟩
    dsimp only
    rw [record]
    dsimp only
    rw [if_pos (sound'.known nIndex key record)]

theorem Sound.handed (sound : Sound s events) {nIndex : Int} {key : Nat} (inside : nIndex ∈ s.setKeyPool)
    (record : s.walletdb[nIndex]? = some key) :
    key ∉ outKeys events ∧ ∀ i ∈ s.setKeyPool.erase nIndex, ∃ other, s.walletdb[i]? = some other ∧ other ∉ outKeys (events ++ [.handed key]) := by
  have notOut : key ∉ outKeys events := by
    obtain ⟨key',record',notOut⟩ := sound.records nIndex inside
    obtain rfl := Option.some.inj (record.symm.trans record')
    exact notOut
  refine ⟨notOut,?_⟩
  intro i member
  obtain ⟨apart,old⟩ := set_erase.mp member
  obtain ⟨other,found,free⟩ := sound.records i old
  refine ⟨other,found,?_⟩
  rw [outKeys_handed,List.mem_cons,not_or]
  refine ⟨?_,free⟩
  rintro rfl
  exact apart (sound.once nIndex i other record found)

/-- The keys that are out after one more was handed out. -/
theorem Sound.out_handed (sound : Sound s events) {key nKeys : Nat} (notOut : key ∉ outKeys events) (known : key < nKeys) (grows : s.nKeys ≤ nKeys) :
    (outKeys (events ++ [.handed key])).Nodup ∧ (∀ key' ∈ outKeys (events ++ [.handed key]), key' < nKeys) ∧
      ∀ nIndex live, .wrote nIndex live ∈ events ++ [.handed key] → live = false := by
  rw [outKeys_handed]
  refine ⟨List.nodup_cons.mpr ⟨notOut,sound.out⟩,fun key' isOut => ?_,fun i live member => sound.quiet i live (by simpa using member)⟩
  rcases List.mem_cons.mp isOut with rfl | earlier
  · exact known
  · exact Nat.lt_of_lt_of_le (sound.outKnown key' earlier) grows

/-- A key goes to a reservation. -/
theorem Sound.reserve (sound : Sound s events) {r : Nat} {nIndex : Int} {key : Nat}
    (inside : nIndex ∈ s.setKeyPool) (record : s.walletdb[nIndex]? = some key) :
    Sound {s with setKeyPool := s.setKeyPool.erase nIndex,reserved := s.reserved.insert r (nIndex,some key)}
      (events ++ [.handed key]) := by
  obtain ⟨notOut,rest⟩ := sound.handed inside record
  obtain ⟨out,outKnown,quiet⟩ := sound.out_handed notOut (sound.known nIndex key record) le_rfl
  refine ⟨rest,sound.known,sound.once,?_,?_,out,outKnown,quiet⟩
  · intro r' i held found
    dsimp only at found ⊢
    rw [reserved_insert] at found
    rw [outKeys_handed]
    split at found
    · cases found
      exact ⟨fun member => (set_erase.mp member).1 rfl,key,rfl,record,List.mem_cons_self ..⟩
    · obtain ⟨outside,key',isKey,record',isOut⟩ := sound.held r' i held found
      exact ⟨fun member => outside (set_erase.mp member).2,key',isKey,record',List.mem_cons_of_mem _ isOut⟩
  · intro a b i held held' atA atB
    dsimp only at atA atB
    rw [reserved_insert] at atA atB
    split at atA <;> split at atB
    · omega
    · cases atA
      exact absurd inside (sound.held b _ _ atB).1
    · cases atB
      exact absurd inside (sound.held a _ _ atA).1
    · exact sound.apart a b i held held' atA atB

/-- A key is used up at once. -/
theorem Sound.use (sound : Sound s events) {nIndex : Int} {key : Nat} (inside : nIndex ∈ s.setKeyPool)
    (record : s.walletdb[nIndex]? = some key) :
    Sound {s with setKeyPool := s.setKeyPool.erase nIndex,walletdb := s.walletdb.erase nIndex} (events ++ [.handed key]) := by
  obtain ⟨notOut,rest⟩ := sound.handed inside record
  obtain ⟨out,outKnown,quiet⟩ := sound.out_handed notOut (sound.known nIndex key record) le_rfl
  refine ⟨?_,?_,?_,?_,sound.apart,out,outKnown,quiet⟩
  · intro i member
    obtain ⟨other,found,free⟩ := rest i member
    refine ⟨other,?_,free⟩
    dsimp only
    rw [db_erase,if_neg (set_erase.mp member).1]
    exact found
  · intro i other found
    exact sound.known i other (of_db_erase found)
  · intro a b other atA atB
    exact sound.once a b other (of_db_erase atA) (of_db_erase atB)
  · intro r i held found
    obtain ⟨outside,key',isKey,record',isOut⟩ := sound.held r i held found
    refine ⟨fun member => outside (set_erase.mp member).2,key',isKey,?_,?_⟩
    · dsimp only
      rw [db_erase,if_neg fun same : nIndex = i => outside (same ▸ inside)]
      exact record'
    · rw [outKeys_handed]
      exact List.mem_cons_of_mem _ isOut

/-- A key that never was in the pool. -/
theorem Sound.make (sound : Sound s events) : Sound {s with nKeys := s.nKeys+1} (events ++ [.handed s.nKeys]) := by
  have notOut : s.nKeys ∉ outKeys events := fun isOut => Nat.lt_irrefl _ (sound.outKnown _ isOut)
  obtain ⟨out,outKnown,quiet⟩ := @Sound.out_handed _ _ sound _ (s.nKeys+1) notOut (Nat.lt_succ_self _) (Nat.le_succ _)
  refine ⟨?_,?_,sound.once,?_,sound.apart,out,outKnown,quiet⟩
  · intro i member
    obtain ⟨key,record,notOut⟩ := sound.records i member
    refine ⟨key,record,?_⟩
    rw [outKeys_handed,List.mem_cons,not_or]
    exact ⟨(sound.known i key record).ne,notOut⟩
  · intro i key found
    exact Nat.lt_succ_of_lt (sound.known i key found)
  · intro r i held found
    obtain ⟨outside,key,isKey,record,isOut⟩ := sound.held r i held found
    rw [outKeys_handed]
    exact ⟨outside,key,isKey,record,List.mem_cons_of_mem _ isOut⟩

theorem Sound.GetReservedKey (sound : Sound s events) (r : Nat) (spares : (s.reserved[r]?.isSome || s.SparedByTopUp keypool) = true) :
    Sound (s.GetReservedKey keypool r).2.1 (events ++ (s.GetReservedKey keypool r).2.2) := by
  unfold KeyPool.GetReservedKey
  cases there : s.reserved[r]? with
  | some held =>
    obtain ⟨nIndex,held⟩ := held
    cases held <;> exact (List.append_nil events).symm ▸ sound
  | none =>
    rw [there,Option.isSome_none,Bool.false_or] at spares
    obtain ⟨full,more,sound',same,result⟩ := @ReserveKeyFromKeyPool_cases s events keypool sound spares
    rcases result with empty | ⟨nIndex,key,inside,record,result⟩
    · rw [empty]
      exact sound'
    · rw [result]
      dsimp only
      rw [← List.append_assoc]
      exact sound'.reserve inside record

theorem Sound.GetKeyFromPool (sound : Sound s events) (fAllowReuse : Bool) (spares : s.SparedByTopUp keypool = true) :
    Sound (s.GetKeyFromPool keypool fAllowReuse).2.1 (events ++ (s.GetKeyFromPool keypool fAllowReuse).2.2) := by
  unfold KeyPool.GetKeyFromPool
  obtain ⟨full,more,sound',_,result⟩ := @ReserveKeyFromKeyPool_cases s events keypool sound spares
  rcases result with empty | ⟨nIndex,key,inside,record,result⟩
  · rw [empty]
    dsimp only
    split
    · exact sound'
    · split
      · exact sound'
      · rw [← List.append_assoc]
        exact sound'.make
  · rw [result]
    dsimp only
    rw [← List.append_assoc]
    exact sound'.use inside record

theorem Sound.KeepKey (sound : Sound s events) (r : Nat) : Sound (s.KeepKey r) events := by
  unfold KeyPool.KeepKey
  cases there : s.reserved[r]? with
  | none => exact sound
  | some held =>
    obtain ⟨nIndex,held⟩ := held
    have outside := (sound.held r nIndex held there).1
    refine ⟨?_,?_,?_,?_,?_,sound.out,sound.outKnown,sound.quiet⟩
    · intro i member
      obtain ⟨key,record,notOut⟩ := sound.records i member
      refine ⟨key,?_,notOut⟩
      dsimp only
      rw [db_erase,if_neg fun same : nIndex = i => outside (same ▸ member)]
      exact record
    · intro i key found
      exact sound.known i key (of_db_erase found)
    · intro a b key atA atB
      exact sound.once a b key (of_db_erase atA) (of_db_erase atB)
    · intro r' i held' found
      obtain ⟨apart,found⟩ := of_reserved_erase found
      obtain ⟨outside',key,isKey,record,isOut⟩ := sound.held r' i held' found
      refine ⟨outside',key,isKey,?_,isOut⟩
      dsimp only
      rw [db_erase,if_neg]
      · exact record
      · rintro rfl
        exact apart (sound.apart r r' nIndex held held' there found)
    · intro a b i held held' atA atB
      exact sound.apart a b i held held' (of_reserved_erase atA).2 (of_reserved_erase atB).2

theorem Sound.ReturnKey (sound : Sound s events) (r : Nat) : Sound (s.ReturnKey r).1 (events ++ (s.ReturnKey r).2) := by
  unfold KeyPool.ReturnKey
  cases there : s.reserved[r]? with
  | none =>
    show Sound s (events ++ [])
    rw [List.append_nil]
    exact sound
  | some held =>
    obtain ⟨nIndex,held⟩ := held
    obtain ⟨outside,key,rfl,record,isOut⟩ := sound.held r nIndex held there
    show Sound _ (events ++ [.returned key])
    refine ⟨?_,sound.known,sound.once,?_,?_,?_,?_,?_⟩
    · intro i member
      rw [outKeys_returned]
      rcases set_insert.mp member with rfl | old
      · exact ⟨key,record,sound.out.not_mem_erase⟩
      · obtain ⟨other,found,notOut⟩ := sound.records i old
        exact ⟨other,found,fun isOut => notOut (List.mem_of_mem_erase isOut)⟩
    · intro r' i held' found
      obtain ⟨apart,found⟩ := of_reserved_erase found
      obtain ⟨outside',other,isKey,record',isOut'⟩ := sound.held r' i held' found
      have apartIndex : nIndex ≠ i := by
        rintro rfl
        exact apart (sound.apart r r' nIndex _ held' there found)
      refine ⟨fun member => ?_,other,isKey,record',?_⟩
      · rcases set_insert.mp member with same | inside
        · exact apartIndex same
        · exact outside' inside
      · rw [outKeys_returned,sound.out.mem_erase_iff]
        refine ⟨?_,isOut'⟩
        rintro rfl
        exact apartIndex (sound.once nIndex i other record record')
    · intro a b i held held' atA atB
      exact sound.apart a b i held held' (of_reserved_erase atA).2 (of_reserved_erase atB).2
    · rw [outKeys_returned]
      exact sound.out.erase key
    · intro other isOut'
      rw [outKeys_returned] at isOut'
      exact sound.outKnown other (List.mem_of_mem_erase isOut')
    · intro i live member
      exact sound.quiet i live (by simpa using member)

/-! ### Runs -/

theorem Sound.act (sound : Sound s events) {call : PoolCall} (proper : s.Proper keypool call = true) :
    Sound (s.act keypool call).1 (events ++ (s.act keypool call).2) := by
  cases call with
  | NewKeyPool => exact sound.NewKeyPool proper
  | TopUpKeyPool => exact sound.TopUpKeyPool proper
  | GetReservedKey r => exact sound.GetReservedKey r proper
  | KeepKey r =>
    show Sound (s.KeepKey r) (events ++ [])
    rw [List.append_nil]
    exact sound.KeepKey r
  | ReturnKey r => exact sound.ReturnKey r
  | GetKeyFromPool fAllowReuse => exact sound.GetKeyFromPool fAllowReuse proper
  | Lock | Unlock =>
    rw [KeyPool.act,List.append_nil]
    exact ⟨sound.records,sound.known,sound.once,sound.held,sound.apart,sound.out,sound.outKnown,sound.quiet⟩

theorem Sound.run {calls : List PoolCall} (sound : Sound s events) (careful : Careful keypool s calls = true) :
    Sound (run keypool s events calls).1 (run keypool s events calls).2 := by
  induction calls generalizing s events with
  | nil => exact sound
  | cons call calls ih =>
    rw [Careful,Bool.and_eq_true] at careful
    exact ih (sound.act careful.1) careful.2

theorem Loaded.sound (loaded : Loaded s) : Sound s [] := by
  have free : ∀ (r : Nat), s.reserved[r]? = none := by
    intro r
    rw [loaded.unreserved]
    exact ExtTreeMap.getElem?_empty
  refine ⟨?_,loaded.known,loaded.once,?_,?_,List.nodup_nil,?_,?_⟩
  · intro i member
    obtain ⟨key,record⟩ := loaded.records i member
    exact ⟨key,record,List.not_mem_nil⟩
  · intro r i held found
    rw [free] at found
    contradiction
  · intro a b i held held' atA
    rw [free] at atA
    contradiction
  · intro key isOut
    exact absurd isOut List.not_mem_nil
  · intro i live member
    exact absurd member List.not_mem_nil

end

/-! ### Two runs -/

private def kept : List PoolCall := [.GetReservedKey 0,.KeepKey 0,.GetReservedKey 1,.ReturnKey 1,.GetKeyFromPool false]

end KeyPool

end Tetra
