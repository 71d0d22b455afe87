import Mathlib
import Tetra.AddrPlaces
import Tetra.Serialize

/-!
The address manager on disk: its entries in the order of their ids, but not the ids, and
the new buckets by places in that order. What is read back is the manager under other ids.
-/
namespace Tetra
open Buckets Codec Maps
open Std (ExtTreeMap TransOrd LawfulEqOrd)

/-- The two bytes the other way round, which `ntohs` does too. -/
def htons (n : UInt16) : UInt16 := .ofNat (n.toNat%256*256+n.toNat/256)

def CService.Serialize (addr : CService) : List UInt8 := leBytes 16 addr.ip ++ leBytes 2 (htons addr.port).toNat
def CService.Unserialize : Unserializer CService := do
  let ip ← readUInt 16
  let portN ← readUInt 2
  return ⟨ip,htons (.ofNat portN)⟩

/-- The form on disk, with the version and the time. -/
def CAddress.Serialize (nVersion : Int) (addr : CAddress) : List UInt8 :=
  intBytes nVersion ++ leBytes 4 addr.nTime.toNat ++ leBytes 8 addr.nServices.toNat ++ addr.toCService.Serialize
def CAddress.Unserialize : Unserializer CAddress := do
  let _ ← readInt
  let nTime ← readUInt 4
  let nServices ← readUInt 8
  let pip ← CService.Unserialize
  return {toCService := pip,nServices := .ofNat nServices,nTime := .ofNat nTime}

namespace CAddrInfo

def Serialize (nVersion : Int) (info : CAddrInfo) : List UInt8 :=
  info.toCAddress.Serialize nVersion ++ leBytes 16 info.source ++ amountBytes (.ofInt info.nLastSuccess) ++ intBytes info.nAttempts
def Unserialize : Unserializer CAddrInfo := do
  let addr ← CAddress.Unserialize
  let source ← readUInt 16
  let nLastSuccess ← readAmount
  let nAttempts ← readInt
  return {toCAddress := addr,source := source,nLastSuccess := nLastSuccess.toInt,nAttempts := nAttempts}

end CAddrInfo

namespace CAddrMan

/-- The writer's loop over the new entries: their bytes, and mapUnkIds. -/
def writeNew (nVersion nNew : Int) : Int → ExtTreeMap Int Int → List (Int × CAddrInfo) → List UInt8 × ExtTreeMap Int Int
  | _, mapUnkIds, [] => ([],mapUnkIds)
  | nIds, mapUnkIds, (nId,info) :: rest =>
    if nIds = nNew then ([],mapUnkIds) -- this means nNew was wrong
    else
      let mapUnkIds := mapUnkIds.insert nId nIds
      if info.nRefCount ≠ 0 then
        let later := writeNew nVersion nNew (nIds+1) mapUnkIds rest
        (info.Serialize nVersion ++ later.1,later.2)
      else writeNew nVersion nNew nIds mapUnkIds rest

/-- The writer's loop over the tried ones. -/
def writeTried (nVersion nTried : Int) : Int → List (Int × CAddrInfo) → List UInt8
  | _, [] => []
  | nIds, (_,info) :: rest =>
    if nIds = nTried then [] -- this means nTried was wrong
    else if info.fInTried then info.Serialize nVersion ++ writeTried nVersion nTried (nIds+1) rest
    else writeTried nVersion nTried nIds rest

/-- The size of a new bucket, and for each of its ids the index. -/
def bucketForm (mapUnkIds : ExtTreeMap Int Int) (vNew : Finset Int) : List UInt8 :=
  intBytes vNew.card ++ (inOrder vNew).flatMap fun nId => intBytes ((mapUnkIds[nId]?).getD 0)

/-- The form on disk. Its version takes the place of the stream's for the entries. -/
def Serialize (nKey : List UInt8) (s : CAddrMan) : List UInt8 :=
  let nVersion : Nat := 0
  let new := writeNew nVersion s.nNew 0 {} s.mapInfo.toList
  leBytes 1 nVersion ++ (bytesForm nKey ++ (intBytes s.nNew ++ (intBytes s.nTried ++ (intBytes ADDRMAN_NEW_BUCKET_COUNT ++ (new.1 ++
    (writeTried nVersion s.nTried 0 s.mapInfo.toList ++
      (List.finRange ADDRMAN_NEW_BUCKET_COUNT).flatMap fun b => bucketForm new.2 (s.vvNew b)))))))

/-- A turn of the reader's loop over the new entries, with n. -/
def loadNew (rules : AddrRules) (nUBuckets : Int) (turn : Int × CAddrMan) : Unserializer (Int × CAddrMan) := do
  let info ← CAddrInfo.Unserialize
  let (n,s) := turn
  let info := {info with nRandomPos := s.vRandom.length}
  let s := {s.setInfo n info with mapAddr := s.mapAddr.insert info.ip n,vRandom := s.vRandom ++ [n]}
  if nUBuckets ≠ ADDRMAN_NEW_BUCKET_COUNT then
    let nUBucket := info.GetNewBucket rules info.source
    let vvNew := Function.update s.vvNew nUBucket (insert n (s.vvNew nUBucket))
    return (n+1,{s.setInfo n {info with nRefCount := info.nRefCount+1} with vvNew := vvNew})
  else return (n+1,s)

/-- A turn of the loop over the tried ones, with nLost. -/
def loadTried (rules : AddrRules) (turn : Int × CAddrMan) : Unserializer (Int × CAddrMan) := do
  let info ← CAddrInfo.Unserialize
  let (nLost,s) := turn
  let nKBucket := info.GetTriedBucket rules
  if (s.vvTried nKBucket).length < ADDRMAN_TRIED_BUCKET_SIZE then
    let info := {info with nRandomPos := s.vRandom.length,fInTried := true}
    return (nLost,{s.setInfo s.nIdCount info with
      vRandom := s.vRandom ++ [s.nIdCount]
      mapAddr := s.mapAddr.insert info.ip s.nIdCount
      vvTried := Function.update s.vvTried nKBucket (s.vvTried nKBucket ++ [s.nIdCount])
      nIdCount := s.nIdCount+1})
  else return (nLost+1,s)

/-- A turn of the loop over the indices of a bucket. -/
def loadIndex (nUBuckets : Int) (b : Nat) (s : CAddrMan) : Unserializer CAddrMan := do
  let nIndex ← readInt
  let info := (s.mapInfo[nIndex]?).getD {toCAddress := default,source := 0}
  if nUBuckets = ADDRMAN_NEW_BUCKET_COUNT ∧ info.nRefCount < ADDRMAN_NEW_BUCKETS_PER_ADDRESS then
    let vNew := newBucket b
    return {s.setInfo nIndex {info with nRefCount := info.nRefCount+1} with vvNew := Function.update s.vvNew vNew (insert nIndex (s.vvNew vNew))}
  else return s.setInfo nIndex info

/-- A turn of the loop over the buckets, with b. -/
def loadBucket (nUBuckets : Int) (turn : Nat × CAddrMan) : Unserializer (Nat × CAddrMan) := do
  let nSize ← readInt
  let s ← loop (loadIndex nUBuckets turn.1) nSize.toNat turn.2
  return (turn.1+1,s)

/-- Reads into a manager that may have entries. -/
def Unserialize (rulesOf : List UInt8 → AddrRules) (s : CAddrMan) : Unserializer (List UInt8 × CAddrMan) := do
  let _ ← readUInt 1
  let nKey ← readBytes
  let nNew ← readInt
  let nTried ← readInt
  let nUBuckets ← readInt
  let s := {s with
    nIdCount := 0
    mapInfo := {}
    mapAddr := {}
    vRandom := []
    nTried := nTried
    vvTried := fun _ => []
    nNew := nNew
    vvNew := fun _ => ∅}
  let (_,s) ← loop (loadNew (rulesOf nKey) nUBuckets) nNew.toNat (0,s)
  let (nLost,s) ← loop (loadTried (rulesOf nKey)) nTried.toNat (0,{s with nIdCount := nNew})
  let (_,s) ← loop (loadBucket nUBuckets) nUBuckets.toNat (0,{s with nTried := s.nTried-nLost})
  return (nKey,s)

end CAddrMan

/-! ### Entries -/

@[simp] theorem htons_htons (n : UInt16) : htons (htons n) = n := by
  have low := n.toNat_lt
  have small : n.toNat%256*256+n.toNat/256 < 2^16 := by omega
  have high : (n.toNat%256*256+n.toNat/256)%256 = n.toNat/256 := by omega
  have rest : (n.toNat%256*256+n.toNat/256)/256 = n.toNat%256 := by omega
  have once : (htons n).toNat = n.toNat%256*256+n.toNat/256 := by rw [htons,UInt16.toNat_ofNat',Nat.mod_eq_of_lt small]
  apply UInt16.toNat_inj.mp
  rw [htons,once,high,rest,UInt16.toNat_ofNat',Nat.mul_comm,Nat.div_add_mod,Nat.mod_eq_of_lt low]

theorem decodes_service {addr : CService} (fits : addr.ip < 2^128) : Decodes CService.Unserialize addr.Serialize addr := by
  have port : Decodes (readUInt 2) (leBytes 2 (htons addr.port).toNat) (htons addr.port).toNat := decodes_uint (htons addr.port).toNat_lt
  have whole : Decodes CService.Unserialize addr.Serialize ⟨addr.ip,htons (.ofNat (htons addr.port).toNat)⟩ :=
    (decodes_uint fits).bind (port.return fun portN => (⟨addr.ip,htons (.ofNat portN)⟩ : CService))
  rw [UInt16.ofNat_toNat,htons_htons] at whole
  exact whole

theorem decodes_address {nVersion : Int} {addr : CAddress} (version : FitsInt nVersion) (fits : addr.ip < 2^128) :
    Decodes CAddress.Unserialize (addr.Serialize nVersion) {addr with nLastTry := 0} := by
  have time : Decodes (readUInt 4) (leBytes 4 addr.nTime.toNat) addr.nTime.toNat := decodes_uint addr.nTime.toNat_lt
  have services : Decodes (readUInt 8) (leBytes 8 addr.nServices.toNat) addr.nServices.toNat := decodes_uint addr.nServices.toNat_lt
  have whole : Decodes CAddress.Unserialize (addr.Serialize nVersion)
      {toCService := addr.toCService,nServices := .ofNat addr.nServices.toNat,nTime := .ofNat addr.nTime.toNat} := by
    rw [CAddress.Serialize,List.append_assoc,List.append_assoc]
    exact (decodes_int version).bind (time.bind (services.bind ((decodes_service fits).return fun pip =>
      ({toCService := pip,nServices := .ofNat addr.nServices.toNat,nTime := .ofNat addr.nTime.toNat} : CAddress))))
  rw [UInt64.ofNat_toNat,UInt32.ofNat_toNat] at whole
  exact whole

/-- The values that an entry in memory has. -/
structure CAddrInfo.InMemory (info : CAddrInfo) : Prop where
  ip : info.ip < 2^128
  source : info.source < 2^128
  nLastSuccess : -2^63 ≤ info.nLastSuccess ∧ info.nLastSuccess < 2^63
  nAttempts : FitsInt info.nAttempts

/-- What comes back of an entry, and of one that is put into a tried bucket. -/
def CAddrInfo.loaded (info : CAddrInfo) : CAddrInfo := {info with nLastTry := 0,nRefCount := 0,fInTried := false,nRandomPos := -1}
def CAddrInfo.retried (info : CAddrInfo) : CAddrInfo := {info.loaded with fInTried := true}

theorem decodes_addrInfo {nVersion : Int} {info : CAddrInfo} (version : FitsInt nVersion) (fits : info.InMemory) :
    Decodes CAddrInfo.Unserialize (info.Serialize nVersion) info.loaded := by
  have success : (Int64.ofInt info.nLastSuccess).toInt = info.nLastSuccess := Int64.toInt_ofInt_of_le fits.nLastSuccess.1 fits.nLastSuccess.2
  have source : Decodes (readUInt 16) (leBytes 16 info.source) info.source := decodes_uint fits.source
  have whole : Decodes CAddrInfo.Unserialize (info.Serialize nVersion) {toCAddress := {info.toCAddress with nLastTry := 0}
                                                                        source := info.source
                                                                        nLastSuccess := (Int64.ofInt info.nLastSuccess).toInt
                                                                        nAttempts := info.nAttempts} := by
    rw [CAddrInfo.Serialize,List.append_assoc,List.append_assoc]
    exact (decodes_address version fits.ip).bind (source.bind ((decodes_amount (.ofInt info.nLastSuccess)).bind
      ((decodes_int fits.nAttempts).return fun nAttempts => (⟨{info.toCAddress with nLastTry := 0},info.source,
        (Int64.ofInt info.nLastSuccess).toInt,nAttempts,0,false,-1⟩ : CAddrInfo))))
  rw [success] at whole
  exact whole

namespace CAddrMan

variable {s : CAddrMan} {nVersion : Int} {nId : Int} {info : CAddrInfo}

/-! ### The writer -/

/-- The entries that each loop writes. -/
def isNew (entry : Int × CAddrInfo) : Bool := entry.2.nRefCount ≠ 0
def isTried (entry : Int × CAddrInfo) : Bool := entry.2.fInTried

theorem writeNew_bytes {nNew nIds : Int} {mapUnkIds : ExtTreeMap Int Int} {entries : List (Int × CAddrInfo)}
    (count : nIds+entries.countP isNew = nNew) :
    (writeNew nVersion nNew nIds mapUnkIds entries).1 = (entries.filter isNew).flatMap fun entry => entry.2.Serialize nVersion := by
  induction entries generalizing nIds mapUnkIds with
  | nil => rfl
  | cons entry rest ih =>
    obtain ⟨nId,info⟩ := entry
    rw [writeNew]
    by_cases wrong : nIds = nNew
    · have none : ((nId,info) :: rest).countP isNew = 0 := by omega
      rw [if_pos wrong,List.filter_eq_nil_iff.mpr (List.countP_eq_zero.mp none)]
      rfl
    · rw [if_neg wrong]
      by_cases held : info.nRefCount ≠ 0
      · have counts : isNew (nId,info) = true := decide_eq_true held
        rw [List.countP_cons_of_pos counts] at count
        rw [if_pos held,List.filter_cons_of_pos counts,List.flatMap_cons]
        dsimp only
        rw [ih (by push_cast at count; omega)]
      · have counts : ¬isNew (nId,info) = true := fun yes => held (of_decide_eq_true yes)
        rw [List.countP_cons_of_neg counts] at count
        rw [if_neg held,List.filter_cons_of_neg counts]
        exact ih count

/-- The index of a new entry is the number of new ones before it. -/
theorem writeNew_index {nNew nIds : Int} {mapUnkIds : ExtTreeMap Int Int} {entries : List (Int × CAddrInfo)}
    (distinct : (entries.map Prod.fst).Nodup) (count : nIds+entries.countP isNew = nNew) :
    (∀ (i : Nat) entry, (entries.filter isNew)[i]? = some entry → (writeNew nVersion nNew nIds mapUnkIds entries).2[entry.1]? = some (nIds+i)) ∧
      ∀ k, k ∉ entries.map Prod.fst → (writeNew nVersion nNew nIds mapUnkIds entries).2[k]? = mapUnkIds[k]? := by
  induction entries generalizing nIds mapUnkIds with
  | nil =>
    refine ⟨fun i entry here => ?_,fun k _ => rfl⟩
    simp at here
  | cons entry rest ih =>
    obtain ⟨nId,info⟩ := entry
    obtain ⟨fresh,distinct⟩ := List.nodup_cons.mp distinct
    have others : ∀ (x : Int) k, k ∉ ((nId,info) :: rest).map Prod.fst → (mapUnkIds.insert nId x)[k]? = mapUnkIds[k]? := by
      intro x k out
      apply lookup_insert_other
      rintro rfl
      exact out (List.mem_cons_self ..)
    have skipped : ∀ k, k ∉ ((nId,info) :: rest).map Prod.fst → k ∉ rest.map Prod.fst := fun k out member => out (List.mem_cons_of_mem _ member)
    rw [writeNew]
    by_cases wrong : nIds = nNew
    · have none : ((nId,info) :: rest).countP isNew = 0 := by omega
      rw [if_pos wrong,List.filter_eq_nil_iff.mpr (List.countP_eq_zero.mp none)]
      refine ⟨fun i entry here => ?_,fun k _ => rfl⟩
      simp at here
    · rw [if_neg wrong]
      by_cases held : info.nRefCount ≠ 0
      · have counts : isNew (nId,info) = true := decide_eq_true held
        rw [List.countP_cons_of_pos counts] at count
        rw [if_pos held,List.filter_cons_of_pos counts]
        obtain ⟨indexed,kept⟩ := @ih (nIds+1) (mapUnkIds.insert nId nIds) distinct (by push_cast at count; omega)
        constructor
        · intro i entry here
          cases i with
          | zero =>
            obtain rfl := Option.some.inj here
            rw [show ((0 : Nat) : Int) = 0 from rfl,Int.add_zero]
            exact (kept nId fresh).trans (insert_self _ _)
          | succ i =>
            rw [show nIds+((i+1 : Nat) : Int) = nIds+1+i by omega]
            exact indexed i entry here
        · exact fun k out => (kept k (skipped k out)).trans (others _ k out)
      · have counts : ¬isNew (nId,info) = true := fun yes => held (of_decide_eq_true yes)
        rw [List.countP_cons_of_neg counts] at count
        rw [if_neg held,List.filter_cons_of_neg counts]
        obtain ⟨indexed,kept⟩ := @ih nIds (mapUnkIds.insert nId nIds) distinct count
        exact ⟨indexed,fun k out => (kept k (skipped k out)).trans (others _ k out)⟩

theorem writeTried_bytes {nTried nIds : Int} {entries : List (Int × CAddrInfo)} (count : nIds+entries.countP isTried = nTried) :
    writeTried nVersion nTried nIds entries = (entries.filter isTried).flatMap fun entry => entry.2.Serialize nVersion := by
  induction entries generalizing nIds with
  | nil => rfl
  | cons entry rest ih =>
    obtain ⟨nId,info⟩ := entry
    rw [writeTried]
    by_cases wrong : nIds = nTried
    · have none : ((nId,info) :: rest).countP isTried = 0 := by omega
      rw [if_pos wrong,List.filter_eq_nil_iff.mpr (List.countP_eq_zero.mp none)]
      rfl
    · rw [if_neg wrong]
      by_cases tried : info.fInTried = true
      · have counts : isTried (nId,info) = true := tried
        rw [List.countP_cons_of_pos counts] at count
        rw [if_pos tried,List.filter_cons_of_pos counts,List.flatMap_cons,ih (by push_cast at count; omega)]
      · have counts : ¬isTried (nId,info) = true := tried
        rw [List.countP_cons_of_neg counts] at count
        rw [if_neg tried,List.filter_cons_of_neg counts]
        exact ih count

/-! ### Entries that have been read -/

variable {rules : AddrRules} {infos : List CAddrInfo}

/-- Whether an entry goes into a tried bucket. -/
def goesTo (rules : AddrRules) (b : TriedBucket) (info : CAddrInfo) : Bool := info.fInTried && decide (info.GetTriedBucket rules = b)

/-- The places of those that do. -/
def triedAt (rules : AddrRules) (infos : List CAddrInfo) (b : TriedBucket) : List Int :=
  (infos.zipIdx.filter fun entry => goesTo rules b entry.1).map fun entry => (entry.2 : Int)

theorem getElem?_concat_iff {α : Type} {as : List α} {a x : α} {i : Nat} : (as ++ [a])[i]? = some x ↔ as[i]? = some x ∨ i = as.length ∧ a = x := by
  rcases Nat.lt_trichotomy i as.length with low | rfl | high
  · rw [List.getElem?_append_left low]
    simp [Nat.ne_of_lt low]
  · rw [List.getElem?_concat_length,List.getElem?_eq_none (Nat.le_refl _)]
    simp
  · rw [List.getElem?_eq_none (by simp; omega),List.getElem?_eq_none (Nat.le_of_lt high)]
    simp [Nat.ne_of_gt high]

theorem triedAt_concat (infos : List CAddrInfo) (info : CAddrInfo) (b : TriedBucket) :
    triedAt rules (infos ++ [info]) b = triedAt rules infos b ++ if goesTo rules b info then [(infos.length : Int)] else [] := by
  rw [triedAt,List.zipIdx_append,List.filter_append,List.map_append]
  congr 1
  rw [List.zipIdx_singleton,Nat.zero_add,List.filter_singleton]
  cases goesTo rules b info with
  | true => rfl
  | false => rfl

theorem length_triedAt (infos : List CAddrInfo) (b : TriedBucket) : (triedAt rules infos b).length = infos.countP (goesTo rules b) := by
  induction infos using List.reverseRecOn with
  | nil => rfl
  | append_singleton infos info ih =>
    rw [triedAt_concat,List.length_append,ih,List.countP_append,List.countP_singleton]
    split
    · rfl
    · rfl

theorem mem_triedAt {b : TriedBucket} {nId : Int} :
    nId ∈ triedAt rules infos b ↔ ∃ (i : Nat) (info : CAddrInfo), infos[i]? = some info ∧ nId = i ∧ goesTo rules b info = true := by
  simp only [triedAt,List.mem_map,List.mem_filter,Prod.exists,List.mem_zipIdx_iff_getElem?]
  constructor
  · rintro ⟨info,i,⟨here,goes⟩,rfl⟩
    exact ⟨i,info,here,rfl,goes⟩
  · rintro ⟨i,info,here,rfl,goes⟩
    exact ⟨info,i,⟨here,goes⟩,rfl⟩

theorem nodup_triedAt (infos : List CAddrInfo) (b : TriedBucket) : (triedAt rules infos b).Nodup := by
  induction infos using List.reverseRecOn with
  | nil => exact List.nodup_nil
  | append_singleton infos info ih =>
    rw [triedAt_concat]
    split
    · refine List.nodup_append.mpr ⟨ih,List.nodup_singleton _,?_⟩
      intro k member last is
      obtain ⟨i,old,here,rfl,_⟩ := mem_triedAt.mp member
      have low := (List.getElem?_eq_some_iff.mp here).1
      rw [List.mem_singleton.mp is]
      omega
    · rw [List.append_nil]
      exact ih

/-- A manager whose ids are the places of its entries, at random places of the same number;
    the tried buckets are filled in that order. -/
structure Listed (rules : AddrRules) (infos : List CAddrInfo) (s : CAddrMan) : Prop where
  entries : ∀ (nId : Int) info, s.mapInfo[nId]? = some info ↔
    ∃ (i : Nat) (old : CAddrInfo), infos[i]? = some old ∧ nId = i ∧ info = {old with nRandomPos := i,nRefCount := holders s.vvNew i}
  addrs : ∀ (addr : CNetAddr) (nId : Int), s.mapAddr[addr]? = some nId ↔ ∃ (i : Nat) (old : CAddrInfo), infos[i]? = some old ∧ nId = i ∧ old.ip = addr
  random : s.vRandom = (List.range infos.length).map fun i : Nat => (i : Int)
  tried : ∀ b, s.vvTried b = triedAt rules infos b

theorem Listed.put {t : CAddrMan} (listed : Listed rules infos s) (fresh : ∀ old ∈ infos, old.ip ≠ info.ip)
    (unheld : holders s.vvNew infos.length = 0) (untaken : info.nRefCount = 0)
    (mapInfo : t.mapInfo = s.mapInfo.insert infos.length {info with nRandomPos := infos.length})
    (mapAddr : t.mapAddr = s.mapAddr.insert info.ip infos.length) (vRandom : t.vRandom = s.vRandom ++ [(infos.length : Int)])
    (vvNew : t.vvNew = s.vvNew) (vvTried : ∀ b, t.vvTried b = s.vvTried b ++ if goesTo rules b info then [(infos.length : Int)] else []) :
    Listed rules (infos ++ [info]) t := by
  have self := congrArg (fun n => ({info with nRandomPos := (infos.length : Int),nRefCount := n} : CAddrInfo)) untaken
  refine ⟨?_,?_,?_,?_⟩
  · intro nId y
    rw [mapInfo,insert_some_iff,listed.entries,vvNew]
    constructor
    · rintro (⟨rfl,rfl⟩ | ⟨_,i,old,here,rfl,rfl⟩)
      · refine ⟨infos.length,info,getElem?_concat_iff.mpr (.inr ⟨rfl,rfl⟩),rfl,?_⟩
        rw [unheld]
        exact self
      · exact ⟨i,old,getElem?_concat_iff.mpr (.inl here),rfl,rfl⟩
    · rintro ⟨i,old,here,rfl,rfl⟩
      rcases getElem?_concat_iff.mp here with here | ⟨rfl,rfl⟩
      · have low := (List.getElem?_eq_some_iff.mp here).1
        exact .inr ⟨by omega,i,old,here,rfl,rfl⟩
      · refine .inl ⟨rfl,?_⟩
        rw [unheld]
        exact self.symm
  · intro addr nId
    rw [mapAddr,insert_some_iff,listed.addrs]
    constructor
    · rintro (⟨rfl,rfl⟩ | ⟨_,i,old,here,rfl,rfl⟩)
      · exact ⟨infos.length,info,getElem?_concat_iff.mpr (.inr ⟨rfl,rfl⟩),rfl,rfl⟩
      · exact ⟨i,old,getElem?_concat_iff.mpr (.inl here),rfl,rfl⟩
    · rintro ⟨i,old,here,rfl,rfl⟩
      rcases getElem?_concat_iff.mp here with here | ⟨rfl,rfl⟩
      · exact .inr ⟨fresh old (List.mem_of_getElem? here),i,old,here,rfl,rfl⟩
      · exact .inl ⟨rfl,rfl⟩
  · rw [vRandom,listed.random,List.length_append,List.length_singleton,List.range_succ,List.map_append,List.map_singleton]
  · intro b
    rw [vvTried,listed.tried,triedAt_concat]

theorem holders_none (nId : Int) : holders (fun _ : NewBucket => (∅ : Finset Int)) nId = 0 := by
  by_contra more
  obtain ⟨b,inside⟩ := holders_pos_iff.mp (Nat.pos_of_ne_zero more)
  contradiction

theorem loadNew_reads {bytes : List UInt8} (reads : Decodes CAddrInfo.Unserialize bytes info) (n : Int) (s : CAddrMan) :
    Decodes (loadNew rules ADDRMAN_NEW_BUCKET_COUNT (n,s)) bytes (n+1,{s.setInfo n {info with nRandomPos := s.vRandom.length} with
      mapAddr := s.mapAddr.insert info.ip n
      vRandom := s.vRandom ++ [n]}) := by
  intro rest
  unfold loadNew
  rw [reads.bind_eq]
  dsimp only
  rw [if_neg (not_not.mpr rfl)]
  rfl

theorem loadTried_reads {bytes : List UInt8} (reads : Decodes CAddrInfo.Unserialize bytes info) (nLost : Int) (s : CAddrMan)
    (room : (s.vvTried (info.GetTriedBucket rules)).length < ADDRMAN_TRIED_BUCKET_SIZE) :
    Decodes (loadTried rules (nLost,s)) bytes (nLost,{s.setInfo s.nIdCount {info with nRandomPos := s.vRandom.length,fInTried := true} with
      vRandom := s.vRandom ++ [s.nIdCount]
      mapAddr := s.mapAddr.insert info.ip s.nIdCount
      vvTried := Function.update s.vvTried (info.GetTriedBucket rules) (s.vvTried (info.GetTriedBucket rules) ++ [s.nIdCount])
      nIdCount := s.nIdCount+1}) := by
  intro rest
  unfold loadTried
  rw [reads.bind_eq]
  dsimp only
  rw [if_pos room]
  rfl

/-- An address that comes later is another one. -/
theorem other_ip {before after : List CAddrInfo} (distinct : ((before ++ info :: after).map fun info => info.ip).Nodup) :
    ∀ old ∈ before, old.ip ≠ info.ip := by
  intro old member
  rw [List.map_append,List.map_cons] at distinct
  exact (List.nodup_append.mp distinct).2.2 _ (List.mem_map_of_mem member) _ (List.mem_cons_self ..)

/-- The new entries come back under the first ids. -/
theorem decodes_loadNew {as : List CAddrInfo} (version : FitsInt nVersion) (fits : ∀ info ∈ as, info.InMemory) (distinct : (as.map fun info => info.ip).Nodup)
    (start : Listed rules [] s) (empty : s.vvNew = fun _ => ∅) :
    ∃ turn : Int × CAddrMan, Decodes (loop (loadNew rules ADDRMAN_NEW_BUCKET_COUNT) as.length (0,s)) (as.flatMap fun info => info.Serialize nVersion) turn ∧
      Listed rules (as.map CAddrInfo.loaded) turn.2 ∧ (turn.2.vvNew = fun _ => ∅) ∧ turn.2.nNew = s.nNew ∧ turn.2.nTried = s.nTried := by
  have run := @Decodes.loop String CAddrInfo (Int × CAddrMan) (loadNew rules ADDRMAN_NEW_BUCKET_COUNT) (fun info => info.Serialize nVersion)
    (fun before turn => turn.1 = before.length ∧ Listed rules (before.map CAddrInfo.loaded) turn.2 ∧ (turn.2.vvNew = fun _ => ∅) ∧
      turn.2.nNew = s.nNew ∧ turn.2.nTried = s.nTried) as (0,s) ⟨rfl,start,empty,rfl,rfl⟩ ?_
  · obtain ⟨turn,read,_,listed,empty,new,tried⟩ := run
    exact ⟨turn,read,listed,empty,new,tried⟩
  · rintro before info after ⟨n,t⟩ rfl ⟨rfl,listed,empty,new,tried⟩
    dsimp only at listed empty new tried
    have known := fits info (List.mem_append_right _ (List.mem_cons_self ..))
    refine ⟨_,loadNew_reads (decodes_addrInfo version known) _ t,?_,?_,empty,new,tried⟩
    · rw [List.length_append,List.length_singleton]
      push_cast
      rfl
    · have size : t.vRandom.length = (before.map CAddrInfo.loaded).length := by rw [listed.random,List.length_map,List.length_range]
      rw [List.map_append,List.map_singleton]
      refine listed.put ?_ ?_ rfl ?_ ?_ ?_ rfl ?_
      · intro old member
        obtain ⟨first,member',rfl⟩ := List.mem_map.mp member
        exact other_ip distinct first member'
      · rw [empty]
        exact holders_none _
      · dsimp only
        rw [size,List.length_map]
        rfl
      · rw [List.length_map]
      · rw [List.length_map]
      · intro b
        exact (List.append_nil _).symm

/-- The tried entries come back under the next ids, none of them lost. -/
theorem decodes_loadTried {as : List CAddrInfo} (version : FitsInt nVersion) (fits : ∀ info ∈ as, info.InMemory)
    (distinct : ((infos ++ as).map fun info => info.ip).Nodup) (untried : ∀ b, infos.countP (goesTo rules b) = 0)
    (room : ∀ b, (as.map CAddrInfo.retried).countP (goesTo rules b) ≤ ADDRMAN_TRIED_BUCKET_SIZE) (start : Listed rules infos s)
    (count : s.nIdCount = infos.length) (empty : s.vvNew = fun _ => ∅) :
    ∃ t, Decodes (loop (loadTried rules) as.length (0,s)) (as.flatMap fun info => info.Serialize nVersion) (0,t) ∧
      Listed rules (infos ++ as.map CAddrInfo.retried) t ∧ t.nIdCount = infos.length+as.length ∧ (t.vvNew = fun _ => ∅) ∧ t.nNew = s.nNew ∧
        t.nTried = s.nTried := by
  have run := @Decodes.loop String CAddrInfo (Int × CAddrMan) (loadTried rules) (fun info => info.Serialize nVersion)
    (fun before turn => turn.1 = 0 ∧ Listed rules (infos ++ before.map CAddrInfo.retried) turn.2 ∧ turn.2.nIdCount = infos.length+before.length ∧
      (turn.2.vvNew = fun _ => ∅) ∧ turn.2.nNew = s.nNew ∧ turn.2.nTried = s.nTried) as (0,s)
    ⟨rfl,by simpa using start,by simpa using count,empty,rfl,rfl⟩ ?_
  · obtain ⟨⟨_,t⟩,read,rfl,listed,count,empty,new,tried⟩ := run
    exact ⟨t,read,listed,count,empty,new,tried⟩
  · rintro before info after ⟨_,t⟩ rfl ⟨rfl,listed,count,empty,new,tried⟩
    dsimp only at listed count empty new tried
    have known := fits info (List.mem_append_right _ (List.mem_cons_self ..))
    have size : (infos ++ before.map CAddrInfo.retried).length = infos.length+before.length := by rw [List.length_append,List.length_map]
    have id : t.nIdCount = (infos ++ before.map CAddrInfo.retried).length := by
      rw [count,size]
      push_cast
      rfl
    have fewer : (t.vvTried (info.loaded.GetTriedBucket rules)).length < ADDRMAN_TRIED_BUCKET_SIZE := by
      have all := room (info.loaded.GetTriedBucket rules)
      have here : goesTo rules (info.loaded.GetTriedBucket rules) info.retried = true := decide_eq_true rfl
      rw [List.map_append,List.map_cons,List.countP_append,List.countP_cons_of_pos here] at all
      rw [listed.tried,length_triedAt,List.countP_append,untried]
      omega
    refine ⟨_,loadTried_reads (decodes_addrInfo version known) 0 t fewer,rfl,?_,?_,empty,new,tried⟩
    · rw [List.map_append,List.map_singleton,← List.append_assoc]
      refine listed.put ?_ ?_ rfl ?_ ?_ ?_ rfl ?_
      · have apart := distinct
        rw [← List.append_assoc] at apart
        intro old member
        rcases List.mem_append.mp member with member | member
        · exact other_ip apart old (List.mem_append_left _ member)
        · obtain ⟨first,member',rfl⟩ := List.mem_map.mp member
          exact other_ip apart first (List.mem_append_right _ member')
      · rw [empty]
        exact holders_none _
      · dsimp only
        rw [id,listed.random,List.length_map,List.length_range]
        rfl
      · dsimp only
        rw [id]
        rfl
      · dsimp only
        rw [id]
      · intro b
        dsimp only
        by_cases own : info.loaded.GetTriedBucket rules = b
        · subst own
          rw [Function.update_self,id,if_pos (show goesTo rules (info.loaded.GetTriedBucket rules) info.retried = true from decide_eq_true rfl)]
        · rw [Function.update_of_ne (Ne.symm own),if_neg (show ¬goesTo rules b info.retried = true from fun goes => own (of_decide_eq_true goes)),
            List.append_nil]
    · show t.nIdCount+1 = _
      rw [count,List.length_append,List.length_singleton]
      push_cast
      omega

/-- An index puts a known entry into a bucket that does not hold it yet. -/
theorem loadIndex_reads {i : Nat} {old : CAddrInfo} (listed : Listed rules infos s) (here : infos[i]? = some old) (small : FitsInt i) (b : NewBucket)
    (out : (i : Int) ∉ s.vvNew b) (low : (holders s.vvNew (i : Int) : Int) < ADDRMAN_NEW_BUCKETS_PER_ADDRESS) :
    ∃ t, Decodes (loadIndex ADDRMAN_NEW_BUCKET_COUNT b s) (intBytes i) t ∧ Listed rules infos t ∧
      t.vvNew = Function.update s.vvNew b (insert (i : Int) (s.vvNew b)) ∧ t.nIdCount = s.nIdCount ∧ t.nNew = s.nNew ∧ t.nTried = s.nTried := by
  have found := (listed.entries i _).mpr ⟨i,old,here,rfl,rfl⟩
  have bucket : newBucket b = b := Fin.ext (Nat.mod_eq_of_lt b.isLt)
  have more := holders_insert out
  refine ⟨{s.setInfo i {old with nRandomPos := i,nRefCount := holders s.vvNew (i : Int)+1} with
    vvNew := Function.update s.vvNew b (insert (i : Int) (s.vvNew b))},?_,⟨?_,listed.addrs,listed.random,listed.tried⟩,rfl,rfl,rfl,rfl⟩
  · intro rest
    unfold loadIndex
    rw [(decodes_int small).bind_eq,found]
    dsimp only [Option.getD]
    rw [if_pos ⟨rfl,low⟩,bucket]
    rfl
  · intro nId info
    rw [show CAddrMan.mapInfo _ = s.mapInfo.insert i _ from rfl,insert_some_iff,listed.entries]
    dsimp only
    constructor
    · rintro (⟨rfl,rfl⟩ | ⟨other,j,first,there,rfl,rfl⟩)
      · refine ⟨i,old,here,rfl,?_⟩
        rw [more,if_pos rfl]
        push_cast
        rfl
      · refine ⟨j,first,there,rfl,?_⟩
        rw [more,if_neg other,Nat.add_zero]
    · rintro ⟨j,first,there,rfl,rfl⟩
      by_cases same : j = i
      · subst same
        obtain rfl := Option.some.inj (here.symm.trans there)
        refine .inl ⟨rfl,?_⟩
        rw [more,if_pos rfl]
        push_cast
        rfl
      · have other : (j : Int) ≠ i := fun is => same (Int.ofNat.inj is)
        refine .inr ⟨other,j,first,there,rfl,?_⟩
        rw [more,if_neg other,Nat.add_zero]

/-- Which entries the buckets on file hold: known ones, each in a bucket once and in few. -/
structure Fillable (infos : List CAddrInfo) (lists : NewBucket → List Int) : Prop where
  known : ∀ b, ∀ nId ∈ lists b, ∃ (i : Nat) (old : CAddrInfo), infos[i]? = some old ∧ nId = i ∧ FitsInt nId
  once : ∀ b, (lists b).Nodup
  sized : ∀ b, FitsInt (lists b).length
  few : ∀ nId : Int, holders (fun b => (lists b).toFinset) nId ≤ ADDRMAN_NEW_BUCKETS_PER_ADDRESS

/-- A bucket of the file fills one that is empty. -/
theorem decodes_loadBucket {lists : NewBucket → List Int} (fillable : Fillable infos lists) (b : NewBucket) (listed : Listed rules infos s)
    (less : ∀ c, s.vvNew c ⊆ (lists c).toFinset) (empty : s.vvNew b = ∅) :
    ∃ t, Decodes (loadBucket ADDRMAN_NEW_BUCKET_COUNT (b,s)) (intBytes (lists b).length ++ (lists b).flatMap intBytes) (b+1,t) ∧ Listed rules infos t ∧
      t.vvNew = Function.update s.vvNew b (lists b).toFinset ∧ t.nIdCount = s.nIdCount ∧ t.nNew = s.nNew ∧ t.nTried = s.nTried := by
  have run := @Decodes.loop String Int CAddrMan (loadIndex ADDRMAN_NEW_BUCKET_COUNT b) intBytes
    (fun before t => Listed rules infos t ∧ t.vvNew = Function.update s.vvNew b before.toFinset ∧ t.nIdCount = s.nIdCount ∧ t.nNew = s.nNew ∧
      t.nTried = s.nTried) (lists b) s ⟨listed,by rw [List.toFinset_nil,← empty,Function.update_eq_self],rfl,rfl,rfl⟩ ?_
  · obtain ⟨t,read,kept⟩ := run
    refine ⟨t,(decodes_int (fillable.sized b)).bind ?_,kept⟩
    rw [Int.toNat_natCast]
    exact read.return fun t => ((b : Nat)+1,t)
  · rintro before nId after t all ⟨listed,sets,count,new,tried⟩
    have member : nId ∈ lists b := by
      rw [all]
      exact List.mem_append_right _ (List.mem_cons_self ..)
    obtain ⟨i,old,here,rfl,small⟩ := fillable.known b nId member
    have fresh : (i : Int) ∉ t.vvNew b := by
      have once := fillable.once b
      rw [all] at once
      rw [sets,Function.update_self,List.mem_toFinset]
      exact fun early => (List.nodup_append.mp once).2.2 _ early _ (List.mem_cons_self ..) rfl
    have part : ∀ c, t.vvNew c ⊆ (lists c).toFinset := by
      intro c
      rw [sets]
      by_cases same : c = b
      · subst same
        rw [Function.update_self,all,List.toFinset_append]
        exact Finset.subset_union_left
      · rw [Function.update_of_ne same]
        exact less c
    have low : (holders t.vvNew (i : Int) : Int) < ADDRMAN_NEW_BUCKETS_PER_ADDRESS := by
      have fewer := holders_lt part fresh (List.mem_toFinset.mpr member)
      have few := fillable.few i
      omega
    obtain ⟨u,read,listed',sets',count',new',tried'⟩ := loadIndex_reads listed here small b fresh low
    refine ⟨u,read,listed',?_,count'.trans count,new'.trans new,tried'.trans tried⟩
    rw [sets',sets,Function.update_self,Function.update_idem,List.toFinset_append,Finset.union_comm,List.toFinset_cons,List.toFinset_nil,
      Finset.insert_union,Finset.empty_union]

theorem decodes_loadBuckets {lists : NewBucket → List Int} (fillable : Fillable infos lists) (listed : Listed rules infos s) (empty : s.vvNew = fun _ => ∅) :
    ∃ turn : Nat × CAddrMan, Decodes (loop (loadBucket ADDRMAN_NEW_BUCKET_COUNT) ADDRMAN_NEW_BUCKET_COUNT (0,s))
        ((List.finRange ADDRMAN_NEW_BUCKET_COUNT).flatMap fun b => intBytes (lists b).length ++ (lists b).flatMap intBytes) turn ∧
      Listed rules infos turn.2 ∧ (turn.2.vvNew = fun b => (lists b).toFinset) ∧ turn.2.nIdCount = s.nIdCount ∧ turn.2.nNew = s.nNew ∧
        turn.2.nTried = s.nTried := by
  have run := @Decodes.loop String NewBucket (Nat × CAddrMan) (loadBucket ADDRMAN_NEW_BUCKET_COUNT)
    (fun b => intBytes (lists b).length ++ (lists b).flatMap intBytes)
    (fun before turn => turn.1 = before.length ∧ Listed rules infos turn.2 ∧ (turn.2.vvNew = fun b => if b ∈ before then (lists b).toFinset else ∅) ∧
      turn.2.nIdCount = s.nIdCount ∧ turn.2.nNew = s.nNew ∧ turn.2.nTried = s.nTried)
    (List.finRange ADDRMAN_NEW_BUCKET_COUNT) (0,s) ⟨rfl,listed,by simpa using empty,rfl,rfl,rfl⟩ ?_
  · obtain ⟨turn,read,_,listed,sets,kept⟩ := run
    rw [List.length_finRange] at read
    refine ⟨turn,read,listed,?_,kept⟩
    rw [sets]
    funext b
    exact if_pos (List.mem_finRange b)
  · rintro before b after ⟨n,t⟩ all ⟨rfl,listed,sets,count,new,tried⟩
    dsimp only at listed sets count new tried
    have turn : before.length = b := by
      have here : (List.finRange ADDRMAN_NEW_BUCKET_COUNT)[before.length]? = some b := by rw [all,List.getElem?_append_right (le_refl _),Nat.sub_self]; rfl
      obtain ⟨low,same⟩ := List.getElem?_eq_some_iff.mp here
      rw [← same,List.getElem_finRange]
      rfl
    have fresh : b ∉ before := by
      have once := List.nodup_finRange ADDRMAN_NEW_BUCKET_COUNT
      rw [all] at once
      exact fun early => (List.nodup_append.mp once).2.2 _ early _ (List.mem_cons_self ..) rfl
    have less : ∀ c, t.vvNew c ⊆ (lists c).toFinset := by
      intro c
      rw [sets]
      dsimp only
      split
      · exact Finset.Subset.refl _
      · exact Finset.empty_subset _
    obtain ⟨u,read,listed',sets',count',new',tried'⟩ := decodes_loadBucket fillable b listed less (by rw [sets]; exact if_neg fresh)
    rw [turn]
    refine ⟨(b+1,u),read,?_,listed',?_,count'.trans count,new'.trans new,tried'.trans tried⟩
    · rw [List.length_append,turn]
      rfl
    · rw [sets',sets]
      funext c
      by_cases same : c = b
      · subst same
        rw [Function.update_self,if_pos (List.mem_append_right _ (List.mem_singleton_self c))]
      · rw [Function.update_of_ne same]
        simp [same]

/-! ### The order of the file -/

/-- The entries as they are written: the new ones, then the tried ones. -/
def newEntries (s : CAddrMan) : List (Int × CAddrInfo) := s.mapInfo.toList.filter isNew
def triedEntries (s : CAddrMan) : List (Int × CAddrInfo) := s.mapInfo.toList.filter isTried
def order (s : CAddrMan) : List (Int × CAddrInfo) := s.newEntries ++ s.triedEntries

/-- The id under which an entry comes back: its place. -/
def renumber (s : CAddrMan) (nId : Int) : Int := (s.order.map Prod.fst).idxOf nId

/-- An entry as it comes back, before it is counted in its buckets. -/
def kept (entry : Int × CAddrInfo) : CAddrInfo := {entry.2.loaded with fInTried := entry.2.fInTried}

theorem Consistent.isNew_iff (consistent : Consistent s) (found : s.mapInfo[nId]? = some info) : isNew (nId,info) = true ↔ info.fInTried = false := by
  rw [isNew,decide_eq_true_iff]
  cases kind : info.fInTried with
  | true => simp [((consistent.passed found).2.2 kind).1]
  | false =>
    have low := (consistent.new nId info found kind).2.1
    have held : info.nRefCount ≠ 0 := by omega
    simpa using held

theorem mem_newEntries (consistent : Consistent s) : (nId,info) ∈ s.newEntries ↔ s.mapInfo[nId]? = some info ∧ info.fInTried = false := by
  rw [newEntries,List.mem_filter,ExtTreeMap.mem_toList_iff_getElem?_eq_some]
  exact and_congr_right fun found => consistent.isNew_iff found

theorem mem_triedEntries : (nId,info) ∈ s.triedEntries ↔ s.mapInfo[nId]? = some info ∧ info.fInTried = true := by
  rw [triedEntries,List.mem_filter,ExtTreeMap.mem_toList_iff_getElem?_eq_some]
  rfl

theorem mem_order (consistent : Consistent s) : (nId,info) ∈ s.order ↔ s.mapInfo[nId]? = some info := by
  rw [order,List.mem_append,mem_newEntries consistent,mem_triedEntries,← and_or_left]
  cases info.fInTried <;> simp

theorem nodup_order (consistent : Consistent s) : (s.order.map Prod.fst).Nodup := by
  rw [order,List.map_append]
  refine List.nodup_append.mpr ⟨filtered_ids_nodup s _,filtered_ids_nodup s _,?_⟩
  intro nId first nId' second same
  obtain ⟨⟨k,info⟩,member,rfl⟩ := List.mem_map.mp first
  obtain ⟨⟨k',info'⟩,member',rfl⟩ := List.mem_map.mp second
  obtain ⟨found,untried⟩ := (mem_newEntries consistent).mp member
  obtain ⟨found',tried⟩ := mem_triedEntries.mp member'
  obtain rfl : k = k' := same
  obtain rfl := Option.some.inj (found.symm.trans found')
  rw [untried] at tried
  contradiction

/-- The new id of an entry is its place. -/
theorem renumber_at (consistent : Consistent s) {i : Nat} (here : s.order[i]? = some (nId,info)) : s.renumber nId = i := by
  have place : (s.order.map Prod.fst)[i]? = some nId := by rw [List.getElem?_map,here]; rfl
  obtain ⟨low,same⟩ := List.getElem?_eq_some_iff.mp place
  rw [renumber,← same,(nodup_order consistent).idxOf_getElem]

theorem renumber_found (consistent : Consistent s) (found : s.mapInfo[nId]? = some info) :
    ∃ i : Nat, s.order[i]? = some (nId,info) ∧ s.renumber nId = i := by
  obtain ⟨i,here⟩ := List.mem_iff_getElem?.mp ((mem_order consistent).mpr found)
  exact ⟨i,here,renumber_at consistent here⟩

theorem renumber_inj (consistent : Consistent s) {nId' : Int} {info' : CAddrInfo} (found : s.mapInfo[nId]? = some info)
    (found' : s.mapInfo[nId']? = some info') (same : s.renumber nId = s.renumber nId') : nId = nId' := by
  obtain ⟨i,here,place⟩ := renumber_found consistent found
  obtain ⟨j,there,place'⟩ := renumber_found consistent found'
  obtain rfl : i = j := by omega
  exact congrArg Prod.fst (Option.some.inj (here.symm.trans there))

/-- The new entries come first. -/
theorem renumber_new (consistent : Consistent s) {i : Nat} (here : s.newEntries[i]? = some (nId,info)) : s.renumber nId = i := by
  refine @renumber_at s nId info consistent i ?_
  rw [order,List.getElem?_append_left (List.getElem?_eq_some_iff.mp here).1]
  exact here

theorem newEntries_length (consistent : Consistent s) : (s.newEntries.length : Int) = s.nNew := by
  rw [consistent.nNew,List.countP_eq_length_filter,newEntries]
  congr 2
  refine List.filter_congr fun entry member => ?_
  have kind := consistent.isNew_iff (ExtTreeMap.mem_toList_iff_getElem?_eq_some.mp (show (entry.1,entry.2) ∈ s.mapInfo.toList from member))
  rw [Bool.eq_iff_iff,kind,Bool.not_eq_true']

theorem triedEntries_length (consistent : Consistent s) : (s.triedEntries.length : Int) = s.nTried := by
  rw [consistent.nTried,List.countP_eq_length_filter]
  rfl

/-- There are no more things in all than fit into so many buckets. -/
theorem length_flatMap_le {n k : Nat} {lists : Fin n → List Int} (small : ∀ b, (lists b).length ≤ k) : ((List.finRange n).flatMap lists).length ≤ n*k := by
  rw [List.length_flatMap]
  have total := List.sum_le_card_nsmul ((List.finRange n).map fun b => (lists b).length) k ?_
  · rw [List.length_map,List.length_finRange] at total
    exact total
  · intro x member
    obtain ⟨b,_,rfl⟩ := List.mem_map.mp member
    exact small b

theorem newEntries_le (consistent : Consistent s) : s.newEntries.length ≤ ADDRMAN_NEW_BUCKET_COUNT*ADDRMAN_NEW_BUCKET_SIZE := by
  have held : s.newEntries.map Prod.fst ⊆ s.inNew := by
    intro nId member
    obtain ⟨⟨k,info⟩,written,rfl⟩ := List.mem_map.mp member
    obtain ⟨found,untried⟩ := (mem_newEntries consistent).mp written
    obtain ⟨refs,low,_⟩ := consistent.new k info found untried
    obtain ⟨b,inside⟩ := holders_pos_iff.mp (show 0 < holders s.vvNew k by omega)
    exact List.mem_flatMap.mpr ⟨b,List.mem_finRange b,(Finset.mem_sort _).mpr inside⟩
  have fewer := ((filtered_ids_nodup s isNew).subperm held).length_le
  rw [List.length_map] at fewer
  refine fewer.trans (length_flatMap_le fun b => ?_)
  rw [Finset.length_sort]
  exact consistent.newSize b

theorem triedEntries_le (consistent : Consistent s) : s.triedEntries.length ≤ ADDRMAN_TRIED_BUCKET_COUNT*ADDRMAN_TRIED_BUCKET_SIZE := by
  have all := consistent.tried_perm.length_eq
  rw [List.length_map] at all
  rw [show s.triedEntries.length = _ from all.symm]
  exact length_flatMap_le consistent.triedSize

theorem order_lt (consistent : Consistent s) : s.order.length < 2^31 := by
  have new := newEntries_le consistent
  have tried := triedEntries_le consistent
  have sizes : ADDRMAN_NEW_BUCKET_COUNT*ADDRMAN_NEW_BUCKET_SIZE+ADDRMAN_TRIED_BUCKET_COUNT*ADDRMAN_TRIED_BUCKET_SIZE < 2^31 := by decide
  rw [order,List.length_append]
  omega

/-- No two entries have one address. -/
theorem order_ips (consistent : Consistent s) : (s.order.map fun entry => entry.2.ip).Nodup := by
  have distinct := List.pairwise_map.mp (nodup_order consistent)
  refine List.pairwise_map.mpr (distinct.imp_of_mem fun {first later} member member' other same => other ?_)
  have found := (consistent.byAddr _ _).mpr ⟨first.2,(mem_order consistent).mp member,rfl⟩
  have found' := (consistent.byAddr _ _).mpr ⟨later.2,(mem_order consistent).mp member',rfl⟩
  rw [← same] at found'
  exact Option.some.inj (found.symm.trans found')

/-- As many tried entries hash to a bucket as are in it. -/
theorem triedEntries_room (consistent : Consistent s) (placed : Placed rules s) (b : TriedBucket) :
    ((s.triedEntries.map Prod.snd).map CAddrInfo.retried).countP (goesTo rules b) ≤ ADDRMAN_TRIED_BUCKET_SIZE := by
  have inside : ((s.triedEntries.filter fun entry => goesTo rules b entry.2.retried).map Prod.fst) ⊆ s.vvTried b := by
    intro nId member
    obtain ⟨⟨k,info⟩,chosen,rfl⟩ := List.mem_map.mp member
    obtain ⟨written,goes⟩ := List.mem_filter.mp chosen
    obtain ⟨found,tried⟩ := mem_triedEntries.mp written
    obtain ⟨c,here,_⟩ := consistent.tried k info found tried
    have own := placed c k here info found
    rw [show c = b from own.symm.trans (of_decide_eq_true goes)] at here
    exact here
  have once : ((s.triedEntries.filter fun entry => goesTo rules b entry.2.retried).map Prod.fst).Nodup := by
    rw [triedEntries,List.filter_filter]
    exact filtered_ids_nodup s _
  have fewer := (once.subperm inside).length_le
  rw [List.length_map] at fewer
  rw [List.map_map,List.countP_map,List.countP_eq_length_filter]
  exact fewer.trans (consistent.triedSize b)

/-- What the writer puts into a bucket for an entry is its new id. -/
theorem writeNew_renumber (consistent : Consistent s) (found : s.mapInfo[nId]? = some info) (untried : info.fInTried = false) :
    ((writeNew nVersion s.nNew 0 {} s.mapInfo.toList).2[nId]?).getD 0 = s.renumber nId := by
  obtain ⟨i,here⟩ := List.mem_iff_getElem?.mp ((mem_newEntries consistent).mpr ⟨found,untried⟩)
  have distinct := filtered_ids_nodup s fun _ => true
  rw [List.filter_true] at distinct
  have count : 0+((s.mapInfo.toList.countP isNew : Nat) : Int) = s.nNew := by
    rw [Int.zero_add,List.countP_eq_length_filter]
    exact newEntries_length consistent
  rw [(writeNew_index distinct count).1 i _ here,renumber_new consistent here,Option.getD_some,Int.zero_add]

/-- The indices of a bucket on file. -/
def indices (s : CAddrMan) (b : NewBucket) : List Int := (inOrder (s.vvNew b)).map s.renumber

theorem bucketForm_eq (consistent : Consistent s) (b : NewBucket) :
    bucketForm (writeNew nVersion s.nNew 0 {} s.mapInfo.toList).2 (s.vvNew b) =
      intBytes (s.indices b).length ++ (s.indices b).flatMap intBytes := by
  rw [bucketForm,indices,List.length_map,length_inOrder,List.flatMap_map]
  congr 1
  refine List.flatMap_congr fun nId member => ?_
  obtain ⟨info,found,untried⟩ := consistent.newOnly b nId (mem_inOrder.mp member)
  rw [writeNew_renumber consistent found untried]

theorem indices_toFinset (s : CAddrMan) (b : NewBucket) : (s.indices b).toFinset = (s.vvNew b).image s.renumber := by
  ext k
  simp [indices]

theorem holders_indices (consistent : Consistent s) (found : s.mapInfo[nId]? = some info) :
    holders (fun b => (s.indices b).toFinset) (s.renumber nId) = holders s.vvNew nId := by
  simp only [indices_toFinset]
  apply holders_image
  intro b c member same
  obtain ⟨info',found',_⟩ := consistent.newOnly b c member
  exact renumber_inj consistent found' found same

theorem fillable_indices (consistent : Consistent s) : Fillable (s.order.map kept) s.indices := by
  refine ⟨?_,?_,?_,?_⟩
  · intro b nId' member
    obtain ⟨nId,inside,rfl⟩ := List.mem_map.mp member
    obtain ⟨info,found,_⟩ := consistent.newOnly b nId (mem_inOrder.mp inside)
    obtain ⟨i,here,place⟩ := renumber_found consistent found
    have low := (List.getElem?_eq_some_iff.mp here).1
    have small := order_lt consistent
    refine ⟨i,kept (nId,info),by rw [List.getElem?_map,here]; rfl,place,?_⟩
    rw [place]
    constructor
    · omega
    · omega
  · intro b
    refine (nodup_inOrder _).map_on ?_
    intro nId member nId' member' same
    obtain ⟨info,found,_⟩ := consistent.newOnly b nId (mem_inOrder.mp member)
    obtain ⟨info',found',_⟩ := consistent.newOnly b nId' (mem_inOrder.mp member')
    exact renumber_inj consistent found found' same
  · intro b
    have size := consistent.newSize b
    have small : ADDRMAN_NEW_BUCKET_SIZE < 2^31 := by decide
    rw [indices,List.length_map,length_inOrder]
    constructor
    · omega
    · omega
  · intro nId'
    by_cases none : holders (fun b => (s.indices b).toFinset) nId' = 0
    · rw [none]
      decide
    · obtain ⟨b,inside⟩ := holders_pos_iff.mp (Nat.pos_of_ne_zero none)
      rw [indices_toFinset] at inside
      obtain ⟨nId,member,rfl⟩ := Finset.mem_image.mp inside
      obtain ⟨info,found,untried⟩ := consistent.newOnly b nId member
      obtain ⟨refs,_,few⟩ := consistent.new nId info found untried
      rw [holders_indices consistent found,← refs]
      exact few

/-! ### What comes back -/

/-- The same manager but for the ids and the random order: the entries under other ids, with
    all that is kept on disk, and their buckets. -/
structure Renumbered (id : Int → Int) (s t : CAddrMan) : Prop where
  injective : ∀ (nId nId' : Int) info info', s.mapInfo[nId]? = some info → s.mapInfo[nId']? = some info' → id nId = id nId' → nId = nId'
  entries : ∀ (nId : Int) info, s.mapInfo[nId]? = some info →
    ∃ nRandomPos, t.mapInfo[id nId]? = some {info with nLastTry := 0,nRandomPos := nRandomPos}
  onto : ∀ (nId' : Int) info', t.mapInfo[nId']? = some info' → ∃ nId info, s.mapInfo[nId]? = some info ∧ id nId = nId'
  tried : ∀ b, (t.vvTried b).Perm ((s.vvTried b).map id)
  new : ∀ b, t.vvNew b = (s.vvNew b).image id
  nTried : t.nTried = s.nTried
  nNew : t.nNew = s.nNew

variable {t : CAddrMan}

theorem Listed.at (listed : Listed rules (s.order.map kept) t) {nId' : Int} {info' : CAddrInfo} :
    t.mapInfo[nId']? = some info' ↔ ∃ (i : Nat) (nId : Int) (info : CAddrInfo), s.order[i]? = some (nId,info) ∧ nId' = i ∧
      info' = {kept (nId,info) with nRandomPos := i,nRefCount := holders t.vvNew i} := by
  rw [listed.entries]
  constructor
  · rintro ⟨i,old,here,rfl,rfl⟩
    rw [List.getElem?_map] at here
    obtain ⟨⟨nId,info⟩,there,rfl⟩ := Option.map_eq_some_iff.mp here
    exact ⟨i,nId,info,there,rfl,rfl⟩
  · rintro ⟨i,nId,info,there,rfl,rfl⟩
    exact ⟨i,_,by rw [List.getElem?_map,there]; rfl,rfl,rfl⟩

/-- Each entry that comes back counts as many buckets as before. -/
theorem holders_back (consistent : Consistent s) (sets : t.vvNew = fun b => (s.indices b).toFinset) {i : Nat} (here : s.order[i]? = some (nId,info)) :
    (holders t.vvNew (i : Int) : Int) = info.nRefCount := by
  have found := (mem_order consistent).mp (List.mem_of_getElem? here)
  rw [sets,← renumber_at consistent here,holders_indices consistent found,consistent.refs found]

theorem Listed.renumbered (consistent : Consistent s) (placed : Placed rules s) (listed : Listed rules (s.order.map kept) t)
    (sets : t.vvNew = fun b => (s.indices b).toFinset) (nTried : t.nTried = s.nTried) (nNew : t.nNew = s.nNew) : Renumbered s.renumber s t := by
  refine ⟨fun nId nId' info info' found found' same => renumber_inj consistent found found' same,?_,?_,?_,?_,nTried,nNew⟩
  · intro nId info found
    obtain ⟨i,here,place⟩ := renumber_found consistent found
    refine ⟨i,listed.at.mpr ⟨i,nId,info,here,place,?_⟩⟩
    rw [holders_back consistent sets here]
    rfl
  · intro nId' info' found'
    obtain ⟨i,nId,info,here,rfl,_⟩ := listed.at.mp found'
    have member := List.mem_of_getElem? here
    exact ⟨nId,info,(mem_order consistent).mp member,renumber_at consistent here⟩
  · intro b
    have once : ((s.vvTried b).map s.renumber).Nodup := by
      refine (consistent.triedOnce b).map_on ?_
      intro nId member nId' member' same
      obtain ⟨info,found,_⟩ := consistent.triedOnly b nId member
      obtain ⟨info',found',_⟩ := consistent.triedOnly b nId' member'
      exact renumber_inj consistent found found' same
    rw [listed.tried]
    refine (List.perm_ext_iff_of_nodup (nodup_triedAt _ b) once).mpr fun nId' => ?_
    rw [mem_triedAt,List.mem_map]
    constructor
    · rintro ⟨i,old,here,rfl,goes⟩
      rw [List.getElem?_map] at here
      obtain ⟨⟨nId,info⟩,there,rfl⟩ := Option.map_eq_some_iff.mp here
      obtain ⟨tried,own⟩ := Bool.and_eq_true_iff.mp goes
      have found := (mem_order consistent).mp (List.mem_of_getElem? there)
      obtain ⟨c,inside,_⟩ := consistent.tried nId info found tried
      rw [show c = b from (placed c nId inside info found).symm.trans (of_decide_eq_true own)] at inside
      exact ⟨nId,inside,renumber_at consistent there⟩
    · rintro ⟨nId,inside,rfl⟩
      obtain ⟨info,found,tried⟩ := consistent.triedOnly b nId inside
      obtain ⟨i,here,place⟩ := renumber_found consistent found
      refine ⟨i,kept (nId,info),by rw [List.getElem?_map,here]; rfl,place,?_⟩
      exact Bool.and_eq_true_iff.mpr ⟨tried,decide_eq_true (placed b nId inside info found)⟩
  · intro b
    rw [← indices_toFinset,sets]

theorem Listed.linked (consistent : Consistent s) (listed : Listed rules (s.order.map kept) t) (sets : t.vvNew = fun b => (s.indices b).toFinset)
    (renumbered : Renumbered s.renumber s t) (count : t.nIdCount = s.order.length) : Linked t ∅ none := by
  have pool : pooled t.vvTried = (pooled s.vvTried).map s.renumber := pooled_map renumbered.tried
  have ids : pooled s.vvTried = (s.inTried : Multiset Int) := pooled_inTried s
  have random : ∀ (i : Nat) (nId : Int), t.vRandom[i]? = some nId ↔ i < s.order.length ∧ nId = i := by
    intro i nId
    rw [listed.random,List.getElem?_map,List.length_map]
    by_cases low : i < s.order.length
    · rw [List.getElem?_range low]
      simp [low,eq_comm]
    · rw [List.getElem?_eq_none (by rw [List.length_range]; omega)]
      simp [low]
  have triedIn : ∀ nId', nId' ∈ pooled t.vvTried ↔ ∃ (i : Nat) (nId : Int) (info : CAddrInfo), s.order[i]? = some (nId,info) ∧ nId' = i ∧
      info.fInTried = true := by
    intro nId'
    rw [mem_pooled]
    simp only [listed.tried,mem_triedAt]
    constructor
    · rintro ⟨b,i,old,here,rfl,goes⟩
      rw [List.getElem?_map] at here
      obtain ⟨⟨nId,info⟩,there,rfl⟩ := Option.map_eq_some_iff.mp here
      exact ⟨i,nId,info,there,rfl,(Bool.and_eq_true_iff.mp goes).1⟩
    · rintro ⟨i,nId,info,here,rfl,tried⟩
      exact ⟨_,i,kept (nId,info),by rw [List.getElem?_map,here]; rfl,rfl,Bool.and_eq_true_iff.mpr ⟨tried,decide_eq_true rfl⟩⟩
  refine ⟨?_,?_,?_,?_,?_,nofun,nofun,?_,?_,?_,?_,?_⟩
  · intro nId' info' found'
    obtain ⟨i,nId,info,here,rfl,rfl⟩ := listed.at.mp found'
    have found := (mem_order consistent).mp (List.mem_of_getElem? here)
    have low := (List.getElem?_eq_some_iff.mp here).1
    have held := holders_back consistent sets here
    obtain ⟨_,successes,succeeded⟩ := consistent.passed found
    refine ⟨?_,?_,Int.natCast_nonneg i,(random _ _).mpr ⟨low,rfl⟩,le_refl _,successes,?_,?_,?_,?_,nofun⟩
    · rw [count]
      exact Int.ofNat_lt.mpr low
    · exact (listed.addrs _ _).mpr ⟨i,kept (nId,info),by rw [List.getElem?_map,here]; rfl,rfl,rfl⟩
    · rw [if_neg not_owed,Int.add_zero]
    · rw [triedIn]
      constructor
      · exact fun tried => ⟨i,nId,info,here,rfl,tried⟩
      · rintro ⟨j,nId',info',there,same,tried⟩
        obtain rfl : i = j := Int.ofNat.inj same
        obtain ⟨_,rfl⟩ := Prod.mk.inj (Option.some.inj (here.symm.trans there))
        exact tried
    · intro tried
      rw [held]
      exact succeeded tried
    · intro untried _
      rw [held]
      exact (consistent.new nId info found untried).2
  · intro i nId' here
    obtain ⟨low,rfl⟩ := (random i nId').mp here
    exact ⟨_,listed.at.mpr ⟨i,_,_,List.getElem?_eq_getElem low,rfl,rfl⟩,rfl⟩
  · intro addr nId' here
    obtain ⟨i,old,there,rfl,rfl⟩ := (listed.addrs addr nId').mp here
    exact ⟨_,(listed.entries _ _).mpr ⟨i,old,there,rfl,rfl⟩,rfl⟩
  · intro nId' member
    obtain ⟨i,nId,info,here,rfl,_⟩ := (triedIn nId').mp member
    exact ⟨_,listed.at.mpr ⟨i,nId,info,here,rfl,rfl⟩⟩
  · intro b nId' member
    rw [renumbered.new] at member
    obtain ⟨nId,inside,rfl⟩ := Finset.mem_image.mp member
    obtain ⟨info,found,_⟩ := consistent.newOnly b nId inside
    obtain ⟨nRandomPos,back⟩ := renumbered.entries nId info found
    exact ⟨_,back⟩
  · rw [pool,ids]
    refine (Multiset.coe_nodup.mpr consistent.once).map_on ?_
    intro nId member nId' member' same
    obtain ⟨info,found,_⟩ := consistent.tried_iff.mp (Multiset.mem_coe.mp member)
    obtain ⟨info',found',_⟩ := consistent.tried_iff.mp (Multiset.mem_coe.mp member')
    exact renumber_inj consistent found found' same
  · have all := consistent.tried_perm.length_eq
    rw [List.length_map] at all
    rw [renumbered.nTried,← triedEntries_length consistent,pool,Multiset.card_map,ids,Multiset.coe_card,all]
    rfl
  · rw [renumbered.nNew,renumbered.nTried,← newEntries_length consistent,← triedEntries_length consistent,listed.random,List.length_map,
      List.length_range,List.length_map,order,List.length_append,Finset.card_empty]
    push_cast
    omega
  · intro b
    rw [renumbered.new]
    exact Finset.card_image_le.trans (consistent.newSize b)
  · intro b
    rw [(renumbered.tried b).length_eq,List.length_map]
    exact consistent.triedSize b

theorem Listed.placed (listed : Listed rules infos t) : Placed rules t := by
  intro b nId member info found
  rw [listed.tried] at member
  obtain ⟨i,old,here,rfl,goes⟩ := mem_triedAt.mp member
  obtain ⟨j,old',there,same,rfl⟩ := (listed.entries i info).mp found
  obtain rfl : i = j := by omega
  obtain rfl := Option.some.inj (here.symm.trans there)
  exact of_decide_eq_true (Bool.and_eq_true_iff.mp goes).2

theorem listed_nil (mapInfo : t.mapInfo = {}) (mapAddr : t.mapAddr = {}) (vRandom : t.vRandom = []) (vvTried : t.vvTried = fun _ => []) :
    Listed rules [] t := by
  refine ⟨?_,?_,vRandom,?_⟩
  · intro nId info
    rw [mapInfo]
    simp
  · intro addr nId
    rw [mapAddr]
    simp
  · intro b
    rw [vvTried]
    rfl

/-- The infos as they are listed once both loops have read them. -/
theorem kept_order (consistent : Consistent s) : (s.newEntries.map Prod.snd).map CAddrInfo.loaded ++ (s.triedEntries.map Prod.snd).map CAddrInfo.retried =
    s.order.map kept := by
  rw [order,List.map_append,List.map_map,List.map_map]
  congr 1
  · refine List.map_congr_left fun entry member => ?_
    have untried := ((mem_newEntries consistent).mp (show (entry.1,entry.2) ∈ s.newEntries from member)).2
    rw [kept,untried]
    rfl
  · refine List.map_congr_left fun entry member => ?_
    have tried := (mem_triedEntries.mp (show (entry.1,entry.2) ∈ s.triedEntries from member)).2
    rw [kept,tried]
    rfl

/-- The loops over the entries, from an empty manager. -/
theorem decodes_entries (consistent : Consistent s) (placed : Placed rules s) (version : FitsInt nVersion)
    (fits : ∀ (nId : Int) info, s.mapInfo[nId]? = some info → info.InMemory) (start : Listed rules [] t) (empty : t.vvNew = fun _ => ∅)
    (nNew : t.nNew = s.nNew) (nTried : t.nTried = s.nTried) :
    ∃ (turn : Int × CAddrMan) (u : CAddrMan),
      Decodes (loop (loadNew rules ADDRMAN_NEW_BUCKET_COUNT) s.nNew.toNat (0,t)) (s.newEntries.flatMap fun entry => entry.2.Serialize nVersion) turn ∧
      Decodes (loop (loadTried rules) s.nTried.toNat (0,{turn.2 with nIdCount := s.nNew}))
        (s.triedEntries.flatMap fun entry => entry.2.Serialize nVersion) (0,u) ∧
      Listed rules (s.order.map kept) u ∧ u.nIdCount = s.order.length ∧ (u.vvNew = fun _ => ∅) ∧ u.nNew = s.nNew ∧ u.nTried = s.nTried := by
  have newLength := newEntries_length consistent
  have triedLength := triedEntries_length consistent
  have distinct := order_ips consistent
  rw [order,List.map_append] at distinct
  have newFits : ∀ info ∈ s.newEntries.map Prod.snd, info.InMemory := by
    intro info member
    obtain ⟨⟨nId,_⟩,written,rfl⟩ := List.mem_map.mp member
    exact fits nId _ ((mem_newEntries consistent).mp written).1
  have triedFits : ∀ info ∈ s.triedEntries.map Prod.snd, info.InMemory := by
    intro info member
    obtain ⟨⟨nId,_⟩,written,rfl⟩ := List.mem_map.mp member
    exact fits nId _ (mem_triedEntries.mp written).1
  have newIps : ((s.newEntries.map Prod.snd).map fun info => info.ip).Nodup := by
    rw [List.map_map]
    exact (List.nodup_append.mp distinct).1
  obtain ⟨turn,read,listed,empty,new,tried⟩ := decodes_loadNew version newFits newIps start empty
  have ips : (((s.newEntries.map Prod.snd).map CAddrInfo.loaded ++ s.triedEntries.map Prod.snd).map fun info => info.ip).Nodup := by
    rw [List.map_append,List.map_map,List.map_map,List.map_map]
    exact distinct
  have untried : ∀ b, ((s.newEntries.map Prod.snd).map CAddrInfo.loaded).countP (goesTo rules b) = 0 := by
    intro b
    refine List.countP_eq_zero.mpr fun info member => ?_
    obtain ⟨_,_,rfl⟩ := List.mem_map.mp member
    exact Bool.false_ne_true
  obtain ⟨u,read',listed',count',empty',new',tried'⟩ := @decodes_loadTried {turn.2 with nIdCount := s.nNew} nVersion rules
    ((s.newEntries.map Prod.snd).map CAddrInfo.loaded) (s.triedEntries.map Prod.snd) version triedFits ips untried (triedEntries_room consistent placed)
    ⟨listed.entries,listed.addrs,listed.random,listed.tried⟩ (by rw [List.length_map,List.length_map,newLength]) empty
  rw [kept_order consistent] at listed'
  rw [List.flatMap_map,List.length_map,show s.newEntries.length = s.nNew.toNat by omega] at read
  rw [List.flatMap_map,List.length_map,show s.triedEntries.length = s.nTried.toNat by omega] at read'
  refine ⟨turn,u,read,read',listed',?_,empty',new'.trans (new.trans nNew),tried'.trans (tried.trans nTried)⟩
  rw [count',order,List.length_append,List.length_map,List.length_map,List.length_map]
  push_cast
  rfl

/-- The whole file. -/
theorem decodes_file {rulesOf : List UInt8 → AddrRules} {nKey : List UInt8} (consistent : Consistent s) (placed : Placed (rulesOf nKey) s)
    (fits : ∀ (nId : Int) info, s.mapInfo[nId]? = some info → info.InMemory) (key : nKey.length ≤ MAX_SIZE) (old : CAddrMan) :
    ∃ t, Decodes (old.Unserialize rulesOf) (s.Serialize nKey) (nKey,t) ∧ Listed (rulesOf nKey) (s.order.map kept) t ∧
      (t.vvNew = fun b => (s.indices b).toFinset) ∧ t.nIdCount = s.order.length ∧ t.nTried = s.nTried ∧ t.nNew = s.nNew := by
  have newLength := newEntries_length consistent
  have triedLength := triedEntries_length consistent
  have small := order_lt consistent
  rw [order,List.length_append] at small
  have version : FitsInt ((0 : Nat) : Int) := ⟨by omega,by omega⟩
  have buckets : FitsInt (ADDRMAN_NEW_BUCKET_COUNT : Int) := ⟨by decide,by decide⟩
  have newFits : FitsInt s.nNew := ⟨by omega,by omega⟩
  have triedFits : FitsInt s.nTried := ⟨by omega,by omega⟩
  have newCount : 0+((s.mapInfo.toList.countP isNew : Nat) : Int) = s.nNew := by
    rw [Int.zero_add,List.countP_eq_length_filter]
    exact newLength
  have triedCount : 0+((s.mapInfo.toList.countP isTried : Nat) : Int) = s.nTried := by
    rw [Int.zero_add,List.countP_eq_length_filter]
    exact triedLength
  obtain ⟨turn,u,readNew,readTried,listed,count,empty,new,tried⟩ := @decodes_entries s _ (rulesOf nKey)
    {old with nIdCount := 0,mapInfo := {},mapAddr := {},vRandom := [],nTried := s.nTried,vvTried := fun _ => [],nNew := s.nNew,vvNew := fun _ => ∅}
    consistent placed version fits (listed_nil rfl rfl rfl rfl) rfl rfl rfl
  obtain ⟨last,readBuckets,listed',sets,count',new',tried'⟩ := @decodes_loadBuckets {u with nTried := u.nTried-0} (rulesOf nKey) _ _
    (fillable_indices consistent) ⟨listed.entries,listed.addrs,listed.random,listed.tried⟩ empty
  refine ⟨last.2,?_,listed',sets,count'.trans count,?_,new'.trans new⟩
  · rw [Serialize]
    simp only [bucketForm_eq consistent,writeNew_bytes newCount,writeTried_bytes triedCount]
    have readLast := readBuckets.return fun turn => (nKey,turn.2)
    exact (decodes_uint (show 0 < 256^1 by decide)).bind ((decodes_bytes key).bind ((decodes_int newFits).bind ((decodes_int triedFits).bind
      ((decodes_int buckets).bind (readNew.bind (readTried.bind readLast))))))
  · rw [tried',← tried]
    exact Int.sub_zero _

/-- The reader puts each tried entry into the bucket of its address, so only these come back
    where they were. -/
theorem Renumbered.placed {id : Int → Int} (renumbered : Renumbered id s t) (placed : Placed rules t) : Placed rules s := by
  intro b nId member info found
  obtain ⟨nRandomPos,back⟩ := renumbered.entries nId info found
  have own := placed b (id nId) ((renumbered.tried b).mem_iff.mpr (List.mem_map_of_mem member)) _ back
  exact own

/-- A consistent manager whose tried entries are in their buckets comes back from its file,
    read into any manager, but for the ids and the random order. -/
theorem Unserialize_Serialize (rulesOf : List UInt8 → AddrRules) {nKey : List UInt8} {s : CAddrMan} (consistent : Consistent s)
    (placed : Placed (rulesOf nKey) s) (fits : ∀ (nId : Int) info, s.mapInfo[nId]? = some info → info.InMemory) (key : nKey.length ≤ MAX_SIZE)
    (old : CAddrMan) : ∃ t id, Decodes (old.Unserialize rulesOf) (s.Serialize nKey) (nKey,t) ∧ Consistent t ∧ Placed (rulesOf nKey) t ∧
      Renumbered id s t := by
  obtain ⟨t,read,listed,sets,count,nTried,nNew⟩ := decodes_file consistent placed fits key old
  have renumbered := listed.renumbered consistent placed sets nTried nNew
  exact ⟨t,s.renumber,read,(listed.linked consistent sets renumbered count).consistent,listed.placed,renumbered⟩

private def peerRules : AddrRules where
  IsRoutable ip := ip ≠ 0
  TriedHash addr := .ofNat addr.ip
  NewHash ip src := .ofNat (ip+src)

private def peerCalls : List AddrEvent :=
  let addr (ip : CNetAddr) : CAddress := {ip,port := 8333,nServices := 1,nTime := 1000}
  [.Add_ (addr 1) 9 0 (fun _ => 2000) fun _ => 0,.Add_ (addr 2) 9 60 (fun _ => 2000) fun _ => 0,.Good_ ⟨1,8333⟩ 3000 fun _ => 0]

private abbrev peerChecks (s : CAddrMan) : Prop :=
  s.nNew = 1 ∧ s.nTried = 1 ∧ ∀ entry ∈ s.mapInfo.toList, entry.2.ip < 2^128 ∧ entry.2.source < 2^128 ∧
    (-2^63 ≤ entry.2.nLastSuccess ∧ entry.2.nLastSuccess < 2^63) ∧ -2^31 ≤ entry.2.nAttempts ∧ entry.2.nAttempts < 2^31

/-- After two addresses have been added and one has been connected to. -/
theorem Unserialize_Serialize_sample : ∃ s t id, CAddrMan.run peerRules {} peerCalls = .ok s ∧ s.nNew = 1 ∧ s.nTried = 1 ∧
    Decodes (({} : CAddrMan).Unserialize fun _ => peerRules) (s.Serialize [7]) ([7],t) ∧ Consistent t ∧ Placed peerRules t ∧ Renumbered id s t := by
  have timely : ∀ event ∈ peerCalls, event.Timely := by simp [peerCalls,AddrEvent.Timely]
  obtain ⟨s,ran,consistent⟩ := stays_consistent peerRules timely
  have checked : (CAddrMan.run peerRules {} peerCalls).toOption.all fun s => peerChecks s := by decide +kernel
  rw [ran] at checked
  obtain ⟨new,tried,small⟩ := of_decide_eq_true checked
  have fits : ∀ (nId : Int) info, s.mapInfo[nId]? = some info → info.InMemory := by
    intro nId info found
    obtain ⟨ip,source,nLastSuccess,nAttempts⟩ := small (nId,info) (ExtTreeMap.mem_toList_iff_getElem?_eq_some.mpr found)
    exact ⟨ip,source,nLastSuccess,nAttempts⟩
  obtain ⟨t,id,read,kept⟩ := Unserialize_Serialize (fun _ => peerRules) consistent (stays_placed timely ran) fits (show [7].length ≤ MAX_SIZE by decide) {}
  exact ⟨s,t,id,ran,new,tried,read,kept⟩

end CAddrMan
end Tetra
