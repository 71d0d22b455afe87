import Mathlib
import Tetra.Primitives

/-!
The address manager: addresses by id and by address, all ids in random order, buckets of
new addresses as sets and buckets of tried ones as vectors.
-/
namespace Tetra
open Std

/-- The 16 bytes of `ip`, as a number. -/
abbrev CNetAddr := Nat

structure CService where
  ip : CNetAddr
  port : UInt16
deriving DecidableEq

structure CAddress extends CService where
  nServices : UInt64
  nTime : UInt32
  nLastTry : Int := 0
deriving DecidableEq

instance : Inhabited CAddress := ⟨{ip := 0,port := 0,nServices := 1,nTime := 100000000}⟩

structure CAddrInfo extends CAddress where
  source : CNetAddr
  nLastSuccess : Int := 0
  nAttempts : Int := 0
  nRefCount : Int := 0
  fInTried : Bool := false
  nRandomPos : Int := -1
deriving DecidableEq

abbrev ADDRMAN_TRIED_BUCKET_COUNT : Nat := 64
def ADDRMAN_TRIED_BUCKET_SIZE : Nat := 64
abbrev ADDRMAN_NEW_BUCKET_COUNT : Nat := 256
def ADDRMAN_NEW_BUCKET_SIZE : Nat := 64
def ADDRMAN_NEW_BUCKETS_PER_ADDRESS : Int := 4
def ADDRMAN_TRIED_ENTRIES_INSPECT_ON_EVICT : Nat := 4
def ADDRMAN_HORIZON_DAYS : Int := 30
def ADDRMAN_RETRIES : Int := 3
def ADDRMAN_MAX_FAILURES : Int := 10
def ADDRMAN_MIN_FAIL_DAYS : Int := 7
def ADDRMAN_GETADDR_MAX_PCT : Nat := 23
def ADDRMAN_GETADDR_MAX : Nat := 2500

/-- Which addresses are routable, and the last hashes of `GetTriedBucket` and
    `GetNewBucket` under the manager's key. -/
structure AddrRules where
  IsRoutable : CNetAddr → Bool
  TriedHash : CService → UInt64
  NewHash : CNetAddr → CNetAddr → UInt64

abbrev TriedBucket := Fin ADDRMAN_TRIED_BUCKET_COUNT
abbrev NewBucket := Fin ADDRMAN_NEW_BUCKET_COUNT

/-- `vvNew[b]`, of which there are that many. -/
def newBucket (b : Nat) : NewBucket := Fin.ofNat ADDRMAN_NEW_BUCKET_COUNT b

/-- The ids of a set as an iterator passes them. -/
def inOrder (vNew : Finset Int) : List Int := vNew.sort (· ≤ ·)

namespace CAddrInfo

def GetTriedBucket (rules : AddrRules) (info : CAddrInfo) : TriedBucket := Fin.ofNat ADDRMAN_TRIED_BUCKET_COUNT (rules.TriedHash info.toCService).toNat
def GetNewBucket (rules : AddrRules) (info : CAddrInfo) (src : CNetAddr) : NewBucket := Fin.ofNat ADDRMAN_NEW_BUCKET_COUNT (rules.NewHash info.ip src).toNat

def IsTerrible (info : CAddrInfo) (nNow : Int) : Bool :=
  if info.nLastTry ≠ 0 ∧ info.nLastTry ≥ nNow-60 then false
  else if (info.nTime.toNat : Int) > nNow+10*60 then true
  else if info.nTime = 0 ∨ nNow-info.nTime.toNat > ADDRMAN_HORIZON_DAYS*86400 then true
  else if info.nLastSuccess = 0 ∧ info.nAttempts ≥ ADDRMAN_RETRIES then true
  else nNow-info.nLastSuccess > ADDRMAN_MIN_FAIL_DAYS*86400 ∧ info.nAttempts ≥ ADDRMAN_MAX_FAILURES

end CAddrInfo

/-- A draw of `GetRandInt`. -/
def GetRandInt (nMax draw : Nat) : Nat := if nMax = 0 then 0 else draw%nMax

/-- A turn of a loop of `Select_`: the draws of the bucket and of the place in it, and
    whether the chance comes true. -/
structure SelectTry where
  nBucket : Nat
  nPos : Nat
  fChance : Bool

structure CAddrMan where
  nIdCount : Int := 0
  mapInfo : ExtTreeMap Int CAddrInfo := {}
  mapAddr : ExtTreeMap CNetAddr Int := {}
  vRandom : List Int := []
  nTried : Int := 0
  vvTried : TriedBucket → List Int := fun _ => []
  nNew : Int := 0
  vvNew : NewBucket → Finset Int := fun _ => ∅

namespace CAddrMan

def setInfo (s : CAddrMan) (nId : Int) (info : CAddrInfo) : CAddrMan := {s with mapInfo := s.mapInfo.insert nId info}

/-- A read of `mapInfo[nId]`, which would add an entry if there is none. -/
def missing : Reject := .throws "mapInfo[nId]"

def Find (s : CAddrMan) (addr : CNetAddr) : Option (Int × CAddrInfo) :=
  (s.mapAddr[addr]?).bind fun nId => (s.mapInfo[nId]?).map fun info => (nId,info)

def Create (s : CAddrMan) (addr : CAddress) (addrSource : CNetAddr) : Int × CAddrInfo × CAddrMan :=
  let nId := s.nIdCount
  let info : CAddrInfo := {addr with nLastTry := 0,source := addrSource,nRandomPos := s.vRandom.length}
  (nId,info,{s with
    nIdCount := nId+1
    mapInfo := s.mapInfo.insert nId info
    mapAddr := s.mapAddr.insert addr.ip nId
    vRandom := s.vRandom ++ [nId]})

def SwapRandom (s : CAddrMan) (nRndPos1 nRndPos2 : Nat) : Except Reject CAddrMan :=
  if nRndPos1 = nRndPos2 then .ok s
  else
    match s.vRandom[nRndPos1]?,s.vRandom[nRndPos2]? with
    | some nId1, some nId2 =>
      match s.mapInfo[nId1]?,s.mapInfo[nId2]? with
      | some info1, some info2 => .ok {s with
        mapInfo := (s.mapInfo.insert nId1 {info1 with nRandomPos := nRndPos2}).insert nId2 {info2 with nRandomPos := nRndPos1}
        vRandom := (s.vRandom.set nRndPos1 nId2).set nRndPos2 nId1}
      | none, _ => .error (.asserts "mapInfo.count(nId1) == 1")
      | _, none => .error (.asserts "mapInfo.count(nId2) == 1")
    | _, _ => .error (.asserts "nRndPos1 < vRandom.size() && nRndPos2 < vRandom.size()")

/-- The turns of `SelectTried` that are left: the bucket as it is shuffled, and nOldest
    with nOldestPos. -/
def inspect (s : CAddrMan) (rand : Nat → Nat) : Nat → Nat → List Int → Option (Int × Nat) → Except Reject (List Int × Option (Int × Nat))
  | 0, _, vTried, found => .ok (vTried,found)
  | turns+1, i, vTried, found =>
    if ¬i < vTried.length then .ok (vTried,found)
    else
      let nPos := GetRandInt (vTried.length-i) (rand i)+i
      match vTried[nPos]?,vTried[i]? with
      | some nTemp, some first =>
        let vTried := (vTried.set nPos first).set i nTemp
        match found with
        | none => inspect s rand turns (i+1) vTried (some (nTemp,nPos))
        | some (nOldest,_) =>
          match s.mapInfo[nTemp]?,s.mapInfo[nOldest]? with
          | some info, some oldest =>
            inspect s rand turns (i+1) vTried (if info.nLastSuccess < oldest.nLastSuccess then some (nTemp,nPos) else found)
          | none, _ => .error (.asserts "nOldest == -1 || mapInfo.count(nTemp) == 1")
          | _, none => .error missing
      | _, _ => .error (.throws "vTried[nPos]")

def SelectTried (s : CAddrMan) (nKBucket : TriedBucket) (rand : Nat → Nat) : Except Reject (Option Nat × CAddrMan) :=
  match s.inspect rand ADDRMAN_TRIED_ENTRIES_INSPECT_ON_EVICT 0 (s.vvTried nKBucket) none with
  | .error e => .error e
  | .ok (vTried,found) => .ok (found.map Prod.snd,{s with vvTried := Function.update s.vvTried nKBucket vTried})

/-- The first terrible entry of a bucket; each look at one reads the clock. -/
def firstTerrible (s : CAddrMan) (now : Nat → Int) : List Int → Except Reject (Option (Int × CAddrInfo))
  | [] => .ok none
  | nId :: rest =>
    match s.mapInfo[nId]? with
    | none => .error (.asserts "mapInfo.count(*it)")
    | some info => if info.IsTerrible (now 0) then .ok (some (nId,info)) else firstTerrible s (fun i => now (i+1)) rest

/-- The oldest of those whose places were drawn. -/
def oldestDrawn (s : CAddrMan) (n : List Nat) : List Int → Nat → Option Int → Except Reject (Option Int)
  | [], _, nOldest => .ok nOldest
  | nId :: rest, nI, nOldest =>
    if nI ∈ n then
      match nOldest with
      | none => oldestDrawn s n rest (nI+1) (some nId)
      | some old =>
        match s.mapInfo[nId]?,s.mapInfo[old]? with
        | some info, some oldest => oldestDrawn s n rest (nI+1) (if info.nTime < oldest.nTime then some nId else some old)
        | none, _ => .error (.asserts "nOldest == -1 || mapInfo.count(*it) == 1")
        | _, none => .error missing
    else oldestDrawn s n rest (nI+1) nOldest

/-- An entry leaves a new bucket, and the manager if no other holds it. -/
def dropNew (s : CAddrMan) (nUBucket : NewBucket) (nId : Int) (info : CAddrInfo) : Except Reject CAddrMan :=
  let info := {info with nRefCount := info.nRefCount-1}
  let s := s.setInfo nId info
  let vvNew := Function.update s.vvNew nUBucket ((s.vvNew nUBucket).erase nId)
  if info.nRefCount = 0 then
    if info.nRandomPos < 0 then .error (.asserts "nRndPos1 < vRandom.size() && nRndPos2 < vRandom.size()")
    else
      match s.SwapRandom info.nRandomPos.toNat (s.vRandom.length-1) with
      | .error e => .error e
      | .ok s => .ok {s with
        vRandom := s.vRandom.dropLast
        mapAddr := s.mapAddr.erase info.ip
        mapInfo := s.mapInfo.erase nId
        nNew := s.nNew-1
        vvNew := vvNew}
  else .ok {s with vvNew := vvNew}

def ShrinkNew (s : CAddrMan) (nUBucket : NewBucket) (now : Nat → Int) (rand : Nat → Nat) : Except Reject (Nat × CAddrMan) :=
  let vNew := (s.vvNew nUBucket).sort (· ≤ ·)
  match s.firstTerrible now vNew with
  | .error e => .error e
  | .ok (some (nId,info)) => (s.dropNew nUBucket nId info).map fun s => (0,s)
  | .ok none =>
    match s.oldestDrawn ((List.range 4).map fun i => GetRandInt vNew.length (rand i)) vNew 0 none with
    | .error e => .error e
    | .ok none => .error (.asserts "mapInfo.count(nOldest) == 1")
    | .ok (some nOldest) =>
      match s.mapInfo[nOldest]? with
      | none => .error (.asserts "mapInfo.count(nOldest) == 1")
      | some info => (s.dropNew nUBucket nOldest info).map fun s => (1,s)

/-- The end of `MakeTried` in a full bucket: the entry at `nPos` goes back to a new bucket. -/
def replaceTried (rules : AddrRules) (s : CAddrMan) (info : CAddrInfo) (nId : Int) (nOrigin : NewBucket) (nKBucket : TriedBucket) (nPos : Nat) :
    Except Reject CAddrMan :=
  match (s.vvTried nKBucket)[nPos]? with
  | none => .error (.throws "vTried[nPos]")
  | some oldId =>
    match s.mapInfo[oldId]? with
    | none => .error (.asserts "mapInfo.count(vTried[nPos]) == 1")
    | some infoOld =>
      let nUBucket := infoOld.GetNewBucket rules infoOld.source
      let s := s.setInfo oldId {infoOld with fInTried := false,nRefCount := 1}
      let place := if (s.vvNew nUBucket).card < ADDRMAN_NEW_BUCKET_SIZE then nUBucket else nOrigin
      let s := {s with vvNew := Function.update s.vvNew place (insert oldId (s.vvNew place)),nNew := s.nNew+1}
      let vvTried := Function.update s.vvTried nKBucket ((s.vvTried nKBucket).set nPos nId)
      .ok {s.setInfo nId {info with fInTried := true} with vvTried := vvTried}

/-- `MakeTried`, when the entry is in no bucket. -/
def toTried (rules : AddrRules) (s : CAddrMan) (info : CAddrInfo) (nId : Int) (nOrigin : NewBucket) (rand : Nat → Nat) : Except Reject CAddrMan :=
  let nKBucket := info.GetTriedBucket rules
  if (s.vvTried nKBucket).length < ADDRMAN_TRIED_BUCKET_SIZE then
    let vvTried := Function.update s.vvTried nKBucket (s.vvTried nKBucket ++ [nId])
    .ok {s.setInfo nId {info with fInTried := true} with vvTried := vvTried,nTried := s.nTried+1}
  else
    match s.SelectTried nKBucket rand with
    | .error e => .error e
    | .ok (none,_) => .error (.throws "vTried[nPos]")
    | .ok (some nPos,s) => s.replaceTried rules info nId nOrigin nKBucket nPos

/-- `info` is the entry of `nId`, which is in the bucket `nOrigin`. -/
def MakeTried (rules : AddrRules) (s : CAddrMan) (info : CAddrInfo) (nId : Int) (nOrigin : NewBucket) (rand : Nat → Nat) : Except Reject CAddrMan :=
  if ¬nId ∈ s.vvNew nOrigin then .error (.asserts "vvNew[nOrigin].count(nId) == 1")
  else
    let info := {info with nRefCount := info.nRefCount-(List.finRange ADDRMAN_NEW_BUCKET_COUNT).countP fun b => nId ∈ s.vvNew b}
    let s := {s.setInfo nId info with vvNew := fun b => (s.vvNew b).erase nId,nNew := s.nNew-1}
    if ¬info.nRefCount = 0 then .error (.asserts "info.nRefCount == 0")
    else s.toTried rules info nId nOrigin rand

def Good_ (rules : AddrRules) (s : CAddrMan) (addr : CService) (nTime : Int) (rand : Nat → Nat) : Except Reject CAddrMan :=
  match s.Find addr.ip with
  | none => .ok s
  | some (nId,info) =>
    if info.toCService ≠ addr then .ok s
    else
      let info := {info with nLastSuccess := nTime,nLastTry := nTime,nTime := UInt32.ofInt nTime,nAttempts := 0}
      let s := s.setInfo nId info
      if info.fInTried then .ok s
      else
        let nRnd := GetRandInt ADDRMAN_NEW_BUCKET_COUNT (rand 0)
        let buckets := (List.range ADDRMAN_NEW_BUCKET_COUNT).map fun n => Fin.ofNat ADDRMAN_NEW_BUCKET_COUNT (n+nRnd)
        match buckets.find? fun nB => nId ∈ s.vvNew nB with
        | none => .ok s
        | some nUBucket => s.MakeTried rules info nId nUBucket fun i => rand (i+1)

/-- The end of `Add_`: a reference to the entry in its bucket for the source. -/
def addToNew (rules : AddrRules) (s : CAddrMan) (nId : Int) (info : CAddrInfo) (source : CNetAddr) (now : Nat → Int) (rand : Nat → Nat) :
    Except Reject CAddrMan :=
  let nUBucket := info.GetNewBucket rules source
  if nId ∈ s.vvNew nUBucket then .ok s
  else
    let s := s.setInfo nId {info with nRefCount := info.nRefCount+1}
    match if (s.vvNew nUBucket).card = ADDRMAN_NEW_BUCKET_SIZE then s.ShrinkNew nUBucket now rand else .ok (0,s) with
    | .error e => .error e
    | .ok (_,s) => .ok {s with vvNew := Function.update s.vvNew nUBucket (insert nId (s.vvNew nUBucket))}

/-- The clock is read for the address, and for each entry that `ShrinkNew` looks at. -/
def Add_ (rules : AddrRules) (s : CAddrMan) (addr : CAddress) (source : CNetAddr) (nTimePenalty : Int) (now : Nat → Int) (rand : Nat → Nat) :
    Except Reject (Bool × CAddrMan) :=
  if !rules.IsRoutable addr.ip then .ok (false,s)
  else
    match s.Find addr.ip with
    | some (nId,info) =>
      let fCurrentlyOnline : Bool := now 0-addr.nTime.toNat < 24*60*60
      let nUpdateInterval : Int := if fCurrentlyOnline then 60*60 else 24*60*60
      let info :=
        if addr.nTime ≠ 0 ∧ (info.nTime = 0 ∨ (info.nTime.toNat : Int) < addr.nTime.toNat-nUpdateInterval-nTimePenalty) then
          {info with nTime := UInt32.ofInt (max 0 (addr.nTime.toNat-nTimePenalty))}
        else info
      let info := {info with nServices := info.nServices ||| addr.nServices}
      let s := s.setInfo nId info
      if addr.nTime = 0 ∨ (info.nTime ≠ 0 ∧ addr.nTime ≤ info.nTime) then .ok (false,s)
      else if info.fInTried then .ok (false,s)
      else if info.nRefCount = ADDRMAN_NEW_BUCKETS_PER_ADDRESS then .ok (false,s)
      else
        let nFactor := 2^info.nRefCount.toNat
        if nFactor > 1 ∧ GetRandInt nFactor (rand 0) ≠ 0 then .ok (false,s)
        else (s.addToNew rules nId info source (fun i => now (i+1)) fun i => rand (i+1)).map fun s => (false,s)
    | none =>
      let (nId,info,s) := s.Create addr source
      let info := {info with nTime := UInt32.ofInt (max 0 (info.nTime.toNat-nTimePenalty))}
      let s := {s.setInfo nId info with nNew := s.nNew+1}
      (s.addToNew rules nId info source now rand).map fun s => (true,s)

def Attempt_ (s : CAddrMan) (addr : CService) (nTime : Int) : CAddrMan :=
  match s.Find addr.ip with
  | none => s
  | some (nId,info) =>
    if info.toCService ≠ addr then s else s.setInfo nId {info with nLastTry := nTime,nAttempts := info.nAttempts+1}

def Connected_ (s : CAddrMan) (addr : CService) (nTime : Int) : CAddrMan :=
  match s.Find addr.ip with
  | none => s
  | some (nId,info) =>
    if info.toCService ≠ addr then s
    else if nTime-info.nTime.toNat > 20*60 then s.setInfo nId {info with nTime := UInt32.ofInt nTime} else s

/-- The turns of the loop of `GetAddr_` that are left. -/
def shuffled (rand : Nat → Nat) : Nat → Nat → CAddrMan → Except Reject (List CAddress × CAddrMan)
  | 0, _, s => .ok ([],s)
  | turns+1, n, s =>
    match s.SwapRandom n (GetRandInt (s.vRandom.length-n) (rand n)+n) with
    | .error e => .error e
    | .ok s =>
      match (s.vRandom[n]?).bind fun nId => s.mapInfo[nId]? with
      | none => .error (.asserts "mapInfo.count(vRandom[n]) == 1")
      | some info => (shuffled rand turns (n+1) s).map fun rest => (info.toCAddress :: rest.1,rest.2)

def GetAddr_ (s : CAddrMan) (rand : Nat → Nat) : Except Reject (List CAddress × CAddrMan) :=
  shuffled rand (min (ADDRMAN_GETADDR_MAX_PCT*s.vRandom.length/100) ADDRMAN_GETADDR_MAX) 0 s

def selectFrom (s : CAddrMan) (bucket : Nat → List Int) : List SelectTry → Except Reject (Option CAddress)
  | [] => .ok none
  | t :: tries =>
    if (bucket t.nBucket).length = 0 then selectFrom s bucket tries
    else
      match (bucket t.nBucket)[GetRandInt (bucket t.nBucket).length t.nPos]? with
      | none => .error (.throws "vTried[nPos]")
      | some nId =>
        match s.mapInfo[nId]? with
        | none => .error (.asserts "mapInfo.count(*it) == 1")
        | some info => if t.fChance then .ok (some info.toCAddress) else selectFrom s bucket tries

/-- `fTried` is the choice of the table, by floating point; none is a call that goes on. -/
def Select_ (s : CAddrMan) (fTried : Bool) (tries : List SelectTry) : Except Reject (Option CAddress) :=
  if s.vRandom.length = 0 then .ok (some default)
  else if fTried then s.selectFrom (fun n => s.vvTried (Fin.ofNat ADDRMAN_TRIED_BUCKET_COUNT n)) tries
  else s.selectFrom (fun n => (s.vvNew (Fin.ofNat ADDRMAN_NEW_BUCKET_COUNT n)).sort (· ≤ ·)) tries

end CAddrMan

/-- A call, with what the clock and the random source answer. -/
inductive AddrEvent
  | Add_ (addr : CAddress) (source : CNetAddr) (nTimePenalty : Int) (now : Nat → Int) (rand : Nat → Nat)
  | Good_ (addr : CService) (nTime : Int) (rand : Nat → Nat)
  | Attempt_ (addr : CService) (nTime : Int)
  | Connected_ (addr : CService) (nTime : Int)
  | GetAddr_ (rand : Nat → Nat)
  | Select_ (fTried : Bool) (tries : List SelectTry)

namespace CAddrMan

/-- The loop over `mapInfo`, with setTried and mapNew; an error is what `Check_` returns. -/
def checkInfos (s : CAddrMan) : List (Int × CAddrInfo) → Finset Int → ExtTreeMap Int Int → Except Int (Finset Int × ExtTreeMap Int Int)
  | [], setTried, mapNew => .ok (setTried,mapNew)
  | (n,info) :: rest, setTried, mapNew =>
    if info.fInTried ∧ info.nLastSuccess = 0 then .error (-1)
    else if info.fInTried ∧ info.nRefCount ≠ 0 then .error (-2)
    else if ¬info.fInTried ∧ (info.nRefCount < 0 ∨ info.nRefCount > ADDRMAN_NEW_BUCKETS_PER_ADDRESS) then .error (-3)
    else if ¬info.fInTried ∧ info.nRefCount = 0 then .error (-4)
    else if (s.mapAddr[info.ip]?).getD 0 ≠ n then .error (-5)
    else if info.nRandomPos < 0 ∨ info.nRandomPos ≥ s.vRandom.length ∨ s.vRandom[info.nRandomPos.toNat]? ≠ some n then .error (-14)
    else if info.nLastTry < 0 then .error (-6)
    else if info.nLastSuccess < 0 then .error (-8)
    else if info.fInTried then checkInfos s rest (insert n setTried) mapNew
    else checkInfos s rest setTried (mapNew.insert n info.nRefCount)

/-- The loops over the tried buckets. -/
def checkTried : List Int → Finset Int → Except Int (Finset Int)
  | [], setTried => .ok setTried
  | n :: rest, setTried => if ¬n ∈ setTried then .error (-11) else checkTried rest (setTried.erase n)

/-- The loops over the new buckets. -/
def checkNew : List Int → ExtTreeMap Int Int → Except Int (ExtTreeMap Int Int)
  | [], mapNew => .ok mapNew
  | n :: rest, mapNew =>
    match mapNew[n]? with
    | none => .error (-12)
    | some nRefCount => if nRefCount-1 = 0 then checkNew rest (mapNew.erase n) else checkNew rest (mapNew.insert n (nRefCount-1))

/-- The ids in the tried buckets, one bucket after another. -/
def inTried (s : CAddrMan) : List Int := (List.finRange ADDRMAN_TRIED_BUCKET_COUNT).flatMap s.vvTried

/-- The ids in the new buckets. -/
def inNew (s : CAddrMan) : List Int := (List.finRange ADDRMAN_NEW_BUCKET_COUNT).flatMap fun n => (s.vvNew n).sort (· ≤ ·)

def Check_ (s : CAddrMan) : Int :=
  if s.vRandom.length ≠ s.nTried+s.nNew then -7
  else
    match s.checkInfos s.mapInfo.toList ∅ {} with
    | .error code => code
    | .ok (setTried,mapNew) =>
      if setTried.card ≠ s.nTried then -9
      else if mapNew.size ≠ s.nNew then -10
      else
        match checkTried s.inTried setTried with
        | .error code => code
        | .ok setTried =>
          match checkNew s.inNew mapNew with
          | .error code => code
          | .ok mapNew => if setTried.card ≠ 0 then -13 else if mapNew.size ≠ 0 then -15 else 0

def step (rules : AddrRules) (s : CAddrMan) : AddrEvent → Except Reject CAddrMan
  | .Add_ addr source nTimePenalty now rand => (s.Add_ rules addr source nTimePenalty now rand).map Prod.snd
  | .Good_ addr nTime rand => s.Good_ rules addr nTime rand
  | .Attempt_ addr nTime => .ok (s.Attempt_ addr nTime)
  | .Connected_ addr nTime => .ok (s.Connected_ addr nTime)
  | .GetAddr_ rand => (s.GetAddr_ rand).map Prod.snd
  | .Select_ fTried tries => (s.Select_ fTried tries).map fun _ => s

def run (rules : AddrRules) (s : CAddrMan) : List AddrEvent → Except Reject CAddrMan
  | [] => .ok s
  | event :: events =>
    match s.step rules event with
    | .error e => .error e
    | .ok s => run rules s events

end CAddrMan
end Tetra
