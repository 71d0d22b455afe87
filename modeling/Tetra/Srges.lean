import Mathlib
import Tetra.Refill
import Tetra.Primitives

/-!
The ratings of the peers. A peer endorses another, a few times for each update of its
own record, and both get their records from the blocks that name them.
-/
namespace Tetra

def MAX_ENDORSEMENT_PER_UPDATE : Nat := 5
def MAX_ENDORSEMENT_RATE_VALUE : Int := 50000
def AVG_RATE : Int := 500000
def FIXED_DECREASE : Int := 1000
def SECOND_LVL : Int := 600001
def UNIXTIME_DAY : Int := 86400
def UNIXTIME_HOUR : Int := 3600
def UNIXTIME_MINUTE : Int := 60
def UPDATE_TIME : Int := UNIXTIME_MINUTE

structure PeerRate where
  rate : Int
  firstmeet : Int
  lastseen : Int
  lastUpdateRate : Int
  freeEndorsement : Nat
  /-- The bytes that nothing sets and `memcmp` compares. -/
  padding : Nat
deriving DecidableEq

abbrev PeerRecord := CPubKey × PeerRate
abbrev tlist := List PeerRecord

/-- Values of the database, under a table and a key. -/
inductive DbValue
  | time (value : Int)
  | endorse (value : Int × CPubKey)
  | toplist (value : tlist)

/-- Hashes and signatures, what is computed in floating point, and the order of
    `sort_toplist`, which puts equal rates in any order. -/
structure SrgesRules where
  Hash : List UInt8 → uint256
  Verify : CPubKey → uint256 → List UInt8 → Bool
  /-- The increase after so many minutes. -/
  srgCurve : Int → Int
  /-- `rate += share`, with the share a double. -/
  addDouble : Int → Int → Int
  /-- What `EndorsementSystem` says of a list of some length. -/
  endorsement : Nat → Bool → UInt8
  sort : tlist → tlist
  sort_perm : ∀ list, (sort list).Perm list

/-- What a call finds: the time, the memory it does not set, and whether the database
    answers. -/
structure Circumstances where
  GetAdjustedTime : Int
  wr : Int := 0
  padding : Nat := 0
  database : Bool := true

structure srges where
  toplist : tlist := []
  db : String × String → Option DbValue := fun _ => none

namespace srges

def dbReadTime (c : Circumstances) (s : srges) (key : String) : Option Int :=
  match s.db ("timerank",key) with
  | some (.time value) => if c.database then some value else none
  | _ => none

def dbReadEndorse (c : Circumstances) (s : srges) (key : String) : Option (Int × CPubKey) :=
  match s.db ("endorse",key) with
  | some (.endorse value) => if c.database then some value else none
  | _ => none

def dbReadToplist (c : Circumstances) (s : srges) (key : String) : Option tlist :=
  match s.db ("privatekey",key) with
  | some (.toplist value) => if c.database then some value else none
  | _ => none

def write (c : Circumstances) (s : srges) (place : String × String) (value : DbValue) : Bool × srges :=
  if c.database then (true,{s with db := Function.update s.db place (some value)}) else (false,s)

def dbWriteTime (c : Circumstances) (s : srges) (key : String) (value : Int) : Bool × srges :=
  s.write c ("timerank",key) (.time value)
/-- The table is that of the times, not the one that is read. -/
def dbWriteEndorse (c : Circumstances) (s : srges) (key : String) (value : Int × CPubKey) : Bool × srges :=
  s.write c ("timerank",key) (.endorse value)
def dbWriteToplist (c : Circumstances) (s : srges) (key : String) (value : tlist) : Bool × srges :=
  s.write c ("toplist",key) (.toplist value)

/-- The constructor asserts that it returns true. -/
def Init (c : Circumstances) (s : srges) : Bool × srges :=
  let (ready,s) := match s.dbReadToplist c "toplist" with
    | some toplist => (true,{s with toplist := toplist})
    | none => s.dbWriteToplist c "toplist" s.toplist
  if ready = false then (false,s) else
  let (timed,s) := s.dbWriteTime c "timerank" c.GetAdjustedTime
  if timed = false then (false,s) else s.dbWriteEndorse c "endorse" (5,[])

/-- `PeerRate()` -/
def newPeerRate (c : Circumstances) : PeerRate :=
  ⟨0,c.GetAdjustedTime,c.GetAdjustedTime,c.GetAdjustedTime,5,c.padding⟩

def AddPeer (rules : SrgesRules) (c : Circumstances) (s : srges) (peer : CPubKey) : Bool × srges :=
  let s := {s with toplist := s.toplist ++ [(peer,newPeerRate c)]}
  match s.dbReadTime c "timerank" with
  | none => (false,s)
  | some timerank =>
    if c.GetAdjustedTime-timerank > UNIXTIME_HOUR then (true,{s with toplist := rules.sort s.toplist}) else (true,s)

/-- The first record of a peer, and its place: a `PeerRate*` points there. -/
def Find (s : srges) (peer : CPubKey) : Option (Nat × PeerRate) :=
  (s.toplist.findIdx? fun record => record.1 == peer).bind fun place => s.toplist[place]?.map fun record => (place,record.2)

/-- The overload that counts from one, and never fails. -/
def FindRank (s : srges) (peer : CPubKey) : Nat :=
  match s.Find peer with
  | some (place,_) => place+1
  | none => s.toplist.length

/-- Writes through a pointer. -/
def modify (s : srges) (place : Nat) (f : PeerRate → PeerRate) : srges :=
  {s with toplist := s.toplist.modify place fun record => (record.1,f record.2)}

def StandardRateGain (rules : SrgesRules) (c : Circumstances) (pr : PeerRate) : PeerRate :=
  if pr.rate > AVG_RATE then
    if pr.rate-FIXED_DECREASE < AVG_RATE then {pr with rate := AVG_RATE} else {pr with rate := pr.rate-FIXED_DECREASE}
  else if pr.rate < AVG_RATE then
    {pr with rate := pr.rate+rules.srgCurve ((c.GetAdjustedTime-pr.firstmeet).tdiv UPDATE_TIME)}
  else pr

/-- Erases the first record with the same bytes, after a day. -/
def Clean (c : Circumstances) (s : srges) (pr : PeerRate) : Bool × srges :=
  if c.GetAdjustedTime-pr.lastseen > UNIXTIME_DAY then
    match s.toplist.findIdx? fun record => record.2 == pr with
    | some place => (true,{s with toplist := s.toplist.eraseIdx place})
    | none => (false,s)
  else (false,s)

/-- Whether `Refresh` gives a record its endorsements back. -/
def Due (c : Circumstances) (pr : PeerRate) : Bool :=
  decide (c.GetAdjustedTime-pr.lastUpdateRate > UNIXTIME_MINUTE) && decide (c.GetAdjustedTime-pr.lastseen < UNIXTIME_DAY)

def Refresh (rules : SrgesRules) (c : Circumstances) (s : srges) (peer : CPubKey) : Bool × srges :=
  match s.Find peer with
  | none => (true,(s.AddPeer rules c peer).2)
  | some (place,pr) =>
    let (cleaned,s) := s.Clean c pr
    if cleaned then (false,s)
    else if Due c pr then
      (true,s.modify place fun pr => {StandardRateGain rules c pr with freeEndorsement := MAX_ENDORSEMENT_PER_UPDATE})
    else (true,s)

/-- It sorts a copy, which it reads from a table that is never written. -/
def Rank (c : Circumstances) (s : srges) : Bool := (s.dbReadToplist c "toplist").isSome

def LocalUpdateEndorse (c : Circumstances) (s : srges) : Bool × srges :=
  match s.dbReadEndorse c "endorse" with
  | none => (false,s)
  | some (_,peer) => s.dbWriteEndorse c "endorse" (5,peer)

/-- The ranking that `IsAffidable` brings up to date: whether it goes on. -/
def updateRanking (c : Circumstances) (s : srges) : Bool × srges :=
  if s.toplist.length > 1 then
    match s.dbReadTime c "timerank" with
    | none => (false,s)
    | some age =>
      if c.GetAdjustedTime-age > UPDATE_TIME then
        let (updated,s) := s.LocalUpdateEndorse c
        if updated = false then (true,s) else
        let (timed,s) := s.dbWriteTime c "timerank" c.GetAdjustedTime
        if timed = false then (true,s) else (s.Rank c,s)
      else (true,s)
  else (true,s)

/-- No result where it reads past the end of the list. -/
def IsAffidable (rules : SrgesRules) (c : Circumstances) (s : srges) (peer : CPubKey) : Option (Bool × srges) :=
  if peer.isEmpty then some (false,s) else
  let (goes,s) := s.updateRanking c
  if goes = false then some (false,s) else
  let rank := s.FindRank peer
  let s := (s.Refresh rules c peer).2
  match s.toplist[if rank > 3 then rank-1 else 0]? with
  | none => none
  | some (_,pr) => some (!(decide (rank > 3) && decide (pr.rate < SECOND_LVL)),s)

/-- What `EndorsementSystem` writes to `value` when the list has the target. -/
def EndorsementSystem (rules : SrgesRules) (c : Circumstances) (s : srges) (target : CPubKey) (CorruptedAction : Bool) : (Bool × UInt8) × srges :=
  match s.dbReadEndorse c "endorse" with
  | none => ((false,0xFF),s)
  | some (left,last) =>
    if left ≤ 0 ∨ last = target then ((false,0xFF),s) else
    let (written,s) := s.dbWriteEndorse c "endorse" (left-1,last)
    if written = false then ((false,0),s)
    else if (s.Find target).isSome then ((true,rules.endorsement s.toplist.length CorruptedAction),s)
    else ((false,0),s)

/-- The bytes that are hashed: those that fit when the source is no longer than the target. -/
def endorseMessage (target source : CPubKey) (value : UInt8) : Option (List UInt8) :=
  if source.length > target.length then none else some (target.take source.length ++ value :: source)

/-- No result where it writes past the message or divides by zero. -/
def ProcessEndorse (rules : SrgesRules) (c : Circumstances) (s : srges) (target source : CPubKey) (value : UInt8) (vchSig : List UInt8) :
    Option (Bool × srges) :=
  if source.isEmpty || target.isEmpty then some (false,s) else
  match endorseMessage target source value with
  | none => none
  | some message =>
    if rules.Verify source (rules.Hash message) vchSig = false then some (false,s) else
    match s.Find target,s.Find source with
    | some (targetPlace,_),some (sourcePlace,sourcePr) =>
      if sourcePr.freeEndorsement ≤ 0 then some (false,s)
      else if s.FindRank source > 3 ∧ sourcePr.rate < SECOND_LVL then some (false,s)
      else
        -- `wr` is summed up on top of what it held.
        let wr := s.toplist.foldl (fun wr record => wr+record.2.rate) c.wr
        if wr = 0 then none else
        let percentage := sourcePr.rate.tdiv wr*((value.toNat : Int)-101).tdiv 100
        let s := s.modify sourcePlace fun pr => {pr with freeEndorsement := pr.freeEndorsement-1}
        let s := s.modify targetPlace fun pr => {pr with rate := rules.addDouble pr.rate (percentage*MAX_ENDORSEMENT_RATE_VALUE)}
        match s.dbReadTime c "timerank" with
        | none => some (false,s)
        | some age =>
          if c.GetAdjustedTime-age > UNIXTIME_MINUTE ∧ s.Rank c = false then some (false,s)
          else some (s.dbWriteTime c "timerank" c.GetAdjustedTime)
    | _,_ => some (false,s)

def CanEndorse (s : srges) (peer : CPubKey) : Bool :=
  match s.Find peer with
  | none => false
  | some (_,pr) => decide (pr.freeEndorsement > 0)

/-- The "endorse" message: whether the sender misbehaved, and whether the endorsement was
    accepted. -/
def receiveEndorse (rules : SrgesRules) (c : Circumstances) (s : srges) (me target source : CPubKey) (value : UInt8) (vchSig : List UInt8) :
    Option ((Bool × Bool) × srges) :=
  if target = me then some ((false,false),s)
  else (s.ProcessEndorse rules c target source value vchSig).map fun (accepted,s') => ((!s.CanEndorse source,accepted),s')

end srges

/-- What the node asks of the ratings. -/
inductive SrgesCall
  | AddPeer (peer : CPubKey)
  | Clean (peer : CPubKey)
  | StandardRateGain (peer : CPubKey)
  | Refresh (peer : CPubKey)
  | IsAffidable (peer : CPubKey)
  | LocalUpdateEndorse
  | EndorsementSystem (target : CPubKey) (CorruptedAction : Bool)
  | ProcessEndorse (target source : CPubKey) (value : UInt8) (vchSig : List UInt8)
  | endorse (me target source : CPubKey) (value : UInt8) (vchSig : List UInt8)

namespace srges

/-- The source of an accepted endorsement, if there is one, and the state. -/
def act (rules : SrgesRules) (c : Circumstances) (s : srges) : SrgesCall → Option (Option CPubKey × srges)
  | .AddPeer peer => some (none,(s.AddPeer rules c peer).2)
  | .Clean peer => some (none,match s.Find peer with | some (_,pr) => (s.Clean c pr).2 | none => s)
  | .StandardRateGain peer => some (none,match s.Find peer with | some (place,_) => s.modify place (StandardRateGain rules c) | none => s)
  | .Refresh peer => some (none,(s.Refresh rules c peer).2)
  | .IsAffidable peer => (s.IsAffidable rules c peer).map fun (_,s) => (none,s)
  | .LocalUpdateEndorse => some (none,(s.LocalUpdateEndorse c).2)
  | .EndorsementSystem target CorruptedAction => some (none,(s.EndorsementSystem rules c target CorruptedAction).2)
  | .ProcessEndorse target source value vchSig =>
    (s.ProcessEndorse rules c target source value vchSig).map fun (accepted,s) => (if accepted then some source else none,s)
  | .endorse me target source value vchSig =>
    (s.receiveEndorse rules c me target source value vchSig).map fun ((_,accepted),s) => (if accepted then some source else none,s)

abbrev SrgesEvent := Circumstances × SrgesCall

/-- A run, with the endorsements accepted so far, the latest first. -/
def run (rules : SrgesRules) (s : srges) (log : List (CPubKey × Int)) : List SrgesEvent → Option (srges × List (CPubKey × Int))
  | [] => some (s,log)
  | (c,call) :: events =>
    match s.act rules c call with
    | none => none
    | some (some source,s) => run rules s ((source,c.GetAdjustedTime) :: log) events
    | some (none,s) => run rules s log events

/-- When the endorsements from a source were accepted. -/
def acceptedFrom (source : CPubKey) (log : List (CPubKey × Int)) : List Int :=
  (log.filter fun entry => entry.1 == source).map Prod.snd

end srges

end Tetra
