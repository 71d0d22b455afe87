import Mathlib
import Tetra.Primitives

/-!
Alerts signed with the alert key. A stored alert can cancel others, and the number
`INT_MAX` is reserved for the alert that says that the key itself is compromised.
-/
namespace Tetra
open Std

def maxInt : Int32 := Int32.maxValue

structure CUnsignedAlert where
  nExpiration : Int64 := 0
  nID : Int32 := 0
  nCancel : Int32 := 0
  setCancel : ExtTreeSet Int32 := ∅
  /-- The lowest and the highest version, both included. -/
  nMinVer : Int32 := 0
  nMaxVer : Int32 := 0
  /-- Empty matches all. -/
  setSubVer : ExtTreeSet String := ∅
  nPriority : Int32 := 0
  strStatusBar : String := ""
deriving DecidableEq

/-- An alert as it arrives has only the two byte strings. -/
structure CAlert extends CUnsignedAlert where
  vchMsg : List UInt8
  vchSig : List UInt8
deriving DecidableEq

/-- What the alerts use of the node: hashes, the key they are signed with, the format
    of the message, and the version that the node says it has. -/
structure AlertRules where
  Hash : List UInt8 → uint256
  Verify : CPubKey → uint256 → List UInt8 → Bool
  /-- `CPubKey(ParseHex(fTestNet ? pszTestKey : pszMainKey))` -/
  key : CPubKey
  /-- `sMsg >> *(CUnsignedAlert*)this`, which throws when the message ends early. -/
  Unserialize : List UInt8 → Option CUnsignedAlert
  PROTOCOL_VERSION : Int32 := 70002
  /-- `FormatSubVersion(CLIENT_NAME, CLIENT_VERSION, …)` -/
  strSubVer : String := ""

abbrev AlertMap := ExtTreeMap uint256 CAlert

inductive ChangeType
  | CT_NEW
  | CT_DELETED
deriving DecidableEq

namespace CAlert

def GetHash (rules : AlertRules) (alert : CAlert) : uint256 := rules.Hash alert.vchMsg

def IsInEffect (now : Int64) (alert : CAlert) : Bool := now < alert.nExpiration

def Cancels (now : Int64) (self alert : CAlert) : Bool :=
  self.IsInEffect now && (decide (alert.nID ≤ self.nCancel) || self.setCancel.contains alert.nID)

def AppliesTo (now : Int64) (alert : CAlert) (nVersion : Int32) (strSubVerIn : String) : Bool :=
  alert.IsInEffect now && decide (alert.nMinVer ≤ nVersion ∧ nVersion ≤ alert.nMaxVer) &&
    (alert.setSubVer.isEmpty || alert.setSubVer.contains strSubVerIn)

def AppliesToMe (rules : AlertRules) (now : Int64) (alert : CAlert) : Bool :=
  alert.AppliesTo now rules.PROTOCOL_VERSION rules.strSubVer

/-- The alert with what its message says, when the signature is good. -/
def CheckSignature (rules : AlertRules) (alert : CAlert) : Except Reject CAlert :=
  if rules.Verify rules.key (rules.Hash alert.vchMsg) alert.vchSig = false then
    .error (.plain "CAlert::CheckSignature() : verify signature failed")
  else
    match rules.Unserialize alert.vchMsg with
    | some unsigned => .ok {alert with toCUnsignedAlert := unsigned}
    | none => .error (.throws "CDataStream::read() : end of data")

/-- What an alert with the reserved number has to say. -/
def IsPredefined (alert : CAlert) : Bool :=
  alert.nExpiration == maxInt.toInt64 && alert.nCancel == maxInt-1 && alert.nMinVer == 0 && alert.nMaxVer == maxInt &&
    alert.setSubVer.isEmpty && alert.nPriority == maxInt && alert.strStatusBar == "URGENT: Alert key compromised, upgrade required"

structure Outcome where
  result : Except Reject Unit
  mapAlerts : AlertMap
  /-- `NotifyAlertChanged` -/
  notified : List (uint256 × ChangeType) := []

/-- Whether the loop over the stored alerts leaves one where it is. -/
def stays (now : Int64) (self alert : CAlert) : Bool := !self.Cancels now alert && alert.IsInEffect now

/-- The stored alerts that are neither cancelled nor expired. -/
def sweep (now : Int64) (self : CAlert) (mapAlerts : AlertMap) : AlertMap := mapAlerts.filter fun _ alert => self.stays now alert

/-- `GetAdjustedTime()` is the same during a call. -/
def ProcessAlert (rules : AlertRules) (now : Int64) (mapAlerts : AlertMap) (incoming : CAlert) : Outcome :=
  match incoming.CheckSignature rules with
  | .error e => {result := .error e,mapAlerts := mapAlerts}
  | .ok self =>
    if self.IsInEffect now = false then {result := .error (.plain ""),mapAlerts := mapAlerts}
    else if self.nID = maxInt ∧ self.IsPredefined = false then {result := .error (.plain ""),mapAlerts := mapAlerts}
    else
      let gone := (mapAlerts.toList.filter fun item => !self.stays now item.2).map fun item => (item.1,.CT_DELETED)
      let mapAlerts := self.sweep now mapAlerts
      if mapAlerts.toList.any fun item => item.2.Cancels now self then
        {result := .error (.plain ""),mapAlerts := mapAlerts,notified := gone}
      else
        {result := .ok ()
         mapAlerts := mapAlerts.insertIfNew (self.GetHash rules) self
         notified := gone ++ if self.AppliesToMe rules now then [(self.GetHash rules,.CT_NEW)] else []}

end CAlert

structure AlertCall where
  incoming : CAlert
  GetAdjustedTime : Int64

namespace CAlert

def run (rules : AlertRules) (mapAlerts : AlertMap) (calls : List AlertCall) : AlertMap :=
  calls.foldl (fun mapAlerts call => (ProcessAlert rules call.GetAdjustedTime mapAlerts call.incoming).mapAlerts) mapAlerts

/-- What a message has to be for the stored alerts to be looked at. -/
structure Counts (rules : AlertRules) (now : Int64) (incoming alert : CAlert) : Prop where
  signed : incoming.CheckSignature rules = .ok alert
  inEffect : alert.IsInEffect now = true
  predefined : alert.nID = maxInt → alert.IsPredefined = true

/-- The alert in a call, if it counts, leaves the reserved number alone, and the time when
    alerts with that number expire has not come. -/
def Spares (rules : AlertRules) (call : AlertCall) : Prop :=
  ∀ self, Counts rules call.GetAdjustedTime call.incoming self →
    call.GetAdjustedTime < maxInt.toInt64 ∧ self.nCancel ≠ maxInt ∧ maxInt ∉ self.setCancel

section
variable {rules : AlertRules} {now : Int64} {mapAlerts : AlertMap} {incoming self : CAlert}

theorem sweep_lookup (hash : uint256) : (self.sweep now mapAlerts)[hash]? = mapAlerts[hash]?.filter (self.stays now) := by
  rw [sweep,ExtTreeMap.getElem?_filter]
  cases mapAlerts[hash]? with
  | none => rfl
  | some alert => simp [Option.pfilter,Option.filter]

/-- No stored alert cancels this one. -/
def Uncancelled (now : Int64) (mapAlerts : AlertMap) (self : CAlert) : Prop :=
  ∀ (hash : uint256) (alert : CAlert), mapAlerts[hash]? = some alert → alert.Cancels now self = false

/-- A message that does not count changes nothing; another sweeps the stored alerts, and
    goes in when none of those left cancels it. -/
theorem ProcessAlert_cases (rules : AlertRules) (now : Int64) (mapAlerts : AlertMap) (incoming : CAlert) :
    let outcome := ProcessAlert rules now mapAlerts incoming
    (outcome.mapAlerts = mapAlerts ∧ outcome.result ≠ .ok () ∧ ∀ self, ¬Counts rules now incoming self) ∨
    ∃ self, Counts rules now incoming self ∧
      ((¬Uncancelled now (self.sweep now mapAlerts) self ∧ outcome.result ≠ .ok () ∧ outcome.mapAlerts = self.sweep now mapAlerts) ∨
        (Uncancelled now (self.sweep now mapAlerts) self ∧ outcome.result = .ok () ∧
          outcome.mapAlerts = (self.sweep now mapAlerts).insertIfNew (self.GetHash rules) self)) := by
  dsimp only
  unfold ProcessAlert
  split
  next e refused =>
    refine .inl ⟨rfl,nofun,?_⟩
    intro self counts
    rw [counts.signed] at refused
    contradiction
  next self signed =>
    have only : ∀ other, Counts rules now incoming other → other = self := by
      intro other counts
      exact Except.ok.inj (counts.signed.symm.trans signed)
    split
    next ended =>
      refine .inl ⟨rfl,nofun,?_⟩
      intro other counts
      rw [only other counts] at counts
      exact absurd (counts.inEffect.symm.trans ended) (by decide)
    next inEffect =>
      split
      next formless =>
        refine .inl ⟨rfl,nofun,?_⟩
        intro other counts
        rw [only other counts] at counts
        exact absurd ((counts.predefined formless.1).symm.trans formless.2) (by decide)
      next formed =>
        have counts : Counts rules now incoming self := by
          refine ⟨signed,Bool.eq_true_of_not_eq_false inEffect,fun reserved => ?_⟩
          exact Bool.eq_true_of_not_eq_false fun formless => formed ⟨reserved,formless⟩
        have any_iff : ((self.sweep now mapAlerts).toList.any fun item => item.2.Cancels now self) = true ↔
            ¬Uncancelled now (self.sweep now mapAlerts) self := by
          simp only [List.any_eq_true,Uncancelled,not_forall,Bool.not_eq_false,Prod.exists,ExtTreeMap.mem_toList_iff_getElem?_eq_some,
            exists_prop]
        refine .inr ⟨self,counts,?_⟩
        dsimp only
        split
        next cancelled => exact .inl ⟨any_iff.mp cancelled,nofun,rfl⟩
        next free => exact .inr ⟨not_not.mp fun cancelled => free (any_iff.mpr cancelled),rfl,rfl⟩

/-- The stored alerts with the reserved number say what they have to. -/
def Reserved (mapAlerts : AlertMap) : Prop :=
  ∀ (hash : uint256) (alert : CAlert), mapAlerts[hash]? = some alert → alert.nID = maxInt → alert.IsPredefined = true

theorem Reserved.sweep (reserved : Reserved mapAlerts) : Reserved (self.sweep now mapAlerts) := by
  intro hash alert found isReserved
  rw [sweep_lookup] at found
  exact reserved hash alert (Option.eq_some_of_filter_eq_some found) isReserved

theorem Reserved.step (reserved : Reserved mapAlerts) : Reserved (ProcessAlert rules now mapAlerts incoming).mapAlerts := by
  rcases ProcessAlert_cases rules now mapAlerts incoming with ⟨same,_⟩ | ⟨self,counts,⟨_,_,swept⟩ | ⟨_,_,added⟩⟩
  · rw [same]
    exact reserved
  · rw [swept]
    exact reserved.sweep
  · rw [added]
    intro hash alert found isReserved
    rw [ExtTreeMap.getElem?_insertIfNew] at found
    split at found
    · obtain rfl := Option.some.inj found
      exact counts.predefined isReserved
    · exact reserved.sweep hash alert found isReserved

theorem run_reserved (calls : List AlertCall) (reserved : Reserved mapAlerts) : Reserved (run rules mapAlerts calls) := by
  induction calls generalizing mapAlerts with
  | nil => exact reserved
  | cons call rest ih => exact ih reserved.step

/-- The predefined alert expires with the largest `int`. -/
theorem inEffect_iff_of_predefined {alert : CAlert} (predefined : alert.IsPredefined = true) :
    alert.IsInEffect now = true ↔ now < maxInt.toInt64 := by
  simp only [IsPredefined,Bool.and_eq_true,beq_iff_eq] at predefined
  rw [IsInEffect,predefined.1.1.1.1.1.1]
  exact decide_eq_true_iff

theorem maxInt_le_iff (n : Int32) : maxInt ≤ n ↔ n = maxInt := by
  constructor
  · intro least
    exact Int32.le_antisymm (Int32.le_maxValue _) least
  · rintro rfl
    exact Int32.le_refl _

/-- What it takes for the predefined alert to survive another. -/
theorem stays_iff {alert : CAlert} (inEffect : self.IsInEffect now = true) (isReserved : alert.nID = maxInt)
    (predefined : alert.IsPredefined = true) :
    self.stays now alert = true ↔ now < maxInt.toInt64 ∧ self.nCancel ≠ maxInt ∧ maxInt ∉ self.setCancel := by
  have listed : self.setCancel.contains maxInt = true ↔ maxInt ∈ self.setCancel := ExtTreeSet.contains_iff_mem
  rw [stays,Cancels,inEffect,isReserved,Bool.and_eq_true,inEffect_iff_of_predefined predefined,Bool.true_and,Bool.not_eq_true',
    Bool.or_eq_false_iff,decide_eq_false_iff_not,maxInt_le_iff,← Bool.not_eq_true (self.setCancel.contains maxInt),listed]
  exact and_comm

/-- A predefined alert stays through the sweep of a message that leaves its number alone. -/
theorem sweep_keeps {call : AlertCall} (spares : Spares rules call) (counts : Counts rules call.GetAdjustedTime call.incoming self)
    {hash : uint256} {alert : CAlert} (stored : mapAlerts[hash]? = some alert) (isReserved : alert.nID = maxInt)
    (predefined : alert.IsPredefined = true) : (self.sweep call.GetAdjustedTime mapAlerts)[hash]? = some alert := by
  have remains : self.stays call.GetAdjustedTime alert = true :=
    (stays_iff counts.inEffect isReserved predefined).mpr (spares self counts)
  rw [sweep_lookup,stored,Option.filter_some,if_pos remains]

theorem step_keeps {call : AlertCall} (spares : Spares rules call) {hash : uint256} {alert : CAlert}
    (stored : mapAlerts[hash]? = some alert) (isReserved : alert.nID = maxInt) (predefined : alert.IsPredefined = true) :
    (ProcessAlert rules call.GetAdjustedTime mapAlerts call.incoming).mapAlerts[hash]? = some alert := by
  rcases ProcessAlert_cases rules call.GetAdjustedTime mapAlerts call.incoming with ⟨same,_⟩ | ⟨self,counts,⟨_,_,swept⟩ | ⟨_,_,added⟩⟩
  · rw [same]
    exact stored
  · rw [swept]
    exact sweep_keeps spares counts stored isReserved predefined
  · have kept := sweep_keeps spares counts stored isReserved predefined
    rw [added,ExtTreeMap.getElem?_insertIfNew,if_neg]
    · exact kept
    · rintro ⟨same,fresh⟩
      rw [LawfulEqCmp.compare_eq_iff_eq.mp same] at fresh
      exact fresh (ExtTreeMap.mem_iff_isSome_getElem?.mpr (by simp [kept]))

/-- What it cancels is not accepted. -/
theorem step_refuses {call : AlertCall} (spares : Spares rules call) {hash : uint256} {alert : CAlert}
    (stored : mapAlerts[hash]? = some alert) (isReserved : alert.nID = maxInt) (predefined : alert.IsPredefined = true)
    (signed : call.incoming.CheckSignature rules = .ok self) (cancels : alert.Cancels call.GetAdjustedTime self = true) :
    (ProcessAlert rules call.GetAdjustedTime mapAlerts call.incoming).result ≠ .ok () := by
  rcases ProcessAlert_cases rules call.GetAdjustedTime mapAlerts call.incoming with ⟨_,refused,_⟩ | ⟨read,counts,⟨_,refused,_⟩ | ⟨free,_,_⟩⟩
  · exact refused
  · exact refused
  · obtain rfl : read = self := Except.ok.inj (counts.signed.symm.trans signed)
    have kept := sweep_keeps spares counts stored isReserved predefined
    exact absurd ((free hash alert kept).symm.trans cancels) (by decide)

theorem run_append (calls more : List AlertCall) : run rules mapAlerts (calls ++ more) = run rules (run rules mapAlerts calls) more := by
  simp [run]

theorem run_keeps {calls : List AlertCall} (spares : ∀ call ∈ calls, Spares rules call) {hash : uint256} {alert : CAlert}
    (stored : mapAlerts[hash]? = some alert) (isReserved : alert.nID = maxInt) (predefined : alert.IsPredefined = true) :
    (run rules mapAlerts calls)[hash]? = some alert := by
  induction calls generalizing mapAlerts with
  | nil => exact stored
  | cons call rest ih =>
    have first : Spares rules call := spares call (List.mem_cons_self ..)
    apply ih (fun later member => spares later (List.mem_cons_of_mem _ member))
    exact step_keeps first stored isReserved predefined

/-- As long as the later alerts leave the reserved number alone and come before the last
    `int` second, a stored alert with that number stays, and nothing it cancels goes in. -/
theorem compromised_alert_final {before after : List AlertCall} {hash : uint256} {alert : CAlert}
    (stored : (run rules ∅ before)[hash]? = some alert) (isReserved : alert.nID = maxInt)
    (spares : ∀ call ∈ after, Spares rules call) :
    (run rules ∅ (before ++ after))[hash]? = some alert ∧
    ∀ earlier call later, after = earlier ++ call :: later → ∀ self, call.incoming.CheckSignature rules = .ok self →
      alert.Cancels call.GetAdjustedTime self = true →
      (ProcessAlert rules call.GetAdjustedTime (run rules ∅ (before ++ earlier)) call.incoming).result ≠ .ok () := by
  have start : Reserved (∅ : AlertMap) := by
    intro hash alert found
    simp at found
  have predefined : alert.IsPredefined = true := run_reserved before start hash alert stored isReserved
  constructor
  · rw [run_append]
    exact run_keeps spares stored isReserved predefined
  · rintro earlier call later rfl self signed cancels
    have still : (run rules ∅ (before ++ earlier))[hash]? = some alert := by
      rw [run_append]
      exact run_keeps (fun call member => spares call (List.mem_append_left _ member)) stored isReserved predefined
    have spared : Spares rules call := spares call (by simp)
    exact step_refuses spared still isReserved predefined signed cancels

end

/-! ### Two runs -/

private def revoked : CUnsignedAlert where
  nExpiration := maxInt.toInt64
  nID := maxInt
  nCancel := maxInt-1
  nMaxVer := maxInt
  nPriority := maxInt
  strStatusBar := "URGENT: Alert key compromised, upgrade required"

/-- An alert that takes every number with it. -/
private def everythingOk : CUnsignedAlert where
  nExpiration := 2000000000
  nID := 1
  nCancel := maxInt
  nMaxVer := maxInt

private def upgrade : CUnsignedAlert where
  nExpiration := 2000000000
  nID := 1
  nMaxVer := maxInt

private def alertRules : AlertRules where
  Hash := fun message => message.length
  Verify := fun _ _ _ => true
  key := [4]
  Unserialize := fun message => [revoked,everythingOk,upgrade][message.length]?

private def alertCall (vchMsg : List UInt8) : AlertCall := ⟨{vchMsg := vchMsg,vchSig := []},1400000000⟩

/-- An alert that names `INT_MAX` as the last number it cancels takes the stored one away
    and goes in itself. -/
theorem compromised_alert_cancelled :
    revoked.nID = maxInt ∧
    (run alertRules ∅ [alertCall []])[(0 : uint256)]? = some {revoked with vchMsg := [],vchSig := []} ∧
    (run alertRules ∅ [alertCall [],alertCall [1]])[(0 : uint256)]? = none ∧
    (ProcessAlert alertRules 1400000000 (run alertRules ∅ [alertCall []]) (alertCall [1]).incoming).result = .ok () := by
  refine ⟨rfl,?_,?_,?_⟩ <;> decide +kernel

theorem compromised_alert_final_sample :
    (run alertRules ∅ ([alertCall []] ++ [alertCall [1,1]]))[(0 : uint256)]? = some {revoked with vchMsg := [],vchSig := []} ∧
    (ProcessAlert alertRules 1400000000 (run alertRules ∅ ([alertCall []] ++ [])) (alertCall [1,1]).incoming).result ≠ .ok () := by
  have spares : ∀ call ∈ [alertCall [1,1]], Spares alertRules call := by
    intro call member self counts
    obtain rfl := List.mem_singleton.mp member
    obtain rfl : {upgrade with vchMsg := [1,1],vchSig := []} = self := Except.ok.inj counts.signed
    exact ⟨by decide,by decide,by decide⟩
  have stored : (run alertRules ∅ [alertCall []])[(0 : uint256)]? = some {revoked with vchMsg := [],vchSig := []} := by decide +kernel
  obtain ⟨still,refuses⟩ := compromised_alert_final stored rfl spares
  exact ⟨still,refuses [] _ [] rfl _ rfl (by decide)⟩

end CAlert

end Tetra
