import Mathlib
import Tetra.EndorseMessages
import Tetra.EndorseUpdates
import Tetra.EndorseValues

/-!
The node's own quota of endorsements: what a received block takes from it, and the
messages that are sent for it. The quota is read from a table that nothing is written to.
-/
namespace Tetra

/-- The node's own key, and what the buffer held before the message was put together. -/
structure Signer where
  me : CPubKey
  Sign : uint256 → List UInt8
  memory : Nat → UInt8

/-- What the handler of "block" reads of a block, and what `endorse` held before. -/
structure BlockMessage where
  sourcepeer : CPubKey
  CheckSig : Bool
  endorse : UInt8

/-- What happens to the quota: it is set to five again, a unit is taken from it, or an
    endorsement is signed and pushed to the peers. -/
inductive QuotaEvent
  | reset
  | spent
  | sent
deriving DecidableEq

/-- What the node does with its ratings. -/
inductive NodeEvent
  | restart
  | block (message : BlockMessage)
  | endorse (me target source : CPubKey) (value : UInt8) (vchSig : List UInt8)

namespace srges

/-- Whether `IsAffidable` sets the quota back. -/
def Resets (c : Circumstances) (s : srges) (peer : CPubKey) : Bool :=
  !peer.isEmpty && decide (s.toplist.length > 1) &&
    match s.dbReadTime c "timerank" with
    | none => false
    | some age => decide (c.GetAdjustedTime-age > UPDATE_TIME) && (s.LocalUpdateEndorse c).1

/-- Whether `EndorsementSystem` writes a quota with one unit less. -/
def Spends (c : Circumstances) (s : srges) (target : CPubKey) : Bool :=
  match s.dbReadEndorse c "endorse" with
  | none => false
  | some (left,last) => !decide (left ≤ 0 ∨ last = target) && (s.dbWriteEndorse c "endorse" (left-1,last)).1

/-- The "block" message, as far as it goes into the ratings. `!endorse == 0xff` compares what
    `!` gives, which is 0 or 1. -/
def receiveBlock (rules : SrgesRules) (signer : Signer) (c : Circumstances) (s : srges) (message : BlockMessage) :
    Option (List QuotaEvent × srges) :=
  if message.sourcepeer.isEmpty then some ([],s) else
  match s.IsAffidable rules c message.sourcepeer with
  | none => none
  | some (affidable,s1) =>
    let resets := if s.Resets c message.sourcepeer then [QuotaEvent.reset] else []
    let spends := if s1.Spends c message.sourcepeer then [QuotaEvent.spent] else []
    let ((found,endorse),s2) := s1.EndorsementCall c message.sourcepeer message.endorse (!affidable || !message.CheckSig)
    let negated : Int := if endorse = 0 then 1 else 0
    if found && negated == 0xff then
      (sentBytes signer.memory message.sourcepeer signer.me endorse).bind fun temp =>
        let tempSig := signer.Sign (rules.Hash temp)
        (s2.ProcessEndorse rules c message.sourcepeer signer.me endorse tempSig).map fun (_,s3) => (resets ++ spends ++ [.sent],s3)
    else some (resets ++ spends,s2)

def happen (rules : SrgesRules) (signer : Signer) (c : Circumstances) (s : srges) : NodeEvent → Option (List QuotaEvent × srges)
  | .restart =>
    -- The list is gone, and the constructor asserts that it is set up.
    let (ready,s) := ({db := s.db} : srges).Init c
    if ready then some ([],s) else none
  | .block message => s.receiveBlock rules signer c message
  | .endorse me target source value vchSig => (s.receiveEndorse rules c me target source value vchSig).map fun (_,s) => ([],s)

/-- A run of the node, with what happened to the quota in it. -/
def nodeRun (rules : SrgesRules) (signer : Signer) (s : srges) : List (Circumstances × NodeEvent) → Option (List QuotaEvent × srges)
  | [] => some ([],s)
  | (c,event) :: events =>
    (s.happen rules signer c event).bind fun (first,s1) =>
      (nodeRun rules signer s1 events).map fun (rest,s2) => (first ++ rest,s2)

/-- The table of the quota is as it was. -/
structure SameQuota (s s' : srges) : Prop where
  kept : ∀ key, s'.db ("endorse",key) = s.db ("endorse",key)

section
variable {rules : SrgesRules} {signer : Signer} {c : Circumstances} {s : srges}

theorem SameQuota.trans {s1 s2 : srges} (first : SameQuota s s1) (second : SameQuota s1 s2) : SameQuota s s2 :=
  ⟨fun key => (second.kept key).trans (first.kept key)⟩

theorem sameQuota_of_db {s' : srges} (same : s'.db = s.db) : SameQuota s s' := ⟨fun _ => congrFun same _⟩

/-! ### What every call leaves of the table -/

theorem write_sameQuota {table : String} (other : table ≠ "endorse") (key : String) (value : DbValue) :
    SameQuota s (s.write c (table,key) value).2 := by
  refine ⟨fun key => ?_⟩
  unfold write
  split
  · exact Function.update_of_ne (fun same => other (congrArg Prod.fst same).symm) ..
  · rfl

theorem dbWriteTime_sameQuota (key : String) (value : Int) : SameQuota s (s.dbWriteTime c key value).2 :=
  write_sameQuota (by decide) key _

theorem dbWriteEndorse_sameQuota (key : String) (value : Int × CPubKey) : SameQuota s (s.dbWriteEndorse c key value).2 :=
  write_sameQuota (by decide) key _

theorem dbWriteToplist_sameQuota (key : String) (value : tlist) : SameQuota s (s.dbWriteToplist c key value).2 :=
  write_sameQuota (by decide) key _

theorem LocalUpdateEndorse_sameQuota : SameQuota s (s.LocalUpdateEndorse c).2 := by
  unfold LocalUpdateEndorse
  split
  · exact sameQuota_of_db rfl
  · exact dbWriteEndorse_sameQuota ..

theorem Init_sameQuota : SameQuota s (s.Init c).2 := by
  have timed : ∀ {s1 : srges}, SameQuota s s1 → SameQuota s
      (if (s1.dbWriteTime c "timerank" c.GetAdjustedTime).1 = false then (false,(s1.dbWriteTime c "timerank" c.GetAdjustedTime).2)
        else (s1.dbWriteTime c "timerank" c.GetAdjustedTime).2.dbWriteEndorse c "endorse" (5,[])).2 := by
    intro s1 listed
    split
    · exact listed.trans (dbWriteTime_sameQuota ..)
    · exact (listed.trans (dbWriteTime_sameQuota ..)).trans (dbWriteEndorse_sameQuota ..)
  unfold Init
  cases s.dbReadToplist c "toplist" with
  | some toplist => exact timed (sameQuota_of_db rfl)
  | none =>
    dsimp only
    split
    · exact dbWriteToplist_sameQuota ..
    · exact timed (dbWriteToplist_sameQuota ..)

theorem updateRanking_sameQuota : SameQuota s (s.updateRanking c).2 := by
  unfold updateRanking
  dsimp only
  split
  · split
    · exact sameQuota_of_db rfl
    · split
      · split
        · exact LocalUpdateEndorse_sameQuota
        · split <;> exact LocalUpdateEndorse_sameQuota.trans (dbWriteTime_sameQuota ..)
      · exact sameQuota_of_db rfl
  · exact sameQuota_of_db rfl

theorem Clean_db (pr : PeerRate) : (s.Clean c pr).2.db = s.db := by
  unfold Clean
  split
  · split <;> rfl
  · rfl

theorem AddPeer_db (peer : CPubKey) : (s.AddPeer rules c peer).2.db = s.db := by
  unfold AddPeer
  dsimp only
  split
  · rfl
  · split <;> rfl

theorem Refresh_db (peer : CPubKey) : (s.Refresh rules c peer).2.db = s.db := by
  unfold Refresh
  dsimp only
  split
  · exact AddPeer_db peer
  · split
    · exact Clean_db _
    · split <;> exact Clean_db _

theorem IsAffidable_sameQuota {peer : CPubKey} {answer : Bool} {s' : srges} (asked : s.IsAffidable rules c peer = some (answer,s')) :
    SameQuota s s' := by
  unfold IsAffidable at asked
  dsimp only at asked
  split at asked
  · cases asked
    exact sameQuota_of_db rfl
  · split at asked
    · cases asked
      exact updateRanking_sameQuota
    · have refreshed : SameQuota s ((s.updateRanking c).2.Refresh rules c peer).2 :=
        updateRanking_sameQuota.trans (sameQuota_of_db (Refresh_db peer))
      generalize (if (s.updateRanking c).2.FindRank peer > 3 then (s.updateRanking c).2.FindRank peer-1 else 0) = place at asked
      split at asked
      · contradiction
      · cases asked
        exact refreshed

theorem EndorsementCall_sameQuota (target : CPubKey) (value : UInt8) (CorruptedAction : Bool) :
    SameQuota s (s.EndorsementCall c target value CorruptedAction).2 := by
  unfold EndorsementCall
  dsimp only
  split
  · exact sameQuota_of_db rfl
  · split
    · exact sameQuota_of_db rfl
    · split
      · exact dbWriteEndorse_sameQuota ..
      · split <;> exact dbWriteEndorse_sameQuota ..

theorem storeRank_sameQuota : SameQuota s (s.storeRank c).2 := by
  unfold storeRank
  split
  · exact sameQuota_of_db rfl
  · split
    · exact sameQuota_of_db rfl
    · exact dbWriteTime_sameQuota ..

theorem ProcessEndorse_sameQuota {target source : CPubKey} {value : UInt8} {vchSig : List UInt8} {accepted : Bool} {s' : srges}
    (processed : s.ProcessEndorse rules c target source value vchSig = some (accepted,s')) : SameQuota s s' := by
  by_cases refused : ∀ targetPlace sourcePlace sourcePr, ¬ Weighed rules s target source value vchSig targetPlace sourcePlace sourcePr
  · obtain ⟨-,rfl⟩ := ProcessEndorse_refused refused processed
    exact sameQuota_of_db rfl
  · push Not at refused
    obtain ⟨targetPlace,sourcePlace,sourcePr,weighed⟩ := refused
    rw [ProcessEndorse_weighed weighed] at processed
    obtain ⟨percentage,-,same⟩ := Option.map_eq_some_iff.mp processed
    have updated : SameQuota s (s.endorsed rules targetPlace sourcePlace percentage value) := sameQuota_of_db rfl
    have stored := updated.trans (@storeRank_sameQuota c _)
    rw [same] at stored
    exact stored

theorem receiveEndorse_sameQuota {me target source : CPubKey} {value : UInt8} {vchSig : List UInt8} {answer : Bool × Bool} {s' : srges}
    (received : s.receiveEndorse rules c me target source value vchSig = some (answer,s')) : SameQuota s s' := by
  unfold receiveEndorse at received
  split at received
  · cases received
    exact sameQuota_of_db rfl
  · obtain ⟨⟨accepted,last⟩,processed,same⟩ := Option.map_eq_some_iff.mp received
    obtain ⟨-,rfl⟩ := Prod.mk.inj same
    exact ProcessEndorse_sameQuota processed

/-! ### Received blocks -/

/-- Where it does not spend, the call leaves everything as it was. -/
theorem EndorsementCall_idle {target : CPubKey} (idle : s.Spends c target = false) (value : UInt8) (CorruptedAction : Bool) :
    (s.EndorsementCall c target value CorruptedAction).2 = s := by
  unfold EndorsementCall
  unfold Spends at idle
  cases read : s.dbReadEndorse c "endorse" with
  | none => rfl
  | some quota =>
    obtain ⟨left,last⟩ := quota
    rw [read] at idle
    dsimp only at idle ⊢
    by_cases refused : left ≤ 0 ∨ last = target
    · rw [if_pos refused]
    · rw [decide_eq_false refused,Bool.not_false,Bool.true_and] at idle
      rw [if_neg refused,if_pos idle]
      unfold dbWriteEndorse write at idle ⊢
      split at idle
      · contradiction
      next silent => rw [if_neg silent]

/-- Where it spends, it writes the quota with one unit less. -/
theorem EndorsementCall_spends {target : CPubKey} (spends : s.Spends c target = true) (value : UInt8) (CorruptedAction : Bool) :
    ∃ left last, s.dbReadEndorse c "endorse" = some (left,last) ∧ 0 < left ∧
      (s.EndorsementCall c target value CorruptedAction).2 = (s.dbWriteEndorse c "endorse" (left-1,last)).2 := by
  unfold EndorsementCall
  unfold Spends at spends
  cases read : s.dbReadEndorse c "endorse" with
  | none =>
    rw [read] at spends
    contradiction
  | some quota =>
    obtain ⟨left,last⟩ := quota
    rw [read] at spends
    dsimp only at spends ⊢
    obtain ⟨goes,written⟩ := Bool.and_eq_true_iff.mp spends
    have going : ¬ (left ≤ 0 ∨ last = target) := by simpa using goes
    refine ⟨left,last,rfl,by omega,?_⟩
    rw [if_neg going,if_neg (by rw [written]; decide)]
    split <;> rfl

/-- No value of `endorse` gets past the second condition: nothing is signed or pushed. -/
theorem receiveBlock_cases {message : BlockMessage} {log : List QuotaEvent} {s' : srges}
    (received : s.receiveBlock rules signer c message = some (log,s')) :
    log = [] ∧ s' = s ∨
    ∃ affidable s1, s.IsAffidable rules c message.sourcepeer = some (affidable,s1) ∧
      s' = (s1.EndorsementCall c message.sourcepeer message.endorse (!affidable || !message.CheckSig)).2 ∧
      log = (if s.Resets c message.sourcepeer then [QuotaEvent.reset] else []) ++
        if s1.Spends c message.sourcepeer then [QuotaEvent.spent] else [] := by
  unfold receiveBlock at received
  split at received
  · cases received
    exact .inl ⟨rfl,rfl⟩
  · split at received
    · contradiction
    next affidable s1 asked =>
      dsimp only at received
      have never : ((if (s1.EndorsementCall c message.sourcepeer message.endorse (!affidable || !message.CheckSig)).1.2 = 0
          then 1 else 0 : Int) == 0xff) = false := by
        split <;> rfl
      rw [never,Bool.and_false,if_neg Bool.false_ne_true] at received
      obtain ⟨rfl,rfl⟩ := Prod.mk.inj (Option.some.inj received)
      exact .inr ⟨affidable,s1,asked,rfl,rfl⟩

/-- What an event does: the table of the quota stays, and only a block that `IsAffidable` gets
    through has anything to log, which is never a message. -/
theorem happen_cases {event : NodeEvent} {log : List QuotaEvent} {s' : srges} (happens : s.happen rules signer c event = some (log,s')) :
    SameQuota s s' ∧ (log = [] ∨ ∃ peer affidable s1, s.IsAffidable rules c peer = some (affidable,s1) ∧
      log = (if s.Resets c peer then [QuotaEvent.reset] else []) ++ if s1.Spends c peer then [QuotaEvent.spent] else []) := by
  cases event with
  | restart =>
    have kept : SameQuota s (({db := s.db} : srges).Init c).2 := ⟨Init_sameQuota.kept⟩
    unfold happen at happens
    dsimp only at happens
    split at happens
    · cases happens
      exact ⟨kept,.inl rfl⟩
    · contradiction
  | block message =>
    rcases receiveBlock_cases happens with ⟨rfl,rfl⟩ | ⟨affidable,s1,asked,rfl,rfl⟩
    · exact ⟨sameQuota_of_db rfl,.inl rfl⟩
    · exact ⟨(IsAffidable_sameQuota asked).trans (EndorsementCall_sameQuota ..),.inr ⟨_,affidable,s1,asked,rfl⟩⟩
  | endorse me target source value vchSig =>
    obtain ⟨⟨answer,last⟩,received,same⟩ := Option.map_eq_some_iff.mp happens
    obtain ⟨rfl,rfl⟩ := Prod.mk.inj same
    exact ⟨receiveEndorse_sameQuota received,.inl rfl⟩

theorem happen_unsent {event : NodeEvent} {log : List QuotaEvent} {s' : srges} (happens : s.happen rules signer c event = some (log,s')) :
    QuotaEvent.sent ∉ log := by
  rcases (happen_cases happens).2 with rfl | ⟨peer,affidable,s1,-,rfl⟩
  · exact List.not_mem_nil
  · intro sent
    rcases List.mem_append.mp sent with reset | spent
    · split at reset <;> simp at reset
    · split at spent <;> simp at spent

/-- There is no quota to read. -/
def NoQuota (s : srges) : Prop := ∀ key, s.db ("endorse",key) = none

theorem NoQuota.kept {s' : srges} (none' : NoQuota s) (same : SameQuota s s') : NoQuota s' := fun key => (same.kept key).trans (none' key)

theorem NoQuota.read (none' : NoQuota s) (key : String) : s.dbReadEndorse c key = none := by
  rw [dbReadEndorse,none']

theorem NoQuota.spends (none' : NoQuota s) (target : CPubKey) : s.Spends c target = false := by
  rw [Spends,none'.read]

theorem NoQuota.resets (none' : NoQuota s) (peer : CPubKey) : s.Resets c peer = false := by
  have fails : (s.LocalUpdateEndorse c).1 = false := by
    rw [LocalUpdateEndorse,none'.read]
  unfold Resets
  cases s.dbReadTime c "timerank" with
  | none => simp
  | some age => simp [fails]

/-- What a step keeps: there is no quota, so it is neither spent nor set back. -/
theorem NoQuota.happen (none' : NoQuota s) {event : NodeEvent} {log : List QuotaEvent} {s' : srges}
    (happens : s.happen rules signer c event = some (log,s')) : NoQuota s' ∧ log = [] := by
  obtain ⟨same,rfl | ⟨peer,affidable,s1,asked,rfl⟩⟩ := happen_cases happens
  · exact ⟨none'.kept same,rfl⟩
  · refine ⟨none'.kept same,?_⟩
    rw [none'.resets,(none'.kept (IsAffidable_sameQuota asked)).spends]
    rfl

theorem nodeRun_cons {event : NodeEvent} {events : List (Circumstances × NodeEvent)} {log : List QuotaEvent} {s' : srges}
    (ran : s.nodeRun rules signer ((c,event) :: events) = some (log,s')) :
    ∃ first s1 rest, s.happen rules signer c event = some (first,s1) ∧ s1.nodeRun rules signer events = some (rest,s') ∧ log = first ++ rest := by
  obtain ⟨⟨first,s1⟩,happens,remaining⟩ := Option.bind_eq_some_iff.mp ran
  obtain ⟨⟨rest,last⟩,remains,same⟩ := Option.map_eq_some_iff.mp remaining
  obtain ⟨rfl,rfl⟩ := Prod.mk.inj same
  exact ⟨first,s1,rest,happens,remains,rfl⟩

/-- Whatever the database holds at the start, its quota stays and no endorsement is sent. -/
theorem nodeRun_sameQuota {events : List (Circumstances × NodeEvent)} {log : List QuotaEvent} {s' : srges}
    (ran : s.nodeRun rules signer events = some (log,s')) : SameQuota s s' ∧ QuotaEvent.sent ∉ log := by
  induction events generalizing s log with
  | nil =>
    cases ran
    exact ⟨sameQuota_of_db rfl,List.not_mem_nil⟩
  | cons event events ih =>
    obtain ⟨first,s1,rest,happens,remains,rfl⟩ := nodeRun_cons ran
    obtain ⟨same,unsent⟩ := ih remains
    refine ⟨(happen_cases happens).1.trans same,fun sent => ?_⟩
    exact (List.mem_append.mp sent).elim (happen_unsent happens) unsent

theorem NoQuota.run (none' : NoQuota s) {events : List (Circumstances × NodeEvent)} {log : List QuotaEvent} {s' : srges}
    (ran : s.nodeRun rules signer events = some (log,s')) : NoQuota s' ∧ log = [] := by
  induction events generalizing s log with
  | nil =>
    cases ran
    exact ⟨none',rfl⟩
  | cons event events ih =>
    obtain ⟨first,s1,rest,happens,remains,rfl⟩ := nodeRun_cons ran
    obtain ⟨after,rfl⟩ := none'.happen happens
    exact ih after remains

/-- From an empty database on, as many units are taken from the quota as endorsements are
    signed and pushed, in every stretch of a run, so between two resets too. -/
theorem quota_spent_on_sent {events : List (Circumstances × NodeEvent)} {log : List QuotaEvent} {s' : srges}
    (ran : ({} : srges).nodeRun rules signer events = some (log,s')) {before segment after : List QuotaEvent}
    (split : log = before ++ segment ++ after) : segment.count .spent = segment.count .sent := by
  have none' : NoQuota {} := fun _ => rfl
  obtain ⟨-,rfl⟩ := none'.run ran
  have empty : segment = [] := by
    have pieces := List.append_eq_nil_iff.mp split.symm
    exact (List.append_eq_nil_iff.mp pieces.1).2
  rw [empty]
  rfl

end

/-- A start, and twenty blocks of two peers in as many minutes. -/
private def twentyMinutes : List (Circumstances × NodeEvent) :=
  ({GetAdjustedTime := 0},.restart) :: (List.range 20).map fun minute : Nat =>
    ({GetAdjustedTime := 61*minute},.block {sourcepeer := [2,UInt8.ofNat (minute%2)],CheckSig := true,endorse := 0})

theorem quota_spent_on_sent_sample :
    ∃ log s', ({} : srges).nodeRun plainRules ⟨[2,7],fun _ => [],fun _ => 0⟩ twentyMinutes = some (log,s') ∧
      s'.toplist.length = 2 ∧ log.count .spent = log.count .sent := by
  have ran : (({} : srges).nodeRun plainRules ⟨[2,7],fun _ => [],fun _ => 0⟩ twentyMinutes).map
      (fun result => result.2.toplist.length) = some 2 := by decide +kernel
  obtain ⟨⟨log,s'⟩,result,peers⟩ := Option.map_eq_some_iff.mp ran
  exact ⟨log,s',result,peers,quota_spent_on_sent result (by simp : log = [] ++ log ++ [])⟩

end srges
end Tetra
