import Mathlib
import Tetra.Srges

/-!
How many endorsements of one source are accepted in a minute: what each call leaves it,
and when its record is filled up again.
-/
namespace Tetra.srges
open Refill

/-- What the records of a peer have left; it should have one record at most. -/
def frees (source : CPubKey) (list : tlist) : List Nat := (list.filter fun record => record.1 == source).map fun record => record.2.freeEndorsement

/-- The source has no more records than before, and at least so many endorsements less. -/
structure NoMore (source : CPubKey) (used : Nat) (before after : tlist) : Prop where
  records : (frees source after).length ≤ (frees source before).length
  left : (frees source after).sum+used ≤ (frees source before).sum

section
variable {source : CPubKey} {before after : tlist}

theorem noMore_of_eq (same : frees source after = frees source before) : NoMore source 0 before after := by
  constructor <;> rw [same]
  omega

theorem NoMore.trans {used : Nat} {last : tlist} (first : NoMore source used before after) (second : NoMore source 0 after last) :
    NoMore source used before last :=
  ⟨second.records.trans first.records,by have := first.left; have := second.left; omega⟩

theorem frees_append (a b : tlist) : frees source (a ++ b) = frees source a ++ frees source b := by
  simp [frees]

theorem frees_cons (record : PeerRecord) (list : tlist) :
    frees source (record :: list) = if record.1 = source then record.2.freeEndorsement :: frees source list else frees source list := by
  by_cases mine : record.1 = source <;> simp [frees,mine]

theorem frees_nil_of_absent (absent : ∀ record ∈ before, record.1 ≠ source) : frees source before = [] := by
  simp [frees,List.filter_eq_nil_iff]
  intro peer pr member
  exact absent (peer,pr) member

theorem noMore_sort (rules : SrgesRules) (list : tlist) : NoMore source 0 list (rules.sort list) := by
  have perm : (frees source (rules.sort list)).Perm (frees source list) := ((rules.sort_perm list).filter _).map _
  exact ⟨perm.length_eq.le,perm.sum_eq.le⟩

theorem noMore_eraseIdx (list : tlist) (place : Nat) : NoMore source 0 list (list.eraseIdx place) := by
  have sub : (frees source (list.eraseIdx place)).Sublist (frees source list) := ((List.eraseIdx_sublist ..).filter _).map _
  exact ⟨sub.length_le,sub.sum_le_sum fun _ _ => Nat.zero_le _⟩

theorem modify_at (a b : tlist) (record : PeerRecord) (f : PeerRecord → PeerRecord) :
    (a ++ record :: b).modify a.length f = a ++ f record :: b := by
  induction a with
  | nil => rfl
  | cons first a ih => simp [ih]

theorem Find_eq_some {s : srges} {peer : CPubKey} {place : Nat} {pr : PeerRate} (found : s.Find peer = some (place,pr)) :
    ∃ a b, s.toplist = a ++ (peer,pr) :: b ∧ a.length = place ∧ ∀ record ∈ a, record.1 ≠ peer := by
  obtain ⟨place',first,rest⟩ := Option.bind_eq_some_iff.mp found
  obtain ⟨⟨key,rate⟩,present,same⟩ := Option.map_eq_some_iff.mp rest
  obtain ⟨rfl,rfl⟩ : place' = place ∧ rate = pr := by simpa using same
  obtain ⟨inside,isPeer,earlier⟩ := List.findIdx?_eq_some_iff_getElem.mp first
  obtain ⟨_,entry⟩ := List.getElem?_eq_some_iff.mp present
  have key_eq : key = peer := by simpa [entry] using isPeer
  subst key_eq
  refine ⟨s.toplist.take place',s.toplist.drop (place'+1),?_,by simp; omega,?_⟩
  · rw [← entry,List.cons_getElem_drop_succ,List.take_append_drop]
  · intro record member
    obtain ⟨i,low,rfl⟩ := List.getElem_of_mem member
    rw [List.length_take] at low
    rw [List.getElem_take]
    simpa using earlier i (by omega)

theorem Find_eq_none {s : srges} {peer : CPubKey} (missing : s.Find peer = none) : ∀ record ∈ s.toplist, record.1 ≠ peer := by
  intro record member isPeer
  cases first : s.toplist.findIdx? fun record => record.1 == peer with
  | none =>
    have := List.findIdx?_eq_none_iff.mp first record member
    simp [isPeer] at this
  | some place =>
    obtain ⟨inside,_⟩ := List.findIdx?_eq_some_iff_getElem.mp first
    rw [Find,first,Option.bind_some,List.getElem?_eq_getElem inside] at missing
    contradiction

/-- A write to the record of a peer, seen from a source. -/
theorem frees_modify {s : srges} {peer : CPubKey} {place : Nat} {pr : PeerRate} (found : s.Find peer = some (place,pr))
    (f : PeerRate → PeerRate) :
    ∃ rest, frees source s.toplist = (if peer = source then pr.freeEndorsement :: rest else rest) ∧
      frees source (s.modify place f).toplist = if peer = source then (f pr).freeEndorsement :: rest else rest := by
  obtain ⟨a,b,listed,rfl,earlier⟩ := Find_eq_some found
  have after : (s.modify a.length f).toplist = a ++ (peer,f pr) :: b := by
    rw [modify,listed,modify_at]
  rw [after,listed]
  by_cases mine : peer = source
  · have start : frees source a = [] := frees_nil_of_absent fun record member => mine ▸ earlier record member
    exact ⟨frees source b,by simp [frees_append,frees_cons,start,mine],by simp [frees_append,frees_cons,start,mine]⟩
  · exact ⟨frees source a ++ frees source b,by simp [frees_append,frees_cons,mine],by simp [frees_append,frees_cons,mine]⟩

/-- A write that leaves the counter alone. -/
theorem noMore_modify (s : srges) (place : Nat) {f : PeerRate → PeerRate} (kept : ∀ pr, (f pr).freeEndorsement = pr.freeEndorsement) :
    NoMore source 0 s.toplist (s.modify place f).toplist := by
  have same : ∀ (list : tlist) place, frees source (list.modify place fun record => (record.1,f record.2)) = frees source list := by
    intro list
    induction list with
    | nil => simp
    | cons record rest ih =>
      intro place
      cases place with
      | zero => simp [frees_cons,kept]
      | succ place => simp [frees_cons,ih]
  exact noMore_of_eq (same s.toplist place)

/-! ### The operations -/

variable {rules : SrgesRules} {c : Circumstances} {s : srges}

theorem dbWriteTime_toplist (key : String) (value : Int) : (s.dbWriteTime c key value).2.toplist = s.toplist := by
  unfold dbWriteTime write
  split <;> rfl

theorem dbWriteEndorse_toplist (key : String) (value : Int × CPubKey) : (s.dbWriteEndorse c key value).2.toplist = s.toplist := by
  unfold dbWriteEndorse write
  split <;> rfl

theorem LocalUpdateEndorse_toplist : (s.LocalUpdateEndorse c).2.toplist = s.toplist := by
  unfold LocalUpdateEndorse
  split
  · rfl
  · exact dbWriteEndorse_toplist ..

theorem updateRanking_toplist : (s.updateRanking c).2.toplist = s.toplist := by
  unfold updateRanking
  dsimp only
  split
  · split
    · rfl
    · split
      · split
        · exact LocalUpdateEndorse_toplist
        · split
          · rw [dbWriteTime_toplist,LocalUpdateEndorse_toplist]
          · rw [dbWriteTime_toplist,LocalUpdateEndorse_toplist]
      · rfl
  · rfl

theorem EndorsementSystem_toplist (target : CPubKey) (CorruptedAction : Bool) :
    (s.EndorsementSystem rules c target CorruptedAction).2.toplist = s.toplist := by
  unfold EndorsementSystem
  dsimp only
  split
  · rfl
  · split
    · rfl
    · split
      · exact dbWriteEndorse_toplist ..
      · split <;> exact dbWriteEndorse_toplist ..

theorem AddPeer_frees (peer : CPubKey) :
    NoMore source 0 (s.toplist ++ [(peer,newPeerRate c)]) (s.AddPeer rules c peer).2.toplist := by
  unfold AddPeer
  dsimp only
  split
  · exact noMore_of_eq rfl
  · split
    · exact noMore_sort ..
    · exact noMore_of_eq rfl

theorem AddPeer_other {peer : CPubKey} (other : peer ≠ source) : NoMore source 0 s.toplist (s.AddPeer rules c peer).2.toplist := by
  refine NoMore.trans (noMore_of_eq ?_) (AddPeer_frees peer)
  rw [frees_append,frees_cons,if_neg other]
  exact List.append_nil _

/-- The counter after a filling. -/
def Filled (source : CPubKey) (list : tlist) : Prop := (frees source list).length ≤ 1 ∧ (frees source list).sum ≤ MAX_ENDORSEMENT_PER_UPDATE

theorem AddPeer_fills (missing : s.Find source = none) : Filled source (s.AddPeer rules c source).2.toplist := by
  have added := @AddPeer_frees source rules c s source
  have start : frees source (s.toplist ++ [(source,newPeerRate c)]) = [5] := by
    rw [frees_append,frees_nil_of_absent (Find_eq_none missing),frees_cons,if_pos rfl]
    rfl
  constructor
  · have := added.records
    rw [start] at this
    exact this
  · have := added.left
    rw [start] at this
    exact this

theorem Clean_frees (pr : PeerRate) : NoMore source 0 s.toplist (s.Clean c pr).2.toplist := by
  unfold Clean
  split
  · split
    · exact noMore_eraseIdx ..
    · exact noMore_of_eq rfl
  · exact noMore_of_eq rfl

theorem StandardRateGain_frees (pr : PeerRate) : (StandardRateGain rules c pr).freeEndorsement = pr.freeEndorsement := by
  unfold StandardRateGain
  split
  · split <;> rfl
  · split <;> rfl

/-- What a record needs for `Refresh` to fill it up: none is there, or it is old enough. -/
def NeedsFilling (c : Circumstances) (s : srges) (peer : CPubKey) : Bool :=
  match s.Find peer with
  | none => true
  | some (_,pr) => Due c pr

theorem Clean_of_due {pr : PeerRate} (due : Due c pr = true) : s.Clean c pr = (false,s) := by
  have young : ¬c.GetAdjustedTime-pr.lastseen > UNIXTIME_DAY := by
    simp only [Due,Bool.and_eq_true,decide_eq_true_eq] at due
    omega
  rw [Clean,if_neg young]

theorem Refresh_idle {peer : CPubKey} (idle : peer = source → s.NeedsFilling c peer = false) :
    NoMore source 0 s.toplist (s.Refresh rules c peer).2.toplist := by
  unfold Refresh
  unfold NeedsFilling at idle
  dsimp only
  split
  next missing =>
    refine AddPeer_other fun same => ?_
    have := idle same
    rw [missing] at this
    contradiction
  next place pr found =>
    split
    · exact Clean_frees pr
    · split
      next due =>
        rw [Clean_of_due due]
        have other : peer ≠ source := by
          intro same
          have := idle same
          rw [found] at this
          exact absurd (due.symm.trans this) (by decide)
        obtain ⟨rest,was,is⟩ := frees_modify found fun pr =>
          {StandardRateGain rules c pr with freeEndorsement := MAX_ENDORSEMENT_PER_UPDATE}
        apply noMore_of_eq
        rw [is,was,if_neg other,if_neg other]
      · exact Clean_frees pr

theorem Refresh_fills (single : (frees source s.toplist).length ≤ 1) (needs : s.NeedsFilling c source = true) :
    Filled source (s.Refresh rules c source).2.toplist := by
  unfold Refresh
  unfold NeedsFilling at needs
  dsimp only
  split
  next missing => exact AddPeer_fills missing
  next place pr found =>
    rw [found] at needs
    dsimp only at needs
    rw [Clean_of_due needs,if_neg Bool.false_ne_true,if_pos needs]
    obtain ⟨rest,was,is⟩ := frees_modify found fun pr =>
      {StandardRateGain rules c pr with freeEndorsement := MAX_ENDORSEMENT_PER_UPDATE}
    rw [if_pos rfl] at was is
    obtain rfl : rest = [] := by
      rw [was,List.length_cons] at single
      exact List.length_eq_zero_iff.mp (by omega)
    rw [Filled,is]
    exact ⟨le_refl _,le_refl _⟩

/-- An endorsement takes one from its source, whether it is accepted in the end or not. -/
theorem ProcessEndorse_frees {target peer : CPubKey} {value : UInt8} {vchSig : List UInt8} {accepted : Bool} {s' : srges}
    (processed : s.ProcessEndorse rules c target peer value vchSig = some (accepted,s')) :
    NoMore source (if accepted = true ∧ peer = source then 1 else 0) s.toplist s'.toplist := by
  have unchanged : NoMore source (if false = true ∧ peer = source then 1 else 0) s.toplist s.toplist := by
    rw [if_neg (by simp)]
    exact noMore_of_eq rfl
  unfold ProcessEndorse at processed
  dsimp only at processed
  split at processed
  · cases processed
    exact unchanged
  split at processed
  · contradiction
  next message _ =>
  split at processed
  · cases processed
    exact unchanged
  split at processed
  next targetPlace _ sourcePlace sourcePr foundTarget found =>
    split at processed
    · cases processed
      exact unchanged
    next left =>
    split at processed
    · cases processed
      exact unchanged
    split at processed
    · contradiction
    generalize first : s.modify sourcePlace (fun pr => {pr with freeEndorsement := pr.freeEndorsement-1}) = s1 at processed
    generalize second : s1.modify targetPlace _ = s2 at processed
    have same : s'.toplist = s2.toplist := by
      split at processed
      · cases processed
        rfl
      · split at processed
        · cases processed
          rfl
        · have written := congrArg (fun r : Bool × srges => r.2.toplist) (Option.some.inj processed)
          rw [← written]
          exact dbWriteTime_toplist ..
    have rated : NoMore source 0 s1.toplist s2.toplist := by
      rw [← second]
      exact noMore_modify s1 targetPlace fun _ => rfl
    obtain ⟨rest,was,is⟩ := @frees_modify source s peer sourcePlace sourcePr found fun pr => {pr with freeEndorsement := pr.freeEndorsement-1}
    rw [first] at is
    have spent : NoMore source (if accepted = true ∧ peer = source then 1 else 0) s.toplist s1.toplist := by
      by_cases mine : peer = source
      · rw [if_pos mine] at was is
        constructor
        · rw [was,is,List.length_cons,List.length_cons]
        · rw [was,is,List.sum_cons,List.sum_cons]
          show sourcePr.freeEndorsement-1+rest.sum+_ ≤ _
          split <;> omega
      · rw [if_neg mine] at was is
        rw [if_neg fun both => mine both.2]
        exact noMore_of_eq (is.trans was.symm)
    rw [same]
    exact spent.trans rated
  · cases processed
    exact unchanged

/-- When a call fills up the counter of the source. -/
def Fills (c : Circumstances) (s : srges) (source : CPubKey) : SrgesCall → Bool
  | .AddPeer peer => peer == source
  | .Refresh peer => peer == source && s.NeedsFilling c peer
  | .IsAffidable peer => peer == source && !peer.isEmpty && (s.updateRanking c).1 && s.NeedsFilling c peer
  | _ => false

theorem Find_congr {s s' : srges} (same : s'.toplist = s.toplist) (peer : CPubKey) : s'.Find peer = s.Find peer := by
  rw [Find,Find,same]

theorem IsAffidable_cases {peer : CPubKey} {answer : Bool} {s' : srges} (asked : s.IsAffidable rules c peer = some (answer,s')) :
    s'.toplist = s.toplist ∨
    peer.isEmpty = false ∧ (s.updateRanking c).1 = true ∧ s'.toplist = ((s.updateRanking c).2.Refresh rules c peer).2.toplist := by
  unfold IsAffidable at asked
  dsimp only at asked
  split at asked
  · cases asked
    exact .inl rfl
  next valid =>
    split at asked
    · cases asked
      exact .inl updateRanking_toplist
    next goes =>
      generalize (if (s.updateRanking c).2.FindRank peer > 3 then (s.updateRanking c).2.FindRank peer-1 else 0) = place at asked
      split at asked
      · contradiction
      · cases asked
        exact .inr ⟨Bool.eq_false_of_not_eq_true valid,Bool.eq_true_of_not_eq_false goes,rfl⟩

/-- What a call does to the counter of the source: it leaves it, takes one off for an
    endorsement, or fills it up. -/
theorem act_cases (single : (frees source s.toplist).length ≤ 1) {call : SrgesCall} {accepted : Option CPubKey} {s' : srges}
    (acts : s.act rules c call = some (accepted,s')) :
    NoMore source (if accepted = some source then 1 else 0) s.toplist s'.toplist ∨
    (accepted = none ∧ s.Fills c source call = true ∧ ((call = .AddPeer source → s.Find source = none) → Filled source s'.toplist)) := by
  cases call with
  | AddPeer peer =>
    cases acts
    by_cases mine : peer = source
    · subst mine
      exact .inr ⟨rfl,by simp [Fills],fun fresh => AddPeer_fills (fresh rfl)⟩
    · exact .inl (AddPeer_other mine)
  | Clean peer =>
    cases acts
    left
    show NoMore source 0 s.toplist _
    split
    · exact Clean_frees _
    · exact noMore_of_eq rfl
  | StandardRateGain peer =>
    cases acts
    left
    show NoMore source 0 s.toplist _
    split
    · exact noMore_modify s _ StandardRateGain_frees
    · exact noMore_of_eq rfl
  | Refresh peer =>
    cases acts
    by_cases fills : peer = source ∧ s.NeedsFilling c peer = true
    · obtain ⟨rfl,needs⟩ := fills
      exact .inr ⟨rfl,by simp [Fills,needs],fun _ => Refresh_fills single needs⟩
    · exact .inl (Refresh_idle fun mine => Bool.eq_false_of_not_eq_true fun needs => fills ⟨mine,needs⟩)
  | IsAffidable peer =>
    obtain ⟨⟨answer,after⟩,asked,same⟩ := Option.map_eq_some_iff.mp acts
    obtain ⟨rfl,rfl⟩ : none = accepted ∧ after = s' := by simpa using same
    rcases IsAffidable_cases asked with unchanged | ⟨valid,goes,refreshed⟩
    · exact .inl (noMore_of_eq (by rw [unchanged]))
    · have sameNeeds : (s.updateRanking c).2.NeedsFilling c peer = s.NeedsFilling c peer := by
        rw [NeedsFilling,NeedsFilling,Find_congr updateRanking_toplist]
      rw [refreshed]
      rw [← @updateRanking_toplist c s] at single
      by_cases fills : peer = source ∧ s.NeedsFilling c peer = true
      · obtain ⟨rfl,needs⟩ := fills
        exact .inr ⟨rfl,by simpa [Fills,goes,needs] using valid,fun _ => Refresh_fills single (sameNeeds.trans needs)⟩
      · left
        show NoMore source 0 s.toplist _
        rw [← @updateRanking_toplist c s]
        apply Refresh_idle
        intro mine
        rw [sameNeeds]
        exact Bool.eq_false_of_not_eq_true fun needs => fills ⟨mine,needs⟩
  | LocalUpdateEndorse =>
    cases acts
    exact .inl (noMore_of_eq (by rw [LocalUpdateEndorse_toplist]))
  | EndorsementSystem target CorruptedAction =>
    cases acts
    exact .inl (noMore_of_eq (by rw [EndorsementSystem_toplist]))
  | ProcessEndorse target peer value vchSig =>
    obtain ⟨⟨answer,after⟩,processed,same⟩ := Option.map_eq_some_iff.mp acts
    obtain ⟨rfl,rfl⟩ : (if answer then some peer else none) = accepted ∧ after = s' := by simpa using same
    have spent := @ProcessEndorse_frees source rules c s target peer value vchSig answer after processed
    left
    cases answer <;> simpa using spent
  | endorse me target peer value vchSig =>
    obtain ⟨⟨⟨_,answer⟩,after⟩,received,same⟩ := Option.map_eq_some_iff.mp acts
    obtain ⟨rfl,rfl⟩ : (if answer then some peer else none) = accepted ∧ after = s' := by simpa using same
    unfold receiveEndorse at received
    left
    split at received
    · cases received
      exact noMore_of_eq rfl
    · obtain ⟨⟨taken,last⟩,processed,same⟩ := Option.map_eq_some_iff.mp received
      obtain ⟨rfl,rfl⟩ : taken = answer ∧ last = after := by
        simp only [Prod.mk.injEq] at same
        exact ⟨same.1.2,same.2⟩
      have spent := @ProcessEndorse_frees source rules c s target peer value vchSig taken last processed
      cases taken <;> simpa using spent

/-! ### Runs -/

/-- A filling comes a minute or more after the last endorsement, and makes no second record. -/
def Proper (source : CPubKey) (c : Circumstances) (s : srges) (log : List (CPubKey × Int)) (call : SrgesCall) : Bool :=
  !s.Fills c source call || (match call with | .AddPeer _ => (s.Find source).isNone | _ => true) &&
    (acceptedFrom source log).all fun t => decide (t+UNIXTIME_MINUTE ≤ c.GetAdjustedTime)

/-- Every call of a run is proper. -/
def Timely (rules : SrgesRules) (source : CPubKey) (s : srges) (log : List (CPubKey × Int)) : List SrgesEvent → Bool
  | [] => true
  | (c,call) :: events =>
    Proper source c s log call &&
      match s.act rules c call with
      | none => true
      | some (some peer,s) => Timely rules source s ((peer,c.GetAdjustedTime) :: log) events
      | some (none,s) => Timely rules source s log events

/-- What every call of a proper run keeps: one record at most, and its counter accounts
    for the endorsements. -/
structure Counted (source : CPubKey) (now : Int) (s : srges) (log : List (CPubKey × Int)) : Prop where
  single : (frees source s.toplist).length ≤ 1
  metered : Metered MAX_ENDORSEMENT_PER_UPDATE UNIXTIME_MINUTE now (acceptedFrom source log) (frees source s.toplist).sum

theorem acceptedFrom_cons (entry : CPubKey × Int) (log : List (CPubKey × Int)) :
    acceptedFrom source (entry :: log) = if entry.1 = source then entry.2 :: acceptedFrom source log else acceptedFrom source log := by
  by_cases mine : entry.1 = source <;> simp [acceptedFrom,mine]

theorem Counted.act {now : Int} {log : List (CPubKey × Int)} (counted : Counted source now s log) (on : now ≤ c.GetAdjustedTime)
    {call : SrgesCall} (proper : Proper source c s log call = true) {accepted : Option CPubKey} {s' : srges}
    (acts : s.act rules c call = some (accepted,s')) :
    Counted source c.GetAdjustedTime s' (match accepted with | some peer => (peer,c.GetAdjustedTime) :: log | none => log) := by
  rcases act_cases counted.single acts with less | ⟨rfl,fills,filled⟩
  · refine ⟨less.records.trans counted.single,?_⟩
    have fewer := less.left
    cases accepted with
    | none => exact counted.metered.less on fewer
    | some peer =>
      rw [acceptedFrom_cons]
      by_cases mine : peer = source
      · rw [if_pos mine]
        rw [if_pos (congrArg some mine)] at fewer
        exact counted.metered.use on fewer
      · rw [if_neg mine]
        exact counted.metered.less on (le_of_add_le_left fewer)
  · simp only [Proper,fills,Bool.not_true,Bool.false_or,Bool.and_eq_true,List.all_eq_true,decide_eq_true_eq] at proper
    obtain ⟨fresh,late⟩ := proper
    obtain ⟨single,limit⟩ := filled fun adds => by
      rw [adds] at fresh
      exact Option.isNone_iff_eq_none.mp fresh
    exact ⟨single,counted.metered.fill limit late⟩

theorem Counted.run {events : List SrgesEvent} {now : Int} {log : List (CPubKey × Int)} (counted : Counted source now s log)
    (clock : (now :: events.map fun event => event.1.GetAdjustedTime).Pairwise (· ≤ ·))
    (timely : Timely rules source s log events = true) {s' : srges} {log' : List (CPubKey × Int)}
    (ran : srges.run rules s log events = some (s',log')) : ∃ now', Counted source now' s' log' := by
  induction events generalizing s now log with
  | nil =>
    cases ran
    exact ⟨now,counted⟩
  | cons event events ih =>
    obtain ⟨c,call⟩ := event
    obtain ⟨before,later⟩ := List.pairwise_cons.mp clock
    have on : now ≤ c.GetAdjustedTime := before _ (List.mem_cons_self ..)
    rw [Timely,Bool.and_eq_true] at timely
    obtain ⟨proper,rest⟩ := timely
    rw [srges.run] at ran
    cases acts : s.act rules c call with
    | none =>
      rw [acts] at ran
      contradiction
    | some result =>
      obtain ⟨accepted,s1⟩ := result
      rw [acts] at ran rest
      have next := counted.act on proper acts
      cases accepted with
      | none => exact ih next later rest ran
      | some peer => exact ih next later rest ran

/-- While time goes on, and each call that fills up the counter of a source comes a minute
    or more after its last endorsement, no minute has more than five of them. -/
theorem endorsements_sparse {start : srges} (empty : start.toplist = []) {events : List SrgesEvent}
    (clock : (events.map fun event => event.1.GetAdjustedTime).Pairwise (· ≤ ·))
    (timely : Timely rules source start [] events = true) {s' : srges} {log : List (CPubKey × Int)}
    (ran : srges.run rules start [] events = some (s',log)) (time : Int) :
    (window UNIXTIME_MINUTE time (acceptedFrom source log)).length ≤ MAX_ENDORSEMENT_PER_UPDATE := by
  have begins : ∃ now : Int, (now :: events.map fun event => event.1.GetAdjustedTime).Pairwise (· ≤ ·) := by
    cases events with
    | nil => exact ⟨0,by simp⟩
    | cons event events =>
      refine ⟨event.1.GetAdjustedTime,List.pairwise_cons.mpr ⟨?_,clock⟩⟩
      intro t member
      rcases List.mem_cons.mp member with rfl | later
      · exact le_refl _
      · exact (List.pairwise_cons.mp clock).1 t later
  obtain ⟨now,ordered⟩ := begins
  have counted : Counted source now start [] := by
    constructor
    · simp [empty,frees]
    · rw [empty]
      exact metered_start now (Nat.zero_le _)
  obtain ⟨_,last⟩ := counted.run ordered timely ran
  exact last.metered.sparse time

end

/-! ### Two runs -/

/-- Every signature is good, and nothing is computed. -/
def plainRules : SrgesRules where
  Hash := List.length
  Verify := fun _ _ _ => true
  srgCurve := fun _ => 0
  addDouble := fun rate share => rate+share
  endorsement := fun _ _ => 0
  sort := id
  sort_perm := List.Perm.refl

private def sourcePeer : CPubKey := 2 :: List.replicate 32 1
private def targetPeer : CPubKey := 3 :: List.replicate 32 1

private def opened : srges := (({} : srges).Init {GetAdjustedTime := 0}).2

private def seen (time : Int) (peer : CPubKey) : SrgesEvent := ({GetAdjustedTime := time},.Refresh peer)
private def endorsedAt (time : Int) : SrgesEvent := ({GetAdjustedTime := time,wr := 1},.ProcessEndorse targetPeer sourcePeer 201 [])

private def burst : List SrgesEvent :=
  [seen 0 sourcePeer,seen 0 targetPeer,endorsedAt 30,seen 61 sourcePeer] ++ List.replicate 5 (endorsedAt 61) ++ [seen 61 sourcePeer,endorsedAt 61]

private def spread : List SrgesEvent :=
  [seen 0 sourcePeer,seen 0 targetPeer] ++ List.replicate 5 (endorsedAt 30) ++ [seen 90 sourcePeer,endorsedAt 90]

/-- Nothing moves the time of the last update, so every refresh after the first minute
    fills the counter up again. -/
theorem endorsements_exceed :
    ∃ s log, run plainRules opened [] burst = some (s,log) ∧
      (window UNIXTIME_MINUTE 61 (acceptedFrom sourcePeer log)).length = MAX_ENDORSEMENT_PER_UPDATE+1 := by
  have ran : (run plainRules opened [] burst).map (fun r => (window UNIXTIME_MINUTE 61 (acceptedFrom sourcePeer r.2)).length) = some 6 := by
    decide +kernel
  obtain ⟨⟨s,log⟩,result,counted⟩ := Option.map_eq_some_iff.mp ran
  exact ⟨s,log,result,counted⟩

theorem endorsements_sparse_sample :
    ∃ s log, run plainRules opened [] spread = some (s,log) ∧ (acceptedFrom sourcePeer log).length = 6 ∧
      (window UNIXTIME_MINUTE 30 (acceptedFrom sourcePeer log)).length ≤ MAX_ENDORSEMENT_PER_UPDATE := by
  have ran : (run plainRules opened [] spread).map (fun r => (acceptedFrom sourcePeer r.2).length) = some 6 := by decide +kernel
  obtain ⟨⟨s,log⟩,result,counted⟩ := Option.map_eq_some_iff.mp ran
  have clock : (spread.map fun event => event.1.GetAdjustedTime).Pairwise (· ≤ ·) := by decide +kernel
  exact ⟨s,log,result,counted,endorsements_sparse rfl clock (by decide +kernel) result 30⟩

end Tetra.srges
