import Mathlib
import Tetra.Endorsements

/-!
What `ProcessEndorse` does to the list of the peers: how an endorsement is weighed, what
is written to the two records, and what is left when the database says no afterwards.
-/
namespace Tetra.srges

/-! ### The steps of an endorsement -/

/-- The rates are added to what `WholeRate` held. -/
def WholeRate (s : srges) (WholeRate : Int) : Int := s.toplist.foldl (fun wr record => wr+record.2.rate) WholeRate

/-- `wr` is what the memory of the sum held. No result where it divides by zero. -/
def OnWholeRate (s : srges) (wr : Int) (peer : PeerRate) : Option Int :=
  if s.WholeRate wr = 0 then none else some (peer.rate.tdiv (s.WholeRate wr))

/-- An endorsement that `ProcessEndorse` goes on to weigh. -/
structure Weighed (rules : SrgesRules) (s : srges) (target source : CPubKey) (value : UInt8) (vchSig : List UInt8)
    (targetPlace sourcePlace : Nat) (sourcePr : PeerRate) : Prop where
  valid : (source.isEmpty || target.isEmpty) = false
  signed : ∃ message, endorseMessage target source value = some message ∧ rules.Verify source (rules.Hash message) vchSig = true
  foundTarget : ∃ targetPr, s.Find target = some (targetPlace,targetPr)
  foundSource : s.Find source = some (sourcePlace,sourcePr)
  left : 0 < sourcePr.freeEndorsement
  ranked : ¬ (s.FindRank source > 3 ∧ sourcePr.rate < SECOND_LVL)

/-- The two records after an endorsement. -/
def endorsed (rules : SrgesRules) (s : srges) (targetPlace sourcePlace : Nat) (percentage : Int) (value : UInt8) : srges :=
  let s := s.modify sourcePlace fun pr => {pr with freeEndorsement := pr.freeEndorsement-1}
  let percentage := percentage*((value.toNat : Int)-101).tdiv 100
  s.modify targetPlace fun pr => {pr with rate := rules.addDouble pr.rate (percentage*MAX_ENDORSEMENT_RATE_VALUE)}

/-- The last part of `ProcessEndorse`, after the records were changed. -/
def storeRank (c : Circumstances) (s : srges) : Bool × srges :=
  match s.dbReadTime c "timerank" with
  | none => (false,s)
  | some age =>
    if c.GetAdjustedTime-age > UNIXTIME_MINUTE ∧ s.Rank c = false then (false,s)
    else s.dbWriteTime c "timerank" c.GetAdjustedTime

/-- Whether the database answers, and the ranking is not old or can be read. -/
def Stores (c : Circumstances) (s : srges) : Bool :=
  match s.dbReadTime c "timerank" with
  | none => false
  | some age => !(decide (c.GetAdjustedTime-age > UNIXTIME_MINUTE) && !s.Rank c) && c.database

section
variable {rules : SrgesRules} {c : Circumstances} {s : srges} {target source : CPubKey} {value : UInt8} {vchSig : List UInt8}

theorem storeRank_toplist : (s.storeRank c).2.toplist = s.toplist := by
  unfold storeRank
  split
  · rfl
  · split
    · rfl
    · exact dbWriteTime_toplist ..

theorem storeRank_stores : (s.storeRank c).1 = s.Stores c := by
  unfold storeRank Stores
  cases s.dbReadTime c "timerank" with
  | none => rfl
  | some age =>
    dsimp only
    by_cases old : c.GetAdjustedTime-age > UNIXTIME_MINUTE ∧ s.Rank c = false
    · rw [if_pos old]
      simp [old.1,old.2]
    · rw [if_neg old,dbWriteTime,write]
      cases answers : c.database <;> cases ranks : s.Rank c <;> simp_all

/-- The rest of the call once the endorsement is weighed. -/
theorem ProcessEndorse_weighed {targetPlace sourcePlace : Nat} {sourcePr : PeerRate}
    (weighed : Weighed rules s target source value vchSig targetPlace sourcePlace sourcePr) :
    s.ProcessEndorse rules c target source value vchSig =
      (s.OnWholeRate c.wr sourcePr).map fun percentage => (s.endorsed rules targetPlace sourcePlace percentage value).storeRank c := by
  obtain ⟨valid,⟨message,fits,verified⟩,⟨targetPr,foundTarget⟩,foundSource,left,ranked⟩ := weighed
  unfold ProcessEndorse OnWholeRate WholeRate
  rw [if_neg (by rw [valid]; decide),fits]
  dsimp only
  rw [if_neg (by rw [verified]; decide),foundTarget,foundSource]
  dsimp only
  rw [if_neg (by omega),if_neg ranked]
  generalize s.toplist.foldl (fun wr record => wr+record.2.rate) c.wr = wr
  by_cases zero : wr = 0
  · rw [if_pos zero,if_pos zero]
    rfl
  · rw [if_neg zero,if_neg zero,Option.map_some]
    unfold storeRank endorsed
    dsimp only
    generalize ((s.modify sourcePlace _).modify targetPlace _ : srges) = updated
    cases updated.dbReadTime c "timerank" with
    | none => rfl
    | some age =>
      dsimp only
      split <;> rfl

/-- What is not weighed is refused, and leaves everything as it was. -/
theorem ProcessEndorse_refused (refused : ∀ targetPlace sourcePlace sourcePr,
      ¬ Weighed rules s target source value vchSig targetPlace sourcePlace sourcePr)
    {accepted : Bool} {s' : srges} (processed : s.ProcessEndorse rules c target source value vchSig = some (accepted,s')) :
    accepted = false ∧ s' = s := by
  have unchanged : some (false,s) = some (accepted,s') → accepted = false ∧ s' = s := by
    intro same
    obtain ⟨rfl,rfl⟩ := Prod.mk.inj (Option.some.inj same)
    exact ⟨rfl,rfl⟩
  unfold ProcessEndorse at processed
  dsimp only at processed
  split at processed
  · exact unchanged processed
  next valid =>
  split at processed
  · contradiction
  next message fits =>
  split at processed
  · exact unchanged processed
  next verified =>
  split at processed
  next targetPlace targetPr sourcePlace sourcePr foundTarget foundSource =>
    split at processed
    · exact unchanged processed
    next left =>
    split at processed
    · exact unchanged processed
    next ranked =>
      exact absurd ⟨Bool.eq_false_of_not_eq_true valid,⟨message,fits,Bool.eq_true_of_not_eq_false verified⟩,⟨targetPr,foundTarget⟩,foundSource,
        by omega,ranked⟩ (refused targetPlace sourcePlace sourcePr)
  · exact unchanged processed

/-! ### The two records -/

/-- What the claim of an update looks at: the order of the peers, their rates and counters. -/
def shown (list : tlist) : List (CPubKey × Int × Nat) := list.map fun record => (record.1,record.2.rate,record.2.freeEndorsement)

/-- The source has one endorsement less, and at most the rate of the target is another one. -/
structure Endorses (s : srges) (target source : CPubKey) (after : tlist) : Prop where
  order : after.map Prod.fst = s.toplist.map Prod.fst
  counters : ∃ place pr, s.Find source = some (place,pr) ∧ 0 < pr.freeEndorsement ∧
    after.map (·.2.freeEndorsement) = (s.toplist.map (·.2.freeEndorsement)).modify place (· - 1)
  rates : ∃ place pr, s.Find target = some (place,pr) ∧ ∀ i, i ≠ place → (after.map (·.2.rate))[i]? = (s.toplist.map (·.2.rate))[i]?

theorem modify_map {β : Type} (s : srges) (place : Nat) {f : PeerRate → PeerRate} {g : PeerRecord → β}
    (kept : ∀ record : PeerRecord, g (record.1,f record.2) = g record) : (s.modify place f).toplist.map g = s.toplist.map g := by
  have same : ∀ (list : tlist) place, (list.modify place fun record => (record.1,f record.2)).map g = list.map g := by
    intro list
    induction list with
    | nil => simp
    | cons record rest ih => intro place; cases place <;> simp [kept,ih]
  exact same s.toplist place

theorem modify_frees (s : srges) (place : Nat) :
    (s.modify place fun pr => {pr with freeEndorsement := pr.freeEndorsement-1}).toplist.map (·.2.freeEndorsement) =
      (s.toplist.map (·.2.freeEndorsement)).modify place (· - 1) := by
  have same : ∀ (list : tlist) place,
      (list.modify place fun record => (record.1,{record.2 with freeEndorsement := record.2.freeEndorsement-1})).map (·.2.freeEndorsement) =
        (list.map (·.2.freeEndorsement)).modify place (· - 1) := by
    intro list
    induction list with
    | nil => simp
    | cons record rest ih => intro place; cases place <;> simp [ih]
  exact same s.toplist place

theorem modify_other (s : srges) {place i : Nat} (f : PeerRate → PeerRate) (other : i ≠ place) :
    (s.modify place f).toplist[i]? = s.toplist[i]? := List.getElem?_modify_ne _ _ (Ne.symm other)

/-- An endorsement changes just what it should. -/
theorem endorses {targetPlace sourcePlace : Nat} {sourcePr : PeerRate}
    (weighed : Weighed rules s target source value vchSig targetPlace sourcePlace sourcePr) (percentage : Int) :
    Endorses s target source (s.endorsed rules targetPlace sourcePlace percentage value).toplist := by
  obtain ⟨targetPr,foundTarget⟩ := weighed.foundTarget
  refine ⟨?_,⟨sourcePlace,sourcePr,weighed.foundSource,weighed.left,?_⟩,⟨targetPlace,targetPr,foundTarget,fun i other => ?_⟩⟩
  · exact (modify_map (s.modify ..) targetPlace fun _ => rfl).trans (modify_map s sourcePlace fun _ => rfl)
  · exact (modify_map (s.modify ..) targetPlace fun _ => rfl).trans (modify_frees s sourcePlace)
  · have counted := @modify_map Int s sourcePlace (fun pr => {pr with freeEndorsement := pr.freeEndorsement-1}) (·.2.rate) fun _ => rfl
    rw [List.getElem?_map,← counted,List.getElem?_map]
    exact congrArg _ (modify_other _ _ other)

theorem not_shown_of_endorses {after : tlist} (done : Endorses s target source after) : shown after ≠ shown s.toplist := by
  intro same
  obtain ⟨place,pr,found,left,counters⟩ := done.counters
  have frees : after.map (·.2.freeEndorsement) = s.toplist.map (·.2.freeEndorsement) := by
    have both := congrArg (List.map fun entry : CPubKey × Int × Nat => entry.2.2) same
    rw [shown,shown,List.map_map,List.map_map] at both
    exact both
  obtain ⟨a,b,listed,rfl,-⟩ := Find_eq_some found
  rw [counters,listed,List.map_append,List.map_cons] at frees
  have there := congrArg (fun list => list[a.length]?) frees
  simp at there
  omega

/-! ### All or nothing -/

/-- A call that returns has made all of the update, or nothing. -/
def Atomic (s : srges) (target source : CPubKey) (result : Option (Bool × srges)) : Prop :=
  ∀ accepted s', result = some (accepted,s') →
    if accepted then Endorses s target source s'.toplist else shown s'.toplist = shown s.toplist

theorem endorsed_Stores (targetPlace sourcePlace : Nat) (percentage : Int) :
    (s.endorsed rules targetPlace sourcePlace percentage value).Stores c = s.Stores c := rfl

/-- The call is all or nothing just when an endorsement that is weighed is also stored. -/
theorem ProcessEndorse_atomic_iff (rules : SrgesRules) (c : Circumstances) (s : srges) (target source : CPubKey) (value : UInt8) (vchSig : List UInt8) :
    s.Atomic target source (s.ProcessEndorse rules c target source value vchSig) ↔
      ((∃ targetPlace sourcePlace sourcePr, Weighed rules s target source value vchSig targetPlace sourcePlace sourcePr) →
        s.WholeRate c.wr ≠ 0 → s.Stores c = true) := by
  by_cases weighs : ∃ targetPlace sourcePlace sourcePr, Weighed rules s target source value vchSig targetPlace sourcePlace sourcePr
  · obtain ⟨targetPlace,sourcePlace,sourcePr,weighed⟩ := weighs
    rw [Atomic,ProcessEndorse_weighed weighed,OnWholeRate]
    by_cases zero : s.WholeRate c.wr = 0
    · rw [if_pos zero]
      exact ⟨fun _ _ some => absurd zero some,fun _ _ _ absent => absurd absent (by simp)⟩
    rw [if_neg zero,Option.map_some]
    have update := endorses weighed (sourcePr.rate.tdiv (s.WholeRate c.wr))
    generalize updates : s.endorsed rules targetPlace sourcePlace (sourcePr.rate.tdiv (s.WholeRate c.wr)) value = updated at update ⊢
    have stores : (updated.storeRank c).1 = s.Stores c := by
      rw [storeRank_stores,← updates,endorsed_Stores]
    have kept : (updated.storeRank c).2.toplist = updated.toplist := storeRank_toplist
    generalize updated.storeRank c = result at stores kept ⊢
    obtain ⟨stored,last⟩ := result
    dsimp only at stores kept
    subst stores
    constructor
    · intro atomic _ _
      by_contra fails
      have returned := atomic _ _ rfl
      rw [if_neg fails,kept] at returned
      exact not_shown_of_endorses update returned
    · intro stored accepted s' returned
      obtain ⟨rfl,rfl⟩ := Prod.mk.inj (Option.some.inj returned)
      rw [if_pos (stored ⟨_,_,_,weighed⟩ zero),kept]
      exact update
  · refine ⟨fun _ some => absurd some weighs,fun _ accepted s' processed => ?_⟩
    obtain ⟨rfl,rfl⟩ := ProcessEndorse_refused (fun t u pr weighed => weighs ⟨t,u,pr,weighed⟩) processed
    rw [if_neg Bool.false_ne_true]

/-! ### The weight -/

/-- The sum of the rates of all peers. -/
def rates (s : srges) : Int := (s.toplist.map (·.2.rate)).sum

/-- The weight depends on nothing that was not set, is there, and is the source's share. -/
structure WellDefined (s : srges) (sourcePr : PeerRate) : Prop where
  initialised : ∀ wr wr', s.OnWholeRate wr sourcePr = s.OnWholeRate wr' sourcePr
  divides : ∀ wr, ∃ percentage, s.OnWholeRate wr sourcePr = some percentage
  exact' : ∀ wr percentage, s.OnWholeRate wr sourcePr = some percentage → (percentage : ℚ) = sourcePr.rate/s.rates
  between : (∀ record ∈ s.toplist, 0 ≤ record.2.rate) → ∀ wr percentage, s.OnWholeRate wr sourcePr = some percentage →
    0 ≤ percentage ∧ percentage ≤ 1

theorem WholeRate_eq (s : srges) (wr : Int) : s.WholeRate wr = wr+s.rates := by
  have summed : ∀ (list : tlist) (wr : Int), list.foldl (fun wr record => wr+record.2.rate) wr = wr+(list.map (·.2.rate)).sum := by
    intro list
    induction list with
    | nil => simp
    | cons record rest ih =>
      intro wr
      rw [List.foldl_cons,ih,List.map_cons,List.sum_cons,add_assoc]
  exact summed s.toplist wr

theorem WholeRate_cancelled (s : srges) : s.WholeRate (-s.rates) = 0 := by rw [WholeRate_eq,neg_add_cancel]

/-- Any list can meet a memory that makes it divide by zero, so no weight is well defined. -/
theorem weight_undefined (s : srges) (sourcePr : PeerRate) : ¬ s.WellDefined sourcePr := by
  intro defined
  obtain ⟨percentage,weight⟩ := defined.divides (-s.rates)
  rw [OnWholeRate,if_pos s.WholeRate_cancelled] at weight
  contradiction

/-- No endorsement is safe from that. -/
theorem ProcessEndorse_divides_by_zero {targetPlace sourcePlace : Nat} {sourcePr : PeerRate}
    (weighed : Weighed rules s target source value vchSig targetPlace sourcePlace sourcePr) :
    s.ProcessEndorse rules {c with wr := -s.rates} target source value vchSig = none := by
  rw [ProcessEndorse_weighed weighed,OnWholeRate,if_pos s.WholeRate_cancelled]
  rfl

/-- Where the memory held 0, the share is exact just when the sum divides the rate: the
    quotient is one of integers. -/
theorem OnWholeRate_zeroed_iff {sourcePr : PeerRate} (some' : s.rates ≠ 0) :
    (∃ percentage, s.OnWholeRate 0 sourcePr = some percentage ∧ (percentage : ℚ) = sourcePr.rate/s.rates) ↔ s.rates ∣ sourcePr.rate := by
  have whole : s.WholeRate 0 = s.rates := by rw [WholeRate_eq,zero_add]
  have nonzero : (s.rates : ℚ) ≠ 0 := by exact_mod_cast some'
  rw [OnWholeRate,whole,if_neg some']
  constructor
  · rintro ⟨percentage,-,share⟩
    rw [eq_div_iff nonzero] at share
    exact ⟨percentage,by rw [mul_comm]; exact_mod_cast share.symm⟩
  · rintro ⟨percentage,whole⟩
    refine ⟨percentage,?_,?_⟩
    · rw [whole,Int.mul_tdiv_cancel_left _ some']
    · rw [eq_div_iff nonzero,mul_comm]
      exact_mod_cast whole.symm

end

/-! ### Two peers -/

private def endorser : CPubKey := 2 :: List.replicate 32 3
private def endorsee : CPubKey := 3 :: List.replicate 32 3

/-- What the constructor and two calls of `AddPeer` make. -/
private def twoPeers : srges :=
  let c : Circumstances := {GetAdjustedTime := 0}
  (((({} : srges).Init c).2.AddPeer plainRules c endorser).2.AddPeer plainRules c endorsee).2

/-- After more than a minute the ranking is read, which is never there: the endorsement is
    refused, and counted. -/
theorem refused_but_counted :
    ¬ twoPeers.Atomic endorsee endorser (twoPeers.ProcessEndorse plainRules {GetAdjustedTime := 100,wr := 1} endorsee endorser 201 []) := by
  intro atomic
  have returned : (twoPeers.ProcessEndorse plainRules {GetAdjustedTime := 100,wr := 1} endorsee endorser 201 []).map
      (fun result => (result.1,shown result.2.toplist)) = some (false,[(endorser,0,4),(endorsee,0,5)]) := by decide +kernel
  obtain ⟨⟨accepted,s'⟩,processed,same⟩ := Option.map_eq_some_iff.mp returned
  obtain ⟨rfl,after⟩ := Prod.mk.inj same
  have kept : shown s'.toplist = shown twoPeers.toplist := by
    have whole := atomic _ _ processed
    rwa [if_neg Bool.false_ne_true] at whole
  exact absurd (kept.symm.trans after) (by decide +kernel)

/-- New peers have no rates: with a memory of 0 there is nothing to divide by. -/
theorem newcomers_divide_by_zero : twoPeers.OnWholeRate 0 ⟨0,0,0,0,5,0⟩ = none ∧ ¬ twoPeers.WellDefined ⟨0,0,0,0,5,0⟩ := by
  have zero : twoPeers.OnWholeRate 0 ⟨0,0,0,0,5,0⟩ = none := by decide +kernel
  refine ⟨zero,fun defined => ?_⟩
  obtain ⟨percentage,weight⟩ := defined.divides 0
  exact absurd (zero.symm.trans weight) (by simp)

end Tetra.srges
