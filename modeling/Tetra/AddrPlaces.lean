import Mathlib
import Tetra.AddrCheck

/-!
A tried entry of the address manager is in the bucket that its address hashes to, after any
calls.
-/
namespace Tetra
open Maps

namespace CAddrMan

/-- Each tried entry is in the bucket of its address. -/
def Placed (rules : AddrRules) (s : CAddrMan) : Prop :=
  ∀ b, ∀ nId ∈ s.vvTried b, ∀ info, s.mapInfo[nId]? = some info → info.GetTriedBucket rules = b

/-- Nothing comes into a tried bucket, and no entry gets another address. -/
structure Keeps (s s' : CAddrMan) : Prop where
  tried : ∀ b, ∀ nId ∈ s'.vvTried b, nId ∈ s.vvTried b
  infos : ∀ (nId : Int) info', s'.mapInfo[nId]? = some info' → ∃ info, s.mapInfo[nId]? = some info ∧ info.toCService = info'.toCService

variable {rules : AddrRules} {s s' s'' : CAddrMan} {nId : Int} {info info' : CAddrInfo}

theorem bucket_eq (same : info.toCService = info'.toCService) : info.GetTriedBucket rules = info'.GetTriedBucket rules := by
  rw [CAddrInfo.GetTriedBucket,CAddrInfo.GetTriedBucket,same]

theorem Keeps.refl (s : CAddrMan) : Keeps s s := ⟨fun _ _ member => member,fun _ info' found => ⟨info',found,rfl⟩⟩

theorem Keeps.trans (first : Keeps s s') (second : Keeps s' s'') : Keeps s s'' := by
  constructor
  · intro b nId member
    exact first.tried b nId (second.tried b nId member)
  · intro nId info'' found
    obtain ⟨info',found',same'⟩ := second.infos nId info'' found
    obtain ⟨info,found,same⟩ := first.infos nId info' found'
    exact ⟨info,found,same.trans same'⟩

theorem Placed.keeps (placed : Placed rules s) (keeps : Keeps s s') : Placed rules s' := by
  intro b nId member info' found'
  obtain ⟨info,found,same⟩ := keeps.infos nId info' found'
  rw [← bucket_eq same]
  exact placed b nId (keeps.tried b nId member) info found

theorem placed_new : Placed rules {} := by
  intro b nId member
  contradiction

theorem infos_insert (found : s.mapInfo[nId]? = some info) {k : Int} {old : CAddrInfo} (there : (s.mapInfo.insert nId info')[k]? = some old)
    (same : info.toCService = info'.toCService) : ∃ info, s.mapInfo[k]? = some info ∧ info.toCService = old.toCService := by
  rcases insert_some_iff.mp there with ⟨rfl,rfl⟩ | ⟨_,there⟩
  · exact ⟨info,found,same⟩
  · exact ⟨old,there,rfl⟩

theorem keeps_setInfo (found : s.mapInfo[nId]? = some info) (same : info.toCService = info'.toCService) : Keeps s (s.setInfo nId info') :=
  ⟨fun _ _ member => member,fun _ _ there => infos_insert found there same⟩

/-! ### Calls that move no tried entry -/

theorem keeps_SwapRandom {p q : Nat} (ran : s.SwapRandom p q = .ok s') : Keeps s s' := by
  unfold SwapRandom at ran
  split at ran
  · obtain rfl := Except.ok.inj ran
    exact .refl s
  · split at ran
    next nId1 nId2 _ _ =>
      split at ran
      next info1 info2 found1 found2 =>
        obtain rfl := Except.ok.inj ran
        refine ⟨fun _ _ member => member,fun k info' found => ?_⟩
        rcases insert_some_iff.mp found with ⟨rfl,rfl⟩ | ⟨_,found⟩
        · exact ⟨info2,found2,rfl⟩
        · rcases insert_some_iff.mp found with ⟨rfl,rfl⟩ | ⟨_,there⟩
          · exact ⟨info1,found1,rfl⟩
          · exact ⟨info',there,rfl⟩
      · contradiction
      · contradiction
    · contradiction

theorem keeps_dropNew {b : NewBucket} (found : s.mapInfo[nId]? = some info) (ran : s.dropNew b nId info = .ok s') : Keeps s s' := by
  have counted := keeps_setInfo found (show info.toCService = ({info with nRefCount := info.nRefCount-1} : CAddrInfo).toCService from rfl)
  unfold dropNew at ran
  dsimp only at ran
  split at ran
  · split at ran
    · contradiction
    · split at ran
      · contradiction
      next t swapped =>
        obtain rfl := Except.ok.inj ran
        have both := counted.trans (keeps_SwapRandom swapped)
        refine ⟨both.tried,fun k info' there => both.infos k info' ?_⟩
        exact (erase_some_iff.mp there).2
  · obtain rfl := Except.ok.inj ran
    exact ⟨counted.tried,counted.infos⟩

theorem firstTerrible_found {now : Nat → Int} {ids : List Int} (looked : s.firstTerrible now ids = .ok (some (nId,info))) :
    s.mapInfo[nId]? = some info := by
  induction ids generalizing now with
  | nil => simp [firstTerrible] at looked
  | cons k rest ih =>
    unfold firstTerrible at looked
    split at looked
    · contradiction
    next there =>
      split at looked
      · obtain ⟨rfl,rfl⟩ := Prod.mk.inj (Option.some.inj (Except.ok.inj looked))
        exact there
      · exact ih looked

theorem map_ok {α β : Type} {x : Except Reject α} {f : α → β} {b : β} (ran : x.map f = .ok b) : ∃ a, x = .ok a ∧ f a = b := by
  cases x with
  | error e => contradiction
  | ok a => exact ⟨a,rfl,Except.ok.inj ran⟩

theorem keeps_ShrinkNew {b : NewBucket} {now : Nat → Int} {rand : Nat → Nat} {code : Nat} (ran : s.ShrinkNew b now rand = .ok (code,s')) :
    Keeps s s' := by
  unfold ShrinkNew at ran
  dsimp only at ran
  split at ran
  · contradiction
  next looked =>
    obtain ⟨t,dropped,same⟩ := map_ok ran
    obtain ⟨rfl,rfl⟩ := Prod.mk.inj same
    exact keeps_dropNew (firstTerrible_found looked) dropped
  · split at ran
    · contradiction
    · contradiction
    · split at ran
      · contradiction
      next there =>
        obtain ⟨t,dropped,same⟩ := map_ok ran
        obtain ⟨rfl,rfl⟩ := Prod.mk.inj same
        exact keeps_dropNew there dropped

theorem keeps_addToNew {source : CNetAddr} {now : Nat → Int} {rand : Nat → Nat} (found : s.mapInfo[nId]? = some info)
    (ran : s.addToNew rules nId info source now rand = .ok s') : Keeps s s' := by
  have counted := keeps_setInfo found (show info.toCService = ({info with nRefCount := info.nRefCount+1} : CAddrInfo).toCService from rfl)
  unfold addToNew at ran
  dsimp only at ran
  split at ran
  · obtain rfl := Except.ok.inj ran
    exact .refl s
  · split at ran
    · contradiction
    next t shrunk =>
      obtain rfl := Except.ok.inj ran
      have roomy : Keeps s t := by
        split at shrunk
        · exact counted.trans (keeps_ShrinkNew shrunk)
        · obtain ⟨_,rfl⟩ := Prod.mk.inj (Except.ok.inj shrunk)
          exact counted
      exact ⟨roomy.tried,roomy.infos⟩

theorem keeps_Attempt_ (addr : CService) (nTime : Int) : Keeps s (s.Attempt_ addr nTime) := by
  unfold Attempt_
  split
  · exact .refl s
  next looked =>
    split
    · exact .refl s
    · exact keeps_setInfo (Find_some looked) rfl

theorem keeps_Connected_ (addr : CService) (nTime : Int) : Keeps s (s.Connected_ addr nTime) := by
  unfold Connected_
  split
  · exact .refl s
  next looked =>
    split
    · exact .refl s
    · split
      · exact keeps_setInfo (Find_some looked) rfl
      · exact .refl s

theorem keeps_shuffled {rand : Nat → Nat} {turns n : Nat} {vAddr : List CAddress} (ran : shuffled rand turns n s = .ok (vAddr,s')) : Keeps s s' := by
  induction turns generalizing n s vAddr with
  | zero =>
    obtain ⟨_,rfl⟩ := Prod.mk.inj (Except.ok.inj ran)
    exact .refl s
  | succ turns ih =>
    unfold shuffled at ran
    split at ran
    · contradiction
    next t swapped =>
      split at ran
      · contradiction
      · obtain ⟨⟨rest,after⟩,next',same⟩ := map_ok ran
        obtain ⟨_,rfl⟩ := Prod.mk.inj same
        exact (keeps_SwapRandom swapped).trans (ih next')

/-! ### Calls that may move one -/

/-- The shuffle of a bucket brings nothing in. -/
theorem inspect_mem {rand : Nat → Nat} {turns i : Nat} {vTried shuffled : List Int} {found found' : Option (Int × Nat)}
    (ran : s.inspect rand turns i vTried found = .ok (shuffled,found')) {k : Int} (member : k ∈ shuffled) : k ∈ vTried := by
  induction turns generalizing i vTried found with
  | zero =>
    obtain ⟨rfl,_⟩ := Prod.mk.inj (Except.ok.inj ran)
    exact member
  | succ turns ih =>
    unfold inspect at ran
    split at ran
    · obtain ⟨rfl,_⟩ := Prod.mk.inj (Except.ok.inj ran)
      exact member
    · dsimp only at ran
      split at ran
      next nTemp first drawn head =>
        have shuffledIn : ∀ k ∈ (vTried.set (GetRandInt (vTried.length-i) (rand i)+i) first).set i nTemp, k ∈ vTried := by
          intro k inside
          rcases List.mem_or_eq_of_mem_set inside with inside | rfl
          · rcases List.mem_or_eq_of_mem_set inside with inside | rfl
            · exact inside
            · exact List.mem_of_getElem? head
          · exact List.mem_of_getElem? drawn
        apply shuffledIn
        split at ran
        · exact ih ran
        · split at ran
          · exact ih ran
          · contradiction
          · contradiction
      · contradiction

theorem keeps_SelectTried {b : TriedBucket} {rand : Nat → Nat} {nPos : Option Nat} (ran : s.SelectTried b rand = .ok (nPos,s')) : Keeps s s' := by
  unfold SelectTried at ran
  split at ran
  · contradiction
  next looked =>
    obtain ⟨_,rfl⟩ := Prod.mk.inj (Except.ok.inj ran)
    refine ⟨fun c k member => ?_,fun _ info' found => ⟨info',found,rfl⟩⟩
    by_cases here : c = b
    · subst here
      rw [show ({s with vvTried := Function.update s.vvTried c _} : CAddrMan).vvTried c = _ from Function.update_self ..] at member
      exact inspect_mem looked member
    · rwa [show ({s with vvTried := Function.update s.vvTried b _} : CAddrMan).vvTried c = _ from Function.update_of_ne here ..] at member

/-- One entry comes into its own bucket. -/
theorem Placed.bring {b : TriedBucket} (placed : Placed rules s) (found : s.mapInfo[nId]? = some info) (own : info.GetTriedBucket rules = b)
    (infos : ∀ (k : Int) info', s'.mapInfo[k]? = some info' → ∃ info, s.mapInfo[k]? = some info ∧ info.toCService = info'.toCService)
    (tried : ∀ c, ∀ k ∈ s'.vvTried c, k ∈ s.vvTried c ∨ c = b ∧ k = nId) : Placed rules s' := by
  intro c k member info' found'
  obtain ⟨old,there,same⟩ := infos k info' found'
  rw [← bucket_eq same]
  rcases tried c k member with before | ⟨rfl,rfl⟩
  · exact placed c k before old there
  · obtain rfl := Option.some.inj (found.symm.trans there)
    exact own

theorem Placed.replaceTried {nOrigin : NewBucket} {nPos : Nat} (placed : Placed rules s) (found : s.mapInfo[nId]? = some info)
    (ran : s.replaceTried rules info nId nOrigin (info.GetTriedBucket rules) nPos = .ok s') : Placed rules s' := by
  unfold CAddrMan.replaceTried at ran
  split at ran
  · contradiction
  next oldId _ =>
    split at ran
    · contradiction
    next infoOld there =>
      dsimp only at ran
      obtain rfl := Except.ok.inj ran
      have back := keeps_setInfo there (show infoOld.toCService = ({infoOld with fInTried := false,nRefCount := 1} : CAddrInfo).toCService from rfl)
      refine placed.bring found rfl ?_ ?_
      · intro k info' found'
        rcases insert_some_iff.mp found' with ⟨rfl,rfl⟩ | ⟨_,found'⟩
        · exact ⟨info,found,rfl⟩
        · exact back.infos k info' found'
      · intro c k member
        by_cases here : c = info.GetTriedBucket rules
        · subst here
          rw [show CAddrMan.vvTried _ _ = _ from Function.update_self ..] at member
          exact (List.mem_or_eq_of_mem_set member).imp_right fun same => ⟨rfl,same⟩
        · rw [show CAddrMan.vvTried _ c = _ from Function.update_of_ne here ..] at member
          exact .inl member

theorem Placed.toTried {nOrigin : NewBucket} {rand : Nat → Nat} (placed : Placed rules s) (found : s.mapInfo[nId]? = some info)
    (ran : s.toTried rules info nId nOrigin rand = .ok s') : Placed rules s' := by
  unfold CAddrMan.toTried at ran
  dsimp only at ran
  split at ran
  · obtain rfl := Except.ok.inj ran
    refine placed.bring found rfl (fun k old there => infos_insert found there rfl) ?_
    intro c k member
    by_cases here : c = info.GetTriedBucket rules
    · subst here
      rw [show CAddrMan.vvTried _ _ = _ from Function.update_self ..] at member
      exact (List.mem_append.mp member).imp_right fun last => ⟨rfl,List.mem_singleton.mp last⟩
    · rw [show CAddrMan.vvTried _ c = _ from Function.update_of_ne here ..] at member
      exact .inl member
  · split at ran
    · contradiction
    · contradiction
    next nPos t selected =>
      have keeps := keeps_SelectTried selected
      have unchanged : t.mapInfo = s.mapInfo := by
        unfold SelectTried at selected
        split at selected
        · contradiction
        · obtain ⟨_,rfl⟩ := Prod.mk.inj (Except.ok.inj selected)
          rfl
      exact (placed.keeps keeps).replaceTried (by rw [unchanged]; exact found) ran

theorem Placed.MakeTried {nOrigin : NewBucket} {rand : Nat → Nat} (placed : Placed rules s) (found : s.mapInfo[nId]? = some info)
    (ran : s.MakeTried rules info nId nOrigin rand = .ok s') : Placed rules s' := by
  unfold CAddrMan.MakeTried at ran
  split at ran
  · contradiction
  · dsimp only at ran
    split at ran
    · contradiction
    · refine Placed.toTried ?_ ?_ ran
      · exact placed.keeps ⟨fun _ _ member => member,fun k old there => infos_insert found there rfl⟩
      · exact insert_self _ _

theorem Placed.Good_ {addr : CService} {nTime : Int} {rand : Nat → Nat} (placed : Placed rules s) (ran : s.Good_ rules addr nTime rand = .ok s') :
    Placed rules s' := by
  unfold CAddrMan.Good_ at ran
  split at ran
  · obtain rfl := Except.ok.inj ran
    exact placed
  next nId info looked =>
    split at ran
    · obtain rfl := Except.ok.inj ran
      exact placed
    · dsimp only at ran
      have touched := placed.keeps (keeps_setInfo (Find_some looked)
        (show info.toCService = ({info with nLastSuccess := nTime,nLastTry := nTime,nTime := UInt32.ofInt nTime,nAttempts := 0} : CAddrInfo).toCService
          from rfl))
      split at ran
      · obtain rfl := Except.ok.inj ran
        exact touched
      · split at ran
        · obtain rfl := Except.ok.inj ran
          exact touched
        · exact touched.MakeTried (insert_self _ _) ran

/-- A new id is in no bucket. -/
theorem Linked.unplaced (linked : Linked s ∅ none) (b : TriedBucket) : s.nIdCount ∉ s.vvTried b := by
  intro member
  exact (linked.unheld linked.fresh).2 (Buckets.mem_pooled.mpr ⟨b,member⟩)

theorem Placed.Add_ {addr : CAddress} {source : CNetAddr} {nTimePenalty : Int} {now : Nat → Int} {rand : Nat → Nat} {fRet : Bool}
    (placed : Placed rules s) (linked : Linked s ∅ none) (ran : s.Add_ rules addr source nTimePenalty now rand = .ok (fRet,s')) :
    Placed rules s' := by
  unfold CAddrMan.Add_ at ran
  split at ran
  · obtain ⟨_,rfl⟩ := Prod.mk.inj (Except.ok.inj ran)
    exact placed
  · split at ran
    next nId info looked =>
      dsimp only at ran
      generalize timed : (if addr.nTime ≠ 0 ∧ (info.nTime = 0 ∨ (info.nTime.toNat : Int) < _) then _ else info) = info' at ran
      have same : info.toCService = ({info' with nServices := info'.nServices ||| addr.nServices} : CAddrInfo).toCService := by
        subst timed
        split_ifs <;> rfl
      have touched := placed.keeps (keeps_setInfo (Find_some looked) same)
      split at ran
      · obtain ⟨_,rfl⟩ := Prod.mk.inj (Except.ok.inj ran)
        exact touched
      · split at ran
        · obtain ⟨_,rfl⟩ := Prod.mk.inj (Except.ok.inj ran)
          exact touched
        · split at ran
          · obtain ⟨_,rfl⟩ := Prod.mk.inj (Except.ok.inj ran)
            exact touched
          · split at ran
            · obtain ⟨_,rfl⟩ := Prod.mk.inj (Except.ok.inj ran)
              exact touched
            · obtain ⟨t,added,same⟩ := map_ok ran
              obtain ⟨_,rfl⟩ := Prod.mk.inj same
              exact touched.keeps (keeps_addToNew (insert_self _ _) added)
    · dsimp only at ran
      obtain ⟨t,added,same⟩ := map_ok ran
      obtain ⟨_,rfl⟩ := Prod.mk.inj same
      refine Placed.keeps ?_ (keeps_addToNew (insert_self _ _) added)
      intro b k member info found
      rcases insert_some_iff.mp found with ⟨rfl,rfl⟩ | ⟨_,found⟩
      · exact absurd member (linked.unplaced b)
      · rcases insert_some_iff.mp found with ⟨rfl,rfl⟩ | ⟨_,found⟩
        · exact absurd member (linked.unplaced b)
        · exact placed b k member info found

theorem Placed.step {event : AddrEvent} (placed : Placed rules s) (linked : Linked s ∅ none) (ran : s.step rules event = .ok s') :
    Placed rules s' := by
  cases event with
  | Add_ addr source nTimePenalty now rand =>
    obtain ⟨⟨fRet,after⟩,added,rfl⟩ := map_ok ran
    exact placed.Add_ linked added
  | Good_ addr nTime rand => exact placed.Good_ ran
  | Attempt_ addr nTime =>
    obtain rfl := Except.ok.inj ran
    exact placed.keeps (keeps_Attempt_ addr nTime)
  | Connected_ addr nTime =>
    obtain rfl := Except.ok.inj ran
    exact placed.keeps (keeps_Connected_ addr nTime)
  | GetAddr_ rand =>
    obtain ⟨⟨vAddr,after⟩,drawn,rfl⟩ := map_ok ran
    exact placed.keeps (keeps_shuffled drawn)
  | Select_ fTried tries =>
    obtain ⟨_,_,rfl⟩ := map_ok ran
    exact placed

theorem Placed.run {events : List AddrEvent} (placed : Placed rules s) (linked : Linked s ∅ none) (timely : ∀ event ∈ events, event.Timely)
    (ran : s.run rules events = .ok s') : Placed rules s' := by
  induction events generalizing s with
  | nil =>
    obtain rfl := Except.ok.inj ran
    exact placed
  | cons event events ih =>
    obtain ⟨mid,ok,next⟩ := @Linked.step s rules event linked (timely event (List.mem_cons_self ..))
    rw [CAddrMan.run,ok] at ran
    exact ih (placed.step linked ok) next (fun later member => timely later (List.mem_cons_of_mem event member)) ran

/-- Whatever the calls, the tried entries are in the buckets of their addresses. -/
theorem stays_placed {events : List AddrEvent} (timely : ∀ event ∈ events, event.Timely) (ran : CAddrMan.run rules {} events = .ok s') :
    Placed rules s' := placed_new.run linked_new timely ran

end CAddrMan
end Tetra
