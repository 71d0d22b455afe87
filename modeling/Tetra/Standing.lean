import Mathlib
import Tetra.Endorsements

/-!
How the peers are ranked, and which of them the node relies on: the order that `Rank`
sorts by, and the record that `IsAffidable` looks at.
-/
namespace Tetra.srges

/-! ### The order -/

def sort_toplist (x y : PeerRecord) : Bool := decide (x.2.rate ≥ y.2.rate)

/-- `Rank`, with the object after it. What it reads and sorts is a list of its own. -/
def RankCall (rules : SrgesRules) (c : Circumstances) (s : srges) : Bool × srges :=
  match s.dbReadToplist c "toplist" with
  | none => (false,s)
  | some toplist =>
    let _toplist := rules.sort toplist
    (true,s)

/-- What `std::sort` asks of a comparison. -/
structure StrictWeak {α : Type} (less : α → α → Bool) : Prop where
  irreflexive : ∀ x, less x x = false
  asymmetric : ∀ x y, less x y = true → less y x = false
  transitive : ∀ x y z, less x y = true → less y z = true → less x z = true

/-- A list with the highest rates in front. -/
def Sorted (list : tlist) : Prop := list.Pairwise fun x y => y.2.rate ≤ x.2.rate

/-- The list of the object is sorted, by a comparison that can be sorted by. -/
structure RankSorts (rules : SrgesRules) (c : Circumstances) (s : srges) : Prop where
  sorted : ∀ s', s.RankCall rules c = (true,s') → s'.toplist.Perm s.toplist ∧ Sorted s'.toplist
  weak : StrictWeak sort_toplist

section
variable {rules : SrgesRules} {c : Circumstances} {s : srges} {peer : CPubKey}

theorem RankCall_eq : s.RankCall rules c = (s.Rank c,s) := by
  unfold RankCall Rank
  cases s.dbReadToplist c "toplist" <;> rfl

/-- The comparison holds both ways just for equal rates. -/
theorem sort_toplist_both_iff (x y : PeerRecord) : (sort_toplist x y = true ∧ sort_toplist y x = true) ↔ x.2.rate = y.2.rate := by
  rw [sort_toplist,sort_toplist,decide_eq_true_iff,decide_eq_true_iff]
  exact ⟨fun both => le_antisymm both.2 both.1,fun same => ⟨same.ge,same.le⟩⟩

theorem sort_toplist_self (x : PeerRecord) : sort_toplist x x = true := ((sort_toplist_both_iff x x).mpr rfl).1

/-- A call of `Rank` sorts the list when it was sorted before. -/
theorem Rank_sorted_iff : (∀ s', s.RankCall rules c = (true,s') → s'.toplist.Perm s.toplist ∧ Sorted s'.toplist) ↔
    (s.Rank c = true → Sorted s.toplist) := by
  rw [RankCall_eq]
  constructor
  · intro sorts ranked
    exact (sorts s (by rw [ranked])).2
  · intro sorted s' ranked
    obtain ⟨goes,rfl⟩ := Prod.mk.inj ranked
    exact ⟨List.Perm.refl _,sorted goes⟩

/-- Equal rates are each in front of the other, so nothing is sorted. -/
theorem Rank_never_sorts (rules : SrgesRules) (c : Circumstances) (s : srges) : ¬ RankSorts rules c s := by
  intro sorts
  have record : PeerRecord := ([],newPeerRate c)
  exact absurd ((sort_toplist_self record).symm.trans (sorts.weak.irreflexive record)) (by decide)

end

/-! ### Who is relied on -/

/-- The peer's own record is among the first three, or has the rate. -/
def Trusted (s : srges) (peer : CPubKey) : Prop := ∃ place pr, s.Find peer = some (place,pr) ∧ (place < 3 ∨ SECOND_LVL ≤ pr.rate)

/-- The call does not stop before it looks at a record. -/
def Judges (c : Circumstances) (s : srges) (peer : CPubKey) : Prop := peer.isEmpty = false ∧ (s.updateRanking c).1 = true

/-- No access outside the list, and the record that is looked at, if any, is the peer's; it
    is relied on for its own record, or as the first of all. -/
structure Sound (rules : SrgesRules) (c : Circumstances) (s : srges) (peer : CPubKey) : Prop where
  inside : s.IsAffidable rules c peer ≠ none
  judged : Judges c s peer → s.FindRank peer > 3 → ∀ answer s', s.IsAffidable rules c peer = some (answer,s') →
    ∃ pr, s'.toplist[s.FindRank peer-1]? = some (peer,pr)
  earned : ∀ s', s.IsAffidable rules c peer = some (true,s') →
    s.toplist = [] ∧ s'.toplist.map Prod.fst = [peer] ∨ s.Find peer ≠ none ∧ Trusted s' peer

/-- The list without the first record that has the same bytes. -/
def without (s : srges) (pr : PeerRate) : srges := {s with toplist := s.toplist.eraseIdx (s.toplist.findIdx fun record => record.2 == pr)}

def Stale (c : Circumstances) (pr : PeerRate) : Prop := c.GetAdjustedTime-pr.lastseen > UNIXTIME_DAY

/-- What makes the answer sound: the peer has a record that is not stale, or is the first of
    all. Otherwise a record moves, and another one that is the peer's has to take the place. -/
def Fair (rules : SrgesRules) (c : Circumstances) (s : srges) (peer : CPubKey) : Prop :=
  match s.Find peer with
  | none => s.toplist = [] ∨
      s.toplist.length > 3 ∧ ∃ pr, ((s.updateRanking c).2.AddPeer rules c peer).2.toplist[s.toplist.length-1]? = some (peer,pr)
  | some (place,pr) =>
    Stale c pr →
      if place < 3 then Trusted (s.without pr) peer
      else ∃ pr', (s.without pr).toplist[place]? = some (peer,pr') ∧ (SECOND_LVL ≤ pr'.rate → Trusted (s.without pr) peer)

section
variable {rules : SrgesRules} {c : Circumstances} {s : srges} {peer : CPubKey}

theorem IsAffidable_stops (stops : ¬ Judges c s peer) : ∃ s', s.IsAffidable rules c peer = some (false,s') := by
  unfold IsAffidable
  by_cases valid : peer.isEmpty = true
  · rw [if_pos valid]
    exact ⟨s,rfl⟩
  · have halts : (s.updateRanking c).1 = false := by
      by_contra goes
      exact stops ⟨Bool.eq_false_of_not_eq_true valid,Bool.eq_true_of_not_eq_false goes⟩
    rw [if_neg valid]
    dsimp only
    rw [if_pos halts]
    exact ⟨_,rfl⟩

/-- The list that is looked at, after the refresh. -/
def refreshed (rules : SrgesRules) (c : Circumstances) (s : srges) (peer : CPubKey) : srges := ((s.updateRanking c).2.Refresh rules c peer).2

theorem FindRank_congr {s s' : srges} (same : s'.toplist = s.toplist) (peer : CPubKey) : s'.FindRank peer = s.FindRank peer := by
  rw [FindRank,FindRank,Find_congr same,same]

theorem IsAffidable_judges (judges : Judges c s peer) :
    s.IsAffidable rules c peer =
      ((s.refreshed rules c peer).toplist[if s.FindRank peer > 3 then s.FindRank peer-1 else 0]?).map fun record =>
        (!(decide (s.FindRank peer > 3) && decide (record.2.rate < SECOND_LVL)),s.refreshed rules c peer) := by
  obtain ⟨valid,goes⟩ := judges
  unfold IsAffidable
  rw [if_neg (by rw [valid]; decide)]
  dsimp only
  rw [if_neg (by rw [goes]; decide),FindRank_congr updateRanking_toplist]
  unfold refreshed
  cases ((s.updateRanking c).2.Refresh rules c peer).2.toplist[if s.FindRank peer > 3 then s.FindRank peer-1 else 0]? <;> rfl

/-- Soundness, for a peer behind the first three. -/
theorem sound_iff_behind (judges : Judges c s peer) (behind : s.FindRank peer > 3) (some' : s.toplist ≠ []) :
    Sound rules c s peer ↔ ∃ pr, (s.refreshed rules c peer).toplist[s.FindRank peer-1]? = some (peer,pr) ∧
      (SECOND_LVL ≤ pr.rate → s.Find peer ≠ none ∧ Trusted (s.refreshed rules c peer) peer) := by
  have looks := @IsAffidable_judges rules c s peer judges
  rw [if_pos behind] at looks
  constructor
  · intro sound
    cases here : (s.refreshed rules c peer).toplist[s.FindRank peer-1]? with
    | none =>
      rw [here] at looks
      exact absurd looks sound.inside
    | some record =>
      rw [here,Option.map_some] at looks
      obtain ⟨pr,same⟩ := sound.judged judges behind _ _ looks
      obtain rfl := Option.some.inj (here.symm.trans same)
      refine ⟨pr,rfl,fun high => ?_⟩
      have low : ¬ pr.rate < SECOND_LVL := not_lt.mpr high
      rw [show (!(decide (s.FindRank peer > 3) && decide (pr.rate < SECOND_LVL))) = true by simp [low]] at looks
      exact (sound.earned _ looks).resolve_left fun first => some' first.1
  · rintro ⟨pr,here,earns⟩
    rw [here,Option.map_some] at looks
    refine ⟨by rw [looks]; exact Option.some_ne_none _,fun _ _ answer s' returned => ?_,fun s' returned => ?_⟩
    · obtain ⟨-,rfl⟩ := Prod.mk.inj (Option.some.inj (looks.symm.trans returned))
      exact ⟨pr,here⟩
    · obtain ⟨good,rfl⟩ := Prod.mk.inj (Option.some.inj (looks.symm.trans returned))
      refine .inr (earns ?_)
      by_contra low
      simp [behind,not_le.mp low] at good

/-- Soundness, for a rank among the first three: the answer is true. -/
theorem sound_iff_front (judges : Judges c s peer) (front : ¬ s.FindRank peer > 3) :
    Sound rules c s peer ↔ (s.refreshed rules c peer).toplist ≠ [] ∧
      (s.toplist = [] ∧ (s.refreshed rules c peer).toplist.map Prod.fst = [peer] ∨ s.Find peer ≠ none ∧ Trusted (s.refreshed rules c peer) peer) := by
  have looks := @IsAffidable_judges rules c s peer judges
  rw [if_neg front] at looks
  have good : ∀ record : PeerRecord, (!(decide (s.FindRank peer > 3) && decide (record.2.rate < SECOND_LVL))) = true := by
    intro record
    simp [front]
  constructor
  · intro sound
    cases list : (s.refreshed rules c peer).toplist with
    | nil =>
      rw [list] at looks
      exact absurd looks sound.inside
    | cons record rest =>
      rw [list,List.getElem?_cons_zero,Option.map_some,good] at looks
      have earned := sound.earned _ looks
      rw [list] at earned
      exact ⟨List.cons_ne_nil _ _,earned⟩
  · rintro ⟨filled,earned⟩
    obtain ⟨record,rest,list⟩ := List.exists_cons_of_ne_nil filled
    rw [list,List.getElem?_cons_zero,Option.map_some,good] at looks
    refine ⟨by rw [looks]; exact Option.some_ne_none _,fun _ behind => absurd behind front,fun s' returned => ?_⟩
    obtain ⟨-,rfl⟩ := Prod.mk.inj (Option.some.inj (looks.symm.trans returned))
    exact earned

theorem Find_of_split {a b : tlist} {pr : PeerRate} (listed : s.toplist = a ++ (peer,pr) :: b) (earlier : ∀ record ∈ a, record.1 ≠ peer) :
    s.Find peer = some (a.length,pr) := by
  have first : s.toplist.findIdx? (fun record => record.1 == peer) = some a.length := by
    rw [listed,List.findIdx?_append,List.findIdx?_eq_none_iff.mpr (by simpa using earlier),List.findIdx?_cons]
    simp
  rw [Find,first,Option.bind_some,listed,List.getElem?_append_right (le_refl _),Nat.sub_self]
  rfl

theorem Find_modify {place : Nat} {pr : PeerRate} (found : s.Find peer = some (place,pr)) (f : PeerRate → PeerRate) :
    (s.modify place f).Find peer = some (place,f pr) := by
  obtain ⟨a,b,listed,rfl,earlier⟩ := Find_eq_some found
  have after : (s.modify a.length f).toplist = a ++ (peer,f pr) :: b := by
    rw [modify,listed,modify_at]
  exact Find_of_split after earlier

theorem getElem?_of_Find {place : Nat} {pr : PeerRate} (found : s.Find peer = some (place,pr)) : s.toplist[place]? = some (peer,pr) := by
  obtain ⟨a,b,listed,rfl,-⟩ := Find_eq_some found
  rw [listed,List.getElem?_append_right (le_refl _),Nat.sub_self]
  rfl

theorem AddPeer_perm : (s.AddPeer rules c peer).2.toplist.Perm (s.toplist ++ [(peer,newPeerRate c)]) := by
  unfold AddPeer
  dsimp only
  split
  · exact List.Perm.refl _
  · split
    · exact rules.sort_perm _
    · exact List.Perm.refl _

theorem Find_updateRanking (peer : CPubKey) : (s.updateRanking c).2.Find peer = s.Find peer := Find_congr updateRanking_toplist peer

theorem refreshed_absent (missing : s.Find peer = none) :
    s.refreshed rules c peer = ((s.updateRanking c).2.AddPeer rules c peer).2 := by
  rw [refreshed,Refresh,Find_updateRanking,missing]

theorem refreshed_stale {place : Nat} {pr : PeerRate} (found : s.Find peer = some (place,pr)) (stale : Stale c pr) :
    (s.refreshed rules c peer).toplist = (s.without pr).toplist := by
  have listed : (peer,pr) ∈ s.toplist := List.mem_of_getElem? (getElem?_of_Find found)
  have first : s.toplist.findIdx? (fun record => record.2 == pr) = some (s.toplist.findIdx fun record => record.2 == pr) := by
    rw [List.findIdx?_eq_some_iff_findIdx_eq]
    exact ⟨List.findIdx_lt_length_of_exists ⟨_,listed,by simp⟩,rfl⟩
  have cleans : (s.updateRanking c).2.Clean c pr =
      (true,{(s.updateRanking c).2 with toplist := s.toplist.eraseIdx (s.toplist.findIdx fun record => record.2 == pr)}) := by
    unfold Stale at stale
    rw [Clean,if_pos stale,updateRanking_toplist,first]
  rw [refreshed,Refresh,Find_updateRanking,found]
  dsimp only
  rw [cleans]
  rfl

theorem refreshed_fresh {place : Nat} {pr : PeerRate} (found : s.Find peer = some (place,pr)) (fresh : ¬ Stale c pr) :
    ∃ pr', (s.refreshed rules c peer).Find peer = some (place,pr') := by
  have kept : (s.updateRanking c).2.Clean c pr = (false,(s.updateRanking c).2) := if_neg fresh
  have found' := (@Find_updateRanking c s peer).trans found
  rw [refreshed,Refresh,found']
  dsimp only
  rw [kept,if_neg Bool.false_ne_true]
  dsimp only
  split
  · exact ⟨_,Find_modify found' _⟩
  · exact ⟨pr,found'⟩

theorem FindRank_found {place : Nat} {pr : PeerRate} (found : s.Find peer = some (place,pr)) : s.FindRank peer = place+1 := by
  rw [FindRank,found]

theorem FindRank_absent (missing : s.Find peer = none) : s.FindRank peer = s.toplist.length := by
  rw [FindRank,missing]

theorem Trusted.congr {s s' : srges} (same : s'.toplist = s.toplist) : Trusted s' peer ↔ Trusted s peer := by
  rw [Trusted,Trusted,Find_congr same]

theorem nonempty_of_found {place : Nat} {pr : PeerRate} (found : s.Find peer = some (place,pr)) : s.toplist ≠ [] :=
  List.ne_nil_of_mem (List.mem_of_getElem? (getElem?_of_Find found))

/-- A new peer has no rate to be relied on. -/
theorem AddPeer_rate (missing : s.Find peer = none) {pr : PeerRate} (listed : (peer,pr) ∈ (s.AddPeer rules c peer).2.toplist) :
    pr.rate < SECOND_LVL := by
  rcases List.mem_append.mp (AddPeer_perm.mem_iff.mp listed) with old | new
  · exact absurd rfl (Find_eq_none missing _ old)
  · obtain rfl : pr = newPeerRate c := by simpa using new
    exact (by decide : (0 : Int) < SECOND_LVL)

theorem sound_absent (judges : Judges c s peer) (missing : s.Find peer = none) :
    Sound rules c s peer ↔ s.toplist = [] ∨
      s.toplist.length > 3 ∧ ∃ pr, ((s.updateRanking c).2.AddPeer rules c peer).2.toplist[s.toplist.length-1]? = some (peer,pr) := by
  have added := @AddPeer_perm rules c (s.updateRanking c).2 peer
  rw [updateRanking_toplist] at added
  by_cases behind : s.FindRank peer > 3
  · have some' : s.toplist ≠ [] := by
      rintro empty
      rw [FindRank_absent missing,empty] at behind
      contradiction
    rw [sound_iff_behind judges behind some',refreshed_absent missing]
    rw [FindRank_absent missing] at behind ⊢
    constructor
    · rintro ⟨pr,here,-⟩
      exact .inr ⟨behind,pr,here⟩
    · rintro (empty | ⟨-,pr,here⟩)
      · exact absurd empty some'
      · have low := AddPeer_rate ((Find_updateRanking peer).trans missing) (List.mem_of_getElem? here)
        exact ⟨pr,here,fun high => absurd low (not_lt.mpr high)⟩
  · rw [sound_iff_front judges behind,refreshed_absent missing]
    rw [FindRank_absent missing] at behind
    constructor
    · rintro ⟨-,⟨empty,-⟩ | ⟨present,-⟩⟩
      · exact .inl empty
      · exact absurd missing present
    · rintro (empty | ⟨more,-⟩)
      · rw [empty,List.nil_append] at added
        have alone := List.perm_singleton.mp added
        rw [alone]
        exact ⟨List.cons_ne_nil _ _,.inl ⟨empty,rfl⟩⟩
      · exact absurd more behind

theorem sound_stale (judges : Judges c s peer) {place : Nat} {pr : PeerRate} (found : s.Find peer = some (place,pr)) (stale : Stale c pr) :
    Sound rules c s peer ↔ if place < 3 then Trusted (s.without pr) peer
      else ∃ pr', (s.without pr).toplist[place]? = some (peer,pr') ∧ (SECOND_LVL ≤ pr'.rate → Trusted (s.without pr) peer) := by
  have left := @refreshed_stale rules c s peer place pr found stale
  have present : s.Find peer ≠ none := by simp [found]
  by_cases front : place < 3
  · have rank : ¬ s.FindRank peer > 3 := by
      rw [FindRank_found found]
      omega
    rw [if_pos front,sound_iff_front judges rank,Trusted.congr left,left]
    constructor
    · rintro ⟨-,⟨empty,-⟩ | ⟨-,trusted⟩⟩
      · exact absurd empty (nonempty_of_found found)
      · exact trusted
    · rintro ⟨place',pr',found',good⟩
      exact ⟨nonempty_of_found found',.inr ⟨present,place',pr',found',good⟩⟩
  · have rank : s.FindRank peer > 3 := by
      rw [FindRank_found found]
      omega
    rw [if_neg front,sound_iff_behind judges rank (nonempty_of_found found),Trusted.congr left,left,FindRank_found found,Nat.add_sub_cancel]
    exact exists_congr fun pr' => and_congr_right fun _ => imp_congr_right fun _ => and_iff_right present

theorem sound_fresh (judges : Judges c s peer) {place : Nat} {pr : PeerRate} (found : s.Find peer = some (place,pr)) (fresh : ¬ Stale c pr) :
    Sound rules c s peer := by
  obtain ⟨pr',found'⟩ := @refreshed_fresh rules c s peer place pr found fresh
  have present : s.Find peer ≠ none := by simp [found]
  have rank := FindRank_found found
  by_cases front : place < 3
  · exact (sound_iff_front judges (by omega)).mpr ⟨nonempty_of_found found',.inr ⟨present,place,pr',found',.inl front⟩⟩
  · refine (sound_iff_behind judges (by omega) (nonempty_of_found found)).mpr ⟨pr',?_,fun high => ⟨present,place,pr',found',.inr high⟩⟩
    rw [rank,Nat.add_sub_cancel]
    exact getElem?_of_Find found'

/-- The answer is sound just when the call stops early or the peer has a fair record. -/
theorem IsAffidable_sound_iff (rules : SrgesRules) (c : Circumstances) (s : srges) (peer : CPubKey) :
    Sound rules c s peer ↔ (Judges c s peer → Fair rules c s peer) := by
  by_cases judges : Judges c s peer
  · rw [Fair]
    cases found : s.Find peer with
    | none => exact (sound_absent judges found).trans ⟨fun fair _ => fair,fun fair => fair judges⟩
    | some entry =>
      obtain ⟨place,pr⟩ := entry
      dsimp only
      by_cases stale : Stale c pr
      · exact (sound_stale judges found stale).trans ⟨fun fair _ _ => fair,fun fair => fair judges stale⟩
      · exact ⟨fun _ _ old => absurd old stale,fun _ => sound_fresh judges found stale⟩
  · refine ⟨fun _ goes => absurd goes judges,fun _ => ?_⟩
    obtain ⟨last,stopped⟩ := @IsAffidable_stops rules c s peer judges
    refine ⟨by rw [stopped]; exact Option.some_ne_none _,fun goes => absurd goes judges,fun s' returned => ?_⟩
    obtain ⟨wrong,-⟩ := Prod.mk.inj (Option.some.inj (stopped.symm.trans returned))
    contradiction

end

private def rated (rate lastseen : Int) : PeerRate := ⟨rate,0,lastseen,0,5,0⟩

/-- A list that is in the database where it is read. -/
private def unsorted : srges where
  toplist := [([2],rated 0 0),([3],rated 700000 0)]
  db := fun place => if place = ("privatekey","toplist") then some (.toplist [([2],rated 0 0),([3],rated 700000 0)]) else none

/-- `Rank` returns true, and the lower rate stays in front. -/
theorem Rank_leaves_unsorted :
    unsorted.RankCall plainRules {GetAdjustedTime := 0} = (true,unsorted) ∧ ¬ Sorted unsorted.toplist ∧ ¬ RankSorts plainRules {GetAdjustedTime := 0} unsorted := by
  have returned : unsorted.RankCall plainRules {GetAdjustedTime := 0} = (true,unsorted) := by
    rw [RankCall_eq]
    exact congrArg (·,unsorted) (by decide +kernel)
  have front : ¬ Sorted unsorted.toplist := by
    unfold Sorted
    decide +kernel
  exact ⟨returned,front,fun sorts => front (sorts.sorted unsorted returned).2⟩

private def threePeers (lastseen : Int) : srges where
  toplist := [([2],rated 700000 lastseen),([3],rated 700000 lastseen),([4],rated 700000 lastseen)]
  db := fun place => if place = ("timerank","timerank") then some (.time 100000) else none

/-- A peer that nobody knows is relied on, as the fourth of four and without a rate. And a
    peer alone that was not seen for a day is erased before its record is printed. -/
theorem IsAffidable_unsound :
    (∃ s', (threePeers 100000).IsAffidable plainRules {GetAdjustedTime := 100000} [7] = some (true,s') ∧
      s'.Find [7] = some (3,newPeerRate {GetAdjustedTime := 100000})) ∧
    ({toplist := [([2],rated 0 0)]} : srges).IsAffidable plainRules {GetAdjustedTime := 100000} [2] = none ∧
    ¬ Sound plainRules {GetAdjustedTime := 100000} (threePeers 100000) [7] ∧
    ¬ Sound plainRules {GetAdjustedTime := 100000} {toplist := [([2],rated 0 0)]} [2] := by
  have answered : ((threePeers 100000).IsAffidable plainRules {GetAdjustedTime := 100000} [7]).map (fun result => (result.1,result.2.Find [7])) =
      some (true,some (3,newPeerRate {GetAdjustedTime := 100000})) := by decide +kernel
  obtain ⟨⟨answer,s'⟩,returned,same⟩ := Option.map_eq_some_iff.mp answered
  obtain ⟨rfl,last⟩ := Prod.mk.inj same
  have beyond : ({toplist := [([2],rated 0 0)]} : srges).IsAffidable plainRules {GetAdjustedTime := 100000} [2] = none := by decide +kernel
  refine ⟨⟨s',returned,last⟩,beyond,fun sound => ?_,fun sound => sound.inside beyond⟩
  rcases sound.earned s' returned with ⟨empty,-⟩ | ⟨present,-⟩
  · exact absurd empty (by decide +kernel)
  · exact present (by decide +kernel)

end Tetra.srges
