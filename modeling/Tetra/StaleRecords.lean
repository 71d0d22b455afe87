import Mathlib
import Tetra.Standing

/-!
Records that are removed: `Clean` looks for the record of a peer by its bytes, and finds it
where no record before it has the same ones.
-/
namespace Tetra.srges

/-- What `Refresh` may do to the records: add one for a new peer, remove that of a peer
    that was not seen for a day, or change its own. -/
structure Refreshed (c : Circumstances) (peer : CPubKey) (before after : tlist) : Prop where
  absent : (∀ record ∈ before, record.1 ≠ peer) → after.Perm (before ++ [(peer,newPeerRate c)])
  removed : ∀ pr, (peer,pr) ∈ before → Stale c pr → after = before.filter fun record => record.1 != peer
  kept : ∀ pr, (peer,pr) ∈ before → ¬ Stale c pr → after.map Prod.fst = before.map Prod.fst
  others : ∀ record : PeerRecord, record.1 ≠ peer → (record ∈ after ↔ record ∈ before)
  distinct : (after.map Prod.fst).Nodup

/-- `Clean` removes the record that the pointer points to, or none. -/
def Cleans (c : Circumstances) (peer : CPubKey) (pr : PeerRate) (before after : tlist) : Prop :=
  (Stale c pr → after = before.filter fun record => record.1 != peer) ∧ (¬ Stale c pr → after = before)

/-- No record before the peer's own has its bytes, if the peer's is to be removed. -/
def Recognised (c : Circumstances) (list : tlist) (peer : CPubKey) : Prop :=
  ∀ pr, (peer,pr) ∈ list → Stale c pr → ∀ record ∈ list.takeWhile (fun record => record.1 != peer), record.2 ≠ pr

section
variable {rules : SrgesRules} {c : Circumstances} {s : srges} {peer : CPubKey} {pr : PeerRate} {a b : tlist}

/-! ### The records around the peer's own -/

/-- The keys on both sides of a record are others. -/
theorem others_of_distinct (distinct : ((a ++ (peer,pr) :: b).map Prod.fst).Nodup) :
    (∀ record ∈ a, record.1 ≠ peer) ∧ ∀ record ∈ b, record.1 ≠ peer := by
  rw [List.map_append,List.map_cons] at distinct
  obtain ⟨_,last,apart⟩ := List.nodup_append.mp distinct
  constructor
  · intro record member same
    exact apart _ (List.mem_map_of_mem member) _ (List.mem_cons_self ..) same
  · intro record member same
    exact (List.nodup_cons.mp last).1 (List.mem_map.mpr ⟨record,member,same⟩)

theorem filter_own (distinct : ((a ++ (peer,pr) :: b).map Prod.fst).Nodup) :
    (a ++ (peer,pr) :: b).filter (fun record => record.1 != peer) = a ++ b := by
  obtain ⟨before,behind⟩ := others_of_distinct distinct
  have all (list : tlist) (others : ∀ record ∈ list, record.1 ≠ peer) : list.filter (fun record => record.1 != peer) = list :=
    List.filter_eq_self.mpr fun record member => by simpa using others record member
  rw [List.filter_append,List.filter_cons_of_neg (by simp),all a before,all b behind]

theorem takeWhile_own (distinct : ((a ++ (peer,pr) :: b).map Prod.fst).Nodup) :
    (a ++ (peer,pr) :: b).takeWhile (fun record => record.1 != peer) = a := by
  obtain ⟨before,_⟩ := others_of_distinct distinct
  rw [List.takeWhile_append_of_pos (by simpa using before),List.takeWhile_cons_of_neg (by simp),List.append_nil]

/-- A peer has one record. -/
theorem own_unique (distinct : ((a ++ (peer,pr) :: b).map Prod.fst).Nodup) {pr' : PeerRate} (member : (peer,pr') ∈ a ++ (peer,pr) :: b) : pr' = pr := by
  obtain ⟨before,behind⟩ := others_of_distinct distinct
  rcases List.mem_append.mp member with front | rest
  · exact absurd rfl (before _ front)
  · rcases List.mem_cons.mp rest with own | back
    · exact (Prod.mk.inj own).2
    · exact absurd rfl (behind _ back)

theorem recognised_iff (distinct : ((a ++ (peer,pr) :: b).map Prod.fst).Nodup) :
    Recognised c (a ++ (peer,pr) :: b) peer ↔ (Stale c pr → ∀ record ∈ a, record.2 ≠ pr) := by
  rw [Recognised,takeWhile_own distinct]
  constructor
  · intro recognised stale
    exact recognised pr (by simp) stale
  · intro first pr' member stale record earlier
    obtain rfl := own_unique distinct member
    exact first stale record earlier

/-! ### What is erased -/

/-- The first record with the bytes is the peer's own. -/
theorem Clean_own (listed : s.toplist = a ++ (peer,pr) :: b) (stale : Stale c pr) (first : ∀ record ∈ a, record.2 ≠ pr) :
    s.Clean c pr = (true,{s with toplist := a ++ b}) := by
  have place : s.toplist.findIdx? (fun record => record.2 == pr) = some a.length := by
    rw [listed,List.findIdx?_append,List.findIdx?_eq_none_iff.mpr (by simpa using first),List.findIdx?_cons]
    simp
  unfold Stale at stale
  rw [Clean,if_pos stale,place,listed]
  dsimp only
  rw [List.eraseIdx_append_of_length_le le_rfl,Nat.sub_self]
  rfl

/-- Otherwise the record of another peer is erased, and the peer's own stays. -/
theorem Clean_other (listed : s.toplist = a ++ (peer,pr) :: b) (stale : Stale c pr) (earlier : ¬ ∀ record ∈ a, record.2 ≠ pr) :
    ∃ a₁ other a₂, a = a₁ ++ (other,pr) :: a₂ ∧ s.Clean c pr = (true,{s with toplist := a₁ ++ a₂ ++ (peer,pr) :: b}) := by
  have found : a.findIdx? (fun record => record.2 == pr) ≠ none := by
    rw [ne_eq,List.findIdx?_eq_none_iff]
    simpa using earlier
  obtain ⟨place,here⟩ := Option.ne_none_iff_exists'.mp found
  obtain ⟨inside,same,_⟩ := List.findIdx?_eq_some_iff_getElem.mp here
  have split : a = a.take place ++ (a[place].1,pr) :: a.drop (place+1) := by
    have own : (a[place].1,pr) = a[place] := by
      have bytes : a[place].2 = pr := by simpa using same
      rw [← bytes]
    rw [own,← List.drop_eq_getElem_cons inside,List.take_append_drop]
  have erased : s.toplist.findIdx? (fun record => record.2 == pr) = some place := by
    rw [listed,List.findIdx?_append,here]
    rfl
  refine ⟨a.take place,a[place].1,a.drop (place+1),split,?_⟩
  unfold Stale at stale
  rw [Clean,if_pos stale,erased,listed]
  dsimp only
  rw [List.eraseIdx_append_of_lt_length inside,List.eraseIdx_eq_take_drop_succ]

theorem Clean_kept (fresh : ¬ Stale c pr) : s.Clean c pr = (false,s) := if_neg fresh

/-- The peer's own record is still there after another one was erased. -/
theorem not_filtered {list after : tlist} (own : (peer,pr) ∈ after) : after ≠ list.filter fun record => record.1 != peer := by
  rintro rfl
  simpa using (List.mem_filter.mp own).2

theorem Clean_right_iff (listed : s.toplist = a ++ (peer,pr) :: b) (distinct : (s.toplist.map Prod.fst).Nodup) :
    Cleans c peer pr s.toplist (s.Clean c pr).2.toplist ↔ Recognised c s.toplist peer := by
  have keys := distinct
  rw [listed] at keys
  rw [listed,recognised_iff keys]
  by_cases stale : Stale c pr
  · by_cases first : ∀ record ∈ a, record.2 ≠ pr
    · rw [Clean_own listed stale first]
      exact ⟨fun _ _ => first,fun _ => ⟨fun _ => (filter_own keys).symm,fun fresh => absurd stale fresh⟩⟩
    · obtain ⟨a₁,other,a₂,_,cleaned⟩ := Clean_other listed stale first
      have stays : (peer,pr) ∈ a₁ ++ a₂ ++ (peer,pr) :: b := by simp
      rw [cleaned]
      exact ⟨fun cleans => absurd (cleans.1 stale) (not_filtered stays),fun recognised => absurd (recognised stale) first⟩
  · rw [Clean_kept stale,listed]
    exact ⟨fun _ stale' => absurd stale' stale,fun _ => ⟨fun stale' => absurd stale' stale,fun _ => rfl⟩⟩

/-! ### What `Refresh` leaves -/

theorem refreshed_new (missing : s.Find peer = none) (distinct : (s.toplist.map Prod.fst).Nodup) :
    Refreshed c peer s.toplist (s.AddPeer rules c peer).2.toplist := by
  have perm := @AddPeer_perm rules c s peer
  have absent := Find_eq_none missing
  refine ⟨fun _ => perm,fun pr member => absurd rfl (absent _ member),fun pr member => absurd rfl (absent _ member),fun record other => ?_,?_⟩
  · rw [perm.mem_iff,List.mem_append,List.mem_singleton]
    exact ⟨fun member => member.resolve_right fun new => other (congrArg Prod.fst new),.inl⟩
  · have new : ((s.toplist ++ [(peer,newPeerRate c)]).map Prod.fst).Nodup := by
      rw [List.map_append,List.nodup_append]
      refine ⟨distinct,List.nodup_singleton _,fun key member key' new => ?_⟩
      obtain ⟨record,listed,rfl⟩ := List.mem_map.mp member
      rw [List.mem_singleton.mp new]
      exact absent record listed
    exact (perm.map Prod.fst).nodup_iff.mpr new

/-- A list in which at most the peer's own record has changed. -/
theorem refreshed_changed {pr' : PeerRate} (distinct : ((a ++ (peer,pr) :: b).map Prod.fst).Nodup) (fresh : ¬ Stale c pr) :
    Refreshed c peer (a ++ (peer,pr) :: b) (a ++ (peer,pr') :: b) := by
  have sameKeys : (a ++ (peer,pr') :: b).map Prod.fst = (a ++ (peer,pr) :: b).map Prod.fst := by simp
  refine ⟨fun absent => absurd rfl (absent (peer,pr) (by simp)),fun pr₀ member stale => ?_,fun _ _ _ => sameKeys,fun record other => ?_,
    by rw [sameKeys]; exact distinct⟩
  · rw [own_unique distinct member] at stale
    contradiction
  · have notOwn (rate : PeerRate) : record ≠ (peer,rate) := fun same => other (congrArg Prod.fst same)
    simp [notOwn]

theorem refreshed_removed (distinct : ((a ++ (peer,pr) :: b).map Prod.fst).Nodup) (stale : Stale c pr) :
    Refreshed c peer (a ++ (peer,pr) :: b) (a ++ b) := by
  refine ⟨fun absent => absurd rfl (absent (peer,pr) (by simp)),fun _ _ _ => (filter_own distinct).symm,fun pr₀ member fresh => ?_,
    fun record other => ?_,distinct.sublist ((List.Sublist.refl a).append (List.sublist_cons_self ..) |>.map _)⟩
  · rw [own_unique distinct member] at fresh
    contradiction
  · have notOwn : record ≠ (peer,pr) := fun same => other (congrArg Prod.fst same)
    simp [notOwn]

theorem Refresh_right_iff (distinct : (s.toplist.map Prod.fst).Nodup) :
    Refreshed c peer s.toplist (s.Refresh rules c peer).2.toplist ↔ Recognised c s.toplist peer := by
  unfold Refresh
  cases found : s.Find peer with
  | none =>
    have absent := Find_eq_none found
    exact ⟨fun _ pr member => absurd rfl (absent _ member),fun _ => refreshed_new found distinct⟩
  | some place =>
    obtain ⟨place,pr⟩ := place
    obtain ⟨a,b,listed,rfl,_⟩ := Find_eq_some found
    have keys := distinct
    rw [listed] at keys
    dsimp only
    by_cases stale : Stale c pr
    · by_cases first : ∀ record ∈ a, record.2 ≠ pr
      · rw [Clean_own listed stale first,listed,recognised_iff keys]
        exact ⟨fun _ _ => first,fun _ => refreshed_removed keys stale⟩
      · obtain ⟨a₁,other,a₂,_,cleaned⟩ := Clean_other listed stale first
        have stays : (peer,pr) ∈ a₁ ++ a₂ ++ (peer,pr) :: b := by simp
        rw [cleaned,listed,recognised_iff keys]
        exact ⟨fun right => absurd (right.removed pr (by simp) stale) (not_filtered stays),fun recognised => absurd (recognised stale) first⟩
    · have recognised : Recognised c s.toplist peer := by
        rw [listed,recognised_iff keys]
        exact fun stale' => absurd stale' stale
      rw [Clean_kept stale,if_neg Bool.false_ne_true]
      refine ⟨fun _ => recognised,fun _ => ?_⟩
      split
      · have changed : ∀ f, (s.modify a.length f).toplist = a ++ (peer,f pr) :: b := by
          intro f
          rw [modify,listed,modify_at]
        rw [changed,listed]
        exact refreshed_changed keys stale
      · rw [listed]
        exact refreshed_changed keys stale

end

/-- `Refresh` and `Clean` do right by every record exactly where the peer's own record, if it
    is to be removed, is the first with its bytes. -/
theorem Refresh_Clean_right_iff (rules : SrgesRules) (c : Circumstances) (s : srges) (peer : CPubKey) (distinct : (s.toplist.map Prod.fst).Nodup) :
    (Refreshed c peer s.toplist (s.Refresh rules c peer).2.toplist ↔ Recognised c s.toplist peer) ∧
    ∀ place pr, s.Find peer = some (place,pr) → (Cleans c peer pr s.toplist (s.Clean c pr).2.toplist ↔ Recognised c s.toplist peer) := by
  refine ⟨Refresh_right_iff distinct,fun place pr found => ?_⟩
  obtain ⟨a,b,listed,_,_⟩ := Find_eq_some found
  exact Clean_right_iff listed distinct

/-- Two peers that were added in the same second. -/
private def newcomers : srges where
  toplist := [([2],newPeerRate {GetAdjustedTime := 1000}),([3],newPeerRate {GetAdjustedTime := 1000})]

/-- A day later the first of them is removed when it is refreshed. -/
theorem Refresh_Clean_right_first :
    Refreshed {GetAdjustedTime := 87401} [2] newcomers.toplist (newcomers.Refresh plainRules {GetAdjustedTime := 87401} [2]).2.toplist :=
  (Refresh_Clean_right_iff plainRules {GetAdjustedTime := 87401} newcomers [2] (by decide)).1.mpr fun _ _ _ => by simp [newcomers]

/-- The refresh of the second removes the first. -/
theorem Refresh_removes_other :
    (newcomers.Refresh plainRules {GetAdjustedTime := 87401} [3]).2.toplist = [([3],newPeerRate {GetAdjustedTime := 1000})] ∧
    ¬ ∀ (rules : SrgesRules) (c : Circumstances) (s : srges) (peer : CPubKey), (s.toplist.map Prod.fst).Nodup →
      Refreshed c peer s.toplist (s.Refresh rules c peer).2.toplist := by
  have left : (newcomers.Refresh plainRules {GetAdjustedTime := 87401} [3]).2.toplist = [([3],newPeerRate {GetAdjustedTime := 1000})] := by
    decide +kernel
  refine ⟨left,fun all => ?_⟩
  have right := all plainRules {GetAdjustedTime := 87401} newcomers [3] (by decide)
  have kept := (right.others ([2],newPeerRate {GetAdjustedTime := 1000}) (by decide)).mpr (by decide)
  rw [left] at kept
  exact absurd kept (by decide)

end Tetra.srges
