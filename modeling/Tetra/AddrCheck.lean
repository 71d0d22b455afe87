import Mathlib
import Tetra.AddrTables

/-!
After any calls the address manager passes its own check, and the tables are what the check
stands for.
-/
namespace Tetra
open Buckets Maps
open Std (ExtTreeMap TransOrd LawfulEqOrd)

namespace CAddrMan

variable {s : CAddrMan} {stray : Finset Int} {owed : Option Int} {nId : Int} {info : CAddrInfo}

/-- What `Check_` asks of an entry. -/
structure Passes (s : CAddrMan) (nId : Int) (info : CAddrInfo) : Prop where
  byAddr : s.mapAddr[info.ip]? = some nId
  place : 0 ≤ info.nRandomPos
  back : s.vRandom[info.nRandomPos.toNat]? = some nId
  tries : 0 ≤ info.nLastTry
  successes : 0 ≤ info.nLastSuccess
  tried : info.fInTried = true → info.nRefCount = 0 ∧ info.nLastSuccess ≠ 0
  new : info.fInTried = false → 1 ≤ info.nRefCount ∧ info.nRefCount ≤ ADDRMAN_NEW_BUCKETS_PER_ADDRESS

theorem Fits.passes (fits : Fits s ∅ none nId info) : Passes s nId info :=
  ⟨fits.byAddr,fits.place,fits.back,fits.tries,fits.successes,fits.tried,fun untried => fits.new untried (Finset.notMem_empty nId)⟩

theorem checkInfos_cons (passes : Passes s nId info) (rest : List (Int × CAddrInfo)) (setTried : Finset Int) (mapNew : ExtTreeMap Int Int) :
    s.checkInfos ((nId,info) :: rest) setTried mapNew =
      if info.fInTried then s.checkInfos rest (insert nId setTried) mapNew else s.checkInfos rest setTried (mapNew.insert nId info.nRefCount) := by
  obtain ⟨byAddr,place,back,tries,successes,tried,new⟩ := passes
  have low := (List.getElem?_eq_some_iff.mp back).1
  have inside : ¬(info.nRandomPos < 0 ∨ info.nRandomPos ≥ s.vRandom.length ∨ s.vRandom[info.nRandomPos.toNat]? ≠ some nId) := by
    rintro (below | above | other)
    · omega
    · omega
    · exact other back
  have named : ¬(s.mapAddr[info.ip]?).getD 0 ≠ nId := by
    rw [byAddr]
    exact not_not.mpr rfl
  rw [checkInfos]
  cases kind : info.fInTried with
  | true =>
    obtain ⟨unheld,succeeded⟩ := tried kind
    rw [if_neg (fun both => succeeded both.2),if_neg (fun both => both.2 unheld),if_neg (fun both => both.1 rfl),if_neg (fun both => both.1 rfl),
      if_neg named,if_neg inside,if_neg (by omega),if_neg (by omega)]
  | false =>
    obtain ⟨low,high⟩ := new kind
    rw [if_neg (fun both => Bool.false_ne_true both.1),if_neg (fun both => Bool.false_ne_true both.1),if_neg (by omega),if_neg (by omega),
      if_neg named,if_neg inside,if_neg (by omega),if_neg (by omega)]

theorem exists_cons {P : CAddrInfo → Prop} {n k : Int} {rest : List (Int × CAddrInfo)} :
    (∃ y, (k,y) ∈ (n,info) :: rest ∧ P y) ↔ (k = n ∧ P info) ∨ ∃ y, (k,y) ∈ rest ∧ P y := by
  constructor
  · rintro ⟨y,member,holds⟩
    rcases List.mem_cons.mp member with same | member
    · obtain ⟨rfl,rfl⟩ := Prod.mk.inj same
      exact .inl ⟨rfl,holds⟩
    · exact .inr ⟨y,member,holds⟩
  · rintro (⟨rfl,holds⟩ | ⟨y,member,holds⟩)
    · exact ⟨info,List.mem_cons_self ..,holds⟩
    · exact ⟨y,List.mem_cons_of_mem _ member,holds⟩

/-- The loop sorts the entries that are left into setTried and mapNew. -/
theorem checkInfos_ok {entries : List (Int × CAddrInfo)} (passes : ∀ entry ∈ entries, Passes s entry.1 entry.2)
    (distinct : entries.Pairwise fun first later => first.1 ≠ later.1) {setTried : Finset Int} {mapNew : ExtTreeMap Int Int}
    (apart : ∀ entry ∈ entries, entry.1 ∉ setTried ∧ entry.1 ∉ mapNew) :
    ∃ allTried allNew, s.checkInfos entries setTried mapNew = .ok (allTried,allNew) ∧
      (∀ n, n ∈ allTried ↔ n ∈ setTried ∨ ∃ info, (n,info) ∈ entries ∧ info.fInTried = true) ∧
      (∀ n v : Int, allNew[n]? = some v ↔ mapNew[n]? = some v ∨ ∃ info, (n,info) ∈ entries ∧ info.fInTried = false ∧ v = info.nRefCount) ∧
      allTried.card = setTried.card+entries.countP (fun entry => entry.2.fInTried) ∧
      allNew.size = mapNew.size+entries.countP (fun entry => !entry.2.fInTried) := by
  induction entries generalizing setTried mapNew with
  | nil => exact ⟨setTried,mapNew,rfl,by simp,by simp,rfl,rfl⟩
  | cons entry rest ih =>
    obtain ⟨n,info⟩ := entry
    obtain ⟨others,distinct⟩ := List.pairwise_cons.mp distinct
    obtain ⟨notTried,notNew⟩ := apart (n,info) (List.mem_cons_self ..)
    have passesRest := fun entry member => passes entry (List.mem_cons_of_mem (n,info) member)
    rw [checkInfos_cons (passes (n,info) (List.mem_cons_self ..))]
    simp only [exists_cons,List.countP_cons]
    cases kind : info.fInTried with
    | true =>
      have apartRest : ∀ entry ∈ rest, entry.1 ∉ insert n setTried ∧ entry.1 ∉ mapNew := by
        intro entry member
        obtain ⟨out,absent⟩ := apart entry (List.mem_cons_of_mem _ member)
        exact ⟨fun inside => (Finset.mem_insert.mp inside).elim (others entry member).symm out,absent⟩
      obtain ⟨allTried,allNew,ok,tried,new,cardTried,sizeNew⟩ := ih passesRest distinct apartRest
      refine ⟨allTried,allNew,ok,?_,?_,?_,?_⟩
      · intro k
        rw [tried,Finset.mem_insert,or_comm (a := k = n),or_assoc]
        simp only [and_true]
      · intro k v
        rw [new]
        simp only [Bool.true_eq_false,false_and,and_false,false_or]
      · rw [cardTried,Finset.card_insert_of_notMem notTried,if_pos rfl]
        omega
      · rw [sizeNew]
        rfl
    | false =>
      have apartRest : ∀ entry ∈ rest, entry.1 ∉ setTried ∧ entry.1 ∉ mapNew.insert n info.nRefCount := by
        intro entry member
        obtain ⟨out,absent⟩ := apart entry (List.mem_cons_of_mem _ member)
        refine ⟨out,fun inside => ?_⟩
        rcases ExtTreeMap.mem_insert.mp inside with same | inside
        · exact others entry member (Std.compare_eq_iff_eq.mp same)
        · exact absent inside
      obtain ⟨allTried,allNew,ok,tried,new,cardTried,sizeNew⟩ := ih passesRest distinct apartRest
      refine ⟨allTried,allNew,ok,?_,?_,?_,?_⟩
      · intro k
        rw [tried]
        simp only [Bool.false_eq_true,and_false,false_or]
      · intro k v
        have gone : (k ≠ n ∧ mapNew[k]? = some v) ↔ mapNew[k]? = some v := by
          refine ⟨And.right,fun found => ⟨?_,found⟩⟩
          rintro rfl
          exact notNew (ExtTreeMap.mem_iff_isSome_getElem?.mpr (by rw [found]; rfl))
        rw [new,insert_some_iff,gone,or_comm (b := mapNew[k]? = some v),or_assoc]
        simp only [true_and]
      · rw [cardTried]
        rfl
      · rw [sizeNew,ExtTreeMap.size_insert,if_neg fun inside => notNew (ExtTreeMap.contains_iff_mem.mp inside)]
        simp only [Bool.not_false,if_true]
        omega

/-- What is in the tried buckets goes out of setTried. -/
theorem checkTried_ok {ids : List Int} (once : ids.Nodup) : checkTried ids ids.toFinset = .ok ∅ := by
  induction ids with
  | nil => rfl
  | cons n rest ih =>
    obtain ⟨out,once⟩ := List.nodup_cons.mp once
    have others : (n :: rest).toFinset.erase n = rest.toFinset := by
      rw [List.toFinset_cons]
      exact Finset.erase_insert fun inside => out (List.mem_toFinset.mp inside)
    rw [checkTried,if_neg (not_not.mpr (List.mem_toFinset.mpr (List.mem_cons_self ..))),others]
    exact ih once

/-- What is in the new buckets is counted down in mapNew. -/
theorem checkNew_ok {ids : List Int} {mapNew : ExtTreeMap Int Int} (counts : ∀ n v : Int, mapNew[n]? = some v ↔ v = ids.count n ∧ 0 < v) :
    checkNew ids mapNew = .ok ∅ := by
  induction ids generalizing mapNew with
  | nil =>
    have empty : mapNew = ∅ := by
      apply ExtTreeMap.ext_getElem?
      intro n
      apply Option.ext
      intro v
      rw [counts,ExtTreeMap.getElem?_empty,List.count_nil]
      constructor
      · rintro ⟨rfl,more⟩
        exact absurd more (Int.lt_irrefl 0)
      · intro found
        contradiction
    rw [empty]
    rfl
  | cons n rest ih =>
    have found : mapNew[n]? = some ((rest.count n : Int)+1) := by
      rw [counts,List.count_cons_self]
      omega
    rw [checkNew,found]
    dsimp only
    rw [Int.add_sub_cancel]
    split
    next last =>
      apply ih
      intro k v
      rw [erase_some_iff,counts]
      by_cases same : k = n
      · subst same
        omega
      · rw [List.count_cons_of_ne (Ne.symm same)]
        exact ⟨And.right,fun both => ⟨same,both⟩⟩
    next more =>
      apply ih
      intro k v
      rw [insert_some_iff,counts]
      by_cases same : k = n
      · subst same
        omega
      · rw [List.count_cons_of_ne (Ne.symm same)]
        simp [same]

theorem Linked.once_random (linked : Linked s stray owed) : s.vRandom.Nodup := by
  refine List.nodup_iff_getElem?_ne_getElem?.mpr fun i j before low same => ?_
  obtain ⟨nId,here⟩ : ∃ nId, s.vRandom[j]? = some nId := ⟨_,List.getElem?_eq_getElem low⟩
  obtain ⟨info,found,first⟩ := linked.random i nId (same.trans here)
  obtain ⟨info',found',second⟩ := linked.random j nId here
  obtain rfl := Option.some.inj (found.symm.trans found')
  omega

theorem Linked.random_perm (linked : Linked s stray owed) : s.vRandom.Perm s.mapInfo.keys := by
  refine (List.perm_ext_iff_of_nodup linked.once_random ?_).mpr fun nId => ?_
  · have distinct := @ExtTreeMap.distinct_keys _ _ _ s.mapInfo _
    exact distinct.imp fun different same => different (Std.compare_eq_iff_eq.mpr same)
  · rw [ExtTreeMap.mem_keys,List.mem_iff_getElem?]
    constructor
    · rintro ⟨i,here⟩
      obtain ⟨info,found,_⟩ := linked.random i nId here
      exact ExtTreeMap.mem_iff_isSome_getElem?.mpr (by rw [found]; rfl)
    · intro inside
      obtain ⟨info,found⟩ := Option.isSome_iff_exists.mp (ExtTreeMap.mem_iff_isSome_getElem?.mp inside)
      exact ⟨_,(linked.fits nId info found).back⟩

theorem pooled_inTried (s : CAddrMan) : pooled s.vvTried = (s.inTried : Multiset Int) := pooled_eq_flatMap s.vvTried

theorem count_inNew (s : CAddrMan) (nId : Int) : s.inNew.count nId = holders s.vvNew nId :=
  holders_eq_count s.vvNew (fun b => Finset.sort_nodup (s.vvNew b) _) (fun _ _ => Finset.mem_sort _) nId

theorem Linked.once_inTried (linked : Linked s stray owed) : s.inTried.Nodup := by
  have once := linked.once
  rw [pooled_inTried] at once
  exact Multiset.coe_nodup.mp once

theorem Linked.tried_iff (linked : Linked s stray owed) : nId ∈ s.inTried ↔ ∃ info, s.mapInfo[nId]? = some info ∧ info.fInTried = true := by
  rw [← Multiset.mem_coe,← pooled_inTried]
  constructor
  · intro member
    obtain ⟨info,found⟩ := linked.triedKnown nId member
    exact ⟨info,found,(linked.fits nId info found).inTried.mpr member⟩
  · rintro ⟨info,found,tried⟩
    exact (linked.fits nId info found).inTried.mp tried

theorem Linked.new_iff (linked : Linked s ∅ none) {v : Int} :
    (∃ info, s.mapInfo[nId]? = some info ∧ info.fInTried = false ∧ v = info.nRefCount) ↔ v = s.inNew.count nId ∧ 0 < v := by
  rw [count_inNew]
  constructor
  · rintro ⟨info,found,untried,rfl⟩
    have fits := linked.fits nId info found
    have refs := fits.refs
    rw [if_neg not_owed] at refs
    have low := (fits.passes.new untried).1
    omega
  · rintro ⟨same,more⟩
    obtain ⟨b,inside⟩ := holders_pos_iff.mp (show 0 < holders s.vvNew nId by omega)
    obtain ⟨info,found⟩ := linked.newKnown b nId inside
    have fits := linked.fits nId info found
    have refs := fits.refs
    rw [if_neg not_owed] at refs
    refine ⟨info,found,Bool.eq_false_iff.mpr fun tried => ?_,by omega⟩
    have unheld := (fits.tried tried).1
    omega

/-- What the loop over the entries finds. -/
theorem Linked.infos (linked : Linked s ∅ none) :
    ∃ mapNew : ExtTreeMap Int Int, s.checkInfos s.mapInfo.toList ∅ {} = .ok (s.inTried.toFinset,mapNew) ∧
      (∀ n v : Int, mapNew[n]? = some v ↔ v = s.inNew.count n ∧ 0 < v) ∧
      s.inTried.length = s.mapInfo.toList.countP (fun entry => entry.2.fInTried) ∧
      mapNew.size = s.mapInfo.toList.countP (fun entry => !entry.2.fInTried) := by
  have passes : ∀ entry ∈ s.mapInfo.toList, Passes s entry.1 entry.2 := by
    intro entry member
    exact (linked.fits entry.1 entry.2 (ExtTreeMap.mem_toList_iff_getElem?_eq_some.mp member)).passes
  have distinct : s.mapInfo.toList.Pairwise fun first later => first.1 ≠ later.1 :=
    ExtTreeMap.distinct_keys_toList.imp fun different same => different (Std.compare_eq_iff_eq.mpr same)
  obtain ⟨allTried,allNew,ok,tried,new,cardTried,sizeNew⟩ := checkInfos_ok passes distinct
    (show ∀ entry ∈ s.mapInfo.toList, entry.1 ∉ (∅ : Finset Int) ∧ entry.1 ∉ (∅ : ExtTreeMap Int Int) from
      fun entry _ => ⟨Finset.notMem_empty _,ExtTreeMap.not_mem_empty⟩)
  have same : allTried = s.inTried.toFinset := by
    ext n
    rw [tried,List.mem_toFinset,linked.tried_iff]
    simp only [ExtTreeMap.mem_toList_iff_getElem?_eq_some,Finset.notMem_empty,false_or]
  subst same
  refine ⟨allNew,ok,?_,?_,?_⟩
  · intro n v
    rw [new,← linked.new_iff]
    simp only [ExtTreeMap.mem_toList_iff_getElem?_eq_some,ExtTreeMap.getElem?_empty,reduceCtorEq,false_or]
  · rw [List.toFinset_card_of_nodup linked.once_inTried,Finset.card_empty,Nat.zero_add] at cardTried
    exact cardTried
  · rw [ExtTreeMap.size_empty,Nat.zero_add] at sizeNew
    exact sizeNew

theorem Linked.counts (linked : Linked s ∅ none) :
    s.nTried = s.mapInfo.toList.countP (fun entry => entry.2.fInTried) ∧ s.nNew = s.mapInfo.toList.countP (fun entry => !entry.2.fInTried) := by
  obtain ⟨_,_,_,cardTried,_⟩ := linked.infos
  have tried := linked.triedCount
  rw [pooled_inTried,Multiset.coe_card,cardTried] at tried
  have all := linked.random_perm.length_eq
  rw [ExtTreeMap.length_keys,← ExtTreeMap.length_toList,List.length_eq_countP_add_countP fun entry : Int × CAddrInfo => entry.2.fInTried] at all
  have new := linked.newCount
  rw [Finset.card_empty] at new
  refine ⟨tried,?_⟩
  simp only [Bool.not_eq_true,Bool.decide_eq_false] at all
  omega

theorem Linked.Check_ (linked : Linked s ∅ none) : s.Check_ = 0 := by
  obtain ⟨mapNew,infos,counted,lengthTried,sizeNew⟩ := linked.infos
  obtain ⟨tried,new⟩ := linked.counts
  have all := linked.newCount
  rw [Finset.card_empty] at all
  rw [CAddrMan.Check_,if_neg (by omega),infos]
  dsimp only
  rw [List.toFinset_card_of_nodup linked.once_inTried,if_neg (by omega),if_neg (by omega)]
  rw [checkTried_ok linked.once_inTried]
  dsimp only
  rw [checkNew_ok counted]
  rfl

theorem Linked.alone (linked : Linked s stray owed) {b c : TriedBucket} (here : nId ∈ s.vvTried b) (there : nId ∈ s.vvTried c) : c = b := by
  obtain ⟨_,apart⟩ := List.nodup_flatMap.mp linked.once_inTried
  have : Std.Symm fun d e => List.Disjoint (s.vvTried d) (s.vvTried e) := ⟨fun _ _ => List.Disjoint.symm⟩
  by_contra other
  exact apart.forall (List.mem_finRange c) (List.mem_finRange b) other there here

theorem mem_inTried {b : TriedBucket} (here : nId ∈ s.vvTried b) : nId ∈ s.inTried := List.mem_flatMap.mpr ⟨b,List.mem_finRange b,here⟩

theorem Linked.mem_new (linked : Linked s ∅ none) {b : NewBucket} (here : nId ∈ s.vvNew b) :
    ∃ info, s.mapInfo[nId]? = some info ∧ info.fInTried = false := by
  have held : 0 < s.inNew.count nId := by
    rw [count_inNew]
    exact holders_pos_iff.mpr ⟨b,here⟩
  obtain ⟨info,found,untried,_⟩ := linked.new_iff.mpr ⟨rfl,Int.natCast_pos.mpr held⟩
  exact ⟨info,found,untried⟩

/-- The address manager as it should be: by address and at random places the same entries
    as by id, the right counts, and each entry where its flag says. -/
structure Consistent (s : CAddrMan) : Prop where
  check : s.Check_ = 0
  byAddr : ∀ (addr : CNetAddr) (nId : Int), s.mapAddr[addr]? = some nId ↔ ∃ info, s.mapInfo[nId]? = some info ∧ info.ip = addr
  random : s.vRandom.Perm s.mapInfo.keys
  back : ∀ (nId : Int) info, s.mapInfo[nId]? = some info → 0 ≤ info.nRandomPos ∧ s.vRandom[info.nRandomPos.toNat]? = some nId
  nTried : s.nTried = s.mapInfo.toList.countP fun entry => entry.2.fInTried
  nNew : s.nNew = s.mapInfo.toList.countP fun entry => !entry.2.fInTried
  tried : ∀ (nId : Int) info, s.mapInfo[nId]? = some info → info.fInTried = true → ∃! b, nId ∈ s.vvTried b
  triedOnce : ∀ b, (s.vvTried b).Nodup
  triedOnly : ∀ b, ∀ nId ∈ s.vvTried b, ∃ info, s.mapInfo[nId]? = some info ∧ info.fInTried = true
  new : ∀ (nId : Int) info, s.mapInfo[nId]? = some info → info.fInTried = false →
    info.nRefCount = holders s.vvNew nId ∧ 1 ≤ info.nRefCount ∧ info.nRefCount ≤ ADDRMAN_NEW_BUCKETS_PER_ADDRESS
  newOnly : ∀ b, ∀ nId ∈ s.vvNew b, ∃ info, s.mapInfo[nId]? = some info ∧ info.fInTried = false
  triedSize : ∀ b, (s.vvTried b).length ≤ ADDRMAN_TRIED_BUCKET_SIZE
  newSize : ∀ b, (s.vvNew b).card ≤ ADDRMAN_NEW_BUCKET_SIZE

theorem Linked.consistent (linked : Linked s ∅ none) : Consistent s := by
  obtain ⟨tried,new⟩ := linked.counts
  refine ⟨linked.Check_,?_,linked.random_perm,?_,tried,new,?_,?_,?_,?_,?_,linked.triedSize,linked.newSize⟩
  · intro addr nId
    constructor
    · exact linked.addrs addr nId
    · rintro ⟨info,found,rfl⟩
      exact (linked.fits nId info found).byAddr
  · intro nId info found
    have fits := linked.fits nId info found
    exact ⟨fits.place,fits.back⟩
  · intro nId info found tried
    obtain ⟨b,_,here⟩ := List.mem_flatMap.mp (linked.tried_iff.mpr ⟨info,found,tried⟩)
    exact ⟨b,here,fun c there => linked.alone here there⟩
  · intro b
    exact (List.nodup_flatMap.mp linked.once_inTried).1 b (List.mem_finRange b)
  · intro b nId here
    exact linked.tried_iff.mp (mem_inTried here)
  · intro nId info found untried
    have fits := linked.fits nId info found
    have refs := fits.refs
    rw [if_neg not_owed,Int.add_zero] at refs
    exact ⟨refs,fits.passes.new untried⟩
  · intro b nId here
    exact linked.mem_new here

/-! ### What a check that passes tells -/

/-- What the loop over the entries asks of them, if it finds nothing wrong. -/
theorem checkInfos_passed {entries : List (Int × CAddrInfo)} {setTried : Finset Int} {mapNew : ExtTreeMap Int Int}
    (clean : ∀ code, s.checkInfos entries setTried mapNew = .error code → code = 0) : ∀ entry ∈ entries, 0 ≤ entry.2.nLastTry ∧
      0 ≤ entry.2.nLastSuccess ∧ (entry.2.fInTried = true → entry.2.nRefCount = 0 ∧ entry.2.nLastSuccess ≠ 0) := by
  induction entries generalizing setTried mapNew with
  | nil =>
    intro entry member
    contradiction
  | cons first rest ih =>
    obtain ⟨n,info⟩ := first
    rw [checkInfos] at clean
    by_cases unsuccessful : info.fInTried ∧ info.nLastSuccess = 0
    · rw [if_pos unsuccessful] at clean
      exact absurd (clean _ rfl) (by decide)
    by_cases held : info.fInTried ∧ info.nRefCount ≠ 0
    · rw [if_neg unsuccessful,if_pos held] at clean
      exact absurd (clean _ rfl) (by decide)
    rw [if_neg unsuccessful,if_neg held] at clean
    iterate 4
      split at clean
      · exact absurd (clean _ rfl) (by decide)
    split at clean
    · exact absurd (clean _ rfl) (by decide)
    next tries =>
      split at clean
      · exact absurd (clean _ rfl) (by decide)
      next successes =>
        have later : ∀ entry ∈ rest, 0 ≤ entry.2.nLastTry ∧ 0 ≤ entry.2.nLastSuccess ∧
            (entry.2.fInTried = true → entry.2.nRefCount = 0 ∧ entry.2.nLastSuccess ≠ 0) := by
          split at clean
          · exact ih clean
          · exact ih clean
        intro entry member
        rcases List.mem_cons.mp member with rfl | member
        · refine ⟨not_lt.mp tries,not_lt.mp successes,fun tried => ⟨?_,fun none => unsuccessful ⟨tried,none⟩⟩⟩
          by_contra more
          exact held ⟨tried,more⟩
        · exact later entry member

theorem Consistent.passed (consistent : Consistent s) (found : s.mapInfo[nId]? = some info) :
    0 ≤ info.nLastTry ∧ 0 ≤ info.nLastSuccess ∧ (info.fInTried = true → info.nRefCount = 0 ∧ info.nLastSuccess ≠ 0) := by
  have check := consistent.check
  rw [CAddrMan.Check_] at check
  split at check
  · contradiction
  · have clean : ∀ code, s.checkInfos s.mapInfo.toList ∅ {} = .error code → code = 0 := by
      intro code stopped
      rw [stopped] at check
      exact check
    exact checkInfos_passed clean (nId,info) (ExtTreeMap.mem_toList_iff_getElem?_eq_some.mpr found)

/-- The ids of some of the entries, each once. -/
theorem filtered_ids_nodup (s : CAddrMan) (p : Int × CAddrInfo → Bool) : ((s.mapInfo.toList.filter p).map Prod.fst).Nodup := by
  have distinct : s.mapInfo.toList.Pairwise fun first later => first.1 ≠ later.1 :=
    ExtTreeMap.distinct_keys_toList.imp fun different same => different (Std.compare_eq_iff_eq.mpr same)
  exact List.pairwise_map.mpr (distinct.sublist List.filter_sublist)

theorem Consistent.once (consistent : Consistent s) : s.inTried.Nodup := by
  refine List.nodup_flatMap.mpr ⟨fun b _ => consistent.triedOnce b,?_⟩
  refine (List.nodup_finRange _).imp fun {b c} other nId here there => other ?_
  obtain ⟨info,found,tried⟩ := consistent.triedOnly b nId here
  exact (consistent.tried nId info found tried).unique here there

theorem Consistent.tried_iff (consistent : Consistent s) : nId ∈ s.inTried ↔ ∃ info, s.mapInfo[nId]? = some info ∧ info.fInTried = true := by
  constructor
  · intro member
    obtain ⟨b,_,here⟩ := List.mem_flatMap.mp member
    exact consistent.triedOnly b nId here
  · rintro ⟨info,found,tried⟩
    obtain ⟨b,here,_⟩ := consistent.tried nId info found tried
    exact mem_inTried here

theorem Consistent.tried_perm (consistent : Consistent s) : s.inTried.Perm ((s.mapInfo.toList.filter fun entry => entry.2.fInTried).map Prod.fst) := by
  refine (List.perm_ext_iff_of_nodup consistent.once (filtered_ids_nodup s _)).mpr fun nId => ?_
  rw [consistent.tried_iff,List.mem_map]
  constructor
  · rintro ⟨info,found,tried⟩
    exact ⟨(nId,info),List.mem_filter.mpr ⟨ExtTreeMap.mem_toList_iff_getElem?_eq_some.mpr found,tried⟩,rfl⟩
  · rintro ⟨⟨k,info⟩,member,rfl⟩
    obtain ⟨found,tried⟩ := List.mem_filter.mp member
    exact ⟨info,ExtTreeMap.mem_toList_iff_getElem?_eq_some.mp found,tried⟩

/-- An entry counts the new buckets that hold it, also if it is a tried one. -/
theorem Consistent.refs (consistent : Consistent s) (found : s.mapInfo[nId]? = some info) : info.nRefCount = holders s.vvNew nId := by
  cases kind : info.fInTried with
  | true =>
    have unheld : holders s.vvNew nId = 0 := by
      by_contra more
      obtain ⟨b,inside⟩ := holders_pos_iff.mp (Nat.pos_of_ne_zero more)
      obtain ⟨other,found',untried⟩ := consistent.newOnly b nId inside
      obtain rfl := Option.some.inj (found.symm.trans found')
      rw [kind] at untried
      contradiction
    rw [((consistent.passed found).2.2 kind).1,unheld]
    rfl
  | false => exact (consistent.new nId info found kind).1

/-- Such tables agree, if the ids have been counted. -/
theorem Consistent.linked (consistent : Consistent s) (counted : ∀ (nId : Int) info, s.mapInfo[nId]? = some info → nId < s.nIdCount) :
    Linked s ∅ none := by
  have once := consistent.random.nodup_iff.mpr (ExtTreeMap.distinct_keys.imp fun different same => different (Std.compare_eq_iff_eq.mpr same))
  have pool : pooled s.vvTried = (s.inTried : Multiset Int) := pooled_inTried s
  refine ⟨?_,?_,?_,?_,?_,nofun,nofun,?_,?_,?_,consistent.newSize,consistent.triedSize⟩
  · intro nId info found
    obtain ⟨tries,successes,succeeded⟩ := consistent.passed found
    obtain ⟨place,back⟩ := consistent.back nId info found
    refine ⟨counted nId info found,(consistent.byAddr info.ip nId).mpr ⟨info,found,rfl⟩,place,back,tries,successes,?_,?_,succeeded,?_,nofun⟩
    · rw [if_neg not_owed,Int.add_zero]
      exact consistent.refs found
    · rw [pool,Multiset.mem_coe,consistent.tried_iff]
      constructor
      · exact fun tried => ⟨info,found,tried⟩
      · rintro ⟨other,found',tried⟩
        obtain rfl := Option.some.inj (found.symm.trans found')
        exact tried
    · exact fun untried _ => (consistent.new nId info found untried).2
  · intro i nId here
    have known : nId ∈ s.mapInfo := ExtTreeMap.mem_keys.mp (consistent.random.mem_iff.mp (List.mem_of_getElem? here))
    obtain ⟨info,found⟩ := Option.isSome_iff_exists.mp (ExtTreeMap.mem_iff_isSome_getElem?.mp known)
    obtain ⟨place,back⟩ := consistent.back nId info found
    refine ⟨info,found,?_⟩
    have low := (List.getElem?_eq_some_iff.mp back).1
    have same := (List.getElem?_inj low once).mp (back.trans here.symm)
    omega
  · exact fun addr nId here => (consistent.byAddr addr nId).mp here
  · intro nId member
    rw [pool,Multiset.mem_coe,consistent.tried_iff] at member
    obtain ⟨info,found,_⟩ := member
    exact ⟨info,found⟩
  · intro b nId member
    obtain ⟨info,found,_⟩ := consistent.newOnly b nId member
    exact ⟨info,found⟩
  · rw [pool]
    exact Multiset.coe_nodup.mpr consistent.once
  · rw [pool,Multiset.coe_card,consistent.tried_perm.length_eq,List.length_map,consistent.nTried,List.countP_eq_length_filter]
  · have all := consistent.random.length_eq
    rw [ExtTreeMap.length_keys,← ExtTreeMap.length_toList,List.length_eq_countP_add_countP fun entry : Int × CAddrInfo => entry.2.fInTried] at all
    simp only [Bool.not_eq_true,Bool.decide_eq_false] at all
    rw [Finset.card_empty,consistent.nNew,consistent.nTried,all]
    push_cast
    omega

/-- Whatever the calls, whatever is drawn and hashed, the address manager is as it should
    be, and no assertion fails on the way. -/
theorem stays_consistent (rules : AddrRules) {events : List AddrEvent} (timely : ∀ event ∈ events, event.Timely) :
    ∃ s, CAddrMan.run rules {} events = .ok s ∧ Consistent s := by
  obtain ⟨s,ran,linked⟩ := linked_new.run timely
  exact ⟨s,ran,linked.consistent⟩

private def sampleRules : AddrRules where
  IsRoutable ip := ip ≠ 0
  TriedHash _ := 5
  NewHash ip src := .ofNat (ip+src)

private def sampleCalls : List AddrEvent :=
  let addr (ip : CNetAddr) : CAddress := {ip,port := 8333,nServices := 1,nTime := 1000}
  [.Add_ (addr 1) 9 0 (fun _ => 2000) fun _ => 0,.Add_ (addr 2) 9 60 (fun _ => 2000) fun _ => 0,.Add_ (addr 2) 8 0 (fun _ => 9000000) fun _ => 0,
    .Good_ ⟨1,8333⟩ 3000 fun _ => 0,.Attempt_ ⟨2,8333⟩ 4000,.Connected_ ⟨1,8333⟩ 90000,.GetAddr_ fun _ => 1,.Select_ true [⟨5,0,true⟩]]

theorem stays_consistent_sample : ∃ s, CAddrMan.run sampleRules {} sampleCalls = .ok s ∧ Consistent s := by
  refine stays_consistent sampleRules ?_
  simp [sampleCalls,AddrEvent.Timely]

end CAddrMan
end Tetra
