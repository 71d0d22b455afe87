import Mathlib
import Tetra.Multimap

/-!
A map that is to keep only the elements of highest value, with a second index that finds
the lowest ones.
-/
namespace Tetra
open Std

/-- How an operation goes wrong: `begin()` of an empty index dereferenced, or `assert(0)`. -/
inductive MapFault
  | emptyBegin
  | assertion
deriving DecidableEq

/-- `limitedmap`. An iterator into `map` is the key it stands at; `rmap` is in its order of
    iteration. A limit of zero is none. -/
structure LimitedMap (K V : Type) [LinearOrder K] where
  map : ExtTreeMap K V compare := ∅
  rmap : List (V × K) := []
  nMaxSize : Nat

namespace LimitedMap
variable {K V : Type} [LinearOrder K] [LinearOrder V]

abbrev Index (V K : Type) := List (V × K)

/-- `rmap.insert(make_pair(v, it))` -/
def enter (rmap : Index V K) (v : V) (k : K) : Index V K := Multimap.insert (fun a b => decide (a < b)) (v,k) rmap

/-- The element at `rmap.begin()` is erased from both. -/
def evict (map : ExtTreeMap K V compare) : Index V K → Except MapFault (ExtTreeMap K V compare × Index V K)
  | [] => .error .emptyBegin
  | lowest :: rmap => .ok (map.erase lowest.2,rmap)

def insert (m : LimitedMap K V) (k : K) (v : V) : Except MapFault (LimitedMap K V) :=
  if k ∈ m.map then .ok m
  else
    let map := m.map.insert k v
    if m.nMaxSize ≠ 0 ∧ map.size = m.nMaxSize then
      (evict map m.rmap).map fun (map,rmap) => {m with map := map,rmap := enter rmap v k}
    else .ok {m with map := map,rmap := enter m.rmap v k}

def erase (m : LimitedMap K V) (k : K) : Except MapFault (LimitedMap K V) :=
  match m.map[k]? with
  | none => .ok m
  | some old => if (old,k) ∈ m.rmap then .ok {m with map := m.map.erase k,rmap := m.rmap.erase (old,k)} else .error .assertion

/-- `update` at an iterator whose key is `k`. -/
def update (m : LimitedMap K V) (k : K) (v : V) : Except MapFault (LimitedMap K V) :=
  match m.map[k]? with
  | none => .ok m
  | some old =>
    if (old,k) ∈ m.rmap then .ok {m with map := m.map.insert k v,rmap := enter (m.rmap.erase (old,k)) v k} else .error .assertion

/-- The loop of `max_size(s)`. -/
def shrink (s : Nat) : ExtTreeMap K V compare → Index V K → Except MapFault (ExtTreeMap K V compare × Index V K)
  | map, [] => if map.size > s then .error .emptyBegin else .ok (map,[])
  | map, lowest :: rmap => if map.size > s then shrink s (map.erase lowest.2) rmap else .ok (map,lowest :: rmap)

/-- `max_size(s)` -/
def setMaxSize (m : LimitedMap K V) (s : Nat) : Except MapFault (LimitedMap K V) :=
  if s ≠ 0 then (shrink s m.map m.rmap).map fun (map,rmap) => ⟨map,rmap,s⟩ else .ok {m with nMaxSize := s}

inductive Op (K V : Type)
  | insert (k : K) (v : V)
  | erase (k : K)
  | update (k : K) (v : V)
  | max_size (s : Nat)

def step (m : LimitedMap K V) : Op K V → Except MapFault (LimitedMap K V)
  | .insert k v => m.insert k v
  | .erase k => m.erase k
  | .update k v => m.update k v
  | .max_size s => m.setMaxSize s

/-- Each element stands once in the index, under its value, and the index is in order. -/
structure Aligned (m : LimitedMap K V) : Prop where
  mem : ∀ v k, (v,k) ∈ m.rmap ↔ m.map[k]? = some v
  nodup : m.rmap.Nodup
  sorted : m.rmap.Pairwise (fun a b => a.1 ≤ b.1)

def Bounded (m : LimitedMap K V) : Prop := 0 < m.nMaxSize → m.map.size ≤ m.nMaxSize

/-- What an operation does to the elements. A new one is there afterwards, in both indices,
    and what went for it was lowest of those before; a smaller limit takes none that is
    higher than one it leaves. -/
def Evicts (m m' : LimitedMap K V) : Op K V → Prop
  | .insert k v =>
    (m.map[k]? = none → m'.map[k]? = some v ∧ (v,k) ∈ m'.rmap) ∧
      ∀ (gone : K) (low : V), m.map[gone]? = some low → m'.map[gone]? = none → ∀ (other : K) (w : V), m.map[other]? = some w → low ≤ w
  | .max_size _ => ∀ (gone : K) (low : V), m.map[gone]? = some low → m'.map[gone]? = none → ∀ (other : K) (w : V), m'.map[other]? = some w → low ≤ w
  | _ => True

/-- Nothing goes wrong, and what the class promises holds after every operation. -/
def Keeps (m : LimitedMap K V) : List (Op K V) → Prop
  | [] => True
  | op :: ops => ∃ m', m.step op = .ok m' ∧ Aligned m' ∧ Bounded m' ∧ Evicts m m' op ∧ Keeps m' ops

/-- A new element comes to a map with no limit, or to one that is below its limit, which is
    not one. -/
def Room (m : LimitedMap K V) : Op K V → Prop
  | .insert k _ => m.map[k]? = none → m.nMaxSize = 0 ∨ m.map.size < m.nMaxSize ∧ m.nMaxSize ≠ 1
  | _ => True

/-- Every operation has room when it comes. -/
def Roomy (m : LimitedMap K V) : List (Op K V) → Prop
  | [] => True
  | op :: ops => Room m op ∧ ∀ m', m.step op = .ok m' → Roomy m' ops

section
variable {m m' : LimitedMap K V} {map : ExtTreeMap K V compare} {rmap : Index V K} {n : Nat} {k : K} {v : V}

omit [LinearOrder K] in
theorem mem_enter {e : V × K} : e ∈ enter rmap v k ↔ e = (v,k) ∨ e ∈ rmap := by
  rw [enter,(Multimap.insert_perm _ _).mem_iff,List.mem_cons]

namespace Aligned

/-- Both indices have as many entries. -/
theorem length (aligned : Aligned m) : m.rmap.length = m.map.size := by
  have distinct : m.map.toList.Nodup :=
    ExtTreeMap.distinct_keys_toList.imp fun different same => different (by rw [same]; exact ReflCmp.compare_self)
  have same : m.rmap.Perm (m.map.toList.map Prod.swap) := by
    refine (List.perm_ext_iff_of_nodup aligned.nodup (distinct.map Prod.swap_injective)).mpr fun ⟨v,k⟩ => ?_
    rw [aligned.mem,List.mem_map]
    constructor
    · intro found
      exact ⟨(k,v),ExtTreeMap.mem_toList_iff_getElem?_eq_some.mpr found,rfl⟩
    · rintro ⟨⟨k',v'⟩,member,same⟩
      obtain ⟨rfl,rfl⟩ := Prod.mk.inj same
      exact ExtTreeMap.mem_toList_iff_getElem?_eq_some.mp member
  rw [same.length_eq,List.length_map,ExtTreeMap.length_toList]

theorem empty : Aligned (⟨∅,[],n⟩ : LimitedMap K V) := ⟨by simp,List.nodup_nil,List.Pairwise.nil⟩

theorem add (aligned : Aligned (⟨map,rmap,n⟩ : LimitedMap K V)) (absent : map[k]? = none) : Aligned ⟨map.insert k v,enter rmap v k,n⟩ := by
  obtain ⟨mem,nodup,sorted⟩ := aligned
  refine ⟨fun w j => ?_,?_,Multimap.insert_sorted _ sorted⟩
  · have before := mem w j
    change (w,j) ∈ enter rmap v k ↔ (map.insert k v)[j]? = some w
    rw [mem_enter,ExtTreeMap.getElem?_insert]
    by_cases same : k = j
    · obtain rfl := same
      have missing : (w,k) ∉ rmap := fun member => by simp [absent] at before; exact before member
      simp [missing,eq_comm]
    · simp [same,Ne.symm same,before]
  · refine ((Multimap.insert_perm _ _).nodup_iff).mpr (List.nodup_cons.mpr ⟨fun member => ?_,nodup⟩)
    have present := (mem v k).mp member
    rw [absent] at present
    contradiction

theorem remove (aligned : Aligned (⟨map,rmap,n⟩ : LimitedMap K V)) (found : map[k]? = some v) :
    Aligned ⟨map.erase k,rmap.erase (v,k),n⟩ := by
  obtain ⟨mem,nodup,sorted⟩ := aligned
  refine ⟨fun w j => ?_,nodup.erase _,sorted.sublist List.erase_sublist⟩
  have before := mem w j
  change (w,j) ∈ rmap.erase (v,k) ↔ (map.erase k)[j]? = some w
  rw [nodup.mem_erase_iff,ExtTreeMap.getElem?_erase]
  by_cases same : k = j
  · obtain rfl := same
    have only : (w,k) ∈ rmap → w = v := fun member => by
      have present := before.mp member
      rw [found] at present
      exact (Option.some.inj present).symm
    simpa [Prod.ext_iff] using fun different member => different (only member)
  · simp [same,Prod.ext_iff,Ne.symm same,before]

/-- The first entry of the index is lowest. -/
theorem first {lowest : V × K} (aligned : Aligned (⟨map,lowest :: rmap,n⟩ : LimitedMap K V)) :
    map[lowest.2]? = some lowest.1 ∧ ∀ (j : K) (w : V), map[j]? = some w → lowest.1 ≤ w := by
  refine ⟨(aligned.mem lowest.1 lowest.2).mp (by simp),fun j w found => ?_⟩
  rcases List.mem_cons.mp ((aligned.mem w j).mpr found) with same | later
  · rw [← same]
  · exact (List.pairwise_cons.mp aligned.sorted).1 (w,j) later

theorem tail {lowest : V × K} (aligned : Aligned (⟨map,lowest :: rmap,n⟩ : LimitedMap K V)) : Aligned ⟨map.erase lowest.2,rmap,n⟩ := by
  have removed := aligned.remove aligned.first.1
  rwa [List.erase_cons_head] at removed

end Aligned

omit [LinearOrder V] in
theorem size_absent (absent : map[k]? = none) : (map.insert k v).size = map.size+1 := by
  rw [ExtTreeMap.size_insert,if_neg]
  rw [ExtTreeMap.contains_eq_isSome_getElem?,absent]
  simp

omit [LinearOrder V] in
theorem size_found (found : map[k]? = some v) : (map.erase k).size+1 = map.size := by
  have present : map.contains k = true := by rw [ExtTreeMap.contains_eq_isSome_getElem?,found]; rfl
  have some : map.size ≠ 0 := fun none => by
    rw [← ExtTreeMap.length_toList,List.length_eq_zero_iff] at none
    have member := ExtTreeMap.mem_toList_iff_getElem?_eq_some.mpr found
    simp [none] at member
  rw [ExtTreeMap.size_erase,if_pos present]
  omega

omit [LinearOrder V] in
theorem insert_erase {j : K} (other : k ≠ j) : (map.insert k v).erase j = (map.erase j).insert k v := by
  refine ExtTreeMap.ext_getElem? fun i => ?_
  rw [ExtTreeMap.getElem?_erase,ExtTreeMap.getElem?_insert,ExtTreeMap.getElem?_insert,ExtTreeMap.getElem?_erase]
  by_cases same : j = i
  · simp [← same,other]
  · simp [same]

omit [LinearOrder V] in
theorem not_mem (absent : map[k]? = none) : k ∉ map := by
  intro there
  rw [ExtTreeMap.mem_iff_isSome_getElem?,absent] at there
  simp at there

theorem insert_held {old : V} (present : m.map[k]? = some old) : m.insert k v = .ok m :=
  if_pos (ExtTreeMap.mem_iff_isSome_getElem?.mpr (by rw [present]; rfl))

/-- A new element goes in beside the others. -/
theorem insert_adds (aligned : Aligned m) (absent : m.map[k]? = none) (below : ¬ (m.nMaxSize ≠ 0 ∧ m.map.size+1 = m.nMaxSize)) :
    ∃ m', m.insert k v = .ok m' ∧ Aligned m' ∧ m'.nMaxSize = m.nMaxSize ∧ m'.map.size = m.map.size+1 ∧ Evicts m m' (.insert k v) := by
  refine ⟨{m with map := m.map.insert k v,rmap := enter m.rmap v k},?_,aligned.add absent,rfl,size_absent absent,?_,?_⟩
  · rw [insert,if_neg (not_mem absent)]
    exact if_neg (by rwa [size_absent absent])
  · exact fun _ => ⟨ExtTreeMap.getElem?_insert_self,mem_enter.mpr (.inl rfl)⟩
  · intro gone low there away
    change (m.map.insert k v)[gone]? = none at away
    rw [ExtTreeMap.getElem?_insert] at away
    split_ifs at away
    rw [there] at away
    contradiction

/-- A new element takes the place of the lowest one. -/
theorem insert_evicts {lowest : V × K} (aligned : Aligned ⟨map,lowest :: rmap,n⟩) (absent : map[k]? = none) (limited : n ≠ 0)
    (full : map.size+1 = n) :
    ∃ m' : LimitedMap K V, insert ⟨map,lowest :: rmap,n⟩ k v = .ok m' ∧ Aligned m' ∧ m'.nMaxSize = n ∧ m'.map.size = map.size ∧
      Evicts ⟨map,lowest :: rmap,n⟩ m' (.insert k v) := by
  have found := aligned.first.1
  have other : k ≠ lowest.2 := fun same => by rw [← same,absent] at found; contradiction
  have left : (map.erase lowest.2)[k]? = none := by rw [ExtTreeMap.getElem?_erase,absent,ite_self]
  refine ⟨⟨(map.erase lowest.2).insert k v,enter rmap v k,n⟩,?_,aligned.tail.add left,rfl,?_,?_,?_⟩
  · rw [insert,if_neg (not_mem absent)]
    change (if n ≠ 0 ∧ (map.insert k v).size = n then _ else _) = _
    rw [if_pos ⟨limited,by rwa [size_absent absent]⟩,evict,insert_erase other]
    rfl
  · change ((map.erase lowest.2).insert k v).size = map.size
    rw [size_absent left,size_found found]
  · exact fun _ => ⟨ExtTreeMap.getElem?_insert_self,mem_enter.mpr (.inl rfl)⟩
  · intro gone low there away i w found
    change ((map.erase lowest.2).insert k v)[gone]? = none at away
    have evicted : gone = lowest.2 := by
      rw [ExtTreeMap.getElem?_insert,ExtTreeMap.getElem?_erase] at away
      split_ifs at away with _ same
      · exact (LawfulEqCmp.eq_of_compare same).symm
      · rw [show map[gone]? = some low from there] at away
        contradiction
    have lowest_there := aligned.first.1
    rw [← evicted] at lowest_there
    rw [show map[gone]? = some low from there] at lowest_there
    rw [Option.some.inj lowest_there]
    exact aligned.first.2 i w found

/-- Where the limit is one, the lowest element is looked for in an empty index. -/
theorem insert_empty (absent : map[k]? = none) (full : map.size+1 = 1) :
    (⟨map,[],1⟩ : LimitedMap K V).insert k v = .error .emptyBegin := by
  rw [insert,if_neg (not_mem absent)]
  change (if 1 ≠ 0 ∧ (map.insert k v).size = 1 then _ else _) = _
  rw [if_pos ⟨one_ne_zero,by rwa [size_absent absent]⟩]
  rfl

/-- An insertion keeps the class's promises where it has room, and nowhere else. -/
theorem insert_keeps (aligned : Aligned m) (bounded : Bounded m) :
    (∃ m', m.insert k v = .ok m' ∧ Aligned m' ∧ Bounded m' ∧ Evicts m m' (.insert k v)) ↔ Room m (.insert k v) := by
  cases present : m.map[k]? with
  | some old =>
    refine ⟨fun _ absent => ?_,fun _ => ⟨m,insert_held present,aligned,bounded,fun absent => ?_,fun gone low there away => ?_⟩⟩
    · rw [present] at absent
      contradiction
    · rw [present] at absent
      contradiction
    · rw [there] at away
      contradiction
  | none =>
    by_cases full : m.nMaxSize ≠ 0 ∧ m.map.size+1 = m.nMaxSize
    · obtain ⟨map,rmap,nMaxSize⟩ := m
      have length := aligned.length
      change nMaxSize ≠ 0 ∧ map.size+1 = nMaxSize at full
      change rmap.length = map.size at length
      cases rmap with
      | nil =>
        obtain rfl : nMaxSize = 1 := by rw [← full.2,← length]; rfl
        constructor
        · rintro ⟨m',inserted,_⟩
          rw [insert_empty present full.2] at inserted
          contradiction
        · intro room
          rcases room present with none | ⟨_,other⟩
          · exact absurd none one_ne_zero
          · exact absurd rfl other
      | cons lowest rmap =>
        obtain ⟨m',inserted,aligned',limit,size,evicts⟩ := insert_evicts aligned present full.1 full.2
        refine ⟨fun _ _ => .inr ?_,fun _ => ⟨m',inserted,aligned',fun _ => ?_,evicts⟩⟩
        · rw [List.length_cons] at length
          exact ⟨by change map.size < nMaxSize; omega,by change nMaxSize ≠ 1; omega⟩
        · omega
    · obtain ⟨m',inserted,aligned',limit,size,evicts⟩ := insert_adds (v := v) aligned present full
      constructor
      · rintro ⟨kept,again,_,bounded',_⟩ _
        obtain rfl := Except.ok.inj (inserted.symm.trans again)
        rw [Bounded,limit,size] at bounded'
        omega
      · intro room
        refine ⟨m',inserted,aligned',?_,evicts⟩
        have room := room present
        rw [Bounded,limit,size]
        omega

/-- While the limit is not one and is not changed, the elements stay fewer than it. -/
theorem insert_below {m' : LimitedMap K V} (aligned : Aligned m) (below : m.nMaxSize = 0 ∨ m.map.size < m.nMaxSize)
    (inserted : m.insert k v = .ok m') : m'.nMaxSize = m.nMaxSize ∧ (m.nMaxSize = 0 ∨ m'.map.size < m.nMaxSize) := by
  cases present : m.map[k]? with
  | some old =>
    obtain rfl := Except.ok.inj ((insert_held present).symm.trans inserted)
    exact ⟨rfl,below⟩
  | none =>
    by_cases full : m.nMaxSize ≠ 0 ∧ m.map.size+1 = m.nMaxSize
    · obtain ⟨map,rmap,nMaxSize⟩ := m
      change nMaxSize ≠ 0 ∧ map.size+1 = nMaxSize at full
      cases rmap with
      | nil =>
        have none : map.size = 0 := aligned.length.symm
        obtain rfl : nMaxSize = 1 := by omega
        rw [insert_empty present full.2] at inserted
        contradiction
      | cons lowest rmap =>
        obtain ⟨m',there,_,limit,size,_⟩ := insert_evicts aligned present full.1 full.2
        obtain rfl := Except.ok.inj (there.symm.trans inserted)
        refine ⟨limit,.inr ?_⟩
        rw [size]
        change map.size < nMaxSize
        omega
    · obtain ⟨m',there,_,limit,size,_⟩ := insert_adds (v := v) aligned present full
      obtain rfl := Except.ok.inj (there.symm.trans inserted)
      refine ⟨limit,?_⟩
      omega

omit [LinearOrder V] in
theorem Bounded.fewer {m' : LimitedMap K V} (bounded : Bounded m) (limit : m'.nMaxSize = m.nMaxSize) (fewer : m'.map.size ≤ m.map.size) :
    Bounded m' := by
  intro positive
  rw [limit] at positive ⊢
  exact fewer.trans (bounded positive)

theorem erase_keeps (aligned : Aligned m) (k : K) :
    ∃ m', m.erase k = .ok m' ∧ Aligned m' ∧ m'.nMaxSize = m.nMaxSize ∧ m'.map.size ≤ m.map.size := by
  rw [erase]
  cases found : m.map[k]? with
  | none => exact ⟨m,rfl,aligned,rfl,le_rfl⟩
  | some old =>
    refine ⟨_,if_pos ((aligned.mem old k).mpr found),aligned.remove found,rfl,?_⟩
    have size := size_found found
    change (m.map.erase k).size ≤ m.map.size
    omega

theorem update_keeps (aligned : Aligned m) (k : K) (v : V) :
    ∃ m', m.update k v = .ok m' ∧ Aligned m' ∧ m'.nMaxSize = m.nMaxSize ∧ m'.map.size ≤ m.map.size := by
  rw [update]
  cases found : m.map[k]? with
  | none => exact ⟨m,rfl,aligned,rfl,le_rfl⟩
  | some old =>
    have left : (m.map.erase k)[k]? = none := ExtTreeMap.getElem?_erase_self
    have same : (m.map.erase k).insert k v = m.map.insert k v := by
      refine ExtTreeMap.ext_getElem? fun i => ?_
      rw [ExtTreeMap.getElem?_insert,ExtTreeMap.getElem?_insert,ExtTreeMap.getElem?_erase]
      split_ifs <;> rfl
    have added := (aligned.remove found).add (v := v) left
    rw [same] at added
    refine ⟨_,if_pos ((aligned.mem old k).mpr found),added,rfl,?_⟩
    have size := size_absent (v := v) left
    rw [same,size_found found] at size
    exact size.le

/-- The loop takes the lowest elements, until no more than `s` are left. -/
theorem shrink_keeps (s : Nat) (aligned : Aligned (⟨map,rmap,n⟩ : LimitedMap K V)) :
    ∃ map' rmap', shrink s map rmap = .ok (map',rmap') ∧ Aligned ⟨map',rmap',s⟩ ∧ map'.size ≤ s ∧
      (∀ (i : K) (w : V), map'[i]? = some w → map[i]? = some w) ∧
      ∀ (gone : K) (low : V), map[gone]? = some low → map'[gone]? = none → ∀ (other : K) (w : V), map'[other]? = some w → low ≤ w := by
  induction rmap generalizing map with
  | nil =>
    have none : map.size = 0 := aligned.length.symm
    refine ⟨map,[],if_neg (by omega),⟨aligned.mem,aligned.nodup,aligned.sorted⟩,by omega,fun _ _ found => found,fun gone low there away => ?_⟩
    rw [there] at away
    contradiction
  | cons lowest rmap ih =>
    rw [shrink]
    by_cases more : map.size > s
    · obtain ⟨map',rmap',shrunk,aligned',size,kept,evicts⟩ := ih aligned.tail
      have earlier (i : K) (w : V) (found : map'[i]? = some w) : map[i]? = some w := by
        have before := kept i w found
        rw [ExtTreeMap.getElem?_erase] at before
        split_ifs at before
        exact before
      refine ⟨map',rmap',by rw [if_pos more,shrunk],aligned',size,earlier,fun gone low there away other w found => ?_⟩
      by_cases first : gone = lowest.2
      · obtain rfl : low = lowest.1 := by
          have value := aligned.first.1
          rw [← first] at value
          exact Option.some.inj (there.symm.trans value)
        exact aligned.first.2 other w (earlier other w found)
      · refine evicts gone low ?_ away other w found
        rw [ExtTreeMap.getElem?_erase,if_neg (by simpa using Ne.symm first)]
        exact there
    · refine ⟨map,lowest :: rmap,if_neg more,⟨aligned.mem,aligned.nodup,aligned.sorted⟩,by omega,fun _ _ found => found,fun gone low there away => ?_⟩
      rw [there] at away
      contradiction

theorem setMaxSize_keeps (aligned : Aligned m) (s : Nat) :
    ∃ m', m.setMaxSize s = .ok m' ∧ Aligned m' ∧ Bounded m' ∧ Evicts m m' (.max_size s) := by
  rw [setMaxSize]
  by_cases limited : s ≠ 0
  · obtain ⟨map',rmap',shrunk,aligned',size,_,evicts⟩ := shrink_keeps s aligned
    exact ⟨⟨map',rmap',s⟩,by rw [if_pos limited,shrunk]; rfl,aligned',fun _ => size,evicts⟩
  · refine ⟨_,if_neg limited,⟨aligned.mem,aligned.nodup,aligned.sorted⟩,fun positive => absurd positive.ne' limited,fun gone low there away => ?_⟩
    rw [there] at away
    contradiction

/-- An operation that has room keeps the class's promises, and no other does. -/
theorem step_keeps (aligned : Aligned m) (bounded : Bounded m) (op : Op K V) :
    (∃ m', m.step op = .ok m' ∧ Aligned m' ∧ Bounded m' ∧ Evicts m m' op) ↔ Room m op := by
  cases op with
  | insert k v => exact insert_keeps aligned bounded
  | erase k =>
    obtain ⟨m',erased,aligned',limit,fewer⟩ := erase_keeps aligned k
    exact ⟨fun _ => trivial,fun _ => ⟨m',erased,aligned',bounded.fewer limit fewer,trivial⟩⟩
  | update k v =>
    obtain ⟨m',updated,aligned',limit,fewer⟩ := update_keeps aligned k v
    exact ⟨fun _ => trivial,fun _ => ⟨m',updated,aligned',bounded.fewer limit fewer,trivial⟩⟩
  | max_size s => exact ⟨fun _ => trivial,fun _ => setMaxSize_keeps aligned s⟩

theorem keeps_iff (aligned : Aligned m) (bounded : Bounded m) (ops : List (Op K V)) : Keeps m ops ↔ Roomy m ops := by
  induction ops generalizing m with
  | nil => exact Iff.rfl
  | cons op ops ih =>
    constructor
    · rintro ⟨m',stepped,aligned',bounded',evicts,later⟩
      refine ⟨(step_keeps aligned bounded op).mp ⟨m',stepped,aligned',bounded',evicts⟩,fun again same => ?_⟩
      obtain rfl := Except.ok.inj (stepped.symm.trans same)
      exact (ih aligned' bounded').mp later
    · rintro ⟨room,later⟩
      obtain ⟨m',stepped,aligned',bounded',evicts⟩ := (step_keeps aligned bounded op).mpr room
      exact ⟨m',stepped,aligned',bounded',evicts,(ih aligned' bounded').mpr (later m' stepped)⟩

theorem below_keeps (aligned : Aligned m) (other : m.nMaxSize ≠ 1) (below : m.nMaxSize = 0 ∨ m.map.size < m.nMaxSize)
    {ops : List (Op K V)} (fixed : ∀ s, .max_size s ∉ ops) : Keeps m ops := by
  induction ops generalizing m with
  | nil => trivial
  | cons op ops ih =>
    have later (s : Nat) : .max_size s ∉ ops := fun member => fixed s (List.mem_cons_of_mem _ member)
    have bounded : Bounded m := fun positive => by omega
    have next (m' : LimitedMap K V) (aligned' : Aligned m') (limit : m'.nMaxSize = m.nMaxSize)
        (below' : m.nMaxSize = 0 ∨ m'.map.size < m.nMaxSize) : Bounded m' ∧ Keeps m' ops :=
      ⟨fun positive => by omega,ih aligned' (by omega) (by omega) later⟩
    cases op with
    | insert k v =>
      obtain ⟨m',inserted,aligned',bounded',evicts⟩ := (insert_keeps aligned bounded).mpr fun _ => below.imp_right fun less => ⟨less,other⟩
      obtain ⟨limit,below'⟩ := insert_below aligned below inserted
      exact ⟨m',inserted,aligned',bounded',evicts,(next m' aligned' limit below').2⟩
    | erase k =>
      obtain ⟨m',erased,aligned',limit,fewer⟩ := erase_keeps aligned k
      obtain ⟨bounded',kept⟩ := next m' aligned' limit (by omega)
      exact ⟨m',erased,aligned',bounded',trivial,kept⟩
    | update k v =>
      obtain ⟨m',updated,aligned',limit,fewer⟩ := update_keeps aligned k v
      obtain ⟨bounded',kept⟩ := next m' aligned' limit (by omega)
      exact ⟨m',updated,aligned',bounded',trivial,kept⟩
    | max_size s => exact absurd List.mem_cons_self (fixed s)

end

/-- Over any operations on a new map the indices stay aligned, the limit holds and no empty
    index is dereferenced just when each new element has room. -/
theorem limitedmap_keeps (nMaxSizeIn : Nat) (ops : List (Op K V)) :
    Keeps (⟨∅,[],nMaxSizeIn⟩ : LimitedMap K V) ops ↔ Roomy (⟨∅,[],nMaxSizeIn⟩ : LimitedMap K V) ops :=
  keeps_iff Aligned.empty (fun _ => Nat.zero_le _) ops

/-- A map keeps its promises whose limit is not one and is never set again, as that of the
    inventory already asked for. -/
theorem fixed_limit {nMaxSizeIn : Nat} (other : nMaxSizeIn ≠ 1) {ops : List (Op K V)} (fixed : ∀ s, .max_size s ∉ ops) :
    Keeps (⟨∅,[],nMaxSizeIn⟩ : LimitedMap K V) ops := by
  refine below_keeps Aligned.empty other ?_ fixed
  change nMaxSizeIn = 0 ∨ 0 < nMaxSizeIn
  omega

/-- A limit set to the number of elements lets the next one in. -/
theorem limit_exceeded : ¬ Keeps (⟨∅,[],0⟩ : LimitedMap Nat Nat) [.insert 1 1,.insert 2 2,.max_size 2,.insert 3 3] := by
  rintro ⟨m1,first,_,_,_,m2,second,_,_,_,m3,third,_,_,_,m4,fourth,_,bounded,_⟩
  have sizes : ((⟨∅,[],0⟩ : LimitedMap Nat Nat).step (.insert 1 1) >>= fun m => m.step (.insert 2 2) >>= fun m =>
      m.step (.max_size 2) >>= fun m => m.step (.insert 3 3)).toOption.map (fun m => (m.map.size,m.nMaxSize)) = some (3,2) := by
    decide +kernel
  simp only [first,second,third,fourth,bind,Except.bind,Except.toOption,Option.map_some,Option.some.injEq,Prod.mk.injEq] at sizes
  have within := bounded (by rw [sizes.2]; decide)
  rw [sizes.1,sizes.2] at within
  exact absurd within (by decide)

end LimitedMap
end Tetra
